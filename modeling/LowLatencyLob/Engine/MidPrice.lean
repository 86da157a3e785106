import LowLatencyLob.Concurrency.Results
import LowLatencyLob.Engine.TopOfBook

/-! The mid price that a consumer derives on a resync.

It halves the sum of the two best prices of the snapshot, where an empty side counts as
price zero and the sum may wrap. -/
namespace LowLatencyLob.Engine
open Book Concurrency Sequence
open SeqLock (TopOfBook)
open LowLatencyLob.Ring (Capacity Thread oneSlot)

section Consumers
variable {C : Capacity} {B : Type}

/-- What a consumer keeps after an overrun: half the sum of the snapshot's best prices. -/
def Rebased : Holder B → Out → Prop
  | .consumer c, .observed _ (.ok (.overrun _ t)) _ => c.lastMid = (t.bidPx+t.askPx)/2
  | _, .observed _ (.ok (.overrun _ _)) _ => False
  | _, _ => True

theorem poll_rebases (c : Consumer) (y : Holder B × Out)
    (h : (poll (C := C) c >>= fun x =>
      pure (Holder.consumer x.1,Out.observed c.cursor x.2 x.1.cursor)).CanReturn y) :
    Rebased y.1 y.2 := by
  unfold poll at h
  rw [Program.bind_assoc] at h
  obtain ⟨⟨r,cursor⟩,h⟩ := h.of_bind
  cases r with
  | empty =>
    cases h
    trivial
  | item rec =>
    simp only at h
    cases hu : unpack rec with
    | ok ev =>
      rw [hu] at h
      cases h
      trivial
    | error e =>
      rw [hu] at h
      cases h
      trivial
  | overrun k =>
    simp only [Program.bind_assoc] at h
    obtain ⟨snap,h⟩ := h.of_bind
    cases h
    rfl

/-- Whatever its accesses see, a call that reports an overrun has rebased the mid price. -/
theorem code_rebases [OrderBook B] (l : Holder B) (x : Call)
    (p : Program (@Access.Result (Loc C) Val) (Holder B × Out))
    (hp : (object C B).code l x = some p) (y : Holder B × Out) (h : p.CanReturn y) :
    Rebased y.1 y.2 := by
  cases l with
  | producer q =>
    cases x with
    | process ev =>
      obtain ⟨code,_,rfl⟩ := Option.map_eq_some_iff.mp hp
      obtain ⟨q',h⟩ := h.of_bind
      cases h
      trivial
    | _ => cases hp
  | handle =>
    cases x with
    | consumer =>
      cases hp
      obtain ⟨c,h⟩ := h.of_bind
      cases h
      trivial
    | _ => cases hp
  | consumer c =>
    cases x with
    | poll =>
      cases hp
      exact poll_rebases c y h
    | snapshot =>
      cases hp
      obtain ⟨t,h⟩ := h.of_bind
      cases h
      trivial
    | _ => cases hp

end Consumers

/-- Half of a sum, rounded toward zero, lies between the two. -/
theorem half_between {p q : Int64} (h : -2^63 ≤ p.toInt+q.toInt) (h' : p.toInt+q.toInt < 2^63) :
    (p ≤ (p+q)/2 ∧ (p+q)/2 ≤ q) ∨ (q ≤ (p+q)/2 ∧ (p+q)/2 ≤ p) := by
  have hdiv := tdiv_two (p.toInt+q.toInt)
  rw [← toInt_add h h', ← toInt_div_two, toInt_add h h'] at hdiv
  simp only [Int64.le_iff_toInt_le]
  split at hdiv <;> omega

/-- Half of a price, rounded toward zero, is the price for zero only. -/
theorem half_eq_self {p : Int64} : p/2 = p ↔ p = 0 := by
  have hdiv := tdiv_two p.toInt
  rw [← toInt_div_two] at hdiv
  have hzero : (0 : Int64).toInt = 0 := rfl
  rw [← Int64.toInt_inj, ← Int64.toInt_inj, hzero]
  split at hdiv <;> omega

section Mid
variable {B : Type} [OrderBook B]

/-- The best prices that a book has, the bid first. -/
def bests (book : B) : List Px :=
  ((OrderBook.bestBid book).join.toList ++ (OrderBook.bestAsk book).join.toList).map Prod.fst

/-- A price between the best prices of a book, and half of a sum that fits an `i64`. -/
structure MidOf (book : B) (t : TopOfBook) (mid : Int64) : Prop where
  fits : -2^63 ≤ t.bidPx.toInt+t.askPx.toInt ∧ t.bidPx.toInt+t.askPx.toInt < 2^63
  between : ∃ p ∈ bests book, ∃ q ∈ bests book, p ≤ mid ∧ mid ≤ q

/-- Both sides have a best price and the two add up within an `i64`, or the only best
price is zero. -/
def Halves (book : B) : Prop :=
  (∃ p q, bests book = [p,q] ∧ -2^63 ≤ p.toInt+q.toInt ∧ p.toInt+q.toInt < 2^63) ∨ bests book = [0]

/-- The two best prices of a top, zero for an empty side. -/
theorem bests_of_top {book : B} {stamp : UInt64} {t : TopOfBook} (h : topOf book stamp = some t)
    (hne : bests book ≠ []) : bests book = [t.bidPx,t.askPx] ∨ (bests book = [t.bidPx] ∧ t.askPx = 0) ∨
      (bests book = [t.askPx] ∧ t.bidPx = 0) := by
  unfold topOf at h
  unfold bests at hne ⊢
  cases hb : OrderBook.bestBid book with
  | none =>
    rw [hb] at h
    cases h
  | some bid =>
    cases ha : OrderBook.bestAsk book with
    | none =>
      rw [hb, ha] at h
      cases h
    | some ask =>
      rw [hb, ha] at h hne
      cases h
      cases bid with
      | none =>
        cases ask with
        | none => exact absurd rfl hne
        | some ask => exact .inr (.inr ⟨rfl,rfl⟩)
      | some bid =>
        cases ask with
        | none => exact .inr (.inl ⟨rfl,rfl⟩)
        | some ask => exact .inl rfl

/-- With one best price, half of it is the mid price for price zero only. -/
theorem midOf_one {book : B} {t : TopOfBook} {p : Px} (hb : bests book = [p])
    (hsum : t.bidPx+t.askPx = p) (hsum' : t.bidPx.toInt+t.askPx.toInt = p.toInt) :
    MidOf book t ((t.bidPx+t.askPx)/2) ↔ Halves book := by
  rw [hsum, Halves, hb]
  constructor
  · intro hm
    obtain ⟨x,hx,y,hy,hle,hge⟩ := hm.between
    rw [hb] at hx hy
    obtain rfl := List.mem_singleton.mp hx
    obtain rfl := List.mem_singleton.mp hy
    have hz := half_eq_self.mp (Int64.le_antisymm hge hle)
    exact .inr (congrArg (fun p => [p]) hz)
  · intro hh
    obtain ⟨x,y,hxy,_⟩ | hz := hh
    · simp at hxy
    · obtain rfl : p = 0 := List.singleton_inj.mp hz
      have hp := (0 : Int64).toInt_lt
      have hp' := (0 : Int64).le_toInt
      constructor
      · rw [hsum']
        exact ⟨hp',hp⟩
      · rw [hb]
        exact ⟨0,List.mem_cons_self,0,List.mem_cons_self,by decide,by decide⟩

/-- Half of the sum of a top's prices is the mid price of its book in exactly these cases. -/
theorem midOf_iff {book : B} {stamp : UInt64} {t : TopOfBook} (h : topOf book stamp = some t)
    (hne : bests book ≠ []) : MidOf book t ((t.bidPx+t.askPx)/2) ↔ Halves book := by
  rcases bests_of_top h hne with hboth | ⟨hbid,hz⟩ | ⟨hask,hz⟩
  · rw [Halves, hboth]
    constructor
    · intro hm
      exact .inl ⟨_,_,rfl,hm.fits⟩
    · intro hh
      obtain ⟨hlow,hhigh⟩ : -2^63 ≤ t.bidPx.toInt+t.askPx.toInt ∧ t.bidPx.toInt+t.askPx.toInt < 2^63 := by
        simpa using hh
      refine ⟨⟨hlow,hhigh⟩,?_⟩
      rw [hboth]
      rcases half_between hlow hhigh with hle | hle
      · exact ⟨_,by simp,_,by simp,hle⟩
      · exact ⟨t.askPx,by simp,t.bidPx,by simp,hle⟩
  · apply midOf_one hbid
    · rw [hz, Int64.add_zero]
    · rw [hz]
      exact Int.add_zero _
  · apply midOf_one hask
    · rw [hz, Int64.zero_add]
    · rw [hz]
      exact Int.zero_add _

end Mid

section Runs
variable {C : Capacity} {tr : (system C BTreeBook).Trace} {cfg : (system C BTreeBook).Config}
variable {i k cur cur' : ℕ} {t : TopOfBook} {book : BTreeBook}

/-- After a poll that reports an overrun with the top of a book that has a best price, the
consumer holds a mid price of that book, from a sum that fits, exactly if both sides have
a best price and the two add up within an `i64`, or if the only best price is zero. -/
theorem mid_price_iff
    (h : (system C BTreeBook).Run (.ret (.consumer i) (.observed cur (.ok (.overrun k t)) cur') :: tr) cfg)
    (htop : topOf book t.stamp = some t) (hne : bests book ≠ []) :
    ∃ c, cfg.threads (.consumer i) = .idle (.consumer c) ∧ (MidOf book t c.lastMid ↔ Halves book) := by
  obtain ⟨l,hl,hr⟩ := System.Run.of_ret code_rebases h
  cases l with
  | consumer c =>
    have hmid : c.lastMid = (t.bidPx+t.askPx)/2 := hr
    refine ⟨c,hl,?_⟩
    rw [hmid]
    exact midOf_iff htop hne
  | producer p => exact hr.elim
  | handle => exact hr.elim

/-- A consumer joins, two events are processed, and the lapped consumer polls. -/
def lappedBy (ev ev' : BookEvent) : List (system oneSlot BTreeBook).Mv :=
  List.flatten [[.call (.consumer 0) .consumer, .access (.consumer 0) (), .ret (.consumer 0)],
    List.flatten ([ev,ev'].map fun ev => List.flatten [[.call .producer (.process ev)],
      List.replicate 19 (.access .producer ()), [.ret .producer]]),
    [.call (.consumer 0) .poll], List.replicate 3 (.access (.consumer 0) ()),
    [.unroll (.consumer 0)], List.replicate 8 (.access (.consumer 0) ()), [.ret (.consumer 0)]]

/-- The newest event is an overrun with the top of the book of the processed events, whose
best prices are these. -/
def resyncedOn (ps : List Px) (tr : (system oneSlot BTreeBook).Trace) : Bool :=
  match tr with
  | .ret (.consumer 0) (.observed _ (.ok (.overrun _ t)) _) :: _ =>
    (replay (default : BTreeBook) (processed tr)).any fun book =>
      decide (topOf book t.stamp = some t) && decide (bests book = ps)
  | _ => false

theorem exists_resync (ms : List (system oneSlot BTreeBook).Mv) (ps : List Px)
    (h : ((system oneSlot BTreeBook).play ms ([],(system oneSlot BTreeBook).init)).any
      (fun x => resyncedOn ps x.1) = true) :
    ∃ cur k t cur' tr cfg book,
      (system oneSlot BTreeBook).Run (.ret (.consumer 0) (.observed cur (.ok (.overrun k t)) cur') :: tr) cfg ∧
      replay (default : BTreeBook) (processed tr) = some book ∧ topOf book t.stamp = some t ∧ bests book = ps := by
  obtain ⟨tr,cfg,hrun,hP⟩ := System.exists_run_of_play ms (resyncedOn ps) h
  unfold resyncedOn at hP
  split at hP
  · obtain ⟨book,hbook,hP⟩ := (Option.any_eq_true _ _).mp hP
    simp only [Bool.and_eq_true, decide_eq_true_eq] at hP
    exact ⟨_,_,_,_,_,cfg,book,hrun,hbook,hP⟩
  · cases hP

/-- A bid at 100 and an ask at 103. -/
theorem mid_price_iff_two_sides : ∃ tr cfg c t book, (system oneSlot BTreeBook).Run tr cfg ∧
    cfg.threads (.consumer 0) = .idle (.consumer c) ∧ replay (default : BTreeBook) (processed tr) = some book ∧
    bests book = [100,103] ∧ MidOf book t c.lastMid := by
  obtain ⟨cur,k,t,cur',tr,cfg,book,h,hbook,htop,hbests⟩ := exists_resync
    (lappedBy (.level 0 0 .bid 100 1) (.level 1 0 .ask 103 1)) [100,103] (by decide)
  have hne : bests book ≠ [] := by simp [hbests]
  obtain ⟨c,hc,hiff⟩ := mid_price_iff h htop hne
  exact ⟨_,cfg,c,t,book,h,hc,hbook,hbests,hiff.mpr (.inl ⟨100,103,hbests,by decide,by decide⟩)⟩

/-- With a bid at 100 and no ask, the mid price is 50. -/
theorem mid_below_bid : ∃ cur k t cur' tr cfg c book,
    (system oneSlot BTreeBook).Run (.ret (.consumer 0) (.observed cur (.ok (.overrun k t)) cur') :: tr) cfg ∧
    cfg.threads (.consumer 0) = .idle (.consumer c) ∧ replay (default : BTreeBook) (processed tr) = some book ∧
    topOf book t.stamp = some t ∧ bests book = [100] ∧ c.lastMid = 50 ∧ ¬ MidOf book t c.lastMid := by
  obtain ⟨cur,k,t,cur',tr,cfg,book,h,hbook,htop,hbests⟩ := exists_resync
    (lappedBy (.level 0 0 .bid 100 1) (.level 1 0 .bid 100 1)) [100] (by decide)
  have hsum : t.bidPx+t.askPx = 100 := by
    rcases bests_of_top htop (by simp [hbests]) with hboth | ⟨hbid,hz⟩ | ⟨hask,hz⟩
    · rw [hbests] at hboth
      simp at hboth
    · rw [hz, Int64.add_zero]
      exact List.singleton_inj.mp (hbid.symm.trans hbests)
    · rw [hz, Int64.zero_add]
      exact List.singleton_inj.mp (hask.symm.trans hbests)
  obtain ⟨l,hl,hr⟩ := System.Run.of_ret code_rebases h
  cases l with
  | consumer c =>
    have hmid : c.lastMid = 50 := by
      have hrebased : c.lastMid = (t.bidPx+t.askPx)/2 := hr
      rw [hrebased, hsum]
      decide
    refine ⟨cur,k,t,cur',tr,cfg,c,book,h,hl,hbook,htop,hbests,hmid,?_⟩
    intro hm
    obtain ⟨p,hp,q,_,hle,_⟩ := hm.between
    rw [hbests] at hp
    obtain rfl := List.mem_singleton.mp hp
    rw [hmid] at hle
    exact absurd hle (by decide)
  | producer p => exact hr.elim
  | handle => exact hr.elim

end Runs
end LowLatencyLob.Engine
