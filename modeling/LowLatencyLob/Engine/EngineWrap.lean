import LowLatencyLob.Engine.Consistency
import LowLatencyLob.Sync.SeqLockWrap
import LowLatencyLob.Sync.RingSerial

/-! The `u64` stamp comes round again after `2^64` events.

A snapshot with stamp zero then shows the book as it is, and not the book before the
first event. -/
namespace LowLatencyLob.Engine
open Book Concurrency
open SeqLock (TopOfBook)
open LowLatencyLob.Ring (Capacity Thread oneSlot)

variable {C : Capacity}

/-- The atomics of a cell and of a ring, side by side. -/
def join (m : ∀ l, SeqLock.Val l) (r : ∀ l : Ring.Loc C W, Ring.Val l) : ∀ l : Loc C, Val l
  | .top l => m l
  | .out l => r l

theorem join_top (m : ∀ l, SeqLock.Val l) (r : ∀ l : Ring.Loc C W, Ring.Val l)
    (a : Access SeqLock.Val) : ∃ x, (topAccess a).act (join m r) = (x,join (a.act m).2 r) ∧
      topResult a x = (a.act m).1 := by
  cases a with
  | load l o => exact ⟨_,rfl,rfl⟩
  | fence o => exact ⟨_,rfl,rfl⟩
  | store l v o =>
    refine ⟨(),Prod.ext rfl (funext fun l' => ?_),rfl⟩
    cases l' with
    | top l' =>
      by_cases h : l' = l
      · subst l'
        simp [topAccess, Access.act, join]
      · simp [topAccess, Access.act, join, h]
    | out l' => simp [topAccess, Access.act, join]

theorem join_out (m : ∀ l, SeqLock.Val l) (r : ∀ l : Ring.Loc C W, Ring.Val l)
    (a : Access (Ring.Val (C := C) (W := W))) :
    ∃ x, (outAccess a).act (join m r) = (x,join m (a.act r).2) ∧ outResult a x = (a.act r).1 := by
  cases a with
  | load l o => exact ⟨_,rfl,rfl⟩
  | fence o => exact ⟨_,rfl,rfl⟩
  | store l v o =>
    refine ⟨(),Prod.ext rfl (funext fun l' => ?_),rfl⟩
    cases l' with
    | top l' => simp [outAccess, Access.act, join]
    | out l' =>
      by_cases h : l' = l
      · subst l'
        simp [outAccess, Access.act, join]
      · simp [outAccess, Access.act, join, h]

section Solo

theorem store_runs_alone (v : ℕ) (t t' : TopOfBook) (r : ∀ l : Ring.Loc C W, Ring.Val l) :
    ∃ as, Solo (interleaving Thread Val) .producer (join (SeqLock.cell v t') r) (onTop (SeqLock.store t))
      as () (join (SeqLock.cell ((v+2) % 2^32) t) r) := by
  apply Solo.lift (N := interleaving Thread Val) (fun m => join m r) _ (SeqLock.store_solo v t t')
  intro m a ch x m' hx
  obtain ⟨rfl,rfl⟩ := interleaving_exec hx
  obtain ⟨y,hy,hres⟩ := join_top m r a
  exact ⟨(),y,congrArg some hy,hres⟩

theorem push_runs_alone (m : ∀ l, SeqLock.Val l) (rec : Ring.Record W)
    (r : ∀ l : Ring.Loc C W, Ring.Val l) :
    ∃ as r', Solo (interleaving Thread Val) .producer (join m r) (onRing (Ring.push C rec)) as ()
      (join m r') := by
  obtain ⟨s',⟨as,hs⟩,_⟩ := Ring.push_alone (t := .producer) ⟨[],r,false⟩ rec
  suffices hlift : ∃ as', Solo (interleaving Thread Val) .producer (join m r)
      (onRing (Ring.push C rec)) as' () (join m s'.mem) by
    obtain ⟨as',hs'⟩ := hlift
    exact ⟨as',s'.mem,hs'⟩
  apply Solo.lift (N := interleaving Thread Val) (join m) _ hs
  intro m' a ch x r'' hx
  obtain ⟨rfl,rfl⟩ := interleaving_exec hx
  obtain ⟨y,hy,hres⟩ := join_out m m' a
  exact ⟨(),y,congrArg some hy,hres⟩

end Solo

section Lap
variable {B : Type} [OrderBook B] [Inhabited B] {tr : (system C B).Trace} {c : (system C B).Config}

theorem processed_accesses (t : Thread) (as : List (Σ a : Access (Val (C := C)), a.Result))
    (tr : List (EngineEvent C)) : processed (accesses t as ++ tr) = processed tr := by
  induction as generalizing tr with
  | nil => rfl
  | cons y as ih =>
    rw [accesses_cons, List.append_assoc, ih]
    rfl

theorem told_append {i : ℕ} {evs : List (EngineEvent C)} (h : ∀ e ∈ evs, e.thread ≠ .consumer i)
    (tr : List (EngineEvent C)) : told i (evs ++ tr) = told i tr := by
  induction evs with
  | nil => rfl
  | cons e evs ih =>
    have hs := Same.other (h e List.mem_cons_self) (evs ++ tr)
    exact hs.told_eq.trans (ih fun e' he' => h e' (List.mem_cons_of_mem _ he'))

theorem told_accesses (i : ℕ) (t : Thread) (as : List (Σ a : Access (Val (C := C)), a.Result))
    (tr : List (EngineEvent C)) : told i (accesses t as ++ tr) = told i tr := by
  induction as generalizing tr with
  | nil => rfl
  | cons y as ih =>
    rw [accesses_cons, List.append_assoc, ih]
    rfl

/-- The producer processes one event while everybody else waits. -/
theorem exists_process (ev : BookEvent) {book book' : B} {stamp : UInt64} {t t' : TopOfBook} {v : ℕ}
    {r : ∀ l : Ring.Loc C W, Ring.Val l} (ha : OrderBook.apply book ev = some book')
    (ht : topOf book' (stamp+1) = some t) (h : (system C B).Run tr c)
    (hp : c.threads .producer = .idle (.producer ⟨book,stamp⟩))
    (hm : c.mem = join (SeqLock.cell v t') r) :
    ∃ tr' c', (system C B).Run tr' c' ∧ c'.threads .producer = .idle (.producer ⟨book',stamp+1⟩) ∧
      (∀ u, u ≠ .producer → c'.threads u = c.threads u) ∧
      (∃ r', c'.mem = join (SeqLock.cell ((v+2) % 2^32) t) r') ∧
      processed tr' = processed tr ++ [ev] ∧ ∀ i, told i tr' = told i tr := by
  obtain ⟨as,hs⟩ := store_runs_alone v t t' r
  obtain ⟨bs,r',hb⟩ := push_runs_alone (SeqLock.cell ((v+2) % 2^32) t) (pack ev) r
  have hsolo := (hs.bind
    (f := fun _ => onRing (Ring.push C (pack ev)) >>= fun _ => pure (Producer.mk book' (stamp+1)))
    (hb.map fun _ => Producer.mk book' (stamp+1))).map fun p => (Holder.producer p,Out.processed)
  have hcode : (object C B).code (.producer ⟨book,stamp⟩) (.process ev) = some
      ((onTop (SeqLock.store t) >>= fun _ => onRing (Ring.push C (pack ev)) >>= fun _ =>
        pure (Producer.mk book' (stamp+1))) >>= fun p => pure (.producer p,.processed)) := by
    simp only [process, ha, ht, Option.bind_some, Option.map_some]
  rw [← hm] at hsolo
  have hrun := h.solo_call hp hcode hsolo
  have hthread : ∀ i, ∀ e ∈ .ret .producer .processed :: accesses .producer (as ++ bs) ++
      [(.call .producer (.process ev) : EngineEvent C)], e.thread ≠ .consumer i := by
    intro i e he
    rcases List.mem_append.mp he with he | he
    · rcases List.mem_cons.mp he with rfl | he
      · simp [Event.thread]
      · simp [thread_of_mem_accesses he]
    · obtain rfl := List.mem_singleton.mp he
      simp [Event.thread]
  refine ⟨_,_,hrun,?_,?_,⟨r',rfl⟩,?_,?_⟩
  · simp [System.Config.advance]
  · intro u hu
    simp [System.Config.advance, System.Config.set, Function.update_of_ne hu]
  · change processed (accesses .producer (as ++ bs) ++
      Event.call Thread.producer (Call.process ev) :: tr) = _
    rw [processed_accesses]
    rfl
  · intro i
    have htold := told_append (hthread i) tr
    rw [List.append_assoc] at htold
    exact htold

/-- The producer processes one event `n` times over, which leaves its book as it is. -/
theorem exists_lap (ev : BookEvent) {book : B} {stamp : UInt64} {t : UInt64 → TopOfBook} {v : ℕ}
    (ha : OrderBook.apply book ev = some book) (ht : ∀ stamp, topOf book stamp = some (t stamp))
    (h : (system C B).Run tr c) (hp : c.threads .producer = .idle (.producer ⟨book,stamp⟩))
    (hm : ∃ r, c.mem = join (SeqLock.cell v (t stamp)) r) (hv : v < 2^32) (n : ℕ) :
    ∃ tr' c', (system C B).Run tr' c' ∧ (∀ u, u ≠ .producer → c'.threads u = c.threads u) ∧
      c'.threads .producer = .idle (.producer ⟨book,stamp+.ofNat n⟩) ∧
      (∃ r', c'.mem = join (SeqLock.cell ((v+2*n) % 2^32) (t (stamp+.ofNat n))) r') ∧
      processed tr' = processed tr ++ List.replicate n ev ∧ ∀ i, told i tr' = told i tr := by
  induction n with
  | zero =>
    have hz : stamp+.ofNat 0 = stamp := UInt64.add_zero stamp
    refine ⟨tr,c,h,fun _ _ => rfl,?_,?_,by simp,fun _ => rfl⟩
    · rw [hz]
      exact hp
    · rw [hz, Nat.mul_zero, Nat.add_zero, Nat.mod_eq_of_lt hv]
      exact hm
  | succ n ih =>
    obtain ⟨tr₁,c₁,h₁,hth₁,hp₁,⟨r₁,hm₁⟩,hev₁,htold₁⟩ := ih
    have hs : stamp+.ofNat n+1 = stamp+.ofNat (n+1) := by
      rw [UInt64.ofNat_add, UInt64.add_assoc]
      rfl
    obtain ⟨tr₂,c₂,h₂,hp₂,hth₂,⟨r₂,hm₂⟩,hev₂,htold₂⟩ := exists_process ev ha (ht _) h₁ hp₁ hm₁
    rw [hs] at hp₂ hm₂
    refine ⟨tr₂,c₂,h₂,fun u hu => (hth₂ u hu).trans (hth₁ u hu),hp₂,⟨r₂,?_⟩,?_,
      fun i => (htold₂ i).trans (htold₁ i)⟩
    · rw [hm₂]
      congr 2
      omega
    · rw [hev₂, hev₁, List.append_assoc, List.replicate_succ']

end Lap

/-- The accesses of a snapshot that nothing interrupts, from version zero. -/
def snapshotAccesses (C : Capacity) (t : TopOfBook) : List (Σ a : Access (Val (C := C)), a.Result) :=
  [⟨.load (.top .seq) .acquire,(0 : ℕ)⟩,⟨.load (.top .bidPx) .relaxed,t.bidPx⟩,
    ⟨.load (.top .bidQty) .relaxed,t.bidQty⟩,⟨.load (.top .askPx) .relaxed,t.askPx⟩,
    ⟨.load (.top .askQty) .relaxed,t.askQty⟩,⟨.load (.top .stamp) .relaxed,t.stamp⟩,
    ⟨.fence .acquire,()⟩,⟨.load (.top .seq) .relaxed,(0 : ℕ)⟩]

theorem snapshot_alone (B : Type) (i : ℕ) (c : Consumer) (t : TopOfBook)
    (r : ∀ l : Ring.Loc C W, Ring.Val l) :
    Solo (interleaving Thread Val) (.consumer i) (join (SeqLock.new t) r)
      (snapshot >>= fun t => pure ((.consumer c : Holder B),Out.snapshot t)) (snapshotAccesses C t)
      (.consumer c,.snapshot t) (join (SeqLock.new t) r) := by
  refine .loop (.access () rfl ?_)
  simp only [topResult, Program.bind, Nat.zero_and, if_true]
  refine .access () rfl (.access () rfl (.access () rfl (.access () rfl (.access () rfl
    (.access () rfl (.access () rfl ?_))))))
  simp only [topResult, Program.bind, if_true]
  exact .done _ _

theorem overlap_alone (i : ℕ) (t : TopOfBook) (o : Out) (tr : List (EngineEvent C)) :
    overlap (o,marks i (accesses (Thread.consumer i) (snapshotAccesses C t) ++ tr)) = 0 := by
  have hcell : cellTrace (accesses (Thread.consumer i) (snapshotAccesses C t) ++ tr) =
      .access (.reader i) (.load .seq .relaxed) (0 : ℕ) ::
      .access (.reader i) (.fence .acquire) () ::
      .access (.reader i) (.load .stamp .relaxed) t.stamp ::
      .access (.reader i) (.load .askQty .relaxed) t.askQty ::
      .access (.reader i) (.load .askPx .relaxed) t.askPx ::
      .access (.reader i) (.load .bidQty .relaxed) t.bidQty ::
      .access (.reader i) (.load .bidPx .relaxed) t.bidPx ::
      .access (.reader i) (.load .seq .acquire) (0 : ℕ) :: cellTrace tr := rfl
  simp [overlap, marks, hcell, SeqLock.marks, System.before, SeqLock.isFirst, SeqLock.isSecond,
    SeqLock.begun, SeqLock.begins]

/-- A consumer that has joined a new engine. -/
theorem exists_joined : ∃ tr cfg c, (system oneSlot BTreeBook).Run tr cfg ∧
    cfg.threads .producer = .idle (.producer ⟨default,0⟩) ∧
    cfg.threads (.consumer 0) = .idle (.consumer c) ∧
    cfg.mem = join (SeqLock.cell 0 default) Ring.init ∧ processed tr = [] ∧
    ∃ m, told 0 tr = [(.joined 0,m)] := by
  have h₀ : (system oneSlot BTreeBook).Run [] _ := .start
  have hsolo : Solo (interleaving Thread Val) (.consumer 0) (new (C := oneSlot))
      (consumer >>= fun c => pure ((.consumer c : Holder BTreeBook),Out.joined c.cursor)) _
      (.consumer ⟨0,0,0,0⟩,.joined 0) new := .access () rfl (.done _ _)
  have hrun := h₀.solo_call (t := .consumer 0) rfl (x := Call.consumer) rfl hsolo
  refine ⟨_,_,_,hrun,rfl,rfl,?_,rfl,_,rfl⟩
  funext l
  cases l with
  | top l => cases l <;> rfl
  | out l => rfl

/-- A bid and `2^64-1` trades are processed, and the stamp is zero again. -/
theorem stale_stamp : ∃ tr cfg, (system oneSlot BTreeBook).Run tr cfg ∧
    (∀ x ∈ told 0 tr, ∀ t, x.1.taken = some t → overlap x < 2^31) ∧
    ∃ x ∈ told 0 tr, ∃ t, x.1.taken = some t ∧
      topAfter BTreeBook ((processed tr).take t.stamp.toNat) ≠ some t := by
  obtain ⟨tr₀,c₀,c,h₀,hp₀,hc₀,hm₀,_,m,htold₀⟩ := exists_joined
  -- The bid, a first trade, and the other trades, which leave the book as it is.
  obtain ⟨tr₁,c₁,h₁,hp₁,hth₁,⟨r₁,hm₁⟩,_,htold₁⟩ :=
    exists_process (.level 0 0 .bid 1 1) (t := ⟨1,1,0,0,1⟩) rfl rfl h₀ hp₀ hm₀
  obtain ⟨tr₂,c₂,h₂,hp₂,hth₂,hm₂,_,htold₂⟩ :=
    exists_process (.trade 0 0 .bid 1 1) (t := ⟨1,1,0,0,2⟩) rfl rfl h₁ hp₁ hm₁
  obtain ⟨n,hn⟩ : ∃ n, n+2 = 2^64 := ⟨2^64-2,by omega⟩
  obtain ⟨tr₃,c₃,h₃,hth₃,_,⟨r₃,hm₃⟩,_,htold₃⟩ := exists_lap (.trade 0 0 .bid 1 1)
    (t := fun stamp => ⟨1,1,0,0,stamp⟩) rfl (fun _ => rfl) h₂ hp₂ hm₂ (by decide) n
  have hseq : ((0+2) % 2^32+2) % 2^32+2*n = 2*2^64 := by omega
  have hstamp : (0 : UInt64)+1+1+.ofNat n = 0 := by
    apply UInt64.toNat_inj.mp
    rw [UInt64.toNat_add, UInt64.toNat_ofNat']
    have htwo : ((0 : UInt64)+1+1).toNat = 2 := rfl
    rw [htwo]
    change (2+n % 2^64) % 2^64 = 0
    omega
  rw [hseq, hstamp] at hm₃
  have hs := snapshot_alone BTreeBook 0 c ⟨1,1,0,0,0⟩ r₃
  have hidle : c₃.threads (.consumer 0) = .idle (.consumer c) := by
    rw [hth₃ _ (by simp), hth₂ _ (by simp), hth₁ _ (by simp), hc₀]
  have hnew : SeqLock.cell 0 ⟨1,1,0,0,0⟩ = SeqLock.new ⟨1,1,0,0,0⟩ := by
    funext l
    cases l <;> rfl
  have hm : c₃.mem = join (SeqLock.cell 0 ⟨1,1,0,0,0⟩) r₃ := hm₃
  rw [← hnew, ← hm] at hs
  have hrun := h₃.solo_call hidle (x := Call.snapshot) rfl hs
  have htold : told 0 (accesses (.consumer 0) (snapshotAccesses oneSlot ⟨1,1,0,0,0⟩) ++
      Event.call (Thread.consumer 0) Call.snapshot :: tr₃) = [(.joined 0,m)] := by
    rw [← htold₀, ← htold₁ 0, ← htold₂ 0, ← htold₃ 0]
    exact told_accesses 0 _ _ _
  refine ⟨_,_,hrun,?_,?_⟩
  · intro x hx t ht
    rw [List.cons_append, told_ret_self, htold] at hx
    rcases List.mem_cons.mp hx with rfl | hx
    · cases ht
    · obtain rfl := List.mem_singleton.mp hx
      rw [overlap_alone]
      exact Nat.two_pow_pos 31
  · rw [List.cons_append, told_ret_self]
    refine ⟨_,List.mem_append_right _ List.mem_cons_self,⟨1,1,0,0,0⟩,rfl,?_⟩
    rw [show (⟨1,1,0,0,0⟩ : TopOfBook).stamp.toNat = 0 from rfl, List.take_zero]
    decide

end LowLatencyLob.Engine
