import LowLatencyLob.Engine.EngineRuns
import LowLatencyLob.Feed.Gen
import Mathlib.Algebra.Order.Group.Abs

/-! An engine that is fed with a generated corpus.

A store to the cell begins only when those before it are completed, so a corpus of fewer
events than the cell has versions never brings a version round under a load. A snapshot is
then the top of a book that the generator had, and none of these is crossed. -/
namespace LowLatencyLob.Engine
open Book Concurrency Program
open SeqLock (TopOfBook)
open Feed (fromBytes RECORD_SIZE)
open Feed.Synthetic
open LowLatencyLob.Ring (Capacity Thread oneSlot)

section Stores
variable {C : Capacity} {i : ℕ} {tr : List (EngineEvent C)}

/-- An access begins one store at most, and then it completes none. -/
theorem begun_access (t : Thread) (a : Access (Val (C := C))) (r : a.Result) (tr : List (EngineEvent C)) :
    begun (.access t a r :: tr) = begun tr ∨
      (begun (.access t a r :: tr) = begun tr+1 ∧ completed (.access t a r :: tr) = completed tr) := by
  cases a with
  | load l o => cases l <;> exact .inl rfl
  | fence o => exact .inl rfl
  | store l v o =>
    cases l with
    | out l => exact .inl rfl
    | top l =>
      cases l with
      | seq =>
        cases o with
        | relaxed => exact .inr ⟨rfl,rfl⟩
        | release => exact .inl rfl
      | _ => exact .inl rfl

theorem begun_before (P : SeqLock.CellEvent → Bool) (tr : List SeqLock.CellEvent) :
    SeqLock.begun (System.before P tr) ≤ SeqLock.begun tr := by
  induction tr with
  | nil => exact le_rfl
  | cons e tr ih =>
    have hgrown : SeqLock.begun tr ≤ SeqLock.begun (e :: tr) := by
      cases e with
      | access t a r => exact Nat.le_add_right _ _
      | call t c => exact le_rfl
      | ret t o => exact le_rfl
    cases hP : P e with
    | true =>
      rw [System.before_cons_of_pos hP]
      exact hgrown
    | false =>
      rw [System.before_cons_of_neg hP]
      exact ih.trans hgrown

/-- What a call was told, it was told of stores that have begun. -/
theorem told_begun {x : Out × SeqLock.Marks} (h : x ∈ told i tr) : x.2.begun₂ ≤ begun tr := by
  induction tr with
  | nil => cases h
  | cons e tr ih =>
    cases e with
    | call t c => exact ih h
    | access t a r =>
      refine (ih h).trans ?_
      rcases begun_access t a r tr with heq | ⟨heq,_⟩ <;> omega
    | ret t o =>
      by_cases ht : t = .consumer i
      · subst ht
        rw [told_ret_self] at h
        rcases List.mem_append.mp h with h | h
        · exact ih h
        · rw [List.mem_singleton.mp h]
          exact begun_before _ _
      · have htold : told i (.ret t o :: tr) = told i tr := if_neg ht
        rw [htold] at h
        exact ih h

variable {B : Type} [OrderBook B] [Inhabited B]

/-- At most one store more has begun than there are events. -/
theorem begun_le (h₀ : topAfter B [] = some default) {tr : (system C B).Trace} {c : (system C B).Config}
    (h : (system C B).Run tr c) (hb : (processed tr).length < 2^64) : begun tr ≤ (processed tr).length+1 := by
  induction h with
  | start => exact Nat.zero_le _
  | @step tr ev c c' h m hs ih =>
    have hnext := (run_invariant h₀ (h.step m hs) hb).cell
    rcases System.step_cases hs with ⟨t,l,x,p,_,_,rfl,rfl⟩ | ⟨t,a,k,r,mem,ch,_,_,rfl,rfl⟩ |
      ⟨t,β,γ,b,body,k,_,rfl,rfl⟩ | ⟨t,l,o,_,rfl,rfl⟩
    · have hlen := (processed_grows (.call t x) tr).length_le
      have hprev := ih (processed_tail _ _ hb)
      change begun tr ≤ _
      exact hprev.trans (by simpa using hlen)
    · have hb' : (processed tr).length < 2^64 := hb
      rcases begun_access t a r tr with heq | ⟨heq,hcomp⟩
      · change begun (.access t a r :: tr) ≤ _
        rw [heq]
        exact ih hb'
      -- The cell was idle before, so that its newest value was there.
      · have hprev := (run_invariant h₀ h hb').cell
        have hcompleted : completed (.access t a r :: tr) = completed tr := hcomp
        have hle : begun (.access t a r :: tr) ≤ completed (.access t a r :: tr)+1 := hnext.begun_le
        have hge : completed tr ≤ begun tr := hprev.completed_le
        have hidle : begun tr = completed tr := by omega
        obtain ⟨hlen,_⟩ := values_getElem? (hprev.stable hidle)
        change completed tr ≤ (processed tr).length at hlen
        change begun (.access t a r :: tr) ≤ (processed tr).length+1
        omega
    · exact ih hb
    · exact ih hb

theorem overlap_le (h₀ : topAfter B [] = some default) {tr : (system C B).Trace} {c : (system C B).Config}
    (h : (system C B).Run tr c) (hb : (processed tr).length < 2^64) {x : Out × SeqLock.Marks} (hx : x ∈ told i tr) :
    overlap x ≤ (processed tr).length+1 :=
  (Nat.sub_le _ _).trans ((told_begun hx).trans (begun_le h₀ h hb))

end Stores
section Tops
variable {cfg : GenConfig} {sim : Sim} {pre : List BookEvent} {t : TopOfBook} {side : Side} {px : Px} {qty : Qty}

/-- A side of a top: zeros when it is empty, else a price on its own side of `mid`, as near
and of as many lots as the configuration has it. -/
def Quoted (cfg : GenConfig) (side : Side) (px : Px) (qty : Qty) : Prop :=
  (px = 0 ∧ qty = 0) ∨
    better side cfg.mid px ∧ |px.toInt-cfg.mid.toInt| ≤ max cfg.band.toInt 10 ∧ Sized cfg qty

theorem quoted_of_resting (hr : InRange cfg) (hs : Stocked cfg sim) (h : (sim.resting side)[px]? = some qty) :
    Quoted cfg side px qty := by
  obtain ⟨hplaced,hsized⟩ := hs side px qty h
  obtain ⟨hlo,hhi⟩ := hplaced.priced hr
  exact .inr ⟨hplaced.beyond_mid hr,abs_le.mpr ⟨by omega,by omega⟩,hsized⟩

theorem topOf_btree (b : BTreeBook) (stamp : UInt64) : topOf b stamp =
    some ⟨(b.bids.toList.getLast?.getD (0,0)).1,(b.bids.toList.getLast?.getD (0,0)).2,
      (b.asks.toList.head?.getD (0,0)).1,(b.asks.toList.head?.getD (0,0)).2,stamp⟩ := rfl

theorem quoted_getD {o : Option (Px × Qty)} (h : ∀ x, o = some x → Quoted cfg side x.1 x.2) :
    Quoted cfg side (o.getD (0,0)).1 (o.getD (0,0)).2 := by
  cases o with
  | none => exact .inl ⟨rfl,rfl⟩
  | some x => exact h x rfl

/-- The top after a part of the stream. -/
theorem quoted_of_topAfter (hr : InRange cfg) (h : Returns Sim.exec (generate cfg) (.new cfg) () sim)
    (hpre : pre <+: sim.out) (ht : topAfter BTreeBook pre = some t) :
    Quoted cfg .bid t.bidPx t.bidQty ∧ Quoted cfg .ask t.askPx t.askQty := by
  obtain ⟨sim',ho,rfl⟩ := replayed_part hr.toSane h hpre
  rw [topAfter, replay_eq, Option.bind_some, topOf_btree, ho.synced.bids_eq, ho.synced.asks_eq] at ht
  cases ht
  constructor
  · refine quoted_getD fun x hx => ?_
    have hrests : (sim'.resting .bid)[x.1]? = some x.2 :=
      Std.TreeMap.mem_toList_iff_getElem?_eq_some.mp (List.mem_of_getLast? hx)
    exact quoted_of_resting hr ho.stocked hrests
  · refine quoted_getD fun x hx => ?_
    have hrests : (sim'.resting .ask)[x.1]? = some x.2 :=
      Std.TreeMap.mem_toList_iff_getElem?_eq_some.mp (List.mem_of_head? hx)
    exact quoted_of_resting hr ho.stocked hrests

end Tops

/-- Whatever the interleaving: a consumer of an engine that processes the events of a
loaded corpus only ever sees tops of books that the generator had, none of them crossed. -/
theorem corpus_never_crossed {gen : GenConfig} (hrange : InRange gen) (hshort : gen.events+1 < 2^31)
    {bytes : List UInt8} {evs : List BookEvent} (hw : WritesCorpus gen bytes)
    (hl : (fromBytes bytes).run = some (.ok ⟨evs⟩)) {C : Capacity} {tr : (system C BTreeBook).Trace}
    {c : (system C BTreeBook).Config} (h : (system C BTreeBook).Run tr c) (hfed : processed tr <+: evs) (i : ℕ) :
    ∀ x ∈ told i tr, ∀ t, x.1.taken = some t → t.stamp.toNat ≤ (processed tr).length ∧
      topAfter BTreeBook (evs.take t.stamp.toNat) = some t ∧
      Quoted gen .bid t.bidPx t.bidQty ∧ Quoted gen .ask t.askPx t.askQty := by
  obtain ⟨evs',⟨sim,hr,rfl⟩,rfl⟩ := hw
  have hslice : RECORD_SIZE*sim.out.length ≤ 2^63-1 := by
    rw [generate_length hr]
    unfold RECORD_SIZE
    omega
  have hread := Feed.fromBytes_writeTo (Feed.EventSlice.noWrap ⟨sim.out,hslice⟩)
  rw [reload_generated ⟨sim,hr,rfl⟩] at hread
  obtain rfl : evs = sim.out := by
    rw [hread] at hl
    cases hl
    rfl
  have hlen := hfed.length_le
  rw [generate_length hr] at hlen
  have hb : (processed tr).length < 2^64 := by omega
  intro x hx t ht
  have hlap := overlap_le rfl h hb hx
  obtain ⟨hstamp,hle,htop⟩ := (run_invariant rfl h hb).snapshot hb hx ht (by omega)
  have hpart : (processed tr).take x.2.index = sim.out.take x.2.index := by
    obtain ⟨rest,hrest⟩ := hfed
    rw [← hrest, List.take_append_of_le_length hle]
  rw [← hstamp] at hle htop hpart
  rw [hpart] at htop
  exact ⟨hle,htop,quoted_of_topAfter hrange hr (List.take_prefix _ _) htop⟩

/-- A consumer joins, the ladder of one level a side is processed, and the consumer takes a
snapshot. -/
def ladderMoves : List (system oneSlot BTreeBook).Mv :=
  List.flatten [[.call (.consumer 0) .consumer, .access (.consumer 0) (), .ret (.consumer 0)],
    List.flatten ([.clear 0 0,.level 1 0 .bid 99 5,.level 2 0 .ask 101 5].map fun ev => List.flatten
      [[.call .producer (.process ev)], List.replicate 19 (.access .producer ()), [.ret .producer]]),
    [.call (.consumer 0) .snapshot, .unroll (.consumer 0)], List.replicate 8 (.access (.consumer 0) ()),
    [.ret (.consumer 0)]]

theorem corpus_never_crossed_ladder : ∃ tr c, (system oneSlot BTreeBook).Run tr c ∧
    ∃ x ∈ told 0 tr, ∃ t, x.1.taken = some t ∧ t.bidPx = 99 ∧ t.askPx = 101 ∧
      Quoted oneTrade .bid t.bidPx t.bidQty ∧ Quoted oneTrade .ask t.askPx t.askQty := by
  have hrange : InRange oneTrade := ⟨⟨by decide,by decide⟩,by decide,by decide⟩
  obtain ⟨_,sim,hr,hout⟩ := exists_returns_of_run Sim.exec (generate oneTrade) (.new oneTrade) 100
    (fun sim => decide (sim.out = [.clear 0 0,.level 1 0 .bid 99 5,.level 2 0 .ask 101 5,.trade 3 0 .ask 99 1]))
    (by decide +kernel)
  have hg : Generates oneTrade sim.out := ⟨sim,hr,rfl⟩
  have hread := @Feed.fromBytes_writeTo sim.out (by rw [of_decide_eq_true hout]; decide)
  rw [reload_generated hg] at hread
  obtain ⟨tr,c,h,hP⟩ := System.exists_run_of_play ladderMoves
    (fun tr => decide (processed tr = [.clear 0 0,.level 1 0 .bid 99 5,.level 2 0 .ask 101 5]) &&
      (told 0 tr).any fun x => x.1.taken.any fun t : TopOfBook => decide (t.bidPx = 99 ∧ t.askPx = 101)) (by decide)
  simp only [Bool.and_eq_true, decide_eq_true_eq, List.any_eq_true, Option.any_eq_true] at hP hout
  obtain ⟨hev,x,hx,t,ht,hbid,hask⟩ := hP
  have hfed : processed tr <+: sim.out := by
    rw [hev, hout]
    exact ⟨[.trade 3 0 .ask 99 1],rfl⟩
  obtain ⟨_,_,hquoted⟩ := corpus_never_crossed hrange (by decide) ⟨_,hg,rfl⟩ hread h hfed 0 x hx t ht
  exact ⟨tr,c,h,x,hx,t,ht,hbid,hask,hquoted⟩

end LowLatencyLob.Engine
