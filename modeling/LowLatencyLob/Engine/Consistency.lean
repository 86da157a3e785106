import LowLatencyLob.Engine.EngineRuns
import LowLatencyLob.Book.BTree
import LowLatencyLob.Sync.SeqLockWrap

/-! Stream and snapshot of an engine over a `BTreeBook` agree, until the `u64` stamp comes
round again after `2^64` events. -/
namespace LowLatencyLob.Engine
open Book Concurrency
open SeqLock (TopOfBook)
open LowLatencyLob.Ring (Capacity Thread oneSlot)

variable {C : Capacity}

/-- Stream and snapshot of an engine agree in any order of steps, in a run of fewer than
`2^64` events of which fewer than `2^31` overlap any one snapshot: a snapshot is the top of
the book after the first `stamp` events; it reflects every event its consumer received
before; after an overrun it is past every event that is skipped or still resident; and a
poll never panics, and hands out the events that were processed. -/
theorem stream_snapshot_consistent {tr : (system C BTreeBook).Trace}
    {cfg : (system C BTreeBook).Config} (h : (system C BTreeBook).Run tr cfg)
    (hb : (processed tr).length < 2^64) (i : ℕ)
    (hlap : ∀ x ∈ told i tr, ∀ t, x.1.taken = some t → overlap x < 2^31) :
    (∀ x ∈ told i tr, ∀ t, x.1.taken = some t → t.stamp.toNat ≤ (processed tr).length ∧
      topAfter BTreeBook ((processed tr).take t.stamp.toNat) = some t) ∧
    (told i tr).Pairwise (fun x y => ∀ k ev k' t, x.1 = .observed k (.ok (.event ev)) k' →
      y.1.taken = some t → k+1 ≤ t.stamp.toNat) ∧
    (∀ x ∈ told i tr, ∀ c skipped t c', x.1 = .observed c (.ok (.overrun skipped t)) c' →
      c'+C.slots ≤ t.stamp.toNat) ∧
    ∀ x ∈ told i tr, ∀ c r c', x.1 = .observed c r c' → ∃ o, r = .ok o ∧
      ∀ ev, o = .event ev → (processed tr)[c]? = some ev := by
  have hi := run_invariant rfl h hb
  have hsnap : ∀ x ∈ told i tr, ∀ t, x.1.taken = some t → t.stamp.toNat = x.2.index ∧
      x.2.index ≤ (processed tr).length ∧
      topAfter BTreeBook ((processed tr).take x.2.index) = some t :=
    fun x hx t ht => hi.snapshot hb hx ht (hlap x hx t ht)
  refine ⟨?_,?_,?_,?_⟩
  · intro x hx t ht
    obtain ⟨hstamp,hle,htop⟩ := hsnap x hx t ht
    rw [hstamp]
    exact ⟨hle,htop⟩
  · refine (hi.reflects i).imp_of_mem ?_
    intro x y _ hy hxy k ev k' t hev ht
    rw [(hsnap y hy t ht).1]
    exact hxy k ev k' t hev ht
  · intro x hx c skipped t c' hobs
    obtain ⟨_,ho,hread⟩ := (hi.heard i x hx).observed c _ c' hobs
    cases ho
    rw [(hsnap x hx t (by rw [hobs]; rfl)).1]
    exact hread
  · intro x hx c r c' hobs
    obtain ⟨o,ho,hev⟩ := (hi.heard i x hx).observed c r c' hobs
    refine ⟨o,ho,?_⟩
    rintro ev rfl
    exact hev.1

/-- A consumer joins, three events are processed, and the lapped consumer polls. -/
def lappedMoves : List (system oneSlot BTreeBook).Mv :=
  List.flatten [[.call (.consumer 0) .consumer, .access (.consumer 0) (), .ret (.consumer 0)],
    List.flatten (List.replicate 3 (List.flatten [[.call .producer (.process (.level 0 0 .bid 7 1))],
      List.replicate 19 (.access .producer ()), [.ret .producer]])),
    [.call (.consumer 0) .poll], List.replicate 3 (.access (.consumer 0) ()),
    [.unroll (.consumer 0)], List.replicate 8 (.access (.consumer 0) ()), [.ret (.consumer 0)]]

theorem stream_snapshot_consistent_lapped : ∃ tr cfg, (system oneSlot BTreeBook).Run tr cfg ∧
    ∃ x ∈ told 0 tr, ∃ t, x.1.taken = some t ∧ t.stamp = 3 ∧
      topAfter BTreeBook ((processed tr).take t.stamp.toNat) = some t := by
  obtain ⟨tr,cfg,h,hP⟩ := System.exists_run_of_play lappedMoves
    (fun tr => decide ((processed tr).length < 2^64) &&
      (told 0 tr).all (fun x => x.1.taken.all fun _ => decide (overlap x < 2^31)) &&
      (told 0 tr).any fun x => x.1.taken.any fun t : TopOfBook => decide (t.stamp = 3)) (by decide)
  simp only [Bool.and_eq_true, decide_eq_true_eq, List.all_eq_true, List.any_eq_true,
    Option.all_eq_true, Option.any_eq_true] at hP
  obtain ⟨⟨hb,hlap⟩,x,hx,t,ht,hstamp⟩ := hP
  exact ⟨tr,cfg,h,x,hx,t,ht,hstamp,((stream_snapshot_consistent h hb 0 hlap).1 x hx t ht).2⟩

end LowLatencyLob.Engine
