import LowLatencyLob.Book.FlatUnwind
import LowLatencyLob.Engine.Engine

/-! An engine over a `FlatBook` where the panic of its book unwinds. -/
namespace LowLatencyLob.Engine.Unwinding
open Book Concurrency
open Book.FlatBook.Unwinding
open LowLatencyLob.Ring (Capacity)

section Process
variable {C : Capacity} {p : Producer FlatBook} {ev : BookEvent}

/-- `process`, with what it leaves behind where its book panics. -/
def process (p : Producer FlatBook) (ev : BookEvent) : Code C (Except Panic Unit × Producer FlatBook) :=
  match (apply ev).run p.book with
  | (.error e,book) => return (.error e,{ p with book })
  | (.ok _,book) =>
    let stamp := p.stamp+1
    match topOf book stamp with
    | none => return (.error .bounds,{ p with book })
    | some t => do
      onTop (SeqLock.store t)
      onRing (Ring.push C (pack ev))
      return (.ok (),⟨book,stamp⟩)

/-- Where its book does not panic, this is the producer step. -/
theorem process_ok {book : FlatBook} (hrun : (apply ev).run p.book = (.ok (),book))
    (happly : OrderBook.apply p.book ev = some book) {code : Code C (Producer FlatBook)}
    (hcode : Engine.process p ev = some code) :
    process p ev = code >>= fun p' => pure (.ok (),p') := by
  unfold Engine.process at hcode
  rw [happly, Option.bind_some] at hcode
  obtain ⟨t,ht,rfl⟩ := Option.map_eq_some_iff.mp hcode
  unfold process
  simp only [hrun, ht, Program.bind_assoc]
  rfl

/-- Where its book panics, nothing is stored or pushed and the stamp stays. -/
theorem process_error {e : Panic} {book : FlatBook} (hrun : (apply ev).run p.book = (.error e,book)) :
    process (C := C) p ev = pure (.error e,{ p with book }) := by
  unfold process
  simp only [hrun]

end Process
section Growth
variable {evs : List BookEvent} {ev : BookEvent}

/-- Growing is all or nothing. For a price that the window may admit, a book that callers
reached covers the price and keeps every quantity, best and depth, and the producer step goes
on. For any other it panics at the span assertion with every field as it was, so that later
events find it as if the rejected one had not been applied, and the producer step has stored
and pushed nothing. -/
theorem growth_all_or_nothing (hevs : ∀ ev ∈ evs, ev.kind = .level → Margins ev.px)
    (hk : ev.kind = .level) (hpx : Margins ev.px) :
    (Admits (after default evs) ev.px →
      (∃ b', (ensureRange ev.px).run (after default evs) = (.ok (),b') ∧ Grown (after default evs) ev.px b') ∧
      ∀ (C : Capacity) (stamp : UInt64) (code : Code C (Producer FlatBook)),
        Engine.process ⟨after default evs,stamp⟩ ev = some code →
        process ⟨after default evs,stamp⟩ ev = code >>= fun p' => pure (.ok (),p')) ∧
    (¬ Admits (after default evs) ev.px →
      (ensureRange ev.px).run (after default evs) = (.error .span,after default evs) ∧
      (apply ev).run (after default evs) = (.error .span,after default evs) ∧
      (∀ evs', after (after default evs) (ev :: evs') = after (after default evs) evs') ∧
      ∀ (C : Capacity) (stamp : UInt64), process (C := C) ⟨after default evs,stamp⟩ ev =
        pure (.error .span,⟨after default evs,stamp⟩)) := by
  have h : Sound (after default evs) := sound_default.after evs hevs
  constructor
  · intro hadmits
    constructor
    · rcases h.ensureRange hpx with ⟨_,b',_,hrun,_,hgrown⟩ | ⟨hrefused,_⟩
      · exact ⟨b',hrun,hgrown⟩
      · exact absurd hadmits hrefused
    · intro C stamp code hcode
      rcases h.apply fun _ => hpx with ⟨b',happly,hrun,_⟩ | ⟨_,_,hrefused,_⟩
      · exact process_ok hrun happly hcode
      · exact absurd hadmits hrefused
  · intro hrefused
    rcases h.ensureRange hpx with ⟨hadmits,_⟩ | ⟨_,_,hrun⟩
    · exact absurd hadmits hrefused
    · have hpanic := run_level_error hk hrun
      exact ⟨hrun,hpanic,after_cons_of_panic hpanic,fun C stamp => process_error hpanic⟩

/-- A bid at 0, then an ask 9 million ticks away: that is past the cap. An ask 5000 ticks away
is in a window that has grown. -/
theorem growth_all_or_nothing_far :
    (ensureRange 9000000).run (after default [.level 1 1 .bid 0 1]) =
      (.error .span,after default [.level 1 1 .bid 0 1]) ∧
    ∃ b', (ensureRange 5000).run (after default [.level 1 1 .bid 0 1]) = (.ok (),b') ∧
      Grown (after default [.level 1 1 .bid 0 1]) 5000 b' := by
  have hevs : ∀ ev ∈ [BookEvent.level 1 1 .bid 0 1], ev.kind = .level → Margins ev.px := by
    unfold Margins
    decide
  have hfar := @growth_all_or_nothing _ (.level 2 2 .ask 9000000 1) hevs rfl (by unfold Margins; decide)
  have hnear := @growth_all_or_nothing _ (.level 2 2 .ask 5000 1) hevs rfl (by unfold Margins; decide)
  have hrefused : ¬ Admits (after default [.level 1 1 .bid 0 1]) 9000000 := by
    unfold Admits FlatBook.Covers FlatBook.spanWith
    decide +kernel
  have hadmits : Admits (after default [.level 1 1 .bid 0 1]) 5000 := by
    unfold Admits FlatBook.Covers FlatBook.spanWith
    decide +kernel
  exact ⟨(hfar.2 hrefused).1,(hnear.1 hadmits).1⟩

end Growth
end LowLatencyLob.Engine.Unwinding
