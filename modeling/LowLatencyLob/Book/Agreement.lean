import LowLatencyLob.Book.BTree
import LowLatencyLob.Book.SortedVec
import LowLatencyLob.Book.RevVec
import LowLatencyLob.Book.FlatRefines

/-! The books show the same after every sequence of events. -/
namespace LowLatencyLob.Book

/-- Whatever the events, neither vector book panics, and after each of them both show
what the tree book shows. -/
theorem vec_books_agree (evs : List BookEvent) :
    ∃ (s : SortedVecBook) (r : RevVecBook) (t : BTreeBook), replay default evs = some s ∧
      replay default evs = some r ∧ replay default evs = some t ∧ Agree s t ∧ Agree r t := by
  obtain ⟨s,t,hs,ht,hst⟩ := SortedVecBook.refines.agree BTreeBook.refines evs (by simp) (by simp)
  obtain ⟨r,t',hr,ht',hrt⟩ := RevVecBook.refines.agree BTreeBook.refines evs (by simp) (by simp)
  obtain rfl := Option.some.inj (ht.symm.trans ht')
  exact ⟨s,r,t,hs,hr,ht,hst,hrt⟩

/-- With the prices of its levels in a bounded range, the flat book does not panic, and
after each event it shows what the tree book shows. -/
theorem flat_book_agrees {lo hi : ℤ} {evs : List BookEvent}
    (hpx : ∀ ev ∈ evs, ev.kind = .level → lo ≤ ev.px.toInt ∧ ev.px.toInt ≤ hi) (hlo : -2^63 ≤ lo-4096)
    (hhi : hi+4097 ≤ 2^63-1) (hspan : hi-lo+8193 ≤ MAX_SPAN) :
    ∃ (f : FlatBook) (t : BTreeBook), replay default evs = some f ∧ replay default evs = some t ∧
      Agree f t :=
  (FlatBook.refines ⟨hlo,by omega,hspan⟩).agree BTreeBook.refines evs hpx (by simp)

/-- Two crossed levels and a removal, within ten ticks. -/
theorem flat_book_agrees_crossed :
    let evs := [.level 0 0 .bid 100 7,.level 1 0 .ask 90 5,.level 2 0 .bid 100 0]
    ∃ (f : FlatBook) (t : BTreeBook), replay default evs = some f ∧ replay default evs = some t ∧
      Agree f t :=
  @flat_book_agrees 90 100 _ (by decide) (by decide) (by decide) (by decide)

end LowLatencyLob.Book
