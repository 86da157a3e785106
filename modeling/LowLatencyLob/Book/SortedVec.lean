import LowLatencyLob.Book.OrderBook

/-! `SortedVecBook`: each side a vector, strictly ascending by price, located by binary
search. -/
namespace LowLatencyLob.Book
open Sequence

structure SortedVecBook where
  /-- Strictly ascending; the best (highest) is last. -/
  bids : List (Px × Qty)
  /-- Strictly ascending; the best (lowest) is first. -/
  asks : List (Px × Qty)
  lastTrade : Option (Px × Qty × Side)

namespace SortedVecBook

instance : Inhabited SortedVecBook := ⟨⟨[],[],none⟩⟩

/-- Both sides are ascending, so one routine serves both. -/
def updateAscending (vec : List (Px × Qty)) (px : Px) (qty : Qty) : Option (List (Px × Qty)) :=
  match Slice.binarySearchBy vec fun x => compare x.1 px with
  | .ok i => if qty = 0 then Slice.remove vec i else Slice.modify vec i fun x => (x.1,qty)
  | .error i => if qty ≠ 0 then Slice.insert vec i (px,qty) else some vec

def apply (b : SortedVecBook) (ev : BookEvent) : Option SortedVecBook :=
  match ev.kind with
  | .level =>
    match ev.side with
    | .bid => do
      let bids ← updateAscending b.bids ev.px ev.qty
      return { b with bids }
    | .ask => do
      let asks ← updateAscending b.asks ev.px ev.qty
      return { b with asks }
  | .trade => some { b with lastTrade := some (ev.px,ev.qty,ev.side) }
  | .clear => some ⟨[],[],none⟩

def bestFirst (b : SortedVecBook) : Side → List (Px × Qty)
  | .bid => b.bids.reverse
  | .ask => b.asks

instance : OrderBook SortedVecBook where
  apply := apply
  bestBid b := some b.bids.getLast?
  bestAsk b := some b.asks.head?
  topN b side out := some (Slice.zipWrite (b.bestFirst side) out)
  depth
    | b, .bid => b.bids.length
    | b, .ask => b.asks.length
  lastTrade b := b.lastTrade

/-- The update of a strictly ascending vector never panics, and lists the new quantity. -/
theorem updateAscending_listing {vec : List (Px × Qty)} {f : Px → Qty} (h : Listing (· < ·) f vec)
    (px : Px) (qty : Qty) : ∃ vec', updateAscending vec px qty = some vec' ∧
      Listing (· < ·) (Function.update f px qty) vec' := by
  have hcmp : vec.Pairwise fun a b => compare a.1 px = .lt ∨ compare b.1 px = .gt := by
    refine h.sorted.imp ?_
    intro a b hab
    rw [Std.compare_eq_lt, Std.compare_eq_gt]
    by_cases hlt : a.1 < px
    · exact .inl hlt
    · exact .inr (Int64.lt_of_le_of_lt (Int64.not_lt.mp hlt) hab)
  unfold updateAscending
  rcases Slice.binarySearchBy_spec hcmp with ⟨l₁,⟨p,q⟩,l₂,rfl,hs,hp⟩ | ⟨l₁,l₂,rfl,hs,h₁,h₂⟩
  · rw [hs]
    obtain rfl : p = px := Std.compare_eq_iff_eq.mp hp
    refine ⟨l₁ ++ (entry p qty ++ l₂),?_,h.update_at qty⟩
    simp only [Slice.remove_append, Slice.modify_append]
    split_ifs with hq
    · rw [hq, entry_zero, List.nil_append]
    · rw [entry_of_ne p hq]
      rfl
  · rw [hs]
    have hup := h.update_between (fun x hx => Std.compare_eq_lt.mp (h₁ x hx))
      (fun x hx => Std.compare_eq_gt.mp (h₂ x hx)) qty
    refine ⟨l₁ ++ (entry px qty ++ l₂),?_,hup⟩
    simp only [Slice.insert_append]
    split_ifs with hq
    · rw [entry_of_ne px hq]
      rfl
    · rw [not_not.mp hq, entry_zero, List.nil_append]

def Rep (b : SortedVecBook) (a : Quotes) : Prop :=
  Listing (· < ·) (a.qty .bid) b.bids ∧ Listing (· < ·) (a.qty .ask) b.asks ∧ b.lastTrade = a.lastTrade

theorem Rep.apply {b : SortedVecBook} {a : Quotes} (h : Rep b a) (ev : BookEvent) :
    ∃ b', b.apply ev = some b' ∧ Rep b' (a.apply ev) := by
  obtain ⟨hb,ha,ht⟩ := h
  unfold SortedVecBook.apply Quotes.apply
  cases ev.kind with
  | level =>
    cases ev.side with
    | bid =>
      obtain ⟨bids,heq,hl⟩ := updateAscending_listing hb ev.px ev.qty
      exact ⟨{ b with bids },by rw [heq]; rfl,by simpa using hl,by simpa using ha,ht⟩
    | ask =>
      obtain ⟨asks,heq,hl⟩ := updateAscending_listing ha ev.px ev.qty
      exact ⟨{ b with asks },by rw [heq]; rfl,by simpa using hb,by simpa using hl,ht⟩
  | trade => exact ⟨_,rfl,hb,ha,rfl⟩
  | clear => exact ⟨_,rfl,.empty,.empty,rfl⟩

/-- A `SortedVecBook` keeps to the quantities it stands for, over all events. -/
theorem refines : Refines (fun _ => True) Rep where
  start := ⟨.empty,.empty,rfl⟩
  step _ h := h.apply _
  shows {b a} h := by
    obtain ⟨hb,ha,ht⟩ := h
    refine ⟨b.bestFirst,?_,?_,rfl,fun side out => congrArg some (Slice.zipWrite_eq _ out),?_,ht⟩
    · intro side
      cases side with
      | bid => exact hb.reverse
      | ask => exact ha
    · exact congrArg some List.head?_reverse.symm
    · intro side
      cases side with
      | bid => exact List.length_reverse.symm
      | ask => rfl

end SortedVecBook
end LowLatencyLob.Book
