import LowLatencyLob.Book.SortedVec
import LowLatencyLob.Book.RevVec

/-! The invariants of the vectors that two of the books keep: after every event each is
strictly ordered without a zero quantity, and a level event touches one entry only. -/
namespace LowLatencyLob.Book
open Sequence

instance : Std.Trichotomous fun p q : Px => p < q where
  trichotomous _ _ h h' := Int64.le_antisymm (Int64.not_lt.mp h') (Int64.not_lt.mp h)

instance (side : Side) : Std.Trichotomous (better side) where
  trichotomous p q h h' := by
    cases side with
    | bid => exact Int64.le_antisymm (Int64.not_lt.mp h) (Int64.not_lt.mp h')
    | ask => exact Int64.le_antisymm (Int64.not_lt.mp h') (Int64.not_lt.mp h)

/-- A vector of price levels: strictly ordered, no price twice, no quantity zero. -/
structure Levels (r : Px → Px → Prop) (vec : List (Px × Qty)) : Prop where
  ordered : vec.Pairwise fun x y => r x.1 y.1
  once : (vec.map Prod.fst).Nodup
  occupied : ∀ x ∈ vec, x.2 ≠ 0

/-- A level event replaces at most the entry with its own price, on its own side. -/
structure Touches (ev : BookEvent) (vecs vecs' : Side → List (Px × Qty)) : Prop where
  own : ∃ l₁ l₂ old new, vecs ev.side = l₁ ++ old ++ l₂ ∧ vecs' ev.side = l₁ ++ new ++ l₂ ∧
    old.length ≤ 1 ∧ new.length ≤ 1 ∧ ∀ x ∈ old ++ new, x.1 = ev.px
  other : ∀ side, side ≠ ev.side → vecs' side = vecs side

section Listings
variable {r : Px → Px → Prop} [IsStrictOrder Px r]

theorem levels_of_listing {f : Px → Qty} {vec : List (Px × Qty)} (h : Listing r f vec) : Levels r vec where
  ordered := h.sorted
  once := by
    refine List.pairwise_map.mpr (h.sorted.imp ?_)
    intro x y hxy heq
    rw [heq] at hxy
    exact irrefl (r := r) y.1 hxy
  occupied x hx := h.ne_zero hx

theorem entry_length_le (px : Px) (qty : Qty) : (entry px qty).length ≤ 1 := by
  unfold entry
  split_ifs <;> simp

/-- Vectors that list the quantities before and after a level event. -/
theorem touches_of_listing {order : Side → Px → Px → Prop} [∀ side, IsStrictOrder Px (order side)]
    [∀ side, Std.Trichotomous (order side)] {a : Quotes} {ev : BookEvent} (hk : ev.kind = .level)
    {vecs vecs' : Side → List (Px × Qty)} (h : ∀ side, Listing (order side) (a.qty side) (vecs side))
    (h' : ∀ side, Listing (order side) ((a.apply ev).qty side) (vecs' side)) : Touches ev vecs vecs' where
  own := by
    have hown := h' ev.side
    rw [Quotes.apply, hk] at hown
    simp only [Function.update_self] at hown
    obtain ⟨l₁,l₂,hl,hl'⟩ := (h ev.side).edit hown
    refine ⟨l₁,l₂,entry ev.px (a.qty ev.side ev.px),entry ev.px ev.qty,?_,?_,entry_length_le _ _,
      entry_length_le _ _,?_⟩
    · rw [hl, List.append_assoc]
    · rw [hl', List.append_assoc]
    · intro x hx
      rcases List.mem_append.mp hx with hx | hx
      · exact congrArg Prod.fst (mem_entry.mp hx).2
      · exact congrArg Prod.fst (mem_entry.mp hx).2
  other side hside := by
    have hother := h' side
    rw [Quotes.apply, hk] at hother
    simp only [Function.update_of_ne hside] at hother
    exact hother.unique (h side)

end Listings

/-- The vector that a side is stored in. -/
def SortedVecBook.stored (b : SortedVecBook) : Side → List (Px × Qty)
  | .bid => b.bids
  | .ask => b.asks

theorem SortedVecBook.Rep.listing {b : SortedVecBook} {a : Quotes} (h : b.Rep a) (side : Side) :
    Listing (· < ·) (a.qty side) (b.stored side) := by
  cases side with
  | bid => exact h.1
  | ask => exact h.2.1

theorem SortedVecBook.Rep.touches {b : SortedVecBook} {a : Quotes} (h : b.Rep a) {ev : BookEvent}
    (hk : ev.kind = .level) : ∃ b', OrderBook.apply b ev = some b' ∧ Touches ev b.stored b'.stored := by
  obtain ⟨b',hb',h'⟩ := h.apply ev
  exact ⟨b',hb',@touches_of_listing (fun _ => (· < ·)) _ _ _ _ hk _ _ h.listing h'.listing⟩

theorem RevVecBook.Rep.touches {b : RevVecBook} {a : Quotes} (h : b.Rep a) {ev : BookEvent}
    (hk : ev.kind = .level) : ∃ b', OrderBook.apply b ev = some b' ∧ Touches ev b.levels b'.levels := by
  obtain ⟨b',hb',h'⟩ := h.apply ev
  exact ⟨b',hb',touches_of_listing hk h.1 h'.1⟩

/-- After any events the vectors of both books are strictly ordered, each its own way, and
a further level event touches the entry at its price and no other. -/
theorem vec_books_ordered (evs : List BookEvent) :
    ∃ (s : SortedVecBook) (r : RevVecBook), replay default evs = some s ∧ replay default evs = some r ∧
      (Levels (· < ·) s.bids ∧ Levels (· < ·) s.asks) ∧ (Levels (· > ·) r.bids ∧ Levels (· < ·) r.asks) ∧
      ∀ ev : BookEvent, ev.kind = .level →
        (∃ s', OrderBook.apply s ev = some s' ∧ Touches ev s.stored s'.stored) ∧
        ∃ r', OrderBook.apply r ev = some r' ∧ Touches ev r.levels r'.levels := by
  obtain ⟨s,hs,hrep⟩ := SortedVecBook.refines.replay SortedVecBook.refines.start evs (by simp)
  obtain ⟨r,hr,hrep'⟩ := RevVecBook.refines.replay RevVecBook.refines.start evs (by simp)
  refine ⟨s,r,hs,hr,⟨levels_of_listing hrep.1,levels_of_listing hrep.2.1⟩,⟨?_,?_⟩,?_⟩
  · exact levels_of_listing (r := better .bid) (hrep'.1 .bid)
  · exact levels_of_listing (r := better .ask) (hrep'.1 .ask)
  · exact fun ev hk => ⟨hrep.touches hk,hrep'.touches hk⟩

end LowLatencyLob.Book
