import LowLatencyLob.Book.BTree
import Mathlib.Data.List.DropRight

/-! What a book shows, in terms of the events it was given: the last level event at each
price since the last clear, and the last trade since then. -/
namespace LowLatencyLob.Book
open Sequence

/-- The events after the last clear. -/
def sinceClear (evs : List BookEvent) : List BookEvent := evs.rtakeWhile fun ev => ev.kind ≠ .clear

/-- The last level event of a history on a side at a price. -/
def lastLevel (side : Side) (px : Px) (H : List BookEvent) : Option BookEvent :=
  (H.filter fun ev => ev.kind = .level ∧ ev.side = side ∧ ev.px = px).getLast?

/-- The price, quantity and side of the last trade event of a history. -/
def lastTradeOf (H : List BookEvent) : Option (Px × Qty × Side) :=
  (H.filter fun ev => ev.kind = .trade).getLast?.map fun ev => (ev.px,ev.qty,ev.side)

section Append
variable {H : List BookEvent} {ev : BookEvent}

theorem sinceClear_append_clear (h : ev.kind = .clear) : sinceClear (H ++ [ev]) = [] :=
  List.rtakeWhile_concat_neg _ _ _ (by simp [h])

theorem sinceClear_append (h : ev.kind ≠ .clear) : sinceClear (H ++ [ev]) = sinceClear H ++ [ev] :=
  List.rtakeWhile_concat_pos _ _ _ (by simp [h])

theorem lastLevel_append (side : Side) (px : Px) : lastLevel side px (H ++ [ev]) =
    if ev.kind = .level ∧ ev.side = side ∧ ev.px = px then some ev else lastLevel side px H := by
  unfold lastLevel
  rw [List.filter_append]
  split_ifs with h
  · simp [h]
  · simp [h]

theorem lastTradeOf_append : lastTradeOf (H ++ [ev]) =
    if ev.kind = .trade then some (ev.px,ev.qty,ev.side) else lastTradeOf H := by
  unfold lastTradeOf
  rw [List.filter_append]
  split_ifs with h
  · simp [h]
  · simp [h]

end Append

namespace Quotes

/-- The quantities that a history leaves: at each price that of the last level event. -/
def ofHistory (H : List BookEvent) : Quotes where
  qty side px := ((lastLevel side px H).map BookEvent.qty).getD 0
  lastTrade := lastTradeOf H

theorem ofHistory_append {H : List BookEvent} {ev : BookEvent} (h : ev.kind ≠ .clear) :
    ofHistory (H ++ [ev]) = (ofHistory H).apply ev := by
  unfold ofHistory apply
  simp only [lastLevel_append, lastTradeOf_append]
  cases hk : ev.kind with
  | clear => exact absurd hk h
  | trade => simp
  | level =>
    simp only [reduceCtorEq, if_false, true_and]
    congr 1
    funext side px
    by_cases hs : side = ev.side
    · subst side
      rw [Function.update_self]
      by_cases hp : px = ev.px
      · subst px
        simp
      · simp [Function.update_of_ne hp, Ne.symm hp]
    · simp [Function.update_of_ne hs, Ne.symm hs]

/-- After any events the quantities are those of the history since the last clear. -/
theorem replay_empty (evs : List BookEvent) : replay .empty evs = ofHistory (sinceClear evs) := by
  induction evs using List.reverseRecOn with
  | nil => rfl
  | append_singleton evs ev ih =>
    have hstep : replay .empty (evs ++ [ev]) = (replay .empty evs).apply ev := by
      simp [replay]
    rw [hstep, ih]
    by_cases hk : ev.kind = .clear
    · rw [sinceClear_append_clear hk, apply, hk]
      rfl
    · rw [sinceClear_append hk, ofHistory_append hk]

end Quotes

section Tells
variable {B : Type} [OrderBook B]

def best (b : B) : Side → Option (Option (Px × Qty))
  | .bid => OrderBook.bestBid b
  | .ask => OrderBook.bestAsk b

/-- A book shows what a history says: on each side one ladder, best first, of the last
quantities that are not zero. -/
structure Tells (b : B) (H : List BookEvent) : Prop where
  ladder : ∀ side, ∃ ladder : List (Px × Qty),
    (∀ out, out.length = OrderBook.depth b side →
      OrderBook.topN b side out = some (OrderBook.depth b side,ladder)) ∧
    (∀ px qty, (px,qty) ∈ ladder ↔ qty ≠ 0 ∧ ∃ ev, lastLevel side px H = some ev ∧ ev.qty = qty) ∧
    ladder.Pairwise (fun x y => better side x.1 y.1) ∧
    OrderBook.depth b side = ladder.length ∧
    best b side = some ladder.head?
  lastTrade : OrderBook.lastTrade b = lastTradeOf H

theorem Shows.tells {b : B} {H : List BookEvent} {ladder : Side → List (Px × Qty)}
    (h : Shows b (.ofHistory H) ladder) : Tells b H where
  ladder side := by
    refine ⟨ladder side,?_,?_,(h.listing side).sorted,h.depth side,?_⟩
    · intro out hout
      rw [h.depth side] at hout ⊢
      rw [h.topN side out, Slice.written_of_length_eq hout]
    · intro px qty
      rw [(h.listing side).mem_iff]
      constructor
      · rintro ⟨hq,hv⟩
        refine ⟨hq,?_⟩
        cases hl : lastLevel side px H with
        | none => exact absurd (by simpa [Quotes.ofHistory, hl] using hv.symm) hq
        | some ev => exact ⟨ev,rfl,by simpa [Quotes.ofHistory, hl] using hv⟩
      · rintro ⟨hq,ev,hl,hv⟩
        exact ⟨hq,by simpa [Quotes.ofHistory, hl] using hv⟩
    · cases side with
      | bid => exact h.bestBid
      | ask => exact h.bestAsk
  lastTrade := h.lastTrade

/-- A book that keeps to its quantities shows what its history says. -/
theorem Refines.tells [Inhabited B] {P : BookEvent → Prop} {Rep : B → Quotes → Prop}
    (hR : Refines P Rep) (evs : List BookEvent) (hP : ∀ ev ∈ evs, P ev) :
    ∃ b : B, Book.replay default evs = some b ∧ Tells b (sinceClear evs) := by
  obtain ⟨b,hb,h⟩ := hR.replay hR.start evs hP
  obtain ⟨ladder,hs⟩ := hR.shows h
  rw [Quotes.replay_empty] at hs
  exact ⟨b,hb,hs.tells⟩

end Tells

/-- After any events the tree book shows what the events since the last clear say, and a
trade would change no ladder. -/
theorem btree_tells (evs : List BookEvent) :
    ∃ b : BTreeBook, replay default evs = some b ∧ Tells b (sinceClear evs) ∧
      ∀ ev : BookEvent, ev.kind = .trade → ∃ b', OrderBook.apply b ev = some b' ∧
        ∀ side, OrderBook.depth b' side = OrderBook.depth b side ∧ best b' side = best b side ∧
          ∀ out, OrderBook.topN b' side out = OrderBook.topN b side out := by
  obtain ⟨b,hb,h⟩ := BTreeBook.refines.tells evs (by simp)
  refine ⟨b,hb,h,?_⟩
  intro ev hk
  refine ⟨{ b with lastTrade := some (ev.px,ev.qty,ev.side) },?_,?_⟩
  · change some (b.apply ev) = _
    rw [BTreeBook.apply, hk]
  · intro side
    cases side with
    | bid => exact ⟨rfl,rfl,fun out => rfl⟩
    | ask => exact ⟨rfl,rfl,fun out => rfl⟩

end LowLatencyLob.Book
