import LowLatencyLob.Book.OrderBook
import Std.Data.TreeMap

/-! `BTreeBook`: each side a sorted map from price to quantity. -/
namespace LowLatencyLob.Book
open Sequence

structure BTreeBook where
  /-- Highest key is the best bid; iterated in reverse for best-first. -/
  bids : Std.TreeMap Px Qty
  /-- Lowest key is the best ask. -/
  asks : Std.TreeMap Px Qty
  lastTrade : Option (Px × Qty × Side)

namespace BTreeBook

instance : Inhabited BTreeBook := ⟨⟨∅,∅,none⟩⟩

/-- `remove` for a zero quantity, else `insert`: the last write wins. -/
def update (book : Std.TreeMap Px Qty) (px : Px) (qty : Qty) : Std.TreeMap Px Qty :=
  if qty = 0 then book.erase px else book.insert px qty

def apply (b : BTreeBook) (ev : BookEvent) : BTreeBook :=
  match ev.kind with
  | .level =>
    match ev.side with
    | .bid => { b with bids := update b.bids ev.px ev.qty }
    | .ask => { b with asks := update b.asks ev.px ev.qty }
  | .trade => { b with lastTrade := some (ev.px,ev.qty,ev.side) }
  | .clear => ⟨∅,∅,none⟩

/-- The pairs of a side in the order of its iterator, best first. -/
def bestFirst (b : BTreeBook) : Side → List (Px × Qty)
  | .bid => b.bids.toList.reverse
  | .ask => b.asks.toList

/-- Copy up to `out.len()` pairs from a best-first iterator. -/
def fill (it out : List (Px × Qty)) : Option (ℕ × List (Px × Qty)) :=
  Slice.indexWrite (it.take out.length) (0,out)

instance : OrderBook BTreeBook where
  apply b ev := some (b.apply ev)
  bestBid b := some b.bids.toList.getLast?
  bestAsk b := some b.asks.toList.head?
  topN b side out := fill (b.bestFirst side) out
  depth
    | b, .bid => b.bids.size
    | b, .ask => b.asks.size
  lastTrade b := b.lastTrade

/-- A map holds the quantities `f`: nothing where `f` is zero. -/
def Holds (t : Std.TreeMap Px Qty) (f : Px → Qty) : Prop :=
  ∀ px, t[px]? = if f px = 0 then none else some (f px)

theorem Holds.empty : Holds ∅ fun _ => 0 := by
  intro px
  simp

theorem Holds.update {t : Std.TreeMap Px Qty} {f : Px → Qty} (h : Holds t f) (px : Px) (qty : Qty) :
    Holds (update t px qty) (Function.update f px qty) := by
  intro px'
  unfold BTreeBook.update
  by_cases hpx : px' = px
  · subst px'
    rw [Function.update_self]
    split_ifs with hq
    · rw [Std.TreeMap.getElem?_erase, if_pos (Std.compare_eq_iff_eq.mpr rfl)]
    · rw [Std.TreeMap.getElem?_insert, if_pos (Std.compare_eq_iff_eq.mpr rfl)]
  · have hne : compare px px' ≠ .eq := fun hc => hpx (Std.compare_eq_iff_eq.mp hc).symm
    rw [Function.update_of_ne hpx, ← h px']
    split_ifs
    · rw [Std.TreeMap.getElem?_erase, if_neg hne]
    · rw [Std.TreeMap.getElem?_insert, if_neg hne]

/-- Iterating the map lists the quantities in ascending order of the prices. -/
theorem Holds.listing {t : Std.TreeMap Px Qty} {f : Px → Qty} (h : Holds t f) :
    Listing (· < ·) f t.toList := by
  refine ⟨Std.TreeMap.ordered_keys_toList.imp Std.compare_eq_lt.mp,fun px qty => ?_⟩
  rw [Std.TreeMap.mem_toList_iff_getElem?_eq_some, h px]
  split_ifs with hz
  · rw [hz]
    simp [eq_comm]
  · rw [Option.some.injEq]
    constructor
    · rintro rfl
      exact ⟨hz,rfl⟩
    · exact And.right

def Rep (b : BTreeBook) (a : Quotes) : Prop :=
  Holds b.bids (a.qty .bid) ∧ Holds b.asks (a.qty .ask) ∧ b.lastTrade = a.lastTrade

theorem Rep.apply {b : BTreeBook} {a : Quotes} (h : Rep b a) (ev : BookEvent) :
    Rep (b.apply ev) (a.apply ev) := by
  obtain ⟨hb,ha,ht⟩ := h
  unfold BTreeBook.apply Quotes.apply
  cases ev.kind with
  | level =>
    cases ev.side with
    | bid => exact ⟨by simpa using hb.update ev.px ev.qty,by simpa using ha,ht⟩
    | ask => exact ⟨by simpa using hb,by simpa using ha.update ev.px ev.qty,ht⟩
  | trade => exact ⟨hb,ha,rfl⟩
  | clear => exact ⟨.empty,.empty,rfl⟩

/-- A `BTreeBook` keeps to the quantities it stands for, over all events. -/
theorem refines : Refines (fun _ => True) Rep where
  start := ⟨.empty,.empty,rfl⟩
  step {b a ev} _ h := ⟨b.apply ev,rfl,h.apply ev⟩
  shows {b a} h := by
    obtain ⟨hb,ha,ht⟩ := h
    refine ⟨b.bestFirst,?_,?_,rfl,fun side out => Slice.indexWrite_take _ out,?_,ht⟩
    · intro side
      cases side with
      | bid => exact hb.listing.reverse
      | ask => exact ha.listing
    · exact congrArg some List.head?_reverse.symm
    · intro side
      cases side with
      | bid => exact (List.length_reverse.trans Std.TreeMap.length_toList).symm
      | ask => exact Std.TreeMap.length_toList.symm

end BTreeBook
end LowLatencyLob.Book
