import LowLatencyLob.Sequence.Listing
import LowLatencyLob.Sequence.Replica
import LowLatencyLob.Sequence.Slice

/-! Book events, the interface of the order books, and what an order book is for.

Every book stands for the quantity resting at each price of each side. Whatever a book
shows is read off the two ladders of these quantities, so books that stand for the
same quantities cannot be told apart. -/
namespace LowLatencyLob.Book
open Sequence

/-- Ticks and lots, `i64` newtypes in the source. -/
abbrev Px := Int64
abbrev Qty := Int64

inductive Side
  | bid
  | ask
  deriving DecidableEq, Repr

inductive EventKind
  | level
  | trade
  | clear
  deriving DecidableEq, Repr

structure BookEvent where
  seq : UInt64
  ts : UInt64
  px : Px
  qty : Qty
  side : Side
  kind : EventKind
  deriving DecidableEq, Repr

namespace BookEvent

def level (seq ts : UInt64) (side : Side) (px : Px) (qty : Qty) : BookEvent :=
  ⟨seq,ts,px,qty,side,.level⟩

def trade (seq ts : UInt64) (aggressor : Side) (px : Px) (qty : Qty) : BookEvent :=
  ⟨seq,ts,px,qty,aggressor,.trade⟩

def clear (seq ts : UInt64) : BookEvent := ⟨seq,ts,0,0,.bid,.clear⟩

end BookEvent

/-- The trait `OrderBook`. The outer `none` of a result is a panic; `topN` returns the
count and the buffer it was given, as it left it. -/
class OrderBook (B : Type) where
  apply : B → BookEvent → Option B
  bestBid : B → Option (Option (Px × Qty))
  bestAsk : B → Option (Option (Px × Qty))
  topN : B → Side → List (Px × Qty) → Option (ℕ × List (Px × Qty))
  depth : B → Side → ℕ
  lastTrade : B → Option (Px × Qty × Side)

/-- Apply events in order, from a given book. -/
def replay {B : Type} [OrderBook B] (b : B) (evs : List BookEvent) : Option B :=
  evs.foldlM OrderBook.apply b

theorem replay_append {B : Type} [OrderBook B] {b b' : B} {evs evs' : List BookEvent} :
    replay b (evs ++ evs') = some b' ↔ ∃ b₁, replay b evs = some b₁ ∧ replay b₁ evs' = some b' := by
  unfold replay
  rw [List.foldlM_append]
  exact Option.bind_eq_some_iff

theorem replay_singleton {B : Type} [OrderBook B] {b : B} {ev : BookEvent} :
    replay b [ev] = OrderBook.apply b ev := by
  simp [replay]

theorem replay_concat {B : Type} [OrderBook B] {b b₁ : B} {evs : List BookEvent} (h : replay b evs = some b₁)
    (ev : BookEvent) : replay b (evs ++ [ev]) = OrderBook.apply b₁ ev := by
  unfold replay at h ⊢
  rw [List.foldlM_append, h]
  exact replay_singleton

/-- Two books, perhaps of different kinds, that show the same. -/
structure Agree {B B' : Type} [OrderBook B] [OrderBook B'] (b : B) (b' : B') : Prop where
  bestBid : ∃ x, OrderBook.bestBid b = some x ∧ OrderBook.bestBid b' = some x
  bestAsk : ∃ x, OrderBook.bestAsk b = some x ∧ OrderBook.bestAsk b' = some x
  topN : ∀ side out, ∃ x, OrderBook.topN b side out = some x ∧ OrderBook.topN b' side out = some x
  depth : ∀ side, OrderBook.depth b side = OrderBook.depth b' side
  lastTrade : OrderBook.lastTrade b = OrderBook.lastTrade b'

/-- The price that a side prefers: a higher bid, a lower ask. -/
def better : Side → Px → Px → Prop
  | .bid => fun p q => q < p
  | .ask => fun p q => p < q

instance : IsStrictOrder Px (· < ·) where
  irrefl _ := Int64.lt_irrefl
  trans _ _ _ := Int64.lt_trans

instance (side : Side) : IsStrictOrder Px (better side) where
  irrefl _ := by cases side <;> exact Int64.lt_irrefl
  trans p q r h h' := by
    cases side with
    | bid => exact Int64.lt_trans h' h
    | ask => exact Int64.lt_trans h h'

/-- What an order book is for: the quantity resting at each price of each side, zero
where nothing rests, and the last trade. -/
structure Quotes where
  qty : Side → Px → Qty
  lastTrade : Option (Px × Qty × Side)

namespace Quotes

def empty : Quotes := ⟨fun _ _ => 0,none⟩

/-- A level sets the quantity at its price, absolutely. -/
def apply (a : Quotes) (ev : BookEvent) : Quotes :=
  match ev.kind with
  | .level =>
    ⟨Function.update a.qty ev.side (Function.update (a.qty ev.side) ev.px ev.qty),a.lastTrade⟩
  | .trade => ⟨a.qty,some (ev.px,ev.qty,ev.side)⟩
  | .clear => empty

def replay (a : Quotes) (evs : List BookEvent) : Quotes := evs.foldl apply a

/-- Level events overwrite the quantities at their prices. -/
theorem qty_replay (a : Quotes) {evs : List BookEvent} (hk : ∀ ev ∈ evs, ev.kind = .level) :
    Function.uncurry (a.replay evs).qty =
      overwrite (Function.uncurry a.qty) (evs.map fun ev => ((ev.side,ev.px),ev.qty)) := by
  induction evs generalizing a with
  | nil => rfl
  | cons ev evs ih =>
    obtain ⟨hev,hk⟩ := List.forall_mem_cons.mp hk
    have hstep : Function.uncurry (a.apply ev).qty =
        Function.update (Function.uncurry a.qty) (ev.side,ev.px) ev.qty := by
      funext ⟨side,px⟩
      rw [apply, hev]
      by_cases hside : side = ev.side
      · subst side
        by_cases hpx : px = ev.px
        · simp [hpx]
        · simp [hpx]
      · simp [hside]
    rw [List.map_cons, overwrite_cons, ← hstep]
    exact ih (a.apply ev) hk

theorem lastTrade_replay (a : Quotes) {evs : List BookEvent} (hk : ∀ ev ∈ evs, ev.kind = .level) :
    (a.replay evs).lastTrade = a.lastTrade := by
  induction evs generalizing a with
  | nil => rfl
  | cons ev evs ih =>
    obtain ⟨hev,hk⟩ := List.forall_mem_cons.mp hk
    have hstep : (a.apply ev).lastTrade = a.lastTrade := by rw [apply, hev]
    exact (ih (a.apply ev) hk).trans hstep

/-- Levels that all say what `g` says, and leave out only what is right already. -/
theorem replay_eq (a : Quotes) {evs : List BookEvent} {g : Side → Px → Qty} (hk : ∀ ev ∈ evs, ev.kind = .level)
    (hs : ∀ ev ∈ evs, g ev.side ev.px = ev.qty)
    (hc : ∀ side px, (∀ ev ∈ evs, (ev.side,ev.px) ≠ (side,px)) → a.qty side px = g side px) :
    a.replay evs = ⟨g,a.lastTrade⟩ := by
  have hqty : Function.uncurry (a.replay evs).qty = Function.uncurry g := by
    rw [a.qty_replay hk]
    apply overwrite_eq
    · intro e he
      obtain ⟨ev,hev,rfl⟩ := List.mem_map.mp he
      exact hs ev hev
    · intro ⟨side,px⟩ hne
      exact hc side px fun ev hev => hne _ (List.mem_map.mpr ⟨ev,hev,rfl⟩)
  have hcurry := congrArg Function.curry hqty
  rw [Function.curry_uncurry, Function.curry_uncurry] at hcurry
  exact congrArg₂ Quotes.mk hcurry (a.lastTrade_replay hk)

end Quotes

section Refinement
variable {B B' : Type} [OrderBook B] [OrderBook B']

/-- A book shows, on each side, the ladder of the quantities it stands for. -/
structure Shows (b : B) (a : Quotes) (ladder : Side → List (Px × Qty)) : Prop where
  listing : ∀ side, Listing (better side) (a.qty side) (ladder side)
  bestBid : OrderBook.bestBid b = some (ladder .bid).head?
  bestAsk : OrderBook.bestAsk b = some (ladder .ask).head?
  topN : ∀ side out, OrderBook.topN b side out = some (Slice.written (ladder side) out)
  depth : ∀ side, OrderBook.depth b side = (ladder side).length
  lastTrade : OrderBook.lastTrade b = a.lastTrade

/-- A book shows these ladders and this last trade, whatever they are. -/
structure Displays (b : B) (ladder : Side → List (Px × Qty)) (lastTrade : Option (Px × Qty × Side)) :
    Prop where
  bestBid : OrderBook.bestBid b = some (ladder .bid).head?
  bestAsk : OrderBook.bestAsk b = some (ladder .ask).head?
  topN : ∀ side out, OrderBook.topN b side out = some (Slice.written (ladder side) out)
  depth : ∀ side, OrderBook.depth b side = (ladder side).length
  lastTrade : OrderBook.lastTrade b = lastTrade

theorem Shows.displays {b : B} {a : Quotes} {ladder : Side → List (Px × Qty)} (h : Shows b a ladder) :
    Displays b ladder a.lastTrade :=
  ⟨h.bestBid,h.bestAsk,h.topN,h.depth,h.lastTrade⟩

section Displays
variable {b : B} {b' : B'} {ladder ladder' : Side → List (Px × Qty)} {t t' : Option (Px × Qty × Side)}

theorem Displays.agree (h : Displays b ladder t) (h' : Displays b' ladder t) : Agree b b' where
  bestBid := ⟨_,h.bestBid,h'.bestBid⟩
  bestAsk := ⟨_,h.bestAsk,h'.bestAsk⟩
  topN side out := ⟨_,h.topN side out,h'.topN side out⟩
  depth side := (h.depth side).trans (h'.depth side).symm
  lastTrade := h.lastTrade.trans h'.lastTrade.symm

/-- Books that agree show the same ladders: a buffer of the right length tells. -/
theorem Displays.ladder_eq (h : Displays b ladder t) (h' : Displays b' ladder' t') (ha : Agree b b') :
    ladder = ladder' := by
  funext side
  have hlen : (ladder side).length = (ladder' side).length := by
    rw [← h.depth, ← h'.depth, ha.depth]
  obtain ⟨x,hx,hx'⟩ := ha.topN side (ladder' side)
  rw [h.topN, Slice.written_of_length_eq hlen.symm] at hx
  rw [h'.topN, Slice.written_of_length_eq rfl, ← hx, Option.some.injEq] at hx'
  exact (congrArg Prod.snd hx').symm

end Displays

/-- Books that stand for the same quantities cannot be told apart. -/
theorem Shows.agree {b : B} {b' : B'} {a : Quotes} {ladder ladder' : Side → List (Px × Qty)}
    (h : Shows b a ladder) (h' : Shows b' a ladder') : Agree b b' := by
  obtain rfl : ladder = ladder' := funext fun side => (h.listing side).unique (h'.listing side)
  exact h.displays.agree h'.displays

/-- `Rep` says what a book stands for, and the book keeps to it over the events `P`. -/
structure Refines [Inhabited B] (P : BookEvent → Prop) (Rep : B → Quotes → Prop) : Prop where
  start : Rep default .empty
  step : ∀ {b a ev}, P ev → Rep b a → ∃ b', OrderBook.apply b ev = some b' ∧ Rep b' (a.apply ev)
  shows : ∀ {b a}, Rep b a → ∃ ladder, Shows b a ladder

theorem Refines.replay [Inhabited B] {P : BookEvent → Prop} {Rep : B → Quotes → Prop}
    (hR : Refines P Rep) {b : B} {a : Quotes} (h : Rep b a) (evs : List BookEvent)
    (hP : ∀ ev ∈ evs, P ev) : ∃ b', replay b evs = some b' ∧ Rep b' (a.replay evs) := by
  induction evs generalizing b a with
  | nil => exact ⟨b,rfl,h⟩
  | cons ev evs ih =>
    obtain ⟨b₁,hb₁,h₁⟩ := hR.step (hP ev List.mem_cons_self) h
    obtain ⟨b₂,hb₂,h₂⟩ := ih h₁ fun ev' hev' => hP ev' (List.mem_cons_of_mem _ hev')
    refine ⟨b₂,?_,h₂⟩
    unfold Book.replay at hb₂ ⊢
    rw [List.foldlM_cons, hb₁]
    exact hb₂

/-- A book that may panic, but keeps to its quantities where it does not. -/
theorem replay_keeps (Rep : B → Quotes → Prop)
    (hstep : ∀ {b a ev b'}, Rep b a → OrderBook.apply b ev = some b' → Rep b' (a.apply ev)) {b b' : B}
    {a : Quotes} (h : Rep b a) (evs : List BookEvent) (hr : replay b evs = some b') : Rep b' (a.replay evs) := by
  induction evs generalizing b a with
  | nil =>
    obtain rfl : b = b' := Option.some.inj hr
    exact h
  | cons ev evs ih =>
    unfold Book.replay at hr ih
    rw [List.foldlM_cons] at hr
    obtain ⟨b₁,hb₁,hr⟩ := Option.bind_eq_some_iff.mp hr
    exact ih (hstep h hb₁) hr

/-- Two kinds of books that keep to the same quantities agree after every sequence of
events that both of them take. -/
theorem Refines.agree [Inhabited B] [Inhabited B'] {P P' : BookEvent → Prop} {Rep : B → Quotes → Prop}
    {Rep' : B' → Quotes → Prop} (hR : Refines P Rep) (hR' : Refines P' Rep') (evs : List BookEvent)
    (hP : ∀ ev ∈ evs, P ev) (hP' : ∀ ev ∈ evs, P' ev) :
    ∃ (b : B) (b' : B'), Book.replay default evs = some b ∧ Book.replay default evs = some b' ∧
      Agree b b' := by
  obtain ⟨b,hb,h⟩ := hR.replay hR.start evs hP
  obtain ⟨b',hb',h'⟩ := hR'.replay hR'.start evs hP'
  obtain ⟨ladder,hs⟩ := hR.shows h
  obtain ⟨ladder',hs'⟩ := hR'.shows h'
  exact ⟨b,b',hb,hb',hs.agree hs'⟩

end Refinement
end LowLatencyLob.Book
