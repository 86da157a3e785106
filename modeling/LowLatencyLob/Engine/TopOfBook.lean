import LowLatencyLob.Engine.EngineRuns
import LowLatencyLob.Book.Agreement

/-! What the published top of the book says about the book.

A level with quantity zero is never resident, so the zeros of an empty side cannot be
taken for a level, whatever the prices. -/
namespace LowLatencyLob.Engine
open Book Concurrency
open SeqLock (TopOfBook)
open LowLatencyLob.Ring (Capacity oneSlot)

section Reading
variable {B B' : Type} [OrderBook B] [OrderBook B']

/-- The bests of the book can be read off the top, and no level has quantity zero. -/
structure Lossless (book : B) (t : TopOfBook) : Prop where
  levels : ∀ side out n out', OrderBook.topN book side out = some (n,out') → ∀ x ∈ out'.take n, x.2 ≠ 0
  noBid : t.bidQty = 0 ↔ OrderBook.bestBid book = some none
  noAsk : t.askQty = 0 ↔ OrderBook.bestAsk book = some none
  bid : t.bidQty ≠ 0 → OrderBook.bestBid book = some (some (t.bidPx,t.bidQty))
  ask : t.askQty ≠ 0 → OrderBook.bestAsk book = some (some (t.askPx,t.askQty))

/-- Tops with the same four fields are of books with the same bests. -/
theorem Lossless.best_eq {book : B} {book' : B'} {t t' : TopOfBook} (h : Lossless book t)
    (h' : Lossless book' t') (hbp : t.bidPx = t'.bidPx) (hbq : t.bidQty = t'.bidQty)
    (hap : t.askPx = t'.askPx) (haq : t.askQty = t'.askQty) :
    OrderBook.bestBid book = OrderBook.bestBid book' ∧ OrderBook.bestAsk book = OrderBook.bestAsk book' := by
  constructor
  · by_cases hz : t.bidQty = 0
    · rw [h.noBid.mp hz, h'.noBid.mp (hbq ▸ hz)]
    · rw [h.bid hz, h'.bid (hbq ▸ hz), hbp, hbq]
  · by_cases hz : t.askQty = 0
    · rw [h.noAsk.mp hz, h'.noAsk.mp (haq ▸ hz)]
    · rw [h.ask hz, h'.ask (haq ▸ hz), hap, haq]

/-- The head of a ladder with no zero quantity, zeros for an empty ladder. -/
theorem head_lossless {l : List (Px × Qty)} (h : ∀ x ∈ l, x.2 ≠ 0) :
    ((l.head?.getD (0,0)).2 = 0 ↔ l.head? = none) ∧
      ((l.head?.getD (0,0)).2 ≠ 0 → l.head? = some (l.head?.getD (0,0))) := by
  cases l with
  | nil => simp
  | cons x l =>
    have hx := h x List.mem_cons_self
    simp [hx]

/-- A book that shows its ladders has a top, and the top is lossless. -/
theorem Shows.lossless {book : B} {a : Quotes} {ladder : Side → List (Px × Qty)} (h : Shows book a ladder)
    (stamp : UInt64) : ∃ t, topOf book stamp = some t ∧ Lossless book t := by
  have hz : ∀ side, ∀ x ∈ ladder side, x.2 ≠ 0 := fun side x hx => (h.listing side).ne_zero hx
  obtain ⟨hb,hb'⟩ := head_lossless (hz .bid)
  obtain ⟨ha,ha'⟩ := head_lossless (hz .ask)
  refine ⟨⟨((ladder .bid).head?.getD (0,0)).1,((ladder .bid).head?.getD (0,0)).2,
    ((ladder .ask).head?.getD (0,0)).1,((ladder .ask).head?.getD (0,0)).2,stamp⟩,?_,?_⟩
  · unfold topOf
    rw [h.bestBid, h.bestAsk]
    rfl
  · constructor
    · intro side out n out' htop x hx
      have htake := Sequence.Slice.take_written (ladder side) out
      rw [Option.some.inj ((h.topN side out).symm.trans htop)] at htake
      exact hz side x (List.mem_of_mem_take (htake ▸ hx))
    · rw [h.bestBid, Option.some.injEq]
      exact hb
    · rw [h.bestAsk, Option.some.injEq]
      exact ha
    · intro hne
      exact h.bestBid.trans (congrArg some (hb' hne))
    · intro hne
      exact h.bestAsk.trans (congrArg some (ha' hne))

end Reading

section Publishing
variable {B : Type} [OrderBook B] [Inhabited B]

/-- The producer after it has processed some events. -/
def producerAfter (B : Type) [OrderBook B] [Inhabited B] (evs : List BookEvent) : Option (Producer B) :=
  (replay default evs).map fun book => ⟨book,.ofNat evs.length⟩

/-- Over the events `P` no call of `process` panics, and the top that it stores is
lossless; so tops with the same four fields are of books with the same bests. -/
structure LosesNothing (C : Capacity) (B : Type) [OrderBook B] [Inhabited B] (P : BookEvent → Prop) :
    Prop where
  process : ∀ evs ev, (∀ e ∈ evs ++ [ev], P e) → ∃ p p' t, producerAfter B evs = some p ∧
    producerAfter B (evs ++ [ev]) = some p' ∧ Lossless p'.book t ∧
    Engine.process p ev = some (do
      onTop (C := C) (SeqLock.store t)
      onRing (Ring.push C (pack ev))
      return p')
  distinct : ∀ evs evs', (∀ e ∈ evs, P e) → (∀ e ∈ evs', P e) → ∃ p p' t t',
    producerAfter B evs = some p ∧ producerAfter B evs' = some p' ∧
    topOf p.book p.stamp = some t ∧ topOf p'.book p'.stamp = some t' ∧
    (t.bidPx = t'.bidPx ∧ t.bidQty = t'.bidQty ∧ t.askPx = t'.askPx ∧ t.askQty = t'.askQty →
      OrderBook.bestBid p.book = OrderBook.bestBid p'.book ∧
      OrderBook.bestAsk p.book = OrderBook.bestAsk p'.book)

theorem exists_producerAfter {P : BookEvent → Prop} {Rep : B → Quotes → Prop} (hR : Refines P Rep)
    (evs : List BookEvent) (hP : ∀ ev ∈ evs, P ev) :
    ∃ book t, producerAfter B evs = some ⟨book,.ofNat evs.length⟩ ∧
      replay default evs = some book ∧ topOf book (.ofNat evs.length) = some t ∧ Lossless book t := by
  obtain ⟨book,hb,hrep⟩ := hR.replay hR.start evs hP
  obtain ⟨ladder,hs⟩ := hR.shows hrep
  obtain ⟨t,ht,hl⟩ := Shows.lossless hs (.ofNat evs.length)
  refine ⟨book,t,?_,hb,ht,hl⟩
  rw [producerAfter, hb, Option.map_some]

/-- A book that keeps to its quantities loses nothing in its tops. -/
theorem Refines.losesNothing (C : Capacity) {P : BookEvent → Prop} {Rep : B → Quotes → Prop}
    (hR : Refines P Rep) : LosesNothing C B P where
  process evs ev hP := by
    obtain ⟨book,_,hp,hb,_,_⟩ := exists_producerAfter hR evs fun e he => hP e (List.mem_append_left _ he)
    obtain ⟨book',t,hp',hb',ht,hl⟩ := exists_producerAfter hR (evs ++ [ev]) hP
    refine ⟨_,_,t,hp,hp',hl,?_⟩
    have happly : OrderBook.apply book ev = some book' := (replay_concat hb ev).symm.trans hb'
    have hstamp : UInt64.ofNat evs.length+1 = .ofNat (evs ++ [ev]).length := by
      rw [List.length_append, List.length_singleton, UInt64.ofNat_add]
      rfl
    unfold Engine.process
    rw [happly, Option.bind_some]
    simp only [hstamp, ht, Option.map_some]
  distinct evs evs' hP hP' := by
    obtain ⟨book,t,hp,_,ht,hl⟩ := exists_producerAfter hR evs hP
    obtain ⟨book',t',hp',_,ht',hl'⟩ := exists_producerAfter hR evs' hP'
    refine ⟨_,_,t,t',hp,hp',ht,ht',?_⟩
    intro ⟨hbp,hbq,hap,haq⟩
    exact hl.best_eq hl' hbp hbq hap haq

end Publishing

/-- Whatever the book and the events, the published top loses nothing; for the flat book,
whatever the events of its domain. -/
theorem top_loses_nothing (C : Capacity) {lo hi : ℤ} (hd : FlatBook.Domain lo hi) :
    LosesNothing C BTreeBook (fun _ => True) ∧ LosesNothing C SortedVecBook (fun _ => True) ∧
      LosesNothing C RevVecBook (fun _ => True) ∧ LosesNothing C FlatBook (FlatBook.Priced lo hi) :=
  ⟨Refines.losesNothing C BTreeBook.refines,Refines.losesNothing C SortedVecBook.refines,
    Refines.losesNothing C RevVecBook.refines,Refines.losesNothing C (FlatBook.refines hd)⟩

/-- Prices within a hundred ticks of zero. -/
theorem top_loses_nothing_near_zero : FlatBook.Domain (-100) 100 ∧
    LosesNothing oneSlot FlatBook (FlatBook.Priced (-100) 100) :=
  have hd : FlatBook.Domain (-100) 100 := ⟨by decide,by decide,by decide⟩
  ⟨hd,(top_loses_nothing oneSlot hd).2.2.2⟩

end LowLatencyLob.Engine
