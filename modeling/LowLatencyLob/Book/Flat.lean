import LowLatencyLob.Book.OrderBook
import Mathlib.Algebra.Order.Ring.Int

/-! `FlatBook`: price levels in a flat array indexed by the tick offset from a base.

Ticks are `i64` and wrap, indices are `usize` and wrap, and an index out of bounds
panics. -/
namespace LowLatencyLob.Book
open Sequence

/-- Hard cap on the representable span, in ticks. -/
def MAX_SPAN : ℕ := 8*1024*1024

/-- Half of the span allocated around the first observed price. -/
def INIT_HALF_SPAN : ℕ := 4096

structure FlatBook where
  /-- The tick at index 0, once `inited`. -/
  base : Int64
  inited : Bool
  /-- The quantity at tick `base + i`; zero is empty. -/
  bidQty : List Qty
  askQty : List Qty
  /-- The highest occupied bid index. -/
  bestBidIdx : Option ℕ
  /-- The lowest occupied ask index. -/
  bestAskIdx : Option ℕ
  bidDepth : ℕ
  askDepth : ℕ
  lastTrade : Option (Px × Qty × Side)

namespace FlatBook

instance : Inhabited FlatBook := ⟨⟨0,false,[],[],none,none,0,0,none⟩⟩

/-- `x as usize` of an `i64`. -/
def asUsize (x : Int64) : ℕ := x.toUInt64.toNat

/-- `x as i64` of a `usize`. -/
def asI64 (i : ℕ) : Int64 := Int64.ofNat i

def wrappingAdd (a b : ℕ) : ℕ := (a+b) % 2^64
def wrappingSub (a b : ℕ) : ℕ := (a+(2^64-b)) % 2^64

/-- `dst[start..stop].copy_from_slice(src)` -/
def copyFromSlice (dst : List Qty) (start stop : ℕ) (src : List Qty) : Option (List Qty) :=
  if start ≤ stop ∧ stop ≤ dst.length ∧ stop-start = src.length then
    some (dst.take start ++ src ++ dst.drop stop)
  else none

/-- Ensure the arrays cover `px`: allocate around the first price, and grow when `px`
falls outside. Panics when the span would exceed `MAX_SPAN`. -/
def ensureRange (b : FlatBook) (px : Px) : Option FlatBook :=
  let p := px
  if !b.inited then
    let base := p-asI64 INIT_HALF_SPAN
    let len := 2*INIT_HALF_SPAN+1
    some { b with
      base
      bidQty := List.replicate len 0
      askQty := List.replicate len 0
      inited := true }
  else
    let oldLen := asI64 b.bidQty.length
    let oldLo := b.base
    let oldHi := oldLo+oldLen
    if p ≥ oldLo ∧ p < oldHi then some b
    else
      let margin := asI64 INIT_HALF_SPAN
      let newLo := min oldLo (p-margin)
      let newHi := max oldHi (p+1+margin)
      let newLen := asUsize (newHi-newLo)
      if newLen ≤ MAX_SPAN then
        let shift := asUsize (oldLo-newLo)
        let stop := wrappingAdd shift (asUsize oldLen)
        (copyFromSlice (List.replicate newLen 0) shift stop b.bidQty).bind fun newBid =>
          (copyFromSlice (List.replicate newLen 0) shift stop b.askQty).map fun newAsk =>
            { b with
              bidQty := newBid
              askQty := newAsk
              base := newLo
              bestBidIdx := b.bestBidIdx.map (wrappingAdd · shift)
              bestAskIdx := b.bestAskIdx.map (wrappingAdd · shift) }
      else none

/-- Toward the worse (lower) bid price: `(0..i).rev().find(..)`. Every index below an
occupied one is in bounds. -/
def probeBid (bidQty : List Qty) (i : ℕ) : Option ℕ :=
  (List.range i).reverse.find? fun j => bidQty[j]?.getD 0 ≠ 0

/-- Toward the worse (higher) ask price: `(i + 1..len).find(..)`. -/
def probeAsk (askQty : List Qty) (i : ℕ) : Option ℕ :=
  (List.range' (i+1) (askQty.length-(i+1))).find? fun j => askQty[j]?.getD 0 ≠ 0

/-- What one side keeps: its quantities, the cached best index and the depth. -/
structure Half where
  qty : List Qty
  best : Option ℕ
  depth : ℕ

/-- Set the quantity at index `i` of a side. `beats i j` says that `i` is the better of
two indices, and `probe` looks for the next occupied index on the worse side of `i`. -/
def Half.set (h : Half) (beats : ℕ → ℕ → Bool) (probe : List Qty → ℕ → Option ℕ) (i : ℕ) (qty : Qty) :
    Option Half :=
  h.qty[i]?.map fun old =>
    let wasOccupied := old ≠ 0
    let h := { h with qty := h.qty.set i qty }
    if qty = 0 then
      if wasOccupied then
        let h := { h with depth := wrappingSub h.depth 1 }
        if h.best = some i then { h with best := probe h.qty i } else h
      else h
    else
      let h := if ¬wasOccupied then { h with depth := wrappingAdd h.depth 1 } else h
      if h.best.all fun best => beats i best then { h with best := some i } else h

/-- The arm of `apply` for a bid level. -/
def setBid (b : FlatBook) (i : ℕ) (qty : Qty) : Option FlatBook :=
  (Half.set ⟨b.bidQty,b.bestBidIdx,b.bidDepth⟩ (fun i best => i > best) probeBid i qty).map fun h =>
    { b with bidQty := h.qty, bestBidIdx := h.best, bidDepth := h.depth }

/-- The arm of `apply` for an ask level. -/
def setAsk (b : FlatBook) (i : ℕ) (qty : Qty) : Option FlatBook :=
  (Half.set ⟨b.askQty,b.bestAskIdx,b.askDepth⟩ (fun i best => i < best) probeAsk i qty).map fun h =>
    { b with askQty := h.qty, bestAskIdx := h.best, askDepth := h.depth }

/-- `Clear` zeroes the content and retains the capacity. -/
def clear (b : FlatBook) : FlatBook :=
  { b with
    bidQty := List.replicate b.bidQty.length 0
    askQty := List.replicate b.askQty.length 0
    bestBidIdx := none
    bestAskIdx := none
    bidDepth := 0
    askDepth := 0
    lastTrade := none }

def apply (b : FlatBook) (ev : BookEvent) : Option FlatBook :=
  match ev.kind with
  | .level => (b.ensureRange ev.px).bind fun b =>
    let i := asUsize (ev.px-b.base)
    match ev.side with
    | .bid => b.setBid i ev.qty
    | .ask => b.setAsk i ev.qty
  | .trade => some { b with lastTrade := some (ev.px,ev.qty,ev.side) }
  | .clear => some b.clear

/-- `idx.map(|i| (Px(base + i), qty[i]))` -/
def bestAt (base : Int64) (qty : List Qty) : Option ℕ → Option (Option (Px × Qty))
  | none => some none
  | some i => qty[i]?.map fun q => some (base+asI64 i,q)

/-- The bid loop of `top_n`, about to look at index `k-1`, with `n` levels written. -/
def walkBid (base : Int64) (qty : List Qty) : (k : ℕ) → ℕ × List (Px × Qty) → Option (ℕ × List (Px × Qty))
  | 0, s => some s
  | i+1, (n,out) =>
    if n < out.length then
      qty[i]?.bind fun q =>
        walkBid base qty i (if q ≠ 0 then (n+1,out.set n (base+asI64 i,q)) else (n,out))
    else some (n,out)

/-- The ask loop of `top_n`, about to look at index `i`, with `left` indices to go. -/
def walkAsk (base : Int64) (qty : List Qty) :
    (left i : ℕ) → ℕ × List (Px × Qty) → Option (ℕ × List (Px × Qty))
  | 0, _, s => some s
  | left+1, i, (n,out) =>
    if n < out.length then
      qty[i]?.bind fun q =>
        walkAsk base qty left (i+1) (if q ≠ 0 then (n+1,out.set n (base+asI64 i,q)) else (n,out))
    else some (n,out)

instance : OrderBook FlatBook where
  apply := apply
  bestBid b := bestAt b.base b.bidQty b.bestBidIdx
  bestAsk b := bestAt b.base b.askQty b.bestAskIdx
  topN
    | b, .bid, out =>
      match b.bestBidIdx with
      | some best => walkBid b.base b.bidQty (best+1) (0,out)
      | none => some (0,out)
    | b, .ask, out =>
      match b.bestAskIdx with
      | some best => walkAsk b.base b.askQty (b.askQty.length-best) best (0,out)
      | none => some (0,out)
  depth
    | b, .bid => b.bidDepth
    | b, .ask => b.askDepth
  lastTrade b := b.lastTrade

end FlatBook
end LowLatencyLob.Book
