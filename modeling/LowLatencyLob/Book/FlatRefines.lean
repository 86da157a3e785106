import LowLatencyLob.Book.FlatSide

/-! `FlatBook` keeps to the quantities it stands for.

The representation invariant ties the cached bests and depths to the arrays; with the
prices in a bounded range no tick wraps, the span never exceeds its cap and every index
computed is in bounds. -/
namespace LowLatencyLob.Book
open Sequence
namespace FlatBook

/-- The cached values of a book are those of its arrays. -/
structure Inv (b : FlatBook) : Prop where
  length_eq : b.askQty.length = b.bidQty.length
  length_le : b.bidQty.length ≤ MAX_SPAN
  bestBid : b.bestBidIdx = lastSlot b.bidQty
  bestAsk : b.bestAskIdx = firstSlot b.askQty
  bidDepth : b.bidDepth = (slots 0 b.bidQty).length
  askDepth : b.askDepth = (slots 0 b.askQty).length
  uninit : b.inited = false → b.bidQty = []

/-- The quantities that a book stands for. -/
def quotes (b : FlatBook) : Quotes where
  qty
    | .bid => tickQty b.base b.bidQty
    | .ask => tickQty b.base b.askQty
  lastTrade := b.lastTrade

/-- The price levels of each side, best first. -/
def ladder (b : FlatBook) : Side → List (Px × Qty)
  | .bid => (ticks b.base (slots 0 b.bidQty)).reverse
  | .ask => ticks b.base (slots 0 b.askQty)

section Shows
variable {base : Int64} {xs : List Qty}

theorem bestAt_pick {o : Option (ℕ × Qty)} (h : ∀ x, o = some x → x ∈ slots 0 xs) :
    bestAt base xs (o.map Prod.fst) = some (o.map fun x => (base+asI64 x.1,x.2)) := by
  cases o with
  | none => rfl
  | some x =>
    obtain ⟨i,q⟩ := x
    have hx := (mem_slots.mp (h _ rfl)).2.2
    rw [Nat.sub_zero] at hx
    simp [bestAt, hx]

theorem slots_of_lastSlot {best : ℕ} (h : lastSlot xs = some best) :
    slots 0 xs = slots 0 (xs.take (best+1)) ∧ best < xs.length := by
  obtain ⟨x,hx,rfl⟩ := Option.map_eq_some_iff.mp h
  have hlt := slots_bounds (List.mem_of_getLast? hx)
  have happ := slots_append 0 (xs.take (x.1+1)) (xs.drop (x.1+1))
  rw [List.take_append_drop] at happ
  refine ⟨?_,by omega⟩
  cases hd : slots (0+(xs.take (x.1+1)).length) (xs.drop (x.1+1)) with
  | nil => rw [happ, hd, List.append_nil]
  | cons y ys =>
    -- Otherwise the last slot is past `best`.
    rw [happ, hd, List.getLast?_append_of_ne_nil _ (by simp)] at hx
    rw [← hd] at hx
    have hb := slots_bounds (List.mem_of_getLast? hx)
    rw [List.length_take] at hb
    omega

theorem slots_of_firstSlot {best : ℕ} (h : firstSlot xs = some best) :
    slots 0 xs = slots best (xs.drop best) ∧ best < xs.length := by
  obtain ⟨x,hx,rfl⟩ := Option.map_eq_some_iff.mp h
  have hlt := slots_bounds (List.mem_of_head? hx)
  have happ := slots_append 0 (xs.take x.1) (xs.drop x.1)
  rw [List.take_append_drop, List.length_take, Nat.min_eq_left (by omega), Nat.zero_add] at happ
  refine ⟨?_,by omega⟩
  cases hd : slots 0 (xs.take x.1) with
  | nil => rw [happ, hd, List.nil_append]
  | cons y ys =>
    rw [happ, hd, List.cons_append, List.head?_cons] at hx
    obtain rfl := Option.some.inj hx
    have hb := slots_bounds (hd ▸ List.mem_cons_self : y ∈ slots 0 (xs.take y.1))
    rw [List.length_take] at hb
    omega

theorem topN_bid {b : FlatBook} (h : b.Inv) (out : List (Px × Qty)) :
    OrderBook.topN b .bid out = some (Slice.written (b.ladder .bid) out) := by
  simp only [OrderBook.topN, h.bestBid]
  cases hl : lastSlot b.bidQty with
  | none =>
    have hnil : slots 0 b.bidQty = [] := by simpa [lastSlot] using hl
    simp [ladder, hnil, ticks]
  | some best =>
    obtain ⟨hs,hlt⟩ := slots_of_lastSlot hl
    have hwalk := @walkBid_eq b.base (b.bidQty.take (best+1)) (b.bidQty.drop (best+1)) [] out
    rw [List.take_append_drop, List.length_take, Nat.min_eq_left hlt] at hwalk
    simp only [List.length_nil, List.nil_append, Nat.zero_add] at hwalk
    simp only [hwalk, ladder, hs, ticks, List.map_reverse]

theorem topN_ask {b : FlatBook} (h : b.Inv) (out : List (Px × Qty)) :
    OrderBook.topN b .ask out = some (Slice.written (b.ladder .ask) out) := by
  simp only [OrderBook.topN, h.bestAsk]
  cases hl : firstSlot b.askQty with
  | none =>
    have hnil : slots 0 b.askQty = [] := by simpa [firstSlot] using hl
    simp [ladder, hnil, ticks]
  | some best =>
    obtain ⟨hs,hlt⟩ := slots_of_firstSlot hl
    have hwalk := @walkAsk_eq b.base (b.askQty.take best) (b.askQty.drop best) [] out
    rw [List.take_append_drop, List.length_take, Nat.min_eq_left hlt.le, List.length_drop] at hwalk
    simp only [List.length_nil, List.nil_append, Nat.zero_add] at hwalk
    simp only [hwalk, ladder, hs]

/-- Whatever its base, a book shows its ladders. -/
theorem Inv.displays {b : FlatBook} (h : b.Inv) : Displays b b.ladder b.lastTrade where
  bestBid := by
    change bestAt b.base b.bidQty b.bestBidIdx = _
    rw [h.bestBid, lastSlot, bestAt_pick fun x hx => List.mem_of_getLast? hx]
    simp [ladder, ticks, List.getLast?_map]
  bestAsk := by
    change bestAt b.base b.askQty b.bestAskIdx = _
    rw [h.bestAsk, firstSlot, bestAt_pick fun x hx => List.mem_of_head? hx]
    simp [ladder, ticks, List.head?_map]
  topN side out := by
    cases side with
    | bid => exact topN_bid h out
    | ask => exact topN_ask h out
  depth side := by
    cases side with
    | bid => exact h.bidDepth.trans (by simp [ladder, ticks])
    | ask => exact h.askDepth.trans (by simp [ladder, ticks])
  lastTrade := rfl

/-- A book whose ticks do not wrap shows the ladders of its quantities. -/
theorem Inv.shows {b : FlatBook} (h : b.Inv) (hfit : b.base.toInt+b.bidQty.length ≤ 2^63) :
    Shows b b.quotes b.ladder := by
  obtain ⟨hb,ha,htop,hdepth,hlast⟩ := h.displays
  refine ⟨fun side => ?_,hb,ha,htop,hdepth,hlast⟩
  cases side with
  | bid => exact (ticks_listing hfit).reverse
  | ask => exact ticks_listing (by rw [h.length_eq]; exact hfit)

end Shows

section Steps
variable {b : FlatBook} {lo hi : ℤ}

/-- Setting a slot keeps the invariant, and sets one quantity. -/
theorem Inv.setBid (h : b.Inv) {i : ℕ} (hi : i < b.bidQty.length) (qty : Qty) :
    ∃ b', b.setBid i qty = some b' ∧ b'.Inv ∧ b'.base = b.base ∧ b'.inited = b.inited ∧
      b'.bidQty = b.bidQty.set i qty ∧ b'.askQty = b.askQty ∧ b'.lastTrade = b.lastTrade := by
  have hle := h.length_le
  have hset := bid_set hi h.bestBid h.bidDepth (by unfold MAX_SPAN at hle; omega) qty
  refine ⟨{ b with
    bidQty := b.bidQty.set i qty
    bestBidIdx := lastSlot (b.bidQty.set i qty)
    bidDepth := (slots 0 (b.bidQty.set i qty)).length },?_,?_,rfl,rfl,rfl,rfl,rfl⟩
  · rw [FlatBook.setBid, hset]
    rfl
  refine ⟨?_,?_,rfl,h.bestAsk,rfl,h.askDepth,fun hn => ?_⟩
  · rw [List.length_set]
    exact h.length_eq
  · rw [List.length_set]
    exact h.length_le
  · rw [h.uninit hn] at hi
    exact absurd hi (Nat.not_lt_zero i)

theorem Inv.setAsk (h : b.Inv) {i : ℕ} (hi : i < b.askQty.length) (qty : Qty) :
    ∃ b', b.setAsk i qty = some b' ∧ b'.Inv ∧ b'.base = b.base ∧ b'.inited = b.inited ∧
      b'.bidQty = b.bidQty ∧ b'.askQty = b.askQty.set i qty ∧ b'.lastTrade = b.lastTrade := by
  have hle := h.length_le
  have heq := h.length_eq
  have hset := ask_set hi h.bestAsk h.askDepth (by unfold MAX_SPAN at hle; omega) qty
  refine ⟨{ b with
    askQty := b.askQty.set i qty
    bestAskIdx := firstSlot (b.askQty.set i qty)
    askDepth := (slots 0 (b.askQty.set i qty)).length },?_,?_,rfl,rfl,rfl,rfl,rfl⟩
  · rw [FlatBook.setAsk, hset]
    rfl
  refine ⟨?_,h.length_le,h.bestBid,rfl,h.bidDepth,rfl,h.uninit⟩
  rw [List.length_set]
  exact h.length_eq

theorem Inv.clear (h : b.Inv) : b.clear.Inv := by
  refine ⟨?_,?_,?_,?_,?_,?_,fun hn => ?_⟩
  · simpa [FlatBook.clear] using h.length_eq
  · simpa [FlatBook.clear] using h.length_le
  · simp [FlatBook.clear, lastSlot]
  · simp [FlatBook.clear, firstSlot]
  · simp [FlatBook.clear]
  · simp [FlatBook.clear]
  · simp [FlatBook.clear, h.uninit hn]

theorem quotes_clear (b : FlatBook) : b.clear.quotes = .empty := by
  refine congrArg (Quotes.mk · none) ?_
  funext side
  cases side <;> exact tickQty_zero _ _

/-- An array grown by zeroes on both sides keeps its slots, moved by `shift`. -/
theorem slots_grow (shift n : ℕ) (xs : List Qty) :
    slots 0 (List.replicate shift 0 ++ xs ++ List.replicate n 0) =
      (slots 0 xs).map fun x => (x.1+shift,x.2) := by
  have hmove := slots_add 0 shift xs
  rw [Nat.zero_add] at hmove
  rw [slots_append, slots_append, slots_replicate_zero, slots_replicate_zero, List.length_replicate,
    List.nil_append, List.append_nil, Nat.zero_add, hmove]

theorem lastSlot_grow {shift n : ℕ} {xs : List Qty} (h : shift+xs.length < 2^64) :
    (lastSlot xs).map (wrappingAdd · shift) =
      lastSlot (List.replicate shift 0 ++ xs ++ List.replicate n 0) := by
  unfold lastSlot
  rw [slots_grow, List.getLast?_map, Option.map_map, Option.map_map]
  refine Option.map_congr fun x hx => Nat.mod_eq_of_lt ?_
  have hb := slots_bounds (List.mem_of_getLast? hx)
  omega

theorem firstSlot_grow {shift n : ℕ} {xs : List Qty} (h : shift+xs.length < 2^64) :
    (firstSlot xs).map (wrappingAdd · shift) =
      firstSlot (List.replicate shift 0 ++ xs ++ List.replicate n 0) := by
  unfold firstSlot
  rw [slots_grow, List.head?_map, Option.map_map, Option.map_map]
  refine Option.map_congr fun x hx => Nat.mod_eq_of_lt ?_
  have hb := slots_bounds (List.mem_of_head? hx)
  omega

theorem copy_zero {shift n stop : ℕ} {xs : List Qty} (hs : stop = shift+xs.length) (h : stop ≤ n) :
    copyFromSlice (List.replicate n 0) shift stop xs =
      some (List.replicate shift 0 ++ xs ++ List.replicate (n-stop) 0) := by
  unfold copyFromSlice
  rw [if_pos ⟨by omega,by rw [List.length_replicate]; exact h,by omega⟩, List.take_replicate,
    List.drop_replicate, Nat.min_eq_left (by omega)]

/-- The arrays of a book that has seen prices of `lo..hi` only. -/
def Within (lo hi : ℤ) (b : FlatBook) : Prop :=
  b.inited = true → lo-4096 ≤ b.base.toInt ∧ b.base.toInt+b.bidQty.length ≤ hi+4097

/-- An array of `newLen` slots with `xs` from `shift` on. -/
def padded (shift newLen : ℕ) (xs : List Qty) : List Qty :=
  List.replicate shift 0 ++ xs ++ List.replicate (newLen-(shift+xs.length)) 0

/-- The book with its arrays moved to the base `newLo` and grown to `newLen` slots. -/
def grown (b : FlatBook) (newLo : Int64) (shift newLen : ℕ) : FlatBook :=
  { b with
    bidQty := padded shift newLen b.bidQty
    askQty := padded shift newLen b.askQty
    base := newLo
    bestBidIdx := b.bestBidIdx.map (wrappingAdd · shift)
    bestAskIdx := b.bestAskIdx.map (wrappingAdd · shift) }

theorem padded_length {shift newLen : ℕ} {xs : List Qty} (h : shift+xs.length ≤ newLen) :
    (padded shift newLen xs).length = newLen := by
  simp only [padded, List.length_append, List.length_replicate]
  omega

theorem Inv.grown (h : b.Inv) {newLo : Int64} {newLen shift : ℕ} (hlen : shift+b.bidQty.length ≤ newLen)
    (hspan : newLen ≤ MAX_SPAN) (hinit : b.inited = true) : (b.grown newLo shift newLen).Inv := by
  have heq := h.length_eq
  have hlt : shift+b.bidQty.length < 2^64 := by
    unfold MAX_SPAN at hspan
    omega
  have hbid := padded_length hlen
  have hask : (padded shift newLen b.askQty).length = newLen := padded_length (by rw [heq]; exact hlen)
  refine ⟨hask.trans hbid.symm,hbid.le.trans hspan,?_,?_,?_,?_,fun hn => ?_⟩
  · simp only [FlatBook.grown, h.bestBid]
    exact lastSlot_grow hlt
  · simp only [FlatBook.grown, h.bestAsk]
    exact firstSlot_grow (by rw [heq]; exact hlt)
  · simp only [FlatBook.grown, padded, slots_grow, List.length_map]
    exact h.bidDepth
  · simp only [FlatBook.grown, padded, slots_grow, List.length_map]
    exact h.askDepth
  · exact absurd (hn.symm.trans hinit) Bool.false_ne_true

theorem quotes_grown {newLo : Int64} {newLen shift : ℕ} (hb : newLo.toInt+shift = b.base.toInt) :
    (b.grown newLo shift newLen).quotes = b.quotes := by
  refine congrArg (Quotes.mk · b.lastTrade) ?_
  funext side
  cases side <;> exact tickQty_grow hb

/-- The first price allocates a span around it. -/
def allocated (b : FlatBook) (px : Px) : FlatBook :=
  { b with
    base := px-asI64 INIT_HALF_SPAN
    bidQty := List.replicate (2*INIT_HALF_SPAN+1) 0
    askQty := List.replicate (2*INIT_HALF_SPAN+1) 0
    inited := true }

theorem ensureRange_uninit (px : Px) (h : b.inited = false) : b.ensureRange px = some (b.allocated px) := by
  unfold FlatBook.ensureRange
  rw [h]
  rfl

theorem Inv.askQty_uninit (h : b.Inv) (hinit : b.inited = false) : b.askQty = [] := by
  apply List.length_eq_zero_iff.mp
  rw [h.length_eq, h.uninit hinit]
  rfl

theorem Inv.allocated (h : b.Inv) (hinit : b.inited = false) (px : Px) : (b.allocated px).Inv := by
  have hbid := h.uninit hinit
  have hask := h.askQty_uninit hinit
  refine ⟨rfl,?_,?_,?_,?_,?_,fun hn => ?_⟩
  · simp only [FlatBook.allocated, List.length_replicate]
    decide
  · simp [FlatBook.allocated, h.bestBid, hbid, lastSlot]
  · simp [FlatBook.allocated, h.bestAsk, hask, firstSlot]
  · simp [FlatBook.allocated, h.bidDepth, hbid]
  · simp [FlatBook.allocated, h.askDepth, hask]
  · exact absurd hn.symm Bool.false_ne_true

theorem Inv.quotes_allocated (h : b.Inv) (hinit : b.inited = false) (px : Px) :
    (b.allocated px).quotes = b.quotes := by
  refine congrArg (Quotes.mk · b.lastTrade) ?_
  funext side
  cases side with
  | bid =>
    change tickQty _ (List.replicate _ 0) = tickQty b.base b.bidQty
    rw [h.uninit hinit]
    exact (tickQty_zero _ _).trans (tickQty_zero b.base 0).symm
  | ask =>
    change tickQty _ (List.replicate _ 0) = tickQty b.base b.askQty
    rw [h.askQty_uninit hinit]
    exact (tickQty_zero _ _).trans (tickQty_zero b.base 0).symm

section Cover
variable {px : Px}

/-- The arrays have a slot for `px`. -/
def Covers (b : FlatBook) (px : Px) : Prop := b.base.toInt ≤ px.toInt ∧ px.toInt < b.base.toInt+b.bidQty.length

/-- Neither the end of the arrays nor the margins around `px` wrap. -/
structure Fits (b : FlatBook) (px : Px) : Prop where
  hi : b.base.toInt+b.bidQty.length < 2^63
  low : -2^63 ≤ px.toInt-INIT_HALF_SPAN
  high : px.toInt+1+INIT_HALF_SPAN < 2^63

/-- The span that covers the arrays and `px` with its margins. -/
def spanWith (b : FlatBook) (px : Px) : ℤ :=
  max (b.base.toInt+b.bidQty.length) (px.toInt+1+INIT_HALF_SPAN)-min b.base.toInt (px.toInt-INIT_HALF_SPAN)

theorem toInt_half : (asI64 INIT_HALF_SPAN).toInt = INIT_HALF_SPAN := toInt_asI64 (by decide)

theorem toInt_end (hf : b.Fits px) :
    (b.base+asI64 b.bidQty.length).toInt = b.base.toInt+b.bidQty.length := toInt_tick hf.hi

theorem ensureRange_covered (hinit : b.inited = true) (hf : b.Fits px) (hc : b.Covers px) :
    b.ensureRange px = some b := by
  have hin : px ≥ b.base ∧ px < b.base+asI64 b.bidQty.length := by
    rw [ge_iff_le, Int64.le_iff_toInt_le, Int64.lt_iff_toInt_lt, toInt_end hf]
    exact hc
  unfold FlatBook.ensureRange
  rw [if_neg (by simp [hinit])]
  exact if_pos hin

/-- The bounds of that span, as `ensure_range` computes them. -/
def lowWith (b : FlatBook) (px : Px) : Int64 := min b.base (px-asI64 INIT_HALF_SPAN)
def highWith (b : FlatBook) (px : Px) : Int64 :=
  max (b.base+asI64 b.bidQty.length) (px+1+asI64 INIT_HALF_SPAN)

theorem toInt_lowWith (hf : b.Fits px) :
    (b.lowWith px).toInt = min b.base.toInt (px.toInt-INIT_HALF_SPAN) := by
  have hlow : (px-asI64 INIT_HALF_SPAN).toInt = px.toInt-INIT_HALF_SPAN := by
    have hlt := Int64.toInt_lt px
    have hlow := hf.low
    rw [← toInt_half] at hlow ⊢
    exact toInt_sub hlow (by rw [toInt_half]; omega)
  rw [lowWith, toInt_min, hlow]

theorem toInt_highWith (hf : b.Fits px) :
    (b.highWith px).toInt = max (b.base.toInt+b.bidQty.length) (px.toInt+1+INIT_HALF_SPAN) := by
  have hup : (px+1+asI64 INIT_HALF_SPAN).toInt = px.toInt+1+INIT_HALF_SPAN := by
    have hle := Int64.le_toInt px
    have hhigh := hf.high
    have hone : (1 : Int64).toInt = 1 := rfl
    have hnext : (px+1).toInt = px.toInt+1 := toInt_add (by omega) (by omega)
    rw [← toInt_half, ← hnext] at hhigh ⊢
    exact toInt_add (by rw [hnext, toInt_half]; omega) hhigh
  rw [highWith, toInt_max, toInt_end hf, hup]

/-- The length of the new arrays is the span, although the subtraction may wrap. -/
theorem asUsize_span (hf : b.Fits px) : (asUsize (b.highWith px-b.lowWith px) : ℤ) = b.spanWith px := by
  have hlow := toInt_lowWith hf
  have hhigh := toInt_highWith hf
  rw [asUsize_sub (by omega), hlow, hhigh]
  rfl

theorem asUsize_shift (hf : b.Fits px) :
    (b.lowWith px).toInt+asUsize (b.base-b.lowWith px) = b.base.toInt := by
  have hlow := toInt_lowWith hf
  rw [asUsize_sub (by omega)]
  omega

theorem span_fits (hf : b.Fits px) :
    asUsize (b.base-b.lowWith px)+b.bidQty.length ≤ asUsize (b.highWith px-b.lowWith px) := by
  have hshift := asUsize_shift hf
  have hlow := toInt_lowWith hf
  have hspan := asUsize_span hf
  unfold spanWith at hspan
  omega

/-- The copies into the new arrays are in bounds. -/
theorem Inv.copies (h : b.Inv) (hf : b.Fits px) (hcap : asUsize (b.highWith px-b.lowWith px) ≤ MAX_SPAN)
    {xs : List Qty} (hxs : xs.length = b.bidQty.length) :
    copyFromSlice (List.replicate (asUsize (b.highWith px-b.lowWith px)) 0) (asUsize (b.base-b.lowWith px))
        (wrappingAdd (asUsize (b.base-b.lowWith px)) (asUsize (asI64 b.bidQty.length))) xs =
      some (padded (asUsize (b.base-b.lowWith px)) (asUsize (b.highWith px-b.lowWith px)) xs) := by
  have hle := h.length_le
  have hmax : MAX_SPAN = 8388608 := rfl
  have hfit := span_fits hf
  have hstop : wrappingAdd (asUsize (b.base-b.lowWith px)) b.bidQty.length =
      asUsize (b.base-b.lowWith px)+b.bidQty.length := Nat.mod_eq_of_lt (by omega)
  rw [asUsize_asI64 (by omega), hstop, ← hxs]
  exact copy_zero rfl (by rw [hxs]; exact hfit)

theorem not_inside (hf : b.Fits px) (hc : ¬b.Covers px) :
    ¬(px ≥ b.base ∧ px < b.base+asI64 b.bidQty.length) := by
  rw [ge_iff_le, Int64.le_iff_toInt_le, Int64.lt_iff_toInt_lt, toInt_end hf]
  exact hc

/-- Where no tick wraps, a price outside the arrays is covered by growing them, unless the
span would exceed its cap. -/
theorem Inv.ensureRange_outside (h : b.Inv) (hinit : b.inited = true) (hf : b.Fits px) (hc : ¬b.Covers px) :
    b.ensureRange px = if asUsize (b.highWith px-b.lowWith px) ≤ MAX_SPAN then
      some (b.grown (b.lowWith px) (asUsize (b.base-b.lowWith px)) (asUsize (b.highWith px-b.lowWith px)))
    else none := by
  have hlo : min b.base (px-asI64 INIT_HALF_SPAN) = b.lowWith px := rfl
  have hhi : max (b.base+asI64 b.bidQty.length) (px+1+asI64 INIT_HALF_SPAN) = b.highWith px := rfl
  unfold FlatBook.ensureRange
  rw [if_neg (by simp [hinit])]
  dsimp only
  rw [if_neg (not_inside hf hc), hlo, hhi]
  split_ifs with hcap
  · rw [h.copies hf hcap rfl, Option.bind_some, h.copies hf hcap h.length_eq]
    rfl
  · rfl

theorem Inv.ensureRange_eq (h : b.Inv) (hinit : b.inited = true) (hf : b.Fits px) (hc : ¬b.Covers px) :
    ∃ (newLo : Int64) (shift newLen : ℕ), newLo.toInt = min b.base.toInt (px.toInt-INIT_HALF_SPAN) ∧
      newLo.toInt+shift = b.base.toInt ∧ newLen = b.spanWith px ∧
      b.ensureRange px = if newLen ≤ MAX_SPAN then some (b.grown newLo shift newLen) else none :=
  ⟨_,_,_,toInt_lowWith hf,asUsize_shift hf,asUsize_span hf,h.ensureRange_outside hinit hf hc⟩

end Cover

/-- In its domain `ensure_range` never panics: it keeps the quantities and covers `px`. -/
theorem Inv.ensureRange (h : b.Inv) (hw : b.Within lo hi) {px : Px} (hpx : lo ≤ px.toInt)
    (hpx' : px.toInt ≤ hi) (hlo : -2^63 ≤ lo-4096) (hhi : hi+4097 < 2^63)
    (hspan : hi-lo+8193 ≤ MAX_SPAN) :
    ∃ b', b.ensureRange px = some b' ∧ b'.Inv ∧ b'.quotes = b.quotes ∧ b'.Within lo hi ∧
      b'.inited = true ∧ b'.base.toInt ≤ px.toInt ∧ px.toInt < b'.base.toInt+b'.bidQty.length := by
  have hhalf : INIT_HALF_SPAN = 4096 := rfl
  cases hinit : b.inited with
  | false =>
    have hbase : (b.allocated px).base.toInt = px.toInt-4096 := by
      change (px-asI64 INIT_HALF_SPAN).toInt = _
      rw [toInt_sub (by rw [toInt_half]; omega) (by rw [toInt_half]; omega), toInt_half]
      rfl
    have hlen : (b.allocated px).bidQty.length = 8193 := List.length_replicate
    refine ⟨_,ensureRange_uninit px hinit,h.allocated hinit px,h.quotes_allocated hinit px,fun _ => ?_,rfl,?_,?_⟩
    all_goals
      rw [hbase]
      try rw [hlen]
      omega
  | true =>
    obtain ⟨hwlo,hwhi⟩ := hw hinit
    have hf : b.Fits px := ⟨by omega,by omega,by omega⟩
    by_cases hc : b.Covers px
    · exact ⟨b,ensureRange_covered hinit hf hc,h,rfl,hw,hinit,hc.1,hc.2⟩
    · obtain ⟨newLo,shift,newLen,hnewLo,hshift,hnewLen,heq⟩ := h.ensureRange_eq hinit hf hc
      unfold spanWith at hnewLen
      have hcap : newLen ≤ MAX_SPAN := by omega
      have hfit : shift+b.bidQty.length ≤ newLen := by omega
      have hlen : (b.grown newLo shift newLen).bidQty.length = newLen := padded_length hfit
      rw [if_pos hcap] at heq
      refine ⟨_,heq,h.grown hfit hcap hinit,quotes_grown hshift,fun _ => ?_,hinit,?_,?_⟩
      · rw [hlen]
        change _ ≤ newLo.toInt ∧ newLo.toInt+_ ≤ _
        omega
      · change newLo.toInt ≤ _
        omega
      · rw [hlen]
        change _ < newLo.toInt+_
        omega

/-- In its domain a level sets one quantity and panics nowhere. -/
theorem Inv.level (h : b.Inv) (hw : b.Within lo hi) {ev : BookEvent} (hev : ev.kind = .level)
    (hpx : lo ≤ ev.px.toInt) (hpx' : ev.px.toInt ≤ hi) (hlo : -2^63 ≤ lo-4096) (hhi : hi+4097 < 2^63)
    (hspan : hi-lo+8193 ≤ MAX_SPAN) :
    ∃ b', b.apply ev = some b' ∧ b'.Inv ∧ b'.quotes = b.quotes.apply ev ∧ b'.Within lo hi := by
  obtain ⟨b₁,hb₁,h₁,hq₁,hw₁,hinit₁,hge,hlt⟩ := h.ensureRange hw hpx hpx' hlo hhi hspan
  have hmax : MAX_SPAN = 8388608 := rfl
  have hlen := h₁.length_le
  have hsub : (ev.px-b₁.base).toInt = ev.px.toInt-b₁.base.toInt := toInt_sub (by omega) (by omega)
  have hidx : asUsize (ev.px-b₁.base) = (ev.px.toInt-b₁.base.toInt).toNat := by
    rw [asUsize_eq (by omega), hsub]
  unfold FlatBook.apply Quotes.apply
  rw [hev]
  simp only [hb₁, Option.bind_some, hidx, ← hq₁]
  cases hside : ev.side with
  | bid =>
    have hi : (ev.px.toInt-b₁.base.toInt).toNat < b₁.bidQty.length := by omega
    obtain ⟨b₂,hb₂,h₂,hbase,hinit,hbid,hask,hlast⟩ := h₁.setBid hi ev.qty
    refine ⟨b₂,hb₂,h₂,?_,fun _ => ?_⟩
    · unfold quotes
      rw [hbase, hbid, hask, hlast]
      congr 1
      funext side
      cases side with
      | bid => exact (tickQty_set hi hge rfl _).trans (by rw [Function.update_self])
      | ask => rw [Function.update_of_ne (by simp)]
    · rw [hbase, hbid, List.length_set]
      exact hw₁ hinit₁
  | ask =>
    have hi : (ev.px.toInt-b₁.base.toInt).toNat < b₁.askQty.length := by
      rw [h₁.length_eq]
      omega
    obtain ⟨b₂,hb₂,h₂,hbase,hinit,hbid,hask,hlast⟩ := h₁.setAsk hi ev.qty
    refine ⟨b₂,hb₂,h₂,?_,fun _ => ?_⟩
    · unfold quotes
      rw [hbase, hbid, hask, hlast]
      congr 1
      funext side
      cases side with
      | bid => rw [Function.update_of_ne (by simp)]
      | ask => exact (tickQty_set hi hge rfl _).trans (by rw [Function.update_self])
    · rw [hbase, hbid]
      exact hw₁ hinit₁

/-- The flat book stands for its quantities, having seen prices of `lo..hi` only. -/
def Rep (lo hi : ℤ) (b : FlatBook) (a : Quotes) : Prop := b.Inv ∧ b.quotes = a ∧ b.Within lo hi

/-- The events of the domain: a level has its price in `lo..hi`. -/
def Priced (lo hi : ℤ) (ev : BookEvent) : Prop :=
  ev.kind = .level → lo ≤ ev.px.toInt ∧ ev.px.toInt ≤ hi

/-- Prices in a bounded range, far enough from the ends of `i64`. -/
structure Domain (lo hi : ℤ) : Prop where
  low : -2^63 ≤ lo-4096
  high : hi+4097 < 2^63
  span : hi-lo+8193 ≤ MAX_SPAN

theorem inv_default : (default : FlatBook).Inv :=
  ⟨rfl,Nat.zero_le _,rfl,rfl,rfl,rfl,fun _ => rfl⟩

theorem refines (hd : Domain lo hi) : Refines (Priced lo hi) (Rep lo hi) where
  start := by
    refine ⟨inv_default,?_,fun hinit => absurd hinit Bool.false_ne_true⟩
    refine congrArg (Quotes.mk · none) ?_
    funext side
    cases side <;> exact tickQty_zero 0 0
  step := by
    rintro b a ev hev ⟨h,rfl,hw⟩
    cases hk : ev.kind with
    | level =>
      obtain ⟨b',hb',h',hq',hw'⟩ := h.level hw hk (hev hk).1 (hev hk).2 hd.low hd.high hd.span
      exact ⟨b',hb',h',hq',hw'⟩
    | trade =>
      refine ⟨{ b with lastTrade := some (ev.px,ev.qty,ev.side) },?_,?_,?_,hw⟩
      · change b.apply ev = _
        unfold FlatBook.apply
        rw [hk]
      · exact ⟨h.length_eq,h.length_le,h.bestBid,h.bestAsk,h.bidDepth,h.askDepth,h.uninit⟩
      · unfold Quotes.apply
        rw [hk]
        rfl
    | clear =>
      refine ⟨b.clear,?_,h.clear,?_,fun hinit => ?_⟩
      · change b.apply ev = _
        unfold FlatBook.apply
        rw [hk]
      · unfold Quotes.apply
        rw [hk, quotes_clear]
      · have hw' := hw hinit
        simpa [FlatBook.clear] using hw'
  shows := by
    rintro b a ⟨h,rfl,hw⟩
    refine ⟨_,h.shows ?_⟩
    cases hinit : b.inited with
    | false =>
      have hlt := Int64.toInt_lt b.base
      rw [h.uninit hinit, List.length_nil]
      omega
    | true =>
      have hw' := hw hinit
      have hhigh := hd.high
      omega

end Steps
end FlatBook
end LowLatencyLob.Book
