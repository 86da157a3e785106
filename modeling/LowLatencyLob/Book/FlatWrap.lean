import LowLatencyLob.Book.FlatRefines
import LowLatencyLob.Book.BTree

/-! `FlatBook` over all `i64` prices.

Ticks wrap, so the arrays are a window on a circle of `2^64` ticks. Whatever the prices,
a book that has not panicked holds the right quantity at each price, and lists them in the
order of the circle; only where its window passes the end of `i64` is that another order. -/
namespace LowLatencyLob.Book
open Sequence
namespace FlatBook

section Circle
variable {base p q : Int64} {xs : List Qty} {i j : ℕ}

/-- Going up from `p`, the tick `q` comes before half of the circle is passed. -/
def Ahead (p q : Px) : Prop := 0 < (q-p).toInt

instance : Std.Asymm Ahead where
  asymm p q h h' := by
    unfold Ahead at h h'
    rw [Int64.toInt_sub] at h h'
    have hp := Int64.le_toInt p
    have hp' := Int64.toInt_lt p
    have hq := Int64.le_toInt q
    have hq' := Int64.toInt_lt q
    simp only [Int.bmod] at h h'
    omega

/-- The order of a side on the circle, best first. -/
def ahead : Side → Px → Px → Prop
  | .bid => Function.swap Ahead
  | .ask => Ahead

instance (side : Side) : Std.Asymm (ahead side) where
  asymm p q h h' := by
    cases side with
    | bid => exact asymm (r := Ahead) h h'
    | ask => exact asymm (r := Ahead) h h'

/-- The quantity that a window from `base` keeps for a tick. -/
def wrapQty (base : Int64) (xs : List Qty) (p : Px) : Qty := xs[asUsize (p-base)]?.getD 0

theorem asI64_asUsize (x : Int64) : asI64 (asUsize x) = x := by
  apply Int64.toBitVec_inj.mp
  change BitVec.ofNat 64 x.toBitVec.toNat = x.toBitVec
  simp

theorem asI64_add (i j : ℕ) : asI64 i+asI64 j = asI64 (i+j) := (Int64.ofNat_add i j).symm

theorem tick_index (base p : Int64) : base+asI64 (asUsize (p-base)) = p := by
  rw [asI64_asUsize]
  grind

theorem index_tick (hi : i < 2^64) : asUsize (base+asI64 i-base) = i := by
  have hsub : base+asI64 i-base = asI64 i := by grind
  rw [hsub, asUsize_asI64 hi]

theorem ahead_tick (h : i < j) (hj : j < 2^63) : Ahead (base+asI64 i) (base+asI64 j) := by
  have hsub : base+asI64 j-(base+asI64 i) = asI64 j-asI64 i := by grind
  unfold Ahead
  rw [hsub, toInt_sub, toInt_asI64 hj, toInt_asI64 (by omega)]
  all_goals
    try rw [toInt_asI64 hj, toInt_asI64 (by omega)]
    omega

/-- The slots of a window list its quantities in the order of the circle. -/
theorem window_listing (hlen : xs.length < 2^63) :
    Listing Ahead (wrapQty base xs) (ticks base (slots 0 xs)) := by
  have hlt : ∀ x ∈ slots 0 xs, x.1 < xs.length := by
    intro x hx
    have hb := slots_bounds hx
    omega
  refine (slots_listing xs).map (g := fun i => base+asI64 i) ?_ ?_ ?_
  · intro x hx y hy hxy
    exact ahead_tick hxy ((hlt y hy).trans hlen)
  · intro x hx
    have hx' := hlt x hx
    simp only [wrapQty, index_tick (show x.1 < 2^64 by omega)]
  · intro p _
    exact ⟨asUsize (p-base),tick_index base p,rfl⟩

theorem wrapQty_zero (base : Int64) (n : ℕ) (p : Px) : wrapQty base (List.replicate n 0) p = 0 := by
  unfold wrapQty
  rw [List.getElem?_replicate]
  split_ifs <;> rfl

theorem wrapQty_set (hi : i < xs.length) (hp : asUsize (p-base) = i) (v : Qty) :
    wrapQty base (xs.set i v) = Function.update (wrapQty base xs) p v := by
  funext p'
  by_cases hpp : p' = p
  · subst p'
    rw [Function.update_self, wrapQty, hp]
    simp [hi]
  · rw [Function.update_of_ne hpp]
    unfold wrapQty
    have hne : i ≠ asUsize (p'-base) := by
      intro heq
      apply hpp
      rw [← tick_index base p', ← heq, ← hp, tick_index]
    rw [List.getElem?_set_ne hne]

end Circle
section Steps
variable {b b' : FlatBook} {px : Px} {ev : BookEvent}

/-- The quantities that a book stands for, whatever its base. -/
def circle (b : FlatBook) : Quotes where
  qty
    | .bid => wrapQty b.base b.bidQty
    | .ask => wrapQty b.base b.askQty
  lastTrade := b.lastTrade

theorem Inv.window (h : b.Inv) (side : Side) :
    Listing (ahead side) (b.circle.qty side) (b.ladder side) := by
  have hle := h.length_le
  have heq := h.length_eq
  unfold MAX_SPAN at hle
  cases side with
  | bid => exact (window_listing (by omega)).reverse
  | ask => exact window_listing (by omega)

/-- Books with the same ladders stand for the same quantities. -/
theorem Inv.circle_eq (h : b.Inv) (h' : b'.Inv) (hl : b'.ladder = b.ladder) (ht : b'.lastTrade = b.lastTrade) :
    b'.circle = b.circle := by
  have hqty : b'.circle.qty = b.circle.qty := by
    funext side
    have hw := h'.window side
    rw [hl] at hw
    exact hw.value_unique (h.window side)
  exact congrArg₂ Quotes.mk hqty ht

/-- A copy into zeroes that does not panic pads the array. -/
theorem copy_some {n start stop : ℕ} {xs ys : List Qty}
    (h : copyFromSlice (List.replicate n 0) start stop xs = some ys) :
    start+xs.length ≤ n ∧ ys = padded start n xs := by
  unfold copyFromSlice at h
  split_ifs at h with hc
  obtain ⟨hle,hstop,hlen⟩ := hc
  rw [List.length_replicate] at hstop
  have hsum : start+xs.length = stop := by omega
  refine ⟨by omega,?_⟩
  rw [← Option.some.inj h, padded, hsum, List.take_replicate, List.drop_replicate, Nat.min_eq_left (by omega)]

/-- What `ensure_range` does when it does not panic. -/
theorem ensureRange_cases (h : b.ensureRange px = some b') :
    (b.inited = false ∧ b' = b.allocated px) ∨ b' = b ∨
    (b.inited = true ∧ ∃ newLo newLen, newLen ≤ MAX_SPAN ∧
      asUsize (b.base-newLo)+b.bidQty.length ≤ newLen ∧ b' = b.grown newLo (asUsize (b.base-newLo)) newLen) := by
  cases hinit : b.inited with
  | false =>
    rw [ensureRange_uninit px hinit] at h
    exact .inl ⟨rfl,(Option.some.inj h).symm⟩
  | true =>
    unfold ensureRange at h
    rw [if_neg (by simp [hinit])] at h
    dsimp only at h
    split_ifs at h with hin hcap
    · exact .inr (.inl (Option.some.inj h).symm)
    · obtain ⟨newBid,hbid,h⟩ := Option.bind_eq_some_iff.mp h
      obtain ⟨newAsk,hask,rfl⟩ := Option.map_eq_some_iff.mp h
      obtain ⟨hlen,rfl⟩ := copy_some hbid
      obtain ⟨_,rfl⟩ := copy_some hask
      exact .inr (.inr ⟨rfl,_,_,hcap,hlen,rfl⟩)

/-- Growing keeps the ladders, also where ticks wrap. -/
theorem ladder_grown (newLo : Int64) (newLen : ℕ) :
    (b.grown newLo (asUsize (b.base-newLo)) newLen).ladder = b.ladder := by
  have hmove : ∀ xs : List Qty, ticks newLo (slots 0 (padded (asUsize (b.base-newLo)) newLen xs)) =
      ticks b.base (slots 0 xs) := by
    intro xs
    unfold ticks padded
    rw [slots_grow, List.map_map]
    apply List.map_congr_left
    intro x _
    have hadd : asI64 (x.1+asUsize (b.base-newLo)) = asI64 x.1+(b.base-newLo) := by
      rw [← asI64_add, asI64_asUsize]
    simp only [Function.comp_apply, hadd, Prod.mk.injEq, and_true]
    grind
  funext side
  cases side with
  | bid => exact congrArg List.reverse (hmove b.bidQty)
  | ask => exact hmove b.askQty

theorem Inv.ladder_allocated (h : b.Inv) (hinit : b.inited = false) (px : Px) :
    (b.allocated px).ladder = b.ladder := by
  funext side
  cases side with
  | bid => simp [ladder, FlatBook.allocated, h.uninit hinit, ticks]
  | ask => simp [ladder, FlatBook.allocated, h.askQty_uninit hinit, ticks]

/-- Whatever the price, `ensure_range` panics or changes nothing that the book stands for. -/
theorem Inv.ensureRange_some (h : b.Inv) (he : b.ensureRange px = some b') :
    b'.Inv ∧ b'.circle = b.circle := by
  rcases ensureRange_cases he with ⟨hinit,rfl⟩ | rfl | ⟨hinit,newLo,newLen,hcap,hlen,rfl⟩
  · have h' := h.allocated hinit px
    exact ⟨h',h.circle_eq h' (h.ladder_allocated hinit px) rfl⟩
  · exact ⟨h,rfl⟩
  · have h' : (b.grown newLo _ newLen).Inv := h.grown hlen hcap hinit
    exact ⟨h',h.circle_eq h' (ladder_grown newLo newLen) rfl⟩

theorem set_lt {h h' : Half} {beats : ℕ → ℕ → Bool} {probe : List Qty → ℕ → Option ℕ} {i : ℕ} {qty : Qty}
    (hs : h.set beats probe i qty = some h') : i < h.qty.length := by
  obtain ⟨old,hold,_⟩ := Option.map_eq_some_iff.mp hs
  exact (List.getElem?_eq_some_iff.mp hold).1

/-- A level that does not panic sets one quantity, also where ticks wrap. -/
theorem Inv.level_some (h : b.Inv) (hk : ev.kind = .level) (ha : b.apply ev = some b') :
    b'.Inv ∧ b'.circle = b.circle.apply ev := by
  unfold FlatBook.apply at ha
  rw [hk] at ha
  obtain ⟨b₁,hb₁,ha⟩ := Option.bind_eq_some_iff.mp ha
  obtain ⟨h₁,hcircle⟩ := h.ensureRange_some hb₁
  rw [← hcircle]
  unfold Quotes.apply
  rw [hk]
  cases hside : ev.side with
  | bid =>
    rw [hside] at ha
    obtain ⟨x,hx,_⟩ := Option.map_eq_some_iff.mp ha
    obtain ⟨b₂,hb₂,h₂,hbase,_,hbid,hask,hlast⟩ := h₁.setBid (set_lt hx) ev.qty
    obtain rfl : b₂ = b' := Option.some.inj (hb₂.symm.trans ha)
    refine ⟨h₂,?_⟩
    unfold circle
    rw [hbase, hbid, hask, hlast]
    congr 1
    funext side
    cases side with
    | bid => exact (wrapQty_set (set_lt hx) rfl _).trans (by rw [Function.update_self])
    | ask => rw [Function.update_of_ne (by simp)]
  | ask =>
    rw [hside] at ha
    obtain ⟨x,hx,_⟩ := Option.map_eq_some_iff.mp ha
    obtain ⟨b₂,hb₂,h₂,hbase,_,hbid,hask,hlast⟩ := h₁.setAsk (set_lt hx) ev.qty
    obtain rfl : b₂ = b' := Option.some.inj (hb₂.symm.trans ha)
    refine ⟨h₂,?_⟩
    unfold circle
    rw [hbase, hbid, hask, hlast]
    congr 1
    funext side
    cases side with
    | bid => rw [Function.update_of_ne (by simp)]
    | ask => exact (wrapQty_set (set_lt hx) rfl _).trans (by rw [Function.update_self])

theorem circle_clear (b : FlatBook) : b.clear.circle = .empty := by
  refine congrArg (Quotes.mk · none) ?_
  funext side px
  cases side <;> exact wrapQty_zero _ _ px

theorem Inv.apply_some (h : b.Inv) (ha : b.apply ev = some b') : b'.Inv ∧ b'.circle = b.circle.apply ev := by
  cases hk : ev.kind with
  | level => exact h.level_some hk ha
  | trade =>
    unfold FlatBook.apply at ha
    rw [hk] at ha
    obtain rfl := Option.some.inj ha
    refine ⟨⟨h.length_eq,h.length_le,h.bestBid,h.bestAsk,h.bidDepth,h.askDepth,h.uninit⟩,?_⟩
    unfold Quotes.apply
    rw [hk]
    rfl
  | clear =>
    unfold FlatBook.apply at ha
    rw [hk] at ha
    obtain rfl := Option.some.inj ha
    refine ⟨h.clear,?_⟩
    unfold Quotes.apply
    rw [hk, circle_clear]

/-- A book that has not panicked stands for the right quantities, whatever the prices. -/
theorem replay_circle {evs : List BookEvent} (hr : replay (default : FlatBook) evs = some b) :
    b.Inv ∧ b.circle = Quotes.replay .empty evs := by
  have hempty : (default : FlatBook).circle = .empty := by
    refine congrArg (Quotes.mk · none) ?_
    funext side px
    cases side <;> rfl
  refine replay_keeps (fun b a => b.Inv ∧ b.circle = a) ?_ ⟨inv_default,hempty⟩ evs hr
  intro b a ev b' h ha
  obtain ⟨hinv,rfl⟩ := h
  exact hinv.apply_some ha

/-- Books that have not panicked and stand for the same quantities cannot be told apart,
whatever ranges they have allocated. -/
theorem agree_of_quotes_eq {evs evs' : List BookEvent} (hr : replay (default : FlatBook) evs = some b)
    (hr' : replay (default : FlatBook) evs' = some b')
    (hq : Quotes.replay .empty evs = Quotes.replay .empty evs') : Agree b b' := by
  obtain ⟨h,hc⟩ := replay_circle hr
  obtain ⟨h',hc'⟩ := replay_circle hr'
  have hcircle : b.circle = b'.circle := by rw [hc, hc', hq]
  have hladder : b.ladder = b'.ladder := by
    funext side
    have hw := h'.window side
    rw [← hcircle] at hw
    exact (h.window side).unique hw
  have hlast : b.lastTrade = b'.lastTrade := congrArg Quotes.lastTrade hcircle
  have hd := h'.displays
  rw [← hladder, ← hlast] at hd
  exact h.displays.agree hd

end Steps
end FlatBook
end LowLatencyLob.Book
