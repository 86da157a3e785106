import LowLatencyLob.Book.FlatWrap

/-! What `FlatBook` promises outside its bounded price range, and what it does not.

A book that has not panicked shows the right ladders unless its window passes the end of
`i64`, and what it shows depends on the quantities alone. Whether it panics depends on the
span that it has allocated, which a clear keeps. -/
namespace LowLatencyLob.Book
open Sequence
namespace FlatBook

section Loud
variable {p q : Px} {side : Side} {evs : List BookEvent}

/-- Some side holds two levels that are half of the circle of ticks apart, or more. -/
def Stretched (evs : List BookEvent) : Prop :=
  ∃ side p q, (Quotes.replay .empty evs).qty side p ≠ 0 ∧ (Quotes.replay .empty evs).qty side q ≠ 0 ∧
    2^63 ≤ q.toInt-p.toInt

/-- Less than half of the circle apart. -/
def Near (p q : Px) : Prop := q.toInt-p.toInt < 2^63 ∧ p.toInt-q.toInt < 2^63

theorem lt_iff_near (h : Ahead p q) : p < q ↔ Near p q := by
  unfold Ahead at h
  rw [Int64.toInt_sub] at h
  have hp := Int64.le_toInt p
  have hp' := Int64.toInt_lt p
  have hq := Int64.le_toInt q
  have hq' := Int64.toInt_lt q
  rw [Int64.lt_iff_toInt_lt]
  unfold Near
  simp only [Int.bmod] at h
  omega

/-- The order of the circle is that of the prices among ticks that are near. -/
theorem better_iff_near (h : ahead side p q) : better side p q ↔ Near p q := by
  cases side with
  | bid => exact (lt_iff_near h).trans and_comm
  | ask => exact lt_iff_near h

/-- A ladder in the order of the circle is in the order of the prices if all its prices
are near. -/
theorem listing_iff_near {f : Px → Qty} {l : List (Px × Qty)} (h : Listing (ahead side) f l) :
    Listing (better side) f l ↔ ∀ p q, f p ≠ 0 → f q ≠ 0 → q.toInt-p.toInt < 2^63 := by
  constructor
  · intro hb p q hp hq
    have hnear : l.Pairwise fun x y => Near x.1 y.1 :=
      h.sorted.imp₂ (fun x y ha hb => (better_iff_near ha).mp hb) hb.sorted
    have hrefl : ∀ x ∈ l, Near x.1 x.1 := by
      intro x _
      unfold Near
      omega
    have hall := hnear.forall_of_forall_of_flip hrefl (hnear.imp And.symm)
    exact (hall ((h.mem_iff p _).mpr ⟨hp,rfl⟩) ((h.mem_iff q _).mpr ⟨hq,rfl⟩)).1
  · intro hnear
    refine ⟨h.sorted.imp_of_mem fun {x y} hx hy ha => (better_iff_near ha).mpr ?_,h.mem_iff⟩
    have hx' : f x.1 ≠ 0 := h.value hx ▸ h.ne_zero hx
    have hy' : f y.1 ≠ 0 := h.value hy ▸ h.ne_zero hy
    exact ⟨hnear _ _ hx' hy',hnear _ _ hy' hx'⟩

/-- Unless some side is stretched, a flat book that has not panicked shows the ladders of
the quantities that its events leave. -/
theorem shows_of_replay {f : FlatBook} (hr : replay default evs = some f) (hst : ¬Stretched evs) :
    Shows f (Quotes.replay .empty evs) f.ladder := by
  obtain ⟨h,hcircle⟩ := replay_circle hr
  have hlast : f.lastTrade = (Quotes.replay .empty evs).lastTrade := congrArg Quotes.lastTrade hcircle
  obtain ⟨hb,ha,htop,hdepth,_⟩ := h.displays
  refine ⟨fun side => ?_,hb,ha,htop,hdepth,hlast⟩
  have hw := h.window side
  rw [hcircle] at hw
  refine (listing_iff_near hw).mpr ?_
  intro p q hp hq
  by_contra hfar
  exact hst ⟨side,p,q,hp,hq,by omega⟩

/-- A flat book that has not panicked shows what the tree book shows, unless some side
holds two levels `2^63` or more ticks apart. -/
theorem agrees_iff {f : FlatBook} (hr : replay default evs = some f) :
    (∃ t : BTreeBook, replay default evs = some t ∧ Agree f t) ↔ ¬Stretched evs := by
  obtain ⟨h,hcircle⟩ := replay_circle hr
  have hw := h.window
  rw [hcircle] at hw
  obtain ⟨t,ht,hrep⟩ := BTreeBook.refines.replay BTreeBook.refines.start evs (by simp)
  obtain ⟨ladder,hs⟩ := BTreeBook.refines.shows hrep
  constructor
  · intro hagree hst
    obtain ⟨t',ht',ha⟩ := hagree
    obtain rfl : t' = t := Option.some.inj (ht'.symm.trans ht)
    obtain ⟨side,p,q,hp,hq,hfar⟩ := hst
    have hladder := h.displays.ladder_eq hs.displays ha
    have hnear := (listing_iff_near (hw side)).mp (hladder ▸ hs.listing side) p q hp hq
    omega
  · intro hst
    exact ⟨t,ht,(shows_of_replay hr hst).agree hs⟩

end Loud
/-- A bid at the lowest tick and one at the highest: the window passes the end of `i64`. -/
def ends : List BookEvent := [.level 0 0 .bid Int64.minValue 5,.level 1 0 .bid Int64.maxValue 7]

/-- The flat book takes both bids and shows the lower one as the best. -/
theorem lowest_best : ∃ (f : FlatBook) (t : BTreeBook), replay default ends = some f ∧
    replay default ends = some t ∧ OrderBook.bestBid f = some (some (Int64.minValue,5)) ∧
    OrderBook.bestBid t = some (some (Int64.maxValue,7)) ∧ ¬Agree f t := by
  have hflat : ((replay default ends).bind fun f : FlatBook => OrderBook.bestBid f) =
      some (some (Int64.minValue,5)) := by decide +kernel
  obtain ⟨f,hf,hbest⟩ := Option.bind_eq_some_iff.mp hflat
  refine ⟨f,_,hf,rfl,hbest,rfl,fun ha => ?_⟩
  obtain ⟨x,hx,hx'⟩ := ha.bestBid
  rw [hbest] at hx
  rw [← hx] at hx'
  exact absurd hx' (by decide)

/-- One bid. -/
theorem agrees_one_bid : ∃ f : FlatBook, replay default [.level 0 0 .bid 100 5] = some f ∧
    ∃ t : BTreeBook, replay default [.level 0 0 .bid 100 5] = some t ∧ Agree f t := by
  have hd : Domain 100 100 := ⟨by decide,by decide,by decide⟩
  obtain ⟨f,hf,_⟩ := (refines hd).replay (refines hd).start [.level 0 0 .bid 100 5] (by unfold Priced; decide)
  refine ⟨f,hf,(agrees_iff hf).mpr ?_⟩
  rintro ⟨side,p,q,hp,hq,hfar⟩
  have hone : ∀ p, (Quotes.replay .empty [.level 0 0 .bid 100 5]).qty side p ≠ 0 → p = 100 := by
    intro p hp
    by_contra hne
    apply hp
    cases side with
    | bid => exact Function.update_of_ne hne _ _
    | ask => rfl
  rw [hone p hp, hone q hq] at hfar
  omega

section Clear

theorem replay_clear {P S : List BookEvent} {c : BookEvent} (hc : c.kind = .clear) :
    Quotes.replay .empty (P ++ c :: S) = Quotes.replay .empty S := by
  have hclear : ∀ a : Quotes, a.apply c = .empty := by
    intro a
    rw [Quotes.apply, hc]
  simp [Quotes.replay, hclear]

/-- After a clear the book shows what a new book shows, as long as neither panics; and
neither panics on prices of one bounded range. -/
theorem clear_as_new (P S : List BookEvent) {c : BookEvent} (hc : c.kind = .clear) :
    (∀ (n : ℕ) (f g : FlatBook), replay default (P ++ c :: S.take n) = some f →
      replay default (S.take n) = some g → Agree f g) ∧
    ∀ lo hi, Domain lo hi → (∀ ev ∈ P ++ S, Priced lo hi ev) →
      ∃ f g : FlatBook, replay default (P ++ c :: S) = some f ∧ replay default S = some g := by
  constructor
  · intro n f g hf hg
    exact agree_of_quotes_eq hf hg (replay_clear hc)
  · intro lo hi hd hpx
    have hclear : Priced lo hi c := by
      intro hk
      rw [hc] at hk
      cases hk
    have hall : ∀ ev ∈ P ++ c :: S, Priced lo hi ev := by
      intro ev hev
      rcases List.mem_append.mp hev with hev | hev
      · exact hpx ev (List.mem_append_left _ hev)
      · rcases List.mem_cons.mp hev with rfl | hev
        · exact hclear
        · exact hpx ev (List.mem_append_right _ hev)
    obtain ⟨f,hf,_⟩ := (refines hd).replay (refines hd).start _ hall
    obtain ⟨g,hg,_⟩ := (refines hd).replay (refines hd).start S fun ev hev =>
      hpx ev (List.mem_append_right _ hev)
    exact ⟨f,g,hf,hg⟩

/-- A bid at 0, a clear, and a bid at 100. -/
theorem clear_as_new_bids : ∃ f g : FlatBook,
    replay default ([.level 0 0 .bid 0 5] ++ .clear 1 0 :: [.level 2 0 .bid 100 5]) = some f ∧
    replay default [.level 2 0 .bid 100 5] = some g ∧ Agree f g := by
  have hnew := clear_as_new [.level 0 0 .bid 0 5] [.level 2 0 .bid 100 5] (c := .clear 1 0) rfl
  have hd : Domain 0 100 := ⟨by decide,by decide,by decide⟩
  obtain ⟨f,g,hf,hg⟩ := hnew.2 0 100 hd (by unfold Priced; decide)
  exact ⟨f,g,hf,hg,hnew.1 1 f g hf hg⟩

/-- The span around 0 is kept, and too far from `2^24` to grow there; a new book takes
that price. -/
theorem clear_keeps_span :
    (replay (default : FlatBook) [.level 0 0 .bid 0 5]).isSome ∧
      (replay (default : FlatBook) ([.level 0 0 .bid 0 5] ++ .clear 1 0 :: [.level 2 0 .bid 16777216 5])).isNone ∧
      (replay (default : FlatBook) [.level 2 0 .bid 16777216 5]).isSome := by
  decide +kernel

end Clear

section Remove
variable {f : FlatBook} {side : Side} {p : Px}

/-- A side shows a level at the price. -/
def Resident {B : Type} [OrderBook B] (b : B) (side : Side) (p : Px) : Prop :=
  ∃ out n out' qty, OrderBook.topN b side out = some (n,out') ∧ (p,qty) ∈ out'.take n

/-- A price is shown just when it is on the ladder. -/
theorem resident_iff_mem {B : Type} [OrderBook B] {b : B} {ladder : Side → List (Px × Qty)}
    {t : Option (Px × Qty × Side)} (h : Displays b ladder t) :
    Resident b side p ↔ ∃ qty, (p,qty) ∈ ladder side := by
  constructor
  · rintro ⟨out,n,out',qty,htop,hmem⟩
    have htake := Slice.take_written (ladder side) out
    rw [Option.some.inj ((h.topN side out).symm.trans htop)] at htake
    rw [htake] at hmem
    exact ⟨qty,List.mem_of_mem_take hmem⟩
  · intro ⟨qty,hmem⟩
    refine ⟨ladder side,(ladder side).length,ladder side,qty,?_,?_⟩
    · rw [h.topN, Slice.written_of_length_eq rfl]
    · rwa [List.take_length]

theorem resident_iff_of_shows {B : Type} [OrderBook B] {b : B} {a : Quotes} {ladder : Side → List (Px × Qty)}
    (h : Shows b a ladder) : Resident b side p ↔ a.qty side p ≠ 0 := by
  rw [resident_iff_mem h.displays]
  exact (h.listing side).exists_mem_iff p

theorem Inv.resident_iff (h : f.Inv) : Resident f side p ↔ f.circle.qty side p ≠ 0 := by
  rw [resident_iff_mem h.displays]
  exact (h.window side).exists_mem_iff p

/-- With a slot for its price a level does not panic. -/
theorem Inv.level_isSome {b b₁ : FlatBook} {ev : BookEvent} (hk : ev.kind = .level)
    (he : b.ensureRange ev.px = some b₁) (h₁ : b₁.Inv) (hidx : asUsize (ev.px-b₁.base) < b₁.bidQty.length) :
    (b.apply ev).isSome := by
  unfold FlatBook.apply
  rw [hk]
  simp only [he, Option.bind_some]
  cases ev.side with
  | bid =>
    obtain ⟨b₂,hb₂,_⟩ := h₁.setBid hidx ev.qty
    simp only [hb₂, Option.isSome_some]
  | ask =>
    obtain ⟨b₂,hb₂,_⟩ := h₁.setAsk (h₁.length_eq ▸ hidx) ev.qty
    simp only [hb₂, Option.isSome_some]

/-- The first level never panics. -/
theorem Inv.level_uninit (h : f.Inv) (hinit : f.inited = false) {ev : BookEvent} (hk : ev.kind = .level) :
    (f.apply ev).isSome := by
  apply Inv.level_isSome hk (ensureRange_uninit ev.px hinit) (h.allocated hinit ev.px)
  have hsub : ev.px-(f.allocated ev.px).base = asI64 INIT_HALF_SPAN := by
    change ev.px-(ev.px-asI64 INIT_HALF_SPAN) = _
    grind
  rw [hsub, asUsize_asI64 (by decide)]
  change INIT_HALF_SPAN < (List.replicate (2*INIT_HALF_SPAN+1) (0 : Qty)).length
  rw [List.length_replicate]
  decide

/-- Where no tick wraps, a level panics exactly when its price is outside the arrays and
the span that covers both exceeds the cap. -/
theorem Inv.level_eq_none_iff (h : f.Inv) (hinit : f.inited = true) {ev : BookEvent} (hk : ev.kind = .level)
    (hf : f.Fits ev.px) : f.apply ev = none ↔ ¬f.Covers ev.px ∧ MAX_SPAN < f.spanWith ev.px := by
  have hindex : ∀ b₁ : FlatBook, b₁.base.toInt ≤ ev.px.toInt → ev.px.toInt < b₁.base.toInt+b₁.bidQty.length →
      asUsize (ev.px-b₁.base) < b₁.bidQty.length := by
    intro b₁ hge hlt
    have hidx := asUsize_sub hge
    omega
  by_cases hc : f.Covers ev.px
  · have hsome := Inv.level_isSome hk (ensureRange_covered hinit hf hc) h (hindex f hc.1 hc.2)
    rw [← Option.not_isSome_iff_eq_none]
    exact iff_of_false (not_not.mpr hsome) fun hn => hn.1 hc
  · obtain ⟨newLo,shift,newLen,hnewLo,hshift,hnewLen,heq⟩ := h.ensureRange_eq hinit hf hc
    by_cases hcap : newLen ≤ MAX_SPAN
    · rw [if_pos hcap] at heq
      have hle := h.length_le
      have hspan : (newLen : ℤ) = max (f.base.toInt+f.bidQty.length) (ev.px.toInt+1+INIT_HALF_SPAN)-
        min f.base.toInt (ev.px.toInt-INIT_HALF_SPAN) := hnewLen
      have hfit : shift+f.bidQty.length ≤ newLen := by omega
      have hlen : (f.grown newLo shift newLen).bidQty.length = newLen := padded_length hfit
      have hsome := Inv.level_isSome hk heq (h.grown hfit hcap hinit) (hindex _
        (by change newLo.toInt ≤ _; omega) (by rw [hlen]; change _ < newLo.toInt+_; omega))
      rw [← Option.not_isSome_iff_eq_none]
      exact iff_of_false (not_not.mpr hsome) fun hn => by omega
    · rw [if_neg hcap] at heq
      refine iff_of_true ?_ ⟨hc,by omega⟩
      unfold FlatBook.apply
      rw [hk]
      simp only [heq, Option.bind_none]

/-- Removing an absent level shows nothing new, if it does not panic; it does not panic in
a book that has seen no level, and else, where no tick wraps, exactly when the price is
within the arrays or they can grow to it. -/
theorem remove_absent {evs : List BookEvent} (hr : replay (default : FlatBook) evs = some f)
    (habs : ¬Resident f side p) (seq ts : UInt64) :
    (∀ f', OrderBook.apply f (.level seq ts side p 0) = some f' → Agree f f') ∧
    (f.inited = false → (OrderBook.apply f (.level seq ts side p 0)).isSome) ∧
    (f.inited = true → f.Fits p → (OrderBook.apply f (.level seq ts side p 0) = none ↔
      ¬f.Covers p ∧ MAX_SPAN < f.spanWith p)) := by
  obtain ⟨h,hcircle⟩ := replay_circle hr
  refine ⟨?_,fun hinit => h.level_uninit hinit rfl,fun hinit hf => h.level_eq_none_iff hinit rfl hf⟩
  intro f' hf'
  have hr' : replay (default : FlatBook) (evs ++ [.level seq ts side p 0]) = some f' :=
    (replay_concat hr _).trans hf'
  apply agree_of_quotes_eq hr hr'
  have hzero : f.circle.qty side p = 0 := not_not.mp fun hne => habs (h.resident_iff.mpr hne)
  rw [hcircle] at hzero
  generalize hq : Quotes.replay .empty evs = a at hzero
  have hstep : Quotes.replay .empty (evs ++ [.level seq ts side p 0]) = a.apply (.level seq ts side p 0) := by
    simp [Quotes.replay, ← hq]
  rw [hstep, Quotes.apply]
  simp only [BookEvent.level]
  rw [← hzero, Function.update_eq_self, Function.update_eq_self]

/-- After one bid no other price is resident. -/
theorem absent_of_ne {q : Px} (hr : replay (default : FlatBook) [.level 0 0 .bid p 5] = some f) (hne : q ≠ p) :
    ¬Resident f side q := by
  obtain ⟨h,hcircle⟩ := replay_circle hr
  rw [h.resident_iff, hcircle, not_not]
  cases side with
  | bid => exact Function.update_of_ne hne _ _
  | ask => rfl

/-- A bid at 100, and nothing at 99. -/
theorem remove_absent_next : ∃ f f' : FlatBook, replay default [.level 0 0 .bid 100 5] = some f ∧
    OrderBook.apply f (.level 1 0 .bid 99 0) = some f' ∧ Agree f f' := by
  have hd : Domain 99 100 := ⟨by decide,by decide,by decide⟩
  obtain ⟨f,hf,hrep⟩ := (refines hd).replay (refines hd).start [.level 0 0 .bid 100 5] (by unfold Priced; decide)
  have hnext : Priced 99 100 (.level 1 0 .bid 99 0) := by
    unfold Priced
    decide
  obtain ⟨f',hf',_⟩ := (refines hd).step hnext hrep
  exact ⟨f,f',hf,hf',(remove_absent hf (absent_of_ne hf (by decide)) 1 0).1 f' hf'⟩

/-- The arrays around 0 cannot grow to `2^24`, where nothing rests. -/
theorem remove_absent_panics : ∃ f : FlatBook, replay default [.level 0 0 .bid 0 5] = some f ∧
    ¬Resident f .bid 16777216 ∧ OrderBook.apply f (.level 1 0 .bid 16777216 0) = none := by
  have hsome : ((replay (default : FlatBook) [.level 0 0 .bid 0 5]).map fun f =>
      (OrderBook.apply f (.level 1 0 .bid 16777216 0)).isNone) = some true := by decide +kernel
  obtain ⟨f,hf,hnone⟩ := Option.map_eq_some_iff.mp hsome
  exact ⟨f,hf,absent_of_ne hf (by decide),Option.isNone_iff_eq_none.mp hnone⟩

end Remove
end FlatBook
end LowLatencyLob.Book
