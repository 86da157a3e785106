import LowLatencyLob.Book.Agreement

/-! The books that the benchmarks start from, and that the two ways to build them come to
the same. -/
namespace LowLatencyLob.Bench
open Book Sequence

/-- Tick spacing between adjacent resident levels. -/
def STEP : Int64 := 2

/-- `i64::try_from(x).expect(..)` of a `usize`. -/
def tryI64 (x : ℕ) : Option Int64 := if x < 2^63 then some (Int64.ofNat x) else none

/-- `1..=d` -/
def oneTo (d : Int64) : List Int64 := (List.range' 1 d.toInt.toNat).map Int64.ofNat

/-- The level that a builder sets on a side at `i` steps from `mid`. -/
def rung (mid : Px) (side : Side) (i : Int64) : BookEvent :=
  match side with
  | .bid => .level 0 0 .bid (mid-STEP*i) (1000+i)
  | .ask => .level 0 0 .ask (mid+STEP*i) (1000+i)

section Build
variable (B : Type) [Inhabited B] [OrderBook B]

/-- A book with `depth` levels per side around `mid`, from the middle outward. -/
def buildAtDepth (mid : Px) (depth : ℕ) : Option B := do
  let d ← tryI64 depth
  (oneTo d).foldlM (fun b i => do
    let b ← OrderBook.apply b (rung mid .bid i)
    OrderBook.apply b (rung mid .ask i)) default

/-- The same levels in ascending order of the price. -/
def buildAtDepthFast (mid : Px) (depth : ℕ) : Option B := do
  let d ← tryI64 depth
  let b ← (oneTo d).reverse.foldlM (fun b i => OrderBook.apply b (rung mid .bid i)) default
  (oneTo d).foldlM (fun b i => OrderBook.apply b (rung mid .ask i)) b

end Build

section Ladder
variable {mid px : Px} {depth k : ℕ} {side : Side}

/-- The prices of the ladder are ticks. -/
structure Fits (mid : Px) (depth : ℕ) : Prop where
  low : -2^63 ≤ mid.toInt-2*depth
  high : mid.toInt+2*depth < 2^63

/-- How far a price is from `mid`, on a side. -/
def offset (mid : Px) (side : Side) (px : Px) : ℤ :=
  match side with
  | .bid => mid.toInt-px.toInt
  | .ask => px.toInt-mid.toInt

/-- The quantities of a ladder of `depth` levels per side. -/
def resting (mid : Px) (depth : ℕ) : Quotes where
  qty side px :=
    if 2 ≤ offset mid side px ∧ offset mid side px ≤ 2*depth ∧ offset mid side px % 2 = 0 then
      1000+Int64.ofNat (offset mid side px/2).toNat
    else 0
  lastTrade := none

theorem offset_injective {px' : Px} (h : offset mid side px = offset mid side px') : px = px' := by
  rw [← Int64.toInt_inj]
  cases side with
  | bid => simpa [offset] using h
  | ask => simpa [offset] using h

theorem better_iff_offset {px' : Px} : better side px px' ↔ offset mid side px < offset mid side px' := by
  cases side with
  | bid =>
    change px' < px ↔ mid.toInt-px.toInt < mid.toInt-px'.toInt
    rw [Int64.lt_iff_toInt_lt]
    omega
  | ask =>
    change px < px' ↔ px.toInt-mid.toInt < px'.toInt-mid.toInt
    rw [Int64.lt_iff_toInt_lt]
    omega

@[simp] theorem rung_kind (mid : Px) (side : Side) (i : Int64) : (rung mid side i).kind = .level := by
  cases side <;> rfl

@[simp] theorem rung_side (mid : Px) (side : Side) (i : Int64) : (rung mid side i).side = side := by
  cases side <;> rfl

@[simp] theorem rung_qty (mid : Px) (side : Side) (i : Int64) : (rung mid side i).qty = 1000+i := by
  cases side <;> rfl

theorem Fits.depth_lt (hf : Fits mid depth) : depth < 2^62 := by
  have hlow := hf.low
  have hhigh := hf.high
  omega

theorem toInt_step (h : k < 2^62) : (STEP*Int64.ofNat k).toInt = 2*k := by
  have hstep : STEP.toInt = 2 := rfl
  have hk : (Int64.ofNat k).toInt = k := Int64.toInt_ofNat_of_lt (by omega)
  rw [toInt_mul (by rw [hstep, hk]; omega) (by rw [hstep, hk]; omega), hstep, hk]

/-- A rung is two ticks per step away. -/
theorem offset_rung (hf : Fits mid depth) (hk : k ≤ depth) :
    offset mid side (rung mid side (Int64.ofNat k)).px = 2*k := by
  have hlow := hf.low
  have hhigh := hf.high
  have hstep := toInt_step (lt_of_le_of_lt hk hf.depth_lt)
  have hmid := mid.toInt_lt
  have hmid' := mid.le_toInt
  cases side with
  | bid =>
    change mid.toInt-(mid-STEP*Int64.ofNat k).toInt = 2*k
    rw [toInt_sub (by omega) (by omega), hstep]
    omega
  | ask =>
    change (mid+STEP*Int64.ofNat k).toInt-mid.toInt = 2*k
    rw [toInt_add (by omega) (by omega), hstep]
    omega

theorem toInt_rung_qty (hk : k < 2^62) : (1000+Int64.ofNat k : Qty).toInt = 1000+k := by
  have hthousand : (1000 : Int64).toInt = 1000 := rfl
  have hk' : (Int64.ofNat k).toInt = k := Int64.toInt_ofNat_of_lt (by omega)
  rw [toInt_add (by omega) (by omega), hthousand, hk']

theorem rung_qty_ne_zero (hk : k < 2^62) : (1000+Int64.ofNat k : Qty) ≠ 0 := by
  intro hz
  have hqty := toInt_rung_qty hk
  rw [hz] at hqty
  change (0 : ℤ) = 1000+k at hqty
  omega

/-- A rung has what rests at its price. -/
theorem resting_rung (hf : Fits mid depth) (hk : 1 ≤ k) (hk' : k ≤ depth) :
    (resting mid depth).qty side (rung mid side (Int64.ofNat k)).px = 1000+Int64.ofNat k := by
  have hoff : offset mid side (rung mid side (Int64.ofNat k)).px = 2*k := offset_rung hf hk'
  have hhalf : (2*(k : ℤ)/2).toNat = k := by omega
  unfold resting
  dsimp only
  rw [hoff, if_pos (by omega), hhalf]

/-- What rests on a side is on a rung. -/
theorem exists_rung (hf : Fits mid depth) (h : (resting mid depth).qty side px ≠ 0) :
    ∃ k, 1 ≤ k ∧ k ≤ depth ∧ (rung mid side (Int64.ofNat k)).px = px := by
  unfold resting at h
  dsimp only at h
  split_ifs at h with hoff
  · refine ⟨(offset mid side px/2).toNat,by omega,by omega,@offset_injective mid _ side _ ?_⟩
    rw [offset_rung hf (by omega)]
    omega
  · exact absurd rfl h

/-- The levels of a side, best first. -/
def ladder (mid : Px) (depth : ℕ) (side : Side) : List (Px × Qty) :=
  (List.range' 1 depth).map fun k => ((rung mid side (Int64.ofNat k)).px,1000+Int64.ofNat k)

theorem ladder_listing (hf : Fits mid depth) (side : Side) :
    Listing (better side) ((resting mid depth).qty side) (ladder mid depth side) := by
  constructor
  · refine List.pairwise_map.mpr ((List.pairwise_lt_range' _).imp_of_mem ?_)
    intro j k hj hk hjk
    rw [List.mem_range'_1] at hj hk
    rw [@better_iff_offset mid, offset_rung hf (by omega), offset_rung hf (by omega)]
    omega
  · intro px qty
    rw [ladder, List.mem_map]
    constructor
    · intro ⟨k,hk,heq⟩
      obtain ⟨rfl,rfl⟩ := Prod.mk.inj heq
      rw [List.mem_range'_1] at hk
      have hd := hf.depth_lt
      exact ⟨rung_qty_ne_zero (by omega),resting_rung hf hk.1 (by omega)⟩
    · intro ⟨hne,hqty⟩
      obtain ⟨k,hk,hk',rfl⟩ := exists_rung hf (by rwa [hqty])
      refine ⟨k,List.mem_range'_1.mpr (by omega),?_⟩
      rw [← hqty, resting_rung hf hk hk']

/-- A book with `depth` levels per side: the `i`-th from the best is `2*i` ticks from `mid`,
with a quantity of `1000+i`. -/
structure Laddered {B : Type} [OrderBook B] (b : B) (mid : Px) (depth : ℕ) : Prop where
  depths : ∀ side, OrderBook.depth b side = depth
  bestBid : ∃ px qty, OrderBook.bestBid b = some (some (px,qty)) ∧ px.toInt = mid.toInt-2
  bestAsk : ∃ px qty, OrderBook.bestAsk b = some (some (px,qty)) ∧ px.toInt = mid.toInt+2
  level : ∀ side out, out.length = depth → ∃ levels, OrderBook.topN b side out = some (depth,levels) ∧
    levels.length = depth ∧ ∀ i : ℕ, 1 ≤ i → i ≤ depth → ∃ px qty, levels[i-1]? = some (px,qty) ∧
      px.toInt = (match side with
        | .bid => mid.toInt-2*i
        | .ask => mid.toInt+2*i) ∧ qty.toInt = 1000+i

theorem ladder_length : (ladder mid depth side).length = depth := by
  simp [ladder]

theorem ladder_getElem? {i : ℕ} (hi : i < depth) :
    (ladder mid depth side)[i]? = some ((rung mid side (Int64.ofNat (i+1))).px,1000+Int64.ofNat (i+1)) := by
  simp [ladder, hi, Nat.add_comm]

theorem toInt_rung (hf : Fits mid depth) {k : ℕ} (hk : k ≤ depth) :
    (rung mid side (Int64.ofNat k)).px.toInt = match side with
      | .bid => mid.toInt-2*k
      | .ask => mid.toInt+2*k := by
  have hoff : offset mid side (rung mid side (Int64.ofNat k)).px = 2*k := offset_rung hf hk
  cases side with
  | bid =>
    change mid.toInt-_ = _ at hoff
    change _ = mid.toInt-2*(k : ℤ)
    omega
  | ask =>
    change _-mid.toInt = _ at hoff
    change _ = mid.toInt+2*(k : ℤ)
    omega

/-- A book that stands for the ladder shows it. -/
theorem laddered_of_shows {B : Type} [OrderBook B] (hf : Fits mid depth) (hd : 1 ≤ depth) {b : B}
    {shown : Side → List (Px × Qty)}
    (h : Shows b (resting mid depth) shown) : Laddered b mid depth := by
  obtain rfl : shown = ladder mid depth := funext fun side => (h.listing side).unique (ladder_listing hf side)
  have hhead : ∀ side, (ladder mid depth side).head? =
      some ((rung mid side (Int64.ofNat 1)).px,1000+Int64.ofNat 1) := fun side => by
    rw [List.head?_eq_getElem?, ladder_getElem? hd]
  refine ⟨fun side => (h.depth side).trans ladder_length,?_,?_,?_⟩
  · exact ⟨_,_,by rw [h.bestBid, hhead],toInt_rung hf hd⟩
  · exact ⟨_,_,by rw [h.bestAsk, hhead],toInt_rung hf hd⟩
  · intro side out hout
    refine ⟨ladder mid depth side,?_,ladder_length,fun i hi hi' => ?_⟩
    · rw [h.topN, Slice.written_of_length_eq (by rw [hout, ladder_length]), ladder_length]
    · refine ⟨_,_,ladder_getElem? (by omega),?_,?_⟩
      · rw [Nat.sub_add_cancel hi]
        exact toInt_rung hf hi'
      · rw [Nat.sub_add_cancel hi]
        exact toInt_rung_qty (lt_of_le_of_lt hi' hf.depth_lt)

end Ladder
section Builders
variable {B : Type} [Inhabited B] [OrderBook B] {mid : Px} {depth : ℕ} {side : Side}

theorem oneTo_depth (h : depth < 2^63) :
    oneTo (Int64.ofNat depth) = (List.range' 1 depth).map Int64.ofNat := by
  rw [oneTo, Int64.toInt_ofNat_of_lt h, Int.toNat_natCast]

/-- The levels in the order of `build_at_depth`. -/
def outward (mid : Px) (depth : ℕ) : List BookEvent :=
  (List.range' 1 depth).flatMap fun k => [rung mid .bid (Int64.ofNat k),rung mid .ask (Int64.ofNat k)]

/-- The levels in the order of `build_at_depth_fast`. -/
def ascending (mid : Px) (depth : ℕ) : List BookEvent :=
  (List.range' 1 depth).reverse.map (fun k => rung mid .bid (Int64.ofNat k)) ++
    (List.range' 1 depth).map fun k => rung mid .ask (Int64.ofNat k)

theorem tryI64_eq {x : ℕ} (h : x < 2^63) : tryI64 x = some (Int64.ofNat x) := if_pos h

theorem buildAtDepth_eq (h : depth < 2^63) : buildAtDepth B mid depth = replay default (outward mid depth) := by
  rw [buildAtDepth, tryI64_eq h, Option.bind_eq_bind, Option.bind_some, oneTo_depth h, List.foldlM_map]
  unfold outward
  generalize (default : B) = b
  induction List.range' 1 depth generalizing b with
  | nil => rfl
  | cons k ks ih =>
    unfold replay at ih ⊢
    simp only [List.flatMap_cons, List.foldlM_append, List.foldlM_cons, List.foldlM_nil, bind_pure, ih]

theorem buildAtDepthFast_eq (h : depth < 2^63) :
    buildAtDepthFast B mid depth = replay default (ascending mid depth) := by
  rw [buildAtDepthFast, tryI64_eq h, Option.bind_eq_bind, Option.bind_some, oneTo_depth h]
  unfold replay ascending
  simp only [List.foldlM_append, ← List.map_reverse, List.foldlM_map]

theorem mem_outward {ev : BookEvent} :
    ev ∈ outward mid depth ↔ ∃ side k, 1 ≤ k ∧ k ≤ depth ∧ ev = rung mid side (Int64.ofNat k) := by
  unfold outward
  simp only [List.mem_flatMap, List.mem_range'_1, List.mem_cons, List.not_mem_nil, or_false]
  constructor
  · intro ⟨k,hk,hev⟩
    rcases hev with rfl | rfl
    · exact ⟨.bid,k,hk.1,by omega,rfl⟩
    · exact ⟨.ask,k,hk.1,by omega,rfl⟩
  · intro ⟨side,k,hk,hk',hev⟩
    refine ⟨k,by omega,?_⟩
    cases side with
    | bid => exact .inl hev
    | ask => exact .inr hev

theorem mem_ascending {ev : BookEvent} :
    ev ∈ ascending mid depth ↔ ∃ side k, 1 ≤ k ∧ k ≤ depth ∧ ev = rung mid side (Int64.ofNat k) := by
  unfold ascending
  simp only [List.mem_append, List.mem_map, List.mem_reverse, List.mem_range'_1]
  constructor
  · rintro (⟨k,hk,rfl⟩ | ⟨k,hk,rfl⟩)
    · exact ⟨.bid,k,hk.1,by omega,rfl⟩
    · exact ⟨.ask,k,hk.1,by omega,rfl⟩
  · intro ⟨side,k,hk,hk',hev⟩
    cases side with
    | bid => exact .inl ⟨k,by omega,hev.symm⟩
    | ask => exact .inr ⟨k,by omega,hev.symm⟩

/-- Events that are the rungs, in any order, leave the ladder. -/
theorem replay_rungs (hf : Fits mid depth) {evs : List BookEvent}
    (hevs : ∀ ev, ev ∈ evs ↔ ∃ side k, 1 ≤ k ∧ k ≤ depth ∧ ev = rung mid side (Int64.ofNat k)) :
    Quotes.replay .empty evs = resting mid depth := by
  have hkind : ∀ ev ∈ evs, ev.kind = .level := by
    intro ev hev
    obtain ⟨side,k,_,_,rfl⟩ := (hevs ev).mp hev
    exact rung_kind _ _ _
  refine Quotes.replay_eq _ (g := (resting mid depth).qty) hkind ?_ ?_
  · intro ev hev
    obtain ⟨side,k,hk,hk',rfl⟩ := (hevs ev).mp hev
    rw [rung_side, rung_qty, resting_rung hf hk hk']
  · intro side px hne
    by_contra h
    obtain ⟨k,hk,hk',rfl⟩ := exists_rung hf (Ne.symm h)
    exact hne _ ((hevs _).mpr ⟨side,k,hk,hk',rfl⟩) (by rw [rung_side])

/-- A kind of book that takes the rungs: both builders leave the ladder in it. -/
theorem builders_rest {P : BookEvent → Prop} {Rep : B → Quotes → Prop} (hR : Refines P Rep) (hf : Fits mid depth)
    (hP : ∀ side k, 1 ≤ k → k ≤ depth → P (rung mid side (Int64.ofNat k))) :
    ∃ slow fast : B, buildAtDepth B mid depth = some slow ∧ buildAtDepthFast B mid depth = some fast ∧
      Rep slow (resting mid depth) ∧ Rep fast (resting mid depth) := by
  have hd := hf.depth_lt
  rw [buildAtDepth_eq (by omega), buildAtDepthFast_eq (by omega)]
  obtain ⟨slow,hs,hslow⟩ := hR.replay hR.start (outward mid depth) fun ev hev => by
    obtain ⟨side,k,hk,hk',rfl⟩ := mem_outward.mp hev
    exact hP side k hk hk'
  obtain ⟨fast,hfa,hfast⟩ := hR.replay hR.start (ascending mid depth) fun ev hev => by
    obtain ⟨side,k,hk,hk',rfl⟩ := mem_ascending.mp hev
    exact hP side k hk hk'
  rw [replay_rungs hf fun ev => mem_outward] at hslow
  rw [replay_rungs hf fun ev => mem_ascending] at hfast
  exact ⟨slow,fast,hs,hfa,hslow,hfast⟩

/-- What the two builders do for one kind of book. -/
def Builds (B : Type) [Inhabited B] [OrderBook B] (mid : Px) (depth : ℕ) : Prop :=
  ∃ slow fast : B, buildAtDepth B mid depth = some slow ∧ buildAtDepthFast B mid depth = some fast ∧
    Agree slow fast ∧ Laddered slow mid depth ∧ Laddered fast mid depth

theorem builds_of_refines {P : BookEvent → Prop} {Rep : B → Quotes → Prop} (hR : Refines P Rep) (hf : Fits mid depth)
    (hd : 1 ≤ depth) (hP : ∀ side k, 1 ≤ k → k ≤ depth → P (rung mid side (Int64.ofNat k))) :
    Builds B mid depth := by
  obtain ⟨slow,fast,hs,hfa,hslow,hfast⟩ := builders_rest hR hf hP
  obtain ⟨shown,hshow⟩ := hR.shows hslow
  obtain ⟨shown',hshow'⟩ := hR.shows hfast
  exact ⟨slow,fast,hs,hfa,hshow.agree hshow',laddered_of_shows hf hd hshow,laddered_of_shows hf hd hshow'⟩

end Builders

/-- The ladder lies within its outermost rungs, so that a flat book can take it. -/
theorem rung_priced {mid : Px} {depth : ℕ} (hf : Fits mid depth) (side : Side) (k : ℕ) (hk' : k ≤ depth) :
    FlatBook.Priced (mid.toInt-2*depth) (mid.toInt+2*depth) (rung mid side (Int64.ofNat k)) := by
  intro _
  rw [toInt_rung hf hk']
  cases side with
  | bid =>
    change _ ≤ mid.toInt-2*(k : ℤ) ∧ mid.toInt-2*(k : ℤ) ≤ _
    omega
  | ask =>
    change _ ≤ mid.toInt+2*(k : ℤ) ∧ mid.toInt+2*(k : ℤ) ≤ _
    omega

/-- Whatever the depth, the two builders come to the same book, of every kind. -/
theorem builders_agree {mid : Px} {depth : ℕ} (hd : 1 ≤ depth) (hlo : -2^63 ≤ mid.toInt-2*depth)
    (hhi : mid.toInt+2*depth ≤ 2^63-1) :
    Builds BTreeBook mid depth ∧ Builds SortedVecBook mid depth ∧ Builds RevVecBook mid depth ∧
      (-2^63 ≤ mid.toInt-(2*depth+4097) → mid.toInt+(2*depth+4097) ≤ 2^63-1 → 4*depth+8193 ≤ MAX_SPAN →
        Builds FlatBook mid depth) := by
  have hf : Fits mid depth := ⟨hlo,by omega⟩
  refine ⟨builds_of_refines BTreeBook.refines hf hd ?_,builds_of_refines SortedVecBook.refines hf hd ?_,
    builds_of_refines RevVecBook.refines hf hd ?_,fun hlow hhigh hspan => ?_⟩
  · exact fun _ _ _ _ => trivial
  · exact fun _ _ _ _ => trivial
  · exact fun _ _ _ _ => trivial
  · have hdom : FlatBook.Domain (mid.toInt-2*depth) (mid.toInt+2*depth) := ⟨by omega,by omega,by omega⟩
    exact builds_of_refines (FlatBook.refines hdom) hf hd fun side k _ hk' => rung_priced hf side k hk'

/-- Seven levels per side around a million. -/
theorem builders_agree_seven : Builds BTreeBook 1000000 7 ∧ Builds SortedVecBook 1000000 7 ∧
    Builds RevVecBook 1000000 7 ∧ Builds FlatBook 1000000 7 := by
  obtain ⟨ht,hs,hr,hflat⟩ := @builders_agree 1000000 7 (by decide) (by decide) (by decide)
  exact ⟨ht,hs,hr,hflat (by decide) (by decide) (by decide)⟩

end LowLatencyLob.Bench
