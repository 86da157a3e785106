import LowLatencyLob.Bench.Workload
import LowLatencyLob.Book.FlatLimits
import LowLatencyLob.Feed.SyntheticSteps

/-! The service-time sweep: touches at random levels of a ladder, and loops that change the
book at each touch. Clocks and recorders are left out. -/
namespace LowLatencyLob.Bench
open Book Sequence Feed.Synthetic

/-- Touch locality: where in the ladder updates land. -/
inductive Locality
  | concentrated
  | uniform
  deriving DecidableEq

/-- `while k + 1 < depth && (rng.next_u64() & 1) == 0 { k += 1; }` -/
def coinFlips (depth k : ℕ) (rng : SplitMix64) : ℕ × SplitMix64 :=
  if k+1 < depth then
    let (x,rng) := rng.nextU64
    if x &&& 1 = 0 then coinFlips depth (k+1) rng else (k,rng)
  else (k,rng)
termination_by depth-k

/-- Offset from the best of an existing level; a remainder by zero panics. -/
def touchOffset (rng : SplitMix64) (depth : ℕ) : Locality → Option (ℕ × SplitMix64)
  | .uniform =>
    let n := UInt64.ofNat depth
    if n = 0 then none
    else
      let (x,rng) := rng.below n
      some (x.toNat,rng)
  | .concentrated => some (coinFlips depth 0 rng)

/-- The price of an existing level on a side. -/
def touchPrice (rng : SplitMix64) (mid : Px) (depth : ℕ) (side : Side) (loc : Locality) :
    Option (Px × SplitMix64) := do
  let (off,rng) ← touchOffset rng depth loc
  let off ← tryI64 off
  match side with
  | .bid => return (mid-STEP*(off+1),rng)
  | .ask => return (mid+STEP*(off+1),rng)

/-- An in-band price next to an existing level, one tick toward mid. -/
def gapPrice (existing : Px) (side : Side) : Px :=
  match side with
  | .bid => existing+1
  | .ask => existing-1

/-- The next odd quantity. -/
def nextQty (q : Int64) : Qty := ((q+1) &&& 0x7FFF) ||| 1

def rngSide (rng : SplitMix64) : Side × SplitMix64 :=
  let (x,rng) := rng.nextU64
  (if x &&& 1 = 0 then .bid else .ask,rng)

structure Ctx where
  mid : Px
  depth : ℕ
  loc : Locality
  samples : ℕ
  warmup : ℕ

/-- What the loops carry from one iteration to the next. -/
structure Sweep (B : Type) where
  book : B
  rng : SplitMix64
  q : Int64

/-- `for _ in 0..n` -/
def turns {σ : Type} (turn : σ → Option σ) : ℕ → σ → Option σ
  | 0, s => some s
  | n+1, s => (turn s).bind (turns turn n)

section Measure
variable {B : Type} [OrderBook B] (ctx : Ctx)

/-- A random side, and the price of an existing level on it. -/
def touch (rng : SplitMix64) : Option (Side × Px × SplitMix64) := do
  let (side,rng) := rngSide rng
  let (px,rng) ← touchPrice rng ctx.mid ctx.depth side ctx.loc
  return (side,px,rng)

/-- An iteration of `measure_update`. -/
def updateTurn (s : Sweep B) : Option (Sweep B) := do
  let (side,px,rng) ← touch ctx s.rng
  let q := nextQty s.q
  let book ← OrderBook.apply s.book (.level 0 0 side px q)
  return ⟨book,rng,q⟩

/-- An iteration of `measure_insert`: the level is removed again, untimed. -/
def insertTurn (s : Sweep B) : Option (Sweep B) := do
  let (side,px,rng) ← touch ctx s.rng
  let gap := gapPrice px side
  let q := nextQty s.q
  let book ← OrderBook.apply s.book (.level 0 0 side gap q)
  let book ← OrderBook.apply book (.level 0 0 side gap 0)
  return ⟨book,rng,q⟩

/-- An iteration of `measure_remove`: the level is inserted before, untimed. -/
def removeTurn (s : Sweep B) : Option (Sweep B) := insertTurn ctx s

/-- Both loops of a measurement: the warmup, and the samples. -/
def measure (turn : Sweep B → Option (Sweep B)) (book : B) (seed : UInt64) : Option B := do
  let s ← turns turn ctx.warmup ⟨book,.new seed,1⟩
  let s ← turns turn ctx.samples s
  return s.book

def measureUpdate (book : B) (seed : UInt64) : Option B := measure ctx (updateTurn ctx) book seed
def measureInsert (book : B) (seed : UInt64) : Option B := measure ctx (insertTurn ctx) book seed
def measureRemove (book : B) (seed : UInt64) : Option B := measure ctx (removeTurn ctx) book seed

end Measure

section Draws
variable {depth k : ℕ} {rng : SplitMix64}

theorem coinFlips_lt (h : k < depth) : (coinFlips depth k rng).1 < depth := by
  fun_induction coinFlips depth k rng with
  | case1 k rng hk x rng' hdraw hx ih => exact ih hk
  | case2 k rng hk x rng' hdraw hx => exact h
  | case3 k rng hk => exact h

theorem touchOffset_lt (loc : Locality) (hd : 1 ≤ depth) (hd' : depth < 2^64) :
    ∃ off rng', touchOffset rng depth loc = some (off,rng') ∧ off < depth := by
  cases loc with
  | concentrated => exact ⟨_,_,rfl,coinFlips_lt hd⟩
  | uniform =>
    have hn : (UInt64.ofNat depth).toNat = depth := UInt64.toNat_ofNat_of_lt' hd'
    have hne : UInt64.ofNat depth ≠ 0 := by
      intro hz
      rw [hz] at hn
      exact absurd hn (by simpa using (by omega : 0 ≠ depth))
    have hlt := rng.below_lt hne
    unfold touchOffset
    dsimp only
    rw [if_neg hne]
    generalize rng.below (UInt64.ofNat depth) = draw at hlt
    exact ⟨_,_,rfl,by omega⟩

theorem nextQty_ne_zero (q : Int64) : nextQty q ≠ 0 := by
  intro h
  have hbits := congrArg Int64.toBitVec h
  unfold nextQty at hbits
  rw [Int64.toBitVec_or] at hbits
  exact absurd (BitVec.or_eq_zero_iff.mp hbits).2 (by decide)

/-- A touch lands on a rung. -/
theorem touchPrice_rung {mid : Px} (hf : Fits mid depth) (hd : 1 ≤ depth) (rng : SplitMix64) (side : Side)
    (loc : Locality) : ∃ k rng', 1 ≤ k ∧ k ≤ depth ∧
      touchPrice rng mid depth side loc = some ((rung mid side (Int64.ofNat k)).px,rng') := by
  have hlt := hf.depth_lt
  obtain ⟨off,rng',hoff,hk⟩ := @touchOffset_lt depth rng loc hd (by omega)
  refine ⟨off+1,rng',by omega,by omega,?_⟩
  unfold touchPrice
  rw [hoff, Option.bind_eq_bind, Option.bind_some]
  dsimp only
  have hnext : Int64.ofNat off+1 = Int64.ofNat (off+1) := (Int64.ofNat_add off 1).symm
  rw [tryI64_eq (by omega), Option.bind_eq_bind, Option.bind_some, hnext]
  cases side with
  | bid => rfl
  | ask => rfl

theorem touch_rung {ctx : Ctx} (hf : Fits ctx.mid ctx.depth) (hd : 1 ≤ ctx.depth) (rng : SplitMix64) :
    ∃ side k rng', 1 ≤ k ∧ k ≤ ctx.depth ∧
      touch ctx rng = some (side,(rung ctx.mid side (Int64.ofNat k)).px,rng') := by
  unfold touch
  generalize rngSide rng = draw
  obtain ⟨side,rng₁⟩ := draw
  obtain ⟨k,rng₂,hk,hk',htouch⟩ := touchPrice_rung hf hd rng₁ side ctx.loc
  refine ⟨side,k,rng₂,hk,hk',?_⟩
  dsimp only
  rw [htouch]
  rfl

end Draws
section Gap
variable {mid px : Px} {depth k : ℕ} {side side' : Side}

/-- A gap is an odd number of ticks away. -/
theorem offset_gap (hf : Fits mid depth) (hk : 1 ≤ k) (hk' : k ≤ depth) :
    offset mid side (gapPrice (rung mid side (Int64.ofNat k)).px side) = 2*k-1 := by
  have hlow := hf.low
  have hhigh := hf.high
  have hone : (1 : Int64).toInt = 1 := rfl
  have hrung := @toInt_rung mid depth side hf k hk'
  have hmid := mid.toInt_lt
  have hmid' := mid.le_toInt
  cases side with
  | bid =>
    change _ = mid.toInt-2*(k : ℤ) at hrung
    change mid.toInt-((rung mid .bid (Int64.ofNat k)).px+1).toInt = _
    rw [toInt_add (by omega) (by omega), hrung]
    omega
  | ask =>
    change _ = mid.toInt+2*(k : ℤ) at hrung
    change ((rung mid .ask (Int64.ofNat k)).px-1).toInt-mid.toInt = _
    rw [toInt_sub (by omega) (by omega), hrung]
    omega

theorem offset_other (mid px : Px) (side side' : Side) :
    offset mid side' px = offset mid side px ∨ offset mid side' px = -offset mid side px := by
  cases side <;> cases side' <;> simp [offset]

/-- Nothing rests at a gap, on either side. -/
theorem resting_gap (hf : Fits mid depth) (hk : 1 ≤ k) (hk' : k ≤ depth) (side' : Side) :
    (resting mid depth).qty side' (gapPrice (rung mid side (Int64.ofNat k)).px side) = 0 := by
  have hoff := @offset_gap mid depth k side hf hk hk'
  have hother := offset_other mid (gapPrice (rung mid side (Int64.ofNat k)).px side) side side'
  unfold resting
  dsimp only
  rw [if_neg (by omega)]

theorem priced_of_offset {ev : BookEvent} {lo hi : ℤ} (hlo : lo = mid.toInt-2*depth) (hhi : hi = mid.toInt+2*depth)
    (h : -(2*depth : ℤ) ≤ offset mid side ev.px) (h' : offset mid side ev.px ≤ 2*depth) :
    FlatBook.Priced lo hi ev := by
  intro _
  cases side with
  | bid =>
    change _ ≤ mid.toInt-ev.px.toInt at h
    change mid.toInt-ev.px.toInt ≤ _ at h'
    omega
  | ask =>
    change _ ≤ ev.px.toInt-mid.toInt at h
    change ev.px.toInt-mid.toInt ≤ _ at h'
    omega

/-- Setting a quantity where nothing rests, and removing it again. -/
theorem apply_apply_zero {a : Quotes} {q : Qty} (h : a.qty side px = 0) :
    (a.apply (.level 0 0 side px q)).apply (.level 0 0 side px 0) = a := by
  refine congrArg (Quotes.mk · a.lastTrade) ?_
  funext side' px'
  by_cases hside : side' = side
  · subst side'
    by_cases hpx : px' = px
    · subst px'
      simp [BookEvent.level, Quotes.apply, h]
    · simp [BookEvent.level, Quotes.apply, hpx]
  · simp [BookEvent.level, Quotes.apply, hside]

/-- Quantities at the same prices. -/
structure SamePrices (a a' : Quotes) : Prop where
  occupied : ∀ side px, a'.qty side px ≠ 0 ↔ a.qty side px ≠ 0
  lastTrade : a'.lastTrade = a.lastTrade

/-- Replacing a quantity by another one keeps the prices. -/
theorem SamePrices.apply {a a' : Quotes} (h : SamePrices a a') {q : Qty} (hpx : a.qty side px ≠ 0) (hq : q ≠ 0) :
    SamePrices a (a'.apply (.level 0 0 side px q)) := by
  refine ⟨fun side' px' => ?_,h.lastTrade⟩
  by_cases hside : side' = side
  · subst side'
    by_cases hpx' : px' = px
    · subst px'
      simp [BookEvent.level, Quotes.apply, hq, hpx]
    · simpa [BookEvent.level, Quotes.apply, hpx'] using h.occupied side px'
  · simpa [BookEvent.level, Quotes.apply, hside] using h.occupied side' px'

end Gap
section Loops

/-- What one turn keeps, any number of turns keep. -/
theorem turns_keep {σ : Type} {turn : σ → Option σ} {I : σ → Prop}
    (hturn : ∀ s, I s → ∃ s', turn s = some s' ∧ I s') (n : ℕ) {s : σ} (h : I s) :
    ∃ s', turns turn n s = some s' ∧ I s' := by
  induction n generalizing s with
  | zero => exact ⟨s,rfl,h⟩
  | succ n ih =>
    obtain ⟨s₁,h₁,hs₁⟩ := hturn s h
    obtain ⟨s₂,h₂,hs₂⟩ := ih hs₁
    exact ⟨s₂,by rw [turns, h₁, Option.bind_some, h₂],hs₂⟩

theorem measure_keeps {B : Type} {ctx : Ctx} {turn : Sweep B → Option (Sweep B)} {I : B → Prop}
    (hturn : ∀ s, I s.book → ∃ s', turn s = some s' ∧ I s'.book) {b : B} (h : I b) (seed : UInt64) :
    ∃ b', measure ctx turn b seed = some b' ∧ I b' := by
  obtain ⟨s₁,h₁,hs₁⟩ := @turns_keep (Sweep B) turn (fun s => I s.book) hturn ctx.warmup ⟨b,.new seed,1⟩ h
  obtain ⟨s₂,h₂,hs₂⟩ := @turns_keep (Sweep B) turn (fun s => I s.book) hturn ctx.samples s₁ hs₁
  refine ⟨s₂.book,?_,hs₂⟩
  simp only [measure, h₁, h₂, Option.bind_eq_bind, Option.bind_some]
  rfl

end Loops
section Turns
variable {B : Type} [Inhabited B] [OrderBook B] {P : BookEvent → Prop} {Rep : B → Quotes → Prop} {ctx : Ctx}

/-- A kind of book that takes levels between the outermost rungs. -/
def Takes (P : BookEvent → Prop) (mid : Px) (depth : ℕ) : Prop :=
  ∀ ev, FlatBook.Priced (mid.toInt-2*depth) (mid.toInt+2*depth) ev → P ev

/-- An insertion and its removal leave the book standing for the ladder. -/
theorem insertTurn_keeps (hR : Refines P Rep) (hP : Takes P ctx.mid ctx.depth) (hf : Fits ctx.mid ctx.depth)
    (hd : 1 ≤ ctx.depth) (s : Sweep B) (h : Rep s.book (resting ctx.mid ctx.depth)) :
    ∃ s', insertTurn ctx s = some s' ∧ Rep s'.book (resting ctx.mid ctx.depth) := by
  obtain ⟨side,k,rng,hk,hk',htouch⟩ := touch_rung hf hd s.rng
  have hoff := @offset_gap ctx.mid ctx.depth k side hf hk hk'
  generalize hgap : gapPrice (rung ctx.mid side (Int64.ofNat k)).px side = gap at hoff
  have hzero : (resting ctx.mid ctx.depth).qty side gap = 0 := hgap ▸ resting_gap hf hk hk' side
  have htake : ∀ q, P (.level 0 0 side gap q) := fun q =>
    hP _ (@priced_of_offset ctx.mid ctx.depth side _ _ _ rfl rfl (by change _ ≤ offset _ _ gap; omega)
      (by change offset _ _ gap ≤ _; omega))
  obtain ⟨b₁,hb₁,h₁⟩ := hR.step (htake (nextQty s.q)) h
  obtain ⟨b₂,hb₂,h₂⟩ := hR.step (htake 0) h₁
  rw [apply_apply_zero hzero] at h₂
  refine ⟨⟨b₂,rng,nextQty s.q⟩,?_,h₂⟩
  unfold insertTurn
  simp only [htouch, Option.bind_eq_bind, Option.bind_some, hgap, hb₁, hb₂]
  rfl

/-- An update leaves the book standing for levels at the same prices. -/
theorem updateTurn_keeps (hR : Refines P Rep) (hP : Takes P ctx.mid ctx.depth) (hf : Fits ctx.mid ctx.depth)
    (hd : 1 ≤ ctx.depth) (s : Sweep B) (h : ∃ a, Rep s.book a ∧ SamePrices (resting ctx.mid ctx.depth) a) :
    ∃ s', updateTurn ctx s = some s' ∧ ∃ a, Rep s'.book a ∧ SamePrices (resting ctx.mid ctx.depth) a := by
  obtain ⟨a,hrep,hsame⟩ := h
  obtain ⟨side,k,rng,hk,hk',htouch⟩ := touch_rung hf hd s.rng
  have hoff : offset ctx.mid side (rung ctx.mid side (Int64.ofNat k)).px = 2*k := offset_rung hf hk'
  have hne : (resting ctx.mid ctx.depth).qty side (rung ctx.mid side (Int64.ofNat k)).px ≠ 0 := by
    rw [resting_rung hf hk hk']
    exact rung_qty_ne_zero (lt_of_le_of_lt hk' hf.depth_lt)
  generalize (rung ctx.mid side (Int64.ofNat k)).px = px at htouch hoff hne
  have htake : P (.level 0 0 side px (nextQty s.q)) :=
    hP _ (@priced_of_offset ctx.mid ctx.depth side _ _ _ rfl rfl (by change _ ≤ offset _ _ px; omega)
      (by change offset _ _ px ≤ _; omega))
  obtain ⟨b₁,hb₁,h₁⟩ := hR.step htake hrep
  refine ⟨⟨b₁,rng,nextQty s.q⟩,?_,_,h₁,hsame.apply hne (nextQty_ne_zero s.q)⟩
  unfold updateTurn
  simp only [htouch, Option.bind_eq_bind, Option.bind_some, hb₁]
  rfl

end Turns

/-- A book that shows the same as another but for the quantities. -/
structure SameLevels {B : Type} [OrderBook B] (b b' : B) : Prop where
  depth : ∀ side, OrderBook.depth b' side = OrderBook.depth b side
  bestBid : ∃ x x', OrderBook.bestBid b = some x ∧ OrderBook.bestBid b' = some x' ∧
    x'.map Prod.fst = x.map Prod.fst
  bestAsk : ∃ x x', OrderBook.bestAsk b = some x ∧ OrderBook.bestAsk b' = some x' ∧
    x'.map Prod.fst = x.map Prod.fst
  topN : ∀ side out, ∃ n l l', OrderBook.topN b side out = some (n,l) ∧ OrderBook.topN b' side out = some (n,l') ∧
    (l'.take n).map Prod.fst = (l.take n).map Prod.fst
  resident : ∀ side px, FlatBook.Resident b' side px ↔ FlatBook.Resident b side px
  lastTrade : OrderBook.lastTrade b' = OrderBook.lastTrade b

theorem sameLevels_of_shows {B : Type} [OrderBook B] {b b' : B} {a a' : Quotes}
    {shown shown' : Side → List (Px × Qty)} (h : Shows b a shown) (h' : Shows b' a' shown') (hsame : SamePrices a a') :
    SameLevels b b' := by
  have hkeys : ∀ side, (shown' side).map Prod.fst = (shown side).map Prod.fst := fun side =>
    (h'.listing side).keys_eq (h.listing side) (hsame.occupied side)
  have hlen : ∀ side, (shown' side).length = (shown side).length := fun side => by
    have hmap := congrArg List.length (hkeys side)
    simpa using hmap
  have hhead : ∀ side, (shown' side).head?.map Prod.fst = (shown side).head?.map Prod.fst := fun side => by
    rw [← List.head?_map, ← List.head?_map, hkeys]
  refine ⟨fun side => ?_,⟨_,_,h.bestBid,h'.bestBid,hhead .bid⟩,⟨_,_,h.bestAsk,h'.bestAsk,hhead .ask⟩,?_,?_,?_⟩
  · rw [h.depth, h'.depth, hlen]
  · intro side out
    have hcount : (Slice.written (shown' side) out).1 = (Slice.written (shown side) out).1 := by
      simp only [Slice.written, hlen]
    refine ⟨_,_,_,h.topN side out,(h'.topN side out).trans (congrArg (fun n => some (n,_)) hcount),?_⟩
    have htake := Slice.take_written (shown' side) out
    rw [hcount] at htake
    change ((Slice.written (shown' side) out).2.take (Slice.written (shown side) out).1).map _ =
      ((Slice.written (shown side) out).2.take (Slice.written (shown side) out).1).map _
    rw [htake, Slice.take_written, List.map_take, List.map_take, hkeys]
  · intro side px
    rw [FlatBook.resident_iff_of_shows h', FlatBook.resident_iff_of_shows h]
    exact hsame.occupied side px
  · rw [h'.lastTrade, h.lastTrade, hsame.lastTrade]

/-- The sweep at one depth, for one kind of book: touches land on levels and gaps do not,
insertions and removals leave the book as it was built, and updates its prices. -/
def SweepHolds (B : Type) [Inhabited B] [OrderBook B] (ctx : Ctx) : Prop :=
  ∃ b : B, buildAtDepth B ctx.mid ctx.depth = some b ∧
    (∀ rng side, ∃ px rng', touchPrice rng ctx.mid ctx.depth side ctx.loc = some (px,rng') ∧
      FlatBook.Resident b side px ∧ ∀ side', ¬FlatBook.Resident b side' (gapPrice px side)) ∧
    ∀ seed,
      ((∀ n, ∃ s, turns (insertTurn ctx) n ⟨b,.new seed,1⟩ = some s ∧ Agree b s.book) ∧
        ∃ b', measureInsert ctx b seed = some b' ∧ Agree b b') ∧
      ((∀ n, ∃ s, turns (removeTurn ctx) n ⟨b,.new seed,1⟩ = some s ∧ Agree b s.book) ∧
        ∃ b', measureRemove ctx b seed = some b' ∧ Agree b b') ∧
      (∀ n, ∃ s, turns (updateTurn ctx) n ⟨b,.new seed,1⟩ = some s ∧ SameLevels b s.book) ∧
        ∃ b', measureUpdate ctx b seed = some b' ∧ SameLevels b b'

theorem sweepHolds_of_refines {B : Type} [Inhabited B] [OrderBook B] {P : BookEvent → Prop}
    {Rep : B → Quotes → Prop} {ctx : Ctx} (hR : Refines P Rep) (hP : Takes P ctx.mid ctx.depth)
    (hf : Fits ctx.mid ctx.depth) (hd : 1 ≤ ctx.depth) : SweepHolds B ctx := by
  obtain ⟨b,_,hb,_,hrep,_⟩ := builders_rest hR hf fun side k _ hk' => hP _ (rung_priced hf side k hk')
  obtain ⟨shown,hshow⟩ := hR.shows hrep
  have hagree : ∀ {b' : B}, Rep b' (resting ctx.mid ctx.depth) → Agree b b' := fun h' => by
    obtain ⟨_,hshow'⟩ := hR.shows h'
    exact hshow.agree hshow'
  have hsame : ∀ {b' : B}, (∃ a, Rep b' a ∧ SamePrices (resting ctx.mid ctx.depth) a) → SameLevels b b' := by
    intro b' ⟨a,h',hprices⟩
    obtain ⟨_,hshow'⟩ := hR.shows h'
    exact sameLevels_of_shows hshow hshow' hprices
  have hstart : ∃ a, Rep b a ∧ SamePrices (resting ctx.mid ctx.depth) a := ⟨_,hrep,⟨fun _ _ => Iff.rfl,rfl⟩⟩
  have hinsert := insertTurn_keeps hR hP hf hd
  have hupdate := updateTurn_keeps hR hP hf hd
  have hmany : ∀ (seed : UInt64) n, ∃ s, turns (insertTurn ctx) n ⟨b,.new seed,1⟩ = some s ∧ Agree b s.book := by
    intro seed n
    obtain ⟨s,hs,h'⟩ := turns_keep hinsert n (s := ⟨b,.new seed,1⟩) hrep
    exact ⟨s,hs,hagree h'⟩
  have hall : ∀ seed, ∃ b', measureInsert ctx b seed = some b' ∧ Agree b b' := by
    intro seed
    obtain ⟨b',hb',h'⟩ := measure_keeps (I := fun b => Rep b (resting ctx.mid ctx.depth)) hinsert hrep seed
    exact ⟨b',hb',hagree h'⟩
  refine ⟨b,hb,fun rng side => ?_,fun seed => ⟨⟨hmany seed,hall seed⟩,⟨hmany seed,hall seed⟩,fun n => ?_,?_⟩⟩
  · obtain ⟨k,rng',hk,hk',htouch⟩ := touchPrice_rung hf hd rng side ctx.loc
    refine ⟨_,rng',htouch,?_,fun side' => ?_⟩
    · rw [FlatBook.resident_iff_of_shows hshow, resting_rung hf hk hk']
      exact rung_qty_ne_zero (lt_of_le_of_lt hk' hf.depth_lt)
    · rw [FlatBook.resident_iff_of_shows hshow, not_not]
      exact resting_gap hf hk hk' side'
  · obtain ⟨s,hs,h'⟩ := turns_keep hupdate n (s := ⟨b,.new seed,1⟩) hstart
    exact ⟨s,hs,hsame h'⟩
  · obtain ⟨b',hb',h'⟩ := measure_keeps
      (I := fun b => ∃ a, Rep b a ∧ SamePrices (resting ctx.mid ctx.depth) a) hupdate hstart seed
    exact ⟨b',hb',hsame h'⟩

/-- The sweep holds every kind of book at its depth. -/
theorem sweep_constant {ctx : Ctx} (hd : 1 ≤ ctx.depth) (hlo : -2^63 ≤ ctx.mid.toInt-2*ctx.depth)
    (hhi : ctx.mid.toInt+2*ctx.depth ≤ 2^63-1) :
    SweepHolds BTreeBook ctx ∧ SweepHolds SortedVecBook ctx ∧ SweepHolds RevVecBook ctx ∧
      (-2^63 ≤ ctx.mid.toInt-(2*ctx.depth+4097) → ctx.mid.toInt+(2*ctx.depth+4097) ≤ 2^63-1 →
        4*ctx.depth+8193 ≤ MAX_SPAN → SweepHolds FlatBook ctx) := by
  have hf : Fits ctx.mid ctx.depth := ⟨hlo,by omega⟩
  refine ⟨sweepHolds_of_refines BTreeBook.refines ?_ hf hd,sweepHolds_of_refines SortedVecBook.refines ?_ hf hd,
    sweepHolds_of_refines RevVecBook.refines ?_ hf hd,fun hlow hhigh hspan => ?_⟩
  · exact fun _ _ => trivial
  · exact fun _ _ => trivial
  · exact fun _ _ => trivial
  · have hdom : FlatBook.Domain (ctx.mid.toInt-2*ctx.depth) (ctx.mid.toInt+2*ctx.depth) :=
      ⟨by omega,by omega,by omega⟩
    exact sweepHolds_of_refines (FlatBook.refines hdom) (fun _ h => h) hf hd

/-- Two levels per side around a million, touched at random. -/
theorem sweep_constant_two : SweepHolds BTreeBook ⟨1000000,2,.uniform,3,1⟩ ∧
    SweepHolds SortedVecBook ⟨1000000,2,.uniform,3,1⟩ ∧ SweepHolds RevVecBook ⟨1000000,2,.uniform,3,1⟩ ∧
    SweepHolds FlatBook ⟨1000000,2,.uniform,3,1⟩ := by
  obtain ⟨ht,hs,hr,hflat⟩ := @sweep_constant ⟨1000000,2,.uniform,3,1⟩ (by decide) (by decide) (by decide)
  exact ⟨ht,hs,hr,hflat (by decide) (by decide) (by decide)⟩

end LowLatencyLob.Bench
