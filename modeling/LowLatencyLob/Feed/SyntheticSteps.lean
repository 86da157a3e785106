import LowLatencyLob.Feed.Synthetic
import LowLatencyLob.Sequence.Words

/-! What the generator does to its `Sim`, operation by operation, and that it ends.

Every cycle of every profile puts out at least one event, whatever is drawn and whichever
side is empty, so the target is reached. -/
namespace LowLatencyLob.Feed.Synthetic
open Book Concurrency Program Sequence

/-- The band of a configuration and its triple are in range. -/
structure Sane (cfg : GenConfig) : Prop where
  nonneg : 0 ≤ cfg.band.toInt
  fits : 3*cfg.band.toInt < 2^63

/-- How far from `mid` a level is set: the edge churn begins behind `STEADY_DEPTH`, and a
recovery is at least ten levels long. -/
def reach (cfg : GenConfig) : ℤ := max cfg.band.toInt (if cfg.profile = .flashCrash then 10 else 9)

/-- A price on its own side of `mid`, within reach. -/
def Placed (cfg : GenConfig) (side : Side) (px : Px) : Prop :=
  ∃ off, px = pxAt cfg side off ∧ 1 ≤ off.toInt ∧ off.toInt ≤ reach cfg

def Sized (cfg : GenConfig) (qty : Qty) : Prop := 1 ≤ qty.toInt ∧ qty.toInt ≤ max 1 cfg.maxQty.toInt

/-- The best price of the side that an aggressor hits. -/
def Sim.touch (sim : Sim) : Side → Option Px
  | .bid => sim.bestAsk
  | .ask => sim.bestBid

/-- No time has passed since the newest event. -/
def Sim.Fresh (sim : Sim) : Prop := ∃ ev, sim.out.getLast? = some ev ∧ ev.ts = sim.ts

/-- What the code of the generator does, and when; and where it sets levels, if the band is
in range. -/
def Allowed (cfg : GenConfig) : Op → Sim → Prop
  | .below n, _ => n ≠ 0
  | .level side px qty, sim => Sane cfg → (qty = 0 ∨ Sized cfg qty) ∧ Placed cfg side px ∨
      (side = .bid ∧ qty = 0 ∧ sim.bestBid = some px)
  | .trade aggressor px qty, sim => sim.touch aggressor = some px ∧
      (Sized cfg qty ∨ (aggressor = .ask ∧ sim.bids[px]? = some qty))
  | .clear, sim => sim.out = []
  | .wait dt, sim => dt.toNat < 100000 ∧ sim.Fresh
  | _, _ => True

/-- `p` ends with `Q`, and does nothing else on the way. -/
abbrev Does (cfg : GenConfig) {α : Type} (Q : α → Sim → Prop) (p : Gen α) (sim : Sim) : Prop :=
  Ends Sim.exec (Allowed cfg) Q p sim

/-- Only random numbers have been drawn. -/
def Drawn (sim sim' : Sim) : Prop := ∃ rng, sim' = { sim with rng := rng }

/-- One more event is out, and no time has passed since. -/
structure Emitted (sim sim' : Sim) : Prop where
  target_eq : sim'.target = sim.target
  length_eq : sim'.out.length = sim.out.length+1
  fresh : sim'.Fresh

section Draws
variable {cfg : GenConfig} {sim : Sim}

theorem Drawn.refl (sim : Sim) : Drawn sim sim := ⟨sim.rng,rfl⟩

theorem SplitMix64.below_lt (rng : SplitMix64) {n : UInt64} (hn : n ≠ 0) : (rng.below n).1.toNat < n.toNat := by
  change (rng.nextU64.1 % n).toNat < n.toNat
  rw [UInt64.toNat_mod]
  refine Nat.mod_lt _ (Nat.pos_of_ne_zero fun h => hn ?_)
  exact UInt64.toNat_inj.mp h

theorem below_does {n : UInt64} (hn : n ≠ 0) :
    Does cfg (fun x sim' => x.toNat < n.toNat ∧ Drawn sim sim') (below n) sim :=
  .access hn (.done ⟨sim.rng.below_lt hn,_,rfl⟩)

theorem rollI64_does (n : Int64) :
    Does cfg (fun x sim' => (0 ≤ x.toInt ∧ x.toInt < max 1 n.toInt) ∧ Drawn sim sim') (rollI64 n) sim := by
  have hzero : (0 : Int64).toInt = 0 := rfl
  unfold rollI64
  split_ifs with hneg hn
  · exact .done ⟨⟨by omega,by omega⟩,.refl sim⟩
  · exact .done ⟨⟨by omega,by omega⟩,.refl sim⟩
  · rw [Int64.lt_iff_toInt_lt, hzero] at hneg
    have hpos := toNat_toUInt64 (show 0 ≤ n.toInt by omega)
    have hlt := n.toInt_lt
    have hne : n.toInt ≠ 0 := fun h => hn (Int64.toInt_inj.mp (h.trans hzero.symm))
    have hne' : n.toUInt64 ≠ 0 := fun h => by
      rw [h] at hpos
      exact hne hpos.symm
    refine (below_does hne').bind fun x sim' hx => .done ⟨?_,hx.2⟩
    have hxlt := hx.1
    split_ifs with hmax
    · rw [toInt_toInt64 (by omega)]
      omega
    · omega

theorem randQty_does : Does cfg (fun q sim' => Sized cfg q ∧ Drawn sim sim') (randQty cfg) sim := by
  have hone : (1 : Int64).toInt = 1 := rfl
  refine (rollI64_does _).bind fun x sim' hx => .done ⟨?_,hx.2⟩
  obtain ⟨hlo,hhi⟩ := hx.1
  have hmax := cfg.maxQty.toInt_lt
  rw [toInt_max, hone] at hhi
  have hq : (1+x).toInt = 1+x.toInt := by
    rw [toInt_add] <;> omega
  constructor <;> rw [hq] <;> omega

theorem geoOffset_does (cap : Int64) :
    Does cfg (fun off sim' => (1 ≤ off.toInt ∧ off.toInt ≤ max 1 cap.toInt) ∧ Drawn sim sim') (geoOffset cap) sim := by
  have hone : (1 : Int64).toInt = 1 := rfl
  refine .repeats (I := fun off sim' => (1 ≤ off.toInt ∧ off.toInt ≤ max 1 cap.toInt) ∧ Drawn sim sim')
    (K := fun off sim' => (1 ≤ off.toInt ∧ off.toInt ≤ max 1 cap.toInt) ∧ Drawn sim sim')
    (fun off _ => (cap.toInt-off.toInt).toNat) ⟨by omega,.refl sim⟩ ?_ fun off sim' h => .done h
  rintro off _ ⟨⟨hlo,hhi⟩,rng,rfl⟩
  split_ifs with hlt
  · rw [Int64.lt_iff_toInt_lt] at hlt
    have hcap := cap.toInt_lt
    have hnext : (off+1).toInt = off.toInt+1 := by
      rw [toInt_add] <;> omega
    have hless : (cap.toInt-(off+1).toInt).toNat < (cap.toInt-off.toInt).toNat := by omega
    refine (below_does (by decide)).bind fun x sim' hx => ?_
    obtain ⟨_,rng',rfl⟩ := hx
    split_ifs
    · exact .done ⟨⟨⟨by omega,by omega⟩,rng',rfl⟩,hless⟩
    · exact .done ⟨⟨hlo,hhi⟩,rng',rfl⟩
  · exact .done ⟨⟨hlo,hhi⟩,rng,rfl⟩

theorem randSide_does : Does cfg (fun _ sim' => Drawn sim sim') randSide sim := by
  refine (below_does (by decide)).bind fun x sim' hx => ?_
  split_ifs
  · exact .done hx.2
  · exact .done hx.2

theorem sized_decayQty (cfg : GenConfig) (off : Int64) : Sized cfg (decayQty cfg off) := by
  have hone : (1 : Int64).toInt = 1 := rfl
  unfold Sized decayQty
  simp only [toInt_max, hone]
  have hshift := toInt_shiftRight_le cfg.maxQty (min (if 0 ≤ off-1 ∧ off-1 ≤ 0xFFFFFFFF then off-1 else 0) 6)
  omega

end Draws
section Reads
variable {cfg : GenConfig} {sim : Sim} {α : Type} {Q : α → Sim → Prop}

theorem Sim.not_full (h : sim.out.length < sim.target) : sim.full = false := by
  simpa [Sim.full] using h

theorem full_does {f : Bool → Gen α} (htrue : sim.target ≤ sim.out.length → Does cfg Q (f true) sim)
    (hfalse : sim.out.length < sim.target → Does cfg Q (f false) sim) : Does cfg Q (full >>= f) sim := by
  refine .access trivial ?_
  by_cases h : sim.out.length < sim.target
  · have hfull : (Sim.exec .full sim).1 = false := Sim.not_full h
    rw [hfull]
    exact hfalse h
  · have hfull : (Sim.exec .full sim).1 = true := decide_eq_true (not_lt.mp h)
    rw [hfull]
    exact htrue (not_lt.mp h)

theorem bestBid_does {f : Option Px → Gen α} (h : Does cfg Q (f sim.bestBid) sim) :
    Does cfg Q (bestBid >>= f) sim := .access trivial h

theorem bestAsk_does {f : Option Px → Gen α} (h : Does cfg Q (f sim.bestAsk) sim) :
    Does cfg Q (bestAsk >>= f) sim := .access trivial h

theorem bidAt_does {px : Px} {f : Option Qty → Gen α} (h : Does cfg Q (f sim.bids[px]?) sim) :
    Does cfg Q (bidAt px >>= f) sim := .access trivial h

end Reads
section Emits
variable {cfg : GenConfig} {sim : Sim} {side : Side} {px : Px} {qty : Qty}

theorem Sim.push_emitted (ev : BookEvent) (hts : ev.ts = sim.ts) : Emitted sim (sim.push ev) where
  target_eq := rfl
  length_eq := List.length_append
  fresh := ⟨ev,List.getLast?_concat,hts⟩

theorem Sim.level_emitted (h : sim.out.length < sim.target) (side : Side) (px : Px) (qty : Qty) :
    Emitted sim (sim.level side px qty) := by
  unfold Sim.level
  rw [if_neg (by simp [Sim.not_full h])]
  cases side with
  | bid => exact ⟨rfl,List.length_append,_,List.getLast?_concat,rfl⟩
  | ask => exact ⟨rfl,List.length_append,_,List.getLast?_concat,rfl⟩

theorem Sim.level_out (h : sim.out.length < sim.target) (side : Side) (px : Px) (qty : Qty) :
    (sim.level side px qty).out = sim.out ++ [.level sim.seq sim.ts side px qty] := by
  unfold Sim.level
  rw [if_neg (by simp [Sim.not_full h])]
  cases side with
  | bid => rfl
  | ask => rfl

theorem Sim.trade_emitted (h : sim.out.length < sim.target) (side : Side) (px : Px) (qty : Qty) :
    Emitted sim (sim.trade side px qty) := by
  unfold Sim.trade
  rw [if_neg (by simp [Sim.not_full h])]
  exact Sim.push_emitted _ rfl

theorem Emitted.of_drawn {sim' sim'' : Sim} (hd : Drawn sim sim') (h : Emitted sim' sim'') : Emitted sim sim'' := by
  obtain ⟨rng,rfl⟩ := hd
  exact ⟨h.target_eq,h.length_eq,h.fresh⟩

theorem level_does (h : sim.out.length < sim.target) (hg : Allowed cfg (.level side px qty) sim) :
    Does cfg (fun _ sim' => Emitted sim sim') (level side px qty) sim :=
  .access hg (.done (Sim.level_emitted h _ _ _))

theorem trade_does (h : sim.out.length < sim.target) (hg : Allowed cfg (.trade side px qty) sim) :
    Does cfg (fun _ sim' => Emitted sim sim') (trade side px qty) sim :=
  .access hg (.done (Sim.trade_emitted h _ _ _))

theorem Drawn.room {sim' : Sim} (hd : Drawn sim sim') (h : sim.out.length < sim.target) :
    sim'.out.length < sim'.target := by
  obtain ⟨rng,rfl⟩ := hd
  exact h

theorem Drawn.trans {sim' sim'' : Sim} (h : Drawn sim sim') (h' : Drawn sim' sim'') : Drawn sim sim'' := by
  obtain ⟨rng,rfl⟩ := h
  obtain ⟨rng',rfl⟩ := h'
  exact ⟨rng',rfl⟩

theorem Drawn.touch {sim' : Sim} (hd : Drawn sim sim') : sim'.touch = sim.touch := by
  obtain ⟨rng,rfl⟩ := hd
  rfl

/-- A trade was printed, or nothing but a draw was done. -/
def Tried (sim : Sim) : Bool → Sim → Prop
  | true, sim' => Emitted sim sim'
  | false, sim' => Drawn sim sim'

theorem Tried.of_drawn {sim' sim'' : Sim} {traded : Bool} (hd : Drawn sim sim') (h : Tried sim' traded sim'') :
    Tried sim traded sim'' := by
  cases traded with
  | true => exact Emitted.of_drawn hd h
  | false => exact hd.trans h

/-- A trade of a random size at the touch. -/
theorem tradeAt_does (h : sim.out.length < sim.target) (hpx : sim.touch side = some px) :
    Does cfg (fun traded sim' => Tried sim traded sim' ∧ traded = true) (do
      let q ← randQty cfg
      trade side px q
      return true) sim := by
  refine randQty_does.bind fun q sim₁ hq => ?_
  obtain ⟨hsized,hd⟩ := hq
  have htrade : Does cfg (fun _ sim' => Emitted sim₁ sim') (trade side px q) sim₁ :=
    trade_does (hd.room h) ⟨hd.touch ▸ hpx,.inl hsized⟩
  exact htrade.bind fun _ sim₂ h₂ => .done ⟨Emitted.of_drawn hd h₂,rfl⟩

/-- The side that the next draw chooses has nothing to trade with. -/
def Sim.refuses (sim : Sim) : Bool := (if (sim.rng.below 2).1 = 0 then sim.bestBid else sim.bestAsk).isNone

/-- The next draws make a steady event an edge churn: they choose it, or a trade that is refused. -/
def Sim.churns (sim : Sim) : Bool :=
  let (r,rng) := sim.rng.below 100
  if r < TRADE_PCT then { sim with rng := rng }.refuses else r < TRADE_PCT+CHURN_PCT

theorem exec_below (n : UInt64) (s : Sim) :
    Sim.exec (.below n) s = ((s.rng.below n).1,{ s with rng := (s.rng.below n).2 }) := rfl

theorem tryTrade_does (h : sim.out.length < sim.target) :
    Does cfg (fun traded sim' => Tried sim traded sim' ∧ traded = !sim.refuses) (tryTrade cfg) sim := by
  refine .access (by decide : (2 : UInt64) ≠ 0) ?_
  rw [exec_below]
  unfold Sim.refuses
  generalize sim.rng.below 2 = draw
  obtain ⟨x,rng⟩ := draw
  have hd : Drawn sim { sim with rng := rng } := ⟨rng,rfl⟩
  change Does cfg _ (if x = 0 then _ else _) _
  by_cases hx : x = 0
  · simp only [if_pos hx]
    refine bestBid_does ?_
    rw [show ({ sim with rng := rng } : Sim).bestBid = sim.bestBid from rfl]
    cases hb : sim.bestBid with
    | none => exact .done ⟨hd,rfl⟩
    | some bb =>
      have htouch : ({ sim with rng := rng } : Sim).touch .ask = some bb := hb
      exact (tradeAt_does (hd.room h) htouch).mono fun traded sim₂ h₂ => ⟨.of_drawn hd h₂.1,h₂.2⟩
  · simp only [if_neg hx]
    refine bestAsk_does ?_
    rw [show ({ sim with rng := rng } : Sim).bestAsk = sim.bestAsk from rfl]
    cases hb : sim.bestAsk with
    | none => exact .done ⟨hd,rfl⟩
    | some ba =>
      have htouch : ({ sim with rng := rng } : Sim).touch .bid = some ba := hb
      exact (tradeAt_does (hd.room h) htouch).mono fun traded sim₂ h₂ => ⟨.of_drawn hd h₂.1,h₂.2⟩

theorem nine_le_reach (cfg : GenConfig) : 9 ≤ reach cfg := by
  unfold reach
  split_ifs <;> omega

theorem band_le_reach (cfg : GenConfig) : cfg.band.toInt ≤ reach cfg := le_max_left _ _

theorem levelUpdate_does (h : sim.out.length < sim.target) :
    Does cfg (fun _ sim' => Emitted sim sim') (levelUpdate cfg) sim := by
  refine randSide_does.bind fun side sim₁ h₁ => ?_
  refine (geoOffset_does _).bind fun off sim₂ h₂ => ?_
  obtain ⟨⟨hlo,hhi⟩,h₂⟩ := h₂
  refine (below_does (by decide)).bind fun x sim₃ h₃ => ?_
  have hd₃ := (h₁.trans h₂).trans h₃.2
  have hplaced : Placed cfg side (pxAt cfg side off) := by
    have hone : (1 : Int64).toInt = 1 := rfl
    have hdepth : STEADY_DEPTH.toInt = 8 := rfl
    have hnine := nine_le_reach cfg
    rw [toInt_min, toInt_max, hone, hdepth] at hhi
    exact ⟨off,rfl,hlo,by omega⟩
  split_ifs
  · exact (level_does (hd₃.room h) fun _ => .inl ⟨.inl rfl,hplaced⟩).mono fun _ _ h₄ => .of_drawn hd₃ h₄
  · refine randQty_does.bind fun q sim₄ h₄ => ?_
    have hd₄ := hd₃.trans h₄.2
    exact (level_does (hd₄.room h) fun _ => .inl ⟨.inr h₄.1,hplaced⟩).mono fun _ _ h₅ => .of_drawn hd₄ h₅

theorem edgeChurn_does (h : sim.out.length < sim.target) :
    Does cfg (fun _ sim' => Emitted sim sim') (edgeChurn cfg) sim := by
  refine randSide_does.bind fun side sim₁ h₁ => ?_
  refine (rollI64_does _).bind fun x sim₂ h₂ => ?_
  obtain ⟨⟨hlo,hhi⟩,h₂⟩ := h₂
  refine (below_does (by decide)).bind fun y sim₃ h₃ => ?_
  have hd₃ := (h₁.trans h₂).trans h₃.2
  have hplaced : Sane cfg → Placed cfg side (pxAt cfg side (STEADY_DEPTH+1+x)) := by
    intro hs
    have hdepth : STEADY_DEPTH.toInt = 8 := rfl
    have hstart : (STEADY_DEPTH+1).toInt = 9 := rfl
    have hnine := nine_le_reach cfg
    have hband := band_le_reach cfg
    have hband₀ := hs.nonneg
    have hband₁ := cfg.band.toInt_lt
    rw [toInt_sub (by omega) (by omega), hdepth] at hhi
    have hoff : (STEADY_DEPTH+1+x).toInt = 9+x.toInt := by
      rw [toInt_add, hstart] <;> omega
    exact ⟨_,rfl,by omega,by omega⟩
  split_ifs
  · refine randQty_does.bind fun q sim₄ h₄ => ?_
    have hd₄ := hd₃.trans h₄.2
    exact (level_does (hd₄.room h) fun hs => .inl ⟨.inr h₄.1,hplaced hs⟩).mono fun _ _ h₅ => .of_drawn hd₄ h₅
  · exact (level_does (hd₃.room h) fun hs => .inl ⟨.inl rfl,hplaced hs⟩).mono fun _ _ h₄ => .of_drawn hd₃ h₄

/-- A steady event puts out one event: a trade that is refused falls through to a level. -/
theorem steadyEvent_does (h : sim.out.length < sim.target) :
    Does cfg (fun _ sim' => Emitted sim sim') (steadyEvent cfg) sim := by
  refine (below_does (by decide)).bind fun r sim₁ h₁ => ?_
  obtain ⟨_,hd₁⟩ := h₁
  have hfall : ∀ sim₂, Drawn sim₁ sim₂ → Does cfg (fun _ sim' => Emitted sim sim')
      (if r < TRADE_PCT+CHURN_PCT then edgeChurn cfg else levelUpdate cfg) sim₂ := by
    intro sim₂ h₂
    have hd₂ := hd₁.trans h₂
    split_ifs
    · exact (edgeChurn_does (hd₂.room h)).mono fun _ _ h₃ => .of_drawn hd₂ h₃
    · exact (levelUpdate_does (hd₂.room h)).mono fun _ _ h₃ => .of_drawn hd₂ h₃
  by_cases hr : r < TRADE_PCT
  · simp only [if_pos hr]
    refine (tryTrade_does (hd₁.room h)).bind fun traded sim₂ ⟨h₂,_⟩ => ?_
    cases traded with
    | true => exact .done (Emitted.of_drawn hd₁ h₂)
    | false => exact hfall sim₂ h₂
  · simp only [if_neg hr]
    exact hfall sim₁ (.refl sim₁)

end Emits
section Cycles
variable {cfg : GenConfig} {sim : Sim} {α : Type} {Q : α → Sim → Prop}

/-- Time has passed, at most. -/
structure Rested (sim sim' : Sim) : Prop where
  target_eq : sim'.target = sim.target
  out_eq : sim'.out = sim.out

/-- Some time passes behind an event. -/
theorem pause_does {n : UInt64} (hn : n ≠ 0) {f : UInt64 → UInt64} (hf : ∀ x, x.toNat < n.toNat → (f x).toNat < 100000)
    (h : sim.Fresh) : Does cfg (fun _ sim' => Rested sim sim') (below n >>= fun x => wait (f x)) sim := by
  refine (below_does hn).bind fun x sim₁ h₁ => ?_
  obtain ⟨hx,rng,rfl⟩ := h₁
  exact .access ⟨hf x hx,h⟩ (.done ⟨rfl,rfl⟩)

theorem advanceSteady_does (h : sim.Fresh) : Does cfg (fun _ sim' => Rested sim sim') advanceSteady sim := by
  refine pause_does (by decide) (fun x hx => ?_) h
  have hdt : STEADY_DT.toNat = 1000 := rfl
  have hjitter : STEADY_JITTER.toNat = 250 := rfl
  rw [UInt64.toNat_add, hdt]
  omega

/-- How a turn of a `for` loop ends that puts out from `lo` to `hi` events, or breaks. -/
def Turned (lo hi : ℕ) (sim : Sim) : Flow → Sim → Prop
  | .next, sim' => sim'.target = sim.target ∧ sim.out.length+lo ≤ sim'.out.length ∧
      sim'.out.length ≤ sim.out.length+hi
  | .stop, sim' => lo = 0 ∧ sim' = sim
  | .quit, sim' => sim' = sim ∧ sim.target ≤ sim.out.length

/-- A `for` loop came to its end, or returned because the target was reached. -/
structure Went (lo hi : ℕ) (sim : Sim) (quit : Bool) (sim' : Sim) : Prop where
  target_eq : sim'.target = sim.target
  grown : sim.out.length ≤ sim'.out.length
  bounded : sim'.out.length ≤ sim.out.length+hi
  ended : quit = false → sim.out.length+lo ≤ sim'.out.length
  returned : quit = true → sim.target ≤ sim'.out.length

theorem times_does {body : Gen Flow} {lo hi : ℕ} (hbody : ∀ sim, Does cfg (Turned lo hi sim) body sim) (n : ℕ) :
    Does cfg (Went (n*lo) (n*hi) sim) (times n body) sim := by
  refine Ends.mono (Ends.times
    (I := fun k s => s.target = sim.target ∧ sim.out.length ≤ s.out.length ∧
      s.out.length+k*hi ≤ sim.out.length+n*hi ∧ sim.out.length+n*lo ≤ s.out.length+k*lo)
    (K := fun s => s.target = sim.target ∧ sim.out.length ≤ s.out.length ∧
      s.out.length ≤ sim.out.length+n*hi ∧ sim.out.length+n*lo ≤ s.out.length)
    (R := fun s => s.target = sim.target ∧ sim.out.length ≤ s.out.length ∧
      s.out.length ≤ sim.out.length+n*hi ∧ sim.target ≤ s.out.length)
    ⟨rfl,le_rfl,le_rfl,le_rfl⟩ ?_ ?_) fun quit s h => ?_
  · rintro k s ⟨htarget,hle,hhi,hlo⟩
    rw [Nat.succ_mul] at hlo hhi
    refine (hbody s).mono fun f s' hf => ?_
    cases f with
    | next =>
      obtain ⟨htarget',hlo',hhi'⟩ := hf
      exact ⟨htarget'.trans htarget,by omega,by omega,by omega⟩
    | stop =>
      obtain ⟨rfl,rfl⟩ := hf
      exact ⟨htarget,hle,by omega,by omega⟩
    | quit =>
      obtain ⟨rfl,hfull⟩ := hf
      exact ⟨htarget,hle,by omega,htarget ▸ hfull⟩
  · rintro s ⟨htarget,hle,hhi,hlo⟩
    exact ⟨htarget,hle,by omega,by omega⟩
  · cases quit with
    | true =>
      obtain ⟨htarget,hle,hhi,hfull⟩ := h
      exact ⟨htarget,hle,hhi,by simp,fun _ => hfull⟩
    | false =>
      obtain ⟨htarget,hle,hhi,hlo⟩ := h
      exact ⟨htarget,hle,hhi,fun _ => hlo,by simp⟩

theorem calmTurn_does {pause : Gen Unit}
    (hpause : ∀ sim, sim.Fresh → Does cfg (fun _ sim' => Rested sim sim') pause sim) :
    Does cfg (Turned 1 1 sim) (calmTurn cfg pause) sim := by
  refine full_does (fun h => .done ⟨rfl,h⟩) fun h => ?_
  refine (steadyEvent_does h).bind fun _ sim₁ h₁ => ?_
  refine (hpause sim₁ h₁.fresh).bind fun _ sim₂ h₂ => .done ⟨?_,?_,?_⟩
  · rw [h₂.target_eq, h₁.target_eq]
  · rw [h₂.out_eq, h₁.length_eq]
  · rw [h₂.out_eq, h₁.length_eq]

theorem calm_does {pause : Gen Unit}
    (hpause : ∀ sim, sim.Fresh → Does cfg (fun _ sim' => Rested sim sim') pause sim) (n : ℕ) :
    Does cfg (Went n n sim) (times n (calmTurn cfg pause)) sim := by
  have hloop : Does cfg (Went (n*1) (n*1) sim) (times n (calmTurn cfg pause)) sim :=
    times_does (fun _ => calmTurn_does hpause) n
  rwa [Nat.mul_one] at hloop

/-- The target is nearer. -/
structure Progress (sim sim' : Sim) : Prop where
  target_eq : sim'.target = sim.target
  length_lt : sim.out.length < sim'.out.length

/-- A cycle that begins with a calm stretch makes progress, wherever it returns. -/
theorem Went.progress {lo hi : ℕ} {quit : Bool} {sim' : Sim} (h : Went lo hi sim quit sim') (hlo : 0 < lo)
    (hroom : sim.out.length < sim.target) : Progress sim sim' := by
  refine ⟨h.target_eq,?_⟩
  cases quit with
  | true => exact hroom.trans_le (h.returned rfl)
  | false =>
    have hended := h.ended rfl
    omega

theorem Drawn.progress {sim' sim'' : Sim} (hd : Drawn sim sim') (h : Progress sim' sim'') : Progress sim sim'' := by
  obtain ⟨rng,rfl⟩ := hd
  exact ⟨h.target_eq,h.length_lt⟩

theorem Progress.grown {sim' sim'' : Sim} (h : Progress sim sim') (htarget : sim''.target = sim'.target)
    (hlen : sim'.out.length ≤ sim''.out.length) : Progress sim sim'' :=
  ⟨htarget.trans h.target_eq,h.length_lt.trans_le hlen⟩

/-- The number of turns of a stretch does not wrap around. -/
theorem toNat_turns {n x : UInt64} (hn : n.toNat < 1000) (hx : x.toNat < 1000) :
    (n+x).toNat = n.toNat+x.toNat := by
  rw [UInt64.toNat_add, Nat.mod_eq_of_lt (by omega)]

theorem burstCycle_does (h : sim.out.length < sim.target) :
    Does cfg (fun _ sim' => Progress sim sim') (burstCycle cfg) sim := by
  refine (below_does (by decide)).bind fun x sim₁ h₁ => ?_
  obtain ⟨hx,hd₁⟩ := h₁
  have hx' : x.toNat < 40 := hx
  have hcalm : (20+x).toNat = 20+x.toNat := toNat_turns (by decide) (by omega)
  refine (calm_does (fun sim hf => pause_does (by decide) (fun y hy => ?_) hf) _).bind fun quit sim₂ h₂ => ?_
  · have hdt : CALM_DT.toNat = 50000 := rfl
    rw [UInt64.toNat_add, hdt]
    omega
  have hprogress := hd₁.progress (h₂.progress (by omega) (hd₁.room h))
  cases quit with
  | true => exact .done hprogress
  | false =>
    refine (below_does (by decide)).bind fun y sim₃ h₃ => ?_
    obtain ⟨_,rng,rfl⟩ := h₃
    refine (calm_does (fun sim hf => pause_does (by decide) (fun z hz => ?_) hf) _).bind fun quit' sim₄ h₄ => ?_
    · change z.toNat < 2 at hz
      omega
    · exact .done (hprogress.grown h₄.target_eq h₄.grown)

theorem Sim.level_full {side : Side} {px : Px} {qty : Qty} (h : sim.target ≤ sim.out.length) :
    sim.level side px qty = sim := if_pos (decide_eq_true h)

/-- What a level does to the output, whether or not the target has been reached. -/
theorem Sim.level_cases (sim : Sim) (side : Side) (px : Px) (qty : Qty) :
    Emitted sim (sim.level side px qty) ∨ (sim.target ≤ sim.out.length ∧ sim.level side px qty = sim) := by
  by_cases h : sim.out.length < sim.target
  · exact .inl (Sim.level_emitted h _ _ _)
  · exact .inr ⟨not_lt.mp h,Sim.level_full (not_lt.mp h)⟩

theorem Sim.bids_of_bestBid {px : Px} (h : sim.bestBid = some px) : ∃ qty, sim.bids[px]? = some qty := by
  have hmem : px ∈ sim.bids := Std.TreeMap.mem_keys.mp (List.mem_of_getLast? h)
  exact ⟨_,Std.TreeMap.getElem?_eq_some_getElem hmem⟩

theorem cascadeTurn_does : Does cfg (Turned 0 2 sim) cascadeTurn sim := by
  refine full_does (fun h => .done ⟨rfl,h⟩) fun h => bestBid_does ?_
  cases hbest : sim.bestBid with
  | none => exact .done ⟨rfl,rfl⟩
  | some bb =>
    obtain ⟨q,hq⟩ := Sim.bids_of_bestBid hbest
    refine bidAt_does ?_
    simp only [hq, Option.getD_some]
    have htrade := Sim.trade_emitted h .ask bb q
    have hkeeps : (sim.trade .ask bb q).bestBid = some bb := by
      unfold Sim.trade
      split_ifs <;> exact hbest
    refine .access ⟨hbest,.inr ⟨rfl,hq⟩⟩ (.access (fun _ => .inr ⟨rfl,rfl,hkeeps⟩) ?_)
    have htarget := htrade.target_eq
    have hlen := htrade.length_eq
    have hlevel : ((sim.trade .ask bb q).level .bid bb 0).Fresh ∧
        ((sim.trade .ask bb q).level .bid bb 0).target = sim.target ∧
        sim.out.length ≤ ((sim.trade .ask bb q).level .bid bb 0).out.length ∧
        ((sim.trade .ask bb q).level .bid bb 0).out.length ≤ sim.out.length+2 := by
      rcases (sim.trade .ask bb q).level_cases .bid bb 0 with hl | ⟨hfull,heq⟩
      · have hlen' := hl.length_eq
        exact ⟨hl.fresh,hl.target_eq.trans htarget,by omega,by omega⟩
      · rw [heq]
        exact ⟨htrade.fresh,htarget,by omega,by omega⟩
    obtain ⟨hfresh,hrest⟩ := hlevel
    refine (pause_does (n := 3) (f := fun x => x) (by decide) (fun x hx => ?_) hfresh).bind fun _ sim₂ h₂ => .done ?_
    · change x.toNat < 3 at hx
      omega
    · change sim₂.target = _ ∧ _ ≤ sim₂.out.length ∧ sim₂.out.length ≤ _
      rw [h₂.target_eq, h₂.out_eq]
      exact hrest

theorem toInt_sweep (hs : Sane cfg) : (sweep cfg).toInt = max (3*cfg.band.toInt/4) 20 := by
  have hfits := hs.fits
  have hnonneg := hs.nonneg
  have hthree : (3 : Int64).toInt = 3 := rfl
  have hfour : (4 : Int64).toInt = 4 := rfl
  have htwenty : (20 : Int64).toInt = 20 := rfl
  have hmul : (cfg.band*3).toInt = 3*cfg.band.toInt := by
    rw [toInt_mul (by rw [hthree]; omega) (by rw [hthree]; omega), hthree]
    omega
  rw [sweep, toInt_max, toInt_div (by omega) (by omega), hmul, hfour, htwenty]

theorem le_sweep (cfg : GenConfig) : 20 ≤ (sweep cfg).toInt := by
  have htwenty : (20 : Int64).toInt = 20 := rfl
  rw [sweep, toInt_max, htwenty]
  exact le_max_right _ _

/-- The number of levels that a recovery sets. -/
theorem toInt_recover (cfg : GenConfig) : (max (sweep cfg/2) 1).toInt = (sweep cfg).toInt/2 := by
  have hsweep := le_sweep cfg
  have hone : (1 : Int64).toInt = 1 := rfl
  have htwo : (2 : Int64).toInt = 2 := rfl
  rw [toInt_max, toInt_div (by omega) (by omega), htwo, hone]
  omega

/-- A recovery only adds to the output. -/
structure Recovered (cfg : GenConfig) (sim sim' : Sim) : Prop where
  target_eq : sim'.target = sim.target
  grown : sim.out.length ≤ sim'.out.length

/-- A turn of a recovery: level `k`, unless the last level is set or the target reached. -/
def recoveryTurn (cfg : GenConfig) (k : Int64) : Gen (Int64 ⊕ Unit) := do
  if k ≤ max (sweep cfg/2) 1 then
    if ← full then
      return .inr ()
    let q ← randQty cfg
    level .bid (cfg.mid-k) q
    advanceSteady
    return .inl (k+1)
  return .inr ()

theorem recovery_eq (cfg : GenConfig) : recovery cfg = .loop 1 (recoveryTurn cfg) .done := rfl

/-- What a turn of a recovery leaves. -/
def RecoveryTurned (cfg : GenConfig) (k : Int64) (sim : Sim) : Int64 ⊕ Unit → Sim → Prop
  | .inl k', sim' => k' = k+1 ∧ k.toInt ≤ (max (sweep cfg/2) 1).toInt ∧ sim.out.length < sim.target ∧
      sim'.target = sim.target ∧ sim'.out.length = sim.out.length+1
  | .inr _, sim' => sim' = sim ∧ ((max (sweep cfg/2) 1).toInt < k.toInt ∨ sim.target ≤ sim.out.length)

theorem recoveryTurn_does (hp : cfg.profile = .flashCrash) {k : Int64} (hlo : 1 ≤ k.toInt) :
    Does cfg (RecoveryTurned cfg k sim) (recoveryTurn cfg k) sim := by
  have hrecover := toInt_recover cfg
  unfold recoveryTurn
  split_ifs with hk
  · rw [Int64.le_iff_toInt_le] at hk
    refine full_does (fun h => .done ⟨rfl,.inr h⟩) fun h => ?_
    refine randQty_does.bind fun q sim₁ h₁ => ?_
    obtain ⟨hsized,rng,rfl⟩ := h₁
    have hplaced : Sane cfg → Placed cfg .bid (cfg.mid-k) := by
      intro hs
      have hnonneg := hs.nonneg
      rw [toInt_sweep hs] at hrecover
      refine ⟨k,rfl,hlo,?_⟩
      unfold reach
      rw [if_pos hp]
      omega
    have hroom : ({ sim with rng := rng } : Sim).out.length < ({ sim with rng := rng } : Sim).target := h
    have hlevel := Sim.level_emitted hroom .bid (cfg.mid-k) q
    refine .access (fun hs => .inl ⟨.inr hsized,hplaced hs⟩)
      ((advanceSteady_does hlevel.fresh).bind fun _ sim₂ h₂ => .done ?_)
    refine ⟨rfl,hk,h,?_,?_⟩
    · rw [h₂.target_eq, hlevel.target_eq]
    · rw [h₂.out_eq, hlevel.length_eq]
  · rw [Int64.le_iff_toInt_le, not_le] at hk
    exact .done ⟨rfl,.inl hk⟩

/-- The next level is in range. -/
theorem toInt_next_level {k : Int64} (hk : k.toInt ≤ (max (sweep cfg/2) 1).toInt) : (k+1).toInt = k.toInt+1 := by
  have hone : (1 : Int64).toInt = 1 := rfl
  have hrecover := toInt_recover cfg
  have hsweep := le_sweep cfg
  have hsweep' := (sweep cfg).toInt_lt
  have hlo := k.le_toInt
  rw [toInt_add, hone] <;> omega

theorem recovery_does (hp : cfg.profile = .flashCrash) :
    Does cfg (fun _ sim' => Recovered cfg sim sim') (recovery cfg) sim := by
  rw [recovery_eq]
  refine .repeats (I := fun k s => 1 ≤ k.toInt ∧ Recovered cfg sim s) (K := fun _ s => Recovered cfg sim s)
    (fun k _ => ((max (sweep cfg/2) 1).toInt+1-k.toInt).toNat) ⟨le_rfl,rfl,le_rfl⟩ ?_ fun _ s h => .done h
  rintro k s ⟨hlo,htarget,hgrown⟩
  refine (recoveryTurn_does hp hlo).mono fun r s' hr => ?_
  cases r with
  | inl k' =>
    obtain ⟨rfl,hk,_,htarget',hlen⟩ := hr
    have hnext := toInt_next_level hk
    have hless : ((max (sweep cfg/2) 1).toInt+1-(k+1).toInt).toNat < ((max (sweep cfg/2) 1).toInt+1-k.toInt).toNat := by
      omega
    exact ⟨⟨by omega,htarget'.trans htarget,by omega⟩,hless⟩
  | inr _ =>
    obtain ⟨rfl,_⟩ := hr
    exact ⟨htarget,hgrown⟩

theorem crashCycle_does (hp : cfg.profile = .flashCrash) (h : sim.out.length < sim.target) :
    Does cfg (fun _ sim' => Progress sim sim') (crashCycle cfg) sim := by
  refine (below_does (by decide)).bind fun x sim₁ h₁ => ?_
  obtain ⟨hx,hd₁⟩ := h₁
  have hx' : x.toNat < 200 := hx
  have hcalm : (200+x).toNat = 200+x.toNat := toNat_turns (by decide) (by omega)
  refine (calm_does (fun _ => advanceSteady_does) _).bind fun quit sim₂ h₂ => ?_
  have hprogress := hd₁.progress (h₂.progress (by omega) (hd₁.room h))
  cases quit with
  | true => exact .done hprogress
  | false =>
    refine (times_does (fun _ => cascadeTurn_does) _).bind fun quit' sim₃ h₃ => ?_
    have hprogress₃ := hprogress.grown h₃.target_eq h₃.grown
    cases quit' with
    | true => exact .done hprogress₃
    | false => exact (recovery_does hp).mono fun _ sim₄ h₄ => hprogress₃.grown h₄.target_eq h₄.grown

/-- Up to `n` events were put out, fewer only where the target was reached, and no random
number drawn. -/
structure Added (n : ℕ) (sim sim' : Sim) : Prop where
  target_eq : sim'.target = sim.target
  rng_eq : sim'.rng = sim.rng
  grown : sim.out.length ≤ sim'.out.length
  bounded : sim'.out.length ≤ sim.out.length+n
  filled : sim'.target ≤ sim'.out.length ∨ sim.out.length+n ≤ sim'.out.length

theorem Added.trans {n m : ℕ} {sim' sim'' : Sim} (h : Added n sim sim') (h' : Added m sim' sim'') :
    Added (n+m) sim sim'' := by
  have htarget := h'.target_eq
  have hgrown := h'.grown
  have hbounded := h.bounded
  have hbounded' := h'.bounded
  refine ⟨htarget.trans h.target_eq,h'.rng_eq.trans h.rng_eq,h.grown.trans hgrown,by omega,?_⟩
  rcases h.filled with hfull | hadded
  · exact .inl (by omega)
  · rcases h'.filled with hfull | hadded'
    · exact .inl hfull
    · exact .inr (by omega)

/-- What was added is less to do. -/
theorem Added.less {n : ℕ} {sim' : Sim} (h : Added (n+1) sim sim') (hroom : sim.out.length < sim.target) :
    sim'.target-sim'.out.length < sim.target-sim.out.length := by
  have htarget := h.target_eq
  rcases h.filled with hfull | hadded
  · omega
  · omega

theorem Sim.push_added (sim : Sim) {sim' : Sim} (ev : BookEvent) (hout : sim'.out = sim.out ++ [ev])
    (htarget : sim'.target = sim.target) (hrng : sim'.rng = sim.rng) : Added 1 sim sim' := by
  have hlen : sim'.out.length = sim.out.length+1 := by
    rw [hout, List.length_append, List.length_singleton]
  exact ⟨htarget,hrng,by omega,hlen.le,.inr hlen.ge⟩

theorem Sim.level_added (sim : Sim) (side : Side) (px : Px) (qty : Qty) : Added 1 sim (sim.level side px qty) := by
  unfold Sim.level
  split_ifs with hfull
  · exact ⟨rfl,rfl,le_rfl,Nat.le_succ _,.inl (of_decide_eq_true hfull)⟩
  · cases side with
    | bid => exact sim.push_added _ rfl rfl rfl
    | ask => exact sim.push_added _ rfl rfl rfl

theorem Sim.clear_added (sim : Sim) : Added 1 sim sim.clear := by
  unfold Sim.clear
  split_ifs with hfull
  · exact ⟨rfl,rfl,le_rfl,Nat.le_succ _,.inl (of_decide_eq_true hfull)⟩
  · exact sim.push_added _ rfl rfl rfl

/-- Nothing is out but the ladder, and the clear before it. -/
def Laddered (cfg : GenConfig) (sim : Sim) : Prop := ∀ ev ∈ sim.out, ev.kind ≠ .clear →
  ∃ side off, ev.px = pxAt cfg side off ∧ 1 ≤ off.toInt ∧ off.toInt ≤ cfg.band.toInt

theorem laddered_clear (hout : sim.out = []) : Laddered cfg sim.clear := by
  intro ev hev hk
  unfold Sim.clear at hev
  split_ifs at hev
  · rw [hout] at hev
    cases hev
  · change ev ∈ sim.out ++ [_] at hev
    rw [hout, List.nil_append, List.mem_singleton] at hev
    rw [hev] at hk
    exact absurd rfl hk

theorem Laddered.level (h : Laddered cfg sim) {off : Int64} (hlo : 1 ≤ off.toInt) (hhi : off.toInt ≤ cfg.band.toInt)
    (side : Side) (qty : Qty) : Laddered cfg (sim.level side (pxAt cfg side off) qty) := by
  by_cases hroom : sim.out.length < sim.target
  · intro ev hev hk
    rw [Sim.level_out hroom] at hev
    rcases List.mem_append.mp hev with hev | hev
    · exact h ev hev hk
    · rw [List.mem_singleton.mp hev]
      exact ⟨side,off,rfl,hlo,hhi⟩
  · rw [Sim.level_full (not_lt.mp hroom)]
    exact h

/-- Wherever the band ends, the ladder does when the target is reached. -/
theorem seed_does (hout : sim.out = []) : Does cfg (fun _ sim' => sim'.target = sim.target ∧
    (Sane cfg → Added (2*cfg.band.toInt.toNat+1) sim sim' ∧ Laddered cfg sim')) (seed cfg) sim := by
  have hone : (1 : Int64).toInt = 1 := rfl
  have hband := band_le_reach cfg
  refine .access hout ?_
  refine .repeats (I := fun off s => s.target = sim.target ∧ (Sane cfg →
      (1 ≤ off.toInt ∧ off.toInt ≤ cfg.band.toInt+1) ∧ Added (2*off.toInt.toNat-1) sim s ∧ Laddered cfg s))
    (K := fun _ s => s.target = sim.target ∧ (Sane cfg → Added (2*cfg.band.toInt.toNat+1) sim s ∧ Laddered cfg s))
    (fun _ s => s.target-s.out.length) ⟨sim.clear_added.target_eq,fun hs => ⟨?_,sim.clear_added,laddered_clear hout⟩⟩
    ?_ fun _ s h => .done h
  · have hnonneg := hs.nonneg
    omega
  rintro off s ⟨htarget,hladder⟩
  split_ifs with hoff
  · rw [Int64.le_iff_toInt_le] at hoff
    refine full_does (fun hfull => .done ⟨htarget,fun hs => ?_⟩) fun hroom => ?_
    · obtain ⟨⟨hlo,hhi⟩,hadded,hladder⟩ := hladder hs
      have hbounded := hadded.bounded
      exact ⟨⟨hadded.target_eq,hadded.rng_eq,hadded.grown,by omega,.inl hfull⟩,hladder⟩
    have hq := sized_decayQty cfg off
    have hplaced : ∀ side, Sane cfg → Placed cfg side (pxAt cfg side off) :=
      fun side hs => ⟨off,rfl,(hladder hs).1.1,by omega⟩
    have hpair := (s.level_added .bid (cfg.mid-off) (decayQty cfg off)).trans
      ((s.level .bid (cfg.mid-off) (decayQty cfg off)).level_added .ask (cfg.mid+off) (decayQty cfg off))
    refine .access (fun hs => .inl ⟨.inr hq,hplaced .bid hs⟩) (.access (fun hs => .inl ⟨.inr hq,hplaced .ask hs⟩)
      (.done ⟨⟨hpair.target_eq.trans htarget,fun hs => ?_⟩,hpair.less hroom⟩))
    obtain ⟨⟨hlo,_⟩,hadded,hladder⟩ := hladder hs
    have hfits := hs.fits
    have hnext : (off+1).toInt = off.toInt+1 := by
      rw [toInt_add, hone] <;> omega
    have htwo : 2*off.toInt.toNat-1+(1+1) = 2*(off+1).toInt.toNat-1 := by omega
    exact ⟨by omega,htwo ▸ hadded.trans hpair,(hladder.level hlo hoff .bid _).level hlo hoff .ask _⟩
  · rw [Int64.le_iff_toInt_le] at hoff
    refine .done ⟨htarget,fun hs => ?_⟩
    obtain ⟨⟨hlo,hhi⟩,hadded,hladder⟩ := hladder hs
    have hlast : 2*off.toInt.toNat-1 = 2*cfg.band.toInt.toNat+1 := by omega
    exact ⟨hlast ▸ hadded,hladder⟩

/-- A stream that is no longer than the ladder is nothing else. -/
theorem short_does (hs : Sane cfg) (hshort : cfg.events ≤ 2*cfg.band.toInt.toNat+1) :
    Does cfg (fun _ sim => Laddered cfg sim) (generate cfg) (.new cfg) := by
  refine (seed_does rfl).bind fun _ s ⟨_,hseed⟩ => ?_
  obtain ⟨hadded,hladder⟩ := hseed hs
  have htarget : s.target = cfg.events := hadded.target_eq
  have hfull : s.target ≤ s.out.length := by
    rcases hadded.filled with hfull | hlen
    · exact hfull
    · change 0+_ ≤ _ at hlen
      omega
  exact .loop (full_does (fun _ => .done hladder) fun hroom => absurd hfull (not_le.mpr hroom))

/-- The loop of `generate`. -/
theorem generate_does (cfg : GenConfig) :
    Does cfg (fun _ sim => sim.target = cfg.events ∧ cfg.events ≤ sim.out.length) (generate cfg) (.new cfg) := by
  refine (seed_does rfl).bind fun _ sim₁ h₁ => ?_
  refine .repeats (I := fun _ s => s.target = cfg.events)
    (K := fun _ s => s.target = cfg.events ∧ cfg.events ≤ s.out.length)
    (fun _ s => s.target-s.out.length) h₁.1 ?_ fun _ s h => .done h
  intro _ s htarget
  refine full_does (fun h => .done ⟨htarget,htarget ▸ h⟩) fun h => ?_
  have hturn : ∀ s', Progress s s' → s'.target = cfg.events ∧ s'.target-s'.out.length < s.target-s.out.length := by
    intro s' hs'
    have htarget' := hs'.target_eq
    have hlt := hs'.length_lt
    exact ⟨htarget'.trans htarget,by omega⟩
  cases hp : cfg.profile with
  | steady =>
    refine (steadyEvent_does h).bind fun _ s₁ h₁ => ?_
    refine (advanceSteady_does h₁.fresh).bind fun _ s₂ h₂ => .done (hturn s₂ ⟨?_,?_⟩)
    · rw [h₂.target_eq, h₁.target_eq]
    · rw [h₂.out_eq, h₁.length_eq]
      omega
  | burst => exact (burstCycle_does h).bind fun _ s' hs' => .done (hturn s' hs')
  | flashCrash => exact (crashCycle_does hp h).bind fun _ s' hs' => .done (hturn s' hs')

end Cycles
end LowLatencyLob.Feed.Synthetic
