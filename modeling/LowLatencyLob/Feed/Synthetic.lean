import LowLatencyLob.Book.BTree
import LowLatencyLob.Concurrency.Sequential

/-! The synthetic load generator: `SplitMix64`, the private book of `Sim`, and the code of
`generate` over the operations of a `Sim`.

The fields `mid`, `band` and `max_qty` of a `Sim` are copied from the configuration and never
assigned; the code reads them from there. -/
namespace LowLatencyLob.Feed.Synthetic
open Book Concurrency Program

structure SplitMix64 where
  state : UInt64
  deriving DecidableEq

namespace SplitMix64

def new (seed : UInt64) : SplitMix64 := ⟨seed⟩

/-- The next value, and the generator after it. -/
def nextU64 (rng : SplitMix64) : UInt64 × SplitMix64 :=
  let state := rng.state+0x9E3779B97F4A7C15
  let z := state
  let z := (z ^^^ (z >>> 30))*0xBF58476D1CE4E5B9
  let z := (z ^^^ (z >>> 27))*0x94D049BB133111EB
  (z ^^^ (z >>> 31),⟨state⟩)

/-- A value in `0..n`; the remainder by zero is a panic in the source. -/
def below (rng : SplitMix64) (n : UInt64) : UInt64 × SplitMix64 :=
  let (x,rng) := rng.nextU64
  (x % n,rng)

end SplitMix64

/-- Levels around the touch that `Steady` concentrates updates in. -/
def STEADY_DEPTH : Int64 := 8
def STEADY_DT : UInt64 := 1000
def STEADY_JITTER : UInt64 := 250
def TRADE_PCT : UInt64 := 5
def CHURN_PCT : UInt64 := 1
def CALM_DT : UInt64 := 50000

inductive Profile
  | steady
  | burst
  | flashCrash
  deriving DecidableEq

structure GenConfig where
  profile : Profile
  seed : UInt64
  events : ℕ
  mid : Px
  band : Int64
  maxQty : Qty
  startTs : UInt64

/-- What a generator changes as it runs. -/
structure Sim where
  rng : SplitMix64
  seq : UInt64
  ts : UInt64
  bids : Std.TreeMap Px Qty
  asks : Std.TreeMap Px Qty
  out : List BookEvent
  target : ℕ

namespace Sim

def new (cfg : GenConfig) : Sim where
  rng := .new cfg.seed
  seq := 0
  ts := cfg.startTs
  bids := ∅
  asks := ∅
  out := []
  target := cfg.events

variable (sim : Sim)

def full : Bool := sim.out.length ≥ sim.target

def bestBid : Option Px := sim.bids.keys.getLast?

def bestAsk : Option Px := sim.asks.keys.head?

/-- The event joins the output under the next sequence number. -/
def push (ev : BookEvent) : Sim := { sim with out := sim.out ++ [ev], seq := sim.seq+1 }

/-- `remove` for a zero quantity, else `insert`, and the event; nothing once the target is
reached. -/
def level (side : Side) (px : Px) (qty : Qty) : Sim :=
  if sim.full then sim else
    let ev := BookEvent.level sim.seq sim.ts side px qty
    match side with
    | .bid => { sim with bids := BTreeBook.update sim.bids px qty }.push ev
    | .ask => { sim with asks := BTreeBook.update sim.asks px qty }.push ev

def trade (aggressor : Side) (px : Px) (qty : Qty) : Sim :=
  if sim.full then sim else sim.push (.trade sim.seq sim.ts aggressor px qty)

def clear : Sim :=
  if sim.full then sim else { sim with bids := ∅, asks := ∅ }.push (.clear sim.seq sim.ts)

end Sim

/-- The operations on a `Sim`. -/
inductive Op
  | below (n : UInt64)
  | full
  | bestBid
  | bestAsk
  | bidAt (px : Px)
  | level (side : Side) (px : Px) (qty : Qty)
  | trade (aggressor : Side) (px : Px) (qty : Qty)
  | clear
  /-- `self.ts += dt` -/
  | wait (dt : UInt64)

abbrev Op.Result : Op → Type
  | .below _ => UInt64
  | .full => Bool
  | .bestBid => Option Px
  | .bestAsk => Option Px
  | .bidAt _ => Option Qty
  | .level _ _ _ => Unit
  | .trade _ _ _ => Unit
  | .clear => Unit
  | .wait _ => Unit

def Sim.exec : Effect Op.Result Sim
  | .below n, sim => ((sim.rng.below n).1,{ sim with rng := (sim.rng.below n).2 })
  | .full, sim => (sim.full,sim)
  | .bestBid, sim => (sim.bestBid,sim)
  | .bestAsk, sim => (sim.bestAsk,sim)
  | .bidAt px, sim => (sim.bids[px]?,sim)
  | .level side px qty, sim => ((),sim.level side px qty)
  | .trade aggressor px qty, sim => ((),sim.trade aggressor px qty)
  | .clear, sim => ((),sim.clear)
  | .wait dt, sim => ((),{ sim with ts := sim.ts+dt })

/-- Code of the generator. -/
abbrev Gen := Program Op.Result

section Operations

def below (n : UInt64) : Gen UInt64 := .access (.below n) .done
def full : Gen Bool := .access .full .done
def bestBid : Gen (Option Px) := .access .bestBid .done
def bestAsk : Gen (Option Px) := .access .bestAsk .done
def bidAt (px : Px) : Gen (Option Qty) := .access (.bidAt px) .done
def level (side : Side) (px : Px) (qty : Qty) : Gen Unit := .access (.level side px qty) .done
def trade (aggressor : Side) (px : Px) (qty : Qty) : Gen Unit := .access (.trade aggressor px qty) .done
def clear : Gen Unit := .access .clear .done
def wait (dt : UInt64) : Gen Unit := .access (.wait dt) .done

end Operations
section Helpers
variable (cfg : GenConfig)

/-- Value in `0..n`; `0` for non-positive `n`. -/
def rollI64 (n : Int64) : Gen Int64 := do
  if n < 0 then          -- `u64::try_from` fails
    return 0
  if n = 0 then
    return 0
  let x ← below n.toUInt64
  return if x ≤ Int64.maxValue.toUInt64 then x.toInt64 else 0

/-- A positive quantity in `1..=max_qty`. -/
def randQty : Gen Qty := do
  let span := max cfg.maxQty 1
  return 1+(← rollI64 span)

/-- Offset from the touch, capped at `cap`. -/
def geoOffset (cap : Int64) : Gen Int64 :=
  .loop 1 (fun off => do
    if off < cap then
      if (← below 2) = 0 then
        return .inl (off+1)
      return .inr off
    return .inr off) .done

/-- Quantity for a seeded ladder level: geometric decay from the touch. -/
def decayQty (offset : Int64) : Qty :=
  let shift : Int64 := if 0 ≤ offset-1 ∧ offset-1 ≤ 0xFFFFFFFF then offset-1 else 0
  max (cfg.maxQty >>> min shift 6) 1

def advanceSteady : Gen Unit := do
  wait (STEADY_DT+(← below STEADY_JITTER))

/-- `Clear`, then a symmetric ladder of `band` levels per side around `mid`. -/
def seed : Gen Unit := do
  clear
  .loop (1 : Int64) (fun off => do
    if off ≤ cfg.band then
      if ← full then
        return .inr ()
      let q := decayQty cfg off
      level .bid (cfg.mid-off) q
      level .ask (cfg.mid+off) q
      return .inl (off+1)
    return .inr ()) .done

def pxAt (side : Side) (off : Int64) : Px :=
  match side with
  | .bid => cfg.mid-off
  | .ask => cfg.mid+off

def randSide : Gen Side := do
  if (← below 2) = 0 then
    return .bid
  return .ask

end Helpers
section Steady
variable (cfg : GenConfig)

/-- Print a trade at the touch of a random side; `false` only if that side is empty. -/
def tryTrade : Gen Bool := do
  if (← below 2) = 0 then
    match ← bestBid with
    | some bb =>
      let q ← randQty cfg
      trade .ask bb q
      return true
    | none => return false
  match ← bestAsk with
  | some ba =>
    let q ← randQty cfg
    trade .bid ba q
    return true
  | none => return false

/-- Update a level within the top `STEADY_DEPTH`; about a tenth are removals. -/
def levelUpdate : Gen Unit := do
  let side ← randSide
  let off ← geoOffset (min STEADY_DEPTH (max cfg.band 1))
  let px := pxAt cfg side off
  let qty ← if (← below 10) = 0 then pure 0 else randQty cfg
  level side px qty

/-- Add or remove a level out near the band edge. -/
def edgeChurn : Gen Unit := do
  let side ← randSide
  let off := STEADY_DEPTH+1+(← rollI64 (cfg.band-STEADY_DEPTH))
  let px := pxAt cfg side off
  if (← below 2) = 0 then
    let q ← randQty cfg
    level side px q
  else
    level side px 0

def steadyEvent : Gen Unit := do
  let r ← below 100
  let traded ← if r < TRADE_PCT then tryTrade cfg else pure false
  if traded then
    return
  if r < TRADE_PCT+CHURN_PCT then
    edgeChurn cfg
  else
    levelUpdate cfg

end Steady
section Cycles
variable (cfg : GenConfig)

/-- A turn of a stretch of steady flow, with the time that passes behind the event. -/
def calmTurn (pause : Gen Unit) : Gen Flow := do
  if ← full then
    return .quit
  steadyEvent cfg
  pause
  return .next

/-- A calm stretch, then a dense burst. -/
def burstCycle : Gen Unit := do
  let calm := 20+(← below 40)
  if ← times calm.toNat (calmTurn cfg do wait (CALM_DT+(← below CALM_DT))) then
    return
  let burst := 200+(← below 120)
  let _ ← times burst.toNat (calmTurn cfg do wait (← below 2))

/-- The number of levels that a crash sweeps. -/
def sweep : Int64 := max (cfg.band*3/4) 20

/-- A turn of the cascade: a trade takes out the best bid, and its level goes. -/
def cascadeTurn : Gen Flow := do
  if ← full then
    return .quit
  match ← bestBid with
  | none => return .stop
  | some bb =>
    let q := (← bidAt bb).getD 1
    trade .ask bb q
    level .bid bb 0
    wait (← below 3)
    return .next

/-- Partial recovery: bid levels back up toward the mid. -/
def recovery : Gen Unit :=
  let recover := max (sweep cfg/2) 1
  .loop (1 : Int64) (fun k => do
    if k ≤ recover then
      if ← full then
        return .inr ()
      let q ← randQty cfg
      level .bid (cfg.mid-k) q
      advanceSteady
      return .inl (k+1)
    return .inr ()) .done

def crashCycle : Gen Unit := do
  let calm := 200+(← below 200)
  if ← times calm.toNat (calmTurn cfg advanceSteady) then
    return
  if ← times (sweep cfg).toInt.toNat cascadeTurn then
    return
  recovery cfg

/-- The events are what a `Sim` holds in `out` at the end. -/
def generate : Gen Unit := do
  seed cfg
  .loop () (fun _ => do
    if ← full then
      return .inr ()
    match cfg.profile with
    | .steady =>
      steadyEvent cfg
      advanceSteady
    | .burst => burstCycle cfg
    | .flashCrash => crashCycle cfg
    return .inl ()) .done

end Cycles
end LowLatencyLob.Feed.Synthetic
