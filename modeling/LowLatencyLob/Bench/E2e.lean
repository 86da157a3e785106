import LowLatencyLob.Bench.Sustained
import LowLatencyLob.Concurrency.Clients
import LowLatencyLob.Engine.Broadcast
import LowLatencyLob.Feed.CorpusRoundTrip

/-! A cell of the end-to-end benchmark: the threads of `run_cell`, which use an engine, a
handshake and a clock.

The orderings that the handshake asks for make no difference where every access is one
step. A reading of the clock may be anything. -/
namespace LowLatencyLob.Bench
open Book Concurrency Engine
open Client (call own)
open Feed (EventSlice)
open SeqLock (TopOfBook)
open LowLatencyLob.Ring (Capacity Thread)

/-- What the threads of a cell share besides the engine. -/
structure Handshake where
  /-- How many consumers have finished their warmup. -/
  ready : UInt64
  started : Bool
  baseRaw : UInt64
  done : Bool
  deriving DecidableEq

def Handshake.new : Handshake := ⟨0,false,0,false⟩

/-- Accesses of the handshake, and of the clock. -/
inductive Act
  | fetchAddReady (n : UInt64)
  | loadReady
  | storeStarted (x : Bool)
  | loadStarted
  | storeBaseRaw (x : UInt64)
  | loadBaseRaw
  | storeDone (x : Bool)
  | loadDone
  /-- `clock.raw()` -/
  | raw

abbrev Act.Result : Act → Type
  | .fetchAddReady _ => UInt64
  | .loadReady => UInt64
  | .storeStarted _ => Unit
  | .loadStarted => Bool
  | .storeBaseRaw _ => Unit
  | .loadBaseRaw => UInt64
  | .storeDone _ => Unit
  | .loadDone => Bool
  | .raw => UInt64

def Handshake.act (hs : Handshake) (now : UInt64) : (a : Act) → a.Result × Handshake
  | .fetchAddReady n => (hs.ready,{ hs with ready := hs.ready+n })
  | .loadReady => (hs.ready,hs)
  | .storeStarted x => ((),{ hs with started := x })
  | .loadStarted => (hs.started,hs)
  | .storeBaseRaw x => ((),{ hs with baseRaw := x })
  | .loadBaseRaw => (hs.baseRaw,hs)
  | .storeDone x => ((),{ hs with done := x })
  | .loadDone => (hs.done,hs)
  | .raw => (now,hs)

abbrev handshake : Memory Thread Act.Result where
  State := Handshake
  Choice := UInt64
  exec _ hs a now := some (hs.act now a)

/-- `BenchClock`, by its `delta_ns`: from one raw reading to a later one it is no shorter. -/
structure BenchClock where
  deltaNs : UInt64 → UInt64 → UInt64
  mono : ∀ a b c, b ≤ c → deltaNs a b ≤ deltaNs a c

/-- The parameters of a cell, the number of warmup polls among them. -/
structure Cell where
  clock : BenchClock
  hist : Histogram
  capacity : Capacity
  consumers : UInt64
  warmupPolls : ℕ
  sched : Schedule
  corpus : EventSlice

/-- The tally that a consumer thread returns, less whether it was pinned. -/
structure ConsumerStats (H : Histogram) where
  e2e : Recorder H
  deliveries : UInt64
  overruns : UInt64
  skipped : UInt64

def ConsumerStats.new {H : Histogram} : ConsumerStats H := ⟨.new,0,0,0⟩

namespace Cell
variable (cell : Cell)

/-- Code of the threads of a cell. -/
abbrev Code := Client (Engine.object cell.capacity BTreeBook) Act.Result

abbrev Stats := ConsumerStats cell.hist

/-- `events.len() as u64` -/
def n : UInt64 := .ofNat cell.corpus.events.length

def nowSinceNs (base : UInt64) : cell.Code UInt64 := do
  return cell.clock.deltaNs base (← own .raw)

section Consumer

/-- `c.poll()`, with the cursor behind it; `none` if it panics. -/
def poll : cell.Code (Option (Observed × ℕ)) := do
  match ← call .poll with
  | .observed _ (.ok x) cursor => return some (x,cursor)
  | _ => return none

/-- The untimed polls; whether they went through. -/
def warmup : cell.Code Bool :=
  .loop cell.warmupPolls (fun k => do
    match k with
    | 0 => return .inr true
    | k+1 =>
      match ← cell.poll with
      | none => return .inr false
      | some _ => return .inl k) .done

/-- `while !hs.started.load(Acquire) { spin_loop() }` -/
def awaitStarted : cell.Code Unit :=
  .loop () (fun _ => do
    if ← own .loadStarted then
      return .inr ()
    return .inl ()) .done

/-- A turn of the drain loop. -/
def drain (base : UInt64) (stats : cell.Stats) : cell.Code (cell.Stats ⊕ Option cell.Stats) := do
  match ← cell.poll with
  | none => return .inr none
  | some (.event ev,_) =>
    let lat := saturatingSub (← cell.nowSinceNs base) ev.ts
    return .inl { stats with e2e := stats.e2e.record lat, deliveries := stats.deliveries+1 }
  | some (.overrun s _,_) =>
    return .inl { stats with overruns := stats.overruns+1, skipped := stats.skipped+.ofNat s }
  | some (.idle,cursor) =>
    if ← own .loadDone then
      if cell.n.toNat ≤ cursor then
        return .inr (some stats)
    return .inl stats

def runConsumer : cell.Code (Option cell.Stats) := do
  if ← cell.warmup then
    let _ ← own (.fetchAddReady 1)
    cell.awaitStarted
    let base ← own .loadBaseRaw
    .loop .new (cell.drain base) .done
  else
    return none

end Consumer
section Producer

/-- `while hs.ready.load(Acquire) < consumers as u64 { spin_loop() }` -/
def awaitReady : cell.Code Unit :=
  .loop () (fun _ => do
    if (← own .loadReady) < cell.consumers then
      return .inl ()
    return .inr ()) .done

/-- Wait for the scheduled time. -/
def pace (base scheduled : UInt64) : cell.Code Unit := do
  let now ← cell.nowSinceNs base
  .loop now (fun now => do
    if now < scheduled then
      return .inl (← cell.nowSinceNs base)
    return .inr ()) .done

/-- The paced loop from event `i` on: each event is stamped with its scheduled arrival.
Whether no schedule panicked. -/
def produce (base : UInt64) : ℕ → List BookEvent → cell.Code Bool
  | _, [] => return true
  | i, ev :: evs =>
    match cell.sched.offsetNs i ev with
    | none => return false
    | some scheduled => do
      cell.pace base scheduled
      let _ ← call (.process { ev with ts := scheduled })
      produce base (i+1) evs

/-- Behind the warmup on an engine of its own; returns the active time, from which the two
rates are computed. -/
def driveProducer : cell.Code (Option UInt64) := do
  cell.awaitReady
  let base ← own .raw
  let _ ← own (.storeBaseRaw base)
  let _ ← own (.storeStarted true)
  if ← cell.produce base 0 cell.corpus.events then
    let active ← cell.nowSinceNs base
    let _ ← own (.storeDone true)
    return some active
  else
    return none

end Producer

/-- Where a thread of the cell is: to be spawned, or joined with what it returned. -/
inductive Worker
  | producer
  | consumer
  | unused
  | drove (active : Option UInt64)
  | drained (stats : Option cell.Stats)

/-- The closures that `run_cell` spawns. A consumer is minted before the producer can pass
its barrier, here by the consumer's own thread. -/
abbrev worker : Object (Deed.Result (Engine.object cell.capacity BTreeBook).Call
    (Engine.object cell.capacity BTreeBook).Out Act.Result) where
  Local := cell.Worker
  Call := Unit
  Out := Unit
  code
    | .producer, _ => some do
      let active ← cell.driveProducer
      return (.drove active,())
    | .consumer, _ => some do
      let _ ← call .consumer
      let stats ← cell.runConsumer
      return (.drained stats,())
    | _, _ => none

def spawned : Thread → cell.Worker
  | .producer => .producer
  | .consumer i => if i < cell.consumers.toNat then .consumer else .unused

/-- The threads of the cell around a new engine. -/
abbrev system : System Thread (Deed.Result (Engine.object cell.capacity BTreeBook).Call
    (Engine.object cell.capacity BTreeBook).Out Act.Result) :=
  clients (Engine.system cell.capacity BTreeBook) handshake Handshake.new cell.worker cell.spawned

end Cell

/-- `CellResult`, less its two rates, which are computed from the active time. -/
structure CellResult (H : Histogram) where
  e2e : Recorder H
  active : UInt64
  totalDeliveries : UInt64
  totalOverruns : UInt64
  totalSkipped : UInt64

section Collect
variable {H : Histogram}

/-- `none` if the histograms cannot be merged. -/
def CellResult.add (c : CellResult H) (st : ConsumerStats H) : Option (CellResult H) :=
  (c.e2e.merge st.e2e).map fun e2e => { c with
    totalDeliveries := c.totalDeliveries+st.deliveries
    totalOverruns := c.totalOverruns+st.overruns
    totalSkipped := c.totalSkipped+st.skipped
    e2e }

end Collect
end LowLatencyLob.Bench
