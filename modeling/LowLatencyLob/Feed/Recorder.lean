import LowLatencyLob.Book.OrderBook
import LowLatencyLob.Feed.Ticks

/-! The message loop of the recorder: it reconciles a stream of depth diffs with REST
snapshots and emits book events.

JSON values are taken as what their accessors read off them; strings are bytes. -/
namespace LowLatencyLob.Feed
open Book

structure Scales where
  tickSize : List UInt8
  stepSize : List UInt8

structure Snapshot where
  lastUpdateId : UInt64
  bids : List (List UInt8 × List UInt8)
  asks : List (List UInt8 × List UInt8)

/-- An entry of a diff: its price and quantity, where they are strings. -/
abbrev DiffEntry := Option (List UInt8) × Option (List UInt8)

/-- A `depthUpdate` message: the fields that are integers, and the sides that are arrays. -/
structure Diff where
  U : Option UInt64
  u : Option UInt64
  E : Option UInt64
  b : Option (List DiffEntry)
  a : Option (List DiffEntry)

/-- A `trade` message. -/
structure Trade where
  E : Option UInt64
  p : Option (List UInt8)
  q : Option (List UInt8)
  m : Option Bool

/-- A text frame of the stream. -/
inductive Message
  | malformed
  | depthUpdate (diff : Diff)
  | trade (trade : Trade)
  | other

/-- Why recording is given up. -/
inductive RecordError
  | px (px : List UInt8) (e : ConvError)
  | qty (qty : List UInt8) (e : ConvError)
  | tradePx (px : List UInt8) (e : ConvError)
  | tradeQty (qty : List UInt8) (e : ConvError)
  | pxNotString
  | qtyNotString
  | fetch
  deriving DecidableEq

/-- What recording leads to: `none` is a panic. -/
abbrev Record := ExceptT RecordError Option

/-- Convert a string to ticks, and name it in the error. -/
def ticks (s unit : List UInt8) (e : List UInt8 → ConvError → RecordError) : Record Int64 :=
  ExceptT.adapt (e s) (toTicks s unit)

structure Emitter where
  events : List BookEvent
  seq : UInt64

namespace Emitter

/-- Push an event under the next sequence number. -/
def push (em : Emitter) (ev : UInt64 → BookEvent) : Emitter := ⟨em.events ++ [ev em.seq],em.seq+1⟩

def level (scales : Scales) (em : Emitter) (tsMs : UInt64) (side : Side) (px qty : List UInt8) :
    Record Emitter := do
  let px ← ticks px scales.tickSize .px
  let qty ← ticks qty scales.stepSize .qty
  return em.push fun seq => .level seq (tsMs*1000000) side px qty

def trade (scales : Scales) (em : Emitter) (tsMs : UInt64) (aggressor : Side) (px qty : List UInt8) :
    Record Emitter := do
  let px ← ticks px scales.tickSize .tradePx
  let qty ← ticks qty scales.stepSize .tradeQty
  return em.push fun seq => .trade seq (tsMs*1000000) aggressor px qty

/-- Push the levels of one side of a snapshot. -/
def seedSide (scales : Scales) (em : Emitter) (side : Side) (levels : List (List UInt8 × List UInt8)) :
    Record Emitter :=
  levels.foldlM (fun em y => em.level scales 0 side y.1 y.2) em

/-- Reset to empty, then seed from a REST snapshot, bids first. -/
def seedSnapshot (scales : Scales) (em : Emitter) (snap : Snapshot) : Record Emitter := do
  let em := em.push fun seq => .clear seq 0
  let em ← em.seedSide scales .bid snap.bids
  em.seedSide scales .ask snap.asks

end Emitter

/-- The strings of an entry. -/
def readEntry (entry : DiffEntry) : Record (List UInt8 × List UInt8) :=
  match entry with
  | (none,_) => throw .pxNotString
  | (some _,none) => throw .qtyNotString
  | (some px,some qty) => return (px,qty)

/-- Push the entries of one side of a diff, if it is an array. -/
def applySide (scales : Scales) (em : Emitter) (eMs : UInt64) (side : Side) :
    Option (List DiffEntry) → Record Emitter
  | none => return em
  | some arr => arr.foldlM (fun em entry => do
    let (px,qty) ← readEntry entry
    em.level scales eMs side px qty) em

/-- Apply the entries of one `depthUpdate` as absolute level updates, bids first. -/
def applyDiff (scales : Scales) (em : Emitter) (eMs : UInt64) (diff : Diff) : Record Emitter := do
  let em ← applySide scales em eMs .bid diff.b
  applySide scales em eMs .ask diff.a

/-- The state of the message loop. -/
structure Recorder where
  em : Emitter
  lastUpdateId : UInt64
  prevU : UInt64
  synced : Bool

structure Cli where
  maxEvents : Option UInt64
  withTrades : Bool

/-- One turn of the loop: the message received, and what a fetch during the turn gets,
`none` when it fails. -/
structure Input where
  message : Message
  response : Option Snapshot

/-- What the loop does about a message. -/
inductive Action
  /-- On to the next message. -/
  | skip
  | apply (uFirst u eMs : UInt64) (diff : Diff)
  | resnapshot
  | trade (eMs : UInt64) (aggressor : Side) (px qty : List UInt8)
  /-- Nothing but the check at the end of the turn. -/
  | pass

def onDepth (s : Recorder) (diff : Diff) : Action :=
  match diff.u, diff.U, diff.E with
  | some u, some uFirst, some eMs =>
    if s.synced then
      if uFirst = s.prevU+1 then .apply uFirst u eMs diff else .resnapshot
    else if u ≤ s.lastUpdateId then .skip
    else if uFirst ≤ s.lastUpdateId+1 ∧ s.lastUpdateId < u then .apply uFirst u eMs diff
    else .resnapshot
  | _, _, _ => .skip

def onTrade (trade : Trade) : Action :=
  match trade.E, trade.p, trade.q with
  | some eMs, some px, some qty => .trade eMs (if trade.m.getD false then .ask else .bid) px qty
  | _, _, _ => .skip

def onMessage (cli : Cli) (s : Recorder) : Message → Action
  | .malformed => .skip
  | .depthUpdate diff => onDepth s diff
  | .trade trade => if cli.withTrades then onTrade trade else .pass
  | .other => .pass

/-- Fetch a snapshot and seed the book from it. -/
def resnapshot (scales : Scales) (em : Emitter) : Option Snapshot → Record (Emitter × UInt64)
  | none => throw .fetch
  | some snap => do
    let em ← em.seedSnapshot scales snap
    return (em,snap.lastUpdateId)

def act (scales : Scales) (s : Recorder) (response : Option Snapshot) : Action → Record Recorder
  | .skip => return s
  | .apply _ u eMs diff => do
    let em ← applyDiff scales s.em eMs diff
    return { s with em, prevU := u, synced := true }
  | .resnapshot => do
    let (em,lastUpdateId) ← resnapshot scales s.em response
    return { s with em, lastUpdateId, synced := false }
  | .trade eMs aggressor px qty => do
    let em ← s.em.trade scales eMs aggressor px qty
    return { s with em }
  | .pass => return s

/-- Whether the loop ends after a turn. -/
def reached (cli : Cli) (s : Recorder) : Action → Bool
  | .skip => false
  | _ => cli.maxEvents.any fun max => max ≤ s.em.seq

/-- The message loop; it may end after any message, by the deadline or a signal. -/
def loop (cli : Cli) (scales : Scales) (s : Recorder) : List Input → Record Recorder
  | [] => return s
  | i :: is => do
    let action := onMessage cli s i.message
    let s ← act scales s i.response action
    if reached cli s action then return s else loop cli scales s is

/-- Seed the book, then process messages. -/
def run (cli : Cli) (scales : Scales) (first : Option Snapshot) (is : List Input) : Record Recorder := do
  let (em,lastUpdateId) ← resnapshot scales ⟨[],0⟩ first
  loop cli scales ⟨em,lastUpdateId,0,false⟩ is

end LowLatencyLob.Feed
