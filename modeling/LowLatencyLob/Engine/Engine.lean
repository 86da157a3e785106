import LowLatencyLob.Engine.Pack
import LowLatencyLob.Sync.SeqLock

/-! The engine: one producer applies events to its book, publishes the top of the book
and broadcasts the events; its consumers poll the broadcast and take snapshots.

The top of the book goes through a seqlock and the events through a ring; the code of
both runs here over the atomics of the two together. -/
namespace LowLatencyLob.Engine
open Book Concurrency
open SeqLock (TopOfBook)
open LowLatencyLob.Ring (Capacity Thread)

/-- The atomics of an engine: those of the cell `top`, and those of the ring. -/
inductive Loc (C : Capacity)
  | top (l : SeqLock.Loc)
  | out (l : Ring.Loc C W)
  deriving DecidableEq

abbrev Val {C : Capacity} : Loc C → Type
  | .top l => SeqLock.Val l
  | .out l => Ring.Val l

abbrev Code (C : Capacity) := Atomic (Val (C := C))

section Parts
variable {C : Capacity} {α : Type}

def topAccess : Access SeqLock.Val → Access (Val (C := C))
  | .load l o => .load (.top l) o
  | .store l v o => .store (.top l) v o
  | .fence o => .fence o

def topResult : (a : Access SeqLock.Val) → (topAccess (C := C) a).Result → a.Result
  | .load _ _, r => r
  | .store _ _ _, r => r
  | .fence _, r => r

def outAccess : Access (Ring.Val (C := C) (W := W)) → Access (Val (C := C))
  | .load l o => .load (.out l) o
  | .store l v o => .store (.out l) v o
  | .fence o => .fence o

def outResult : (a : Access (Ring.Val (C := C) (W := W))) → (outAccess a).Result → a.Result
  | .load _ _, r => r
  | .store _ _ _, r => r
  | .fence _, r => r

/-- Code of the cell, over the atomics of the engine. -/
def onTop (p : SeqLock.Code α) : Code C α := p.lift topAccess topResult

/-- Code of the ring, over the atomics of the engine. -/
def onRing (p : Ring.Code C W α) : Code C α := p.lift outAccess outResult

end Parts

/-- `EngineProducer`, less its handles on the cell and the ring. -/
structure Producer (B : Type) where
  book : B
  stamp : UInt64

/-- `EngineConsumer`, less its handles on the cell and the ring. -/
structure Consumer where
  /-- The position that its inbox reads next. -/
  cursor : ℕ
  /-- Events cleanly delivered so far. -/
  seen : UInt64
  resyncs : UInt64
  /-- The mid-price of the newest overrun's snapshot. -/
  lastMid : Int64
  deriving DecidableEq

/-- What one `poll` observed. -/
inductive Observed
  | event (ev : BookEvent)
  | overrun (skipped : ℕ) (snapshot : TopOfBook)
  | idle
  deriving DecidableEq

section Methods
variable {B : Type} [OrderBook B] {C : Capacity}

/-- The top of a book, zeros for an empty side; `none` if the book panics. -/
def topOf (book : B) (stamp : UInt64) : Option TopOfBook := do
  let (bp,bq) := (← OrderBook.bestBid book).getD (0,0)
  let (ap,aq) := (← OrderBook.bestAsk book).getD (0,0)
  return ⟨bp,bq,ap,aq,stamp⟩

/-- One producer step: apply, store the top, push the event. A book that panics does so
before anything is shared, and the call is not made. -/
def process (p : Producer B) (ev : BookEvent) : Option (Code C (Producer B)) :=
  (OrderBook.apply p.book ev).bind fun book =>
    let stamp := p.stamp+1
    (topOf book stamp).map fun t => do
      onTop (SeqLock.store t)
      onRing (Ring.push C (pack ev))
      return ⟨book,stamp⟩

/-- Mint a consumer that joins live. -/
def consumer : Code C Consumer := do
  let cursor ← onRing (Ring.consumer C)
  return ⟨cursor,0,0,0⟩

/-- One consumer step. An error is the panic of its `expect`. -/
def poll (c : Consumer) : Code C (Consumer × Except UnpackError Observed) := do
  let (r,cursor) ← onRing (Ring.tryRecv C c.cursor)
  match r with
  | .item rec =>
    match unpack rec with
    | .ok ev => return ({ c with cursor, seen := c.seen+1 },.ok (.event ev))
    | .error e => return ({ c with cursor },.error e)
  | .overrun skipped =>
    let snap ← onTop SeqLock.load
    return ({ c with cursor, lastMid := (snap.bidPx+snap.askPx)/2, resyncs := c.resyncs+1 },
      .ok (.overrun skipped snap))
  | .empty => return ({ c with cursor },.ok .idle)

def snapshot : Code C TopOfBook := onTop SeqLock.load

end Methods

/-- What a thread holds between calls: the producer, a handle, or a consumer. -/
inductive Holder (B : Type)
  | producer (p : Producer B)
  | handle
  | consumer (c : Consumer)

inductive Call
  | process (ev : BookEvent)
  | consumer
  | poll
  | snapshot

/-- What a call returned; a poll also shows the cursor before and after it. -/
inductive Out
  | processed
  | joined (cursor : ℕ)
  | observed (cursor : ℕ) (r : Except UnpackError Observed) (cursor' : ℕ)
  | snapshot (t : TopOfBook)
  deriving DecidableEq

/-- The snapshot that a call handed back. -/
def Out.taken : Out → Option TopOfBook
  | .snapshot t => some t
  | .observed _ (.ok (.overrun _ t)) _ => some t
  | _ => none

/-- The methods of an engine; a handle mints one consumer, and only the producer processes. -/
abbrev object (C : Capacity) (B : Type) [OrderBook B] : Object (@Access.Result (Loc C) Val) where
  Local := Holder B
  Call := Call
  Out := Out
  code
    | .producer p, .process ev => (process p ev).map fun code => do
      let p ← code
      return (.producer p,.processed)
    | .handle, .consumer => some do
      let c ← consumer
      return (.consumer c,.joined c.cursor)
    | .consumer c, .poll => some do
      let (c',r) ← poll c
      return (.consumer c',.observed c.cursor r c'.cursor)
    | .consumer c, .snapshot => some do
      let t ← snapshot
      return (.consumer c,.snapshot t)
    | _, _ => none

/-- `Engine::new`: a default snapshot, and an empty ring. -/
def new {C : Capacity} : ∀ l : Loc C, Val l
  | .top l => SeqLock.new default l
  | .out l => Ring.init l

def holder (B : Type) [Inhabited B] : Thread → Holder B
  | .producer => .producer ⟨default,0⟩
  | .consumer _ => .handle

end LowLatencyLob.Engine
