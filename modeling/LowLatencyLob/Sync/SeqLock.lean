import LowLatencyLob.Concurrency.Machine
import Mathlib.Algebra.Group.Nat.Defs

/-! The single-writer seqlock over a top-of-book snapshot: `store` and `load_counted`
with the atomic accesses, the orderings and the step names of the source. -/
namespace LowLatencyLob.SeqLock
open Concurrency

/-- The value a reader receives. -/
structure TopOfBook where
  bidPx : Int64
  bidQty : Int64
  askPx : Int64
  askQty : Int64
  stamp : UInt64
  deriving DecidableEq, Repr

/-- `#[derive(Default)]`: all fields zero. -/
instance : Inhabited TopOfBook := ⟨⟨0,0,0,0,0⟩⟩

/-- The atomics of a cell: the version counter and the five payload fields. -/
inductive Loc
  | seq
  | bidPx
  | bidQty
  | askPx
  | askQty
  | stamp
  deriving DecidableEq

/-- The version is a `u32` counter, kept as a number below `2^32`. -/
abbrev Val : Loc → Type
  | .seq => ℕ
  | .bidPx => Int64
  | .bidQty => Int64
  | .askPx => Int64
  | .askQty => Int64
  | .stamp => UInt64

abbrev Code := Atomic Val

def Loc.load (l : Loc) (o : LoadOrder) : Code (Val l) := Concurrency.load l o
def Loc.store (l : Loc) (v : Val l) (o : StoreOrder) : Code Unit := Concurrency.store l v o
def fence (o : FenceOrder) : Code Unit := Concurrency.fence o

/-- A cell pre-loaded with `init`, its version even. -/
def new (init : TopOfBook) : ∀ l, Val l
  | .seq => (0 : ℕ)
  | .bidPx => init.bidPx
  | .bidQty => init.bidQty
  | .askPx => init.askPx
  | .askQty => init.askQty
  | .stamp => init.stamp

def store (t : TopOfBook) : Code Unit := do
  let s ← Loc.seq.load .relaxed
  Loc.seq.store ((s+1) % 2^32) .relaxed
  fence .release                          -- (W1)
  Loc.bidPx.store t.bidPx .relaxed
  Loc.bidQty.store t.bidQty .relaxed
  Loc.askPx.store t.askPx .relaxed
  Loc.askQty.store t.askQty .relaxed
  Loc.stamp.store t.stamp .relaxed
  Loc.seq.store ((s+2) % 2^32) .release   -- (W2)

/-- The payload loads of a pass, in field order. -/
def loadPayload : Code TopOfBook := do
  let bidPx ← Loc.bidPx.load .relaxed
  let bidQty ← Loc.bidQty.load .relaxed
  let askPx ← Loc.askPx.load .relaxed
  let askQty ← Loc.askQty.load .relaxed
  let stamp ← Loc.stamp.load .relaxed
  return ⟨bidPx,bidQty,askPx,askQty,stamp⟩

/-- `retries.saturating_add(1)` at `u32`. -/
def retry (retries : ℕ) : ℕ := min (retries+1) (2^32-1)

/-- One optimistic pass: it accepts the snapshot it took, or asks for another pass. -/
def pass (retries : ℕ) : Code (ℕ ⊕ TopOfBook × ℕ) := do
  let s₁ ← Loc.seq.load .acquire          -- (R1)
  if s₁ &&& 1 = 0 then
    let t ← loadPayload
    fence .acquire                        -- (R2)
    let s₂ ← Loc.seq.load .relaxed
    if s₁ = s₂ then return .inr (t,retries) else return .inl (retry retries)
  else return .inl (retry retries)

/-- A consistent snapshot, and how many times it had to be retried. -/
def loadCounted : Code (TopOfBook × ℕ) := .loop 0 pass .done

def load : Code TopOfBook := do
  let (t,_) ← loadCounted
  return t

/-- The one thread that stores, and any number that load. -/
inductive Thread
  | writer
  | reader (i : ℕ)
  deriving DecidableEq

inductive Call
  | store (t : TopOfBook)
  | load
  | loadCounted

inductive Out
  | stored
  | loaded (t : TopOfBook)
  | loadedCounted (t : TopOfBook) (retries : ℕ)
  deriving DecidableEq

/-- The snapshot that a call handed back. -/
def Out.snapshot : Out → Option TopOfBook
  | .stored => none
  | .loaded t => some t
  | .loadedCounted t _ => some t

/-- Which of the two sides of the cell a thread is on. -/
inductive Role
  | writer
  | reader
  deriving DecidableEq

/-- The methods of a cell under the single-writer contract. -/
abbrev object : Object (@Access.Result _ Val) where
  Local := Role
  Call := Call
  Out := Out
  code
    | .writer, .store t => some do
      store t
      return (.writer,.stored)
    | .reader, .load => some do
      let t ← load
      return (.reader,.loaded t)
    | .reader, .loadCounted => some do
      let (t,retries) ← loadCounted
      return (.reader,.loadedCounted t retries)
    | _, _ => none

def role : Thread → Role
  | .writer => .writer
  | .reader _ => .reader

end LowLatencyLob.SeqLock
