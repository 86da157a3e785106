import LowLatencyLob.Concurrency.Machine
import Mathlib.Data.List.FinRange
import Mathlib.Data.Nat.Bitwise
import Mathlib.Data.Fintype.Pi
import Mathlib.Data.Nat.ModEq

/-! The single-producer broadcast ring: `push`, `try_recv` and `resync` with the
atomic accesses, the orderings and the step names of the source. -/
namespace LowLatencyLob.Ring
open Concurrency

/-- High bit of a stamp: set while a slot is mid-overwrite. -/
def WRITING : ℕ := 2^63

/-- Stamp of a slot that was never written. -/
def EMPTY : ℕ := 2^64-1

/-- The fixed part of a ring. A value exists only past the assertion of
`with_capacity` that the number of slots is a power of two. -/
structure Capacity where
  slots : ℕ
  isPowerOfTwo : ∃ k, slots = 2^k

namespace Capacity

def withCapacity (cap : ℕ) : Option Capacity :=
  if h : cap = 2^(Nat.log2 cap) then some ⟨cap,⟨_,h⟩⟩ else none

variable (C : Capacity)

def mask : ℕ := C.slots-1

theorem slots_pos : 0 < C.slots := by
  obtain ⟨k,hk⟩ := C.isPowerOfTwo
  rw [hk]
  exact Nat.two_pow_pos k

/-- `(p & mask) as usize`, which always indexes a slot. -/
def slotOf (p : ℕ) : Fin C.slots :=
  ⟨p &&& C.mask, by
    have h : p &&& C.mask ≤ C.mask := Nat.and_le_right
    have hpos := C.slots_pos
    unfold mask at h ⊢
    omega⟩

/-- Masking by a power of two less one is a remainder. -/
theorem slotOf_val (p : ℕ) : (C.slotOf p).val = p % C.slots := by
  obtain ⟨k,hk⟩ := C.isPowerOfTwo
  simp only [slotOf, mask, hk, Nat.and_two_pow_sub_one_eq_mod]

theorem slotOf_eq_iff (p q : ℕ) : C.slotOf p = C.slotOf q ↔ p % C.slots = q % C.slots := by
  rw [Fin.ext_iff, slotOf_val, slotOf_val]

/-- Two positions share a slot only when they are a multiple of the lap apart. -/
theorem add_slots_le {c p : ℕ} (h : C.slotOf c = C.slotOf p) (hlt : c < p) : c+C.slots ≤ p := by
  have hm := (C.slotOf_eq_iff c p).mp h
  have hd : C.slots ∣ p-c := (Nat.modEq_iff_dvd' hlt.le).mp hm
  have hle := Nat.le_of_dvd (by omega) hd
  omega

end Capacity

/-- A ring of one slot. -/
def oneSlot : Capacity := ⟨1,⟨0,rfl⟩⟩

def twoSlots : Capacity := ⟨2,⟨1,rfl⟩⟩

/-- The payload of one slot, `[u64; W]`. -/
abbrev Record (W : ℕ) := Fin W → UInt64

/-- A record of two words, for position `p`. -/
def numbered (p : ℕ) : Record 2 := fun k => .ofNat (10*p+k)

/-- The atomics of a ring: a stamp and `W` words for each slot, and the write position. -/
inductive Loc (C : Capacity) (W : ℕ)
  | stamp (i : Fin C.slots)
  | word (i : Fin C.slots) (k : Fin W)
  | write
  deriving DecidableEq

/-- Stamps and positions are `u64` counters, kept as numbers below `2^64`. -/
abbrev Val {C : Capacity} {W : ℕ} : Loc C W → Type
  | .stamp _ => ℕ
  | .word _ _ => UInt64
  | .write => ℕ

/-- The outcome of one `try_recv`. -/
inductive Recv (W : ℕ)
  | item (rec : Record W)
  | empty
  | overrun (skipped : ℕ)
  deriving DecidableEq

abbrev Code (C : Capacity) (W : ℕ) := Atomic (Val (C := C) (W := W))

section Code
variable {C : Capacity} {W : ℕ}

def load (l : Loc C W) (o : LoadOrder) : Code C W (Val l) := Concurrency.load l o
def store (l : Loc C W) (v : Val l) (o : StoreOrder) : Code C W Unit := Concurrency.store l v o
def fence (o : FenceOrder) : Code C W Unit := Concurrency.fence o

variable (C)

/-- (P2) The `Relaxed` word stores, in index order. -/
def storeWords (slot : Fin C.slots) (rec : Record W) : List (Fin W) → Code C W Unit
  | [] => pure ()
  | k :: ks => do
    store (.word slot k) (rec k) .relaxed
    storeWords slot rec ks

def push (rec : Record W) : Code C W Unit := do
  let p ← load .write .relaxed
  let slot := C.slotOf p
  store (.stamp slot) (p ||| WRITING) .relaxed    -- (P1)
  fence .release
  storeWords C slot rec (List.finRange W)         -- (P2)
  store (.stamp slot) p .release                  -- (P3)
  store .write ((p+1) % 2^64) .release            -- (P4)

/-- A consumer that joins live. -/
def consumer : Code C W ℕ := load .write .acquire

/-- A consumer that starts at the oldest resident record; subtraction saturates. -/
def consumerFromOldest : Code C W ℕ := do
  let w ← load .write .acquire
  return w-C.slots

/-- Jump to the oldest record still resident, with the number of positions skipped. -/
def resync (cursor : ℕ) : Code C W (Recv W × ℕ) := do
  let w ← load .write .acquire
  let oldest := w-C.slots
  let skipped := oldest-cursor
  return (.overrun skipped, oldest)

/-- (R2) The `Relaxed` word loads, in index order, into `rec`. -/
def loadWords (slot : Fin C.slots) : List (Fin W) → Record W → Code C W (Record W)
  | [], rec => pure rec
  | k :: ks, rec => do
    let v ← load (.word slot k) .relaxed
    loadWords slot ks (Function.update rec k v)

/-- One `try_recv` at `cursor`: the outcome and the cursor it leaves. -/
def tryRecv (cursor : ℕ) : Code C W (Recv W × ℕ) := do
  let w ← load .write .acquire                    -- (R0)
  if cursor ≥ w then
    return (.empty, cursor)
  let slot := C.slotOf cursor
  let s₁ ← load (.stamp slot) .acquire            -- (R1)
  if s₁ ≠ cursor then
    return ← resync C cursor
  let rec ← loadWords C slot (List.finRange W) (fun _ => 0)
  fence .acquire                                  -- (R3)
  let s₂ ← load (.stamp slot) .relaxed
  if s₂ ≠ cursor then
    return ← resync C cursor
  return (.item rec, (cursor+1) % 2^64)

end Code

/-- Who uses a ring: its one producer, and any number of consumers. -/
inductive Thread
  | producer
  | consumer (i : ℕ)
  deriving DecidableEq

/-- What a thread holds between calls: the `Producer`, a `RingHandle`, or a
`Consumer` with its private cursor. -/
inductive Holder
  | producer
  | handle
  | consumer (cursor : ℕ)
  deriving DecidableEq

inductive Call (W : ℕ)
  | push (rec : Record W)
  | consumer
  | consumerFromOldest
  | tryRecv

/-- What a call returned; a receive also shows the cursor before and after it. -/
inductive Out (W : ℕ)
  | pushed
  | joined (cursor : ℕ)
  | received (cursor : ℕ) (r : Recv W) (cursor' : ℕ)
  deriving DecidableEq

/-- The methods of a ring; a handle mints one consumer, and only a producer pushes. -/
abbrev object (C : Capacity) (W : ℕ) : Object (@Access.Result (Loc C W) Val) where
  Local := Holder
  Call := Call W
  Out := Out W
  code
    | .producer, .push rec => some do
      push C rec
      return (.producer, .pushed)
    | .handle, .consumer => some do
      let cursor ← consumer C
      return (.consumer cursor, .joined cursor)
    | .handle, .consumerFromOldest => some do
      let cursor ← consumerFromOldest C
      return (.consumer cursor, .joined cursor)
    | .consumer cursor, .tryRecv => some do
      let (r, cursor') ← tryRecv C cursor
      return (.consumer cursor', .received cursor r cursor')
    | _, _ => none

/-- Untouched slots, and a write position of zero. -/
def init {C : Capacity} {W : ℕ} : ∀ l : Loc C W, Val l
  | .stamp _ => EMPTY
  | .word _ _ => (0 : UInt64)
  | .write => (0 : ℕ)

def holder : Thread → Holder
  | .producer => .producer
  | .consumer _ => .handle

end LowLatencyLob.Ring
