import LowLatencyLob.Book.OrderBook
import LowLatencyLob.Sequence.Bytes

/-! The binary corpus: a header of 32 bytes, and one record of 40 bytes for each event,
all little-endian. -/
namespace LowLatencyLob.Feed
open Book Sequence

/-- `b"MDFEED\0\0"` -/
def MAGIC : List UInt8 := [0x4D,0x44,0x46,0x45,0x45,0x44,0,0]

def VERSION : UInt32 := 1
def RECORD_SIZE : ℕ := 40
def HEADER_SIZE : ℕ := 32

/-- Errors from validating a corpus. Lengths are `usize`, which an `u64` holds. -/
inductive CorpusError
  | badMagic
  | unsupportedVersion (version : UInt32)
  | badRecordSize (size : UInt32)
  | truncated (expected found : ℕ)
  | badDiscriminant (record : ℕ) (field : String) (byte : UInt8)
  deriving DecidableEq, Repr

/-- A loaded corpus. -/
structure Corpus where
  events : List BookEvent
  deriving DecidableEq, Repr

/-- What reading a corpus leads to: `none` is a panic. -/
abbrev Read := ExceptT CorpusError Option

section Bytes

/-- Copy a slice into an array of `n` bytes; panics when the lengths differ. -/
def leBytes (n : ℕ) (src : List UInt8) : Option (List.Vector UInt8 n) :=
  if h : src.length = n then some ⟨src,h⟩ else none

/-- `u32::from_le_bytes` -/
def u32FromLE (a : List.Vector UInt8 4) : UInt32 := UInt32.ofNat (ofLE a.toList)

/-- `u64::from_le_bytes` -/
def u64FromLE (a : List.Vector UInt8 8) : UInt64 := UInt64.ofNat (ofLE a.toList)

/-- `i64::from_le_bytes` -/
def i64FromLE (a : List.Vector UInt8 8) : Int64 := (u64FromLE a).toInt64

/-- `to_le_bytes` of an `u32`. -/
def u32ToLE (x : UInt32) : List UInt8 := toLE 4 x.toNat

/-- `to_le_bytes` of an `u64`. -/
def u64ToLE (x : UInt64) : List UInt8 := toLE 8 x.toNat

/-- `to_le_bytes` of an `i64`. -/
def i64ToLE (x : Int64) : List UInt8 := u64ToLE x.toUInt64

end Bytes

def sideFromU8 (b : UInt8) (rec : ℕ) : Except CorpusError Side :=
  match b with
  | 0 => .ok .bid
  | 1 => .ok .ask
  | b => .error (.badDiscriminant rec "side" b)

def kindFromU8 (b : UInt8) (rec : ℕ) : Except CorpusError EventKind :=
  match b with
  | 0 => .ok .level
  | 1 => .ok .trade
  | 2 => .ok .clear
  | b => .error (.badDiscriminant rec "kind" b)

/-- Rebuild an event through its constructors. -/
def eventFromParts (seq ts : UInt64) (side : Side) (px : Px) (qty : Qty) : EventKind → BookEvent
  | .level => .level seq ts side px qty
  | .trade => .trade seq ts side px qty
  | .clear => .clear seq ts

/-- The body of the record loop: read the record of index `recIdx`. -/
def readRecord (rec : List UInt8) (recIdx : ℕ) : Read BookEvent := do
  let seq := u64FromLE (← leBytes 8 (← Slice.range rec 0 8))
  let ts := u64FromLE (← leBytes 8 (← Slice.range rec 8 16))
  let px := i64FromLE (← leBytes 8 (← Slice.range rec 16 24))
  let qty := i64FromLE (← leBytes 8 (← Slice.range rec 24 32))
  let side ← sideFromU8 (← (rec[32]? : Option UInt8)) recIdx
  let kind ← kindFromU8 (← (rec[33]? : Option UInt8)) recIdx
  return eventFromParts seq ts side px qty kind

def readRecords : List (List UInt8) → ℕ → Read (List BookEvent)
  | [], _ => return []
  | rec :: recs, recIdx => do
    let ev ← readRecord rec recIdx
    let evs ← readRecords recs (recIdx+1)
    return ev :: evs

/-- `count.checked_mul(RECORD_SIZE)` -/
def checkedMul (count : UInt64) (n : ℕ) : Option ℕ :=
  if count.toNat*n < 2^64 then some (count.toNat*n) else none

/-- The payload must be as long as the header's count says. -/
def checkPayload (count : UInt64) (payload : List UInt8) : Read Unit :=
  match checkedMul count RECORD_SIZE with
  | none => throw (.truncated (2^64-1) payload.length)
  | some expected =>
    if payload.length ≠ expected then throw (.truncated expected payload.length) else return

/-- Parse and validate the header, then each record. -/
def fromBytes (buf : List UInt8) : Read Corpus := do
  if buf.length < HEADER_SIZE then
    throw (.truncated HEADER_SIZE buf.length)
  if (← Slice.range buf 0 8) ≠ MAGIC then
    throw .badMagic
  let version := u32FromLE (← leBytes 4 (← Slice.range buf 8 12))
  if version ≠ VERSION then
    throw (.unsupportedVersion version)
  let recordSize := u32FromLE (← leBytes 4 (← Slice.range buf 12 16))
  if recordSize.toNat ≠ RECORD_SIZE then
    throw (.badRecordSize recordSize)
  let count := u64FromLE (← leBytes 8 (← Slice.range buf 16 24))
  let payload ← Slice.range buf HEADER_SIZE buf.length
  checkPayload count payload
  let events ← readRecords (chunksExact RECORD_SIZE payload) 0
  return ⟨events⟩

/-- `e.side as u8` -/
def sideByte : Side → UInt8
  | .bid => 0
  | .ask => 1

/-- `e.kind as u8` -/
def kindByte : EventKind → UInt8
  | .level => 0
  | .trade => 1
  | .clear => 2

def writeRecord (e : BookEvent) : List UInt8 :=
  u64ToLE e.seq ++ u64ToLE e.ts ++ i64ToLE e.px ++ i64ToLE e.qty ++ [sideByte e.side,kindByte e.kind] ++
    List.replicate 6 0

/-- The bytes that `write_to` writes. -/
def writeTo (events : List BookEvent) : List UInt8 :=
  MAGIC ++ u32ToLE VERSION ++ u32ToLE (UInt32.ofNat RECORD_SIZE) ++ u64ToLE (UInt64.ofNat events.length) ++
    u64ToLE 0 ++ events.flatMap writeRecord

example : writeTo [] = MAGIC ++ [1,0,0,0,40,0,0,0] ++ List.replicate 16 0 := by decide

end LowLatencyLob.Feed
