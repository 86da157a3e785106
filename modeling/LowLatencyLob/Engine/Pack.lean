import LowLatencyLob.Book.OrderBook
import LowLatencyLob.Sync.Ring
import Mathlib.Data.Fin.VecNotation
import Mathlib.Tactic.FinCases
import Mathlib.Tactic.IntervalCases

/-! Packing of a `BookEvent` into the words of a ring record, and back. -/
namespace LowLatencyLob.Engine
open Book

/-- Words per ring record. -/
abbrev W : ℕ := 5

/-- `side as u64` -/
def sideBits : Side → UInt64
  | .bid => 0
  | .ask => 1

/-- `kind as u64` -/
def kindBits : EventKind → UInt64
  | .level => 0
  | .trade => 1
  | .clear => 2

/-- The words `[seq, ts, px, qty, side | (kind << 8)]`. -/
def pack (ev : BookEvent) : Ring.Record W :=
  ![ev.seq,ev.ts,ev.px.toUInt64,ev.qty.toUInt64,sideBits ev.side ||| (kindBits ev.kind <<< 8)]

/-- An out-of-range discriminant. -/
inductive UnpackError
  | badSide (b : UInt64)
  | badKind (b : UInt64)
  deriving DecidableEq, Repr

/-- The low byte of the discriminant word, validated. -/
def unpackSide (word : UInt64) : Except UnpackError Side :=
  match word &&& 0xFF with
  | 0 => .ok .bid
  | 1 => .ok .ask
  | b => .error (.badSide b)

/-- The byte above it. -/
def unpackKind (word : UInt64) : Except UnpackError EventKind :=
  match (word >>> 8) &&& 0xFF with
  | 0 => .ok .level
  | 1 => .ok .trade
  | 2 => .ok .clear
  | b => .error (.badKind b)

def unpack (rec : Ring.Record W) : Except UnpackError BookEvent := do
  let side ← unpackSide (rec 4)
  let kind ← unpackKind (rec 4)
  return ⟨rec 0,rec 1,(rec 2).toInt64,(rec 3).toInt64,side,kind⟩

theorem unpackSide_bits (side : Side) (kind : EventKind) :
    unpackSide (sideBits side ||| (kindBits kind <<< 8)) = .ok side := by
  cases side <;> cases kind <;> rfl

theorem unpackKind_bits (side : Side) (kind : EventKind) :
    unpackKind (sideBits side ||| (kindBits kind <<< 8)) = .ok kind := by
  cases side <;> cases kind <;> rfl

/-- Every packed event unpacks to itself, in all fields. -/
theorem unpack_pack (ev : BookEvent) : unpack (pack ev) = .ok ev := by
  have hword : pack ev 4 = sideBits ev.side ||| (kindBits ev.kind <<< 8) := rfl
  unfold unpack
  rw [hword, unpackSide_bits, unpackKind_bits]
  rfl

section Exact
variable {word : UInt64} {rec : Ring.Record W}

theorem unpackSide_ok {side : Side} : unpackSide word = .ok side ↔ word &&& 0xFF = sideBits side := by
  unfold unpackSide
  constructor
  · intro h
    split at h
    · cases h
      assumption
    · cases h
      assumption
    · cases h
  · intro h
    rw [h]
    cases side <;> rfl

theorem unpackKind_ok {kind : EventKind} :
    unpackKind word = .ok kind ↔ (word >>> 8) &&& 0xFF = kindBits kind := by
  unfold unpackKind
  constructor
  · intro h
    split at h
    · cases h
      assumption
    · cases h
      assumption
    · cases h
      assumption
    · cases h
  · intro h
    rw [h]
    cases kind <;> rfl

/-- A word splits into its two low bytes and the bits past them. -/
theorem word_bytes (word : UInt64) :
    word.toNat = (word &&& 0xFF).toNat + 256*((word >>> 8) &&& 0xFF).toNat + 65536*(word >>> 16).toNat := by
  have hmask : (255 : ℕ) = 2^8-1 := rfl
  simp only [UInt64.toNat_and, UInt64.toNat_shiftRight, UInt64.reduceToNat, Nat.reduceMod, hmask,
    Nat.and_two_pow_sub_one_eq_mod, Nat.shiftRight_eq_div_pow]
  omega

theorem packed_toNat (side : Side) (kind : EventKind) :
    (sideBits side ||| (kindBits kind <<< 8)).toNat = (sideBits side).toNat + 256*(kindBits kind).toNat := by
  cases side <;> cases kind <;> rfl

/-- A word whose bytes are discriminants is the packed one, if no bit is set past them. -/
theorem word_eq_iff {side : Side} {kind : EventKind} (hs : word &&& 0xFF = sideBits side)
    (hk : (word >>> 8) &&& 0xFF = kindBits kind) :
    word = sideBits side ||| (kindBits kind <<< 8) ↔ word >>> 16 = 0 := by
  have hbytes := word_bytes word
  rw [hs, hk] at hbytes
  rw [← UInt64.toNat_inj, ← UInt64.toNat_inj, packed_toNat, hbytes, UInt64.toNat_zero]
  omega

theorem unpack_ok {ev : BookEvent} : unpack rec = .ok ev ↔
    rec 0 = ev.seq ∧ rec 1 = ev.ts ∧ (rec 2).toInt64 = ev.px ∧ (rec 3).toInt64 = ev.qty ∧
      rec 4 &&& 0xFF = sideBits ev.side ∧ (rec 4 >>> 8) &&& 0xFF = kindBits ev.kind := by
  rw [← unpackSide_ok, ← unpackKind_ok]
  unfold unpack
  cases unpackSide (rec 4) with
  | error e => simp [bind, Except.bind]
  | ok side =>
    cases unpackKind (rec 4) with
    | error e => simp [bind, Except.bind]
    | ok kind =>
      obtain ⟨seq,ts,px,qty,side',kind'⟩ := ev
      simp [bind, Except.bind, pure, Except.pure]

/-- What unpacks is packed back to the same record, if no bit of its last word is set past
the two discriminants. -/
theorem pack_eq_iff {ev : BookEvent} (h : unpack rec = .ok ev) : pack ev = rec ↔ rec 4 >>> 16 = 0 := by
  obtain ⟨hseq,hts,hpx,hqty,hs,hk⟩ := unpack_ok.mp h
  rw [← word_eq_iff hs hk]
  constructor
  · rintro rfl
    rfl
  · intro hword
    funext k
    fin_cases k
    · exact hseq.symm
    · exact hts.symm
    · exact congrArg Int64.toUInt64 hpx.symm
    · exact congrArg Int64.toUInt64 hqty.symm
    · exact hword.symm

theorem sideBits_le (side : Side) : sideBits side ≤ 1 := by
  cases side <;> decide

theorem kindBits_le (kind : EventKind) : kindBits kind ≤ 2 := by
  cases kind <;> decide

theorem exists_sideBits {b : UInt64} (h : b ≤ 1) : ∃ side, b = sideBits side := by
  have hle : b.toNat ≤ 1 := UInt64.le_iff_toNat_le.mp h
  interval_cases hb : b.toNat
  · exact ⟨.bid,UInt64.toNat_inj.mp hb⟩
  · exact ⟨.ask,UInt64.toNat_inj.mp hb⟩

theorem exists_kindBits {b : UInt64} (h : b ≤ 2) : ∃ kind, b = kindBits kind := by
  have hle : b.toNat ≤ 2 := UInt64.le_iff_toNat_le.mp h
  interval_cases hb : b.toNat
  · exact ⟨.level,UInt64.toNat_inj.mp hb⟩
  · exact ⟨.trade,UInt64.toNat_inj.mp hb⟩
  · exact ⟨.clear,UInt64.toNat_inj.mp hb⟩

/-- A record is taken for the event it was packed from, and a record that was not packed
from an event is rejected. -/
def Exact (rec : Ring.Record W) : Prop :=
  (∀ ev, unpack rec = .ok ev → pack ev = rec) ∧ ((∀ ev, pack ev ≠ rec) → ∃ e, unpack rec = .error e)

/-- A discriminant of the record is out of range. -/
def OutOfRange (rec : Ring.Record W) : Prop :=
  (1 : UInt64) < rec 4 &&& 0xFF ∨ (2 : UInt64) < (rec 4 >>> 8) &&& 0xFF

theorem error_iff : (∃ e, unpack rec = .error e) ↔ OutOfRange rec := by
  unfold OutOfRange
  constructor
  · intro ⟨e,he⟩
    by_contra hin
    rw [not_or, UInt64.not_lt, UInt64.not_lt] at hin
    obtain ⟨side,hs⟩ := exists_sideBits hin.1
    obtain ⟨kind,hk⟩ := exists_kindBits hin.2
    have hok : unpack rec = .ok ⟨rec 0,rec 1,(rec 2).toInt64,(rec 3).toInt64,side,kind⟩ :=
      unpack_ok.mpr ⟨rfl,rfl,rfl,rfl,hs,hk⟩
    rw [hok] at he
    cases he
  · intro hout
    cases h : unpack rec with
    | error e => exact ⟨e,rfl⟩
    | ok ev =>
      obtain ⟨_,_,_,_,hs,hk⟩ := unpack_ok.mp h
      rw [hs, hk] at hout
      rcases hout with hout | hout
      · exact absurd hout (UInt64.not_lt.mpr (sideBits_le ev.side))
      · exact absurd hout (UInt64.not_lt.mpr (kindBits_le ev.kind))

/-- Every event survives packing. Unpacking is exact on the records whose last word has no
bit set past the two discriminants, and on those with a discriminant out of range. -/
theorem pack_exact_iff (ev : BookEvent) (rec : Ring.Record W) :
    unpack (pack ev) = .ok ev ∧ (Exact rec ↔ rec 4 >>> 16 = 0 ∨ OutOfRange rec) := by
  refine ⟨unpack_pack ev,?_⟩
  cases h : unpack rec with
  | error e =>
    have hout : OutOfRange rec := error_iff.mp ⟨e,h⟩
    have hexact : Exact rec := by
      refine ⟨fun ev hev => ?_,fun _ => ⟨e,h⟩⟩
      rw [h] at hev
      cases hev
    exact ⟨fun _ => .inr hout,fun _ => hexact⟩
  | ok ev =>
    have hin : ¬OutOfRange rec := by
      intro hout
      obtain ⟨e,he⟩ := error_iff.mpr hout
      rw [h] at he
      cases he
    rw [or_iff_left hin, ← pack_eq_iff h]
    constructor
    · exact fun hexact => hexact.1 ev h
    · intro hpack
      refine ⟨fun ev' hev' => ?_,fun hnone => absurd hpack (hnone ev)⟩
      rw [h] at hev'
      cases hev'
      exact hpack

/-- A bit set past the discriminants goes unnoticed. -/
theorem dirty_word_unpacks : unpack ![0,0,0,0,65536] = .ok (.level 0 0 .bid 0 0) ∧
    ∀ ev, pack ev ≠ ![0,0,0,0,65536] := by
  have hok : unpack ![0,0,0,0,65536] = .ok (.level 0 0 .bid 0 0) := rfl
  refine ⟨hok,fun ev hev => ?_⟩
  have hback := unpack_pack ev
  rw [hev, hok] at hback
  cases hback
  exact absurd (congrFun hev 4) (by decide)

end Exact
end LowLatencyLob.Engine
