import LowLatencyLob.Sequence.Decimal
import Mathlib.Data.Int.Order.Basic

/-! The conversion of decimal strings to integer ticks, in checked 128-bit arithmetic.

A `&str` is its bytes, and an `i128` an integer of which every operation is checked. -/
namespace LowLatencyLob.Feed
open Sequence

inductive ConvError
  | notDecimal
  | offTickGrid
  | overflow
  deriving DecidableEq, Repr

/-- What a conversion leads to: `none` is a panic. -/
abbrev Conv := ExceptT ConvError Option

/-- An `i128`, if it fits. -/
def checked (x : ℤ) : Option ℤ := if -2^127 ≤ x ∧ x < 2^127 then some x else none

/-- `ok_or(ConvError::Overflow)` -/
def orOverflow {α : Type} : Option α → Conv α
  | some x => pure x
  | none => throw .overflow

/-- `10_i128.checked_pow(u32::try_from(d)?)` -/
def checkedPow (d : ℕ) : Option ℤ := if d < 2^32 then checked (10^d) else none

/-- `str::parse` of digits to an `i128`. -/
def parse (s : List UInt8) : Option ℤ :=
  s.foldlM (fun x b => do checked ((← checked (x*10))+digit b)) 0

/-- The value of a run of digits, zero of an empty one. -/
def parsePart (s : List UInt8) : Option ℤ := if s = [] then some 0 else parse s

/-- `%`, which panics on zero and where `/` overflows. -/
def rem (v t : ℤ) : Option ℤ := if t = 0 ∨ (v = -2^127 ∧ t = -1) then none else some (v.tmod t)

/-- `/`, which panics on zero and on overflow. -/
def div (v t : ℤ) : Option ℤ := if t = 0 then none else checked (v.tdiv t)

/-- `i64::try_from` -/
def tryFrom (q : ℤ) : Option Int64 := if -2^63 ≤ q ∧ q < 2^63 then some (Int64.ofInt q) else none

/-- Number of fractional digits in a decimal string. -/
def fracDigits (s : List UInt8) : ℕ := ((splitOnce point s).map fun x => x.2.length).getD 0

/-- Parse a decimal string into an `i128` scaled by `10^d`. -/
def scaleToInt (s : List UInt8) (d : ℕ) : Conv ℤ := do
  let (neg,body) := splitSign s
  let (int,frac) := splitPoint body
  if int = [] ∧ frac = [] then
    throw .notDecimal
  if ¬ int.all isDigit ∨ ¬ frac.all isDigit ∨ d < frac.length then
    throw .notDecimal
  let scale ← orOverflow (checkedPow d)
  let intVal ← orOverflow (parsePart int)
  let fracVal ← orOverflow (parsePart frac)
  let pad ← orOverflow (checkedPow (d-frac.length))
  let magnitude ← orOverflow ((checked (intVal*scale)).bind fun x =>
    (checked (fracVal*pad)).bind fun y => checked (x+y))
  if neg then checked (-magnitude) else return magnitude

/-- The rest of `to_ticks`, once both strings are scaled. -/
def divide (v t : ℤ) : Conv Int64 := do
  if t = 0 then
    throw .offTickGrid
  if (← rem v t) ≠ 0 then
    throw .offTickGrid
  orOverflow (tryFrom (← div v t))

/-- `value / tick` as an exact integer count. -/
def toTicks (value tick : List UInt8) : Conv Int64 := do
  let d := max (fracDigits value) (fracDigits tick)
  let v ← scaleToInt value d
  let t ← scaleToInt tick d
  divide v t

/-- `s.bytes()` -/
def bytes (s : String) : List UInt8 := s.toUTF8.data.toList

example : (toTicks (bytes "-1.50") (bytes ".250")).run = some (.ok (-6)) := by decide

end LowLatencyLob.Feed
