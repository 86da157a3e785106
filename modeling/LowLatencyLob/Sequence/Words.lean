import Mathlib.Algebra.Order.Ring.Int
import Mathlib.Tactic.SplitIfs

/-! Signed words of 64 bits whose operations stay in range, and so mean what they mean
for integers. -/
namespace LowLatencyLob.Sequence

variable {a b : Int64}

theorem toInt_add (h : -2^63 ≤ a.toInt+b.toInt) (h' : a.toInt+b.toInt < 2^63) :
    (a+b).toInt = a.toInt+b.toInt := by
  rw [Int64.toInt_add]
  apply Int.bmod_eq_of_le <;> omega

theorem toInt_sub (h : -2^63 ≤ a.toInt-b.toInt) (h' : a.toInt-b.toInt < 2^63) :
    (a-b).toInt = a.toInt-b.toInt := by
  rw [Int64.toInt_sub]
  apply Int.bmod_eq_of_le <;> omega

theorem toInt_min (a b : Int64) : (min a b).toInt = min a.toInt b.toInt := by
  change (if a ≤ b then a else b).toInt = _
  split_ifs with h
  · rw [Int64.le_iff_toInt_le] at h
    omega
  · rw [Int64.le_iff_toInt_le] at h
    omega

theorem toInt_max (a b : Int64) : (max a b).toInt = max a.toInt b.toInt := by
  change (if a ≤ b then b else a).toInt = _
  split_ifs with h
  · rw [Int64.le_iff_toInt_le] at h
    omega
  · rw [Int64.le_iff_toInt_le] at h
    omega

/-- Division by two, rounded toward zero. -/
theorem tdiv_two (x : ℤ) : x.tdiv 2 = if 0 ≤ x ∨ 2 ∣ x then x/2 else x/2+1 := by
  rw [Int.tdiv_eq_ediv]
  split <;> simp

theorem toInt_div_two (p : Int64) : (p/2).toInt = p.toInt.tdiv 2 := by
  have hp := p.toInt_lt
  have hp' := p.le_toInt
  have htwo : (2 : Int64).toInt = 2 := rfl
  have hdiv := tdiv_two p.toInt
  rw [Int64.toInt_div, htwo]
  apply Int.bmod_eq_of_le
  · split at hdiv <;> omega
  · split at hdiv <;> omega

theorem toInt_div (ha : 0 ≤ a.toInt) (hb : 0 < b.toInt) : (a/b).toInt = a.toInt/b.toInt := by
  have ha' := a.toInt_lt
  have hle := Int.ediv_le_self b.toInt ha
  have hpos := Int.ediv_nonneg ha hb.le
  rw [Int64.toInt_div, Int.tdiv_eq_ediv_of_nonneg ha]
  apply Int.bmod_eq_of_le <;> omega

theorem toInt_mul (h : -2^63 ≤ a.toInt*b.toInt) (h' : a.toInt*b.toInt < 2^63) :
    (a*b).toInt = a.toInt*b.toInt := by
  rw [Int64.toInt_mul]
  apply Int.bmod_eq_of_le <;> omega

/-- A shift to the right moves a word toward zero, or toward minus one. -/
theorem toInt_shiftRight_le (a b : Int64) : (a >>> b).toInt ≤ max 0 a.toInt := by
  obtain ⟨n,hshift⟩ : ∃ n : ℕ, (a >>> b).toInt = a.toInt >>> n := by
    refine ⟨(b.toBitVec.smod 64).toNat,?_⟩
    rw [← Int64.toInt_toBitVec, Int64.toBitVec_shiftRight, BitVec.toInt_sshiftRight', Int64.toInt_toBitVec]
  rw [hshift, Int.shiftRight_eq_div_pow]
  have hpos : (0 : ℤ) < ((2^n : ℕ) : ℤ) := by exact_mod_cast Nat.two_pow_pos n
  rcases Int.lt_or_le a.toInt 0 with h | h
  · have hneg := Int.ediv_neg_of_neg_of_pos h hpos
    omega
  · have hle := Int.ediv_le_self ((2^n : ℕ) : ℤ) h
    omega

theorem toInt_toInt64 {x : UInt64} (h : x.toNat < 2^63) : x.toInt64.toInt = x.toNat := by
  change x.toBitVec.toInt = x.toBitVec.toNat
  change x.toBitVec.toNat < 2^63 at h
  rw [BitVec.toInt_eq_toNat_cond]
  split_ifs <;> omega

theorem toNat_toUInt64 (h : 0 ≤ a.toInt) : (a.toUInt64.toNat : ℤ) = a.toInt := by
  change (a.toBitVec.toNat : ℤ) = a.toBitVec.toInt
  change 0 ≤ a.toBitVec.toInt at h
  rw [BitVec.toInt_eq_toNat_cond] at h ⊢
  split_ifs at h ⊢ <;> omega

end LowLatencyLob.Sequence
