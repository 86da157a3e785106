import Mathlib.Data.Nat.Digits.Defs
import Mathlib.Algebra.Order.Field.Rat
import Mathlib.Algebra.Order.Ring.Abs
import Mathlib.Tactic.Ring
import Mathlib.Tactic.FieldSimp

/-! Decimal numerals as bytes: a sign, digits and a point, and the rational they spell. -/
namespace LowLatencyLob.Sequence

section Split
variable {α : Type*} [DecidableEq α]

/-- What stands before and after the first `c`. -/
def splitOnce (c : α) : List α → Option (List α × List α)
  | [] => none
  | b :: s => if b = c then some ([],s) else (splitOnce c s).map fun x => (b :: x.1,x.2)

@[simp] theorem splitOnce_append {c : α} {a : List α} (h : c ∉ a) (b : List α) :
    splitOnce c (a ++ c :: b) = some (a,b) := by
  induction a with
  | nil => simp [splitOnce]
  | cons x a ih =>
    have hx : x ≠ c := fun he => h (he ▸ List.mem_cons_self)
    rw [List.cons_append, splitOnce, if_neg hx, ih fun hc => h (List.mem_cons_of_mem _ hc)]
    rfl

theorem splitOnce_eq_none {c : α} {s : List α} : splitOnce c s = none ↔ c ∉ s := by
  induction s with
  | nil => simp [splitOnce]
  | cons x s ih =>
    rw [splitOnce]
    split_ifs with hx
    · simp [hx]
    · simp [ih, Ne.symm hx]

theorem eq_of_splitOnce {c : α} {s a b : List α} (h : splitOnce c s = some (a,b)) : s = a ++ c :: b := by
  induction s generalizing a with
  | nil => cases h
  | cons x s ih =>
    rw [splitOnce] at h
    split_ifs at h with hx
    · cases h
      rw [hx]
      rfl
    · obtain ⟨⟨a',b'⟩,hs,he⟩ := Option.map_eq_some_iff.mp h
      cases he
      rw [ih hs]
      rfl

end Split

/-- `b'-'` -/
def minus : UInt8 := 45

/-- `b'.'` -/
def point : UInt8 := 46

/-- `is_ascii_digit` -/
def isDigit (b : UInt8) : Bool := 48 ≤ b && b ≤ 57

/-- The digit that a byte spells. -/
def digit (b : UInt8) : ℕ := b.toNat-48

/-- The number that digits spell, most significant first. -/
def number (s : List UInt8) : ℕ := Nat.ofDigits 10 (s.reverse.map digit)

theorem number_append (s t : List UInt8) : number (s ++ t) = number s*10^t.length+number t := by
  simp only [number, List.reverse_append, List.map_append, Nat.ofDigits_append, List.length_map,
    List.length_reverse]
  ring

@[simp] theorem number_append_singleton (s : List UInt8) (b : UInt8) :
    number (s ++ [b]) = number s*10+digit b := by
  rw [number_append, number, number]
  simp

@[simp] theorem number_zeros (n : ℕ) : number (List.replicate n 48) = 0 := by
  induction n with
  | zero => rfl
  | succ n ih =>
    rw [List.replicate_succ', number_append_singleton, ih]
    rfl

theorem number_lt {s : List UInt8} (h : ∀ b ∈ s, isDigit b) : number s < 10^s.length := by
  have hlt := Nat.ofDigits_lt_base_pow_length (b := 10) (l := s.reverse.map digit) (by decide) (by
    intro n hn
    obtain ⟨b,hb,rfl⟩ := List.mem_map.mp hn
    have hdigit := h b (List.mem_reverse.mp hb)
    simp only [isDigit, Bool.and_eq_true, decide_eq_true_eq, UInt8.le_iff_toNat_le] at hdigit
    have hhigh : b.toNat ≤ 57 := hdigit.2
    unfold digit
    omega)
  rwa [List.length_map, List.length_reverse] at hlt

theorem ne_of_isDigit {b c : UInt8} (h : isDigit b) (hc : isDigit c = false) : b ≠ c := by
  rintro rfl
  exact absurd h (by simp [hc])

/-- A sign in front, and the rest. -/
def splitSign (s : List UInt8) : Bool × List UInt8 :=
  if s.head? = some minus then (true,s.tail) else (false,s)

/-- What stands before and after the point, nothing after a missing one. -/
def splitPoint (s : List UInt8) : List UInt8 × List UInt8 := (splitOnce point s).getD (s,[])

/-- A decimal numeral: an optional sign, digits, and digits behind an optional point. -/
structure Decimal where
  neg : Bool
  int : List UInt8
  frac : List UInt8
  digits : ∀ b ∈ int ++ frac, isDigit b
  nonempty : int ++ frac ≠ []

namespace Decimal
variable (x : Decimal)

/-- The digits in one piece. -/
def mantissa : ℕ := number (x.int ++ x.frac)

/-- The rational that a numeral spells. -/
def value : ℚ := (if x.neg then -(x.mantissa : ℚ) else x.mantissa)/10^x.frac.length

/-- The value times `10^d`, an integer where `d` digits are enough. -/
def scaled (d : ℕ) : ℤ :=
  (if x.neg then -(x.mantissa : ℤ) else x.mantissa)*10^(d-x.frac.length)

theorem mantissa_eq : x.mantissa = number x.int*10^x.frac.length+number x.frac := number_append _ _

theorem number_frac_lt : number x.frac < 10^x.frac.length :=
  number_lt fun b hb => x.digits b (List.mem_append_right _ hb)

theorem cast_scaled {d : ℕ} (h : x.frac.length ≤ d) : (x.scaled d : ℚ) = x.value*10^d := by
  obtain ⟨k,rfl⟩ := Nat.exists_eq_add_of_le h
  have hne : (10 : ℚ)^x.frac.length ≠ 0 := by positivity
  rw [scaled, value, Nat.add_sub_cancel_left, pow_add]
  push_cast
  field_simp

theorem abs_scaled (d : ℕ) : |x.scaled d| = x.mantissa*10^(d-x.frac.length) := by
  rw [scaled, abs_mul, abs_of_nonneg (by positivity : (0 : ℤ) ≤ 10^(d-x.frac.length))]
  congr 1
  split <;> simp

theorem abs_value {d : ℕ} (h : x.frac.length ≤ d) :
    |x.value| * 10^d = (x.mantissa*10^(d-x.frac.length) : ℕ) := by
  have hcast := congrArg (Int.cast (R := ℚ)) (x.abs_scaled d)
  rw [Int.cast_abs, x.cast_scaled h, abs_mul, abs_of_pos (by positivity : (0 : ℚ) < 10^d)] at hcast
  rw [hcast]
  push_cast
  rfl

/-- The numeral with more zeros in front and behind. -/
def padded (a b : ℕ) : Decimal where
  neg := x.neg
  int := List.replicate a 48 ++ x.int
  frac := x.frac ++ List.replicate b 48
  digits := by
    have hzero : ∀ n, ∀ c ∈ List.replicate n (48 : UInt8), isDigit c := by
      intro n c hc
      rw [List.eq_of_mem_replicate hc]
      rfl
    have hx := List.forall_mem_append.mp x.digits
    simp only [List.forall_mem_append]
    exact ⟨⟨hzero a,hx.1⟩,hx.2,hzero b⟩
  nonempty := by
    have hx := x.nonempty
    simp only [ne_eq, List.append_eq_nil_iff] at hx ⊢
    tauto

/-- Zeros in front and behind do not change the value. -/
@[simp] theorem padded_value (a b : ℕ) : (x.padded a b).value = x.value := by
  have hm : (x.padded a b).mantissa = x.mantissa*10^b := by
    simp only [mantissa, padded, number_append, number_zeros, List.length_append, List.length_replicate]
    ring
  have hne : (10 : ℚ)^b ≠ 0 := by positivity
  have hlen : (x.padded a b).frac.length = x.frac.length+b := by simp [padded]
  rw [value, value, hm, hlen, pow_add, Nat.cast_mul, Nat.cast_pow, Nat.cast_ofNat, ← neg_mul, ← ite_mul]
  exact mul_div_mul_right _ _ hne

/-- How a numeral is written without its sign: the point may be left out where no digit
follows it. -/
def Writes (s : List UInt8) : Prop := s = x.int ++ point :: x.frac ∨ (x.frac = [] ∧ s = x.int)

/-- How a numeral is written. -/
def Spells (s : List UInt8) : Prop :=
  ∃ body, x.Writes body ∧ s = if x.neg then minus :: body else body

variable {x} {s : List UInt8}

theorem point_notMem_int (x : Decimal) : point ∉ x.int := by
  intro h
  exact ne_of_isDigit (x.digits _ (List.mem_append_left _ h)) rfl rfl

theorem Writes.splitOnce (h : x.Writes s) : Sequence.splitOnce point s = some (x.int,x.frac) ∨
    (x.frac = [] ∧ s = x.int ∧ Sequence.splitOnce point s = none) := by
  obtain rfl | ⟨hf,rfl⟩ := h
  · exact .inl (splitOnce_append x.point_notMem_int _)
  · exact .inr ⟨hf,rfl,splitOnce_eq_none.mpr x.point_notMem_int⟩

theorem Writes.splitPoint (h : x.Writes s) : Sequence.splitPoint s = (x.int,x.frac) := by
  unfold Sequence.splitPoint
  obtain hs | ⟨hf,rfl,hs⟩ := h.splitOnce
  · rw [hs]
    rfl
  · rw [hs, hf]
    rfl

/-- No numeral but a signed one starts with the sign. -/
theorem Writes.head_ne (h : x.Writes s) : s.head? ≠ some minus := by
  have hint : ∀ b ∈ x.int, b ≠ minus := by
    intro b hb
    exact ne_of_isDigit (x.digits b (List.mem_append_left _ hb)) rfl
  intro hs
  obtain rfl | ⟨hf,rfl⟩ := h
  · cases hi : x.int with
    | nil =>
      rw [hi] at hs
      exact absurd (Option.some.inj hs) (by decide)
    | cons b l =>
      rw [hi] at hs
      exact hint b (by rw [hi]; exact List.mem_cons_self) (Option.some.inj hs)
  · exact hint minus (List.mem_of_mem_head? hs) rfl

theorem Spells.splitSign (h : x.Spells s) : ∃ body, x.Writes body ∧
    Sequence.splitSign s = (x.neg,body) := by
  obtain ⟨body,hw,rfl⟩ := h
  refine ⟨body,hw,?_⟩
  unfold Sequence.splitSign
  cases x.neg with
  | false => exact if_neg hw.head_ne
  | true => rfl

/-- A string spells at most one numeral. -/
theorem Spells.unique {y : Decimal} (h : x.Spells s) (h' : y.Spells s) : x = y := by
  obtain ⟨body,hw,hs⟩ := h.splitSign
  obtain ⟨body',hw',hs'⟩ := h'.splitSign
  obtain ⟨hneg,rfl⟩ := Prod.mk.inj (hs.symm.trans hs')
  obtain ⟨hint,hfrac⟩ := Prod.mk.inj (hw.splitPoint.symm.trans hw'.splitPoint)
  cases x
  cases y
  cases hneg
  cases hint
  cases hfrac
  rfl

/-- Digits around an optional point are a numeral. -/
theorem spells_of_split {neg : Bool} {body int frac : List UInt8}
    (hs : Sequence.splitSign s = (neg,body)) (hp : Sequence.splitPoint body = (int,frac))
    (hd : ∀ b ∈ int ++ frac, isDigit b) (hne : int ++ frac ≠ []) :
    Spells ⟨neg,int,frac,hd,hne⟩ s := by
  refine ⟨body,?_,?_⟩
  · unfold Sequence.splitPoint at hp
    cases hb : Sequence.splitOnce point body with
    | none =>
      rw [hb] at hp
      cases hp
      exact .inr ⟨rfl,rfl⟩
    | some y =>
      rw [hb] at hp
      cases hp
      exact .inl (eq_of_splitOnce hb)
  · unfold Sequence.splitSign at hs
    split_ifs at hs with hm
    · cases hs
      cases s with
      | nil => cases hm
      | cons b s => rw [if_pos rfl, ← Option.some.inj hm, List.tail_cons]
    · cases hs
      rfl

/-- The fractional digits of a numeral, found with the sign still in front. -/
theorem Spells.fracDigits (h : x.Spells s) :
    ((Sequence.splitOnce point s).map fun y => y.2.length).getD 0 = x.frac.length := by
  obtain ⟨body,hw,rfl⟩ := h
  have hbody : ((Sequence.splitOnce point body).map fun y => y.2.length).getD 0 = x.frac.length := by
    obtain hs | ⟨hf,_,hs⟩ := hw.splitOnce
    · rw [hs]
      rfl
    · rw [hs, hf]
      rfl
  cases x.neg with
  | false => exact hbody
  | true =>
    rw [← hbody, if_pos rfl, Sequence.splitOnce, if_neg (by decide), Option.map_map]
    rfl

end Decimal
end LowLatencyLob.Sequence
