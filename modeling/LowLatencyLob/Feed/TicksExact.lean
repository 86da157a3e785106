import LowLatencyLob.Feed.Outcome
import LowLatencyLob.Feed.Ticks
import Mathlib.Data.List.Induction
import Mathlib.Tactic.NormNum

/-! The conversion to ticks is exact: what it returns, and when, in rational arithmetic. -/
namespace LowLatencyLob.Feed
open Sequence

section Arithmetic

theorem checked_natCast (n : ℕ) : checked (n : ℤ) = if n < 2^127 then some (n : ℤ) else none := by
  unfold checked
  congr 1
  apply propext
  omega

theorem checked_eq {x : ℤ} (h : |x| < 2^127) : checked x = some x := by
  obtain ⟨hlow,hhigh⟩ := abs_lt.mp h
  exact if_pos ⟨hlow.le,hhigh⟩

theorem checked_of_lt {n : ℕ} (h : n < 2^127) : checked (n : ℤ) = some (n : ℤ) := by
  rw [checked_natCast, if_pos h]

/-- The exponent fits an `u32` wherever the power fits. -/
theorem checkedPow_eq (d : ℕ) : checkedPow d = checked (10^d : ℕ) := by
  rw [checkedPow, ← Nat.cast_ofNat (R := ℤ), ← Nat.cast_pow]
  split_ifs with hd
  · rfl
  · rw [checked_natCast, if_neg]
    have hle : 10^39 ≤ 10^d := Nat.pow_le_pow_right (by decide) (by omega)
    omega

/-- A step from a number to a larger one overflows just when the larger one does. -/
theorem checked_bind {n k : ℕ} (hn : n ≤ k) {f : ℤ → Option ℤ} (hf : f n = checked k) :
    (checked n).bind f = checked k := by
  rw [checked_natCast]
  split_ifs with h
  · exact hf
  · rw [Option.bind_none, checked_natCast, if_neg (by omega)]

/-- Digits are read exactly, or do not fit. -/
theorem parse_eq (s : List UInt8) : parse s = checked (number s) := by
  induction s using List.reverseRecOn with
  | nil => rfl
  | append_singleton s b ih =>
    unfold parse at ih ⊢
    rw [List.foldlM_append, ih, number_append_singleton]
    simp only [List.foldlM_cons, List.foldlM_nil, bind_pure, Option.bind_eq_bind]
    apply checked_bind (by omega)
    have hmul : ((number s : ℕ) : ℤ)*10 = (number s*10 : ℕ) := by push_cast; rfl
    rw [hmul]
    apply checked_bind (by omega)
    rw [← Nat.cast_add]

theorem parsePart_eq (s : List UInt8) : parsePart s = checked (number s) := by
  unfold parsePart
  split_ifs with hs
  · rw [hs]
    rfl
  · exact parse_eq s

/-- The magnitude of a numeral with `k` fractional digits, scaled by `10^d`, is exact or
does not fit. -/
theorem magnitude_eq {a f d k : ℕ} (hk : k ≤ d) (hf : f < 10^k) :
    ((checkedPow d).bind fun scale => (checked a).bind fun intVal => (checked f).bind fun fracVal =>
      (checkedPow (d-k)).bind fun pad => (checked (intVal*scale)).bind fun x =>
        (checked (fracVal*pad)).bind fun y => checked (x+y)) =
      if 10^d < 2^127 ∧ (a*10^k+f)*10^(d-k) < 2^127 then some (((a*10^k+f)*10^(d-k) : ℕ) : ℤ)
        else none := by
  have hpow : 10^d = 10^k*10^(d-k) := by rw [← pow_add, Nat.add_sub_cancel' hk]
  have hsum : (a*10^k+f)*10^(d-k) = a*10^d+f*10^(d-k) := by rw [hpow]; ring
  rw [ite_and, ← checked_natCast, checkedPow_eq, checkedPow_eq, hsum]
  split_ifs with hd
  · have hpad : 10^(d-k) ≤ 10^d := Nat.pow_le_pow_right (by decide) (Nat.sub_le d k)
    have hfk : f ≤ 10^d := hf.le.trans (Nat.pow_le_pow_right (by decide) hk)
    have hfpad : f*10^(d-k) ≤ 10^d := by
      rw [hpow]
      exact Nat.mul_le_mul_right _ hf.le
    have ha : a ≤ a*10^d := Nat.le_mul_of_pos_right _ (Nat.pow_pos (by decide))
    rw [checked_of_lt hd, checked_of_lt (hpad.trans_lt hd), Option.bind_some]
    apply checked_bind (by omega)
    rw [checked_of_lt (by omega), Option.bind_some, Option.bind_some, ← Nat.cast_mul, ← Nat.cast_mul]
    apply checked_bind (by omega)
    rw [checked_of_lt (by omega), Option.bind_some, ← Nat.cast_add]
  · rw [checked_natCast, if_neg hd]
    rfl

end Arithmetic

section Scaling
variable {α β γ : Type} {x : Decimal} {s : List UInt8} {d : ℕ}

theorem orOverflow_bind (o : Option α) (f : α → Option β) (g : β → Conv γ) :
    (orOverflow o >>= fun x => orOverflow (f x) >>= g) = orOverflow (o.bind f) >>= g := by
  cases o <;> rfl

/-- A numeral is scaled exactly, unless the scale or the magnitude does not fit. -/
theorem scaleToInt_of_spells (h : x.Spells s) (hd : x.frac.length ≤ d) :
    scaleToInt s d = if 10^d < 2^127 ∧ x.mantissa*10^(d-x.frac.length) < 2^127 then pure (x.scaled d)
      else throw .overflow := by
  obtain ⟨body,hw,hs⟩ := h.splitSign
  have hne : ¬ (x.int = [] ∧ x.frac = []) := fun hnil => x.nonempty (by simp [hnil])
  have hdigits : ¬ (¬ x.int.all isDigit ∨ ¬ x.frac.all isDigit ∨ d < x.frac.length) := by
    have hall := x.digits
    simp only [List.forall_mem_append, ← List.all_eq_true] at hall
    simp [hall, hd]
  have hm := magnitude_eq (a := number x.int) hd x.number_frac_lt
  rw [← x.mantissa_eq] at hm
  unfold scaleToInt
  simp only [hs, hw.splitPoint, if_neg hne, if_neg hdigits, orOverflow_bind, parsePart_eq, hm]
  split_ifs with hfit hneg
  · have hlt : |(-(x.mantissa*10^(d-x.frac.length) : ℕ) : ℤ)| < 2^127 := by
      rw [abs_neg, Nat.abs_cast]
      exact_mod_cast hfit.2
    simp only [orOverflow, pure_bind, checked_eq hlt]
    rw [Decimal.scaled, if_pos hneg]
    push_cast
    rw [neg_mul]
    rfl
  · simp only [orOverflow, pure_bind]
    rw [Decimal.scaled, if_neg hneg]
    push_cast
    rfl
  · rfl
  · rfl

/-- What is no numeral, or has too many fractional digits, is no decimal. -/
theorem scaleToInt_notDecimal (h : ∀ x : Decimal, x.Spells s → d < x.frac.length) :
    scaleToInt s d = throw .notDecimal := by
  obtain ⟨neg,body,hs⟩ : ∃ neg body, splitSign s = (neg,body) := ⟨_,_,rfl⟩
  obtain ⟨int,frac,hp⟩ : ∃ int frac, splitPoint body = (int,frac) := ⟨_,_,rfl⟩
  unfold scaleToInt
  simp only [hs, hp]
  by_cases hne : int = [] ∧ frac = []
  · rw [if_pos hne]
    rfl
  · rw [if_neg hne, if_pos]
    · rfl
    · by_contra hd
      simp only [not_or, not_not, not_lt, List.all_eq_true] at hd
      obtain ⟨hint,hfrac,hlen⟩ := hd
      have hx := Decimal.spells_of_split hs hp (List.forall_mem_append.mpr ⟨hint,hfrac⟩) (by simpa using hne)
      exact absurd (h _ hx) (Nat.not_lt.mpr hlen)

end Scaling
section Quotient

/-- The number of ticks in a value, in rational arithmetic. -/
def exactTicks (value tick : ℚ) : Except ConvError Int64 :=
  if tick = 0 ∨ (value/tick).den ≠ 1 then .error .offTickGrid
  else (tryFrom (value/tick).num).elim (.error .overflow) .ok

theorem tryFrom_eq_some {q : ℤ} {n : Int64} : tryFrom q = some n ↔ q = n.toInt := by
  have hlow := n.le_toInt
  have hhigh := n.toInt_lt
  unfold tryFrom
  split_ifs with hq
  · rw [Option.some.injEq, ← Int64.toInt_inj, Int64.toInt_ofInt_of_le hq.1 hq.2]
  · constructor
    · intro h
      cases h
    · intro h
      omega

theorem exactTicks_mul {tick : ℚ} (h : tick ≠ 0) (n : ℤ) :
    exactTicks (n*tick) tick = (tryFrom n).elim (.error .overflow) .ok := by
  rw [exactTicks, mul_div_cancel_right₀ _ h, if_neg (by simp [h]), Rat.num_intCast]

theorem exactTicks_off {value tick : ℚ} (h : ∀ n : ℤ, value ≠ n*tick) :
    exactTicks value tick = .error .offTickGrid := by
  rw [exactTicks, if_pos]
  by_contra hn
  simp only [not_or, not_not] at hn
  obtain ⟨ht,hden⟩ := hn
  apply h (value/tick).num
  rw [Rat.coe_int_num_of_den_eq_one hden, div_mul_cancel₀ _ ht]

theorem exactTicks_eq_ok {value tick : ℚ} {n : Int64} :
    exactTicks value tick = .ok n ↔ tick ≠ 0 ∧ value = n.toInt*tick := by
  by_cases ht : tick = 0
  · simp [exactTicks, ht]
  by_cases hm : ∃ m : ℤ, value = m*tick
  · obtain ⟨m,rfl⟩ := hm
    have hcancel : (m : ℚ)*tick = n.toInt*tick ↔ tryFrom m = some n := by
      rw [tryFrom_eq_some, mul_left_inj' ht, Int.cast_inj]
    rw [exactTicks_mul ht, hcancel]
    cases tryFrom m <;> simp [ht]
  · simp only [not_exists] at hm
    rw [exactTicks_off hm]
    simp [hm]

/-- Division in checked arithmetic never panics, and is exact. -/
theorem divide_exact {v t : ℤ} (hv : |v| < 2^127) : (divide v t).run = some (exactTicks v t) := by
  unfold divide
  by_cases ht : t = 0
  · subst t
    simp [exactTicks]
  have hmin : v ≠ -2^127 := by
    have hlow := (abs_lt.mp hv).1
    omega
  have hrem : rem v t = some (v.tmod t) := by
    rw [rem, if_neg]
    rintro (hz | ⟨hv,_⟩)
    · exact ht hz
    · exact hmin hv
  have ht' : (t : ℚ) ≠ 0 := by exact_mod_cast ht
  by_cases hdvd : t ∣ v
  · obtain ⟨n,rfl⟩ := hdvd
    have hn : |n| < 2^127 := by
      rw [abs_mul] at hv
      exact (le_mul_of_one_le_left (abs_nonneg n) (Int.one_le_abs ht)).trans_lt hv
    have hdiv : div (t*n) t = some n := by
      rw [div, if_neg ht, Int.mul_comm, Int.mul_tdiv_cancel _ ht, checked_eq hn]
    have hexact := exactTicks_mul ht' n
    rw [mul_comm] at hexact
    rw [hrem, hdiv, if_neg ht, Int.mul_tmod_right, Int.cast_mul, hexact]
    simp only [lift_bind, ne_eq, not_true, if_false]
    cases tryFrom n <;> rfl
  · have hoff : exactTicks v t = .error .offTickGrid := by
      apply exactTicks_off
      intro n hn
      exact hdvd ⟨n,by exact_mod_cast hn.trans (mul_comm _ _)⟩
    have hne : v.tmod t ≠ 0 := fun h => hdvd (Int.dvd_of_tmod_eq_zero h)
    rw [hrem, if_neg ht, hoff]
    simp only [lift_bind, if_pos hne]
    rfl

end Quotient
section Ticks

/-- The digits that both numerals need behind the point. -/
def places (x y : Decimal) : ℕ := max x.frac.length y.frac.length

theorem left_le_places (x y : Decimal) : x.frac.length ≤ places x y := le_max_left _ _

theorem right_le_places (x y : Decimal) : y.frac.length ≤ places x y := le_max_right _ _

/-- The common scale and both scaled magnitudes fit an `i128`. -/
structure InBounds (x y : Decimal) : Prop where
  scale : (10 : ℚ)^places x y ≤ 2^127-1
  value : |x.value| * 10^places x y ≤ 2^127-1
  tick : |y.value| * 10^places x y ≤ 2^127-1

variable {x y : Decimal} {value tick : List UInt8}

theorem natCast_le_max (n : ℕ) : (n : ℚ) ≤ 2^127-1 ↔ n < 2^127 := by
  have hmax : (2 : ℚ)^127-1 = (2^127-1 : ℕ) := by norm_num
  rw [hmax, Nat.cast_le]
  omega

theorem inBounds_iff : InBounds x y ↔ 10^places x y < 2^127 ∧
    x.mantissa*10^(places x y-x.frac.length) < 2^127 ∧ y.mantissa*10^(places x y-y.frac.length) < 2^127 := by
  have hscale : (10 : ℚ)^places x y = (10^places x y : ℕ) := by push_cast; rfl
  constructor
  · intro ⟨h₁,h₂,h₃⟩
    rw [hscale, natCast_le_max] at h₁
    rw [x.abs_value (left_le_places x y), natCast_le_max] at h₂
    rw [y.abs_value (right_le_places x y), natCast_le_max] at h₃
    exact ⟨h₁,h₂,h₃⟩
  · intro ⟨h₁,h₂,h₃⟩
    constructor
    · rwa [hscale, natCast_le_max]
    · rwa [x.abs_value (left_le_places x y), natCast_le_max]
    · rwa [y.abs_value (right_le_places x y), natCast_le_max]

theorem toTicks_eq (value tick : List UInt8) : toTicks value tick =
    scaleToInt value (max (fracDigits value) (fracDigits tick)) >>= fun v =>
      scaleToInt tick (max (fracDigits value) (fracDigits tick)) >>= fun t => divide v t := rfl

theorem toTicks_of_spells (hx : x.Spells value) (hy : y.Spells tick) :
    toTicks value tick = scaleToInt value (places x y) >>= fun v => scaleToInt tick (places x y) >>= fun t =>
      divide v t := by
  rw [toTicks_eq, fracDigits, fracDigits, hx.fracDigits, hy.fracDigits, places]

theorem exactTicks_scale (q r : ℚ) (d : ℕ) : exactTicks (q*10^d) (r*10^d) = exactTicks q r := by
  have hne : (10 : ℚ)^d ≠ 0 := by positivity
  unfold exactTicks
  rw [mul_div_mul_right _ _ hne]
  simp [hne]

/-- Within bounds the conversion gives the number of ticks of the rationals. -/
theorem toTicks_inBounds (hx : x.Spells value) (hy : y.Spells tick) (h : InBounds x y) :
    (toTicks value tick).run = some (exactTicks x.value y.value) := by
  obtain ⟨hscale,hv,ht⟩ := inBounds_iff.mp h
  have hkx := left_le_places x y
  have hky := right_le_places x y
  have hlt : |x.scaled (places x y)| < 2^127 := by
    rw [x.abs_scaled]
    exact_mod_cast hv
  rw [toTicks_of_spells hx hy, scaleToInt_of_spells hx hkx, if_pos ⟨hscale,hv⟩, pure_bind,
    scaleToInt_of_spells hy hky, if_pos ⟨hscale,ht⟩, pure_bind, divide_exact hlt, x.cast_scaled hkx,
    y.cast_scaled hky, exactTicks_scale]

/-- Out of bounds the conversion overflows. -/
theorem toTicks_outOfBounds (hx : x.Spells value) (hy : y.Spells tick) (h : ¬ InBounds x y) :
    toTicks value tick = throw .overflow := by
  rw [inBounds_iff] at h
  rw [toTicks_of_spells hx hy, scaleToInt_of_spells hx (left_le_places x y)]
  split_ifs with hv
  · rw [pure_bind, scaleToInt_of_spells hy (right_le_places x y), if_neg fun ht => h ⟨hv.1,hv.2,ht.2⟩]
    rfl
  · rfl

/-- A string that is no numeral leads to an error. -/
theorem toTicks_notDecimal (h : ∀ x y : Decimal, ¬ (x.Spells value ∧ y.Spells tick)) :
    ∃ e, toTicks value tick = throw e := by
  rw [toTicks_eq]
  by_cases hx : ∃ x : Decimal, x.Spells value
  · obtain ⟨x,hx⟩ := hx
    have htick : ∀ d, scaleToInt tick d = throw .notDecimal := by
      intro d
      exact scaleToInt_notDecimal fun y hy => absurd ⟨hx,hy⟩ (h x y)
    have hlen : x.frac.length ≤ max (fracDigits value) (fracDigits tick) := by
      rw [fracDigits, hx.fracDigits]
      exact le_max_left _ _
    rw [scaleToInt_of_spells hx hlen]
    split_ifs with hfit
    · exact ⟨_,by rw [pure_bind, htick, throw_bind]⟩
    · exact ⟨_,throw_bind _ _⟩
  · have hvalue := scaleToInt_notDecimal (d := max (fracDigits value) (fracDigits tick))
      fun x hs => absurd ⟨x,hs⟩ hx
    exact ⟨_,by rw [hvalue, throw_bind]⟩

theorem toTicks_cases (value tick : List UInt8) :
    (∃ x y : Decimal, x.Spells value ∧ y.Spells tick ∧ InBounds x y) ∨
      ((∃ e, toTicks value tick = throw e) ∧
        ¬ ∃ x y : Decimal, x.Spells value ∧ y.Spells tick ∧ InBounds x y) := by
  by_cases hin : ∃ x y : Decimal, x.Spells value ∧ y.Spells tick ∧ InBounds x y
  · exact .inl hin
  · refine .inr ⟨?_,hin⟩
    by_cases hxy : ∃ x y : Decimal, x.Spells value ∧ y.Spells tick
    · obtain ⟨x,y,hx,hy⟩ := hxy
      exact ⟨_,toTicks_outOfBounds hx hy fun hb => hin ⟨x,y,hx,hy,hb⟩⟩
    · exact toTicks_notDecimal fun x y h => hxy ⟨x,y,h⟩

theorem toTicks_ne_none (value tick : List UInt8) : (toTicks value tick).run ≠ none := by
  obtain ⟨x,y,hx,hy,hb⟩ | ⟨⟨e,he⟩,_⟩ := toTicks_cases value tick
  · rw [toTicks_inBounds hx hy hb]
    exact Option.some_ne_none _
  · rw [he]
    exact Option.some_ne_none _

theorem toTicks_eq_ok {n : Int64} : (toTicks value tick).run = some (.ok n) ↔
    ∃ x y : Decimal, x.Spells value ∧ y.Spells tick ∧ InBounds x y ∧ y.value ≠ 0 ∧
      x.value = n.toInt*y.value := by
  constructor
  · intro hn
    obtain ⟨x,y,hx,hy,hb⟩ | ⟨⟨e,he⟩,_⟩ := toTicks_cases value tick
    · rw [toTicks_inBounds hx hy hb, Option.some.injEq, exactTicks_eq_ok] at hn
      exact ⟨x,y,hx,hy,hb,hn⟩
    · rw [he] at hn
      cases hn
  · intro ⟨x,y,hx,hy,hb,hn⟩
    rw [toTicks_inBounds hx hy hb, exactTicks_eq_ok.mpr hn]

theorem toTicks_congr {x' y' : Decimal} {value' tick' : List UInt8} (hx : x.Spells value)
    (hy : y.Spells tick) (hx' : x'.Spells value') (hy' : y'.Spells tick') (hb : InBounds x y)
    (hb' : InBounds x' y') (hv : x'.value = x.value) (ht : y'.value = y.value) :
    toTicks value' tick' = toTicks value tick := by
  have hrun := toTicks_inBounds hx hy hb
  rw [← hv, ← ht, ← toTicks_inBounds hx' hy' hb'] at hrun
  exact ExceptT.ext hrun.symm

/-- The conversion never panics. It returns a number of ticks exactly if both strings are
numerals within bounds, the tick is not zero, and the value is that many ticks; and within
bounds zeros in front and behind do not change what it returns. -/
theorem to_ticks_exact (value tick : List UInt8) :
    (toTicks value tick).run ≠ none ∧
    (∀ n, (toTicks value tick).run = some (.ok n) ↔ ∃ x y : Decimal, x.Spells value ∧ y.Spells tick ∧
      InBounds x y ∧ y.value ≠ 0 ∧ x.value = n.toInt*y.value) ∧
    ∀ x y : Decimal, x.Spells value → y.Spells tick → InBounds x y → ∀ value' tick' a b a' b',
      (x.padded a b).Spells value' → (y.padded a' b').Spells tick' →
      InBounds (x.padded a b) (y.padded a' b') → toTicks value' tick' = toTicks value tick := by
  refine ⟨toTicks_ne_none value tick,fun n => toTicks_eq_ok,?_⟩
  intro x y hx hy hb value' tick' a b a' b' hx' hy' hb'
  exact toTicks_congr hx hy hx' hy' hb hb' (x.padded_value a b) (y.padded_value a' b')

/-- The least `i128`. -/
def least : Decimal where
  neg := true
  int := bytes "170141183460469231731687303715884105728"
  frac := []
  digits := List.all_eq_true.mp (by decide)
  nonempty := by decide

/-- Half of it. -/
def halfLeast : Decimal where
  neg := true
  int := bytes "85070591730234615865843651857942052864"
  frac := []
  digits := List.all_eq_true.mp (by decide)
  nonempty := by decide

theorem least_value : least.value = -2^127 := by
  have hm : least.mantissa = 2^127 := by decide
  rw [Decimal.value, hm]
  norm_num [least]

theorem halfLeast_value : halfLeast.value = -2^126 := by
  have hm : halfLeast.mantissa = 2^126 := by decide
  rw [Decimal.value, hm]
  norm_num [halfLeast]

/-- The least `i128` is two ticks of its half, but its magnitude does not fit. -/
theorem least_overflows : ∃ (value tick : List UInt8) (x y : Decimal) (n : Int64), x.Spells value ∧
    y.Spells tick ∧ y.value ≠ 0 ∧ x.value = n.toInt*y.value ∧ (10 : ℚ)^places x y ≤ 2^127-1 ∧
    (-2^127 ≤ x.value*10^places x y ∧ x.value*10^places x y ≤ 2^127-1) ∧
    (-2^127 ≤ y.value*10^places x y ∧ y.value*10^places x y ≤ 2^127-1) ∧
    (toTicks value tick).run = some (.error .overflow) := by
  have hplaces : places least halfLeast = 0 := rfl
  refine ⟨minus :: least.int,minus :: halfLeast.int,least,halfLeast,2,?_⟩
  rw [least_value, halfLeast_value, hplaces]
  have htwo : (2 : Int64).toInt = 2 := rfl
  refine ⟨⟨_,.inr ⟨rfl,rfl⟩,rfl⟩,⟨_,.inr ⟨rfl,rfl⟩,rfl⟩,by norm_num,?_,by norm_num,by norm_num,by norm_num,
    by decide⟩
  rw [htwo]
  norm_num

end Ticks
end LowLatencyLob.Feed
