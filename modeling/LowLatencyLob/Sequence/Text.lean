import LowLatencyLob.Sequence.Bytes
import Mathlib.Data.List.DropRight
import Mathlib.Data.List.Infix

/-! Text in bytes: where a line ends, its characters, and the hexadecimal number in it. -/
namespace LowLatencyLob.Sequence

section Window
variable {α : Type*} [DecidableEq α]

/-- `l.windows(w.len()).position(|v| v == w)`, of a pattern that is not empty. -/
def Slice.windowPosition (w : List α) : List α → Option ℕ
  | [] => none
  | x :: l => if w <+: x :: l then some 0 else (windowPosition w l).map (·+1)

/-- The first place of a pattern has no earlier one before it. -/
theorem eq_append_of_windowPosition {w l : List α} {n : ℕ} (hw : w ≠ []) (h : Slice.windowPosition w l = some n) :
    ∃ l₁ l₂, l = l₁ ++ (w ++ l₂) ∧ l₁.length = n ∧ ¬ w <:+: l₁ := by
  induction l generalizing n with
  | nil => cases h
  | cons x l ih =>
    rw [Slice.windowPosition] at h
    split_ifs at h with hx
    · cases h
      obtain ⟨l₂,hl⟩ := hx
      exact ⟨[],l₂,hl.symm,rfl,fun hin => hw (List.infix_nil.mp hin)⟩
    · obtain ⟨m,hm,rfl⟩ := Option.map_eq_some_iff.mp h
      obtain ⟨l₁,l₂,rfl,rfl,hno⟩ := ih hm
      refine ⟨x :: l₁,l₂,rfl,rfl,fun hin => ?_⟩
      rcases List.infix_cons_iff.mp hin with hpre | hin
      · exact hx (hpre.trans (List.prefix_append (x :: l₁) _))
      · exact hno hin

/-- A pattern of two different elements cannot begin in what stands before it and end in itself. -/
theorem windowPosition_append {a b : α} {l : List α} (hab : a ≠ b) (h : ¬ [a,b] <:+: l) (l₂ : List α) :
    Slice.windowPosition [a,b] (l ++ ([a,b] ++ l₂)) = some l.length := by
  induction l with
  | nil => exact if_pos (List.prefix_append _ _)
  | cons x l ih =>
    obtain ⟨hpre,hin⟩ := not_or.mp (List.infix_cons_iff.not.mp h)
    have hx : ¬ [a,b] <+: x :: (l ++ ([a,b] ++ l₂)) := by
      intro hx
      cases l with
      | nil =>
        have : b = a := by simpa using (List.cons_prefix_cons.mp hx).2
        exact hab this.symm
      | cons y l =>
        rw [List.cons_append, List.cons_prefix_cons, List.cons_prefix_cons] at hx
        obtain ⟨rfl,rfl,_⟩ := hx
        exact hpre ⟨l,rfl⟩
    rw [List.cons_append, Slice.windowPosition, if_neg hx, ih hin]
    rfl

end Window

section Characters

/-- `str::from_utf8`: the characters that bytes spell. -/
def fromUtf8 (s : List UInt8) : Option (List Char) := s.toByteArray.utf8Decode?.map Array.toList

@[simp] theorem fromUtf8_nil : fromUtf8 [] = some [] := by simp [fromUtf8]

theorem fromUtf8_cons {b : UInt8} (hb : b < 128) (s : List UInt8) :
    fromUtf8 (b :: s) = (fromUtf8 s).map (Char.ofUInt8 b :: ·) := by
  have hsize : (Char.ofUInt8 b).utf8Size = 1 := by
    rw [Char.utf8Size_eq_one_iff]
    have hlt : b.toNat < 128 := hb
    exact UInt32.le_iff_toNat_le.mpr (by
      change b.toUInt32.toNat ≤ 127
      rw [UInt8.toNat_toUInt32]
      omega)
  have hval : (Char.ofUInt8 b).val.toUInt8 = b := UInt8.toUInt8_toUInt32 b
  have henc : (b :: s).toByteArray = [Char.ofUInt8 b].utf8Encode ++ s.toByteArray := by
    rw [List.utf8Encode_singleton, String.utf8EncodeChar_eq_singleton hsize, ← List.toByteArray_append, hval]
    rfl
  rw [fromUtf8, henc, ByteArray.utf8Decode?_utf8Encode_singleton_append, fromUtf8]
  simp [Function.comp_def]

/-- Bytes of ASCII are characters one by one, before anything. -/
theorem fromUtf8_append {s : List UInt8} (hs : ∀ b ∈ s, b < 128) (t : List UInt8) :
    fromUtf8 (s ++ t) = (fromUtf8 t).map (s.map Char.ofUInt8 ++ ·) := by
  induction s with
  | nil => simp
  | cons b s ih =>
    obtain ⟨hb,hs⟩ := List.forall_mem_cons.mp hs
    rw [List.cons_append, fromUtf8_cons hb, ih hs, Option.map_map]
    rfl

theorem fromUtf8_ascii {s : List UInt8} (hs : ∀ b ∈ s, b < 128) :
    fromUtf8 s = some (s.map Char.ofUInt8) := by
  simpa using fromUtf8_append hs []

/-- `char::is_whitespace` -/
def isWhitespace (c : Char) : Bool :=
  let n := c.toNat
  (9 ≤ n && n ≤ 13) || n == 32 || n == 0x85 || n == 0xA0 || n == 0x1680 || (0x2000 ≤ n && n ≤ 0x200A) ||
    n == 0x2028 || n == 0x2029 || n == 0x202F || n == 0x205F || n == 0x3000

/-- `s.trim()` -/
def trim (s : List Char) : List Char := (s.dropWhile isWhitespace).rdropWhile isWhitespace

theorem trim_eq_self {s : List Char} (h : ∀ c ∈ s, isWhitespace c = false) : trim s = s := by
  have hl : s.dropWhile isWhitespace = s := by
    rw [List.dropWhile_eq_self_iff]
    intro hpos
    simp [h _ (List.getElem_mem hpos)]
  rw [trim, hl, List.rdropWhile_eq_self_iff]
  intro hne
  simp [h _ (List.getLast_mem hne)]

end Characters

section Hexadecimal

inductive IntErrorKind
  | empty
  | invalidDigit
  | posOverflow
  deriving DecidableEq, Repr

/-- `c.to_digit(16)`, of a code point. -/
def toDigit (n : ℕ) : Option ℕ :=
  if 48 ≤ n ∧ n ≤ 57 then some (n-48)
  else if 65 ≤ n ∧ n ≤ 70 then some (n-55)
  else if 97 ≤ n ∧ n ≤ 102 then some (n-87)
  else none

/-- The digits behind a number `x` of 64 bits, with checked arithmetic. -/
def parseDigits (x : ℕ) : List Char → Except IntErrorKind ℕ
  | [] => .ok x
  | c :: s =>
    match toDigit c.toNat with
    | none => .error .invalidDigit
    | some d => if x*16+d < 2^64 then parseDigits (x*16+d) s else .error .posOverflow

/-- `usize::from_str_radix(s, 16)` -/
def fromStrRadix : List Char → Except IntErrorKind ℕ
  | [] => .error .empty
  | ['+'] => .error .invalidDigit
  | ['-'] => .error .invalidDigit
  | '+' :: s => parseDigits 0 s
  | s => parseDigits 0 s

def isHexDigit (b : UInt8) : Bool := (toDigit b.toNat).isSome

/-- The number that hexadecimal digits behind `x` spell, most significant first. -/
def hexNumberFrom (x : ℕ) (s : List UInt8) : ℕ := s.foldl (fun x b => x*16+(toDigit b.toNat).getD 0) x

def hexNumber (s : List UInt8) : ℕ := hexNumberFrom 0 s

theorem le_hexNumberFrom (x : ℕ) (s : List UInt8) : x ≤ hexNumberFrom x s := by
  induction s generalizing x with
  | nil => exact Nat.le_refl x
  | cons b s ih =>
    have := ih (x*16+(toDigit b.toNat).getD 0)
    rw [hexNumberFrom, List.foldl_cons]
    rw [hexNumberFrom] at this
    omega

/-- A digit is a letter or a numeral, and no sign, semicolon or space. -/
theorem toNat_of_isHexDigit {b : UInt8} (h : isHexDigit b) :
    (48 ≤ b.toNat ∧ b.toNat ≤ 57) ∨ (65 ≤ b.toNat ∧ b.toNat ≤ 70) ∨ (97 ≤ b.toNat ∧ b.toNat ≤ 102) := by
  rw [isHexDigit, toDigit] at h
  split_ifs at h with h₁ h₂ h₃
  · exact .inl h₁
  · exact .inr (.inl h₂)
  · exact .inr (.inr h₃)
  · cases h

@[simp] theorem toNat_ofUInt8 (b : UInt8) : (Char.ofUInt8 b).toNat = b.toNat := UInt8.toNat_toUInt32 b

theorem lt_of_isHexDigit {b : UInt8} (h : isHexDigit b) : b < 128 := by
  have := toNat_of_isHexDigit h
  change b.toNat < 128
  omega

theorem ofUInt8_ne {b : UInt8} (h : isHexDigit b) {c : Char} (hc : c.toNat < 48 ∨ c.toNat = 59) :
    Char.ofUInt8 b ≠ c := by
  rintro rfl
  have := toNat_of_isHexDigit h
  rw [toNat_ofUInt8] at hc
  omega

theorem isWhitespace_of_isHexDigit {b : UInt8} (h : isHexDigit b) : isWhitespace (Char.ofUInt8 b) = false := by
  have := toNat_of_isHexDigit h
  simp only [isWhitespace, toNat_ofUInt8, Bool.or_eq_false_iff, Bool.and_eq_false_iff, decide_eq_false_iff_not,
    beq_eq_false_iff_ne]
  omega

theorem parseDigits_eq {x : ℕ} {s : List UInt8} (hs : ∀ b ∈ s, isHexDigit b) (h : hexNumberFrom x s < 2^64) :
    parseDigits x (s.map Char.ofUInt8) = .ok (hexNumberFrom x s) := by
  induction s generalizing x with
  | nil => rfl
  | cons b s ih =>
    obtain ⟨hb,hs⟩ := List.forall_mem_cons.mp hs
    obtain ⟨d,hd⟩ := Option.isSome_iff_exists.mp hb
    have hstep : hexNumberFrom x (b :: s) = hexNumberFrom (x*16+d) s := by
      rw [hexNumberFrom, List.foldl_cons, hd]
      rfl
    rw [hstep] at h ⊢
    have hle := le_hexNumberFrom (x*16+d) s
    rw [List.map_cons, parseDigits, toNat_ofUInt8, hd]
    exact (if_pos (by omega)).trans (ih hs h)

/-- Digits alone, of a number that fits, are read as that number. -/
theorem fromStrRadix_eq {s : List UInt8} (hne : s ≠ []) (hs : ∀ b ∈ s, isHexDigit b) (h : hexNumber s < 2^64) :
    fromStrRadix (s.map Char.ofUInt8) = .ok (hexNumber s) := by
  rw [hexNumber, ← parseDigits_eq hs h]
  cases s with
  | nil => exact absurd rfl hne
  | cons b s =>
    have hb := hs b (List.mem_cons_self ..)
    have hplus : Char.ofUInt8 b ≠ '+' := ofUInt8_ne hb (by decide)
    have hminus : Char.ofUInt8 b ≠ '-' := ofUInt8_ne hb (by decide)
    rw [List.map_cons]
    unfold fromStrRadix
    split <;> simp_all

end Hexadecimal
end LowLatencyLob.Sequence
