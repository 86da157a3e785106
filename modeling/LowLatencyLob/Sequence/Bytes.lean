import LowLatencyLob.Sequence.Slice
import Mathlib.Data.Nat.Digits.Defs
import Mathlib.Data.Vector.Basic

/-! Bytes: little-endian integers, subranges of a slice, and its chunks of one length. -/
namespace LowLatencyLob.Sequence

section LittleEndian

/-- The `n` low bytes of a number, least significant first. -/
def toLE : ℕ → ℕ → List UInt8
  | 0, _ => []
  | n+1, x => UInt8.ofNat x :: toLE n (x/256)

/-- The number that bytes spell, least significant first. -/
def ofLE (bs : List UInt8) : ℕ := Nat.ofDigits 256 (bs.map UInt8.toNat)

@[simp] theorem toLE_length (n x : ℕ) : (toLE n x).length = n := by
  induction n generalizing x with
  | zero => rfl
  | succ n ih => simp [toLE, ih]

theorem ofLE_cons (b : UInt8) (bs : List UInt8) : ofLE (b :: bs) = b.toNat+256*ofLE bs := by
  simp [ofLE, Nat.ofDigits_cons]

theorem ofLE_lt (bs : List UInt8) : ofLE bs < 256^bs.length := by
  have hlt := Nat.ofDigits_lt_base_pow_length (b := 256) (l := bs.map UInt8.toNat) (by decide) (by
    intro x hx
    obtain ⟨b,_,rfl⟩ := List.mem_map.mp hx
    exact b.toNat_lt)
  rwa [List.length_map] at hlt

/-- What was spelt reads back, if it fits. -/
theorem ofLE_toLE {n x : ℕ} (h : x < 256^n) : ofLE (toLE n x) = x := by
  induction n generalizing x with
  | zero =>
    rw [Nat.pow_zero, Nat.lt_one_iff] at h
    subst x
    rfl
  | succ n ih =>
    rw [Nat.pow_succ] at h
    rw [toLE, ofLE_cons, ih (Nat.div_lt_of_lt_mul (by omega)), UInt8.toNat_ofNat']
    omega

/-- Bytes are spelt by their number. -/
theorem toLE_ofLE (bs : List UInt8) : toLE bs.length (ofLE bs) = bs := by
  induction bs with
  | nil => rfl
  | cons b bs ih =>
    have hb := b.toNat_lt
    have hdiv : (b.toNat+256*ofLE bs)/256 = ofLE bs := by omega
    have hlow : UInt8.ofNat (b.toNat+256*ofLE bs) = b := by
      apply UInt8.toNat_inj.mp
      rw [UInt8.toNat_ofNat']
      omega
    rw [List.length_cons, toLE, ofLE_cons, hdiv, ih, hlow]

end LittleEndian

section Chunks
variable {α β : Type*} {n : ℕ}

/-- `&l[start..stop]` -/
def Slice.range (l : List α) (start stop : ℕ) : Option (List α) :=
  if start ≤ stop ∧ stop ≤ l.length then some ((l.drop start).take (stop-start)) else none

theorem Slice.range_eq {l : List α} {start stop : ℕ} (h : start ≤ stop) (h' : stop ≤ l.length) :
    Slice.range l start stop = some ((l.drop start).take (stop-start)) := if_pos ⟨h,h'⟩

/-- `l.chunks_exact(n)`: a remainder shorter than `n` is left out. -/
def chunksExact (n : ℕ) (l : List α) : List (List α) :=
  (List.range (l.length/n)).map fun i => (l.drop (n*i)).take n

@[simp] theorem chunksExact_length (n : ℕ) (l : List α) : (chunksExact n l).length = l.length/n := by
  simp [chunksExact]

theorem length_of_mem_chunksExact {l c : List α} (h : c ∈ chunksExact n l) : c.length = n := by
  obtain ⟨i,hi,rfl⟩ := List.mem_map.mp h
  have hlt := List.mem_range.mp hi
  have hle : n*(i+1) ≤ l.length := (Nat.mul_le_mul_left n hlt).trans (Nat.mul_div_le l.length n)
  rw [Nat.mul_succ] at hle
  rw [List.length_take, List.length_drop]
  omega

theorem chunksExact_getElem {l : List α} {i : ℕ} (h : i < l.length/n) :
    (chunksExact n l)[i]? = some ((l.drop (n*i)).take n) := by
  simp [chunksExact, h]

/-- Pieces of one length, joined, are the chunks of what they make up. -/
theorem chunksExact_flatMap {f : α → List β} (hn : 0 < n) (hf : ∀ x, (f x).length = n) (l : List α) :
    chunksExact n (l.flatMap f) = l.map f := by
  have hlen : ∀ l : List α, (l.flatMap f).length = n*l.length := by
    intro l
    induction l with
    | nil => rfl
    | cons x l ih => simp [ih, hf, Nat.mul_succ, Nat.add_comm]
  induction l with
  | nil => simp [chunksExact]
  | cons x l ih =>
    have hdiv : ((x :: l).flatMap f).length/n = l.length+1 := by
      rw [hlen, List.length_cons, Nat.mul_div_cancel_left _ hn]
    have hdiv' : (l.flatMap f).length/n = l.length := by
      rw [hlen, Nat.mul_div_cancel_left _ hn]
    unfold chunksExact at ih ⊢
    rw [hdiv'] at ih
    rw [hdiv, List.range_succ_eq_map, List.map_cons, List.map_map, List.map_cons, ← ih, List.flatMap_cons]
    congr 1
    · simp [← hf x]
    · refine List.map_congr_left ?_
      intro i _
      have hdrop : n*(i+1) = (f x).length+n*i := by
        rw [hf, Nat.mul_succ]
        omega
      simp only [Function.comp_apply, hdrop, List.drop_append, List.drop_eq_nil_of_le (Nat.le_add_right _ _),
        Nat.add_sub_cancel_left, List.nil_append]

end Chunks
end LowLatencyLob.Sequence
