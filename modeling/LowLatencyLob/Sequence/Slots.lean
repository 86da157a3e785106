import LowLatencyLob.Sequence.Listing
import LowLatencyLob.Sequence.Slice
import Mathlib.Data.List.Induction
import Mathlib.Order.Bounds.Basic

/-! Arrays with gaps: the indices of an array whose entry is not zero, in order.

Setting an entry, growing the array to either side and searching for the next occupied
index are all read off the occupied slots of the parts of the array. -/
namespace LowLatencyLob.Sequence

variable {V : Type*} [Zero V] [DecidableEq V]

/-- The occupied slots of an array whose first index is `k`. -/
def slots (k : ℕ) : List V → List (ℕ × V)
  | [] => []
  | x :: xs => entry k x ++ slots (k+1) xs

@[simp] theorem slots_nil (k : ℕ) : slots k ([] : List V) = [] := rfl

theorem slots_append (k : ℕ) (xs ys : List V) :
    slots k (xs ++ ys) = slots k xs ++ slots (k+xs.length) ys := by
  induction xs generalizing k with
  | nil => simp
  | cons x xs ih =>
    have hk : k+1+xs.length = k+(xs.length+1) := by omega
    simp only [List.cons_append, slots, ih, List.length_cons, List.append_assoc, hk]

theorem slots_singleton (k : ℕ) (x : V) : slots k [x] = entry k x := by simp [slots]

@[simp] theorem slots_replicate_zero (k n : ℕ) : slots k (List.replicate n (0 : V)) = [] := by
  induction n generalizing k with
  | zero => rfl
  | succ n ih => simp [List.replicate_succ, slots, ih]

theorem mem_slots {k i : ℕ} {v : V} {xs : List V} :
    (i,v) ∈ slots k xs ↔ v ≠ 0 ∧ k ≤ i ∧ xs[i-k]? = some v := by
  induction xs generalizing k with
  | nil => simp
  | cons x xs ih =>
    rw [slots, List.mem_append, mem_entry, ih, Prod.mk.injEq]
    rcases Nat.lt_trichotomy i k with hlt | rfl | hgt
    · have h₁ : ¬ i = k := by omega
      have h₂ : ¬ k+1 ≤ i := by omega
      have h₃ : ¬ k ≤ i := by omega
      simp [h₁, h₂, h₃]
    · simp only [Nat.sub_self, List.getElem?_cons_zero, Option.some.injEq, le_refl, true_and]
      have h₂ : ¬ i+1 ≤ i := by omega
      simp only [h₂, false_and, and_false, or_false]
      constructor
      · rintro ⟨hv,rfl⟩
        exact ⟨hv,rfl⟩
      · rintro ⟨hv,rfl⟩
        exact ⟨hv,rfl⟩
    · have h₁ : ¬ i = k := by omega
      have h₂ : k+1 ≤ i := by omega
      have h₃ : k ≤ i := by omega
      have hi : i-k = i-(k+1)+1 := by omega
      simp [h₁, h₂, h₃, hi]

theorem slots_bounds {k : ℕ} {xs : List V} {x : ℕ × V} (h : x ∈ slots k xs) :
    k ≤ x.1 ∧ x.1 < k+xs.length := by
  obtain ⟨i,v⟩ := x
  obtain ⟨_,hk,hx⟩ := mem_slots.mp h
  have hlt := (List.getElem?_eq_some_iff.mp hx).1
  omega

theorem slots_length_le (k : ℕ) (xs : List V) : (slots k xs).length ≤ xs.length := by
  induction xs generalizing k with
  | nil => rfl
  | cons x xs ih =>
    have hk := ih (k+1)
    have he : (entry k x).length ≤ 1 := by
      unfold entry
      split_ifs <;> simp
    simp only [slots, List.length_append, List.length_cons]
    omega

/-- Moving an array moves its slots. -/
theorem slots_add (k d : ℕ) (xs : List V) :
    slots (k+d) xs = (slots k xs).map fun x => (x.1+d,x.2) := by
  induction xs generalizing k with
  | nil => rfl
  | cons x xs ih =>
    have hk : k+d+1 = k+1+d := by omega
    rw [slots, slots, List.map_append, hk, ih]
    congr 1
    unfold entry
    split_ifs <;> rfl

/-- The slots of an array list it as a map. -/
theorem slots_listing (xs : List V) : Listing (· < ·) (fun i => xs[i]?.getD 0) (slots 0 xs) := by
  constructor
  · have hsorted : ∀ k, (slots k xs).Pairwise fun a b => a.1 < b.1 := by
      induction xs with
      | nil => exact fun k => .nil
      | cons x xs ih =>
        intro k
        refine List.pairwise_append.mpr ⟨?_,ih (k+1),?_⟩
        · unfold entry
          split_ifs <;> simp
        · intro a ha b hb
          obtain ⟨_,rfl⟩ := mem_entry.mp ha
          exact (slots_bounds hb).1
    exact hsorted 0
  · intro i v
    rw [mem_slots]
    constructor
    · rintro ⟨hv,_,hx⟩
      rw [Nat.sub_zero] at hx
      exact ⟨hv,by simp [hx]⟩
    · rintro ⟨hv,hx⟩
      refine ⟨hv,Nat.zero_le i,?_⟩
      rw [Nat.sub_zero]
      cases hi : xs[i]? with
      | none => exact absurd (by simpa [hi] using hx.symm) hv
      | some w => simpa [hi] using hx

section At
variable {xs : List V} {i : ℕ} {v : V}

/-- The slots before, at and after an index. -/
theorem slots_split (h : xs[i]? = some v) :
    slots 0 xs = slots 0 (xs.take i) ++ (entry i v ++ slots (i+1) (xs.drop (i+1))) := by
  obtain ⟨hlt,rfl⟩ := List.getElem?_eq_some_iff.mp h
  conv => lhs; rw [← List.take_append_drop i xs, ← List.getElem_cons_drop hlt]
  rw [slots_append, List.length_take, Nat.min_eq_left hlt.le, Nat.zero_add, slots]

theorem slots_set (h : i < xs.length) (v : V) :
    slots 0 (xs.set i v) = slots 0 (xs.take i) ++ (entry i v ++ slots (i+1) (xs.drop (i+1))) := by
  rw [slots_split (i := i) (v := v) (by simp [h])]
  congr 2
  · rw [List.take_set, List.set_eq_of_length_le (by simp)]
  · rw [List.drop_set_of_lt (by omega)]

end At

/-- Searching down from the end of the first part finds its last occupied slot. -/
theorem find_down (xs ys : List V) :
    (List.range xs.length).reverse.find? (fun j => (xs ++ ys)[j]?.getD 0 ≠ 0) =
      (slots 0 xs).getLast?.map Prod.fst := by
  induction xs using List.reverseRecOn generalizing ys with
  | nil => rfl
  | append_singleton xs x ih =>
    rw [List.length_append, List.length_singleton, List.range_succ, List.reverse_append,
      List.reverse_singleton, List.singleton_append, List.find?_cons, slots_append, slots_singleton,
      List.append_assoc, List.singleton_append]
    by_cases hx : x = 0
    · subst hx
      simpa using ih (0 :: ys)
    · simp [hx, entry_of_ne]

/-- Searching up from the start of the second part finds its first occupied slot. -/
theorem find_up (xs ys : List V) :
    (List.range' xs.length ys.length).find? (fun j => (xs ++ ys)[j]?.getD 0 ≠ 0) =
      (slots xs.length ys).head?.map Prod.fst := by
  induction ys generalizing xs with
  | nil => rfl
  | cons y ys ih =>
    have hstep := ih (xs ++ [y])
    rw [List.append_assoc, List.singleton_append, List.length_append, List.length_singleton] at hstep
    rw [List.length_cons, List.range'_succ, List.find?_cons, slots, hstep]
    by_cases hy : y = 0
    · simp [hy]
    · simp [hy, entry_of_ne]

section Ascending
variable {l : List ℕ} {i : ℕ}

theorem isGreatest_of_getLast? (h : l.Pairwise (· < ·)) (hi : l.getLast? = some i) : IsGreatest {j | j ∈ l} i := by
  obtain ⟨pre,rfl⟩ := List.getLast?_eq_some_iff.mp hi
  refine ⟨by simp,fun j hj => ?_⟩
  rcases List.mem_append.mp hj with hj | hj
  · exact ((List.pairwise_append.mp h).2.2 j hj i List.mem_cons_self).le
  · exact (List.mem_singleton.mp hj).le

theorem isLeast_of_head? (h : l.Pairwise (· < ·)) (hi : l.head? = some i) : IsLeast {j | j ∈ l} i := by
  obtain ⟨rest,rfl⟩ := List.head?_eq_some_iff.mp hi
  refine ⟨by simp,fun j hj => ?_⟩
  rcases List.mem_cons.mp hj with rfl | hj
  · exact le_refl _
  · exact ((List.pairwise_cons.mp h).1 j hj).le

/-- The last of an ascending list is its greatest element. -/
theorem getLast?_eq_some_iff_isGreatest (h : l.Pairwise (· < ·)) : l.getLast? = some i ↔ IsGreatest {j | j ∈ l} i := by
  refine ⟨isGreatest_of_getLast? h,fun hi => ?_⟩
  cases hl : l.getLast? with
  | none =>
    rw [List.getLast?_eq_none_iff.mp hl] at hi
    exact absurd hi.1 List.not_mem_nil
  | some j => rw [hi.unique (isGreatest_of_getLast? h hl)]

/-- The first of an ascending list is its least element. -/
theorem head?_eq_some_iff_isLeast (h : l.Pairwise (· < ·)) : l.head? = some i ↔ IsLeast {j | j ∈ l} i := by
  refine ⟨isLeast_of_head? h,fun hi => ?_⟩
  cases hl : l.head? with
  | none =>
    rw [List.head?_eq_none_iff.mp hl] at hi
    exact absurd hi.1 List.not_mem_nil
  | some j => rw [hi.unique (isLeast_of_head? h hl)]

end Ascending
section Occupied
variable {xs : List V} {i : ℕ}

/-- The indices of an array whose entry is not zero. -/
def occupied (xs : List V) : Set ℕ := {i | ∃ v, xs[i]? = some v ∧ v ≠ 0}

theorem mem_slots_indices : i ∈ (slots 0 xs).map Prod.fst ↔ i ∈ occupied xs := by
  rw [List.mem_map]
  constructor
  · rintro ⟨⟨j,v⟩,hx,rfl⟩
    obtain ⟨hv,_,hj⟩ := mem_slots.mp hx
    exact ⟨v,hj,hv⟩
  · rintro ⟨v,hi,hv⟩
    exact ⟨(i,v),mem_slots.mpr ⟨hv,Nat.zero_le i,hi⟩,rfl⟩

theorem slots_indices_ascending (xs : List V) : ((slots 0 xs).map Prod.fst).Pairwise (· < ·) :=
  List.pairwise_map.mpr (slots_listing xs).sorted

theorem last_slot_iff : (slots 0 xs).getLast?.map Prod.fst = some i ↔ IsGreatest (occupied xs) i := by
  rw [← List.getLast?_map, getLast?_eq_some_iff_isGreatest (slots_indices_ascending xs)]
  simp only [mem_slots_indices, Set.ofPred_mem_eq]

theorem first_slot_iff : (slots 0 xs).head?.map Prod.fst = some i ↔ IsLeast (occupied xs) i := by
  rw [← List.head?_map, head?_eq_some_iff_isLeast (slots_indices_ascending xs)]
  simp only [mem_slots_indices, Set.ofPred_mem_eq]

theorem slots_eq_nil_iff : slots 0 xs = [] ↔ occupied xs = ∅ := by
  rw [← List.map_eq_nil_iff (f := Prod.fst), List.eq_nil_iff_forall_not_mem, Set.eq_empty_iff_forall_notMem]
  simp only [mem_slots_indices]

theorem slots_length (k : ℕ) (xs : List V) : (slots k xs).length = xs.countP (· ≠ 0) := by
  induction xs generalizing k with
  | nil => rfl
  | cons x xs ih =>
    rw [slots, List.length_append, ih]
    by_cases hx : x = 0
    · rw [hx, entry_zero, List.countP_cons_of_neg (by simp)]
      exact Nat.zero_add _
    · rw [entry_of_ne k hx, List.countP_cons_of_pos (by simp [hx])]
      exact Nat.add_comm _ _

theorem slots_length_pos (hi : i ∈ occupied xs) : 0 < (slots 0 xs).length := by
  rw [← mem_slots_indices] at hi
  have hpos := List.length_pos_of_mem hi
  rwa [List.length_map] at hpos

end Occupied
end LowLatencyLob.Sequence
