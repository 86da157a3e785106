import Mathlib.Data.List.Basic

/-! The operations of a growable array and of a slice that can panic, with `none` for
a panic, and searching and copying as the standard library does it. -/
namespace LowLatencyLob.Sequence.Slice

variable {α : Type*}

/-- `v.remove(i)` -/
def remove (l : List α) (i : ℕ) : Option (List α) := if i < l.length then some (l.eraseIdx i) else none

/-- `v.insert(i, x)` -/
def insert (l : List α) (i : ℕ) (x : α) : Option (List α) :=
  if i ≤ l.length then some (l.insertIdx i x) else none

/-- `v[i] = x` -/
def set (l : List α) (i : ℕ) (x : α) : Option (List α) := if i < l.length then some (l.set i x) else none

/-- An assignment to a part of `v[i]`, such as `v[i].1 = y`. -/
def modify (l : List α) (i : ℕ) (f : α → α) : Option (List α) :=
  if i < l.length then some (l.modify i f) else none

theorem remove_append (l₁ l₂ : List α) (x : α) : remove (l₁ ++ x :: l₂) l₁.length = some (l₁ ++ l₂) := by
  simp [remove, List.eraseIdx_append_of_length_le]

theorem insert_append (l₁ l₂ : List α) (x : α) :
    insert (l₁ ++ l₂) l₁.length x = some (l₁ ++ x :: l₂) := by
  induction l₁ with
  | nil => simp [insert]
  | cons y l₁ ih => simpa [insert] using ih

theorem set_append (l₁ l₂ : List α) (x y : α) :
    set (l₁ ++ x :: l₂) l₁.length y = some (l₁ ++ y :: l₂) := by
  simp [set]

theorem modify_append (l₁ l₂ : List α) (x : α) (f : α → α) :
    modify (l₁ ++ x :: l₂) l₁.length f = some (l₁ ++ f x :: l₂) := by
  simp [modify, List.modify_eq_set_getElem?]

/-- `slice.iter().position(p)`: where the first element that satisfies `p` stands. -/
theorem position_cases (p : α → Bool) (l : List α) :
    (∃ l₁ x l₂, l = l₁ ++ x :: l₂ ∧ l.findIdx? p = some l₁.length ∧ p x = true ∧ ∀ y ∈ l₁, p y = false) ∨
    (l.findIdx? p = none ∧ ∀ y ∈ l, p y = false) := by
  induction l with
  | nil => exact .inr ⟨rfl,by simp⟩
  | cons x l ih =>
    by_cases hx : p x = true
    · exact .inl ⟨[],x,l,rfl,by simp [List.findIdx?_cons, hx],hx,by simp⟩
    · have hx' : p x = false := by simpa using hx
      rcases ih with ⟨l₁,y,l₂,rfl,hi,hy,hl⟩ | ⟨hi,hl⟩
      · refine .inl ⟨x :: l₁,y,l₂,rfl,?_,hy,List.forall_mem_cons.mpr ⟨hx',hl⟩⟩
        rw [List.findIdx?_cons, if_neg hx, hi]
        rfl
      · refine .inr ⟨?_,List.forall_mem_cons.mpr ⟨hx',hl⟩⟩
        rw [List.findIdx?_cons, if_neg hx, hi]
        rfl

section Search

/-- The loop of the standard binary search: `size` elements from `base` on are left, and
`f` compares the element at an index with what is sought. -/
def searchLoop (f : ℕ → Ordering) : ℕ → ℕ → ℕ → ℕ
  | 0, _, base => base
  | fuel+1, size, base =>
    if size > 1 then
      let half := size/2
      let mid := base+half
      searchLoop f fuel (size-half) (if f mid = .gt then base else mid)
    else base

/-- `slice.binary_search_by(f)`: the index of a match, or the place to insert one. -/
def binarySearchBy (l : List α) (f : α → Ordering) : Except ℕ ℕ :=
  if l.length = 0 then .error 0
  else
    let compareAt := fun i : ℕ => (l[i]?.map f).getD .gt
    let base := searchLoop compareAt l.length l.length 0
    match compareAt base with
    | .eq => .ok base
    | .lt => .error (base+1)
    | .gt => .error base

/-- Everything from `base+size` on compares greater, and so does nothing up to `base`,
unless the search has not moved yet. -/
def Narrowed (f : ℕ → Ordering) (n size base : ℕ) : Prop :=
  0 < size ∧ base+size ≤ n ∧ (∀ i, base+size ≤ i → i < n → f i = .gt) ∧ (base = 0 ∨ f base ≠ .gt)

theorem Narrowed.half {f : ℕ → Ordering} {n size base : ℕ}
    (hmono : ∀ i j, i < j → j < n → f i = .gt → f j = .gt) (h : Narrowed f n size base)
    (hs : size > 1) :
    Narrowed f n (size-size/2) (if f (base+size/2) = .gt then base else base+size/2) := by
  obtain ⟨_,hle,hgt,hbase⟩ := h
  split_ifs with hmid
  · refine ⟨by omega,by omega,fun i hi hn => ?_,hbase⟩
    by_cases heq : i = base+size/2
    · rw [heq]
      exact hmid
    · exact hmono (base+size/2) i (by omega) hn hmid
  · exact ⟨by omega,by omega,fun i hi hn => hgt i (by omega) hn,.inr hmid⟩

/-- The loop ends with one candidate left. -/
theorem searchLoop_narrowed {f : ℕ → Ordering} {n : ℕ}
    (hmono : ∀ i j, i < j → j < n → f i = .gt → f j = .gt) (fuel size base : ℕ)
    (hfuel : size ≤ fuel+1) (h : Narrowed f n size base) :
    Narrowed f n 1 (searchLoop f fuel size base) := by
  induction fuel generalizing size base with
  | zero =>
    have h1 : size = 1 := by
      have := h.1
      omega
    rw [h1] at h
    exact h
  | succ fuel ih =>
    unfold searchLoop
    split_ifs with hs
    · exact ih _ _ (by omega) (h.half hmono hs)
    · have h1 : size = 1 := by
        have := h.1
        omega
      rw [h1] at h
      exact h

section Spec
variable {l : List α} {f : α → Ordering}

/-- The part of a slice before an element that does not compare greater compares less. -/
theorem lt_of_mem_take (h : l.Pairwise fun a b => f a = .lt ∨ f b = .gt) {i : ℕ} {x : α}
    (hi : l[i]? = some x) (hx : f x ≠ .gt) : ∀ y ∈ l.take i, f y = .lt := by
  intro y hy
  obtain ⟨j,hj,rfl⟩ := List.mem_take_iff_getElem.mp hy
  obtain ⟨hlt,rfl⟩ := List.getElem?_eq_some_iff.mp hi
  have hp := List.pairwise_iff_getElem.mp h j i (by omega) hlt (by omega)
  exact hp.resolve_right hx

theorem gt_of_mem_drop {n : ℕ} (h : ∀ (i : ℕ) x, n ≤ i → l[i]? = some x → f x = .gt) :
    ∀ y ∈ l.drop n, f y = .gt := by
  intro y hy
  obtain ⟨i,hi⟩ := List.mem_iff_getElem?.mp hy
  rw [List.getElem?_drop] at hi
  exact h (n+i) y (by omega) hi

/-- On a slice that compares less, then at most once equal, then greater, the search
finds the match or the place between the two parts. -/
theorem binarySearchBy_spec (h : l.Pairwise fun a b => f a = .lt ∨ f b = .gt) :
    (∃ l₁ x l₂, l = l₁ ++ x :: l₂ ∧ binarySearchBy l f = .ok l₁.length ∧ f x = .eq) ∨
    (∃ l₁ l₂, l = l₁ ++ l₂ ∧ binarySearchBy l f = .error l₁.length ∧ (∀ x ∈ l₁, f x = .lt) ∧
      ∀ x ∈ l₂, f x = .gt) := by
  by_cases hl : l.length = 0
  · obtain rfl := List.length_eq_zero_iff.mp hl
    exact .inr ⟨[],[],rfl,rfl,by simp,by simp⟩
  generalize hc : (fun i : ℕ => (l[i]?.map f).getD .gt) = c
  have hval : ∀ {i : ℕ} {x : α}, l[i]? = some x → c i = f x := by
    intro i x hi
    simp [← hc, hi]
  have hmono : ∀ i j, i < j → j < l.length → c i = .gt → c j = .gt := by
    intro i j hij hj hi
    rw [hval (List.getElem?_eq_getElem (Nat.lt_trans hij hj))] at hi
    rw [hval (List.getElem?_eq_getElem hj)]
    have hp := List.pairwise_iff_getElem.mp h i j (Nat.lt_trans hij hj) hj hij
    rw [hi] at hp
    exact hp.resolve_left (by simp)
  obtain ⟨_,hle,hgt,hbase⟩ := searchLoop_narrowed (f := c) (n := l.length) hmono l.length l.length 0
    (by omega) ⟨by omega,by omega,fun i hi hn => by omega,.inl rfl⟩
  have hsearch : binarySearchBy l f = match c (searchLoop c l.length l.length 0) with
      | .eq => .ok (searchLoop c l.length l.length 0)
      | .lt => .error (searchLoop c l.length l.length 0+1)
      | .gt => .error (searchLoop c l.length l.length 0) := by
    rw [← hc]
    exact if_neg hl
  generalize searchLoop c l.length l.length 0 = base at *
  have hlt : base < l.length := by omega
  have hx : l[base]? = some l[base] := List.getElem?_eq_getElem hlt
  have hdrop : ∀ y ∈ l.drop (base+1), f y = .gt := by
    apply gt_of_mem_drop
    intro i y hi hy
    rw [← hval hy]
    exact hgt i hi (List.getElem?_eq_some_iff.mp hy).1
  cases hcmp : c base with
  | eq =>
    rw [hcmp] at hsearch
    refine .inl ⟨l.take base,l[base],l.drop (base+1),?_,?_,?_⟩
    · rw [List.getElem_cons_drop, List.take_append_drop]
    · rw [hsearch, List.length_take, Nat.min_eq_left (Nat.le_of_lt hlt)]
    · rw [← hval hx, hcmp]
  | lt =>
    rw [hcmp] at hsearch
    refine .inr ⟨l.take (base+1),l.drop (base+1),(List.take_append_drop _ l).symm,?_,?_,hdrop⟩
    · rw [hsearch, List.length_take, Nat.min_eq_left hlt]
    · intro y hy
      have hxlt : f l[base] = .lt := by rw [← hval hx, hcmp]
      rw [List.take_add_one, hx] at hy
      rcases List.mem_append.mp hy with hy | hy
      · exact lt_of_mem_take h hx (by simp [hxlt]) y hy
      · obtain rfl : y = l[base] := by simpa using hy
        exact hxlt
  | gt =>
    rw [hcmp] at hsearch
    obtain rfl : base = 0 := hbase.resolve_right (by simp [hcmp])
    refine .inr ⟨[],l,rfl,hsearch,by simp,?_⟩
    intro y hy
    obtain ⟨i,hi⟩ := List.mem_iff_getElem?.mp hy
    rw [← hval hi]
    rcases Nat.eq_zero_or_pos i with rfl | hpos
    · exact hcmp
    · exact hgt i (by omega) (List.getElem?_eq_some_iff.mp hi).1

end Spec

end Search

section Copy

/-- What copying `src` over the front of `out` leaves: how many elements were written,
and the buffer. -/
def written (src out : List α) : ℕ × List α :=
  (min out.length src.length,src.take out.length ++ out.drop src.length)

@[simp] theorem written_nil (out : List α) : written [] out = (0,out) := by simp [written]

@[simp] theorem written_full (src : List α) : written src [] = (0,[]) := by simp [written]

theorem written_cons (x y : α) (src out : List α) :
    written (x :: src) (y :: out) = ((written src out).1+1,x :: (written src out).2) := by
  simp [written]

theorem written_of_length_eq {src out : List α} (h : out.length = src.length) :
    written src out = (src.length,src) := by
  simp [written, h]

theorem take_written (src out : List α) : (written src out).2.take (written src out).1 = src.take out.length :=
  List.take_left' List.length_take

/-- Up to the count the buffer holds the first elements of `src`. -/
theorem front_written (src out : List α) :
    (written src out).2.take (written src out).1 = src.take (written src out).1 := by
  have hmin : (written src out).1 = min out.length src.length := rfl
  rw [take_written, hmin]
  exact List.take_eq_take_min

/-- From the count on the buffer is as it was. -/
theorem rest_written (src out : List α) :
    (written src out).2.drop (written src out).1 = out.drop (written src out).1 := by
  have hlen : (src.take out.length).length = min out.length src.length := List.length_take
  rw [written, ← hlen, List.drop_left]
  rcases Nat.le_total out.length src.length with h | h
  · rw [List.drop_eq_nil_of_le h, hlen, Nat.min_eq_left h, List.drop_length]
  · rw [hlen, Nat.min_eq_right h]

/-- `for (slot, x) in out.iter_mut().zip(src) { *slot = *x; n += 1; }` -/
def zipWrite : List α → List α → ℕ × List α
  | x :: src, _ :: out =>
    let (n,out) := zipWrite src out
    (n+1,x :: out)
  | _, out => (0,out)

theorem zipWrite_eq (src out : List α) : zipWrite src out = written src out := by
  induction src generalizing out with
  | nil => simp [zipWrite]
  | cons x src ih =>
    cases out with
    | nil => simp [zipWrite]
    | cons y out => simp [zipWrite, ih, written_cons]

/-- `for x in src { out[n] = x; n += 1; }` from the index `n` on. -/
def indexWrite : List α → ℕ × List α → Option (ℕ × List α)
  | [], s => some s
  | x :: src, (n,out) => do
    let out ← set out n x
    indexWrite src (n+1,out)

theorem indexWrite_append (src pre out : List α) (h : src.length ≤ out.length) :
    indexWrite src (pre.length,pre ++ out) = some (pre.length+src.length,pre ++ src ++ out.drop src.length) := by
  induction src generalizing pre out with
  | nil => simp [indexWrite]
  | cons x src ih =>
    cases out with
    | nil => simp at h
    | cons y out =>
      have hstep := ih (pre ++ [x]) out (by simpa using h)
      simp only [List.length_append, List.length_singleton, List.append_assoc, List.singleton_append] at hstep
      simp only [indexWrite, set_append, Option.bind_eq_bind, Option.bind_some, hstep]
      simp only [List.length_cons, List.drop_succ_cons, List.append_assoc, List.cons_append, Option.some.injEq,
        Prod.mk.injEq, and_true]
      omega

/-- Taking no more than fits, as `it.take(out.len())` does. -/
theorem indexWrite_take (src out : List α) :
    indexWrite (src.take out.length) (0,out) = some (written src out) := by
  have h := indexWrite_append (src.take out.length) [] out (List.length_take_le _ _)
  rw [List.length_take] at h
  simp only [List.length_nil, List.nil_append, Nat.zero_add] at h
  rw [h, written]
  congr 3
  by_cases hle : out.length ≤ src.length
  · rw [Nat.min_eq_left hle, List.drop_length, List.drop_eq_nil_of_le hle]
  · rw [Nat.min_eq_right (by omega)]

end Copy
end LowLatencyLob.Sequence.Slice
