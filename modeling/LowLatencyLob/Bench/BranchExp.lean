import LowLatencyLob.Book.SortedVec
import LowLatencyLob.Concurrency.Solo
import Mathlib.Data.Nat.Log

/-! The two searches of the branch experiment, over the accesses that they make to their
array: where they end, and how many elements they look at. -/
namespace LowLatencyLob.Bench
open Book Concurrency Sequence

/-- An access to a slice: `arr[i]`, which can panic, and `arr.get(i)`. -/
inductive Read
  | index (i : ℕ)
  | get (i : ℕ)

abbrev Read.Value : Read → Type
  | .index _ => Int64
  | .get _ => Option Int64

def slice (arr : List Int64) : Memory Unit Read.Value where
  State := Unit
  Choice := Unit
  exec
    | _, _, .index i, _ => arr[i]?.map fun v => (v,())
    | _, _, .get i, _ => some (arr[i]?,())

def readIndex (i : ℕ) : Program Read.Value Int64 := .access (.index i) .done
def readGet (i : ℕ) : Program Read.Value (Option Int64) := .access (.get i) .done

/-- The loop of the branchless search, from `base` over `len` elements. -/
def branchlessLoop (key : Int64) (base len : ℕ) : Program Read.Value ℕ :=
  .loop (base,len) (fun (base,len) =>
    if len > 1 then do
      let half := len/2
      let mid := base+half
      let v ← readIndex mid
      return .inl (if v < key then mid else base,len-half)
    else return .inr base) .done

/-- `branchless_lower_bound` on an array of length `len`. -/
def branchlessLowerBound (len : ℕ) (key : Int64) : Program Read.Value ℕ := do
  let base ← branchlessLoop key 0 len
  let v ← readGet base
  return base+(if v.any (· < key) then 1 else 0)

/-- The loop of the branchy search, over the elements from `lo` up to `hi`. -/
def branchyLoop (key : Int64) (lo hi : ℕ) : Program Read.Value ℕ :=
  .loop (lo,hi) (fun (lo,hi) =>
    if lo < hi then do
      let mid := lo+(hi-lo)/2
      let v ← readIndex mid
      return .inl (if v < key then (mid+1,hi) else (lo,mid))
    else return .inr lo) .done

/-- `branchy_lower_bound` on an array of length `len`. -/
def branchyLowerBound (len : ℕ) (key : Int64) : Program Read.Value ℕ := branchyLoop key 0 len

/-- `arr.partition_point(|&v| v < key)` on an array that `v < key` partitions. -/
def partitionPoint (arr : List Int64) (key : Int64) : ℕ := (arr.takeWhile (· < key)).length

section Partition
variable {arr : List Int64} {key : Int64}

/-- What makes `k` the partition point. -/
theorem partitionPoint_eq {k : ℕ} (hk : k ≤ arr.length) (hlow : ∀ i < k, ∀ v, arr[i]? = some v → v < key)
    (hhigh : ∀ v, arr[k]? = some v → ¬v < key) : partitionPoint arr key = k := by
  induction arr generalizing k with
  | nil => exact (Nat.le_zero.mp hk).symm
  | cons x arr ih =>
    unfold partitionPoint at ih ⊢
    cases k with
    | zero => simp [hhigh x rfl]
    | succ k =>
      have hx : x < key := hlow 0 (Nat.succ_pos k) x rfl
      have hrest := ih (Nat.le_of_succ_le_succ hk) (fun i hi v hv => hlow (i+1) (Nat.succ_lt_succ hi) v hv) hhigh
      simp [hx, hrest]

/-- In a sorted array an element below the key has only such before it. -/
theorem below_of_sorted (h : arr.Pairwise (· ≤ ·)) {i j : ℕ} (hij : i ≤ j) {v w : Int64} (hi : arr[i]? = some v)
    (hj : arr[j]? = some w) (hw : w < key) : v < key := by
  rcases Nat.eq_or_lt_of_le hij with rfl | hlt
  · rw [hi] at hj
    cases hj
    exact hw
  · obtain ⟨hi',rfl⟩ := List.getElem?_eq_some_iff.mp hi
    obtain ⟨hj',rfl⟩ := List.getElem?_eq_some_iff.mp hj
    have hle := List.pairwise_iff_getElem.mp h i j hi' hj' hlt
    rw [Int64.lt_iff_toInt_lt] at hw ⊢
    rw [Int64.le_iff_toInt_le] at hle
    omega

end Partition

section Branchless
variable {arr : List Int64} {key : Int64} {base len : ℕ}

theorem branchless_more (h : len > 1) {v : Int64} (hv : arr[base+len/2]? = some v)
    {as : List (Σ a : Read, a.Value)} {x : ℕ}
    (hs : Solo (slice arr) () () (branchlessLoop key (if v < key then base+len/2 else base) (len-len/2)) as x ()) :
    Solo (slice arr) () () (branchlessLoop key base len) (⟨.index (base+len/2),v⟩ :: as) x () := by
  apply Solo.loop
  unfold Program.unroll
  dsimp only
  rw [if_pos h]
  exact .access () (congrArg (Option.map fun v => (v,())) hv) hs

theorem branchless_end (h : ¬len > 1) : Solo (slice arr) () () (branchlessLoop key base len) [] base () := by
  apply Solo.loop
  unfold Program.unroll
  dsimp only
  rw [if_neg h]
  exact .done (M := slice arr) _ _

/-- The partition point is neither before `base` nor past `base+len`. -/
structure Candidates (arr : List Int64) (key : Int64) (base len : ℕ) : Prop where
  inside : base+len ≤ arr.length
  below : base = 0 ∨ ∃ v, arr[base]? = some v ∧ v < key
  above : ∀ i, base+len ≤ i → ∀ v, arr[i]? = some v → ¬v < key

theorem Candidates.start (arr : List Int64) (key : Int64) : Candidates arr key 0 arr.length where
  inside := (Nat.zero_add _).le
  below := .inl rfl
  above i hi v hv := by
    have hlt := (List.getElem?_eq_some_iff.mp hv).1
    omega

theorem Candidates.half (hsort : arr.Pairwise (· ≤ ·)) (h : Candidates arr key base len) (hlen : len > 1) {v : Int64}
    (hv : arr[base+len/2]? = some v) :
    Candidates arr key (if v < key then base+len/2 else base) (len-len/2) := by
  have hin := h.inside
  split_ifs with hlt
  · exact ⟨by omega,.inr ⟨v,hv,hlt⟩,fun i hi => h.above i (by omega)⟩
  · refine ⟨by omega,h.below,fun i hi w hw hwkey => ?_⟩
    have hle : base+len/2 ≤ i := by omega
    exact hlt (below_of_sorted hsort hle hv hw hwkey)

/-- The loop ends with one candidate left, and the number of its steps depends on `len` alone. -/
theorem branchlessLoop_runs (hsort : arr.Pairwise (· ≤ ·)) (h : Candidates arr key base len) :
    ∃ (as : List (Σ a : Read, a.Value)) (base' : ℕ), Solo (slice arr) () () (branchlessLoop key base len) as base' () ∧
      Candidates arr key base' (min len 1) ∧ as.length = Nat.clog 2 len := by
  induction len using Nat.strongRec generalizing base with
  | ind len ih =>
    by_cases hlen : len > 1
    · have hin := h.inside
      obtain ⟨v,hv⟩ : ∃ v, arr[base+len/2]? = some v := ⟨_,List.getElem?_eq_getElem (by omega)⟩
      obtain ⟨as,base',hs,hcand,hcount⟩ := ih (len-len/2) (by omega) (h.half hsort hlen hv)
      rw [min_eq_right (by omega)] at hcand
      refine ⟨_,base',branchless_more hlen hv hs,?_,?_⟩
      · rw [min_eq_right (by omega)]
        exact hcand
      · have hhalf : (len+2-1)/2 = len-len/2 := by omega
        rw [List.length_cons, hcount, Nat.clog_of_two_le (by decide) hlen, hhalf]
    · refine ⟨[],base,branchless_end hlen,?_,?_⟩
      · rw [min_eq_left (by omega)]
        exact h
      · exact (Nat.clog_of_right_le_one (by omega) 2).symm

theorem Candidates.before (hsort : arr.Pairwise (· ≤ ·)) (h : Candidates arr key base len) :
    ∀ i < base, ∀ v, arr[i]? = some v → v < key := by
  intro i hi v hv
  rcases h.below with rfl | ⟨w,hw,hlt⟩
  · cases hi
  · exact below_of_sorted hsort hi.le hv hw hlt

/-- The last comparison settles the one candidate. -/
theorem Candidates.settled (hsort : arr.Pairwise (· ≤ ·)) (h : Candidates arr key base (min arr.length 1)) :
    base+(if (arr[base]?).any (· < key) then 1 else 0) = partitionPoint arr key := by
  have hin := h.inside
  cases hv : arr[base]? with
  | none => exact (partitionPoint_eq (by omega) (h.before hsort) (by simp [hv])).symm
  | some v =>
    have hlen := (List.getElem?_eq_some_iff.mp hv).1
    by_cases hlt : v < key
    · have hlow : ∀ i < base+1, ∀ w, arr[i]? = some w → w < key :=
        fun i hi w hw => below_of_sorted hsort (Nat.le_of_lt_succ hi) hw hv hlt
      rw [partitionPoint_eq hlen hlow (h.above (base+1) (by omega))]
      simp [hlt]
    · rw [partitionPoint_eq hlen.le (h.before hsort) (by simpa [hv] using hlt)]
      simp [hlt]

end Branchless

section Branchy
variable {arr : List Int64} {key : Int64} {lo hi : ℕ}

theorem branchy_more (h : lo < hi) {v : Int64} (hv : arr[lo+(hi-lo)/2]? = some v)
    {as : List (Σ a : Read, a.Value)} {x : ℕ} (hs : Solo (slice arr) () ()
      (if v < key then branchyLoop key (lo+(hi-lo)/2+1) hi else branchyLoop key lo (lo+(hi-lo)/2)) as x ()) :
    Solo (slice arr) () () (branchyLoop key lo hi) (⟨.index (lo+(hi-lo)/2),v⟩ :: as) x () := by
  apply Solo.loop
  unfold Program.unroll
  dsimp only
  rw [if_pos h]
  refine .access () (congrArg (Option.map fun v => (v,())) hv) ?_
  change Solo (slice arr) () () (.loop (if v < key then (lo+(hi-lo)/2+1,hi) else (lo,lo+(hi-lo)/2)) _ .done) as x ()
  split_ifs at hs ⊢ <;> exact hs

theorem branchy_end (h : ¬lo < hi) : Solo (slice arr) () () (branchyLoop key lo hi) [] lo () := by
  apply Solo.loop
  unfold Program.unroll
  dsimp only
  rw [if_neg h]
  exact .done (M := slice arr) _ _

/-- The loop ends at the partition point, and every step at least halves what is left. -/
theorem branchyLoop_runs (hsort : arr.Pairwise (· ≤ ·)) (hle : lo ≤ hi) (hlen : hi ≤ arr.length)
    (hlow : ∀ i < lo, ∀ v, arr[i]? = some v → v < key) (hhigh : ∀ i, hi ≤ i → ∀ v, arr[i]? = some v → ¬v < key) :
    ∃ (as : List (Σ a : Read, a.Value)), Solo (slice arr) () () (branchyLoop key lo hi) as (partitionPoint arr key) () ∧
      as.length ≤ Nat.clog 2 (hi-lo+1) := by
  induction hn : hi-lo using Nat.strongRec generalizing lo hi with
  | ind n ih =>
    by_cases hlt : lo < hi
    · obtain ⟨v,hv⟩ : ∃ v, arr[lo+(hi-lo)/2]? = some v := ⟨_,List.getElem?_eq_getElem (by omega)⟩
      have hclog : Nat.clog 2 (n+1) = Nat.clog 2 (n/2+1)+1 := by
        have hhalf : (n+1+2-1)/2 = n/2+1 := by omega
        rw [Nat.clog_of_two_le (by decide) (by omega), hhalf]
      by_cases hvkey : v < key
      · have hlow' : ∀ i < lo+(hi-lo)/2+1, ∀ w, arr[i]? = some w → w < key :=
          fun i hi w hw => below_of_sorted hsort (Nat.le_of_lt_succ hi) hw hv hvkey
        obtain ⟨as,hs,hcount⟩ := ih _ (by omega) (by omega) hlen hlow' hhigh rfl
        refine ⟨_,branchy_more hlt hv (by rwa [if_pos hvkey]),?_⟩
        have hmono := Nat.clog_mono_right 2 (show hi-(lo+(hi-lo)/2+1)+1 ≤ n/2+1 by omega)
        rw [List.length_cons, hclog]
        omega
      · have hhigh' : ∀ i, lo+(hi-lo)/2 ≤ i → ∀ w, arr[i]? = some w → ¬w < key :=
          fun i hi w hw hwkey => hvkey (below_of_sorted hsort hi hv hw hwkey)
        obtain ⟨as,hs,hcount⟩ := ih _ (by omega) (by omega) (by omega) hlow hhigh' rfl
        refine ⟨_,branchy_more hlt hv (by rwa [if_neg hvkey]),?_⟩
        have hmono := Nat.clog_mono_right 2 (show lo+(hi-lo)/2-lo+1 ≤ n/2+1 by omega)
        rw [List.length_cons, hclog]
        omega
    · have hpp : partitionPoint arr key = lo :=
        partitionPoint_eq (by omega) hlow fun v hv => hhigh lo (by omega) v hv
      rw [hpp]
      exact ⟨[],branchy_end hlt,Nat.zero_le _⟩

end Branchy

theorem branchlessLowerBound_runs {arr : List Int64} (hsort : arr.Pairwise (· ≤ ·)) (key : Int64) :
    ∃ as : List (Σ a : Read, a.Value),
      Solo (slice arr) () () (branchlessLowerBound arr.length key) as (partitionPoint arr key) () ∧
      as.length = Nat.clog 2 arr.length+1 := by
  obtain ⟨as,base,hs,hcand,hcount⟩ := branchlessLoop_runs hsort (Candidates.start arr key)
  refine ⟨as ++ [⟨.get base,arr[base]?⟩],?_,?_⟩
  · rw [← hcand.settled hsort]
    exact hs.bind (.access () rfl (.done (M := slice arr) _ _))
  · rw [List.length_append, hcount]
    rfl

/-- On every sorted array, for every key, both searches end, never read past the array and
agree with `partition_point`. The branchless one looks at `⌈log₂ n⌉ + 1` elements whatever
the key is, the branchy one at no more than `⌈log₂ (n + 1)⌉`. -/
theorem lower_bounds_agree {arr : List Int64} (hsort : arr.Pairwise (· ≤ ·)) (key : Int64) :
    ∃ as bs : List (Σ a : Read, a.Value),
      Solo (slice arr) () () (branchlessLowerBound arr.length key) as (partitionPoint arr key) () ∧
      as.length = Nat.clog 2 arr.length+1 ∧
      Solo (slice arr) () () (branchyLowerBound arr.length key) bs (partitionPoint arr key) () ∧
      bs.length ≤ Nat.clog 2 (arr.length+1) := by
  obtain ⟨as,hs,hcount⟩ := branchlessLowerBound_runs hsort key
  have hpast : ∀ i, arr.length ≤ i → ∀ v, arr[i]? = some v → ¬v < key :=
    fun i hi v hv => absurd (List.getElem?_eq_some_iff.mp hv).1 hi.not_gt
  obtain ⟨bs,hs',hcount'⟩ := branchyLoop_runs hsort (Nat.zero_le _) le_rfl nofun hpast
  exact ⟨as,bs,hs,hcount,hs',hcount'⟩

theorem lower_bounds_agree_three : ∃ as bs : List (Σ a : Read, a.Value),
    Solo (slice [2,4,4]) () () (branchlessLowerBound 3 4) as 1 () ∧ as.length = 3 ∧
    Solo (slice [2,4,4]) () () (branchyLowerBound 3 4) bs 1 () ∧ bs.length ≤ 2 :=
  @lower_bounds_agree [2,4,4] (by decide) 4

section DropIn
variable {px : Px}

theorem partitionPoint_append {l₁ l₂ : List Int64} (h₁ : ∀ v ∈ l₁, v < px) (h₂ : ∀ v ∈ l₂.head?, ¬v < px) :
    partitionPoint (l₁ ++ l₂) px = l₁.length := by
  refine partitionPoint_eq (by simp) (fun i hi v hv => ?_) fun v hv => ?_
  · rw [List.getElem?_append_left hi] at hv
    exact h₁ v (List.mem_of_getElem? hv)
  · rw [List.getElem?_append_right le_rfl, Nat.sub_self, ← List.head?_eq_getElem?] at hv
    exact h₂ v hv

/-- Where the binary search of a `SortedVecBook` finds a price, or has it inserted, is where the
branchless search of its prices ends. -/
theorem branchless_drop_in {vec : List (Px × Qty)} (hsort : vec.Pairwise fun a b => a.1 < b.1) (px : Px) :
    ∃ (as : List (Σ a : Read, a.Value)) (i : ℕ),
      Solo (slice (vec.map Prod.fst)) () () (branchlessLowerBound vec.length px) as i () ∧
      Slice.binarySearchBy vec (fun x => compare x.1 px) = if px ∈ vec.map Prod.fst then .ok i else .error i := by
  have hcmp : vec.Pairwise fun a b => compare a.1 px = .lt ∨ compare b.1 px = .gt := by
    refine hsort.imp ?_
    intro a b hab
    rw [Std.compare_eq_lt, Std.compare_eq_gt]
    by_cases hlt : a.1 < px
    · exact .inl hlt
    · exact .inr (Int64.lt_of_le_of_lt (Int64.not_lt.mp hlt) hab)
  have hle : (vec.map Prod.fst).Pairwise (· ≤ ·) := List.pairwise_map.mpr (hsort.imp Int64.le_of_lt)
  obtain ⟨as,hs,_⟩ := branchlessLowerBound_runs hle px
  rw [List.length_map] at hs
  refine ⟨as,_,hs,?_⟩
  rcases Slice.binarySearchBy_spec hcmp with ⟨l₁,⟨p,q⟩,l₂,rfl,hsearch,hp⟩ | ⟨l₁,l₂,rfl,hsearch,h₁,h₂⟩
  · obtain rfl : p = px := Std.compare_eq_iff_eq.mp hp
    have hbelow : ∀ v ∈ l₁.map Prod.fst, v < p := by
      intro v hv
      obtain ⟨x,hx,rfl⟩ := List.mem_map.mp hv
      exact (List.pairwise_append.mp hsort).2.2 x hx _ (.head _)
    have hpp : partitionPoint (l₁.map Prod.fst ++ (⟨p,q⟩ :: l₂).map Prod.fst) p = (l₁.map Prod.fst).length :=
      partitionPoint_append hbelow (by simp)
    rw [hsearch, if_pos (by simp), List.map_append, hpp, List.length_map]
  · have hbelow : ∀ v ∈ l₁.map Prod.fst, v < px := by
      intro v hv
      obtain ⟨x,hx,rfl⟩ := List.mem_map.mp hv
      exact Std.compare_eq_lt.mp (h₁ x hx)
    have habove : ∀ v ∈ l₂.map Prod.fst, px < v := by
      intro v hv
      obtain ⟨x,hx,rfl⟩ := List.mem_map.mp hv
      exact Std.compare_eq_gt.mp (h₂ x hx)
    have hpp := partitionPoint_append hbelow fun v hv =>
      Int64.not_lt.mpr (Int64.le_of_lt (habove v (List.mem_of_mem_head? hv)))
    have hmem : px ∉ (l₁ ++ l₂).map Prod.fst := by
      rw [List.map_append, List.mem_append, not_or]
      exact ⟨fun hm => Int64.lt_irrefl (hbelow px hm),fun hm => Int64.lt_irrefl (habove px hm)⟩
    rw [hsearch, if_neg hmem, List.map_append, hpp, List.length_map]

theorem branchless_drop_in_two : ∃ (as : List (Σ a : Read, a.Value)) (i : ℕ),
    Solo (slice [5,9]) () () (branchlessLowerBound 2 9) as i () ∧
    Slice.binarySearchBy [((5 : Px),(1 : Qty)),(9,2)] (fun x => compare x.1 9) = .ok i :=
  @branchless_drop_in [(5,1),(9,2)] (by decide) 9

end DropIn
end LowLatencyLob.Bench
