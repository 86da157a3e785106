import Mathlib.Data.List.Sort
import Mathlib.Logic.Function.Basic
import Mathlib.Algebra.Notation.Defs

/-! Finite maps as sorted lists of pairs.

A map into a type with a zero, read as absent, is listed by the pairs of its nonzero
entries in a strict order of the keys. A map has at most one listing, and an update of
the map at one key changes the listing at one place. -/
namespace LowLatencyLob.Sequence

variable {K V : Type*} [Zero V] {r : K → K → Prop} {f g : K → V} {l l' l₁ l₂ : List (K × V)}

/-- `l` lists, in the order `r` of the keys, exactly the entries of `f` that are not zero. -/
structure Listing (r : K → K → Prop) (f : K → V) (l : List (K × V)) : Prop where
  sorted : l.Pairwise fun a b => r a.1 b.1
  mem_iff : ∀ k v, (k,v) ∈ l ↔ v ≠ 0 ∧ f k = v

/-- The listing of a single entry: nothing, when it is zero. -/
def entry [DecidableEq V] (k : K) (v : V) : List (K × V) := if v = 0 then [] else [(k,v)]

@[simp] theorem entry_zero [DecidableEq V] (k : K) : entry k (0 : V) = [] := if_pos rfl

theorem entry_of_ne [DecidableEq V] (k : K) {v : V} (h : v ≠ 0) : entry k v = [(k,v)] := if_neg h

theorem mem_entry [DecidableEq V] {k : K} {v : V} {x : K × V} :
    x ∈ entry k v ↔ v ≠ 0 ∧ x = (k,v) := by
  unfold entry
  split_ifs with h
  · simp [h]
  · simp [h]

/-- A strictly sorted list without the key `k` has a place for it. -/
theorem exists_place {K V : Type*} {r : K → K → Prop} [IsStrictOrder K r] [Std.Trichotomous r] {l : List (K × V)}
    {k : K} (hs : l.Pairwise fun a b => r a.1 b.1) (hk : ∀ x ∈ l, x.1 ≠ k) :
    ∃ l₁ l₂, l = l₁ ++ l₂ ∧ (∀ x ∈ l₁, r x.1 k) ∧ ∀ x ∈ l₂, r k x.1 := by
  induction l with
  | nil => exact ⟨[],[],rfl,by simp,by simp⟩
  | cons x l ih =>
    obtain ⟨hx,hs⟩ := List.pairwise_cons.mp hs
    obtain ⟨hxk,hk⟩ := List.forall_mem_cons.mp hk
    rcases trichotomous_of r x.1 k with h | h | h
    · obtain ⟨l₁,l₂,rfl,h₁,h₂⟩ := ih hs hk
      exact ⟨x :: l₁,l₂,rfl,List.forall_mem_cons.mpr ⟨h,h₁⟩,h₂⟩
    · exact absurd h hxk
    · refine ⟨[],x :: l,rfl,by simp,List.forall_mem_cons.mpr ⟨h,?_⟩⟩
      intro y hy
      exact trans_of r h (hx y hy)

namespace Listing

theorem empty : Listing r (fun _ => (0 : V)) [] :=
  ⟨.nil,fun _ _ => ⟨fun h => absurd h List.not_mem_nil,fun h => absurd h.2.symm h.1⟩⟩

theorem ne_zero (h : Listing r f l) {x : K × V} (hx : x ∈ l) : x.2 ≠ 0 := ((h.mem_iff _ _).mp hx).1

theorem value (h : Listing r f l) {x : K × V} (hx : x ∈ l) : f x.1 = x.2 := ((h.mem_iff _ _).mp hx).2

theorem exists_mem_iff (h : Listing r f l) (k : K) : (∃ v, (k,v) ∈ l) ↔ f k ≠ 0 := by
  constructor
  · intro ⟨v,hv⟩
    rw [h.value hv]
    exact h.ne_zero hv
  · intro hk
    exact ⟨f k,(h.mem_iff k (f k)).mpr ⟨hk,rfl⟩⟩

theorem reverse (h : Listing r f l) : Listing (Function.swap r) f l.reverse :=
  ⟨List.pairwise_reverse.mpr h.sorted,fun k v => by rw [List.mem_reverse, h.mem_iff]⟩

/-- Renaming the keys along a map that keeps their order. -/
theorem map {K' : Type*} {r' : K' → K' → Prop} {f' : K' → V} {g : K → K'} (h : Listing r f l)
    (hr : ∀ x ∈ l, ∀ y ∈ l, r x.1 y.1 → r' (g x.1) (g y.1)) (hf : ∀ x ∈ l, f' (g x.1) = f x.1)
    (hz : ∀ k', f' k' ≠ 0 → ∃ k, g k = k' ∧ f k = f' k') :
    Listing r' f' (l.map fun x => (g x.1,x.2)) := by
  refine ⟨List.pairwise_map.mpr (h.sorted.imp_of_mem fun hx hy => hr _ hx _ hy),fun k' v => ?_⟩
  constructor
  · intro hm
    obtain ⟨x,hx,heq⟩ := List.mem_map.mp hm
    obtain ⟨rfl,rfl⟩ := Prod.mk.inj heq
    exact ⟨h.ne_zero hx,(hf x hx).trans (h.value hx)⟩
  · rintro ⟨hv,hf'⟩
    obtain ⟨k,rfl,hk⟩ := hz k' (by rwa [hf'])
    exact List.mem_map.mpr ⟨(k,v),(h.mem_iff k v).mpr ⟨hv,hk.trans hf'⟩,rfl⟩

/-- A map has at most one listing. -/
theorem unique [Std.Asymm r] (h : Listing r f l) (h' : Listing r f l') : l = l' := by
  have : Std.Asymm fun a b : K × V => r a.1 b.1 := ⟨fun _ _ hab => asymm hab⟩
  refine h.sorted.eq_of_mem_iff h'.sorted fun x => ?_
  rw [h.mem_iff x.1 x.2, h'.mem_iff x.1 x.2]

/-- Maps with entries at the same keys have listings with the same keys. -/
theorem keys_eq [Std.Asymm r] (h : Listing r f l) (h' : Listing r g l') (hfg : ∀ k, f k ≠ 0 ↔ g k ≠ 0) :
    l.map Prod.fst = l'.map Prod.fst := by
  have hsorted := List.pairwise_map.mpr h.sorted
  have hsorted' := List.pairwise_map.mpr h'.sorted
  refine hsorted.eq_of_mem_iff hsorted' fun k => ?_
  have hk := h.exists_mem_iff k
  have hk' := h'.exists_mem_iff k
  simp only [List.mem_map, Prod.exists, exists_and_right, exists_eq_right, hk, hk', hfg]

/-- A list lists at most one map. -/
theorem value_unique {r' : K → K → Prop} (h : Listing r f l) (h' : Listing r' g l) : f = g := by
  funext k
  by_cases hf : f k = 0
  · by_contra hg
    have hm := (h'.mem_iff k (g k)).mpr ⟨fun hz => hg (hf.trans hz.symm),rfl⟩
    exact hg ((h.mem_iff k (g k)).mp hm).2
  · exact (h'.value ((h.mem_iff k (f k)).mpr ⟨hf,rfl⟩)).symm

section Strict
variable [IsStrictOrder K r] [DecidableEq V]

/-- A listing splits at any key, at its entry or between the smaller and the larger keys. -/
theorem split [Std.Trichotomous r] (h : Listing r f l) (k : K) : ∃ l₁ l₂, l = l₁ ++ (entry k (f k) ++ l₂) ∧
    (∀ x ∈ l₁, r x.1 k) ∧ ∀ x ∈ l₂, r k x.1 := by
  by_cases hf : f k = 0
  · obtain ⟨l₁,l₂,rfl,h₁,h₂⟩ := exists_place h.sorted (k := k) fun x hx hk =>
      h.ne_zero hx (by rw [← h.value hx, hk, hf])
    exact ⟨l₁,l₂,by rw [hf, entry_zero, List.nil_append],h₁,h₂⟩
  · obtain ⟨l₁,l₂,rfl⟩ := List.append_of_mem ((h.mem_iff k (f k)).mpr ⟨hf,rfl⟩)
    obtain ⟨_,hs,hc⟩ := List.pairwise_append.mp h.sorted
    refine ⟨l₁,l₂,by rw [entry_of_ne k hf]; rfl,?_,(List.pairwise_cons.mp hs).1⟩
    exact fun x hx => hc x hx _ List.mem_cons_self

variable [DecidableEq K]

/-- An update at `k` replaces whatever stood between the smaller and the larger keys. -/
theorem update {mid : List (K × V)} {k : K} (h : Listing r f (l₁ ++ (mid ++ l₂)))
    (h₁ : ∀ x ∈ l₁, r x.1 k) (hmid : ∀ x ∈ mid, x.1 = k) (h₂ : ∀ x ∈ l₂, r k x.1) (v : V) :
    Listing r (Function.update f k v) (l₁ ++ (entry k v ++ l₂)) := by
  obtain ⟨hs₁,hs,hc⟩ := List.pairwise_append.mp h.sorted
  obtain ⟨_,hs₂,_⟩ := List.pairwise_append.mp hs
  refine ⟨?_,fun k' v' => ?_⟩
  · refine List.pairwise_append.mpr ⟨hs₁,List.pairwise_append.mpr ⟨?_,hs₂,?_⟩,?_⟩
    · unfold entry
      split_ifs <;> simp
    · intro x hx y hy
      obtain ⟨_,rfl⟩ := mem_entry.mp hx
      exact h₂ y hy
    · intro x hx y hy
      rcases List.mem_append.mp hy with hy | hy
      · obtain ⟨_,rfl⟩ := mem_entry.mp hy
        exact h₁ x hx
      · exact hc x hx y (List.mem_append_right _ hy)
  · by_cases hk : k' = k
    · subst k'
      have hn₁ : (k,v') ∉ l₁ := fun hx => irrefl (r := r) k (h₁ _ hx)
      have hn₂ : (k,v') ∉ l₂ := fun hx => irrefl (r := r) k (h₂ _ hx)
      rw [List.mem_append, List.mem_append, mem_entry, Function.update_self]
      simp only [hn₁, hn₂, false_or, or_false, Prod.mk.injEq, true_and]
      constructor
      · rintro ⟨hv,rfl⟩
        exact ⟨hv,rfl⟩
      · rintro ⟨hv,rfl⟩
        exact ⟨hv,rfl⟩
    · have hmid' : (k',v') ∉ mid := fun hx => hk (hmid _ hx)
      have hentry : (k',v') ∉ entry k v := fun hx => hk (congrArg Prod.fst (mem_entry.mp hx).2)
      have hm := h.mem_iff k' v'
      simp only [List.mem_append, hmid', hentry, false_or, Function.update_of_ne hk] at hm ⊢
      exact hm

/-- The entry that a listing has at `k`, if any, splits the listing there. -/
theorem update_at {w : V} {k : K} (h : Listing r f (l₁ ++ (k,w) :: l₂)) (v : V) :
    Listing r (Function.update f k v) (l₁ ++ (entry k v ++ l₂)) := by
  obtain ⟨_,hs,hc⟩ := List.pairwise_append.mp h.sorted
  have hmid : ∀ x ∈ [(k,w)], x.1 = k := by simp
  exact h.update (fun x hx => hc x hx _ List.mem_cons_self) hmid (List.pairwise_cons.mp hs).1 v

/-- A key with no entry: its place is between the smaller and the larger keys. -/
theorem update_between {k : K} (h : Listing r f (l₁ ++ l₂)) (h₁ : ∀ x ∈ l₁, r x.1 k)
    (h₂ : ∀ x ∈ l₂, r k x.1) (v : V) :
    Listing r (Function.update f k v) (l₁ ++ (entry k v ++ l₂)) :=
  have hmid : ∀ x ∈ ([] : List (K × V)), x.1 = k := by simp
  h.update h₁ hmid h₂ v

/-- The listings before and after an update differ in the entry of the key alone. -/
theorem edit [Std.Trichotomous r] {k : K} {v : V} (h : Listing r f l)
    (h' : Listing r (Function.update f k v) l') :
    ∃ l₁ l₂, l = l₁ ++ (entry k (f k) ++ l₂) ∧ l' = l₁ ++ (entry k v ++ l₂) := by
  obtain ⟨l₁,l₂,rfl,h₁,h₂⟩ := h.split k
  refine ⟨l₁,l₂,rfl,h'.unique (h.update h₁ ?_ h₂ v)⟩
  intro x hx
  exact congrArg Prod.fst (mem_entry.mp hx).2

end Strict
end Listing
end LowLatencyLob.Sequence
