import Mathlib.Data.List.Basic
import Mathlib.Logic.Function.Basic
import Mathlib.Order.Nat

/-! Copies of a map that goes through versions, kept up to date from a snapshot of one
version and from diffs with the new values of some keys.

A diff may overlap what a copy has: it carries the newest value of every key that
changed, so nothing but a gap before it can do harm. -/
namespace LowLatencyLob.Sequence

variable {K V : Type*} [DecidableEq K]

/-- Set the values of some keys, one after the other. -/
def overwrite (f : K → V) (es : List (K × V)) : K → V := es.foldl (fun f e => Function.update f e.1 e.2) f

theorem overwrite_cons (f : K → V) (e : K × V) (es : List (K × V)) :
    overwrite f (e :: es) = overwrite (Function.update f e.1 e.2) es := rfl

/-- Entries that all say what `g` says, and leave out only what is right already. -/
theorem overwrite_eq {f g : K → V} {es : List (K × V)} (hs : ∀ e ∈ es, g e.1 = e.2)
    (hf : ∀ k, (∀ e ∈ es, e.1 ≠ k) → f k = g k) : overwrite f es = g := by
  induction es generalizing f with
  | nil =>
    funext k
    exact hf k (by simp)
  | cons e es ih =>
    rw [overwrite_cons]
    apply ih fun e' he' => hs e' (List.mem_cons_of_mem _ he')
    intro k hk
    by_cases he : k = e.1
    · subst k
      rw [Function.update_self]
      exact (hs e List.mem_cons_self).symm
    · rw [Function.update_of_ne he]
      apply hf k
      intro e' he'
      rcases List.mem_cons.mp he' with rfl | he'
      · exact Ne.symm he
      · exact hk e' he'

/-- The key changes with one of the versions `a..b`. -/
def Changed (h : ℕ → K → V) (a b : ℕ) (k : K) : Prop := ∃ n, a ≤ n ∧ n ≤ b ∧ h n k ≠ h (n-1) k

omit [DecidableEq K] in
theorem eq_of_not_changed {h : ℕ → K → V} {a b n : ℕ} {k : K} (hk : ¬ Changed h a b k) (ha : a ≤ n+1)
    (hb : n ≤ b) : h n k = h b k := by
  induction b, hb using Nat.le_induction with
  | base => rfl
  | succ b hb ih =>
    have hlast : h (b+1) k = h b k := by
      by_contra hne
      exact hk ⟨b+1,by omega,le_rfl,hne⟩
    rw [hlast]
    exact ih fun ⟨m,hm,hm',hne⟩ => hk ⟨m,hm,by omega,hne⟩

/-- The entries are values of version `b`, and include every key that changes in `a..b`. -/
structure Carries (h : ℕ → K → V) (a b : ℕ) (es : List (K × V)) : Prop where
  states : ∀ e ∈ es, h b e.1 = e.2
  complete : ∀ k, Changed h a b k → ∃ e ∈ es, e.1 = k

/-- A diff without a gap before it brings a copy of version `n` to version `b`. -/
theorem Carries.overwrite {h : ℕ → K → V} {a b n : ℕ} {es : List (K × V)} (hc : Carries h a b es)
    (ha : a ≤ n+1) (hb : n ≤ b) : Sequence.overwrite (h n) es = h b := by
  apply overwrite_eq hc.states
  intro k hk
  apply eq_of_not_changed _ ha hb
  intro hchanged
  obtain ⟨e,he,hek⟩ := hc.complete k hchanged
  exact hk e he hek

/-- The entries are values of version `b`, and include every key with a value not zero. -/
structure Complete [Zero V] (h : ℕ → K → V) (b : ℕ) (es : List (K × V)) : Prop where
  states : ∀ e ∈ es, h b e.1 = e.2
  complete : ∀ k, h b k ≠ 0 → ∃ e ∈ es, e.1 = k

/-- A snapshot brings an empty copy to its version. -/
theorem Complete.overwrite [Zero V] {h : ℕ → K → V} {b : ℕ} {es : List (K × V)} (hc : Complete h b es) :
    Sequence.overwrite (fun _ => 0) es = h b := by
  apply overwrite_eq hc.states
  intro k hk
  by_contra hne
  obtain ⟨e,he,hek⟩ := hc.complete k (Ne.symm hne)
  exact hk e he hek

end LowLatencyLob.Sequence
