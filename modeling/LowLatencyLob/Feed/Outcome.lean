import Mathlib.Init

/-! Code that may fail with an error, and may panic: sequences of it, step by step. -/
namespace LowLatencyLob.Feed

variable {ε α β : Type}

theorem throw_bind (e : ε) (f : α → ExceptT ε Option β) : (throw e >>= f : ExceptT ε Option β) = throw e := rfl

theorem lift_bind (x : α) (f : α → ExceptT ε Option β) :
    (liftM (some x) >>= f : ExceptT ε Option β) = f x := rfl

/-- A sequence that returns has a first part that returns. -/
theorem eq_pure_of_bind {x : ExceptT ε Option α} {f : α → ExceptT ε Option β} {b : β} (h : x >>= f = pure b) :
    ∃ a, x = pure a ∧ f a = pure b := by
  cases x with
  | none => cases h
  | some r =>
    cases r with
    | error e => cases h
    | ok a => exact ⟨a,rfl,h⟩

/-- A loop that returns: what holds of an empty loop, and behind a turn if it holds from there on. -/
theorem foldlM_keeps {f : β → α → ExceptT ε Option β} {R : List α → β → β → Prop} (hnil : ∀ b, R [] b b)
    (hcons : ∀ b b' b'' x xs, f b x = pure b' → R xs b' b'' → R (x :: xs) b b'') {xs : List α} {b b' : β}
    (h : xs.foldlM f b = pure b') : R xs b b' := by
  induction xs generalizing b with
  | nil =>
    cases h
    exact hnil _
  | cons x xs ih =>
    rw [List.foldlM_cons] at h
    obtain ⟨b₁,h₁,h⟩ := eq_pure_of_bind h
    exact hcons b b₁ b' x xs h₁ (ih h)

end LowLatencyLob.Feed
