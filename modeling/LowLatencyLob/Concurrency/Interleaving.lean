import LowLatencyLob.Concurrency.RelyGuarantee

/-! Interleaving semantics: every access acts at once on one store that all
threads share, so the orderings asked for make no difference and a fence does
nothing. -/
namespace LowLatencyLob.Concurrency

variable {Loc : Type} [DecidableEq Loc] {Val : Loc → Type}

/-- The effect of an access on the store, with the value it returns. -/
def Access.act (m : ∀ l, Val l) : (a : Access Val) → a.Result × (∀ l, Val l)
  | .load l _ => (m l, m)
  | .store l v _ => ((), Function.update m l v)
  | .fence _ => ((), m)

@[simp] theorem Access.act_load (m : ∀ l, Val l) (l : Loc) (o : LoadOrder) :
    Access.act m (.load l o) = (m l, m) := rfl

@[simp] theorem Access.act_store (m : ∀ l, Val l) (l : Loc) (v : Val l) (o : StoreOrder) :
    Access.act m (.store l v o) = ((), Function.update m l v) := rfl

@[simp] theorem Access.act_fence (m : ∀ l, Val l) (o : FenceOrder) :
    Access.act m (.fence o : Access Val) = ((), m) := rfl

/-- The memory that `T` threads share when every access is one indivisible step. -/
abbrev interleaving (T : Type) (Val : Loc → Type) : Memory T (@Access.Result _ Val) where
  State := ∀ l, Val l
  Choice := Unit
  exec _ m a _ := some (a.act m)

theorem interleaving_exec {T : Type} {t : T} {m m' : ∀ l, Val l} {a : Access Val} {u : Unit}
    {r : a.Result} (h : (interleaving T Val).exec t m a u = some (r,m')) :
    r = (a.act m).1 ∧ m' = (a.act m).2 := by
  obtain ⟨hr,hm⟩ := Prod.ext_iff.mp (Option.some.inj h)
  exact ⟨hr.symm,hm.symm⟩

end LowLatencyLob.Concurrency
