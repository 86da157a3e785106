import LowLatencyLob.Concurrency.Interleaving
import LowLatencyLob.Concurrency.Solo

/-! Runs whose calls do not overlap: each one completes before the next is made. On a
memory that leaves nothing open a call then has one outcome. -/
namespace LowLatencyLob.Concurrency

variable {T A : Type} {Res : A → Type}

/-- What an access does is settled by the memory, the thread and the access. -/
def Memory.Settled (M : Memory T Res) : Prop :=
  ∀ {t m a ch ch' x x'}, M.exec t m a ch = some x → M.exec t m a ch' = some x' → x = x'

/-- A thread that runs alone makes the same accesses every time, and has one outcome. -/
theorem Solo.unique {M : Memory T Res} (hM : M.Settled) {t : T} {α : Type} {m m₁ m₂ : M.State}
    {p : Program Res α} {as bs : List (Σ a, Res a)} {x y : α} (h : Solo M t m p as x m₁)
    (h' : Solo M t m p bs y m₂) : as = bs ∧ x = y ∧ m₁ = m₂ := by
  induction h generalizing bs with
  | done m x =>
    cases h'
    exact ⟨rfl,rfl,rfl⟩
  | access ch ha _ ih =>
    cases h' with
    | access ch' ha' hk' =>
      cases hM ha ha'
      obtain ⟨rfl,rfl,rfl⟩ := ih hk'
      exact ⟨rfl,rfl,rfl⟩
  | loop _ ih =>
    cases h' with
    | loop hk' => exact ih hk'

/-- An interleaving leaves nothing open. -/
theorem interleaving_settled {Loc : Type} [DecidableEq Loc] {Val : Loc → Type} :
    (interleaving T Val).Settled := by
  intro t m a ch ch' x x' h h'
  exact Option.some.inj (h.symm.trans h')

namespace System
variable {sys : System T Res} {tr₀ tr tr' : sys.Trace} {c₀ c c' : sys.Config}

/-- The call `x` of `t`, uninterrupted, completes: it returns `o` and leaves `t` holding `l'`
and the memory `m`, and there is no other way that it can end. -/
structure Completes (c : sys.Config) (t : T) (x : sys.object.Call) (l' : sys.object.Local)
    (o : sys.object.Out) (m : sys.memory.State) : Prop where
  ends : ∃ l p as, c.threads t = .idle l ∧ sys.object.code l x = some p ∧
    Solo sys.memory t c.mem p as (l',o) m
  only : ∀ l p as y m', c.threads t = .idle l → sys.object.code l x = some p →
    Solo sys.memory t c.mem p as y m' → y = (l',o) ∧ m' = m

/-- A call that completes is settled: its run is the only one. -/
theorem Completes.unique {t : T} {x : sys.object.Call} {l₁ l₂ : sys.object.Local} {o₁ o₂ : sys.object.Out}
    {m₁ m₂ : sys.memory.State} (h₁ : Completes c t x l₁ o₁ m₁) (h₂ : Completes c t x l₂ o₂ m₂) :
    l₁ = l₂ ∧ o₁ = o₂ ∧ m₁ = m₂ := by
  obtain ⟨l,p,as,hl,hp,hs⟩ := h₁.ends
  obtain ⟨hx,hm⟩ := h₂.only l p as _ _ hl hp hs
  obtain ⟨hl,ho⟩ := Prod.mk.inj hx
  exact ⟨hl,ho,hm⟩

theorem completes_of_solo (hM : sys.memory.Settled) {t : T} {l l' : sys.object.Local} {x : sys.object.Call}
    {p : Program Res (sys.object.Local × sys.object.Out)} {o : sys.object.Out} {as : List (Σ a, Res a)}
    {m : sys.memory.State} (hl : c.threads t = .idle l) (hp : sys.object.code l x = some p)
    (hs : Solo sys.memory t c.mem p as (l',o) m) : Completes c t x l' o m := by
  refine ⟨⟨l,p,as,hl,hp,hs⟩,?_⟩
  intro l₁ p₁ bs y m' hl₁ hp₁ hs₁
  rw [hl] at hl₁
  cases hl₁
  rw [hp] at hp₁
  cases hp₁
  exact (hs₁.unique hM hs).2

variable [DecidableEq T]

/-- From one moment to another by calls that are made one at a time. -/
inductive Serial (tr₀ : sys.Trace) (c₀ : sys.Config) : sys.Trace → sys.Config → Prop
  | start : Serial tr₀ c₀ tr₀ c₀
  | call {tr : sys.Trace} {c : sys.Config} {t : T} {l l' : sys.object.Local} {x : sys.object.Call}
      {p : Program Res (sys.object.Local × sys.object.Out)} {o : sys.object.Out} {as : List (Σ a, Res a)}
      {m : sys.memory.State} (h : Serial tr₀ c₀ tr c) (hl : c.threads t = .idle l)
      (hp : sys.object.code l x = some p) (hs : Solo sys.memory t c.mem p as (l',o) m) :
      Serial tr₀ c₀ (.ret t o :: accesses t as ++ .call t x :: tr) (c.advance t (.idle l') m)

/-- A call that completes is one step of a serial run. -/
theorem Completes.serial {t : T} {x : sys.object.Call} {l' : sys.object.Local} {o : sys.object.Out}
    {m : sys.memory.State} (h : Completes c t x l' o m) (h₀ : Serial tr₀ c₀ tr c) :
    ∃ as, Serial tr₀ c₀ (.ret t o :: accesses t as ++ .call t x :: tr) (c.advance t (.idle l') m) := by
  obtain ⟨l,p,as,hl,hp,hs⟩ := h.ends
  exact ⟨as,h₀.call hl hp hs⟩

end System
end LowLatencyLob.Concurrency
