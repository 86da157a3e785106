import LowLatencyLob.Concurrency.Machine

/-! One thread running alone. A call that nothing interrupts is a run from the memory
it finds to the memory it leaves, and it extends any run in which its thread is free. -/
namespace LowLatencyLob.Concurrency

variable {T A : Type} {Res : A → Type}

/-- `t` runs `p` alone from one memory to another. The accesses are listed oldest first. -/
inductive Solo (M : Memory T Res) (t : T) {α : Type} :
    M.State → Program Res α → List (Σ a, Res a) → α → M.State → Prop
  | done (m : M.State) (x : α) : Solo M t m (.done x) [] x m
  | access {m m₁ m₂ : M.State} {a : A} {r : Res a} {k : Res a → Program Res α}
      {as : List (Σ a, Res a)} {x : α} (ch : M.Choice) (h : M.exec t m a ch = some (r,m₁))
      (hk : Solo M t m₁ (k r) as x m₂) : Solo M t m (.access a k) (⟨a,r⟩ :: as) x m₂
  | loop {β γ : Type} {m m₂ : M.State} {b : β} {body : β → Program Res (β ⊕ γ)}
      {k : γ → Program Res α} {as : List (Σ a, Res a)} {x : α}
      (h : Solo M t m (.unroll b body k) as x m₂) : Solo M t m (.loop b body k) as x m₂

/-- The events of accesses that `t` made in this order, newest first. -/
def accesses {Call Out : Type} (t : T) (as : List (Σ a, Res a)) : List (Event T Res Call Out) :=
  (as.map fun y => .access t y.1 y.2).reverse

theorem accesses_cons {Call Out : Type} (t : T) (y : Σ a, Res a) (as : List (Σ a, Res a)) :
    (accesses t (y :: as) : List (Event T Res Call Out)) = accesses t as ++ [.access t y.1 y.2] := by
  simp [accesses]

theorem accesses_append {Call Out : Type} (t : T) (as bs : List (Σ a, Res a)) :
    (accesses t (as ++ bs) : List (Event T Res Call Out)) = accesses t bs ++ accesses t as := by
  simp [accesses]

theorem thread_of_mem_accesses {Call Out : Type} {t : T} {as : List (Σ a, Res a)}
    {e : Event T Res Call Out} (h : e ∈ accesses t as) : e.thread = t := by
  obtain ⟨y,_,rfl⟩ := List.mem_map.mp (List.mem_reverse.mp h)
  rfl

namespace Solo
variable {M : Memory T Res} {t : T} {α β : Type}

theorem bind {m m₁ m₂ : M.State} {p : Program Res α} {f : α → Program Res β}
    {as bs : List (Σ a, Res a)} {x : α} {y : β} (h : Solo M t m p as x m₁)
    (hf : Solo M t m₁ (f x) bs y m₂) : Solo M t m (p >>= f) (as ++ bs) y m₂ := by
  induction h with
  | done m x => exact hf
  | access ch h _ ih => exact .access ch h (ih hf)
  | loop h ih =>
    apply Solo.loop
    have hk := ih hf
    rw [Program.unroll_bind] at hk
    exact hk

/-- Code that only repackages a result. -/
theorem map {m m₁ : M.State} {p : Program Res α} {as : List (Σ a, Res a)} {x : α}
    (h : Solo M t m p as x m₁) (f : α → β) : Solo M t m (p >>= fun y => pure (f y)) as (f x) m₁ := by
  have hb := h.bind (f := fun y => pure (f y)) (.done m₁ (f x))
  rwa [List.append_nil] at hb

/-- Code that runs alone on one memory runs alone on a larger one that embeds it. -/
theorem lift {T' A' : Type} {Res' : A' → Type} {N : Memory T' Res'} {t' : T'} {e : A → A'}
    {c : ∀ a, Res' (e a) → Res a} (embed : M.State → N.State)
    (hexec : ∀ {m a ch r m'}, M.exec t m a ch = some (r,m') →
      ∃ ch' r', N.exec t' (embed m) (e a) ch' = some (r',embed m') ∧ c a r' = r)
    {m m' : M.State} {p : Program Res α} {as : List (Σ a, Res a)} {x : α} (h : Solo M t m p as x m') :
    ∃ as', Solo N t' (embed m) (p.lift e c) as' x (embed m') := by
  induction h with
  | done m x => exact ⟨_,.done _ x⟩
  | access ch ha _ ih =>
    obtain ⟨ch',r',ha',rfl⟩ := hexec ha
    obtain ⟨as',hs⟩ := ih
    exact ⟨_,.access ch' ha' hs⟩
  | loop _ ih =>
    obtain ⟨as',hs⟩ := ih
    rw [Program.lift_unroll] at hs
    exact ⟨_,.loop hs⟩

end Solo

namespace System
variable {sys : System T Res} [DecidableEq T] {tr : sys.Trace} {c : sys.Config} {t : T}

/-- The thread `t` goes on in state `s` from memory `m`. -/
def Config.advance (c : sys.Config) (t : T) (s : ThreadState sys.object) (m : sys.memory.State) :
    sys.Config := Config.set ⟨m,c.threads⟩ t s

section Moves
variable {l : sys.object.Local} {p : Program Res (sys.object.Local × sys.object.Out)}

theorem Run.call {x : sys.object.Call} (h : sys.Run tr c) (hl : c.threads t = .idle l)
    (hp : sys.object.code l x = some p) : sys.Run (.call t x :: tr) (c.set t (.busy p)) := by
  have hs : sys.step c (.call t x) = some ([.call t x],c.set t (.busy p)) := by
    simp only [System.step, hl, hp, Option.map_some]
  exact h.step _ hs

theorem Run.access {a : A} {r : Res a} {k : Res a → Program Res (sys.object.Local × sys.object.Out)}
    {m : sys.memory.State} (h : sys.Run tr c) (hp : c.threads t = .busy (.access a k))
    (ch : sys.memory.Choice) (ha : sys.memory.exec t c.mem a ch = some (r,m)) :
    sys.Run (.access t a r :: tr) (c.advance t (.busy (k r)) m) := by
  have hs : sys.step c (.access t ch) = some ([.access t a r],c.advance t (.busy (k r)) m) := by
    simp only [System.step, hp, ha, Option.map_some, Config.advance]
  exact h.step _ hs

theorem Run.unroll {β γ : Type} {b : β} {body : β → Program Res (β ⊕ γ)}
    {k : γ → Program Res (sys.object.Local × sys.object.Out)} (h : sys.Run tr c)
    (hp : c.threads t = .busy (.loop b body k)) :
    sys.Run tr (c.set t (.busy (.unroll b body k))) := by
  have hs : sys.step c (.unroll t) = some ([],c.set t (.busy (.unroll b body k))) := by
    simp only [System.step, hp]
  exact h.step _ hs

theorem Run.ret {o : sys.object.Out} (h : sys.Run tr c) (hp : c.threads t = .busy (.done (l,o))) :
    sys.Run (.ret t o :: tr) (c.set t (.idle l)) := by
  have hs : sys.step c (.ret t) = some ([.ret t o],c.set t (.idle l)) := by
    simp only [System.step, hp]
  exact h.step _ hs

/-- A busy thread that runs alone finishes its call; the others stay where they are. -/
theorem Run.solo {o : sys.object.Out} {as : List (Σ a, Res a)} {m : sys.memory.State}
    (h : sys.Run tr c) (hp : c.threads t = .busy p) (hs : Solo sys.memory t c.mem p as (l,o) m) :
    sys.Run (.ret t o :: accesses t as ++ tr) (c.advance t (.idle l) m) := by
  generalize hm : c.mem = m₀ at hs
  generalize hx : (l,o) = x at hs
  induction hs generalizing tr c with
  | done m x =>
    subst hm hx
    exact h.ret hp
  | access ch ha _ ih =>
    subst hm
    have hrun := ih (h.access hp ch ha) (by simp [Config.advance]) rfl hx
    rw [accesses_cons]
    simpa [Config.advance, Config.set] using hrun
  | loop _ ih =>
    have hrun := ih (h.unroll hp) (by simp) hm hx
    simpa [Config.advance, Config.set] using hrun

/-- A free thread that makes one call and is not interrupted. -/
theorem Run.solo_call {x : sys.object.Call} {l' : sys.object.Local} {o : sys.object.Out}
    {as : List (Σ a, Res a)} {m : sys.memory.State} (h : sys.Run tr c) (hl : c.threads t = .idle l)
    (hp : sys.object.code l x = some p) (hs : Solo sys.memory t c.mem p as (l',o) m) :
    sys.Run (.ret t o :: accesses t as ++ .call t x :: tr) (c.advance t (.idle l') m) := by
  have hrun := (h.call hl hp).solo (by simp) hs
  simpa [Config.advance, Config.set] using hrun

end Moves
end System
end LowLatencyLob.Concurrency
