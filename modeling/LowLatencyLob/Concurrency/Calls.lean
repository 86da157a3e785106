import LowLatencyLob.Concurrency.Solo

/-! The accesses of a call, read off the trace of a run.

However the threads interleave, the events of one thread since its newest call are accesses
of the code of that call, in order; and when the call returns they are all of them. -/
namespace LowLatencyLob.Concurrency

variable {T A : Type} {Res : A → Type}

namespace Program
variable {α : Type}

/-- The accesses that code makes one after another, and what it makes of their results. -/
inductive Plays {α : Type} : Program Res α → List (Σ a, Res a) → α → Prop
  | done (x : α) : Plays (.done x) [] x
  | access {a : A} {r : Res a} {k : Res a → Program Res α} {as : List (Σ a, Res a)} {x : α}
      (h : Plays (k r) as x) : Plays (.access a k) (⟨a,r⟩ :: as) x
  | loop {β γ : Type} {b : β} {body : β → Program Res (β ⊕ γ)} {k : γ → Program Res α}
      {as : List (Σ a, Res a)} {x : α} (h : Plays (.unroll b body k) as x) : Plays (.loop b body k) as x

/-- What is left of a program after some accesses, oldest first, whatever they returned. -/
inductive Leads {α : Type} : Program Res α → List (Σ a, Res a) → Program Res α → Prop
  | here (p : Program Res α) : Leads p [] p
  | access {a : A} {r : Res a} {k : Res a → Program Res α} {as : List (Σ a, Res a)} {q : Program Res α}
      (h : Leads (k r) as q) : Leads (.access a k) (⟨a,r⟩ :: as) q
  | loop {β γ : Type} {b : β} {body : β → Program Res (β ⊕ γ)} {k : γ → Program Res α}
      {as : List (Σ a, Res a)} {q : Program Res α} (h : Leads (.unroll b body k) as q) :
      Leads (.loop b body k) as q

namespace Leads
variable {p : Program Res α} {as : List (Σ a, Res a)}

theorem access_last {a : A} {k : Res a → Program Res α} (h : Leads p as (.access a k)) (r : Res a) :
    Leads p (as ++ [⟨a,r⟩]) (k r) := by
  generalize hq : Program.access a k = q at h
  induction h with
  | here q =>
    subst hq
    exact .access (.here _)
  | access _ ih => exact .access (ih hq)
  | loop _ ih => exact .loop (ih hq)

theorem unroll_last {β γ : Type} {b : β} {body : β → Program Res (β ⊕ γ)} {k : γ → Program Res α}
    (h : Leads p as (.loop b body k)) : Leads p as (.unroll b body k) := by
  generalize hq : Program.loop b body k = q at h
  induction h with
  | here q =>
    subst hq
    exact .loop (.here _)
  | access _ ih => exact .access (ih hq)
  | loop _ ih => exact .loop (ih hq)

/-- Accesses that leave nothing to do are all the accesses. -/
theorem plays {x : α} (h : Leads p as (.done x)) : p.Plays as x := by
  generalize hq : Program.done x = q at h
  induction h with
  | here q =>
    subst hq
    exact .done x
  | access _ ih => exact .access (ih hq)
  | loop _ ih => exact .loop (ih hq)

end Leads

/-- The accesses of a sequence are those of its first part, then those of its second. -/
theorem Plays.of_bind {β : Type} {p : Program Res α} {f : α → Program Res β} {as : List (Σ a, Res a)} {y : β}
    (h : (p >>= f).Plays as y) : ∃ as₁ x as₂, as = as₁ ++ as₂ ∧ p.Plays as₁ x ∧ (f x).Plays as₂ y := by
  generalize hq : p >>= f = q at h
  induction h generalizing p with
  | done y =>
    cases p with
    | done x =>
      rw [done_bind] at hq
      exact ⟨[],x,[],rfl,.done x,hq.symm ▸ .done y⟩
    | access a k => cases hq
    | loop b body k => cases hq
  | @access a r k as y h ih =>
    cases p with
    | done x =>
      rw [done_bind] at hq
      exact ⟨[],x,_,rfl,.done x,hq.symm ▸ .access h⟩
    | access a k =>
      cases hq
      obtain ⟨as₁,x,as₂,rfl,h₁,h₂⟩ := ih rfl
      exact ⟨_ :: as₁,x,as₂,rfl,.access h₁,h₂⟩
    | loop b body k => cases hq
  | @loop β γ b body k as y h ih =>
    cases p with
    | done x =>
      rw [done_bind] at hq
      exact ⟨[],x,_,rfl,.done x,hq.symm ▸ .loop h⟩
    | access a k => cases hq
    | loop b body k =>
      cases hq
      obtain ⟨as₁,x,as₂,rfl,h₁,h₂⟩ := ih (unroll_bind _ _ _ f)
      exact ⟨as₁,x,as₂,rfl,.loop h₁,h₂⟩

end Program

section Mine
variable {Call Out : Type} [DecidableEq T]

/-- The events of a thread itself. -/
def mine (t : T) (tr : List (Event T Res Call Out)) : List (Event T Res Call Out) :=
  tr.filter fun e => e.thread = t

theorem mine_other {t : T} {e : Event T Res Call Out} (h : e.thread ≠ t) (tr : List (Event T Res Call Out)) :
    mine t (e :: tr) = mine t tr := by
  simp [mine, h]

theorem mine_self {t : T} {e : Event T Res Call Out} (h : e.thread = t) (tr : List (Event T Res Call Out)) :
    mine t (e :: tr) = e :: mine t tr := by
  simp [mine, h]

theorem mine_access (t : T) (a : A) (r : Res a) (tr : List (Event T Res Call Out)) :
    mine t (.access t a r :: tr) = .access t a r :: mine t tr := by
  refine mine_self ?_ tr
  rfl

/-- An event of a thread is an event of the trace, and so is the order of two of them. -/
theorem suffix_of_mine {t : T} {tr es rest : List (Event T Res Call Out)} {e : Event T Res Call Out}
    (h : mine t tr = es ++ e :: rest) : ∃ tr₀, (e :: tr₀) <:+ tr ∧ mine t tr₀ = rest := by
  induction tr generalizing es with
  | nil => simp [mine] at h
  | cons d tr ih =>
    by_cases hd : d.thread = t
    · rw [mine_self hd] at h
      cases es with
      | nil =>
        obtain ⟨rfl,rfl⟩ := List.cons.inj h
        exact ⟨tr,List.suffix_rfl,rfl⟩
      | cons d' es =>
        obtain ⟨tr₀,hs,hm⟩ := ih (List.cons.inj h).2
        exact ⟨tr₀,hs.trans (List.suffix_cons _ _),hm⟩
    · rw [mine_other hd] at h
      obtain ⟨tr₀,hs,hm⟩ := ih h
      exact ⟨tr₀,hs.trans (List.suffix_cons _ _),hm⟩

end Mine

namespace System
variable {sys : System T Res} {tr tr₀ : sys.Trace} {c : sys.Config} {t : T} [DecidableEq T]

/-- The move that left the newest event. -/
theorem Run.newest {e : sys.Ev} (h : sys.Run (e :: tr) c) :
    ∃ c₀ m c₁, sys.Run tr c₀ ∧ sys.step c₀ m = some ([e],c₁) := by
  generalize htr : e :: tr = tr' at h
  induction h with
  | start => cases htr
  | step h m hm ih =>
    rcases step_cases hm with ⟨u,l,x,p,_,_,rfl,rfl⟩ | ⟨u,a,k,r,mem,ch,_,_,rfl,rfl⟩ |
      ⟨u,β,γ,b,body,k,_,rfl,rfl⟩ | ⟨u,l,o,_,rfl,rfl⟩
    case inr.inr.inl => exact ih htr
    all_goals
      obtain ⟨rfl,rfl⟩ := List.cons.inj htr
      exact ⟨_,m,_,h,hm⟩

/-- An access of a run returned what the memory had for it just before. -/
theorem Run.of_access {a : A} {r : Res a} (h : sys.Run tr c) (hs : (.access t a r :: tr₀) <:+ tr) :
    ∃ c₀ ch m, sys.Run tr₀ c₀ ∧ sys.memory.exec t c₀.mem a ch = some (r,m) := by
  obtain ⟨c₁,h₁⟩ := h.of_suffix hs
  obtain ⟨c₀,m,c₂,h₀,hm⟩ := h₁.newest
  rcases step_cases hm with ⟨u,l,x,p,_,_,he,_⟩ | ⟨u,a,k,r,mem,ch,_,hx,he,_⟩ |
    ⟨u,β,γ,b,body,k,_,he,_⟩ | ⟨u,l,o,_,he,_⟩
  · cases he
  · cases he
    exact ⟨c₀,ch,mem,h₀,hx⟩
  · cases he
  · cases he

/-- What a busy thread has done since its call, and what is left of the code. -/
theorem Run.leads {q : Program Res (sys.object.Local × sys.object.Out)} (h : sys.Run tr c)
    (hq : c.threads t = .busy q) : ∃ l x p as rest, sys.object.code l x = some p ∧ p.Leads as q ∧
      mine t tr = accesses t as ++ .call t x :: rest := by
  induction h generalizing q with
  | start => cases hq
  | @step tr ev c c' h m hm ih =>
    rcases step_cases hm with ⟨u,l,x,p,hl,hp,rfl,rfl⟩ | ⟨u,a,k,r,mem,ch,hk,_,rfl,rfl⟩ |
      ⟨u,β,γ,b,body,k,hk,rfl,rfl⟩ | ⟨u,l,o,hd,rfl,rfl⟩
    all_goals by_cases hu : t = u
    · subst hu
      rw [Config.threads_set_self] at hq
      cases hq
      exact ⟨l,x,q,[],mine t tr,hp,.here q,mine_self rfl tr⟩
    · rw [Config.threads_set_other _ hu] at hq
      rw [List.singleton_append, mine_other (Ne.symm hu)]
      exact ih hq
    · subst hu
      rw [Config.threads_set_self] at hq
      cases hq
      obtain ⟨l,x,p,as,rest,hp,hlead,hm⟩ := ih hk
      refine ⟨l,x,p,as ++ [⟨a,r⟩],rest,hp,hlead.access_last r,?_⟩
      rw [List.singleton_append, mine_access, hm, accesses_append]
      rfl
    · rw [Config.threads_set_other _ hu] at hq
      rw [List.singleton_append, mine_other (Ne.symm hu)]
      exact ih hq
    · subst hu
      rw [Config.threads_set_self] at hq
      cases hq
      obtain ⟨l,x,p,as,rest,hp,hlead,hm⟩ := ih hk
      exact ⟨l,x,p,as,rest,hp,hlead.unroll_last,hm⟩
    · rw [Config.threads_set_other _ hu] at hq
      exact ih hq
    · subst hu
      rw [Config.threads_set_self] at hq
      cases hq
    · rw [Config.threads_set_other _ hu] at hq
      rw [List.singleton_append, mine_other (Ne.symm hu)]
      exact ih hq

/-- When a call returns, the accesses of its thread since the call are those of its code. -/
theorem Run.plays {o : sys.object.Out} (h : sys.Run tr c) (hs : (.ret t o :: tr₀) <:+ tr) :
    ∃ l x p as l' rest, sys.object.code l x = some p ∧ p.Plays as (l',o) ∧
      mine t tr₀ = accesses t as ++ .call t x :: rest := by
  obtain ⟨c₁,h₁⟩ := h.of_suffix hs
  obtain ⟨c₀,m,c₂,h₀,hm⟩ := h₁.newest
  rcases step_cases hm with ⟨u,l,x,p,_,_,he,_⟩ | ⟨u,a,k,r,mem,ch,_,_,he,_⟩ |
    ⟨u,β,γ,b,body,k,_,he,_⟩ | ⟨u,l',o,hd,he,_⟩
  · cases he
  · cases he
  · cases he
  · cases he
    obtain ⟨l,x,p,as,rest,hp,hlead,hmine⟩ := h₀.leads hd
    exact ⟨l,x,p,as,l',rest,hp,hlead.plays,hmine⟩

end System
end LowLatencyLob.Concurrency
