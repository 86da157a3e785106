import LowLatencyLob.Concurrency.Machine

/-! What a call may return, whatever its accesses hand back. A property of all possible
results of the code holds of every call that returns in a run. -/
namespace LowLatencyLob.Concurrency

variable {T A : Type} {Res : A → Type} {α β : Type}

namespace Program

/-- A result that some answers to the accesses lead to. -/
inductive CanReturn {α : Type} : Program Res α → α → Prop
  | done (x : α) : CanReturn (.done x) x
  | access {a : A} {k : Res a → Program Res α} {x : α} (r : Res a) (h : CanReturn (k r) x) :
    CanReturn (.access a k) x
  | loop {β γ : Type} {b : β} {body : β → Program Res (β ⊕ γ)} {k : γ → Program Res α} {x : α}
    (h : CanReturn (.unroll b body k) x) : CanReturn (.loop b body k) x

/-- The result of a sequence is a result of its second part. -/
theorem CanReturn.of_bind {p : Program Res α} {f : α → Program Res β} {y : β} (h : CanReturn (p >>= f) y) :
    ∃ x, CanReturn (f x) y := by
  generalize hq : p >>= f = q at h
  induction h generalizing p with
  | done y =>
    cases p with
    | done x =>
      rw [Program.done_bind] at hq
      exact ⟨x,by rw [hq]; exact .done y⟩
    | access a k => cases hq
    | loop b body k => cases hq
  | access r h ih =>
    cases p with
    | done x =>
      rw [Program.done_bind] at hq
      exact ⟨x,by rw [hq]; exact .access r h⟩
    | access a k =>
      cases hq
      exact ih rfl
    | loop b body k => cases hq
  | loop h ih =>
    cases p with
    | done x =>
      rw [Program.done_bind] at hq
      exact ⟨x,by rw [hq]; exact .loop h⟩
    | access a k => cases hq
    | loop b body k =>
      cases hq
      exact ih (unroll_bind _ _ _ _)

end Program

namespace System
variable {sys : System T Res} [DecidableEq T]

/-- What holds of a thread between its calls, by its newest event, and of all that its
running call may return. -/
def Settled (P : sys.object.Local → sys.object.Out → Prop) (t : T) (tr : sys.Trace) :
    ThreadState sys.object → Prop
  | .idle l => ∀ o, tr.find? (fun e => e.thread = t) = some (.ret t o) → P l o
  | .busy p => (∀ o, tr.find? (fun e => e.thread = t) ≠ some (.ret t o)) ∧ ∀ y, p.CanReturn y → P y.1 y.2

/-- Whatever holds of all possible results of the code holds in every run. -/
theorem Run.settled {P : sys.object.Local → sys.object.Out → Prop}
    (hP : ∀ l x p, sys.object.code l x = some p → ∀ y, p.CanReturn y → P y.1 y.2) {tr : sys.Trace}
    {c : sys.Config} (h : sys.Run tr c) (t : T) : Settled P t tr (c.threads t) := by
  induction h with
  | start =>
    intro o ho
    cases ho
  | @step tr ev c c' h m hs ih =>
    -- Another thread's event is not the newest of this one.
    have hfind : ∀ e : sys.Ev, e.thread ≠ t →
        ([e] ++ tr).find? (fun e => e.thread = t) = tr.find? (fun e => e.thread = t) := by
      intro e he
      simp [he]
    rcases step_cases hs with ⟨u,l,x,p,hl,hp,rfl,rfl⟩ | ⟨u,a,k,r,mem,ch,hk,hx,rfl,rfl⟩ |
      ⟨u,β,γ,b,body,k,hk,rfl,rfl⟩ | ⟨u,l,o,hd,rfl,rfl⟩
    all_goals by_cases hu : u = t
    · subst u
      rw [Config.threads_set_self]
      exact ⟨by simp [Event.thread],hP l x p hp⟩
    · rw [Config.threads_set_other c (Ne.symm hu)]
      unfold Settled at ih ⊢
      rw [hfind (.call u x) hu]
      exact ih
    · subst u
      rw [hk] at ih
      rw [Config.threads_set_self]
      exact ⟨by simp [Event.thread],fun y hy => ih.2 y (.access r hy)⟩
    · rw [Config.threads_set_other _ (Ne.symm hu)]
      unfold Settled at ih ⊢
      rw [hfind (.access u a r) hu]
      exact ih
    · subst u
      rw [hk] at ih
      rw [Config.threads_set_self]
      exact ⟨ih.1,fun y hy => ih.2 y (.loop hy)⟩
    · rw [Config.threads_set_other _ (Ne.symm hu)]
      exact ih
    · subst u
      rw [hd] at ih
      rw [Config.threads_set_self]
      intro o' ho
      obtain rfl : o = o' := by simpa [Event.thread] using ho
      exact ih.2 _ (.done _)
    · rw [Config.threads_set_other _ (Ne.symm hu)]
      unfold Settled at ih ⊢
      rw [hfind (.ret u o) hu]
      exact ih

/-- What a call that has just returned left behind. -/
theorem Run.of_ret {P : sys.object.Local → sys.object.Out → Prop}
    (hP : ∀ l x p, sys.object.code l x = some p → ∀ y, p.CanReturn y → P y.1 y.2) {tr : sys.Trace}
    {c : sys.Config} {t : T} {o : sys.object.Out} (h : sys.Run (.ret t o :: tr) c) :
    ∃ l, c.threads t = .idle l ∧ P l o := by
  have hs := h.settled hP t
  have hfind : (.ret t o :: tr : sys.Trace).find? (fun e => e.thread = t) = some (.ret t o) := by
    simp [Event.thread]
  cases hc : c.threads t with
  | idle l =>
    rw [hc] at hs
    exact ⟨l,rfl,hs o hfind⟩
  | busy p =>
    rw [hc] at hs
    exact absurd hfind (hs.1 o)

end System
end LowLatencyLob.Concurrency
