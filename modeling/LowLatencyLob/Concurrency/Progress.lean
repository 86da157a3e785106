import LowLatencyLob.Concurrency.Solo

/-! What can be said of thread code whatever the memory does.

A residual of a program is what may be left of it after some accesses, with any results.
The results of a call are found among the residuals of its code, so a fact about a thread
that its own code keeps holds in every run; and code without loops ends after so many
accesses, however the threads interleave. -/
namespace LowLatencyLob.Concurrency

variable {T A : Type} {Res : A → Type}

namespace Program
variable {α β γ δ : Type}

/-- What may be left of `p`. -/
inductive Residual (p : Program Res α) : Program Res α → Prop
  | here : Residual p p
  | access {a : A} {k : Res a → Program Res α} (r : Res a) (h : Residual p (.access a k)) :
      Residual p (k r)
  | unroll {β γ : Type} {b : β} {body : β → Program Res (β ⊕ γ)} {k : γ → Program Res α}
      (h : Residual p (.loop b body k)) : Residual p (.unroll b body k)

/-- What follows a turn of a loop. -/
def again (body : β → Program Res (β ⊕ γ)) (k : γ → Program Res α) : β ⊕ γ → Program Res α
  | .inl b => .loop b body k
  | .inr c => k c

theorem unroll_eq (b : β) (body : β → Program Res (β ⊕ γ)) (k : γ → Program Res α) :
    unroll b body k = body b >>= again body k := by
  unfold unroll
  congr 1

namespace Residual

/-- What is left of two parts is left of the first, before the second, or of the second. -/
theorem bind_cases {p : Program Res α} {f : α → Program Res β} {q : Program Res β}
    (h : Residual (p >>= f) q) : (∃ p', Residual p p' ∧ q = p' >>= f) ∨
      ∃ x, Residual p (.done x) ∧ Residual (f x) q := by
  induction h with
  | here => exact .inl ⟨p,.here,rfl⟩
  | @access a k r h ih =>
    rcases ih with ⟨p',hp,he⟩ | ⟨x,hp,hx⟩
    · cases p' with
      | done x => exact .inr ⟨x,hp,.access r (he ▸ .here)⟩
      | access a' k' =>
        cases he
        exact .inl ⟨k' r,.access r hp,rfl⟩
      | loop b' body' k' => cases he
    · exact .inr ⟨x,hp,.access r hx⟩
  | @unroll _ _ b body k h ih =>
    rcases ih with ⟨p',hp,he⟩ | ⟨x,hp,hx⟩
    · cases p' with
      | done x => exact .inr ⟨x,hp,.unroll (he ▸ .here)⟩
      | access a' k' => cases he
      | loop b' body' k' =>
        cases he
        exact .inl ⟨_,.unroll hp,(unroll_bind _ _ _ f).symm⟩
    · exact .inr ⟨x,hp,.unroll hx⟩

theorem of_bind_done {p : Program Res α} {f : α → Program Res β} {y : β} (h : Residual (p >>= f) (.done y)) :
    ∃ x, Residual p (.done x) ∧ Residual (f x) (.done y) := by
  rcases h.bind_cases with ⟨p',hp,he⟩ | h
  · cases p' with
    | done x => exact ⟨x,hp,he ▸ .here⟩
    | access a k => cases he
    | loop b body k => cases he
  · exact h

/-- What is left of a loop: the loop with some variable, a part of a turn and the loop
behind it, or what follows the loop. -/
theorem loop_cases {b : β} {body : β → Program Res (β ⊕ γ)} {k : γ → Program Res α} {q : Program Res α}
    (h : Residual (.loop b body k) q) : (∃ b', q = .loop b' body k) ∨
      (∃ b' p', Residual (body b') p' ∧ q = p' >>= again body k) ∨
      ∃ b' c, Residual (body b') (.done (.inr c)) ∧ Residual (k c) q := by
  induction h with
  | here => exact .inl ⟨b,rfl⟩
  | @access a k' r h ih =>
    rcases ih with ⟨b',he⟩ | ⟨b',p',hp,he⟩ | ⟨b',c,hp,hc⟩
    · cases he
    · cases p' with
      | done y =>
        cases y with
        | inl b'' => cases he
        | inr c => exact .inr (.inr ⟨b',c,hp,.access r (he ▸ .here)⟩)
      | access a' k'' =>
        cases he
        exact .inr (.inl ⟨b',k'' r,.access r hp,rfl⟩)
      | loop _ _ _ => cases he
    · exact .inr (.inr ⟨b',c,hp,.access r hc⟩)
  | @unroll _ _ b₁ body₁ k₁ h ih =>
    rcases ih with ⟨b',he⟩ | ⟨b',p',hp,he⟩ | ⟨b',c,hp,hc⟩
    · cases he
      exact .inr (.inl ⟨b',body b',.here,unroll_eq b' body k⟩)
    · cases p' with
      | done y =>
        cases y with
        | inl b'' =>
          cases he
          exact .inr (.inl ⟨b'',body b'',.here,unroll_eq b'' body k⟩)
        | inr c => exact .inr (.inr ⟨b',c,hp,.unroll (he ▸ .here)⟩)
      | access _ _ => cases he
      | loop b₂ body₂ k₂ =>
        cases he
        exact .inr (.inl ⟨b',_,.unroll hp,(unroll_bind _ _ _ _).symm⟩)
    · exact .inr (.inr ⟨b',c,hp,.unroll hc⟩)

theorem done_cases {x : α} {q : Program Res α} (h : Residual (.done x) q) : q = .done x := by
  induction h with
  | here => rfl
  | access r _ ih => cases ih
  | unroll _ ih => cases ih

theorem access_cases {a : A} {k : Res a → Program Res α} {q : Program Res α} (h : Residual (.access a k) q) :
    q = .access a k ∨ ∃ r, Residual (k r) q := by
  induction h with
  | here => exact .inl rfl
  | access r _ ih =>
    rcases ih with he | ⟨r',h⟩
    · cases he
      exact .inr ⟨r,.here⟩
    · exact .inr ⟨r',.access r h⟩
  | unroll _ ih =>
    rcases ih with he | ⟨r',h⟩
    · cases he
    · exact .inr ⟨r',.unroll h⟩

end Residual

/-- Code without loops that ends after at most `n` accesses, all of them of the kind `K`. -/
def Within (K : A → Prop) : {α : Type} → Program Res α → ℕ → Prop
  | _, .done _, _ => True
  | _, .access a k, n => K a ∧ 0 < n ∧ ∀ r, Within K (k r) (n-1)
  | _, .loop _ _ _, _ => False

namespace Within
variable {K : A → Prop} {p q : Program Res α} {m n : ℕ}

theorem done (x : α) (n : ℕ) : (Program.done x : Program Res α).Within K n := trivial

theorem access {a : A} {k : Res a → Program Res α} (ha : K a) (h : ∀ r, (k r).Within K n) :
    (Program.access a k).Within K (n+1) := ⟨ha,Nat.succ_pos n,h⟩

theorem mono (h : p.Within K m) (hmn : m ≤ n) : p.Within K n := by
  induction p generalizing m n with
  | done x => trivial
  | access a k ih =>
    obtain ⟨ha,hpos,hk⟩ := h
    exact ⟨ha,hpos.trans_le hmn,fun r => ih r (hk r) (Nat.sub_le_sub_right hmn 1)⟩
  | loop _ _ _ => exact h

theorem bind {f : α → Program Res β} (h : p.Within K m) (hf : ∀ x, (f x).Within K n) :
    (p >>= f).Within K (m+n) := by
  induction p generalizing m with
  | done x => exact (hf x).mono (Nat.le_add_left n m)
  | access a k ih =>
    obtain ⟨ha,hpos,hk⟩ := h
    obtain ⟨m,rfl⟩ : ∃ m', m = m'+1 := ⟨m-1,(Nat.succ_pred_eq_of_pos hpos).symm⟩
    rw [Nat.add_right_comm]
    exact .access ha fun r => ih r (hk r) hf
  | loop _ _ _ => exact h.elim

theorem residual (h : p.Within K n) (hr : p.Residual q) : q.Within K n := by
  induction hr with
  | here => exact h
  | access r _ ih => exact (ih.2.2 r).mono (Nat.sub_le n 1)
  | unroll _ ih => exact ih.elim

/-- With no access left the code has ended. -/
theorem exists_done (h : p.Within K 0) : ∃ x, p = .done x := by
  cases p with
  | done x => exact ⟨x,rfl⟩
  | access a k => exact absurd h.2.1 (Nat.lt_irrefl 0)
  | loop _ _ _ => exact h.elim

/-- Such code completes alone, where no access has to wait, and keeps what its accesses keep. -/
theorem solo {M : Memory T Res} {t : T} {I : M.State → Prop} (h : p.Within K n)
    (hM : ∀ {m a}, K a → I m → ∃ ch r m', M.exec t m a ch = some (r,m') ∧ I m') {m : M.State} (hm : I m) :
    ∃ as x m', Solo M t m p as x m' ∧ as.length ≤ n ∧ I m' := by
  induction p generalizing n m with
  | done x => exact ⟨[],x,m,.done m x,Nat.zero_le n,hm⟩
  | access a k ih =>
    obtain ⟨ha,hpos,hk⟩ := h
    obtain ⟨ch,r,m₁,he,hm₁⟩ := hM ha hm
    obtain ⟨as,x,m',hs,hle,hm'⟩ := ih r (hk r) hm₁
    refine ⟨_,x,m',.access ch he hs,?_,hm'⟩
    rw [List.length_cons]
    omega
  | loop _ _ _ => exact h.elim

end Within
end Program

section Inversion
variable {M : Memory T Res} {t : T} {α : Type} {m m' : M.State} {as : List (Σ a, Res a)} {y : α}

theorem Solo.of_done {x : α} (h : Solo M t m (.done x) as y m') : as = [] ∧ y = x ∧ m' = m := by
  cases h
  exact ⟨rfl,rfl,rfl⟩

theorem Solo.of_access {a : A} {k : Res a → Program Res α} (h : Solo M t m (.access a k) as y m') :
    ∃ ch r m₁ as', M.exec t m a ch = some (r,m₁) ∧ Solo M t m₁ (k r) as' y m' ∧ as = ⟨a,r⟩ :: as' := by
  cases h with
  | access ch ha hk => exact ⟨ch,_,_,_,ha,hk,rfl⟩

theorem Solo.of_loop {β γ : Type} {b : β} {body : β → Program Res (β ⊕ γ)} {k : γ → Program Res α}
    (h : Solo M t m (.loop b body k) as y m') : Solo M t m (.unroll b body k) as y m' := by
  cases h with
  | loop h => exact h

end Inversion

/-- A run alone of two parts passes between them. -/
theorem Solo.of_bind {M : Memory T Res} {t : T} {α β : Type} {m m' : M.State} {p : Program Res α}
    {f : α → Program Res β} {as : List (Σ a, Res a)} {y : β} (h : Solo M t m (p >>= f) as y m') :
    ∃ as₁ x m₁ as₂, Solo M t m p as₁ x m₁ ∧ Solo M t m₁ (f x) as₂ y m' := by
  generalize hq : p >>= f = q at h
  induction h generalizing p with
  | done m y =>
    cases p with
    | done x =>
      rw [Program.done_bind] at hq
      refine ⟨[],x,m,[],.done m x,?_⟩
      rw [hq]
      exact .done m y
    | access a k => cases hq
    | loop b body k => cases hq
  | @access m m₁ m₂ a r k as y ch ha hk ih =>
    cases p with
    | done x =>
      rw [Program.done_bind] at hq
      refine ⟨[],x,m,⟨a,r⟩ :: as,.done m x,?_⟩
      rw [hq]
      exact .access ch ha hk
    | access a' k' =>
      cases hq
      obtain ⟨as₁,x,m₃,as₂,h₁,h₂⟩ := ih rfl
      exact ⟨_,x,m₃,as₂,.access ch ha h₁,h₂⟩
    | loop b body k => cases hq
  | @loop β' γ' m m₂ b body k as y h ih =>
    cases p with
    | done x =>
      rw [Program.done_bind] at hq
      refine ⟨[],x,m,as,.done m x,?_⟩
      rw [hq]
      exact .loop h
    | access a k => cases hq
    | loop b' body' k' =>
      cases hq
      obtain ⟨as₁,x,m₃,as₂,h₁,h₂⟩ := ih (Program.unroll_bind _ _ _ f)
      exact ⟨as₁,x,m₃,as₂,.loop h₁,h₂⟩

namespace System
variable {sys : System T Res} [DecidableEq T]

/-- The results of the calls of `t`, oldest first. -/
def results (t : T) : sys.Trace → List sys.object.Out
  | [] => []
  | .ret u o :: tr => if u = t then results t tr ++ [o] else results t tr
  | _ :: tr => results t tr

/-- How many accesses `t` has made since its newest call. -/
def since (t : T) : sys.Trace → ℕ
  | [] => 0
  | .call u _ :: tr => if u = t then 0 else since t tr
  | .access u _ _ :: tr => if u = t then since t tr+1 else since t tr
  | .ret _ _ :: tr => since t tr

/-- Between its calls `I` holds of a thread and its results; within a call it held before,
and something is left of the code of that call. -/
def Stands (I : sys.object.Local → List sys.object.Out → Prop) (os : List sys.object.Out) :
    ThreadState sys.object → Prop
  | .idle l => I l os
  | .busy q => ∃ l x p, I l os ∧ sys.object.code l x = some p ∧ p.Residual q

variable {tr : sys.Trace} {c : sys.Config}

/-- What the code of a thread keeps holds in every run, whatever the others do. -/
theorem Run.stands {I : T → sys.object.Local → List sys.object.Out → Prop} (h : sys.Run tr c)
    (start : ∀ t, I t (sys.local₀ t) [])
    (keeps : ∀ {t l os x p l' o}, I t l os → sys.object.code l x = some p → p.Residual (.done (l',o)) →
      I t l' (os ++ [o])) (t : T) : Stands (I t) (results t tr) (c.threads t) := by
  induction h with
  | start => exact start t
  | @step tr ev c c' h m hs ih =>
    rcases step_cases hs with ⟨u,l,x,p,hl,hp,rfl,rfl⟩ | ⟨u,a,k,r,mem,ch,hk,_,rfl,rfl⟩ |
      ⟨u,β,γ,b,body,k,hk,rfl,rfl⟩ | ⟨u,l,o,hd,rfl,rfl⟩
    · by_cases hu : t = u
      · subst hu
        rw [hl] at ih
        rw [Config.threads_set_self]
        exact ⟨l,x,p,ih,hp,.here⟩
      · rw [Config.threads_set_other _ hu]
        exact ih
    · by_cases hu : t = u
      · subst hu
        rw [hk] at ih
        rw [Config.threads_set_self]
        obtain ⟨l,x,p,hi,hp,hres⟩ := ih
        exact ⟨l,x,p,hi,hp,.access r hres⟩
      · rw [Config.threads_set_other _ hu]
        exact ih
    · by_cases hu : t = u
      · subst hu
        rw [hk] at ih
        rw [Config.threads_set_self]
        obtain ⟨l,x,p,hi,hp,hres⟩ := ih
        exact ⟨l,x,p,hi,hp,.unroll hres⟩
      · rw [Config.threads_set_other _ hu]
        exact ih
    · change Stands (I t) (results t (.ret u o :: tr)) _
      by_cases hu : t = u
      · subst hu
        rw [hd] at ih
        rw [Config.threads_set_self, results, if_pos rfl]
        obtain ⟨l',x,p,hi,hp,hres⟩ := ih
        exact keeps hi hp hres
      · rw [Config.threads_set_other _ hu, results, if_neg (Ne.symm hu)]
        exact ih

/-- Where no call takes more than `n` accesses, none does in any run. -/
theorem Run.since_le {K : A → Prop} {n : ℕ} (h : sys.Run tr c)
    (hn : ∀ {l x p}, sys.object.code l x = some p → p.Within K n) {t : T}
    {p : Program Res (sys.object.Local × sys.object.Out)} (hp : c.threads t = .busy p) :
    since t tr ≤ n ∧ p.Within K (n-since t tr) := by
  induction h generalizing p with
  | start => cases hp
  | @step tr ev c c' h m hs ih =>
    rcases step_cases hs with ⟨u,l,x,q,hl,hq,rfl,rfl⟩ | ⟨u,a,k,r,mem,ch,hk,_,rfl,rfl⟩ |
      ⟨u,β,γ,b,body,k,hk,rfl,rfl⟩ | ⟨u,l,o,hd,rfl,rfl⟩
    · change since t (.call u x :: tr) ≤ n ∧ p.Within K (n-since t (.call u x :: tr))
      by_cases hu : t = u
      · subst hu
        rw [Config.threads_set_self] at hp
        cases hp
        rw [since, if_pos rfl]
        exact ⟨Nat.zero_le n,hn hq⟩
      · rw [Config.threads_set_other _ hu] at hp
        rw [since, if_neg (Ne.symm hu)]
        exact ih hp
    · change since t (.access u a r :: tr) ≤ n ∧ p.Within K (n-since t (.access u a r :: tr))
      by_cases hu : t = u
      · subst hu
        rw [Config.threads_set_self] at hp
        cases hp
        obtain ⟨hle,_,hpos,hrest⟩ := ih hk
        rw [since, if_pos rfl]
        exact ⟨by omega,hrest r⟩
      · rw [Config.threads_set_other _ hu] at hp
        rw [since, if_neg (Ne.symm hu)]
        exact ih hp
    · by_cases hu : t = u
      · subst hu
        exact (ih hk).2.elim
      · rw [Config.threads_set_other _ hu] at hp
        exact ih hp
    · by_cases hu : t = u
      · subst hu
        rw [Config.threads_set_self] at hp
        cases hp
      · rw [Config.threads_set_other _ hu] at hp
        exact ih hp

end System
end LowLatencyLob.Concurrency
