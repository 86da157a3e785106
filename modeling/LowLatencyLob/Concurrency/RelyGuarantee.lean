import LowLatencyLob.Concurrency.Machine

/-! Rely-guarantee proofs for programs of atomic accesses.

`Meets E p Q s` says of code `p`, about to run from shared state `s`: whatever
the other threads do within `E.rely` between two accesses, every access stays
within `E.guar`, and when the code stops the state satisfies `Q`. -/
namespace LowLatencyLob.Concurrency

/-- What one thread sees: the effect of its own accesses, what it relies on the
others to respect, and what it guarantees to them. -/
structure Env (S : Type) {A : Type} (Res : A → Type) where
  acc : S → (a : A) → Res a → S → Prop
  rely : S → S → Prop
  guar : S → S → Prop
  rely_refl : ∀ s, rely s s
  rely_trans : ∀ {s₁ s₂ s₃}, rely s₁ s₂ → rely s₂ s₃ → rely s₁ s₃

variable {A A' S S' : Type} {Res : A → Type} {Res' : A' → Type}

/-- A loop meets its postcondition through an invariant of its variable that the
other threads cannot break. -/
def Meets (E : Env S Res) : {α : Type} → Program Res α → (α → S → Prop) → S → Prop
  | _, .done x, Q, s => ∀ s', E.rely s s' → Q x s'
  | _, .access a k, Q, s => ∀ s₁, E.rely s s₁ → ∀ r s₂, E.acc s₁ a r s₂ →
      E.guar s₁ s₂ ∧ Meets E (k r) Q s₂
  | _, .loop b body k, Q, s => ∃ J : _ → S → Prop, J b s ∧
      (∀ b s s', J b s → E.rely s s' → J b s') ∧
      ∀ b s, J b s → Meets E (body b) (fun r s' => match r with
        | .inl b' => J b' s'
        | .inr c => Meets E (k c) Q s') s

namespace Meets
variable {E : Env S Res} {α β : Type}

theorem stable {p : Program Res α} {Q : α → S → Prop} {s s' : S} (h : Meets E p Q s)
    (hr : E.rely s s') : Meets E p Q s' := by
  cases p with
  | done x => exact fun s₁ h₁ => h s₁ (E.rely_trans hr h₁)
  | access a k => exact fun s₁ h₁ => h s₁ (E.rely_trans hr h₁)
  | loop b body k =>
    obtain ⟨J, hb, hJ, hbody⟩ := h
    exact ⟨J, hJ b s s' hb hr, hJ, hbody⟩

theorem mono {p : Program Res α} {Q Q' : α → S → Prop} {s : S} (h : Meets E p Q s)
    (hQ : ∀ x s, Q x s → Q' x s) : Meets E p Q' s := by
  induction p generalizing s with
  | done x => exact fun s₁ h₁ => hQ x s₁ (h s₁ h₁)
  | access a k ih =>
    exact fun s₁ h₁ r s₂ h₂ => ⟨(h s₁ h₁ r s₂ h₂).1, ih r (h s₁ h₁ r s₂ h₂).2 hQ⟩
  | loop b body k ihb ihk =>
    obtain ⟨J, hb, hJ, hbody⟩ := h
    refine ⟨J, hb, hJ, fun b s hbs => ihb b (hbody b s hbs) ?_⟩
    rintro (b' | c) s' h'
    · exact h'
    · exact ihk c h' hQ

theorem done {x : α} {Q : α → S → Prop} {s : S} (h : ∀ s', E.rely s s' → Q x s') :
    Meets E (.done x) Q s := h

theorem bind {p : Program Res α} {f : α → Program Res β} {Q : β → S → Prop} {s : S}
    (h : Meets E p (fun x s => Meets E (f x) Q s) s) : Meets E (p >>= f) Q s := by
  induction p generalizing s with
  | done x => exact h s (E.rely_refl s)
  | access a k ih =>
    exact fun s₁ h₁ r s₂ h₂ => ⟨(h s₁ h₁ r s₂ h₂).1, ih r (h s₁ h₁ r s₂ h₂).2⟩
  | loop b body k ihb ihk =>
    obtain ⟨J, hb, hJ, hbody⟩ := h
    refine ⟨J, hb, hJ, fun b s hbs => (hbody b s hbs).mono ?_⟩
    rintro (b' | c) s' h'
    · exact h'
    · exact ihk c h'

/-- What neither the others nor the code itself can break still holds at the end. -/
theorem frame {P : S → Prop} (hr : ∀ {s s'}, P s → E.rely s s' → P s')
    (ha : ∀ {s a r s'}, P s → E.acc s a r s' → E.guar s s' → P s') {p : Program Res α}
    {Q : α → S → Prop} {s : S} (h : Meets E p Q s) (hP : P s) :
    Meets E p (fun x s => Q x s ∧ P s) s := by
  induction p generalizing s with
  | done x => exact fun s₁ h₁ => ⟨h s₁ h₁,hr hP h₁⟩
  | access a k ih =>
    intro s₁ h₁ r s₂ h₂
    obtain ⟨hg, hk⟩ := h s₁ h₁ r s₂ h₂
    exact ⟨hg, ih r hk (ha (hr hP h₁) h₂ hg)⟩
  | loop b body k ihb ihk =>
    obtain ⟨J, hb, hJ, hbody⟩ := h
    refine ⟨fun b s => J b s ∧ P s, ⟨hb, hP⟩, fun b s s' h h' => ⟨hJ b s s' h.1 h', hr h.2 h'⟩, ?_⟩
    intro b s hbs
    refine (ihb b (hbody b s hbs.1) hbs.2).mono ?_
    rintro (b' | c) s' ⟨h', hP'⟩
    · exact ⟨h', hP'⟩
    · exact ihk c h' hP'

/-- An access followed by the rest of the code. -/
theorem access {a : A} {f : Res a → Program Res β} {Q : β → S → Prop} {s : S}
    (h : ∀ s₁, E.rely s s₁ → ∀ r s₂, E.acc s₁ a r s₂ → E.guar s₁ s₂ ∧ Meets E (f r) Q s₂) :
    Meets E (Program.access a .done >>= f) Q s := h

/-- Running one more turn of a loop keeps its promise. -/
theorem unroll {γ δ : Type} {b : δ} {body : δ → Program Res (δ ⊕ γ)} {k : γ → Program Res α}
    {Q : α → S → Prop} {s : S} (h : Meets E (.loop b body k) Q s) :
    Meets E (.unroll b body k) Q s := by
  obtain ⟨J, hb, hJ, hbody⟩ := h
  refine Meets.bind ((hbody b s hb).mono ?_)
  rintro (b' | c) s' h'
  · exact ⟨J, h', hJ, hbody⟩
  · exact h'

/-- Code proved over a small state `S` keeps its promises inside a larger state
`S'`, seen through `view`, when the larger system respects the smaller one. Accesses of
the smaller system leave `P` alone, so the larger one may count on it throughout. -/
theorem lift_within {E : Env S Res} {E' : Env S' Res'} (view : S' → S) {e : A → A'}
    {c : ∀ a, Res' (e a) → Res a} {P : S' → Prop}
    (hP : ∀ {s s'}, P s → E'.rely s s' → P s')
    (hPacc : ∀ {s a r s'}, P s → E'.acc s (e a) r s' → P s')
    (hrely : ∀ {s s'}, E'.rely s s' → E.rely (view s) (view s'))
    (hacc : ∀ {s a r s'}, E'.acc s (e a) r s' → E.acc (view s) a (c a r) (view s'))
    (hguar : ∀ {s a r s'}, P s → E'.acc s (e a) r s' → E.guar (view s) (view s') → E'.guar s s')
    {p : Program Res α} {Q : α → S → Prop} {s : S'} (h : Meets E p Q (view s)) (hs : P s) :
    Meets E' (p.lift e c) (fun x s => Q x (view s) ∧ P s) s := by
  induction p generalizing s with
  | done x => exact fun s₁ h₁ => ⟨h _ (hrely h₁), hP hs h₁⟩
  | access a k ih =>
    intro s₁ h₁ r s₂ h₂
    have hP₁ := hP hs h₁
    obtain ⟨hg, hk⟩ := h _ (hrely h₁) _ _ (hacc h₂)
    exact ⟨hguar hP₁ h₂ hg, ih _ hk (hPacc hP₁ h₂)⟩
  | loop b body k ihb ihk =>
    obtain ⟨J, hb, hJ, hbody⟩ := h
    refine ⟨fun b s => J b (view s) ∧ P s, ⟨hb, hs⟩,
      fun b s s' hb hr => ⟨hJ b _ _ hb.1 (hrely hr), hP hb.2 hr⟩, ?_⟩
    intro b s hbs
    refine (ihb b (hbody b _ hbs.1) hbs.2).mono ?_
    rintro (b' | x) s' ⟨h', hs'⟩
    · exact ⟨h', hs'⟩
    · exact ihk x h' hs'

theorem lift {E : Env S Res} {E' : Env S' Res'} (view : S' → S) {e : A → A'}
    {c : ∀ a, Res' (e a) → Res a}
    (hrely : ∀ {s s'}, E'.rely s s' → E.rely (view s) (view s'))
    (hacc : ∀ {s a r s'}, E'.acc s (e a) r s' → E.acc (view s) a (c a r) (view s'))
    (hguar : ∀ {s a r s'}, E'.acc s (e a) r s' → E.guar (view s) (view s') → E'.guar s s')
    {p : Program Res α} {Q : α → S → Prop} {s : S'} (h : Meets E p Q (view s)) :
    Meets E' (p.lift e c) (fun x s => Q x (view s)) s :=
  (lift_within view (P := fun _ => True) (fun _ _ => trivial) (fun _ _ => trivial) hrely hacc
    (fun _ => hguar) h trivial).mono fun _ _ => And.left

end Meets

namespace System
variable {T : Type} {sys : System T Res}

/-- The terms on which the threads of a system share its memory, over the runs
that stay admissible. -/
structure Contract (sys : System T Res) where
  admissible : sys.Shared → Prop
  invariant : sys.Shared → Prop
  rely : T → sys.Shared → sys.Shared → Prop
  rest : T → sys.object.Local → sys.Shared → Prop
  rely_refl : ∀ t s, rely t s s
  rely_trans : ∀ {t s₁ s₂ s₃}, rely t s₁ s₂ → rely t s₂ s₃ → rely t s₁ s₃

namespace Contract
variable (C : Contract sys)

/-- A step of `t` keeps the invariant and respects what every other thread relies on. -/
def Keeps (t : T) (s s' : sys.Shared) : Prop :=
  (C.invariant s → C.invariant s') ∧ ∀ u, u ≠ t → C.rely u s s'

def env (t : T) : Env sys.Shared Res where
  acc s a r s' := (∃ ch, sys.memory.exec t s.2 a ch = some (r, s'.2)) ∧
    s'.1 = .access t a r :: s.1 ∧ C.admissible s ∧ C.admissible s'
  rely s s' := C.rely t s s' ∧ (C.invariant s → C.invariant s')
  guar := C.Keeps t
  rely_refl s := ⟨C.rely_refl t s, id⟩
  rely_trans h h' := ⟨C.rely_trans h.1 h'.1, h'.2 ∘ h.2⟩

/-- Code that keeps the contract keeps its invariant. -/
theorem meets_invariant {t : T} {α : Type} {p : Program Res α} {Q : α → sys.Shared → Prop}
    {s : sys.Shared} (h : Meets (C.env t) p Q s) (hs : C.invariant s) :
    Meets (C.env t) p (fun x s => Q x s ∧ C.invariant s) s := by
  apply Meets.frame _ _ h hs
  · intro s s' hi hr
    exact hr.2 hi
  · intro s a r s' hi _ hg
    exact hg.1 hi

/-- What must hold when a method of `t` stops: it may return, and is at rest again. -/
def Returns (t : T) (x : sys.object.Local × sys.object.Out) (s : sys.Shared) : Prop :=
  C.admissible (.ret t x.2 :: s.1, s.2) →
    C.Keeps t s (.ret t x.2 :: s.1, s.2) ∧ C.rest t x.1 (.ret t x.2 :: s.1, s.2)

/-- What is known of a thread at any moment of a run. -/
def Holds (t : T) (s : sys.Shared) : ThreadState sys.object → Prop
  | .idle l => C.rest t l s
  | .busy p => Meets (C.env t) p (C.Returns t) s

/-- Each thread keeps the contract by itself. -/
structure Sound : Prop where
  rest_stable : ∀ {t l s s'}, C.rest t l s → (C.env t).rely s s' → C.rest t l s'
  start_invariant : C.invariant ([], sys.mem₀)
  start_rest : ∀ t, C.rest t (sys.local₀ t) ([], sys.mem₀)
  call : ∀ {t l x p s}, C.invariant s → C.rest t l s → sys.object.code l x = some p →
    C.admissible (.call t x :: s.1, s.2) →
    C.Keeps t s (.call t x :: s.1, s.2) ∧
      Meets (C.env t) p (C.Returns t) (.call t x :: s.1, s.2)

variable {C}

theorem Holds.other {t u : T} (hne : u ≠ t) {s s' : sys.Shared} {st : ThreadState sys.object}
    (hC : C.Sound) (h : C.Holds u s st) (hk : C.Keeps t s s') : C.Holds u s' st := by
  have hr : (C.env u).rely s s' := ⟨hk.2 u hne, hk.1⟩
  cases st with
  | idle l => exact hC.rest_stable h hr
  | busy p => exact Meets.stable h hr

variable [DecidableEq T]

/-- After a move of `t` that keeps the contract, everything known is known again. -/
theorem holds_set {t : T} {s r : sys.Shared} {c : sys.Config} {st : ThreadState sys.object}
    (hC : C.Sound) (h : ∀ u, C.Holds u s (c.threads u)) (hk : C.Keeps t s r)
    (hst : C.Holds t r st) : ∀ u, C.Holds u r ((c.set t st).threads u) := by
  intro u
  by_cases hu : u = t
  · subst u
    simpa [Config.set] using hst
  · simpa [Config.set, Function.update_of_ne hu] using (h u).other hu hC hk

/-- One move of a system of sound threads. -/
theorem Sound.step (hC : C.Sound) {tr ev : sys.Trace} {c c' : sys.Config} {m : sys.Mv}
    (hi : C.invariant (tr, c.mem)) (ht : ∀ t, C.Holds t (tr, c.mem) (c.threads t))
    (hs : sys.step c m = some (ev, c')) (ha₀ : C.admissible (tr, c.mem))
    (ha : C.admissible (ev ++ tr, c'.mem)) :
    (∃ t, C.Keeps t (tr, c.mem) (ev ++ tr, c'.mem)) ∧
      ∀ t, C.Holds t (ev ++ tr, c'.mem) (c'.threads t) := by
  rcases step_cases hs with ⟨t, l, x, p, hl, hp, rfl, rfl⟩ |
    ⟨t, a, k, r, mem, ch, hk, he, rfl, rfl⟩ | ⟨t, β, γ, b, body, k, hk, rfl, rfl⟩ |
    ⟨t, l, o, hk, rfl, rfl⟩
  · have hrest := ht t
    rw [hl] at hrest
    obtain ⟨hg, hmeet⟩ := hC.call hi hrest hp ha
    exact ⟨⟨t, hg⟩, holds_set (r := (_, c.mem)) hC ht hg hmeet⟩
  · have hbusy := ht t
    rw [hk] at hbusy
    obtain ⟨hg, hmeet⟩ := hbusy _ ((C.env t).rely_refl _) r (.access t a r :: tr, mem)
      ⟨⟨ch, he⟩, rfl, ha₀, ha⟩
    exact ⟨⟨t, hg⟩, holds_set (c := ⟨mem, c.threads⟩) hC ht hg hmeet⟩
  · have hbusy := ht t
    rw [hk] at hbusy
    have hg : C.Keeps t (tr, c.mem) (tr, c.mem) := ⟨id, fun u _ => C.rely_refl u _⟩
    exact ⟨⟨t, hg⟩, holds_set hC ht hg (Meets.unroll hbusy)⟩
  · have hbusy := ht t
    rw [hk] at hbusy
    obtain ⟨hg, hrest⟩ := hbusy _ ((C.env t).rely_refl _) ha
    exact ⟨⟨t, hg⟩, holds_set (r := (_, c.mem)) hC ht hg hrest⟩

/-- Sound threads run together: in every admissible run the invariant holds and
each thread is where its own proof says it is. -/
theorem Sound.run (hC : C.Sound) {tr : sys.Trace} {c : sys.Config}
    (h : sys.RunIn C.admissible tr c) :
    C.invariant (tr, c.mem) ∧ ∀ t, C.Holds t (tr, c.mem) (c.threads t) := by
  induction h with
  | start => exact ⟨hC.start_invariant, hC.start_rest⟩
  | step h m hm ha ih =>
    obtain ⟨hi, ht⟩ := ih
    obtain ⟨⟨t, hk⟩, ht'⟩ := hC.step hi ht hm h.holds ha
    exact ⟨hk.1 hi, ht'⟩

/-- A relation that every kept step respects holds between any two moments of a run. -/
theorem Sound.between (hC : C.Sound) {R : sys.Shared → sys.Shared → Prop} (hrefl : ∀ s, R s s)
    (htrans : ∀ {s₁ s₂ s₃}, R s₁ s₂ → R s₂ s₃ → R s₁ s₃)
    (hkeep : ∀ {t s s'}, C.invariant s → C.Keeps t s s' → R s s') {tr tr₀ : sys.Trace}
    {c : sys.Config} (h : sys.RunIn C.admissible tr c) (hs : tr₀ <:+ tr) :
    ∃ c₀, sys.Run tr₀ c₀ ∧ R (tr₀, c₀.mem) (tr, c.mem) := by
  induction h with
  | start =>
    rw [List.suffix_nil.mp hs]
    exact ⟨sys.init, .start, hrefl _⟩
  | @step tr ev c c' h m hm ha ih =>
    obtain ⟨hi, ht⟩ := hC.run h
    obtain ⟨⟨t, hk⟩, _⟩ := hC.step hi ht hm h.holds ha
    rcases suffix_step hm hs with rfl | hs
    · exact ⟨c', h.run.step m hm, hrefl _⟩
    · obtain ⟨c₀, h₀, hr⟩ := ih hs
      exact ⟨c₀, h₀, htrans hr (hkeep hi hk)⟩

end Contract
end System
end LowLatencyLob.Concurrency
