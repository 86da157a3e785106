import LowLatencyLob.Concurrency.Program
import Mathlib.Data.Nat.Init

/-! Programs that run alone on a state that nobody shares: an operation is a function of
the state, so there is one run.

`Ends` is total correctness. It also bounds what is done on the way, so what the allowed
operations keep holds at every moment of the run. -/
namespace LowLatencyLob.Concurrency

/-- What each operation returns and does to a state. -/
abbrev Effect {A : Type} (Res : A → Type) (σ : Type) : Type := (a : A) → σ → Res a × σ

namespace Program
variable {A σ α β γ : Type} {Res : A → Type} {eff : Effect Res σ}

/-- The moments of a run: what is left of the program, and the state. -/
inductive Reaches (eff : Effect Res σ) {α : Type} : Program Res α → σ → Program Res α → σ → Prop
  | here (p : Program Res α) (s : σ) : Reaches eff p s p s
  | access {a : A} {k : Res a → Program Res α} {q : Program Res α} {s s' : σ}
      (h : Reaches eff (k (eff a s).1) (eff a s).2 q s') : Reaches eff (.access a k) s q s'
  | loop {β γ : Type} {b : β} {body : β → Program Res (β ⊕ γ)} {k : γ → Program Res α}
      {q : Program Res α} {s s' : σ} (h : Reaches eff (.unroll b body k) s q s') :
      Reaches eff (.loop b body k) s q s'

/-- The run of `p` from `s` ends with the result `x` in `s'`. -/
abbrev Returns (eff : Effect Res σ) (p : Program Res α) (s : σ) (x : α) (s' : σ) : Prop :=
  Reaches eff p s (.done x) s'

/-- The run of at most `n` steps, if it ends. -/
def run (eff : Effect Res σ) {α : Type} : ℕ → Program Res α → σ → Option (α × σ)
  | _, .done x, s => some (x,s)
  | 0, _, _ => none
  | n+1, .access a k, s => run eff n (k (eff a s).1) (eff a s).2
  | n+1, .loop b body k, s => run eff n (.unroll b body k) s

theorem returns_of_run {n : ℕ} {p : Program Res α} {s s' : σ} {x : α} (h : run eff n p s = some (x,s')) :
    Returns eff p s x s' := by
  induction n generalizing p s with
  | zero =>
    cases p with
    | done y =>
      cases h
      exact .here _ _
    | access a k => cases h
    | loop b body k => cases h
  | succ n ih =>
    cases p with
    | done y =>
      cases h
      exact .here _ _
    | access a k => exact .access (ih h)
    | loop b body k => exact .loop (ih h)

/-- A run that ends within `n` steps; what evaluates to true of its last state holds there. -/
theorem exists_returns_of_run (eff : Effect Res σ) (p : Program Res α) (s : σ) (n : ℕ) (P : σ → Bool)
    (h : (run eff n p s).any (fun x => P x.2) = true) : ∃ x s', Returns eff p s x s' ∧ P s' = true := by
  obtain ⟨⟨x,s'⟩,hr,hP⟩ := (Option.any_eq_true _ _).mp h
  exact ⟨x,s',returns_of_run hr,hP⟩

/-- How a turn of a `for` loop ends: with the next turn, a `break` or a `return`. -/
inductive Flow
  | next
  | stop
  | quit
  deriving DecidableEq

/-- At most `n` turns of a `for` loop, and whether one of them returned. -/
def times : ℕ → Program Res Flow → Program Res Bool
  | 0, _ => .done false
  | n+1, body => body >>= fun f => match f with
    | .next => times n body
    | .stop => .done false
    | .quit => .done true

section Reaches
variable {p q : Program Res α} {s s' s'' : σ}

theorem Reaches.trans {r : Program Res α} (h : Reaches eff p s q s') (h' : Reaches eff q s' r s'') :
    Reaches eff p s r s'' := by
  induction h with
  | here => exact h'
  | access _ ih => exact .access (ih h')
  | loop _ ih => exact .loop (ih h')

theorem Reaches.bind (h : Reaches eff p s q s') (f : α → Program Res β) :
    Reaches eff (p >>= f) s (q >>= f) s' := by
  induction h with
  | here => exact .here _ _
  | access _ ih => exact .access ih
  | loop _ ih =>
    rw [unroll_bind] at ih
    exact .loop ih

/-- There is one run. -/
theorem Returns.unique {x y : α} (h : Returns eff p s x s') (h' : Returns eff p s y s'') : x = y ∧ s' = s'' := by
  unfold Returns at h
  generalize hq : Program.done x = q at h
  induction h with
  | here =>
    subst hq
    cases h'
    exact ⟨rfl,rfl⟩
  | access _ ih =>
    cases h' with
    | access h' => exact ih h' hq
  | loop _ ih =>
    cases h' with
    | loop h' => exact ih h' hq

/-- What every operation keeps holds at every moment. -/
theorem Reaches.keeps {I : σ → Prop} (hI : ∀ a s, I s → I (eff a s).2) (h : Reaches eff p s q s') (hs : I s) :
    I s' := by
  induction h with
  | here => exact hs
  | access _ ih => exact ih (hI _ _ hs)
  | loop _ ih => exact ih hs

/-- Two runs of one program go in step until their states part. -/
theorem Returns.twin (Same Parted : σ → σ → Prop)
    (hsame : ∀ a s t, Same s t → (eff a s).1 = (eff a t).1 ∧ Same (eff a s).2 (eff a t).2 ∨ Parted s t)
    (hleft : ∀ a s t, Parted s t → Parted (eff a s).2 t) (hright : ∀ a s t, Parted s t → Parted s (eff a t).2)
    {t t' : σ} {x y : α} (h : Returns eff p s x s') (h' : Returns eff p t y t') (hst : Same s t) :
    Same s' t' ∨ Parted s' t' := by
  unfold Returns at h
  generalize hq : Program.done x = q at h
  induction h generalizing t with
  | here =>
    subst hq
    cases h'
    exact .inl hst
  | @access a k q s s' hk ih =>
    rcases hsame a s t hst with ⟨hres,hnext⟩ | hparted
    · cases h' with
      | access h' =>
        rw [← hres] at h'
        exact ih h' hnext hq
    · have hs : Parted s' t := hk.keeps (I := fun u => Parted u t) (fun a u => hleft a u t) (hleft a s t hparted)
      exact .inr (h'.keeps (I := fun u => Parted s' u) (fun a u => hright a s' u) hs)
  | loop _ ih =>
    cases h' with
    | loop h' => exact ih h' hst hq

end Reaches

/-- The run of a program ends with `Q`, and does on its way only what `G` allows. -/
inductive Ends (eff : Effect Res σ) (G : A → σ → Prop) {α : Type} (Q : α → σ → Prop) : Program Res α → σ → Prop
  | done {x : α} {s : σ} (h : Q x s) : Ends eff G Q (.done x) s
  | access {a : A} {k : Res a → Program Res α} {s : σ} (hg : G a s)
      (h : Ends eff G Q (k (eff a s).1) (eff a s).2) : Ends eff G Q (.access a k) s
  | loop {β γ : Type} {b : β} {body : β → Program Res (β ⊕ γ)} {k : γ → Program Res α} {s : σ}
      (h : Ends eff G Q (.unroll b body k) s) : Ends eff G Q (.loop b body k) s

/-- What one turn of a loop must do: go on with the invariant and less to do, or break. -/
def Turn (I : β → σ → Prop) (v : β → σ → ℕ) (R : γ → σ → Prop) (n : ℕ) : β ⊕ γ → σ → Prop
  | .inl b, s => I b s ∧ v b s < n
  | .inr c, s => R c s

namespace Ends
variable {G : A → σ → Prop} {Q Q' : α → σ → Prop} {R : β → σ → Prop} {p q : Program Res α} {s s' : σ}

theorem mono (h : Ends eff G Q p s) (hQ : ∀ x s, Q x s → Q' x s) : Ends eff G Q' p s := by
  induction h with
  | done h => exact .done (hQ _ _ h)
  | access hg _ ih => exact .access hg ih
  | loop _ ih => exact .loop ih

theorem bind {f : α → Program Res β} (h : Ends eff G Q p s) (hf : ∀ x s', Q x s' → Ends eff G R (f x) s') :
    Ends eff G R (p >>= f) s := by
  induction h with
  | done h => exact hf _ _ h
  | access hg _ ih => exact .access hg ih
  | loop _ ih =>
    rw [unroll_bind] at ih
    exact .loop ih

/-- A loop whose turns keep `I` and decrease `v`. -/
theorem repeats {b : β} {body : β → Program Res (β ⊕ γ)} {k : γ → Program Res α} {I : β → σ → Prop}
    {K : γ → σ → Prop} (v : β → σ → ℕ) (hb : I b s)
    (hbody : ∀ b s, I b s → Ends eff G (Turn I v K (v b s)) (body b) s)
    (hk : ∀ c s, K c s → Ends eff G Q (k c) s) : Ends eff G Q (.loop b body k) s := by
  induction hn : v b s using Nat.strongRecOn generalizing b s with
  | ind n ih =>
    subst hn
    apply Ends.loop
    refine (hbody b s hb).bind fun r s' hr => ?_
    cases r with
    | inl b' => exact ih _ hr.2 hr.1 rfl
    | inr c => exact hk c s' hr

/-- A `for` loop: `I k` holds when `k` turns are left, `K` behind the loop. -/
theorem times {body : Program Res Flow} {I : ℕ → σ → Prop} {K R : σ → Prop} {n : ℕ} (h : I n s)
    (hbody : ∀ k s, I (k+1) s → Ends eff G (fun f s' => match f with
      | .next => I k s'
      | .stop => K s'
      | .quit => R s') body s) (h₀ : ∀ s, I 0 s → K s) :
    Ends eff G (fun r s' => if r then R s' else K s') (times n body) s := by
  induction n generalizing s with
  | zero => exact .done (h₀ s h)
  | succ n ih =>
    refine (hbody n s h).bind fun f s' hf => ?_
    cases f with
    | next => exact ih hf
    | stop => exact .done hf
    | quit => exact .done hf

/-- The rest of a run is as good as the whole. -/
theorem reaches (h : Ends eff G Q p s) (hr : Reaches eff p s q s') : Ends eff G Q q s' := by
  induction hr with
  | here => exact h
  | access _ ih =>
    cases h with
    | access _ h => exact ih h
  | loop _ ih =>
    cases h with
    | loop h => exact ih h

theorem returns (h : Ends eff G Q p s) : ∃ x s', Returns eff p s x s' ∧ Q x s' := by
  induction h with
  | @done x s h => exact ⟨x,s,.here _ _,h⟩
  | access _ _ ih =>
    obtain ⟨x,s',hr,hq⟩ := ih
    exact ⟨x,s',.access hr,hq⟩
  | loop _ ih =>
    obtain ⟨x,s',hr,hq⟩ := ih
    exact ⟨x,s',.loop hr,hq⟩

theorem of_returns {x : α} (h : Ends eff G Q p s) (hr : Returns eff p s x s') : Q x s' := by
  cases h.reaches hr with
  | done h => exact h

/-- What the allowed operations keep holds at every moment. -/
theorem keeps {I : σ → Prop} (hI : ∀ a s, G a s → I s → I (eff a s).2) (h : Ends eff G Q p s)
    (hr : Reaches eff p s q s') (hs : I s) : I s' := by
  induction hr with
  | here => exact hs
  | access _ ih =>
    cases h with
    | access hg h => exact ih h (hI _ _ hg hs)
  | loop _ ih =>
    cases h with
    | loop h => exact ih h hs

end Ends

/-- At some moment of the run of `p` the state satisfies `P`. -/
def Visits (eff : Effect Res σ) (P : σ → Prop) {α : Type} (p : Program Res α) (s : σ) : Prop :=
  ∃ q s', Reaches eff p s q s' ∧ P s'

section Visits
variable {P : σ → Prop} {G : A → σ → Prop} {Q : α → σ → Prop} {p : Program Res α} {s : σ}

theorem Visits.bind (h : Visits eff P p s) (f : α → Program Res β) : Visits eff P (p >>= f) s := by
  obtain ⟨q,s',hr,hP⟩ := h
  exact ⟨_,s',hr.bind f,hP⟩

theorem Visits.access {a : A} {k : Res a → Program Res α} (h : Visits eff P (k (eff a s).1) (eff a s).2) :
    Visits eff P (.access a k) s := by
  obtain ⟨q,s',hr,hP⟩ := h
  exact ⟨q,s',.access hr,hP⟩

/-- The first turn of a loop. -/
theorem Visits.loop {γ δ : Type} {b : γ} {body : γ → Program Res (γ ⊕ δ)} {k : δ → Program Res α}
    (h : Visits eff P (body b) s) : Visits eff P (.loop b body k) s := by
  obtain ⟨q,s',hr,hP⟩ := h
  exact ⟨_,s',.loop (hr.bind _),hP⟩

/-- What comes behind a part of the code that ends. -/
theorem Ends.visits {f : α → Program Res β} (h : Ends eff G Q p s) (hf : ∀ x s', Q x s' → Visits eff P (f x) s') :
    Visits eff P (p >>= f) s := by
  obtain ⟨x,s',hr,hQ⟩ := h.returns
  obtain ⟨q,s'',hr',hP⟩ := hf x s' hQ
  exact ⟨q,s'',(hr.bind f).trans hr',hP⟩

/-- What no operation undoes holds at the end, too. -/
theorem Visits.ends (h : Visits eff P p s) (hP : ∀ a s, P s → P (eff a s).2) (he : Ends eff G Q p s) :
    ∃ x s', Returns eff p s x s' ∧ P s' := by
  obtain ⟨q,s',hr,hs'⟩ := h
  obtain ⟨x,s'',hr',_⟩ := (he.reaches hr).returns
  exact ⟨x,s'',hr.trans hr',hr'.keeps hP hs'⟩

end Visits

/-- Every operation of the run is one that `G` allows. -/
def Safe (eff : Effect Res σ) (G : A → σ → Prop) {α : Type} (p : Program Res α) (s : σ) : Prop :=
  ∀ a k s', Reaches eff p s (.access a k) s' → G a s'

/-- `M` holds at every moment of the run. -/
def Always (eff : Effect Res σ) (M : {α : Type} → Program Res α → σ → Prop) {α : Type} (p : Program Res α)
    (s : σ) : Prop :=
  ∀ q s', Reaches eff p s q s' → M q s'

/-- What holds of a program that goes on behind a first part holds of the part. -/
def Initial (M : {α : Type} → Program Res α → σ → Prop) : Prop :=
  ∀ {α β : Type} (p : Program Res α) (f : α → Program Res β) (s : σ), M (p >>= f) s → M p s

/-- The run of `p` from `s` comes to where `b` begins, in the state `s'`. -/
def Comes (eff : Effect Res σ) (b : Program Res β) (p : Program Res α) (s s' : σ) : Prop :=
  ∃ k, Reaches eff p s (b >>= k) s'

theorem Comes.visits {P : σ → Prop} {b : Program Res β} {p : Program Res α} {s s' : σ} (h : Comes eff b p s s')
    (hb : Visits eff P b s') : Visits eff P p s := by
  obtain ⟨k,hr⟩ := h
  obtain ⟨q,s'',hr',hP⟩ := hb
  exact ⟨_,s'',hr.trans (hr'.bind k),hP⟩

namespace Safe
variable {G : A → σ → Prop} {p : Program Res α} {s s' : σ}

theorem done (x : α) (s : σ) : Safe eff G (.done x : Program Res α) s := by
  rintro a k s' h
  cases h

theorem access {a : A} {k : Res a → Program Res α} (hg : G a s) (h : Safe eff G (k (eff a s).1) (eff a s).2) :
    Safe eff G (.access a k) s := by
  rintro b k' s' hr
  cases hr with
  | here => exact hg
  | access hr => exact h _ _ _ hr

/-- A part of a run is as safe as the whole. -/
theorem later {q : Program Res α} (h : Safe eff G p s) (hr : Reaches eff p s q s') : Safe eff G q s' :=
  fun _ _ _ hr' => h _ _ _ (hr.trans hr')

theorem of_ends {Q : α → σ → Prop} (h : Ends eff G Q p s) : Safe eff G p s := by
  intro a k s' hr
  cases h.reaches hr with
  | access hg _ => exact hg

end Safe

/-- The code is safe up to where `J` holds of what is left of it. -/
def SafeUntil (eff : Effect Res σ) (G : A → σ → Prop) {α : Type} (J : Program Res α → σ → Prop) (P : Program Res α)
    (s : σ) : Prop :=
  ∃ (δ : Type) (p : Program Res δ) (f : δ → Program Res α), P = p >>= f ∧ Safe eff G p s ∧
    ∀ x s', Returns eff p s x s' → J (f x) s'

namespace SafeUntil
variable {G : A → σ → Prop} {J : Program Res α → σ → Prop} {P : Program Res α} {s : σ}

theorem here (h : J P s) : SafeUntil eff G J P s := by
  refine ⟨Unit,.done (),fun _ => P,rfl,.done _ s,fun x s' hr => ?_⟩
  cases hr
  exact h

theorem access {a : A} {k : Res a → Program Res α} (h : SafeUntil eff G J (.access a k) s)
    (hJ : J (.access a k) s → G a s ∧ SafeUntil eff G J (k (eff a s).1) (eff a s).2) :
    G a s ∧ SafeUntil eff G J (k (eff a s).1) (eff a s).2 := by
  obtain ⟨δ,p,f,hP,hp,hf⟩ := h
  cases p with
  | done x => exact hJ (hP ▸ hf x s (.here _ _))
  | access a' k' =>
    cases hP
    exact ⟨hp _ _ _ (.here _ _),δ,_,f,rfl,hp.later (.access (.here _ _)),fun x s' hr => hf x s' (.access hr)⟩
  | loop b body k' => cases hP

theorem loop {b : β} {body : β → Program Res (β ⊕ γ)} {k : γ → Program Res α}
    (h : SafeUntil eff G J (.loop b body k) s)
    (hJ : J (.loop b body k) s → SafeUntil eff G J (.unroll b body k) s) :
    SafeUntil eff G J (.unroll b body k) s := by
  obtain ⟨δ,p,f,hP,hp,hf⟩ := h
  cases p with
  | done x => exact hJ (hP ▸ hf x s (.here _ _))
  | access a' k' => cases hP
  | loop b' body' k' =>
    cases hP
    exact ⟨δ,_,f,(unroll_bind _ _ _ _).symm,hp.later (.loop (.here _ _)),fun x s' hr => hf x s' (.loop hr)⟩

/-- The code is safe throughout if from where `J` holds it is safe for a step, and then up to
where `J` holds again. The induction is on the run. -/
theorem safe (h : SafeUntil eff G J P s)
    (haccess : ∀ {a k s}, J (.access a k) s → G a s ∧ SafeUntil eff G J (k (eff a s).1) (eff a s).2)
    (hloop : ∀ {β γ : Type} {b : β} {body : β → Program Res (β ⊕ γ)} {k s}, J (.loop b body k) s →
      SafeUntil eff G J (.unroll b body k) s) : Safe eff G P s := by
  intro a k s' hr
  generalize hq : Program.access a k = q at hr
  induction hr with
  | here =>
    subst hq
    exact (h.access haccess).1
  | access _ ih => exact ih (h.access haccess).2 hq
  | loop _ ih => exact ih (h.loop hloop) hq

end SafeUntil

namespace Safe
variable {G : A → σ → Prop} {p : Program Res α} {s : σ}

theorem bind {f : α → Program Res β} (h : Safe eff G p s)
    (hf : ∀ x s', Returns eff p s x s' → Safe eff G (f x) s') : Safe eff G (p >>= f) s := by
  have huntil : SafeUntil eff G (Safe eff G) (p >>= f) s := ⟨α,p,f,rfl,h,hf⟩
  exact huntil.safe (fun hs => ⟨hs _ _ _ (.here _ _),.here (hs.later (.access (.here _ _)))⟩)
    fun hs => .here (hs.later (.loop (.here _ _)))

/-- A loop whose turns are safe where the invariant holds, and so is what comes behind it. -/
theorem repeats {b : β} {body : β → Program Res (β ⊕ γ)} {k : γ → Program Res α} {I : β → σ → Prop} (hb : I b s)
    (hbody : ∀ b s, I b s → Safe eff G (body b) s ∧ ∀ r s', Returns eff (body b) s r s' → match r with
      | .inl b' => I b' s'
      | .inr c => Safe eff G (k c) s') : Safe eff G (.loop b body k) s := by
  -- A turn is safe up to the beginning of the next, or up to the code behind the loop.
  let J : Program Res α → σ → Prop := fun P s => Safe eff G P s ∨ ∃ b, P = .loop b body k ∧ I b s
  have huntil : SafeUntil eff G J (.loop b body k) s := .here (.inr ⟨b,rfl,hb⟩)
  refine huntil.safe (fun hJ => ?_) fun hJ => ?_
  · rcases hJ with hs | ⟨b,hP,_⟩
    · exact ⟨hs _ _ _ (.here _ _),.here (.inl (hs.later (.access (.here _ _))))⟩
    · cases hP
  · rcases hJ with hs | ⟨b,hP,hI⟩
    · exact .here (.inl (hs.later (.loop (.here _ _))))
    cases hP
    obtain ⟨hsafe,hnext⟩ := hbody b _ hI
    refine ⟨β ⊕ γ,body b,_,rfl,hsafe,fun r s' hr => ?_⟩
    cases r with
    | inl b' => exact .inr ⟨b',rfl,hnext _ s' hr⟩
    | inr c => exact .inl (hnext _ s' hr)

end Safe

namespace Always
variable {M : {α : Type} → Program Res α → σ → Prop} {G : A → σ → Prop} {p q : Program Res α} {s s' : σ}

theorem later (h : Always eff M p s) (hr : Reaches eff p s q s') : Always eff M q s' :=
  fun _ _ hr' => h _ _ (hr.trans hr')

theorem left (hM : Initial M) {f : α → Program Res β} (h : Always eff M (p >>= f) s) : Always eff M p s :=
  fun _ _ hr => hM _ f _ (h _ _ (hr.bind f))

/-- Each part of a sequence is safe where `M` holds all along the whole. -/
theorem bind (hM : Initial M) {f : α → Program Res β} (h : Always eff M (p >>= f) s)
    (hp : Always eff M p s → Safe eff G p s)
    (hf : ∀ x s', Returns eff p s x s' → Always eff M (f x) s' → Safe eff G (f x) s') : Safe eff G (p >>= f) s :=
  (hp (h.left hM)).bind fun x s' hr => hf x s' hr (h.later (hr.bind f))

theorem repeats (hM : Initial M) {b : β} {body : β → Program Res (β ⊕ γ)} {k : γ → Program Res α}
    (h : Always eff M (.loop b body k) s) (hbody : ∀ b s, Always eff M (body b) s → Safe eff G (body b) s)
    (hk : ∀ c s, Safe eff G (k c) s) : Safe eff G (.loop b body k) s := by
  refine Safe.repeats (I := fun b s => Always eff M (.loop b body k) s) h fun b s hb => ?_
  have hturn : Always eff M (.unroll b body k) s := hb.later (.loop (.here _ _))
  refine ⟨hbody b s (hturn.left hM),fun r s' hr => ?_⟩
  cases r with
  | inl b' => exact hturn.later (hr.bind _)
  | inr c => exact hk c s'

theorem times (hM : Initial M) {body : Program Res Flow} {n : ℕ} (h : Always eff M (times n body) s)
    (hbody : ∀ s, Always eff M body s → Safe eff G body s) : Safe eff G (times n body) s := by
  induction n generalizing s with
  | zero => exact .done _ s
  | succ n ih =>
    refine bind hM h (hbody s) fun f s' _ hrest => ?_
    cases f with
    | next => exact ih hrest
    | stop => exact .done _ s'
    | quit => exact .done _ s'

end Always

/-- What a run is known to do besides, it does. -/
theorem Ends.along {G G' : A → σ → Prop} {Q : α → σ → Prop} {p : Program Res α} {s : σ} (h : Ends eff G Q p s)
    (hs : Safe eff G' p s) : Ends eff (fun a s => G a s ∧ G' a s) Q p s := by
  induction h with
  | done h => exact .done h
  | access hg _ ih => exact .access ⟨hg,hs _ _ _ (.here _ _)⟩ (ih (hs.later (.access (.here _ _))))
  | loop _ ih => exact .loop (ih (hs.later (.loop (.here _ _))))

end Program
end LowLatencyLob.Concurrency
