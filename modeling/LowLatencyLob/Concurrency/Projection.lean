import LowLatencyLob.Concurrency.Progress

/-! A part of a larger object, seen alone.

Code that calls a method of a part between accesses of its own follows the code of that
method: what it does to the part is a run of the part. So whatever holds in every run of
the part holds, in every run of the larger object, of that object's part. -/
namespace LowLatencyLob.Concurrency

variable {A A₁ A₂ : Type} {Res : A → Type} {Res₁ : A₁ → Type} {Res₂ : A₂ → Type}

/-- How the accesses of a part, and those of the rest, are named in the whole. -/
structure Naming (Res : A → Type) (Res₁ : A₁ → Type) (Res₂ : A₂ → Type) where
  part : A₁ → A
  partResult : ∀ a, Res (part a) → Res₁ a
  rest : A₂ → A
  restResult : ∀ a, Res (rest a) → Res₂ a

section Code
variable {α β : Type} (N : Naming Res Res₁ Res₂)

/-- The first program does to the part what the second does, and ends as `fin` says. -/
inductive Follows (fin : α → β → Prop) : Program Res α → Program Res₁ β → Prop
  | done {x : α} {y : β} (h : fin x y) : Follows fin (.done x) (.done y)
  | part {γ : Type} (p : Program Res₁ γ) {k : γ → Program Res α} {k' : γ → Program Res₁ β}
      (h : ∀ x, Follows fin (k x) (k' x)) : Follows fin (p.lift N.part N.partResult >>= k) (p >>= k')
  | rest {γ : Type} (p : Program Res₂ γ) {k : γ → Program Res α} {q : Program Res₁ β}
      (h : ∀ x, Follows fin (k x) q) : Follows fin (p.lift N.rest N.restResult >>= k) q

/-- What comes first on the two sides: both end, both make the same access of the part or
start the same turn of a loop, or the first does something of its own. -/
inductive Head (fin : α → β → Prop) : Program Res α → Program Res₁ β → Prop
  | done {x : α} {y : β} (h : fin x y) : Head fin (.done x) (.done y)
  | access {a : A₁} {k : Res (N.part a) → Program Res α} {k' : Res₁ a → Program Res₁ β}
      (h : ∀ r, Follows N fin (k r) (k' (N.partResult a r))) : Head fin (.access (N.part a) k) (.access a k')
  | loop {δ γ : Type} {b : δ} {body : δ → Program Res (δ ⊕ γ)} {k : γ → Program Res α}
      {body' : δ → Program Res₁ (δ ⊕ γ)} {k' : γ → Program Res₁ β}
      (h : Follows N fin (.unroll b body k) (.unroll b body' k')) :
      Head fin (.loop b body k) (.loop b body' k')
  | restAccess {a : A₂} {k : Res (N.rest a) → Program Res α} {q : Program Res₁ β}
      (h : ∀ r, Follows N fin (k r) q) : Head fin (.access (N.rest a) k) q
  | restLoop {δ γ : Type} {b : δ} {body : δ → Program Res (δ ⊕ γ)} {k : γ → Program Res α}
      {q : Program Res₁ β} (h : Follows N fin (.unroll b body k) q) : Head fin (.loop b body k) q

variable {N} {fin : α → β → Prop}

theorem Follows.head {p : Program Res α} {q : Program Res₁ β} (h : Follows N fin p q) : Head N fin p q := by
  induction h with
  | done h => exact .done h
  | part p h ih =>
    cases p with
    | done x => exact ih x
    | access a k => exact .access fun r => .part _ h
    | loop b body k =>
      have hf := Follows.part (N := N) (.unroll b body k) h
      rw [Program.lift_unroll, Program.unroll_bind, Program.unroll_bind] at hf
      exact .loop hf
  | rest p h ih =>
    cases p with
    | done x => exact ih x
    | access a k => exact .restAccess fun r => .rest _ h
    | loop b body k =>
      have hf := Follows.rest (N := N) (.unroll b body k) h
      rw [Program.lift_unroll, Program.unroll_bind] at hf
      exact .restLoop hf

end Code

variable {T : Type} {sys : System T Res} {part : System T Res₁}

/-- What the events of the whole are for the part. -/
structure Reading (sys : System T Res) (part : System T Res₁) where
  call : sys.object.Call → Option part.object.Call
  /-- A result of the whole, and the result of the part that it comes from. -/
  out : sys.object.Out → part.object.Out → Prop
  /-- Results of the whole that the part knows nothing of. -/
  silent : sys.object.Out → Prop
  idle : sys.object.Local → part.object.Local → Prop
  view : sys.memory.State → part.memory.State

section Traces
variable (N : Naming Res Res₁ Res₂) (R : Reading sys part)

/-- The second trace is what the first one means for the part. -/
inductive Shows : sys.Trace → part.Trace → Prop
  | nil : Shows [] []
  | call {tr tr' t x x'} (h : Shows tr tr') (hx : R.call x = some x') :
      Shows (.call t x :: tr) (.call t x' :: tr')
  | restCall {tr tr' t x} (h : Shows tr tr') (hx : R.call x = none) : Shows (.call t x :: tr) tr'
  | access {tr tr' t a r} (h : Shows tr tr') :
      Shows (.access t (N.part a) r :: tr) (.access t a (N.partResult a r) :: tr')
  | restAccess {tr tr' t a r} (h : Shows tr tr') : Shows (.access t (N.rest a) r :: tr) tr'
  | ret {tr tr' t o o'} (h : Shows tr tr') (ho : R.out o o') : Shows (.ret t o :: tr) (.ret t o' :: tr')
  | restRet {tr tr' t o} (h : Shows tr tr') (ho : R.silent o) : Shows (.ret t o :: tr) tr'

/-- How a call of the whole ends where it was a call of the part. -/
def Reading.fin (x : sys.object.Local × sys.object.Out) (y : part.object.Local × part.object.Out) : Prop :=
  R.idle x.1 y.1 ∧ R.out x.2 y.2

/-- How it ends where it was none. -/
def Reading.quiet (l : part.object.Local) (x : sys.object.Local × sys.object.Out) (_ : Unit) : Prop :=
  R.idle x.1 l ∧ R.silent x.2

/-- Where a thread stands in the whole, and where in the part. -/
inductive Keeps : ThreadState sys.object → ThreadState part.object → Prop
  | idle {l l'} (h : R.idle l l') : Keeps (.idle l) (.idle l')
  | busy {p q} (h : Follows N R.fin p q) : Keeps (.busy p) (.busy q)
  | quiet {p l'} (h : Follows N (R.quiet l') p (.done ())) : Keeps (.busy p) (.idle l')

/-- The methods of the whole follow those of the part, and so do their accesses. -/
structure Projects : Prop where
  mem : R.view sys.mem₀ = part.mem₀
  start : ∀ t, R.idle (sys.local₀ t) (part.local₀ t)
  accessPart : ∀ {t m a ch r m'}, sys.memory.exec t m (N.part a) ch = some (r,m') →
    ∃ ch', part.memory.exec t (R.view m) a ch' = some (N.partResult a r,R.view m')
  accessRest : ∀ {t m a ch r m'}, sys.memory.exec t m (N.rest a) ch = some (r,m') → R.view m' = R.view m
  call : ∀ {l l' x p}, R.idle l l' → sys.object.code l x = some p →
    (∃ x' q, R.call x = some x' ∧ part.object.code l' x' = some q ∧ Follows N R.fin p q) ∨
      R.call x = none ∧ Follows N (R.quiet l') p (.done ())

variable {N R} [DecidableEq T]

/-- The part of a moment of a run of the whole. -/
structure Part (N : Naming Res Res₁ Res₂) (R : Reading sys part) (tr : sys.Trace) (c : sys.Config)
    (tr' : part.Trace) (c' : part.Config) : Prop where
  run : part.Run tr' c'
  shows : Shows N R tr tr'
  mem : c'.mem = R.view c.mem
  threads : ∀ t, Keeps N R (c.threads t) (c'.threads t)

section Threads
variable {c : sys.Config} {d : part.Config} {t : T}

theorem keeps_set (h : ∀ u, Keeps N R (c.threads u) (d.threads u)) {s s'} (hs : Keeps N R s s') (u : T) :
    Keeps N R ((c.set t s).threads u) ((d.set t s').threads u) := by
  by_cases hu : u = t
  · subst hu
    rw [System.Config.threads_set_self, System.Config.threads_set_self]
    exact hs
  · rw [System.Config.threads_set_other _ hu, System.Config.threads_set_other _ hu]
    exact h u

theorem keeps_rest (h : ∀ u, Keeps N R (c.threads u) (d.threads u)) {s} (hs : Keeps N R s (d.threads t)) (u : T) :
    Keeps N R ((c.set t s).threads u) (d.threads u) := by
  by_cases hu : u = t
  · subst hu
    rw [System.Config.threads_set_self]
    exact hs
  · rw [System.Config.threads_set_other _ hu]
    exact h u

end Threads

/-- One move of the whole is one move of the part, or none. -/
theorem Part.step (hP : Projects N R) {tr ev : sys.Trace} {c d : sys.Config} {tr' : part.Trace}
    {c' : part.Config} (h : Part N R tr c tr' c') {m : sys.Mv} (hs : sys.step c m = some (ev,d)) :
    ∃ tr₁ c₁, Part N R (ev ++ tr) d tr₁ c₁ := by
  rcases System.step_cases hs with ⟨t,l,x,p,hl,hp,rfl,rfl⟩ | ⟨t,a,k,r,mem,ch,hk,he,rfl,rfl⟩ |
    ⟨t,β,γ,b,body,k,hk,rfl,rfl⟩ | ⟨t,l,o,hd,rfl,rfl⟩
  · have ht := h.threads t
    rw [hl] at ht
    generalize hc : c'.threads t = s at ht
    cases ht with
    | idle hidle =>
      rcases hP.call hidle hp with ⟨x',q,hx,hq,hf⟩ | ⟨hx,hf⟩
      · exact ⟨_,_,h.run.call hc hq,h.shows.call hx,h.mem,keeps_set h.threads (.busy hf)⟩
      · exact ⟨_,_,h.run,h.shows.restCall hx,h.mem,keeps_rest h.threads (hc ▸ .quiet hf)⟩
  · have ht := h.threads t
    rw [hk] at ht
    generalize hc : c'.threads t = s at ht
    cases ht with
    | busy hf =>
      cases hf.head with
      | access hnext =>
        obtain ⟨ch',he'⟩ := hP.accessPart he
        rw [← h.mem] at he'
        exact ⟨_,_,h.run.access hc ch' he',h.shows.access,rfl,
          keeps_set (c := ⟨mem,c.threads⟩) (d := ⟨R.view mem,c'.threads⟩) h.threads (.busy (hnext r))⟩
      | restAccess hnext =>
        exact ⟨_,_,h.run,h.shows.restAccess,h.mem.trans (hP.accessRest he).symm,
          keeps_rest (c := ⟨mem,c.threads⟩) h.threads (hc ▸ .busy (hnext r))⟩
    | quiet hf =>
      cases hf.head with
      | restAccess hnext =>
        exact ⟨_,_,h.run,h.shows.restAccess,h.mem.trans (hP.accessRest he).symm,
          keeps_rest (c := ⟨mem,c.threads⟩) h.threads (hc ▸ .quiet (hnext r))⟩
  · have ht := h.threads t
    rw [hk] at ht
    generalize hc : c'.threads t = s at ht
    cases ht with
    | busy hf =>
      cases hf.head with
      | loop hnext => exact ⟨_,_,h.run.unroll hc,h.shows,h.mem,keeps_set h.threads (.busy hnext)⟩
      | restLoop hnext => exact ⟨_,_,h.run,h.shows,h.mem,keeps_rest h.threads (hc ▸ .busy hnext)⟩
    | quiet hf =>
      cases hf.head with
      | restLoop hnext => exact ⟨_,_,h.run,h.shows,h.mem,keeps_rest h.threads (hc ▸ .quiet hnext)⟩
  · have ht := h.threads t
    rw [hd] at ht
    generalize hc : c'.threads t = s at ht
    cases ht with
    | busy hf =>
      cases hf.head with
      | @done _ y hfin => exact ⟨_,_,h.run.ret (l := y.1) (o := y.2) hc,h.shows.ret hfin.2,h.mem,
          keeps_set h.threads (.idle hfin.1)⟩
    | quiet hf =>
      cases hf.head with
      | done hfin => exact ⟨_,_,h.run,h.shows.restRet hfin.2,h.mem,keeps_rest h.threads (hc ▸ .idle hfin.1)⟩

/-- What a run of the whole does to the part is a run of the part. -/
theorem Projects.run (hP : Projects N R) {tr : sys.Trace} {c : sys.Config} (h : sys.Run tr c) :
    ∃ tr' c', Part N R tr c tr' c' := by
  induction h with
  | start => exact ⟨[],part.init,.start,.nil,hP.mem.symm,fun t => .idle (hP.start t)⟩
  | step _ m hs ih =>
    obtain ⟨tr',c',hpart⟩ := ih
    exact hpart.step hP hs

end Traces
end LowLatencyLob.Concurrency
