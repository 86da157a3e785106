import LowLatencyLob.Concurrency.Calls
import LowLatencyLob.Concurrency.RelyGuarantee
import LowLatencyLob.Concurrency.Progress

/-! Clients of an object: threads whose code calls the methods of a shared object, and makes
accesses of a memory of its own in between.

A call takes as many moves as its method does, and other threads act between them. The
object inside is always at a moment of one of its own runs, so that what holds in every run
of the object may be used of its clients. -/
namespace LowLatencyLob.Concurrency

variable {T A A' : Type} {Res : A → Type} {Res' : A' → Type}

/-- What a client does: start a call, let the call make one move, or make an access. -/
inductive Deed (Call A' : Type)
  | start (x : Call)
  | advance
  | own (a : A')

/-- A move of a call hands back a result when the call returns. -/
abbrev Deed.Result (Call Out : Type) (Res' : A' → Type) : Deed Call A' → Type
  | .start _ => Unit
  | .advance => Option Out
  | .own a => Res' a

/-- Code of a client of the object `O`. -/
abbrev Client (O : Object Res) (Res' : A' → Type) := Program (Deed.Result O.Call O.Out Res')

namespace Client
variable {O : Object Res}

/-- One more move of the running call. -/
def await : Client O Res' (Unit ⊕ O.Out) :=
  .access .advance fun r => match r with
    | some o => .done (.inr o)
    | none => .done (.inl ())

/-- Call a method, and wait for what it returns. -/
def call (x : O.Call) : Client O Res' O.Out :=
  .access (.start x) fun _ => .loop () (fun _ => await) .done

def own (a : A') : Client O Res' (Res' a) := .access (.own a) .done

end Client

namespace System
variable {sys : System T Res} [DecidableEq T]

/-- An object at a moment of a run. -/
structure Moment (sys : System T Res) where
  trace : sys.Trace
  config : sys.Config

namespace Moment

def start (sys : System T Res) : sys.Moment := ⟨[],sys.init⟩

def move (m : sys.Moment) (mv : sys.Mv) : Option sys.Moment :=
  (sys.step m.config mv).map fun y => ⟨y.1 ++ m.trace,y.2⟩

/-- The next move of the call of `t`, and what the call returns with it. -/
def next (m : sys.Moment) (t : T) (ch : sys.memory.Choice) : Option (sys.Mv × Option sys.object.Out) :=
  match m.config.threads t with
  | .busy (.access _ _) => some (.access t ch,none)
  | .busy (.loop _ _ _) => some (.unroll t,none)
  | .busy (.done x) => some (.ret t,some x.2)
  | .idle _ => none

/-- What a move of the call of `t` does. -/
inductive Advances (m : sys.Moment) (t : T) : Option sys.object.Out → sys.Moment → Prop
  | access {a : A} {k : Res a → Program Res (sys.object.Local × sys.object.Out)} (r : Res a) (mem : sys.memory.State)
      (hp : m.config.threads t = .busy (.access a k)) :
      Advances m t none ⟨.access t a r :: m.trace,Config.set ⟨mem,m.config.threads⟩ t (.busy (k r))⟩
  | unroll {β γ : Type} {b : β} {body : β → Program Res (β ⊕ γ)}
      {k : γ → Program Res (sys.object.Local × sys.object.Out)} (hp : m.config.threads t = .busy (.loop b body k)) :
      Advances m t none ⟨m.trace,m.config.set t (.busy (.unroll b body k))⟩
  | ret {l : sys.object.Local} {o : sys.object.Out} (hp : m.config.threads t = .busy (.done (l,o))) :
      Advances m t (some o) ⟨.ret t o :: m.trace,m.config.set t (.idle l)⟩

variable {m m' : sys.Moment} {t : T}

theorem move_call {x : sys.object.Call} (h : m.move (.call t x) = some m') :
    ∃ l p, m.config.threads t = .idle l ∧ sys.object.code l x = some p ∧
      m' = ⟨.call t x :: m.trace,m.config.set t (.busy p)⟩ := by
  obtain ⟨⟨ev,c⟩,hs,rfl⟩ := Option.map_eq_some_iff.mp h
  simp only [step] at hs
  split at hs
  · rename_i l hl
    obtain ⟨p,hp,he⟩ := Option.map_eq_some_iff.mp hs
    cases he
    exact ⟨l,p,hl,hp,rfl⟩
  · cases hs

theorem advances_of_next {ch : sys.memory.Choice} {mv : sys.Mv} {r : Option sys.object.Out}
    (h : m.next t ch = some (mv,r)) (hm : m.move mv = some m') : m.Advances t r m' := by
  obtain ⟨⟨ev,c⟩,hs,rfl⟩ := Option.map_eq_some_iff.mp hm
  unfold next at h
  split at h
  · rename_i a k hk
    cases h
    simp only [step, hk] at hs
    obtain ⟨⟨x,mem⟩,_,he⟩ := Option.map_eq_some_iff.mp hs
    cases he
    exact .access x mem hk
  · rename_i b body k hk
    cases h
    simp only [step, hk] at hs
    cases hs
    exact .unroll hk
  · rename_i x hx
    cases h
    simp only [step, hx] at hs
    cases hs
    exact .ret hx
  · cases h

end Moment

/-- Where moves lead to, the newest first; `none` if they cannot be played. -/
def playback (sys : System T Res) : List sys.Mv → Option sys.Moment
  | [] => some (.start sys)
  | mv :: mvs => (playback sys mvs).bind fun m => m.move mv

/-- Moves that can be played. -/
structure Played (sys : System T Res) where
  moves : List sys.Mv
  plays : (playback sys moves).isSome

namespace Played

def start (sys : System T Res) : Played sys := ⟨[],rfl⟩

def moment (s : Played sys) : sys.Moment := (playback sys s.moves).get s.plays

/-- One move more, if it can be made. -/
def push (s : Played sys) (mv : sys.Mv) : Option (Played sys) :=
  if h : (playback sys (mv :: s.moves)).isSome then some ⟨mv :: s.moves,h⟩ else none

/-- One move more of the call of `t`. -/
def advance (s : Played sys) (t : T) (ch : sys.memory.Choice) : Option (Option sys.object.Out × Played sys) :=
  (s.moment.next t ch).bind fun y => (s.push y.1).map fun s' => (y.2,s')

variable {s s' : Played sys} {t : T}

theorem playback_moves (s : Played sys) : playback sys s.moves = some s.moment := (Option.some_get s.plays).symm

theorem move_of_push {mv : sys.Mv} (h : s.push mv = some s') : s.moment.move mv = some s'.moment := by
  unfold push at h
  split at h
  · cases h
    rw [← playback_moves, playback, playback_moves, Option.bind_some]
  · cases h

theorem advances {ch : sys.memory.Choice} {r : Option sys.object.Out} (h : s.advance t ch = some (r,s')) :
    s.moment.Advances t r s'.moment := by
  obtain ⟨⟨mv,r'⟩,hnext,hpush⟩ := Option.bind_eq_some_iff.mp h
  obtain ⟨s₁,hs,he⟩ := Option.map_eq_some_iff.mp hpush
  cases he
  exact Moment.advances_of_next hnext (move_of_push hs)

/-- Moves that can be played lead to a moment of a run. -/
theorem run (s : Played sys) : sys.Run s.moment.trace s.moment.config := by
  obtain ⟨moves,plays⟩ := s
  induction moves with
  | nil => exact .start
  | cons mv mvs ih =>
    have hback := playback_moves ⟨mv :: mvs,plays⟩
    obtain ⟨m,hm,hmove⟩ := Option.bind_eq_some_iff.mp hback
    obtain ⟨⟨ev,c⟩,hs,he⟩ := Option.map_eq_some_iff.mp hmove
    have hplays : (playback sys mvs).isSome := by
      rw [hm]
      rfl
    have hmoment : (⟨mvs,hplays⟩ : Played sys).moment = m :=
      Option.some.inj ((playback_moves ⟨mvs,hplays⟩).symm.trans hm)
    have hrun := ih hplays
    rw [hmoment] at hrun
    rw [← he]
    exact hrun.step mv hs

end Played
end System

section Clients
variable [DecidableEq T] (sys : System T Res) (own : Memory T Res')

/-- The object, kept as the moves that it has made, beside the clients' own memory. -/
structure ClientState where
  object : System.Played sys
  own : own.State

abbrev clientMemory : Memory T (Deed.Result sys.object.Call sys.object.Out Res') where
  State := ClientState sys own
  Choice := sys.memory.Choice × own.Choice
  exec t s
    | .start x, _ => (s.object.push (.call t x)).map fun m => ((),⟨m,s.own⟩)
    | .advance, ch => (s.object.advance t ch.1).map fun y => (y.1,⟨y.2,s.own⟩)
    | .own a, ch => (own.exec t s.own a ch.2).map fun y => (y.1,⟨s.object,y.2⟩)

/-- Clients of `sys`, by their code and the start of their own memory. -/
abbrev clients (own₀ : own.State) (object : Object (Deed.Result sys.object.Call sys.object.Out Res'))
    (local₀ : T → object.Local) : System T (Deed.Result sys.object.Call sys.object.Out Res') where
  memory := clientMemory sys own
  object := object
  mem₀ := ⟨.start sys,own₀⟩
  local₀ := local₀

variable {sys own} {own₀ : own.State} {object : Object (Deed.Result sys.object.Call sys.object.Out Res')}
  {local₀ : T → object.Local} {t u : T}

/-- What other threads leave of the calls of `t`. -/
structure System.Moment.Apart (t : T) (m m' : sys.Moment) : Prop where
  thread : m'.config.threads t = m.config.threads t
  results : System.results t m'.trace = System.results t m.trace
  grown : m.trace <:+ m'.trace

/-- What other threads leave of all that `t` has done. -/
structure Apart (t : T) (s s' : (clients sys own own₀ object local₀).Shared) : Prop where
  object : s.2.object.moment.Apart t s'.2.object.moment
  mine : mine t s'.1 = mine t s.1
  grown : s.1 <:+ s'.1

section Steps
variable {s s' s'' : (clients sys own own₀ object local₀).Shared}

theorem System.Moment.Apart.refl (t : T) (m : sys.Moment) : m.Apart t m := ⟨rfl,rfl,List.suffix_rfl⟩

theorem Apart.refl (t : T) (s : (clients sys own own₀ object local₀).Shared) : Apart t s s :=
  ⟨.refl t _,rfl,List.suffix_rfl⟩

theorem Apart.trans (h : Apart t s s') (h' : Apart t s' s'') : Apart t s s'' where
  object := ⟨h'.object.thread.trans h.object.thread,h'.object.results.trans h.object.results,
    h.object.grown.trans h'.object.grown⟩
  mine := h'.mine.trans h.mine
  grown := h.grown.trans h'.grown

/-- An event of another thread that leaves the object alone. -/
theorem Apart.event {e : (clients sys own own₀ object local₀).Ev} (he : e.thread ≠ t)
    (s : (clients sys own own₀ object local₀).Shared)
    (o : own.State) : Apart t s (e :: s.1,⟨s.2.object,o⟩) :=
  ⟨.refl t _,mine_other he _,List.suffix_cons _ _⟩

theorem Apart.access (hu : t ≠ u) (a : A') (r : Res' a) (s : (clients sys own own₀ object local₀).Shared)
    (o : own.State) :
    Apart t s (.access u (.own a) r :: s.1,⟨s.2.object,o⟩) := by
  refine .event ?_ s o
  exact hu.symm

/-- A call of another thread starts. -/
structure Starts (u : T) (x : sys.object.Call) (p : Program Res (sys.object.Local × sys.object.Out))
    (s s' : (clients sys own own₀ object local₀).Shared) : Prop where
  object : s'.2.object.moment = ⟨.call u x :: s.2.object.moment.trace,s.2.object.moment.config.set u (.busy p)⟩
  own : s'.2.own = s.2.own
  trace : s'.1 = .access u (.start x) () :: s.1

/-- A call makes a move, and does not return yet. -/
structure Goes (u : T) (s s' : (clients sys own own₀ object local₀).Shared) : Prop where
  object : s.2.object.moment.Advances u none s'.2.object.moment
  own : s'.2.own = s.2.own
  trace : s'.1 = .access u .advance none :: s.1

/-- A call returns. -/
structure Comes (u : T) (l : sys.object.Local) (o : sys.object.Out)
    (s s' : (clients sys own own₀ object local₀).Shared) :
    Prop where
  object : s'.2.object.moment = ⟨.ret u o :: s.2.object.moment.trace,s.2.object.moment.config.set u (.idle l)⟩
  own : s'.2.own = s.2.own
  trace : s'.1 = .access u .advance (some o) :: s.1

theorem Starts.apart {x : sys.object.Call} {p : Program Res (sys.object.Local × sys.object.Out)} (h : Starts u x p s s')
    (hu : t ≠ u) : Apart t s s' where
  object := by
    rw [h.object]
    exact ⟨System.Config.threads_set_other _ hu _,rfl,List.suffix_cons _ _⟩
  mine := by
    rw [h.trace]
    refine mine_other ?_ _
    exact hu.symm
  grown := by
    rw [h.trace]
    exact List.suffix_cons _ _

theorem Goes.apart (h : Goes u s s') (hu : t ≠ u) : Apart t s s' where
  object := by
    have hobject := h.object
    generalize s'.2.object.moment = m at hobject
    cases hobject with
    | access r mem hp => exact ⟨System.Config.threads_set_other _ hu _,rfl,List.suffix_cons _ _⟩
    | unroll hp => exact ⟨System.Config.threads_set_other _ hu _,rfl,List.suffix_rfl⟩
  mine := by
    rw [h.trace]
    refine mine_other ?_ _
    exact hu.symm
  grown := by
    rw [h.trace]
    exact List.suffix_cons _ _

theorem Comes.apart {l : sys.object.Local} {o : sys.object.Out} (h : Comes u l o s s') (hu : t ≠ u) : Apart t s s' where
  object := by
    rw [h.object]
    exact ⟨System.Config.threads_set_other _ hu _,if_neg hu.symm,List.suffix_cons _ _⟩
  mine := by
    rw [h.trace]
    refine mine_other ?_ _
    exact hu.symm
  grown := by
    rw [h.trace]
    exact List.suffix_cons _ _

end Steps
section Rules
variable {K : (clients sys own own₀ object local₀).Contract} {α : Type}
  {Q : α → (clients sys own own₀ object local₀).Shared → Prop}
  {s : (clients sys own own₀ object local₀).Shared}

/-- An access of the clients' own memory. -/
theorem meets_own {a : A'} {f : Res' a → Client sys.object Res' α}
    (h : ∀ s₁, (K.env t).rely s s₁ → ∀ ch r o, own.exec t s₁.2.own a ch = some (r,o) →
      K.Keeps t s₁ (.access t (.own a) r :: s₁.1,⟨s₁.2.object,o⟩) ∧
        Meets (K.env t) (f r) Q (.access t (.own a) r :: s₁.1,⟨s₁.2.object,o⟩)) :
    Meets (K.env t) (Client.own a >>= f) Q s := by
  refine Meets.access fun s₁ hrely r s₂ hacc => ?_
  obtain ⟨⟨ch,hx⟩,htr,_⟩ := hacc
  obtain ⟨⟨r',o⟩,ho,he⟩ := Option.map_eq_some_iff.mp hx
  obtain ⟨tr₂,m₂⟩ := s₂
  obtain rfl : tr₂ = _ := htr
  cases he
  exact h s₁ hrely ch.2 r' o ho

/-- A call: `Busy` holds while it runs. -/
theorem meets_call {x : sys.object.Call} {f : sys.object.Out → Client sys.object Res' α} {l : sys.object.Local}
    {p : Program Res (sys.object.Local × sys.object.Out)} (Busy : (clients sys own own₀ object local₀).Shared → Prop)
    (hidle : ∀ s₁, (K.env t).rely s s₁ → s₁.2.object.moment.config.threads t = .idle l)
    (hp : sys.object.code l x = some p)
    (hrely : ∀ s₁ s₂, Busy s₁ → (K.env t).rely s₁ s₂ → Busy s₂ ∧ Apart t s₁ s₂)
    (hstart : ∀ s₁ s₂, (K.env t).rely s s₁ → Starts t x p s₁ s₂ → K.Keeps t s₁ s₂ ∧ Busy s₂)
    (hgo : ∀ s₁ s₂, Busy s₁ → Goes t s₁ s₂ → K.Keeps t s₁ s₂ ∧ Busy s₂)
    (hcome : ∀ s₁ s₂ l' o, Busy s₁ → p.Residual (.done (l',o)) → Comes t l' o s₁ s₂ →
      K.Keeps t s₁ s₂ ∧ Meets (K.env t) (f o) Q s₂) :
    Meets (K.env t) (Client.call x >>= f) Q s := by
  intro s₁ hs₁ _ s₂ hacc
  obtain ⟨⟨ch,hx⟩,htr,_⟩ := hacc
  obtain ⟨o,ho,he⟩ := Option.map_eq_some_iff.mp hx
  obtain ⟨l',p',hl',hp',hm⟩ := System.Moment.move_call (System.Played.move_of_push ho)
  obtain ⟨tr₂,m₂⟩ := s₂
  obtain rfl : tr₂ = _ := htr
  cases he
  rw [hidle s₁ hs₁] at hl'
  cases hl'
  cases hp'.symm.trans hp
  obtain ⟨hkeep,hbusy⟩ := hstart s₁ (.access t (.start x) () :: s₁.1,⟨o,s₁.2.own⟩) hs₁ ⟨hm,rfl,rfl⟩
  -- The call stays where it is while others act.
  have hstable : ∀ s₂ s₃, (Busy s₂ ∧ ∃ q, s₂.2.object.moment.config.threads t = .busy q ∧ p.Residual q) →
      (K.env t).rely s₂ s₃ → Busy s₃ ∧ ∃ q, s₃.2.object.moment.config.threads t = .busy q ∧ p.Residual q := by
    intro s₂ s₃ ⟨hbusy₂,q,hq,hres⟩ hs₃
    obtain ⟨hbusy₃,hapart⟩ := hrely s₂ s₃ hbusy₂ hs₃
    exact ⟨hbusy₃,q,hapart.object.thread.trans hq,hres⟩
  refine ⟨hkeep,fun _ s => Busy s ∧ ∃ q, s.2.object.moment.config.threads t = .busy q ∧ p.Residual q,
    ⟨hbusy,p,?_,.here⟩,fun _ => hstable,?_⟩
  · change (o.moment).config.threads t = _
    rw [hm]
    exact System.Config.threads_set_self _ _ _
  -- A turn of the loop is one move: the call goes on, or it returns.
  · intro _ s₂ hs₂ s₃ hs₃ r s₄ hacc
    obtain ⟨hbusy₃,q,hq,hres⟩ := hstable s₂ s₃ hs₂ hs₃
    obtain ⟨⟨ch,hx⟩,htr,_⟩ := hacc
    obtain ⟨⟨r',o⟩,ho,he⟩ := Option.map_eq_some_iff.mp hx
    obtain ⟨tr₄,m₄⟩ := s₄
    obtain rfl : tr₄ = _ := htr
    cases he
    have hadv := System.Played.advances ho
    cases r' with
    | none =>
      obtain ⟨hkeep₄,hbusy₄⟩ := hgo s₃ (.access t .advance none :: s₃.1,⟨o,s₃.2.own⟩) hbusy₃ ⟨hadv,rfl,rfl⟩
      refine ⟨hkeep₄,Meets.done fun s' hs' => hstable _ s' ⟨hbusy₄,?_⟩ hs'⟩
      change ∃ q, o.moment.config.threads t = .busy q ∧ _
      generalize o.moment = m at hadv
      cases hadv with
      | access r mem hq' =>
        rw [hq] at hq'
        cases hq'
        exact ⟨_,System.Config.threads_set_self _ _ _,.access r hres⟩
      | unroll hq' =>
        rw [hq] at hq'
        cases hq'
        exact ⟨_,System.Config.threads_set_self _ _ _,.unroll hres⟩
    | some out =>
      have hcomes : ∃ l', q = .done (l',out) ∧
          o.moment = ⟨.ret t out :: s₃.2.object.moment.trace,s₃.2.object.moment.config.set t (.idle l')⟩ := by
        generalize o.moment = m at hadv
        cases hadv with
        | ret hq' =>
          rw [hq] at hq'
          cases hq'
          exact ⟨_,rfl,rfl⟩
      obtain ⟨l',rfl,hm'⟩ := hcomes
      obtain ⟨hkeep₄,hmeets⟩ := hcome s₃ (.access t .advance (some out) :: s₃.1,⟨o,s₃.2.own⟩) l' out hbusy₃ hres
        ⟨hm',rfl,rfl⟩
      exact ⟨hkeep₄,Meets.done fun s' hs' => hmeets.stable hs'⟩

end Rules
end Clients
end LowLatencyLob.Concurrency
