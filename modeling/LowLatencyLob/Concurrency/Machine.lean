import LowLatencyLob.Concurrency.Program
import Mathlib.Data.List.Infix

/-! Threads that call methods of a shared object, one access at a time.

A scheduler picks the moves: an idle thread may call a method, a busy one may
perform its next access. A run leaves a trace of calls, accesses and returns,
newest first, and the history of a run is read off that trace. -/
namespace LowLatencyLob.Concurrency

/-- What the accesses of the threads `T` do to a shared memory. `Choice` resolves
what the memory leaves open, such as which of several values a load sees. -/
structure Memory (T : Type) {A : Type} (Res : A → Type) where
  State : Type
  Choice : Type
  exec : T → State → (a : A) → Choice → Option (Res a × State)

/-- The code a thread runs for each method it may call between calls. -/
structure Object {A : Type} (Res : A → Type) where
  Local : Type
  Call : Type
  Out : Type
  code : Local → Call → Option (Program Res (Local × Out))

structure System (T : Type) {A : Type} (Res : A → Type) where
  memory : Memory T Res
  object : Object Res
  mem₀ : memory.State
  local₀ : T → object.Local

inductive Event (T : Type) {A : Type} (Res : A → Type) (Call Out : Type)
  | call (t : T) (c : Call)
  | access (t : T) (a : A) (r : Res a)
  | ret (t : T) (o : Out)

/-- The scheduler's moves. Starting the next turn of a loop touches no memory. -/
inductive Move (T Call Choice : Type)
  | call (t : T) (c : Call)
  | access (t : T) (ch : Choice)
  | unroll (t : T)
  | ret (t : T)

inductive ThreadState {A : Type} {Res : A → Type} (O : Object Res)
  | idle (l : O.Local)
  | busy (p : Program Res (O.Local × O.Out))

/-- What a thread holds between its calls. -/
def ThreadState.resting {O : Object Res} : ThreadState O → Option O.Local
  | .idle l => some l
  | .busy _ => none

theorem ThreadState.eq_idle {O : Object Res} {s : ThreadState O} {l : O.Local} (h : s.resting = some l) :
    s = .idle l := by
  cases s with
  | idle l' => exact congrArg _ (Option.some.inj h)
  | busy p => cases h

theorem ThreadState.eq_busy {O : Object Res} {s : ThreadState O} (h : s.resting.isNone = true) :
    ∃ p, s = .busy p := by
  cases s with
  | idle l => cases h
  | busy p => exact ⟨p,rfl⟩

/-- What a list has at an index, every longer list has there. -/
theorem getElem?_of_grows {α : Type*} {l l' : List α} (h : l <+: l') {n : ℕ} {x : α}
    (hx : l[n]? = some x) : l'[n]? = some x := by
  obtain ⟨t,rfl⟩ := h
  rw [List.getElem?_append_left (List.getElem?_eq_some_iff.mp hx).1]
  exact hx

variable {T A : Type} {Res : A → Type}

def Event.thread {Call Out : Type} : Event T Res Call Out → T
  | .call t _ => t
  | .access t _ _ => t
  | .ret t _ => t

namespace System
variable (sys : System T Res)

abbrev Ev := Event T Res sys.object.Call sys.object.Out
abbrev Trace := List sys.Ev
abbrev Mv := Move T sys.object.Call sys.memory.Choice

structure Config where
  mem : sys.memory.State
  threads : T → ThreadState sys.object

def init : sys.Config := ⟨sys.mem₀, fun t => .idle (sys.local₀ t)⟩

variable [DecidableEq T]

/-- The thread `t` goes on in state `s`; no other thread changes. -/
def Config.set {sys : System T Res} (c : sys.Config) (t : T) (s : ThreadState sys.object) :
    sys.Config :=
  ⟨c.mem, Function.update c.threads t s⟩

@[simp] theorem Config.threads_set_self {sys : System T Res} (c : sys.Config) (t : T)
    (s : ThreadState sys.object) :
    (c.set t s).threads t = s := by simp [Config.set]

theorem Config.threads_set_other {sys : System T Res} (c : sys.Config) {t u : T} (h : u ≠ t)
    (s : ThreadState sys.object) : (c.set t s).threads u = c.threads u := by
  simp [Config.set, Function.update_of_ne h]

/-- One move, with the events it leaves (one, or none when a loop starts over). -/
def step (c : sys.Config) : sys.Mv → Option (sys.Trace × sys.Config)
  | .call t m =>
    match c.threads t with
    | .idle l => (sys.object.code l m).map fun p => ([.call t m], c.set t (.busy p))
    | .busy _ => none
  | .access t ch =>
    match c.threads t with
    | .busy (.access a k) =>
      (sys.memory.exec t c.mem a ch).map fun x =>
        ([.access t a x.1], Config.set ⟨x.2, c.threads⟩ t (.busy (k x.1)))
    | _ => none
  | .unroll t =>
    match c.threads t with
    | .busy (.loop b body k) => some ([], c.set t (.busy (.unroll b body k)))
    | _ => none
  | .ret t =>
    match c.threads t with
    | .busy (.done x) => some ([.ret t x.2], c.set t (.idle x.1))
    | _ => none

/-- A finite run: the trace it left and the configuration it reached. -/
inductive Run : sys.Trace → sys.Config → Prop
  | start : Run [] sys.init
  | step {tr ev : sys.Trace} {c c' : sys.Config} (h : Run tr c) (m : sys.Mv)
      (hs : sys.step c m = some (ev, c')) : Run (ev ++ tr) c'

/-- The part of a configuration that several threads may speak about. -/
abbrev Shared (sys : System T Res) : Type := sys.Trace × sys.memory.State

/-- A run all of whose moments satisfy `P`. -/
inductive RunIn (P : sys.Shared → Prop) : sys.Trace → sys.Config → Prop
  | start (hP : P ([],sys.mem₀)) : RunIn P [] sys.init
  | step {tr ev : sys.Trace} {c c' : sys.Config} (h : RunIn P tr c) (m : sys.Mv)
      (hs : sys.step c m = some (ev, c')) (hP : P (ev ++ tr,c'.mem)) : RunIn P (ev ++ tr) c'

/-- Play a list of moves; the trace is kept newest first. -/
def play : List sys.Mv → sys.Trace × sys.Config → Option (sys.Trace × sys.Config)
  | [], x => some x
  | m :: ms, (tr, c) => (sys.step c m).bind fun y => play ms (y.1 ++ tr, y.2)

variable {sys}

theorem Run.play {tr tr' : sys.Trace} {c c' : sys.Config} (h : sys.Run tr c) (ms : List sys.Mv)
    (hp : sys.play ms (tr, c) = some (tr', c')) : sys.Run tr' c' := by
  induction ms generalizing tr c with
  | nil => cases hp; exact h
  | cons m ms ih =>
    obtain ⟨⟨ev, d⟩, hs, hd⟩ := Option.bind_eq_some_iff.mp hp
    exact ih (h.step m hs) hd

/-- A schedule that plays through from the start is a run; what evaluates to true of
where it ends holds of that run. -/
theorem exists_config_of_play (ms : List sys.Mv) (P : sys.Trace → sys.Config → Bool)
    (h : (sys.play ms ([], sys.init)).any (fun x => P x.1 x.2) = true) :
    ∃ tr c, sys.Run tr c ∧ P tr c = true := by
  obtain ⟨⟨tr, c⟩, hp, hP⟩ := (Option.any_eq_true _ _).mp h
  exact ⟨tr, c, Run.start.play ms hp, hP⟩

theorem exists_run_of_play (ms : List sys.Mv) (P : sys.Trace → Bool)
    (h : (sys.play ms ([], sys.init)).any (fun x => P x.1) = true) :
    ∃ tr c, sys.Run tr c ∧ P tr = true := exists_config_of_play ms (fun tr _ => P tr) h

/-- Play a list of moves as long as every moment passes the test `P`. -/
def playIn (P : sys.Shared → Bool) : List sys.Mv → sys.Trace × sys.Config → Option (sys.Trace × sys.Config)
  | [], x => some x
  | m :: ms, (tr, c) => (sys.step c m).bind fun y =>
    if P (y.1 ++ tr, y.2.mem) then playIn P ms (y.1 ++ tr, y.2) else none

theorem RunIn.playIn {P : sys.Shared → Bool} {tr tr' : sys.Trace} {c c' : sys.Config}
    (h : sys.RunIn (fun s => P s = true) tr c) (ms : List sys.Mv)
    (hp : sys.playIn P ms (tr, c) = some (tr', c')) : sys.RunIn (fun s => P s = true) tr' c' := by
  induction ms generalizing tr c with
  | nil => cases hp; exact h
  | cons m ms ih =>
    obtain ⟨⟨ev, d⟩, hs, hd⟩ := Option.bind_eq_some_iff.mp hp
    split_ifs at hd with hP
    exact ih (h.step m hs hP) hd

theorem exists_runIn_of_play (ms : List sys.Mv) (P : sys.Shared → Bool) (R : sys.Trace → Bool)
    (h₀ : P ([], sys.mem₀) = true) (h : (sys.playIn P ms ([], sys.init)).any (fun x => R x.1) = true) :
    ∃ tr c, sys.RunIn (fun s => P s = true) tr c ∧ R tr = true := by
  obtain ⟨⟨tr, c⟩, hp, hR⟩ := (Option.any_eq_true _ _).mp h
  exact ⟨tr, c, (RunIn.start h₀).playIn ms hp, hR⟩

/-- What each kind of move did, with the thread it moved. -/
theorem step_cases {c c' : sys.Config} {m : sys.Mv} {ev : sys.Trace}
    (h : sys.step c m = some (ev, c')) :
    (∃ t l x p, c.threads t = .idle l ∧ sys.object.code l x = some p ∧
      ev = [.call t x] ∧ c' = c.set t (.busy p)) ∨
    (∃ t a k r mem ch, c.threads t = .busy (.access a k) ∧
      sys.memory.exec t c.mem a ch = some (r, mem) ∧ ev = [.access t a r] ∧
      c' = Config.set ⟨mem, c.threads⟩ t (.busy (k r))) ∨
    (∃ (t : T) (β γ : Type) (b : β) (body : β → Program Res (β ⊕ γ)) (k : γ → _),
      c.threads t = .busy (.loop b body k) ∧ ev = [] ∧
      c' = c.set t (.busy (.unroll b body k))) ∨
    (∃ t l o, c.threads t = .busy (.done (l, o)) ∧ ev = [.ret t o] ∧ c' = c.set t (.idle l)) := by
  cases m with
  | call t x =>
    simp only [step] at h
    split at h
    · rename_i l hl
      obtain ⟨p, hp, he⟩ := Option.map_eq_some_iff.mp h
      cases he
      exact .inl ⟨t, l, x, p, hl, hp, rfl, rfl⟩
    · contradiction
  | access t ch =>
    simp only [step] at h
    split at h
    · rename_i a k hk
      obtain ⟨⟨r, mem⟩, hr, he⟩ := Option.map_eq_some_iff.mp h
      cases he
      exact .inr (.inl ⟨t, a, k, r, mem, ch, hk, hr, rfl, rfl⟩)
    · contradiction
  | unroll t =>
    simp only [step] at h
    split at h
    · rename_i β γ b body k hk
      cases h
      exact .inr (.inr (.inl ⟨t, β, γ, b, body, k, hk, rfl, rfl⟩))
    · contradiction
  | ret t =>
    simp only [step] at h
    split at h
    · rename_i x hx
      cases h
      exact .inr (.inr (.inr ⟨t, x.1, x.2, hx, rfl, rfl⟩))
    · contradiction

/-- What came before the newest event that satisfies `P`. -/
def before {α : Type*} (P : α → Bool) : List α → List α
  | [] => []
  | e :: tr => if P e then tr else before P tr

theorem before_cons_of_pos {α : Type*} {P : α → Bool} {e : α} (h : P e = true) (tr : List α) :
    before P (e :: tr) = tr := if_pos h

theorem before_cons_of_neg {α : Type*} {P : α → Bool} {e : α} (h : P e = false) (tr : List α) :
    before P (e :: tr) = before P tr := if_neg (by simp [h])

/-- A move leaves at most one event. -/
theorem suffix_step {c c' : sys.Config} {m : sys.Mv} {tr tr₀ ev : sys.Trace}
    (h : sys.step c m = some (ev, c')) (hs : tr₀ <:+ ev ++ tr) : tr₀ = ev ++ tr ∨ tr₀ <:+ tr := by
  rcases step_cases h with ⟨t, l, x, p, _, _, rfl, rfl⟩ | ⟨t, a, k, r, mem, ch, _, _, rfl, rfl⟩ |
    ⟨t, β, γ, b, body, k, _, rfl, rfl⟩ | ⟨t, l, o, _, rfl, rfl⟩
  case inr.inr.inl => exact .inr hs
  all_goals exact List.suffix_cons_iff.mp hs

theorem RunIn.run {P : sys.Shared → Prop} {tr : sys.Trace} {c : sys.Config} (h : sys.RunIn P tr c) :
    sys.Run tr c := by
  induction h with
  | start => exact .start
  | step _ m hs _ ih => exact ih.step m hs

theorem RunIn.holds {P : sys.Shared → Prop} {tr : sys.Trace} {c : sys.Config} (h : sys.RunIn P tr c) :
    P (tr,c.mem) := by
  cases h with
  | start hP => exact hP
  | step _ _ _ hP => exact hP

/-- What a shorter trace inherits from a longer one. -/
theorem inherits {α : Type*} {Q : List α → Prop} (htail : ∀ e tr, Q (e :: tr) → Q tr)
    {tr tr₀ : List α} (hQ : Q tr) (hs : tr₀ <:+ tr) : Q tr₀ := by
  obtain ⟨ev, rfl⟩ := hs
  induction ev with
  | nil => exact hQ
  | cons e ev ih => exact ih (htail _ _ hQ)

theorem RunIn.mono {P P' : sys.Shared → Prop} (hP : ∀ s, P s → P' s) {tr : sys.Trace} {c : sys.Config}
    (h : sys.RunIn P tr c) : sys.RunIn P' tr c := by
  induction h with
  | start h => exact .start (hP _ h)
  | step _ m hs h ih => exact ih.step m hs (hP _ h)

theorem Run.runIn {tr : sys.Trace} {c : sys.Config} (h : sys.Run tr c) : sys.RunIn (fun _ => True) tr c := by
  induction h with
  | start => exact .start trivial
  | step _ m hs ih => exact ih.step m hs trivial

/-- A condition on traces that shorter traces inherit holds all along a run. -/
theorem RunIn.within {P : sys.Shared → Prop} {Q : sys.Trace → Prop} (htail : ∀ e tr, Q (e :: tr) → Q tr)
    {tr : sys.Trace} {c : sys.Config} (h : sys.RunIn P tr c) (hQ : Q tr) :
    sys.RunIn (fun s => Q s.1 ∧ P s) tr c := by
  induction h with
  | start hP => exact .start ⟨hQ,hP⟩
  | step h m hs hP ih => exact (ih (inherits htail hQ (List.suffix_append _ _))).step m hs ⟨hQ,hP⟩

theorem Run.within {Q : sys.Trace → Prop} (htail : ∀ e tr, Q (e :: tr) → Q tr) {tr : sys.Trace}
    {c : sys.Config} (h : sys.Run tr c) (hQ : Q tr) : sys.RunIn (fun s => Q s.1) tr c :=
  (h.runIn.within htail hQ).mono fun _ => And.left

/-- Every earlier moment of a run is itself a run. -/
theorem Run.of_suffix {tr tr₀ : sys.Trace} {c : sys.Config} (h : sys.Run tr c)
    (hs : tr₀ <:+ tr) : ∃ c₀, sys.Run tr₀ c₀ := by
  induction h with
  | start =>
    rw [List.suffix_nil.mp hs]
    exact ⟨sys.init, .start⟩
  | step h m hm ih =>
    rcases suffix_step hm hs with rfl | hs
    · exact ⟨_, h.step m hm⟩
    · exact ih hs

end System
end LowLatencyLob.Concurrency
