import Mathlib.Logic.Function.Basic

/-! Straight-line and looping thread code over atomic accesses.

A program is a tree: it stops with a result, performs one access and continues
with the value that the access returned, or repeats a body until it breaks.
Nothing is said here about what an access does; a memory gives it a meaning. -/
namespace LowLatencyLob.Concurrency

/-- The orderings an atomic load may ask for. -/
inductive LoadOrder
  | relaxed
  | acquire
  deriving DecidableEq, Repr

/-- The orderings an atomic store may ask for. -/
inductive StoreOrder
  | relaxed
  | release
  deriving DecidableEq, Repr

inductive FenceOrder
  | acquire
  | release
  deriving DecidableEq, Repr

/-- One atomic access; `Val l` is the type of the values kept at location `l`. -/
inductive Access {Loc : Type} (Val : Loc → Type)
  | load (l : Loc) (o : LoadOrder)
  | store (l : Loc) (v : Val l) (o : StoreOrder)
  | fence (o : FenceOrder)

/-- What an access hands back to the program. -/
abbrev Access.Result {Loc : Type} {Val : Loc → Type} : Access Val → Type
  | .load l _ => Val l
  | .store _ _ _ => Unit
  | .fence _ => Unit

/-- Thread code. `loop b body k` runs `body` from the loop variable `b`; the body
either continues with a new variable (`inl`) or breaks with a value for `k` (`inr`). -/
inductive Program {A : Type} (Res : A → Type) : Type → Type 1
  | done {α : Type} (x : α) : Program Res α
  | access {α : Type} (a : A) (k : Res a → Program Res α) : Program Res α
  | loop {α β γ : Type} (b : β) (body : β → Program Res (β ⊕ γ)) (k : γ → Program Res α) :
      Program Res α

namespace Program
variable {A A' : Type} {Res : A → Type} {Res' : A' → Type}

def bind {α β : Type} : Program Res α → (α → Program Res β) → Program Res β
  | .done x, f => f x
  | .access a k, f => .access a fun r => (k r).bind f
  | .loop b body k, f => .loop b body fun c => (k c).bind f

instance : Monad (Program Res) where
  pure := .done
  bind := .bind

@[simp] theorem pure_eq {α : Type} (x : α) : (pure x : Program Res α) = .done x := rfl

@[simp] theorem done_bind {α β : Type} (x : α) (f : α → Program Res β) :
    (Program.done x : Program Res α) >>= f = f x := rfl

@[simp] theorem access_bind {α β : Type} (a : A) (k : Res a → Program Res α)
    (f : α → Program Res β) : Program.access a k >>= f = .access a fun r => k r >>= f := rfl

@[simp] theorem loop_bind {α β γ δ : Type} (b : β) (body : β → Program Res (β ⊕ γ))
    (k : γ → Program Res α) (f : α → Program Res δ) :
    Program.loop b body k >>= f = .loop b body fun c => k c >>= f := rfl

theorem bind_assoc {α β γ : Type} (p : Program Res α) (f : α → Program Res β)
    (g : β → Program Res γ) : (p >>= f) >>= g = p >>= fun x => f x >>= g := by
  induction p with
  | done x => rfl
  | access a k ih => exact congrArg (Program.access a) (funext fun r => ih r f)
  | loop b body k _ ih => exact congrArg (Program.loop b body) (funext fun c => ih c f)

/-- One turn of a loop: run the body, then start over or go on after the loop. -/
def unroll {α β γ : Type} (b : β) (body : β → Program Res (β ⊕ γ)) (k : γ → Program Res α) :
    Program Res α :=
  body b >>= fun r => match r with
    | .inl b' => .loop b' body k
    | .inr c => k c

theorem unroll_bind {α β γ δ : Type} (b : β) (body : β → Program Res (β ⊕ γ))
    (k : γ → Program Res α) (f : α → Program Res δ) :
    unroll b body k >>= f = .unroll b body fun c => k c >>= f := by
  unfold unroll
  rw [bind_assoc]
  congr 1
  funext r
  cases r <;> rfl

/-- The same code over a larger set of accesses: `e` names the access there, `c`
turns its result back. -/
def lift (e : A → A') (c : ∀ a, Res' (e a) → Res a) {α : Type} :
    Program Res α → Program Res' α
  | .done x => .done x
  | .access a k => .access (e a) fun r => (k (c a r)).lift e c
  | .loop b body k => .loop b (fun b => (body b).lift e c) fun x => (k x).lift e c

@[simp] theorem lift_id {α : Type} (p : Program Res α) : p.lift id (fun _ r => r) = p := by
  induction p with
  | done x => rfl
  | access a k ih => exact congrArg (Program.access a) (funext ih)
  | loop b body k ihb ihk => simp only [lift, ihb, ihk]

theorem lift_bind (e : A → A') (c : ∀ a, Res' (e a) → Res a) {α β : Type} (p : Program Res α)
    (f : α → Program Res β) : (p >>= f).lift e c = p.lift e c >>= fun x => (f x).lift e c := by
  induction p with
  | done x => rfl
  | access a k ih => exact congrArg (Program.access (e a)) (funext fun r => ih (c a r) f)
  | loop b body k _ ih =>
    exact congrArg (Program.loop b fun b => (body b).lift e c) (funext fun x => ih x f)

theorem lift_unroll (e : A → A') (c : ∀ a, Res' (e a) → Res a) {α β γ : Type} (b : β)
    (body : β → Program Res (β ⊕ γ)) (k : γ → Program Res α) :
    (unroll b body k).lift e c =
      unroll b (fun b => (body b).lift e c) fun x => (k x).lift e c := by
  unfold unroll
  rw [lift_bind]
  congr 1
  funext r
  cases r <;> rfl

end Program

section Atomics
variable {Loc : Type} {Val : Loc → Type}

/-- Programs whose accesses are atomic loads, stores and fences. -/
abbrev Atomic (Val : Loc → Type) : Type → Type 1 := Program (@Access.Result _ Val)

def load (l : Loc) (o : LoadOrder) : Atomic Val (Val l) := .access (.load l o) .done
def store (l : Loc) (v : Val l) (o : StoreOrder) : Atomic Val Unit := .access (.store l v o) .done
def fence (o : FenceOrder) : Atomic Val Unit := .access (.fence o) .done

end Atomics
end LowLatencyLob.Concurrency
