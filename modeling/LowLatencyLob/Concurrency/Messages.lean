import LowLatencyLob.Concurrency.RelyGuarantee
import Mathlib.Order.Lattice

/-! A memory in which loads may be late.

Each location keeps the list of all values stored to it, oldest first. A thread may load
any entry that is not older than the newest one it knows of. The orderings say what else
comes to be known: a `Release` store attaches what its thread knows, and so does a
`Relaxed` store with what its thread knew at its last `Release` fence; an `Acquire` load
takes over what is attached to the entry, and an `Acquire` fence what is attached to all
entries its thread has loaded. -/
namespace LowLatencyLob.Concurrency

variable {T Loc : Type} {Val : Loc → Type}

/-- For each location, the index of an entry: that one and those before it are known. -/
abbrev Knowledge (Loc : Type) := Loc → ℕ

/-- One stored value, with the knowledge attached to it. -/
structure Entry (Val : Loc → Type) (l : Loc) where
  value : Val l
  know : Knowledge Loc

/-- What a thread knows, what an `Acquire` fence would add to that, and what it knew at
its last `Release` fence. -/
structure View (Loc : Type) where
  known : Knowledge Loc
  pending : Knowledge Loc
  released : Knowledge Loc

namespace View

def fence (v : View Loc) : FenceOrder → View Loc
  | .acquire => ⟨v.known ⊔ v.pending,v.pending,v.released⟩
  | .release => ⟨v.known,v.pending,v.known⟩

/-- What a store attaches to its entry. -/
def attached (v : View Loc) : StoreOrder → Knowledge Loc
  | .relaxed => v.released
  | .release => v.known

theorem known_le_fence {v : View Loc} {o : FenceOrder} : v.known ≤ (v.fence o).known := by
  cases o with
  | acquire => exact le_sup_left
  | release => exact le_rfl

theorem pending_le_acquire {v : View Loc} : v.pending ≤ (v.fence .acquire).known := le_sup_right

variable [DecidableEq Loc]

/-- After loading entry `n` of `l`, to which `know` is attached. -/
def load (v : View Loc) (l : Loc) (o : LoadOrder) (n : ℕ) (know : Knowledge Loc) : View Loc :=
  let known := Function.update v.known l n
  match o with
  | .relaxed => ⟨known,v.pending ⊔ know,v.released⟩
  | .acquire => ⟨known ⊔ know,v.pending ⊔ know,v.released⟩

/-- After storing entry `n` of `l`. -/
def store (v : View Loc) (l : Loc) (n : ℕ) : View Loc :=
  ⟨Function.update v.known l n,v.pending,v.released⟩

variable {v : View Loc} {l : Loc} {o : LoadOrder} {n : ℕ} {know : Knowledge Loc}

/-- A load forgets nothing. -/
theorem known_le_load (h : v.known l ≤ n) : v.known ≤ (v.load l o n know).known := by
  have hle : v.known ≤ Function.update v.known l n := by
    intro l'
    by_cases hl : l' = l
    · subst l'
      rwa [Function.update_self]
    · rw [Function.update_of_ne hl]
  cases o with
  | relaxed => exact hle
  | acquire => exact hle.trans le_sup_left

/-- The entry that was loaded is known. -/
theorem index_le_load : n ≤ (v.load l o n know).known l := by
  have hn : n ≤ Function.update v.known l n l := by rw [Function.update_self]
  cases o with
  | relaxed => exact hn
  | acquire => exact hn.trans le_sup_left

/-- What was attached to it is known after an `Acquire` load, and pending in any case. -/
theorem attached_le_acquire : know ≤ (v.load l .acquire n know).known := le_sup_right

theorem attached_le_pending : know ≤ (v.load l o n know).pending := by
  cases o <;> exact le_sup_right

theorem pending_le_load : v.pending ≤ (v.load l o n know).pending := by
  cases o <;> exact le_sup_left

end View

/-- The entries of every location, oldest first, and the view of every thread. -/
structure Messages (T : Type) (Val : Loc → Type) where
  entries : ∀ l, List (Entry Val l)
  view : T → View Loc

namespace Messages

/-- One initial entry at each location, and nothing else known. -/
def init (T : Type) (v : ∀ l, Val l) : Messages T Val :=
  ⟨fun l => [⟨v l,fun _ => 0⟩],fun _ => ⟨fun _ => 0,fun _ => 0,fun _ => 0⟩⟩

variable [DecidableEq T] [DecidableEq Loc]

/-- `t` performs an access; a load picks the entry with index `n`. -/
def exec (t : T) (m : Messages T Val) : (a : Access Val) → (n : ℕ) → Option (a.Result × Messages T Val)
  | .load l o, n =>
    if (m.view t).known l ≤ n then
      (m.entries l)[n]?.map fun e =>
        (e.value,⟨m.entries,Function.update m.view t ((m.view t).load l o n e.know)⟩)
    else none
  | .store l v o, _ =>
    let view := (m.view t).store l (m.entries l).length
    some ((),⟨Function.update m.entries l (m.entries l ++ [⟨v,view.attached o⟩]),Function.update m.view t view⟩)
  | .fence o, _ => some ((),⟨m.entries,Function.update m.view t ((m.view t).fence o)⟩)

end Messages

/-- The memory of messages that `T` threads share. -/
abbrev messages (T : Type) [DecidableEq T] [DecidableEq Loc] (Val : Loc → Type) :
    Memory T (@Access.Result _ Val) where
  State := Messages T Val
  Choice := ℕ
  exec := Messages.exec

namespace Messages
variable [DecidableEq T] [DecidableEq Loc] {t : T} {m m' : Messages T Val} {n : ℕ}

/-- A load leaves the entries alone and picks one that is not older than what is known. -/
theorem exec_load {l : Loc} {o : LoadOrder} {r : Val l} (h : m.exec t (.load l o) n = some (r,m')) :
    ∃ e, (m.entries l)[n]? = some e ∧ (m.view t).known l ≤ n ∧ r = e.value ∧ m'.entries = m.entries ∧
      m'.view = Function.update m.view t ((m.view t).load l o n e.know) := by
  simp only [exec] at h
  split_ifs at h with hn
  obtain ⟨e,he,heq⟩ := Option.map_eq_some_iff.mp h
  cases heq
  exact ⟨e,he,hn,rfl,rfl,rfl⟩

theorem exec_store {l : Loc} {v : Val l} {o : StoreOrder} {r : Unit}
    (h : m.exec t (.store l v o) n = some (r,m')) :
    m'.entries = Function.update m.entries l
      (m.entries l ++ [⟨v,((m.view t).store l (m.entries l).length).attached o⟩]) ∧
    m'.view = Function.update m.view t ((m.view t).store l (m.entries l).length) := by
  cases h
  exact ⟨rfl,rfl⟩

theorem exec_fence {o : FenceOrder} {r : Unit} (h : m.exec t (.fence o) n = some (r,m')) :
    m'.entries = m.entries ∧ m'.view = Function.update m.view t ((m.view t).fence o) := by
  cases h
  exact ⟨rfl,rfl⟩

/-- No access changes the view of another thread. -/
theorem exec_view_other {a : Access Val} {r : a.Result} {u : T} (h : m.exec t a n = some (r,m'))
    (hu : u ≠ t) : m'.view u = m.view u := by
  have hview : ∃ v, m'.view = Function.update m.view t v := by
    cases a with
    | load l o =>
      obtain ⟨e,_,_,_,_,hv⟩ := exec_load h
      exact ⟨_,hv⟩
    | store l v o => exact ⟨_,(exec_store h).2⟩
    | fence o => exact ⟨_,(exec_fence h).2⟩
  obtain ⟨v,hv⟩ := hview
  rw [hv, Function.update_of_ne hu]

end Messages

end LowLatencyLob.Concurrency
