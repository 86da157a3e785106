import LowLatencyLob.Engine.Engine
import LowLatencyLob.Sync.RingRuns
import LowLatencyLob.Sync.SeqLockRuns

/-! The history of an engine, read off a trace.

What happened to the cell and to the ring is read off as a history of the cell and a
history of the ring, so the measures of those two apply here. -/
namespace LowLatencyLob.Engine
open Book Concurrency
open SeqLock (TopOfBook CellEvent)
open LowLatencyLob.Ring (Capacity Thread RingEvent)

variable {C : Capacity}

/-- Events of an engine, the same under every memory. -/
abbrev EngineEvent (C : Capacity) := Event Thread (@Access.Result (Loc C) Val) Call Out

/-- The events given to `process`, oldest first. -/
def processed : List (EngineEvent C) → List BookEvent
  | [] => []
  | .call _ (.process ev) :: tr => processed tr ++ [ev]
  | _ :: tr => processed tr

theorem processed_cons {e : EngineEvent C} (h : ∀ t ev, e ≠ .call t (.process ev))
    (tr : List (EngineEvent C)) : processed (e :: tr) = processed tr := by
  cases e with
  | call t c =>
    cases c with
    | process ev => exact absurd rfl (h t ev)
    | _ => rfl
  | access t a r => rfl
  | ret t o => rfl

theorem processed_grows (e : EngineEvent C) (tr : List (EngineEvent C)) :
    processed tr <+: processed (e :: tr) := by
  by_cases he : ∃ t ev, e = .call t (.process ev)
  · obtain ⟨t,ev,rfl⟩ := he
    exact List.prefix_append _ _
  · rw [processed_cons fun t ev h => he ⟨t,ev,h⟩]

theorem processed_tail {n : ℕ} (e : EngineEvent C) (tr : List (EngineEvent C))
    (h : (processed (e :: tr)).length < n) : (processed tr).length < n :=
  (processed_grows e tr).length_le.trans_lt h

/-- The side of the cell that a thread is on. -/
def cellThread : Thread → SeqLock.Thread
  | .producer => .writer
  | .consumer i => .reader i

def cellEvent : EngineEvent C → Option CellEvent
  | .access t (.load (.top l) o) r => some (.access (cellThread t) (.load l o) r)
  | .access t (.store (.top l) v o) r => some (.access (cellThread t) (.store l v o) r)
  | .access t (.fence o) r => some (.access (cellThread t) (.fence o) r)
  | _ => none

def ringEvent : EngineEvent C → Option (RingEvent C W)
  | .access t (.load (.out l) o) r => some (.access t (.load l o) r)
  | .access t (.store (.out l) v o) r => some (.access t (.store l v o) r)
  | .access t (.fence o) r => some (.access t (.fence o) r)
  | _ => none

/-- The accesses of the cell, and the fences. -/
def cellTrace (tr : List (EngineEvent C)) : List CellEvent := tr.filterMap cellEvent

/-- The accesses of the ring, and the fences. -/
def ringTrace (tr : List (EngineEvent C)) : List (RingEvent C W) := tr.filterMap ringEvent

/-- How many stores to the cell have begun. -/
def begun (tr : List (EngineEvent C)) : ℕ := SeqLock.begun (cellTrace tr)

/-- How many stores to the cell are completed. -/
def completed (tr : List (EngineEvent C)) : ℕ := SeqLock.completed (cellTrace tr)

/-- What the newest loads of the version by consumer `i` saw. -/
def marks (i : ℕ) (tr : List (EngineEvent C)) : SeqLock.Marks := SeqLock.marks i (cellTrace tr)

/-- The newest write position that consumer `i` has loaded. -/
def lastRead (i : ℕ) (tr : List (EngineEvent C)) : ℕ := Ring.lastRead i (ringTrace tr)

/-- Whether the producer is inside a push. -/
def midPush (tr : List (EngineEvent C)) : Bool := Ring.midPush (ringTrace tr)

section Accesses
variable (t : Thread) (tr : List (EngineEvent C))

theorem cellTrace_top (a : Access SeqLock.Val) (r : (topAccess (C := C) a).Result) :
    cellTrace (.access t (topAccess a) r :: tr) =
      .access (cellThread t) a (topResult a r) :: cellTrace tr := by
  cases a <;> rfl

theorem ringTrace_out (a : Access (Ring.Val (C := C) (W := W))) (r : (outAccess a).Result) :
    ringTrace (.access t (outAccess a) r :: tr) = .access t a (outResult a r) :: ringTrace tr := by
  cases a <;> rfl

theorem begun_top (a : Access SeqLock.Val) (r : (topAccess (C := C) a).Result) :
    begun (.access t (topAccess a) r :: tr) = begun tr + SeqLock.begins a := by
  rw [begun, cellTrace_top]
  rfl

theorem completed_top (a : Access SeqLock.Val) (r : (topAccess (C := C) a).Result) :
    completed (.access t (topAccess a) r :: tr) = completed tr + SeqLock.completes a := by
  rw [completed, cellTrace_top]
  rfl

theorem begun_out (a : Access (Ring.Val (C := C) (W := W))) (r : (outAccess a).Result) :
    begun (.access t (outAccess a) r :: tr) = begun tr := by
  cases a <;> rfl

theorem completed_out (a : Access (Ring.Val (C := C) (W := W))) (r : (outAccess a).Result) :
    completed (.access t (outAccess a) r :: tr) = completed tr := by
  cases a <;> rfl

theorem marks_top (i : ℕ) (a : Access SeqLock.Val) (r : (topAccess (C := C) a).Result)
    (ts : List TopOfBook) (m : ∀ l, SeqLock.Val l) :
    marks i (.access (.consumer i) (topAccess a) r :: tr) =
      (marks i tr).next ⟨ts,begun tr,completed tr,m⟩ a := by
  rw [marks, cellTrace_top]
  exact SeqLock.marks_access i a _ ts m _

theorem midPush_top (a : Access SeqLock.Val) (r : (topAccess (C := C) a).Result) :
    midPush (.access t (topAccess a) r :: tr) = midPush tr := by
  cases a <;> rfl

theorem midPush_out (a : Access (Ring.Val (C := C) (W := W))) (r : (outAccess a).Result) :
    midPush (.access t (outAccess a) r :: tr) = Ring.midAfter (midPush tr) a := by
  rw [midPush, ringTrace_out]
  rfl

theorem lastRead_out (i : ℕ) (a : Access (Ring.Val (C := C) (W := W))) (r : (outAccess a).Result) :
    lastRead i (.access (.consumer i) (outAccess a) r :: tr) =
      Ring.lastSeen (lastRead i tr) a (outResult a r) := by
  rw [lastRead, ringTrace_out]
  exact if_pos rfl

end Accesses

/-- What the calls of consumer `i` returned, oldest first, each with what the newest
loads of the version had seen by then. -/
def told (i : ℕ) : List (EngineEvent C) → List (Out × SeqLock.Marks)
  | [] => []
  | .ret t o :: tr => if t = .consumer i then told i tr ++ [(o,marks i tr)] else told i tr
  | _ :: tr => told i tr

@[simp] theorem told_ret_self (i : ℕ) (o : Out) (tr : List (EngineEvent C)) :
    told i (.ret (.consumer i) o :: tr) = told i tr ++ [(o,marks i tr)] := if_pos rfl

/-- The events whose store began between the two loads of the version in a snapshot. -/
def overlap (x : Out × SeqLock.Marks) : ℕ := x.2.begun₂-x.2.begun₁

/-- Neither another thread nor time changes what consumer `i` has done. -/
structure Same (i : ℕ) (tr tr' : List (EngineEvent C)) : Prop where
  marks_eq : marks i tr' = marks i tr
  lastRead_eq : lastRead i tr' = lastRead i tr
  told_eq : told i tr' = told i tr

theorem Same.refl (i : ℕ) (tr : List (EngineEvent C)) : Same i tr tr := ⟨rfl,rfl,rfl⟩

theorem Same.trans {i : ℕ} {tr tr' tr'' : List (EngineEvent C)} (h : Same i tr tr')
    (h' : Same i tr' tr'') : Same i tr tr'' :=
  ⟨h'.marks_eq.trans h.marks_eq,h'.lastRead_eq.trans h.lastRead_eq,h'.told_eq.trans h.told_eq⟩

theorem cellThread_ne {t : Thread} {i : ℕ} (h : t ≠ .consumer i) : cellThread t ≠ .reader i := by
  cases t with
  | producer => exact SeqLock.Thread.noConfusion
  | consumer j =>
    intro heq
    cases heq
    exact h rfl

theorem marks_other {i : ℕ} {e : EngineEvent C} (h : e.thread ≠ .consumer i)
    (tr : List (EngineEvent C)) : marks i (e :: tr) = marks i tr := by
  unfold marks cellTrace
  rw [List.filterMap_cons]
  split
  · rfl
  · rename_i e' he
    refine (SeqLock.Same.other ?_ _).marks_eq
    unfold cellEvent at he
    split at he
    all_goals cases he
    all_goals exact cellThread_ne h

theorem lastRead_other {i : ℕ} {e : EngineEvent C} (h : e.thread ≠ .consumer i)
    (tr : List (EngineEvent C)) : lastRead i (e :: tr) = lastRead i tr := by
  unfold lastRead ringTrace
  rw [List.filterMap_cons]
  split
  · rfl
  · rename_i e' he
    apply Ring.lastRead_cons_other
    unfold ringEvent at he
    split at he
    all_goals cases he
    all_goals exact h

theorem Same.other {i : ℕ} {e : EngineEvent C} (h : e.thread ≠ .consumer i)
    (tr : List (EngineEvent C)) : Same i tr (e :: tr) where
  marks_eq := marks_other h tr
  lastRead_eq := lastRead_other h tr
  told_eq := by
    cases e with
    | ret t o => exact if_neg h
    | _ => rfl

section Tops
variable (B : Type) [OrderBook B] [Inhabited B]

/-- The top of a fresh book once it has taken `evs`; `none` if it panics on them. -/
def topAfter (evs : List BookEvent) : Option TopOfBook :=
  (replay (default : B) evs).bind fun book => topOf book (.ofNat evs.length)

/-- The tops after no event, after the first, and so on. -/
def values (evs : List BookEvent) : List TopOfBook :=
  evs.inits.map fun pre => (topAfter B pre).getD default

theorem values_append (evs : List BookEvent) (ev : BookEvent) :
    values B (evs ++ [ev]) = values B evs ++ [(topAfter B (evs ++ [ev])).getD default] := by
  simp [values, List.inits_append]

theorem length_values (evs : List BookEvent) : (values B evs).length = evs.length+1 := by
  simp [values]

variable {B}

theorem values_getElem? {evs : List BookEvent} {n : ℕ} {t : TopOfBook} (h : (values B evs)[n]? = some t) :
    n ≤ evs.length ∧ t = (topAfter B (evs.take n)).getD default := by
  obtain ⟨hn,rfl⟩ := List.getElem?_eq_some_iff.mp h
  rw [length_values] at hn
  exact ⟨by omega,by simp [values, List.getElem_inits]⟩

/-- A top names the number of events it is the top after. -/
theorem stamp_of_topAfter {evs : List BookEvent} {t : TopOfBook} (h : topAfter B evs = some t) :
    t.stamp = .ofNat evs.length := by
  obtain ⟨book,_,ht⟩ := Option.bind_eq_some_iff.mp h
  unfold topOf at ht
  simp only [Option.bind_eq_bind, Option.bind_eq_some_iff, Option.pure_def, Option.some.injEq] at ht
  obtain ⟨_,_,_,_,rfl⟩ := ht
  rfl

end Tops
end LowLatencyLob.Engine
