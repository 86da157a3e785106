import LowLatencyLob.Bench.E2e

/-! What is read off a run of a cell: which consumers arrived at the barrier, what the clock
was read at, and the stream that was processed. -/
namespace LowLatencyLob.Bench
open Book Concurrency Engine
open LowLatencyLob.Ring (Thread)

namespace Cell
variable {cell : Cell}

/-- The events as the producer stamps them, up to one whose schedule panics. -/
def stamped (sched : Schedule) : ℕ → List BookEvent → List BookEvent
  | _, [] => []
  | i, ev :: evs =>
    match sched.offsetNs i ev with
    | none => []
    | some scheduled => { ev with ts := scheduled } :: stamped sched (i+1) evs

/-- The whole stream of a cell. -/
def stream (cell : Cell) : List BookEvent := stamped cell.sched 0 cell.corpus.events

def reading : cell.system.Ev → Option UInt64
  | .access _ (.own .raw) r => some r
  | _ => none

def arrival : cell.system.Ev → Option ℕ
  | .access t (.own (.fetchAddReady _)) _ =>
    match t with
    | .consumer i => some i
    | .producer => none
  | _ => none

/-- What the clock was read at, oldest first. -/
def readings (tr : cell.system.Trace) : List UInt64 := tr.reverse.filterMap reading

/-- The consumers that finished their warmup. -/
def arrived (tr : cell.system.Trace) : List ℕ := tr.reverse.filterMap arrival

/-- What consumer `i` read the clock at, oldest first. -/
def seen (i : ℕ) (tr : cell.system.Trace) : List UInt64 := readings (mine (.consumer i) tr)

/-- The clock base: the producer's first reading. -/
def base (tr : cell.system.Trace) : Option UInt64 := (readings (mine .producer tr)).head?

/-- No reading is earlier than one before it. -/
def Chronological (tr : cell.system.Trace) : Prop := (readings tr).Pairwise (· ≤ ·)

/-- What the engine was given so far. -/
def given (s : cell.system.Shared) : List BookEvent := processed s.2.object.moment.trace

/-- What the polls of consumer `i` returned. -/
def polled (i : ℕ) (s : cell.system.Shared) : List Out := System.results (.consumer i) s.2.object.moment.trace

theorem length_stamped_le (sched : Schedule) (i : ℕ) (evs : List BookEvent) :
    (stamped sched i evs).length ≤ evs.length := by
  induction evs generalizing i with
  | nil => rfl
  | cons ev evs ih =>
    rw [stamped]
    split
    · simp
    · have hle := ih (i+1)
      simp only [List.length_cons]
      omega

section Trace
variable {tr tr' : cell.system.Trace} {e : cell.system.Ev}

theorem readings_cons (e : cell.system.Ev) (tr : cell.system.Trace) :
    readings (e :: tr) = readings tr ++ (reading e).toList := by
  rw [readings, List.reverse_cons, List.filterMap_append, List.filterMap_cons]
  cases reading e <;> rfl

theorem arrived_cons (e : cell.system.Ev) (tr : cell.system.Trace) :
    arrived (e :: tr) = arrived tr ++ (arrival e).toList := by
  rw [arrived, List.reverse_cons, List.filterMap_append, List.filterMap_cons]
  cases arrival e <;> rfl

theorem readings_quiet (he : reading e = none) (tr : cell.system.Trace) : readings (e :: tr) = readings tr := by
  rw [readings_cons, he]
  exact List.append_nil _

theorem arrived_quiet (he : arrival e = none) (tr : cell.system.Trace) : arrived (e :: tr) = arrived tr := by
  rw [arrived_cons, he]
  exact List.append_nil _

theorem readings_grow (h : tr <:+ tr') : readings tr <+: readings tr' :=
  (List.reverse_prefix.mpr h).filterMap _

theorem arrived_grow (h : tr <:+ tr') : arrived tr <+: arrived tr' :=
  (List.reverse_prefix.mpr h).filterMap _

theorem Chronological.suffix (h : Chronological tr') (hs : tr <:+ tr') : Chronological tr :=
  List.Pairwise.sublist (readings_grow hs).sublist h

/-- What `t` read the clock at changes only when `t` reads it. -/
theorem readings_mine (t : Thread) (h : e.thread ≠ t ∨ reading e = none) (tr : cell.system.Trace) :
    readings (mine t (e :: tr)) = readings (mine t tr) := by
  by_cases he : e.thread = t
  · rw [mine_self he, readings_quiet (h.resolve_left (absurd he))]
  · rw [mine_other he]

/-- Once there is a base it stays. -/
theorem base_grows {b : UInt64} (h : tr <:+ tr') (hb : base tr = some b) : base tr' = some b := by
  have hgrow : readings (mine .producer tr) <+: readings (mine .producer tr') := readings_grow (h.filter _)
  obtain ⟨rest,hrest⟩ := hgrow
  rw [base, ← hrest, List.head?_append, ← base, hb]
  rfl

/-- Whether `i` arrived is to be seen in its own events. -/
theorem mem_arrived_mine {i : ℕ} : i ∈ arrived tr ↔ i ∈ arrived (mine (.consumer i) tr) := by
  simp only [arrived, mine, List.mem_filterMap, List.mem_reverse, List.mem_filter, decide_eq_true_eq]
  constructor
  · rintro ⟨e,he,ha⟩
    refine ⟨e,⟨he,?_⟩,ha⟩
    unfold arrival at ha
    split at ha
    · split at ha
      · cases ha
        rfl
      · cases ha
    · cases ha
  · rintro ⟨e,he,ha⟩
    exact ⟨e,he.1,ha⟩

end Trace
end Cell
end LowLatencyLob.Bench
