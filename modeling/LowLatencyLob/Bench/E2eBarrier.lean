import LowLatencyLob.Bench.E2eTrace
import Mathlib.Data.List.Perm.Subperm

/-! The barrier of a cell, and the terms on which its threads use it.

A stream is given to the engine only behind the start, the start only behind the arrival of
every consumer, and the end only behind the whole stream. -/
namespace LowLatencyLob.Bench
open Book Concurrency Engine
open LowLatencyLob.Ring (Thread)

namespace Cell
variable (cell : Cell)

/-- What the warmup polls return. -/
def warm (k : ℕ) : List Out := .joined 0 :: List.replicate k (.observed 0 (.ok .idle) 0)

/-- What holds at every moment of a cell. -/
structure Good (s : cell.system.Shared) : Prop where
  ready : s.2.own.ready = .ofNat (arrived s.1).length
  once : (arrived s.1).Nodup
  known : ∀ i ∈ arrived s.1, i < cell.consumers.toNat
  warmed : ∀ i ∈ arrived s.1, warm cell.warmupPolls <+: polled i s
  inOrder : given s <+: cell.stream
  behind : given s ≠ [] → s.2.own.started = true
  started : s.2.own.started = true → (∀ i < cell.consumers.toNat, i ∈ arrived s.1) ∧ base s.1 = some s.2.own.baseRaw
  done : s.2.own.done = true → given s = cell.stream ∧ cell.stream.length = cell.corpus.events.length
  /-- No event was given before its time. -/
  paced : ∀ b, base s.1 = some b → ∀ ev ∈ given s, ∃ r ∈ readings s.1, ev.ts ≤ cell.clock.deltaNs b r

variable {cell} {s s' : cell.system.Shared}

/-- What polls returned stays. -/
theorem polled_grow (h : s.2.object.moment.trace <:+ s'.2.object.moment.trace) (i : ℕ) :
    polled i s <+: polled i s' := by
  obtain ⟨new,hnew⟩ := h
  unfold polled
  rw [← hnew]
  clear hnew
  induction new with
  | nil => exact List.prefix_rfl
  | cons e new ih =>
    refine ih.trans ?_
    rw [List.cons_append]
    cases e with
    | ret t o =>
      rw [System.results]
      split
      · exact List.prefix_append _ _
      · exact List.prefix_rfl
    | _ => exact List.prefix_rfl

theorem length_stream_lt (cell : Cell) : cell.stream.length < 2^63 := by
  have hle := length_stamped_le cell.sched 0 cell.corpus.events
  have hfits := cell.corpus.fits
  unfold Feed.RECORD_SIZE at hfits
  unfold stream
  omega

theorem Good.bounded (h : cell.Good s) : (given s).length < 2^63 :=
  h.inOrder.length_le.trans_lt (length_stream_lt cell)

/-- A consumer that has not arrived holds the stream back. -/
theorem Good.held (h : cell.Good s) {i : ℕ} (hi : i < cell.consumers.toNat) (hn : i ∉ arrived s.1) :
    s.2.own.started = false ∧ given s = [] := by
  have hs : s.2.own.started ≠ true := fun hs => hn ((h.started hs).1 i hi)
  exact ⟨by simpa using hs,by_contra fun hg => hs (h.behind hg)⟩

/-- The count of the barrier is the number of arrivals. -/
theorem Good.toNat_ready (h : cell.Good s) : s.2.own.ready.toNat = (arrived s.1).length := by
  have hsub : (arrived s.1).length ≤ (List.range cell.consumers.toNat).length :=
    (h.once.subperm fun i hi => List.mem_range.mpr (h.known i hi)).length_le
  have hlt := cell.consumers.toNat_lt
  rw [List.length_range] at hsub
  rw [h.ready, UInt64.toNat_ofNat']
  omega

/-- When it has come to the number of consumers, every one of them has arrived. -/
theorem Good.all_arrived (h : cell.Good s) (hr : cell.consumers ≤ s.2.own.ready) :
    ∀ i < cell.consumers.toNat, i ∈ arrived s.1 := by
  intro i hi
  have hsub := h.once.subperm fun i hi => List.mem_range.mpr (h.known i hi)
  have hle : (List.range cell.consumers.toNat).length ≤ (arrived s.1).length := by
    rw [List.length_range, ← h.toNat_ready]
    exact UInt64.le_iff_toNat_le.mp hr
  exact (hsub.perm_of_length_le hle).mem_iff.mpr (List.mem_range.mpr hi)

/-- Nothing is given before there is a base. -/
theorem Good.given_nil (h : cell.Good s) (hb : base s.1 = none) : given s = [] := by
  by_contra hg
  have hbase := (h.started (h.behind hg)).2
  rw [hb] at hbase
  cases hbase

/-- A reading of the clock. -/
theorem Good.read (h : cell.Good s) (t : Thread) (r : UInt64) :
    cell.Good (.access t (.own .raw) r :: s.1,s.2) := by
  have harrived : arrived (.access t (.own .raw) r :: s.1) = arrived s.1 := arrived_quiet rfl s.1
  refine ⟨?_,?_,?_,?_,h.inOrder,h.behind,fun hs => ⟨?_,?_⟩,h.done,fun b hb ev hev => ?_⟩
  · rw [harrived]
    exact h.ready
  · rw [harrived]
    exact h.once
  · rw [harrived]
    exact h.known
  · rw [harrived]
    exact h.warmed
  · rw [harrived]
    exact (h.started hs).1
  · exact base_grows (List.suffix_cons _ _) (h.started hs).2
  · cases hbase : base s.1 with
    | none =>
      change ev ∈ given s at hev
      rw [h.given_nil hbase] at hev
      cases hev
    | some b' =>
      obtain rfl : b' = b := Option.some.inj ((base_grows (List.suffix_cons _ _) hbase).symm.trans hb)
      obtain ⟨r',hr,hle⟩ := h.paced b' hbase ev hev
      exact ⟨r',(readings_grow (List.suffix_cons _ _)).subset hr,hle⟩

/-- A step that the barrier does not see. -/
structure Calm (s s' : cell.system.Shared) : Prop where
  own : s'.2.own = s.2.own
  given : given s' = given s
  arrived : arrived s'.1 = arrived s.1
  readings : readings s'.1 = readings s.1
  base : base s'.1 = base s.1
  grown : s.2.object.moment.trace <:+ s'.2.object.moment.trace

theorem Calm.good (h : Calm s s') (hs : cell.Good s) : cell.Good s' where
  ready := by rw [h.own, h.arrived, hs.ready]
  once := by rw [h.arrived]; exact hs.once
  known := by rw [h.arrived]; exact hs.known
  warmed i hi := (hs.warmed i (h.arrived ▸ hi)).trans (polled_grow h.grown i)
  inOrder := by rw [h.given]; exact hs.inOrder
  behind := by rw [h.given, h.own]; exact hs.behind
  started := by rw [h.own, h.arrived, h.base]; exact hs.started
  done := by rw [h.own, h.given]; exact hs.done
  paced := by rw [h.base, h.given, h.readings]; exact hs.paced

/-- An event without an arrival or a reading is not seen. -/
theorem Calm.event {e : cell.system.Ev} (hr : reading e = none) (ha : arrival e = none) (s : cell.system.Shared) :
    Calm s (e :: s.1,s.2) where
  own := rfl
  given := rfl
  arrived := arrived_quiet ha s.1
  readings := readings_quiet hr s.1
  base := congrArg List.head? (readings_mine .producer (.inr hr) s.1)
  grown := List.suffix_rfl

variable (cell) in
/-- What the producer and the consumers rely on. -/
def Relies : Thread → cell.system.Shared → cell.system.Shared → Prop
  | .producer, s, s' => Apart .producer s s' ∧ s'.2.own.started = s.2.own.started ∧
      s'.2.own.baseRaw = s.2.own.baseRaw ∧ s'.2.own.done = s.2.own.done ∧ given s' = given s
  | .consumer i, s, s' => Apart (.consumer i) s s' ∧ (s.2.own.started = true → s'.2.own.started = true) ∧
      (s.2.own.done = true → s'.2.own.done = true)

theorem Relies.refl (t : Thread) (s : cell.system.Shared) : cell.Relies t s s := by
  cases t with
  | producer => exact ⟨.refl _ s,rfl,rfl,rfl,rfl⟩
  | consumer i => exact ⟨.refl _ s,id,id⟩

theorem Relies.trans {t : Thread} {s s' s'' : cell.system.Shared} (h : cell.Relies t s s')
    (h' : cell.Relies t s' s'') : cell.Relies t s s'' := by
  cases t with
  | producer =>
    obtain ⟨ha,hst,hb,hd,hg⟩ := h
    obtain ⟨ha',hst',hb',hd',hg'⟩ := h'
    exact ⟨ha.trans ha',hst'.trans hst,hb'.trans hb,hd'.trans hd,hg'.trans hg⟩
  | consumer i =>
    obtain ⟨ha,hst,hd⟩ := h
    obtain ⟨ha',hst',hd'⟩ := h'
    exact ⟨ha.trans ha',hst' ∘ hst,hd' ∘ hd⟩

theorem Relies.apart {t : Thread} (h : cell.Relies t s s') : Apart t s s' := by
  cases t with
  | producer => exact h.1
  | consumer i => exact h.1

/-- A step that the barrier does not see respects what the others rely on. -/
theorem Calm.relies (h : Calm s s') {t : Thread} (ha : Apart t s s') : cell.Relies t s s' := by
  cases t with
  | producer => exact ⟨ha,by rw [h.own],by rw [h.own],by rw [h.own],h.given⟩
  | consumer i => exact ⟨ha,by rw [h.own]; exact id,by rw [h.own]; exact id⟩

section Calls
variable {u : Thread} {l : Holder BTreeBook} {o : Out}

theorem given_of_trace {e : EngineEvent cell.capacity} (he : ∀ t ev, e ≠ .call t (.process ev))
    (h : s'.2.object.moment.trace = e :: s.2.object.moment.trace) : given s' = given s := by
  rw [given, h]
  exact processed_cons he _

theorem Starts.calm {x : Call} {p : Program (@Access.Result (Loc cell.capacity) Val) (Holder BTreeBook × Out)}
    (h : Starts u x p s s') (hx : ∀ ev, x ≠ .process ev) : Calm s s' where
  own := h.own
  given := given_of_trace (fun t ev he => by cases he; exact hx ev rfl) (congrArg System.Moment.trace h.object)
  arrived := by rw [h.trace]; exact arrived_quiet rfl s.1
  readings := by rw [h.trace]; exact readings_quiet rfl s.1
  base := by rw [h.trace]; exact congrArg List.head? (readings_mine .producer (.inr rfl) s.1)
  grown := by rw [h.object]; exact List.suffix_cons _ _

theorem Goes.calm (h : Goes u s s') : Calm s s' where
  own := h.own
  given := by
    have hobject := h.object
    unfold Cell.given
    generalize s'.2.object.moment = m at hobject
    cases hobject with
    | access r mem hp => rfl
    | unroll hp => rfl
  arrived := by rw [h.trace]; exact arrived_quiet rfl s.1
  readings := by rw [h.trace]; exact readings_quiet rfl s.1
  base := by rw [h.trace]; exact congrArg List.head? (readings_mine .producer (.inr rfl) s.1)
  grown := by
    have hobject := h.object
    generalize s'.2.object.moment = m at hobject
    cases hobject with
    | access r mem hp => exact List.suffix_cons _ _
    | unroll hp => exact List.suffix_rfl

theorem Comes.calm (h : Comes u l o s s') : Calm s s' where
  own := h.own
  given := given_of_trace (fun t ev he => by cases he) (congrArg System.Moment.trace h.object)
  arrived := by rw [h.trace]; exact arrived_quiet rfl s.1
  readings := by rw [h.trace]; exact readings_quiet rfl s.1
  base := by rw [h.trace]; exact congrArg List.head? (readings_mine .producer (.inr rfl) s.1)
  grown := by rw [h.object]; exact List.suffix_cons _ _

end Calls

/-- The steps of others, and the moves of a call of consumer `i` that does not return yet. -/
structure Stays (i : ℕ) (s s' : cell.system.Shared) : Prop where
  good : cell.Good s → cell.Good s'
  polled : polled i s' = polled i s
  seen : seen i s'.1 = seen i s.1
  grown : s.1 <:+ s'.1
  arrived : i ∈ arrived s'.1 ↔ i ∈ arrived s.1
  started : s.2.own.started = true → s'.2.own.started = true
  done : s.2.own.done = true → s'.2.own.done = true

section Stays
variable {i : ℕ}

theorem Relies.stays (h : cell.Relies (.consumer i) s s') (hg : cell.Good s → cell.Good s') : Stays i s s' where
  good := hg
  polled := h.1.object.results
  seen := congrArg Cell.readings h.1.mine
  grown := h.1.grown
  arrived := by
    refine mem_arrived_mine.trans ?_
    rw [h.1.mine]
    exact mem_arrived_mine.symm
  started := h.2.1
  done := h.2.2

theorem Calm.stays (h : Calm s s') (hp : polled i s' = polled i s) (hs : Cell.seen i s'.1 = Cell.seen i s.1)
    (hg : s.1 <:+ s'.1) : Stays i s s' where
  good := h.good
  polled := hp
  seen := hs
  grown := hg
  arrived := by rw [h.arrived]
  started := by rw [h.own]; exact id
  done := by rw [h.own]; exact id

/-- An access of a cell changes nothing that a thread read the clock at, but a reading. -/
theorem seen_quiet {e : cell.system.Ev} (he : reading e = none) (h : s'.1 = e :: s.1) : seen i s'.1 = seen i s.1 := by
  rw [seen, h]
  exact readings_mine (.consumer i) (.inr he) s.1

theorem Starts.stays {x : Call} {p : Program (@Access.Result (Loc cell.capacity) Val) (Holder BTreeBook × Out)}
    (h : Starts (.consumer i) x p s s') (hx : ∀ ev, x ≠ .process ev) : Stays i s s' := by
  refine (Starts.calm h hx).stays ?_ (seen_quiet rfl h.trace) (h.trace ▸ List.suffix_cons _ _)
  rw [polled, h.object]
  rfl

theorem Goes.stays (h : Goes (.consumer i) s s') : Stays i s s' := by
  refine (Goes.calm h).stays ?_ (seen_quiet rfl h.trace) (h.trace ▸ List.suffix_cons _ _)
  have hobject := h.object
  unfold polled
  generalize s'.2.object.moment = m at hobject
  cases hobject with
  | access r mem hp => rfl
  | unroll hp => rfl

end Stays
end Cell
end LowLatencyLob.Bench
