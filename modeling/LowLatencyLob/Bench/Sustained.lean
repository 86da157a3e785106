import LowLatencyLob.Bench.Arrivals
import LowLatencyLob.Concurrency.Serial
import LowLatencyLob.Sequence.Queue

/-! The paced loop of the sustained benchmark, over any clock, any book and any histogram.

What it hands to the histogram for an event is the time from the arrival that the schedule
asked for, so that a backlog shows: up to the gaps between its readings of the clock the loop
is an ideal server of the arrivals. -/
namespace LowLatencyLob.Bench
open Book Concurrency Queue

/-- Where the loop reads the clock: while it waits, and behind an `apply`. -/
inductive Site
  | waiting
  | served
  deriving DecidableEq

/-- Code that reads `clock.now_since_ns(base)`. -/
abbrev Clocked : Type → Type 1 := Program fun _ : Site => UInt64

def nowSinceNs (site : Site) : Clocked UInt64 := .access site .done

/-- The `Histogram<u64>` of the `hdrhistogram` crate, which is not part of this code. -/
structure Histogram where
  State : Type
  /-- `new_with_bounds`; `none` for an error. -/
  newWithBounds : UInt64 → UInt64 → UInt8 → Option State
  /-- What `record` leaves, whether or not it returns an error. -/
  record : State → UInt64 → State
  /-- `none` for an error. -/
  add : State → State → Option State
  /-- These bounds are not refused. -/
  valid : ∀ low high sigfig, 1 ≤ low.toNat → 2*low.toNat ≤ high.toNat → sigfig.toNat ≤ 5 →
    (newWithBounds low high sigfig).isSome

/-- The histograms that are made of new ones with these bounds. -/
inductive Histogram.Made (H : Histogram) (low high : UInt64) (sigfig : UInt8) : H.State → Prop
  | new {h : H.State} (hnew : H.newWithBounds low high sigfig = some h) : Made H low high sigfig h
  | record {h : H.State} (hmade : Made H low high sigfig h) (v : UInt64) : Made H low high sigfig (H.record h v)
  | add {h other sum : H.State} (hmade : Made H low high sigfig h) (hother : Made H low high sigfig other)
      (hadd : H.add h other = some sum) : Made H low high sigfig sum

/-- Histograms with the same bounds can be added. -/
def Histogram.Adds (H : Histogram) : Prop := ∀ low high sigfig h other, H.Made low high sigfig h →
  H.Made low high sigfig other → (H.add h other).isSome

structure Recorder (H : Histogram) where
  hist : H.State

namespace Recorder
variable {H : Histogram}

/-- The bounds are valid, so the `expect` does not panic. -/
def new : Recorder H where
  hist := (H.newWithBounds 1 60000000000 3).get (H.valid _ _ _ (by decide) (by decide) (by decide))

def record (r : Recorder H) (ns : UInt64) : Recorder H := ⟨H.record r.hist (max ns 1)⟩

/-- `none` where the `expect` panics. -/
def merge (r other : Recorder H) : Option (Recorder H) := (H.add r.hist other.hist).map .mk

/-- The recorder whose histogram was handed these values besides, in order. -/
def handed (r : Recorder H) (vs : List UInt64) : Recorder H := ⟨vs.foldl H.record r.hist⟩

/-- A recorder with the bounds of every recorder. -/
def Made (r : Recorder H) : Prop := H.Made 1 60000000000 3 r.hist

theorem Made.handed {r : Recorder H} (h : r.Made) (vs : List UInt64) : (r.handed vs).Made := by
  induction vs generalizing r with
  | nil => exact h
  | cons v vs ih => exact ih (.record h v)

/-- Recorders can be merged. -/
theorem Made.merge {r other : Recorder H} (hH : H.Adds) (h : r.Made) (ho : other.Made) :
    ∃ r', r.merge other = some r' ∧ r'.Made := by
  obtain ⟨sum,hsum⟩ := Option.isSome_iff_exists.mp (hH _ _ _ _ _ h ho)
  exact ⟨⟨sum⟩,by rw [Recorder.merge, hsum]; rfl,.add h ho hsum⟩

theorem record_handed (r : Recorder H) (vs : List UInt64) (ns : UInt64) :
    (r.handed vs).record ns = r.handed (vs ++ [max ns 1]) := by
  simp [handed, record]

end Recorder

/-- What a run leaves: its recorder, and the clock behind the last event. -/
structure RunResult (H : Histogram) where
  recorder : Recorder H
  lastDone : UInt64

section Loop
variable {H : Histogram} {B : Type} [OrderBook B]

end Loop

/-- A clock gives its readings one after another. -/
def clock (reads : ℕ → UInt64) : Memory Unit (fun _ : Site => UInt64) where
  State := ℕ
  Choice := Unit
  exec _ k _ _ := some (reads k,k+1)

/-- One turn of the loop. -/
structure Turn where
  scheduled : UInt64
  start : UInt64
  done : UInt64

def Turn.job (t : Turn) : Job := ⟨t.scheduled.toNat,t.start.toNat,t.done.toNat⟩

/-- The readings of some turns: in each, readings before the scheduled time, one that is not,
and one behind the `apply`. -/
inductive Readings : List Turn → List (Σ _ : Site, UInt64) → Prop
  | nil : Readings [] []
  | turn {t : Turn} {ts : List Turn} {as : List (Σ _ : Site, UInt64)} (early : List UInt64)
      (he : ∀ now ∈ early, now < t.scheduled) (hs : t.scheduled ≤ t.start) (h : Readings ts as) :
      Readings (t :: ts) (early.map (⟨.waiting,·⟩) ++ ⟨.waiting,t.start⟩ :: ⟨.served,t.done⟩ :: as)

/-- Readings that never go back, from `prev` on. -/
def Forward : ℕ → List (Σ _ : Site, UInt64) → Prop
  | _, [] => True
  | prev, a :: as => prev ≤ a.2.toNat ∧ Forward a.2.toNat as

section Readings
variable {δ prev : ℕ} {ts : List Turn} {as : List (Σ _ : Site, UInt64)}

theorem forward_start {early : List UInt64} {start : UInt64}
    (h : Forward prev (early.map (⟨.waiting,·⟩) ++ ⟨.waiting,start⟩ :: as)) :
    prev ≤ start.toNat ∧ Forward start.toNat as := by
  induction early generalizing prev with
  | nil => exact h
  | cons now early ih =>
    obtain ⟨hstart,hrest⟩ := ih h.2
    exact ⟨h.1.trans hstart,hrest⟩

/-- The turns of the loop are jobs that are served in order. -/
theorem Readings.served (h : Readings ts as) (hf : Forward prev as) : Served prev (ts.map Turn.job) := by
  induction h generalizing prev with
  | nil => trivial
  | turn early he hs _ ih =>
    obtain ⟨hstart,hdone,hrest⟩ := forward_start hf
    exact ⟨UInt64.le_iff_toNat_le.mp hs,hstart,hdone,ih hrest⟩

end Readings

section Clock
variable {H : Histogram} {reads : ℕ → UInt64} {α : Type}

/-- What the loop makes of its turns. -/
def RunResult.after (r : RunResult H) : List Turn → RunResult H
  | [] => r
  | t :: ts => RunResult.after ⟨r.recorder.record (saturatingSub t.done t.scheduled),t.done⟩ ts

end Clock

section Response
variable {ts : List Turn} {prev : ℕ}

/-- What is handed to the histogram for a turn. -/
def Turn.latency (t : Turn) : UInt64 := max (saturatingSub t.done t.scheduled) 1

end Response

section Runs
variable {B : Type} [OrderBook B] [Inhabited B] {reads : ℕ → UInt64}

end Runs

/-- A histogram that keeps each value up to its bound. -/
structure Kept where
  bound : UInt64
  values : List UInt64

def Kept.record (h : Kept) (v : UInt64) : Kept := if v ≤ h.bound then { h with values := h.values ++ [v] } else h

def Kept.add (h other : Kept) : Option Kept :=
  if other.values.all (· ≤ h.bound) then some { h with values := h.values ++ other.values } else none

/-- With three significant figures a histogram has a bucket for each value up to 2047. -/
abbrev keeping : Histogram where
  State := Kept
  newWithBounds low high sigfig :=
    if 1 ≤ low.toNat ∧ 2*low.toNat ≤ high.toNat ∧ sigfig.toNat ≤ 5 then some ⟨high,[]⟩ else none
  record := Kept.record
  add := Kept.add
  valid low high sigfig hlow hhigh hfig := by rw [if_pos ⟨hlow,hhigh,hfig⟩]; rfl

end LowLatencyLob.Bench
