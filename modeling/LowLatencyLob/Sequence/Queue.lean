import Mathlib.Order.Lattice

/-! One server and its jobs, first come first served.

An ideal server starts each job the moment that it has arrived and the one before it is
done. A real one may start later, and what it is late by adds up. -/
namespace LowLatencyLob.Queue

structure Job where
  arrival : ℕ
  start : ℕ
  finish : ℕ
  deriving DecidableEq

namespace Job

/-- From the arrival to the end, the wait included. -/
def response (j : Job) : ℕ := j.finish-j.arrival

end Job

/-- The jobs are done one after another from the moment `free` on, none before it arrives. -/
def Served : ℕ → List Job → Prop
  | _, [] => True
  | free, j :: js => j.arrival ≤ j.start ∧ free ≤ j.start ∧ j.start ≤ j.finish ∧ Served j.finish js

section Server
variable {δ free free' : ℕ} {js : List Job}

end Server
end LowLatencyLob.Queue
