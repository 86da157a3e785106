import LowLatencyLob.Bench.E2eConsumer
import LowLatencyLob.Bench.E2eProducer
import Mathlib.Data.List.Sort

/-! What the end-to-end benchmark measures, whatever the interleaving of its threads: no
consumer misses an event, and each latency is that of its event behind its own time. -/
namespace LowLatencyLob.Bench
open Book Concurrency Engine
open LowLatencyLob.Ring (Thread twoSlots)

namespace Cell
variable {cell : Cell} {s s' : cell.system.Shared} {i : ℕ}

section Contract

theorem good_start (cell : Cell) : cell.Good ([],cell.system.mem₀) where
  ready := rfl
  once := .nil
  known := nofun
  warmed := nofun
  inOrder := List.nil_prefix
  behind h := absurd rfl h
  started := Bool.noConfusion
  done := Bool.noConfusion
  paced := nofun

/-- A thread is spawned, or it returns. -/
theorem keeps_event {t : Thread} {e : cell.system.Ev} (he : e.thread = t) (hr : reading e = none)
    (ha : arrival e = none) : cell.contract.Keeps t s (e :: s.1,s.2) := by
  refine (Calm.event hr ha s).keeps fun _ hu => .event ?_ s _
  rw [he]
  exact hu.symm

theorem stays_event (i : ℕ) {e : cell.system.Ev} (hr : reading e = none) (ha : arrival e = none)
    (s : cell.system.Shared) : Stays i s (e :: s.1,s.2) :=
  (Calm.event hr ha s).stays rfl (seen_quiet hr rfl) (List.suffix_cons _ _)

theorem sound (cell : Cell) : cell.contract.Sound where
  rest_stable {t l s s'} h hs := by
    cases t with
    | producer =>
      cases l with
      | producer => exact ⟨h.1.of_rely hs,Leads.of_rely h.2 hs⟩
      | drove active => exact Drove.of_rely h hs
      | _ => exact h.elim
    | consumer i =>
      cases l with
      | consumer => exact ⟨h.1.stays (stays_of_rely hs),rests_of_rely hs h.2⟩
      | drained r => exact Drained.stays h (stays_of_rely hs) fun l => rests_of_rely hs
      | unused => trivial
      | _ => exact h.elim
  start_invariant := good_start cell
  start_rest t := by
    cases t with
    | producer => exact ⟨⟨good_start cell,rfl,rfl,rfl,rfl⟩,_,rfl⟩
    | consumer i =>
      change Rest _ (if i < cell.consumers.toNat then .consumer else .unused) _
      split
      · rename_i hi
        exact ⟨⟨⟨good_start cell,hi,rfl,rfl⟩,nofun⟩,rfl⟩
      · trivial
  call {t l x p s} hi hrest hp _ := by
    refine ⟨keeps_event rfl rfl rfl,?_⟩
    have hcalm : Calm s (.call t x :: s.1,s.2) := .event rfl rfl s
    cases t with
    | producer =>
      cases l with
      | producer =>
        cases hp
        refine Meets.bind ((meets_driveProducer (hrest.1.calm hcalm) (Leads.event hrest.2 _ _)).mono fun r s₁ h₁ => ?_)
        refine Meets.done fun s₂ h₂ _ => ⟨keeps_event rfl rfl rfl,?_⟩
        exact (Drove.of_rely h₁.1 h₂).calm (.event rfl rfl s₂) (List.suffix_cons _ _)
      | drove active => cases hp
      | _ => exact hrest.elim
    | consumer i =>
      cases l with
      | consumer =>
        cases hp
        refine meets_join (hrest.1.stays (stays_event i rfl rfl s)) hrest.2 fun s₁ c o hc hr h₁ => ?_
        refine Meets.bind ((meets_runConsumer hc h₁ hr).mono fun r s₂ h₂ => ?_)
        refine Meets.done fun s₃ h₃ _ => ⟨keeps_event rfl rfl rfl,?_⟩
        exact (h₂.1.stays (stays_of_rely h₃) fun l => rests_of_rely h₃).stays (stays_event i rfl rfl s₃) fun l => id
      | drained r => cases hp
      | unused => cases hp
      | _ => exact hrest.elim

end Contract

section Stream

end Stream

section Runs
variable {tr : cell.system.Trace} {cfg : cell.system.Config}

theorem run_holds (h : cell.system.Run tr cfg) :
    cell.Good (tr,cfg.mem) ∧ ∀ t, cell.contract.Holds t (tr,cfg.mem) (cfg.threads t) :=
  (sound cell).run h.runIn

theorem run_drove (h : cell.system.Run tr cfg) {active : Option UInt64}
    (hp : cfg.threads .producer = .idle (.drove active)) : Drove (tr,cfg.mem) active := by
  have hrest := (run_holds h).2 .producer
  rw [hp] at hrest
  exact hrest

end Runs

section TwoConsumers

/-- A cell of two consumers and three events, on a ring of two slots. -/
def twoConsumers : Cell where
  clock := ⟨fun a b => saturatingSub b a,fun a b c h => by
    rw [UInt64.le_iff_toNat_le] at h ⊢
    rw [toNat_saturatingSub, toNat_saturatingSub]
    omega⟩
  hist := keeping
  capacity := twoSlots
  consumers := 2
  warmupPolls := 1
  sched := .fixedRate 1000000000
  corpus := ⟨[.level 0 0 .bid 7 1,.level 1 0 .bid 7 2,.level 2 0 .bid 7 3],by decide⟩

/-- An access at the time `now`. -/
def access (t : Thread) (now : UInt64) : twoConsumers.system.Mv := .access t ((),now)

/-- A call of the engine that makes `k` moves. -/
def callMoves (t : Thread) (k : ℕ) : List twoConsumers.system.Mv :=
  access t 0 :: List.flatten (List.replicate k [.unroll t,access t 0])

/-- A consumer is minted, warms up and arrives. -/
def arriveMoves (i : ℕ) : List twoConsumers.system.Mv :=
  .call (.consumer i) () :: callMoves (.consumer i) 2 ++ .unroll (.consumer i) :: callMoves (.consumer i) 2 ++
    [.unroll (.consumer i),access (.consumer i) 0]

def startMoves (i : ℕ) : List twoConsumers.system.Mv :=
  [.unroll (.consumer i),access (.consumer i) 0,access (.consumer i) 0]

/-- The producer gives an event. -/
def giveMoves (now : UInt64) : List twoConsumers.system.Mv :=
  access .producer now :: .unroll .producer :: callMoves .producer 20

/-- A consumer gets an event, is told of an overrun, or finds nothing and is done. -/
def eventMoves (i : ℕ) (now : UInt64) : List twoConsumers.system.Mv :=
  .unroll (.consumer i) :: callMoves (.consumer i) 10 ++ [access (.consumer i) now]

def overrunMoves (i : ℕ) : List twoConsumers.system.Mv := .unroll (.consumer i) :: callMoves (.consumer i) 13

def doneMoves (i : ℕ) : List twoConsumers.system.Mv :=
  .unroll (.consumer i) :: callMoves (.consumer i) 2 ++ [access (.consumer i) 0,.ret (.consumer i)]

/-- One consumer polls after every event, the other when the producer is done. -/
def twoConsumersMoves : List twoConsumers.system.Mv :=
  List.flatten [arriveMoves 0, arriveMoves 1,
    [.call .producer (),.unroll .producer,access .producer 0,access .producer 5,access .producer 0,access .producer 0],
    giveMoves 5, startMoves 0, eventMoves 0 6, startMoves 1, giveMoves 6, eventMoves 0 7, giveMoves 7,
    [access .producer 8,access .producer 0,.ret .producer],
    eventMoves 0 9, doneMoves 0, overrunMoves 1, eventMoves 1 10, eventMoves 1 12, doneMoves 1]

/-- The tallies with which the consumers are done, if the producer is, too. -/
def tallies (cfg : twoConsumers.system.Config) : Option (UInt64 × twoConsumers.Stats × twoConsumers.Stats) :=
  match cfg.threads .producer, cfg.threads (.consumer 0), cfg.threads (.consumer 1) with
  | .idle (.drove (some active)), .idle (.drained (some st)), .idle (.drained (some st')) => some (active,st,st')
  | _, _, _ => none

theorem twoConsumers_runs : ∃ (tr : twoConsumers.system.Trace) (cfg : twoConsumers.system.Config) (active : UInt64)
    (st st' : twoConsumers.Stats), twoConsumers.system.Run tr cfg ∧ Chronological tr ∧ given (tr,cfg.mem) ≠ [] ∧
      cfg.threads .producer = .idle (.drove (some active)) ∧
      cfg.threads (.consumer 0) = .idle (.drained (some st)) ∧
      cfg.threads (.consumer 1) = .idle (.drained (some st')) ∧
      (st.deliveries = 3 ∧ st.overruns = 0) ∧ st'.deliveries = 2 ∧ st'.overruns = 1 := by
  have hplay : (twoConsumers.system.play twoConsumersMoves ([],twoConsumers.system.init)).any (fun x =>
      decide ((readings x.1).Pairwise (· ≤ ·)) && !(given (x.1,x.2.mem)).isEmpty &&
      (tallies x.2).any fun y => decide ((y.2.1.deliveries = 3 ∧ y.2.1.overruns = 0) ∧
        y.2.2.deliveries = 2 ∧ y.2.2.overruns = 1)) = true := by decide +kernel
  obtain ⟨⟨tr,cfg⟩,hp,hP⟩ := (Option.any_eq_true _ _).mp hplay
  simp only [Bool.and_eq_true, decide_eq_true_eq, Bool.not_eq_true', List.isEmpty_eq_false_iff] at hP
  obtain ⟨⟨hchron,hgiven⟩,hdone⟩ := hP
  obtain ⟨⟨active,st,st'⟩,htallies,hcounts⟩ := (Option.any_eq_true _ _).mp hdone
  unfold tallies at htallies
  split at htallies
  · rename_i hprod hcons hcons'
    cases htallies
    exact ⟨tr,cfg,active,st,st',System.Run.start.play twoConsumersMoves hp,hchron,hgiven,hprod,hcons,hcons',
      of_decide_eq_true hcounts⟩
  · cases htallies

end TwoConsumers

/-- At every moment of every run of a cell: while a consumer has not arrived, nothing is given
to the engine and its polls found nothing; once anything is given, every consumer is behind its
whole warmup, all of it at the start of an empty ring, and all share the producer's base. -/
theorem start_barrier {tr : cell.system.Trace} {cfg : cell.system.Config} (h : cell.system.Run tr cfg) :
    (∀ i < cell.consumers.toNat, i ∉ arrived tr → given (tr,cfg.mem) = [] ∧
      ∀ c r c', .observed c r c' ∈ polled i (tr,cfg.mem) → r = .ok .idle) ∧
    (given (tr,cfg.mem) ≠ [] → base tr = some cfg.mem.own.baseRaw ∧
      ∀ i < cell.consumers.toNat, i ∈ arrived tr ∧ warm cell.warmupPolls <+: polled i (tr,cfg.mem)) := by
  have hgood := (run_holds h).1
  refine ⟨fun i hi hn => ?_,fun hg => ?_⟩
  · have hnil := (hgood.held hi hn).2
    exact ⟨hnil,fun c r c' hm => idle_of_nothing hgood hnil hm⟩
  · obtain ⟨hall,hbase⟩ := hgood.started (hgood.behind hg)
    exact ⟨hbase,fun i hi => ⟨hall i hi,hgood.warmed i (hall i hi)⟩⟩

theorem start_barrier_two_consumers : ∃ (tr : twoConsumers.system.Trace) (cfg : twoConsumers.system.Config),
    twoConsumers.system.Run tr cfg ∧ warm 1 <+: polled 0 (tr,cfg.mem) ∧ warm 1 <+: polled 1 (tr,cfg.mem) := by
  obtain ⟨tr,cfg,_,_,_,h,_,hg,_⟩ := twoConsumers_runs
  exact ⟨tr,cfg,h,(((start_barrier h).2 hg).2 0 (by decide)).2,(((start_barrier h).2 hg).2 1 (by decide)).2⟩

/-- The producer gives the engine a prefix of the stamped corpus, each event behind its own
time. When it is done, the engine has the whole corpus, and no event is later than the time
that the producer was active; it fails only on a schedule that panics. -/
theorem producer_paces {tr : cell.system.Trace} {cfg : cell.system.Config} (h : cell.system.Run tr cfg) :
    given (tr,cfg.mem) <+: cell.stream ∧
    (∀ b, base tr = some b → ∀ ev ∈ given (tr,cfg.mem), ∃ r ∈ readings tr, ev.ts ≤ cell.clock.deltaNs b r) ∧
    (∀ active, cfg.threads .producer = .idle (.drove (some active)) → given (tr,cfg.mem) = cell.stream ∧
      cell.stream.length = cell.corpus.events.length ∧ (Chronological tr → ∀ ev ∈ cell.stream, ev.ts ≤ active)) ∧
    (cfg.threads .producer = .idle (.drove none) →
      ∃ k ev, cell.corpus.events[k]? = some ev ∧ cell.sched.offsetNs k ev = none) := by
  have hgood := (run_holds h).1
  refine ⟨hgood.inOrder,hgood.paced,fun active hp => ?_,fun hp => run_drove h hp⟩
  obtain ⟨b,hd,hlen,_,htime⟩ := run_drove h hp
  exact ⟨hd.given,hlen,htime⟩

theorem producer_paces_two_consumers : ∃ (tr : twoConsumers.system.Trace) (cfg : twoConsumers.system.Config)
    (active : UInt64), twoConsumers.system.Run tr cfg ∧ cfg.threads .producer = .idle (.drove (some active)) ∧
      given (tr,cfg.mem) = twoConsumers.stream ∧ ∀ ev ∈ twoConsumers.stream, ev.ts ≤ active := by
  obtain ⟨tr,cfg,active,_,_,h,hc,_,hp,_⟩ := twoConsumers_runs
  obtain ⟨hgiven,_,htime⟩ := (producer_paces h).2.2.1 active hp
  exact ⟨tr,cfg,active,h,hp,hgiven,htime hc⟩

section Totals
variable {H : Histogram} {n : ℕ} {cons : List (ConsumerStats H)}

end Totals

end Cell
end LowLatencyLob.Bench
