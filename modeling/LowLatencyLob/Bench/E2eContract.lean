import LowLatencyLob.Bench.E2eBarrier

/-! What each thread of a cell knows, and the contract between them. -/
namespace LowLatencyLob.Bench
open Book Concurrency Engine
open LowLatencyLob.Ring (Thread)

namespace Cell
variable {cell : Cell} {s s' : cell.system.Shared} {i : ℕ} {b : UInt64} {os : List Out} {vs : List UInt64}

/-- What consumer `i` got from its calls and from the clock. -/
structure Has (i : ℕ) (os : List Out) (vs : List UInt64) (s : cell.system.Shared) : Prop where
  good : cell.Good s
  known : i < cell.consumers.toNat
  polled : polled i s = os
  seen : seen i s.1 = vs

theorem Has.stays (h : Has i os vs s) (hs : Stays i s s') : Has i os vs s' :=
  ⟨hs.good h.good,h.known,hs.polled.trans h.polled,hs.seen.trans h.seen⟩

/-- Before it arrives a consumer has not read the clock. -/
def Early (i : ℕ) (os : List Out) (s : cell.system.Shared) : Prop := Has i os [] s ∧ i ∉ arrived s.1

theorem Early.stays (h : Early i os s) (hs : Stays i s s') : Early i os s' :=
  ⟨h.1.stays hs,fun hi => h.2 (hs.arrived.mp hi)⟩

theorem Early.given_nil (h : Early i os s) : given s = [] := (h.1.good.held h.1.known h.2).2

/-- The consumer `c` is between two calls of its engine. -/
def Rests (i : ℕ) (l : Holder BTreeBook) (s : cell.system.Shared) : Prop :=
  s.2.object.moment.config.threads (.consumer i) = .idle l

theorem warm_succ (k : ℕ) : warm (k+1) = warm k ++ [.observed 0 (.ok .idle) 0] := by
  rw [warm, List.replicate_succ']
  rfl

theorem warm_counts (k : ℕ) : delivered (warm k) = [] ∧ overruns (warm k) = [] := by
  induction k with
  | zero => exact ⟨rfl,rfl⟩
  | succ k ih =>
    rw [warm_succ, delivered_append, overruns_append, ih.1, ih.2]
    exact ⟨rfl,rfl⟩

/-- What is handed to the histogram for a delivered event, by the reading behind it. -/
def latency (cell : Cell) (b : UInt64) (x : ℕ × BookEvent) (v : UInt64) : UInt64 :=
  max (saturatingSub (cell.clock.deltaNs b v) x.2.ts) 1

/-- The tally of a consumer, by what it got. -/
structure Tally (cell : Cell) (b : UInt64) (os : List Out) (vs : List UInt64) (stats : cell.Stats) : Prop where
  length : (delivered os).length = vs.length
  e2e : stats.e2e = Recorder.new.handed (List.zipWith (cell.latency b) (delivered os) vs)
  deliveries : stats.deliveries = .ofNat (delivered os).length
  lapped : stats.overruns = .ofNat (overruns os).length
  skipped : stats.skipped = .ofNat ((overruns os).map Prod.fst).sum

/-- No reading is earlier than the event before it, if the clock never goes back. -/
def Late (b : UInt64) (os : List Out) (vs : List UInt64) (s : cell.system.Shared) : Prop :=
  Chronological s.1 → ∀ x ∈ (delivered os).zip vs, x.1.2.ts ≤ cell.clock.deltaNs b x.2

theorem Late.stays (h : Late b os vs s) (hs : Stays i s s') : Late b os vs s' := fun hc => h (hc.suffix hs.grown)

/-- What a consumer knows while it drains the ring. -/
structure Drains (i : ℕ) (b : UInt64) (os : List Out) (vs : List UInt64) (s : cell.system.Shared) : Prop where
  has : Has i os vs s
  base : base s.1 = some b
  start : ∀ k, .joined k ∈ os → k = 0
  late : Late b os vs s

theorem Drains.stays (h : Drains i b os vs s) (hs : Stays i s s') : Drains i b os vs s' :=
  ⟨h.has.stays hs,base_grows hs.grown h.base,h.start,h.late.stays hs⟩

section Tally
variable {stats : cell.Stats} {c c' : ℕ}

theorem Tally.new (cell : Cell) (b : UInt64) (k : ℕ) : Tally cell b (warm k) [] .new := by
  obtain ⟨hd,ho⟩ := warm_counts k
  refine ⟨?_,?_,?_,?_,?_⟩
  · rw [hd]
    rfl
  · rw [hd]
    rfl
  · rw [hd]
    rfl
  · rw [ho]
    rfl
  · rw [ho]
    rfl

theorem Tally.event (h : Tally cell b os vs stats) (ev : BookEvent) (v : UInt64) :
    Tally cell b (os ++ [.observed c (.ok (.event ev)) c']) (vs ++ [v])
      { stats with
        e2e := stats.e2e.record (saturatingSub (cell.clock.deltaNs b v) ev.ts), deliveries := stats.deliveries+1 } := by
  have hd : delivered [.observed c (.ok (.event ev)) c'] = [(c,ev)] := rfl
  have ho : overruns [.observed c (.ok (.event ev)) c'] = [] := rfl
  constructor
  · rw [delivered_append, hd, List.length_append, List.length_append, h.length]
    rfl
  · rw [delivered_append, hd, List.zipWith_append h.length]
    change stats.e2e.record _ = _
    rw [h.e2e, Recorder.record_handed]
    rfl
  · rw [delivered_append, hd, List.length_append, UInt64.ofNat_add, ← h.deliveries]
    rfl
  · rw [overruns_append, ho, List.append_nil]
    exact h.lapped
  · rw [overruns_append, ho, List.append_nil]
    exact h.skipped

theorem Tally.overrun (h : Tally cell b os vs stats) (k : ℕ) (t : SeqLock.TopOfBook) :
    Tally cell b (os ++ [.observed c (.ok (.overrun k t)) c']) vs
      { stats with overruns := stats.overruns+1, skipped := stats.skipped+.ofNat k } := by
  have hd : delivered [.observed c (.ok (.overrun k t)) c'] = [] := rfl
  have ho : overruns [.observed c (.ok (.overrun k t)) c'] = [(k,t)] := rfl
  constructor
  · rw [delivered_append, hd, List.append_nil]
    exact h.length
  · rw [delivered_append, hd, List.append_nil]
    exact h.e2e
  · rw [delivered_append, hd, List.append_nil]
    exact h.deliveries
  · rw [overruns_append, ho, List.length_append, UInt64.ofNat_add, ← h.lapped]
    rfl
  · rw [overruns_append, ho, List.map_append, List.sum_append, UInt64.ofNat_add, ← h.skipped]
    rfl

theorem Tally.idle (h : Tally cell b os vs stats) :
    Tally cell b (os ++ [.observed c (.ok .idle) c']) vs stats := by
  have hd : delivered (os ++ [.observed c (.ok .idle) c']) = delivered os := by
    rw [delivered_append]
    exact List.append_nil _
  have ho : overruns (os ++ [.observed c (.ok .idle) c']) = overruns os := by
    rw [overruns_append]
    exact List.append_nil _
  exact ⟨by rw [hd]; exact h.length,by rw [hd]; exact h.e2e,by rw [hd]; exact h.deliveries,by rw [ho]; exact h.lapped,
    by rw [ho]; exact h.skipped⟩

end Tally

/-- What consumer `i` returned with. -/
structure Drained (i : ℕ) (r : Option cell.Stats) (s : cell.system.Shared) : Prop where
  done : s.2.own.done = true
  tally : ∃ stats b os vs, r = some stats ∧ Drains i b os vs s ∧ Tally cell b os vs stats
  position : ∃ c, Rests i (.consumer c) s ∧ cell.n.toNat ≤ c.cursor

theorem Drained.stays {r : Option cell.Stats} (h : Drained i r s) (hs : Stays i s s')
    (hrest : ∀ l, Rests i l s → Rests i l s') : Drained i r s' := by
  obtain ⟨stats,b,os,vs,hr,hd,ht⟩ := h.tally
  obtain ⟨c,hc,hn⟩ := h.position
  exact ⟨hs.done h.done,⟨stats,b,os,vs,hr,hd.stays hs,ht⟩,⟨c,hrest _ hc,hn⟩⟩

/-- What the producer has done: whether it opened the barrier, its clock base, what it gave
to the engine, and whether it is done. -/
structure Drives (started done : Bool) (b : Option UInt64) (evs : List BookEvent) (s : cell.system.Shared) : Prop where
  good : cell.Good s
  started : s.2.own.started = started
  done : s.2.own.done = done
  base : base s.1 = b
  given : given s = evs

/-- The producer is between two calls of its engine. -/
def Leads (s : cell.system.Shared) : Prop :=
  ∃ p, s.2.object.moment.config.threads .producer = .idle (.producer p)

/-- What the producer returned with. -/
def Drove (s : cell.system.Shared) : Option UInt64 → Prop
  | none => ∃ (k : ℕ) (ev : BookEvent), cell.corpus.events[k]? = some ev ∧ cell.sched.offsetNs k ev = none
  | some active => ∃ b, Drives true true (some b) cell.stream s ∧
      cell.stream.length = cell.corpus.events.length ∧ (∃ r ∈ readings s.1, active = cell.clock.deltaNs b r) ∧
      (Chronological s.1 → ∀ ev ∈ cell.stream, ev.ts ≤ active)

/-- What is known of a thread that is to be spawned, or to be joined. -/
def Rest : Thread → cell.Worker → cell.system.Shared → Prop
  | .producer, .producer, s => Drives false false none [] s ∧ Leads s
  | .producer, .drove active, s => Drove s active
  | .consumer i, .consumer, s => Early i [] s ∧ Rests i .handle s
  | .consumer i, .drained r, s => Drained i r s
  | .consumer _, .unused, _ => True
  | _, _, _ => False

variable (cell) in
def contract : cell.system.Contract where
  admissible _ := True
  invariant s := cell.Good s
  rely := cell.Relies
  rest := Rest
  rely_refl := Relies.refl
  rely_trans := Relies.trans

theorem Calm.keeps {t : Thread} (h : Calm s s') (ha : ∀ u, u ≠ t → Apart u s s') : cell.contract.Keeps t s s' :=
  ⟨h.good,fun u hu => h.relies (ha u hu)⟩

theorem stays_of_rely (h : (cell.contract.env (.consumer i)).rely s s') : Stays i s s' :=
  Relies.stays h.1 h.2

theorem apart_of_rely {t : Thread} (h : (cell.contract.env t).rely s s') : Apart t s s' := Relies.apart h.1

theorem rests_of_rely (h : (cell.contract.env (.consumer i)).rely s s') {l : Holder BTreeBook} (hl : Rests i l s) :
    Rests i l s' :=
  (apart_of_rely h).object.thread.trans hl

/-- A call of consumer `i` returns. -/
structure Returned (i : ℕ) (l : Holder BTreeBook) (o : Out) (s s' : cell.system.Shared) : Prop where
  calm : Calm s s'
  polled : polled i s' = polled i s ++ [o]
  seen : seen i s'.1 = seen i s.1
  grown : s.1 <:+ s'.1
  rests : Rests i l s'

theorem Comes.returned {l : Holder BTreeBook} {o : Out} (h : Comes (.consumer i) l o s s') : Returned i l o s s' where
  calm := Comes.calm h
  polled := by
    rw [Cell.polled, h.object]
    exact if_pos rfl
  seen := seen_quiet rfl h.trace
  grown := h.trace ▸ List.suffix_cons _ _
  rests := by
    rw [Rests, h.object]
    exact System.Config.threads_set_self _ _ _

section Calls
variable {α : Type} {f : Out → cell.Code α} {Q : α → cell.system.Shared → Prop} {P : cell.system.Shared → Prop}

/-- A call of consumer `i`, while `P` holds. -/
theorem meets_consumer_call {x : Call} (hx : ∀ ev, x ≠ .process ev) {l : Holder BTreeBook}
    {p : Program (@Access.Result (Loc cell.capacity) Val) (Holder BTreeBook × Out)}
    (hp : (Engine.object cell.capacity BTreeBook).code l x = some p)
    (hP : ∀ s s', P s → Stays i s s' → P s') (hs : P s) (hrests : Rests i l s)
    (hcome : ∀ s₁ s₂ l' o, P s₁ → p.Residual (.done (l',o)) → Returned i l' o s₁ s₂ →
      Meets (cell.contract.env (.consumer i)) (f o) Q s₂) :
    Meets (cell.contract.env (.consumer i)) (Client.call x >>= f) Q s := by
  refine meets_call P (fun s₁ h₁ => rests_of_rely h₁ hrests) hp ?_ ?_ ?_ ?_
  · intro s₁ s₂ h₁ h₂
    exact ⟨hP _ _ h₁ (stays_of_rely h₂),apart_of_rely h₂⟩
  · intro s₁ s₂ h₁ hstart
    exact ⟨(Starts.calm hstart hx).keeps fun u hu => hstart.apart hu,
      hP _ _ (hP _ _ hs (stays_of_rely h₁)) (Starts.stays hstart hx)⟩
  · intro s₁ s₂ h₁ hgo
    exact ⟨(Goes.calm hgo).keeps fun u hu => hgo.apart hu,hP _ _ h₁ (Goes.stays hgo)⟩
  · intro s₁ s₂ l' o h₁ hres h₂
    exact ⟨(Comes.calm h₂).keeps fun u hu => h₂.apart hu,hcome s₁ s₂ l' o h₁ hres (Comes.returned h₂)⟩

end Calls
end Cell
end LowLatencyLob.Bench
