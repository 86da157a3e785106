import LowLatencyLob.Bench.E2eContract

/-! The producer thread of a cell: it waits for every consumer, publishes the clock base, and
gives each event to the engine no earlier than its time. -/
namespace LowLatencyLob.Bench
open Book Concurrency Engine
open LowLatencyLob.Ring (Thread)

namespace Cell
variable {cell : Cell} {s s' : cell.system.Shared} {started done : Bool} {b : UInt64} {base₀ : Option UInt64}
  {evs : List BookEvent} {ev : BookEvent}

theorem Drives.of_rely (h : Drives started done base₀ evs s) (hs : (cell.contract.env .producer).rely s s') :
    Drives started done base₀ evs s' := by
  obtain ⟨⟨hapart,hst,_,hd,hg⟩,hgood⟩ := hs
  exact ⟨hgood h.good,hst.trans h.started,hd.trans h.done,
    (congrArg (fun tr => (readings tr).head?) hapart.mine).trans h.base,hg.trans h.given⟩

theorem Leads.of_rely (h : Leads s) (hs : (cell.contract.env .producer).rely s s') : Leads s' := by
  obtain ⟨p,hp⟩ := h
  exact ⟨p,(apart_of_rely hs).object.thread.trans hp⟩

theorem Leads.event (h : Leads s) (e : cell.system.Ev) (o : Handshake) : Leads (e :: s.1,⟨s.2.object,o⟩) := h

/-- A calm step of the producer. -/
theorem Drives.calm (h : Drives started done base₀ evs s) (hc : Calm s s') : Drives started done base₀ evs s' where
  good := hc.good h.good
  started := by rw [hc.own]; exact h.started
  done := by rw [hc.own]; exact h.done
  base := hc.base.trans h.base
  given := hc.given.trans h.given

/-- An access of the producer takes nothing from the consumers. -/
theorem keeps_own {a : Act} {r : a.Result} {o : Handshake}
    (hg : cell.Good (.access .producer (.own a) r :: s.1,⟨s.2.object,o⟩))
    (hst : s.2.own.started = true → o.started = true) (hd : s.2.own.done = true → o.done = true) :
    cell.contract.Keeps .producer s (.access .producer (.own a) r :: s.1,⟨s.2.object,o⟩) := by
  refine ⟨fun _ => hg,fun u hu => ?_⟩
  cases u with
  | producer => exact absurd rfl hu
  | consumer i => exact ⟨.access hu _ _ s _,hst,hd⟩

/-- A reading of the producer is the base, if it is the first. -/
theorem Drives.read (h : Drives started done base₀ evs s) (r : UInt64) :
    Drives started done (base₀.or (some r)) evs (.access .producer (.own .raw) r :: s.1,s.2) where
  good := h.good.read _ r
  started := h.started
  done := h.done
  base := by
    rw [Cell.base, mine_access, readings_cons, List.head?_append, ← h.base]
    rfl
  given := h.given

/-- The clock was read at a time that is not earlier than `x`. -/
def Passed (b x : UInt64) (s : cell.system.Shared) : Prop := ∃ r ∈ readings s.1, x ≤ cell.clock.deltaNs b r

theorem Passed.grows {x : UInt64} (h : Passed b x s) (hs : s.1 <:+ s'.1) : Passed b x s' := by
  obtain ⟨r,hr,hle⟩ := h
  exact ⟨r,(readings_grow hs).subset hr,hle⟩

/-- An event is given behind the start, and behind its time. -/
theorem Good.give (h : Drives true false (some b) evs s) (hp : Passed b ev.ts s) (hin : evs ++ [ev] <+: cell.stream)
    (ho : s'.2.own = s.2.own) (ha : arrived s'.1 = arrived s.1) (hr : readings s'.1 = readings s.1)
    (hb : Cell.base s'.1 = Cell.base s.1) (hg : given s' = evs ++ [ev])
    (hgrown : s.2.object.moment.trace <:+ s'.2.object.moment.trace) : cell.Good s' := by
  have hgood := h.good
  refine ⟨?_,?_,?_,fun i hi => ?_,?_,?_,?_,?_,fun b' hb' e he => ?_⟩
  · rw [ho, ha]
    exact hgood.ready
  · rw [ha]
    exact hgood.once
  · rw [ha]
    exact hgood.known
  · exact (hgood.warmed i (ha ▸ hi)).trans (polled_grow hgrown i)
  · rwa [hg]
  · rw [ho]
    exact fun _ => h.started
  · rw [ho, ha, hb]
    exact hgood.started
  · rw [ho, h.done]
    exact Bool.noConfusion
  · rw [hb, h.base] at hb'
    cases hb'
    rw [hr]
    rw [hg] at he
    rcases List.mem_append.mp he with he | he
    · exact hgood.paced b h.base e (by rwa [h.given])
    · cases List.mem_singleton.mp he
      exact hp

section Code
variable {α : Type} {Q : α → cell.system.Shared → Prop}

/-- A reading of the clock by the producer. -/
theorem meets_raw {f : UInt64 → cell.Code α} (hs : Drives started done base₀ evs s) (hl : Leads s)
    (hcome : ∀ s₁ r, (cell.contract.env .producer).rely s s₁ →
      Drives started done (base₀.or (some r)) evs (.access .producer (.own .raw) r :: s₁.1,s₁.2) →
      Leads (.access .producer (.own .raw) r :: s₁.1,s₁.2) →
      Meets (cell.contract.env .producer) (f r) Q (.access .producer (.own .raw) r :: s₁.1,s₁.2)) :
    Meets (cell.contract.env .producer) (Client.own .raw >>= f) Q s := by
  refine meets_own fun s₁ h₁ now r o ho => ?_
  obtain ⟨rfl,rfl⟩ := Prod.mk.inj (Option.some.inj ho)
  have hd := (hs.of_rely h₁).read now
  exact ⟨keeps_own hd.good id id,hcome s₁ now h₁ hd ((hl.of_rely h₁).event _ _)⟩

/-- The producer passes the barrier only behind every consumer. -/
theorem meets_awaitReady {f : Unit → cell.Code α} (hs : Drives started done base₀ evs s) (hl : Leads s)
    (hcome : ∀ s', Drives started done base₀ evs s' → Leads s' → (∀ i < cell.consumers.toNat, i ∈ arrived s'.1) →
      Meets (cell.contract.env .producer) (f ()) Q s') :
    Meets (cell.contract.env .producer) (cell.awaitReady >>= f) Q s := by
  refine ⟨fun _ s => Drives started done base₀ evs s ∧ Leads s,⟨hs,hl⟩,?_,?_⟩
  · intro _ s₁ s₂ ⟨h₁,hl₁⟩ h₂
    exact ⟨h₁.of_rely h₂,hl₁.of_rely h₂⟩
  · intro _ s₁ ⟨h₁,hl₁⟩
    refine meets_own fun s₂ h₂ now r o ho => ?_
    obtain ⟨rfl,rfl⟩ := Prod.mk.inj (Option.some.inj ho)
    have hcalm : Calm s₂ (.access .producer (.own .loadReady) s₂.2.own.ready :: s₂.1,s₂.2) := .event rfl rfl s₂
    have hd := (h₁.of_rely h₂).calm hcalm
    have hl₂ : Leads (.access .producer (.own .loadReady) s₂.2.own.ready :: s₂.1,s₂.2) := (hl₁.of_rely h₂).event _ _
    refine ⟨keeps_own hd.good id id,?_⟩
    split
    · exact Meets.done fun s₃ h₃ => ⟨hd.of_rely h₃,hl₂.of_rely h₃⟩
    · rename_i hready
      refine Meets.done fun s₃ h₃ => ?_
      refine hcome s₃ (hd.of_rely h₃) (hl₂.of_rely h₃) fun i hi => ?_
      have hall := hd.good.all_arrived (UInt64.not_lt.mp hready) i hi
      exact (arrived_grow (apart_of_rely h₃).grown).subset hall

/-- The base is published before the start. -/
theorem meets_storeBaseRaw {f : Unit → cell.Code α} (hs : Drives false false (some b) [] s) (hl : Leads s)
    (hall : ∀ i < cell.consumers.toNat, i ∈ arrived s.1)
    (hcome : ∀ s', Drives false false (some b) [] s' → Leads s' → (∀ i < cell.consumers.toNat, i ∈ arrived s'.1) →
      s'.2.own.baseRaw = b → Meets (cell.contract.env .producer) (f ()) Q s') :
    Meets (cell.contract.env .producer) (Client.own (.storeBaseRaw b) >>= f) Q s := by
  refine meets_own fun s₁ h₁ now r o ho => ?_
  obtain ⟨rfl,rfl⟩ := Prod.mk.inj (Option.some.inj ho)
  have h₂ := hs.of_rely h₁
  let e : cell.system.Ev := .access .producer (.own (.storeBaseRaw b)) ()
  have hc : Calm s₁ (e :: s₁.1,s₁.2) := .event rfl rfl s₁
  have hgood := hc.good h₂.good
  have hgood' : cell.Good (e :: s₁.1,⟨s₁.2.object,{ s₁.2.own with baseRaw := b }⟩) := by
    refine ⟨hgood.ready,hgood.once,hgood.known,hgood.warmed,hgood.inOrder,hgood.behind,fun hst => ?_,hgood.done,
      hgood.paced⟩
    exact absurd (h₂.started.symm.trans hst) Bool.noConfusion
  refine ⟨keeps_own hgood' id id,hcome _ ?_ ((hl.of_rely h₁).event _ _) (fun i hi => ?_) rfl⟩
  · exact ⟨hgood',h₂.started,h₂.done,hc.base.trans h₂.base,h₂.given⟩
  · exact (arrived_grow ((apart_of_rely h₁).grown.trans (List.suffix_cons _ _))).subset (hall i hi)

/-- The start, behind every consumer and the base. -/
theorem meets_storeStarted {f : Unit → cell.Code α} (hs : Drives false false (some b) [] s) (hl : Leads s)
    (hall : ∀ i < cell.consumers.toNat, i ∈ arrived s.1) (hb : s.2.own.baseRaw = b)
    (hcome : ∀ s', Drives true false (some b) [] s' → Leads s' → Meets (cell.contract.env .producer) (f ()) Q s') :
    Meets (cell.contract.env .producer) (Client.own (.storeStarted true) >>= f) Q s := by
  refine meets_own fun s₁ h₁ now r o ho => ?_
  obtain ⟨rfl,rfl⟩ := Prod.mk.inj (Option.some.inj ho)
  have h₂ := hs.of_rely h₁
  let e : cell.system.Ev := .access .producer (.own (.storeStarted true)) ()
  have hc : Calm s₁ (e :: s₁.1,s₁.2) := .event rfl rfl s₁
  have hgood := hc.good h₂.good
  have hbase : Cell.base (e :: s₁.1) = some s₁.2.own.baseRaw := by
    obtain ⟨⟨_,_,hraw,_⟩,_⟩ := h₁
    rw [hraw, hb]
    exact hc.base.trans h₂.base
  have hgood' : cell.Good (e :: s₁.1,⟨s₁.2.object,{ s₁.2.own with started := true }⟩) := by
    refine ⟨hgood.ready,hgood.once,hgood.known,hgood.warmed,hgood.inOrder,fun _ => rfl,
      fun _ => ⟨fun i hi => ?_,hbase⟩,hgood.done,hgood.paced⟩
    exact (arrived_grow ((apart_of_rely h₁).grown.trans (List.suffix_cons _ _))).subset (hall i hi)
  exact ⟨keeps_own hgood' (fun _ => rfl) id,
    hcome _ ⟨hgood',rfl,h₂.done,hc.base.trans h₂.base,h₂.given⟩ ((hl.of_rely h₁).event _ _)⟩

/-- The wait ends when the time has come. -/
theorem meets_pace {f : Unit → cell.Code α} {scheduled : UInt64} (hs : Drives started done (some b) evs s)
    (hl : Leads s) (hcome : ∀ s', Drives started done (some b) evs s' → Leads s' → Passed b scheduled s' →
      Meets (cell.contract.env .producer) (f ()) Q s') :
    Meets (cell.contract.env .producer) (cell.pace b scheduled >>= f) Q s := by
  have hread : ∀ (s₁ : cell.system.Shared) (r : UInt64),
      r ∈ readings (.access .producer (.own .raw) r :: s₁.1 : cell.system.Trace) := fun s₁ r => by
    rw [readings_cons]
    exact List.mem_append_right _ (List.mem_singleton.mpr rfl)
  refine meets_raw hs hl fun s₁ r _ hd hl₁ => ?_
  -- What the loop holds is a reading.
  refine ⟨fun now s => (Drives started done (some b) evs s ∧ Leads s) ∧
    ∃ r ∈ readings s.1, now = cell.clock.deltaNs b r,
    ⟨⟨hd,hl₁⟩,r,hread s₁ r,rfl⟩,?_,?_⟩
  · intro now s₂ s₃ ⟨⟨h₂,hl₂⟩,r,hr,hnow⟩ h₃
    exact ⟨⟨h₂.of_rely h₃,hl₂.of_rely h₃⟩,r,(readings_grow (apart_of_rely h₃).grown).subset hr,hnow⟩
  · intro now s₂ ⟨⟨h₂,hl₂⟩,r,hr,hnow⟩
    change Meets _ (if now < scheduled then _ else _) _ _
    split
    · refine meets_raw h₂ hl₂ fun s₃ r' _ h₃ hl₃ => ?_
      refine Meets.done fun s₄ h₄ => ⟨⟨h₃.of_rely h₄,hl₃.of_rely h₄⟩,r',?_,rfl⟩
      exact (readings_grow (apart_of_rely h₄).grown).subset (hread s₃ r')
    · rename_i hlt
      refine Meets.done fun s₃ h₃ => hcome s₃ (h₂.of_rely h₃) (hl₂.of_rely h₃) ?_
      refine Passed.grows ⟨r,hr,?_⟩ (apart_of_rely h₃).grown
      rw [← hnow]
      exact UInt64.not_lt.mp hlt

/-- The code of a `process`; a map never panics. -/
theorem exists_process (cell : Cell) (p : Producer BTreeBook) (ev : BookEvent) :
    ∃ prog, (Engine.object cell.capacity BTreeBook).code (.producer p) (.process ev) = some prog := ⟨_,rfl⟩

theorem process_returned {p : Producer BTreeBook} {prog} {l : Holder BTreeBook} {o : Out}
    (hp : (Engine.object cell.capacity BTreeBook).code (.producer p) (.process ev) = some prog)
    (h : prog.Residual (.done (l,o))) : ∃ p, l = .producer p := by
  obtain ⟨book,t,_,_,rfl⟩ := process_code hp
  obtain ⟨_,_,h⟩ := Program.Residual.of_bind_done h
  obtain ⟨_,_,h⟩ := Program.Residual.of_bind_done h
  cases h.done_cases
  exact ⟨_,rfl⟩

/-- An event is given to the engine. -/
theorem meets_process {f : Out → cell.Code α} (hs : Drives true false (some b) evs s) (hl : Leads s)
    (hp : Passed b ev.ts s) (hin : evs ++ [ev] <+: cell.stream)
    (hcome : ∀ s' o, Drives true false (some b) (evs ++ [ev]) s' → Leads s' →
      Meets (cell.contract.env .producer) (f o) Q s') :
    Meets (cell.contract.env .producer) (Client.call (.process ev) >>= f) Q s := by
  obtain ⟨p,hidle⟩ := hl
  obtain ⟨prog,hprog⟩ := exists_process cell p ev
  refine meets_call (Drives true false (some b) (evs ++ [ev])) ?_ hprog ?_ ?_ ?_ ?_
  · intro s₁ h₁
    exact (apart_of_rely h₁).object.thread.trans hidle
  · intro s₁ s₂ h₁ h₂
    exact ⟨h₁.of_rely h₂,apart_of_rely h₂⟩
  · intro s₁ s₂ h₁ hstart
    have hd := hs.of_rely h₁
    have hgiven : given s₂ = evs ++ [ev] := by
      rw [given, hstart.object, ← hd.given]
      rfl
    have harrived : arrived s₂.1 = arrived s₁.1 := by
      rw [hstart.trace]
      exact arrived_quiet rfl s₁.1
    have hreadings : readings s₂.1 = readings s₁.1 := by
      rw [hstart.trace]
      exact readings_quiet rfl s₁.1
    have hbase : Cell.base s₂.1 = Cell.base s₁.1 := by
      rw [hstart.trace]
      exact congrArg List.head? (readings_mine .producer (.inr rfl) s₁.1)
    have hgood := Good.give hd (hp.grows (apart_of_rely h₁).grown) hin hstart.own harrived hreadings hbase hgiven
      (by rw [hstart.object]; exact List.suffix_cons _ _)
    refine ⟨⟨fun _ => hgood,fun u hu => ?_⟩,hgood,?_,?_,hbase.trans hd.base,hgiven⟩
    · cases u with
      | producer => exact absurd rfl hu
      | consumer i => exact ⟨hstart.apart hu,by rw [hstart.own]; exact id,by rw [hstart.own]; exact id⟩
    · rw [hstart.own]
      exact hd.started
    · rw [hstart.own]
      exact hd.done
  · intro s₁ s₂ h₁ hgo
    exact ⟨(Goes.calm hgo).keeps fun u hu => hgo.apart hu,h₁.calm (Goes.calm hgo)⟩
  · intro s₁ s₂ l o h₁ hres h₂
    obtain ⟨p',rfl⟩ := process_returned hprog hres
    refine ⟨(Comes.calm h₂).keeps fun u hu => h₂.apart hu,hcome s₂ o (h₁.calm (Comes.calm h₂)) ⟨p',?_⟩⟩
    rw [h₂.object]
    exact System.Config.threads_set_self _ _ _

/-- The paced loop gives the whole stream, or the schedule panics. -/
def Produced (b : UInt64) (ok : Bool) (s : cell.system.Shared) : Prop :=
  if ok then Drives true false (some b) cell.stream s ∧ Leads s ∧ cell.stream.length = cell.corpus.events.length
  else Drove s none ∧ cell.Good s

theorem meets_produce (i : ℕ) (hs : Drives true false (some b) evs s) (hl : Leads s) (hlen : evs.length = i)
    (hin : evs ++ stamped cell.sched i (cell.corpus.events.drop i) = cell.stream) (hi : i ≤ cell.corpus.events.length) :
    Meets (cell.contract.env .producer) (cell.produce b i (cell.corpus.events.drop i))
      (fun ok s => Produced b ok s) s := by
  generalize hrest : cell.corpus.events.drop i = rest at hin ⊢
  induction rest generalizing i evs s with
  | nil =>
    obtain rfl : evs = cell.stream := by rwa [stamped, List.append_nil] at hin
    have hend := List.drop_eq_nil_iff.mp hrest
    exact Meets.done fun s' h' => ⟨hs.of_rely h',hl.of_rely h',by omega⟩
  | cons ev rest ih =>
    have hev : cell.corpus.events[i]? = some ev := by
      rw [← List.head?_drop, hrest]
      rfl
    rw [produce]
    cases hx : cell.sched.offsetNs i ev with
    | none => exact Meets.done fun s' h' => ⟨⟨i,ev,hev,hx⟩,(hs.of_rely h').good⟩
    | some scheduled =>
      rw [stamped, hx] at hin
      have hnext : cell.corpus.events.drop (i+1) = rest := by rw [← List.tail_drop, hrest, List.tail_cons]
      have hi' : i < cell.corpus.events.length := (List.getElem?_eq_some_iff.mp hev).1
      refine meets_pace hs hl fun s₁ h₁ hl₁ hp => ?_
      have happ : (evs ++ [{ ev with ts := scheduled }]) ++ stamped cell.sched (i+1) rest = cell.stream := by
        rw [List.append_assoc]
        exact hin
      refine meets_process h₁ hl₁ hp (happ ▸ List.prefix_append _ _)
        fun s₂ o h₂ hl₂ => ?_
      exact ih (i+1) h₂ hl₂ (by simp [hlen]) hi' hnext happ

theorem Drove.of_rely {active : Option UInt64} (h : Drove s active) (hs : (cell.contract.env .producer).rely s s') :
    Drove s' active := by
  cases active with
  | none => exact h
  | some active =>
    obtain ⟨b,hd,hlen,⟨r,hr,he⟩,htime⟩ := h
    have hgrown := (apart_of_rely hs).grown
    exact ⟨b,hd.of_rely hs,hlen,⟨r,(readings_grow hgrown).subset hr,he⟩,fun hc => htime (hc.suffix hgrown)⟩

theorem Drove.calm {active : Option UInt64} (h : Drove s active) (hc : Calm s s') (hgrown : s.1 <:+ s'.1) :
    Drove s' active := by
  cases active with
  | none => exact h
  | some active =>
    obtain ⟨b,hd,hlen,⟨r,hr,he⟩,htime⟩ := h
    exact ⟨b,hd.calm hc,hlen,⟨r,(readings_grow hgrown).subset hr,he⟩,fun hc => htime (hc.suffix hgrown)⟩

/-- Behind the whole stream the producer reads the time that it was active, and is done. -/
theorem meets_finish {f : UInt64 → cell.Code α} (hs : Drives true false (some b) cell.stream s) (hl : Leads s)
    (hlen : cell.stream.length = cell.corpus.events.length)
    (hcome : ∀ s' active, Drove s' (some active) → cell.Good s' →
      Meets (cell.contract.env .producer) (f active) Q s') :
    Meets (cell.contract.env .producer) (cell.nowSinceNs b >>= fun active =>
      Client.own (.storeDone true) >>= fun _ => f active) Q s := by
  refine meets_raw hs hl fun s₁ r _ hd hl₁ => ?_
  -- The last reading is no earlier than any event.
  have htime : Chronological (.access .producer (.own .raw) r :: s₁.1) →
      ∀ ev ∈ cell.stream, ev.ts ≤ cell.clock.deltaNs b r := by
    intro hc ev hev
    obtain ⟨r',hr',hle⟩ := hd.good.paced b hd.base ev (by rwa [hd.given])
    rw [readings_cons] at hr'
    rw [Chronological, readings_cons] at hc
    rcases List.mem_append.mp hr' with hr' | hr'
    · have hle' : r' ≤ r := (List.pairwise_append.mp hc).2.2 r' hr' r (List.mem_singleton.mpr rfl)
      exact UInt64.le_trans hle (cell.clock.mono b r' r hle')
    · cases List.mem_singleton.mp hr'
      exact hle
  have hread : r ∈ readings (.access .producer (.own .raw) r :: s₁.1 : cell.system.Trace) := by
    rw [readings_cons]
    exact List.mem_append_right _ (List.mem_singleton.mpr rfl)
  refine meets_own fun s₂ h₂ now x o ho => ?_
  obtain ⟨rfl,rfl⟩ := Prod.mk.inj (Option.some.inj ho)
  have hd₂ := hd.of_rely h₂
  let e : cell.system.Ev := .access .producer (.own (.storeDone true)) ()
  have hc : Calm s₂ (e :: s₂.1,s₂.2) := .event rfl rfl s₂
  have hgood := hc.good hd₂.good
  have hgrown : _ <:+ e :: s₂.1 := (apart_of_rely h₂).grown.trans (List.suffix_cons _ _)
  have hgood' : cell.Good (e :: s₂.1,⟨s₂.2.object,{ s₂.2.own with done := true }⟩) :=
    ⟨hgood.ready,hgood.once,hgood.known,hgood.warmed,hgood.inOrder,hgood.behind,hgood.started,
      fun _ => ⟨hd₂.given,hlen⟩,hgood.paced⟩
  refine ⟨keeps_own hgood' id fun _ => rfl,hcome _ _ ⟨b,?_,hlen,⟨r,?_,rfl⟩,fun hc => ?_⟩ hgood'⟩
  · exact ⟨hgood',hd₂.started,rfl,hc.base.trans hd₂.base,hd₂.given⟩
  · exact (readings_grow hgrown).subset hread
  · exact htime (hc.suffix hgrown)

/-- The producer thread of a cell. -/
theorem meets_driveProducer (hs : Drives false false none [] s) (hl : Leads s) :
    Meets (cell.contract.env .producer) cell.driveProducer (fun r s' => Drove s' r ∧ cell.Good s') s := by
  refine meets_awaitReady hs hl fun s₁ h₁ hl₁ hall₁ => ?_
  change Meets _ (Client.own Act.raw >>= _) _ _
  refine meets_raw h₁ hl₁ fun s₂ b hrely h₂ hl₂ => ?_
  have hall₂ : ∀ i < cell.consumers.toNat, i ∈ arrived (.access .producer (.own .raw) b :: s₂.1 : cell.system.Trace) :=
    fun i hi => (arrived_grow ((apart_of_rely hrely).grown.trans (List.suffix_cons _ _))).subset (hall₁ i hi)
  refine meets_storeBaseRaw h₂ hl₂ hall₂ fun s₃ h₃ hl₃ hall₃ hb => ?_
  refine meets_storeStarted h₃ hl₃ hall₃ hb fun s₄ h₄ hl₄ => ?_
  refine Meets.bind ((meets_produce 0 h₄ hl₄ rfl rfl (Nat.zero_le _)).mono fun ok s₅ h₅ => ?_)
  cases ok with
  | false => exact Meets.done fun s₆ h₆ => ⟨Drove.of_rely h₅.1 h₆,h₆.2 h₅.2⟩
  | true =>
    obtain ⟨hd,hl₅,hlen⟩ := h₅
    exact meets_finish hd hl₅ hlen fun s₆ active h₆ hgood => Meets.done fun s₇ h₇ => ⟨h₆.of_rely h₇,h₇.2 hgood⟩

end Code
end Cell
end LowLatencyLob.Bench
