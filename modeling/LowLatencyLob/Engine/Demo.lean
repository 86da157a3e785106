import LowLatencyLob.Engine.Broadcast
import LowLatencyLob.Engine.EngineSerial

/-! The two demos of `main`: a consumer that polls after every event, and one that polls
only when the whole corpus has gone by. -/
namespace LowLatencyLob.Engine
open Book Concurrency
open SeqLock (TopOfBook)
open LowLatencyLob.Ring (Capacity Thread oneSlot)

/-- A program that owns an engine and makes its calls one at a time. -/
abbrev Client : Type → Type 1 := Program fun _ : Thread × Call => Out

def ask (t : Thread) (x : Call) : Client Out := .access (t,x) .done

def Out.isEvent : Out → Bool
  | .observed _ (.ok (.event _)) _ => true
  | _ => false

def Out.isIdle : Out → Bool
  | .observed _ (.ok .idle) _ => true
  | _ => false

/-- `while let Observed::Event(_) = consumer.poll() { delivered += 1 }` -/
def flush (delivered : UInt64) : Client UInt64 :=
  .loop delivered (fun delivered => do
    let o ← ask (.consumer 0) .poll
    return if o.isEvent then .inl (delivered+1) else .inr delivered) .done

/-- The loop over the corpus that polls after every event. -/
def drive : List BookEvent → UInt64 → Client UInt64
  | [], delivered => return delivered
  | ev :: evs, delivered => do
    let _ ← ask .producer (.process ev)
    let o ← ask (.consumer 0) .poll
    drive evs (if o.isEvent then delivered+1 else delivered)

/-- The first demo, up to the number that its assertion compares. -/
def keepingUp (corpus : List BookEvent) : Client UInt64 := do
  let _ ← ask (.consumer 0) .consumer
  let delivered ← drive corpus 0
  flush delivered

/-- The loop over the corpus that polls nothing. -/
def stall : List BookEvent → Client Unit
  | [] => return ()
  | ev :: evs => do
    let _ ← ask .producer (.process ev)
    stall evs

/-- Poll until there is nothing left. -/
def drain : Client Unit :=
  .loop () (fun _ => do
    let o ← ask (.consumer 0) .poll
    return if o.isIdle then .inr () else .inl ()) .done

/-- The second demo, up to its assertion about the consumer. -/
def lapped (corpus : List BookEvent) : Client Unit := do
  let _ ← ask (.consumer 0) .consumer
  stall corpus
  drain

section Polled
variable {C : Capacity} {B : Type} [OrderBook B] [Inhabited B] {s : Sequential} {c : Consumer}

@[simp] theorem set_consumers (s : Sequential) (i : ℕ) (c : Consumer) : (s.set i c).consumers i = some c :=
  Function.update_self ..

@[simp] theorem set_events (s : Sequential) (i : ℕ) (c : Consumer) : (s.set i c).events = s.events := rfl

@[simp] theorem set_set (s : Sequential) (i : ℕ) (c c' : Consumer) : (s.set i c).set i c' = s.set i c' := by
  simp [Sequential.set]

theorem call_poll (hc : s.consumers 0 = some c) {r : Observed} {c' : Consumer}
    (hp : polled C.slots s.events (s.top B) c = (r,c')) :
    (specification C B).call s (.consumer 0) .poll = some (.observed c.cursor (.ok r) c'.cursor,s.set 0 c') := by
  change (s.consumers 0).map _ = _
  rw [hc, Option.map_some, hp]

/-- The consumer after the next event. -/
def Consumer.next (c : Consumer) : Consumer := { c with cursor := c.cursor+1, seen := c.seen+1 }

/-- The consumer after an overrun. -/
def Consumer.resync (c : Consumer) (cursor : ℕ) (top : TopOfBook) : Consumer :=
  { c with cursor, lastMid := (top.bidPx+top.askPx)/2, resyncs := c.resyncs+1 }

theorem call_poll_idle (hc : s.consumers 0 = some c) (h : c.cursor = s.events.length) :
    (specification C B).call s (.consumer 0) .poll = some (.observed c.cursor (.ok .idle) c.cursor,s) := by
  have hp : polled C.slots s.events (s.top B) c = (.idle,c) := by
    rw [polled, List.getElem?_eq_none h.ge]
  rw [call_poll hc hp, Sequential.set_eq hc]

theorem call_poll_event (hc : s.consumers 0 = some c) (h : c.cursor < s.events.length)
    (hcap : s.events.length ≤ c.cursor+C.slots) : (specification C B).call s (.consumer 0) .poll =
      some (.observed c.cursor (.ok (.event s.events[c.cursor])) (c.cursor+1),s.set 0 c.next) := by
  have hp : polled C.slots s.events (s.top B) c = (.event s.events[c.cursor],c.next) := by
    rw [polled, List.getElem?_eq_getElem h]
    exact if_pos hcap
  exact call_poll hc hp

theorem call_poll_overrun (hc : s.consumers 0 = some c) (hcap : c.cursor+C.slots < s.events.length) :
    (specification C B).call s (.consumer 0) .poll =
      some (.observed c.cursor (.ok (.overrun (s.events.length-C.slots-c.cursor) (s.top B))) (s.events.length-C.slots),
        s.set 0 (c.resync (s.events.length-C.slots) (s.top B))) := by
  have hp : polled C.slots s.events (s.top B) c = (.overrun (s.events.length-C.slots-c.cursor) (s.top B),
      c.resync (s.events.length-C.slots) (s.top B)) := by
    rw [polled, List.getElem?_eq_getElem (by omega)]
    exact if_neg (by omega)
  exact call_poll hc hp

end Polled

section Loops
variable {C : Capacity} {B : Type} [OrderBook B] [Inhabited B] {s s₁ s' : Sequential} {o : Out} {os : List Out}

/-- Some polls of the consumer. -/
inductive Polls (C : Capacity) (B : Type) [OrderBook B] [Inhabited B] : Sequential → List Out → Sequential → Prop
  | done (s : Sequential) : Polls C B s [] s
  | poll {s s₁ s' : Sequential} {o : Out} {os : List Out}
      (h : (specification C B).call s (.consumer 0) .poll = some (o,s₁)) (hs : Polls C B s₁ os s') :
      Polls C B s (o :: os) s'

/-- What a program does, with the results of its calls. -/
def Does (C : Capacity) (B : Type) [OrderBook B] [Inhabited B] {α : Type} (s : Sequential) (p : Client α)
    (os : List Out) (x : α) (s' : Sequential) : Prop :=
  ∃ as, Solo (specification C B).memory () s p as x s' ∧ as.map (·.2) = os

theorem Does.bind {α β : Type} {p : Client α} {f : α → Client β} {os' : List Out} {x : α} {y : β}
    (h : Does C B s p os x s₁) (hf : Does C B s₁ (f x) os' y s') : Does C B s (p >>= f) (os ++ os') y s' := by
  obtain ⟨as,hs,rfl⟩ := h
  obtain ⟨bs,hs',rfl⟩ := hf
  exact ⟨as ++ bs,hs.bind hs',List.map_append⟩

theorem Does.ask {t : Thread} {x : Call} (h : (specification C B).call s t x = some (o,s')) :
    Does C B s (ask t x) [o] o s' :=
  ⟨_,.access () h (.done (M := (specification C B).memory) _ _),rfl⟩

theorem Does.done {α : Type} (x : α) : Does C B s (.done x) [] x s :=
  ⟨[],.done (M := (specification C B).memory) _ _,rfl⟩

theorem Does.loop {α β : Type} {b : β} {body : β → Client (β ⊕ α)} {x : α}
    (h : Does C B s (Program.unroll b body .done) os x s') : Does C B s (.loop b body .done) os x s' := by
  obtain ⟨as,hs,rfl⟩ := h
  exact ⟨as,.loop hs,rfl⟩

/-- While its polls hand out events, the loop counts them. -/
theorem flush_polls (h : Polls C B s os s₁) (ho : ∀ o ∈ os, o.isEvent = true)
    (hend : (specification C B).call s₁ (.consumer 0) .poll = some (o,s')) (hidle : o.isEvent = false) (d : UInt64) :
    Does C B s (flush d) (os ++ [o]) (d+.ofNat os.length) s' := by
  induction h generalizing d with
  | done s =>
    apply Does.loop
    refine (Does.ask hend).bind ?_
    have hzero : d+UInt64.ofNat ([] : List Out).length = d := UInt64.add_zero d
    rw [hidle, hzero]
    exact .done _
  | poll h hs ih =>
    apply Does.loop
    refine (Does.ask h).bind ?_
    rw [ho _ (.head _), List.length_cons, Nat.add_comm, UInt64.ofNat_add, ← UInt64.add_assoc]
    exact ih (fun x hx => ho x (.tail _ hx)) hend (d+1)

/-- While its polls are not idle, the loop goes on. -/
theorem drain_polls (h : Polls C B s os s₁) (ho : ∀ o ∈ os, o.isIdle = false)
    (hend : (specification C B).call s₁ (.consumer 0) .poll = some (o,s')) (hidle : o.isIdle = true) :
    Does C B s drain (os ++ [o]) () s' := by
  induction h with
  | done s =>
    apply Does.loop
    refine (Does.ask hend).bind ?_
    rw [hidle]
    exact .done _
  | poll h hs ih =>
    apply Does.loop
    refine (Does.ask h).bind ?_
    rw [ho _ (.head _)]
    exact ih (fun x hx => ho x (.tail _ hx)) hend

end Loops

section Drain
variable {C : Capacity} {B : Type} [OrderBook B] [Inhabited B] {s : Sequential} {c : Consumer}

/-- The consumer that has read everything, where nothing was lost. -/
def Consumer.caughtUp (c : Consumer) (evs : List BookEvent) : Consumer :=
  { c with cursor := evs.length, seen := c.seen + .ofNat (evs.length-c.cursor) }

theorem caughtUp_self {evs : List BookEvent} (h : c.cursor = evs.length) : c.caughtUp evs = c := by
  simp [Consumer.caughtUp, ← h]

theorem caughtUp_next {evs : List BookEvent} (h : c.cursor < evs.length) : c.next.caughtUp evs = c.caughtUp evs := by
  have hseen : c.seen+1+UInt64.ofNat (evs.length-(c.cursor+1)) = c.seen+UInt64.ofNat (evs.length-c.cursor) := by
    rw [show evs.length-c.cursor = 1+(evs.length-(c.cursor+1)) by omega, UInt64.ofNat_add, ← UInt64.add_assoc]
    rfl
  simp [Consumer.caughtUp, Consumer.next, hseen]

/-- Polls from inside the window hand out the rest of the events. -/
theorem window_polls (k : ℕ) {s : Sequential} {c : Consumer} (hc : s.consumers 0 = some c)
    (hk : s.events.length = c.cursor+k) (hcap : k ≤ C.slots) :
    ∃ os, Polls C B s os (s.set 0 (c.caughtUp s.events)) ∧ os.length = k ∧ (∀ o ∈ os, o.isEvent = true) ∧
      (delivered os).map Prod.snd = s.events.drop c.cursor ∧ overruns os = [] := by
  induction k generalizing s c with
  | zero =>
    rw [caughtUp_self hk.symm, Sequential.set_eq hc, List.drop_eq_nil_of_le (by omega)]
    exact ⟨[],.done s,rfl,nofun,rfl,rfl⟩
  | succ k ih =>
    have hlt : c.cursor < s.events.length := by omega
    have hk' : (s.set 0 c.next).events.length = c.next.cursor+k := by
      change s.events.length = c.cursor+1+k
      omega
    obtain ⟨os,hs,hlen,hev,hdel,hover⟩ := ih (set_consumers s 0 c.next) hk' (by omega)
    rw [set_set, set_events, caughtUp_next hlt] at hs
    refine ⟨_,.poll (call_poll_event hc hlt (by omega)) hs,congrArg (·+1) hlen,?_,?_,hover⟩
    · intro o ho
      cases ho with
      | head => rfl
      | tail _ ho => exact hev o ho
    · rw [List.drop_eq_getElem_cons hlt]
      exact congrArg (_ :: ·) hdel

/-- A window's polls are not idle. -/
theorem not_idle {o : Out} (h : o.isEvent = true) : o.isIdle = false := by
  unfold Out.isEvent at h
  split at h
  · rfl
  · cases h

/-- Every overrun leaves the newest events to be read, and nothing else is lost. -/
theorem lapped_polls (hc : s.consumers 0 = some c) (hcap : c.cursor+C.slots < s.events.length) :
    ∃ os, Polls C B s os (s.set 0 ((c.resync (s.events.length-C.slots) (s.top B)).caughtUp s.events)) ∧
      (∀ o ∈ os, o.isIdle = false) ∧
      (delivered os).map Prod.snd = s.events.drop (s.events.length-C.slots) ∧
      overruns os = [(s.events.length-C.slots-c.cursor,s.top B)] := by
  have hk : (s.set 0 (c.resync (s.events.length-C.slots) (s.top B))).events.length =
      (c.resync (s.events.length-C.slots) (s.top B)).cursor+C.slots := by
    change s.events.length = s.events.length-C.slots+C.slots
    omega
  obtain ⟨os,hs,_,hev,hdel,hover⟩ := window_polls (B := B) C.slots (set_consumers s 0 _) hk le_rfl
  rw [set_set, set_events] at hs
  refine ⟨_,.poll (call_poll_overrun hc hcap) hs,?_,hdel,?_⟩
  · intro o ho
    cases ho with
    | head => rfl
    | tail _ ho => exact not_idle (hev o ho)
  · exact congrArg (_ :: ·) hover

/-- What polling to the end hands out from any cursor: the events from there on that are still
in the ring, behind one overrun if there are older ones. -/
theorem drain_does (hc : s.consumers 0 = some c) (hle : c.cursor ≤ s.events.length) : ∃ os c',
    Does C B s drain os () (s.set 0 (c'.caughtUp s.events)) ∧
    (delivered os).map Prod.snd = s.events.drop (max c.cursor (s.events.length-C.slots)) ∧
    (c' = c ∧ s.events.length ≤ c.cursor+C.slots ∧ overruns os = [] ∨
      c' = c.resync (s.events.length-C.slots) (s.top B) ∧ c.cursor+C.slots < s.events.length ∧
      overruns os = [(s.events.length-C.slots-c.cursor,s.top B)]) := by
  by_cases hcap : c.cursor+C.slots < s.events.length
  · obtain ⟨os,hs,hbusy,hdel,hover⟩ := lapped_polls (B := B) hc hcap
    let c' := c.resync (s.events.length-C.slots) (s.top B)
    have hidle := call_poll_idle (C := C) (B := B) (set_consumers s 0 (c'.caughtUp s.events)) rfl
    refine ⟨_,c',drain_polls hs hbusy hidle rfl,?_,.inr ⟨rfl,hcap,?_⟩⟩
    · rw [max_eq_right (by omega), ← hdel, delivered_append, List.map_append]
      exact List.append_nil _
    · rw [overruns_append, hover]
      rfl
  · obtain ⟨os,hs,_,hev,hdel,hover⟩ :=
      window_polls (C := C) (B := B) (s.events.length-c.cursor) hc (by omega) (by omega)
    have hidle := call_poll_idle (C := C) (B := B) (set_consumers s 0 (Consumer.caughtUp c s.events)) rfl
    refine ⟨_,_,drain_polls hs (fun o ho => not_idle (hev o ho)) hidle rfl,?_,.inl ⟨rfl,by omega,?_⟩⟩
    · rw [max_eq_left (by omega), ← hdel, delivered_append, List.map_append]
      exact List.append_nil _
    · rw [overruns_append, hover]
      rfl

end Drain

section Demos
variable {C : Capacity} {B : Type} [OrderBook B] [Inhabited B] {s : Sequential} {c : Consumer}
  (hB : ∀ evs, ∃ t, topAfter B evs = some t)
include hB

theorem call_process (s : Sequential) (ev : BookEvent) : (specification C B).call s .producer (.process ev) =
    some (.processed,{ s with events := s.events ++ [ev] }) := by
  obtain ⟨t,ht⟩ := hB (s.events ++ [ev])
  change (topAfter B (s.events ++ [ev])).map _ = _
  rw [ht]
  rfl

theorem stall_does (evs : List BookEvent) (s : Sequential) : ∃ os, Does C B s (stall evs) os ()
    { s with events := s.events ++ evs } ∧ delivered os = [] ∧ overruns os = [] := by
  induction evs generalizing s with
  | nil =>
    rw [List.append_nil]
    exact ⟨[],.done (),rfl,rfl⟩
  | cons ev evs ih =>
    obtain ⟨os,hs,hdel,hover⟩ := ih { s with events := s.events ++ [ev] }
    rw [List.append_assoc] at hs
    exact ⟨_,(Does.ask (call_process hB s ev)).bind hs,hdel,hover⟩

/-- A consumer that is up to date stays so. -/
theorem drive_does (evs : List BookEvent) {s : Sequential} {c : Consumer} (hc : s.consumers 0 = some c)
    (hat : c.cursor = s.events.length) (d : UInt64) :
    ∃ os, Does C B s (drive evs d) os (d+.ofNat evs.length)
        (Sequential.set { s with events := s.events ++ evs } 0 (c.caughtUp (s.events ++ evs))) ∧
      (delivered os).map Prod.snd = evs ∧ overruns os = [] := by
  induction evs generalizing s c d with
  | nil =>
    have hzero : d+UInt64.ofNat ([] : List BookEvent).length = d := UInt64.add_zero d
    rw [List.append_nil, caughtUp_self hat, Sequential.set_eq hc, hzero]
    exact ⟨[],.done d,rfl,rfl⟩
  | cons ev evs ih =>
    let s₁ : Sequential := { s with events := s.events ++ [ev] }
    have hlen : s₁.events.length = c.cursor+1 := by
      rw [hat]
      exact List.length_append
    have hlt : c.cursor < s₁.events.length := by omega
    have hget : s₁.events[c.cursor] = ev := by
      change (s.events ++ [ev])[c.cursor] = ev
      simp [hat]
    have hpos := C.slots_pos
    have hpoll := call_poll_event (C := C) (B := B) (s := s₁) hc hlt (by omega)
    obtain ⟨os,hs,hdel,hover⟩ := ih (set_consumers s₁ 0 c.next) hlen.symm (d+1)
    have hevs : s₁.events ++ evs = s.events ++ ev :: evs := by simp [s₁]
    have hnext : c.next.caughtUp (s.events ++ ev :: evs) = c.caughtUp (s.events ++ ev :: evs) :=
      caughtUp_next (by simp [hat])
    have hset : ({ s₁.set 0 c.next with events := s.events ++ ev :: evs } : Sequential).set 0 (c.caughtUp _) =
        Sequential.set { s with events := s.events ++ ev :: evs } 0 (c.caughtUp (s.events ++ ev :: evs)) :=
      set_set { s with events := s.events ++ ev :: evs } 0 c.next _
    have hcount : d+1+UInt64.ofNat evs.length = d+.ofNat (ev :: evs).length := by
      rw [List.length_cons, Nat.add_comm, UInt64.ofNat_add, ← UInt64.add_assoc]
      rfl
    rw [set_events, hevs, hnext, hset, hcount] at hs
    rw [hget] at hpoll
    exact ⟨_,(Does.ask (call_process hB s ev)).bind ((Does.ask hpoll).bind hs),congrArg (ev :: ·) hdel,hover⟩

end Demos

/-- A `BTreeBook` never panics. -/
theorem exists_topAfter (evs : List BookEvent) : ∃ t, topAfter BTreeBook evs = some t := by
  have hreplay : ∀ b : BTreeBook, ∃ book, replay b evs = some book := by
    induction evs with
    | nil => exact fun b => ⟨b,rfl⟩
    | cons ev evs ih => exact fun b => ih (b.apply ev)
  obtain ⟨book,hbook⟩ := hreplay default
  unfold topAfter
  rw [hbook]
  exact ⟨_,rfl⟩

/-- What a program does to the specification of an engine it does to the engine. -/
theorem Does.drives {C : Capacity} {α : Type} {p : Client α} {os : List Out} {x : α} {s : Sequential}
    (h : Does C BTreeBook .new p os x s) (hb : s.events.length < 2^63) {c : Consumer} (hc : s.consumers 0 = some c) :
    ∃ (tr : (system C BTreeBook).Trace) (cfg : (system C BTreeBook).Config), System.Drives p x tr cfg ∧
      (System.returned tr).map (·.2) = os ∧ cfg.threads (.consumer 0) = .idle (.consumer c) := by
  obtain ⟨as,hs,rfl⟩ := h
  have hevents : s.events = given (as.map (·.1)) := run_events (Specification.run_of_solo hs)
  rw [hevents] at hb
  obtain ⟨tr,cfg,hd,ho,hrep⟩ := (implements (B := BTreeBook) rfl).drives hs hb
  have hidle := hrep.consumers 0
  rw [hc] at hidle
  exact ⟨tr,cfg,hd,ho,hidle⟩

/-- The results of a run. -/
def answers {C : Capacity} (tr : (system C BTreeBook).Trace) : List Out := (System.returned tr).map (·.2)

/-- There is one run of a program, and it makes one thing of it. -/
abbrev OnlyRun {C : Capacity} {α : Type} (p : Client α) (x : α) (tr : (system C BTreeBook).Trace)
    (cfg : (system C BTreeBook).Config) : Prop :=
  ∀ y tr' cfg', System.Drives p y tr' cfg' → y = x ∧ tr' = tr ∧ cfg' = cfg

theorem onlyRun_of_drives {C : Capacity} {α : Type} {p : Client α} {x : α} {tr : (system C BTreeBook).Trace}
    {cfg : (system C BTreeBook).Config} (h : System.Drives p x tr cfg) : OnlyRun p x tr cfg :=
  fun _ _ _ h' => System.Drives.unique interleaving_settled h' h

/-- A consumer that polls after every event is handed every event, in order, and never
overrun, however small the ring is: the first demo counts the length of its corpus. -/
theorem keepingUp_delivers (C : Capacity) {corpus : List BookEvent} (hb : corpus.length < 2^63) :
    ∃ (tr : (system C BTreeBook).Trace) (cfg : (system C BTreeBook).Config),
      System.Drives (keepingUp corpus) (.ofNat corpus.length) tr cfg ∧
      OnlyRun (keepingUp corpus) (.ofNat corpus.length) tr cfg ∧
      (delivered (answers tr)).map Prod.snd = corpus ∧ overruns (answers tr) = [] ∧
      cfg.threads (.consumer 0) = .idle (.consumer ⟨corpus.length,.ofNat corpus.length,0,0⟩) := by
  let s : Sequential := Sequential.set { Sequential.new.set 0 ⟨0,0,0,0⟩ with events := corpus } 0
    (Consumer.caughtUp ⟨0,0,0,0⟩ corpus)
  have hjoin : Does C BTreeBook .new (ask (.consumer 0) .consumer) _ (.joined 0) _ := .ask rfl
  obtain ⟨os,hdrive,hdel,hover⟩ := drive_does (C := C) exists_topAfter corpus (set_consumers .new 0 ⟨0,0,0,0⟩) rfl 0
  have hc : s.consumers 0 = some (Consumer.caughtUp ⟨0,0,0,0⟩ corpus) := set_consumers _ 0 _
  have hidle := call_poll_idle (C := C) (B := BTreeBook) hc rfl
  have hflush := flush_polls (.done s) nofun hidle rfl (0+.ofNat corpus.length)
  have hall := hjoin.bind (f := fun _ => drive corpus 0 >>= flush) (hdrive.bind hflush)
  have hcount : (0 : UInt64)+.ofNat corpus.length+.ofNat ([] : List Out).length = .ofNat corpus.length := by
    rw [UInt64.zero_add]
    exact UInt64.add_zero _
  have hseen : Consumer.caughtUp ⟨0,0,0,0⟩ corpus = ⟨corpus.length,.ofNat corpus.length,0,0⟩ := by
    rw [Consumer.caughtUp, UInt64.zero_add, Nat.sub_zero]
  rw [hcount] at hall
  rw [hseen] at hc
  obtain ⟨tr,cfg,hd,hos,hidle⟩ := hall.drives hb hc
  refine ⟨tr,cfg,hd,onlyRun_of_drives hd,?_,?_,hidle⟩
  · rw [answers, hos]
    simp only [delivered_append, List.map_append, hdel]
    exact List.append_nil _
  · rw [answers, hos]
    simp only [overruns_append, hover]
    rfl

theorem keepingUp_delivers_two : ∃ (tr : (system oneSlot BTreeBook).Trace) (cfg : (system oneSlot BTreeBook).Config),
    System.Drives (keepingUp [.level 0 0 .bid 7 1,.level 1 0 .ask 9 2]) 2 tr cfg ∧
    OnlyRun (keepingUp [.level 0 0 .bid 7 1,.level 1 0 .ask 9 2]) 2 tr cfg ∧
    (delivered (answers tr)).map Prod.snd = [.level 0 0 .bid 7 1,.level 1 0 .ask 9 2] ∧ overruns (answers tr) = [] ∧
    cfg.threads (.consumer 0) = .idle (.consumer ⟨2,2,0,0⟩) :=
  keepingUp_delivers oneSlot (by decide)

/-- A consumer that polls only after the corpus is handed its newest events, as many as the
ring holds. It is overrun once if there are more of them, and has then half the wrapping sum
of the touch prices of the last top. -/
theorem lapped_resyncs (C : Capacity) {corpus : List BookEvent} (hb : corpus.length < 2^63) :
    ∃ (tr : (system C BTreeBook).Trace) (cfg : (system C BTreeBook).Config) (top : TopOfBook),
      System.Drives (lapped corpus) () tr cfg ∧ OnlyRun (lapped corpus) () tr cfg ∧
      topAfter BTreeBook corpus = some top ∧
      (delivered (answers tr)).map Prod.snd = corpus.drop (corpus.length-C.slots) ∧
      overruns (answers tr) = (if corpus.length ≤ C.slots then [] else [(corpus.length-C.slots,top)]) ∧
      cfg.threads (.consumer 0) = .idle (.consumer (if corpus.length ≤ C.slots then
        ⟨corpus.length,.ofNat corpus.length,0,0⟩ else
        ⟨corpus.length,.ofNat C.slots,1,(top.bidPx+top.askPx)/2⟩)) := by
  obtain ⟨top,htop⟩ := exists_topAfter corpus
  let s : Sequential := { Sequential.new.set 0 ⟨0,0,0,0⟩ with events := corpus }
  have hstop : s.top BTreeBook = top := by
    change (topAfter BTreeBook corpus).getD default = top
    rw [htop]
    rfl
  have hc : s.consumers 0 = some ⟨0,0,0,0⟩ := set_consumers .new 0 ⟨0,0,0,0⟩
  have hjoin : Does C BTreeBook .new (ask (.consumer 0) .consumer) _ (.joined 0) _ := .ask rfl
  obtain ⟨os,hstall,hdel,hover⟩ := stall_does (C := C) exists_topAfter corpus (Sequential.new.set 0 ⟨0,0,0,0⟩)
  obtain ⟨os',c,hdrain,hdel',hcase⟩ := drain_does (C := C) (B := BTreeBook) hc (Nat.zero_le _)
  have hall := hjoin.bind (f := fun _ => stall corpus >>= fun _ => drain) (hstall.bind hdrain)
  obtain ⟨tr,cfg,hd,hos,hidle⟩ := hall.drives hb (set_consumers _ 0 _)
  have hdelivered : (delivered (answers tr)).map Prod.snd = corpus.drop (corpus.length-C.slots) := by
    rw [answers, hos]
    simp only [delivered_append, hdel, List.map_append, hdel']
    exact congrArg corpus.drop (Nat.zero_max _)
  have hoverruns : overruns (answers tr) = overruns os' := by
    rw [answers, hos]
    simp only [overruns_append, hover]
    rfl
  refine ⟨tr,cfg,top,hd,onlyRun_of_drives hd,htop,hdelivered,?_,?_⟩
  all_goals rcases hcase with ⟨rfl,hcap,hnone⟩ | ⟨rfl,hcap,hone⟩
  · rw [hoverruns, hnone, if_pos (by simpa [s] using hcap)]
  · rw [hoverruns, hone, hstop, if_neg (by simpa [s] using hcap)]
    rfl
  · rw [hidle, if_pos (by simpa [s] using hcap), Consumer.caughtUp, UInt64.zero_add]
    rfl
  · have hlt : C.slots < corpus.length := by simpa [s] using hcap
    have hrest : corpus.length-(corpus.length-C.slots) = C.slots := by omega
    rw [hidle, if_neg (by omega), hstop]
    simp [Consumer.caughtUp, Consumer.resync, s, hrest]

theorem lapped_resyncs_two : ∃ (tr : (system oneSlot BTreeBook).Trace) (cfg : (system oneSlot BTreeBook).Config),
    System.Drives (lapped [.level 0 0 .bid 7 1,.level 1 0 .ask 9 2]) () tr cfg ∧
    OnlyRun (lapped [.level 0 0 .bid 7 1,.level 1 0 .ask 9 2]) () tr cfg ∧
    (delivered (answers tr)).map Prod.snd = [.level 1 0 .ask 9 2] ∧ overruns (answers tr) = [(1,⟨7,1,9,2,2⟩)] ∧
    cfg.threads (.consumer 0) = .idle (.consumer ⟨2,1,1,8⟩) := by
  obtain ⟨tr,cfg,top,hd,honly,htop,hdel,hover,hidle⟩ :=
    @lapped_resyncs oneSlot [.level 0 0 .bid 7 1,.level 1 0 .ask 9 2] (by decide)
  cases htop
  exact ⟨tr,cfg,hd,honly,hdel,hover,hidle⟩

end LowLatencyLob.Engine
