import LowLatencyLob.Concurrency.Specification
import LowLatencyLob.Engine.EngineWrap
import LowLatencyLob.Sync.Progress

/-! What an engine is for, one call at a time.

Between calls an engine is the list of the events it has processed, and a cursor with
some counters for each consumer: a poll hands out the event at the cursor while that is
one of the newest, and a snapshot is the top of the book after the last event. -/
namespace LowLatencyLob.Engine
open Book Concurrency
open SeqLock (TopOfBook)
open LowLatencyLob.Ring (Capacity Thread Recv oneSlot)

/-- What a poll of `c` observes, where `evs` have been processed and `top` is the newest
top, and the consumer that it leaves: of the events the newest `cap` can be read. -/
def polled (cap : ℕ) (evs : List BookEvent) (top : TopOfBook) (c : Consumer) : Observed × Consumer :=
  match evs[c.cursor]? with
  | none => (.idle,c)
  | some ev =>
    if evs.length ≤ c.cursor+cap then (.event ev,{ c with cursor := c.cursor+1, seen := c.seen+1 })
    else (.overrun (evs.length-cap-c.cursor) top,{ c with
      cursor := evs.length-cap, lastMid := (top.bidPx+top.askPx)/2, resyncs := c.resyncs+1 })

/-- An engine between calls; `none` for a handle that has minted no consumer. -/
structure Sequential where
  events : List BookEvent
  consumers : ℕ → Option Consumer

/-- The newest top. -/
def Sequential.top (B : Type) [OrderBook B] [Inhabited B] (s : Sequential) : TopOfBook :=
  (topAfter B s.events).getD default

def Sequential.set (s : Sequential) (i : ℕ) (c : Consumer) : Sequential :=
  { s with consumers := Function.update s.consumers i (some c) }

theorem Sequential.set_eq {s : Sequential} {i : ℕ} {c : Consumer} (h : s.consumers i = some c) : s.set i c = s := by
  rw [set, ← h, Function.update_eq_self]

/-- What an engine around a book of kind `B` is for. -/
def specification (C : Capacity) (B : Type) [OrderBook B] [Inhabited B] : Specification Thread Call Out where
  State := Sequential
  call
    | s, .producer, .process ev => (topAfter B (s.events ++ [ev])).map fun _ =>
        (.processed,{ s with events := s.events ++ [ev] })
    | s, .consumer i, .consumer =>
      match s.consumers i with
      | none => some (.joined s.events.length,s.set i ⟨s.events.length,0,0,0⟩)
      | some _ => none
    | s, .consumer i, .poll => (s.consumers i).map fun c =>
        let (r,c') := polled C.slots s.events (s.top B) c
        (.observed c.cursor (.ok r) c'.cursor,s.set i c')
    | s, .consumer i, .snapshot => (s.consumers i).map fun _ => (.snapshot (s.top B),s)
    | _, _, _ => none

/-- A new engine. -/
def Sequential.new : Sequential := ⟨[],fun _ => none⟩

/-- The events among some calls. -/
def given (xs : List (Thread × Call)) : List BookEvent :=
  xs.filterMap fun x => match x.2 with
    | .process ev => some ev
    | _ => none

theorem given_append (xs ys : List (Thread × Call)) : given (xs ++ ys) = given xs ++ given ys :=
  List.filterMap_append ..

section Alone
variable {C : Capacity} {t : Thread} {α : Type}

/-- Code of the ring that runs alone does so in an engine. -/
theorem onRing_alone {r r' : ∀ l : Ring.Loc C W, Ring.Val l} {p : Ring.Code C W α} {x : α}
    (h : Ring.Alone t r p x r') (m : ∀ l, SeqLock.Val l) :
    ∃ as, Solo (interleaving Thread Val) t (join m r) (onRing p) as x (join m r') := by
  obtain ⟨as,hs⟩ := h
  apply Solo.lift (N := interleaving Thread Val) (join m) _ hs
  intro r₁ a ch y r₂ hx
  obtain ⟨rfl,rfl⟩ := interleaving_exec hx
  obtain ⟨z,hz,hres⟩ := join_out m r₁ a
  exact ⟨(),z,congrArg some hz,hres⟩

/-- So does code of the cell. -/
theorem onTop_alone {m m' : ∀ l, SeqLock.Val l} {p : SeqLock.Code α} {x : α}
    {as : List (Σ a : Access SeqLock.Val, a.Result)} (h : Solo (interleaving Thread SeqLock.Val) t m p as x m')
    (r : ∀ l : Ring.Loc C W, Ring.Val l) :
    ∃ as', Solo (interleaving Thread Val) t (join m r) (onTop p) as' x (join m' r) := by
  apply Solo.lift (N := interleaving Thread Val) (fun m => join m r) _ h
  intro m₁ a ch y m₂ hx
  obtain ⟨rfl,rfl⟩ := interleaving_exec hx
  obtain ⟨z,hz,hres⟩ := join_top m₁ r a
  exact ⟨(),z,congrArg some hz,hres⟩

/-- A snapshot of a cell at rest is its value. -/
theorem load_alone {v : ℕ} (hv : v &&& 1 = 0) (top : TopOfBook) :
    ∃ as, Solo (interleaving Thread SeqLock.Val) t (SeqLock.cell v top) SeqLock.load as top (SeqLock.cell v top) := by
  have hs := SeqLock.loop_even (t := t) (m := SeqLock.cell v top) hv (g := Prod.fst) 0
  exact ⟨_,hs⟩

end Alone

section Polling
variable {C : Capacity} {evs : List BookEvent} {t : Thread} {r : ∀ l : Ring.Loc C W, Ring.Val l}
  {v : ℕ}

/-- A poll that nothing interrupts. -/
theorem poll_alone (top : TopOfBook) (h : Ring.Exact (⟨evs.map pack,r,false⟩ : Ring.Shared C W))
    (hb : evs.length < 2^63)
    (hv : v &&& 1 = 0) (c : Consumer) : ∃ as, Solo (interleaving Thread Val) t (join (SeqLock.cell v top) r) (poll c)
      as ((polled C.slots evs top c).2,.ok (polled C.slots evs top c).1) (join (SeqLock.cell v top) r) := by
  have hrecv := h.tryRecv (t := t) (by simpa using hb) c.cursor
  obtain ⟨as,hs⟩ := onRing_alone hrecv (SeqLock.cell v top)
  by_cases hle : evs.length ≤ c.cursor
  · have hp : polled C.slots evs top c = (.idle,c) := by rw [polled, List.getElem?_eq_none hle]
    rw [Ring.windowed_of_le (by simpa using hle)] at hs
    rw [hp]
    exact ⟨_,hs.bind (.done (M := interleaving Thread Val) _ _)⟩
  · have hlt : c.cursor < evs.length := Nat.lt_of_not_le hle
    by_cases hcap : evs.length ≤ c.cursor+C.slots
    · have hp : polled C.slots evs top c =
          (.event evs[c.cursor],{ c with cursor := c.cursor+1, seen := c.seen+1 }) := by
        rw [polled, List.getElem?_eq_getElem hlt]
        exact if_pos hcap
      rw [Ring.windowed_of_mem (by simpa using hlt) (by simpa using hcap), List.getElem_map] at hs
      rw [hp]
      refine ⟨as ++ [],hs.bind ?_⟩
      simp only [unpack_pack]
      exact .done (M := interleaving Thread Val) _ _
    · have hp : polled C.slots evs top c = (.overrun (evs.length-C.slots-c.cursor) top,{ c with
          cursor := evs.length-C.slots, lastMid := (top.bidPx+top.askPx)/2, resyncs := c.resyncs+1 }) := by
        rw [polled, List.getElem?_eq_getElem hlt]
        exact if_neg hcap
      rw [Ring.windowed_of_lt (by simp; omega), List.length_map] at hs
      obtain ⟨bs,hload⟩ := load_alone (t := t) hv top
      obtain ⟨bs',hload'⟩ := onTop_alone hload r
      rw [hp]
      exact ⟨_,hs.bind (hload'.bind (.done (M := interleaving Thread Val) _ _))⟩

end Polling

section Refinement
variable {C : Capacity} {B : Type} [OrderBook B] [Inhabited B] {cfg : (system C B).Config} {s : Sequential}

/-- What a consumer holds. -/
def holding (B : Type) : Option Consumer → Holder B
  | none => .handle
  | some c => .consumer c

/-- A configuration between calls, and what it stands for. -/
structure Represents (cfg : (system C B).Config) (s : Sequential) : Prop where
  mem : ∃ v r, cfg.mem = join (SeqLock.cell v (s.top B)) r ∧ v &&& 1 = 0 ∧
    Ring.Exact (⟨s.events.map pack,r,false⟩ : Ring.Shared C W)
  producer : ∃ book, replay (default : B) s.events = some book ∧
    cfg.threads .producer = .idle (.producer ⟨book,.ofNat s.events.length⟩)
  consumers : ∀ i, cfg.threads (.consumer i) = .idle (holding B (s.consumers i))

theorem represents_new (h₀ : topAfter B [] = some default) : Represents (system C B).init .new where
  mem := by
    refine ⟨0,Ring.init,?_,rfl,rfl,fun p hp => absurd hp (Nat.not_lt_zero p),
      fun p hp => absurd hp (Nat.not_lt_zero p)⟩
    have htop : Sequential.new.top B = default := by
      change (topAfter B []).getD default = default
      rw [h₀]
      rfl
    rw [htop]
    funext l
    cases l with
    | top l => cases l <;> rfl
    | out l => rfl
  producer := ⟨default,rfl,rfl⟩
  consumers i := rfl

/-- A call of a consumer leaves the cell and the ring as they are. -/
theorem Represents.set (h : Represents cfg s) {i : ℕ} {c : Consumer} {m : (system C B).memory.State}
    (hm : m = cfg.mem) : Represents (cfg.advance (.consumer i) (.idle (.consumer c)) m) (s.set i c) where
  mem := by
    subst hm
    exact h.mem
  producer := by
    obtain ⟨book,hr,hp⟩ := h.producer
    exact ⟨book,hr,(System.Config.threads_set_other _ (by simp) _).trans hp⟩
  consumers j := by
    by_cases hj : j = i
    · subst j
      rw [System.Config.advance, System.Config.threads_set_self, Sequential.set]
      simp only [Function.update_self]
      rfl
    · rw [System.Config.advance, System.Config.threads_set_other _ (by simpa using hj), Sequential.set]
      simp only [Function.update_of_ne hj]
      exact h.consumers j

theorem Represents.process (h : Represents cfg s) {ev : BookEvent} {t : TopOfBook}
    (ht : topAfter B (s.events ++ [ev]) = some t) (hb : s.events.length+1 < 2^63) :
    ∃ l m, System.Completes cfg .producer (.process ev) l .processed m ∧
      Represents (cfg.advance .producer (.idle l) m) { s with events := s.events ++ [ev] } := by
  obtain ⟨v,r,hm,hv,hexact⟩ := h.mem
  obtain ⟨book,hr,hp⟩ := h.producer
  obtain ⟨book',hr',htop⟩ := Option.bind_eq_some_iff.mp ht
  have happly : OrderBook.apply book ev = some book' := (replay_concat hr ev).symm.trans hr'
  have hstamp : (UInt64.ofNat s.events.length)+1 = .ofNat (s.events ++ [ev]).length := by
    rw [List.length_append, List.length_singleton, UInt64.ofNat_add]
    rfl
  obtain ⟨r',hpush,hexact'⟩ := hexact.push (t := .producer) (by rw [List.length_map]; omega) (pack ev)
  obtain ⟨as,hs⟩ := store_runs_alone v t (s.top B) r
  obtain ⟨bs,hb'⟩ := onRing_alone hpush (SeqLock.cell ((v+2) % 2^32) t)
  have hcode : (object C B).code (.producer ⟨book,.ofNat s.events.length⟩) (.process ev) = some
      (onTop (SeqLock.store t) >>= fun _ => onRing (Ring.push C (pack ev)) >>= fun _ =>
        pure (.producer ⟨book',.ofNat (s.events ++ [ev]).length⟩,.processed)) := by
    simp only [Engine.process, happly, Option.bind_some, hstamp, htop, Option.map_some, Program.bind_assoc]
    rfl
  have hsolo := hs.bind (f := fun _ => onRing (Ring.push C (pack ev)) >>= fun _ =>
    pure ((.producer ⟨book',.ofNat (s.events ++ [ev]).length⟩ : Holder B),Out.processed))
    (hb'.map fun _ => ((.producer ⟨book',.ofNat (s.events ++ [ev]).length⟩ : Holder B),Out.processed))
  rw [← hm] at hsolo
  refine ⟨_,_,System.completes_of_solo interleaving_settled hp hcode hsolo,?_,?_,?_⟩
  · refine ⟨(v+2) % 2^32,r',?_,?_,?_⟩
    · change join _ r' = join (SeqLock.cell _ ((topAfter B (s.events ++ [ev])).getD default)) r'
      rw [ht]
      rfl
    · rw [Nat.and_one_is_mod] at hv ⊢
      omega
    · rw [List.map_append]
      exact hexact'
  · exact ⟨book',hr',System.Config.threads_set_self _ _ _⟩
  · intro j
    exact (System.Config.threads_set_other _ (by simp) _).trans (h.consumers j)

theorem Represents.join (h : Represents cfg s) {i : ℕ} (hi : s.consumers i = none) :
    System.Completes cfg (.consumer i) .consumer (.consumer ⟨s.events.length,0,0,0⟩)
      (.joined s.events.length) cfg.mem := by
  obtain ⟨v,r,hm,_,hexact⟩ := h.mem
  have hidle := h.consumers i
  rw [hi] at hidle
  have hw : cfg.mem (.out .write) = s.events.length := by
    rw [hm]
    exact hexact.write_eq.trans (List.length_map _)
  have hsolo : Solo (interleaving Thread Val) (.consumer i) cfg.mem
      (consumer >>= fun c => pure ((.consumer c : Holder B),Out.joined c.cursor)) _
      (.consumer ⟨cfg.mem (.out .write),0,0,0⟩,.joined (cfg.mem (.out .write))) cfg.mem :=
    .access () rfl (.done _ _)
  rw [hw] at hsolo
  exact System.completes_of_solo interleaving_settled hidle rfl hsolo

theorem Represents.poll (h : Represents cfg s) (hb : s.events.length < 2^63) {i : ℕ} {c : Consumer}
    (hi : s.consumers i = some c) :
    System.Completes cfg (.consumer i) .poll (.consumer (polled C.slots s.events (s.top B) c).2)
      (.observed c.cursor (.ok (polled C.slots s.events (s.top B) c).1)
        (polled C.slots s.events (s.top B) c).2.cursor) cfg.mem := by
  obtain ⟨v,r,hm,hv,hexact⟩ := h.mem
  have hidle := h.consumers i
  rw [hi] at hidle
  obtain ⟨as,hs⟩ := poll_alone (t := .consumer i) (s.top B) hexact hb hv c
  have hsolo := hs.map fun x => ((.consumer x.1 : Holder B),Out.observed c.cursor x.2 x.1.cursor)
  rw [← hm] at hsolo
  exact System.completes_of_solo interleaving_settled hidle rfl hsolo

theorem Represents.snapshot (h : Represents cfg s) {i : ℕ} {c : Consumer} (hi : s.consumers i = some c) :
    System.Completes cfg (.consumer i) .snapshot (.consumer c) (.snapshot (s.top B)) cfg.mem := by
  obtain ⟨v,r,hm,hv,_⟩ := h.mem
  have hidle := h.consumers i
  rw [hi] at hidle
  obtain ⟨as,hload⟩ := load_alone (t := .consumer i) hv (s.top B)
  obtain ⟨as',hs⟩ := onTop_alone hload r
  have hsolo := hs.map fun t => ((.consumer c : Holder B),Out.snapshot t)
  rw [← hm] at hsolo
  exact System.completes_of_solo interleaving_settled hidle rfl hsolo

theorem call_events {s s' : Sequential} {t : Thread} {x : Call} {o : Out}
    (h : (specification C B).call s t x = some (o,s')) : s'.events = s.events ++ given [(t,x)] := by
  cases t with
  | producer =>
    cases x with
    | process ev =>
      obtain ⟨_,_,he⟩ := Option.map_eq_some_iff.mp h
      cases he
      rfl
    | _ => cases h
  | consumer i =>
    cases x with
    | process ev => cases h
    | consumer =>
      change (match s.consumers i with
        | none => some (Out.joined s.events.length,s.set i ⟨s.events.length,0,0,0⟩)
        | some _ => none) = some (o,s') at h
      split at h
      · cases h
        exact (List.append_nil _).symm
      · cases h
    | _ =>
      obtain ⟨_,_,he⟩ := Option.map_eq_some_iff.mp h
      cases he
      exact (List.append_nil _).symm

theorem run_events {s s' : Sequential} {xs : List (Thread × Call)} {os : List (Thread × Out)}
    (h : (specification C B).run s xs = some (os,s')) : s'.events = s.events ++ given xs := by
  induction xs generalizing s os with
  | nil =>
    cases h
    exact (List.append_nil _).symm
  | cons y xs ih =>
    obtain ⟨o,s₁,os₁,hc,hr,rfl⟩ := Specification.run_cons_iff.mp h
    have hgiven : given (y :: xs) = given [y] ++ given xs := given_append [y] xs
    rw [ih hr, call_events hc, List.append_assoc, hgiven]

/-- An engine implements its specification, for fewer than `2^63` events. -/
theorem implements (h₀ : topAfter B [] = some default) : System.Implements (system C B) (specification C B)
    Sequential.new (fun xs => (given xs).length < 2^63) Represents where
  earlier {xs y} h := by
    rw [given_append, List.length_append] at h
    exact (Nat.le_add_right _ _).trans_lt h
  start := represents_new h₀
  allowed {c s t l x p} h hl hp := by
    cases t with
    | producer =>
      obtain ⟨book,hr,hidle⟩ := h.producer
      rw [hidle] at hl
      cases hl
      cases x with
      | process ev =>
        obtain ⟨book',t,ha,ht,_⟩ := process_code hp
        obtain ⟨_,htop⟩ := topAfter_append hr rfl ha ht
        exact ⟨_,_,by change (topAfter B (s.events ++ [ev])).map _ = _; rw [htop]; rfl⟩
      | _ => cases hp
    | consumer i =>
      rw [h.consumers i] at hl
      cases hi : s.consumers i with
      | none =>
        rw [hi] at hl
        cases hl
        cases x with
        | consumer =>
          refine ⟨.joined s.events.length,s.set i ⟨s.events.length,0,0,0⟩,?_⟩
          change (match s.consumers i with | none => _ | some _ => none) = _
          rw [hi]
          rfl
        | _ => cases hp
      | some c =>
        rw [hi] at hl
        cases hl
        cases x with
        | poll => exact ⟨_,_,by change (s.consumers i).map _ = _; rw [hi]; rfl⟩
        | snapshot => exact ⟨_,_,by change (s.consumers i).map _ = _; rw [hi]; rfl⟩
        | _ => cases hp
  step {xs os c s t x o s'} hr hok h hc := by
    have hev : s.events = given xs := run_events hr
    rw [given_append, List.length_append, ← hev] at hok
    cases t with
    | producer =>
      cases x with
      | process ev =>
        obtain ⟨t,ht,he⟩ := Option.map_eq_some_iff.mp hc
        cases he
        exact h.process ht hok
      | _ => cases hc
    | consumer i =>
      have hb : s.events.length < 2^63 := (Nat.le_add_right _ _).trans_lt hok
      cases x with
      | process ev => cases hc
      | consumer =>
        change (match s.consumers i with
          | none => some (Out.joined s.events.length,s.set i ⟨s.events.length,0,0,0⟩)
          | some _ => none) = some (o,s') at hc
        split at hc
        · rename_i hi
          cases hc
          exact ⟨_,_,h.join hi,h.set rfl⟩
        · cases hc
      | poll =>
        obtain ⟨k,hi,he⟩ := Option.map_eq_some_iff.mp hc
        cases he
        exact ⟨_,_,h.poll hb hi,h.set rfl⟩
      | snapshot =>
        obtain ⟨k,hi,he⟩ := Option.map_eq_some_iff.mp hc
        cases he
        refine ⟨_,_,h.snapshot hi,?_⟩
        have hset := h.set (i := i) (c := k) rfl
        rwa [Sequential.set_eq hi] at hset

end Refinement

/-- Made one at a time, any calls of any threads return just what the specification says:
the serial runs of an engine are the runs of its specification. -/
theorem serial_exact {C : Capacity} {B : Type} [OrderBook B] [Inhabited B] (h₀ : topAfter B [] = some default)
    {xs : List (Thread × Call)} (hb : (given xs).length < 2^63) (os : List (Thread × Out)) :
    (∃ tr cfg, System.Serial [] (system C B).init tr cfg ∧ System.made tr = xs ∧ System.returned tr = os) ↔
      ∃ s, (specification C B).run .new xs = some (os,s) :=
  (implements h₀).serial_iff hb

/-- A consumer joins a ring of one slot, and polls after one event, and after two more. -/
theorem serial_exact_lapped : ∃ tr cfg, System.Serial [] (system oneSlot BTreeBook).init tr cfg ∧
    System.made tr = [(.consumer 0,.consumer),(.producer,.process (.level 0 0 .bid 7 1)),(.consumer 0,.poll),
      (.producer,.process (.level 1 0 .bid 7 2)),(.producer,.process (.level 2 0 .bid 7 3)),(.consumer 0,.poll)] ∧
    System.returned tr = [(.consumer 0,.joined 0),(.producer,.processed),
      (.consumer 0,.observed 0 (.ok (.event (.level 0 0 .bid 7 1))) 1),(.producer,.processed),
      (.producer,.processed),(.consumer 0,.observed 1 (.ok (.overrun 1 ⟨7,3,0,0,3⟩)) 2)] :=
  (serial_exact rfl (by decide) _).mpr ⟨_,rfl⟩

end LowLatencyLob.Engine
