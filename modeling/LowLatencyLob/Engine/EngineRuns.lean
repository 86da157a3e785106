import LowLatencyLob.Engine.EngineTrace

/-! Whole runs of an engine under interleaving semantics: its producer processes events
while any number of consumers join, poll and take snapshots.

The producer stores a top before it pushes the event, and a consumer reads the ring
before it loads a snapshot; so a snapshot is never older than what came before it. -/
namespace LowLatencyLob.Engine
open Book Concurrency
open SeqLock (TopOfBook)
open LowLatencyLob.Ring (Capacity Thread)

/-- One producer and any number of consumers around a new engine. -/
abbrev system (C : Capacity) (B : Type) [OrderBook B] [Inhabited B] :
    System Thread (@Access.Result (Loc C) Val) where
  memory := interleaving Thread Val
  object := object C B
  mem₀ := new
  local₀ := holder B

section Parts
variable {C : Capacity} {B : Type} [OrderBook B] [Inhabited B]

/-- The cell and its past at a moment of a run. -/
def cell (s : (system C B).Shared) : SeqLock.Shared :=
  ⟨values B (processed s.1),begun s.1,completed s.1,fun l => s.2 (.top l)⟩

/-- The ring and its log at a moment of a run. -/
def ring (s : (system C B).Shared) : Ring.Shared C W :=
  ⟨(processed s.1).map pack,fun l => s.2 (.out l),midPush s.1⟩

/-- What a consumer may rely on while others act. -/
structure Later (s s' : (system C B).Shared) : Prop where
  events : processed s.1 <+: processed s'.1
  cell : (cell s).Later (cell s')
  ring : (ring s).Later (ring s')

theorem Later.refl (s : (system C B).Shared) : Later s s := ⟨List.prefix_rfl,.refl _,.refl _⟩

theorem Later.trans {s₁ s₂ s₃ : (system C B).Shared} (h : Later s₁ s₂) (h' : Later s₂ s₃) :
    Later s₁ s₃ :=
  ⟨h.events.trans h'.events,h.cell.trans h'.cell,h.ring.trans h'.ring⟩

/-- Nothing that consumers can see has changed. -/
structure Quiet (s s' : (system C B).Shared) : Prop where
  events : processed s'.1 = processed s.1
  cell : Engine.cell s' = Engine.cell s
  ring : Engine.ring s' = Engine.ring s

theorem Quiet.later {s s' : (system C B).Shared} (h : Quiet s s') : Later s s' :=
  ⟨h.events ▸ List.prefix_rfl,h.cell ▸ .refl _,h.ring ▸ .refl _⟩

theorem Quiet.trans {s₁ s₂ s₃ : (system C B).Shared} (h : Quiet s₁ s₂) (h' : Quiet s₂ s₃) :
    Quiet s₁ s₃ :=
  ⟨h'.events.trans h.events,h'.cell.trans h.cell,h'.ring.trans h.ring⟩

section Accesses
variable {t : Thread} {s s' : (system C B).Shared}

/-- An access of the cell acts on the cell alone. -/
theorem cell_top {a : Access SeqLock.Val} {r : (topAccess (C := C) a).Result} {ch : Unit}
    (hx : (interleaving Thread Val).exec t s.2 (topAccess a) ch = some (r,s'.2))
    (hs : s'.1 = .access t (topAccess a) r :: s.1) :
    topResult a r = (a.act (cell s).mem).1 ∧ cell s' = (cell s).act a ∧
      processed s'.1 = processed s.1 ∧ ring s' = ring s := by
  obtain ⟨rfl,hm⟩ := interleaving_exec hx
  obtain ⟨tr',m'⟩ := s'
  obtain rfl : tr' = _ := hs
  obtain rfl : m' = _ := hm
  refine ⟨by cases a <;> rfl,?_,rfl,?_⟩
  · simp only [cell, SeqLock.Shared.act, SeqLock.Shared.mk.injEq]
    refine ⟨rfl,begun_top ..,completed_top ..,?_⟩
    cases a with
    | load l o => rfl
    | fence o => rfl
    | store l v o =>
      funext l'
      by_cases h : l' = l
      · subst l'
        simp [topAccess, Access.act]
      · simp [topAccess, Access.act, h]
  · simp only [ring, Ring.Shared.mk.injEq]
    refine ⟨rfl,?_,midPush_top ..⟩
    cases a with
    | load l o => rfl
    | fence o => rfl
    | store l v o =>
      funext l'
      simp [topAccess, Access.act]

/-- An access of the ring acts on the ring alone. -/
theorem ring_out {a : Access (Ring.Val (C := C) (W := W))} {r : (outAccess a).Result} {ch : Unit}
    (hx : (interleaving Thread Val).exec t s.2 (outAccess a) ch = some (r,s'.2))
    (hs : s'.1 = .access t (outAccess a) r :: s.1) :
    outResult a r = (a.act (ring s).mem).1 ∧ ring s' = (ring s).act a ∧
      processed s'.1 = processed s.1 ∧ cell s' = cell s := by
  obtain ⟨rfl,hm⟩ := interleaving_exec hx
  obtain ⟨tr',m'⟩ := s'
  obtain rfl : tr' = _ := hs
  obtain rfl : m' = _ := hm
  refine ⟨by cases a <;> rfl,?_,rfl,?_⟩
  · simp only [ring, Ring.Shared.act, Ring.Shared.mk.injEq]
    refine ⟨rfl,?_,midPush_out ..⟩
    cases a with
    | load l o => rfl
    | fence o => rfl
    | store l v o =>
      funext l'
      by_cases h : l' = l
      · subst l'
        simp [outAccess, Access.act]
      · simp [outAccess, Access.act, h]
  · simp only [cell, SeqLock.Shared.mk.injEq]
    refine ⟨rfl,begun_out ..,completed_out ..,?_⟩
    cases a with
    | load l o => rfl
    | fence o => rfl
    | store l v o =>
      funext l'
      simp [outAccess, Access.act]

end Accesses
/-- What a consumer heard is true: a snapshot is the top its index names, unless `2^31`
events hid behind one version; an event is the one processed at the cursor, and its top
was stored before; and the snapshot of an overrun is past every event still to be read. -/
structure Heard (s : (system C B).Shared) (x : Out × SeqLock.Marks) : Prop where
  snapshot : ∀ t, x.1.taken = some t → x.2.index ≤ completed s.1 ∧ 2^31 ∣ overlap x ∧
    (overlap x = 0 → (values B (processed s.1))[x.2.index]? = some t)
  observed : ∀ c r c', x.1 = .observed c r c' → ∃ o, r = .ok o ∧
    match o with
    | .event ev => (processed s.1)[c]? = some ev ∧ c+1 ≤ completed s.1
    | .overrun _ _ => c'+C.slots ≤ x.2.index
    | .idle => True

theorem Heard.later {s s' : (system C B).Shared} {x : Out × SeqLock.Marks} (h : Heard s x)
    (hs : Later s s') : Heard s' x := by
  have hle : completed s.1 ≤ completed s'.1 := hs.cell.completed_le
  constructor
  · intro t ht
    obtain ⟨hi,hd,hv⟩ := h.snapshot t ht
    exact ⟨hi.trans hle,hd,fun hz => hs.cell.getElem? (hv hz)⟩
  · intro c r c' hx
    obtain ⟨o,hr,ho⟩ := h.observed c r c' hx
    refine ⟨o,hr,?_⟩
    cases o with
    | event ev => exact ⟨getElem?_of_grows hs.events ho.1,ho.2.trans hle⟩
    | overrun k t => exact ho
    | idle => trivial

/-- A snapshot reflects an event that its consumer received before. -/
def Reflects (x y : Out × SeqLock.Marks) : Prop :=
  ∀ c ev c' t, x.1 = .observed c (.ok (.event ev)) c' → y.1.taken = some t → c+1 ≤ y.2.index

/-- The ring never runs ahead of the cell, the book never panicked, and what the consumers
heard is true. -/
structure Invariant (s : (system C B).Shared) : Prop where
  cell : (cell s).Good
  ring : (ring s).Good
  behind : (Engine.ring s).write ≤ completed s.1
  tops : ∀ pre, pre <+: processed s.1 → ∃ t, topAfter B pre = some t
  heard : ∀ i, ∀ x ∈ told i s.1, Heard s x
  reflects : ∀ i, (told i s.1).Pairwise Reflects

def Rely : Thread → (system C B).Shared → (system C B).Shared → Prop
  | .producer, s, s' => Quiet s s'
  | .consumer i, s, s' => Later s s' ∧ Same i s.1 s'.1

/-- Where a thread stands between its calls. -/
def Rest : Thread → Holder B → (system C B).Shared → Prop
  | .producer, .producer p, s => replay (default : B) (processed s.1) = some p.book ∧
      p.stamp = .ofNat (processed s.1).length ∧ begun s.1 = (processed s.1).length ∧
      completed s.1 = (processed s.1).length ∧ (ring s).write = (processed s.1).length
  | .consumer _, .handle, _ => True
  | .consumer _, .consumer c, s => c.cursor ≤ (ring s).write
  | _, _, _ => False

end Parts

/-- Runs of fewer than `2^64` events, so that neither the stamps nor the positions wrap. -/
def contract (C : Capacity) (B : Type) [OrderBook B] [Inhabited B] :
    System.Contract (system C B) where
  admissible s := (processed s.1).length < 2^64
  invariant := Invariant
  rely := Rely
  rest := Rest
  rely_refl t s := by
    cases t with
    | producer => exact ⟨rfl,rfl,rfl⟩
    | consumer i => exact ⟨.refl _,.refl i _⟩
  rely_trans {t s₁ s₂ s₃} h h' := by
    cases t with
    | producer => exact h.trans h'
    | consumer i => exact ⟨h.1.trans h'.1,h.2.trans h'.2⟩

section Steps
variable {C : Capacity} {B : Type} [OrderBook B] [Inhabited B] {s s' : (system C B).Shared}

/-- A step of the producer that consumers see as `Later`. -/
theorem keeps_producer {e : EngineEvent C} (he : e.thread = .producer) (hs : s'.1 = e :: s.1)
    (hl : Later s s') (hb : Invariant s → (ring s').write ≤ completed s'.1)
    (ht : Invariant s → ∀ pre, pre <+: processed s'.1 → ∃ t, topAfter B pre = some t) :
    (contract C B).Keeps .producer s s' := by
  have hsame : ∀ i, Same i s.1 s'.1 := fun i => hs ▸ .other (by simp [he]) _
  constructor
  · intro h
    refine ⟨hl.cell.good h.cell,hl.ring.good h.ring,hb h,ht h,?_,?_⟩
    · intro i x hx
      rw [(hsame i).told_eq] at hx
      exact (h.heard i x hx).later hl
    · intro i
      rw [(hsame i).told_eq]
      exact h.reflects i
  · intro u hu
    cases u with
    | producer => exact absurd rfl hu
    | consumer i => exact ⟨hl,hsame i⟩

/-- A step of a consumer leaves the cell and the ring alone; it may tell it something. -/
theorem keeps_consumer {i : ℕ} {e : EngineEvent C} (he : e.thread = .consumer i)
    (hs : s'.1 = e :: s.1) (hq : Quiet s s')
    (ht : Invariant s → (∀ x ∈ told i s'.1, Heard s x) ∧ (told i s'.1).Pairwise Reflects) :
    (contract C B).Keeps (.consumer i) s s' := by
  have hsame : ∀ j, j ≠ i → Same j s.1 s'.1 := fun j hj => hs ▸ .other (by simp [he, hj.symm]) _
  have hcompleted : completed s'.1 = completed s.1 := congrArg SeqLock.Shared.completed hq.cell
  constructor
  · intro h
    refine ⟨hq.cell ▸ h.cell,hq.ring ▸ h.ring,?_,hq.events ▸ h.tops,fun j => ?_,fun j => ?_⟩
    · rw [hq.ring, hcompleted]
      exact h.behind
    · intro x hx
      by_cases hj : j = i
      · subst j
        exact ((ht h).1 x hx).later hq.later
      · rw [(hsame j hj).told_eq] at hx
        exact (h.heard j x hx).later hq.later
    · by_cases hj : j = i
      · subst j
        exact (ht h).2
      · rw [(hsame j hj).told_eq]
        exact h.reflects j
  · intro u hu
    cases u with
    | producer => exact hq
    | consumer j => exact ⟨hq.later,hsame j fun hj => hu (hj ▸ rfl)⟩

/-- A consumer that only makes an access, or a call, has heard nothing new. -/
theorem keeps_listening {i : ℕ} {e : EngineEvent C} (he : e.thread = .consumer i)
    (hs : s'.1 = e :: s.1) (hq : Quiet s s') (ht : told i s'.1 = told i s.1) :
    (contract C B).Keeps (.consumer i) s s' := by
  apply keeps_consumer he hs hq
  intro h
  rw [ht]
  exact ⟨h.heard i,h.reflects i⟩

theorem keeps_call {i : ℕ} {x : Call} (hx : ∀ ev, x ≠ .process ev) :
    (contract C B).Keeps (.consumer i) s (.call (.consumer i) x :: s.1,s.2) := by
  have hev : processed (.call (.consumer i) x :: s.1) = processed s.1 :=
    processed_cons (by rintro t ev ⟨⟩; exact hx ev rfl) s.1
  refine keeps_listening (e := .call (.consumer i) x) rfl rfl ⟨hev,?_,?_⟩ rfl
  · simp only [cell, hev]
    rfl
  · simp only [ring, hev]
    rfl

end Steps

section Producing
variable {C : Capacity} {B : Type} [OrderBook B] [Inhabited B] {s : (system C B).Shared} {α : Type}

/-- The writer's code keeps its promises in an engine, whose ring it leaves alone. -/
theorem writer_runs {p : SeqLock.Code α} {Q : α → SeqLock.Shared → Prop} {ringAt : Ring.Shared C W}
    {evs : List BookEvent} (h : Meets SeqLock.writerEnv p Q (cell s))
    (hs : ring s = ringAt ∧ processed s.1 = evs) :
    Meets ((contract C B).env .producer) (onTop p)
      (fun x s => Q x (cell s) ∧ ring s = ringAt ∧ processed s.1 = evs) s := by
  apply Meets.lift_within cell _ _ _ _ _ h hs
  · intro s s' hP hr
    exact ⟨hr.1.ring.trans hP.1,hr.1.events.trans hP.2⟩
  · rintro s a r s' hP ⟨⟨ch,hx⟩,htr,_⟩
    obtain ⟨_,_,hev,hring⟩ := cell_top hx htr
    exact ⟨hring.trans hP.1,hev.trans hP.2⟩
  · intro s s' hr
    exact hr.1.cell
  · rintro s a r s' ⟨⟨ch,hx⟩,htr,_⟩
    obtain ⟨hr,hcell,_⟩ := cell_top hx htr
    exact ⟨hr,hcell⟩
  · rintro s a r s' _ ⟨⟨ch,hx⟩,htr,_⟩ hl
    obtain ⟨_,_,hev,hring⟩ := cell_top hx htr
    refine keeps_producer rfl htr ⟨hev ▸ List.prefix_rfl,hl,hring ▸ .refl _⟩ (fun hi => ?_) ?_
    · rw [hring]
      exact hi.behind.trans hl.completed_le
    · rw [hev]
      exact Invariant.tops

/-- The push keeps its promises in an engine, whose cell it leaves alone; the tops of all
records in the log are stored by then. -/
theorem push_runs {p : Ring.Code C W α} {Q : α → Ring.Shared C W → Prop} {cellAt : SeqLock.Shared}
    {evs : List BookEvent} (h : Meets (Ring.producerEnv C W) p Q (ring s))
    (hs : cell s = cellAt ∧ processed s.1 = evs) (hc : evs.length ≤ cellAt.completed) :
    Meets ((contract C B).env .producer) (onRing p)
      (fun x s => Q x (ring s) ∧ cell s = cellAt ∧ processed s.1 = evs) s := by
  apply Meets.lift_within ring _ _ _ _ _ h hs
  · intro s s' hP hr
    exact ⟨hr.1.cell.trans hP.1,hr.1.events.trans hP.2⟩
  · rintro s a r s' hP ⟨⟨ch,hx⟩,htr,_⟩
    obtain ⟨_,_,hev,hcell⟩ := ring_out hx htr
    exact ⟨hcell.trans hP.1,hev.trans hP.2⟩
  · intro s s' hr
    exact hr.1.ring
  · rintro s a r s' ⟨⟨ch,hx⟩,htr,_⟩
    obtain ⟨hr,hring,_⟩ := ring_out hx htr
    exact ⟨hr,hring⟩
  · rintro s a r s' hP ⟨⟨ch,hx⟩,htr,_⟩ hl
    obtain ⟨_,_,hev,hcell⟩ := ring_out hx htr
    refine keeps_producer rfl htr ⟨hev ▸ List.prefix_rfl,hcell ▸ .refl _,hl⟩ (fun hi => ?_) ?_
    · have hw : (ring s').write ≤ (processed s'.1).length := by
        simpa [ring] using (hl.good hi.ring).written
      have hcomp : completed s'.1 = cellAt.completed := by
        rw [← hP.1, ← hcell]
        rfl
      rw [hev, hP.2] at hw
      omega
    · rw [hev]
      exact Invariant.tops

omit [Inhabited B] in
/-- What a call of `process` runs, for a book that takes the event. -/
theorem process_code {p : Producer B} {ev : BookEvent}
    {prog : Program (@Access.Result (Loc C) Val) (Holder B × Out)}
    (h : (object C B).code (.producer p) (.process ev) = some prog) :
    ∃ book t, OrderBook.apply p.book ev = some book ∧ topOf book (p.stamp+1) = some t ∧
      prog = onTop (SeqLock.store t) >>= fun _ => onRing (Ring.push C (pack ev)) >>= fun _ =>
        pure (.producer ⟨book,p.stamp+1⟩,.processed) := by
  obtain ⟨code,hcode,rfl⟩ := Option.map_eq_some_iff.mp h
  obtain ⟨book,hbook,hcode⟩ := Option.bind_eq_some_iff.mp hcode
  obtain ⟨t,ht,rfl⟩ := Option.map_eq_some_iff.mp hcode
  refine ⟨book,t,hbook,ht,?_⟩
  simp only [Program.bind_assoc]
  rfl

/-- A book that takes one more event has one more top. -/
theorem topAfter_append {evs : List BookEvent} {ev : BookEvent} {b book : B} {stamp : UInt64}
    {t : TopOfBook} (hb : replay (default : B) evs = some b) (hs : stamp = .ofNat evs.length)
    (ha : OrderBook.apply b ev = some book) (ht : topOf book (stamp+1) = some t) :
    replay (default : B) (evs ++ [ev]) = some book ∧ topAfter B (evs ++ [ev]) = some t := by
  have hr : replay (default : B) (evs ++ [ev]) = some book := (replay_concat hb ev).trans ha
  refine ⟨hr,?_⟩
  unfold topAfter
  rw [hr, Option.bind_some, List.length_append, List.length_singleton, ← ht, hs, UInt64.ofNat_add]
  rfl

/-- A call of `process` adds an event to the log, and the top after it to the tops. -/
theorem process_later {ev : BookEvent} {t : TopOfBook} (htop : topAfter B (processed s.1 ++ [ev]) = some t) :
    Later s (.call .producer (.process ev) :: s.1,s.2) := by
  have hev : processed (.call .producer (.process ev) :: s.1) = processed s.1 ++ [ev] := rfl
  refine ⟨List.prefix_append _ _,?_,?_⟩
  · have happ := SeqLock.Shared.Later.append (cell s) [t]
    have hvals : values B (processed s.1 ++ [ev]) = values B (processed s.1) ++ [t] := by
      rw [values_append, htop]
      rfl
    simp only [cell, ← hvals] at happ
    exact happ
  · have happ := Ring.Shared.Later.append (ring s) [pack ev]
    simp only [ring, hev, List.map_append, List.map_cons, List.map_nil]
    exact happ

theorem keeps_process {ev : BookEvent} {t : TopOfBook} (htop : topAfter B (processed s.1 ++ [ev]) = some t) :
    (contract C B).Keeps .producer s (.call .producer (.process ev) :: s.1,s.2) := by
  refine keeps_producer rfl rfl (process_later htop) Invariant.behind ?_
  intro h pre hpre
  have hev : processed (.call .producer (.process ev) :: s.1) = processed s.1 ++ [ev] := rfl
  rw [hev, List.prefix_concat_iff] at hpre
  rcases hpre with rfl | hpre
  · exact ⟨t,htop⟩
  · exact h.tops pre hpre

/-- The producer rests again when the next event is stored and pushed. -/
theorem rest_next {p : Producer B} {ev : BookEvent} {evs : List BookEvent} {book : B}
    (hev : processed s.1 = evs ++ [ev]) (hreplay : replay (default : B) (evs ++ [ev]) = some book)
    (hstamp : p.stamp = .ofNat evs.length) (hb : begun s.1 = evs.length+1) (hc : completed s.1 = evs.length+1)
    (hw : (ring s).write = evs.length+1) : Rest .producer (.producer ⟨book,p.stamp+1⟩) s := by
  have hlen : (processed s.1).length = evs.length+1 := by
    rw [hev, List.length_append, List.length_singleton]
  refine ⟨hev ▸ hreplay,?_,hb.trans hlen.symm,hc.trans hlen.symm,hw.trans hlen.symm⟩
  change p.stamp+1 = .ofNat (processed s.1).length
  rw [hlen, hstamp, UInt64.ofNat_add]
  rfl

theorem process_call {p : Producer B} {ev : BookEvent}
    {prog : Program (@Access.Result (Loc C) Val) (Holder B × Out)} (hi : Invariant s)
    (hrest : Rest .producer (.producer p) s)
    (h : (object C B).code (.producer p) (.process ev) = some prog)
    (ha : (processed (.call .producer (.process ev) :: s.1)).length < 2^64) :
    (contract C B).Keeps .producer s (.call .producer (.process ev) :: s.1,s.2) ∧
      Meets ((contract C B).env .producer) prog ((contract C B).Returns .producer)
        (.call .producer (.process ev) :: s.1,s.2) := by
  obtain ⟨book,t,hbook,ht,rfl⟩ := process_code h
  obtain ⟨hreplay,hstamp,hbegun,hcompleted,hwrite⟩ := hrest
  obtain ⟨hreplay',htop⟩ := topAfter_append hreplay hstamp hbook ht
  refine ⟨keeps_process htop,?_⟩
  have hlater := process_later (C := C) htop
  have hev : processed (.call .producer (.process ev) :: s.1) = processed s.1 ++ [ev] := rfl
  rw [hev, List.length_append, List.length_singleton] at ha
  have hnext : (cell (.call .producer (.process ev) :: s.1,s.2)).values[begun s.1+1]? = some t := by
    change (values B (processed s.1 ++ [ev]))[begun s.1+1]? = some t
    rw [values_append, htop, hbegun, ← length_values B]
    exact List.getElem?_concat_length
  have hlog : (ring (.call .producer (.process ev) :: s.1,s.2)).log[(ring s).write]? = some (pack ev) := by
    change ((processed s.1 ++ [ev]).map pack)[(ring s).write]? = some (pack ev)
    rw [hwrite, List.getElem?_map]
    simp
  -- First the top is stored, then the event is pushed.
  have hstore := SeqLock.store_meets (hlater.cell.good hi.cell) (hbegun.trans hcompleted.symm) hnext
  apply Meets.bind
  refine (writer_runs hstore ⟨rfl,rfl⟩).mono ?_
  rintro _ s₁ ⟨⟨_,_,hb₁,hc₁⟩,hring₁,hev₁⟩
  have hlog₁ : (ring s₁).log[(ring s₁).write]? = some (pack ev) := by
    rw [hring₁]
    exact hlog
  have hw₁ : (ring s₁).write = (processed s.1).length := by
    rw [hring₁]
    exact hwrite
  have hpush := Ring.push_meets (hring₁ ▸ hlater.ring.good hi.ring) hlog₁ (by omega)
  have hlen : (processed s₁.1).length ≤ (cell s₁).completed := by
    rw [hc₁, hev₁, hev, List.length_append, List.length_singleton]
    change _ ≤ begun s.1+1
    omega
  apply Meets.bind
  refine (push_runs hpush ⟨rfl,rfl⟩ hlen).mono ?_
  rintro _ s₂ ⟨⟨_,_,hw₂⟩,hcell₂,hev₂⟩
  refine Meets.done fun s₃ h₃ _ => ⟨?_,?_⟩
  · exact keeps_producer rfl rfl ⟨List.prefix_rfl,.refl _,.refl _⟩ Invariant.behind Invariant.tops
  · have hq : Quiet s₂ s₃ := h₃.1
    have hev₃ : processed s₃.1 = processed s.1 ++ [ev] := by
      rw [hq.events, hev₂, hev₁]
      rfl
    have hcell₃ : cell s₃ = cell s₁ := hq.cell.trans hcell₂
    have hb₃ : begun s₃.1 = begun s.1+1 := (congrArg SeqLock.Shared.begun hcell₃).trans hb₁
    have hc₃ : completed s₃.1 = begun s.1+1 := (congrArg SeqLock.Shared.completed hcell₃).trans hc₁
    have hw₃ : (ring s₃).write = (processed s.1).length+1 := by
      rw [hq.ring, hw₂]
      omega
    rw [hbegun] at hb₃ hc₃
    exact rest_next hev₃ hreplay' hstamp hb₃ hc₃ hw₃

end Producing

section Consuming
variable {C : Capacity} {B : Type} [OrderBook B] [Inhabited B] {s : (system C B).Shared} {i : ℕ}

/-- The reader's code keeps its promises in an engine. -/
theorem reader_runs {α : Type} {p : SeqLock.Code α} {Q : α → SeqLock.Shared × SeqLock.Marks → Prop}
    (h : Meets SeqLock.readerEnv p Q (cell s,marks i s.1)) :
    Meets ((contract C B).env (.consumer i)) (onTop p) (fun x s => Q x (cell s,marks i s.1)) s := by
  apply Meets.lift (fun s => (cell s,marks i s.1)) _ _ _ h
  · intro s s' hr
    exact ⟨hr.1.1.cell,hr.1.2.marks_eq⟩
  · rintro s a r s' ⟨⟨ch,hx⟩,htr,_⟩
    obtain ⟨hr,hcell,_⟩ := cell_top hx htr
    refine ⟨hr,Prod.ext hcell ?_⟩
    simp only
    rw [htr]
    exact marks_top s.1 i a r (values B (processed s.1)) fun l => s.2 (.top l)
  · rintro s a r s' ⟨⟨ch,hx⟩,htr,_⟩ heq
    obtain ⟨_,_,hev,hring⟩ := cell_top hx htr
    exact keeps_listening rfl htr ⟨hev,heq,hring⟩ (by rw [htr]; rfl)

/-- The consumer's code of the ring keeps its promises in an engine. -/
theorem inbox_runs {α : Type} {p : Ring.Code C W α} {Q : α → Ring.Shared C W × ℕ → Prop}
    (h : Meets (Ring.consumerEnv C W) p Q (ring s,lastRead i s.1)) :
    Meets ((contract C B).env (.consumer i)) (onRing p) (fun x s => Q x (ring s,lastRead i s.1)) s := by
  apply Meets.lift (fun s => (ring s,lastRead i s.1)) _ _ _ h
  · intro s s' hr
    exact ⟨hr.1.1.ring,hr.1.2.lastRead_eq⟩
  · rintro s a r s' ⟨⟨ch,hx⟩,htr,_⟩
    obtain ⟨hr,hring,_⟩ := ring_out hx htr
    refine ⟨hr,Prod.ext hring ?_⟩
    simp only
    rw [htr]
    exact lastRead_out s.1 i a r
  · rintro s a r s' ⟨⟨ch,hx⟩,htr,_⟩ heq
    obtain ⟨_,_,hev,hcell⟩ := ring_out hx htr
    exact keeps_listening rfl htr ⟨hev,hcell,heq⟩ (by rw [htr]; rfl)

/-- While its own call runs, a consumer hears nothing and the engine only goes on. -/
theorem told_frame {α : Type} {p : Code C α} {Q : α → (system C B).Shared → Prop}
    (h : Meets ((contract C B).env (.consumer i)) p Q s) :
    Meets ((contract C B).env (.consumer i)) p
      (fun x s' => Q x s' ∧ told i s'.1 = told i s.1 ∧ Later s s') s := by
  apply Meets.frame _ _ h ⟨rfl,.refl s⟩
  · intro s₁ s₂ hP hr
    exact ⟨hr.1.2.told_eq.trans hP.1,hP.2.trans hr.1.1⟩
  · rintro s₁ a r s₂ hP ⟨_,htr,_⟩ hg
    have hq : Quiet s₁ s₂ := hg.2 .producer (by simp)
    refine ⟨?_,hP.2.trans hq.later⟩
    rw [htr]
    exact hP.1

/-- A consumer may return with what is true, once its snapshot reflects what it knows. -/
theorem consumer_returns {c : Consumer} {o : Out} (hx : Heard s (o,marks i s.1))
    (hr : ∀ x ∈ told i s.1, Reflects x (o,marks i s.1)) (hc : c.cursor ≤ (ring s).write) :
    (contract C B).Returns (.consumer i) (.consumer c,o) s := by
  intro _
  refine ⟨keeps_consumer rfl rfl ⟨rfl,rfl,rfl⟩ fun h => ⟨?_,?_⟩,hc⟩
  · intro x hm
    rw [told_ret_self] at hm
    rcases List.mem_append.mp hm with hm | hm
    · exact h.heard i x hm
    · obtain rfl := List.mem_singleton.mp hm
      exact hx
  · rw [told_ret_self]
    refine List.pairwise_append.mpr ⟨h.reflects i,by simp,?_⟩
    intro x hm y hy
    obtain rfl := List.mem_singleton.mp hy
    exact hr x hm

/-- Nothing that a consumer was told is newer than the stores completed by now. -/
theorem Invariant.reflected (h : Invariant s) {x : Out × SeqLock.Marks} (hx : x ∈ told i s.1)
    {o : Out} {m : SeqLock.Marks} (hm : completed s.1 ≤ m.index) : Reflects x (o,m) := by
  intro c ev c' t hobs _
  obtain ⟨_,ho,hev⟩ := (h.heard i x hx).observed c _ c' hobs
  cases ho
  exact hev.2.trans hm

/-- A load that begins with every event known stored, and what its consumer makes of it. -/
theorem load_returns {f : TopOfBook → Consumer × Out} (hi : Invariant s)
    (h : ∀ t s', Later s s' → SeqLock.Loaded (completed s.1) t (cell s',marks i s'.1) →
      Heard s' ((f t).2,marks i s'.1) ∧ (f t).1.cursor ≤ (ring s').write) :
    Meets ((contract C B).env (.consumer i))
      (onTop SeqLock.load >>= fun t => pure (.consumer (f t).1,(f t).2))
      ((contract C B).Returns (.consumer i)) s := by
  have hload := SeqLock.load_meets (s := (cell s,marks i s.1)) hi.cell (le_refl (completed s.1))
  apply Meets.bind
  refine (told_frame (reader_runs hload)).mono ?_
  rintro t s₁ ⟨hl,htold,hs⟩
  refine Meets.done fun s₂ h₂ => ?_
  obtain ⟨⟨hlater,hsame⟩,_⟩ := h₂
  have hl₂ : SeqLock.Loaded (completed s.1) t (cell s₂,marks i s₂.1) := by
    rw [hsame.marks_eq]
    exact hl.later hlater.cell
  obtain ⟨hx,hc⟩ := h t s₂ (hs.trans hlater) hl₂
  apply consumer_returns hx _ hc
  intro x hm
  rw [hsame.told_eq, htold] at hm
  exact hi.reflected hm hl₂.fresh

/-- The snapshot of a load that kept its promise. -/
theorem snapshot_of_loaded {n : ℕ} {t : TopOfBook} {o : Out}
    (h : SeqLock.Loaded n t (cell s,marks i s.1)) :
    (marks i s.1).index ≤ completed s.1 ∧ 2^31 ∣ overlap (o,marks i s.1) ∧
      (overlap (o,marks i s.1) = 0 → (values B (processed s.1))[(marks i s.1).index]? = some t) := by
  refine ⟨h.index_le,h.dvd,fun hz => h.value ?_⟩
  have hle := h.begun₁_le
  unfold overlap at hz
  simp only at hle hz ⊢
  omega

theorem snapshot_meets {c : Consumer} (hi : Invariant s) (hc : c.cursor ≤ (ring s).write) :
    Meets ((contract C B).env (.consumer i))
      (snapshot >>= fun t => pure (.consumer c,.snapshot t))
      ((contract C B).Returns (.consumer i)) s := by
  refine load_returns (f := fun t => (c,.snapshot t)) hi fun t s' hs hl => ?_
  refine ⟨⟨?_,by simp⟩,hc.trans hs.ring.write_le⟩
  intro t' ht
  cases ht
  exact snapshot_of_loaded hl

/-- After an overrun: the ring was read before the snapshot is loaded. -/
theorem resync_meets (c' : Consumer) {c : Consumer} {k : ℕ} {g : TopOfBook → Consumer} (hi : Invariant s)
    (hg : ∀ t, (g t).cursor = c'.cursor) (hc : c'.cursor ≤ (ring s).write)
    (hread : c'.cursor+C.slots ≤ (ring s).write) :
    Meets ((contract C B).env (.consumer i))
      (onTop SeqLock.load >>= fun t => pure
        (.consumer (g t),.observed c.cursor (.ok (.overrun k t)) (g t).cursor))
      ((contract C B).Returns (.consumer i)) s := by
  refine load_returns (f := fun t => (g t,.observed c.cursor (.ok (.overrun k t)) (g t).cursor)) hi
    fun t s' hs hl => ?_
  refine ⟨⟨?_,?_⟩,?_⟩
  · intro t' ht
    cases ht
    exact snapshot_of_loaded hl
  · rintro c₀ r c₁ ⟨⟩
    refine ⟨_,rfl,?_⟩
    have hb := hi.behind
    have hf : completed s.1 ≤ (marks i s'.1).index := hl.fresh
    simp only [hg]
    omega
  · simp only [hg]
    exact hc.trans hs.ring.write_le

theorem join_meets (hi : Invariant s) :
    Meets ((contract C B).env (.consumer i))
      (consumer >>= fun c => pure (.consumer c,.joined c.cursor))
      ((contract C B).Returns (.consumer i)) s := by
  have hjoin := Ring.consumer_meets (s := (ring s,lastRead i s.1)) hi.ring
  unfold consumer
  rw [Program.bind_assoc]
  apply Meets.bind
  refine (inbox_runs hjoin).mono ?_
  rintro cursor s₁ ⟨_,hc⟩
  refine Meets.done fun s₂ h₂ => consumer_returns ⟨?_,?_⟩ ?_ ?_
  · simp [Out.taken]
  · simp
  · intro x _ c₀ ev c₁ t _ ht
    cases ht
  · exact hc.trans h₂.1.1.ring.write_le

/-- What a poll does with an item, an overrun, or nothing, keeps its promise. -/
theorem poll_meets {c : Consumer} (hi : Invariant s) (hc : c.cursor ≤ (ring s).write) :
    Meets ((contract C B).env (.consumer i))
      (poll c >>= fun x => pure (.consumer x.1,.observed c.cursor x.2 x.1.cursor))
      ((contract C B).Returns (.consumer i)) s := by
  have hrecv := Ring.tryRecv_meets (s := (ring s,lastRead i s.1)) hi.ring hc
  unfold poll
  rw [Program.bind_assoc]
  apply Meets.bind
  have hmeets := (contract C B).meets_invariant (told_frame (inbox_runs hrecv)) hi
  refine hmeets.mono ?_
  rintro ⟨r,cursor⟩ s₁ ⟨⟨⟨_,hle,hr⟩,htold,_⟩,hi₁⟩
  cases r with
  | empty =>
    refine Meets.done fun s₂ h₂ => consumer_returns ⟨?_,?_⟩ ?_ ?_
    · simp [Out.taken]
    · rintro c₀ r c₁ ⟨⟩
      exact ⟨_,rfl,trivial⟩
    · intro x _ c₀ ev c₁ t _ ht
      cases ht
    · exact hle.trans h₂.1.1.ring.write_le
  | item rec =>
    obtain ⟨hl,hcur⟩ := hr
    obtain ⟨ev,hev,rfl⟩ : ∃ ev, (processed s₁.1)[c.cursor]? = some ev ∧ pack ev = rec := by
      simpa [ring] using hl
    simp only [unpack_pack]
    refine Meets.done fun s₂ h₂ => consumer_returns ⟨?_,?_⟩ ?_ ?_
    · simp [Out.taken]
    · rintro c₀ r c₁ ⟨⟩
      have hb := hi₁.behind
      have hcomp : completed s₁.1 ≤ completed s₂.1 := h₂.1.1.cell.completed_le
      simp only at hcur hle
      exact ⟨_,rfl,getElem?_of_grows h₂.1.1.events hev,by omega⟩
    · intro x _ c₀ ev c₁ t _ ht
      cases ht
    · exact hle.trans h₂.1.1.ring.write_le
  | overrun k =>
    obtain ⟨_,hlast,hread⟩ := hr
    simp only at hlast hread hle
    rw [hlast] at hread
    simp only [Program.bind_assoc]
    exact resync_meets { c with cursor := cursor } hi₁ (fun _ => rfl) hle hread

end Consuming

section Runs
variable {C : Capacity} {B : Type} [OrderBook B] [Inhabited B]

theorem start_invariant (h₀ : topAfter B [] = some default) :
    Invariant (([],(system C B).mem₀) : (system C B).Shared) := by
  have hvals : values B [] = [default] := by simp [values, h₀]
  refine ⟨⟨le_rfl,Nat.le_add_right _ _,rfl,fun _ => ?_⟩,Ring.good_start,le_rfl,?_,?_,?_⟩
  · change (values B [])[0]? = some (cell _).payload
    rw [hvals]
    rfl
  · intro pre hpre
    obtain rfl := List.prefix_nil.mp hpre
    exact ⟨_,h₀⟩
  · intro i x hx
    cases hx
  · intro i
    exact .nil

/-- An engine is sound whatever book drives it, if a fresh book shows nothing. -/
theorem sound (C : Capacity) (h₀ : topAfter B [] = some default) : (contract C B).Sound where
  rest_stable := by
    rintro t l s s' hr ⟨h,_⟩
    cases t with
    | producer =>
      cases l with
      | producer p =>
        have hq : Quiet s s' := h
        have hb : begun s'.1 = begun s.1 := congrArg SeqLock.Shared.begun hq.cell
        have hc : completed s'.1 = completed s.1 := congrArg SeqLock.Shared.completed hq.cell
        obtain ⟨h₁,h₂,h₃,h₄,h₅⟩ := hr
        refine ⟨hq.events ▸ h₁,hq.events ▸ h₂,?_,?_,?_⟩
        · rw [hb, hq.events]
          exact h₃
        · rw [hc, hq.events]
          exact h₄
        · rw [hq.ring, hq.events]
          exact h₅
      | _ => exact hr.elim
    | consumer i =>
      cases l with
      | producer p => exact hr.elim
      | handle => trivial
      | consumer c =>
        have hc : c.cursor ≤ (ring s).write := hr
        exact hc.trans h.1.ring.write_le
  start_invariant := start_invariant h₀
  start_rest t := by
    cases t with
    | producer => exact ⟨rfl,rfl,rfl,rfl,rfl⟩
    | consumer i => trivial
  call := by
    rintro t l x p s hi hr hp ha
    cases t with
    | producer =>
      cases l with
      | producer q =>
        cases x with
        | process ev => exact process_call hi hr hp ha
        | _ => cases hp
      | _ => exact hr.elim
    | consumer i =>
      cases l with
      | producer q => exact hr.elim
      | handle =>
        cases x with
        | consumer =>
          cases hp
          have hk := keeps_call (s := s) (i := i) (x := .consumer) (by simp)
          exact ⟨hk,join_meets (hk.1 hi)⟩
        | _ => cases hp
      | consumer c =>
        have hc : c.cursor ≤ (ring s).write := hr
        cases x with
        | poll =>
          cases hp
          have hk := keeps_call (s := s) (i := i) (x := .poll) (by simp)
          exact ⟨hk,poll_meets (hk.1 hi) hc⟩
        | snapshot =>
          cases hp
          have hk := keeps_call (s := s) (i := i) (x := .snapshot) (by simp)
          exact ⟨hk,snapshot_meets (hk.1 hi) hc⟩
        | _ => cases hp

/-- In every run of fewer than `2^64` events, at every moment, the engine is consistent. -/
theorem run_invariant (h₀ : topAfter B [] = some default) {tr : (system C B).Trace}
    {cfg : (system C B).Config} (h : (system C B).Run tr cfg) (hb : (processed tr).length < 2^64) :
    Invariant ((tr,cfg.mem) : (system C B).Shared) :=
  ((sound C h₀).run
    (h.within (Q := fun tr => (processed tr).length < 2^64) processed_tail hb)).1

/-- A snapshot read while fewer than `2^31` events overlapped it is the top after as many
events as its stamp says. -/
theorem Invariant.snapshot {s : (system C B).Shared} (h : Invariant s)
    (hb : (processed s.1).length < 2^64) {i : ℕ} {x : Out × SeqLock.Marks} (hx : x ∈ told i s.1)
    {t : TopOfBook} (ht : x.1.taken = some t) (hlap : overlap x < 2^31) :
    t.stamp.toNat = x.2.index ∧ x.2.index ≤ (processed s.1).length ∧
      topAfter B ((processed s.1).take x.2.index) = some t := by
  obtain ⟨_,hd,hv⟩ := (h.heard i x hx).snapshot t ht
  obtain ⟨hle,rfl⟩ := values_getElem? (hv (Nat.eq_zero_of_dvd_of_lt hd hlap))
  obtain ⟨t,htop⟩ := h.tops _ (List.take_prefix x.2.index (processed s.1))
  rw [htop, Option.getD_some, stamp_of_topAfter htop, List.length_take, min_eq_left hle]
  exact ⟨UInt64.toNat_ofNat_of_lt' (hle.trans_lt hb),hle,rfl⟩

end Runs

end LowLatencyLob.Engine
