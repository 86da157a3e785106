import LowLatencyLob.Feed.RecorderSync
import Mathlib.Data.List.Infix
import Mathlib.Data.List.Pairwise

/-! The times that the recorder stamps: zero for what comes from a snapshot, the time of the
exchange for what comes from the stream. -/
namespace LowLatencyLob.Feed
open Book

section Stamps
variable {scales : Scales} {em em' em'' : Emitter} {ts : UInt64}

/-- The emitter has pushed events of one time. -/
def Stamps (ts : UInt64) (em em' : Emitter) : Prop :=
  ∃ evs, em'.events = em.events ++ evs ∧ ∀ ev ∈ evs, ev.ts = ts

theorem Stamps.refl (ts : UInt64) (em : Emitter) : Stamps ts em em := ⟨[],(List.append_nil _).symm,by simp⟩

theorem Stamps.trans (h : Stamps ts em em') (h' : Stamps ts em' em'') : Stamps ts em em'' := by
  obtain ⟨evs,he,hts⟩ := h
  obtain ⟨evs',he',hts'⟩ := h'
  refine ⟨evs ++ evs',by rw [he', he, List.append_assoc],fun ev hev => ?_⟩
  rcases List.mem_append.mp hev with hev | hev
  · exact hts ev hev
  · exact hts' ev hev

theorem stamps_push {ev : UInt64 → BookEvent} (h : (ev em.seq).ts = ts) : Stamps ts em (em.push ev) :=
  ⟨[ev em.seq],rfl,by simpa using h⟩

theorem level_stamps {tsMs : UInt64} {side : Side} {px qty : List UInt8}
    (h : em.level scales tsMs side px qty = pure em') : Stamps (tsMs*1000000) em em' := by
  obtain ⟨p,_,h⟩ := eq_pure_of_bind h
  obtain ⟨q,_,h⟩ := eq_pure_of_bind h
  cases h
  exact stamps_push rfl

theorem trade_stamps {tsMs : UInt64} {aggressor : Side} {px qty : List UInt8}
    (h : em.trade scales tsMs aggressor px qty = pure em') : Stamps (tsMs*1000000) em em' := by
  obtain ⟨p,_,h⟩ := eq_pure_of_bind h
  obtain ⟨q,_,h⟩ := eq_pure_of_bind h
  cases h
  exact stamps_push rfl

theorem foldlM_stamps {α : Type} {f : Emitter → α → Record Emitter}
    (hf : ∀ em x em', f em x = pure em' → Stamps ts em em') {xs : List α} (h : xs.foldlM f em = pure em') :
    Stamps ts em em' :=
  foldlM_keeps (R := fun _ => Stamps ts) (.refl ts) (fun em em₁ _ x _ h₁ ih => (hf em x em₁ h₁).trans ih) h

theorem seedSide_stamps {side : Side} {levels : List (List UInt8 × List UInt8)}
    (h : em.seedSide scales side levels = pure em') : Stamps 0 em em' := by
  unfold Emitter.seedSide at h
  exact foldlM_stamps (fun em y em' hy => level_stamps hy) h

/-- A snapshot is a clear and levels, all at time zero. -/
theorem seedSnapshot_stamps {snap : Snapshot} (h : em.seedSnapshot scales snap = pure em') :
    ∃ ev evs, em'.events = em.events ++ ev :: evs ∧ ∀ x ∈ ev :: evs, x.ts = 0 := by
  obtain ⟨em₁,h₁,h⟩ := eq_pure_of_bind h
  obtain ⟨evs,he,hts⟩ := (seedSide_stamps h₁).trans (seedSide_stamps h)
  refine ⟨.clear em.seq 0,evs,?_,List.forall_mem_cons.mpr ⟨rfl,hts⟩⟩
  rw [he, Emitter.push, List.append_assoc]
  rfl

theorem applySide_stamps {eMs : UInt64} {side : Side} {arr : Option (List DiffEntry)}
    (h : applySide scales em eMs side arr = pure em') : Stamps (eMs*1000000) em em' := by
  cases arr with
  | none =>
    cases h
    exact .refl _ _
  | some arr =>
    refine foldlM_stamps (fun em y em' hy => ?_) h
    obtain ⟨⟨px,qty⟩,_,hy⟩ := eq_pure_of_bind hy
    exact level_stamps hy

theorem applyDiff_stamps {eMs : UInt64} {diff : Diff} (h : applyDiff scales em eMs diff = pure em') :
    Stamps (eMs*1000000) em em' := by
  obtain ⟨em₁,h₁,h⟩ := eq_pure_of_bind h
  exact (applySide_stamps h₁).trans (applySide_stamps h)

end Stamps
section Turn
variable {cli : Cli} {scales : Scales} {s s' : Recorder}

/-- The time of the exchange that a message states. -/
def Message.eventTime : Message → Option UInt64
  | .depthUpdate diff => diff.E
  | .trade t => t.E
  | _ => none

theorem onMessage_trade {message : Message} {eMs : UInt64} {aggressor : Side} {px qty : List UInt8}
    (h : onMessage cli s message = .trade eMs aggressor px qty) : message.eventTime = some eMs := by
  cases message with
  | malformed => cases h
  | other => cases h
  | depthUpdate diff =>
    rw [onMessage, onDepth] at h
    split at h
    · split_ifs at h
    · cases h
  | trade trade =>
    rw [onMessage] at h
    split_ifs at h
    unfold onTrade at h
    split at h
    · rename_i hE hp hq
      cases h
      exact hE
    · cases h

/-- A turn adds a snapshot, or events of the time that the message states. -/
theorem act_times {i : Input} (ha : act scales s i.response (onMessage cli s i.message) = pure s') :
    (onMessage cli s i.message = .resnapshot ∧
      ∃ ev evs, s'.em.events = s.em.events ++ ev :: evs ∧ ∀ x ∈ ev :: evs, x.ts = 0) ∨
    (onMessage cli s i.message ≠ .resnapshot ∧
      ∃ evs, s'.em.events = s.em.events ++ evs ∧ ∀ x ∈ evs, ∃ eMs ∈ i.message.eventTime, x.ts = eMs*1000000) := by
  cases hm : onMessage cli s i.message with
  | skip =>
    rw [hm] at ha
    cases ha
    exact .inr ⟨nofun,[],(List.append_nil _).symm,by simp⟩
  | pass =>
    rw [hm] at ha
    cases ha
    exact .inr ⟨nofun,[],(List.append_nil _).symm,by simp⟩
  | trade eMs aggressor px qty =>
    rw [hm] at ha
    obtain ⟨em,hem,ha⟩ := eq_pure_of_bind ha
    cases ha
    obtain ⟨evs,he,hts⟩ := trade_stamps hem
    exact .inr ⟨nofun,evs,he,fun x hx => ⟨eMs,onMessage_trade hm,hts x hx⟩⟩
  | apply uFirst u eMs diff =>
    rw [hm] at ha
    obtain ⟨em,hem,ha⟩ := eq_pure_of_bind ha
    cases ha
    obtain ⟨hmsg,⟨_,_,hE⟩,_⟩ := onMessage_apply hm
    obtain ⟨evs,he,hts⟩ := applyDiff_stamps hem
    exact .inr ⟨nofun,evs,he,fun x hx => ⟨eMs,by rw [hmsg]; exact hE,hts x hx⟩⟩
  | resnapshot =>
    rw [hm] at ha
    obtain ⟨⟨em,l⟩,hr,ha⟩ := eq_pure_of_bind ha
    cases ha
    obtain ⟨snap,_,_,hseed⟩ := resnapshot_ok hr
    exact .inl ⟨rfl,seedSnapshot_stamps hseed⟩

end Turn
section Loop
variable {cli : Cli} {scales : Scales} {s s' : Recorder}

/-- The turns of the loop: the state before each, and what arrives. -/
def visited (cli : Cli) (scales : Scales) (s : Recorder) : List Input → List (Recorder × Input)
  | [] => []
  | i :: is =>
    let action := onMessage cli s i.message
    (s,i) :: match (act scales s i.response action).run with
      | some (.ok s') => if reached cli s' action then [] else visited cli scales s' is
      | _ => []

/-- The turns of a recording, behind the first snapshot. -/
def turnsOf (cli : Cli) (scales : Scales) (first : Option Snapshot) (is : List Input) : List (Recorder × Input) :=
  match (resnapshot scales ⟨[],0⟩ first).run with
  | some (.ok (em,lastUpdateId)) => visited cli scales ⟨em,lastUpdateId,0,false⟩ is
  | _ => []

theorem visited_cons {i : Input} {is : List Input}
    (h : act scales s i.response (onMessage cli s i.message) = pure s') :
    visited cli scales s (i :: is) =
      (s,i) :: if reached cli s' (onMessage cli s i.message) then [] else visited cli scales s' is := by
  rw [visited, h]
  rfl

/-- No event without a time behind an event with one. -/
def PreludeFirst (evs : List BookEvent) : Prop := evs.Pairwise fun ev ev' => ev'.ts = 0 → ev.ts = 0

instance (evs : List BookEvent) : Decidable (PreludeFirst evs) :=
  inferInstanceAs (Decidable (evs.Pairwise fun ev ev' => ev'.ts = 0 → ev.ts = 0))

/-- A snapshot in this turn comes before everything that has a time. -/
def Early (cli : Cli) (t : Recorder × Input) : Prop :=
  onMessage cli t.1 t.2.message = .resnapshot → ∀ ev ∈ t.1.em.events, ev.ts = 0

/-- The times that a message states are not zero, and fit in nanoseconds. -/
def Input.Timed (i : Input) : Prop := ∀ eMs ∈ i.message.eventTime, eMs ≠ 0 ∧ 1000000*eMs.toNat < 2^64

instance (i : Input) : Decidable i.Timed :=
  @Option.decidableForallMem UInt64 (fun eMs => eMs ≠ 0 ∧ 1000000*eMs.toNat < 2^64) (fun _ => instDecidableAnd)
    i.message.eventTime

theorem toNat_stamp {eMs : UInt64} (h : 1000000*eMs.toNat < 2^64) : (eMs*1000000).toNat = eMs.toNat*1000000 := by
  rw [UInt64.toNat_mul]
  change eMs.toNat*1000000 % 2^64 = _
  omega

theorem Input.Timed.stamp_ne_zero {i : Input} (h : i.Timed) {eMs : UInt64} (hE : eMs ∈ i.message.eventTime) :
    eMs*1000000 ≠ 0 := by
  obtain ⟨hne,hfit⟩ := h eMs hE
  intro hz
  have hnat := toNat_stamp hfit
  rw [hz] at hnat
  change 0 = _ at hnat
  exact hne (UInt64.toNat_inj.mp (by change eMs.toNat = 0; omega))

/-- The loop takes no event back. -/
theorem loop_grows {is : List Input} (hl : loop cli scales s is = pure s') : s.em.events <+: s'.em.events := by
  induction is generalizing s with
  | nil =>
    cases hl
    exact List.prefix_rfl
  | cons i is ih =>
    obtain ⟨s₁,h₁,hl⟩ := eq_pure_of_bind hl
    have hstep : s.em.events <+: s₁.em.events := by
      obtain ⟨_,ev,evs,he,_⟩ | ⟨_,evs,he,_⟩ := act_times h₁
      · exact ⟨ev :: evs,he.symm⟩
      · exact ⟨evs,he.symm⟩
    split_ifs at hl with hr
    · cases hl
      exact hstep
    · exact hstep.trans (ih hl)

/-- A turn keeps the events without a time in front just when its snapshot is early. -/
theorem prelude_act {i : Input} (hi : i.Timed) (hp : PreludeFirst s.em.events)
    (ha : act scales s i.response (onMessage cli s i.message) = pure s') :
    PreludeFirst s'.em.events ↔ Early cli (s,i) := by
  obtain ⟨hm,ev,evs,he,hts⟩ | ⟨hm,evs,he,hts⟩ := act_times ha
  · have hzero : PreludeFirst s'.em.events ↔ ∀ x ∈ s.em.events, x.ts = 0 := by
      rw [he, PreludeFirst, List.pairwise_append]
      constructor
      · intro ⟨_,_,hc⟩ x hx
        exact hc x hx ev List.mem_cons_self (hts ev List.mem_cons_self)
      · intro hall
        refine ⟨hp,?_,fun x hx y hy _ => hall x hx⟩
        exact List.pairwise_of_forall_mem_list fun x hx y hy _ => hts x hx
    rw [hzero]
    exact ⟨fun hall _ => hall,fun hearly => hearly hm⟩
  · refine iff_of_true ?_ fun hm' => absurd hm' hm
    have hne : ∀ x ∈ evs, x.ts ≠ 0 := by
      intro x hx
      obtain ⟨eMs,hE,hx⟩ := hts x hx
      rw [hx]
      exact hi.stamp_ne_zero hE
    rw [he, PreludeFirst, List.pairwise_append]
    refine ⟨hp,?_,fun x hx y hy hz => absurd hz (hne y hy)⟩
    exact List.pairwise_of_forall_mem_list fun x hx y hy hz => absurd hz (hne y hy)

/-- A loop keeps the events without a time in front just when all its snapshots are early. -/
theorem prelude_loop {is : List Input} (hin : ∀ i ∈ is, i.Timed) (hp : PreludeFirst s.em.events)
    (hl : loop cli scales s is = pure s') :
    PreludeFirst s'.em.events ↔ ∀ t ∈ visited cli scales s is, Early cli t := by
  induction is generalizing s with
  | nil =>
    cases hl
    exact iff_of_true hp fun t ht => absurd ht List.not_mem_nil
  | cons i is ih =>
    obtain ⟨hi,hin⟩ := List.forall_mem_cons.mp hin
    obtain ⟨s₁,h₁,hl⟩ := eq_pure_of_bind hl
    have hturn := prelude_act hi hp h₁
    rw [visited_cons h₁, List.forall_mem_cons, ← hturn]
    split_ifs at hl ⊢ with hr
    · cases hl
      simp
    · by_cases hp₁ : PreludeFirst s₁.em.events
      · simp only [hp₁, true_and]
        exact ih hin hp₁ hl
      · refine iff_of_false (fun hp' => hp₁ ?_) fun h => hp₁ h.1
        exact hp'.sublist (loop_grows hl).sublist

/-- The times that the exchange states, message by message. -/
def statedTimes (is : List Input) : List UInt64 := is.filterMap fun i => i.message.eventTime

theorem statedTimes_cons (i : Input) (is : List Input) :
    statedTimes (i :: is) = i.message.eventTime.toList ++ statedTimes is := by
  rw [statedTimes, List.filterMap_cons]
  cases i.message.eventTime <;> rfl

/-- The times so far ascend, and the exchange has stated none that is greater than those
to come. -/
structure Ascends (is : List Input) (evs : List BookEvent) : Prop where
  sorted : evs.Pairwise fun ev ev' => ev.ts ≤ ev'.ts
  bound : ∀ ev ∈ evs, ∀ eMs ∈ statedTimes is, ev.ts.toNat ≤ eMs.toNat*1000000

theorem ascends_of_zero {evs : List BookEvent} (h : ∀ x ∈ evs, x.ts = 0) (is : List Input) : Ascends is evs where
  sorted := List.pairwise_of_forall_mem_list fun x hx y hy => by
    rw [h x hx, h y hy]
    exact UInt64.le_refl _
  bound x hx _ _ := by
    rw [h x hx]
    exact Nat.zero_le _

theorem ascends_act {i : Input} {is : List Input} (hi : i.Timed) (ht : (statedTimes (i :: is)).Pairwise (· ≤ ·))
    (hearly : Early cli (s,i)) (h : Ascends (i :: is) s.em.events)
    (ha : act scales s i.response (onMessage cli s i.message) = pure s') : Ascends is s'.em.events := by
  have hbound := h.bound
  rw [statedTimes_cons] at ht hbound
  obtain ⟨_,_,hc⟩ := List.pairwise_append.mp ht
  obtain ⟨hm,ev,evs,he,hts⟩ | ⟨_,evs,he,hts⟩ := act_times ha
  · refine ascends_of_zero (fun x hx => ?_) is
    rw [he] at hx
    rcases List.mem_append.mp hx with hx | hx
    · exact hearly hm x hx
    · exact hts x hx
  · rw [he]
    refine ⟨List.pairwise_append.mpr ⟨h.sorted,?_,fun x hx y hy => ?_⟩,fun x hx eMs hE => ?_⟩
    · refine List.pairwise_of_forall_mem_list fun x hx y hy => ?_
      obtain ⟨eMs,hE,hx⟩ := hts x hx
      obtain ⟨eMs',hE',hy⟩ := hts y hy
      obtain rfl := Option.some.inj (hE.symm.trans hE')
      rw [hx, hy]
      exact UInt64.le_refl _
    · obtain ⟨eMs,hE,hy⟩ := hts y hy
      have hle := hbound x hx eMs (List.mem_append_left _ (Option.mem_toList.mpr hE))
      rw [hy, UInt64.le_iff_toNat_le, toNat_stamp (hi eMs hE).2]
      exact hle
    · rcases List.mem_append.mp hx with hx | hx
      · exact hbound x hx eMs (List.mem_append_right _ hE)
      · obtain ⟨eMs',hE',hx⟩ := hts x hx
        have hle := hc eMs' (Option.mem_toList.mpr hE') eMs hE
        rw [UInt64.le_iff_toNat_le] at hle
        rw [hx, toNat_stamp (hi eMs' hE').2]
        omega

/-- With early snapshots the loop keeps the times in order, if the exchange does. -/
theorem loop_ascending {is : List Input} (hin : ∀ i ∈ is, i.Timed) (ht : (statedTimes is).Pairwise (· ≤ ·))
    (hearly : ∀ t ∈ visited cli scales s is, Early cli t) (h : Ascends is s.em.events)
    (hl : loop cli scales s is = pure s') : s'.em.events.Pairwise fun ev ev' => ev.ts ≤ ev'.ts := by
  induction is generalizing s with
  | nil =>
    cases hl
    exact h.sorted
  | cons i is ih =>
    obtain ⟨hi,hin⟩ := List.forall_mem_cons.mp hin
    obtain ⟨s₁,h₁,hl⟩ := eq_pure_of_bind hl
    rw [visited_cons h₁] at hearly
    obtain ⟨hturn,hearly⟩ := List.forall_mem_cons.mp hearly
    have h' := ascends_act hi ht hturn h h₁
    rw [statedTimes_cons] at ht
    split_ifs at hl hearly with hr
    · cases hl
      exact h'.sorted
    · exact ih hin (List.pairwise_append.mp ht).2.1 hearly h' hl

end Loop
end LowLatencyLob.Feed
