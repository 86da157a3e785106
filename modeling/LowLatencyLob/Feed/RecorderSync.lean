import LowLatencyLob.Feed.RecorderBook
import Mathlib.Data.List.Chain

/-! The recorder loses no depth update: what it has emitted is, at any time, the book of
the exchange after one of its updates.

Between two snapshots no update is missing: each diff starts where the one before it
ended, and the first reaches back to the snapshot. -/
namespace LowLatencyLob.Feed
open Book Sequence

/-- What moved the book: a snapshot, behind a clear, or a diff. -/
inductive Mark
  | seeded (lastUpdateId : UInt64)
  | applied (uFirst u : UInt64)
  deriving DecidableEq

/-- The update that the book is at. -/
def Mark.version : Mark → ℕ
  | .seeded lastUpdateId => lastUpdateId.toNat
  | .applied _ u => u.toNat

/-- A diff follows a snapshot that it reaches back to, or the diff that ends just before
it; a snapshot may follow anything. -/
def Follows : Mark → Mark → Prop
  | .seeded lastUpdateId, .applied uFirst u =>
    uFirst.toNat ≤ lastUpdateId.toNat+1 ∧ lastUpdateId.toNat+1 ≤ u.toNat
  | .applied _ u, .applied uFirst _ => uFirst.toNat = u.toNat+1
  | _, .seeded _ => True

/-- The moves of an action. -/
def Action.marks (response : Option Snapshot) : Action → List Mark
  | .apply uFirst u _ _ => [.applied uFirst u]
  | .resnapshot => (response.map fun snap => .seeded snap.lastUpdateId).toList
  | _ => []

/-- The moves of the loop. -/
def marks (cli : Cli) (scales : Scales) (s : Recorder) : List Input → List Mark
  | [] => []
  | i :: is =>
    let action := onMessage cli s i.message
    action.marks i.response ++ match (act scales s i.response action).run with
      | some (.ok s') => if reached cli s' action then [] else marks cli scales s' is
      | _ => []

/-- The moves of a recording, the first snapshot in front. -/
def history (cli : Cli) (scales : Scales) (first : Option Snapshot) (is : List Input) : List Mark :=
  match first, (resnapshot scales ⟨[],0⟩ first).run with
  | some snap, some (.ok (em,lastUpdateId)) =>
    .seeded snap.lastUpdateId :: marks cli scales ⟨em,lastUpdateId,0,false⟩ is
  | _, _ => []

/-- The update that the recorder takes its book to be at. -/
def Recorder.version (s : Recorder) : ℕ := (if s.synced then s.prevU else s.lastUpdateId).toNat

section Invariant
variable {E : Exchange} {cli : Cli} {scales : Scales} {s s' : Recorder} {m : Mark}

/-- The recorder has the book of the exchange as of its newest move. -/
structure InSync (E : Exchange) (m : Mark) (s : Recorder) : Prop where
  newest : match m with
    | .seeded lastUpdateId => s.synced = false ∧ s.lastUpdateId = lastUpdateId
    | .applied _ u => s.synced = true ∧ s.prevU = u
  small : m.version < 2^63
  mirrors : Mirrors E m.version s.em.events

theorem InSync.version (h : InSync E m s) : s.version = m.version := by
  have hn := h.newest
  unfold Recorder.version
  cases m with
  | seeded l => simp [hn.1, hn.2, Mark.version]
  | applied uFirst u => simp [hn.1, hn.2, Mark.version]

/-- A diff that is applied starts where the book is, or reaches back to the snapshot. -/
theorem onMessage_apply {message : Message} {uFirst u eMs : UInt64} {diff : Diff}
    (h : onMessage cli s message = .apply uFirst u eMs diff) :
    message = .depthUpdate diff ∧ (diff.U = some uFirst ∧ diff.u = some u ∧ diff.E = some eMs) ∧
      ((s.synced = true ∧ uFirst = s.prevU+1) ∨
        (s.synced = false ∧ uFirst ≤ s.lastUpdateId+1 ∧ s.lastUpdateId < u)) := by
  cases message with
  | malformed => cases h
  | other => cases h
  | trade trade =>
    rw [onMessage] at h
    split_ifs at h
    unfold onTrade at h
    split at h <;> cases h
  | depthUpdate d =>
    rw [onMessage, onDepth] at h
    split at h
    · rename_i hu hU hE
      split_ifs at h with hs hnext hstale hseam
      · cases h
        exact ⟨rfl,⟨hU,hu,hE⟩,.inl ⟨hs,hnext⟩⟩
      · cases h
        exact ⟨rfl,⟨hU,hu,hE⟩,.inr ⟨by simpa using hs,hseam⟩⟩
    · cases h

theorem toNat_succ {x : UInt64} (h : x.toNat < 2^63) : (x+1).toNat = x.toNat+1 := by
  rw [UInt64.toNat_add]
  change (x.toNat+1) % 2^64 = x.toNat+1
  omega

/-- A diff is applied only where it leaves no update out. -/
theorem InSync.apply_follows {message : Message} {uFirst u eMs : UInt64} {diff : Diff} (h : InSync E m s)
    (ha : onMessage cli s message = .apply uFirst u eMs diff) (hd : diff.Honest E scales uFirst u) :
    Follows m (.applied uFirst u) ∧ uFirst.toNat ≤ m.version+1 ∧ m.version+1 ≤ u.toNat := by
  obtain ⟨_,_,hwhere⟩ := onMessage_apply ha
  have hn := h.newest
  have hsmall := h.small
  have hordered := hd.ordered
  cases m with
  | seeded l =>
    obtain ⟨hs,rfl⟩ := hn
    obtain ⟨hs',_⟩ | ⟨_,hfirst,hlast⟩ := hwhere
    · rw [hs] at hs'
      cases hs'
    · rw [UInt64.le_iff_toNat_le, toNat_succ hsmall] at hfirst
      rw [UInt64.lt_iff_toNat_lt] at hlast
      exact ⟨⟨hfirst,hlast⟩,hfirst,hlast⟩
  | applied uFirst' u' =>
    obtain ⟨hs,rfl⟩ := hn
    obtain ⟨_,rfl⟩ | ⟨hs',_⟩ := hwhere
    · rw [toNat_succ hsmall] at hordered
      exact ⟨toNat_succ hsmall,(toNat_succ hsmall).le,hordered⟩
    · rw [hs] at hs'
      cases hs'

theorem resnapshot_ok {em em' : Emitter} {response : Option Snapshot} {l : UInt64}
    (h : resnapshot scales em response = pure (em',l)) : ∃ snap, response = some snap ∧
      snap.lastUpdateId = l ∧ em.seedSnapshot scales snap = pure em' := by
  cases response with
  | none => cases h
  | some snap =>
    obtain ⟨em₁,h₁,h⟩ := eq_pure_of_bind h
    cases h
    exact ⟨snap,rfl,rfl,h₁⟩

/-- One turn keeps the recorder in sync with its newest move. -/
theorem InSync.act {i : Input} (h : InSync E m s) (hi : i.Honest E scales)
    (ha : act scales s i.response (onMessage cli s i.message) = pure s') :
    List.IsChain Follows (m :: (onMessage cli s i.message).marks i.response) ∧
      ∃ m', (m :: (onMessage cli s i.message).marks i.response).getLast? = some m' ∧ InSync E m' s' := by
  cases hm : onMessage cli s i.message with
  | skip =>
    rw [hm] at ha
    cases ha
    exact ⟨.singleton _,m,rfl,h⟩
  | pass =>
    rw [hm] at ha
    cases ha
    exact ⟨.singleton _,m,rfl,h⟩
  | trade eMs aggressor px qty =>
    rw [hm] at ha
    obtain ⟨em,hem,ha⟩ := eq_pure_of_bind ha
    cases ha
    exact ⟨.singleton _,m,rfl,h.newest,h.small,h.mirrors.trade hem⟩
  | resnapshot =>
    rw [hm] at ha
    obtain ⟨⟨em,l⟩,hr,ha⟩ := eq_pure_of_bind ha
    cases ha
    obtain ⟨snap,hsnap,rfl,hseed⟩ := resnapshot_ok hr
    have hs := hi.response snap hsnap
    rw [hsnap]
    refine ⟨.cons_cons ?_ (.singleton _),.seeded snap.lastUpdateId,rfl,⟨rfl,rfl⟩,hs.small,.seed hs hseed⟩
    cases m <;> trivial
  | apply uFirst u eMs diff =>
    rw [hm] at ha
    obtain ⟨em,hem,ha⟩ := eq_pure_of_bind ha
    cases ha
    obtain ⟨hmsg,⟨hU,hu,hE⟩,_⟩ := onMessage_apply hm
    have hd := hi.message diff uFirst u eMs hmsg hU hu hE
    obtain ⟨hf,hfirst,hlast⟩ := h.apply_follows hm hd
    refine ⟨.cons_cons hf (.singleton _),.applied uFirst u,rfl,⟨rfl,rfl⟩,hd.small,?_⟩
    exact h.mirrors.apply hd hfirst (by omega) hem

theorem isChain_join {α : Type} {R : α → α → Prop} {l l' : List α} {x : α} (h : l.IsChain R)
    (hx : l.getLast? = some x) (h' : (x :: l').IsChain R) : (l ++ l').IsChain R := by
  refine List.isChain_append.mpr ⟨h,h'.tail,?_⟩
  intro y hy z hz
  obtain rfl : x = y := Option.some.inj (hx.symm.trans hy)
  cases l' with
  | nil => cases hz
  | cons w l' =>
    cases hz
    exact h'.rel

theorem marks_cons {i : Input} {is : List Input}
    (h : act scales s i.response (onMessage cli s i.message) = pure s') :
    marks cli scales s (i :: is) = (onMessage cli s i.message).marks i.response ++
      if reached cli s' (onMessage cli s i.message) then [] else marks cli scales s' is := by
  rw [marks, h]
  rfl

/-- The whole loop keeps the recorder in sync with its newest move. -/
theorem InSync.loop {is : List Input} (h : InSync E m s) (hin : ∀ i ∈ is, i.Honest E scales)
    (hl : loop cli scales s is = pure s') : List.IsChain Follows (m :: marks cli scales s is) ∧
      ∃ m', InSync E m' s' := by
  induction is generalizing m s with
  | nil =>
    cases hl
    exact ⟨.singleton _,m,h⟩
  | cons i is ih =>
    obtain ⟨s₁,h₁,hl⟩ := eq_pure_of_bind hl
    obtain ⟨hc,m₁,hlast,hs₁⟩ := h.act (hin i List.mem_cons_self) h₁
    rw [marks_cons h₁]
    split_ifs at hl ⊢ with hr
    · cases hl
      rw [List.append_nil]
      exact ⟨hc,m₁,hs₁⟩
    · obtain ⟨hc',hs'⟩ := ih hs₁ (fun i hi => hin i (List.mem_cons_of_mem _ hi)) hl
      exact ⟨isChain_join hc hlast hc',hs'⟩

end Invariant

section Clears
variable {cli : Cli} {scales : Scales} {s s' : Recorder}

def clears (evs : List BookEvent) : ℕ := evs.countP fun ev => ev.kind = .clear

def seeds (ms : List Mark) : ℕ := ms.countP fun m => match m with
  | .seeded _ => true
  | .applied _ _ => false

theorem clears_append (evs evs' : List BookEvent) : clears (evs ++ evs') = clears evs+clears evs' :=
  List.countP_append

theorem Adds.clears_eq {xs : List (Side × DiffEntry)} {em em' : Emitter} (h : Adds scales xs em em') :
    clears em'.events = clears em.events := by
  obtain ⟨evs,he,hf⟩ := h
  have hzero : clears evs = 0 := by
    clear he
    induction hf with
    | nil => rfl
    | cons hx _ ih =>
      rw [clears, List.countP_cons_of_neg (by simp [hx.1])]
      exact ih
  rw [he, clears_append, hzero, Nat.add_zero]

/-- A turn emits a clear just when it seeds the book. -/
theorem act_clears {i : Input} {action : Action} (ha : act scales s i.response action = pure s') :
    clears s'.em.events = clears s.em.events+seeds (action.marks i.response) := by
  cases action with
  | skip =>
    cases ha
    rfl
  | pass =>
    cases ha
    rfl
  | trade eMs aggressor px qty =>
    obtain ⟨em,hem,ha⟩ := eq_pure_of_bind ha
    obtain ⟨p,_,hem⟩ := eq_pure_of_bind hem
    obtain ⟨q,_,hem⟩ := eq_pure_of_bind hem
    cases hem
    cases ha
    rw [Emitter.push, clears_append]
    rfl
  | resnapshot =>
    obtain ⟨⟨em,l⟩,hr,ha⟩ := eq_pure_of_bind ha
    obtain ⟨snap,hsnap,_,hseed⟩ := resnapshot_ok hr
    cases ha
    rw [hsnap, (seedSnapshot_adds hseed).clears_eq, Emitter.push, clears_append]
    rfl
  | apply uFirst u eMs diff =>
    obtain ⟨em,hem,ha⟩ := eq_pure_of_bind ha
    cases ha
    exact (applyDiff_adds hem).clears_eq

theorem loop_clears {is : List Input} (hl : loop cli scales s is = pure s') :
    clears s'.em.events = clears s.em.events+seeds (marks cli scales s is) := by
  induction is generalizing s with
  | nil =>
    cases hl
    rfl
  | cons i is ih =>
    obtain ⟨s₁,h₁,hl⟩ := eq_pure_of_bind hl
    rw [marks_cons h₁]
    split_ifs at hl ⊢ with hr
    · cases hl
      rw [List.append_nil, act_clears h₁]
    · rw [ih hl, act_clears h₁, seeds, seeds, seeds, List.countP_append, Nat.add_assoc]

end Clears

/-- What is emitted is the book of the exchange at the update that the recorder takes it to
be at; each diff between two clears starts where the book is; and so will the next. -/
theorem recorder_in_sync {E : Exchange} {cli : Cli} {scales : Scales} {first : Option Snapshot}
    {is : List Input} {s : Recorder} (hfirst : ∀ snap, first = some snap → snap.Honest E scales)
    (hin : ∀ i ∈ is, i.Honest E scales) (h : run cli scales first is = pure s) :
    (∃ (b : BTreeBook) (t : Option (Px × Qty × Side)) (ladder : Side → List (Px × Qty)),
      replay default s.em.events = some b ∧ Shows b ⟨fun side px => E s.version (side,px),t⟩ ladder) ∧
    (clears s.em.events = seeds (history cli scales first is) ∧
      (∃ l, (history cli scales first is).head? = some (.seeded l)) ∧
      List.IsChain Follows (history cli scales first is)) ∧
    ∀ i : Input, i.Honest E scales → ∀ uFirst u eMs diff,
      onMessage cli s i.message = .apply uFirst u eMs diff →
      uFirst.toNat ≤ s.version+1 ∧ s.version+1 ≤ u.toNat := by
  obtain ⟨⟨em,l⟩,hr,hl⟩ := eq_pure_of_bind h
  obtain ⟨snap,hsnap,rfl,hseed⟩ := resnapshot_ok hr
  have hhist : history cli scales first is =
      .seeded snap.lastUpdateId :: marks cli scales ⟨em,snap.lastUpdateId,0,false⟩ is := by
    subst first
    unfold history
    rw [hr]
    rfl
  have hstart : InSync E (.seeded snap.lastUpdateId) ⟨em,snap.lastUpdateId,0,false⟩ :=
    ⟨⟨rfl,rfl⟩,(hfirst snap hsnap).small,.seed (hfirst snap hsnap) hseed⟩
  obtain ⟨hchain,m,hm⟩ := hstart.loop hin hl
  rw [hhist]
  refine ⟨?_,⟨?_,⟨_,rfl⟩,hchain⟩,?_⟩
  · obtain ⟨b,hb,hrep⟩ := BTreeBook.refines.replay BTreeBook.refines.start s.em.events (by simp)
    obtain ⟨ladder,hshows⟩ := BTreeBook.refines.shows hrep
    have hqty : (Quotes.replay .empty s.em.events).qty = fun side px => E s.version (side,px) := by
      rw [hm.version, ← hm.mirrors]
      rfl
    refine ⟨b,(Quotes.replay .empty s.em.events).lastTrade,ladder,hb,?_⟩
    rw [← hqty]
    exact hshows
  · rw [loop_clears hl, (seedSnapshot_adds hseed).clears_eq, seeds, seeds, List.countP_cons_of_pos rfl,
      Nat.add_comm]
    rfl
  · intro i hi uFirst u eMs diff ha
    obtain ⟨hmsg,⟨hU,hu,hE⟩,_⟩ := onMessage_apply ha
    rw [hm.version]
    exact (hm.apply_follows ha (hi.message diff uFirst u eMs hmsg hU hu hE)).2

/-- A book in which a bid rests from update six on. -/
def oneBid : Exchange := fun n k => if k = (.bid,100) ∧ 6 ≤ n then 5 else 0

def tenths : Scales := ⟨bytes "0.10",bytes "1"⟩

/-- A snapshot before the bid, a diff with it, a broken frame, and a diff without a change. -/
def twoDiffs : List Input :=
  [⟨.depthUpdate ⟨some 5,some 6,some 1,some [(some (bytes "10.0"),some (bytes "5"))],some []⟩,none⟩,
    ⟨.malformed,none⟩,⟨.depthUpdate ⟨some 7,some 7,some 2,some [],some []⟩,none⟩]

theorem oneBid_before {n : ℕ} (h : n < 6) (k : Side × Px) : oneBid n k = 0 := by
  rw [oneBid, if_neg]
  omega

theorem oneBid_changed {a b : ℕ} {k : Side × Px} (h : Changed oneBid a b k) : a ≤ 6 ∧ 6 ≤ b ∧ k = (.bid,100) := by
  obtain ⟨n,ha,hb,hne⟩ := h
  have hk : k = (.bid,100) := by
    by_contra hk
    exact hne (by simp [oneBid, hk])
  have hn : n = 6 := by
    by_contra hn
    have hiff : 6 ≤ n ↔ 6 ≤ n-1 := by omega
    exact hne (by simp [oneBid, hiff])
  subst n
  exact ⟨ha,hb,hk⟩

theorem twoDiffs_honest : ∀ i ∈ twoDiffs, i.Honest oneBid tenths := by
  have hpx : (toTicks (bytes "10.0") tenths.tickSize).run = some (.ok 100) := by decide
  have hqty : (toTicks (bytes "5") tenths.stepSize).run = some (.ok 5) := by decide
  simp only [twoDiffs, List.forall_mem_cons]
  refine ⟨⟨?_,by simp⟩,⟨by simp,by simp⟩,⟨?_,by simp⟩,by simp⟩
  · intro diff uFirst u eMs hm hU hu hE
    cases hm
    cases hU
    cases hu
    refine ⟨by decide,by decide,?_,?_⟩
    · intro x hx k qty hs
      obtain rfl := List.mem_singleton.mp hx
      obtain ⟨rfl,rfl⟩ := (says_iff hpx hqty k qty).mp hs
      rfl
    · intro k hk
      exact ⟨_,List.mem_cons_self,5,(says_iff hpx hqty k 5).mpr ⟨(oneBid_changed hk).2.2,rfl⟩⟩
  · intro diff uFirst u eMs hm hU hu hE
    cases hm
    cases hU
    cases hu
    refine ⟨by decide,by decide,fun x hx => absurd hx List.not_mem_nil,?_⟩
    intro k hk
    exact absurd (oneBid_changed hk).1 (by decide)

theorem recorder_in_sync_two_diffs : ∃ (s : Recorder) (b : BTreeBook) (t : Option (Px × Qty × Side))
    (ladder : Side → List (Px × Qty)), run ⟨none,false⟩ tenths (some ⟨5,[],[]⟩) twoDiffs = pure s ∧
      s.version = 7 ∧ replay default s.em.events = some b ∧
      Shows b ⟨fun side px => oneBid 7 (side,px),t⟩ ladder := by
  have hrun : run ⟨none,false⟩ tenths (some ⟨5,[],[]⟩) twoDiffs = pure
      ⟨⟨[.clear 0 0,.level 1 1000000 .bid 100 5],2⟩,5,7,true⟩ := rfl
  have hfirst : ∀ snap, some (⟨5,[],[]⟩ : Snapshot) = some snap → snap.Honest oneBid tenths := by
    intro snap hsnap
    cases hsnap
    exact ⟨by decide,by simp [Snapshot.entries],fun k hk => absurd (oneBid_before (by decide) k) hk⟩
  obtain ⟨⟨b,t,ladder,hb,hshows⟩,_⟩ := recorder_in_sync hfirst twoDiffs_honest hrun
  exact ⟨_,b,t,ladder,hrun,rfl,hb,hshows⟩

end LowLatencyLob.Feed
