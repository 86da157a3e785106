import LowLatencyLob.Feed.RecorderTimes

/-! Replaying a recording at its real arrival times. The sustained and the end-to-end
benchmark have a copy each of the schedule and of its base. -/
namespace LowLatencyLob.Bench
open Book Feed

/-- The arrival schedule of a run. -/
inductive Schedule
  | fixedRate (rate : UInt64)
  | realArrival (firstTs speed : UInt64)

def saturatingSub (a b : UInt64) : UInt64 := if b ≤ a then a-b else 0

/-- The scheduled arrival of event `i`; a division by zero panics. -/
def Schedule.offsetNs (sched : Schedule) (i : ℕ) (ev : BookEvent) : Option UInt64 :=
  match sched with
  | .fixedRate rate => if rate = 0 then none else some (UInt64.ofNat (i*1000000000/rate.toNat))
  | .realArrival firstTs speed => if speed = 0 then none else some (saturatingSub ev.ts firstTs/speed)

/-- The first arrival that is not zero, if any, else the time of the first event. -/
def firstArrivalTs (evs : List BookEvent) : UInt64 :=
  (((evs.map BookEvent.ts).find? fun ts => ts > 0).or (evs.head?.map BookEvent.ts)).getD 0

/-- The replay at a speed never falls back to offset zero. -/
def NeverFallsBack (evs : List BookEvent) (speed : UInt64) : Prop :=
  ∀ i j ev ev', i < j → evs[i]? = some ev → evs[j]? = some ev' →
    ∃ x y, (Schedule.realArrival (firstArrivalTs evs) speed).offsetNs i ev = some x ∧
      (Schedule.realArrival (firstArrivalTs evs) speed).offsetNs j ev' = some y ∧ (0 < x → 0 < y)

theorem toNat_saturatingSub (a b : UInt64) : (saturatingSub a b).toNat = a.toNat-b.toNat := by
  unfold saturatingSub
  split_ifs with h
  · exact UInt64.toNat_sub_of_le _ _ h
  · rw [UInt64.le_iff_toNat_le] at h
    change 0 = _
    omega

/-- A recording whose times ascend is replayed in order. -/
theorem neverFallsBack_of_sorted {evs : List BookEvent} (h : evs.Pairwise fun ev ev' => ev.ts ≤ ev'.ts)
    {speed : UInt64} (hs : speed ≠ 0) : NeverFallsBack evs speed := by
  intro i j ev ev' hij hi hj
  refine ⟨_,_,if_neg hs,if_neg hs,fun hx => ?_⟩
  obtain ⟨hi',rfl⟩ := List.getElem?_eq_some_iff.mp hi
  obtain ⟨hj',rfl⟩ := List.getElem?_eq_some_iff.mp hj
  have hle := List.pairwise_iff_getElem.mp h i j hi' hj' hij
  rw [UInt64.le_iff_toNat_le] at hle
  rw [UInt64.lt_iff_toNat_lt, UInt64.toNat_div, toNat_saturatingSub] at hx ⊢
  refine lt_of_lt_of_le hx (Nat.div_le_div_right ?_)
  omega

/-- What a replay takes for granted of a recording: only a prelude is without times, and the
schedule never falls back, if the times of the exchange ascend. -/
def Replayable (is : List Input) (evs : List BookEvent) : Prop :=
  PreludeFirst evs ∧ ((statedTimes is).Pairwise (· ≤ ·) → ∀ speed, speed ≠ 0 → NeverFallsBack evs speed)

/-- A recording can be replayed just when each of its snapshots was taken before anything
that has a time. -/
theorem replayable_iff {cli : Cli} {scales : Scales} {first : Option Snapshot} {is : List Input} {s : Recorder}
    (h : run cli scales first is = pure s) (hin : ∀ i ∈ is, i.Timed) :
    Replayable is s.em.events ↔ ∀ t ∈ turnsOf cli scales first is, Early cli t := by
  obtain ⟨⟨em,l⟩,hr,hl⟩ := eq_pure_of_bind h
  obtain ⟨snap,_,_,hseed⟩ := resnapshot_ok hr
  obtain ⟨ev,evs,he,hts⟩ := seedSnapshot_stamps hseed
  have hzero : ∀ x ∈ em.events, x.ts = 0 := by
    rw [he, List.nil_append]
    exact hts
  have hturns : turnsOf cli scales first is = visited cli scales ⟨em,l,0,false⟩ is := by
    unfold turnsOf
    rw [hr]
    rfl
  have hp : PreludeFirst em.events := List.pairwise_of_forall_mem_list fun x hx _ _ _ => hzero x hx
  have hiff := prelude_loop hin hp hl
  rw [hturns, ← hiff]
  refine ⟨And.left,fun hprelude => ⟨hprelude,fun ht speed hs => ?_⟩⟩
  have hstart : Ascends is em.events := ascends_of_zero hzero is
  exact neverFallsBack_of_sorted (loop_ascending hin ht (hiff.mp hprelude) hstart hl) hs

/-- The first diff is past the snapshot, so that a second one is taken before it. -/
def lateStart : List Input :=
  [⟨.depthUpdate ⟨some 9,some 9,some 1,some [],some []⟩,some ⟨8,[],[]⟩⟩,
    ⟨.depthUpdate ⟨some 9,some 9,some 2,some [(some (bytes "10.0"),some (bytes "5"))],some []⟩,none⟩]

theorem replayable_late_start :
    Replayable lateStart [.clear 0 0,.clear 1 0,.level 2 2000000 .bid 100 5] := by
  have hrun : run ⟨none,false⟩ tenths (some ⟨5,[],[]⟩) lateStart = pure
      ⟨⟨[.clear 0 0,.clear 1 0,.level 2 2000000 .bid 100 5],3⟩,8,9,true⟩ := rfl
  have hturns : turnsOf ⟨none,false⟩ tenths (some ⟨5,[],[]⟩) lateStart =
      [(⟨⟨[.clear 0 0],1⟩,5,0,false⟩,lateStart[0]),(⟨⟨[.clear 0 0,.clear 1 0],2⟩,8,0,false⟩,lateStart[1])] := rfl
  refine (replayable_iff hrun (by decide)).mpr ?_
  rw [hturns]
  simp only [List.forall_mem_cons]
  exact ⟨fun _ => by simp [BookEvent.clear],fun _ => by simp [BookEvent.clear],by simp⟩

/-- Two diffs, and a third behind a gap, at which a snapshot is taken. -/
def gapped : List Input :=
  [⟨.depthUpdate ⟨some 5,some 6,some 1,some [(some (bytes "10.0"),some (bytes "5"))],some []⟩,none⟩,
    ⟨.depthUpdate ⟨some 7,some 7,some 2,some [(some (bytes "10.1"),some (bytes "5"))],some []⟩,none⟩,
    ⟨.depthUpdate ⟨some 9,some 9,some 3,some [],some []⟩,some ⟨8,[],[]⟩⟩]

/-- The snapshot at the gap has no time, and the replay falls back to offset zero at it. -/
theorem gapped_not_replayable : ∃ s : Recorder, run ⟨none,false⟩ tenths (some ⟨5,[],[]⟩) gapped = pure s ∧
    (∀ i ∈ gapped, i.Timed) ∧ (statedTimes gapped).Pairwise (· ≤ ·) ∧ ¬PreludeFirst s.em.events ∧
      ¬NeverFallsBack s.em.events 1 := by
  have hrun : run ⟨none,false⟩ tenths (some ⟨5,[],[]⟩) gapped = pure
      ⟨⟨[.clear 0 0,.level 1 1000000 .bid 100 5,.level 2 2000000 .bid 101 5,.clear 3 0],4⟩,8,7,false⟩ := rfl
  refine ⟨_,hrun,by decide,by decide,by decide,?_⟩
  intro hnever
  obtain ⟨x,y,hx,hy,hpos⟩ := hnever 2 3 _ _ (by decide) rfl rfl
  cases hx
  cases hy
  exact absurd (hpos (by decide)) (by decide)

end LowLatencyLob.Bench
