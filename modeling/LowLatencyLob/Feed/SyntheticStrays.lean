import LowLatencyLob.Feed.SyntheticBand

/-! When the generated prices leave the band around `mid`: at a churn or a recovery that the
band has no room for, and nowhere else.

A level that is out stays out, so a run that comes to such a moment strays. -/
namespace LowLatencyLob.Feed.Synthetic
open Book Concurrency Program Sequence

section Strays
variable {cfg : GenConfig} {s : Sim}

/-- A level was put out that is not in the band. -/
def Strayed (cfg : GenConfig) (sim : Sim) : Prop := ∃ ev ∈ sim.out, ev.kind = .level ∧ ¬ Near cfg ev.px

theorem Strayed.exec (h : Strayed cfg s) (a : Op) : Strayed cfg (Sim.exec a s).2 := by
  obtain ⟨ev,hev,hstray⟩ := h
  exact ⟨ev,(s.exec_grows a).subset hev,hstray⟩

/-- A price beyond the band, by a few ticks; it may wrap around. -/
theorem not_near (hf : BandFits cfg) (side : Side) {off : Int64} (hlo : cfg.band.toInt < off.toInt)
    (hhi : off.toInt ≤ 10) : ¬ Near cfg (pxAt cfg side off) := by
  have hmid := cfg.mid.toInt_lt
  have hmid' := cfg.mid.le_toInt
  have hpos := hf.pos
  rintro ⟨_,hle⟩
  rw [abs_le] at hle
  cases side with
  | bid =>
    change -cfg.band.toInt ≤ (cfg.mid-off).toInt-_ ∧ (cfg.mid-off).toInt-_ ≤ _ at hle
    rw [Int64.toInt_sub, Int.bmod_eq_emod] at hle
    split at hle <;> omega
  | ask =>
    change -cfg.band.toInt ≤ (cfg.mid+off).toInt-_ ∧ (cfg.mid+off).toInt-_ ≤ _ at hle
    rw [Int64.toInt_add, Int.bmod_eq_emod] at hle
    split at hle <;> omega

theorem level_strays {side : Side} {px : Px} {qty : Qty} (h : s.out.length < s.target) (hpx : ¬ Near cfg px) :
    Visits Sim.exec (Strayed cfg) (level side px qty) s := by
  refine .access ⟨_,_,.here _ _,.level s.seq s.ts side px qty,?_,rfl,hpx⟩
  change _ ∈ (s.level side px qty).out
  rw [Sim.level_out h]
  exact List.mem_append_right _ List.mem_cons_self

/-- The target has not been reached yet. -/
theorem full_visits {P : Sim → Prop} {α : Type} {f : Bool → Gen α} (h : s.out.length < s.target)
    (hf : Visits Sim.exec P (f false) s) : Visits Sim.exec P (full >>= f) s := by
  refine .access ?_
  have hfull : (Sim.exec .full s).1 = false := Sim.not_full h
  rw [hfull]
  exact hf

/-- In a band of fewer than nine ticks, the edge churn is outside. -/
theorem edgeChurn_strays (hf : BandFits cfg) (hband : cfg.band.toInt < 9) (h : s.out.length < s.target) :
    Visits Sim.exec (Strayed cfg) (edgeChurn cfg) s := by
  refine Ends.visits (G := Allowed cfg) randSide_does fun side s₁ h₁ => ?_
  refine Ends.visits (G := Allowed cfg) (rollI64_does _) fun x s₂ h₂ => ?_
  obtain ⟨⟨hlo,hhi⟩,h₂⟩ := h₂
  refine Ends.visits (G := Allowed cfg) (below_does (by decide)) fun y s₃ h₃ => ?_
  have hd₃ := (h₁.trans h₂).trans h₃.2
  have hpx : ¬ Near cfg (pxAt cfg side (STEADY_DEPTH+1+x)) := by
    have hdepth : STEADY_DEPTH.toInt = 8 := rfl
    have hstart : (STEADY_DEPTH+1).toInt = 9 := rfl
    have hpos := hf.pos
    rw [toInt_sub (by omega) (by omega), hdepth] at hhi
    have hoff : (STEADY_DEPTH+1+x).toInt = 9+x.toInt := by
      rw [toInt_add, hstart] <;> omega
    exact not_near hf side (by omega) (by omega)
  split_ifs
  · refine Ends.visits (G := Allowed cfg) randQty_does fun q s₄ h₄ => ?_
    exact level_strays ((hd₃.trans h₄.2).room h) hpx
  · exact level_strays (hd₃.room h) hpx

/-- A steady event that the next draws make a churn. The two ways there are split as the code
does: the draw of a hundred chooses it, or a trade that finds no one to trade with. -/
theorem steadyEvent_strays (hf : BandFits cfg) (hband : cfg.band.toInt < 9) (h : s.out.length < s.target)
    (hchurns : s.churns = true) : Visits Sim.exec (Strayed cfg) (steadyEvent cfg) s := by
  unfold Sim.churns at hchurns
  refine .access ?_
  rw [exec_below]
  generalize s.rng.below 100 = draw at hchurns ⊢
  obtain ⟨r,rng⟩ := draw
  have hroom : ({ s with rng := rng } : Sim).out.length < ({ s with rng := rng } : Sim).target := h
  change Visits Sim.exec (Strayed cfg) (if r < TRADE_PCT then _ else _) _
  by_cases hr : r < TRADE_PCT
  · simp only [if_pos hr] at hchurns ⊢
    refine Ends.visits (G := Allowed cfg) (tryTrade_does hroom) fun traded s₂ ⟨h₂,htraded⟩ => ?_
    rw [hchurns] at htraded
    subst htraded
    have hedge : r < TRADE_PCT+CHURN_PCT := by
      rw [UInt64.lt_iff_toNat_lt] at hr ⊢
      exact hr.trans (by decide)
    change Visits Sim.exec (Strayed cfg) (if r < TRADE_PCT+CHURN_PCT then edgeChurn cfg else levelUpdate cfg) s₂
    rw [if_pos hedge]
    exact edgeChurn_strays hf hband (Drawn.room h₂ hroom)
  · simp only [if_neg hr] at hchurns ⊢
    change Visits Sim.exec (Strayed cfg) (if r < TRADE_PCT+CHURN_PCT then edgeChurn cfg else levelUpdate cfg) _
    rw [if_pos (of_decide_eq_true hchurns)]
    exact edgeChurn_strays hf hband hroom

/-- A draw of five prints no trade: it is the one that churns. -/
theorem churns_of_draw (hdraw : (s.rng.below 100).1 = 5) : s.churns = true := by
  unfold Sim.churns
  generalize s.rng.below 100 = draw at hdraw ⊢
  obtain ⟨r,rng⟩ := draw
  obtain rfl : r = 5 := hdraw
  rfl

/-- A draw moves on by one value, whatever its bound is. -/
theorem below_snd (rng : SplitMix64) (n : UInt64) : (rng.below n).2 = rng.nextU64.2 := by
  unfold SplitMix64.below
  cases rng.nextU64 with
  | mk x rng' => rfl

/-- A stretch of a drawn length, if the second draw churns. -/
theorem stretch_strays (hf : BandFits cfg) (hband : cfg.band.toInt < 9) (h : s.out.length < s.target)
    (hdraw : (s.rng.nextU64.2.below 100).1 = 5) {base n : UInt64} (hbase : 0 < base.toNat) (hbase' : base.toNat < 1000)
    (hn : n ≠ 0) (hn' : n.toNat < 1000) {α : Type} (pause : Gen Unit) (f : Bool → Gen α) :
    Visits Sim.exec (Strayed cfg) (below n >>= fun x => times (base+x).toNat (calmTurn cfg pause) >>= f) s := by
  have hx := s.rng.below_lt hn
  rw [← below_snd s.rng n] at hdraw
  refine .access ?_
  rw [exec_below]
  generalize s.rng.below n = draw at hx hdraw ⊢
  obtain ⟨x,rng⟩ := draw
  have hx' : x.toNat < n.toNat := hx
  obtain ⟨k,hk⟩ := Nat.exists_eq_add_of_lt hbase
  have hcalm : (base+x).toNat = k+x.toNat+1 := by
    rw [toNat_turns hbase' (by omega)]
    omega
  change Visits Sim.exec (Strayed cfg) (times (base+x).toNat _ >>= f) _
  rw [hcalm]
  have hroom : ({ s with rng := rng } : Sim).out.length < ({ s with rng := rng } : Sim).target := h
  have hturn : Visits Sim.exec (Strayed cfg) (calmTurn cfg pause) { s with rng := rng } :=
    full_visits hroom ((steadyEvent_strays hf hband hroom (churns_of_draw hdraw)).bind _)
  exact (hturn.bind _).bind _

/-- A recovery that sets more levels than the band has, with enough events still to come. The
induction is on the levels that are left in the band. -/
theorem recoveryLoop_strays (hf : BandFits cfg) (hp : cfg.profile = .flashCrash)
    (hlong : cfg.band.toInt < (max (sweep cfg/2) 1).toInt) {n : ℕ} {k : Int64} (hlo : 1 ≤ k.toInt)
    (hleft : k.toInt+n = cfg.band.toInt+1) (h : s.out.length+n < s.target) :
    Visits Sim.exec (Strayed cfg) (.loop k (recoveryTurn cfg) .done) s := by
  induction n generalizing k s with
  | zero =>
    have hk : k ≤ max (sweep cfg/2) 1 := by
      rw [Int64.le_iff_toInt_le]
      omega
    have hten : k.toInt ≤ 10 := by
      have hsweep := toInt_sweep hf.toSane
      have hrecover := toInt_recover cfg
      omega
    refine .loop ?_
    unfold recoveryTurn
    rw [if_pos hk]
    refine full_visits (by omega) ?_
    refine Ends.visits (G := Allowed cfg) randQty_does fun q s₁ h₁ => ?_
    have hroom := h₁.2.room (show s.out.length < s.target by omega)
    exact (level_strays hroom (not_near hf .bid (by omega) hten)).bind _
  | succ n ih =>
    have hturn : Visits Sim.exec (Strayed cfg) (.unroll k (recoveryTurn cfg) .done) s := by
      refine Ends.visits (G := Allowed cfg) (recoveryTurn_does hp hlo) fun r s₁ h₁ => ?_
      cases r with
      | inl k' =>
        obtain ⟨rfl,hk,_,htarget,hlen⟩ := h₁
        have hnext := toInt_next_level hk
        exact ih (by omega) (by omega) (by omega)
      | inr _ =>
        obtain ⟨_,hend⟩ := h₁
        omega
    obtain ⟨q,s₁,hr,hstrayed⟩ := hturn
    exact ⟨q,s₁,.loop hr,hstrayed⟩

theorem recovery_strays (hf : BandFits cfg) (hp : cfg.profile = .flashCrash)
    (hlong : cfg.band.toInt < (max (sweep cfg/2) 1).toInt) (h : s.out.length+cfg.band.toInt.toNat < s.target) :
    Visits Sim.exec (Strayed cfg) (recovery cfg) s := by
  have hpos := hf.pos
  have hone : (1 : Int64).toInt = 1 := rfl
  rw [recovery_eq]
  exact recoveryLoop_strays hf hp hlong le_rfl (by omega) h

/-- In a band of fewer than ten ticks, the tenth level of a recovery is outside. -/
theorem crashCycle_strays (hf : BandFits cfg) (hp : cfg.profile = .flashCrash) (hband : cfg.band.toInt < 10)
    (h : s.out.length+449 < s.target) : Visits Sim.exec (Strayed cfg) (crashCycle cfg) s := by
  have hpos := hf.pos
  have hsweep := toInt_sweep hf.toSane
  have hrecover := toInt_recover cfg
  refine Ends.visits (G := Allowed cfg) (below_does (by decide)) fun x s₁ h₁ => ?_
  obtain ⟨hx,rng,rfl⟩ := h₁
  have hx' : x.toNat < 200 := hx
  have hcalm : (200+x).toNat = 200+x.toNat := toNat_turns (by decide) (by omega)
  refine Ends.visits (G := Allowed cfg) (calm_does (fun _ => advanceSteady_does) _) fun quit s₂ h₂ => ?_
  have htarget₂ : s₂.target = s.target := h₂.target_eq
  have hlen₂ : s₂.out.length ≤ s.out.length+(200+x).toNat := h₂.bounded
  cases quit with
  | true =>
    have hfull : s.target ≤ s₂.out.length := h₂.returned rfl
    omega
  | false =>
    refine Ends.visits (G := Allowed cfg) (times_does (fun _ => cascadeTurn_does) _) fun quit' s₃ h₃ => ?_
    have htarget₃ := h₃.target_eq
    have hlen₃ := h₃.bounded
    cases quit' with
    | true =>
      have hfull := h₃.returned rfl
      omega
    | false => exact recovery_strays hf hp (by omega) (by omega)

/-- The first draw of this seed is five of a hundred, and so is the second. -/
theorem draws_five : ((SplitMix64.new 18920).below 100).1 = 5 ∧
    ((SplitMix64.new 18920).nextU64.2.below 100).1 = 5 := by
  decide +kernel

/-- The `Sim` that has put out the ladder of a narrow band. -/
theorem seed_leaves (hs : Sane cfg) (hseed : cfg.seed = 18920) : Does cfg (fun _ s => s.rng = .new 18920 ∧
    s.target = cfg.events ∧ s.out.length ≤ 2*cfg.band.toInt.toNat+1) (seed cfg) (.new cfg) := by
  refine (seed_does rfl).mono fun _ s ⟨htarget,hladder⟩ => ⟨?_,htarget,?_⟩
  · rw [(hladder hs).1.rng_eq, ← hseed]
    rfl
  · have hbounded := (hladder hs).1.bounded
    change _ ≤ 0+_ at hbounded
    omega

/-- Right behind the ladder of a narrow band, one seed churns. -/
theorem generate_churns (hf : BandFits cfg) (hband : cfg.band.toInt < 9) (hseed : cfg.seed = 18920)
    (hlong : 2*cfg.band.toInt.toNat+1 < cfg.events) : Visits Sim.exec (Strayed cfg) (generate cfg) (.new cfg) := by
  refine Ends.visits (G := Allowed cfg) (seed_leaves hf.toSane hseed) fun _ s ⟨hrng,htarget,hlen⟩ => ?_
  have hroom : s.out.length < s.target := by omega
  have hfirst : (s.rng.below 100).1 = 5 := hrng ▸ draws_five.1
  have hsecond : (s.rng.nextU64.2.below 100).1 = 5 := hrng ▸ draws_five.2
  refine .loop (full_visits hroom ?_)
  cases hp : cfg.profile with
  | steady => exact (steadyEvent_strays hf hband hroom (churns_of_draw hfirst)).bind _
  | burst =>
    have hcycle : Visits Sim.exec (Strayed cfg) (burstCycle cfg) s :=
      stretch_strays hf hband hroom hsecond (by decide) (by decide) (by decide) (by decide) _ _
    exact hcycle.bind _
  | flashCrash =>
    have hcycle : Visits Sim.exec (Strayed cfg) (crashCycle cfg) s :=
      stretch_strays hf hband hroom hsecond (by decide) (by decide) (by decide) (by decide) _ _
    exact hcycle.bind _

theorem generate_recovers (hf : BandFits cfg) (hp : cfg.profile = .flashCrash) (hband : cfg.band.toInt < 10)
    (hseed : cfg.seed = 18920) (hevents : cfg.events = 1000) :
    Visits Sim.exec (Strayed cfg) (generate cfg) (.new cfg) := by
  refine Ends.visits (G := Allowed cfg) (seed_leaves hf.toSane hseed) fun _ s ⟨_,htarget,hlen⟩ => ?_
  have hpos := hf.pos
  refine .loop (full_visits (by omega) ?_)
  simp only [hp]
  exact (crashCycle_strays hf hp hband (by omega)).bind _

/-- What has strayed stays in the stream. -/
theorem not_staysInBand (h : Visits Sim.exec (Strayed cfg) (generate cfg) (.new cfg)) :
    ¬ StaysInBand cfg := by
  rintro ⟨evs,hg,hin⟩
  obtain ⟨_,sim,hr,ev,hev,hk,hstray⟩ := h.ends (fun a _ hs => hs.exec a) (generate_does cfg)
  have hg' : Generates cfg sim.out := ⟨sim,hr,rfl⟩
  rw [hg'.unique hg] at hev
  exact hstray (hin.prices ev hev (by simp [hk]))

/-- A run that stays in its band keeps room: a moment that does not is one where it leaves. -/
theorem room_of_stays (hf : BandFits cfg) (h : StaysInBand cfg) : KeepsRoom cfg := by
  constructor
  · intro s hcomes hroom
    by_contra hnot
    obtain ⟨hband,hchurns⟩ := not_or.mp hnot
    exact not_staysInBand
      (hcomes.visits (steadyEvent_strays hf (not_le.mp hband) hroom (Bool.not_eq_false _ ▸ hchurns))) h
  · intro hp s hcomes
    by_contra hnot
    obtain ⟨hlong,hroom⟩ := not_or.mp hnot
    exact not_staysInBand (hcomes.visits (recovery_strays hf hp (not_le.mp hlong) (not_le.mp hroom))) h

/-- A band with room for every churn and recovery keeps room, and so does a stream that ends with
the ladder. -/
theorem keepsRoom_of_bounds (hf : BandFits cfg)
    (h : reach cfg ≤ cfg.band.toInt ∨ cfg.events ≤ 2*cfg.band.toInt.toNat+1) : KeepsRoom cfg := by
  rcases h with hreach | hshort
  · exact room_of_stays hf (stays_in_band hf hreach)
  · exact room_of_stays hf (stays_short hf hshort)

theorem all_in_band_iff (hf : BandFits cfg) :
    (∀ seed events startTs, StaysInBand { cfg with seed := seed, events := events, startTs := startTs }) ↔
    9 ≤ cfg.band.toInt ∧ (cfg.profile = .flashCrash → 10 ≤ cfg.band.toInt) := by
  have hf' : ∀ seed events startTs, BandFits { cfg with seed := seed, events := events, startTs := startTs } :=
    fun _ _ _ => ⟨⟨hf.nonneg,hf.fits⟩,hf.pos,hf.low,hf.high⟩
  constructor
  · intro h
    have hstays := h 18920 1000 cfg.startTs
    have hf₁ := hf' 18920 1000 cfg.startTs
    constructor
    · by_contra hnarrow
      refine not_staysInBand (generate_churns hf₁ (not_le.mp hnarrow) rfl ?_) hstays
      change 2*cfg.band.toInt.toNat+1 < 1000
      omega
    · intro hp
      by_contra hnarrow
      exact not_staysInBand (generate_recovers hf₁ hp (not_le.mp hnarrow) rfl rfl) hstays
  · rintro ⟨hchurn,hrecover⟩ seed events startTs
    refine stays_in_band (hf' _ _ _) ?_
    change max cfg.band.toInt (if cfg.profile = .flashCrash then 10 else 9) ≤ cfg.band.toInt
    split_ifs with hp
    · exact max_le le_rfl (hrecover hp)
    · exact max_le le_rfl hchurn

theorem narrow_in_band_iff (hf : BandFits cfg) (hband : cfg.band.toInt < 9) :
    (∀ seed startTs, StaysInBand { cfg with seed := seed, startTs := startTs }) ↔
    cfg.events ≤ 2*cfg.band.toInt.toNat+1 := by
  have hf' : ∀ seed startTs, BandFits { cfg with seed := seed, startTs := startTs } :=
    fun _ _ => ⟨⟨hf.nonneg,hf.fits⟩,hf.pos,hf.low,hf.high⟩
  constructor
  · intro h
    by_contra hlong
    have hf₁ := hf' 18920 cfg.startTs
    exact not_staysInBand (generate_churns hf₁ hband rfl (not_le.mp hlong)) (h 18920 cfg.startTs)
  · exact fun hshort seed startTs => stays_short (hf' seed startTs) hshort

/-- A stream stays in its band iff its run keeps room. It does if the band reaches as far as the
churn and the recovery do, or the stream ends with the ladder. Whatever the seed and the number of
events, it does in no other band; and in a band without room for the churn, whatever the seed,
with no more events. -/
theorem in_band_iff (hf : BandFits cfg) :
    (StaysInBand cfg ↔ KeepsRoom cfg) ∧
    (reach cfg ≤ cfg.band.toInt ∨ cfg.events ≤ 2*cfg.band.toInt.toNat+1 → KeepsRoom cfg) ∧
    ((∀ seed events startTs, StaysInBand { cfg with seed := seed, events := events, startTs := startTs }) ↔
      9 ≤ cfg.band.toInt ∧ (cfg.profile = .flashCrash → 10 ≤ cfg.band.toInt)) ∧
    (cfg.band.toInt < 9 → ((∀ seed startTs, StaysInBand { cfg with seed := seed, startTs := startTs }) ↔
      cfg.events ≤ 2*cfg.band.toInt.toNat+1)) :=
  ⟨⟨room_of_stays hf,stays_of_room hf⟩,keepsRoom_of_bounds hf,all_in_band_iff hf,narrow_in_band_iff hf⟩

/-- A band of one tick, and a churn on the bid side before the bid in the band goes. -/
def oneTick : GenConfig := ⟨.steady,97,5,100,1,5,0⟩

theorem in_band_iff_one_tick :
    (StaysInBand oneTick ↔ KeepsRoom oneTick) ∧
    (reach oneTick ≤ oneTick.band.toInt ∨ oneTick.events ≤ 2*oneTick.band.toInt.toNat+1 → KeepsRoom oneTick) ∧
    ((∀ seed events startTs, StaysInBand { oneTick with seed := seed, events := events, startTs := startTs }) ↔
      9 ≤ oneTick.band.toInt ∧ (oneTick.profile = .flashCrash → 10 ≤ oneTick.band.toInt)) ∧
    (oneTick.band.toInt < 9 → ((∀ seed startTs, StaysInBand { oneTick with seed := seed, startTs := startTs }) ↔
      oneTick.events ≤ 2*oneTick.band.toInt.toNat+1)) :=
  in_band_iff ⟨⟨by decide,by decide⟩,by decide,by decide,by decide⟩

/-- The best bid of the replayed book is nine ticks from `mid`, in a band of one. -/
theorem leaves_one_tick : BandFits oneTick ∧ ¬ StaysInBand oneTick ∧ ∃ evs, Generates oneTick evs ∧
    (∃ ev ∈ evs, ev.kind = .level ∧ ¬ Near oneTick ev.px) ∧
    ∃ b qty, replay (default : BTreeBook) evs = some b ∧ OrderBook.bestBid b = some (some (91,qty)) := by
  have hf : BandFits oneTick := ⟨⟨by decide,by decide⟩,by decide,by decide,by decide⟩
  obtain ⟨_,sim,hr,hsim⟩ := exists_returns_of_run Sim.exec (generate oneTick) (.new oneTick) 100
    (fun sim => (sim.out.any fun ev => ev.kind = .level ∧ ev.px = 91) && sim.bestBid = some 91) (by decide +kernel)
  simp only [Bool.and_eq_true, List.any_eq_true, decide_eq_true_eq] at hsim
  obtain ⟨⟨ev,hev,hk,hpx⟩,hbest⟩ := hsim
  have hnine : ¬ Near oneTick (pxAt oneTick .bid 9) := not_near hf .bid (by decide) (by decide)
  have hstray : ¬ Near oneTick ev.px := by
    rw [hpx]
    exact hnine
  have htouch : ∃ qty, touchOf (replayed sim.out) .ask = some (some (91,qty)) :=
    (generate_orderly hf.toSane hr).synced.touch hbest
  obtain ⟨qty,htouch⟩ := htouch
  exact ⟨hf,not_staysInBand ⟨_,sim,hr,ev,hev,hk,hstray⟩,sim.out,⟨sim,hr,rfl⟩,⟨ev,hev,hk,hstray⟩,_,qty,
    replay_eq _,htouch⟩

end Strays
end LowLatencyLob.Feed.Synthetic
