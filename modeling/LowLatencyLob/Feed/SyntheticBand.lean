import LowLatencyLob.Feed.SyntheticRuns
import Mathlib.Algebra.Order.Group.Abs

/-! When the generated prices stay in the band around `mid`.

The edge churn begins nine ticks out and a recovery is at least ten levels long, however
narrow the band is. A stream stays in its band as long as it comes to no churn that the band
has no room for, and to no recovery with more levels to set than the band has. -/
namespace LowLatencyLob.Feed.Synthetic
open Book Concurrency Program Sequence

/-- A price in the band, and not at `mid`. -/
def Near (cfg : GenConfig) (px : Px) : Prop :=
  1 ≤ |px.toInt-cfg.mid.toInt| ∧ |px.toInt-cfg.mid.toInt| ≤ cfg.band.toInt

/-- Every level and every trade is in the band, and so is the touch in every replay. -/
structure InBand (cfg : GenConfig) (evs : List BookEvent) : Prop where
  prices : ∀ ev ∈ evs, ev.kind ≠ .clear → Near cfg ev.px
  touch : ∀ pre, pre <+: evs → ∃ b, replay (default : BTreeBook) pre = some b ∧
    (∀ bid, OrderBook.bestBid b = some (some bid) → |bid.1.toInt-cfg.mid.toInt| ≤ cfg.band.toInt) ∧
    ∀ ask, OrderBook.bestAsk b = some (some ask) → |ask.1.toInt-cfg.mid.toInt| ≤ cfg.band.toInt

/-- The stream of a configuration is in its band. -/
def StaysInBand (cfg : GenConfig) : Prop := ∃ evs, Generates cfg evs ∧ InBand cfg evs

/-- A band of at least one tick, in range around `mid`. -/
structure BandFits (cfg : GenConfig) : Prop extends Sane cfg where
  pos : 1 ≤ cfg.band.toInt
  low : -2^63 ≤ cfg.mid.toInt-cfg.band.toInt
  high : cfg.mid.toInt+cfg.band.toInt < 2^63

section Keeps
variable {cfg : GenConfig} {side : Side} {px : Px} {evs : List BookEvent}

theorem near_of_offset (hf : BandFits cfg) {off : Int64} (hlo : 1 ≤ off.toInt) (hhi : off.toInt ≤ cfg.band.toInt)
    (side : Side) : Near cfg (pxAt cfg side off) := by
  have hlow := hf.low
  have hhigh := hf.high
  have habs : |(pxAt cfg side off).toInt-cfg.mid.toInt| = off.toInt := by
    cases side with
    | bid =>
      change |(cfg.mid-off).toInt-cfg.mid.toInt| = off.toInt
      rw [toInt_sub (by omega) (by omega), abs_of_nonpos (by omega)]
      omega
    | ask =>
      change |(cfg.mid+off).toInt-cfg.mid.toInt| = off.toInt
      rw [toInt_add (by omega) (by omega), abs_of_nonneg (by omega)]
      omega
  unfold Near
  rw [habs]
  exact ⟨hlo,hhi⟩

theorem Placed.near (h : Placed cfg side px) (hf : BandFits cfg) (hreach : reach cfg ≤ cfg.band.toInt) :
    Near cfg px := by
  obtain ⟨off,rfl,hlo,hhi⟩ := h
  exact near_of_offset hf hlo (hhi.trans hreach) side

theorem mem_update {t : Std.TreeMap Px Qty} {px' : Px} {qty : Qty} (h : px' ∈ BTreeBook.update t px qty) :
    px' ∈ t ∨ px' = px := by
  rcases getElem?_update (Std.TreeMap.getElem?_eq_some_getElem h) with hget | ⟨rfl,_⟩
  · rw [← Std.TreeMap.isSome_getElem?_iff_mem, hget]
    exact .inl rfl
  · exact .inr rfl

/-- What rests in a replayed book was set by a level. -/
theorem exists_level_of_rests (h : px ∈ (replayed evs).bids ∨ px ∈ (replayed evs).asks) :
    ∃ ev ∈ evs, ev.kind = .level ∧ ev.px = px := by
  induction evs using List.reverseRecOn with
  | nil =>
    rcases h with h | h
    · cases h
    · cases h
  | append_singleton evs ev ih =>
    have hold : (px ∈ (replayed evs).bids ∨ px ∈ (replayed evs).asks) →
        ∃ ev' ∈ evs ++ [ev], ev'.kind = .level ∧ ev'.px = px := by
      intro hrests
      obtain ⟨ev',hev',hset⟩ := ih hrests
      exact ⟨ev',List.mem_append_left _ hev',hset⟩
    have hnew : ev.kind = .level → px = ev.px → ∃ ev' ∈ evs ++ [ev], ev'.kind = .level ∧ ev'.px = px :=
      fun hk hpx => ⟨ev,List.mem_append_right _ List.mem_cons_self,hk,hpx.symm⟩
    rw [replayed_append, BTreeBook.apply] at h
    cases hk : ev.kind with
    | level =>
      rw [hk] at h
      cases hs : ev.side with
      | bid =>
        rw [hs] at h
        rcases h with h | h
        · exact (mem_update h).elim (fun hmem => hold (.inl hmem)) (hnew hk)
        · exact hold (.inr h)
      | ask =>
        rw [hs] at h
        rcases h with h | h
        · exact hold (.inl h)
        · exact (mem_update h).elim (fun hmem => hold (.inr hmem)) (hnew hk)
    | trade =>
      rw [hk] at h
      exact hold h
    | clear =>
      rw [hk] at h
      rcases h with h | h
      · cases h
      · cases h

/-- Where all prices are in the band, the touch is. -/
theorem inBand_of_prices (h : ∀ ev ∈ evs, ev.kind ≠ .clear → Near cfg ev.px) : InBand cfg evs := by
  refine ⟨h,fun pre hpre => ?_⟩
  have hnear : ∀ px, (px ∈ (replayed pre).bids ∨ px ∈ (replayed pre).asks) →
      |px.toInt-cfg.mid.toInt| ≤ cfg.band.toInt := by
    intro px hrests
    obtain ⟨ev,hev,hk,rfl⟩ := exists_level_of_rests hrests
    exact (h ev (hpre.subset hev) (by simp [hk])).2
  exact ⟨_,replay_eq pre,fun bid hbid => hnear _ (.inl (mem_of_bestBid hbid)),
    fun ask hask => hnear _ (.inr (mem_of_bestAsk hask))⟩

/-- Levels in the band are enough: a trade is at the price of one. -/
theorem inBand_of_levels {sim : Sim} (ho : Orderly cfg sim) (h : ∀ ev ∈ sim.out, ev.kind = .level → Near cfg ev.px) :
    InBand cfg sim.out := by
  refine inBand_of_prices fun ev hev hk => ?_
  cases hkind : ev.kind with
  | level => exact h ev hev hkind
  | clear => exact absurd hkind hk
  | trade =>
    obtain ⟨pre,post,hout⟩ := List.append_of_mem hev
    have hpre : pre ++ [ev] <+: sim.out := ⟨post,by rw [hout, List.append_assoc]; rfl⟩
    obtain ⟨qty,htouch⟩ := ho.touches pre ev hpre hkind
    have hrests : ev.px ∈ (replayed pre).bids ∨ ev.px ∈ (replayed pre).asks := by
      cases hs : ev.side with
      | bid =>
        rw [hs] at htouch
        exact .inr (mem_of_bestAsk htouch)
      | ask =>
        rw [hs] at htouch
        exact .inl (mem_of_bestBid htouch)
    obtain ⟨ev',hev',hk',hpx⟩ := exists_level_of_rests hrests
    rw [← hpx]
    exact h ev' (((List.prefix_append _ _).trans hpre).subset hev') hk'

/-- With room for the churn and the recovery, every stream stays in the band. -/
theorem stays_in_band (hf : BandFits cfg) (hreach : reach cfg ≤ cfg.band.toInt) : StaysInBand cfg := by
  obtain ⟨sim,h⟩ := exists_generates cfg
  refine ⟨sim.out,⟨sim,h,rfl⟩,inBand_of_prices fun ev hev hk => ?_⟩
  have hproper := (generate_orderly hf.toSane h).proper ev hev
  cases hkind : ev.kind with
  | level => exact (hproper.level hkind).1.near hf hreach
  | trade => exact (hproper.trade hkind).1.near hf hreach
  | clear => exact absurd hkind hk

/-- The ladder stays in every band. -/
theorem stays_short (hf : BandFits cfg) (hshort : cfg.events ≤ 2*cfg.band.toInt.toNat+1) : StaysInBand cfg := by
  obtain ⟨_,sim,h,hladder⟩ := (short_does hf.toSane hshort).returns
  refine ⟨sim.out,⟨sim,h,rfl⟩,inBand_of_prices fun ev hev hk => ?_⟩
  obtain ⟨side,off,hpx,hlo,hhi⟩ := hladder ev hev hk
  rw [hpx]
  exact near_of_offset hf hlo hhi side

end Keeps
section Moments
variable {cfg : GenConfig} {s : Sim}

/-- When a steady event begins, a band without room for a churn is not in for one; and when
a recovery does, no more levels are still to come than the band has. -/
structure KeepsRoom (cfg : GenConfig) : Prop where
  churn : ∀ s, Comes Sim.exec (steadyEvent cfg) (generate cfg) (.new cfg) s → s.out.length < s.target →
    9 ≤ cfg.band.toInt ∨ s.churns = false
  recovery : cfg.profile = .flashCrash → ∀ s, Comes Sim.exec (recovery cfg) (generate cfg) (.new cfg) s →
    (max (sweep cfg/2) 1).toInt ≤ cfg.band.toInt ∨ s.target ≤ s.out.length+cfg.band.toInt.toNat

/-- The same, of what is left of the code at one moment. -/
structure Room (cfg : GenConfig) {α : Type} (p : Gen α) (s : Sim) : Prop where
  churn : ∀ k, p = steadyEvent cfg >>= k → s.out.length < s.target → 9 ≤ cfg.band.toInt ∨ s.churns = false
  recovery : cfg.profile = .flashCrash → ∀ k, p = recovery cfg >>= k →
    (max (sweep cfg/2) 1).toInt ≤ cfg.band.toInt ∨ s.target ≤ s.out.length+cfg.band.toInt.toNat

theorem KeepsRoom.always (h : KeepsRoom cfg) : Always Sim.exec (Room cfg) (generate cfg) (.new cfg) := by
  intro q s hr
  constructor
  · rintro k rfl
    exact h.churn s ⟨k,hr⟩
  · rintro hp k rfl
    exact h.recovery hp s ⟨k,hr⟩

theorem room_initial (cfg : GenConfig) : Initial (Room cfg) := by
  intro α β p f s h
  constructor
  · rintro k rfl
    exact h.churn _ (bind_assoc _ _ _)
  · rintro hp k rfl
    exact h.recovery hp _ (bind_assoc _ _ _)

/-- A level that is put out is in the band, or takes away the best bid. -/
def Confined (cfg : GenConfig) : Op → Sim → Prop
  | .level _ px _, s => s.target ≤ s.out.length ∨ Near cfg px ∨ s.bestBid = some px
  | _, _ => True

/-- The code sets no level outside the band. -/
abbrev Confines (cfg : GenConfig) {α : Type} (p : Gen α) (s : Sim) : Prop := Safe Sim.exec (Confined cfg) p s

/-- Once the target is reached nothing is put out. -/
theorem confines_full {α : Type} (p : Gen α) (h : s.target ≤ s.out.length) : Confines cfg p s := by
  intro a k s' hr
  have hfull : s'.target ≤ s'.out.length := by
    refine hr.keeps (I := fun s => s.target ≤ s.out.length) (fun a s hs => ?_) h
    rcases s.exec_cases a with ⟨_,rng,ts,heq,_⟩ | ⟨ev,_,heq,_⟩
    · rw [heq]
      exact hs
    · rw [heq]
      exact hs.trans (List.prefix_append _ _).length_le
  cases a with
  | level side px qty => exact .inl hfull
  | _ => trivial

section Parts

theorem below_confines (n : UInt64) : Confines cfg (below n) s := .access trivial (.done _ _)

theorem rollI64_confines (n : Int64) : Confines cfg (rollI64 n) s := by
  unfold rollI64
  split_ifs
  · exact .done _ s
  · exact .done _ s
  · exact (below_confines _).bind fun _ _ _ => .done _ _

theorem randQty_confines : Confines cfg (randQty cfg) s := (rollI64_confines _).bind fun _ _ _ => .done _ _

theorem randSide_confines : Confines cfg randSide s := by
  refine (below_confines 2).bind fun x s' _ => ?_
  split_ifs
  · exact .done _ s'
  · exact .done _ s'

theorem geoOffset_confines (cap : Int64) : Confines cfg (geoOffset cap) s := by
  refine .repeats (I := fun _ _ => True) trivial fun off s _ => ⟨?_,fun r s' _ => ?_⟩
  · split_ifs
    · refine (below_confines 2).bind fun x s' _ => ?_
      split_ifs
      · exact .done _ s'
      · exact .done _ s'
    · exact .done _ s
  · cases r with
    | inl off' => trivial
    | inr off' => exact .done _ s'

theorem level_confines {side : Side} {px : Px} {qty : Qty} (h : Near cfg px) : Confines cfg (level side px qty) s :=
  .access (.inr (.inl h)) (.done _ _)

theorem pause_confines (n : UInt64) (f : UInt64 → UInt64) : Confines cfg (below n >>= fun x => wait (f x)) s :=
  (below_confines n).bind fun _ _ _ => .access trivial (.done _ _)

theorem levelUpdate_confines (hf : BandFits cfg) : Confines cfg (levelUpdate cfg) s := by
  refine randSide_confines.bind fun side s₁ _ => (geoOffset_confines _).bind fun off s₂ h₂ => ?_
  have hoff := ((@geoOffset_does cfg s₁ _).of_returns h₂).1
  have hnear : Near cfg (pxAt cfg side off) := by
    have hone : (1 : Int64).toInt = 1 := rfl
    have hpos := hf.pos
    rw [toInt_min, toInt_max, hone] at hoff
    exact near_of_offset hf hoff.1 (by omega) side
  refine (below_confines 10).bind fun x s₃ _ => ?_
  split_ifs
  · exact level_confines hnear
  · exact randQty_confines.bind fun q s₄ _ => level_confines hnear

/-- A band of nine ticks or more has room for the churn. -/
theorem edgeChurn_confines (hf : BandFits cfg) (hband : 9 ≤ cfg.band.toInt) : Confines cfg (edgeChurn cfg) s := by
  refine randSide_confines.bind fun side s₁ _ => (rollI64_confines _).bind fun x s₂ h₂ => ?_
  obtain ⟨hlo,hhi⟩ := ((@rollI64_does cfg s₁ _).of_returns h₂).1
  have hnear : Near cfg (pxAt cfg side (STEADY_DEPTH+1+x)) := by
    have hdepth : STEADY_DEPTH.toInt = 8 := rfl
    have hstart : (STEADY_DEPTH+1).toInt = 9 := rfl
    have hband₁ := cfg.band.toInt_lt
    rw [toInt_sub (by omega) (by omega), hdepth] at hhi
    have hoff : (STEADY_DEPTH+1+x).toInt = 9+x.toInt := by
      rw [toInt_add, hstart] <;> omega
    exact near_of_offset hf (by omega) (by omega) side
  refine (below_confines 2).bind fun y s₃ _ => ?_
  split_ifs
  · exact randQty_confines.bind fun q s₄ _ => level_confines hnear
  · exact level_confines hnear

theorem tryTrade_confines : Confines cfg (tryTrade cfg) s := by
  have htrade : ∀ {side px s}, Confines cfg (do
      let q ← randQty cfg
      trade side px q
      return true) s := fun {_ _ _} => randQty_confines.bind fun _ _ _ => .access trivial (.done _ _)
  refine (below_confines 2).bind fun x s₁ _ => ?_
  split_ifs
  · refine .access trivial ?_
    cases (Sim.exec .bestBid s₁).1 with
    | none => exact .done _ _
    | some bb => exact htrade
  · refine .access trivial ?_
    cases (Sim.exec .bestAsk s₁).1 with
    | none => exact .done _ _
    | some ba => exact htrade

/-- A steady event stays in the band, unless it churns in a band without room for that. -/
theorem steadyEvent_confines (hf : BandFits cfg)
    (hchurn : s.out.length < s.target → 9 ≤ cfg.band.toInt ∨ s.churns = false) : Confines cfg (steadyEvent cfg) s := by
  by_cases hroom : s.out.length < s.target
  swap
  · exact confines_full _ (not_lt.mp hroom)
  unfold Sim.churns at hchurn
  refine .access trivial ?_
  rw [exec_below]
  generalize s.rng.below 100 = draw at hchurn ⊢
  obtain ⟨r,rng⟩ := draw
  have hroom₁ : ({ s with rng := rng } : Sim).out.length < ({ s with rng := rng } : Sim).target := hroom
  change Confines cfg (if r < TRADE_PCT then _ else _) _
  by_cases hr : r < TRADE_PCT
  · simp only [if_pos hr] at hchurn ⊢
    refine tryTrade_confines.bind fun traded s₂ h₂ => ?_
    have htraded := ((tryTrade_does hroom₁).of_returns h₂).2
    cases traded with
    | true => exact .done _ _
    | false =>
      have hband : 9 ≤ cfg.band.toInt := by
        refine (hchurn hroom).resolve_right fun hno => ?_
        rw [hno] at htraded
        cases htraded
      change Confines cfg (if r < TRADE_PCT+CHURN_PCT then edgeChurn cfg else levelUpdate cfg) s₂
      split_ifs
      · exact edgeChurn_confines hf hband
      · exact levelUpdate_confines hf
  · simp only [if_neg hr] at hchurn ⊢
    change Confines cfg (if r < TRADE_PCT+CHURN_PCT then edgeChurn cfg else levelUpdate cfg) _
    split_ifs with hedge
    · refine edgeChurn_confines hf ((hchurn hroom).resolve_right fun hno => ?_)
      exact of_decide_eq_false hno hedge
    · exact levelUpdate_confines hf

theorem calmTurn_confines (hf : BandFits cfg) {pause : Gen Unit} (hpause : ∀ s, Confines cfg pause s)
    (h : Always Sim.exec (Room cfg) (calmTurn cfg pause) s) : Confines cfg (calmTurn cfg pause) s := by
  refine h.bind (room_initial cfg) (fun _ => .access trivial (.done _ _)) fun isFull s₁ _ h₁ => ?_
  cases isFull with
  | true => exact .done _ s₁
  | false =>
    have hchurn := (h₁ _ _ (.here _ _)).churn _ rfl
    exact (steadyEvent_confines hf hchurn).bind fun _ s₂ _ => (hpause s₂).bind fun _ s₃ _ => .done _ s₃

theorem burstCycle_confines (hf : BandFits cfg) (h : Always Sim.exec (Room cfg) (burstCycle cfg) s) :
    Confines cfg (burstCycle cfg) s := by
  refine h.bind (room_initial cfg) (fun _ => below_confines _) fun x s₁ _ h₁ => ?_
  refine h₁.bind (room_initial cfg) (fun hcalm => ?_) fun quit s₂ _ h₂ => ?_
  · exact hcalm.times (room_initial cfg) fun s => calmTurn_confines hf fun _ => pause_confines _ _
  cases quit with
  | true => exact .done _ s₂
  | false =>
    refine h₂.bind (room_initial cfg) (fun _ => below_confines _) fun y s₃ _ h₃ => ?_
    refine h₃.bind (room_initial cfg) (fun hburst => ?_) fun _ s₄ _ _ => .done _ s₄
    exact hburst.times (room_initial cfg) fun s => calmTurn_confines hf fun _ => pause_confines _ _

theorem full_confines {α : Type} {f : Bool → Gen α} (h : ∀ b, Confines cfg (f b) s) : Confines cfg (full >>= f) s :=
  .access trivial (h _)

theorem bestBid_confines {α : Type} {f : Option Px → Gen α} (h : Confines cfg (f s.bestBid) s) :
    Confines cfg (bestBid >>= f) s := .access trivial h

/-- A cascade takes away best bids. -/
theorem cascadeTurn_confines : Confines cfg cascadeTurn s := by
  refine full_confines fun b => ?_
  cases b with
  | true => exact .done _ _
  | false =>
    refine bestBid_confines ?_
    cases hbest : s.bestBid with
    | none => exact .done _ _
    | some bb =>
      have hkeeps : ∀ q, (s.trade .ask bb q).bestBid = some bb := by
        intro q
        unfold Sim.trade
        split_ifs <;> exact hbest
      refine .access trivial (.access trivial (.access (.inr (.inr (hkeeps _))) ?_))
      exact (pause_confines 3 fun x => x).bind fun _ s₄ _ => .done _ s₄

/-- A recovery that has room sets no level outside the band. -/
theorem recovery_confines (hf : BandFits cfg) (hp : cfg.profile = .flashCrash)
    (hroom : (max (sweep cfg/2) 1).toInt ≤ cfg.band.toInt ∨ s.target ≤ s.out.length+cfg.band.toInt.toNat) :
    Confines cfg (recovery cfg) s := by
  rw [recovery_eq]
  refine .repeats (I := fun k s' => 1 ≤ k.toInt ∧ s'.target = s.target ∧
    (s.out.length : ℤ)+k.toInt = s'.out.length+1) ⟨le_rfl,rfl,rfl⟩ ?_
  rintro k s₁ ⟨hlo,htarget,hlen⟩
  refine ⟨?_,fun r s₂ hr => ?_⟩
  · unfold recoveryTurn
    split_ifs with hk
    swap
    · exact .done _ s₁
    refine .access trivial ?_
    by_cases hfull : s₁.out.length < s₁.target
    swap
    · exact confines_full _ (not_lt.mp hfull)
    have hnot : (Sim.exec .full s₁).1 = false := Sim.not_full hfull
    rw [hnot]
    rw [Int64.le_iff_toInt_le] at hk
    have hnear : Near cfg (pxAt cfg .bid k) := near_of_offset hf hlo (by omega) .bid
    refine randQty_confines.bind fun q s₃ _ => .access (.inr (.inl hnear)) ?_
    exact (pause_confines _ _).bind fun _ s₄ _ => .done _ s₄
  · have hturned := (recoveryTurn_does hp hlo).of_returns hr
    cases r with
    | inl k' =>
      obtain ⟨rfl,hk,_,htarget',hlen'⟩ := hturned
      have hnext := toInt_next_level hk
      exact ⟨by omega,htarget'.trans htarget,by omega⟩
    | inr _ => exact .done _ s₂

theorem crashCycle_confines (hf : BandFits cfg) (hp : cfg.profile = .flashCrash)
    (h : Always Sim.exec (Room cfg) (crashCycle cfg) s) : Confines cfg (crashCycle cfg) s := by
  refine h.bind (room_initial cfg) (fun _ => below_confines _) fun x s₁ _ h₁ => ?_
  refine h₁.bind (room_initial cfg) (fun hcalm => ?_) fun quit s₂ _ h₂ => ?_
  · exact hcalm.times (room_initial cfg) fun s => calmTurn_confines hf fun _ => pause_confines _ _
  cases quit with
  | true => exact .done _ s₂
  | false =>
    refine h₂.bind (room_initial cfg) (fun hcascade => ?_) fun quit' s₃ _ h₃ => ?_
    · exact hcascade.times (room_initial cfg) fun _ _ => cascadeTurn_confines
    cases quit' with
    | true => exact .done _ s₃
    | false =>
      exact recovery_confines hf hp ((h₃ _ _ (.here _ _)).recovery hp .done rfl)

/-- The ladder is in the band. -/
theorem seed_confines (hf : BandFits cfg) : Confines cfg (seed cfg) s := by
  have hladder : Ends Sim.exec (Confined cfg) (fun _ _ => True) (seed cfg) s := by
    refine .access trivial (.repeats (I := fun off _ => 1 ≤ off.toInt) (K := fun _ _ => True)
      (fun off _ => (cfg.band.toInt+1-off.toInt).toNat) le_rfl ?_ fun _ _ _ => .done trivial)
    intro off s₁ hlo
    split_ifs with hoff
    · rw [Int64.le_iff_toInt_le] at hoff
      have hnear := near_of_offset hf hlo hoff
      have hnext : (off+1).toInt = off.toInt+1 := by
        have hone : (1 : Int64).toInt = 1 := rfl
        have hfits := hf.fits
        rw [toInt_add, hone] <;> omega
      have hless : (cfg.band.toInt+1-(off+1).toInt).toNat < (cfg.band.toInt+1-off.toInt).toNat := by omega
      refine .access trivial ?_
      cases (Sim.exec .full s₁).1 with
      | true => exact .done trivial
      | false =>
        exact .access (.inr (.inl (hnear .bid))) (.access (.inr (.inl (hnear .ask))) (.done ⟨by omega,hless⟩))
    · exact .done trivial
  exact .of_ends hladder

theorem generate_confines (hf : BandFits cfg) (h : KeepsRoom cfg) : Confines cfg (generate cfg) (.new cfg) := by
  refine h.always.bind (room_initial cfg) (fun _ => seed_confines hf) fun _ s₁ _ h₁ => ?_
  refine h₁.repeats (room_initial cfg) (fun _ s₂ h₂ => ?_) fun _ s₂ => .done _ s₂
  refine h₂.bind (room_initial cfg) (fun _ => .access trivial (.done _ _)) fun isFull s₃ _ h₃ => ?_
  cases isFull with
  | true => exact .done _ s₃
  | false =>
    cases hp : cfg.profile with
    | steady =>
      simp only [hp] at h₃ ⊢
      have hchurn := (h₃ _ _ (.here _ _)).churn _ rfl
      exact (steadyEvent_confines hf hchurn).bind fun _ s₄ _ => (pause_confines _ _).bind fun _ s₅ _ => .done _ s₅
    | burst =>
      simp only [hp] at h₃ ⊢
      exact h₃.bind (room_initial cfg) (burstCycle_confines hf) fun _ s₄ _ _ => .done _ s₄
    | flashCrash =>
      simp only [hp] at h₃ ⊢
      exact h₃.bind (room_initial cfg) (crashCycle_confines hf hp) fun _ s₄ _ _ => .done _ s₄

end Parts

/-- Every level that is out is in the band. -/
def LevelsNear (cfg : GenConfig) (s : Sim) : Prop := ∀ ev ∈ s.out, ev.kind = .level → Near cfg ev.px

/-- A level that takes away the best bid is at the price of an older one. -/
theorem LevelsNear.exec (h : LevelsNear cfg s) (hsync : s.Synced) (a : Op) (hg : Confined cfg a s) :
    LevelsNear cfg (Sim.exec a s).2 := by
  rcases s.exec_cases a with ⟨_,rng,ts,heq,_⟩ | ⟨ev,hev,heq,_,_,hroom⟩
  · rw [heq]
    exact h
  · rw [heq]
    intro ev' hev' hk
    rcases List.mem_append.mp hev' with hev' | hev'
    · exact h ev' hev' hk
    obtain rfl := List.mem_singleton.mp hev'
    have hnot : ¬ s.target ≤ s.out.length := not_le.mpr hroom
    cases a with
    | level side px qty =>
      unfold Sim.puts at hev
      split_ifs at hev
      cases hev
      rcases hg.resolve_left hnot with hnear | hbest
      · exact hnear
      · have hrests : px ∈ (replayed s.out).bids := by
          obtain ⟨q,hq⟩ := Sim.bids_of_bestBid hbest
          rw [hsync.bids_eq]
          exact Std.TreeMap.mem_iff_isSome_getElem?.mpr (by rw [hq]; rfl)
        obtain ⟨old,hold,hk',hpx⟩ := exists_level_of_rests (.inl hrests)
        exact hpx ▸ h old hold hk'
    | trade aggressor px qty =>
      unfold Sim.puts at hev
      split_ifs at hev
      cases hev
      cases hk
    | clear =>
      unfold Sim.puts at hev
      split_ifs at hev
      cases hev
      cases hk
    | _ => cases hev

/-- A run that keeps room stays in its band. -/
theorem stays_of_room (hf : BandFits cfg) (h : KeepsRoom cfg) : StaysInBand cfg := by
  obtain ⟨sim,hr⟩ := exists_generates cfg
  have hends := (generate_does cfg).along (generate_confines hf h)
  have hnear : sim.Synced ∧ LevelsNear cfg sim :=
    hends.keeps (I := fun s => s.Synced ∧ LevelsNear cfg s) (fun a s hg hs => ⟨hs.1.exec a,hs.2.exec hs.1 a hg.2⟩) hr
      ⟨⟨rfl,rfl⟩,fun _ hev => absurd hev List.not_mem_nil⟩
  exact ⟨sim.out,⟨sim,hr,rfl⟩,inBand_of_levels (generate_orderly hf.toSane hr) hnear.2⟩

end Moments
end LowLatencyLob.Feed.Synthetic
