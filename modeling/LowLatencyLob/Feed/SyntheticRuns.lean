import LowLatencyLob.Feed.SyntheticSteps
import Mathlib.Data.List.Infix

/-! Whole runs of the generator: its private book is the replayed book, it trades at the
touch, and it puts out exactly the requested stream.

An operation puts out one event at most, so every part of the stream was the whole of it
at some moment. -/
namespace LowLatencyLob.Feed.Synthetic
open Book Concurrency Program Sequence

/-- The event that an operation puts out. -/
def Sim.puts (sim : Sim) : Op → Option BookEvent
  | .level side px qty => if sim.full then none else some (.level sim.seq sim.ts side px qty)
  | .trade aggressor px qty => if sim.full then none else some (.trade sim.seq sim.ts aggressor px qty)
  | .clear => if sim.full then none else some (.clear sim.seq sim.ts)
  | _ => none

/-- The book of events that have been replayed. -/
def replayed (evs : List BookEvent) : BTreeBook := evs.foldl BTreeBook.apply default

theorem replay_eq (evs : List BookEvent) : replay (default : BTreeBook) evs = some (replayed evs) := by
  unfold replayed
  generalize (default : BTreeBook) = b
  induction evs generalizing b with
  | nil => rfl
  | cons ev evs ih => exact ih (b.apply ev)

theorem replayed_append (evs : List BookEvent) (ev : BookEvent) :
    replayed (evs ++ [ev]) = (replayed evs).apply ev := List.foldl_concat ..

/-- The private book is the replayed one. -/
structure Sim.Synced (sim : Sim) : Prop where
  bids_eq : (replayed sim.out).bids = sim.bids
  asks_eq : (replayed sim.out).asks = sim.asks

/-- The `Sim` that has put out an event: its private book changes as the event says. -/
def Sim.after (sim : Sim) (ev : BookEvent) : Sim :=
  let book := BTreeBook.apply ⟨sim.bids,sim.asks,none⟩ ev
  { sim with bids := book.bids, asks := book.asks, out := sim.out ++ [ev], seq := sim.seq+1 }

/-- A draw leaves all but the random state. -/
theorem below_drawn (n : UInt64) (sim : Sim) : Drawn sim (Sim.exec (.below n) sim).2 := ⟨_,rfl⟩

/-- All that an operation does: it puts out one event, or it draws or waits at most. -/
theorem Sim.exec_cases (a : Op) (sim : Sim) :
    (sim.puts a = none ∧ ∃ rng ts, (Sim.exec a sim).2 = { sim with rng := rng, ts := ts } ∧
      (ts = sim.ts ∨ ∃ dt, a = .wait dt ∧ ts = sim.ts+dt)) ∨
    ∃ ev, sim.puts a = some ev ∧ (Sim.exec a sim).2 = sim.after ev ∧ ev.seq = sim.seq ∧ ev.ts = sim.ts ∧
      sim.out.length < sim.target := by
  have hroom : ¬ sim.full = true → sim.out.length < sim.target := by simp [Sim.full]
  cases a with
  | level side px qty =>
    change _ ∧ (∃ rng ts, sim.level side px qty = _ ∧ _) ∨ ∃ ev, _ ∧ sim.level side px qty = _ ∧ _
    unfold Sim.level Sim.puts
    split_ifs with hfull
    · exact .inl ⟨rfl,sim.rng,sim.ts,rfl,.inl rfl⟩
    · cases side with
      | bid => exact .inr ⟨_,rfl,rfl,rfl,rfl,hroom hfull⟩
      | ask => exact .inr ⟨_,rfl,rfl,rfl,rfl,hroom hfull⟩
  | trade aggressor px qty =>
    change _ ∧ (∃ rng ts, sim.trade aggressor px qty = _ ∧ _) ∨ ∃ ev, _ ∧ sim.trade aggressor px qty = _ ∧ _
    unfold Sim.trade Sim.puts
    split_ifs with hfull
    · exact .inl ⟨rfl,sim.rng,sim.ts,rfl,.inl rfl⟩
    · exact .inr ⟨_,rfl,rfl,rfl,rfl,hroom hfull⟩
  | clear =>
    change _ ∧ (∃ rng ts, sim.clear = _ ∧ _) ∨ ∃ ev, _ ∧ sim.clear = _ ∧ _
    unfold Sim.clear Sim.puts
    split_ifs with hfull
    · exact .inl ⟨rfl,sim.rng,sim.ts,rfl,.inl rfl⟩
    · exact .inr ⟨_,rfl,rfl,rfl,rfl,hroom hfull⟩
  | below n =>
    obtain ⟨rng,heq⟩ := below_drawn n sim
    exact .inl ⟨rfl,rng,sim.ts,heq,.inl rfl⟩
  | wait dt => exact .inl ⟨rfl,sim.rng,sim.ts+dt,rfl,.inr ⟨dt,rfl,rfl⟩⟩
  | _ => exact .inl ⟨rfl,sim.rng,sim.ts,rfl,.inl rfl⟩

/-- A book changes by what rests in it and the event. -/
theorem apply_congr (b b' : BTreeBook) (hbids : b.bids = b'.bids) (hasks : b.asks = b'.asks) (ev : BookEvent) :
    (b.apply ev).bids = (b'.apply ev).bids ∧ (b.apply ev).asks = (b'.apply ev).asks := by
  unfold BTreeBook.apply
  cases ev.kind with
  | level =>
    cases ev.side with
    | bid => exact ⟨congrArg (BTreeBook.update · ev.px ev.qty) hbids,hasks⟩
    | ask => exact ⟨hbids,congrArg (BTreeBook.update · ev.px ev.qty) hasks⟩
  | trade => exact ⟨hbids,hasks⟩
  | clear => exact ⟨rfl,rfl⟩

/-- The emitters change the private book as the event that they put out does. -/
theorem Sim.Synced.exec {sim : Sim} (h : sim.Synced) (a : Op) : (Sim.exec a sim).2.Synced := by
  rcases sim.exec_cases a with ⟨_,rng,ts,heq,_⟩ | ⟨ev,_,heq,_⟩
  · rw [heq]
    exact ⟨h.bids_eq,h.asks_eq⟩
  · obtain ⟨hbids,hasks⟩ := apply_congr (replayed sim.out) ⟨sim.bids,sim.asks,none⟩ h.bids_eq h.asks_eq ev
    rw [heq]
    constructor
    · change (replayed (sim.out ++ [ev])).bids = _
      rw [replayed_append]
      exact hbids
    · change (replayed (sim.out ++ [ev])).asks = _
      rw [replayed_append]
      exact hasks

section Moments
variable {cfg : GenConfig} {α : Type} {p q : Gen α} {sim sim' : Sim} {evs : List BookEvent}

theorem Sim.exec_grows (a : Op) (sim : Sim) : sim.out <+: (Sim.exec a sim).2.out := by
  rcases sim.exec_cases a with ⟨_,rng,ts,heq,_⟩ | ⟨ev,_,heq,_⟩
  · rw [heq]
  · rw [heq]
    exact List.prefix_append _ _

theorem reaches_grows (h : Reaches Sim.exec p sim q sim') : sim.out <+: sim'.out :=
  h.keeps (I := fun s => sim.out <+: s.out) (fun a s hs => hs.trans (s.exec_grows a)) List.prefix_rfl

/-- Every part of the output was the whole of it at some moment. -/
theorem exists_moment (h : Reaches Sim.exec p sim q sim') (hevs : evs <+: sim'.out) (hsim : sim.out <+: evs) :
    ∃ q' sim'', Reaches Sim.exec p sim q' sim'' ∧ sim''.out = evs := by
  induction h with
  | here p s => exact ⟨p,s,.here p s,hsim.eq_of_length_le hevs.length_le⟩
  | @access a k q s s' h ih =>
    by_cases hnext : (Sim.exec a s).2.out <+: evs
    · obtain ⟨q',s'',hr,hout⟩ := ih hevs hnext
      exact ⟨q',s'',.access hr,hout⟩
    · refine ⟨_,s,.here _ _,?_⟩
      rcases s.exec_cases a with ⟨_,rng,ts,heq,_⟩ | ⟨ev,_,heq,_⟩
      · rw [heq] at hnext
        exact absurd hsim hnext
      · -- Both are parts of the output, and the operation added one event.
        have hgrown := reaches_grows h
        rcases List.prefix_or_prefix_of_prefix hevs hgrown with hle | hle
        · rw [heq] at hle hnext
          rcases List.prefix_concat_iff.mp hle with hwhole | hle
          · rw [hwhole] at hnext
            exact absurd List.prefix_rfl hnext
          · exact hsim.eq_of_length_le hle.length_le
        · exact absurd hle hnext
  | loop h ih =>
    obtain ⟨q',s'',hr,hout⟩ := ih hevs hsim
    exact ⟨q',s'',.loop hr,hout⟩

end Moments
section Orderly
variable {cfg : GenConfig} {sim : Sim} {a : Op} {ev : BookEvent} {side : Side} {px : Px} {qty : Qty}

/-- The levels of one side of the private book. -/
def Sim.resting (sim : Sim) : Side → Std.TreeMap Px Qty
  | .bid => sim.bids
  | .ask => sim.asks

/-- What rests is where the code sets levels, and of a size that it draws. -/
def Stocked (cfg : GenConfig) (sim : Sim) : Prop :=
  ∀ side px qty, (sim.resting side)[px]? = some qty → Placed cfg side px ∧ Sized cfg qty

/-- The side whose orders an aggressor hits. -/
def struck : Side → Side
  | .bid => .ask
  | .ask => .bid

/-- A level on its own side of `mid`, or a trade against one. -/
structure Proper (cfg : GenConfig) (ev : BookEvent) : Prop where
  level : ev.kind = .level → Placed cfg ev.side ev.px ∧ (ev.qty = 0 ∨ Sized cfg ev.qty)
  trade : ev.kind = .trade → Placed cfg (struck ev.side) ev.px ∧ Sized cfg ev.qty

theorem getElem?_update {t : Std.TreeMap Px Qty} {px' : Px} {qty' : Qty}
    (h : (BTreeBook.update t px qty)[px']? = some qty') : t[px']? = some qty' ∨ (px' = px ∧ qty' = qty ∧ qty ≠ 0) := by
  by_cases hpx : px' = px
  · subst px'
    unfold BTreeBook.update at h
    split_ifs at h with hq
    · rw [Std.TreeMap.getElem?_erase, if_pos (Std.compare_eq_iff_eq.mpr rfl)] at h
      cases h
    · rw [Std.TreeMap.getElem?_insert, if_pos (Std.compare_eq_iff_eq.mpr rfl)] at h
      cases h
      exact .inr ⟨rfl,rfl,hq⟩
  · have hne : compare px px' ≠ .eq := fun hc => hpx (Std.compare_eq_iff_eq.mp hc).symm
    unfold BTreeBook.update at h
    split_ifs at h with hq
    · rw [Std.TreeMap.getElem?_erase, if_neg hne] at h
      exact .inl h
    · rw [Std.TreeMap.getElem?_insert, if_neg hne] at h
      exact .inl h

/-- A proper event leaves levels where the code sets them. -/
theorem Stocked.after (h : Stocked cfg sim) (hp : Proper cfg ev) : Stocked cfg (sim.after ev) := by
  intro side px qty hrest
  have hset : ∀ {t : Std.TreeMap Px Qty}, ev.kind = .level → ev.side = side →
      (∀ qty, t[px]? = some qty → Placed cfg side px ∧ Sized cfg qty) →
      (BTreeBook.update t ev.px ev.qty)[px]? = some qty → Placed cfg side px ∧ Sized cfg qty := by
    intro t hk hside hold hget
    rcases getElem?_update hget with hget | ⟨rfl,rfl,hq⟩
    · exact hold qty hget
    · obtain ⟨hplaced,hsized⟩ := hp.level hk
      exact ⟨hside ▸ hplaced,hsized.resolve_left hq⟩
  simp only [Sim.after, BTreeBook.apply] at hrest
  cases hk : ev.kind with
  | level =>
    rw [hk] at hrest
    cases hs : ev.side with
    | bid =>
      rw [hs] at hrest
      cases side with
      | bid => exact hset hk hs (h .bid px) hrest
      | ask => exact h .ask px qty hrest
    | ask =>
      rw [hs] at hrest
      cases side with
      | bid => exact h .bid px qty hrest
      | ask => exact hset hk hs (h .ask px) hrest
  | trade =>
    rw [hk] at hrest
    cases side with
    | bid => exact h .bid px qty hrest
    | ask => exact h .ask px qty hrest
  | clear =>
    rw [hk] at hrest
    cases side with
    | bid => cases hrest
    | ask => cases hrest

/-- What an aggressor hits, rests. -/
theorem rests_of_touch (h : sim.touch side = some px) : ∃ qty, (sim.resting (struck side))[px]? = some qty := by
  cases side with
  | bid =>
    have hmem : px ∈ sim.asks := Std.TreeMap.mem_keys.mp (List.mem_of_head? h)
    exact ⟨_,Std.TreeMap.getElem?_eq_some_getElem hmem⟩
  | ask => exact Sim.bids_of_bestBid h

/-- What is put out is proper. -/
theorem puts_proper (hs : Sane cfg) (h : Stocked cfg sim) (hg : Allowed cfg a sim) (hev : sim.puts a = some ev) :
    Proper cfg ev := by
  cases a with
  | level side px qty =>
    simp only [Sim.puts, Option.ite_none_left_eq_some, Option.some_inj] at hev
    obtain ⟨_,rfl⟩ := hev
    refine ⟨fun _ => ?_,nofun⟩
    rcases hg hs with ⟨hsized,hplaced⟩ | ⟨rfl,rfl,hbest⟩
    · exact ⟨hplaced,hsized⟩
    · obtain ⟨qty,hrest⟩ := Sim.bids_of_bestBid hbest
      exact ⟨(h .bid px qty hrest).1,.inl rfl⟩
  | trade aggressor px qty =>
    simp only [Sim.puts, Option.ite_none_left_eq_some, Option.some_inj] at hev
    obtain ⟨_,rfl⟩ := hev
    refine ⟨nofun,fun _ => ?_⟩
    obtain ⟨htouch,hsize⟩ := hg
    obtain ⟨qty',hrest⟩ := rests_of_touch htouch
    refine ⟨(h _ px qty' hrest).1,?_⟩
    rcases hsize with hsized | ⟨_,hstored⟩
    · exact hsized
    · exact (h .bid px qty hstored).2
  | clear =>
    simp only [Sim.puts, Option.ite_none_left_eq_some, Option.some_inj] at hev
    obtain ⟨_,rfl⟩ := hev
    exact ⟨nofun,nofun⟩
  | _ => cases hev

/-- The best price and quantity on the side that an aggressor hits. -/
def touchOf (b : BTreeBook) : Side → Option (Option (Px × Qty))
  | .bid => OrderBook.bestAsk b
  | .ask => OrderBook.bestBid b

/-- The touch of the private book is that of the replayed one. -/
theorem Sim.Synced.touch (h : sim.Synced) (ht : sim.touch side = some px) :
    ∃ qty, touchOf (replayed sim.out) side = some (some (px,qty)) := by
  cases side with
  | bid =>
    change sim.asks.keys.head? = some px at ht
    rw [← Std.TreeMap.map_fst_toList_eq_keys, List.head?_map] at ht
    obtain ⟨⟨px',qty⟩,hbest,rfl⟩ := Option.map_eq_some_iff.mp ht
    refine ⟨qty,?_⟩
    change some (replayed sim.out).asks.toList.head? = _
    rw [h.asks_eq, hbest]
  | ask =>
    change sim.bids.keys.getLast? = some px at ht
    rw [← Std.TreeMap.map_fst_toList_eq_keys, List.getLast?_map] at ht
    obtain ⟨⟨px',qty⟩,hbest,rfl⟩ := Option.map_eq_some_iff.mp ht
    refine ⟨qty,?_⟩
    change some (replayed sim.out).bids.toList.getLast? = _
    rw [h.bids_eq, hbest]

/-- Trades are put out at the touch. -/
theorem puts_touch (h : sim.Synced) (hg : Allowed cfg a sim) (hev : sim.puts a = some ev) (hk : ev.kind = .trade) :
    ∃ qty, touchOf (replayed sim.out) ev.side = some (some (ev.px,qty)) := by
  cases a with
  | trade aggressor px qty =>
    simp only [Sim.puts, Option.ite_none_left_eq_some, Option.some_inj] at hev
    obtain ⟨_,rfl⟩ := hev
    exact h.touch hg.1
  | level side px qty =>
    simp only [Sim.puts, Option.ite_none_left_eq_some, Option.some_inj] at hev
    obtain ⟨_,rfl⟩ := hev
    cases hk
  | clear =>
    simp only [Sim.puts, Option.ite_none_left_eq_some, Option.some_inj] at hev
    obtain ⟨_,rfl⟩ := hev
    cases hk
  | _ => cases hev

/-- What holds between the operations of the generator. -/
structure Orderly (cfg : GenConfig) (sim : Sim) : Prop where
  synced : sim.Synced
  stocked : Stocked cfg sim
  proper : ∀ ev ∈ sim.out, Proper cfg ev
  touches : ∀ pre ev, pre ++ [ev] <+: sim.out → ev.kind = .trade →
    ∃ qty, touchOf (replayed pre) ev.side = some (some (ev.px,qty))

theorem orderly_new (cfg : GenConfig) : Orderly cfg (.new cfg) where
  synced := ⟨rfl,rfl⟩
  stocked side px qty h := by
    cases side with
    | bid => cases h
    | ask => cases h
  proper ev h := by cases h
  touches pre ev h := by
    have hle := h.length_le
    simp [Sim.new] at hle

theorem Orderly.exec (h : Orderly cfg sim) (hs : Sane cfg) (a : Op) (hg : Allowed cfg a sim) :
    Orderly cfg (Sim.exec a sim).2 := by
  have hsynced := h.synced.exec a
  rcases sim.exec_cases a with ⟨_,rng,ts,heq,_⟩ | ⟨ev,hev,heq,_⟩
  · rw [heq] at hsynced ⊢
    refine ⟨hsynced,fun side => ?_,h.proper,h.touches⟩
    cases side with
    | bid => exact h.stocked .bid
    | ask => exact h.stocked .ask
  · have hproper := puts_proper hs h.stocked hg hev
    have htouch := puts_touch h.synced hg hev
    rw [heq] at hsynced ⊢
    refine ⟨hsynced,h.stocked.after hproper,?_,?_⟩
    · intro ev' hev'
      rcases List.mem_append.mp hev' with hev' | hev'
      · exact h.proper ev' hev'
      · rw [List.mem_singleton.mp hev']
        exact hproper
    · intro pre ev' hpre hk
      rcases List.prefix_concat_iff.mp hpre with hwhole | hpre
      · obtain ⟨rfl,hlast⟩ := List.append_inj' hwhole rfl
        cases hlast
        exact htouch hk
      · exact h.touches pre ev' hpre hk

theorem generate_orderly (hs : Sane cfg) {q : Gen Unit} (h : Reaches Sim.exec (generate cfg) (.new cfg) q sim) :
    Orderly cfg sim :=
  (generate_does cfg).keeps (fun a _ hg hi => hi.exec hs a hg) h (orderly_new cfg)

/-- At every moment of `generate` the private book is that of a `BTreeBook` which has
replayed the events so far; and every trade was put out at the touch of that book, then. -/
theorem private_book_replayed (hs : Sane cfg) {q : Gen Unit}
    (h : Reaches Sim.exec (generate cfg) (.new cfg) q sim) :
    (∃ b, replay (default : BTreeBook) sim.out = some b ∧ b.bids = sim.bids ∧ b.asks = sim.asks) ∧
    ∀ pre ev, pre ++ [ev] <+: sim.out → ev.kind = .trade → 1 ≤ ev.qty.toInt ∧
      ∃ b qty, replay (default : BTreeBook) pre = some b ∧ touchOf b ev.side = some (some (ev.px,qty)) := by
  have ho := generate_orderly hs h
  refine ⟨⟨_,replay_eq _,ho.synced.bids_eq,ho.synced.asks_eq⟩,fun pre ev hpre hk => ?_⟩
  have hmem : ev ∈ sim.out := hpre.subset (List.mem_append_right _ List.mem_cons_self)
  obtain ⟨qty,htouch⟩ := ho.touches pre ev hpre hk
  exact ⟨((ho.proper ev hmem).trade hk).2.1,_,qty,replay_eq pre,htouch⟩

/-- A band of one tick: the ladder, and a trade. -/
def oneTrade : GenConfig := ⟨.steady,29,4,100,1,5,0⟩

theorem private_book_replayed_trade : ∃ sim, Returns Sim.exec (generate oneTrade) (.new oneTrade) () sim ∧
    (∃ ev ∈ sim.out, ev.kind = .trade) ∧
    (∃ b, replay (default : BTreeBook) sim.out = some b ∧ b.bids = sim.bids ∧ b.asks = sim.asks) ∧
    ∀ pre ev, pre ++ [ev] <+: sim.out → ev.kind = .trade → 1 ≤ ev.qty.toInt ∧
      ∃ b qty, replay (default : BTreeBook) pre = some b ∧ touchOf b ev.side = some (some (ev.px,qty)) := by
  obtain ⟨_,sim,h,hev⟩ := exists_returns_of_run Sim.exec (generate oneTrade) (.new oneTrade) 100
    (fun sim => sim.out.any fun ev => ev.kind = .trade) (by decide +kernel)
  simp only [List.any_eq_true, decide_eq_true_eq] at hev
  exact ⟨sim,h,hev,private_book_replayed ⟨by decide,by decide⟩ h⟩

end Orderly
section Sides
variable {cfg : GenConfig} {side : Side} {px : Px}

/-- A configuration whose band, and what reaches beyond it, stays in range around `mid`. -/
structure InRange (cfg : GenConfig) : Prop extends Sane cfg where
  low : -2^63 ≤ cfg.mid.toInt-max cfg.band.toInt 10
  high : cfg.mid.toInt+max cfg.band.toInt 10 < 2^63

theorem reach_le (cfg : GenConfig) : reach cfg ≤ max cfg.band.toInt 10 := by
  unfold reach
  split_ifs <;> omega

/-- Each side is built on its own side of `mid`. -/
theorem Placed.beyond_mid (h : Placed cfg side px) (hr : InRange cfg) : better side cfg.mid px := by
  obtain ⟨off,rfl,hlo,hhi⟩ := h
  have hreach := reach_le cfg
  have hlow := hr.low
  have hhigh := hr.high
  cases side with
  | bid =>
    change cfg.mid-off < cfg.mid
    rw [Int64.lt_iff_toInt_lt, toInt_sub] <;> omega
  | ask =>
    change cfg.mid < cfg.mid+off
    rw [Int64.lt_iff_toInt_lt, toInt_add] <;> omega

/-- What `generate` returns. -/
def Generates (cfg : GenConfig) (evs : List BookEvent) : Prop :=
  ∃ sim, Returns Sim.exec (generate cfg) (.new cfg) () sim ∧ sim.out = evs

theorem Generates.unique {evs evs' : List BookEvent} (h : Generates cfg evs) (h' : Generates cfg evs') :
    evs = evs' := by
  obtain ⟨sim,hr,rfl⟩ := h
  obtain ⟨sim',hr',rfl⟩ := h'
  rw [(hr.unique hr').2]

theorem exists_generates (cfg : GenConfig) : ∃ sim, Returns Sim.exec (generate cfg) (.new cfg) () sim := by
  obtain ⟨_,sim,h,_⟩ := (generate_does cfg).returns
  exact ⟨sim,h⟩

/-- Whatever part of the stream has been replayed, the book is one that the generator had. -/
theorem replayed_part {sim : Sim} {pre : List BookEvent} (hs : Sane cfg)
    (h : Returns Sim.exec (generate cfg) (.new cfg) () sim) (hpre : pre <+: sim.out) :
    ∃ sim', Orderly cfg sim' ∧ sim'.out = pre := by
  obtain ⟨q,sim',hr,hout⟩ := exists_moment h hpre List.nil_prefix
  exact ⟨sim',generate_orderly hs hr,hout⟩

/-- A key of the replayed book is a price that the generator sets. -/
theorem Orderly.placed {sim : Sim} (h : Orderly cfg sim) :
    (∀ px ∈ (replayed sim.out).bids, Placed cfg .bid px) ∧ ∀ px ∈ (replayed sim.out).asks, Placed cfg .ask px := by
  rw [h.synced.bids_eq, h.synced.asks_eq]
  constructor
  · intro px hpx
    exact (h.stocked .bid px _ (Std.TreeMap.getElem?_eq_some_getElem hpx)).1
  · intro px hpx
    exact (h.stocked .ask px _ (Std.TreeMap.getElem?_eq_some_getElem hpx)).1

theorem mem_of_mem_toList {t : Std.TreeMap Px Qty} {x : Px × Qty} (h : x ∈ t.toList) : x.1 ∈ t := by
  have hget : t[x.1]? = some x.2 := Std.TreeMap.mem_toList_iff_getElem?_eq_some.mp h
  rw [← Std.TreeMap.isSome_getElem?_iff_mem, hget]
  rfl

theorem mem_of_bestBid {b : BTreeBook} {x : Px × Qty} (h : OrderBook.bestBid b = some (some x)) : x.1 ∈ b.bids :=
  mem_of_mem_toList (List.mem_of_getLast? (Option.some.inj h))

theorem mem_of_bestAsk {b : BTreeBook} {x : Px × Qty} (h : OrderBook.bestAsk b = some (some x)) : x.1 ∈ b.asks :=
  mem_of_mem_toList (List.mem_of_head? (Option.some.inj h))

/-- A book that is not crossed: `mid` is between its sides. -/
structure Uncrossed (mid : Px) (b : BTreeBook) : Prop where
  bids : ∀ px ∈ b.bids, px < mid
  asks : ∀ px ∈ b.asks, mid < px
  bests : ∀ bid ask, OrderBook.bestBid b = some (some bid) → OrderBook.bestAsk b = some (some ask) → bid.1 < ask.1

/-- Every part of the stream leaves a book that is not crossed, and every level has a
quantity that the configuration allows. -/
theorem never_crossed (hr : InRange cfg) : ∃ evs, Generates cfg evs ∧
    (∀ pre, pre <+: evs → ∃ b, replay (default : BTreeBook) pre = some b ∧ Uncrossed cfg.mid b) ∧
    ∀ ev ∈ evs, ev.kind = .level → ev.qty = 0 ∨ (1 ≤ ev.qty.toInt ∧ ev.qty.toInt ≤ max 1 cfg.maxQty.toInt) := by
  obtain ⟨sim,h⟩ := exists_generates cfg
  refine ⟨sim.out,⟨sim,h,rfl⟩,fun pre hpre => ⟨_,replay_eq pre,?_⟩,fun ev hev hk => ?_⟩
  · obtain ⟨sim',ho,rfl⟩ := replayed_part hr.toSane h hpre
    obtain ⟨hbids,hasks⟩ := ho.placed
    have hbelow : ∀ px ∈ (replayed sim'.out).bids, px < cfg.mid := fun px hpx => (hbids px hpx).beyond_mid hr
    have habove : ∀ px ∈ (replayed sim'.out).asks, cfg.mid < px := fun px hpx => (hasks px hpx).beyond_mid hr
    refine ⟨hbelow,habove,fun bid ask hbid hask => ?_⟩
    exact Int64.lt_trans (hbelow _ (mem_of_bestBid hbid)) (habove _ (mem_of_bestAsk hask))
  · exact (((generate_orderly hr.toSane h).proper ev hev).level hk).2

theorem never_crossed_trade : ∃ evs, Generates oneTrade evs ∧
    (∀ pre, pre <+: evs → ∃ b, replay (default : BTreeBook) pre = some b ∧ Uncrossed 100 b) ∧
    ∀ ev ∈ evs, ev.kind = .level → ev.qty = 0 ∨ (1 ≤ ev.qty.toInt ∧ ev.qty.toInt ≤ max 1 5) :=
  never_crossed ⟨⟨by decide,by decide⟩,by decide,by decide⟩

end Sides
end LowLatencyLob.Feed.Synthetic
