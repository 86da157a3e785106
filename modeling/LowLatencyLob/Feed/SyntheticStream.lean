import LowLatencyLob.Feed.SyntheticRuns

/-! The stream that the generator returns: its length, its numbers, its times, and that a
shorter stream is the front of a longer one. -/
namespace LowLatencyLob.Feed.Synthetic
open Book Concurrency Program

section Exact
variable {cfg : GenConfig} {sim : Sim}

/-- The numbers and times so far. Time passes behind an event only, and by less than
`100000`, so an event accounts for the time behind it. -/
structure Timed (cfg : GenConfig) (sim : Sim) : Prop where
  target_eq : sim.target = cfg.events
  length_le : sim.out.length ≤ cfg.events
  seq_eq : sim.seq = UInt64.ofNat sim.out.length
  numbered : ∀ i (ev : BookEvent), sim.out[i]? = some ev → ev.seq = UInt64.ofNat i
  cleared : ∀ i (ev : BookEvent), sim.out[i]? = some ev → ev.kind = .clear → i = 0
  started : sim.out = [] → sim.ts = cfg.startTs
  first : ∀ ev, sim.out.head? = some ev → ev.ts = cfg.startTs
  sorted : sim.out.Pairwise fun ev ev' => ev.ts ≤ ev'.ts
  past : ∀ ev ∈ sim.out, ev.ts ≤ sim.ts
  now_le : sim.ts.toNat ≤ cfg.startTs.toNat+100000*sim.out.length
  last_le : ∀ ev, sim.out.getLast? = some ev → ev.ts.toNat+100000 ≤ cfg.startTs.toNat+100000*sim.out.length

theorem timed_new (cfg : GenConfig) : Timed cfg (.new cfg) where
  target_eq := rfl
  length_le := Nat.zero_le _
  seq_eq := rfl
  numbered i ev h := by cases h
  cleared i ev h := by cases h
  started _ := rfl
  first ev h := by cases h
  sorted := .nil
  past ev h := by cases h
  now_le := le_rfl
  last_le ev h := by cases h

theorem puts_clear {a : Op} {ev : BookEvent} (h : sim.puts a = some ev) (hk : ev.kind = .clear) : a = .clear := by
  cases a with
  | level side px qty =>
    simp only [Sim.puts, Option.ite_none_left_eq_some, Option.some_inj] at h
    obtain ⟨_,rfl⟩ := h
    cases hk
  | trade aggressor px qty =>
    simp only [Sim.puts, Option.ite_none_left_eq_some, Option.some_inj] at h
    obtain ⟨_,rfl⟩ := h
    cases hk
  | clear => rfl
  | _ => cases h

/-- A wait behind an event. -/
theorem Timed.wait (h : Timed cfg sim) (hts : cfg.startTs.toNat+100000*cfg.events < 2^64) {dt : UInt64}
    (hdt : dt.toNat < 100000) (hf : sim.Fresh) (rng : SplitMix64) :
    Timed cfg { sim with rng := rng, ts := sim.ts+dt } := by
  obtain ⟨ev,hlast,hev⟩ := hf
  have hle := h.last_le ev hlast
  have hlen := h.length_le
  rw [hev] at hle
  have hnow : (sim.ts+dt).toNat = sim.ts.toNat+dt.toNat := by
    rw [UInt64.toNat_add, Nat.mod_eq_of_lt (by omega)]
  refine { h with started := fun hnil => ?_, past := fun ev hev => ?_, now_le := ?_ }
  · change sim.out = [] at hnil
    rw [hnil] at hlast
    cases hlast
  · have hpast := h.past ev hev
    rw [UInt64.le_iff_toNat_le] at hpast ⊢
    change ev.ts.toNat ≤ (sim.ts+dt).toNat
    omega
  · change (sim.ts+dt).toNat ≤ _
    rw [hnow]
    change sim.ts.toNat+dt.toNat ≤ cfg.startTs.toNat+100000*sim.out.length
    omega

theorem getElem?_concat_cases {evs : List BookEvent} {ev ev' : BookEvent} {i : ℕ} (h : (evs ++ [ev])[i]? = some ev') :
    evs[i]? = some ev' ∨ (i = evs.length ∧ ev' = ev) := by
  rcases Nat.lt_trichotomy i evs.length with hlt | rfl | hlt
  · rw [List.getElem?_append_left hlt] at h
    exact .inl h
  · rw [List.getElem?_concat_length] at h
    exact .inr ⟨rfl,(Option.some.inj h).symm⟩
  · rw [List.getElem?_eq_none (by rw [List.length_append, List.length_singleton]; omega)] at h
    cases h

theorem Timed.after (h : Timed cfg sim) {ev : BookEvent} (hseq : ev.seq = sim.seq) (hts : ev.ts = sim.ts)
    (hroom : sim.out.length < sim.target) (hk : ev.kind = .clear → sim.out = []) : Timed cfg (sim.after ev) := by
  have hlen : (sim.after ev).out.length = sim.out.length+1 := List.length_append
  have htarget := h.target_eq
  have hnow := h.now_le
  refine ⟨htarget,by omega,?_,?_,?_,?_,?_,?_,?_,?_,?_⟩
  · rw [hlen, UInt64.ofNat_add, ← h.seq_eq]
    rfl
  · intro i ev' hi
    rcases getElem?_concat_cases hi with hi | ⟨rfl,rfl⟩
    · exact h.numbered i ev' hi
    · rw [hseq, h.seq_eq]
  · intro i ev' hi hclear
    rcases getElem?_concat_cases hi with hi | ⟨rfl,rfl⟩
    · exact h.cleared i ev' hi hclear
    · rw [hk hclear, List.length_nil]
  · intro hnil
    rw [hnil] at hlen
    cases hlen
  · intro ev' hhead
    change (sim.out ++ [ev]).head? = some ev' at hhead
    by_cases hnil : sim.out = []
    · rw [hnil] at hhead
      cases hhead
      rw [hts, h.started hnil]
    · rw [List.head?_append_of_ne_nil _ hnil] at hhead
      exact h.first ev' hhead
  · refine List.pairwise_append.mpr ⟨h.sorted,List.pairwise_singleton _ _,fun ev' hev' ev'' hev'' => ?_⟩
    rw [List.mem_singleton.mp hev'', hts]
    exact h.past ev' hev'
  · intro ev' hev'
    change ev'.ts ≤ sim.ts
    rcases List.mem_append.mp hev' with hev' | hev'
    · exact h.past ev' hev'
    · rw [List.mem_singleton.mp hev', hts]
      exact UInt64.le_refl _
  · change sim.ts.toNat ≤ _
    omega
  · intro ev' hlast
    have heq : ev' = ev := by
      change (sim.out ++ [ev]).getLast? = some ev' at hlast
      rw [List.getLast?_concat] at hlast
      exact (Option.some.inj hlast).symm
    rw [heq, hts]
    omega

theorem Timed.exec (h : Timed cfg sim) (hts : cfg.startTs.toNat+100000*cfg.events < 2^64) (a : Op)
    (hg : Allowed cfg a sim) : Timed cfg (Sim.exec a sim).2 := by
  rcases sim.exec_cases a with ⟨_,rng,ts,heq,hwait⟩ | ⟨ev,hev,heq,hseq,hev',hroom⟩
  · rw [heq]
    rcases hwait with rfl | ⟨dt,rfl,rfl⟩
    · exact { h with }
    · exact h.wait hts hg.1 hg.2 rng
  · rw [heq]
    refine h.after hseq hev' hroom fun hk => ?_
    obtain rfl := puts_clear hev hk
    exact hg

/-- The stream opens with a `Clear`. -/
theorem first_clear (h : Returns Sim.exec (generate cfg) (.new cfg) () sim) (he : 0 < cfg.events) :
    ∃ ev, sim.out[0]? = some ev ∧ ev.kind = .clear := by
  have hgrown : (Sim.new cfg).clear.out <+: sim.out := by
    cases h with
    | access h => exact reaches_grows h
  have hclear : (Sim.new cfg).clear.out = [.clear 0 cfg.startTs] := by
    unfold Sim.clear
    rw [if_neg (by simp [Sim.full, Sim.new, he.ne'])]
    rfl
  obtain ⟨rest,hrest⟩ := hgrown
  rw [hclear] at hrest
  exact ⟨.clear 0 cfg.startTs,by rw [← hrest]; rfl,rfl⟩

theorem generate_timed (hts : cfg.startTs.toNat+100000*cfg.events < 2^64) {q : Gen Unit}
    (h : Reaches Sim.exec (generate cfg) (.new cfg) q sim) : Timed cfg sim :=
  (generate_does cfg).keeps (fun a _ hg hi => hi.exec hts a hg) h (timed_new cfg)

/-- Nothing is put out past the target. -/
theorem generate_length (h : Returns Sim.exec (generate cfg) (.new cfg) () sim) :
    sim.out.length = cfg.events := by
  have hle : sim.target = cfg.events ∧ sim.out.length ≤ cfg.events := by
    refine h.keeps (I := fun s => s.target = cfg.events ∧ s.out.length ≤ cfg.events) (fun a s hs => ?_)
      ⟨rfl,Nat.zero_le _⟩
    obtain ⟨htarget,hlen⟩ := hs
    rcases s.exec_cases a with ⟨_,rng,ts,heq,_⟩ | ⟨ev,_,heq,_,_,hroom⟩
    · rw [heq]
      exact ⟨htarget,hlen⟩
    · have hgrown : (s.after ev).out.length = s.out.length+1 := List.length_append
      rw [heq]
      exact ⟨htarget,by omega⟩
  exact le_antisymm hle.2 ((generate_does cfg).of_returns h).2

/-- `generate` returns, and what it returns is the requested stream. -/
theorem generate_exact (hts : cfg.startTs.toNat+100000*cfg.events < 2^64) :
    ∃ evs, (∀ evs', Generates cfg evs' ↔ evs' = evs) ∧ evs.length = cfg.events ∧
      (∀ i (ev : BookEvent), evs[i]? = some ev → ev.seq.toNat = i ∧ (ev.kind = .clear ↔ i = 0)) ∧
      (∀ ev, evs.head? = some ev → ev.ts = cfg.startTs) ∧ evs.Pairwise fun ev ev' => ev.ts ≤ ev'.ts := by
  obtain ⟨sim,h⟩ := exists_generates cfg
  have ht := generate_timed hts h
  have hlen := generate_length h
  refine ⟨sim.out,fun evs' => ⟨fun h' => h'.unique ⟨sim,h,rfl⟩,fun heq => ⟨sim,h,heq.symm⟩⟩,hlen,?_,ht.first,ht.sorted⟩
  intro i ev hi
  have hlt : i < sim.out.length := (List.getElem?_eq_some_iff.mp hi).1
  have hsize : i < UInt64.size := by
    change i < 2^64
    omega
  refine ⟨?_,ht.cleared i ev hi,?_⟩
  · rw [ht.numbered i ev hi, UInt64.toNat_ofNat_of_lt' hsize]
  · rintro rfl
    obtain ⟨first,hfirst,hk⟩ := first_clear h (by omega)
    rw [hi] at hfirst
    cases hfirst
    exact hk

theorem generate_exact_trade : ∃ evs, (∀ evs', Generates oneTrade evs' ↔ evs' = evs) ∧ evs.length = 4 ∧
    (∀ i (ev : BookEvent), evs[i]? = some ev → ev.seq.toNat = i ∧ (ev.kind = .clear ↔ i = 0)) ∧
    (∀ ev, evs.head? = some ev → ev.ts = 0) ∧ evs.Pairwise fun ev ev' => ev.ts ≤ ev'.ts :=
  generate_exact (by decide)

end Exact
section Shorter
variable {s t : Sim} {n m : ℕ}

/-- Two runs that have done the same so far. -/
structure Same (m : ℕ) (s t : Sim) : Prop where
  eq : t = { s with target := m }
  le : s.target ≤ m

/-- The shorter run is at its target, and the longer one goes on from there. -/
structure Parted (s t : Sim) : Prop where
  full : s.target ≤ s.out.length
  front : s.out <+: t.out

/-- A run at its target puts nothing out any more. -/
theorem out_of_full (a : Op) (h : s.target ≤ s.out.length) :
    (Sim.exec a s).2.out = s.out ∧ (Sim.exec a s).2.target = s.target := by
  rcases s.exec_cases a with ⟨_,rng,ts,heq,_⟩ | ⟨ev,_,_,_,_,hroom⟩
  · rw [heq]
    exact ⟨rfl,rfl⟩
  · omega

/-- Below both targets the same is done. -/
theorem Same.exec (h : Same m s t) (hroom : s.out.length < s.target) (a : Op) :
    (Sim.exec a s).1 = (Sim.exec a t).1 ∧ Same m (Sim.exec a s).2 (Sim.exec a t).2 := by
  have htarget : (Sim.exec a s).2.target = s.target := by
    rcases s.exec_cases a with ⟨_,rng,ts,heq,_⟩ | ⟨ev,_,heq,_⟩ <;> rw [heq]
    rfl
  obtain ⟨rfl,hle⟩ := h
  have hs : s.full = false := Sim.not_full hroom
  have ht : ({ s with target := m } : Sim).full = false := Sim.not_full (hroom.trans_le hle)
  have hnext : (Sim.exec a s).1 = (Sim.exec a { s with target := m }).1 ∧
      (Sim.exec a { s with target := m }).2 = { (Sim.exec a s).2 with target := m } := by
    cases a with
    | level side px qty =>
      refine ⟨rfl,?_⟩
      change Sim.level { s with target := m } side px qty = { s.level side px qty with target := m }
      unfold Sim.level
      rw [hs, ht]
      cases side with
      | bid => rfl
      | ask => rfl
    | trade aggressor px qty =>
      refine ⟨rfl,?_⟩
      change Sim.trade { s with target := m } aggressor px qty = { s.trade aggressor px qty with target := m }
      unfold Sim.trade
      rw [hs, ht]
      rfl
    | clear =>
      refine ⟨rfl,?_⟩
      change Sim.clear { s with target := m } = { s.clear with target := m }
      unfold Sim.clear
      rw [hs, ht]
      rfl
    | full => exact ⟨hs.trans ht.symm,rfl⟩
    | _ => exact ⟨rfl,rfl⟩
  exact ⟨hnext.1,hnext.2,htarget ▸ hle⟩

/-- A shorter run ends with the front of what a longer one puts out. -/
theorem returns_front {α : Type} {p : Gen α} {x y : α} {s' t' : Sim} (h : Returns Sim.exec p s x s')
    (h' : Returns Sim.exec p t y t') (hst : Same m s t) : s'.out <+: t'.out := by
  have htwin : Same m s' t' ∨ Parted s' t' := by
    refine Returns.twin (Same m) Parted (fun a s t hst => ?_) (fun a s t hp => ?_) (fun a s t hp => ?_) h h' hst
    · by_cases hroom : s.out.length < s.target
      · exact .inl (hst.exec hroom a)
      · refine .inr ⟨not_lt.mp hroom,?_⟩
        rw [hst.eq]
    · obtain ⟨hout,htarget⟩ := out_of_full a hp.full
      refine ⟨?_,?_⟩
      · rw [hout, htarget]
        exact hp.full
      · rw [hout]
        exact hp.front
    · exact ⟨hp.full,hp.front.trans (t.exec_grows a)⟩
  rcases htwin with hsame | hparted
  · rw [hsame.eq]
  · exact hparted.front

theorem generate_events (cfg : GenConfig) (n : ℕ) : generate { cfg with events := n } = generate cfg := rfl

/-- A shorter stream is the front of a longer one. -/
theorem shorter_is_front (cfg : GenConfig) (h : n ≤ m) :
    ∃ short long, Generates { cfg with events := n } short ∧ Generates { cfg with events := m } long ∧
      short.length = n ∧ long.length = m ∧ short = long.take n := by
  obtain ⟨s,hr⟩ := exists_generates { cfg with events := n }
  obtain ⟨t,hr'⟩ := exists_generates { cfg with events := m }
  have hlen : s.out.length = n := generate_length hr
  have hlen' : t.out.length = m := generate_length hr'
  refine ⟨s.out,t.out,⟨s,hr,rfl⟩,⟨t,hr',rfl⟩,hlen,hlen',?_⟩
  rw [generate_events] at hr hr'
  have hfront := returns_front (m := m) hr hr' ⟨rfl,h⟩
  rw [← hlen]
  exact List.prefix_iff_eq_take.mp hfront

theorem shorter_is_front_trade : ∃ short long, Generates { oneTrade with events := 2 } short ∧
    Generates { oneTrade with events := 4 } long ∧ short.length = 2 ∧ long.length = 4 ∧ short = long.take 2 :=
  shorter_is_front oneTrade (by decide)

end Shorter
end LowLatencyLob.Feed.Synthetic
