import LowLatencyLob.Bench.E2eContract

/-! A consumer thread of a cell: it joins and warms up on an empty ring, arrives at the
barrier, and drains the ring behind it. -/
namespace LowLatencyLob.Bench
open Book Concurrency Engine
open LowLatencyLob.Ring (Thread)

namespace Cell
variable {cell : Cell} {s s' : cell.system.Shared} {i : ℕ} {b : UInt64} {os : List Out} {vs : List UInt64}

section Returns
variable {l l' : Holder BTreeBook} {o : Out}

theorem Has.returned (h : Has i os vs s) (hr : Returned i l o s s') : Has i (os ++ [o]) vs s' where
  good := hr.calm.good h.good
  known := h.known
  polled := by rw [hr.polled, h.polled]
  seen := hr.seen.trans h.seen

theorem Early.returned (h : Early i os s) (hr : Returned i l o s s') : Early i (os ++ [o]) s' :=
  ⟨h.1.returned hr,by rw [hr.calm.arrived]; exact h.2⟩

/-- Before anything is given to the engine every consumer is at the start. -/
theorem cursor_zero {c : Consumer} (h : cell.Good s) (hg : given s = []) (hr : Rests i (.consumer c) s) :
    c.cursor = 0 := by
  have hle := (accounts s.2.object.run h.bounded hr).1
  change c.cursor ≤ (given s).length at hle
  rw [hg] at hle
  exact Nat.le_zero.mp hle

/-- Before anything is given to the engine there is nothing to poll. -/
theorem idle_of_nothing (h : cell.Good s) (hg : given s = []) {c c' : ℕ} {r : Except UnpackError Observed}
    (hm : .observed c r c' ∈ polled i s) : r = .ok .idle := by
  obtain ⟨hclean,hevents⟩ := delivered_processed s.2.object.run h.bounded i
  change (∀ c e c', _ ∉ polled i s) at hclean
  change ∀ x ∈ delivered (polled i s), (given s)[x.1]? = some x.2 at hevents
  match r with
  | .error e => exact absurd hm (hclean c e c')
  | .ok .idle => rfl
  | .ok (.event ev) =>
    have hev := hevents (c,ev) (List.mem_filterMap.mpr ⟨_,hm,rfl⟩)
    rw [hg] at hev
    cases hev
  | .ok (.overrun k t) =>
    have hroom := overrun_room s.2.object.run h.bounded hm
    change _ ≤ (given s).length at hroom
    obtain ⟨m,hpow⟩ := cell.capacity.isPowerOfTwo
    have hslots : 0 < cell.capacity.slots := hpow ▸ Nat.two_pow_pos m
    rw [hg, List.length_nil] at hroom
    omega

/-- The code of a poll. -/
abbrev pollCode (cell : Cell) (c : Consumer) :
    Program (@Access.Result (Loc cell.capacity) Val) (Holder BTreeBook × Out) := do
  let (c',r) ← Engine.poll c
  return (.consumer c',.observed c.cursor r c'.cursor)

theorem poll_returned {c : Consumer} (h : (cell.pollCode c).Residual (.done (l,o))) :
    ∃ c' r, l = .consumer c' ∧ o = .observed c.cursor r c'.cursor := by
  obtain ⟨⟨c',r⟩,_,h⟩ := Program.Residual.of_bind_done h
  cases h.done_cases
  exact ⟨c',r,rfl,rfl⟩

end Returns
section Code
variable {α : Type} {Q : α → cell.system.Shared → Prop} {P : cell.system.Shared → Prop}

/-- The consumer joins at the start of the stream. -/
theorem meets_join {f : Out → cell.Code α} (hs : Early i [] s) (hr : Rests i .handle s)
    (hcome : ∀ s' c o, c.cursor = 0 → Rests i (.consumer c) s' → Early i (warm 0) s' →
      Meets (cell.contract.env (.consumer i)) (f o) Q s') :
    Meets (cell.contract.env (.consumer i)) (Client.call .consumer >>= f) Q s := by
  refine meets_consumer_call nofun rfl (fun _ _ h h' => h.stays h') hs hr fun s₁ s₂ l o h₁ hres hret => ?_
  obtain ⟨c,_,hres⟩ := Program.Residual.of_bind_done hres
  cases hres.done_cases
  have h₂ := h₁.returned hret
  have hc := cursor_zero h₂.1.good h₂.given_nil hret.rests
  rw [hc] at h₂
  exact hcome s₂ c _ hc hret.rests h₂

/-- A poll never panics. -/
theorem meets_poll {f : Option (Observed × ℕ) → cell.Code α} {c : Consumer} (hP : ∀ s s', P s → Stays i s s' → P s')
    (hgood : ∀ s, P s → cell.Good s) (hs : P s) (hr : Rests i (.consumer c) s)
    (hcome : ∀ s₁ s₂ x c', P s₁ → Returned i (.consumer c') (.observed c.cursor (.ok x) c'.cursor) s₁ s₂ →
      Meets (cell.contract.env (.consumer i)) (f (some (x,c'.cursor))) Q s₂) :
    Meets (cell.contract.env (.consumer i)) (cell.poll >>= f) Q s := by
  rw [poll, Program.bind_assoc]
  refine meets_consumer_call nofun rfl hP hs hr fun s₁ s₂ l o h₁ hres hret => ?_
  obtain ⟨c',r,rfl,rfl⟩ := poll_returned hres
  have hgood₂ := hret.calm.good (hgood _ h₁)
  match r with
  | .ok x => exact hcome s₁ s₂ x c' h₁ hret
  | .error e =>
    have hclean := (delivered_processed s₂.2.object.run hgood₂.bounded i).1 c.cursor e c'.cursor
    refine absurd ?_ hclean
    change _ ∈ polled i s₂
    rw [hret.polled]
    exact List.mem_append_right _ (List.mem_singleton.mpr rfl)

/-- The warmup polls an empty ring. -/
theorem meets_warmup {f : Bool → cell.Code α} {c : Consumer} (hc : c.cursor = 0) (hs : Early i (warm 0) s)
    (hr : Rests i (.consumer c) s)
    (hcome : ∀ s' c, c.cursor = 0 → Rests i (.consumer c) s' → Early i (warm cell.warmupPolls) s' →
      Meets (cell.contract.env (.consumer i)) (f true) Q s') :
    Meets (cell.contract.env (.consumer i)) (cell.warmup >>= f) Q s := by
  refine ⟨fun k s => ∃ c : Consumer, c.cursor = 0 ∧ Rests i (.consumer c) s ∧ k ≤ cell.warmupPolls ∧
    Early i (warm (cell.warmupPolls-k)) s,⟨c,hc,hr,le_rfl,by rwa [Nat.sub_self]⟩,?_,?_⟩
  · intro k s₁ s₂ ⟨c,hc,hr,hk,h₁⟩ h₂
    exact ⟨c,hc,rests_of_rely h₂ hr,hk,h₁.stays (stays_of_rely h₂)⟩
  · intro k s₁ ⟨c,hc,hr,hk,h₁⟩
    cases k with
    | zero =>
      refine Meets.done fun s₂ h₂ => ?_
      exact hcome s₂ c hc (rests_of_rely h₂ hr) (h₁.stays (stays_of_rely h₂))
    | succ k =>
      refine meets_poll (fun _ _ h h' => h.stays h') (fun _ h => h.1.good) h₁ hr fun s₂ s₃ x c' h₂ hret => ?_
      have h₃ := h₂.returned hret
      have hc' := cursor_zero h₃.1.good h₃.given_nil hret.rests
      have hm : .observed c.cursor (.ok x) c'.cursor ∈ polled i s₃ := by
        rw [h₃.1.polled]
        exact List.mem_append_right _ (List.mem_singleton.mpr rfl)
      have hx := idle_of_nothing h₃.1.good h₃.given_nil hm
      cases hx
      rw [hc, hc', ← warm_succ] at h₃
      refine Meets.done fun s₄ h₄ => ⟨c',hc',rests_of_rely h₄ hret.rests,by omega,?_⟩
      have hk' : cell.warmupPolls-k = cell.warmupPolls-(k+1)+1 := by omega
      rw [hk']
      exact h₃.stays (stays_of_rely h₄)

/-- An access that only loads. -/
theorem meets_load {a : Act} (hact : ∀ (hs : Handshake) (now : UInt64), (hs.act now a).2 = hs)
    (hquiet : ∀ r, reading (.access (.consumer i) (.own a) r : cell.system.Ev) = none ∧
      arrival (.access (.consumer i) (.own a) r : cell.system.Ev) = none) {f : a.Result → cell.Code α}
    (hP : ∀ s s', P s → Stays i s s' → P s') (hs : P s) {l : Holder BTreeBook} (hr : Rests i l s)
    (hcome : ∀ s' now, P s' → Rests i l s' → Meets (cell.contract.env (.consumer i)) (f (s'.2.own.act now a).1) Q s') :
    Meets (cell.contract.env (.consumer i)) (Client.own a >>= f) Q s := by
  refine meets_own fun s₁ h₁ now r o ho => ?_
  have he : s₁.2.own.act now a = (r,o) := Option.some.inj ho
  obtain rfl : r = (s₁.2.own.act now a).1 := by rw [he]
  obtain rfl : o = s₁.2.own := by rw [← hact s₁.2.own now, he]
  obtain ⟨hread,harr⟩ := hquiet (s₁.2.own.act now a).1
  have hcalm := Calm.event hread harr s₁
  have hstays : Stays i s₁ _ := hcalm.stays rfl (seen_quiet hread rfl) (List.suffix_cons _ _)
  exact ⟨hcalm.keeps fun u hu => .access hu _ _ s₁ _,
    hcome _ now (hP _ _ (hP _ _ hs (stays_of_rely h₁)) hstays) (rests_of_rely h₁ hr)⟩

/-- The spin ends only behind the start. -/
theorem meets_awaitStarted {f : Unit → cell.Code α} (hP : ∀ s s', P s → Stays i s s' → P s') (hs : P s)
    {l : Holder BTreeBook} (hr : Rests i l s)
    (hcome : ∀ s', P s' → Rests i l s' → s'.2.own.started = true →
      Meets (cell.contract.env (.consumer i)) (f ()) Q s') :
    Meets (cell.contract.env (.consumer i)) (cell.awaitStarted >>= f) Q s := by
  refine ⟨fun _ s => P s ∧ Rests i l s,⟨hs,hr⟩,?_,?_⟩
  · intro _ s₁ s₂ ⟨h₁,hr₁⟩ h₂
    exact ⟨hP _ _ h₁ (stays_of_rely h₂),rests_of_rely h₂ hr₁⟩
  · intro _ s₁ ⟨h₁,hr₁⟩
    refine meets_load (fun _ _ => rfl) (fun _ => ⟨rfl,rfl⟩) hP h₁ hr₁ fun s₂ now h₂ hr₂ => ?_
    change Meets _ (if s₂.2.own.started = true then _ else _) _ _
    split
    · rename_i hst
      refine Meets.done fun s₃ h₃ => ?_
      exact hcome s₃ (hP _ _ h₂ (stays_of_rely h₃)) (rests_of_rely h₃ hr₂) ((stays_of_rely h₃).started hst)
    · exact Meets.done fun s₃ h₃ => ⟨hP _ _ h₂ (stays_of_rely h₃),rests_of_rely h₃ hr₂⟩

/-- The arrival of a consumer behind its warmup. -/
theorem Good.arrive (hs : Early i (warm cell.warmupPolls) s) {r : UInt64} :
    cell.Good (.access (.consumer i) (.own (.fetchAddReady 1)) r :: s.1,
      ⟨s.2.object,{ s.2.own with ready := s.2.own.ready+1 }⟩) := by
  obtain ⟨⟨h,hi,hpolled,_⟩,hn⟩ := hs
  obtain ⟨hstarted,hgiven⟩ := h.held hi hn
  have harrived : arrived (.access (.consumer i) (.own (.fetchAddReady 1)) r :: s.1) = arrived s.1 ++ [i] :=
    arrived_cons _ _
  constructor
  · change s.2.own.ready+1 = _
    rw [harrived, h.ready, List.length_append, UInt64.ofNat_add]
    rfl
  · rw [harrived]
    exact List.nodup_append.mpr ⟨h.once,List.nodup_singleton i,fun a ha c hc => by
      cases List.mem_singleton.mp hc
      exact fun he => hn (he ▸ ha)⟩
  · rw [harrived]
    intro j hj
    rcases List.mem_append.mp hj with hj | hj
    · exact h.known j hj
    · exact List.mem_singleton.mp hj ▸ hi
  · rw [harrived]
    intro j hj
    rcases List.mem_append.mp hj with hj | hj
    · exact h.warmed j hj
    · cases List.mem_singleton.mp hj
      exact hpolled ▸ List.prefix_rfl
  · exact h.inOrder
  · exact fun hg => absurd hgiven hg
  · intro hs
    exact absurd (hs.symm.trans hstarted) (by decide)
  · exact h.done
  · intro c hc ev hev
    change ev ∈ given s at hev
    rw [hgiven] at hev
    cases hev

theorem meets_arrive {f : UInt64 → cell.Code α} (hs : Early i (warm cell.warmupPolls) s) {l : Holder BTreeBook}
    (hr : Rests i l s)
    (hcome : ∀ s' r, Has i (warm cell.warmupPolls) [] s' → Rests i l s' →
      Meets (cell.contract.env (.consumer i)) (f r) Q s') :
    Meets (cell.contract.env (.consumer i)) (Client.own (.fetchAddReady 1) >>= f) Q s := by
  refine meets_own fun s₁ h₁ now r o ho => ?_
  obtain ⟨rfl,rfl⟩ := Prod.mk.inj (Option.some.inj ho)
  have hearly := hs.stays (stays_of_rely h₁)
  have hgood : cell.Good _ := Good.arrive hearly (r := s₁.2.own.ready)
  refine ⟨⟨fun _ => hgood,fun u hu => ?_⟩,hcome _ _ ⟨hgood,hearly.1.known,hearly.1.polled,?_⟩ (rests_of_rely h₁ hr)⟩
  · cases u with
    | producer => exact ⟨.access hu _ _ s₁ _,rfl,rfl,rfl,rfl⟩
    | consumer j => exact ⟨.access hu _ _ s₁ _,id,id⟩
  · exact (readings_mine (.consumer i) (.inr rfl) s₁.1).trans hearly.1.seen

end Code
section Drain
variable {stats : cell.Stats} {c c' : ℕ} {ev : BookEvent}

/-- What a poll delivered counts from its reading on. -/
theorem delivered_zip (hlen : (delivered os).length = vs.length) (o : Out) :
    (delivered (os ++ [o])).zip vs = (delivered os).zip vs := by
  have happ : (delivered os ++ delivered [o]).zip (vs ++ []) = (delivered os).zip vs ++ (delivered [o]).zip [] :=
    List.zip_append hlen
  rwa [List.append_nil, List.zip_nil_right, List.append_nil, ← delivered_append] at happ

theorem Drains.returned (h : Drains i b os vs s) (hlen : (delivered os).length = vs.length) {l : Holder BTreeBook}
    {o : Out} (ho : ∀ k, o ≠ .joined k) (hr : Returned i l o s s') : Drains i b (os ++ [o]) vs s' where
  has := h.has.returned hr
  base := hr.calm.base.trans h.base
  start k hk := by
    rcases List.mem_append.mp hk with hk | hk
    · exact h.start k hk
    · exact absurd (List.mem_singleton.mp hk).symm (ho k)
  late hc := by
    rw [delivered_zip hlen]
    exact h.late (hc.suffix hr.grown)

/-- An event is read at or behind its time. -/
theorem Drains.read (h : Drains i b (os ++ [.observed c (.ok (.event ev)) c']) vs s)
    (hlen : (delivered os).length = vs.length) (v : UInt64) :
    Drains i b (os ++ [.observed c (.ok (.event ev)) c']) (vs ++ [v])
      (.access (.consumer i) (.own .raw) v :: s.1,s.2) where
  has := by
    refine ⟨h.has.good.read _ v,h.has.known,h.has.polled,?_⟩
    rw [Cell.seen, mine_access, readings_cons]
    exact congrArg (· ++ [v]) h.has.seen
  base := base_grows (List.suffix_cons _ _) h.base
  start := h.start
  late hc := by
    have hd : delivered (os ++ [.observed c (.ok (.event ev)) c']) = delivered os ++ [(c,ev)] := delivered_append os _
    have hold := h.late (hc.suffix (List.suffix_cons _ _))
    rw [delivered_zip hlen] at hold
    rw [hd, List.zip_append hlen]
    intro x hx
    rcases List.mem_append.mp hx with hx | hx
    · exact hold x hx
    -- The new reading is no earlier than the one that the producer waited for.
    · cases List.mem_singleton.mp hx
      have hmem := (delivered_processed s.2.object.run h.has.good.bounded i).2 (c,ev) (by
        change _ ∈ delivered (polled i s)
        rw [h.has.polled, hd]
        exact List.mem_append_right _ (List.mem_singleton.mpr rfl))
      obtain ⟨r,hr,hle⟩ := h.has.good.paced b h.base ev (List.mem_of_getElem? hmem)
      have hchron : (readings s.1 ++ [v]).Pairwise (· ≤ ·) := by
        rw [Chronological, readings_cons] at hc
        exact hc
      have hrv : r ≤ v := (List.pairwise_append.mp hchron).2.2 r hr v (List.mem_singleton.mpr rfl)
      exact UInt64.le_trans hle (cell.clock.mono b r v hrv)

/-- Between two turns of the drain loop. -/
def Draining (i : ℕ) (b : UInt64) (stats : cell.Stats) (s : cell.system.Shared) : Prop :=
  ∃ os vs c, Drains i b os vs s ∧ Tally cell b os vs stats ∧ Rests i (.consumer c) s

theorem Draining.of_rely (h : Draining i b stats s) (hs : (cell.contract.env (.consumer i)).rely s s') :
    Draining i b stats s' := by
  obtain ⟨os,vs,c,hd,ht,hr⟩ := h
  exact ⟨os,vs,c,hd.stays (stays_of_rely hs),ht,rests_of_rely hs hr⟩

/-- A delivered event is recorded by a reading behind it. -/
theorem meets_record {f : UInt64 → cell.Code (cell.Stats ⊕ Option cell.Stats)}
    {Q : cell.Stats ⊕ Option cell.Stats → cell.system.Shared → Prop}
    (hd : Drains i b (os ++ [.observed c (.ok (.event ev)) c']) vs s) (hlen : (delivered os).length = vs.length)
    {l : Holder BTreeBook} (hr : Rests i l s)
    (hcome : ∀ s' v, Drains i b (os ++ [.observed c (.ok (.event ev)) c']) (vs ++ [v]) s' → Rests i l s' →
      Meets (cell.contract.env (.consumer i)) (f (cell.clock.deltaNs b v)) Q s') :
    Meets (cell.contract.env (.consumer i)) (cell.nowSinceNs b >>= f) Q s := by
  rw [nowSinceNs, Program.bind_assoc]
  refine meets_own fun s₁ h₁ now r o ho => ?_
  obtain ⟨rfl,rfl⟩ := Prod.mk.inj (Option.some.inj ho)
  have hd₁ := (hd.stays (stays_of_rely h₁)).read hlen now
  refine ⟨⟨fun _ => hd₁.has.good,fun u hu => ?_⟩,hcome _ now hd₁ (rests_of_rely h₁ hr)⟩
  cases u with
  | producer => exact ⟨.access hu _ _ s₁ _,rfl,rfl,rfl,rfl⟩
  | consumer j => exact ⟨.access hu _ _ s₁ _,id,id⟩

/-- A turn of the drain loop keeps the tally, and it ends only when everything was given and
the consumer is at the end of it. -/
theorem meets_drain (h : Draining i b stats s) :
    Meets (cell.contract.env (.consumer i)) (cell.drain b stats) (fun r s' => match r with
      | .inl stats' => Draining i b stats' s'
      | .inr r => Drained i r s' ∧ cell.Good s') s := by
  obtain ⟨os,vs,c,hd,ht,hr⟩ := h
  refine meets_poll (fun _ _ h h' => h.stays h') (fun _ h => h.has.good) hd hr fun s₁ s₂ x c' h₁ hret => ?_
  have h₂ := h₁.returned ht.length (fun _ => Out.noConfusion) hret
  match x with
  | .event ev =>
    refine meets_record h₂ ht.length hret.rests fun s₃ v h₃ hr₃ => ?_
    exact Meets.done fun s₄ h₄ => Draining.of_rely ⟨_,_,_,h₃,ht.event ev v,hr₃⟩ h₄
  | .overrun k t => exact Meets.done fun s₃ h₃ => Draining.of_rely ⟨_,_,_,h₂,ht.overrun k t,hret.rests⟩ h₃
  | .idle =>
    refine meets_load (fun _ _ => rfl) (fun _ => ⟨rfl,rfl⟩) (fun _ _ h h' => h.stays h') h₂ hret.rests
      fun s₃ now h₃ hr₃ => ?_
    have hagain : ∀ s₄, (cell.contract.env (.consumer i)).rely s₃ s₄ → Draining i b stats s₄ := fun s₄ h₄ =>
      Draining.of_rely ⟨_,_,_,h₃,ht.idle,hr₃⟩ h₄
    change Meets _ (if s₃.2.own.done = true then _ else _) _ _
    split
    · rename_i hdone
      split
      · rename_i hn
        refine Meets.done fun s₄ h₄ => ?_
        have hstays := stays_of_rely h₄
        exact ⟨⟨hstays.done hdone,⟨stats,b,_,vs,rfl,h₃.stays hstays,ht.idle⟩,⟨c',rests_of_rely h₄ hr₃,hn⟩⟩,
          hstays.good h₃.has.good⟩
      · exact Meets.done hagain
    · exact Meets.done hagain

end Drain

/-- A consumer thread of a cell returns when it has drained the ring. -/
theorem meets_runConsumer {c : Consumer} (hc : c.cursor = 0) (hs : Early i (warm 0) s) (hr : Rests i (.consumer c) s) :
    Meets (cell.contract.env (.consumer i)) cell.runConsumer (fun r s' => Drained i r s' ∧ cell.Good s') s := by
  refine meets_warmup hc hs hr fun s₁ c₁ _ hr₁ h₁ => ?_
  change Meets _ (Client.own (Act.fetchAddReady 1) >>= _) _ _
  refine meets_arrive h₁ hr₁ fun s₂ _ h₂ hr₂ => ?_
  refine meets_awaitStarted (fun _ _ h h' => h.stays h') h₂ hr₂ fun s₃ h₃ hr₃ hst => ?_
  have hkeep : ∀ s s' : cell.system.Shared,
      (Has i (warm cell.warmupPolls) [] s ∧ s.2.own.started = true) → Stays i s s' →
      Has i (warm cell.warmupPolls) [] s' ∧ s'.2.own.started = true := fun _ _ h h' => ⟨h.1.stays h',h'.started h.2⟩
  refine meets_load (fun _ _ => rfl) (fun _ => ⟨rfl,rfl⟩) hkeep ⟨h₃,hst⟩ hr₃ fun s₄ now h₄ hr₄ => ?_
  have hbase := (h₄.1.good.started h₄.2).2
  refine ⟨fun stats s => Draining i s₄.2.own.baseRaw stats s,?_,fun _ _ _ h h' => h.of_rely h',?_⟩
  · refine ⟨_,[],c₁,⟨h₄.1,hbase,fun k hk => ?_,fun _ x hx => ?_⟩,.new cell _ _,hr₄⟩
    · simpa [warm] using hk
    · rw [List.zip_nil_right] at hx
      cases hx
  · intro stats s₅ h₅
    refine (meets_drain h₅).mono fun r s₆ h₆ => ?_
    cases r with
    | inl stats' => exact h₆
    | inr r =>
      refine Meets.done fun s₇ h₇ =>
        ⟨h₆.1.stays (stays_of_rely h₇) fun l => rests_of_rely h₇,(stays_of_rely h₇).good h₆.2⟩

end Cell
end LowLatencyLob.Bench
