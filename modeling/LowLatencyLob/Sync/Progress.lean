import LowLatencyLob.Concurrency.Progress
import LowLatencyLob.Concurrency.Serial
import LowLatencyLob.Sync.RingRuns
import LowLatencyLob.Sync.SeqLockRuns

/-! Progress of the two primitives.

Every call of a ring ends after a fixed number of accesses, whatever the other threads and
the memory do. A store does, too; a load ends when it runs alone, unless a store is in
progress, and then it cannot end before that store does. -/
namespace LowLatencyLob.Ring
open Concurrency

section Code
variable {C : Capacity} {W m n : ℕ} {α : Type} {K : Access (Val (C := C) (W := W)) → Prop}

theorem load_within {l : Loc C W} {o : LoadOrder} {f : Val l → Code C W α} (hK : K (.load l o))
    (h : ∀ v, (f v).Within K n) : (load l o >>= f).Within K (n+1) := .access hK h

theorem store_within {l : Loc C W} {v : Val l} {o : StoreOrder} {f : Unit → Code C W α} (hK : K (.store l v o))
    (h : (f ()).Within K n) : (store l v o >>= f).Within K (n+1) := .access hK fun _ => h

theorem load_ends {l : Loc C W} {o : LoadOrder} (hK : K (.load l o)) : (load l o).Within K 1 :=
  .access hK fun v => .done v 0

theorem store_ends {l : Loc C W} {v : Val l} {o : StoreOrder} (hK : K (.store l v o)) :
    (store l v o).Within K 1 := .access hK fun _ => .done () 0

theorem fence_within {o : FenceOrder} {f : Unit → Code C W α} (hK : K (.fence o)) (h : (f ()).Within K n) :
    (fence o >>= f).Within K (n+1) := .access hK fun _ => h

theorem storeWords_within (slot : Fin C.slots) (rec : Record W) (ks : List (Fin W)) :
    (storeWords C slot rec ks).Within (fun _ => True) ks.length := by
  induction ks with
  | nil => exact .done _ _
  | cons k ks ih => exact store_within trivial ih

theorem loadWords_within (slot : Fin C.slots) (ks : List (Fin W)) (rec : Record W) :
    (loadWords C slot ks rec).Within (fun _ => True) ks.length := by
  induction ks generalizing rec with
  | nil => exact .done _ _
  | cons k ks ih => exact load_within trivial fun v => ih _

theorem push_within (rec : Record W) : (push C rec).Within (fun _ => True) (W+5) := by
  refine load_within trivial fun p => store_within trivial (fence_within trivial ?_)
  have hwords := storeWords_within (C.slotOf p) rec (List.finRange W)
  rw [List.length_finRange] at hwords
  exact hwords.bind fun _ => store_within trivial (store_ends trivial)

theorem resync_within (cursor : ℕ) : (resync C (W := W) cursor).Within (fun _ => True) 1 :=
  load_within trivial fun _ => .done _ 0

theorem tryRecv_within (cursor : ℕ) : (tryRecv C (W := W) cursor).Within (fun _ => True) (W+5) := by
  refine load_within trivial fun w => ?_
  split_ifs
  · exact .done _ _
  refine load_within trivial fun s₁ => ?_
  split_ifs
  · exact (resync_within cursor).mono (by omega)
  have hwords := loadWords_within (C.slotOf cursor) (List.finRange W) fun _ => 0
  rw [List.length_finRange] at hwords
  refine hwords.bind fun rec => fence_within trivial (load_within trivial fun s₂ => ?_)
  split_ifs
  · exact resync_within cursor
  · exact .done _ _

end Code

/-- A ring over any memory. -/
abbrev systemOver {C : Capacity} {W : ℕ} (M : Memory Thread (@Access.Result (Loc C W) Val)) (m₀ : M.State) :
    System Thread (@Access.Result (Loc C W) Val) where
  memory := M
  object := object C W
  mem₀ := m₀
  local₀ := holder

theorem code_within {C : Capacity} {W : ℕ} {l : Holder} {x : Call W} {p : Code C W (Holder × Out W)}
    (h : (object C W).code l x = some p) : p.Within (fun _ => True) (W+5) := by
  cases l with
  | producer =>
    cases x with
    | push rec =>
      cases h
      exact (push_within rec).bind fun _ => .done _ 0
    | _ => cases h
  | handle =>
    cases x with
    | consumer =>
      cases h
      have hload : (consumer C (W := W)).Within (fun _ => True) 1 := load_ends trivial
      exact (hload.bind (n := 0) fun _ => .done _ 0).mono (by omega)
    | consumerFromOldest =>
      cases h
      have hload : (consumerFromOldest C (W := W)).Within (fun _ => True) 1 :=
        load_within trivial fun _ => .done _ 0
      exact (hload.bind (n := 0) fun _ => .done _ 0).mono (by omega)
    | _ => cases h
  | consumer cursor =>
    cases x with
    | tryRecv =>
      cases h
      exact (tryRecv_within cursor).bind fun _ => .done _ 0
    | _ => cases h

/-- Under any memory a call of a ring has ended after `W+5` accesses. -/
theorem wait_free {C : Capacity} {W : ℕ} (M : Memory Thread (@Access.Result (Loc C W) Val)) (m₀ : M.State)
    {tr : (systemOver M m₀).Trace} {cfg : (systemOver M m₀).Config} (h : (systemOver M m₀).Run tr cfg) {t : Thread}
    {p : Code C W (Holder × Out W)} (hp : cfg.threads t = .busy p) :
    System.since t tr ≤ W+5 ∧ (System.since t tr = W+5 → ∃ y, p = .done y) := by
  obtain ⟨hle,hp⟩ := h.since_le code_within hp
  refine ⟨hle,fun heq => ?_⟩
  rw [heq, Nat.sub_self] at hp
  exact hp.exists_done

/-- A consumer has made three accesses of a receive when a push of two words, on its way
since then, has made all of its seven. -/
def overlappingMoves : List (system twoSlots 2).Mv :=
  List.flatten [callMoves _ 0 .consumer 1, pushMoves _ (numbered 0), [.call (.consumer 0) .tryRecv],
    List.replicate 2 (.access (.consumer 0) ()), (pushMoves _ (numbered 1)).take 5,
    [.access (.consumer 0) ()], ((pushMoves _ (numbered 1)).drop 5).take 3]

theorem wait_free_overlapping : ∃ (tr : (system twoSlots 2).Trace) (cfg : (system twoSlots 2).Config),
    (system twoSlots 2).Run tr cfg ∧ System.since (.consumer 0) tr = 3 ∧
      (∃ p, cfg.threads (.consumer 0) = .busy p ∧ System.since (.consumer 0) tr ≤ 2+5) ∧
      ∃ y, cfg.threads .producer = .busy (.done y) := by
  obtain ⟨tr,cfg,h,hP⟩ := System.exists_config_of_play overlappingMoves
    (fun tr cfg => decide (System.since (.consumer 0) tr = 3) && decide (System.since .producer tr = 2+5) &&
      (cfg.threads (.consumer 0)).resting.isNone && (cfg.threads .producer).resting.isNone) (by decide +kernel)
  simp only [Bool.and_eq_true, decide_eq_true_eq] at hP
  obtain ⟨⟨⟨hrecv,hpush⟩,hcons⟩,hprod⟩ := hP
  obtain ⟨p,hp⟩ := ThreadState.eq_busy hcons
  obtain ⟨q,hq⟩ := ThreadState.eq_busy hprod
  obtain ⟨y,rfl⟩ := (wait_free (interleaving Thread Val) init h hq).2 hpush
  exact ⟨tr,cfg,h,hrecv,⟨p,hp,(wait_free (interleaving Thread Val) init h hp).1⟩,y,hq⟩

end LowLatencyLob.Ring

namespace LowLatencyLob.SeqLock
open Concurrency

/-- Accesses that leave the cell as it is. -/
def Passive : Access Val → Prop
  | .load _ _ => True
  | .store _ _ _ => False
  | .fence _ => True

section Code
variable {T : Type} {t : T} {α : Type} {m : ∀ l, Val l} {n : ℕ}

theorem load_within {l : Loc} {o : LoadOrder} {f : Val l → Code α} (h : ∀ v, (f v).Within Passive n) :
    (l.load o >>= f).Within Passive (n+1) := .access trivial h

theorem fence_within {o : FenceOrder} {f : Unit → Code α} (h : (f ()).Within Passive n) :
    (fence o >>= f).Within Passive (n+1) := .access trivial fun _ => h

theorem loadPayload_within : loadPayload.Within Passive 5 :=
  load_within fun _ => load_within fun _ => load_within fun _ => load_within fun _ =>
    load_within fun _ => .done _ 0

theorem pass_within (retries : ℕ) : (pass retries).Within Passive 8 := by
  refine load_within fun s₁ => ?_
  split_ifs
  · refine loadPayload_within.bind (n := 2) fun t => fence_within (load_within fun s₂ => ?_)
    split_ifs <;> exact .done _ _
  · exact .done _ _

/-- What a passive access does alone. -/
theorem passive_exec {a : Access Val} {m' : ∀ l, Val l} (ha : Passive a) (hm : m' = m) :
    ∃ ch r m₁, (interleaving T Val).exec t m' a ch = some (r,m₁) ∧ m₁ = m := by
  refine ⟨(),(a.act m').1,(a.act m').2,rfl,?_⟩
  cases a with
  | store l v o => exact ha.elim
  | _ => exact hm

/-- The payload that a cell has at the moment. -/
def payload (m : ∀ l, Val l) : TopOfBook := ⟨m .bidPx,m .bidQty,m .askPx,m .askQty,m .stamp⟩

/-- The accesses of a pass that takes its snapshot. -/
def passAccesses (m : ∀ l, Val l) : List (Σ a : Access Val, a.Result) :=
  [⟨.load .seq .acquire,m .seq⟩,⟨.load .bidPx .relaxed,m .bidPx⟩,⟨.load .bidQty .relaxed,m .bidQty⟩,
    ⟨.load .askPx .relaxed,m .askPx⟩,⟨.load .askQty .relaxed,m .askQty⟩,⟨.load .stamp .relaxed,m .stamp⟩,
    ⟨.fence .acquire,()⟩,⟨.load .seq .relaxed,m .seq⟩]

/-- A pass alone, over an even version. -/
theorem pass_even (he : m .seq &&& 1 = 0) (retries : ℕ) :
    Solo (interleaving T Val) t m (pass retries) (passAccesses m) (.inr (payload m,retries)) m := by
  refine .access () rfl ?_
  change Solo _ _ _ (if m .seq &&& 1 = 0 then _ else _) _ _ _
  rw [if_pos he]
  refine .access () rfl (.access () rfl (.access () rfl (.access () rfl (.access () rfl
    (.access () rfl (.access () rfl ?_))))))
  change Solo _ _ _ (if m .seq = m .seq then _ else _) _ _ _
  rw [if_pos rfl]
  exact .done _ _

section Loop
variable {k : TopOfBook × ℕ → Code α}

/-- A load that starts a pass over an even version takes its snapshot there. -/
theorem loop_even (he : m .seq &&& 1 = 0) {g : TopOfBook × ℕ → α} (retries : ℕ) :
    Solo (interleaving T Val) t m (.loop retries pass fun x => .done (g x)) (passAccesses m)
      (g (payload m,retries)) m := by
  have hs := (pass_even (t := t) he retries).bind (f := Program.again pass fun x => .done (g x))
    (.done (M := interleaving T Val) m (g (payload m,retries)))
  rw [List.append_nil, ← Program.unroll_eq] at hs
  exact .loop hs

/-- Whatever is left of a load ends soon over an even version. -/
theorem resumes (he : m .seq &&& 1 = 0) {g : TopOfBook × ℕ → α} {q : Code α}
    (h : (Program.loop 0 pass fun x => .done (g x)).Residual q) :
    ∃ as y, Solo (interleaving T Val) t m q as y m ∧ as.length ≤ 16 := by
  have hlen : (passAccesses m).length ≤ 8 := le_refl 8
  rcases h.loop_cases with ⟨b,rfl⟩ | ⟨b,p,hp,rfl⟩ | ⟨b,c,_,hc⟩
  · exact ⟨_,_,loop_even he b,hlen.trans (by decide)⟩
  · obtain ⟨as,r,m',hs,hle,rfl⟩ := ((pass_within b).residual hp).solo (M := interleaving T Val) (t := t)
      passive_exec (m := m) rfl
    cases r with
    | inl b' =>
      refine ⟨_,_,hs.bind (loop_even he b'),?_⟩
      rw [List.length_append]
      exact Nat.add_le_add hle hlen
    | inr c =>
      refine ⟨_,_,hs.bind (.done (M := interleaving T Val) m' (g c)),?_⟩
      rw [List.append_nil]
      exact hle.trans (by decide)
  · rw [hc.done_cases]
    exact ⟨[],_,.done (M := interleaving T Val) m (g c),Nat.zero_le _⟩

/-- Alone, `p` can only ask for another pass. -/
def Refuses (t : T) (m : ∀ l, Val l) (p : Code (ℕ ⊕ TopOfBook × ℕ)) : Prop :=
  ∀ as r m', Solo (interleaving T Val) t m p as r m' → m' = m ∧ ∃ b, r = .inl b

/-- So can whatever is left of `p`, unless it has taken its snapshot. -/
def Refusing (t : T) (m : ∀ l, Val l) (p : Code (ℕ ⊕ TopOfBook × ℕ)) : Prop :=
  ∀ q, p.Residual q → (∃ c, q = .done (.inr c)) ∨ Refuses t m q

theorem refusing_done (r : ℕ ⊕ TopOfBook × ℕ) : Refusing t m (.done r) := by
  intro q hq
  obtain rfl := hq.done_cases
  cases r with
  | inl b =>
    refine .inr fun as r m' hs => ?_
    obtain ⟨_,rfl,rfl⟩ := hs.of_done
    exact ⟨rfl,b,rfl⟩
  | inr c => exact .inl ⟨c,rfl⟩

theorem refusing_load {l : Loc} {o : LoadOrder} {f : Val l → Code (ℕ ⊕ TopOfBook × ℕ)}
    (h : ∀ v, Refusing t m (f v)) (hf : ∀ c, f (m l) ≠ .done (.inr c)) : Refusing t m (l.load o >>= f) := by
  intro q hq
  rcases hq.access_cases with rfl | ⟨v,hv⟩
  · refine .inr fun as r m' hs => ?_
    obtain ⟨_,_,_,_,ha,hk,_⟩ := hs.of_access
    obtain ⟨rfl,rfl⟩ := interleaving_exec ha
    exact ((h _ _ .here).resolve_left fun ⟨c,hc⟩ => hf c hc) _ _ _ hk
  · exact h v q hv

theorem refusing_fence {o : FenceOrder} {f : Unit → Code (ℕ ⊕ TopOfBook × ℕ)} (h : Refusing t m (f ()))
    (hf : ∀ c, f () ≠ .done (.inr c)) : Refusing t m (fence o >>= f) := by
  intro q hq
  rcases hq.access_cases with rfl | ⟨v,hv⟩
  · refine .inr fun as r m' hs => ?_
    obtain ⟨_,_,_,_,ha,hk,_⟩ := hs.of_access
    obtain ⟨rfl,rfl⟩ := interleaving_exec ha
    exact ((h _ .here).resolve_left fun ⟨c,hc⟩ => hf c hc) _ _ _ hk
  · exact h q hv

theorem refusing_payload {f : TopOfBook → Code (ℕ ⊕ TopOfBook × ℕ)} (h : ∀ x, Refusing t m (f x))
    (hf : ∀ x c, f x ≠ .done (.inr c)) : Refusing t m (loadPayload >>= f) := by
  change Refusing t m (Loc.bidPx.load .relaxed >>= fun bidPx => Loc.bidQty.load .relaxed >>= fun bidQty =>
    Loc.askPx.load .relaxed >>= fun askPx => Loc.askQty.load .relaxed >>= fun askQty =>
    Loc.stamp.load .relaxed >>= fun stamp => f ⟨bidPx,bidQty,askPx,askQty,stamp⟩)
  refine refusing_load (fun bidPx => refusing_load (fun bidQty => refusing_load (fun askPx =>
    refusing_load (fun askQty => refusing_load (fun stamp => h _) fun c => hf _ c) ?_) ?_) ?_) ?_
  all_goals nofun

/-- Over an odd version no pass takes a snapshot: the version it compares with is even. -/
theorem pass_refusing (ho : m .seq &&& 1 ≠ 0) (retries : ℕ) : Refusing t m (pass retries) := by
  refine refusing_load (fun s₁ => ?_) fun c => ?_
  · split_ifs with he
    · have hne : s₁ ≠ m .seq := fun heq => ho (heq ▸ he)
      have hlast : ∀ x, Refusing t m (Loc.seq.load .relaxed >>= fun s₂ =>
          if s₁ = s₂ then .done (.inr (x,retries)) else .done (.inl (retry retries))) := by
        intro x
        refine refusing_load (fun s₂ => ?_) fun c => ?_
        · split_ifs <;> exact refusing_done _
        · rw [if_neg hne]
          exact fun h => nomatch h
      refine refusing_payload (fun x => refusing_fence (hlast x) ?_) ?_
      all_goals nofun
    · exact refusing_done _
  · rw [if_neg ho]
    exact fun h => nomatch h

/-- Over an odd version a load that runs alone goes on for ever. -/
theorem loop_odd (ho : m .seq &&& 1 ≠ 0) {as : List (Σ a : Access Val, a.Result)} {y : α} {m' : ∀ l, Val l}
    (retries : ℕ) : ¬ Solo (interleaving T Val) t m (.loop retries pass k) as y m' := by
  induction as generalizing retries with
  | nil =>
    intro h
    obtain ⟨_,_,_,_,_,_,hnil⟩ := h.of_loop.of_access
    cases hnil
  | cons a as ih =>
    intro h
    obtain ⟨_,_,_,_,ha,hk,hcons⟩ := h.of_loop.of_access
    obtain ⟨rfl,hm⟩ := interleaving_exec ha
    rw [hm] at hk
    change Solo _ _ _ (Program.bind (if m .seq &&& 1 = 0 then _ else _) _) _ _ _ at hk
    rw [if_neg ho] at hk
    cases hcons
    exact ih _ hk

/-- Whatever is left of a load does not end over an odd version, unless it has ended. -/
theorem blocked (ho : m .seq &&& 1 ≠ 0) {g : TopOfBook × ℕ → α} {q : Code α}
    (h : (Program.loop 0 pass fun x => .done (g x)).Residual q) {as : List (Σ a : Access Val, a.Result)} {y : α}
    {m' : ∀ l, Val l} (hs : Solo (interleaving T Val) t m q as y m') : ∃ z, q = .done z := by
  rcases h.loop_cases with ⟨b,rfl⟩ | ⟨b,p,hp,rfl⟩ | ⟨b,c,_,hc⟩
  · exact (loop_odd ho b hs).elim
  · rcases pass_refusing (t := t) ho b p hp with ⟨c,rfl⟩ | hrefuses
    · exact ⟨g c,rfl⟩
    · obtain ⟨as₁,r,m₁,as₂,h₁,h₂⟩ := hs.of_bind
      obtain ⟨rfl,b',rfl⟩ := hrefuses _ _ _ h₁
      exact (loop_odd ho b' h₂).elim
  · exact ⟨g c,hc.done_cases⟩

end Loop
end Code

theorem Shared.Good.even_iff {s : Shared} (h : s.Good) : s.seq &&& 1 = 0 ↔ s.begun = s.completed := by
  refine ⟨h.idle_of_even,fun hi => ?_⟩
  have hs := h.seq_eq
  rw [Nat.and_one_is_mod]
  omega

section Runs
variable {t₀ : TopOfBook} {tr : (system t₀).Trace} {cfg : (system t₀).Config} {i : ℕ}

theorem run_even_iff (h : (system t₀).Run tr cfg) : cfg.mem .seq &&& 1 = 0 ↔ begun tr = completed tr :=
  (run_told h).1.even_iff

/-- No call moves a thread to the other side of the cell. -/
theorem role_kept {l l' : Role} {x : Call} {o : Out} {p : Code (Role × Out)} (hp : object.code l x = some p)
    (hres : p.Residual (.done (l',o))) : l' = l := by
  cases l with
  | writer =>
    cases x with
    | store t =>
      cases hp
      obtain ⟨_,_,hdone⟩ := hres.of_bind_done
      cases hdone.done_cases
      rfl
    | _ => cases hp
  | reader =>
    cases x with
    | store t => cases hp
    | _ =>
      cases hp
      obtain ⟨_,_,hdone⟩ := hres.of_bind_done
      cases hdone.done_cases
      rfl

/-- A busy reader has something left of a load. -/
theorem reader_residual (h : (system t₀).Run tr cfg) {p : Code (Role × Out)}
    (hp : cfg.threads (.reader i) = .busy p) :
    ∃ g : TopOfBook × ℕ → Role × Out, (Program.loop 0 pass fun x => .done (g x)).Residual p := by
  have hkept : ∀ {u l x p l' o}, l = role u → object.code l x = some p → p.Residual (.done (l',o)) →
      l' = role u := fun hl hcode hres => (role_kept hcode hres).trans hl
  have hs := h.stands (I := fun u l _ => l = role u) (fun _ => rfl) hkept (.reader i)
  rw [hp] at hs
  obtain ⟨l,x,p₀,rfl,hcode,hres⟩ := hs
  cases x with
  | store t => cases hcode
  | _ =>
    cases hcode
    exact ⟨_,hres⟩

/-- A pending load that runs alone, from wherever it is, ends if no store is in progress,
within 16 accesses; while one is, it ends only if it had its snapshot already. -/
theorem obstruction_free {tr : (system t₀).Trace} {cfg : (system t₀).Config} {i : ℕ}
    (h : (system t₀).Run tr cfg) {p : Code (Role × Out)} (hp : cfg.threads (.reader i) = .busy p) :
    (begun tr = completed tr → ∃ as y, Solo (interleaving Thread Val) (.reader i) cfg.mem p as y cfg.mem ∧
      as.length ≤ 16) ∧
    ((∃ as y m, Solo (interleaving Thread Val) (.reader i) cfg.mem p as y m) ↔
      begun tr = completed tr ∨ ∃ y, p = .done y) := by
  obtain ⟨g,hres⟩ := reader_residual h hp
  have hfree : begun tr = completed tr → ∃ as y,
      Solo (interleaving Thread Val) (.reader i) cfg.mem p as y cfg.mem ∧ as.length ≤ 16 :=
    fun hi => resumes ((run_even_iff h).mpr hi) hres
  refine ⟨hfree,?_,?_⟩
  · rintro ⟨as,y,m,hs⟩
    by_cases he : cfg.mem .seq &&& 1 = 0
    · exact .inl ((run_even_iff h).mp he)
    · exact .inr (blocked he hres hs)
  · rintro (hi | ⟨y,rfl⟩)
    · obtain ⟨as,y,hs,_⟩ := hfree hi
      exact ⟨as,y,cfg.mem,hs⟩
    · exact ⟨[],y,cfg.mem,.done (M := interleaving Thread Val) cfg.mem y⟩

/-- A store has marked the version odd when the load begins. -/
theorem obstruction_free_stalled : ∃ (tr : (system default).Trace) (cfg : (system default).Config)
    (p : Code (Role × Out)), (system default).Run tr cfg ∧ cfg.threads (.reader 0) = .busy p ∧
      ¬ ∃ as y m, Solo (interleaving Thread Val) (.reader 0) cfg.mem p as y m := by
  have h₀ : (system default).Run [] _ := .start
  have h₁ := h₀.call (t := .writer) (x := Call.store default) rfl rfl
  have h₂ := h₁.access (t := .writer) rfl () rfl
  have h₃ := h₂.access (t := .writer) rfl () rfl
  have h₄ := h₃.call (t := .reader 0) (x := Call.load) rfl rfl
  refine ⟨_,_,_,h₄,rfl,fun hs => ?_⟩
  rcases (obstruction_free h₄ rfl).2.mp hs with hi | ⟨y,hy⟩
  · exact absurd hi (by decide)
  · cases hy

/-- A load that nothing interrupts completes at the first pass, with the newest value, if
and only if no store is in progress. -/
theorem load_completes_iff {tr : (system t₀).Trace} {cfg : (system t₀).Config} {i : ℕ}
    (h : (system t₀).Run tr cfg) (hl : cfg.threads (.reader i) = .idle .reader) (t : TopOfBook) (n : ℕ) :
    System.Completes cfg (.reader i) .loadCounted .reader (.loadedCounted t n) cfg.mem ↔
      begun tr = completed tr ∧ n = 0 ∧ (t₀ :: stored tr)[completed tr]? = some t := by
  have hgood := (run_told h).1
  have hsolo : ∀ he : cfg.mem .seq &&& 1 = 0, Solo (interleaving Thread Val) (.reader i) cfg.mem
      (.loop 0 pass fun x => .done (Role.reader,Out.loadedCounted x.1 x.2)) (passAccesses cfg.mem)
      (.reader,.loadedCounted (payload cfg.mem) 0) cfg.mem := fun he => loop_even he 0
  constructor
  · intro hc
    obtain ⟨l,p,as,hidle,hcode,hs⟩ := hc.ends
    rw [hl] at hidle
    cases hidle
    cases hcode
    by_cases he : cfg.mem .seq &&& 1 = 0
    · obtain ⟨hx,_⟩ := hc.only _ _ _ _ _ hl rfl (hsolo he)
      cases hx
      have hi := (run_even_iff h).mp he
      exact ⟨hi,rfl,hgood.stable hi⟩
    · exact (loop_odd he 0 hs).elim
  · rintro ⟨hi,rfl,ht⟩
    have hv : (t₀ :: stored tr)[completed tr]? = some (payload cfg.mem) := hgood.stable hi
    rw [ht, Option.some_inj] at hv
    subst hv
    exact System.completes_of_solo interleaving_settled hl rfl (hsolo ((run_even_iff h).mpr hi))

/-- Two stores; the second has made `n` of its nine accesses. -/
def storeMoves (n : ℕ) : List (system default).Mv :=
  List.flatten [[.call .writer (.store ⟨1,2,3,4,1⟩)], List.replicate 9 (.access .writer ()),
    [.ret .writer, .call .writer (.store ⟨5,6,7,8,2⟩)], List.replicate n (.access .writer ())]

/-- After a completed store a load completes with its value; within the next store, whose
mark is made and whose fields are half written, none does. -/
theorem load_completes_stored :
    (∃ tr cfg, (system default).Run tr cfg ∧ stored tr = [⟨1,2,3,4,1⟩,⟨5,6,7,8,2⟩] ∧ completed tr = 2 ∧
      System.Completes cfg (.reader 0) .loadCounted .reader (.loadedCounted ⟨5,6,7,8,2⟩ 0) cfg.mem) ∧
    ∃ tr cfg, (system default).Run tr cfg ∧ begun tr = 2 ∧ completed tr = 1 ∧
      ∀ t n, ¬System.Completes cfg (.reader 0) .loadCounted .reader (.loadedCounted t n) cfg.mem := by
  constructor
  · obtain ⟨tr,cfg,h,hP⟩ := System.exists_config_of_play (storeMoves 9)
      (fun tr cfg => decide (stored tr = [⟨1,2,3,4,1⟩,⟨5,6,7,8,2⟩]) && decide (begun tr = 2) &&
        decide (completed tr = 2) && decide ((cfg.threads (.reader 0)).resting = some .reader)) (by decide +kernel)
    simp only [Bool.and_eq_true, decide_eq_true_eq] at hP
    obtain ⟨⟨⟨hs,hb⟩,hc⟩,hl⟩ := hP
    refine ⟨tr,cfg,h,hs,hc,(load_completes_iff h (ThreadState.eq_idle hl) _ 0).mpr ⟨hb.trans hc.symm,rfl,?_⟩⟩
    rw [hs, hc]
    rfl
  · obtain ⟨tr,cfg,h,hP⟩ := System.exists_config_of_play (storeMoves 5)
      (fun tr cfg => decide (begun tr = 2) && decide (completed tr = 1) &&
        decide ((cfg.threads (.reader 0)).resting = some .reader)) (by decide +kernel)
    simp only [Bool.and_eq_true, decide_eq_true_eq] at hP
    obtain ⟨⟨hb,hc⟩,hl⟩ := hP
    refine ⟨tr,cfg,h,hb,hc,fun t n hdone => ?_⟩
    have heven := ((load_completes_iff h (ThreadState.eq_idle hl) t n).mp hdone).1
    omega

end Runs
end LowLatencyLob.SeqLock
