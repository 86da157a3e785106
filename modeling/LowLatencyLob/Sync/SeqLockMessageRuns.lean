import LowLatencyLob.Sync.SeqLockMessages

/-! Whole runs of a seqlock over a memory of messages: one writer, any number of readers,
each access with no more ordering than it asks for. -/
namespace LowLatencyLob.SeqLock
open Concurrency

/-- One writer and any number of readers around a cell pre-loaded with `t₀`. -/
abbrev weakSystem (t₀ : TopOfBook) : System Thread (@Access.Result _ Val) where
  memory := messages Thread Val
  object := object
  mem₀ := .init Thread (new t₀)
  local₀ := role

/-- The version that the newest (R1) load of reader `i` returned. -/
def version (i : ℕ) : List CellEvent → ℕ
  | [] => 0
  | .access t a r :: tr => if t = .reader i then lastVersion (version i tr) a r else version i tr
  | _ :: tr => version i tr

/-- The snapshots that reader `i` got, oldest first, each with the number of the store
that the version of its accepted pass names (zero for the initial value). -/
def seen (i : ℕ) : List CellEvent → List (ℕ × TopOfBook)
  | [] => []
  | .ret t o :: tr =>
    if t = .reader i then
      match o.snapshot with
      | some v => seen i tr ++ [(version i tr/2,v)]
      | none => seen i tr
    else seen i tr
  | _ :: tr => seen i tr

section Events
variable {i : ℕ} {e : CellEvent}

theorem version_other (h : e.thread ≠ .reader i) (tr : List CellEvent) : version i (e :: tr) = version i tr := by
  cases e with
  | access t a r => exact if_neg h
  | _ => rfl

theorem seen_other (h : e.thread ≠ .reader i) (tr : List CellEvent) : seen i (e :: tr) = seen i tr := by
  cases e with
  | ret t o => exact if_neg h
  | _ => rfl

/-- Only a call of `store` adds a value. -/
theorem stored_other (h : ∀ t v, e ≠ .call t (.store v)) (tr : List CellEvent) : stored (e :: tr) = stored tr := by
  cases e with
  | call t c =>
    cases c with
    | store v => exact absurd rfl (h t v)
    | _ => rfl
  | _ => rfl

theorem stored_grows (e : CellEvent) (tr : List CellEvent) : stored tr <+: stored (e :: tr) := by
  by_cases h : ∃ t v, e = .call t (.store v)
  · obtain ⟨t,v,rfl⟩ := h
    exact List.prefix_append _ _
  · rw [stored_other fun t v he => h ⟨t,v,he⟩]

theorem stored_tail {n : ℕ} (e : CellEvent) (tr : List CellEvent) (h : (stored (e :: tr)).length < n) :
    (stored tr).length < n := (stored_grows e tr).length_le.trans_lt h

end Events

variable {t₀ : TopOfBook}

/-- What reader `i` was told is true of the values stored so far. -/
structure Truthful (log : List TopOfBook) (xs : List (ℕ × TopOfBook)) : Prop where
  exact : ∀ x ∈ xs, log[x.1]? = some x.2
  ordered : xs.Pairwise fun x y => x.1 ≤ y.1

theorem Truthful.mono {log log' : List TopOfBook} {xs : List (ℕ × TopOfBook)} (h : Truthful log xs)
    (hl : log <+: log') : Truthful log' xs :=
  ⟨fun x hx => getElem?_of_grows hl (h.exact x hx),h.ordered⟩

theorem Truthful.snoc {log : List TopOfBook} {xs : List (ℕ × TopOfBook)} {j : ℕ} {t : TopOfBook}
    (h : Truthful log xs) (ht : log[j]? = some t) (hj : ∀ x ∈ xs, x.1 ≤ j) : Truthful log (xs ++ [(j,t)]) := by
  constructor
  · intro x hx
    rcases List.mem_append.mp hx with hx | hx
    · exact h.exact x hx
    · obtain rfl := List.mem_singleton.mp hx
      exact ht
  · apply List.pairwise_append.mpr
    refine ⟨h.ordered,List.pairwise_singleton _ _,fun x hx y hy => ?_⟩
    obtain rfl := List.mem_singleton.mp hy
    exact hj x hx

/-- The world of a thread at a moment of a run. -/
def world {G : Type} (g : List CellEvent → G) (s : (weakSystem t₀).Shared) : Weak G :=
  ⟨t₀ :: stored s.1,s.2,g s.1⟩

/-- What the writer remembers of its own accesses: nothing. -/
def nothing (_ : List CellEvent) : Unit := ()

/-- The terms on which the threads share a cell, for fewer than `2^31` stores. -/
def weakContract (t₀ : TopOfBook) : System.Contract (weakSystem t₀) where
  admissible s := (stored s.1).length < 2^31
  invariant s := protocol.Kept (t₀ :: stored s.1) s.2 ∧ ∀ i, Truthful (t₀ :: stored s.1) (seen i s.1)
  rely
    | .writer, s, s' => publisher.rely (world nothing s) (world nothing s')
    | .reader i, s, s' => (subscriber i).rely (world (version i) s) (world (version i) s') ∧
        seen i s'.1 = seen i s.1
  rest
    | .writer, l, s => l = .writer ∧ ∃ fr, Owns .writer s.2 fr ∧ Stored (stored s.1).length fr
    | .reader i, l, s => l = .reader ∧ ∀ x ∈ seen i s.1, 2*x.1 ≤ (s.2.view (.reader i)).known .seq
  rely_refl t s := by
    cases t with
    | writer => exact publisher.rely_refl _
    | reader i => exact ⟨(subscriber i).rely_refl _,rfl⟩
  rely_trans {t s₁ s₂ s₃} h h' := by
    cases t with
    | writer => exact publisher.rely_trans h h'
    | reader i => exact ⟨(subscriber i).rely_trans h.1 h'.1,h'.2.trans h.2⟩

section Keeping
variable {s s' : (weakSystem t₀).Shared} {e : CellEvent}

/-- A step of the writer: it keeps the protocol and touches no reader's view. -/
theorem keeps_publishing (he : e.thread = .writer) (hs : s'.1 = e :: s.1)
    (hv : ∀ u, u ≠ .writer → s'.2.view u = s.2.view u)
    (hk : protocol.Kept (t₀ :: stored s.1) s.2 → protocol.Kept (t₀ :: stored s'.1) s'.2) :
    (weakContract t₀).Keeps .writer s s' := by
  have hne : ∀ i, e.thread ≠ .reader i := fun i => by simp [he]
  have hlog : t₀ :: stored s.1 <+: t₀ :: stored s'.1 := by
    rw [hs]
    exact (List.prefix_cons_inj t₀).mpr (stored_grows e s.1)
  constructor
  · intro h
    refine ⟨hk h.1,fun i => ?_⟩
    rw [hs, seen_other (hne i), ← hs]
    exact (h.2 i).mono hlog
  · intro u hu
    cases u with
    | writer => exact absurd rfl hu
    | reader i =>
      refine ⟨⟨hlog,hk,hv _ hu,?_⟩,?_⟩
      · change version i s'.1 = version i s.1
        rw [hs, version_other (hne i)]
      · rw [hs, seen_other (hne i)]

/-- A step of a reader: it stores nothing, and what it is told is true. -/
theorem keeps_subscribing {i : ℕ} (he : e.thread = .reader i) (hs : s'.1 = e :: s.1)
    (hc : ∀ t v, e ≠ .call t (.store v)) (hentries : s'.2.entries = s.2.entries)
    (hv : ∀ u, u ≠ .reader i → s'.2.view u = s.2.view u)
    (ht : Truthful (t₀ :: stored s.1) (seen i s.1) → Truthful (t₀ :: stored s.1) (seen i s'.1)) :
    (weakContract t₀).Keeps (.reader i) s s' := by
  have hlog : stored s'.1 = stored s.1 := by rw [hs, stored_other hc]
  have hk : protocol.Kept (t₀ :: stored s.1) s.2 → protocol.Kept (t₀ :: stored s'.1) s'.2 := by
    rw [hlog]
    exact fun h => h.congr hentries
  constructor
  · intro h
    refine ⟨hk h.1,fun j => ?_⟩
    rw [hlog]
    by_cases hj : j = i
    · subst j
      exact ht (h.2 i)
    · have hne : e.thread ≠ .reader j := by simpa [he] using Ne.symm hj
      rw [hs, seen_other hne]
      exact h.2 j
  · intro u hu
    cases u with
    | writer => exact ⟨congrArg (t₀ :: ·) hlog,hentries,hv _ hu⟩
    | reader j =>
      have hne : e.thread ≠ .reader j := by
        rw [he]
        exact hu.symm
      refine ⟨⟨?_,hk,hv _ hu,?_⟩,?_⟩
      · change t₀ :: stored s.1 <+: t₀ :: stored s'.1
        rw [hlog]
      · change version j s'.1 = version j s.1
        rw [hs, version_other hne]
      · rw [hs, seen_other hne]

end Keeping

/-- What the writer's own code meets, it meets in the running system. -/
theorem publisher_runs {α : Type} {p : Code α} {Q : α → Weak Unit → Prop} {s : (weakSystem t₀).Shared}
    (h : Meets publisher p Q (world nothing s)) :
    Meets ((weakContract t₀).env .writer) p (fun x s => Q x (world nothing s)) s := by
  rw [← Program.lift_id p]
  apply Meets.lift (E := publisher) (world nothing)
  · exact fun hr => hr.1
  · rintro s a r s' ⟨⟨n,hx⟩,htr,_⟩
    refine ⟨?_,n,hx⟩
    change t₀ :: stored s'.1 = t₀ :: stored s.1
    rw [htr]
    rfl
  · rintro s a r s' ⟨⟨n,hx⟩,htr,_⟩ hk
    exact keeps_publishing rfl htr (fun u hu => Messages.exec_view_other hx hu) hk
  · exact h

theorem subscriber_runs {α : Type} {i : ℕ} {p : Code α} {Q : α → Weak ℕ → Prop}
    {s : (weakSystem t₀).Shared} (h : Meets (subscriber i) p Q (world (version i) s)) :
    Meets ((weakContract t₀).env (.reader i)) p (fun x s => Q x (world (version i) s)) s := by
  rw [← Program.lift_id p]
  apply Meets.lift (E := subscriber i) (world (version i))
  · exact fun hr => hr.1.1
  · rintro s a r s' ⟨⟨n,hx⟩,htr,_⟩
    refine ⟨?_,⟨n,hx⟩,?_,trivial⟩
    · change t₀ :: stored s'.1 = t₀ :: stored s.1
      rw [htr]
      rfl
    · change version i s'.1 = _
      rw [htr]
      exact if_pos rfl
  · rintro s a r s' ⟨⟨n,hx⟩,htr,_⟩ hentries
    refine keeps_subscribing rfl htr (by simp) hentries (fun u hu => Messages.exec_view_other hx hu) ?_
    rw [htr]
    exact id
  · exact h

theorem store_keeps {s : (weakSystem t₀).Shared} {t : TopOfBook} {fr : Front Val}
    (hi : (weakContract t₀).invariant s) (ho : Owns .writer s.2 fr) (hst : Stored (stored s.1).length fr)
    (ha : (stored (.call .writer (.store t) :: s.1)).length < 2^31) :
    (weakContract t₀).Keeps .writer s (.call .writer (.store t) :: s.1,s.2) ∧
      Meets ((weakContract t₀).env .writer) (store t >>= fun _ => pure (.writer,.stored))
        ((weakContract t₀).Returns .writer) (.call .writer (.store t) :: s.1,s.2) := by
  have hlog : t₀ :: stored s.1 <+: t₀ :: (stored s.1 ++ [t]) :=
    (List.prefix_cons_inj t₀).mpr (List.prefix_append _ _)
  have hlen : (stored s.1).length+1 < 2^31 := by
    simpa [stored] using ha
  have ht : (t₀ :: (stored s.1 ++ [t]))[(stored s.1).length+1]? = some t := by simp
  refine ⟨keeps_publishing rfl rfl (fun _ _ => rfl) fun h => h.mono hlog,Meets.bind ?_⟩
  refine (publisher_runs (store_publishes (s := world nothing (.call .writer (.store t) :: s.1,s.2)) ho
    (hi.1.mono hlog) hst ht (by omega))).mono ?_
  rintro _ s₁ ⟨hlog₁,hk₁,fr₁,ho₁,hst₁⟩
  refine Meets.done fun s₂ h₂ _ => ⟨?_,rfl,fr₁,?_,?_⟩
  · exact keeps_publishing rfl rfl (fun _ _ => rfl) id
  · exact ho₁.congr h₂.1.2.1 h₂.1.2.2
  · have hlen₂ : (stored (.ret .writer .stored :: s₂.1)).length = (stored s.1).length+1 := by
      have heq : t₀ :: stored s₂.1 = t₀ :: (stored s.1 ++ [t]) := h₂.1.1.trans hlog₁
      change (stored s₂.1).length = _
      rw [List.cons.inj heq |>.2, List.length_append, List.length_singleton]
    rw [hlen₂]
    exact hst₁

/-- Whatever a reader's own calls and the other threads do, what it was told stays told. -/
theorem seen_frame {i j : ℕ} {α : Type} {p : Code α} {Q : α → (weakSystem t₀).Shared → Prop}
    {s : (weakSystem t₀).Shared} (h : Meets ((weakContract t₀).env (.reader i)) p Q s)
    (hj : ∀ x ∈ seen i s.1, x.1 ≤ j) :
    Meets ((weakContract t₀).env (.reader i)) p (fun x s => Q x s ∧ ∀ x ∈ seen i s.1, x.1 ≤ j) s := by
  refine Meets.frame ?_ ?_ h hj
  · rintro s s' hP ⟨⟨_,hseen⟩,_⟩
    rw [hseen]
    exact hP
  · rintro s a r s' hP ⟨_,htr,_⟩ _
    rw [htr]
    exact hP

/-- A snapshot that kept its promise is one more true thing told. -/
theorem accepted_returns {i j : ℕ} {o : Out} {t : TopOfBook} {s : (weakSystem t₀).Shared}
    (h : Accepted i j t (world (version i) s)) (hj : ∀ x ∈ seen i s.1, x.1 ≤ j)
    (ho : o.snapshot = some t) : (weakContract t₀).Returns (.reader i) (.reader,o) s := by
  obtain ⟨hk,k,ht,hown,hjk,hknown⟩ := h
  have hversion : version i s.1/2 = k := by
    have hv : version i s.1 = 2*k := hown
    omega
  have hseen : seen i (.ret (.reader i) o :: s.1) = seen i s.1 ++ [(k,t)] := by
    rw [seen, if_pos rfl, ho, hversion]
  have hle : ∀ x ∈ seen i s.1, x.1 ≤ k := fun x hx => (hj x hx).trans hjk
  intro _
  constructor
  · refine keeps_subscribing rfl rfl (by simp) rfl (fun _ _ => rfl) fun htrue => ?_
    rw [hseen]
    exact htrue.snoc ht hle
  · refine ⟨rfl,fun x hx => ?_⟩
    rw [hseen] at hx
    have hxk : x.1 ≤ k := by
      rcases List.mem_append.mp hx with hx | hx
      · exact hle x hx
      · obtain rfl := List.mem_singleton.mp hx
        exact le_rfl
    exact (Nat.mul_le_mul_left 2 hxk).trans hknown

/-- A call of a reader whose code loads one snapshot. -/
theorem load_keeps {i : ℕ} {x : Call} {α : Type} {p : Code α} {g : α → TopOfBook} {out : α → Out}
    {s : (weakSystem t₀).Shared} (hi : (weakContract t₀).invariant s)
    (hr : ∀ x ∈ seen i s.1, 2*x.1 ≤ (s.2.view (.reader i)).known .seq)
    (ho : ∀ y, (out y).snapshot = some (g y)) (hx : ∀ t, x ≠ .store t)
    (hp : ∀ since (s : Weak ℕ), protocol.Kept s.log s.mem → 2*since ≤ (s.mem.view (.reader i)).known .seq →
      Meets (subscriber i) p (fun y s => Accepted i since (g y) s) s) :
    (weakContract t₀).Keeps (.reader i) s (.call (.reader i) x :: s.1,s.2) ∧
      Meets ((weakContract t₀).env (.reader i)) (p >>= fun y => pure (.reader,out y))
        ((weakContract t₀).Returns (.reader i)) (.call (.reader i) x :: s.1,s.2) := by
  have hcall : ∀ t v, (.call (.reader i) x : CellEvent) ≠ .call t (.store v) := by
    rintro t v ⟨⟩
    exact hx v rfl
  have hlog : stored (.call (.reader i) x :: s.1) = stored s.1 := stored_other hcall s.1
  -- All that the reader was told so far is of stores that it knows.
  have hj : ∀ x ∈ seen i s.1, x.1 ≤ (s.2.view (.reader i)).known .seq/2 := by
    intro x hx
    have hle := hr x hx
    omega
  refine ⟨keeps_subscribing rfl rfl hcall rfl (fun _ _ => rfl) id,?_⟩
  have hmeets := subscriber_runs (s := (.call (.reader i) x :: s.1,s.2))
    (hp ((s.2.view (.reader i)).known .seq/2) (world (version i) (.call (.reader i) x :: s.1,s.2))
      (by simp only [world, hlog]; exact hi.1) (Nat.mul_div_le _ 2))
  refine Meets.bind ((seen_frame hmeets hj).mono ?_)
  rintro y s₁ ⟨hacc,hj₁⟩
  refine Meets.done fun s₂ h₂ => accepted_returns (hacc.stable h₂.1.1) ?_ (ho y)
  rw [h₂.1.2]
  exact hj₁

theorem weak_sound (t₀ : TopOfBook) : (weakContract t₀).Sound where
  rest_stable := by
    rintro t l s s' hr ⟨h,_⟩
    cases t with
    | writer =>
      obtain ⟨rfl,fr,ho,hst⟩ := hr
      have hlog : stored s'.1 = stored s.1 := (List.cons.inj h.1).2
      exact ⟨rfl,fr,ho.congr h.2.1 h.2.2,hlog ▸ hst⟩
    | reader i =>
      obtain ⟨rfl,hseen⟩ := hr
      refine ⟨rfl,?_⟩
      have hview : s'.2.view (.reader i) = s.2.view (.reader i) := h.1.2.2.1
      rw [h.2, hview]
      exact hseen
  start_invariant := by
    constructor
    · apply Protocol.kept_init
      intro l
      cases l with
      | seq => exact ⟨rfl,fun _ _ _ => le_rfl⟩
      | _ => exact ⟨⟨t₀,rfl,rfl⟩,le_rfl⟩
    · exact fun i => ⟨by simp [seen],.nil⟩
  start_rest t := by
    cases t with
    | writer => exact ⟨rfl,_,owns_init _ _,rfl,fun _ _ => rfl,rfl⟩
    | reader i => exact ⟨rfl,by simp [seen]⟩
  call := by
    rintro t l x p s hi hr hp ha
    cases t with
    | writer =>
      obtain ⟨rfl,fr,ho,hst⟩ := hr
      cases x with
      | store t =>
        cases hp
        exact store_keeps hi ho hst ha
      | _ => cases hp
    | reader i =>
      obtain ⟨rfl,hseen⟩ := hr
      cases x with
      | store t => cases hp
      | load =>
        cases hp
        exact load_keeps hi hseen (fun _ => rfl) (by simp) fun since s => load_loads
      | loadCounted =>
        cases hp
        exact load_keeps hi hseen (g := Prod.fst) (fun _ => rfl) (by simp) fun since s => loadCounted_loads

/-- With fewer than `2^31` stores, and no more ordering than the code asks for: every
snapshot is, in all five fields, the value of the one store that its version names, and the
stores that one reader sees never go back. -/
theorem untorn_snapshots {tr : (weakSystem t₀).Trace} {cfg : (weakSystem t₀).Config}
    (h : (weakSystem t₀).Run tr cfg) (hb : (stored tr).length < 2^31) (i : ℕ) :
    (∀ x ∈ seen i tr, (t₀ :: stored tr)[x.1]? = some x.2) ∧
    (seen i tr).Pairwise fun x y => x.1 ≤ y.1 := by
  have hrun := h.within (Q := fun tr => (stored tr).length < 2^31) stored_tail hb
  have htrue := ((weak_sound t₀).run hrun).1.2 i
  exact ⟨htrue.exact,htrue.ordered⟩

/-- A reader reads the version, a store goes through, and the reader loads one field of the
new snapshot and four of the old one: it finds the version moved on, and tries again. -/
def staleMoves (t : TopOfBook) : List (weakSystem default).Mv :=
  List.flatten [[.call (.reader 0) .load, .unroll (.reader 0), .access (.reader 0) 0,
      .call .writer (.store t), .access .writer 0],
    List.replicate 8 (.access .writer 1), [.ret .writer, .access (.reader 0) 1],
    List.replicate 5 (.access (.reader 0) 0),
    [.access (.reader 0) 2, .unroll (.reader 0), .access (.reader 0) 2],
    List.replicate 6 (.access (.reader 0) 1), [.access (.reader 0) 2, .ret (.reader 0)]]

theorem untorn_snapshots_stale : ∃ tr cfg, (weakSystem default).Run tr cfg ∧
    (1,⟨-5,1,5,2,1⟩) ∈ seen 0 tr ∧ (default :: stored tr)[1]? = some ⟨-5,1,5,2,1⟩ := by
  obtain ⟨tr,cfg,h,hP⟩ := System.exists_run_of_play (staleMoves ⟨-5,1,5,2,1⟩)
    (fun tr => decide ((stored tr).length < 2^31) && decide ((1,⟨-5,1,5,2,1⟩) ∈ seen 0 tr)) (by decide)
  simp only [Bool.and_eq_true, decide_eq_true_eq] at hP
  exact ⟨tr,cfg,h,hP.2,(untorn_snapshots h hP.1 0).1 _ hP.2⟩

end LowLatencyLob.SeqLock
