import LowLatencyLob.Sync.SeqLockCell

/-! Whole runs of a seqlock under interleaving semantics: one writer, any number of
readers, every access one indivisible step. A store begins at the store that marks
the version odd, and completes at the one that marks it even. -/
namespace LowLatencyLob.SeqLock
open Concurrency

/-- Events of a cell, the same under every memory. -/
abbrev CellEvent := Event Thread (@Access.Result _ Val) Call Out

/-- The values given to `store`, oldest first. -/
def stored : List CellEvent → List TopOfBook
  | [] => []
  | .call _ (.store t) :: tr => stored tr ++ [t]
  | _ :: tr => stored tr

/-- How many stores have begun. -/
def begun : List CellEvent → ℕ
  | [] => 0
  | .access _ a _ :: tr => begun tr + begins a
  | _ :: tr => begun tr

/-- How many stores are completed. -/
def completed : List CellEvent → ℕ
  | [] => 0
  | .access _ a _ :: tr => completed tr + completes a
  | _ :: tr => completed tr

def isCall (i : ℕ) : CellEvent → Bool
  | .call t _ => t = .reader i
  | _ => false

/-- The (R1) load of `s1` by reader `i`. -/
def isFirst (i : ℕ) : CellEvent → Bool
  | .access t (.load .seq .acquire) _ => t = .reader i
  | _ => false

/-- The load of `s2` by reader `i`. -/
def isSecond (i : ℕ) : CellEvent → Bool
  | .access t (.load .seq .relaxed) _ => t = .reader i
  | _ => false

/-- A snapshot that a load returned, with the stores completed when the load began,
those completed when its accepted pass read `s1`, and those that began between the
`s1` load and the `s2` load of that pass. -/
structure Read where
  since : ℕ
  index : ℕ
  overlap : ℕ
  value : TopOfBook

def since (i : ℕ) (tr : List CellEvent) : ℕ := completed (System.before (isCall i) tr)

def marks (i : ℕ) (tr : List CellEvent) : Marks where
  index := completed (System.before (isFirst i) tr)
  begun₁ := begun (System.before (isFirst i) tr)
  begun₂ := begun (System.before (isSecond i) tr)

/-- The snapshots that reader `i` got, oldest first. -/
def reads (i : ℕ) : List CellEvent → List Read
  | [] => []
  | .ret t o :: tr =>
    if t = .reader i then
      match o.snapshot with
      | some v => reads i tr ++ [⟨since i tr,(marks i tr).index,(marks i tr).begun₂-(marks i tr).begun₁,v⟩]
      | none => reads i tr
    else reads i tr
  | _ :: tr => reads i tr

/-- One writer and any number of readers around a cell pre-loaded with `t₀`. -/
abbrev system (t₀ : TopOfBook) : System Thread (@Access.Result _ Val) where
  memory := interleaving Thread Val
  object := object
  mem₀ := new t₀
  local₀ := role

variable {t₀ : TopOfBook}

/-- The cell and its past at a moment of a run. -/
def shared (s : (system t₀).Shared) : Shared := ⟨t₀ :: stored s.1,begun s.1,completed s.1,s.2⟩

/-- What reader `i` was told is true of a cell: each snapshot is the value its index
names, unless a lap of `2^31` stores hid behind one version, and each load saw at
least what every earlier load saw. -/
structure Told (s : Shared) (xs : List Read) : Prop where
  fresh : ∀ x ∈ xs, x.since ≤ x.index ∧ x.index ≤ s.completed
  exact : ∀ x ∈ xs, 2^31 ∣ x.overlap ∧ (x.overlap = 0 → s.values[x.index]? = some x.value)
  ordered : xs.Pairwise fun x y => x.index ≤ y.since

theorem Told.later {s s' : Shared} {xs : List Read} (h : Told s xs) (hs : s.Later s') : Told s' xs where
  fresh x hx := ⟨(h.fresh x hx).1,(h.fresh x hx).2.trans hs.completed_le⟩
  exact x hx := ⟨(h.exact x hx).1,fun hz => hs.getElem? ((h.exact x hx).2 hz)⟩
  ordered := h.ordered

/-- A load that kept its promise adds one more true snapshot. -/
theorem Told.snoc {s : Shared} {xs : List Read} {n : ℕ} {m : Marks} {t : TopOfBook} (h : Told s xs)
    (hl : Loaded n t (s,m)) (hn : ∀ x ∈ xs, x.index ≤ n) :
    Told s (xs ++ [⟨n,m.index,m.begun₂-m.begun₁,t⟩]) := by
  have hle := hl.begun₁_le
  refine ⟨fun x hx => ?_,fun x hx => ?_,List.pairwise_append.mpr ⟨h.ordered,by simp,?_⟩⟩
  · rcases List.mem_append.mp hx with hx | hx
    · exact h.fresh x hx
    · obtain rfl := List.mem_singleton.mp hx
      exact ⟨hl.fresh,hl.index_le⟩
  · rcases List.mem_append.mp hx with hx | hx
    · exact h.exact x hx
    · obtain rfl := List.mem_singleton.mp hx
      refine ⟨hl.dvd,fun hz => hl.value ?_⟩
      simp only at hle hz ⊢
      omega
  · intro x hx y hy
    obtain rfl := List.mem_singleton.mp hy
    exact hn x hx

/-- Neither another thread nor time changes what reader `i` has done. -/
structure Same (i : ℕ) (tr tr' : List CellEvent) : Prop where
  since_eq : since i tr' = since i tr
  marks_eq : marks i tr' = marks i tr
  reads_eq : reads i tr' = reads i tr

theorem Same.refl (i : ℕ) (tr : List CellEvent) : Same i tr tr := ⟨rfl,rfl,rfl⟩

theorem Same.trans {i : ℕ} {tr tr' tr'' : List CellEvent} (h : Same i tr tr') (h' : Same i tr' tr'') :
    Same i tr tr'' :=
  ⟨h'.since_eq.trans h.since_eq,h'.marks_eq.trans h.marks_eq,h'.reads_eq.trans h.reads_eq⟩

theorem isFirst_other {i : ℕ} {e : CellEvent} (h : e.thread ≠ .reader i) : isFirst i e = false := by
  unfold isFirst
  split
  · exact decide_eq_false h
  · rfl

theorem isSecond_other {i : ℕ} {e : CellEvent} (h : e.thread ≠ .reader i) : isSecond i e = false := by
  unfold isSecond
  split
  · exact decide_eq_false h
  · rfl

theorem isCall_other {i : ℕ} {e : CellEvent} (h : e.thread ≠ .reader i) : isCall i e = false := by
  cases e with
  | call t c => exact decide_eq_false h
  | _ => rfl

theorem Same.other {i : ℕ} {e : CellEvent} (h : e.thread ≠ .reader i) (tr : List CellEvent) :
    Same i tr (e :: tr) where
  since_eq := congrArg completed (System.before_cons_of_neg (isCall_other h) tr)
  marks_eq := by
    unfold marks
    rw [System.before_cons_of_neg (isFirst_other h), System.before_cons_of_neg (isSecond_other h)]
  reads_eq := by
    cases e with
    | ret t o => exact if_neg h
    | _ => rfl

/-- The terms on which the threads share a cell. No bound on the number of stores. -/
def contract (t₀ : TopOfBook) : System.Contract (system t₀) where
  admissible _ := True
  invariant s := (shared s).Good ∧ ∀ i, Told (shared s) (reads i s.1)
  rely
    | .writer, s, s' => shared s' = shared s
    | .reader i, s, s' => (shared s).Later (shared s') ∧ Same i s.1 s'.1
  rest
    | .writer, l, s => l = .writer ∧ (shared s).begun = (shared s).completed ∧
        (shared s).values.length = (shared s).begun+1
    | .reader _, l, _ => l = .reader
  rely_refl t s := by
    cases t with
    | writer => rfl
    | reader i => exact ⟨.refl _,.refl i _⟩
  rely_trans {t s₁ s₂ s₃} h h' := by
    cases t with
    | writer => exact Eq.trans h' h
    | reader i => exact ⟨h.1.trans h'.1,h.2.trans h'.2⟩

section Events
variable {s s' : (system t₀).Shared}

/-- A step of the writer that readers see as `Later`. -/
theorem keeps_writer {e : CellEvent} (he : e.thread = .writer) (hs : s'.1 = e :: s.1)
    (hl : (shared s).Later (shared s')) : (contract t₀).Keeps .writer s s' := by
  have hsame : ∀ i, Same i s.1 s'.1 := fun i => hs ▸ .other (by simp [he]) _
  refine ⟨fun h => ⟨hl.good h.1,fun i => ?_⟩,fun u hu => ?_⟩
  · rw [(hsame i).reads_eq]
    exact (h.2 i).later hl
  · cases u with
    | writer => exact absurd rfl hu
    | reader i => exact ⟨hl,hsame i⟩

/-- A step of a reader leaves the cell alone; it may tell the reader something. -/
theorem keeps_reader {i : ℕ} {e : CellEvent} (he : e.thread = .reader i) (hs : s'.1 = e :: s.1)
    (hsh : shared s' = shared s) (ht : Told (shared s) (reads i s.1) → Told (shared s) (reads i s'.1)) :
    (contract t₀).Keeps (.reader i) s s' := by
  have hsame : ∀ j, j ≠ i → Same j s.1 s'.1 := fun j hj => hs ▸ .other (by simp [he, hj.symm]) _
  refine ⟨fun h => ?_,fun u hu => ?_⟩
  · refine ⟨hsh ▸ h.1,fun j => ?_⟩
    rw [hsh]
    by_cases hj : j = i
    · subst j
      exact ht (h.2 i)
    · rw [(hsame j hj).reads_eq]
      exact h.2 j
  · cases u with
    | writer => exact hsh
    | reader j => exact ⟨hsh ▸ .refl _,hsame j (by rintro rfl; exact hu rfl)⟩

end Events

/-- What the writer's own code meets, it meets in the running system. -/
theorem writer_runs {α : Type} {p : Code α} {Q : α → Shared → Prop} {s : (system t₀).Shared}
    (h : Meets writerEnv p Q (shared s)) :
    Meets ((contract t₀).env .writer) p (fun x s => Q x (shared s)) s := by
  rw [← Program.lift_id p]
  refine Meets.lift shared ?_ ?_ ?_ h
  · exact fun hr => hr.1
  · rintro s a r s' ⟨⟨ch,hx⟩,htr,_⟩
    obtain ⟨hr,hm⟩ := interleaving_exec hx
    refine ⟨hr,?_⟩
    unfold shared
    rw [htr, hm]
    rfl
  · rintro s a r s' ⟨_,htr,_⟩ hl
    exact keeps_writer rfl htr hl

theorem marks_access (i : ℕ) (a : Access Val) (r : a.Result) (ts : List TopOfBook) (m : ∀ l, Val l)
    (tr : List CellEvent) :
    marks i (.access (.reader i) a r :: tr) = (marks i tr).next ⟨ts,begun tr,completed tr,m⟩ a := by
  cases a with
  | fence o => rfl
  | store l v o => cases l <;> rfl
  | load l o =>
    cases l with
    | seq => cases o <;> simp [marks, System.before, isFirst, isSecond, Marks.next]
    | _ => rfl

theorem reader_runs {α : Type} {i : ℕ} {p : Code α} {Q : α → Shared × Marks → Prop}
    {s : (system t₀).Shared} (h : Meets readerEnv p Q (shared s,marks i s.1)) :
    Meets ((contract t₀).env (.reader i)) p (fun x s => Q x (shared s,marks i s.1)) s := by
  rw [← Program.lift_id p]
  refine Meets.lift (fun s => (shared s,marks i s.1)) ?_ ?_ ?_ h
  · exact fun hr => ⟨hr.1.1,hr.1.2.marks_eq⟩
  · rintro s a r s' ⟨⟨ch,hx⟩,htr,_⟩
    obtain ⟨hr,hm⟩ := interleaving_exec hx
    refine ⟨hr,Prod.ext ?_ ?_⟩
    · simp only [shared]
      rw [htr, hm]
      rfl
    · simp only
      rw [htr]
      exact marks_access i a r (t₀ :: stored s.1) s.2 s.1
  · rintro s a r s' ⟨_,htr,_⟩ heq
    refine keeps_reader rfl htr heq ?_
    rw [htr]
    exact id

theorem store_call {s : (system t₀).Shared} {t : TopOfBook} (hg : (shared s).Good)
    (hi : (shared s).begun = (shared s).completed)
    (hn : (shared s).values.length = (shared s).begun+1) :
    (contract t₀).Keeps .writer s (.call .writer (.store t) :: s.1,s.2) ∧
      Meets ((contract t₀).env .writer) (store t >>= fun _ => pure (.writer,.stored))
        ((contract t₀).Returns .writer) (.call .writer (.store t) :: s.1,s.2) := by
  have hlater : (shared s).Later (shared (.call .writer (.store t) :: s.1,s.2)) := .append _ [t]
  refine ⟨keeps_writer rfl rfl hlater,?_⟩
  have hv : (shared (.call .writer (.store t) :: s.1,s.2)).values = (shared s).values ++ [t] := rfl
  have ht : (shared (.call .writer (.store t) :: s.1,s.2)).values[(shared s).begun+1]? = some t := by
    rw [hv, ← hn]
    exact List.getElem?_concat_length
  refine Meets.bind ((writer_runs (store_meets (hlater.good hg) hi ht)).mono ?_)
  rintro _ s₁ ⟨_,hv₁,hb₁,hc₁⟩
  refine Meets.done fun s₂ h₂ _ => ⟨keeps_writer rfl rfl (.refl _),rfl,?_⟩
  have hsh : shared (.ret .writer .stored :: s₂.1,s₂.2) = shared s₁ := h₂.1
  rw [hsh, hv₁, hb₁, hc₁, hv, List.length_append, hn]
  exact ⟨rfl,rfl⟩

/-- Whatever a reader's own calls and the other threads do, what it was told stays told. -/
theorem told_frame {i n : ℕ} {α : Type} {p : Code α} {Q : α → (system t₀).Shared → Prop}
    {s : (system t₀).Shared} (h : Meets ((contract t₀).env (.reader i)) p Q s)
    (hP : since i s.1 = n ∧ ∀ x ∈ reads i s.1, x.index ≤ n) :
    Meets ((contract t₀).env (.reader i)) p
      (fun x s => Q x s ∧ since i s.1 = n ∧ ∀ x ∈ reads i s.1, x.index ≤ n) s := by
  refine Meets.frame ?_ ?_ h hP
  · rintro s s' hP ⟨⟨_,hsame⟩,_⟩
    rw [hsame.since_eq, hsame.reads_eq]
    exact hP
  · rintro s a r s' hP ⟨_,htr,_⟩ _
    rw [htr]
    exact hP

theorem reads_ret (i : ℕ) {o : Out} {t : TopOfBook} (h : o.snapshot = some t) (tr : List CellEvent) :
    reads i (.ret (.reader i) o :: tr) = reads i tr ++
      [⟨since i tr,(marks i tr).index,(marks i tr).begun₂-(marks i tr).begun₁,t⟩] := by
  simp only [reads, h, if_pos]

/-- A call of a reader whose code loads one snapshot. -/
theorem load_call {i : ℕ} {x : Call} {α : Type} {p : Code α} {g : α → TopOfBook} {out : α → Out}
    {s : (system t₀).Shared} (hi : (contract t₀).invariant s)
    (ho : ∀ y, (out y).snapshot = some (g y)) (hx : ∀ t, x ≠ .store t)
    (hp : ∀ n (s : Shared × Marks), s.1.Good → n ≤ s.1.completed →
      Meets readerEnv p (fun y s => Loaded n (g y) s) s) :
    (contract t₀).Keeps (.reader i) s (.call (.reader i) x :: s.1,s.2) ∧
      Meets ((contract t₀).env (.reader i)) (p >>= fun y => pure (.reader,out y))
        ((contract t₀).Returns (.reader i)) (.call (.reader i) x :: s.1,s.2) := by
  have hsh : shared (.call (.reader i) x :: s.1,s.2) = shared s := by
    cases x with
    | store t => exact absurd rfl (hx t)
    | _ => rfl
  have hsince : since i (.call (.reader i) x :: s.1) = (shared s).completed :=
    congrArg completed (System.before_cons_of_pos (by simp [isCall]) s.1)
  refine ⟨keeps_reader rfl rfl hsh id,?_⟩
  have hmeet := reader_runs (i := i) (s := (.call (.reader i) x :: s.1,s.2))
    (hp (shared s).completed _ (hsh ▸ hi.1) (by rw [hsh]))
  have hframe := told_frame hmeet ⟨hsince,fun x hx => ((hi.2 i).fresh x hx).2⟩
  refine Meets.bind (hframe.mono ?_)
  rintro y s₁ ⟨hload,hn,hle⟩
  refine Meets.done fun s₂ h₂ _ => ⟨keeps_reader rfl rfl rfl fun ht => ?_,rfl⟩
  obtain ⟨⟨hl,hsame⟩,_⟩ := h₂
  simp only at ht ⊢
  rw [reads_ret i (ho y), hsame.since_eq, hn, hsame.marks_eq]
  refine ht.snoc (hload.later hl) fun x hx => hle x ?_
  rwa [hsame.reads_eq] at hx

theorem good_start : (shared (([],new t₀) : (system t₀).Shared)).Good := by
  refine ⟨le_rfl,Nat.le_add_right _ _,rfl,fun _ => rfl⟩

theorem sound (t₀ : TopOfBook) : (contract t₀).Sound where
  rest_stable := by
    rintro t l s s' hr ⟨h,_⟩
    cases t with
    | writer =>
      refine ⟨hr.1,?_⟩
      rw [show shared s' = shared s from h]
      exact hr.2
    | reader i => exact hr
  start_invariant := ⟨good_start,fun _ => ⟨by simp [reads],by simp [reads],.nil⟩⟩
  start_rest t := by
    cases t with
    | writer => exact ⟨rfl,rfl,rfl⟩
    | reader i => rfl
  call := by
    rintro t l x p s hi hr hp _
    cases t with
    | writer =>
      obtain ⟨rfl,hidle,hn⟩ := hr
      cases x with
      | store t =>
        cases hp
        exact store_call hi.1 hidle hn
      | _ => cases hp
    | reader i =>
      obtain rfl : l = .reader := hr
      cases x with
      | store t => cases hp
      | load =>
        cases hp
        exact load_call hi (fun _ => rfl) (by simp) fun n s => load_meets
      | loadCounted =>
        cases hp
        exact load_call hi (g := Prod.fst) (fun _ => rfl) (by simp) fun n s => loadCounted_meets

/-- In every run the cell is good and every reader was told what is true of it. -/
theorem run_told {tr : (system t₀).Trace} {cfg : (system t₀).Config} (h : (system t₀).Run tr cfg) :
    (shared ((tr,cfg.mem) : (system t₀).Shared)).Good ∧
      ∀ i, Told (shared ((tr,cfg.mem) : (system t₀).Shared)) (reads i tr) :=
  ((sound t₀).run (h.within (fun _ _ _ => trivial) trivial)).1

/-- The cell is a linearizable register as long as fewer than `2^31` stores begin between
the `s1` load and the `s2` load of an accepted pass: a load returns, in all five fields,
the value of the last store completed when `s1` was read, which is no older than the last
one completed before the load began; and the values that one reader gets never go back. -/
theorem load_linearizable {tr : (system t₀).Trace} {cfg : (system t₀).Config}
    (h : (system t₀).Run tr cfg) (i : ℕ) (hlap : ∀ x ∈ reads i tr, x.overlap < 2^31) :
    (∀ x ∈ reads i tr, (t₀ :: stored tr)[x.index]? = some x.value ∧ x.since ≤ x.index) ∧
    (reads i tr).Pairwise fun x y => x.index ≤ y.index := by
  have ht := (run_told h).2 i
  have hfresh : ∀ x ∈ reads i tr, x.since ≤ x.index := fun x hx => (ht.fresh x hx).1
  refine ⟨fun x hx => ⟨?_,hfresh x hx⟩,ht.ordered.imp_of_mem ?_⟩
  · obtain ⟨hd,hv⟩ := ht.exact x hx
    exact hv (Nat.eq_zero_of_dvd_of_lt hd (hlap x hx))
  · intro x y _ hy hxy
    exact hxy.trans (hfresh y hy)

/-- A reader reads the version, a store goes through, and the reader has to try again. -/
def retryMoves (t : TopOfBook) : List (system default).Mv :=
  List.flatten [[.call (.reader 0) .load, .unroll (.reader 0), .access (.reader 0) (),
      .call .writer (.store t)],
    List.replicate 9 (.access .writer ()), [.ret .writer],
    List.replicate 7 (.access (.reader 0) ()), [.unroll (.reader 0)],
    List.replicate 8 (.access (.reader 0) ()), [.ret (.reader 0)]]

theorem load_linearizable_retry : ∃ tr cfg, (system default).Run tr cfg ∧
    ∃ x ∈ reads 0 tr, x.index = 1 ∧ x.value = ⟨-5,1,5,2,1⟩ ∧
      (default :: stored tr)[x.index]? = some x.value ∧ x.since ≤ x.index := by
  obtain ⟨tr,cfg,h,hP⟩ := System.exists_run_of_play (retryMoves ⟨-5,1,5,2,1⟩)
    (fun tr => (reads 0 tr).all (fun x => decide (x.overlap < 2^31)) &&
      (reads 0 tr).any fun x => decide (x.index = 1) && decide (x.value = ⟨-5,1,5,2,1⟩)) (by decide)
  simp only [Bool.and_eq_true, decide_eq_true_eq, List.all_eq_true, List.any_eq_true] at hP
  obtain ⟨hlap,x,hx,hx₁,hx₂⟩ := hP
  exact ⟨tr,cfg,h,x,hx,hx₁,hx₂,(load_linearizable h 0 hlap).1 x hx⟩

end LowLatencyLob.SeqLock
