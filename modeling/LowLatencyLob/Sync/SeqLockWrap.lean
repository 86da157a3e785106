import LowLatencyLob.Sync.SeqLockRuns
import LowLatencyLob.Concurrency.Solo

/-! The version counter comes round again after `2^31` stores.

A reader that stalls between its two loads of the version for exactly such a lap
sees it unchanged and accepts a snapshot that `2^31` stores have written through. -/
namespace LowLatencyLob.SeqLock
open Concurrency

variable {t₀ : TopOfBook}

/-- An accepted pass is what the version check says it is, that no store began between
the two loads of the version and that the snapshot is one value, exactly when fewer
than `2^31` stores began between them. -/
theorem accepted_iff {tr : (system t₀).Trace} {cfg : (system t₀).Config}
    (h : (system t₀).Run tr cfg) (i : ℕ) : ∀ x ∈ reads i tr,
    (x.overlap = 0 ∧ ∃ n : ℕ, (t₀ :: stored tr)[n]? = some x.value) ↔ x.overlap < 2^31 := by
  intro x hx
  obtain ⟨hd,hv⟩ := ((run_told h).2 i).exact x hx
  constructor
  · rintro ⟨hz,_⟩
    omega
  · intro hlt
    have hz := Nat.eq_zero_of_dvd_of_lt hd hlt
    exact ⟨hz,x.index,hv hz⟩

theorem accepted_iff_retry : ∃ tr cfg, (system default).Run tr cfg ∧ ∃ x ∈ reads 0 tr,
    ((x.overlap = 0 ∧ ∃ n : ℕ, (default :: stored tr)[n]? = some x.value) ↔ x.overlap < 2^31) := by
  obtain ⟨tr,cfg,h,hP⟩ := System.exists_run_of_play (retryMoves ⟨-5,1,5,2,1⟩)
    (fun tr => !(reads 0 tr).isEmpty) (by decide)
  obtain ⟨x,hx⟩ := List.exists_mem_of_ne_nil (reads 0 tr) (by simpa using hP)
  exact ⟨tr,cfg,h,x,hx,accepted_iff h 0 x hx⟩

section Lap

/-- The memory of a cell at rest: its version, and the payload of one value. -/
def cell (v : ℕ) (t : TopOfBook) : ∀ l, Val l := Function.update (new t) .seq v

/-- The accesses of a store that nothing interrupts, from version `v`. -/
def storeAccesses (v : ℕ) (t : TopOfBook) : List (Σ a : Access Val, a.Result) :=
  [⟨.load .seq .relaxed,v⟩,⟨.store .seq ((v+1) % 2^32) .relaxed,()⟩,⟨.fence .release,()⟩,
    ⟨.store .bidPx t.bidPx .relaxed,()⟩,⟨.store .bidQty t.bidQty .relaxed,()⟩,
    ⟨.store .askPx t.askPx .relaxed,()⟩,⟨.store .askQty t.askQty .relaxed,()⟩,
    ⟨.store .stamp t.stamp .relaxed,()⟩,⟨.store .seq ((v+2) % 2^32) .release,()⟩]

theorem store_solo (v : ℕ) (t t' : TopOfBook) :
    Solo (interleaving Thread Val) .writer (cell v t') (store t) (storeAccesses v t) ()
      (cell ((v+2) % 2^32) t) := by
  refine .access () rfl (.access () rfl (.access () rfl (.access () rfl (.access () rfl (.access () rfl
    (.access () rfl (.access () rfl (.access () ?_ (.done _ ())))))))))
  refine congrArg some (Prod.ext rfl ?_)
  funext l
  cases l <;> rfl

theorem Same.append {i : ℕ} {evs : List CellEvent} (h : ∀ e ∈ evs, e.thread ≠ .reader i)
    (tr : List CellEvent) : Same i tr (evs ++ tr) := by
  induction evs with
  | nil => exact .refl i tr
  | cons e evs ih =>
    have hs := ih fun e' he' => h e' (List.mem_cons_of_mem _ he')
    exact hs.trans (.other (h e List.mem_cons_self) _)

theorem stored_accesses (t : Thread) (as : List (Σ a : Access Val, a.Result)) (tr : List CellEvent) :
    stored (accesses t as ++ tr) = stored tr := by
  induction as generalizing tr with
  | nil => rfl
  | cons y as ih =>
    rw [accesses_cons, List.append_assoc, ih]
    rfl

theorem exists_read (i : ℕ) {o : Out} {t : TopOfBook} (h : o.snapshot = some t) (tr : List CellEvent) :
    ∃ x ∈ reads i (.ret (.reader i) o :: tr),
      x.overlap = (marks i tr).begun₂-(marks i tr).begun₁ ∧ x.value = t := by
  rw [reads_ret i h]
  exact ⟨_,List.mem_append_right _ List.mem_cons_self,rfl,rfl⟩

/-- The writer stores one value `n` times over, while everybody else waits. -/
theorem exists_lap (t : TopOfBook) {tr : (system t₀).Trace} {c : (system t₀).Config} {v : ℕ}
    (h : (system t₀).Run tr c) (hw : c.threads .writer = .idle .writer)
    (hm : ∃ t', c.mem = cell v t') (hv : v < 2^32) (n : ℕ) :
    ∃ tr' c', (system t₀).Run tr' c' ∧ c'.threads = c.threads ∧
      (∃ t', c'.mem = cell ((v+2*n) % 2^32) t' ∧ (0 < n → t' = t)) ∧
      stored tr' = stored tr ++ List.replicate n t ∧ begun tr' = begun tr+n ∧ ∀ i, Same i tr tr' := by
  induction n with
  | zero =>
    obtain ⟨t',hm⟩ := hm
    refine ⟨tr,c,h,rfl,⟨t',?_,by simp⟩,by simp,rfl,fun i => .refl i tr⟩
    rw [hm, Nat.mul_zero, Nat.add_zero, Nat.mod_eq_of_lt hv]
  | succ n ih =>
    obtain ⟨tr',c',h',hth,⟨t',hm',_⟩,hst,hbg,hsame⟩ := ih
    have hidle := hw
    rw [← hth] at hidle
    have hsolo := (store_solo ((v+2*n) % 2^32) t t').map fun _ => (Role.writer,Out.stored)
    rw [← hm'] at hsolo
    have hrun := h'.solo_call hidle (x := Call.store t) rfl hsolo
    refine ⟨_,_,hrun,?_,⟨t,?_,fun _ => rfl⟩,?_,?_,fun i => (hsame i).trans ?_⟩
    · rw [← hth]
      exact funext fun u => by
        by_cases hu : u = .writer
        · subst hu; simp [System.Config.advance, System.Config.set, hidle]
        · simp [System.Config.advance, System.Config.set, Function.update_of_ne hu]
    · change cell (((v+2*n) % 2^32+2) % 2^32) t = _
      congr 1
      omega
    · change stored tr' ++ [t] = _
      rw [hst, List.append_assoc, List.replicate_succ']
    · change begun tr'+1 = _
      omega
    · refine (Same.other (e := .call .writer (.store t)) (by simp [Event.thread]) tr').trans ?_
      refine .append (fun e he => ?_) _
      rcases List.mem_cons.mp he with rfl | he
      · simp [Event.thread]
      · rw [thread_of_mem_accesses he]
        simp

/-- A reader that stalls after the version and the first payload field. Whatever payload
it finds at the same version when it goes on, it accepts. -/
theorem exists_stalled : ∃ tr c p, (system default).Run tr c ∧ c.threads .writer = .idle .writer ∧
    c.threads (.reader 0) = .busy p ∧ c.mem = cell 0 default ∧
    stored tr = [] ∧ begun tr = 0 ∧ (marks 0 tr).begun₁ = 0 ∧
    ∀ t, ∃ as, Solo (interleaving Thread Val) (.reader 0) (cell 0 t) p as
        (Role.reader,Out.loadedCounted ⟨0,t.bidQty,t.askPx,t.askQty,t.stamp⟩ 0) (cell 0 t) ∧
      ∀ tr', marks 0 (accesses (.reader 0) as ++ tr') =
        ⟨(marks 0 tr').index,(marks 0 tr').begun₁,begun tr'⟩ := by
  have h₀ : (system default).Run [] _ := .start
  have h₁ := h₀.call (t := .reader 0) (x := Call.loadCounted) rfl rfl
  have h₂ := h₁.unroll (t := .reader 0) rfl
  have h₃ := h₂.access (t := .reader 0) rfl () rfl
  have h₄ := h₃.access (t := .reader 0) rfl () rfl
  refine ⟨_,_,_,h₄,rfl,rfl,?_,rfl,rfl,rfl,fun t => ?_⟩
  · funext l
    cases l <;> rfl
  · refine ⟨_,.access () rfl (.access () rfl (.access () rfl (.access () rfl (.access () rfl
      (.access () rfl (.done _ _)))))),fun tr' => rfl⟩

/-- A reader reads the version and the first payload field; `2^31` stores of one other
value follow; and the reader finds the version as it was. -/
theorem torn_after_lap : ∃ tr cfg, (system default).Run tr cfg ∧ ∃ x ∈ reads 0 tr,
    x.overlap = 2^31 ∧ ∀ n : ℕ, (default :: stored tr)[n]? ≠ some x.value := by
  obtain ⟨tr,c,p,h,hw,hp,hm,hst,hbg,hb₁,hsolo⟩ := exists_stalled
  obtain ⟨tr',c',h',hth,⟨t',hm',ht'⟩,hst',hbg',hsame⟩ :=
    exists_lap ⟨1,1,1,1,1⟩ h hw ⟨default,hm⟩ (by decide) (2^31)
  obtain ⟨as,hs,hmarks⟩ := hsolo t'
  have hm₀ : c'.mem = cell 0 t' := hm'
  rw [← hm₀] at hs
  rw [← hth] at hp
  have hrun := h'.solo hp hs
  obtain ⟨x,hx,hov,hval⟩ := exists_read 0 (o := Out.loadedCounted _ 0) rfl (accesses (.reader 0) as ++ tr')
  refine ⟨_,_,hrun,x,hx,?_,?_⟩
  · rw [hov, hmarks, (hsame 0).marks_eq, hb₁, hbg', hbg]
    rfl
  · intro n hn
    obtain rfl := ht' (Nat.two_pow_pos 31)
    rw [hval] at hn
    have hmem := List.mem_of_getElem? hn
    change _ ∈ default :: stored (accesses _ as ++ tr') at hmem
    rw [stored_accesses, hst', hst, List.nil_append] at hmem
    rcases List.mem_cons.mp hmem with heq | hrep
    · exact absurd heq (by decide)
    · exact absurd (List.eq_of_mem_replicate hrep) (by decide)

end Lap
end LowLatencyLob.SeqLock
