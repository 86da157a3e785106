import LowLatencyLob.Sync.RingLog
import LowLatencyLob.Sync.RingTrace

/-! Whole runs of a ring under interleaving semantics: one producer, any number of
consumers joining at any time, every access one indivisible step. -/
namespace LowLatencyLob.Ring
open Concurrency

/-- One producer and any number of consumers around a ring of capacity `C`. -/
abbrev system (C : Capacity) (W : ℕ) : System Thread (@Access.Result (Loc C W) Val) where
  memory := interleaving Thread Val
  object := object C W
  mem₀ := init
  local₀ := holder

variable {C : Capacity} {W : ℕ}

/-- The newest write position that consumer `i` has loaded. -/
def lastRead (i : ℕ) : List (RingEvent C W) → ℕ
  | [] => 0
  | .access t a r :: tr => if t = .consumer i then lastSeen (lastRead i tr) a r else lastRead i tr
  | _ :: tr => lastRead i tr

theorem lastRead_cons_other {i : ℕ} {e : RingEvent C W} (h : e.thread ≠ .consumer i)
    (tr : List (RingEvent C W)) : lastRead i (e :: tr) = lastRead i tr := by
  cases e with
  | call t c => rfl
  | access t a r => exact if_neg h
  | ret t o => rfl

/-- Whether the producer is inside a push: past the mark on its slot (P1), and not past
the advance of the write position (P4). -/
def midPush : List (RingEvent C W) → Bool
  | [] => false
  | .access _ a _ :: tr => midAfter (midPush tr) a
  | _ :: tr => midPush tr

/-- The log and the memory at a moment of a run, and whether a push is under way. -/
def shared (s : (system C W).Shared) : Shared C W := ⟨pushed s.1,s.2,midPush s.1⟩

/-- Consumers have walked over the log. -/
structure Invariant (s : (system C W).Shared) : Prop where
  good : (shared s).Good
  walks : ∀ i, outs i s.1 = [] ∨ ∃ a c, Walk (pushed s.1) (outs i s.1) a c

def Rely : Thread → (system C W).Shared → (system C W).Shared → Prop
  | .producer, s, s' => shared s' = shared s
  | .consumer i, s, s' => (shared s).Later (shared s') ∧ outs i s'.1 = outs i s.1 ∧
      lastRead i s'.1 = lastRead i s.1

/-- Where a thread stands between its calls. -/
def Rest : Thread → Holder → (system C W).Shared → Prop
  | .producer, l, s => l = .producer ∧ (shared s).write = (pushed s.1).length
  | .consumer i, .handle, s => outs i s.1 = []
  | .consumer i, .consumer c, s => (∃ a, Walk (pushed s.1) (outs i s.1) a c) ∧ c ≤ (shared s).write
  | .consumer _, .producer, _ => False

/-- Runs of fewer than `2^64` pushes, so that no position wraps around. -/
def contract (C : Capacity) (W : ℕ) : System.Contract (system C W) where
  admissible s := (pushed s.1).length < 2^64
  invariant := Invariant
  rely := Rely
  rest := Rest
  rely_refl t s := by
    cases t with
    | producer => rfl
    | consumer i => exact ⟨.refl _,rfl,rfl⟩
  rely_trans {t s₁ s₂ s₃} h h' := by
    cases t with
    | producer => exact Eq.trans h' h
    | consumer i => exact ⟨h.1.trans h'.1,h'.2.1.trans h.2.1,h'.2.2.trans h.2.2⟩

section Events
variable {s s' : (system C W).Shared} {e : RingEvent C W}

/-- A call pushes nothing more, or it is a call of `push`. -/
theorem shared_call {t : Thread} {x : Call W} (hx : ∀ rec, x ≠ .push rec) :
    shared (.call t x :: s.1,s.2) = shared s := by
  cases x with
  | push rec => exact absurd rfl (hx rec)
  | _ => rfl

theorem shared_ret (t : Thread) (o : Out W) : shared (.ret t o :: s.1,s.2) = shared s := rfl

/-- An event that leaves the ring alone is invisible to the other threads. -/
theorem rely_quiet (hs : shared s' = shared s) (he : s'.1 = e :: s.1) {u : Thread} (hu : u ≠ e.thread) :
    Rely u s s' := by
  cases u with
  | producer => exact hs
  | consumer i =>
    refine ⟨hs ▸ .refl _,?_,?_⟩
    · rw [he]
      exact outs_cons_other hu.symm s.1
    · rw [he]
      exact lastRead_cons_other hu.symm s.1

/-- The invariant survives an event that tells no consumer anything. -/
theorem Invariant.quiet (h : Invariant s) (hs : shared s' = shared s) (ho : ∀ i, outs i s'.1 = outs i s.1) :
    Invariant s' := by
  have hp : pushed s'.1 = pushed s.1 := congrArg Shared.log hs
  refine ⟨hs ▸ h.good,fun i => ?_⟩
  rw [hp, ho i]
  exact h.walks i

/-- A call that pushes nothing. -/
theorem keeps_call {t : Thread} {x : Call W} (hx : ∀ rec, x ≠ .push rec) :
    (contract C W).Keeps t s (.call t x :: s.1,s.2) :=
  ⟨fun h => h.quiet (shared_call hx) fun _ => rfl,fun _ hu => rely_quiet (shared_call hx) rfl hu⟩

theorem keeps_access {t : Thread} {a : Access (Val (C := C) (W := W))} {r : a.Result}
    (htr : s'.1 = .access t a r :: s.1) (hs : shared s' = shared s) : (contract C W).Keeps t s s' := by
  refine ⟨fun h => h.quiet hs fun i => ?_,fun u hu => rely_quiet hs htr hu⟩
  rw [htr]
  rfl

end Events

/-- What the producer's own code meets, it meets in the running system. -/
theorem producer_runs {α : Type} {p : Code C W α} {Q : α → Shared C W → Prop}
    {s : (system C W).Shared} (h : Meets (producerEnv C W) p Q (shared s)) :
    Meets ((contract C W).env .producer) p (fun x s => Q x (shared s)) s := by
  rw [← Program.lift_id p]
  refine Meets.lift shared ?_ ?_ ?_ h
  · exact fun hr => hr.1
  · rintro s a r s' ⟨⟨ch,hx⟩,htr,_⟩
    obtain ⟨hr,hm⟩ := interleaving_exec hx
    refine ⟨hr,?_⟩
    change Shared.mk (pushed s'.1) s'.2 (midPush s'.1) = ⟨pushed s.1,(a.act s.2).2,midAfter (midPush s.1) a⟩
    rw [htr, hm]
    rfl
  · rintro s a r s' ⟨_,htr,_⟩ hl
    refine ⟨fun h => ⟨hl.good h.good,?_⟩,?_⟩
    · intro i
      rw [htr]
      exact h.walks i
    · intro u hu
      cases u with
      | producer => exact absurd rfl hu
      | consumer i => exact ⟨hl,by rw [htr]; rfl,by rw [htr]; exact lastRead_cons_other (by simp [Event.thread]) _⟩

theorem consumer_runs {α : Type} {i : ℕ} {p : Code C W α} {Q : α → Shared C W × ℕ → Prop}
    {s : (system C W).Shared} (h : Meets (consumerEnv C W) p Q (shared s,lastRead i s.1)) :
    Meets ((contract C W).env (.consumer i)) p (fun x s => Q x (shared s,lastRead i s.1)) s := by
  rw [← Program.lift_id p]
  refine Meets.lift (fun s => (shared s,lastRead i s.1)) ?_ ?_ ?_ h
  · exact fun hr => ⟨hr.1.1,hr.1.2.2⟩
  · rintro s a r s' ⟨⟨ch,hx⟩,htr,_⟩
    obtain ⟨hr,hm⟩ := interleaving_exec hx
    refine ⟨hr,?_⟩
    change (Shared.mk (pushed s'.1) s'.2 (midPush s'.1),lastRead i s'.1) =
      (⟨pushed s.1,(a.act s.2).2,midAfter (midPush s.1) a⟩,lastSeen (lastRead i s.1) a r)
    rw [htr, hm]
    exact Prod.ext rfl (if_pos rfl)
  · rintro s a r s' ⟨_,htr,_⟩ heq
    exact keeps_access htr heq

/-- A receive that kept its promise carries the walk of its consumer on. -/
theorem Received.walk {cursor a n : ℕ} {x : Recv W × ℕ} {sh : Shared C W} {os : List (Out W)}
    (h : Received C cursor x (sh,n)) (hw : Walk sh.log os a cursor) :
    Walk sh.log (os ++ [.received cursor x.1 x.2]) a x.2 := by
  obtain ⟨r,c⟩ := x
  obtain ⟨_,_,hx⟩ := h
  cases r with
  | item rec =>
    obtain ⟨hl,rfl⟩ := hx
    exact hw.item hl
  | empty =>
    obtain rfl : c = cursor := hx
    exact hw.empty
  | overrun k =>
    obtain ⟨rfl,_⟩ := hx
    exact hw.overrun k

/-- A consumer may return once its new event continues its walk. -/
theorem consumer_returns {i c : ℕ} {o : Out W} {s : (system C W).Shared}
    (hw : ∃ a, Walk (pushed s.1) (outs i s.1 ++ [o]) a c) (hc : c ≤ (shared s).write) :
    (contract C W).Returns (.consumer i) (.consumer c,o) s := by
  obtain ⟨a,hw⟩ := hw
  rw [← outs_ret_self] at hw
  refine fun _ => ⟨⟨fun h => ⟨h.good,fun j => ?_⟩,fun u hu => rely_quiet (shared_ret _ _) rfl hu⟩,⟨a,hw⟩,hc⟩
  by_cases hj : j = i
  · subst j
    exact .inr ⟨a,c,hw⟩
  · rw [outs_cons_other (by simpa [Event.thread] using Ne.symm hj)]
    exact h.walks j

theorem push_call {s : (system C W).Shared} {rec : Record W} (hi : Invariant s)
    (hrest : (shared s).write = (pushed s.1).length)
    (ha : (pushed (.call .producer (.push rec) :: s.1)).length < 2^64) :
    (contract C W).Keeps .producer s (.call .producer (.push rec) :: s.1,s.2) ∧
      Meets ((contract C W).env .producer) (push C rec >>= fun _ => pure (.producer,.pushed))
        ((contract C W).Returns .producer) (.call .producer (.push rec) :: s.1,s.2) := by
  have hlater : (shared s).Later (shared (.call .producer (.push rec) :: s.1,s.2)) := .append _ _
  have hg := hlater.good hi.good
  refine ⟨⟨fun h => ⟨hg,fun i => ?_⟩,fun u hu => ?_⟩,?_⟩
  · exact (h.walks i).imp id fun ⟨a,c,hw⟩ => ⟨a,c,hw.mono (List.prefix_append _ _)⟩
  · cases u with
    | producer => exact absurd rfl hu
    | consumer i => exact ⟨hlater,rfl,rfl⟩
  · simp only [pushed, List.length_append, List.length_singleton] at ha
    have hl : (pushed s.1 ++ [rec])[(shared s).write]? = some rec := by simp [hrest]
    have hb : (shared s).write+1 < 2^64 := by omega
    refine Meets.bind ((producer_runs (push_meets hg hl hb)).mono ?_)
    rintro _ s₁ ⟨_,hl₁,hw₁⟩
    refine Meets.done fun s₂ h₂ _ => ⟨⟨fun h => ?_,fun u hu => rely_quiet (shared_ret _ _) rfl hu⟩,rfl,?_⟩
    · exact h.quiet (shared_ret _ _) fun i => outs_cons_other (by simp [Event.thread]) _
    · have hsh : shared s₂ = shared s₁ := h₂.1
      change (shared s₂).write = (shared s₂).log.length
      rw [hsh, hw₁, hl₁]
      simp [shared, pushed, ← hrest]
      rfl

/-- A call or an access of its own does not change what a consumer has been told. -/
theorem walk_frame {i c : ℕ} {α : Type} {p : Code C W α} {Q : α → (system C W).Shared → Prop}
    {s : (system C W).Shared} (h : Meets ((contract C W).env (.consumer i)) p Q s)
    (hw : ∃ a, Walk (pushed s.1) (outs i s.1) a c) :
    Meets ((contract C W).env (.consumer i)) p
      (fun x s => Q x s ∧ ∃ a, Walk (pushed s.1) (outs i s.1) a c) s := by
  refine Meets.frame ?_ ?_ h hw
  · rintro s s' ⟨a,hw⟩ ⟨⟨hl,ho,_⟩,_⟩
    exact ⟨a,ho ▸ hw.mono hl.log_prefix⟩
  · rintro s a r s' ⟨b,hw⟩ ⟨_,htr,_⟩ _
    rw [htr]
    exact ⟨b,hw⟩

theorem join_returns {i : ℕ} {p : Code C W ℕ} {s : (system C W).Shared} (ho : outs i s.1 = [])
    (h : Meets (consumerEnv C W) p (fun c s => s.1.Good ∧ c ≤ s.1.write) (shared s,lastRead i s.1)) :
    Meets ((contract C W).env (.consumer i)) (p >>= fun c => pure (.consumer c,.joined c))
      ((contract C W).Returns (.consumer i)) s := by
  have hframe := Meets.frame (P := fun s => outs i s.1 = []) ?_ ?_ (consumer_runs h) ho
  · refine Meets.bind (hframe.mono ?_)
    rintro c s₁ ⟨⟨_,hc⟩,ho₁⟩
    refine Meets.done fun s₂ h₂ => consumer_returns ⟨c,?_⟩ (hc.trans h₂.1.1.write_le)
    rw [h₂.1.2.1, ho₁]
    exact .joined c
  · exact fun hP hr => hr.1.2.1.trans hP
  · rintro s a r s' hP ⟨_,htr,_⟩ _
    rw [htr]
    exact hP

theorem tryRecv_returns {i c : ℕ} {s : (system C W).Shared} (hg : (shared s).Good)
    (hw : ∃ a, Walk (pushed s.1) (outs i s.1) a c) (hc : c ≤ (shared s).write) :
    Meets ((contract C W).env (.consumer i))
      (tryRecv C c >>= fun x => pure (.consumer x.2,.received c x.1 x.2))
      ((contract C W).Returns (.consumer i)) s := by
  refine Meets.bind ((walk_frame (consumer_runs (tryRecv_meets hg hc)) hw).mono ?_)
  rintro ⟨r,c'⟩ s₁ ⟨hrec,a,hw₁⟩
  refine Meets.done fun s₂ h₂ => ?_
  obtain ⟨⟨hl,ho,hlast⟩,_⟩ := h₂
  have hrec₂ : Received C c (r,c') (shared s₂,lastRead i s₂.1) := hlast ▸ hrec.later hl
  have hw₂ : Walk (pushed s₂.1) (outs i s₂.1) a c := ho ▸ hw₁.mono hl.log_prefix
  exact consumer_returns ⟨a,hrec₂.walk hw₂⟩ hrec₂.2.1

theorem good_start : (shared (C := C) (W := W) ([],(system C W).mem₀)).Good := by
  refine ⟨Nat.two_pow_pos 64,le_rfl,?_,?_,?_⟩ <;> intro c hc <;> exact absurd hc (Nat.not_lt_zero c)

theorem sound (C : Capacity) (W : ℕ) : (contract C W).Sound where
  rest_stable := by
    rintro t l s s' hr ⟨h,_⟩
    cases t with
    | producer => exact ⟨hr.1,(congrArg Shared.write h).trans (hr.2.trans (congrArg (·.log.length) h).symm)⟩
    | consumer i =>
      obtain ⟨hl,ho,_⟩ := h
      cases l with
      | producer => exact hr
      | handle => exact ho.trans hr
      | consumer c =>
        obtain ⟨⟨a,hw⟩,hc⟩ := hr
        exact ⟨⟨a,ho ▸ hw.mono hl.log_prefix⟩,hc.trans hl.write_le⟩
  start_invariant := ⟨good_start,fun _ => .inl rfl⟩
  start_rest t := by
    cases t with
    | producer => exact ⟨rfl,rfl⟩
    | consumer i => rfl
  call := by
    rintro t l x p s hi hr hp ha
    cases t with
    | producer =>
      obtain ⟨rfl,hw⟩ := hr
      cases x with
      | push rec =>
        cases hp
        exact push_call hi hw ha
      | _ => cases hp
    | consumer i =>
      cases l with
      | producer => exact hr.elim
      | handle =>
        cases x with
        | consumer =>
          cases hp
          exact ⟨keeps_call (by simp),join_returns hr (consumer_meets hi.good)⟩
        | consumerFromOldest =>
          cases hp
          exact ⟨keeps_call (by simp),join_returns hr (consumerFromOldest_meets hi.good)⟩
        | _ => cases hp
      | consumer c =>
        cases x with
        | tryRecv =>
          cases hp
          exact ⟨keeps_call (by simp),tryRecv_returns hi.good hr.1 hr.2⟩
        | _ => cases hp

theorem run_within {tr : (system C W).Trace} {cfg : (system C W).Config}
    (h : (system C W).Run tr cfg) (hb : (pushed tr).length < 2^64) :
    (system C W).RunIn (contract C W).admissible tr cfg :=
  h.within (Q := fun tr => (pushed tr).length < 2^64) pushed_tail hb

theorem pushed_suffix {tr tr₀ : (system C W).Trace} (hb : (pushed tr).length < 2^64)
    (hs : tr₀ <:+ tr) : (pushed tr₀).length < 2^64 :=
  System.inherits (Q := fun tr => (pushed tr).length < 2^64) pushed_tail hb hs

/-- In every run of fewer than `2^64` pushes, at every moment, each consumer has walked
over the log, and between its calls it stands where its walk says. -/
theorem run_walks {tr : List (RingEvent C W)} {cfg : (system C W).Config}
    (h : (system C W).Run tr cfg) (hb : (pushed tr).length < 2^64) :
    Invariant (tr,cfg.mem) ∧ ∀ i c, cfg.threads (.consumer i) = .idle (.consumer c) →
      (∃ a, Walk (pushed tr) (outs i tr) a c) ∧ c ≤ (shared (C := C) (tr,cfg.mem)).write := by
  obtain ⟨hi,ht⟩ := (sound C W).run (run_within h hb)
  refine ⟨hi,fun i c hc => ?_⟩
  have hr := ht (.consumer i)
  rw [hc] at hr
  exact hr

/-- Whatever the interleaving: an item is, in all its words, the record pushed at the
cursor of the call; cursors never decrease and items come at strictly increasing
positions; and between calls the items and the skip counts add up to the distance
travelled. -/
theorem broadcast_exact {tr : (system C W).Trace} {cfg : (system C W).Config}
    (h : (system C W).Run tr cfg) (hb : (pushed tr).length < 2^63) (i : ℕ) :
    (∀ x ∈ items (outs i tr), (pushed tr)[x.1]? = some x.2) ∧
    (cursors (outs i tr)).Pairwise (· ≤ ·) ∧
    ((items (outs i tr)).map Prod.fst).Pairwise (· < ·) ∧
    ∀ cursor, cfg.threads (.consumer i) = .idle (.consumer cursor) →
      ∃ start, (outs i tr).head? = some (.joined start) ∧
        (items (outs i tr)).length + (skips (outs i tr)).sum = cursor-start ∧ start ≤ cursor ∧
        (cursors (outs i tr)).getLast? = some cursor := by
  obtain ⟨hi,hidle⟩ := run_walks h (by omega)
  have hwalk := hi.walks i
  simp only at hwalk
  refine ⟨?_,?_,?_,?_⟩
  · rcases hwalk with hn | ⟨a,p,hw⟩
    · simp [hn, items]
    · exact fun x hx => (hw.item_mem x hx).2.2
  · rcases hwalk with hn | ⟨a,p,hw⟩
    · simp [hn, cursors]
    · exact hw.cursors_sorted.1
  · rcases hwalk with hn | ⟨a,p,hw⟩
    · simp [hn, items]
    · exact hw.items_increasing
  · intro cursor hc
    obtain ⟨⟨a,hw⟩,_⟩ := hidle i cursor hc
    have ha := hw.accounts
    exact ⟨a,hw.head_joined,by omega,by omega,hw.cursors_getLast⟩

/-- The moves of one push, and of a call of consumer `i` that makes `n` accesses. -/
def pushMoves (C : Capacity) {W : ℕ} (rec : Record W) : List (system C W).Mv :=
  .call .producer (.push rec) :: List.replicate (W+5) (.access .producer ()) ++ [.ret .producer]

def callMoves (C : Capacity) {W : ℕ} (i : ℕ) (x : Call W) (n : ℕ) : List (system C W).Mv :=
  .call (.consumer i) x :: List.replicate n (.access (.consumer i) ()) ++ [.ret (.consumer i)]

/-- Four pushes to a ring of two slots. Consumer 1 receives each record, one of them in the
middle of the next push; consumer 0 receives the first, and comes back when it is lapped. -/
def lappedMoves : List (system twoSlots 2).Mv :=
  List.flatten [callMoves _ 0 .consumer 1, callMoves _ 1 .consumer 1, pushMoves _ (numbered 0),
    callMoves _ 0 .tryRecv 6, callMoves _ 1 .tryRecv 6, pushMoves _ (numbered 1), callMoves _ 1 .tryRecv 6,
    pushMoves _ (numbered 2), (pushMoves _ (numbered 3)).take 4, callMoves _ 1 .tryRecv 6,
    (pushMoves _ (numbered 3)).drop 4, callMoves _ 0 .tryRecv 3, callMoves _ 0 .tryRecv 6, callMoves _ 1 .tryRecv 6]

theorem broadcast_exact_lapped : ∃ tr cfg, (system twoSlots 2).Run tr cfg ∧
    items (outs 0 tr) = [(0,numbered 0),(2,numbered 2)] ∧ skips (outs 0 tr) = [1] ∧
    (∀ x ∈ items (outs 0 tr), (pushed tr)[x.1]? = some x.2) ∧ (cursors (outs 0 tr)).Pairwise (· ≤ ·) := by
  obtain ⟨tr,cfg,h,hP⟩ := System.exists_run_of_play lappedMoves
    (fun tr => decide ((pushed tr).length < 2^63) &&
      (decide (items (outs 0 tr) = [(0,numbered 0),(2,numbered 2)]) && decide (skips (outs 0 tr) = [1])))
    (by decide +kernel)
  simp only [Bool.and_eq_true, decide_eq_true_eq] at hP
  obtain ⟨hb,hitems,hskips⟩ := hP
  exact ⟨tr,cfg,h,hitems,hskips,(broadcast_exact h hb 0).1,(broadcast_exact h hb 0).2.1⟩

end LowLatencyLob.Ring
