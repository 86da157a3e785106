import LowLatencyLob.Concurrency.Calls
import LowLatencyLob.Sync.RingRuns

/-! When a consumer is told of an overrun.

The stamp check of a receive trips as soon as the producer marks the slot busy, well
before it advances the write position. A consumer that trails by exactly one capacity can
run into that mark and report an overrun of zero records. Where no stamp is loaded in that
stretch of the push one capacity ahead, an overrun is told only to those who were lapped. -/
namespace LowLatencyLob.Ring
open Concurrency

variable {C : Capacity} {W : ℕ}

/-- The write position at the end of a trace: the newest value stored to it. -/
def writePos : List (RingEvent C W) → ℕ
  | [] => 0
  | .access _ (.store .write v _) _ :: _ => v
  | _ :: tr => writePos tr

theorem writePos_access (t : Thread) (a : Access (Val (C := C) (W := W))) (r : a.Result)
    (m : ∀ l : Loc C W, Val l) (tr : List (RingEvent C W)) (h : m .write = writePos tr) :
    (a.act m).2 .write = writePos (.access t a r :: tr) := by
  cases a with
  | load l o => exact h
  | fence o => exact h
  | store l v o =>
    cases l with
    | write => simp [writePos]
    | stamp j => simpa [writePos] using h
    | word j k => simpa [writePos] using h

/-- The memory holds what the trace says was stored. -/
theorem run_writePos {tr : (system C W).Trace} {cfg : (system C W).Config}
    (h : (system C W).Run tr cfg) : cfg.mem .write = writePos tr := by
  induction h with
  | start => rfl
  | @step tr ev c c' h m hm ih =>
    rcases System.step_cases hm with ⟨t,l,x,p,_,_,rfl,rfl⟩ | ⟨t,a,k,r,mem,ch,_,he,rfl,rfl⟩ |
      ⟨t,β,γ,b,body,k,_,rfl,rfl⟩ | ⟨t,l,o,_,rfl,rfl⟩
    · exact ih
    · obtain ⟨rfl,rfl⟩ := interleaving_exec he
      exact writePos_access t a _ _ _ ih
    · exact ih
    · exact ih

/-- The write position only grows in the course of a run. -/
theorem writePos_mono {tr tr₀ : (system C W).Trace} {cfg : (system C W).Config}
    (h : (system C W).Run tr cfg) (hb : (pushed tr).length < 2^64) (hs : tr₀ <:+ tr) :
    writePos tr₀ ≤ writePos tr := by
  have hkeep : ∀ {t : Thread} {s s' : (system C W).Shared}, (contract C W).invariant s →
      (contract C W).Keeps t s s' → (shared s).write ≤ (shared s').write := by
    intro t s s' _ hk
    cases t with
    | producer => exact (hk.2 (.consumer 0) (by simp)).1.write_le
    | consumer i => exact (hk.2 (.consumer (i+1)) (by simp)).1.write_le
  obtain ⟨c₀,h₀,hle⟩ := (sound C W).between
    (R := fun s s' => (shared s).write ≤ (shared s').write) (fun _ => le_rfl) le_trans hkeep (run_within h hb) hs
  rwa [← run_writePos h, ← run_writePos h₀]

section Loads
variable {α : Type} {c c' k : ℕ} {as : List (Σ a, @Access.Result (Loc C W) Val a)}

theorem plays_load {l : Loc C W} {o : LoadOrder} {f : Val l → Code C W α} {x : α}
    (h : (load l o >>= f).Plays as x) : ∃ v as', as = ⟨.load l o,v⟩ :: as' ∧ (f v).Plays as' x := by
  cases h with
  | access h => exact ⟨_,_,rfl,h⟩

theorem resync_plays (h : (resync C c : Code C W _).Plays as (.overrun k,c')) :
    ∃ w, as = [⟨.load .write .acquire,w⟩] ∧ k = w-C.slots-c := by
  obtain ⟨w,as',rfl,h'⟩ := plays_load h
  cases h' with
  | done => exact ⟨w,rfl,rfl⟩

/-- A receive that ends in an overrun has loaded a write position past its cursor, then a
stamp that is not its cursor, and then the write position again. -/
theorem tryRecv_plays (h : (tryRecv C c : Code C W _).Plays as (.overrun k,c')) :
    ∃ w as₁ o s w', as = ⟨.load .write .acquire,w⟩ ::
        (as₁ ++ [⟨.load (.stamp (C.slotOf c)) o,s⟩,⟨.load .write .acquire,w'⟩]) ∧
      c < w ∧ s ≠ c ∧ k = w'-C.slots-c := by
  obtain ⟨w,as₀,rfl,h₀⟩ := plays_load h
  split_ifs at h₀ with hempty
  · cases h₀
  have hlt : c < w := Nat.lt_of_not_le hempty
  obtain ⟨s₁,as₁,rfl,h₁⟩ := plays_load h₀
  split_ifs at h₁ with hs₁
  · obtain ⟨w',rfl,hk⟩ := resync_plays h₁
    exact ⟨w,[],_,s₁,w',rfl,hlt,hs₁,hk⟩
  obtain ⟨words,rec,as₂,rfl,_,h₂⟩ := h₁.of_bind
  cases h₂ with
  | @access a r f as₃ x h₃ =>
    obtain ⟨s₂,as₄,rfl,h₄⟩ := plays_load h₃
    split_ifs at h₄ with hs₂
    · obtain ⟨w',rfl,hk⟩ := resync_plays h₄
      refine ⟨w,⟨.load (.stamp (C.slotOf c)) .acquire,s₁⟩ :: (words ++ [⟨.fence .acquire,r⟩]),.relaxed,s₂,w',?_,
        hlt,hs₂,hk⟩
      simp
    · cases h₄

/-- Only a receive at its cursor tells a consumer what it received. -/
theorem received_plays {l l' : Holder} {x : Call W} {p : Code C W (Holder × Out W)} {r : Recv W}
    (hp : (object C W).code l x = some p) (h : p.Plays as (l',.received c r c')) :
    (tryRecv C c : Code C W _).Plays as (r,c') := by
  cases l <;> cases x <;> cases hp
  all_goals
    obtain ⟨as₁,y,as₂,rfl,h₁,h₂⟩ := h.of_bind
    cases h₂
  rw [List.append_nil]
  exact h₁

end Loads

/-- What consumer `i` has been told shows in its own events. -/
theorem outs_mine (i : ℕ) (tr : List (RingEvent C W)) : outs i (mine (.consumer i) tr) = outs i tr := by
  induction tr with
  | nil => rfl
  | cons e tr ih =>
    by_cases he : e.thread = .consumer i
    · rw [mine_self he]
      cases e with
      | call t x => exact ih
      | access t a r => exact ih
      | ret t o => simp [outs, ih]
    · rw [mine_other he, outs_cons_other he, ih]

section Overruns
variable {tr tr₀ : (system C W).Trace} {cfg : (system C W).Config} {i c k c' : ℕ}

/-- The three loads of a reported overrun, the newest first. -/
theorem overrun_loads (h : (system C W).Run tr cfg)
    (hs : (.ret (.consumer i) (.received c (.overrun k) c') :: tr₀) <:+ tr) :
    ∃ tr₁ tr₂ tr₃ o w s w', (.access (.consumer i) (.load .write .acquire) w' :: tr₁) <:+ tr₀ ∧
      (.access (.consumer i) (.load (.stamp (C.slotOf c)) o) s :: tr₂) <:+ tr₁ ∧
      (.access (.consumer i) (.load .write .acquire) w :: tr₃) <:+ tr₂ ∧
      c < w ∧ s ≠ c ∧ k = w'-C.slots-c ∧ outs i tr₂ = outs i tr₀ := by
  obtain ⟨l,x,p,as,l',rest,hp,hplay,hmine⟩ := h.plays hs
  obtain ⟨w,as₁,o,s,w',rfl,hlt,hne,hk⟩ := tryRecv_plays (received_plays hp hplay)
  have hlist : mine (.consumer i) tr₀ = .access (.consumer i) (.load .write .acquire) w' ::
      .access (.consumer i) (.load (.stamp (C.slotOf c)) o) s :: (accesses (.consumer i) as₁ ++
        .access (.consumer i) (.load .write .acquire) w :: .call (.consumer i) x :: rest) := by
    rw [hmine]
    simp [accesses]
  obtain ⟨tr₁,hs₁,hm₁⟩ := suffix_of_mine (hlist.trans (List.nil_append _).symm)
  obtain ⟨tr₂,hs₂,hm₂⟩ := suffix_of_mine (hm₁.trans (List.nil_append _).symm)
  obtain ⟨tr₃,hs₃,_⟩ := suffix_of_mine hm₂
  refine ⟨tr₁,tr₂,tr₃,o,w,s,w',hs₁,hs₂,hs₃,hlt,hne,hk,?_⟩
  rw [← outs_mine i tr₂, ← outs_mine i tr₀, hm₂, hlist]
  rfl

theorem cursor_of_received (h : (system C W).Run tr cfg) (hb : (pushed tr).length < 2^64) {r : Recv W}
    (hs : (.ret (.consumer i) (.received c r c') :: tr₀) <:+ tr) : cursorOf i tr₀ = some c := by
  obtain ⟨c₁,h₁⟩ := h.of_suffix hs
  rcases (run_walks h₁ (pushed_suffix hb hs)).1.walks i with hn | ⟨a,p,hw⟩
  · exact absurd ((outs_ret_self ..).symm.trans hn) (by simp)
  · exact (Walk.of_snoc ((outs_ret_self ..).symm ▸ hw)).cursors_getLast

/-- The stamp that tripped a reported overrun was loaded when the cursor was a whole lap
behind; if by a lap and no more, within the push that takes its slot. -/
theorem overrun_stamp (h : (system C W).Run tr cfg) (hb : (pushed tr).length < 2^64)
    (hs : (.ret (.consumer i) (.received c (.overrun k) c') :: tr₀) <:+ tr) :
    ∃ o s tr₂, (.access (.consumer i) (.load (.stamp (C.slotOf c)) o) s :: tr₂) <:+ tr ∧
      cursorOf i tr₂ = some c ∧ c+C.slots ≤ writePos tr₂ ∧
      (writePos tr₂ = c+C.slots → midPush tr₂ = true) ∧ writePos tr₂ ≤ c+k+C.slots ∧
      c+k+C.slots ≤ writePos tr₀ := by
  obtain ⟨tr₁,tr₂,tr₃,o,w,s,w',hs₁,hs₂,hs₃,hlt,hne,hk,ho⟩ := overrun_loads h hs
  have hin₀ : tr₀ <:+ tr := (List.suffix_cons _ _).trans hs
  have hin₁ := hs₁.trans hin₀
  have htr₁ := (List.suffix_cons _ _).trans hin₁
  have hin₂ := hs₂.trans htr₁
  have htr₂ := (List.suffix_cons _ _).trans hin₂
  -- What the three loads saw is what the memory held.
  obtain ⟨c₁,ch₁,m₁,h₁,hx₁⟩ := h.of_access hin₁
  obtain ⟨c₂,ch₂,m₂,h₂,hx₂⟩ := h.of_access hin₂
  obtain ⟨c₃,ch₃,m₃,h₃,hx₃⟩ := h.of_access (hs₃.trans htr₂)
  have hw' : w' = writePos tr₁ := (interleaving_exec hx₁).1.trans (run_writePos h₁)
  have hstamp : s = c₂.mem (.stamp (C.slotOf c)) := (interleaving_exec hx₂).1
  have hw : w = writePos tr₃ := (interleaving_exec hx₃).1.trans (run_writePos h₃)
  have hle₃ : writePos tr₃ ≤ writePos tr₂ :=
    writePos_mono h₂ (pushed_suffix hb htr₂) ((List.suffix_cons _ _).trans hs₃)
  have hle₂ : writePos tr₂ ≤ writePos tr₁ :=
    writePos_mono h₁ (pushed_suffix hb htr₁) ((List.suffix_cons _ _).trans hs₂)
  obtain ⟨c₀,h₀⟩ := h.of_suffix hin₀
  have hle₁ : writePos tr₁ ≤ writePos tr₀ :=
    writePos_mono h₀ (pushed_suffix hb hin₀) ((List.suffix_cons _ _).trans hs₁)
  -- The stamp was gone when it was loaded.
  have hgood := (run_walks h₂ (pushed_suffix hb htr₂)).1.good
  have hmem : (shared (tr₂,c₂.mem)).write = writePos tr₂ := run_writePos h₂
  have hgone : (shared (tr₂,c₂.mem)).stamp (C.slotOf c) ≠ c := fun he => hne (hstamp.trans he)
  have hlap := hgood.lapped c (by omega) hgone
  refine ⟨o,s,tr₂,hin₂,?_,by omega,?_,by omega,by omega⟩
  · rw [cursorOf, ho]
    exact cursor_of_received h hb hs
  · exact fun he => hgood.lapping c (by omega) hgone (hmem.trans he)

end Overruns

/-- Whether the newest event is a stamp load of consumer `i` that falls between the mark
(P1) and the advance (P4) of the push one capacity past its cursor. A push that is under
way is that of the write position. -/
def loadsAmid (i : ℕ) : List (RingEvent C W) → Bool
  | .access t (.load (.stamp _) _) _ :: tr =>
    decide (t = .consumer i) && midPush tr && (cursorOf i tr).any fun c => writePos tr = c+C.slots
  | _ => false

/-- No stamp load of consumer `i` falls in that stretch of a push. -/
def LoadsApart (i : ℕ) (tr : List (RingEvent C W)) : Prop := ∀ tr', tr' <:+ tr → loadsAmid i tr' = false

/-- Consumer `i` never trails the write position by more than a capacity. -/
def KeepsUp (i : ℕ) (tr : List (RingEvent C W)) : Prop :=
  ∀ tr', tr' <:+ tr → ∀ c, cursorOf i tr' = some c → writePos tr' ≤ c+C.slots

section Consumers
variable {tr : (system C W).Trace} {cfg : (system C W).Config} {i : ℕ}

/-- If its stamp loads stay out of that stretch, a consumer that is told of an overrun is lapped. -/
theorem lapped_of_apart (h : (system C W).Run tr cfg) (hb : (pushed tr).length < 2^64) (hapart : LoadsApart i tr)
    {c k c' : ℕ} {tr₀ : (system C W).Trace}
    (hs : (.ret (.consumer i) (.received c (.overrun k) c') :: tr₀) <:+ tr) : 1 ≤ k ∧ c+C.slots < writePos tr₀ := by
  obtain ⟨o,s,tr₂,hin,hcur,hlap,hmid,hreload,hle⟩ := overrun_stamp h hb hs
  have hne : writePos tr₂ ≠ c+C.slots := by
    intro he
    have hapart₂ := hapart _ hin
    simp [loadsAmid, hcur, hmid he, he] at hapart₂
  omega

/-- A consumer that is told of no overrun receives every record from its start on. -/
theorem complete_of_no_overrun (h : (system C W).Run tr cfg) (hb : (pushed tr).length < 2^64)
    (hnone : ∀ c k c', .received c (.overrun k) c' ∉ outs i tr) {start cursor : ℕ}
    (hstart : (outs i tr).head? = some (.joined start)) (hcur : cursorOf i tr = some cursor) :
    (items (outs i tr)).length = cursor-start ∧
    ∀ n, start+n < cursor → ∃ rec, (items (outs i tr))[n]? = some (start+n,rec) ∧ (pushed tr)[start+n]? = some rec := by
  rcases (run_walks h hb).1.walks i with hn | ⟨a,p,hw⟩
  · simp only at hn
    simp [hn] at hstart
  · have hskips : skips (outs i tr) = [] := by
      refine List.filterMap_eq_nil_iff.mpr fun o ho => ?_
      split
      · exact absurd ho (hnone _ _ _)
      · rfl
    have ha : a = start := by
      have hj := hw.head_joined.symm.trans hstart
      simpa using hj
    have hp : p = cursor := Option.some.inj (hw.cursors_getLast.symm.trans hcur)
    subst ha hp
    have hsum := hw.accounts
    rw [hskips] at hsum
    exact ⟨by simp at hsum; omega,hw.contiguous (by simp [hskips])⟩

end Consumers

/-- If no stamp load of a consumer falls between the mark and the advance of the push one
capacity past its cursor, then it is told of an overrun only when it is lapped: it skips at
least one record, and the write position is more than a capacity past its cursor. So if it
also keeps up, it sees no overrun and receives every record from its start on. -/
theorem overrun_lapped {tr : (system C W).Trace} {cfg : (system C W).Config}
    (h : (system C W).Run tr cfg) (hb : (pushed tr).length < 2^63) (i : ℕ) (hapart : LoadsApart i tr) :
    (∀ c k c' tr₀, (.ret (.consumer i) (.received c (.overrun k) c') :: tr₀) <:+ tr →
      1 ≤ k ∧ c+C.slots < writePos tr₀) ∧
    (KeepsUp i tr → (∀ c k c', .received c (.overrun k) c' ∉ outs i tr) ∧
      ∀ start cursor, (outs i tr).head? = some (.joined start) → cursorOf i tr = some cursor →
        (items (outs i tr)).length = cursor-start ∧
        ∀ n, start+n < cursor → ∃ rec, (items (outs i tr))[n]? = some (start+n,rec) ∧
          (pushed tr)[start+n]? = some rec) := by
  have hb' : (pushed tr).length < 2^64 := by omega
  have hpast : ∀ c k c' tr₀, (.ret (.consumer i) (.received c (.overrun k) c') :: tr₀) <:+ tr →
      1 ≤ k ∧ c+C.slots < writePos tr₀ := fun _ _ _ _ => lapped_of_apart h hb' hapart
  refine ⟨hpast,fun hkeep => ?_⟩
  have hnone : ∀ c k c', .received c (.overrun k) c' ∉ outs i tr := by
    intro c k c' hm
    obtain ⟨tr₀,hs⟩ := mem_outs hm
    have hlap := (hpast c k c' tr₀ hs).2
    have hup := hkeep tr₀ ((List.suffix_cons _ _).trans hs) c (cursor_of_received h hb' hs)
    omega
  exact ⟨hnone,fun _ _ => complete_of_no_overrun h hb' hnone⟩

section Boundary

theorem overrun_lapped_two_consumers : ∃ tr cfg, (system twoSlots 2).Run tr cfg ∧ KeepsUp 1 tr ∧
    .received 1 (.overrun 1) 2 ∈ outs 0 tr ∧
    (∀ c k c' tr₀, (.ret (.consumer 0) (.received c (.overrun k) c') :: tr₀) <:+ tr →
      1 ≤ k ∧ c+twoSlots.slots < writePos tr₀) ∧
    (∀ c k c', .received c (.overrun k) c' ∉ outs 1 tr) ∧ (items (outs 1 tr)).length = 4 := by
  obtain ⟨tr,cfg,h,hP⟩ := System.exists_run_of_play lappedMoves
    (fun tr => (decide ((pushed tr).length < 2^63) && decide (.received 1 (.overrun 1) 2 ∈ outs 0 tr) &&
      decide ((outs 1 tr).head? = some (.joined 0)) && decide (cursorOf 1 tr = some 4)) &&
      tr.tails.all fun t => !loadsAmid 0 t && !loadsAmid 1 t &&
        (cursorOf 1 t).all fun c => decide (writePos t ≤ c+twoSlots.slots)) (by decide +kernel)
  simp only [Bool.and_eq_true, decide_eq_true_eq, List.all_eq_true, List.mem_tails, Bool.not_eq_true'] at hP
  obtain ⟨⟨⟨⟨hb,hover⟩,hstart⟩,hcur⟩,hall⟩ := hP
  have hkeep : KeepsUp 1 tr := by
    intro tr' hs c hc
    have hup := (hall tr' hs).2
    rw [hc] at hup
    exact of_decide_eq_true hup
  obtain ⟨hnone,hwalk⟩ := (overrun_lapped h hb 1 fun tr' hs => (hall tr' hs).1.2).2 hkeep
  exact ⟨tr,cfg,h,hkeep,hover,(overrun_lapped h hb 0 fun tr' hs => (hall tr' hs).1.1).1,hnone,(hwalk 0 4 hstart hcur).1⟩

/-- A consumer joins, one record is pushed, and a second push is on its way: it has
marked the slot busy. Then the consumer, exactly one capacity behind, receives. -/
def boundaryMoves : List (system oneSlot 1).Mv :=
  List.flatten [[.call (.consumer 0) .consumer, .access (.consumer 0) (), .ret (.consumer 0),
      .call .producer (.push fun _ => 7)],
    List.replicate 6 (.access .producer ()),
    [.ret .producer, .call .producer (.push fun _ => 8)],
    List.replicate 2 (.access .producer ()),
    [.call (.consumer 0) .tryRecv], List.replicate 3 (.access (.consumer 0) ()),
    [.ret (.consumer 0)]]

/-- It never was more than a capacity behind, and is told of an overrun of nothing. -/
theorem overrun_of_nothing : ∃ tr cfg, (system oneSlot 1).Run tr cfg ∧ (pushed tr).length < 2^63 ∧
    KeepsUp 0 tr ∧ .received 0 (.overrun 0) 0 ∈ outs 0 tr := by
  obtain ⟨tr,cfg,h,hP⟩ := System.exists_run_of_play boundaryMoves
    (fun tr => decide (.received 0 (.overrun 0) 0 ∈ outs 0 tr) && decide ((pushed tr).length < 2^63) &&
      tr.tails.all fun t => (cursorOf 0 t).all fun c => decide (writePos t ≤ c+oneSlot.slots)) (by decide)
  simp only [Bool.and_eq_true, decide_eq_true_eq, List.all_eq_true, List.mem_tails] at hP
  refine ⟨tr,cfg,h,hP.1.2,fun t ht c hc => ?_,hP.1.1⟩
  have hall := hP.2 t ht
  rw [hc] at hall
  exact of_decide_eq_true hall

end Boundary
end LowLatencyLob.Ring
