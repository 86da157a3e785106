import LowLatencyLob.Sync.Ring
import LowLatencyLob.Concurrency.Interleaving

/-! What `push` and `try_recv` do to a ring whose accesses are indivisible steps.

The log of the records given to `push` is kept beside the memory, and whether a push has
marked its slot and not yet advanced the write position. A slot holds the record its stamp
names, and a position whose stamp is gone is a whole lap behind, or just about to be; all
of it survives every access of the producer, whatever a consumer is in the middle of. -/
namespace LowLatencyLob.Ring
open Concurrency

variable {C : Capacity} {W : ℕ}

/-- Whether a push is between its mark on the slot (P1) and the advance of the write
position (P4), after one access. -/
def midAfter (mid : Bool) : Access (Val (C := C) (W := W)) → Bool
  | .store (.stamp _) _ _ => true
  | .store .write _ _ => false
  | _ => mid

/-- The log of pushed records, oldest first, the atomics of the ring, and whether a push
is between (P1) and (P4). -/
structure Shared (C : Capacity) (W : ℕ) where
  log : List (Record W)
  mem : ∀ l : Loc C W, Val l
  mid : Bool

namespace Shared

def write (s : Shared C W) : ℕ := s.mem .write
def stamp (s : Shared C W) (i : Fin C.slots) : ℕ := s.mem (.stamp i)
def words (s : Shared C W) (i : Fin C.slots) : Record W := fun k => s.mem (.word i k)

/-- The shared state after one access. -/
def act (s : Shared C W) (a : Access (Val (C := C) (W := W))) : Shared C W :=
  ⟨s.log,(a.act s.mem).2,midAfter s.mid a⟩

@[simp] theorem act_load (s : Shared C W) (l : Loc C W) (o : LoadOrder) : s.act (.load l o) = s := rfl
@[simp] theorem act_fence (s : Shared C W) (o : FenceOrder) : s.act (.fence o) = s := rfl
@[simp] theorem act_log (s : Shared C W) (a) : (s.act a).log = s.log := rfl

section Stores
variable (s : Shared C W) (o : StoreOrder)

@[simp] theorem mid_store_stamp (i : Fin C.slots) (v : ℕ) :
    (s.act (.store (.stamp i) v o)).mid = true := rfl
@[simp] theorem mid_store_word (i : Fin C.slots) (k : Fin W) (v : UInt64) :
    (s.act (.store (.word i k) v o)).mid = s.mid := rfl

@[simp] theorem write_store_write (v : ℕ) : (s.act (.store .write v o)).write = v := by
  simp [write, act]
@[simp] theorem stamp_store_write (v : ℕ) (i : Fin C.slots) :
    (s.act (.store .write v o)).stamp i = s.stamp i := by simp [stamp, act]
@[simp] theorem words_store_write (v : ℕ) (i : Fin C.slots) :
    (s.act (.store .write v o)).words i = s.words i := by funext k; simp [words, act]

@[simp] theorem write_store_stamp (i : Fin C.slots) (v : ℕ) :
    (s.act (.store (.stamp i) v o)).write = s.write := by simp [write, act]
theorem stamp_store_stamp (i j : Fin C.slots) (v : ℕ) :
    (s.act (.store (.stamp i) v o)).stamp j = if j = i then v else s.stamp j := by
  by_cases h : j = i
  · subst j; simp [stamp, act]
  · simp [stamp, act, h]
@[simp] theorem words_store_stamp (i j : Fin C.slots) (v : ℕ) :
    (s.act (.store (.stamp i) v o)).words j = s.words j := by funext k; simp [words, act]

@[simp] theorem write_store_word (i : Fin C.slots) (k : Fin W) (v : UInt64) :
    (s.act (.store (.word i k) v o)).write = s.write := by simp [write, act]
@[simp] theorem stamp_store_word (i j : Fin C.slots) (k : Fin W) (v : UInt64) :
    (s.act (.store (.word i k) v o)).stamp j = s.stamp j := by simp [stamp, act]
theorem words_store_word (i : Fin C.slots) (k : Fin W) (v : UInt64) :
    (s.act (.store (.word i k) v o)).words i = Function.update (s.words i) k v := by
  funext j
  by_cases h : j = k
  · subst j; simp [words, act]
  · simp [words, act, h]
theorem words_store_word_other {i j : Fin C.slots} (h : j ≠ i) (k : Fin W) (v : UInt64) :
    (s.act (.store (.word i k) v o)).words j = s.words j := by
  funext k'
  simp [words, act, h]

end Stores

/-- What holds of a ring at every moment, also in the middle of a push. -/
structure Good (s : Shared C W) : Prop where
  bounded : s.write < 2^64
  written : s.write ≤ s.log.length
  resident : ∀ c < s.write, s.stamp (C.slotOf c) = c → s.log[c]? = some (s.words (C.slotOf c))
  lapped : ∀ c < s.write, s.stamp (C.slotOf c) ≠ c → c+C.slots ≤ s.write
  /-- A stamp that is gone at the very distance of a lap is gone to the push under way. -/
  lapping : ∀ c < s.write, s.stamp (C.slotOf c) ≠ c → s.write = c+C.slots → s.mid = true

/-- What a consumer may rely on while others act: positions only grow, and a stamp
that is gone does not come back. -/
structure Later (s s' : Shared C W) : Prop where
  write_le : s.write ≤ s'.write
  log_prefix : s.log <+: s'.log
  stamp_back : ∀ c < s.write, s'.stamp (C.slotOf c) = c → s.stamp (C.slotOf c) = c
  good : s.Good → s'.Good

theorem Later.refl (s : Shared C W) : Later s s := ⟨le_rfl,List.prefix_rfl,fun _ _ h => h,id⟩

theorem Later.trans {s₁ s₂ s₃ : Shared C W} (h : Later s₁ s₂) (h' : Later s₂ s₃) : Later s₁ s₃ where
  write_le := h.write_le.trans h'.write_le
  log_prefix := h.log_prefix.trans h'.log_prefix
  stamp_back c hc hs := h.stamp_back c hc (h'.stamp_back c (hc.trans_le h.write_le) hs)
  good := h'.good ∘ h.good

/-- A log that grows keeps the records it had. -/
theorem Later.getElem? {s s' : Shared C W} (h : Later s s') {c : ℕ} {rec : Record W}
    (hc : s.log[c]? = some rec) : s'.log[c]? = some rec := getElem?_of_grows h.log_prefix hc

/-- A longer log says the same of the positions written so far. -/
theorem Later.append (s : Shared C W) (t : List (Record W)) : Later s ⟨s.log ++ t,s.mem,s.mid⟩ := by
  refine ⟨le_rfl,List.prefix_append _ _,fun _ _ h => h,fun hg => ⟨hg.bounded,?_,?_,hg.lapped,hg.lapping⟩⟩
  · exact hg.written.trans (List.prefix_append _ _).length_le
  · exact fun c hc hs => getElem?_of_grows (List.prefix_append _ _) (hg.resident c hc hs)

/-- Stamping the next slot with a position that no reader waits for. -/
theorem Good.store_stamp {s : Shared C W} (h : s.Good) {v : ℕ} (hv : s.write ≤ v)
    (o : StoreOrder) : Later s (s.act (.store (.stamp (C.slotOf s.write)) v o)) := by
  have hback : ∀ c < s.write, (s.act (.store (.stamp (C.slotOf s.write)) v o)).stamp (C.slotOf c) = c →
      C.slotOf c ≠ C.slotOf s.write ∧ s.stamp (C.slotOf c) = c := by
    intro c hc hs
    rw [stamp_store_stamp] at hs
    split_ifs at hs with he
    · omega
    · exact ⟨he,hs⟩
  refine ⟨by simp, List.prefix_rfl, fun c hc hs => (hback c hc hs).2, fun _ => ⟨?_,?_,?_,?_,by simp⟩⟩
  · simpa using h.bounded
  · simpa using h.written
  · intro c hc hs
    rw [write_store_stamp] at hc
    simpa using h.resident c hc (hback c hc hs).2
  · intro c hc hs
    rw [write_store_stamp] at hc ⊢
    rw [stamp_store_stamp] at hs
    split_ifs at hs with he
    · exact C.add_slots_le he hc
    · exact h.lapped c hc hs

/-- Overwriting a word of a slot that is marked busy. -/
theorem Good.store_word {s : Shared C W} (h : s.Good) (hb : s.write ≤ s.stamp (C.slotOf s.write))
    (k : Fin W) (v : UInt64) (o : StoreOrder) :
    Later s (s.act (.store (.word (C.slotOf s.write) k) v o)) := by
  refine ⟨by simp, List.prefix_rfl, by simp, fun _ => ⟨by simpa using h.bounded,by simpa using h.written,?_,?_,?_⟩⟩
  · intro c hc hs
    rw [write_store_word] at hc
    rw [stamp_store_word] at hs
    have hne : C.slotOf c ≠ C.slotOf s.write := by
      intro he
      rw [he] at hs
      omega
    rw [words_store_word_other s o hne]
    exact h.resident c hc hs
  · intro c hc hs
    rw [write_store_word] at hc ⊢
    rw [stamp_store_word] at hs
    exact h.lapped c hc hs
  · intro c hc hs hlap
    rw [write_store_word] at hc hlap
    rw [stamp_store_word] at hs
    exact h.lapping c hc hs hlap

/-- Advancing the write position over a slot that is stamped and filled. -/
theorem Good.store_write {s : Shared C W} (h : s.Good) (hs : s.stamp (C.slotOf s.write) = s.write)
    (hl : s.log[s.write]? = some (s.words (C.slotOf s.write))) (hb : s.write+1 < 2^64)
    (o : StoreOrder) : Later s (s.act (.store .write (s.write+1) o)) := by
  refine ⟨by simp, List.prefix_rfl, by simp, fun _ => ⟨by simpa using hb,?_,?_,?_,?_⟩⟩
  · rw [write_store_write, act_log]
    exact (List.getElem?_eq_some_iff.mp hl).1
  · intro c hc hsc
    rw [write_store_write] at hc
    rw [stamp_store_write] at hsc
    rw [words_store_write, act_log]
    rcases Nat.lt_succ_iff_lt_or_eq.mp hc with hlt | rfl
    · exact h.resident c hlt hsc
    · exact hl
  · intro c hc hsc
    rw [write_store_write] at hc ⊢
    rw [stamp_store_write] at hsc
    rcases Nat.lt_succ_iff_lt_or_eq.mp hc with hlt | rfl
    · have := h.lapped c hlt hsc
      omega
    · exact absurd hs hsc
  · -- A position whose stamp was gone before the advance is further behind than a lap now.
    intro c hc hsc hlap
    rw [write_store_write] at hc hlap
    rw [stamp_store_write] at hsc
    rcases Nat.lt_succ_iff_lt_or_eq.mp hc with hlt | rfl
    · have := h.lapped c hlt hsc
      omega
    · exact absurd hs hsc

end Shared

/-- The producer is the only one to store; it promises its consumers `Later`. -/
def producerEnv (C : Capacity) (W : ℕ) :
    Env (Shared C W) (@Access.Result (Loc C W) Val) where
  acc s a r s' := r = (a.act s.mem).1 ∧ s' = s.act a
  rely s s' := s' = s
  guar := Shared.Later
  rely_refl _ := rfl
  rely_trans h h' := h'.trans h

/-- The value of the newest write position that a consumer has loaded. -/
def lastSeen (seen : ℕ) : (a : Access (Val (C := C) (W := W))) → a.Result → ℕ
  | .load .write _, w => w
  | _, _ => seen

/-- A consumer stores nothing. Beside the shared state it remembers the newest
write position it has loaded. -/
def consumerEnv (C : Capacity) (W : ℕ) :
    Env (Shared C W × ℕ) (@Access.Result (Loc C W) Val) where
  acc s a r s' := r = (a.act s.1.mem).1 ∧ s' = (s.1.act a, lastSeen s.2 a r)
  rely s s' := Shared.Later s.1 s'.1 ∧ s'.2 = s.2
  guar s s' := s'.1 = s.1
  rely_refl s := ⟨.refl s.1,rfl⟩
  rely_trans h h' := ⟨h.1.trans h'.1,h'.2.trans h.2⟩

section Producer
variable {α : Type} {Q : α → Shared C W → Prop} {s : Shared C W}

theorem producer_load {l : Loc C W} {o : LoadOrder} {f : Val l → Code C W α}
    (h : Meets (producerEnv C W) (f (s.mem l)) Q s) :
    Meets (producerEnv C W) (load l o >>= f) Q s := by
  refine Meets.access ?_
  rintro s₁ rfl r s₂ ⟨rfl,rfl⟩
  exact ⟨.refl _,h⟩

theorem producer_store {l : Loc C W} {v : Val l} {o : StoreOrder} {f : Unit → Code C W α}
    (hl : s.Later (s.act (.store l v o)))
    (h : Meets (producerEnv C W) (f ()) Q (s.act (.store l v o))) :
    Meets (producerEnv C W) (store l v o >>= f) Q s := by
  refine Meets.access ?_
  rintro s₁ rfl r s₂ ⟨rfl,rfl⟩
  exact ⟨hl,h⟩

theorem producer_fence {o : FenceOrder} {f : Unit → Code C W α}
    (h : Meets (producerEnv C W) (f ()) Q s) :
    Meets (producerEnv C W) (fence o >>= f) Q s := by
  refine Meets.access ?_
  rintro s₁ rfl r s₂ ⟨rfl,rfl⟩
  exact ⟨.refl _,h⟩

/-- (P2) fills the slot that the producer marked busy at `p`. -/
theorem storeWords_meets {rec : Record W} {p : ℕ} {f : Unit → Code C W α} (ks : List (Fin W))
    (hg : s.Good) (hp : s.write = p) (hb : p ≤ s.stamp (C.slotOf p))
    (hf : ∀ s', s'.Good → s'.log = s.log → s'.write = p →
      (∀ k, s'.words (C.slotOf p) k = if k ∈ ks then rec k else s.words (C.slotOf p) k) →
      Meets (producerEnv C W) (f ()) Q s') :
    Meets (producerEnv C W) (storeWords C (C.slotOf p) rec ks >>= f) Q s := by
  induction ks generalizing s with
  | nil => exact hf s hg rfl hp (by simp)
  | cons k ks ih =>
    subst hp
    have hlater := hg.store_word hb k (rec k) .relaxed
    rw [storeWords, Program.bind_assoc]
    refine producer_store hlater (ih (hlater.good hg) (by simp) (by simpa using hb) ?_)
    intro s' hg' hl' hw' hk'
    refine hf s' hg' hl' hw' fun j => ?_
    rw [hk' j, Shared.words_store_word]
    by_cases hj : j = k
    · subst j; simp
    · simp [hj]

/-- (P3) and (P4) publish a slot that is filled with the next record of the log. -/
theorem publish_meets {rec : Record W} {p : ℕ} (hg : s.Good) (hp : s.write = p)
    (hl : s.log[p]? = some rec) (hfull : s.words (C.slotOf p) = rec) (hb : p+1 < 2^64) :
    Meets (producerEnv C W) (do
      store (.stamp (C.slotOf p)) p .release
      store .write ((p+1) % 2^64) .release)
      (fun _ s' => s'.Good ∧ s'.log = s.log ∧ s'.write = p+1) s := by
  subst hp
  have hstamp := hg.store_stamp (v := s.write) le_rfl .release
  have hwrite := (hstamp.good hg).store_write (by simp [Shared.stamp_store_stamp])
    (by simpa [hfull] using hl) (by simpa using hb) .release
  rw [Shared.write_store_stamp, ← Nat.mod_eq_of_lt hb] at hwrite
  refine producer_store hstamp (producer_store (f := Program.done) hwrite (Meets.done ?_))
  rintro s' rfl
  refine ⟨hwrite.good (hstamp.good hg),rfl,?_⟩
  rw [Shared.write_store_write, Nat.mod_eq_of_lt hb]

/-- A push appends the next record of the log; other threads only see `Later` states. -/
theorem push_meets {rec : Record W} (hg : s.Good) (hl : s.log[s.write]? = some rec)
    (hb : s.write+1 < 2^64) :
    Meets (producerEnv C W) (push C rec)
      (fun _ s' => s'.Good ∧ s'.log = s.log ∧ s'.write = s.write+1) s := by
  have hmark := hg.store_stamp (v := s.write ||| WRITING) Nat.left_le_or .relaxed
  refine producer_load (producer_store hmark (producer_fence ?_))
  refine storeWords_meets (p := s.write) _ (hmark.good hg) (by simp) ?_ ?_
  · change s.write ≤ (s.act (.store (.stamp (C.slotOf s.write)) _ .relaxed)).stamp _
    rw [Shared.stamp_store_stamp, if_pos rfl]
    exact Nat.left_le_or
  · intro s' hg' hl' hw' hk
    refine (publish_meets hg' hw' (by rw [hl']; exact hl) ?_ hb).mono ?_
    · funext k
      simp [hk k]
    · rintro _ s'' ⟨hg'',hl'',hw''⟩
      exact ⟨hg'',hl''.trans hl',hw''⟩

end Producer

section Consumer
variable {α : Type} {Q : α → Shared C W × ℕ → Prop} {s : Shared C W × ℕ}

theorem consumer_load {l : Loc C W} {o : LoadOrder} {f : Val l → Code C W α}
    (h : ∀ s', s.1.Later s' →
      Meets (consumerEnv C W) (f (s'.mem l)) Q (s',lastSeen s.2 (.load l o) (s'.mem l))) :
    Meets (consumerEnv C W) (load l o >>= f) Q s := by
  refine Meets.access ?_
  rintro ⟨s₁,n⟩ ⟨hs,rfl⟩ r s₂ ⟨rfl,rfl⟩
  exact ⟨rfl,h s₁ hs⟩

theorem consumer_fence {o : FenceOrder} {f : Unit → Code C W α}
    (h : ∀ s', s.1.Later s' → Meets (consumerEnv C W) (f ()) Q (s',s.2)) :
    Meets (consumerEnv C W) (fence o >>= f) Q s := by
  refine Meets.access ?_
  rintro ⟨s₁,n⟩ ⟨hs,rfl⟩ r s₂ ⟨rfl,rfl⟩
  exact ⟨rfl,h s₁ hs⟩

/-- A consumer joins at a position that was written, live or at the oldest record. -/
theorem consumer_meets (hg : s.1.Good) :
    Meets (consumerEnv C W) (consumer C) (fun c s => s.1.Good ∧ c ≤ s.1.write) s := by
  change Meets _ (load .write .acquire >>= pure) _ s
  refine consumer_load fun s₁ h₁ => Meets.done ?_
  rintro ⟨s₂,n⟩ ⟨h₂,rfl⟩
  exact ⟨h₂.good (h₁.good hg),h₂.write_le⟩

theorem consumerFromOldest_meets (hg : s.1.Good) :
    Meets (consumerEnv C W) (consumerFromOldest C) (fun c s => s.1.Good ∧ c ≤ s.1.write) s := by
  refine consumer_load fun s₁ h₁ => Meets.done ?_
  rintro ⟨s₂,n⟩ ⟨h₂,rfl⟩
  exact ⟨h₂.good (h₁.good hg),(Nat.sub_le _ _).trans h₂.write_le⟩

/-- The effect that the ring promises for one receive at `cursor`. An overrun has
loaded the write position `cursor' + capacity`, wherever that leaves the cursor. -/
def Received (C : Capacity) (cursor : ℕ) (x : Recv W × ℕ) (s : Shared C W × ℕ) : Prop :=
  s.1.Good ∧ x.2 ≤ s.1.write ∧
    match x.1 with
    | .item rec => s.1.log[cursor]? = some rec ∧ x.2 = cursor+1
    | .empty => x.2 = cursor
    | .overrun skipped => x.2 = cursor+skipped ∧ s.2 = x.2+C.slots ∧ s.2 ≤ s.1.write

theorem Received.later {cursor : ℕ} {x : Recv W × ℕ} {s : Shared C W × ℕ} {s' : Shared C W}
    (h : Received C cursor x s) (hs : s.1.Later s') : Received C cursor x (s',s.2) := by
  obtain ⟨hg,hc,hx⟩ := h
  refine ⟨hs.good hg,hc.trans hs.write_le,?_⟩
  match hr : x.1 with
  | .item rec =>
    rw [hr] at hx
    exact ⟨hs.getElem? hx.1,hx.2⟩
  | .empty =>
    rw [hr] at hx
    exact hx
  | .overrun skipped =>
    rw [hr] at hx
    exact ⟨hx.1,hx.2.1,hx.2.2.trans hs.write_le⟩

theorem received_done {cursor : ℕ} {x : Recv W × ℕ} (h : Received C cursor x s) :
    Meets (consumerEnv C W) (.done x) (Received C cursor) s := by
  refine Meets.done ?_
  rintro ⟨s',n⟩ ⟨hs,rfl⟩
  exact h.later hs

/-- A consumer that is a lap behind jumps forward to the oldest resident record. -/
theorem resync_meets {cursor : ℕ} (hg : s.1.Good) (hlap : cursor+C.slots ≤ s.1.write) :
    Meets (consumerEnv C W) (resync C cursor) (Received C cursor) s := by
  refine consumer_load fun s₁ h₁ => received_done ?_
  have hle := h₁.write_le
  have hw : s₁.write = s₁.mem .write := rfl
  refine ⟨h₁.good hg,?_,?_,?_,?_⟩
  all_goals simp only [lastSeen]
  all_goals omega

/-- (R2) While the stamp still names `cursor`, the words loaded are its record. -/
theorem loadWords_meets {cursor : ℕ} {rec : Record W} {f : Record W → Code C W α}
    (ks : List (Fin W)) {rest : Record W} (hg : s.1.Good) (hc : cursor < s.1.write)
    (hl : s.1.log[cursor]? = some rec)
    (hr : s.1.stamp (C.slotOf cursor) = cursor → ∀ k, k ∉ ks → rest k = rec k)
    (hf : ∀ s' rec', s.1.Later s' → (s'.stamp (C.slotOf cursor) = cursor → rec' = rec) →
      Meets (consumerEnv C W) (f rec') Q (s',s.2)) :
    Meets (consumerEnv C W) (loadWords C (C.slotOf cursor) ks rest >>= f) Q s := by
  induction ks generalizing s rest with
  | nil => exact hf s.1 rest (.refl _) fun hs => funext fun k => hr hs k (by simp)
  | cons k ks ih =>
    rw [loadWords, Program.bind_assoc]
    refine consumer_load fun s₁ h₁ => ?_
    refine ih (h₁.good hg) (hc.trans_le h₁.write_le) (h₁.getElem? hl) ?_ ?_
    · intro hs j hj
      by_cases hjk : j = k
      · subst j
        have hres := (h₁.good hg).resident cursor (hc.trans_le h₁.write_le) hs
        rw [h₁.getElem? hl] at hres
        rw [Function.update_self, Option.some.inj hres]
        rfl
      · rw [Function.update_of_ne hjk]
        exact hr (h₁.stamp_back cursor hc hs) j (by simp [hj, hjk])
    · exact fun s' rec' h' => hf s' rec' (h₁.trans h')

/-- One receive keeps its promise whatever the producer does in the meantime. -/
theorem tryRecv_meets {cursor : ℕ} (hg : s.1.Good) (hc : cursor ≤ s.1.write) :
    Meets (consumerEnv C W) (tryRecv C cursor) (Received C cursor) s := by
  refine consumer_load fun s₀ h₀ => ?_
  have hg₀ := h₀.good hg
  split_ifs with hempty
  · exact received_done ⟨hg₀,hc.trans h₀.write_le,rfl⟩
  have hlt : cursor < s₀.write := Nat.lt_of_not_le hempty
  refine consumer_load fun s₁ h₁ => ?_
  have hlt₁ := hlt.trans_le h₁.write_le
  split_ifs with hs₁
  · exact resync_meets (h₁.good hg₀) ((h₁.good hg₀).lapped cursor hlt₁ hs₁)
  have hres := (h₁.good hg₀).resident cursor hlt₁ (not_not.mp hs₁)
  refine loadWords_meets (List.finRange W) (h₁.good hg₀) hlt₁ hres (by simp) fun s₂ rec h₂ hrec => ?_
  refine consumer_fence fun s₃ h₃ => consumer_load fun s₄ h₄ => ?_
  have h₂₄ := h₃.trans h₄
  have hg₂ := h₂.good (h₁.good hg₀)
  have hlt₂ := hlt₁.trans_le h₂.write_le
  have hlt₄ := hlt₂.trans_le h₂₄.write_le
  split_ifs with hs₂
  · exact resync_meets (h₂₄.good hg₂) ((h₂₄.good hg₂).lapped cursor hlt₄ hs₂)
  · -- The stamp is still `cursor` now, so it was when the words were loaded.
    have hback := h₂₄.stamp_back cursor hlt₂ (not_not.mp hs₂)
    have hb := (h₂₄.good hg₂).bounded
    have hmod : (cursor+1) % 2^64 = cursor+1 := Nat.mod_eq_of_lt (by omega)
    rw [hmod]
    refine received_done ⟨h₂₄.good hg₂,hlt₄,?_,rfl⟩
    rw [hrec hback]
    exact h₂₄.getElem? (h₂.getElem? hres)

end Consumer
end LowLatencyLob.Ring
