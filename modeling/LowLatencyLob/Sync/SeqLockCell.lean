import LowLatencyLob.Sync.SeqLock
import LowLatencyLob.Concurrency.Interleaving
import Mathlib.Data.Nat.ModEq
import Mathlib.Data.List.Infix

/-! What `store` and `load_counted` do to a cell whose accesses are indivisible steps.

A store begins when it marks the version odd and is completed when it marks it even
again, so the version counts both. While as many stores are completed as begun, the
payload is the value of the last of them. -/
namespace LowLatencyLob.SeqLock
open Concurrency

/-- The stores that an access begins: one, if it is the odd marker of `store`. -/
def begins : Access Val → ℕ
  | .store .seq _ .relaxed => 1
  | _ => 0

/-- The stores that an access completes: one, if it is the (W2) store. -/
def completes : Access Val → ℕ
  | .store .seq _ .release => 1
  | _ => 0

/-- A cell with its past: the initial value followed by the values given to `store`,
and how many stores have begun and completed. -/
structure Shared where
  values : List TopOfBook
  begun : ℕ
  completed : ℕ
  mem : ∀ l, Val l

namespace Shared

def seq (s : Shared) : ℕ := s.mem .seq

def payload (s : Shared) : TopOfBook :=
  ⟨s.mem .bidPx,s.mem .bidQty,s.mem .askPx,s.mem .askQty,s.mem .stamp⟩

def act (s : Shared) (a : Access Val) : Shared :=
  ⟨s.values,s.begun + begins a,s.completed + completes a,(a.act s.mem).2⟩

@[simp] theorem act_load (s : Shared) (l : Loc) (o : LoadOrder) : s.act (.load l o) = s := rfl
@[simp] theorem act_fence (s : Shared) (o : FenceOrder) : s.act (.fence o) = s := rfl
@[simp] theorem act_values (s : Shared) (a : Access Val) : (s.act a).values = s.values := rfl
@[simp] theorem act_begun (s : Shared) (a : Access Val) : (s.act a).begun = s.begun + begins a := rfl
@[simp] theorem act_completed (s : Shared) (a : Access Val) :
    (s.act a).completed = s.completed + completes a := rfl

/-- What holds of a cell at every moment, also in the middle of a store. -/
structure Good (s : Shared) : Prop where
  completed_le : s.completed ≤ s.begun
  begun_le : s.begun ≤ s.completed+1
  seq_eq : s.seq = (s.completed+s.begun) % 2^32
  stable : s.begun = s.completed → s.values[s.completed]? = some s.payload

/-- What a reader may rely on while others act: the counts only grow. -/
structure Later (s s' : Shared) : Prop where
  values_prefix : s.values <+: s'.values
  begun_le : s.begun ≤ s'.begun
  completed_le : s.completed ≤ s'.completed
  good : s.Good → s'.Good

theorem Later.refl (s : Shared) : Later s s := ⟨List.prefix_rfl,le_rfl,le_rfl,id⟩

theorem Later.trans {s₁ s₂ s₃ : Shared} (h : Later s₁ s₂) (h' : Later s₂ s₃) : Later s₁ s₃ :=
  ⟨h.values_prefix.trans h'.values_prefix,h.begun_le.trans h'.begun_le,
    h.completed_le.trans h'.completed_le,h'.good ∘ h.good⟩

theorem Later.getElem? {s s' : Shared} (h : Later s s') {n : ℕ} {t : TopOfBook}
    (ht : s.values[n]? = some t) : s'.values[n]? = some t := getElem?_of_grows h.values_prefix ht

/-- A longer list of values says the same of the stores so far. -/
theorem Later.append (s : Shared) (ts : List TopOfBook) :
    Later s ⟨s.values ++ ts,s.begun,s.completed,s.mem⟩ := by
  refine ⟨List.prefix_append _ _,le_rfl,le_rfl,fun hg => ⟨hg.completed_le,hg.begun_le,hg.seq_eq,?_⟩⟩
  exact fun heq => getElem?_of_grows (List.prefix_append _ _) (hg.stable heq)

/-- An even version says that no store is in progress. -/
theorem Good.idle_of_even {s : Shared} (h : s.Good) (he : s.seq &&& 1 = 0) :
    s.begun = s.completed := by
  have hle := h.completed_le
  have hle' := h.begun_le
  have hs := h.seq_eq
  rw [Nat.and_one_is_mod] at he
  omega

/-- One version read twice: a multiple of `2^31` stores began in between, and all
of them are completed. -/
theorem Good.idle_of_eq {s s' : Shared} (h : s.Good) (h' : s'.Good) (hi : s.begun = s.completed)
    (hs : s.begun ≤ s'.begun) (heq : s.seq = s'.seq) :
    s'.begun = s'.completed ∧ 2^31 ∣ s'.begun-s.begun := by
  have hle := h'.completed_le
  have hle' := h'.begun_le
  have hseq := h.seq_eq
  have hseq' := h'.seq_eq
  omega

/-- Marking the version odd begins the next store. -/
theorem Good.mark_odd {s : Shared} (h : s.Good) (hi : s.begun = s.completed) :
    Later s (s.act (.store .seq ((s.seq+1) % 2^32) .relaxed)) := by
  have hs := h.seq_eq
  refine ⟨List.prefix_rfl,Nat.le_add_right _ _,Nat.le_add_right _ _,fun _ => ⟨?_,?_,?_,?_⟩⟩
  all_goals simp only [act_begun, act_completed, begins, completes]
  · omega
  · omega
  · simp only [seq, act, Access.act_store, Function.update_self] at hs ⊢
    omega
  · omega

/-- A store to the payload while the version is odd. -/
theorem Good.store_payload {s : Shared} (h : s.Good) (hi : s.begun = s.completed+1) {l : Loc}
    (hl : l ≠ .seq) (v : Val l) : Later s (s.act (.store l v .relaxed)) := by
  have hb : begins (.store l v .relaxed) = 0 := by
    cases l with
    | seq => exact absurd rfl hl
    | _ => rfl
  have hc : completes (.store l v .relaxed) = 0 := by
    cases l <;> rfl
  have hs := h.seq_eq
  refine ⟨List.prefix_rfl,Nat.le_add_right _ _,Nat.le_add_right _ _,fun _ => ⟨?_,?_,?_,?_⟩⟩
  all_goals simp only [act_begun, act_completed, hb, hc]
  · omega
  · omega
  · simpa [seq, act, Function.update_of_ne (Ne.symm hl)] using hs
  · omega

/-- Marking the version even completes a store whose payload is all written. -/
theorem mark_even {s : Shared} (hi : s.begun = s.completed+1)
    (hv : s.values[s.begun]? = some s.payload) :
    Later s (s.act (.store .seq ((s.completed+s.begun+1) % 2^32) .release)) := by
  refine ⟨List.prefix_rfl,Nat.le_add_right _ _,Nat.le_add_right _ _,fun _ => ⟨?_,?_,?_,?_⟩⟩
  all_goals simp only [act_begun, act_completed, begins, completes]
  · omega
  · omega
  · simp only [seq, act, Access.act_store, Function.update_self]
    congr 1
    omega
  · intro _
    rw [← hi]
    exact hv

end Shared

/-- The writer is the only one to store; it promises its readers `Later`. -/
def writerEnv : Env Shared (@Access.Result _ Val) where
  acc s a r s' := r = (a.act s.mem).1 ∧ s' = s.act a
  rely s s' := s' = s
  guar := Shared.Later
  rely_refl _ := rfl
  rely_trans h h' := h'.trans h

/-- What a reader's newest loads of the version saw: the stores completed and begun
at its (R1) load, and the stores begun at the load of `s2`. -/
structure Marks where
  index : ℕ
  begun₁ : ℕ
  begun₂ : ℕ

def Marks.next (m : Marks) (s : Shared) : Access Val → Marks
  | .load .seq .acquire => ⟨s.completed,s.begun,m.begun₂⟩
  | .load .seq .relaxed => ⟨m.index,m.begun₁,s.begun⟩
  | _ => m

/-- A reader stores nothing. -/
def readerEnv : Env (Shared × Marks) (@Access.Result _ Val) where
  acc s a r s' := r = (a.act s.1.mem).1 ∧ s' = (s.1.act a,s.2.next s.1 a)
  rely s s' := Shared.Later s.1 s'.1 ∧ s'.2 = s.2
  guar s s' := s'.1 = s.1
  rely_refl _ := ⟨.refl _,rfl⟩
  rely_trans h h' := ⟨h.1.trans h'.1,h'.2.trans h.2⟩

section Writer
variable {α : Type} {Q : α → Shared → Prop} {s : Shared}

theorem writer_load {l : Loc} {o : LoadOrder} {f : Val l → Code α}
    (h : Meets writerEnv (f (s.mem l)) Q s) : Meets writerEnv (l.load o >>= f) Q s := by
  apply Meets.access
  rintro _ rfl r s₂ ⟨rfl,rfl⟩
  exact ⟨.refl _,h⟩

theorem writer_store {l : Loc} {v : Val l} {o : StoreOrder} {f : Unit → Code α}
    (hl : s.Later (s.act (.store l v o))) (h : Meets writerEnv (f ()) Q (s.act (.store l v o))) :
    Meets writerEnv (l.store v o >>= f) Q s := by
  apply Meets.access
  rintro s₁ rfl r s₂ ⟨rfl,rfl⟩
  exact ⟨hl,h⟩

theorem writer_fence {o : FenceOrder} {f : Unit → Code α} (h : Meets writerEnv (f ()) Q s) :
    Meets writerEnv (fence o >>= f) Q s := by
  apply Meets.access
  rintro s₁ rfl r s₂ ⟨rfl,rfl⟩
  exact ⟨.refl _,h⟩

/-- One payload store of a store in progress. -/
theorem writer_payload {l : Loc} {v : Val l} {f : Unit → Code α} (hl : l ≠ .seq) (hg : s.Good)
    (hi : s.begun = s.completed+1)
    (h : ∀ s', s'.Good → s'.values = s.values → s'.begun = s.begun → s'.completed = s.completed →
      s'.mem = Function.update s.mem l v → Meets writerEnv (f ()) Q s') :
    Meets writerEnv (l.store v .relaxed >>= f) Q s := by
  have hlater := hg.store_payload hi hl v
  refine writer_store hlater (h _ (hlater.good hg) rfl ?_ ?_ rfl)
  · cases l with
    | seq => exact absurd rfl hl
    | _ => rfl
  · cases l <;> rfl

/-- Once the version is odd: the payload is written, then the store is completed. -/
theorem fill_meets {t : TopOfBook} {v : ℕ} (hg : s.Good) (hi : s.begun = s.completed+1)
    (ht : s.values[s.begun]? = some t) (hv : v = (s.completed+s.begun+1) % 2^32) :
    Meets writerEnv (do
      Loc.bidPx.store t.bidPx .relaxed
      Loc.bidQty.store t.bidQty .relaxed
      Loc.askPx.store t.askPx .relaxed
      Loc.askQty.store t.askQty .relaxed
      Loc.stamp.store t.stamp .relaxed
      Loc.seq.store v .release)
      (fun _ s' => s'.Good ∧ s'.values = s.values ∧ s'.begun = s.begun ∧ s'.completed = s.begun) s := by
  refine writer_payload (by simp) hg hi fun s₁ hg₁ hv₁ hb₁ hc₁ hm₁ => ?_
  refine writer_payload (by simp) hg₁ (by omega) fun s₂ hg₂ hv₂ hb₂ hc₂ hm₂ => ?_
  refine writer_payload (by simp) hg₂ (by omega) fun s₃ hg₃ hv₃ hb₃ hc₃ hm₃ => ?_
  refine writer_payload (by simp) hg₃ (by omega) fun s₄ hg₄ hv₄ hb₄ hc₄ hm₄ => ?_
  refine writer_payload (by simp) hg₄ (by omega) fun s₅ hg₅ hv₅ hb₅ hc₅ hm₅ => ?_
  have hp : s₅.payload = t := by
    simp [Shared.payload, hm₅, hm₄, hm₃, hm₂, hm₁]
  have hb : s₅.begun = s.begun := by omega
  have hc : s₅.completed = s.completed := by omega
  have hvals : s₅.values = s.values := by rw [hv₅, hv₄, hv₃, hv₂, hv₁]
  have heven := Shared.mark_even (s := s₅) (by omega) (by rw [hvals, hb, hp]; exact ht)
  rw [hc, hb, ← hv] at heven
  refine writer_store (f := Program.done) heven (Meets.done ?_)
  rintro s₆ rfl
  refine ⟨heven.good hg₅,hvals,hb,?_⟩
  change s₅.completed+1 = s.begun
  omega

/-- A store completes the next of the values; other threads only see `Later` states. -/
theorem store_meets {t : TopOfBook} (hg : s.Good) (hi : s.begun = s.completed)
    (ht : s.values[s.begun+1]? = some t) :
    Meets writerEnv (store t)
      (fun _ s' => s'.Good ∧ s'.values = s.values ∧ s'.begun = s.begun+1 ∧ s'.completed = s.begun+1) s := by
  have hmark := hg.mark_odd hi
  have hseq := hg.seq_eq
  unfold Shared.seq at hseq
  refine writer_load (writer_store hmark (writer_fence ?_))
  apply fill_meets (hmark.good hg)
  · change s.begun+1 = s.completed+1
    omega
  · exact ht
  · change (s.mem .seq+2) % 2^32 = (s.completed+(s.begun+1)+1) % 2^32
    omega

end Writer

section Reader
variable {α : Type} {Q : α → Shared × Marks → Prop} {s : Shared × Marks}

theorem reader_load {l : Loc} {o : LoadOrder} {f : Val l → Code α}
    (h : ∀ s' : Shared, s.1.Later s' → Meets readerEnv (f (s'.mem l)) Q (s',s.2.next s' (.load l o))) :
    Meets readerEnv (l.load o >>= f) Q s := by
  apply Meets.access
  rintro ⟨s₁,m⟩ ⟨hs,rfl⟩ r s₂ ⟨rfl,rfl⟩
  exact ⟨rfl,h s₁ hs⟩

theorem reader_fence {o : FenceOrder} {f : Unit → Code α}
    (h : ∀ s', s.1.Later s' → Meets readerEnv (f ()) Q (s',s.2)) :
    Meets readerEnv (fence o >>= f) Q s := by
  apply Meets.access
  rintro ⟨s₁,m⟩ ⟨hs,rfl⟩ r s₂ ⟨rfl,rfl⟩
  exact ⟨rfl,h s₁ hs⟩

/-- The effect that the cell promises for an accepted snapshot: a multiple of `2^31`
stores began since its (R1) load, and if none did, it is the value of the last store
completed by then. -/
structure Loaded (since : ℕ) (t : TopOfBook) (s : Shared × Marks) : Prop where
  good : s.1.Good
  fresh : since ≤ s.2.index
  index_le : s.2.index ≤ s.1.completed
  begun₁_le : s.2.begun₁ ≤ s.2.begun₂
  dvd : 2^31 ∣ s.2.begun₂-s.2.begun₁
  value : s.2.begun₂ = s.2.begun₁ → s.1.values[s.2.index]? = some t

theorem Loaded.later {since : ℕ} {t : TopOfBook} {s' : Shared} (h : Loaded since t s)
    (hs : s.1.Later s') : Loaded since t (s',s.2) :=
  ⟨hs.good h.good,h.fresh,h.index_le.trans hs.completed_le,h.begun₁_le,h.dvd,
    fun heq => hs.getElem? (h.value heq)⟩

/-- The payload loads take the value of the last completed store, unless another
store begins before they are done. -/
theorem loadPayload_meets {n : ℕ} {f : TopOfBook → Code α} (hg : s.1.Good) (hn : s.1.completed = n)
    (hf : ∀ s' t, s.1.Later s' → (s'.begun = n → s'.values[n]? = some t) →
      Meets readerEnv (f t) Q (s',s.2)) :
    Meets readerEnv (loadPayload >>= f) Q s := by
  simp only [loadPayload, Program.bind_assoc]
  refine reader_load fun s₁ h₁ => reader_load fun s₂ h₂ => reader_load fun s₃ h₃ =>
    reader_load fun s₄ h₄ => reader_load fun s₅ h₅ => hf s₅ _ ?_ ?_
  · exact (((h₁.trans h₂).trans h₃).trans h₄).trans h₅
  · intro hb
    have hg₁ := h₁.good hg
    have hg₂ := h₂.good hg₁
    have hg₃ := h₃.good hg₂
    have hg₄ := h₄.good hg₃
    have hg₅ := h₅.good hg₄
    -- All five loads see a cell that is stable at `n`, so they agree with the log.
    have hstable : ∀ s' : Shared, s'.Good → s'.Later s₅ → n ≤ s'.completed →
        s₅.values[n]? = some s'.payload := by
      intro s' hg' hl' hle
      have hcl := hg'.completed_le
      have hbl := hl'.begun_le
      have hst := hg'.stable (by omega)
      rw [show s'.completed = n by omega] at hst
      exact hl'.getElem? hst
    have hn₁ : n ≤ s₁.completed := hn ▸ h₁.completed_le
    have hn₂ := hn₁.trans h₂.completed_le
    have hn₃ := hn₂.trans h₃.completed_le
    have hn₄ := hn₃.trans h₄.completed_le
    have hp₅ := hstable s₅ hg₅ (.refl _) (hn₄.trans h₅.completed_le)
    have hp₄ := hstable s₄ hg₄ h₅ hn₄
    have hp₃ := hstable s₃ hg₃ (h₄.trans h₅) hn₃
    have hp₂ := hstable s₂ hg₂ ((h₃.trans h₄).trans h₅) hn₂
    have hp₁ := hstable s₁ hg₁ (((h₂.trans h₃).trans h₄).trans h₅) hn₁
    rw [hp₅] at hp₁ hp₂ hp₃ hp₄ ⊢
    simp only [Option.some.injEq, Shared.payload, TopOfBook.mk.injEq] at hp₁ hp₂ hp₃ hp₄ ⊢
    exact ⟨hp₁.1,hp₂.2.1,hp₃.2.2.1,hp₄.2.2.2.1,trivial⟩

/-- What one pass promises: a snapshot it accepts, or another pass from a good cell. -/
theorem pass_meets {since k : ℕ} (hg : s.1.Good) (hs : since ≤ s.1.completed) :
    Meets readerEnv (pass k) (fun r s => match r with
      | .inl _ => s.1.Good ∧ since ≤ s.1.completed
      | .inr x => Loaded since x.1 s) s := by
  refine reader_load fun s₁ h₁ => ?_
  have hg₁ := h₁.good hg
  have hs₁ := hs.trans h₁.completed_le
  split_ifs with heven
  · have hidle := hg₁.idle_of_even heven
    refine loadPayload_meets (n := s₁.completed) hg₁ rfl fun s₂ t h₂ ht => ?_
    refine reader_fence fun s₃ h₃ => reader_load fun s₄ h₄ => ?_
    have h₁₄ := (h₂.trans h₃).trans h₄
    have hg₄ := h₁₄.good hg₁
    split_ifs with heq
    · obtain ⟨hi,hd⟩ := hg₁.idle_of_eq hg₄ hidle h₁₄.begun_le heq
      have hload : Loaded since t (s₄,⟨s₁.completed,s₁.begun,s₄.begun⟩) := by
        refine ⟨hg₄,hs₁,h₁₄.completed_le,h₁₄.begun_le,hd,fun hb => ?_⟩
        have hle : s₁.begun ≤ s₂.begun := h₂.begun_le
        have hle' : s₂.begun ≤ s₄.begun := (h₃.trans h₄).begun_le
        have hb' : s₄.begun = s₁.begun := hb
        exact (h₃.trans h₄).getElem? (ht (by omega))
      refine Meets.done ?_
      rintro ⟨s₅,m⟩ ⟨h₅,rfl⟩
      exact hload.later h₅
    · refine Meets.done ?_
      rintro ⟨s₅,m⟩ ⟨h₅,rfl⟩
      exact ⟨h₅.good hg₄,hs₁.trans (h₁₄.trans h₅).completed_le⟩
  · refine Meets.done ?_
    rintro ⟨s₅,m⟩ ⟨h₅,rfl⟩
    exact ⟨h₅.good hg₁,hs₁.trans h₅.completed_le⟩

/-- Whatever the writer does in the meantime, a load that returns keeps its promise. -/
theorem loadCounted_meets {since : ℕ} (hg : s.1.Good) (hs : since ≤ s.1.completed) :
    Meets readerEnv loadCounted (fun x s => Loaded since x.1 s) s := by
  refine ⟨fun _ s => s.1.Good ∧ since ≤ s.1.completed,⟨hg,hs⟩,?_,?_⟩
  · rintro b ⟨s,m⟩ ⟨s',m'⟩ ⟨hg,hs⟩ ⟨hl,rfl⟩
    exact ⟨hl.good hg,hs.trans hl.completed_le⟩
  · rintro b s ⟨hg,hs⟩
    refine (pass_meets hg hs).mono ?_
    rintro (b' | x) s' h'
    · exact h'
    · refine Meets.done ?_
      rintro ⟨s'',m⟩ ⟨hl,rfl⟩
      exact h'.later hl

theorem load_meets {since : ℕ} (hg : s.1.Good) (hs : since ≤ s.1.completed) :
    Meets readerEnv load (Loaded since) s := by
  refine Meets.bind ((loadCounted_meets hg hs).mono ?_)
  rintro x s' h'
  refine Meets.done ?_
  rintro ⟨s'',m⟩ ⟨hl,rfl⟩
  exact h'.later hl

end Reader
end LowLatencyLob.SeqLock
