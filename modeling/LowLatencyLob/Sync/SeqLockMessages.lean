import LowLatencyLob.Sync.SeqLockRuns
import LowLatencyLob.Concurrency.Publication

/-! A seqlock under the orderings that `store` and `load_counted` ask for.

Entry `n` of the version has value `n`; the even entry `2*j` makes the payload entries up
to `j` known to those who load it with `Acquire`, and payload entry `j` makes the odd
version `2*j-1` known past an `Acquire` fence. A pass that loads a payload entry past
the one its version names therefore finds the version moved on. -/
namespace LowLatencyLob.SeqLock
open Concurrency

/-- What a payload entry promises: the value of its store, and the odd version. -/
def PayloadPromise (log : List TopOfBook) (l : Loc) (n : ℕ) (v : Val l) (know : Knowledge Loc) : Prop :=
  (∃ t, log[n]? = some t ∧ v = new t l) ∧ 2*n-1 ≤ know .seq

/-- What an entry of the version promises: its number, and if that is even the payload. -/
def VersionPromise (n : ℕ) (v : ℕ) (know : Knowledge Loc) : Prop :=
  v = n ∧ (n % 2 = 0 → ∀ l, l ≠ .seq → n/2 ≤ know l)

/-- The log is the initial value followed by the values given to `store`. -/
def protocol : Protocol TopOfBook Val where
  promise log
    | .seq, n, v, know => VersionPromise n v know
    | .bidPx, n, v, know => PayloadPromise log .bidPx n v know
    | .bidQty, n, v, know => PayloadPromise log .bidQty n v know
    | .askPx, n, v, know => PayloadPromise log .askPx n v know
    | .askQty, n, v, know => PayloadPromise log .askQty n v know
    | .stamp, n, v, know => PayloadPromise log .stamp n v know
  mono {log log' l n v know} hl h := by
    have hpayload : ∀ {l n v}, PayloadPromise log l n v know → PayloadPromise log' l n v know := by
      rintro l n v ⟨⟨t,ht,hv⟩,hk⟩
      exact ⟨⟨t,getElem?_of_grows hl ht,hv⟩,hk⟩
    cases l with
    | seq => exact h
    | _ => exact hpayload h

theorem promise_payload {log : List TopOfBook} {l : Loc} {n : ℕ} {v : Val l} {know : Knowledge Loc}
    (hl : l ≠ .seq) : protocol.promise log l n v know ↔ PayloadPromise log l n v know := by
  cases l with
  | seq => exact absurd rfl hl
  | _ => rfl

/-- A reader remembers the version that its newest (R1) load returned. -/
def lastVersion (g : ℕ) : (a : Access Val) → a.Result → ℕ
  | .load .seq .acquire, v => v
  | _, _ => g

abbrev Weak := World TopOfBook Thread Val

abbrev publisher : Env (Weak Unit) (@Access.Result _ Val) := publisherEnv protocol .writer

abbrev subscriber (i : ℕ) : Env (Weak ℕ) (@Access.Result _ Val) :=
  subscriberEnv protocol (.reader i) lastVersion fun _ _ => True

section Writer
variable {α : Type} {Q : α → Weak Unit → Prop} {s : Weak Unit} {fr : Front Val} {k : ℕ}

/-- Where the writer stands between two stores, after `k` of them. -/
structure Stored (k : ℕ) (fr : Front Val) : Prop where
  version : fr.count .seq = 2*k
  payload : ∀ l, l ≠ .seq → fr.count l = k
  top : fr.top .seq = 2*k

/-- And where it stands within the next store, once the payload fields `ls` are written. -/
structure Filling (k : ℕ) (ls : List Loc) (fr : Front Val) : Prop where
  version : fr.count .seq = 2*k+1
  released : fr.released .seq = 2*k+1
  done : ∀ l ∈ ls, fr.count l = k+1
  rest : ∀ l, l ≠ .seq → l ∉ ls → fr.count l = k

/-- One payload store of a store in progress. -/
theorem payload_meets {t : TopOfBook} {l : Loc} {ls : List Loc} {f : Unit → Code α} (hl : l ≠ .seq)
    (hn : l ∉ ls) (ho : Owns .writer s.mem fr) (hk : protocol.Kept s.log s.mem)
    (hf : Filling k ls fr) (ht : s.log[k+1]? = some t)
    (h : ∀ (s' : Weak Unit) fr', s'.log = s.log → protocol.Kept s'.log s'.mem → Owns .writer s'.mem fr' →
      Filling k (l :: ls) fr' → Meets publisher (f ()) Q s') :
    Meets publisher (l.store (new t l) .relaxed >>= f) Q s := by
  have hcount := hf.rest l hl hn
  refine publisher_store ho hk ?_ fun s' hl' hk' ho' => h s' _ hl' hk' ho' ⟨?_,hf.released,?_,?_⟩
  · rw [promise_payload hl, hcount]
    refine ⟨⟨t,ht,rfl⟩,?_⟩
    change 2*(k+1)-1 ≤ fr.released .seq
    rw [hf.released]
    omega
  · rw [Front.count_store_of_ne hl.symm, hf.version]
  · intro l' hl'
    by_cases heq : l' = l
    · subst l'
      rw [Front.count_store_self, hcount]
    · rw [Front.count_store_of_ne heq]
      exact hf.done l' (List.mem_of_ne_of_mem heq hl')
  · intro l' hseq hnot
    rw [List.mem_cons, not_or] at hnot
    rw [Front.count_store_of_ne hnot.1]
    exact hf.rest l' hseq hnot.2

/-- A store keeps every promise of its seven entries. -/
theorem store_publishes {t : TopOfBook} (ho : Owns .writer s.mem fr) (hk : protocol.Kept s.log s.mem)
    (hst : Stored k fr) (ht : s.log[k+1]? = some t) (hb : 2*k+2 < 2^32) :
    Meets publisher (store t)
      (fun _ s' => s'.log = s.log ∧ protocol.Kept s'.log s'.mem ∧
        ∃ fr', Owns .writer s'.mem fr' ∧ Stored (k+1) fr') s := by
  have hodd : (fr.top .seq+1) % 2^32 = 2*k+1 := by
    rw [hst.top]
    exact Nat.mod_eq_of_lt (by omega)
  have heven : (fr.top .seq+2) % 2^32 = 2*k+2 := by
    rw [hst.top]
    exact Nat.mod_eq_of_lt hb
  unfold store
  refine publisher_load ho hk fun s₁ hl₁ hk₁ ho₁ => ?_
  rw [hodd, heven]
  refine publisher_store ho₁ hk₁ ⟨by rw [hst.version],by rw [hst.version]; omega⟩ fun s₂ hl₂ hk₂ ho₂ => ?_
  refine publisher_release ho₂ hk₂ fun s₃ hl₃ hk₃ ho₃ => ?_
  have hlog₃ : s₃.log = s.log := hl₃.trans (hl₂.trans hl₁)
  have hf₃ : Filling k [] (fr.store .seq (2*k+1)).release := by
    refine ⟨by simp [hst.version],by simp [hst.version],by simp,fun l hl _ => ?_⟩
    simp [hl, hst.payload l hl]
  refine payload_meets (t := t) (by simp) (by simp) ho₃ hk₃ hf₃ (hlog₃ ▸ ht) fun s₄ fr₄ hl₄ hk₄ ho₄ hf₄ => ?_
  have hlog₄ := hl₄.trans hlog₃
  refine payload_meets (t := t) (by simp) (by simp) ho₄ hk₄ hf₄ (hlog₄ ▸ ht) fun s₅ fr₅ hl₅ hk₅ ho₅ hf₅ => ?_
  have hlog₅ := hl₅.trans hlog₄
  refine payload_meets (t := t) (by simp) (by simp) ho₅ hk₅ hf₅ (hlog₅ ▸ ht) fun s₆ fr₆ hl₆ hk₆ ho₆ hf₆ => ?_
  have hlog₆ := hl₆.trans hlog₅
  refine payload_meets (t := t) (by simp) (by simp) ho₆ hk₆ hf₆ (hlog₆ ▸ ht) fun s₇ fr₇ hl₇ hk₇ ho₇ hf₇ => ?_
  have hlog₇ := hl₇.trans hlog₆
  refine payload_meets (t := t) (by simp) (by simp) ho₇ hk₇ hf₇ (hlog₇ ▸ ht) fun s₈ fr₈ hl₈ hk₈ ho₈ hf₈ => ?_
  have hall : ∀ l, l ≠ .seq → fr₈.count l = k+1 := by
    intro l hl
    refine hf₈.done l ?_
    cases l with
    | seq => exact absurd rfl hl
    | _ => simp
  have hversion := hf₈.version
  have hpromise : protocol.promise s₈.log .seq (fr₈.count .seq+1) (2*k+2 : ℕ) (fr₈.attached .seq .release) := by
    refine ⟨by rw [hversion],fun _ l hl => ?_⟩
    rw [Front.attached_release_of_ne hl, hall l hl, hversion]
    omega
  refine publisher_store (f := Program.done) ho₈ hk₈ hpromise fun s₉ hl₉ hk₉ ho₉ => ?_
  refine Meets.done fun s' hs' => ?_
  obtain ⟨hlog,hentries,hview⟩ := hs'
  refine ⟨hlog.trans (hl₉.trans (hl₈.trans hlog₇)),?_,_,ho₉.congr hentries hview,?_,?_,?_⟩
  · rw [hlog]
    exact hk₉.congr hentries
  · rw [Front.count_store_self, hversion]
    omega
  · exact fun l hl => (Front.count_store_of_ne hl).trans (hall l hl)
  · exact Front.top_store_self ..

end Writer

section Reader
variable {i : ℕ} {α : Type} {Q : α → Weak ℕ → Prop} {s s' s'' : Weak ℕ}

/-- How a reader's part of the world moves on while it loads payload entries. -/
structure After (i : ℕ) (s s' : Weak ℕ) : Prop where
  log_prefix : s.log <+: s'.log
  kept : protocol.Kept s'.log s'.mem
  known_le : (s.mem.view (.reader i)).known ≤ (s'.mem.view (.reader i)).known
  pending_le : (s.mem.view (.reader i)).pending ≤ (s'.mem.view (.reader i)).pending
  own_eq : s'.own = s.own

theorem After.trans (h : After i s s') (h' : After i s' s'') : After i s s'' :=
  ⟨h.log_prefix.trans h'.log_prefix,h'.kept,h.known_le.trans h'.known_le,h.pending_le.trans h'.pending_le,
    h'.own_eq.trans h.own_eq⟩

theorem After.getElem? (h : After i s s') {n : ℕ} {t : TopOfBook} (ht : s.log[n]? = some t) :
    s'.log[n]? = some t := getElem?_of_grows h.log_prefix ht

/-- The odd version past snapshot `j` is not among what an `Acquire` fence would make known. -/
def Current (i j : ℕ) (s : Weak ℕ) : Prop := (s.mem.view (.reader i)).pending .seq < 2*j+1

theorem After.current {j : ℕ} (h : After i s s') (hc : Current i j s') : Current i j s :=
  (h.pending_le .seq).trans_lt hc

/-- Loading one field: a value of snapshot `j`, or one that reveals a later version. -/
theorem loadField_meets {j : ℕ} {l : Loc} {f : Val l → Code α} (hl : l ≠ .seq)
    (hk : protocol.Kept s.log s.mem) (hj : j ≤ (s.mem.view (.reader i)).known l)
    (h : ∀ s' v, After i s s' → (Current i j s' → ∃ t, s'.log[j]? = some t ∧ v = new t l) →
      Meets (subscriber i) (f v) Q s') :
    Meets (subscriber i) (l.load .relaxed >>= f) Q s := by
  refine subscriber_load hk fun s' n e hload => h s' e.value ⟨hload.log_prefix,hload.kept,hload.known_mono,
    hload.pending_mono,?_⟩ fun hc => ?_
  · rw [hload.own]
    cases l <;> rfl
  · obtain ⟨ht,hseq⟩ := (promise_payload hl).mp hload.promise
    have hpending : e.know .seq ≤ (s'.mem.view (.reader i)).pending .seq := hload.pending .seq
    have hle := hload.known_le
    unfold Current at hc
    obtain rfl : n = j := by omega
    exact ht

/-- The five fields come from snapshot `j`, unless one of them reveals a later version. -/
theorem loadPayload_loads {j : ℕ} {f : TopOfBook → Code α} (hk : protocol.Kept s.log s.mem)
    (hj : ∀ l, l ≠ .seq → j ≤ (s.mem.view (.reader i)).known l)
    (h : ∀ s' t, After i s s' → (Current i j s' → s'.log[j]? = some t) → Meets (subscriber i) (f t) Q s') :
    Meets (subscriber i) (loadPayload >>= f) Q s := by
  simp only [loadPayload, Program.bind_assoc]
  refine loadField_meets (by simp) hk (hj _ (by simp)) fun s₁ v₁ h₁ hv₁ => ?_
  have hj₁ := fun l hl => (hj l hl).trans (h₁.known_le l)
  refine loadField_meets (by simp) h₁.kept (hj₁ _ (by simp)) fun s₂ v₂ h₂ hv₂ => ?_
  have hj₂ := fun l hl => (hj₁ l hl).trans (h₂.known_le l)
  refine loadField_meets (by simp) h₂.kept (hj₂ _ (by simp)) fun s₃ v₃ h₃ hv₃ => ?_
  have hj₃ := fun l hl => (hj₂ l hl).trans (h₃.known_le l)
  refine loadField_meets (by simp) h₃.kept (hj₃ _ (by simp)) fun s₄ v₄ h₄ hv₄ => ?_
  have hj₄ := fun l hl => (hj₃ l hl).trans (h₄.known_le l)
  refine loadField_meets (by simp) h₄.kept (hj₄ _ (by simp)) fun s₅ v₅ h₅ hv₅ => ?_
  refine h s₅ _ ((((h₁.trans h₂).trans h₃).trans h₄).trans h₅) fun hc => ?_
  have hc₄ := h₅.current hc
  have hc₃ := h₄.current hc₄
  have hc₂ := h₃.current hc₃
  obtain ⟨t₁,ht₁,rfl⟩ := hv₁ (h₂.current hc₂)
  obtain ⟨t₂,ht₂,rfl⟩ := hv₂ hc₂
  obtain ⟨t₃,ht₃,rfl⟩ := hv₃ hc₃
  obtain ⟨t₄,ht₄,rfl⟩ := hv₄ hc₄
  obtain ⟨t₅,ht₅,rfl⟩ := hv₅ hc
  -- All five loads name snapshot `j` of one log.
  have heq₄ := Option.some.inj ((h₅.getElem? ht₄).symm.trans ht₅)
  have heq₃ := Option.some.inj ((h₅.getElem? (h₄.getElem? ht₃)).symm.trans ht₅)
  have heq₂ := Option.some.inj ((h₅.getElem? (h₄.getElem? (h₃.getElem? ht₂))).symm.trans ht₅)
  have heq₁ := Option.some.inj ((h₅.getElem? (h₄.getElem? (h₃.getElem? (h₂.getElem? ht₁)))).symm.trans ht₅)
  subst heq₁ heq₂ heq₃ heq₄
  exact ht₅

/-- The effect that the cell promises for an accepted snapshot: it is the value that its
version names, which is no older than `since` and known to the reader from now on. -/
def Accepted (i since : ℕ) (t : TopOfBook) (s : Weak ℕ) : Prop :=
  protocol.Kept s.log s.mem ∧ ∃ j, s.log[j]? = some t ∧ s.own = 2*j ∧ since ≤ j ∧
    2*j ≤ (s.mem.view (.reader i)).known .seq

theorem Accepted.stable {since : ℕ} {t : TopOfBook} (h : Accepted i since t s)
    (hr : (subscriber i).rely s s') : Accepted i since t s' := by
  obtain ⟨hk,j,ht,hown,hsince,hknown⟩ := h
  obtain ⟨hlog,hkept,hview,hown'⟩ := hr
  exact ⟨hkept hk,j,getElem?_of_grows hlog ht,hown'.trans hown,hsince,hview ▸ hknown⟩

/-- What one pass promises: a snapshot it accepts, or another pass. -/
theorem pass_loads {since retries : ℕ} (hk : protocol.Kept s.log s.mem)
    (hs : 2*since ≤ (s.mem.view (.reader i)).known .seq) :
    Meets (subscriber i) (pass retries) (fun r s => match r with
      | .inl _ => protocol.Kept s.log s.mem ∧ 2*since ≤ (s.mem.view (.reader i)).known .seq
      | .inr x => Accepted i since x.1 s) s := by
  refine subscriber_load hk fun s₁ n e h₁ => ?_
  obtain ⟨hn,hpayload⟩ : VersionPromise n e.value e.know := h₁.promise
  have hmono : (s.mem.view (.reader i)).known .seq ≤ (s₁.mem.view (.reader i)).known .seq := h₁.known_mono .seq
  rw [hn]
  split_ifs with heven
  · have hmod : n % 2 = 0 := (Nat.and_one_is_mod n).symm.trans heven
    have hj : ∀ l, l ≠ .seq → n/2 ≤ (s₁.mem.view (.reader i)).known l := fun l hl =>
      (hpayload hmod l hl).trans (h₁.acquired l)
    refine loadPayload_loads h₁.kept hj fun s₂ t h₂ ht => ?_
    refine subscriber_fence h₂.kept fun s₃ hl₃ hk₃ hv₃ ho₃ => subscriber_load hk₃ fun s₄ n' e' h₄ => ?_
    obtain ⟨hn',_⟩ : VersionPromise n' e'.value e'.know := h₄.promise
    have hknown₂ : (s₁.mem.view (.reader i)).known .seq ≤ (s₂.mem.view (.reader i)).known .seq := h₂.known_le .seq
    have hknown₃ : (s₂.mem.view (.reader i)).known .seq ≤ (s₃.mem.view (.reader i)).known .seq := by
      rw [hv₃]
      exact View.known_le_fence Loc.seq
    have hpending₃ : (s₂.mem.view (.reader i)).pending .seq ≤ (s₃.mem.view (.reader i)).known .seq := by
      rw [hv₃]
      exact View.pending_le_acquire Loc.seq
    have hknown₄ : (s₃.mem.view (.reader i)).known .seq ≤ (s₄.mem.view (.reader i)).known .seq :=
      h₄.known_mono .seq
    have hindex : n ≤ (s₁.mem.view (.reader i)).known .seq := h₁.index_le
    rw [hn']
    split_ifs with heq
    · -- The version was loaded anew and is still `n`, so no field has revealed a later one.
      have hsame : n = n' := heq
      have hloaded := h₄.known_le
      have ht₂ : s₂.log[n/2]? = some t := ht (by unfold Current; omega)
      have ht₄ := getElem?_of_grows (hl₃.trans h₄.log_prefix) ht₂
      have hacc : Accepted i since t s₄ := by
        refine ⟨h₄.kept,n/2,ht₄,?_,?_,?_⟩
        · rw [h₄.own, ho₃, h₂.own_eq, h₁.own]
          exact hn.trans (by omega)
        · have hle := h₁.known_le
          omega
        · omega
      exact Meets.done fun s' hs' => hacc.stable hs'
    · refine Meets.done fun s' hs' => ⟨hs'.2.1 h₄.kept,?_⟩
      rw [hs'.2.2.1]
      omega
  · refine Meets.done fun s' hs' => ⟨hs'.2.1 h₁.kept,?_⟩
    rw [hs'.2.2.1]
    omega

/-- The loop keeps the memory good and forgets no version until a pass is accepted. -/
theorem loadCounted_loads {since : ℕ} (hk : protocol.Kept s.log s.mem)
    (hs : 2*since ≤ (s.mem.view (.reader i)).known .seq) :
    Meets (subscriber i) loadCounted (fun x s => Accepted i since x.1 s) s := by
  refine ⟨fun _ s => protocol.Kept s.log s.mem ∧ 2*since ≤ (s.mem.view (.reader i)).known .seq,⟨hk,hs⟩,?_,?_⟩
  · rintro _ s s' ⟨hk,hs⟩ hr
    exact ⟨hr.2.1 hk,hr.2.2.1 ▸ hs⟩
  · rintro retries s ⟨hk,hs⟩
    refine (pass_loads hk hs).mono ?_
    rintro (retries | x) s' h'
    · exact h'
    · exact Meets.done fun s'' hr => h'.stable hr

theorem load_loads {since : ℕ} (hk : protocol.Kept s.log s.mem)
    (hs : 2*since ≤ (s.mem.view (.reader i)).known .seq) :
    Meets (subscriber i) load (Accepted i since) s := by
  refine Meets.bind ((loadCounted_loads hk hs).mono ?_)
  rintro ⟨t,retries⟩ s' h'
  exact Meets.done fun s'' hr => h'.stable hr

end Reader
end LowLatencyLob.SeqLock
