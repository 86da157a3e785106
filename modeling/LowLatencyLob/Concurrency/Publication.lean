import LowLatencyLob.Concurrency.Messages

/-! One thread publishes and the others subscribe, through a memory of messages.

A protocol says what every entry promises to those who load it. The publisher, which
knows of every entry, has to keep the promise of each one it adds; a subscriber may use the
promise of each entry it loads, however old. -/
namespace LowLatencyLob.Concurrency

variable {T Loc : Type} {Val : Loc → Type}

/-- What each entry promises to those who load it, given the log of what was published so
far. A promise stays true as the log grows. -/
structure Protocol (X : Type) (Val : Loc → Type) where
  promise : List X → (l : Loc) → ℕ → Val l → Knowledge Loc → Prop
  mono : ∀ {log log' : List X} {l n v know}, log <+: log' → promise log l n v know → promise log' l n v know

namespace Protocol
variable {X : Type} (P : Protocol X Val)

/-- Every entry keeps to the protocol. -/
def Kept (log : List X) (m : Messages T Val) : Prop :=
  ∀ l n e, (m.entries l)[n]? = some e → P.promise log l n e.value e.know

variable {P}

theorem Kept.mono {log log' : List X} {m : Messages T Val} (h : P.Kept log m) (hl : log <+: log') :
    P.Kept log' m := fun l n e he => P.mono hl (h l n e he)

theorem Kept.congr {log : List X} {m m' : Messages T Val} (h : P.Kept log m)
    (he : m'.entries = m.entries) : P.Kept log m' := by
  unfold Kept
  rw [he]
  exact h

/-- The initial entries keep to the protocol if each does so by itself. -/
theorem kept_init {log : List X} {v : ∀ l, Val l} (h : ∀ l, P.promise log l 0 (v l) fun _ => 0) :
    P.Kept log (.init T v) := by
  intro l n e he
  obtain ⟨hn,rfl⟩ := List.getElem?_eq_some_iff.mp he
  obtain rfl := Nat.lt_one_iff.mp hn
  exact h l

end Protocol

/-- What a thread can speak about: the log, the memory, and what it remembers of its own
accesses. -/
structure World (X T : Type) (Val : Loc → Type) (G : Type) where
  log : List X
  mem : Messages T Val
  own : G

section Loads
variable [DecidableEq Loc] {X G : Type} {P : Protocol X Val} {t : T}
  {next : G → (a : Access Val) → a.Result → G} {ok : G → View Loc → Prop} {s s' : World X T Val G}

/-- From `s`, after others acted, `t` loaded the entry `e` with index `n` of `l`. -/
structure Loads (P : Protocol X Val) (t : T) (next : G → (a : Access Val) → a.Result → G)
    (ok : G → View Loc → Prop) (l : Loc) (o : LoadOrder) (n : ℕ) (e : Entry Val l)
    (s s' : World X T Val G) : Prop where
  log_prefix : s.log <+: s'.log
  kept : P.Kept s'.log s'.mem
  ok : ok s.own (s.mem.view t)
  known_le : (s.mem.view t).known l ≤ n
  promise : P.promise s'.log l n e.value e.know
  view : s'.mem.view t = (s.mem.view t).load l o n e.know
  own : s'.own = next s.own (.load l o) e.value

theorem Loads.known_mono {l : Loc} {o : LoadOrder} {n : ℕ} {e : Entry Val l}
    (h : Loads P t next ok l o n e s s') : (s.mem.view t).known ≤ (s'.mem.view t).known := by
  rw [h.view]
  exact View.known_le_load h.known_le

theorem Loads.pending_mono {l : Loc} {o : LoadOrder} {n : ℕ} {e : Entry Val l}
    (h : Loads P t next ok l o n e s s') : (s.mem.view t).pending ≤ (s'.mem.view t).pending := by
  rw [h.view]
  exact View.pending_le_load

theorem Loads.index_le {l : Loc} {o : LoadOrder} {n : ℕ} {e : Entry Val l}
    (h : Loads P t next ok l o n e s s') : n ≤ (s'.mem.view t).known l := by
  rw [h.view]
  exact View.index_le_load

/-- An `Acquire` load takes over what is attached to the entry. -/
theorem Loads.acquired {l : Loc} {n : ℕ} {e : Entry Val l}
    (h : Loads P t next ok l .acquire n e s s') : e.know ≤ (s'.mem.view t).known := by
  rw [h.view]
  exact View.attached_le_acquire

theorem Loads.pending {l : Loc} {o : LoadOrder} {n : ℕ} {e : Entry Val l}
    (h : Loads P t next ok l o n e s s') : e.know ≤ (s'.mem.view t).pending := by
  rw [h.view]
  exact View.attached_le_pending

end Loads

/-- What the one publisher of a memory sees: the index and the value of the newest entry
of each location, and the indices at its last `Release` fence. -/
structure Front (Val : Loc → Type) where
  count : Knowledge Loc
  top : ∀ l, Val l
  released : Knowledge Loc

namespace Front

def release (fr : Front Val) : Front Val := ⟨fr.count,fr.top,fr.count⟩

@[simp] theorem count_release (fr : Front Val) : fr.release.count = fr.count := rfl
@[simp] theorem released_release (fr : Front Val) : fr.release.released = fr.count := rfl

variable [DecidableEq Loc]

def store (fr : Front Val) (l : Loc) (v : Val l) : Front Val :=
  ⟨Function.update fr.count l (fr.count l+1),Function.update fr.top l v,fr.released⟩

/-- What the next store, to `l`, attaches to its entry. -/
def attached (fr : Front Val) (l : Loc) : StoreOrder → Knowledge Loc
  | .relaxed => fr.released
  | .release => Function.update fr.count l (fr.count l+1)

variable (fr : Front Val) (l : Loc) (v : Val l)

@[simp] theorem released_store : (fr.store l v).released = fr.released := rfl
@[simp] theorem attached_relaxed : fr.attached l .relaxed = fr.released := rfl

@[simp] theorem count_store_self : (fr.store l v).count l = fr.count l+1 := Function.update_self ..
@[simp] theorem top_store_self : (fr.store l v).top l = v := Function.update_self ..

variable {fr l v} {l' : Loc}

@[simp] theorem count_store_of_ne (h : l' ≠ l) : (fr.store l v).count l' = fr.count l' :=
  Function.update_of_ne h ..
@[simp] theorem attached_release_of_ne (h : l' ≠ l) : fr.attached l .release l' = fr.count l' :=
  Function.update_of_ne h ..

end Front

/-- The publisher `t` knows of every entry. -/
structure Owns (t : T) (m : Messages T Val) (fr : Front Val) : Prop where
  known : (m.view t).known = fr.count
  released : (m.view t).released = fr.released
  length : ∀ l, (m.entries l).length = fr.count l+1
  top : ∀ l, (m.entries l)[fr.count l]?.map Entry.value = some (fr.top l)

theorem owns_init (t : T) (v : ∀ l, Val l) : Owns t (.init T v) ⟨fun _ => 0,v,fun _ => 0⟩ :=
  ⟨rfl,rfl,fun _ => rfl,fun _ => rfl⟩

theorem Owns.congr {t : T} {m m' : Messages T Val} {fr : Front Val} (h : Owns t m fr) (he : m'.entries = m.entries)
    (hv : m'.view t = m.view t) : Owns t m' fr := by
  refine ⟨hv ▸ h.known,hv ▸ h.released,?_,?_⟩
  · rw [he]
    exact h.length
  · rw [he]
    exact h.top

section Threads
variable [DecidableEq T] [DecidableEq Loc] {X G : Type} (P : Protocol X Val) (t : T)

/-- A thread that stores nothing. `next` is what it remembers of an access, and `ok` holds
of its own part of every state it acts in. -/
def subscriberEnv (next : G → (a : Access Val) → a.Result → G) (ok : G → View Loc → Prop) :
    Env (World X T Val G) (@Access.Result _ Val) where
  acc s a r s' := s'.log = s.log ∧ (∃ n, s.mem.exec t a n = some (r,s'.mem)) ∧
    s'.own = next s.own a r ∧ ok s.own (s.mem.view t)
  rely s s' := s.log <+: s'.log ∧ (P.Kept s.log s.mem → P.Kept s'.log s'.mem) ∧
    s'.mem.view t = s.mem.view t ∧ s'.own = s.own
  guar s s' := s'.mem.entries = s.mem.entries
  rely_refl _ := ⟨List.prefix_rfl,id,rfl,rfl⟩
  rely_trans h h' := ⟨h.1.trans h'.1,h'.2.1 ∘ h.2.1,h'.2.2.1.trans h.2.2.1,h'.2.2.2.trans h.2.2.2⟩

/-- The one thread that stores; no other changes the entries. -/
def publisherEnv : Env (World X T Val Unit) (@Access.Result _ Val) where
  acc s a r s' := s'.log = s.log ∧ ∃ n, s.mem.exec t a n = some (r,s'.mem)
  rely s s' := s'.log = s.log ∧ s'.mem.entries = s.mem.entries ∧ s'.mem.view t = s.mem.view t
  guar s s' := P.Kept s.log s.mem → P.Kept s'.log s'.mem
  rely_refl _ := ⟨rfl,rfl,rfl⟩
  rely_trans h h' := ⟨h'.1.trans h.1,h'.2.1.trans h.2.1,h'.2.2.trans h.2.2⟩

section Subscriber
variable {P t} {next : G → (a : Access Val) → a.Result → G} {ok : G → View Loc → Prop}
  {s : World X T Val G} {α : Type} {Q : α → World X T Val G → Prop}

theorem subscriber_load {l : Loc} {o : LoadOrder} {f : Val l → Atomic Val α} (hk : P.Kept s.log s.mem)
    (h : ∀ s' n e, Loads P t next ok l o n e s s' → Meets (subscriberEnv P t next ok) (f e.value) Q s') :
    Meets (subscriberEnv P t next ok) (load l o >>= f) Q s := by
  apply Meets.access
  rintro s₁ ⟨hlog,hkept,hview,hown⟩ r s₂ ⟨hlog₂,⟨n,hx⟩,hown₂,hok⟩
  obtain ⟨e,he,hn,rfl,hentries,hview₂⟩ := Messages.exec_load hx
  rw [hview] at hn hview₂ hok
  rw [hown] at hown₂ hok
  have hk₁ := hkept hk
  refine ⟨hentries,h s₂ n e ⟨hlog₂ ▸ hlog,?_,hok,hn,?_,?_,hown₂⟩⟩
  · rw [hlog₂]
    exact hk₁.congr hentries
  · rw [hlog₂]
    exact hk₁ l n e he
  · rw [hview₂, Function.update_self]

theorem subscriber_fence {o : FenceOrder} {f : Unit → Atomic Val α} (hk : P.Kept s.log s.mem)
    (h : ∀ s' : World X T Val G, s.log <+: s'.log → P.Kept s'.log s'.mem →
      s'.mem.view t = (s.mem.view t).fence o → s'.own = next s.own (.fence o) () →
      Meets (subscriberEnv P t next ok) (f ()) Q s') :
    Meets (subscriberEnv P t next ok) (fence o >>= f) Q s := by
  apply Meets.access
  rintro s₁ ⟨hlog,hkept,hview,hown⟩ r s₂ ⟨hlog₂,⟨n,hx⟩,hown₂,_⟩
  obtain ⟨hentries,hview₂⟩ := Messages.exec_fence hx
  rw [hview] at hview₂
  rw [hown] at hown₂
  refine ⟨hentries,h s₂ (hlog₂ ▸ hlog) ?_ ?_ hown₂⟩
  · rw [hlog₂]
    exact (hkept hk).congr hentries
  · rw [hview₂, Function.update_self]

end Subscriber

section Publisher
variable {P t} {s : World X T Val Unit} {fr : Front Val} {α : Type}
  {Q : α → World X T Val Unit → Prop}

theorem publisher_load {l : Loc} {f : Val l → Atomic Val α} (ho : Owns t s.mem fr)
    (hk : P.Kept s.log s.mem) (h : ∀ s' : World X T Val Unit, s'.log = s.log → P.Kept s'.log s'.mem →
      Owns t s'.mem fr → Meets (publisherEnv P t) (f (fr.top l)) Q s') :
    Meets (publisherEnv P t) (load l .relaxed >>= f) Q s := by
  apply Meets.access
  rintro s₁ ⟨hlog,hentries,hview⟩ r s₂ ⟨hlog₂,n,hx⟩
  have ho₁ := ho.congr hentries hview
  obtain ⟨e,he,hn,rfl,hentries₂,hview₂⟩ := Messages.exec_load hx
  -- The newest entry is the only one that the publisher may still load.
  have hlt := (List.getElem?_eq_some_iff.mp he).1
  have hlen := ho₁.length l
  rw [ho₁.known] at hn
  obtain rfl : n = fr.count l := by omega
  have htop := ho₁.top l
  rw [he] at htop
  have hkept : P.Kept s₁.log s₁.mem := by
    rw [hlog]
    exact hk.congr hentries
  have hkept₂ : P.Kept s₂.log s₂.mem := by
    rw [hlog₂]
    exact hkept.congr hentries₂
  refine ⟨fun _ => hkept₂,?_⟩
  rw [Option.some.inj htop]
  refine h s₂ (hlog₂.trans hlog) hkept₂ ⟨?_,?_,?_,?_⟩
  · rw [hview₂, Function.update_self, View.load, ho₁.known, Function.update_eq_self]
  · rw [hview₂, Function.update_self]
    exact ho₁.released
  · rw [hentries₂]
    exact ho₁.length
  · rw [hentries₂]
    exact ho₁.top

theorem publisher_store {l : Loc} {v : Val l} {o : StoreOrder} {f : Unit → Atomic Val α}
    (ho : Owns t s.mem fr) (hk : P.Kept s.log s.mem)
    (hs : P.promise s.log l (fr.count l+1) v (fr.attached l o))
    (h : ∀ s' : World X T Val Unit, s'.log = s.log → P.Kept s'.log s'.mem →
      Owns t s'.mem (fr.store l v) → Meets (publisherEnv P t) (f ()) Q s') :
    Meets (publisherEnv P t) (store l v o >>= f) Q s := by
  apply Meets.access
  rintro s₁ ⟨hlog,hentries,hview⟩ r s₂ ⟨hlog₂,n,hx⟩
  have ho₁ := ho.congr hentries hview
  obtain ⟨hentries₂,hview₂⟩ := Messages.exec_store hx
  have hlen := ho₁.length l
  have hattached : ((s₁.mem.view t).store l (s₁.mem.entries l).length).attached o = fr.attached l o := by
    cases o with
    | relaxed => exact ho₁.released
    | release =>
      unfold View.attached View.store Front.attached
      rw [ho₁.known, hlen]
  rw [hattached] at hentries₂
  have hkept : P.Kept s₂.log s₂.mem := by
    rw [hlog₂, hlog]
    intro l' n e he
    rw [hentries₂] at he
    by_cases hl : l' = l
    · subst l'
      rw [Function.update_self, List.getElem?_append] at he
      split_ifs at he with hn
      · exact hk l n e (hentries ▸ he)
      · rw [List.getElem?_singleton] at he
        split_ifs at he with hz
        obtain rfl := Option.some.inj he
        obtain rfl : n = fr.count l+1 := by omega
        exact hs
    · rw [Function.update_of_ne hl] at he
      exact hk l' n e (hentries ▸ he)
  refine ⟨fun _ => hkept,h s₂ (hlog₂.trans hlog) hkept ⟨?_,?_,fun l' => ?_,fun l' => ?_⟩⟩
  · rw [hview₂, Function.update_self, View.store, ho₁.known, hlen]
    rfl
  · rw [hview₂, Function.update_self]
    exact ho₁.released
  · rw [hentries₂]
    by_cases hl : l' = l
    · subst l'
      simp [Front.store, hlen]
    · simpa [Front.store, hl] using ho₁.length l'
  · rw [hentries₂]
    by_cases hl : l' = l
    · subst l'
      simp [Front.store, ← hlen]
    · simpa [Front.store, hl] using ho₁.top l'

theorem publisher_release {f : Unit → Atomic Val α} (ho : Owns t s.mem fr) (hk : P.Kept s.log s.mem)
    (h : ∀ s' : World X T Val Unit, s'.log = s.log → P.Kept s'.log s'.mem → Owns t s'.mem fr.release →
      Meets (publisherEnv P t) (f ()) Q s') :
    Meets (publisherEnv P t) (fence .release >>= f) Q s := by
  apply Meets.access
  rintro s₁ ⟨hlog,hentries,hview⟩ r s₂ ⟨hlog₂,n,hx⟩
  have ho₁ := ho.congr hentries hview
  obtain ⟨hentries₂,hview₂⟩ := Messages.exec_fence hx
  have hkept : P.Kept s₂.log s₂.mem := by
    rw [hlog₂, hlog]
    exact hk.congr (hentries₂.trans hentries)
  refine ⟨fun _ => hkept,h s₂ (hlog₂.trans hlog) hkept ⟨?_,?_,?_,?_⟩⟩
  · rw [hview₂, Function.update_self]
    exact ho₁.known
  · rw [hview₂, Function.update_self]
    exact ho₁.known
  · rw [hentries₂]
    exact ho₁.length
  · rw [hentries₂]
    exact ho₁.top

end Publisher
end Threads
end LowLatencyLob.Concurrency
