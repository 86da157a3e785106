import LowLatencyLob.Sync.RingTrace
import LowLatencyLob.Concurrency.Publication
import Mathlib.Data.Int.CardIntervalMod

/-! A ring under the orderings that `push` and `try_recv` ask for.

Slot `i` is used by the positions `i`, `i+capacity`, and so on: its generations. Entry
`2*g+1` of a stamp marks generation `g` busy and entry `2*g+2` publishes it; entry `g+1`
of a word belongs to generation `g`. A published stamp makes its words known to those who
load it with `Acquire`, and a word makes the busy mark of its generation known past an
`Acquire` fence. -/
namespace LowLatencyLob.Ring
open Concurrency

variable {C : Capacity} {W : ℕ}

/-- The position that is generation `g` of slot `i`. -/
def position (i : Fin C.slots) (g : ℕ) : ℕ := i+g*C.slots

theorem position_slotOf (p : ℕ) : position (C.slotOf p) (p/C.slots) = p := by
  unfold position
  rw [C.slotOf_val]
  exact Nat.mod_add_div' p C.slots

theorem generation_eq {i : Fin C.slots} {g c : ℕ} (h : position i g = c) : g = c/C.slots := by
  unfold position at h
  rw [← h, Nat.add_mul_div_right _ _ C.slots_pos, Nat.div_eq_of_lt i.isLt, Nat.zero_add]

/-- What an entry of the stamp of slot `i` promises. -/
def StampPromise (i : Fin C.slots) (n v : ℕ) (know : Knowledge (Loc C W)) : Prop :=
  (n = 0 → v = EMPTY) ∧
  (∀ g, n = 2*g+1 → v = position i g ||| WRITING) ∧
  ∀ g, n = 2*g+2 → v = position i g ∧ ∀ k, g+1 ≤ know (.word i k)

/-- What an entry of word `k` of slot `i` promises. -/
def WordPromise (log : List (Record W)) (i : Fin C.slots) (k : Fin W) (n : ℕ) (v : UInt64)
    (know : Knowledge (Loc C W)) : Prop :=
  ∀ g, n = g+1 → (∃ rec, log[position i g]? = some rec ∧ v = rec k) ∧ 2*g+1 ≤ know (.stamp i)

/-- The log is that of the records given to `push`. -/
def protocol (C : Capacity) (W : ℕ) : Protocol (Record W) (Val (C := C) (W := W)) where
  promise log
    | .stamp i, n, v, know => StampPromise i n v know
    | .word i k, n, v, know => WordPromise log i k n v know
    | .write, n, v, _ => v = n ∧ n ≤ log.length ∧ n < 2^63
  mono {log log' l n v know} hl h := by
    cases l with
    | stamp i => exact h
    | word i k =>
      intro g hg
      obtain ⟨⟨rec,hrec,hv⟩,hk⟩ := h g hg
      exact ⟨⟨rec,getElem?_of_grows hl hrec,hv⟩,hk⟩
    | write => exact ⟨h.1,h.2.1.trans hl.length_le,h.2.2⟩

/-- Only the published entry of its generation has a position for its value. -/
theorem StampPromise.published {i : Fin C.slots} {n v c : ℕ} {know : Knowledge (Loc C W)}
    (h : StampPromise i n v know) (hv : v = c) (hc : c < 2^63) : n = 2*(c/C.slots)+2 := by
  obtain ⟨hempty,hbusy,hready⟩ := h
  rcases Nat.eq_zero_or_pos n with hn | hn
  · have he := hempty hn
    unfold EMPTY at he
    omega
  rcases Nat.even_or_odd' (n-1) with ⟨g,hg | hg⟩
  · have hle : WRITING ≤ position i g ||| WRITING := Nat.right_le_or
    rw [← hbusy g (by omega), hv] at hle
    unfold WRITING at hle
    omega
  · have hpos := (hready g (by omega)).1
    rw [← generation_eq (hpos.symm.trans hv)]
    omega

/-- The positions below `p` that use slot `i`. -/
def uses (i : Fin C.slots) (p : ℕ) : ℕ := Nat.count (fun q => C.slotOf q = i) p

theorem uses_slotOf (p : ℕ) : uses (C.slotOf p) p = p/C.slots := by
  have hcount := Nat.count_modEq_card p C.slots_pos p
  rw [if_neg (lt_irrefl _), Nat.add_zero] at hcount
  rw [← hcount]
  unfold uses
  congr 1
  funext q
  exact propext (C.slotOf_eq_iff q p)

theorem uses_succ_self (p : ℕ) : uses (C.slotOf p) (p+1) = p/C.slots+1 := by
  unfold uses
  rw [Nat.count_succ, if_pos rfl]
  exact congrArg (·+1) (uses_slotOf p)

theorem uses_succ_other {i : Fin C.slots} {p : ℕ} (h : i ≠ C.slotOf p) : uses i (p+1) = uses i p := by
  unfold uses
  rw [Nat.count_succ, if_neg h.symm, Nat.add_zero]

abbrev Weak (C : Capacity) (W : ℕ) := World (Record W) Thread (Val (C := C) (W := W))

abbrev publisher (C : Capacity) (W : ℕ) : Env (Weak C W Unit) (@Access.Result (Loc C W) Val) :=
  publisherEnv (protocol C W) .producer

section Producer
variable {α : Type} {Q : α → Weak C W Unit → Prop} {s : Weak C W Unit} {fr : Front (Val (C := C) (W := W))} {p : ℕ}

/-- Where the producer stands between two pushes, after `p` of them. -/
structure Pushed (p : ℕ) (fr : Front (Val (C := C) (W := W))) : Prop where
  write : fr.count .write = p
  top : fr.top .write = p
  stamp : ∀ i, fr.count (.stamp i) = 2*uses i p
  word : ∀ i k, fr.count (.word i k) = uses i p

/-- And where it stands within the push of position `p`, the words `ks` still to come. -/
structure Busy (p : ℕ) (ks : List (Fin W)) (fr : Front (Val (C := C) (W := W))) : Prop where
  write : fr.count .write = p
  stamp : fr.count (.stamp (C.slotOf p)) = 2*(p/C.slots)+1
  released : fr.released (.stamp (C.slotOf p)) = 2*(p/C.slots)+1
  word : ∀ k, fr.count (.word (C.slotOf p) k) = if k ∈ ks then p/C.slots else p/C.slots+1
  others : ∀ i, i ≠ C.slotOf p → fr.count (.stamp i) = 2*uses i p ∧ ∀ k, fr.count (.word i k) = uses i p

/-- (P2) Every word entry keeps its promise, since its busy mark was released. -/
theorem storeWords_publishes {rec : Record W} {f : Unit → Code C W α} (ks : List (Fin W)) (hks : ks.Nodup)
    (ho : Owns .producer s.mem fr) (hk : (protocol C W).Kept s.log s.mem) (hb : Busy p ks fr)
    (hl : s.log[p]? = some rec)
    (hf : ∀ (s' : Weak C W Unit) fr', s'.log = s.log → (protocol C W).Kept s'.log s'.mem →
      Owns .producer s'.mem fr' → Busy p [] fr' → Meets (publisher C W) (f ()) Q s') :
    Meets (publisher C W) (storeWords C (C.slotOf p) rec ks >>= f) Q s := by
  induction ks generalizing s fr with
  | nil => exact hf s fr rfl hk ho hb
  | cons k ks ih =>
    obtain ⟨hkn,hnodup⟩ := List.nodup_cons.mp hks
    have hcount : fr.count (.word (C.slotOf p) k) = p/C.slots := (hb.word k).trans (if_pos List.mem_cons_self)
    have hpromise : (protocol C W).promise s.log (.word (C.slotOf p) k) (fr.count (.word (C.slotOf p) k)+1) (rec k)
        (fr.attached (.word (C.slotOf p) k) .relaxed) := by
      intro g hg
      obtain rfl : g = p/C.slots := by omega
      rw [position_slotOf]
      exact ⟨⟨rec,hl,rfl⟩,hb.released.ge⟩
    rw [storeWords, Program.bind_assoc]
    refine publisher_store ho hk hpromise fun s' hl' hk' ho' => ?_
    apply ih hnodup ho' hk' _ (hl' ▸ hl)
    · intro s'' fr'' hl'' hk'' ho'' hb''
      exact hf s'' fr'' (hl''.trans hl') hk'' ho'' hb''
    · constructor
      · simpa using hb.write
      · simpa using hb.stamp
      · simpa using hb.released
      · intro j
        by_cases hj : j = k
        · subst j
          rw [Front.count_store_self, hcount, if_neg hkn]
        · rw [Front.count_store_of_ne (by simpa using hj), hb.word j]
          simp [hj]
      · intro i hi
        obtain ⟨hstamp,hword⟩ := hb.others i hi
        exact ⟨by simpa using hstamp,fun j => by rw [Front.count_store_of_ne (by simp [hi])]; exact hword j⟩

/-- A push keeps every promise of its entries. -/
theorem push_publishes {rec : Record W} (ho : Owns .producer s.mem fr) (hk : (protocol C W).Kept s.log s.mem)
    (hp : Pushed p fr) (hl : s.log[p]? = some rec) (hb : p+1 < 2^63) :
    Meets (publisher C W) (push C rec)
      (fun _ s' => s'.log = s.log ∧ (protocol C W).Kept s'.log s'.mem ∧
        ∃ fr', Owns .producer s'.mem fr' ∧ Pushed (p+1) fr') s := by
  have htop : fr.top .write = p := hp.top
  refine publisher_load ho hk fun s₀ hl₀ hk₀ ho₀ => ?_
  rw [htop]
  have hbusy : (protocol C W).promise s₀.log (.stamp (C.slotOf p)) (fr.count (.stamp (C.slotOf p))+1)
      (p ||| WRITING : ℕ) (fr.attached (.stamp (C.slotOf p)) .relaxed) := by
    rw [hp.stamp, uses_slotOf]
    refine ⟨by omega,fun g hg => ?_,by omega⟩
    obtain rfl : g = p/C.slots := by omega
    rw [position_slotOf]
  refine publisher_store ho₀ hk₀ hbusy fun s₁ hl₁ hk₁ ho₁ => publisher_release ho₁ hk₁ fun s₂ hl₂ hk₂ ho₂ => ?_
  have hlog₂ : s₂.log = s.log := hl₂.trans (hl₁.trans hl₀)
  have hb₂ : Busy p (List.finRange W) (fr.store (.stamp (C.slotOf p)) (p ||| WRITING : ℕ)).release := by
    refine ⟨by simpa using hp.write,by simp [hp.stamp, uses_slotOf],by simp [hp.stamp, uses_slotOf],?_,?_⟩
    · intro k
      simp [hp.word, uses_slotOf]
    · exact fun i hi => ⟨by simp [hi, hp.stamp],fun k => by simp [hp.word]⟩
  refine storeWords_publishes _ (List.nodup_finRange W) ho₂ hk₂ hb₂ (hlog₂ ▸ hl) fun s₃ fr₃ hl₃ hk₃ ho₃ hb₃ => ?_
  have hready : (protocol C W).promise s₃.log (.stamp (C.slotOf p)) (fr₃.count (.stamp (C.slotOf p))+1) p
      (fr₃.attached (.stamp (C.slotOf p)) .release) := by
    rw [hb₃.stamp]
    refine ⟨by omega,by omega,fun g hg => ?_⟩
    obtain rfl : g = p/C.slots := by omega
    refine ⟨(position_slotOf p).symm,fun k => ?_⟩
    rw [Front.attached_release_of_ne (by simp), hb₃.word k, if_neg List.not_mem_nil]
  refine publisher_store ho₃ hk₃ hready fun s₄ hl₄ hk₄ ho₄ => ?_
  have hlog₄ : s₄.log = s.log := hl₄.trans (hl₃.trans hlog₂)
  have hmod : (p+1) % 2^64 = p+1 := Nat.mod_eq_of_lt (by omega)
  have hwrite₄ : (fr₃.store (.stamp (C.slotOf p)) p).count .write = p := by simpa using hb₃.write
  have hadvance : (protocol C W).promise s₄.log .write ((fr₃.store (.stamp (C.slotOf p)) p).count .write+1)
      ((p+1) % 2^64 : ℕ) ((fr₃.store (.stamp (C.slotOf p)) p).attached .write .release) := by
    rw [hwrite₄, hmod, hlog₄]
    exact ⟨rfl,(List.getElem?_eq_some_iff.mp hl).1,hb⟩
  refine publisher_store (f := Program.done) ho₄ hk₄ hadvance fun s₅ hl₅ hk₅ ho₅ => Meets.done fun s₆ h₆ => ?_
  obtain ⟨hl₆,hentries,hview⟩ := h₆
  refine ⟨hl₆.trans (hl₅.trans hlog₄),?_,_,ho₅.congr hentries hview,?_⟩
  · rw [hl₆]
    exact hk₅.congr hentries
  constructor
  · simpa using hwrite₄
  · rw [Front.top_store_self, hmod]
  · intro i
    by_cases hi : i = C.slotOf p
    · subst i
      rw [uses_succ_self]
      simp [hb₃.stamp]
      omega
    · rw [uses_succ_other hi]
      simpa [hi] using (hb₃.others i hi).1
  · intro i k
    by_cases hi : i = C.slotOf p
    · subst i
      rw [uses_succ_self]
      simp [hb₃.word]
    · rw [uses_succ_other hi]
      simpa using (hb₃.others i hi).2 k

end Producer

/-- What a consumer remembers: its cursor between calls, and the stamp that it loaded if
that was its newest step. -/
structure Own where
  cursor : Option ℕ
  stamp : Option ℕ

def Own.next (g : Own) : (a : Access (Val (C := C) (W := W))) → a.Result → Own
  | .load (.stamp _) _, v => ⟨g.cursor,some v⟩
  | _, _ => ⟨g.cursor,none⟩

@[simp] theorem Own.cursor_next (g : Own) (a : Access (Val (C := C) (W := W))) (r : a.Result) :
    (g.next a r).cursor = g.cursor := by
  cases a with
  | load l o => cases l <;> rfl
  | _ => rfl

/-- A consumer about to resync, since a stamp was not its cursor, already knows of a write
position that puts the oldest resident record at its cursor or past it. -/
def Informed (g : Own) (v : View (Loc C W)) : Prop :=
  ∀ c ∈ g.cursor, ∀ stamp ∈ g.stamp, stamp ≠ c → c ≤ v.known .write-C.slots

instance (g : Own) (v : View (Loc C W)) : Decidable (Informed g v) :=
  inferInstanceAs (Decidable (∀ c ∈ g.cursor, ∀ stamp ∈ g.stamp, stamp ≠ c → c ≤ v.known .write-C.slots))

/-- A consumer, over moments in which it satisfies `ok`. -/
abbrev subscriber (i : ℕ) (ok : Own → View (Loc C W) → Prop) :
    Env (Weak C W Own) (@Access.Result (Loc C W) Val) :=
  subscriberEnv (protocol C W) (.consumer i) Own.next ok

section Consumer
variable {i : ℕ} {ok : Own → View (Loc C W) → Prop} {α : Type} {Q : α → Weak C W Own → Prop}
  {s s' : Weak C W Own}

/-- The effect that the ring promises for one receive at `cursor`, whatever is late: an
item is the record of that position; and a consumer that was informed moved forward. -/
def Delivered (ok : Own → View (Loc C W) → Prop) (cursor : ℕ) (x : Recv W × ℕ) (s : Weak C W Own) : Prop :=
  (protocol C W).Kept s.log s.mem ∧ s.own.cursor = some cursor ∧
    match x.1 with
    | .item rec => s.log[cursor]? = some rec ∧ x.2 = cursor+1
    | .empty => x.2 = cursor
    | .overrun skipped => (∀ g v, ok g v → Informed g v) → x.2 = cursor+skipped

theorem Delivered.stable {cursor : ℕ} {x : Recv W × ℕ} (h : Delivered ok cursor x s)
    (hr : (subscriber i ok).rely s s') : Delivered ok cursor x s' := by
  obtain ⟨hk,hc,hx⟩ := h
  obtain ⟨hlog,hkept,_,hown⟩ := hr
  refine ⟨hkept hk,hown ▸ hc,?_⟩
  match hrec : x.1 with
  | .item rec =>
    rw [hrec] at hx
    exact ⟨getElem?_of_grows hlog hx.1,hx.2⟩
  | .empty =>
    rw [hrec] at hx
    exact hx
  | .overrun skipped =>
    rw [hrec] at hx
    exact hx

/-- The oldest position that the loaded write position leaves resident is no older than
the one that an informed consumer knew of. -/
theorem resync_delivers {cursor stamp : ℕ} (hk : (protocol C W).Kept s.log s.mem)
    (hc : s.own.cursor = some cursor) (hs : s.own.stamp = some stamp) (hne : stamp ≠ cursor) :
    Meets (subscriber i ok) (resync C cursor) (Delivered ok cursor) s := by
  refine subscriber_load hk fun s₁ n e h₁ => Meets.done fun s₂ h₂ => ?_
  apply Delivered.stable _ h₂
  refine ⟨h₁.kept,by rw [h₁.own, Own.cursor_next, hc],fun hinformed => ?_⟩
  have hknown : cursor ≤ (s.mem.view (.consumer i)).known .write-C.slots :=
    hinformed _ _ h₁.ok cursor hc stamp hs hne
  have hvalue : e.value = n := h₁.promise.1
  have hle : cursor ≤ n-C.slots := hknown.trans (Nat.sub_le_sub_right h₁.known_le _)
  change e.value-C.slots = cursor+(e.value-C.slots-cursor)
  rw [hvalue]
  exact (Nat.add_sub_of_le hle).symm

/-- How a consumer's part of the world moves on while it loads words. -/
structure After (i : ℕ) (s s' : Weak C W Own) : Prop where
  log_prefix : s.log <+: s'.log
  kept : (protocol C W).Kept s'.log s'.mem
  pending_le : (s.mem.view (.consumer i)).pending ≤ (s'.mem.view (.consumer i)).pending
  cursor_eq : s'.own.cursor = s.own.cursor

theorem After.refl (h : (protocol C W).Kept s.log s.mem) : After i s s := ⟨List.prefix_rfl,h,le_rfl,rfl⟩

theorem After.trans {s'' : Weak C W Own} (h : After i s s') (h' : After i s' s'') : After i s s'' :=
  ⟨h.log_prefix.trans h'.log_prefix,h'.kept,h.pending_le.trans h'.pending_le,h'.cursor_eq.trans h.cursor_eq⟩

/-- The busy mark past generation `g` of slot `j` is not among what an `Acquire` fence would
make known. -/
def Current (i : ℕ) (j : Fin C.slots) (g : ℕ) (s : Weak C W Own) : Prop :=
  (s.mem.view (.consumer i)).pending (.stamp j) < 2*g+3

/-- (R2) The words loaded are those of generation `g`, unless one of them reveals a later
generation. -/
theorem loadWords_delivers {j : Fin C.slots} {g : ℕ} {rec : Record W} {f : Record W → Code C W α}
    (ks : List (Fin W)) {rest : Record W} (hk : (protocol C W).Kept s.log s.mem)
    (hg : ∀ k, g+1 ≤ (s.mem.view (.consumer i)).known (.word j k)) (hl : s.log[position j g]? = some rec)
    (hr : Current i j g s → ∀ k, k ∉ ks → rest k = rec k)
    (hf : ∀ s' rec', After i s s' → (Current i j g s' → rec' = rec) → Meets (subscriber i ok) (f rec') Q s') :
    Meets (subscriber i ok) (loadWords C j ks rest >>= f) Q s := by
  induction ks generalizing s rest with
  | nil => exact hf s rest (.refl hk) fun hc => funext fun k => hr hc k List.not_mem_nil
  | cons k ks ih =>
    rw [loadWords, Program.bind_assoc]
    refine subscriber_load hk fun s₁ n e h₁ => ?_
    have hafter : After i s s₁ :=
      ⟨h₁.log_prefix,h₁.kept,h₁.pending_mono,by rw [h₁.own, Own.cursor_next]⟩
    have hl₁ := getElem?_of_grows h₁.log_prefix hl
    apply ih h₁.kept (fun k' => (hg k').trans (h₁.known_mono _)) hl₁
    · intro hc k' hk'
      by_cases heq : k' = k
      · subst k'
        have hle := (hg k).trans h₁.known_le
        obtain ⟨⟨rec',hrec',hv⟩,hmark⟩ := h₁.promise (n-1) (by omega)
        have hpending : e.know (.stamp j) ≤ (s₁.mem.view (.consumer i)).pending (.stamp j) := h₁.pending (.stamp j)
        unfold Current at hc
        obtain rfl : g = n-1 := by omega
        rw [Function.update_self, hv, Option.some.inj (hrec'.symm.trans hl₁)]
      · rw [Function.update_of_ne heq]
        exact hr ((h₁.pending_mono (.stamp j)).trans_lt hc) k' (by simp [heq, hk'])
    · exact fun s' rec' h' => hf s' rec' (hafter.trans h')

/-- One receive keeps its promise, whichever entries its loads pick. -/
theorem tryRecv_delivers {cursor : ℕ} (hk : (protocol C W).Kept s.log s.mem) (hc : s.own.cursor = some cursor) :
    Meets (subscriber i ok) (tryRecv C cursor) (Delivered ok cursor) s := by
  refine subscriber_load hk fun s₀ n₀ e₀ h₀ => ?_
  obtain ⟨hvalue,hlen,hbound⟩ : e₀.value = n₀ ∧ n₀ ≤ s₀.log.length ∧ n₀ < 2^63 := h₀.promise
  have hc₀ : s₀.own.cursor = some cursor := by rw [h₀.own, Own.cursor_next, hc]
  rw [hvalue]
  split_ifs with hempty
  · exact Meets.done fun s' h' => Delivered.stable ⟨h₀.kept,hc₀,rfl⟩ h'
  refine subscriber_load h₀.kept fun s₁ n₁ e₁ h₁ => ?_
  have hc₁ : s₁.own.cursor = some cursor := by rw [h₁.own, Own.cursor_next, hc₀]
  split_ifs with hs₁
  · exact resync_delivers h₁.kept hc₁ (by rw [h₁.own]; rfl) hs₁
  have hcursor : cursor < 2^63 := by omega
  have hfirst : StampPromise (C.slotOf cursor) n₁ e₁.value e₁.know := h₁.promise
  have hn₁ := hfirst.published (not_not.mp hs₁) hcursor
  have hwords : ∀ k, cursor/C.slots+1 ≤ (s₁.mem.view (.consumer i)).known (.word (C.slotOf cursor) k) := fun k =>
    ((hfirst.2.2 _ hn₁).2 k).trans (h₁.acquired _)
  have hlt : cursor < s₁.log.length := by
    have hle := h₁.log_prefix.length_le
    omega
  have hrec : s₁.log[position (C.slotOf cursor) (cursor/C.slots)]? = some s₁.log[cursor] := by
    rw [position_slotOf, List.getElem?_eq_getElem hlt]
  refine loadWords_delivers (List.finRange W) h₁.kept hwords hrec (by simp) fun s₂ rec h₂ hwhole => ?_
  refine subscriber_fence h₂.kept fun s₃ hl₃ hk₃ hv₃ ho₃ => subscriber_load hk₃ fun s₄ n₄ e₄ h₄ => ?_
  have hc₄ : s₄.own.cursor = some cursor := by
    rw [h₄.own, Own.cursor_next, ho₃, Own.cursor_next, h₂.cursor_eq, hc₁]
  split_ifs with hs₂
  · exact resync_delivers h₄.kept hc₄ (by rw [h₄.own]; rfl) hs₂
  · -- The stamp loaded last is still that of `cursor`, so no word has revealed a later mark.
    have hlast : StampPromise (C.slotOf cursor) n₄ e₄.value e₄.know := h₄.promise
    have hn₄ := hlast.published (not_not.mp hs₂) hcursor
    have hpending : (s₂.mem.view (.consumer i)).pending (.stamp (C.slotOf cursor)) ≤
        (s₃.mem.view (.consumer i)).known (.stamp (C.slotOf cursor)) := by
      rw [hv₃]
      exact View.pending_le_acquire _
    have hcurrent : Current i (C.slotOf cursor) (cursor/C.slots) s₂ := by
      have hle := h₄.known_le
      unfold Current
      omega
    have hmod : (cursor+1) % 2^64 = cursor+1 := Nat.mod_eq_of_lt (by omega)
    have hlog : s₄.log[cursor]? = some rec := by
      rw [position_slotOf] at hrec
      rw [hwhole hcurrent]
      exact getElem?_of_grows (h₂.log_prefix.trans (hl₃.trans h₄.log_prefix)) hrec
    exact Meets.done fun s' h' => Delivered.stable ⟨h₄.kept,hc₄,hlog,hmod⟩ h'

end Consumer
end LowLatencyLob.Ring
