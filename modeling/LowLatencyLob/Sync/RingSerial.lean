import LowLatencyLob.Concurrency.Serial
import LowLatencyLob.Sync.RingRuns

/-! A ring whose calls do not overlap is a window on the log of the pushed records.

What one consumer receives is a function of the log and of its own cursor. Between calls
the slots hold the newest records of the log, each under the stamp of its position. -/
namespace LowLatencyLob.Ring
open Concurrency

section Window
variable {W cap n c : ℕ} {L : List (Record W)}

/-- What a receive at `c` returns, and the cursor that it leaves: of the log `L` the newest
`cap` records can be read. -/
def windowed (cap : ℕ) (L : List (Record W)) (c : ℕ) : Recv W × ℕ :=
  match L[c]? with
  | none => (.empty,c)
  | some rec => if L.length ≤ c+cap then (.item rec,c+1) else (.overrun (L.length-cap-c),L.length-cap)

/-- What `n` receives from the cursor `c` return, and the cursor that they leave. -/
def receives (cap : ℕ) (L : List (Record W)) : ℕ → ℕ → List (Recv W) × ℕ
  | 0, c => ([],c)
  | n+1, c =>
    let (r,c) := windowed cap L c
    let (rs,c) := receives cap L n c
    (r :: rs,c)

/-- The newest `k` records, oldest first. -/
def newest (k : ℕ) (L : List (Record W)) : List (Record W) := L.drop (L.length-k)

theorem newest_suffix (k : ℕ) (L : List (Record W)) : newest k L <:+ L := List.drop_suffix _ _

theorem length_newest {k : ℕ} (h : k ≤ L.length) : (newest k L).length = k := by
  rw [newest, List.length_drop]
  omega

/-- What a consumer at `c` has still to be told of a log that does not grow. -/
def pending (cap : ℕ) (L : List (Record W)) (c : ℕ) : List (Recv W) :=
  (if c+cap < L.length then [.overrun (L.length-cap-c)] else []) ++
    (newest (min cap (L.length-c)) L).map .item

theorem windowed_of_le (h : L.length ≤ c) : windowed cap L c = (.empty,c) := by
  rw [windowed, List.getElem?_eq_none h]

theorem windowed_of_mem (h : c < L.length) (hcap : L.length ≤ c+cap) : windowed cap L c = (.item L[c],c+1) := by
  rw [windowed, List.getElem?_eq_getElem h]
  exact if_pos hcap

theorem windowed_of_lt (h : c+cap < L.length) :
    windowed cap L c = (.overrun (L.length-cap-c),L.length-cap) := by
  have hc : c < L.length := by omega
  rw [windowed, List.getElem?_eq_getElem hc]
  exact if_neg (by omega)

theorem pending_of_le (h : L.length ≤ c) : pending cap L c = [] := by
  rw [pending, newest, if_neg (by omega), List.drop_eq_nil_of_le (by omega)]
  rfl

theorem pending_of_mem (h : c < L.length) (hcap : L.length ≤ c+cap) :
    pending cap L c = .item L[c] :: pending cap L (c+1) := by
  have hc : L.length-min cap (L.length-c) = c := by omega
  have hc' : L.length-min cap (L.length-(c+1)) = c+1 := by omega
  rw [pending, pending, newest, newest, if_neg (by omega), if_neg (by omega), hc, hc',
    List.drop_eq_getElem_cons h]
  rfl

theorem pending_of_lt (h : c+cap < L.length) :
    pending cap L c = .overrun (L.length-cap-c) :: pending cap L (L.length-cap) := by
  have hc : min cap (L.length-(L.length-cap)) = min cap (L.length-c) := by omega
  rw [pending, pending, if_pos h, if_neg (by omega), hc]
  rfl

/-- A consumer is told what is pending, and then that there is nothing new. -/
theorem receives_eq {N : ℕ} (h : n ≤ N) :
    (receives cap L n c).1 = (pending cap L c ++ List.replicate N Recv.empty).take n := by
  induction n generalizing c N with
  | zero => rfl
  | succ n ih =>
    have hstep : (receives cap L (n+1) c).1 = (windowed cap L c).1 :: (receives cap L n (windowed cap L c).2).1 := rfl
    rw [hstep]
    by_cases hle : L.length ≤ c
    · obtain ⟨N,rfl⟩ : ∃ N', N = N'+1 := ⟨N-1,by omega⟩
      have hih := @ih c N (by omega)
      rw [pending_of_le hle, List.nil_append] at hih
      rw [windowed_of_le hle, pending_of_le hle, List.nil_append, List.replicate_succ, List.take_succ_cons, hih]
    · have hN : n ≤ N := by omega
      by_cases hcap : L.length ≤ c+cap
      · rw [windowed_of_mem (by omega) hcap, pending_of_mem (by omega) hcap, List.cons_append,
          List.take_succ_cons, ih hN]
      · rw [windowed_of_lt (by omega), pending_of_lt (by omega), List.cons_append, List.take_succ_cons, ih hN]

/-- One more receive goes on from the cursor that the others left. -/
theorem receives_succ (cap : ℕ) (L : List (Record W)) (n c : ℕ) :
    receives cap L (n+1) c = ((receives cap L n c).1 ++ [(windowed cap L (receives cap L n c).2).1],
      (windowed cap L (receives cap L n c).2).2) := by
  induction n generalizing c with
  | zero => rfl
  | succ n ih =>
    have hstep : ∀ n c, receives cap L (n+1) c =
        ((windowed cap L c).1 :: (receives cap L n (windowed cap L c).2).1,
          (receives cap L n (windowed cap L c).2).2) := fun _ _ => rfl
    rw [hstep (n+1), ih, hstep n]
    rfl

theorem windowed_empty_iff : windowed cap L c = (.empty,c) ↔ L.length ≤ c := by
  refine ⟨fun h => ?_,windowed_of_le⟩
  by_contra hlt
  by_cases hcap : L.length ≤ c+cap
  · rw [windowed_of_mem (by omega) hcap] at h
    cases h
  · rw [windowed_of_lt (by omega)] at h
    cases h

theorem windowed_item_iff {rec : Record W} :
    windowed cap L c = (.item rec,c+1) ↔ (c < L.length ∧ L.length ≤ c+cap) ∧ L[c]? = some rec := by
  constructor
  · intro h
    by_cases hle : L.length ≤ c
    · rw [windowed_of_le hle] at h
      cases h
    by_cases hcap : L.length ≤ c+cap
    · rw [windowed_of_mem (by omega) hcap] at h
      cases h
      exact ⟨⟨by omega,hcap⟩,List.getElem?_eq_getElem _⟩
    · rw [windowed_of_lt (by omega)] at h
      cases h
  · rintro ⟨⟨hc,hcap⟩,hrec⟩
    rw [List.getElem?_eq_getElem hc, Option.some_inj] at hrec
    rw [windowed_of_mem hc hcap, hrec]

theorem windowed_overrun_iff :
    windowed cap L c = (.overrun (L.length-cap-c),L.length-cap) ↔ c+cap < L.length := by
  refine ⟨fun h => ?_,windowed_of_lt⟩
  by_contra hcap
  by_cases hle : L.length ≤ c
  · rw [windowed_of_le hle] at h
    cases h
  · rw [windowed_of_mem (by omega) (by omega)] at h
    cases h

end Window
section Alone
variable {C : Capacity} {W : ℕ} {t : Thread} {α β : Type} {s : Shared C W} {x : α} {y : β}

/-- `t` runs `p` alone on the atomics of a ring. -/
def Alone (t : Thread) (m : ∀ l : Loc C W, Val l) (p : Code C W α) (x : α) (m' : ∀ l : Loc C W, Val l) : Prop :=
  ∃ as, Solo (interleaving Thread Val) t m p as x m'

theorem alone_done (m : ∀ l : Loc C W, Val l) (x : α) : Alone t m (.done x) x m :=
  ⟨[],@Solo.done _ _ _ (interleaving Thread Val) t _ m x⟩

theorem Alone.bind {m m₁ m₂ : ∀ l : Loc C W, Val l} {p : Code C W α} {f : α → Code C W β}
    (h : Alone t m p x m₁) (hf : Alone t m₁ (f x) y m₂) : Alone t m (p >>= f) y m₂ := by
  obtain ⟨as,h⟩ := h
  obtain ⟨bs,hf⟩ := hf
  exact ⟨_,h.bind hf⟩

theorem alone_load {m m' : ∀ l : Loc C W, Val l} {l : Loc C W} {o : LoadOrder} {f : Val l → Code C W α}
    (h : Alone t m (f (m l)) x m') : Alone t m (load l o >>= f) x m' := by
  obtain ⟨as,h⟩ := h
  exact ⟨_,.access () rfl h⟩

theorem alone_store {m' : ∀ l : Loc C W, Val l} {l : Loc C W} {v : Val l} {o : StoreOrder}
    {f : Unit → Code C W α} (h : Alone t (s.act (.store l v o)).mem (f ()) x m') :
    Alone t s.mem (store l v o >>= f) x m' := by
  obtain ⟨as,h⟩ := h
  exact ⟨_,.access () rfl h⟩

theorem alone_fence {m m' : ∀ l : Loc C W, Val l} {o : FenceOrder} {f : Unit → Code C W α}
    (h : Alone t m (f ()) x m') : Alone t m (fence o >>= f) x m' := by
  obtain ⟨as,h⟩ := h
  exact ⟨_,.access () rfl h⟩

/-- (P2) fills the slot and touches nothing else. -/
theorem storeWords_alone (s : Shared C W) (slot : Fin C.slots) (rec : Record W) (ks : List (Fin W)) :
    ∃ s' : Shared C W, Alone t s.mem (storeWords C slot rec ks) () s'.mem ∧ s'.write = s.write ∧
      s'.stamp = s.stamp ∧ (∀ j ≠ slot, s'.words j = s.words j) ∧
      ∀ k, s'.words slot k = if k ∈ ks then rec k else s.words slot k := by
  induction ks generalizing s with
  | nil => exact ⟨s,alone_done _ _,rfl,rfl,fun _ _ => rfl,by simp⟩
  | cons k ks ih =>
    obtain ⟨s',ha,hwrite,hstamp,hother,hslot⟩ := ih (s.act (.store (.word slot k) (rec k) .relaxed))
    refine ⟨s',alone_store ha,?_,?_,?_,?_⟩
    · rw [hwrite, Shared.write_store_word]
    · rw [hstamp]
      funext j
      exact Shared.stamp_store_word ..
    · intro j hj
      rw [hother j hj, Shared.words_store_word_other s .relaxed hj]
    · intro j
      rw [hslot j, Shared.words_store_word]
      by_cases hj : j = k
      · subst j
        simp
      · simp [hj]

/-- A push that is not interrupted writes one slot and moves the write position. -/
theorem push_alone (s : Shared C W) (rec : Record W) :
    ∃ s' : Shared C W, Alone t s.mem (push C rec) () s'.mem ∧ s'.write = (s.write+1) % 2^64 ∧
      (∀ j, s'.stamp j = if j = C.slotOf s.write then s.write else s.stamp j) ∧
      ∀ j, s'.words j = if j = C.slotOf s.write then rec else s.words j := by
  obtain ⟨s₂,ha,hwrite,hstamp,hother,hslot⟩ := storeWords_alone (t := t)
    (s.act (.store (.stamp (C.slotOf s.write)) (s.write ||| WRITING) .relaxed)) (C.slotOf s.write) rec
    (List.finRange W)
  let s₃ := s₂.act (.store (.stamp (C.slotOf s.write)) s.write .release)
  have hlast : Alone t s₃.mem (store .write ((s.write+1) % 2^64) .release) ()
      (s₃.act (.store .write ((s.write+1) % 2^64) .release)).mem := by
    change Alone t _ (store .write ((s.write+1) % 2^64) .release >>= Program.done) () _
    exact alone_store (alone_done _ _)
  refine ⟨s₃.act (.store .write ((s.write+1) % 2^64) .release),?_,Shared.write_store_write ..,?_,?_⟩
  · exact alone_load (alone_store (alone_fence (ha.bind (alone_store hlast))))
  · intro j
    rw [Shared.stamp_store_write, Shared.stamp_store_stamp, hstamp, Shared.stamp_store_stamp]
    split_ifs <;> rfl
  · intro j
    rw [Shared.words_store_write, Shared.words_store_stamp]
    split_ifs with hj
    · subst j
      funext k
      simp [hslot k]
    · rw [hother j hj, Shared.words_store_stamp]

/-- (R2) Nothing changes while the words are loaded. -/
theorem loadWords_alone (s : Shared C W) (slot : Fin C.slots) (ks : List (Fin W)) (rest : Record W) :
    Alone t s.mem (loadWords C slot ks rest) (fun k => if k ∈ ks then s.words slot k else rest k) s.mem := by
  induction ks generalizing rest with
  | nil => exact alone_done _ _
  | cons k ks ih =>
    have hrest := ih (Function.update rest k (s.words slot k))
    have hval : (fun j => if j ∈ ks then s.words slot j else Function.update rest k (s.words slot k) j) =
        fun j => if j ∈ k :: ks then s.words slot j else rest j := by
      funext j
      by_cases hj : j = k
      · subst j
        simp
      · simp [hj]
    rw [hval] at hrest
    exact alone_load hrest

/-- Between calls: the newest records stand in their slots, under their positions. -/
structure Exact (s : Shared C W) : Prop where
  write_eq : s.write = s.log.length
  stamp_eq : ∀ p < s.write, s.write ≤ p+C.slots → s.stamp (C.slotOf p) = p
  words_eq : ∀ p < s.write, s.write ≤ p+C.slots → s.log[p]? = some (s.words (C.slotOf p))

theorem Exact.push (h : Exact s) (hb : s.log.length+1 < 2^64) (rec : Record W) :
    ∃ m', Alone t s.mem (push C rec) () m' ∧ Exact ⟨s.log ++ [rec],m',false⟩ := by
  obtain ⟨s',ha,hwrite,hstamp,hwords⟩ := push_alone (t := t) s rec
  have hw := h.write_eq
  rw [Nat.mod_eq_of_lt (by omega)] at hwrite
  -- The window of the longer log has no other position in the slot just written.
  have hslot : ∀ p < s.write, s.write+1 ≤ p+C.slots → C.slotOf p ≠ C.slotOf s.write := by
    intro p hp hcap heq
    have hle := C.add_slots_le heq hp
    omega
  refine ⟨s'.mem,ha,?_,?_,?_⟩
  · change s'.write = _
    rw [hwrite, List.length_append, hw]
    rfl
  · intro p hp hcap
    change p < s'.write at hp
    change s'.write ≤ _ at hcap
    change s'.stamp _ = p
    rw [hwrite] at hp hcap
    rw [hstamp]
    rcases Nat.lt_succ_iff_lt_or_eq.mp hp with hlt | rfl
    · rw [if_neg (hslot p hlt hcap)]
      exact h.stamp_eq p hlt (by omega)
    · exact if_pos rfl
  · intro p hp hcap
    change p < s'.write at hp
    change s'.write ≤ _ at hcap
    change (s.log ++ [rec])[p]? = some (s'.words _)
    rw [hwrite] at hp hcap
    rw [hwords]
    rcases Nat.lt_succ_iff_lt_or_eq.mp hp with hlt | rfl
    · rw [if_neg (hslot p hlt hcap), List.getElem?_append_left (by omega)]
      exact h.words_eq p hlt (by omega)
    · rw [if_pos rfl, hw, List.getElem?_concat_length]

/-- Past the window a slot has been written again since. -/
theorem Exact.stamp_ne (h : Exact s) {c : ℕ} (hc : c+C.slots < s.write) : s.stamp (C.slotOf c) ≠ c := by
  have hpos := C.slots_pos
  have hmod := Nat.mod_lt (s.write-1-c) hpos
  have hdiv := Nat.div_add_mod (s.write-1-c) C.slots
  generalize (s.write-1-c)/C.slots = k at hdiv
  have hslot : C.slotOf (c+C.slots*k) = C.slotOf c := by
    rw [C.slotOf_eq_iff, Nat.add_mul_mod_self_left]
  have hstamp := h.stamp_eq (c+C.slots*k) (by omega) (by omega)
  rw [hslot] at hstamp
  omega

/-- A receive that is not interrupted reads the window, and changes nothing. -/
theorem Exact.tryRecv (h : Exact s) (hb : s.log.length < 2^63) (c : ℕ) :
    Alone t s.mem (tryRecv C c) (windowed C.slots s.log c) s.mem := by
  have hw := h.write_eq
  refine alone_load ?_
  change Alone t s.mem (if c ≥ s.write then _ else _) _ _
  by_cases hempty : s.log.length ≤ c
  · rw [if_pos (hw ▸ hempty), windowed_of_le hempty]
    exact alone_done _ _
  rw [if_neg (by omega)]
  refine alone_load ?_
  change Alone t s.mem (if s.stamp (C.slotOf c) ≠ c then _ else _) _ _
  by_cases hcap : s.log.length ≤ c+C.slots
  · have hstamp := h.stamp_eq c (by omega) (by omega)
    have hwords := h.words_eq c (by omega) (by omega)
    rw [if_neg (by rw [hstamp]; exact not_not.mpr rfl)]
    have hload := loadWords_alone (t := t) s (C.slotOf c) (List.finRange W) (fun _ => 0)
    refine hload.bind (alone_fence (alone_load ?_))
    change Alone t s.mem (if s.stamp (C.slotOf c) ≠ c then _ else _) _ _
    rw [if_neg (by rw [hstamp]; exact not_not.mpr rfl), windowed_of_mem (by omega) hcap]
    have hrec : s.log[c] = fun k => if k ∈ List.finRange W then s.words (C.slotOf c) k else 0 := by
      rw [List.getElem?_eq_getElem (by omega), Option.some_inj] at hwords
      rw [hwords]
      funext k
      rw [if_pos (List.mem_finRange k)]
    have hnext : (c+1) % 2^64 = c+1 := Nat.mod_eq_of_lt (by omega)
    rw [hrec, hnext]
    exact alone_done _ _
  · rw [if_pos (h.stamp_ne (by omega)), windowed_of_lt (by omega)]
    refine alone_load ?_
    change Alone t s.mem (.done (Recv.overrun (s.write-C.slots-c),s.write-C.slots)) _ _
    rw [hw]
    exact alone_done _ _

end Alone
section Calls
variable {C : Capacity} {W c i : ℕ} {t : Thread} {tr tr' : (system C W).Trace} {cfg cfg' : (system C W).Config}

theorem pushed_accesses (t : Thread) (as : List (Σ a, @Access.Result (Loc C W) Val a)) (tr : List (RingEvent C W)) :
    pushed (accesses t as ++ tr) = pushed tr := by
  rw [accesses, ← List.map_reverse]
  induction as.reverse with
  | nil => rfl
  | cons y ys ih => exact ih

theorem outs_accesses (t : Thread) (i : ℕ) (as : List (Σ a, @Access.Result (Loc C W) Val a))
    (tr : List (RingEvent C W)) : outs i (accesses t as ++ tr) = outs i tr := by
  rw [accesses, ← List.map_reverse]
  induction as.reverse with
  | nil => rfl
  | cons y ys ih => exact ih

/-- What a complete call adds to the log and to the history of a consumer. -/
theorem pushed_complete (t : Thread) (o : Out W) (as : List (Σ a, @Access.Result (Loc C W) Val a)) (x : Call W)
    (tr : List (RingEvent C W)) : pushed (.ret t o :: accesses t as ++ .call t x :: tr) = pushed (.call t x :: tr) :=
  pushed_accesses t as _

theorem outs_complete (t : Thread) (o : Out W) (as : List (Σ a, @Access.Result (Loc C W) Val a)) (x : Call W)
    (tr : List (RingEvent C W)) (i : ℕ) : outs i (.ret t o :: accesses t as ++ .call t x :: tr) =
      outs i tr ++ if t = .consumer i then [o] else [] := by
  by_cases ht : t = .consumer i
  · subst t
    rw [List.cons_append, outs_ret_self, outs_accesses, if_pos rfl]
    rfl
  · rw [List.cons_append, outs_cons_other (e := .ret t o) ht, outs_accesses, if_neg ht, List.append_nil]
    rfl

/-- What a consumer has been told by its receives. -/
def heard (os : List (Out W)) : List (Recv W) :=
  os.filterMap fun o => match o with
    | .received _ r _ => some r
    | _ => none

/-- A call whose code has been run alone completes. -/
theorem completes_of_alone {l l' : Holder} {x : Call W} {p : Code C W (Holder × Out W)} {o : Out W}
    {m : ∀ l : Loc C W, Val l} (hl : cfg.threads t = .idle l) (hp : (object C W).code l x = some p)
    (ha : Alone t cfg.mem p (l',o) m) : System.Completes cfg t x l' o m := by
  obtain ⟨as,hs⟩ := ha
  exact System.completes_of_solo interleaving_settled hl hp hs

theorem heard_complete (i c c' : ℕ) (r : Recv W) (as : List (Σ a, @Access.Result (Loc C W) Val a)) (x : Call W)
    (tr : List (RingEvent C W)) :
    heard (outs i (.ret (.consumer i) (.received c r c') :: accesses (.consumer i) as ++ .call (.consumer i) x :: tr)) =
      heard (outs i tr) ++ [r] := by
  rw [outs_complete, if_pos rfl, heard, List.filterMap_append]
  rfl

/-- Between the calls of a serial run. -/
structure Between (tr : (system C W).Trace) (cfg : (system C W).Config) : Prop where
  exact : Exact (⟨pushed tr,cfg.mem,false⟩ : Shared C W)
  producer : cfg.threads .producer = .idle .producer
  consumer : ∀ i, cfg.threads (.consumer i) = .idle .handle ∨
    ∃ c, cfg.threads (.consumer i) = .idle (.consumer c)

theorem between_start : Between (C := C) (W := W) [] (system C W).init where
  exact := ⟨rfl,fun p hp => absurd hp (Nat.not_lt_zero p),fun p hp => absurd hp (Nat.not_lt_zero p)⟩
  producer := rfl
  consumer _ := .inl rfl

namespace Between
variable (h : Between tr cfg)
include h

theorem push_completes (hb : (pushed tr).length+1 < 2^64) (rec : Record W) :
    ∃ m, System.Completes cfg .producer (.push rec) .producer .pushed m ∧
      Exact (⟨pushed tr ++ [rec],m,false⟩ : Shared C W) := by
  obtain ⟨m,ha,hm⟩ := h.exact.push (t := .producer) hb rec
  exact ⟨m,completes_of_alone h.producer rfl (ha.bind (alone_done _ _)),hm⟩

theorem joins_live (hl : cfg.threads (.consumer i) = .idle .handle) :
    System.Completes cfg (.consumer i) .consumer (.consumer (pushed tr).length)
      (.joined (pushed tr).length) cfg.mem := by
  have hw : cfg.mem .write = (pushed tr).length := h.exact.write_eq
  rw [← hw]
  exact completes_of_alone hl rfl (alone_load (alone_done _ _))

theorem joins_oldest (hl : cfg.threads (.consumer i) = .idle .handle) :
    System.Completes cfg (.consumer i) .consumerFromOldest (.consumer ((pushed tr).length-C.slots))
      (.joined ((pushed tr).length-C.slots)) cfg.mem := by
  have hw : cfg.mem .write = (pushed tr).length := h.exact.write_eq
  have hload : Alone (.consumer i) cfg.mem (consumerFromOldest C) (cfg.mem .write-C.slots) cfg.mem :=
    alone_load (alone_done _ _)
  rw [← hw]
  exact completes_of_alone hl rfl (hload.bind (alone_done _ _))

theorem receives_windowed (hb : (pushed tr).length < 2^63)
    (hl : cfg.threads (.consumer i) = .idle (.consumer c)) :
    System.Completes cfg (.consumer i) .tryRecv (.consumer (windowed C.slots (pushed tr) c).2)
      (.received c (windowed C.slots (pushed tr) c).1 (windowed C.slots (pushed tr) c).2) cfg.mem :=
  completes_of_alone hl rfl ((h.exact.tryRecv hb c).bind (alone_done _ _))

/-- A call of a consumer leaves the log and the memory as they are. -/
theorem quiet {o : Out W} {as : List (Σ a, @Access.Result (Loc C W) Val a)} {x : Call W} {l : Holder}
    (hx : ∀ rec, x ≠ .push rec) (hl : l = .handle ∨ ∃ c, l = .consumer c) :
    Between (.ret (.consumer i) o :: accesses (.consumer i) as ++ .call (.consumer i) x :: tr)
      (cfg.advance (.consumer i) (.idle l) cfg.mem) where
  exact := by
    rw [pushed_complete, pushed_cons (e := .call (.consumer i) x) fun t rec he => hx rec (by cases he; rfl)]
    exact h.exact
  producer := (System.Config.threads_set_other _ (by simp) _).trans h.producer
  consumer j := by
    by_cases hj : j = i
    · subst j
      rcases hl with rfl | ⟨c,rfl⟩
      · exact .inl (System.Config.threads_set_self _ _ _)
      · exact .inr ⟨c,System.Config.threads_set_self _ _ _⟩
    · have hother : (cfg.advance (.consumer i) (.idle l) cfg.mem).threads (.consumer j) = cfg.threads (.consumer j) :=
        System.Config.threads_set_other _ (by simpa using hj) _
      rw [hother]
      exact h.consumer j

/-- The next call of a serial run, whoever makes it. -/
theorem call {l l' : Holder} {x : Call W} {p : Code C W (Holder × Out W)} {o : Out W}
    {as : List (Σ a, @Access.Result (Loc C W) Val a)} {m : ∀ l : Loc C W, Val l}
    (hb : (pushed (.call t x :: tr)).length < 2^63) (hl : cfg.threads t = .idle l)
    (hp : (object C W).code l x = some p) (hs : Solo (interleaving Thread Val) t cfg.mem p as (l',o) m) :
    Between (.ret t o :: accesses t as ++ .call t x :: tr) (cfg.advance t (.idle l') m) := by
  cases t with
  | producer =>
    obtain rfl : l = .producer := by
      rw [h.producer] at hl
      cases hl
      rfl
    cases x with
    | push rec =>
      have hlen : (pushed tr).length+1 < 2^63 := by simpa [pushed] using hb
      obtain ⟨m',hc,hm⟩ := h.push_completes (by omega) rec
      obtain ⟨hx,rfl⟩ := hc.only _ _ _ _ _ hl hp hs
      cases hx
      refine ⟨?_,System.Config.threads_set_self _ _ _,fun j => ?_⟩
      · rw [pushed_complete]
        exact hm
      · have hother : (cfg.advance .producer (.idle .producer) m).threads (.consumer j) = cfg.threads (.consumer j) :=
          System.Config.threads_set_other _ (by simp) _
        rw [hother]
        exact h.consumer j
    | _ => cases hp
  | consumer i =>
    have hlen := pushed_tail _ _ hb
    rcases h.consumer i with hi | ⟨c,hi⟩
    · obtain rfl : l = .handle := by
        rw [hi] at hl
        cases hl
        rfl
      cases x with
      | consumer =>
        obtain ⟨hx,rfl⟩ := (h.joins_live hi).only _ _ _ _ _ hl hp hs
        cases hx
        exact h.quiet (by simp) (.inr ⟨_,rfl⟩)
      | consumerFromOldest =>
        obtain ⟨hx,rfl⟩ := (h.joins_oldest hi).only _ _ _ _ _ hl hp hs
        cases hx
        exact h.quiet (by simp) (.inr ⟨_,rfl⟩)
      | _ => cases hp
    · obtain rfl : l = .consumer c := by
        rw [hi] at hl
        cases hl
        rfl
      cases x with
      | tryRecv =>
        obtain ⟨hx,rfl⟩ := (h.receives_windowed hlen hi).only _ _ _ _ _ hl hp hs
        cases hx
        exact h.quiet (by simp) (.inr ⟨_,rfl⟩)
      | _ => cases hp

end Between
/-- The log only grows along a serial run. -/
theorem serial_pushed (h : System.Serial tr cfg tr' cfg') : pushed tr <+: pushed tr' := by
  induction h with
  | start => exact List.prefix_rfl
  | call h hl hp hs ih =>
    rw [pushed_complete]
    exact ih.trans (pushed_grows _ _)

theorem Between.serial (h : Between tr cfg) (hs : System.Serial tr cfg tr' cfg')
    (hb : (pushed tr').length < 2^63) : Between tr' cfg' := by
  induction hs with
  | start => exact h
  | call hrun hl hp hs ih =>
    rw [pushed_complete] at hb
    exact (ih (pushed_tail _ _ hb)).call hb hl hp hs

/-- While nothing is pushed, the results of a consumer are those of its own receives,
whatever the other consumers do in between. -/
theorem Between.undisturbed (h : Between tr cfg) (hb : (pushed tr).length < 2^63)
    (hl : cfg.threads (.consumer i) = .idle (.consumer c)) (hs : System.Serial tr cfg tr' cfg')
    (hq : pushed tr' = pushed tr) :
    ∃ n, cfg'.threads (.consumer i) = .idle (.consumer (receives C.slots (pushed tr) n c).2) ∧
      heard (outs i tr') = heard (outs i tr) ++ (receives C.slots (pushed tr) n c).1 := by
  induction hs with
  | start => exact ⟨0,hl,(List.append_nil _).symm⟩
  | @call tr₁ cfg₁ t l l' x p o as m hrun hl₁ hp hs ih =>
    rw [pushed_complete] at hq
    have hq₁ : pushed tr₁ = pushed tr := by
      have hle := (serial_pushed hrun).length_le
      have hge := (pushed_grows (.call t x) tr₁).length_le
      rw [hq] at hge
      exact ((serial_pushed hrun).eq_of_length (by omega)).symm
    obtain ⟨n,hidle,htold⟩ := ih hq₁
    have hbetween := h.serial hrun (hq₁ ▸ hb)
    by_cases ht : t = .consumer i
    · subst t
      rw [hidle] at hl₁
      cases hl₁
      cases x with
      | tryRecv =>
        have hrecv := hbetween.receives_windowed (hq₁ ▸ hb) hidle
        rw [hq₁] at hrecv
        obtain ⟨hx,rfl⟩ := hrecv.only _ _ _ _ _ hidle hp hs
        cases hx
        refine ⟨n+1,?_,?_⟩
        · rw [receives_succ]
          exact System.Config.threads_set_self _ _ _
        · rw [heard_complete, receives_succ, htold, List.append_assoc]
      | _ => cases hp
    · refine ⟨n,?_,?_⟩
      · rw [← hidle]
        exact System.Config.threads_set_other _ (Ne.symm ht) _
      · rw [outs_complete, if_neg ht, List.append_nil, htold]

/-- A consumer can receive as often as it likes. -/
theorem Between.repeats (h : Between tr cfg) (hb : (pushed tr).length < 2^63)
    (hl : cfg.threads (.consumer i) = .idle (.consumer c)) (n : ℕ) :
    ∃ tr' cfg', System.Serial tr cfg tr' cfg' ∧ pushed tr' = pushed tr ∧
      cfg'.threads (.consumer i) = .idle (.consumer (receives C.slots (pushed tr) n c).2) ∧
      heard (outs i tr') = heard (outs i tr) ++ (receives C.slots (pushed tr) n c).1 := by
  induction n with
  | zero => exact ⟨tr,cfg,.start,rfl,hl,(List.append_nil _).symm⟩
  | succ n ih =>
    obtain ⟨tr₁,cfg₁,hrun,hq,hidle,htold⟩ := ih
    have hrecv := (h.serial hrun (hq ▸ hb)).receives_windowed (hq ▸ hb) hidle
    rw [hq] at hrecv
    obtain ⟨as,hnext⟩ := hrecv.serial hrun
    refine ⟨_,_,hnext,?_,?_,?_⟩
    · rw [pushed_complete]
      exact hq
    · rw [receives_succ]
      exact System.Config.threads_set_self _ _ _
    · rw [heard_complete, receives_succ, htold, List.append_assoc]

/-- Operation by operation, a ring after the calls `tr` is a window on the log. -/
structure WindowedLog (tr : (system C W).Trace) (cfg : (system C W).Config) : Prop where
  /-- Every call that its thread may make completes. -/
  pushes : ∀ rec, ∃ m, System.Completes cfg .producer (.push rec) .producer .pushed m
  joins_live : ∀ i, cfg.threads (.consumer i) = .idle .handle →
    System.Completes cfg (.consumer i) .consumer (.consumer (pushed tr).length) (.joined (pushed tr).length) cfg.mem
  joins_oldest : ∀ i, cfg.threads (.consumer i) = .idle .handle →
    System.Completes cfg (.consumer i) .consumerFromOldest (.consumer ((pushed tr).length-C.slots))
      (.joined ((pushed tr).length-C.slots)) cfg.mem
  /-- The three outcomes of a receive. -/
  empty_iff : ∀ i c, cfg.threads (.consumer i) = .idle (.consumer c) →
    (System.Completes cfg (.consumer i) .tryRecv (.consumer c) (.received c .empty c) cfg.mem ↔
      (pushed tr).length ≤ c)
  item_iff : ∀ i c, cfg.threads (.consumer i) = .idle (.consumer c) → ∀ rec,
    (System.Completes cfg (.consumer i) .tryRecv (.consumer (c+1)) (.received c (.item rec) (c+1)) cfg.mem ↔
      (c < (pushed tr).length ∧ (pushed tr).length ≤ c+C.slots) ∧ (pushed tr)[c]? = some rec)
  overrun_iff : ∀ i c, cfg.threads (.consumer i) = .idle (.consumer c) →
    (System.Completes cfg (.consumer i) .tryRecv (.consumer ((pushed tr).length-C.slots))
      (.received c (.overrun ((pushed tr).length-C.slots-c)) ((pushed tr).length-C.slots)) cfg.mem ↔
      c+C.slots < (pushed tr).length)
  /-- A consumer drains to `Empty`: one overrun if it was lapped, then the newest records. -/
  drains : ∀ i c, cfg.threads (.consumer i) = .idle (.consumer c) → ∃ got tr' cfg',
    System.Serial tr cfg tr' cfg' ∧ pushed tr' = pushed tr ∧
      heard (outs i tr') = heard (outs i tr) ++
        ((if c+C.slots < (pushed tr).length then [.overrun ((pushed tr).length-C.slots-c)] else []) ++
          got.map .item ++ [.empty]) ∧
      got <:+ pushed tr ∧ got.length = min C.slots ((pushed tr).length-c)
  /-- While nothing is pushed a consumer is told this, whatever the other consumers do. -/
  undisturbed : ∀ i c, cfg.threads (.consumer i) = .idle (.consumer c) → ∀ tr' cfg',
    System.Serial tr cfg tr' cfg' → pushed tr' = pushed tr → ∃ n,
      heard (outs i tr') = heard (outs i tr) ++
        (pending C.slots (pushed tr) c ++ List.replicate n Recv.empty).take n

/-- A consumer between its calls: which outcome a receive has. -/
theorem Between.outcome_iff (h : Between tr cfg) (hb : (pushed tr).length < 2^63)
    (hl : cfg.threads (.consumer i) = .idle (.consumer c)) (r : Recv W) (c' : ℕ) :
    System.Completes cfg (.consumer i) .tryRecv (.consumer c') (.received c r c') cfg.mem ↔
      windowed C.slots (pushed tr) c = (r,c') := by
  have hrecv := h.receives_windowed hb hl
  constructor
  · intro hc
    obtain ⟨_,ho,_⟩ := hrecv.unique hc
    cases ho
    rfl
  · intro hw
    rw [hw] at hrecv
    exact hrecv

theorem serial_windowed {tr : (system C W).Trace} {cfg : (system C W).Config}
    (h : System.Serial [] (system C W).init tr cfg) (hb : (pushed tr).length < 2^63) : WindowedLog tr cfg := by
  have hbetween := between_start.serial h hb
  constructor
  case pushes =>
    intro rec
    obtain ⟨m,hc,_⟩ := hbetween.push_completes (by omega) rec
    exact ⟨m,hc⟩
  case joins_live => exact fun i => hbetween.joins_live
  case joins_oldest => exact fun i => hbetween.joins_oldest
  case empty_iff => exact fun i c hl => (hbetween.outcome_iff hb hl _ _).trans windowed_empty_iff
  case item_iff => exact fun i c hl rec => (hbetween.outcome_iff hb hl _ _).trans windowed_item_iff
  case overrun_iff => exact fun i c hl => (hbetween.outcome_iff hb hl _ _).trans windowed_overrun_iff
  case drains =>
    intro i c hl
    obtain ⟨tr',cfg',hs,hq,_,htold⟩ := hbetween.repeats hb hl ((pending C.slots (pushed tr) c).length+1)
    rw [receives_eq le_rfl, List.replicate_succ, ← List.singleton_append, ← List.append_assoc,
      List.take_left' (by simp)] at htold
    exact ⟨_,tr',cfg',hs,hq,htold,newest_suffix _ _,length_newest (by omega)⟩
  case undisturbed =>
    intro i c hl tr' cfg' hs hq
    obtain ⟨n,_,htold⟩ := hbetween.undisturbed hb hl hs hq
    rw [receives_eq le_rfl] at htold
    exact ⟨n,htold⟩

/-- On a ring of one slot a consumer joins and two records are pushed: it has been lapped. -/
theorem serial_windowed_lapped : ∃ (tr : (system oneSlot 1).Trace) (cfg : (system oneSlot 1).Config),
    pushed tr = [fun _ => 7,fun _ => 8] ∧ cfg.threads (.consumer 0) = .idle (.consumer 0) ∧
      WindowedLog tr cfg := by
  have hstart := between_start (C := oneSlot) (W := 1)
  obtain ⟨as₁,h₁⟩ := (hstart.joins_live (i := 0) rfl).serial .start
  have hb₁ := hstart.serial h₁ (by rw [pushed_complete]; decide)
  obtain ⟨m₂,hc₂,_⟩ := hb₁.push_completes (by rw [pushed_complete]; decide) fun _ => 7
  obtain ⟨as₂,h₂⟩ := hc₂.serial h₁
  have hlog₂ : pushed (.ret .producer .pushed :: accesses .producer as₂ ++ .call .producer (.push fun _ => 7) ::
      (.ret (.consumer 0) (.joined 0) :: accesses (.consumer 0) as₁ ++ [.call (.consumer 0) .consumer] :
        (system oneSlot 1).Trace)) = [fun _ => 7] := by
    rw [pushed_complete]
    exact congrArg (· ++ [fun _ => 7]) (pushed_complete ..)
  have hb₂ := hstart.serial h₂ (hlog₂ ▸ by decide)
  obtain ⟨m₃,hc₃,_⟩ := hb₂.push_completes (hlog₂ ▸ by decide) fun _ => 8
  obtain ⟨as₃,h₃⟩ := hc₃.serial h₂
  have hlog₃ : pushed _ = [fun _ => 7,fun _ => 8] :=
    (pushed_complete .producer .pushed as₃ (.push fun _ => 8) _).trans (congrArg (· ++ [fun _ => 8]) hlog₂)
  exact ⟨_,_,hlog₃,rfl,serial_windowed h₃ (hlog₃ ▸ by decide)⟩

end Calls
end LowLatencyLob.Ring
