import LowLatencyLob.Sync.RingMessages

/-! Whole runs of a ring over a memory of messages: one producer, any number of consumers,
each access with no more ordering than it asks for. -/
namespace LowLatencyLob.Ring
open Concurrency

/-- One producer and any number of consumers around a ring of capacity `C`. -/
abbrev weakSystem (C : Capacity) (W : ℕ) : System Thread (@Access.Result (Loc C W) Val) where
  memory := messages Thread Val
  object := object C W
  mem₀ := .init Thread init
  local₀ := holder

variable {C : Capacity} {W : ℕ}

/-- The stamp that an event loaded. -/
def stampLoaded : RingEvent C W → Option ℕ
  | .access _ (.load (.stamp _) _) v => some v
  | _ => none

/-- The stamp that consumer `i` loaded, if that was its newest step. -/
def checked (i : ℕ) : List (RingEvent C W) → Option ℕ
  | [] => none
  | e :: tr => if e.thread = .consumer i then stampLoaded e else checked i tr

def own (i : ℕ) (tr : List (RingEvent C W)) : Own := ⟨cursorOf i tr,checked i tr⟩

theorem own_access (i : ℕ) (a : Access (Val (C := C) (W := W))) (r : a.Result) (tr : List (RingEvent C W)) :
    own i (.access (.consumer i) a r :: tr) = (own i tr).next a r := by
  have hcursor : cursorOf i (.access (.consumer i) a r :: tr) = cursorOf i tr := rfl
  have hstamp : checked i (.access (.consumer i) a r :: tr) = stampLoaded (.access (.consumer i) a r) := if_pos rfl
  unfold own
  rw [hcursor, hstamp]
  cases a with
  | load l o => cases l <;> rfl
  | _ => rfl

theorem own_other {i : ℕ} {e : RingEvent C W} (h : e.thread ≠ .consumer i) (tr : List (RingEvent C W)) :
    own i (e :: tr) = own i tr := by
  have hstamp : checked i (e :: tr) = checked i tr := if_neg h
  unfold own cursorOf
  rw [outs_cons_other h, hstamp]

/-- The condition `ok` lets a consumer resync only when it is informed. -/
def Forward (ok : Own → View (Loc C W) → Prop) : Prop := ∀ g v, ok g v → Informed g v

/-- What a consumer was told is true of the log; and if it was always informed, it has
walked over the log. -/
structure Told (ok : Own → View (Loc C W) → Prop) (log : List (Record W)) (os : List (Out W)) : Prop where
  exact : ∀ x ∈ items os, log[x.1]? = some x.2
  walks : Forward ok → os = [] ∨ ∃ a c, Walk log os a c

theorem Told.mono {ok : Own → View (Loc C W) → Prop} {log log' : List (Record W)} {os : List (Out W)}
    (h : Told ok log os) (hl : log <+: log') : Told ok log' os := by
  constructor
  · exact fun x hx => getElem?_of_grows hl (h.exact x hx)
  · exact fun hok => (h.walks hok).imp id fun ⟨a,c,hw⟩ => ⟨a,c,hw.mono hl⟩

/-- The world of a thread at a moment of a run. -/
def world {G : Type} (g : List (RingEvent C W) → G) (s : (weakSystem C W).Shared) : Weak C W G :=
  ⟨pushed s.1,s.2,g s.1⟩

/-- What the producer remembers of its own accesses: nothing. -/
def nothing (_ : List (RingEvent C W)) : Unit := ()

/-- Runs of fewer than `2^63` pushes, in which consumer `i` always satisfies `ok i`. -/
def weakContract (C : Capacity) (W : ℕ) (ok : ℕ → Own → View (Loc C W) → Prop) :
    System.Contract (weakSystem C W) where
  admissible s := (pushed s.1).length < 2^63 ∧ ∀ i, ok i (own i s.1) (s.2.view (.consumer i))
  invariant s := (protocol C W).Kept (pushed s.1) s.2 ∧ ∀ i, Told (ok i) (pushed s.1) (outs i s.1)
  rely
    | .producer, s, s' => (publisher C W).rely (world nothing s) (world nothing s')
    | .consumer i, s, s' => (subscriber i (ok i)).rely (world (own i) s) (world (own i) s') ∧
        outs i s'.1 = outs i s.1
  rest
    | .producer, l, s => l = .producer ∧ ∃ fr, Owns .producer s.2 fr ∧ Pushed (pushed s.1).length fr
    | .consumer i, .handle, s => outs i s.1 = []
    | .consumer i, .consumer c, s => cursorOf i s.1 = some c ∧
        (Forward (ok i) → ∃ a, Walk (pushed s.1) (outs i s.1) a c)
    | .consumer _, .producer, _ => False
  rely_refl t s := by
    cases t with
    | producer => exact (publisher C W).rely_refl _
    | consumer i => exact ⟨(subscriber i (ok i)).rely_refl _,rfl⟩
  rely_trans {t s₁ s₂ s₃} h h' := by
    cases t with
    | producer => exact (publisher C W).rely_trans h h'
    | consumer i => exact ⟨(subscriber i (ok i)).rely_trans h.1 h'.1,h'.2.trans h.2⟩

section Keeping
variable {ok : ℕ → Own → View (Loc C W) → Prop} {s s' : (weakSystem C W).Shared} {e : RingEvent C W}

/-- A step of the producer: it keeps the protocol and touches no consumer's view. -/
theorem keeps_publishing (he : e.thread = .producer) (hs : s'.1 = e :: s.1)
    (hv : ∀ u, u ≠ .producer → s'.2.view u = s.2.view u)
    (hk : (protocol C W).Kept (pushed s.1) s.2 → (protocol C W).Kept (pushed s'.1) s'.2) :
    (weakContract C W ok).Keeps .producer s s' := by
  have hne : ∀ i, e.thread ≠ .consumer i := fun i => by simp [he]
  have hlog : pushed s.1 <+: pushed s'.1 := by
    rw [hs]
    exact pushed_grows e s.1
  constructor
  · intro h
    refine ⟨hk h.1,fun i => ?_⟩
    rw [hs, outs_cons_other (hne i), ← hs]
    exact (h.2 i).mono hlog
  · intro u hu
    cases u with
    | producer => exact absurd rfl hu
    | consumer i =>
      refine ⟨⟨hlog,hk,hv _ hu,?_⟩,?_⟩
      · change own i s'.1 = own i s.1
        rw [hs, own_other (hne i)]
      · rw [hs, outs_cons_other (hne i)]

/-- A step of a consumer: it stores nothing, and what it is told is true. -/
theorem keeps_subscribing {i : ℕ} (he : e.thread = .consumer i) (hs : s'.1 = e :: s.1)
    (hc : ∀ t rec, e ≠ .call t (.push rec)) (hentries : s'.2.entries = s.2.entries)
    (hv : ∀ u, u ≠ .consumer i → s'.2.view u = s.2.view u)
    (ht : Told (ok i) (pushed s.1) (outs i s.1) → Told (ok i) (pushed s.1) (outs i s'.1)) :
    (weakContract C W ok).Keeps (.consumer i) s s' := by
  have hlog : pushed s'.1 = pushed s.1 := by rw [hs, pushed_cons hc]
  have hk : (protocol C W).Kept (pushed s.1) s.2 → (protocol C W).Kept (pushed s'.1) s'.2 := by
    rw [hlog]
    exact fun h => h.congr hentries
  constructor
  · intro h
    refine ⟨hk h.1,fun j => ?_⟩
    rw [hlog]
    by_cases hj : j = i
    · subst j
      exact ht (h.2 i)
    · have hne : e.thread ≠ .consumer j := by simpa [he] using Ne.symm hj
      rw [hs, outs_cons_other hne]
      exact h.2 j
  · intro u hu
    cases u with
    | producer => exact ⟨hlog,hentries,hv _ hu⟩
    | consumer j =>
      have hne : e.thread ≠ .consumer j := by
        rw [he]
        exact hu.symm
      refine ⟨⟨?_,hk,hv _ hu,?_⟩,?_⟩
      · change pushed s.1 <+: pushed s'.1
        rw [hlog]
      · change own j s'.1 = own j s.1
        rw [hs, own_other hne]
      · rw [hs, outs_cons_other hne]

end Keeping

section Lifting
variable {ok : ℕ → Own → View (Loc C W) → Prop} {s : (weakSystem C W).Shared} {α : Type} {p : Code C W α}

/-- What the producer's own code meets, it meets in the running system. -/
theorem publisher_runs {Q : α → Weak C W Unit → Prop} (h : Meets (publisher C W) p Q (world nothing s)) :
    Meets ((weakContract C W ok).env .producer) p (fun x s => Q x (world nothing s)) s := by
  rw [← Program.lift_id p]
  apply Meets.lift (E := publisher C W) (world nothing)
  · exact fun hr => hr.1
  · rintro s a r s' ⟨⟨n,hx⟩,htr,_⟩
    refine ⟨?_,n,hx⟩
    change pushed s'.1 = pushed s.1
    rw [htr]
    rfl
  · rintro s a r s' ⟨⟨n,hx⟩,htr,_⟩ hk
    exact keeps_publishing rfl htr (fun u hu => Messages.exec_view_other hx hu) hk
  · exact h

theorem subscriber_runs {i : ℕ} {Q : α → Weak C W Own → Prop}
    (h : Meets (subscriber i (ok i)) p Q (world (own i) s)) :
    Meets ((weakContract C W ok).env (.consumer i)) p (fun x s => Q x (world (own i) s)) s := by
  rw [← Program.lift_id p]
  apply Meets.lift (E := subscriber i (ok i)) (world (own i))
  · exact fun hr => hr.1.1
  · rintro s a r s' ⟨⟨n,hx⟩,htr,ha,_⟩
    refine ⟨?_,⟨n,hx⟩,?_,ha.2 i⟩
    · change pushed s'.1 = pushed s.1
      rw [htr]
      rfl
    · change own i s'.1 = _
      rw [htr]
      exact own_access i a r s.1
  · rintro s a r s' ⟨⟨n,hx⟩,htr,_⟩ hentries
    refine keeps_subscribing rfl htr (by simp) hentries (fun u hu => Messages.exec_view_other hx hu) ?_
    rw [htr]
    exact id
  · exact h

end Lifting
section Calls
variable {ok : ℕ → Own → View (Loc C W) → Prop} {s : (weakSystem C W).Shared} {i c c' : ℕ} {r : Recv W}

/-- A receive that kept its promise carries the walk of an informed consumer on. -/
theorem Delivered.walk {ok : Own → View (Loc C W) → Prop} {w : Weak C W Own} {os : List (Out W)}
    (h : Delivered ok c (r,c') w) (hok : Forward ok) {a : ℕ} (hw : Walk w.log os a c) :
    Walk w.log (os ++ [.received c r c']) a c' := by
  obtain ⟨_,_,hx⟩ := h
  cases r with
  | item rec =>
    obtain ⟨hrec,rfl⟩ := hx
    exact hw.item hrec
  | empty =>
    obtain rfl : c' = c := hx
    exact hw.empty
  | overrun k =>
    obtain rfl : c' = c+k := hx hok
    exact hw.overrun k

theorem Delivered.told {ok : Own → View (Loc C W) → Prop} {w : Weak C W Own} {os : List (Out W)}
    (h : Delivered ok c (r,c') w) (ht : Told ok w.log os) (hw : Forward ok → ∃ a, Walk w.log os a c) :
    Told ok w.log (os ++ [.received c r c']) := by
  constructor
  · intro x hx
    rw [Walk.items_append] at hx
    rcases List.mem_append.mp hx with hx | hx
    · exact ht.exact x hx
    · cases r with
      | item rec =>
        obtain rfl := List.mem_singleton.mp hx
        exact h.2.2.1
      | empty => simp [items] at hx
      | overrun k => simp [items] at hx
  · intro hok
    obtain ⟨a,hw⟩ := hw hok
    exact .inr ⟨a,c',h.walk hok hw⟩

/-- Whatever a consumer's own accesses and the other threads do, what it was told stays,
and so do the records pushed. -/
theorem outs_frame {os : List (Out W)} {log : List (Record W)} {α : Type} {p : Code C W α}
    {Q : α → (weakSystem C W).Shared → Prop}
    (h : Meets ((weakContract C W ok).env (.consumer i)) p Q s)
    (ho : outs i s.1 = os ∧ log <+: pushed s.1) :
    Meets ((weakContract C W ok).env (.consumer i)) p
      (fun x s => Q x s ∧ outs i s.1 = os ∧ log <+: pushed s.1) s := by
  apply Meets.frame _ _ h ho
  · intro s s' hP hr
    exact ⟨hr.1.2.trans hP.1,hP.2.trans hr.1.1.1⟩
  · intro s a r s' hP ha _
    rw [ha.2.1]
    exact hP

/-- A consumer that is told one more thing. -/
theorem weak_returns {o : Out W} (hc : cursors [o] = [c])
    (ht : Told (ok i) (pushed s.1) (outs i s.1) → Told (ok i) (pushed s.1) (outs i s.1 ++ [o]))
    (hw : Forward (ok i) → ∃ a, Walk (pushed s.1) (outs i s.1 ++ [o]) a c) :
    (weakContract C W ok).Returns (.consumer i) (.consumer c,o) s := by
  intro _
  constructor
  · refine keeps_subscribing (e := .ret (.consumer i) o) rfl rfl (by simp) rfl (fun _ _ => rfl) ?_
    rw [outs_ret_self]
    exact ht
  · constructor
    · change (cursors (outs i (.ret (.consumer i) o :: s.1))).getLast? = some c
      rw [outs_ret_self, Walk.cursors_append, hc]
      simp
    · rw [outs_ret_self]
      exact hw

theorem weak_tryRecv_returns (hk : (protocol C W).Kept (pushed s.1) s.2) (hc : cursorOf i s.1 = some c)
    (hw : Forward (ok i) → ∃ a, Walk (pushed s.1) (outs i s.1) a c) :
    Meets ((weakContract C W ok).env (.consumer i))
      (tryRecv C c >>= fun x => pure (.consumer x.2,.received c x.1 x.2))
      ((weakContract C W ok).Returns (.consumer i)) s := by
  have hrecv : Meets (subscriber i (ok i)) (tryRecv C c) (Delivered (ok i) c) (world (own i) s) :=
    tryRecv_delivers hk hc
  apply Meets.bind ((outs_frame (subscriber_runs hrecv) ⟨rfl,List.prefix_rfl⟩).mono _)
  rintro ⟨r,c'⟩ s₁ ⟨hdel,ho,hlog⟩
  refine Meets.done fun s₂ h₂ => ?_
  have hdel₂ := hdel.stable h₂.1.1
  have ho₂ : outs i s₂.1 = outs i s.1 := h₂.1.2.trans ho
  have hw₂ : Forward (ok i) → ∃ a, Walk (pushed s₂.1) (outs i s₂.1) a c := by
    intro hok
    obtain ⟨a,hw⟩ := hw hok
    exact ⟨a,ho₂ ▸ hw.mono (hlog.trans h₂.1.1.1)⟩
  apply weak_returns rfl
  · exact fun ht => hdel₂.told ht hw₂
  · intro hok
    obtain ⟨a,hw⟩ := hw₂ hok
    exact ⟨a,hdel₂.walk hok hw⟩

/-- Joining loads the write position and is told nothing but the cursor. -/
theorem weak_join_returns {g : ℕ → ℕ} (ho : outs i s.1 = []) (hk : (protocol C W).Kept (pushed s.1) s.2) :
    Meets ((weakContract C W ok).env (.consumer i))
      (load .write .acquire >>= fun w => pure (.consumer (g w),.joined (g w)))
      ((weakContract C W ok).Returns (.consumer i)) s := by
  have hload : Meets (subscriber i (ok i)) (load .write .acquire >>= pure) (fun _ _ => True) (world (own i) s) :=
    subscriber_load hk fun _ _ _ _ => Meets.done fun _ _ => trivial
  apply Meets.bind ((outs_frame (subscriber_runs hload) ⟨ho,List.nil_prefix⟩).mono _)
  rintro w s₁ ⟨_,ho₁,_⟩
  refine Meets.done fun s₂ h₂ => ?_
  have ho₂ : outs i s₂.1 = [] := h₂.1.2.trans ho₁
  apply weak_returns rfl
  · intro _
    rw [ho₂]
    exact ⟨by simp [items],fun _ => .inr ⟨g w,g w,.joined (g w)⟩⟩
  · intro _
    rw [ho₂]
    exact ⟨g w,.joined (g w)⟩

theorem push_keeps {rec : Record W} {fr : Front (Val (C := C) (W := W))} (hi : (weakContract C W ok).invariant s)
    (ho : Owns .producer s.2 fr) (hp : Pushed (pushed s.1).length fr)
    (ha : (pushed (.call .producer (.push rec) :: s.1)).length < 2^63) :
    (weakContract C W ok).Keeps .producer s (.call .producer (.push rec) :: s.1,s.2) ∧
      Meets ((weakContract C W ok).env .producer) (push C rec >>= fun _ => pure (.producer,.pushed))
        ((weakContract C W ok).Returns .producer) (.call .producer (.push rec) :: s.1,s.2) := by
  have hlog : pushed s.1 <+: pushed s.1 ++ [rec] := List.prefix_append _ _
  have hlen : (pushed s.1).length+1 < 2^63 := by
    simpa [pushed] using ha
  have hl : (pushed s.1 ++ [rec])[(pushed s.1).length]? = some rec := by simp
  have hpush := push_publishes (s := world nothing (.call .producer (.push rec) :: s.1,s.2)) ho (hi.1.mono hlog)
    hp hl hlen
  constructor
  · exact keeps_publishing rfl rfl (fun _ _ => rfl) fun h => h.mono hlog
  apply Meets.bind ((publisher_runs hpush).mono _)
  rintro _ s₁ ⟨hlog₁,hk₁,fr₁,ho₁,hp₁⟩
  refine Meets.done fun s₂ h₂ _ => ⟨?_,rfl,fr₁,?_,?_⟩
  · exact keeps_publishing rfl rfl (fun _ _ => rfl) id
  · exact ho₁.congr h₂.1.2.1 h₂.1.2.2
  · have heq : pushed s₂.1 = pushed s.1 ++ [rec] := h₂.1.1.trans hlog₁
    have hlen₂ : (pushed (.ret .producer .pushed :: s₂.1)).length = (pushed s.1).length+1 := by
      rw [pushed_ret, heq, List.length_append, List.length_singleton]
    rw [hlen₂]
    exact hp₁

end Calls

theorem weak_sound (C : Capacity) (W : ℕ) (ok : ℕ → Own → View (Loc C W) → Prop) :
    (weakContract C W ok).Sound where
  rest_stable := by
    rintro t l s s' hr ⟨h,_⟩
    cases t with
    | producer =>
      obtain ⟨rfl,fr,ho,hp⟩ := hr
      have hlog : pushed s'.1 = pushed s.1 := h.1
      exact ⟨rfl,fr,ho.congr h.2.1 h.2.2,hlog ▸ hp⟩
    | consumer i =>
      have ho : outs i s'.1 = outs i s.1 := h.2
      cases l with
      | producer => exact hr
      | handle => exact ho.trans hr
      | consumer c =>
        obtain ⟨hc,hw⟩ := hr
        constructor
        · unfold cursorOf
          rw [ho]
          exact hc
        · intro hok
          obtain ⟨a,hw⟩ := hw hok
          exact ⟨a,ho ▸ hw.mono h.1.1⟩
  start_invariant := by
    constructor
    · apply Protocol.kept_init
      intro l
      cases l with
      | stamp i => exact ⟨fun _ => rfl,by omega,by omega⟩
      | word i k => exact fun g hg => absurd hg (by omega)
      | write => exact ⟨rfl,le_rfl,by decide⟩
    · exact fun i => ⟨by simp [outs, items],fun _ => .inl rfl⟩
  start_rest t := by
    cases t with
    | producer => exact ⟨rfl,_,owns_init _ _,rfl,rfl,fun _ => rfl,fun _ _ => rfl⟩
    | consumer i => rfl
  call := by
    rintro t l x p s hi hr hp ha
    cases t with
    | producer =>
      obtain ⟨rfl,fr,ho,hpushed⟩ := hr
      cases x with
      | push rec =>
        cases hp
        exact push_keeps hi ho hpushed ha.1
      | _ => cases hp
    | consumer i =>
      cases l with
      | producer => exact hr.elim
      | handle =>
        cases x with
        | consumer =>
          cases hp
          exact ⟨keeps_subscribing rfl rfl (by simp) rfl (fun _ _ => rfl) id,weak_join_returns (g := id) hr hi.1⟩
        | consumerFromOldest =>
          cases hp
          exact ⟨keeps_subscribing rfl rfl (by simp) rfl (fun _ _ => rfl) id,
            weak_join_returns (g := fun w => w-C.slots) hr hi.1⟩
        | _ => cases hp
      | consumer c =>
        cases x with
        | tryRecv =>
          cases hp
          exact ⟨keeps_subscribing rfl rfl (by simp) rfl (fun _ _ => rfl) id,weak_tryRecv_returns hi.1 hr.1 hr.2⟩
        | _ => cases hp

/-- With no more ordering than the code asks for, an item is in all its words the record
pushed at the cursor of the call. -/
theorem untorn_items {tr : (weakSystem C W).Trace} {cfg : (weakSystem C W).Config}
    (h : (weakSystem C W).Run tr cfg) (hb : (pushed tr).length < 2^63) (i : ℕ) :
    ∀ x ∈ items (outs i tr), (pushed tr)[x.1]? = some x.2 := by
  have hrun := h.within (Q := fun tr => (pushed tr).length < 2^63) pushed_tail hb
  have hsound := weak_sound C W fun _ _ _ => True
  exact ((hsound.run (hrun.mono fun s hs => ⟨hs,fun _ => trivial⟩)).1.2 i).exact

/-- The moves of the push of position `p`, and of a call of a consumer whose accesses load
these entries. -/
def weakPushMoves (C : Capacity) {W : ℕ} (p : ℕ) (rec : Record W) : List (weakSystem C W).Mv :=
  .call .producer (.push rec) :: List.replicate (W+5) (.access .producer p) ++ [.ret .producer]

def weakCallMoves (C : Capacity) {W : ℕ} (x : Call W) (entries : List ℕ) : List (weakSystem C W).Mv :=
  .call (.consumer 0) x :: entries.map (.access (.consumer 0)) ++ [.ret (.consumer 0)]

/-- Two records are pushed to a ring of two slots, and a consumer receives the first while
it still reads an old write position. After two more it is lapped, and learns it from a
stamp that marks its slot busy. -/
def staleMoves : List (weakSystem twoSlots 2).Mv :=
  List.flatten [weakCallMoves _ .consumer [0], weakPushMoves _ 0 (numbered 0), weakPushMoves _ 1 (numbered 1),
    weakCallMoves _ .tryRecv [1,2,1,1,0,2], weakPushMoves _ 2 (numbered 2), weakPushMoves _ 3 (numbered 3),
    weakCallMoves _ .tryRecv [3,3,4], weakCallMoves _ .tryRecv [4,4,2,2,0,4]]

theorem untorn_items_lapped : ∃ tr cfg, (weakSystem twoSlots 2).Run tr cfg ∧
    items (outs 0 tr) = [(0,numbered 0),(2,numbered 2)] ∧ skips (outs 0 tr) = [1] ∧
    ∀ x ∈ items (outs 0 tr), (pushed tr)[x.1]? = some x.2 := by
  obtain ⟨tr,cfg,h,hP⟩ := System.exists_run_of_play staleMoves
    (fun tr => decide ((pushed tr).length < 2^63) &&
      (decide (items (outs 0 tr) = [(0,numbered 0),(2,numbered 2)]) && decide (skips (outs 0 tr) = [1])))
    (by decide +kernel)
  simp only [Bool.and_eq_true, decide_eq_true_eq] at hP
  obtain ⟨hb,hitems,hskips⟩ := hP
  exact ⟨tr,cfg,h,hitems,hskips,untorn_items h hb 0⟩

section Resync

/-- Consumer `i` is not about to resync from less than it needs to know. -/
def InformedIn (i : ℕ) (s : (weakSystem C W).Shared) : Prop := Informed (own i s.1) (s.2.view (.consumer i))

instance (i : ℕ) (s : (weakSystem C W).Shared) : Decidable (InformedIn i s) :=
  inferInstanceAs (Decidable (Informed _ _))

/-- A consumer that enters no resync before it knows that the write position is one
capacity past its cursor never moves backward: items come at strictly increasing
positions, and with the skip counts they add up to the distance travelled. -/
theorem informed_forward {i : ℕ} {tr : (weakSystem C W).Trace} {cfg : (weakSystem C W).Config}
    (h : (weakSystem C W).RunIn (InformedIn i) tr cfg) (hb : (pushed tr).length < 2^63) :
    (cursors (outs i tr)).Pairwise (· ≤ ·) ∧
    ((items (outs i tr)).map Prod.fst).Pairwise (· < ·) ∧
    ∀ cursor, cfg.threads (.consumer i) = .idle (.consumer cursor) →
      ∃ start, (outs i tr).head? = some (.joined start) ∧ start ≤ cursor ∧
        (items (outs i tr)).length + (skips (outs i tr)).sum = cursor-start := by
  have hrun := h.within (Q := fun tr => (pushed tr).length < 2^63) pushed_tail hb
  have hsound := weak_sound C W fun j g v => j = i → Informed g v
  obtain ⟨hi,ht⟩ := hsound.run (hrun.mono fun s hs => ⟨hs.1,fun j hj => hj ▸ hs.2⟩)
  have hok : Forward fun (g : Own) (v : View (Loc C W)) => i = i → Informed g v := fun g v hg => hg rfl
  refine ⟨?_,?_,fun cursor hc => ?_⟩
  · rcases (hi.2 i).walks hok with hn | ⟨a,c,hw⟩
    · simp only at hn
      simp [hn, cursors]
    · exact hw.cursors_sorted.1
  · rcases (hi.2 i).walks hok with hn | ⟨a,c,hw⟩
    · simp only at hn
      simp [hn, items]
    · exact hw.items_increasing
  · have hrest := ht (.consumer i)
    rw [hc] at hrest
    obtain ⟨a,hw⟩ := hrest.2 hok
    have hsum : a + (items (outs i tr)).length + (skips (outs i tr)).sum = cursor := hw.accounts
    exact ⟨a,hw.head_joined,by omega,by omega⟩

/-- A consumer of a ring of one slot is lapped, knows it, and is told so. -/
def informedMoves : List (weakSystem oneSlot 1).Mv :=
  List.flatten [[.call (.consumer 0) .consumer, .access (.consumer 0) 0, .ret (.consumer 0)],
    List.flatten ((List.range 3).map fun p => List.flatten [[.call .producer (.push fun _ => 7)],
      List.replicate 6 (.access .producer p), [.ret .producer]]),
    [.call (.consumer 0) .tryRecv, .access (.consumer 0) 3, .access (.consumer 0) 6,
      .access (.consumer 0) 3, .ret (.consumer 0)]]

theorem informed_forward_lapped : ∃ tr cfg, (weakSystem oneSlot 1).RunIn (InformedIn 0) tr cfg ∧
    .received 0 (.overrun 2) 2 ∈ outs 0 tr ∧ (cursors (outs 0 tr)).Pairwise (· ≤ ·) := by
  obtain ⟨tr,cfg,h,hP⟩ := System.exists_runIn_of_play informedMoves
    (fun s => decide (InformedIn 0 s))
    (fun tr => decide ((pushed tr).length < 2^63) && decide (.received 0 (.overrun 2) 2 ∈ outs 0 tr))
    (by decide) (by decide +kernel)
  simp only [Bool.and_eq_true, decide_eq_true_eq] at hP
  have hinformed : (weakSystem oneSlot 1).RunIn (InformedIn 0) tr cfg :=
    h.mono fun s hs => of_decide_eq_true hs
  exact ⟨tr,cfg,hinformed,hP.2,(informed_forward hinformed hP.1).1⟩

/-- In a ring of two slots a consumer that stands at 1 knows that positions 0 and 1 are
written. Position 2 is pushed, and position 3 has marked its slot busy. The consumer
loads that mark, resyncs, and loads the write position that it already knew. -/
def backwardMoves : List (weakSystem twoSlots 1).Mv :=
  List.flatten [[.call (.consumer 0) .consumer, .access (.consumer 0) 0, .ret (.consumer 0),
      .call .producer (.push fun _ => 7)],
    List.replicate 6 (.access .producer 0),
    [.ret .producer, .call (.consumer 0) .tryRecv, .access (.consumer 0) 1, .access (.consumer 0) 2,
      .access (.consumer 0) 1, .access (.consumer 0) 0, .access (.consumer 0) 2, .ret (.consumer 0)],
    List.flatten ((List.range 2).map fun p => List.flatten [[.call .producer (.push fun _ => 8)],
      List.replicate 6 (.access .producer (p+1)), [.ret .producer]]),
    [.call .producer (.push fun _ => 9), .access .producer 3, .access .producer 3,
      .call (.consumer 0) .tryRecv, .access (.consumer 0) 2, .access (.consumer 0) 3,
      .access (.consumer 0) 2, .ret (.consumer 0)]]

/-- Its cursor moves back from 1 to 0, and one item is not accounted for. -/
theorem resync_backward : ∃ tr cfg, (weakSystem twoSlots 1).Run tr cfg ∧ (pushed tr).length < 2^63 ∧
    .received 1 (.overrun 0) 0 ∈ outs 0 tr ∧ (outs 0 tr).head? = some (.joined 0) ∧
    cursorOf 0 tr = some 0 ∧ (items (outs 0 tr)).length + (skips (outs 0 tr)).sum = 1 := by
  obtain ⟨tr,cfg,h,hP⟩ := System.exists_run_of_play backwardMoves
    (fun tr => decide ((pushed tr).length < 2^63) && decide (.received 1 (.overrun 0) 0 ∈ outs 0 tr) &&
      decide ((outs 0 tr).head? = some (.joined 0)) && decide (cursorOf 0 tr = some 0) &&
      decide ((items (outs 0 tr)).length + (skips (outs 0 tr)).sum = 1)) (by decide +kernel)
  simp only [Bool.and_eq_true, decide_eq_true_eq] at hP
  obtain ⟨⟨⟨⟨hb,hout⟩,hhead⟩,hcursor⟩,hsum⟩ := hP
  exact ⟨tr,cfg,h,hb,hout,hhead,hcursor,hsum⟩

end Resync
end LowLatencyLob.Ring
