import LowLatencyLob.Book.BTree
import LowLatencyLob.Feed.Recorder
import LowLatencyLob.Feed.TicksExact
import LowLatencyLob.Sequence.Replica

/-! What the recorder emits for a snapshot and for a diff, against the book that the
exchange has after each of its updates. -/
namespace LowLatencyLob.Feed
open Book Sequence

section Strings

/-- A string says a number of units. -/
def Denotes (s unit : List UInt8) (n : Int64) : Prop :=
  ∃ x y : Decimal, x.Spells s ∧ y.Spells unit ∧ y.value ≠ 0 ∧ x.value = n.toInt*y.value

theorem Denotes.unique {s unit : List UInt8} {n m : Int64} (h : Denotes s unit n) (h' : Denotes s unit m) :
    n = m := by
  obtain ⟨x,y,hx,hy,hne,hv⟩ := h
  obtain ⟨x',y',hx',hy',_,hv'⟩ := h'
  obtain rfl := hx.unique hx'
  obtain rfl := hy.unique hy'
  have hcast := mul_right_cancel₀ hne (hv.symm.trans hv')
  exact Int64.toInt_inj.mp (Int.cast_injective hcast)

theorem denotes_of_toTicks {s unit : List UInt8} {n : Int64} (h : toTicks s unit = pure n) : Denotes s unit n := by
  obtain ⟨x,y,hx,hy,_,hne,hv⟩ := toTicks_eq_ok.mp h
  exact ⟨x,y,hx,hy,hne,hv⟩

end Strings

section Emitting
variable {α β : Type} {scales : Scales} {em em' : Emitter}

theorem ticks_ok {s unit : List UInt8} {e : List UInt8 → ConvError → RecordError} {n : Int64}
    (h : ticks s unit e = pure n) : toTicks s unit = pure n := by
  unfold ticks at h
  cases ht : toTicks s unit with
  | none =>
    rw [ht] at h
    cases h
  | some r =>
    rw [ht] at h
    cases r with
    | error e => cases h
    | ok m =>
      cases h
      rfl

/-- The strings of an entry, as a level event states them. -/
def Priced (scales : Scales) (x : Side × DiffEntry) (ev : BookEvent) : Prop :=
  ev.kind = .level ∧ ev.side = x.1 ∧ ∃ px qty, x.2 = (some px,some qty) ∧
    toTicks px scales.tickSize = pure ev.px ∧ toTicks qty scales.stepSize = pure ev.qty

/-- The emitter has pushed a level for each entry. -/
def Adds (scales : Scales) (xs : List (Side × DiffEntry)) (em em' : Emitter) : Prop :=
  ∃ evs, em'.events = em.events ++ evs ∧ List.Forall₂ (Priced scales) xs evs

theorem Adds.refl (em : Emitter) : Adds scales [] em em := ⟨[],(List.append_nil _).symm,.nil⟩

theorem Adds.trans {xs ys : List (Side × DiffEntry)} {em'' : Emitter} (h : Adds scales xs em em')
    (h' : Adds scales ys em' em'') : Adds scales (xs ++ ys) em em'' := by
  obtain ⟨evs,he,hf⟩ := h
  obtain ⟨evs',he',hf'⟩ := h'
  exact ⟨evs ++ evs',by rw [he', he, List.append_assoc],List.rel_append hf hf'⟩

theorem level_adds {tsMs : UInt64} {side : Side} {px qty : List UInt8}
    (h : em.level scales tsMs side px qty = pure em') : Adds scales [(side,(some px,some qty))] em em' := by
  obtain ⟨p,hp,h⟩ := eq_pure_of_bind h
  obtain ⟨q,hq,h⟩ := eq_pure_of_bind h
  cases h
  exact ⟨_,rfl,.cons ⟨rfl,rfl,px,qty,rfl,ticks_ok hp,ticks_ok hq⟩ .nil⟩

/-- A loop that emits a level for each entry. -/
theorem foldlM_adds {f : Emitter → α → Record Emitter} {entry : α → Side × DiffEntry}
    (hf : ∀ em x em', f em x = pure em' → Adds scales [entry x] em em') {xs : List α}
    (h : xs.foldlM f em = pure em') : Adds scales (xs.map entry) em em' :=
  foldlM_keeps (R := fun xs => Adds scales (xs.map entry)) .refl
    (fun em em₁ _ x _ h₁ ih => (hf em x em₁ h₁).trans ih) h

/-- The entries of a snapshot, best side first. -/
def Snapshot.entries (snap : Snapshot) : List (Side × DiffEntry) :=
  snap.bids.map (fun y => (.bid,(some y.1,some y.2))) ++ snap.asks.map (fun y => (.ask,(some y.1,some y.2)))

/-- The entries of a diff; a side that is no array has none. -/
def Diff.entries (diff : Diff) : List (Side × DiffEntry) :=
  (diff.b.getD []).map (fun y => (.bid,y)) ++ (diff.a.getD []).map (fun y => (.ask,y))

theorem seedSide_adds {side : Side} {levels : List (List UInt8 × List UInt8)}
    (h : em.seedSide scales side levels = pure em') :
    Adds scales (levels.map fun y => (side,(some y.1,some y.2))) em em' := by
  unfold Emitter.seedSide at h
  exact foldlM_adds (fun em y em' hy => level_adds hy) h

theorem seedSnapshot_adds {snap : Snapshot} (h : em.seedSnapshot scales snap = pure em') :
    Adds scales snap.entries (em.push fun seq => .clear seq 0) em' := by
  obtain ⟨em₁,h₁,h⟩ := eq_pure_of_bind h
  exact (seedSide_adds h₁).trans (seedSide_adds h)

theorem applySide_adds {eMs : UInt64} {side : Side} {arr : Option (List DiffEntry)}
    (h : applySide scales em eMs side arr = pure em') :
    Adds scales ((arr.getD []).map fun y => (side,y)) em em' := by
  cases arr with
  | none =>
    cases h
    exact .refl _
  | some arr =>
    refine foldlM_adds (fun em y em' hy => ?_) h
    obtain ⟨⟨px,qty⟩,hr,hy⟩ := eq_pure_of_bind hy
    match y with
    | (none,_) => cases hr
    | (some _,none) => cases hr
    | (some _,some _) =>
      cases hr
      exact level_adds hy

theorem applyDiff_adds {eMs : UInt64} {diff : Diff} (h : applyDiff scales em eMs diff = pure em') :
    Adds scales diff.entries em em' := by
  obtain ⟨em₁,h₁,h⟩ := eq_pure_of_bind h
  exact (applySide_adds h₁).trans (applySide_adds h)

end Emitting
section Exchange
variable {scales : Scales} {em em' : Emitter} {xs : List (Side × DiffEntry)} {evs : List BookEvent}

/-- The book of the exchange after each update: the quantity at each price of each side. -/
abbrev Exchange := ℕ → Side × Px → Qty

/-- An entry says how much rests at a price of a side. -/
def Says (scales : Scales) (x : Side × DiffEntry) (k : Side × Px) (qty : Qty) : Prop :=
  x.1 = k.1 ∧ ∃ p q, x.2 = (some p,some q) ∧ Denotes p scales.tickSize k.2 ∧ Denotes q scales.stepSize qty

/-- An entry that converts says one thing only. -/
theorem says_iff {side : Side} {p q : List UInt8} {px : Px} {n : Qty} (hp : toTicks p scales.tickSize = pure px)
    (hq : toTicks q scales.stepSize = pure n) (k : Side × Px) (qty : Qty) :
    Says scales (side,(some p,some q)) k qty ↔ k = (side,px) ∧ qty = n := by
  constructor
  · intro ⟨hside,p',q',hx,hp',hq'⟩
    cases hx
    exact ⟨Prod.ext hside.symm (hp'.unique (denotes_of_toTicks hp)),hq'.unique (denotes_of_toTicks hq)⟩
  · intro ⟨hk,hqty⟩
    subst hk hqty
    exact ⟨rfl,p,q,rfl,denotes_of_toTicks hp,denotes_of_toTicks hq⟩

/-- The snapshot is the complete book at its update. -/
structure Snapshot.Honest (E : Exchange) (scales : Scales) (snap : Snapshot) : Prop where
  small : snap.lastUpdateId.toNat < 2^63
  states : ∀ x ∈ snap.entries, ∀ k qty, Says scales x k qty → E snap.lastUpdateId.toNat k = qty
  complete : ∀ k, E snap.lastUpdateId.toNat k ≠ 0 → ∃ x ∈ snap.entries, ∃ qty, Says scales x k qty

/-- The diff carries the quantity at `u` of every level changed in `uFirst..u`. -/
structure Diff.Honest (E : Exchange) (scales : Scales) (uFirst u : UInt64) (diff : Diff) : Prop where
  small : u.toNat < 2^63
  ordered : uFirst.toNat ≤ u.toNat
  states : ∀ x ∈ diff.entries, ∀ k qty, Says scales x k qty → E u.toNat k = qty
  complete : ∀ k, Changed E uFirst.toNat u.toNat k → ∃ x ∈ diff.entries, ∃ qty, Says scales x k qty

/-- Whatever arrives, what can be read of it comes from the exchange. -/
structure Input.Honest (E : Exchange) (scales : Scales) (i : Input) : Prop where
  message : ∀ diff uFirst u eMs, i.message = .depthUpdate diff → diff.U = some uFirst →
    diff.u = some u → diff.E = some eMs → diff.Honest E scales uFirst u
  response : ∀ snap, i.response = some snap → snap.Honest E scales

/-- The price of a level event, and the quantity there. -/
def keyed (ev : BookEvent) : (Side × Px) × Qty := ((ev.side,ev.px),ev.qty)

/-- An entry says what the level event for it says, and nothing else. -/
theorem Priced.says_iff {x : Side × DiffEntry} {ev : BookEvent} (h : Priced scales x ev) (k : Side × Px)
    (qty : Qty) : Says scales x k qty ↔ (k,qty) = keyed ev := by
  obtain ⟨side,entry⟩ := x
  obtain ⟨_,hside,p,q,hx,hp,hq⟩ := h
  subst hside hx
  rw [Feed.says_iff hp hq]
  constructor
  · intro ⟨hk,hqty⟩
    exact Prod.ext hk hqty
  · intro hk
    exact Prod.mk.inj hk

/-- Levels for entries that state the quantities of version `n`. -/
theorem keyed_states {g : Side × Px → Qty} (h : List.Forall₂ (Priced scales) xs evs)
    (hs : ∀ x ∈ xs, ∀ k qty, Says scales x k qty → g k = qty) : ∀ e ∈ evs.map keyed, g e.1 = e.2 := by
  intro e he
  induction h with
  | nil => cases he
  | cons hx h ih =>
    rcases List.mem_cons.mp he with rfl | he
    · exact hs _ List.mem_cons_self _ _ ((hx.says_iff _ _).mpr rfl)
    · exact ih (fun x hx => hs x (List.mem_cons_of_mem _ hx)) he

theorem keyed_complete {k : Side × Px} (h : List.Forall₂ (Priced scales) xs evs)
    (hc : ∃ x ∈ xs, ∃ qty, Says scales x k qty) : ∃ e ∈ evs.map keyed, e.1 = k := by
  obtain ⟨x,hx,qty,hs⟩ := hc
  induction h with
  | nil => cases hx
  | @cons y ev ys evs hy h ih =>
    rcases List.mem_cons.mp hx with rfl | hx
    · exact ⟨keyed ev,List.mem_cons_self,(congrArg Prod.fst ((hy.says_iff k qty).mp hs)).symm⟩
    · obtain ⟨e,he,hk⟩ := ih hx
      exact ⟨e,List.mem_cons_of_mem _ he,hk⟩

/-- Level events overwrite the quantities at their prices. -/
theorem replay_priced (a : Quotes) (h : List.Forall₂ (Priced scales) xs evs) :
    Function.uncurry (a.replay evs).qty = overwrite (Function.uncurry a.qty) (evs.map keyed) := by
  apply a.qty_replay
  intro ev hev
  induction h with
  | nil => cases hev
  | cons hx _ ih =>
    rcases List.mem_cons.mp hev with rfl | hev
    · exact hx.1
    · exact ih hev

/-- The events leave the book of version `n` of the exchange. -/
def Mirrors (E : Exchange) (n : ℕ) (evs : List BookEvent) : Prop :=
  Function.uncurry (Quotes.replay .empty evs).qty = E n

theorem replay_append (a : Quotes) (evs evs' : List BookEvent) :
    a.replay (evs ++ evs') = (a.replay evs).replay evs' := List.foldl_append

theorem Mirrors.seed {E : Exchange} {snap : Snapshot} (hs : snap.Honest E scales)
    (h : em.seedSnapshot scales snap = pure em') : Mirrors E snap.lastUpdateId.toNat em'.events := by
  obtain ⟨evs,hev,hf⟩ := seedSnapshot_adds h
  have hcomplete : Complete E snap.lastUpdateId.toNat (evs.map keyed) :=
    ⟨keyed_states hf hs.states,fun k hk => keyed_complete hf (hs.complete k hk)⟩
  rw [Mirrors, hev, replay_append, replay_priced _ hf, Emitter.push, replay_append]
  exact hcomplete.overwrite

theorem Mirrors.apply {E : Exchange} {n : ℕ} {uFirst u eMs : UInt64} {diff : Diff}
    (hm : Mirrors E n em.events) (hd : diff.Honest E scales uFirst u) (hU : uFirst.toNat ≤ n+1)
    (hu : n ≤ u.toNat) (h : applyDiff scales em eMs diff = pure em') : Mirrors E u.toNat em'.events := by
  obtain ⟨evs,hev,hf⟩ := applyDiff_adds h
  have hcarries : Carries E uFirst.toNat u.toNat (evs.map keyed) :=
    ⟨keyed_states hf hd.states,fun k hk => keyed_complete hf (hd.complete k hk)⟩
  rw [Mirrors, hev, replay_append, replay_priced _ hf, hm]
  exact hcarries.overwrite hU hu

theorem Mirrors.trade {E : Exchange} {n : ℕ} {eMs : UInt64} {aggressor : Side} {px qty : List UInt8}
    (hm : Mirrors E n em.events) (h : em.trade scales eMs aggressor px qty = pure em') :
    Mirrors E n em'.events := by
  obtain ⟨p,_,h⟩ := eq_pure_of_bind h
  obtain ⟨q,_,h⟩ := eq_pure_of_bind h
  cases h
  rw [Mirrors, Emitter.push, replay_append]
  exact hm

end Exchange
end LowLatencyLob.Feed
