import LowLatencyLob.Book.FlatRefines

/-! `FlatBook` where a panic unwinds.

The routines here assign to the book statement by statement, so that they also say what a
panic leaves behind for a caller that catches it. -/
namespace LowLatencyLob.Book.FlatBook
open Sequence
namespace Unwinding

/-- Why a routine panicked: the span assertion, or an index or length out of bounds. -/
inductive Panic
  | span
  | bounds
  deriving DecidableEq, Repr

/-- Code that assigns to a book, and keeps what it assigned when it panics. -/
abbrev Mut := ExceptT Panic (StateM FlatBook)

/-- An operation that panics before it assigns anything. -/
def orPanic {α : Type} : Option α → Mut α
  | some x => pure x
  | none => throw .bounds

/-- `ensure_range`, assignment by assignment. -/
def ensureRange (px : Px) : Mut Unit := do
  let p := px
  if !(← get).inited then
    let base := p-asI64 INIT_HALF_SPAN
    let len := 2*INIT_HALF_SPAN+1
    modify fun b => { b with base }
    modify fun b => { b with bidQty := List.replicate len 0 }
    modify fun b => { b with askQty := List.replicate len 0 }
    modify fun b => { b with inited := true }
  else
    let oldLen := asI64 (← get).bidQty.length
    let oldLo := (← get).base
    let oldHi := oldLo+oldLen
    if p ≥ oldLo ∧ p < oldHi then
      return
    else
      let margin := asI64 INIT_HALF_SPAN
      let newLo := min oldLo (p-margin)
      let newHi := max oldHi (p+1+margin)
      let newLen := asUsize (newHi-newLo)
      if ¬newLen ≤ MAX_SPAN then
        throw .span
      else
        let shift := asUsize (oldLo-newLo)
        let stop := wrappingAdd shift (asUsize oldLen)
        let newBid ← orPanic (copyFromSlice (List.replicate newLen 0) shift stop (← get).bidQty)
        let newAsk ← orPanic (copyFromSlice (List.replicate newLen 0) shift stop (← get).askQty)
        modify fun b => { b with bidQty := newBid }
        modify fun b => { b with askQty := newAsk }
        modify fun b => { b with base := newLo }
        modify fun b => { b with bestBidIdx := b.bestBidIdx.map (wrappingAdd · shift) }
        modify fun b => { b with bestAskIdx := b.bestAskIdx.map (wrappingAdd · shift) }

/-- The arms of a level read the old quantity first, which panics if it does. -/
def assign (f : FlatBook → Option FlatBook) : Mut Unit := do
  set (← orPanic (f (← get)))

def apply (ev : BookEvent) : Mut Unit := do
  match ev.kind with
  | .level =>
    ensureRange ev.px
    let i := asUsize (ev.px-(← get).base)
    match ev.side with
    | .bid => assign fun b => b.setBid i ev.qty
    | .ask => assign fun b => b.setAsk i ev.qty
  | .trade => modify fun b => { b with lastTrade := some (ev.px,ev.qty,ev.side) }
  | .clear => modify clear

/-- The book after events, each applied by a caller that catches its panic. -/
def after (b : FlatBook) (evs : List BookEvent) : FlatBook :=
  evs.foldl (fun b ev => ((apply ev).run b).2) b

section Run
section Mut
variable {α β : Type}

@[simp] theorem run_bind (m : Mut α) (f : α → Mut β) (b : FlatBook) : (m >>= f).run b =
    match m.run b with
    | (.ok x,b') => (f x).run b'
    | (.error e,b') => (.error e,b') := by
  change (match m.run b with
    | (r,b') => (ExceptT.bindCont f r) b') = _
  rcases m.run b with ⟨r,b'⟩
  cases r <;> rfl

@[simp] theorem run_ite (c : Prop) [Decidable c] (m m' : Mut α) (b : FlatBook) :
    (if c then m else m').run b = if c then m.run b else m'.run b := by
  split_ifs <;> rfl

@[simp] theorem run_pure (x : α) (b : FlatBook) : (pure x : Mut α).run b = (.ok x,b) := rfl

@[simp] theorem run_throw (e : Panic) (b : FlatBook) : (throw e : Mut α).run b = (.error e,b) := rfl

@[simp] theorem run_get (b : FlatBook) : (get : Mut FlatBook).run b = (.ok b,b) := rfl

@[simp] theorem run_set (b b' : FlatBook) : (set b' : Mut PUnit).run b = (.ok ⟨⟩,b') := rfl

@[simp] theorem run_modify (f : FlatBook → FlatBook) (b : FlatBook) :
    (modify f : Mut PUnit).run b = (.ok ⟨⟩,f b) := rfl

@[simp] theorem run_orPanic_some (x : α) (b : FlatBook) : (orPanic (some x)).run b = (.ok x,b) := rfl

@[simp] theorem run_orPanic_none (b : FlatBook) : (orPanic (none : Option α)).run b = (.error .bounds,b) := rfl

end Mut

/-- `ensure_range` returns what it returns without unwinding, or panics and leaves the book
as it was: at the span assertion, or with a span that passes it. -/
theorem run_ensureRange (b : FlatBook) (px : Px) :
    (∃ b', b.ensureRange px = some b' ∧ (ensureRange px).run b = (.ok (),b')) ∨
    b.ensureRange px = none ∧ ((ensureRange px).run b = (.error .span,b) ∨
      asUsize (b.highWith px-b.lowWith px) ≤ MAX_SPAN ∧ (ensureRange px).run b = (.error .bounds,b)) := by
  have hlo : min b.base (px-asI64 INIT_HALF_SPAN) = b.lowWith px := rfl
  have hhi : max (b.base+asI64 b.bidQty.length) (px+1+asI64 INIT_HALF_SPAN) = b.highWith px := rfl
  unfold FlatBook.ensureRange ensureRange
  simp only [run_bind, run_get, run_ite, run_modify, hlo, hhi]
  generalize asUsize (b.highWith px-b.lowWith px) = newLen
  generalize asUsize (b.base-b.lowWith px) = shift
  generalize wrappingAdd shift (asUsize (asI64 b.bidQty.length)) = stop
  split_ifs with hinit hin hcap
  · exact .inl ⟨_,rfl,rfl⟩
  · exact .inl ⟨_,rfl,rfl⟩
  · cases copyFromSlice (List.replicate newLen 0) shift stop b.bidQty with
    | none => exact .inr ⟨rfl,.inr ⟨hcap,rfl⟩⟩
    | some newBid =>
      simp only [run_orPanic_some]
      cases copyFromSlice (List.replicate newLen 0) shift stop b.askQty with
      | none => exact .inr ⟨rfl,.inr ⟨hcap,rfl⟩⟩
      | some newAsk => exact .inl ⟨_,rfl,rfl⟩
  · exact .inr ⟨rfl,.inl rfl⟩

end Run
section Growth
variable {b b' : FlatBook} {px : Px} {ev : BookEvent}

/-- A price whose margins do not wrap. -/
def Margins (px : Px) : Prop := -2^63 ≤ px.toInt-4096 ∧ px.toInt+4097 ≤ 2^63-1

/-- What callers reach: the cached values are right, and the arrays end inside `i64`. -/
structure Sound (b : FlatBook) : Prop where
  inv : b.Inv
  ends : b.inited = true → b.base.toInt+b.bidQty.length < 2^63

/-- The window covers the price, or may grow to where it does; or there is none yet. -/
def Admits (b : FlatBook) (px : Px) : Prop := b.inited = true → b.Covers px ∨ b.spanWith px ≤ MAX_SPAN

/-- The tick of a cached index. -/
def tickAt (base : Int64) (best : Option ℕ) : Option ℤ := best.map fun i : ℕ => base.toInt+i

@[simp] theorem tickAt_none (base : Int64) : tickAt base none = none := rfl

/-- `b'` covers `px`, and holds every quantity of `b` at its tick and zero elsewhere; its
cached bests are at the same ticks, and its depths are the same. -/
structure Grown (b : FlatBook) (px : Px) (b' : FlatBook) : Prop where
  covers : b'.Covers px
  length_eq : b'.askQty.length = b'.bidQty.length
  length_le : b'.bidQty.length ≤ MAX_SPAN
  ends : b'.base.toInt+b'.bidQty.length < 2^63
  quotes : b'.quotes = b.quotes
  bestBid : tickAt b'.base b'.bestBidIdx = tickAt b.base b.bestBidIdx
  bestAsk : tickAt b'.base b'.bestAskIdx = tickAt b.base b.bestAskIdx
  bidDepth : b'.bidDepth = b.bidDepth
  askDepth : b'.askDepth = b.askDepth
  inited : b'.inited = true

theorem Sound.fits (h : Sound b) (hinit : b.inited = true) (hpx : Margins px) : b.Fits px := by
  obtain ⟨hlow,hhigh⟩ := hpx
  have hhalf : INIT_HALF_SPAN = 4096 := rfl
  exact ⟨h.ends hinit,by omega,by omega⟩

theorem Sound.grown_allocated (h : Sound b) (hinit : b.inited = false) (hpx : Margins px) :
    Grown b px (b.allocated px) := by
  obtain ⟨hlow,hhigh⟩ := hpx
  have hhalf : INIT_HALF_SPAN = 4096 := rfl
  have hbase : (b.allocated px).base.toInt = px.toInt-4096 := by
    change (px-asI64 INIT_HALF_SPAN).toInt = _
    rw [toInt_sub (by rw [toInt_half]; omega) (by rw [toInt_half]; omega), toInt_half]
    rfl
  have hlen : (b.allocated px).bidQty.length = 8193 := List.length_replicate
  have hbid : b.bestBidIdx = none := by
    rw [h.inv.bestBid, h.inv.uninit hinit]
    rfl
  have hask : b.bestAskIdx = none := by
    rw [h.inv.bestAsk, h.inv.askQty_uninit hinit]
    rfl
  have halloc := h.inv.allocated hinit px
  refine ⟨⟨?_,?_⟩,halloc.length_eq,halloc.length_le,?_,h.inv.quotes_allocated hinit px,?_,?_,rfl,rfl,rfl⟩
  · rw [hbase]
    omega
  · rw [hbase, hlen]
    omega
  · rw [hbase, hlen]
    omega
  · change tickAt _ b.bestBidIdx = _
    rw [hbid, tickAt_none, tickAt_none]
  · change tickAt _ b.bestAskIdx = _
    rw [hask, tickAt_none, tickAt_none]

theorem Grown.refl (h : Sound b) (hinit : b.inited = true) (hc : b.Covers px) : Grown b px b :=
  ⟨hc,h.inv.length_eq,h.inv.length_le,h.ends hinit,rfl,rfl,rfl,rfl,rfl,hinit⟩

/-- A cached index moved by `shift` is at the tick where it was. -/
theorem tickAt_shift {best : Option ℕ} {base base' : Int64} {shift : ℕ} (hb : base'.toInt+shift = base.toInt)
    (hi : ∀ i ∈ best, i+shift < 2^64) : tickAt base' (best.map (wrappingAdd · shift)) = tickAt base best := by
  unfold tickAt
  rw [Option.map_map]
  refine Option.map_congr fun i hmem => ?_
  have hmod : wrappingAdd i shift = i+shift := Nat.mod_eq_of_lt (hi i hmem)
  rw [Function.comp_apply, hmod]
  omega

theorem lastSlot_lt {xs : List Qty} {i : ℕ} (h : i ∈ lastSlot xs) : i < xs.length :=
  (slots_of_lastSlot h).2

theorem firstSlot_lt {xs : List Qty} {i : ℕ} (h : i ∈ firstSlot xs) : i < xs.length :=
  (slots_of_firstSlot h).2

theorem Sound.grown_grown (h : Sound b) (hinit : b.inited = true) (hpx : Margins px)
    (hcap : asUsize (b.highWith px-b.lowWith px) ≤ MAX_SPAN) :
    Grown b px (b.grown (b.lowWith px) (asUsize (b.base-b.lowWith px)) (asUsize (b.highWith px-b.lowWith px))) := by
  have hf := h.fits hinit hpx
  have hmax : MAX_SPAN = 8388608 := rfl
  have hhalf : INIT_HALF_SPAN = 4096 := rfl
  have hlow := toInt_lowWith hf
  have hshift := asUsize_shift hf
  have hspan := asUsize_span hf
  have hfit := span_fits hf
  have hlen := padded_length hfit
  have hends := h.ends hinit
  have hgrown : (b.grown (b.lowWith px) (asUsize (b.base-b.lowWith px))
      (asUsize (b.highWith px-b.lowWith px))).Inv := h.inv.grown hfit hcap hinit
  obtain ⟨_,hhigh⟩ := hpx
  unfold spanWith at hspan
  refine ⟨⟨?_,?_⟩,hgrown.length_eq,hgrown.length_le,?_,quotes_grown hshift,?_,?_,rfl,rfl,hinit⟩
  · change (b.lowWith px).toInt ≤ _
    omega
  · change _ < (b.lowWith px).toInt+((padded _ _ b.bidQty).length : ℤ)
    rw [hlen]
    omega
  · change (b.lowWith px).toInt+((padded _ _ b.bidQty).length : ℤ) < _
    rw [hlen]
    omega
  · refine tickAt_shift hshift fun i hi => ?_
    have hlt := lastSlot_lt (h.inv.bestBid ▸ hi)
    omega
  · refine tickAt_shift hshift fun i hi => ?_
    have hlt := firstSlot_lt (h.inv.bestAsk ▸ hi)
    rw [h.inv.length_eq] at hlt
    omega

/-- `ensure_range` covers a price that is admitted and keeps everything where it was, and stops
at the span assertion for any other and keeps every field. -/
theorem Sound.ensureRange (h : Sound b) (hpx : Margins px) :
    (Admits b px ∧ ∃ b', b.ensureRange px = some b' ∧ (Unwinding.ensureRange px).run b = (.ok (),b') ∧ b'.Inv ∧
      Grown b px b') ∨
    ¬ Admits b px ∧ b.ensureRange px = none ∧ (Unwinding.ensureRange px).run b = (.error .span,b) := by
  have hrun := run_ensureRange b px
  cases hinit : b.inited with
  | false =>
    have hadmits : Admits b px := fun htrue => absurd htrue (by rw [hinit]; exact Bool.false_ne_true)
    rw [ensureRange_uninit px hinit] at hrun ⊢
    rcases hrun with ⟨b',hb',hrun⟩ | ⟨hnone,_⟩
    · obtain rfl := Option.some.inj hb'
      exact .inl ⟨hadmits,_,rfl,hrun,h.inv.allocated hinit px,h.grown_allocated hinit hpx⟩
    · cases hnone
  | true =>
    have hf := h.fits hinit hpx
    have hspan := asUsize_span hf
    by_cases hc : b.Covers px
    · rw [ensureRange_covered hinit hf hc] at hrun ⊢
      rcases hrun with ⟨b',hb',hrun⟩ | ⟨hnone,_⟩
      · obtain rfl := Option.some.inj hb'
        exact .inl ⟨fun _ => .inl hc,_,rfl,hrun,h.inv,.refl h hinit hc⟩
      · cases hnone
    · rw [h.inv.ensureRange_outside hinit hf hc] at hrun ⊢
      split_ifs at hrun ⊢ with hcap
      · rcases hrun with ⟨b',hb',hrun⟩ | ⟨hnone,_⟩
        · obtain rfl := Option.some.inj hb'
          have hadmits : Admits b px := fun _ => .inr (by omega)
          exact .inl ⟨hadmits,_,rfl,hrun,h.inv.grown (span_fits hf) hcap hinit,h.grown_grown hinit hpx hcap⟩
        · cases hnone
      · have hrefused : ¬ Admits b px := fun ha => (ha hinit).elim hc fun hle => hcap (by omega)
        rcases hrun with ⟨b',hb',_⟩ | ⟨_,hrun | ⟨hcap',_⟩⟩
        · cases hb'
        · exact .inr ⟨hrefused,rfl,hrun⟩
        · exact absurd hcap' hcap

theorem Grown.index_lt (h : Grown b px b') : asUsize (px-b'.base) < b'.bidQty.length := by
  have hidx := asUsize_sub h.covers.1
  have hlt := h.covers.2
  omega

theorem run_assign {f : FlatBook → Option FlatBook} (h : f b = some b') : (assign f).run b = (.ok (),b') := by
  simp only [assign, run_bind, run_get, h, run_orPanic_some, run_set]

theorem run_level_ok (hk : ev.kind = .level) (h : (ensureRange ev.px).run b = (.ok (),b')) :
    (apply ev).run b = (match ev.side with
      | .bid => assign fun b => b.setBid (asUsize (ev.px-b'.base)) ev.qty
      | .ask => assign fun b => b.setAsk (asUsize (ev.px-b'.base)) ev.qty).run b' := by
  unfold apply
  rw [hk]
  simp only [run_bind, run_get, h]

theorem run_level_error {e : Panic} (hk : ev.kind = .level) (h : (ensureRange ev.px).run b = (.error e,b')) :
    (apply ev).run b = (.error e,b') := by
  unfold apply
  rw [hk]
  simp only [run_bind, h]

/-- Where it does not panic, an event does what it does without unwinding; it panics at the
span assertion only, and then leaves the book as it was. -/
theorem Sound.apply (h : Sound b) (hev : ev.kind = .level → Margins ev.px) :
    (∃ b', b.apply ev = some b' ∧ (Unwinding.apply ev).run b = (.ok (),b') ∧ Sound b') ∨
    b.apply ev = none ∧ ev.kind = .level ∧ ¬ Admits b ev.px ∧ (Unwinding.apply ev).run b = (.error .span,b) := by
  cases hk : ev.kind with
  | trade =>
    have hinv : ({ b with lastTrade := some (ev.px,ev.qty,ev.side) } : FlatBook).Inv :=
      ⟨h.inv.length_eq,h.inv.length_le,h.inv.bestBid,h.inv.bestAsk,h.inv.bidDepth,h.inv.askDepth,h.inv.uninit⟩
    unfold FlatBook.apply Unwinding.apply
    rw [hk]
    exact .inl ⟨_,rfl,rfl,hinv,h.ends⟩
  | clear =>
    unfold FlatBook.apply Unwinding.apply
    rw [hk]
    refine .inl ⟨_,rfl,rfl,h.inv.clear,fun hinit => ?_⟩
    have hends := h.ends hinit
    simpa [FlatBook.clear] using hends
  | level =>
    rcases h.ensureRange (hev hk) with ⟨_,b₁,hb₁,hrun,h₁,hgrown⟩ | ⟨hrefused,hnone,hrun⟩
    · rw [run_level_ok hk hrun]
      unfold FlatBook.apply
      rw [hk]
      simp only [hb₁, Option.bind_some]
      cases ev.side with
      | bid =>
        obtain ⟨b₂,hb₂,h₂,hbase,hinit,hbid,hask,hlast⟩ := h₁.setBid hgrown.index_lt ev.qty
        refine .inl ⟨b₂,hb₂,run_assign hb₂,h₂,fun _ => ?_⟩
        rw [hbase, hbid, List.length_set]
        exact hgrown.ends
      | ask =>
        obtain ⟨b₂,hb₂,h₂,hbase,hinit,hbid,hask,hlast⟩ := h₁.setAsk (h₁.length_eq ▸ hgrown.index_lt) ev.qty
        refine .inl ⟨b₂,hb₂,run_assign hb₂,h₂,fun _ => ?_⟩
        rw [hbase, hbid]
        exact hgrown.ends
    · refine .inr ⟨?_,rfl,hrefused,run_level_error hk hrun⟩
      unfold FlatBook.apply
      rw [hk]
      simp only [hnone, Option.bind_none]

theorem sound_default : Sound default := ⟨inv_default,fun hinit => absurd hinit Bool.false_ne_true⟩

/-- Every book that callers reach is sound, whatever panics they caught. -/
theorem Sound.after (h : Sound b) (evs : List BookEvent) (hevs : ∀ ev ∈ evs, ev.kind = .level → Margins ev.px) :
    Sound (Unwinding.after b evs) := by
  induction evs generalizing b with
  | nil => exact h
  | cons ev evs ih =>
    have hstep : Sound ((Unwinding.apply ev).run b).2 := by
      rcases h.apply (hevs ev List.mem_cons_self) with ⟨b',_,hrun,hb'⟩ | ⟨_,_,_,hrun⟩
      · rw [hrun]
        exact hb'
      · rw [hrun]
        exact h
    exact ih hstep fun ev' hev' => hevs ev' (List.mem_cons_of_mem _ hev')

/-- An event whose panic was caught might as well not have been applied. -/
theorem after_cons_of_panic {e : Panic} (h : (apply ev).run b = (.error e,b)) (evs : List BookEvent) :
    after b (ev :: evs) = after b evs := by
  unfold after
  rw [List.foldl_cons, h]

end Growth

/-- An ask 9 million ticks above the first bid is past the cap. -/
example : ((apply (.level 2 2 .ask 9000000 1)).run (after default [.level 1 1 .bid 0 1])).1 = .error .span := by
  decide +kernel

end Unwinding
end LowLatencyLob.Book.FlatBook
