import LowLatencyLob.Book.FlatWrap
import Mathlib.Data.Finset.Max

/-! The representation invariant of `FlatBook`, in terms of its arrays and of the prices it
has seen: the lengths, the depths and the cached bests after every event, and the index
that the next level goes to. -/
namespace LowLatencyLob.Book
open Sequence
namespace FlatBook

/-- The prices of the level events, those before a clear included. -/
def pricesSeen (evs : List BookEvent) : List ℤ :=
  (evs.filter fun ev => ev.kind = .level).map fun ev => ev.px.toInt

/-- What a book keeps that has seen levels at the prices `ps`. -/
structure Kept (ps : List ℤ) (b : FlatBook) : Prop where
  fresh : ps = [] → b.bidQty = [] ∧ b.askQty = [] ∧ b.bestBidIdx = none ∧ b.bestAskIdx = none
  length_eq : b.askQty.length = b.bidQty.length
  length_ge : ps ≠ [] → 8193 ≤ b.bidQty.length
  length_le : ps ≠ [] → ∃ low ∈ ps, ∃ high ∈ ps, (∀ p ∈ ps, low ≤ p ∧ p ≤ high) ∧
    (b.bidQty.length : ℤ) ≤ high-low+8193
  bidDepth : b.bidDepth = b.bidQty.countP (· ≠ 0)
  askDepth : b.askDepth = b.askQty.countP (· ≠ 0)
  bestBid : ∀ i, b.bestBidIdx = some i ↔ IsGreatest (occupied b.bidQty) i
  bestAsk : ∀ i, b.bestAskIdx = some i ↔ IsLeast (occupied b.askQty) i
  noBid : b.bestBidIdx = none ↔ occupied b.bidQty = ∅
  noAsk : b.bestAskIdx = none ↔ occupied b.askQty = ∅

/-- A level finds arrays with a slot for its price, and no depth at zero for a slot that it
might empty. -/
def Indexes (b : FlatBook) (ev : BookEvent) : Prop := ∃ b', b.ensureRange ev.px = some b' ∧
  asUsize (ev.px-b'.base) < b'.bidQty.length ∧ asUsize (ev.px-b'.base) < b'.askQty.length ∧
  (asUsize (ev.px-b'.base) ∈ occupied b'.bidQty → 0 < b'.bidDepth) ∧
  (asUsize (ev.px-b'.base) ∈ occupied b'.askQty → 0 < b'.askDepth)

section Seen
variable {evs : List BookEvent} {ev : BookEvent} {b b' : FlatBook} {lo hi : ℤ}

theorem pricesSeen_append_level (hk : ev.kind = .level) :
    pricesSeen (evs ++ [ev]) = pricesSeen evs ++ [ev.px.toInt] := by
  simp [pricesSeen, hk]

theorem pricesSeen_append_of_ne (hk : ev.kind ≠ .level) : pricesSeen (evs ++ [ev]) = pricesSeen evs := by
  simp [pricesSeen, hk]

theorem mem_pricesSeen {p : ℤ} : p ∈ pricesSeen evs ↔ ∃ ev ∈ evs, ev.kind = .level ∧ ev.px.toInt = p := by
  simp [pricesSeen, and_assoc]

/-- The lowest and the highest of the prices seen. -/
theorem exists_bounds {ps : List ℤ} (h : ps ≠ []) : ∃ low ∈ ps, ∃ high ∈ ps, ∀ p ∈ ps, low ≤ p ∧ p ≤ high := by
  have hne : ps.toFinset.Nonempty := List.toFinset_nonempty_iff ps |>.mpr h
  obtain ⟨low,hlow,hmin⟩ := ps.toFinset.exists_min_image id hne
  obtain ⟨high,hhigh,hmax⟩ := ps.toFinset.exists_max_image id hne
  simp only [List.mem_toFinset, id_eq] at hlow hhigh hmin hmax
  exact ⟨low,hlow,high,hhigh,fun p hp => ⟨hmin p hp,hmax p hp⟩⟩

/-- The arrays of a book that has them never shrink below their first length. -/
def Roomy (b : FlatBook) : Prop := b.inited = true → 8193 ≤ b.bidQty.length

theorem ensureRange_roomy {px : Px} (h : Roomy b) (he : b.ensureRange px = some b') :
    b'.inited = true ∧ Roomy b' := by
  cases hinit : b.inited with
  | false =>
    rw [ensureRange_uninit px hinit] at he
    obtain rfl := Option.some.inj he
    exact ⟨rfl,fun _ => List.length_replicate.ge⟩
  | true =>
    rcases ensureRange_cases he with ⟨hinit',_⟩ | rfl | ⟨_,newLo,newLen,_,hlen,rfl⟩
    · rw [hinit] at hinit'
      cases hinit'
    · exact ⟨hinit,h⟩
    · have hroom := h hinit
      refine ⟨hinit,fun _ => ?_⟩
      change 8193 ≤ (padded _ newLen b.bidQty).length
      rw [padded_length hlen]
      omega

theorem Inv.apply_roomy (h : b.Inv) (hroom : Roomy b) (ha : b.apply ev = some b') :
    b'.inited = (b.inited || decide (ev.kind = .level)) ∧ Roomy b' := by
  unfold FlatBook.apply at ha
  cases hk : ev.kind with
  | trade =>
    rw [hk] at ha
    obtain rfl := Option.some.inj ha
    exact ⟨by simp,hroom⟩
  | clear =>
    rw [hk] at ha
    obtain rfl := Option.some.inj ha
    refine ⟨by simp [FlatBook.clear],fun hinit => ?_⟩
    simpa [FlatBook.clear] using hroom hinit
  | level =>
    rw [hk] at ha
    obtain ⟨b₁,hb₁,ha⟩ := Option.bind_eq_some_iff.mp ha
    obtain ⟨hinit₁,hroom₁⟩ := ensureRange_roomy hroom hb₁
    obtain ⟨h₁,_⟩ := h.ensureRange_some hb₁
    have hlen := hroom₁ hinit₁
    cases hside : ev.side with
    | bid =>
      rw [hside] at ha
      obtain ⟨half,hset,_⟩ := Option.map_eq_some_iff.mp ha
      obtain ⟨b₂,hb₂,_,_,hinit,hbid,_⟩ := h₁.setBid (set_lt hset) ev.qty
      obtain rfl : b₂ = b' := Option.some.inj (hb₂.symm.trans ha)
      refine ⟨by simp [hinit, hinit₁],fun _ => ?_⟩
      rw [hbid, List.length_set]
      exact hlen
    | ask =>
      rw [hside] at ha
      obtain ⟨half,hset,_⟩ := Option.map_eq_some_iff.mp ha
      obtain ⟨b₂,hb₂,_,_,hinit,hbid,_⟩ := h₁.setAsk (set_lt hset) ev.qty
      obtain rfl : b₂ = b' := Option.some.inj (hb₂.symm.trans ha)
      refine ⟨by simp [hinit, hinit₁],fun _ => ?_⟩
      rw [hbid]
      exact hlen

/-- A book has arrays just when it has seen a price. -/
theorem replay_roomy (hr : replay (default : FlatBook) evs = some b) :
    b.inited = decide (pricesSeen evs ≠ []) ∧ Roomy b := by
  induction evs using List.reverseRecOn generalizing b with
  | nil =>
    obtain rfl : default = b := Option.some.inj hr
    exact ⟨rfl,fun hinit => absurd hinit Bool.false_ne_true⟩
  | append_singleton evs ev ih =>
    obtain ⟨b₁,hb₁,hr⟩ := replay_append.mp hr
    rw [replay_singleton] at hr
    obtain ⟨hinit,hroom⟩ := ih hb₁
    obtain ⟨hinit',hroom'⟩ := (replay_circle hb₁).1.apply_roomy hroom hr
    refine ⟨?_,hroom'⟩
    rw [hinit', hinit]
    by_cases hk : ev.kind = .level
    · simp [hk, pricesSeen_append_level hk]
    · simp [hk, pricesSeen_append_of_ne hk]

end Seen
section Invariant
variable {evs : List BookEvent} {ev : BookEvent} {b b' : FlatBook} {lo hi : ℤ}

/-- The cached values, as the arrays have them. -/
theorem Inv.kept (h : b.Inv) {ps : List ℤ} (hinit : b.inited = decide (ps ≠ [])) (hroom : Roomy b)
    (hw : ∀ low high, (∀ p ∈ ps, low ≤ p ∧ p ≤ high) → low ∈ ps → high ∈ ps → Within low high b) : Kept ps b where
  fresh hps := by
    have hfresh : b.inited = false := by simp [hinit, hps]
    have hbid := h.uninit hfresh
    have hask := h.askQty_uninit hfresh
    exact ⟨hbid,hask,by simp [h.bestBid, hbid, lastSlot],by simp [h.bestAsk, hask, firstSlot]⟩
  length_eq := h.length_eq
  length_ge hps := hroom (by simp [hinit, hps])
  length_le hps := by
    obtain ⟨low,hlow,high,hhigh,hb⟩ := exists_bounds hps
    have hends := hw low high hb hlow hhigh (by simp [hinit, hps])
    exact ⟨low,hlow,high,hhigh,hb,by omega⟩
  bidDepth := h.bidDepth.trans (slots_length 0 b.bidQty)
  askDepth := h.askDepth.trans (slots_length 0 b.askQty)
  bestBid i := by
    rw [h.bestBid]
    exact last_slot_iff
  bestAsk i := by
    rw [h.bestAsk]
    exact first_slot_iff
  noBid := by
    rw [h.bestBid, lastSlot, Option.map_eq_none_iff, List.getLast?_eq_none_iff]
    exact slots_eq_nil_iff
  noAsk := by
    rw [h.bestAsk, firstSlot, Option.map_eq_none_iff, List.head?_eq_none_iff]
    exact slots_eq_nil_iff

theorem Inv.indexes (h : b.Inv) (hd : Domain lo hi) (hw : b.Within lo hi) (hpx : lo ≤ ev.px.toInt)
    (hpx' : ev.px.toInt ≤ hi) : Indexes b ev := by
  obtain ⟨b₁,hb₁,h₁,_,_,_,hge,hlt⟩ := h.ensureRange hw hpx hpx' hd.low hd.high hd.span
  have hidx := asUsize_sub hge
  have hi₁ : asUsize (ev.px-b₁.base) < b₁.bidQty.length := by omega
  refine ⟨b₁,hb₁,hi₁,h₁.length_eq ▸ hi₁,fun hocc => ?_,fun hocc => ?_⟩
  · rw [h₁.bidDepth]
    exact slots_length_pos hocc
  · rw [h₁.askDepth]
    exact slots_length_pos hocc

/-- After any events of the domain the book keeps its invariant, and the next level of the
domain finds its slot. -/
theorem flat_invariant {lo hi : ℤ} {evs : List BookEvent}
    (hpx : ∀ ev ∈ evs, ev.kind = .level → lo ≤ ev.px.toInt ∧ ev.px.toInt ≤ hi) (hlo : -2^63 ≤ lo-4096)
    (hhi : hi+4097 ≤ 2^63-1) (hspan : hi-lo+8193 ≤ MAX_SPAN) :
    ∃ b : FlatBook, replay default evs = some b ∧ Kept (pricesSeen evs) b ∧
      ∀ ev : BookEvent, ev.kind = .level → lo ≤ ev.px.toInt → ev.px.toInt ≤ hi → Indexes b ev := by
  have hd : Domain lo hi := ⟨hlo,by omega,hspan⟩
  obtain ⟨b,hb,h,_,hw⟩ := (refines hd).replay (refines hd).start evs hpx
  obtain ⟨hinit,hroom⟩ := replay_roomy hb
  refine ⟨b,hb,h.kept hinit hroom ?_,fun ev _ => h.indexes hd hw⟩
  -- The prices seen are a domain of their own, and the arrays stay within its margins.
  intro low high hbounds hlow hhigh
  obtain ⟨ev,hev,hk,rfl⟩ := mem_pricesSeen.mp hlow
  obtain ⟨ev',hev',hk',rfl⟩ := mem_pricesSeen.mp hhigh
  have hl := hpx ev hev hk
  have hh := hpx ev' hev' hk'
  have hd' : Domain ev.px.toInt ev'.px.toInt := ⟨by omega,by omega,by omega⟩
  obtain ⟨b',hb',_,_,hw'⟩ := (refines hd').replay (refines hd').start evs fun ev hev hk =>
    hbounds _ (mem_pricesSeen.mpr ⟨ev,hev,hk,rfl⟩)
  obtain rfl := Option.some.inj (hb.symm.trans hb')
  exact hw'

/-- A bid that is replaced by a lower one, and a clear. -/
theorem flat_invariant_clear :
    let evs := [.level 0 0 .bid 100 7,.level 1 0 .bid 90 5,.level 2 0 .bid 100 0,.clear 3 0]
    ∃ b : FlatBook, replay default evs = some b ∧ Kept (pricesSeen evs) b ∧
      ∀ ev : BookEvent, ev.kind = .level → 90 ≤ ev.px.toInt → ev.px.toInt ≤ 100 → Indexes b ev :=
  @flat_invariant 90 100 _ (by decide) (by decide) (by decide) (by decide)

end Invariant
end FlatBook
end LowLatencyLob.Book
