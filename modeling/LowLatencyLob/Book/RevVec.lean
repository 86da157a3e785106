import LowLatencyLob.Book.OrderBook

/-! `RevVecBook`: each side a vector stored best-first, located by linear scan. -/
namespace LowLatencyLob.Book
open Sequence

structure RevVecBook where
  /-- Strictly descending; the best is first. -/
  bids : List (Px × Qty)
  /-- Strictly ascending; the best is first. -/
  asks : List (Px × Qty)
  lastTrade : Option (Px × Qty × Side)

namespace RevVecBook

instance : Inhabited RevVecBook := ⟨⟨[],[],none⟩⟩

/-- `ascending` is true for asks, lowest first, and false for bids, highest first.
Scans from the best end to the first slot where `px` belongs. -/
def updateBestFirst (vec : List (Px × Qty)) (px : Px) (qty : Qty) (ascending : Bool) :
    Option (List (Px × Qty)) := do
  match vec.findIdx? fun x => if ascending then decide (x.1 ≥ px) else decide (x.1 ≤ px) with
  | some i =>
    let x ← vec[i]?
    if x.1 = px then
      if qty = 0 then Slice.remove vec i else Slice.modify vec i fun x => (x.1,qty)
    else if qty ≠ 0 then Slice.insert vec i (px,qty) else some vec
  | none => if qty ≠ 0 then some (vec ++ [(px,qty)]) else some vec

def apply (b : RevVecBook) (ev : BookEvent) : Option RevVecBook :=
  match ev.kind with
  | .level =>
    match ev.side with
    | .bid => do
      let bids ← updateBestFirst b.bids ev.px ev.qty false
      return { b with bids }
    | .ask => do
      let asks ← updateBestFirst b.asks ev.px ev.qty true
      return { b with asks }
  | .trade => some { b with lastTrade := some (ev.px,ev.qty,ev.side) }
  | .clear => some ⟨[],[],none⟩

def levels (b : RevVecBook) : Side → List (Px × Qty)
  | .bid => b.bids
  | .ask => b.asks

instance : OrderBook RevVecBook where
  apply := apply
  bestBid b := some b.bids.head?
  bestAsk b := some b.asks.head?
  topN b side out := some (Slice.zipWrite (b.levels side) out)
  depth b side := (b.levels side).length
  lastTrade b := b.lastTrade

/-- The scan of a side stops at the first price that is not better than `px`. -/
theorem scan_eq_false {side : Side} {p px : Px} :
    (if side = .ask then decide (p ≥ px) else decide (p ≤ px)) = false ↔ better side p px := by
  cases side with
  | bid => simp [better, Int64.not_le]
  | ask => simp [better, Int64.not_le]

theorem better_of_scan {side : Side} {p px : Px} (hne : p ≠ px)
    (h : (if side = .ask then decide (p ≥ px) else decide (p ≤ px)) = true) : better side px p := by
  cases side with
  | bid => exact Int64.lt_of_le_of_ne (of_decide_eq_true h) hne
  | ask => exact Int64.lt_of_le_of_ne (of_decide_eq_true h) hne.symm

/-- The update of a best-first vector never panics, and lists the new quantity. -/
theorem updateBestFirst_listing {side : Side} {vec : List (Px × Qty)} {f : Px → Qty}
    (h : Listing (better side) f vec) (px : Px) (qty : Qty) :
    ∃ vec', updateBestFirst vec px qty (side = .ask) = some vec' ∧
      Listing (better side) (Function.update f px qty) vec' := by
  unfold updateBestFirst
  simp only [decide_eq_true_eq]
  rcases Slice.position_cases
      (fun x : Px × Qty => if side = .ask then decide (x.1 ≥ px) else decide (x.1 ≤ px)) vec with
    ⟨l₁,⟨p,q⟩,l₂,rfl,hi,hp,hl₁⟩ | ⟨hi,hl⟩
  · have h₁ : ∀ x ∈ l₁, better side x.1 px := fun x hx => scan_eq_false.mp (hl₁ x hx)
    have hx : (l₁ ++ (p,q) :: l₂)[l₁.length]? = some (p,q) := by simp
    rw [hi]
    simp only [hx, Option.bind_eq_bind, Option.bind_some]
    by_cases hpx : p = px
    · subst p
      refine ⟨l₁ ++ (entry px qty ++ l₂),?_,h.update_at qty⟩
      simp only [Slice.remove_append, Slice.modify_append, if_pos]
      split_ifs with hq
      · rw [hq, entry_zero, List.nil_append]
      · rw [entry_of_ne px hq]
        rfl
    · have hbetter := better_of_scan hpx hp
      have h₂ : ∀ x ∈ (p,q) :: l₂, better side px x.1 := by
        intro x hx
        rcases List.mem_cons.mp hx with rfl | hx
        · exact hbetter
        · have hs := (List.pairwise_cons.mp (List.pairwise_append.mp h.sorted).2.1).1 x hx
          exact IsTrans.trans _ _ _ hbetter hs
      refine ⟨l₁ ++ (entry px qty ++ (p,q) :: l₂),?_,h.update_between h₁ h₂ qty⟩
      rw [if_neg hpx]
      simp only [Slice.insert_append]
      split_ifs with hq
      · rw [entry_of_ne px hq]
        rfl
      · rw [not_not.mp hq, entry_zero, List.nil_append]
  · have h₁ : ∀ x ∈ vec, better side x.1 px := fun x hx => scan_eq_false.mp (hl x hx)
    have h' : Listing (better side) f (vec ++ []) := by simpa using h
    have hup := h'.update_between h₁ (by simp) qty
    refine ⟨vec ++ (entry px qty ++ []),?_,hup⟩
    rw [hi]
    by_cases hq : qty = 0
    · rw [hq, entry_zero]
      simp
    · rw [entry_of_ne px hq]
      simp [hq]

def Rep (b : RevVecBook) (a : Quotes) : Prop :=
  (∀ side, Listing (better side) (a.qty side) (b.levels side)) ∧ b.lastTrade = a.lastTrade

theorem Rep.apply {b : RevVecBook} {a : Quotes} (h : Rep b a) (ev : BookEvent) :
    ∃ b', b.apply ev = some b' ∧ Rep b' (a.apply ev) := by
  obtain ⟨hl,ht⟩ := h
  unfold RevVecBook.apply Quotes.apply
  cases ev.kind with
  | level =>
    cases ev.side with
    | bid =>
      obtain ⟨bids,heq,hb⟩ := updateBestFirst_listing (hl .bid) ev.px ev.qty
      have heq' : updateBestFirst b.bids ev.px ev.qty false = some bids := heq
      refine ⟨{ b with bids },by rw [heq']; rfl,?_,ht⟩
      intro side
      cases side with
      | bid => simpa [levels] using hb
      | ask => simpa [levels] using hl .ask
    | ask =>
      obtain ⟨asks,heq,ha⟩ := updateBestFirst_listing (hl .ask) ev.px ev.qty
      have heq' : updateBestFirst b.asks ev.px ev.qty true = some asks := heq
      refine ⟨{ b with asks },by rw [heq']; rfl,?_,ht⟩
      intro side
      cases side with
      | bid => simpa [levels] using hl .bid
      | ask => simpa [levels] using ha
  | trade => exact ⟨_,rfl,hl,rfl⟩
  | clear =>
    refine ⟨_,rfl,?_,rfl⟩
    intro side
    cases side <;> exact .empty

/-- A `RevVecBook` keeps to the quantities it stands for, over all events. -/
theorem refines : Refines (fun _ => True) Rep where
  start := ⟨fun side => by cases side <;> exact .empty,rfl⟩
  step _ h := h.apply _
  shows {b a} h :=
    ⟨b.levels,h.1,rfl,rfl,fun side out => congrArg some (Slice.zipWrite_eq _ out),fun _ => rfl,h.2⟩

end RevVecBook
end LowLatencyLob.Book
