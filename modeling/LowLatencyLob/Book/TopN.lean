import LowLatencyLob.Book.Agreement
import LowLatencyLob.Book.History
import LowLatencyLob.Book.FlatLimits

/-! What `top_n` does to the buffer it is given, for each of the books. -/
namespace LowLatencyLob.Book
open Sequence

section Topped
variable {side : Side} {f : Px → Qty} {ladder out : List (Px × Qty)}

/-- The first levels of a ladder stand in front of `out'`, `n` of them, best first, and
past them `out'` is as `out`. -/
structure Topped (side : Side) (ladder out : List (Px × Qty)) (n : ℕ) (out' : List (Px × Qty)) : Prop where
  count : n = min out.length ladder.length
  length : out'.length = out.length
  front : out'.take n = ladder.take n
  sorted : (out'.take n).Pairwise fun x y => better side x.1 y.1
  ne_zero : ∀ x ∈ out'.take n, x.2 ≠ 0
  first : 0 < n → out'.head? = ladder.head?
  rest : out'.drop n = out.drop n

theorem topped_written (h : Listing (better side) f ladder) (out : List (Px × Qty)) :
    Topped side ladder out (Slice.written ladder out).1 (Slice.written ladder out).2 := by
  have hfront := Slice.front_written ladder out
  refine ⟨rfl,?_,hfront,?_,?_,?_,Slice.rest_written ladder out⟩
  · simp only [Slice.written, List.length_append, List.length_take, List.length_drop]
    omega
  · rw [hfront]
    exact h.sorted.sublist (List.take_sublist _ _)
  · rw [hfront]
    exact fun x hx => h.ne_zero (List.mem_of_mem_take hx)
  · intro hpos
    have hhead := congrArg List.head? hfront
    rwa [List.head?_take, List.head?_take, if_neg (by omega), if_neg (by omega)] at hhead

/-- A shorter result is the front of a longer one. -/
theorem Topped.nested {out₁ out₂ out₁' out₂' : List (Px × Qty)} {n₁ n₂ : ℕ}
    (h₁ : Topped side ladder out₁ n₁ out₁') (h₂ : Topped side ladder out₂ n₂ out₂') (h : n₁ ≤ n₂) :
    out₁'.take n₁ <+: out₂'.take n₂ := by
  rw [h₁.front, h₂.front]
  exact List.take_prefix_take_left h

end Topped
section Books
variable {B : Type} [OrderBook B] {b : B} {a : Quotes}

/-- On a side a book has one ladder, of the quantities it stands for: its depth and its
best are those of the ladder, and `top_n` writes the front of it, whatever the buffer. -/
structure TopsSide (b : B) (a : Quotes) (side : Side) (ladder : List (Px × Qty)) : Prop where
  listing : Listing (better side) (a.qty side) ladder
  depth : OrderBook.depth b side = ladder.length
  best : best b side = some ladder.head?
  top : ∀ out, ∃ n out', OrderBook.topN b side out = some (n,out') ∧ Topped side ladder out n out'
  nested : ∀ out₁ out₂ n₁ n₂ out₁' out₂', OrderBook.topN b side out₁ = some (n₁,out₁') →
    OrderBook.topN b side out₂ = some (n₂,out₂') → n₁ ≤ n₂ → out₁'.take n₁ <+: out₂'.take n₂

/-- `top_n` writes the fronts of the ladders that the events leave. -/
def TopsAfter (b : B) (evs : List BookEvent) : Prop :=
  ∀ side, ∃ ladder, TopsSide b (Quotes.replay .empty evs) side ladder

theorem Shows.tops {ladder : Side → List (Px × Qty)} (h : Shows b a ladder) (side : Side) :
    TopsSide b a side (ladder side) := by
  have htop : ∀ {out n out'}, OrderBook.topN b side out = some (n,out') →
      Topped side (ladder side) out n out' := by
    intro out n out' hout
    rw [h.topN, Option.some.injEq] at hout
    have hw := topped_written (h.listing side) out
    rwa [hout] at hw
  refine ⟨h.listing side,h.depth side,?_,fun out => ?_,?_⟩
  · cases side with
    | bid => exact h.bestBid
    | ask => exact h.bestAsk
  · exact ⟨_,_,h.topN side out,htop (h.topN side out)⟩
  · intro out₁ out₂ n₁ n₂ out₁' out₂' h₁ h₂ hle
    exact (htop h₁).nested (htop h₂) hle

theorem Refines.tops [Inhabited B] {P : BookEvent → Prop} {Rep : B → Quotes → Prop}
    (hR : Refines P Rep) (evs : List BookEvent) (hP : ∀ ev ∈ evs, P ev) :
    ∃ b : B, Book.replay default evs = some b ∧ TopsAfter b evs := by
  obtain ⟨b,hb,h⟩ := hR.replay hR.start evs hP
  obtain ⟨ladder,hs⟩ := hR.shows h
  exact ⟨b,hb,fun side => ⟨_,hs.tops side⟩⟩

end Books

/-- After any events `top_n` of each book writes a front of its ladders: of the tree and
vector books after all events, of the flat book while it has not panicked and no side holds
two levels `2^63` ticks apart, which a bounded price range ensures. -/
theorem topN_writes_front (evs : List BookEvent) :
    (∃ t : BTreeBook, replay default evs = some t ∧ TopsAfter t evs) ∧
    (∃ s : SortedVecBook, replay default evs = some s ∧ TopsAfter s evs) ∧
    (∃ r : RevVecBook, replay default evs = some r ∧ TopsAfter r evs) ∧
    (∀ lo hi, FlatBook.Domain lo hi → (∀ ev ∈ evs, FlatBook.Priced lo hi ev) →
      ∃ f : FlatBook, replay default evs = some f ∧ TopsAfter f evs) ∧
    (¬FlatBook.Stretched evs → ∀ f : FlatBook, replay default evs = some f → TopsAfter f evs) := by
  refine ⟨?_,?_,?_,?_,?_⟩
  · exact BTreeBook.refines.tops evs (by simp)
  · exact SortedVecBook.refines.tops evs (by simp)
  · exact RevVecBook.refines.tops evs (by simp)
  · exact fun lo hi hd hpx => (FlatBook.refines hd).tops evs hpx
  · intro hst f hf side
    exact ⟨_,(FlatBook.shows_of_replay hf hst).tops side⟩

/-- Two bids, within ten ticks. -/
theorem topN_writes_front_bids : ∃ f : FlatBook,
    replay default [.level 0 0 .bid 100 7,.level 1 0 .bid 90 5] = some f ∧
    TopsAfter f [.level 0 0 .bid 100 7,.level 1 0 .bid 90 5] := by
  have hd : FlatBook.Domain 90 100 := ⟨by decide,by decide,by decide⟩
  exact (topN_writes_front _).2.2.2.1 90 100 hd (by unfold FlatBook.Priced; decide)

end LowLatencyLob.Book
