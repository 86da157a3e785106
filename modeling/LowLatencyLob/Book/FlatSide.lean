import LowLatencyLob.Book.Flat
import LowLatencyLob.Sequence.Slots
import LowLatencyLob.Sequence.Words

/-! One side of a `FlatBook`: the array of quantities as occupied slots, the cached best
and depth that go with them, and the ticks they stand for. -/
namespace LowLatencyLob.Book
open Sequence

namespace FlatBook

theorem asUsize_eq {x : Int64} (h : 0 ≤ x.toInt) : asUsize x = x.toInt.toNat := by
  change x.toBitVec.toNat = x.toBitVec.toInt.toNat
  change 0 ≤ x.toBitVec.toInt at h
  rw [BitVec.toInt_eq_toNat_cond] at h ⊢
  split_ifs at h ⊢ <;> omega

/-- A difference of ticks as an index wraps twice, to where it belongs. -/
theorem asUsize_sub {a b : Int64} (h : a.toInt ≤ b.toInt) : (asUsize (b-a) : ℤ) = b.toInt-a.toInt := by
  change ((b.toBitVec-a.toBitVec).toNat : ℤ) = b.toBitVec.toInt-a.toBitVec.toInt
  change a.toBitVec.toInt ≤ b.toBitVec.toInt at h
  rw [BitVec.toInt_eq_toNat_cond, BitVec.toInt_eq_toNat_cond] at h ⊢
  rw [BitVec.toNat_sub]
  split_ifs at h ⊢ <;> omega

theorem asUsize_asI64 {i : ℕ} (h : i < 2^64) : asUsize (asI64 i) = i := by
  change (BitVec.ofNat 64 i).toNat = i
  rw [BitVec.toNat_ofNat]
  exact Nat.mod_eq_of_lt h

theorem toInt_asI64 {i : ℕ} (h : i < 2^63) : (asI64 i).toInt = i := Int64.toInt_ofNat_of_lt h

section Half
variable {h : Half} {beats : ℕ → ℕ → Bool} {probe : List Qty → ℕ → Option ℕ} {i n : ℕ} {old qty : Qty}
  {g w : Option ℕ}

/-- The slot itself, where it is occupied. -/
def self (i : ℕ) (qty : Qty) : Option ℕ := if qty = 0 then none else some i

def count (qty : Qty) : ℕ := if qty = 0 then 0 else 1

/-- Comparing a new slot with the cached best finds the best of all. -/
theorem best_of_beats (hg : ∀ j, g = some j → beats i j = false) (hi : beats i i = false)
    (hw : ∀ j, w = some j → beats i j = true) :
    (if (g.or ((self i old).or w)).all (beats i) then some i else g.or ((self i old).or w)) =
      g.or (some i) := by
  cases g with
  | some j => simp [hg j rfl]
  | none =>
    by_cases ho : old = 0
    · cases w with
      | none => simp [self, ho]
      | some j => simp [self, ho, hw j rfl]
    · simp [self, ho, hi]

/-- Setting one slot, when `g` is the best index on the better side of it and `w` the
best on the worse side: the cached best and the depth stay right. -/
theorem Half.set_eq (hold : h.qty[i]? = some old) (hbest : h.best = g.or ((self i old).or w))
    (hg : ∀ j, g = some j → beats i j = false ∧ j ≠ i) (hi : beats i i = false)
    (hw : ∀ j, w = some j → beats i j = true) (hprobe : probe (h.qty.set i qty) i = w)
    (hdepth : h.depth = n + count old) (hn : n+1 < 2^64) :
    h.set beats probe i qty = some ⟨h.qty.set i qty,g.or ((self i qty).or w),n + count qty⟩ := by
  have hsub : wrappingSub (n+1) 1 = n := by
    unfold wrappingSub
    omega
  have hadd : wrappingAdd n 1 = n+1 := Nat.mod_eq_of_lt hn
  obtain ⟨q,best,depth⟩ := h
  simp only at hold hbest hprobe hdepth
  subst hbest hdepth
  unfold Half.set
  rw [hold]
  by_cases hq : qty = 0
  · by_cases ho : old = 0
    · simp [hq, ho, self, count]
    · -- An occupied slot is emptied: the best moves only if it was this slot.
      cases g with
      | none => simp [hq, ho, self, count, hsub, ← hprobe]
      | some j => simp [hq, ho, self, count, hsub, (hg j rfl).2]
  · have hbest := @best_of_beats _ _ old _ _ (fun j hj => (hg j hj).1) hi hw
    have hself : (self i qty).or w = some i := by simp [self, hq]
    rw [hself, ← hbest]
    by_cases ho : old = 0
    · simp only [Option.map_some, hq, ho, count, ne_eq, not_true_eq_false, not_false_eq_true, if_true, if_false,
        Nat.add_zero, hadd]
      split_ifs <;> rfl
    · simp only [Option.map_some, hq, ho, count, ne_eq, not_true_eq_false, not_false_eq_true, if_false]
      split_ifs <;> rfl

end Half

section Best
variable {xs : List Qty} {i : ℕ} {v : Qty}

/-- The highest occupied index of an array. -/
def lastSlot (xs : List Qty) : Option ℕ := (slots 0 xs).getLast?.map Prod.fst

/-- The lowest occupied index of an array. -/
def firstSlot (xs : List Qty) : Option ℕ := (slots 0 xs).head?.map Prod.fst

theorem entry_last (i : ℕ) (v : Qty) : (entry i v).getLast?.map Prod.fst = self i v := by
  unfold entry self
  split_ifs <;> rfl

theorem entry_head (i : ℕ) (v : Qty) : (entry i v).head?.map Prod.fst = self i v := by
  unfold entry self
  split_ifs <;> rfl

theorem entry_length (i : ℕ) (v : Qty) : (entry i v).length = count v := by
  unfold entry count
  split_ifs <;> rfl

theorem last_split {A B : List (ℕ × Qty)} :
    (A ++ (entry i v ++ B)).getLast?.map Prod.fst =
      (B.getLast?.map Prod.fst).or ((self i v).or (A.getLast?.map Prod.fst)) := by
  rw [List.getLast?_append, List.getLast?_append, Option.map_or, Option.map_or, entry_last, Option.or_assoc]

theorem head_split {A B : List (ℕ × Qty)} :
    (A ++ (entry i v ++ B)).head?.map Prod.fst =
      (A.head?.map Prod.fst).or ((self i v).or (B.head?.map Prod.fst)) := by
  rw [List.head?_append, List.head?_append, Option.map_or, Option.map_or, entry_head]

theorem length_split {A B : List (ℕ × Qty)} :
    (A ++ (entry i v ++ B)).length = A.length + B.length + count v := by
  rw [List.length_append, List.length_append, entry_length]
  omega

/-- A best index that comes from some slots is the index of one of them. -/
theorem mem_of_pick {S : List (ℕ × Qty)} {j : ℕ}
    (h : S.getLast?.map Prod.fst = some j ∨ S.head?.map Prod.fst = some j) : ∃ x ∈ S, x.1 = j := by
  rcases h with h | h
  · obtain ⟨x,hx,rfl⟩ := Option.map_eq_some_iff.mp h
    exact ⟨x,List.mem_of_getLast? hx,rfl⟩
  · obtain ⟨x,hx,rfl⟩ := Option.map_eq_some_iff.mp h
    exact ⟨x,List.mem_of_head? hx,rfl⟩

theorem lt_of_below {j : ℕ} (h : (slots 0 (xs.take i)).getLast?.map Prod.fst = some j ∨
    (slots 0 (xs.take i)).head?.map Prod.fst = some j) : j < i := by
  obtain ⟨x,hx,rfl⟩ := mem_of_pick h
  have hb := slots_bounds hx
  rw [List.length_take] at hb
  omega

theorem lt_of_above {j : ℕ} (h : (slots (i+1) (xs.drop (i+1))).getLast?.map Prod.fst = some j ∨
    (slots (i+1) (xs.drop (i+1))).head?.map Prod.fst = some j) : i < j := by
  obtain ⟨x,hx,rfl⟩ := mem_of_pick h
  have hb := slots_bounds hx
  omega

theorem probeBid_set (h : i < xs.length) (v : Qty) :
    probeBid (xs.set i v) i = (slots 0 (xs.take i)).getLast?.map Prod.fst := by
  rw [← find_down (xs.take i) (v :: xs.drop (i+1)), List.length_take, Nat.min_eq_left h.le,
    List.set_eq_take_append_cons_drop, if_pos h]
  rfl

theorem probeAsk_set (h : i < xs.length) (v : Qty) :
    probeAsk (xs.set i v) i = (slots (i+1) (xs.drop (i+1))).head?.map Prod.fst := by
  have hlen : (xs.take i ++ [v]).length = i+1 := by
    rw [List.length_append, List.length_take, List.length_singleton]
    omega
  have hfind := find_up (xs.take i ++ [v]) (xs.drop (i+1))
  rw [hlen, List.append_assoc, List.singleton_append] at hfind
  rw [← hfind, List.length_drop]
  unfold probeAsk
  rw [List.length_set, List.set_eq_take_append_cons_drop, if_pos h]

/-- A bid array whose best and depth are right stays so when a slot is set. -/
theorem bid_set {best : Option ℕ} {depth : ℕ} (h : i < xs.length) (hbest : best = lastSlot xs)
    (hdepth : depth = (slots 0 xs).length) (hlen : xs.length < 2^64) (v : Qty) :
    Half.set ⟨xs,best,depth⟩ (fun i best => i > best) probeBid i v =
      some ⟨xs.set i v,lastSlot (xs.set i v),(slots 0 (xs.set i v)).length⟩ := by
  have hold : xs[i]? = some xs[i] := List.getElem?_eq_getElem h
  unfold lastSlot at hbest ⊢
  rw [slots_split hold] at hbest hdepth
  rw [slots_set h, last_split, length_split]
  rw [last_split] at hbest
  rw [length_split] at hdepth
  have hcount := slots_length_le 0 (xs.take i)
  have hcount' := slots_length_le (i+1) (xs.drop (i+1))
  rw [List.length_take] at hcount
  rw [List.length_drop] at hcount'
  refine Half.set_eq hold hbest ?_ (by simp) ?_ (probeBid_set h v) hdepth (by omega)
  · intro j hj
    have hlt := lt_of_above (.inl hj)
    exact ⟨decide_eq_false (by omega),by omega⟩
  · intro j hj
    exact decide_eq_true (lt_of_below (.inl hj))

/-- The same for an ask array. -/
theorem ask_set {best : Option ℕ} {depth : ℕ} (h : i < xs.length) (hbest : best = firstSlot xs)
    (hdepth : depth = (slots 0 xs).length) (hlen : xs.length < 2^64) (v : Qty) :
    Half.set ⟨xs,best,depth⟩ (fun i best => i < best) probeAsk i v =
      some ⟨xs.set i v,firstSlot (xs.set i v),(slots 0 (xs.set i v)).length⟩ := by
  have hold : xs[i]? = some xs[i] := List.getElem?_eq_getElem h
  unfold firstSlot at hbest ⊢
  rw [slots_split hold] at hbest hdepth
  rw [slots_set h, head_split, length_split]
  rw [head_split] at hbest
  rw [length_split] at hdepth
  have hcount := slots_length_le 0 (xs.take i)
  have hcount' := slots_length_le (i+1) (xs.drop (i+1))
  rw [List.length_take] at hcount
  rw [List.length_drop] at hcount'
  refine Half.set_eq hold hbest ?_ (by simp) ?_ (probeAsk_set h v) hdepth (by omega)
  · intro j hj
    have hlt := lt_of_below (.inr hj)
    exact ⟨decide_eq_false (by omega),by omega⟩
  · intro j hj
    exact decide_eq_true (lt_of_above (.inr hj))

end Best

section Ticks
variable {base : Int64} {xs : List Qty} {p : Px}

/-- The quantity that an array with base `base` keeps for a price. -/
def tickQty (base : Int64) (xs : List Qty) (p : Px) : Qty :=
  if base.toInt ≤ p.toInt then xs[(p.toInt-base.toInt).toNat]?.getD 0 else 0

/-- Slots, by price. -/
def ticks (base : Int64) (S : List (ℕ × Qty)) : List (Px × Qty) := S.map fun x => (base+asI64 x.1,x.2)

theorem toInt_tick {i : ℕ} (h : base.toInt+i < 2^63) : (base+asI64 i).toInt = base.toInt+i := by
  have hlo := Int64.le_toInt base
  unfold asI64
  rw [Int64.toInt_add, Int64.toInt_ofNat', show Int64.size = 2^64 from rfl, Int.add_bmod_bmod]
  apply Int.bmod_eq_of_le <;> omega

/-- The slots of an array list its quantities in ascending order of the prices. -/
theorem ticks_listing (hfit : base.toInt+xs.length ≤ 2^63) :
    Listing (· < ·) (tickQty base xs) (ticks base (slots 0 xs)) := by
  have htick : ∀ {i : ℕ}, i < xs.length → (base+asI64 i).toInt = base.toInt+i := fun hi =>
    toInt_tick (by omega)
  have hlt : ∀ x ∈ slots 0 xs, x.1 < xs.length := fun x hx => by
    have hb := slots_bounds hx
    omega
  refine (slots_listing xs).map (g := fun i => base+asI64 i) ?_ ?_ ?_
  · intro x hx y hy hxy
    rw [Int64.lt_iff_toInt_lt, htick (hlt x hx), htick (hlt y hy)]
    omega
  · intro x hx
    unfold tickQty
    rw [htick (hlt x hx), if_pos (by omega)]
    congr 2
    omega
  · intro p hp
    unfold tickQty at hp ⊢
    split_ifs at hp ⊢ with hle
    · refine ⟨(p.toInt-base.toInt).toNat,?_,rfl⟩
      have hidx : (p.toInt-base.toInt).toNat < xs.length := by
        by_contra hge
        rw [List.getElem?_eq_none (by omega)] at hp
        exact hp rfl
      rw [← Int64.toInt_inj, htick hidx]
      omega
    · exact absurd rfl hp

theorem tickQty_set {i : ℕ} (hi : i < xs.length) (hle : base.toInt ≤ p.toInt)
    (hp : (p.toInt-base.toInt).toNat = i) (v : Qty) :
    tickQty base (xs.set i v) = Function.update (tickQty base xs) p v := by
  funext p'
  by_cases hpp : p' = p
  · subst p'
    rw [Function.update_self, tickQty, if_pos hle, hp]
    simp [hi]
  · rw [Function.update_of_ne hpp]
    unfold tickQty
    split_ifs with hle'
    · have hne : i ≠ (p'.toInt-base.toInt).toNat := by
        intro heq
        apply hpp
        rw [← Int64.toInt_inj]
        omega
      rw [List.getElem?_set_ne hne]
    · rfl

/-- Growing the array by zeroes on both sides changes no quantity. -/
theorem tickQty_grow {base' : Int64} {shift n : ℕ} (h : base'.toInt+shift = base.toInt) :
    tickQty base' (List.replicate shift 0 ++ xs ++ List.replicate n 0) = tickQty base xs := by
  funext p
  unfold tickQty
  by_cases hle : base.toInt ≤ p.toInt
  · rw [if_pos hle, if_pos (by omega), List.append_assoc,
      List.getElem?_append_right (by rw [List.length_replicate]; omega),
      List.length_replicate]
    have hidx : (p.toInt-base'.toInt).toNat-shift = (p.toInt-base.toInt).toNat := by omega
    rw [hidx, List.getElem?_append]
    split_ifs with hlt
    · rfl
    · rw [List.getElem?_eq_none (Nat.le_of_not_lt hlt), List.getElem?_replicate]
      split_ifs <;> rfl
  · rw [if_neg hle]
    split_ifs with hle'
    · rw [List.append_assoc, List.getElem?_append_left (by rw [List.length_replicate]; omega),
        List.getElem?_replicate]
      split_ifs <;> rfl
    · rfl

theorem tickQty_zero (base : Int64) (n : ℕ) : tickQty base (List.replicate n 0) = fun _ => 0 := by
  funext p
  unfold tickQty
  rw [List.getElem?_replicate]
  split_ifs <;> rfl

end Ticks

section Walks
variable {base : Int64}

/-- The ask loop of `top_n` writes the slots from where it stands. -/
theorem walkAsk_eq (pre ys : List Qty) (done rest : List (Px × Qty)) :
    walkAsk base (pre ++ ys) ys.length pre.length (done.length,done ++ rest) =
      some (done.length+(Slice.written (ticks base (slots pre.length ys)) rest).1,
        done ++ (Slice.written (ticks base (slots pre.length ys)) rest).2) := by
  induction ys generalizing pre done rest with
  | nil => simp [walkAsk, ticks]
  | cons y ys ih =>
    cases rest with
    | nil => simp [walkAsk]
    | cons r rest =>
      have hlt : done.length < (done ++ r :: rest).length := by simp
      have hy : (pre ++ y :: ys)[pre.length]? = some y := by simp
      have hpre : pre ++ y :: ys = (pre ++ [y]) ++ ys := by simp
      have hlen : (pre ++ [y]).length = pre.length+1 := by simp
      rw [List.length_cons, walkAsk, if_pos hlt, hy, Option.bind_some, slots]
      by_cases hz : y = 0
      · have hstep := ih (pre ++ [y]) done (r :: rest)
        rw [← hpre, hlen] at hstep
        rw [if_neg (by simp [hz]), hstep, hz, entry_zero, List.nil_append]
      · have hset : (done ++ r :: rest).set done.length (base+asI64 pre.length,y) =
            (done ++ [(base+asI64 pre.length,y)]) ++ rest := by simp
        have hstep := ih (pre ++ [y]) (done ++ [(base+asI64 pre.length,y)]) rest
        rw [← hpre, hlen, List.length_append, List.length_singleton, ← hset] at hstep
        rw [if_pos hz, hstep, entry_of_ne _ hz]
        simp only [ticks, List.singleton_append, List.map_cons, Slice.written_cons, List.append_assoc]
        congr 2
        omega

/-- The bid loop of `top_n` writes the slots below where it stands, downward. -/
theorem walkBid_eq (ys zs : List Qty) (done rest : List (Px × Qty)) :
    walkBid base (ys ++ zs) ys.length (done.length,done ++ rest) =
      some (done.length+(Slice.written (ticks base (slots 0 ys).reverse) rest).1,
        done ++ (Slice.written (ticks base (slots 0 ys).reverse) rest).2) := by
  induction ys using List.reverseRecOn generalizing zs done rest with
  | nil => simp [walkBid, ticks]
  | append_singleton ys y ih =>
    rw [List.length_append, List.length_singleton, List.append_assoc, List.singleton_append,
      slots_append, slots_singleton, Nat.zero_add, List.reverse_append]
    cases rest with
    | nil => simp [walkBid]
    | cons r rest =>
      have hlt : done.length < (done ++ r :: rest).length := by simp
      have hy : (ys ++ y :: zs)[ys.length]? = some y := by simp
      rw [walkBid, if_pos hlt, hy, Option.bind_some]
      by_cases hz : y = 0
      · rw [if_neg (by simp [hz]), ih, hz, entry_zero, List.reverse_nil, List.nil_append]
      · have hset : (done ++ r :: rest).set done.length (base+asI64 ys.length,y) =
            (done ++ [(base+asI64 ys.length,y)]) ++ rest := by simp
        have hstep := ih (y :: zs) (done ++ [(base+asI64 ys.length,y)]) rest
        rw [List.length_append, List.length_singleton, ← hset] at hstep
        rw [if_pos hz, hstep, entry_of_ne _ hz]
        simp only [ticks, List.reverse_singleton, List.singleton_append, List.map_cons, Slice.written_cons,
          List.append_assoc]
        congr 2
        omega

end Walks
end FlatBook
end LowLatencyLob.Book
