import LowLatencyLob.Sync.Ring
import Mathlib.Data.List.Range

/-! The history of a ring, read off a trace, and what a ring is for: each consumer
walks over the log of pushed records, forward only, and every position it passes
is either delivered to it or counted as skipped. -/
namespace LowLatencyLob.Ring
open Concurrency

variable {C : Capacity} {W : ℕ}

/-- Events of a ring, the same under every memory. -/
abbrev RingEvent (C : Capacity) (W : ℕ) :=
  Event Thread (@Access.Result (Loc C W) Val) (Call W) (Out W)

/-- The records given to `push`, oldest first: position `p` is the `p`-th of them. -/
def pushed : List (RingEvent C W) → List (Record W)
  | [] => []
  | .call _ (.push rec) :: tr => pushed tr ++ [rec]
  | _ :: tr => pushed tr

@[simp] theorem pushed_ret (t : Thread) (o : Out W) (tr : List (RingEvent C W)) :
    pushed (.ret t o :: tr) = pushed tr := rfl

/-- Only a call of `push` makes the log longer. -/
theorem pushed_cons {e : RingEvent C W} (h : ∀ t rec, e ≠ .call t (.push rec)) (tr : List (RingEvent C W)) :
    pushed (e :: tr) = pushed tr := by
  cases e with
  | call t c =>
    cases c with
    | push rec => exact absurd rfl (h t rec)
    | _ => rfl
  | access t a r => rfl
  | ret t o => rfl

theorem pushed_grows (e : RingEvent C W) (tr : List (RingEvent C W)) : pushed tr <+: pushed (e :: tr) := by
  by_cases he : ∃ t rec, e = .call t (.push rec)
  · obtain ⟨t,rec,rfl⟩ := he
    exact List.prefix_append _ _
  · rw [pushed_cons fun t rec h => he ⟨t,rec,h⟩]

theorem pushed_tail {n : ℕ} (e : RingEvent C W) (tr : List (RingEvent C W))
    (h : (pushed (e :: tr)).length < n) : (pushed tr).length < n := (pushed_grows e tr).length_le.trans_lt h

/-- What the calls of consumer `i` returned, oldest first. -/
def outs (i : ℕ) : List (RingEvent C W) → List (Out W)
  | [] => []
  | .ret t o :: tr => if t = .consumer i then outs i tr ++ [o] else outs i tr
  | _ :: tr => outs i tr

theorem outs_cons_other {i : ℕ} {e : RingEvent C W} (h : e.thread ≠ .consumer i)
    (tr : List (RingEvent C W)) : outs i (e :: tr) = outs i tr := by
  cases e with
  | call t c => rfl
  | access t a r => rfl
  | ret t o => exact if_neg h

@[simp] theorem outs_ret_self (i : ℕ) (o : Out W) (tr : List (RingEvent C W)) :
    outs i (.ret (.consumer i) o :: tr) = outs i tr ++ [o] := if_pos rfl

/-- Whatever a consumer was told, it was told at some moment. -/
theorem mem_outs {i : ℕ} {o : Out W} {tr : List (RingEvent C W)} (h : o ∈ outs i tr) :
    ∃ tr₀, (.ret (.consumer i) o :: tr₀) <:+ tr := by
  induction tr with
  | nil => exact absurd h List.not_mem_nil
  | cons e tr ih =>
    by_cases he : ∃ o', e = .ret (.consumer i) o'
    · obtain ⟨o',rfl⟩ := he
      rw [outs_ret_self] at h
      rcases List.mem_append.mp h with h | h
      · obtain ⟨tr₀,hs⟩ := ih h
        exact ⟨tr₀,hs.trans (List.suffix_cons _ _)⟩
      · obtain rfl := List.mem_singleton.mp h
        exact ⟨tr,List.suffix_rfl⟩
    · have ho : outs i (e :: tr) = outs i tr := by
        cases e with
        | call t c => rfl
        | access t a r => rfl
        | ret t o' => exact if_neg fun ht => he ⟨o',by rw [ht]⟩
      obtain ⟨tr₀,hs⟩ := ih (ho ▸ h)
      exact ⟨tr₀,hs.trans (List.suffix_cons _ _)⟩

/-- The items a consumer got, each with the cursor of the call. -/
def items (os : List (Out W)) : List (ℕ × Record W) :=
  os.filterMap fun o => match o with
    | .received c (.item rec) _ => some (c,rec)
    | _ => none

/-- The skip counts a consumer was told. -/
def skips (os : List (Out W)) : List ℕ :=
  os.filterMap fun o => match o with
    | .received _ (.overrun k) _ => some k
    | _ => none

/-- The values of a consumer's cursor, from the one it joined with. -/
def cursors (os : List (Out W)) : List ℕ :=
  os.filterMap fun o => match o with
    | .joined c => some c
    | .received _ _ c => some c
    | .pushed => none

/-- The cursor of consumer `i` at the end of a trace. -/
def cursorOf (i : ℕ) (tr : List (RingEvent C W)) : Option ℕ := (cursors (outs i tr)).getLast?

/-- A consumer that joined at `start` and now stands at `cursor` of the log. -/
inductive Walk (log : List (Record W)) : List (Out W) → ℕ → ℕ → Prop
  | joined (c : ℕ) : Walk log [.joined c] c c
  | item {os a c rec} (h : Walk log os a c) (hrec : log[c]? = some rec) :
      Walk log (os ++ [.received c (.item rec) (c+1)]) a (c+1)
  | empty {os a c} (h : Walk log os a c) : Walk log (os ++ [.received c .empty c]) a c
  | overrun {os a c} (h : Walk log os a c) (k : ℕ) :
      Walk log (os ++ [.received c (.overrun k) (c+k)]) a (c+k)

namespace Walk
variable {log log' : List (Record W)} {os : List (Out W)} {a c : ℕ}

theorem mono (h : Walk log os a c) (hl : log <+: log') : Walk log' os a c := by
  induction h with
  | joined c => exact .joined c
  | item h hrec ih => exact ih.item (getElem?_of_grows hl hrec)
  | empty h ih => exact ih.empty
  | overrun h k ih => exact ih.overrun k

/-- Every position passed was delivered or counted, and none was both. -/
theorem accounts (h : Walk log os a c) : a + (items os).length + (skips os).sum = c := by
  induction h with
  | joined c => rfl
  | item h hrec ih =>
    simp only [items, skips, List.filterMap_append, List.filterMap_cons, List.filterMap_nil,
      List.length_append, List.length_singleton, List.append_nil] at ih ⊢
    omega
  | empty h ih => simpa [items, skips] using ih
  | overrun h k ih =>
    simp only [items, skips, List.filterMap_append, List.filterMap_cons, List.filterMap_nil,
      List.append_nil, List.sum_append, List.sum_singleton] at ih ⊢
    omega

/-- The newest call of a consumer started where its walk stood. -/
theorem of_snoc {r : Recv W} {c' x : ℕ} (h : Walk log (os ++ [.received c r c']) a x) :
    Walk log os a c := by
  generalize hos : os ++ [Out.received c r c'] = os' at h
  cases h with
  | joined c => simp [List.append_eq_singleton_iff] at hos
  | item h hrec =>
    obtain ⟨rfl,heq⟩ := List.append_inj' hos rfl
    cases heq
    exact h
  | empty h =>
    obtain ⟨rfl,heq⟩ := List.append_inj' hos rfl
    cases heq
    exact h
  | overrun h k =>
    obtain ⟨rfl,heq⟩ := List.append_inj' hos rfl
    cases heq
    exact h

theorem items_append (os : List (Out W)) (o : Out W) : items (os ++ [o]) = items os ++ items [o] :=
  List.filterMap_append ..

theorem item_mem (h : Walk log os a c) :
    ∀ x ∈ items os, a ≤ x.1 ∧ x.1 < c ∧ log[x.1]? = some x.2 := by
  induction h with
  | joined c => simp [items]
  | item h hrec ih =>
    intro x hx
    have ha := h.accounts
    rw [items_append] at hx
    rcases List.mem_append.mp hx with hx | hx
    · obtain ⟨h₁,h₂,h₃⟩ := ih x hx
      exact ⟨h₁,by omega,h₃⟩
    · obtain rfl := List.mem_singleton.mp hx
      exact ⟨by omega,by omega,hrec⟩
  | empty h ih => simpa [items_append, items] using ih
  | overrun h k ih =>
    intro x hx
    obtain ⟨h₁,h₂,h₃⟩ := ih x (by simpa [items_append, items] using hx)
    exact ⟨h₁,by omega,h₃⟩

/-- Items come at strictly increasing positions. -/
theorem items_increasing (h : Walk log os a c) : ((items os).map Prod.fst).Pairwise (· < ·) := by
  induction h with
  | joined c => simp [items]
  | item h hrec ih =>
    rw [items_append, List.map_append]
    refine List.pairwise_append.mpr ⟨ih,by simp [items],?_⟩
    rintro p hp q hq
    obtain ⟨x,hx,rfl⟩ := List.mem_map.mp hp
    obtain rfl : q = _ := by simpa [items] using hq
    exact (h.item_mem x hx).2.1
  | empty h ih => simpa [items_append, items] using ih
  | overrun h k ih => simpa [items_append, items] using ih

theorem cursors_append (os : List (Out W)) (o : Out W) :
    cursors (os ++ [o]) = cursors os ++ cursors [o] := List.filterMap_append ..

theorem cursors_getLast (h : Walk log os a c) : (cursors os).getLast? = some c := by
  cases h <;> simp [cursors]

/-- The cursor never decreases. -/
theorem cursors_sorted (h : Walk log os a c) :
    (cursors os).Pairwise (· ≤ ·) ∧ ∀ x ∈ cursors os, x ≤ c := by
  have hsnoc : ∀ {os : List (Out W)} {c c' : ℕ} {o : Out W}, cursors [o] = [c'] → c ≤ c' →
      (cursors os).Pairwise (· ≤ ·) ∧ (∀ x ∈ cursors os, x ≤ c) →
      (cursors (os ++ [o])).Pairwise (· ≤ ·) ∧ ∀ x ∈ cursors (os ++ [o]), x ≤ c' := by
    intro os c c' o ho hc ⟨hp,hm⟩
    rw [cursors_append, ho]
    constructor
    · refine List.pairwise_append.mpr ⟨hp,by simp,?_⟩
      intro x hx y hy
      rw [List.mem_singleton.mp hy]
      exact (hm x hx).trans hc
    · intro x hx
      rcases List.mem_append.mp hx with hx | hx
      · exact (hm x hx).trans hc
      · exact (List.mem_singleton.mp hx).le
  induction h with
  | joined c => simp [cursors]
  | item h hrec ih => exact hsnoc rfl (by omega) ih
  | empty h ih => exact hsnoc rfl le_rfl ih
  | overrun h k ih => exact hsnoc rfl (by omega) ih

theorem head_joined (h : Walk log os a c) : os.head? = some (.joined a) := by
  induction h with
  | joined c => rfl
  | item h hrec ih => simp [ih]
  | empty h ih => simp [ih]
  | overrun h k ih => simp [ih]

/-- A consumer that is told of no skip receives every record from its start on, in
order and once each. -/
theorem contiguous (h : Walk log os a c) (hs : (skips os).sum = 0) (n : ℕ) (hn : a+n < c) :
    ∃ rec, (items os)[n]? = some (a+n,rec) ∧ log[a+n]? = some rec := by
  induction h with
  | joined c => omega
  | @item os a c rec h hrec ih =>
    have ha := h.accounts
    have hs' : (skips os).sum = 0 := by simpa [skips] using hs
    rw [items_append]
    rcases Nat.lt_succ_iff_lt_or_eq.mp hn with hlt | heq
    · obtain ⟨r,h₁,h₂⟩ := ih hs' hlt
      exact ⟨r,by rw [List.getElem?_append_left (List.getElem?_eq_some_iff.mp h₁).1]; exact h₁,h₂⟩
    · have hlen : n = (items os).length := by omega
      refine ⟨rec,?_,heq ▸ hrec⟩
      rw [List.getElem?_append_right hlen.ge, hlen, Nat.sub_self, ← hlen, heq]
      rfl
  | empty h ih => simpa [items_append, items] using ih (by simpa [skips] using hs) hn
  | @overrun os a c h k ih =>
    have hs' : (skips os).sum + k = 0 := by simpa [skips] using hs
    simpa [items_append, items] using ih (by omega) (by omega)

end Walk
end LowLatencyLob.Ring
