import LowLatencyLob.Concurrency.Calls
import LowLatencyLob.Concurrency.Serial

/-! What an object is for, one call at a time.

A specification says what each call returns and which state it leaves. An object
implements it when every call that is made alone completes with just that result; its
serial runs are then the runs of the specification, no more and no fewer. -/
namespace LowLatencyLob.Concurrency

variable {T A : Type} {Res : A → Type}

theorem Solo.plays {M : Memory T Res} {t : T} {α : Type} {m m' : M.State} {p : Program Res α}
    {as : List (Σ a, Res a)} {x : α} (h : Solo M t m p as x m') : p.Plays as x := by
  induction h with
  | done m x => exact .done x
  | access _ _ _ ih => exact .access ih
  | loop _ ih => exact .loop ih

/-- The result of each call of a thread, and the state behind it; `none` where the thread
may not make the call. -/
structure Specification (T Call Out : Type) where
  State : Type
  call : State → T → Call → Option (Out × State)

namespace Specification
variable {Call Out : Type} (S : Specification T Call Out)

/-- Make the calls in order. -/
def run : S.State → List (T × Call) → Option (List (T × Out) × S.State)
  | s, [] => some ([],s)
  | s, (t,x) :: xs =>
    (S.call s t x).bind fun y => (run y.2 xs).map fun z => ((t,y.1) :: z.1,z.2)

/-- A client of the specification makes its calls through it. -/
def memory : Memory Unit (fun _ : T × Call => Out) where
  State := S.State
  Choice := Unit
  exec _ s x _ := S.call s x.1 x.2

variable {S}

theorem run_cons {s s' s₁ : S.State} {t : T} {x : Call} {xs : List (T × Call)} {o : Out} {os : List (T × Out)}
    (h : S.call s t x = some (o,s₁)) (hr : S.run s₁ xs = some (os,s')) :
    S.run s ((t,x) :: xs) = some ((t,o) :: os,s') := by
  rw [run, h, Option.bind_some, hr]
  rfl

theorem run_cons_iff {s s' : S.State} {t : T} {x : Call} {xs : List (T × Call)} {os : List (T × Out)} :
    S.run s ((t,x) :: xs) = some (os,s') ↔ ∃ o s₁ os₁, S.call s t x = some (o,s₁) ∧
      S.run s₁ xs = some (os₁,s') ∧ os = (t,o) :: os₁ := by
  constructor
  · intro h
    obtain ⟨⟨o,s₁⟩,hc,hmap⟩ := Option.bind_eq_some_iff.mp h
    obtain ⟨⟨os₁,s₂⟩,hr,he⟩ := Option.map_eq_some_iff.mp hmap
    cases he
    exact ⟨o,s₁,os₁,hc,hr,rfl⟩
  · rintro ⟨o,s₁,os₁,hc,hr,rfl⟩
    exact run_cons hc hr

theorem run_append {s s₁ s' : S.State} {xs ys : List (T × Call)} {os os' : List (T × Out)}
    (h : S.run s xs = some (os,s₁)) (h' : S.run s₁ ys = some (os',s')) :
    S.run s (xs ++ ys) = some (os ++ os',s') := by
  induction xs generalizing s os with
  | nil =>
    cases h
    exact h'
  | cons y xs ih =>
    obtain ⟨t,x⟩ := y
    obtain ⟨o,s₂,os₁,hc,hr,rfl⟩ := run_cons_iff.mp h
    exact run_cons hc (ih hr)

theorem run_concat {s s₁ s' : S.State} {xs : List (T × Call)} {os : List (T × Out)} {t : T} {x : Call} {o : Out}
    (h : S.run s xs = some (os,s₁)) (hc : S.call s₁ t x = some (o,s')) :
    S.run s (xs ++ [(t,x)]) = some (os ++ [(t,o)],s') :=
  run_append h (run_cons hc rfl)

theorem run_concat_iff {s s' : S.State} {xs : List (T × Call)} {os : List (T × Out)} {t : T} {x : Call} :
    S.run s (xs ++ [(t,x)]) = some (os,s') ↔ ∃ os₁ s₁ o, S.run s xs = some (os₁,s₁) ∧
      S.call s₁ t x = some (o,s') ∧ os = os₁ ++ [(t,o)] := by
  constructor
  · intro h
    induction xs generalizing s os with
    | nil =>
      obtain ⟨o,s₁,os₁,hc,hr,rfl⟩ := run_cons_iff.mp h
      cases hr
      exact ⟨[],s,o,rfl,hc,rfl⟩
    | cons y xs ih =>
      obtain ⟨t',x'⟩ := y
      obtain ⟨o',s₂,os₂,hc,hr,rfl⟩ := run_cons_iff.mp h
      obtain ⟨os₁,s₁,o,hr₁,hc₁,rfl⟩ := ih hr
      exact ⟨(t',o') :: os₁,s₁,o,run_cons hc hr₁,hc₁,rfl⟩
  · rintro ⟨os₁,s₁,o,hr,hc,rfl⟩
    exact run_concat hr hc

/-- The calls that a client makes alone, with their results, are a run. -/
theorem run_of_solo {α : Type} {s s' : S.memory.State} {p : Program (fun _ : T × Call => Out) α}
    {as : List (Σ _ : T × Call, Out)} {x : α} (h : Solo S.memory () s p as x s') :
    S.run s (as.map (·.1)) = some (as.map fun y => (y.1.1,y.2),s') := by
  induction h with
  | done m x => rfl
  | access ch hc _ ih => exact run_cons hc ih
  | loop _ ih => exact ih

end Specification

namespace System
variable {sys : System T Res}

/-- The calls of a run, oldest first. -/
def made : sys.Trace → List (T × sys.object.Call)
  | [] => []
  | .call t x :: tr => made tr ++ [(t,x)]
  | _ :: tr => made tr

/-- The results of a run, oldest first. -/
def returned : sys.Trace → List (T × sys.object.Out)
  | [] => []
  | .ret t o :: tr => returned tr ++ [(t,o)]
  | _ :: tr => returned tr

theorem made_accesses (t : T) (as : List (Σ a, Res a)) (tr : sys.Trace) :
    made (accesses t as ++ tr) = made tr := by
  induction as generalizing tr with
  | nil => rfl
  | cons y as ih =>
    rw [accesses_cons, List.append_assoc, ih]
    rfl

theorem returned_accesses (t : T) (as : List (Σ a, Res a)) (tr : sys.Trace) :
    returned (accesses t as ++ tr) = returned tr := by
  induction as generalizing tr with
  | nil => rfl
  | cons y as ih =>
    rw [accesses_cons, List.append_assoc, ih]
    rfl

section Whole
variable (t : T) (o : sys.object.Out) (as : List (Σ a, Res a)) (x : sys.object.Call) (tr : sys.Trace)

theorem made_whole : made (.ret t o :: accesses t as ++ .call t x :: tr) = made tr ++ [(t,x)] := by
  change made (accesses t as ++ Event.call t x :: tr) = _
  rw [made_accesses]
  rfl

theorem returned_whole :
    returned (.ret t o :: accesses t as ++ .call t x :: tr) = returned tr ++ [(t,o)] := by
  change returned (accesses t as ++ Event.call t x :: tr) ++ [(t,o)] = _
  rw [returned_accesses]
  rfl

end Whole

variable [DecidableEq T]

/-- A program owns the object and makes its calls, one at a time. -/
def Drives {α : Type} (p : Program (fun _ : T × sys.object.Call => sys.object.Out) α) (x : α) (tr : sys.Trace)
    (c : sys.Config) : Prop :=
  Serial [] sys.init tr c ∧ ∃ as, p.Plays as x ∧ made tr = as.map (·.1) ∧ returned tr = as.map fun y => (y.1.1,y.2)

section Settled
variable {tr tr' : sys.Trace} {c c' : sys.Config}

/-- On a memory that leaves nothing open the calls settle the serial run. -/
theorem Serial.unique (hM : sys.memory.Settled) (h : Serial [] sys.init tr c) (h' : Serial [] sys.init tr' c')
    (hm : made tr = made tr') : tr = tr' ∧ c = c' := by
  induction h generalizing tr' c' with
  | start =>
    cases h' with
    | start => exact ⟨rfl,rfl⟩
    | call h' hl hp hs =>
      rw [made_whole] at hm
      exact absurd hm.symm (List.append_ne_nil_of_right_ne_nil _ (List.cons_ne_nil _ _))
  | call h hl hp hs ih =>
    rw [made_whole] at hm
    cases h' with
    | start => exact absurd hm (List.append_ne_nil_of_right_ne_nil _ (List.cons_ne_nil _ _))
    | call h' hl' hp' hs' =>
      rw [made_whole] at hm
      obtain ⟨hfront,hlast⟩ := List.append_inj' hm rfl
      obtain ⟨rfl,rfl⟩ := ih h' hfront
      cases hlast
      rw [hl] at hl'
      cases hl'
      rw [hp] at hp'
      cases hp'
      obtain ⟨rfl,hout,rfl⟩ := hs.unique hM hs'
      cases hout
      exact ⟨rfl,rfl⟩

theorem Serial.length_eq (h : Serial [] sys.init tr c) : (made tr).length = (returned tr).length := by
  induction h with
  | start => rfl
  | call _ _ _ _ ih => rw [made_whole, returned_whole, List.length_append, List.length_append, ih]; rfl

/-- The front of a serial run, as far as some of its calls go. -/
theorem Serial.front (h : Serial [] sys.init tr c) {n : ℕ} (hn : n ≤ (made tr).length) :
    ∃ tr₁ c₁, Serial [] sys.init tr₁ c₁ ∧ made tr₁ = (made tr).take n ∧ returned tr₁ = (returned tr).take n := by
  induction h with
  | start => exact ⟨[],sys.init,.start,by simp [made],by simp [returned]⟩
  | @call tr c t l l' x p o as m h hl hp hs ih =>
    rw [made_whole, List.length_append, List.length_singleton] at hn
    have hlen := h.length_eq
    by_cases hle : n ≤ (made tr).length
    · obtain ⟨tr₁,c₁,hs₁,hmade,hret⟩ := ih hle
      refine ⟨tr₁,c₁,hs₁,?_,?_⟩
      · rw [made_whole, List.take_append_of_le_length hle, hmade]
      · rw [returned_whole, List.take_append_of_le_length (hlen ▸ hle), hret]
    · refine ⟨_,_,h.call hl hp hs,?_,?_⟩
      · rw [made_whole, List.take_of_length_le (by rw [List.length_append]; exact not_le.mp hle)]
      · rw [returned_whole, List.take_of_length_le (by rw [List.length_append, ← hlen]; exact not_le.mp hle)]

/-- Serial runs that begin with the same calls begin with the same results. -/
theorem Serial.agree (hM : sys.memory.Settled) (h : Serial [] sys.init tr c) (h' : Serial [] sys.init tr' c')
    (xs : List (T × sys.object.Call)) {ys ys' : List (T × sys.object.Call)} (hm : made tr = xs ++ ys)
    (hm' : made tr' = xs ++ ys') : (returned tr).take xs.length = (returned tr').take xs.length := by
  obtain ⟨tr₁,c₁,hs₁,hmade₁,hret₁⟩ := h.front (n := xs.length) (by simp [hm])
  obtain ⟨tr₂,c₂,hs₂,hmade₂,hret₂⟩ := h'.front (n := xs.length) (by simp [hm'])
  have hmade : made tr₁ = made tr₂ := by rw [hmade₁, hmade₂, hm, hm', List.take_left, List.take_left]
  obtain ⟨rfl,_⟩ := hs₁.unique hM hs₂ hmade
  rw [← hret₁, hret₂]

/-- Two runs of one client make the same calls. The induction is on the rest of the client, behind
the calls `zs` that both have made. -/
theorem plays_unique (hM : sys.memory.Settled) (h : Serial [] sys.init tr c) (h' : Serial [] sys.init tr' c') {α : Type}
    {p : Program (fun _ : T × sys.object.Call => sys.object.Out) α} {x y : α}
    (zs : List (Σ _ : T × sys.object.Call, sys.object.Out)) {as bs : List (Σ _ : T × sys.object.Call, sys.object.Out)}
    (hp : p.Plays as x) (hp' : p.Plays bs y)
    (hm : made tr = (zs ++ as).map (·.1)) (hr : returned tr = (zs ++ as).map fun z => (z.1.1,z.2))
    (hm' : made tr' = (zs ++ bs).map (·.1)) (hr' : returned tr' = (zs ++ bs).map fun z => (z.1.1,z.2)) :
    as = bs ∧ x = y := by
  induction hp generalizing zs bs with
  | done x =>
    cases hp'
    exact ⟨rfl,rfl⟩
  | @access a r k as x _ ih =>
    cases hp' with
    | @access _ r' _ bs _ hp' =>
      have hmade : made tr = (zs.map (·.1) ++ [a]) ++ as.map (·.1) := by simp [hm]
      have hmade' : made tr' = (zs.map (·.1) ++ [a]) ++ bs.map (·.1) := by simp [hm']
      have hagree := h.agree hM h' _ hmade hmade'
      obtain rfl : r = r' := by
        simpa [hr, hr', List.take_append] using hagree
      have happ : ∀ xs, zs ++ (⟨a,r⟩ : Σ _ : T × sys.object.Call, sys.object.Out) :: xs = zs ++ [⟨a,r⟩] ++ xs := by simp
      rw [happ] at hm hr hm' hr'
      obtain ⟨rfl,rfl⟩ := ih _ hp' hm hr hm' hr'
      exact ⟨rfl,rfl⟩
  | loop _ ih =>
    cases hp' with
    | loop hp' => exact ih _ hp' hm hr hm' hr'

/-- There is one run of a client, on a memory that leaves nothing open. -/
theorem Drives.unique (hM : sys.memory.Settled) {α : Type}
    {p : Program (fun _ : T × sys.object.Call => sys.object.Out) α}
    {x y : α} (h : Drives p x tr c) (h' : Drives p y tr' c') : x = y ∧ tr = tr' ∧ c = c' := by
  obtain ⟨hs,as,hp,hm,hr⟩ := h
  obtain ⟨hs',bs,hp',hm',hr'⟩ := h'
  obtain ⟨rfl,rfl⟩ := plays_unique hM hs hs' [] hp hp' hm hr hm' hr'
  exact ⟨rfl,hs.unique hM hs' (hm.trans hm'.symm)⟩

end Settled

/-- Between calls `Rep` says which state of the specification a configuration stands for.
It lasts for the sequences of calls that are `ok`. -/
structure Implements (sys : System T Res) (S : Specification T sys.object.Call sys.object.Out) (s₀ : S.State)
    (ok : List (T × sys.object.Call) → Prop) (Rep : sys.Config → S.State → Prop) : Prop where
  earlier : ∀ {xs y}, ok (xs ++ [y]) → ok xs
  start : Rep sys.init s₀
  allowed : ∀ {c s t l x p}, Rep c s → c.threads t = .idle l → sys.object.code l x = some p →
    ∃ o s', S.call s t x = some (o,s')
  step : ∀ {xs os c s t x o s'}, S.run s₀ xs = some (os,s) → ok (xs ++ [(t,x)]) → Rep c s →
    S.call s t x = some (o,s') → ∃ l m, Completes c t x l o m ∧ Rep (c.advance t (.idle l) m) s'

namespace Implements
variable {S : Specification T sys.object.Call sys.object.Out} {s₀ : S.State}
  {ok : List (T × sys.object.Call) → Prop} {Rep : sys.Config → S.State → Prop}

/-- A serial run is a run of the specification. -/
theorem sound (h : Implements sys S s₀ ok Rep) {tr : sys.Trace} {c : sys.Config}
    (hs : Serial [] sys.init tr c) (hok : ok (made tr)) :
    ∃ s, S.run s₀ (made tr) = some (returned tr,s) ∧ Rep c s := by
  induction hs with
  | start => exact ⟨s₀,rfl,h.start⟩
  | call _ hl hp hsolo ih =>
    rw [made_whole] at hok
    obtain ⟨s,hr,hrep⟩ := ih (h.earlier hok)
    obtain ⟨o,s',hc⟩ := h.allowed hrep hl hp
    obtain ⟨l,m,hcomp,hrep'⟩ := h.step hr hok hrep hc
    obtain ⟨hx,rfl⟩ := hcomp.only _ _ _ _ _ hl hp hsolo
    cases hx
    refine ⟨s',?_,hrep'⟩
    rw [made_whole, returned_whole]
    exact Specification.run_concat hr hc

/-- A run of the specification is a serial run. -/
theorem complete (h : Implements sys S s₀ ok Rep) {xs : List (T × sys.object.Call)}
    {os : List (T × sys.object.Out)} {s : S.State} (hr : S.run s₀ xs = some (os,s)) (hok : ok xs) :
    ∃ tr c, Serial [] sys.init tr c ∧ made tr = xs ∧ returned tr = os ∧ Rep c s := by
  induction xs using List.reverseRecOn generalizing os s with
  | nil =>
    cases hr
    exact ⟨[],sys.init,.start,rfl,rfl,h.start⟩
  | append_singleton xs y ih =>
    obtain ⟨t,x⟩ := y
    obtain ⟨os₁,s₁,o,hr₁,hc,rfl⟩ := Specification.run_concat_iff.mp hr
    obtain ⟨tr,c,hs,rfl,rfl,hrep⟩ := ih hr₁ (h.earlier hok)
    obtain ⟨l,m,hcomp,hrep'⟩ := h.step hr₁ hok hrep hc
    obtain ⟨as,hserial⟩ := hcomp.serial hs
    exact ⟨_,_,hserial,made_whole ..,returned_whole ..,hrep'⟩

/-- The serial runs are the runs of the specification. -/
theorem serial_iff (h : Implements sys S s₀ ok Rep) {xs : List (T × sys.object.Call)}
    {os : List (T × sys.object.Out)} (hok : ok xs) :
    (∃ tr c, Serial [] sys.init tr c ∧ made tr = xs ∧ returned tr = os) ↔
      ∃ s, S.run s₀ xs = some (os,s) := by
  constructor
  · rintro ⟨tr,c,hs,rfl,rfl⟩
    obtain ⟨s,hr,_⟩ := h.sound hs hok
    exact ⟨s,hr⟩
  · rintro ⟨s,hr⟩
    obtain ⟨tr,c,hs,hm,ho,_⟩ := h.complete hr hok
    exact ⟨tr,c,hs,hm,ho⟩

/-- What a client does to the specification it does to the object. -/
theorem drives (h : Implements sys S s₀ ok Rep) {α : Type}
    {p : Program (fun _ : T × sys.object.Call => sys.object.Out) α}
    {as : List (Σ _ : T × sys.object.Call, sys.object.Out)} {x : α} {s : S.State}
    (hs : Solo S.memory () s₀ p as x s) (hok : ok (as.map (·.1))) :
    ∃ tr c, Drives p x tr c ∧ (returned tr).map (·.2) = as.map (·.2) ∧ Rep c s := by
  obtain ⟨tr,c,hserial,hm,ho,hrep⟩ := h.complete (Specification.run_of_solo hs) hok
  refine ⟨tr,c,⟨hserial,as,hs.plays,hm,ho⟩,?_,hrep⟩
  rw [ho, List.map_map]
  rfl

end Implements
end System
end LowLatencyLob.Concurrency
