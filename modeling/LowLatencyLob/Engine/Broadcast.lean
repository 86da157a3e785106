import LowLatencyLob.Book.BTree
import LowLatencyLob.Concurrency.Projection
import LowLatencyLob.Engine.EngineRuns
import LowLatencyLob.Sync.RingOverrun

/-! The ring inside an engine.

What an engine does to its ring is a run of that ring: a `process` pushes the packed
event, and a `poll` receives. So the broadcast of events inherits what holds of every run
of a ring, and the counters of a consumer count what its polls returned. -/
namespace LowLatencyLob.Engine
open Book Concurrency
open SeqLock (TopOfBook)
open LowLatencyLob.Ring (Capacity Thread Recv oneSlot twoSlots)

section Naming
variable (C : Capacity) (B : Type) [OrderBook B] [Inhabited B]

abbrev naming : Naming (@Access.Result (Loc C) Val) (@Access.Result (Ring.Loc C W) Ring.Val)
    (@Access.Result SeqLock.Loc SeqLock.Val) where
  part := outAccess
  partResult := outResult
  rest := topAccess
  restResult := topResult

/-- What a poll makes of a receive. -/
def Hears : Except UnpackError Observed → Recv W → Prop
  | r, .item rec => r = (unpack rec).map .event
  | r, .overrun skipped => ∃ t, r = .ok (.overrun skipped t)
  | r, .empty => r = .ok .idle

abbrev reading : Reading (system C B) (Ring.system C W) where
  call
    | .process ev => some (.push (pack ev))
    | .consumer => some .consumer
    | .poll => some .tryRecv
    | .snapshot => none
  out
    | .processed, .pushed => True
    | .joined c, .joined k => c = k
    | .observed c r c', .received k r' k' => c = k ∧ Hears r r' ∧ c' = k'
    | _, _ => False
  silent
    | .snapshot _ => True
    | _ => False
  idle
    | .producer _, .producer => True
    | .handle, .handle => True
    | .consumer c, .consumer k => c.cursor = k
    | _, _ => False
  view m l := m (.out l)

end Naming

section Projection
variable {C : Capacity} {B : Type} [OrderBook B] [Inhabited B]

theorem view_out (m : ∀ l : Loc C, Val l) (a : Access (Ring.Val (C := C) (W := W))) :
    a.act (fun l => m (.out l)) = (outResult a ((outAccess a).act m).1,fun l => ((outAccess a).act m).2 (.out l)) := by
  cases a with
  | load l o => rfl
  | fence o => rfl
  | store l v o =>
    refine Prod.ext rfl (funext fun l' => ?_)
    by_cases h : l' = l
    · subst l'
      simp [outAccess, Access.act]
    · simp [outAccess, Access.act, h]

theorem view_top (m : ∀ l : Loc C, Val l) (a : Access SeqLock.Val) (l : Ring.Loc C W) :
    ((topAccess a).act m).2 (.out l) = m (.out l) := by
  cases a with
  | load l' o => rfl
  | fence o => rfl
  | store l' v o => simp [topAccess, Access.act]

/-- What a `poll` and a `try_recv` have in common. -/
theorem poll_follows (c : Consumer) : Follows (naming C) (reading C B).fin
    (poll c >>= fun x => pure ((.consumer x.1 : Holder B),Out.observed c.cursor x.2 x.1.cursor))
    (Ring.tryRecv C c.cursor >>= fun x => pure (Ring.Holder.consumer x.2,Ring.Out.received c.cursor x.1 x.2)) := by
  unfold poll
  rw [Program.bind_assoc]
  refine .part _ fun x => ?_
  obtain ⟨r,cursor⟩ := x
  cases r with
  | item rec =>
    cases hrec : unpack rec with
    | ok ev =>
      simp only [hrec]
      refine .done ⟨rfl,rfl,?_,rfl⟩
      change _ = (unpack rec).map _
      rw [hrec]
      rfl
    | error e =>
      simp only [hrec]
      refine .done ⟨rfl,rfl,?_,rfl⟩
      change _ = (unpack rec).map _
      rw [hrec]
      rfl
  | overrun skipped =>
    rw [Program.bind_assoc]
    exact .rest _ fun t => .done ⟨rfl,rfl,⟨t,rfl⟩,rfl⟩
  | empty => exact .done ⟨rfl,rfl,rfl,rfl⟩

theorem projects : Projects (naming C) (reading C B) where
  mem := rfl
  start t := by cases t <;> trivial
  accessPart {t m a ch r m'} h := by
    obtain ⟨rfl,rfl⟩ := interleaving_exec h
    exact ⟨(),congrArg some (view_out m a)⟩
  accessRest {t m a ch r m'} h := by
    obtain ⟨rfl,rfl⟩ := interleaving_exec h
    exact funext (view_top m a)
  call {l l' x p} hidle hp := by
    cases l with
    | producer q =>
      cases l' with
      | producer =>
        cases x with
        | process ev =>
          obtain ⟨book,t,_,_,rfl⟩ := process_code hp
          exact .inl ⟨_,_,rfl,rfl,.rest _ fun _ => .part _ fun _ => .done ⟨trivial,trivial⟩⟩
        | _ => cases hp
      | _ => exact hidle.elim
    | handle =>
      cases l' with
      | handle =>
        cases x with
        | consumer =>
          cases hp
          unfold consumer
          rw [Program.bind_assoc]
          exact .inl ⟨_,_,rfl,rfl,.part _ fun _ => .done ⟨rfl,rfl⟩⟩
        | _ => cases hp
      | _ => exact hidle.elim
    | consumer c =>
      cases l' with
      | consumer k =>
        obtain rfl : c.cursor = k := hidle
        cases x with
        | poll =>
          cases hp
          exact .inl ⟨_,_,rfl,rfl,poll_follows c⟩
        | snapshot =>
          cases hp
          exact .inr ⟨rfl,.rest _ fun _ => .done ⟨rfl,trivial⟩⟩
        | _ => cases hp
      | _ => exact hidle.elim

end Projection

/-- The events that polls handed out, each with the cursor of its poll. -/
def delivered (os : List Out) : List (ℕ × BookEvent) :=
  os.filterMap fun o => match o with
    | .observed c (.ok (.event ev)) _ => some (c,ev)
    | _ => none

/-- The overruns that polls reported: how many events were skipped, and the snapshot. -/
def overruns (os : List Out) : List (ℕ × TopOfBook) :=
  os.filterMap fun o => match o with
    | .observed _ (.ok (.overrun skipped t)) _ => some (skipped,t)
    | _ => none

theorem delivered_append (os os' : List Out) : delivered (os ++ os') = delivered os ++ delivered os' :=
  List.filterMap_append ..

theorem overruns_append (os os' : List Out) : overruns (os ++ os') = overruns os ++ overruns os' :=
  List.filterMap_append ..

/-- The counters of a consumer, as its polls account for them. -/
structure Counts (os : List Out) (c : Consumer) : Prop where
  seen : c.seen = .ofNat (delivered os).length
  resyncs : c.resyncs = .ofNat (overruns os).length
  lastMid : c.lastMid = ((overruns os).getLast?.map fun x => (x.2.bidPx+x.2.askPx)/2).getD 0

section Counting
variable {C : Capacity} {B : Type} [OrderBook B] {os : List Out} {c : Consumer}

theorem Counts.event (h : Counts os c) (k cursor : ℕ) (ev : BookEvent) :
    Counts (os ++ [.observed k (.ok (.event ev)) cursor]) { c with cursor := cursor, seen := c.seen+1 } := by
  have hd : delivered [.observed k (.ok (.event ev)) cursor] = [(k,ev)] := rfl
  have ho : overruns [.observed k (.ok (.event ev)) cursor] = [] := rfl
  constructor
  · rw [delivered_append, hd, List.length_append, UInt64.ofNat_add, ← h.seen]
    rfl
  · rw [overruns_append, ho, List.append_nil]
    exact h.resyncs
  · rw [overruns_append, ho, List.append_nil]
    exact h.lastMid

theorem Counts.overrun (h : Counts os c) (k cursor skipped : ℕ) (t : TopOfBook) :
    Counts (os ++ [.observed k (.ok (.overrun skipped t)) cursor])
      { c with cursor := cursor, lastMid := (t.bidPx+t.askPx)/2, resyncs := c.resyncs+1 } := by
  have hd : delivered [.observed k (.ok (.overrun skipped t)) cursor] = [] := rfl
  have ho : overruns [.observed k (.ok (.overrun skipped t)) cursor] = [(skipped,t)] := rfl
  constructor
  · rw [delivered_append, hd, List.append_nil]
    exact h.seen
  · rw [overruns_append, ho, List.length_append, UInt64.ofNat_add, ← h.resyncs]
    rfl
  · rw [overruns_append, ho, List.getLast?_concat]
    rfl

/-- A result that is neither an event nor an overrun changes no counter. -/
theorem Counts.other (h : Counts os c) {o : Out} (hd : delivered [o] = []) (ho : overruns [o] = []) (cursor : ℕ) :
    Counts (os ++ [o]) { c with cursor := cursor } where
  seen := by
    rw [delivered_append, hd, List.append_nil]
    exact h.seen
  resyncs := by
    rw [overruns_append, ho, List.append_nil]
    exact h.resyncs
  lastMid := by
    rw [overruns_append, ho, List.append_nil]
    exact h.lastMid

/-- What a thread knows between its calls. -/
def Knows : Holder B → List Out → Prop
  | .producer _, _ => True
  | .handle, os => os = []
  | .consumer c, os => Counts os c

theorem poll_counts (h : Counts os c) {x : Consumer × Except UnpackError Observed}
    (hres : (poll (C := C) c).Residual (.done x)) : Counts (os ++ [.observed c.cursor x.2 x.1.cursor]) x.1 := by
  obtain ⟨⟨r,cursor⟩,_,hres⟩ := Program.Residual.of_bind_done hres
  cases r with
  | item rec =>
    simp only at hres
    split at hres
    · cases hres.done_cases
      exact h.event c.cursor cursor _
    · cases hres.done_cases
      exact h.other rfl rfl cursor
  | overrun skipped =>
    obtain ⟨t,_,hres⟩ := Program.Residual.of_bind_done hres
    cases hres.done_cases
    exact h.overrun c.cursor cursor skipped t
  | empty =>
    cases hres.done_cases
    exact h.other rfl rfl cursor

theorem knows_kept {l l' : Holder B} {x : Call} {o : Out} {p : Code C (Holder B × Out)} (h : Knows l os)
    (hp : (object C B).code l x = some p) (hres : p.Residual (.done (l',o))) : Knows l' (os ++ [o]) := by
  cases l with
  | producer q =>
    cases x with
    | process ev =>
      obtain ⟨code,_,rfl⟩ := Option.map_eq_some_iff.mp hp
      obtain ⟨_,_,hres⟩ := hres.of_bind_done
      cases hres.done_cases
      trivial
    | _ => cases hp
  | handle =>
    obtain rfl : os = [] := h
    cases x with
    | consumer =>
      cases hp
      obtain ⟨c,hc,hres⟩ := hres.of_bind_done
      cases hres.done_cases
      obtain ⟨cursor,_,hc⟩ := Program.Residual.of_bind_done hc
      cases hc.done_cases
      exact ⟨rfl,rfl,rfl⟩
    | _ => cases hp
  | consumer c =>
    have hc : Counts os c := h
    cases x with
    | poll =>
      cases hp
      obtain ⟨y,hy,hres⟩ := hres.of_bind_done
      cases hres.done_cases
      exact poll_counts hc hy
    | snapshot =>
      cases hp
      obtain ⟨t,_,hres⟩ := hres.of_bind_done
      cases hres.done_cases
      exact hc.other rfl rfl c.cursor
    | _ => cases hp

/-- The counters count, in every run of every engine, under every memory. -/
theorem run_counts [Inhabited B] {tr : (system C B).Trace} {cfg : (system C B).Config}
    (h : (system C B).Run tr cfg) {t : Thread} (ht : cfg.threads t = .idle (.consumer c)) :
    Counts (System.results t tr) c := by
  have hs := h.stands (I := fun _ => Knows)
    (fun t => by cases t <;> trivial) (fun hk hp hres => knows_kept hk hp hres) t
  rw [ht] at hs
  exact hs

end Counting

theorem pack_injective : Function.Injective pack := by
  intro ev ev' h
  have hu := congrArg unpack h
  rw [unpack_pack, unpack_pack] at hu
  cases hu
  rfl

section Reports
variable {C : Capacity} {B : Type} [OrderBook B] [Inhabited B] {i : ℕ} {tr : (system C B).Trace}
  {tr' : (Ring.system C W).Trace}

theorem shows_pushed (h : Shows (naming C) (reading C B) tr tr') : Ring.pushed tr' = (processed tr).map pack := by
  induction h with
  | nil => rfl
  | @call tr tr' t x x' h hx ih =>
    cases x with
    | process ev =>
      cases hx
      change Ring.pushed tr' ++ [pack ev] = (processed tr ++ [ev]).map pack
      rw [ih, List.map_append]
      rfl
    | snapshot => cases hx
    | _ =>
      cases hx
      exact ih
  | @restCall tr tr' t x h hx ih =>
    cases x with
    | snapshot => exact ih
    | _ => cases hx
  | access h ih => exact ih
  | restAccess h ih => exact ih
  | ret h ho ih => exact ih
  | restRet h ho ih => exact ih

/-- What the ring reported to a consumer, where all that it delivers is packed events. -/
structure Reported (os : List Out) (os' : List (Ring.Out W)) : Prop where
  items : Ring.items os' = (delivered os).map fun y => (y.1,pack y.2)
  skips : Ring.skips os' = (overruns os).map Prod.fst
  clean : ∀ c e c', .observed c (.error e) c' ∉ os
  joined : ∀ a, .joined a ∈ os' ↔ .joined a ∈ os
  overrun : ∀ c k t c', .observed c (.ok (.overrun k t)) c' ∈ os → .received c (.overrun k) c' ∈ os'

section Append
variable {os : List Out} {os' : List (Ring.Out W)} {o : Out} {o' : Ring.Out W}

/-- Both sides have heard one thing more. -/
theorem Reported.append (h : Reported os os') (ho : Reported [o] [o']) : Reported (os ++ [o]) (os' ++ [o']) where
  items := by rw [Ring.Walk.items_append, delivered_append, List.map_append, h.items, ho.items]
  skips := by
    have happ : Ring.skips (os' ++ [o']) = Ring.skips os' ++ Ring.skips [o'] := List.filterMap_append ..
    rw [happ, overruns_append, List.map_append, h.skips, ho.skips]
  clean c e c' hm := by
    rcases List.mem_append.mp hm with hm | hm
    · exact h.clean c e c' hm
    · exact ho.clean c e c' hm
  joined a := by rw [List.mem_append, List.mem_append, h.joined, ho.joined]
  overrun c k t c' hm := by
    rcases List.mem_append.mp hm with hm | hm
    · exact List.mem_append_left _ (h.overrun c k t c' hm)
    · exact List.mem_append_right _ (ho.overrun c k t c' hm)

theorem Reported.snapshot (h : Reported os os') (t : TopOfBook) : Reported (os ++ [.snapshot t]) os' where
  items := by
    rw [delivered_append]
    exact h.items.trans (congrArg _ (List.append_nil _).symm)
  skips := by
    rw [overruns_append]
    exact h.skips.trans (congrArg _ (List.append_nil _).symm)
  clean c e c' hm := by
    rcases List.mem_append.mp hm with hm | hm
    · exact h.clean c e c' hm
    · exact absurd hm (by simp)
  joined a := by simp [h.joined]
  overrun c k t c' hm := by
    rcases List.mem_append.mp hm with hm | hm
    · exact h.overrun c k t c' hm
    · exact absurd hm (by simp)

/-- One result on each side. -/
theorem Reported.single (ho : (reading C B).out o o') (hp : ∀ x ∈ Ring.items [o'], ∃ ev, x.2 = pack ev) :
    Reported [o] [o'] := by
  cases o' with
  | pushed =>
    cases o with
    | processed => exact ⟨rfl,rfl,by simp,by simp,by simp⟩
    | _ => exact ho.elim
  | joined k =>
    cases o with
    | joined c =>
      obtain rfl : c = k := ho
      exact ⟨rfl,rfl,by simp,by simp,by simp⟩
    | _ => exact ho.elim
  | received k r' k' =>
    cases o with
    | observed c r c' =>
      obtain ⟨rfl,hr,rfl⟩ := ho
      cases r' with
      | item rec =>
        obtain ⟨ev,hev⟩ := hp (c,rec) List.mem_cons_self
        obtain rfl : rec = pack ev := hev
        obtain rfl : r = .ok (.event ev) := by
          change r = (unpack (pack ev)).map .event at hr
          rw [hr, unpack_pack]
          rfl
        exact ⟨rfl,rfl,by simp,by simp,by simp⟩
      | overrun skipped =>
        obtain ⟨t,rfl⟩ := hr
        refine ⟨rfl,rfl,by simp,by simp,fun _ _ _ _ hm => ?_⟩
        cases List.mem_singleton.mp hm
        exact List.mem_cons_self
      | empty =>
        obtain rfl : r = .ok .idle := hr
        exact ⟨rfl,rfl,by simp,by simp,by simp⟩
    | _ => exact ho.elim

end Append

theorem shows_reported (h : Shows (naming C) (reading C B) tr tr')
    (hp : ∀ x ∈ Ring.items (Ring.outs i tr'), ∃ ev, x.2 = pack ev) :
    Reported (System.results (.consumer i) tr) (Ring.outs i tr') := by
  induction h with
  | nil => exact ⟨rfl,rfl,by simp [System.results],by simp [System.results, Ring.outs],by simp [System.results]⟩
  | call h hx ih => exact ih hp
  | restCall h hx ih => exact ih hp
  | access h ih => exact ih hp
  | restAccess h ih => exact ih hp
  | @ret tr tr' t o o' h ho ih =>
    by_cases ht : t = .consumer i
    · subst ht
      rw [Ring.outs_ret_self, Ring.Walk.items_append] at hp
      rw [Ring.outs_ret_self, System.results, if_pos rfl]
      exact (ih fun x hx => hp x (List.mem_append_left _ hx)).append
        (.single ho fun x hx => hp x (List.mem_append_right _ hx))
    · have houts : Ring.outs i (.ret t o' :: tr') = Ring.outs i tr' := if_neg ht
      rw [houts] at hp ⊢
      rw [System.results, if_neg ht]
      exact ih hp
  | @restRet tr tr' t o h ho ih =>
    by_cases ht : t = .consumer i
    · subst ht
      rw [System.results, if_pos rfl]
      cases o with
      | snapshot t => exact (ih hp).snapshot t
      | _ => exact ho.elim
    · rw [System.results, if_neg ht]
      exact ih hp

/-- A moment of an engine's run, with the ring inside it and what it reported. -/
structure Inside (i : ℕ) (tr : (system C B).Trace) (cfg : (system C B).Config) (tr' : (Ring.system C W).Trace)
    (cfg' : (Ring.system C W).Config) : Prop where
  run : (Ring.system C W).Run tr' cfg'
  pushed : Ring.pushed tr' = (processed tr).map pack
  reported : Reported (System.results (.consumer i) tr) (Ring.outs i tr')
  idle : ∀ c, cfg.threads (.consumer i) = .idle (.consumer c) →
    cfg'.threads (.consumer i) = .idle (.consumer c.cursor)

/-- What a consumer of a ring got, it got from the log and in its order. -/
theorem items_of_log {tr : (Ring.system C W).Trace} {cfg : (Ring.system C W).Config} (h : (Ring.system C W).Run tr cfg)
    (hb : (Ring.pushed tr).length < 2^64) (i : ℕ) :
    (∀ x ∈ Ring.items (Ring.outs i tr), (Ring.pushed tr)[x.1]? = some x.2) ∧
      ((Ring.items (Ring.outs i tr)).map Prod.fst).Pairwise (· < ·) := by
  have hwalk := (Ring.run_walks h hb).1.walks i
  simp only at hwalk
  rcases hwalk with hn | ⟨a,c,hw⟩
  · rw [hn]
    exact ⟨by simp [Ring.items],by simp [Ring.items]⟩
  · exact ⟨fun x hx => (hw.item_mem x hx).2.2,hw.items_increasing⟩

theorem exists_inside {cfg : (system C B).Config} (h : (system C B).Run tr cfg)
    (hb : (processed tr).length < 2^63) (i : ℕ) : ∃ tr' cfg', Inside i tr cfg tr' cfg' := by
  obtain ⟨tr',cfg',hpart⟩ := projects.run h
  have hpushed := shows_pushed hpart.shows
  have hb' : (Ring.pushed tr').length < 2^64 := by
    rw [hpushed, List.length_map]
    omega
  refine ⟨tr',cfg',hpart.run,hpushed,shows_reported hpart.shows fun x hx => ?_,fun c hc => ?_⟩
  · have hlog := (items_of_log hpart.run hb' i).1 x hx
    rw [hpushed, List.getElem?_map] at hlog
    obtain ⟨ev,_,hev⟩ := Option.map_eq_some_iff.mp hlog
    exact ⟨ev,hev.symm⟩
  · have hk := hpart.threads (.consumer i)
    rw [hc] at hk
    generalize cfg'.threads (.consumer i) = s at hk
    cases hk with
    | @idle _ l' hidle =>
      cases l' with
      | consumer k =>
        obtain rfl : c.cursor = k := hidle
        rfl
      | _ => exact hidle.elim

/-- Between its calls a consumer has got, or was told it skipped, what is between its join
and its cursor. -/
theorem accounts {cfg : (system C B).Config} (h : (system C B).Run tr cfg) (hb : (processed tr).length < 2^63)
    {c : Consumer} (hc : cfg.threads (.consumer i) = .idle (.consumer c)) :
    c.cursor ≤ (processed tr).length ∧ ∃ start, .joined start ∈ System.results (.consumer i) tr ∧
      start + (delivered (System.results (.consumer i) tr)).length +
        ((overruns (System.results (.consumer i) tr)).map Prod.fst).sum = c.cursor := by
  obtain ⟨tr',cfg',hin⟩ := exists_inside h hb i
  have hlen : (Ring.pushed tr').length = (processed tr).length := by rw [hin.pushed, List.length_map]
  obtain ⟨hinv,hidle⟩ := Ring.run_walks hin.run (by omega)
  obtain ⟨⟨start,hwalk⟩,hle⟩ := hidle i _ (hin.idle c hc)
  have hsum := hwalk.accounts
  rw [hin.reported.items, List.length_map, hin.reported.skips] at hsum
  refine ⟨(hle.trans hinv.good.written).trans hlen.le,start,?_,hsum⟩
  exact (hin.reported.joined start).mp (List.mem_of_mem_head? hwalk.head_joined)

/-- No poll panics, and what polls hand out was processed at the cursors of the polls. -/
theorem delivered_processed {cfg : (system C B).Config} (h : (system C B).Run tr cfg)
    (hb : (processed tr).length < 2^63)
    (i : ℕ) : (∀ c e c', .observed c (.error e) c' ∉ System.results (.consumer i) tr) ∧
      ∀ x ∈ delivered (System.results (.consumer i) tr), (processed tr)[x.1]? = some x.2 := by
  obtain ⟨tr',cfg',hin⟩ := exists_inside h hb i
  have hb' : (Ring.pushed tr').length < 2^64 := by
    rw [hin.pushed, List.length_map]
    omega
  refine ⟨hin.reported.clean,fun x hx => ?_⟩
  have hitem : (x.1,pack x.2) ∈ Ring.items (Ring.outs i tr') := by
    rw [hin.reported.items]
    exact List.mem_map_of_mem hx
  have hlog := (items_of_log hin.run hb' i).1 _ hitem
  rw [hin.pushed, List.getElem?_map] at hlog
  obtain ⟨ev,hev,heq⟩ := Option.map_eq_some_iff.mp hlog
  rw [hev, ← pack_injective heq]

/-- A consumer gets events at increasing positions. -/
theorem delivered_increasing {cfg : (system C B).Config} (h : (system C B).Run tr cfg)
    (hb : (processed tr).length < 2^63) (i : ℕ) :
    ((delivered (System.results (.consumer i) tr)).map Prod.fst).Pairwise (· < ·) := by
  obtain ⟨tr',cfg',hin⟩ := exists_inside h hb i
  have hb' : (Ring.pushed tr').length < 2^64 := by
    rw [hin.pushed, List.length_map]
    omega
  have hincr := (items_of_log hin.run hb' i).2
  rwa [hin.reported.items, List.map_map] at hincr

end Reports

/-- Whatever the interleaving: a poll never panics; an event is the one processed at the
cursor of its poll; a consumer gets events at strictly increasing positions; between its
calls the events it got and those it was told it skipped make up its way through the
stream; and its counters count them. -/
theorem exactly_once {C : Capacity} {B : Type} [OrderBook B] [Inhabited B] {tr : (system C B).Trace}
    {cfg : (system C B).Config} (h : (system C B).Run tr cfg) (hb : (processed tr).length < 2^63) (i : ℕ) :
    (∀ c e c', .observed c (.error e) c' ∉ System.results (.consumer i) tr) ∧
    (∀ x ∈ delivered (System.results (.consumer i) tr), (processed tr)[x.1]? = some x.2) ∧
    ((delivered (System.results (.consumer i) tr)).map Prod.fst).Pairwise (· < ·) ∧
    ∀ c, cfg.threads (.consumer i) = .idle (.consumer c) →
      Counts (System.results (.consumer i) tr) c ∧ c.cursor ≤ (processed tr).length ∧
      ∃ start, .joined start ∈ System.results (.consumer i) tr ∧
        start + (delivered (System.results (.consumer i) tr)).length +
          ((overruns (System.results (.consumer i) tr)).map Prod.fst).sum = c.cursor := by
  obtain ⟨hclean,hevents⟩ := delivered_processed h hb i
  exact ⟨hclean,hevents,delivered_increasing h hb i,fun c hc => ⟨run_counts h hc,accounts h hb hc⟩⟩

/-- The `n`-th of some bids at one price. -/
def numbered (n : UInt64) : BookEvent := .level n 0 .bid 7 (n.toInt64+1)

/-- The moves of one `process`, of a call that makes `n` accesses, and of a poll that is told of
an overrun. -/
def processMoves (C : Capacity) (n : UInt64) : List (system C BTreeBook).Mv :=
  .call .producer (.process (numbered n)) :: List.replicate 19 (.access .producer ()) ++ [.ret .producer]

def callMoves (C : Capacity) (i : ℕ) (x : Call) (n : ℕ) : List (system C BTreeBook).Mv :=
  .call (.consumer i) x :: List.replicate n (.access (.consumer i) ()) ++ [.ret (.consumer i)]

def overrunMoves (C : Capacity) (i : ℕ) : List (system C BTreeBook).Mv :=
  .call (.consumer i) .poll :: List.replicate 3 (.access (.consumer i) ()) ++ .unroll (.consumer i) ::
    List.replicate 8 (.access (.consumer i) ()) ++ [.ret (.consumer i)]

/-- Four events in a ring of two slots, the third with a poll of consumer 1 in its middle.
Consumer 0 polls the first, and comes back when it is lapped. -/
def laggingMoves : List (system twoSlots BTreeBook).Mv :=
  List.flatten [callMoves _ 0 .consumer 1, callMoves _ 1 .consumer 1, processMoves _ 0, callMoves _ 0 .poll 9,
    processMoves _ 1, (processMoves _ 2).take 5, callMoves _ 1 .poll 9, (processMoves _ 2).drop 5, processMoves _ 3,
    overrunMoves _ 0, callMoves _ 0 .poll 9]

/-- The consumer that a thread holds. -/
def Holder.consumer? {B : Type} : Holder B → Option Consumer
  | .consumer c => some c
  | _ => none

theorem threads_of_consumer {C : Capacity} {B : Type} [OrderBook B] [Inhabited B] {cfg : (system C B).Config}
    {t : Thread} {c : Consumer} (h : (cfg.threads t).resting.bind Holder.consumer? = some c) :
    cfg.threads t = .idle (.consumer c) := by
  obtain ⟨l,hl,hc⟩ := Option.bind_eq_some_iff.mp h
  rw [ThreadState.eq_idle hl]
  cases l with
  | consumer c' =>
    cases hc
    rfl
  | _ => cases hc

theorem exactly_once_lapped : ∃ tr cfg, (system twoSlots BTreeBook).Run tr cfg ∧
    (processed tr).length = 4 ∧ cfg.threads (.consumer 0) = .idle (.consumer ⟨3,2,1,3⟩) ∧
    delivered (System.results (.consumer 0) tr) = [(0,numbered 0),(2,numbered 2)] ∧
    (overruns (System.results (.consumer 0) tr)).map Prod.fst = [1] ∧
    (∀ x ∈ delivered (System.results (.consumer 0) tr), (processed tr)[x.1]? = some x.2) ∧
    Counts (System.results (.consumer 0) tr) ⟨3,2,1,3⟩ ∧
    ∃ start, .joined start ∈ System.results (.consumer 0) tr ∧
      start + (delivered (System.results (.consumer 0) tr)).length +
        ((overruns (System.results (.consumer 0) tr)).map Prod.fst).sum = 3 := by
  obtain ⟨tr,cfg,h,hP⟩ := System.exists_config_of_play laggingMoves
    (fun tr cfg => decide ((processed tr).length = 4) &&
      decide ((cfg.threads (.consumer 0)).resting.bind Holder.consumer? = some ⟨3,2,1,3⟩) &&
      decide (delivered (System.results (.consumer 0) tr) = [(0,numbered 0),(2,numbered 2)]) &&
      decide ((overruns (System.results (.consumer 0) tr)).map Prod.fst = [1])) (by decide +kernel)
  simp only [Bool.and_eq_true, decide_eq_true_eq] at hP
  obtain ⟨⟨⟨hlen,hc⟩,hdel⟩,hover⟩ := hP
  obtain ⟨_,hevents,_,hidle⟩ := exactly_once h (by omega) 0
  obtain ⟨hcounts,_,hstart⟩ := hidle _ (threads_of_consumer hc)
  exact ⟨tr,cfg,h,hlen,threads_of_consumer hc,hdel,hover,hevents,hcounts,hstart⟩

section Roomy
variable {C : Capacity} {W i a c : ℕ} {tr : (Ring.system C W).Trace} {cfg : (Ring.system C W).Config}
  {log : List (Ring.Record W)} {os : List (Ring.Out W)}

/-- A consumer joins once. -/
theorem joined_eq (h : Ring.Walk log os a c) {b : ℕ} (hb : .joined b ∈ os) : b = a := by
  induction h with
  | joined c => simpa using hb
  | item h _ ih => exact ih (by simpa using hb)
  | empty h ih => exact ih (by simpa using hb)
  | overrun h k ih => exact ih (by simpa using hb)

/-- Its receives start where it joined, or further on. -/
theorem start_le (h : Ring.Walk log os a c) {k k' : ℕ} {r : Recv W} (hr : .received k r k' ∈ os) : a ≤ k := by
  induction h with
  | joined c => simp at hr
  | item h _ ih =>
    rcases List.mem_append.mp hr with hr | hr
    · exact ih hr
    · cases List.mem_singleton.mp hr
      have ha := h.accounts
      omega
  | empty h ih =>
    rcases List.mem_append.mp hr with hr | hr
    · exact ih hr
    · cases List.mem_singleton.mp hr
      have ha := h.accounts
      omega
  | overrun h k ih =>
    rcases List.mem_append.mp hr with hr | hr
    · exact ih hr
    · cases List.mem_singleton.mp hr
      have ha := h.accounts
      omega

/-- An overrun tells of a log that is a capacity ahead. -/
theorem overrun_behind (h : (Ring.system C W).Run tr cfg) (hb : (Ring.pushed tr).length < 2^63) {c k c' : ℕ}
    (hm : .received c (.overrun k) c' ∈ Ring.outs i tr) : c+k+C.slots ≤ (Ring.pushed tr).length := by
  obtain ⟨tr₀,hs⟩ := Ring.mem_outs hm
  obtain ⟨o,s,tr₂,_,_,_,_,_,hle⟩ := Ring.overrun_stamp h (by omega) hs
  have hmono := Ring.writePos_mono h (by omega) ((List.suffix_cons _ _).trans hs)
  have hwritten : Ring.writePos tr ≤ (Ring.pushed tr).length := by
    rw [← Ring.run_writePos h]
    exact (Ring.run_walks h (by omega)).1.good.written
  omega

/-- A consumer that was told of no skip has got the log from its start on. -/
theorem walk_contiguous (h : Ring.Walk log os a c) (hs : Ring.skips os = []) :
    (Ring.items os).map Prod.snd = (log.drop a).take (c-a) := by
  have hsum := h.accounts
  rw [hs, List.sum_nil] at hsum
  apply List.ext_getElem?
  intro n
  rw [List.getElem?_map, List.getElem?_take, List.getElem?_drop]
  by_cases hn : a+n < c
  · obtain ⟨rec,hitem,hlog⟩ := h.contiguous (by rw [hs]; rfl) n hn
    rw [hitem, if_pos (by omega), hlog]
    rfl
  · rw [if_neg (by omega), List.getElem?_eq_none (by omega)]
    rfl

end Roomy

/-- A consumer is told of an overrun only when the stream is a capacity ahead. -/
theorem overrun_room {C : Capacity} {B : Type} [OrderBook B] [Inhabited B] {tr : (system C B).Trace}
    {cfg : (system C B).Config} (h : (system C B).Run tr cfg) (hb : (processed tr).length < 2^63) {i c k c' : ℕ}
    {t : TopOfBook} (hm : .observed c (.ok (.overrun k t)) c' ∈ System.results (.consumer i) tr) :
    c+k+C.slots ≤ (processed tr).length := by
  obtain ⟨tr',cfg',hin⟩ := exists_inside h hb i
  have hlen : (Ring.pushed tr').length = (processed tr).length := by rw [hin.pushed, List.length_map]
  have hover := overrun_behind hin.run (by omega) (hin.reported.overrun _ _ _ _ hm)
  omega

/-- A consumer since whose join fewer events were processed than the ring has slots is
never overrun, in any interleaving: it gets the events from its join on, in order and once
each, and it has them all when its cursor is at the end. -/
theorem ordered_complete {C : Capacity} {B : Type} [OrderBook B] [Inhabited B] {tr : (system C B).Trace}
    {cfg : (system C B).Config} (h : (system C B).Run tr cfg) (hb : (processed tr).length < 2^63) {i start : ℕ}
    (hstart : .joined start ∈ System.results (.consumer i) tr)
    (hroom : (processed tr).length < start+C.slots) {c : Consumer}
    (hc : cfg.threads (.consumer i) = .idle (.consumer c)) :
    overruns (System.results (.consumer i) tr) = [] ∧ c.resyncs = 0 ∧ c.seen = .ofNat (c.cursor-start) ∧
      (delivered (System.results (.consumer i) tr)).map Prod.snd =
        ((processed tr).drop start).take (c.cursor-start) := by
  obtain ⟨tr',cfg',hin⟩ := exists_inside h hb i
  have hlen : (Ring.pushed tr').length = (processed tr).length := by rw [hin.pushed, List.length_map]
  obtain ⟨⟨a,hwalk⟩,_⟩ := (Ring.run_walks hin.run (by omega)).2 i _ (hin.idle c hc)
  obtain rfl := joined_eq hwalk ((hin.reported.joined start).mpr hstart)
  have hnone : overruns (System.results (.consumer i) tr) = [] := by
    refine List.filterMap_eq_nil_iff.mpr fun o ho => ?_
    split
    · rename_i k skipped t k'
      have hm := hin.reported.overrun _ _ _ _ ho
      have hle := start_le hwalk hm
      have hover := overrun_behind hin.run (by omega) hm
      omega
    · rfl
  have hskips : Ring.skips (Ring.outs i tr') = [] := by
    rw [hin.reported.skips, hnone]
    rfl
  have hevents := walk_contiguous hwalk hskips
  have hcounts := run_counts h hc
  have hsum := hwalk.accounts
  rw [hin.reported.items] at hevents hsum
  rw [hskips, List.length_map, List.sum_nil] at hsum
  refine ⟨hnone,?_,?_,?_⟩
  · rw [hcounts.resyncs, hnone]
    rfl
  · rw [hcounts.seen]
    congr 1
    omega
  · rw [hin.pushed, List.map_map, ← List.map_drop, ← List.map_take] at hevents
    refine List.map_injective_iff.mpr pack_injective ?_
    rw [← hevents, List.map_map]
    rfl

def fourSlots : Capacity := ⟨4,⟨2,rfl⟩⟩

/-- A consumer joins behind the first event. It polls while there is nothing, in the middle of
the third `process`, and when the fourth is out. -/
def joinedMoves : List (system fourSlots BTreeBook).Mv :=
  List.flatten [processMoves _ 0, callMoves _ 0 .consumer 1, callMoves _ 0 .poll 1, processMoves _ 1,
    (processMoves _ 2).take 15, callMoves _ 0 .poll 9, (processMoves _ 2).drop 15, processMoves _ 3,
    callMoves _ 0 .poll 9, callMoves _ 0 .poll 9]

theorem ordered_complete_joined : ∃ tr cfg, (system fourSlots BTreeBook).Run tr cfg ∧
    processed tr = [numbered 0,numbered 1,numbered 2,numbered 3] ∧
    cfg.threads (.consumer 0) = .idle (.consumer ⟨4,3,0,0⟩) ∧ overruns (System.results (.consumer 0) tr) = [] ∧
    (delivered (System.results (.consumer 0) tr)).map Prod.snd = [numbered 1,numbered 2,numbered 3] := by
  obtain ⟨tr,cfg,h,hP⟩ := System.exists_config_of_play joinedMoves
    (fun tr cfg => decide (processed tr = [numbered 0,numbered 1,numbered 2,numbered 3]) &&
      decide ((cfg.threads (.consumer 0)).resting.bind Holder.consumer? = some ⟨4,3,0,0⟩) &&
      decide ((System.results (.consumer 0) tr).head? = some (.joined 1))) (by decide +kernel)
  simp only [Bool.and_eq_true, decide_eq_true_eq] at hP
  obtain ⟨⟨hevs,hc⟩,hjoin⟩ := hP
  obtain ⟨hover,_,_,hdel⟩ := ordered_complete h (by rw [hevs]; decide) (List.mem_of_mem_head? hjoin)
    (by rw [hevs]; decide) (threads_of_consumer hc)
  rw [hevs] at hdel
  exact ⟨tr,cfg,h,hevs,threads_of_consumer hc,hover,hdel⟩

end LowLatencyLob.Engine
