import LowLatencyLob.Feed.CorpusRoundTrip
import LowLatencyLob.Feed.SyntheticStream
import LowLatencyLob.Book.FlatRefines

/-! The corpora that `gen` writes.

A generated clear has nothing that a reader would ignore, so a corpus reads back as it was
generated. Its prices are in a range around `mid` that every book takes. -/
namespace LowLatencyLob.Feed.Synthetic
open Book Concurrency Program

/-- The parameters of the set that `--all` writes. -/
def CANON_SEED : UInt64 := 1
def CANON_EVENTS : ℕ := 100000
def CANON_MID : Int64 := 65000
def CANON_BAND : Int64 := 64
def CANON_MAX_QTY : Int64 := 1024
def CANON_START_TS : UInt64 := 0

def canonCfg (profile : Profile) : GenConfig :=
  ⟨profile,CANON_SEED,CANON_EVENTS,CANON_MID,CANON_BAND,CANON_MAX_QTY,CANON_START_TS⟩

/-- The bytes that `write_corpus` saves: those of what `generate` returns. -/
def WritesCorpus (cfg : GenConfig) (bytes : List UInt8) : Prop := ∃ evs, Generates cfg evs ∧ bytes = writeTo evs

/-- The events fit in memory, and the prices in every book. -/
structure Modest (cfg : GenConfig) : Prop where
  nonneg : 0 ≤ cfg.band.toInt
  fits : RECORD_SIZE*cfg.events ≤ 2^63-1
  domain : FlatBook.Domain (cfg.mid.toInt-max cfg.band.toInt 10) (cfg.mid.toInt+max cfg.band.toInt 10)

section Reloads
variable {cfg : GenConfig} {sim : Sim} {evs : List BookEvent}

/-- An event that is put out comes back as it is. -/
theorem reload_puts {a : Op} {ev : BookEvent} (h : sim.puts a = some ev) : reload ev = ev := by
  cases a with
  | level side px qty =>
    simp only [Sim.puts, Option.ite_none_left_eq_some, Option.some_inj] at h
    obtain ⟨_,rfl⟩ := h
    rfl
  | trade aggressor px qty =>
    simp only [Sim.puts, Option.ite_none_left_eq_some, Option.some_inj] at h
    obtain ⟨_,rfl⟩ := h
    rfl
  | clear =>
    simp only [Sim.puts, Option.ite_none_left_eq_some, Option.some_inj] at h
    obtain ⟨_,rfl⟩ := h
    rfl
  | _ => cases h

theorem reload_generated (h : Generates cfg evs) : evs.map reload = evs := by
  obtain ⟨sim,hr,rfl⟩ := h
  have hall : ∀ ev ∈ sim.out, reload ev = ev := by
    refine hr.keeps (I := fun s => ∀ ev ∈ s.out, reload ev = ev) (fun a s hs => ?_) (by simp [Sim.new])
    rcases s.exec_cases a with ⟨_,rng,ts,heq,_⟩ | ⟨ev,hev,heq,_⟩
    · rw [heq]
      exact hs
    · rw [heq]
      intro ev' hev'
      rcases List.mem_append.mp hev' with hev' | hev'
      · exact hs ev' hev'
      · rw [List.mem_singleton.mp hev']
        exact reload_puts hev
  calc
    sim.out.map reload = sim.out.map id := List.map_congr_left hall
    _ = sim.out := List.map_id _

end Reloads
section Books
variable {cfg : GenConfig} {sim : Sim} {side : Side} {px : Px}

theorem Modest.inRange (h : Modest cfg) : InRange cfg := by
  have hnonneg := h.nonneg
  have hlow := h.domain.low
  have hhigh := h.domain.high
  have hspan := h.domain.span
  unfold MAX_SPAN at hspan
  exact ⟨⟨hnonneg,by omega⟩,by omega,by omega⟩

theorem Placed.priced (h : Placed cfg side px) (hr : InRange cfg) :
    cfg.mid.toInt-max cfg.band.toInt 10 ≤ px.toInt ∧ px.toInt ≤ cfg.mid.toInt+max cfg.band.toInt 10 := by
  obtain ⟨off,rfl,hlo,hhi⟩ := h
  have hreach := reach_le cfg
  have hlow := hr.low
  have hhigh := hr.high
  cases side with
  | bid =>
    change _ ≤ (cfg.mid-off).toInt ∧ (cfg.mid-off).toInt ≤ _
    rw [Sequence.toInt_sub] <;> omega
  | ask =>
    change _ ≤ (cfg.mid+off).toInt ∧ (cfg.mid+off).toInt ≤ _
    rw [Sequence.toInt_add] <;> omega

/-- What has been replayed of the stream leaves a book that is not crossed. -/
theorem uncrossed_part {pre : List BookEvent} (hr : InRange cfg)
    (h : Returns Sim.exec (generate cfg) (.new cfg) () sim) (hpre : pre <+: sim.out) :
    Uncrossed cfg.mid (replayed pre) := by
  obtain ⟨sim',ho,rfl⟩ := replayed_part hr.toSane h hpre
  obtain ⟨hbids,hasks⟩ := ho.placed
  have hbelow : ∀ px ∈ (replayed sim'.out).bids, px < cfg.mid := fun px hpx => (hbids px hpx).beyond_mid hr
  have habove : ∀ px ∈ (replayed sim'.out).asks, cfg.mid < px := fun px hpx => (hasks px hpx).beyond_mid hr
  refine ⟨hbelow,habove,fun bid ask hbid hask => ?_⟩
  exact Int64.lt_trans (hbelow _ (mem_of_bestBid hbid)) (habove _ (mem_of_bestAsk hask))

/-- Every book takes what is generated, and all of them show the same. -/
theorem books_agree {evs : List BookEvent} (hm : Modest cfg) (h : ∀ ev ∈ evs, Proper cfg ev) :
    ∃ (s : SortedVecBook) (r : RevVecBook) (f : FlatBook), replay default evs = some s ∧
      replay default evs = some r ∧ replay default evs = some f ∧ Agree s (replayed evs) ∧
      Agree r (replayed evs) ∧ Agree f (replayed evs) := by
  have hpriced : ∀ ev ∈ evs, FlatBook.Priced (cfg.mid.toInt-max cfg.band.toInt 10)
      (cfg.mid.toInt+max cfg.band.toInt 10) ev :=
    fun ev hev hk => ((h ev hev).level hk).1.priced hm.inRange
  obtain ⟨s,t,hs,ht,hst⟩ := SortedVecBook.refines.agree BTreeBook.refines evs (by simp) (by simp)
  obtain ⟨r,t',hr,ht',hrt⟩ := RevVecBook.refines.agree BTreeBook.refines evs (by simp) (by simp)
  obtain ⟨f,t'',hf,ht'',hft⟩ := (FlatBook.refines hm.domain).agree BTreeBook.refines evs hpriced (by simp)
  obtain rfl := Option.some.inj (ht.symm.trans (replay_eq evs))
  obtain rfl := Option.some.inj (ht'.symm.trans (replay_eq evs))
  obtain rfl := Option.some.inj (ht''.symm.trans (replay_eq evs))
  exact ⟨s,r,f,hs,hr,hf,hst,hrt,hft⟩

end Books

/-- What `gen` writes reads back as it was generated; and all four books replay any part
of it, without a panic, to books that show the same and are not crossed. -/
theorem written_corpus_replays {cfg : GenConfig} (h : Modest cfg) : ∃ bytes evs,
    (∀ bytes', WritesCorpus cfg bytes' ↔ bytes' = bytes) ∧ (fromBytes bytes).run = some (.ok ⟨evs⟩) ∧
    Generates cfg evs ∧ evs.length = cfg.events ∧
    ∀ pre, pre <+: evs → ∃ (t : BTreeBook) (s : SortedVecBook) (r : RevVecBook) (f : FlatBook),
      replay default pre = some t ∧ replay default pre = some s ∧ replay default pre = some r ∧
      replay default pre = some f ∧ Agree s t ∧ Agree r t ∧ Agree f t ∧ Uncrossed cfg.mid t := by
  obtain ⟨sim,hr⟩ := exists_generates cfg
  have hlen := generate_length hr
  have hg : Generates cfg sim.out := ⟨sim,hr,rfl⟩
  refine ⟨writeTo sim.out,sim.out,fun bytes' => ⟨?_,?_⟩,?_,hg,hlen,fun pre hpre => ?_⟩
  · rintro ⟨evs,hevs,rfl⟩
    rw [hevs.unique hg]
  · rintro rfl
    exact ⟨_,hg,rfl⟩
  · have hslice : RECORD_SIZE*sim.out.length ≤ 2^63-1 := by
      rw [hlen]
      exact h.fits
    have hread := fromBytes_writeTo (EventSlice.noWrap ⟨sim.out,hslice⟩)
    rw [reload_generated hg] at hread
    exact hread
  · have hproper := (generate_orderly h.inRange.toSane hr).proper
    obtain ⟨s,r,f,hs,hrev,hf,hst,hrt,hft⟩ := books_agree h fun ev hev => hproper ev (hpre.subset hev)
    exact ⟨_,s,r,f,replay_eq pre,hs,hrev,hf,hst,hrt,hft,uncrossed_part h.inRange hr hpre⟩

theorem written_corpus_replays_canon : ∃ bytes evs,
    (∀ bytes', WritesCorpus (canonCfg .steady) bytes' ↔ bytes' = bytes) ∧
    (fromBytes bytes).run = some (.ok ⟨evs⟩) ∧ Generates (canonCfg .steady) evs ∧ evs.length = 100000 ∧
    ∀ pre, pre <+: evs → ∃ (t : BTreeBook) (s : SortedVecBook) (r : RevVecBook) (f : FlatBook),
      replay default pre = some t ∧ replay default pre = some s ∧ replay default pre = some r ∧
      replay default pre = some f ∧ Agree s t ∧ Agree r t ∧ Agree f t ∧ Uncrossed 65000 t :=
  written_corpus_replays ⟨by decide,by decide,by decide,by decide,by decide⟩

end LowLatencyLob.Feed.Synthetic
