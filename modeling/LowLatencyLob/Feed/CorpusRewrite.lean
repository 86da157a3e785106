import LowLatencyLob.Feed.CorpusRoundTrip

/-! Writing a corpus that was read: what it normalises, and what it leaves as it was. -/
namespace LowLatencyLob.Feed
open Book Sequence

/-- The bytes that writing may change: the reserved ones of the header, the padding of a
record, and the price, quantity and side of a clear. -/
def Free (b : List UInt8) (k : ℕ) : Prop :=
  (24 ≤ k ∧ k < HEADER_SIZE) ∨ ∃ i < count b, ∃ j < RECORD_SIZE, k = HEADER_SIZE+RECORD_SIZE*i+j ∧
    (34 ≤ j ∨ 16 ≤ j ∧ j < 33 ∧ kindAt b i = kindByte .clear)

/-- An event with nothing in it that reading ignores. -/
def Plain (ev : BookEvent) : Prop := ev.kind = .clear → ev.px = 0 ∧ ev.qty = 0 ∧ ev.side = .bid

section Fields
variable {b : List UInt8} {off : ℕ}

theorem field_lt (b : List UInt8) (off n : ℕ) : field b off n < 256^n :=
  (ofLE_lt _).trans_le (Nat.pow_le_pow_right (by decide) (List.length_take_le n _))

/-- The bytes of a field are those of its number. -/
theorem toLE_field {n : ℕ} (h : off+n ≤ b.length) : toLE n (field b off n) = (b.drop off).take n := by
  have hlen : ((b.drop off).take n).length = n := by
    rw [List.length_take, List.length_drop]
    omega
  have hspell := toLE_ofLE ((b.drop off).take n)
  rwa [hlen] at hspell

theorem u64ToLE_field (h : off+8 ≤ b.length) : u64ToLE (UInt64.ofNat (field b off 8)) = (b.drop off).take 8 := by
  rw [u64ToLE, UInt64.toNat_ofNat_of_lt' (field_lt b off 8), toLE_field h]

theorem i64ToLE_field (h : off+8 ≤ b.length) :
    i64ToLE (UInt64.ofNat (field b off 8)).toInt64 = (b.drop off).take 8 := u64ToLE_field h

end Fields
section Records
variable {rec : List UInt8} {ev : BookEvent} {side : Side} {kind : EventKind}

theorem sideFromU8_ok {x : UInt8} {i : ℕ} (h : sideFromU8 x i = .ok side) : x = sideByte side := by
  unfold sideFromU8 at h
  split at h
  · cases h
    rfl
  · cases h
    rfl
  · cases h

theorem kindFromU8_ok {x : UInt8} {i : ℕ} (h : kindFromU8 x i = .ok kind) : x = kindByte kind := by
  unfold kindFromU8 at h
  split at h
  · cases h
    rfl
  · cases h
    rfl
  · cases h
    rfl
  · cases h

/-- A record that is taken spells its event. -/
theorem Reads.decoded_eq (h : Reads rec ev) (hlen : rec.length = RECORD_SIZE) :
    ∃ side kind, rec[32]? = some (sideByte side) ∧ rec[33]? = some (kindByte kind) ∧ ev = decoded rec side kind := by
  have hread := h 0
  have hsize : rec.length = 40 := hlen
  have hside : rec[32]? = some (rec.getD 32 0) := by simp [List.getD, hsize]
  have hkind : rec[33]? = some (rec.getD 33 0) := by simp [List.getD, hsize]
  rw [readRecord_eq hlen] at hread
  cases hs : sideFromU8 (rec.getD 32 0) 0 with
  | error e =>
    rw [hs] at hread
    cases hread
  | ok side =>
    cases hk : kindFromU8 (rec.getD 33 0) 0 with
    | error e =>
      rw [hs, hk] at hread
      cases hread
    | ok kind =>
      rw [hs, hk] at hread
      refine ⟨side,kind,?_,?_,?_⟩
      · rw [hside, sideFromU8_ok hs]
      · rw [hkind, kindFromU8_ok hk]
      · cases hread
        rfl

/-- What a read record is written back as. -/
theorem writeRecord_decoded (hlen : rec.length = RECORD_SIZE) (hs : rec[32]? = some (sideByte side))
    (hk : rec[33]? = some (kindByte kind)) : writeRecord (decoded rec side kind) =
      if kind = .clear then rec.take 16 ++ List.replicate 17 0 ++ [kindByte .clear] ++ List.replicate 6 0
      else rec.take 34 ++ List.replicate 6 0 := by
  have hsize : rec.length = 40 := hlen
  have hseq : u64ToLE (UInt64.ofNat (field rec 0 8)) = rec.take 8 := u64ToLE_field (by omega)
  have hts : u64ToLE (UInt64.ofNat (field rec 8 8)) = (rec.drop 8).take 8 := u64ToLE_field (by omega)
  have hpx : i64ToLE (UInt64.ofNat (field rec 16 8)).toInt64 = (rec.drop 16).take 8 := i64ToLE_field (by omega)
  have hqty : i64ToLE (UInt64.ofNat (field rec 24 8)).toInt64 = (rec.drop 24).take 8 := i64ToLE_field (by omega)
  have hfront : rec.take 16 = rec.take 8 ++ (rec.drop 8).take 8 := List.take_add (i := 8) (j := 8)
  have hmid : rec.take 32 = rec.take 16 ++ ((rec.drop 16).take 8 ++ (rec.drop 24).take 8) := by
    rw [List.take_add (i := 16) (j := 16), List.take_add (l := rec.drop 16) (i := 8) (j := 8), List.drop_drop]
  have hwhole : rec.take 34 = rec.take 32 ++ [sideByte side,kindByte kind] := by
    rw [List.take_add_one, List.take_add_one, hs, hk]
    simp
  cases kind with
  | clear =>
    have hzero : i64ToLE 0 = List.replicate 8 0 := by decide
    have hpad : List.replicate 17 (0 : UInt8) = List.replicate 8 0 ++ List.replicate 8 0 ++ [sideByte .bid] := rfl
    rw [if_pos rfl, hfront, ← hseq, ← hts, hpad, ← hzero]
    simp [writeRecord, decoded, eventFromParts, BookEvent.clear]
  | level =>
    rw [if_neg (by decide), hwhole, hmid, hfront, ← hseq, ← hts, ← hpx, ← hqty]
    simp [writeRecord, decoded, eventFromParts, BookEvent.level]
  | trade =>
    rw [if_neg (by decide), hwhole, hmid, hfront, ← hseq, ← hts, ← hpx, ← hqty]
    simp [writeRecord, decoded, eventFromParts, BookEvent.trade]

/-- The bytes of a record that are written back as they were. -/
theorem Reads.kept (h : Reads rec ev) (hlen : rec.length = RECORD_SIZE) {j : ℕ} (hj : j < 34)
    (hc : rec[33]? = some (kindByte .clear) → j < 16 ∨ j = 33) : (writeRecord ev)[j]? = rec[j]? := by
  obtain ⟨side,kind,hs,hk,rfl⟩ := h.decoded_eq hlen
  have hsize : rec.length = 40 := hlen
  rw [writeRecord_decoded hlen hs hk]
  split_ifs with hkind
  · subst kind
    rcases hc hk with hlt | rfl
    · simp only [List.append_assoc]
      rw [List.getElem?_append_left (by rw [List.length_take]; omega), List.getElem?_take_of_lt hlt]
    · rw [hk]
      simp [hsize]
  · rw [List.getElem?_append_left (by rw [List.length_take]; omega), List.getElem?_take_of_lt hj]

end Records
section Files
variable {b : List UInt8} {corpus : Corpus}

/-- The part of a valid header that is read. -/
theorem HeaderValid.take_eq (h : HeaderValid b) :
    b.take 24 = MAGIC ++ toLE 4 1 ++ toLE 4 RECORD_SIZE ++ toLE 8 (count b) := by
  have hlong : 32 ≤ b.length := h.long
  have hversion : toLE 4 (field b 8 4) = (b.drop 8).take 4 := toLE_field (by omega)
  have hsize : toLE 4 (field b 12 4) = (b.drop 12).take 4 := toLE_field (by omega)
  have hcount : toLE 8 (count b) = (b.drop 16).take 8 := toLE_field (by omega)
  rw [h.version] at hversion
  rw [h.recordSize] at hsize
  rw [List.take_add (i := 16) (j := 8), List.take_add (i := 12) (j := 4), List.take_add (i := 8) (j := 4),
    h.magic, hversion, hsize, hcount]

/-- What an accepted string is: a valid header, and one record for each event. -/
theorem accepted (h : (fromBytes b).run = some (.ok corpus)) : HeaderValid b ∧
    List.Forall₂ Reads (chunksExact RECORD_SIZE (b.drop HEADER_SIZE)) corpus.events := by
  rcases wellFormed_or_rejects b with hw | ⟨e,he⟩
  · obtain ⟨evs,hevs⟩ := hw.reads
    have hread : (fromBytes b).run = some (.ok ⟨evs⟩) := by
      rw [hw.toHeaderValid.fromBytes, readRecords_ok hevs, pure_bind]
      rfl
    rw [h] at hread
    cases hread
    exact ⟨hw.toHeaderValid,hevs⟩
  · have herr : (fromBytes b).run = some (.error e) := he.fromBytes
    rw [h] at herr
    cases herr

theorem count_eq (h : HeaderValid b) {evs : List BookEvent}
    (hevs : List.Forall₂ Reads (chunksExact RECORD_SIZE (b.drop HEADER_SIZE)) evs) : evs.length = count b := by
  rw [← hevs.length_eq, chunksExact_length, List.length_drop, ← h.payload, Nat.mul_div_cancel _ (by decide)]

/-- Writing changes free bytes only. -/
theorem kept_of_not_free (h : HeaderValid b) {evs : List BookEvent}
    (hevs : List.Forall₂ Reads (chunksExact RECORD_SIZE (b.drop HEADER_SIZE)) evs) {k : ℕ}
    (hk : ¬Free b k) : (writeTo evs)[k]? = b[k]? := by
  have hcount := count_eq h hevs
  have hwrap : evs.length*RECORD_SIZE < 2^64 := hcount ▸ h.noWrap
  have h' := headerValid_writeTo hwrap
  have hlen : (writeTo evs).length = b.length := by
    have hpay := h.payload
    have hlong := h.long
    rw [writeTo_length, hcount]
    omega
  by_cases hhead : k < HEADER_SIZE
  · have hlt : k < 24 := by
      by_contra hge
      exact hk (.inl ⟨by omega,hhead⟩)
    rw [← List.getElem?_take_of_lt hlt, h'.take_eq, count_writeTo hwrap, hcount, ← h.take_eq,
      List.getElem?_take_of_lt hlt]
  by_cases hend : b.length ≤ k
  · rw [List.getElem?_eq_none hend, List.getElem?_eq_none (hlen ▸ hend)]
  -- The record of the byte.
  have hpay := h.payload
  obtain ⟨i,j,hj,rfl⟩ : ∃ i j, j < RECORD_SIZE ∧ k = HEADER_SIZE+RECORD_SIZE*i+j := by
    refine ⟨(k-HEADER_SIZE)/RECORD_SIZE,(k-HEADER_SIZE)%RECORD_SIZE,Nat.mod_lt _ (by decide),?_⟩
    have hdiv := Nat.div_add_mod (k-HEADER_SIZE) RECORD_SIZE
    omega
  have hi : i < count b := by
    unfold RECORD_SIZE at hpay hend
    omega
  obtain ⟨rec,hrec,hsize,hbytes⟩ := record_bytes h hi
  obtain ⟨rec',hrec',_,hbytes'⟩ := record_bytes h' (i := i) (by rwa [count_writeTo hwrap, hcount])
  rw [writeTo_drop, chunksExact_flatMap (by decide) writeRecord_length, List.getElem?_map] at hrec'
  obtain ⟨ev,hev,rfl⟩ := Option.map_eq_some_iff.mp hrec'
  have hreads : Reads rec ev := by
    obtain ⟨hlt,rfl⟩ := List.getElem?_eq_some_iff.mp hrec
    obtain ⟨hlt',rfl⟩ := List.getElem?_eq_some_iff.mp hev
    exact hevs.get hlt hlt'
  rw [← hbytes j hj, ← hbytes' j hj]
  have hlow : j < 34 := by
    by_contra hge
    exact hk (.inr ⟨i,hi,j,hj,rfl,.inl (by omega)⟩)
  refine hreads.kept hsize hlow fun hclear => ?_
  by_contra hmid
  refine hk (.inr ⟨i,hi,j,hj,rfl,.inr ⟨by omega,by omega,?_⟩⟩)
  rw [kindAt, List.getD, ← hbytes 33 (by decide), hclear]
  rfl

/-- An event that was read has nothing in it that reading ignores. -/
theorem reload_decoded (rec : List UInt8) (side : Side) (kind : EventKind) :
    reload (decoded rec side kind) = decoded rec side kind := by
  cases kind <;> rfl

theorem map_reload_of_reads {recs : List (List UInt8)} {evs : List BookEvent} (h : List.Forall₂ Reads recs evs)
    (hlen : ∀ rec ∈ recs, rec.length = RECORD_SIZE) : evs.map reload = evs := by
  induction h with
  | nil => rfl
  | @cons rec ev recs evs hrec _ ih =>
    obtain ⟨side,kind,_,_,rfl⟩ := hrec.decoded_eq (hlen rec List.mem_cons_self)
    rw [List.map_cons, reload_decoded, ih fun rec' hrec' => hlen rec' (List.mem_cons_of_mem _ hrec')]

theorem Plain.reload_eq {ev : BookEvent} (h : Plain ev) : reload ev = ev := by
  obtain ⟨seq,ts,px,qty,side,kind⟩ := ev
  cases kind with
  | level => rfl
  | trade => rfl
  | clear =>
    obtain ⟨rfl,rfl,rfl⟩ := h rfl
    rfl

end Files

/-- Writing an accepted corpus back gives as many bytes, which are accepted as the same
events, differ in free bytes only, and are not changed by another round; and what was
written from plain events is not changed at all. -/
theorem rewriting_normalises :
    (∀ (b : List UInt8) (corpus : Corpus), (fromBytes b).run = some (.ok corpus) →
      (writeTo corpus.events).length = b.length ∧
      (fromBytes (writeTo corpus.events)).run = some (.ok corpus) ∧
      (∀ k, (writeTo corpus.events)[k]? ≠ b[k]? → Free b k) ∧
      ∀ corpus', (fromBytes (writeTo corpus.events)).run = some (.ok corpus') →
        writeTo corpus'.events = writeTo corpus.events) ∧
    ∀ s : EventSlice, (∀ ev ∈ s.events, Plain ev) →
      ∃ corpus, (fromBytes (writeTo s.events)).run = some (.ok corpus) ∧
        writeTo corpus.events = writeTo s.events := by
  constructor
  · intro b corpus h
    obtain ⟨hvalid,hevs⟩ := accepted h
    have hcount := count_eq hvalid hevs
    have hmap := map_reload_of_reads hevs fun rec => length_of_mem_chunksExact
    have hback : (fromBytes (writeTo corpus.events)).run = some (.ok corpus) := by
      rw [fromBytes_writeTo (hcount ▸ hvalid.noWrap), hmap]
      rfl
    refine ⟨?_,hback,fun k hk => ?_,fun corpus' h' => ?_⟩
    · have hpay := hvalid.payload
      have hlong := hvalid.long
      rw [writeTo_length, hcount]
      omega
    · by_contra hfree
      exact hk (kept_of_not_free hvalid hevs hfree)
    · rw [hback] at h'
      cases h'
      rfl
  · intro s hplain
    have hmap : s.events.map reload = s.events :=
      (List.map_congr_left fun ev hev => (hplain ev hev).reload_eq).trans (List.map_id _)
    refine ⟨⟨s.events⟩,?_,rfl⟩
    rw [fromBytes_writeTo s.noWrap, hmap]
    rfl

/-- A clear on the ask side at price 9, with a dirty pad. -/
def dirtyClear : List UInt8 :=
  MAGIC ++ [1,0,0,0,40,0,0,0,1] ++ List.replicate 7 0 ++ List.replicate 8 7 ++ List.replicate 16 0 ++ [9] ++
    List.replicate 15 0 ++ [1,2] ++ List.replicate 6 5

theorem rewriting_normalises_clear :
    (writeTo [.clear 0 0]).length = dirtyClear.length ∧
      (∀ k, (writeTo [.clear 0 0])[k]? ≠ dirtyClear[k]? → Free dirtyClear k) ∧
      ∃ corpus, (fromBytes (writeTo [.clear 0 0])).run = some (.ok corpus) ∧
        writeTo corpus.events = writeTo [.clear 0 0] := by
  have hread : (fromBytes dirtyClear).run = some (.ok ⟨[.clear 0 0]⟩) := by decide +kernel
  have hdirty := rewriting_normalises.1 dirtyClear _ hread
  have hplain := rewriting_normalises.2 ⟨[.clear 0 0],by decide⟩ (by unfold Plain; decide)
  exact ⟨hdirty.1,hdirty.2.2.1,hplain⟩

end LowLatencyLob.Feed
