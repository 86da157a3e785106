import LowLatencyLob.Feed.Corpus
import LowLatencyLob.Feed.Outcome

/-! The documented format of a corpus, and that reading accepts exactly the byte strings
of that format; any other is rejected with the first check that it fails. -/
namespace LowLatencyLob.Feed
open Book Sequence

/-- The little-endian integer of `n` bytes at `off`. -/
def field (b : List UInt8) (off n : ℕ) : ℕ := ofLE ((b.drop off).take n)

/-- The header's count of records. -/
def count (b : List UInt8) : ℕ := field b 16 8

/-- Byte 32 of the record of index `i`. -/
def sideAt (b : List UInt8) (i : ℕ) : UInt8 := b.getD (HEADER_SIZE+RECORD_SIZE*i+32) 0

/-- Byte 33 of the record of index `i`. -/
def kindAt (b : List UInt8) (i : ℕ) : UInt8 := b.getD (HEADER_SIZE+RECORD_SIZE*i+33) 0

def SideValid (b : List UInt8) (i : ℕ) : Prop := sideAt b i = 0 ∨ sideAt b i = 1

def KindValid (b : List UInt8) (i : ℕ) : Prop := kindAt b i = 0 ∨ kindAt b i = 1 ∨ kindAt b i = 2

/-- The checks of the header, and of the length that it declares. -/
structure HeaderValid (b : List UInt8) : Prop where
  long : HEADER_SIZE ≤ b.length
  magic : b.take 8 = MAGIC
  version : field b 8 4 = 1
  recordSize : field b 12 4 = RECORD_SIZE
  noWrap : count b*RECORD_SIZE < 2^64
  payload : count b*RECORD_SIZE = b.length-HEADER_SIZE

/-- The format. Bytes 24 to 31 of the header and 34 to 39 of a record are free. -/
structure WellFormed (b : List UInt8) : Prop extends HeaderValid b where
  side : ∀ i < count b, SideValid b i
  kind : ∀ i < count b, KindValid b i

/-- The error of the first failing check; of the records' checks, that of the lowest
record, the side before the kind. -/
inductive Rejects (b : List UInt8) : CorpusError → Prop
  | short (h : b.length < HEADER_SIZE) : Rejects b (.truncated HEADER_SIZE b.length)
  | magic (h : HEADER_SIZE ≤ b.length) (hm : b.take 8 ≠ MAGIC) : Rejects b .badMagic
  | version (h : HEADER_SIZE ≤ b.length) (hm : b.take 8 = MAGIC) (hv : field b 8 4 ≠ 1) :
    Rejects b (.unsupportedVersion (UInt32.ofNat (field b 8 4)))
  | recordSize (h : HEADER_SIZE ≤ b.length) (hm : b.take 8 = MAGIC) (hv : field b 8 4 = 1)
      (hr : field b 12 4 ≠ RECORD_SIZE) : Rejects b (.badRecordSize (UInt32.ofNat (field b 12 4)))
  | overflow (h : HEADER_SIZE ≤ b.length) (hm : b.take 8 = MAGIC) (hv : field b 8 4 = 1)
      (hr : field b 12 4 = RECORD_SIZE) (hc : 2^64 ≤ count b*RECORD_SIZE) :
    Rejects b (.truncated (2^64-1) (b.length-HEADER_SIZE))
  | payload (h : HEADER_SIZE ≤ b.length) (hm : b.take 8 = MAGIC) (hv : field b 8 4 = 1)
      (hr : field b 12 4 = RECORD_SIZE) (hc : count b*RECORD_SIZE < 2^64)
      (hp : count b*RECORD_SIZE ≠ b.length-HEADER_SIZE) :
    Rejects b (.truncated (count b*RECORD_SIZE) (b.length-HEADER_SIZE))
  | side (h : HeaderValid b) {i : ℕ} (hi : i < count b) (hb : ∀ j < i, SideValid b j ∧ KindValid b j)
      (hs : ¬SideValid b i) : Rejects b (.badDiscriminant i "side" (sideAt b i))
  | kind (h : HeaderValid b) {i : ℕ} (hi : i < count b) (hb : ∀ j < i, SideValid b j ∧ KindValid b j)
      (hs : SideValid b i) (hk : ¬KindValid b i) : Rejects b (.badDiscriminant i "kind" (kindAt b i))

/-- A byte string is well formed, or a first check fails. -/
theorem wellFormed_or_rejects (b : List UInt8) : WellFormed b ∨ ∃ e, Rejects b e := by
  by_cases h : HEADER_SIZE ≤ b.length
  swap
  · exact .inr ⟨_,.short (Nat.lt_of_not_le h)⟩
  by_cases hm : b.take 8 = MAGIC
  swap
  · exact .inr ⟨_,.magic h hm⟩
  by_cases hv : field b 8 4 = 1
  swap
  · exact .inr ⟨_,.version h hm hv⟩
  by_cases hr : field b 12 4 = RECORD_SIZE
  swap
  · exact .inr ⟨_,.recordSize h hm hv hr⟩
  by_cases hc : count b*RECORD_SIZE < 2^64
  swap
  · exact .inr ⟨_,.overflow h hm hv hr (Nat.le_of_not_lt hc)⟩
  by_cases hp : count b*RECORD_SIZE = b.length-HEADER_SIZE
  swap
  · exact .inr ⟨_,.payload h hm hv hr hc hp⟩
  have hd : HeaderValid b := ⟨h,hm,hv,hr,hc,hp⟩
  by_cases hall : ∀ i < count b, SideValid b i ∧ KindValid b i
  · exact .inl ⟨hd,fun i hi => (hall i hi).1,fun i hi => (hall i hi).2⟩
  -- The lowest offending record.
  classical
  have hex : ∃ i, i < count b ∧ ¬(SideValid b i ∧ KindValid b i) := by
    simpa only [not_forall, exists_prop] using hall
  obtain ⟨hi,hbad⟩ := Nat.find_spec hex
  have hb : ∀ j < Nat.find hex, SideValid b j ∧ KindValid b j := by
    intro j hj
    have hmin := Nat.find_min hex hj
    by_contra hnot
    exact hmin ⟨hj.trans hi,hnot⟩
  by_cases hs : SideValid b (Nat.find hex)
  · exact .inr ⟨_,.kind hd hi hb hs fun hk => hbad ⟨hs,hk⟩⟩
  · exact .inr ⟨_,.side hd hi hb hs⟩

section Reading
variable {α β : Type} {b rec : List UInt8} {off stop n : ℕ}

/-- The `n` bytes at `off`, as an array. -/
def bytesAt (b : List UInt8) (off n : ℕ) (h : off+n ≤ b.length) : List.Vector UInt8 n :=
  ⟨(b.drop off).take n,by
    rw [List.length_take, List.length_drop]
    omega⟩

/-- Reading `n` bytes of a long enough slice. -/
theorem read_bytes (off n : ℕ) (hn : stop = off+n) (h : stop ≤ b.length) (f : List.Vector UInt8 n → Read α) :
    (liftM (Slice.range b off stop) >>= fun s => liftM (leBytes n s) >>= f) =
      f (bytesAt b off n (hn ▸ h)) := by
  subst stop
  have hlen : ((b.drop off).take n).length = n := (bytesAt b off n h).2
  have hcopy : leBytes n ((b.drop off).take n) = some (bytesAt b off n h) := dif_pos hlen
  rw [Slice.range_eq (Nat.le_add_right _ _) h, lift_bind, Nat.add_sub_cancel_left, hcopy, lift_bind]

/-- The event of a record with this side and kind. -/
def decoded (rec : List UInt8) (side : Side) (kind : EventKind) : BookEvent :=
  eventFromParts (UInt64.ofNat (field rec 0 8)) (UInt64.ofNat (field rec 8 8)) side
    (UInt64.ofNat (field rec 16 8)).toInt64 (UInt64.ofNat (field rec 24 8)).toInt64 kind

/-- What the record loop makes of a record: the checks of its side and its kind. -/
theorem readRecord_eq (h : rec.length = RECORD_SIZE) (i : ℕ) :
    readRecord rec i = (liftM (sideFromU8 (rec.getD 32 0) i) : Read Side) >>= fun side =>
      (liftM (kindFromU8 (rec.getD 33 0) i) : Read EventKind) >>= fun kind => pure (decoded rec side kind) := by
  have hlen : rec.length = 40 := h
  have hside : rec[32]? = some (rec.getD 32 0) := by simp [List.getD, hlen]
  have hkind : rec[33]? = some (rec.getD 33 0) := by simp [List.getD, hlen]
  unfold readRecord
  rw [read_bytes 0 8 rfl (by omega), read_bytes 8 8 rfl (by omega), read_bytes 16 8 rfl (by omega),
    read_bytes 24 8 rfl (by omega), hside, lift_bind, hkind]
  rfl

/-- A record that the loop takes as an event, at any index. -/
def Reads (rec : List UInt8) (ev : BookEvent) : Prop := ∀ i, readRecord rec i = pure ev

theorem side_ok {x : UInt8} (h : x = 0 ∨ x = 1) : ∃ side, ∀ i, sideFromU8 x i = .ok side := by
  rcases h with rfl | rfl
  · exact ⟨.bid,fun i => rfl⟩
  · exact ⟨.ask,fun i => rfl⟩

theorem side_error {x : UInt8} (h : ¬(x = 0 ∨ x = 1)) (i : ℕ) :
    sideFromU8 x i = .error (.badDiscriminant i "side" x) := by
  unfold sideFromU8
  split
  · exact absurd (.inl rfl) h
  · exact absurd (.inr rfl) h
  · rfl

theorem kind_ok {x : UInt8} (h : x = 0 ∨ x = 1 ∨ x = 2) : ∃ kind, ∀ i, kindFromU8 x i = .ok kind := by
  rcases h with rfl | rfl | rfl
  · exact ⟨.level,fun i => rfl⟩
  · exact ⟨.trade,fun i => rfl⟩
  · exact ⟨.clear,fun i => rfl⟩

theorem kind_error {x : UInt8} (h : ¬(x = 0 ∨ x = 1 ∨ x = 2)) (i : ℕ) :
    kindFromU8 x i = .error (.badDiscriminant i "kind" x) := by
  unfold kindFromU8
  split
  · exact absurd (.inl rfl) h
  · exact absurd (.inr (.inl rfl)) h
  · exact absurd (.inr (.inr rfl)) h
  · rfl

theorem readRecord_valid (h : rec.length = RECORD_SIZE) (hs : rec.getD 32 0 = 0 ∨ rec.getD 32 0 = 1)
    (hk : rec.getD 33 0 = 0 ∨ rec.getD 33 0 = 1 ∨ rec.getD 33 0 = 2) : ∃ ev, Reads rec ev := by
  obtain ⟨side,hside⟩ := side_ok hs
  obtain ⟨kind,hkind⟩ := kind_ok hk
  refine ⟨decoded rec side kind,fun i => ?_⟩
  rw [readRecord_eq h, hside, hkind]
  rfl

theorem readRecord_side (h : rec.length = RECORD_SIZE) (hs : ¬(rec.getD 32 0 = 0 ∨ rec.getD 32 0 = 1)) (i : ℕ) :
    readRecord rec i = throw (.badDiscriminant i "side" (rec.getD 32 0)) := by
  rw [readRecord_eq h, side_error hs]
  rfl

theorem readRecord_kind (h : rec.length = RECORD_SIZE) (hs : rec.getD 32 0 = 0 ∨ rec.getD 32 0 = 1)
    (hk : ¬(rec.getD 33 0 = 0 ∨ rec.getD 33 0 = 1 ∨ rec.getD 33 0 = 2)) (i : ℕ) :
    readRecord rec i = throw (.badDiscriminant i "kind" (rec.getD 33 0)) := by
  obtain ⟨side,hside⟩ := side_ok hs
  rw [readRecord_eq h, hside, kind_error hk]
  rfl

/-- Records that are all taken are taken in order. -/
theorem readRecords_ok {recs : List (List UInt8)} {evs : List BookEvent} (h : List.Forall₂ Reads recs evs)
    (i : ℕ) :
    readRecords recs i = pure evs := by
  induction h generalizing i with
  | nil => rfl
  | cons hrec _ ih =>
    rw [readRecords, hrec, pure_bind, ih, pure_bind]

/-- The loop stops at the first record that it cannot take. -/
theorem readRecords_error {pre post : List (List UInt8)} {evs : List BookEvent} {e : CorpusError}
    (h : List.Forall₂ Reads pre evs) {i : ℕ} (he : readRecord rec (i+pre.length) = throw e) :
    readRecords (pre ++ rec :: post) i = throw e := by
  induction h generalizing i with
  | nil =>
    rw [List.nil_append, readRecords]
    rw [List.length_nil, Nat.add_zero] at he
    rw [he, throw_bind]
  | @cons rec' ev pre evs hrec _ ih =>
    have hnext : readRecord rec (i+1+pre.length) = throw e := by
      rw [← he, List.length_cons]
      congr 1
      omega
    rw [List.cons_append, readRecords, hrec, pure_bind, ih hnext, throw_bind]

theorem exists_reads {recs : List (List UInt8)} (h : ∀ rec ∈ recs, ∃ ev, Reads rec ev) :
    ∃ evs, List.Forall₂ Reads recs evs := by
  induction recs with
  | nil => exact ⟨[],.nil⟩
  | cons rec recs ih =>
    obtain ⟨ev,hev⟩ := h rec List.mem_cons_self
    obtain ⟨evs,hevs⟩ := ih fun rec' hrec' => h rec' (List.mem_cons_of_mem _ hrec')
    exact ⟨ev :: evs,.cons hev hevs⟩

end Reading

section Header
variable {b : List UInt8}

theorem u32_toNat {a : List.Vector UInt8 4} {n : ℕ} (h : ofLE a.toList = n) : (u32FromLE a).toNat = n := by
  have hlt := ofLE_lt a.toList
  rw [List.Vector.toList_length] at hlt
  rw [u32FromLE, UInt32.toNat_ofNat', h]
  omega

theorem u64_toNat {a : List.Vector UInt8 8} {n : ℕ} (h : ofLE a.toList = n) : (u64FromLE a).toNat = n := by
  have hlt := ofLE_lt a.toList
  rw [List.Vector.toList_length] at hlt
  rw [u64FromLE, UInt64.toNat_ofNat', h]
  omega

theorem checkPayload_eq {c : UInt64} {n : ℕ} (h : c.toNat = n) (payload : List UInt8) :
    checkPayload c payload =
      if 2^64 ≤ n*RECORD_SIZE then throw (.truncated (2^64-1) payload.length)
      else if n*RECORD_SIZE ≠ payload.length then throw (.truncated (n*RECORD_SIZE) payload.length)
      else pure () := by
  unfold checkPayload checkedMul
  rw [h]
  by_cases hc : n*RECORD_SIZE < 2^64
  · rw [if_pos hc, if_neg (Nat.not_le.mpr hc)]
    simp only [ne_comm]
  · rw [if_neg hc, if_pos (Nat.le_of_not_lt hc)]

/-- The checks of a string that is long enough to have a header, in their order. -/
theorem fromBytes_eq (h : HEADER_SIZE ≤ b.length) : fromBytes b =
    if b.take 8 ≠ MAGIC then throw .badMagic
    else if field b 8 4 ≠ 1 then throw (.unsupportedVersion (UInt32.ofNat (field b 8 4)))
    else if field b 12 4 ≠ RECORD_SIZE then throw (.badRecordSize (UInt32.ofNat (field b 12 4)))
    else if 2^64 ≤ count b*RECORD_SIZE then throw (.truncated (2^64-1) (b.length-HEADER_SIZE))
    else if count b*RECORD_SIZE ≠ b.length-HEADER_SIZE then
      throw (.truncated (count b*RECORD_SIZE) (b.length-HEADER_SIZE))
    else readRecords (chunksExact RECORD_SIZE (b.drop HEADER_SIZE)) 0 >>= fun evs => pure ⟨evs⟩ := by
  have hlen : 32 ≤ b.length := h
  have hmagic : Slice.range b 0 8 = some (b.take 8) := Slice.range_eq (Nat.zero_le 8) (by omega)
  have hpayload : Slice.range b HEADER_SIZE b.length = some (b.drop HEADER_SIZE) := by
    rw [Slice.range_eq h le_rfl]
    simp
  have hversion : u32FromLE (bytesAt b 8 4 (by omega)) ≠ VERSION ↔ field b 8 4 ≠ 1 := by
    rw [ne_eq, ← UInt32.toNat_inj, u32_toNat rfl]
    rfl
  have hsize : (u32FromLE (bytesAt b 12 4 (by omega))).toNat = field b 12 4 := u32_toNat rfl
  have hcount : (u64FromLE (bytesAt b 16 8 (by omega))).toNat = count b := u64_toNat rfl
  unfold fromBytes
  rw [if_neg (Nat.not_lt.mpr h), hmagic]
  simp only [lift_bind, read_bytes 8 4 rfl (by omega : 12 ≤ b.length),
    read_bytes 12 4 rfl (by omega : 16 ≤ b.length),
    read_bytes 16 8 rfl (by omega : 24 ≤ b.length), hpayload, throw_bind, hsize, checkPayload_eq hcount,
    List.length_drop]
  by_cases hm : b.take 8 ≠ MAGIC
  · rw [if_pos hm, if_pos hm]
  rw [if_neg hm, if_neg hm]
  by_cases hv : field b 8 4 ≠ 1
  · rw [if_pos hv, if_pos (hversion.mpr hv)]
    rfl
  rw [if_neg hv, if_neg (mt hversion.mp hv)]
  by_cases hr : field b 12 4 ≠ RECORD_SIZE
  · rw [if_pos hr, if_pos hr]
    rfl
  rw [if_neg hr, if_neg hr]
  split_ifs
  · rfl
  · rfl
  · rfl

/-- The record of index `i`, as the loop sees it. -/
theorem record_bytes (h : HeaderValid b) {i : ℕ} (hi : i < count b) :
    ∃ rec, (chunksExact RECORD_SIZE (b.drop HEADER_SIZE))[i]? = some rec ∧ rec.length = RECORD_SIZE ∧
      ∀ j < RECORD_SIZE, rec[j]? = b[HEADER_SIZE+RECORD_SIZE*i+j]? := by
  have hpay := h.payload
  have hchunk : i < (b.drop HEADER_SIZE).length/RECORD_SIZE := by
    rw [List.length_drop, ← hpay, Nat.mul_div_cancel _ (by decide)]
    exact hi
  have hget := chunksExact_getElem hchunk
  refine ⟨_,hget,length_of_mem_chunksExact (List.mem_of_getElem? hget),fun j hj => ?_⟩
  rw [List.getElem?_take_of_lt hj, List.getElem?_drop, List.getElem?_drop, Nat.add_assoc]

theorem record_at (h : HeaderValid b) {i : ℕ} (hi : i < count b) :
    ∃ rec, (chunksExact RECORD_SIZE (b.drop HEADER_SIZE))[i]? = some rec ∧ rec.length = RECORD_SIZE ∧
      rec.getD 32 0 = sideAt b i ∧ rec.getD 33 0 = kindAt b i := by
  obtain ⟨rec,hget,hlen,hbytes⟩ := record_bytes h hi
  refine ⟨rec,hget,hlen,?_,?_⟩
  · rw [sideAt, List.getD, List.getD, hbytes 32 (by decide)]
  · rw [kindAt, List.getD, List.getD, hbytes 33 (by decide)]

/-- With a valid header everything is up to the record loop. -/
theorem HeaderValid.fromBytes (h : HeaderValid b) : fromBytes b =
    readRecords (chunksExact RECORD_SIZE (b.drop HEADER_SIZE)) 0 >>= fun evs => pure ⟨evs⟩ := by
  rw [fromBytes_eq h.long, if_neg (not_not.mpr h.magic), if_neg (not_not.mpr h.version),
    if_neg (not_not.mpr h.recordSize), if_neg (Nat.not_le.mpr h.noWrap), if_neg (not_not.mpr h.payload)]

/-- The records before `i` are taken, so that the loop stops at the record `i` if it must. -/
theorem HeaderValid.stops (h : HeaderValid b) {i : ℕ} {e : CorpusError} (hi : i < count b)
    (hb : ∀ j < i, SideValid b j ∧ KindValid b j)
    (he : ∀ rec : List UInt8, rec.length = RECORD_SIZE → rec.getD 32 0 = sideAt b i →
      rec.getD 33 0 = kindAt b i → readRecord rec i = throw e) : Feed.fromBytes b = throw e := by
  obtain ⟨rec,hget,hlen,hside,hkind⟩ := record_at h hi
  rw [h.fromBytes]
  generalize hrecs : chunksExact RECORD_SIZE (b.drop HEADER_SIZE) = recs at hget
  obtain ⟨hlt,hrec⟩ := List.getElem?_eq_some_iff.mp hget
  have hsplit : recs = recs.take i ++ rec :: recs.drop (i+1) := by
    rw [← hrec, List.getElem_cons_drop, List.take_append_drop]
  have hbefore : ∀ rec ∈ recs.take i, ∃ ev, Reads rec ev := by
    intro rec' hmem
    obtain ⟨j,hj,hrec'⟩ := List.getElem_of_mem hmem
    rw [List.length_take] at hj
    obtain ⟨rec'',hget'',hlen'',hside'',hkind''⟩ := record_at h (i := j) (by omega)
    obtain rfl : rec'' = rec' := by
      rw [hrecs, List.getElem?_eq_getElem (by omega), Option.some.injEq] at hget''
      rw [← hget'', ← hrec', List.getElem_take]
    obtain ⟨hs,hk⟩ := hb j (by omega)
    exact readRecord_valid hlen'' (by rwa [hside'']) (by rwa [hkind''])
  obtain ⟨evs,hevs⟩ := exists_reads hbefore
  have hstop := he rec hlen hside hkind
  have hlength : (recs.take i).length = i := by
    rw [List.length_take]
    omega
  rw [hsplit, readRecords_error hevs (by rwa [hlength, Nat.zero_add]), throw_bind]

/-- What a first failing check says is what reading returns. -/
theorem Rejects.fromBytes {e : CorpusError} (h : Rejects b e) : Feed.fromBytes b = throw e := by
  cases h with
  | short h =>
    unfold Feed.fromBytes
    rw [if_pos h]
    rfl
  | magic h hm => rw [fromBytes_eq h, if_pos hm]
  | version h hm hv => rw [fromBytes_eq h, if_neg (not_not.mpr hm), if_pos hv]
  | recordSize h hm hv hr => rw [fromBytes_eq h, if_neg (not_not.mpr hm), if_neg (not_not.mpr hv), if_pos hr]
  | overflow h hm hv hr hc =>
    rw [fromBytes_eq h, if_neg (not_not.mpr hm), if_neg (not_not.mpr hv), if_neg (not_not.mpr hr), if_pos hc]
  | payload h hm hv hr hc hp =>
    rw [fromBytes_eq h, if_neg (not_not.mpr hm), if_neg (not_not.mpr hv), if_neg (not_not.mpr hr),
      if_neg (Nat.not_le.mpr hc), if_pos hp]
  | @side h i hi hb hs =>
    refine h.stops hi hb fun rec hlen hside _ => ?_
    rw [← hside]
    exact readRecord_side hlen (by rwa [hside]) i
  | @kind h i hi hb hs hk =>
    refine h.stops hi hb fun rec hlen hside hkind => ?_
    rw [← hkind]
    exact readRecord_kind hlen (by rwa [hside]) (by rwa [hkind]) i

/-- The records of a well-formed string are all taken. -/
theorem WellFormed.reads (h : WellFormed b) :
    ∃ evs, List.Forall₂ Reads (chunksExact RECORD_SIZE (b.drop HEADER_SIZE)) evs := by
  apply exists_reads
  intro rec hmem
  obtain ⟨i,hi,hrec⟩ := List.getElem_of_mem hmem
  rw [chunksExact_length, List.length_drop, ← h.payload, Nat.mul_div_cancel _ (by decide)] at hi
  obtain ⟨rec',hget,hlen,hside,hkind⟩ := record_at h.toHeaderValid hi
  obtain rfl : rec' = rec := by
    obtain ⟨_,hrec'⟩ := List.getElem?_eq_some_iff.mp hget
    exact hrec'.symm.trans hrec
  have hs := h.side i hi
  have hk := h.kind i hi
  exact readRecord_valid hlen (by rwa [hside]) (by rwa [hkind])

theorem WellFormed.fromBytes (h : WellFormed b) : ∃ corpus, Feed.fromBytes b = pure corpus := by
  obtain ⟨evs,hevs⟩ := h.reads
  refine ⟨⟨evs⟩,?_⟩
  rw [h.toHeaderValid.fromBytes, readRecords_ok hevs, pure_bind]

/-- Reading never panics; it accepts exactly the well-formed strings, and rejects any
other with its first failing check. -/
theorem fromBytes_accepts (b : List UInt8) :
    (Feed.fromBytes b).run ≠ none ∧
      ((∃ corpus, (Feed.fromBytes b).run = some (.ok corpus)) ↔ WellFormed b) ∧
      ∀ e, (Feed.fromBytes b).run = some (.error e) ↔ Rejects b e := by
  rcases wellFormed_or_rejects b with h | ⟨e,h⟩
  · obtain ⟨corpus,hok⟩ := h.fromBytes
    have hrun : (Feed.fromBytes b).run = some (.ok corpus) := hok
    rw [hrun]
    refine ⟨by simp,⟨fun _ => h,fun _ => ⟨corpus,rfl⟩⟩,fun e => ⟨fun he => absurd he (by simp),fun he => ?_⟩⟩
    have herr : (Feed.fromBytes b).run = some (.error e) := he.fromBytes
    exact hrun.symm.trans herr
  · have hrun : (Feed.fromBytes b).run = some (.error e) := h.fromBytes
    rw [hrun]
    refine ⟨by simp,⟨?_,fun hw => ?_⟩,fun e' => ⟨?_,fun he => ?_⟩⟩
    · rintro ⟨corpus,hok⟩
      exact absurd hok (by simp)
    · obtain ⟨corpus,hok⟩ := hw.fromBytes
      exact ⟨corpus,hrun.symm.trans hok⟩
    · intro he
      obtain rfl : e = e' := by simpa using he
      exact h
    · have herr : (Feed.fromBytes b).run = some (.error e') := he.fromBytes
      exact hrun.symm.trans herr

end Header
end LowLatencyLob.Feed
