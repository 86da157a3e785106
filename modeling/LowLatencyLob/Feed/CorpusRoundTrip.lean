import LowLatencyLob.Feed.CorpusFormat
import LowLatencyLob.Book.BTree
import LowLatencyLob.Book.SortedVec
import LowLatencyLob.Book.RevVec
import LowLatencyLob.Book.Flat

/-! A corpus reads back as it was written, except for what a clear ignores; no book can
tell the difference. -/
namespace LowLatencyLob.Feed
open Book Sequence

/-- A slice of events in memory: it spans at most `isize::MAX` bytes. -/
structure EventSlice where
  events : List BookEvent
  fits : RECORD_SIZE*events.length ≤ 2^63-1

/-- What an event comes back as: a clear keeps its sequence number and time only. -/
def reload (ev : BookEvent) : BookEvent := if ev.kind = .clear then .clear ev.seq ev.ts else ev

section Fields
variable {pre mid post : List UInt8} {off n : ℕ}

theorem field_append (hpre : pre.length = off) (hmid : mid.length = n) :
    field (pre ++ (mid ++ post)) off n = ofLE mid := by
  subst off n
  rw [field, List.drop_left, List.take_left]

theorem field_zero (hmid : mid.length = n) : field (mid ++ post) 0 n = ofLE mid := by
  subst n
  rw [field, List.drop_zero, List.take_left]

@[simp] theorem u32ToLE_length (x : UInt32) : (u32ToLE x).length = 4 := toLE_length 4 _

@[simp] theorem u64ToLE_length (x : UInt64) : (u64ToLE x).length = 8 := toLE_length 8 _

@[simp] theorem i64ToLE_length (x : Int64) : (i64ToLE x).length = 8 := toLE_length 8 _

theorem ofLE_u32ToLE (x : UInt32) : ofLE (u32ToLE x) = x.toNat := ofLE_toLE x.toNat_lt

theorem ofLE_u64ToLE (x : UInt64) : ofLE (u64ToLE x) = x.toNat := ofLE_toLE x.toNat_lt

theorem ofLE_i64ToLE (x : Int64) : (UInt64.ofNat (ofLE (i64ToLE x))).toInt64 = x := by
  rw [i64ToLE, ofLE_u64ToLE, UInt64.ofNat_toNat]
  rfl

end Fields

section Records

@[simp] theorem writeRecord_length (e : BookEvent) : (writeRecord e).length = RECORD_SIZE := by
  simp [writeRecord, RECORD_SIZE]

theorem side_round_trip (side : Side) (i : ℕ) : sideFromU8 (sideByte side) i = .ok side := by
  cases side <;> rfl

theorem kind_round_trip (kind : EventKind) (i : ℕ) : kindFromU8 (kindByte kind) i = .ok kind := by
  cases kind <;> rfl

theorem decoded_writeRecord (e : BookEvent) : decoded (writeRecord e) e.side e.kind = reload e := by
  have hseq : field (writeRecord e) 0 8 = ofLE (u64ToLE e.seq) := by
    unfold writeRecord
    simp only [List.append_assoc]
    exact field_zero (by simp)
  have hts : field (writeRecord e) 8 8 = ofLE (u64ToLE e.ts) := by
    unfold writeRecord
    simp only [List.append_assoc]
    exact field_append (by simp) (by simp)
  have hpx : field (writeRecord e) 16 8 = ofLE (i64ToLE e.px) := by
    unfold writeRecord
    rw [List.append_assoc, List.append_assoc, List.append_assoc]
    exact field_append (by simp) (by simp)
  have hqty : field (writeRecord e) 24 8 = ofLE (i64ToLE e.qty) := by
    unfold writeRecord
    rw [List.append_assoc, List.append_assoc]
    exact field_append (by simp) (by simp)
  unfold decoded
  rw [hseq, hts, hpx, hqty, ofLE_u64ToLE, ofLE_u64ToLE, ofLE_i64ToLE, ofLE_i64ToLE, UInt64.ofNat_toNat,
    UInt64.ofNat_toNat]
  unfold reload eventFromParts
  obtain ⟨seq,ts,px,qty,side,kind⟩ := e
  cases kind <;> rfl

/-- Each record reads back as its event. -/
theorem reads_writeRecord (e : BookEvent) : Reads (writeRecord e) (reload e) := by
  intro i
  have hside : (writeRecord e).getD 32 0 = sideByte e.side := by
    simp [writeRecord]
  have hkind : (writeRecord e).getD 33 0 = kindByte e.kind := by
    simp [writeRecord]
  rw [readRecord_eq (writeRecord_length e), hside, hkind, side_round_trip, kind_round_trip, ← decoded_writeRecord]
  rfl

end Records

section Files
variable {evs : List BookEvent}

theorem payload_length (evs : List BookEvent) : (evs.flatMap writeRecord).length = evs.length*RECORD_SIZE := by
  induction evs with
  | nil => rfl
  | cons ev evs ih => simp [ih, Nat.succ_mul, Nat.add_comm]

theorem writeTo_drop (evs : List BookEvent) : (writeTo evs).drop HEADER_SIZE = evs.flatMap writeRecord := by
  have hhead : (MAGIC ++ u32ToLE VERSION ++ u32ToLE (UInt32.ofNat RECORD_SIZE) ++
      u64ToLE (UInt64.ofNat evs.length) ++ u64ToLE 0).length = HEADER_SIZE := by
    simp [MAGIC, HEADER_SIZE]
  unfold writeTo
  rw [← hhead, List.drop_left]

theorem writeTo_length (evs : List BookEvent) :
    (writeTo evs).length = HEADER_SIZE+evs.length*RECORD_SIZE := by
  unfold writeTo
  rw [List.length_append, payload_length]
  simp [MAGIC, HEADER_SIZE]

theorem count_writeTo (h : evs.length*RECORD_SIZE < 2^64) : count (writeTo evs) = evs.length := by
  have hlt : evs.length < 2^64 := by
    unfold RECORD_SIZE at h
    omega
  have hfield : count (writeTo evs) = ofLE (u64ToLE (UInt64.ofNat evs.length)) := by
    unfold writeTo count
    rw [List.append_assoc, List.append_assoc]
    exact field_append (by simp [MAGIC]) (by simp)
  rw [hfield, ofLE_u64ToLE, UInt64.toNat_ofNat_of_lt' hlt]

theorem headerValid_writeTo (h : evs.length*RECORD_SIZE < 2^64) : HeaderValid (writeTo evs) where
  long := by
    rw [writeTo_length]
    exact Nat.le_add_right _ _
  magic := by
    unfold writeTo
    simp only [List.append_assoc]
    exact List.take_left' rfl
  version := by
    have hfield : field (writeTo evs) 8 4 = ofLE (u32ToLE VERSION) := by
      unfold writeTo
      simp only [List.append_assoc]
      exact field_append rfl (by simp)
    rw [hfield, ofLE_u32ToLE]
    rfl
  recordSize := by
    have hfield : field (writeTo evs) 12 4 = ofLE (u32ToLE (UInt32.ofNat RECORD_SIZE)) := by
      unfold writeTo
      rw [List.append_assoc, List.append_assoc, List.append_assoc]
      exact field_append (by simp [MAGIC]) (by simp)
    rw [hfield, ofLE_u32ToLE]
    rfl
  noWrap := by
    rw [count_writeTo h]
    exact h
  payload := by
    rw [count_writeTo h, writeTo_length, Nat.add_sub_cancel_left]

/-- What was written reads back, if its length fits. -/
theorem fromBytes_writeTo (h : evs.length*RECORD_SIZE < 2^64) :
    fromBytes (writeTo evs) = pure ⟨evs.map reload⟩ := by
  have hreads : List.Forall₂ Reads (evs.map writeRecord) (evs.map reload) := by
    rw [List.forall₂_map_left_iff, List.forall₂_map_right_iff]
    exact List.forall₂_same.mpr fun e _ => reads_writeRecord e
  rw [(headerValid_writeTo h).fromBytes, writeTo_drop, chunksExact_flatMap (by decide) writeRecord_length,
    readRecords_ok hreads, pure_bind]

theorem EventSlice.noWrap (s : EventSlice) : s.events.length*RECORD_SIZE < 2^64 := by
  have hfits := s.fits
  rw [Nat.mul_comm]
  omega

end Files

section Replays
variable {B : Type} [OrderBook B]

/-- A book that does not look at what a clear ignores. -/
def Ignores (B : Type) [OrderBook B] : Prop :=
  ∀ (b : B) (ev : BookEvent), OrderBook.apply b (reload ev) = OrderBook.apply b ev

/-- The two sequences lead a new book through the same states, or to the same panic. -/
def SameReplay (B : Type) [OrderBook B] [Inhabited B] (evs evs' : List BookEvent) : Prop :=
  ∀ n, (replay default (evs.take n) : Option B) = replay default (evs'.take n)

theorem Ignores.replay (h : Ignores B) (b : B) (evs : List BookEvent) :
    Book.replay b (evs.map reload) = Book.replay b evs := by
  unfold Book.replay
  rw [List.foldlM_map]
  congr 1
  funext b ev
  exact h b ev

theorem Ignores.sameReplay [Inhabited B] (h : Ignores B) (evs : List BookEvent) :
    SameReplay B (evs.map reload) evs := by
  intro n
  rw [← List.map_take, h.replay]

theorem btree_ignores : Ignores BTreeBook := by
  intro b ev
  obtain ⟨seq,ts,px,qty,side,kind⟩ := ev
  cases kind <;> rfl

theorem sorted_ignores : Ignores SortedVecBook := by
  intro b ev
  obtain ⟨seq,ts,px,qty,side,kind⟩ := ev
  cases kind <;> rfl

theorem rev_ignores : Ignores RevVecBook := by
  intro b ev
  obtain ⟨seq,ts,px,qty,side,kind⟩ := ev
  cases kind <;> rfl

theorem flat_ignores : Ignores FlatBook := by
  intro b ev
  obtain ⟨seq,ts,px,qty,side,kind⟩ := ev
  cases kind <;> rfl

end Replays

/-- What is written reads back event by event, a clear without what it ignores, and
leads every book through the same states. -/
theorem corpus_round_trip (s : EventSlice) :
    (fromBytes (writeTo s.events)).run = some (.ok ⟨s.events.map reload⟩) ∧
      SameReplay BTreeBook (s.events.map reload) s.events ∧
      SameReplay SortedVecBook (s.events.map reload) s.events ∧
      SameReplay RevVecBook (s.events.map reload) s.events ∧
      SameReplay FlatBook (s.events.map reload) s.events :=
  ⟨fromBytes_writeTo s.noWrap,btree_ignores.sameReplay _,sorted_ignores.sameReplay _,rev_ignores.sameReplay _,
    flat_ignores.sameReplay _⟩

end LowLatencyLob.Feed
