import LowLatencyLob.Sequence.Text
import LowLatencyLob.Feed.Outcome

/-! Chunked transfer encoding: the decoder of the recorder's HTTP client, on any bytes. -/
namespace LowLatencyLob.Feed
open Sequence

section Model

inductive DechunkError
  /-- `chunked: missing size line` -/
  | missingSizeLine
  /-- `chunk size: …`, of a line that is not UTF-8. -/
  | notUtf8
  /-- `chunk size: …`, of a number. -/
  | chunkSize (e : IntErrorKind)
  /-- `chunked: truncated chunk` -/
  | truncatedChunk
  deriving DecidableEq, Repr

/-- What decoding leads to: `none` is a panic. -/
abbrev Dechunk := ExceptT DechunkError Option

/-- `\r\n` -/
def crlf : List UInt8 := [13,10]

/-- `a + b` of type `usize`; an overflow is a panic, as where it is checked. -/
def usizeAdd (a b : ℕ) : Option ℕ := if a+b < 2^64 then some (a+b) else none

/-- The number that a size line states, before any extension. -/
def chunkSize (line : List UInt8) : Except DechunkError ℕ :=
  match fromUtf8 line with
  | none => .error .notUtf8
  | some sizeStr => (fromStrRadix (trim (sizeStr.takeWhile (· ≠ ';')))).mapError .chunkSize

/-- What a turn of the loop does behind the size line: a chunk and the rest, or nothing more. -/
def takeChunk (size : ℕ) (body : List UInt8) : Dechunk (Option (List UInt8 × List UInt8)) := do
  if size = 0 then
    return none
  if body.length < (← usizeAdd size 2) then
    throw .truncatedChunk
  let chunk ← Slice.range body 0 size
  let rest ← Slice.range body (← usizeAdd size 2) body.length
  return some (chunk,rest)

/-- One turn of the loop. -/
def dechunkTurn (body : List UInt8) : Dechunk (Option (List UInt8 × List UInt8)) := do
  match Slice.windowPosition crlf body with
  | none => throw .missingSizeLine
  | some nl =>
    let line ← Slice.range body 0 nl
    let size ← ExceptT.mk (some (chunkSize line))
    let rest ← Slice.range body (← usizeAdd nl 2) body.length
    takeChunk size rest

/-- A turn by the size that was read. -/
theorem takeChunk_eq (size : ℕ) (body : List UInt8) :
    takeChunk size body =
      if size = 0 then pure none
      else if 2^64 ≤ size+2 then liftM (none : Option (Option (List UInt8 × List UInt8)))
      else if body.length < size+2 then throw .truncatedChunk
      else pure (some (body.take size,body.drop (size+2))) := by
  rw [takeChunk]
  split_ifs with h₀ hbig hlen
  · rfl
  · rw [usizeAdd, if_neg (by omega)]
    rfl
  · rw [usizeAdd, if_pos (by omega)]
    simp only [lift_bind, if_pos hlen]
    rfl
  · rw [usizeAdd, if_pos (by omega)]
    simp only [lift_bind, if_neg hlen, Slice.range_eq (Nat.zero_le _) (show size ≤ body.length by omega),
      Slice.range_eq (show size+2 ≤ body.length by omega) (Nat.le_refl _)]
    rw [← List.length_drop, List.take_length]
    rfl

theorem line_length_lt (pre line rest : List UInt8) (h : (pre ++ (line ++ (crlf ++ rest))).length < 2^64) :
    line.length+2 < 2^64 := by
  simp only [List.length_append, crlf, List.length_cons, List.length_nil] at h
  omega

/-- A turn reads the line in front, and goes on behind it. -/
theorem dechunkTurn_line {line : List UInt8} (hline : ¬ crlf <:+: line) (hlen : line.length+2 < 2^64)
    (rest : List UInt8) :
    dechunkTurn (line ++ (crlf ++ rest)) = ExceptT.mk (some (chunkSize line)) >>= fun size => takeChunk size rest := by
  have hfind : Slice.windowPosition crlf (line ++ (crlf ++ rest)) = some line.length :=
    windowPosition_append (by decide) hline rest
  have htake : Slice.range (line ++ (crlf ++ rest)) 0 line.length = some line := by
    rw [Slice.range_eq (Nat.zero_le _) (by simp), List.drop_zero, Nat.sub_zero, List.take_left]
  have hdrop : Slice.range (line ++ (crlf ++ rest)) (line.length+2) (line ++ (crlf ++ rest)).length = some rest := by
    rw [Slice.range_eq (by simp [crlf]) (Nat.le_refl _), ← List.length_drop, List.take_length, List.drop_append]
    simp [crlf]
  unfold dechunkTurn
  rw [hfind]
  simp only [htake, lift_bind, usizeAdd, if_pos hlen, hdrop]

theorem takeChunk_length {size : ℕ} {body chunk rest : List UInt8}
    (h : takeChunk size body = pure (some (chunk,rest))) : rest.length ≤ body.length := by
  rw [takeChunk_eq] at h
  split_ifs at h
  · cases h
  · cases h
  · cases h
  · cases h
    exact (List.length_drop).trans_le (Nat.sub_le _ _)

theorem eq_some_of_lift {α : Type} {x : Option α} {a : α} (h : (liftM x : Dechunk α) = pure a) : x = some a := by
  cases x with
  | none => cases h
  | some b =>
    cases h
    rfl

/-- A turn leaves less of the body. -/
theorem dechunkTurn_length {body chunk rest : List UInt8} (h : dechunkTurn body = pure (some (chunk,rest))) :
    rest.length < body.length := by
  unfold dechunkTurn at h
  split at h
  · cases h
  · obtain ⟨line,_,h⟩ := eq_pure_of_bind h
    obtain ⟨size,_,h⟩ := eq_pure_of_bind h
    obtain ⟨n,hn,h⟩ := eq_pure_of_bind h
    obtain ⟨rest₁,hrest,h⟩ := eq_pure_of_bind h
    have hn := eq_some_of_lift hn
    have hrest := eq_some_of_lift hrest
    have hle := takeChunk_length h
    rw [usizeAdd] at hn
    rw [Slice.range] at hrest
    split_ifs at hn hrest with hlt hin
    cases hn
    cases hrest
    rw [List.length_take, List.length_drop] at hle
    omega

/-- The loop, with what has come out so far. -/
def dechunkLoop (body out : List UInt8) : Dechunk (List UInt8) :=
  match _h : (dechunkTurn body).run with
  | none => liftM (none : Option (List UInt8))
  | some (.error e) => throw e
  | some (.ok none) => pure out
  | some (.ok (some (chunk,rest))) => dechunkLoop rest (out ++ chunk)
termination_by body.length
decreasing_by exact dechunkTurn_length _h

/-- Decode HTTP/1.1 chunked transfer-encoding. -/
def dechunk (body : List UInt8) : Dechunk (List UInt8) := dechunkLoop body []

theorem dechunkLoop_eq (body out : List UInt8) :
    dechunkLoop body out = dechunkTurn body >>= fun r =>
      match r with
      | none => pure out
      | some (chunk,rest) => dechunkLoop rest (out ++ chunk) := by
  rw [dechunkLoop]
  split
  next h =>
    have h : dechunkTurn body = liftM (none : Option (Option (List UInt8 × List UInt8))) := h
    rw [h]
    rfl
  next e h =>
    have h : dechunkTurn body = throw e := h
    rw [h]
    rfl
  next h =>
    have h : dechunkTurn body = pure none := h
    rw [h]
    rfl
  next chunk rest h =>
    have h : dechunkTurn body = pure (some (chunk,rest)) := h
    rw [h]
    rfl

end Model

section Frames

/-- What the decoder takes for a chunk: a line that states a size, so many bytes, and two more. -/
structure Frame where
  line : List UInt8
  data : List UInt8
  gap : List UInt8
  no_crlf : ¬ crlf <:+: line
  states : chunkSize line = .ok data.length
  data_ne : data ≠ []
  gap_length : gap.length = 2

def Frame.bytes (f : Frame) : List UInt8 := f.line ++ (crlf ++ (f.data ++ f.gap))

/-- Behind complete chunks, where the next may begin, a line states a size. -/
def StatesSize (body : List UInt8) (size : ℕ) : Prop :=
  ∃ (fs : List Frame) (line rest : List UInt8), body = fs.flatMap Frame.bytes ++ (line ++ (crlf ++ rest)) ∧
    ¬ crlf <:+: line ∧ chunkSize line = .ok size

variable {body out rest : List UInt8}

theorem Frame.bytes_append (f : Frame) (rest : List UInt8) :
    f.bytes ++ rest = f.line ++ (crlf ++ (f.data ++ (f.gap ++ rest))) := by
  simp [Frame.bytes]

theorem Frame.bytes_length (f : Frame) : f.bytes.length = f.line.length+f.data.length+4 := by
  simp only [Frame.bytes, List.length_append, f.gap_length, crlf, List.length_cons, List.length_nil]
  omega

theorem dechunkTurn_frame (f : Frame) (h : f.bytes.length < 2^64) (rest : List UInt8) :
    dechunkTurn (f.bytes ++ rest) = pure (some (f.data,rest)) := by
  rw [f.bytes_length] at h
  have hpos := List.length_pos_iff.mpr f.data_ne
  rw [f.bytes_append, dechunkTurn_line f.no_crlf (by omega), f.states]
  change takeChunk f.data.length (f.data ++ (f.gap ++ rest)) = _
  have hfits : ¬ (f.data ++ (f.gap ++ rest)).length < f.data.length+2 := by
    simp only [List.length_append, f.gap_length]
    omega
  have hrest : (f.data ++ (f.gap ++ rest)).drop (f.data.length+2) = rest := by
    rw [← f.gap_length, ← List.append_assoc, ← List.length_append, List.drop_left]
  rw [takeChunk_eq, if_neg (by omega), if_neg (by omega), if_neg hfits, List.take_left, hrest]

theorem dechunkLoop_frame (f : Frame) (h : f.bytes.length < 2^64) (rest out : List UInt8) :
    dechunkLoop (f.bytes ++ rest) out = dechunkLoop rest (out ++ f.data) := by
  rw [dechunkLoop_eq, dechunkTurn_frame f h]
  rfl

theorem dechunkLoop_frames (fs : List Frame) (h : (fs.flatMap Frame.bytes ++ rest).length < 2^64) (out : List UInt8) :
    dechunkLoop (fs.flatMap Frame.bytes ++ rest) out = dechunkLoop rest (out ++ fs.flatMap Frame.data) := by
  induction fs generalizing out with
  | nil => simp
  | cons f fs ih =>
    rw [List.flatMap_cons, List.append_assoc] at h ⊢
    rw [List.length_append] at h
    rw [dechunkLoop_frame f (by omega), ih (by omega), List.append_assoc, List.flatMap_cons]

/-- Everything that a turn may do. -/
theorem dechunkTurn_cases (h : body.length < 2^64) :
    (∃ e, dechunkTurn body = throw e) ∨ dechunkTurn body = pure none ∨
    ((dechunkTurn body).run = none ∧ ∃ size, StatesSize body size ∧ 2^64 ≤ size+2) ∨
    ∃ (f : Frame) (rest : List UInt8), body = f.bytes ++ rest := by
  cases hnl : Slice.windowPosition crlf body with
  | none =>
    refine .inl ⟨.missingSizeLine,?_⟩
    unfold dechunkTurn
    rw [hnl]
  | some nl =>
    obtain ⟨line,rest,rfl,_,hline⟩ := eq_append_of_windowPosition (by decide) hnl
    have hturn := dechunkTurn_line hline (line_length_lt [] line rest h) rest
    cases hsize : chunkSize line with
    | error e =>
      rw [hsize] at hturn
      exact .inl ⟨e,hturn⟩
    | ok size =>
      rw [hsize] at hturn
      replace hturn : _ = takeChunk size rest := hturn
      rw [takeChunk_eq] at hturn
      split_ifs at hturn with h₀ hbig hshort
      · exact .inr (.inl hturn)
      · exact .inr (.inr (.inl ⟨by rw [hturn]; rfl,size,⟨[],line,rest,rfl,hline,hsize⟩,hbig⟩))
      · exact .inl ⟨.truncatedChunk,hturn⟩
      · have hlen : (rest.take size).length = size := by
          rw [List.length_take]
          omega
        have hgap : ((rest.drop size).take 2).length = 2 := by
          rw [List.length_take, List.length_drop]
          omega
        have hne : rest.take size ≠ [] := by
          rw [← List.length_pos_iff]
          omega
        let f : Frame := ⟨line,rest.take size,(rest.drop size).take 2,hline,by rw [hsize, hlen],hne,hgap⟩
        refine .inr (.inr (.inr ⟨f,(rest.drop size).drop 2,?_⟩))
        rw [f.bytes_append, List.take_append_drop, List.take_append_drop]

theorem StatesSize.cons {size : ℕ} (f : Frame) (h : StatesSize rest size) : StatesSize (f.bytes ++ rest) size := by
  obtain ⟨fs,line,rest,rfl,hline,hsize⟩ := h
  exact ⟨f :: fs,line,rest,by rw [List.flatMap_cons, List.append_assoc],hline,hsize⟩

/-- The loop panics exactly if it comes to a size to which two cannot be added. -/
theorem dechunkLoop_eq_none_iff (h : body.length < 2^64) (out : List UInt8) :
    (dechunkLoop body out).run = none ↔ ∃ size, StatesSize body size ∧ 2^64 ≤ size+2 := by
  constructor
  · intro hp
    induction hn : body.length using Nat.strong_induction_on generalizing body out with
    | _ n ih =>
      rcases dechunkTurn_cases h with ⟨e,ht⟩ | ht | ⟨_,hsize⟩ | ⟨f,rest,rfl⟩
      · rw [dechunkLoop_eq, ht] at hp
        cases hp
      · rw [dechunkLoop_eq, ht] at hp
        cases hp
      · exact hsize
      · have hlen := f.bytes_length
        rw [List.length_append] at h hn
        rw [dechunkLoop_frame f (by omega)] at hp
        obtain ⟨size,hs,hbig⟩ := ih rest.length (by omega) (by omega) _ hp rfl
        exact ⟨size,hs.cons f,hbig⟩
  · intro ⟨size,⟨fs,line,rest,hbody,hline,hsize⟩,hbig⟩
    subst hbody
    have hlen := line_length_lt _ line rest h
    rw [dechunkLoop_frames fs h, dechunkLoop_eq, dechunkTurn_line hline hlen, hsize]
    change (takeChunk size rest >>= _ : Dechunk _).run = none
    rw [takeChunk_eq, if_neg (by omega), if_pos hbig]
    rfl

end Frames

section Bodies

/-- A line that states a size in hexadecimal digits, and may carry an extension. -/
structure SizeLine where
  digits : List UInt8
  ext : List UInt8
  digits_ne : digits ≠ []
  hex : ∀ b ∈ digits, isHexDigit b
  ext_head : ∀ b ∈ ext.head?, b = 59
  no_crlf : ¬ crlf <:+: digits ++ ext

def SizeLine.line (l : SizeLine) : List UInt8 := l.digits ++ l.ext

theorem SizeLine.line_no_crlf (l : SizeLine) : ¬ crlf <:+: l.line := l.no_crlf

def SizeLine.value (l : SizeLine) : ℕ := hexNumber l.digits

structure Chunk where
  size : SizeLine
  data : List UInt8
  data_ne : data ≠ []
  states : size.value = data.length

def Chunk.bytes (c : Chunk) : List UInt8 := c.size.line ++ (crlf ++ (c.data ++ crlf))

/-- A well-formed chunked body, and whatever follows its last size line. -/
structure ChunkedBody where
  chunks : List Chunk
  last : SizeLine
  last_value : last.value = 0
  trailer : List UInt8

namespace ChunkedBody

def bytes (c : ChunkedBody) : List UInt8 := c.chunks.flatMap Chunk.bytes ++ (c.last.line ++ (crlf ++ c.trailer))

/-- The data of the chunks, one after another. -/
def data (c : ChunkedBody) : List UInt8 := c.chunks.flatMap Chunk.data

def sizeLines (c : ChunkedBody) : List SizeLine := c.chunks.map Chunk.size ++ [c.last]

end ChunkedBody

variable {rest out : List UInt8}

/-- A size line of UTF-8 is read as the number that its digits spell. -/
theorem chunkSize_line (l : SizeLine) (hutf : (fromUtf8 l.line).isSome) (h : l.value < 2^64) :
    chunkSize l.line = .ok l.value := by
  have hascii : ∀ b ∈ l.digits, b < 128 := fun b hb => lt_of_isHexDigit (l.hex b hb)
  have hdigits : ∀ c ∈ l.digits.map Char.ofUInt8, c ≠ ';' ∧ isWhitespace c = false := by
    intro c hc
    obtain ⟨b,hb,rfl⟩ := List.mem_map.mp hc
    exact ⟨ofUInt8_ne (l.hex b hb) (by decide),isWhitespace_of_isHexDigit (l.hex b hb)⟩
  obtain ⟨s,hs⟩ := Option.isSome_iff_exists.mp hutf
  obtain ⟨ext,hext,hsext⟩ : ∃ ext, fromUtf8 l.ext = some ext ∧ l.digits.map Char.ofUInt8 ++ ext = s := by
    rw [SizeLine.line, fromUtf8_append hascii] at hs
    exact Option.map_eq_some_iff.mp hs
  have hhead : ext.takeWhile (· ≠ ';') = [] := by
    cases hl : l.ext with
    | nil =>
      rw [hl, fromUtf8_nil] at hext
      cases hext
      rfl
    | cons b e =>
      have hb : b = 59 := l.ext_head b (by rw [hl]; rfl)
      rw [hl, hb, fromUtf8_cons (by decide)] at hext
      obtain ⟨e',_,rfl⟩ := Option.map_eq_some_iff.mp hext
      rfl
  have htake : s.takeWhile (· ≠ ';') = l.digits.map Char.ofUInt8 := by
    rw [← hsext, List.takeWhile_append_of_pos (by simpa using fun c hc => (hdigits c hc).1), hhead, List.append_nil]
  rw [chunkSize, hs]
  change (fromStrRadix (trim (s.takeWhile (· ≠ ';')))).mapError DechunkError.chunkSize = _
  rw [htake, trim_eq_self fun c hc => (hdigits c hc).2, fromStrRadix_eq l.digits_ne l.hex h]
  rfl

theorem chunkSize_eq_error {line : List UInt8} (h : ¬ (fromUtf8 line).isSome) : chunkSize line = .error .notUtf8 := by
  rw [Option.not_isSome_iff_eq_none] at h
  rw [chunkSize, h]

/-- Digits alone are a size line. -/
def SizeLine.plain (s : List UInt8) (hne : s ≠ []) (hs : ∀ b ∈ s, isHexDigit b) : SizeLine where
  digits := s
  ext := []
  digits_ne := hne
  hex := hs
  ext_head := by simp
  no_crlf := by
    rw [List.append_nil]
    intro hin
    have : isHexDigit 13 := hs 13 (hin.subset (by decide))
    exact absurd this (by decide)

theorem statesSize_digits {s : List UInt8} (hne : s ≠ []) (hall : s.all isHexDigit) (h : hexNumber s < 2^64)
    (rest : List UInt8) : StatesSize (s ++ (crlf ++ rest)) (hexNumber s) := by
  have hs := List.all_eq_true.mp hall
  have hl : (SizeLine.plain s hne hs).line = s := List.append_nil s
  have hutf : (fromUtf8 s).isSome := by
    rw [fromUtf8_ascii fun b hb => lt_of_isHexDigit (hs b hb)]
    rfl
  refine ⟨[],s,rest,rfl,?_,?_⟩
  · rw [← hl]
    exact (SizeLine.plain s hne hs).line_no_crlf
  · have hsize := chunkSize_line (SizeLine.plain s hne hs) (by rw [hl]; exact hutf) h
    rwa [hl] at hsize

/-- A chunk whose size line is UTF-8 is taken as it was framed. -/
def Chunk.frame (c : Chunk) (hutf : (fromUtf8 c.size.line).isSome) (h : c.data.length < 2^64) : Frame where
  line := c.size.line
  data := c.data
  gap := crlf
  no_crlf := c.size.line_no_crlf
  states := by rw [chunkSize_line c.size hutf (by rw [c.states]; exact h), c.states]
  data_ne := c.data_ne
  gap_length := rfl

theorem dechunkLoop_notUtf8 {line : List UInt8} (hline : ¬ crlf <:+: line) (hlen : line.length+2 < 2^64)
    (hutf : ¬ (fromUtf8 line).isSome) : dechunkLoop (line ++ (crlf ++ rest)) out = throw .notUtf8 := by
  rw [dechunkLoop_eq, dechunkTurn_line hline hlen, chunkSize_eq_error hutf]
  rfl

theorem dechunkLoop_last (l : SizeLine) (hl : l.value = 0) (hlen : l.line.length+2 < 2^64)
    (hutf : (fromUtf8 l.line).isSome) : dechunkLoop (l.line ++ (crlf ++ rest)) out = pure out := by
  rw [dechunkLoop_eq, dechunkTurn_line l.line_no_crlf hlen, chunkSize_line l hutf (by omega), hl]
  change (takeChunk 0 rest >>= _ : Dechunk _) = _
  rw [takeChunk_eq, if_pos rfl]
  rfl

/-- A well-formed body gives its data if all its size lines are UTF-8, and is refused otherwise. -/
theorem dechunkLoop_chunks (cs : List Chunk) (l : SizeLine) (hl : l.value = 0)
    (h : (cs.flatMap Chunk.bytes ++ (l.line ++ (crlf ++ rest))).length < 2^64) :
    dechunkLoop (cs.flatMap Chunk.bytes ++ (l.line ++ (crlf ++ rest))) out =
      if ∀ x ∈ cs.map Chunk.size ++ [l], (fromUtf8 x.line).isSome then pure (out ++ cs.flatMap Chunk.data)
      else throw .notUtf8 := by
  induction cs generalizing out with
  | nil =>
    have hlen := line_length_lt _ l.line rest h
    by_cases hutf : (fromUtf8 l.line).isSome
    · simpa [hutf] using dechunkLoop_last l hl hlen hutf
    · simpa [hutf] using dechunkLoop_notUtf8 l.line_no_crlf hlen hutf
  | cons c cs ih =>
    rw [List.flatMap_cons, List.append_assoc] at h ⊢
    rw [List.length_append] at h
    have hbytes : c.bytes.length = c.size.line.length+c.data.length+4 := by
      simp [Chunk.bytes, crlf]
      omega
    by_cases hutf : (fromUtf8 c.size.line).isSome
    · have hframe : c.bytes = (c.frame hutf (by omega)).bytes := rfl
      rw [hframe, dechunkLoop_frame _ (by rw [← hframe]; omega), ih (by omega)]
      simp only [List.map_cons, List.cons_append, List.forall_mem_cons, hutf, true_and, List.flatMap_cons,
        List.append_assoc, Chunk.frame]
    · have hline : ∀ rest, c.bytes ++ rest = c.size.line ++ (crlf ++ (c.data ++ (crlf ++ rest))) := by
        intro rest
        simp [Chunk.bytes]
      rw [hline, dechunkLoop_notUtf8 c.size.line_no_crlf (by omega) hutf, if_neg]
      intro hall
      exact hutf (hall c.size (by simp))

theorem dechunk_bytes (c : ChunkedBody) (h : c.bytes.length < 2^64) :
    dechunk c.bytes = if ∀ l ∈ c.sizeLines, (fromUtf8 l.line).isSome then pure c.data else throw .notUtf8 :=
  dechunkLoop_chunks c.chunks c.last c.last_value h

end Bodies

section Total

/-- The decoder returns, and of a well-formed body it returns the data. -/
def DechunkTotal (body : List UInt8) : Prop :=
  (dechunk body).run ≠ none ∧ ∀ c : ChunkedBody, c.bytes = body → dechunk body = pure c.data

/-- On the bytes of a slice, of which there are at most `isize::MAX`: the decoder is total exactly
if to every size stated where a chunk may begin two can be added, and if a well-formed body has
only size lines of UTF-8, extensions included. -/
theorem dechunk_total_iff {body : List UInt8} (h : body.length < 2^63) :
    DechunkTotal body ↔ (∀ size, StatesSize body size → size+2 < 2^64) ∧
      ∀ c : ChunkedBody, c.bytes = body → ∀ l ∈ c.sizeLines, (fromUtf8 l.line).isSome := by
  have hpanic : (dechunk body).run ≠ none ↔ ∀ size, StatesSize body size → size+2 < 2^64 := by
    rw [dechunk, Ne, dechunkLoop_eq_none_iff (by omega)]
    simp only [not_exists, not_and, Nat.not_le]
  rw [DechunkTotal, hpanic]
  refine and_congr_right fun _ => forall_congr' fun c => forall_congr' fun hc => ?_
  subst hc
  rw [dechunk_bytes c (by omega)]
  split_ifs with hutf
  · exact ⟨fun _ => hutf,fun _ => rfl⟩
  · exact ⟨nofun,fun hall => absurd hall hutf⟩

theorem not_total_near_max : ¬ DechunkTotal (List.replicate 15 70 ++ [69] ++ crlf) := by
  intro h
  have hsize := statesSize_digits (s := List.replicate 15 70 ++ [69]) (by decide) (by decide) (by decide) []
  exact absurd (((dechunk_total_iff (by decide)).mp h).1 _ hsize) (by decide)

/-- The line `FFFFFFFFFFFFFFFF` and a byte behind it. -/
theorem not_total_max : ¬ DechunkTotal (List.replicate 16 70 ++ (crlf ++ [120])) := by
  intro h
  have hsize := statesSize_digits (s := List.replicate 16 70) (by decide) (by decide) (by decide) [120]
  exact h.1 ((dechunkLoop_eq_none_iff (by decide) []).mpr ⟨_,hsize,by decide⟩)

end Total
end LowLatencyLob.Feed
