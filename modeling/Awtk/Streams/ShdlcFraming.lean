import Awtk.Lib.Stuffing
import Awtk.Tkc.Crc
import Awtk.Tkc.WBuffer

/-!
# SHDLC frames

A model of `shdlc_helper.c`.  A frame is a flag, the escaped header, payload
and checksum, and a flag.  The input stream of the reader is the list of bytes
that arrive before the timeout, so an empty list is a timeout.  The result of
the reader is the return code, the buffer and the bytes left in the stream.
-/

namespace Awtk.Shdlc

open List

/-! ## Constants and headers -/

def shdlcFlag : UInt8 := 0x7E

/-- `SHDLC_ESCAPE`. -/
def shdlcEscapeChar : UInt8 := 0x7D

/-! `shdlc_frame_type_t`.  The type field of a header is three bits wide, so it
can hold values that are no frame type. -/

def shdlcInvalid : UInt8 := 0
def shdlcData : UInt8 := 1
def shdlcAck : UInt8 := 2
def shdlcNack : UInt8 := 3

/-- `shdlc_header_t`: a byte, with bit fields from the lowest bit on. -/
structure Header where
  data : UInt8
  deriving DecidableEq, Repr

namespace Header

def type (h : Header) : UInt8 := h.data &&& 7

def seqno (h : Header) : UInt8 := (h.data >>> 3) &&& 7

def compressed (h : Header) : Bool := (h.data >>> 6) &&& 1 == 1

/-- A header with its bit fields assigned; each keeps the bits it has room for. -/
def make (type seqno : UInt8) (compressed : Bool) : Header where
  data :=
    let flag : UInt8 := if compressed then 0x40 else 0
    let low : UInt8 := type &&& 7
    low ||| ((seqno &&& 7) <<< 3) ||| flag

end Header

def shdlcEscape (c : UInt8) : UInt8 := c ^^^ 0x20

def shdlcUnescape (c : UInt8) : UInt8 := c ^^^ 0x20

def shdlcSeqnoInc (seqno : UInt8) : UInt8 := (seqno + 1) &&& 0x07

/-! ## Writing -/

/-- `return_value_if_fail(x == RET_OK, e)` and then the rest. -/
def okOr (e : Ret) (x : Option (Ret × WBuffer)) (k : WBuffer → Option (Ret × WBuffer)) :
    Option (Ret × WBuffer) := do
  match ← x with
  | (.ok, wb) => k wb
  | (_, wb) => return (e, wb)

section
variable (realloc : Nat → Bool)

def shdlcWriteUint8 (wb : WBuffer) (c : UInt8) : Option (Ret × WBuffer) :=
  if c = shdlcFlag ∨ c = shdlcEscapeChar then
    okOr .fail (wb.writeUint8 realloc shdlcEscapeChar) fun wb =>
      wb.writeUint8 realloc (shdlcEscape c)
  else wb.writeUint8 realloc c

def shdlcWriteUint16 (wb : WBuffer) (v : UInt16) : Option (Ret × WBuffer) :=
  okOr .oom (shdlcWriteUint8 realloc wb (lowByte v)) fun wb =>
    shdlcWriteUint8 realloc wb (highByte v)

/-- The loop of `shdlc_write` over the payload. -/
def shdlcWritePayload : WBuffer → List UInt8 → Option (Ret × WBuffer)
  | wb, [] => some (.ok, wb)
  | wb, c :: cs => okOr .oom (shdlcWriteUint8 realloc wb c) fun wb => shdlcWritePayload wb cs

/-- The checksum `shdlc_write` sends. -/
def writtenFcs (header : Header) (data : List UInt8) : UInt16 :=
  tkCrc16 (tkCrc16Byte pppInitFcs16 header.data) data (I32.ofU32 data.length)

def shdlcWrite (wb : WBuffer) (header : Header) (data : List UInt8) : Option (Ret × WBuffer) :=
  if header.type = shdlcInvalid then some (.badParams, wb)
  else
    okOr .oom (wb.rewind.writeUint8 realloc shdlcFlag) fun wb =>
    okOr .oom (shdlcWriteUint8 realloc wb header.data) fun wb =>
    okOr .oom (shdlcWritePayload realloc wb data) fun wb =>
    okOr .oom (shdlcWriteUint16 realloc wb (writtenFcs header data)) fun wb =>
    okOr .oom (wb.writeUint8 realloc shdlcFlag) fun wb => some (.ok, wb)

def shdlcWriteAck (wb : WBuffer) (seqno : UInt8) : Option (Ret × WBuffer) :=
  shdlcWrite realloc wb (.make shdlcAck seqno false) []

def shdlcWriteNack (wb : WBuffer) (seqno : UInt8) : Option (Ret × WBuffer) :=
  shdlcWrite realloc wb (.make shdlcNack seqno false) []

/-- `shdlc_write_data`.  An empty payload is refused. -/
def shdlcWriteData (wb : WBuffer) (seqno : UInt8) (compressed : Bool) (data : List UInt8) :
    Option (Ret × WBuffer) :=
  if data = [] then some (.badParams, wb)
  else shdlcWrite realloc wb (.make shdlcData seqno compressed) data

end

/-! ## Reading -/

/-- The first loop of `shdlc_read_data`: read up to a flag, and note whether
anything else came before it. -/
def expectFlag : Bool → List UInt8 → Option (Bool × List UInt8)
  | _, [] => none
  | broken, c :: cs => if c = shdlcFlag then some (broken, cs) else expectFlag true cs

/-- The second loop: skip flags and read the character behind them. -/
def skipFlags : List UInt8 → Option (UInt8 × List UInt8)
  | [] => none
  | c :: cs => if c ≠ shdlcFlag then some (c, cs) else skipFlags cs

/-- The closing flag: take the checksum from the end of the buffer and compare. -/
def closeFrame (wb : WBuffer) : Ret × WBuffer :=
  if wb.cursor < 2 then (.fail, wb)
  else
    let wb := { wb with cursor := wb.cursor - 2 }
    let fcsLow := wb.data.getD wb.cursor 0
    let fcsHigh := wb.data.getD (wb.cursor + 1) 0
    let fcs := joinBytes fcsLow fcsHigh
    let fcsReal := tkCrc16 pppInitFcs16 wb.data (I32.ofU32 wb.cursor)
    if fcs = fcsReal then (.ok, wb) else (.crc, wb)

section
variable (realloc : Nat → Bool)

/-- The third loop of `shdlc_read_data`, which remembers the last character. -/
def readBody (header : Header) : WBuffer → UInt8 → List UInt8 →
    Option (Ret × WBuffer × List UInt8)
  | wb, _, [] => some (.timeout, wb, [])
  | wb, lastC, c :: cs =>
    if c = shdlcFlag then
      let (ret, wb) := closeFrame wb
      some (ret, wb, cs)
    else if c = shdlcEscapeChar then readBody header wb c cs
    else
      let ch := if lastC = shdlcEscapeChar then shdlcUnescape c else c
      -- an ack or a nack ends here, with no checksum compared
      if (header.type = shdlcAck ∨ header.type = shdlcNack) ∧ wb.cursor = 3 then
        some (.ok, wb, cs)
      else do
        match ← wb.writeUint8 realloc ch with
        | (.ok, wb) => readBody header wb c cs
        | (_, wb) => return (.oom, wb, cs)

def shdlcReadData (wb : WBuffer) (istream : List UInt8) : Option (Ret × WBuffer × List UInt8) :=
  match expectFlag false istream with
  | none => some (.timeout, wb, [])
  | some (true, rest) => some (.crc, wb, rest)
  | some (false, rest) =>
    match skipFlags rest with
    | none => some (.timeout, wb, [])
    | some (c, rest) => do
      match ← wb.rewind.writeUint8 realloc c with
      | (.ok, wb) => readBody realloc ⟨c⟩ wb 0 rest
      | (_, wb) => return (.oom, wb, rest)

end

end Awtk.Shdlc

/-!
## Framing: round trip and integrity

The two sides of `shdlc_helper.c` meet in the byte string `frameBytes`.  The
writer gives exactly this string.  The reader is described by what it has
written to the buffer after a run of characters that are no flags
(`readBody_chars`), and by what the closing flag does with these bytes
(`closeFrame_append`).
-/

namespace Awtk.Shdlc

open WBuffer Stuffing

/-- The escaping of SHDLC as a stuffing code. -/
def code : Code UInt8 where
  flag := shdlcFlag
  esc := shdlcEscapeChar
  flip := shdlcEscape
  flip_flip x := by rw [shdlcEscape, shdlcEscape, UInt8.xor_assoc, UInt8.xor_self, UInt8.xor_zero]
  flip_flag_ne_flag := by decide
  flip_flag_ne_esc := by decide
  flip_esc_ne_flag := by decide
  flip_esc_ne_esc := by decide
  flag_ne_esc := by decide

variable {realloc : Nat → Bool} {wb wb' : WBuffer}

/-! ## The writer -/

theorem okOr_eq_ok {e : Ret} (he : e ≠ .ok) {x : Option (Ret × WBuffer)}
    {k : WBuffer → Option (Ret × WBuffer)} :
    okOr e x k = some (.ok, wb') ↔ ∃ w, x = some (.ok, w) ∧ k w = some (.ok, wb') := by
  cases x with
  | none => simp [okOr]
  | some res =>
    obtain ⟨r, w⟩ := res
    by_cases hr : r = .ok
    · subst hr
      simp [okOr]
    · have hk : okOr e (some (r, w)) k = some (e, w) := by
        cases r <;> first | rfl | exact absurd rfl hr
      rw [hk]
      simp [he, hr]

/-- `f` succeeds exactly where writing `bs` byte after byte does, with the same
result. -/
def Emits (realloc : Nat → Bool) (f : WBuffer → Option (Ret × WBuffer)) (bs : List UInt8) : Prop :=
  ∀ wb wb', f wb = some (.ok, wb') ↔ writeBytes realloc wb bs = some (.ok, wb')

theorem Emits.okOr {e : Ret} (he : e ≠ .ok) {f g : WBuffer → Option (Ret × WBuffer)}
    {as bs : List UInt8} (hf : Emits realloc f as) (hg : Emits realloc g bs) :
    Emits realloc (fun wb => Shdlc.okOr e (f wb) g) (as ++ bs) := by
  intro wb wb'
  rw [okOr_eq_ok he, writeBytes_append_eq_ok]
  simp only [hf wb, hg _ wb']

theorem emits_nil : Emits realloc (fun wb => some (.ok, wb)) [] := fun _ _ => Iff.rfl

theorem emits_uint8 (c : UInt8) : Emits realloc (fun wb => wb.writeUint8 realloc c) [c] := by
  intro wb wb'
  show wb.writeUint8 realloc c = some (.ok, wb') ↔ _
  cases hx : wb.writeUint8 realloc c with
  | none => rw [writeBytes_cons_none hx]
  | some res =>
    obtain ⟨r, w⟩ := res
    by_cases hr : r = .ok
    · subst hr
      rw [writeBytes_cons_ok hx]
      rfl
    · rw [writeBytes_cons_not_ok hr hx]

theorem emits_shdlcWriteUint8 (c : UInt8) :
    Emits realloc (fun wb => shdlcWriteUint8 realloc wb c) (stuffOne code c) := by
  by_cases hc : c = shdlcFlag ∨ c = shdlcEscapeChar
  · have hw (wb) : shdlcWriteUint8 realloc wb c = _ := if_pos hc
    simp only [hw, stuffOne_of_special code hc]
    exact Emits.okOr (by decide) (emits_uint8 _) (emits_uint8 _)
  · have hw (wb) : shdlcWriteUint8 realloc wb c = _ := if_neg hc
    rw [not_or] at hc
    simp only [hw, stuffOne_of_plain code hc.1 hc.2]
    exact emits_uint8 c

theorem emits_shdlcWritePayload : ∀ data : List UInt8,
    Emits realloc (fun wb => shdlcWritePayload realloc wb data) (stuff code data)
  | [] => emits_nil
  | c :: cs => (emits_shdlcWriteUint8 c).okOr (by decide) (emits_shdlcWritePayload cs)

/-- The bytes of a frame. -/
def frameBytes (header : Header) (data : List UInt8) : List UInt8 :=
  let fcs := writtenFcs header data
  shdlcFlag :: stuff code (header.data :: data ++ [lowByte fcs, highByte fcs]) ++ [shdlcFlag]

theorem shdlcWrite_eq_ok (realloc : Nat → Bool) (wb wb' : WBuffer) {header : Header}
    (hh : header.type ≠ shdlcInvalid) (data : List UInt8) :
    shdlcWrite realloc wb header data = some (.ok, wb') ↔
      writeBytes realloc wb.rewind (frameBytes header data) = some (.ok, wb') := by
  have hfcs : Emits realloc (fun wb => shdlcWriteUint16 realloc wb (writtenFcs header data)) _ :=
    (emits_shdlcWriteUint8 _).okOr (by decide) (emits_shdlcWriteUint8 _)
  have hend : Emits realloc (fun wb => okOr .oom (wb.writeUint8 realloc shdlcFlag) _) _ :=
    (emits_uint8 shdlcFlag).okOr (by decide) emits_nil
  have hflag : Emits realloc (fun wb => wb.writeUint8 realloc shdlcFlag) _ := emits_uint8 _
  have hframe := hflag.okOr (e := .oom) (by decide)
    ((emits_shdlcWriteUint8 header.data).okOr (e := .oom) (by decide)
      ((emits_shdlcWritePayload data).okOr (e := .oom) (by decide)
        (hfcs.okOr (e := .oom) (by decide) hend)))
  rw [shdlcWrite, if_neg hh]
  refine (hframe wb.rewind wb').trans ?_
  simp [frameBytes]

/-! ## The reader: characters of the body -/

theorem readBody_flag (header : Header) (lastC : UInt8) (cs : List UInt8) :
    readBody realloc header wb lastC (shdlcFlag :: cs) =
      some ((closeFrame wb).1, (closeFrame wb).2, cs) := by
  rw [readBody, if_pos rfl]

theorem readBody_esc (header : Header) (lastC : UInt8) (cs : List UInt8) :
    readBody realloc header wb lastC (shdlcEscapeChar :: cs) =
      readBody realloc header wb shdlcEscapeChar cs := by
  rw [readBody, if_neg (by decide), if_pos rfl]

/-- The character the reader writes for `c`. -/
def decoded (lastC c : UInt8) : UInt8 := if lastC = shdlcEscapeChar then shdlcUnescape c else c

/-- The header is that of an ack or a nack and three bytes are in the buffer. -/
def AtCut (header : Header) (wb : WBuffer) : Prop :=
  (header.type = shdlcAck ∨ header.type = shdlcNack) ∧ wb.cursor = 3

theorem readBody_cut {header : Header} {lastC c : UInt8} {cs : List UInt8} (hf : c ≠ shdlcFlag)
    (he : c ≠ shdlcEscapeChar) (hcut : AtCut header wb) :
    readBody realloc header wb lastC (c :: cs) = some (.ok, wb, cs) := by
  rw [readBody, if_neg hf, if_neg he]
  exact if_pos hcut

theorem readBody_char {header : Header} {lastC c : UInt8} {cs : List UInt8} (hf : c ≠ shdlcFlag)
    (he : c ≠ shdlcEscapeChar) (hcut : ¬ AtCut header wb) :
    readBody realloc header wb lastC (c :: cs) =
      (wb.writeUint8 realloc (decoded lastC c)).bind fun res =>
        match res with
        | (.ok, wb) => readBody realloc header wb c cs
        | (_, wb) => some (.oom, wb, cs) := by
  rw [readBody, if_neg hf, if_neg he]
  exact if_neg hcut

theorem unstuff_cons_decoded {c : UInt8} (he : c ≠ shdlcEscapeChar) (lastC : UInt8)
    (cs : List UInt8) :
    unstuff code (lastC = shdlcEscapeChar) (c :: cs) =
      decoded lastC c :: unstuff code (c = shdlcEscapeChar) cs := by
  rw [unstuff_cons_of_ne code he, decide_eq_false he, decoded]
  by_cases hl : lastC = shdlcEscapeChar
  · rw [decide_eq_true hl, if_pos rfl, if_pos hl]
    rfl
  · rw [decide_eq_false hl, if_neg (by decide), if_neg hl]

/-- A frame of an ack or a nack ends at the fourth byte; `n` more bytes stay
before it. -/
def Uncut (header : Header) (wb : WBuffer) (n : Nat) : Prop :=
  (header.type = shdlcAck ∨ header.type = shdlcNack) → wb.cursor + n ≤ 3

/-- Up to the next flag the reader writes the decoded characters one at a time. -/
theorem readBody_chars {header : Header} (tail : List UInt8) :
    ∀ {chars : List UInt8} {wb : WBuffer} (lastC : UInt8), wb.Ok → shdlcFlag ∉ chars →
    Uncut header wb (unstuff code (lastC = shdlcEscapeChar) chars).length →
    match writeBytes realloc wb (unstuff code (lastC = shdlcEscapeChar) chars) with
    | none => readBody realloc header wb lastC (chars ++ tail) = none
    | some (r, wb') =>
      if r = .ok then
        ∃ lastC', readBody realloc header wb lastC (chars ++ tail) =
          readBody realloc header wb' lastC' tail
      else ∃ rest, readBody realloc header wb lastC (chars ++ tail) = some (.oom, wb', rest)
  | [], wb, lastC, _, _, _ => ⟨lastC, rfl⟩
  | c :: chars, wb, lastC, hw, hflag, hcut => by
    obtain ⟨hf, hchars⟩ := not_or.mp (List.mem_cons.not.mp hflag)
    by_cases he : c = shdlcEscapeChar
    · subst he
      rw [show unstuff code (lastC = shdlcEscapeChar) (shdlcEscapeChar :: chars) =
        unstuff code (shdlcEscapeChar = shdlcEscapeChar) chars from unstuff_esc code _ _] at hcut ⊢
      rw [List.cons_append, readBody_esc]
      exact readBody_chars tail _ hw hchars hcut
    · rw [unstuff_cons_decoded he] at hcut ⊢
      rw [List.length_cons] at hcut
      have hnot : ¬ AtCut header wb := by
        intro h
        have := hcut h.1
        have := h.2
        omega
      rw [List.cons_append, readBody_char (Ne.symm hf) he hnot]
      cases hx : wb.writeUint8 realloc (decoded lastC c) with
      | none =>
        rw [writeBytes_cons_none hx]
        rfl
      | some res =>
        obtain ⟨r, w⟩ := res
        by_cases hr : r = .ok
        · subst hr
          obtain ⟨hok, hcont, _⟩ := hw.writeBinary_ok hx
          have hcur : w.cursor = wb.cursor + 1 := by
            rw [← hok.contents_length, hcont, List.length_append, hw.contents_length]
            rfl
          rw [writeBytes_cons_ok hx]
          refine readBody_chars tail _ hok hchars fun ht => ?_
          have := hcut ht
          omega
        · rw [writeBytes_cons_not_ok hr hx]
          simp only [if_neg hr]
          refine ⟨chars ++ tail, ?_⟩
          cases r <;> first | rfl | exact absurd rfl hr

/-! ## The reader: the closing flag -/

/-- The comparison of the reader: the checksum of the body, with the length
taken as an `int`, is the one sent. -/
def Matches (body : List UInt8) (low high : UInt8) : Prop :=
  joinBytes low high = tkCrc16 pppInitFcs16 body (I32.ofU32 body.length)

instance (body : List UInt8) (low high : UInt8) : Decidable (Matches body low high) :=
  inferInstanceAs (Decidable (_ = _))

theorem tkCrc16_append {body more : List UInt8} (crc : UInt16) (h : body.length < 2 ^ 32) :
    tkCrc16 crc (body ++ more) (I32.ofU32 body.length) =
      tkCrc16 crc body (I32.ofU32 body.length) := by
  by_cases hlt : body.length < 2 ^ 31
  · rw [tkCrc16_of_lt crc _ hlt, tkCrc16_of_lt crc _ hlt, List.take_left, List.take_length]
  · rw [tkCrc16_of_ge crc _ (Nat.not_lt.mp hlt) h, tkCrc16_of_ge crc _ (Nat.not_lt.mp hlt) h]

/-- The closing flag drops the two bytes of the checksum and compares them with
that of the bytes before. -/
theorem closeFrame_append {body : List UInt8} {low high : UInt8} (hw : wb.Ok)
    (hc : wb.contents = body ++ [low, high]) :
    ∃ wb', closeFrame wb = (if Matches body low high then .ok else .crc, wb') ∧ wb'.Ok ∧
      wb'.contents = body := by
  have hlen : wb.cursor = body.length + 2 := by
    rw [← hw.contents_length, hc, List.length_append]
    rfl
  have hdata : wb.data = body ++ low :: high :: wb.data.drop wb.cursor := by
    have h := (List.take_append_drop wb.cursor wb.data).symm
    rw [show wb.data.take wb.cursor = body ++ [low, high] from hc, List.append_assoc] at h
    exact h
  have hb : body.length < 2 ^ 32 := by
    have := hw.cursor
    have := hw.bound
    omega
  have hlow : wb.data.getD body.length 0 = low := by
    rw [hdata]
    simp
  have hhigh : wb.data.getD (body.length + 1) 0 = high := by
    rw [hdata]
    simp
  have hcrc : tkCrc16 pppInitFcs16 wb.data (I32.ofU32 body.length) =
      tkCrc16 pppInitFcs16 body (I32.ofU32 body.length) := by
    rw [hdata]
    exact tkCrc16_append _ hb
  refine ⟨{ wb with cursor := wb.cursor - 2 }, ?_, hw.back 2, ?_⟩
  · have hcur : wb.cursor - 2 = body.length := by omega
    rw [closeFrame, if_neg (by omega)]
    simp only [hcur, hlow, hhigh, hcrc]
    by_cases hm : Matches body low high
    · rw [if_pos hm]
      exact if_pos hm
    · rw [if_neg hm]
      exact if_neg hm
  · rw [back_contents hw, hc, List.length_append]
    exact List.take_left' (by simp)

theorem closeFrame_short (h : wb.cursor < 2) : closeFrame wb = (.fail, wb) := if_pos h

/-! ## The reader: whole frames -/

theorem skipFlags_replicate {c : UInt8} (hc : c ≠ shdlcFlag) (cs : List UInt8) :
    ∀ k : Nat, skipFlags (List.replicate k shdlcFlag ++ c :: cs) = some (c, cs)
  | 0 => if_pos hc
  | k + 1 => by
    rw [List.replicate_succ, List.cons_append, skipFlags, if_neg (by simp)]
    exact skipFlags_replicate hc cs k

theorem shdlcReadData_header {c : UInt8} (hc : c ≠ shdlcFlag) (k : Nat) (cs : List UInt8) :
    shdlcReadData realloc wb (List.replicate (k + 1) shdlcFlag ++ c :: cs) =
      (wb.rewind.writeUint8 realloc c).bind fun res =>
        match res with
        | (.ok, wb) => readBody realloc ⟨c⟩ wb 0 cs
        | (_, wb) => some (.oom, wb, cs) := by
  have hopen : expectFlag false (List.replicate (k + 1) shdlcFlag ++ c :: cs) =
      some (false, List.replicate k shdlcFlag ++ c :: cs) := by
    rw [List.replicate_succ, List.cons_append, expectFlag, if_pos rfl]
  rw [shdlcReadData, hopen]
  dsimp only
  rw [skipFlags_replicate hc]
  rfl

/-- What the reader has done when it comes to the end of the characters of a
frame. -/
theorem shdlcReadData_chars (realloc : Nat → Bool) {c : UInt8} {chars : List UInt8} (hw : wb.Ok) (hc : c ≠ shdlcFlag)
    (hflag : shdlcFlag ∉ chars)
    (hcut : (Header.mk c).type = shdlcAck ∨ (Header.mk c).type = shdlcNack →
      (unstuff code false chars).length ≤ 2) (k : Nat) (tail : List UInt8) :
    match writeBytes realloc wb.rewind (c :: unstuff code false chars) with
    | none =>
      shdlcReadData realloc wb (List.replicate (k + 1) shdlcFlag ++ c :: (chars ++ tail)) = none
    | some (r, wb') =>
      if r = .ok then
        ∃ lastC', shdlcReadData realloc wb
          (List.replicate (k + 1) shdlcFlag ++ c :: (chars ++ tail)) =
          readBody realloc ⟨c⟩ wb' lastC' tail
      else ∃ rest, shdlcReadData realloc wb
          (List.replicate (k + 1) shdlcFlag ++ c :: (chars ++ tail)) =
          some (.oom, wb', rest) := by
  rw [shdlcReadData_header hc]
  cases hx : wb.rewind.writeUint8 realloc c with
  | none =>
    rw [writeBytes_cons_none hx]
    rfl
  | some res =>
    obtain ⟨r, w⟩ := res
    by_cases hr : r = .ok
    · subst hr
      obtain ⟨hok, hcont, _⟩ := hw.rewind.writeBinary_ok hx
      have hcur : w.cursor = 1 := by
        rw [← hok.contents_length, hcont]
        rfl
      rw [writeBytes_cons_ok hx]
      refine readBody_chars tail 0 hok hflag fun ht => ?_
      rw [hcur]
      have h2 := hcut ht
      have h0 : unstuff code (decide ((0 : UInt8) = shdlcEscapeChar)) chars =
          unstuff code false chars := rfl
      rw [h0]
      omega
    · rw [writeBytes_cons_not_ok hr hx]
      simp only [if_neg hr]
      refine ⟨chars ++ tail, ?_⟩
      cases r <;> first | rfl | exact absurd rfl hr

/-! ## Round trip -/

/-- What the three writing functions are asked to send. -/
inductive Frame where
  | data (seqno : UInt8) (compressed : Bool) (payload : List UInt8)
  | ack (seqno : UInt8)
  | nack (seqno : UInt8)

namespace Frame

def header : Frame → Header
  | data seqno compressed _ => .make shdlcData seqno compressed
  | ack seqno => .make shdlcAck seqno false
  | nack seqno => .make shdlcNack seqno false

def payload : Frame → List UInt8
  | data _ _ payload => payload
  | ack _ | nack _ => []

/-- Call the function that writes this frame. -/
def write (realloc : Nat → Bool) (wb : WBuffer) : Frame → Option (Ret × WBuffer)
  | data seqno compressed payload => shdlcWriteData realloc wb seqno compressed payload
  | ack seqno => shdlcWriteAck realloc wb seqno
  | nack seqno => shdlcWriteNack realloc wb seqno

/-- A data frame carries something. -/
def Sendable : Frame → Prop
  | data _ _ payload => payload ≠ []
  | ack _ | nack _ => True

end Frame

theorem make_mask (type seqno : UInt8) (compressed : Bool) :
    Header.make type seqno compressed = Header.make type (seqno &&& 7) compressed := by
  rw [Header.make, Header.make, UInt8.and_assoc]
  rfl

theorem mask_lt (seqno : UInt8) : ∃ s : Fin 8, seqno &&& 7 = UInt8.ofNat s.val := by
  have hlt : (seqno &&& 7).toNat < 8 := by
    rw [UInt8.toNat_and]
    exact Nat.lt_succ_of_le Nat.and_le_right
  exact ⟨⟨_, hlt⟩, UInt8.ofNat_toNat.symm⟩

theorem make_spec {type : UInt8} (ht : type ∈ [shdlcData, shdlcAck, shdlcNack]) (seqno : UInt8)
    (compressed : Bool) :
    let h := Header.make type seqno compressed
    h.data ≠ shdlcFlag ∧ h.data ≠ shdlcEscapeChar ∧ h.type = type ∧ h.seqno = seqno &&& 7 ∧
      h.compressed = compressed := by
  obtain ⟨s, hs⟩ := mask_lt seqno
  rw [make_mask, hs]
  clear hs
  simp only [List.mem_cons, List.not_mem_nil, or_false] at ht
  obtain rfl | rfl | rfl := ht <;> cases compressed <;> revert s <;> decide

theorem Frame.header_plain (f : Frame) :
    f.header.data ≠ shdlcFlag ∧ f.header.data ≠ shdlcEscapeChar := by
  cases f with
  | data s c p => exact ⟨(make_spec (by decide) s c).1, (make_spec (by decide) s c).2.1⟩
  | ack s => exact ⟨(make_spec (by decide) s false).1, (make_spec (by decide) s false).2.1⟩
  | nack s => exact ⟨(make_spec (by decide) s false).1, (make_spec (by decide) s false).2.1⟩

theorem Frame.header_type (f : Frame) : f.header.type ≠ shdlcInvalid ∧
    (f.header.type = shdlcAck ∨ f.header.type = shdlcNack → f.payload = []) := by
  cases f with
  | data s c p =>
    have ht : (Header.make shdlcData s c).type = shdlcData :=
      (make_spec (by decide) s c).2.2.1
    rw [Frame.header, ht]
    exact ⟨by decide, fun h => absurd h (by decide)⟩
  | ack s =>
    have ht : (Header.make shdlcAck s false).type = shdlcAck :=
      (make_spec (by decide) s false).2.2.1
    rw [Frame.header, ht]
    exact ⟨by decide, fun _ => rfl⟩
  | nack s =>
    have ht : (Header.make shdlcNack s false).type = shdlcNack :=
      (make_spec (by decide) s false).2.2.1
    rw [Frame.header, ht]
    exact ⟨by decide, fun _ => rfl⟩

theorem Frame.write_eq_ok (f : Frame) : f.write realloc wb = some (.ok, wb') ↔
    f.Sendable ∧ writeBytes realloc wb.rewind (frameBytes f.header f.payload) =
      some (.ok, wb') := by
  have hw := shdlcWrite_eq_ok realloc wb wb' f.header_type.1 f.payload
  cases f with
  | data s c p =>
    by_cases hp : p = []
    · simp [Frame.write, shdlcWriteData, Frame.Sendable, hp]
    · rw [Frame.write, shdlcWriteData, if_neg hp]
      exact hw.trans ⟨fun h => ⟨hp, h⟩, fun h => h.2⟩
  | ack s => exact hw.trans ⟨fun h => ⟨trivial, h⟩, fun h => h.2⟩
  | nack s => exact hw.trans ⟨fun h => ⟨trivial, h⟩, fun h => h.2⟩

theorem frameBytes_length_le (header : Header) (data : List UInt8) :
    (frameBytes header data).length ≤ 2 * data.length + 8 := by
  have h := stuff_length_le code (header.data :: data ++ [lowByte (writtenFcs header data),
    highByte (writtenFcs header data)])
  simp only [frameBytes, List.length_cons, List.length_append, List.length_nil] at h ⊢
  omega

theorem matches_written {header : Header} {data : List UInt8} (h : data.length + 1 < 2 ^ 31) :
    Matches (header.data :: data) (lowByte (writtenFcs header data))
      (highByte (writtenFcs header data)) := by
  rw [Matches, joinBytes_lowByte_highByte, writtenFcs, List.length_cons, tkCrc16_of_lt _ _ h,
    tkCrc16_of_lt _ _ (by omega), List.take_length, ← List.length_cons, List.take_length]
  rfl

/-- A frame survives the way through the writer and the reader.  With memory for
the frame the writer succeeds.  Whenever it has succeeded, a reader with memory
for the decoded frame reads it back: behind more flags or none, before any other
bytes, taking exactly the frame and leaving the header and the payload. -/
def RoundTrips (f : Frame) : Prop :=
  (∀ realloc wb, wb.Ok → Room realloc wb (2 * f.payload.length + 8) →
    ∃ wb', f.write realloc wb = some (.ok, wb')) ∧
  ∀ realloc wb wb', wb.Ok → f.write realloc wb = some (.ok, wb') →
    ∀ (k : Nat) (rest : List UInt8) (realloc' : Nat → Bool) (wbr : WBuffer), wbr.Ok →
      Room realloc' wbr (f.payload.length + 3) →
      ∃ wbr', shdlcReadData realloc' wbr
          (List.replicate k shdlcFlag ++ (wb'.contents ++ rest)) = some (.ok, wbr', rest) ∧
        wbr'.contents = f.header.data :: f.payload

theorem frameBytes_split (f : Frame) (k : Nat) (rest : List UInt8) :
    let fcs := writtenFcs f.header f.payload
    List.replicate k shdlcFlag ++ (frameBytes f.header f.payload ++ rest) =
      List.replicate (k + 1) shdlcFlag ++ f.header.data ::
        (stuff code (f.payload ++ [lowByte fcs, highByte fcs]) ++ shdlcFlag :: rest) := by
  have hplain : stuffOne code f.header.data = [f.header.data] :=
    stuffOne_of_plain code f.header_plain.1 f.header_plain.2
  simp only [frameBytes, List.cons_append, stuff_cons, hplain, List.replicate_succ',
    List.append_assoc, List.nil_append]

/-- Every frame with something to carry survives, as long as its length is an
`int`. -/
theorem roundTrips_of_sendable (f : Frame) (hs : f.Sendable)
    (hlen : f.payload.length + 1 < 2 ^ 31) : RoundTrips f := by
  constructor
  · intro realloc wb hw hroom
    have hfit : wb.rewind.cursor + (frameBytes f.header f.payload).length ≤
        2 * f.payload.length + 8 := by
      show 0 + _ ≤ _
      rw [Nat.zero_add]
      exact frameBytes_length_le _ _
    obtain ⟨wb', hx, _⟩ := Room.writeBytes _ hw.rewind hroom.rewind hfit
    exact ⟨wb', f.write_eq_ok.mpr ⟨hs, hx⟩⟩
  · intro realloc wb wb' hw hx k rest realloc' wbr hwr hroom
    obtain ⟨_, hcont, _⟩ := writeBytes_ok hw.rewind (f.write_eq_ok.mp hx).2
    rw [rewind_contents, List.nil_append] at hcont
    rw [hcont, frameBytes_split]
    have hun : unstuff code false (stuff code (f.payload ++
        [lowByte (writtenFcs f.header f.payload), highByte (writtenFcs f.header f.payload)])) =
        f.payload ++ [lowByte (writtenFcs f.header f.payload),
          highByte (writtenFcs f.header f.payload)] := unstuff_stuff code _
    have hcut : f.header.type = shdlcAck ∨ f.header.type = shdlcNack →
        (unstuff code false (stuff code (f.payload ++ [lowByte (writtenFcs f.header f.payload),
          highByte (writtenFcs f.header f.payload)]))).length ≤ 2 := by
      intro ht
      rw [hun, f.header_type.2 ht]
      exact Nat.le_refl 2
    have hread := shdlcReadData_chars realloc' hwr f.header_plain.1
      (flag_notMem_stuff code _) hcut k (shdlcFlag :: rest)
    rw [hun] at hread
    -- the reader has room, so it comes to the closing flag with everything written
    have hfit : wbr.rewind.cursor + (f.header.data :: (f.payload ++
        [lowByte (writtenFcs f.header f.payload),
          highByte (writtenFcs f.header f.payload)])).length ≤ f.payload.length + 3 := by
      show 0 + _ ≤ _
      simp
    obtain ⟨w, hw', _⟩ := Room.writeBytes _ hwr.rewind hroom.rewind hfit
    rw [hw'] at hread
    obtain ⟨lastC', hread⟩ := hread
    obtain ⟨hok, hcontents, _⟩ := writeBytes_ok hwr.rewind hw'
    obtain ⟨w', hclose, _, hbody⟩ := closeFrame_append hok
      (show w.contents = (f.header.data :: f.payload) ++ _ from hcontents)
    rw [if_pos (matches_written hlen)] at hclose
    refine ⟨w', ?_, hbody⟩
    rw [hread, readBody_flag, hclose]

/-- A payload of the two special characters survives. -/
theorem roundTrips_escaped :
    RoundTrips (.data 5 true [0x7E, 0x7D]) :=
  roundTrips_of_sendable _ (by simp [Frame.Sendable]) (by decide)

/-- A frame without payload is refused: no data frame carries nothing. -/
theorem not_roundTrips_empty : ¬ RoundTrips (.data 0 false []) := by
  intro h
  have hroom : Room (fun _ => true) initExtendable 8 :=
    .inr ⟨rfl, by decide, fun _ _ => rfl⟩
  obtain ⟨wb', hx⟩ := h.1 _ initExtendable initExtendable_ok hroom
  cases hx

end Awtk.Shdlc
