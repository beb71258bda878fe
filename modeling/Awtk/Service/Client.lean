import Awtk.Lib.Loop
import Awtk.Tkc.Crc
import Awtk.Tkc.WBuffer

/-!
# The read loop of a client

A model of `tk_client_read_resp` and `tk_client_read_notify`.  A stream has the bytes that
it delivers and, for each read that succeeds, the most it returns; behind these all reads
fail.  The log records from where each message was read, what was confirmed and what
`on_notify` was given.  Buffers get the memory they ask for.

The loops look at the type in the header also where the read failed.  Each such read of a
header that is left with the type of a notification is one call too many
(`Misled.more_calls`), and without any the loops are right.
-/

namespace Awtk.Client

open List

/-! ## The stream -/

/-- What a stream delivers, and the most bytes that its next reads return. -/
structure Io where
  bytes : List UInt8
  limits : List Nat
  deriving DecidableEq

/-- `tk_iostream_read_len`.  It returns the number of bytes as an `int32_t`. -/
def Io.readLen (io : Io) (maxSize : Nat) : List UInt8 × Io :=
  match io.limits with
  | [] => ([], io)
  | limit :: limits =>
    let size := min (min maxSize limit) (2 ^ 31 - 1)
    (io.bytes.take size, ⟨io.bytes.drop size, limits⟩)

/-- The number in some bytes, the lowest one first. -/
def number (bytes : List UInt8) : Nat := bytes.foldr (fun b n => b.toNat + 256 * n) 0

/-- `tk_msg_header_t` as it lies in the memory. -/
structure TkMsgHeader where
  bytes : List UInt8
  length_eq : bytes.length = 8
  deriving DecidableEq

namespace TkMsgHeader

def size (h : TkMsgHeader) : Nat := number (h.bytes.take 4)

def type (h : TkMsgHeader) : Nat := number ((h.bytes.drop 4).take 2)

/-- The first bytes are replaced. -/
def fill (h : TkMsgHeader) (bytes : List UInt8) : TkMsgHeader where
  bytes := (bytes ++ h.bytes.drop bytes.length).take 8
  length_eq := by
    rw [length_take, length_append, length_drop, h.length_eq]
    omega

/-- The header that `memset` has cleared. -/
def zero : TkMsgHeader := ⟨List.replicate 8 0, rfl⟩

end TkMsgHeader

def msgCodeNotify : Nat := 1

abbrev Message := TkMsgHeader × List UInt8

/-- The message that the next reads deliver as a whole, and whether its CRC is right. -/
def Io.next (io : Io) : Option (Message × Bool) :=
  let (head, io) := io.readLen 8
  if h : head.length = 8 then
    let header : TkMsgHeader := ⟨head, h⟩
    let (body, io) := if header.size > 0 then io.readLen header.size else ([], io)
    let (crc, _) := io.readLen 2
    if body.length = header.size ∧ crc.length = 2 then
      some ((header, body), number crc = (fcs16 pppInitFcs16 (head ++ body)).toNat)
    else none
  else none

/-- The complete message with the right CRC that is next. -/
def Io.message (io : Io) : Option Message :=
  match io.next with
  | some (message, true) => some message
  | _ => none

/-- The next message is complete and its CRC is wrong. -/
def Io.corrupt (io : Io) : Bool :=
  match io.next with
  | some (_, false) => true
  | _ => false

/-! ## The loops -/

inductive Event where
  | attempt (io : Io)
  | confirm (valid : Bool)
  | notify (message : Message)

/-- What a call of `tk_client_read_resp_ex` works on. -/
structure Reading where
  io : Io
  header : TkMsgHeader
  wb : WBuffer
  retryTimes : Nat
  log : List Event

namespace Reading

def start (io : Io) (header : TkMsgHeader) (wb : WBuffer) : Reading := ⟨io, header, wb, 0, []⟩

/-- `wbuffer_extend_capacity` of an empty buffer that gets its memory. -/
def extendCapacity (wb : WBuffer) (capacity : Nat) : WBuffer :=
  if capacity ≤ wb.capacity then wb
  else
    let capacity := max capacity (wb.capacity * 3 / 2)
    { wb with data := List.replicate capacity 0, capacity }

def readRespImpl (s : Reading) : Ret × Reading :=
  let log := s.log ++ [.attempt s.io]
  let wb := s.wb.rewind
  let (head, io) := s.io.readLen 8
  let header := s.header.fill head
  if head.length ≠ 8 then (.io, { s with io, header, wb, log })
  else
    let crc := fcs16 pppInitFcs16 header.bytes
    let wb := if header.size > 0 then extendCapacity wb header.size else wb
    let (body, io) := if header.size > 0 then io.readLen header.size else ([], io)
    let wb := { wb with data := body ++ wb.data.drop body.length }
    if body.length ≠ header.size then (.io, { s with io, header, wb, log })
    else
      let crc := fcs16 crc body
      let (value, io) := io.readLen 2
      if value.length ≠ 2 then (.io, { s with io, header, wb, log })
      else if crc.toNat ≠ number value then (.crc, { s with io, header, wb, log })
      else (.ok, { s with io, header, wb := { wb with cursor := header.size }, log })

def confirmPacket (s : Reading) (valid : Bool) : Reading :=
  { s with log := s.log ++ [.confirm valid] }

/-- The call of `on_notify`. -/
def onNotify (s : Reading) : Reading :=
  { s with log := s.log ++ [.notify (s.header, s.wb.contents)] }

/-- A turn of the loop without retries. -/
def plainTurn (readNotify : Bool) (s : Reading) : Turn Reading (Ret × Reading) :=
  let (ret, s) := s.readRespImpl
  if s.header.type = msgCodeNotify then
    let s := s.onNotify
    if readNotify then .done (ret, s) else .next s
  else .done (ret, s)

/-- A turn of the loop with retries. -/
def retryTurn (retryTimes : Nat) (readNotify : Bool) (s : Reading) :
    Turn Reading (Ret × Reading) :=
  if s.retryTimes < retryTimes then
    let (ret, s) := s.readRespImpl
    let s := if ret ≠ .io then s.confirmPacket (ret ≠ .crc) else s
    if ret = .crc then .next { s with retryTimes := s.retryTimes + 1 }
    else if s.header.type = msgCodeNotify then
      let s := s.onNotify
      if readNotify then .done (ret, s) else .next s
    else .done (ret, s)
  else .done (.fail, s)

end Reading

open Reading

/-- A turn of `tk_client_read_resp_ex`. -/
def respTurn (retryTimes : Nat) (readNotify : Bool) : Reading → Turn Reading (Ret × Reading) :=
  if retryTimes < 1 then plainTurn readNotify else retryTurn retryTimes readNotify

/-- `tk_client_read_resp` with at most `n` turns. -/
def tkClientReadResp (retryTimes n : Nat) (io : Io) (header : TkMsgHeader) (wb : WBuffer) :
    Outcome (Ret × Reading) :=
  Loop.run (respTurn retryTimes false) n (.start io header wb)

/-- `tk_client_read_notify` with at most `n` turns, where `wait` is the result of
`tk_istream_wait_for_data`. -/
def tkClientReadNotify (wait : Ret) (retryTimes n : Nat) (io : Io) (wb : WBuffer) :
    Outcome (Ret × Reading) :=
  if wait = .ok then Loop.run (respTurn retryTimes true) n (.start io .zero wb.rewind)
  else .result (wait, .start io .zero wb)

/-! ## Right calls -/

/-- The calls of `on_notify`. -/
def calls (log : List Event) : List Message :=
  log.filterMap fun
    | .notify message => some message
    | _ => none

def attempts (log : List Event) : List Io :=
  log.filterMap fun
    | .attempt io => some io
    | _ => none

/-- The notification that is next. -/
def Io.notification (io : Io) : Option Message :=
  io.message.filter (·.1.type = msgCodeNotify)

/-- The complete notifications with the right CRC that were read. -/
def notifications (log : List Event) : List Message := (attempts log).filterMap Io.notification

/-- Each complete notification was handed over once, and `RET_OK` stands for a complete
message. -/
structure Right (ret : Ret) (s : Reading) : Prop where
  calls_eq : calls s.log = notifications s.log
  ok : ret = .ok → ∃ io, (attempts s.log).getLast? = some io ∧
    io.message = some (s.header, s.wb.contents)

/-- A call that returns, and does what it should. -/
def Returns (run : Nat → Outcome (Ret × Reading)) : Prop :=
  ∃ n ret s, run n = .result (ret, s) ∧ Right ret s

/-- The next read leaves the type of a notification in the header, but there is no complete
message with the right CRC.  A wrong CRC does no harm with retries. -/
def Misled (retryTimes : Nat) (s : Reading) : Prop :=
  s.io.message = none ∧ (s.header.fill (s.io.readLen 8).1).type = msgCodeNotify ∧
    (0 < retryTimes → s.retryTimes < retryTimes ∧ s.io.corrupt = false)

/-- The call is not misled in any turn. -/
def NeverMisled (retryTimes : Nat) (readNotify : Bool) (s : Reading) : Prop :=
  ∀ s', Loop.Reaches (respTurn retryTimes readNotify) s s' → ¬Misled retryTimes s'

variable {s s' t : Reading} {ret : Ret} {retryTimes : Nat} {readNotify : Bool} {io io' : Io}
  {bytes : List UInt8} {n : Nat}

@[simp] theorem calls_append (l l' : List Event) : calls (l ++ l') = calls l ++ calls l' :=
  filterMap_append

@[simp] theorem notifications_append (l l' : List Event) :
    notifications (l ++ l') = notifications l ++ notifications l' := by
  rw [notifications, attempts, filterMap_append, filterMap_append]
  rfl

/-! ## An attempt -/

/-- What an attempt to read a message leaves. -/
structure Attempt (s s' : Reading) (ret : Ret) : Prop where
  header : s'.header = s.header.fill (s.io.readLen 8).1
  log : s'.log = s.log ++ [.attempt s.io]
  retryTimes : s'.retryTimes = s.retryTimes
  shorter : ret ≠ .io → s'.io.limits.length < s.io.limits.length
  result : (ret = .ok ∧ s.io.message = some (s'.header, s'.wb.contents)) ∨
    (ret = .crc ∧ s.io.message = none ∧ s.io.corrupt = true) ∨
    (ret = .io ∧ s.io.message = none ∧ s.io.corrupt = false)

theorem readLen_le (io : Io) (n : Nat) : (io.readLen n).2.limits.length ≤ io.limits.length := by
  unfold Io.readLen
  split
  case h_1 => exact Nat.le_refl _
  case h_2 limit limits h =>
    rw [h]
    exact Nat.le_succ _

theorem readLen_lt (h : (io.readLen n).1 ≠ []) :
    (io.readLen n).2.limits.length < io.limits.length := by
  unfold Io.readLen at h ⊢
  split
  case h_1 hl => simp [hl] at h
  case h_2 limit limits hl =>
    rw [hl]
    exact Nat.lt_succ_self _

theorem fill_whole (h : TkMsgHeader) (hlen : bytes.length = 8) : h.fill bytes = ⟨bytes, hlen⟩ := by
  unfold TkMsgHeader.fill
  congr 1
  rw [take_append_of_le_length (by omega), take_of_length_le (by omega)]

theorem message_of_next {message : Message} {right : Bool} (h : io.next = some (message, right)) :
    io.message = (if right then some message else none) ∧ io.corrupt = !right := by
  unfold Io.message Io.corrupt
  rw [h]
  cases right <;> exact ⟨rfl, rfl⟩

theorem message_of_next_none (h : io.next = none) : io.message = none ∧ io.corrupt = false := by
  unfold Io.message Io.corrupt
  rw [h]
  exact ⟨rfl, rfl⟩

/-- The three reads of a message, and the attempt they make. -/
theorem readRespImpl_attempt (s : Reading) : Attempt s s.readRespImpl.2 s.readRespImpl.1 := by
  have hlt₁ : (s.io.readLen 8).1 ≠ [] → _ := readLen_lt
  cases hread : s.io.readLen 8 with
  | mk head io₁ =>
  rw [hread] at hlt₁
  by_cases hhead : head.length = 8
  case neg =>
    have hnext : s.io.next = none := by
      unfold Io.next
      simp only [hread]
      exact dif_neg hhead
    unfold readRespImpl
    simp only [hread]
    rw [if_pos hhead]
    exact ⟨by rw [hread], rfl, rfl, fun h => absurd rfl h,
      .inr (.inr ⟨rfl, message_of_next_none hnext⟩)⟩
  have hhead₁ : head ≠ [] := by
    rintro rfl
    cases hhead
  have hlt₁ : io₁.limits.length < s.io.limits.length := hlt₁ hhead₁
  unfold readRespImpl
  simp only [hread, fill_whole s.header hhead]
  rw [if_neg (not_not.mpr hhead)]
  generalize hsize : TkMsgHeader.size ⟨head, hhead⟩ = size
  have hle₂ : (if size > 0 then io₁.readLen size else ([], io₁)).2.limits.length ≤
      io₁.limits.length := by
    split
    · exact readLen_le io₁ size
    · exact Nat.le_refl _
  cases hbody : (if size > 0 then io₁.readLen size else ([], io₁)) with
  | mk body io₂ =>
  rw [hbody] at hle₂
  have hle₂ : io₂.limits.length ≤ io₁.limits.length := hle₂
  have hle₃ := readLen_le io₂ 2
  cases hvalue : io₂.readLen 2 with
  | mk value io₃ =>
  rw [hvalue] at hle₃
  have hle₃ : io₃.limits.length ≤ io₂.limits.length := hle₃
  have hnext : s.io.next = if body.length = size ∧ value.length = 2 then
      some ((⟨head, hhead⟩, body),
        decide (number value = (fcs16 pppInitFcs16 (head ++ body)).toNat)) else none := by
    unfold Io.next
    simp only [hread]
    rw [dif_pos hhead]
    simp only [hsize, hbody, hvalue]
  have hheader : (⟨head, hhead⟩ : TkMsgHeader) = s.header.fill (s.io.readLen 8).1 := by
    rw [hread, fill_whole s.header hhead]
  have hcrc : fcs16 (fcs16 pppInitFcs16 head) body = fcs16 pppInitFcs16 (head ++ body) := by
    rw [fcs16, fcs16, fcs16, foldl_append]
  simp only
  by_cases hlen : body.length = size
  case neg =>
    rw [if_neg fun h => hlen h.1] at hnext
    rw [if_pos hlen]
    exact ⟨hheader, rfl, rfl, fun h => absurd rfl h,
      .inr (.inr ⟨rfl, message_of_next_none hnext⟩)⟩
  rw [if_neg (not_not.mpr hlen)]
  by_cases htwo : value.length = 2
  case neg =>
    rw [if_neg fun h => htwo h.2] at hnext
    rw [if_pos htwo]
    exact ⟨hheader, rfl, rfl, fun h => absurd rfl h,
      .inr (.inr ⟨rfl, message_of_next_none hnext⟩)⟩
  have hshorter : io₃.limits.length < s.io.limits.length := by omega
  rw [if_pos ⟨hlen, htwo⟩] at hnext
  rw [if_neg (not_not.mpr htwo), hcrc]
  by_cases hright : number value = (fcs16 pppInitFcs16 (head ++ body)).toNat
  · rw [decide_eq_true hright] at hnext
    have hcontents : ∀ data : List UInt8, (body ++ data).take size = body := fun data => by
      rw [← hlen, take_left]
    rw [if_neg (not_not.mpr hright.symm)]
    refine ⟨hheader, rfl, rfl, fun _ => hshorter, .inl ⟨rfl, ?_⟩⟩
    rw [(message_of_next hnext).1, if_pos rfl]
    exact congrArg some (Prod.ext rfl (hcontents _).symm)
  · rw [decide_eq_false hright] at hnext
    rw [if_pos fun h => hright h.symm]
    exact ⟨hheader, rfl, rfl, fun _ => hshorter,
      .inr (.inl ⟨rfl, (message_of_next hnext).1, (message_of_next hnext).2⟩)⟩

theorem Attempt.message_eq_none_iff (a : Attempt s s' ret) : s.io.message = none ↔ ret ≠ .ok := by
  rcases a.result with ⟨rfl, hm⟩ | ⟨rfl, hm, -⟩ | ⟨rfl, hm, -⟩ <;> simp [hm]

theorem Attempt.corrupt_eq_false_iff (a : Attempt s s' ret) (h : s.io.message = none) :
    s.io.corrupt = false ↔ ret ≠ .crc := by
  rcases a.result with ⟨rfl, hm⟩ | ⟨rfl, -, hc⟩ | ⟨rfl, -, hc⟩
  · rw [h] at hm
    cases hm
  · simp [hc]
  · simp [hc]

theorem Attempt.notification_eq (a : Attempt s s' ret) : s.io.notification =
    if ret = .ok ∧ s'.header.type = msgCodeNotify then some (s'.header, s'.wb.contents)
    else none := by
  unfold Io.notification
  rcases a.result with ⟨rfl, hm⟩ | ⟨rfl, hm, -⟩ | ⟨rfl, hm, -⟩
  · rw [hm]
    by_cases htype : s'.header.type = msgCodeNotify <;> simp [Option.filter, htype]
  · simp [hm]
  · simp [hm]

/-! ## A turn -/

/-- What a turn leaves, where `ret` is the result of its attempt. -/
structure Step (retryTimes : Nat) (s s' : Reading) (ret : Ret) : Prop where
  log : ∃ events, s'.log = s.log ++ events ∧
    (Misled retryTimes s → notifications events = [] ∧ (calls events).length = 1) ∧
    (¬Misled retryTimes s → calls events = notifications events)
  ok : ret = .ok → ∃ io, (attempts s'.log).getLast? = some io ∧
    io.message = some (s'.header, s'.wb.contents)

/-- The events of a turn: `confirms` is what was confirmed and `handed` says whether
`on_notify` was called. -/
theorem Attempt.step (a : Attempt s t ret) (retryTimes : Nat) (s' : Reading)
    (confirms : List Event) (handed : Bool)
    (hconfirms : calls confirms = [] ∧ attempts confirms = [])
    (hlog : s'.log =
      t.log ++ confirms ++ if handed then [.notify (t.header, t.wb.contents)] else [])
    (hheader : s'.header = t.header) (hwb : s'.wb = t.wb)
    (hmisled : Misled retryTimes s ↔ ret ≠ .ok ∧ handed = true)
    (hhanded : ret = .ok → (handed = true ↔ t.header.type = msgCodeNotify)) :
    Step retryTimes s s' ret := by
  rw [a.log, append_assoc, append_assoc] at hlog
  have hcalls : calls ([.attempt s.io] ++ (confirms ++
      if handed then [.notify (t.header, t.wb.contents)] else [])) =
      if handed then [(t.header, t.wb.contents)] else [] := by
    rw [calls_append, calls_append, hconfirms.1]
    cases handed <;> rfl
  have hattempts : attempts ([.attempt s.io] ++ (confirms ++
      if handed then [.notify (t.header, t.wb.contents)] else [])) = [s.io] := by
    have happend (l l' : List Event) : attempts (l ++ l') = attempts l ++ attempts l' :=
      filterMap_append
    rw [happend, happend, hconfirms.2]
    cases handed <;> rfl
  have hnotes : notifications ([.attempt s.io] ++ (confirms ++
      if handed then [.notify (t.header, t.wb.contents)] else [])) = s.io.notification.toList := by
    rw [notifications, hattempts]
    cases hn : s.io.notification <;> simp [hn]
  refine ⟨⟨_, hlog, fun hm => ?_, fun hm => ?_⟩, fun hok => ⟨s.io, ?_, ?_⟩⟩
  · obtain ⟨hne, hh⟩ := hmisled.mp hm
    have hn : s.io.notification = none := a.notification_eq.trans (if_neg fun h => hne h.1)
    rw [hnotes, hcalls, hn, hh]
    exact ⟨rfl, rfl⟩
  · by_cases hok : ret = .ok
    · cases handed with
      | true =>
        have hn := a.notification_eq.trans (if_pos ⟨hok, (hhanded hok).mp rfl⟩)
        rw [hnotes, hcalls, hn]
        rfl
      | false =>
        have hn : s.io.notification = none := a.notification_eq.trans
          (if_neg fun h => Bool.false_ne_true ((hhanded hok).mpr h.2))
        rw [hnotes, hcalls, hn]
        rfl
    · have hn : s.io.notification = none := a.notification_eq.trans (if_neg fun h => hok h.1)
      cases handed with
      | true => exact absurd (hmisled.mpr ⟨hok, rfl⟩) hm
      | false =>
        rw [hnotes, hcalls, hn]
        rfl
  · rw [hlog, attempts, filterMap_append]
    change (attempts s.log ++ attempts _).getLast? = _
    rw [hattempts, getLast?_concat]
  · rw [hheader, hwb]
    rcases a.result with ⟨-, hm⟩ | ⟨hcrc, -⟩ | ⟨hio, -⟩
    · exact hm
    · rw [hok] at hcrc
      cases hcrc
    · rw [hok] at hio
      cases hio

/-- A turn goes on or ends the loop. -/
def Steps (retryTimes : Nat) (s : Reading) (turn : Turn Reading (Ret × Reading)) : Prop :=
  (∃ s' ret, turn = .next s' ∧ Step retryTimes s s' ret ∧
    (¬Misled retryTimes s → s'.io.limits.length < s.io.limits.length)) ∨
  ∃ s' ret, turn = .done (ret, s') ∧ Step retryTimes s s' ret

theorem plainTurn_steps (s : Reading) : Steps 0 s (plainTurn readNotify s) := by
  have a := readRespImpl_attempt s
  have hmisled : Misled 0 s ↔ s.readRespImpl.1 ≠ .ok ∧
      s.readRespImpl.2.header.type = msgCodeNotify := by
    unfold Misled
    rw [a.message_eq_none_iff, ← a.header]
    simp
  unfold plainTurn
  by_cases htype : s.readRespImpl.2.header.type = msgCodeNotify
  · have hstep : Step 0 s s.readRespImpl.2.onNotify s.readRespImpl.1 :=
      a.step 0 _ [] true ⟨rfl, rfl⟩ (by simp [onNotify]) rfl rfl
        (by rw [hmisled]; simp [htype]) fun _ => by simp [htype]
    simp only
    rw [if_pos htype]
    cases readNotify with
    | true => exact .inr ⟨_, _, rfl, hstep⟩
    | false =>
      refine .inl ⟨_, _, rfl, hstep, fun hm => a.shorter fun hio => hm (hmisled.mpr ⟨?_, htype⟩)⟩
      rw [hio]
      decide
  · have hstep : Step 0 s s.readRespImpl.2 s.readRespImpl.1 :=
      a.step 0 _ [] false ⟨rfl, rfl⟩ (by simp) rfl rfl
        (by rw [hmisled]; simp [htype]) fun _ => by simp [htype]
    simp only
    rw [if_neg htype]
    exact .inr ⟨_, _, rfl, hstep⟩

theorem retryTurn_steps (hretry : 0 < retryTimes) (s : Reading) :
    Steps retryTimes s (retryTurn retryTimes readNotify s) := by
  unfold retryTurn
  by_cases hlt : s.retryTimes < retryTimes
  case neg =>
    rw [if_neg hlt]
    refine .inr ⟨s, _, rfl, ⟨[], (append_nil _).symm, fun hm => ?_, fun _ => rfl⟩, fun h => ?_⟩
    · exact absurd (hm.2.2 hretry).1 hlt
    · cases h
  rw [if_pos hlt]
  have a := readRespImpl_attempt s
  have hmisled : Misled retryTimes s ↔ s.readRespImpl.1 ≠ .ok ∧
      s.readRespImpl.2.header.type = msgCodeNotify ∧ s.readRespImpl.1 ≠ .crc := by
    unfold Misled
    rw [← a.header, ← a.message_eq_none_iff]
    refine and_congr_right fun hm => and_congr_right fun _ => ?_
    rw [a.corrupt_eq_false_iff hm]
    exact ⟨fun h => (h hretry).2, fun h _ => ⟨hlt, h⟩⟩
  obtain ⟨confirms, hconfirms, hconfirm⟩ : ∃ confirms,
      (calls confirms = [] ∧ attempts confirms = []) ∧
      (if s.readRespImpl.1 ≠ .io then s.readRespImpl.2.confirmPacket (s.readRespImpl.1 ≠ .crc)
        else s.readRespImpl.2) =
      { s.readRespImpl.2 with log := s.readRespImpl.2.log ++ confirms } := by
    by_cases hio : s.readRespImpl.1 = .io
    · exact ⟨[], ⟨rfl, rfl⟩, by simp [hio]⟩
    · exact ⟨[.confirm _], ⟨rfl, rfl⟩, if_pos hio⟩
  simp only
  rw [hconfirm]
  generalize s.readRespImpl.2 = t at *
  generalize s.readRespImpl.1 = ret at *
  by_cases hcrc : ret = .crc
  · rw [if_pos hcrc]
    have hstep := a.step retryTimes { t with
        retryTimes := t.retryTimes + 1, log := t.log ++ confirms } confirms false hconfirms
      (by simp) rfl rfl (by rw [hmisled]; simp [hcrc])
      fun hok => by rw [hok] at hcrc; cases hcrc
    refine .inl ⟨_, _, rfl, hstep, fun _ => a.shorter ?_⟩
    rw [hcrc]
    decide
  rw [if_neg hcrc]
  by_cases htype : t.header.type = msgCodeNotify
  · have hstep := a.step retryTimes { t with log := t.log ++ confirms }.onNotify confirms true
      hconfirms (by simp [onNotify]) rfl rfl
      (by rw [hmisled]; simp [htype, hcrc]) fun _ => by simp [htype]
    rw [if_pos htype]
    cases readNotify with
    | true => exact .inr ⟨_, _, rfl, hstep⟩
    | false =>
      refine .inl ⟨_, _, rfl, hstep, fun hm => a.shorter fun hio =>
        hm (hmisled.mpr ⟨?_, htype, hcrc⟩)⟩
      rw [hio]
      decide
  · have hstep := a.step retryTimes { t with log := t.log ++ confirms } confirms false
      hconfirms (by simp) rfl rfl
      (by rw [hmisled]; simp [htype]) fun _ => by simp [htype]
    rw [if_neg htype]
    exact .inr ⟨_, _, rfl, hstep⟩

theorem respTurn_steps (s : Reading) : Steps retryTimes s (respTurn retryTimes readNotify s) := by
  unfold respTurn
  split_ifs with hlt
  · rw [Nat.lt_one_iff.mp hlt]
    exact plainTurn_steps s
  · exact retryTurn_steps (Nat.pos_of_ne_zero fun h => hlt (by omega)) s

/-! ## A call -/

/-- No more notifications were read than handed over since `s`. -/
def Ahead (s s' : Reading) : Prop :=
  (calls s.log).length + (notifications s'.log).length ≤
    (calls s'.log).length + (notifications s.log).length

theorem Step.more_calls (h : Step retryTimes s s' ret) (hm : Misled retryTimes s) :
    (calls s.log).length + (notifications s'.log).length <
      (calls s'.log).length + (notifications s.log).length := by
  obtain ⟨events, hlog, hmisled, -⟩ := h.log
  obtain ⟨hnotes, hcalls⟩ := hmisled hm
  rw [hlog, calls_append, notifications_append, hnotes, length_append, length_append,
    hcalls, length_nil]
  omega

theorem Step.calls_eq (h : Step retryTimes s s' ret) (hm : ¬Misled retryTimes s)
    (hs : calls s.log = notifications s.log) : calls s'.log = notifications s'.log := by
  obtain ⟨events, hlog, -, hright⟩ := h.log
  rw [hlog, calls_append, notifications_append, hs, hright hm]

theorem Step.ahead (h : Step retryTimes s s' ret) : Ahead s s' := by
  by_cases hm : Misled retryTimes s
  · exact Nat.le_of_lt (h.more_calls hm)
  · obtain ⟨events, hlog, -, hright⟩ := h.log
    rw [Ahead, hlog, calls_append, notifications_append, hright hm, length_append,
      length_append]
    omega

theorem reaches_ahead (h : Loop.Reaches (respTurn retryTimes readNotify) s s') : Ahead s s' := by
  induction h with
  | refl => exact Nat.le_refl _
  | @tail s₁ s₂ _ hturn ih =>
    rcases respTurn_steps s₁ with ⟨t, r, hnext, hstep, -⟩ | ⟨t, r, hdone, -⟩
    · rw [hturn] at hnext
      cases hnext
      have hahead := hstep.ahead
      unfold Ahead at ih hahead ⊢
      omega
    · rw [hturn] at hdone
      cases hdone

theorem ends_ahead (h : Loop.Ends (respTurn retryTimes readNotify) s (ret, t)) : Ahead s t := by
  obtain ⟨last, hreach, hdone⟩ := h
  have hbefore := reaches_ahead hreach
  rcases respTurn_steps last with ⟨s', r, hnext, -⟩ | ⟨s', r, hdone', hstep⟩
  · rw [hdone] at hnext
    cases hnext
  · rw [hdone] at hdone'
    cases hdone'
    have hahead := hstep.ahead
    unfold Ahead at hbefore hahead ⊢
    omega

/-- A misled turn hands over something that is no notification, and nothing makes up for it. -/
theorem Misled.more_calls (hm : Misled retryTimes s)
    (h : Loop.Ends (respTurn retryTimes readNotify) s (ret, t)) :
    (calls s.log).length + (notifications t.log).length <
      (calls t.log).length + (notifications s.log).length := by
  rcases respTurn_steps s with ⟨s', r, hnext, hstep, -⟩ | ⟨s', r, hdone, hstep⟩
  · have hrest := ends_ahead (h.next hnext)
    have hmore := hstep.more_calls hm
    unfold Ahead at hrest
    omega
  · have heq := h.eq_of_done hdone
    cases heq
    exact hstep.more_calls hm

/-- Each turn that is not misled reads on. -/
def respVariant (retryTimes : Nat) (readNotify : Bool) :
    Loop.Variant (respTurn retryTimes readNotify) where
  Inv s := NeverMisled retryTimes readNotify s ∧ calls s.log = notifications s.log
  measure s := s.io.limits.length
  keeps := by
    intro s s' hs hturn
    refine ⟨fun t ht => hs.1 t (.head hturn ht), ?_⟩
    rcases respTurn_steps s with ⟨t, ret, hnext, hstep, -⟩ | ⟨t, ret, hdone, -⟩
    · rw [hturn] at hnext
      cases hnext
      exact hstep.calls_eq (hs.1 s (.refl _ s)) hs.2
    · rw [hturn] at hdone
      cases hdone
  falls := by
    intro s s' hs hturn
    rcases respTurn_steps s with ⟨t, ret, hnext, -, hshorter⟩ | ⟨t, ret, hdone, -⟩
    · rw [hturn] at hnext
      cases hnext
      exact hshorter (hs.1 s (.refl _ s))
    · rw [hturn] at hdone
      cases hdone

/-- A loop returns and does what it should exactly when it is never misled. -/
theorem returns_iff_neverMisled (hlog : s.log = []) :
    Returns (fun n => Loop.run (respTurn retryTimes readNotify) n s) ↔
      NeverMisled retryTimes readNotify s := by
  constructor
  · rintro ⟨n, ret, t, hrun, hright⟩ s' hreach hm
    have hmore := hm.more_calls ((Loop.Ends.of_run hrun).reached hreach)
    have hahead := reaches_ahead hreach
    have heq := congrArg List.length hright.calls_eq
    rw [Ahead, hlog] at hahead
    change 0 + _ ≤ _ + 0 at hahead
    omega
  · intro hnever
    have hinv : (respVariant retryTimes readNotify).Inv s := ⟨hnever, by rw [hlog]; rfl⟩
    obtain ⟨n, hends⟩ : ∃ n, Loop.run (respTurn retryTimes readNotify) n s ≠ .running :=
      ⟨_, (respVariant retryTimes readNotify).ends hinv (Nat.lt_succ_self _)⟩
    cases hrun : Loop.run (respTurn retryTimes readNotify) n s with
    | running => exact absurd hrun hends
    | fault =>
      obtain ⟨s', -, hfault⟩ := (Loop.run_fault_iff hends).mp hrun
      rcases respTurn_steps s' with ⟨t, ret, hnext, -⟩ | ⟨t, ret, hdone, -⟩
      · rw [hfault] at hnext
        cases hnext
      · rw [hfault] at hdone
        cases hdone
    | result r =>
      obtain ⟨s', hreach, hturn⟩ := (Loop.run_result_iff hends).mp hrun
      have hs' := hreach.invariant
        (fun _ _ h hn => (respVariant retryTimes readNotify).keeps h hn) hinv
      rcases respTurn_steps s' with ⟨t, ret, hnext, -⟩ | ⟨t, ret, hdone, hstep⟩
      · rw [hturn] at hnext
        cases hnext
      · rw [hturn] at hdone
        cases hdone
        exact ⟨n, ret, t, hrun, hstep.calls_eq (hs'.1 s' (.refl _ s')) hs'.2, hstep.ok⟩

end Awtk.Client
