import Awtk.Compressors.CompressorMiniz
import Awtk.Streams.ShdlcFraming
import Awtk.Tkc.RingBuffer
import Awtk.Lib.Run

/-!
# The SHDLC stream pair

A model of `ostream_shdlc.c` and `istream_shdlc.c`: two endpoints, each with an
output and an input stream, and a channel in either direction.  A channel holds
whole frames.  It may lose a frame, or break one so that `shdlc_read_data`
reports `RET_CRC` or `RET_TIMEOUT`; the real streams stay open, so that there is
no `RET_IO`.

A call of `tk_ostream_shdlc_write` or `tk_istream_shdlc_read` stops where it
waits for a frame.  `Control` says in which loop an endpoint waits, and with
which counters.  What happens between two frames is one step.

Some fields and arguments are there for the statements only and steer nothing:
the number of the write a frame belongs to, and the lists of writes, of
acknowledged writes, of saved writes and of bytes handed to the reader.
-/

namespace Awtk.Shdlc

/-! ## Frames on their way -/

/-- A write: what it was given and the frame it sends. -/
structure Write where
  seqno : UInt8
  compressed : Bool
  payload : List UInt8
  buff : List UInt8
  deriving DecidableEq, Repr

def Write.frame (w : Write) : Frame := .data w.seqno w.compressed w.payload

/-- What `shdlc_read_data` reports for a damaged frame. -/
inductive Fault where
  | crc
  | timeout

def Fault.ret : Fault → Ret
  | crc => .crc
  | timeout => .timeout

/-- A frame in a channel.  `id` is the number of the write, or of the write that
is answered.  A broken frame leaves some bytes in the buffer of the reader. -/
inductive Item where
  | intact (frame : Frame) (id : Nat)
  | broken (fault : Fault) (wb : List UInt8)

/-- What `shdlc_read_data` has done: its value and the bytes of `wb->data`. -/
structure Received where
  ret : Ret
  wb : List UInt8
  id : Nat

def Item.received : Item → Received
  | intact frame id => ⟨.ok, frame.header.data :: frame.payload, id⟩
  | broken fault wb => ⟨fault.ret, wb, 0⟩

/-! ## The input stream -/

/-- `tk_istream_shdlc_t`.  `wb` is what the last frame has left in `wb->data`. -/
structure Istream where
  retryTimes : Nat
  rb : RingBuffer
  wb : List UInt8
  wbCompress : WBuffer
  lastSeqno : UInt8
  /-- the writes put into the ring -/
  saved : List (Nat × List UInt8)
  /-- the bytes read from the ring -/
  consumed : List UInt8

namespace Istream

/-- `tk_istream_shdlc_create`, and the retry times set afterwards. -/
def create (retryTimes : UInt32) : Option Istream := do
  let rb ← RingBuffer.create true 1024 (32 * 1024)
  return {
    retryTimes := retryTimes.toNat
    rb
    wb := []
    wbCompress := .initExtendable
    lastSeqno := 0xff
    saved := []
    consumed := [] }

/-- `wb->data != NULL ? wb->data[0] : 0`. -/
def header (is : Istream) : Header := ⟨is.wb.headD 0⟩

def sendAck (ok : Bool) (seqno : UInt8) (id : Nat) : Item :=
  if ok then .intact (.ack seqno) id else .intact (.nack seqno) id

/-- A pass of the loop of `tk_istream_shdlc_read_frame`: the value it returns, or
nothing when the loop goes on. -/
def readFrame (is : Istream) (expectData : Bool) (retryTimes : Nat) (r : Received) :
    Option Ret × Istream × List Item :=
  let is := { is with wb := r.wb }
  let seqno := is.header.seqno
  if r.ret = .crc ∨ r.ret = .timeout then
    if expectData then
      let sent := [sendAck false seqno 0]
      if retryTimes + 1 < is.retryTimes then (none, is, sent) else (some r.ret, is, sent)
    else (some r.ret, is, [])
  else if r.ret = .ok ∧ is.header.type = shdlcData then
    (some r.ret, is, [sendAck true seqno r.id])
  else (some r.ret, is, [])

/-- The write to the ring in `tk_istream_shdlc_save_data_frame`. -/
def saveData (is : Istream) (alloc : Option (Nat → UInt8)) (id : Nat) (data : List UInt8) :
    Ret × Istream :=
  match is.rb.writeLen alloc data with
  | (.ok, rb) =>
    (.ok, { is with rb, lastSeqno := is.header.seqno, saved := is.saved ++ [(id, data)] })
  | (_, rb) => (.oom, { is with rb })

def saveDataFrame (mz : Miniz) (mem : Memory) (alloc : Option (Nat → UInt8)) (is : Istream)
    (id : Nat) : Option (Ret × Istream × List Item) :=
  if is.header.type ≠ shdlcData then some (.fail, is, [])
  else if is.lastSeqno ≠ is.header.seqno then
    let data := is.wb.tail
    if is.header.compressed then do
      match ← mz.uncompress mem data is.wbCompress with
      | (.ok, wbCompress) =>
        let (ret, is) := { is with wbCompress }.saveData alloc id wbCompress.contents
        return (ret, is, [])
      -- the value returned here is `0`, and that is `RET_OK`
      | (_, wbCompress) => return (.ok, { is with wbCompress }, [])
    else
      let (ret, is) := is.saveData alloc id data
      some (ret, is, [])
  else some (.ok, is, [sendAck true is.header.seqno id])

/-- A pass of the loop of `tk_istream_shdlc_read_ack`: the value it returns, or
nothing when it reads another frame.  The sequence number it is given is not
looked at. -/
def readAck (mz : Miniz) (mem : Memory) (alloc : Option (Nat → UInt8)) (is : Istream)
    (r : Received) : Option (Option Ret × Istream × List Item) :=
  match is.readFrame false 0 r with
  | (some .ok, is, sent) =>
    if is.header.type = shdlcData then do
      let (ret, is, more) ← is.saveDataFrame mz mem alloc r.id
      return (if ret = .ok then none else some .oom, is, sent ++ more)
    else some (some (if is.header.type = shdlcAck then .ok else .fail), is, sent)
  | (ret, is, sent) => some (ret, is, sent)

/-- `ring_buffer_read`. -/
def readRing (is : Istream) (maxSize : Nat) : Istream :=
  let (_, bytes, rb) := is.rb.read maxSize
  { is with rb, consumed := is.consumed ++ bytes }

end Istream

/-! ## The output stream -/

/-- `tk_ostream_shdlc_t`. -/
structure Ostream where
  retryTimes : Nat
  compressThreshold : Nat
  seqno : UInt8
  wb : WBuffer
  wbCompress : WBuffer
  /-- the writes whose frame was sent -/
  writes : List Write
  /-- the writes that returned the size of the buffer -/
  acked : List (Nat × List UInt8)

/-- `tk_ostream_shdlc_create`, and the properties set afterwards. -/
def Ostream.create (retryTimes compressThreshold : UInt32) : Ostream where
  retryTimes := retryTimes.toNat
  compressThreshold := compressThreshold.toNat
  seqno := 0
  wb := .initExtendable
  wbCompress := .initExtendable
  writes := []
  acked := []

/-! ## Endpoints -/

/-- Where an endpoint waits for a frame. -/
inductive Control where
  | idle
  /-- in `tk_istream_shdlc_read_ack`, called by `tk_ostream_shdlc_write` -/
  | writing (w : Write) (id : Nat) (retryTimes : Nat)
  /-- in `tk_istream_shdlc_read_frame`, called by `tk_istream_shdlc_read` -/
  | reading (maxSize : Nat) (retryTimes : Nat)
  deriving DecidableEq

/-- A `tk_iostream_shdlc_t`. -/
structure Endpoint where
  ostream : Ostream
  istream : Istream
  control : Control

namespace Endpoint

/-- An endpoint after a step, and the frames it has sent. -/
abbrev Reaction := Endpoint × List Item

/-- The properties of an endpoint. -/
structure Props where
  ostreamRetryTimes : UInt32
  compressThreshold : UInt32
  istreamRetryTimes : UInt32

/-- The properties an endpoint is created with. -/
def Props.default : Props := ⟨10, 512, 10⟩

def create (props : Props) : Option Endpoint := do
  let istream ← Istream.create props.istreamRetryTimes
  return ⟨.create props.ostreamRetryTimes props.compressThreshold, istream, .idle⟩

/-- The function returns. -/
def return_ (self : Endpoint) : Endpoint := { self with control := .idle }

/-- The function waits for a frame.  When the input stream is set to try zero
times, `tk_istream_shdlc_read_frame` reads nothing and its caller looks at the
first byte of a buffer that has no block. -/
def wait (self : Endpoint) (control : Control) (sent : List Item) : Option Reaction :=
  if self.istream.retryTimes = 0 then none else some ({ self with control }, sent)

/-- A pass of the loop of `tk_ostream_shdlc_write` up to the ack. -/
def transmit (self : Endpoint) (w : Write) (id retryTimes : Nat) (sent : List Item) :
    Option Reaction :=
  if retryTimes < self.ostream.retryTimes then
    self.wait (.writing w id retryTimes) (sent ++ [.intact w.frame id])
  else some (self.return_, sent)

/-- The part of `tk_ostream_shdlc_write` that makes the frame and sends it the
first time. -/
def writeFrame (mem : Memory) (self : Endpoint) (compressed : Bool)
    (payload buff : List UInt8) : Option Reaction := do
  let os := self.ostream
  match ← shdlcWriteData mem.realloc os.wb os.seqno compressed payload with
  | (.ok, wb) =>
    let w : Write := ⟨os.seqno, compressed, payload, buff⟩
    let self := { self with ostream := { os with wb, writes := os.writes ++ [w] } }
    self.transmit w os.writes.length 0 []
  | (_, wb) => return ({ self with ostream := { os with wb } }, [])

/-- `tk_ostream_shdlc_write` up to the first ack. -/
def write (mz : Miniz) (mem : Memory) (self : Endpoint) (buff : List UInt8) :
    Option Reaction := do
  let os := self.ostream
  if os.compressThreshold ≤ buff.length then
    match ← mz.compress mem buff os.wbCompress with
    | (.ok, wbCompress) =>
      let self := { self with ostream := { os with wbCompress } }
      self.writeFrame mem true wbCompress.contents buff
    | (_, wbCompress) => return ({ self with ostream := { os with wbCompress } }, [])
  else self.writeFrame mem false buff buff

/-- The write returns the size of its buffer. -/
def acknowledge (self : Endpoint) (w : Write) (id : Nat) : Endpoint :=
  let os := self.ostream
  let ostream := { os with
    seqno := shdlcSeqnoInc os.seqno
    acked := os.acked ++ [(id, w.buff)] }
  { self with ostream, control := .idle }

/-- A frame, or the end of the time, in the loop of `tk_ostream_shdlc_write`. -/
def writeReceive (mz : Miniz) (mem : Memory) (alloc : Option (Nat → UInt8)) (self : Endpoint)
    (w : Write) (id retryTimes : Nat) (r : Received) : Option Reaction := do
  match ← self.istream.readAck mz mem alloc r with
  | (none, istream, sent) => return ({ self with istream }, sent)
  | (some .io, istream, sent) => return ({ self with istream }.return_, sent)
  | (some .ok, istream, sent) => return ({ self with istream }.acknowledge w id, sent)
  | (some _, istream, sent) => transmit { self with istream } w id (retryTimes + 1) sent

/-- `tk_istream_shdlc_read` up to the first frame. -/
def read (self : Endpoint) (maxSize : Nat) : Option Reaction :=
  if 0 < self.istream.rb.size then
    some ({ self with istream := self.istream.readRing maxSize }, [])
  else self.wait (.reading maxSize 0) []

/-- A frame, or the end of the time, in the loop of `tk_istream_shdlc_read`. -/
def readReceive (mz : Miniz) (mem : Memory) (alloc : Option (Nat → UInt8)) (self : Endpoint)
    (maxSize retryTimes : Nat) (r : Received) : Option Reaction :=
  match self.istream.readFrame true retryTimes r with
  | (none, istream, sent) =>
    some ({ self with istream, control := .reading maxSize (retryTimes + 1) }, sent)
  | (some .ok, istream, sent) =>
    if istream.header.type = shdlcData then do
      let (ret, istream, more) ← istream.saveDataFrame mz mem alloc r.id
      let istream := if ret = .ok then istream.readRing maxSize else istream
      return ({ self with istream }.return_, sent ++ more)
    else some ({ self with istream, control := .reading maxSize 0 }, sent)
  | (some _, istream, sent) => some ({ self with istream }.return_, sent)

/-- The function that waits gets a frame, or the time is over. -/
def receive (mz : Miniz) (mem : Memory) (alloc : Option (Nat → UInt8)) (self : Endpoint)
    (r : Received) : Option Reaction :=
  match self.control with
  | .idle => none
  | .writing w id retryTimes => self.writeReceive mz mem alloc w id retryTimes r
  | .reading maxSize retryTimes => self.readReceive mz mem alloc maxSize retryTimes r

end Endpoint

/-! ## The system -/

/-- What can happen at an endpoint and in the channel towards it. -/
inductive Action where
  | write (mem : Memory) (buff : List UInt8)
  | read (maxSize : Nat)
  | receive (mem : Memory) (alloc : Option (Nat → UInt8))
  | timeout (mem : Memory)
  | lose (i : Nat)
  | corrupt (i : Nat) (fault : Fault) (wb : List UInt8)

/-- A step at an endpoint: the endpoint, the channel towards it and the frames it
has sent. -/
def localStep (mz : Miniz) (self : Endpoint) (inbox : List Item) :
    Action → Option (Endpoint × List Item × List Item)
  | .write mem buff =>
    if self.control = .idle ∧ buff.length < 2 ^ 32 then do
      let (self, sent) ← self.write mz mem buff
      return (self, inbox, sent)
    else none
  | .read maxSize =>
    if self.control = .idle ∧ maxSize < 2 ^ 32 then do
      let (self, sent) ← self.read maxSize
      return (self, inbox, sent)
    else none
  | .receive mem alloc =>
    match inbox with
    | [] => none
    | item :: inbox => do
      let (self, sent) ← self.receive mz mem alloc item.received
      return (self, inbox, sent)
  | .timeout mem => do
    let (self, sent) ← self.receive mz mem none ⟨.timeout, self.istream.wb, 0⟩
    return (self, inbox, sent)
  | .lose i => some (self, inbox.eraseIdx i, [])
  | .corrupt i fault wb => some (self, inbox.set i (.broken fault wb), [])

/-- The two endpoints and the channels towards them. -/
structure Pair where
  a : Endpoint
  b : Endpoint
  toA : List Item
  toB : List Item

inductive Side where
  | a
  | b

namespace Pair

def create (propsA propsB : Endpoint.Props) : Option Pair := do
  let a ← Endpoint.create propsA
  let b ← Endpoint.create propsB
  return ⟨a, b, [], []⟩

/-- A step of the pair: an action at one of the sides. -/
def step (mz : Miniz) (s : Pair) : Side × Action → Option Pair
  | (.a, action) => do
    let (a, toA, sent) ← localStep mz s.a s.toA action
    return { s with a, toA, toB := s.toB ++ sent }
  | (.b, action) => do
    let (b, toB, sent) ← localStep mz s.b s.toB action
    return { s with b, toB, toA := s.toA ++ sent }

end Pair

/-! ## Reliable delivery -/

/-- The acknowledged writes of `os` were put into the ring of `is`: each once, in
the order of the acknowledgements, and the ring has got nothing else than the
bytes of the writes it has saved. -/
structure Delivered (os : Ostream) (is : Istream) : Prop where
  once : (is.saved.map (·.1)).Nodup
  sublist : os.acked.Sublist is.saved
  bytes : is.consumed ++ is.rb.contents = (is.saved.map (·.2)).flatten

/-- Both directions deliver. -/
def Pair.Reliable (s : Pair) : Prop :=
  Delivered s.a.ostream s.b.istream ∧ Delivered s.b.ostream s.a.istream

end Awtk.Shdlc
