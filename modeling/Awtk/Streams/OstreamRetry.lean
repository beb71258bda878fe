import Awtk.Lib.Bytes
import Awtk.Tkc.RingBuffer
import Awtk.Lib.Ledger
import Awtk.Lib.Run

/-!
# The retrying output stream

A model of `ostream_retry.c`.  The outcomes of `tk_ostream_write_len` on the real stream are arguments
of the functions, and `accepted` has the bytes that the real stream took.  There is always memory.

The last three fields are not in the source.  They have the packets that were written, the bytes the
real stream took, and the calls whose arguments decide whether something goes wrong.
-/

namespace Awtk

/-- `data_discard_policy_t`. -/
inductive DataDiscardPolicy where
  | old
  | new
  deriving DecidableEq, Repr

namespace OstreamRetry

/-- The outcome of a `tk_ostream_write_len`: an error, or a number of bytes up to which it writes. -/
inductive Outcome where
  | error
  | written (n : Nat)
  deriving DecidableEq, Repr

/-- A call of `tk_ostream_write_len` in a flush, with the size and what the real stream took, or of
`tk_ostream_retry_write_to_buffer`, with the size and the size of the ring buffer. -/
inductive Event where
  | flushed (size taken : Nat)
  | buffered (size pending : Nat)
  deriving DecidableEq, Repr

end OstreamRetry

open OstreamRetry (Event Outcome)

/-- `tk_ostream_retry_t`. -/
structure OstreamRetry where
  pendingBytes : Nat
  pendingPackets : Nat
  discardBytes : Nat
  discardPackets : Nat
  maxRetryTimes : Nat
  discardPolicy : DataDiscardPolicy
  rb : RingBuffer
  retriedTimes : Nat
  written : List (List UInt8)
  accepted : List UInt8
  log : List Event

namespace OstreamRetry

/-- `tk_ostream_retry_create`, with the settings of the retries and of the policy. -/
def create (maxRetryTimes : UInt32) (discardPolicy : DataDiscardPolicy) : Option OstreamRetry :=
  (RingBuffer.create true 1024 4096).map fun rb => {
    pendingBytes := 0
    pendingPackets := 0
    discardBytes := 0
    discardPackets := 0
    maxRetryTimes := maxRetryTimes.toNat
    discardPolicy := discardPolicy
    rb := rb
    retriedTimes := 0
    written := []
    accepted := []
    log := [] }

/-- The `int32_t` that `tk_ostream_write_len` returns, and the bytes that the real stream takes. -/
def Outcome.writeLen (buff : List UInt8) : Outcome → Int × List UInt8
  | .error => (-1, [])
  | .written n =>
    let n := min n (min buff.length (2 ^ 31 - 1))
    (n, buff.take n)

/-- An `int32_t` as a `uint32_t`. -/
def toU32 (n : Int) : Nat := (n % 2 ^ 32).toNat

def clearBuffer (s : OstreamRetry) : OstreamRetry :=
  { s with
    retriedTimes := 0
    discardBytes := U32.add s.discardBytes s.pendingBytes
    discardPackets := U32.add s.discardPackets s.pendingPackets
    rb := s.rb.reset
    pendingBytes := 0
    pendingPackets := 0 }

/-- The end of `tk_ostream_retry_write_to_buffer`, which writes a record. -/
def putRecord (fresh : Nat → UInt8) (s : OstreamRetry) (buff : List UInt8) : OstreamRetry :=
  match s.rb.writeLen (some fresh) (Bytes.ofNat 4 buff.length) with
  | (.ok, rb) =>
    match rb.writeLen (some fresh) buff with
    | (.ok, rb) =>
      { s with
        rb := rb
        pendingBytes := U32.add s.pendingBytes buff.length
        pendingPackets := U32.add s.pendingPackets 1 }
    | (_, rb) => { s with rb := rb }
  | (_, rb) => { s with rb := rb }

/-- `tk_ostream_retry_write_to_buffer`.  New memory has any bytes. -/
def writeToBuffer (fresh : Nat → UInt8) (s : OstreamRetry) (buff : List UInt8) : OstreamRetry :=
  let s : OstreamRetry := { s with log := s.log ++ [.buffered buff.length s.rb.size] }
  let size := U32.add buff.length 4
  match s.rb.ensureWriteSpace (some fresh) size with
  | (.ok, rb) => putRecord fresh { s with rb := rb } buff
  | (_, rb) =>
    let s : OstreamRetry := { s with rb := rb }
    if s.discardPolicy = .new then
      { s with
        discardPackets := U32.add s.discardPackets 1
        discardBytes := U32.add s.discardBytes buff.length }
    else putRecord fresh s.clearBuffer buff

/-- A turn of the loop of `tk_ostream_retry_flush`, which tells whether the loop goes on. -/
def flushTurn (s : OstreamRetry) (outcome : Outcome) : Bool × OstreamRetry :=
  let s := { s with retriedTimes := U32.add s.retriedTimes 1 }
  let (ret, header, rb) := s.rb.peek 4
  let s := { s with rb := rb }
  if ret ≠ 4 then (false, s)
  else
    let size := Bytes.toNat header
    let packetSize := U32.add size 4
    let (ret, packet, rb) := s.rb.peek packetSize
    let s := { s with rb := rb }
    if ret ≠ packetSize then (false, s)
    else
      let (ret, taken) := outcome.writeLen (packet.drop 4)
      let s := { s with
        accepted := s.accepted ++ taken
        log := s.log ++ [.flushed size taken.length] }
      if toU32 ret = size then
        (true, { s with
          retriedTimes := 0
          pendingPackets := U32.sub s.pendingPackets 1
          pendingBytes := U32.sub s.pendingBytes size
          rb := (s.rb.skip packetSize).2 })
      else if s.retriedTimes = s.maxRetryTimes then (false, s.clearBuffer)
      else (false, s)

/-- The loop of `tk_ostream_retry_flush`.  Where there are no more outcomes the real stream fails. -/
def flushLoop : List Outcome → OstreamRetry → OstreamRetry
  | [], s => (s.flushTurn .error).2
  | outcome :: outcomes, s =>
    match s.flushTurn outcome with
    | (true, s) => flushLoop outcomes s
    | (false, s) => s

def flush (s : OstreamRetry) (outcomes : List Outcome) : OstreamRetry :=
  if s.rb.isEmpty then s else flushLoop outcomes s

/-- `tk_ostream_retry_write`, with the outcomes of the flush in front of it, of the direct write, and
of the flush behind it. -/
def write (fresh : Nat → UInt8) (s : OstreamRetry) (buff : List UInt8) (first : List Outcome)
    (direct : Outcome) (second : List Outcome) : OstreamRetry :=
  let s := if 0 < s.rb.size then s.flush first else s
  let s := { s with written := s.written ++ [buff] }
  if 0 < s.rb.size then (writeToBuffer fresh s buff).flush second
  else
    let (ret, taken) := direct.writeLen buff
    let s := { s with accepted := s.accepted ++ taken }
    if ret ≤ 0 then writeToBuffer fresh s buff
    else if toU32 ret < buff.length then writeToBuffer fresh s (buff.drop (toU32 ret))
    else s

end OstreamRetry

end Awtk

/-!
## Runs of the retrying output stream

In a run where the real stream takes all or nothing of a packet that is sent again, and where a packet
that is buffered fits, the ring buffer is a sequence of records and every byte is accounted for once
(`accounted_of_clean`).  A record without its packet is left behind where the packet does not fit.
-/

namespace Awtk.OstreamRetry

open Ledger

variable {s s' s'' : OstreamRetry} {l : List (Fate UInt8)} {p : List UInt8} {ps : List (List UInt8)}
  {buff t : List UInt8} {fresh : Nat → UInt8}

/-! ## Records -/

/-- A length of four bytes and a payload, for each packet. -/
def encode (ps : List (List UInt8)) : List UInt8 :=
  ps.flatMap fun p => Bytes.ofNat 4 p.length ++ p

@[simp] theorem encode_nil : encode [] = [] := rfl

theorem encode_cons (p : List UInt8) (ps : List (List UInt8)) :
    encode (p :: ps) = Bytes.ofNat 4 p.length ++ p ++ encode ps := by simp [encode]

theorem encode_append (ps qs : List (List UInt8)) : encode (ps ++ qs) = encode ps ++ encode qs := by
  simp [encode]

theorem flatten_length_le (ps : List (List UInt8)) :
    ps.flatten.length + ps.length ≤ (encode ps).length := by
  induction ps with
  | nil => exact Nat.le_refl 0
  | cons p ps ih =>
    rw [encode_cons, List.flatten_cons]
    simp only [List.length_append, List.length_cons, Bytes.ofNat_length]
    omega

/-! ## The invariant -/

/-- The counters and the ring buffer are those of a ledger. -/
structure Counted (s : OstreamRetry) (l : List (Fate UInt8)) : Prop where
  ok : s.rb.Ok
  max : s.rb.maxCapacity = 4096
  inOrder : InOrder l
  contents : s.rb.contents = encode (pending l)
  pendingPackets : s.pendingPackets = (pending l).length
  pendingBytes : s.pendingBytes = (pending l).flatten.length
  discardPackets : s.discardPackets = (lost l).length % 2 ^ 32
  discardBytes : s.discardBytes = (lost l).flatten.length % 2 ^ 32

/-- A ledger of the packets that were written and of the bytes that the real stream took. -/
def Inv (s : OstreamRetry) : Prop :=
  ∃ l, Counted s l ∧ packets l = s.written ∧ sent l = s.accepted

/-- In a flush the real stream takes all or nothing, and what is buffered fits. -/
def Event.Clean (policy : DataDiscardPolicy) : Event → Prop
  | .flushed size taken => taken = 0 ∨ taken = size
  | .buffered size pending => size + 4 + pending < 2 ^ 32 ∧ (policy = .old → size + 4 ≤ 4096)

instance (policy : DataDiscardPolicy) : ∀ e : Event, Decidable (e.Clean policy)
  | .flushed size taken => inferInstanceAs (Decidable (taken = 0 ∨ taken = size))
  | .buffered size pending =>
    inferInstanceAs (Decidable (size + 4 + pending < 2 ^ 32 ∧ (policy = .old → size + 4 ≤ 4096)))

/-- All calls until now were clean. -/
def Clean (s : OstreamRetry) : Prop := ∀ e ∈ s.log, e.Clean s.discardPolicy

instance (s : OstreamRetry) : Decidable (Clean s) :=
  inferInstanceAs (Decidable (∀ e ∈ s.log, e.Clean s.discardPolicy))

/-- A part of a call keeps the invariant as long as everything is clean. -/
structure Keeps (s s' : OstreamRetry) : Prop where
  policy : s'.discardPolicy = s.discardPolicy
  log : s.log <+: s'.log
  inv : Clean s' → Inv s → Inv s'

theorem Keeps.clean (h : Keeps s s') (hc : Clean s') : Clean s :=
  fun e he => h.policy ▸ hc e (h.log.subset he)

theorem Keeps.refl (s : OstreamRetry) : Keeps s s := ⟨rfl, List.prefix_rfl, fun _ h => h⟩

theorem Keeps.trans (h : Keeps s s') (h' : Keeps s' s'') : Keeps s s'' where
  policy := h'.policy.trans h.policy
  log := h.log.trans h'.log
  inv := fun hc hi => h'.inv hc (h.inv (h'.clean hc) hi)

/-! ## Bounds -/

theorem Counted.length_le (h : Counted s l) : (encode (pending l)).length ≤ 4096 := by
  rw [← h.contents, RingBuffer.contents_length, ← h.max]
  exact h.ok.size_le.trans h.ok.capacity_le

theorem Counted.size_eq (h : Counted s l) : s.rb.size = (encode (pending l)).length := by
  rw [← h.contents, RingBuffer.contents_length]

theorem Counted.empty_iff (h : Counted s l) : s.rb.size = 0 ↔ pending l = [] := by
  rw [h.size_eq]
  cases pending l with
  | nil => simp
  | cons p ps => simp [encode_cons]

/-! ## Discarding -/

theorem Counted.clearBuffer (h : Counted s l) : Counted s.clearBuffer (dropAll l) := by
  obtain ⟨hok, hcontents, hmax⟩ := h.ok.reset
  have hlost := dropAll_lost l
  refine ⟨hok, hmax.trans h.max, inOrder_of_pending_nil (dropAll_pending l), ?_, ?_, ?_, ?_, ?_⟩
  · rw [dropAll_pending]
    exact hcontents
  · rw [dropAll_pending]
    rfl
  · rw [dropAll_pending]
    rfl
  · show U32.add s.discardPackets s.pendingPackets = _
    rw [hlost.length_eq, List.length_append, h.discardPackets, h.pendingPackets, U32.add,
      Nat.mod_add_mod]
  · show U32.add s.discardBytes s.pendingBytes = _
    rw [hlost.flatten.length_eq, List.flatten_append, List.length_append, h.discardBytes,
      h.pendingBytes, U32.add, Nat.mod_add_mod]

theorem clearBuffer_keeps (s : OstreamRetry) : Keeps s s.clearBuffer := by
  refine ⟨rfl, List.prefix_rfl, fun _ ⟨l, h, hpackets, hsent⟩ => ⟨dropAll l, h.clearBuffer, ?_, ?_⟩⟩
  · rw [dropAll_packets]
    exact hpackets
  · rw [dropAll_sent]
    exact hsent

/-! ## Writing to the buffer -/

theorem writeLen_fits {rb : RingBuffer} (h : rb.Ok) (fresh : Nat → UInt8) (buff : List UInt8)
    (hfits : buff.length + rb.size ≤ rb.maxCapacity) :
    ∃ rb', rb.writeLen (some fresh) buff = (.ok, rb') ∧ rb'.Ok ∧
      rb'.contents = rb.contents ++ buff ∧ rb'.maxCapacity = rb.maxCapacity := by
  have hmax := h.max_lt
  have hroom : rb.HasRoom (some fresh) buff.length := .inr ⟨rfl, hfits⟩
  have hlen : buff.length + rb.size < 2 ^ 32 := by omega
  obtain ⟨rb', hrun, -, -⟩ := h.writeLen_room hroom
  rcases h.writeLen (some fresh) hlen with ⟨-, hok, hcontents, hmax'⟩ | hfail
  · rw [hrun] at hok hcontents hmax'
    exact ⟨rb', hrun, hok, hcontents, hmax'⟩
  · rw [hrun] at hfail
    cases hfail

theorem append_inOrder {f : Fate UInt8} (h : InOrder l) (hf : f.sent = [] ∨ pending l = []) :
    InOrder (l ++ [f]) :=
  hf.elim h.append inOrder_append

theorem pending_append (l : List (Fate UInt8)) (f : Fate UInt8) :
    pending (l ++ [f]) = pending l ++ f.pending.toList := by
  cases f <;> simp [pending, Fate.pending]

theorem lost_append (l : List (Fate UInt8)) (f : Fate UInt8) :
    lost (l ++ [f]) = lost l ++ f.lost.toList := by
  cases f <;> simp [lost, Fate.lost]

/-- A record that fits is written. -/
theorem Counted.putRecord (h : Counted s l) (ht : t = [] ∨ pending l = [])
    (hfits : buff.length + 4 + s.rb.size ≤ 4096) :
    Counted (putRecord fresh s buff) (l ++ [.waiting t buff]) := by
  have hmax := h.max
  have hlen : (Bytes.ofNat 4 buff.length).length = 4 := Bytes.ofNat_length ..
  obtain ⟨rb₁, hrun₁, hok₁, hcontents₁, hmax₁⟩ :=
    writeLen_fits h.ok fresh (Bytes.ofNat 4 buff.length) (by omega)
  have hsize₁ : rb₁.size = s.rb.size + 4 := by
    rw [← RingBuffer.contents_length, hcontents₁, List.length_append, hlen,
      RingBuffer.contents_length]
  obtain ⟨rb₂, hrun₂, hok₂, hcontents₂, hmax₂⟩ :=
    writeLen_fits hok₁ fresh buff (by omega)
  have hbytes := flatten_length_le (pending l)
  have hsize := h.size_eq
  rw [OstreamRetry.putRecord, hrun₁]
  simp only [hrun₂]
  have hpending : pending (l ++ [Fate.waiting t buff]) = pending l ++ [buff] := pending_append ..
  have hlost : lost (l ++ [Fate.waiting t buff]) = lost l := by
    rw [lost_append]
    exact List.append_nil _
  constructor
  · exact hok₂
  · exact hmax₂.trans (hmax₁.trans hmax)
  · exact append_inOrder h.inOrder ht
  · show rb₂.contents = _
    rw [hcontents₂, hcontents₁, h.contents, hpending, encode_append, encode_cons, encode_nil,
      List.append_nil, List.append_assoc]
  · show U32.add s.pendingPackets 1 = _
    rw [hpending, h.pendingPackets, List.length_append, List.length_singleton,
      U32.add_of_lt (by omega)]
  · show U32.add s.pendingBytes buff.length = _
    rw [hpending, h.pendingBytes, List.flatten_append, List.flatten_singleton, List.length_append,
      U32.add_of_lt (by omega)]
  · rw [hlost]
    exact h.discardPackets
  · rw [hlost]
    exact h.discardBytes

theorem Counted.dropNew (h : Counted s l) (ht : t = [] ∨ pending l = []) :
    Counted { s with
      discardPackets := U32.add s.discardPackets 1
      discardBytes := U32.add s.discardBytes buff.length } (l ++ [.dropped t buff]) := by
  have hlost : lost (l ++ [Fate.dropped t buff]) = lost l ++ [buff] := lost_append ..
  have hpending : pending (l ++ [Fate.dropped t buff]) = pending l := by
    rw [pending_append]
    exact List.append_nil _
  constructor
  · exact h.ok
  · exact h.max
  · exact append_inOrder h.inOrder ht
  · rw [hpending]
    exact h.contents
  · rw [hpending]
    exact h.pendingPackets
  · rw [hpending]
    exact h.pendingBytes
  · show U32.add s.discardPackets 1 = _
    rw [hlost, h.discardPackets, U32.add, Nat.mod_add_mod, List.length_append,
      List.length_singleton]
  · show U32.add s.discardBytes buff.length = _
    rw [hlost, h.discardBytes, U32.add, Nat.mod_add_mod, List.flatten_append,
      List.flatten_singleton, List.length_append]

/-- A packet or its rest is buffered, or dropped. -/
theorem Counted.writeToBuffer (h : Counted s l) (fresh : Nat → UInt8) (ht : t = [] ∨ pending l = [])
    (hclean : (Event.buffered buff.length s.rb.size).Clean s.discardPolicy) :
    ∃ l', Counted (writeToBuffer fresh s buff) l' ∧ packets l' = packets l ++ [t ++ buff] ∧
      sent l' = sent l ++ t := by
  obtain ⟨hlt, hold⟩ := hclean
  have hmax := h.max
  have hroom : U32.add buff.length 4 = buff.length + 4 := U32.add_of_lt (by omega)
  -- The packet waits behind those that are left, which are all or none of them.
  have hput : ∀ (s' : OstreamRetry) (l' : List (Fate UInt8)), Counted s' l' →
      (t = [] ∨ pending l' = []) → packets l' = packets l → sent l' = sent l →
      buff.length + 4 + s'.rb.size ≤ 4096 →
      ∃ l'', Counted (OstreamRetry.putRecord fresh s' buff) l'' ∧
        packets l'' = packets l ++ [t ++ buff] ∧ sent l'' = sent l ++ t := by
    intro s' l' h' ht' hpackets hsent hfits
    refine ⟨l' ++ [.waiting t buff], h'.putRecord ht' hfits, ?_, ?_⟩
    · rw [← hpackets]
      simp [packets, Fate.packet]
    · rw [← hsent]
      simp [sent, Fate.sent]
  have hlog : Counted { s with log := s.log ++ [.buffered buff.length s.rb.size] } l :=
    ⟨h.ok, h.max, h.inOrder, h.contents, h.pendingPackets, h.pendingBytes, h.discardPackets,
      h.discardBytes⟩
  simp only [OstreamRetry.writeToBuffer, hroom]
  rcases h.ok.ensureWriteSpace_cases (some fresh) (n := buff.length + 4) (by omega) with
    ⟨hfit, he⟩ | ⟨-, ret, hret, he⟩ | ⟨hfit, hgrow, data, he⟩
  · rw [he]
    have hfree := h.ok.freeSize_eq
    have hcapacity := h.ok.capacity_le
    exact hput _ l hlog ht rfl rfl (by show buff.length + 4 + s.rb.size ≤ 4096; omega)
  · rw [he]
    by_cases hpolicy : s.discardPolicy = .new
    · refine ⟨l ++ [.dropped t buff], ?_, by simp [packets, Fate.packet], by simp [sent, Fate.sent]⟩
      cases ret with
      | ok => exact absurd rfl hret
      | _ =>
        simp only [if_pos hpolicy]
        exact hlog.dropNew ht
    · have hclear := hlog.clearBuffer
      have hempty := hclear.empty_iff.mpr (dropAll_pending l)
      have hpolicy' : s.discardPolicy = .old := by
        cases h : s.discardPolicy with
        | old => rfl
        | new => exact absurd h hpolicy
      have hresult := hput _ _ hclear (.inr (dropAll_pending l)) (dropAll_packets l) (dropAll_sent l)
        (by rw [hempty]; exact hold hpolicy')
      cases ret with
      | ok => exact absurd rfl hret
      | _ =>
        simp only [if_neg hpolicy]
        exact hresult
  · rw [he]
    have hlt' : s.rb.size < buff.length + 4 + s.rb.size := by omega
    have hgrown : Counted { s with
        log := s.log ++ [.buffered buff.length s.rb.size]
        rb := s.rb.grow data (buff.length + 4 + s.rb.size) } l :=
      ⟨h.ok.grow data hlt' hgrow, hmax, h.inOrder, (h.ok.grow_contents data hlt' hgrow).trans h.contents,
        h.pendingPackets, h.pendingBytes, h.discardPackets, h.discardBytes⟩
    refine hput _ l hgrown ht rfl rfl ?_
    show buff.length + 4 + (s.rb.grow data (buff.length + 4 + s.rb.size)).size ≤ 4096
    rw [h.ok.grow_size data hlt' hgrow]
    omega

theorem putRecord_frame (fresh : Nat → UInt8) (s : OstreamRetry) (buff : List UInt8) :
    (OstreamRetry.putRecord fresh s buff).discardPolicy = s.discardPolicy ∧
      (OstreamRetry.putRecord fresh s buff).log = s.log ∧
      (OstreamRetry.putRecord fresh s buff).written = s.written ∧
      (OstreamRetry.putRecord fresh s buff).accepted = s.accepted := by
  simp only [OstreamRetry.putRecord]
  split
  · split
    · exact ⟨rfl, rfl, rfl, rfl⟩
    · exact ⟨rfl, rfl, rfl, rfl⟩
  · exact ⟨rfl, rfl, rfl, rfl⟩

theorem writeToBuffer_frame (fresh : Nat → UInt8) (s : OstreamRetry) (buff : List UInt8) :
    (writeToBuffer fresh s buff).discardPolicy = s.discardPolicy ∧
      (writeToBuffer fresh s buff).log = s.log ++ [.buffered buff.length s.rb.size] ∧
      (writeToBuffer fresh s buff).written = s.written ∧
      (writeToBuffer fresh s buff).accepted = s.accepted := by
  simp only [OstreamRetry.writeToBuffer]
  split
  · exact putRecord_frame ..
  · split
    · exact ⟨rfl, rfl, rfl, rfl⟩
    · exact putRecord_frame ..

/-! ## The outcomes of the real stream -/

theorem writeLen_all {o : Outcome} (hp : p.length < 2 ^ 31)
    (h : toU32 (o.writeLen p).1 = p.length) : (o.writeLen p).2 = p := by
  cases o with
  | error =>
    have hmax : toU32 (Outcome.error.writeLen p).1 = 2 ^ 32 - 1 := rfl
    omega
  | written n =>
    simp only [Outcome.writeLen, toU32] at h ⊢
    exact List.take_of_length_le (by omega)

theorem writeLen_none {o : Outcome} (hp : p.length < 2 ^ 31)
    (h : toU32 (o.writeLen p).1 ≠ p.length)
    (hclean : (Event.flushed p.length (o.writeLen p).2.length).Clean s.discardPolicy) :
    (o.writeLen p).2 = [] := by
  cases o with
  | error => rfl
  | written n =>
    simp only [Outcome.writeLen, toU32, Event.Clean, List.length_take] at h hclean ⊢
    exact List.eq_nil_of_length_eq_zero (by rw [List.length_take]; omega)

/-! ## Flushing -/

theorem Counted.flushTurn_nil (h : Counted s l) (hp : pending l = []) (o : Outcome) :
    s.flushTurn o = (false, { s with retriedTimes := U32.add s.retriedTimes 1 }) := by
  have hsize : s.rb.size = 0 := h.empty_iff.mpr hp
  simp [flushTurn, h.ok.peek_eq, hsize]

/-- The state after the real stream was given the first packet that waits. -/
def sentTo (s : OstreamRetry) (o : Outcome) (p : List UInt8) : OstreamRetry :=
  { s with
    retriedTimes := U32.add s.retriedTimes 1
    accepted := s.accepted ++ (o.writeLen p).2
    log := s.log ++ [.flushed p.length (o.writeLen p).2.length] }

/-- The state where the first packet that waits is gone. -/
def skipped (s : OstreamRetry) (p : List UInt8) : OstreamRetry :=
  { s with
    retriedTimes := 0
    pendingPackets := U32.sub s.pendingPackets 1
    pendingBytes := U32.sub s.pendingBytes p.length
    rb := s.rb.consume (p.length + 4) }

/-- A turn sends the first packet that waits. -/
theorem Counted.flushTurn_cons (h : Counted s l) (hp : pending l = p :: ps) (o : Outcome) :
    s.flushTurn o =
      if toU32 (o.writeLen p).1 = p.length then (true, (s.sentTo o p).skipped p)
      else if (s.sentTo o p).retriedTimes = s.maxRetryTimes then (false, (s.sentTo o p).clearBuffer)
      else (false, s.sentTo o p) := by
  have hcontents := h.contents
  have hle := h.length_le
  have hsize := h.size_eq
  rw [hp, encode_cons] at hcontents hle hsize
  have hlen : (Bytes.ofNat 4 p.length).length = 4 := Bytes.ofNat_length ..
  simp only [List.length_append, hlen] at hle hsize
  have hheader : s.rb.contents.take 4 = Bytes.ofNat 4 p.length := by
    rw [hcontents, List.append_assoc, List.take_left' hlen]
  have hnat : Bytes.toNat (Bytes.ofNat 4 p.length) = p.length := by
    rw [Bytes.toNat_ofNat]
    exact Nat.mod_eq_of_lt (by omega)
  have hadd : U32.add p.length 4 = p.length + 4 := U32.add_of_lt (by omega)
  have hpacket : (s.rb.contents.take (p.length + 4)).drop 4 = p := by
    have hrecord : (Bytes.ofNat 4 p.length ++ p).length = p.length + 4 := by
      rw [List.length_append, hlen, Nat.add_comm]
    rw [hcontents, List.take_left' hrecord, List.drop_left' hlen]
  have hr := h.ok.r_lt
  have hcapacity := h.ok.capacity_le
  have hmax := h.max
  have hskip : (s.rb.skip (p.length + 4)).2 = s.rb.consume (p.length + 4) := by
    rw [RingBuffer.skip_eq (fun _ => by omega), if_pos (by omega)]
  have hmin₁ : min 4 s.rb.size = 4 := by omega
  have hmin₂ : min (p.length + 4) s.rb.size = p.length + 4 := by omega
  simp only [flushTurn, h.ok.peek_eq, hmin₁, hmin₂, hheader, hnat, hadd, hpacket, hskip, ne_eq,
    not_true_eq_false, if_false]
  rfl

/-- The ledger after the first packet that waits was sent. -/
theorem Counted.delivered {o : Outcome} (h : Counted s l) (hp : pending l = p :: ps) :
    Counted ((s.sentTo o p).skipped p) (Ledger.deliver l) := by
  have hle := h.length_le
  have hbytes := flatten_length_le (pending l)
  have hcontents := h.contents
  have hsize := h.size_eq
  have hpackets := h.pendingPackets
  have hpending := h.pendingBytes
  rw [hp] at hle hbytes hcontents hsize hpackets hpending
  rw [List.flatten_cons, List.length_append, List.length_cons] at hbytes
  rw [List.flatten_cons, List.length_append] at hpending
  rw [List.length_cons] at hpackets
  have hlen : (Bytes.ofNat 4 p.length ++ p).length = p.length + 4 := by
    rw [List.length_append, Bytes.ofNat_length, Nat.add_comm]
  have hrecord : p.length + 4 ≤ s.rb.size := by
    rw [hsize, encode_cons, List.length_append, hlen]
    exact Nat.le_add_right ..
  have htail : pending (Ledger.deliver l) = ps := by rw [deliver_pending, hp, List.tail_cons]
  constructor
  · show (s.rb.consume (p.length + 4)).Ok
    exact h.ok.consume _
  · exact (RingBuffer.consume_maxCapacity ..).trans h.max
  · exact h.inOrder.deliver
  · show (s.rb.consume (p.length + 4)).contents = _
    rw [h.ok.consume_contents hrecord, hcontents, encode_cons, List.drop_left' hlen, htail]
  · show U32.sub s.pendingPackets 1 = _
    rw [hpackets, htail, U32.sub_of_le (by omega) (by omega), Nat.add_sub_cancel]
  · show U32.sub s.pendingBytes p.length = _
    rw [hpending, htail, U32.sub_of_le (by omega) (by omega), Nat.add_sub_cancel_left]
  · rw [deliver_lost]
    exact h.discardPackets
  · rw [deliver_lost]
    exact h.discardBytes

theorem flushTurn_log (s : OstreamRetry) (o : Outcome) : s.log <+: (s.flushTurn o).2.log := by
  simp only [flushTurn]
  split
  · exact List.prefix_rfl
  · split
    · exact List.prefix_rfl
    · split
      · exact List.prefix_append ..
      · split
        · exact List.prefix_append ..
        · exact List.prefix_append ..

theorem flushTurn_policy (s : OstreamRetry) (o : Outcome) :
    (s.flushTurn o).2.discardPolicy = s.discardPolicy := by
  simp only [flushTurn]
  split
  · rfl
  · split
    · rfl
    · split
      · rfl
      · split <;> rfl

theorem flushTurn_keeps (s : OstreamRetry) (o : Outcome) : Keeps s (s.flushTurn o).2 := by
  refine ⟨flushTurn_policy s o, flushTurn_log s o, fun hc ⟨l, h, hpackets, hsent⟩ => ?_⟩
  cases hp : pending l with
  | nil =>
    rw [h.flushTurn_nil hp]
    exact ⟨l, ⟨h.ok, h.max, h.inOrder, h.contents, h.pendingPackets, h.pendingBytes,
      h.discardPackets, h.discardBytes⟩, hpackets, hsent⟩
  | cons p ps =>
    have hle := h.length_le
    rw [hp, encode_cons, List.length_append, List.length_append] at hle
    have hp31 : p.length < 2 ^ 31 := by omega
    rw [h.flushTurn_cons hp] at hc ⊢
    by_cases hall : toU32 (o.writeLen p).1 = p.length
    · rw [if_pos hall]
      refine ⟨Ledger.deliver l, h.delivered hp, ?_, ?_⟩
      · rw [deliver_packets]
        exact hpackets
      · rw [h.inOrder.deliver_sent hp, hsent]
        show s.accepted ++ p = s.accepted ++ (o.writeLen p).2
        rw [writeLen_all hp31 hall]
    · rw [if_neg hall] at hc ⊢
      have hclean : (Event.flushed p.length (o.writeLen p).2.length).Clean s.discardPolicy := by
        split at hc
        · exact hc _ (List.mem_append_right _ List.mem_cons_self)
        · exact hc _ (List.mem_append_right _ List.mem_cons_self)
      have hnone := writeLen_none hp31 hall hclean
      have hinv : Inv (s.sentTo o p) := by
        refine ⟨l, ⟨h.ok, h.max, h.inOrder, h.contents, h.pendingPackets, h.pendingBytes,
          h.discardPackets, h.discardBytes⟩, hpackets, ?_⟩
        show _ = s.accepted ++ (o.writeLen p).2
        rw [hnone, List.append_nil, hsent]
      split at hc
      case isTrue hretry =>
        rw [if_pos hretry]
        exact (clearBuffer_keeps _).inv hc hinv
      case isFalse hretry =>
        rw [if_neg hretry]
        exact hinv

theorem flushLoop_keeps (os : List Outcome) : ∀ s : OstreamRetry, Keeps s (flushLoop os s) := by
  induction os with
  | nil => exact fun s => flushTurn_keeps s .error
  | cons o os ih =>
    intro s
    have hturn := flushTurn_keeps s o
    rw [flushLoop]
    split
    case h_1 s' heq =>
      rw [heq] at hturn
      exact hturn.trans (ih s')
    case h_2 s' heq =>
      rw [heq] at hturn
      exact hturn

theorem flush_keeps (s : OstreamRetry) (os : List Outcome) : Keeps s (s.flush os) := by
  rw [flush]
  split
  case isTrue => exact .refl s
  case isFalse => exact flushLoop_keeps os s

/-! ## Writing -/

/-- The state after a packet was written of which the real stream took the part in front. -/
def noted (s : OstreamRetry) (packet t : List UInt8) : OstreamRetry :=
  { s with written := s.written ++ [packet], accepted := s.accepted ++ t }

theorem writeToBuffer_keeps (fresh : Nat → UInt8) (s : OstreamRetry) (t buff : List UInt8)
    (hb : ∀ l, Counted s l → t = [] ∨ pending l = []) :
    Keeps s (writeToBuffer fresh (s.noted (t ++ buff) t) buff) := by
  obtain ⟨hpolicy, hlog, hwritten, haccepted⟩ :=
    writeToBuffer_frame fresh (s.noted (t ++ buff) t) buff
  refine ⟨hpolicy, ?_, fun hc ⟨l, h, hpackets, hsent⟩ => ?_⟩
  · rw [hlog]
    exact List.prefix_append ..
  · have hnoted : Counted (s.noted (t ++ buff) t) l :=
      ⟨h.ok, h.max, h.inOrder, h.contents, h.pendingPackets, h.pendingBytes, h.discardPackets,
        h.discardBytes⟩
    have hclean : (Event.buffered buff.length s.rb.size).Clean s.discardPolicy := by
      have hmem := hc (.buffered buff.length s.rb.size) (by
        rw [hlog]
        exact List.mem_append_right _ List.mem_cons_self)
      rwa [hpolicy] at hmem
    obtain ⟨l', h', hpackets', hsent'⟩ := hnoted.writeToBuffer fresh (hb l h) hclean
    refine ⟨l', h', ?_, ?_⟩
    · rw [hpackets', hpackets, hwritten]
      rfl
    · rw [hsent', hsent, haccepted]
      rfl

theorem noted_keeps (hb : ∀ l, Counted s l → pending l = []) : Keeps s (s.noted p p) := by
  refine ⟨rfl, List.prefix_rfl, fun _ ⟨l, h, hpackets, hsent⟩ => ?_⟩
  have hpending : pending (l ++ [Fate.delivered p]) = pending l := by
    rw [pending_append]
    exact List.append_nil _
  have hlost : lost (l ++ [Fate.delivered p]) = lost l := by
    rw [lost_append]
    exact List.append_nil _
  refine ⟨l ++ [.delivered p], ⟨h.ok, h.max, inOrder_append (hb l h), ?_, ?_, ?_, ?_, ?_⟩, ?_, ?_⟩
  · rw [hpending]
    exact h.contents
  · rw [hpending]
    exact h.pendingPackets
  · rw [hpending]
    exact h.pendingBytes
  · rw [hlost]
    exact h.discardPackets
  · rw [hlost]
    exact h.discardBytes
  · simp [packets, Fate.packet, noted, ← hpackets]
  · simp [sent, Fate.sent, noted, ← hsent]

theorem write_keeps (s : OstreamRetry) (first : List Outcome) (direct : Outcome)
    (second : List Outcome) :
    Keeps s (write fresh s p first direct second) := by
  have hfirst : Keeps s (if 0 < s.rb.size then s.flush first else s) := by
    split
    · exact flush_keeps s first
    · exact .refl s
  simp only [OstreamRetry.write]
  generalize (if 0 < s.rb.size then s.flush first else s) = s₁ at hfirst ⊢
  refine hfirst.trans ?_
  by_cases hsize : 0 < s₁.rb.size
  · rw [if_pos hsize]
    have hkeep := writeToBuffer_keeps fresh s₁ [] p fun _ _ => .inl rfl
    rw [noted, List.append_nil, List.nil_append] at hkeep
    exact hkeep.trans (flush_keeps _ _)
  · rw [if_neg hsize]
    have hb : ∀ l, Counted s₁ l → pending l = [] := fun l h => h.empty_iff.mp (by omega)
    -- The real stream takes the packet in front, and the rest goes to the buffer.
    have hpart : ∀ n, Keeps s₁ (writeToBuffer fresh (s₁.noted p (p.take n)) (p.drop n)) := by
      intro n
      have hkeep := writeToBuffer_keeps fresh s₁ (p.take n) (p.drop n) fun l h => .inr (hb l h)
      rwa [List.take_append_drop] at hkeep
    cases direct with
    | error => exact hpart 0
    | written n =>
      obtain ⟨m, hm⟩ : ∃ m, min n (min p.length (2 ^ 31 - 1)) = m := ⟨_, rfl⟩
      have hu32 : toU32 (m : Int) = m := by
        rw [toU32]
        omega
      simp only [Outcome.writeLen, hm]
      split
      case isTrue hzero =>
        obtain rfl : m = 0 := by omega
        exact hpart 0
      case isFalse =>
        split
        case isTrue =>
          rw [hu32]
          exact hpart m
        case isFalse hall =>
          rw [hu32, Nat.not_lt] at hall
          rw [List.take_of_length_le hall]
          exact noted_keeps hb

/-! ## Runs -/

/-- A call of the stream, with the outcomes of the real stream. -/
inductive Op where
  | write (fresh : Nat → UInt8) (buff : List UInt8) (first : List Outcome) (direct : Outcome)
      (second : List Outcome)
  | flush (outcomes : List Outcome)

/-- One call. -/
def step (s : OstreamRetry) : Op → OstreamRetry
  | .write fresh buff first direct second => OstreamRetry.write fresh s buff first direct second
  | .flush outcomes => s.flush outcomes

/-- Some calls. -/
def run (s : OstreamRetry) (ops : List Op) : OstreamRetry := ops.foldl step s

theorem step_keeps (s : OstreamRetry) (op : Op) : Keeps s (step s op) := by
  cases op with
  | write fresh buff first direct second => exact write_keeps s first direct second
  | flush outcomes => exact flush_keeps s outcomes

theorem run_keeps (ops : List Op) : ∀ s : OstreamRetry, Keeps s (run s ops) := by
  induction ops with
  | nil => exact .refl
  | cons op ops ih =>
    intro s
    exact (step_keeps s op).trans (ih (step s op))

/-- The ring buffer is a sequence of records, as many as the counters have, and every byte of the packets
is sent, waits or was dropped, in order and once. -/
def Accounted (s : OstreamRetry) : Prop :=
  ∃ l : List (Fate UInt8),
    s.rb.contents = encode (pending l) ∧
    s.pendingPackets = (pending l).length ∧
    s.pendingBytes = (pending l).flatten.length ∧
    s.written = packets l ∧
    s.accepted = sent l ∧
    s.accepted ++ (pending l).flatten = kept l ∧
    s.discardPackets = (lost l).length % 2 ^ 32 ∧
    s.discardBytes = (lost l).flatten.length % 2 ^ 32

theorem Inv.accounted (h : Inv s) : Accounted s := by
  obtain ⟨l, h, hpackets, hsent⟩ := h
  refine ⟨l, h.contents, h.pendingPackets, h.pendingBytes, hpackets.symm, hsent.symm, ?_,
    h.discardPackets, h.discardBytes⟩
  rw [h.inOrder.kept_eq, hsent]

theorem create_inv {maxRetryTimes : UInt32} {policy : DataDiscardPolicy}
    (h : create maxRetryTimes policy = some s) : Inv s := by
  obtain ⟨rb, hrb, rfl⟩ := Option.map_eq_some_iff.mp h
  obtain ⟨hok, hcontents, hmax⟩ := RingBuffer.create_ok hrb
  exact ⟨[], ⟨hok, hmax, trivial, hcontents, rfl, rfl, rfl, rfl⟩, rfl, rfl⟩

/-- As long as all calls were clean, every byte is accounted for. -/
theorem accounted_of_clean {maxRetryTimes : UInt32} {policy : DataDiscardPolicy}
    (h : create maxRetryTimes policy = some s) {ops : List Op} (hclean : Clean (run s ops)) :
    ∀ pre, pre <+: ops → Accounted (run s pre) := by
  rintro pre ⟨rest, rfl⟩
  have happend : run s (pre ++ rest) = run (run s pre) rest := List.foldl_append
  rw [happend] at hclean
  have hpre := (run_keeps rest (run s pre)).clean hclean
  exact ((run_keeps pre s).inv hpre (create_inv h)).accounted

theorem Accounted.length_le (h : Accounted s) : s.accepted.length ≤ s.written.flatten.length := by
  obtain ⟨l, -, -, -, hwritten, haccepted, -, -, -⟩ := h
  rw [hwritten, haccepted]
  exact sent_length_le l

/-- A packet of two bytes that the real stream takes at the second try. -/
def retriedOps : List Op :=
  [.write (fun _ => 0) [1, 2] [] .error [], .flush [.error], .flush [.written 2]]

theorem accounted_of_clean_retried : ∃ s, create 10 .old = some s ∧
    ∀ pre, pre <+: retriedOps → Accounted (run s pre) :=
  ⟨_, rfl, accounted_of_clean rfl (by decide)⟩

/-- A packet of two bytes, where the real stream takes one byte and fails, and takes two bytes at the
second try. -/
def partialOps : List Op :=
  [.write (fun _ => 0) [1, 2] [] .error [], .flush [.written 1], .flush [.written 2]]

/-- The first byte is sent twice. -/
theorem partial_not_accounted : ∃ s, create 10 .old = some s ∧
    (run s partialOps).accepted = [1, 1, 2] ∧ ¬ Accounted (run s partialOps) := by
  refine ⟨_, rfl, by decide, fun h => absurd h.length_le (by decide)⟩

end Awtk.OstreamRetry
