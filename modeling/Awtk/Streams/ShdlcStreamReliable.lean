import Mathlib
import Awtk.Streams.ShdlcStream

/-!
# Reliable delivery of the stream pair

A sequence number has three bits, an ack is taken without a look at it, and a
write that failed leaves it where it was.  So the pair does not deliver on its
own (`strayAck_not_reliable`).  `Proper` is what it relies on: an ack answers the
write that waits for it, a frame with the last sequence number is the last frame
again, and there is room for a frame that is new.  In every run whose steps are
proper both directions deliver (`reliable_of_run`).

`Link` is the invariant of one direction.  It speaks about the numbers of the
writes, and each primitive step of either end has a lemma.
-/

namespace Awtk.Shdlc

open List Option

/-! ## What a channel carries -/

def Item.data? : Item → Option (Nat × Frame)
  | .intact (.data seqno compressed payload) id => some (id, .data seqno compressed payload)
  | _ => none

def Item.ack? : Item → Option Nat
  | .intact (.ack _) id => some id
  | _ => none

/-- The data frames in a channel, with the numbers of their writes. -/
def dataOf (items : List Item) : List (Nat × Frame) := items.filterMap Item.data?

/-- The writes answered by the acks in a channel. -/
def acksOf (items : List Item) : List Nat := items.filterMap Item.ack?

@[simp] theorem dataOf_append (xs ys : List Item) : dataOf (xs ++ ys) = dataOf xs ++ dataOf ys :=
  filterMap_append

@[simp] theorem acksOf_append (xs ys : List Item) : acksOf (xs ++ ys) = acksOf xs ++ acksOf ys :=
  filterMap_append

theorem filterMap_set_sublist {α β : Type*} {f : α → Option β} {a : α} (ha : f a = none) :
    ∀ (xs : List α) (i : Nat), ((xs.set i a).filterMap f).Sublist (xs.filterMap f)
  | [], _ => .slnil
  | x :: xs, 0 => by
    rw [set_cons_zero, filterMap_cons_none ha]
    exact (sublist_cons_self x xs).filterMap f
  | x :: xs, i + 1 => by
    rw [set_cons_succ]
    cases hx : f x with
    | none =>
      rw [filterMap_cons_none hx, filterMap_cons_none hx]
      exact filterMap_set_sublist ha xs i
    | some y =>
      rw [filterMap_cons_some hx, filterMap_cons_some hx]
      exact (filterMap_set_sublist ha xs i).cons_cons y

theorem eraseIdx_carries (items : List Item) (i : Nat) :
    (dataOf (items.eraseIdx i)).Sublist (dataOf items) ∧ acksOf (items.eraseIdx i) ⊆ acksOf items :=
  ⟨(eraseIdx_sublist items i).filterMap _,
    ((eraseIdx_sublist items i).filterMap _).subset⟩

theorem set_broken_carries (items : List Item) (i : Nat) (fault : Fault) (wb : List UInt8) :
    (dataOf (items.set i (.broken fault wb))).Sublist (dataOf items) ∧
      acksOf (items.set i (.broken fault wb)) ⊆ acksOf items :=
  ⟨filterMap_set_sublist rfl items i, (filterMap_set_sublist rfl items i).subset⟩

/-! ## The invariant -/

/-- The frame of a write carries its bytes. -/
def Write.Encodes (mz : Miniz) (w : Write) : Prop :=
  if w.compressed then ∃ heap room, mz.mzCompress2 heap room w.buff = some w.payload
  else w.payload = w.buff

theorem Write.encodes_plain {mz : Miniz} (seqno : UInt8) (buff : List UInt8) :
    (Write.mk seqno false buff buff).Encodes mz := rfl

theorem Write.encodes_compressed {mz : Miniz} (seqno : UInt8) {heap : Bool} {room : Nat}
    {payload buff : List UInt8} (h : mz.mzCompress2 heap room buff = some payload) :
    (Write.mk seqno true payload buff).Encodes mz :=
  ⟨heap, room, h⟩

/-- One direction: the writes of the sender, where it waits, what the receiver
has saved, the data frames under way and the acks under way back. -/
structure Link (mz : Miniz) (writes : List Write) (acked : List (Nat × List UInt8))
    (control : Control) (saved : List (Nat × List UInt8)) (lastSeqno : UInt8)
    (frames : List (Nat × Frame)) (acks : List Nat) : Prop where
  encodes : ∀ w ∈ writes, w.Encodes mz
  logged : ∀ d ∈ frames, ∃ w, writes[d.1]? = some w ∧ w.frame = d.2
  ordered : frames.Pairwise (·.1 ≤ ·.1)
  fresh : ∀ d ∈ frames, ∀ e ∈ saved, e.1 ≤ d.1
  saved_logged : ∀ e ∈ saved, ∃ w, writes[e.1]? = some w ∧ w.buff = e.2
  increasing : saved.Pairwise (·.1 < ·.1)
  last : ∀ e, saved.getLast? = some e → ∃ w, writes[e.1]? = some w ∧ lastSeqno = w.seqno &&& 7
  acks_saved : ∀ id ∈ acks, ∃ e ∈ saved, e.1 = id
  acked_saved : ∀ e ∈ acked, e ∈ saved
  acked_increasing : acked.Pairwise (·.1 < ·.1)
  acked_lt : ∀ e ∈ acked, e.1 < writes.length
  waiting : ∀ w id retryTimes, control = .writing w id retryTimes →
    writes[id]? = some w ∧ writes.length = id + 1 ∧ ∀ e ∈ acked, e.1 < id

namespace Link

variable {mz : Miniz} {writes : List Write} {acked saved : List (Nat × List UInt8)}
  {control : Control} {lastSeqno : UInt8} {frames frames' : List (Nat × Frame)}
  {acks acks' : List Nat} {w : Write} {id retryTimes : Nat}

theorem init : Link mz [] [] .idle [] 0xff [] [] where
  encodes := nofun
  logged := nofun
  ordered := .nil
  fresh := nofun
  saved_logged := nofun
  increasing := .nil
  last := nofun
  acks_saved := nofun
  acked_saved := nofun
  acked_increasing := .nil
  acked_lt := nofun
  waiting := nofun

theorem lossy (h : Link mz writes acked control saved lastSeqno frames acks)
    (hf : frames'.Sublist frames) (ha : acks' ⊆ acks) :
    Link mz writes acked control saved lastSeqno frames' acks' where
  encodes := h.encodes
  logged d hd := h.logged d (hf.subset hd)
  ordered := h.ordered.sublist hf
  fresh d hd := h.fresh d (hf.subset hd)
  saved_logged := h.saved_logged
  increasing := h.increasing
  last := h.last
  acks_saved id hid := h.acks_saved id (ha hid)
  acked_saved := h.acked_saved
  acked_increasing := h.acked_increasing
  acked_lt := h.acked_lt
  waiting := h.waiting

theorem leave (h : Link mz writes acked control saved lastSeqno frames acks) {control' : Control}
    (hc : ∀ w id retryTimes, control' ≠ .writing w id retryTimes) :
    Link mz writes acked control' saved lastSeqno frames acks :=
  { h with waiting := fun w id r he => absurd he (hc w id r) }

/-- The sender logs a new write. -/
theorem start (h : Link mz writes acked control saved lastSeqno frames acks)
    (hw : w.Encodes mz) :
    Link mz (writes ++ [w]) acked (.writing w writes.length retryTimes) saved lastSeqno frames
      acks := by
  have hmono {i : Nat} {v : Write} (hv : writes[i]? = some v) : (writes ++ [w])[i]? = some v := by
    rw [getElem?_append_left (List.getElem?_eq_some_iff.mp hv).1]
    exact hv
  exact {
    encodes := by
      intro v hv
      cases mem_append.mp hv with
      | inl hv => exact h.encodes v hv
      | inr hv => exact mem_singleton.mp hv ▸ hw
    logged := fun d hd => (h.logged d hd).imp fun _ hv => ⟨hmono hv.1, hv.2⟩
    ordered := h.ordered
    fresh := h.fresh
    saved_logged := fun e he => (h.saved_logged e he).imp fun _ hv => ⟨hmono hv.1, hv.2⟩
    increasing := h.increasing
    last := fun e he => (h.last e he).imp fun _ hv => ⟨hmono hv.1, hv.2⟩
    acks_saved := h.acks_saved
    acked_saved := h.acked_saved
    acked_increasing := h.acked_increasing
    acked_lt := by
      intro e he
      have := h.acked_lt e he
      rw [length_append]
      exact Nat.lt_add_right _ this
    waiting := by
      intro v id r he
      cases he
      refine ⟨?_, by simp, h.acked_lt⟩
      rw [getElem?_append_right (Nat.le_refl _), Nat.sub_self]
      rfl }

theorem transmit (h : Link mz writes acked (.writing w id retryTimes) saved lastSeqno frames acks)
    (retryTimes' : Nat) :
    Link mz writes acked (.writing w id retryTimes') saved lastSeqno (frames ++ [(id, w.frame)])
      acks := by
  obtain ⟨hid, hlen, hlt⟩ := h.waiting w id retryTimes rfl
  have hmax {i : Nat} {v : Write} (hv : writes[i]? = some v) : i ≤ id := by
    have := (List.getElem?_eq_some_iff.mp hv).1
    omega
  exact { h with
    logged := by
      intro d hd
      cases mem_append.mp hd with
      | inl hd => exact h.logged d hd
      | inr hd => exact mem_singleton.mp hd ▸ ⟨w, hid, rfl⟩
    ordered := by
      refine pairwise_append.mpr ⟨h.ordered, pairwise_singleton _ _, ?_⟩
      intro d hd d' hd'
      obtain ⟨v, hv, -⟩ := h.logged d hd
      exact mem_singleton.mp hd' ▸ hmax hv
    fresh := by
      intro d hd e he
      cases mem_append.mp hd with
      | inl hd => exact h.fresh d hd e he
      | inr hd =>
        obtain ⟨v, hv, -⟩ := h.saved_logged e he
        exact mem_singleton.mp hd ▸ hmax hv
    waiting := by
      intro v k r he
      cases he
      exact ⟨hid, hlen, hlt⟩ }

theorem acknowledge
    (h : Link mz writes acked (.writing w id retryTimes) saved lastSeqno frames acks)
    (hack : id ∈ acks) : Link mz writes (acked ++ [(id, w.buff)]) .idle saved lastSeqno frames
      acks := by
  obtain ⟨hid, hlen, hlt⟩ := h.waiting w id retryTimes rfl
  have hsaved : (id, w.buff) ∈ saved := by
    obtain ⟨⟨k, bytes⟩, he, rfl⟩ := h.acks_saved id hack
    obtain ⟨v, hv, rfl⟩ := h.saved_logged _ he
    obtain rfl : v = w := some.inj (hv.symm.trans hid)
    exact he
  exact { h with
    acked_saved := by
      intro e he
      cases mem_append.mp he with
      | inl he => exact h.acked_saved e he
      | inr he => exact mem_singleton.mp he ▸ hsaved
    acked_increasing := by
      refine pairwise_append.mpr ⟨h.acked_increasing, pairwise_singleton _ _, ?_⟩
      intro e he e' he'
      exact mem_singleton.mp he' ▸ hlt e he
    acked_lt := by
      intro e he
      cases mem_append.mp he with
      | inl he => exact h.acked_lt e he
      | inr he =>
        rw [mem_singleton.mp he, hlen]
        exact Nat.lt_succ_self id
    waiting := nofun }

/-- The receiver answers a frame that is one of the writes it has saved. -/
theorem answer (h : Link mz writes acked control saved lastSeqno frames acks)
    (hid : ∃ e ∈ saved, e.1 = id) :
    Link mz writes acked control saved lastSeqno frames (acks ++ [id]) :=
  { h with
    acks_saved := by
      intro k hk
      cases mem_append.mp hk with
      | inl hk => exact h.acks_saved k hk
      | inr hk => exact mem_singleton.mp hk ▸ hid }

/-- A frame with another sequence number than the last one is a later write than
all that were saved. -/
theorem later {d : Nat × Frame}
    (h : Link mz writes acked control saved lastSeqno (d :: frames) acks)
    (hw : writes[d.1]? = some w) (hne : lastSeqno ≠ w.seqno &&& 7) : ∀ e ∈ saved, e.1 < d.1 := by
  intro e he
  refine Nat.lt_of_le_of_ne (h.fresh d mem_cons_self e he) fun heq => ?_
  have hnil := ne_nil_of_mem he
  obtain ⟨init, l, hl⟩ : ∃ init l, saved = init ++ [l] :=
    ⟨_, _, (dropLast_concat_getLast hnil).symm⟩
  have hlast : l.1 = d.1 := by
    have hle := h.fresh d mem_cons_self l (by rw [hl]; simp)
    have hinc := h.increasing
    rw [hl] at he hinc
    cases mem_append.mp he with
    | inl he =>
      have := (pairwise_append.mp hinc).2.2 e he l mem_cons_self
      omega
    | inr he => exact mem_singleton.mp he ▸ heq
  obtain ⟨v, hv, hseq⟩ := h.last l (by rw [hl]; simp)
  rw [hlast, hw] at hv
  exact hne (some.inj hv ▸ hseq)

/-- The receiver saves the first frame under way, a new one, and answers it. -/
theorem save {d : Nat × Frame}
    (h : Link mz writes acked control saved lastSeqno (d :: frames) acks)
    (hw : writes[d.1]? = some w) (hne : lastSeqno ≠ w.seqno &&& 7) :
    Link mz writes acked control (saved ++ [(d.1, w.buff)]) (w.seqno &&& 7) frames
      (acks ++ [d.1]) := by
  have hlater := h.later hw hne
  have hlist := h.lossy (sublist_cons_self d frames) (Subset.refl acks)
  exact { hlist with
    fresh := by
      intro d' hd' e he
      cases mem_append.mp he with
      | inl he => exact hlist.fresh d' hd' e he
      | inr he => exact mem_singleton.mp he ▸ rel_of_pairwise_cons h.ordered hd'
    saved_logged := by
      intro e he
      cases mem_append.mp he with
      | inl he => exact h.saved_logged e he
      | inr he => exact mem_singleton.mp he ▸ ⟨w, hw, rfl⟩
    increasing := by
      refine pairwise_append.mpr ⟨h.increasing, pairwise_singleton _ _, ?_⟩
      intro e he e' he'
      exact mem_singleton.mp he' ▸ hlater e he
    last := by
      intro e he
      rw [getLast?_concat] at he
      cases he
      exact ⟨w, hw, rfl⟩
    acks_saved := by
      intro k hk
      cases mem_append.mp hk with
      | inl hk =>
        obtain ⟨e, he, hek⟩ := h.acks_saved k hk
        exact ⟨e, mem_append_left _ he, hek⟩
      | inr hk => exact ⟨_, mem_append_right _ mem_cons_self, (mem_singleton.mp hk).symm⟩
    acked_saved := fun e he => mem_append_left _ (h.acked_saved e he) }

end Link

/-! ## The condition -/

/-- The number of the write that waits for its ack. -/
def Control.waitsFor : Control → Option Nat
  | .writing _ id _ => some id
  | .idle => none
  | .reading _ _ => none

/-- There is room for the bytes of a write on their way into the ring. -/
def Istream.Takes (mem : Memory) (alloc : Option (Nat → UInt8)) (is : Istream) (w : Write) :
    Prop :=
  (w.compressed → Miniz.Holds mem w.payload is.wbCompress w.buff.length) ∧
    is.rb.HasRoom alloc w.buff.length

instance (mem : Memory) (alloc : Option (Nat → UInt8)) (is : Istream) (w : Write) :
    Decidable (is.Takes mem alloc w) :=
  inferInstanceAs (Decidable (_ ∧ _))

/-- What the code relies on when an endpoint takes a frame from its peer. -/
def Endpoint.Proper (self peer : Endpoint) (mem : Memory) (alloc : Option (Nat → UInt8)) :
    Item → Prop
  -- an ack answers the write that waits for it
  | .intact (.ack _) id => ∀ k ∈ self.control.waitsFor, id = k
  -- a frame with the last sequence number is the last frame again
  | .intact (.data seqno _ _) id =>
    if self.istream.lastSeqno = seqno &&& 7 then ∃ e ∈ self.istream.saved.getLast?, e.1 = id
    else ∀ w ∈ peer.ostream.writes[id]?, self.istream.Takes mem alloc w
  | .intact (.nack _) _ => True
  | .broken _ _ => True

instance (self peer : Endpoint) (mem : Memory) (alloc : Option (Nat → UInt8)) :
    (item : Item) → Decidable (self.Proper peer mem alloc item)
  | .intact (.ack _) id => inferInstanceAs (Decidable (∀ k ∈ self.control.waitsFor, id = k))
  | .intact (.data seqno _ _) id =>
    inferInstanceAs (Decidable (if self.istream.lastSeqno = seqno &&& 7 then
      ∃ e ∈ self.istream.saved.getLast?, e.1 = id
      else ∀ w ∈ peer.ostream.writes[id]?, self.istream.Takes mem alloc w))
  | .intact (.nack _) _ => inferInstanceAs (Decidable True)
  | .broken _ _ => inferInstanceAs (Decidable True)

/-- The condition on a step of the pair. -/
def Pair.Proper (s : Pair) : Side × Action → Prop
  | (.a, .receive mem alloc) => ∀ item ∈ s.toA.head?, s.a.Proper s.b mem alloc item
  | (.b, .receive mem alloc) => ∀ item ∈ s.toB.head?, s.b.Proper s.a mem alloc item
  | _ => True

instance (s : Pair) : (e : Side × Action) → Decidable (s.Proper e)
  | (.a, .receive mem alloc) =>
    inferInstanceAs (Decidable (∀ item ∈ s.toA.head?, s.a.Proper s.b mem alloc item))
  | (.b, .receive mem alloc) =>
    inferInstanceAs (Decidable (∀ item ∈ s.toB.head?, s.b.Proper s.a mem alloc item))
  | (.a, .write ..) | (.b, .write ..) | (.a, .read _) | (.b, .read _) | (.a, .timeout _)
  | (.b, .timeout _) | (.a, .lose _) | (.b, .lose _) | (.a, .corrupt ..) | (.b, .corrupt ..) =>
    inferInstanceAs (Decidable True)

/-! ## The ring -/

/-- The ring holds what was saved and not yet read. -/
structure Istream.Ok (is : Istream) : Prop where
  ring : is.rb.Ok
  bytes : is.consumed ++ is.rb.contents = (is.saved.map (·.2)).flatten

section
variable {mz : Miniz} {mem : Memory} {alloc : Option (Nat → UInt8)} {is : Istream} {id : Nat}

theorem Istream.create_ok {retryTimes : UInt32} (h : Istream.create retryTimes = some is) :
    is.Ok ∧ is.saved = [] ∧ is.lastSeqno = 0xff := by
  unfold Istream.create at h
  obtain ⟨rb, hrb, h⟩ := bind_eq_some_iff.mp h
  cases h
  obtain ⟨hok, hcontents, -⟩ := RingBuffer.create_ok hrb
  exact ⟨⟨hok, hcontents⟩, rfl, rfl⟩

theorem Istream.Ok.readRing (h : is.Ok) (maxSize : Nat) : (is.readRing maxSize).Ok := by
  have hbytes := h.bytes
  have hle : min maxSize is.rb.size ≤ is.rb.size := Nat.min_le_right _ _
  unfold Istream.readRing
  rw [h.ring.read_eq]
  refine ⟨h.ring.consume _, ?_⟩
  show is.consumed ++ is.rb.contents.take maxSize ++ (is.rb.consume _).contents = _
  have htake : is.rb.contents.take maxSize = is.rb.contents.take (min maxSize is.rb.size) := by
    rw [← RingBuffer.contents_length]
    exact take_eq_take_min
  rw [h.ring.consume_contents hle, ← hbytes, append_assoc, htake, take_append_drop]

/-! ## The frames of the input stream -/

theorem header_data (seqno : UInt8) (compressed : Bool) :
    (Header.make shdlcData seqno compressed).type = shdlcData ∧
      (Header.make shdlcData seqno compressed).seqno = seqno &&& 7 ∧
      (Header.make shdlcData seqno compressed).compressed = compressed :=
  (make_spec (by decide) seqno compressed).2.2

theorem saveData_ok (id : Nat) {data : List UInt8} (h : is.Ok) (hroom : is.rb.HasRoom alloc data.length) :
    ∃ is', is.saveData alloc id data = (.ok, is') ∧ is'.Ok ∧
      is'.saved = is.saved ++ [(id, data)] ∧ is'.lastSeqno = is.header.seqno := by
  obtain ⟨rb, hw, hok, hcontents⟩ := h.ring.writeLen_room hroom
  refine ⟨{ is with rb, lastSeqno := is.header.seqno, saved := is.saved ++ [(id, data)] }, ?_, ?_,
    rfl, rfl⟩
  · rw [Istream.saveData, hw]
  · refine ⟨hok, ?_⟩
    show is.consumed ++ rb.contents = ((is.saved ++ [(id, data)]).map (·.2)).flatten
    rw [hcontents, ← append_assoc, h.bytes]
    simp

theorem saveDataFrame_again (ht : is.header.type = shdlcData)
    (hs : is.lastSeqno = is.header.seqno) :
    is.saveDataFrame mz mem alloc id = some (.ok, is, [.intact (.ack is.header.seqno) id]) := by
  rw [Istream.saveDataFrame, if_neg (not_not.mpr ht), if_neg (not_not.mpr hs)]
  rfl

/-- A new frame with room for its bytes is saved. -/
theorem saveDataFrame_new (id : Nat) {w : Write} (h : is.Ok) (hwb : is.wb = w.frame.header.data :: w.payload)
    (henc : w.Encodes mz) (hne : is.lastSeqno ≠ w.seqno &&& 7) (hroom : is.Takes mem alloc w) :
    ∃ is', is.saveDataFrame mz mem alloc id = some (.ok, is', []) ∧ is'.Ok ∧
      is'.saved = is.saved ++ [(id, w.buff)] ∧ is'.lastSeqno = w.seqno &&& 7 := by
  obtain ⟨seqno, compressed, payload, buff⟩ := w
  obtain ⟨ht, hs, hc⟩ := header_data seqno compressed
  have hh : is.header = .make shdlcData seqno compressed := by
    rw [Istream.header, hwb]
    rfl
  have htail : is.wb.tail = payload := by rw [hwb]; rfl
  have hne' : is.lastSeqno ≠ is.header.seqno := by rwa [hh, hs]
  rw [Istream.saveDataFrame, if_neg (not_not.mpr (hh ▸ ht)), if_pos hne', hh, hc, htail]
  cases compressed with
  | true =>
    obtain ⟨heap, room, hz⟩ : ∃ heap room, mz.mzCompress2 heap room buff = some payload := henc
    obtain ⟨out, hx, hout⟩ := Miniz.uncompress_ok hz (hroom.1 rfl)
    have h' : Istream.Ok { is with wbCompress := out } := ⟨h.ring, h.bytes⟩
    obtain ⟨is', hsave, hok, hsaved, hlast⟩ := saveData_ok id h' hroom.2
    refine ⟨is', ?_, hok, hsaved, hlast.trans ((congrArg Header.seqno hh).trans hs)⟩
    simp only [if_true, hx, hout, bind_eq_bind, bind_some, hsave]
    rfl
  | false =>
    obtain rfl : payload = buff := henc
    obtain ⟨is', hsave, hok, hsaved, hlast⟩ := saveData_ok id h hroom.2
    refine ⟨is', ?_, hok, hsaved, hlast.trans ((congrArg Header.seqno hh).trans hs)⟩
    simp only [Bool.false_eq_true, if_false, hsave]

theorem readFrame_fault (is : Istream) (expectData : Bool) (retryTimes : Nat) {r : Received}
    (hr : r.ret = .crc ∨ r.ret = .timeout) :
    ∃ ret sent, is.readFrame expectData retryTimes r = (ret, { is with wb := r.wb }, sent) ∧
      (ret = none ∨ ret = some r.ret) ∧ (expectData = false → ret = some r.ret) ∧
      dataOf sent = [] ∧ acksOf sent = [] := by
  unfold Istream.readFrame
  dsimp only
  rw [if_pos hr]
  cases expectData with
  | false => exact ⟨_, _, rfl, .inr rfl, fun _ => rfl, rfl, rfl⟩
  | true =>
    rw [if_pos rfl]
    by_cases hlt : retryTimes + 1 < is.retryTimes
    · exact ⟨_, _, if_pos hlt, .inl rfl, nofun, rfl, rfl⟩
    · exact ⟨_, _, if_neg hlt, .inr rfl, nofun, rfl, rfl⟩

theorem readFrame_ok {expectData : Bool} {retryTimes : Nat} {r : Received} (hr : r.ret = .ok) :
    is.readFrame expectData retryTimes r =
      (some .ok, { is with wb := r.wb },
        if (Header.mk (r.wb.headD 0)).type = shdlcData then
          [Istream.sendAck true (Header.mk (r.wb.headD 0)).seqno r.id] else []) := by
  have hok : ¬ (r.ret = .crc ∨ r.ret = .timeout) := by
    rw [hr]
    decide
  unfold Istream.readFrame
  dsimp only
  rw [if_neg hok, hr]
  by_cases ht : (Header.mk (r.wb.headD 0)).type = shdlcData
  · rw [if_pos ht]
    exact if_pos ⟨rfl, ht⟩
  · rw [if_neg ht]
    exact if_neg fun h => ht h.2

theorem readFrame_data {expectData : Bool} {retryTimes : Nat} (seqno : UInt8) (compressed : Bool)
    (payload : List UInt8) :
    is.readFrame expectData retryTimes (Item.intact (.data seqno compressed payload) id).received =
      (some .ok, { is with wb := (Header.make shdlcData seqno compressed).data :: payload },
        [.intact (.ack (seqno &&& 7)) id]) := by
  obtain ⟨ht, hs, -⟩ := header_data seqno compressed
  rw [readFrame_ok rfl, ← hs]
  exact congrArg _ (congrArg _ (if_pos ht))

theorem readFrame_other {expectData : Bool} {retryTimes : Nat} {f : Frame}
    (hf : f.header.type ≠ shdlcData) :
    is.readFrame expectData retryTimes (Item.intact f id).received =
      (some .ok, { is with wb := f.header.data :: f.payload }, []) := by
  rw [readFrame_ok rfl]
  exact congrArg _ (congrArg _ (if_neg hf))

theorem readAck_fault (mz : Miniz) (mem : Memory) (alloc : Option (Nat → UInt8)) (is : Istream)
    {r : Received} (hr : r.ret = .crc ∨ r.ret = .timeout) :
    ∃ sent, is.readAck mz mem alloc r = some (some r.ret, { is with wb := r.wb }, sent) ∧
      dataOf sent = [] ∧ acksOf sent = [] := by
  obtain ⟨ret, sent, hf, -, hret, hd, ha⟩ :=
    readFrame_fault is false 0 hr
  rw [hret rfl] at hf
  refine ⟨sent, ?_, hd, ha⟩
  unfold Istream.readAck
  rw [hf]
  cases hr with
  | inl hr => rw [hr]
  | inr hr => rw [hr]

theorem readAck_other {f : Frame} (hf : f.header.type ≠ shdlcData) :
    is.readAck mz mem alloc (Item.intact f id).received =
      some (some (if f.header.type = shdlcAck then .ok else .fail),
        { is with wb := f.header.data :: f.payload }, []) := by
  unfold Istream.readAck
  rw [readFrame_other hf]
  exact if_neg hf

theorem readAck_data {seqno : UInt8} {compressed : Bool} {payload : List UInt8} {is' : Istream}
    {more : List Item}
    (hsave : Istream.saveDataFrame mz mem alloc
      { is with wb := (Header.make shdlcData seqno compressed).data :: payload } id =
        some (.ok, is', more)) :
    is.readAck mz mem alloc (Item.intact (.data seqno compressed payload) id).received =
      some (none, is', .intact (.ack (seqno &&& 7)) id :: more) := by
  unfold Istream.readAck
  rw [readFrame_data]
  refine (if_pos (header_data seqno compressed).1).trans ?_
  show (Istream.saveDataFrame mz mem alloc _ id).bind _ = _
  rw [hsave]
  rfl

theorem header_ack (seqno : UInt8) : (Frame.ack seqno).header.type = shdlcAck :=
  (make_spec (by decide) seqno false).2.2.1

theorem header_nack (seqno : UInt8) : (Frame.nack seqno).header.type = shdlcNack :=
  (make_spec (by decide) seqno false).2.2.1

end

/-! ## Both directions -/

/-- The links of an endpoint with its peer, out and in. -/
structure Linked (mz : Miniz) (own peer : Endpoint) (inbox outbox : List Item) : Prop where
  outgoing : Link mz own.ostream.writes own.ostream.acked own.control peer.istream.saved
    peer.istream.lastSeqno (dataOf outbox) (acksOf inbox)
  peer_ok : peer.istream.Ok
  incoming : Link mz peer.ostream.writes peer.ostream.acked peer.control own.istream.saved
    own.istream.lastSeqno (dataOf inbox) (acksOf outbox)
  self_ok : own.istream.Ok

namespace Linked

variable {mz : Miniz} {mem : Memory} {alloc : Option (Nat → UInt8)} {self self' peer : Endpoint}
  {inbox inbox' outbox sent sent' : List Item} {w : Write} {id retryTimes : Nat}

theorem symm (h : Linked mz self peer inbox outbox) : Linked mz peer self outbox inbox :=
  ⟨h.incoming, h.self_ok, h.outgoing, h.peer_ok⟩

theorem send (h : Linked mz self peer inbox outbox) (hd : dataOf sent = [])
    (ha : acksOf sent = []) : Linked mz self peer inbox (outbox ++ sent) := by
  refine ⟨?_, h.peer_ok, ?_, h.self_ok⟩
  · rw [dataOf_append, hd, append_nil]
    exact h.outgoing
  · rw [acksOf_append, ha, append_nil]
    exact h.incoming

theorem lossy (h : Linked mz self peer inbox outbox) (hd : (dataOf inbox').Sublist (dataOf inbox))
    (ha : acksOf inbox' ⊆ acksOf inbox) : Linked mz self peer inbox' outbox :=
  ⟨h.outgoing.lossy (Sublist.refl _) ha, h.peer_ok,
    h.incoming.lossy hd (Subset.refl _), h.self_ok⟩

theorem leave (h : Linked mz self peer inbox outbox) {control : Control}
    (hc : ∀ w id retryTimes, control ≠ .writing w id retryTimes) :
    Linked mz { self with control } peer inbox outbox :=
  ⟨h.outgoing.leave hc, h.peer_ok, h.incoming, h.self_ok⟩

theorem return_ (h : Linked mz self peer inbox outbox) :
    Linked mz self.return_ peer inbox outbox :=
  h.leave nofun

theorem transmit (h : Linked mz self peer inbox (outbox ++ sent)) {retryTimes' : Nat}
    (hc : self.control = .writing w id retryTimes)
    (hx : self.transmit w id retryTimes' sent = some (self', sent')) :
    Linked mz self' peer inbox (outbox ++ sent') := by
  unfold Endpoint.transmit at hx
  split at hx
  case isFalse =>
    cases hx
    exact h.return_
  case isTrue =>
    unfold Endpoint.wait at hx
    split at hx
    case isTrue => cases hx
    case isFalse =>
      cases hx
      have hout := h.outgoing
      rw [hc] at hout
      refine ⟨?_, h.peer_ok, ?_, h.self_ok⟩
      · rw [← append_assoc, dataOf_append]
        exact hout.transmit retryTimes'
      · rw [← append_assoc, acksOf_append]
        exact (append_nil (acksOf (outbox ++ sent))).symm ▸ h.incoming

theorem writeFrame {compressed : Bool} {payload buff : List UInt8}
    (h : Linked mz self peer inbox outbox)
    (henc : (Write.mk self.ostream.seqno compressed payload buff).Encodes mz)
    (hx : self.writeFrame mem compressed payload buff = some (self', sent)) :
    Linked mz self' peer inbox (outbox ++ sent) := by
  unfold Endpoint.writeFrame at hx
  obtain ⟨⟨r, wb⟩, -, hx⟩ := bind_eq_some_iff.mp hx
  cases r with
  | ok =>
    -- the log entry and the waiting come first, then the transmission
    let w : Write := ⟨self.ostream.seqno, compressed, payload, buff⟩
    let ostream := { self.ostream with wb, writes := self.ostream.writes ++ [w] }
    let started : Endpoint := ⟨ostream, self.istream, .writing w self.ostream.writes.length 0⟩
    have hstart : Linked mz started peer inbox outbox :=
      ⟨h.outgoing.start henc, h.peer_ok, h.incoming, h.self_ok⟩
    rw [← append_nil outbox] at hstart
    exact hstart.transmit rfl hx
  | _ =>
    cases hx
    rw [append_nil]
    exact ⟨h.outgoing, h.peer_ok, h.incoming, h.self_ok⟩

theorem write {buff : List UInt8} (h : Linked mz self peer inbox outbox)
    (hx : self.write mz mem buff = some (self', sent)) :
    Linked mz self' peer inbox (outbox ++ sent) := by
  unfold Endpoint.write at hx
  dsimp only at hx
  split at hx
  case isFalse => exact h.writeFrame (Write.encodes_plain _ _) hx
  case isTrue =>
    obtain ⟨⟨r, out⟩, hz, hx⟩ := bind_eq_some_iff.mp hx
    cases r with
    | ok =>
      obtain ⟨room, hz⟩ := Miniz.compress_ok hz
      have h' : Linked mz
          { self with ostream := { self.ostream with wbCompress := out } } peer inbox outbox :=
        ⟨h.outgoing, h.peer_ok, h.incoming, h.self_ok⟩
      exact h'.writeFrame (Write.encodes_compressed _ hz) hx
    | _ =>
      cases hx
      rw [append_nil]
      exact ⟨h.outgoing, h.peer_ok, h.incoming, h.self_ok⟩

theorem read {maxSize : Nat} (h : Linked mz self peer inbox outbox)
    (hx : self.read maxSize = some (self', sent)) :
    Linked mz self' peer inbox (outbox ++ sent) := by
  unfold Endpoint.read at hx
  split at hx
  case isTrue =>
    cases hx
    rw [append_nil]
    exact ⟨h.outgoing, h.peer_ok, h.incoming, h.self_ok.readRing maxSize⟩
  case isFalse =>
    unfold Endpoint.wait at hx
    split at hx
    case isTrue => cases hx
    case isFalse =>
      cases hx
      rw [append_nil]
      exact h.leave nofun

theorem receive_writing {r : Received} (hc : self.control = .writing w id retryTimes) :
    self.receive mz mem alloc r = self.writeReceive mz mem alloc w id retryTimes r := by
  rw [Endpoint.receive, hc]

theorem receive_reading {maxSize : Nat} {r : Received}
    (hc : self.control = .reading maxSize retryTimes) :
    self.receive mz mem alloc r = self.readReceive mz mem alloc maxSize retryTimes r := by
  rw [Endpoint.receive, hc]

theorem receive_idle {r : Received} (hc : self.control = .idle) :
    self.receive mz mem alloc r = none := by
  rw [Endpoint.receive, hc]

theorem setWb (h : Linked mz self peer inbox outbox) (wb : List UInt8) :
    Linked mz { self with istream := { self.istream with wb } } peer inbox outbox :=
  ⟨h.outgoing, h.peer_ok, h.incoming, ⟨h.self_ok.ring, h.self_ok.bytes⟩⟩

/-- Damage, or the end of the time, changes nothing but where the endpoint
waits. -/
theorem receive_fault {r : Received} (h : Linked mz self peer inbox outbox)
    (hr : r.ret = .crc ∨ r.ret = .timeout)
    (hx : self.receive mz mem alloc r = some (self', sent)) :
    Linked mz self' peer inbox (outbox ++ sent) := by
  cases hc : self.control with
  | idle =>
    rw [receive_idle hc] at hx
    cases hx
  | writing w id retryTimes =>
    obtain ⟨sent₁, hack, hd, ha⟩ :=
      readAck_fault mz mem alloc self.istream hr
    rw [receive_writing hc, Endpoint.writeReceive, hack] at hx
    have hx : Endpoint.transmit { self with istream := { self.istream with wb := r.wb } } w id
        (retryTimes + 1) sent₁ = some (self', sent) := by
      cases hr with
      | inl hr => rwa [hr] at hx
      | inr hr => rwa [hr] at hx
    exact ((h.setWb r.wb).send hd ha).transmit hc hx
  | reading maxSize retryTimes =>
    obtain ⟨ret, sent₁, hf, hret, -, hd, ha⟩ :=
      readFrame_fault self.istream true retryTimes hr
    have hsent := (h.setWb r.wb).send hd ha
    rw [receive_reading hc, Endpoint.readReceive, hf] at hx
    cases hret with
    | inl hret =>
      rw [hret] at hx
      cases hx
      exact hsent.leave nofun
    | inr hret =>
      have hx : some (Endpoint.return_ { self with istream := { self.istream with wb := r.wb } },
          sent₁) = some (self', sent) := by
        cases hr with
        | inl hr => rwa [hret, hr] at hx
        | inr hr => rwa [hret, hr] at hx
      cases hx
      exact hsent.return_

/-- A data frame the code is made for is saved or known, and answered. -/
theorem save {seqno : UInt8} {compressed : Bool} {payload : List UInt8}
    (h : Linked mz self peer (.intact (.data seqno compressed payload) id :: inbox) outbox)
    (hp : self.Proper peer mem alloc (.intact (.data seqno compressed payload) id)) :
    ∃ is' more, Istream.saveDataFrame mz mem alloc
        { self.istream with wb := (Header.make shdlcData seqno compressed).data :: payload } id =
          some (.ok, is', more) ∧
      Linked mz { self with istream := is' } peer inbox
        (outbox ++ .intact (.ack (seqno &&& 7)) id :: more) := by
  obtain ⟨ht, hs, -⟩ := header_data seqno compressed
  have hin : Link mz peer.ostream.writes peer.ostream.acked peer.control self.istream.saved
      self.istream.lastSeqno ((id, .data seqno compressed payload) :: dataOf inbox)
      (acksOf outbox) := h.incoming
  unfold Endpoint.Proper at hp
  dsimp only at hp
  by_cases hsame : self.istream.lastSeqno = seqno &&& 7
  · rw [if_pos hsame] at hp
    obtain ⟨e, he, hid⟩ := hp
    refine ⟨_, _, saveDataFrame_again ht (hsame.trans hs.symm), ?_⟩
    have hsaved : ∃ e ∈ self.istream.saved, e.1 = id := ⟨e, mem_of_getLast? he, hid⟩
    have hlink := (hin.lossy (sublist_cons_self _ _) (Subset.refl _)).answer hsaved
    refine ⟨?_, h.peer_ok, ?_, ⟨h.self_ok.ring, h.self_ok.bytes⟩⟩
    · rw [dataOf_append]
      exact (append_nil (dataOf outbox)).symm ▸ h.outgoing
    · rw [acksOf_append]
      have hlink := hlink.answer hsaved
      rw [append_assoc] at hlink
      exact hlink
  · rw [if_neg hsame] at hp
    obtain ⟨w, hw, hframe⟩ := hin.logged _ mem_cons_self
    cases hframe
    have hok' : Istream.Ok { self.istream with wb := w.frame.header.data :: w.payload } :=
      ⟨h.self_ok.ring, h.self_ok.bytes⟩
    obtain ⟨is', hsave, hok, hsaved, hlast⟩ :=
      saveDataFrame_new id hok' rfl (hin.encodes w (mem_of_getElem? hw)) hsame (hp w hw)
    refine ⟨is', [], hsave, ?_, h.peer_ok, ?_, hok⟩
    · rw [dataOf_append]
      exact (append_nil (dataOf outbox)).symm ▸ h.outgoing
    · rw [acksOf_append, hsaved, hlast]
      exact hin.save hw hsame

/-- An ack or a nack is taken. -/
theorem receive_other {f : Frame} (h : Linked mz self peer (.intact f id :: inbox) outbox)
    (hf : f.header.type ≠ shdlcData)
    (hack : f.header.type = shdlcAck → ∀ w k retryTimes,
      self.control = .writing w k retryTimes → k ∈ acksOf (.intact f id :: inbox))
    (hx : self.receive mz mem alloc (Item.intact f id).received = some (self', sent)) :
    Linked mz self' peer inbox (outbox ++ sent) := by
  have htail : (dataOf inbox).Sublist (dataOf (.intact f id :: inbox)) ∧
      acksOf inbox ⊆ acksOf (.intact f id :: inbox) :=
    ⟨(sublist_cons_self _ _).filterMap _,
      ((sublist_cons_self _ _).filterMap _).subset⟩
  have hwb := h.setWb (f.header.data :: f.payload)
  cases hc : self.control with
  | idle =>
    rw [receive_idle hc] at hx
    cases hx
  | writing w k retryTimes =>
    rw [receive_writing hc, Endpoint.writeReceive, readAck_other hf] at hx
    by_cases ht : f.header.type = shdlcAck
    · rw [if_pos ht] at hx
      cases hx
      have hout := hwb.outgoing
      rw [hc] at hout
      have hdone := hout.acknowledge (hack ht w k retryTimes hc)
      rw [append_nil]
      exact Linked.lossy ⟨hdone, hwb.peer_ok, hwb.incoming, hwb.self_ok⟩ htail.1 htail.2
    · rw [if_neg ht] at hx
      have hnone := hwb.lossy htail.1 htail.2
      rw [← append_nil outbox] at hnone
      exact hnone.transmit hc hx
  | reading maxSize retryTimes =>
    rw [receive_reading hc, Endpoint.readReceive, readFrame_other hf] at hx
    have hx := (if_neg hf).symm.trans hx
    cases hx
    rw [append_nil]
    exact (hwb.lossy htail.1 htail.2).leave nofun

theorem receive_data {seqno : UInt8} {compressed : Bool} {payload : List UInt8}
    (h : Linked mz self peer (.intact (.data seqno compressed payload) id :: inbox) outbox)
    (hp : self.Proper peer mem alloc (.intact (.data seqno compressed payload) id))
    (hx : self.receive mz mem alloc (Item.intact (.data seqno compressed payload) id).received =
      some (self', sent)) :
    Linked mz self' peer inbox (outbox ++ sent) := by
  obtain ⟨is', more, hsave, hlink⟩ := h.save hp
  cases hc : self.control with
  | idle =>
    rw [receive_idle hc] at hx
    cases hx
  | writing w k retryTimes =>
    rw [receive_writing hc, Endpoint.writeReceive, readAck_data hsave] at hx
    cases hx
    exact hlink
  | reading maxSize retryTimes =>
    rw [receive_reading hc, Endpoint.readReceive, readFrame_data] at hx
    have hx := (if_pos (header_data seqno compressed).1).symm.trans hx
    have hx : (Istream.saveDataFrame mz mem alloc _ id).bind _ = some (self', sent) := hx
    rw [hsave] at hx
    cases hx
    exact Linked.return_ ⟨hlink.outgoing, hlink.peer_ok, hlink.incoming,
      hlink.self_ok.readRing maxSize⟩

/-- A step at an endpoint that takes its frame properly. -/
theorem localStep {action : Action} (h : Linked mz self peer inbox outbox)
    (hp : ∀ mem alloc, action = .receive mem alloc →
      ∀ item ∈ inbox.head?, self.Proper peer mem alloc item)
    (hx : Shdlc.localStep mz self inbox action = some (self', inbox', sent)) :
    Linked mz self' peer inbox' (outbox ++ sent) := by
  cases action with
  | write mem buff =>
    unfold Shdlc.localStep at hx
    dsimp only at hx
    split at hx
    case isFalse => cases hx
    case isTrue =>
      obtain ⟨⟨_, _⟩, hw, hx⟩ := bind_eq_some_iff.mp hx
      cases hx
      exact h.write hw
  | read maxSize =>
    unfold Shdlc.localStep at hx
    dsimp only at hx
    split at hx
    case isFalse => cases hx
    case isTrue =>
      obtain ⟨⟨_, _⟩, hr, hx⟩ := bind_eq_some_iff.mp hx
      cases hx
      exact h.read hr
  | receive mem alloc =>
    cases inbox with
    | nil => cases hx
    | cons item inbox =>
      obtain ⟨⟨_, _⟩, hr, hx⟩ := bind_eq_some_iff.mp hx
      cases hx
      have hp := hp mem alloc rfl item rfl
      cases item with
      | broken fault wb =>
        have hr' : (Item.broken fault wb).received.ret = .crc ∨
            (Item.broken fault wb).received.ret = .timeout := by
          cases fault with
          | crc => exact .inl rfl
          | timeout => exact .inr rfl
        have htail := eraseIdx_carries (.broken fault wb :: inbox') 0
        exact (h.lossy htail.1 htail.2).receive_fault hr' hr
      | intact frame id =>
        cases frame with
        | data seqno compressed payload => exact h.receive_data hp hr
        | ack seqno =>
          refine h.receive_other (by rw [header_ack]; decide) ?_ hr
          intro _ w k retryTimes hc
          have hwait : k ∈ self.control.waitsFor := by
            rw [hc]
            rfl
          exact hp k hwait ▸ mem_cons_self
        | nack seqno =>
          refine h.receive_other (by rw [header_nack]; decide) ?_ hr
          intro ht
          rw [header_nack] at ht
          exact absurd ht (by decide)
  | timeout mem =>
    obtain ⟨⟨_, _⟩, hr, hx⟩ := bind_eq_some_iff.mp hx
    cases hx
    exact h.receive_fault (.inr rfl) hr
  | lose i =>
    cases hx
    rw [append_nil]
    exact h.lossy (eraseIdx_carries inbox i).1 (eraseIdx_carries inbox i).2
  | corrupt i fault wb =>
    cases hx
    rw [append_nil]
    exact h.lossy (set_broken_carries inbox i fault wb).1 (set_broken_carries inbox i fault wb).2

end Linked

/-! ## Runs -/

theorem Link.delivered {mz : Miniz} {os : Ostream} {is : Istream} {control : Control}
    {frames : List (Nat × Frame)} {acks : List Nat}
    (h : Link mz os.writes os.acked control is.saved is.lastSeqno frames acks) (hok : is.Ok) :
    Delivered os is where
  once := by
    rw [List.Nodup, pairwise_map]
    exact h.increasing.imp Nat.ne_of_lt
  sublist := by
    have : Std.Antisymm fun e e' : Nat × List UInt8 => e.1 < e'.1 :=
      ⟨fun _ _ hlt hgt => absurd hlt (Nat.lt_asymm hgt)⟩
    have hnodup : os.acked.Nodup := by
      refine Pairwise.imp ?_ h.acked_increasing
      intro e e' hlt heq
      rw [heq] at hlt
      exact Nat.lt_irrefl _ hlt
    exact sublist_of_subperm_of_pairwise (subperm_of_subset hnodup h.acked_saved)
      h.acked_increasing h.increasing
  bytes := hok.bytes

namespace Pair

variable {mz : Miniz} {s s' : Pair}

/-- Both directions of a pair are linked. -/
def Ok (mz : Miniz) (s : Pair) : Prop := Linked mz s.a s.b s.toA s.toB

theorem create_ok (mz : Miniz) {propsA propsB : Endpoint.Props} (h : create propsA propsB = some s) :
    s.Ok mz := by
  have hend {props : Endpoint.Props} {e : Endpoint} (h : Endpoint.create props = some e) :
      e.istream.Ok ∧ e.istream.saved = [] ∧ e.istream.lastSeqno = 0xff ∧
        e.ostream.writes = [] ∧ e.ostream.acked = [] ∧ e.control = .idle := by
    unfold Endpoint.create at h
    obtain ⟨is, his, h⟩ := bind_eq_some_iff.mp h
    cases h
    obtain ⟨hok, hsaved, hlast⟩ := Istream.create_ok his
    exact ⟨hok, hsaved, hlast, rfl, rfl, rfl⟩
  unfold create at h
  obtain ⟨a, ha, h⟩ := bind_eq_some_iff.mp h
  obtain ⟨b, hb, h⟩ := bind_eq_some_iff.mp h
  cases h
  obtain ⟨hokA, hsavedA, hlastA, hwritesA, hackedA, hidleA⟩ := hend ha
  obtain ⟨hokB, hsavedB, hlastB, hwritesB, hackedB, hidleB⟩ := hend hb
  refine ⟨?_, hokB, ?_, hokA⟩
  · show Link mz a.ostream.writes a.ostream.acked a.control b.istream.saved b.istream.lastSeqno [] []
    rw [hwritesA, hackedA, hidleA, hsavedB, hlastB]
    exact .init
  · show Link mz b.ostream.writes b.ostream.acked b.control a.istream.saved a.istream.lastSeqno [] []
    rw [hwritesB, hackedB, hidleB, hsavedA, hlastA]
    exact .init

theorem Ok.reliable (h : s.Ok mz) : s.Reliable :=
  ⟨h.outgoing.delivered h.peer_ok, h.incoming.delivered h.self_ok⟩

/-- A proper step keeps both links. -/
theorem Ok.step {e : Side × Action} (h : s.Ok mz) (hp : s.Proper e)
    (hx : s.step mz e = some s') : s'.Ok mz := by
  obtain ⟨side, action⟩ := e
  cases side with
  | a =>
    obtain ⟨⟨a, toA, sent⟩, hl, hx⟩ := bind_eq_some_iff.mp hx
    cases hx
    refine Linked.localStep h ?_ hl
    intro mem alloc ha
    cases ha
    exact hp
  | b =>
    obtain ⟨⟨b, toB, sent⟩, hl, hx⟩ := bind_eq_some_iff.mp hx
    cases hx
    refine (Linked.localStep (Linked.symm h) ?_ hl).symm
    intro mem alloc ha
    cases ha
    exact hp

/-- In every run of proper steps the acknowledged writes are delivered, each once
and in order. -/
theorem reliable_of_run (mz : Miniz) (propsA propsB : Endpoint.Props)
    (events : List (Side × Action)) (s₀ s : Pair) (hcreate : create propsA propsB = some s₀)
    (hproper : Runs.Meets (step mz) Proper s₀ events)
    (hrun : Runs.run (step mz) s₀ events = some s) : s.Reliable :=
  (Runs.run_invariant (fun _ _ _ hok hp hx => hok.step hp hx) (create_ok mz hcreate)
    hproper hrun).reliable

/-- A library that leaves the bytes as they are. -/
def stored : Miniz where
  mzCompress2 _ room source := if source.length ≤ room then some source else none
  mzUncompress _ room dest := if dest.length ≤ room then some dest else none
  uncompress_compress h room hle := by
    split at h
    · cases h
      exact if_pos hle
    · cases h

def plenty : Memory := ⟨fun _ => true, true⟩

/-- An ack is lost, so the frame is sent again, is known and is answered twice;
the second answer is lost before the next write. -/
def lostAck : List (Side × Action) := [
  (.b, .read 10), (.a, .write plenty [1]), (.b, .receive plenty none), (.a, .lose 0),
  (.a, .timeout plenty), (.b, .read 10), (.b, .receive plenty none), (.a, .receive plenty none),
  (.a, .lose 0), (.a, .write plenty [2]), (.b, .read 10), (.b, .receive plenty none),
  (.a, .receive plenty none)]

theorem reliable_of_run_lostAck : ∃ s₀ s, create .default .default = some s₀ ∧
    Runs.run (step stored) s₀ lostAck = some s ∧
    s.a.ostream.acked = [(0, [1]), (1, [2])] ∧ s.Reliable := by
  let s₀ := (create .default .default).get rfl
  have hrun : (Runs.run (step stored) s₀ lostAck).isSome := by decide +kernel
  let s := (Runs.run (step stored) s₀ lostAck).get hrun
  have hs : Runs.run (step stored) s₀ lostAck = some s := (some_get hrun).symm
  have hproper : Runs.Meets (step stored) Proper s₀ lostAck := by decide +kernel
  have hacked : (Runs.run (step stored) s₀ lostAck).map (·.a.ostream.acked) =
      some [(0, [1]), (1, [2])] := by decide +kernel
  rw [hs] at hacked
  exact ⟨s₀, s, rfl, hs, some.inj hacked,
    reliable_of_run stored .default .default lostAck s₀ s rfl hproper hs⟩

/-- A frame is sent again although its ack is only late, and is answered twice
more.  One of these answers is taken for an answer to the second write, whose
frame is lost. -/
def strayAck : List (Side × Action) := [
  (.b, .read 10), (.a, .write plenty [1]), (.b, .receive plenty none), (.a, .timeout plenty),
  (.a, .receive plenty none), (.b, .read 10), (.b, .receive plenty none),
  (.a, .write plenty [2]), (.b, .lose 0), (.a, .receive plenty none)]

/-- The second write has returned the size of its buffer and nothing of it is in
the ring of the peer. -/
theorem strayAck_not_reliable : ∃ s₀ s, create .default .default = some s₀ ∧
    Runs.run (step stored) s₀ strayAck = some s ∧ ¬ s.Reliable := by
  let s₀ := (create .default .default).get rfl
  have hrun : (Runs.run (step stored) s₀ strayAck).isSome := by decide +kernel
  let s := (Runs.run (step stored) s₀ strayAck).get hrun
  have hs : Runs.run (step stored) s₀ strayAck = some s := (some_get hrun).symm
  refine ⟨s₀, s, rfl, hs, fun h => ?_⟩
  have hlen := h.1.sublist.length_le
  have hmore : (Runs.run (step stored) s₀ strayAck).map
      (fun s => decide (s.a.ostream.acked.length ≤ s.b.istream.saved.length)) = some false := by
    decide +kernel
  rw [hs] at hmore
  exact of_decide_eq_false (some.inj hmore) hlen

end Pair

end Awtk.Shdlc
