import Awtk.Lib.Ring
import Awtk.Tkc.Types

/-!
# The ring buffer

`RingBuffer` is `ring_buffer_t`: two cursors, a full flag, a capacity that may
grow up to `maxCapacity`, and a memory.  An allocation is an argument of type
`Option (Nat → UInt8)`: `none` when it fails, otherwise the new block with
whatever bytes it held.

Each operation is translated as it is written, with its branches and its two
copies.  `read_eq` and `write_eq` then say once what a read and a write do, in
terms of `consume` and `produce`, and everything else about the buffer is
derived from these.
-/

namespace Awtk

open Ring List

/-- `ring_buffer_t`. -/
structure RingBuffer where
  /-- The read cursor. -/
  r : Nat
  /-- The write cursor. -/
  w : Nat
  /-- Whether equal cursors mean a full buffer. -/
  full : Bool
  capacity : Nat
  maxCapacity : Nat
  data : Nat → UInt8

namespace RingBuffer

/-! ## The operations -/

/-- `ring_buffer_create`.  `alloc` says whether both allocations succeed. -/
def create (alloc : Bool) (initCapacity maxCapacity : UInt32) : Option RingBuffer :=
  if 32 ≤ initCapacity.toNat ∧ alloc then
    some {
      r := 0, w := 0, full := false
      capacity := initCapacity.toNat
      maxCapacity := max initCapacity.toNat maxCapacity.toNat
      data := fun _ => 0 }
  else none

def isFull (rb : RingBuffer) : Bool := rb.full

def isEmpty (rb : RingBuffer) : Bool := rb.full == false && rb.r == rb.w

def size (rb : RingBuffer) : Nat :=
  if rb.full then rb.capacity
  else if rb.r ≤ rb.w then rb.w - rb.r
  else U32.sub rb.capacity (rb.r - rb.w)

def freeSize (rb : RingBuffer) : Nat := U32.sub rb.capacity rb.size

def reset (rb : RingBuffer) : RingBuffer :=
  { rb with
    full := false
    r := rb.w
    data := fun p => if p < rb.capacity then 0 else rb.data p }

def setReadCursor (rb : RingBuffer) (r : Nat) : RingBuffer :=
  { rb with r := r % rb.capacity, full := false }

def setReadCursorDelta (rb : RingBuffer) (rDelta : Nat) : RingBuffer :=
  rb.setReadCursor (U32.add rb.r rDelta)

def setWriteCursor (rb : RingBuffer) (w : Nat) : RingBuffer :=
  let w := w % rb.capacity
  { rb with w, full := if rb.r = w then true else rb.full }

def setWriteCursorDelta (rb : RingBuffer) (wDelta : Nat) : RingBuffer :=
  rb.setWriteCursor (U32.add rb.w wDelta)

/-- `ring_buffer_read`: the count it returns, the bytes it copies out, and the
buffer afterwards. -/
def read (rb : RingBuffer) (size : Nat) : Nat × List UInt8 × RingBuffer :=
  if size = 0 then (0, [], rb)
  else if rb.r ≠ rb.w ∨ rb.full then
    let rb0 := { rb with full := false }
    if rb.r < rb.w then
      let rsize := min (rb.w - rb.r) size
      (rsize, slice rb.data rb.r rsize, rb0.setReadCursorDelta rsize)
    else
      let rsize := min (U32.sub rb.capacity rb.r) size
      let d := slice rb.data rb.r rsize
      let rb1 := rb0.setReadCursorDelta rsize
      if rsize < size then
        let rsize' := min rb.w (size - rsize)
        (rsize + rsize', d ++ slice rb.data 0 rsize', rb1.setReadCursor rsize')
      else (rsize, d, rb1)
  else (0, [], rb)

def peek (rb : RingBuffer) (size : Nat) : Nat × List UInt8 × RingBuffer :=
  let (ret, d, rb') := rb.read size
  (ret, d, { rb' with r := rb.r, full := rb.full })

def readLen (rb : RingBuffer) (size : Nat) : Ret × List UInt8 × RingBuffer :=
  if size ≤ rb.size then
    let (ret, d, rb') := rb.read size
    (if ret = size then .ok else .fail, d, rb')
  else (.fail, [], rb)

/-- `ring_buffer_skip`.  The sum of the cursor and the size is a `uint32_t`. -/
def skip (rb : RingBuffer) (size : Nat) : Ret × RingBuffer :=
  if size ≤ rb.size ∧ 0 < size then
    (.ok, { rb with full := false, r := U32.add rb.r size % rb.capacity })
  else (.fail, rb)

def ensureWriteSpace (rb : RingBuffer) (alloc : Option (Nat → UInt8)) (size : Nat) :
    Ret × RingBuffer :=
  let freeSize := rb.freeSize
  if size ≤ freeSize then (.ok, rb)
  else if rb.capacity = rb.maxCapacity then (.fail, rb)
  else
    let oldSize := rb.size
    let capacity := U32.add rb.capacity (U32.sub size freeSize)
    if capacity ≤ rb.maxCapacity then
      match alloc with
      | none => (.oom, rb)
      | some data =>
        match rb.readLen oldSize with
        | (.ok, d, rb') =>
          (.ok, { rb' with r := 0, w := oldSize, data := blit data 0 d, capacity })
        | (_, _, rb') => (.fail, rb')
    else (.fail, rb)

/-- `ring_buffer_write`: the count it returns and the buffer afterwards. -/
def write (rb : RingBuffer) (alloc : Option (Nat → UInt8)) (buff : List UInt8) :
    Nat × RingBuffer :=
  let size := buff.length
  let rb := (rb.ensureWriteSpace alloc size).2
  if size = 0 ∨ rb.freeSize = 0 then (0, rb)
  else if rb.r ≠ rb.w ∨ !rb.full then
    if rb.w < rb.r then
      let rsize := min (rb.r - rb.w) size
      let rb1 := { rb with data := blit rb.data rb.w (buff.take rsize) }
      (rsize, rb1.setWriteCursorDelta rsize)
    else
      let rsize := min (U32.sub rb.capacity rb.w) size
      let rb1 := { rb with data := blit rb.data rb.w (buff.take rsize) }
      let rb2 := rb1.setWriteCursorDelta rsize
      if rsize < size then
        let rsize' := min rb.r (size - rsize)
        let rb3 := { rb2 with data := blit rb2.data 0 ((buff.drop rsize).take rsize') }
        (rsize + rsize', rb3.setWriteCursor rsize')
      else (rsize, rb2)
  else (0, rb)

def writeLen (rb : RingBuffer) (alloc : Option (Nat → UInt8)) (buff : List UInt8) :
    Ret × RingBuffer :=
  match rb.ensureWriteSpace alloc buff.length with
  | (.ok, rb) =>
    let (ret, rb) := rb.write alloc buff
    (if ret = buff.length then .ok else .fail, rb)
  | (_, rb) => (.fail, rb)

/-! ## The invariant -/

/-- The bytes in the buffer, oldest first. -/
def contents (rb : RingBuffer) : List UInt8 := window rb.data rb.capacity rb.r rb.size

/-- The cursors are below the capacity and the flag is set only at equal
cursors. -/
structure Ok (rb : RingBuffer) : Prop where
  r_lt : rb.r < rb.capacity
  w_lt : rb.w < rb.capacity
  full_eq : rb.full → rb.r = rb.w
  capacity_le : rb.capacity ≤ rb.maxCapacity
  max_lt : rb.maxCapacity < 2 ^ 32

variable {rb : RingBuffer}

@[simp] theorem contents_length (rb : RingBuffer) : rb.contents.length = rb.size :=
  window_length ..

theorem Ok.capacity_lt (h : rb.Ok) : rb.capacity < 2 ^ 32 := by
  have := h.capacity_le
  have := h.max_lt
  omega

theorem Ok.size_eq (h : rb.Ok) :
    rb.size = if rb.full then rb.capacity
      else if rb.r ≤ rb.w then rb.w - rb.r else rb.capacity - (rb.r - rb.w) := by
  have := h.r_lt
  rw [size, U32.sub_of_le (by omega) h.capacity_lt]

theorem Ok.size_le (h : rb.Ok) : rb.size ≤ rb.capacity := by
  have := h.w_lt
  rw [h.size_eq]
  split
  · exact le_rfl
  · split <;> omega

theorem Ok.freeSize_eq (h : rb.Ok) : rb.freeSize = rb.capacity - rb.size :=
  U32.sub_of_le h.size_le h.capacity_lt

theorem Ok.w_eq (h : rb.Ok) : rb.w = (rb.r + rb.size) % rb.capacity := by
  have hw := h.w_lt
  have hr := h.r_lt
  rw [add_mod_eq h.r_lt h.size_le, h.size_eq]
  by_cases hfull : rb.full
  · have := h.full_eq hfull
    rw [if_pos hfull, if_neg (by omega)]
    omega
  · rw [if_neg hfull]
    split_ifs <;> omega

theorem Ok.isFull_iff (h : rb.Ok) : rb.isFull ↔ rb.size = rb.capacity := by
  have hw := h.w_lt
  rw [h.size_eq, isFull]
  by_cases hfull : rb.full
  · simp only [hfull, if_true]
  · rw [if_neg hfull]
    refine iff_of_false hfull ?_
    split_ifs <;> omega

theorem Ok.isEmpty_iff (h : rb.Ok) : rb.isEmpty ↔ rb.size = 0 := by
  have hw := h.w_lt
  have hr := h.r_lt
  rw [h.size_eq, isEmpty]
  cases hfull : rb.full
  · simp only [beq_self_eq_true, Bool.true_and, beq_iff_eq, Bool.false_eq_true, if_false]
    split_ifs <;> omega
  · simp
    omega

theorem Ok.size_of (h : rb.Ok) {n : Nat} (hn : n ≤ rb.capacity)
    (hw : rb.w = (rb.r + n) % rb.capacity) (hfull : rb.full ↔ n = rb.capacity) : rb.size = n := by
  have := h.r_lt
  rw [add_mod_eq h.r_lt hn] at hw
  rw [h.size_eq]
  split_ifs at hw ⊢ <;> simp_all <;> omega

/-! ## Consuming bytes -/

/-- The buffer after its `k` oldest bytes are gone. -/
def consume (rb : RingBuffer) (k : Nat) : RingBuffer :=
  if k = 0 then rb else { rb with r := (rb.r + k) % rb.capacity, full := false }

@[simp] theorem consume_zero (rb : RingBuffer) : rb.consume 0 = rb := rfl

@[simp] theorem consume_capacity (rb : RingBuffer) (k : Nat) :
    (rb.consume k).capacity = rb.capacity := by
  unfold consume
  split <;> rfl

@[simp] theorem consume_maxCapacity (rb : RingBuffer) (k : Nat) :
    (rb.consume k).maxCapacity = rb.maxCapacity := by
  unfold consume
  split <;> rfl

@[simp] theorem consume_data (rb : RingBuffer) (k : Nat) : (rb.consume k).data = rb.data := by
  unfold consume
  split <;> rfl

theorem Ok.consume_r (h : rb.Ok) (k : Nat) :
    (rb.consume k).r = (rb.r + k) % rb.capacity := by
  unfold consume
  split
  case isTrue hk => rw [hk, Nat.add_zero, Nat.mod_eq_of_lt h.r_lt]
  case isFalse => rfl

theorem Ok.consume (h : rb.Ok) (k : Nat) : (rb.consume k).Ok := by
  unfold RingBuffer.consume
  split
  · exact h
  · have := h.r_lt
    exact ⟨Nat.mod_lt _ (by omega), h.w_lt, by simp, h.capacity_le, h.max_lt⟩

theorem Ok.consume_size (h : rb.Ok) {k : Nat} (hk : k ≤ rb.size) :
    (rb.consume k).size = rb.size - k := by
  have hle := h.size_le
  refine (h.consume k).size_of (by simp; omega) ?_ ?_
  · rw [consume_capacity, h.consume_r, Nat.mod_add_mod, Nat.add_assoc, Nat.add_sub_cancel' hk,
      ← h.w_eq]
    unfold RingBuffer.consume
    split <;> rfl
  · rw [consume_capacity]
    have := h.r_lt
    unfold RingBuffer.consume
    split
    case isTrue h0 => rw [h0, Nat.sub_zero]; exact h.isFull_iff
    case isFalse => simp; omega

theorem Ok.consume_contents (h : rb.Ok) {k : Nat} (hk : k ≤ rb.size) :
    (rb.consume k).contents = rb.contents.drop k := by
  rw [contents, contents, window_drop hk, h.consume_size hk, h.consume_r, consume_data,
    consume_capacity]

theorem consume_pos (rb : RingBuffer) {k : Nat} (hk : 0 < k) :
    rb.consume k = { rb with r := (rb.r + k) % rb.capacity, full := false } :=
  if_neg (by omega)

theorem contents_take (rb : RingBuffer) {k : Nat} (hk : k ≤ rb.size) :
    rb.contents.take k = window rb.data rb.capacity rb.r k :=
  window_take hk

/-- What a read does. -/
theorem Ok.read_eq (h : rb.Ok) (n : Nat) :
    rb.read n = (min n rb.size, rb.contents.take n, rb.consume (min n rb.size)) := by
  have hr := h.r_lt
  have hw := h.w_lt
  have hcap := h.capacity_lt
  have hsize := h.size_eq
  have htake : rb.contents.take n = window rb.data rb.capacity rb.r (min n rb.size) := by
    rw [← contents_take rb (Nat.min_le_right ..), ← contents_length, take_eq_take_min]
  rw [htake]
  unfold read
  by_cases hn : n = 0
  · simp [hn]
  rw [if_neg hn]
  by_cases hempty : rb.r = rb.w ∧ rb.full = false
  · have hzero : rb.size = 0 := by simp [hsize, hempty]
    rw [if_neg (by simp [hempty]), hzero, Nat.min_zero, consume_zero, window_zero]
  rw [if_pos (by simpa [imp_iff_not_or] using hempty)]
  by_cases hlt : rb.r < rb.w
  · have hfull : rb.full = false := by
      by_contra hne
      have := h.full_eq (by simpa using hne)
      omega
    rw [hfull, if_neg Bool.false_ne_true, if_pos hlt.le] at hsize
    have hin : rb.r + min n (rb.w - rb.r) ≤ rb.capacity := by omega
    rw [if_pos hlt, hsize, Nat.min_comm, consume_pos _ (by omega)]
    simp only [setReadCursorDelta, setReadCursor, slice_eq_window hin,
      U32.add_of_lt (hin.trans_lt hcap)]
  -- the buffered bytes are the cells up to the capacity and the first `w` cells
  have hwrap : rb.size = rb.capacity - rb.r + rb.w := by
    rw [hsize]
    split_ifs with hfull hle
    · have := h.full_eq hfull
      omega
    · have : rb.r = rb.w := by omega
      simp_all
    · omega
  rw [if_neg hlt, U32.sub_of_le hr.le hcap, hwrap]
  by_cases hone : min (rb.capacity - rb.r) n < n
  · have hfst : min (rb.capacity - rb.r) n = rb.capacity - rb.r := by omega
    have hsum : min n (rb.capacity - rb.r + rb.w)
        = rb.capacity - rb.r + min rb.w (n - (rb.capacity - rb.r)) := by omega
    have hcell : (rb.r + (rb.capacity - rb.r)) % rb.capacity = 0 := by
      rw [Nat.add_sub_cancel' hr.le, Nat.mod_self]
    have hin : rb.r + (rb.capacity - rb.r) ≤ rb.capacity := by omega
    have hin' : 0 + min rb.w (n - (rb.capacity - rb.r)) ≤ rb.capacity := by omega
    rw [hfst] at hone ⊢
    rw [if_pos hone, hsum, window_add, hcell, slice_eq_window hin, consume_pos _ (by omega),
      ← Nat.add_assoc, Nat.add_sub_cancel' hr.le, Nat.add_mod_left, ← slice_eq_window hin']
    rfl
  · have hall : min (rb.capacity - rb.r) n = n := by omega
    have hin : rb.r + n ≤ rb.capacity := by omega
    have hle : n ≤ rb.capacity - rb.r + rb.w := by omega
    rw [if_neg hone, hall, Nat.min_eq_left hle, slice_eq_window hin, consume_pos _ (by omega)]
    simp only [setReadCursorDelta, setReadCursor, U32.add_of_lt (hin.trans_lt hcap)]

theorem Ok.peek_eq (h : rb.Ok) (n : Nat) :
    rb.peek n = (min n rb.size, rb.contents.take n, rb) := by
  simp only [peek, h.read_eq, RingBuffer.consume]
  split <;> rfl

theorem Ok.readLen_eq (h : rb.Ok) (n : Nat) :
    rb.readLen n = if n ≤ rb.size then (.ok, rb.contents.take n, rb.consume n)
      else (.fail, [], rb) := by
  unfold readLen
  split
  case isTrue hn => simp only [h.read_eq, Nat.min_eq_left hn, if_true]
  case isFalse => rfl

theorem skip_eq {n : Nat} (hn : n ≤ rb.size → rb.r + n < 2 ^ 32) :
    rb.skip n = if n ≤ rb.size ∧ 0 < n then (.ok, rb.consume n) else (.fail, rb) := by
  rw [skip]
  split
  case isTrue hle => rw [U32.add_of_lt (hn hle.1), consume_pos _ hle.2]
  case isFalse => rfl

/-! ## Producing bytes -/

/-- The buffer after `k` bytes were stored behind the newest one, in the memory
`data`. -/
def produce (rb : RingBuffer) (k : Nat) (data : Nat → UInt8) : RingBuffer :=
  if k = 0 then rb
  else
    let w := (rb.w + k) % rb.capacity
    { rb with w, data, full := decide (rb.r = w) }

@[simp] theorem produce_capacity (rb : RingBuffer) (k : Nat) (data : Nat → UInt8) :
    (rb.produce k data).capacity = rb.capacity := by
  unfold produce
  split <;> rfl

@[simp] theorem produce_maxCapacity (rb : RingBuffer) (k : Nat) (data : Nat → UInt8) :
    (rb.produce k data).maxCapacity = rb.maxCapacity := by
  unfold produce
  split <;> rfl

@[simp] theorem produce_r (rb : RingBuffer) (k : Nat) (data : Nat → UInt8) :
    (rb.produce k data).r = rb.r := by
  unfold produce
  split <;> rfl

theorem produce_pos (rb : RingBuffer) {k : Nat} (hk : 0 < k) (data : Nat → UInt8) :
    rb.produce k data = { rb with
      w := (rb.w + k) % rb.capacity, data, full := decide (rb.r = (rb.w + k) % rb.capacity) } :=
  if_neg (by omega)

theorem Ok.produce (h : rb.Ok) (k : Nat) (data : Nat → UInt8) : (rb.produce k data).Ok := by
  unfold RingBuffer.produce
  split
  · exact h
  · have := h.w_lt
    exact ⟨h.r_lt, Nat.mod_lt _ (by omega), by simp, h.capacity_le, h.max_lt⟩

theorem Ok.produce_size (h : rb.Ok) {k : Nat} (hk : rb.size + k ≤ rb.capacity)
    (data : Nat → UInt8) : (rb.produce k data).size = rb.size + k := by
  rcases Nat.eq_zero_or_pos k with rfl | hpos
  · rfl
  have hw : (rb.w + k) % rb.capacity = (rb.r + (rb.size + k)) % rb.capacity := by
    rw [h.w_eq, Nat.mod_add_mod, Nat.add_assoc]
  refine (h.produce k data).size_of (by rwa [produce_capacity]) ?_ ?_
  · rw [produce_capacity, produce_r, produce_pos _ hpos, hw]
  · have := h.r_lt
    rw [produce_capacity, produce_pos _ hpos]
    simp only [hw, decide_eq_true_eq]
    rw [add_mod_eq h.r_lt hk]
    split_ifs <;> omega

theorem Ok.produce_contents (h : rb.Ok) {data : Nat → UInt8} {bs : List UInt8}
    (hk : rb.size + bs.length ≤ rb.capacity) (hf : Filled rb.data data rb.capacity rb.w bs) :
    (rb.produce bs.length data).contents = rb.contents ++ bs := by
  rw [contents, h.produce_size hk, produce_capacity, produce_r]
  rcases Nat.eq_zero_or_pos bs.length with hz | hpos
  · rw [eq_nil_of_length_eq_zero hz]
    simp [RingBuffer.produce, contents]
  · rw [h.w_eq] at hf
    rw [produce_pos _ hpos, hf.window h.r_lt hk, contents]

theorem setWriteCursor_eq (rb : RingBuffer) (w : Nat) :
    rb.setWriteCursor w = { rb with
      w := w % rb.capacity, full := rb.full || decide (rb.r = w % rb.capacity) } := by
  by_cases h : rb.r = w % rb.capacity <;> simp [setWriteCursor, h]

/-- What a write does when the buffer cannot or need not grow. -/
theorem Ok.write_eq (h : rb.Ok) {alloc : Option (Nat → UInt8)} {buff : List UInt8}
    (hstay : (rb.ensureWriteSpace alloc buff.length).2 = rb) :
    ∃ data, Filled rb.data data rb.capacity rb.w (buff.take rb.freeSize) ∧
      rb.write alloc buff = (min buff.length rb.freeSize,
        rb.produce (min buff.length rb.freeSize) data) := by
  have hr := h.r_lt
  have hw := h.w_lt
  have hcap := h.capacity_lt
  have hsize := h.size_eq
  have hfree := h.freeSize_eq
  simp only [write, hstay]
  by_cases hnone : buff.length = 0 ∨ rb.freeSize = 0
  · refine ⟨rb.data, ⟨fun i hi => ?_, fun _ _ _ => rfl⟩, ?_⟩
    · simp only [length_take] at hi
      omega
    · rw [if_pos hnone, show min buff.length rb.freeSize = 0 by omega]
      rfl
  have hfull : rb.full = false := by
    by_contra hne
    rw [if_pos (by simpa using hne)] at hsize
    omega
  rw [hfull, if_neg Bool.false_ne_true] at hsize
  rw [if_neg hnone, if_pos (by simp [hfull])]
  by_cases hlt : rb.w < rb.r
  · rw [if_neg (by omega)] at hsize
    have hroom : rb.r - rb.w = rb.freeSize := by omega
    have hin : rb.w + min rb.freeSize buff.length < rb.capacity := by omega
    refine ⟨_, filled_blit (by rw [length_take]; exact hin.le), ?_⟩
    rw [if_pos hlt, hroom, Nat.min_comm buff.length, produce_pos _ (by omega),
      ← take_eq_take_min]
    simp only [setWriteCursorDelta, U32.add_of_lt (hin.trans hcap)]
    simp only [setWriteCursor_eq, hfull, Bool.false_or]
  · have hsub : U32.sub rb.capacity rb.w = rb.capacity - rb.w := U32.sub_of_le hw.le hcap
    rw [if_pos (by omega)] at hsize
    rw [if_neg hlt, hsub]
    by_cases hone : min (rb.capacity - rb.w) buff.length < buff.length
    · have hfst : min (rb.capacity - rb.w) buff.length = rb.capacity - rb.w := by omega
      have hsum : min buff.length rb.freeSize
          = rb.capacity - rb.w + min rb.r (buff.length - (rb.capacity - rb.w)) := by omega
      have htake : buff.take rb.freeSize = buff.take (rb.capacity - rb.w)
          ++ (buff.drop (rb.capacity - rb.w)).take
            (min rb.r (buff.length - (rb.capacity - rb.w))) := by
        rw [← take_add, ← hsum, Nat.min_comm, ← take_eq_take_min]
      have hcell : U32.add rb.w (rb.capacity - rb.w) % rb.capacity = 0 := by
        rw [U32.add_of_lt (by omega), Nat.add_sub_cancel' hw.le, Nat.mod_self]
      rw [hfst] at hone ⊢
      refine ⟨_, htake ▸ filled_blit_wrap hw (by simp; omega) (by simp; omega), ?_⟩
      rw [if_pos hone, hsum, produce_pos _ (by omega), ← Nat.add_assoc,
        Nat.add_sub_cancel' hw.le, Nat.add_mod_left]
      -- the first part may have set the flag, when the read cursor is `0`
      by_cases hzero : rb.r = 0
      · simp [setWriteCursorDelta, setWriteCursor, hcell, hzero]
      · simp [setWriteCursorDelta, setWriteCursor_eq, hcell, hzero, hfull]
    · have hall : min (rb.capacity - rb.w) buff.length = buff.length := by omega
      have hin : rb.w + buff.length ≤ rb.capacity := by omega
      refine ⟨_, filled_blit (by rw [length_take]; omega), ?_⟩
      rw [if_neg hone, hall, Nat.min_eq_left (by omega), produce_pos _ (by omega),
        take_length, take_of_length_le (by omega)]
      simp only [setWriteCursorDelta, U32.add_of_lt (hin.trans_lt hcap)]
      simp only [setWriteCursor_eq, hfull, Bool.false_or]

theorem Ok.write_room (h : rb.Ok) (alloc : Option (Nat → UInt8)) {buff : List UInt8}
    (hroom : buff.length ≤ rb.freeSize) :
    ∃ data, rb.write alloc buff = (buff.length, rb.produce buff.length data) := by
  have hstay : (rb.ensureWriteSpace alloc buff.length).2 = rb := by
    rw [ensureWriteSpace, if_pos hroom]
  obtain ⟨data, -, hw⟩ := h.write_eq hstay
  rw [Nat.min_eq_left hroom] at hw
  exact ⟨data, hw⟩

/-! ## Growing -/

/-- The buffer after its bytes moved to the start of a larger block. -/
def grow (rb : RingBuffer) (data : Nat → UInt8) (capacity : Nat) : RingBuffer where
  r := 0
  w := rb.size
  full := false
  capacity := capacity
  maxCapacity := rb.maxCapacity
  data := blit data 0 rb.contents

theorem Ok.consume_all_full (h : rb.Ok) : (rb.consume rb.size).full = false := by
  unfold RingBuffer.consume
  split
  case isTrue hz =>
    have := h.r_lt
    by_contra hfull
    have := h.isFull_iff.mp (Bool.eq_true_of_not_eq_false hfull)
    omega
  case isFalse => rfl

theorem Ok.grow (h : rb.Ok) (data : Nat → UInt8) {capacity : Nat} (hlt : rb.size < capacity)
    (hmax : capacity ≤ rb.maxCapacity) : (rb.grow data capacity).Ok :=
  ⟨Nat.zero_lt_of_lt hlt, hlt, nofun, hmax, h.max_lt⟩

theorem Ok.grow_size (h : rb.Ok) (data : Nat → UInt8) {capacity : Nat} (hlt : rb.size < capacity)
    (hmax : capacity ≤ rb.maxCapacity) : (rb.grow data capacity).size = rb.size := by
  refine (h.grow data hlt hmax).size_of hlt.le ?_ ?_
  · simp [RingBuffer.grow, Nat.mod_eq_of_lt hlt]
  · simp [RingBuffer.grow]
    omega

theorem Ok.grow_contents (h : rb.Ok) (data : Nat → UInt8) {capacity : Nat}
    (hlt : rb.size < capacity) (hmax : capacity ≤ rb.maxCapacity) :
    (rb.grow data capacity).contents = rb.contents := by
  have hin : 0 + rb.size ≤ capacity := by omega
  have hread := slice_blit data 0 rb.contents
  rw [contents_length, slice_eq_window hin] at hread
  rw [contents, h.grow_size data hlt hmax]
  exact hread

/-- The three outcomes of asking for `n` free cells: they are there, they are
refused, or the buffer grows to hold exactly `n` more bytes. -/
theorem Ok.ensureWriteSpace_cases (h : rb.Ok) (alloc : Option (Nat → UInt8)) {n : Nat}
    (hn : n + rb.size < 2 ^ 32) :
    (n ≤ rb.freeSize ∧ rb.ensureWriteSpace alloc n = (.ok, rb)) ∨
    (rb.freeSize < n ∧ ∃ ret, ret ≠ .ok ∧ rb.ensureWriteSpace alloc n = (ret, rb)) ∨
    (rb.freeSize < n ∧ n + rb.size ≤ rb.maxCapacity ∧
      ∃ data, rb.ensureWriteSpace alloc n = (.ok, rb.grow data (n + rb.size))) := by
  have hfree := h.freeSize_eq
  have hle := h.size_le
  by_cases hroom : n ≤ rb.freeSize
  · exact .inl ⟨hroom, by rw [ensureWriteSpace, if_pos hroom]⟩
  refine .inr ?_
  by_cases hcap : rb.capacity = rb.maxCapacity
  · refine .inl ⟨by omega, .fail, by decide, ?_⟩
    rw [ensureWriteSpace, if_neg hroom, if_pos hcap]
  have hnew : U32.add rb.capacity (U32.sub n rb.freeSize) = n + rb.size := by
    rw [U32.sub_of_le (by omega) (by omega), U32.add_of_lt (by omega)]
    omega
  by_cases hmax : n + rb.size ≤ rb.maxCapacity
  · cases alloc with
    | none =>
      refine .inl ⟨by omega, .oom, by decide, ?_⟩
      simp [ensureWriteSpace, hroom, hcap, hnew, hmax]
    | some data =>
      refine .inr ⟨by omega, hmax, data, ?_⟩
      have hall : rb.contents.take rb.size = rb.contents :=
        take_of_length_le (contents_length rb).le
      simp [ensureWriteSpace, hroom, hcap, hnew, hmax, h.readLen_eq, hall, RingBuffer.grow,
        h.consume_all_full]
  · refine .inl ⟨by omega, .fail, by decide, ?_⟩
    rw [ensureWriteSpace, if_neg hroom, if_neg hcap, hnew, if_neg hmax]

theorem Ok.ensureWriteSpace (h : rb.Ok) (alloc : Option (Nat → UInt8)) {n : Nat}
    (hn : n + rb.size < 2 ^ 32) :
    (rb.ensureWriteSpace alloc n).2.Ok ∧
    (rb.ensureWriteSpace alloc n).2.contents = rb.contents ∧
    (rb.ensureWriteSpace alloc n).2.maxCapacity = rb.maxCapacity := by
  rcases h.ensureWriteSpace_cases alloc hn with
    ⟨-, he⟩ | ⟨-, _, -, he⟩ | ⟨hroom, hmax, data, he⟩
  · exact he ▸ ⟨h, rfl, rfl⟩
  · exact he ▸ ⟨h, rfl, rfl⟩
  · have hlt : rb.size < n + rb.size := by omega
    exact he ▸ ⟨h.grow data hlt hmax, h.grow_contents data hlt hmax, rfl⟩

theorem Ok.ensureWriteSpace_idem (h : rb.Ok) (alloc : Option (Nat → UInt8)) {n : Nat}
    (hn : n + rb.size < 2 ^ 32) :
    ((rb.ensureWriteSpace alloc n).2.ensureWriteSpace alloc n).2
      = (rb.ensureWriteSpace alloc n).2 := by
  rcases h.ensureWriteSpace_cases alloc hn with
    ⟨-, he⟩ | ⟨-, _, -, he⟩ | ⟨hroom, hmax, data, he⟩
  · rw [he, he]
  · rw [he, he]
  · have hlt : rb.size < n + rb.size := by omega
    have hfree := (h.grow data hlt hmax).freeSize_eq
    rw [h.grow_size data hlt hmax] at hfree
    have : n ≤ (rb.grow data (n + rb.size)).freeSize := by
      rw [hfree]
      simp [RingBuffer.grow]
    rw [he, RingBuffer.ensureWriteSpace, if_pos this]

theorem Ok.write_stay (h : rb.Ok) {alloc : Option (Nat → UInt8)} {buff : List UInt8}
    (hstay : (rb.ensureWriteSpace alloc buff.length).2 = rb) :
    (rb.write alloc buff).1 = min buff.length rb.freeSize ∧
    (rb.write alloc buff).2.Ok ∧
    (rb.write alloc buff).2.contents = rb.contents ++ buff.take (rb.write alloc buff).1 ∧
    (rb.write alloc buff).2.maxCapacity = rb.maxCapacity := by
  obtain ⟨data, hfill, hw⟩ := h.write_eq hstay
  have hlen : (buff.take rb.freeSize).length = min buff.length rb.freeSize := by
    rw [length_take, Nat.min_comm]
  have hfree := h.freeSize_eq
  have hle := h.size_le
  have hcontents := h.produce_contents (by omega) hfill
  rw [hlen] at hcontents
  rw [hw]
  refine ⟨rfl, h.produce _ _, ?_, produce_maxCapacity ..⟩
  rw [hcontents, Nat.min_comm, ← take_eq_take_min]

/-- A write appends a prefix of what it is given, as long as it says. -/
theorem Ok.write (h : rb.Ok) (alloc : Option (Nat → UInt8)) {buff : List UInt8}
    (hn : buff.length + rb.size < 2 ^ 32) :
    (rb.write alloc buff).1 ≤ buff.length ∧
    (rb.write alloc buff).2.Ok ∧
    (rb.write alloc buff).2.contents = rb.contents ++ buff.take (rb.write alloc buff).1 ∧
    (rb.write alloc buff).2.maxCapacity = rb.maxCapacity := by
  obtain ⟨hok, hcontents, hmax⟩ := h.ensureWriteSpace alloc hn
  have hidem := h.ensureWriteSpace_idem alloc hn
  have hstart : rb.write alloc buff
      = (rb.ensureWriteSpace alloc buff.length).2.write alloc buff := by
    simp only [RingBuffer.write, hidem]
  obtain ⟨hret, hok', hcontents', hmax'⟩ := hok.write_stay hidem
  rw [← hstart] at hret hok' hcontents' hmax'
  exact ⟨hret ▸ Nat.min_le_left .., hok', hcontents ▸ hcontents', hmax'.trans hmax⟩

theorem writeLen_of_ensureWriteSpace {rb' : RingBuffer} {alloc : Option (Nat → UInt8)}
    {buff : List UInt8} (hok : rb'.Ok) (hroom : buff.length ≤ rb'.freeSize)
    (he : rb.ensureWriteSpace alloc buff.length = (.ok, rb')) :
    (rb.writeLen alloc buff).1 = .ok ∧ (rb.writeLen alloc buff).2.Ok ∧
      (rb.writeLen alloc buff).2.contents = rb'.contents ++ buff ∧
      (rb.writeLen alloc buff).2.maxCapacity = rb'.maxCapacity := by
  have hstay : (rb'.ensureWriteSpace alloc buff.length).2 = rb' := by
    rw [RingBuffer.ensureWriteSpace, if_pos hroom]
  obtain ⟨hret, hok', hcontents, hmax⟩ := hok.write_stay hstay
  rw [Nat.min_eq_left hroom] at hret
  rw [hret, take_length] at hcontents
  simp only [RingBuffer.writeLen, he, hret, if_true]
  exact ⟨trivial, hok', hcontents, hmax⟩

theorem Ok.grow_room (h : rb.Ok) (data : Nat → UInt8) {n : Nat} (hroom : rb.freeSize < n)
    (hmax : n + rb.size ≤ rb.maxCapacity) : n ≤ (rb.grow data (n + rb.size)).freeSize := by
  have hfree := h.freeSize_eq
  have hle := h.size_le
  have hlt : rb.size < n + rb.size := by omega
  rw [(h.grow data hlt hmax).freeSize_eq, h.grow_size data hlt hmax]
  simp [RingBuffer.grow]

theorem Ok.writeLen (h : rb.Ok) (alloc : Option (Nat → UInt8)) {buff : List UInt8}
    (hn : buff.length + rb.size < 2 ^ 32) :
    ((rb.writeLen alloc buff).1 = .ok ∧ (rb.writeLen alloc buff).2.Ok ∧
      (rb.writeLen alloc buff).2.contents = rb.contents ++ buff ∧
      (rb.writeLen alloc buff).2.maxCapacity = rb.maxCapacity) ∨
    rb.writeLen alloc buff = (.fail, rb) := by
  rcases h.ensureWriteSpace_cases alloc hn with
    ⟨hroom, he⟩ | ⟨-, ret, hret, he⟩ | ⟨hroom, hmax, data, he⟩
  · exact .inl (writeLen_of_ensureWriteSpace h hroom he)
  · refine .inr ?_
    simp only [RingBuffer.writeLen, he]
  · have hlt : rb.size < buff.length + rb.size := by omega
    have hgrown := writeLen_of_ensureWriteSpace (h.grow data hlt hmax)
      (h.grow_room data hroom hmax) he
    rw [h.grow_contents data hlt hmax] at hgrown
    exact .inl hgrown

/-- There is room for `n` more bytes: in the cells the buffer has, or in those it
may grow to. -/
def HasRoom (rb : RingBuffer) (alloc : Option (Nat → UInt8)) (n : Nat) : Prop :=
  n ≤ rb.freeSize ∨ (alloc.isSome ∧ n + rb.size ≤ rb.maxCapacity)

instance (rb : RingBuffer) (alloc : Option (Nat → UInt8)) (n : Nat) :
    Decidable (rb.HasRoom alloc n) :=
  inferInstanceAs (Decidable (_ ∨ _))

/-- A write of a fixed length succeeds where there is room. -/
theorem Ok.writeLen_room (h : rb.Ok) {alloc : Option (Nat → UInt8)} {buff : List UInt8}
    (hroom : rb.HasRoom alloc buff.length) :
    ∃ rb', rb.writeLen alloc buff = (.ok, rb') ∧ rb'.Ok ∧ rb'.contents = rb.contents ++ buff := by
  have hle := h.size_le
  have hfree := h.freeSize_eq
  have hcap := h.capacity_lt
  have hlt := h.max_lt
  have hn : buff.length + rb.size < 2 ^ 32 := by
    cases hroom with
    | inl hroom => omega
    | inr hroom => omega
  cases h.writeLen alloc hn with
  | inl hok => exact ⟨_, Prod.ext hok.1 rfl, hok.2.1, hok.2.2.1⟩
  | inr hfail =>
    exfalso
    rcases h.ensureWriteSpace_cases alloc hn with
      ⟨hfit, he⟩ | ⟨hfit, ret, hret, he⟩ | ⟨hfit, hmax, data, he⟩
    · have hok := (writeLen_of_ensureWriteSpace h hfit he).1
      rw [hfail] at hok
      cases hok
    · cases hroom with
      | inl hroom => omega
      | inr hroom =>
        obtain ⟨halloc, hmax⟩ := hroom
        have hcapacity : ¬ rb.capacity = rb.maxCapacity := by omega
        have hnew : U32.add rb.capacity (U32.sub buff.length rb.freeSize) =
            buff.length + rb.size := by
          rw [U32.sub_of_le (by omega) (by omega), U32.add_of_lt (by omega)]
          omega
        obtain ⟨data, rfl⟩ := Option.isSome_iff_exists.mp halloc
        rw [RingBuffer.ensureWriteSpace, if_neg (by omega), if_neg hcapacity, hnew,
          if_pos hmax, h.readLen_eq] at he
        simp at he
        exact hret he.1.symm
    · have hgrown := (writeLen_of_ensureWriteSpace
        (h.grow data (by omega) hmax) (h.grow_room data hfit hmax) he).1
      rw [hfail] at hgrown
      cases hgrown

/-! ## Creation and reset -/

theorem create_ok {alloc : Bool} {initCapacity maxCapacity : UInt32}
    (h : create alloc initCapacity maxCapacity = some rb) :
    rb.Ok ∧ rb.contents = [] ∧ rb.maxCapacity = max initCapacity.toNat maxCapacity.toNat := by
  unfold create at h
  split at h
  case isTrue hinit =>
    cases h
    have hinit' := initCapacity.toNat_lt
    have hmax := maxCapacity.toNat_lt
    have hpos : 0 < initCapacity.toNat := by omega
    exact ⟨⟨hpos, hpos, nofun, Nat.le_max_left .., Nat.max_lt.mpr ⟨hinit', hmax⟩⟩, rfl, rfl⟩
  case isFalse => cases h

theorem Ok.reset (h : rb.Ok) :
    rb.reset.Ok ∧ rb.reset.contents = [] ∧ rb.reset.maxCapacity = rb.maxCapacity := by
  have hok : rb.reset.Ok := ⟨h.w_lt, h.w_lt, nofun, h.capacity_le, h.max_lt⟩
  refine ⟨hok, eq_nil_of_length_eq_zero ?_, rfl⟩
  rw [contents_length, hok.size_eq]
  simp [RingBuffer.reset]

end RingBuffer

end Awtk
