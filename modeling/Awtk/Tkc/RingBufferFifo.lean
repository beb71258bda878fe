import Awtk.Lib.Run
import Awtk.Tkc.RingBuffer

/-!
# The ring buffer is a byte queue

A `History` is a buffer together with what the caller saw: the bytes the writes
accepted and the bytes that reads returned or skips and resets dropped.
`Fifo` says that the buffer is the queue of the bytes accepted and not yet
consumed.

Every operation keeps this except `ring_buffer_skip`, which adds the read cursor
and the size in a `uint32_t` before it wraps the sum at the capacity.  From a
capacity above `2 ^ 31` on the sum can exceed `2 ^ 32`, and the cursor then
lands on the wrong cell.
-/

namespace Awtk

open Ring Runs List Option

namespace RingBuffer

/-! ## Calls and histories -/

/-- A call of the buffer.  A call that may grow it carries the outcome of the
allocation. -/
inductive Call where
  | write (alloc : Option (Nat → UInt8)) (buff : List UInt8)
  | writeLen (alloc : Option (Nat → UInt8)) (buff : List UInt8)
  | read (size : Nat)
  | readLen (size : Nat)
  | peek (size : Nat)
  | skip (size : Nat)
  | reset

/-- The size a call is made with. -/
def Call.size : Call → Nat
  | .write _ buff | .writeLen _ buff => buff.length
  | .read size | .readLen size | .peek size | .skip size => size
  | .reset => 0

/-- A buffer and what its caller saw so far. -/
structure History where
  rb : RingBuffer
  /-- The accepted prefixes of the writes, in order. -/
  accepted : List UInt8
  /-- The bytes returned by reads, skipped or dropped by a reset, in order. -/
  consumed : List UInt8

namespace History

/-- A new buffer. -/
def start (rb : RingBuffer) : History := ⟨rb, [], []⟩

/-- The bytes accepted and not yet consumed. -/
def pending (s : History) : List UInt8 := s.accepted.drop s.consumed.length

/-- One call. -/
def step (s : History) : Call → Option History
  | .write alloc buff =>
    let (ret, rb) := s.rb.write alloc buff
    some { s with rb, accepted := s.accepted ++ buff.take ret }
  | .writeLen alloc buff =>
    match s.rb.writeLen alloc buff with
    | (.ok, rb) => some { s with rb, accepted := s.accepted ++ buff }
    | (_, rb) => some { s with rb }
  | .read size =>
    let (_, d, rb) := s.rb.read size
    some { s with rb, consumed := s.consumed ++ d }
  | .readLen size =>
    let (_, d, rb) := s.rb.readLen size
    some { s with rb, consumed := s.consumed ++ d }
  | .peek size =>
    let (_, _, rb) := s.rb.peek size
    some { s with rb }
  | .skip size =>
    match s.rb.skip size with
    | (.ok, rb) => some { s with rb, consumed := s.consumed ++ s.pending.take size }
    | (_, rb) => some { s with rb }
  | .reset => some { s with rb := s.rb.reset, consumed := s.accepted }

/-- The size of the call and the bytes buffered fit a `uint32_t`. -/
def Fits (s : History) (c : Call) : Prop := c.size + s.rb.size < 2 ^ 32
  deriving Decidable

/-- A skip that is carried out does not wrap the sum it computes. -/
def SkipFits (s : History) : Call → Prop
  | .skip n => n ≤ s.rb.size → s.rb.r + n < 2 ^ 32
  | _ => True

instance (s : History) (c : Call) : Decidable (SkipFits s c) := by
  cases c <;> unfold SkipFits <;> infer_instance

/-- The buffer is the queue of the pending bytes. -/
structure Fifo (limit : Nat) (s : History) : Prop where
  /-- Bytes are consumed in the order in which they were accepted. -/
  order : s.consumed <+: s.accepted
  size : s.rb.size = s.accepted.length - s.consumed.length
  contents : s.rb.contents = s.pending
  full : s.rb.isFull ↔ s.rb.size = s.rb.capacity
  empty : s.rb.isEmpty ↔ s.rb.size = 0
  capacity : s.rb.capacity ≤ limit
  /-- A read returns the oldest bytes. -/
  read : ∀ n, (s.rb.read n).2.1 = s.pending.take n
  /-- A peek returns them too and changes nothing. -/
  peek : ∀ n, (s.rb.peek n).2.1 = s.pending.take n ∧ (s.rb.peek n).2.2 = s.rb
  /-- Growing keeps the bytes and their order and stays below the limit. -/
  grow : ∀ alloc n, n + s.rb.size < 2 ^ 32 →
    (s.rb.ensureWriteSpace alloc n).2.contents = s.pending ∧
      (s.rb.ensureWriteSpace alloc n).2.capacity ≤ limit

/-! ## The invariant -/

/-- What every call keeps. -/
structure Inv (limit : Nat) (s : History) : Prop where
  ok : s.rb.Ok
  max_eq : s.rb.maxCapacity = limit
  accepted_eq : s.accepted = s.consumed ++ s.rb.contents

variable {limit : Nat} {s s' : History}

theorem Inv.pending_eq (h : Inv limit s) : s.pending = s.rb.contents := by
  rw [pending, h.accepted_eq, drop_left]

theorem Inv.fifo (h : Inv limit s) : Fifo limit s where
  order := h.accepted_eq ▸ prefix_append ..
  size := by rw [h.accepted_eq, length_append, contents_length, Nat.add_sub_cancel_left]
  contents := h.pending_eq.symm
  full := h.ok.isFull_iff
  empty := h.ok.isEmpty_iff
  capacity := h.max_eq ▸ h.ok.capacity_le
  read n := by rw [h.ok.read_eq, h.pending_eq]
  peek n := by rw [h.ok.peek_eq, h.pending_eq]; exact ⟨rfl, rfl⟩
  grow alloc n hn := by
    obtain ⟨hok, hcontents, hmax⟩ := h.ok.ensureWriteSpace alloc hn
    rw [hcontents, h.pending_eq, ← h.max_eq, ← hmax]
    exact ⟨rfl, hok.capacity_le⟩

theorem Inv.consume (h : Inv limit s) {n : Nat} (hn : n ≤ s.rb.size) :
    Inv limit { s with rb := s.rb.consume n, consumed := s.consumed ++ s.rb.contents.take n } where
  ok := h.ok.consume n
  max_eq := (consume_maxCapacity ..).trans h.max_eq
  accepted_eq := by
    rw [h.ok.consume_contents hn, append_assoc, take_append_drop]
    exact h.accepted_eq

/-- Every call keeps the invariant, if a skip does not wrap. -/
theorem Inv.step (h : Inv limit s) {c : Call} (hfits : Fits s c) (hskip : SkipFits s c)
    (hs : s.step c = some s') : Inv limit s' := by
  cases c with
  | write alloc buff =>
      obtain ⟨-, hok, hcontents, hmax⟩ := h.ok.write alloc hfits
      simp only [History.step, some.injEq] at hs
      rw [← hs]
      refine ⟨hok, hmax.trans h.max_eq, ?_⟩
      rw [hcontents, ← append_assoc, ← h.accepted_eq]
  | writeLen alloc buff =>
      rcases h.ok.writeLen alloc hfits with ⟨hret, hok, hcontents, hmax⟩ | hfail
      · rcases hw : s.rb.writeLen alloc buff with ⟨ret, rb⟩
        rw [hw] at hret hok hcontents hmax
        obtain rfl : ret = .ok := hret
        simp only [History.step, hw] at hs
        cases hs
        refine ⟨hok, hmax.trans h.max_eq, ?_⟩
        rw [hcontents, ← append_assoc, ← h.accepted_eq]
      · simp only [History.step, hfail] at hs
        cases hs
        exact h
  | read n =>
      simp only [History.step, h.ok.read_eq] at hs
      cases hs
      have := h.consume (Nat.min_le_right n s.rb.size)
      rwa [← contents_length, ← take_eq_take_min, contents_length] at this
  | readLen n =>
      by_cases hn : n ≤ s.rb.size
      · simp only [History.step, h.ok.readLen_eq, if_pos hn] at hs
        cases hs
        exact h.consume hn
      · simp only [History.step, h.ok.readLen_eq, if_neg hn, append_nil] at hs
        cases hs
        exact h
  | peek n =>
      simp only [History.step, h.ok.peek_eq] at hs
      cases hs
      exact h
  | skip n =>
      by_cases hn : n ≤ s.rb.size ∧ 0 < n
      · simp only [History.step, skip_eq (hskip), if_pos hn, h.pending_eq] at hs
        cases hs
        exact h.consume hn.1
      · simp only [History.step, skip_eq (hskip), if_neg hn] at hs
        cases hs
        exact h
  | reset =>
      obtain ⟨hok, hcontents, hmax⟩ := h.ok.reset
      cases hs
      exact ⟨hok, hmax.trans h.max_eq, by simp [hcontents]⟩

theorem inv_start {alloc : Bool} {initCapacity maxCapacity : UInt32} {rb : RingBuffer}
    (h : create alloc initCapacity maxCapacity = some rb) :
    Inv (max initCapacity.toNat maxCapacity.toNat) (start rb) := by
  obtain ⟨hok, hcontents, hmax⟩ := create_ok h
  exact ⟨hok, hmax, hcontents.symm⟩

/-! ## The queue -/

/-- Three writes, each skipped whole.  The last skip starts at cell
`4294967290`. -/
def skipTrace (a b c : List UInt8) : List Call :=
  [.write none a, .skip 2147483647, .write none b, .skip 2147483643, .write none c, .skip 10]

section

variable {a b c : List UInt8}

/-- A buffer of the largest capacity. -/
private def largest (r w : Nat) (data : Nat → UInt8) : RingBuffer :=
  ⟨r, w, false, 4294967295, 4294967295, data⟩

private theorem largest_size {r w n : Nat} (data : Nat → UInt8)
    (h : n = if r ≤ w then w - r else 4294967295 - (r - w)) (hr : r < 4294967295) :
    n = (largest r w data).size := by
  rw [h, size, U32.sub_of_le (by simp [largest]; omega) (by simp [largest])]
  rfl

private theorem step_write (w : Nat) (data : Nat → UInt8) (taken : List UInt8)
    {buff : List UInt8} (hw : w < 4294967295) (hpos : 0 < buff.length)
    (hlen : buff.length < 4294967295) :
    Fits ⟨largest w w data, taken, taken⟩ (.write none buff) ∧
    ∃ data', step ⟨largest w w data, taken, taken⟩ (.write none buff)
      = some ⟨largest w ((w + buff.length) % 4294967295) data', taken ++ buff, taken⟩ := by
  have hok : (largest w w data).Ok := ⟨hw, hw, nofun, le_rfl, by simp [largest]⟩
  have hsize : (largest w w data).size = 0 := by simp [largest, size]
  have hroom : buff.length ≤ (largest w w data).freeSize := by
    rw [hok.freeSize_eq, hsize]
    exact hlen.le
  obtain ⟨data', hwrite⟩ := hok.write_room none hroom
  refine ⟨by rw [Fits, Call.size, hsize]; omega, data', ?_⟩
  have hne : w ≠ (w + buff.length) % 4294967295 := by omega
  simp only [step, hwrite, take_length, produce_pos _ hpos]
  simp [largest, hne]

private theorem step_skip (r w : Nat) (data : Nat → UInt8) (taken : List UInt8)
    {buff : List UInt8} (hlen : buff.length = (largest r w data).size) (hpos : 0 < buff.length)
    (hfits : buff.length < 2 ^ 31) :
    Fits ⟨largest r w data, taken ++ buff, taken⟩ (.skip buff.length) ∧
    step ⟨largest r w data, taken ++ buff, taken⟩ (.skip buff.length)
      = some ⟨largest ((r + buff.length) % 2 ^ 32 % 4294967295) w data, taken ++ buff,
          taken ++ buff⟩ := by
  have hpending : pending ⟨largest r w data, taken ++ buff, taken⟩ = buff := drop_left
  refine ⟨by rw [Fits, Call.size, ← hlen]; omega, ?_⟩
  simp only [step, RingBuffer.skip, hlen.le, hpos, and_self, if_true, hpending, take_length]
  rfl

private theorem skipTrace_end (ha : a.length = 2147483647) (hb : b.length = 2147483643)
    (hc : c.length = 10) :
    ∃ rb s, create true 4294967295 0 = some rb ∧
      Meets step Fits (start rb) (skipTrace a b c) ∧
      run step (start rb) (skipTrace a b c) = some s ∧
      s.consumed = s.accepted ∧ s.rb.size = 1 := by
  obtain ⟨f₁, d₁, h₁⟩ := step_write 0 (fun _ => 0) [] (show 0 < 4294967295 by omega)
    (show 0 < a.length by omega) (by omega)
  obtain ⟨f₂, h₂⟩ := step_skip 0 2147483647 d₁ [] (largest_size d₁ ha (by omega)) (by omega)
    (by omega)
  obtain ⟨f₃, d₃, h₃⟩ := step_write 2147483647 d₁ a (by omega) (show 0 < b.length by omega)
    (by omega)
  obtain ⟨f₄, h₄⟩ := step_skip 2147483647 4294967290 d₃ a (largest_size d₃ hb (by omega))
    (by omega) (by omega)
  obtain ⟨f₅, d₅, h₅⟩ := step_write 4294967290 d₃ (a ++ b) (by omega)
    (show 0 < c.length by omega) (by omega)
  obtain ⟨f₆, h₆⟩ := step_skip 4294967290 5 d₅ (a ++ b) (largest_size d₅ hc (by omega))
    (by omega) (by omega)
  simp only [ha, hb, hc, nil_append, Nat.reduceAdd, Nat.reducePow, Nat.reduceMod]
    at h₁ f₂ h₂ h₃ f₄ h₄ h₅ f₆ h₆
  refine ⟨largest 0 0 fun _ => 0, ⟨largest 4 5 d₅, a ++ b ++ c, a ++ b ++ c⟩, rfl, ?_, ?_, rfl, rfl⟩
  · rw [skipTrace, start, meets_cons_some h₁, meets_cons_some h₂, meets_cons_some h₃,
      meets_cons_some h₄, meets_cons_some h₅, meets_cons_some h₆]
    exact ⟨f₁, f₂, f₃, f₄, f₅, f₆, trivial⟩
  · simp only [skipTrace, start, run_cons, run_nil, h₁, h₂, h₃, h₄, h₅, h₆, bind_some]

end

end History

end RingBuffer

end Awtk
