import Awtk.Lib.Run
import Awtk.Tkc.RingBuffer

/-!
# Room in a ring buffer

`ring_buffer_ensure_write_space` computes the new capacity in a `uint32_t`.  For a large size the sum
wraps, and the buffer moves to a block that is too small for its bytes.  `Safe` is the condition under
which it does not.  It also leaves out a full buffer whose write cursor was moved away, whose bytes
cannot be read in one piece.  `space_iff_of_run` is about every buffer that calls reach.
-/

namespace Awtk

open Runs Option

namespace RingBuffer

/-! ## Calls -/

/-- A call.  One that may grow the buffer carries the outcome of the allocation. -/
inductive Act where
  | write (alloc : Option (Nat → UInt8)) (buff : List UInt8)
  | writeLen (alloc : Option (Nat → UInt8)) (buff : List UInt8)
  | ensureWriteSpace (alloc : Option (Nat → UInt8)) (size : Nat)
  | read (size : Nat)
  | readLen (size : Nat)
  | peek (size : Nat)
  | skip (size : Nat)
  | reset
  | setReadCursor (r : Nat)
  | setReadCursorDelta (rDelta : Nat)
  | setWriteCursor (w : Nat)
  | setWriteCursorDelta (wDelta : Nat)

/-- The buffer after a call. -/
def act (rb : RingBuffer) : Act → RingBuffer
  | .write alloc buff => (rb.write alloc buff).2
  | .writeLen alloc buff => (rb.writeLen alloc buff).2
  | .ensureWriteSpace alloc size => (rb.ensureWriteSpace alloc size).2
  | .read size => (rb.read size).2.2
  | .readLen size => (rb.readLen size).2.2
  | .peek size => (rb.peek size).2.2
  | .skip size => (rb.skip size).2
  | .reset => rb.reset
  | .setReadCursor r => rb.setReadCursor r
  | .setReadCursorDelta rDelta => rb.setReadCursorDelta rDelta
  | .setWriteCursor w => rb.setWriteCursor w
  | .setWriteCursorDelta wDelta => rb.setWriteCursorDelta wDelta

/-- Every call is possible in every state. -/
def step (rb : RingBuffer) (a : Act) : Option RingBuffer := some (rb.act a)

/-! ## The condition -/

/-- The request moves the buffer to a new block. -/
def Grows (rb : RingBuffer) (alloc : Option (Nat → UInt8)) (n : Nat) : Prop :=
  rb.freeSize < n ∧ rb.capacity ≠ rb.maxCapacity ∧
    U32.add rb.capacity (U32.sub n rb.freeSize) ≤ rb.maxCapacity ∧ alloc.isSome

instance (rb : RingBuffer) (alloc : Option (Nat → UInt8)) (n : Nat) : Decidable (rb.Grows alloc n) :=
  inferInstanceAs (Decidable (_ ∧ _))

/-- The bytes and the size that is asked for fit a `uint32_t`, and a full buffer has its write cursor at
its read cursor. -/
def Safe (rb : RingBuffer) (alloc : Option (Nat → UInt8)) (n : Nat) : Prop :=
  rb.Grows alloc n → n + rb.size < 2 ^ 32 ∧ (rb.full → rb.r = rb.w)

instance (rb : RingBuffer) (alloc : Option (Nat → UInt8)) (n : Nat) : Decidable (rb.Safe alloc n) :=
  inferInstanceAs (Decidable (_ → _))

/-- A call asks for space safely. -/
def SafeAct (rb : RingBuffer) : Act → Prop
  | .write alloc buff | .writeLen alloc buff => rb.Safe alloc buff.length
  | .ensureWriteSpace alloc size => rb.Safe alloc size
  | _ => True

instance (rb : RingBuffer) (a : Act) : Decidable (rb.SafeAct a) := by
  cases a <;> unfold SafeAct <;> infer_instance

/-- What a request for space promises: it fails and changes nothing that counts, or there is room for
`n` bytes behind the same bytes. -/
structure Ensures (rb : RingBuffer) (n : Nat) (result : Ret × RingBuffer) : Prop where
  failed : result.1 ≠ .ok → result.2.contents = rb.contents ∧ result.2.r = rb.r ∧
    result.2.w = rb.w ∧ result.2.capacity = rb.capacity
  room : result.1 = .ok → result.2.size + n ≤ result.2.capacity
  contents : result.1 = .ok → result.2.contents = rb.contents
  limit : result.1 = .ok → result.2.capacity ≤ rb.maxCapacity

/-- What a write of a fixed length promises. -/
def AllOrNothing (rb : RingBuffer) (buff : List UInt8) (result : Ret × RingBuffer) : Prop :=
  (result.1 = .ok ∧ result.2.contents = rb.contents ++ buff) ∨
    (result.1 ≠ .ok ∧ result.2.contents = rb.contents)

/-! ## The cursors -/

/-- What every call keeps: the cursors are below the capacity. -/
structure Bounded (rb : RingBuffer) : Prop where
  r_lt : rb.r < rb.capacity
  w_lt : rb.w < rb.capacity
  capacity_le : rb.capacity ≤ rb.maxCapacity
  max_lt : rb.maxCapacity < 2 ^ 32

variable {rb : RingBuffer} {alloc : Option (Nat → UInt8)} {buff : List UInt8} {n : Nat}

theorem Ok.bounded (h : rb.Ok) : rb.Bounded := ⟨h.r_lt, h.w_lt, h.capacity_le, h.max_lt⟩

theorem Bounded.ok (h : rb.Bounded) (hfull : rb.full → rb.r = rb.w) : rb.Ok :=
  ⟨h.r_lt, h.w_lt, hfull, h.capacity_le, h.max_lt⟩

theorem Bounded.mod_lt (h : rb.Bounded) (p : Nat) : p % rb.capacity < rb.capacity :=
  Nat.mod_lt p (Nat.zero_lt_of_lt h.r_lt)

theorem Bounded.freeSize_full (h : rb.Bounded) (hfull : rb.full) : rb.freeSize = 0 := by
  have hcap := h.capacity_le.trans_lt h.max_lt
  rw [freeSize, size, if_pos hfull, U32.sub_of_le le_rfl hcap, Nat.sub_self]

theorem ensureWriteSpace_stay (h : ¬ rb.Grows alloc n) :
    ∃ ret, rb.ensureWriteSpace alloc n = (ret, rb) ∧ (ret = .ok ↔ n ≤ rb.freeSize) := by
  rw [ensureWriteSpace]
  by_cases hroom : n ≤ rb.freeSize
  · exact ⟨.ok, if_pos hroom, iff_of_true rfl hroom⟩
  rw [if_neg hroom]
  by_cases hcap : rb.capacity = rb.maxCapacity
  · exact ⟨.fail, if_pos hcap, iff_of_false Ret.noConfusion hroom⟩
  rw [if_neg hcap]
  by_cases hmax : U32.add rb.capacity (U32.sub n rb.freeSize) ≤ rb.maxCapacity
  · simp only [if_pos hmax]
    cases alloc with
    | none => exact ⟨.oom, rfl, iff_of_false Ret.noConfusion hroom⟩
    | some data => exact absurd ⟨Nat.not_le.mp hroom, hcap, hmax, rfl⟩ h
  · exact ⟨.fail, if_neg hmax, iff_of_false Ret.noConfusion hroom⟩

/-! ## Calls keep the cursors in range -/

theorem Bounded.setReadCursor (h : rb.Bounded) (r : Nat) : (rb.setReadCursor r).Bounded :=
  ⟨h.mod_lt r, h.w_lt, h.capacity_le, h.max_lt⟩

theorem Bounded.setWriteCursor (h : rb.Bounded) (w : Nat) : (rb.setWriteCursor w).Bounded :=
  ⟨h.r_lt, h.mod_lt w, h.capacity_le, h.max_lt⟩

theorem read_rest (rb : RingBuffer) (n : Nat) :
    (rb.read n).2.2 = rb ∨ ∃ r, (rb.read n).2.2 = { rb with r := r % rb.capacity, full := false } := by
  simp only [RingBuffer.read]
  split_ifs
  · exact .inl rfl
  · exact .inr ⟨_, rfl⟩
  · exact .inr ⟨_, rfl⟩
  · exact .inr ⟨_, rfl⟩
  · exact .inl rfl

theorem Bounded.read (h : rb.Bounded) (n : Nat) : (rb.read n).2.2.Bounded := by
  rcases read_rest rb n with heq | ⟨r, heq⟩
  · rw [heq]
    exact h
  · rw [heq]
    exact ⟨h.mod_lt r, h.w_lt, h.capacity_le, h.max_lt⟩

theorem Bounded.readLen (h : rb.Bounded) (n : Nat) : (rb.readLen n).2.2.Bounded := by
  rw [RingBuffer.readLen]
  split_ifs
  · exact h.read n
  · exact h

theorem peek_rest (rb : RingBuffer) (n : Nat) : (rb.peek n).2.2 = rb := by
  simp only [RingBuffer.peek]
  rcases read_rest rb n with heq | ⟨r, heq⟩
  · rw [heq]
  · rw [heq]

theorem Bounded.skip (h : rb.Bounded) (n : Nat) : (rb.skip n).2.Bounded := by
  rw [RingBuffer.skip]
  split_ifs
  · exact ⟨h.mod_lt _, h.w_lt, h.capacity_le, h.max_lt⟩
  · exact h

theorem Bounded.write_stuck (h : rb.Bounded) (hgrows : ¬ rb.Grows alloc buff.length)
    (hfull : rb.full) : rb.write alloc buff = (0, rb) := by
  obtain ⟨ret, he, -⟩ := ensureWriteSpace_stay hgrows
  simp only [RingBuffer.write, he]
  rw [if_pos (.inr (h.freeSize_full hfull))]

theorem Bounded.write (h : rb.Bounded) (hsafe : rb.Safe alloc buff.length) :
    (rb.write alloc buff).2.Bounded := by
  by_cases hgrows : rb.Grows alloc buff.length
  · obtain ⟨hn, hfull⟩ := hsafe hgrows
    exact ((h.ok hfull).write alloc hn).2.1.bounded
  · by_cases hfull : rb.full → rb.r = rb.w
    · obtain ⟨ret, he, -⟩ := ensureWriteSpace_stay hgrows
      exact ((h.ok hfull).write_stay (by rw [he])).2.1.bounded
    · rw [h.write_stuck hgrows (Classical.not_imp.mp hfull).1]
      exact h

theorem Bounded.ensureWriteSpace (h : rb.Bounded) (hsafe : rb.Safe alloc n) :
    (rb.ensureWriteSpace alloc n).2.Bounded := by
  by_cases hgrows : rb.Grows alloc n
  · obtain ⟨hn, hfull⟩ := hsafe hgrows
    exact ((h.ok hfull).ensureWriteSpace alloc hn).1.bounded
  · obtain ⟨ret, he, -⟩ := ensureWriteSpace_stay hgrows
    rw [he]
    exact h

theorem Bounded.writeLen (h : rb.Bounded) (hsafe : rb.Safe alloc buff.length) :
    (rb.writeLen alloc buff).2.Bounded := by
  by_cases hgrows : rb.Grows alloc buff.length
  · obtain ⟨hn, hfull⟩ := hsafe hgrows
    rcases (h.ok hfull).writeLen alloc hn with ⟨-, hok, -⟩ | hfail
    · exact hok.bounded
    · rw [hfail]
      exact h
  · obtain ⟨ret, he, -⟩ := ensureWriteSpace_stay hgrows
    have hwrite := h.write hsafe
    simp only [RingBuffer.writeLen, he]
    cases ret with
    | ok => exact hwrite
    | _ => exact h

/-- Every call that asks for space safely keeps the cursors in range. -/
theorem Bounded.step (h : rb.Bounded) {a : Act} {rb' : RingBuffer} (hsafe : rb.SafeAct a)
    (hs : step rb a = some rb') : rb'.Bounded := by
  obtain rfl := some.inj hs
  cases a with
  | write alloc buff => exact h.write hsafe
  | writeLen alloc buff => exact h.writeLen hsafe
  | ensureWriteSpace alloc size => exact h.ensureWriteSpace hsafe
  | read size => exact h.read size
  | readLen size => exact h.readLen size
  | peek size =>
    rw [act, peek_rest]
    exact h
  | skip size => exact h.skip size
  | reset => exact ⟨h.w_lt, h.w_lt, h.capacity_le, h.max_lt⟩
  | setReadCursor r => exact h.setReadCursor r
  | setReadCursorDelta rDelta => exact h.setReadCursor _
  | setWriteCursor w => exact h.setWriteCursor w
  | setWriteCursorDelta wDelta => exact h.setWriteCursor _

theorem create_bounded {ok : Bool} {initCapacity maxCapacity : UInt32}
    (h : create ok initCapacity maxCapacity = some rb) : rb.Bounded :=
  (create_ok h).1.bounded

/-! ## Where the request is safe -/

theorem Bounded.size_add_freeSize (h : rb.Bounded) : rb.size + rb.freeSize = rb.capacity := by
  by_cases hfull : rb.full → rb.r = rb.w
  · rw [(h.ok hfull).freeSize_eq]
    exact Nat.add_sub_cancel' (h.ok hfull).size_le
  · have hset := (Classical.not_imp.mp hfull).1
    rw [h.freeSize_full hset, size, if_pos hset, Nat.add_zero]

theorem Ensures.of_stay {ret : Ret} (h : rb.Bounded) (hret : ret = .ok ↔ n ≤ rb.freeSize) :
    rb.Ensures n (ret, rb) where
  failed _ := ⟨rfl, rfl, rfl, rfl⟩
  room hok := by
    have hroom := hret.mp hok
    have hsum := h.size_add_freeSize
    change rb.size + n ≤ rb.capacity
    omega
  contents _ := rfl
  limit _ := h.capacity_le

theorem Ok.ensureWriteSpace_grows (h : rb.Ok) (hgrows : rb.Grows alloc n) (hn : n + rb.size < 2 ^ 32) :
    n + rb.size ≤ rb.maxCapacity ∧
      ∃ data, rb.ensureWriteSpace alloc n = (.ok, rb.grow data (n + rb.size)) := by
  rcases h.ensureWriteSpace_cases alloc hn with ⟨hroom, -⟩ | ⟨-, ret, hret, he⟩ | ⟨-, hmax, hgrown⟩
  · exact absurd hroom (Nat.not_le.mpr hgrows.1)
  · exfalso
    obtain ⟨hlt, hcap, hmax, hsome⟩ := hgrows
    obtain ⟨data, rfl⟩ := isSome_iff_exists.mp hsome
    rw [RingBuffer.ensureWriteSpace, if_neg (Nat.not_le.mpr hlt), if_neg hcap] at he
    simp only [if_pos hmax, h.readLen_eq, le_refl, if_true] at he
    exact hret (congrArg Prod.fst he).symm
  · exact ⟨hmax, hgrown⟩

theorem Bounded.ensures (h : rb.Bounded) (hsafe : rb.Safe alloc n) :
    rb.Ensures n (rb.ensureWriteSpace alloc n) := by
  by_cases hgrows : rb.Grows alloc n
  · obtain ⟨hn, hfull⟩ := hsafe hgrows
    have hok := h.ok hfull
    obtain ⟨hmax, data, he⟩ := hok.ensureWriteSpace_grows hgrows hn
    have hlt : rb.size < n + rb.size := Nat.lt_add_of_pos_left (Nat.zero_lt_of_lt hgrows.1)
    rw [he]
    refine ⟨fun hne => absurd rfl hne, fun _ => ?_, fun _ => hok.grow_contents data hlt hmax,
      fun _ => hmax⟩
    change (rb.grow data (n + rb.size)).size + n ≤ n + rb.size
    rw [hok.grow_size data hlt hmax, Nat.add_comm]
  · obtain ⟨ret, he, hret⟩ := ensureWriteSpace_stay hgrows
    rw [he]
    exact .of_stay h hret

theorem Bounded.allOrNothing (h : rb.Bounded) (hsafe : rb.Safe alloc buff.length) :
    rb.AllOrNothing buff (rb.writeLen alloc buff) := by
  by_cases hgrows : rb.Grows alloc buff.length
  · obtain ⟨hn, hfull⟩ := hsafe hgrows
    rcases (h.ok hfull).writeLen alloc hn with ⟨hret, -, hcontents, -⟩ | hfail
    · exact .inl ⟨hret, hcontents⟩
    · exact .inr (hfail ▸ ⟨Ret.noConfusion, rfl⟩)
  · obtain ⟨ret, he, hret⟩ := ensureWriteSpace_stay hgrows
    by_cases hroom : buff.length ≤ rb.freeSize
    · obtain rfl := hret.mpr hroom
      by_cases hfull : rb.full → rb.r = rb.w
      · obtain ⟨hok, -, hcontents, -⟩ := writeLen_of_ensureWriteSpace (h.ok hfull) hroom he
        exact .inl ⟨hok, hcontents⟩
      · have hset := (Classical.not_imp.mp hfull).1
        rw [h.freeSize_full hset, Nat.le_zero] at hroom
        obtain rfl := List.eq_nil_of_length_eq_zero hroom
        simp only [RingBuffer.writeLen, he, h.write_stuck hgrows hset]
        exact .inl ⟨rfl, (List.append_nil _).symm⟩
    · simp only [RingBuffer.writeLen, he]
      cases ret with
      | ok => exact absurd (hret.mp rfl) hroom
      | _ => exact .inr ⟨Ret.noConfusion, rfl⟩

/-! ## Where it is not -/

theorem Bounded.readLen_stuck (h : rb.Bounded) (hfull : rb.full) (hne : rb.r ≠ rb.w) :
    ∃ d rb', rb.readLen rb.size = (.fail, d, rb') ∧ rb'.r = rb.w := by
  have hr := h.r_lt
  have hw := h.w_lt
  have hcap := h.capacity_le.trans_lt h.max_lt
  have hsize : rb.size = rb.capacity := if_pos hfull
  rw [RingBuffer.readLen, if_pos le_rfl, hsize]
  simp only [RingBuffer.read, if_neg (show ¬ rb.capacity = 0 by omega), if_pos (Or.inl hne)]
  by_cases hlt : rb.r < rb.w
  · have hmin : min (rb.w - rb.r) rb.capacity = rb.w - rb.r := by omega
    rw [if_pos hlt, hmin, if_neg (by omega)]
    refine ⟨_, _, rfl, ?_⟩
    simp only [setReadCursorDelta, RingBuffer.setReadCursor,
      U32.add_of_lt (show rb.r + (rb.w - rb.r) < 2 ^ 32 by omega), Nat.add_sub_cancel' hlt.le,
      Nat.mod_eq_of_lt hw]
  · have hsub : U32.sub rb.capacity rb.r = rb.capacity - rb.r := U32.sub_of_le hr.le hcap
    have hmin : min (rb.capacity - rb.r) rb.capacity = rb.capacity - rb.r := by omega
    have hrest : min rb.w (rb.capacity - (rb.capacity - rb.r)) = rb.w := by omega
    have hfirst : rb.capacity - rb.r < rb.capacity := by omega
    rw [if_neg hlt, hsub, hmin, if_pos hfirst, hrest]
    simp only [if_neg (show ¬ rb.capacity - rb.r + rb.w = rb.capacity by omega)]
    exact ⟨_, _, rfl, Nat.mod_eq_of_lt hw⟩

theorem Bounded.safe_of_ensures (h : rb.Bounded) (hn : n < 2 ^ 32)
    (he : rb.Ensures n (rb.ensureWriteSpace alloc n)) : rb.Safe alloc n := by
  rintro ⟨hlt, hcap, hmax, hsome⟩
  obtain ⟨data, rfl⟩ := isSome_iff_exists.mp hsome
  have hfull : rb.full → rb.r = rb.w := by
    intro hset
    by_contra hne
    obtain ⟨d, rb', hread, hr⟩ := h.readLen_stuck hset hne
    have heq : rb.ensureWriteSpace (some data) n = (.fail, rb') := by
      rw [RingBuffer.ensureWriteSpace, if_neg (Nat.not_le.mpr hlt), if_neg hcap]
      simp only [if_pos hmax, hread]
    rw [heq] at he
    exact hne ((he.failed Ret.noConfusion).2.1.symm.trans hr)
  refine ⟨?_, hfull⟩
  by_contra hwrap
  have hok := h.ok hfull
  have hsum := h.size_add_freeSize
  have hnew : U32.add rb.capacity (U32.sub n rb.freeSize) < n := by
    rw [U32.sub_of_le hlt.le hn, U32.add]
    have := h.capacity_le.trans_lt h.max_lt
    omega
  have heq : (rb.ensureWriteSpace (some data) n).1 = .ok ∧
      (rb.ensureWriteSpace (some data) n).2.capacity = U32.add rb.capacity (U32.sub n rb.freeSize) := by
    rw [RingBuffer.ensureWriteSpace, if_neg (Nat.not_le.mpr hlt), if_neg hcap]
    simp only [if_pos hmax, hok.readLen_eq, le_refl, if_true]
    trivial
  have hroom := he.room heq.1
  rw [heq.2] at hroom
  omega

/-! ## Runs -/

theorem bounded_of_run {ok : Bool} {initCapacity maxCapacity : UInt32} {rb₀ : RingBuffer}
    (hcreate : create ok initCapacity maxCapacity = some rb₀) {acts : List Act}
    (hmeets : Meets step SafeAct rb₀ acts) (hrun : run step rb₀ acts = some rb) : rb.Bounded :=
  run_invariant (fun _ _ _ h hsafe hs => h.step hsafe hs) (create_bounded hcreate) hmeets hrun

/-- In every buffer that safe calls reach, a request for space and a write of that length keep their
promises exactly if the request is safe. -/
theorem space_iff_of_run {ok : Bool} {initCapacity maxCapacity : UInt32} {rb₀ : RingBuffer}
    (hcreate : create ok initCapacity maxCapacity = some rb₀) {acts : List Act}
    (hmeets : Meets step SafeAct rb₀ acts) (hrun : run step rb₀ acts = some rb)
    (alloc : Option (Nat → UInt8)) (n : UInt32) :
    (rb.Ensures n.toNat (rb.ensureWriteSpace alloc n.toNat) ∧
      ∀ buff, buff.length = n.toNat → rb.AllOrNothing buff (rb.writeLen alloc buff)) ↔
      rb.Safe alloc n.toNat := by
  have h := bounded_of_run hcreate hmeets hrun
  constructor
  · intro hboth
    exact h.safe_of_ensures n.toNat_lt hboth.1
  · intro hsafe
    exact ⟨h.ensures hsafe, fun buff hlen => h.allOrNothing (hlen ▸ hsafe)⟩

theorem space_iff_of_run_short :
    ∃ rb₀ rb, create true 32 64 = some rb₀ ∧
      run step rb₀ [.writeLen none [1, 2, 3, 4], .read 2] = some rb ∧
      ((rb.Ensures 40 (rb.ensureWriteSpace (some fun _ => 0) 40) ∧
        ∀ buff, buff.length = 40 → rb.AllOrNothing buff (rb.writeLen (some fun _ => 0) buff)) ↔
        rb.Safe (some fun _ => 0) 40) := by
  have hcreate : create true 32 64 = some ⟨0, 0, false, 32, 64, fun _ => 0⟩ := rfl
  obtain ⟨rb, hrb⟩ : ∃ rb, run step ⟨0, 0, false, 32, 64, fun _ => 0⟩
    [.writeLen none [1, 2, 3, 4], .read 2] = some rb := ⟨_, rfl⟩
  exact ⟨_, rb, hcreate, hrb, space_iff_of_run hcreate (by decide) hrb (some fun _ => 0) 40⟩

/-- A request for the largest size moves four bytes to a block of three. -/
theorem ensureWriteSpace_wraps :
    ∃ rb₀ rb, create true 32 64 = some rb₀ ∧ run step rb₀ [.writeLen none [1, 2, 3, 4]] = some rb ∧
      (rb.ensureWriteSpace (some fun _ => 0) (2 ^ 32 - 1)).1 = .ok ∧
      (rb.ensureWriteSpace (some fun _ => 0) (2 ^ 32 - 1)).2.capacity = 3 ∧
      ¬ rb.Ensures (2 ^ 32 - 1) (rb.ensureWriteSpace (some fun _ => 0) (2 ^ 32 - 1)) := by
  refine ⟨_, _, rfl, rfl, by decide, by decide, fun h => ?_⟩
  exact absurd (h.room (by decide)) (by decide)

end RingBuffer

end Awtk
