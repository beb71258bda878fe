import Awtk.Lib.Ring
import Awtk.Tkc.Types
import Awtk.Lib.Run

/-!
# The bipartite buffer

A model of `tk_lf_bp_buffer_t` as one thread uses it: an atomic index is a field.  The bytes in the buffer
(`contents`) are those between the two indices, or, behind a lap of the writer, those up to the invalid index
and those from the start on.

No sum or difference of the code leaves its `uint64_t` in a state that is `Ok`, so they are those of `Nat`.
-/

namespace Awtk

open Ring List

/-- `tk_lf_bp_buffer_t`. -/
structure LfBpBuffer where
  r : Nat
  w : Nat
  i : Nat
  writeWrapped : Bool
  readWrapped : Bool
  size : Nat
  data : Nat → UInt8

namespace LfBpBuffer

/-- `tk_lf_bp_buffer_create`, over the caller's memory. -/
def create (data : Nat → UInt8) (size : Nat) : Option LfBpBuffer :=
  if 0 < size then
    some { r := 0, w := 0, i := 0, writeWrapped := false, readWrapped := false, size, data }
  else none

/-! ## Writing -/

/-- `free` in `tk_lf_bp_buffer_write_acquire`. -/
def free (b : LfBpBuffer) : Nat :=
  if b.w < b.r then b.r - b.w - 1 else b.size - (b.w - b.r) - 1

def linearFree (b : LfBpBuffer) : Nat := min b.free (b.size - b.w)

/-- `tk_lf_bp_buffer_write_acquire`: the position it returns, with `*free_required`, or NULL. -/
def writeAcquire (b : LfBpBuffer) (freeRequired : Nat) (acceptSmaller : Bool) :
    Option (Nat × Nat) × LfBpBuffer :=
  if 0 < freeRequired ∧ (acceptSmaller = true ∨ freeRequired ≤ b.size) then
    let linearFree := b.linearFree
    let wrappedFree := b.free - linearFree
    if freeRequired ≤ linearFree then (some (b.w, freeRequired), b)
    else if freeRequired ≤ wrappedFree then
      (some (0, freeRequired), { b with writeWrapped := true })
    else if acceptSmaller then
      let wrapped := linearFree < wrappedFree
      let available := if wrapped then wrappedFree else linearFree
      if 0 < available then
        (some (if wrapped then 0 else b.w, available), { b with writeWrapped := wrapped })
      else (none, b)
    else (none, b)
  else (none, b)

/-- `tk_lf_bp_buffer_write_release`, or `none` where its assertion fails. -/
def writeRelease (b : LfBpBuffer) (written : Nat) : Option (Ret × LfBpBuffer) :=
  if 0 < written ∧ written ≤ b.size then
    let i := if b.writeWrapped then b.w else b.i
    let w := if b.writeWrapped then written else b.w + written
    if b.size < w then none
    else
      let i := if i < w then w else i
      let w := if w = b.size then 0 else w
      some (.ok, { b with writeWrapped := false, i, w })
  else some (.badParams, b)

/-- What a call returns, with `*size` and the bytes it copies to the caller. -/
structure Reply where
  ret : Ret
  size : Nat
  copied : List UInt8
  deriving DecidableEq, Repr

/-- `tk_lf_bp_buffer_write_simple`.  A copy from behind the caller's data or to what lies behind the buffer
has no defined result. -/
def writeSimple (b : LfBpBuffer) (data : List UInt8) (size : Nat) (acceptSmaller : Bool) :
    Option (Reply × LfBpBuffer) :=
  match b.writeAcquire size acceptSmaller with
  | (none, b) => some (⟨.fail, size, []⟩, b)
  | (some (p, size), b) =>
    if data.length < size ∨ b.size < p + size then none
    else
      (writeRelease { b with data := blit b.data p (data.take size) } size).map fun (ret, b) =>
        (⟨ret, size, []⟩, b)

/-! ## Reading -/

/-- `tk_lf_bp_buffer_read_acquire`: the position it returns, or NULL, and `*available`. -/
def readAcquire (b : LfBpBuffer) : Option Nat × Nat × LfBpBuffer :=
  if b.r = b.w then (none, 0, b)
  else if b.r < b.w then (some b.r, b.w - b.r, b)
  else if b.r = b.i then (some 0, b.w, { b with readWrapped := true })
  else (some b.r, b.i - b.r, b)

/-- `tk_lf_bp_buffer_read_release`, or `none` where its assertion fails. -/
def readRelease (b : LfBpBuffer) (read : Nat) : Option (Ret × LfBpBuffer) :=
  if 0 < read ∧ read ≤ b.size then
    let r := if b.readWrapped then read else b.r + read
    if b.size < r then none
    else some (.ok, { b with readWrapped := false, r := if r = b.size then 0 else r })
  else some (.badParams, b)

/-- `tk_lf_bp_buffer_read_simple`.  The caller's buffer has `size` bytes. -/
def readSimple (b : LfBpBuffer) (size : Nat) (acceptSmaller : Bool) :
    Option (Reply × LfBpBuffer) :=
  match b.readAcquire with
  | (none, _, b) => some (⟨.fail, size, []⟩, b)
  | (some p, available, b) =>
    if acceptSmaller = false ∧ available < size then some (⟨.fail, size, []⟩, b)
    else
      (b.readRelease available).map fun (ret, b') =>
        (⟨ret, available, slice b.data p available⟩, b')

/-! ## The contents -/

/-- The bytes that were written and not read. -/
def contents (b : LfBpBuffer) : List UInt8 :=
  if b.r ≤ b.w then slice b.data b.r (b.w - b.r)
  else slice b.data b.r (b.i - b.r) ++ slice b.data 0 b.w

/-- The indices are in the buffer.  In front of the reader, the writer is in a new lap, and the invalid index
is behind the bytes of the old one. -/
structure Ok (b : LfBpBuffer) : Prop where
  r_lt : b.r < b.size
  w_lt : b.w < b.size
  i_le : b.i ≤ b.size
  lap : b.w < b.r → b.r ≤ b.i ∧ (b.w = 0 → b.i = b.size)
  not_writing : b.writeWrapped = false
  reading : b.readWrapped = true → b.w < b.r ∧ b.r = b.i

variable {b b' : LfBpBuffer} {size : Nat} {data : List UInt8} {acceptSmaller : Bool}

theorem create_ok {mem : Nat → UInt8} (h : create mem size = some b) : Ok b ∧ b.contents = [] := by
  unfold create at h
  split at h
  · cases h
    exact ⟨⟨‹_›, ‹_›, Nat.zero_le _, fun hlt => absurd hlt (Nat.lt_irrefl 0), rfl,
      fun hflag => by cases hflag⟩, rfl⟩
  · cases h

/-! ## A write -/

/-- Where a write goes: behind the writer, or, if the bytes end there, to the start of the buffer. -/
inductive Room (b : LfBpBuffer) (p n : Nat) : Bool → Prop
  | behind : p = b.w → n ≤ b.linearFree → Room b p n false
  | start : p = 0 → n ≤ b.free - b.linearFree → Room b p n true

/-- What is acquired: no more than is asked for, and all of it unless less is accepted. -/
theorem writeAcquire_cases (size : Nat) (acceptSmaller : Bool) (h : b.writeWrapped = false) :
    b.writeAcquire size acceptSmaller = (none, b) ∨
    ∃ p n wrapped, b.writeAcquire size acceptSmaller =
        (some (p, n), { b with writeWrapped := wrapped }) ∧
      Room b p n wrapped ∧ 0 < n ∧ n ≤ size ∧ (acceptSmaller = false → n = size) := by
  have hsame : b = { b with writeWrapped := false } := by
    cases b
    simp only at h
    rw [h]
  rw [writeAcquire]
  split
  case isFalse => exact .inl rfl
  case isTrue hask =>
    simp only
    split
    case isTrue hle =>
      exact .inr ⟨b.w, size, false, by rw [← hsame], .behind rfl hle, hask.1, Nat.le_refl _,
        fun _ => rfl⟩
    case isFalse hnot =>
      split
      case isTrue hle =>
        exact .inr ⟨0, size, true, rfl, .start rfl hle, hask.1, Nat.le_refl _, fun _ => rfl⟩
      case isFalse hnot' =>
        split
        case isFalse => exact .inl rfl
        case isTrue haccept =>
          have hno : acceptSmaller = false → False := fun hno => by rw [haccept] at hno; cases hno
          by_cases hwrapped : b.linearFree < b.free - b.linearFree
          · simp only [hwrapped, if_true, decide_true]
            split
            case isFalse => exact .inl rfl
            case isTrue hpos =>
              exact .inr ⟨0, _, true, rfl, .start rfl (Nat.le_refl _), hpos, by omega,
                fun hsmall => (hno hsmall).elim⟩
          · simp only [hwrapped, if_false, decide_false]
            split
            case isFalse => exact .inl rfl
            case isTrue hpos =>
              exact .inr ⟨b.w, _, false, rfl, .behind rfl (Nat.le_refl _), hpos, by omega,
                fun hsmall => (hno hsmall).elim⟩

/-- A write behind the writer. -/
theorem Ok.write_behind (h : Ok b) {n : Nat} {bs : List UInt8} (hn : n ≤ b.linearFree)
    (hpos : 0 < n) (hbs : bs.length = n) :
    b.w + n ≤ b.size ∧
    ∃ b', writeRelease { b with data := blit b.data b.w bs } n = some (.ok, b') ∧ Ok b' ∧
      b'.contents = b.contents ++ bs := by
  have hr := h.r_lt
  have hw := h.w_lt
  have hi := h.i_le
  rw [linearFree, free] at hn
  have hfits : b.w + n ≤ b.size := by omega
  refine ⟨hfits, ?_⟩
  have hnew : slice (blit b.data b.w bs) b.w n = bs := by
    rw [← hbs]
    exact slice_blit ..
  rw [writeRelease, if_pos ⟨hpos, show n ≤ b.size by omega⟩]
  simp only [h.not_writing, Bool.false_eq_true, if_false, if_neg (Nat.not_lt.mpr hfits)]
  refine ⟨_, rfl, ?_⟩
  by_cases hlap : b.w < b.r
  · -- The writer stays behind the reader.
    have hroom : b.w + n < b.r := by
      rw [if_pos hlap] at hn
      omega
    have hold := h.lap hlap
    have hi' : ¬ b.i < b.w + n := by omega
    have hw' : b.w + n ≠ b.size := by omega
    simp only [if_neg hi', if_neg hw']
    refine ⟨⟨hr, by simp only; omega, hi, fun _ => ⟨hold.1, fun hz => by simp only at hz; omega⟩, rfl,
      fun hflag => ⟨hroom, (h.reading hflag).2⟩⟩, ?_⟩
    rw [contents, contents]
    simp only
    rw [if_neg (by omega), if_neg (by omega), slice_add, Nat.zero_add, hnew, append_assoc,
      slice_blit_outside (.inr (by omega)), slice_blit_outside (.inl (by omega))]
  · have hflag : b.readWrapped = false := by
      cases hread : b.readWrapped with
      | false => rfl
      | true => exact absurd (h.reading hread).1 hlap
    rw [if_neg hlap] at hn
    have hcontents : slice (blit b.data b.w bs) b.r (b.w + n - b.r) = b.contents ++ bs := by
      obtain ⟨d, hd⟩ := Nat.exists_eq_add_of_le (Nat.not_lt.mp hlap)
      rw [contents, if_pos (Nat.not_lt.mp hlap), show b.w + n - b.r = (b.w - b.r) + n by omega,
        slice_add, show b.r + (b.w - b.r) = b.w by omega, hnew,
        slice_blit_outside (.inl (by omega))]
    by_cases hend : b.w + n = b.size
    · -- The writer is at the end, and its next lap starts.
      have hi' : (if b.i < b.w + n then b.w + n else b.i) = b.size := by
        split
        · exact hend
        · omega
      simp only [hi', if_pos hend]
      refine ⟨⟨hr, by simp only; omega, Nat.le_refl _, fun _ => ⟨by simp only; omega, fun _ => rfl⟩, rfl,
        fun hread => ?_⟩, ?_⟩
      · simp only at hread
        rw [hflag] at hread
        cases hread
      · rw [← hcontents, contents]
        simp only
        rw [if_neg (by omega), hend]
        exact append_nil _
    · simp only [if_neg hend]
      refine ⟨⟨hr, by simp only; omega, by simp only; split <;> omega, fun hlt => ?_, rfl, fun hread => ?_⟩, ?_⟩
      · simp only at hlt
        omega
      · simp only at hread
        rw [hflag] at hread
        cases hread
      · rw [← hcontents, contents]
        simp only
        rw [if_pos (by omega)]

theorem Ok.write_start (h : Ok b) {n : Nat} {bs : List UInt8} (hn : n ≤ b.free - b.linearFree)
    (hpos : 0 < n) (hbs : bs.length = n) :
    0 + n ≤ b.size ∧
    ∃ b', writeRelease { b with data := blit b.data 0 bs, writeWrapped := true } n =
        some (.ok, b') ∧ Ok b' ∧ b'.contents = b.contents ++ bs := by
  have hr := h.r_lt
  have hw := h.w_lt
  rw [linearFree, free] at hn
  have hlap : ¬ b.w < b.r := by
    intro hlt
    rw [if_pos hlt] at hn
    omega
  rw [if_neg hlap] at hn
  have hroom : n < b.r := by omega
  refine ⟨by omega, ?_⟩
  have hflag : b.readWrapped = false := by
    cases hread : b.readWrapped with
    | false => rfl
    | true => exact absurd (h.reading hread).1 hlap
  have hnew : slice (blit b.data 0 bs) 0 n = bs := by
    rw [← hbs]
    exact slice_blit ..
  have hfits : ¬ b.size < n := by omega
  have hi' : ¬ b.w < n := by omega
  have hw' : n ≠ b.size := by omega
  rw [writeRelease, if_pos ⟨hpos, Nat.not_lt.mp hfits⟩]
  simp only [if_true, if_neg hfits, if_neg hi', if_neg hw']
  refine ⟨_, rfl, ⟨hr, by simp only; omega, hw.le, fun _ => ⟨by simp only; omega, fun hz => ?_⟩, rfl,
    fun hread => ?_⟩, ?_⟩
  · simp only at hz
    omega
  · simp only at hread
    rw [hflag] at hread
    cases hread
  · rw [contents, contents]
    simp only
    rw [if_neg (by omega), if_pos (by omega), hnew, slice_blit_outside (.inr (by omega))]

/-- What a write that is carried out does. -/
structure Writes (b b' : LfBpBuffer) (data : List UInt8) (size : Nat) (acceptSmaller : Bool)
    (reply : Reply) : Prop where
  ret : reply.ret = .ok
  copied : reply.copied = []
  size_pos : 0 < reply.size
  size_le : reply.size ≤ size
  size_eq : acceptSmaller = false → reply.size = size
  contents : b'.contents = b.contents ++ data.take reply.size

theorem Ok.writeSimple (h : Ok b) (acceptSmaller : Bool) (hdata : size ≤ data.length) :
    ∃ reply b', b.writeSimple data size acceptSmaller = some (reply, b') ∧ Ok b' ∧
      (Writes b b' data size acceptSmaller reply ∨ (reply = ⟨.fail, size, []⟩ ∧ b' = b)) := by
  rw [LfBpBuffer.writeSimple]
  rcases writeAcquire_cases size acceptSmaller h.not_writing with
    hnone | ⟨p, n, wrapped, hsome, hroom, hpos, hle, heq⟩
  · rw [hnone]
    exact ⟨_, _, rfl, h, .inr ⟨rfl, rfl⟩⟩
  · rw [hsome]
    have hlen : (data.take n).length = n := length_take_of_le (Nat.le_trans hle hdata)
    have hshort : ¬ data.length < n := by omega
    cases hroom with
    | behind hp hn =>
      obtain ⟨hfits, b', hrelease, hok, hcontents⟩ := h.write_behind hn hpos hlen
      have hsame : b.writeWrapped = false := h.not_writing
      refine ⟨⟨.ok, n, []⟩, b', ?_, hok, .inl ⟨rfl, rfl, hpos, hle, heq, hcontents⟩⟩
      subst hp
      simp only [hshort, Nat.not_lt.mpr hfits, or_self, if_false]
      rw [← hsame, hrelease]
      rfl
    | start hp hn =>
      obtain ⟨hfits, b', hrelease, hok, hcontents⟩ := h.write_start hn hpos hlen
      refine ⟨⟨.ok, n, []⟩, b', ?_, hok, .inl ⟨rfl, rfl, hpos, hle, heq, hcontents⟩⟩
      subst hp
      simp only [hshort, Nat.not_lt.mpr hfits, or_self, if_false, hrelease]
      rfl

/-! ## A read -/

/-- The bytes that a read finds in one piece. -/
def available (b : LfBpBuffer) : Nat := b.readAcquire.2.1

/-- What a read that is carried out does. -/
structure Reads (b b' : LfBpBuffer) (reply : Reply) : Prop where
  ret : reply.ret = .ok
  size : reply.size = b.available
  copied : reply.copied.length = b.available
  pos : 0 < b.available
  contents : b.contents = reply.copied ++ b'.contents

/-- The buffers differ at most in the flag of the reader. -/
def Alike (b b' : LfBpBuffer) : Prop := { b with readWrapped := b'.readWrapped } = b'

theorem Ok.not_reading (h : Ok b) (hnot : b.r ≤ b.w ∨ b.r ≠ b.i) : b.readWrapped = false := by
  cases hflag : b.readWrapped with
  | false => rfl
  | true =>
    have hread := h.reading hflag
    omega

theorem Ok.release_inside (h : Ok b) (hlt : b.r < b.w) :
    ∃ b', b.readRelease (b.w - b.r) = some (.ok, b') ∧ Ok b' ∧
      b.contents = slice b.data b.r (b.w - b.r) ++ b'.contents := by
  have hw := h.w_lt
  have hsum : b.r + (b.w - b.r) = b.w := by omega
  rw [readRelease, if_pos ⟨by omega, by omega⟩]
  simp only [h.not_reading (.inl (Nat.le_of_lt hlt)), Bool.false_eq_true, if_false, hsum,
    Nat.not_lt.mpr hw.le, Nat.ne_of_lt hw]
  refine ⟨_, rfl, ⟨hw, hw, h.i_le, fun hlap => absurd hlap (Nat.lt_irrefl _), h.not_writing,
    fun hflag => by cases hflag⟩, ?_⟩
  rw [contents, contents, if_pos (Nat.le_of_lt hlt)]
  simp [slice]

theorem Ok.release_lap (h : Ok b) (hlt : b.w < b.r) (hne : b.r ≠ b.i) :
    ∃ b', b.readRelease (b.i - b.r) = some (.ok, b') ∧ Ok b' ∧
      b.contents = slice b.data b.r (b.i - b.r) ++ b'.contents := by
  obtain ⟨hle, hzero⟩ := h.lap hlt
  have hi := h.i_le
  have hw := h.w_lt
  have hsum : b.r + (b.i - b.r) = b.i := by omega
  rw [readRelease, if_pos ⟨by omega, by omega⟩]
  simp only [h.not_reading (.inr hne), Bool.false_eq_true, if_false, hsum, Nat.not_lt.mpr hi]
  refine ⟨_, rfl, ?_, ?_⟩
  · split_ifs with hend
    · exact ⟨by simp only; omega, hw, hi, fun hlap => absurd hlap (Nat.not_lt_zero _), h.not_writing,
        fun hflag => by cases hflag⟩
    · exact ⟨by simp only; omega, hw, hi,
        fun _ => ⟨Nat.le_refl _, hzero⟩, h.not_writing, fun hflag => by cases hflag⟩
  · rw [contents, contents, if_neg (Nat.not_le.mpr hlt)]
    by_cases hend : b.i = b.size
    · simp only [if_pos hend, Nat.zero_le, if_true, Nat.sub_zero]
    · have hlap : ¬ b.i ≤ b.w := by omega
      simp only [if_neg hend, hlap, if_false, Nat.sub_self]
      rfl

theorem Ok.release_start (h : Ok b) (hlt : b.w < b.r) (heq : b.r = b.i) :
    0 < b.w ∧
    ∃ b', readRelease { b with readWrapped := true } b.w = some (.ok, b') ∧ Ok b' ∧
      b.contents = slice b.data 0 b.w ++ b'.contents := by
  have hr := h.r_lt
  have hw := h.w_lt
  have hpos : 0 < b.w := by
    by_contra hnot
    have hi := (h.lap hlt).2 (by omega)
    omega
  refine ⟨hpos, ?_⟩
  rw [readRelease, if_pos ⟨hpos, hw.le⟩]
  simp only [if_true, Nat.not_lt.mpr hw.le, if_false, Nat.ne_of_lt hw]
  refine ⟨_, rfl, ⟨hw, hw, h.i_le, fun hlap => absurd hlap (Nat.lt_irrefl _), h.not_writing,
    fun hflag => by cases hflag⟩, ?_⟩
  rw [contents, contents, if_neg (Nat.not_le.mpr hlt), heq]
  simp [slice]

/-- What `tk_lf_bp_buffer_read_acquire` finds: nothing, or bytes that a release takes away. -/
theorem Ok.readAcquire (h : Ok b) :
    (b.readAcquire = (none, 0, b) ∧ b.contents = []) ∨
    ∃ p flag b', b.readAcquire = (some p, b.available, { b with readWrapped := flag }) ∧
      Ok { b with readWrapped := flag } ∧ 0 < b.available ∧
      readRelease { b with readWrapped := flag } b.available = some (.ok, b') ∧ Ok b' ∧
      b.contents = slice b.data p b.available ++ b'.contents := by
  rcases Nat.lt_trichotomy b.r b.w with hlt | heq | hlt
  · have hacquire : b.readAcquire = (some b.r, b.w - b.r, b) := by
      rw [LfBpBuffer.readAcquire, if_neg (by omega), if_pos hlt]
    obtain ⟨b', hrelease, hok, hcontents⟩ := h.release_inside hlt
    refine .inr ⟨b.r, b.readWrapped, b', ?_⟩
    rw [available, hacquire]
    exact ⟨rfl, h, by simp only; omega, hrelease, hok, hcontents⟩
  · refine .inl ⟨by rw [LfBpBuffer.readAcquire, if_pos heq], ?_⟩
    rw [contents, if_pos (Nat.le_of_eq heq), heq, Nat.sub_self]
    rfl
  · by_cases hstart : b.r = b.i
    · have hacquire : b.readAcquire = (some 0, b.w, { b with readWrapped := true }) := by
        rw [LfBpBuffer.readAcquire, if_neg (by omega), if_neg (by omega), if_pos hstart]
      obtain ⟨hpos, b', hrelease, hok, hcontents⟩ := h.release_start hlt hstart
      refine .inr ⟨0, true, b', ?_⟩
      rw [available, hacquire]
      exact ⟨rfl, ⟨h.1, h.2, h.3, h.4, h.5, fun _ => ⟨hlt, hstart⟩⟩, hpos, hrelease, hok, hcontents⟩
    · have hacquire : b.readAcquire = (some b.r, b.i - b.r, b) := by
        rw [LfBpBuffer.readAcquire, if_neg (by omega), if_neg (by omega), if_neg hstart]
      obtain ⟨b', hrelease, hok, hcontents⟩ := h.release_lap hlt hstart
      have hle := (h.lap hlt).1
      refine .inr ⟨b.r, b.readWrapped, b', ?_⟩
      rw [available, hacquire]
      exact ⟨rfl, h, by simp only; omega, hrelease, hok, hcontents⟩

theorem Ok.available_eq_zero (h : Ok b) (hempty : b.contents = []) : b.available = 0 := by
  rcases h.readAcquire with ⟨hnone, -⟩ | ⟨p, flag, b', -, -, hpos, -, -, hcontents⟩
  · rw [available, hnone]
  · rw [hempty] at hcontents
    have hslice := (append_eq_nil_iff.mp hcontents.symm).1
    have hlen := congrArg List.length hslice
    rw [slice_length, length_nil] at hlen
    omega

theorem Ok.readSimple (h : Ok b) (size : Nat) (acceptSmaller : Bool) :
    ∃ reply b', b.readSimple size acceptSmaller = some (reply, b') ∧ Ok b' ∧
      (Reads b b' reply ∨ (reply = ⟨.fail, size, []⟩ ∧ Alike b b' ∧ b'.contents = b.contents ∧
        (b.contents = [] ∨ acceptSmaller = false ∧ b.available < size))) := by
  rw [LfBpBuffer.readSimple]
  rcases h.readAcquire with ⟨hnone, hempty⟩ | ⟨p, flag, b', hsome, hok, hpos, hrelease, hok', hcontents⟩
  · rw [hnone]
    exact ⟨_, _, rfl, h, .inr ⟨rfl, rfl, rfl, .inl hempty⟩⟩
  · rw [hsome]
    simp only
    split
    case isTrue hfail => exact ⟨_, _, rfl, hok, .inr ⟨rfl, rfl, rfl, .inr hfail⟩⟩
    case isFalse =>
      rw [hrelease]
      exact ⟨_, _, rfl, hok', .inl ⟨rfl, rfl, slice_length .., hpos, hcontents⟩⟩

/-! ## The flag of the reader -/

/-- A buffer whose reader has not started to wrap. -/
def settled (b : LfBpBuffer) : LfBpBuffer := { b with readWrapped := false }

theorem Ok.settled (h : Ok b) : Ok b.settled :=
  ⟨h.1, h.2, h.3, h.4, h.5, fun hflag => by cases hflag⟩

theorem Alike.settled (h : Alike b b') : b'.settled = b.settled := by
  rw [← h]
  rfl

theorem writeAcquire_settled (b : LfBpBuffer) (size : Nat) (acceptSmaller : Bool) :
    b.settled.writeAcquire size acceptSmaller =
      ((b.writeAcquire size acceptSmaller).1, (b.writeAcquire size acceptSmaller).2.settled) := by
  have hfree : b.settled.free = b.free := rfl
  have hlinear : b.settled.linearFree = b.linearFree := rfl
  have hsize : b.settled.size = b.size := rfl
  rw [writeAcquire, writeAcquire, hfree, hlinear, hsize]
  simp only
  split_ifs <;> rfl

theorem writeRelease_settled (b : LfBpBuffer) (written : Nat) :
    b.settled.writeRelease written = (b.writeRelease written).map fun r => (r.1, r.2.settled) := by
  rw [writeRelease, writeRelease]
  by_cases hask : 0 < written ∧ written ≤ b.size
  · have hask' : 0 < written ∧ written ≤ b.settled.size := hask
    rw [if_pos hask, if_pos hask']
    by_cases hfits : b.size < if b.writeWrapped = true then written else b.w + written
    · have hfits' : b.settled.size <
          if b.settled.writeWrapped = true then written else b.settled.w + written := hfits
      simp only [if_pos hfits, if_pos hfits']
      rfl
    · have hfits' : ¬ b.settled.size <
          if b.settled.writeWrapped = true then written else b.settled.w + written := hfits
      simp only [if_neg hfits, if_neg hfits']
      rfl
  · have hask' : ¬ (0 < written ∧ written ≤ b.settled.size) := hask
    rw [if_neg hask, if_neg hask']
    rfl

theorem writeSimple_settled (b : LfBpBuffer) (data : List UInt8) (size : Nat) (acceptSmaller : Bool) :
    b.settled.writeSimple data size acceptSmaller =
      (b.writeSimple data size acceptSmaller).map fun r => (r.1, r.2.settled) := by
  rw [LfBpBuffer.writeSimple, LfBpBuffer.writeSimple, writeAcquire_settled]
  rcases b.writeAcquire size acceptSmaller with ⟨_ | ⟨p, n⟩, b₁⟩
  · rfl
  · simp only
    have hsize : b₁.settled.size = b₁.size := rfl
    rw [hsize]
    split
    · rfl
    · have hrelease := writeRelease_settled { b₁ with data := blit b₁.data p (data.take n) } n
      simp only [LfBpBuffer.settled] at hrelease ⊢
      rw [hrelease, Option.map_map, Option.map_map]
      rfl

theorem Ok.readSimple_settled (h : Ok b) :
    b.settled.readSimple size acceptSmaller = b.readSimple size acceptSmaller := by
  have hacquire : b.readWrapped = true → b.settled.readAcquire = b.readAcquire := by
    intro hflag
    obtain ⟨hlt, heq⟩ := h.reading hflag
    have hne : b.r ≠ b.w := Nat.ne_of_gt hlt
    have hnot : ¬ b.r < b.w := Nat.not_lt.mpr hlt.le
    have hne' : b.settled.r ≠ b.settled.w := hne
    have hnot' : ¬ b.settled.r < b.settled.w := hnot
    have heq' : b.settled.r = b.settled.i := heq
    rw [LfBpBuffer.readAcquire, LfBpBuffer.readAcquire, if_neg hne, if_neg hne', if_neg hnot,
      if_neg hnot', if_pos heq, if_pos heq']
    rfl
  cases hflag : b.readWrapped with
  | true => rw [LfBpBuffer.readSimple, LfBpBuffer.readSimple, hacquire hflag]
  | false =>
    have hsame : b.settled = b := by
      rw [LfBpBuffer.settled, ← hflag]
    rw [hsame]

end LfBpBuffer

end Awtk

/-!
## The bipartite buffer is a byte queue

Runs of `tk_lf_bp_buffer_write_simple` and `tk_lf_bp_buffer_read_simple`.  What was read is always what was
written, in order, and a call that fails cannot be noticed.  A read copies all the bytes that it finds in one
piece, whatever it was asked for, and so it stays in the caller's buffer exactly where this is long enough
for them (`queue_iff`).
-/

namespace Awtk.LfBpBuffer

open Ring Runs

/-- A call, with the number that `*size` holds. -/
inductive Call where
  | write (data : List UInt8) (size : Nat) (acceptSmaller : Bool)
  | read (size : Nat) (acceptSmaller : Bool)
  deriving DecidableEq, Repr

/-- The caller has as many bytes as it says. -/
def Call.Valid : Call → Prop
  | .write data size _ => size ≤ data.length
  | .read _ _ => True

instance : ∀ c : Call, Decidable c.Valid
  | .write .. => inferInstanceAs (Decidable (_ ≤ _))
  | .read .. => inferInstanceAs (Decidable True)

/-- One call. -/
def answer (b : LfBpBuffer) : Call → Option (Reply × LfBpBuffer)
  | .write data size acceptSmaller => b.writeSimple data size acceptSmaller
  | .read size acceptSmaller => b.readSimple size acceptSmaller

/-- One call as a step of the buffer. -/
def step (b : LfBpBuffer) (c : Call) : Option LfBpBuffer := (b.answer c).map Prod.snd

/-- The calls of a run, with their replies. -/
def replies (b : LfBpBuffer) : List Call → Option (List (Call × Reply))
  | [] => some []
  | c :: cs => (b.answer c).bind fun (reply, b) => (b.replies cs).map ((c, reply) :: ·)

/-- The bytes that a call wrote. -/
def written : Call × Reply → List UInt8
  | (.write data _ _, ⟨.ok, size, _⟩) => data.take size
  | _ => []

/-- The bytes that a call read. -/
def taken (r : Call × Reply) : List UInt8 := r.2.copied

/-- A read copies no more bytes than the caller has room for. -/
def Bounded : Call × Reply → Prop
  | (.read size _, reply) => reply.copied.length ≤ size
  | _ => True

/-- A run of the buffer is one of a queue of bytes. -/
structure Queue (b : LfBpBuffer) (calls : List Call) : Prop where
  /-- What was read is what was written, but for the bytes that are in the buffer. -/
  fifo : ∃ log b', b.replies calls = some log ∧ run step b calls = some b' ∧
    log.flatMap written = log.flatMap taken ++ b'.contents
  /-- Only a read of an empty buffer fails, or one that asks for more than there is in one piece. -/
  lossless : ∀ pre size acceptSmaller post, calls = pre ++ .read size acceptSmaller :: post →
    ∃ b₁ reply b₂, run step b pre = some b₁ ∧ b₁.readSimple size acceptSmaller = some (reply, b₂) ∧
      (reply.ret = .fail → b₁.contents = [] ∨ acceptSmaller = false ∧ b₁.available < size)
  /-- A call that fails changes nothing that a later call could notice. -/
  quiet : ∀ pre c post, calls = pre ++ c :: post →
    ∃ b₁ reply b₂, run step b pre = some b₁ ∧ b₁.answer c = some (reply, b₂) ∧
      (reply.ret = .fail → b₂.contents = b₁.contents ∧
        ∀ calls, (∀ c ∈ calls, c.Valid) → b₂.replies calls = b₁.replies calls)
  bounded : ∀ log, b.replies calls = some log → ∀ r ∈ log, Bounded r

/-- A read has room for the bytes that it finds in one piece. -/
def Fits (b : LfBpBuffer) : Call → Prop
  | .read size _ => b.available ≤ size
  | _ => True

instance (b : LfBpBuffer) : ∀ c : Call, Decidable (b.Fits c)
  | .write .. => inferInstanceAs (Decidable True)
  | .read .. => inferInstanceAs (Decidable (_ ≤ _))

variable {b b' : LfBpBuffer} {c : Call} {calls : List Call}

/-! ## One call -/

/-- A call that is carried out, or that fails. -/
theorem Ok.answer (h : Ok b) (hvalid : c.Valid) :
    ∃ reply b', b.answer c = some (reply, b') ∧ Ok b' ∧
      b.contents ++ written (c, reply) = taken (c, reply) ++ b'.contents ∧
      (reply.ret = .fail → b'.contents = b.contents ∧ b'.settled = b.settled) ∧
      (Bounded (c, reply) ↔ Fits b c) := by
  cases c with
  | write data size acceptSmaller =>
    obtain ⟨⟨ret, n, copied⟩, b', hwrite, hok, hcases⟩ :=
      h.writeSimple acceptSmaller hvalid
    refine ⟨_, b', hwrite, hok, ?_, ?_, Iff.rfl⟩
    · rcases hcases with hw | ⟨hfail, rfl⟩
      · obtain rfl : ret = .ok := hw.ret
        obtain rfl : copied = [] := hw.copied
        exact hw.contents.symm
      · cases hfail
        exact List.append_nil _
    · rcases hcases with hw | ⟨-, rfl⟩
      · obtain rfl : ret = .ok := hw.ret
        exact fun hfail => by cases hfail
      · exact fun _ => ⟨rfl, rfl⟩
  | read size acceptSmaller =>
    obtain ⟨⟨ret, n, copied⟩, b', hread, hok, hcases⟩ :=
      h.readSimple size acceptSmaller
    refine ⟨_, b', hread, hok, ?_, ?_, ?_⟩
    · rcases hcases with hr | ⟨hfail, -, hcontents, -⟩
      · exact (List.append_nil _).trans hr.contents
      · cases hfail
        exact (List.append_nil _).trans hcontents.symm
    · rcases hcases with hr | ⟨-, halike, hcontents, -⟩
      · obtain rfl : ret = .ok := hr.ret
        exact fun hfail => by cases hfail
      · exact fun _ => ⟨hcontents, halike.settled⟩
    · rcases hcases with hr | ⟨hfail, -, -, hshort⟩
      · show copied.length ≤ size ↔ b.available ≤ size
        rw [show copied.length = b.available from hr.copied]
      · cases hfail
        refine iff_of_true (Nat.zero_le _) ?_
        show b.available ≤ size
        rcases hshort with hempty | ⟨-, hlt⟩
        · rw [h.available_eq_zero hempty]
          exact Nat.zero_le _
        · exact hlt.le

theorem Ok.replies_settled : ∀ {calls : List Call} {b : LfBpBuffer}, Ok b →
    (∀ c ∈ calls, c.Valid) → b.settled.replies calls = b.replies calls
  | [], _, _, _ => rfl
  | c :: calls, b, h, hvalid => by
    obtain ⟨reply, b', hanswer, hok, -⟩ := h.answer (hvalid c List.mem_cons_self)
    have hrest : ∀ d ∈ calls, d.Valid := fun d hd => hvalid d (List.mem_cons_of_mem c hd)
    have hsame : b.settled.answer c = some (reply, b'.settled) ∨
        b.settled.answer c = some (reply, b') := by
      cases c with
      | write data size acceptSmaller =>
        refine .inl ((writeSimple_settled b data size acceptSmaller).trans ?_)
        rw [show b.writeSimple data size acceptSmaller = some (reply, b') from hanswer]
        rfl
      | read size acceptSmaller => exact .inr (h.readSimple_settled.trans hanswer)
    rw [replies, replies, hanswer, Option.bind_some]
    rcases hsame with hsame | hsame
    · rw [hsame, Option.bind_some]
      simp only [hok.replies_settled hrest]
    · rw [hsame, Option.bind_some]

/-! ## Runs -/

/-- A run goes on to its end, and the contents account for the bytes. -/
theorem Ok.run : ∀ {calls : List Call} {b : LfBpBuffer}, Ok b → (∀ c ∈ calls, c.Valid) →
    ∃ log b', b.replies calls = some log ∧ Runs.run step b calls = some b' ∧ Ok b' ∧
      b.contents ++ log.flatMap written = log.flatMap taken ++ b'.contents
  | [], b, h, _ => ⟨[], b, rfl, rfl, h, List.append_nil _⟩
  | c :: calls, b, h, hvalid => by
    obtain ⟨reply, b₁, hanswer, hok, hbytes, -⟩ := h.answer (hvalid c List.mem_cons_self)
    obtain ⟨log, b', hlog, hrun, hok', hrest⟩ :=
      hok.run fun d hd => hvalid d (List.mem_cons_of_mem c hd)
    refine ⟨(c, reply) :: log, b', ?_, ?_, hok', ?_⟩
    · rw [replies, hanswer, Option.bind_some]
      simp only [hlog, Option.map_some]
    · rw [run_cons, step, hanswer]
      exact hrun
    · rw [List.flatMap_cons, List.flatMap_cons, ← List.append_assoc, hbytes, List.append_assoc, hrest,
        List.append_assoc]

theorem Ok.bounded_iff : ∀ {calls : List Call} {b : LfBpBuffer}, Ok b → (∀ c ∈ calls, c.Valid) →
    ((∀ log, b.replies calls = some log → ∀ r ∈ log, Bounded r) ↔ Meets step Fits b calls)
  | [], b, _, _ => by
    refine iff_of_true (fun log hlog r hr => ?_) trivial
    cases hlog
    cases hr
  | c :: calls, b, h, hvalid => by
    have hrest : ∀ d ∈ calls, d.Valid := fun d hd => hvalid d (List.mem_cons_of_mem c hd)
    obtain ⟨reply, b₁, hanswer, hok, -, -, hfits⟩ := h.answer (hvalid c List.mem_cons_self)
    have hstep : step b c = some b₁ := by rw [step, hanswer, Option.map_some]
    obtain ⟨log, -, hlog, -⟩ := hok.run hrest
    have hreplies : b.replies (c :: calls) = some ((c, reply) :: log) := by
      rw [replies, hanswer, Option.bind_some]
      simp only [hlog, Option.map_some]
    rw [meets_cons_some hstep, ← hok.bounded_iff hrest, ← hfits, hreplies, hlog]
    simp only [Option.some.injEq, forall_eq', List.mem_cons, forall_eq_or_imp]

/-- The buffer is a queue of bytes exactly if every read has room for what it finds in one piece. -/
theorem queue_iff {mem : Nat → UInt8} {size : Nat} (hnew : create mem size = some b)
    (hvalid : ∀ c ∈ calls, c.Valid) : Queue b calls ↔ Meets step Fits b calls := by
  obtain ⟨h, hempty⟩ := create_ok hnew
  rw [← h.bounded_iff hvalid]
  refine ⟨fun hqueue => hqueue.bounded, fun hbounded => ⟨?_, ?_, ?_, hbounded⟩⟩
  · obtain ⟨log, b', hlog, hrun, -, hbytes⟩ := h.run hvalid
    rw [hempty, List.nil_append] at hbytes
    exact ⟨log, b', hlog, hrun, hbytes⟩
  · intro pre size acceptSmaller post hcalls
    have hpre : ∀ d ∈ pre, d.Valid := fun d hd => hvalid d (hcalls ▸ List.mem_append_left _ hd)
    obtain ⟨-, b₁, -, hrun, hok, -⟩ := h.run hpre
    obtain ⟨reply, b₂, hread, -, hcases⟩ := hok.readSimple size acceptSmaller
    refine ⟨b₁, reply, b₂, hrun, hread, fun hfail => ?_⟩
    rcases hcases with hr | ⟨-, -, -, hshort⟩
    · rw [hr.ret] at hfail
      cases hfail
    · exact hshort
  · intro pre c post hcalls
    have hpre : ∀ d ∈ pre, d.Valid := fun d hd => hvalid d (hcalls ▸ List.mem_append_left _ hd)
    obtain ⟨-, b₁, -, hrun, hok, -⟩ := h.run hpre
    obtain ⟨reply, b₂, hanswer, hok₂, -, hquiet, -⟩ :=
      hok.answer (hvalid c (hcalls ▸ List.mem_append_right _ List.mem_cons_self))
    refine ⟨b₁, reply, b₂, hrun, hanswer, fun hfail => ⟨(hquiet hfail).1, fun later hlater => ?_⟩⟩
    rw [← hok₂.replies_settled hlater, (hquiet hfail).2, hok.replies_settled hlater]

/-- A buffer of four bytes, with a write in a second lap. -/
theorem queue_iff_laps : ∃ b, create (fun _ => 0) 4 = some b ∧
    Queue b [.write [1, 2, 3] 3 false, .read 3 false, .write [4, 5] 2 true, .read 9 false,
      .read 4 true, .read 4 true] := by
  have hnew : create (fun _ => 0) 4 = some ⟨0, 0, 0, false, false, 4, fun _ => 0⟩ := rfl
  exact ⟨_, hnew, (queue_iff hnew (by decide)).mpr (by decide +kernel)⟩

/-- A read that is asked for one byte copies three. -/
theorem not_queue_short : ∃ b, create (fun _ => 0) 8 = some b ∧
    (∀ c ∈ [Call.write [1, 2, 3] 3 false, .read 1 true], c.Valid) ∧
    ¬ Queue b [.write [1, 2, 3] 3 false, .read 1 true] := by
  refine ⟨_, rfl, by decide, fun hqueue => ?_⟩
  have hread := hqueue.bounded [(.write [1, 2, 3] 3 false, ⟨.ok, 3, []⟩),
    (.read 1 true, ⟨.ok, 3, [1, 2, 3]⟩)] (by decide +kernel) _
    (List.mem_cons_of_mem _ List.mem_cons_self)
  have hlen : 3 ≤ 1 := hread
  exact absurd hlen (by decide)

end Awtk.LfBpBuffer
