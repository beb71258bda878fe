import Awtk.Tkc.Types

/-!
# The write buffer

A model of `wbuffer_t`.  `data` is the block the buffer owns or was given, so
its length is the capacity.  The logical contents are the bytes before the
cursor.  `realloc n` says whether the allocator hands out a block of `n` bytes.

An operation gives `none` where the C code has no defined behaviour: when it
writes behind the block, and when the grown capacity, a `double`, does not fit
the `uint32_t` it is converted to.
-/

namespace Awtk

open List Option

/-- `wbuffer_t`. -/
structure WBuffer where
  data : List UInt8
  cursor : Nat
  capacity : Nat
  extendable : Bool
  deriving DecidableEq, Repr

namespace WBuffer

/-! ## Operations -/

/-- `wbuffer_init`: the caller's block. -/
def init (data : List UInt8) : WBuffer := ⟨data, 0, data.length, false⟩

def initExtendable : WBuffer := ⟨[], 0, 0, true⟩

def rewind (wb : WBuffer) : WBuffer := { wb with cursor := 0 }

/-- `wbuffer_extend_capacity`.  The block grows to at least one and a half times
its size and the part behind the cursor is cleared. -/
def extendCapacity (realloc : Nat → Bool) (wb : WBuffer) (capacity : Nat) :
    Option (Ret × WBuffer) :=
  if capacity ≤ wb.capacity then some (.ok, wb)
  else if wb.extendable = false then some (.fail, wb)
  else
    let capacity := max capacity (wb.capacity * 3 / 2)
    if 2 ^ 32 ≤ capacity then none
    else if realloc capacity then
      let data := wb.data.take wb.cursor ++ List.replicate (capacity - wb.cursor) 0
      some (.ok, { wb with data, capacity })
    else some (.oom, wb)

/-- `wbuffer_extend_delta`.  The sum is a `uint32_t`. -/
def extendDelta (realloc : Nat → Bool) (wb : WBuffer) (delta : Nat) : Option (Ret × WBuffer) :=
  wb.extendCapacity realloc (U32.add (U32.add wb.cursor delta) 1)

/-- The `memcpy` to the cursor and the advance of the cursor. -/
def put (wb : WBuffer) (bytes : List UInt8) : Option WBuffer :=
  if wb.cursor + bytes.length ≤ wb.data.length then
    let data := wb.data.take wb.cursor ++ bytes ++ wb.data.drop (wb.cursor + bytes.length)
    some { wb with data, cursor := U32.add wb.cursor bytes.length }
  else none

/-- `wbuffer_write_binary`.  The typed writes are this one at the bytes of the
value. -/
def writeBinary (realloc : Nat → Bool) (wb : WBuffer) (bytes : List UInt8) :
    Option (Ret × WBuffer) := do
  match ← wb.extendDelta realloc bytes.length with
  | (.ok, wb) => return (.ok, ← wb.put bytes)
  | (_, wb) => return (.badParams, wb)

def writeUint8 (realloc : Nat → Bool) (wb : WBuffer) (value : UInt8) : Option (Ret × WBuffer) :=
  wb.writeBinary realloc [value]

/-! ## Contents -/

/-- The bytes written so far. -/
def contents (wb : WBuffer) : List UInt8 := wb.data.take wb.cursor

/-- The block has the size the buffer records and the cursor is in it. -/
structure Ok (wb : WBuffer) : Prop where
  size : wb.data.length = wb.capacity
  cursor : wb.cursor ≤ wb.capacity
  bound : wb.capacity < 2 ^ 32

theorem init_ok {data : List UInt8} (h : data.length < 2 ^ 32) : (init data).Ok :=
  ⟨rfl, Nat.zero_le _, h⟩

theorem initExtendable_ok : initExtendable.Ok := ⟨rfl, Nat.le_refl 0, by decide⟩

variable {wb wb' : WBuffer} {realloc : Nat → Bool} {bytes : List UInt8}

theorem Ok.contents_length (hw : wb.Ok) : wb.contents.length = wb.cursor := by
  rw [contents, length_take, hw.size, Nat.min_eq_left hw.cursor]

theorem Ok.rewind (hw : wb.Ok) : wb.rewind.Ok := ⟨hw.size, Nat.zero_le _, hw.bound⟩

@[simp] theorem rewind_contents (wb : WBuffer) : wb.rewind.contents = [] := rfl

/-- Moving the cursor back drops the bytes behind it. -/
theorem Ok.back (hw : wb.Ok) (n : Nat) : { wb with cursor := wb.cursor - n }.Ok :=
  ⟨hw.size, le_trans (Nat.sub_le _ _) hw.cursor, hw.bound⟩

theorem back_contents (hw : wb.Ok) (n : Nat) :
    { wb with cursor := wb.cursor - n }.contents = wb.contents.take (wb.contents.length - n) := by
  rw [hw.contents_length, contents, contents, take_take, Nat.min_eq_left (Nat.sub_le _ _)]

/-! ## Growing -/

theorem extendCapacity_cases {capacity : Nat} {r : Ret} (hw : wb.Ok)
    (h : wb.extendCapacity realloc capacity = some (r, wb')) :
    (r = .ok ∧ wb'.Ok ∧ capacity ≤ wb'.capacity ∧ wb'.cursor = wb.cursor ∧
      wb'.contents = wb.contents ∧ wb'.extendable = wb.extendable) ∨
    (r ≠ .ok ∧ wb' = wb) := by
  unfold extendCapacity at h
  split at h
  case isTrue hle =>
    obtain ⟨rfl, rfl⟩ : r = .ok ∧ wb' = wb := by simpa [eq_comm] using h
    exact .inl ⟨rfl, hw, hle, rfl, rfl, rfl⟩
  case isFalse hgt =>
    split at h
    case isTrue =>
      obtain ⟨rfl, rfl⟩ : r = .fail ∧ wb' = wb := by simpa [eq_comm] using h
      exact .inr ⟨by decide, rfl⟩
    case isFalse =>
      dsimp only at h
      split at h
      case isTrue => cases h
      case isFalse hlt =>
        split at h
        case isTrue =>
          cases h
          have hc := hw.cursor
          have hlen : (wb.data.take wb.cursor).length = wb.cursor := hw.contents_length
          refine .inl ⟨rfl, ⟨?_, ?_, by simpa using hlt⟩, le_max_left _ _, rfl, ?_, rfl⟩
          · show (wb.data.take wb.cursor ++ List.replicate _ 0).length = max capacity _
            rw [length_append, hlen, length_replicate]
            omega
          · show wb.cursor ≤ max capacity _
            omega
          · exact take_left' hlen
        case isFalse =>
          cases h
          exact .inr ⟨by decide, rfl⟩

theorem put_ok (hw : wb.Ok) (h : wb.put bytes = some wb') :
    wb'.Ok ∧ wb'.contents = wb.contents ++ bytes ∧ wb'.capacity = wb.capacity ∧
      wb'.extendable = wb.extendable := by
  unfold put at h
  split at h
  case isFalse => cases h
  case isTrue hle =>
    cases h
    have hb := hw.bound
    have hsize := hw.size
    have hlen : (wb.data.take wb.cursor).length = wb.cursor := hw.contents_length
    have hadd : U32.add wb.cursor bytes.length = wb.cursor + bytes.length :=
      U32.add_of_lt (by omega)
    have hpre : (wb.data.take wb.cursor ++ bytes).length = wb.cursor + bytes.length := by
      rw [length_append, hlen]
    refine ⟨⟨?_, ?_, hb⟩, ?_, rfl, rfl⟩
    · show (wb.data.take wb.cursor ++ bytes ++ _).length = wb.capacity
      rw [length_append, hpre, length_drop]
      omega
    · show U32.add wb.cursor bytes.length ≤ wb.capacity
      omega
    · show (wb.data.take wb.cursor ++ bytes ++ _).take (U32.add wb.cursor bytes.length) = _
      rw [hadd, take_left' hpre, contents]

/-! ## Writing -/

theorem writeBinary_eq_some {r : Ret} (h : wb.writeBinary realloc bytes = some (r, wb')) :
    (∃ grown, wb.extendDelta realloc bytes.length = some (.ok, grown) ∧
      grown.put bytes = some wb' ∧ r = .ok) ∨
    (∃ r', r' ≠ .ok ∧ wb.extendDelta realloc bytes.length = some (r', wb') ∧ r = .badParams) := by
  unfold writeBinary at h
  obtain ⟨⟨r', grown⟩, hx, h⟩ := bind_eq_some_iff.mp h
  by_cases hr : r' = .ok
  · subst hr
    obtain ⟨w, hp, h⟩ := bind_eq_some_iff.mp h
    cases h
    exact .inl ⟨grown, hx, hp, rfl⟩
  · have h : some (Ret.badParams, grown) = some (r, wb') := by
      cases r' <;> first | exact h | exact absurd rfl hr
    cases h
    exact .inr ⟨r', hr, hx, rfl⟩

theorem Ok.writeBinary_ok (hw : wb.Ok) (h : wb.writeBinary realloc bytes = some (.ok, wb')) :
    wb'.Ok ∧ wb'.contents = wb.contents ++ bytes ∧ wb'.extendable = wb.extendable := by
  cases writeBinary_eq_some h with
  | inr hbad =>
    obtain ⟨_, _, _, hr⟩ := hbad
    cases hr
  | inl hok =>
    obtain ⟨grown, hx, hp, _⟩ := hok
    cases extendCapacity_cases hw hx with
    | inr hbad => exact absurd rfl hbad.1
    | inl hgrown =>
      obtain ⟨_, hg, _, _, hcont, hext⟩ := hgrown
      obtain ⟨hok, hput, _, hext'⟩ := put_ok hg hp
      exact ⟨hok, by rw [hput, hcont], by rw [hext', hext]⟩

theorem Ok.writeBinary_not_ok {r : Ret} (hw : wb.Ok) (hr : r ≠ .ok)
    (h : wb.writeBinary realloc bytes = some (r, wb')) : r = .badParams ∧ wb' = wb := by
  cases writeBinary_eq_some h with
  | inl hok =>
    obtain ⟨_, _, _, rfl⟩ := hok
    exact absurd rfl hr
  | inr hbad =>
    obtain ⟨r', hr', hx, rfl⟩ := hbad
    cases extendCapacity_cases hw hx with
    | inl hgrown => exact absurd hgrown.1 hr'
    | inr hsame => exact ⟨rfl, hsame.2⟩

/-! ## Room -/

/-- Two thirds of `2 ^ 32`, rounded up: a block of this size grows to `2 ^ 32`
bytes or more, which a `uint32_t` does not hold. -/
def growLimit : Nat := 2863311531

/-- `n` bytes of contents fit: in the block there is, or in the blocks the
allocator hands out. -/
def Room (realloc : Nat → Bool) (wb : WBuffer) (n : Nat) : Prop :=
  n < wb.capacity ∨
    (wb.extendable = true ∧ n < growLimit ∧ ∀ k, k ≤ 2 * n + 2 → realloc k = true)

theorem Room.rewind {n : Nat} (h : Room realloc wb n) : Room realloc wb.rewind n := h

theorem Room.sum_eq {n d : Nat} (hw : wb.Ok) (h : Room realloc wb n) (hd : wb.cursor + d ≤ n) :
    U32.add (U32.add wb.cursor d) 1 = wb.cursor + d + 1 := by
  have hb := hw.bound
  have hlim : growLimit = 2863311531 := rfl
  have hn : n + 1 < 2 ^ 32 := by
    cases h with
    | inl h => omega
    | inr h => omega
  rw [U32.add_of_lt (a := wb.cursor) (by omega), U32.add_of_lt (by omega)]

theorem Room.extendDelta {n d : Nat} (hw : wb.Ok) (h : Room realloc wb n)
    (hd : wb.cursor + d ≤ n) :
    ∃ grown, wb.extendDelta realloc d = some (.ok, grown) ∧ Room realloc grown n ∧
      wb.cursor + d < grown.capacity := by
  have hc := hw.cursor
  have hlim : growLimit = 2863311531 := rfl
  rw [WBuffer.extendDelta, h.sum_eq hw hd, extendCapacity]
  by_cases hle : wb.cursor + d + 1 ≤ wb.capacity
  · exact ⟨wb, if_pos hle, h, hle⟩
  · cases h with
    | inl h => omega
    | inr h =>
      have hnot : ¬ wb.extendable = false := by rw [h.1]; decide
      have hmax : max (wb.cursor + d + 1) (wb.capacity * 3 / 2) ≤ 2 * n + 2 := by omega
      have hlt : ¬ 2 ^ 32 ≤ max (wb.cursor + d + 1) (wb.capacity * 3 / 2) := by omega
      rw [if_neg hle, if_neg hnot]
      dsimp only
      rw [if_neg hlt, if_pos (h.2.2 _ hmax)]
      exact ⟨_, rfl, .inr h, lt_of_lt_of_le (Nat.lt_succ_self _) (le_max_left _ _)⟩

theorem put_of_le (h : wb.cursor + bytes.length ≤ wb.data.length) :
    ∃ wb', wb.put bytes = some wb' ∧ wb'.capacity = wb.capacity ∧
      wb'.extendable = wb.extendable :=
  ⟨_, if_pos h, rfl, rfl⟩

theorem Room.writeBinary {n : Nat} (hw : wb.Ok) (h : Room realloc wb n)
    (hn : wb.cursor + bytes.length ≤ n) :
    ∃ wb', wb.writeBinary realloc bytes = some (.ok, wb') ∧ Room realloc wb' n := by
  obtain ⟨grown, hx, hroom, hlt⟩ := h.extendDelta hw hn
  cases extendCapacity_cases hw hx with
  | inr hbad => exact absurd rfl hbad.1
  | inl hgrown =>
    obtain ⟨_, hg, _, hcur, _, _⟩ := hgrown
    have hfit : grown.cursor + bytes.length ≤ grown.data.length := by
      rw [hcur, hg.size]
      exact Nat.le_of_lt hlt
    obtain ⟨wb', hput, hcap, hext⟩ := put_of_le hfit
    refine ⟨wb', ?_, ?_⟩
    · rw [WBuffer.writeBinary, hx]
      show (grown.put bytes).bind _ = _
      rw [hput]
      rfl
    · rw [Room, hcap, hext]
      exact hroom

theorem extendDelta_defined {d : Nat} (h : wb.cursor + d < growLimit) :
    ∃ r grown, wb.extendDelta realloc d = some (r, grown) := by
  have hlim : growLimit = 2863311531 := rfl
  rw [WBuffer.extendDelta, U32.add_of_lt (a := wb.cursor) (by omega), U32.add_of_lt (by omega),
    extendCapacity]
  by_cases hle : wb.cursor + d + 1 ≤ wb.capacity
  · exact ⟨_, _, if_pos hle⟩
  · rw [if_neg hle]
    by_cases hext : wb.extendable = false
    · exact ⟨_, _, if_pos hext⟩
    · have hlt : ¬ 2 ^ 32 ≤ max (wb.cursor + d + 1) (wb.capacity * 3 / 2) := by omega
      rw [if_neg hext]
      dsimp only
      rw [if_neg hlt]
      cases realloc (max (wb.cursor + d + 1) (wb.capacity * 3 / 2)) with
      | true => exact ⟨_, _, rfl⟩
      | false => exact ⟨_, _, rfl⟩

theorem Ok.writeBinary_defined (hw : wb.Ok) (h : wb.cursor + bytes.length < growLimit) :
    ∃ r wb', wb.writeBinary realloc bytes = some (r, wb') := by
  have hlim : growLimit = 2863311531 := rfl
  obtain ⟨r, grown, hx⟩ :
      ∃ r grown, wb.extendDelta realloc bytes.length = some (r, grown) := extendDelta_defined h
  rw [WBuffer.writeBinary, hx]
  cases extendCapacity_cases hw hx with
  | inr hbad =>
    refine ⟨.badParams, grown, ?_⟩
    cases r <;> first | rfl | exact absurd rfl hbad.1
  | inl hgrown =>
    obtain ⟨rfl, hg, hcap, hcur, _, _⟩ := hgrown
    rw [U32.add_of_lt (a := wb.cursor) (by omega), U32.add_of_lt (by omega)] at hcap
    have hfit : grown.cursor + bytes.length ≤ grown.data.length := by
      rw [hcur, hg.size]
      exact Nat.le_of_lt hcap
    obtain ⟨wb', hput, _, _⟩ := put_of_le hfit
    refine ⟨.ok, wb', ?_⟩
    show (grown.put bytes).bind _ = _
    rw [hput]
    rfl

theorem extendCapacity_refused {capacity : Nat} {r : Ret} (hr : ∀ n, realloc n = false)
    (h : wb.extendCapacity realloc capacity = some (r, wb')) : wb' = wb := by
  unfold extendCapacity at h
  split at h
  case isTrue => cases h; rfl
  case isFalse =>
    split at h
    case isTrue => cases h; rfl
    case isFalse =>
      dsimp only at h
      split at h
      case isTrue => cases h
      case isFalse =>
        rw [hr] at h
        cases h
        rfl

theorem Ok.writeBinary_refused {r : Ret} (hw : wb.Ok) (hr : ∀ n, realloc n = false)
    (h : wb.writeBinary realloc bytes = some (r, wb')) : wb'.capacity = wb.capacity := by
  cases writeBinary_eq_some h with
  | inl hok =>
    obtain ⟨grown, hx, hput, _⟩ := hok
    have hsame : grown = wb := extendCapacity_refused hr hx
    rw [hsame] at hput
    exact (put_ok hw hput).2.2.1
  | inr hbad =>
    obtain ⟨_, _, hx, _⟩ := hbad
    rw [extendCapacity_refused hr hx]

/-- The capacity an extendable buffer has after it was asked for `capacity`
bytes, if the allocator hands them out. -/
def grownCapacity (realloc : Nat → Bool) (old capacity : Nat) : Option Nat :=
  if capacity ≤ old then some old
  else if max capacity (old * 3 / 2) < 2 ^ 32 ∧ realloc (max capacity (old * 3 / 2)) = true then
    some (max capacity (old * 3 / 2))
  else none

theorem extendCapacity_eq_ok {capacity : Nat} (hext : wb.extendable = true) :
    (∀ w, wb.extendCapacity realloc capacity = some (.ok, w) →
      grownCapacity realloc wb.capacity capacity = some w.capacity) ∧
    (∀ c, grownCapacity realloc wb.capacity capacity = some c →
      ∃ w, wb.extendCapacity realloc capacity = some (.ok, w) ∧ w.capacity = c) := by
  unfold extendCapacity grownCapacity
  by_cases hle : capacity ≤ wb.capacity
  · rw [if_pos hle, if_pos hle]
    constructor
    · intro w h
      cases h
      rfl
    · intro c h
      exact ⟨wb, rfl, some.inj h⟩
  · have hnot : ¬ wb.extendable = false := by rw [hext]; decide
    rw [if_neg hle, if_neg hle, if_neg hnot]
    dsimp only
    generalize max capacity (wb.capacity * 3 / 2) = n
    by_cases hn : 2 ^ 32 ≤ n
    · rw [if_pos hn, if_neg fun h => Nat.not_lt.mpr hn h.1]
      constructor
      · intro w h
        cases h
      · intro c h
        cases h
    · rw [if_neg hn]
      cases hr : realloc n with
      | true =>
        rw [if_pos rfl, if_pos ⟨Nat.not_le.mp hn, rfl⟩]
        constructor
        · intro w h
          cases h
          rfl
        · intro c h
          exact ⟨_, rfl, some.inj h⟩
      | false =>
        rw [if_neg (by decide), if_neg fun h => absurd h.2 (by decide)]
        constructor
        · intro w h
          cases h
        · intro c h
          cases h

/-- The capacity a write of `n` bytes asks for. -/
def need (wb : WBuffer) (n : Nat) : Nat := U32.add (U32.add wb.cursor n) 1

/-- A buffer that has to grow for `need` bytes is refused: it may not grow, or the
allocator has no block. -/
def Refuses (realloc : Nat → Bool) (extendable : Bool) (old need : Nat) : Prop :=
  old < need ∧ (extendable = false ∨
    max need (old * 3 / 2) < 2 ^ 32 ∧ realloc (max need (old * 3 / 2)) = false)

/-- The capacity a buffer has after it was asked for `need` bytes, if it holds
them. -/
def grantedCapacity (realloc : Nat → Bool) (extendable : Bool) (old need : Nat) : Option Nat :=
  if extendable then grownCapacity realloc old need
  else if need ≤ old then some old
  else none

theorem extendCapacity_of_refuses {n : Nat} (h : Refuses realloc wb.extendable wb.capacity n) :
    ∃ r, r ≠ .ok ∧ wb.extendCapacity realloc n = some (r, wb) := by
  obtain ⟨hlt, hwhy⟩ := h
  rw [extendCapacity, if_neg (Nat.not_le.mpr hlt)]
  cases he : wb.extendable with
  | false => exact ⟨.fail, by decide, if_pos rfl⟩
  | true =>
    cases hwhy with
    | inl hfix =>
      rw [he] at hfix
      cases hfix
    | inr hno =>
      refine ⟨.oom, by decide, ?_⟩
      rw [if_neg (by decide)]
      dsimp only
      rw [if_neg (Nat.not_le.mpr hno.1), hno.2, if_neg (by decide)]

theorem refuses_of_extendCapacity {n : Nat} {r : Ret} (hr : r ≠ .ok)
    (h : wb.extendCapacity realloc n = some (r, wb')) :
    Refuses realloc wb.extendable wb.capacity n := by
  unfold extendCapacity at h
  split at h
  case isTrue =>
    cases h
    exact absurd rfl hr
  case isFalse hgt =>
    refine ⟨Nat.not_le.mp hgt, ?_⟩
    split at h
    case isTrue hfix => exact .inl hfix
    case isFalse =>
      dsimp only at h
      split at h
      case isTrue => cases h
      case isFalse hlt =>
        split at h
        case isTrue =>
          cases h
          exact absurd rfl hr
        case isFalse hno => exact .inr ⟨Nat.not_le.mp hlt, Bool.not_eq_true _ ▸ hno⟩

theorem extendCapacity_granted {n c : Nat} :
    (∃ w, wb.extendCapacity realloc n = some (.ok, w) ∧ w.capacity = c) ↔
      grantedCapacity realloc wb.extendable wb.capacity n = some c := by
  cases he : wb.extendable with
  | true =>
    constructor
    · rintro ⟨w, hx, rfl⟩
      exact (extendCapacity_eq_ok he).1 w hx
    · exact (extendCapacity_eq_ok he).2 c
  | false =>
    rw [extendCapacity, grantedCapacity, he, if_pos rfl]
    by_cases hle : n ≤ wb.capacity
    · rw [if_pos hle]
      simp [hle]
    · rw [if_neg hle]
      simp [hle]

theorem writeBinary_of_refuses
    (h : Refuses realloc wb.extendable wb.capacity (wb.need bytes.length)) :
    wb.writeBinary realloc bytes = some (.badParams, wb) := by
  obtain ⟨r, hr, hx⟩ := extendCapacity_of_refuses h
  have hx : wb.extendDelta realloc bytes.length = some (r, wb) := hx
  rw [writeBinary, hx]
  cases r <;> first | rfl | exact absurd rfl hr

theorem refuses_of_writeBinary {r : Ret} (hr : r ≠ .ok)
    (h : wb.writeBinary realloc bytes = some (r, wb')) :
    Refuses realloc wb.extendable wb.capacity (wb.need bytes.length) := by
  cases writeBinary_eq_some h with
  | inl hok =>
    obtain ⟨_, _, _, rfl⟩ := hok
    exact absurd rfl hr
  | inr hbad =>
    obtain ⟨r', hr', hx, _⟩ := hbad
    exact refuses_of_extendCapacity hr' hx

/-- A write succeeds exactly where the granted block holds its bytes. -/
theorem Ok.writeBinary_granted (hw : wb.Ok) {c : Nat} :
    (∃ wb', wb.writeBinary realloc bytes = some (.ok, wb') ∧ wb'.capacity = c) ↔
      grantedCapacity realloc wb.extendable wb.capacity (wb.need bytes.length) = some c ∧
        wb.cursor + bytes.length ≤ c := by
  rw [← extendCapacity_granted]
  constructor
  · rintro ⟨wb', h, rfl⟩
    cases writeBinary_eq_some h with
    | inr hbad =>
      obtain ⟨_, _, _, hr⟩ := hbad
      cases hr
    | inl hgood =>
      obtain ⟨grown, hx, hp, _⟩ := hgood
      cases extendCapacity_cases hw hx with
      | inr hbad => exact absurd rfl hbad.1
      | inl hgrown =>
        obtain ⟨hok, hcont, _⟩ := hw.writeBinary_ok h
        have hlen := congrArg List.length hcont
        rw [length_append, hok.contents_length, hw.contents_length] at hlen
        exact ⟨⟨grown, hx, (put_ok hgrown.2.1 hp).2.2.1.symm⟩, hlen ▸ hok.cursor⟩
  · rintro ⟨⟨grown, hx, rfl⟩, hle⟩
    cases extendCapacity_cases hw hx with
    | inr hbad => exact absurd rfl hbad.1
    | inl hgrown =>
      obtain ⟨-, hg, -, hcur, -, -⟩ := hgrown
      have hfit : grown.cursor + bytes.length ≤ grown.data.length := by
        rw [hcur, hg.size]
        exact hle
      obtain ⟨wb', hput, hcap, -⟩ := put_of_le hfit
      have hx : wb.extendDelta realloc bytes.length = some (.ok, grown) := hx
      refine ⟨wb', ?_, hcap⟩
      rw [writeBinary, hx]
      show (grown.put bytes).bind _ = _
      rw [hput]
      rfl

theorem Ok.writeBinary_grown (hw : wb.Ok) (hext : wb.extendable = true)
    (h : wb.writeBinary realloc bytes = some (.ok, wb')) :
    grownCapacity realloc wb.capacity (U32.add (U32.add wb.cursor bytes.length) 1) =
        some wb'.capacity ∧
      wb.cursor + bytes.length ≤ wb'.capacity ∧ wb'.cursor = wb.cursor + bytes.length := by
  obtain ⟨hok, hcont, _⟩ := hw.writeBinary_ok h
  have hcur : wb'.cursor = wb.cursor + bytes.length := by
    rw [← hok.contents_length, hcont, length_append, hw.contents_length]
  have hgranted := (hw.writeBinary_granted.mp ⟨wb', h, rfl⟩).1
  rw [grantedCapacity, hext, if_pos rfl] at hgranted
  exact ⟨hgranted, hcur ▸ hok.cursor, hcur⟩

theorem Ok.writeBinary_of_grown {c : Nat} (hw : wb.Ok) (hext : wb.extendable = true)
    (h : grownCapacity realloc wb.capacity (U32.add (U32.add wb.cursor bytes.length) 1) = some c)
    (hc : wb.cursor + bytes.length ≤ c) :
    ∃ wb', wb.writeBinary realloc bytes = some (.ok, wb') := by
  have hgranted : grantedCapacity realloc wb.extendable wb.capacity (wb.need bytes.length) =
      some c := by
    rw [grantedCapacity, hext, if_pos rfl]
    exact h
  obtain ⟨wb', hx, _⟩ := hw.writeBinary_granted.mpr ⟨hgranted, hc⟩
  exact ⟨wb', hx⟩

/-! ## Byte after byte -/

/-- Write bytes one at a time until one write fails. -/
def writeBytes (realloc : Nat → Bool) : WBuffer → List UInt8 → Option (Ret × WBuffer)
  | wb, [] => some (.ok, wb)
  | wb, b :: bs => do
    match ← wb.writeUint8 realloc b with
    | (.ok, wb) => writeBytes realloc wb bs
    | (r, wb) => return (r, wb)

theorem writeBytes_cons_ok {b : UInt8} {bs : List UInt8}
    (h : wb.writeUint8 realloc b = some (.ok, wb')) :
    writeBytes realloc wb (b :: bs) = writeBytes realloc wb' bs := by
  rw [writeBytes, h]
  rfl

theorem writeBytes_cons_not_ok {b : UInt8} {bs : List UInt8} {r : Ret} (hr : r ≠ .ok)
    (h : wb.writeUint8 realloc b = some (r, wb')) :
    writeBytes realloc wb (b :: bs) = some (r, wb') := by
  rw [writeBytes, h]
  cases r <;> first | rfl | exact absurd rfl hr

theorem writeBytes_cons_none {b : UInt8} {bs : List UInt8}
    (h : wb.writeUint8 realloc b = none) : writeBytes realloc wb (b :: bs) = none := by
  rw [writeBytes, h]
  rfl

theorem writeBytes_ok : ∀ {bs : List UInt8} {wb wb' : WBuffer}, wb.Ok →
    writeBytes realloc wb bs = some (.ok, wb') →
    wb'.Ok ∧ wb'.contents = wb.contents ++ bs ∧ wb'.extendable = wb.extendable
  | [], wb, wb', hw, h => by
    cases h
    exact ⟨hw, (append_nil _).symm, rfl⟩
  | b :: bs, wb, wb', hw, h => by
    cases hx : wb.writeUint8 realloc b with
    | none => rw [writeBytes_cons_none hx] at h; cases h
    | some res =>
      obtain ⟨r, w⟩ := res
      by_cases hr : r = .ok
      · subst hr
        rw [writeBytes_cons_ok hx] at h
        obtain ⟨hok, hcont, hext⟩ := hw.writeBinary_ok hx
        obtain ⟨hok', hcont', hext'⟩ := writeBytes_ok hok h
        exact ⟨hok', by rw [hcont', hcont, append_assoc]; rfl, by rw [hext', hext]⟩
      · rw [writeBytes_cons_not_ok hr hx] at h
        cases h
        exact absurd rfl hr

theorem Room.writeBytes {n : Nat} : ∀ (bs : List UInt8) {wb : WBuffer}, wb.Ok → Room realloc wb n →
    wb.cursor + bs.length ≤ n →
    ∃ wb', WBuffer.writeBytes realloc wb bs = some (.ok, wb') ∧ Room realloc wb' n
  | [], wb, _, h, _ => ⟨wb, rfl, h⟩
  | b :: bs, wb, hw, h, hn => by
    rw [length_cons] at hn
    have hone : wb.cursor + [b].length ≤ n := by
      rw [length_singleton]
      omega
    obtain ⟨w, hx, hroom⟩ := h.writeBinary hw hone
    obtain ⟨hok, hcont, _⟩ := hw.writeBinary_ok hx
    have hcur : w.cursor = wb.cursor + 1 := by
      rw [← hok.contents_length, hcont, length_append, hw.contents_length]
      rfl
    obtain ⟨w', hx', hroom'⟩ := writeBytes bs hok hroom (by omega)
    exact ⟨w', by rw [writeBytes_cons_ok hx, hx'], hroom'⟩

theorem Ok.writeBytes_defined : ∀ (bs : List UInt8) {wb : WBuffer}, wb.Ok →
    wb.cursor + bs.length < growLimit → ∃ r wb', WBuffer.writeBytes realloc wb bs = some (r, wb')
  | [], wb, _, _ => ⟨.ok, wb, rfl⟩
  | b :: bs, wb, hw, hn => by
    rw [length_cons] at hn
    have hone : wb.cursor + [b].length < growLimit := by
      rw [length_singleton]
      omega
    obtain ⟨r, w, hx⟩ : ∃ r w, wb.writeUint8 realloc b = some (r, w) :=
      hw.writeBinary_defined hone
    by_cases hr : r = .ok
    · subst hr
      obtain ⟨hok, hcont, _⟩ := hw.writeBinary_ok hx
      have hcur : w.cursor = wb.cursor + 1 := by
        rw [← hok.contents_length, hcont, length_append, hw.contents_length]
        rfl
      obtain ⟨r', w', hx'⟩ := writeBytes_defined bs hok (by omega)
      exact ⟨r', w', by rw [writeBytes_cons_ok hx, hx']⟩
    · exact ⟨r, w, writeBytes_cons_not_ok hr hx⟩

theorem writeBytes_refused (hr : ∀ n, realloc n = false) : ∀ {bs : List UInt8} {wb : WBuffer},
    wb.Ok → WBuffer.writeBytes realloc wb bs = some (.ok, wb') → wb'.capacity = wb.capacity
  | [], _, _, h => by cases h; rfl
  | b :: bs, wb, hw, h => by
    cases hx : wb.writeUint8 realloc b with
    | none => rw [writeBytes_cons_none hx] at h; cases h
    | some res =>
      obtain ⟨r, w⟩ := res
      by_cases hok : r = .ok
      · subst hok
        rw [writeBytes_cons_ok hx] at h
        rw [writeBytes_refused hr (hw.writeBinary_ok hx).1 h, hw.writeBinary_refused hr hx]
      · rw [writeBytes_cons_not_ok hok hx] at h
        cases h
        exact absurd rfl hok

theorem writeBytes_append_eq_ok {bs : List UInt8} : ∀ {as : List UInt8} {wb : WBuffer},
    writeBytes realloc wb (as ++ bs) = some (.ok, wb') ↔
      ∃ w, writeBytes realloc wb as = some (.ok, w) ∧ writeBytes realloc w bs = some (.ok, wb')
  | [], wb => by simp [writeBytes]
  | a :: as, wb => by
    rw [cons_append]
    cases hx : wb.writeUint8 realloc a with
    | none => simp [writeBytes_cons_none hx]
    | some res =>
      obtain ⟨r, w⟩ := res
      by_cases hr : r = .ok
      · subst hr
        rw [writeBytes_cons_ok hx, writeBytes_cons_ok hx]
        exact writeBytes_append_eq_ok
      · simp [writeBytes_cons_not_ok hr hx, hr]

theorem writeBytes_append {bs : List UInt8} : ∀ {as : List UInt8} {wb : WBuffer},
    writeBytes realloc wb as = some (.ok, wb') →
    writeBytes realloc wb (as ++ bs) = writeBytes realloc wb' bs
  | [], _, h => by cases h; rfl
  | a :: as, wb, h => by
    cases hx : wb.writeUint8 realloc a with
    | none => rw [writeBytes_cons_none hx] at h; cases h
    | some res =>
      obtain ⟨r, w⟩ := res
      by_cases hr : r = .ok
      · subst hr
        rw [writeBytes_cons_ok hx] at h
        rw [cons_append, writeBytes_cons_ok hx, writeBytes_append h]
      · rw [writeBytes_cons_not_ok hr hx] at h
        cases h
        exact absurd rfl hr

end WBuffer

end Awtk
