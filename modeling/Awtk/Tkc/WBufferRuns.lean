import Awtk.Lib.Ring
import Awtk.Tkc.WBuffer
import Awtk.Lib.Run

/-!
# Editing a write buffer

The operations of `wbuffer_t` that move the cursor or change bytes that are
there already.  They check their arguments each in its own way.  Some of these
checks are sums of `uint32_t`, and `wbuffer_skip` has an `int32_t`.

`ByteTape` says what the operations are for: bytes with a cursor, where the bytes
before the cursor are the contents.  A buffer in a block of the caller has a
limit.  A buffer that grows has none, and the bytes it has not got yet are zero.
`Shows` says which tape a buffer stands for.
-/

namespace Awtk

open Ring List

namespace WBuffer

/-! ## Operations -/

/-- A `memcpy` or `memmove` of `bs` to `data + o`.  There is no result where it leaves the block. -/
def overlay (data : List UInt8) (o : Nat) (bs : List UInt8) : Option (List UInt8) :=
  if o + bs.length ≤ data.length then some (data.take o ++ bs ++ data.drop (o + bs.length))
  else none

/-- `wbuffer_skip`.  The sum of a `uint32_t` and an `int32_t` is stored in an `int32_t`. -/
def skip (realloc : Nat → Bool) (wb : WBuffer) (delta : Int) : Option (Ret × WBuffer) :=
  let cursor := wrapI32 (wb.cursor + delta)
  if cursor < 0 then some (.badParams, wb)
  else (wb.extendCapacity realloc cursor.toNat).map fun p =>
    if p.1 = .ok then (.ok, { p.2 with cursor := cursor.toNat }) else (.badParams, p.2)

/-- The `memmove` and the `memcpy` of `wbuffer_insert_binary`.  The number of bytes to be moved is a
`uint32_t`. -/
def openGap (wb : WBuffer) (offset : Nat) (bytes : List UInt8) : Option WBuffer :=
  let count := U32.sub wb.cursor offset
  if offset + count ≤ wb.data.length then
    (overlay wb.data (offset + bytes.length) ((wb.data.drop offset).take count)).bind fun data =>
    (overlay data offset bytes).map fun data =>
    { wb with data, cursor := U32.add wb.cursor bytes.length }
  else none

def insertBinary (realloc : Nat → Bool) (wb : WBuffer) (offset : Nat) (bytes : List UInt8) :
    Option (Ret × WBuffer) :=
  (wb.extendDelta realloc bytes.length).bind fun p =>
  if p.1 = .ok then (p.2.openGap offset bytes).map fun wb => (.ok, wb)
  else some (.badParams, p.2)

def modifyBinary (wb : WBuffer) (offset : Nat) (bytes : List UInt8) : Option (Ret × WBuffer) :=
  if U32.add offset bytes.length ≤ wb.cursor then
    (overlay wb.data offset bytes).map fun data => (.ok, { wb with data })
  else some (.badParams, wb)

/-- `wbuffer_has_room`.  A buffer that grows has no block at first. -/
def hasRoom (wb : WBuffer) (size : Nat) : Bool :=
  (!wb.extendable || !wb.data.isEmpty) && U32.add wb.cursor size ≤ wb.capacity

/-- Bytes whose number is a `uint32_t`. -/
abbrev Bytes32 := { bs : List UInt8 // bs.length < 2 ^ 32 }

/-- A call that changes a buffer. -/
inductive Op where
  | write (data : Bytes32)
  | skip (delta : Int32)
  | insert (offset : UInt32) (data : Bytes32)
  | modify (offset : UInt32) (data : Bytes32)

/-- What a call does to a buffer. -/
def call (realloc : Nat → Bool) (wb : WBuffer) : Op → Option (Ret × WBuffer)
  | .write data => wb.writeBinary realloc data.1
  | .skip delta => wb.skip realloc delta.toInt
  | .insert offset data => wb.insertBinary realloc offset.toNat data.1
  | .modify offset data => wb.modifyBinary offset.toNat data.1

end WBuffer

/-! ## Bytes with a cursor -/

/-- Bytes with a cursor.  `limit` is the number of bytes there can be. -/
structure ByteTape where
  bytes : Nat → UInt8
  cursor : Nat
  limit : Option Nat

namespace ByteTape

/-- The bytes before the cursor. -/
def contents (m : ByteTape) : List UInt8 := slice m.bytes 0 m.cursor

/-- The tape has room for `n` bytes. -/
def Within (m : ByteTape) (n : Nat) : Prop := ∀ k ∈ m.limit, n ≤ k

instance (m : ByteTape) (n : Nat) : Decidable (m.Within n) :=
  match h : m.limit with
  | none => .isTrue (by simp [Within, h])
  | some k => decidable_of_iff (n ≤ k) (by simp [Within, h])

/-- Bytes are written at the cursor. -/
def write (m : ByteTape) (bs : List UInt8) : Option ByteTape :=
  if m.Within (m.cursor + bs.length) then
    some { m with bytes := blit m.bytes m.cursor bs, cursor := m.cursor + bs.length }
  else none

/-- The cursor is moved. -/
def skip (m : ByteTape) (delta : Int) : Option ByteTape :=
  if 0 ≤ m.cursor + delta ∧ m.Within (m.cursor + delta).toNat then
    some { m with cursor := (m.cursor + delta).toNat }
  else none

/-- Bytes are inserted into the contents. -/
def insert (m : ByteTape) (offset : Nat) (bs : List UInt8) : Option ByteTape :=
  if offset ≤ m.cursor ∧ m.Within (m.cursor + bs.length) then
    some { m with
      bytes := blit m.bytes offset (bs ++ slice m.bytes offset (m.cursor - offset))
      cursor := m.cursor + bs.length }
  else none

/-- Bytes of the contents are replaced. -/
def modify (m : ByteTape) (offset : Nat) (bs : List UInt8) : Option ByteTape :=
  if offset + bs.length ≤ m.cursor then some { m with bytes := blit m.bytes offset bs }
  else none

/-- What a call does to a tape. -/
def call (m : ByteTape) : WBuffer.Op → Option ByteTape
  | .write data => m.write data.1
  | .skip delta => m.skip delta.toInt
  | .insert offset data => m.insert offset.toNat data.1
  | .modify offset data => m.modify offset.toNat data.1

/-! ## The contents -/

variable {m m' : ByteTape} {bs : List UInt8}

@[simp] theorem contents_length (m : ByteTape) : m.contents.length = m.cursor := slice_length ..

theorem take_contents {n : Nat} (h : n ≤ m.cursor) : m.contents.take n = slice m.bytes 0 n := by
  obtain ⟨k, hk⟩ := Nat.exists_eq_add_of_le h
  rw [contents, hk, slice_add, take_left' (slice_length ..)]

theorem drop_contents {n : Nat} (h : n ≤ m.cursor) :
    m.contents.drop n = slice m.bytes n (m.cursor - n) := by
  obtain ⟨k, hk⟩ := Nat.exists_eq_add_of_le h
  rw [contents, hk, slice_add, drop_left' (slice_length ..), Nat.zero_add,
    Nat.add_sub_cancel_left]

theorem slice_zero_blit (f : Nat → UInt8) {o n : Nat} (bs : List UInt8) (h : o + bs.length ≤ n) :
    slice (blit f o bs) 0 n =
      slice f 0 o ++ bs ++ slice f (o + bs.length) (n - (o + bs.length)) := by
  obtain ⟨k, rfl⟩ := Nat.exists_eq_add_of_le h
  rw [slice_add, slice_add, Nat.zero_add, Nat.add_sub_cancel_left, slice_blit, Nat.zero_add,
    slice_blit_outside (.inl (by omega)), slice_blit_outside (.inr (le_refl _))]

theorem insert_contents {offset : Nat} (h : m.insert offset bs = some m') :
    m'.contents = m.contents.take offset ++ bs ++ m.contents.drop offset := by
  unfold insert at h
  split_ifs at h with hc
  cases h
  have hlen : offset + (bs ++ slice m.bytes offset (m.cursor - offset)).length =
      m.cursor + bs.length := by
    rw [length_append, slice_length]
    have := hc.1
    omega
  refine (slice_zero_blit m.bytes _ hlen.le).trans ?_
  rw [hlen, Nat.sub_self, take_contents hc.1, drop_contents hc.1, append_assoc]
  exact (congrArg (_ ++ ·) (append_nil _)).trans (append_assoc ..).symm

end ByteTape

end Awtk

/-!
## Runs of edits of a write buffer

A run of edits of a buffer agrees with the same edits of the tape the buffer
stands for, as long as each edit meets `Fits`.  An edit does not meet it where
the code goes wrong.

* A write that would fill a block of the caller to its last byte is refused,
  because every write asks for one byte more than it needs.
* The sums of the checks are cut to 32 bits, and the grown capacity may not fit.
* An insertion does not check that its offset is in the contents.
* A cursor of `2 ^ 31` or more is negative for `wbuffer_skip`.
* Growing clears the bytes behind the cursor, so a skip over them loses them.

`agrees_run` is the result about runs, and `hasRoom_iff` says when the answer of
`wbuffer_has_room` is right.
-/

namespace Awtk

open Ring Runs

namespace WBuffer

variable {realloc : Nat → Bool} {wb : WBuffer} {m : ByteTape} {bs : List UInt8}

/-! ## The tape a buffer stands for -/

/-- The bytes of a block, with zeros behind it. -/
def cellsOf (data : List UInt8) : Nat → UInt8 := fun p => data.getD p 0

/-- The buffer stands for the tape. -/
structure Shows (wb : WBuffer) (m : ByteTape) : Prop where
  ok : wb.Ok
  bytes : cellsOf wb.data = m.bytes
  cursor : wb.cursor = m.cursor
  limit : m.limit = if wb.extendable then none else some wb.capacity

theorem shows_init {data : List UInt8} (h : data.length < 2 ^ 32) :
    Shows (init data) ⟨cellsOf data, 0, some data.length⟩ :=
  ⟨init_ok h, rfl, rfl, rfl⟩

theorem shows_initExtendable : Shows initExtendable ⟨fun _ => 0, 0, none⟩ :=
  ⟨initExtendable_ok, rfl, rfl, rfl⟩

/-- What a tape has room for is what a block of the caller holds. -/
theorem Shows.within (h : Shows wb m) {n : Nat} :
    m.Within n ↔ (wb.extendable = false → n ≤ wb.capacity) := by
  rw [ByteTape.Within, h.limit]
  cases wb.extendable <;> simp

theorem cellsOf_eq_zero {data : List UInt8} {p : Nat} (h : data.length ≤ p) :
    cellsOf data p = 0 := by
  rw [cellsOf, List.getD_eq_getElem?_getD, List.getElem?_eq_none h, Option.getD_none]

theorem cellsOf_append (a b : List UInt8) (p : Nat) :
    cellsOf (a ++ b) p = if p < a.length then cellsOf a p else cellsOf b (p - a.length) := by
  simp only [cellsOf, List.getD_eq_getElem?_getD, List.getElem?_append]
  split_ifs <;> rfl

theorem cellsOf_take (data : List UInt8) (n p : Nat) :
    cellsOf (data.take n) p = if p < n then cellsOf data p else 0 := by
  simp only [cellsOf, List.getD_eq_getElem?_getD, List.getElem?_take]
  split_ifs <;> rfl

theorem cellsOf_drop (data : List UInt8) (n p : Nat) :
    cellsOf (data.drop n) p = cellsOf data (n + p) := by
  simp only [cellsOf, List.getD_eq_getElem?_getD, List.getElem?_drop]

theorem cellsOf_replicate (n p : Nat) : cellsOf (List.replicate n 0) p = 0 := by
  simp only [cellsOf, List.getD_eq_getElem?_getD, List.getElem?_replicate]
  split_ifs <;> rfl

theorem cellsOf_copy {data : List UInt8} {o : Nat} (h : o + bs.length ≤ data.length) :
    cellsOf (data.take o ++ bs ++ data.drop (o + bs.length)) = blit (cellsOf data) o bs := by
  have hlen : (data.take o).length = o := by
    rw [List.length_take]
    omega
  funext p
  rw [List.append_assoc, cellsOf_append, hlen, cellsOf_take, cellsOf_append, cellsOf_drop]
  by_cases hlt : p < o
  · rw [if_pos hlt, if_pos hlt, blit_outside (.inl hlt)]
  · obtain ⟨i, rfl⟩ := Nat.exists_eq_add_of_le (Nat.le_of_not_lt hlt)
    rw [if_neg hlt, Nat.add_sub_cancel_left]
    split_ifs with hi
    · rw [blit_inside hi]
      simp [cellsOf, hi]
    · rw [blit_outside (.inr (by omega))]
      congr 1
      omega

theorem take_drop_eq_slice {data : List UInt8} {o n : Nat} (h : o + n ≤ data.length) :
    (data.drop o).take n = slice (cellsOf data) o n := by
  refine List.ext_getElem (by rw [slice_length, List.length_take, List.length_drop]; omega) ?_
  intro i h1 h2
  rw [slice_length] at h2
  have hi : o + i < data.length := by omega
  simp [slice, cellsOf, List.getD_eq_getElem?_getD, List.getElem?_eq_getElem hi]

/-! ## Growing -/

/-- A capacity the buffer may have to grow to fits a `uint32_t`. -/
def Grows (wb : WBuffer) (n : Nat) : Prop :=
  wb.extendable = true → wb.capacity < n → max n (wb.capacity * 3 / 2) < 2 ^ 32

/-- The allocator refuses a larger block. -/
def NoMemory (realloc : Nat → Bool) (wb : WBuffer) : Prop :=
  wb.extendable = true ∧ ∃ k, wb.capacity < k ∧ realloc k = false

/-- The block holds `k` bytes now, and the bytes outside of the `k` are as they were. -/
structure Grown (wb g : WBuffer) (k : Nat) : Prop where
  ok : g.Ok
  enough : k ≤ g.capacity
  cursor : g.cursor = wb.cursor
  extendable : g.extendable = wb.extendable
  fixed : wb.extendable = false → g = wb
  bytes : ∀ p, p < wb.cursor ∨ k ≤ p → cellsOf g.data p = cellsOf wb.data p

theorem Ok.grown (hw : wb.Ok) {k : Nat} (hk : k ≤ wb.capacity) : Grown wb wb k :=
  ⟨hw, hk, rfl, rfl, fun _ => rfl, fun _ _ => rfl⟩

/-- Growing has a result, and either the block holds the bytes afterwards or nothing changed. -/
theorem Ok.extendCapacity_spec (hw : wb.Ok) (realloc : Nat → Bool) {n k : Nat} (hn : wb.Grows n)
    (hk : k ≤ n) (hk' : n ≤ k + 1) :
    (∃ g, wb.extendCapacity realloc n = some (.ok, g) ∧ Grown wb g k ∧
      (g = wb ∨ wb.capacity < n ∧ wb.extendable = true ∧
        ∀ p, wb.cursor ≤ p → cellsOf g.data p = 0)) ∨
    ∃ r, r ≠ .ok ∧ wb.extendCapacity realloc n = some (r, wb) ∧ wb.capacity < n ∧
      (wb.extendable = false ∨ NoMemory realloc wb) := by
  unfold extendCapacity
  by_cases hle : n ≤ wb.capacity
  · rw [if_pos hle]
    exact .inl ⟨wb, rfl, hw.grown (hk.trans hle), .inl rfl⟩
  · have hlt := Nat.not_le.mp hle
    rw [if_neg hle]
    cases hext : wb.extendable with
    | false =>
      rw [if_pos rfl]
      exact .inr ⟨.fail, by decide, rfl, hlt, .inl rfl⟩
    | true =>
      have hfit := hn hext hlt
      rw [if_neg (by decide)]
      dsimp only
      rw [if_neg (Nat.not_le.mpr hfit)]
      cases hr : realloc (max n (wb.capacity * 3 / 2)) with
      | false => exact .inr ⟨.oom, by decide, rfl, hlt, .inr ⟨hext, _, by omega, hr⟩⟩
      | true =>
        have hc := hw.cursor
        have hsize := hw.size
        have htake : (wb.data.take wb.cursor).length = wb.cursor := hw.contents_length
        have hcells (p : Nat) : cellsOf (wb.data.take wb.cursor ++
            List.replicate (max n (wb.capacity * 3 / 2) - wb.cursor) 0) p =
              if p < wb.cursor then cellsOf wb.data p else 0 := by
          rw [cellsOf_append, htake, cellsOf_take, cellsOf_replicate]
          split_ifs <;> rfl
        refine .inl ⟨_, rfl, ⟨⟨?_, ?_, hfit⟩, hk.trans (le_max_left _ _), rfl, hext.symm,
          by simp [hext], ?_⟩, .inr ⟨hlt, rfl, fun p hp => ?_⟩⟩
        · rw [List.length_append, htake, List.length_replicate]
          dsimp only
          omega
        · dsimp only
          omega
        · rintro p (hp | hp)
          · exact (hcells p).trans (if_pos hp)
          · refine (hcells p).trans ?_
            split_ifs with hlt'
            · rfl
            · rw [cellsOf_eq_zero (by omega)]
        · exact (hcells p).trans (if_neg (Nat.not_lt.mpr hp))

/-! ## What each edit has to meet -/

/-- A write of `n` bytes at the cursor: the sum does not wrap, the bytes do not fill a block of the
caller to its last byte, and the grown capacity fits.  Where the sum wraps to `0`, a block of
`2 ^ 32 - 1` bytes is filled. -/
def WriteFits (wb : WBuffer) (n : Nat) : Prop :=
  (wb.cursor + n + 1 < 2 ^ 32 ∧ (wb.extendable = false → wb.cursor + n ≠ wb.capacity) ∧
    wb.Grows (wb.cursor + n + 1)) ∨
  (wb.cursor + n = wb.capacity ∧ wb.capacity + 1 = 2 ^ 32)

/-- What an edit has to meet. -/
def Fits (realloc : Nat → Bool) (wb : WBuffer) : Op → Prop
  | .write data => wb.WriteFits data.1.length
  | .skip delta =>
    (wb.cursor + delta.toInt < 2 ^ 31 ∨ wb.extendable = false ∧
      wb.capacity < wb.cursor + delta.toInt ∧ wb.cursor + delta.toInt < 2 ^ 32) ∧
    (wb.extendable = true → wb.capacity < wb.cursor + delta.toInt →
      ∀ p, wb.cursor ≤ p → cellsOf wb.data p = 0)
  | .insert offset data =>
    offset.toNat ≤ wb.cursor ∧ wb.WriteFits data.1.length ∨
    wb.cursor < offset.toNat ∧
      Refuses realloc wb.extendable wb.capacity (wb.need data.1.length)
  | .modify offset data =>
    offset.toNat + data.1.length < 2 ^ 32 ∨ wb.cursor + 2 ^ 32 < offset.toNat + data.1.length

/-! ## One edit -/

/-- A call agrees with the tape: it succeeds and does what is done to the tape, or it fails and
changes nothing, and then the tape does not allow it either or the allocator refuses. -/
def Agrees (realloc : Nat → Bool) (wb : WBuffer) (m : ByteTape) (op : Op) (r : Ret) (wb' : WBuffer)
    (m' : ByteTape) : Prop :=
  wb.call realloc op = some (r, wb') ∧ wb'.Shows m' ∧
    if r = .ok then m.call op = some m'
    else wb' = wb ∧ m' = m ∧ (m.call op = none ∨ NoMemory realloc wb)

theorem Ok.extendDelta_spec (hw : wb.Ok) (realloc : Nat → Bool) {n : Nat} (hn : wb.WriteFits n) :
    (∃ g, wb.extendDelta realloc n = some (.ok, g) ∧ Grown wb g (wb.cursor + n)) ∨
    ∃ r, r ≠ .ok ∧ wb.extendDelta realloc n = some (r, wb) ∧
      (wb.extendable = false ∧ wb.capacity < wb.cursor + n ∨ NoMemory realloc wb) := by
  obtain ⟨hlt, hfull, hgrow⟩ | ⟨hfull, hcap⟩ := hn
  · rw [extendDelta, U32.add_of_lt (a := wb.cursor) (by omega), U32.add_of_lt (by omega)]
    obtain ⟨g, hx, hg, -⟩ | ⟨r, hr, hx, hlt', hwhy⟩ :=
      hw.extendCapacity_spec realloc hgrow (Nat.le_succ _) (le_refl _)
    · exact .inl ⟨g, hx, hg⟩
    · refine .inr ⟨r, hr, hx, hwhy.imp_left fun hfix => ⟨hfix, ?_⟩⟩
      have := hfull hfix
      omega
  · rw [extendDelta, U32.add_add, hfull, hcap, Nat.mod_self]
    exact .inl ⟨wb, if_pos (Nat.zero_le _), hw.grown (le_refl _)⟩

section Grown

variable {g : WBuffer} {k : Nat}

/-- The tape has room for what the buffer grew for. -/
theorem Grown.within (hg : Grown wb g k) (h : Shows wb m) : m.Within k := by
  refine h.within.mpr fun hfix => ?_
  rw [← hg.fixed hfix]
  exact hg.enough

theorem Grown.blit_eq (hg : Grown wb g k) (h : Shows wb m) {o : Nat} (ho : o ≤ wb.cursor)
    (hk : o + bs.length = k) : blit (cellsOf g.data) o bs = blit m.bytes o bs := by
  rw [← h.bytes]
  refine blit_congr fun p hp => hg.bytes p (hp.imp (fun hlt => ?_) fun hle => ?_)
  · exact Nat.lt_of_lt_of_le hlt ho
  · exact hk ▸ hle

/-- New bytes and a new cursor in a block that grew. -/
theorem Grown.shows (hg : Grown wb g k) (h : Shows wb m) {data : List UInt8} {cursor : Nat}
    {bytes : Nat → UInt8} (hlen : data.length = g.data.length) (hbytes : cellsOf data = bytes)
    (hcursor : cursor ≤ g.capacity) :
    Shows { g with data, cursor } { m with bytes, cursor } where
  ok := ⟨hlen.trans hg.ok.size, hcursor, hg.ok.bound⟩
  bytes := hbytes
  cursor := rfl
  limit := by
    show m.limit = if g.extendable then none else some g.capacity
    rw [h.limit, hg.extendable]
    cases hext : wb.extendable with
    | false => rw [hg.fixed hext]
    | true => rfl

end Grown

theorem overlay_of_le (data : List UInt8) (o : Nat) (bs : List UInt8)
    (h : o + bs.length ≤ data.length) :
    ∃ data', overlay data o bs = some data' ∧ data'.length = data.length ∧
      cellsOf data' = blit (cellsOf data) o bs := by
  refine ⟨_, if_pos h, ?_, cellsOf_copy h⟩
  simp only [List.length_append, List.length_take, List.length_drop]
  omega

theorem put_eq_overlay (wb : WBuffer) (bs : List UInt8) : wb.put bs =
    (overlay wb.data wb.cursor bs).map fun data =>
      { wb with data, cursor := U32.add wb.cursor bs.length } := by
  rw [put, overlay]
  split_ifs <;> rfl

/-- A call that is refused. -/
theorem Shows.refused (h : Shows wb m) {op : Op} {r : Ret} (hr : r ≠ .ok)
    (hcall : wb.call realloc op = some (r, wb)) (hwhy : m.call op = none ∨ NoMemory realloc wb) :
    ∃ r wb' m', Agrees realloc wb m op r wb' m' :=
  ⟨r, wb, m, hcall, h, by rw [if_neg hr]; exact ⟨rfl, rfl, hwhy⟩⟩

theorem Shows.not_within (h : Shows wb m) {n : Nat} (hfix : wb.extendable = false)
    (hlt : wb.capacity < n) : ¬ m.Within n := fun hin =>
  Nat.not_le.mpr hlt (h.within.mp hin hfix)

/-- Writing agrees with the tape. -/
theorem Shows.write (h : Shows wb m) {data : Bytes32} (hn : wb.WriteFits data.1.length) :
    ∃ r wb' m', Agrees realloc wb m (.write data) r wb' m' := by
  obtain ⟨g, hx, hg⟩ | ⟨r, hr, hx, hwhy⟩ := h.ok.extendDelta_spec realloc hn
  · obtain ⟨data', hput, hlen, hcells⟩ : ∃ data', overlay g.data g.cursor data.1 = some data' ∧
        data'.length = g.data.length ∧ cellsOf data' = blit (cellsOf g.data) g.cursor data.1 :=
      overlay_of_le _ _ _ (by rw [hg.cursor, hg.ok.size]; exact hg.enough)
    rw [hg.cursor, hg.blit_eq h (le_refl _) rfl, h.cursor] at hcells
    have hsum : U32.add g.cursor data.1.length = m.cursor + data.1.length := by
      have := hg.ok.bound
      have := hg.enough
      rw [hg.cursor, U32.add_of_lt (by omega), h.cursor]
    have hin := hg.within h
    have hle := hg.enough
    rw [h.cursor] at hin hle
    refine ⟨.ok, { g with data := data', cursor := m.cursor + data.1.length },
      { m with bytes := blit m.bytes m.cursor data.1, cursor := m.cursor + data.1.length },
      ?_, hg.shows h hlen hcells hle, ?_⟩
    · rw [call, writeBinary, hx]
      show (g.put data.1).bind _ = _
      rw [put_eq_overlay, hput, hsum]
      rfl
    · rw [if_pos rfl]
      exact if_pos hin
  · refine h.refused (r := .badParams) (by decide) ?_ (hwhy.imp_left fun hfix => ?_)
    · rw [call, writeBinary, hx]
      cases r <;> first | rfl | exact absurd rfl hr
    · rw [h.cursor] at hfix
      exact if_neg (h.not_within hfix.1 hfix.2)

/-- The gap that is opened in a block that grew. -/
theorem Grown.openGap {g : WBuffer} (hg : Grown wb g (wb.cursor + bs.length)) (h : Shows wb m)
    {offset : Nat} (ho : offset ≤ wb.cursor) :
    ∃ data, g.openGap offset bs = some { g with data, cursor := m.cursor + bs.length } ∧
      data.length = g.data.length ∧
      cellsOf data = blit m.bytes offset (bs ++ slice m.bytes offset (m.cursor - offset)) := by
  have hle := hg.enough
  have hbound := hg.ok.bound
  rw [← hg.ok.size] at hle hbound
  have hcount : U32.sub g.cursor offset = m.cursor - offset := by
    rw [hg.cursor, U32.sub_of_le ho (by omega), h.cursor]
  have hsum : U32.add g.cursor bs.length = m.cursor + bs.length := by
    rw [hg.cursor, U32.add_of_lt (by omega), h.cursor]
  have hread : (g.data.drop offset).take (m.cursor - offset) =
      slice m.bytes offset (m.cursor - offset) := by
    rw [← h.cursor, take_drop_eq_slice (by omega), ← h.bytes]
    refine List.map_congr_left fun i hi => hg.bytes _ (.inl ?_)
    have := List.mem_range.mp hi
    omega
  obtain ⟨moved, hmove, hlen, hcells⟩ := overlay_of_le g.data (offset + bs.length)
    (slice m.bytes offset (m.cursor - offset)) (by rw [slice_length, ← h.cursor]; omega)
  obtain ⟨data, hcopy, hlen', hcells'⟩ := overlay_of_le moved offset bs (by omega)
  refine ⟨data, ?_, hlen'.trans hlen, ?_⟩
  · rw [WBuffer.openGap, hcount, hsum, if_pos (by rw [← h.cursor]; omega), hread, hmove,
      Option.bind_some, hcopy, Option.map_some]
  · rw [hcells', hcells, ← blit_append]
    exact hg.blit_eq h ho (by rw [List.length_append, slice_length, ← h.cursor]; omega)

theorem Shows.insert (h : Shows wb m) {offset : UInt32} {data : Bytes32}
    (hn : wb.Fits realloc (.insert offset data)) :
    ∃ r wb' m', Agrees realloc wb m (.insert offset data) r wb' m' := by
  obtain ⟨ho, hn⟩ | ⟨ho, hn⟩ := hn
  · obtain ⟨g, hx, hg⟩ | ⟨r, hr, hx, hwhy⟩ := h.ok.extendDelta_spec realloc hn
    · obtain ⟨bytes, hgap, hlen, hcells⟩ := hg.openGap h ho
      have hin := hg.within h
      have hle := hg.enough
      rw [h.cursor] at hin hle ho
      refine ⟨.ok, _, _, ?_, hg.shows h hlen hcells hle, ?_⟩
      · rw [call, insertBinary, hx, Option.bind_some, if_pos rfl, hgap]
        rfl
      · rw [if_pos rfl]
        exact if_pos ⟨ho, hin⟩
    · refine h.refused (r := .badParams) (by decide) ?_ (hwhy.imp_left fun hfix => ?_)
      · rw [call, insertBinary, hx, Option.bind_some, if_neg hr]
      · rw [h.cursor] at hfix
        exact if_neg fun hc => h.not_within hfix.1 hfix.2 hc.2
  · obtain ⟨r, hr, hx⟩ := extendCapacity_of_refuses hn
    have hx : wb.extendDelta realloc data.1.length = some (r, wb) := hx
    refine h.refused (r := .badParams) (by decide) ?_ (.inl (if_neg fun hc => ?_))
    · rw [call, insertBinary, hx, Option.bind_some, if_neg hr]
    · rw [← h.cursor] at hc
      exact Nat.not_le.mpr ho hc.1

theorem Shows.modify (h : Shows wb m) {offset : UInt32} {data : Bytes32}
    (hn : wb.Fits realloc (.modify offset data)) :
    ∃ r wb' m', Agrees realloc wb m (.modify offset data) r wb' m' := by
  have hc := h.ok.cursor
  have hsize := h.ok.size
  by_cases hle : offset.toNat + data.1.length ≤ wb.cursor
  · obtain ⟨bytes, hcopy, hlen, hcells⟩ := overlay_of_le wb.data offset.toNat data.1 (by omega)
    rw [h.bytes] at hcells
    refine ⟨.ok, _, _, ?_, (h.ok.grown hc).shows h hlen hcells (h.cursor ▸ hc), ?_⟩
    · have hb := h.ok.bound
      rw [call, modifyBinary, U32.add_of_lt (by omega), if_pos hle, hcopy, Option.map_some,
        h.cursor]
    · rw [if_pos rfl]
      exact if_pos (h.cursor ▸ hle)
  · refine h.refused (r := .badParams) (by decide) ?_ (.inl (if_neg (h.cursor ▸ hle)))
    have hlt := data.2
    have hoff := offset.toNat_lt
    rw [call, modifyBinary, U32.add, if_neg]
    cases hn with
    | inl hn =>
      rw [Nat.mod_eq_of_lt hn]
      exact hle
    | inr hn => omega

theorem skip_neg {delta : Int} (h : wrapI32 (wb.cursor + delta) < 0) :
    wb.skip realloc delta = some (.badParams, wb) := by
  rw [WBuffer.skip, if_pos h]

/-- Moving the cursor agrees with the tape. -/
theorem Shows.skip (h : Shows wb m) {delta : Int32} (hn : wb.Fits realloc (.skip delta)) :
    ∃ r wb' m', Agrees realloc wb m (.skip delta) r wb' m' := by
  have hb := h.ok.bound
  have hc := h.ok.cursor
  have hlo := delta.le_toInt
  obtain ⟨hsmall, hzero⟩ := hn
  by_cases hneg : wb.cursor + delta.toInt < 0
  · refine h.refused (r := .badParams) (by decide) (skip_neg ?_) (.inl (if_neg fun hm => ?_))
    · rw [wrapI32_eq (by omega) (by omega)]
      exact hneg
    · rw [← h.cursor] at hm
      exact absurd hm.1 (by omega)
  · obtain ⟨n, hcur⟩ := Int.eq_ofNat_of_zero_le (Int.not_lt.mp hneg)
    have hn : ((m.cursor : Int) + delta.toInt).toNat = n := by rw [← h.cursor, hcur]; rfl
    by_cases hlt : wb.cursor + delta.toInt < 2 ^ 31
    · have hwrap : wrapI32 (wb.cursor + delta.toInt) = n := by
        rw [wrapI32_eq (by omega) hlt, hcur]
      have hgrows : wb.Grows n := fun _ hgt => by omega
      obtain ⟨g, hx, hg, hbytes⟩ | ⟨r, hr, hx, hgt, hwhy⟩ :=
        h.ok.extendCapacity_spec realloc hgrows (le_refl n) (Nat.le_succ n)
      · have hcells : cellsOf g.data = m.bytes := by
          rw [← h.bytes]
          obtain rfl | ⟨hgt, hext, hclear⟩ := hbytes
          · rfl
          · funext p
            by_cases hp : p < wb.cursor
            · exact hg.bytes p (.inl hp)
            · rw [hclear p (Nat.le_of_not_lt hp), hzero hext (by omega) p (Nat.le_of_not_lt hp)]
        refine ⟨.ok, _, _, ?_, hg.shows h rfl hcells hg.enough, ?_⟩
        · rw [call, WBuffer.skip, hwrap, if_neg (by omega), Int.toNat_natCast, hx, Option.map_some,
            if_pos rfl]
        · rw [if_pos rfl, ByteTape.call, ByteTape.skip, hn, ← h.cursor,
            if_pos ⟨by omega, hg.within h⟩]
      · refine h.refused (r := .badParams) (by decide) ?_ (hwhy.imp_left fun hfix => ?_)
        · rw [call, WBuffer.skip, hwrap, if_neg (by omega), Int.toNat_natCast, hx, Option.map_some,
            if_neg hr]
        · rw [ByteTape.call, ByteTape.skip, hn]
          exact if_neg fun hm => h.not_within hfix hgt hm.2
    · obtain ⟨hfix, hgt, hlt'⟩ := hsmall.resolve_left hlt
      refine h.refused (r := .badParams) (by decide) (skip_neg ?_) (.inl (if_neg fun hm => ?_))
      · rw [wrapI32]
        omega
      · rw [hn] at hm
        exact h.not_within hfix (by omega) hm.2

/-- An edit that meets its condition agrees with the tape. -/
theorem Shows.call (h : Shows wb m) {op : Op} (hn : wb.Fits realloc op) :
    ∃ r wb' m', Agrees realloc wb m op r wb' m' := by
  cases op with
  | write data => exact h.write hn
  | skip delta => exact h.skip hn
  | insert offset data => exact h.insert hn
  | modify offset data => exact h.modify hn

/-! ## Runs -/

/-- Every call of a run agrees with the tape. -/
def AgreesAll (realloc : Nat → Bool) : WBuffer → ByteTape → List Op → Prop
  | wb, m, [] => Shows wb m
  | wb, m, op :: ops => ∃ r wb' m', Agrees realloc wb m op r wb' m' ∧ AgreesAll realloc wb' m' ops

/-- The buffer after a call. -/
def next (realloc : Nat → Bool) (wb : WBuffer) (op : Op) : Option WBuffer :=
  (wb.call realloc op).map Prod.snd

theorem Shows.run (h : Shows wb m) {ops : List Op}
    (hn : Meets (next realloc) (Fits realloc) wb ops) : AgreesAll realloc wb m ops := by
  induction ops generalizing wb m with
  | nil => exact h
  | cons op ops ih =>
    obtain ⟨r, wb', m', hagree⟩ := h.call hn.1
    have hnext : next realloc wb op = some wb' := by rw [next, hagree.1, Option.map_some]
    exact ⟨r, wb', m', hagree, ih hagree.2.1 (hn.2 wb' hnext)⟩

theorem AgreesAll.ok_of_run {ops : List Op} {wb' : WBuffer} (h : AgreesAll realloc wb m ops)
    (hr : run (next realloc) wb ops = some wb') : wb'.Ok := by
  induction ops generalizing wb m with
  | nil =>
    cases hr
    exact h.ok
  | cons op ops ih =>
    obtain ⟨r, wb₁, m₁, hagree, hrest⟩ := h
    rw [run_cons, next, hagree.1, Option.map_some, Option.bind_some] at hr
    exact ih hrest hr

/-! ## Room in a block of the caller -/

/-- The answer of `wbuffer_has_room` is right for `n` bytes: their sum with the cursor does not wrap
and they do not fill the block to its last byte, or the block has `2 ^ 32 - 1` bytes. -/
def RoomFits (wb : WBuffer) (n : Nat) : Prop :=
  (wb.cursor + n < 2 ^ 32 ∧ wb.cursor + n ≠ wb.capacity) ∨
    (wb.cursor + n = wb.capacity ∧ wb.capacity + 1 = 2 ^ 32)

theorem hasRoom_fixed (hfix : wb.extendable = false) (n : Nat) :
    wb.hasRoom n = true ↔ U32.add wb.cursor n ≤ wb.capacity := by
  simp [hasRoom, hfix]

theorem Ok.writeBinary_fixed (hw : wb.Ok) (hfix : wb.extendable = false) :
    (∃ wb', wb.writeBinary realloc bs = some (.ok, wb')) ↔
      wb.need bs.length ≤ wb.capacity ∧ wb.cursor + bs.length ≤ wb.capacity := by
  have hgranted (c : Nat) :
      grantedCapacity realloc wb.extendable wb.capacity (wb.need bs.length) = some c ↔
        wb.need bs.length ≤ wb.capacity ∧ wb.capacity = c := by
    rw [grantedCapacity, hfix, if_neg (by decide)]
    split_ifs with hle <;> simp [hle]
  constructor
  · rintro ⟨wb', hx⟩
    obtain ⟨hg, hle⟩ := hw.writeBinary_granted.mp ⟨wb', hx, rfl⟩
    obtain ⟨hneed, hcap⟩ := (hgranted _).mp hg
    exact ⟨hneed, hcap ▸ hle⟩
  · rintro ⟨hneed, hle⟩
    obtain ⟨wb', hx, -⟩ := hw.writeBinary_granted.mpr ⟨(hgranted _).mpr ⟨hneed, rfl⟩, hle⟩
    exact ⟨wb', hx⟩

theorem Ok.hasRoom_iff (hw : wb.Ok) (hfix : wb.extendable = false) (data : Bytes32) :
    (wb.hasRoom data.1.length = true → ∃ wb', wb.writeBinary realloc data.1 = some (.ok, wb')) ↔
      wb.RoomFits data.1.length := by
  have hc := hw.cursor
  have hb := hw.bound
  have hlt := data.2
  rw [hasRoom_fixed hfix, hw.writeBinary_fixed hfix, need, U32.add_add, U32.add, RoomFits]
  omega

/-! ## Every run -/

/-- A buffer at the beginning, and its tape. -/
inductive Start : WBuffer → ByteTape → Prop where
  | fixed (data : List UInt8) (h : data.length < 2 ^ 32) :
      Start (init data) ⟨cellsOf data, 0, some data.length⟩
  | extendable : Start initExtendable ⟨fun _ => 0, 0, none⟩

theorem Start.shows (h : Start wb m) : Shows wb m := by
  cases h with
  | fixed data h => exact shows_init h
  | extendable => exact shows_initExtendable

/-- In a run whose edits meet their condition, each one agrees with the tape.  The answer of
`wbuffer_has_room` at its end is right exactly where it meets its own condition.  An insertion into
a tape keeps the bytes on both sides. -/
theorem edits_agree (realloc : Nat → Bool) {wb : WBuffer} {m : ByteTape} (hs : Start wb m)
    {ops : List Op} (hn : Meets (next realloc) (Fits realloc) wb ops) :
    AgreesAll realloc wb m ops ∧
    (∀ wb', run (next realloc) wb ops = some wb' → wb'.extendable = false → ∀ data : Bytes32,
      ((wb'.hasRoom data.1.length = true →
        ∃ w, wb'.writeBinary realloc data.1 = some (.ok, w)) ↔ wb'.RoomFits data.1.length)) ∧
    ∀ (m m' : ByteTape) (offset : UInt32) (data : Bytes32),
      m.call (.insert offset data) = some m' →
        m'.contents = m.contents.take offset.toNat ++ data.1 ++ m.contents.drop offset.toNat := by
  have hall := hs.shows.run hn
  exact ⟨hall, fun _ hr hfix data => (hall.ok_of_run hr).hasRoom_iff hfix data,
    fun _ _ _ _ h => ByteTape.insert_contents h⟩

/-- A block of eight bytes: two bytes are written, one is put between them, and the cursor goes
back. -/
theorem edits_agree_eight : AgreesAll (fun _ => true) (init (List.replicate 8 0))
    ⟨cellsOf (List.replicate 8 0), 0, some 8⟩
    [.write ⟨[1, 2], by decide⟩, .insert 1 ⟨[3], by decide⟩, .skip (-1),
      .modify 0 ⟨[9], by decide⟩] :=
  (edits_agree (fun _ => true) (.fixed (List.replicate 8 0) (by decide)) (by
    refine ⟨.inl ⟨by decide, by decide, by simp [Grows, init]⟩, ?_⟩
    rintro _ ⟨⟩
    refine ⟨.inl ⟨by decide, .inl ⟨by decide, by decide, by simp [Grows, init]⟩⟩, ?_⟩
    rintro _ ⟨⟩
    refine ⟨⟨.inl (by decide), by simp [init]⟩, ?_⟩
    rintro _ ⟨⟩
    exact ⟨.inl (by decide), fun _ _ => trivial⟩)).1

/-- A block of four bytes has room for four bytes, but they cannot be written.  An insertion behind
the contents leaves the block.  A skip over bytes behind the cursor clears them. -/
theorem edits_disagree :
    ((init [0, 0, 0, 0]).hasRoom 4 = true ∧
      (init [0, 0, 0, 0]).writeBinary (fun _ => true) [1, 2, 3, 4] =
        some (.badParams, init [0, 0, 0, 0])) ∧
    (init [0, 0, 0, 0]).insertBinary (fun _ => true) 1 [5] = none ∧
    (∃ wb, run (next fun _ => true) initExtendable
        [.write ⟨[7], by decide⟩, .skip (-1), .skip 8] = some wb ∧ wb.contents.head? = some 0) ∧
    ¬ ∀ ops, AgreesAll (fun _ => true) (init [0, 0, 0, 0])
      ⟨cellsOf [0, 0, 0, 0], 0, some 4⟩ ops := by
  refine ⟨⟨by decide, by decide⟩, by decide, ⟨_, rfl, by decide⟩, fun h => ?_⟩
  obtain ⟨r, wb', m', ⟨hcall, -, hres⟩, -⟩ := h [.write ⟨[1, 2, 3, 4], by decide⟩]
  obtain ⟨rfl, rfl⟩ : Ret.badParams = r ∧ init [0, 0, 0, 0] = wb' := by
    simpa using Option.some.inj hcall
  obtain ⟨-, rfl, hno | ⟨hext, -⟩⟩ := hres
  · exact absurd hno (by simp [ByteTape.call, ByteTape.write, ByteTape.Within])
  · cases hext

end WBuffer

end Awtk
