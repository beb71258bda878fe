import Mathlib
import Awtk.Lib.Bytes
import Awtk.Tkc.Types

/-!
# The read buffer

A model of `rbuffer_t`: a block of `capacity` bytes and a cursor.  A read gives
the return code, what was read (zero where it failed) and the buffer.

An operation gives `none` where the C code has no defined behaviour: when it
looks at a byte behind the capacity (`byte?` and `load` are the only ways to the
bytes), and when the sum of two `int` overflows.  A `size_t` has 64 bits.
-/

namespace Awtk

open List

/-- `rbuffer_t`. -/
structure RBuffer where
  data : List UInt8
  cursor : Nat
  capacity : Nat
  deriving DecidableEq, Repr

namespace RBuffer

/-! ## The block -/

def init (data : List UInt8) (capacity : Nat) : RBuffer := ⟨data, 0, capacity⟩

/-- The byte at an index. -/
def byte? (rb : RBuffer) (i : Nat) : Option UInt8 :=
  if i < rb.capacity then some (rb.data.getD i 0) else none

/-- A `memcpy` of `n` bytes from an index on. -/
def load (rb : RBuffer) (i n : Nat) : Option (List UInt8) :=
  if i + n ≤ rb.capacity then some ((rb.data.drop i).take n) else none

/-- The bytes from the cursor on. -/
def rest (rb : RBuffer) : List UInt8 := (rb.data.take rb.capacity).drop rb.cursor

/-- The block has the recorded size and the cursor is in it. -/
structure Ok (rb : RBuffer) : Prop where
  size : rb.data.length = rb.capacity
  cursor : rb.cursor ≤ rb.capacity
  bound : rb.capacity < 2 ^ 32

/-! ## Operations -/

def hasMore (rb : RBuffer) : Bool := rb.cursor < rb.capacity

def rewind (rb : RBuffer) : RBuffer := { rb with cursor := 0 }

/-- `rbuffer_skip`.  The new cursor is a sum of two `int`. -/
def skip (rb : RBuffer) (offset : Int) : Option (Ret × RBuffer) :=
  let cursor := I32.ofU32 rb.cursor + offset
  if cursor < -2 ^ 31 ∨ 2 ^ 31 ≤ cursor then none
  else if 0 ≤ cursor ∧ cursor ≤ rb.capacity then some (.ok, { rb with cursor := cursor.toNat })
  else some (.badParams, rb)

/-- The typed reads: a little-endian number of `n` bytes. -/
def readUint (rb : RBuffer) (n : Nat) : Option (Ret × Nat × RBuffer) :=
  if rb.cursor + n ≤ rb.capacity then do
    let bytes ← rb.load rb.cursor n
    return (.ok, Bytes.toNat bytes, { rb with cursor := rb.cursor + n })
  else some (.badParams, 0, rb)

/-- The typed peeks. -/
def peekUint (rb : RBuffer) (n : Nat) : Option (Ret × Nat) :=
  if rb.cursor + n ≤ rb.capacity then do
    let bytes ← rb.load rb.cursor n
    return (.ok, Bytes.toNat bytes)
  else some (.badParams, 0)

/-- `rbuffer_read_binary`.  The bound is a sum of two `uint32_t`. -/
def readBinary (rb : RBuffer) (size : Nat) : Option (Ret × List UInt8 × RBuffer) :=
  if U32.add rb.cursor size ≤ rb.capacity then do
    let bytes ← rb.load rb.cursor size
    return (.ok, bytes, { rb with cursor := U32.add rb.cursor size })
  else some (.badParams, [], rb)

/-- `tk_strnlen` at an index of the block. -/
def tkStrnlen (rb : RBuffer) : (start maxlen : Nat) → Option Nat
  | _, 0 => some 0
  | start, n + 1 => do
    let c ← rb.byte? start
    if c = 0 then return 0
    else return (← rb.tkStrnlen (start + 1) n) + 1

/-- `rbuffer_read_string`.  A string without terminator is refused. -/
def readString (rb : RBuffer) : Option (Ret × Option (List UInt8) × RBuffer) := do
  let len ← rb.tkStrnlen rb.cursor (U32.sub rb.capacity rb.cursor)
  if U32.add rb.cursor len = rb.capacity then return (.fail, none, rb)
  else
    let str := (rb.data.drop rb.cursor).take len
    return (.ok, some str, { rb with cursor := U32.add rb.cursor (U32.add len 1) })

/-! ## Hexadecimal strings -/

/-- The characters `__decode_hex` skips: a blank, a colon, a dash. -/
def isSeparator (c : UInt8) : Bool := c == 0x20 || c == 0x3A || c == 0x2D

/-- The `while` of `__decode_hex`, with the number of bytes up to the capacity. -/
def skipSeparators (rb : RBuffer) : (n p : Nat) → Option Nat
  | 0, _ => none
  | n + 1, p => do
    let c ← rb.byte? p
    if isSeparator c then rb.skipSeparators n (p + 1) else return p

/-- `0x` or `0X`. -/
def skipPrefix (rb : RBuffer) (p : Nat) : Option Nat := do
  let c ← rb.byte? p
  if c = 0x30 then
    let x ← rb.byte? (p + 1)
    return if x = 0x78 ∨ x = 0x58 then p + 2 else p
  else return p

/-- `tk_strncpy` of two characters. -/
def copyTwo (rb : RBuffer) (p : Nat) : Option (List UInt8) := do
  let c ← rb.byte? p
  if c = 0 then return []
  else
    let c' ← rb.byte? (p + 1)
    return if c' = 0 then [c] else [c, c']

def hexDigit? (c : UInt8) : Option Nat :=
  let n := c.toNat
  if 0x30 ≤ n ∧ n ≤ 0x39 then some (n - 0x30)
  else if 0x41 ≤ n ∧ n ≤ 0x46 then some (n - 0x41 + 10)
  else if 0x61 ≤ n ∧ n ≤ 0x66 then some (n - 0x61 + 10)
  else none

/-- The digits of a number up to the first character that is none. -/
def hexNumber : Nat → List UInt8 → Nat
  | n, [] => n
  | n, c :: cs =>
    match hexDigit? c with
    | some d => hexNumber (n * 16 + d) cs
    | none => n

def isSpace (c : UInt8) : Bool := c == 0x20 || (0x09 ≤ c && c ≤ 0x0D)

/-- `strtol` with base 16 for at most two characters, too few for a digit behind
a prefix. -/
def strtol16 (v : List UInt8) : Int :=
  match v.dropWhile isSpace with
  | 0x2B :: cs => hexNumber 0 cs
  | 0x2D :: cs => -(hexNumber 0 cs : Int)
  | cs => hexNumber 0 cs

/-- The loop of `__decode_hex`: the bytes in the order they are found, and the
index where it ends. -/
def decodeHexLoop (rb : RBuffer) (stop : Nat) : (n p : Nat) → Option (List UInt8 × Nat)
  | 0, p => some ([], p)
  | n + 1, p =>
    if p < stop then do
      let p ← rb.skipSeparators (rb.capacity - p) p
      let p ← rb.skipPrefix p
      let v ← rb.copyTwo p
      let (bytes, p) ← rb.decodeHexLoop stop n (p + 2)
      return (UInt8.ofNat (strtol16 v % 256).toNat :: bytes, p)
    else some ([], p)

/-- `rbuffer_read_uint*_from_hexstr`: the first byte found is the highest. -/
def readFromHexstr (rb : RBuffer) (n : Nat) : Option (Ret × Nat × RBuffer) := do
  let slen ← rb.tkStrnlen rb.cursor (U32.sub rb.capacity rb.cursor)
  let (bytes, p) ← rb.decodeHexLoop (rb.cursor + slen) n rb.cursor
  let cursor := U32.add rb.cursor (p - rb.cursor)
  return (.ok, Bytes.toNat bytes.reverse, { rb with cursor })

/-! ## What the reads do -/

variable {rb : RBuffer}

theorem load_cursor {n : Nat} (h : rb.cursor + n ≤ rb.capacity) :
    rb.load rb.cursor n = some (rb.rest.take n) := by
  have htake : rb.rest.take n = (rb.data.drop rb.cursor).take n := by
    rw [rest, drop_take, take_take, Nat.min_eq_left (by omega)]
  rw [load, if_pos h, htake]

theorem readUint_eq (rb : RBuffer) (n : Nat) :
    rb.readUint n = some (if rb.cursor + n ≤ rb.capacity then
      (.ok, Bytes.toNat (rb.rest.take n), { rb with cursor := rb.cursor + n })
      else (.badParams, 0, rb)) := by
  rw [readUint]
  by_cases h : rb.cursor + n ≤ rb.capacity
  · rw [if_pos h, if_pos h, load_cursor h]
    rfl
  · rw [if_neg h, if_neg h]

theorem readUint_of_rest {bs more : List UInt8} (h : rb.rest = bs ++ more)
    (hcap : rb.capacity ≤ rb.data.length) (hcur : rb.cursor ≤ rb.capacity) :
    rb.readUint bs.length =
      some (.ok, Bytes.toNat bs, { rb with cursor := rb.cursor + bs.length }) := by
  have hlen := congrArg List.length h
  rw [rest, length_drop, length_take, length_append] at hlen
  rw [readUint_eq, if_pos (by omega), h, take_left]

theorem byte?_of_drop {p : Nat} {c : UInt8} {cs : List UInt8}
    (h : (rb.data.take rb.capacity).drop p = c :: cs) : rb.byte? p = some c := by
  have hlen := congrArg List.length h
  rw [length_drop, length_take, length_cons] at hlen
  have hget : rb.data.getD p 0 = c := by
    have hhead : ((rb.data.take rb.capacity).drop p)[0]? = some c := by rw [h]; rfl
    rw [getElem?_drop, getElem?_take_of_lt (by omega)] at hhead
    rw [getD_eq_getElem?_getD, Nat.add_zero] at *
    rw [hhead]
    rfl
  rw [byte?, if_pos (by omega), hget]

theorem drop_succ_of_drop {p : Nat} {c : UInt8} {l cs : List UInt8} (h : l.drop p = c :: cs) :
    l.drop (p + 1) = cs := by
  rw [← drop_drop, h]
  rfl

theorem tkStrnlen_eq (hcap : rb.capacity ≤ rb.data.length) : ∀ (maxlen start : Nat),
    start + maxlen ≤ rb.capacity →
    rb.tkStrnlen start maxlen =
      some ((((rb.data.take rb.capacity).drop start).take maxlen).takeWhile (· ≠ 0)).length
  | 0, start, _ => by rw [take_zero]; rfl
  | n + 1, start, h => by
    obtain ⟨c, cs, hc⟩ : ∃ c cs, (rb.data.take rb.capacity).drop start = c :: cs := by
      refine exists_cons_of_length_pos ?_
      rw [length_drop, length_take]
      omega
    have ih := tkStrnlen_eq hcap n (start + 1) (by omega)
    rw [drop_succ_of_drop hc] at ih
    rw [tkStrnlen, byte?_of_drop hc, hc, take_succ_cons, ih]
    by_cases h0 : c = 0
    · simp [h0]
    · simp [h0]

theorem rest_length (hcap : rb.capacity ≤ rb.data.length) :
    rb.rest.length = rb.capacity - rb.cursor := by
  rw [rest, length_drop, length_take, Nat.min_eq_left hcap]

/-- The string behind the cursor, up to its terminator or the capacity. -/
def text (rb : RBuffer) : List UInt8 := rb.rest.takeWhile (· ≠ 0)

theorem text_length_le (rb : RBuffer) : rb.text.length ≤ rb.rest.length :=
  ( takeWhile_prefix _).length_le

theorem text_length_lt_iff (rb : RBuffer) : rb.text.length < rb.rest.length ↔ 0 ∈ rb.rest := by
  constructor
  · intro hlt
    by_contra h0
    have hall : rb.text = rb.rest := by
      refine takeWhile_eq_self_iff.mpr fun b hb => ?_
      have hne : b ≠ 0 := fun h => h0 (h ▸ hb)
      simpa using hne
    rw [hall] at hlt
    exact Nat.lt_irrefl _ hlt
  · intro h0
    refine Nat.lt_of_le_of_ne rb.text_length_le fun heq => ?_
    have hall : rb.text = rb.rest := ( takeWhile_prefix _).eq_of_length heq
    have hne := takeWhile_eq_self_iff.mp hall 0 h0
    simp at hne

theorem tkStrnlen_cursor (hcap : rb.capacity ≤ rb.data.length) (hcur : rb.cursor ≤ rb.capacity)
    (hlt : rb.capacity < 2 ^ 32) :
    rb.tkStrnlen rb.cursor (U32.sub rb.capacity rb.cursor) = some rb.text.length := by
  have hall : rb.rest.take (rb.capacity - rb.cursor) = rb.rest :=
    take_of_length_le (rest_length hcap).le
  rw [U32.sub_of_le hcur hlt, tkStrnlen_eq hcap _ _ (by omega)]
  change some ((rb.rest.take (rb.capacity - rb.cursor)).takeWhile (· ≠ 0)).length = _
  rw [hall]
  rfl

theorem readString_eq (hcap : rb.capacity ≤ rb.data.length) (hcur : rb.cursor ≤ rb.capacity)
    (hlt : rb.capacity < 2 ^ 32) :
    rb.readString = some (if 0 ∈ rb.rest then
      (.ok, some rb.text, { rb with cursor := rb.cursor + rb.text.length + 1 })
      else (.fail, none, rb)) := by
  have hlen := rest_length hcap
  have hle := rb.text_length_le
  have hiff := rb.text_length_lt_iff
  rw [readString, tkStrnlen_cursor hcap hcur hlt]
  show (if U32.add rb.cursor rb.text.length = rb.capacity then _ else _) = _
  rw [U32.add_of_lt (a := rb.cursor) (by omega)]
  by_cases h0 : 0 ∈ rb.rest
  · have hlt' := hiff.mpr h0
    have htake : (rb.data.drop rb.cursor).take rb.text.length = rb.text := by
      have hpre : rb.rest.take rb.text.length = rb.text :=
        (prefix_iff_eq_take.mp ( takeWhile_prefix _)).symm
      rwa [rest, drop_take, take_take, Nat.min_eq_left (by omega)] at hpre
    rw [if_neg (by omega), if_pos h0, htake, U32.add_of_lt (a := rb.text.length) (by omega),
      U32.add_of_lt (a := rb.cursor) (by omega)]
    rfl
  · have hge := hiff.not.mpr h0
    rw [if_pos (by omega), if_neg h0]
    rfl

theorem readString_of_rest {s more : List UInt8} (hs : 0 ∉ s) (h : rb.rest = s ++ 0 :: more)
    (hcap : rb.capacity ≤ rb.data.length) (hcur : rb.cursor ≤ rb.capacity)
    (hlt : rb.capacity < 2 ^ 32) :
    rb.readString = some (.ok, some s, { rb with cursor := rb.cursor + s.length + 1 }) := by
  have htext : rb.text = s := by
    rw [text, h, takeWhile_append_of_pos]
    · simp
    · intro b hb
      have hne : b ≠ 0 := fun h0 => hs (h0 ▸ hb)
      simpa using hne
  rw [readString_eq hcap hcur hlt, if_pos (by rw [h]; simp), htext]

end RBuffer

end Awtk
