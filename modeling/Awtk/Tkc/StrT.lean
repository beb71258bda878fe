import Awtk.Lib.Block
import Awtk.Tkc.CStr
import Awtk.Tkc.Utf8

/-!
# Growable strings

The functions of `str.c` that change a `str_t`.  The text is in a block of memory, and each read
or write of a function is checked against the block.  Sizes are of type `uint32_t`, so the room
that a function asks for can wrap.  `memory` tells for which sizes a block can be had.
-/

namespace Awtk

/-- `str_t`, with the bytes of the block that `str` points to. -/
structure StrT where
  str : Option (List UInt8)
  size : Nat
  capacity : Nat
  extendable : Bool
  deriving DecidableEq, Repr

namespace StrT

open Block (read write resize text)

variable (memory : Nat → Bool) (s : StrT)

/-! ## Room -/

def extend (capacity : Nat) : Option (Ret × StrT) :=
  if capacity ≤ s.capacity then some (.ok, s)
  else if ¬ s.extendable then some (.fail, s)
  else
    let n := U32.add capacity 1
    if memory n then do
      let str ← write (resize 0 (s.str.getD []) n) capacity [0]
      let str ← write str s.size (List.replicate (capacity + 1 - s.size) 0)
      some (.ok, { s with str := some str, capacity := capacity })
    else some (.fail, s)

/-- `str_init`, if there is memory. -/
def init (capacity : Nat) : Option (Option StrT) := do
  let (ret, s) ← extend memory ⟨none, 0, 0, true⟩ capacity
  if ret = .ok then some (some s) else some none

def attachWithSize (buff : List UInt8) (size capacity : Nat) : Option (Option StrT) :=
  if capacity = 0 ∨ capacity ≤ size then some none
  else (write buff size [0]).map fun buff => some ⟨some buff, size, capacity, false⟩

def attach (buff : List UInt8) (capacity : Nat) : Option (Option StrT) :=
  if capacity = 0 then some none
  else
    (write buff 0 (List.replicate capacity 0)).bind fun buff => attachWithSize buff 0 capacity

def shrink (size : Nat) : Option (Ret × StrT) :=
  if size < s.size then do
    let str ← s.str
    let str ← write str size [0]
    some (.ok, { s with str := some str, size := size })
  else some (.ok, s)

/-! ## Setting and appending -/

/-- `str_set_with_len`.  The bytes behind a shorter text are cleared by `strncpy`. -/
def setWithLen (t : Str) (len : Nat) : Option (Ret × StrT) := do
  let (ret, s) ← extend memory s (U32.add len 1)
  if ret ≠ .ok then some (.badParams, s)
  else
    let str ← s.str
    let str ← write str 0 (t.take len ++ List.replicate (len - t.length) 0)
    let str ← write str len [0]
    let t ← text str 0
    some (.ok, { s with str := some str, size := t.length })

def appendWithLen (t : Str) (size : Nat) : Option (Ret × StrT) := do
  let (ret, s) ← extend memory s (U32.add (U32.add s.size size) 1)
  if ret ≠ .ok then some (.badParams, s)
  else
    let str ← s.str
    let data ← read (t ++ [0]) 0 size
    let str ← write str s.size data
    let size := U32.add s.size size
    let str ← write str size [0]
    some (.ok, { s with str := some str, size := size })

def appendChar (c : UInt8) : Option (Ret × StrT) := do
  let (ret, s) ← extend memory s (U32.add s.size 2)
  if ret ≠ .ok then some (.badParams, s)
  else
    let str ← s.str
    let str ← write str s.size [c]
    let size := U32.add s.size 1
    let str ← write str size [0]
    some (.ok, { s with str := some str, size := size })

def appendNChars (c : UInt8) (n : Nat) : Option (Ret × StrT) := do
  let (ret, s) ← extend memory s (U32.add (U32.add s.size n) 1)
  if ret ≠ .ok then some (.badParams, s)
  else
    let str ← s.str
    let str ← write str s.size (List.replicate n c)
    let size := U32.add s.size n
    let str ← write str size [0]
    some (.ok, { s with str := some str, size := size })

/-- `str_append_wchar`.  A conversion without room writes nothing. -/
def appendWchar (wchar4 : Bool) (ws : List UInt32) : Option (Ret × StrT) := do
  let len := ws.length % 2 ^ 32
  let size := U32.add (U32.mul len 6) 1
  let (ret, s) ← extend memory s (U32.add (U32.add s.size size) 1)
  if ret ≠ .ok then some (.oom, s)
  else
    match s.str with
    | none => if s.size = 0 then some (.ok, s) else none
    | some str =>
      let outSize := U32.sub (U32.sub s.capacity s.size) 1
      let str ←
        if outSize = 0 then some str
        else do
          let (_, out) ← Utf8.tkUtf8FromUtf16Ex wchar4 ws len outSize (str.length - s.size)
          write str s.size (out ++ [0])
      let t ← text str s.size
      some (.ok, { s with str := some str, size := U32.add s.size t.length })

/-! ## Inserting and removing -/

def insertWithLen (offset : Nat) (t : Str) (size : Nat) : Option (Ret × StrT) :=
  if s.size < offset then some (.badParams, s)
  else do
    let (ret, s) ← extend memory s (U32.add (U32.add s.size size) 1)
    if ret ≠ .ok then some (.oom, s)
    else
      let str ← s.str
      let moveSize := s.size - offset
      let str ←
        if 0 < moveSize then do
          let moved ← read str offset moveSize
          write str (offset + size) moved
        else some str
      let data ← read (t ++ [0]) 0 size
      let str ← write str offset data
      let size := U32.add s.size size
      let str ← write str size [0]
      some (.ok, { s with str := some str, size := size })

def remove (offset size : Nat) : Option (Ret × StrT) :=
  if U32.add offset size ≤ s.size ∧ 0 < size then do
    let str ← s.str
    let t ← text str (offset + size)
    let str ← write str offset t
    let size := U32.sub s.size size
    let str ← write str size [0]
    some (.ok, { s with str := some str, size := size })
  else some (.badParams, s)

/-- `str_pop`. -/
def pop : Option (Ret × StrT) :=
  if s.size = 0 then some (.badParams, s)
  else do
    let str ← s.str
    let str ← write str (s.size - 1) [0]
    some (.ok, { s with str := some str, size := s.size - 1 })

def dequote (quoteChar : UInt8) : Option (Ret × StrT) :=
  match s.str with
  | none => some (.badParams, s)
  | some str =>
    if s.size < 2 then some (.badParams, s)
    else do
      let first ← str[0]?
      let last ← str[s.size - 1]?
      if ¬ (first = quoteChar ∧ last = quoteChar) then some (.badParams, s)
      else
        let data ← read str 1 (s.size - 2)
        let str ← write str 0 data
        let str ← write str (s.size - 2) [0]
        some (.ok, { s with str := some str, size := s.size - 2 })

/-! ## Trimming -/

def trimLeft (chars : Str) : Option (Ret × StrT) :=
  match s.str with
  | none => some (.badParams, s)
  | some str =>
    if s.size = 0 then some (.ok, s)
    else do
      let t ← text str 0
      let p := t.dropWhile (chars.contains ·)
      let i := t.length - p.length
      let str ←
        if i ≠ 0 then do
          let data ← read str i (p.length + 1)
          write str 0 data
        else some str
      let t ← text str 0
      some (.ok, { s with str := some str, size := t.length })

def trimRight (chars : Str) : Option (Ret × StrT) :=
  match s.str with
  | none => some (.badParams, s)
  | some str =>
    if s.size = 0 then some (.ok, s)
    else do
      let t ← text str 0
      let str ← if t = [] then some str else write str (strTrimRight chars t).length [0]
      let t ← text str 0
      some (.ok, { s with str := some str, size := t.length })

def trim (chars : Str) : Option (Ret × StrT) :=
  if s.size = 0 then some (.ok, s)
  else do
    let (_, s) ← s.trimLeft chars
    s.trimRight chars

/-! ## Replacing -/

/-- `strstr`: the rest of a string from the first match on. -/
def strstr (t : Str) : Str → Option Str
  | [] => if t = [] then some [] else none
  | c :: str => if t.isPrefixOf (c :: str) then some (c :: str) else strstr t str

/-- The loop of `str_count_sub_str`. -/
def countLoop (t : Str) (size : Nat) : Nat → Str → Nat
  | 0, _ => 0
  | fuel + 1, p =>
    match strstr t p with
    | some p => countLoop t size fuel (p.drop size) + 1
    | none => 0

/-- `str_count_sub_str` of the text behind `start_pos`. -/
def countSubStr (p t : Str) : Nat :=
  let size := t.length % 2 ^ 32
  if size = 0 then 0 else countLoop t size (p.length + 1) p % 2 ^ 32

/-- The loop of `str_replace_impl`.  If `same`, `dst` and `src` are one block. -/
def replaceLoop (t newText : Str) (same : Bool) :
    Nat → List UInt8 → List UInt8 → Nat → Nat → Option (List UInt8 × Nat)
  | 0, _, _, _, _ => none
  | fuel + 1, dst, src, i, j => do
    let c ← src[i]?
    if c = 0 then
      let dst ← write dst j [0]
      some (dst, j)
    else
      let found ← read src i t.length
      if found = t then
        let dst ← write dst j newText
        replaceLoop t newText same fuel dst (if same then dst else src) (i + t.length)
          (j + newText.length)
      else
        let dst ← write dst j [c]
        replaceLoop t newText same fuel dst (if same then dst else src) (i + 1) (j + 1)

def replaceImpl (same : Bool) (dst src : List UInt8) (startPos : Nat) (t newText : Str) :
    Option (List UInt8 × Nat) := do
  -- the lengths are of type `uint32_t`
  let t := t.take (t.length % 2 ^ 32)
  let newText := newText.take (newText.length % 2 ^ 32)
  let start ← read src 0 startPos
  let dst ← write dst 0 start
  replaceLoop t newText same (src.length + 1) dst (if same then dst else src) startPos startPos

def replaceEx (pos : Nat) (t newText : Str) : Option (Ret × StrT) :=
  match s.str with
  | none => some (.badParams, s)
  | some str =>
    if t = [] ∨ s.size ≤ pos then some (.badParams, s)
    else do
      let textLen := t.length % 2 ^ 32
      let newTextLen := newText.length % 2 ^ 32
      let p ← text str pos
      let count := countSubStr p t
      if count = 0 then some (.ok, s)
      else
        let deltaLen := I32.ofU32 (U32.sub newTextLen textLen)
        let capacity := U32.add (U32.add s.size (U32.mul count (U32.sub newTextLen textLen))) 1
        if deltaLen ≤ 0 then
          let (str, size) ← replaceImpl true str str pos t newText
          some (.ok, { s with str := some str, size := size })
        else if s.extendable then
          if memory capacity then
            let (str, size) ← replaceImpl false (List.replicate capacity 0) str pos t newText
            some (.ok, { s with str := some str, size := size, capacity := capacity })
          else none
        else some (.fail, s)

/-! ## The rest -/

/-- The loop of `str_common_prefix`. -/
def commonLoop (str : List UInt8) (limit : Nat) : Str → Nat → Option Nat
  | [], i => some i
  | c :: other, i =>
    if i < limit then do
      let d ← str[i]?
      if d = c then commonLoop str limit other (i + 1) else some i
    else some i

def commonPrefix (other : Str) : Option (Ret × StrT) :=
  match s.str with
  | none => some (.badParams, s)
  | some str => do
    let i ← commonLoop str (min s.size s.capacity) other 0
    if i < s.capacity then
      let str ← write str i [0]
      some (.ok, { s with str := some str, size := i })
    else if 0 < s.capacity then
      let str ← write str (s.capacity - 1) [0]
      some (.ok, { s with str := some str, size := s.capacity - 1 })
    else some (.ok, { s with size := i })

/-- The loop of `str_reverse`. -/
def reverseLoop : Nat → List UInt8 → Nat → Nat → Option (List UInt8)
  | 0, str, _, _ => some str
  | fuel + 1, str, start, stop =>
    if start < stop then do
      let c ← str[start]?
      let d ← str[stop]?
      reverseLoop fuel ((str.set start d).set stop c) (start + 1) (stop - 1)
    else some str

def reverse : Option (Ret × StrT) :=
  if 1 < s.size then do
    let str ← s.str
    let str ← reverseLoop s.size str 0 (s.size - 1)
    some (.ok, { s with str := some str })
  else some (.ok, s)

/-! ## Formatting -/

/-- `vsnprintf` of a text to `size` bytes at `off`. -/
def vsnprintf (str : List UInt8) (off size : Nat) (out : Str) : Option (List UInt8) :=
  if size = 0 then some str else write str off (out.take (size - 1) ++ [0])

/-- What `vsnprintf` returns, if it is not negative. -/
def vsnprintfRet (out : Str) : Option Nat := if out.length < 2 ^ 31 then some out.length else none

/-- `str_format`, where `out` is the text of the format. -/
def format (size : Nat) (out : Str) : Option (Ret × StrT) := do
  let (ret, s) ← extend memory s (U32.add size 1)
  if ret ≠ .ok then some (.oom, s)
  else
    match s.str with
    | none => some (.ok, { s with size := 0 })
    | some str =>
      let str ← vsnprintf str 0 size out
      match vsnprintfRet out with
      | some n => some (.ok, { s with str := some str, size := n })
      | none => some (.badParams, { s with str := some str })

/-- `str_append_vformat`, where `out` is the text of the format. -/
def appendVformat (size : Nat) (out : Str) : Option (Ret × StrT) := do
  let (ret, s) ← extend memory s (U32.add (U32.add s.size size) 1)
  if ret ≠ .ok then some (.oom, s)
  else
    match s.str with
    | none => if s.size = 0 then some (.ok, s) else none
    | some str =>
      let str ← vsnprintf str s.size size out
      match vsnprintfRet out with
      | some n => some (.ok, { s with str := some str, size := U32.add s.size n })
      | none => some (.badParams, { s with str := some str })

/-- `str_append_format_padding`, where `out` is the text of the format. -/
def appendFormatPadding (size : Nat) (out : Str) : Option (Ret × StrT) := do
  let oldSize := s.size
  let (ret, s) ← s.appendVformat memory size out
  if ret ≠ .ok then some (ret, s)
  else if s.size < U32.add oldSize size then do
    let (_, s) ← s.appendNChars memory ' ' (U32.sub (U32.add oldSize size) s.size)
    some (.ok, s)
  else some (.ok, s)

end StrT

end Awtk
