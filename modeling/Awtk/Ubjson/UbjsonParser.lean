import Awtk.Tkc.RBuffer
import Awtk.Tkc.Utf8RoundTrip
import Awtk.Ubjson.UbjsonWriter

/-!
# Reading UBJSON

A model of `ubjson_reader.c` on a read buffer.  A length is an `int` that comes from the
input.  It is converted to `uint32_t` for the bounds check, and then it is the index of the
NUL behind the bytes.

A function stops with `outside` where the C code accesses memory outside of the data or of
the string buffer.  Memory does not run out.
-/

namespace Awtk.Ubjson

/-- Why a function has no result: an access outside of the buffers, or the steps it was
given are used up. -/
inductive Stop where
  | outside
  | steps
  deriving DecidableEq, Repr

/-- What `ubjson_reader_read` gives. -/
inductive Item where
  | token (marker : UInt8)
  | value (v : Value)
  deriving DecidableEq

/-- An `int` converted to `uint32_t`. -/
def toU32 (n : Int) : Nat := (n % 2 ^ 32).toNat

/-- `str_extend` to a capacity.  One more byte is allocated, and that sum is a
`uint32_t`. -/
def strExtend (capacity n : Nat) : Except Stop Nat :=
  if n ≤ capacity then .ok capacity
  else if n = 2 ^ 32 - 1 then .error .outside
  else .ok n

/-- `ubjson_reader_t`.  `capacity` is that of the string buffer. -/
structure Reader where
  rb : RBuffer
  capacity : Nat
  optimizedType : UInt8

namespace Reader

def init (rb : RBuffer) : Reader := { rb, capacity := 64, optimizedType := 0 }

/-- `ubjson_reader_read_data` with `rbuffer_read_binary_if_has_more`. -/
def readData (r : Reader) (size : Nat) : Except Stop (Ret × List UInt8 × Reader) :=
  if r.rb.hasMore then
    match r.rb.readBinary size with
    | none => .error .outside
    | some (ret, bytes, rb) => .ok (ret, bytes, { r with rb })
  else .ok (.done, [], r)

/-- The bytes of a length in the string buffer.  The NUL behind them has the length as its
index. -/
def readText (r : Reader) (len : Int) : Except Stop (Ret × List UInt8 × Reader) :=
  (strExtend r.capacity (toU32 (len + 1))).bind fun capacity =>
    ({ r with capacity }.readData (toU32 len)).bind fun (ret, bytes, r) =>
      if ret = Ret.ok ∧ len < 0 then .error .outside else .ok (ret, bytes, r)

/-- The number of bytes of an element of an optimized array. -/
def elementSize (type : UInt8) : Nat :=
  match Marker.ofByte type with
  | some .uint8 | some .int8 => 1
  | some .int16 => 2
  | some .int32 | some .float32 => 4
  | some .int64 | some .float64 => 8
  | _ => 0

/-- The first elements in the order of the machine. -/
def swap (size : Nat) : Nat → List UInt8 → List UInt8
  | 0, bytes => bytes
  | count + 1, bytes => (bytes.take size).reverse ++ swap size count (bytes.drop size)

/-- `ubjson_reader_read_optimized_array`.  The product is cut to an `int`, and the loop
goes over all elements. -/
def readOptimizedArray (r : Reader) (type : UInt8) (count : Int) :
    Except Stop (Except Ret Item × Reader) :=
  let size := elementSize type
  let len := I32.ofU32 (toU32 (count * size))
  (r.readText len).bind fun (ret, bytes, r) =>
    if ret ≠ Ret.ok then .ok (.error .fail, r)
    else if 1 < size ∧ r.capacity + 1 < count * size then .error .outside
    else
      let data := if 1 < size then swap size count.toNat bytes else bytes
      .ok (.ok (.value (.binary (some data))), r)

/-- A number of `n` bytes. -/
def readNumber (r : Reader) (n : Nat) (f : Nat → Value) : Except Stop (Except Ret Item × Reader) :=
  (r.readData n).bind fun (ret, bytes, r) =>
    if ret = Ret.ok then .ok (.ok (.value (f (Bytes.toNat bytes.reverse))), r)
    else .ok (.error .fail, r)

/-- A string of `len` bytes, which is binary data where it has a NUL, or a wide one. -/
def readString (r : Reader) (wide : Bool) (len : Int) : Except Stop (Except Ret Item × Reader) :=
  (r.readText len).bind fun (ret, bytes, r) =>
    if ret ≠ Ret.ok then .ok (.error .fail, r)
    else if wide then
      match Utf8.tkUtf8ToUtf16Ex true (bytes ++ [0]) bytes.length (bytes.length + 1) with
      | none => .error .outside
      | some ws => .ok (.ok (.value (.wstr (ws.map (·.takeWhile (· ≠ 0))))), r)
    else if 0 ∈ bytes then .ok (.ok (.value (.binary (some bytes))), r)
    else .ok (.ok (.value (.str (some bytes))), r)

/-- A length in front of something. -/
def withLength (read : Reader → Except Stop (Except Ret Item × Reader)) (r : Reader)
    (next : Reader → Int → Except Stop (Except Ret Item × Reader)) :
    Except Stop (Except Ret Item × Reader) :=
  (read r).bind fun
    | (.ok (.value v), r) => next r v.toInt
    | (.ok (.token _), r) => next r 0
    | (.error _, r) => .ok (.error .fail, r)

/-- `ubjson_reader_read`, at most so many levels deep. -/
def readLevels : Nat → Reader → Except Stop (Except Ret Item × Reader)
  | 0, _ => .error .steps
  | n + 1, r =>
    (r.readData 1).bind fun (ret, bytes, r) =>
      let marker := bytes.headD 0
      let value (v : Value) : Except Stop (Except Ret Item × Reader) := .ok (.ok (.value v), r)
      let token (t : UInt8) : Except Stop (Except Ret Item × Reader) := .ok (.ok (.token t), r)
      if ret ≠ Ret.ok then .ok (.error .done, r)
      else
        match Marker.ofByte marker with
        | some .null | some .noop => value (.pointer 0)
        | some .true => value (.bool true)
        | some .false => value (.bool false)
        | some .int8 => r.readNumber 1 fun v => .int8 (UInt8.ofNat v).toInt8
        | some .uint8 => r.readNumber 1 fun v => .uint8 (UInt8.ofNat v)
        | some .int16 => r.readNumber 2 fun v => .int16 (UInt16.ofNat v).toInt16
        | some .uint16 => r.readNumber 2 fun v => .uint16 (UInt16.ofNat v)
        | some .int32 => r.readNumber 4 fun v => .int32 (UInt32.ofNat v).toInt32
        | some .uint32 => r.readNumber 4 fun v => .uint32 (UInt32.ofNat v)
        | some .int64 => r.readNumber 8 fun v => .int64 (UInt64.ofNat v).toInt64
        | some .uint64 => r.readNumber 8 fun v => .uint64 (UInt64.ofNat v)
        | some .pointer => r.readNumber 8 fun v => .pointer (UInt64.ofNat v)
        | some .float32 => r.readNumber 4 fun v => .float32 (UInt32.ofNat v)
        | some .float64 => r.readNumber 8 fun v => .double (UInt64.ofNat v)
        | some .char =>
          (r.readText 1).bind fun (ret, bytes, r) =>
            if ret = Ret.ok then .ok (.ok (.value (.str (some (bytes.takeWhile (· ≠ 0))))), r)
            else .ok (.error .fail, r)
        | some .string => withLength (readLevels n) r fun r len => r.readString false len
        | some .wstring => withLength (readLevels n) r fun r len => r.readString true len
        | some .arrayBegin | some .arrayEnd | some .objectBegin | some .objectEnd => token marker
        | some .containerType =>
          (r.readData 1).bind fun (ret, bytes, r) =>
            if ret = Ret.ok then
              .ok (.ok (.token (bytes.headD 0)), { r with optimizedType := bytes.headD 0 })
            else .ok (.error .fail, r)
        | some .containerCount =>
          withLength (readLevels n) r fun r count =>
            (r.readOptimizedArray r.optimizedType count).map fun (item, r) =>
              (item, { r with optimizedType := 0 })
        | none => .ok (.error .fail, r)

/-- `ubjson_reader_read`.  Every level reads a byte. -/
def read (r : Reader) : Except Stop (Except Ret Item × Reader) :=
  readLevels (r.rb.capacity - r.rb.cursor + 1) r

end Reader

end Awtk.Ubjson

/-!
## Parsing UBJSON

A model of `ubjson_parser.c`.  What is parsed goes to a callback, one call for a value and
one for each end of a container.  `σ` is the context of the callback.  Once a call has
failed nothing more is read.

The loops get a number of steps.
-/

namespace Awtk.Ubjson

/-- `ubjson_on_key_value_t`. -/
abbrev OnKeyValue (σ : Type) := σ → Option Str → Item → Ret × σ

/-- `ubjson_parser_t`.  `capacity` is that of the buffer for keys. -/
structure Parser (σ : Type) where
  reader : Reader
  capacity : Nat
  error : Bool
  ctx : σ

namespace Parser

variable {σ : Type}

def init (data : List UInt8) (ctx : σ) : Parser σ :=
  { reader := .init (.init data data.length), capacity := 64, error := false, ctx }

def onKeyValue (f : OnKeyValue σ) (p : Parser σ) (key : Option Str) (item : Item) : Parser σ :=
  let (ret, ctx) := f p.ctx key item
  { p with ctx, error := p.error || ret ≠ .ok }

def read (p : Parser σ) : Except Stop (Except Ret Item × Parser σ) :=
  if p.error then .ok (.error .fail, p)
  else p.reader.read.map fun (item, reader) => (item, { p with reader })

/-- The length of a key. -/
def keyLength : Value → Option Int
  | .uint8 v => some v.toNat
  | .int8 v => some v.toInt
  | .int16 v => some v.toInt
  | .int32 v => some v.toInt
  | _ => none

/-- The bytes of a key. -/
def readKey (p : Parser σ) (len : Int) : Except Stop (Ret × Str × Parser σ) :=
  (strExtend p.capacity (toU32 (len + 1))).bind fun capacity =>
    (p.reader.readData (toU32 len)).bind fun (ret, bytes, reader) =>
      if ret = Ret.ok ∧ len < 0 then .error .outside
      else .ok (ret, bytes.takeWhile (· ≠ 0), { p with capacity, reader })

/-- The value behind a key in `ubjson_do_parse_key_value`, with the functions for the
containers. -/
def parseKeyed (f : OnKeyValue σ) (parseObject parseArray : Parser σ → Except Stop (Ret × Parser σ))
    (p : Parser σ) (key : Str) : Except Stop (Ret × Parser σ) :=
  p.read.bind fun
    | (.error _, p) => .ok (.done, p)
    | (.ok (.value v), p) => .ok (.ok, p.onKeyValue f (some key) (.value v))
    | (.ok (.token t), p) =>
      if t = Marker.arrayBegin.byte then parseArray (p.onKeyValue f (some key) (.token t))
      else if t = Marker.objectBegin.byte then parseObject (p.onKeyValue f (some key) (.token t))
      else .ok (.badParams, p)

def parseKeyValue (f : OnKeyValue σ) (parseObject parseArray : Parser σ → Except Stop (Ret × Parser σ))
    (p : Parser σ) (len : Int) : Except Stop (Ret × Parser σ) :=
  (p.readKey len).bind fun (ret, key, p) =>
    if ret ≠ Ret.ok then .ok (.fail, p) else p.parseKeyed f parseObject parseArray key

mutual

def parseObject (f : OnKeyValue σ) : Nat → Parser σ → Except Stop (Ret × Parser σ)
  | 0, _ => .error .steps
  | n + 1, p =>
    p.read.bind fun
      | (.error _, p) => .ok (.ok, p)
      | (.ok (.token t), p) =>
        if t = Marker.objectEnd.byte then .ok (.ok, p.onKeyValue f none (.token t))
        else .ok (.badParams, p)
      | (.ok (.value v), p) =>
        match keyLength v with
        | none => .ok (.badParams, p)
        | some len =>
          (parseKeyValue f (parseObject f n) (parseArray f n) p len).bind fun (ret, p) =>
            if ret = Ret.ok then parseObject f n p else .ok (.fail, p)

def parseArray (f : OnKeyValue σ) : Nat → Parser σ → Except Stop (Ret × Parser σ)
  | 0, _ => .error .steps
  | n + 1, p =>
    p.read.bind fun
      | (.error _, p) => .ok (.ok, p)
      | (.ok (.value v), p) => parseArray f n (p.onKeyValue f none (.value v))
      | (.ok (.token t), p) =>
        if t = Marker.arrayEnd.byte then .ok (.ok, p.onKeyValue f none (.token t))
        else if t = Marker.objectBegin.byte then
          (parseObject f n (p.onKeyValue f none (.token t))).bind fun (ret, p) =>
            if ret = Ret.ok then parseArray f n p else .ok (.fail, p)
        else if t = Marker.arrayBegin.byte then
          (parseArray f n (p.onKeyValue f none (.token t))).bind fun (_, p) => parseArray f n p
        else
          (p.onKeyValue f none (.token t)).read.bind fun
            | (.error _, p) => .ok (.fail, p)
            | (.ok item, p) => .ok (.ok, p.onKeyValue f none item)

end

def doParse (f : OnKeyValue σ) (steps : Nat) (p : Parser σ) : Except Stop (Ret × Parser σ) :=
  p.read.bind fun
    | (.error _, p) => .ok (.done, p)
    | (.ok (.value _), p) => .ok (.badParams, p)
    | (.ok (.token t), p) =>
      if t = Marker.objectBegin.byte then parseObject f steps (p.onKeyValue f none (.token t))
      else if t = Marker.arrayBegin.byte then parseArray f steps (p.onKeyValue f none (.token t))
      else .ok (.badParams, p)

end Parser

/-- `ubjson_parse`, with the context the callback leaves.  Every turn of a loop reads a
byte. -/
def parse {σ : Type} (f : OnKeyValue σ) (data : List UInt8) (ctx : σ) : Except Stop (Ret × σ) :=
  if data = [] then .ok (.badParams, ctx)
  else (Parser.doParse f (data.length + 1) (.init data ctx)).map fun (_, p) => (.ok, p.ctx)

end Awtk.Ubjson
