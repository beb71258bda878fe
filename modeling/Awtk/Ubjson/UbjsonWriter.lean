import Awtk.Lib.Bytes
import Awtk.Tkc.Value

/-!
# Writing UBJSON

A model of `ubjson_writer.c`.  What is written goes to a buffer that grows, so a function
gives the bytes it writes.  It gives nothing where it returns an error: where a length does
not fit an `int`, and for an optimized array without data.

Numbers are big-endian.
-/

namespace Awtk.Ubjson

/-- `ubjson_marker_t`. -/
inductive Marker where
  | null
  | noop
  | true
  | false
  | int8
  | uint8
  | int16
  | uint16
  | int32
  | uint32
  | int64
  | uint64
  | float32
  | float64
  | char
  | string
  | wstring
  | pointer
  | arrayBegin
  | arrayEnd
  | objectBegin
  | objectEnd
  | containerType
  | containerCount
  deriving DecidableEq, Repr

namespace Marker

def byte : Marker → UInt8
  | null => 'Z'
  | noop => 'N'
  | true => 'T'
  | false => 'F'
  | int8 => 'i'
  | uint8 => 'U'
  | int16 => 'I'
  | uint16 => 'u'
  | int32 => 'l'
  | uint32 => 'm'
  | int64 => 'L'
  | uint64 => 'M'
  | float32 => 'd'
  | float64 => 'D'
  | char => 'C'
  | string => 'S'
  | wstring => 'W'
  | pointer => 'P'
  | arrayBegin => '['
  | arrayEnd => ']'
  | objectBegin => '{'
  | objectEnd => '}'
  | containerType => '$'
  | containerCount => '#'

/-- All markers. -/
def all : List Marker :=
  [null, noop, true, false, int8, uint8, int16, uint16, int32, uint32, int64, uint64, float32,
    float64, char, string, wstring, pointer, arrayBegin, arrayEnd, objectBegin, objectEnd,
    containerType, containerCount]

/-- The marker of a byte. -/
def ofByte (b : UInt8) : Option Marker := all.find? (·.byte = b)

end Marker

/-- A number of `n` bytes, the highest first. -/
def bigEndian (n v : Nat) : List UInt8 := (Bytes.ofNat n v).reverse

namespace Writer

/-- `ubjson_writer_write_int8` and the other typed writes: a marker and the number. -/
def writeNumber (marker : Marker) (n v : Nat) : List UInt8 := marker.byte :: bigEndian n v

def writeInt8 (v : Int8) : List UInt8 := writeNumber .int8 1 v.toUInt8.toNat
def writeUint8 (v : UInt8) : List UInt8 := writeNumber .uint8 1 v.toNat
def writeInt16 (v : Int16) : List UInt8 := writeNumber .int16 2 v.toUInt16.toNat
def writeUint16 (v : UInt16) : List UInt8 := writeNumber .uint16 2 v.toNat
def writeInt32 (v : Int32) : List UInt8 := writeNumber .int32 4 v.toUInt32.toNat
def writeUint32 (v : UInt32) : List UInt8 := writeNumber .uint32 4 v.toNat
def writeInt64 (v : Int64) : List UInt8 := writeNumber .int64 8 v.toUInt64.toNat
def writeUint64 (v : UInt64) : List UInt8 := writeNumber .uint64 8 v.toNat
def writePointer (v : UInt64) : List UInt8 := writeNumber .pointer 8 v.toNat
def writeFloat32 (bits : UInt32) : List UInt8 := writeNumber .float32 4 bits.toNat
def writeFloat64 (bits : UInt64) : List UInt8 := writeNumber .float64 8 bits.toNat

def writeLength (len : Nat) : Option (List UInt8) :=
  if len ≤ 127 then some (writeInt8 (Int8.ofNat len))
  else if len ≤ 32767 then some (writeInt16 (Int16.ofNat len))
  else if len ≤ 2147483647 then some (writeInt32 (Int32.ofNat len))
  else none

/-- `ubjson_writer_write_key_len` with all the bytes.  A length is a `uint32_t`. -/
def writeKeyLen (s : List UInt8) : Option (List UInt8) :=
  let len := s.length % 2 ^ 32
  (writeLength len).map (· ++ s.take len)

def writeKey (name : Str) : Option (List UInt8) := writeKeyLen name

def writeStrLen (s : List UInt8) : Option (List UInt8) :=
  (writeKeyLen s).map (Marker.string.byte :: ·)

def writeStr (s : Option Str) : Option (List UInt8) := writeStrLen (s.getD [])

/-- The text of a wide string in a new `str_t`.  There is none where the size of the block
for it overflows to 0. -/
def wstrText (ws : List UInt32) : Option (List UInt8) :=
  (Utf8.strFromWstrWithLen (fun _ => true) true (Utf8.strInit (fun _ => true) 0) ws
    (ws.length % 2 ^ 32)).bind fun (_, s) => s.str

def writeWstr (ws : Option (List UInt32)) : Option (List UInt8) :=
  (wstrText (ws.getD [])).bind fun text => (writeKeyLen text).map (Marker.wstring.byte :: ·)

def writeTrue : List UInt8 := [Marker.true.byte]
def writeFalse : List UInt8 := [Marker.false.byte]
def writeArrayBegin : List UInt8 := [Marker.arrayBegin.byte]
def writeArrayEnd : List UInt8 := [Marker.arrayEnd.byte]
def writeObjectBegin : List UInt8 := [Marker.objectBegin.byte]
def writeObjectEnd : List UInt8 := [Marker.objectEnd.byte]

/-- `ubjson_writer_write_array_uint8`.  An optimized array has no end. -/
def writeArrayUint8 (data : Option (List UInt8)) : Option (List UInt8) :=
  match data with
  | none => none
  | some data =>
    let count := data.length % 2 ^ 32
    if count = 0 then none
    else
      (writeLength count).map fun len =>
        [Marker.arrayBegin.byte, Marker.containerType.byte, Marker.uint8.byte,
          Marker.containerCount.byte] ++ len ++ data.take count

end Writer

end Awtk.Ubjson
