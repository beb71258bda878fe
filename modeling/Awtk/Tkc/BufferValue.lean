import Awtk.Lib.Ieee
import Awtk.Tkc.RBuffer
import Awtk.Tkc.Utf8
import Awtk.Tkc.WBuffer

/-!
# Values in a buffer

A model of `wbuffer_write_value` and `rbuffer_read_value`: a type tag and then
the payload.  Floating point numbers are bit patterns.
-/

namespace Awtk.BufferValue

open WBuffer

/-! ## Values -/

/-- A C string: no terminator inside. -/
abbrev CString := { s : List UInt8 // 0 ∉ s }

/-- A wide C string, each unit as a `uint32_t`. -/
abbrev WString := { s : List UInt32 // 0 ∉ s }

/-- The type tags the codec knows, `value_type_t`. -/
inductive ValueType where
  | bool
  | int8
  | uint8
  | int16
  | uint16
  | int32
  | uint32
  | int64
  | uint64
  | float
  | float32
  | double
  | string
  | wstring
  deriving DecidableEq, Repr

namespace ValueType

def toByte : ValueType → UInt8
  | bool => 1
  | int8 => 2
  | uint8 => 3
  | int16 => 4
  | uint16 => 5
  | int32 => 6
  | uint32 => 7
  | int64 => 8
  | uint64 => 9
  | float => 11
  | float32 => 12
  | double => 13
  | string => 14
  | wstring => 15

def ofByte (b : UInt8) : Option ValueType :=
  match b.toNat with
  | 1 => some bool
  | 2 => some int8
  | 3 => some uint8
  | 4 => some int16
  | 5 => some uint16
  | 6 => some int32
  | 7 => some uint32
  | 8 => some int64
  | 9 => some uint64
  | 11 => some float
  | 12 => some float32
  | 13 => some double
  | 14 => some string
  | 15 => some wstring
  | _ => none

@[simp] theorem ofByte_toByte (t : ValueType) : ofByte t.toByte = some t := by cases t <;> rfl

end ValueType

/-- `value_t`.  A string pointer may be NULL.  `other` is a value of a type the
codec has no arm for, with its type tag. -/
inductive Value where
  | bool (v : Bool)
  | int8 (v : Int8)
  | uint8 (v : UInt8)
  | int16 (v : Int16)
  | uint16 (v : UInt16)
  | int32 (v : Int32)
  | uint32 (v : UInt32)
  | int64 (v : Int64)
  | uint64 (v : UInt64)
  | float (bits : UInt32)
  | float32 (bits : UInt32)
  | double (bits : UInt64)
  | string (s : Option CString)
  | wstring (s : Option WString)
  | other (type : UInt8)
  deriving DecidableEq

/-- The type tag of a value. -/
def Value.type : Value → UInt8
  | .bool _ => ValueType.bool.toByte
  | .int8 _ => ValueType.int8.toByte
  | .uint8 _ => ValueType.uint8.toByte
  | .int16 _ => ValueType.int16.toByte
  | .uint16 _ => ValueType.uint16.toByte
  | .int32 _ => ValueType.int32.toByte
  | .uint32 _ => ValueType.uint32.toByte
  | .int64 _ => ValueType.int64.toByte
  | .uint64 _ => ValueType.uint64.toByte
  | .float _ => ValueType.float.toByte
  | .float32 _ => ValueType.float32.toByte
  | .double _ => ValueType.double.toByte
  | .string _ => ValueType.string.toByte
  | .wstring _ => ValueType.wstring.toByte
  | .other type => type

/-- `value_uint16` of a `uint64`: it goes through `value_int`, so through `int`. -/
def valueUint16OfUint64 (v : UInt64) : UInt16 := v.toUInt32.toUInt16

/-! ## Writing -/

section
variable (realloc : Nat → Bool) (wchar4 : Bool)

/-- `wbuffer_write_string`.  The length is a `uint32_t`. -/
def writeString (wb : WBuffer) (data : Option (List UInt8)) : Option (Ret × WBuffer) :=
  match data with
  | none => some (.badParams, wb)
  | some s => wb.writeBinary realloc ((s ++ [0]).take ((s.length + 1) % 2 ^ 32))

/-- `wbuffer_skip`.  The sum is a `uint32_t`, the new cursor an `int32_t`. -/
def wbufferSkip (wb : WBuffer) (delta : Int) : Option (Ret × WBuffer) :=
  let cursor := I32.ofU32 (U32.add wb.cursor (delta % 2 ^ 32).toNat)
  if cursor < 0 then some (.badParams, wb)
  else do
    match ← wb.extendCapacity realloc cursor.toNat with
    | (.ok, wb) => return (.ok, { wb with cursor := cursor.toNat })
    | (_, wb) => return (.badParams, wb)

/-- The arms of `wbuffer_write_value` that write a number: how many bytes, and
what the getter gives. -/
def fixedPayload : Value → Option (Nat × Nat)
  | .bool v => some (1, if v then 1 else 0)
  | .uint8 v => some (1, v.toNat)
  | .int8 v => some (1, v.toUInt8.toNat)
  | .uint16 v => some (2, v.toNat)
  | .int16 v => some (2, v.toUInt16.toNat)
  | .uint32 v => some (4, v.toNat)
  | .int32 v => some (4, v.toUInt32.toNat)
  -- the source calls value_uint16 here
  | .uint64 v => some (8, (valueUint16OfUint64 v).toNat)
  | .int64 v => some (8, v.toUInt64.toNat)
  | .float32 bits => some (4, bits.toNat)
  | .float bits => some (8, (Ieee.widen bits).toNat)
  | .double bits => some (8, bits.toNat)
  | .string _ | .wstring _ | .other _ => none

/-- The switch of `wbuffer_write_value`. -/
def writePayload (wb : WBuffer) (v : Value) : Option (Ret × WBuffer) :=
  match fixedPayload v with
  | some (n, number) => wb.writeBinary realloc (Bytes.ofNat n number)
  | none =>
    match v with
    | .string s => writeString realloc wb (s.map Subtype.val)
    | .wstring none => writeString realloc wb none
    | .wstring (some s) => do writeString realloc wb (← Utf8.tkUtf8DupWstr realloc wchar4 s.val)
    | _ => do
      let (_, wb) ← wbufferSkip realloc wb (-1)
      return (.notImpl, wb)

/-- The tag `wbuffer_write_value` writes: a wide string is sent as a string. -/
def writtenTag : Value → UInt8
  | .wstring _ => ValueType.string.toByte
  | v => v.type

def wbufferWriteValue (wb : WBuffer) (v : Value) : Option (Ret × WBuffer) := do
  match ← wb.writeUint8 realloc (writtenTag v) with
  | (.ok, wb) => writePayload realloc wchar4 wb v
  | (ret, wb) => return (ret, wb)

/-- A sequence of calls, up to the first that fails. -/
def writeValues : WBuffer → List Value → Option (Ret × WBuffer)
  | wb, [] => some (.ok, wb)
  | wb, v :: vs => do
    match ← wbufferWriteValue realloc wchar4 wb v with
    | (.ok, wb) => writeValues wb vs
    | (ret, wb) => return (ret, wb)

end

/-! ## Reading -/

/-- The value a number that was read stands for, for the types of fixed size:
the number of bytes and the setter. -/
def fixedSetter : ValueType → Option (Nat × (Nat → Value))
  | .bool => some (1, fun n => .bool (n ≠ 0))
  | .uint8 => some (1, fun n => .uint8 (.ofNat n))
  | .int8 => some (1, fun n => .int8 (UInt8.ofNat n).toInt8)
  | .uint16 => some (2, fun n => .uint16 (.ofNat n))
  | .int16 => some (2, fun n => .int16 (UInt16.ofNat n).toInt16)
  | .uint32 => some (4, fun n => .uint32 (.ofNat n))
  | .int32 => some (4, fun n => .int32 (UInt32.ofNat n).toInt32)
  | .uint64 => some (8, fun n => .uint64 (.ofNat n))
  | .int64 => some (8, fun n => .int64 (UInt64.ofNat n).toInt64)
  | .float32 => some (4, fun n => .float32 (.ofNat n))
  | .float => some (8, fun n => .float (Ieee.narrow (.ofNat n)))
  | .double => some (8, fun n => .double (.ofNat n))
  | .string | .wstring => none

/-- A string of the buffer up to its terminator. -/
def CString.ofBytes (s : List UInt8) : CString :=
  ⟨s.takeWhile (· ≠ 0), fun h => by simpa using List.mem_takeWhile_imp h⟩

/-- `rbuffer_read_value`: the return code, the value that was set, if one was,
and the buffer. -/
def rbufferReadValue (rb : RBuffer) : Option (Ret × Option Value × RBuffer) := do
  match ← rb.readUint 1 with
  | (.ok, type, rb) =>
    match ValueType.ofByte (.ofNat type) with
    | some .string =>
      let (ret, value, rb) ← rb.readString
      return (ret, some (.string (value.map CString.ofBytes)), rb)
    | some .wstring | none =>
      let (_, rb) ← rb.skip (-1)
      return (.notImpl, none, rb)
    | some type =>
      match fixedSetter type with
      | some (n, set) =>
        let (ret, value, rb) ← rb.readUint n
        return (ret, some (set value), rb)
      | none => return (.notImpl, none, rb)
  | (ret, _, rb) => return (ret, none, rb)

/-- A sequence of `n` calls that all succeed. -/
def readValues : Nat → RBuffer → Option (List Value × RBuffer)
  | 0, rb => some ([], rb)
  | n + 1, rb => do
    match ← rbufferReadValue rb with
    | (.ok, some v, rb) =>
      let (vs, rb) ← readValues n rb
      return (v :: vs, rb)
    | _ => none

end Awtk.BufferValue
