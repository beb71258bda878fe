import Awtk.Ubjson.UbjsonParser

/-!
# Objects in UBJSON

A model of `ubjson_writer_write_object` and of `ubjson_to_object`, for objects whose names
are no paths.  The writer visits the properties of an object of any kind, and the items of an
`object_array_t` have their index as the name.  The callback of the parser keeps a stack of
objects.  An object is pushed where it was put, so the stack is the way down to the last one.

An `object_default_t` is ordered by the names, so the binary search for a name is a search.
-/

namespace Awtk.Ubjson

/-- A value that is no object, an `object_default_t` with its named values, or an
`object_array_t`. -/
inductive Obj where
  | value (v : Value)
  | default (props : List (Str × Obj))
  | array (items : List Obj)

namespace Obj

/-! ## Writing -/

/-- What is written, and what is returned. -/
abbrev Output := List UInt8 × Ret

/-- A write that can only fail for its length. -/
def output : Option (List UInt8) → Output
  | some bytes => (bytes, .ok)
  | none => ([], .oom)

/-- A write after another one. -/
def andThen (a b : Output) : Output := if a.2 = Ret.ok then (a.1 ++ b.1, b.2) else a

/-- `ubjson_writer_write_kv_value` behind the key, of a value that is no object.  A value of
another type is written as a text that is not modelled. -/
def writeLeaf : Value → Output
  | .bool v => (if v then Writer.writeTrue else Writer.writeFalse, .ok)
  | .str s => output (Writer.writeStr s)
  | .wstr ws =>
    match Writer.wstrText (ws.getD []) with
    | none => ([Marker.wstring.byte], .badParams)
    | some _ => output (Writer.writeWstr ws)
  | .binary data => output (Writer.writeStrLen (data.getD []))
  | .float bits => (Writer.writeFloat64 (Ieee.widen bits), .ok)
  | .double bits => (Writer.writeFloat64 bits, .ok)
  | .float32 bits => (Writer.writeFloat32 bits, .ok)
  | .int8 v => (Writer.writeInt8 v, .ok)
  | .uint8 v => (Writer.writeUint8 v, .ok)
  | .int16 v => (Writer.writeInt16 v, .ok)
  | .uint16 v => (Writer.writeUint16 v, .ok)
  | .int32 v => (Writer.writeInt32 v, .ok)
  | .uint32 v => (Writer.writeUint32 v, .ok)
  | .int64 v => (Writer.writeInt64 v, .ok)
  | .uint64 v => (Writer.writeUint64 v, .ok)
  | .pointer v => (Writer.writePointer v, .ok)
  | .other => ([], .oom)

/-- `ubjson_writer_write_object` with what is written for the properties.  Only one error of
the visitor is passed on. -/
def writeBody (props : Output) : Output :=
  if props.2 = Ret.oom then (Writer.writeObjectBegin ++ props.1, .oom)
  else (Writer.writeObjectBegin ++ props.1 ++ Writer.writeObjectEnd, .ok)

mutual

/-- `ubjson_writer_write_object`, or the value of `ubjson_writer_write_kv_value`. -/
def write : Obj → Output
  | value v => writeLeaf v
  | default props => writeBody (writeProps props)
  | array items => writeBody (writeItems 0 items)

/-- `on_prop_write_ubjson` for the properties. -/
def writeProps : List (Str × Obj) → Output
  | [] => ([], .ok)
  | (name, o) :: props =>
    andThen (andThen (output (Writer.writeKey name)) (write o)) (writeProps props)

/-- `on_prop_write_ubjson` for the items from an index on. -/
def writeItems (i : Nat) : List Obj → Output
  | [] => ([], .ok)
  | o :: items =>
    andThen (andThen (output (Writer.writeKey (decimal i))) (write o)) (writeItems (i + 1) items)

end

def writeObject (o : Obj) : Option (List UInt8) := if (write o).2 = Ret.ok then some (write o).1 else none

/-! ## Properties -/

def indexable (name : Str) : Bool :=
  name.head? = some '[' ∧ 3 ≤ name.length ∧ name.getLast? = some ']' ∧
    if 4 ≤ name.length ∧ name.getD 1 0 = '-' then isDigit (name.getD 2 0) else isDigit (name.getD 1 0)

/-- `object_default_find_prop_index_by_name`. -/
def findIndex (props : List (Str × Obj)) (name : Str) : Option Nat :=
  if indexable name then
    let i := tkAtoi name.tail
    if 0 ≤ i ∧ i < props.length then some i.toNat else none
  else props.findIdx? (·.1 = name)

/-- The place of a new name. -/
def lowerBound (props : List (Str × Obj)) (name : Str) : Nat :=
  (props.takeWhile fun p => p.1 < name).length

/-- `object_array_parse_index`, with `none` for a name that is no index. -/
def parseIndex (name : Str) : Option Int :=
  if (name.head?.map isDigit).getD false then some (tkAtoi name)
  else if indexable name then some (tkAtoi name.tail)
  else if name = ['-', '1'] then some (-1)
  else none

/-- The index that `tk_object_set_prop` writes. -/
def slot (name : Str) : Obj → Nat
  | value _ => 0
  | default props => (findIndex props name).getD (lowerBound props name)
  | array items =>
    match parseIndex name with
    | some i => if toU32 i < items.length then toU32 i else items.length
    | none => 0

/-- `object_default_set_prop`.  A name that is there keeps its place. -/
def setDefault (props : List (Str × Obj)) (name : Str) (v : Obj) : List (Str × Obj) :=
  match findIndex props name with
  | some i => props.modify i fun p => (p.1, v)
  | none => props.insertIdx (lowerBound props name) (name, v)

def setProp (o : Obj) (name : Str) (v : Obj) : Ret × Obj :=
  match o with
  | value _ => (.badParams, o)
  | default props => (.ok, default (setDefault props name v))
  | array items =>
    match parseIndex name with
    | none => (.notFound, o)
    | some i =>
      if toU32 i < items.length then (.ok, array (items.set (toU32 i) v))
      else if i = -1 then (.ok, array (items ++ [v]))
      else (.badParams, o)

/-- The property at an index. -/
def child : Obj → Nat → Option Obj
  | value _, _ => none
  | default props, i => props[i]?.map (·.2)
  | array items, i => items[i]?

def setChild : Obj → Nat → Obj → Obj
  | value v, _, _ => value v
  | default props, i, o => default (props.modify i fun p => (p.1, o))
  | array items, i, o => array (items.set i o)

/-- The object at the end of a way down. -/
def nodeAt : List Nat → Obj → Option Obj
  | [], o => some o
  | i :: is, o => (o.child i).bind (nodeAt is)

/-- Rewrite the object at the end of a way down. -/
def updateAt (f : Obj → Obj) : List Nat → Obj → Obj
  | [], o => f o
  | i :: is, o =>
    match o.child i with
    | some c => o.setChild i (updateAt f is c)
    | none => o

end Obj

/-! ## Reading -/

/-- The numbers of an optimized array. -/
def arrayElements (type : UInt8) (data : List UInt8) : List Value :=
  let numbers (size : Nat) (f : Nat → Value) : List Value :=
    (List.range (data.length / size)).map fun i =>
      f (Bytes.toNat ((data.drop (i * size)).take size))
  match Marker.ofByte type with
  | some .uint8 => numbers 1 fun v => .uint8 (UInt8.ofNat v)
  | some .int8 => numbers 1 fun v => .int8 (UInt8.ofNat v).toInt8
  | some .int16 => numbers 2 fun v => .int16 (UInt16.ofNat v).toInt16
  | some .int32 => numbers 4 fun v => .int32 (UInt32.ofNat v).toInt32
  | some .int64 => numbers 8 fun v => .int64 (UInt64.ofNat v).toInt64
  | some .float32 => numbers 4 fun v => .float (UInt32.ofNat v)
  | some .float64 => numbers 8 fun v => .double (UInt64.ofNat v)
  | _ => []

/-- The fields of `ubjson_parser_t` for objects. -/
structure ObjectParser where
  root : Option Obj
  stack : Option (List Nat)
  optimizedType : UInt8

namespace ObjectParser

def maxLevel : Nat := 10

def init : ObjectParser := { root := none, stack := none, optimizedType := 0 }

/-- `tk_object_set_prop` of the last object on the stack. -/
def setProp (p : ObjectParser) (name : Str) (v : Obj) : Ret × ObjectParser :=
  match p.root, p.stack with
  | some root, some way =>
    (((root.nodeAt way).map fun o => (o.setProp name v).1).getD .badParams,
      { p with root := some (root.updateAt (fun o => (o.setProp name v).2) way) })
  | _, _ => (.badParams, p)

/-- A new object is put in the last one and pushed.  Nothing comes behind the first one. -/
def pushNew (p : ObjectParser) (name : Str) (o : Obj) : Ret × ObjectParser :=
  match p.root, p.stack with
  | some root, some way =>
    let p' := (p.setProp name o).2
    if way.length + 1 < maxLevel then
      (.ok, { p' with stack := some (way ++ [((root.nodeAt way).map (·.slot name)).getD 0]) })
    else (.badParams, p')
  | _, _ => (.ok, { p with root := some (p.root.getD o), stack := some [] })

/-- `ubjson_parser_pop`. -/
def pop (p : ObjectParser) : Ret × ObjectParser :=
  match p.stack with
  | none => (.badParams, p)
  | some [] => (.ok, { p with stack := none })
  | some way => (.ok, { p with stack := some way.dropLast })

/-- `ubjson_on_optimized_array_object`, up to the first property that is not set. -/
def setAll (name : Str) : List Value → ObjectParser → ObjectParser
  | [], p => p
  | v :: vs, p =>
    match p.setProp name (.value v) with
    | (.ok, p) => setAll name vs p
    | (_, p) => p

/-- `ubjson_on_key_value_object`. -/
def onKeyValue (p : ObjectParser) (key : Option Str) (item : Item) : Ret × ObjectParser :=
  let name : Str := key.getD ['-', '1']
  match item with
  | .token t =>
    if t = Marker.objectBegin.byte then p.pushNew name (.default [])
    else if t = Marker.arrayBegin.byte then p.pushNew name (.array [])
    else if t = Marker.objectEnd.byte ∨ t = Marker.arrayEnd.byte then p.pop
    else if Reader.elementSize t = 0 then (.notImpl, p)
    else (.ok, { p with optimizedType := t })
  | .value v =>
    if p.optimizedType = 0 then p.setProp name (.value v)
    else
      match v with
      | .binary data =>
        (setAll name (arrayElements p.optimizedType (data.getD [])) { p with optimizedType := 0 }).pop
      | _ => (.fail, p)

end ObjectParser

def toObject (data : List UInt8) : Except Stop (Option Obj) :=
  (parse ObjectParser.onKeyValue data .init).map fun (_, p) => p.root

end Awtk.Ubjson
