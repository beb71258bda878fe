import Awtk.Ubjson.UbjsonObject

/-!
# Parsing UBJSON into any kind of object

A model of `ubjson_to_object` over the interface of `tk_object_t`.  What the objects are is left open:
a `Store` is the memory of the objects with what the parser calls, and setting a property may fail or
take a name for a path.  `UbjsonObject.lean` has the objects themselves, for names that are no paths.

`document` reads the input as a document, and has none for an input that is cut off or malformed.
-/

namespace Awtk.Ubjson

/-- What the parser calls of `tk_object_t`, where `H` is the memory of the objects.  A property is a
value or an object. -/
structure Store (H : Type) where
  /-- `object_array_create` or `object_default_create`. -/
  create : H → Bool → Nat × H
  /-- `tk_object_set_prop`. -/
  setProp : H → Nat → Str → Value ⊕ Nat → Ret × H
  /-- `tk_object_ref`. -/
  ref : H → Nat → H
  /-- `tk_object_unref`. -/
  unref : H → Nat → H

namespace Store

variable {H : Type}

/-! ## The parser -/

/-- The fields of `ubjson_parser_t` for objects.  `level` is the height of the stack. -/
structure Fields (H : Type) where
  heap : H
  root : Option Nat
  obj : Option Nat
  stack : List Nat
  optimizedType : UInt8

namespace Fields

def init (heap : H) : Fields H := { heap, root := none, obj := none, stack := [], optimizedType := 0 }

def push (s : Fields H) (obj : Nat) : Ret × Fields H :=
  if s.stack.length < ObjectParser.maxLevel then
    (.ok, { s with obj := some obj, stack := s.stack ++ [obj] })
  else (.badParams, s)

/-- `ubjson_parser_pop`. -/
def pop (s : Fields H) : Ret × Fields H :=
  if s.stack = [] then (.badParams, s)
  else (.ok, { s with stack := s.stack.dropLast, obj := s.stack.dropLast.getLast? })

end Fields

variable (S : Store H)

/-- `tk_object_set_prop` of an object that may be NULL. -/
def setPropOf (heap : H) (obj : Option Nat) (key : Str) (v : Value ⊕ Nat) : Ret × H :=
  match obj with
  | none => (.badParams, heap)
  | some obj => S.setProp heap obj key v

/-- The loops of `ubjson_on_optimized_array_object`, up to the first property that is not set. -/
def setElements (obj : Option Nat) (key : Str) : List Value → H → H
  | [], heap => heap
  | v :: vs, heap =>
    let (ret, heap) := S.setPropOf heap obj key (.inl v)
    if ret = .ok then setElements obj key vs heap else heap

/-- `ubjson_on_key_value_object` for the begin of a container. -/
def begin (s : Fields H) (key : Str) (isArray : Bool) : Ret × Fields H :=
  let (obj, heap) := S.create s.heap isArray
  let s := { s with heap }
  let s := if s.root = none then { s with heap := S.ref s.heap obj, root := some obj } else s
  let s := if s.obj = none then s else { s with heap := (S.setPropOf s.heap s.obj key (.inr obj)).2 }
  let (ret, s) := s.push obj
  (ret, { s with heap := S.unref s.heap obj })

/-- `ubjson_on_key_value_object`. -/
def onKeyValue : OnKeyValue (Fields H) := fun s key item =>
  let key : Str := key.getD ['-', '1']
  match item with
  | .token t =>
    if t = Marker.objectBegin.byte then S.begin s key false
    else if t = Marker.arrayBegin.byte then S.begin s key true
    else if t = Marker.objectEnd.byte ∨ t = Marker.arrayEnd.byte then s.pop
    else if Reader.elementSize t = 0 then (.notImpl, s)
    else (.ok, { s with optimizedType := t })
  | .value v =>
    if s.optimizedType = 0 then
      let (ret, heap) := S.setPropOf s.heap s.obj key (.inl v)
      (ret, { s with heap })
    else
      match v with
      | .binary data =>
        let heap := S.setElements s.obj key (arrayElements s.optimizedType (data.getD [])) s.heap
        { s with heap, optimizedType := 0 }.pop
      | _ => (.fail, s)

/-- `ubjson_to_object`: the root object and the memory. -/
def toObject (data : List UInt8) (heap : H) : Except Stop (Option Nat × H) :=
  (parse S.onKeyValue data (.init heap)).map fun (_, s) => (s.root, s.heap)

end Store

/-! ## Documents -/

/-- A value, an optimized array of numbers, or a container. -/
inductive Document where
  | value (v : Value)
  | typed (type : UInt8) (data : List UInt8)
  | array (items : List Document)
  | object (members : List (Str × Document))

namespace Document

mutual

/-- How many containers are in one another. -/
def depth : Document → Nat
  | value _ => 0
  | typed _ _ => 1
  | array items => depthItems items + 1
  | object members => depthMembers members + 1

def depthItems : List Document → Nat
  | [] => 0
  | item :: items => max (depth item) (depthItems items)

def depthMembers : List (Str × Document) → Nat
  | [] => 0
  | (_, member) :: members => max (depth member) (depthMembers members)

end

end Document

/-- What `ubjson_reader_read` read, with the byte that was in front: a marker, the type or the elements
of an optimized array, or a value. -/
inductive Lexeme where
  | mark (t : UInt8)
  | type (t : UInt8)
  | counted (v : Value)
  | value (v : Value)
  deriving DecidableEq

/-- What is left to read, and the capacity of the buffer for keys. -/
structure Source where
  reader : Reader
  capacity : Nat

namespace Source

/-- The byte that is read next. -/
def peek (x : Source) : UInt8 := x.reader.rb.data.getD x.reader.rb.cursor 0

/-- A string and a count have a number for their length.  `ubjson_reader_read` takes anything for it. -/
def sized (x : Source) : Bool :=
  match Marker.ofByte x.peek with
  | some .string | some .wstring | some .containerCount =>
    match Marker.ofByte (x.reader.rb.data.getD (x.reader.rb.cursor + 1) 0) with
    | some .int8 | some .uint8 | some .int16 | some .uint16 | some .int32 | some .uint32
    | some .int64 | some .uint64 => true
    | _ => false
  | _ => true

/-- The next lexeme. -/
def next (x : Source) : Option (Lexeme × Source) :=
  if x.sized then
    match x.reader.read with
    | .ok (.ok (.token t), reader) =>
      some (if x.peek = Marker.containerType.byte then .type t else .mark t, { x with reader })
    | .ok (.ok (.value v), reader) =>
      some (if x.peek = Marker.containerCount.byte then .counted v else .value v, { x with reader })
    | _ => none
  else none

/-- The bytes of a key, which has no NUL. -/
def key (x : Source) (len : Int) : Option (Str × Source) :=
  match strExtend x.capacity (toU32 (len + 1)), x.reader.readData (toU32 len) with
  | .ok capacity, .ok (.ok, bytes, reader) =>
    if 0 ≤ len ∧ 0 ∉ bytes then some (bytes, ⟨reader, capacity⟩) else none
  | _, _ => none

/-- An optimized array: the type, the count and the elements. -/
def typed (x : Source) : Option (Document × Source) :=
  match x.next with
  | some (.type t, y) =>
    if Reader.elementSize t = 0 then none
    else
      match y.next with
      | some (.counted (.binary data), z) => some (.typed t (data.getD []), z)
      | _ => none
  | _ => none

/-- A document behind its first lexeme, with what reads the containers. -/
def document (x : Source) (items : Source → Option (List Document × Source))
    (members : Source → Option (List (Str × Document) × Source)) (lexeme : Lexeme) :
    Option (Document × Source) :=
  match lexeme with
  | .value v => some (.value v, x)
  | .mark t =>
    if t = Marker.arrayBegin.byte then
      match x.next with
      | some (.type _, _) => x.typed
      | _ => (items x).map fun (ds, y) => (.array ds, y)
    else if t = Marker.objectBegin.byte then (members x).map fun (ms, y) => (.object ms, y)
    else none
  | _ => none

mutual

/-- The items of an array up to its end. -/
def items : Nat → Source → Option (List Document × Source)
  | 0, _ => none
  | n + 1, x =>
    x.next.bind fun (lexeme, x) =>
      if lexeme = .mark Marker.arrayEnd.byte then some ([], x)
      else
        (x.document (items n) (members n) lexeme).bind fun (d, x) =>
          (items n x).map fun (ds, x) => (d :: ds, x)

/-- The members of an object up to its end. -/
def members : Nat → Source → Option (List (Str × Document) × Source)
  | 0, _ => none
  | n + 1, x =>
    x.next.bind fun (lexeme, x) =>
      match lexeme with
      | .mark t => if t = Marker.objectEnd.byte then some ([], x) else none
      | .value v =>
        (Parser.keyLength v).bind fun len =>
          (x.key len).bind fun (key, x) =>
            x.next.bind fun (lexeme, x) =>
              (x.document (items n) (members n) lexeme).bind fun (d, x) =>
                (members n x).map fun (ms, x) => ((key, d) :: ms, x)
      | _ => none

end

end Source

/-- The source at the begin of the input. -/
def Source.init (data : List UInt8) : Source := ⟨.init (.init data data.length), 64⟩

/-- The document that the input begins with.  Every turn of a loop reads a byte. -/
def document (data : List UInt8) : Option Document :=
  (Source.init data).next.bind fun (lexeme, x) =>
    ((x.document (Source.items data.length) (Source.members data.length) lexeme).map Prod.fst)

end Awtk.Ubjson
