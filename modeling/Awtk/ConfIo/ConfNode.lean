import Awtk.Tkc.Types
import Awtk.Tkc.Value

/-!
# Configuration documents

A model of `conf_node.c`.  A document is a tree of nodes with names.  The type of a node
says what kind of container it is and its value says what it holds, and the two are
written by different functions.  A node is found by the way down to it: at each node the
index of the child.

Memory does not run out here, and a value is never the storage of the node it is set to.
-/

namespace Awtk.Conf

/-- `conf_node_type_t`. -/
inductive ConfNodeType where
  | none
  | object
  | array
  | arrayUint8
  | simple
  deriving DecidableEq, Repr

/-- What a leaf holds, with the `conf_node_value_type_t` of it.  A short string is in the
node. -/
inductive Stored where
  | bool (v : Bool)
  | int8 (v : Int8)
  | uint8 (v : UInt8)
  | int16 (v : Int16)
  | uint16 (v : UInt16)
  | int32 (v : Int32)
  | uint32 (v : UInt32)
  | int64 (v : Int64)
  | uint64 (v : UInt64)
  | pointer (v : UInt64)
  | float32 (bits : UInt32)
  | double (bits : UInt64)
  | str (s : Option Str)
  | smallStr (s : Str)
  | wstr (s : Option (List UInt32))
  | binary (data : Option (List UInt8))
  deriving DecidableEq

/-- What is left of an old value where `conf_node_set_value` does not know the new one. -/
def Stored.freed : Stored → Stored
  | .str _ => .str none
  | .wstr _ => .wstr none
  | .binary _ => .binary none
  | v => v

/-- `conf_node_t`.  The value is `CONF_NODE_VALUE_NONE`, a scalar one, or
`CONF_NODE_VALUE_NODE` with the children. -/
inductive ConfNode where
  | none (name : Str) (type : ConfNodeType)
  | leaf (name : Str) (type : ConfNodeType) (value : Stored)
  | node (name : Str) (type : ConfNodeType) (children : List ConfNode)

namespace ConfNode

def name : ConfNode → Str
  | none name _ | leaf name _ _ | node name _ _ => name

def type : ConfNode → ConfNodeType
  | none _ type | leaf _ type _ | node _ type _ => type

def withType (type : ConfNodeType) : ConfNode → ConfNode
  | none name _ => none name type
  | leaf name _ value => leaf name type value
  | node name _ children => node name type children

/-- The siblings from `conf_node_get_first_child` on. -/
def children : ConfNode → List ConfNode
  | none _ _ | leaf _ _ _ => []
  | node _ _ children => children

/-- `conf_doc_create_node`. -/
def create (name : Str) : ConfNode := none name .object

def setFirstChild (n : ConfNode) (children : List ConfNode) : ConfNode :=
  node n.name n.type children

/-- The type of a container that gets its first child. -/
def containerType (type : ConfNodeType) : ConfNodeType :=
  if type = .object ∨ type = .array then type else .object

def appendChild : ConfNode → ConfNode → ConfNode
  | none name type, child => node name type [child]
  | leaf name type _, child => node name type [child]
  | node name type [], child => node name (containerType type) [child]
  | node name type (first :: rest), child => node name type (first :: rest ++ [child])

def removeChildren : ConfNode → ConfNode
  | node name type (_ :: _) => node name type []
  | n => n

/-! ## Values -/

def setValue (v : Value) (n : ConfNode) : Ret × ConfNode :=
  match n with
  | node .. => (.badParams, n)
  | _ =>
    let simple (value : Stored) := (Ret.ok, leaf n.name .simple value)
    match v with
    | .bool v => simple (.bool v)
    | .int8 v => simple (.int8 v)
    | .uint8 v => simple (.uint8 v)
    | .int16 v => simple (.int16 v)
    | .uint16 v => simple (.uint16 v)
    | .int32 v => simple (.int32 v)
    | .uint32 v => simple (.uint32 v)
    | .int64 v => simple (.int64 v)
    | .uint64 v => simple (.uint64 v)
    | .pointer v => simple (.pointer v)
    | .float bits | .float32 bits => simple (.float32 bits)
    | .double bits => simple (.double bits)
    | .str Option.none => simple (.str Option.none)
    | .str (some s) => simple (if s.length < 8 then .smallStr s else .str (some s))
    | .wstr s => simple (.wstr s)
    | .binary (some data) => (.ok, leaf n.name .arrayUint8 (.binary (some data)))
    | .binary Option.none => (.oom, leaf n.name n.type (.binary Option.none))
    | .other =>
      match n with
      | leaf name type value => (.notImpl, leaf name type value.freed)
      | _ => (.notImpl, n)

def getValue : ConfNode → Option Value
  | leaf _ _ value =>
    match value with
    | .bool v => some (.bool v)
    | .int8 v => some (.int8 v)
    | .uint8 v => some (.uint8 v)
    | .int16 v => some (.int16 v)
    | .uint16 v => some (.uint16 v)
    | .int32 v => some (.int32 v)
    | .uint32 v => some (.uint32 v)
    | .int64 v => some (.int64 v)
    | .uint64 v => some (.uint64 v)
    | .pointer v => some (.pointer v)
    | .float32 bits => some (.float32 bits)
    | .double bits => some (.double bits)
    | .str s => some (.str s)
    | .smallStr s => some (.str (some s))
    | .wstr s => some (.wstr s)
    | .binary data => some (.binary data)
  | none .. | node .. => Option.none

/-! ## Nodes by their way down -/

/-- The node at the end of a way down. -/
def nodeAt : List Nat → ConfNode → Option ConfNode
  | [], n => some n
  | i :: is, n => (n.children[i]?).bind (nodeAt is)

/-- Rewrite the node at the end of a way down, with a result. -/
def modifyAt {α : Type} (f : ConfNode → α × ConfNode) : List Nat → ConfNode → Option (α × ConfNode)
  | [], n => some (f n)
  | i :: is, n => (n.children[i]?).bind fun child =>
      (modifyAt f is child).map fun (a, child) => (a, n.setFirstChild (n.children.set i child))

/-- Rewrite the node at the end of a way down. -/
def updateAt (f : ConfNode → ConfNode) : List Nat → ConfNode → ConfNode
  | [], n => f n
  | i :: is, n =>
    match n.children[i]? with
    | some child => n.setFirstChild (n.children.set i (updateAt f is child))
    | Option.none => n

/-- `conf_doc_append_child` to the node at the end of a way down, with the way to the
child. -/
def appendAt (n : ConfNode) (way : List Nat) (child : ConfNode) : ConfNode × List Nat :=
  (n.updateAt (·.appendChild child) way,
    way ++ [((n.nodeAt way).map (·.children.length)).getD 0])

/-! ## Finding a node -/

/-- What a component of a path leads to. -/
inductive Found where
  | self
  | child (i : Nat)
  | missing
  | nothing

/-- `conf_node_find_child`: the first child with the name. -/
def findChild (n : ConfNode) (name : Str) : Option Nat := n.children.findIdx? (·.name = name)

def findChildByIndex (n : ConfNode) (index : Int) : Option Nat :=
  if 0 ≤ index ∧ index.toNat < n.children.length then some index.toNat else Option.none

/-- What `conf_doc_find_node_impl` finds, with the type it writes.  It has no result where
the assertion fails. -/
def lookup (n : ConfNode) (name : Str) : Option (ConfNode × Found) :=
  if name.head? = some '[' then
    let index := tkAtoi name.tail
    match n.findChildByIndex index with
    | some i => some (n, .child i)
    | Option.none =>
      if index < 0 then if n.type = .array then some (n, .missing) else Option.none
      else if index = n.children.length then
        some (if index = 0 then n.withType .array else n, .missing)
      else some (n, .nothing)
  else if name.head? = some '#' then some (n, .self)
  else
    match n.findChild name with
    | some i => some (n, .child i)
    | Option.none => some (n, .missing)

/-- The loop of `conf_doc_find_node`, with the tree it leaves and the way down to the
node, if there is one. -/
def findNode (createIfNotExist : Bool) : List Str → ConfNode → Option (ConfNode × Option (List Nat))
  | [], n => some (n, Option.none)
  | name :: rest, n =>
    let enter (n : ConfNode) (i : Nat) : Option (ConfNode × Option (List Nat)) :=
      if rest = [] then some (n, some [i])
      else
        (n.children[i]?).bind fun child =>
          (findNode createIfNotExist rest child).map fun (child, way) =>
            (n.setFirstChild (n.children.set i child), way.map (i :: ·))
    match n.lookup name with
    | Option.none => Option.none
    | some (n, .self) => some (n, some [])
    | some (n, .child i) => enter n i
    | some (n, .nothing) => some (n, Option.none)
    | some (n, .missing) =>
      if createIfNotExist then enter (n.appendChild (create name)) n.children.length
      else some (n, Option.none)

/-- Write the tree below the parent of a node. -/
def removeAt : List Nat → ConfNode → ConfNode
  | [], n => n
  | [i], n => n.setFirstChild (n.children.eraseIdx i)
  | i :: is, n =>
    match n.children[i]? with
    | some child => n.setFirstChild (n.children.set i (removeAt is child))
    | Option.none => n

end ConfNode

/-! ## Saved values -/

def saveStr (comment : UInt8) : Str → Str
  | [] => []
  | c :: s =>
    let escaped := strEscapeChar c
    if escaped ≠ c ∨ c = comment ∨ c = '\\' ∨ c = '\n' then '\\' :: escaped :: saveStr comment s
    else escaped :: saveStr comment s

/-- `conf_node_save_value`, of a value that a node can have.  A `wchar_t` has four bytes,
and a number is cut at 62 characters. -/
def saveValue (comment : UInt8) : Value → Option Str
  | .str none => none
  | .str (some s) => some (saveStr comment s)
  | .wstr ws => some (saveStr comment (Utf8.encode true (ws.getD [])))
  | .float bits | .float32 bits => some ((decimalFloat (Ieee.widen bits)).take 62)
  | .double bits => some ((decimalFloat bits).take 62)
  | .int64 v => some (decimalInt v.toInt)
  | .uint64 v => some (decimal v.toNat)
  | .bool v => some (decimalInt (if v then 1 else 0))
  | .int8 v => some (decimalInt v.toInt)
  | .uint8 v => some (decimalInt v.toNat)
  | .int16 v => some (decimalInt v.toInt)
  | .uint16 v => some (decimalInt v.toNat)
  | .int32 v => some (decimalInt v.toInt)
  | .uint32 v => some (decimalInt v.toInt32.toInt)
  | .pointer _ | .binary _ | .other => some (decimalInt 0)

/-! ## Documents -/

/-- `conf_doc_t`. -/
structure ConfDoc where
  root : Option ConfNode
  maxDeepLevel : Nat
  disablePath : Bool

namespace ConfDoc

def create : ConfDoc := { root := none, maxDeepLevel := 0xffff, disablePath := false }

def rootName : Str := ['r', 'o', 'o', 't']

/-- The separator of the tokenizer. -/
def isSeparator (c : UInt8) : Bool := c = '.'

/-- The tokens of a path, of which `n` are cut off and the rest is one. -/
def cut : Nat → Str → List Str
  | 0, path => [path]
  | n + 1, path =>
    let path := path.dropWhile isSeparator
    path.takeWhile (!isSeparator ·) ::
      match (path.dropWhile (!isSeparator ·)).dropWhile isSeparator with
      | [] => []
      | c :: rest => cut n (c :: rest)

/-- The components of a path.  A path of separators only has no first token. -/
def tokens (doc : ConfDoc) (path : Str) : Option (List Str) :=
  if doc.disablePath then some [path]
  else if path = [] then some []
  else if 1 < doc.maxDeepLevel ∧ path.dropWhile isSeparator = [] then none
  else some (cut (doc.maxDeepLevel - 1) path)

/-- `conf_doc_find_node` from the root on. -/
def findNode (doc : ConfDoc) (createIfNotExist : Bool) (path : Str) :
    Option (ConfDoc × Option (List Nat)) :=
  match doc.root with
  | none => some (doc, none)
  | some root => do
    let (root, way) ← root.findNode createIfNotExist (← doc.tokens path)
    return ({ doc with root }, way)

/-- The node at the end of a way down. -/
def nodeAt (doc : ConfDoc) (way : List Nat) : Option ConfNode := doc.root.bind (·.nodeAt way)

/-- `conf_doc_set`. -/
def set (doc : ConfDoc) (path : Str) (v : Value) : Option (Ret × ConfDoc) := do
  let doc := { doc with root := some (doc.root.getD (ConfNode.create rootName)) }
  match ← doc.findNode true path with
  | (doc, some way) => do
    let (ret, root) ← doc.root.bind (·.modifyAt (ConfNode.setValue v) way)
    return (ret, { doc with root := some root })
  | (doc, none) => return (.oom, doc)

/-- What `conf_doc_get_ex` reads at a node: the value, or with a special attribute at the
end of the path the name, the number of children or the index. -/
def read (n : ConfNode) (way : List Nat) (path : Str) : Option (Ret × Option Value) :=
  let special := path.dropWhile fun (c : UInt8) => c ≠ '#'
  if special = [] then
    match n.getValue with
    | some v => some (.ok, some v)
    | none => some (.notImpl, none)
  else if special = ['#', 'n', 'a', 'm', 'e'] then some (.ok, some (.str (some n.name)))
  else if special = ['#', 's', 'i', 'z', 'e'] then
    some (.ok, some (.uint32 (UInt32.ofNat n.children.length)))
  else if special = ['#', 'i', 'n', 'd', 'e', 'x'] then
    way.getLast?.map fun i => (.ok, some (.uint32 (UInt32.ofNat i)))
  else some (.notFound, some (.int32 0))

/-- `conf_doc_get`.  A lookup can write the type of a node. -/
def get (doc : ConfDoc) (path : Str) : Option ((Ret × Option Value) × ConfDoc) := do
  match ← doc.findNode false path with
  | (doc, some way) => return (← read (← doc.nodeAt way) way path, doc)
  | (doc, none) => return ((.notFound, some (.int32 0)), doc)

/-- `conf_doc_exists`. -/
def exists? (doc : ConfDoc) (path : Str) : Option (Bool × ConfDoc) :=
  (doc.findNode false path).map fun (doc, way) => (way.isSome, doc)

/-- `conf_doc_remove`.  The root has no parent. -/
def remove (doc : ConfDoc) (path : Str) : Option (Ret × ConfDoc) := do
  match ← doc.findNode false path with
  | (doc, some []) =>
    return (.badParams, { doc with root := doc.root.map ConfNode.removeChildren })
  | (doc, some way) => return (.ok, { doc with root := doc.root.map (ConfNode.removeAt way) })
  | (doc, none) => return (.notFound, doc)

def addChild (doc : ConfDoc) (path : Str) : Option (Ret × ConfDoc) := do
  match ← doc.findNode false path with
  | (doc, some way) => do
    let (ret, root) ← doc.root.bind (·.modifyAt (fun n =>
      (Ret.ok, n.appendChild (ConfNode.create (decimal n.children.length)))) way)
    return (ret, { doc with root := some root })
  | (doc, none) => return (.notFound, doc)

end ConfDoc

end Awtk.Conf
