import Awtk.ConfIo.ConfNode
import Awtk.Ubjson.UbjsonParser
import Awtk.ConfIo.ConfContent
import Awtk.Ubjson.UbjsonDocument

/-!
# Configuration documents in UBJSON

A model of `conf_ubjson.c`.  The saver looks at the type of a node.  The loader is the
callback of the parser and keeps a current node, which is a way down from the root.
-/

namespace Awtk.Conf

open Ubjson List Option

namespace ConfUbjson

/-! ## Saving -/

/-- The shortest of the signed types, and `uint8_t`. -/
def writeInteger (value : Int) : List UInt8 :=
  if -128 ≤ value ∧ value ≤ 127 then Writer.writeInt8 (Int8.ofInt value)
  else if 0 ≤ value ∧ value ≤ 255 then Writer.writeUint8 (UInt8.ofInt value)
  else if -32768 ≤ value ∧ value ≤ 32767 then Writer.writeInt16 (Int16.ofInt value)
  else if -2147483648 ≤ value ∧ value ≤ 2147483647 then Writer.writeInt32 (Int32.ofInt value)
  else Writer.writeInt64 (Int64.ofInt value)

/-- `conf_ubjson_save_node_value_simple`. -/
def saveSimple (n : ConfNode) : Option (List UInt8) :=
  n.getValue.bind fun v =>
    match v with
    | .bool v => some (if v then Writer.writeTrue else Writer.writeFalse)
    | .str s => Writer.writeStr s
    | .wstr ws => Writer.writeWstr ws
    | .float bits | .float32 bits => some (Writer.writeFloat32 bits)
    | .double bits => some (Writer.writeFloat64 bits)
    | v => some (writeInteger v.toInt64)

/-- `conf_ubjson_save_node_value_array_uint8`. -/
def saveArrayUint8 (n : ConfNode) : Option (List UInt8) :=
  match n.getValue with
  | some (.binary data) => Writer.writeArrayUint8 data
  | _ => none

/-- `conf_ubjson_save_node_value` with what the members and the items are saved as. -/
def saveBody (n : ConfNode) (members items : Option (List UInt8)) : Option (List UInt8) :=
  match n.type with
  | .object => members.map fun text => Writer.writeObjectBegin ++ text ++ Writer.writeObjectEnd
  | .array => items.map fun text => Writer.writeArrayBegin ++ text ++ Writer.writeArrayEnd
  | .arrayUint8 => saveArrayUint8 n
  | .simple | .none => saveSimple n

mutual

def saveNodeValue : ConfNode → Option (List UInt8)
  | .node name type children =>
    saveBody (.node name type children) (saveMembers children) (saveItems children)
  | .leaf name type value => saveBody (.leaf name type value) (some []) (some [])
  | .none name type => saveBody (.none name type) (some []) (some [])

/-- The loop of `conf_ubjson_save_node_children_object`. -/
def saveMembers : List ConfNode → Option (List UInt8)
  | [] => some []
  | n :: ns =>
    (Writer.writeKey n.name).bind fun key =>
      (saveNodeValue n).bind fun text => (saveMembers ns).map (key ++ text ++ ·)

/-- The loop of `conf_ubjson_save_node_children_array`. -/
def saveItems : List ConfNode → Option (List UInt8)
  | [] => some []
  | n :: ns => (saveNodeValue n).bind fun text => (saveItems ns).map (text ++ ·)

end

/-- `conf_doc_save_ubjson`.  The root is a container. -/
def save (doc : ConfDoc) : Option (List UInt8) :=
  doc.root.bind fun root =>
    match root.type with
    | .object | .array | .arrayUint8 => saveNodeValue root
    | .simple | .none => none

/-! ## Loading -/

/-- `parse_ctx_t`.  The root is created with the first event. -/
structure Loader where
  root : Option ConfNode
  node : Option (List Nat)

namespace Loader

/-- The type of the node at the end of a way down. -/
def typeAt (l : Loader) (way : List Nat) : Option ConfNodeType :=
  (l.root.bind (·.nodeAt way)).map ConfNode.type

/-- Rewrite the node at the end of a way down. -/
def updateAt (l : Loader) (f : ConfNode → ConfNode) (way : List Nat) : Loader :=
  { l with root := l.root.map (·.updateAt f way) }

/-- `conf_node_set_value` of the node at the end of a way down. -/
def setValue (l : Loader) (v : Value) (way : List Nat) : Ret × Loader :=
  (((l.root.bind (·.nodeAt way)).map fun n => (n.setValue v).1).getD .fail,
    l.updateAt (fun n => (n.setValue v).2) way)

/-- The node that an event is about: the current one, or one that is created. -/
def place (l : Loader) (key : Option Str) (item : Item) : Loader × List Nat :=
  match l.root, l.node with
  | some root, some way =>
    if item = .token Marker.uint8.byte ∨ l.typeAt way = some .arrayUint8 then (l, way)
    else
      let (root, child) := root.appendAt way (ConfNode.create (key.getD []))
      ({ l with root := some root }, child)
  | _, _ => ({ root := some (ConfNode.create ConfDoc.rootName), node := some [] }, [])

/-- `ubjson_conf_on_key_value`.  The first event is not an end, which would have no current
node. -/
def onKeyValue (l : Loader) (key : Option Str) (item : Item) : Ret × Loader :=
  if item = .token Marker.objectEnd.byte ∨ item = .token Marker.arrayEnd.byte then
    match l.node with
    | none => (.fail, l)
    | some way => (.ok, { l with node := some way.dropLast })
  else
    let (l, way) := l.place key item
    match item with
    | .token t =>
      if t = Marker.objectBegin.byte then
        (.ok, { l.updateAt (·.withType .object) way with node := some way })
      else if t = Marker.arrayBegin.byte then
        (.ok, { l.updateAt (·.withType .array) way with node := some way })
      else if t = Marker.uint8.byte then (.ok, l.updateAt (·.withType .arrayUint8) way)
      else (.notImpl, l)
    | .value v =>
      if l.typeAt way = some .arrayUint8 then
        { l with node := l.node.map List.dropLast }.setValue v way
      else (l.updateAt (·.withType .simple) way).setValue v way

end Loader

/-- `conf_doc_load_ubjson`. -/
def load (data : List UInt8) : Except Stop ConfDoc :=
  (parse Loader.onKeyValue data { root := none, node := none }).map fun (_, l) =>
    { root := l.root, maxDeepLevel := 0xffff, disablePath := false }

end ConfUbjson

end Awtk.Conf

/-!
## UBJSON round trips of configuration documents

The saver writes the UBJSON document of the content.  The loader adds one node for each
value and is back at the same current node behind a container.
-/

namespace Awtk.Conf

open Ubjson

namespace ConfUbjson

variable {name : Str} {c : Content} {l : Loader}

/-! ## What is saved -/

/-- The value an integer is written as. -/
def integer (value : Int) : Value :=
  if -128 ≤ value ∧ value ≤ 127 then .int8 (Int8.ofInt value)
  else if 0 ≤ value ∧ value ≤ 255 then .uint8 (UInt8.ofInt value)
  else if -32768 ≤ value ∧ value ≤ 32767 then .int16 (Int16.ofInt value)
  else if -2147483648 ≤ value ∧ value ≤ 2147483647 then .int32 (Int32.ofInt value)
  else .int64 (Int64.ofInt value)

theorem encode_integer (value : Int) : Doc.encodeValue (integer value) = some (writeInteger value) := by
  rw [integer, writeInteger]
  by_cases h8 : -128 ≤ value ∧ value ≤ 127
  · rw [if_pos h8, if_pos h8]
    rfl
  · rw [if_neg h8, if_neg h8]
    by_cases hu8 : 0 ≤ value ∧ value ≤ 255
    · rw [if_pos hu8, if_pos hu8]
      rfl
    · rw [if_neg hu8, if_neg hu8]
      by_cases h16 : -32768 ≤ value ∧ value ≤ 32767
      · rw [if_pos h16, if_pos h16]
        rfl
      · rw [if_neg h16, if_neg h16]
        by_cases h32 : -2147483648 ≤ value ∧ value ≤ 2147483647
        · rw [if_pos h32, if_pos h32]
          rfl
        · rw [if_neg h32, if_neg h32]
          rfl

mutual

/-- The UBJSON document of a content. -/
def toDoc : Content → Doc
  | .object members => .object (toMembers members)
  | .array items => .array (toItems items)
  | .bool v => .value (.bool v)
  | .int v => .value (integer v)
  | .str s => .value (.str (some s))
  | .binary data => .bytes data

def toMembers : List (Str × Content) → List (Str × Doc)
  | [] => []
  | (name, c) :: members => (name, toDoc c) :: toMembers members

def toItems : List Content → List Doc
  | [] => []
  | c :: items => toDoc c :: toItems items

end

theorem save_leaf {name : Str} {type : ConfNodeType} {value : Stored}
    (h : value.content type = some c) :
    saveNodeValue (.leaf name type value) = (toDoc c).encode := by
  cases type with
  | none => cases h
  | object => cases h
  | array => cases h
  | arrayUint8 =>
    cases value with
    | binary data =>
      cases data with
      | none => cases h
      | some data =>
        cases h
        rfl
    | _ => cases h
  | simple =>
    have hint (v : Int) : (toDoc (.int v)).encode = some (writeInteger v) := encode_integer v
    cases value with
    | bool v =>
      cases h
      rfl
    | uint64 v =>
      rw [Stored.content, Stored.int64?] at h
      by_cases hv : (v.toNat : Int) < 2 ^ 63
      · rw [if_pos hv] at h
        cases h
        rw [hint]
        have hcast : v.toInt64.toInt = v.toNat := by
          have hlt : 2 * v.toBitVec.toNat < 2 ^ 64 := by
            rw [UInt64.toNat_toBitVec]
            omega
          exact BitVec.toInt_eq_toNat_of_lt hlt
        exact congrArg (fun v => some (writeInteger v)) hcast
      · rw [if_neg hv] at h
        cases h
    | str s =>
      cases s with
      | none => cases h
      | some s =>
        cases h
        rfl
    | smallStr s =>
      cases h
      rfl
    | pointer v => cases h
    | float32 bits => cases h
    | double bits => cases h
    | wstr ws => cases h
    | binary data => cases h
    | _ =>
      cases h
      rw [hint]
      rfl

mutual

theorem save_content : ∀ {n : ConfNode} {c : Content}, n.content = some c →
    saveNodeValue n = (toDoc c).encode
  | .none name type, c, h => by
    cases type with
    | object => cases h; rfl
    | array => cases h; rfl
    | _ => cases h
  | .leaf name type value, c, h => save_leaf h
  | .node name type children, c, h => by
    cases type with
    | object =>
      rw [ConfNode.content] at h
      obtain ⟨members, hmembers, rfl⟩ := Option.map_eq_some_iff.mp h
      rw [saveNodeValue, toDoc, Doc.encode, ← save_members hmembers]
      rfl
    | array =>
      rw [ConfNode.content] at h
      obtain ⟨items, hitems, rfl⟩ := Option.map_eq_some_iff.mp h
      rw [saveNodeValue, toDoc, Doc.encode, ← save_items hitems]
      rfl
    | _ => cases h

theorem save_members : ∀ {ns : List ConfNode} {members : List (Str × Content)},
    ConfNode.contentMembers ns = some members →
    saveMembers ns = Doc.encodeMembers (toMembers members)
  | [], members, h => by
    cases h
    rfl
  | n :: ns, members, h => by
    rw [ConfNode.contentMembers, Option.bind_eq_some_iff] at h
    obtain ⟨c, hc, h⟩ := h
    obtain ⟨rest, hrest, rfl⟩ := Option.map_eq_some_iff.mp h
    rw [saveMembers, toMembers, Doc.encodeMembers, save_content hc, save_members hrest]

theorem save_items : ∀ {ns : List ConfNode} {items : List Content},
    ConfNode.contentItems ns = some items → saveItems ns = Doc.encodeItems (toItems items)
  | [], items, h => by
    cases h
    rfl
  | n :: ns, items, h => by
    rw [ConfNode.contentItems, Option.bind_eq_some_iff] at h
    obtain ⟨c, hc, h⟩ := h
    obtain ⟨rest, hrest, rfl⟩ := Option.map_eq_some_iff.mp h
    rw [saveItems, toItems, Doc.encodeItems, save_content hc, save_items hrest]

end

/-! ## What is loaded -/

/-- A value that a node can have. -/
def StorableLeaf : Content → Prop
  | .str s => CText s
  | .binary data => data.length < 2 ^ 32
  | .int v => -2 ^ 63 ≤ v ∧ v < 2 ^ 63
  | _ => True

/-- The names and strings are those of nodes, and the integers have 64 bits. -/
def Storable : Content → Prop := Content.All CText StorableLeaf

/-- A value that gives a new node its content. -/
def Sets (v : Value) (c : Content) : Prop :=
  ∀ name : Str, ((ConfNode.none name .simple).setValue v).1 = .ok ∧
    ((ConfNode.none name .simple).setValue v).2.content = some c

theorem sets_integer {value : Int} (h : -2 ^ 63 ≤ value) (h' : value < 2 ^ 63) :
    Sets (integer value) (.int value) := by
  have hcontent {v w : Int} (hv : v = w) : some (Content.int v) = some (.int w) := by rw [hv]
  intro name
  rw [integer]
  by_cases h8 : -128 ≤ value ∧ value ≤ 127
  · rw [if_pos h8]
    exact ⟨rfl, hcontent (Int8.toInt_ofInt_of_le (by omega) (by omega))⟩
  · rw [if_neg h8]
    by_cases hu8 : 0 ≤ value ∧ value ≤ 255
    · rw [if_pos hu8]
      have hcast : ((UInt8.ofInt value).toNat : Int) = value := by
        have hmod : value % 2 ^ 8 = value := Int.emod_eq_of_lt hu8.1 (by omega)
        have hlt : value.toNat < UInt8.size := by
          change value.toNat < 256
          omega
        rw [UInt8.ofInt, hmod, UInt8.toNat_ofNat_of_lt' hlt]
        exact Int.toNat_of_nonneg hu8.1
      exact ⟨rfl, hcontent hcast⟩
    · rw [if_neg hu8]
      by_cases h16 : -32768 ≤ value ∧ value ≤ 32767
      · rw [if_pos h16]
        exact ⟨rfl, hcontent (Int16.toInt_ofInt_of_le (by omega) (by omega))⟩
      · rw [if_neg h16]
        split_ifs with h32
        · exact ⟨rfl, hcontent (Int32.toInt_ofInt_of_le (by omega) (by omega))⟩
        · exact ⟨rfl, hcontent (Int64.toInt_ofInt_of_le h h')⟩

theorem sets_bool (v : Bool) : Sets (.bool v) (.bool v) := fun _ => ⟨rfl, rfl⟩

theorem sets_str (s : Str) : Sets (.str (some s)) (.str s) := by
  intro name
  refine ⟨rfl, ?_⟩
  change (ConfNode.leaf name .simple (if s.length < 8 then .smallStr s else .str (some s))).content = _
  split_ifs with hs
  · rfl
  · rfl

/-! ## The current node -/

/-- The loader at a container. -/
structure In (l : Loader) (root : ConfNode) (way : List Nat) (n : ConfNode) : Prop where
  loader : l = { root := some root, node := some way }
  node : root.nodeAt way = some n
  container : n.Container

/-- The document was added to the current node. -/
def Adds (events : List Doc.Event) (ns : List ConfNode) : Prop :=
  ∀ {l : Loader} {root : ConfNode} {way : List Nat} {n : ConfNode}, In l root way n →
    feed Loader.onKeyValue (false, l) events =
      (false, { root := some (root.updateAt (·.grow ns) way), node := some way })

variable {root n : ConfNode} {way : List Nat} {key : Option Str}

theorem Adds.append {as bs : List Doc.Event} {ns ms : List ConfNode} (ha : Adds as ns)
    (hb : Adds bs ms) : Adds (as ++ bs) (ns ++ ms) := by
  intro l root way n h
  have hnext : In { root := some (root.updateAt (·.grow ns) way), node := some way }
      (root.updateAt (·.grow ns) way) way (n.grow ns) :=
    ⟨rfl, ConfNode.nodeAt_updateAt _ h.node, h.container.grow ns⟩
  rw [Parser.feed_append, ha h, hb hnext, ConfNode.updateAt_comp]
  simp only [ConfNode.grow_append]

theorem adds_nil : Adds [] [] := by
  intro l root way n h
  rw [h.loader, ConfNode.updateAt_self h.node (ConfNode.grow_nil n)]
  rfl

theorem feed_cons_ok {l' : Loader} {item : Item} {events : List Doc.Event}
    (h : l.onKeyValue key item = (.ok, l')) :
    feed Loader.onKeyValue (false, l) ((key, item) :: events) =
      feed Loader.onKeyValue (false, l') events := by
  rw [Parser.feed_cons]
  have hcall : call Loader.onKeyValue (false, l) (key, item) = (false, l') := by
    change (decide ((l.onKeyValue key item).1 ≠ .ok), (l.onKeyValue key item).2) = _
    rw [h]
    rfl
  rw [hcall]

/-- The loader with one more child of a node. -/
def added (root : ConfNode) (way : List Nat) (child : ConfNode) (node : Option (List Nat)) : Loader :=
  { root := some (root.appendAt way child).1, node }

/-- The way to a child that is added. -/
def newWay (root : ConfNode) (way : List Nat) : List Nat :=
  (root.appendAt way (ConfNode.create [])).2

theorem dropLast_newWay (root : ConfNode) (way : List Nat) : (newWay root way).dropLast = way :=
  List.dropLast_concat

theorem In.place (h : In l root way n) {item : Item} (hitem : item ≠ .token Marker.uint8.byte) :
    l.place key item =
      (added root way (ConfNode.create (key.getD [])) (some way), newWay root way) := by
  have htype : l.typeAt way ≠ some .arrayUint8 := by
    rw [h.loader, Loader.typeAt]
    change (root.nodeAt way).map ConfNode.type ≠ _
    rw [h.node]
    rcases h.container with hn | hn <;> simp [hn]
  rw [Loader.place, h.loader]
  rw [h.loader] at htype
  exact if_neg (not_or.mpr ⟨hitem, htype⟩)

variable {child : ConfNode} {node : Option (List Nat)}

theorem In.nodeAt_added (h : In l root way n) :
    ((added root way child node).root.bind (·.nodeAt (newWay root way))) = some child :=
  ConfNode.nodeAt_appendAt child h.node

theorem In.typeAt_added (h : In l root way n) :
    (added root way child node).typeAt (newWay root way) = some child.type := by
  rw [Loader.typeAt, h.nodeAt_added]
  rfl

theorem In.updateAt_added (h : In l root way n) (f : ConfNode → ConfNode) :
    (added root way child node).updateAt f (newWay root way) = added root way (f child) node :=
  congrArg (fun root => (⟨some root, node⟩ : Loader)) (ConfNode.updateAt_appendAt f child h.node)

theorem In.setValue_added (h : In l root way n) (v : Value) :
    (added root way child node).setValue v (newWay root way) =
      ((child.setValue v).1, added root way (child.setValue v).2 node) := by
  rw [Loader.setValue, h.nodeAt_added, h.updateAt_added]
  rfl

theorem In.enter (h : In l root way n) (hchild : child.Container) :
    In (added root way child (some (newWay root way))) (root.appendAt way child).1
      (newWay root way) child :=
  ⟨rfl, ConfNode.nodeAt_appendAt child h.node, hchild⟩

theorem adds_value {v : Value} (hv : Sets v c) (key : Option Str) :
    ∃ n : ConfNode, n.name = key.getD [] ∧ n.content = some c ∧ Adds [(key, .value v)] [n] := by
  obtain ⟨hok, hcontent⟩ := hv (key.getD [])
  refine ⟨_, ConfDoc.name_setValue _, hcontent, ?_⟩
  intro l root way n h
  have hcall : l.onKeyValue key (.value v) =
      (.ok, added root way ((ConfNode.none (key.getD []) .simple).setValue v).2 (some way)) := by
    rw [Loader.onKeyValue, if_neg (by simp), h.place (by simp)]
    dsimp only
    have htype : (added root way (ConfNode.create (key.getD [])) (some way)).typeAt
        (newWay root way) ≠ some .arrayUint8 := by
      rw [h.typeAt_added]
      exact fun hsome => by cases hsome
    rw [if_neg htype, h.updateAt_added, h.setValue_added]
    exact congrArg (·, _) hok
  rw [feed_cons_ok hcall]
  rfl

theorem feed_end {m : Marker} (hm : m = .arrayEnd ∨ m = .objectEnd) (root : Option ConfNode)
    (way : List Nat) : feed Loader.onKeyValue (false, ⟨root, some way⟩) [(none, Doc.begins m)] =
      (false, ⟨root, some way.dropLast⟩) := by
  have hcall : Loader.onKeyValue ⟨root, some way⟩ none (Doc.begins m) =
      (.ok, ⟨root, some way.dropLast⟩) := by
    rcases hm with rfl | rfl <;> rfl
  rw [feed_cons_ok hcall]
  rfl

/-- A container is added with all that is in it. -/
theorem adds_container {b e : Marker} {type : ConfNodeType}
    (hm : b = .arrayBegin ∧ e = .arrayEnd ∧ type = .array ∨
      b = .objectBegin ∧ e = .objectEnd ∧ type = .object) {events : List Doc.Event}
    {ns : List ConfNode} (hns : Adds events ns) (key : Option Str) :
    Adds ((key, Doc.begins b) :: events ++ [(none, Doc.begins e)])
      [(ConfNode.none (key.getD []) type).grow ns] := by
  intro l root way n h
  have hcall : l.onKeyValue key (Doc.begins b) =
      (.ok, added root way (.none (key.getD []) type) (some (newWay root way))) := by
    have hplace : l.place key (Doc.begins b) =
        (added root way (ConfNode.create (key.getD [])) (some way), newWay root way) := by
      refine h.place ?_
      rcases hm with ⟨rfl, -, -⟩ | ⟨rfl, -, -⟩ <;> decide
    rcases hm with ⟨rfl, -, rfl⟩ | ⟨rfl, -, rfl⟩
    · rw [Loader.onKeyValue, if_neg (by decide), hplace]
      change (Ret.ok, { Loader.updateAt _ (·.withType .array) (newWay root way) with
        node := some (newWay root way) }) = _
      rw [h.updateAt_added]
      rfl
    · rw [Loader.onKeyValue, if_neg (by decide), hplace]
      change (Ret.ok, { Loader.updateAt _ (·.withType .object) (newWay root way) with
        node := some (newWay root way) }) = _
      rw [h.updateAt_added]
      rfl
  have hcontainer : (ConfNode.none (key.getD []) type).Container := by
    rcases hm with ⟨-, -, rfl⟩ | ⟨-, -, rfl⟩
    · exact .inr rfl
    · exact .inl rfl
  have hend : e = .arrayEnd ∨ e = .objectEnd := by
    rcases hm with ⟨-, rfl, -⟩ | ⟨-, rfl, -⟩
    · exact .inl rfl
    · exact .inr rfl
  rw [List.cons_append, feed_cons_ok hcall, Parser.feed_append, hns (h.enter hcontainer), feed_end hend,
    dropLast_newWay]
  have hgrow := ConfNode.updateAt_appendAt (·.grow ns) (ConfNode.none (key.getD []) type) h.node
  exact congrArg (fun root => (false, (⟨some root, some way⟩ : Loader))) hgrow

/-- An optimized array of bytes is added, and it has no end. -/
theorem adds_bytes (key : Option Str) (data : List UInt8) :
    Adds ((Doc.bytes data).events key) [.leaf (key.getD []) .arrayUint8 (.binary (some data))] := by
  intro l root way n h
  have hbegin : l.onKeyValue key (Doc.begins .arrayBegin) =
      (.ok, added root way (.none (key.getD []) .array) (some (newWay root way))) := by
    rw [Loader.onKeyValue, if_neg (by decide), h.place (by decide)]
    change (Ret.ok, { Loader.updateAt _ (·.withType .array) (newWay root way) with
      node := some (newWay root way) }) = _
    rw [h.updateAt_added]
    rfl
  have htype : (added root way (.none (key.getD []) .array) (some (newWay root way))).onKeyValue none
      (Doc.begins .uint8) =
        (.ok, added root way (.none (key.getD []) .arrayUint8) (some (newWay root way))) := by
    have hplace : (added root way (.none (key.getD []) .array) (some (newWay root way))).place none
        (Doc.begins .uint8) =
          (added root way (.none (key.getD []) .array) (some (newWay root way)), newWay root way) := by
      rw [Loader.place]
      exact if_pos (Or.inl rfl)
    rw [Loader.onKeyValue, if_neg (by decide), hplace]
    change (Ret.ok, Loader.updateAt _ (·.withType .arrayUint8) (newWay root way)) = _
    rw [h.updateAt_added]
    rfl
  have hvalue : (added root way (.none (key.getD []) .arrayUint8) (some (newWay root way))).onKeyValue
      none (.value (.binary (some data))) =
        (.ok, added root way (.leaf (key.getD []) .arrayUint8 (.binary (some data))) (some way)) := by
    have hat : (added root way (.none (key.getD []) .arrayUint8) (some (newWay root way))).typeAt
        (newWay root way) = some .arrayUint8 := h.typeAt_added
    have hplace : (added root way (.none (key.getD []) .arrayUint8) (some (newWay root way))).place
        none (.value (.binary (some data))) =
          (added root way (.none (key.getD []) .arrayUint8) (some (newWay root way)), newWay root way) :=
      if_pos (.inr hat)
    rw [Loader.onKeyValue, if_neg (by simp), hplace]
    dsimp only
    rw [if_pos hat]
    change Loader.setValue (added root way _ (some (newWay root way).dropLast)) _ _ = _
    rw [h.setValue_added, dropLast_newWay]
    rfl
  rw [Doc.events, feed_cons_ok hbegin, feed_cons_ok htype, feed_cons_ok hvalue]
  rfl

mutual

theorem adds_content : ∀ (c : Content) (key : Option Str), Storable c →
    ∃ n : ConfNode, n.name = key.getD [] ∧ n.content = some c ∧ Adds ((toDoc c).events key) [n]
  | .object members, key, h => by
    obtain ⟨ns, hns, hadds⟩ := adds_members members h.2
    rw [toDoc, Doc.events]
    exact ⟨_, ConfNode.name_grow _ _, ConfNode.Empty.content_object (.inl rfl) hns,
      adds_container (.inr ⟨rfl, rfl, rfl⟩) hadds key⟩
  | .array items, key, h => by
    obtain ⟨ns, hns, hadds⟩ := adds_items items h.2
    rw [toDoc, Doc.events]
    exact ⟨_, ConfNode.name_grow _ _, ConfNode.Empty.content_array (.inl rfl) hns,
      adds_container (.inl ⟨rfl, rfl, rfl⟩) hadds key⟩
  | .bool v, key, _ => adds_value (sets_bool v) key
  | .int v, key, h => adds_value (sets_integer h.1 h.2) key
  | .str s, key, _ => adds_value (sets_str s) key
  | .binary data, key, _ => ⟨_, rfl, rfl, adds_bytes key data⟩

theorem adds_members : ∀ (members : List (Str × Content)),
    Content.AllMembers CText StorableLeaf members →
    ∃ ns : List ConfNode, ConfNode.contentMembers ns = some members ∧
      Adds (Doc.eventsMembers (toMembers members)) ns
  | [], _ => ⟨[], rfl, adds_nil⟩
  | (name, c) :: members, h => by
    obtain ⟨n, hname, hn, hadds⟩ := adds_content c (some name) h.2.1
    obtain ⟨ns, hns, hadds'⟩ := adds_members members h.2.2
    refine ⟨n :: ns, ?_, hadds.append hadds'⟩
    rw [ConfNode.contentMembers, hn, hns, hname]
    rfl

theorem adds_items : ∀ (items : List Content), Content.AllItems CText StorableLeaf items →
    ∃ ns : List ConfNode, ConfNode.contentItems ns = some items ∧
      Adds (Doc.eventsItems (toItems items)) ns
  | [], _ => ⟨[], rfl, adds_nil⟩
  | c :: items, h => by
    obtain ⟨n, -, hn, hadds⟩ := adds_content c none h.1
    obtain ⟨ns, hns, hadds'⟩ := adds_items items h.2
    refine ⟨n :: ns, ?_, hadds.append hadds'⟩
    rw [ConfNode.contentItems, hn, hns]
    rfl

end

/-! ## Round trips -/

mutual

theorem ok_toDoc : ∀ {c : Content}, Storable c → (toDoc c).Ok
  | .object members, h => ok_toMembers h.2
  | .array items, h => ok_toItems h.2
  | .bool _, _ => trivial
  | .int v, _ => by
    rw [toDoc, Doc.Ok, integer]
    split_ifs <;> trivial
  | .str _, h => h
  | .binary _, h => h

theorem ok_toMembers : ∀ {members : List (Str × Content)},
    Content.AllMembers CText StorableLeaf members → Doc.OkMembers (toMembers members)
  | [], _ => trivial
  | (_, _) :: _, h => ⟨h.1, ok_toDoc h.2.1, ok_toMembers h.2.2⟩

theorem ok_toItems : ∀ {items : List Content},
    Content.AllItems CText StorableLeaf items → Doc.OkItems (toItems items)
  | [], _ => trivial
  | _ :: _, h => ⟨ok_toDoc h.1, ok_toItems h.2⟩

end

theorem save_eq {doc : ConfDoc} {root : ConfNode} {text : List UInt8} (hroot : doc.root = some root)
    (hc : root.content = some c) (hsave : save doc = some text) :
    (toDoc c).encode = some text ∧ ∀ v, toDoc c ≠ .value v := by
  rw [save, hroot, Option.bind_some, ← save_content hc] at *
  cases root with
  | none name type =>
    cases type with
    | object => cases hc; exact ⟨hsave, fun v hv => by cases hv⟩
    | array => cases hc; exact ⟨hsave, fun v hv => by cases hv⟩
    | _ => cases hc
  | leaf name type value =>
    cases type with
    | arrayUint8 =>
      cases value with
      | binary data =>
        cases data with
        | none => cases hc
        | some data => cases hc; exact ⟨hsave, fun v hv => by cases hv⟩
      | _ => cases hc
    | simple => cases hsave
    | _ => cases hc
  | node name type children =>
    cases type with
    | object =>
      rw [ConfNode.content] at hc
      obtain ⟨members, -, rfl⟩ := Option.map_eq_some_iff.mp hc
      exact ⟨hsave, fun v hv => by cases hv⟩
    | array =>
      rw [ConfNode.content] at hc
      obtain ⟨items, -, rfl⟩ := Option.map_eq_some_iff.mp hc
      exact ⟨hsave, fun v hv => by cases hv⟩
    | _ => cases hc

/-- The root is created with the first event. -/
theorem feed_start (hok : Storable c) (hc : ∀ v, toDoc c ≠ .value v) :
    ∃ root way, feed Loader.onKeyValue (false, ⟨none, none⟩) ((toDoc c).events none) =
      (false, ⟨some root, way⟩) ∧ root.content = some c := by
  cases c with
  | object members =>
    obtain ⟨ns, hns, hadds⟩ := adds_members members hok.2
    have hin : In ⟨some (.none ConfDoc.rootName .object), some []⟩
        (.none ConfDoc.rootName .object) [] (.none ConfDoc.rootName .object) :=
      ⟨rfl, rfl, .inl rfl⟩
    refine ⟨(ConfNode.none ConfDoc.rootName .object).grow ns, some [], ?_,
      ConfNode.Empty.content_object (.inl rfl) hns⟩
    rw [toDoc, Doc.events, List.cons_append, feed_cons_ok rfl, Parser.feed_append]
    exact (congrArg (feed _ · _) (hadds hin)).trans (feed_end (.inr rfl) _ _)
  | array items =>
    obtain ⟨ns, hns, hadds⟩ := adds_items items hok.2
    have hin : In ⟨some (.none ConfDoc.rootName .array), some []⟩
        (.none ConfDoc.rootName .array) [] (.none ConfDoc.rootName .array) :=
      ⟨rfl, rfl, .inr rfl⟩
    refine ⟨(ConfNode.none ConfDoc.rootName .array).grow ns, some [], ?_,
      ConfNode.Empty.content_array (.inl rfl) hns⟩
    rw [toDoc, Doc.events, List.cons_append, feed_cons_ok rfl, Parser.feed_append]
    exact (congrArg (feed _ · _) (hadds hin)).trans (feed_end (.inl rfl) _ _)
  | binary data =>
    refine ⟨.leaf ConfDoc.rootName .arrayUint8 (.binary (some data)), some [], ?_, rfl⟩
    rw [toDoc, Doc.events, feed_cons_ok rfl, feed_cons_ok rfl, feed_cons_ok rfl]
    rfl
  | bool v => exact absurd rfl (hc _)
  | int v => exact absurd rfl (hc _)
  | str s => exact absurd rfl (hc _)

/-- A document with each kind of value. -/
def sample : ConfNode :=
  .node ConfDoc.rootName .object
    [.node ['a'] .array [.none [] .array, .leaf [] .arrayUint8 (.binary (some [0, 255])),
        .leaf [] .simple (.int32 200)],
      .none ['b'] .object, .leaf ['c'] .simple (.smallStr ['x']), .leaf [] .simple (.bool true)]

def sampleContent : Content :=
  .object [(['a'], .array [.array [], .binary [0, 255], .int 200]), (['b'], .object []),
    (['c'], .str ['x']), ([], .bool true)]

end ConfUbjson

end Awtk.Conf
