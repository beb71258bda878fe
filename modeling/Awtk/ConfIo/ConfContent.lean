import Awtk.ConfIo.ConfNodeStore
import Awtk.Lib.Places

/-!
# The content of a document

What a document says without the way it is stored: containers of two kinds, and leaves.
The names of the items of an array do not count, and an integer is a number.

A loader adds one node after the other below a current node.  `grow` is what it adds there.
-/

namespace Awtk.Conf

open List Option

/-- The content of a node. -/
inductive Content where
  | object (members : List (Str × Content))
  | array (items : List Content)
  | bool (v : Bool)
  | int (v : Int)
  | str (s : Str)
  | binary (data : List UInt8)

namespace Content

mutual

/-- All names of members and everything in a content meet a condition. -/
def All (name : Str → Prop) (p : Content → Prop) : Content → Prop
  | object members => p (object members) ∧ AllMembers name p members
  | array items => p (array items) ∧ AllItems name p items
  | bool v => p (bool v)
  | int v => p (int v)
  | str s => p (str s)
  | binary data => p (binary data)

def AllMembers (name : Str → Prop) (p : Content → Prop) : List (Str × Content) → Prop
  | [] => True
  | (key, c) :: members => name key ∧ All name p c ∧ AllMembers name p members

def AllItems (name : Str → Prop) (p : Content → Prop) : List Content → Prop
  | [] => True
  | c :: items => All name p c ∧ AllItems name p items

end

end Content

/-- A string of C whose length is a `uint32_t`. -/
def CText (s : Str) : Prop := 0 ∉ s ∧ s.length < 2 ^ 32

namespace Stored

/-- An integer that an `int64_t` can hold. -/
def int64? (v : Int) : Option Content := if v < 2 ^ 63 then some (.int v) else none

/-- The content of a leaf. -/
def content : ConfNodeType → Stored → Option Content
  | .simple, .bool v => some (.bool v)
  | .simple, .int8 v => some (.int v.toInt)
  | .simple, .uint8 v => some (.int v.toNat)
  | .simple, .int16 v => some (.int v.toInt)
  | .simple, .uint16 v => some (.int v.toNat)
  | .simple, .int32 v => some (.int v.toInt)
  | .simple, .uint32 v => some (.int v.toNat)
  | .simple, .int64 v => some (.int v.toInt)
  | .simple, .uint64 v => int64? v.toNat
  | .simple, .str (some s) => some (.str s)
  | .simple, .smallStr s => some (.str s)
  | .arrayUint8, .binary (some data) => some (.binary data)
  | _, _ => none

end Stored

namespace ConfNode

mutual

/-- The content of a node.  Some nodes have none: a number with a point, a wide string, a
NULL, and a leaf that says it is a container. -/
def content : ConfNode → Option Content
  | none _ .object => some (.object [])
  | none _ .array => some (.array [])
  | none _ _ => Option.none
  | leaf _ type value => value.content type
  | node _ .object children => (contentMembers children).map .object
  | node _ .array children => (contentItems children).map .array
  | node _ _ _ => Option.none

def contentMembers : List ConfNode → Option (List (Str × Content))
  | [] => some []
  | n :: ns =>
    (content n).bind fun c => (contentMembers ns).map fun members => (n.name, c) :: members

def contentItems : List ConfNode → Option (List Content)
  | [] => some []
  | n :: ns => (content n).bind fun c => (contentItems ns).map fun items => c :: items

end

/-! ## Adding nodes -/

/-- The children that are added one after the other. -/
def grow (n : ConfNode) (children : List ConfNode) : ConfNode := children.foldl appendChild n

@[simp] theorem grow_nil (n : ConfNode) : n.grow [] = n := rfl

theorem grow_cons (n child : ConfNode) (children : List ConfNode) :
    n.grow (child :: children) = (n.appendChild child).grow children := rfl

theorem grow_append (n : ConfNode) (as bs : List ConfNode) :
    n.grow (as ++ bs) = (n.grow as).grow bs :=
  foldl_append

/-- A container says what kind it is. -/
def Container (n : ConfNode) : Prop := n.type = .object ∨ n.type = .array

theorem type_appendChild {n : ConfNode} (h : n.Container) (child : ConfNode) :
    (n.appendChild child).type = n.type := by
  cases n with
  | none name type => rfl
  | leaf name type value => rfl
  | node name type children =>
    cases children with
    | nil => exact if_pos h
    | cons first rest => rfl

theorem Container.grow {n : ConfNode} (h : n.Container) (children : List ConfNode) :
    (n.grow children).Container := by
  induction children generalizing n with
  | nil => exact h
  | cons child children ih =>
    rw [grow_cons]
    refine ih ?_
    rw [Container, type_appendChild h]
    exact h

theorem grow_node {name : Str} {type : ConfNodeType} : ∀ {as : List ConfNode} (bs : List ConfNode),
    as ≠ [] → (node name type as).grow bs = node name type (as ++ bs)
  | as, [], _ => by rw [grow_nil, append_nil]
  | a :: as, b :: bs, _ => by
    rw [grow_cons]
    change (node name type (a :: as ++ [b])).grow bs = _
    rw [grow_node bs (by simp), append_assoc]
    rfl

/-- A node that can become a container with any children. -/
def Empty (n : ConfNode) (type : ConfNodeType) : Prop :=
  n = none n.name type ∨ n = node n.name type []

theorem Empty.grow {n : ConfNode} {type : ConfNodeType} (h : n.Empty type)
    (htype : type = .object ∨ type = .array) {child : ConfNode} (children : List ConfNode) :
    n.grow (child :: children) = node n.name type (child :: children) := by
  have hfirst : n.appendChild child = node n.name type [child] := by
    rcases h with hn | hn
    · rw [hn]
      rfl
    · rw [hn]
      exact congrArg (node n.name · [child]) (if_pos htype)
  rw [grow_cons, hfirst, grow_node children (by simp)]
  rfl

theorem Empty.content_object {n : ConfNode} (h : n.Empty .object) {children : List ConfNode}
    {members : List (Str × Content)} (hc : contentMembers children = some members) :
    (n.grow children).content = some (.object members) := by
  cases children with
  | nil =>
    rw [contentMembers, some_inj] at hc
    subst hc
    rw [grow_nil]
    rcases h with hn | hn
    · rw [hn, content]
    · rw [hn, content]
      rfl
  | cons child children =>
    rw [h.grow (.inl rfl), content, hc]
    rfl

theorem Empty.content_array {n : ConfNode} (h : n.Empty .array) {children : List ConfNode}
    {items : List Content} (hc : contentItems children = some items) :
    (n.grow children).content = some (.array items) := by
  cases children with
  | nil =>
    rw [contentItems, some_inj] at hc
    subst hc
    rw [grow_nil]
    rcases h with hn | hn
    · rw [hn, content]
    · rw [hn, content]
      rfl
  | cons child children =>
    rw [h.grow (.inr rfl), content, hc]
    rfl

@[simp] theorem name_grow (n : ConfNode) (children : List ConfNode) :
    (n.grow children).name = n.name := by
  induction children generalizing n with
  | nil => rfl
  | cons child children ih => rw [grow_cons, ih, name_appendChild]

/-! ## The current node -/

/-- The places of a node are the ways down. -/
def places : Places ConfNode where
  child n i := n.children[i]?
  setChild n i c := n.setFirstChild (n.children.set i c)
  child_setChild d hi := by
    have hlt := (List.getElem?_eq_some_iff.mp hi).1
    rw [children_setFirstChild, getElem?_set_self hlt]
  setChild_setChild n c d i := by
    rw [children_setFirstChild, set_set]
    rfl
  setChild_self hi := setFirstChild_set_self hi

theorem places_nodeAt (way : List Nat) (n : ConfNode) : places.nodeAt way n = n.nodeAt way := by
  induction way generalizing n with
  | nil => rfl
  | cons i is ih => exact congrArg (Option.bind n.children[i]?) (funext ih)

theorem places_updateAt (f : ConfNode → ConfNode) (way : List Nat) (n : ConfNode) :
    places.updateAt f way n = n.updateAt f way := by
  induction way generalizing n with
  | nil => rfl
  | cons i is ih =>
    rw [updateAt]
    cases hi : n.children[i]? with
    | none => exact places.updateAt_none hi
    | some child =>
      rw [places.updateAt_some hi, ih]
      rfl

variable {f g : ConfNode → ConfNode} {n m : ConfNode} {way : List Nat}

theorem updateAt_comp (f g : ConfNode → ConfNode) (way : List Nat) (n : ConfNode) :
    (n.updateAt f way).updateAt g way = n.updateAt (fun n => g (f n)) way := by
  simpa only [places_updateAt] using places.updateAt_comp f g way n

theorem nodeAt_updateAt (f : ConfNode → ConfNode) (h : n.nodeAt way = some m) :
    (n.updateAt f way).nodeAt way = some (f m) := by
  rw [← places_nodeAt] at h
  simpa only [places_updateAt, places_nodeAt] using places.nodeAt_updateAt f h

theorem updateAt_self (h : n.nodeAt way = some m) (hm : f m = m) : n.updateAt f way = n := by
  rw [← places_nodeAt] at h
  simpa only [places_updateAt] using places.updateAt_self h hm

theorem getElem?_appendChild (n child : ConfNode) :
    (n.appendChild child).children[n.children.length]? = some child := by
  rw [children_appendChild, getElem?_concat_length]

theorem appendAt_eq (child : ConfNode) (h : n.nodeAt way = some m) :
    n.appendAt way child =
      (places.updateAt (fun n => n.appendChild child) way n, way ++ [m.children.length]) := by
  rw [appendAt, h, places_updateAt]
  rfl

theorem updateAt_appendAt (f : ConfNode → ConfNode) (child : ConfNode) (h : n.nodeAt way = some m) :
    (n.appendAt way child).1.updateAt f (n.appendAt way child).2 = (n.appendAt way (f child)).1 := by
  have hat : places.nodeAt way n = some m := by rw [places_nodeAt, h]
  rw [appendAt_eq child h, appendAt_eq (f child) h, ← places_updateAt]
  exact places.updateAt_added hat (getElem?_appendChild m) appendChild_set f child

theorem nodeAt_appendAt (child : ConfNode) (h : n.nodeAt way = some m) :
    (n.appendAt way child).1.nodeAt (n.appendAt way child).2 = some child := by
  have hat : places.nodeAt way n = some m := by rw [places_nodeAt, h]
  rw [appendAt_eq child h, ← places_nodeAt]
  exact places.nodeAt_added hat (getElem?_appendChild m) child

end ConfNode

end Awtk.Conf
