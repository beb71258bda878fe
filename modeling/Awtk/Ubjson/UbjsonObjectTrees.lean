import Awtk.Lib.Places
import Awtk.Ubjson.UbjsonDocument
import Awtk.Ubjson.UbjsonObject

/-!
# Trees of objects

What is written for a tree of objects is a UBJSON document (`toDoc`), in which an array is an
object with the indices as names.  The nodes of a tree are listed with their depth in the
order in which they are written.
-/

namespace Awtk.Ubjson

open List Option

namespace Obj

mutual

/-- The names of every `object_default_t`, the size of every `object_array_t` and every other
value meet a condition. -/
def All (names : List Str → Prop) (size : Nat → Prop) (leaf : Value → Prop) : Obj → Prop
  | value v => leaf v
  | default props => names (props.map (·.1)) ∧ AllProps names size leaf props
  | array items => size items.length ∧ AllItems names size leaf items

def AllProps (names : List Str → Prop) (size : Nat → Prop) (leaf : Value → Prop) :
    List (Str × Obj) → Prop
  | [] => True
  | (_, o) :: props => All names size leaf o ∧ AllProps names size leaf props

def AllItems (names : List Str → Prop) (size : Nat → Prop) (leaf : Value → Prop) :
    List Obj → Prop
  | [] => True
  | o :: items => All names size leaf o ∧ AllItems names size leaf items

end

/-- A name that is no path. -/
structure PlainName (name : Str) : Prop where
  nul : 0 ∉ name
  dot : ('.' : UInt8) ∉ name
  bracket : ('[' : UInt8) ∉ name
  size : name.length < 2 ^ 32

instance (name : Str) : Decidable (PlainName name) :=
  decidable_of_iff (0 ∉ name ∧ ('.' : UInt8) ∉ name ∧ ('[' : UInt8) ∉ name ∧ name.length < 2 ^ 32)
    ⟨fun h => ⟨h.1, h.2.1, h.2.2.1, h.2.2.2⟩, fun h => ⟨h.nul, h.dot, h.bracket, h.size⟩⟩

/-- A number, a boolean, or a string that is not empty. -/
def PlainValue : Value → Prop
  | .str (some s) => s ≠ [] ∧ 0 ∉ s ∧ s.length < 2 ^ 32
  | .wstr (some ws) => ws ≠ [] ∧ Utf8.Admissible true ws
  | .str none | .wstr none | .pointer _ | .binary _ | .other => False
  | _ => True

/-- The trees of the round trip: an object has each name once. -/
def Plain : Obj → Prop :=
  All (fun names => names.Nodup ∧ ∀ name ∈ names, PlainName name) (· < 2 ^ 32) PlainValue

/-- The size of the block for its text does not overflow. -/
def ShortValue : Value → Prop
  | .wstr (some ws) => 6 * ws.length + 1 < 2 ^ 32
  | _ => True

/-- No wide string has 715827883 characters or more. -/
def Short : Obj → Prop := All (fun _ => True) (fun _ => True) ShortValue

/-- No `object_array_t`, and the names in the order of `strcmp`. -/
def Ordered : Obj → Prop :=
  All (fun names => names.Pairwise (· < ·)) (fun _ => False) (fun _ => True)

mutual

/-- The nodes with their depth, in the order in which they are written, and whether they are
objects. -/
def nodes (depth : Nat) : Obj → List (Nat × Bool)
  | value _ => [(depth, false)]
  | default props => (depth, true) :: nodesProps (depth + 1) props
  | array items => (depth, true) :: nodesItems (depth + 1) items

def nodesProps (depth : Nat) : List (Str × Obj) → List (Nat × Bool)
  | [] => []
  | (_, o) :: props => nodes depth o ++ nodesProps depth props

def nodesItems (depth : Nat) : List Obj → List (Nat × Bool)
  | [] => []
  | o :: items => nodes depth o ++ nodesItems depth items

end

/-- What a value is written as: a float of the configured type is a double. -/
def written : Value → Value
  | .float bits => .double (Ieee.widen bits)
  | v => v

mutual

/-- The tree with its values as they are written. -/
def norm : Obj → Obj
  | value v => value (written v)
  | default props => default (normProps props)
  | array items => array (normItems items)

def normProps : List (Str × Obj) → List (Str × Obj)
  | [] => []
  | (name, o) :: props => (name, norm o) :: normProps props

def normItems : List Obj → List Obj
  | [] => []
  | o :: items => norm o :: normItems items

end

/-- Equal trees: the kinds, the names and the order are the same, and so are the values up to
the width of a float. -/
def Same (o o' : Obj) : Prop := norm o = norm o'

mutual

/-- The UBJSON document of a tree. -/
def toDoc : Obj → Doc
  | value v => .value (written v)
  | default props => .object (toMembers props)
  | array items => .object (toNamed 0 items)

def toMembers : List (Str × Obj) → List (Str × Doc)
  | [] => []
  | (name, o) :: props => (name, toDoc o) :: toMembers props

/-- The items from an index on, with the indices as names. -/
def toNamed (i : Nat) : List Obj → List (Str × Doc)
  | [] => []
  | o :: items => (decimal i, toDoc o) :: toNamed (i + 1) items

end

/-! ## What is written -/

/-- A write gives the bytes of a document, or it fails for a length. -/
def Writes (x : Output) (bytes : Option (List UInt8)) : Prop :=
  x.2 = Ret.ok ∧ bytes = some x.1 ∨ x.2 = Ret.oom

variable {x y : Output} {a b : Option (List UInt8)}

theorem writes_output (a : Option (List UInt8)) : Writes (output a) a := by
  cases a with
  | none => exact .inr rfl
  | some bytes => exact .inl ⟨rfl, rfl⟩

theorem Writes.andThen (hx : Writes x a) (hy : Writes y b) :
    Writes (andThen x y) (a.bind fun text => b.map (text ++ ·)) := by
  rcases hx with ⟨hok, rfl⟩ | hoom
  · rw [Obj.andThen, if_pos hok]
    rcases hy with ⟨hok', rfl⟩ | hoom
    · exact .inl ⟨hok', rfl⟩
    · exact .inr hoom
  · rw [Obj.andThen, if_neg (by rw [hoom]; decide)]
    exact .inr hoom

theorem Writes.body (hx : Writes x a) : Writes (writeBody x)
    (a.map fun text => Writer.writeObjectBegin ++ text ++ Writer.writeObjectEnd) := by
  rcases hx with ⟨hok, rfl⟩ | hoom
  · rw [writeBody, if_neg (by rw [hok]; decide)]
    exact .inl ⟨rfl, rfl⟩
  · rw [writeBody, if_pos hoom]
    exact .inr rfl

/-- A key, its value and the rest. -/
theorem Writes.member {z : Output} {c : Option (List UInt8)} (hx : Writes x a) (hy : Writes y b)
    (hz : Writes z c) : Writes (Obj.andThen (Obj.andThen x y) z)
      (a.bind fun key => b.bind fun text => c.map (key ++ text ++ ·)) := by
  have h := (hx.andThen hy).andThen hz
  cases a with
  | none => exact h
  | some key =>
    cases b with
    | none => exact h
    | some text => exact h

theorem writes_leaf {v : Value} (hv : PlainValue v) (hshort : ShortValue v) :
    Writes (writeLeaf v) (Doc.encodeValue (written v)) := by
  cases v with
  | wstr ws =>
    cases ws with
    | none => cases hv
    | some ws =>
      rw [writeLeaf, getD_some, Reader.wstrText_eq hv.2.notMem hshort]
      exact writes_output _
  | str s => exact writes_output _
  | pointer v => cases hv
  | binary data => cases hv
  | other => cases hv
  | _ => exact .inl ⟨rfl, rfl⟩

mutual

theorem writes_toDoc : ∀ {o : Obj}, Plain o → Short o → Writes (write o) (toDoc o).encode
  | value _, h, hshort => writes_leaf h hshort
  | default _, h, hshort => by
    rw [write, toDoc, Doc.encode]
    exact (writes_toMembers h.2 hshort.2).body
  | array _, h, hshort => by
    rw [write, toDoc, Doc.encode]
    exact (writes_toNamed 0 h.2 hshort.2).body

theorem writes_toMembers : ∀ {props : List (Str × Obj)},
    AllProps (fun names => names.Nodup ∧ ∀ name ∈ names, PlainName name) (· < 2 ^ 32) PlainValue props →
    AllProps (fun _ => True) (fun _ => True) ShortValue props →
    Writes (writeProps props) (Doc.encodeMembers (toMembers props))
  | [], _, _ => .inl ⟨rfl, rfl⟩
  | (name, _) :: _, h, hshort => by
    rw [writeProps, toMembers, Doc.encodeMembers]
    exact (writes_output (Writer.writeKey name)).member (writes_toDoc h.1 hshort.1)
      (writes_toMembers h.2 hshort.2)

theorem writes_toNamed : ∀ (i : Nat) {items : List Obj},
    AllItems (fun names => names.Nodup ∧ ∀ name ∈ names, PlainName name) (· < 2 ^ 32) PlainValue items →
    AllItems (fun _ => True) (fun _ => True) ShortValue items →
    Writes (writeItems i items) (Doc.encodeMembers (toNamed i items))
  | _, [], _, _ => .inl ⟨rfl, rfl⟩
  | i, o :: items, h, hshort => by
    rw [writeItems, toNamed, Doc.encodeMembers]
    exact (writes_output (Writer.writeKey (decimal i))).member (writes_toDoc h.1 hshort.1)
      (writes_toNamed (i + 1) h.2 hshort.2)

end

/-! ## What is parsed -/

theorem valueOk_written {v : Value} (hv : PlainValue v) (hshort : ShortValue v) :
    Doc.ValueOk (written v) := by
  cases v with
  | str s =>
    cases s with
    | none => cases hv
    | some s => exact hv.2
  | wstr ws =>
    cases ws with
    | none => cases hv
    | some ws => exact ⟨hv.2, hshort⟩
  | _ => trivial

theorem nul_notMem_decimal (n : Nat) : (0 : UInt8) ∉ decimal n := by
  intro h
  have hdigit := isDigit_of_mem_decimal h
  cases hdigit

mutual

theorem ok_toDoc : ∀ {o : Obj}, Plain o → Short o → (toDoc o).Ok
  | value _, h, hshort => valueOk_written h hshort
  | default _, h, hshort => ok_toMembers h.1.2 h.2 hshort.2
  | array items, h, hshort => ok_toNamed 0 (Nat.le_of_lt (by rw [Nat.zero_add]; exact h.1)) h.2 hshort.2

theorem ok_toMembers : ∀ {props : List (Str × Obj)},
    (∀ name ∈ props.map (·.1), PlainName name) →
    AllProps (fun names => names.Nodup ∧ ∀ name ∈ names, PlainName name) (· < 2 ^ 32) PlainValue props →
    AllProps (fun _ => True) (fun _ => True) ShortValue props → Doc.OkMembers (toMembers props)
  | [], _, _, _ => trivial
  | (name, _) :: props, hnames, h, hshort => by
    have hname := hnames name mem_cons_self
    exact ⟨⟨hname.nul, hname.size⟩, ok_toDoc h.1 hshort.1,
      ok_toMembers (fun a ha => hnames a (mem_cons_of_mem name ha)) h.2 hshort.2⟩

theorem ok_toNamed : ∀ (i : Nat) {items : List Obj}, i + items.length ≤ 2 ^ 32 →
    AllItems (fun names => names.Nodup ∧ ∀ name ∈ names, PlainName name) (· < 2 ^ 32) PlainValue items →
    AllItems (fun _ => True) (fun _ => True) ShortValue items → Doc.OkMembers (toNamed i items)
  | _, [], _, _, _ => trivial
  | i, _ :: items, hi, h, hshort => by
    rw [length_cons] at hi
    have hlen : (decimal i).length ≤ 10 := length_decimal_le (by omega)
    exact ⟨⟨nul_notMem_decimal i, by omega⟩, ok_toDoc h.1 hshort.1,
      ok_toNamed (i + 1) (by omega) h.2 hshort.2⟩

end

theorem toObject_eq {o : Obj} {text : List UInt8} (ho : ∀ v, o ≠ value v) (h : Plain o)
    (hshort : Short o) (hwrite : writeObject o = some text) (hsize : text.length < 2 ^ 32) :
    toObject text = .ok (feed ObjectParser.onKeyValue (false, .init) ((toDoc o).events none)).2.root := by
  have hok : (write o).2 = Ret.ok := by
    by_contra hne
    rw [writeObject, if_neg hne] at hwrite
    cases hwrite
  rw [writeObject, if_pos hok, some_inj] at hwrite
  subst hwrite
  have htext : (toDoc o).encode = some (write o).1 := by
    rcases writes_toDoc h hshort with ⟨-, htext⟩ | hoom
    · exact htext
    · rw [hoom] at hok
      cases hok
  have hdoc : ∀ v, toDoc o ≠ .value v := by
    cases o with
    | value v => exact absurd rfl (ho v)
    | default props => exact fun v hv => by cases hv
    | array items => exact fun v hv => by cases hv
  rw [toObject, parse_encode ObjectParser.onKeyValue hdoc htext (ok_toDoc h hshort) hsize]
  rfl

end Obj

end Awtk.Ubjson
