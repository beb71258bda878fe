import Awtk.Lib.Keyed
import Awtk.Tkc.Types
import Awtk.Tkc.Value

/-!
# The mutable style

`StyleMutable` is `style_mutable_t`: a list of states with a list of items each,
where a state and a name have at most `TK_NAME_LEN` bytes.  Allocations succeed,
and what the tables of the value types and the parsers of colours and gradients
answer is left open.
-/

namespace Awtk

open List Option

/-- The bytes of a text in ASCII. -/
def ascii (s : String) : Str := s.toList.map Char.toUInt8

/-- Whether `strstr` finds a text. -/
def hasSub (t s : Str) : Bool := decide (t <:+: s)

/-- `value_t`, with gradients. -/
inductive StyleValue where
  | value (v : Value)
  | gradient (data : List UInt8)
  deriving DecidableEq

/-- What the getters of a style read: a text, the data of a gradient, or else `value_int`. -/
inductive StyleReading where
  | str (s : Str)
  | gradient (data : List UInt8)
  | int (n : Int)
  deriving DecidableEq

/-- The value as the getters read it. -/
def StyleValue.reading : StyleValue → StyleReading
  | .value (.str (some s)) => .str s
  | .value v => .int v.toInt
  | .gradient data => .gradient data

/-! ## Normalized values -/

/-- What the tables and the parsers answer. -/
structure StyleTables where
  imageDrawTypeFind : Str → Option Int32
  alignHTypeFind : Str → Option Int32
  alignVTypeFind : Str → Option Int32
  /-- The data of `gradient_to_binary`, where `gradient_init_from_str` and it succeed. -/
  gradientOfStr : Str → Option (List UInt8)
  colorParse : Str → UInt32

def toBorder (value : Str) : UInt32 :=
  let border := (Int32.ofInt (tkAtoi value)).toUInt32
  if border ≠ 0 then border
  else
    (if hasSub (ascii "left") value then 1 else 0) |||
    (if hasSub (ascii "right") value then 2 else 0) |||
    (if hasSub (ascii "top") value then 4 else 0) |||
    (if hasSub (ascii "bottom") value then 8 else 0) |||
    (if hasSub (ascii "all") value then 15 else 0)

/-- The texts `to_icon_at` looks for. -/
def iconAtTypes : List (Str × Int32) :=
  [(ascii "cent", 5), (ascii "left_top", 6), (ascii "left_bottom", 8), (ascii "right_top", 7),
    (ascii "right_bottom", 9), (ascii "left", 1), (ascii "right", 2), (ascii "top", 3),
    (ascii "bottom", 4), (ascii "auto", 0)]

def toIconAt (value : Str) : Int32 :=
  match iconAtTypes.find? fun type => hasSub type.1 value with
  | some type => type.2
  | none => 1

def styleNormalizeValue (tables : StyleTables) (name value : Str) : StyleValue :=
  let int (n : Int32) : StyleValue := .value (.int32 n)
  let uint32 (n : UInt32) : StyleValue := .value (.uint32 n)
  if hasSub (ascii "image_draw_type") name then int ((tables.imageDrawTypeFind value).getD 0)
  else if name = ascii "text_align_h" then int ((tables.alignHTypeFind value).getD 0)
  else if name = ascii "text_align_v" then int ((tables.alignVTypeFind value).getD 0)
  else if name = ascii "border" then int (toBorder value).toInt32
  else if name = ascii "icon_at" then int (toIconAt value)
  else if hasSub (ascii "linear-gradient") value ∨ hasSub (ascii "radial-gradient") value then
    match tables.gradientOfStr value with
    | some data => .gradient data
    | none => int 0
  else if hasSub (ascii "color") name then uint32 (tables.colorParse value)
  else if name = ascii "feedback" ∨ name = ascii "focusable" ∨ name = ascii "clear_bg" then
    uint32 (if Value.tkAtob (some value) then 1 else 0)
  else if hasSub (ascii "image") name ∨ hasSub (ascii "name") name ∨ hasSub (ascii "icon") name then
    .value (.str (some value))
  else
    match value with
    | [] => .value (.str (some value))
    | c :: rest =>
      if isDigit c then uint32 (Int32.ofInt (tkAtoi value)).toUInt32
      else if c = '-' ∧ (rest.head?.any isDigit) then int (Int32.ofInt (tkAtoi value))
      else .value (.str (some value))

/-- `style_item_set_value`.  `style_normalize_value` refuses a text that is NULL, so the value is
reset. -/
def styleItemSetValue (tables : StyleTables) (name : Str) : StyleValue → StyleValue
  | .value (.str (some s)) => styleNormalizeValue tables name s
  | .value (.str none) => .value .other
  | .gradient data => .gradient data
  | .value v => .value (.int32 (Int32.ofInt v.toInt))

/-! ## The lists -/

def tkNameLen : Nat := 31

def widgetStateNormal : Str := ascii "normal"

/-- What `tk_strncpy` leaves in a zeroed name.  It refuses NULL. -/
def copiedName : Option Str → Str
  | none => []
  | some src => src.take tkNameLen

/-- `style_item_t`. -/
structure StyleItem where
  name : Str
  value : StyleValue

/-- `widget_state_style_t`. -/
structure WidgetStateStyle where
  state : Str
  items : List StyleItem

/-- The item with another value. -/
def StyleItem.setValue (tables : StyleTables) (v : StyleValue) (item : StyleItem) : StyleItem :=
  { item with value := styleItemSetValue tables item.name v }

/-- The state with other items. -/
def WidgetStateStyle.mapItems (f : List StyleItem → List StyleItem) (w : WidgetStateStyle) :
    WidgetStateStyle :=
  { w with items := f w.items }

def styleItemAdd (tables : StyleTables) (items : List StyleItem) (name : Str) (v : StyleValue) :
    List StyleItem :=
  items ++ [⟨copiedName (some name), styleItemSetValue tables (copiedName (some name)) v⟩]

/-- `style_item_set`.  It fails if no item has the name. -/
def styleItemSet (tables : StyleTables) (items : List StyleItem) (name : Str) (v : StyleValue) :
    Option (List StyleItem) :=
  if (Keyed.lookup StyleItem.name name items).isSome then
    some (Keyed.update StyleItem.name name (StyleItem.setValue tables v) items)
  else none

def styleItemGet (items : List StyleItem) (name : Str) : Except Ret StyleValue :=
  match Keyed.lookup StyleItem.name name items with
  | some item => .ok item.value
  | none => .error .fail

def widgetStateStyleAdd (styles : List WidgetStateStyle) (state : Option Str) :
    List WidgetStateStyle :=
  styles ++ [⟨copiedName state, []⟩]

def widgetStateStyleFind (styles : List WidgetStateStyle) (state : Option Str) :
    Option WidgetStateStyle :=
  Keyed.lookup WidgetStateStyle.state (state.getD widgetStateNormal) styles

/-- `style_mutable_t`. -/
structure StyleMutable where
  styles : List WidgetStateStyle

/-! ## The operations -/

namespace StyleMutable

def create : StyleMutable := ⟨[]⟩

/-- `style_mutable_get_value`, with `widget_state_style_get_value`. -/
def getValue (s : StyleMutable) (state : Option Str) (name : Str) : Except Ret StyleValue :=
  match widgetStateStyleFind s.styles state with
  | none => .error .fail
  | some current =>
    if current.items = [] then .error .notFound else styleItemGet current.items name

def setValue (tables : StyleTables) (s : StyleMutable) (state : Option Str) (name : Str)
    (v : StyleValue) : Ret × StyleMutable :=
  let styles :=
    if (widgetStateStyleFind s.styles state).isNone then widgetStateStyleAdd s.styles state
    else s.styles
  match widgetStateStyleFind styles state with
  | none => (.oom, ⟨styles⟩)
  | some witer =>
    let items := (styleItemSet tables witer.items name v).getD
      (styleItemAdd tables witer.items name v)
    (.ok, ⟨Keyed.update WidgetStateStyle.state witer.state
      (WidgetStateStyle.mapItems fun _ => items) styles⟩)

def reset (_ : StyleMutable) : Ret × StyleMutable := (.ok, ⟨[]⟩)

def removeValue (s : StyleMutable) (state name : Option Str) : Ret × StyleMutable :=
  match state, name with
  | none, none => s.reset
  | state, some name =>
    match widgetStateStyleFind s.styles state with
    | none => (.notFound, s)
    | some current =>
      if (Keyed.lookup StyleItem.name name current.items).isSome then
        (.ok, ⟨Keyed.update WidgetStateStyle.state current.state
          (WidgetStateStyle.mapItems (Keyed.remove StyleItem.name name)) s.styles⟩)
      else (.notFound, s)
  | some state, none =>
    if (Keyed.lookup WidgetStateStyle.state state s.styles).isSome then
      (.ok, ⟨Keyed.remove WidgetStateStyle.state state s.styles⟩)
    else (.notFound, s)

/-- What `style_mutable_foreach` visits. -/
def visited (s : StyleMutable) : List (Str × Str × StyleValue) :=
  s.styles.flatMap fun w => w.items.map fun item => (w.state, item.name, item.value)

def visitAndClone (tables : StyleTables) (s : StyleMutable) (entry : Str × Str × StyleValue) :
    StyleMutable :=
  (s.setValue tables (some entry.1) entry.2.1 entry.2.2).2

end StyleMutable

/-! ## Items -/

variable {tables : StyleTables} {items : List StyleItem} {name : Str} {v : StyleValue}

/-- What a text can be normalized to. -/
inductive Normalized (s : Str) : StyleValue → Prop
  | int (n : Int32) : Normalized s (.value (.int32 n))
  | uint32 (n : UInt32) : Normalized s (.value (.uint32 n))
  | gradient (data : List UInt8) : Normalized s (.gradient data)
  | str : Normalized s (.value (.str (some s)))

theorem Normalized.ite {s : Str} {c : Prop} [Decidable c] {x y : StyleValue}
    (hx : Normalized s x) (hy : Normalized s y) : Normalized s (if c then x else y) := by
  split
  · exact hx
  · exact hy

theorem styleNormalizeValue_normalized (tables : StyleTables) (name s : Str) :
    Normalized s (styleNormalizeValue tables name s) := by
  have hgradient : Normalized s (match tables.gradientOfStr s with
      | some data => .gradient data
      | none => .value (.int32 0)) := by
    cases tables.gradientOfStr s with
    | none => exact .int 0
    | some data => exact .gradient data
  refine .ite (.int _) (.ite (.int _) (.ite (.int _) (.ite (.int _) (.ite (.int _)
    (.ite hgradient (.ite (.uint32 _) (.ite (.uint32 _) (.ite .str ?_))))))))
  cases s with
  | nil => exact .str
  | cons c rest => exact .ite (.uint32 _) (.ite (.int _) .str)

theorem reading_set_again (tables : StyleTables) (name : Str) (v : StyleValue) :
    (styleItemSetValue tables name (styleItemSetValue tables name v)).reading =
      (styleItemSetValue tables name v).reading := by
  have hint : ∀ n : Int32, (styleItemSetValue tables name (.value (.int32 n))).reading =
      StyleValue.reading (.value (.int32 n)) := by
    intro n
    simp [styleItemSetValue, StyleValue.reading, Value.toInt]
  cases v with
  | gradient data => rfl
  | value v =>
    cases v with
    | str s =>
      cases s with
      | none => simp [styleItemSetValue, StyleValue.reading, Value.toInt]
      | some s =>
        have hcases := styleNormalizeValue_normalized tables name s
        generalize hx : styleNormalizeValue tables name s = x at hcases
        rw [styleItemSetValue, hx]
        cases hcases with
        | int n => exact hint n
        | uint32 n => simp [styleItemSetValue, StyleValue.reading, Value.toInt]
        | gradient data => rfl
        | str => rw [styleItemSetValue, hx]
    | _ => exact hint _

@[simp] theorem StyleItem.setValue_name (tables : StyleTables) (v : StyleValue) (item : StyleItem) :
    (item.setValue tables v).name = item.name := rfl

@[simp] theorem WidgetStateStyle.mapItems_state (f : List StyleItem → List StyleItem)
    (w : WidgetStateStyle) : (w.mapItems f).state = w.state := rfl

/-- The names are short and differ, and a value that is set once more reads the same. -/
structure ItemsWf (tables : StyleTables) (items : List StyleItem) : Prop where
  names : (items.map StyleItem.name).Nodup
  short : ∀ item ∈ items, item.name.length ≤ tkNameLen
  settled : ∀ item ∈ items,
    (styleItemSetValue tables item.name item.value).reading = item.value.reading

/-- What the getters read under a name. -/
def shownItem (items : List StyleItem) (name : Str) : Option StyleReading :=
  (Keyed.lookup StyleItem.name name items).map fun item => item.value.reading

/-- The items after a set. -/
def itemsSet (tables : StyleTables) (items : List StyleItem) (name : Str) (v : StyleValue) :
    List StyleItem :=
  (styleItemSet tables items name v).getD (styleItemAdd tables items name v)

theorem copiedName_of_short {s : Str} (h : s.length ≤ tkNameLen) : copiedName (some s) = s :=
  take_of_length_le h

theorem length_copiedName (s : Option Str) : (copiedName s).length ≤ tkNameLen := by
  cases s with
  | none => exact Nat.zero_le _
  | some s => exact length_take_le _ _

theorem copiedName_eq_iff {s : Str} : copiedName (some s) = s ↔ s.length ≤ tkNameLen := by
  constructor
  · intro h
    exact h ▸ length_copiedName (some s)
  · exact copiedName_of_short

namespace ItemsWf

theorem nil (tables : StyleTables) : ItemsWf tables [] where
  names := nodup_nil
  short := fun _ h => nomatch h
  settled := fun _ h => nomatch h

theorem remove (h : ItemsWf tables items) (name : Str) :
    ItemsWf tables (Keyed.remove StyleItem.name name items) where
  names := h.names.sublist ((Keyed.remove_sublist _ _ _).map _)
  short := fun item hitem => h.short item ((Keyed.remove_sublist _ _ _).subset hitem)
  settled := fun item hitem => h.settled item ((Keyed.remove_sublist _ _ _).subset hitem)

theorem shownItem_remove (h : ItemsWf tables items) (name n : Str) :
    shownItem (Keyed.remove StyleItem.name name items) n =
      if n = name then none else shownItem items n := by
  rw [shownItem, Keyed.lookup_remove h.names]
  split_ifs
  · rfl
  · rfl

theorem lookup_long (h : ItemsWf tables items) (hlong : ¬ name.length ≤ tkNameLen) :
    Keyed.lookup StyleItem.name name items = none := by
  rw [Keyed.lookup_eq_none]
  intro hmem
  obtain ⟨item, hitem, rfl⟩ := List.mem_map.mp hmem
  exact hlong (h.short item hitem)

theorem add (h : ItemsWf tables items) (hname : name.length ≤ tkNameLen)
    (hnew : Keyed.lookup StyleItem.name name items = none) (v : StyleValue) :
    ItemsWf tables (styleItemAdd tables items name v) := by
  rw [styleItemAdd, copiedName_of_short hname]
  refine ⟨Keyed.nodup_concat h.names hnew, ?_, ?_⟩
  · intro item hitem
    obtain hitem | hitem := mem_append.mp hitem
    · exact h.short item hitem
    · rw [mem_singleton.mp hitem]
      exact hname
  · intro item hitem
    obtain hitem | hitem := mem_append.mp hitem
    · exact h.settled item hitem
    · rw [mem_singleton.mp hitem]
      exact reading_set_again tables name v

/-- An item with a new value. -/
theorem update (h : ItemsWf tables items) (name : Str) (v : StyleValue) :
    ItemsWf tables (Keyed.update StyleItem.name name (StyleItem.setValue tables v) items) := by
  refine ⟨?_, ?_, ?_⟩
  · rw [Keyed.map_key_update (StyleItem.setValue_name tables v)]
    exact h.names
  · intro item hitem
    obtain hitem | ⟨old, hold, -, rfl⟩ := Keyed.mem_update hitem
    · exact h.short item hitem
    · exact h.short old hold
  · intro item hitem
    obtain hitem | ⟨old, hold, -, rfl⟩ := Keyed.mem_update hitem
    · exact h.settled item hitem
    · exact reading_set_again tables old.name v

theorem set (h : ItemsWf tables items) (hname : name.length ≤ tkNameLen) (v : StyleValue) :
    ItemsWf tables (itemsSet tables items name v) := by
  rw [itemsSet, styleItemSet]
  cases hfind : Keyed.lookup StyleItem.name name items with
  | none => exact h.add hname hfind v
  | some item => exact h.update name v

end ItemsWf

theorem shownItem_itemsSet (hname : name.length ≤ tkNameLen) (n : Str) :
    shownItem (itemsSet tables items name v) n =
      if n = name then some (styleItemSetValue tables name v).reading else shownItem items n := by
  rw [itemsSet, styleItemSet]
  cases hfind : Keyed.lookup StyleItem.name name items with
  | none =>
    rw [isSome_none, if_neg Bool.false_ne_true, getD_none, styleItemAdd,
      copiedName_of_short hname, shownItem, Keyed.lookup_concat]
    by_cases hn : n = name
    · rw [if_pos hn, if_pos hn.symm, hn, hfind]
      rfl
    · rw [if_neg hn, if_neg fun h => hn h.symm, or_none]
      rfl
  | some item =>
    rw [isSome_some, if_pos rfl, getD_some, shownItem,
      Keyed.lookup_update (StyleItem.setValue_name tables v)]
    split_ifs with hn
    · rw [hfind, ← (Keyed.mem_of_lookup hfind).2]
      rfl
    · rfl

theorem ItemsWf.shownItem_itemsSet_long (h : ItemsWf tables items)
    (hlong : ¬ name.length ≤ tkNameLen) (v : StyleValue) :
    shownItem (itemsSet tables items name v) name = none := by
  have hfind := h.lookup_long hlong
  rw [itemsSet, styleItemSet, hfind, isSome_none, if_neg Bool.false_ne_true,
    getD_none, styleItemAdd, shownItem, Keyed.lookup_concat, hfind,
    if_neg (mt copiedName_eq_iff.mp hlong)]
  rfl

end Awtk
