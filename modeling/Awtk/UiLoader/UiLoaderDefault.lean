import Awtk.Tkc.WBuffer
import Awtk.Tkc.CStr
import Awtk.Lib.Bytes
import Awtk.Tkc.RBuffer

/-!
# The binary writer of user interfaces

A model of `ui_binary_writer.c`.  A builder is called with the descriptor of a widget, its properties, its
children and its end, and the writer appends bytes to a `wbuffer_t`.  The forests are the widgets that the
calls describe.
-/

namespace Awtk

open List

/-- `widget_desc_t`: the array of the type name, and the layout. -/
structure WidgetDesc where
  type : List UInt8
  x : Int32
  y : Int32
  w : Int32
  h : Int32
  type_length : type.length = 32
  deriving DecidableEq

/-- A call of a builder. -/
inductive UiBuilderCall where
  | onStart
  | onWidgetStart (desc : WidgetDesc)
  | onWidgetProp (name value : Str)
  | onWidgetPropEnd
  | onWidgetEnd
  | onEnd
  deriving DecidableEq

/-- Widgets with their properties, their children and the widgets behind them. -/
inductive UiForest where
  | nil
  | cons (desc : WidgetDesc) (props : List (Str × Str)) (children siblings : UiForest)

/-! ## Descriptors in memory -/

namespace WidgetDesc

/-- An `int32_t` in memory. -/
def int32Bytes (v : Int32) : List UInt8 := Bytes.ofNat 4 v.toUInt32.toNat

def int32OfBytes (bs : List UInt8) : Int32 := (UInt32.ofNat (Bytes.toNat bs)).toInt32

@[simp] theorem int32OfBytes_bytes (v : Int32) : int32OfBytes (int32Bytes v) = v := by
  have hlt : v.toUInt32.toNat < 256 ^ 4 := v.toUInt32.toNat_lt
  rw [int32OfBytes, int32Bytes, Bytes.toNat_ofNat, Nat.mod_eq_of_lt hlt, UInt32.ofNat_toNat]
  rfl

@[simp] theorem int32Bytes_length (v : Int32) : (int32Bytes v).length = 4 := Bytes.ofNat_length ..

/-- The bytes of a descriptor. -/
def bytes (d : WidgetDesc) : List UInt8 :=
  d.type ++ int32Bytes d.x ++ int32Bytes d.y ++ int32Bytes d.w ++ int32Bytes d.h

/-- The descriptor in 48 bytes. -/
def ofBytes? (bs : List UInt8) : Option WidgetDesc :=
  if h : bs.length = 48 then some {
    type := bs.take 32
    x := int32OfBytes ((bs.drop 32).take 4)
    y := int32OfBytes ((bs.drop 36).take 4)
    w := int32OfBytes ((bs.drop 40).take 4)
    h := int32OfBytes (bs.drop 44)
    type_length := by rw [length_take, h]; rfl }
  else none

theorem bytes_length (d : WidgetDesc) : d.bytes.length = 48 := by
  simp [bytes, d.type_length]

theorem ofBytes?_bytes (d : WidgetDesc) : ofBytes? d.bytes = some d := by
  rw [ofBytes?, dif_pos d.bytes_length]
  obtain ⟨type, x, y, w, h, htype⟩ := d
  simp only [bytes, Option.some.injEq, WidgetDesc.mk.injEq]
  have htype' : ∀ n, 32 ≤ n → type.drop n = [] := fun n hn => drop_eq_nil_of_le (by omega)
  have hint : ∀ (v : Int32) (n : Nat), 4 ≤ n → (int32Bytes v).drop n = [] :=
    fun v n hn => drop_eq_nil_of_le (by rw [int32Bytes_length]; exact hn)
  refine ⟨?_, ?_, ?_, ?_, ?_⟩
  · simp [htype]
  · simp [htype]
  · simp [htype, htype', drop_append]
  · simp [htype, htype', hint, drop_append]
  · simp [htype, htype', hint, drop_append]

/-- The type name is not empty. -/
def Named (d : WidgetDesc) : Prop := d.type.head? ≠ some 0

end WidgetDesc

/-! ## The calls of a forest -/

namespace UiForest

open UiBuilderCall

/-- The properties of a widget, one call for each. -/
def propCalls (props : List (Str × Str)) : List UiBuilderCall :=
  props.map fun p => onWidgetProp p.1 p.2

/-- The calls that describe a forest. -/
def calls : UiForest → List UiBuilderCall
  | nil => []
  | cons desc props children siblings =>
    onWidgetStart desc :: propCalls props ++ [onWidgetPropEnd] ++ children.calls ++ [onWidgetEnd] ++
      siblings.calls

/-- Property names are not empty, and names and values have no NUL. -/
def PropsOk (props : List (Str × Str)) : Prop :=
  ∀ p ∈ props, p.1 ≠ [] ∧ 0 ∉ p.1 ∧ 0 ∉ p.2

/-- The type names and the properties of all widgets can be told from end marks. -/
def Ok : UiForest → Prop
  | nil => True
  | cons desc props children siblings => desc.Named ∧ PropsOk props ∧ children.Ok ∧ siblings.Ok

/-- The last of the outermost widgets has no children. -/
def LastChildless : UiForest → Prop
  | nil => True
  | cons _ _ children nil => children = nil
  | cons _ _ _ siblings => siblings.LastChildless

end UiForest

/-! ## The writer -/

def uiDataMagic : Nat := 0x11221212

namespace UiBinaryWriter

open UiBuilderCall

def writeString (realloc : Nat → Bool) (wb : WBuffer) (data : Str) : Option (Ret × WBuffer) :=
  wb.writeBinary realloc (data ++ [0])

/-- `ui_binary_writer_init`, and the return code of `wbuffer_write_uint32`. -/
def init (realloc : Nat → Bool) (wb : WBuffer) : Option (Ret × WBuffer) :=
  wb.writeBinary realloc (Bytes.ofNat 4 uiDataMagic)

/-- The functions of the builder.  The start and the end of the document are not set. -/
def call (realloc : Nat → Bool) (wb : WBuffer) : UiBuilderCall → Option (Ret × WBuffer)
  | onStart => some (.ok, wb)
  | onWidgetStart desc => wb.writeBinary realloc desc.bytes
  | onWidgetProp name value => do
    let (_, wb) ← writeString realloc wb name
    writeString realloc wb value
  | onWidgetPropEnd => wb.writeUint8 realloc 0
  | onWidgetEnd => wb.writeUint8 realloc 0
  | onEnd => some (.ok, wb)

/-- The calls one after another. -/
def calls (realloc : Nat → Bool) : WBuffer → List UiBuilderCall → Option WBuffer
  | wb, [] => some wb
  | wb, c :: cs => do
    let (_, wb) ← call realloc wb c
    calls realloc wb cs

/-- A writer is made and called. -/
def write (realloc : Nat → Bool) (wb : WBuffer) (cs : List UiBuilderCall) : Option WBuffer := do
  let (_, wb) ← init realloc wb
  calls realloc wb cs

/-! ## The bytes it writes -/

/-- The bytes of a call. -/
def bytes : UiBuilderCall → List UInt8
  | onStart => []
  | onWidgetStart desc => desc.bytes
  | onWidgetProp name value => name ++ [0] ++ (value ++ [0])
  | onWidgetPropEnd => [0]
  | onWidgetEnd => [0]
  | onEnd => []

variable {realloc : Nat → Bool} {wb : WBuffer} {n : Nat}

theorem writeBinary_append {bs : List UInt8} (hw : wb.Ok) (h : wb.Room realloc n)
    (hn : wb.contents.length + bs.length ≤ n) :
    ∃ wb', wb.writeBinary realloc bs = some (.ok, wb') ∧ wb'.Ok ∧ wb'.Room realloc n ∧
      wb'.contents = wb.contents ++ bs := by
  rw [hw.contents_length] at hn
  obtain ⟨wb', hrun, hroom⟩ := h.writeBinary hw hn
  obtain ⟨hok, hcontents, -⟩ := hw.writeBinary_ok hrun
  exact ⟨wb', hrun, hok, hroom, hcontents⟩

theorem call_append (c : UiBuilderCall) (hw : wb.Ok) (h : wb.Room realloc n)
    (hn : wb.contents.length + (bytes c).length ≤ n) :
    ∃ wb', call realloc wb c = some (.ok, wb') ∧ wb'.Ok ∧ wb'.Room realloc n ∧
      wb'.contents = wb.contents ++ bytes c := by
  cases c with
  | onStart => exact ⟨wb, rfl, hw, h, (append_nil _).symm⟩
  | onWidgetStart desc => exact writeBinary_append hw h hn
  | onWidgetProp name value =>
    rw [bytes, length_append, ← Nat.add_assoc] at hn
    obtain ⟨wb₁, hrun₁, hw₁, h₁, hcontents₁⟩ :=
      writeBinary_append hw h (Nat.le_trans (Nat.le_add_right _ _) hn)
    rw [← length_append, ← hcontents₁] at hn
    obtain ⟨wb₂, hrun₂, hw₂, h₂, hcontents₂⟩ := writeBinary_append hw₁ h₁ hn
    refine ⟨wb₂, ?_, hw₂, h₂, ?_⟩
    · rw [call, writeString, hrun₁]
      exact hrun₂
    · rw [hcontents₂, hcontents₁, bytes, append_assoc]
  | onWidgetPropEnd => exact writeBinary_append hw h hn
  | onWidgetEnd => exact writeBinary_append hw h hn
  | onEnd => exact ⟨wb, rfl, hw, h, (append_nil _).symm⟩

theorem calls_append (cs : List UiBuilderCall) : ∀ {wb : WBuffer}, wb.Ok → wb.Room realloc n →
    wb.contents.length + (cs.flatMap bytes).length ≤ n →
    ∃ wb', calls realloc wb cs = some wb' ∧ wb'.Ok ∧
      wb'.contents = wb.contents ++ cs.flatMap bytes := by
  induction cs with
  | nil => exact fun hw _ _ => ⟨_, rfl, hw, (append_nil _).symm⟩
  | cons c cs ih =>
    intro wb hw h hn
    rw [flatMap_cons, length_append, ← Nat.add_assoc] at hn
    obtain ⟨wb₁, hrun₁, hw₁, h₁, hcontents₁⟩ :=
      call_append c hw h (Nat.le_trans (Nat.le_add_right _ _) hn)
    rw [← length_append, ← hcontents₁] at hn
    obtain ⟨wb₂, hrun₂, hw₂, hcontents₂⟩ := ih hw₁ h₁ hn
    refine ⟨wb₂, ?_, hw₂, ?_⟩
    · rw [calls, hrun₁]
      exact hrun₂
    · rw [hcontents₂, hcontents₁, flatMap_cons, append_assoc]

/-- The bytes of a document. -/
def document (cs : List UiBuilderCall) : List UInt8 := Bytes.ofNat 4 uiDataMagic ++ cs.flatMap bytes

theorem write_append (cs : List UiBuilderCall) (hw : wb.Ok) (h : wb.Room realloc n)
    (hn : wb.contents.length + (document cs).length ≤ n) :
    ∃ wb', write realloc wb cs = some wb' ∧ wb'.Ok ∧
      wb'.contents = wb.contents ++ document cs := by
  rw [document, length_append, ← Nat.add_assoc] at hn
  obtain ⟨wb₁, hrun₁, hw₁, h₁, hcontents₁⟩ :=
    writeBinary_append hw h (Nat.le_trans (Nat.le_add_right _ _) hn)
  rw [← length_append, ← hcontents₁] at hn
  obtain ⟨wb₂, hrun₂, hw₂, hcontents₂⟩ := calls_append cs hw₁ h₁ hn
  refine ⟨wb₂, ?_, hw₂, ?_⟩
  · rw [write, init, hrun₁]
    exact hrun₂
  · rw [hcontents₂, hcontents₁, document, append_assoc]

end UiBinaryWriter

end Awtk

/-!
## The binary loader of user interfaces

A model of `ui_loader_load_default` and of a builder that records its calls.  The loops take a bounded
number of turns, and the capacity of the buffer is enough of them.

A function gives `none` where the C code has no defined behaviour, and where a loop is out of turns.
-/

namespace Awtk.UiLoaderDefault

open UiBuilderCall

/-! ## The loader -/

/-- The loop over the properties.  The calls of the builder come last. -/
def propLoop : Nat → RBuffer → Str → List UiBuilderCall → Option (Ret × RBuffer × List UiBuilderCall)
  | 0, _, _, _ => none
  | n + 1, rb, key, cs =>
    if key = [] then some (.ok, rb, cs)
    else do
      match ← rb.readString with
      | (.ok, some value, rb) =>
        let cs := cs ++ [onWidgetProp key value]
        match ← rb.readString with
        | (.ok, some key, rb) => propLoop n rb key cs
        | (_, _, rb) => return (.badParams, rb, cs)
      | (_, _, rb) => return (.badParams, rb, cs)

/-- The properties of a widget and their end. -/
def readProps (rb : RBuffer) (cs : List UiBuilderCall) :
    Option (Ret × RBuffer × List UiBuilderCall) := do
  match ← rb.readString with
  | (.ok, some key, rb) =>
    match ← propLoop (rb.capacity + 1) rb key cs with
    | (.ok, rb, cs) => return (.ok, rb, cs ++ [onWidgetPropEnd])
    | (_, rb, cs) => return (.badParams, rb, cs)
  | (_, _, rb) => return (.badParams, rb, cs)

/-- The loop over the end marks, with the mark that was looked at. -/
def endLoop : Nat → Nat → RBuffer → List UiBuilderCall → Option (RBuffer × List UiBuilderCall)
  | 0, _, _, _ => none
  | n + 1, mark, rb, cs =>
    if mark ≠ 0 then some (rb, cs)
    else do
      let (_, _, rb) ← rb.readUint 1
      let cs := cs ++ [onWidgetEnd]
      if rb.capacity ≤ U32.add rb.cursor 1 then return (rb, cs)
      else
        match ← rb.peekUint 1 with
        | (.ok, mark) => endLoop n mark rb cs
        | (_, _) => return (rb, cs)

/-- The end marks behind the properties of a widget. -/
def readEnds (rb : RBuffer) (cs : List UiBuilderCall) :
    Option (Ret × RBuffer × List UiBuilderCall) :=
  if rb.hasMore then do
    match ← rb.peekUint 1 with
    | (.ok, mark) =>
      let (rb, cs) ← endLoop (rb.capacity + 1) mark rb cs
      return (.ok, rb, cs)
    | (_, _) => return (.badParams, rb, cs)
  else some (.ok, rb, cs)

/-- A widget, its properties, and the ends of all widgets that end behind them. -/
def readWidget (rb : RBuffer) (cs : List UiBuilderCall) :
    Option (Ret × RBuffer × List UiBuilderCall) := do
  match ← rb.readBinary 48 with
  | (.ok, bytes, rb) =>
    let desc ← WidgetDesc.ofBytes? bytes
    match ← readProps rb (cs ++ [onWidgetStart desc]) with
    | (.ok, rb, cs) => readEnds rb cs
    | (_, rb, cs) => return (.badParams, rb, cs)
  | (_, _, rb) => return (.badParams, rb, cs)

/-- The loop over the widgets.  `widget` says whether the builder has a widget after some calls. -/
def widgetLoop (widget : List UiBuilderCall → Bool) :
    Nat → RBuffer → List UiBuilderCall → Option (Ret × List UiBuilderCall)
  | 0, _, _ => none
  | n + 1, rb, cs =>
    if rb.cursor + 48 ≤ rb.capacity then do
      match ← readWidget rb cs with
      | (.ok, rb, cs) =>
        if widget cs then widgetLoop widget n rb cs else return (.ok, cs ++ [onEnd])
      | (_, _, cs) => return (.badParams, cs)
    else some (.ok, cs ++ [onEnd])

/-- `ui_loader_load_default`, with the calls that the builder gets. -/
def load (widget : List UiBuilderCall → Bool) (data : List UInt8) :
    Option (Ret × List UiBuilderCall) := do
  let rb := RBuffer.init data data.length
  match ← rb.readUint 4 with
  | (.ok, magic, rb) =>
    if magic = uiDataMagic then widgetLoop widget (rb.capacity + 1) rb [onStart]
    else return (.badParams, [])
  | (_, _, _) => return (.badParams, [])

/-! ## Reading what comes next -/

variable {rb : RBuffer} {more tail : List UInt8} {cs : List UiBuilderCall} {n : Nat}

/-- The bytes that are left. -/
structure At (rb : RBuffer) (more : List UInt8) : Prop where
  ok : rb.Ok
  rest : rb.rest = more

theorem At.length (h : At rb more) : rb.cursor + more.length = rb.capacity := by
  have hlen := RBuffer.rest_length h.ok.size.ge
  have hcursor := h.ok.cursor
  rw [h.rest] at hlen
  omega

theorem At.skip {bs : List UInt8} (h : At rb (bs ++ more)) :
    At { rb with cursor := rb.cursor + bs.length } more := by
  have hlen := h.length
  rw [List.length_append] at hlen
  refine ⟨⟨h.ok.size, ?_, h.ok.bound⟩, ?_⟩
  · show rb.cursor + bs.length ≤ rb.capacity
    omega
  · show (rb.data.take rb.capacity).drop (rb.cursor + bs.length) = more
    have hrest : (rb.data.take rb.capacity).drop rb.cursor = bs ++ more := h.rest
    rw [← List.drop_drop, hrest, List.drop_left]

theorem At.readString {s : Str} (hs : 0 ∉ s) (h : At rb (s ++ 0 :: more)) :
    ∃ rb', rb.readString = some (.ok, some s, rb') ∧ At rb' more ∧ rb'.capacity = rb.capacity := by
  have hrun := RBuffer.readString_of_rest hs h.rest h.ok.size.ge h.ok.cursor h.ok.bound
  have hat : At rb ((s ++ [0]) ++ more) := by
    rw [List.append_assoc]
    exact h
  have hskip := hat.skip
  rw [List.length_append, ← Nat.add_assoc] at hskip
  exact ⟨_, hrun, hskip, rfl⟩

theorem At.readBinary {bs : List UInt8} (h : At rb (bs ++ more)) :
    ∃ rb', rb.readBinary bs.length = some (.ok, bs, rb') ∧ At rb' more ∧
      rb'.capacity = rb.capacity := by
  have hlen := h.length
  have hbound := h.ok.bound
  rw [List.length_append] at hlen
  refine ⟨_, ?_, h.skip, rfl⟩
  rw [RBuffer.readBinary, U32.add_of_lt (by omega), if_pos (by omega),
    RBuffer.load_cursor (by omega), h.rest, List.take_left]
  rfl

theorem At.readMark {mark : UInt8} (h : At rb (mark :: more)) :
    ∃ rb', rb.readUint 1 = some (.ok, mark.toNat, rb') ∧ At rb' more ∧
      rb'.capacity = rb.capacity := by
  have hat : At rb ([mark] ++ more) := h
  refine ⟨_, ?_, hat.skip, rfl⟩
  exact RBuffer.readUint_of_rest hat.rest h.ok.size.ge h.ok.cursor

theorem At.peekMark {mark : UInt8} (h : At rb (mark :: more)) :
    rb.peekUint 1 = some (.ok, mark.toNat) := by
  have hlen := h.length
  rw [List.length_cons] at hlen
  rw [RBuffer.peekUint, if_pos (by omega), RBuffer.load_cursor (by omega), h.rest]
  rfl

end Awtk.UiLoaderDefault
