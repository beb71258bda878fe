import Awtk.Lib.Run
import Awtk.Tkc.Types
import Awtk.Lib.Loop

/-!
# The text editor

A model of the text, the cursor and the selection of a `text_edit_t`.  `cursor`, `selectStart` and
`selectEnd` are `int` fields, here the `uint32_t` of the same bits.  What the fonts, the width of the widget
and the rows decide is an argument of an operation: the number of characters that a layout covers, and
whether there is memory.

An operation gives `none` where it looks at characters behind the terminator of the text.
-/

namespace Awtk

/-- `wchar_t`. -/
abbrev WChar := UInt32

/-- The fields of `text_edit_impl_t` that the operations read, and the text of its widget. -/
structure TextEdit where
  text : List WChar
  cursor : Nat
  selectStart : Nat
  selectEnd : Nat
  singleLine : Bool
  maxChars : Nat
  preedit : Bool
  preeditCharsNr : Nat
  /-- `rows->capacity`. -/
  maxRows : Nat
  lastRowNumber : Nat
  deriving DecidableEq, Repr

namespace TextEdit

/-- What a layout does: the characters that its rows cover, and the number of the last row. -/
structure Layout where
  covered : Nat
  lastRowNumber : Nat
  deriving DecidableEq, Repr

/-- `text_edit_create` for a widget with a text. -/
def create (text : List WChar) (singleLine : Bool) : TextEdit where
  text := text
  cursor := 0
  selectStart := 0
  selectEnd := 0
  singleLine := singleLine
  maxChars := 0
  preedit := false
  preeditCharsNr := 0
  maxRows := if singleLine then 1 else 100
  lastRowNumber := 0

/-! ## Wide strings -/

/-- `wstr_remove`, or `none` where it moves characters from behind the text. -/
def wstrRemove (str : List WChar) (offset nr : Nat) : Option (List WChar) :=
  if offset < str.length ∧ 0 < nr then
    let nr := if str.length < U32.add offset nr then str.length - offset else nr
    if offset + nr ≤ str.length then some (str.take offset ++ str.drop (offset + nr)) else none
  else some str

/-- `wstr_insert`, where there is memory for it or not. -/
def wstrInsert (memory : Bool) (str : List WChar) (offset : Nat) (text : List WChar) : List WChar :=
  if offset ≤ str.length ∧ text ≠ [] ∧ memory then str.take offset ++ text ++ str.drop offset
  else str

/-! ## Inserting characters -/

def wcharIsLineBreak (c : WChar) : Bool := c = 13 || c = 10

/-- The loop of `text_edit_insert`: from index `i` on, how many characters have no more line breaks than the
rows have room for. -/
def insertLimit : (lineBreakNum i : Nat) → List WChar → Nat
  | _, i, [] => i
  | n, i, [c] =>
    let n := if wcharIsLineBreak c then U32.sub n 1 else n
    if n = 0 then i else i + 1
  | n, i, c :: c' :: cs =>
    if c = 13 ∧ c' = 10 then
      let n := U32.sub n 1
      if n = 0 then i + 1 else insertLimit n (i + 2) cs
    else
      let n := if wcharIsLineBreak c then U32.sub n 1 else n
      if n = 0 then i else insertLimit n (i + 1) (c' :: cs)

/-- The number of characters that `text_edit_insert` inserts. -/
def insertNum (s : TextEdit) (newtext : List WChar) : Nat :=
  let num := insertLimit (s.maxRows - s.lastRowNumber) 0 newtext
  if 0 < s.maxChars then min num (s.maxChars - s.text.length) else num

def insert (memory : Bool) (s : TextEdit) (pos : Nat) (newtext : List WChar) : Nat × TextEdit :=
  let num := s.insertNum newtext
  (num, { s with text := wstrInsert memory s.text pos (newtext.take num) })

/-! ## Operations -/

/-- `text_edit_layout`: characters that no row covers are cut off. -/
def layout (s : TextEdit) (o : Layout) : TextEdit :=
  { s with text := s.text.take o.covered, lastRowNumber := o.lastRowNumber }

def setCursor (s : TextEdit) (cursor : Nat) (o : Layout) : TextEdit :=
  let cursor := if s.text.length < cursor then s.text.length else cursor
  if s.cursor ≠ cursor then
    let s := { s with cursor := cursor }
    if s.singleLine then s.layout o else s
  else s

def setSelect (s : TextEdit) (start finish : Nat) (o : Layout) : TextEdit :=
  let (start, finish) := if finish < start then (finish, start) else (start, finish)
  { s with selectStart := start, selectEnd := min finish s.text.length }.layout o

def selectAll (s : TextEdit) (o : Layout) : TextEdit := s.setSelect 0 s.text.length o

def unselect (s : TextEdit) (o : Layout) : TextEdit :=
  { s with selectEnd := s.selectStart }.layout o

/-- `text_edit_insert_text`, with the wide string.  A multi-line editor moves its rows, which covers all
characters, or makes a new layout. -/
def insertText (memory : Bool) (s : TextEdit) (offset : Nat) (wtext : List WChar) (o o' : Layout) :
    TextEdit :=
  let offset := min offset s.text.length
  let (len, s) := s.insert memory offset wtext
  if 0 < len then
    let s := s.layout o
    if U32.add offset len ≠ s.cursor then s.setCursor (U32.add offset len) o' else s
  else s

/-- `text_edit_preedit`. -/
def startPreedit (s : TextEdit) : TextEdit := { s with preedit := true, preeditCharsNr := 0 }

def preeditClear (s : TextEdit) : Option TextEdit :=
  if 0 < s.preeditCharsNr then do
    let text ← wstrRemove s.text (U32.sub s.cursor s.preeditCharsNr) s.preeditCharsNr
    return { s with
      text := text
      cursor := U32.sub s.cursor s.preeditCharsNr
      preeditCharsNr := 0 }
  else some s

def preeditAbort (s : TextEdit) : Option TextEdit := { s with preedit := false }.preeditClear

def setMaxChars (s : TextEdit) (maxChars : Nat) : TextEdit := { s with maxChars := maxChars }

/-- The text, the cursor and the selection that `stb_textedit_paste` leaves. -/
structure StbResult where
  text : List WChar
  cursor : Nat
  selectStart : Nat
  selectEnd : Nat
  deriving DecidableEq, Repr

/-- `text_edit_paste` of so many characters. -/
def paste (s : TextEdit) (size : Nat) (r : StbResult) (o : Layout) : TextEdit :=
  { s with
    text := r.text
    cursor := r.cursor
    selectStart := r.selectStart
    selectEnd := r.selectEnd
    preeditCharsNr := if s.preedit then U32.add s.preeditCharsNr size else s.preeditCharsNr }.layout o

/-! ## Reading the selection -/

/-- The smaller and the larger end of the selection, which are compared as `int`. -/
def selection (s : TextEdit) : Nat × Nat :=
  if I32.ofU32 s.selectStart ≤ I32.ofU32 s.selectEnd then (s.selectStart, s.selectEnd)
  else (s.selectEnd, s.selectStart)

/-- The characters that `text_edit_copy` copies. -/
def copy (s : TextEdit) : Option (List WChar) :=
  let (start, finish) := s.selection
  if start < finish then
    if finish ≤ s.text.length then some ((s.text.drop start).take (finish - start)) else none
  else some []

/-- The characters from an index on that `tk_utf8_dup_utf16` converts, up to a terminator. -/
def readWide (text : List WChar) : (size i : Nat) → Option (List WChar)
  | 0, _ => some []
  | n + 1, i =>
    if i < text.length then
      let c := text.getD i 0
      if c = 0 then some [] else (readWide text n (i + 1)).map (c :: ·)
    else if i = text.length then some []
    else none

/-- The characters that `text_edit_get_selected_text` converts. -/
def getSelectedText (s : TextEdit) : Option (List WChar) :=
  let (start, finish) := s.selection
  readWide s.text (U32.sub finish start) start

/-! ## Runs -/

/-- An operation of the editor, with what the surroundings do. -/
inductive Op where
  | setCursor (cursor : UInt32) (o : Layout)
  | setSelect (start finish : UInt32) (o : Layout)
  | selectAll (o : Layout)
  | unselect (o : Layout)
  | insertText (memory : Bool) (offset : UInt32) (wtext : List WChar) (o o' : Layout)
  | preedit
  | preeditClear
  | preeditAbort
  | setMaxChars (maxChars : UInt32)
  | layout (o : Layout)
  | paste (size : UInt32) (r : StbResult) (o : Layout)
  | getSelectedText
  | copy

/-- One operation. -/
def step (s : TextEdit) : Op → Option TextEdit
  | .setCursor cursor o => some (s.setCursor cursor.toNat o)
  | .setSelect start finish o => some (s.setSelect start.toNat finish.toNat o)
  | .selectAll o => some (s.selectAll o)
  | .unselect o => some (s.unselect o)
  | .insertText memory offset wtext o o' => some (insertText memory s offset.toNat wtext o o')
  | .preedit => some s.startPreedit
  | .preeditClear => s.preeditClear
  | .preeditAbort => s.preeditAbort
  | .setMaxChars maxChars => some (s.setMaxChars maxChars.toNat)
  | .layout o => some (s.layout o)
  | .paste size r o => some (s.paste size.toNat r o)
  | .getSelectedText => s.getSelectedText.map fun _ => s
  | .copy => s.copy.map fun _ => s

/-! ## Bounds -/

/-- The cursor and the ends of the selection are in the text. -/
structure InBounds (s : TextEdit) : Prop where
  cursor : s.cursor ≤ s.text.length
  selectStart : s.selectStart ≤ s.text.length
  selectEnd : s.selectEnd ≤ s.text.length

instance (s : TextEdit) : Decidable s.InBounds :=
  decidable_of_iff
    (s.cursor ≤ s.text.length ∧ s.selectStart ≤ s.text.length ∧ s.selectEnd ≤ s.text.length)
    ⟨fun ⟨hc, hs, he⟩ => ⟨hc, hs, he⟩, fun h => ⟨h.cursor, h.selectStart, h.selectEnd⟩⟩

/-- A text has less than 2 ^ 31 characters, as an `int` counts them. -/
def Small (s : TextEdit) : Prop := s.text.length < 2 ^ 31

/-- A layout covers the characters up to an index. -/
def Layout.Covers (o : Layout) (n : Nat) : Prop := n ≤ o.covered

/-- A layout covers the characters up to the cursor and the selection. -/
structure Kept (s : TextEdit) (o : Layout) : Prop where
  cursor : o.Covers s.cursor
  selectStart : o.Covers s.selectStart
  selectEnd : o.Covers s.selectEnd

instance (s : TextEdit) (o : Layout) : Decidable (Kept s o) :=
  decidable_of_iff
    (s.cursor ≤ o.covered ∧ s.selectStart ≤ o.covered ∧ s.selectEnd ≤ o.covered)
    ⟨fun ⟨hc, hs, he⟩ => ⟨hc, hs, he⟩, fun h => ⟨h.cursor, h.selectStart, h.selectEnd⟩⟩

end TextEdit

end Awtk

/-!
## The layout of a multi-line text editor

A model of `text_edit_multi_line_layout_line` and of `text_edit_layout_impl`, with the checks for breaks of
a build without the break tables of Unicode.  The widths of the characters are an argument (`LayoutEnv`).
Lengths and widths of lines and the length of a row are `uint16_t`.

An index is looked at up to the terminator of the text, which is read as zero.
-/

namespace Awtk.TextEdit

/-- `break_type_t`. -/
inductive BreakType where
  | no
  | must
  | allow
  deriving DecidableEq, Repr

/-- `wchar_t` `'\n'`. -/
def newline : WChar := 10

/-- `wchar_t` `'\r'`. -/
def newliner : WChar := 13

def isSpace (c : WChar) : Bool := c = 32 || 9 ≤ c && c ≤ 13

def noStartSymbols : List WChar :=
  [',', '.', '?', '!', ')', '>', ':', ';', '，', '。', '？', '！', '》', '）', '：', '；'].map Char.val

def wordBreakCheck (c1 c2 : WChar) : BreakType :=
  if isSpace c1 ∨ isSpace c2 then .allow else .no

/-- `line_break_check`.  `wcschr` finds the terminator too. -/
def lineBreakCheck (c1 c2 : WChar) : BreakType :=
  if c2 ∈ noStartSymbols ∨ c2 = 0 then .no
  else if c1 = newliner ∨ c1 = newline then .must
  else wordBreakCheck c1 c2

/-- `line_info_t`. -/
structure LineInfo where
  offset : Nat
  length : Nat
  textW : Nat
  deriving DecidableEq, Repr

/-- `row_info_t`.  `line_num` is the number of the lines. -/
structure RowInfo where
  length : Nat
  lines : List LineInfo
  deriving DecidableEq, Repr

/-- What a layout takes from the widget and its canvas. -/
structure LayoutEnv where
  /-- `text_edit_measure_char`. -/
  charW : WChar → UInt32
  /-- The width of the view. -/
  w : UInt32
  wrapWord : Bool
  lineHeight : Nat
  cursor : Nat

/-- The character at an index, or the terminator. -/
def charAt (text : List WChar) (i : Nat) : WChar := text.getD i 0

/-- The variables of the loop of `text_edit_multi_line_layout_line`. -/
structure Scan where
  i : Nat
  x : Nat
  y : Nat
  offset : Nat
  lineIndex : Nat
  lastBreakableI : Nat
  lastBreakableX : Nat
  lastChar : WChar
  lines : List LineInfo
  /-- The position of the caret, once it is known. -/
  caret : Option (Nat × Nat)

/-- `last_line` gets its values. -/
def Scan.line (s : Scan) : LineInfo where
  offset := s.offset
  length := (s.i - s.offset) % 2 ^ 16
  textW := s.x % 2 ^ 16

/-- The scan goes back to the last break, or over a character that is alone too wide. -/
def Scan.back (s : Scan) : Scan :=
  let s := if 0 < s.lastBreakableX then
      { s with i := s.lastBreakableI + 1, x := s.lastBreakableX, lastBreakableX := 0 }
    else s
  if s.i = s.offset then { s with i := s.i + 1 } else s

/-- The line ends, and the next one starts with the character that the scan is at. -/
def Scan.wrap (env : LayoutEnv) (text : List WChar) (s : Scan) : Scan :=
  let s : Scan := s.back
  { s with
    i := s.i + 1
    x := (env.charW (charAt text s.i)).toNat
    y := s.y + env.lineHeight
    offset := s.i
    lineIndex := s.lineIndex + 1
    lines := s.lines ++ [s.line]
    caret := if env.cursor = s.i then some (0, s.y + env.lineHeight) else s.caret }

/-- A turn of the loop. -/
def scanTurn (env : LayoutEnv) (text : List WChar) (s : Scan) : Turn Scan Scan :=
  if s.i < text.length then
    let c := charAt text s.i
    let c' := charAt text (s.i + 1)
    let charW := (env.charW c).toNat
    let s : Scan := { s with
      lastChar := c
      caret := if s.i = env.cursor then some (s.x, s.y) else s.caret }
    let lineBreak := lineBreakCheck c c'
    if lineBreak = .must then .done { s with i := s.i + 1 }
    else if env.wrapWord then
      if env.w.toNat < U32.add s.x charW then .next (s.wrap env text)
      else
        let s : Scan := { s with x := U32.add s.x charW }
        if wordBreakCheck c c' = .allow ∧ lineBreak = .allow then
          .next { s with lastBreakableX := s.x, lastBreakableI := s.i, i := s.i + 1 }
        else .next { s with i := s.i + 1 }
    else .next { s with x := U32.add s.x charW, i := s.i + 1 }
  else .done s

/-- The loop starts at an offset. -/
def scanStart (env : LayoutEnv) (lineIndex offset : Nat) : Scan where
  i := offset
  x := 0
  y := lineIndex * env.lineHeight
  offset := offset
  lineIndex := lineIndex
  lastBreakableI := 0
  lastBreakableX := 0
  lastChar := 0
  lines := []
  caret := none

/-- The fields of the editor that a layout changes. -/
structure LayoutState where
  lastRowNumber : Nat
  lastLineNumber : Nat
  /-- The caret, its line and its row. -/
  caret : (Nat × Nat) × Nat × Nat
  deriving DecidableEq, Repr

/-- What follows the loop. -/
def finishRow (env : LayoutEnv) (text : List WChar) (rowNum offset0 : Nat) (st : LayoutState)
    (s : Scan) : RowInfo × LayoutState :=
  let ends := s.lastChar = newline
  let caret :=
    if s.i = env.cursor ∧ env.cursor = text.length then
      some (if ends then (0, s.y + env.lineHeight) else (s.x, s.y))
    else s.caret
  ({ length := (s.i - offset0) % 2 ^ 16, lines := s.lines ++ [s.line] },
    { lastRowNumber := if ends then rowNum + 1 else rowNum
      lastLineNumber := if ends then s.lineIndex + 1 else s.lineIndex
      caret := match caret with
        | some p => (p, s.lineIndex, rowNum)
        | none => st.caret })

/-- `text_edit_multi_line_layout_line`.  The loop is given enough turns for the text. -/
def layoutLine (env : LayoutEnv) (text : List WChar) (rowNum lineIndex offset : Nat)
    (st : LayoutState) : Option (RowInfo × LayoutState) :=
  match Loop.run (scanTurn env text) ((text.length + 2) * (text.length + 2))
      (scanStart env lineIndex offset) with
  | .result s => some (finishRow env text rowNum offset st s)
  | _ => none

/-- The loop of `text_edit_layout_impl`, with the number of rows that there is room for: the rows, and the
offset that they reach. -/
def layoutRows (env : LayoutEnv) (text : List WChar) :
    (room rowNum lineIndex offset : Nat) → LayoutState →
      Option (List RowInfo × Nat × LayoutState)
  | 0, _, _, offset, st => some ([], offset, st)
  | room + 1, rowNum, lineIndex, offset, st =>
    if offset < text.length ∨ text.length = 0 then do
      let (row, st) ← layoutLine env text rowNum lineIndex offset st
      if row.length = 0 then return ([], offset, st)
      else
        let (rows, offset, st) ← layoutRows env text room (rowNum + 1) (lineIndex + row.lines.length)
          (offset + row.length) st
        return (row :: rows, offset, st)
    else some ([], offset, st)

/-- The rows of a layout and the text that it leaves. -/
structure LayoutResult where
  rows : List RowInfo
  text : List WChar
  state : LayoutState
  deriving DecidableEq, Repr

/-- `text_edit_layout_impl` of a multi-line editor. -/
def layoutImpl (env : LayoutEnv) (maxRows : Nat) (text : List WChar) (st : LayoutState) :
    Option LayoutResult :=
  let st : LayoutState := { st with caret := ((0, 0), st.caret.2) }
  if env.w < env.charW (charAt text 0) then some ⟨[], text, st⟩
  else do
    let (rows, offset, st) ← layoutRows env text maxRows 0 0 0 st
    return ⟨rows, if offset < text.length then text.take offset else text, st⟩

end Awtk.TextEdit
