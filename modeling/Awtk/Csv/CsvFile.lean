import Mathlib
import Awtk.Tkc.CStr
import Awtk.Tkc.Types

/-!
# CSV files

A row is one buffer: its cells stand one after the other, each with its NUL.  Saving puts
a cell in quotes where it needs them.  Loading reads a line and takes the quotes
away in place, in the buffer that holds the line.
-/

namespace Awtk.Csv

/-! ## Rows -/

/-- `csv_row_t`.  The cells are in front of `size`. -/
structure CsvRow where
  buff : List UInt8
  size : Nat
  deriving DecidableEq, Repr

/-- The C string at an offset of a buffer. -/
def cstrAt (buff : List UInt8) (i : Nat) : Str := (buff.drop i).takeWhile (· ≠ 0)

/-- The walk over the cells that the functions on a row share, from an offset. -/
def csvRowCellsFrom (row : CsvRow) : Nat → Nat → List Str
  | 0, _ => []
  | fuel + 1, i =>
    if i < row.size then
      let p := cstrAt row.buff i
      p :: csvRowCellsFrom row fuel (i + p.length + 1)
    else []

def csvRowCells (row : CsvRow) : List Str := csvRowCellsFrom row row.size 0

def csvRowGet (row : CsvRow) (col : Nat) : Option Str := (csvRowCells row)[col]?

def csvRowCountCols (row : CsvRow) : Nat := (csvRowCells row).length

/-! ## Saving -/

/-- The characters of a cell in quotes. -/
def escaped : Str → Str
  | [] => []
  | c :: p => if c = '\\' ∨ c = '"' then ('\\' : UInt8) :: c :: escaped p else c :: escaped p

/-- `strchr` finds the NUL of a string too. -/
def strchr (p : Str) (c : UInt8) : Bool := c = 0 || p.contains c

def csvColToStr (p : Str) (sep : UInt8) : Str :=
  if strchr p sep || strchr p '"' then ('"' : UInt8) :: (escaped p ++ [('"' : UInt8)]) else p

/-- `csv_row_to_str`.  The last separator is taken away. -/
def csvRowToStr (row : CsvRow) (sep : UInt8) : Str :=
  ((csvRowCells row).flatMap fun p => csvColToStr p sep ++ [sep]).dropLast ++
    [('\r' : UInt8), ('\n' : UInt8)]

/-! ## Parsing a row -/

/-- The locals of `csv_row_parse` and the buffer it works on. -/
structure CsvParse where
  buff : List UInt8
  s : Nat
  d : Nat
  escape : Bool
  inQuota : Bool

/-- `*d++ = c`. -/
def CsvParse.put (st : CsvParse) (c : UInt8) : CsvParse :=
  { st with buff := st.buff.set st.d c, d := st.d + 1 }

/-- What the body of the loop does with a character. -/
def csvRowParseChar (sep : UInt8) (st : CsvParse) (c : UInt8) : CsvParse :=
  if st.inQuota then
    if st.escape then { st.put c with escape := false }
    else if c = '"' then { st with inQuota := false }
    else if c = '\\' then { st with escape := true }
    else st.put c
  else if c = sep then st.put 0
  else if c = '"' then { st with inQuota := true }
  else st.put c

def csvRowParseLoop (sep : UInt8) : Nat → CsvParse → CsvParse
  | 0, st => st
  | fuel + 1, st =>
    match st.buff[st.s]? with
    | none => st
    | some c =>
      if c = 0 then st
      else csvRowParseLoop sep fuel (csvRowParseChar sep { st with s := st.s + 1 } c)

/-- `csv_row_parse`.  It sets the size. -/
def csvRowParse (buff : List UInt8) (sep : UInt8) : CsvRow :=
  let st := csvRowParseLoop sep buff.length ⟨buff, 0, 0, false, false⟩
  ⟨st.buff.set st.d 0, st.d + 1⟩

/-- What parsing writes over the characters of a line. -/
def parsed (sep : UInt8) : Bool → Bool → Str → List UInt8
  | _, _, [] => []
  | false, escape, c :: t =>
    if c = sep then 0 :: parsed sep false escape t
    else if c = '"' then parsed sep true escape t
    else c :: parsed sep false escape t
  | true, true, c :: t => c :: parsed sep true false t
  | true, false, c :: t =>
    if c = '"' then parsed sep false false t
    else if c = '\\' then parsed sep true true t
    else c :: parsed sep true false t

/-! ## Reading lines -/

/-- `tk_istream_mem_t` without packets. -/
structure IStreamMem where
  buff : List UInt8
  cursor : Nat

namespace IStreamMem

def eos (input : IStreamMem) : Bool := input.buff.length ≤ input.cursor

def read (input : IStreamMem) (maxSize : Nat) : List UInt8 × IStreamMem :=
  let line := (input.buff.drop input.cursor).take maxSize
  (line, { input with cursor := input.cursor + line.length })

def seek (input : IStreamMem) (offset : Nat) : IStreamMem :=
  if offset ≤ input.buff.length then { input with cursor := offset } else input

def isEndLine (c : UInt8) : Bool := c = '\r' || c = '\n'

/-- The index behind the end of line that starts at an index.  Where a line feed would be
the first character behind what was read, it does not matter if it is counted. -/
def skipEndLine (text : List UInt8) (i : Nat) : Nat :=
  if text[i]? = some ('\r' : UInt8) then
    if text[i + 1]? = some ('\n' : UInt8) then i + 2 else i + 1
  else i + 1

/-- The loop of `tk_istream_read_line_str`.  A `line` has 64 bytes. -/
def readLineStrLoop : Nat → IStreamMem → Str → Str × IStreamMem
  | 0, input, str => (str, input)
  | fuel + 1, input, str =>
    if input.eos then (str, input)
    else
      let (line, input) := input.read 63
      let i := (line.takeWhile fun c => !isEndLine c).length
      let str := str ++ line.take i
      if i = line.length then readLineStrLoop fuel input str
      else
        let i := skipEndLine line i
        if i < line.length then (str, input.seek (input.cursor - (line.length - i)))
        else (str, input)

/-- `tk_istream_read_line_str`.  There is no line at the end of the stream. -/
def readLineStr (input : IStreamMem) : Option (Str × IStreamMem) :=
  if input.eos then none else some (readLineStrLoop input.buff.length input [])

end IStreamMem

/-! ## Files -/

/-- `csv_file_t`.  The filter sees the rows so far, the index of the line and the row. -/
structure CsvFile where
  rows : List CsvRow
  cols : Nat
  hasTitle : Bool
  sep : UInt8
  filter : Option (List CsvRow → Nat → CsvRow → Ret)

def csvFileCreateEmpty (sep : UInt8) (filter : Option (List CsvRow → Nat → CsvRow → Ret)) :
    CsvFile :=
  ⟨[], 0, false, sep, filter⟩

def utf8Bom : List UInt8 := [0xEF, 0xBB, 0xBF]

/-- The text of a line: a byte order mark is skipped while there are no rows, then
what is malformed is. -/
def lineText (first : Bool) (str : Str) : Str :=
  let p := if first ∧ str.take 3 = utf8Bom then str.drop 3 else str
  p.dropWhile (· = 0)

/-- The row of a text, from its copy. -/
def csvRowOfText (p : Str) (sep : UInt8) : CsvRow :=
  csvRowParse (p.takeWhile (· ≠ 0) ++ [0]) sep

/-- The loop of `csv_file_load_input`. -/
def csvFileLoadLines : Nat → CsvFile → IStreamMem → Nat → CsvFile
  | 0, csv, _, _ => csv
  | fuel + 1, csv, input, index =>
    match input.readLineStr with
    | none => csv
    | some (str, input) =>
      let p := lineText csv.rows.isEmpty str
      if p = [] then csvFileLoadLines fuel csv input index
      else
        let r := csvRowOfText p csv.sep
        let rows := csv.rows ++ [r]
        match csv.filter with
        | none => csvFileLoadLines fuel { csv with rows } input (index + 1)
        | some filter =>
          match filter rows index r with
          | .stop => { csv with rows }
          | .fail => csvFileLoadLines fuel csv input (index + 1)
          | _ => csvFileLoadLines fuel { csv with rows } input (index + 1)

/-- The columns are those of the first row.  A first row of one column is a title, where the second
row has more. -/
def csvFileSetCols (csv : CsvFile) : CsvFile :=
  match csv.rows with
  | [] => csv
  | r :: rest =>
    let cols0 := csvRowCountCols r
    if cols0 = 1 then
      let cols1 := (rest.head?.map csvRowCountCols).getD 0
      { csv with cols := max cols0 cols1, hasTitle := if cols0 < cols1 then true else csv.hasTitle }
    else { csv with cols := cols0 }

def csvFileLoadInput (csv : CsvFile) (input : IStreamMem) : CsvFile :=
  csvFileSetCols (csvFileLoadLines (input.buff.length + 1) csv input 0)

def csvFileLoadBuff (csv : CsvFile) (buff : List UInt8) : CsvFile × Ret :=
  if buff = [] then (csv, .badParams)
  else (csvFileLoadInput { csv with rows := [] } ⟨buff, 0⟩, .ok)

def csvFileSaveToBuff (csv : CsvFile) : List UInt8 :=
  csv.rows.flatMap fun r => csvRowToStr r csv.sep

end Awtk.Csv
