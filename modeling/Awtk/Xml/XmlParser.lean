import Awtk.Lib.Loop
import Awtk.Tkc.CStr

/-!
# The XML parser

A model of `xml_parser.c`.  The parser moves a pointer over a text and tells a builder what
it finds.  A cursor is the text in front of the pointer, the last character first, and the
text from the pointer on.  A function has no result where the source accesses memory outside
of its text and its buffer.

Lines and columns are left out, so a CR and a LF behind it can be handled one after the
other where nothing else depends on them.
-/

namespace Awtk.Xml

/-- The errors that are reported. -/
inductive Error where
  | invalidAfterLt (c : UInt8)
  | invalidAfterBang (c : UInt8)
  | invalidAfterDash (c : UInt8)
  | incompleteTag
  | invalidTagName (name : Str)
  | invalidEndTagName (name : Str)
  | invalidPiName (name : Str)
  | invalidAttrName (name : Str)
  | duplicateAttr (name : Str)
  | missingValue (name : Str)
  | missingEqual
  | unquotedValue
  | emptyEndTag
  | extraEndTag
  | mismatchedEndTag (expected found : Str)
  | unclosedTag (tag : Str)
  | unclosedDoctype
  | unclosedComment
  | unclosedPi
  | invalidPiEnd
  deriving DecidableEq, Repr

/-- What the builder is told. -/
inductive Event where
  | start (tag : Str) (attrs : List (Str × Str))
  | stop (tag : Str)
  | text (s : Str)
  | comment (s : Str)
  | pi (tag : Option Str) (attrs : List (Str × Str))
  | error (e : Error)
  deriving DecidableEq, Repr

/-- `XML_PARSER_REPORT_ERROR_NEVER`, `_ONCE` and `_ALWAYS`. -/
inductive ReportErrorMode where
  | never
  | once
  | always
  deriving DecidableEq, Repr

/-! ## The pointer -/

/-- `read_ptr`. -/
structure Cursor where
  before : Str
  after : Str
  deriving DecidableEq

namespace Cursor

/-- `read_ptr[0]`. -/
def char (cur : Cursor) : UInt8 := cur.after.headD 0

/-- `read_ptr[-1]`. -/
def prev (cur : Cursor) : Option UInt8 := cur.before.head?

/-- `read_ptr++`, which is followed by a read. -/
def next : Cursor → Option Cursor
  | ⟨before, c :: after⟩ => some ⟨c :: before, after⟩
  | ⟨_, []⟩ => none

/-- `read_ptr--`. -/
def back : Cursor → Option Cursor
  | ⟨c :: before, after⟩ => some ⟨before, c :: after⟩
  | ⟨[], _⟩ => none

/-- Move over the characters that meet a condition, up to the end of the text. -/
def skipWhile (p : UInt8 → Bool) (cur : Cursor) : Cursor :=
  ⟨(cur.after.takeWhile p).reverse ++ cur.before, cur.after.dropWhile p⟩

end Cursor

/-! ## The parser -/

/-- `XmlParser`, with the string at the start of the buffer, if there is a buffer.  The tag
on the top of the stack is the first. -/
structure XmlParser where
  trimText : Bool
  reportErrorMode : ReportErrorMode
  hasError : Bool
  attrs : List (Str × Str)
  buffer : Option Str
  bufferUsed : Nat
  tagStack : List Str
  events : List Event

def strtrim (s : Str) : Str := (s.reverse.dropWhile isSpace).reverse.dropWhile isSpace

def isValidTagName : Str → Bool
  | [] => false
  | c :: s =>
    (isAlpha c || c = '_') &&
      s.all fun c => isAlpha c || isDigit c || c = '_' || c = '-' || c = '.' || c = ':'

def isValidAttrName (name : Str) : Bool := isValidTagName name

namespace XmlParser

/-- `xml_parser_create` with the settings. -/
def create (trimText : Bool) (mode : ReportErrorMode) : XmlParser :=
  { trimText := trimText, reportErrorMode := mode, hasError := false, attrs := [], buffer := none,
    bufferUsed := 0, tagStack := [], events := [] }

/-- A call of the builder. -/
def emit (p : XmlParser) (e : Event) : XmlParser := { p with events := p.events ++ [e] }

def shouldReportError (p : XmlParser) : Bool :=
  match p.reportErrorMode with
  | .never => false
  | .always => true
  | .once => !p.hasError

/-- `xml_parser_report_error`. -/
def report (p : XmlParser) (e : Error) : XmlParser :=
  if p.shouldReportError then { p with hasError := true }.emit (.error e) else p

/-- An error that is reported under a condition. -/
def check (p : XmlParser) (ok : Bool) (e : Error) : XmlParser := if ok then p else p.report e

def resetBuffer (p : XmlParser) : XmlParser := { p with bufferUsed := 0, attrs := [] }

/-- `xml_parser_strdup`.  To trim an empty string at the start of the buffer, `strtrim` reads
what is in front of the buffer. -/
def strdup (p : XmlParser) (s : Str) (trim : Bool) : Option (Str × XmlParser) :=
  if trim ∧ s = [] ∧ p.bufferUsed = 0 then none
  else
    let copy := if trim then strtrim s else s
    some (copy, { p with
      bufferUsed := p.bufferUsed + s.length + 1,
      buffer := if p.bufferUsed = 0 then some copy else p.buffer })

def pushTag (p : XmlParser) (tag : Str) : XmlParser := { p with tagStack := tag :: p.tagStack }

def popTag (p : XmlParser) (tag : Str) : XmlParser :=
  match p.tagStack with
  | [] => p.report .extraEndTag
  | expected :: tags => { p.check (expected = tag) (.mismatchedEndTag expected tag) with tagStack := tags }

def checkUnclosedTags (p : XmlParser) : XmlParser :=
  { p.tagStack.foldl (fun p tag => p.report (.unclosedTag tag)) p with tagStack := [] }

/-! ## Attributes -/

def checkDuplicateAttrs (p : XmlParser) (name : Str) : XmlParser :=
  p.check (p.attrs.all (·.1 ≠ name)) (.duplicateAttr name)

/-- The states of `xml_parser_parse_attrs`, with the characters from `key_start` and from
`start` on. -/
inductive AttrState where
  | preKey
  | key (key : Str)
  | preEqual (key : Str)
  | preValue (key : Str)
  | value (key : Str) (valueEnd : UInt8) (value : Str)
  | done
  deriving DecidableEq

/-- A line break does not change the state, but it belongs to what is copied. -/
def AttrState.keep (c : UInt8) : AttrState → AttrState
  | .key name => .key (name ++ [c])
  | .value name quote s => .value name quote (s ++ [c])
  | st => st

def preKeyTurn (endChar c : UInt8) : AttrState :=
  if c = endChar ∨ c = '>' then .done else if isSpace c then .preKey else .key [c]

def preValueTurn (c : UInt8) (key : Str) (p : XmlParser) : AttrState × XmlParser :=
  if c = '\"' ∨ c = '\'' then (.value key c [], p)
  else if isSpace c then (.preValue key, p)
  else (.value key ' ' [c], p.report .unquotedValue)

/-- The end of a name.  It is used also when it is invalid. -/
def checkAttrName (p : XmlParser) (name : Str) : XmlParser :=
  if isValidAttrName name then p.checkDuplicateAttrs name else p.report (.invalidAttrName name)

/-- A name and a value are copied to the buffer. -/
def addAttr (p : XmlParser) (key value : Str) : Option XmlParser := do
  let (name, p) ← p.strdup key true
  let (value, p) ← p.strdup value false
  some { p with attrs := p.attrs ++ [(name, value)] }

/-- One character.  Where the source steps back, the same character is handled again in the
new state. -/
def attrTurn (endChar c : UInt8) (p : XmlParser) : AttrState → Option (AttrState × XmlParser)
  | .preKey => some (preKeyTurn endChar c, p)
  | .key key =>
    if c = '=' then some (.preValue key, p.checkAttrName key)
    else if c = endChar ∨ c = '>' then some (.done, (p.checkAttrName key).report (.missingValue key))
    else if isSpace c then some (.preEqual key, p.checkAttrName key)
    else some (.key (key ++ [c]), p)
  | .preEqual key =>
    if c = '=' then some (.preValue key, p)
    else if isSpace c then some (.preEqual key, p)
    else if c = '\"' ∨ c = '\'' then some (preValueTurn c key (p.report .missingEqual))
    else some (preKeyTurn endChar c, p.report .missingEqual)
  | .preValue key => some (preValueTurn c key p)
  | .value key valueEnd value =>
    if c = valueEnd ∨ (valueEnd = ' ' ∧ (isSpace c ∨ c = endChar ∨ c = '>')) then
      (p.addAttr key value).map fun p =>
        (if valueEnd = ' ' ∧ (c = endChar ∨ c = '>') then preKeyTurn endChar c else .preKey, p)
    else some (.value key valueEnd (value ++ [c]), p)
  | .done => some (.done, p)

/-- The loop of `xml_parser_parse_attrs`. -/
def attrLoop (endChar : UInt8) : Str → Str → AttrState → XmlParser → Option (XmlParser × Cursor)
  | [], before, _, p => some (p, ⟨before, []⟩)
  | c :: after, before, st, p =>
    if c = '\n' ∨ c = '\r' then attrLoop endChar after (c :: before) (st.keep c) p
    else
      (attrTurn endChar c p st).bind fun (st, p) =>
        if st = .done then some (p, ⟨before, c :: after⟩)
        else attrLoop endChar after (c :: before) st p

def parseAttrs (p : XmlParser) (endChar : UInt8) (cur : Cursor) : Option (XmlParser × Cursor) :=
  attrLoop endChar cur.after cur.before .preKey { p with attrs := [] }

/-! ## Tags -/

/-- The end of the name of a start tag. -/
def isNameEnd (c : UInt8) : Bool := isSpace c || c = '>' || c = '/'

/-- The name and the attributes of a start tag.  Without an end of the name the start of the
buffer is taken for it. -/
def parseName (p : XmlParser) (cur : Cursor) : Option (Str × XmlParser × Cursor) :=
  cur.prev.bind fun first =>
    let stop := cur.skipWhile (!isNameEnd ·)
    match stop.after with
    | [] => p.buffer.map fun tag => (tag, p, stop)
    | c :: after =>
      (p.strdup (first :: cur.after.takeWhile (!isNameEnd ·)) true).bind fun (tag, p) =>
        if c = '>' ∨ c = '/' then some (tag, p, stop)
        else if after = [] then some (tag, p, ⟨c :: stop.before, []⟩)
        else (p.parseAttrs '/' ⟨c :: stop.before, after⟩).map fun (p, cur) => (tag, p, cur)

def parseStartTag (p : XmlParser) (cur : Cursor) : Option (XmlParser × Cursor) :=
  (p.parseName cur).map fun (tag, p, cur) =>
    let p := (p.check (isValidTagName tag) (.invalidTagName tag)).emit (.start tag p.attrs)
    (if cur.char = '/' then p.emit (.stop tag) else p.pushTag tag, cur.skipWhile (· ≠ '>'))

def parseEndTag (p : XmlParser) (cur : Cursor) : Option (XmlParser × Cursor) :=
  let stop := cur.skipWhile (· ≠ '>')
  let name := cur.after.takeWhile fun c : UInt8 => c ≠ '>'
  if stop.after = [] then some (p, stop)
  else if name = [] then some (p.report .emptyEndTag, stop)
  else
    (p.strdup (name.reverse.dropWhile isSpace).reverse true).map fun (tag, p) =>
      let p := p.check (isValidTagName tag) (.invalidEndTagName tag)
      ((p.popTag tag).emit (.stop tag), stop)

/-! ## Declarations, comments and instructions -/

def parseDoctype (p : XmlParser) (cur : Cursor) : Option (XmlParser × Cursor) :=
  cur.back.map fun cur =>
    let stop := cur.skipWhile (· ≠ '>')
    (p.check (stop.after ≠ []) .unclosedDoctype, stop)

/-- The states of `xml_parser_parse_comment`. -/
inductive CommentState where
  | comment
  | minus1
  | minus2
  deriving DecidableEq

/-- The loop of `xml_parser_parse_comment`, with the characters from `start` on. -/
def commentLoop : Str → Str → CommentState → Str → Option Str × Cursor
  | [], before, _, _ => (none, ⟨before, []⟩)
  | c :: after, before, st, text =>
    if c = '\n' ∨ c = '\r' then commentLoop after (c :: before) st (text ++ [c])
    else
      match st with
      | .comment => commentLoop after (c :: before) (if c = '-' then .minus1 else .comment) (text ++ [c])
      | .minus1 => commentLoop after (c :: before) (if c = '-' then .minus2 else .comment) (text ++ [c])
      | .minus2 =>
        if c = '>' then (some (text.take (text.length - 2)), ⟨before, c :: after⟩)
        else commentLoop after (c :: before) (if c = '-' then .minus2 else .comment) (text ++ [c])

def parseComment (p : XmlParser) (cur : Cursor) : Option (XmlParser × Cursor) :=
  cur.next.map fun cur =>
    match commentLoop cur.after cur.before .comment [] with
    | (some text, cur) => (p.emit (.comment text), cur)
    | (none, cur) => (p.report .unclosedComment, cur)

/-- The end of the name of an instruction.  A line break is no end. -/
def isPiNameEnd (c : UInt8) : Bool := (isSpace c && c ≠ '\n' && c ≠ '\r') || c = '?' || c = '>'

/-- The name and the attributes of an instruction. -/
def parsePiName (p : XmlParser) (cur : Cursor) : Option (Option Str × XmlParser × Cursor) :=
  let stop := cur.skipWhile (!isPiNameEnd ·)
  let name := cur.after.takeWhile (!isPiNameEnd ·)
  match stop.after with
  | [] => some (p.buffer, p, stop)
  | c :: after =>
    (p.strdup name true).bind fun (tag, p) =>
      let p := p.check (name = [] ∨ isValidTagName name) (.invalidPiName name)
      if c = '?' ∨ c = '>' then some (some tag, p, stop)
      else
        let cur := (⟨c :: stop.before, after⟩ : Cursor).skipWhile fun c => c = '\n' ∨ c = '\r'
        if cur.after = [] then some (some tag, p, cur)
        else (p.parseAttrs '?' cur).map fun (p, cur) => (some tag, p, cur)

/-- The end of an instruction. -/
def parsePiEnd (p : XmlParser) (cur : Cursor) : Bool × XmlParser × Cursor :=
  match cur.after with
  | c :: after =>
    if c = '?' then
      let cur : Cursor := ⟨c :: cur.before, after⟩
      (cur.char = '>', p.check (cur.char = '>') .invalidPiEnd, cur)
    else (false, p, cur)
  | [] => (false, p, cur)

def parsePi (p : XmlParser) (cur : Cursor) : Option (XmlParser × Cursor) :=
  (p.parsePiName cur).map fun (tag, p, cur) =>
    let (foundEnd, p, cur) := p.parsePiEnd cur
    ((p.emit (.pi tag p.attrs)).check foundEnd .unclosedPi, cur.skipWhile (· ≠ '>'))

/-! ## Text -/

def cdataStart : Str := ['<', '!', '[', 'C', 'D', 'A', 'T', 'A', '[']

def cdataEnd : Str := [']', ']', '>']

/-- The text in front of the first end of a CDATA section. -/
def cdata : Str → Option Str
  | [] => none
  | c :: s => if cdataEnd.isPrefixOf (c :: s) then some [] else (cdata s).map (c :: ·)

/-- The loop of `xml_parser_parse_text`, with the number of characters that are moved over.
The end of an unclosed CDATA section is looked for behind the text. -/
def textLoop : Str → Str → Nat → Str → Option (Str × Cursor)
  | [], before, _, s => some (s, ⟨before, []⟩)
  | c :: after, before, skip + 1, s => textLoop after (c :: before) skip s
  | c :: after, before, 0, s =>
    if c = '\r' ∧ after.head? = some (10 : UInt8) then textLoop after (c :: before) 1 (s ++ (['\n'] : Str))
    else if c = '\n' ∨ c = '\r' then textLoop after (c :: before) 0 (s ++ (['\n'] : Str))
    else if c = '<' then
      if cdataStart.isPrefixOf (c :: after) then
        match cdata (after.drop 8) with
        | some data => textLoop after (c :: before) (8 + data.length + 3) (s ++ data)
        | none => none
      else (Cursor.back ⟨before, c :: after⟩).map fun cur => (s, cur)
    else textLoop after (c :: before) 0 (s ++ [c])

def onText (p : XmlParser) (s : Str) : XmlParser :=
  if s = [] then p
  else if p.trimText then p.emit (.text ((s.dropWhile isSpace).reverse.dropWhile isSpace).reverse)
  else p.emit (.text s)

def parseText (p : XmlParser) (cur : Cursor) : Option (XmlParser × Cursor) :=
  cur.back.bind fun cur =>
    (textLoop cur.after cur.before 0 []).map fun (s, cur) => (p.onText s, cur)

end XmlParser

/-! ## The driver -/

/-- The states of `xml_parser_parse`. -/
inductive State where
  | none
  | afterLt
  | startTag
  | endTag
  | text
  | preComment1
  | preComment2
  | comment
  | doctype
  | processInstruction
  deriving DecidableEq, Repr

/-- The variables of `xml_parser_parse`. -/
structure Driver where
  parser : XmlParser
  state : State
  cur : Cursor

namespace Driver

/-- Back in `STAT_NONE`. -/
def toNone (x : Option (XmlParser × Cursor)) : Option Driver :=
  x.map fun (p, cur) => ⟨p, .none, cur⟩

def afterLt (p : XmlParser) (cur : Cursor) : Driver :=
  let cur := cur.skipWhile isSpace
  let c := cur.char
  if c = '?' then ⟨p, .processInstruction, cur⟩
  else if c = '/' then ⟨p, .endTag, cur⟩
  else if c = '!' then ⟨p, .preComment1, cur⟩
  else if isAlpha c ∨ c = '_' ∨ c = ':' then ⟨p, .startTag, cur⟩
  else ⟨p.check (cur.prev ≠ some ('<' : UInt8)) (.invalidAfterLt c), .afterLt, cur⟩

def preComment1 (c : UInt8) (p : XmlParser) (cur : Cursor) : Option Driver :=
  if c = '-' then some ⟨p, .preComment2, cur⟩
  else if c = 'D' ∨ c = 'd' then some ⟨p, .doctype, cur⟩
  else if c = '[' ∧ (XmlParser.cdataStart.drop 2).isPrefixOf cur.after then
    toNone (cur.back.bind p.parseText)
  else some ⟨p.check (cur.prev ≠ some ('!' : UInt8)) (.invalidAfterBang c), .preComment1, cur⟩

/-- The `switch`. -/
def handle (c : UInt8) (p : XmlParser) (cur : Cursor) : State → Option Driver
  | .none =>
    if c = '<' then some ⟨p.resetBuffer, .afterLt, cur⟩
    else if !p.trimText ∨ !isSpace c then some ⟨p, .text, cur⟩
    else some ⟨p, .none, cur⟩
  | .afterLt => some (afterLt p cur)
  | .startTag => toNone (p.parseStartTag cur)
  | .endTag => toNone (p.parseEndTag cur)
  | .processInstruction => toNone (p.parsePi cur)
  | .text => toNone (p.parseText cur)
  | .preComment1 => preComment1 c p cur
  -- The case for the second `-` falls through.
  | .preComment2 =>
    toNone ((p.check (c = '-' ∨ cur.prev ≠ some ('-' : UInt8)) (.invalidAfterDash c)).parseComment cur)
  | .comment => toNone (p.parseComment cur)
  | .doctype => toNone (p.parseDoctype cur)

/-- What is checked at the end. -/
def finish (d : Driver) : XmlParser :=
  (d.parser.check (d.state ≠ .afterLt) .incompleteTag).checkUnclosedTags

/-- The pointer on the LF of a CRLF. -/
def newline (c : UInt8) (before after : Str) : Cursor :=
  if c = '\r' ∧ after.head? = some (10 : UInt8) then ⟨c :: before, after⟩ else ⟨before, c :: after⟩

/-- The end of a turn: the loop is left at the end of the text, or the pointer moves on. -/
def endTurn (d : Driver) : Turn Driver XmlParser :=
  match d.cur.next with
  | none => .done d.finish
  | some cur => .next { d with cur := cur }

/-- One turn of the loop. -/
def turn (d : Driver) : Turn Driver XmlParser :=
  match d.cur.after with
  | [] => .done d.finish
  | c :: after =>
    match handle c d.parser (newline c d.cur.before after) d.state with
    | none => .fault
    | some d => d.endTurn

/-- The state before the first character. -/
def init (p : XmlParser) (xml : Str) : Driver :=
  ⟨{ p with hasError := false, tagStack := [] }, .none, ⟨[], xml⟩⟩

end Driver

def xmlParserParse (p : XmlParser) (xml : Str) : Outcome XmlParser :=
  Loop.run Driver.turn (8 * xml.length + 8) (Driver.init p xml)

end Awtk.Xml
