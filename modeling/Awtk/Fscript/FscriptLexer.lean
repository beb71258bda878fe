import Awtk.Tkc.CStr
import Awtk.Tkc.Types

/-!
# The tokens of fscript

The part of `fscript.c` that reads characters and tokens.  One character and one token can
be put back.  The text of a token is what `parser->temp` holds.  A loop has as many turns as
there are characters, so it never runs out of them.

Rows and columns are left out, and so is the id of the code that a comment may give.
-/

namespace Awtk.Fscript

/-- What a script is parsed to: the constants, and the calls. -/
inductive Node where
  | invalid
  | bool (b : Bool)
  | int32 (n : Int)
  | uint32 (n : Nat)
  | int64 (n : Int)
  | uint64 (n : Nat)
  | double (text : Str)
  | str (s : Str)
  | id (name : Str)
  | call (name : Str) (args : List Node)

/-- `token_type_t`. -/
inductive TokenType where
  | id
  | var
  | func
  | ret
  | funcDef
  | str
  | number
  | lparen
  | rparen
  | lbracket
  | rbracket
  | comma
  | semicolon
  | question
  | colon
  | eof
  deriving DecidableEq

/-- A function of the script: its name, its parameters and its statements. -/
structure FunctionDef where
  name : Str
  params : List Str
  body : List Node

/-- `fscript_parser_t`.  The cursor is the text from it on. -/
structure Parser where
  cursor : Str
  c : UInt8
  temp : Str
  type : TokenType
  valid : Bool
  error : Option String
  funcsDef : List FunctionDef

namespace Parser

def init (str : Str) : Parser := {
  cursor := str, c := 0, temp := [], type := .eof, valid := false, error := none, funcsDef := [] }

/-! ## Characters -/

def peekChar (p : Parser) : UInt8 := if p.c ≠ 0 then p.c else p.cursor.headD 0

def peekNextNonSpaceChar (p : Parser) : UInt8 :=
  if p.c ≠ 0 ∧ isSpace p.c = false then p.c else (p.cursor.dropWhile isSpace).headD 0

def getChar (p : Parser) : UInt8 × Parser :=
  if p.c ≠ 0 then (p.c, { p with c := 0 })
  else if p.cursor.headD 0 ≠ 0 then (p.cursor.headD 0, { p with cursor := p.cursor.tail })
  else (0, p)

def ungetChar (p : Parser) (c : UInt8) : Parser := { p with c := c }

/-- `parser->cursor--` behind the character `c`. -/
def back (p : Parser) (c : UInt8) : Parser :=
  if c ≠ 0 then { p with cursor := c :: p.cursor } else p

/-- `str_append_char`. -/
def append (p : Parser) (c : UInt8) : Parser := { p with temp := p.temp ++ [c] }

/-- More turns than a loop takes. -/
def turns (p : Parser) : Nat := p.cursor.length + 3

def setError (p : Parser) (message : String) : Parser := { p with error := some message }

/-! ## Blanks and comments -/

def skipSeperators : Nat → Parser → Option Parser
  | 0, _ => none
  | n + 1, p =>
    let (c, p) := p.getChar
    if isSpace c then skipSeperators n p else some (p.ungetChar c)

/-- The loop of `fscript_parser_skip_line_comment`. -/
def skipLineComment : Nat → Parser → Option Parser
  | 0, _ => none
  | n + 1, p =>
    let (c, p) := p.getChar
    let p := p.append c
    if c ≠ 0 ∧ c ≠ '\r' ∧ c ≠ '\n' then skipLineComment n p else some p

def skipBlockComment : Nat → Parser → Option Parser
  | 0, _ => none
  | n + 1, p =>
    let (c, p) := p.getChar
    if c = '*' ∧ p.cursor.headD 0 = '/' then some p.getChar.2
    else if c ≠ 0 then skipBlockComment n p
    else some p

def skipSeperatorsAndComments : Nat → Parser → Option Parser
  | 0, _ => none
  | n + 1, p => do
    let p ← p.skipSeperators p.turns
    let (c, p) := p.getChar
    if c = '/' then
      if p.cursor.headD 0 = '/' then
        let p := { p.getChar.2 with temp := [] }
        let p ← p.skipLineComment p.turns
        skipSeperatorsAndComments n p
      else if p.cursor.headD 0 = '*' then
        let p := p.getChar.2
        let p ← p.skipBlockComment p.turns
        skipSeperatorsAndComments n p
      else return p.back c
    else return p.back c

/-! ## Strings, names and numbers -/

/-- The loop of `fscript_parser_parse_str`. -/
def strLoop (quota : UInt8) : Nat → Bool → Parser → Option Parser
  | 0, _, _ => none
  | n + 1, escape, p =>
    let (c, p) := p.getChar
    if escape then
      let c : UInt8 :=
        if c = 'r' then '\r' else if c = 'n' then '\n' else if c = 't' then '\t' else c
      strLoop quota n false (p.append c)
    else if c = quota ∨ c = 0 then some p
    else if c = '\\' then strLoop quota n true p
    else strLoop quota n false (p.append c)

def parseStr (quota : UInt8) (p : Parser) : Option Parser := do
  let p ← strLoop quota p.turns false { p with temp := [] }
  return { p with type := .str }

def utf8GetCharLen (c : UInt8) : Int :=
  if c < 0x80 then 1
  else if c &&& 0xE0 = 0xC0 then 2
  else if c &&& 0xF0 = 0xE0 then 3
  else if c &&& 0xF8 = 0xF0 then 4
  else if c &&& 0xFC = 0xF8 then 5
  else if c &&& 0xFE = 0xFC then 6
  else -1

/-- The loop of `fscript_parser_get_non_ascii_char`. -/
def getMoreChars : Nat → Parser → Parser
  | 0, p => p
  | n + 1, p =>
    let (c, p) := p.getChar
    getMoreChars n (p.append c)

/-- `fscript_parser_get_non_ascii_char`.  The number of bytes is converted to a
`uint32_t`. -/
def getNonAsciiChar (p : Parser) (c : UInt8) (n : Int) : Parser :=
  getMoreChars ((n % 2 ^ 32).toNat - 1) (p.append c)

def isXdigit (c : UInt8) : Bool := isDigit c || ('a' ≤ c && c ≤ 'f') || ('A' ≤ c && c ≤ 'F')

/-- A character of a name or a number. -/
def isWordChar (c : UInt8) : Bool :=
  isXdigit c || isDigit c || isAlpha c || c = '.' || c = '_' || c = '[' || c = ']' || c = '#'

/-- The loop of `fscript_parser_parse_id_or_number`, and the character behind. -/
def wordLoop : Nat → Parser → Option (UInt8 × Parser)
  | 0, _ => none
  | n + 1, p =>
    let (c, p) := p.getChar
    if isWordChar c then wordLoop n (p.append c)
    else if isSpace c then some (c, p)
    else if 1 < utf8GetCharLen c then wordLoop n (p.getNonAsciiChar c (utf8GetCharLen c))
    else some (c, p)

/-- The character behind the blanks that `c` begins. -/
def behindBlanks (c : UInt8) (p : Parser) : Option (UInt8 × Parser) :=
  if isSpace c then (p.skipSeperators p.turns).map getChar else some (c, p)

/-- The type of a word, which may be a keyword. -/
def wordType (word : Str) (type : TokenType) : TokenType :=
  if type ≠ .id then type
  else if word = (['f', 'u', 'n', 'c', 't', 'i', 'o', 'n'] : Str) then .funcDef
  else if word = (['v', 'a', 'r'] : Str) then .var
  else if word = (['r', 'e', 't', 'u', 'r', 'n'] : Str) then .ret
  else .id

def parseIdOrNumber (p : Parser) (defType : TokenType) : Option Parser := do
  let (c, p) := p.getChar
  let p := { p with temp := [] }
  let p := if c ≠ 0 then p.getNonAsciiChar c (utf8GetCharLen c) else p
  let (c, p) ← wordLoop p.turns p
  let (c, p) ← p.behindBlanks c
  let blanks : Str := [' ', '\t', '\r', '\n']
  let word := strTrimRight blanks (p.temp.dropWhile (blanks.contains ·))
  let p := { p with temp := word, type := wordType word (if c = '(' then .func else defType) }
  return if c ≠ 0 then p.ungetChar c else p

/-! ## Tokens -/

/-- `fscript_parser_get_unary`: the run of the character that the token begins with. -/
def getUnary : Nat → Parser → Option Parser
  | 0, _ => none
  | n + 1, p => do
    let p ← p.skipSeperatorsAndComments p.turns
    let (c, p) := p.getChar
    if c = p.temp.headD 0 then getUnary n (p.append c) else return p.ungetChar c

/-- The token that is one character. -/
def single (c : UInt8) : Option TokenType :=
  if c = '(' then some .lparen
  else if c = ')' then some .rparen
  else if c = '\x7b' then some .lbracket
  else if c = '\x7d' then some .rbracket
  else if c = ',' then some .comma
  else if c = ';' then some .semicolon
  else if c = '?' then some .question
  else if c = ':' then some .colon
  else if c = '*' ∨ c = '/' ∨ c = '%' ∨ c = '^' ∨ c = '#' then some .func
  else none

/-- The token that begins with a sign in `fscript_parser_get_token_ex`. -/
def signToken (operator : Bool) (c : UInt8) (p : Parser) : Option (Option TokenType × Parser) := do
  let p ← p.skipSeperatorsAndComments p.turns
  if operator ∨ isDigit (p.cursor.headD 0) = false then
    let p ← p.getUnary p.turns
    return (some .func, { p with type := .func })
  else
    let p ← (p.ungetChar c).parseIdOrNumber .number
    return (some p.type, p)

/-- The `switch` of `fscript_parser_get_token_ex`, with the type of the token.  There is no
type for `NULL`. -/
def tokenOf (operator : Bool) (c : UInt8) (p : Parser) : Option (Option TokenType × Parser) :=
  match single c with
  | some type => some (some type, { p with type := type })
  | none =>
    if c = 0 then some (none, { p with type := .eof })
    else if c = '>' ∨ c = '<' ∨ c = '=' then
      let (next, p) := p.getChar
      let p := if next = c ∨ next = '=' then p.append next else p.ungetChar next
      some (some .func, { p with type := .func })
    else if c = '~' ∨ c = '!' then do
      let (next, p) := p.getChar
      if next = '=' then return (some .func, { p.append next with type := .func })
      let p := p.ungetChar next
      let p ← p.getUnary p.turns
      return (some .func, { p with type := .func })
    else if c = '|' ∨ c = '&' then
      let (next, p) := p.getChar
      let p := if next = c then p.append next else p.ungetChar next
      some (some .func, { p with type := .func })
    else if c = '"' ∨ c = '\'' then do
      let p ← p.parseStr c
      return (some p.type, p)
    else if c = '+' ∨ c = '-' then p.signToken operator c
    else do
      let p ← (p.ungetChar c).parseIdOrNumber (if isDigit c then .number else .id)
      return (some p.type, p)

def getTokenEx (operator : Bool) (p : Parser) : Option (Option TokenType × Parser) :=
  if p.valid then some (some p.type, { p with valid := false })
  else do
    let p ← p.skipSeperatorsAndComments p.turns
    let (c, p) := p.getChar
    tokenOf operator c { p with temp := [c] }

def getToken (p : Parser) : Option (Option TokenType × Parser) := p.getTokenEx false

def ungetToken (p : Parser) : Parser := if p.type ≠ .eof then { p with valid := true } else p

def expectToken (type : TokenType) (message : String) (p : Parser) : Option (Ret × Parser) := do
  let (t, p) ← p.getToken
  if t = some type then return (.ok, p) else return (.fail, p.setError message)

/-! ## Constants -/

/-- The constant that a token of a number stands for. -/
def number (token : Str) : Node :=
  let number := token.take 63
  if number.contains '.' then .double number
  else
    let hasMinus := number.headD 0 = '-'
    let vv := tkAtoul (if hasMinus then number.tail else number)
    if vv < 2 ^ 31 - 1 then .int32 (if hasMinus then -vv else vv)
    else if hasMinus then .int64 (Int.bmod (-vv) (2 ^ 64))
    else if vv < 2 ^ 32 - 1 then .uint32 vv
    else .uint64 vv

def tokenToValue (p : Parser) : Ret × Node :=
  if p.type = .number then (.ok, number p.temp)
  else if p.type = .str then (.ok, .str p.temp)
  else if p.type = .id then
    if (['t', 'r', 'u', 'e'] : Str) <+: p.temp then (.ok, .bool true)
    else if (['f', 'a', 'l', 's', 'e'] : Str) <+: p.temp then (.ok, .bool false)
    else (.ok, .id p.temp)
  else (.fail, .int32 0)

end Parser

end Awtk.Fscript
