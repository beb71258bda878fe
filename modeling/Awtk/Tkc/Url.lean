import Awtk.Tkc.NamedValue

/-!
# URLs

`url_parse` is a loop over the characters of a text with a switch on the state.  In each state it looks
for the characters that end a part, and what stands between `start` and `p` is the part.  `url_to_string`
writes the parts one after the other.
-/

namespace Awtk

/-! ## Parameters -/

/-- A property of a parameter object: a name and a string. -/
abbrev UrlParam := Str × Str

def tkStrIndexable (s : Str) : Bool :=
  s.head? = some ('[' : UInt8) && 3 ≤ s.length && s.getLast? = some (']' : UInt8) &&
    if 4 ≤ s.length ∧ s[1]? = some ('-' : UInt8) then s[2]?.any isDigit else s[1]?.any isDigit

namespace UrlParam

def compare (a b : UrlParam) : Int := tkStrcmp a.1 b.1

def findPropIndexByName (name : Str) (props : List UrlParam) : Option Nat :=
  if tkStrIndexable name then
    let ret := tkAtoi (name.drop 1)
    if 0 ≤ ret ∧ ret < props.length then some ret.toNat else none
  else
    match DArray.bsearchIndexEx tkStrcmp name (props.map Prod.fst) with
    | .inl index => some index
    | .inr _ => none

/-- `object_default_set_prop`, of a string.  No property is an object, so a name with a point in it is no
path. -/
def setProp (name value : Str) (props : List UrlParam) : List UrlParam :=
  match findPropIndexByName name props with
  | some index => props.modify index fun nv => (nv.1, value)
  | none => DArray.sortedInsert compare (name, value) false props

end UrlParam

/-! ## The parser -/

/-- `url_t`, without the text that `url_to_string` returns. -/
structure Url where
  schema : Option Str := none
  userName : Option Str := none
  password : Option Str := none
  host : Option Str := none
  port : Int := 0
  fixedPort : Bool := false
  path : Option Str := none
  params : Option (List UrlParam) := none
  deriving DecidableEq

/-- `state_t`. -/
inductive UrlState where
  | start
  | schema
  | host
  | port
  | path
  | key
  | value
  deriving DecidableEq

namespace Url

def strFile : Str := ['f', 'i', 'l', 'e']

def strSchemaDefault : Str := ['h', 't', 't', 'p']

def setPort (url : Url) (port : Int) : Url := { url with port, fixedPort := false }

def setParam (url : Url) (name value : Str) : Url :=
  { url with params := some (UrlParam.setProp name value (url.params.getD [])) }

/-- `url_fix`. -/
def fix (url : Url) : Url :=
  if url.port = 0 then
    if url.schema = some (['h', 't', 't', 'p'] : Str) then { url with port := 80, fixedPort := true }
    else if url.schema = some (['h', 't', 't', 'p', 's'] : Str) then
      { url with port := 443, fixedPort := true }
    else if url.schema = some (['f', 't', 'p'] : Str) then { url with port := 21, fixedPort := true }
    else url
  else url

/-- The variables of `url_parse` between two turns of its loop. -/
structure Scan where
  state : UrlState
  /-- How many characters the turn before has skipped. -/
  skip : Nat
  /-- What stands from `start` up to `p`. -/
  word : Str
  str : Str
  url : Url

namespace Scan

variable (m : Scan) (p : Str)

/-- `p` goes on, and `start` stays. -/
def next : Scan := { m with word := m.word ++ p.take 1 }

/-- `start` is behind `p`. -/
def cut (state : UrlState) (url : Url) : Scan := { m with state, word := [], url }

/-- The text is that of a file. -/
def isFilePath : Bool :=
  p.head? = some ('/' : UInt8) || p.head? = some ('\\' : UInt8) ||
    (['.', '/'] : Str).isPrefixOf p || (['.', '\\'] : Str).isPrefixOf p

def start : Scan :=
  if p.head?.any isSpace then m
  else if isFilePath p then
    { m with state := .path, word := p.take 1, url := { m.url with schema := some strFile } }
  else { m with state := .schema, word := p.take 1 }

/-- What ends a schema. -/
def isSchemaEnd (c : UInt8) : Bool := c = ':' || c = '/' || c = '?'

/-- What ends a host. -/
def isHostEnd (c : UInt8) : Bool := c = ':' || c = '?' || c = '/'

/-- What ends a port. -/
def isPortEnd (c : UInt8) : Bool := c = '@' || c = '?' || c = '/'

/-- What the end of the schema, or of a host without one, is. -/
def schemaEnd : Option Scan :=
  let default := { m.url with schema := some strSchemaDefault }
  if ([':', '/', '/'] : Str).isPrefixOf p then
    some { m.cut .host { m.url with schema := some m.str } with skip := 2 }
  else if ([':', '/'] : Str).isPrefixOf p || ([':', '\\'] : Str).isPrefixOf p then
    if m.str.length = 1 then
      some { m.next p with state := .path, url := { m.url with schema := some strFile } }
    else none
  else if p.head? = some (':' : UInt8) then some (m.cut .port { default with host := some m.str })
  else if p.head? = some ('/' : UInt8) then
    some (m.cut .path { default.setPort 80 with host := some m.str })
  else if p.head? = some ('?' : UInt8) then
    some (m.cut .key { default.setPort 80 with host := some m.str })
  else some (m.cut .schema { default.setPort 80 with host := some m.str })

def schema : Option Scan :=
  if p.head?.all isSchemaEnd then
    (schemaEnd { m with str := m.word } p).map fun m =>
      if m.url.schema = some strFile then { m with state := .path } else m
  else some (m.next p)

def host : Scan :=
  if p.head?.all isHostEnd then
    let m := { m with str := m.word }
    let url := { m.url with host := some m.str }
    if p.head? = some (':' : UInt8) then m.cut .port url
    else if p.head? = some ('?' : UInt8) then m.cut .key url
    -- `p` is set back by one, so that `start` is the slash, which `STATE_PATH` then goes over
    else if p.head? = some ('/' : UInt8) then (m.cut .path url).next p
    else m.cut .host url
  else m.next p

def port : Option Scan :=
  if p.head?.all isPortEnd then
    let m := { m with str := m.word }
    if p.head? = some ('@' : UInt8) then
      m.url.host.map fun host =>
        m.cut .host { m.url with userName := some host, password := some m.str, host := none }
    else if p.head? = some ('?' : UInt8) then some (m.cut .key (m.url.setPort (tkAtoi m.str)))
    else if p.head? = some ('/' : UInt8) then some (m.cut .path (m.url.setPort (tkAtoi m.str)))
    else some (m.cut .port (m.url.setPort (tkAtoi m.str)))
  else some (m.next p)

def path : Scan :=
  if p.head?.all (· = ('?' : UInt8)) then
    let m := { m with str := m.word }
    m.cut .key { m.url with path := some m.str }
  else m.next p

/-- `STATE_KEY`. -/
def key : Scan :=
  if p.head?.all (· = ('=' : UInt8)) then
    let m := { m with str := m.word }
    if p = [] then if 0 < m.str.length then { m with url := m.url.setParam m.str [] } else m
    else m.cut .value m.url
  else m.next p

def value : Scan :=
  if p.head?.all (· = ('&' : UInt8)) then m.cut .key (m.url.setParam m.str m.word) else m.next p

/-- The switch of `url_parse`, with the text from `p` on. -/
def turn : Option Scan :=
  match m.state with
  | .start => some (m.start p)
  | .schema => m.schema p
  | .host => some (m.host p)
  | .port => m.port p
  | .path => some (m.path p)
  | .key => some (m.key p)
  | .value => some (m.value p)

/-- The loop of `url_parse`. -/
def loop : Str → Scan → Option Url
  | [], m => (m.turn []).map Scan.url
  | c :: p, m =>
    if m.skip = 0 then (m.turn (c :: p)).bind (loop p) else loop p { m with skip := m.skip - 1 }

end Scan

def parse (url : Url) (surl : Str) : Option Url := (Scan.loop surl ⟨.start, 0, [], [], url⟩).map fix

def create (surl : Option Str) : Option Url :=
  match surl with
  | some surl => parse {} surl
  | none => some {}

/-! ## The printer -/

def onVisitParam (str : Str) (nv : UrlParam) : Str :=
  (if str.getLast? ≠ some ('?' : UInt8) then str ++ [('&' : UInt8)] else str) ++ nv.1 ++ [('=' : UInt8)] ++ nv.2

section Print

variable (url : Url) (str : Str)

def appendSchema : Str :=
  match url.schema with
  | some schema => str ++ schema ++ ([':', '/', '/'] : Str)
  | none => str

def appendPassword : Str :=
  match url.password with
  | some password => str ++ [(':' : UInt8)] ++ password
  | none => str

def appendUser : Str :=
  match url.userName with
  | some userName => url.appendPassword (str ++ userName) ++ [('@' : UInt8)]
  | none => str

def appendHost : Str :=
  match url.host with
  | some host =>
    let str := str ++ host
    if url.port ≠ 0 ∧ url.fixedPort = false then str ++ [(':' : UInt8)] ++ decimalInt url.port else str
  | none => str

def appendPath : Str :=
  match url.path with
  | some path => str ++ path
  | none => str

def appendParams : Str :=
  match url.params with
  | some params => params.foldl onVisitParam (str ++ [('?' : UInt8)])
  | none => str

end Print

/-- `url_to_string`.  Each block of it is a function. -/
def toString (url : Url) : Str :=
  url.appendParams (url.appendPath (url.appendHost (url.appendUser (url.appendSchema []))))

end Url

end Awtk
