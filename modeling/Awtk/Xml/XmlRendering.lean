import Awtk.Xml.XmlParser

/-!
# Renderings of XML trees

A tree of elements together with one way to write it: the white space in every place, the
quotes, and whether an element without children has an end tag.  `render` is the text and
`events` is the tree, as the calls of a builder.
-/

namespace Awtk.Xml

/-- An attribute with the white space in front of it. -/
structure Attr where
  space : Str
  name : Str
  value : Str
  quote : UInt8

/-- What is between two tags: white space, or a text with white space around it. -/
inductive Gap where
  | blank (space : Str)
  | text (space s after : Str)

/-- An element, with the white space behind its attributes and in its end tag.  Every child
element has a gap in front of it. -/
inductive Elem where
  | selfClosing (name : Str) (attrs : List Attr) (space : Str)
  | element (name : Str) (attrs : List Attr) (space : Str) (items : List (Gap × Elem)) (last : Gap)
      (endSpace : Str)

/-! ## The text -/

def Attr.render (a : Attr) : Str :=
  a.space ++ (a.name ++ ('=' : UInt8) :: a.quote :: (a.value ++ [a.quote]))

def Gap.render : Gap → Str
  | blank space => space
  | text space s after => space ++ (s ++ after)

/-- What is behind the name of a start tag, up to its end. -/
def renderAttrs (attrs : List Attr) (space : Str) : Str := attrs.flatMap Attr.render ++ space

/-- An end tag. -/
def renderEnd (name space : Str) : Str := ('<' : UInt8) :: ('/' : UInt8) :: (name ++ (space ++ (['>'] : Str)))

namespace Elem

mutual

def render : Elem → Str
  | selfClosing name attrs space => ('<' : UInt8) :: (name ++ (renderAttrs attrs space ++ (['/', '>'] : Str)))
  | element name attrs space items last endSpace =>
    ('<' : UInt8) :: (name ++ (renderAttrs attrs space ++ (['>'] : Str))) ++
      (renderItems items ++ (last.render ++ renderEnd name endSpace))

def renderItems : List (Gap × Elem) → Str
  | [] => []
  | (gap, e) :: items => gap.render ++ (render e ++ renderItems items)

end

end Elem

/-! ## The tree -/

def Attr.pair (a : Attr) : Str × Str := (a.name, a.value)

def Gap.events : Gap → List Event
  | blank _ => []
  | text _ s _ => [.text s]

namespace Elem

mutual

def events : Elem → List Event
  | selfClosing name attrs _ => [.start name (attrs.map Attr.pair), .stop name]
  | element name attrs _ items last _ =>
    .start name (attrs.map Attr.pair) :: (eventsItems items ++ (last.events ++ [.stop name]))

def eventsItems : List (Gap × Elem) → List Event
  | [] => []
  | (gap, e) :: items => gap.events ++ (events e ++ eventsItems items)

end

end Elem

/-! ## Well-formed renderings -/

/-- Spaces, tabs, LF and CR. -/
def IsBlank (s : Str) : Prop := ∀ c ∈ s, c = ' ' ∨ c = '\t' ∨ c = '\n' ∨ c = '\r'

/-- A name of letters, digits and underscores. -/
def IsName (s : Str) : Prop := s ≠ [] ∧ ∀ c ∈ s, isWord c = true

/-- A text that is not blank, without the white space around it and without a tag. -/
structure IsText (s : Str) : Prop where
  first : ∃ c ∈ s.head?, isSpace c = false
  last : ∃ c ∈ s.getLast?, isSpace c = false
  tag : ('<' : UInt8) ∉ s
  nul : (0 : UInt8) ∉ s

structure Attr.Ok (a : Attr) : Prop where
  space : IsBlank a.space
  name : IsName a.name
  quote : a.quote = '\"' ∨ a.quote = '\''
  value : a.quote ∉ a.value
  nul : (0 : UInt8) ∉ a.value

/-- There is white space between the name of the tag and the first attribute. -/
structure OkAttrs (attrs : List Attr) (space : Str) : Prop where
  ok : ∀ a ∈ attrs, a.Ok
  first : ∀ a ∈ attrs.head?, a.space ≠ []
  blank : IsBlank space

def Gap.Ok : Gap → Prop
  | blank space => IsBlank space
  | text space s after => IsBlank space ∧ IsText s ∧ IsBlank after

namespace Elem

mutual

def Ok : Elem → Prop
  | selfClosing name attrs space => IsName name ∧ OkAttrs attrs space
  | element name attrs space items last endSpace =>
    IsName name ∧ OkAttrs attrs space ∧ OkItems items ∧ last.Ok ∧ IsBlank endSpace

def OkItems : List (Gap × Elem) → Prop
  | [] => True
  | (gap, e) :: items => gap.Ok ∧ Ok e ∧ OkItems items

end

end Elem

/-! ## Renderings that are parsed -/

/-- A name does not start with a digit. -/
def GoodName (name : Str) : Prop := ∀ c ∈ name.head?, isDigit c = false

def startsCrlf (s : Str) : Bool := ([13, 10] : Str).isPrefixOf s

/-- The names of the attributes are valid and different, and a name of one character is not in
front of a CRLF. -/
structure GoodStart (name : Str) (attrs : List Attr) (space : Str) : Prop where
  tag : GoodName name
  names : ∀ a ∈ attrs, GoodName a.name
  nodup : (attrs.map Attr.name).Nodup
  crlf : ¬(name.length = 1 ∧ startsCrlf (renderAttrs attrs space) = true)

/-- A text has no CR, and its only character is not in front of a CRLF. -/
def Gap.Good : Gap → Prop
  | blank _ => True
  | text _ s after => (13 : UInt8) ∉ s ∧ ¬(s.length = 1 ∧ startsCrlf after = true)

namespace Elem

mutual

def Good : Elem → Prop
  | selfClosing name attrs space => GoodStart name attrs space
  | element name attrs space items last _ => GoodStart name attrs space ∧ GoodItems items ∧ last.Good

def GoodItems : List (Gap × Elem) → Prop
  | [] => True
  | (gap, e) :: items => gap.Good ∧ Good e ∧ GoodItems items

end

end Elem

end Awtk.Xml
