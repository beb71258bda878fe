import Awtk.ConfIo.ConfNode

/-!
# INI documents

A model of `conf_ini.c`.  The saver writes the children of the root in their order, a leaf
as a key and a container as a group with its leaves as the keys.  The loader is a state
machine that reads one character at a time.
-/

namespace Awtk.Conf

namespace Ini

def commentChar : UInt8 := '#'

/-! ## Saving -/

/-- `conf_doc_save_leaf_node`.  It has no result where it prints a value that
`conf_node_get_value` has not set, and no line end where the value cannot be saved. -/
def saveLeafNode (n : ConfNode) : Option Str :=
  n.getValue.map fun v =>
    let line : Str := ' ' :: ' ' :: (n.name ++ ([' ', '=', ' '] : Str))
    match saveValue commentChar v with
    | some text => line ++ text ++ (['\n'] : Str)
    | none => line

/-- A child of the root. -/
def saveGroup : ConfNode → Option Str
  | .leaf name type value => saveLeafNode (.leaf name type value)
  | group =>
    (group.children.mapM saveLeafNode).map fun lines =>
      '[' :: (group.name ++ ([']', '\n'] : Str) ++ lines.flatten)

/-- `conf_doc_save_ini`. -/
def save (doc : ConfDoc) : Option Str :=
  match doc.root with
  | none => some []
  | some root => (root.children.mapM saveGroup).map List.flatten

/-! ## Loading -/

/-- `parser_state_t`. -/
inductive ParserState where
  | none
  | beforeGroup
  | group
  | key
  | beforeValue
  | value
  | comment
  deriving DecidableEq

/-- The variables of `conf_doc_load_ini`.  The current nodes are ways down from the root. -/
structure Loader where
  state : ParserState
  c : UInt8
  s : Str
  root : ConfNode
  node : Option (List Nat)
  group : Option (List Nat)

namespace Loader

def start : Loader :=
  { state := .none, c := 0, s := [], root := ConfNode.create ConfDoc.rootName, node := none,
    group := none }

/-- The current node gets the text that was read as its value. -/
def setValue (l : Loader) : Loader :=
  let s := strTrimRight [' ', '\t', '\r', '\n'] l.s
  match l.node with
  | none => { l with s }
  | some way =>
    { l with s, root := l.root.updateAt (fun n => (n.setValue (.str (some s))).2) way }

/-- The body of the loop, with whether the character is read once more. -/
def step (l : Loader) (c : UInt8) : Loader × Bool :=
  let lastC := l.c
  let l := { l with c }
  if c = '\\' ∧ lastC ≠ '\\' then (l, false)
  else
    let lastC := if c = '\\' then 0 else lastC
    match l.state with
    | .none =>
      if c = '[' then ({ l with state := .beforeGroup }, false)
      else if c = '#' then ({ l with state := .comment }, false)
      else if isSpace c then (l, false)
      else ({ l with state := .key, s := [c] }, false)
    | .comment => if c = '\r' ∨ c = '\n' then ({ l with state := .none }, false) else (l, false)
    | .beforeGroup => if isSpace c then (l, false) else ({ l with state := .group, s := [c] }, false)
    | .group =>
      if c = ']' then
        let s := strTrimRight [' ', '\t'] l.s
        let (root, way) := l.root.appendAt [] (ConfNode.create s)
        ({ l with state := .none, s, root, group := some way }, false)
      else ({ l with s := l.s ++ [c] }, false)
    | .key =>
      if c = '=' then
        let s := strTrimRight [' ', '\t'] l.s
        let (root, way) := l.root.appendAt (l.group.getD []) (ConfNode.create s)
        ({ l with state := .beforeValue, s, root, node := some way }, false)
      else ({ l with s := l.s ++ [c] }, false)
    | .beforeValue =>
      if c = ' ' ∨ c = '\t' then (l, false)
      else if c = '\r' ∨ c = '\n' then ({ l with state := .value, s := [] }, true)
      else ({ l with state := .value, s := [c] }, false)
    | .value =>
      if lastC = '\\' then ({ l with s := l.s ++ [c] }, false)
      else if c = '#' then ({ l.setValue with state := .comment }, false)
      else if c = '\n' then ({ l.setValue with state := .none }, false)
      else ({ l with s := l.s ++ [c] }, false)

/-- One character of the text. -/
def next (l : Loader) (c : UInt8) : Loader :=
  match l.step c with
  | (l, true) => (l.step c).1
  | (l, false) => l

end Loader

/-- `conf_doc_load_ini`. -/
def load (data : Str) : ConfDoc :=
  let l := data.foldl Loader.next Loader.start
  let l := if l.state = .value then l.setValue else l
  { root := some l.root, maxDeepLevel := 2, disablePath := false }

end Ini

end Awtk.Conf
