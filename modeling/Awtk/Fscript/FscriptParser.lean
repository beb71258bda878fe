import Awtk.Fscript.FscriptLexer

/-!
# The parser of fscript

The recursive descent of `fscript.c`.  A function gives its return code and what it leaves
in its result, and the parser goes on after an error, which it remembers.  All functions
share a number of turns, and a call takes one.

The positions of local variables are left out.
-/

namespace Awtk.Fscript

/-- The return code, the result and the parser. -/
abbrev Parsed (α : Type) := Ret × α × Parser

namespace Parser

/-- One turn of the loop over the operators of a level. -/
def operatorTurn (operand : Node → Parser → Option (Parsed Node)) (isOperator : Str → Bool)
    (loop : Node → Parser → Option (Parsed Node)) (result : Node) (p : Parser) : Option (Parsed Node) := do
  let (t, p) ← p.getTokenEx true
  if t = some .func ∧ isOperator p.temp then
    let name := p.temp
    let (_, v, p) ← operand .invalid p
    match v with
    | .invalid => loop (.call name [result]) (p.setError "expect an expression")
    | v => loop (.call name [result, v]) p
  else return (.ok, result, p.ungetToken)

/-- The operators of `fsexpr_parse_product`. -/
def isProductOperator (token : Str) : Bool :=
  token.headD 0 = '*' || token.headD 0 = '/' || token.headD 0 = '%'

/-- The operators of `fexpr_parse_sum`. -/
def isSumOperator (token : Str) : Bool := token.headD 0 = '+' || token.headD 0 = '-'

/-- The operators of `fexpr_parse_logic`. -/
def isLogicOperator (token : Str) : Bool :=
  token.headD 0 = '|' || token.headD 0 = '&' || token.headD 0 = '^'

/-- The operators of `fexpr_parse_compare`. -/
def isCompareOperator (token : Str) : Bool :=
  token ≠ (['='] : Str) && (token.headD 0 = '>' || token.headD 0 = '<' || token.headD 0 = '=' ||
    (token.headD 0 = '!' && token.getD 1 0 = '='))

/-- `acall->func` of the functions with blocks. -/
def nameIf : Str := ['i', 'f']
def nameWhile : Str := ['w', 'h', 'i', 'l', 'e']
def nameUntil : Str := ['u', 'n', 't', 'i', 'l']
def nameRepeat : Str := ['r', 'e', 'p', 'e', 'a', 't']
def nameRepeatTimes : Str := ['r', 'e', 'p', 'e', 'a', 't', '_', 't', 'i', 'm', 'e', 's']
def nameFor : Str := ['f', 'o', 'r']
def nameForIn : Str := ['f', 'o', 'r', '_', 'i', 'n']

/-- The functions that a block follows, and how many arguments are in front of it. -/
def blockArgs (name : Str) : Option Nat :=
  if name = nameWhile ∨ name = nameUntil ∨ name = nameRepeatTimes then some 1
  else if name = nameFor then some 3
  else if name = nameForIn then some 2
  else if name = nameRepeat then some 4
  else none

mutual

def fexprParseTerm : Nat → Parser → Option (Parsed Node)
  | 0, _ => none
  | n + 1, p => do
    let (t, p) ← p.getToken
    match t with
    | none => return (.badParams, .int32 0, p)
    | some .number | some .str =>
      let (ret, v) := p.tokenToValue
      return (ret, v, p)
    | some .id =>
      let p := if p.temp.headD 0 = '.' then p.setError "var can't begin with '.'" else p
      let (ret, v) := p.tokenToValue
      return (ret, v, p)
    | some .func =>
      if p.temp = (['%'] : Str) ∧ isAlpha p.peekChar then
        let (_, p) ← p.getToken
        let p := { p with temp := '%' :: p.temp, type := .id }
        let (ret, v) := p.tokenToValue
        return (ret, v, p)
      else if p.peekNextNonSpaceChar = '(' then fexprParseFunction n p.ungetToken
      else return (.fail, .int32 0, p.ungetToken.setError "unexpected token")
    | some .ret =>
      let name : Str := ['r', 'e', 't', 'u', 'r', 'n']
      let (t, p) ← p.getToken
      match t with
      | none | some .semicolon | some .rbracket => return (.ok, .call name [], p.ungetToken)
      | some _ =>
        let (ret, v, p) ← fexprParse n p.ungetToken
        return (.ok, .call name (if ret = .ok then [v] else []), p)
    | some .lparen =>
      let (ret, v, p) ← fexprParse n p
      if ret ≠ .ok then return (ret, v, p)
      let (ret, p) ← p.expectToken .rparen "expect )"
      return (ret, v, p)
    | some _ => return (.ok, .int32 0, p.ungetToken)

def fexprParseUnary : Nat → Node → Parser → Option (Parsed Node)
  | 0, _, _ => none
  | n + 1, result, p => do
    let (t, p) ← p.getTokenEx false
    if t = none ∨ t = some .eof then return (.ok, result, p)
    let c := p.temp.headD 0
    if t = some .func ∧ (c = '!' ∨ c = '~' ∨ c = '-') then
      if p.temp.all (· = c) then
        let valid := p.temp.length % 2 = 1
        let (ret, v, p) ← fexprParseTerm n p
        if valid then return (if ret = .ok then (.ok, .call [c] [v], p) else (.fail, .call [c] [], p))
        else return (if ret = .ok then .ok else .fail, v, p)
      else return (.fail, result, p.setError "unexpected token")
    else
      let (ret, v, p) ← fexprParseTerm n p.ungetToken
      return (if ret = .ok then .ok else .fail, v, p)

def fsexprParseProduct : Nat → Node → Parser → Option (Parsed Node)
  | 0, _, _ => none
  | n + 1, result, p => do
    let (ret, result, p) ← fexprParseUnary n result p
    if ret ≠ .ok then return (.fail, result, p)
    productLoop n result p

/-- The loop of `fsexpr_parse_product`. -/
def productLoop : Nat → Node → Parser → Option (Parsed Node)
  | 0, _, _ => none
  | n + 1, result, p =>
    operatorTurn (fexprParseUnary n) isProductOperator (productLoop n) result p

def fexprParseSum : Nat → Node → Parser → Option (Parsed Node)
  | 0, _, _ => none
  | n + 1, result, p => do
    let (ret, result, p) ← fsexprParseProduct n result p
    if ret ≠ .ok then return (.fail, result, p)
    sumLoop n result p

/-- The loop of `fexpr_parse_sum`. -/
def sumLoop : Nat → Node → Parser → Option (Parsed Node)
  | 0, _, _ => none
  | n + 1, result, p => operatorTurn (fsexprParseProduct n) isSumOperator (sumLoop n) result p

def fexprParseCompare : Nat → Parser → Option (Parsed Node)
  | 0, _ => none
  | n + 1, p => do
    let (ret, result, p) ← fexprParseSum n (.int32 0) p
    if ret ≠ .ok then return (.fail, result, p)
    operatorTurn (fexprParseSum n) isCompareOperator (fun v p => some (.ok, v, p)) result p

def fexprParseLogic : Nat → Parser → Option (Parsed Node)
  | 0, _ => none
  | n + 1, p => do
    let (ret, result, p) ← fexprParseCompare n p
    if ret ≠ .ok then return (.fail, result, p)
    logicLoop n result p

/-- The loop of `fexpr_parse_logic`. -/
def logicLoop : Nat → Node → Parser → Option (Parsed Node)
  | 0, _, _ => none
  | n + 1, result, p =>
    operatorTurn (fun _ => fexprParseCompare n) isLogicOperator (logicLoop n) result p

def fexprParseQuestion : Nat → Parser → Option (Parsed Node)
  | 0, _ => none
  | n + 1, p => do
    let (ret, result, p) ← fexprParseLogic n p
    if ret ≠ .ok then return (.fail, result, p)
    let (t, p) ← p.getToken
    if t ≠ some .question then return (.ok, result, p.ungetToken)
    let (ret, v, p) ← fexprParseLogic n p
    if ret ≠ .ok then return (.fail, .call nameIf [result], p)
    let (ret, p) ← p.expectToken .colon "expect :"
    if ret ≠ .ok then return (.fail, .call nameIf [result, v], p)
    let (ret, w, p) ← fexprParseLogic n p
    if ret ≠ .ok then return (.fail, .call nameIf [result, v], p)
    return (.ok, .call nameIf [result, v, w], p)

def fexprParse : Nat → Parser → Option (Parsed Node)
  | 0, _ => none
  | n + 1, p => do
    let (t, p) ← p.getTokenEx true
    if t = none ∨ t = some .rbracket ∨ t = some .semicolon then return (.ok, .invalid, p.ungetToken)
    let isLocal := t = some .var
    let p := if isLocal then p else p.ungetToken
    let (ret, result, p) ← fexprParseQuestion n p
    if ret ≠ .ok then return (.fail, result, p)
    let (t, p) ← p.getTokenEx true
    if t ≠ none ∧ p.temp = (['='] : Str) then
      let name : Str := if isLocal then ['s', 'e', 't', '_', 'l', 'o', 'c', 'a', 'l'] else ['=']
      let (_, v, p) ← fexprParseQuestion n p
      match v with
      | .invalid => return (.ok, .call name [result], p.setError "expect an expression")
      | v => return (.ok, .call name [result, v], p)
    else return (.ok, result, p.ungetToken)

/-- The loop over the arguments in `fexpr_parse_function`. -/
def argsLoop : Nat → Str → List Node → Parser → Option (Parsed (List Node))
  | 0, _, _, _ => none
  | n + 1, name, args, p => do
    let (t, p) ← p.getToken
    match t with
    | none => return (.fail, args, p.setError "expect \")\"")
    | some .comma => argsLoop n name (args ++ [.invalid]) p
    | some .rparen => return (.ok, if args = [] then [] else args ++ [.invalid], p)
    | some _ =>
      let (ret, v, p) ← fexprParse n p.ungetToken
      if ret ≠ .ok then return (.fail, args, p)
      let args := args ++ [v]
      let (t, p) ← p.getToken
      match t with
      | none => return (.fail, args, p.setError "expect \")\"")
      | some .rparen => return (.ok, args, p)
      | some _ =>
        let p := p.ungetToken
        let (_, p) ← if name = nameFor then p.expectToken .semicolon "expect \";\""
          else p.expectToken .comma "expect \",\""
        argsLoop n name args p

def fexprParseFunction : Nat → Parser → Option (Parsed Node)
  | 0, _ => none
  | n + 1, p => do
    let (_, p) ← p.getToken
    let name : Str := if p.temp = (['-'] : Str) then ['m', 'i', 'n', 'u', 's'] else p.temp
    let (ret, p) ← p.expectToken .lparen "expect \"(\""
    if ret ≠ .ok then return (.fail, .call name [], p)
    let (ret, args, p) ← argsLoop n name [] p
    if ret ≠ .ok then return (.fail, .call name args, p)
    if name = nameIf ∧ args.length = 1 then
      let (ret, p) ← p.expectToken .lbracket "expect \"\x7b\""
      if ret ≠ .ok then return (.ok, .call name args, p)
      let (_, args, p) ← fexprParseIf n args p
      return (.ok, .call name args, p)
    else if blockArgs name = some args.length then
      let (ret, p) ← p.expectToken .lbracket "expect \"\x7b\""
      if ret ≠ .ok then return (.ok, .call name args, p)
      let (_, args, p) ← fexprParseBlock n args p
      return (.ok, .call name args, p)
    else return (.ok, .call name args, p)

/-- `fexpr_parse_if`, with the arguments of the call. -/
def fexprParseIf : Nat → List Node → Parser → Option (Parsed (List Node))
  | 0, _, _ => none
  | n + 1, args, p => do
    let (_, args, p) ← fexprParseBlock n args p
    let (t, p) ← p.getToken
    if t = some .id ∧ p.temp = (['e', 'l', 's', 'e'] : Str) then
      let (t, p) ← p.getToken
      if t = some .func ∧ p.temp = nameIf then
        let (ret, result, p) ← fexprParseFunction n p.ungetToken
        match ret, result with
        | .ok, .call _ more => return (.ok, args ++ more, p)
        | _, _ => return (.fail, args, p)
      else
        let (_, p) ← p.ungetToken.expectToken .lbracket "expect \"\x7b\""
        fexprParseBlock n args p
    else return (.ok, args, p.ungetToken)

/-- `fexpr_parse_block`, with the arguments of the call. -/
def fexprParseBlock : Nat → List Node → Parser → Option (Parsed (List Node))
  | 0, _, _ => none
  | n + 1, args, p => do
    let (ret, statements, p) ← fscriptParseStatements n [] p
    let args := if ret = .ok then args ++ [.call ['e', 'x', 'p', 'r'] statements] else args
    let (_, p) ← p.expectToken .rbracket "expect \"\x7d\""
    return (.ok, args, p)

/-- The loop of `fscript_parse_statements`, with the arguments of the call. -/
def fscriptParseStatements : Nat → List Node → Parser → Option (Parsed (List Node))
  | 0, _, _ => none
  | n + 1, args, p => do
    let (ret, v, p) ← fexprParse n p
    if ret ≠ .ok then return (ret, args, p)
    let args := match v with
      | .invalid => args
      | v => args ++ [v]
    let (t, p) ← p.getToken
    let again (p : Parser) :=
      if p.type ≠ .eof then fscriptParseStatements n args p else some (.ok, args, p)
    match t with
    | none => return (.ok, args, p)
    | some .func | some .id | some .number | some .str | some .var | some .ret => again p.ungetToken
    | some .rbracket | some .funcDef => return (.ok, args, p.ungetToken)
    | some .comma | some .semicolon => again p
    | some _ => return (.fail, args, p.setError "unexpected token\n")

end

/-- The loop over the parameters in `fscript_parse_function_def`. -/
def paramsLoop : Nat → List Str → Parser → Option (List Str × Parser)
  | 0, _, _ => none
  | n + 1, params, p => do
    let (t, p) ← p.getToken
    match t with
    | some .id => paramsLoop n (params ++ [p.temp]) p
    | some .comma => paramsLoop n params p
    | _ => return (params, p.ungetToken)

/-- `fscript_parse_function_def`.  There is no result where the source reads the type of a
`NULL` token. -/
def fscriptParseFunctionDef (n : Nat) (p : Parser) : Option (Ret × Parser) := do
  let (t, p) ← p.getToken
  let t ← t
  if t ≠ .func then return (.fail, p.setError "expect function name\n")
  let name := p.temp
  let (_, p) ← p.expectToken .lparen "expect \"(\""
  if p.funcsDef.any (·.name = name) then return (.fail, p.setError "duplicate function\n")
  let (params, p) ← p.paramsLoop n []
  let (_, p) ← p.expectToken .rparen "expect \")\""
  let (_, p) ← p.expectToken .lbracket "expect \"\x7b\""
  let (_, body, p) ← fscriptParseStatements n [] p
  let (_, p) ← p.expectToken .rbracket "expect \"\x7d\""
  return (.ok, { p with funcsDef := p.funcsDef ++ [⟨name, params, body⟩] })

/-- The loop of `fscript_parse_all`, with the arguments of the first call. -/
def fscriptParseAllLoop : Nat → List Node → Parser → Option (Parsed (List Node))
  | 0, _, _ => none
  | n + 1, args, p => do
    let (t, p) ← p.getToken
    match t with
    | none | some .eof => return (.ok, args, p)
    | some .funcDef =>
      let (ret, p) ← p.fscriptParseFunctionDef n
      if ret = .ok then fscriptParseAllLoop n args p else return (ret, args, p)
    | some .rbracket => return (.ok, args, p.setError "unexpected token")
    | some _ =>
      let (ret, args, p) ← fscriptParseStatements n args p.ungetToken
      if ret = .ok then fscriptParseAllLoop n args p else return (ret, args, p)

def fscriptParseAll (n : Nat) (p : Parser) : Option (Parsed (List Node)) := do
  let (ret, args, p) ← fscriptParseAllLoop n [] p
  return (if p.error.isSome then .fail else ret, args, p)

end Parser

end Awtk.Fscript
