import Awtk.Fscript.FscriptParser

/-!
# Running fscript

How `fscript.c` evaluates calls and what the arithmetic functions return for numbers.  An
environment says what the variables are and what all other functions do, with those that
evaluate their arguments themselves apart.  There is no result where the arithmetic of
`int32_t` overflows, or a function does not return.

The flags that `return`, `break` and `continue` set are left out.
-/

namespace Awtk.Fscript

/-- The integer fits in an `int32_t`. -/
def InInt32 (n : Int) : Prop := -2 ^ 31 ≤ n ∧ n < 2 ^ 31

instance (n : Int) : Decidable (InInt32 n) := inferInstanceAs (Decidable (_ ∧ _))

/-- The conversion to an `int32_t`. -/
def wrapInt32 (n : Int) : Int := Int.bmod n (2 ^ 32)

/-- The arithmetic of doubles.  `Is d n` says that `d` has the value `n`.  What has at most
53 bits is exact. -/
structure Doubles where
  Double : Type
  ofInt : Int → Double
  toInt : Double → Int
  ofText : Str → Double
  neg : Double → Double
  add : Double → Double → Double
  sub : Double → Double → Double
  mul : Double → Double → Double
  div : Double → Double → Double
  Is : Double → Int → Prop
  ofInt_is : ∀ n : Int, n.natAbs ≤ 2 ^ 53 → Is (ofInt n) n
  toInt_is : ∀ {d : Double} {n : Int}, Is d n → InInt32 n → toInt d = n
  neg_is : ∀ {d : Double} {n : Int}, Is d n → Is (neg d) (-n)
  add_is : ∀ {d e : Double} {m n : Int}, Is d m → Is e n → (m + n).natAbs ≤ 2 ^ 53 →
    Is (add d e) (m + n)
  sub_is : ∀ {d e : Double} {m n : Int}, Is d m → Is e n → (m - n).natAbs ≤ 2 ^ 53 →
    Is (sub d e) (m - n)
  mul_is : ∀ {d e : Double} {m n : Int}, Is d m → Is e n → (m * n).natAbs ≤ 2 ^ 53 →
    Is (mul d e) (m * n)

variable {F : Doubles}

/-- The values of a script.  What is no number is a constant or stands for itself. -/
inductive Value (F : Doubles) where
  | int32 (n : Int)
  | uint32 (n : Nat)
  | int64 (n : Int)
  | uint64 (n : Nat)
  | double (d : F.Double)
  | other (v : Node)

/-- The variables and the other functions. -/
structure Env (F : Doubles) where
  var : Str → Option (Value F)
  core : Str → List Node → Option (Value F)
  func : Str → List (Value F) → Option (Value F)

namespace Value

def isNumber : Value F → Bool
  | .other _ => false
  | _ => true

def isDouble : Value F → Bool
  | .double _ => true
  | _ => false

/-- `value_double`. -/
def toDouble : Value F → F.Double
  | .int32 n => F.ofInt n
  | .uint32 n => F.ofInt n
  | .int64 n => F.ofInt n
  | .uint64 n => F.ofInt n
  | .double d => d
  | .other _ => F.ofInt 0

/-- `value_int`. -/
def toInt : Value F → Int
  | .int32 n => n
  | .uint32 n => wrapInt32 n
  | .int64 n => wrapInt32 n
  | .uint64 n => wrapInt32 n
  | .double d => F.toInt d
  | .other _ => 0

/-- The value has the mathematical value `n`. -/
def Denotes : Value F → Int → Prop
  | .int32 m, n => m = n
  | .uint32 m, n => (m : Int) = n
  | .int64 m, n => m = n
  | .uint64 m, n => (m : Int) = n
  | .double d, n => F.Is d n
  | .other _, _ => False

end Value

/-- An `int32_t` that an operation gives, unless it overflows. -/
def int32Result (n : Int) : Option (Value F) := if InInt32 n then some (.int32 n) else none

/-- `func_sum`, of numbers. -/
def funcSum (args : List (Value F)) : Option (Value F) :=
  if args = [] then some (.int32 0)
  else
    let v := args.foldl (fun v arg => F.add v arg.toDouble) (F.ofInt 0)
    if args.any Value.isDouble then some (.double v) else some (.int32 (F.toInt v))

def funcMinus : List (Value F) → Option (Value F)
  | [.int32 n] => int32Result (-n)
  | [v] => some (.double (F.neg v.toDouble))
  | _ => some (.int32 0)

def funcSub : List (Value F) → Option (Value F)
  | [] => some (.int32 0)
  | [v] => funcMinus [v]
  | .int32 m :: .int32 n :: _ => int32Result (m - n)
  | v :: w :: _ => some (.double (F.sub v.toDouble w.toDouble))

def funcMul : List (Value F) → Option (Value F)
  | [v, w] => some (.double (F.mul v.toDouble w.toDouble))
  | _ => some (.int32 0)

def funcDiv : List (Value F) → Option (Value F)
  | [v, w] => some (.double (F.div v.toDouble w.toDouble))
  | _ => some (.int32 0)

/-- `func_mod`.  The quotient must fit too. -/
def funcMod : List (Value F) → Option (Value F)
  | [v, w] =>
    if w.toInt = 0 ∨ (v.toInt = -2 ^ 31 ∧ w.toInt = -1) then none
    else some (.int32 (v.toInt.tmod w.toInt))
  | _ => some (.int32 0)

def funcExpr (args : List (Value F)) : Value F := args.getLast?.getD (.other .invalid)

/-- The arithmetic functions in `s_builtin_funcs`. -/
def builtin (name : Str) : Option (List (Value F) → Option (Value F)) :=
  if name = (['+'] : Str) ∨ name = (['s', 'u', 'm'] : Str) then some funcSum
  else if name = (['-'] : Str) ∨ name = (['s', 'u', 'b'] : Str) then some funcSub
  else if name = (['*'] : Str) ∨ name = (['m', 'u', 'l'] : Str) then some funcMul
  else if name = (['/'] : Str) ∨ name = (['d', 'i', 'v'] : Str) then some funcDiv
  else if name = (['%'] : Str) then some funcMod
  else if name = (['m', 'i', 'n', 'u', 's'] : Str) then some funcMinus
  else none

/-- The functions of `fscript_exec_core_func`. -/
def isCore (name : Str) : Bool :=
  name = Parser.nameIf || (Parser.blockArgs name).isSome || name = (['f', 'u', 'n', 'c'] : Str)

/-- `iter->func`, with the values of the arguments. -/
def callFunc (env : Env F) (name : Str) (args : List (Value F)) : Option (Value F) :=
  if name = (['e', 'x', 'p', 'r'] : Str) then some (funcExpr args)
  else
    match builtin name with
    | some func => if args.all Value.isNumber then func args else env.func name args
    | none => env.func name args

mutual

/-- `fscript_eval_arg` and `fscript_exec_func_default`. -/
def exec (env : Env F) : Node → Option (Value F)
  | .int32 n => some (.int32 n)
  | .uint32 n => some (.uint32 n)
  | .int64 n => some (.int64 n)
  | .uint64 n => some (.uint64 n)
  | .double text => some (.double (F.ofText text))
  | .invalid => some (.other .invalid)
  | .bool b => some (.other (.bool b))
  | .str s => some (.other (.str s))
  | .id name => env.var name
  | .call name args =>
    if isCore name then env.core name args
    else do callFunc env name (← execArgs env args)

/-- The loop of `fscript_exec_ext_func`. -/
def execArgs (env : Env F) : List Node → Option (List (Value F))
  | [] => some []
  | arg :: args => do
    let v ← exec env arg
    let vs ← execArgs env args
    return v :: vs

end

/-- The turns that the parser is given. -/
def turns (script : Str) : Nat := 10 * script.length + 30

/-- `fscript_create`: the arguments of the first call. -/
def fscriptCreate (script : Str) : Option (Option (List Node)) := do
  let (ret, args, _) ← Parser.fscriptParseAll (turns script) (.init script)
  return if ret = .ok then some args else none

/-- `fscript_eval`.  There is no value where the script does not parse. -/
def fscriptEval (env : Env F) (script : Str) : Option (Option (Value F)) := do
  match ← fscriptCreate script with
  | none => return none
  | some args => return some (← exec env (.call ['e', 'x', 'p', 'r'] args))

end Awtk.Fscript
