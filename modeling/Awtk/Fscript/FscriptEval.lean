import Awtk.Fscript.FscriptRepeat

/-!
# The flags of fscript

How `fscript.c` runs a script with `return`, `break` and `continue`.  They set a flag of `fscript_t`,
and the functions look at it at different places.  What a script runs on is a `Host`: the values, the
variables and the functions that are not in here.

A call is evaluated from its arguments, so a `Comp` is what an argument does.  There is no result
where the turns of a loop or the calls in one another are used up.
-/

namespace Awtk.Fscript

/-- The values `V`, the state `S` that a script works on, and the other functions. -/
structure Host (V S : Type) where
  /-- `value_copy` of a constant. -/
  literal : Node → V
  /-- `value_copy` of a name. -/
  id : Str → V
  /-- A string that is NULL. -/
  null : V
  /-- A value of `VALUE_TYPE_INVALID`. -/
  invalid : V
  /-- `value_set_int`. -/
  ofInt : Int → V
  /-- `value_bool`. -/
  valueBool : V → Bool
  /-- `value_int`. -/
  valueInt : V → Int
  /-- `fscript_locals_get` or `fscript_get_var`, with the error where there is no such variable. -/
  getVar : Str → S → V × S
  /-- `fscript_locals_set` or `fscript_set_var`. -/
  setVar : Str → V → S → Ret × S
  /-- The error of `FSCRIPT_FUNC_CHECK`. -/
  checkFailed : S → S
  /-- The size of an object. -/
  size : V → S → Option Nat
  /-- The item of an object. -/
  item : V → Nat → S → Option V
  /-- The other functions. -/
  func : Str → List V → S → V × S
  /-- The functions that the script defines, with the parameters and the statements. -/
  funcDef : Str → Option (List Str × List Node)
  /-- The locals for a call. -/
  enter : List Str → List V → S → S
  /-- The locals of the caller again. -/
  leave : S → S → S

/-- The functions of `fscript_exec_core_func`. -/
inductive Core where
  | if
  | while
  | until
  | repeat
  | for
  | forIn
  | repeatTimes
  | functionDef
  deriving DecidableEq

/-- `iter->func`, if it is one of `fscript_exec_core_func`. -/
def core (name : Str) : Option Core :=
  if name = Parser.nameIf then some .if
  else if name = Parser.nameWhile then some .while
  else if name = Parser.nameUntil then some .until
  else if name = Parser.nameRepeat then some .repeat
  else if name = Parser.nameFor then some .for
  else if name = Parser.nameForIn then some .forIn
  else if name = Parser.nameRepeatTimes then some .repeatTimes
  else if name = (['f', 'u', 'n', 'c'] : Str) then some .functionDef
  else none

def nameReturn : Str := ['r', 'e', 't', 'u', 'r', 'n']

def nameBreak : Str := ['b', 'r', 'e', 'a', 'k']

def nameContinue : Str := ['c', 'o', 'n', 't', 'i', 'n', 'u', 'e']

def nameExpr : Str := ['e', 'x', 'p', 'r']

/-- `func_set`, `func_set_local`, `func_get` and `func_unset`, which get a name as it is. -/
def takesName (name : Str) : Bool :=
  name = (['='] : Str) || name = (['s', 'e', 't'] : Str) || name = (['g', 'e', 't'] : Str) ||
    name = (['s', 'e', 't', '_', 'l', 'o', 'c', 'a', 'l'] : Str) ||
    name = (['u', 'n', 's', 'e', 't'] : Str)

/-- The name that is the first argument. -/
def varName : List Node → Option Str
  | .id name :: _ => some name
  | _ => none

variable {V S : Type}

/-- Whether `fscript_exec_ext_func` goes on no more. -/
def FscriptT.left (f : FscriptT S) : Bool := f.breaked || f.continued || f.returned

namespace Eval

/-- What an argument does. -/
abbrev Comp (V S : Type) := FscriptT S → Option (V × FscriptT S)

variable (host : Host V S)

/-! ## Names -/

/-- `fscript_eval_arg` of a name. -/
def execId (name : Str) : Comp V S := fun f =>
  if 0 < f.loopCount ∧ name = nameBreak then some (host.null, { f with breaked := true })
  else if 0 < f.loopCount ∧ name = nameContinue then some (host.null, { f with continued := true })
  else if f.loopCount = 0 ∧ name = nameReturn then some (host.ofInt 0, { f with returned := true })
  else if f.loopCount = 0 ∧ name.head? = some ('.' : UInt8) then some (host.id name, f)
  else
    let (v, state) := host.getVar name f.state
    some (v, { f with state })

/-! ## Functions -/

/-- The loop of `fscript_exec_ext_func`: all values, or the one to give up with. -/
def evalArgs : List (Comp V S) → FscriptT S → Option ((V ⊕ List V) × FscriptT S)
  | [], f => some (.inr [], f)
  | arg :: args, f =>
    (arg f).bind fun (v, f) =>
      if f.left then some (.inl v, f)
      else
        (evalArgs args f).map fun
          | (.inl w, f) => (.inl w, f)
          | (.inr vs, f) => (.inr (v :: vs), f)

def execExtFunc (func : List V → Comp V S) (args : List (Comp V S)) : Comp V S := fun f =>
  (evalArgs args f).bind fun
    | (.inl v, f) => some (v, f)
    | (.inr vs, f) => func vs f

def funcReturn (vs : List V) : Comp V S := fun f =>
  some (vs.headD (host.ofInt 0), { f with returned := true })

def funcExpr (vs : List V) : Comp V S := fun f => some (vs.getLast?.getD host.invalid, f)

/-- `func_noop` behind the statements of a function. -/
def funcNoop (_ : List V) : Comp V S := fun f => some (host.ofInt 0, f)

def funcFunction (params : List Str) (body : List (Comp V S)) (vs : List V) : Comp V S := fun f =>
  (execExtFunc (funcNoop host) body { f with state := host.enter params vs f.state }).map fun (v, g) =>
    (v, { g with state := host.leave f.state g.state, returned := false })

/-- Another function. -/
def funcOther (name : Str) (vs : List V) : Comp V S := fun f =>
  let (v, state) := host.func name vs f.state
  some (v, { f with state })

/-! ## The core functions -/

/-- The pairs of `fscript_exec_if`. -/
def execIf : List (Comp V S) → Comp V S
  | [], f => some (host.ofInt 0, f)
  | [otherwise], f => otherwise f
  | condition :: body :: args, f =>
    (condition f).bind fun (v, f) => if host.valueBool v then body f else execIf args f

/-- `fscript_exec_loop_body`: the result, and what it makes of `done`. -/
def execLoopBody : List (Comp V S) → V → FscriptT S → Option (V × Bool × FscriptT S)
  | [], v, f => some (v, false, f)
  | arg :: args, _, f =>
    (arg f).bind fun (v, f) =>
      if f.breaked then some (v, true, { f with breaked := false })
      else if f.returned then (execLoopBody args v f).map fun (v, _, f) => (v, true, f)
      else if f.continued then some (v, false, { f with continued := false })
      else execLoopBody args v f

/-- A loop: `head` says whether it goes on, and `tail` comes behind the body. -/
def loop (head : Nat → FscriptT S → Option (Bool × FscriptT S)) (body : List (Comp V S))
    (tail : Nat → FscriptT S → Option (FscriptT S)) :
    (turns i : Nat) → V → FscriptT S → Option (V × FscriptT S)
  | 0, _, _, _ => none
  | n + 1, i, v, f =>
    (head i f).bind fun (go, f) =>
      if go then
        (execLoopBody body v f).bind fun (v, done, f) =>
          (tail i f).bind fun f => if done then some (v, f) else loop head body tail n (i + 1) v f
      else some (v, f)

/-- A condition that is evaluated in each turn. -/
def condHead (isWhile : Bool) (condition : Comp V S) (_ : Nat) (f : FscriptT S) :
    Option (Bool × FscriptT S) :=
  (condition f).map fun (v, f) => (host.valueBool v == isWhile, f)

/-- Nothing comes behind the body. -/
def noTail (_ : Nat) (f : FscriptT S) : Option (FscriptT S) := some f

def execWhileOrUntil (isWhile : Bool) (turns : Nat) : List (Comp V S) → Comp V S
  | condition :: arg :: args, f =>
    (loop (condHead host isWhile condition) (arg :: args) noTail turns 0 host.invalid
      (enterLoop f)).map fun (v, f) => (v, leaveLoop f)
  | _, f => some (host.invalid, { f with state := host.checkFailed f.state })

/-- The counter of `fscript_exec_repeat` is set, unless it is at the end. -/
def repeatHead (var : Str) (start stop delta : Int) (i : Nat) (f : FscriptT S) : Bool × FscriptT S :=
  if start + i * delta = stop then (false, f)
  else
    let (ret, state) := host.setVar var (host.ofInt (start + i * delta)) f.state
    (ret = .ok, { f with state })

/-- The next counter is an `int32_t`. -/
def repeatTail (start delta : Int) (i : Nat) (f : FscriptT S) : Option (FscriptT S) :=
  if InInt32 (start + (i + 1) * delta) then some f else none

def execRepeat (turns : Nat) (var : Option Str) : List (Comp V S) → Comp V S
  | _ :: start :: stop :: delta :: arg :: args, f =>
    (start f).bind fun (v₁, f) => (stop f).bind fun (v₂, f) => (delta f).bind fun (v₃, f) =>
      var.bind fun var =>
        (loop (fun i f => some (repeatHead host var (host.valueInt v₁) (host.valueInt v₂)
            (host.valueInt v₃) i f)) (arg :: args)
          (repeatTail (host.valueInt v₁) (host.valueInt v₃)) turns 0 host.invalid
          (enterLoop f)).map fun (v, f) => (v, leaveLoop f)
  | _, f => some (host.invalid, { f with state := host.checkFailed f.state })

/-- The third argument of `fscript_exec_for`, also behind the last turn. -/
def forTail (step : Comp V S) (_ : Nat) (f : FscriptT S) : Option (FscriptT S) :=
  (step f).map fun (_, f) => f

def execFor (turns : Nat) : List (Comp V S) → Comp V S
  | init :: condition :: step :: arg :: args, f =>
    (init f).bind fun (_, f) =>
      (loop (condHead host true condition) (arg :: args) (forTail step) turns 0 host.invalid
        (enterLoop f)).map fun (v, f) => (v, leaveLoop f)
  | _, f => some (host.invalid, { f with state := host.checkFailed f.state })

/-- The next item of `fscript_exec_for_in`. -/
def forInHead (var : Str) (obj : V) (n i : Nat) (f : FscriptT S) : Bool × FscriptT S :=
  if i < n then
    match host.item obj i f.state with
    | some v => (true, { f with state := (host.setVar var v f.state).2 })
    | none => (false, f)
  else (false, f)

def execForIn (turns : Nat) (var : Option Str) : List (Comp V S) → Comp V S
  | _ :: obj :: arg :: args, f =>
    (obj f).bind fun (v, f) =>
      match host.size v f.state with
      | none => some (host.invalid, { f with state := host.checkFailed f.state })
      | some n =>
        var.bind fun var =>
          (loop (fun i f => some (forInHead host var v n i f)) (arg :: args) noTail turns 0
            host.invalid (enterLoop f)).map fun (v, f) => (v, leaveLoop f)
  | _, f => some (host.invalid, { f with state := host.checkFailed f.state })

def execRepeatTimes (turns : Nat) : List (Comp V S) → Comp V S
  | times :: arg :: args, f =>
    (times f).bind fun (v, f) =>
      (loop (fun i f => some (decide (i < (host.valueInt v % 2 ^ 32).toNat), f)) (arg :: args) noTail
        turns 0 host.invalid (enterLoop f)).map fun (v, f) => (v, leaveLoop f)
  | _, f => some (host.invalid, { f with state := host.checkFailed f.state })

def execCoreFunc (turns : Nat) (var : Option Str) (func : Core) (args : List (Comp V S)) :
    Comp V S :=
  match func with
  | .if => fun f => if args.length < 2 then some (host.invalid, f) else execIf host args f
  | .while => execWhileOrUntil host true turns args
  | .until => execWhileOrUntil host false turns args
  | .repeat => execRepeat host turns var args
  | .for => execFor host turns args
  | .forIn => execForIn host turns var args
  | .repeatTimes => execRepeatTimes host turns args
  | .functionDef => fun f => some (host.invalid, f)

/-! ## Calls -/

/-- `iter->func` of the other calls, with what runs the statements of a function. -/
def extFunc (callee : Node → Comp V S) (name : Str) : List V → Comp V S :=
  if name = nameReturn then funcReturn host
  else if name = nameExpr then funcExpr host
  else
    match host.funcDef name with
    | some (params, body) => funcFunction host params (body.map callee)
    | none => funcOther host name

/-- The arguments of a call, where a name may be taken as it is. -/
def namedArgs (name : Str) (args : List Node) (comps : List (Comp V S)) : List (Comp V S) :=
  match varName args with
  | some var => if takesName name then (fun f => some (host.id var, f)) :: comps.tail else comps
  | none => comps

mutual

/-- `fscript_eval_arg` and `fscript_exec_func_default`. -/
def evalNode (callee : Node → Comp V S) (turns : Nat) : Node → Comp V S
  | .id name => execId host name
  | .call name args =>
    match core name with
    | some func => execCoreFunc host turns (varName args) func (evalNodes callee turns args)
    | none =>
      execExtFunc (extFunc host callee name) (namedArgs host name args (evalNodes callee turns args))
  | node => fun f => some (host.literal node, f)

def evalNodes (callee : Node → Comp V S) (turns : Nat) : List Node → List (Comp V S)
  | [] => []
  | arg :: args => evalNode callee turns arg :: evalNodes callee turns args

end

/-- An argument, with a number of turns for each loop and of calls in one another. -/
def evalArg : Nat → Node → Comp V S
  | 0 => evalNode host (fun _ _ => none) 0
  | n + 1 => evalNode host (evalArg n) (n + 1)

/-- `fscript_exec`: the value and what is left. -/
def fscriptExec (n : Nat) (script : List Node) (state : S) : Option (V × S) :=
  (evalArg host n (.call nameExpr script) ⟨state, 0, false, false, false⟩).map fun (v, f) =>
    (v, f.state)

end Eval

end Awtk.Fscript
