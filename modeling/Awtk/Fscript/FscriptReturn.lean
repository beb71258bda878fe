import Awtk.Fscript.FscriptEval
import Awtk.Lib.Noted

/-!
# A return that leaves its function

`Unwind` runs a script as it is meant: a `return` leaves its function at once, with its value.  The
run notes where the functions of fscript do not look for it: a return that is executed in a condition
or in another argument of a statement, in an expression of a body that is not the last one, or in a
`for` whose step does something.  As long as there is none of these, a script runs as it is meant
(`exec_unwinds`).
-/

namespace Awtk.Fscript

variable {V S : Type}

/-! ## The step of a `for` -/

namespace Eval

variable (host : Host V S) [DecidableEq S]

/-- A function without arguments leaves everything as it is. -/
def idleCall (name : Str) (state : S) : Bool :=
  name = nameReturn || name = nameExpr ||
    ((host.funcDef name).isNone && decide ((host.func name [] state).2 = state))

mutual

/-- Behind a return an argument does nothing.  A call gives up after its first argument. -/
def idle (state : S) : Node → Bool
  | .id name => name ≠ nameBreak && name ≠ nameContinue && decide ((host.getVar name state).2 = state)
  | .call name args =>
    match core name with
    | some .if => idleAll state args
    | some .functionDef => true
    | some _ => false
    | none =>
      if args = [] then idleCall host name state
      else takesName name && (varName args).isSome || idleHead state args
  | _ => true

def idleAll (state : S) : List Node → Bool
  | [] => true
  | arg :: args => idle state arg && idleAll state args

def idleHead (state : S) : List Node → Bool
  | [] => true
  | arg :: _ => idle state arg

end

end Eval

/-! ## Leaving at once -/

namespace Unwind

open Noted

/-- What an argument does, with what is noted. -/
abbrev Comp (V S : Type) := FscriptT S → Noted (V × FscriptT S)

variable (host : Host V S)

/-- An argument of a statement.  A return in it is noted, and it is left with. -/
def control {β : Type} (exit : V → β) (arg : Comp V S)
    (k : V → FscriptT S → Noted (β × FscriptT S)) (f : FscriptT S) : Noted (β × FscriptT S) :=
  (arg f).bind fun (v, f) => if f.returned then note true (pure (exit v, f)) else k v f

/-- What has no arguments. -/
def plain (c : Eval.Comp V S) : Comp V S := fun f => ofOption (c f)

/-! ## Functions -/

def evalArgs : List (Comp V S) → FscriptT S → Noted ((V ⊕ List V) × FscriptT S)
  | [], f => pure (.inr [], f)
  | arg :: args, f =>
    (arg f).bind fun (v, f) =>
      if f.left then pure (.inl v, f)
      else
        (evalArgs args f).map fun
          | (.inl w, f) => (.inl w, f)
          | (.inr vs, f) => (.inr (v :: vs), f)

def execExtFunc (func : List V → Comp V S) (args : List (Comp V S)) : Comp V S := fun f =>
  (evalArgs args f).bind fun
    | (.inl v, f) => pure (v, f)
    | (.inr vs, f) => func vs f

def funcFunction (params : List Str) (body : List (Comp V S)) (vs : List V) : Comp V S := fun f =>
  (execExtFunc (fun vs => plain (Eval.funcNoop host vs)) body
    { f with state := host.enter params vs f.state }).map fun (v, g) =>
    (v, { g with state := host.leave f.state g.state, returned := false })

/-! ## The core functions -/

def execIf : List (Comp V S) → Comp V S
  | [], f => pure (host.ofInt 0, f)
  | [otherwise], f => otherwise f
  | condition :: body :: args, f =>
    control id condition (fun v f => if host.valueBool v then body f else execIf args f) f

/-- A return leaves the body.  It is noted unless it is in the last expression. -/
def execLoopBody : List (Comp V S) → V → FscriptT S → Noted (V × Bool × FscriptT S)
  | [], v, f => pure (v, false, f)
  | arg :: args, _, f =>
    (arg f).bind fun (v, f) =>
      if f.breaked then pure (v, true, { f with breaked := false })
      else if f.returned then note (!args.isEmpty) (pure (v, true, f))
      else if f.continued then pure (v, false, { f with continued := false })
      else execLoopBody args v f

/-- A loop, where the head and what is behind the body may leave with a value. -/
def loop (head : Nat → FscriptT S → Noted ((V ⊕ Bool) × FscriptT S)) (body : List (Comp V S))
    (tail : Nat → FscriptT S → Noted (Option V × FscriptT S)) :
    (turns i : Nat) → V → FscriptT S → Noted (V × FscriptT S)
  | 0, _, _, _ => ofOption none
  | n + 1, i, v, f =>
    (head i f).bind fun
      | (.inl w, f) => pure (w, f)
      | (.inr false, f) => pure (v, f)
      | (.inr true, f) =>
        (execLoopBody body v f).bind fun (v, done, f) =>
          (tail i f).bind fun
            | (some w, f) => pure (w, f)
            | (none, f) => if done then pure (v, f) else loop head body tail n (i + 1) v f

def condHead (isWhile : Bool) (condition : Comp V S) (_ : Nat) :
    FscriptT S → Noted ((V ⊕ Bool) × FscriptT S) :=
  control .inl condition fun v f => pure (.inr (host.valueBool v == isWhile), f)

/-- A head without arguments. -/
def plainHead (head : Nat → FscriptT S → Bool × FscriptT S) (i : Nat) (f : FscriptT S) :
    Noted ((V ⊕ Bool) × FscriptT S) :=
  pure (.inr (head i f).1, (head i f).2)

def plainTail (tail : Nat → FscriptT S → Option (FscriptT S)) (i : Nat) (f : FscriptT S) :
    Noted (Option V × FscriptT S) :=
  ofOption ((tail i f).map fun f => (none, f))

/-- Behind a return the step is left out.  That is noted if the step would do something. -/
def forTail (idle : FscriptT S → Bool) (step : Comp V S) (_ : Nat) (f : FscriptT S) :
    Noted (Option V × FscriptT S) :=
  if f.returned then note (!idle f) (pure (none, f))
  else control some step (fun _ f => pure (none, f)) f

/-- A loop that is entered and left. -/
def inLoop (head : Nat → FscriptT S → Noted ((V ⊕ Bool) × FscriptT S)) (body : List (Comp V S))
    (tail : Nat → FscriptT S → Noted (Option V × FscriptT S)) (turns : Nat) (f : FscriptT S) :
    Noted (V × FscriptT S) :=
  (loop head body tail turns 0 host.invalid (enterLoop f)).map fun (v, f) => (v, leaveLoop f)

def checkFailed : Comp V S := fun f => pure (host.invalid, { f with state := host.checkFailed f.state })

def execWhileOrUntil (isWhile : Bool) (turns : Nat) : List (Comp V S) → Comp V S
  | condition :: arg :: args =>
    inLoop host (condHead host isWhile condition) (arg :: args) (plainTail Eval.noTail) turns
  | _ => checkFailed host

def execRepeat (turns : Nat) (var : Option Str) : List (Comp V S) → Comp V S
  | _ :: start :: stop :: delta :: arg :: args =>
    control id start fun v₁ => control id stop fun v₂ => control id delta fun v₃ f =>
      match var with
      | none => ofOption none
      | some var =>
        inLoop host (plainHead (Eval.repeatHead host var (host.valueInt v₁) (host.valueInt v₂)
            (host.valueInt v₃))) (arg :: args)
          (plainTail (Eval.repeatTail (host.valueInt v₁) (host.valueInt v₃))) turns f
  | _ => checkFailed host

def execFor (turns : Nat) (idle : FscriptT S → Bool) : List (Comp V S) → Comp V S
  | init :: condition :: step :: arg :: args =>
    control id init fun _ f =>
      inLoop host (condHead host true condition) (arg :: args) (forTail idle step) turns f
  | _ => checkFailed host

def execForIn (turns : Nat) (var : Option Str) : List (Comp V S) → Comp V S
  | _ :: obj :: arg :: args =>
    control id obj fun v f =>
      match host.size v f.state with
      | none => checkFailed host f
      | some n =>
        match var with
        | none => ofOption none
        | some var =>
          inLoop host (plainHead (Eval.forInHead host var v n)) (arg :: args)
            (plainTail Eval.noTail) turns f
  | _ => checkFailed host

def execRepeatTimes (turns : Nat) : List (Comp V S) → Comp V S
  | times :: arg :: args =>
    control id times fun v f =>
      inLoop host (plainHead fun i f => (decide (i < (host.valueInt v % 2 ^ 32).toNat), f))
        (arg :: args) (plainTail Eval.noTail) turns f
  | _ => checkFailed host

def execCoreFunc (turns : Nat) (var : Option Str) (idle : FscriptT S → Bool) (func : Core)
    (args : List (Comp V S)) : Comp V S :=
  match func with
  | .if => if args.length < 2 then fun f => pure (host.invalid, f) else execIf host args
  | .while => execWhileOrUntil host true turns args
  | .until => execWhileOrUntil host false turns args
  | .repeat => execRepeat host turns var args
  | .for => execFor host turns idle args
  | .forIn => execForIn host turns var args
  | .repeatTimes => execRepeatTimes host turns args
  | .functionDef => fun f => pure (host.invalid, f)

/-! ## Calls -/

def extFunc (callee : Node → Comp V S) (name : Str) : List V → Comp V S :=
  if name = nameReturn then fun vs => plain (Eval.funcReturn host vs)
  else if name = nameExpr then fun vs => plain (Eval.funcExpr host vs)
  else
    match host.funcDef name with
    | some (params, body) => funcFunction host params (body.map callee)
    | none => fun vs => plain (Eval.funcOther host name vs)

def namedArgs (name : Str) (args : List Node) (comps : List (Comp V S)) : List (Comp V S) :=
  match varName args with
  | some var => if takesName name then (fun f => pure (host.id var, f)) :: comps.tail else comps
  | none => comps

/-- The third argument of a `for`. -/
def forStep (args : List Node) : Node := args.getD 2 .invalid

variable [DecidableEq S]

mutual

/-- An argument, where a return leaves its function. -/
def evalNode (callee : Node → Comp V S) (turns : Nat) : Node → Comp V S
  | .id name => plain (Eval.execId host name)
  | .call name args =>
    match core name with
    | some func =>
      execCoreFunc host turns (varName args) (fun f => Eval.idle host f.state (forStep args)) func
        (evalNodes callee turns args)
    | none =>
      execExtFunc (extFunc host callee name) (namedArgs host name args (evalNodes callee turns args))
  | node => fun f => pure (host.literal node, f)

def evalNodes (callee : Node → Comp V S) (turns : Nat) : List Node → List (Comp V S)
  | [] => []
  | arg :: args => evalNode callee turns arg :: evalNodes callee turns args

end

def evalArg : Nat → Node → Comp V S
  | 0 => evalNode host (fun _ _ => ofOption none) 0
  | n + 1 => evalNode host (evalArg n) (n + 1)

/-- A script, where a return leaves its function. -/
def fscriptExec (n : Nat) (script : List Node) (state : S) : Noted (V × S) :=
  (evalArg host n (.call nameExpr script) ⟨state, 0, false, false, false⟩).map fun (v, f) =>
    (v, f.state)

end Unwind

end Awtk.Fscript
