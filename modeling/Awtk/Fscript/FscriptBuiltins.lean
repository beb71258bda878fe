import Mathlib
import Awtk.Fscript.FscriptRepeat
import Awtk.Lib.Ieee

/-!
# The arithmetic of the built-in functions

`%`, `-`, the unary minus, `abs`, `random` and `sum` of `fscript.c`, with the C operators that
they apply.  An operator that must not be applied to its operands is a fault.  The functions do
not look at their operands first, so they are safe exactly where the operands are (`safe_iff`).
-/

namespace Awtk.Fscript.Builtins

/-! ## The operators of C -/

/-- What an operator on signed integers must not do. -/
inductive Fault where
  | zeroDivisor
  | quotient
  | overflow32
  | overflow64
  deriving DecidableEq

/-- The fault is one of `int32_t`. -/
def Fault.IsInt32 (f : Fault) : Prop := f ≠ .overflow64

instance (f : Fault) : Decidable f.IsInt32 := inferInstanceAs (Decidable (f ≠ _))

/-- The result of an operator on `int`. -/
def int32 (n : Int) : Except Fault Int := if InInt32 n then .ok n else .error .overflow32

/-- The result of an operator on `int64_t`. -/
def int64 (n : Int) : Except Fault Int :=
  if -2 ^ 63 ≤ n ∧ n < 2 ^ 63 then .ok n else .error .overflow64

/-- `%` of `int`. -/
def rem32 (a b : Int) : Except Fault Int :=
  if b = 0 then .error .zeroDivisor
  else if a = -2 ^ 31 ∧ b = -1 then .error .quotient
  else .ok (a.tmod b)

/-- `%` of `long`. -/
def rem64 (a b : Int) : Except Fault Int :=
  if b = 0 then .error .zeroDivisor
  else if a = -2 ^ 63 ∧ b = -1 then .error .overflow64
  else .ok (a.tmod b)

/-- `tk_abs`, with the negation of its type. -/
def tkAbs (neg : Int → Except Fault Int) (n : Int) : Except Fault Int :=
  if n < 0 then neg (-n) else .ok n

/-! ## The functions -/

/-- The integer that a value is. -/
def integer : Awtk.Value → Int
  | .bool v => v.toNat
  | .int8 v => v.toInt
  | .uint8 v => v.toNat
  | .int16 v => v.toInt
  | .uint16 v => v.toNat
  | .int32 v => v.toInt
  | .uint32 v => v.toNat
  | .int64 v => v.toInt
  | .uint64 v => v.toNat
  | _ => 0

def isFloat : Awtk.Value → Bool
  | .float _ | .float32 _ | .double _ => true
  | _ => false

def isStr : Awtk.Value → Bool
  | .str _ | .wstr _ => true
  | _ => false

def isBinary : Awtk.Value → Bool
  | .binary _ => true
  | _ => false

/-- A value of a type of numbers. -/
def isNumber (v : Awtk.Value) : Bool :=
  match v with
  | .bool _ | .int8 _ | .uint8 _ | .int16 _ | .uint16 _ | .int32 _ | .uint32 _ | .int64 _
  | .uint64 _ | .float _ | .float32 _ | .double _ => true
  | _ => false

/-- What floating point numbers, strings and binary data give. -/
structure Others where
  neg : Awtk.Value → UInt64
  sub : Awtk.Value → Awtk.Value → UInt64
  abs : Awtk.Value → UInt64
  sum : List Awtk.Value → UInt64
  append : List Awtk.Value → Except Fault Awtk.Value

variable (others : Others)

/-- What a function does: its return code and its result, or a fault. -/
abbrev Result := Except Fault (Ret × Awtk.Value)

/-- `value_set_int` of an `int`. -/
def setInt (n : Int) : Ret × Awtk.Value := (.ok, .int32 (Int32.ofInt n))

/-- `FSCRIPT_FUNC_CHECK` of the number of arguments fails.  The result is what it was. -/
def badParams : Result := .ok (.badParams, .int32 0)

def funcMinus : List Awtk.Value → Result
  | [.int32 n] => do return setInt (← int32 (-n.toInt))
  | [v] => .ok (.ok, .double (others.neg v))
  | _ => badParams

def funcMod : List Awtk.Value → Result
  | [v, w] => do return setInt (← rem32 v.toInt w.toInt)
  | _ => badParams

def funcSub : List Awtk.Value → Result
  | [] => badParams
  | [v] => funcMinus others [v]
  | .int32 m :: .int32 n :: _ => do return setInt (← int32 (m.toInt - n.toInt))
  | v :: w :: _ => .ok (.ok, .double (others.sub v w))

/-- `func_random`, with what `random` gives. -/
def funcRandom (random : Int) : List Awtk.Value → Result
  | [v, w] =>
    let min := v.toInt
    let max := w.toInt
    if min < max then do
      let range ← int32 (max - min)
      let r ← rem64 random range
      return setInt (← int64 (min + r))
    else .ok (setInt random)
  | _ => .ok (setInt random)

def funcAbs : List Awtk.Value → Result
  | [.int8 n] => do return (.ok, .int8 (Int8.ofInt (← tkAbs int32 n.toInt)))
  | [.uint8 n] => .ok (.ok, .uint8 n)
  | [.int16 n] => do return (.ok, .int16 (Int16.ofInt (← tkAbs int32 n.toInt)))
  | [.uint16 n] => .ok (.ok, .uint16 n)
  | [.int32 n] => do return setInt (← tkAbs int32 n.toInt)
  | [.uint32 n] => .ok (.ok, .uint32 n)
  | [.int64 n] => do return (.ok, .int64 (Int64.ofInt (← tkAbs int64 n.toInt)))
  | [.uint64 n] => .ok (.ok, .uint64 n)
  | [v] => .ok (.ok, .double (others.abs v))
  | _ => badParams

/-- The sum of integers as doubles. -/
def doubleSum (args : List Awtk.Value) : Int :=
  args.foldl (fun v arg => Ieee.roundInt (v + Ieee.roundInt (integer arg))) 0

/-- `func_sum`.  The sum of integers is converted to an `int`. -/
def funcSum (args : List Awtk.Value) : Result :=
  if args = [] then badParams
  else if args.any isStr || args.any isBinary then do return (.ok, ← others.append args)
  else if args.any isFloat then .ok (.ok, .double (others.sum args))
  else do return setInt (← int32 (doubleSum args))

/-- The built-in functions with raw operators. -/
inductive Builtin where
  | mod
  | sub
  | minus
  | abs
  | random
  | sum
  deriving DecidableEq

/-- A call that a script makes.  `random` is what the generator would give. -/
structure Call where
  func : Builtin
  args : List Awtk.Value
  random : Int

def Call.exec (c : Call) : Result :=
  match c.func with
  | .mod => funcMod c.args
  | .sub => funcSub others c.args
  | .minus => funcMinus others c.args
  | .abs => funcAbs others c.args
  | .random => funcRandom c.random c.args
  | .sum => funcSum others c.args

/-! ## What is wanted of them -/

/-- No fault of `int32_t`. -/
def Clean {α : Type} (r : Except Fault α) : Prop := ∀ f, r = .error f → ¬f.IsInt32

def Call.Safe (c : Call) : Prop := Clean (c.exec others)

/-- The arguments are numbers. -/
def Call.Numeric (c : Call) : Prop := c.args.all isNumber = true

/-- Not the smallest `int`. -/
def NotSmallest (v : Awtk.Value) : Prop := v ≠ .int32 (-2 ^ 31)

/-- The operands are in the domain of the operator. -/
def Call.Fits (c : Call) : Prop :=
  match c.func, c.args with
  | .mod, [v, w] => w.toInt ≠ 0 ∧ ¬(v.toInt = -2 ^ 31 ∧ w.toInt = -1)
  | .sub, [v] => NotSmallest v
  | .sub, .int32 m :: .int32 n :: _ => InInt32 (m.toInt - n.toInt)
  | .minus, [v] => NotSmallest v
  | .abs, [v] => NotSmallest v
  | .random, [v, w] => w.toInt - v.toInt < 2 ^ 31
  | .sum, args => args.any isFloat = true ∨ InInt32 (doubleSum args)
  | _, _ => True

/-- A script as these functions see it: its next call, from the results that it got so far. -/
abbrev Script := List Awtk.Value → Option Call

/-- The results that a script gets one after the other. -/
inductive Reached (script : Script) : List Awtk.Value → Prop where
  | start : Reached script []
  | call {results : List Awtk.Value} {c : Call} {ret : Ret} {v : Awtk.Value} :
      Reached script results → script results = some c → c.exec others = .ok (ret, v) →
      Reached script (results ++ [v])

/-- A property of all calls that a script makes. -/
def Script.Always (script : Script) (P : Call → Prop) : Prop :=
  ∀ results, Reached others script results → ∀ c, script results = some c → P c

/-! ## Operators -/

section Operators

variable {α β : Type} {n a b : Int}

@[simp] theorem clean_ok (x : α) : Clean (Except.ok x : Except Fault α) := nofun

@[simp] theorem clean_map (x : Except Fault α) (f : α → β) :
    Clean (x >>= fun a => pure (f a)) ↔ Clean x := by
  cases x with
  | error e =>
    constructor
    · intro h f hf
      cases hf
      exact h e rfl
    · intro h f hf
      cases hf
      exact h e rfl
  | ok x => exact iff_of_true (clean_ok _) (clean_ok _)

@[simp] theorem clean_int32 : Clean (int32 n) ↔ InInt32 n := by
  rw [int32]
  split
  case isTrue h => exact iff_of_true (clean_ok _) h
  case isFalse h => exact iff_of_false (fun hc => hc _ rfl (by decide)) h

theorem clean_int64 : Clean (int64 n) := by
  rw [int64]
  split
  · exact clean_ok _
  · intro f hf
    cases hf
    decide

@[simp] theorem clean_rem32 : Clean (rem32 a b) ↔ b ≠ 0 ∧ ¬(a = -2 ^ 31 ∧ b = -1) := by
  rw [rem32]
  split
  case isTrue h => exact iff_of_false (fun hc => hc _ rfl (by decide)) (fun hb => hb.1 h)
  case isFalse h =>
    split
    case isTrue hq => exact iff_of_false (fun hc => hc _ rfl (by decide)) (fun hb => hb.2 hq)
    case isFalse hq => exact iff_of_true (clean_ok _) ⟨h, hq⟩

theorem rem64_pos (hb : 0 < b) : rem64 a b = .ok (a.tmod b) := by
  rw [rem64, if_neg (by omega), if_neg (by omega)]

end Operators

/-! ## Functions -/

theorem int32_toInt (n : Int32) : InInt32 n.toInt := ⟨n.le_toInt, n.toInt_lt⟩

theorem inInt32_neg (n : Int32) : InInt32 (-n.toInt) ↔ NotSmallest (.int32 n) := by
  have hn := int32_toInt n
  have hsmallest : n = -2 ^ 31 ↔ n.toInt = -2 ^ 31 := by
    rw [← Int32.toInt_inj]
    rfl
  rw [NotSmallest, Ne, Awtk.Value.int32.injEq, hsmallest]
  rw [InInt32] at *
  omega

section Functions

variable {others : Others} {v w : Awtk.Value} {args : List Awtk.Value} {random : Int}

theorem clean_funcMinus : Clean (funcMinus others [v]) ↔ NotSmallest v := by
  cases v with
  | int32 n => rw [funcMinus, clean_map, clean_int32, inInt32_neg]
  | _ => exact iff_of_true (clean_ok _) nofun

theorem funcMinus_many : funcMinus others (v :: w :: args) = badParams := by
  cases v <;> rfl

theorem funcAbs_many : funcAbs others (v :: w :: args) = badParams := by
  cases v <;> rfl

theorem clean_funcSub :
    (Call.mk .sub (v :: w :: args) random).Safe others ↔
      (Call.mk .sub (v :: w :: args) random).Fits := by
  rw [Call.Safe, Call.exec, Call.Fits.eq_def]
  cases v with
  | int32 m =>
    cases w with
    | int32 n => exact (clean_map _ _).trans clean_int32
    | _ => exact iff_of_true (clean_ok _) trivial
  | _ =>
    simp only [funcSub]
    exact iff_of_true (clean_ok _) trivial

theorem clean_funcMod :
    Clean (funcMod [v, w]) ↔ w.toInt ≠ 0 ∧ ¬(v.toInt = -2 ^ 31 ∧ w.toInt = -1) := by
  rw [funcMod, clean_map, clean_rem32]

theorem clean_tkAbs_int32 {n : Int} (hn : InInt32 n) :
    Clean (tkAbs int32 n) ↔ InInt32 (-n) := by
  rw [tkAbs]
  split
  · exact clean_int32
  case isFalse h =>
    refine iff_of_true (clean_ok _) ?_
    rw [InInt32] at *
    omega

theorem clean_funcAbs : Clean (funcAbs others [v]) ↔ NotSmallest v := by
  cases v with
  | int32 n => rw [funcAbs, clean_map, clean_tkAbs_int32 (int32_toInt n), inInt32_neg]
  | int8 n =>
    have hlow := n.le_toInt
    have hhigh := n.toInt_lt
    rw [funcAbs, clean_map, clean_tkAbs_int32 (by rw [InInt32]; omega)]
    exact iff_of_true (by rw [InInt32]; omega) (by simp [NotSmallest])
  | int16 n =>
    have hlow := n.le_toInt
    have hhigh := n.toInt_lt
    rw [funcAbs, clean_map, clean_tkAbs_int32 (by rw [InInt32]; omega)]
    exact iff_of_true (by rw [InInt32]; omega) (by simp [NotSmallest])
  | int64 n =>
    rw [funcAbs, clean_map, tkAbs]
    refine iff_of_true ?_ (by simp [NotSmallest])
    split
    · exact clean_int64
    · exact clean_ok _
  | _ => exact iff_of_true (clean_ok _) (by simp [NotSmallest])

theorem clean_funcRandom : Clean (funcRandom random [v, w]) ↔ w.toInt - v.toInt < 2 ^ 31 := by
  have hv := inInt32_toInt v
  have hw := inInt32_toInt w
  simp only [funcRandom]
  split
  case isTrue hlt =>
    rcases Int.lt_or_le (w.toInt - v.toInt) (2 ^ 31) with hfits | hlarge
    · refine iff_of_true ?_ hfits
      have hrange : int32 (w.toInt - v.toInt) = .ok (w.toInt - v.toInt) := by
        rw [int32, if_pos]
        rw [InInt32]
        omega
      have hrem : rem64 random (w.toInt - v.toInt) = .ok (random.tmod (w.toInt - v.toInt)) :=
        rem64_pos (by omega)
      rw [hrange]
      change Clean (rem64 random (w.toInt - v.toInt) >>= _)
      rw [hrem]
      exact (clean_map _ _).mpr clean_int64
    · refine iff_of_false (fun hc => ?_) (Int.not_lt.mpr hlarge)
      have hrange : int32 (w.toInt - v.toInt) = .error .overflow32 := by
        rw [int32, if_neg]
        rw [InInt32]
        omega
      rw [hrange] at hc
      exact hc .overflow32 rfl (by decide)
  case isFalse hle => exact iff_of_true (clean_ok _) (by omega)

theorem clean_funcSum (hargs : args.all isNumber = true) :
    Clean (funcSum others args) ↔ args.any isFloat = true ∨ InInt32 (doubleSum args) := by
  have hplain : (args.any isStr || args.any isBinary) = false := by
    rw [Bool.or_eq_false_iff, List.any_eq_false, List.any_eq_false]
    rw [List.all_eq_true] at hargs
    constructor <;> intro v hv <;> have hnumber := hargs v hv <;>
      cases v <;> simp_all [isNumber, isStr, isBinary]
  rw [funcSum]
  split
  case isTrue hnil =>
    subst hnil
    exact iff_of_true (clean_ok _) (.inr (by decide))
  case isFalse =>
    rw [hplain, if_neg Bool.false_ne_true]
    cases args.any isFloat with
    | true => exact iff_of_true (clean_ok _) (.inl rfl)
    | false =>
      rw [if_neg Bool.false_ne_true, clean_map, clean_int32]
      simp

end Functions

theorem call_safe_iff (others : Others) {c : Call} (hc : c.Numeric) :
    c.Safe others ↔ c.Fits := by
  obtain ⟨func, args, random⟩ := c
  cases func with
  | mod =>
    rcases args with - | ⟨v, - | ⟨w, - | ⟨u, args⟩⟩⟩
    case cons.cons.nil => exact clean_funcMod
    all_goals exact iff_of_true (clean_ok _) trivial
  | sub =>
    rcases args with - | ⟨v, - | ⟨w, args⟩⟩
    · exact iff_of_true (clean_ok _) trivial
    · exact clean_funcMinus
    · exact clean_funcSub
  | minus =>
    rcases args with - | ⟨v, - | ⟨w, args⟩⟩
    · exact iff_of_true (clean_ok _) trivial
    · exact clean_funcMinus
    · refine iff_of_true ?_ trivial
      rw [Call.Safe, Call.exec, funcMinus_many]
      exact clean_ok _
  | abs =>
    rcases args with - | ⟨v, - | ⟨w, args⟩⟩
    · exact iff_of_true (clean_ok _) trivial
    · exact clean_funcAbs
    · refine iff_of_true ?_ trivial
      rw [Call.Safe, Call.exec, funcAbs_many]
      exact clean_ok _
  | random =>
    rcases args with - | ⟨v, - | ⟨w, - | ⟨u, args⟩⟩⟩
    case cons.cons.nil => exact clean_funcRandom
    all_goals exact iff_of_true (clean_ok _) trivial
  | sum => exact clean_funcSum hc

/-- All calls of a script are safe exactly when all of them have their operands in the domains of
the operators. -/
theorem safe_iff (others : Others) :
    (∀ c : Call, c.Numeric → (c.Safe others ↔ c.Fits)) ∧
      ∀ script : Script, script.Always others Call.Numeric →
        (script.Always others (Call.Safe others) ↔ script.Always others Call.Fits) := by
  refine ⟨fun c hc => call_safe_iff others hc, fun script hnumeric => ⟨?_, ?_⟩⟩
  · intro h results hreached c hc
    exact (call_safe_iff others (hnumeric results hreached c hc)).mp (h results hreached c hc)
  · intro h results hreached c hc
    exact (call_safe_iff others (hnumeric results hreached c hc)).mpr (h results hreached c hc)

/-- What the floating point functions give in the examples. -/
def zeros : Others := ⟨fun _ => 0, fun _ _ => 0, fun _ => 0, fun _ => 0, fun _ => .ok (.str none)⟩

/-- `safe_iff` on a remainder and a sum. -/
theorem safe_iff_seven : (Call.mk .mod [.int32 7, .int64 (-3)] 0).Safe zeros ∧
    (Call.mk .sum [.uint32 7, .int8 (-3)] 0).Safe zeros :=
  ⟨((safe_iff zeros).1 (.mk .mod [.int32 7, .int64 (-3)] 0) rfl).mpr ⟨by decide, by decide⟩,
    ((safe_iff zeros).1 (.mk .sum [.uint32 7, .int8 (-3)] 0) rfl).mpr (.inr (by decide))⟩

/-- The faults that numbers lead to. -/
theorem faults :
    (Call.mk .mod [.int32 7, .int32 0] 0).exec zeros = .error .zeroDivisor ∧
      (Call.mk .mod [.int32 (-2 ^ 31), .int32 (-1)] 0).exec zeros = .error .quotient ∧
      (Call.mk .sub [.int32 (-2 ^ 31), .int32 1] 0).exec zeros = .error .overflow32 ∧
      (Call.mk .minus [.int32 (-2 ^ 31)] 0).exec zeros = .error .overflow32 ∧
      (Call.mk .abs [.int32 (-2 ^ 31)] 0).exec zeros = .error .overflow32 ∧
      (Call.mk .random [.int32 (-2 ^ 31), .int32 1] 0).exec zeros = .error .overflow32 ∧
      (Call.mk .sum [.int32 (2 ^ 31 - 1), .int32 1] 0).exec zeros = .error .overflow32 ∧
      ¬(Call.mk .mod [.int32 7, .int32 0] 0).Safe zeros := by
  refine ⟨by decide, by decide, by decide, by decide, by decide, by decide, by decide, ?_⟩
  intro h
  exact h .zeroDivisor (by decide) (by decide)

end Awtk.Fscript.Builtins
