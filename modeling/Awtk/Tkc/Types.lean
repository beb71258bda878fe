import Mathlib

/-!
# Return codes and machine words

`Ret` is `ret_t` and `Arch` is the machine.  A `uint32_t` is a natural number below `2 ^ 32` and its
arithmetic is `U32.add`, `U32.sub` and `U32.mul`, which wrap.  The lemmas beside
them say when nothing wraps.
-/

namespace Awtk

/-- `ret_t`. -/
inductive Ret where
  | ok
  | oom
  | fail
  | notImpl
  | quit
  | found
  | busy
  | remove
  | repeat
  | notFound
  | done
  | stop
  | skip
  | continue
  | objectChanged
  | itemsChanged
  | badParams
  | timeout
  | crc
  | io
  | eos
  | notModified
  | noPermission
  | invalidAddr
  | exceedRange
  | maxNr
  deriving DecidableEq, Repr

/-- The value of a return code as an integer.  `RET_OK` is `0`. -/
def Ret.toNat (r : Ret) : Nat := r.ctorIdx

/-- The machines `TK_ROUND_TO_MACH` tells apart, by `sizeof(void*)`. -/
inductive Arch where
  | bits32
  | bits64
  deriving DecidableEq, Repr

/-- `sizeof(void*)`. -/
def Arch.word : Arch → Nat
  | .bits32 => 4
  | .bits64 => 8

namespace U32

/-- Addition of two `uint32_t`. -/
def add (a b : Nat) : Nat := (a + b) % 2 ^ 32

/-- Subtraction of two `uint32_t`. -/
def sub (a b : Nat) : Nat := (a + (2 ^ 32 - b % 2 ^ 32)) % 2 ^ 32

/-- Multiplication of two `uint32_t`. -/
def mul (a b : Nat) : Nat := (a * b) % 2 ^ 32

theorem add_of_lt {a b : Nat} (h : a + b < 2 ^ 32) : add a b = a + b :=
  Nat.mod_eq_of_lt h

theorem add_add (a b c : Nat) : add (add a b) c = (a + b + c) % 2 ^ 32 := by
  rw [add, add, Nat.mod_add_mod]

theorem sub_of_le {a b : Nat} (h : b ≤ a) (ha : a < 2 ^ 32) : sub a b = a - b := by
  unfold sub
  omega

theorem mul_of_lt {a b : Nat} (h : a * b < 2 ^ 32) : mul a b = a * b :=
  Nat.mod_eq_of_lt h

theorem add_lt (a b : Nat) : add a b < 2 ^ 32 := Nat.mod_lt _ (by decide)

theorem sub_lt (a b : Nat) : sub a b < 2 ^ 32 := Nat.mod_lt _ (by decide)

end U32

/-- The value of an `int32_t`. -/
def wrapI32 (v : Int) : Int := (v + 2 ^ 31) % 2 ^ 32 - 2 ^ 31

theorem wrapI32_eq {v : Int} (hlo : -2 ^ 31 ≤ v) (hhi : v < 2 ^ 31) : wrapI32 v = v := by
  rw [wrapI32]
  omega

theorem wrapI32_lt (v : Int) : wrapI32 v < 2 ^ 31 := by
  rw [wrapI32]
  omega

namespace I32

/-- A `uint32_t` converted to `int`: two's complement. -/
def ofU32 (n : Nat) : Int := if n < 2 ^ 31 then n else (n : Int) - 2 ^ 32

theorem ofU32_of_lt {n : Nat} (h : n < 2 ^ 31) : ofU32 n = n := if_pos h

theorem ofU32_neg_of_ge {n : Nat} (h : 2 ^ 31 ≤ n) (hn : n < 2 ^ 32) : ofU32 n < 0 := by
  rw [ofU32, if_neg (Nat.not_lt.mpr h)]
  omega

end I32

end Awtk
