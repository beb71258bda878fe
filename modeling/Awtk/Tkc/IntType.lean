import Mathlib

/-!
# The integer types

The eight types of fixed width, the numbers that they hold and the conversion to them.
-/

namespace Awtk

/-- `int8_t` to `uint64_t`. -/
inductive IntType where
  | int8
  | uint8
  | int16
  | uint16
  | int32
  | uint32
  | int64
  | uint64
  deriving DecidableEq, Repr

namespace IntType

def bits : IntType → Nat
  | .int8 | .uint8 => 8
  | .int16 | .uint16 => 16
  | .int32 | .uint32 => 32
  | .int64 | .uint64 => 64

def signed : IntType → Bool
  | .int8 | .int16 | .int32 | .int64 => true
  | .uint8 | .uint16 | .uint32 | .uint64 => false

/-- The least number of the type. -/
def least (t : IntType) : Int := if t.signed then -2 ^ (t.bits - 1) else 0

/-- The greatest number of the type. -/
def greatest (t : IntType) : Int := if t.signed then 2 ^ (t.bits - 1) - 1 else 2 ^ t.bits - 1

/-- The type has the number. -/
def Holds (t : IntType) (n : Int) : Prop := t.least ≤ n ∧ n ≤ t.greatest

instance (t : IntType) (n : Int) : Decidable (t.Holds n) := inferInstanceAs (Decidable (_ ∧ _))

/-- The conversion to the type. -/
def wrap (t : IntType) (n : Int) : Int :=
  if t.signed then (n + 2 ^ (t.bits - 1)) % 2 ^ t.bits - 2 ^ (t.bits - 1) else n % 2 ^ t.bits

variable {t : IntType} {n : Int}

theorem wrap_holds (t : IntType) (n : Int) : t.Holds (t.wrap n) := by
  cases t <;> simp only [Holds, least, greatest, wrap, signed, bits, if_true, Bool.false_eq_true,
    if_false] <;> omega

theorem wrap_eq (h : t.Holds n) : t.wrap n = n := by
  cases t <;> simp only [Holds, least, greatest, wrap, signed, bits, if_true, Bool.false_eq_true,
    if_false] at h ⊢ <;> omega

theorem wrap_eq_iff : t.wrap n = n ↔ t.Holds n := by
  constructor
  · intro h
    exact h ▸ t.wrap_holds n
  · exact wrap_eq

/-! ## Two types -/

/-- The numbers of a type are among those of another one. -/
def Within (t t' : IntType) : Prop := t'.least ≤ t.least ∧ t.greatest ≤ t'.greatest

instance (t t' : IntType) : Decidable (t.Within t') := inferInstanceAs (Decidable (_ ∧ _))

theorem Within.holds {t t' : IntType} (h : t.Within t') (hn : t.Holds n) : t'.Holds n :=
  ⟨Int.le_trans h.1 hn.1, Int.le_trans hn.2 h.2⟩

theorem dvd_wrap_sub (t : IntType) (n : Int) : (2 : Int) ^ t.bits ∣ t.wrap n - n := by
  cases t <;> simp only [wrap, signed, bits, if_true, Bool.false_eq_true, if_false] <;> omega

theorem wrap_congr {m : Int} (h : (2 : Int) ^ t.bits ∣ m - n) : t.wrap m = t.wrap n := by
  cases t <;> simp only [wrap, signed, bits, if_true, Bool.false_eq_true, if_false] at h ⊢ <;> omega

theorem wrap_wrap {t t' : IntType} (h : t.bits ≤ t'.bits) (n : Int) : t.wrap (t'.wrap n) = t.wrap n :=
  wrap_congr ((pow_dvd_pow 2 h).trans (t'.dvd_wrap_sub n))

end IntType

end Awtk
