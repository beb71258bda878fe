import Awtk.Tkc.DArray
import Awtk.Tkc.ValueCompare

/-!
# Named values

A value with a name.  Two of them are compared by their names, with the case of the letters or without.
Both comparisons order the names, and they find two names equal exactly if they are so in the same case.
-/

namespace Awtk

/-! ## The comparisons -/

def toLower (c : UInt8) : UInt8 := if 65 ≤ c ∧ c ≤ 90 then c + 32 else c

/-- `tk_strcmp`, of two strings. -/
def tkStrcmp (a b : Str) : Int := Value.cmpUnits a b

/-- `tk_stricmp`, of two strings. -/
def tkStricmp (a b : Str) : Int := Value.cmpUnits (a.map toLower) (b.map toLower)

/-- A name that is no path, no index and not reserved. -/
structure Name where
  text : Str
  plain : (∀ c ∈ text, c ≠ 0 ∧ c ≠ '.' ∧ c ≠ '[') ∧ text ≠ ['#', 's', 'i', 'z', 'e'] ∧
    text ≠ ['#', 'd', 'i', 's', 'a', 'b', 'l', 'e', '_', 'p', 'a', 't', 'h']
  deriving DecidableEq

/-- `named_value_t`. -/
structure NamedValue (V : Type) where
  name : Name
  value : V
  deriving DecidableEq

namespace NamedValue

variable {V : Type}

/-- `named_value_compare` and `named_value_compare_by_name`, of the names. -/
def compare (a b : Name) : Int := tkStrcmp a.text b.text

/-- `named_value_icompare` and `named_value_icompare_by_name`. -/
def icompare (a b : Name) : Int := tkStricmp a.text b.text

/-- The comparison that is in force. -/
def comparison (caseInsensitive : Bool) : Name → Name → Int := if caseInsensitive then icompare else compare

/-! ## Equal names -/

/-- The name as far as it counts. -/
def fold (caseInsensitive : Bool) (n : Name) : Str := if caseInsensitive then n.text.map toLower else n.text

/-- Names that are equal, perhaps but for the case of their letters. -/
def Same (caseInsensitive : Bool) (a b : Name) : Prop := fold caseInsensitive a = fold caseInsensitive b

instance (ci : Bool) (a b : Name) : Decidable (Same ci a b) := inferInstanceAs (Decidable (_ = _))

theorem Same.comm {ci : Bool} {a b : Name} : Same ci a b ↔ Same ci b a := eq_comm

theorem Same.trans {ci : Bool} {a b c : Name} (hab : Same ci a b) (hbc : Same ci b c) : Same ci a c :=
  Eq.trans hab hbc

theorem comparison_eq (ci : Bool) (a b : Name) :
    comparison ci a b = Value.cmpUnits (fold ci a) (fold ci b) := by
  cases ci <;> rfl

/-! ## The order -/

theorem cmpUnits_eq_zero (s t : Str) : Value.cmpUnits s t = 0 ↔ s = t := by
  rw [← compare_eq_iff_eq, Value.cmpUnits_sign, Std.compare_eq_iff_eq]

theorem cmpUnits_neg (s t : Str) : Value.cmpUnits s t < 0 ↔ Ord.compare s t = .lt := by
  rw [← compare_lt_iff_lt, Value.cmpUnits_sign]

theorem cmpUnits_pos (s t : Str) : 0 < Value.cmpUnits s t ↔ Ord.compare s t = .gt := by
  rw [← Value.cmpUnits_sign s t]
  exact compare_gt_iff_gt.symm

theorem cmpUnits_nonpos (s t : Str) : Value.cmpUnits s t ≤ 0 ↔ (Ord.compare s t).isLE = true := by
  rw [← Int.not_lt, cmpUnits_pos]
  cases Ord.compare s t <;> decide

theorem cmpUnits_isOrder : DArray.IsOrder (Value.cmpUnits (α := UInt8)) := by
  constructor
  · intro s t
    rw [cmpUnits_neg, cmpUnits_pos, Std.OrientedOrd.eq_swap]
    cases Ord.compare t s <;> decide
  · intro s t u hst htu
    rw [cmpUnits_nonpos] at hst htu ⊢
    exact Std.TransOrd.isLE_trans hst htu

theorem comparison_isOrder (ci : Bool) : DArray.IsOrder (comparison ci) := by
  constructor
  · intro a b
    rw [comparison_eq, comparison_eq]
    exact cmpUnits_isOrder.swap _ _
  · intro a b c
    rw [comparison_eq, comparison_eq, comparison_eq]
    exact cmpUnits_isOrder.trans _ _ _

theorem comparison_eq_zero (ci : Bool) (a b : Name) : comparison ci a b = 0 ↔ Same ci a b := by
  rw [comparison_eq, cmpUnits_eq_zero, Same]

end NamedValue

end Awtk
