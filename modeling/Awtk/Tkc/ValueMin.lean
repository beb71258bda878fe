import Awtk.Lib.Extremum
import Awtk.Tkc.ValueArith
import Awtk.Tkc.ValueCompare

/-!
# The least and the greatest value of an array

`value_min` and `value_max` compare all values of an array as the type of the first one.  So a number can
be cut off, wrapped or rounded before it is compared, and `min_max_iff` says when the number that is found
is the least or the greatest one anyway.
-/

namespace Awtk.Value

open List Option

/-! ## The code -/

section Code

-- `tk_atof` and `tk_watof`, as far as the text is of a rational number
variable (atof : Value → Option ℚ)

/-- `value_double`, unless it is a NaN or infinite. -/
def toDouble (v : Value) : Option ℚ :=
  match v with
  | .int8 n => some n.toInt
  | .uint8 n => some n.toNat
  | .int16 n => some n.toInt
  | .uint16 n => some n.toNat
  | .int32 n => some n.toInt
  | .uint32 n => some n.toNat
  | .int64 n => some (Ieee.roundInt n.toInt)
  | .uint64 n => some (Ieee.roundInt n.toNat)
  | .float bits | .float32 bits => Ieee.value (Ieee.widen bits)
  | .double bits => Ieee.value bits
  | .str _ | .wstr _ => atof v
  | .bool b => some (if b then 1 else 0)
  | .pointer _ | .binary _ | .other => some 0

/-- `value_str`. -/
def toStr : Value → Option Str
  | .str s => s
  | _ => none

/-- `value_wstr`. -/
def toWstr : Value → Option (List UInt32)
  | .wstr s => s
  | _ => none

/-- The order of two doubles, of which there is none with a NaN. -/
def doubleOrder : Option ℚ → Option ℚ → Ordering
  | some a, some b => Ord.compare a b
  | _, _ => .eq

/-- How values are compared, from the type of the first one. -/
def comparison (type : ValueType) : Option (Value → Value → Ordering) :=
  if ValueType.int8.toNat ≤ type.toNat ∧ type.toNat < ValueType.uint64.toNat then
    some fun v w => Ord.compare v.toInt64 w.toInt64
  else if type = .uint64 then
    some fun v w => Ord.compare v.toUInt64 w.toUInt64
  else if type = .string then
    some fun v w => Ord.compare (tkCmp v.toStr w.toStr) 0
  else if type = .wstring then
    some fun v w => Ord.compare (tkCmp v.toWstr w.toWstr) 0
  else if ValueType.float.toNat ≤ type.toNat ∧ type.toNat ≤ ValueType.double.toNat then
    some fun v w => doubleOrder (v.toDouble atof) (w.toDouble atof)
  else none

/-- The loop of both functions, which keeps the value that is on the given side of all others so far. -/
def select (side : Ordering) (arr : List Value) : Except Ret Value :=
  match arr with
  | [] => .error .badParams
  | first :: _ =>
    match comparison atof first.type with
    | none => .error .notImpl
    | some order => .ok (arr.foldl (fun r v => if order v r = side then v else r) first)

def valueMin (arr : List Value) : Except Ret Value := select atof .lt arr

def valueMax (arr : List Value) : Except Ret Value := select atof .gt arr

end Code

/-! ## Numbers -/

/-- The number of a value of an integer or floating type. -/
def number : Value → Option ℚ
  | .float bits | .float32 bits => Ieee.value (Ieee.widen bits)
  | .double bits => Ieee.value bits
  | v => v.payload.map fun p => p.2

/-- The integer and floating types. -/
def ValueType.numeric : ValueType → Bool
  | .int8 | .uint8 | .int16 | .uint16 | .int32 | .uint32 | .int64 | .uint64 => true
  | .float | .float32 | .double => true
  | .invalid | .bool | .pointer | .string | .wstring | .object => false

/-- A value that is a number. -/
structure Number where
  val : Value
  isNumber : val.number.isSome
  deriving DecidableEq

namespace Number

/-- The number. -/
def toRat (v : Number) : ℚ := v.val.number.get v.isNumber

/-- What `value_min` and `value_max` compare of a number, from the type of the first one. -/
def key (type : ValueType) (v : Number) : ℚ :=
  if ValueType.int8.toNat ≤ type.toNat ∧ type.toNat < ValueType.uint64.toNat then v.val.toInt64
  else if type = .uint64 then v.val.toUInt64
  else ((v.val.toDouble fun _ => none).getD 0)

theorem type_numeric (v : Number) : v.val.type.numeric = true := by
  cases v with
  | mk v hv =>
  cases v with
  | bool b | pointer v | str s | wstr s | binary d | other => cases hv
  | _ => rfl

theorem toDouble_eq (v : Number) (atof : Value → Option ℚ) :
    v.val.toDouble atof = some ((v.val.toDouble fun _ => none).getD 0) := by
  cases v with
  | mk v hv =>
  cases v with
  | float bits | float32 bits | double bits =>
    cases isSome_iff_exists.mp hv with
    | intro q hq =>
      rw [number] at hq
      simp only [toDouble, hq, getD_some]
  | bool b | pointer v | str s | wstr s | binary d | other => cases hv
  | _ => rfl

theorem comparison_eq {type : ValueType} (htype : type.numeric = true) (atof : Value → Option ℚ) :
    ∃ order, comparison atof type = some order ∧
      ∀ v w : Number, order v.val w.val = Ord.compare (v.key type) (w.key type) := by
  have hcast (a b : Int) : Ord.compare a b = Ord.compare (a : ℚ) b := by
    rw [← cmp_eq_compare, ← cmp_eq_compare, Int.cast_strictMono.cmp_map_eq]
  cases type with
  | int8 | uint8 | int16 | uint16 | int32 | uint32 | int64 | uint64 =>
    exact ⟨_, rfl, fun v w => hcast _ _⟩
  | float | float32 | double =>
    refine ⟨fun v w => doubleOrder (v.toDouble atof) (w.toDouble atof), rfl, fun v w => ?_⟩
    change doubleOrder (v.val.toDouble atof) (w.val.toDouble atof) = _
    rw [v.toDouble_eq atof, w.toDouble_eq atof]
    rfl
  | invalid | bool | pointer | string | wstring | object => cases htype

end Number

/-! ## The loops -/

theorem foldl_val {before : Value → Value → Prop} [DecidableRel before] {before' : Number → Number → Prop}
    [DecidableRel before'] (h : ∀ v r : Number, before v.val r.val ↔ before' v r) (arr : List Number)
    (r : Number) :
    (arr.map Number.val).foldl (fun r v => if before v r then v else r) r.val =
      (arr.foldl (fun r v => if before' v r then v else r) r).val := by
  induction arr generalizing r with
  | nil => rfl
  | cons v arr ih =>
    rw [map_cons, foldl_cons, foldl_cons, ← ih]
    congr 1
    simp only [h]
    exact (apply_ite Number.val _ _ _).symm

theorem select_cons {atof : Value → Option ℚ} {first : Value} {order : Value → Value → Ordering}
    (h : comparison atof first.type = some order) (side : Ordering) (rest : List Value) :
    select atof side (first :: rest) =
      .ok ((first :: rest).foldl (fun r v => if order v r = side then v else r) first) := by
  rw [select, h]

theorem valueMin_eq (first : Number) (rest : List Number) (atof : Value → Option ℚ) :
    valueMin atof ((first :: rest).map Number.val) =
      .ok (Extremum.pick (Number.key first.val.type) first (first :: rest)).val := by
  cases Number.comparison_eq first.type_numeric atof with
  | intro order h =>
    rw [valueMin, map_cons, select_cons h.1, ← map_cons]
    refine congrArg Except.ok (foldl_val (fun v r => ?_) _ _)
    rw [h.2, compare_lt_iff_lt]

theorem valueMax_eq (first : Number) (rest : List Number) (atof : Value → Option ℚ) :
    valueMax atof ((first :: rest).map Number.val) =
      .ok (Extremum.pick (fun v => -v.key first.val.type) first (first :: rest)).val := by
  cases Number.comparison_eq first.type_numeric atof with
  | intro order h =>
    rw [valueMax, map_cons, select_cons h.1, ← map_cons]
    refine congrArg Except.ok (foldl_val (fun v r => ?_) _ _)
    rw [h.2, compare_gt_iff_gt, neg_lt_neg_iff]

/-! ## Least and greatest numbers -/

section Extrema

variable {arr : List Number} {m : Number}

/-- No number of the array is smaller. -/
def Least (arr : List Number) (m : Number) : Prop := ∀ v ∈ arr, m.toRat ≤ v.toRat

/-- No number of the array is greater. -/
def Greatest (arr : List Number) (m : Number) : Prop := ∀ v ∈ arr, v.toRat ≤ m.toRat

/-- A result that is stored is one of the numbers, and a good one. -/
def Finds (result : Except Ret Value) (arr : List Number) (Good : Number → Prop) : Prop :=
  ∀ r, result = .ok r → ∃ m ∈ arr, m.val = r ∧ Good m

/-- What is compared of the numbers of an array. -/
def firstKey (arr : List Number) : Number → ℚ :=
  match arr with
  | [] => fun _ => 0
  | first :: _ => Number.key first.val.type

/-- Every number that is not good stands behind a good one, in the order of the keys and of the places
among equal keys. -/
def GoodFirst (f : Number → ℚ) (arr : List Number) (Good : Number → Prop) : Prop :=
  ∀ i : Fin arr.length, ¬ Good arr[i] → ∃ j : Fin arr.length, Good arr[j] ∧ Extremum.Precedes f arr j i

theorem finds_pick_iff (f : Number → ℚ) (first : Number) (rest : List Number) (Good : Number → Prop) :
    Finds (.ok (Extremum.pick f first (first :: rest)).val) (first :: rest) Good ↔
      GoodFirst f (first :: rest) Good := by
  rw [Extremum.pick_cons_self]
  have hpick := Extremum.argmin_cons_eq f first rest
  rw [GoodFirst, ← Extremum.argmin_good_iff hpick]
  constructor
  · intro h
    cases h _ rfl with
    | intro m hm =>
      have heq : m = Extremum.pick f first rest := by
        cases m
        cases hm.2.1
        rfl
      exact heq ▸ hm.2.2
  · rintro h r ⟨⟩
    exact ⟨_, argmin_mem hpick, rfl, h⟩

/-- The minimum and the maximum are right exactly if the least and the greatest numbers are first in the
order in which the type of the first value is compared. -/
theorem min_max_iff (atof : Value → Option ℚ) (arr : List Number) :
    (Finds (valueMin atof (arr.map Number.val)) arr (Least arr) ↔
      GoodFirst (firstKey arr) arr (Least arr)) ∧
    (Finds (valueMax atof (arr.map Number.val)) arr (Greatest arr) ↔
      GoodFirst (fun v => -firstKey arr v) arr (Greatest arr)) := by
  cases arr with
  | nil =>
    have hnone {Good : Number → Prop} {f : Number → ℚ} : GoodFirst f [] Good := fun i => i.elim0
    exact ⟨iff_of_true (fun r h => nomatch h) hnone, iff_of_true (fun r h => nomatch h) hnone⟩
  | cons first rest =>
    rw [valueMin_eq, valueMax_eq]
    exact ⟨finds_pick_iff _ first rest _, finds_pick_iff _ first rest _⟩

/-- `2 ^ 63` is negative as an `int64_t`. -/
theorem min_int8_uint64 :
    valueMin (fun _ => none) [.int8 1, .uint64 (2 ^ 63)] = .ok (.uint64 (2 ^ 63)) ∧
      ¬ ∀ (atof : Value → Option ℚ) (arr : List Number),
        Finds (valueMin atof (arr.map Number.val)) arr (Least arr) ∧
          Finds (valueMax atof (arr.map Number.val)) arr (Greatest arr) := by
  have hmin : valueMin (fun _ => none) [.int8 1, .uint64 (2 ^ 63)] = .ok (.uint64 (2 ^ 63)) := by
    decide +kernel
  refine ⟨hmin, fun h => ?_⟩
  cases (h (fun _ => none) [⟨.int8 1, rfl⟩, ⟨.uint64 (2 ^ 63), rfl⟩]).1 _ hmin with
  | intro m hm =>
    have hle := hm.2.2 ⟨.int8 1, rfl⟩ (.head _)
    cases m with
    | mk v hv =>
      cases hm.2.1
      have hle : Number.toRat ⟨.uint64 (2 ^ 63), rfl⟩ ≤ Number.toRat ⟨.int8 1, rfl⟩ := hle
      exact absurd hle (by decide +kernel)

end Extrema

end Awtk.Value
