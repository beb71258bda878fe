import Awtk.Tkc.Types
import Awtk.Tkc.Value

/-!
# Arithmetic on values

`value_add`, `value_sub`, `value_mul`, `value_div` and `value_mod`.  Each has a case for every type, with a
type for the result in between and a wider one for a result that does not fit.  Where the arithmetic of C
has no result there is none here.  `arith_iff` says when the operations on two values of one type are
right.
-/

namespace Awtk.Value

open Option

/-! ## Types -/

/-- `value_type_t`, with one name for the types behind strings. -/
inductive ValueType where
  | invalid
  | bool
  | int8
  | uint8
  | int16
  | uint16
  | int32
  | uint32
  | int64
  | uint64
  | pointer
  | float
  | float32
  | double
  | string
  | wstring
  | object
  deriving DecidableEq

/-- The number of a type. -/
def ValueType.toNat (t : ValueType) : Nat := t.ctorIdx

/-- The type of a value. -/
def type : Value → ValueType
  | .bool _ => .bool
  | .int8 _ => .int8
  | .uint8 _ => .uint8
  | .int16 _ => .int16
  | .uint16 _ => .uint16
  | .int32 _ => .int32
  | .uint32 _ => .uint32
  | .int64 _ => .int64
  | .uint64 _ => .uint64
  | .pointer _ => .pointer
  | .float _ => .float
  | .float32 _ => .float32
  | .double _ => .double
  | .str _ => .string
  | .wstr _ => .wstring
  | .binary _ | .other => .object

/-- The greater one of two types, by `tk_max_int`. -/
def maxType (v w : Value) : ValueType := if w.type.toNat < v.type.toNat then v.type else w.type

end Awtk.Value

namespace Awtk

/-- The name of an integer type among the types of values. -/
def IntType.valueType : IntType → Value.ValueType
  | .int8 => .int8
  | .uint8 => .uint8
  | .int16 => .int16
  | .uint16 => .uint16
  | .int32 => .int32
  | .uint32 => .uint32
  | .int64 => .int64
  | .uint64 => .uint64

/-- The value that a setter stores. -/
def IntType.value : IntType → Int → Value
  | .int8, n => .int8 (Int8.ofInt n)
  | .uint8, n => .uint8 (UInt8.ofInt n)
  | .int16, n => .int16 (Int16.ofInt n)
  | .uint16, n => .uint16 (UInt16.ofInt n)
  | .int32, n => .int32 (Int32.ofInt n)
  | .uint32, n => .uint32 (UInt32.ofInt n)
  | .int64, n => .int64 (Int64.ofInt n)
  | .uint64, n => .uint64 (UInt64.ofInt n)

end Awtk

namespace Awtk.Value

/-- The getter of a type. -/
def toType (v : Value) (t : IntType) : Int := (Getter.of t).get v

/-! ## The operations -/

/-- The conversions to floating point numbers and the arithmetic on them. -/
structure Floats where
  toFloat32 : Value → UInt32
  toDouble : Value → UInt64
  add32 : UInt32 → UInt32 → UInt32
  sub32 : UInt32 → UInt32 → UInt32
  mul32 : UInt32 → UInt32 → UInt32
  div32 : UInt32 → UInt32 → UInt32
  add : UInt64 → UInt64 → UInt64
  sub : UInt64 → UInt64 → UInt64
  mul : UInt64 → UInt64 → UInt64
  div : UInt64 → UInt64 → UInt64

/-- The type in which C computes with two numbers of a type. -/
def promoted : IntType → IntType
  | .int8 | .uint8 | .int16 | .uint16 | .int32 => .int32
  | t => t

/-- A result of the type of the arithmetic, which wraps unless the type is signed. -/
def computed (via : IntType) (r : Int) : Option Int :=
  if via.signed ∧ ¬ via.Holds r then none else some (via.wrap r)

/-- A result that is computed in a type, stored in a variable `vv` of another type, and set as the type of
the arguments where that holds it. -/
def widened (via mid t : IntType) (r : Int) : Option (Except Ret Value) :=
  (computed via r).map fun r =>
    let vv := mid.wrap r
    .ok (if t.Holds vv then t.value vv else mid.value vv)

/-- A result that is set as the type of the arguments. -/
def plain (t : IntType) (r : Int) : Option (Except Ret Value) :=
  (computed (promoted t) r).map fun r => .ok (t.value r)

variable (F : Floats)

/-- `value_add`. -/
def add (v w : Value) : Option (Except Ret Value) :=
  match maxType v w with
  | .bool => plain .int8 (Getter.bool.get v + Getter.bool.get w)
  | .int8 => widened .int32 .int16 .int8 (v.toType .int8 + w.toType .int8)
  | .uint8 => widened .int32 .int16 .uint8 (v.toType .uint8 + w.toType .uint8)
  | .int16 => widened .int32 .int32 .int16 (v.toType .int16 + w.toType .int16)
  | .uint16 => widened .int32 .int32 .uint16 (v.toType .uint16 + w.toType .uint16)
  | .int32 => plain .int32 (v.toType .int32 + w.toType .int32)
  | .uint32 => plain .uint32 (v.toType .uint32 + w.toType .uint32)
  | .int64 => plain .int64 (v.toType .int64 + w.toType .int64)
  | .uint64 => plain .uint64 (v.toType .uint64 + w.toType .uint64)
  | .float32 => some (.ok (.float32 (F.add32 (F.toFloat32 v) (F.toFloat32 w))))
  | .float | .double => some (.ok (.double (F.add (F.toDouble v) (F.toDouble w))))
  | _ => some (.error .badParams)

/-- `value_sub`. -/
def sub (v w : Value) : Option (Except Ret Value) :=
  match maxType v w with
  | .bool => plain .int8 (Getter.bool.get v - Getter.bool.get w)
  | .int8 => widened .int32 .int16 .int8 (v.toType .int8 - w.toType .int8)
  | .uint8 => widened .int32 .int16 .uint8 (v.toType .uint8 - w.toType .uint8)
  | .int16 => widened .int32 .int32 .int16 (v.toType .int16 - w.toType .int16)
  | .uint16 => widened .int32 .int32 .uint16 (v.toType .uint16 - w.toType .uint16)
  | .int32 => widened .int64 .int64 .int32 (v.toType .int32 - w.toType .int32)
  | .uint32 => widened .int64 .int64 .uint32 (v.toType .uint32 - w.toType .uint32)
  | .int64 => plain .int64 (v.toType .int64 - w.toType .int64)
  | .uint64 => plain .uint64 (v.toType .uint64 - w.toType .uint64)
  | .float32 => some (.ok (.float32 (F.sub32 (F.toFloat32 v) (F.toFloat32 w))))
  | .float | .double => some (.ok (.double (F.sub (F.toDouble v) (F.toDouble w))))
  | _ => some (.error .badParams)

/-- `value_mul`. -/
def mul (v w : Value) : Option (Except Ret Value) :=
  match maxType v w with
  | .bool => plain .int8 (Getter.bool.get v * Getter.bool.get w)
  | .int8 => widened .int32 .int16 .int8 (v.toType .int8 * w.toType .int8)
  | .uint8 => widened .int32 .int16 .uint8 (v.toType .uint8 * w.toType .uint8)
  | .int16 => widened .int32 .int32 .int16 (v.toType .int16 * w.toType .int16)
  | .uint16 => widened .int32 .int32 .uint16 (v.toType .uint16 * w.toType .uint16)
  | .int32 => plain .int32 (v.toType .int32 * w.toType .int32)
  | .uint32 => plain .uint32 (v.toType .uint32 * w.toType .uint32)
  | .int64 => plain .int64 (v.toType .int64 * w.toType .int64)
  | .uint64 => plain .uint64 (v.toType .uint64 * w.toType .uint64)
  | .float32 => some (.ok (.float32 (F.mul32 (F.toFloat32 v) (F.toFloat32 w))))
  | .float | .double => some (.ok (.double (F.mul (F.toDouble v) (F.toDouble w))))
  | _ => some (.error .badParams)

def divisorIsZero (w : Value) : ValueType → Bool
  | .bool => ¬ w.toBool
  | .int8 => w.toInt8 = 0
  | .uint8 => w.toUInt8 = 0
  | .int16 => w.toInt16 = 0
  | .uint16 => w.toUInt16 = 0
  | .int32 => w.toInt32 = 0
  | .uint32 => w.toUInt32 = 0
  | .int64 => w.toInt64 = 0
  | .uint64 => w.toUInt64 = 0
  | _ => false

/-- A quotient or a remainder.  C has neither of them where the quotient overflows or the divisor is
zero. -/
def divided (t : IntType) (op : Int → Int → Int) (a b : Int) : Option (Except Ret Value) :=
  if b = 0 then none
  else (computed (promoted t) (a.tdiv b)).map fun _ => .ok (t.value (op a b))

/-- `value_div`. -/
def div (v w : Value) : Option (Except Ret Value) :=
  if (maxType v w).toNat ≤ ValueType.uint64.toNat ∧ divisorIsZero w (maxType v w) then
    some (.error .badParams)
  else
    match maxType v w with
    | .bool => divided .int8 Int.tdiv (Getter.bool.get v) (Getter.bool.get w)
    | .int8 => divided .int8 Int.tdiv (v.toType .int8) (w.toType .int8)
    | .uint8 => divided .uint8 Int.tdiv (v.toType .uint8) (w.toType .uint8)
    | .int16 => divided .int16 Int.tdiv (v.toType .int16) (w.toType .int16)
    | .uint16 => divided .uint16 Int.tdiv (v.toType .uint16) (w.toType .uint16)
    | .int32 => divided .int32 Int.tdiv (v.toType .int32) (w.toType .int32)
    | .uint32 => divided .uint32 Int.tdiv (v.toType .uint32) (w.toType .uint32)
    | .int64 => divided .int64 Int.tdiv (v.toType .int64) (w.toType .int64)
    | .uint64 => divided .uint64 Int.tdiv (v.toType .uint64) (w.toType .uint64)
    | .float32 => some (.ok (.float32 (F.div32 (F.toFloat32 v) (F.toFloat32 w))))
    | .float | .double => some (.ok (.double (F.div (F.toDouble v) (F.toDouble w))))
    | _ => some (.error .badParams)

/-- `value_mod`. -/
def mod (v w : Value) : Option (Except Ret Value) :=
  if (maxType v w).toNat ≤ ValueType.uint64.toNat ∧ divisorIsZero w (maxType v w) then
    some (.error .badParams)
  else
    match maxType v w with
    | .bool => divided .int8 Int.tmod (Getter.bool.get v) (Getter.bool.get w)
    | .int8 => divided .int8 Int.tmod (v.toType .int8) (w.toType .int8)
    | .uint8 => divided .uint8 Int.tmod (v.toType .uint8) (w.toType .uint8)
    | .int16 => divided .int16 Int.tmod (v.toType .int16) (w.toType .int16)
    | .uint16 => divided .uint16 Int.tmod (v.toType .uint16) (w.toType .uint16)
    | .int32 => divided .int32 Int.tmod (v.toType .int32) (w.toType .int32)
    | .uint32 => divided .uint32 Int.tmod (v.toType .uint32) (w.toType .uint32)
    | .int64 => divided .int64 Int.tmod (v.toType .int64) (w.toType .int64)
    | .uint64 => divided .uint64 Int.tmod (v.toType .uint64) (w.toType .uint64)
    | _ => some (.error .badParams)

/-! ## What is right -/

/-- The operations. -/
inductive ArithOp where
  | add
  | sub
  | mul
  | div
  | mod
  deriving DecidableEq

/-- The number is stored, whatever integer type it got. -/
def Stores (result : Option (Except Ret Value)) (n : Int) : Prop :=
  ∃ r t, result = some (.ok r) ∧ r.payload = some (t, n)

/-- The operation is right: it stores the sum, difference or product, and a division is defined and refused
exactly for a zero divisor. -/
def OpRight (op : ArithOp) (v w : Value) (a b : Int) : Prop :=
  match op with
  | .add => Stores (add F v w) (a + b)
  | .sub => Stores (sub F v w) (a - b)
  | .mul => Stores (mul F v w) (a * b)
  | .div => ∃ result, div F v w = some result ∧ (result = .error .badParams ↔ b = 0)
  | .mod => ∃ result, mod v w = some result ∧ (result = .error .badParams ↔ b = 0)

/-- Sums and products that are not widened have to fit, as the products of the small unsigned types have to fit
the signed type that holds them, and the least `int32_t` is not divided by `-1`. -/
def OpFits (op : ArithOp) (t : IntType) (a b : Int) : Prop :=
  match op with
  | .add => t.bits = 32 → t.Holds (a + b)
  | .sub => True
  | .mul => (t = .uint8 → IntType.int16.Holds (a * b)) ∧ (t = .uint16 → IntType.int32.Holds (a * b)) ∧
      (t.bits = 32 → t.Holds (a * b))
  | .div | .mod => ¬ (t = .int32 ∧ a = t.least ∧ b = -1)

/-! ## Values of one type -/

variable {F} {v w : Value} {t : IntType} {a b n r : Int}

theorem type_of_payload (h : v.payload = some (t, n)) : v.type = t.valueType := by
  cases v <;> simp only [payload, Option.some.injEq, Prod.mk.injEq, reduceCtorEq] at h <;>
    obtain ⟨rfl, rfl⟩ := h <;> rfl

theorem maxType_of_payload (hv : v.payload = some (t, a)) (hw : w.payload = some (t, b)) :
    maxType v w = t.valueType := by
  rw [maxType, type_of_payload hv, type_of_payload hw, ite_self]

theorem toType_of_payload (h : v.payload = some (t, n)) : v.toType t = n := by
  cases v <;> simp only [payload, Option.some.injEq, Prod.mk.injEq, reduceCtorEq] at h <;>
    obtain ⟨rfl, rfl⟩ := h <;> rfl

theorem payload_value (t : IntType) (n : Int) : (t.value n).payload = some (t, t.wrap n) := by
  have hcut (k : Nat) : ((n % 2 ^ k).toNat % 2 ^ k : Nat) = n % 2 ^ k := by
    have hpos : (0 : Int) < 2 ^ k := Int.pow_pos (by decide)
    have hnonneg := Int.emod_nonneg n hpos.ne'
    rw [Int.natCast_mod, Int.toNat_of_nonneg hnonneg]
    exact Int.emod_emod_of_dvd n (dvd_refl _)
  have hsome (t : IntType) {m m' : Int} (h : m = m') : some (t, m) = some (t, m') := by rw [h]
  cases t with
  | int8 => exact hsome .int8 (Int8.toInt_ofInt.trans (bmod_eq_wrap (t := .int8) rfl n))
  | uint8 => exact hsome .uint8 (hcut 8)
  | int16 => exact hsome .int16 (Int16.toInt_ofInt.trans (bmod_eq_wrap (t := .int16) rfl n))
  | uint16 => exact hsome .uint16 (hcut 16)
  | int32 => exact hsome .int32 (Int32.toInt_ofInt.trans (bmod_eq_wrap (t := .int32) rfl n))
  | uint32 => exact hsome .uint32 (hcut 32)
  | int64 => exact hsome .int64 (Int64.toInt_ofInt.trans (bmod_eq_wrap (t := .int64) rfl n))
  | uint64 => exact hsome .uint64 (hcut 64)

/-! ## Results -/

theorem computed_of_holds {via : IntType} (h : via.Holds r) : computed via r = some r := by
  rw [computed, if_neg (fun hc => hc.2 h), IntType.wrap_eq h]

theorem computed_of_unsigned {via : IntType} (h : via.signed = false) : computed via r = some (via.wrap r) := by
  rw [computed, if_neg (fun hc => Bool.false_ne_true (h.symm.trans hc.1))]

theorem computed_none {via : IntType} (hs : via.signed = true) (h : ¬ via.Holds r) :
    computed via r = none := if_pos ⟨hs, h⟩

theorem not_stores_none (n : Int) : ¬ Stores none n := by
  rintro ⟨_, _, h, _⟩
  cases h

theorem stores_value (t : IntType) (n m : Int) : Stores (some (.ok (t.value n))) m ↔ t.wrap n = m := by
  constructor
  · rintro ⟨r, t', hr, hp⟩
    cases hr
    rw [payload_value] at hp
    exact congrArg Prod.snd (Option.some.inj hp)
  · rintro rfl
    exact ⟨_, _, rfl, payload_value t n⟩

theorem stores_widened {via mid : IntType} (hs : via.signed = true) (hmid : mid.Within via) :
    Stores (widened via mid t r) r ↔ mid.Holds r := by
  by_cases h : via.Holds r
  · rw [widened, computed_of_holds h, Option.map_some]
    dsimp only
    split_ifs with ht
    · rw [stores_value, IntType.wrap_eq ht, IntType.wrap_eq_iff]
    · rw [stores_value, IntType.wrap_wrap le_rfl, IntType.wrap_eq_iff]
  · rw [widened, computed_none hs h, Option.map_none]
    exact iff_of_false (not_stores_none r) fun hr => h (hmid.holds hr)

theorem stores_plain (ht : promoted t = t) : Stores (plain t r) r ↔ t.Holds r := by
  rw [plain, ht]
  by_cases h : t.Holds r
  · rw [computed_of_holds h, Option.map_some, stores_value, IntType.wrap_eq_iff]
  · refine iff_of_false ?_ h
    cases hs : t.signed with
    | true =>
      rw [computed_none hs h]
      exact not_stores_none r
    | false =>
      rw [computed_of_unsigned hs, Option.map_some, stores_value, IntType.wrap_wrap le_rfl,
        IntType.wrap_eq_iff]
      exact h

/-! ## Sums, differences and products -/

/-- Sums and differences of numbers of a type fit a type of twice the range. -/
def Doubles (t mid : IntType) : Prop :=
  (mid.least ≤ 2 * t.least ∧ 2 * t.greatest ≤ mid.greatest) ∧
    mid.least ≤ t.least - t.greatest ∧ t.greatest - t.least ≤ mid.greatest

instance (t mid : IntType) : Decidable (Doubles t mid) := inferInstanceAs (Decidable (_ ∧ _))

theorem Doubles.add {t mid : IntType} (h : Doubles t mid) (ha : t.Holds a) (hb : t.Holds b) :
    mid.Holds (a + b) := by
  simp only [Doubles, IntType.Holds] at h ha hb ⊢
  omega

theorem Doubles.sub {t mid : IntType} (h : Doubles t mid) (ha : t.Holds a) (hb : t.Holds b) :
    mid.Holds (a - b) := by
  simp only [Doubles, IntType.Holds] at h ha hb ⊢
  omega

theorem opRight_add (hv : v.payload = some (t, a)) (hw : w.payload = some (t, b)) (ht : t.bits ≤ 32) :
    OpRight F .add v w a b ↔ OpFits .add t a b := by
  have ha := payload_holds hv
  have hb := payload_holds hw
  simp only [OpRight, OpFits, Value.add, maxType_of_payload hv hw]
  cases t <;> simp only [IntType.valueType, toType_of_payload hv, toType_of_payload hw]
  case int8 | uint8 | int16 | uint16 =>
    rw [stores_widened rfl (by decide)]
    exact iff_of_true (Doubles.add (by decide) ha hb) nofun
  case int32 | uint32 =>
    rw [stores_plain rfl]
    exact ⟨fun h _ => h, fun h => h rfl⟩
  case int64 | uint64 => exact absurd ht (by decide)

theorem opRight_sub (hv : v.payload = some (t, a)) (hw : w.payload = some (t, b)) (ht : t.bits ≤ 32) :
    OpRight F .sub v w a b := by
  have ha := payload_holds hv
  have hb := payload_holds hw
  simp only [OpRight, Value.sub, maxType_of_payload hv hw]
  cases t <;> simp only [IntType.valueType, toType_of_payload hv, toType_of_payload hw]
  case int64 | uint64 => exact absurd ht (by decide)
  all_goals
    rw [stores_widened rfl (by decide)]
    exact Doubles.sub (by decide) ha hb

theorem mul_holds {mid : IntType} {m : Int} (ha : |a| ≤ m) (hb : |b| ≤ m)
    (hmid : mid.least ≤ -(m * m) ∧ m * m ≤ mid.greatest) : mid.Holds (a * b) := by
  have h : |a * b| ≤ m * m := by
    rw [abs_mul]
    exact mul_le_mul ha hb (abs_nonneg b) ((abs_nonneg a).trans ha)
  obtain ⟨hlo, hhi⟩ := abs_le.mp h
  exact ⟨Int.le_trans hmid.1 hlo, Int.le_trans hhi hmid.2⟩

theorem abs_le_of_holds (h : t.Holds n) (hs : t.signed = true) : |n| ≤ 2 ^ (t.bits - 1) := by
  obtain ⟨hlo, hhi⟩ := h
  rw [IntType.least, if_pos hs] at hlo
  rw [IntType.greatest, if_pos hs] at hhi
  exact abs_le.mpr ⟨hlo, Int.le_trans hhi (Int.sub_le_self _ (by decide))⟩

theorem opRight_mul (hv : v.payload = some (t, a)) (hw : w.payload = some (t, b)) (ht : t.bits ≤ 32) :
    OpRight F .mul v w a b ↔ OpFits .mul t a b := by
  have ha := payload_holds hv
  have hb := payload_holds hw
  simp only [OpRight, OpFits, Value.mul, maxType_of_payload hv hw]
  cases t <;> simp only [IntType.valueType, toType_of_payload hv, toType_of_payload hw]
  case int8 | int16 =>
    rw [stores_widened rfl (by decide)]
    exact iff_of_true (mul_holds (abs_le_of_holds ha rfl) (abs_le_of_holds hb rfl) (by decide))
      ⟨nofun, nofun, nofun⟩
  case uint8 | uint16 =>
    rw [stores_widened rfl (by decide)]
    simp [IntType.bits]
  case int32 | uint32 =>
    rw [stores_plain rfl]
    simp [IntType.bits]
  case int64 | uint64 => exact absurd ht (by decide)

/-! ## Quotients and remainders -/

theorem divisorIsZero_of_payload (h : w.payload = some (t, b)) :
    divisorIsZero w t.valueType = decide (b = 0) := by
  rw [← toType_of_payload h]
  cases t <;> rfl

theorem valueType_le (t : IntType) : t.valueType.toNat ≤ ValueType.uint64.toNat := by
  cases t <;> decide

theorem tdiv_holds_int32 (ha : IntType.int32.Holds a) (hb : b ≠ 0) :
    IntType.int32.Holds (a.tdiv b) ↔ ¬ (a = -2 ^ 31 ∧ b = -1) := by
  simp only [IntType.Holds, IntType.least, IntType.greatest, IntType.signed, IntType.bits, if_true]
    at ha ⊢
  by_cases hone : b.natAbs = 1
  · rcases Int.natAbs_eq_iff.mp hone with rfl | rfl
    · rw [Nat.cast_one, Int.tdiv_one]
      omega
    · rw [Nat.cast_one, Int.tdiv_neg, Int.tdiv_one]
      omega
  · have habs : (a.tdiv b).natAbs ≤ a.natAbs / 2 := by
      rw [Int.natAbs_tdiv]
      exact Nat.div_le_div_left (by omega) (by decide)
    omega

theorem tdiv_holds_iff (ha : t.Holds a) (ht : t.bits ≤ 32) (hb : b ≠ 0) :
    ((promoted t).signed = true → (promoted t).Holds (a.tdiv b)) ↔
      ¬ (t = .int32 ∧ a = t.least ∧ b = -1) := by
  have hle := Int.natAbs_tdiv_le_natAbs a b
  cases t
  case int32 =>
    have hleast : IntType.int32.least = -2 ^ 31 := by decide
    simp only [promoted, IntType.signed, forall_const, true_and, hleast]
    exact tdiv_holds_int32 ha hb
  case int64 | uint64 => exact absurd ht (by decide)
  case uint32 =>
    exact iff_of_true (fun hsigned => absurd hsigned Bool.false_ne_true)
      (fun h => IntType.noConfusion h.1)
  all_goals
    refine iff_of_true (fun _ => ?_) (fun h => IntType.noConfusion h.1)
    simp only [promoted, IntType.Holds, IntType.least, IntType.greatest, IntType.signed,
      IntType.bits, if_true, Bool.false_eq_true, if_false] at ha ⊢
    omega

theorem divided_iff (op : Int → Int → Int) (ha : t.Holds a) (ht : t.bits ≤ 32) (hb : b ≠ 0) :
    (∃ r, divided t op a b = some (.ok r)) ↔ ¬ (t = .int32 ∧ a = t.least ∧ b = -1) := by
  rw [← tdiv_holds_iff ha ht hb, divided, if_neg hb, computed]
  split_ifs with hs
  · exact iff_of_false (fun ⟨_, h⟩ => nomatch h) fun h => hs.2 (h hs.1)
  · exact iff_of_true ⟨_, rfl⟩ fun h => not_not.mp fun hc => hs ⟨h, hc⟩

theorem div_of_payload (hv : v.payload = some (t, a)) (hw : w.payload = some (t, b)) :
    div F v w = if b = 0 then some (.error .badParams) else divided t Int.tdiv a b := by
  simp only [Value.div, maxType_of_payload hv hw, divisorIsZero_of_payload hw, valueType_le, true_and,
    decide_eq_true_eq]
  cases t <;> simp only [IntType.valueType, toType_of_payload hv, toType_of_payload hw]

theorem mod_of_payload (hv : v.payload = some (t, a)) (hw : w.payload = some (t, b)) :
    mod v w = if b = 0 then some (.error .badParams) else divided t Int.tmod a b := by
  simp only [Value.mod, maxType_of_payload hv hw, divisorIsZero_of_payload hw, valueType_le, true_and,
    decide_eq_true_eq]
  cases t <;> simp only [IntType.valueType, toType_of_payload hv, toType_of_payload hw]

theorem refused_iff (op : Int → Int → Int) (ha : t.Holds a) (ht : t.bits ≤ 32) :
    (∃ result, (if b = 0 then some (.error .badParams) else divided t op a b) = some result ∧
      (result = .error .badParams ↔ b = 0)) ↔ ¬ (t = .int32 ∧ a = t.least ∧ b = -1) := by
  split_ifs with hb
  · refine iff_of_true ⟨_, rfl, iff_of_true rfl hb⟩ fun h => ?_
    rw [hb] at h
    exact absurd h.2.2 (by decide)
  · rw [← divided_iff op ha ht hb]
    constructor
    · rintro ⟨result, h, hresult⟩
      cases result with
      | ok r => exact ⟨r, h⟩
      | error ret =>
        rw [divided, if_neg hb, Option.map_eq_some_iff] at h
        obtain ⟨_, _, hr⟩ := h
        cases hr
    · rintro ⟨r, h⟩
      exact ⟨_, h, iff_of_false nofun hb⟩

/-- On two values of one type of at most 32 bits each operation is right exactly if it fits. -/
theorem arith_iff (F : Floats) (hv : v.payload = some (t, a)) (hw : w.payload = some (t, b))
    (ht : t.bits ≤ 32) (op : ArithOp) : OpRight F op v w a b ↔ OpFits op t a b := by
  cases op with
  | add => exact opRight_add hv hw ht
  | sub => exact iff_of_true (opRight_sub hv hw ht) trivial
  | mul => exact opRight_mul hv hw ht
  | div =>
    rw [OpRight, OpFits, div_of_payload hv hw]
    exact refused_iff Int.tdiv (payload_holds hv) ht
  | mod =>
    rw [OpRight, OpFits, mod_of_payload hv hw]
    exact refused_iff Int.tmod (payload_holds hv) ht

/-- Floating point arithmetic for operations on integers, which do not use it. -/
def Floats.unused : Floats where
  toFloat32 _ := 0
  toDouble _ := 0
  add32 _ _ := 0
  sub32 _ _ := 0
  mul32 _ _ := 0
  div32 _ _ := 0
  add _ _ := 0
  sub _ _ := 0
  mul _ _ := 0
  div _ _ := 0

theorem arith_iff_int8 :
    OpRight .unused .add (.int8 100) (.int8 100) 100 100 ↔ OpFits .add .int8 100 100 :=
  arith_iff .unused (v := .int8 100) (w := .int8 100) (t := .int8) rfl rfl (by decide) .add

/-- The product of two values of type `uint8_t` is stored in an `int16_t` that does not hold it. -/
theorem mul_uint8_wraps :
    mul .unused (.uint8 200) (.uint8 200) = some (.ok (.int16 (-25536))) ∧
      ¬ OpRight .unused .mul (.uint8 200) (.uint8 200) 200 200 := by
  have hmul : mul .unused (.uint8 200) (.uint8 200) = some (.ok (.int16 (-25536))) := by decide +kernel
  refine ⟨hmul, fun ⟨r, t, hr, hp⟩ => ?_⟩
  rw [hmul] at hr
  cases hr
  cases hp

end Awtk.Value
