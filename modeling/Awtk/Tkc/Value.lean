import Awtk.Tkc.CStr
import Awtk.Tkc.Utf8
import Awtk.Lib.Ieee
import Awtk.Tkc.IntType

/-!
# Values

A model of `value_t` and of its conversions to integers.  A `wchar_t` has four bytes.
-/

namespace Awtk

open Option

/-- `value_t`.  A string pointer may be NULL, and floating point numbers are bit
patterns.  `other` is a value of another type. -/
inductive Value where
  | bool (v : Bool)
  | int8 (v : Int8)
  | uint8 (v : UInt8)
  | int16 (v : Int16)
  | uint16 (v : UInt16)
  | int32 (v : Int32)
  | uint32 (v : UInt32)
  | int64 (v : Int64)
  | uint64 (v : UInt64)
  | pointer (v : UInt64)
  | float (bits : UInt32)
  | float32 (bits : UInt32)
  | double (bits : UInt64)
  | str (s : Option Str)
  | wstr (s : Option (List UInt32))
  | binary (data : Option (List UInt8))
  | other
  deriving DecidableEq

namespace Value

/-- A double as an integer, cut off towards zero and kept between two bounds. -/
def truncate (lo hi : Int) (bits : UInt64) : Int :=
  let e : Nat := bits.toNat / 2 ^ 52 % 2 ^ 11
  let f : Nat := bits.toNat % 2 ^ 52
  let m : Nat := if e = 0 then f else f + 2 ^ 52
  let n : Nat := if 1075 ≤ e then m * 2 ^ (e - 1075) else m / 2 ^ (1075 - max e 1)
  let magnitude : Int := n
  if e = 2047 ∧ f ≠ 0 then 0
  else if 2 ^ 63 ≤ bits.toNat then max (-magnitude) lo
  else min magnitude hi

def tkWatoi (ws : List UInt32) : Int :=
  match Utf8.tkUtf8FromUtf16Ex true ws ws.length 31 32 with
  | some (_, num) => tkAtoi num
  | none => 0

/-- `value_int`. -/
def toInt : Value → Int
  | .bool v => if v then 1 else 0
  | .int8 v => v.toInt
  | .uint8 v => v.toNat
  | .int16 v => v.toInt
  | .uint16 v => v.toNat
  | .int32 v => v.toInt
  | .uint32 v => v.toInt32.toInt
  | .int64 v => v.toInt32.toInt
  | .uint64 v => v.toInt64.toInt32.toInt
  | .float bits | .float32 bits => truncate (-2 ^ 31) (2 ^ 31 - 1) (Ieee.widen bits)
  | .double bits => truncate (-2 ^ 31) (2 ^ 31 - 1) bits
  | .str (some s) => tkAtoi s
  | .wstr (some ws) => tkWatoi ws
  | .str none | .wstr none | .pointer _ | .binary _ | .other => 0

/-- `value_int64`. -/
def toInt64 : Value → Int
  | .int64 v => v.toInt
  | .uint64 v => v.toInt64.toInt
  | .str (some s) => tkAtol s
  | .uint32 v => v.toNat
  | .float bits | .float32 bits => truncate (-2 ^ 63) (2 ^ 63 - 1) (Ieee.widen bits)
  | .double bits => truncate (-2 ^ 63) (2 ^ 63 - 1) bits
  | v => v.toInt

end Value

end Awtk

/-!
## The integer getters

`value_int8` to `value_uint64` and `value_bool`.  A getter of another type goes through `value_int`,
which has 32 bits.  Three of them lose numbers that their type has (`lossless_iff`).
-/

namespace Awtk.Value

/-! ## The getters -/

/-- The number of a value of an integer type. -/
def payload : Value → Option (IntType × Int)
  | .int8 v => some (.int8, v.toInt)
  | .uint8 v => some (.uint8, v.toNat)
  | .int16 v => some (.int16, v.toInt)
  | .uint16 v => some (.uint16, v.toNat)
  | .int32 v => some (.int32, v.toInt)
  | .uint32 v => some (.uint32, v.toNat)
  | .int64 v => some (.int64, v.toInt)
  | .uint64 v => some (.uint64, v.toNat)
  | _ => none

/-- A getter that converts what `value_int` gives, unless the value is of its type. -/
def getInt (t : IntType) (v : Value) : Int :=
  match v.payload with
  | some (t', n) => if t' = t then n else t.wrap v.toInt
  | none => t.wrap v.toInt

/-- `value_int8`. -/
def toInt8 (v : Value) : Int := v.getInt .int8

/-- `value_uint8`. -/
def toUInt8 (v : Value) : Int := v.getInt .uint8

/-- `value_int16`. -/
def toInt16 (v : Value) : Int := v.getInt .int16

/-- `value_uint16`. -/
def toUInt16 (v : Value) : Int := v.getInt .uint16

/-- `value_int32`. -/
def toInt32 (v : Value) : Int := v.getInt .int32

/-- `value_uint32`. -/
def toUInt32 : Value → Int
  | .str (some s) => IntType.uint32.wrap (tkAtoul s)
  | .str none => 0
  | v => v.getInt .uint32

/-- `value_uint64`. -/
def toUInt64 : Value → Int
  | .uint64 v => v.toNat
  | .int64 v => IntType.uint64.wrap v.toInt
  | .str (some s) => tkAtoul s
  | .str none => 0
  | .float bits | .float32 bits => truncate 0 (2 ^ 64 - 1) (Ieee.widen bits)
  | .double bits => truncate 0 (2 ^ 64 - 1) bits
  | v => IntType.uint64.wrap v.toInt

/-- `tk_atob` and `tk_watob`. -/
def tkAtob {α : Type} [DecidableEq α] [OfNat α 48] [OfNat α 70] [OfNat α 102] (s : Option (List α)) :
    Bool :=
  match s with
  | none | some [] => false
  | some (c :: rest) => ¬ (c = 102 ∨ c = 70 ∨ (c :: rest) = [48])

/-- `value_bool`.  Objects and references are not among the values. -/
def toBool : Value → Bool
  | .bool v => v
  | .str s => tkAtob s
  | .wstr s => tkAtob s
  | .pointer v => v ≠ 0
  | v => v.toInt ≠ 0

/-- The getters. -/
inductive Getter where
  | bool
  | int
  | of (t : IntType)
  deriving DecidableEq

/-- What a getter gives. -/
def Getter.get : Getter → Value → Int
  | .bool, v => if v.toBool then 1 else 0
  | .int, v => v.toInt
  | .of .int8, v => v.toInt8
  | .of .uint8, v => v.toUInt8
  | .of .int16, v => v.toInt16
  | .of .uint16, v => v.toUInt16
  | .of .int32, v => v.toInt32
  | .of .uint32, v => v.toUInt32
  | .of .int64, v => v.toInt64
  | .of .uint64, v => v.toUInt64

/-! ## Numbers -/

/-- The value is of an integer type, or it is a boolean or a double, and holds the integer. -/
def IsInteger (v : Value) (n : Int) : Prop :=
  match v with
  | .bool b => n = if b then 1 else 0
  | .double bits => Ieee.value bits = some (n : ℚ)
  | v => ∃ t, v.payload = some (t, n)

/-- The getter gives the number wherever its type has it, and `value_bool` tells if it is zero. -/
def Getter.Exact (g : Getter) (v : Value) (n : Int) : Prop :=
  match g with
  | .bool => g.get v = if n = 0 then 0 else 1
  | .int => IntType.int32.Holds n → g.get v = n
  | .of t => t.Holds n → g.get v = n

instance (g : Getter) (v : Value) (n : Int) : Decidable (g.Exact v n) :=
  match g with
  | .bool => inferInstanceAs (Decidable (_ = _))
  | .int => inferInstanceAs (Decidable (_ → _))
  | .of _ => inferInstanceAs (Decidable (_ → _))

/-- The numbers that are lost: large ones of type `uint32_t` as a `uint64_t`, large doubles as a
`uint32_t`, and whether a multiple of `2 ^ 32` is zero. -/
def Lossy (g : Getter) (v : Value) (n : Int) : Prop :=
  (g = .of .uint64 ∧ v.payload = some (.uint32, n) ∧ 2 ^ 31 ≤ n) ∨
  (g = .of .uint32 ∧ (∃ bits, v = .double bits) ∧ 2 ^ 31 ≤ n ∧ n < 2 ^ 32) ∨
  (g = .bool ∧ (∃ t, v.payload = some (t, n)) ∧ n ≠ 0 ∧ 2 ^ 32 ∣ n)

/-! ## Values of the integer types -/

variable {v : Value} {n : Int} {t : IntType}

theorem bmod_eq_wrap (h : t.signed = true) (n : Int) : n.bmod (2 ^ t.bits) = t.wrap n := by
  rw [Int.bmod, IntType.wrap, if_pos h]
  cases t <;> simp only [IntType.signed, reduceCtorEq] at h <;>
    simp only [IntType.bits, Nat.reducePow, Nat.reduceSub, Int.reducePow] <;> split_ifs <;> omega

theorem payload_holds (h : v.payload = some (t, n)) : t.Holds n := by
  cases v <;> simp only [payload, Option.some.injEq, Prod.mk.injEq, reduceCtorEq] at h <;>
    obtain ⟨rfl, rfl⟩ := h
  case int8 v => exact ⟨v.le_toInt, Int.le_sub_one_of_lt v.toInt_lt⟩
  case uint8 v => exact ⟨Int.natCast_nonneg _, Int.le_sub_one_of_lt (Int.ofNat_lt.mpr v.toNat_lt)⟩
  case int16 v => exact ⟨v.le_toInt, Int.le_sub_one_of_lt v.toInt_lt⟩
  case uint16 v => exact ⟨Int.natCast_nonneg _, Int.le_sub_one_of_lt (Int.ofNat_lt.mpr v.toNat_lt)⟩
  case int32 v => exact ⟨v.le_toInt, Int.le_sub_one_of_lt v.toInt_lt⟩
  case uint32 v => exact ⟨Int.natCast_nonneg _, Int.le_sub_one_of_lt (Int.ofNat_lt.mpr v.toNat_lt)⟩
  case int64 v => exact ⟨v.le_toInt, Int.le_sub_one_of_lt v.toInt_lt⟩
  case uint64 v => exact ⟨Int.natCast_nonneg _, Int.le_sub_one_of_lt (Int.ofNat_lt.mpr v.toNat_lt)⟩

theorem toInt_of_payload (h : v.payload = some (t, n)) : v.toInt = IntType.int32.wrap n := by
  have hn := payload_holds h
  cases v <;> simp only [payload, Option.some.injEq, Prod.mk.injEq, reduceCtorEq] at h <;>
    obtain ⟨rfl, rfl⟩ := h
  case uint32 v => exact (BitVec.toInt_eq_toNat_bmod v.toBitVec).trans (bmod_eq_wrap (t := .int32) rfl _)
  case int64 v => exact (Int64.toInt_toInt32 v).trans (bmod_eq_wrap (t := .int32) rfl _)
  case uint64 v =>
    have hcut : v.toInt64.toInt = (v.toNat : Int).bmod (2 ^ 64) := BitVec.toInt_eq_toNat_bmod _
    rw [toInt, Int64.toInt_toInt32, hcut, Int.bmod_bmod_of_dvd (by decide)]
    exact bmod_eq_wrap (t := .int32) rfl _
  all_goals exact (IntType.wrap_eq (IntType.Within.holds (by decide) hn)).symm

/-! ## Doubles -/

theorem truncate_eq {lo hi : Int} {bits : UInt64} {q : ℚ} (h : Ieee.value bits = some q) (hlo : lo ≤ 0)
    (hhi : 0 ≤ hi) : truncate lo hi bits = if 0 ≤ q then min ⌊q⌋ hi else max ⌈q⌉ lo := by
  obtain ⟨he, hsign⟩ := Ieee.value_cases h
  have hnonneg := Ieee.magnitude_nonneg bits
  have hfloor := Ieee.floor_magnitude bits
  have hcut : truncate lo hi bits = if 2 ^ 63 ≤ bits.toNat then max (-(Ieee.wholePart bits : Int)) lo
      else min (Ieee.wholePart bits : Int) hi := if_neg fun hnan => he hnan.1
  rw [hcut, ← hfloor]
  rcases hsign with ⟨hs, rfl⟩ | ⟨hs, rfl⟩
  · rw [if_pos hs, Int.ceil_neg]
    split_ifs with hq
    · have hzero : Ieee.magnitude bits = 0 := by linarith
      rw [hzero, Int.floor_zero, neg_zero, neg_zero, Int.floor_zero, max_eq_left hlo, min_eq_left hhi]
    · rfl
  · rw [if_neg hs, if_pos hnonneg]

theorem truncate_integer {lo hi : Int} {bits : UInt64} (h : Ieee.value bits = some (n : ℚ))
    (hlo : lo ≤ 0) (hhi : 0 ≤ hi) : truncate lo hi bits = if 0 ≤ n then min n hi else max n lo := by
  rw [truncate_eq h hlo hhi, Int.floor_intCast, Int.ceil_intCast]
  simp only [Int.cast_nonneg_iff]

/-! ## Which numbers are lost -/

theorem getInt_of_payload {t' : IntType} (h : v.payload = some (t', n)) :
    v.getInt t = if t' = t then n else t.wrap (IntType.int32.wrap n) := by
  rw [getInt, h, toInt_of_payload h]

theorem toBool_of_payload (h : v.payload = some (t, n)) :
    v.toBool = decide (IntType.int32.wrap n ≠ 0) := by
  rw [← toInt_of_payload h]
  cases v <;> simp only [payload, reduceCtorEq] at h <;> rfl

theorem toUInt32_of_payload (h : v.payload = some (t, n)) : v.toUInt32 = v.getInt .uint32 := by
  cases v <;> simp only [payload, reduceCtorEq] at h <;> rfl

theorem toInt64_of_payload (h : v.payload = some (t, n)) : v.toInt64 = IntType.int64.wrap n := by
  have hn := payload_holds h
  have hint := toInt_of_payload h
  cases v <;> simp only [payload, Option.some.injEq, Prod.mk.injEq, reduceCtorEq] at h <;>
    obtain ⟨rfl, rfl⟩ := h
  case uint64 v => exact (BitVec.toInt_eq_toNat_bmod v.toBitVec).trans (bmod_eq_wrap (t := .int64) rfl _)
  case int64 v => exact (IntType.wrap_eq hn).symm
  case uint32 v => exact (IntType.wrap_eq (IntType.Within.holds (by decide) hn)).symm
  all_goals
    refine hint.trans ?_
    rw [IntType.wrap_eq (IntType.Within.holds (by decide) hn),
      IntType.wrap_eq (IntType.Within.holds (by decide) hn)]

theorem toUInt64_of_payload (h : v.payload = some (t, n)) :
    v.toUInt64 = IntType.uint64.wrap (if t.bits = 64 then n else IntType.int32.wrap n) := by
  have hn := payload_holds h
  have hint := toInt_of_payload h
  cases v <;> simp only [payload, Option.some.injEq, Prod.mk.injEq, reduceCtorEq] at h <;>
    obtain ⟨rfl, rfl⟩ := h
  case uint64 v =>
    rw [if_pos (by decide)]
    exact (IntType.wrap_eq hn).symm
  case int64 v =>
    rw [if_pos (by decide)]
    rfl
  all_goals
    rw [if_neg (by decide), ← hint]
    rfl

theorem getInt_exact (h : v.payload = some (t, n)) {t' : IntType} (ht : t'.bits ≤ 32) (hn : t'.Holds n) :
    v.getInt t' = n := by
  rw [getInt_of_payload h, IntType.wrap_wrap ht, IntType.wrap_eq hn, ite_self]

theorem wrap_int32_eq_zero : IntType.int32.wrap n = 0 ↔ 2 ^ 32 ∣ n := by
  simp only [IntType.wrap, IntType.signed, IntType.bits, if_true]
  omega

theorem wrap_uint64_wrap_int32 (h : IntType.uint32.Holds n) :
    IntType.uint64.wrap (IntType.int32.wrap n) = n ↔ n < 2 ^ 31 := by
  simp only [IntType.Holds, IntType.least, IntType.greatest, IntType.wrap, IntType.signed,
    IntType.bits, if_true, Bool.false_eq_true, if_false] at h ⊢
  omega

theorem toUInt64_exact_iff (h : v.payload = some (t, n)) (hn : IntType.uint64.Holds n) :
    v.toUInt64 = n ↔ ¬ (t = .uint32 ∧ 2 ^ 31 ≤ n) := by
  have ht := payload_holds h
  rw [toUInt64_of_payload h]
  split_ifs with hbits
  · rw [IntType.wrap_eq hn]
    refine iff_of_true rfl fun hlarge => ?_
    rw [hlarge.1] at hbits
    cases hbits
  · by_cases hu : t = .uint32
    · subst hu
      rw [wrap_uint64_wrap_int32 ht]
      simp only [true_and, not_le]
    · have hin : t.Within .int32 := by
        cases t <;> first | decide | exact absurd rfl hbits | exact absurd rfl hu
      rw [IntType.wrap_eq (hin.holds ht), IntType.wrap_eq hn]
      exact iff_of_true rfl fun hlarge => hu hlarge.1

theorem exact_iff_of_payload (h : v.payload = some (t, n)) (g : Getter) :
    g.Exact v n ↔ ¬ Lossy g v n := by
  have hnodouble : ¬ ∃ bits, v = .double bits := by
    rintro ⟨bits, rfl⟩
    cases h
  cases g with
  | bool =>
    have hpayload : ∃ t, v.payload = some (t, n) := ⟨t, h⟩
    simp only [Getter.Exact, Getter.get, toBool_of_payload h, Lossy, reduceCtorEq, false_and,
      false_or, true_and, hpayload, ← wrap_int32_eq_zero, decide_eq_true_eq]
    by_cases hzero : n = 0
    · have hwrap : IntType.int32.wrap 0 = 0 := by decide
      simp only [hzero, hwrap, ne_eq, not_true_eq_false, if_false, if_true, false_and,
        not_false_eq_true]
    · by_cases hwrap : IntType.int32.wrap n = 0
      · simp [hzero, hwrap]
      · simp [hzero, hwrap]
  | int =>
    simp only [Getter.Exact, Getter.get, toInt_of_payload h, Lossy, reduceCtorEq, false_and, or_self,
      not_false_eq_true, iff_true]
    exact IntType.wrap_eq
  | of t' =>
    simp only [Getter.Exact, Lossy, Getter.of.injEq, hnodouble, reduceCtorEq, false_and, and_false,
      or_false]
    by_cases hlarge : t' = .uint64
    · subst hlarge
      simp only [true_and, h, Option.some.injEq, Prod.mk.injEq, and_true]
      by_cases hn : IntType.uint64.Holds n
      · exact ⟨fun hexact => (toUInt64_exact_iff h hn).mp (hexact hn),
          fun hnot _ => (toUInt64_exact_iff h hn).mpr hnot⟩
      · refine iff_of_true (fun hn' => absurd hn' hn) ?_
        rintro ⟨rfl, -⟩
        exact hn (IntType.Within.holds (by decide) (payload_holds h))
    · refine iff_of_true (fun hn => ?_) fun hnot => hlarge hnot.1
      cases t' with
      | uint64 => exact absurd rfl hlarge
      | int64 => exact (toInt64_of_payload h).trans (IntType.wrap_eq hn)
      | uint32 => exact (toUInt32_of_payload h).trans (getInt_exact h (by decide) hn)
      | _ => exact getInt_exact h (by decide) hn

theorem exact_of_bool (b : Bool) (g : Getter) : g.Exact (.bool b) (if b then 1 else 0) := by
  cases b
  all_goals
    cases g with
    | bool => decide
    | int => decide
    | of t => cases t <;> decide

theorem exact_iff_of_double {bits : UInt64} (h : Ieee.value bits = some (n : ℚ)) (g : Getter) :
    g.Exact (.double bits) n ↔ ¬ Lossy g (.double bits) n := by
  have hpayload : ∀ t, (Value.double bits).payload ≠ some (t, n) := fun _ => nofun
  have hint : (Value.double bits).toInt = if 0 ≤ n then min n (2 ^ 31 - 1) else max n (-2 ^ 31) :=
    truncate_integer h (by decide) (by decide)
  have hexact : IntType.int32.Holds n → (Value.double bits).toInt = n := by
    rintro ⟨hlo, hhi⟩
    simp only [IntType.least, IntType.greatest, IntType.signed, IntType.bits, if_true] at hlo hhi
    rw [hint]
    split_ifs <;> omega
  cases g with
  | bool =>
    have hbool : (Value.double bits).toBool = decide ((Value.double bits).toInt ≠ 0) := rfl
    have hzero : (Value.double bits).toInt = 0 ↔ n = 0 := by
      rw [hint]
      split_ifs <;> omega
    simp only [Getter.Exact, Getter.get, hbool, ne_eq, hzero, Lossy, reduceCtorEq, hpayload,
      exists_false, false_and, and_false, or_self, not_false_eq_true, iff_true]
    by_cases hn : n = 0 <;> simp [hn]
  | int =>
    simp only [Getter.Exact, Getter.get, Lossy, reduceCtorEq, false_and, or_self, not_false_eq_true,
      iff_true]
    exact hexact
  | of t =>
    simp only [Getter.Exact, Lossy, Getter.of.injEq, hpayload, reduceCtorEq, exists_false, false_and,
      and_false, false_or, or_false, Value.double.injEq, exists_eq', true_and]
    by_cases hlarge : t = .uint32
    · subst hlarge
      have hget : (Value.double bits).toUInt32 = IntType.uint32.wrap (Value.double bits).toInt := rfl
      simp only [true_and, Getter.get, hget, hint, IntType.Holds, IntType.wrap, IntType.least,
        IntType.greatest, IntType.signed, IntType.bits, Bool.false_eq_true, if_false]
      split_ifs <;> omega
    · refine iff_of_true (fun hn => ?_) fun hnot => hlarge hnot.1
      have hsmall : ∀ t : IntType, t.Within .int32 → t.Holds n → (Value.double bits).getInt t = n := by
        intro t ht hn
        have hget : (Value.double bits).getInt t = t.wrap (Value.double bits).toInt := rfl
        rw [hget, hexact (ht.holds hn), IntType.wrap_eq hn]
      cases t with
      | uint32 => exact absurd rfl hlarge
      | int64 =>
        have hget : (Value.double bits).toInt64 = _ :=
          truncate_integer h (show -2 ^ 63 ≤ 0 by decide) (show (0 : Int) ≤ 2 ^ 63 - 1 by decide)
        simp only [IntType.Holds, IntType.least, IntType.greatest, IntType.signed, IntType.bits,
          if_true] at hn
        rw [Getter.get, hget]
        split_ifs <;> omega
      | uint64 =>
        have hget : (Value.double bits).toUInt64 = _ :=
          truncate_integer h (le_refl 0) (show (0 : Int) ≤ 2 ^ 64 - 1 by decide)
        simp only [IntType.Holds, IntType.least, IntType.greatest, IntType.signed, IntType.bits,
          Bool.false_eq_true, if_false] at hn
        rw [Getter.get, hget]
        split_ifs <;> omega
      | _ => exact hsmall _ (by decide) hn

/-- Every getter gives every number that its type has, except for the three kinds that are lost. -/
theorem lossless_iff (h : v.IsInteger n) (g : Getter) : g.Exact v n ↔ ¬ Lossy g v n := by
  cases v with
  | bool b =>
    obtain rfl : n = if b then 1 else 0 := h
    refine iff_of_true (exact_of_bool b g) ?_
    rintro (⟨-, hp, -⟩ | ⟨-, ⟨bits, hb⟩, -⟩ | ⟨-, ⟨t, hp⟩, -⟩)
    · cases hp
    · cases hb
    · cases hp
  | double bits => exact exact_iff_of_double h g
  | int8 v => exact exact_iff_of_payload h.choose_spec g
  | uint8 v => exact exact_iff_of_payload h.choose_spec g
  | int16 v => exact exact_iff_of_payload h.choose_spec g
  | uint16 v => exact exact_iff_of_payload h.choose_spec g
  | int32 v => exact exact_iff_of_payload h.choose_spec g
  | uint32 v => exact exact_iff_of_payload h.choose_spec g
  | int64 v => exact exact_iff_of_payload h.choose_spec g
  | uint64 v => exact exact_iff_of_payload h.choose_spec g
  | _ => obtain ⟨t, hp⟩ := h; cases hp

theorem lossless_iff_int16 : (Getter.of .uint8).Exact (.int16 200) 200 ↔
    ¬ Lossy (.of .uint8) (.int16 200) 200 :=
  lossless_iff (v := .int16 200) ⟨.int16, rfl⟩ (.of .uint8)

/-- The largest number of type `uint32_t` as a `uint64_t`, `2 ^ 31` from a double as a `uint32_t`, and
`2 ^ 32` as a boolean. -/
theorem getters_lose :
    ((Value.uint32 (2 ^ 32 - 1)).IsInteger (2 ^ 32 - 1) ∧
      ¬ (Getter.of .uint64).Exact (.uint32 (2 ^ 32 - 1)) (2 ^ 32 - 1)) ∧
    ((Value.double 0x41E0000000000000).IsInteger (2 ^ 31) ∧
      ¬ (Getter.of .uint32).Exact (.double 0x41E0000000000000) (2 ^ 31)) ∧
    ((Value.int64 (2 ^ 32)).IsInteger (2 ^ 32) ∧ ¬ Getter.bool.Exact (.int64 (2 ^ 32)) (2 ^ 32)) := by
  have hexp : Ieee.exponent 0x41E0000000000000 = 1054 := by decide
  have hsig : Ieee.significand 0x41E0000000000000 = 2 ^ 52 := by decide
  have hvalue : Ieee.value 0x41E0000000000000 = some ((2 ^ 31 : Int) : ℚ) := by
    rw [Ieee.value, hexp, if_neg (by decide), if_neg (by decide), Ieee.magnitude, hexp, hsig]
    norm_num
  exact ⟨⟨⟨.uint32, rfl⟩, by decide⟩, ⟨hvalue, by decide⟩, ⟨.int64, rfl⟩, by decide⟩

end Awtk.Value
