import Awtk.Lib.Rotation
import Awtk.Tkc.IntType
import Awtk.Tkc.Types
import Awtk.Tkc.Value

/-!
# Rotating values

`value_lshift_r` and `value_rshift_r` put two shifts together.  The operands are promoted to at least 32
bits, the shift to the right copies the sign, and a shift by all bits of the operand has no result.
`rotation_iff` says when they are rotations.
-/

namespace Awtk.Value

open Option

/-! ## The code -/

section Code

variable {w : Nat}

/-- The integer promotion. -/
def promote (signed : Bool) (v : BitVec w) : BitVec (max w 32) :=
  if signed then v.signExtend (max w 32) else v.setWidth (max w 32)

/-- `>>`, which is arithmetic for a signed operand. -/
def shiftRight (signed : Bool) (v : BitVec w) (n : Nat) : Option (BitVec w) :=
  if n < w then some (if signed then v.sshiftRight n else v >>> n) else none

/-- `<<`. -/
def shiftLeft (v : BitVec w) (n : Nat) : Option (BitVec w) := if n < w then some (v <<< n) else none

/-- `(vv >> (w - n)) | (vv << n)`, as the type of `vv`. -/
def rotl (signed : Bool) (v : BitVec w) (n : Nat) : Option (BitVec w) :=
  let n := n % w
  (shiftRight signed (promote signed v) (w - n)).bind fun high =>
    (shiftLeft (promote signed v) n).map fun low => (high ||| low).setWidth w

/-- `(vv << (w - n)) | (vv >> n)`, as the type of `vv`. -/
def rotr (signed : Bool) (v : BitVec w) (n : Nat) : Option (BitVec w) :=
  let n := n % w
  (shiftLeft (promote signed v) (w - n)).bind fun high =>
    (shiftRight signed (promote signed v) n).map fun low => (high ||| low).setWidth w

end Code

def lshiftR (v : Value) (n : UInt32) : Option (Except Ret Value) :=
  match v with
  | .int8 vv => (rotl true vv.toBitVec n.toNat).map fun b => .ok (.int8 (.ofBitVec b))
  | .uint8 vv => (rotl false vv.toBitVec n.toNat).map fun b => .ok (.uint8 (.ofBitVec b))
  | .int16 vv => (rotl true vv.toBitVec n.toNat).map fun b => .ok (.int16 (.ofBitVec b))
  | .uint16 vv => (rotl false vv.toBitVec n.toNat).map fun b => .ok (.uint16 (.ofBitVec b))
  | .int32 vv => (rotl true vv.toBitVec n.toNat).map fun b => .ok (.int32 (.ofBitVec b))
  | .uint32 vv => (rotl false vv.toBitVec n.toNat).map fun b => .ok (.uint32 (.ofBitVec b))
  | .int64 vv => (rotl true vv.toBitVec n.toNat).map fun b => .ok (.int64 (.ofBitVec b))
  | .uint64 vv => (rotl false vv.toBitVec n.toNat).map fun b => .ok (.uint64 (.ofBitVec b))
  | _ => some (.error .badParams)

def rshiftR (v : Value) (n : UInt32) : Option (Except Ret Value) :=
  match v with
  | .int8 vv => (rotr true vv.toBitVec n.toNat).map fun b => .ok (.int8 (.ofBitVec b))
  | .uint8 vv => (rotr false vv.toBitVec n.toNat).map fun b => .ok (.uint8 (.ofBitVec b))
  | .int16 vv => (rotr true vv.toBitVec n.toNat).map fun b => .ok (.int16 (.ofBitVec b))
  | .uint16 vv => (rotr false vv.toBitVec n.toNat).map fun b => .ok (.uint16 (.ofBitVec b))
  | .int32 vv => (rotr true vv.toBitVec n.toNat).map fun b => .ok (.int32 (.ofBitVec b))
  | .uint32 vv => (rotr false vv.toBitVec n.toNat).map fun b => .ok (.uint32 (.ofBitVec b))
  | .int64 vv => (rotr true vv.toBitVec n.toNat).map fun b => .ok (.int64 (.ofBitVec b))
  | .uint64 vv => (rotr false vv.toBitVec n.toNat).map fun b => .ok (.uint64 (.ofBitVec b))
  | _ => some (.error .badParams)

/-- The value of an integer type with a bit pattern. -/
def ofPattern : (t : IntType) → BitVec t.bits → Value
  | .int8, b => .int8 (.ofBitVec b)
  | .uint8, b => .uint8 (.ofBitVec b)
  | .int16, b => .int16 (.ofBitVec b)
  | .uint16, b => .uint16 (.ofBitVec b)
  | .int32, b => .int32 (.ofBitVec b)
  | .uint32, b => .uint32 (.ofBitVec b)
  | .int64, b => .int64 (.ofBitVec b)
  | .uint64, b => .uint64 (.ofBitVec b)

theorem lshiftR_ofPattern (t : IntType) (b : BitVec t.bits) (n : UInt32) :
    lshiftR (ofPattern t b) n = (rotl t.signed b n.toNat).map fun b => .ok (ofPattern t b) := by
  cases t <;> rfl

theorem rshiftR_ofPattern (t : IntType) (b : BitVec t.bits) (n : UInt32) :
    rshiftR (ofPattern t b) n = (rotr t.signed b n.toNat).map fun b => .ok (ofPattern t b) := by
  cases t <;> rfl

/-! ## The bits -/

section Bits

variable {w : Nat}

theorem getLsbD_promote (s : Bool) (v : BitVec w) {i : Nat} (hi : i < max w 32) :
    (promote s v).getLsbD i = if i < w then v.getLsbD i else s && v.msb := by
  cases s with
  | true =>
    rw [promote, if_pos rfl, BitVec.getLsbD_signExtend, decide_eq_true hi, Bool.true_and, Bool.true_and]
  | false =>
    rw [promote, if_neg Bool.false_ne_true, BitVec.getLsbD_setWidth, decide_eq_true hi, Bool.true_and,
      Bool.false_and]
    split
    · rfl
    · exact BitVec.getLsbD_of_ge v i (Nat.not_lt.mp ‹_›)

theorem msb_promote (v : BitVec w) (hw : 0 < w) : (promote true v).msb = v.msb := by
  rw [BitVec.msb_eq_getLsbD_last, getLsbD_promote true v (by omega), Bool.true_and]
  split
  · rw [BitVec.msb_eq_getLsbD_last]
    congr 1
    omega
  · rfl

theorem shiftRight_promote (s : Bool) (v : BitVec w) {k : Nat} (hk : k < max w 32) :
    ∃ x, shiftRight s (promote s v) k = some x ∧
      ∀ i < w, x.getLsbD i = if k + i < w then v.getLsbD (k + i) else s && v.msb := by
  rw [shiftRight, if_pos hk]
  refine ⟨_, rfl, fun i hi => ?_⟩
  cases s with
  | true =>
    rw [if_pos rfl, BitVec.getLsbD_sshiftRight, decide_eq_false (by omega), Bool.not_false, Bool.true_and,
      msb_promote v (by omega), Bool.true_and]
    by_cases h : k + i < max w 32
    · rw [if_pos h, getLsbD_promote true v h, Bool.true_and]
    · rw [if_neg h, if_neg (by omega)]
  | false =>
    rw [if_neg Bool.false_ne_true, BitVec.getLsbD_ushiftRight]
    by_cases h : k + i < max w 32
    · exact getLsbD_promote false v h
    · rw [if_neg (by omega), Bool.false_and]
      exact BitVec.getLsbD_of_ge _ _ (Nat.not_lt.mp h)

theorem shiftLeft_promote (s : Bool) (v : BitVec w) {k : Nat} (hk : k < max w 32) :
    ∃ x, shiftLeft (promote s v) k = some x ∧
      ∀ i < w, x.getLsbD i = (decide (k ≤ i) && v.getLsbD (i - k)) := by
  rw [shiftLeft, if_pos hk]
  refine ⟨_, rfl, fun i hi => ?_⟩
  rw [BitVec.getLsbD_shiftLeft, decide_eq_true (by omega), Bool.true_and,
    getLsbD_promote s v (by omega), if_pos (by omega)]
  congr 1
  by_cases h : i < k
  · rw [decide_eq_true h, decide_eq_false (by omega), Bool.not_true]
  · rw [decide_eq_false h, decide_eq_true (by omega), Bool.not_false]

/-- The copies of the sign that a shift to the right leaves above the bits that come down. -/
def signBits (s : Bool) (v : BitVec w) (k : Nat) : BitVec w := if s && v.msb then Rotation.ones w k else 0

theorem getLsbD_signBits (s : Bool) (v : BitVec w) (k : Nat) {i : Nat} (hi : i < w) :
    (signBits s v k).getLsbD i = (decide (k ≤ i) && (s && v.msb)) := by
  rw [signBits]
  cases hs : s && v.msb with
  | true => rw [if_pos rfl, Rotation.getLsbD_ones hi, Bool.and_true]
  | false =>
    rw [if_neg Bool.false_ne_true, Bool.and_false]
    exact BitVec.getLsbD_zero

theorem rotl_eq (s : Bool) (v : BitVec w) {n : Nat} (hw : 0 < w) (hn : w - n % w < max w 32) :
    rotl s v n = some (v.rotateLeft n ||| signBits s v (n % w)) := by
  have hlt : n % w < w := Nat.mod_lt n hw
  cases shiftRight_promote s v hn with
  | intro high hhigh =>
  cases shiftLeft_promote s v (show n % w < max w 32 by omega) with
  | intro low hlow =>
  rw [rotl, hhigh.1, bind_some, hlow.1, map_some]
  refine congrArg some (BitVec.eq_of_getLsbD_eq fun i hi => ?_)
  rw [BitVec.getLsbD_setWidth, decide_eq_true hi, Bool.true_and, BitVec.getLsbD_or, hhigh.2 i hi,
    hlow.2 i hi, BitVec.getLsbD_or, getLsbD_signBits s v _ hi, BitVec.getLsbD_rotateLeft]
  by_cases h : i < n % w
  · rw [if_pos (by omega), decide_eq_true h, decide_eq_false (by omega), Bool.false_and, Bool.or_false,
      Bool.false_and, Bool.or_false, cond_true]
  · rw [if_neg (by omega), decide_eq_false h, decide_eq_true (by omega), Bool.true_and, cond_false,
      decide_eq_true hi, Bool.true_and, Bool.true_and, Bool.or_comm]

theorem rotr_eq (s : Bool) (v : BitVec w) {n : Nat} (hw : 0 < w) (hn : w - n % w < max w 32) :
    rotr s v n = some (v.rotateRight n ||| signBits s v (w - n % w)) := by
  have hlt : n % w < w := Nat.mod_lt n hw
  cases shiftLeft_promote s v hn with
  | intro high hhigh =>
  cases shiftRight_promote s v (show n % w < max w 32 by omega) with
  | intro low hlow =>
  rw [rotr, hhigh.1, bind_some, hlow.1, map_some]
  refine congrArg some (BitVec.eq_of_getLsbD_eq fun i hi => ?_)
  rw [BitVec.getLsbD_setWidth, decide_eq_true hi, Bool.true_and, BitVec.getLsbD_or, hhigh.2 i hi,
    hlow.2 i hi, BitVec.getLsbD_or, getLsbD_signBits s v _ hi, BitVec.getLsbD_rotateRight]
  by_cases h : i < w - n % w
  · rw [if_pos (by omega), decide_eq_true h, decide_eq_false (by omega), Bool.false_and, Bool.false_or,
      Bool.false_and, Bool.or_false, cond_true]
  · rw [if_neg (by omega), decide_eq_false h, decide_eq_true (by omega), Bool.true_and, cond_false,
      decide_eq_true hi, Bool.true_and, Bool.true_and]

theorem rotl_none (s : Bool) (v : BitVec w) {n : Nat} (hn : max w 32 ≤ w - n % w) : rotl s v n = none := by
  rw [rotl, shiftRight, if_neg (Nat.not_lt.mpr hn), bind_none]

theorem rotl_eq_rotateLeft_iff (s : Bool) (v : BitVec w) {n : Nat} (hw : 0 < w)
    (hn : w - n % w < max w 32) :
    rotl s v n = some (v.rotateLeft n) ↔
      (s && v.msb) = false ∨ ∀ i < w - n % w, v.getLsbD i = true := by
  rw [rotl_eq s v hw hn, some.injEq, signBits]
  cases s && v.msb with
  | true =>
    rw [if_pos rfl, Rotation.rotateLeft_or_ones_iff]
    exact ⟨Or.inr, Or.rec (fun h => (Bool.false_ne_true h.symm).elim) id⟩
  | false =>
    rw [if_neg Bool.false_ne_true]
    exact iff_of_true (BitVec.or_zero) (.inl rfl)

theorem rotr_eq_rotateRight_iff (s : Bool) (v : BitVec w) {n : Nat} (hw : 0 < w)
    (hn : w - n % w < max w 32) :
    rotr s v n = some (v.rotateRight n) ↔
      (s && v.msb) = false ∨ ∀ i < n % w, v.getLsbD i = true := by
  rw [rotr_eq s v hw hn, some.injEq, signBits]
  cases s && v.msb with
  | true =>
    rw [if_pos rfl, Rotation.rotateRight_or_ones_iff v n hw]
    exact ⟨Or.inr, Or.rec (fun h => (Bool.false_ne_true h.symm).elim) id⟩
  | false =>
    rw [if_neg Bool.false_ne_true]
    exact iff_of_true (BitVec.or_zero) (.inl rfl)

theorem rotl_isSome {s : Bool} {v x : BitVec w} {n : Nat} (h : rotl s v n = some x) :
    w - n % w < max w 32 := by
  refine Nat.not_le.mp fun hn => ?_
  rw [rotl_none s v hn] at h
  cases h

theorem rotr_rotateLeft_iff {s : Bool} {v : BitVec w} {n : Nat} (hw : 0 < w)
    (hn : w - n % w < max w 32) (hv : (s && v.msb) = false) :
    rotr s (v.rotateLeft n) n = some v ↔ (s && (v.rotateLeft n).msb) = false := by
  have h := rotr_eq_rotateRight_iff s (v.rotateLeft n) hw hn
  rw [Rotation.rotateRight_rotateLeft] at h
  refine h.trans ⟨?_, .inl⟩
  intro hbits
  cases hbits with
  | inl hmsb => exact hmsb
  | inr hones =>
    by_cases h0 : n % w = 0
    · rw [Rotation.rotateLeft_of_mod_eq_zero h0]
      exact hv
    · -- the bit that comes around last is the sign
      have hlast := hones (n % w - 1) (by omega)
      have hlt : n % w < w := Nat.mod_lt n hw
      rw [Rotation.getLsbD_rotateLeft_low (by omega), show w - n % w + (n % w - 1) = w - 1 by omega,
        ← BitVec.msb_eq_getLsbD_last] at hlast
      rw [hlast, Bool.and_true] at hv
      rw [hv, Bool.false_and]

theorem eq_allOnes_of_undone {s : Bool} {v : BitVec w} {n : Nat} (hw : 0 < w)
    (hn : w - n % w < max w 32) (hv : (s && v.msb) = true)
    (hrot : rotl s v n = some (v.rotateLeft n)) (hundo : rotr s (v.rotateLeft n) n = some v) :
    v = BitVec.allOnes w := by
  have hlt : n % w < w := Nat.mod_lt n hw
  have hlow : ∀ i < w - n % w, v.getLsbD i = true := by
    cases (rotl_eq_rotateLeft_iff s v hw hn).mp hrot with
    | inl h => exact (Bool.false_ne_true (h.symm.trans hv)).elim
    | inr h => exact h
  have hhigh : ∀ i < n % w, (v.rotateLeft n).getLsbD i = true := by
    intro i hi
    cases (rotr_eq_rotateRight_iff s (v.rotateLeft n) hw hn).mp
        (hundo.trans (congrArg some (Rotation.rotateRight_rotateLeft v n).symm)) with
    | inl h =>
      rw [(Bool.and_eq_true_iff.mp hv).1, Bool.true_and, Rotation.msb_rotateLeft (by omega) hw,
        hlow _ (by omega)] at h
      cases h
    | inr h => exact h i hi
  refine BitVec.eq_of_getLsbD_eq fun i hi => ?_
  rw [BitVec.getLsbD_allOnes, decide_eq_true hi]
  by_cases h : i < w - n % w
  · exact hlow i h
  · have hbit := hhigh (i - (w - n % w)) (by omega)
    rw [Rotation.getLsbD_rotateLeft_low (by omega)] at hbit
    rw [← hbit]
    congr 1
    omega

theorem rotl_add_iff {s : Bool} {v : BitVec w} {m n : Nat} (hw : 0 < w) (hn : w - n % w < max w 32)
    (hm : w - m % w < max w 32) (hmn : w - (m + n) % w < max w 32)
    (hrot : ∀ k, w - k % w < max w 32 → rotl s v k = some (v.rotateLeft k)) :
    (∃ r x, rotl s v m = some r ∧ rotl s r n = some x ∧ rotl s v ((m + n) % w) = some x) ↔
      (s && (v.rotateLeft m).msb) = false ∨ ∀ i < w - n % w, (v.rotateLeft m).getLsbD i = true := by
  rw [← rotl_eq_rotateLeft_iff s (v.rotateLeft m) hw hn, Rotation.rotateLeft_rotateLeft]
  have hsum : rotl s v ((m + n) % w) = some (v.rotateLeft ((m + n) % w)) :=
    hrot _ (by rwa [Nat.mod_mod])
  constructor
  · rintro ⟨r, x, hr, hx, hx'⟩
    cases (hrot m hm).symm.trans hr
    exact hx.trans (hx'.symm.trans hsum)
  · intro h
    exact ⟨_, _, hrot m hm, h, hsum⟩

/-- What the shifts need to be rotations of a word. -/
def Rotates (s : Bool) (v : BitVec w) (m n : Nat) : Prop :=
  v = BitVec.allOnes w ∨
    (s && v.msb) = false ∧ (s && (v.rotateLeft n).msb) = false ∧
      ((s && (v.rotateLeft m).msb) = false ∨ ∀ i < w - n % w, (v.rotateLeft m).getLsbD i = true)

theorem rotates_iff {s : Bool} {v : BitVec w} {m n : Nat} (hw : 0 < w) (hn : w - n % w < max w 32)
    (hm : w - m % w < max w 32) (hmn : w - (m + n) % w < max w 32) :
    (rotl s v n = some (v.rotateLeft n) ∧ rotr s (v.rotateLeft n) n = some v ∧
      ∃ r x, rotl s v m = some r ∧ rotl s r n = some x ∧ rotl s v ((m + n) % w) = some x) ↔
      Rotates s v m n := by
  cases hv : s && v.msb with
  | false =>
    have hrot (k : Nat) (hk : w - k % w < max w 32) : rotl s v k = some (v.rotateLeft k) :=
      (rotl_eq_rotateLeft_iff s v hw hk).mpr (.inl hv)
    rw [rotr_rotateLeft_iff hw hn hv, rotl_add_iff hw hn hm hmn hrot]
    constructor
    · rintro ⟨-, hundo, hadd⟩
      exact .inr ⟨hv, hundo, hadd⟩
    · intro h
      cases h with
      | inl hones =>
        rw [hones, BitVec.msb_allOnes hw, Bool.and_true] at hv
        have hs (x : BitVec w) : (s && x.msb) = false := by rw [hv, Bool.false_and]
        exact ⟨hrot n hn, hs _, .inl (hs _)⟩
      | inr h => exact ⟨hrot n hn, h.2⟩
  | true =>
    constructor
    · rintro ⟨hrot, hundo, -⟩
      exact .inl (eq_allOnes_of_undone hw hn hv hrot hundo)
    · intro h
      cases h with
      | inl hones =>
        subst hones
        have hbits {i : Nat} {k : Nat} (hi : i < k) (hk : k ≤ w) : (BitVec.allOnes w).getLsbD i = true := by
          rw [BitVec.getLsbD_allOnes, decide_eq_true (by omega)]
        have hrot (k : Nat) (hk : w - k % w < max w 32) :
            rotl s (BitVec.allOnes w) k = some ((BitVec.allOnes w).rotateLeft k) :=
          (rotl_eq_rotateLeft_iff s _ hw hk).mpr (.inr fun i hi => hbits hi (Nat.sub_le w _))
        refine ⟨hrot n hn, ?_, (rotl_add_iff hw hn hm hmn hrot).mpr (.inr fun i hi => ?_)⟩
        · have h := (rotr_eq_rotateRight_iff s ((BitVec.allOnes w).rotateLeft n) hw hn).mpr
            (.inr fun i hi => by
              rw [Rotation.rotateLeft_allOnes]
              exact hbits hi (Nat.mod_lt n hw).le)
          rwa [Rotation.rotateRight_rotateLeft] at h
        · rw [Rotation.rotateLeft_allOnes]
          exact hbits hi (Nat.sub_le w _)
      | inr h =>
        rw [hv] at h
        cases h.1

end Bits

/-! ## The laws -/

section Laws

variable {t : IntType} {b : BitVec t.bits} {n : UInt32}

theorem bits_pos (t : IntType) : 0 < t.bits := by
  cases t <;> exact Nat.zero_lt_succ _

theorem ofPattern_injective (t : IntType) : Function.Injective (ofPattern t) := by
  intro a b h
  cases t with
  | int8 | int16 | int32 | int64 =>
    injection h with h
    injection h with h
    injection h
  | uint8 | uint16 | uint32 | uint64 =>
    injection h with h
    injection h

theorem lshiftR_eq_iff {r : Value} :
    lshiftR (ofPattern t b) n = some (.ok r) ↔ ∃ x, rotl t.signed b n.toNat = some x ∧ ofPattern t x = r := by
  simp only [lshiftR_ofPattern, map_eq_some_iff, Except.ok.injEq]

theorem lshiftR_eq_ofPattern_iff {x : BitVec t.bits} :
    lshiftR (ofPattern t b) n = some (.ok (ofPattern t x)) ↔ rotl t.signed b n.toNat = some x := by
  simp only [lshiftR_eq_iff, (ofPattern_injective t).eq_iff, exists_eq_right]

theorem rshiftR_eq_ofPattern_iff {x : BitVec t.bits} :
    rshiftR (ofPattern t b) n = some (.ok (ofPattern t x)) ↔ rotr t.signed b n.toNat = some x := by
  simp only [rshiftR_ofPattern, map_eq_some_iff, Except.ok.injEq, (ofPattern_injective t).eq_iff,
    exists_eq_right]

/-- The laws of rotation.  Every call has a result, so no operand is shifted by its width. -/
structure RotationLaws (t : IntType) (b : BitVec t.bits) (m n : UInt32) : Prop where
  rotates : lshiftR (ofPattern t b) n = some (.ok (ofPattern t (b.rotateLeft (n.toNat % t.bits))))
  undoes : ∃ r, lshiftR (ofPattern t b) n = some (.ok r) ∧ rshiftR r n = some (.ok (ofPattern t b))
  adds : ∃ r x, lshiftR (ofPattern t b) m = some (.ok r) ∧ lshiftR r n = some (.ok x) ∧
    lshiftR (ofPattern t b) (.ofNat ((m.toNat + n.toNat) % t.bits)) = some (.ok x)

/-- No shift is by the width of the operand. -/
def Shiftable (t : IntType) (n : Nat) : Prop := t.bits < 32 ∨ n % t.bits ≠ 0

theorem shiftable_iff (t : IntType) (n : Nat) : Shiftable t n ↔ t.bits - n % t.bits < max t.bits 32 := by
  have hn : n % t.bits < t.bits := Nat.mod_lt n (bits_pos t)
  rw [Shiftable]
  omega

theorem toNat_ofNat_mod (t : IntType) (k : Nat) : (UInt32.ofNat (k % t.bits)).toNat = k % t.bits := by
  have hk : k % t.bits < t.bits := Nat.mod_lt k (bits_pos t)
  have ht : t.bits ≤ 64 := by cases t <;> decide
  rw [UInt32.toNat_ofNat']
  exact Nat.mod_eq_of_lt (by omega)

/-- The shifts are rotations exactly if none is by the width of the operand and no sign is copied into
bits that should be zero. -/
theorem rotation_iff (t : IntType) (b : BitVec t.bits) (m n : UInt32) :
    RotationLaws t b m n ↔
      (Shiftable t n.toNat ∧ Shiftable t m.toNat ∧ Shiftable t (m.toNat + n.toNat)) ∧
        Rotates t.signed b m.toNat n.toNat := by
  constructor
  · rintro ⟨hrot, ⟨r, hr, hundo⟩, ⟨r', x, hm, hn, hmn⟩⟩
    rw [BitVec.rotateLeft_mod_eq_rotateLeft] at hrot
    cases hrot.symm.trans hr
    have hrot := lshiftR_eq_ofPattern_iff.mp hrot
    cases lshiftR_eq_iff.mp hm with
    | intro a ha =>
    cases ha.2
    cases lshiftR_eq_iff.mp hn with
    | intro c hc =>
    cases hc.2
    have hsum := lshiftR_eq_ofPattern_iff.mp hmn
    rw [toNat_ofNat_mod] at hsum
    have hw := bits_pos t
    have hnk := rotl_isSome hrot
    have hmk := rotl_isSome ha.1
    have hmnk := rotl_isSome hsum
    rw [Nat.mod_mod] at hmnk
    exact ⟨⟨(shiftable_iff t _).mpr hnk, (shiftable_iff t _).mpr hmk, (shiftable_iff t _).mpr hmnk⟩,
      (rotates_iff hw hnk hmk hmnk).mp
        ⟨hrot, rshiftR_eq_ofPattern_iff.mp hundo, a, c, ha.1, hc.1, hsum⟩⟩
  · rintro ⟨⟨hn, hm, hmn⟩, h⟩
    rw [shiftable_iff] at hn hm hmn
    have hlaws := (rotates_iff (bits_pos t) hn hm hmn).mpr h
    have hrot := lshiftR_eq_ofPattern_iff.mpr hlaws.1
    cases hlaws.2.2 with
    | intro a ha =>
    cases ha with
    | intro c hc =>
    refine ⟨?_, ⟨_, hrot, rshiftR_eq_ofPattern_iff.mpr hlaws.2.1⟩, ofPattern t a, ofPattern t c,
      lshiftR_eq_ofPattern_iff.mpr hc.1, lshiftR_eq_ofPattern_iff.mpr hc.2.1,
      lshiftR_eq_ofPattern_iff.mpr ?_⟩
    · rw [BitVec.rotateLeft_mod_eq_rotateLeft]
      exact hrot
    · rw [toNat_ofNat_mod]
      exact hc.2.2

/-- The smallest number of eight bits becomes -1 instead of 1, and a word of 32 bits is shifted by 32. -/
theorem lshiftR_int8_min :
    lshiftR (.int8 (-128)) 1 = some (.ok (.int8 (-1))) ∧ lshiftR (.uint32 5) 32 = none ∧
      ¬ ∀ (t : IntType) (b : BitVec t.bits) (m n : UInt32), RotationLaws t b m n := by
  refine ⟨rfl, rfl, fun h => ?_⟩
  have hrot := (h .int8 0x80#8 0 1).rotates
  injection hrot with hrot
  injection hrot with hrot
  injection hrot with hrot
  exact absurd hrot (by decide)

end Laws

end Awtk.Value
