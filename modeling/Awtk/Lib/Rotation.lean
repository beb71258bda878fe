import Awtk.Lib.Ring

/-!
# Rotations

Rotations of bit vectors add up and are undone.  Two shifts put together are a rotation with ones above
the bits that come down, where the shift to the right copies the sign.
-/

namespace Rotation

variable {w : Nat} {v : BitVec w} {m n : Nat}

/-! ## Laws -/

theorem getLsbD_rotateLeft {i : Nat} (hi : i < w) :
    (v.rotateLeft n).getLsbD i = v.getLsbD ((i + (w - n % w)) % w) := by
  have hn : n % w < w := Nat.mod_lt n (by omega)
  rw [BitVec.getLsbD_rotateLeft, Ring.add_mod_eq hi (Nat.sub_le w _)]
  by_cases h : i < n % w
  · rw [if_pos (by omega), decide_eq_true h, cond_true, Nat.add_comm]
  · rw [if_neg (by omega), decide_eq_false h, cond_false, decide_eq_true hi, Bool.true_and]
    congr 1
    omega

theorem sub_mod_sub_mod {a b i : Nat} (ha : a < w) (hb : b < w) (hi : i < w) :
    ((i + (w - b)) % w + (w - a)) % w = (i + (w - (a + b) % w)) % w := by
  have hmod : (i + (w - b)) % w < w := Nat.mod_lt _ (by omega)
  rw [Ring.add_mod_eq hmod (Nat.sub_le w _), Ring.add_mod_eq hi (Nat.sub_le w _),
    Ring.add_mod_eq hi (Nat.sub_le w _), Ring.add_mod_eq ha hb.le]
  split_ifs <;> omega

theorem rotateLeft_rotateLeft (v : BitVec w) (m n : Nat) :
    (v.rotateLeft m).rotateLeft n = v.rotateLeft ((m + n) % w) := by
  refine BitVec.eq_of_getLsbD_eq fun i hi => ?_
  have hw : 0 < w := Nat.zero_lt_of_lt hi
  rw [getLsbD_rotateLeft hi, getLsbD_rotateLeft (Nat.mod_lt _ hw), getLsbD_rotateLeft hi, Nat.mod_mod,
    Nat.add_mod m n, sub_mod_sub_mod (Nat.mod_lt m hw) (Nat.mod_lt n hw) hi]

theorem rotateRight_rotateLeft (v : BitVec w) (n : Nat) : (v.rotateLeft n).rotateRight n = v := by
  refine BitVec.eq_of_getLsbD_eq fun i hi => ?_
  have hn : n % w < w := Nat.mod_lt n (by omega)
  rw [BitVec.getLsbD_rotateRight]
  by_cases h : i < w - n % w
  · rw [decide_eq_true h, cond_true, getLsbD_rotateLeft (by omega), Ring.add_mod_eq (by omega) (by omega),
      if_neg (by omega)]
    congr 1
    omega
  · rw [decide_eq_false h, cond_false, decide_eq_true hi, Bool.true_and, getLsbD_rotateLeft (by omega),
      Ring.add_mod_eq (by omega) (by omega), if_pos (by omega)]
    congr 1
    omega

theorem rotateLeft_allOnes (n : Nat) : (BitVec.allOnes w).rotateLeft n = BitVec.allOnes w := by
  refine BitVec.eq_of_getLsbD_eq fun i hi => ?_
  rw [getLsbD_rotateLeft hi, BitVec.getLsbD_allOnes, BitVec.getLsbD_allOnes, decide_eq_true hi]
  exact decide_eq_true (Nat.mod_lt _ (by omega))

theorem getLsbD_rotateLeft_low {i : Nat} (hi : i < n % w) :
    (v.rotateLeft n).getLsbD i = v.getLsbD (w - n % w + i) := by
  rw [BitVec.getLsbD_rotateLeft, decide_eq_true hi, cond_true]

theorem msb_rotateLeft (h : n % w ≠ 0) (hw : 0 < w) :
    (v.rotateLeft n).msb = v.getLsbD (w - n % w - 1) := by
  have hn : n % w < w := Nat.mod_lt n hw
  rw [BitVec.msb_eq_getLsbD_last, BitVec.getLsbD_rotateLeft, decide_eq_false (by omega), cond_false,
    decide_eq_true (by omega), Bool.true_and]
  congr 1
  omega

theorem rotateLeft_of_mod_eq_zero (h : n % w = 0) : v.rotateLeft n = v := by
  rw [← BitVec.rotateLeft_mod_eq_rotateLeft, h]
  refine BitVec.eq_of_getLsbD_eq fun i hi => ?_
  rw [getLsbD_rotateLeft hi, Nat.zero_mod, Nat.sub_zero, Nat.add_mod_right, Nat.mod_eq_of_lt hi]

/-! ## Shifts with a sign -/

/-- Ones from a position on. -/
def ones (w k : Nat) : BitVec w := BitVec.allOnes w <<< k

theorem getLsbD_ones {k i : Nat} (hi : i < w) : (ones w k).getLsbD i = decide (k ≤ i) := by
  rw [ones, BitVec.getLsbD_shiftLeft, BitVec.getLsbD_allOnes, decide_eq_true hi, Bool.true_and]
  by_cases h : i < k
  · rw [decide_eq_true h, decide_eq_false (Nat.not_le.mpr h), Bool.not_true, Bool.false_and]
  · rw [decide_eq_false h, decide_eq_true (Nat.not_lt.mp h), Bool.not_false, Bool.true_and,
      decide_eq_true (by omega)]

theorem or_ones_iff (x : BitVec w) (k : Nat) :
    x ||| ones w k = x ↔ ∀ i, k ≤ i → i < w → x.getLsbD i = true := by
  constructor
  · intro h i hk hi
    rw [← h, BitVec.getLsbD_or, getLsbD_ones hi, decide_eq_true hk, Bool.or_true]
  · intro h
    refine BitVec.eq_of_getLsbD_eq fun i hi => ?_
    rw [BitVec.getLsbD_or, getLsbD_ones hi]
    by_cases hk : k ≤ i
    · rw [h i hk hi, Bool.true_or]
    · rw [decide_eq_false hk, Bool.or_false]

theorem rotateLeft_or_ones_iff (v : BitVec w) (n : Nat) :
    v.rotateLeft n ||| ones w (n % w) = v.rotateLeft n ↔ ∀ i < w - n % w, v.getLsbD i = true := by
  rw [or_ones_iff]
  have hbit (j : Nat) (hj : j < w - n % w) : (v.rotateLeft n).getLsbD (j + n % w) = v.getLsbD j := by
    rw [BitVec.getLsbD_rotateLeft, decide_eq_false (by omega), cond_false, decide_eq_true (by omega),
      Bool.true_and, Nat.add_sub_cancel]
  constructor
  · intro h i hi
    rw [← hbit i hi]
    exact h _ (Nat.le_add_left _ _) (by omega)
  · intro h i hk hi
    rw [← Nat.sub_add_cancel hk, hbit _ (by omega)]
    exact h _ (by omega)

theorem rotateRight_or_ones_iff (v : BitVec w) (n : Nat) (hw : 0 < w) :
    v.rotateRight n ||| ones w (w - n % w) = v.rotateRight n ↔ ∀ i < n % w, v.getLsbD i = true := by
  have hn : n % w < w := Nat.mod_lt n hw
  rw [or_ones_iff]
  have hbit (j : Nat) (hj : j < n % w) :
      (v.rotateRight n).getLsbD (j + (w - n % w)) = v.getLsbD j := by
    rw [BitVec.getLsbD_rotateRight, decide_eq_false (by omega), cond_false, decide_eq_true (by omega),
      Bool.true_and, Nat.add_sub_cancel]
  constructor
  · intro h i hi
    rw [← hbit i hi]
    exact h _ (Nat.le_add_left _ _) (by omega)
  · intro h i hk hi
    rw [← Nat.sub_add_cancel hk, hbit _ (by omega)]
    exact h _ (by omega)

end Rotation
