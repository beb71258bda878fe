import Mathlib

/-!
# Bitmaps

A bitmap is a list of words of one width.  Its members are the indices of its set bits.  Setting
a bit inserts an index and clearing a bit erases it, and no other bit changes.
-/

namespace Bitmap

open List

variable {w : Nat} {v : BitVec w} {bits : List (BitVec w)} {r s : Nat}

/-- Bits behind the last word are clear. -/
def test (bits : List (BitVec w)) (r : Nat) : Bool := (bits.getD (r / w) 0).getLsbD (r % w)

def set (bits : List (BitVec w)) (r : Nat) : List (BitVec w) :=
  bits.modify (r / w) fun v => v ||| BitVec.twoPow w (r % w)

def clear (bits : List (BitVec w)) (r : Nat) : List (BitVec w) :=
  bits.modify (r / w) fun v => v &&& ~~~ BitVec.twoPow w (r % w)

/-- The indices of the set bits. -/
def members (bits : List (BitVec w)) : Finset Nat :=
  (Finset.range (w * bits.length)).filter fun r => test bits r

@[simp] theorem length_set : (set bits r).length = bits.length := length_modify _ _ _

@[simp] theorem length_clear : (clear bits r).length = bits.length := length_modify _ _ _

theorem div_lt (h : r < w * bits.length) : r / w < bits.length := Nat.div_lt_of_lt_mul h

theorem mod_lt (h : r < w * bits.length) : r % w < w :=
  Nat.mod_lt _ (Nat.pos_of_mul_pos_right (Nat.zero_lt_of_lt h))

theorem test_lt (h : test bits r = true) : r < w * bits.length := by
  by_contra hr
  have hlen : bits.length ≤ r / w := by
    rcases Nat.eq_zero_or_pos w with rfl | hw
    · simp [test] at h
    · exact (Nat.le_div_iff_mul_le hw).mpr (by rw [Nat.mul_comm]; exact Nat.le_of_not_lt hr)
  simp [test, getD_eq_getElem?_getD, getElem?_eq_none hlen] at h

theorem mem_members : r ∈ members bits ↔ test bits r = true := by
  rw [members, Finset.mem_filter, Finset.mem_range]
  exact and_iff_right_of_imp test_lt

theorem eq_of_div_of_mod (hdiv : r / w = s / w) (hmod : r % w = s % w) : r = s := by
  rw [← Nat.div_add_mod r w, ← Nat.div_add_mod s w, hdiv, hmod]

theorem test_modify (f : BitVec w → BitVec w) (h : r < w * bits.length) :
    test (bits.modify (r / w) f) s =
      if r / w = s / w then (f (bits.getD (s / w) 0)).getLsbD (s % w) else test bits s := by
  rw [test, test, getD_eq_getElem?_getD, getElem?_modify]
  split
  · next hdiv =>
    have hlt : s / w < bits.length := hdiv ▸ div_lt h
    simp [getD_eq_getElem?_getD, getElem?_eq_getElem hlt]
  · simp [getD_eq_getElem?_getD]

theorem test_set (h : r < w * bits.length) :
    test (set bits r) s = (decide (s = r) || test bits s) := by
  rw [set, test_modify _ h]
  split
  · next hdiv =>
    have hiff : r % w = s % w ↔ s = r :=
      ⟨fun hmod => (eq_of_div_of_mod hdiv hmod).symm, fun heq => heq ▸ rfl⟩
    have hlt : s % w < w := Nat.mod_lt _ (Nat.pos_of_mul_pos_right (Nat.zero_lt_of_lt h))
    simp [test, BitVec.getLsbD_twoPow, hiff, mod_lt h, Bool.or_comm]
  · next hdiv =>
    have hne : s ≠ r := fun heq => hdiv (heq ▸ rfl)
    simp [hne]

theorem test_clear (h : r < w * bits.length) :
    test (clear bits r) s = (test bits s && !decide (s = r)) := by
  rw [clear, test_modify _ h]
  split
  · next hdiv =>
    have hiff : s % w = r % w ↔ s = r :=
      ⟨fun hmod => eq_of_div_of_mod hdiv.symm hmod, fun heq => heq ▸ rfl⟩
    have hlt : s % w < w := Nat.mod_lt _ (Nat.pos_of_mul_pos_right (Nat.zero_lt_of_lt h))
    simp [test, hiff, hlt]
  · next hdiv =>
    have hne : s ≠ r := fun heq => hdiv (heq ▸ rfl)
    simp [hne]

theorem members_set (h : r < w * bits.length) : members (set bits r) = insert r (members bits) := by
  ext s
  simp [mem_members, test_set h]

theorem members_clear (h : r < w * bits.length) :
    members (clear bits r) = (members bits).erase r := by
  ext s
  simp [mem_members, test_clear h, and_comm]

theorem members_zero (n : Nat) : members (List.replicate n (0 : BitVec w)) = ∅ := by
  ext s
  have hzero : (List.replicate n (0 : BitVec w)).getD (s / w) 0 = 0 := by
    rw [getD_eq_getElem?_getD, getElem?_replicate]
    split <;> rfl
  rw [mem_members, test, hzero]
  simp

/-! ## One word after the other -/

theorem test_cons_of_lt (h : r < w) : test (v :: bits) r = v.getLsbD r := by
  simp [test, Nat.div_eq_of_lt h, Nat.mod_eq_of_lt h]

theorem test_cons_add (hw : 0 < w) (r : Nat) : test (v :: bits) (w + r) = test bits r := by
  simp [test, Nat.add_div_left r hw]

theorem set_cons_of_lt (h : r < w) :
    set (v :: bits) r = (v ||| BitVec.twoPow w r) :: bits := by
  simp [set, Nat.div_eq_of_lt h, Nat.mod_eq_of_lt h]

theorem set_cons_add (hw : 0 < w) (r : Nat) : set (v :: bits) (w + r) = v :: set bits r := by
  simp [set, Nat.add_div_left r hw]

end Bitmap
