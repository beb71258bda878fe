import Mathlib
import Awtk.Lib.HoleSort
import Awtk.Tkc.Types

/-!
# Sorting an array of pointers

`tk_qsort` reads an element before it looks where its cursors are.  A place outside the array cannot
be read or written: what the code does to the array is `none` there.  The sort is that of `HoleSort`
over the cells of the array, whatever the comparison is (`tkQsort_spec`).
-/

namespace Awtk.Qsort

open Function List Option

variable {α : Type*}

/-! ## The code -/

/-- `array[i] = v`. -/
def store (array : List α) (i : Nat) (v : α) : Option (List α) :=
  if i < array.length then some (array.set i v) else none

section

variable (cmp : α → α → Int)

/-- The loop that moves `right` to the left. -/
def scanRight (array : List α) (x : α) (left : Nat) : (right : Nat) → Option Nat
  | 0 => array[0]?.bind fun _ => some 0
  | right + 1 => array[right + 1]?.bind fun y =>
    if 0 ≤ cmp y x ∧ left < right + 1 then scanRight array x left right else some (right + 1)

/-- The loop that moves `left` to the right, where `right` is so far away. -/
def scanLeft (array : List α) (x : α) : (gap left : Nat) → Option Nat
  | 0, left => array[left]?.bind fun _ => some left
  | gap + 1, left => array[left]?.bind fun y =>
    if cmp y x ≤ 0 then scanLeft array x gap (left + 1) else some left

def fillLeft (array : List α) (left right : Nat) : Option (List α × Nat) :=
  if left ≠ right then
    array[right]?.bind fun y => (store array left y).map fun array => (array, left + 1)
  else some (array, left)

def fillRight (array : List α) (left right : Nat) : Option (List α × Nat) :=
  if left ≠ right then
    array[left]?.bind fun y => (store array right y).map fun array => (array, right - 1)
  else some (array, right)

/-- The loop of `tk_quick_sort_impl`, and where `left` is at its end. -/
def quickSortLoop (x : α) : (fuel : Nat) → List α → (left right : Nat) → Option (List α × Nat)
  | 0, array, left, right => if left < right then none else some (array, left)
  | fuel + 1, array, left, right =>
    if left < right then
      (scanRight cmp array x left right).bind fun right =>
        (fillLeft array left right).bind fun (array, left) =>
          (scanLeft cmp array x (right - left) left).bind fun left =>
            (fillRight array left right).bind fun (array, right) =>
              quickSortLoop x fuel array left right
    else some (array, left)

def quickSortImpl : (fuel : Nat) → List α → (left right : Nat) → Option (List α)
  | 0, _, _, _ => none
  | fuel + 1, array, saveLeft, saveRight =>
    array[saveLeft]?.bind fun x =>
      (quickSortLoop cmp x (saveRight - saveLeft) array saveLeft saveRight).bind
        fun (array, left) => (store array left x).bind fun array =>
          (if saveLeft < left then quickSortImpl fuel array saveLeft (left - 1)
            else some array).bind fun array =>
              if left < saveRight then quickSortImpl fuel array (left + 1) saveRight else some array

def tkQsort (array : List α) (nr : Nat) : Option (Ret × List α) :=
  if 1 < nr then (quickSortImpl cmp nr array 0 (nr - 1)).map fun array => (.ok, array)
  else some (.ok, array)

end

/-! ## The cells of the array -/

/-- What is read at a place. -/
def cells (array : List α) (i : Nat) : Option α := array[i]?

/-- The comparison of what is read. -/
def compare (cmp : α → α → Int) : Option α → Option α → Int
  | some y, some x => cmp y x
  | some _, none => -1
  | none, some _ => 1
  | none, none => 0

variable {cmp : α → α → Int} {array array' : List α} {x : α} {left right : Nat}

theorem compare_total (h : HoleSort.TotalPreorder cmp) : HoleSort.TotalPreorder (compare cmp) where
  swap a b := by
    cases a <;> cases b <;> simp [compare, h.swap]
  trans a b c hab hbc := by
    cases a <;> cases b <;> cases c <;> simp_all [compare]
    exact h.trans _ _ _ hab hbc

theorem getElem?_cells (h : left < array.length) : ∃ y, array[left]? = some y :=
  ⟨_, getElem?_eq_getElem h⟩

theorem cells_set (h : left < array.length) (v : α) :
    cells (array.set left v) = Function.update (cells array) left (some v) := by
  funext i
  by_cases hi : i = left
  · subst hi
    rw [update_self, cells, getElem?_set_self h]
  · rw [update_of_ne hi, cells, getElem?_set_ne (Ne.symm hi), cells]

/-- An array of the same length with these cells. -/
def Shows (array array' : List α) (a : Nat → Option α) : Prop :=
  array'.length = array.length ∧ cells array' = a

theorem scanRight_eq : ∀ {right : Nat}, right < array.length → scanRight cmp array x left right =
    some (HoleSort.scanRight (compare cmp) (some x) (cells array) left right)
  | 0, h => by
    obtain ⟨y, hy⟩ := getElem?_cells h
    rw [scanRight, hy, bind_some, HoleSort.scanRight]
  | right + 1, h => by
    obtain ⟨y, hy⟩ := getElem?_cells h
    rw [scanRight, hy, bind_some, HoleSort.scanRight, cells, hy, compare,
      scanRight_eq (Nat.lt_of_succ_lt h), apply_ite some]

theorem scanLeft_eq : ∀ {gap left : Nat}, left + gap < array.length →
    scanLeft cmp array x gap left =
      some (HoleSort.scanLeft (compare cmp) (some x) (cells array) gap left)
  | 0, left, h => by
    obtain ⟨y, hy⟩ := getElem?_cells (show left < array.length from h)
    rw [scanLeft, hy, bind_some, HoleSort.scanLeft]
  | gap + 1, left, h => by
    obtain ⟨y, hy⟩ := getElem?_cells (show left < array.length by omega)
    rw [scanLeft, hy, bind_some, HoleSort.scanLeft, cells, hy, compare,
      scanLeft_eq (by omega), apply_ite some]

theorem fillLeft_eq (hle : left ≤ right) (h : right < array.length) :
    ∃ array', fillLeft array left right =
        some (array', (HoleSort.fillLeft (cells array) left right).2) ∧
      Shows array array' (HoleSort.fillLeft (cells array) left right).1 := by
  have hleft := Nat.lt_of_le_of_lt hle h
  obtain ⟨y, hy⟩ := getElem?_cells h
  rw [fillLeft, HoleSort.fillLeft]
  by_cases hne : left ≠ right
  · rw [if_pos hne, if_pos hne, hy, bind_some, store, if_pos hleft]
    refine ⟨array.set left y, rfl, length_set, ?_⟩
    rw [cells_set hleft, cells, hy]
  · rw [if_neg hne, if_neg hne]
    exact ⟨array, rfl, rfl, rfl⟩

theorem fillRight_eq (hle : left ≤ right) (h : right < array.length) :
    ∃ array', fillRight array left right =
        some (array', (HoleSort.fillRight (cells array) left right).2) ∧
      Shows array array' (HoleSort.fillRight (cells array) left right).1 := by
  obtain ⟨y, hy⟩ := getElem?_cells (Nat.lt_of_le_of_lt hle h)
  rw [fillRight, HoleSort.fillRight]
  by_cases hne : left ≠ right
  · rw [if_pos hne, if_pos hne, hy, bind_some, store, if_pos h]
    refine ⟨array.set right y, rfl, length_set, ?_⟩
    rw [cells_set h, cells, hy]
  · rw [if_neg hne, if_neg hne]
    exact ⟨array, rfl, rfl, rfl⟩

theorem quickSortLoop_eq {b : Nat → Option α} {p : Nat} : ∀ {fuel : Nat} {array : List α}
    {left right : Nat}, left ≤ right → right < array.length →
    HoleSort.partition (compare cmp) (some x) fuel (cells array) left right = some (b, p) →
    ∃ array', quickSortLoop cmp x fuel array left right = some (array', p) ∧ Shows array array' b
  | fuel, array, left, right, hle, hright, hpart => by
    by_cases hlt : left < right
    · cases fuel with
      | zero =>
        rw [HoleSort.partition, if_pos hlt] at hpart
        cases hpart
      | succ fuel =>
        rw [HoleSort.partition, if_pos hlt] at hpart
        rw [quickSortLoop, if_pos hlt, scanRight_eq hright, bind_some]
        obtain ⟨hge, hler, -⟩ := HoleSort.scanRight_spec (compare cmp) (some x) (cells array) hle
        simp only at hpart
        generalize HoleSort.scanRight _ _ _ left right = r at hpart hge hler ⊢
        obtain ⟨array₁, hfill, hlen₁, hcells₁⟩ := fillLeft_eq hge (Nat.lt_of_le_of_lt hler hright)
        have hl := HoleSort.fillLeft_le (cells array) hge
        rw [hfill, bind_some]
        rw [← hcells₁] at hpart
        generalize (HoleSort.fillLeft (cells array) left r).2 = l at hpart hl ⊢
        have hr₁ : r < array₁.length := by omega
        dsimp only
        rw [scanLeft_eq (by omega), bind_some]
        obtain ⟨-, hlel, -⟩ :=
          HoleSort.scanLeft_spec (compare cmp) (some x) (cells array₁) (r - l) l
        rw [Nat.add_sub_cancel' hl] at hlel
        generalize HoleSort.scanLeft _ _ _ (r - l) l = l' at hpart hlel ⊢
        obtain ⟨array₂, hfill₂, hlen₂, hcells₂⟩ := fillRight_eq hlel hr₁
        have hr := HoleSort.fillRight_le (cells array₁) hlel
        rw [hfill₂, bind_some]
        rw [← hcells₂] at hpart
        obtain ⟨array₃, hloop, hlen₃, hcells₃⟩ := quickSortLoop_eq hr.1 (by omega) hpart
        exact ⟨array₃, hloop, by omega, hcells₃⟩
    · have hdone : HoleSort.partition (compare cmp) (some x) fuel (cells array) left right =
          some (cells array, left) := by
        cases fuel <;> rw [HoleSort.partition, if_neg hlt]
      rw [hdone] at hpart
      cases hpart
      refine ⟨array, ?_, rfl, rfl⟩
      cases fuel <;> rw [quickSortLoop, if_neg hlt]

theorem quickSortImpl_eq {b : Nat → Option α} : ∀ {fuel : Nat} {array : List α}
    {left right : Nat}, left ≤ right → right < array.length →
    HoleSort.quickSort (compare cmp) fuel (cells array) left right = some b →
    ∃ array', quickSortImpl cmp fuel array left right = some array' ∧ Shows array array' b
  | 0, _, _, _, _, _, hsort => by cases hsort
  | fuel + 1, array, left, right, hle, hright, hsort => by
    obtain ⟨x, hx⟩ := getElem?_cells (Nat.lt_of_le_of_lt hle hright)
    have hstart : HoleSort.Parted (compare cmp) (some x) left right (cells array) left right :=
      ⟨Nat.le_refl _, hle, Nat.le_refl _, fun i hge hlt => by omega, fun i hlt hi => by omega⟩
    obtain ⟨b₁, p, hpart, hparted, -⟩ := HoleSort.partition_spec hstart (Nat.le_refl _)
    have hlo := hparted.lo_le
    have hhi := hparted.le_hi
    obtain ⟨array₁, hloop, hlen₁, hcells₁⟩ := quickSortLoop_eq hle hright hpart
    have hp : p < array₁.length := by omega
    rw [HoleSort.quickSort, cells, hx, hpart, bind_some] at hsort
    rw [quickSortImpl, hx, bind_some, hloop, bind_some]
    dsimp only at hsort ⊢
    rw [store, if_pos hp, bind_some]
    rw [← hcells₁, ← cells_set hp] at hsort
    obtain ⟨b₃, hsort₃, hsort⟩ := bind_eq_some_iff.mp hsort
    have hlen₂ : (array₁.set p x).length = array.length := length_set.trans hlen₁
    generalize array₁.set p x = array₂ at *
    -- The elements in front of the pivot.
    obtain ⟨array₃, hfront, hlen₃, rfl⟩ : ∃ array₃,
        (if left < p then quickSortImpl cmp fuel array₂ left (p - 1) else some array₂) =
          some array₃ ∧ Shows array₂ array₃ b₃ := by
      by_cases hlt : left < p
      · rw [if_pos hlt] at hsort₃ ⊢
        exact quickSortImpl_eq (Nat.le_sub_one_of_lt hlt) (by omega) hsort₃
      · rw [if_neg hlt] at hsort₃ ⊢
        exact ⟨array₂, rfl, rfl, some.inj hsort₃⟩
    rw [hfront, bind_some]
    by_cases hlt : p < right
    · rw [if_pos hlt] at hsort ⊢
      obtain ⟨array₄, hback, hlen₄, hcells₄⟩ := quickSortImpl_eq hlt (by omega) hsort
      exact ⟨array₄, hback, by omega, hcells₄⟩
    · rw [if_neg hlt] at hsort ⊢
      exact ⟨array₃, rfl, by omega, some.inj hsort⟩

/-- The array of the cells. -/
theorem map_cells (array : List α) :
    (List.range array.length).map (cells array) = array.map some := by
  refine ext_getElem (by simp) fun i hi hi' => ?_
  rw [length_map] at hi'
  simp [cells, getElem?_eq_getElem hi']

/-- A sort of any array with any comparison. -/
theorem tkQsort_spec (cmp : α → α → Int) (array : List α) :
    ∃ array', tkQsort cmp array array.length = some (.ok, array') ∧ array'.Perm array ∧
      (HoleSort.TotalPreorder cmp → array'.Pairwise fun x y => cmp x y ≤ 0) := by
  by_cases hlong : 1 < array.length
  · obtain ⟨b, hsort, hmoved, hord⟩ := HoleSort.quickSort_spec (compare cmp)
      (a := cells array) (Nat.zero_le (array.length - 1)) (show _ < array.length by omega)
    obtain ⟨array', himpl, hlen, rfl⟩ := quickSortImpl_eq (Nat.zero_le _) (by omega) hsort
    refine ⟨array', by rw [tkQsort, if_pos hlong, himpl, map_some], ?_, fun hcmp => ?_⟩
    · have hperm := hmoved.perm (show array.length - 1 < array.length by omega)
      rw [map_cells, ← hlen, map_cells] at hperm
      exact (map_perm_map_iff (some_injective α)).mp hperm
    · refine pairwise_iff_getElem.mpr fun i j hi hj hij => ?_
      have hcells := hord (compare_total hcmp) i j (Nat.zero_le i) (Nat.le_of_lt hij) (by omega)
      rwa [cells, cells, getElem?_eq_getElem hi, getElem?_eq_getElem hj] at hcells
  · refine ⟨array, by rw [tkQsort, if_neg hlong], .refl _, fun _ => ?_⟩
    exact pairwise_iff_getElem.mpr fun i j hi hj hij => by omega

end Awtk.Qsort
