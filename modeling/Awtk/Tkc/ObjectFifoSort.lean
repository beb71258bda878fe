import Mathlib
import Awtk.Lib.HoleSort
import Awtk.Tkc.ObjectFifoDeque

/-!
# Sorting a fifo object

`object_fifo_sort` sorts the units in the first slots of the ring and then lets the fifo start at slot 0.  The
contents of the fifo are sorted where these slots hold them, up to their order (`sort_iff`): the window starts
at slot 0, say, or the fifo is full.

The scans of `object_fifo_quick_sort_impl` and the turns of its loop are those of `HoleSort`, over the units
that `vt->get` leads to.
-/

namespace Awtk.ObjectFifo

open Ring Deque HoleSort Option Function

/-! ## The sort -/

/-- `object_fifo_default_get`: the unit the pointer leads to. -/
def defaultGet (f : ObjectFifo) (index : Nat) : List UInt8 :=
  slice f.buffer (U32.mul f.unitSize index) f.unitSize

def memcmp : List UInt8 → List UInt8 → Int
  | x :: xs, y :: ys => if x = y then memcmp xs ys else (x.toNat : Int) - y.toNat
  | _, _ => 0

/-- The unit from the right goes over the hole. -/
def fillLeft (f : ObjectFifo) (left right : Nat) : Option (ObjectFifo × Nat) :=
  if left ≠ right then
    (f.defaultSet left (some (f.defaultGet right)) 1).map fun f => (f, left + 1)
  else some (f, left)

/-- The unit from the left does. -/
def fillRight (f : ObjectFifo) (left right : Nat) : Option (ObjectFifo × Nat) :=
  if left ≠ right then
    (f.defaultSet right (some (f.defaultGet left)) 1).map fun f => (f, right - 1)
  else some (f, right)

section

variable (cmp : List UInt8 → List UInt8 → Int)

/-- The loop of `object_fifo_quick_sort_impl`, and where it ends. -/
def quickSortLoop (pivot : List UInt8) :
    (fuel : Nat) → ObjectFifo → (left right : Nat) → Option (ObjectFifo × Nat)
  | 0, f, left, right => if left < right then none else some (f, left)
  | fuel + 1, f, left, right =>
    if left < right then
      let right := scanRight cmp pivot f.defaultGet left right
      (f.fillLeft left right).bind fun (f, left) =>
        let left := scanLeft cmp pivot f.defaultGet (right - left) left
        (f.fillRight left right).bind fun (f, right) => quickSortLoop pivot fuel f left right
    else some (f, left)

def quickSortImpl : (fuel : Nat) → ObjectFifo → (left right : Nat) → Option ObjectFifo
  | 0, _, _, _ => none
  | fuel + 1, f, saveLeft, saveRight =>
    let pivot := f.defaultGet saveLeft
    (quickSortLoop cmp pivot (saveRight - saveLeft) f saveLeft saveRight).bind fun (f, left) =>
      (f.defaultSet left (some pivot) 1).bind fun f =>
        (if saveLeft < left then quickSortImpl fuel f saveLeft (left - 1) else some f).bind fun f =>
          if left < saveRight then quickSortImpl fuel f (left + 1) saveRight else some f

end

/-- `object_fifo_sort`, where `alloc` says whether there is memory for the pivot. -/
def sort (f : ObjectFifo) (alloc : Bool) (cmp : Option (List UInt8 → List UInt8 → Int)) :
    Option (Ret × ObjectFifo) :=
  let size := f.size
  if 1 < size then
    if alloc then
      (quickSortImpl (cmp.getD memcmp) size f 0 (size - 1)).map fun f =>
        (.ok, { f with cursor := size - 1 })
    else some (.oom, f)
  else some (.ok, f)

/-! ## The units in the slots -/

variable {f f' : ObjectFifo} {a b : Nat → List UInt8} {cmp : List UInt8 → List UInt8 → Int}

/-- The slots of the ring hold the contents of a memory. -/
structure Shows (f : ObjectFifo) (a : Nat → List UInt8) : Prop where
  ok : Ok f
  unit : ∀ i < f.capacity, f.defaultGet i = a i

/-- A fifo that is the same but for its buffer. -/
def SameRing (f f' : ObjectFifo) : Prop := ∃ m, f' = { f with buffer := m }

theorem SameRing.trans {f'' : ObjectFifo} (h : SameRing f f') (h' : SameRing f' f'') :
    SameRing f f'' := by
  obtain ⟨m, rfl⟩ := h
  obtain ⟨m', rfl⟩ := h'
  exact ⟨m', rfl⟩

theorem SameRing.capacity (h : SameRing f f') : f'.capacity = f.capacity := by
  obtain ⟨m, rfl⟩ := h
  rfl

theorem Ok.defaultGet_eq (h : Ok f) {i : Nat} (hi : i < f.capacity) :
    f.defaultGet i = cells f.buffer f.unitSize i := by
  rw [defaultGet, U32.mul_of_lt (h.mul_lt hi.le)]
  rfl

theorem defaultGet_length (f : ObjectFifo) (i : Nat) : (f.defaultGet i).length = f.unitSize :=
  slice_length ..

/-- A unit is written to a slot. -/
theorem Shows.defaultSet (h : Shows f a) {i : Nat} {d : List UInt8} (hi : i < f.capacity)
    (hd : d.length = f.unitSize) :
    ∃ f', f.defaultSet i (some d) 1 = some f' ∧ Shows f' (Function.update a i d) ∧
      SameRing f f' := by
  have hcap := h.ok.capacity_le
  have hbytes := h.ok.bytes_lt
  have hholds : Holds (f.unitSize * 1) (some d) := by
    show f.unitSize * 1 ≤ d.length
    rw [hd, Nat.mul_one]
  have hskip : f.unitSize * (1 - f.capacity) < 2 ^ 32 := by
    rw [Nat.sub_eq_zero_of_le (by omega), Nat.mul_zero]
    decide
  obtain ⟨m, hset, hfilled⟩ := h.ok.defaultSet (some d) hi (by decide) hskip hholds
  have hone : lastN f.capacity (dataUnits f.unitSize 1 (some d)) = [d] := by
    rw [lastN_of_le (by rw [dataUnits_length]; omega)]
    show [(d.drop (f.unitSize * 0)).take f.unitSize] = [d]
    rw [Nat.mul_zero, List.drop_zero, ← hd, List.take_length]
  rw [hone] at hfilled
  have hok : Ok { f with buffer := m } :=
    ⟨h.ok.1, h.ok.2, h.ok.3, h.ok.4, h.ok.5, h.ok.6⟩
  refine ⟨{ f with buffer := m }, hset, ⟨hok, fun j hj => ?_⟩, m, rfl⟩
  rw [hok.defaultGet_eq hj]
  show cells m f.unitSize j = _
  by_cases hij : j = i
  · subst hij
    have hwritten := hfilled.written 0 (by simp)
    rw [Nat.add_zero, Nat.mod_eq_of_lt hi] at hwritten
    rw [hwritten, update_self]
    rfl
  · have hframe := hfilled.frame j hj fun k hk => by
      have hk : k < 1 := hk
      rw [Nat.lt_one_iff.mp hk, Nat.add_zero, Nat.mod_eq_of_lt hi]
      exact hij
    rw [hframe, update_of_ne hij, ← h.ok.defaultGet_eq hj]
    exact h.unit j hj

/-! ## The sort of the slots -/

theorem fillLeft_shows (h : Shows f a) {left right : Nat} (hle : left ≤ right)
    (hright : right < f.capacity) :
    ∃ f', f.fillLeft left right = some (f', (HoleSort.fillLeft a left right).2) ∧
      Shows f' (HoleSort.fillLeft a left right).1 ∧ SameRing f f' := by
  rw [fillLeft, HoleSort.fillLeft]
  by_cases hne : left ≠ right
  · obtain ⟨f', hset, hshows, hsame⟩ := h.defaultSet (Nat.lt_of_le_of_lt hle hright)
      (defaultGet_length f right)
    rw [if_pos hne, if_pos hne, hset]
    rw [h.unit right hright] at hshows
    exact ⟨f', rfl, hshows, hsame⟩
  · rw [if_neg hne, if_neg hne]
    exact ⟨f, rfl, h, f.buffer, rfl⟩

theorem fillRight_shows (h : Shows f a) {left right : Nat} (hle : left ≤ right)
    (hright : right < f.capacity) :
    ∃ f', f.fillRight left right = some (f', (HoleSort.fillRight a left right).2) ∧
      Shows f' (HoleSort.fillRight a left right).1 ∧ SameRing f f' := by
  rw [fillRight, HoleSort.fillRight]
  by_cases hne : left ≠ right
  · obtain ⟨f', hset, hshows, hsame⟩ := h.defaultSet hright (defaultGet_length f left)
    rw [if_pos hne, if_pos hne, hset]
    rw [h.unit left (Nat.lt_of_le_of_lt hle hright)] at hshows
    exact ⟨f', rfl, hshows, hsame⟩
  · rw [if_neg hne, if_neg hne]
    exact ⟨f, rfl, h, f.buffer, rfl⟩

/-- The loop does to the slots what the partition does to the memory. -/
theorem quickSortLoop_shows {pivot : List UInt8} {p : Nat} : ∀ {fuel : Nat} {f : ObjectFifo}
    {a : Nat → List UInt8} {left right : Nat}, Shows f a → left ≤ right → right < f.capacity →
    partition cmp pivot fuel a left right = some (b, p) →
    ∃ f', quickSortLoop cmp pivot fuel f left right = some (f', p) ∧ Shows f' b ∧ SameRing f f'
  | fuel, f, a, left, right, h, hle, hright, hpart => by
    by_cases hlt : left < right
    · cases fuel with
      | zero =>
        rw [partition, if_pos hlt] at hpart
        cases hpart
      | succ fuel =>
        rw [partition, if_pos hlt] at hpart
        simp only at hpart
        rw [quickSortLoop, if_pos hlt]
        have hscan : scanRight cmp pivot f.defaultGet left right =
            scanRight cmp pivot a left right :=
          scanRight_congr fun i hi => h.unit i (Nat.lt_of_le_of_lt hi hright)
        obtain ⟨hge, hler, -⟩ := scanRight_spec cmp pivot a hle
        rw [hscan]
        generalize scanRight cmp pivot a left right = r at hpart hge hler ⊢
        have hrcap := Nat.lt_of_le_of_lt hler hright
        obtain ⟨f₁, hfill, h₁, hsame₁⟩ := fillLeft_shows h hge hrcap
        have hl := fillLeft_le a hge
        simp only [hfill, bind_some]
        generalize (HoleSort.fillLeft a left r).2 = l at hpart hl ⊢
        generalize (HoleSort.fillLeft a left r).1 = a₁ at hpart h₁
        have hcap₁ : r < f₁.capacity := hsame₁.capacity ▸ hrcap
        have hscan₁ : scanLeft cmp pivot f₁.defaultGet (r - l) l = scanLeft cmp pivot a₁ (r - l) l :=
          scanLeft_congr fun i hi => h₁.unit i (by omega)
        obtain ⟨-, hlel, -⟩ := scanLeft_spec cmp pivot a₁ (r - l) l
        rw [Nat.add_sub_cancel' hl] at hlel
        simp only [hscan₁]
        generalize scanLeft cmp pivot a₁ (r - l) l = l' at hpart hlel ⊢
        obtain ⟨f₂, hfill₂, h₂, hsame₂⟩ := fillRight_shows h₁ hlel hcap₁
        have hr := fillRight_le a₁ hlel
        simp only [hfill₂, bind_some]
        obtain ⟨f₃, hloop, h₃, hsame₃⟩ := quickSortLoop_shows h₂ hr.1
          (hsame₂.capacity ▸ Nat.lt_of_le_of_lt hr.2 hcap₁) hpart
        exact ⟨f₃, hloop, h₃, hsame₁.trans (hsame₂.trans hsame₃)⟩
    · have hdone : partition cmp pivot fuel a left right = some (a, left) := by
        cases fuel <;> rw [partition, if_neg hlt]
      rw [hdone] at hpart
      cases hpart
      refine ⟨f, ?_, h, f.buffer, rfl⟩
      cases fuel <;> rw [quickSortLoop, if_neg hlt]

/-- `object_fifo_quick_sort_impl` sorts the slots. -/
theorem quickSortImpl_shows : ∀ {fuel : Nat} {f : ObjectFifo} {a b : Nat → List UInt8}
    {left right : Nat}, Shows f a → left ≤ right → right < f.capacity →
    quickSort cmp fuel a left right = some b →
    ∃ f', quickSortImpl cmp fuel f left right = some f' ∧ Shows f' b ∧ SameRing f f'
  | 0, _, _, _, _, _, _, _, _, hsort => by cases hsort
  | fuel + 1, f, a, b, left, right, h, hle, hright, hsort => by
    have hstart : Parted cmp (a left) left right a left right :=
      ⟨Nat.le_refl _, hle, Nat.le_refl _, fun i hge hlt => by omega, fun i hlt hi => by omega⟩
    obtain ⟨b₁, p, hpart, hparted, -⟩ := partition_spec hstart (Nat.le_refl _)
    have hlo := hparted.lo_le
    have hhi := hparted.le_hi
    have hpivot := h.unit left (Nat.lt_of_le_of_lt hle hright)
    obtain ⟨f₁, hloop, h₁, hsame₁⟩ := quickSortLoop_shows h hle hright hpart
    have hpcap : p < f₁.capacity := hsame₁.capacity ▸ Nat.lt_of_le_of_lt hhi hright
    have hlen : (a left).length = f₁.unitSize := by
      obtain ⟨m, rfl⟩ := hsame₁
      rw [← hpivot]
      exact defaultGet_length f left
    obtain ⟨f₂, hset, h₂, hsame₂⟩ := h₁.defaultSet hpcap hlen
    have hcap₂ : f₂.capacity = f.capacity := hsame₂.capacity.trans hsame₁.capacity
    rw [quickSort, hpart, bind_some] at hsort
    obtain ⟨b₃, hsort₃, hsort⟩ := bind_eq_some_iff.mp hsort
    rw [quickSortImpl]
    simp only [hpivot, hloop, hset, bind_some]
    -- The slots in front of the pivot.
    obtain ⟨f₃, hfront, h₃, hsame₃⟩ : ∃ f₃,
        (if left < p then quickSortImpl cmp fuel f₂ left (p - 1) else some f₂) = some f₃ ∧
        Shows f₃ b₃ ∧ SameRing f₂ f₃ := by
      by_cases hlt : left < p
      · rw [if_pos hlt] at hsort₃ ⊢
        exact quickSortImpl_shows h₂ (Nat.le_sub_one_of_lt hlt) (by omega) hsort₃
      · rw [if_neg hlt] at hsort₃ ⊢
        cases hsort₃
        exact ⟨f₂, rfl, h₂, f₂.buffer, rfl⟩
    rw [hfront, bind_some]
    have hcap₃ : f₃.capacity = f.capacity := hsame₃.capacity.trans hcap₂
    obtain ⟨f₄, hback, h₄, hsame₄⟩ : ∃ f₄,
        (if p < right then quickSortImpl cmp fuel f₃ (p + 1) right else some f₃) = some f₄ ∧
        Shows f₄ b ∧ SameRing f₃ f₄ := by
      by_cases hlt : p < right
      · rw [if_pos hlt] at hsort ⊢
        exact quickSortImpl_shows h₃ hlt (by omega) hsort
      · rw [if_neg hlt] at hsort ⊢
        cases hsort
        exact ⟨f₃, rfl, h₃, f₃.buffer, rfl⟩
    exact ⟨f₄, hback, h₄, ((hsame₁.trans hsame₂).trans hsame₃).trans hsame₄⟩

/-! ## The contents of the fifo -/

/-- The units in the first slots. -/
def slots (f : ObjectFifo) : List (List UInt8) := (List.range f.size).map f.defaultGet

/-- The contents are sorted, and they are those of before. -/
structure Sorts (cmp : List UInt8 → List UInt8 → Int) (f f' : ObjectFifo) : Prop where
  sorted : ∃ l : List (List UInt8), f'.contents = l.map some ∧ l.Pairwise fun x y => cmp x y ≤ 0
  perm : f'.contents.Perm f.contents

/-- The first slots hold the contents, in some order. -/
def SlotsHold (f : ObjectFifo) : Prop := f.size ≤ 1 ∨ f.slots.Perm f.units

/-- The sort gives the units in the first slots, in order. -/
theorem Ok.sort (h : Ok f) (hcmp : TotalPreorder cmp) (hsize : 1 < f.size) :
    ∃ f', f.sort true (some cmp) = some (.ok, f') ∧
      ∃ l : List (List UInt8), f'.contents = l.map some ∧ l.Pairwise (fun x y => cmp x y ≤ 0) ∧ l.Perm f.slots := by
  have hle := h.size_le
  have hfuel : f.size - 1 - 0 < f.size := by omega
  obtain ⟨b, hsort, hmoved, hord⟩ := quickSort_spec cmp (a := f.defaultGet) (Nat.zero_le _) hfuel
  obtain ⟨f₁, himpl, h₁, hsame⟩ := quickSortImpl_shows ⟨h, fun _ _ => rfl⟩ (Nat.zero_le _)
    (by omega) hsort
  refine ⟨{ f₁ with cursor := f.size - 1 }, ?_, (List.range f.size).map b, ?_, ?_,
    hmoved.perm (by omega)⟩
  · rw [ObjectFifo.sort]
    simp only [if_pos hsize, if_true, getD_some, himpl, map_some]
  · obtain ⟨m, rfl⟩ := hsame
    have hok : Ok { f with buffer := m, cursor := f.size - 1 } :=
      ⟨h.1, h.2, h.3, h.4, by show f.size - 1 < f.capacity; omega, h.6⟩
    rw [hok.contents_eq]
    congr 1
    have hhead : head { f with buffer := m, cursor := f.size - 1 } = 0 := by
      show (f.size - 1 + 1 + f.capacity - f.size) % f.capacity = 0
      rw [Nat.sub_add_cancel (by omega), Nat.add_sub_cancel_left, Nat.mod_self]
    rw [units, hhead]
    refine List.map_congr_left fun i hi => ?_
    have hlt : i < f.capacity := Nat.lt_of_lt_of_le (List.mem_range.mp hi) hle
    rw [Nat.zero_add, Nat.mod_eq_of_lt hlt, ← h₁.ok.defaultGet_eq hlt]
    exact h₁.unit i hlt
  · rw [List.pairwise_map]
    refine List.pairwise_lt_range.imp_of_mem fun {i j} _ hj hlt => ?_
    have hjlt := List.mem_range.mp hj
    exact hord hcmp i j (Nat.zero_le i) (Nat.le_of_lt hlt) (by omega)

/-- A sort gives the contents in order exactly if the first slots hold them. -/
theorem sort_iff (capacity unitSize : Nat) {f₀ : ObjectFifo} {ops : List Op}
    (hnew : create true capacity unitSize = some f₀) (hcap : capacity ≤ 2 ^ 31)
    (hbytes : unitSize * capacity < 2 ^ 32) (hrun : Runs.run step f₀ ops = some f)
    (hcmp : TotalPreorder cmp) :
    ∃ f', f.sort true (some cmp) = some (.ok, f') ∧ (Sorts cmp f f' ↔ SlotsHold f) := by
  have h : Ok f := (sound_after_run (create_ok hnew hcap hbytes).1.ok hrun).ok
  by_cases hsize : 1 < f.size
  · obtain ⟨f', hsort, l, hl, hord, hperm⟩ := h.sort hcmp hsize
    refine ⟨f', hsort, fun hsorts => .inr ?_, fun hslots => ⟨⟨l, hl, hord⟩, ?_⟩⟩
    · have hsome := hsorts.perm
      rw [hl, h.contents_eq] at hsome
      exact hperm.symm.trans ((List.map_perm_map_iff (some_injective _)).mp hsome)
    · rw [hl, h.contents_eq]
      refine (hperm.trans ?_).map some
      exact hslots.resolve_left (by omega)
  · refine ⟨f, if_neg hsize, fun _ => .inl (by omega), fun _ =>
      ⟨⟨f.units, h.contents_eq, ?_⟩, .refl _⟩⟩
    have hshort : f.units.length ≤ 1 := by
      rw [units_length]
      omega
    generalize f.units = l at hshort ⊢
    cases l with
    | nil => exact .nil
    | cons x l =>
      obtain rfl : l = [] := List.length_eq_zero_iff.mp (Nat.le_zero.mp (Nat.le_of_succ_le_succ hshort))
      exact List.pairwise_singleton _ x

/-- Units of one byte, compared by their value. -/
def byValue (x y : List UInt8) : Int := ((x.headD 0).toNat : Int) - (y.headD 0).toNat

theorem byValue_totalPreorder : TotalPreorder byValue where
  swap a b := by
    rw [byValue, byValue]
    omega
  trans a b c hab hbc := by
    rw [byValue] at *
    omega

/-- A full ring whose window starts at slot 1. -/
theorem sort_iff_full : ∃ f₀ f f', create true 3 1 = some f₀ ∧
    Runs.run step f₀ [.npush [9, 7, 8] 3, .npush [5] 1] = some f ∧ f.head = 1 ∧
    f.sort true (some byValue) = some (.ok, f') ∧ (Sorts byValue f f' ↔ SlotsHold f) := by
  have hnew : create true 3 1 = some ⟨1, 3, 0, 0, 3, fun _ => 0⟩ := rfl
  have hrun : Runs.run step ⟨1, 3, 0, 0, 3, fun _ => 0⟩ [.npush [9, 7, 8] 3, .npush [5] 1] =
      some _ := rfl
  obtain ⟨f', hsort, hiff⟩ := sort_iff 3 1 hnew (by decide) (by decide) hrun byValue_totalPreorder
  exact ⟨_, _, f', hnew, hrun, by decide, hsort, hiff⟩

/-- A window that does not start at slot 0: behind two pops the fifo holds 5 and 6, but 7 and 8 are in the
first slots. -/
theorem sort_not_sorts : ∃ f₀ f f', create true 4 1 = some f₀ ∧
    Runs.run step f₀ [.npush [7, 8, 5, 6] 4, .npop 2] = some f ∧
    f.contents = [some [5], some [6]] ∧
    f.sort true (some byValue) = some (.ok, f') ∧ f'.contents = [some [7], some [8]] ∧
    ¬ Sorts byValue f f' := by
  refine ⟨_, _, _, rfl, rfl, by decide +kernel, rfl, by decide +kernel, fun hsorts => ?_⟩
  exact absurd (hsorts.perm.mem_iff (a := some [7])) (by decide +kernel)

end Awtk.ObjectFifo
