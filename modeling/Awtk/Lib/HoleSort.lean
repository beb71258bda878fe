import Mathlib

/-!
# Sorting in place around a hole

A quicksort of the cells of a memory `a : Nat → α` that takes the first cell of a range out as the pivot and
moves the others over the hole it leaves.  `Rearranged` says that a range holds the same contents in another
order.  A move over the hole is a swap of the memory with the pivot in the hole (`fill_move`), so a partition
rearranges, and the sort is correct by induction on the length of the range (`quickSort_spec`).
-/

namespace HoleSort

open Function List Option

variable {α : Type*} {lo hi : Nat} {a b c : Nat → α}

/-! ## Rearrangements -/

/-- The cells from `lo` to `hi` are those of `a` in another order, the others are the same. -/
def Rearranged (lo hi : Nat) (a b : Nat → α) : Prop :=
  ∃ σ : Equiv.Perm Nat, (∀ i, i < lo ∨ hi < i → σ i = i) ∧ ∀ i, b i = a (σ i)

theorem Rearranged.refl (lo hi : Nat) (a : Nat → α) : Rearranged lo hi a a :=
  ⟨Equiv.refl Nat, fun _ _ => rfl, fun _ => rfl⟩

theorem Rearranged.trans (h : Rearranged lo hi a b) (h' : Rearranged lo hi b c) :
    Rearranged lo hi a c := by
  obtain ⟨σ, hσ, hb⟩ := h
  obtain ⟨τ, hτ, hc⟩ := h'
  refine ⟨τ.trans σ, fun i hi => ?_, fun i => ?_⟩
  · rw [Equiv.trans_apply, hτ i hi, hσ i hi]
  · rw [hc, hb, Equiv.trans_apply]

theorem Rearranged.mono {lo' hi' : Nat} (h : Rearranged lo' hi' a b) (hlo : lo ≤ lo')
    (hhi : hi' ≤ hi) : Rearranged lo hi a b := by
  obtain ⟨σ, hσ, hb⟩ := h
  exact ⟨σ, fun i hi => hσ i (by omega), hb⟩

theorem Rearranged.outside {i : Nat} (h : Rearranged lo hi a b) (hi : i < lo ∨ hi < i) :
    b i = a i := by
  obtain ⟨σ, hσ, hb⟩ := h
  rw [hb, hσ i hi]

theorem Rearranged.forall {P : α → Prop} (h : Rearranged lo hi a b)
    (ha : ∀ i, lo ≤ i → i ≤ hi → P (a i)) : ∀ i, lo ≤ i → i ≤ hi → P (b i) := by
  obtain ⟨σ, hσ, hb⟩ := h
  intro i hlo hhi
  rw [hb]
  have hin : lo ≤ σ i ∧ σ i ≤ hi := by
    by_contra hout
    have hfix : σ i = i := σ.injective (hσ (σ i) (by omega))
    omega
  exact ha _ hin.1 hin.2

theorem Rearranged.perm {n : Nat} (h : Rearranged lo hi a b) (hn : hi < n) :
    ((List.range n).map b).Perm ((List.range n).map a) := by
  obtain ⟨σ, hσ, hb⟩ := h
  have hrange : ((List.range n).map σ).Perm (List.range n) := by
    refine (perm_ext_iff_of_nodup (nodup_range.map σ.injective) nodup_range).mpr ?_
    intro k
    have himage : k ∈ (List.range n).map σ ↔ σ.symm k < n := by
      rw [List.mem_map]
      constructor
      · rintro ⟨i, hi, rfl⟩
        rw [Equiv.symm_apply_apply]
        exact mem_range.mp hi
      · intro hlt
        exact ⟨σ.symm k, mem_range.mpr hlt, σ.apply_symm_apply k⟩
    rw [himage, mem_range]
    constructor
    · intro hlt
      by_contra hge
      rw [σ.symm_apply_eq.mpr (hσ k (by omega)).symm] at hlt
      exact hge hlt
    · intro hlt
      by_contra hge
      have hfix := hσ (σ.symm k) (by omega)
      rw [Equiv.apply_symm_apply] at hfix
      omega
  have hmap : (List.range n).map b = ((List.range n).map σ).map a := by
    rw [List.map_map]
    exact map_congr_left fun i _ => hb i
  rw [hmap]
  exact hrange.map a

theorem fill_move {h j : Nat} {p : α} (hne : h ≠ j) (i : Nat) :
    Function.update (Function.update a h (a j)) j p i =
      Function.update a h p (Equiv.swap h j i) := by
  by_cases hij : i = j
  · subst hij
    rw [update_self, Equiv.swap_apply_right, update_self]
  · rw [update_of_ne hij]
    by_cases hih : i = h
    · subst hih
      rw [update_self, Equiv.swap_apply_left, update_of_ne (Ne.symm hne)]
    · rw [update_of_ne hih, Equiv.swap_apply_of_ne_of_ne hih hij,
        update_of_ne hih]

theorem rearranged_move {h j : Nat} {p : α} (hne : h ≠ j) (hh : lo ≤ h ∧ h ≤ hi)
    (hj : lo ≤ j ∧ j ≤ hi) :
    Rearranged lo hi (Function.update a h p)
      (Function.update (Function.update a h (a j)) j p) :=
  ⟨Equiv.swap h j, fun i hi => Equiv.swap_apply_of_ne_of_ne (by omega) (by omega),
    fill_move hne⟩

/-! ## The sort -/

section

variable (cmp : α → α → Int) (pivot : α)

/-- From the right, the cells that are not below the pivot are passed over. -/
def scanRight (a : Nat → α) (left : Nat) : Nat → Nat
  | 0 => 0
  | right + 1 =>
    if 0 ≤ cmp (a (right + 1)) pivot ∧ left < right + 1 then scanRight a left right else right + 1

/-- From the left, the cells that are not above it are, of so many. -/
def scanLeft (a : Nat → α) : (gap left : Nat) → Nat
  | 0, left => left
  | gap + 1, left => if cmp (a left) pivot ≤ 0 then scanLeft a gap (left + 1) else left

/-- The hole is filled from the right, where the scan stopped at a cell. -/
def fillLeft (a : Nat → α) (left right : Nat) : (Nat → α) × Nat :=
  if left ≠ right then (Function.update a left (a right), left + 1) else (a, left)

/-- It is filled from the left. -/
def fillRight (a : Nat → α) (left right : Nat) : (Nat → α) × Nat :=
  if left ≠ right then (Function.update a right (a left), right - 1) else (a, right)

/-- The loop that moves the hole to where the pivot belongs. -/
def partition : (fuel : Nat) → (Nat → α) → (left right : Nat) → Option ((Nat → α) × Nat)
  | 0, a, left, right => if left < right then none else some (a, left)
  | fuel + 1, a, left, right =>
    if left < right then
      let right := scanRight cmp pivot a left right
      let (a, left) := fillLeft a left right
      let left := scanLeft cmp pivot a (right - left) left
      let (a, right) := fillRight a left right
      partition fuel a left right
    else some (a, left)

/-- The sort of the cells from `left` to `right`. -/
def quickSort : (fuel : Nat) → (Nat → α) → (left right : Nat) → Option (Nat → α)
  | 0, _, _, _ => none
  | fuel + 1, a, left, right =>
    (partition cmp (a left) (right - left) a left right).bind fun (b, p) =>
      let b := Function.update b p (a left)
      (if left < p then quickSort fuel b left (p - 1) else some b).bind fun b =>
        if p < right then quickSort fuel b (p + 1) right else some b

end

/-! ## The scans -/

variable {cmp : α → α → Int} {pivot : α} {left right : Nat}

theorem scanRight_spec (cmp : α → α → Int) (pivot : α) (a : Nat → α) :
    ∀ {right : Nat}, left ≤ right →
      left ≤ scanRight cmp pivot a left right ∧ scanRight cmp pivot a left right ≤ right ∧
      (∀ i, scanRight cmp pivot a left right < i → i ≤ right → 0 ≤ cmp (a i) pivot) ∧
      (scanRight cmp pivot a left right ≠ left →
        cmp (a (scanRight cmp pivot a left right)) pivot ≤ 0)
  | 0, h => by
    obtain rfl : left = 0 := Nat.le_zero.mp h
    exact ⟨Nat.le_refl 0, Nat.le_refl 0, fun i hlt hle => by omega, fun hne => absurd rfl hne⟩
  | right + 1, h => by
    rw [scanRight]
    split
    case isTrue hstop =>
      obtain ⟨hge, hle, hpassed, hbelow⟩ := scanRight_spec cmp pivot a (Nat.le_of_lt_succ hstop.2)
      refine ⟨hge, by omega, fun i hlt hi => ?_, hbelow⟩
      by_cases heq : i = right + 1
      · exact heq ▸ hstop.1
      · exact hpassed i hlt (by omega)
    case isFalse hstop =>
      exact ⟨h, Nat.le_refl _, fun i hlt hi => by omega, fun hne => by omega⟩

theorem scanLeft_spec (cmp : α → α → Int) (pivot : α) (a : Nat → α) : ∀ gap left : Nat,
    left ≤ scanLeft cmp pivot a gap left ∧ scanLeft cmp pivot a gap left ≤ left + gap ∧
      (∀ i, left ≤ i → i < scanLeft cmp pivot a gap left → cmp (a i) pivot ≤ 0) ∧
      (scanLeft cmp pivot a gap left ≠ left + gap →
        0 ≤ cmp (a (scanLeft cmp pivot a gap left)) pivot)
  | 0, left =>
    ⟨Nat.le_refl _, Nat.le_refl _, fun i hge hlt => absurd hlt (Nat.not_lt.mpr hge),
      fun hne => absurd rfl hne⟩
  | gap + 1, left => by
    rw [scanLeft]
    split
    case isTrue hstop =>
      obtain ⟨hge, hle, hpassed, habove⟩ := scanLeft_spec cmp pivot a gap (left + 1)
      refine ⟨by omega, by omega, fun i hi hlt => ?_, fun hne => habove (by omega)⟩
      by_cases heq : i = left
      · exact heq ▸ hstop
      · exact hpassed i (by omega) hlt
    case isFalse hstop =>
      exact ⟨Nat.le_refl _, Nat.le_add_right _ _, fun i hge hlt => by omega, fun _ => by omega⟩

theorem scanRight_congr : ∀ {right : Nat}, (∀ i ≤ right, a i = b i) →
    scanRight cmp pivot a left right = scanRight cmp pivot b left right
  | 0, _ => rfl
  | right + 1, h => by
    rw [scanRight, scanRight, h _ (Nat.le_refl _),
      scanRight_congr fun i hi => h i (Nat.le_succ_of_le hi)]

theorem scanLeft_congr : ∀ {gap left : Nat}, (∀ i < left + gap, a i = b i) →
    scanLeft cmp pivot a gap left = scanLeft cmp pivot b gap left
  | 0, _, _ => rfl
  | gap + 1, left, h => by
    rw [scanLeft, scanLeft, h left (by omega), scanLeft_congr fun i hi => h i (by omega)]

theorem fillLeft_le (a : Nat → α) (h : left ≤ right) : (fillLeft a left right).2 ≤ right := by
  rw [fillLeft]
  split
  case isTrue hne => exact Nat.lt_of_le_of_ne h hne
  case isFalse => exact h

theorem fillRight_le (a : Nat → α) (h : left ≤ right) :
    left ≤ (fillRight a left right).2 ∧ (fillRight a left right).2 ≤ right := by
  rw [fillRight]
  split
  case isTrue hne => exact ⟨Nat.le_sub_one_of_lt (Nat.lt_of_le_of_ne h hne), Nat.sub_le _ _⟩
  case isFalse => exact ⟨h, Nat.le_refl right⟩

/-! ## The partition -/

/-- In front of the hole no cell is above the pivot, and behind the other end none is below it. -/
structure Parted (cmp : α → α → Int) (pivot : α) (lo hi : Nat) (a : Nat → α) (left right : Nat) :
    Prop where
  lo_le : lo ≤ left
  le : left ≤ right
  le_hi : right ≤ hi
  below : ∀ i, lo ≤ i → i < left → cmp (a i) pivot ≤ 0
  above : ∀ i, right < i → i ≤ hi → 0 ≤ cmp (a i) pivot

/-- A turn of the loop, up to the scan from the left. -/
theorem Parted.fillLeft (h : Parted cmp pivot lo hi a left right) :
    ∃ b l r, fillLeft a left (scanRight cmp pivot a left right) = (b, l) ∧
      scanRight cmp pivot a left right = r ∧ l ≤ r ∧ r ≤ right ∧ left ≤ r ∧
      (l = left + 1 ∨ l = left ∧ l = r) ∧
      (∀ i, lo ≤ i → i < l → cmp (b i) pivot ≤ 0) ∧ (∀ i, r < i → i ≤ hi → 0 ≤ cmp (b i) pivot) ∧
      Rearranged lo hi (Function.update a left pivot) (Function.update b r pivot) := by
  obtain ⟨hge, hle, hpassed, hbelow⟩ := scanRight_spec cmp pivot a h.le
  have hlo := h.lo_le
  have hhi := h.le_hi
  have habove : ∀ i, scanRight cmp pivot a left right < i → i ≤ hi → 0 ≤ cmp (a i) pivot := by
    intro i hlt hi
    by_cases hir : i ≤ right
    · exact hpassed i hlt hir
    · exact h.above i (by omega) hi
  by_cases heq : left = scanRight cmp pivot a left right
  · refine ⟨a, left, left, by rw [HoleSort.fillLeft, if_neg (not_not.mpr heq)], heq.symm,
      Nat.le_refl _, h.le, Nat.le_refl _, .inr ⟨rfl, rfl⟩, h.below, ?_, .refl lo hi _⟩
    rw [← heq] at habove
    exact habove
  · refine ⟨Function.update a left (a (scanRight cmp pivot a left right)), left + 1, _,
      by rw [HoleSort.fillLeft, if_pos heq], rfl, by omega, hle, hge, .inl rfl,
      fun i hi hlt => ?_, fun i hlt hi => ?_, ?_⟩
    · by_cases hil : i = left
      · rw [hil, update_self]
        exact hbelow (Ne.symm heq)
      · rw [update_of_ne hil]
        exact h.below i hi (by omega)
    · rw [update_of_ne (by omega)]
      exact habove i hlt hi
    · exact rearranged_move heq ⟨hlo, by omega⟩ ⟨by omega, by omega⟩

theorem partition_spec : ∀ {fuel : Nat} {a : Nat → α} {left right : Nat},
    Parted cmp pivot lo hi a left right → right - left ≤ fuel →
    ∃ b p, partition cmp pivot fuel a left right = some (b, p) ∧ Parted cmp pivot lo hi b p p ∧
      Rearranged lo hi (Function.update a left pivot) (Function.update b p pivot)
  | fuel, a, left, right, h, hfuel => by
    by_cases hlt : left < right
    · cases fuel with
      | zero => omega
      | succ fuel =>
        obtain ⟨b, l, r, hfill, hr, hlr, hrright, hleft, hl, hbelow, habove, hmoved⟩ := h.fillLeft
        obtain ⟨hge, hle, hpassed, hstop⟩ := scanLeft_spec cmp pivot b (r - l) l
        have hlo := h.lo_le
        have hhi := h.le_hi
        rw [Nat.add_sub_cancel' hlr] at hle hstop
        have hbelow' : ∀ i, lo ≤ i → i < scanLeft cmp pivot b (r - l) l → cmp (b i) pivot ≤ 0 := by
          intro i hi hlt
          by_cases hil : i < l
          · exact hbelow i hi hil
          · exact hpassed i (by omega) hlt
        by_cases heq : scanLeft cmp pivot b (r - l) l = r
        · have hparted : Parted cmp pivot lo hi b r r :=
            ⟨by omega, Nat.le_refl _, by omega, heq ▸ hbelow', habove⟩
          refine ⟨b, r, ?_, hparted, hmoved⟩
          rw [partition, if_pos hlt]
          simp only [hr] at hfill ⊢
          simp only [hfill, fillRight, heq, ne_eq, not_true_eq_false, if_false]
          cases fuel <;> simp [partition]
        · generalize hscan : scanLeft cmp pivot b (r - l) l = l' at *
          have hparted : Parted cmp pivot lo hi (Function.update b r (b l')) l' (r - 1) := by
            refine ⟨by omega, by omega, by omega, fun i hi hlt => ?_, fun i hlt hi => ?_⟩
            · rw [update_of_ne (by omega)]
              exact hbelow' i hi hlt
            · by_cases hir : i = r
              · rw [hir, update_self]
                exact hstop heq
              · rw [update_of_ne hir]
                exact habove i (by omega) hi
          have hfuel' : r - 1 - l' ≤ fuel := by omega
          obtain ⟨b', p, hrest, hparted', hmoved'⟩ := partition_spec hparted hfuel'
          refine ⟨b', p, ?_, hparted', (hmoved.trans ?_).trans hmoved'⟩
          · rw [partition, if_pos hlt]
            simp only [hr] at hfill ⊢
            simp only [hfill, hscan, fillRight, ne_eq, heq, not_false_eq_true, if_true]
            exact hrest
          · exact rearranged_move (Ne.symm heq) ⟨by omega, by omega⟩ ⟨by omega, by omega⟩
    · obtain rfl : left = right := Nat.le_antisymm h.le (Nat.not_lt.mp hlt)
      refine ⟨a, left, ?_, h, .refl lo hi _⟩
      cases fuel <;> rw [partition, if_neg hlt]

/-! ## The sort is correct -/

/-- A comparison that orders all values, some of them perhaps alike. -/
structure TotalPreorder (cmp : α → α → Int) : Prop where
  swap : ∀ a b, 0 ≤ cmp a b ↔ cmp b a ≤ 0
  trans : ∀ a b c, cmp a b ≤ 0 → cmp b c ≤ 0 → cmp a c ≤ 0

theorem TotalPreorder.refl (h : TotalPreorder cmp) (x : α) : cmp x x ≤ 0 := by
  rcases Int.le_total 0 (cmp x x) with hle | hle
  · exact (h.swap x x).mp hle
  · exact hle

/-- The cells from `lo` to `hi` are in order. -/
def Ordered (cmp : α → α → Int) (lo hi : Nat) (a : Nat → α) : Prop :=
  ∀ i j, lo ≤ i → i ≤ j → j ≤ hi → cmp (a i) (a j) ≤ 0

variable (cmp) in
/-- Any comparison gives a rearrangement, and a total preorder the one in order. -/
theorem quickSort_spec : ∀ {fuel : Nat} {a : Nat → α} {left right : Nat},
    left ≤ right → right - left < fuel →
    ∃ b, quickSort cmp fuel a left right = some b ∧ Rearranged left right a b ∧
      (TotalPreorder cmp → Ordered cmp left right b)
  | fuel + 1, a, left, right, hle, hfuel => by
    have hstart : Parted cmp (a left) left right a left right :=
      ⟨Nat.le_refl _, hle, Nat.le_refl _, fun i hge hlt => by omega, fun i hlt hi => by omega⟩
    obtain ⟨b, p, hpart, hparted, hmoved⟩ := partition_spec hstart (Nat.le_refl _)
    have hlo := hparted.lo_le
    have hhi := hparted.le_hi
    rw [update_eq_self] at hmoved
    generalize hb₀ : Function.update b p (a left) = b₀ at hmoved
    have hpivot : b₀ p = a left := by rw [← hb₀, update_self]
    have hbelow : ∀ i, left ≤ i → i < p → cmp (b₀ i) (b₀ p) ≤ 0 := by
      intro i hi hlt
      rw [hpivot, ← hb₀, update_of_ne (by omega)]
      exact hparted.below i hi hlt
    have habove : ∀ i, p < i → i ≤ right → 0 ≤ cmp (b₀ i) (b₀ p) := by
      intro i hlt hi
      rw [hpivot, ← hb₀, update_of_ne (by omega)]
      exact hparted.above i hlt hi
    -- The cells in front of the pivot.
    obtain ⟨b₁, hsort₁, hmoved₁, hbelow₁, hord₁⟩ : ∃ b₁,
        (if left < p then quickSort cmp fuel b₀ left (p - 1) else some b₀) = some b₁ ∧
        Rearranged left right b₀ b₁ ∧
        ((∀ i, left ≤ i → i < p → cmp (b₁ i) (b₀ p) ≤ 0) ∧ ∀ i, p ≤ i → b₁ i = b₀ i) ∧
        (TotalPreorder cmp → ∀ i j, left ≤ i → i ≤ j → j < p → cmp (b₁ i) (b₁ j) ≤ 0) := by
      by_cases hlt : left < p
      · have hfuel₁ : p - 1 - left < fuel := by omega
        obtain ⟨b₁, hsort, hmoved₁, hord⟩ :=
          quickSort_spec (a := b₀) (Nat.le_sub_one_of_lt hlt) hfuel₁
        have hall := hmoved₁.forall (P := fun x => cmp x (b₀ p) ≤ 0)
          fun i hi hle => hbelow i hi (by omega)
        exact ⟨b₁, by rw [if_pos hlt, hsort], hmoved₁.mono (Nat.le_refl _) (by omega),
          ⟨fun i hi hlt => hall i hi (by omega), fun i hi => hmoved₁.outside (.inr (by omega))⟩,
          fun hcmp i j hi hij hj => hord hcmp i j hi hij (by omega)⟩
      · exact ⟨b₀, if_neg hlt, .refl left right b₀, ⟨hbelow, fun _ _ => rfl⟩,
          fun _ i j hi hij hj => by omega⟩
    -- The cells behind it.
    obtain ⟨b₂, hsort₂, hmoved₂, habove₂, hord₂⟩ : ∃ b₂,
        (if p < right then quickSort cmp fuel b₁ (p + 1) right else some b₁) = some b₂ ∧
        Rearranged left right b₁ b₂ ∧
        ((∀ i, p < i → i ≤ right → 0 ≤ cmp (b₂ i) (b₀ p)) ∧ ∀ i, i ≤ p → b₂ i = b₁ i) ∧
        (TotalPreorder cmp → ∀ i j, p < i → i ≤ j → j ≤ right → cmp (b₂ i) (b₂ j) ≤ 0) := by
      have habove₁ : ∀ i, p < i → i ≤ right → 0 ≤ cmp (b₁ i) (b₀ p) := by
        intro i hlt hi
        rw [hbelow₁.2 i (Nat.le_of_lt hlt)]
        exact habove i hlt hi
      by_cases hlt : p < right
      · have hfuel₂ : right - (p + 1) < fuel := by omega
        obtain ⟨b₂, hsort, hmoved₂, hord⟩ := quickSort_spec (a := b₁) hlt hfuel₂
        have hall := hmoved₂.forall (P := fun x => 0 ≤ cmp x (b₀ p))
          fun i hi hle => habove₁ i (by omega) hle
        exact ⟨b₂, by rw [if_pos hlt, hsort], hmoved₂.mono (by omega) (Nat.le_refl _),
          ⟨fun i hlt hi => hall i hlt hi, fun i hi => hmoved₂.outside (.inl (by omega))⟩,
          fun hcmp i j hi hij hj => hord hcmp i j hi hij hj⟩
      · exact ⟨b₁, if_neg hlt, .refl left right b₁, ⟨habove₁, fun _ _ => rfl⟩,
          fun _ i j hi hij hj => by omega⟩
    refine ⟨b₂, ?_, (hmoved.trans hmoved₁).trans hmoved₂, fun hcmp i j hi hij hj => ?_⟩
    · rw [quickSort, hpart, bind_some]
      simp only [hb₀]
      rw [hsort₁, bind_some, hsort₂]
    · have hmid : b₂ p = b₀ p := by rw [habove₂.2 p (Nat.le_refl p), hbelow₁.2 p (Nat.le_refl p)]
      have hfront : i < p → cmp (b₂ i) (b₀ p) ≤ 0 := fun hlt => by
        rw [habove₂.2 i (Nat.le_of_lt hlt)]
        exact hbelow₁.1 i hi hlt
      have hback : p < j → cmp (b₀ p) (b₂ j) ≤ 0 := fun hlt =>
        (hcmp.swap _ _).mp (habove₂.1 j hlt hj)
      rcases Nat.lt_trichotomy j p with hjp | rfl | hjp
      · rw [habove₂.2 i (by omega), habove₂.2 j (by omega)]
        exact hord₁ hcmp i j hi hij hjp
      · rcases Nat.lt_or_eq_of_le hij with hlt | rfl
        · rw [hmid]
          exact hfront hlt
        · exact hcmp.refl _
      · rcases Nat.lt_trichotomy i p with hip | rfl | hip
        · exact hcmp.trans _ _ _ (hfront hip) (hback hjp)
        · rw [hmid]
          exact hback hjp
        · exact hord₂ hcmp i j hip hij hj

end HoleSort
