import Mathlib

/-!
# Boxes

A box is a product of two half-open intervals of a linear order.  Boxes that are not
empty have a point in common exactly if they meet, which is a comparison of their edges.  The
join of two boxes is the least box around both.
-/

/-- The product of `left ≤ x < right` and `top ≤ y < bottom`. -/
@[ext] structure Box (α : Type*) where
  left : α
  top : α
  right : α
  bottom : α
  deriving DecidableEq

namespace Box

open List Option

variable {α : Type*} [LinearOrder α] {a b c d : Box α} {p : α × α}

instance : Membership (α × α) (Box α) :=
  ⟨fun b p => (b.left ≤ p.1 ∧ p.1 < b.right) ∧ b.top ≤ p.2 ∧ p.2 < b.bottom⟩

theorem mem_iff : p ∈ b ↔ (b.left ≤ p.1 ∧ p.1 < b.right) ∧ b.top ≤ p.2 ∧ p.2 < b.bottom := Iff.rfl

/-- A box with a point. -/
def Solid (b : Box α) : Prop := b.left < b.right ∧ b.top < b.bottom

instance (b : Box α) : Decidable b.Solid := inferInstanceAs (Decidable (_ ∧ _))

theorem solid_of_mem (h : p ∈ b) : b.Solid :=
  ⟨h.1.1.trans_lt h.1.2, h.2.1.trans_lt h.2.2⟩

theorem Solid.exists_mem (h : b.Solid) : ∃ p, p ∈ b := ⟨(b.left, b.top), ⟨le_rfl, h.1⟩, le_rfl, h.2⟩

/-! ## Meeting -/

def Meets (a b : Box α) : Prop :=
  (a.left < b.right ∧ b.left < a.right) ∧ a.top < b.bottom ∧ b.top < a.bottom

instance (a b : Box α) : Decidable (a.Meets b) := inferInstanceAs (Decidable (_ ∧ _))

theorem Meets.symm (h : a.Meets b) : b.Meets a := ⟨h.1.symm, h.2.symm⟩

theorem meets_of_mem (ha : p ∈ a) (hb : p ∈ b) : a.Meets b :=
  ⟨⟨ha.1.1.trans_lt hb.1.2, hb.1.1.trans_lt ha.1.2⟩,
    ha.2.1.trans_lt hb.2.2, hb.2.1.trans_lt ha.2.2⟩

theorem meets_iff (ha : a.Solid) (hb : b.Solid) : a.Meets b ↔ ∃ p, p ∈ a ∧ p ∈ b := by
  constructor
  · rintro ⟨⟨hab, hba⟩, hab', hba'⟩
    refine ⟨(max a.left b.left, max a.top b.top), ⟨⟨?_, ?_⟩, ?_, ?_⟩, ⟨?_, ?_⟩, ?_, ?_⟩
    · exact le_max_left _ _
    · exact max_lt ha.1 hba
    · exact le_max_left _ _
    · exact max_lt ha.2 hba'
    · exact le_max_right _ _
    · exact max_lt hab hb.1
    · exact le_max_right _ _
    · exact max_lt hab' hb.2
  · rintro ⟨p, hpa, hpb⟩
    exact meets_of_mem hpa hpb

/-! ## Boxes in boxes -/

def Within (a b : Box α) : Prop :=
  (b.left ≤ a.left ∧ a.right ≤ b.right) ∧ b.top ≤ a.top ∧ a.bottom ≤ b.bottom

instance (a b : Box α) : Decidable (a.Within b) := inferInstanceAs (Decidable (_ ∧ _))

theorem Within.refl (a : Box α) : a.Within a := ⟨⟨le_rfl, le_rfl⟩, le_rfl, le_rfl⟩

theorem Within.trans (hab : a.Within b) (hbc : b.Within c) : a.Within c :=
  ⟨⟨hbc.1.1.trans hab.1.1, hab.1.2.trans hbc.1.2⟩, hbc.2.1.trans hab.2.1, hab.2.2.trans hbc.2.2⟩

theorem Within.mem (h : a.Within b) (hp : p ∈ a) : p ∈ b :=
  ⟨⟨h.1.1.trans hp.1.1, hp.1.2.trans_le h.1.2⟩, h.2.1.trans hp.2.1, hp.2.2.trans_le h.2.2⟩

theorem within_iff (ha : a.Solid) : a.Within b ↔ ∀ p ∈ a, p ∈ b := by
  constructor
  · intro h p hp
    exact h.mem hp
  · intro h
    have hcorner : (a.left, a.top) ∈ b := h (a.left, a.top) ⟨⟨le_rfl, ha.1⟩, le_rfl, ha.2⟩
    refine ⟨⟨hcorner.1.1, le_of_not_gt fun hlt => ?_⟩, hcorner.2.1, le_of_not_gt fun hlt => ?_⟩
    · have := h (max a.left b.right, a.top)
        ⟨⟨le_max_left _ _, max_lt ha.1 hlt⟩, le_rfl, ha.2⟩
      exact (le_max_right _ _).not_gt this.1.2
    · have := h (a.left, max a.top b.bottom)
        ⟨⟨le_rfl, ha.1⟩, le_max_left _ _, max_lt ha.2 hlt⟩
      exact (le_max_right _ _).not_gt this.2.2

/-! ## The common part -/

/-- The common part of two boxes. -/
def inter (a b : Box α) : Box α :=
  ⟨max a.left b.left, max a.top b.top, min a.right b.right, min a.bottom b.bottom⟩

theorem mem_inter : p ∈ a.inter b ↔ p ∈ a ∧ p ∈ b := by
  simp only [mem_iff, inter, sup_le_iff, lt_inf_iff]
  constructor
  · rintro ⟨⟨⟨h1, h2⟩, h3, h4⟩, ⟨h5, h6⟩, h7, h8⟩
    exact ⟨⟨⟨h1, h3⟩, h5, h7⟩, ⟨h2, h4⟩, h6, h8⟩
  · rintro ⟨⟨⟨h1, h3⟩, h5, h7⟩, ⟨h2, h4⟩, h6, h8⟩
    exact ⟨⟨⟨h1, h2⟩, h3, h4⟩, ⟨h5, h6⟩, h7, h8⟩

theorem solid_inter_of_mem (ha : p ∈ a) (hb : p ∈ b) : (a.inter b).Solid :=
  solid_of_mem (mem_inter.mpr ⟨ha, hb⟩)

theorem inter_within (a b : Box α) : (a.inter b).Within a :=
  ⟨⟨le_max_left _ _, min_le_left _ _⟩, le_max_left _ _, min_le_left _ _⟩

/-- What is above, to the left, to the right and below of a box in another one.  The strips above and
below have the full width. -/
def strips (a b : Box α) : List (Box α) :=
  [⟨a.left, a.top, a.right, b.top⟩, ⟨a.left, b.top, b.left, b.bottom⟩,
    ⟨b.right, b.top, a.right, b.bottom⟩, ⟨a.left, b.bottom, a.right, a.bottom⟩]

theorem mem_strips (hab : b.Within a) (hb : b.Solid) :
    (∃ s ∈ a.strips b, p ∈ s) ↔ p ∈ a ∧ p ∉ b := by
  obtain ⟨⟨hleft, hright⟩, htop, hbottom⟩ := hab
  simp only [strips, mem_cons, not_mem_nil, or_false, exists_eq_or_imp, exists_eq_left,
    mem_iff]
  constructor
  · rintro (⟨⟨h1, h2⟩, h3, h4⟩ | ⟨⟨h1, h2⟩, h3, h4⟩ | ⟨⟨h1, h2⟩, h3, h4⟩ | ⟨⟨h1, h2⟩, h3, h4⟩)
    · exact ⟨⟨⟨h1, h2⟩, h3, (h4.trans hb.2).trans_le hbottom⟩, fun h => h.2.1.not_gt h4⟩
    · exact ⟨⟨⟨h1, (h2.trans hb.1).trans_le hright⟩, htop.trans h3, h4.trans_le hbottom⟩,
        fun h => h.1.1.not_gt h2⟩
    · exact ⟨⟨⟨(hleft.trans hb.1.le).trans h1, h2⟩, htop.trans h3, h4.trans_le hbottom⟩,
        fun h => h1.not_gt h.1.2⟩
    · exact ⟨⟨⟨h1, h2⟩, (htop.trans hb.2.le).trans h3, h4⟩, fun h => h3.not_gt h.2.2⟩
  · rintro ⟨⟨⟨h1, h2⟩, h3, h4⟩, hnot⟩
    rcases lt_or_ge p.2 b.top with habove | habove
    · exact .inl ⟨⟨h1, h2⟩, h3, habove⟩
    rcases lt_or_ge p.2 b.bottom with hbelow | hbelow
    · rcases lt_or_ge p.1 b.left with hl | hl
      · exact .inr (.inl ⟨⟨h1, hl⟩, habove, hbelow⟩)
      rcases lt_or_ge p.1 b.right with hr | hr
      · exact absurd ⟨⟨hl, hr⟩, habove, hbelow⟩ hnot
      · exact .inr (.inr (.inl ⟨⟨hr, h2⟩, habove, hbelow⟩))
    · exact .inr (.inr (.inr ⟨⟨h1, h2⟩, hbelow, h4⟩))

theorem strips_le (hab : b.Within a) (hb : b.Solid) {s : Box α} (hs : s ∈ a.strips b) :
    s.left ≤ s.right ∧ s.top ≤ s.bottom := by
  obtain ⟨⟨hleft, hright⟩, htop, hbottom⟩ := hab
  have hx : a.left ≤ a.right := (hleft.trans hb.1.le).trans hright
  simp only [strips, mem_cons, not_mem_nil, or_false] at hs
  rcases hs with rfl | rfl | rfl | rfl
  · exact ⟨hx, htop⟩
  · exact ⟨hleft, hb.2.le⟩
  · exact ⟨hright, hb.2.le⟩
  · exact ⟨hx, hbottom⟩

/-- Boxes without a common point. -/
def Apart (a b : Box α) : Prop := ∀ p, p ∈ a → p ∉ b

theorem strips_apart (hb : b.Solid) : (a.strips b).Pairwise Apart := by
  simp only [strips, pairwise_cons, forall_mem_cons, not_mem_nil, false_imp_iff,
    implies_true, and_true, List.Pairwise.nil]
  refine ⟨⟨?_, ?_, ?_⟩, ⟨?_, ?_⟩, ?_⟩
  · exact fun p h h' => h'.2.1.not_gt h.2.2
  · exact fun p h h' => h'.2.1.not_gt h.2.2
  · exact fun p h h' => h'.2.1.not_gt (h.2.2.trans hb.2)
  · exact fun p h h' => h'.1.1.not_gt (h.1.2.trans hb.1)
  · exact fun p h h' => h'.2.1.not_gt h.2.2
  · exact fun p h h' => h'.2.1.not_gt h.2.2

/-! ## The join -/

/-- The least box around two boxes. -/
def join (a b : Box α) : Box α :=
  ⟨min a.left b.left, min a.top b.top, max a.right b.right, max a.bottom b.bottom⟩

theorem join_comm (a b : Box α) : a.join b = b.join a := by
  simp only [join, min_comm, max_comm]

theorem within_join_left (a b : Box α) : a.Within (a.join b) :=
  ⟨⟨min_le_left _ _, le_max_left _ _⟩, min_le_left _ _, le_max_left _ _⟩

theorem within_join_right (a b : Box α) : b.Within (a.join b) :=
  ⟨⟨min_le_right _ _, le_max_right _ _⟩, min_le_right _ _, le_max_right _ _⟩

theorem join_within (ha : a.Within c) (hb : b.Within c) : (a.join b).Within c :=
  ⟨⟨le_min ha.1.1 hb.1.1, max_le ha.1.2 hb.1.2⟩, le_min ha.2.1 hb.2.1, max_le ha.2.2 hb.2.2⟩

theorem solid_join (ha : a.Solid) (b : Box α) : (a.join b).Solid :=
  ⟨(min_le_left _ _).trans_lt (ha.1.trans_le (le_max_left _ _)),
    (min_le_left _ _).trans_lt (ha.2.trans_le (le_max_left _ _))⟩

theorem mem_join_left (h : p ∈ a) (b : Box α) : p ∈ a.join b := (within_join_left a b).mem h

theorem mem_join_right (a : Box α) (h : p ∈ b) : p ∈ a.join b := (within_join_right a b).mem h

/-! ## The box around a set of boxes -/

/-- A box whose edges are the outermost ones of a set of boxes. -/
structure IsHull (m : Box α) (s : Set (Box α)) : Prop where
  left : IsLeast (Box.left '' s) m.left
  top : IsLeast (Box.top '' s) m.top
  right : IsGreatest (Box.right '' s) m.right
  bottom : IsGreatest (Box.bottom '' s) m.bottom

theorem IsHull.within {m : Box α} {s : Set (Box α)} (h : m.IsHull s) (ha : a ∈ s) : a.Within m :=
  ⟨⟨h.left.2 (Set.mem_image_of_mem _ ha), h.right.2 (Set.mem_image_of_mem _ ha)⟩,
    h.top.2 (Set.mem_image_of_mem _ ha), h.bottom.2 (Set.mem_image_of_mem _ ha)⟩

theorem IsHull.unique {m n : Box α} {s : Set (Box α)} (hm : m.IsHull s) (hn : n.IsHull s) : m = n :=
  Box.ext (hm.left.unique hn.left) (hm.top.unique hn.top) (hm.right.unique hn.right)
    (hm.bottom.unique hn.bottom)

theorem isHull_singleton (a : Box α) : a.IsHull {a} := by
  constructor
  · simp
  · simp
  · simp
  · simp

theorem IsHull.insert {m : Box α} {s : Set (Box α)} (h : m.IsHull s) (a : Box α) :
    (m.join a).IsHull (insert a s) := by
  rw [join_comm]
  constructor
  · rw [Set.image_insert_eq]
    exact h.left.insert a.left
  · rw [Set.image_insert_eq]
    exact h.top.insert a.top
  · rw [Set.image_insert_eq]
    exact h.right.insert a.right
  · rw [Set.image_insert_eq]
    exact h.bottom.insert a.bottom

/-- The least box around the boxes of a list. -/
def hull : List (Box α) → Option (Box α)
  | [] => none
  | b :: l => some ((hull l).elim b b.join)

theorem hull_within_iff {m : Box α} {l : List (Box α)} :
    (∀ h ∈ hull l, h.Within m) ↔ ∀ b ∈ l, b.Within m := by
  induction l with
  | nil => simp [hull]
  | cons b l ih =>
    rw [forall_mem_cons, ← ih]
    cases hl : hull l with
    | none => simp [hull, hl]
    | some h =>
      simp only [hull, hl, elim_some, mem_some_iff, forall_eq']
      constructor
      · intro hm
        exact ⟨(within_join_left b h).trans hm, (within_join_right b h).trans hm⟩
      · rintro ⟨hb, hh⟩
        exact join_within hb hh

end Box
