import Mathlib

/-!
# The first least element

A loop that keeps the element with the least key so far finds the first one with the least key of all.
What it finds is good exactly if every other element stands behind a good one in the order of the keys.
-/

namespace Extremum

open List

variable {α β : Type*} [LinearOrder β]

/-- The loop. -/
def pick (f : α → β) (a : α) (l : List α) : α := l.foldl (fun r v => if f v < f r then v else r) a

theorem argmin_cons_eq (f : α → β) (a : α) (l : List α) : (a :: l).argmin f = some (pick f a l) := by
  have h (l : List α) :
      ∀ a, l.foldl (List.argAux fun b c => f b < f c) (some a) = some (pick f a l) := by
    induction l with
    | nil => exact fun a => rfl
    | cons b l ih =>
      intro a
      rw [foldl_cons, pick, foldl_cons, ← pick, ← ih]
      congr 1
      exact (apply_ite some _ _ _).symm
  exact h l a

theorem pick_cons_self (f : α → β) (a : α) (l : List α) : pick f a (a :: l) = pick f a l := by
  rw [pick, foldl_cons, if_neg (lt_irrefl _), ← pick]

/-- The order of the keys, and of the places among equal keys. -/
def Precedes (f : α → β) (l : List α) (j i : Fin l.length) : Prop :=
  f l[j] < f l[i] ∨ f l[j] = f l[i] ∧ j < i

theorem idxOf_getElem_le [DecidableEq α] (l : List α) (i : Fin l.length) : l.idxOf l[i] ≤ i := by
  refine Nat.not_lt.mp fun h => ?_
  have hne : (l[i] == l[i]) = false := not_of_lt_findIdx h
  rw [beq_self_eq_true] at hne
  cases hne

/-- What the loop finds is good exactly if every element that is not good stands behind a good one. -/
theorem argmin_good_iff [DecidableEq α] {f : α → β} {l : List α} {m : α} (h : l.argmin f = some m)
    (P : α → Prop) :
    P m ↔ ∀ i : Fin l.length, ¬ P l[i] → ∃ j : Fin l.length, P l[j] ∧ Precedes f l j i := by
  have hm := argmin_eq_some_iff.mp h
  have hat : l.idxOf m < l.length := idxOf_lt_length_iff.mpr hm.1
  have hget : l[l.idxOf m] = m := getElem_idxOf hat
  constructor
  · intro hP i hi
    refine ⟨⟨_, hat⟩, ?_, ?_⟩
    · exact hget.symm ▸ hP
    · have hmem : l[i] ∈ l := getElem_mem _
      cases (hm.2.1 _ hmem).lt_or_eq with
      | inl hlt => exact .inl (lt_of_eq_of_lt (congrArg f hget) hlt)
      | inr heq =>
        refine .inr ⟨(congrArg f hget).trans heq, ?_⟩
        have hle : l.idxOf m ≤ l.idxOf l[i] := hm.2.2 _ hmem heq.ge
        have hidx : l.idxOf l[i] ≤ i := idxOf_getElem_le l _
        refine Nat.lt_of_le_of_ne (hle.trans hidx) fun hne => hi ?_
        have hsame : l[i] = m := by
          rw [Fin.getElem_fin]
          exact (getElem_congr_idx hne.symm).trans hget
        exact hsame.symm ▸ hP
  · intro hall
    by_contra hP
    cases hall ⟨_, hat⟩ (fun h => hP (hget ▸ h)) with
    | intro j hj =>
    have hmem : l[j] ∈ l := getElem_mem _
    cases hj.2 with
    | inl hlt => exact absurd (lt_of_lt_of_eq hlt (congrArg f hget)) (hm.2.1 _ hmem).not_gt
    | inr heq =>
      have hle : l.idxOf m ≤ l.idxOf l[j] := hm.2.2 _ hmem (heq.1.trans (congrArg f hget)).le
      have hidx : l.idxOf l[j] ≤ j := idxOf_getElem_le l _
      exact absurd heq.2 (not_lt_of_ge (hle.trans hidx))

end Extremum
