import Mathlib

/-!
# Lists with at most one hit

A list in which at most one element is hit by a test, as the entries of a table are by a key.  To find the
element, to change it and to remove it do not depend on where it is.
-/

namespace OneHit

open List Option

variable {α : Type*} {hit : α → Bool} {l l' : List α}

/-- At most one element is hit. -/
def Once (hit : α → Bool) (l : List α) : Prop := l.Pairwise fun x y => ¬ (hit x = true ∧ hit y = true)

theorem Once.perm (h : Once hit l) (hp : l.Perm l') : Once hit l' :=
  (hp.pairwise_iff fun h hyx => h hyx.symm).mp h

/-- The element that is hit, and the others. -/
theorem Once.split (h : Once hit l) {i : Nat} {x : α} (hi : l[i]? = some x) (hx : hit x = true) :
    l = l.take i ++ x :: l.drop (i + 1) ∧ (∀ y ∈ l.take i, hit y = false) ∧
      ∀ y ∈ l.drop (i + 1), hit y = false := by
  have hlt := (List.getElem?_eq_some_iff.mp hi).1
  have hget := (List.getElem?_eq_some_iff.mp hi).2
  have hsplit : l = l.take i ++ x :: l.drop (i + 1) := by
    rw [← hget, ← drop_eq_getElem_cons hlt, take_append_drop]
  refine ⟨hsplit, ?_⟩
  rw [Once, hsplit, pairwise_append, pairwise_cons] at h
  constructor
  · intro y hy
    exact Bool.eq_false_iff.mpr fun hhit => h.2.2 y hy x mem_cons_self ⟨hhit, hx⟩
  · intro y hy
    exact Bool.eq_false_iff.mpr fun hhit => h.2.1.1 y hy ⟨hx, hhit⟩

theorem find?_none (h : ∀ y ∈ l, hit y = false) : l.find? hit = none :=
  find?_eq_none.mpr fun y hy => Bool.eq_false_iff.mp (h y hy)

theorem filter_not (h : ∀ y ∈ l, hit y = false) : l.filter (fun y => !hit y) = l :=
  filter_eq_self.mpr fun y hy => by rw [h y hy, Bool.not_false]

theorem map_unhit {f : α → α} (h : ∀ y ∈ l, hit y = false) :
    l.map (fun y => if hit y = true then f y else y) = l :=
  (map_congr_left fun y hy => if_neg (Bool.eq_false_iff.mp (h y hy))).trans (List.map_id' l)

theorem Once.find? (h : Once hit l) {i : Nat} {x : α} (hi : l[i]? = some x) (hx : hit x = true) :
    l.find? hit = some x := by
  cases h.split hi hx with
  | intro hsplit hothers =>
    rw [hsplit, find?_append, find?_none hothers.1, none_or, find?_cons_of_pos hx]

theorem Once.eq (h : Once hit l) {x y : α} (hx : x ∈ l) (hy : y ∈ l) (hhx : hit x = true)
    (hhy : hit y = true) : x = y := by
  cases getElem?_of_mem hx with
  | intro i hi =>
    cases getElem?_of_mem hy with
    | intro j hj => exact some.inj ((h.find? hi hhx).symm.trans (h.find? hj hhy))

/-- It is changed where it is. -/
theorem Once.set (h : Once hit l) {i : Nat} {x : α} (hi : l[i]? = some x) (hx : hit x = true)
    (f : α → α) : l.set i (f x) = l.map fun y => if hit y = true then f y else y := by
  have hlt := (List.getElem?_eq_some_iff.mp hi).1
  cases h.split hi hx with
  | intro hsplit hothers =>
    rw [set_eq_take_append_cons_drop, if_pos hlt]
    conv_rhs => rw [hsplit]
    rw [map_append, map_cons, map_unhit hothers.1, map_unhit hothers.2, if_pos hx]

theorem Once.eraseIdx (h : Once hit l) {i : Nat} {x : α} (hi : l[i]? = some x) (hx : hit x = true) :
    l.eraseIdx i = l.filter fun y => !hit y := by
  cases h.split hi hx with
  | intro hsplit hothers =>
    rw [eraseIdx_eq_take_drop_succ]
    conv_rhs => rw [hsplit]
    rw [filter_append, filter_cons_of_neg (by rw [hx]; exact Bool.false_ne_true),
      filter_not hothers.1, filter_not hothers.2]

theorem Once.find?_perm (h : Once hit l) (hp : l.Perm l') : l.find? hit = l'.find? hit := by
  cases hfind : l.find? hit with
  | none =>
    refine (find?_none fun y hy => ?_).symm
    exact Bool.eq_false_iff.mpr (find?_eq_none.mp hfind y (hp.mem_iff.mpr hy))
  | some x =>
    have hmem := hp.mem_iff.mp (mem_of_find?_eq_some hfind)
    cases getElem?_of_mem hmem with
    | intro i hi => exact ((h.perm hp).find? hi (find?_some hfind)).symm

end OneHit
