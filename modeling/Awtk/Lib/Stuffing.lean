import Mathlib

/-!
# Byte stuffing

A frame is closed by a flag, so the flag must not occur inside it.  A stuffing
code replaces the flag and the escape symbol by the escape symbol followed by
the flipped symbol.  `stuff` encodes a text.  `unstuff` decodes it with one
symbol of lookback: its first argument says whether the symbol before was the
escape symbol.
-/

namespace Stuffing

open List

/-- A flag, an escape symbol and an involution that moves both out of the way. -/
structure Code (α : Type*) where
  flag : α
  esc : α
  flip : α → α
  flip_flip : ∀ x, flip (flip x) = x
  flip_flag_ne_flag : flip flag ≠ flag
  flip_flag_ne_esc : flip flag ≠ esc
  flip_esc_ne_flag : flip esc ≠ flag
  flip_esc_ne_esc : flip esc ≠ esc
  flag_ne_esc : flag ≠ esc

variable {α : Type*} [DecidableEq α] (c : Code α)

/-! ## Encoding -/

/-- The encoding of one symbol. -/
def stuffOne (x : α) : List α :=
  if x = c.flag ∨ x = c.esc then [c.esc, c.flip x] else [x]

/-- The encoding of a text. -/
def stuff (xs : List α) : List α := xs.flatMap (stuffOne c)

@[simp] theorem stuff_nil : stuff c [] = [] := rfl

@[simp] theorem stuff_cons (x : α) (xs : List α) :
    stuff c (x :: xs) = stuffOne c x ++ stuff c xs := rfl

@[simp] theorem stuff_append (xs ys : List α) :
    stuff c (xs ++ ys) = stuff c xs ++ stuff c ys := flatMap_append

theorem stuffOne_of_special {x : α} (h : x = c.flag ∨ x = c.esc) :
    stuffOne c x = [c.esc, c.flip x] := if_pos h

theorem stuffOne_of_plain {x : α} (hf : x ≠ c.flag) (he : x ≠ c.esc) : stuffOne c x = [x] :=
  if_neg fun h => h.elim hf he

theorem stuffOne_length_le (x : α) : (stuffOne c x).length ≤ 2 := by
  unfold stuffOne
  split <;> simp

theorem stuff_length_le : ∀ xs : List α, (stuff c xs).length ≤ 2 * xs.length
  | [] => Nat.le_refl 0
  | x :: xs => by
    have hx := stuffOne_length_le c x
    have ih := stuff_length_le xs
    rw [stuff_cons, length_append, length_cons]
    omega

theorem flag_notMem_stuffOne (x : α) : c.flag ∉ stuffOne c x := by
  by_cases hx : x = c.flag ∨ x = c.esc
  · rw [stuffOne_of_special c hx]
    cases hx with
    | inl h => simp [h, c.flag_ne_esc, c.flip_flag_ne_flag.symm]
    | inr h => simp [h, c.flag_ne_esc, c.flip_esc_ne_flag.symm]
  · rw [not_or] at hx
    rw [stuffOne_of_plain c hx.1 hx.2, mem_singleton]
    exact Ne.symm hx.1

theorem flag_notMem_stuff (xs : List α) : c.flag ∉ stuff c xs := by
  intro h
  obtain ⟨x, _, hx⟩ := mem_flatMap.mp h
  exact flag_notMem_stuffOne c x hx

/-! ## Decoding -/

/-- The decoding of a text; the flag says that an escape symbol came before. -/
def unstuff : Bool → List α → List α
  | _, [] => []
  | escaped, x :: xs =>
    if x = c.esc then unstuff true xs
    else (if escaped then c.flip x else x) :: unstuff false xs

@[simp] theorem unstuff_nil (b : Bool) : unstuff c b [] = [] := rfl

@[simp] theorem unstuff_esc (b : Bool) (xs : List α) :
    unstuff c b (c.esc :: xs) = unstuff c true xs := if_pos rfl

theorem unstuff_cons_of_ne {x : α} (h : x ≠ c.esc) (b : Bool) (xs : List α) :
    unstuff c b (x :: xs) = (if b then c.flip x else x) :: unstuff c false xs := if_neg h

theorem unstuff_length_eq (b b' : Bool) :
    ∀ xs : List α, (unstuff c b xs).length = (unstuff c b' xs).length
  | [] => rfl
  | x :: xs => by
    by_cases hx : x = c.esc
    · rw [hx, unstuff_esc, unstuff_esc]
    · rw [unstuff_cons_of_ne c hx, unstuff_cons_of_ne c hx, length_cons, length_cons]

theorem exists_split_of_lt_unstuff {n : Nat} : ∀ {b : Bool} {xs : List α},
    n < (unstuff c b xs).length →
    ∃ as x bs, xs = as ++ x :: bs ∧ x ≠ c.esc ∧ (unstuff c b as).length = n
  | _, [], h => absurd h (Nat.not_lt_zero n)
  | b, x :: xs, h => by
    by_cases hx : x = c.esc
    · rw [hx, unstuff_esc] at h
      obtain ⟨as, y, bs, rfl, hy, hlen⟩ := exists_split_of_lt_unstuff h
      exact ⟨x :: as, y, bs, rfl, hy, by rw [hx, unstuff_esc, hlen]⟩
    · rw [unstuff_cons_of_ne c hx, length_cons] at h
      cases n with
      | zero => exact ⟨[], x, xs, rfl, hx, rfl⟩
      | succ n =>
        obtain ⟨as, y, bs, rfl, hy, hlen⟩ :=
          exists_split_of_lt_unstuff (Nat.lt_of_succ_lt_succ h)
        exact ⟨x :: as, y, bs, rfl, hy,
          by rw [unstuff_cons_of_ne c hx, length_cons, hlen]⟩

theorem unstuff_stuffOne (x : α) (ys : List α) :
    unstuff c false (stuffOne c x ++ ys) = x :: unstuff c false ys := by
  by_cases hx : x = c.flag ∨ x = c.esc
  · have hne : c.flip x ≠ c.esc := by
      cases hx with
      | inl h => rw [h]; exact c.flip_flag_ne_esc
      | inr h => rw [h]; exact c.flip_esc_ne_esc
    rw [stuffOne_of_special c hx, cons_append, cons_append, nil_append,
      unstuff_esc, unstuff_cons_of_ne c hne, if_pos rfl, c.flip_flip]
  · rw [not_or] at hx
    rw [stuffOne_of_plain c hx.1 hx.2, singleton_append, unstuff_cons_of_ne c hx.2]
    rfl

theorem unstuff_stuff_append (ys : List α) :
    ∀ xs : List α, unstuff c false (stuff c xs ++ ys) = xs ++ unstuff c false ys
  | [] => rfl
  | x :: xs => by
    rw [stuff_cons, append_assoc, unstuff_stuffOne, unstuff_stuff_append ys xs,
      cons_append]

theorem unstuff_stuff (xs : List α) : unstuff c false (stuff c xs) = xs := by
  have h := unstuff_stuff_append c [] xs
  rwa [append_nil, unstuff_nil, append_nil] at h

end Stuffing
