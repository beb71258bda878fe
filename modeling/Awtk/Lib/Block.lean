import Mathlib

/-!
# Blocks of memory

A block is the list of its bytes.  A read or a write that is not inside of it has no result.  A
text that ends with a zero is read up to the zero.  All lemmas are about blocks whose parts are
known.
-/

namespace Block

open List

variable {α : Type*}

/-- The `n` values from `off` on. -/
def read (b : List α) (off n : Nat) : Option (List α) :=
  if off + n ≤ b.length then some ((b.drop off).take n) else none

/-- The values at `off` are replaced. -/
def write (b : List α) (off : Nat) (data : List α) : Option (List α) :=
  if off + data.length ≤ b.length then some (b.take off ++ (data ++ b.drop (off + data.length)))
  else none

/-- A block of another size.  The values of the first part are the same. -/
def resize (fill : α) (b : List α) (n : Nat) : List α := b.take n ++ List.replicate (n - b.length) fill

section Parts

variable {x y z d : List α} {n off : Nat}

theorem read_eq (hx : x.length = off) (hy : y.length = n) : read (x ++ (y ++ z)) off n = some y := by
  subst hx hy
  rw [read, if_pos (by simp), drop_left, take_left]

theorem read_zero (h : n ≤ x.length) : read (x ++ z) 0 n = some (x.take n) := by
  rw [read, if_pos (by rw [length_append]; omega), drop_zero, take_append_of_le_length h]

theorem write_eq (hx : x.length = off) (hy : y.length = d.length) :
    write (x ++ (y ++ z)) off d = some (x ++ (d ++ z)) := by
  subst hx
  have hdrop : (x ++ (y ++ z)).drop (x.length + d.length) = z := by
    rw [← hy, ← append_assoc, drop_left' (by simp)]
  rw [write, if_pos (by simp [hy]), take_left, hdrop]

theorem write_at (hx : x.length = off) (hy : d.length ≤ y.length) :
    write (x ++ y) off d = some (x ++ (d ++ y.drop d.length)) := by
  have hsplit : y = y.take d.length ++ y.drop d.length := (take_append_drop _ _).symm
  conv_lhs => rw [hsplit]
  exact write_eq hx (length_take_of_le hy)

theorem write_behind (hx : x.length ≤ off) (hle : off + d.length ≤ x.length + y.length) :
    ∃ y', write (x ++ y) off d = some (x ++ y') ∧ y'.length = y.length := by
  refine ⟨y.take (off - x.length) ++ (d ++ y.drop (off - x.length + d.length)), ?_, ?_⟩
  · rw [write, if_pos (by simpa using hle), take_append, take_of_length_le hx,
      drop_append, drop_of_length_le (by omega), nil_append, append_assoc,
      Nat.sub_add_comm hx]
  · simp only [length_append, length_take, length_drop]
    omega

theorem resize_append (hx : x.length ≤ n) (fill : α) :
    ∃ y', resize fill (x ++ y) n = x ++ y' ∧ y'.length = n - x.length := by
  refine ⟨y.take (n - x.length) ++ List.replicate (n - (x ++ y).length) fill, ?_, ?_⟩
  · rw [resize, take_append, take_of_length_le hx, append_assoc]
  · simp only [length_append, length_take, length_replicate]
    omega

theorem exists_parts {m : Nat} (h : m + n ≤ x.length) :
    ∃ a b c, x = a ++ (b ++ c) ∧ a.length = m ∧ b.length = n := by
  refine ⟨x.take m, (x.drop m).take n, (x.drop m).drop n, ?_, ?_, ?_⟩
  · rw [take_append_drop, take_append_drop]
  · exact length_take_of_le (by omega)
  · exact length_take_of_le (by rw [length_drop]; omega)

end Parts

/-! ## Texts that end with a zero -/

section Text

variable [Zero α] [DecidableEq α] {x t rest : List α} {off : Nat}

/-- The text at `off`, up to its zero. -/
def text (b : List α) (off : Nat) : Option (List α) :=
  let t := (b.drop off).takeWhile (· ≠ 0)
  if off + t.length < b.length then some t else none

theorem takeWhile_append_zero (ht : 0 ∉ t) : (t ++ 0 :: rest).takeWhile (· ≠ 0) = t := by
  rw [takeWhile_append_of_pos]
  · simp
  · intro a ha
    have hne : a ≠ 0 := fun h => ht (h ▸ ha)
    simpa using hne

theorem text_eq (hx : x.length = off) (ht : 0 ∉ t) : text (x ++ (t ++ 0 :: rest)) off = some t := by
  subst hx
  rw [text, drop_left, takeWhile_append_zero ht, if_pos (by simp)]

theorem text_end (x rest : List α) : text (x ++ 0 :: rest) x.length = some [] :=
  text_eq (t := []) rfl not_mem_nil

theorem text_zero (ht : 0 ∉ t) : text (t ++ 0 :: rest) 0 = some t :=
  text_eq (x := []) rfl ht

end Text

end Block
