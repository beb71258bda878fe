import Mathlib

/-!
# Moves within an array

Loops that move the elements of an array by copies: to close gaps, to open one, and to turn the array
around.  On the list of the elements they are a filter, an insertion and the reverse.
-/

namespace InPlace

open List

variable {α : Type*}

/-! ## Closing gaps -/

/-- Copy the elements that are kept from the index `i` on to the index `dst`.  The first number counts
the elements to come. -/
def compact (keep : α → Bool) : Nat → List α → Nat → Nat → List α × Nat
  | 0, l, dst, _ => (l, dst)
  | n + 1, l, dst, i =>
    match l[i]? with
    | none => (l, dst)
    | some x => if keep x then compact keep n (l.set dst x) (dst + 1) (i + 1) else compact keep n l dst (i + 1)

theorem compact_append (keep : α → Bool) : ∀ rest pre gap : List α,
    let r := compact keep rest.length (pre ++ (gap ++ rest)) pre.length (pre.length + gap.length)
    r.1.take r.2 = pre ++ rest.filter keep
  | [], pre, gap => by simp [compact]
  | x :: rest, pre, gap => by
    have hget : (pre ++ (gap ++ x :: rest))[pre.length + gap.length]? = some x := by simp
    simp only [length_cons, compact, hget]
    split_ifs with hx
    · rw [filter_cons_of_pos hx]
      cases gap with
      | nil =>
        have ih := compact_append keep rest (pre ++ [x]) []
        simpa using ih
      | cons g gap =>
        have ih := compact_append keep rest (pre ++ [x]) (gap ++ [x])
        simpa [Nat.add_assoc, Nat.add_comm, Nat.add_left_comm] using ih
    · rw [filter_cons_of_neg hx]
      have ih := compact_append keep rest pre (gap ++ [x])
      simpa [Nat.add_assoc] using ih

theorem compact_eq_filter (keep : α → Bool) (l : List α) :
    (compact keep l.length l 0 0).1.take (compact keep l.length l 0 0).2 = l.filter keep :=
  compact_append keep l [] []

/-! ## Opening a gap -/

/-- Copy so many elements from an index on one place up, the last one first. -/
def shiftUp : Nat → Nat → List α → List α
  | 0, _, l => l
  | n + 1, index, l =>
    match l[index + n]? with
    | none => l
    | some x => shiftUp n index (l.set (index + n + 1) x)

theorem shiftUp_append (a : List α) (b : List α) : ∀ (g : α) (post : List α),
    ∃ y, shiftUp b.length a.length (a ++ (b ++ g :: post)) = a ++ y :: (b ++ post) := by
  induction b using List.reverseRecOn with
  | nil => exact fun g post => ⟨g, rfl⟩
  | append_singleton b x ih =>
    intro g post
    have hget : (a ++ (b ++ [x] ++ g :: post))[a.length + b.length]? = some x := by simp
    have hset : (a ++ (b ++ [x] ++ g :: post)).set (a.length + b.length + 1) x =
        a ++ (b ++ x :: x :: post) := by
      simp [Nat.add_assoc]
    cases ih x (x :: post) with
    | intro y hy =>
      refine ⟨y, ?_⟩
      rw [length_append, length_singleton, shiftUp, hget]
      simp only [hset, hy]
      simp

theorem insertIdx_eq_append (v : α) : ∀ {l : List α} {index : Nat}, index ≤ l.length →
    l.insertIdx index v = l.take index ++ v :: l.drop index
  | _, 0, _ => rfl
  | [], _ + 1, h => absurd h (Nat.not_succ_le_zero _)
  | x :: l, index + 1, h => by
    rw [insertIdx_succ_cons, insertIdx_eq_append v (Nat.le_of_succ_le_succ h)]
    rfl

theorem set_shiftUp (l : List α) (g v : α) {index : Nat} (h : index ≤ l.length) :
    (shiftUp (l.length - index) index (l ++ [g])).set index v = l.insertIdx index v := by
  have hlen : (l.take index).length = index := length_take_of_le h
  cases shiftUp_append (l.take index) (l.drop index) g [] with
  | intro y hy =>
    rw [length_drop, hlen, ← append_assoc, take_append_drop, append_nil] at hy
    rw [hy, insertIdx_eq_append v h, set_append_right _ _ (Nat.le_of_eq hlen), hlen, Nat.sub_self,
      set_cons_zero]

/-! ## Turning around -/

/-- Swap two elements. -/
def swap (l : List α) (i j : Nat) : List α :=
  match l[i]?, l[j]? with
  | some x, some y => (l.set i y).set j x
  | _, _ => l

/-- Swap the elements from both ends to the middle. -/
def turn : (start stop : Nat) → List α → List α
  | _, 0, l => l
  | start, stop + 1, l => if start < stop + 1 then turn (start + 1) stop (swap l start (stop + 1)) else l

theorem turn_of_le : ∀ {start stop : Nat} (l : List α), stop ≤ start → turn start stop l = l
  | _, 0, _, _ => rfl
  | _, stop + 1, _, h => by rw [turn, if_neg (Nat.not_lt.mpr h)]

theorem turn_append (b : List α) : ∀ a c : List α,
    turn a.length (a.length + b.length - 1) (a ++ (b ++ c)) = a ++ (b.reverse ++ c) := by
  induction b using List.bidirectionalRec with
  | nil => exact fun a c => turn_of_le _ (Nat.sub_le _ _)
  | singleton x => exact fun a c => turn_of_le _ (Nat.le_refl _)
  | cons_append x b y ih =>
    intro a c
    have hswap : swap (a ++ (x :: (b ++ [y]) ++ c)) a.length (a.length + b.length + 1) =
        (a ++ [y]) ++ (b ++ x :: c) := by
      have hfirst : (a ++ (x :: (b ++ [y]) ++ c))[a.length]? = some x := by
        simp
      have hlast : (a ++ (x :: (b ++ [y]) ++ c))[a.length + b.length + 1]? = some y := by
        simp [Nat.add_assoc]
      simp only [swap, hfirst, hlast]
      simp [Nat.add_assoc]
    have ih := ih (a ++ [y]) (x :: c)
    simp only [length_append, length_cons, length_nil, Nat.zero_add] at ih ⊢
    rw [show a.length + 1 + b.length - 1 = a.length + b.length by omega] at ih
    rw [show a.length + (b.length + 1 + 1) - 1 = a.length + b.length + 1 by omega, turn,
      if_pos (by omega), hswap, ih]
    simp

theorem turn_eq_reverse (l : List α) : turn 0 (l.length - 1) l = l.reverse := by
  have h := turn_append l [] []
  simpa using h

end InPlace
