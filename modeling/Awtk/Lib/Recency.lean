import Mathlib

/-!
# The most recent entries of a list

Each entry of a list has a stamp, and no two stamps are equal.  `rank` counts the
entries that are more recent than a given one.  `newest` and `oldest` cut a list
into its `n` most recent entries and the other ones, whatever the order of the
list is.  In a list that is sorted by its stamps this is a cut at the place `n`.
-/

namespace Recency

open List

variable {α β : Type*} [LinearOrder β] {f : α → β} {l l' : List α} {n : Nat}

/-- How many entries of `l` are more recent than `a`. -/
def rank (f : α → β) (l : List α) (a : α) : Nat := l.countP fun b => f a < f b

/-- The `n` most recent entries. -/
def newest (f : α → β) (n : Nat) (l : List α) : List α := l.filter fun a => rank f l a < n

/-- All entries but the `n` most recent ones. -/
def oldest (f : α → β) (n : Nat) (l : List α) : List α := l.filter fun a => !decide (rank f l a < n)

theorem rank_perm (h : l.Perm l') (a : α) : rank f l a = rank f l' a := h.countP_eq _

theorem newest_perm (h : l.Perm l') : (newest f n l).Perm (newest f n l') := by
  unfold newest
  simp only [rank_perm h]
  exact h.filter _

theorem oldest_perm (h : l.Perm l') : (oldest f n l).Perm (oldest f n l') := by
  unfold oldest
  simp only [rank_perm h]
  exact h.filter _

theorem newest_append_oldest (f : α → β) (n : Nat) (l : List α) :
    (newest f n l ++ oldest f n l).Perm l := filter_append_perm _ l

theorem newest_sublist (f : α → β) (n : Nat) (l : List α) : (newest f n l).Sublist l :=
  filter_sublist

theorem rank_lt_length {a : α} (h : a ∈ l) : rank f l a < l.length :=
  lt_of_le_of_ne countP_le_length fun heq =>
    lt_irrefl (f a) (of_decide_eq_true (countP_eq_length.mp heq a h))

theorem newest_of_length_le (h : l.length ≤ n) : newest f n l = l :=
  filter_eq_self.mpr fun _ ha => decide_eq_true ((rank_lt_length ha).trans_le h)

theorem oldest_of_length_le (h : l.length ≤ n) : oldest f n l = [] :=
  filter_eq_nil_iff.mpr fun _ ha => by simpa using (rank_lt_length ha).trans_le h

/-! ## Sorted lists -/

theorem rank_append_cons {as bs : List α} {a : α}
    (h : (as ++ a :: bs).Pairwise fun x y => f y < f x) : rank f (as ++ a :: bs) a = as.length := by
  obtain ⟨-, hbs, has⟩ := pairwise_append.mp h
  have h1 : as.countP (fun b => f a < f b) = as.length :=
    countP_eq_length.mpr fun x hx => decide_eq_true (has x hx a mem_cons_self)
  have h2 : (a :: bs).countP (fun b => f a < f b) = 0 := by
    refine countP_eq_zero.mpr fun x hx => ?_
    rw [decide_eq_true_eq, not_lt]
    rcases mem_cons.mp hx with rfl | hx
    · exact le_rfl
    · exact (rel_of_pairwise_cons hbs hx).le
  rw [rank, countP_append, h1, h2, Nat.add_zero]

theorem rank_take (h : l.Pairwise fun x y => f y < f x) {a : α} (ha : a ∈ l.take n) :
    rank f l a < n := by
  obtain ⟨as, bs, hsplit⟩ := append_of_mem ha
  have hl : l = as ++ a :: (bs ++ l.drop n) := by
    rw [← cons_append, ← append_assoc, ← hsplit, take_append_drop]
  have hlen := congrArg List.length hsplit
  simp only [length_take, length_append, length_cons] at hlen
  rw [hl] at h ⊢
  rw [rank_append_cons h]
  omega

theorem rank_drop (h : l.Pairwise fun x y => f y < f x) {a : α} (ha : a ∈ l.drop n) :
    ¬ rank f l a < n := by
  obtain ⟨as, bs, hsplit⟩ := append_of_mem ha
  have hl : l = (l.take n ++ as) ++ a :: bs := by
    rw [append_assoc, ← hsplit, take_append_drop]
  have hlen := congrArg List.length hsplit
  simp only [length_drop, length_append, length_cons] at hlen
  have hrank : rank f l a = (l.take n ++ as).length := by
    conv_lhs => rw [hl]
    exact rank_append_cons (hl ▸ h)
  rw [hrank, length_append, length_take]
  omega

theorem newest_sorted (h : l.Pairwise fun x y => f y < f x) : newest f n l = l.take n := by
  unfold newest
  conv_lhs => rw [← take_append_drop n l]
  rw [filter_append, take_append_drop,
    filter_eq_self.mpr fun a ha => decide_eq_true (rank_take h ha),
    filter_eq_nil_iff.mpr fun a ha => by simpa using rank_drop h ha, append_nil]

theorem oldest_sorted (h : l.Pairwise fun x y => f y < f x) : oldest f n l = l.drop n := by
  unfold oldest
  conv_lhs => rw [← take_append_drop n l]
  rw [filter_append, take_append_drop,
    filter_eq_nil_iff.mpr fun a ha => by simpa using rank_take h ha,
    filter_eq_self.mpr fun a ha => by simpa using rank_drop h ha, nil_append]

/-! ## All but one -/

theorem rank_least {as bs : List α} {a : α} (h : ∀ b ∈ as ++ bs, f a < f b) :
    rank f (as ++ a :: bs) a = as.length + bs.length := by
  rw [rank, countP_append, countP_cons_of_neg (by simp),
    countP_eq_length.mpr fun b hb => decide_eq_true (h b (mem_append_left _ hb)),
    countP_eq_length.mpr fun b hb => decide_eq_true (h b (mem_append_right _ hb))]

theorem rank_other {as bs : List α} {a b : α} (h : ∀ b ∈ as ++ bs, f a < f b) (hb : b ∈ as ++ bs) :
    rank f (as ++ a :: bs) b < as.length + bs.length := by
  have hskip : (a :: bs).countP (fun c => f b < f c) = bs.countP fun c => f b < f c :=
    countP_cons_of_neg (by simpa using (h b hb).le)
  rw [rank, countP_append, hskip, ← countP_append, ← length_append]
  exact rank_lt_length hb

theorem newest_pred {as bs : List α} {a : α} (h : ∀ b ∈ as ++ bs, f a < f b) :
    newest f (as.length + bs.length) (as ++ a :: bs) = as ++ bs := by
  have hin {b : α} (hb : b ∈ as ++ bs) :
      decide (rank f (as ++ a :: bs) b < as.length + bs.length) = true :=
    decide_eq_true (rank_other h hb)
  rw [newest, filter_append, filter_cons_of_neg (by rw [rank_least h]; simp),
    filter_eq_self.mpr fun b hb => hin (mem_append_left _ hb),
    filter_eq_self.mpr fun b hb => hin (mem_append_right _ hb)]

theorem oldest_pred {as bs : List α} {a : α} (h : ∀ b ∈ as ++ bs, f a < f b) :
    oldest f (as.length + bs.length) (as ++ a :: bs) = [a] := by
  have hin {b : α} (hb : b ∈ as ++ bs) :
      ¬ (!decide (rank f (as ++ a :: bs) b < as.length + bs.length)) = true := by
    simpa using rank_other h hb
  rw [oldest, filter_append, filter_cons_of_pos (by rw [rank_least h]; simp),
    filter_eq_nil_iff.mpr fun b hb => hin (mem_append_left _ hb),
    filter_eq_nil_iff.mpr fun b hb => hin (mem_append_right _ hb), nil_append]

end Recency
