import Mathlib

/-!
# Matches of a text

A text is cut from the left into the matches of `t`, which do not overlap, and the single values
between them.  A replacement renders the matches in another way.
-/

namespace Replace

open List Option

variable {α : Type*}

/-- Each match becomes `u`. -/
def render (u : List α) : List (Option α) → List α
  | [] => []
  | none :: toks => u ++ render u toks
  | some c :: toks => c :: render u toks

section Render

variable {u t : List α} {c : α} {toks : List (Option α)}

@[simp] theorem render_nil : render u [] = [] := rfl

@[simp] theorem render_match : render u (none :: toks) = u ++ render u toks := rfl

@[simp] theorem render_value : render u (some c :: toks) = c :: render u toks := rfl

theorem mem_render {a : α} (h : a ∈ render u toks) : a ∈ u ∨ some a ∈ toks := by
  induction toks with
  | nil => cases h
  | cons tok toks ih =>
    cases tok with
    | none =>
      rcases mem_append.mp h with h | h
      · exact .inl h
      · exact (ih h).imp id (mem_cons_of_mem _)
    | some c =>
      rcases mem_cons.mp h with rfl | h
      · exact .inr mem_cons_self
      · exact (ih h).imp id (mem_cons_of_mem _)

theorem mem_render_of_value {a : α} (h : some a ∈ toks) : a ∈ render u toks := by
  induction toks with
  | nil => cases h
  | cons tok toks ih =>
    cases tok with
    | none =>
      rcases mem_cons.mp h with h | h
      · cases h
      · exact mem_append_right _ (ih h)
    | some c =>
      rcases mem_cons.mp h with h | h
      · cases h
        exact mem_cons_self
      · exact mem_cons_of_mem _ (ih h)

theorem length_render [DecidableEq α] (t u : List α) (toks : List (Option α)) :
    (render u toks).length + toks.count none * t.length =
      (render t toks).length + toks.count none * u.length := by
  induction toks with
  | nil => simp
  | cons tok toks ih =>
    cases tok with
    | none =>
      simp only [render_match, length_append, count_cons_self, Nat.add_mul, Nat.one_mul]
      omega
    | some c =>
      have hne : (some c : Option α) ≠ none := some_ne_none c
      simp only [render_value, length_cons, count_cons_of_ne hne]
      omega

end Render

variable [DecidableEq α]

/-- The matches of `t` and the values between them.  `skip` values belong to the last match. -/
def tokens (t : List α) : Nat → List α → List (Option α)
  | _, [] => []
  | skip + 1, _ :: p => tokens t skip p
  | 0, c :: p => if t <+: c :: p then none :: tokens t (t.length - 1) p else some c :: tokens t 0 p

/-- The rest from the first match on. -/
def find (t : List α) : List α → Option (List α)
  | [] => if t = [] then some [] else none
  | c :: p => if t <+: c :: p then some (c :: p) else find t p

section Tokens

variable {t p q : List α} {c : α}

theorem tokens_skip (t x p : List α) : tokens t x.length (x ++ p) = tokens t 0 p := by
  induction x with
  | nil => rfl
  | cons c x ih => exact ih

theorem tokens_match (ht : t ≠ []) (p : List α) : tokens t 0 (t ++ p) = none :: tokens t 0 p := by
  cases t with
  | nil => exact absurd rfl ht
  | cons c t =>
    rw [cons_append, tokens, if_pos (by rw [← cons_append]; exact prefix_append _ _)]
    rw [length_cons, Nat.add_sub_cancel, tokens_skip]

theorem tokens_value (h : ¬ t <+: c :: p) : tokens t 0 (c :: p) = some c :: tokens t 0 p := by
  rw [tokens, if_neg h]

theorem text_induction (ht : t ≠ []) {motive : List α → Prop} (nil : motive [])
    (matched : ∀ p, motive p → motive (t ++ p))
    (value : ∀ c p, ¬ t <+: c :: p → motive p → motive (c :: p)) : ∀ p, motive p
  | [] => nil
  | c :: p => by
    by_cases h : t <+: c :: p
    · obtain ⟨q, hq⟩ := h
      have hlen : q.length < (c :: p).length := by
        have hpos := length_pos_of_ne_nil ht
        rw [← hq, length_append]
        omega
      rw [← hq]
      exact matched q (text_induction ht nil matched value q)
    · exact value c p h (text_induction ht nil matched value p)
  termination_by p => p.length
  decreasing_by
    · exact hlen
    · exact Nat.lt_succ_self _

theorem render_tokens (ht : t ≠ []) (p : List α) : render t (tokens t 0 p) = p := by
  induction p using text_induction ht with
  | nil => rfl
  | matched p ih => rw [tokens_match ht, render_match, ih]
  | value c p h ih => rw [tokens_value h, render_value, ih]

theorem count_tokens (ht : t ≠ []) (p : List α) : (tokens t 0 p).count none =
    match find t p with
    | some q => (tokens t 0 (q.drop t.length)).count none + 1
    | none => 0 := by
  induction p using text_induction ht with
  | nil => rw [find, if_neg ht]; rfl
  | matched p _ =>
    have hfind : find t (t ++ p) = some (t ++ p) := by
      cases t with
      | nil => exact absurd rfl ht
      | cons c t =>
        rw [cons_append, find, if_pos (by rw [← cons_append]; exact prefix_append _ _)]
    rw [hfind, tokens_match ht, count_cons_self]
    simp only [drop_left]
  | value c p h ih =>
    have hne : (some c : Option α) ≠ none := some_ne_none c
    rw [find, if_neg h, tokens_value h, count_cons_of_ne hne, ih]

theorem find_suffix {q : List α} : ∀ {p : List α}, find t p = some q → q <:+ p ∧ t <+: q
  | [], h => by
    rw [find] at h
    split at h
    · next ht => cases h; subst ht; exact ⟨suffix_rfl, prefix_rfl⟩
    · cases h
  | c :: p, h => by
    rw [find] at h
    split at h
    · next ht => cases h; exact ⟨suffix_rfl, ht⟩
    · exact ⟨(find_suffix h).1.trans (suffix_cons c p), (find_suffix h).2⟩

end Tokens

end Replace
