import Awtk.Tkc.CStr

/-!
# Wildcards

`tk_wild_card_match` reads the pattern and the string once, from the left to the right.  Behind a
`*` it goes on at the first place of the character that follows the `*` in the pattern, and it never
comes back to another place.
-/

namespace Awtk

open List

/-- The loop that looks for the character behind a `*`. -/
def skipTo (c : UInt8) (s : Str) : Str := s.dropWhile (· ≠ c)

/-- `tk_wild_card_match`.  The string or the pattern that has been read is empty. -/
def wildCardMatch : Str → Str → Bool
  | [], s => s.isEmpty
  | c :: _, [] => c = '*'
  | c :: p, d :: s =>
    if c = '*' then
      match p with
      | [] => true
      | e :: p => wildCardMatch (e :: p) (skipTo e (d :: s))
    else if c = '?' then wildCardMatch p s
    else if c ≠ d then false
    else wildCardMatch p s

namespace WildCard

/-- The language of a pattern. -/
inductive Matches : Str → Str → Prop where
  | nil : Matches [] []
  | star {p s t : Str} : t <:+ s → Matches p t → Matches ('*' :: p) s
  | any {p s : Str} (d : UInt8) : Matches p s → Matches ('?' :: p) (d :: s)
  | char {c : UInt8} {p s : Str} : c ≠ '*' → c ≠ '?' → Matches p s → Matches (c :: p) (c :: s)

/-- The string ends where the pattern has a `*` with more than `*` behind it. -/
def RunsOut : Str → Str → Prop
  | [], _ => False
  | c :: p, [] => c = '*' ∧ ∃ e ∈ p, e ≠ '*'
  | c :: p, d :: s =>
    if c = '*' then
      match p with
      | [] => False
      | e :: p => RunsOut (e :: p) (skipTo e (d :: s))
    else (c = '?' ∨ c = d) ∧ RunsOut p s

/-- At a `*` the rest of the pattern matches behind other places of the string, and not behind the
one that is taken. -/
def Misses : Str → Str → Prop
  | c :: p, d :: s =>
    if c = '*' then
      match p with
      | [] => False
      | e :: p =>
        Matches ('*' :: e :: p) (d :: s) ∧ ¬ Matches (e :: p) (skipTo e (d :: s)) ∨
          Misses (e :: p) (skipTo e (d :: s))
    else (c = '?' ∨ c = d) ∧ Misses p s
  | _, _ => False

variable {p s : Str} {c d : UInt8}

/-! ## The language -/

theorem matches_nil : Matches [] s ↔ s = [] := by
  constructor
  · intro h
    cases h
    rfl
  · rintro rfl
    exact .nil

theorem Matches.allStars (h : ∀ e ∈ p, e = '*') (hp : p ≠ []) (s : Str) : Matches p s := by
  induction p with
  | nil => exact absurd rfl hp
  | cons e p ih =>
    obtain rfl := h e mem_cons_self
    cases p with
    | nil => exact .star nil_suffix .nil
    | cons e p =>
      have hrest := fun c hc => h c (mem_cons_of_mem _ hc)
      exact .star suffix_rfl (ih hrest (cons_ne_nil _ _))

theorem matches_any (hc : c ≠ '*') :
    Matches (c :: p) (d :: s) ↔ (c = '?' ∨ c = d) ∧ Matches p s := by
  constructor
  · intro h
    cases h with
    | star => exact absurd rfl hc
    | any _ h => exact ⟨.inl rfl, h⟩
    | char _ _ h => exact ⟨.inr rfl, h⟩
  · rintro ⟨hcd, h⟩
    by_cases hq : c = '?'
    · exact hq ▸ .any d h
    · obtain rfl := hcd.resolve_left hq
      exact .char hc hq h

/-- A pattern needs a character for each of its own that is no `*`. -/
theorem Matches.length_le (h : Matches p s) :
    (p.filter fun c => c ≠ ('*' : UInt8)).length ≤ s.length := by
  induction h with
  | nil => exact Nat.le_refl _
  | star ht _ ih =>
    rw [filter_cons_of_neg (by simp)]
    exact ih.trans ht.length_le
  | any d _ ih =>
    rw [filter_cons_of_pos (by decide)]
    exact Nat.succ_le_succ ih
  | char hc _ _ ih =>
    rw [filter_cons_of_pos (by simpa using hc)]
    exact Nat.succ_le_succ ih

/-- What matches behind the place that is taken matches behind the `*`. -/
theorem Matches.skipTo {e : UInt8} (h : Matches p (skipTo e s)) : Matches ('*' :: p) s :=
  .star (dropWhile_suffix _) h

/-! ## The scan -/

/-- The answer is that of the language but for the two ways in which the scan goes wrong. -/
structure Scanned (p s : Str) : Prop where
  accepts : RunsOut p s → wildCardMatch p s = true
  matched : Misses p s → Matches p s
  sound : wildCardMatch p s = true → ¬ RunsOut p s → Matches p s ∧ ¬ Misses p s
  complete : Matches p s → ¬ Misses p s → wildCardMatch p s = true ∧ ¬ RunsOut p s

theorem wildCardMatch_char (hc : c ≠ '*') : wildCardMatch (c :: p) (d :: s) = true ↔
    (c = '?' ∨ c = d) ∧ wildCardMatch p s = true := by
  cases p with
  | nil => grind [wildCardMatch]
  | cons e p => grind [wildCardMatch]

theorem runsOut_char (hc : c ≠ '*') :
    RunsOut (c :: p) (d :: s) ↔ (c = '?' ∨ c = d) ∧ RunsOut p s := by
  cases p with
  | nil => simp [RunsOut, hc]
  | cons e p => simp [RunsOut, hc]

theorem misses_char (hc : c ≠ '*') : Misses (c :: p) (d :: s) ↔ (c = '?' ∨ c = d) ∧ Misses p s := by
  cases p with
  | nil => simp [Misses, hc]
  | cons e p => simp [Misses, hc]

theorem Scanned.char (h : Scanned p s) (hc : c ≠ '*') : Scanned (c :: p) (d :: s) := by
  constructor
  all_goals simp only [wildCardMatch_char hc, runsOut_char hc, misses_char hc, matches_any hc]
  · exact fun hout => ⟨hout.1, h.accepts hout.2⟩
  · exact fun hmiss => ⟨hmiss.1, h.matched hmiss.2⟩
  · exact fun hcode hout => by simpa [hcode.1] using h.sound hcode.2 fun hr => hout ⟨hcode.1, hr⟩
  · exact fun hm hmiss => by simpa [hm.1] using h.complete hm.2 fun hr => hmiss ⟨hm.1, hr⟩

/-- Whatever the scan takes behind a `*`, it takes a match of the whole pattern. -/
theorem Scanned.star {e : UInt8} (h : Scanned (e :: p) (skipTo e (d :: s))) :
    Scanned ('*' :: e :: p) (d :: s) := by
  have hcode : wildCardMatch ('*' :: e :: p) (d :: s) =
      wildCardMatch (e :: p) (skipTo e (d :: s)) := by
    simp [wildCardMatch]
  constructor
  all_goals simp only [hcode, RunsOut, Misses, if_pos]
  · exact h.accepts
  · exact fun hmiss => hmiss.elim And.left fun hmiss => (h.matched hmiss).skipTo
  · intro ht hout
    obtain ⟨hm, hmiss⟩ := h.sound ht hout
    exact ⟨hm.skipTo, fun hor => hor.elim (fun hlost => hlost.2 hm) hmiss⟩
  · intro hm hmiss
    rw [not_or, not_and_not_right] at hmiss
    exact h.complete (hmiss.1 hm) hmiss.2

theorem not_matches_nil (hp : ∃ e ∈ p, e ≠ '*') : ¬ Matches p [] := by
  intro h
  obtain ⟨e, he, hne⟩ := hp
  have hpos := length_pos_of_mem (mem_filter (p := fun c => c ≠ ('*' : UInt8)).mpr
    ⟨he, decide_eq_true hne⟩)
  exact absurd h.length_le (Nat.not_le.mpr hpos)

theorem Scanned.nil (c : UInt8) (p : Str) : Scanned (c :: p) [] := by
  have hcode : wildCardMatch (c :: p) [] = true ↔ c = '*' := by simp [wildCardMatch]
  have hmiss : ¬ Misses (c :: p) [] := by simp [Misses]
  refine ⟨fun h => hcode.mpr h.1, fun h => absurd h hmiss, fun h hout => ⟨?_, hmiss⟩, fun h _ => ?_⟩
  · obtain rfl := hcode.mp h
    refine .allStars (forall_mem_cons.mpr ⟨rfl, fun e he => ?_⟩) (cons_ne_nil _ _) _
    by_contra hne
    exact hout ⟨rfl, e, he, hne⟩
  · have hall (hp : ∃ e ∈ c :: p, e ≠ '*') : False := not_matches_nil hp h
    have hc : c = '*' := by
      by_contra hc
      exact hall ⟨c, mem_cons_self, hc⟩
    refine ⟨hcode.mpr hc, fun hout => ?_⟩
    obtain ⟨e, he, hne⟩ := hout.2
    exact hall ⟨e, mem_cons_of_mem _ he, hne⟩

theorem scanned (p s : Str) : Scanned p s := by
  induction p generalizing s with
  | nil =>
    have hiff : wildCardMatch [] s = true ↔ Matches [] s := by simp [wildCardMatch, matches_nil]
    have hmiss : ¬ Misses [] s := by cases s <;> exact id
    exact ⟨False.elim, fun h => absurd h hmiss, fun h _ => ⟨hiff.mp h, hmiss⟩,
      fun h _ => ⟨hiff.mpr h, id⟩⟩
  | cons c p ih =>
    cases s with
    | nil => exact .nil c p
    | cons d s =>
      by_cases hc : c = '*'
      · subst hc
        cases p with
        | nil =>
          have hm : Matches ['*'] (d :: s) := .allStars (by simp) (by simp) _
          exact ⟨by simp [RunsOut], by simp [Misses], fun _ _ => ⟨hm, by simp [Misses]⟩,
            fun _ _ => ⟨rfl, by simp [RunsOut]⟩⟩
        | cons e p => exact .star (ih _)
      · exact .char (ih s) hc

theorem agrees_iff (p s : Str) :
    (wildCardMatch p s = true ↔ Matches p s) ↔ (RunsOut p s ↔ Misses p s) := by
  have h := scanned p s
  constructor
  · intro hiff
    constructor
    · intro hout
      by_contra hmiss
      exact (h.complete (hiff.mp (h.accepts hout)) hmiss).2 hout
    · intro hmiss
      by_contra hout
      exact (h.sound (hiff.mpr (h.matched hmiss)) hout).2 hmiss
  · intro hiff
    by_cases hout : RunsOut p s
    · exact ⟨fun _ => h.matched (hiff.mp hout), fun _ => h.accepts hout⟩
    · have hmiss := mt hiff.mpr hout
      exact ⟨fun hm => (h.sound hm hout).1, fun hm => (h.complete hm hmiss).1⟩

/-! ## Patterns -/

theorem right_of_allStars (hp : ∀ e ∈ p, e = '*') (s : Str) : ¬ RunsOut p s ∧ ¬ Misses p s := by
  induction p generalizing s with
  | nil => exact ⟨id, by cases s <;> exact id⟩
  | cons c p ih =>
    obtain ⟨rfl, hrest⟩ := forall_mem_cons.mp hp
    cases s with
    | nil => exact ⟨fun h => h.2.elim fun e he => he.2 (hrest e he.1), id⟩
    | cons d s =>
      cases p with
      | nil => simp [RunsOut, Misses]
      | cons e p =>
        have hm := Matches.allStars hrest (cons_ne_nil _ _) (skipTo e (d :: s))
        simpa [RunsOut, Misses, hm] using ih hrest _

/-- A pattern is right for every string exactly if nothing but `*` stands behind a `*`. -/
theorem right_for_all_iff (p : Str) : (∀ s, wildCardMatch p s = true ↔ Matches p s) ↔
    p.Pairwise fun (c e : UInt8) => c = '*' → e = '*' := by
  simp only [agrees_iff]
  induction p with
  | nil => exact iff_of_true (fun s => iff_of_false id (by cases s <;> exact id)) .nil
  | cons c p ih =>
    rw [pairwise_cons]
    constructor
    · intro h
      have hrest : ∀ e ∈ p, c = '*' → e = '*' := fun e he hc => by
        by_contra hne
        exact (h []).mp ⟨hc, e, he, hne⟩
      refine ⟨hrest, ?_⟩
      by_cases hc : c = '*'
      · exact pairwise_of_forall_mem_list fun _ _ e he _ => hrest e he hc
      · refine ih.mp fun s => ?_
        simpa [runsOut_char hc, misses_char hc] using h (c :: s)
    · rintro ⟨hrest, hp⟩ s
      by_cases hc : c = '*'
      · have h := right_of_allStars (forall_mem_cons.mpr ⟨hc, fun e he => hrest e he hc⟩) s
        exact iff_of_false h.1 h.2
      · cases s with
        | nil => exact iff_of_false (fun h => hc h.1) id
        | cons d s => rw [runsOut_char hc, misses_char hc, ih.mpr hp s]

/-- When the answer is that of the language, for a string and for all strings. -/
theorem wildCardMatch_iff (p : Str) :
    (∀ s, (wildCardMatch p s = true ↔ Matches p s) ↔ (RunsOut p s ↔ Misses p s)) ∧
      ((∀ s, wildCardMatch p s = true ↔ Matches p s) ↔
        p.Pairwise fun (c e : UInt8) => c = '*' → e = '*') :=
  ⟨agrees_iff p, right_for_all_iff p⟩

/-- The pattern `*c` and the string `cc`. -/
theorem wildCardMatch_misses :
    ¬ (wildCardMatch ['*', 'c'] ['c', 'c'] = true ↔ Matches ['*', 'c'] ['c', 'c']) := by
  intro h
  have hm : Matches ['*', 'c'] ['c', 'c'] :=
    .star (t := ['c']) ⟨['c'], rfl⟩ (.char (by decide) (by decide) .nil)
  exact absurd (h.mpr hm) (by decide)

end WildCard

end Awtk
