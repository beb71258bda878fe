import Awtk.Tkc.PathNormalize

/-!
# Paths below a root

`path_abs_normalize_with_root` compares characters.  The name it gives back is below the root
unless it goes on behind the text of the root with a character of a name, as that of a
sibling does whose name is longer.
-/

namespace Awtk.Path

open List Option

set_option maxRecDepth 2048

/-! ## Texts and names -/

/-- The first component of a path, which tells if it is absolute, and its names. -/
def pathNames (path : Str) : List Str :=
  match components path with
  | [] => []
  | root :: ws => root :: ws.filter (· ≠ [])

/-- A path is a root or has its components in front. -/
def Inside (root path : Str) : Prop := pathNames root <+: pathNames path

instance (root path : Str) : Decidable (Inside root path) :=
  inferInstanceAs (Decidable (pathNames root <+: pathNames path))

section Names

variable {s t u w v root : Str} {ws more : List Str} {a c : UInt8}

theorem components_append_sep (hc : isPathSep c = true) (u t : Str) :
    components (u ++ c :: t) = components u ++ components t := by
  induction u with
  | nil => exact components_cons_sep hc t
  | cons b u ih =>
    rw [cons_append, components, components, ih]
    split
    · rfl
    · cases hu : components u with
      | nil => exact absurd hu (components_ne_nil u)
      | cons w ws => rfl

theorem components_append_name (hfree : ∀ c ∈ w, isPathSep c = false)
    (ht : components t = v :: more) : components (w ++ t) = (w ++ v) :: more := by
  induction w with
  | nil => exact ht
  | cons b w ih =>
    rw [forall_mem_cons] at hfree
    rw [cons_append, components, hfree.1, ih hfree.2]
    rfl

theorem eq_append_name (s : Str) :
    (∀ c ∈ s, isPathSep c = false) ∨
      ∃ u c w, s = u ++ c :: w ∧ isPathSep c = true ∧ ∀ c ∈ w, isPathSep c = false := by
  induction s with
  | nil => exact .inl fun c hc => absurd hc not_mem_nil
  | cons b s ih =>
    rcases ih with hfree | ⟨u, c, w, rfl, hc, hfree⟩
    · cases hb : isPathSep b with
      | true => exact .inr ⟨[], b, s, rfl, hb, hfree⟩
      | false => exact .inl (forall_mem_cons.mpr ⟨hb, hfree⟩)
    · exact .inr ⟨b :: u, c, w, rfl, hc, hfree⟩

theorem pathNames_append_sep (hc : isPathSep c = true) (u t : Str) :
    pathNames (u ++ c :: t) = pathNames u ++ (components t).filter (· ≠ []) := by
  rw [pathNames, pathNames, components_append_sep hc]
  cases hu : components u with
  | nil => exact absurd hu (components_ne_nil u)
  | cons r ws => simp

theorem inside_sep (ha : isPathSep a = true) (root t : Str) : Inside root (root ++ a :: t) := by
  rw [Inside, pathNames_append_sep ha]
  exact prefix_append _ _

theorem inside_dir (hc : isPathSep c = true) (u t : Str) : Inside (u ++ [c]) (u ++ [c] ++ t) := by
  rw [Inside, append_assoc, pathNames_append_sep hc, singleton_append,
    pathNames_append_sep hc]
  simp [components]

theorem not_inside_name (ha : isPathSep a = false)
    (hroot : ∀ c, root.getLast? = some c → isPathSep c = false) (t : Str) :
    ¬ Inside root (root ++ a :: t) := by
  cases ht : components (a :: t) with
  | nil => exact absurd ht (components_ne_nil _)
  | cons v more =>
    have hv : v ≠ [] := by
      rintro rfl
      rw [components, ha] at ht
      simp only [Bool.false_eq_true, if_false] at ht
      split at ht <;> simp at ht
    have hgoes (w : Str) : ¬ [w] <+: (w ++ v) :: more.filter (· ≠ []) := by
      intro h
      have hw := (cons_prefix_cons.mp h).1
      exact hv (append_right_eq_self.mp hw.symm)
    rcases eq_append_name root with hfree | ⟨u, c, w, rfl, hc, hfree⟩
    · rw [Inside, pathNames, pathNames, components_append_name hfree ht, components_name hfree]
      exact hgoes root
    · have hw : w ≠ [] := by
        rintro rfl
        rw [hroot c (by simp)] at hc
        cases hc
      rw [Inside, append_assoc, cons_append, pathNames_append_sep hc,
        pathNames_append_sep hc, components_append_name hfree ht, components_name hfree,
        prefix_append_right_inj]
      simp [hw, hv]

end Names

/-- A text goes on behind that of a root with a character of a name. -/
def GoesOn (root path : Str) : Prop :=
  ∃ a t, path = root ++ a :: t ∧ isPathSep a = false ∧
    ∀ c, root.getLast? = some c → isPathSep c = false

theorem inside_iff {root path : Str} (h : root <+: path) : Inside root path ↔ ¬ GoesOn root path := by
  obtain ⟨t, rfl⟩ := h
  constructor
  · rintro hinside ⟨a, t', heq, ha, hroot⟩
    rw [heq] at hinside
    exact not_inside_name ha hroot t' hinside
  · intro hnot
    cases t with
    | nil =>
      rw [append_nil]
      exact prefix_refl _
    | cons a t =>
      cases ha : isPathSep a with
      | true => exact inside_sep ha root t
      | false =>
        by_cases hroot : ∀ c, root.getLast? = some c → isPathSep c = false
        · exact absurd ⟨a, t, rfl, ha, hroot⟩ hnot
        · obtain ⟨c, hc, hsep⟩ : ∃ c, root.getLast? = some c ∧ isPathSep c = true := by
            simpa using hroot
          obtain ⟨u, rfl⟩ := getLast?_eq_some_iff.mp hc
          exact inside_dir hsep u (a :: t)

/-! ## The root of a file name -/

section Root

variable (sys : System) (maxPath : Nat) (cwd : Option Str) (root relFilename : Str)

/-- What is called returns, and what it gives back is below the root. -/
def StaysInside : Prop :=
  pathAbsNormalizeWithRoot sys maxPath cwd root relFilename ≠ .fault ∧
    ∀ absRoot filename, pathAbsNormalize sys maxPath cwd root = .result (some absRoot) →
      pathAbsNormalizeWithRoot sys maxPath cwd root relFilename = .result (some filename) →
      Inside absRoot filename

/-- The root and the joined path are normalised without a write in front of the buffer, and the
joined path does not go on behind the text of the root. -/
def NoSibling : Prop :=
  pathAbsNormalize sys maxPath cwd root ≠ .fault ∧
    ∀ absRoot path, pathAbsNormalize sys maxPath cwd root = .result (some absRoot) →
      pathBuild sys maxPath [absRoot, relFilename] = some path →
      normalizedFor sys maxPath path ≠ .fault ∧
        ∀ filename, normalizedFor sys maxPath path = .result (some filename) →
          ¬ GoesOn absRoot filename

theorem pathAbsNormalizeWithRoot_some {absRoot path : Str}
    (hroot : pathAbsNormalize sys maxPath cwd root = .result (some absRoot))
    (hbuild : pathBuild sys maxPath [absRoot, relFilename] = some path) :
    (pathAbsNormalizeWithRoot sys maxPath cwd root relFilename = .fault ↔
      normalizedFor sys maxPath path = .fault) ∧
    ∀ filename, pathAbsNormalizeWithRoot sys maxPath cwd root relFilename = .result (some filename) ↔
      normalizedFor sys maxPath path = .result (some filename) ∧ absRoot <+: filename := by
  rw [pathAbsNormalizeWithRoot, hroot]
  simp only [hbuild]
  cases hname : normalizedFor sys maxPath path with
  | result r =>
    cases r with
    | none => simp
    | some filename =>
      simp only [ isPrefixOf_iff_prefix]
      split
      · next hprefix =>
        refine ⟨by simp, fun f => ?_⟩
        simp only [Outcome.result.injEq, some.injEq]
        constructor
        · rintro rfl
          exact ⟨rfl, hprefix⟩
        · exact And.left
      · next hprefix =>
        refine ⟨by simp, fun f => ?_⟩
        simp only [Outcome.result.injEq, some.injEq, reduceCtorEq, false_iff]
        rintro ⟨rfl, hf⟩
        exact hprefix hf
  | fault => simp
  | running => simp

end Root

/-! ## Siblings -/

end Awtk.Path
