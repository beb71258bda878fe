import Awtk.Tkc.Path

/-!
# Normalised paths

The components of a path are what stands between its separators, and `resolve` follows them
from the root.  `Clean` paths are those without the names that the tests on characters
take for something else: then what `path_normalize` leaves is the text of the components that are
resolved.
-/

namespace Awtk.Path

open List Option

/-! ## Components -/

/-- What stands between the separators of a path. -/
def components : Str → List Str
  | [] => [[]]
  | c :: s =>
    if isPathSep c then [] :: components s
    else
      match components s with
      | [] => [[c]]
      | w :: ws => (c :: w) :: ws

def dot : Str := [('.' : UInt8)]

def dotDot : Str := [('.' : UInt8), ('.' : UInt8)]

/-- The names that are left when components are followed from some names. -/
def resolve : List Str → List Str → List Str
  | names, [] => names
  | names, w :: ws =>
    if w = [] ∨ w = dot then resolve names ws
    else if w = dotDot then resolve names.dropLast ws
    else resolve (names ++ [w]) ws

/-- Names with a separator behind each. -/
def dirText (sys : System) (names : List Str) : Str := names.flatMap (· ++ [sys.pathSep])

/-- The text of names.  That of a directory ends with a separator. -/
def pathText (sys : System) (names : List Str) (dir : Bool) : Str :=
  if dir then dirText sys names else (dirText sys names).dropLast

/-- A path ends as a directory does where nothing or `..` is its last component. -/
def endsAsDir (ws : List Str) : Bool := ws.getLast? = some [] || ws.getLast? = some dotDot

/-- The root is the empty component in front of the first separator, or a drive. -/
def normalized (sys : System) (path : Str) : Str :=
  match components path with
  | [] => []
  | root :: ws => pathText sys (root :: resolve [] ws) (endsAsDir ws)

/-! ## Names with dots -/

/-- Two dots stand side by side. -/
def hasDots : Str → Bool
  | [] => false
  | c :: s => (c = '.' && s.head? = some ('.' : UInt8)) || hasDots s

/-- There are two dots with a character behind them, and none in front of these that end the
name. -/
def refused : Str → Bool
  | [] => false
  | c :: s =>
    if c = '.' ∧ s.head? = some ('.' : UInt8) then 2 ≤ s.length else refused s

/-- A name is read as it is: it has no two dots side by side, and only the last one of a
path ends with a dot. -/
def plain (w : Str) (last : Bool) : Bool :=
  !hasDots w && (last || w.getLast? ≠ some ('.' : UInt8))

/-- What follows so many names, or a name directly: `..` has a name to remove, names are plain
or refused, and a last `.` stands right behind a name. -/
def cleanFrom : Nat → Bool → List Str → Bool
  | _, _, [] => true
  | depth, afterName, w :: ws =>
    if w = [] then cleanFrom depth false ws
    else if w = dot then (!ws.isEmpty || afterName) && cleanFrom depth false ws
    else if w = dotDot then depth ≠ 0 && cleanFrom (depth - 1) false ws
    else refused w || (plain w ws.isEmpty && cleanFrom (depth + 1) true ws)

/-- The components of a path are read as they are. -/
def clean (path : Str) : Bool :=
  match components path with
  | [] => false
  | root :: ws =>
    if root = [] then cleanFrom 0 false ws
    else refused root || (plain root ws.isEmpty && cleanFrom 0 true ws)

/-! ## Lemmas about components -/

section Components

variable {s w : Str} {ws names : List Str} {c : UInt8} {depth : Nat}

theorem components_ne_nil (s : Str) : components s ≠ [] := by
  cases s with
  | nil => simp [components]
  | cons c s =>
    rw [components]
    split
    · simp
    · split <;> simp

theorem components_split (h : components s = w :: ws) :
    (∀ c ∈ w, isPathSep c = false) ∧
      ((ws = [] ∧ s = w) ∨ ∃ c r, isPathSep c = true ∧ s = w ++ c :: r ∧ components r = ws) := by
  induction s generalizing w ws with
  | nil =>
    obtain ⟨rfl, rfl⟩ := List.cons.inj h
    exact ⟨fun c hc => absurd hc not_mem_nil, .inl ⟨rfl, rfl⟩⟩
  | cons c s ih =>
    rw [components] at h
    split at h
    · next hc =>
      obtain ⟨rfl, rfl⟩ := List.cons.inj h
      exact ⟨fun c hc => absurd hc not_mem_nil, .inr ⟨c, s, hc, rfl, rfl⟩⟩
    · next hc =>
      cases hs : components s with
      | nil => exact absurd hs (components_ne_nil s)
      | cons v vs =>
        rw [hs] at h
        obtain ⟨rfl, rfl⟩ := List.cons.inj h
        obtain ⟨hfree, hrest⟩ := ih hs
        refine ⟨forall_mem_cons.mpr ⟨by simpa using hc, hfree⟩, ?_⟩
        rcases hrest with ⟨hnil, heq⟩ | ⟨a, r, ha, heq, hr⟩
        · exact .inl ⟨hnil, by rw [heq]⟩
        · exact .inr ⟨a, r, ha, by rw [heq, cons_append], hr⟩

theorem components_cons_sep (hc : isPathSep c = true) (s : Str) :
    components (c :: s) = [] :: components s := by
  rw [components, if_pos hc]

theorem components_dot : components dot = [dot] := by decide

theorem cleanFrom_afterName (h : cleanFrom depth true ws = true) (hdot : ws ≠ [dot]) :
    cleanFrom depth false ws = true := by
  cases ws with
  | nil => rfl
  | cons w ws =>
    rw [cleanFrom] at h ⊢
    split
    · next hw => simpa [hw] using h
    split
    · next hw hw' =>
      subst hw'
      have hne : ws ≠ [] := by
        rintro rfl
        exact hdot rfl
      simp only [hw, if_false, if_true, Bool.and_eq_true] at h
      simpa [hne] using h.2
    · next hw hw' => simpa [hw, hw'] using h

end Components

/-! ## The turns -/

/-- A text in a buffer of zeros. -/
def pad (size : Nat) (out : Str) : List UInt8 := out ++ List.replicate (size - out.length) 0

/-- What is left of the path and what was written. -/
def norm (size : Nat) (s out : Str) : Norm := ⟨s, out.length, pad size out⟩

section Turns

variable {sys : System} {size : Nat} {s rest out w : Str} {c : UInt8}

theorem pad_set (h : out.length < size) (c : UInt8) :
    (pad size out).set out.length c = pad size (out ++ [c]) := by
  obtain ⟨k, hk⟩ : ∃ k, size - out.length = k + 1 := ⟨size - out.length - 1, by omega⟩
  have hk' : size - (out ++ [c]).length = k := by simp; omega
  rw [pad, pad, hk, hk', set_append_right _ _ (Nat.le_refl _), Nat.sub_self,
    replicate_succ, set_cons_zero, append_assoc]
  rfl

theorem norm_put (h : out.length < size) (c : UInt8) :
    ({ (norm size s out).put c with s := rest } : Norm) = norm size rest (out ++ [c]) := by
  simp [norm, Norm.put, pad_set h]

theorem charAt_last (out : Str) (c : UInt8) : charAt (pad size (out ++ [c])) out.length = c := by
  simp [charAt, pad, getD_eq_getElem?_getD]

theorem turn_end (h : out.length < size) :
    pathNormalizeTurn sys size (norm size [] out) = .done (.ok, pad size out) := by
  rw [pathNormalizeTurn, if_pos (by exact h)]
  rfl

theorem turn_char (sys : System) (h : out.length < size) (hc : isPathSep c = false)
    (hdot : c = '.' → ∀ a, rest.head? = some a → isPathSep a = false ∧ a ≠ '.') :
    pathNormalizeTurn sys size (norm size (c :: rest) out) =
      .next (norm size rest (out ++ [c])) := by
  rw [pathNormalizeTurn, if_pos (by exact h)]
  simp only [norm, hc, Bool.false_eq_true, if_false]
  split
  · next hdot' =>
    cases rest with
    | nil => exact congrArg Turn.next (norm_put h c)
    | cons a rest =>
      obtain ⟨hsep, hne⟩ := hdot hdot' a rfl
      simp only [hsep, hne, Bool.false_eq_true, if_false]
      exact congrArg Turn.next (norm_put h c)
  · exact congrArg Turn.next (norm_put h c)

theorem turn_sepDot (h : out.length < size) (hc : isPathSep c = true) :
    pathNormalizeTurn sys size (norm size (c :: dot) out) = .next (norm size [] out) := by
  rw [pathNormalizeTurn, if_pos (by exact h)]
  simp only [norm, hc, if_true]
  rfl

theorem turn_sep (h : out.length < size) (hc : isPathSep c = true) (hrest : rest ≠ dot)
    (hout : ∀ a, out.getLast? = some a → isPathSep a = false) :
    pathNormalizeTurn sys size (norm size (c :: rest) out) =
      .next (norm size (rest.dropWhile isPathSep) (out ++ [sys.pathSep])) := by
  have hput : out.length = 0 ∨ ¬ isPathSep (charAt (pad size out) (out.length - 1)) = true := by
    rcases eq_nil_or_concat out with rfl | ⟨o, a, rfl⟩
    · exact .inl rfl
    · right
      rw [concat_eq_append] at hout ⊢
      rw [length_append, length_singleton, Nat.add_sub_cancel, charAt_last,
        hout a (by simp)]
      exact Bool.false_ne_true
  rw [pathNormalizeTurn, if_pos (by exact h)]
  have hrest' : ¬ rest = [('.' : UInt8)] := hrest
  simp only [norm, hc, hrest', hput, if_true, if_false]
  exact congrArg Turn.next (norm_put h _)

theorem turn_sepSep (h : (out ++ [c]).length < size) (hc : isPathSep c = true) {a : UInt8}
    (ha : isPathSep a = true) (hrest : rest ≠ dot) :
    pathNormalizeTurn sys size (norm size (a :: rest) (out ++ [c])) =
      .next (norm size (rest.dropWhile isPathSep) (out ++ [c])) := by
  have hput : ¬ ((out ++ [c]).length = 0 ∨
      ¬ isPathSep (charAt (pad size (out ++ [c])) ((out ++ [c]).length - 1)) = true) := by
    rw [length_append, length_singleton, Nat.add_sub_cancel, charAt_last, hc]
    simp
  rw [pathNormalizeTurn, if_pos (by exact h)]
  have hrest' : ¬ rest = [('.' : UInt8)] := hrest
  simp only [norm, ha, hrest', hput, if_true, if_false]

theorem turn_dot (h : out.length < size) (hc : isPathSep c = true) :
    pathNormalizeTurn sys size (norm size (dot ++ c :: rest) out) = .next (norm size rest out) := by
  have hdot : isPathSep '.' = false := by decide
  rw [pathNormalizeTurn, if_pos (by exact h)]
  simp [norm, dot, hdot, hc]

theorem turn_refuse (h : out.length < size) (hc : isPathSep c = false) :
    pathNormalizeTurn sys size (norm size (dotDot ++ c :: rest) out) =
      .done (.fail, pad size out) := by
  have hdot : isPathSep '.' = false := by decide
  rw [pathNormalizeTurn, if_pos (by exact h)]
  simp [norm, dotDot, hdot, hc]

/-! ## Going up -/

theorem cstr_pad (h : (0 : UInt8) ∉ out) : cstr (pad size out) = out := by
  have hall : ∀ c ∈ out, decide (c ≠ 0) = true :=
    fun c hc => decide_eq_true fun h0 : c = 0 => h (h0 ▸ hc)
  rw [cstr, pad, takeWhile_append_of_pos hall]
  cases size - out.length <;> simp

theorem pad_clear (h : out.length < size) (c : UInt8) :
    (pad size (out ++ [c])).set out.length 0 = pad size out := by
  obtain ⟨k, hk⟩ : ∃ k, size - out.length = k + 1 := ⟨size - out.length - 1, by omega⟩
  have hk' : size - (out ++ [c]).length = k := by simp; omega
  rw [pad, pad, hk, hk', append_assoc, set_append_right _ _ (Nat.le_refl _), Nat.sub_self]
  rfl

theorem scanBack_eq {buff : List UInt8} {k n : Nat} (hk : isPathSep (charAt buff k) = true)
    (hn : ∀ j, k < j → j ≤ k + n → isPathSep (charAt buff j) = false) :
    scanBack buff (k + n) = k := by
  induction n with
  | zero =>
    cases k with
    | zero => rfl
    | succ k => rw [Nat.add_zero, scanBack, if_pos hk]
  | succ n ih =>
    have hj := hn (k + n + 1) (by omega) (by omega)
    rw [← Nat.add_assoc, scanBack, hj]
    exact ih fun j hlt hle => hn j hlt (by omega)

/-- The last name and its separator are taken away. -/
theorem pathUp_pad (sys : System) {pre : Str} {c1 c2 : UInt8} (hc1 : isPathSep c1 = true)
    (hc2 : isPathSep c2 = true) (hw : ∀ c ∈ w, isPathSep c = false)
    (hnul : (0 : UInt8) ∉ pre ++ c1 :: w ++ [c2]) (hlen : (pre ++ c1 :: w ++ [c2]).length ≤ size) :
    pathUp sys size (pad size (pre ++ c1 :: w ++ [c2])) =
      some (pad size (pre ++ [sys.pathSep]), pre.length + 1) := by
  have hcount : (pre ++ c1 :: w ++ [c2]).length = pre.length + w.length + 2 := by
    simp only [length_append, length_cons, length_nil]
    omega
  have hpre : (pre ++ c1 :: w).length = pre.length + w.length + 1 := by
    simp only [length_append, length_cons]
    omega
  have hlast : charAt (pad size (pre ++ c1 :: w ++ [c2])) (pre.length + w.length + 1) = c2 := by
    rw [← hpre]
    exact charAt_last _ _
  have hclear : (pad size (pre ++ c1 :: w ++ [c2])).set (pre.length + w.length + 1) 0 =
      pad size (pre ++ c1 :: w) := by
    rw [← hpre]
    exact pad_clear (by omega) c2
  have hsep : charAt (pad size (pre ++ c1 :: w)) pre.length = c1 := by
    simp [charAt, pad, getD_eq_getElem?_getD]
  have hname : ∀ j, pre.length < j → j ≤ pre.length + w.length →
      isPathSep (charAt (pad size (pre ++ c1 :: w)) j) = false := by
    intro j hlt hle
    obtain ⟨i, rfl⟩ : ∃ i, j = pre.length + (i + 1) := ⟨j - pre.length - 1, by omega⟩
    have hi : i < w.length := by omega
    have hget : charAt (pad size (pre ++ c1 :: w)) (pre.length + (i + 1)) = w[i] := by
      rw [charAt, pad, getD_eq_getElem?_getD, append_assoc,
        getElem?_append_right (Nat.le_add_right _ _), Nat.add_sub_cancel_left,
        cons_append, getElem?_cons_succ, getElem?_append_left hi,
        getElem?_eq_getElem hi]
      rfl
    rw [hget]
    exact hw _ (getElem_mem hi)
  have hsep' : isPathSep (charAt (pad size (pre ++ c1 :: w)) pre.length) = true := by
    rw [hsep]
    exact hc1
  have hscan := scanBack_eq hsep' hname
  have htake : ((pad size (pre ++ c1 :: w)).set pre.length sys.pathSep).take (pre.length + 1) =
      pre ++ [sys.pathSep] := by
    rw [pad, append_assoc, set_append_right _ _ (Nat.le_refl _), Nat.sub_self,
      cons_append, set_cons_zero, take_append, take_of_length_le (by omega),
      Nat.add_sub_cancel_left]
    rfl
  have hmin : ¬ min (pre.length + w.length + 2) size = 0 := by omega
  have hfrom : pathUpFrom sys size (pad size (pre ++ c1 :: w)) (pre.length + w.length) =
      (pad size (pre ++ [sys.pathSep]), pre.length + 1) := by
    rw [pathUpFrom]
    simp only [hscan]
    rw [if_neg]
    · rw [htake, pad, length_append, length_singleton, Nat.sub_sub]
    · rintro ⟨hzero, hnot⟩
      rw [hzero] at hsep'
      exact hnot hsep'
  rw [pathUp, cstr_pad hnul, hcount]
  simp only [hmin, if_false, Nat.add_succ_sub_one, hlast, hc2, if_true, hclear, hfrom]

theorem turn_up (sys : System) (size : Nat) {pre : Str} {c1 c2 : UInt8}
    (hc1 : isPathSep c1 = true) (hc2 : isPathSep c2 = true) (hw : ∀ c ∈ w, isPathSep c = false) (hnul : (0 : UInt8) ∉ pre ++ c1 :: w ++ [c2])
    (hlen : (pre ++ c1 :: w ++ [c2]).length < size)
    (hrest : ∀ a, rest.head? = some a → isPathSep a = true) :
    pathNormalizeTurn sys size (norm size (dotDot ++ rest) (pre ++ c1 :: w ++ [c2])) =
      .next (norm size (rest.drop 1) (pre ++ [sys.pathSep])) := by
  have hdot : isPathSep '.' = false := by decide
  have hend : (rest.head?.map isPathSep).getD true = true := by
    cases rest with
    | nil => rfl
    | cons a rest => exact hrest a rfl
  have hup := pathUp_pad sys hc1 hc2 hw hnul hlen.le
  rw [pathNormalizeTurn, if_pos (by exact hlen)]
  simp only [norm, dotDot, cons_append, nil_append, hdot, hend, hup, if_true, if_false,
    Bool.false_eq_true]
  simp

/-! ## Reading a name -/

theorem plain_tail {last : Bool} (h : plain (c :: w) last = true) : plain w last = true := by
  cases w with
  | nil => simp [plain, hasDots]
  | cons a w =>
    simp only [plain, hasDots, Bool.and_eq_true, Bool.not_eq_true', Bool.or_eq_false_iff] at h ⊢
    exact ⟨h.1.2, h.2⟩

theorem reads_plain (sys : System) (size : Nat) (out : Str)
    (hfree : ∀ c ∈ w, isPathSep c = false) (hplain : plain w rest.isEmpty = true)
    (hrest : ∀ a, rest.head? = some a → isPathSep a = true)
    (hlen : out.length + (w ++ rest).length < size) :
    Loop.Reaches (pathNormalizeTurn sys size) (norm size (w ++ rest) out)
      (norm size rest (out ++ w)) := by
  induction w generalizing out with
  | nil =>
    rw [append_nil]
    exact .refl _ _
  | cons c w ih =>
    rw [forall_mem_cons] at hfree
    rw [cons_append, length_cons] at hlen
    have hdot : c = '.' → ∀ a, (w ++ rest).head? = some a → isPathSep a = false ∧ a ≠ '.' := by
      rintro rfl a ha
      cases w with
      | nil =>
        -- The dot would end a name that is not the last one.
        cases rest with
        | nil => cases ha
        | cons b rest => simp [plain] at hplain
      | cons b w =>
        obtain rfl : b = a := some_inj.mp ha
        refine ⟨hfree.2 b mem_cons_self, ?_⟩
        rintro rfl
        simp [plain, hasDots] at hplain
    have hturn := turn_char sys (show out.length < size by omega) hfree.1 hdot
    have hreach := @ih (out ++ [c]) hfree.2 (plain_tail hplain)
      (by rw [length_append, length_singleton]; omega)
    rw [append_assoc, singleton_append] at hreach
    exact hreach.head hturn

theorem ends_refused (hfree : ∀ c ∈ w, isPathSep c = false) (hrefused : refused w = true)
    (hlen : out.length + (w ++ rest).length < size) :
    ∃ b, Loop.Ends (pathNormalizeTurn sys size) (norm size (w ++ rest) out) (.fail, b) := by
  induction w generalizing out with
  | nil => cases hrefused
  | cons c w ih =>
    rw [forall_mem_cons] at hfree
    rw [cons_append, length_cons] at hlen
    rw [refused] at hrefused
    split at hrefused
    · next h =>
      obtain ⟨rfl, hhead⟩ := h
      match w with
      | [] => cases hhead
      | [_] => simp at hrefused
      | b :: a :: w =>
        obtain rfl : b = '.' := some_inj.mp hhead
        have ha : isPathSep a = false := hfree.2 a (by simp)
        exact ⟨_, .done (turn_refuse (by omega) ha)⟩
    · next h =>
      have hdot : c = '.' → ∀ a, (w ++ rest).head? = some a → isPathSep a = false ∧ a ≠ '.' := by
        rintro rfl a ha
        cases w with
        | nil => cases hrefused
        | cons b w =>
          obtain rfl : b = a := some_inj.mp ha
          exact ⟨hfree.2 b mem_cons_self, fun hb => h ⟨rfl, hb ▸ rfl⟩⟩
      obtain ⟨b, hb⟩ := @ih (out ++ [c]) hfree.2 hrefused
        (by rw [length_append, length_singleton]; omega)
      exact ⟨b, hb.of_next (turn_char sys (by omega) hfree.1 hdot)⟩

end Turns

/-! ## Reading a path -/

/-- The loop refuses what is left of the path, or leaves a text with its NUL. -/
def Leaves (sys : System) (size : Nat) (s out : Str) (fails : Bool) (text : Str) : Prop :=
  if fails then ∃ b, Loop.Ends (pathNormalizeTurn sys size) (norm size s out) (.fail, b)
  else
    Loop.Ends (pathNormalizeTurn sys size) (norm size s out) (.ok, pad size text) ∧
      text.length < size ∧ (0 : UInt8) ∉ text

section Leaves

variable {sys : System} {size : Nat} {s rest r out out' text : Str} {ws names : List Str} {c : UInt8}
  {fails : Bool} {root w : Str} {depth : Nat}

theorem Leaves.of_ends (h : Leaves sys size s out fails text)
    (hends : ∀ x, Loop.Ends (pathNormalizeTurn sys size) (norm size s out) x →
      Loop.Ends (pathNormalizeTurn sys size) (norm size rest out') x) :
    Leaves sys size rest out' fails text := by
  cases fails with
  | true =>
    obtain ⟨b, hb⟩ := h
    exact ⟨b, hends _ hb⟩
  | false => exact ⟨hends _ h.1, h.2⟩

theorem leaves_end (hlen : out.length < size) (hnul : (0 : UInt8) ∉ out) :
    Leaves sys size [] out false out :=
  ⟨.done (turn_end hlen), hlen, hnul⟩

theorem isPathSep_pathSep (sys : System) : isPathSep sys.pathSep = true := by
  cases sys <;> rfl

theorem pathSep_ne_zero (sys : System) : sys.pathSep ≠ 0 := by
  cases sys <;> decide

theorem dirText_concat (sys : System) (names : List Str) (w : Str) :
    dirText sys (names ++ [w]) = dirText sys names ++ w ++ [sys.pathSep] := by
  simp [dirText]

theorem pathText_concat (sys : System) (names : List Str) (w : Str) :
    pathText sys (names ++ [w]) false = dirText sys names ++ w := by
  rw [pathText, dirText_concat]
  simp

theorem dirText_eq_append (sys : System) (root : Str) (names : List Str) :
    ∃ pre, dirText sys (root :: names) = pre ++ [sys.pathSep] := by
  rcases eq_nil_or_concat (root :: names) with h | ⟨init, last, h⟩
  · cases h
  · rw [h, concat_eq_append, dirText_concat]
    exact ⟨_, rfl⟩

theorem ends_dropWhile (hc : isPathSep c = true) (hlen : (out ++ [c]).length < size)
    (hclean : cleanFrom depth false (components r) = true) {x : Ret × List UInt8}
    (h : Loop.Ends (pathNormalizeTurn sys size) (norm size r (out ++ [c])) x) :
    Loop.Ends (pathNormalizeTurn sys size) (norm size (r.dropWhile isPathSep) (out ++ [c])) x := by
  cases r with
  | nil => exact h
  | cons a r =>
    by_cases ha : isPathSep a = true
    · have hdot : r ≠ dot := by
        rintro rfl
        rw [components_cons_sep ha, components_dot] at hclean
        simp [cleanFrom, dot] at hclean
      rw [dropWhile_cons_of_pos ha]
      exact h.next (turn_sepSep hlen hc ha hdot)
    · rwa [dropWhile_cons_of_neg ha]

/-- What is behind a component. -/
def Behind (rest : Str) (ws : List Str) : Prop :=
  (ws = [] ∧ rest = []) ∨ ∃ c r, isPathSep c = true ∧ rest = c :: r ∧ components r = ws

theorem Behind.head (h : Behind rest ws) : ∀ a, rest.head? = some a → isPathSep a = true := by
  rcases h with ⟨-, rfl⟩ | ⟨c, r, hc, rfl, -⟩
  · intro a ha
    cases ha
  · rintro a ⟨⟩
    exact hc

theorem Behind.isEmpty (h : Behind rest ws) : rest.isEmpty = ws.isEmpty := by
  rcases h with ⟨rfl, rfl⟩ | ⟨c, r, hc, rfl, rfl⟩
  · rfl
  · cases hcomp : components r with
    | nil => exact absurd hcomp (components_ne_nil r)
    | cons w ws => rfl

theorem components_behind (h : components s = w :: ws) :
    (∀ c ∈ w, isPathSep c = false) ∧ ∃ rest, s = w ++ rest ∧ Behind rest ws := by
  obtain ⟨hfree, ⟨hnil, rfl⟩ | ⟨c, r, hc, rfl, hr⟩⟩ := components_split h
  · exact ⟨hfree, [], (append_nil s).symm, .inl ⟨hnil, rfl⟩⟩
  · exact ⟨hfree, c :: r, rfl, .inr ⟨c, r, hc, rfl, hr⟩⟩

theorem eq_dot_of_components (h : components r = [dot]) : r = dot := by
  obtain ⟨-, ⟨-, rfl⟩ | ⟨c, t, -, -, ht⟩⟩ := components_split h
  · rfl
  · exact absurd ht (components_ne_nil t)

theorem dirText_eq_pathText (sys : System) (root : Str) (names : List Str) :
    dirText sys (root :: names) = pathText sys (root :: names) false ++ [sys.pathSep] := by
  obtain ⟨pre, hpre⟩ := dirText_eq_append sys root names
  rw [pathText, if_neg Bool.false_ne_true, hpre, dropLast_concat]

/-- Behind a name, when what follows its separators is known. -/
theorem leaves_name (hrest : Behind rest ws)
    (hlast : ∀ a, (pathText sys (root :: names) false).getLast? = some a → isPathSep a = false)
    (hlen : (pathText sys (root :: names) false).length + rest.length < size)
    (hnul : (0 : UInt8) ∉ pathText sys (root :: names) false)
    (hclean : cleanFrom names.length true ws = true)
    (hdir : ∀ c r, rest = c :: r → components r = ws → cleanFrom names.length false ws = true →
      Leaves sys size r (dirText sys (root :: names)) (ws.any refused)
        (pathText sys (root :: resolve names ws) (endsAsDir ws))) :
    Leaves sys size rest (pathText sys (root :: names) false) (ws.any refused)
      (pathText sys (root :: resolve names ws) (endsAsDir ws)) := by
  rcases hrest with ⟨rfl, rfl⟩ | ⟨c, r, hc, rfl, rfl⟩
  · exact leaves_end (by simpa using hlen) hnul
  · rw [length_cons] at hlen
    by_cases hdot : r = dot
    · subst hdot
      have hend : Leaves sys size [] (pathText sys (root :: names) false) false _ :=
        leaves_end (by omega) hnul
      exact hend.of_ends fun x hx => hx.of_next (turn_sepDot (by omega) hc)
    · have hclean' := cleanFrom_afterName hclean fun h => hdot (eq_dot_of_components h)
      refine (hdir c r rfl rfl hclean').of_ends fun x hx => ?_
      rw [dirText_eq_pathText] at hx
      refine (ends_dropWhile (isPathSep_pathSep sys) ?_ hclean' hx).of_next
        (turn_sep (by omega) hc hdot hlast)
      rw [length_append, length_singleton]
      omega

theorem getLast_name (hne : w ≠ []) (hfree : ∀ c ∈ w, isPathSep c = false) (out : Str) :
    ∀ a, (out ++ w).getLast? = some a → isPathSep a = false := by
  intro a ha
  rw [getLast?_append_of_ne_nil _ hne] at ha
  exact hfree a (mem_of_getLast? ha)

theorem cleanFrom_dot (depth : Nat) : cleanFrom depth false [dot] = false := by
  simp [cleanFrom, dot]

theorem endsAsDir_cons (w : Str) (hne : ws ≠ []) : endsAsDir (w :: ws) = endsAsDir ws := by
  rw [endsAsDir, endsAsDir, getLast?_cons_of_ne_nil hne]

theorem not_mem_tail {t : Str} (h : (0 : UInt8) ∉ out ++ (w ++ c :: t)) :
    (0 : UInt8) ∉ out ++ t := by
  simp only [mem_append, mem_cons, not_or] at h ⊢
  exact ⟨h.1, h.2.2.2⟩

/-- What the loop leaves behind a directory: by the length of what is still to be read. -/
theorem leaves_dir {names : List Str} (s : Str)
    (hnames : ∀ w ∈ names, ∀ c ∈ w, isPathSep c = false)
    (hnul : (0 : UInt8) ∉ dirText sys (root :: names) ++ s)
    (hlen : (dirText sys (root :: names)).length + s.length < size)
    (hclean : cleanFrom names.length false (components s) = true) :
    Leaves sys size s (dirText sys (root :: names)) ((components s).any refused)
      (pathText sys (root :: resolve names (components s)) (endsAsDir (components s))) := by
  cases hcomp : components s with
  | nil => exact absurd hcomp (components_ne_nil s)
  | cons w ws =>
    rw [hcomp, cleanFrom] at hclean
    obtain ⟨hfree, rest, rfl, hbehind⟩ := components_behind hcomp
    obtain ⟨pre, hpre⟩ := dirText_eq_append sys root names
    rw [length_append] at hlen
    split at hclean
    · next hw =>
      subst hw
      rcases hbehind with ⟨rfl, rfl⟩ | ⟨c, r, hc, rfl, rfl⟩
      · exact leaves_end (by simpa using hlen) (by simpa using hnul)
      · have hdot : r ≠ dot := by
          rintro rfl
          rw [components_dot, cleanFrom_dot] at hclean
          cases hclean
        rw [length_cons] at hlen
        have hrest := leaves_dir r hnames (not_mem_tail hnul) (by omega) hclean
        rw [endsAsDir_cons _ (components_ne_nil r)]
        refine hrest.of_ends fun x hx => ?_
        rw [hpre] at hx hlen ⊢
        exact (ends_dropWhile (isPathSep_pathSep sys) (by omega) hclean hx).of_next
          (turn_sepSep (by omega) (isPathSep_pathSep sys) hc hdot)
    split at hclean
    · next hw =>
      subst hw
      rcases hbehind with ⟨rfl, rfl⟩ | ⟨c, r, hc, rfl, rfl⟩
      · simp at hclean
      · rw [Bool.and_eq_true] at hclean
        rw [length_cons] at hlen
        have hrest := leaves_dir r hnames (not_mem_tail hnul) (by omega) hclean.2
        rw [endsAsDir_cons _ (components_ne_nil r)]
        exact hrest.of_ends fun x hx => hx.of_next (turn_dot (by omega) hc)
    split at hclean
    · next hw =>
      subst hw
      rw [Bool.and_eq_true, decide_eq_true_eq] at hclean
      rcases eq_nil_or_concat names with rfl | ⟨init, v, rfl⟩
      · exact absurd rfl hclean.1
      rw [concat_eq_append] at hclean hnames hnul hlen ⊢
      obtain ⟨up, hup⟩ := dirText_eq_append sys root init
      have hout : dirText sys (root :: (init ++ [v])) =
          up ++ sys.pathSep :: v ++ [sys.pathSep] := by
        rw [← cons_append, dirText_concat, hup]
        simp
      have hturn := turn_up sys size (isPathSep_pathSep sys)
        (isPathSep_pathSep sys) (hnames v (by simp))
        (fun h0 => hnul (mem_append_left _ (hout ▸ h0))) (hout ▸ (by omega)) hbehind.head
      rw [← hout, ← hup] at hturn
      have hinit : ∀ w ∈ init, ∀ c ∈ w, isPathSep c = false :=
        fun w hw => hnames w (mem_append_left _ hw)
      have hresolve : resolve (init ++ [v]) (dotDot :: ws) = resolve init ws := by
        simp [resolve, dotDot, dot]
      rw [any_cons, hresolve]
      have hless : (dirText sys (root :: init)).length < size := by
        rw [hout] at hlen
        rw [hup]
        simp only [length_append, length_cons, length_nil] at hlen ⊢
        omega
      rcases hbehind with ⟨rfl, rfl⟩ | ⟨c, r, hc, rfl, rfl⟩
      · have hnul' : (0 : UInt8) ∉ dirText sys (root :: init) := by
          rw [hup]
          simp only [hout, mem_append, mem_cons, not_or] at hnul ⊢
          exact ⟨hnul.1.1.1, hnul.1.2⟩
        have hend : Leaves sys size [] (dirText sys (root :: init)) false _ :=
          leaves_end hless hnul'
        exact hend.of_ends fun x hx => hx.of_next hturn
      · have hnul' : (0 : UInt8) ∉ dirText sys (root :: init) ++ r := by
          have := not_mem_tail hnul
          rw [hout] at this
          rw [hup]
          simp only [mem_append, mem_cons, not_or] at this ⊢
          exact ⟨⟨this.1.1.1, this.1.2⟩, this.2⟩
        have hlen' : (dirText sys (root :: init)).length + r.length < size := by
          rw [hout] at hlen
          rw [hup]
          simp only [length_append, length_cons, length_nil] at hlen ⊢
          omega
        rw [length_append, length_singleton, Nat.add_sub_cancel] at hclean
        have hrest := leaves_dir r hinit hnul' hlen' hclean.2
        rw [endsAsDir_cons _ (components_ne_nil r)]
        exact hrest.of_ends fun x hx => hx.of_next hturn
    · next hnil hdot hdots =>
      have hresolve : resolve names (w :: ws) = resolve (names ++ [w]) ws := by
        simp [resolve, hnil, hdot, hdots]
      have hlast : endsAsDir (w :: ws) = endsAsDir ws := by
        cases ws with
        | nil => simp [endsAsDir, hnil, hdots]
        | cons v ws => exact endsAsDir_cons w (cons_ne_nil v ws)
      rw [hresolve, hlast, any_cons]
      cases hrefused : refused w with
      | true => exact ends_refused hfree hrefused (by rw [length_append]; omega)
      | false =>
        rw [hrefused, Bool.false_or, Bool.and_eq_true, ← hbehind.isEmpty] at hclean
        have hreach := reads_plain sys size (dirText sys (root :: names)) hfree
          hclean.1 hbehind.head (by rw [length_append]; omega)
        have hnames' : ∀ v ∈ names ++ [w], ∀ c ∈ v, isPathSep c = false := by
          intro v hv
          rcases mem_append.mp hv with hv | hv
          · exact hnames v hv
          · exact mem_singleton.mp hv ▸ hfree
        have htext : pathText sys (root :: (names ++ [w])) false = dirText sys (root :: names) ++ w :=
          pathText_concat sys (root :: names) w
        have hdir : dirText sys (root :: (names ++ [w])) =
            dirText sys (root :: names) ++ w ++ [sys.pathSep] :=
          dirText_concat sys (root :: names) w
        have hcount : (names ++ [w]).length = names.length + 1 := by simp
        have hname : Leaves sys size rest (pathText sys (root :: (names ++ [w])) false)
            (ws.any refused) (pathText sys (root :: resolve (names ++ [w]) ws) (endsAsDir ws)) := by
          refine leaves_name hbehind (htext ▸ getLast_name hnil hfree _) ?_ ?_ (hcount ▸ hclean.2) ?_
          · rw [htext, length_append]
            omega
          · rw [htext]
            simp only [mem_append, not_or] at hnul ⊢
            exact ⟨hnul.1, hnul.2.1⟩
          · rintro c r rfl rfl hclean'
            have hnul' : (0 : UInt8) ∉ dirText sys (root :: (names ++ [w])) ++ r := by
              rw [hdir]
              simp only [mem_append, mem_cons, not_mem_nil, not_or, or_false]
                at hnul ⊢
              exact ⟨⟨⟨hnul.1, hnul.2.1⟩, (pathSep_ne_zero sys).symm⟩, hnul.2.2.2⟩
            rw [length_cons] at hlen
            have hlen' : (dirText sys (root :: (names ++ [w]))).length + r.length < size := by
              rw [hdir]
              simp only [length_append, length_singleton]
              omega
            exact leaves_dir r hnames' hnul' hlen' (hcount ▸ hclean')
        refine hname.of_ends fun x hx => ?_
        rw [htext] at hx
        exact hx.of_reaches hreach
  termination_by s.length

/-- What the loop leaves of a path whose components are read as they are. -/
theorem leaves_clean (sys : System) {path : Str} (hnul : (0 : UInt8) ∉ path)
    (hlen : path.length < size) (hclean : clean path = true) :
    Leaves sys size path [] ((components path).any refused) (normalized sys path) := by
  cases hcomp : components path with
  | nil => exact absurd hcomp (components_ne_nil path)
  | cons root ws =>
    obtain ⟨hfree, rest, rfl, hbehind⟩ := components_behind hcomp
    rw [clean, hcomp] at hclean
    rw [normalized, hcomp]
    simp only at hclean ⊢
    rw [length_append] at hlen
    have hdir : ∀ c r, rest = c :: r → components r = ws → cleanFrom 0 false ws = true →
        Leaves sys size r (dirText sys [root]) (ws.any refused)
          (pathText sys (root :: resolve [] ws) (endsAsDir ws)) := by
      rintro c r rfl rfl hclean'
      have htext : dirText sys [root] = root ++ [sys.pathSep] := by simp [dirText]
      refine leaves_dir r (fun w hw => absurd hw not_mem_nil) ?_ ?_ hclean'
      · rw [htext]
        simp only [mem_append, mem_cons, not_mem_nil, not_or, or_false] at hnul ⊢
        exact ⟨⟨hnul.1, (pathSep_ne_zero sys).symm⟩, hnul.2.2⟩
      · rw [htext, length_append, length_singleton]
        rw [length_cons] at hlen
        omega
    have hroot : pathText sys [root] false = root := by simp [pathText, dirText]
    rw [any_cons]
    split at hclean
    · next hnil =>
      subst hnil
      rcases hbehind with ⟨rfl, rfl⟩ | ⟨c, r, hc, rfl, rfl⟩
      · exact leaves_end (by simpa using hlen) not_mem_nil
      · have hdot : r ≠ dot := by
          rintro rfl
          rw [components_dot, cleanFrom_dot] at hclean
          cases hclean
        rw [length_cons] at hlen
        refine (hdir c r rfl rfl hclean).of_ends fun x hx => ?_
        have hskip : Loop.Ends _ (norm size (r.dropWhile isPathSep) ([] ++ [sys.pathSep])) x :=
          ends_dropWhile (isPathSep_pathSep sys) (by simp; omega) hclean hx
        exact hskip.of_next (turn_sep (by simp; omega) hc hdot (by simp))
    · next hne =>
      cases hrefused : refused root with
      | true => exact ends_refused hfree hrefused (by simpa using hlen)
      | false =>
        rw [hrefused, Bool.false_or, Bool.and_eq_true, ← hbehind.isEmpty] at hclean
        have hreach := reads_plain sys size [] hfree hclean.1
          hbehind.head (by simpa using hlen)
        have hname : Leaves sys size rest (pathText sys [root] false) (ws.any refused)
            (pathText sys (root :: resolve [] ws) (endsAsDir ws)) := by
          refine leaves_name hbehind ?_ (by rw [hroot]; exact hlen) ?_ hclean.2 hdir
          · rw [hroot]
            exact getLast_name hne hfree []
          · rw [hroot]
            exact fun h0 => hnul (mem_append_left _ h0)
        refine hname.of_ends fun x hx => ?_
        rw [hroot] at hx
        exact hx.of_reaches hreach

/-- Each turn reads a character. -/
def pathNormalize_variant (sys : System) (size : Nat) :
    Loop.Variant (pathNormalizeTurn sys size) where
  Inv _ := True
  measure st := st.s.length
  keeps _ _ := trivial
  falls := by
    intro st st' _ h
    have hdrop (s : Str) : (s.dropWhile isPathSep).length ≤ s.length :=
      (dropWhile_sublist _).length_le
    rw [pathNormalizeTurn] at h
    split at h
    · split at h
      · cases h
      · next c rest hs =>
        rw [hs, length_cons]
        split at h
        · split at h
          · cases h
            simp
          · cases h
            exact Nat.lt_succ_of_le (hdrop rest)
        · split at h
          · split at h
            · cases h
              simp
            · next c1 rest1 _ =>
              split at h
              · cases h
                simp only [length_cons]
                omega
              · split at h
                · split at h
                  · split at h
                    · cases h
                      simp
                      omega
                    · cases h
                  · cases h
                · cases h
                  simp
          · cases h
            simp
    · cases h

theorem pathNormalize_leaves (sys : System) {path : Str} (hnul : (0 : UInt8) ∉ path)
    (hlen : path.length < size) (hclean : clean path = true) :
    if (components path).any refused then ∃ b, pathNormalize sys size path = .result (.fail, b)
    else pathNormalize sys size path = .result (.ok, pad size (normalized sys path)) ∧
      (normalized sys path).length < size ∧ (0 : UInt8) ∉ normalized sys path := by
  have hends : pathNormalize sys size path ≠ .running :=
    (pathNormalize_variant sys size).ends trivial (Nat.lt_succ_self _)
  have h := leaves_clean sys hnul hlen hclean
  rw [Leaves] at h
  split
  · next hfails =>
    rw [if_pos hfails] at h
    obtain ⟨b, hb⟩ := h
    exact ⟨b, hb.run hends⟩
  · next hfails =>
    rw [if_neg hfails] at h
    exact ⟨h.1.run hends, h.2⟩

end Leaves

/-! ## Normalising again -/

section Again

variable {sys : System} {names ws : List Str} {w root : Str} {depth : Nat} {b dir : Bool}

/-- A name that is left. -/
structure Name (w : Str) (last : Bool) : Prop where
  nonempty : w ≠ []
  notDot : w ≠ dot
  notDotDot : w ≠ dotDot
  notRefused : refused w = false
  plain : plain w last = true
  free : ∀ c ∈ w, isPathSep c = false

theorem Name.last (h : Name w false) (last : Bool) : Name w last :=
  { h with
    plain := by
      have hplain := h.plain
      simp only [Path.plain, Bool.and_eq_true, Bool.or_eq_true] at hplain ⊢
      exact ⟨hplain.1, .inr (hplain.2.resolve_left Bool.false_ne_true)⟩ }

/-- The names that are left.  The last one may end with a dot, where no separator follows. -/
def Names (names : List Str) (dir : Bool) : Prop :=
  ∀ pre w post, names = pre ++ w :: post → Name w (post.isEmpty && !dir)

theorem Names.of_all (h : ∀ w ∈ names, Name w false) (dir : Bool) : Names names dir := by
  rintro pre w post rfl
  exact (h w (by simp)).last _

theorem Names.concat (h : ∀ v ∈ names, Name v false) (hw : Name w true) :
    Names (names ++ [w]) false := by
  intro pre v post heq
  rcases eq_nil_or_concat post with rfl | ⟨init, last, rfl⟩
  · obtain ⟨rfl, hlast⟩ := append_inj' heq rfl
    obtain rfl := singleton_inj.mp hlast
    exact hw
  · rw [concat_eq_append, ← cons_append, ← append_assoc] at heq
    obtain ⟨rfl, -⟩ := append_inj' heq rfl
    exact (h v (by simp)).last _

theorem names_resolve (hnames : ∀ w ∈ names, Name w false)
    (hfree : ∀ w ∈ ws, ∀ c ∈ w, isPathSep c = false) (hclean : cleanFrom depth b ws = true)
    (hrefused : ws.any refused = false) : Names (resolve names ws) (endsAsDir ws) := by
  induction ws generalizing names depth b with
  | nil => exact .of_all hnames _
  | cons w ws ih =>
    rw [forall_mem_cons] at hfree
    rw [any_cons, Bool.or_eq_false_iff] at hrefused
    have hskip {names depth b} (hnames : ∀ w ∈ names, Name w false)
        (hclean : cleanFrom depth b ws = true) : Names (resolve names ws) (endsAsDir (w :: ws)) := by
      cases ws with
      | nil => exact .of_all hnames _
      | cons v ws =>
        rw [endsAsDir_cons w (cons_ne_nil v ws)]
        exact ih hnames hfree.2 hclean hrefused.2
    rw [cleanFrom] at hclean
    rw [resolve]
    split at hclean
    · next hw =>
      rw [if_pos (.inl hw)]
      exact hskip hnames hclean
    split at hclean
    · next hw =>
      rw [if_pos (.inr hw)]
      rw [Bool.and_eq_true] at hclean
      exact hskip hnames hclean.2
    split at hclean
    · next hnil hdot hw =>
      rw [if_neg (by simp [hnil, hdot]), if_pos hw]
      rw [Bool.and_eq_true] at hclean
      exact hskip (fun w h => hnames w (dropLast_subset _ h)) hclean.2
    · next hnil hdot hw =>
      rw [if_neg (by simp [hnil, hdot]), if_neg hw]
      rw [hrefused.1, Bool.false_or, Bool.and_eq_true] at hclean
      have hname : Name w ws.isEmpty := ⟨hnil, hdot, hw, hrefused.1, hclean.1, hfree.1⟩
      cases ws with
      | nil =>
        have hend : endsAsDir [w] = false := by simp [endsAsDir, hnil, hw]
        rw [hend]
        exact .concat hnames hname
      | cons v ws =>
        refine hskip (fun u hu => ?_) hclean.2
        rcases mem_append.mp hu with hu | hu
        · exact hnames u hu
        · exact mem_singleton.mp hu ▸ hname

theorem components_append {s : Str} (hfree : ∀ c ∈ w, isPathSep c = false) {c : UInt8}
    (hc : isPathSep c = true) : components (w ++ c :: s) = w :: components s := by
  induction w with
  | nil => exact components_cons_sep hc s
  | cons a w ih =>
    rw [forall_mem_cons] at hfree
    rw [cons_append, components, hfree.1, ih hfree.2]
    rfl

theorem components_name (hfree : ∀ c ∈ w, isPathSep c = false) : components w = [w] := by
  induction w with
  | nil => rfl
  | cons a w ih =>
    rw [forall_mem_cons] at hfree
    rw [components, hfree.1, ih hfree.2]
    rfl

/-- The last component of a directory. -/
def dirTail (dir : Bool) : List Str := if dir then [[]] else []

theorem components_pathText (hfree : ∀ w ∈ root :: names, ∀ c ∈ w, isPathSep c = false) :
    components (pathText sys (root :: names) dir) = root :: (names ++ dirTail dir) := by
  induction names generalizing root with
  | nil =>
    have hroot := hfree root mem_cons_self
    cases dir with
    | true =>
      have h := components_append (s := []) hroot (isPathSep_pathSep sys)
      simpa [pathText, dirText, components, dirTail] using h
    | false => simpa [pathText, dirText, dirTail] using components_name hroot
  | cons w names ih =>
    rw [forall_mem_cons] at hfree
    have htext : pathText sys (root :: w :: names) dir =
        root ++ sys.pathSep :: pathText sys (w :: names) dir := by
      cases dir with
      | true => simp [pathText, dirText]
      | false =>
        obtain ⟨pre, hpre⟩ := dirText_eq_append sys w names
        have hcons : dirText sys (root :: w :: names) =
            root ++ sys.pathSep :: dirText sys (w :: names) := by simp [dirText]
        rw [pathText, pathText, if_neg Bool.false_ne_true, if_neg Bool.false_ne_true, hcons, hpre,
          dropLast_concat, ← cons_append, ← append_assoc, dropLast_concat]
    rw [htext, components_append hfree.1 (isPathSep_pathSep sys), ih hfree.2]
    rfl

theorem Names.head (h : Names (w :: names) dir) : Name w (names ++ dirTail dir).isEmpty := by
  have hw := h [] w names rfl
  cases dir <;> cases names <;> exact hw

theorem Names.tail (h : Names (w :: names) dir) : Names names dir := by
  rintro pre v post rfl
  exact h (w :: pre) v post rfl

theorem resolve_names (acc : List Str) (h : Names names dir) :
    resolve acc (names ++ dirTail dir) = acc ++ names := by
  induction names generalizing acc with
  | nil => cases dir <;> simp [resolve, dirTail]
  | cons w names ih =>
    have hw := h.head
    rw [cons_append, resolve, if_neg (by simp [hw.nonempty, hw.notDot]),
      if_neg hw.notDotDot, ih _ h.tail, append_assoc]
    rfl

theorem cleanFrom_names (h : Names names dir) :
    cleanFrom depth b (names ++ dirTail dir) = true := by
  induction names generalizing depth b with
  | nil => cases dir <;> simp [cleanFrom, dirTail]
  | cons w names ih =>
    have hw := h.head
    rw [cons_append, cleanFrom, if_neg hw.nonempty, if_neg hw.notDot, if_neg hw.notDotDot,
      hw.plain, ih h.tail]
    simp

theorem not_refused_names (h : Names names dir) : (names ++ dirTail dir).any refused = false := by
  induction names with
  | nil => cases dir <;> rfl
  | cons w names ih =>
    rw [cons_append, any_cons, h.head.notRefused, ih h.tail]
    rfl

theorem endsAsDir_names (h : Names names dir) : endsAsDir (names ++ dirTail dir) = dir := by
  cases dir with
  | true => simp [dirTail, endsAsDir]
  | false =>
    rcases eq_nil_or_concat names with rfl | ⟨init, last, rfl⟩
    · rfl
    · rw [concat_eq_append] at h ⊢
      have hlast := h init last [] rfl
      simp [dirTail, endsAsDir, hlast.nonempty, hlast.notDotDot]

theorem components_free (s : Str) : ∀ w ∈ components s, ∀ c ∈ w, isPathSep c = false := by
  induction s with
  | nil => simp [components]
  | cons c s ih =>
    rw [components]
    split
    · exact forall_mem_cons.mpr ⟨fun c hc => absurd hc not_mem_nil, ih⟩
    · next hc =>
      have hfalse : isPathSep c = false := by simpa using hc
      cases hcomp : components s with
      | nil => exact absurd hcomp (components_ne_nil s)
      | cons w ws =>
        rw [hcomp, forall_mem_cons] at ih
        exact forall_mem_cons.mpr ⟨forall_mem_cons.mpr ⟨hfalse, ih.1⟩, ih.2⟩

theorem Names.free (h : Names names dir) : ∀ w ∈ names, ∀ c ∈ w, isPathSep c = false := by
  intro w hw
  obtain ⟨pre, post, rfl⟩ := append_of_mem hw
  exact (h pre w post rfl).free

/-- What is left is read as it is, and it is normalised. -/
theorem normalized_again (sys : System) {path : Str} (hclean : clean path = true)
    (hrefused : (components path).any refused = false) :
    clean (normalized sys path) = true ∧
      (components (normalized sys path)).any refused = false ∧
      normalized sys (normalized sys path) = normalized sys path := by
  cases hcomp : components path with
  | nil => exact absurd hcomp (components_ne_nil path)
  | cons root ws =>
    have hfree := components_free path
    rw [hcomp, forall_mem_cons] at hfree
    rw [hcomp, any_cons, Bool.or_eq_false_iff] at hrefused
    rw [clean, hcomp] at hclean
    have hws : ∃ b, cleanFrom 0 b ws = true := by
      simp only at hclean
      split at hclean
      · exact ⟨_, hclean⟩
      · rw [hrefused.1, Bool.false_or, Bool.and_eq_true] at hclean
        exact ⟨_, hclean.2⟩
    obtain ⟨b, hb⟩ := hws
    have hnames : Names (resolve [] ws) (endsAsDir ws) :=
      names_resolve (fun w hw => absurd hw not_mem_nil) hfree.2 hb hrefused.2
    have hleft : components (normalized sys path) =
        root :: (resolve [] ws ++ dirTail (endsAsDir ws)) := by
      rw [normalized, hcomp]
      exact components_pathText (forall_mem_cons.mpr ⟨hfree.1, hnames.free⟩)
    refine ⟨?_, ?_, ?_⟩
    · rw [clean, hleft]
      simp only at hclean ⊢
      split
      · exact cleanFrom_names hnames
      · next hne =>
        rw [if_neg hne, hrefused.1, Bool.false_or, Bool.and_eq_true] at hclean
        rw [cleanFrom_names hnames, Bool.and_true, hrefused.1, Bool.false_or]
        cases ws with
        | nil => exact hclean.1
        | cons w ws =>
          have hplain := hclean.1
          simp only [plain, Bool.and_eq_true, Bool.or_eq_true] at hplain ⊢
          exact ⟨hplain.1, .inr (hplain.2.resolve_left (by simp))⟩
    · rw [hleft, any_cons, hrefused.1, not_refused_names hnames]
      rfl
    · conv_lhs => rw [normalized, hleft]
      simp only
      rw [resolve_names [] hnames, endsAsDir_names hnames, normalized, hcomp]
      rfl

end Again

/-- A path whose components are read as they are is refused for a name with two dots, or the
components are resolved.  The result is inside of the buffer with its NUL, and normalising it again
changes nothing. -/
theorem pathNormalize_clean (sys : System) (size : Nat) (path : Str) (hnul : (0 : UInt8) ∉ path)
    (hsize : path.length < size) (hclean : clean path = true) :
    if (components path).any refused then ∃ b, pathNormalize sys size path = .result (.fail, b)
    else pathNormalize sys size path = .result (.ok, pad size (normalized sys path)) ∧
      (normalized sys path).length < size ∧ cstr (pad size (normalized sys path)) =
        normalized sys path ∧
      ∀ size', (normalized sys path).length < size' →
        pathNormalize sys size' (normalized sys path) =
          .result (.ok, pad size' (normalized sys path)) := by
  have h := pathNormalize_leaves sys hnul hsize hclean
  split
  · next hfails => rwa [if_pos hfails] at h
  · next hfails =>
    rw [if_neg hfails] at h
    obtain ⟨hrun, hlen, hnul'⟩ := h
    have hrefused : (components path).any refused = false := by simpa using hfails
    obtain ⟨hclean', hrefused', hsame⟩ := normalized_again sys hclean hrefused
    refine ⟨hrun, hlen, cstr_pad hnul', fun size' hsize' => ?_⟩
    have hagain := pathNormalize_leaves sys hnul' hsize' hclean'
    rw [hrefused', if_neg Bool.false_ne_true, hsame] at hagain
    exact hagain.1

/-- `/a//./b/../c.d/` -/
def samplePath : Str := [47, 97, 47, 47, 46, 47, 98, 47, 46, 46, 47, 99, 46, 100, 47]

theorem pathNormalize_clean_sample :
    pathNormalize .unix 16 samplePath = .result (.ok, pad 16 (normalized .unix samplePath)) ∧
      normalized .unix samplePath = [47, 97, 47, 99, 46, 100, 47] := by
  have h := pathNormalize_clean .unix 16 samplePath (by decide) (by decide) (by decide +kernel)
  rw [if_neg (by decide +kernel)] at h
  exact ⟨h.1, by decide +kernel⟩

/-- A path of a directory keeps its separator, and a name with two dots in front of another
character is refused.  `..` at the root writes in front of the buffer, and a dot at the end of a
name goes with its separator. -/
theorem pathNormalize_not_joined :
    (¬ ∀ (size : Nat) (path : Str), pathIsAbs path = true → (0 : UInt8) ∉ path → path.length < size →
      pathNormalize .unix size path = .result (.ok, pad size (('/' : UInt8) ::
        List.intercalate [('/' : UInt8)] (resolve [] (components path))))) ∧
    pathNormalize .unix 8 [47, 97, 47] = .result (.ok, pad 8 [47, 97, 47]) ∧
    pathNormalize .unix 8 [47, 46, 46, 97] = .result (.fail, pad 8 [47]) ∧
    pathNormalize .unix 8 [47, 46, 46] = .fault ∧
    pathNormalize .unix 8 [47, 97, 46, 47, 98] = .result (.ok, pad 8 [47, 97, 98]) := by
  refine ⟨fun h => ?_, by decide +kernel, by decide +kernel, by decide +kernel, by decide +kernel⟩
  have hdir := h 8 [47, 97, 47] (by decide) (by decide) (by decide)
  revert hdir
  decide +kernel

end Awtk.Path
