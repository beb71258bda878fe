import Mathlib
import Awtk.Tkc.CStr

/-!
# The tokenizer

`Tokenizer` is `tokenizer_t` without the buffer of the token, which is a result here.  The loops over the
text are `takeWhile` from the cursor on.  `goto` is a tokenizer that has read one part of a text and has
the rest in front of it, and every operation is described as a step between two such tokenizers.
-/

namespace Awtk

open List Option

/-- Whether `strchr` finds a character.  It finds the NUL of every string. -/
def strchr (s : Str) (c : UInt8) : Bool := c == 0 || s.contains c

/-- `tokenizer_t`. -/
structure Tokenizer where
  str : Str
  cursor : Nat
  size : Nat
  separtor : Str
  singleCharToken : Option Str
  deriving DecidableEq

namespace Tokenizer

/-! ## The operations -/

def initEx (str : Str) (size : Nat) (separtor : Str) (singleCharToken : Option Str) : Tokenizer :=
  { str, cursor := 0, size := min (str.length % 2 ^ 32) size, separtor, singleCharToken }

def init (str : Str) (size : Nat) (separtor : Str) : Tokenizer := initEx str size separtor none

variable (t : Tokenizer)

def hasMore : Bool := t.cursor < t.size

/-- The text from the cursor on. -/
def rest : Str := t.str.drop t.cursor

/-- The text from the cursor on, as far as the size goes. -/
def inSize : Str := t.rest.take (t.size - t.cursor)

/-- The character at the cursor, which is the NUL behind the text. -/
def char : UInt8 := t.rest.headD 0

/-- Move the cursor. -/
def advance (n : Nat) : Tokenizer := { t with cursor := t.cursor + n }

/-- The text between two cursors. -/
def token (t' : Tokenizer) : Str := t.rest.take (t'.cursor - t.cursor)

def skipSeparator : Tokenizer := t.advance (t.inSize.takeWhile (strchr t.separtor)).length

def skipNonSeparator : Tokenizer :=
  let singleCharToken := t.singleCharToken.getD []
  t.advance (t.inSize.takeWhile fun c => !strchr t.separtor c && !strchr singleCharToken c).length

/-- `tokenizer_next_until`.  The loop ends at the NUL, which `strchr` finds, not at the size. -/
def nextUntil (str : Str) : Option Str × Tokenizer :=
  let t := t.skipSeparator
  if t.hasMore then
    let t' := t.advance (t.rest.takeWhile fun c => !strchr str c).length
    (some (t.token t'), t'.skipSeparator)
  else (none, t)

def next : Option Str × Tokenizer :=
  let t := t.skipSeparator
  if t.hasMore then
    if t.singleCharToken.any fun s => strchr s t.char then (some (t.rest.take 1), t.advance 1)
    else
      let t' := t.skipNonSeparator
      (some (t.token t'), t'.skipSeparator)
  else (none, t)

def nextStr : Option Str × Tokenizer :=
  let t := t.skipSeparator
  if t.hasMore then
    if t.char = '"' then
      let (ret, t) := (t.advance 1).nextUntil ['"']
      (ret, t.advance 1)
    else if t.char = '\'' then
      let (ret, t) := (t.advance 1).nextUntil ['\'']
      (ret, t.advance 1)
    else t.next
  else (none, t)

/-! ## A tokenizer inside its text -/

variable {done s w r : Str} {sep : Str}

/-- A tokenizer without single characters that has read `done` and has `s` in front of it. -/
def goto (sep done s : Str) : Tokenizer :=
  { str := done ++ s, cursor := done.length, size := (done ++ s).length, separtor := sep
    singleCharToken := none }

@[simp] theorem goto_rest : (goto sep done s).rest = s := drop_left

@[simp] theorem goto_inSize : (goto sep done s).inSize = s := by
  rw [inSize, goto_rest]
  simp [goto]

@[simp] theorem goto_char : (goto sep done s).char = s.headD 0 := by
  rw [char, goto_rest]

@[simp] theorem goto_hasMore : (goto sep done s).hasMore = !s.isEmpty := by
  cases s <;> simp [hasMore, goto]

theorem goto_advance (sep done w r : Str) :
    (goto sep done (w ++ r)).advance w.length = goto sep (done ++ w) r := by
  simp [goto, advance]

@[simp] theorem goto_token (w r : Str) :
    (goto sep done (w ++ r)).token (goto sep (done ++ w) r) = w := by
  rw [token, goto_rest]
  simp [goto]

theorem init_eq (h : s.length < 2 ^ 32) : init s s.length sep = goto sep [] s := by
  rw [init, initEx, Nat.mod_eq_of_lt h, Nat.min_self]
  rfl

theorem takeWhile_word {p : UInt8 → Bool} (hw : ∀ c ∈ w, p c = true)
    (hr : ∀ c ∈ r.head?, p c = false) : (w ++ r).takeWhile p = w := by
  have hstop : r.takeWhile p = [] := by
    cases r with
    | nil => rfl
    | cons c r => rw [takeWhile_cons_of_neg (by simp [hr c rfl])]
  rw [takeWhile_append_of_pos hw, hstop, append_nil]

theorem goto_skipSeparator (done : Str) (hw : ∀ c ∈ w, strchr sep c = true)
    (hr : ∀ c ∈ r.head?, strchr sep c = false) :
    (goto sep done (w ++ r)).skipSeparator = goto sep (done ++ w) r := by
  rw [skipSeparator, goto_inSize]
  change (goto sep done (w ++ r)).advance ((w ++ r).takeWhile (strchr sep)).length = _
  rw [takeWhile_word hw hr, goto_advance]

/-- The text behind its separators. -/
def skipped (sep s : Str) : Str := s.dropWhile (strchr sep)

theorem skipped_head (sep s : Str) : ∀ c ∈ (skipped sep s).head?, strchr sep c = false := by
  intro c hc
  have hnot := head?_dropWhile_not (strchr sep) s
  rw [skipped] at hc
  rw [mem_def.mp hc] at hnot
  simpa using hnot

theorem skipped_eq_iff (sep s : Str) : skipped sep s = s ↔ ∀ c ∈ s.head?, strchr sep c = false := by
  constructor
  · intro h c hc
    rw [← h] at hc
    exact skipped_head sep s c hc
  · intro h
    cases s with
    | nil => rfl
    | cons c s => exact dropWhile_cons_of_neg (by simp [h c rfl])

theorem goto_skip (sep done s : Str) (hr : ∀ c ∈ r.head?, strchr sep c = false) :
    ∃ done', (goto sep done (s ++ r)).skipSeparator = goto sep done' (skipped sep s ++ r) := by
  refine ⟨done ++ s.takeWhile (strchr sep), ?_⟩
  have hsplit : s ++ r = s.takeWhile (strchr sep) ++ (skipped sep s ++ r) := by
    rw [← append_assoc, skipped, takeWhile_append_dropWhile]
  rw [hsplit]
  refine goto_skipSeparator done (fun c hc => mem_takeWhile_imp hc) fun c hc => ?_
  cases hskip : skipped sep s with
  | nil =>
    rw [hskip] at hc
    exact hr c hc
  | cons a s' =>
    rw [hskip] at hc
    exact skipped_head sep s c (by rwa [hskip])

theorem goto_skip_all (sep done s : Str) :
    ∃ done', (goto sep done s).skipSeparator = goto sep done' (skipped sep s) := by
  have hskip := goto_skip (r := []) sep done s (by simp)
  rwa [append_nil, append_nil] at hskip

theorem skipped_append {sp : Str} (hsp : ∀ c ∈ sp, strchr sep c = true) (s : Str) :
    skipped sep (sp ++ s) = skipped sep s :=
  dropWhile_append_of_pos hsp

theorem skipped_all (hs : ∀ c ∈ s, strchr sep c = true) : skipped sep s = [] :=
  dropWhile_eq_nil_iff.mpr hs

theorem skipped_word (hne : w ≠ []) (hw : ∀ c ∈ w, strchr sep c = false) (r : Str) :
    skipped sep (w ++ r) = w ++ r := by
  cases w with
  | nil => exact absurd rfl hne
  | cons a w => exact dropWhile_cons_of_neg (by simp [hw a mem_cons_self])

theorem goto_next (done : Str) (h : skipped sep s = w ++ r) (hne : w ≠ []) (hw : ∀ c ∈ w, strchr sep c = false)
    (hr : ∀ c ∈ r.head?, strchr sep c = true) :
    ∃ done', (goto sep done s).next = (some w, goto sep done' (skipped sep r)) := by
  have hmore : (!(w ++ r).isEmpty) = true := by
    cases w with
    | nil => exact absurd rfl hne
    | cons a w => rfl
  have hkeep : ∀ c ∈ w, (!strchr sep c && !strchr [] c) = true := by
    intro c hc
    have hword := hw c hc
    rw [hword]
    rw [strchr, Bool.or_eq_false_iff] at hword
    simp [strchr, hword.1]
  obtain ⟨done₁, hstart⟩ := goto_skip_all sep done s
  rw [h] at hstart
  have hskip : (goto sep done₁ (w ++ r)).skipNonSeparator = goto sep (done₁ ++ w) r := by
    rw [skipNonSeparator, goto_inSize]
    change (goto sep done₁ (w ++ r)).advance
      ((w ++ r).takeWhile fun c => !strchr sep c && !strchr [] c).length = _
    rw [takeWhile_word hkeep fun c hc => by simp [hr c hc], goto_advance]
  obtain ⟨done', hdone⟩ := goto_skip_all sep (done₁ ++ w) r
  refine ⟨done', ?_⟩
  rw [next, hstart]
  simp only [goto_hasMore, hmore, if_true]
  rw [if_neg (by simp [goto]), hskip, goto_token, hdone]

theorem goto_next_none (done : Str) (h : skipped sep s = []) :
    ∃ t, (goto sep done s).next = (none, t) := by
  obtain ⟨done', hskip⟩ := goto_skip_all sep done s
  rw [h] at hskip
  exact ⟨goto sep done' [], by simp [next, hskip]⟩

theorem goto_nextUntil (done : Str) {q : UInt8} (hq : strchr sep q = false) (hw : ∀ c ∈ w, c ≠ 0 ∧ c ≠ q) (r : Str) :
    ∃ done', (goto sep done (w ++ q :: r)).nextUntil [q] =
      (some (skipped sep w), goto sep done' (q :: r)) := by
  have hquote : ∀ c ∈ (q :: r).head?, strchr sep c = false := fun c hc => by
    rw [head?_cons, mem_some_iff] at hc
    exact hc ▸ hq
  obtain ⟨done₁, hskip⟩ := goto_skip sep done w hquote
  have hmore : (!(skipped sep w ++ q :: r).isEmpty) = true := by
    cases skipped sep w <;> rfl
  have hkeep : ∀ c ∈ skipped sep w, (!strchr [q] c) = true := by
    intro c hc
    have hcw := hw c (dropWhile_subset _ hc)
    simp [strchr, hcw.1, hcw.2]
  have htake : (skipped sep w ++ q :: r).takeWhile (fun c => !strchr [q] c) = skipped sep w :=
    takeWhile_word hkeep fun c hc => by
      rw [head?_cons, mem_some_iff] at hc
      simp [strchr, hc]
  have hstay : (goto sep (done₁ ++ skipped sep w) (q :: r)).skipSeparator =
      goto sep (done₁ ++ skipped sep w) (q :: r) := by
    have hnone := goto_skipSeparator (w := []) (done₁ ++ skipped sep w) (by simp) hquote
    rwa [append_nil] at hnone
  refine ⟨done₁ ++ skipped sep w, ?_⟩
  rw [nextUntil, hskip]
  simp only [goto_hasMore, hmore, if_true, goto_rest, htake, goto_advance, goto_token, hstay]

theorem goto_nextStr (done : Str) (hq : strchr sep '"' = false) (hw : ∀ c ∈ w, c ≠ 0 ∧ c ≠ ('"' : UInt8)) (r : Str) :
    ∃ done', (goto sep done (('"' : UInt8) :: w ++ ('"' : UInt8) :: r)).nextStr =
      (some (skipped sep w), goto sep done' r) := by
  have hquote : ∀ c ∈ (('"' : UInt8) :: w ++ ('"' : UInt8) :: r).head?, strchr sep c = false := fun c hc => by
    rw [cons_append, head?_cons, mem_some_iff] at hc
    exact hc ▸ hq
  have hstay := goto_skipSeparator (w := []) done (by simp) hquote
  rw [append_nil, nil_append] at hstay
  have hopen := goto_advance sep done ['"'] (w ++ ('"' : UInt8) :: r)
  obtain ⟨done', huntil⟩ := goto_nextUntil (done ++ [('"' : UInt8)]) hq hw r
  have hclose := goto_advance sep done' ['"'] r
  refine ⟨done' ++ [('"' : UInt8)], ?_⟩
  rw [nextStr, hstay]
  simp only [length_singleton, singleton_append] at hopen hclose
  simp [hopen, huntil, hclose]

end Tokenizer

end Awtk
