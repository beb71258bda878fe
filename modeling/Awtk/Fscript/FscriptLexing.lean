import Mathlib
import Awtk.Fscript.FscriptLexer

/-!
# The tokens of an expression

What `getTokenEx` does with a text of digits, blanks, parentheses and the operators `+`,
`-`, `*` and `%`.  `lexed` is the token in front of such a text, and what is behind it, for
both meanings of a sign.
-/

namespace Awtk.Fscript

open List

/-- The text behind the blanks. -/
def strip (s : Str) : Str := s.dropWhile isSpace

/-- A character of an expression. -/
def isPlain (c : UInt8) : Bool :=
  isSpace c || isDigit c || c = '(' || c = ')' || c = '*' || c = '%' || c = '+' || c = '-'

/-- A text of such characters. -/
abbrev Plain (s : Str) : Prop := ∀ c ∈ s, isPlain c = true

namespace Parser

variable {p p' : Parser} {s t r : Str} {c d : UInt8} {n : Nat} {op : Bool}

/-! ## Characters -/

theorem plain_ne_zero (h : isPlain c = true) : c ≠ 0 := by
  rintro rfl
  revert h
  decide

theorem plain_ne_slash (h : isPlain c = true) : c ≠ '/' := by
  rintro rfl
  revert h
  decide

theorem isSpace_plain (h : isSpace c = true) : isPlain c = true := by
  rw [isPlain, h]
  rfl

theorem isDigit_plain (h : isDigit c = true) : isPlain c = true := by
  rw [isPlain, h, Bool.or_true]
  rfl

theorem isDigit_not_single (h : isDigit c = true) : single c = none := by
  have hall := forall_byte (p := fun c => !isDigit c || single c = none) (by decide +kernel) c
  simpa [h] using hall

theorem isDigit_word (h : isDigit c = true) : isWordChar c = true := by
  rw [isWordChar, h, Bool.or_true]
  rfl

theorem plain_not_word (h : isPlain c = true) (hd : isDigit c = false) : isWordChar c = false := by
  have hall := forall_byte (p := fun c => !isPlain c || isDigit c || !isWordChar c)
    (by decide +kernel) c
  simpa [h, hd] using hall

theorem plain_utf8 (h : isPlain c = true) : utf8GetCharLen c = 1 := by
  have hall := forall_byte (p := fun c => !isPlain c || utf8GetCharLen c = 1) (by decide +kernel) c
  simpa [h] using hall

theorem plain_cases (h : isPlain c = true) (hs : isSpace c = false) (h1 : single c = none) :
    (c = '+' ∨ c = '-') ∨ isDigit c = true := by
  have hall := forall_byte (p := fun c => !isPlain c || isSpace c || (single c).isSome ||
    (c = '+' || c = '-' || isDigit c)) (by decide +kernel) c
  simpa [h, hs, h1, or_assoc] using hall

/-- What is left to read. -/
def pending (p : Parser) : Str := if p.c ≠ 0 then p.c :: p.cursor else p.cursor

/-- The parser at a text. -/
def goto (p : Parser) (s : Str) : Parser := { p with cursor := s, c := 0 }

/-- The parser at a text with its first character put back. -/
def putBack (p : Parser) (s : Str) : Parser := { p with cursor := s.tail, c := s.headD 0 }

@[simp] theorem pending_goto : (p.goto s).pending = s := rfl

@[simp] theorem goto_goto : (p.goto s).goto t = p.goto t := rfl

@[simp] theorem putBack_goto : (p.putBack s).goto t = p.goto t := rfl

@[simp] theorem goto_putBack : (p.goto s).putBack t = p.putBack t := rfl

@[simp] theorem goto_temp : (p.goto s).temp = p.temp := rfl

theorem goto_ungetChar : (p.goto s).ungetChar c = p.putBack (c :: s) := rfl

theorem pending_putBack (hs : Plain s) : (p.putBack s).pending = s := by
  cases s with
  | nil => rfl
  | cons c s => exact if_pos (plain_ne_zero (hs c mem_cons_self))

theorem getChar_cons (h : p.pending = c :: s) (hc : c ≠ 0) : p.getChar = (c, p.goto s) := by
  rw [pending] at h
  rw [getChar, goto]
  by_cases h0 : p.c = 0
  · rw [if_neg (not_not.mpr h0)] at h ⊢
    rw [h, headD_cons, if_pos hc, tail_cons, ← h0]
  · rw [if_pos h0] at h ⊢
    obtain ⟨rfl, rfl⟩ := List.cons.inj h
    rfl

theorem getChar_nil (h : p.pending = []) : p.getChar = (0, p.goto []) := by
  rw [pending] at h
  by_cases h0 : p.c = 0
  · rw [if_neg (not_not.mpr h0)] at h
    obtain ⟨cursor, c, temp, type, valid, error, funcsDef⟩ := p
    subst h0 h
    rfl
  · rw [if_pos h0] at h
    cases h

theorem pending_length_le : p.pending.length + 1 < p.turns := by
  rw [pending, turns]
  split
  · rw [length_cons]
    omega
  · omega

/-! ## Blanks -/

theorem strip_cons (h : isSpace c = true) : strip (c :: s) = strip s := dropWhile_cons_of_pos h

theorem strip_of_head (h : isSpace c = false) : strip (c :: s) = c :: s :=
  dropWhile_cons_of_neg (by rw [h]; exact Bool.false_ne_true)

theorem strip_suffix (s : Str) : strip s <:+ s := dropWhile_suffix _

theorem plain_strip (hs : Plain s) : Plain (strip s) := fun c hc => hs c ((strip_suffix s).subset hc)

theorem strip_append {blanks : Str} (h : ∀ c ∈ blanks, isSpace c = true) :
    strip (blanks ++ s) = strip s := by
  induction blanks with
  | nil => rfl
  | cons c blanks ih =>
    obtain ⟨hc, hrest⟩ := forall_mem_cons.mp h
    rw [cons_append, strip_cons hc, ih hrest]

theorem strip_head (h : strip s = c :: t) : isSpace c = false := by
  induction s with
  | nil => cases h
  | cons d s ih =>
    cases hd : isSpace d with
    | true => exact ih (strip_cons hd ▸ h)
    | false =>
      rw [strip_of_head hd] at h
      obtain ⟨rfl, -⟩ := List.cons.inj h
      exact hd

theorem strip_strip (s : Str) : strip (strip s) = strip s := by
  cases h : strip s with
  | nil => rfl
  | cons c t => exact strip_of_head (strip_head h)

theorem skipSeperators_eq : ∀ {n : Nat} {p : Parser} {s : Str}, p.pending = s → Plain s →
    s.length < n → skipSeperators n p = some (p.putBack (strip s))
  | 0, _, _, _, _, hn => absurd hn (Nat.not_lt_zero _)
  | n + 1, p, [], h, _, _ => by
    rw [skipSeperators, getChar_nil h]
    rfl
  | n + 1, p, c :: s, h, hs, hn => by
    obtain ⟨hc, hrest⟩ := forall_mem_cons.mp hs
    rw [skipSeperators, getChar_cons h (plain_ne_zero hc)]
    simp only
    cases hspace : isSpace c with
    | true =>
      rw [strip_cons hspace, if_pos rfl]
      exact skipSeperators_eq pending_goto hrest (Nat.lt_of_succ_lt_succ hn)
    | false =>
      rw [strip_of_head hspace, if_neg Bool.false_ne_true, goto_ungetChar]

theorem skipSeperatorsAndComments_eq (h : p.pending = s) (hs : Plain s) :
    p.skipSeperatorsAndComments p.turns = some (p.goto (strip s)) := by
  have hlen := h ▸ p.pending_length_le
  have hplain := plain_strip hs
  rw [show p.turns = (p.cursor.length + 2) + 1 from rfl, skipSeperatorsAndComments,
    skipSeperators_eq h hs (Nat.lt_of_succ_lt hlen)]
  simp only [Option.bind_eq_bind, Option.bind_some]
  cases hstrip : strip s with
  | nil =>
    rw [getChar_nil rfl]
    rfl
  | cons c t =>
    rw [hstrip] at hplain
    have hc := plain_ne_zero (hplain c mem_cons_self)
    rw [getChar_cons (pending_putBack hplain) hc]
    simp only
    rw [if_neg (plain_ne_slash (hplain c mem_cons_self)), back, if_pos hc]
    rfl

/-! ## Runs of signs -/

/-- A sign. -/
def isSign (c : UInt8) : Bool := c = '+' || c = '-'

/-- The length of the run of the sign in front of a text.  Blanks do not end it. -/
def signs (d : UInt8) : Str → Nat
  | [] => 0
  | c :: s => if isSpace c then signs d s else if c = d then signs d s + 1 else 0

/-- The text behind the run. -/
def afterSigns (d : UInt8) : Str → Str
  | [] => []
  | c :: s => if isSpace c then afterSigns d s else if c = d then afterSigns d s else c :: s

theorem sign_not_space (h : isSign c = true) : isSpace c = false := by
  have hall := forall_byte (p := fun c => !isSign c || !isSpace c) (by decide +kernel) c
  simpa [h] using hall

theorem sign_ne_zero (h : isSign c = true) : c ≠ 0 := by
  rintro rfl
  revert h
  decide

theorem signs_strip (d : UInt8) : ∀ s : Str, signs d (strip s) = signs d s
  | [] => rfl
  | c :: s => by
    cases h : isSpace c with
    | true => rw [strip_cons h, signs_strip d s, signs, if_pos h]
    | false => rw [strip_of_head h]

theorem afterSigns_strip (d : UInt8) : ∀ s : Str, afterSigns d (strip s) = afterSigns d s
  | [] => rfl
  | c :: s => by
    cases h : isSpace c with
    | true => rw [strip_cons h, afterSigns_strip d s, afterSigns, if_pos h]
    | false => rw [strip_of_head h]

theorem afterSigns_suffix (d : UInt8) : ∀ s : Str, afterSigns d s <:+ s
  | [] => suffix_refl _
  | c :: s => by
    have hrest := (afterSigns_suffix d s).trans (suffix_cons c s)
    rw [afterSigns]
    split
    · exact hrest
    · split
      · exact hrest
      · exact suffix_refl _

/-- The run goes on with the signs that are read. -/
theorem getUnary_eq (hd : isSign d = true) : ∀ {n : Nat} {p : Parser} {s : Str}, p.pending = s →
    Plain s → p.temp.headD 0 = d → s.length < n →
    getUnary n p =
      some ({ p with temp := p.temp ++ List.replicate (signs d s) d }.putBack (afterSigns d s))
  | 0, _, _, _, _, _, hn => absurd hn (Nat.not_lt_zero _)
  | n + 1, p, s, h, hs, htemp, hn => by
    have hplain := plain_strip hs
    have hlen := (strip_suffix s).length_le
    rw [getUnary, skipSeperatorsAndComments_eq h hs]
    simp only [Option.bind_eq_bind, Option.bind_some]
    rw [← signs_strip, ← afterSigns_strip]
    cases hstrip : strip s with
    | nil =>
      rw [getChar_nil rfl]
      simp only [goto_temp, goto_goto, htemp]
      rw [if_neg (sign_ne_zero hd).symm, signs, replicate_zero, append_nil]
      rfl
    | cons c t =>
      rw [hstrip] at hplain hlen
      obtain ⟨hc, hrest⟩ := forall_mem_cons.mp hplain
      have hspace := strip_head hstrip
      rw [getChar_cons rfl (plain_ne_zero hc)]
      simp only [goto_temp, goto_goto, htemp]
      rw [signs, afterSigns, hspace, if_neg Bool.false_ne_true, if_neg Bool.false_ne_true]
      by_cases hcd : c = d
      · rw [if_pos hcd, if_pos hcd, if_pos hcd, hcd]
        have htemp' : (p.temp ++ [d]).headD 0 = d := by
          cases hp : p.temp with
          | nil => rfl
          | cons x l => rwa [hp] at htemp
        rw [getUnary_eq hd (p := (p.goto t).append d) rfl hrest htemp'
          (Nat.lt_of_lt_of_le hlen (Nat.le_of_lt_succ hn))]
        simp only [append, goto_temp, append_assoc]
        rfl
      · rw [if_neg hcd, if_neg hcd, if_neg hcd, replicate_zero, append_nil]
        rfl

/-! ## Numbers -/

theorem wordLoop_eq : ∀ {digits : Str} {n : Nat} {p : Parser} {s : Str},
    p.pending = digits ++ s → (∀ c ∈ digits, isDigit c = true) → Plain s →
    (∀ c ∈ s.head?, isDigit c = false) → digits.length < n →
    wordLoop n p = some (s.headD 0, { p with temp := p.temp ++ digits }.goto s.tail)
  | _, 0, _, _, _, _, _, _, hn => absurd hn (Nat.not_lt_zero _)
  | [], n + 1, p, [], h, _, _, _, _ => by
    rw [wordLoop, getChar_nil h, append_nil]
    rfl
  | [], n + 1, p, c :: s, h, _, hs, hhead, _ => by
    have hc := hs c mem_cons_self
    rw [wordLoop, getChar_cons h (plain_ne_zero hc), append_nil]
    simp only
    rw [plain_not_word hc (hhead c rfl), if_neg Bool.false_ne_true, plain_utf8 hc,
      if_neg (Int.lt_irrefl 1), ite_self]
    rfl
  | d :: digits, n + 1, p, s, h, hdigits, hs, hhead, hn => by
    obtain ⟨hd, hrest⟩ := forall_mem_cons.mp hdigits
    rw [cons_append] at h
    rw [wordLoop, getChar_cons h (plain_ne_zero (isDigit_plain hd))]
    simp only
    rw [isDigit_word hd, if_pos rfl,
      wordLoop_eq (p := (p.goto (digits ++ s)).append d) rfl hrest hs hhead
        (Nat.lt_of_succ_lt_succ hn)]
    simp only [append, goto_temp, append_assoc]
    rfl

theorem trim_eq {digits : Str} (hc : isSign c = true ∨ isDigit c = true)
    (h : ∀ c ∈ digits, isDigit c = true) :
    strTrimRight [' ', '\t', '\r', '\n'] ((c :: digits).dropWhile
      (([' ', '\t', '\r', '\n'] : Str).contains ·)) = c :: digits := by
  have hblank : ∀ c : UInt8, isSign c = true ∨ isDigit c = true →
      ([' ', '\t', '\r', '\n'] : Str).contains c = false := by
    intro c hc
    have hall := forall_byte (p := fun c => !(isSign c || isDigit c) ||
      !([' ', '\t', '\r', '\n'] : Str).contains c) (by decide +kernel) c
    have hor : (isSign c || isDigit c) = true := Bool.or_eq_true_iff.mpr hc
    simpa only [hor, Bool.not_true, Bool.false_or, Bool.not_eq_true'] using hall
  have hall : ∀ d ∈ c :: digits, ([' ', '\t', '\r', '\n'] : Str).contains d = false := by
    intro d hd
    rcases mem_cons.mp hd with rfl | hd
    · exact hblank d hc
    · exact hblank d (.inr (h d hd))
  have hdrop : ∀ l : Str, (∀ d ∈ l, ([' ', '\t', '\r', '\n'] : Str).contains d = false) →
      l.dropWhile (([' ', '\t', '\r', '\n'] : Str).contains ·) = l := by
    intro l hl
    cases l with
    | nil => rfl
    | cons d l => exact dropWhile_cons_of_neg (by rw [hl d mem_cons_self]; decide)
  rw [hdrop _ hall, strTrimRight, hdrop _ fun d hd => hall d (mem_reverse.mp hd),
    reverse_reverse]

theorem behindBlanks_eq (hs : Plain s) :
    (p.goto s.tail).behindBlanks (s.headD 0) = some ((strip s).headD 0, p.goto (strip s).tail) := by
  rw [behindBlanks]
  cases s with
  | nil => rfl
  | cons c s =>
    obtain ⟨-, hrest⟩ := forall_mem_cons.mp hs
    rw [headD_cons, tail_cons]
    cases hspace : isSpace c with
    | false => rw [strip_of_head hspace, if_neg Bool.false_ne_true, headD_cons, tail_cons]
    | true =>
      have hlen : s.length < (p.goto s).turns := Nat.lt_add_of_pos_right (Nat.zero_lt_succ 2)
      have hplain := plain_strip hrest
      rw [if_pos rfl, strip_cons hspace, skipSeperators_eq pending_goto hrest hlen, Option.map_some,
        goto_putBack]
      cases hstrip : strip s with
      | nil => rfl
      | cons x t =>
        rw [hstrip] at hplain
        rw [getChar_cons (pending_putBack hplain) (plain_ne_zero (hplain x mem_cons_self))]
        rfl

/-- A number is read with the blanks behind it.  In front of a parenthesis it is taken for a
function. -/
theorem parseIdOrNumber_eq {digits : Str} (hp : p.pending = c :: (digits ++ s))
    (hc : isSign c = true ∨ isDigit c = true) (hdigits : ∀ c ∈ digits, isDigit c = true)
    (hs : Plain s) (hhead : ∀ c ∈ s.head?, isDigit c = false) :
    p.parseIdOrNumber .number = some ({
      p with
      temp := c :: digits
      type := if (strip s).headD 0 = '(' then .func else .number }.putBack (strip s)) := by
  have hplain : isPlain c = true := by
    have hall := forall_byte (p := fun c => !(isSign c || isDigit c) || isPlain c)
      (by decide +kernel) c
    have hor : (isSign c || isDigit c) = true := Bool.or_eq_true_iff.mpr hc
    simpa only [hor, Bool.not_true, Bool.false_or] using hall
  have h0 := plain_ne_zero hplain
  have hlen : digits.length < ({ p.goto (digits ++ s) with temp := [c] } : Parser).turns := by
    rw [turns]
    change _ < (digits ++ s).length + 3
    rw [length_append]
    omega
  have hfirst : getNonAsciiChar { p.goto (digits ++ s) with temp := [] } c (utf8GetCharLen c) =
      { p.goto (digits ++ s) with temp := [c] } := by
    rw [plain_utf8 hplain]
    rfl
  rw [parseIdOrNumber, getChar_cons hp h0]
  simp only [Option.bind_eq_bind]
  rw [if_pos h0, hfirst, wordLoop_eq (p := { p.goto (digits ++ s) with temp := [c] }) rfl hdigits hs
    hhead hlen, Option.bind_some]
  simp only [singleton_append]
  rw [behindBlanks_eq hs, Option.bind_some]
  simp only [goto_temp, trim_eq hc hdigits]
  have htype : wordType (c :: digits) (if (strip s).headD 0 = '(' then .func else .number) =
      if (strip s).headD 0 = '(' then .func else .number := by
    rw [wordType, if_pos]
    split <;> exact TokenType.noConfusion
  rw [htype]
  cases hstrip : strip s with
  | nil => rfl
  | cons x t =>
    have hx := plain_ne_zero (hs x ((strip_suffix s).subset (hstrip ▸ mem_cons_self)))
    rw [headD_cons, if_pos hx]
    rfl

/-! ## Tokens -/

/-- A number that begins with `c`, and the text behind it. -/
def numberToken (c : UInt8) (s : Str) : TokenType × Str × Str :=
  (if (strip (s.dropWhile isDigit)).headD 0 = '(' then .func else .number,
    c :: s.takeWhile isDigit, s.dropWhile isDigit)

/-- The type and the text of the token in front of an expression, and what is behind. -/
def lexed (operator : Bool) (s : Str) : Option (TokenType × Str × Str) :=
  match strip s with
  | [] => none
  | c :: s =>
    match single c with
    | some type => some (type, [c], s)
    | none =>
      if isSign c = false then some (numberToken c s)
      else if operator ∨ isDigit ((strip s).headD 0) = false then
        some (.func, List.replicate (signs c s + 1) c, afterSigns c s)
      else some (numberToken c (strip s))

/-- The parser is at the text `s`, and no token was put back. -/
structure Ready (p : Parser) (s : Str) : Prop where
  valid : p.valid = false
  reads : strip p.pending = strip s
  error : p.error = none

/-- The token was read. -/
structure Took (p : Parser) (token : TokenType × Str × Str) : Prop where
  type : p.type = token.1
  temp : p.temp = token.2.1
  ready : Ready p token.2.2

theorem plain_of_strip : ∀ {s : Str}, Plain (strip s) → Plain s
  | [], h => h
  | c :: s, h => by
    cases hc : isSpace c with
    | false => exact strip_of_head hc ▸ h
    | true =>
      rw [strip_cons hc] at h
      exact forall_mem_cons.mpr ⟨isSpace_plain hc, plain_of_strip h⟩

theorem takeWhile_isDigit (s : Str) : ∀ c ∈ s.takeWhile isDigit, isDigit c = true :=
  fun _ hc => mem_takeWhile_imp hc

theorem head_dropWhile (s : Str) : ∀ c ∈ (s.dropWhile isDigit).head?, isDigit c = false := by
  intro c hc
  have h := head?_dropWhile_not isDigit s
  rw [Option.mem_def.mp hc] at h
  exact h

theorem parseIdOrNumber_took (hp : p.pending = c :: s) (hc : isSign c = true ∨ isDigit c = true)
    (hs : Plain s) (hvalid : p.valid = false) (herror : p.error = none) :
    ∃ p', p.parseIdOrNumber .number = some p' ∧ Took p' (numberToken c s) := by
  have hsplit : p.pending = c :: (s.takeWhile isDigit ++ s.dropWhile isDigit) := by
    rw [takeWhile_append_dropWhile, hp]
  have hrest : Plain (s.dropWhile isDigit) := fun x hx => hs x ((dropWhile_suffix _).subset hx)
  refine ⟨_, parseIdOrNumber_eq hsplit hc (takeWhile_isDigit s) hrest (head_dropWhile s), rfl, rfl,
    hvalid, ?_, herror⟩
  rw [pending_putBack (plain_strip hrest), strip_strip]
  rfl

theorem Ready.getTokenEx (h : Ready p s) (hs : Plain s) (op : Bool) :
    p.getTokenEx op = match strip s with
      | [] => tokenOf op 0 { p.goto [] with temp := [0] }
      | c :: t => tokenOf op c { p.goto t with temp := [c] } := by
  have hplain := plain_strip hs
  rw [← h.reads] at hplain
  rw [Parser.getTokenEx, h.valid, if_neg Bool.false_ne_true,
    skipSeperatorsAndComments_eq rfl (plain_of_strip hplain), h.reads]
  rw [h.reads] at hplain
  simp only [Option.bind_eq_bind, Option.bind_some]
  cases hstrip : strip s with
  | nil => rw [getChar_nil rfl, goto_goto]
  | cons c t =>
    rw [hstrip] at hplain
    rw [getChar_cons rfl (plain_ne_zero (hplain c mem_cons_self)), goto_goto]

theorem strip_of_lexed (h : lexed op s = none) : strip s = [] := by
  rw [lexed] at h
  cases hstrip : strip s with
  | nil => rfl
  | cons c t =>
    rw [hstrip] at h
    cases hsingle : single c with
    | some type => simp [hsingle] at h
    | none =>
      simp only [hsingle] at h
      split at h
      · cases h
      · split at h <;> cases h

theorem lexed_nil (h : strip s = []) (op : Bool) : lexed op s = none := by rw [lexed, h]

theorem Ready.get_none (h : Ready p s) (hs : Plain s) (hstrip : strip s = []) (op : Bool) :
    ∃ p', p.getTokenEx op = some (none, p') ∧ p'.type = .eof ∧ Ready p' s := by
  have hget := h.getTokenEx hs op
  rw [hstrip] at hget
  exact ⟨_, hget, rfl, h.valid, hstrip.symm, h.error⟩

theorem not_other (h : (c = '+' ∨ c = '-') ∨ isDigit c = true) :
    ¬c = 0 ∧ ¬(c = '>' ∨ c = '<' ∨ c = '=') ∧ ¬(c = '~' ∨ c = '!') ∧ ¬(c = '|' ∨ c = '&') ∧
      ¬(c = '"' ∨ c = '\'') := by
  have hall := forall_byte (p := fun c => !(c = '+' || c = '-' || isDigit c) ||
    !(c = 0 || c = '>' || c = '<' || c = '=' || c = '~' || c = '!' || c = '|' || c = '&' || c = '"' ||
      c = '\'')) (by decide +kernel) c
  have hor : (c = '+' || c = '-' || isDigit c) = true := by simpa [or_assoc] using h
  rw [hor] at hall
  simpa [not_or, and_assoc] using hall

theorem tokenOf_sign (hc : isSign c = true) (hsingle : single c = none) :
    tokenOf op c p = p.signToken op c := by
  have hor : c = '+' ∨ c = '-' := by simpa [isSign] using hc
  obtain ⟨h0, h1, h2, h3, h4⟩ := not_other (.inl hor)
  rw [tokenOf, hsingle]
  simp only
  rw [if_neg h0, if_neg h1, if_neg h2, if_neg h3, if_neg h4, if_pos hor]

theorem tokenOf_digit (hc : isDigit c = true) :
    tokenOf op c p = (do
      let p ← (p.ungetChar c).parseIdOrNumber .number
      return (some p.type, p)) := by
  obtain ⟨h0, h1, h2, h3, h4⟩ := not_other (.inr hc)
  have hsign : ¬(c = '+' ∨ c = '-') := by
    have hall := forall_byte (p := fun c => !isDigit c || !(c = '+' || c = '-')) (by decide +kernel) c
    simpa [hc] using hall
  rw [tokenOf, isDigit_not_single hc]
  simp only
  rw [if_neg h0, if_neg h1, if_neg h2, if_neg h3, if_neg h4, if_neg hsign, hc, if_pos rfl]

theorem number_took (hp : p.c = 0 ∧ p.cursor = s) (hc : isSign c = true ∨ isDigit c = true)
    (h0 : c ≠ 0) (hs : Plain s) (hvalid : p.valid = false) (herror : p.error = none) :
    ∃ p', ((p.ungetChar c).parseIdOrNumber .number).bind (fun p => some (some p.type, p)) =
        some (some (numberToken c s).1, p') ∧ Took p' (numberToken c s) := by
  have hpending : (p.ungetChar c).pending = c :: s := by
    rw [← hp.2]
    exact if_pos h0
  obtain ⟨p', hp', htook⟩ := parseIdOrNumber_took hpending hc hs hvalid herror
  exact ⟨p', by rw [hp', Option.bind_some, htook.type], htook⟩

/-- A sign is a run of signs or begins a number. -/
theorem signToken_took (op : Bool) (hp : p.pending = s) (hc : isSign c = true) (h0 : c ≠ 0) (hs : Plain s)
    (htemp : p.temp = [c]) (hvalid : p.valid = false) (herror : p.error = none) :
    ∃ token p', token = (if op ∨ isDigit ((strip s).headD 0) = false then
        (.func, List.replicate (signs c s + 1) c, afterSigns c s) else numberToken c (strip s)) ∧
      p.signToken op c = some (some token.1, p') ∧ Took p' token := by
  rw [signToken, skipSeperatorsAndComments_eq hp hs]
  simp only [Option.bind_eq_bind, Option.bind_some]
  have hcursor : (p.goto (strip s)).cursor = strip s := rfl
  rw [hcursor]
  by_cases hop : op = true ∨ isDigit ((strip s).headD 0) = false
  · have hlen : (strip s).length < (p.goto (strip s)).turns := Nat.lt_add_of_pos_right (Nat.zero_lt_succ 2)
    have hhead : (p.goto (strip s)).temp.headD 0 = c := by rw [goto_temp, htemp, headD_cons]
    have hafter : Plain (afterSigns c s) := fun x hx => hs x ((afterSigns_suffix c s).subset hx)
    have hrun := getUnary_eq hc pending_goto (plain_strip hs) hhead hlen
    rw [signs_strip, afterSigns_strip] at hrun
    rw [if_pos hop, if_pos hop, hrun, Option.bind_some]
    refine ⟨_, _, rfl, rfl, rfl, ?_, hvalid, ?_, herror⟩
    · change (p.goto (strip s)).temp ++ List.replicate (signs c s) c = _
      rw [goto_temp, htemp]
      rfl
    · exact congrArg strip (pending_putBack (p := p) hafter)
  · rw [if_neg hop, if_neg hop]
    obtain ⟨p', hp', htook⟩ := number_took (p := p.goto (strip s)) (s := strip s) ⟨rfl, rfl⟩ (.inl hc)
      h0 (plain_strip hs) hvalid herror
    exact ⟨_, p', rfl, hp', htook⟩

/-- A token is read as `lexed` says. -/
theorem Ready.get_some {token : TokenType × Str × Str} (h : Ready p s) (hs : Plain s)
    (hsome : lexed op s = some token) :
    ∃ p', p.getTokenEx op = some (some token.1, p') ∧ Took p' token := by
  have hget := h.getTokenEx hs op
  have hplain := plain_strip hs
  rw [lexed] at hsome
  cases hstrip : strip s with
  | nil =>
    rw [hstrip] at hsome
    cases hsome
  | cons c t =>
    rw [hstrip] at hsome hget hplain
    obtain ⟨hc, ht⟩ := forall_mem_cons.mp hplain
    have h0 := plain_ne_zero hc
    simp only at hsome hget
    rw [hget]
    cases hsingle : single c with
    | some type =>
      simp only [hsingle, Option.some.injEq] at hsome
      subst hsome
      refine ⟨{ p.goto t with temp := [c], type := type }, ?_, rfl, rfl, h.valid, rfl, h.error⟩
      rw [tokenOf, hsingle]
    | none =>
      simp only [hsingle] at hsome
      have hcases := plain_cases hc (strip_head hstrip) hsingle
      cases hsign : isSign c with
      | false =>
        rw [hsign, if_pos rfl, Option.some.injEq] at hsome
        subst hsome
        have hdigit : isDigit c = true := by
          refine hcases.resolve_left fun hor => ?_
          have hpos : isSign c = true := by simpa [isSign] using hor
          rw [hsign] at hpos
          cases hpos
        obtain ⟨p', hp', htook⟩ := number_took (p := { p.goto t with temp := [c] }) (s := t)
          ⟨rfl, rfl⟩ (.inr hdigit) h0 ht h.valid h.error
        exact ⟨p', (tokenOf_digit hdigit).trans hp', htook⟩
      | true =>
        rw [hsign, if_neg Bool.noConfusion] at hsome
        obtain ⟨token', p', htoken, hp', htook⟩ := signToken_took op
          (p := { p.goto t with temp := [c] }) rfl hsign h0 ht rfl h.valid h.error
        have heq : token' = token := by
          rw [htoken]
          split
          · rw [if_pos ‹_›, Option.some.injEq] at hsome
            exact hsome
          · rw [if_neg ‹_›, Option.some.injEq] at hsome
            exact hsome
        rw [tokenOf_sign hsign hsingle]
        exact ⟨p', heq ▸ hp', heq ▸ htook⟩

end Parser

end Awtk.Fscript
