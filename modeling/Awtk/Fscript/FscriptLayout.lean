import Awtk.Fscript.FscriptLexing

/-!
# Expressions and how they are written

An expression is a tree of integer literals, `+`, `-`, `*`, `%` and the unary minus.  A
layout is one way to write it down: it has the parentheses, needed or not, and the blanks in
front of each token.  `signs` is the run of minus signs that a layout begins with, and
`unsigned` the layout without them.
-/

namespace Awtk.Fscript

open List Option

set_option maxRecDepth 2048

/-- The binary operators. -/
inductive BinOp where
  | add
  | sub
  | mul
  | mod
  deriving DecidableEq

namespace BinOp

def char : BinOp → UInt8
  | add => '+'
  | sub => '-'
  | mul => '*'
  | mod => '%'

/-- How tight the operator binds. -/
def level : BinOp → Nat
  | add | sub => 0
  | mul | mod => 1

/-- The remainder has the sign of the dividend. -/
def apply : BinOp → Int → Int → Int
  | add => (· + ·)
  | sub => (· - ·)
  | mul => (· * ·)
  | mod => Int.tmod

end BinOp

/-- An expression. -/
inductive Expr where
  | lit (n : Nat)
  | neg (e : Expr)
  | bin (op : BinOp) (l r : Expr)

/-- The mathematical value. -/
def Expr.value : Expr → Int
  | lit n => n
  | neg e => -e.value
  | bin op l r => op.apply l.value r.value

/-- A way to write an expression down. -/
inductive Layout where
  | lit (blanks : Str) (n : Nat)
  | paren (blanks : Str) (inner : Layout) (after : Str)
  | neg (blanks : Str) (operand : Layout)
  | bin (op : BinOp) (l : Layout) (blanks : Str) (r : Layout)

namespace Layout

/-- The expression that is written. -/
def tree : Layout → Expr
  | lit _ n => .lit n
  | paren _ inner _ => inner.tree
  | neg _ operand => .neg operand.tree
  | bin op l _ r => .bin op l.tree r.tree

/-- The text. -/
def text : Layout → Str
  | lit blanks n => blanks ++ decimal n
  | paren blanks inner after => blanks ++ ('(' : UInt8) :: (inner.text ++ (after ++ [(')' : UInt8)]))
  | neg blanks operand => blanks ++ ('-' : UInt8) :: operand.text
  | bin op l blanks r => l.text ++ (blanks ++ op.char :: r.text)

/-- How tight the outermost operator binds. -/
def level : Layout → Nat
  | bin op _ _ _ => op.level
  | neg _ _ => 2
  | lit _ _ | paren _ _ _ => 3

abbrev Blanks (s : Str) : Prop := ∀ c ∈ s, isSpace c = true

/-- The parentheses that are needed are there.  Operators of one level are read from the
left. -/
def Valid : Layout → Prop
  | lit blanks _ => Blanks blanks
  | paren blanks inner after => Blanks blanks ∧ inner.Valid ∧ Blanks after
  | neg blanks operand => Blanks blanks ∧ operand.Valid ∧ 2 ≤ operand.level
  | bin op l blanks r =>
    l.Valid ∧ Blanks blanks ∧ r.Valid ∧ op.level ≤ l.level ∧ op.level < r.level

/-- The number of minus signs in front. -/
def signs : Layout → Nat
  | neg _ operand => operand.signs + 1
  | bin _ l _ _ => l.signs
  | _ => 0

/-- The layout without the minus signs in front. -/
def unsigned : Layout → Layout
  | neg _ operand => operand.unsigned
  | bin op l blanks r => bin op l.unsigned blanks r
  | x => x

def size : Layout → Nat
  | lit _ _ => 1
  | paren _ inner _ => inner.size + 1
  | neg _ operand => operand.size + 1
  | bin _ l _ r => l.size + r.size + 1

variable {L : Layout} {rest s : Str} {c : UInt8} {op : Bool}

theorem unsigned_size : ∀ L : Layout, L.unsigned.size ≤ L.size
  | lit _ _ | paren _ _ _ => Nat.le_refl _
  | neg _ operand => (unsigned_size operand).trans (Nat.le_succ _)
  | bin _ l _ r => Nat.succ_le_succ (Nat.add_le_add_right (unsigned_size l) r.size)

theorem unsigned_level : ∀ {L : Layout}, L.Valid → L.level ≤ L.unsigned.level
  | lit _ _, _ | paren _ _ _, _ => Nat.le_refl _
  | neg _ _, h => h.2.2.trans (unsigned_level h.2.1)
  | bin _ _ _ _, _ => Nat.le_refl _

theorem unsigned_valid : ∀ {L : Layout}, L.Valid → L.unsigned.Valid
  | lit _ _, h | paren _ _ _, h => h
  | neg _ operand, h => unsigned_valid (L := operand) h.2.1
  | bin _ _ _ _, h => ⟨unsigned_valid h.1, h.2.1, h.2.2.1, h.2.2.2.1.trans (unsigned_level h.1),
      h.2.2.2.2⟩

theorem unsigned_of_signs : ∀ {L : Layout}, L.signs = 0 → L.unsigned = L
  | lit _ _, _ | paren _ _ _, _ => rfl
  | bin _ l _ _, h => by rw [unsigned, unsigned_of_signs (L := l) h]

/-! ## The text -/

theorem blanks_plain {s : Str} (h : Blanks s) : Plain s := fun c hc => Parser.isSpace_plain (h c hc)

theorem plain_append {s t : Str} (hs : Plain s) (ht : Plain t) : Plain (s ++ t) :=
  forall_mem_append.mpr ⟨hs, ht⟩

theorem plain_cons {s : Str} (hc : isPlain c = true) (hs : Plain s) : Plain (c :: s) :=
  forall_mem_cons.mpr ⟨hc, hs⟩

theorem char_plain (op : BinOp) : isPlain op.char = true := by cases op <;> decide

theorem text_plain : ∀ {L : Layout}, L.Valid → Plain L.text
  | lit _ _, h => plain_append (blanks_plain h) fun _ hc => Parser.isDigit_plain (isDigit_of_mem_decimal hc)
  | paren _ _ _, h => plain_append (blanks_plain h.1) (plain_cons (by decide)
      (plain_append (text_plain h.2.1) (plain_append (blanks_plain h.2.2) (by decide))))
  | neg _ _, h => plain_append (blanks_plain h.1) (plain_cons (by decide) (text_plain h.2.1))
  | bin op _ _ _, h => plain_append (text_plain h.1) (plain_append (blanks_plain h.2.1)
      (plain_cons (char_plain op) (text_plain h.2.2.1)))

/-- What a layout can begin with. -/
def isFirst (c : UInt8) : Bool := isDigit c || c = '(' || c = '-'

theorem text_first : ∀ {L : Layout} (rest : Str), L.Valid →
    ∃ c t, strip (L.text ++ rest) = c :: t ∧ isFirst c = true
  | lit blanks n, rest, h => by
    obtain ⟨c, ds, hn, hc, -⟩ := decimal_cons n
    refine ⟨c, ds ++ rest, ?_, by rw [isFirst, hc]; rfl⟩
    rw [text, append_assoc, Parser.strip_append h, hn]
    exact Parser.strip_of_head (isDigit_not_space hc)
  | paren blanks inner after, rest, h => by
    refine ⟨'(', inner.text ++ (after ++ [(')' : UInt8)]) ++ rest, ?_, by decide⟩
    rw [text, append_assoc, Parser.strip_append h.1]
    rfl
  | neg blanks operand, rest, h => by
    refine ⟨'-', operand.text ++ rest, ?_, by decide⟩
    rw [text, append_assoc, Parser.strip_append h.1]
    rfl
  | bin op l blanks r, rest, h => by
    rw [text, append_assoc]
    exact text_first _ h.1

/-! ## What may follow -/

/-- What can follow a part of an expression. -/
def isFollow (c : UInt8) : Bool := c = ')' || c = '*' || c = '%' || c = '+' || c = '-'

/-- The text behind a part of an expression. -/
structure Follow (rest : Str) : Prop where
  plain : Plain rest
  first : ∀ c ∈ (strip rest).head?, isFollow c = true

theorem Follow.head (h : Follow rest) : ∀ c ∈ rest.head?, isDigit c = false := by
  cases rest with
  | nil => exact fun c hc => absurd hc (not_mem_none c)
  | cons d rest =>
    intro c hc
    obtain rfl : d = c := some.inj hc
    cases hspace : isSpace d with
    | true =>
      have hall := forall_byte (p := fun c => !isSpace c || !isDigit c) (by decide +kernel) d
      simpa [hspace] using hall
    | false =>
      have hfirst := h.first d (by rw [Parser.strip_of_head hspace]; rfl)
      have hall := forall_byte (p := fun c => !isFollow c || !isDigit c) (by decide +kernel) d
      simpa [hfirst] using hall

theorem Follow.not_lparen (h : Follow rest) : (strip rest).headD 0 ≠ '(' := by
  have hfirst := h.first
  cases hstrip : strip rest with
  | nil => decide
  | cons d t =>
    rw [hstrip] at hfirst
    have hd := hfirst d rfl
    rintro rfl
    revert hd
    decide

theorem follow_nil {blanks : Str} (h : Blanks blanks) : Follow blanks := by
  refine ⟨blanks_plain h, ?_⟩
  have hnil := Parser.strip_append (s := []) h
  rw [append_nil] at hnil
  rw [hnil]
  exact fun c hc => absurd hc (not_mem_none c)

theorem follow_cons {blanks : Str} (h : Blanks blanks) (hc : isFollow c = true)
    (hspace : isSpace c = false) (hplain : Plain (c :: rest)) : Follow (blanks ++ c :: rest) := by
  refine ⟨plain_append (blanks_plain h) hplain, ?_⟩
  rw [Parser.strip_append h, Parser.strip_of_head hspace]
  intro d hd
  obtain rfl : c = d := some.inj hd
  exact hc

/-! ## Runs of signs -/

theorem signs_of_ne {d : UInt8} {t : Str} (h : strip s = c :: t) (hne : c ≠ d) :
    Parser.signs d s = 0 ∧ Parser.afterSigns d s = strip s := by
  rw [← Parser.signs_strip, ← Parser.afterSigns_strip, h, Parser.signs, Parser.afterSigns,
    Parser.strip_head h, if_neg Bool.false_ne_true, if_neg Bool.false_ne_true, if_neg hne,
    if_neg hne]
  exact ⟨rfl, rfl⟩

/-- A run of minus signs ends with the layout without them. -/
theorem signs_text : ∀ {L : Layout} (rest : Str), L.Valid →
    Parser.signs '-' (L.text ++ rest) = L.signs ∧
      Parser.afterSigns '-' (L.text ++ rest) = strip (L.unsigned.text ++ rest)
  | lit blanks n, rest, h => by
    obtain ⟨c, ds, hn, hc, -⟩ := decimal_cons n
    have hstrip : strip ((lit blanks n).text ++ rest) = c :: (ds ++ rest) := by
      rw [text, append_assoc, Parser.strip_append h, hn]
      exact Parser.strip_of_head (isDigit_not_space hc)
    refine signs_of_ne hstrip ?_
    rintro rfl
    revert hc
    decide
  | paren blanks inner after, rest, h => by
    have hstrip : strip ((paren blanks inner after).text ++ rest) =
        ('(' : UInt8) :: (inner.text ++ (after ++ [(')' : UInt8)]) ++ rest) := by
      rw [text, append_assoc, Parser.strip_append h.1]
      rfl
    exact signs_of_ne hstrip (by decide)
  | neg blanks operand, rest, h => by
    obtain ⟨hsigns, hafter⟩ := signs_text (L := operand) rest h.2.1
    have hstrip : strip ((neg blanks operand).text ++ rest) =
        ('-' : UInt8) :: (operand.text ++ rest) := by
      rw [text, append_assoc, Parser.strip_append h.1]
      rfl
    rw [← Parser.signs_strip, ← Parser.afterSigns_strip, hstrip, Parser.signs, Parser.afterSigns,
      Parser.strip_head hstrip, if_neg Bool.false_ne_true, if_neg Bool.false_ne_true, if_pos rfl,
      if_pos rfl, hsigns, hafter]
    exact ⟨rfl, rfl⟩
  | bin op l blanks r, rest, h => by
    have hl := signs_text (L := l) (blanks ++ op.char :: r.text ++ rest) h.1
    rw [← append_assoc, ← append_assoc l.unsigned.text] at hl
    exact hl

/-! ## The first token -/

variable {blanks after : Str} {inner operand r : Layout} {n : Nat}

theorem numberToken_eq {ds : Str} (hds : ∀ d ∈ ds, isDigit d = true) (hf : Follow rest) :
    Parser.numberToken c (ds ++ rest) = (.number, c :: ds, rest) := by
  have htake : (ds ++ rest).takeWhile isDigit = ds := by
    rw [takeWhile_append_of_pos hds]
    cases rest with
    | nil => rw [takeWhile_nil, append_nil]
    | cons x t =>
      have hx := hf.head x rfl
      rw [takeWhile_cons_of_neg (by rw [hx]; exact Bool.false_ne_true), append_nil]
  have hdrop : (ds ++ rest).dropWhile isDigit = rest := by
    rw [dropWhile_append_of_pos hds]
    cases rest with
    | nil => rfl
    | cons x t =>
      have hx := hf.head x rfl
      exact dropWhile_cons_of_neg (by rw [hx]; exact Bool.false_ne_true)
  rw [Parser.numberToken, htake, hdrop, if_neg hf.not_lparen]

theorem lexed_lit (h : Blanks blanks) (hf : Follow rest) (op : Bool) :
    Parser.lexed op ((lit blanks n).text ++ rest) = some (.number, decimal n, rest) := by
  obtain ⟨c, ds, hn, hc, hds⟩ := decimal_cons n
  have hsign : Parser.isSign c = false := by
    have hall := forall_byte (p := fun c => !isDigit c || !Parser.isSign c) (by decide +kernel) c
    simpa [hc] using hall
  rw [Parser.lexed, text, append_assoc, Parser.strip_append h, hn, cons_append,
    Parser.strip_of_head (isDigit_not_space hc)]
  simp only [Parser.isDigit_not_single hc]
  rw [hsign, if_pos rfl, numberToken_eq hds hf]

theorem lexed_single {type : TokenType} (h : Blanks blanks) (hspace : isSpace c = false)
    (hsingle : Parser.single c = some type) (op : Bool) (s : Str) :
    Parser.lexed op (blanks ++ c :: s) = some (type, [c], s) := by
  rw [Parser.lexed, Parser.strip_append h, Parser.strip_of_head hspace]
  simp only [hsingle]

theorem lexed_sign (h : Blanks blanks) (hsign : Parser.isSign c = true)
    (hop : op = true ∨ isDigit ((strip s).headD 0) = false) :
    Parser.lexed op (blanks ++ c :: s) =
      some (.func, List.replicate (Parser.signs c s + 1) c, Parser.afterSigns c s) := by
  have hsingle : Parser.single c = none := by
    have hall := forall_byte (p := fun c => !Parser.isSign c || Parser.single c = none)
      (by decide +kernel) c
    simpa [hsign] using hall
  rw [Parser.lexed, Parser.strip_append h, Parser.strip_of_head (Parser.sign_not_space hsign)]
  simp only [hsingle]
  rw [hsign, if_neg Bool.noConfusion, if_pos hop]

theorem not_digit_of_level (h : operand.Valid) (hlevel : 2 ≤ operand.level)
    (hlit : ∀ blanks n, operand ≠ lit blanks n) (rest : Str) :
    isDigit ((strip (operand.text ++ rest)).headD 0) = false := by
  cases operand with
  | lit blanks n => exact absurd rfl (hlit blanks n)
  | paren blanks inner after =>
    rw [text, append_assoc, Parser.strip_append h.1]
    rfl
  | neg blanks operand =>
    rw [text, append_assoc, Parser.strip_append h.1]
    rfl
  | bin op l blanks r =>
    have hlow : (bin op l blanks r).level ≤ 1 := by cases op <;> simp [level, BinOp.level]
    exact absurd (hlevel.trans hlow) (by decide)

theorem lexed_neg (h : (neg blanks operand).Valid)
    (hop : op = true ∨ ∀ blanks n, operand ≠ lit blanks n) (rest : Str) :
    Parser.lexed op ((neg blanks operand).text ++ rest) =
      some (.func, List.replicate (operand.signs + 1) ('-' : UInt8), strip (operand.unsigned.text ++ rest)) := by
  obtain ⟨hsigns, hafter⟩ := signs_text (L := operand) rest h.2.1
  rw [text, append_assoc, cons_append, lexed_sign h.1 (by decide), hsigns, hafter]
  exact hop.imp_right fun hlit => not_digit_of_level h.2.1 h.2.2 hlit rest

theorem lexed_neg_lit (h : (neg blanks (lit after n)).Valid) (hf : Follow rest) :
    Parser.lexed false ((neg blanks (lit after n)).text ++ rest) =
      some (.number, ('-' : UInt8) :: decimal n, rest) := by
  obtain ⟨c, ds, hn, hc, hds⟩ := decimal_cons n
  have hstrip : strip ((lit after n).text ++ rest) = decimal n ++ rest := by
    rw [text, append_assoc, Parser.strip_append h.2.1, hn]
    exact Parser.strip_of_head (isDigit_not_space hc)
  have hdigit : ¬(false = true ∨ isDigit ((strip ((lit after n).text ++ rest)).headD 0) = false) := by
    rw [hstrip, hn, cons_append, headD_cons, hc]
    decide
  rw [text, append_assoc, cons_append, Parser.lexed, Parser.strip_append h.1,
    Parser.strip_of_head (by decide)]
  simp only [show Parser.single '-' = none from rfl]
  rw [if_neg (by decide), if_neg hdigit, hstrip,
    numberToken_eq (fun d hd => isDigit_of_mem_decimal hd) hf]

theorem lexed_sub (hr : r.Valid) (h : Blanks blanks) (rest : Str) :
    Parser.lexed true (blanks ++ ('-' : UInt8) :: (r.text ++ rest)) =
      some (.func, List.replicate (r.signs + 1) ('-' : UInt8), strip (r.unsigned.text ++ rest)) := by
  obtain ⟨hsigns, hafter⟩ := signs_text (L := r) rest hr
  rw [lexed_sign h (by decide) (.inl rfl), hsigns, hafter]

theorem lexed_add (hr : r.Valid) (h : Blanks blanks) (rest : Str) :
    Parser.lexed true (blanks ++ ('+' : UInt8) :: (r.text ++ rest)) =
      some (.func, [('+' : UInt8)], strip (r.text ++ rest)) := by
  obtain ⟨c, t, hstrip, hc⟩ := text_first rest hr
  have hne : c ≠ '+' := by
    rintro rfl
    revert hc
    decide
  obtain ⟨hsigns, hafter⟩ := signs_of_ne hstrip hne
  rw [lexed_sign h (by decide) (.inl rfl), hsigns, hafter]
  rfl

end Layout

end Awtk.Fscript
