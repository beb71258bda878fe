import Awtk.Fscript.FscriptLayout
import Awtk.Fscript.FscriptParser

/-!
# Parsing an expression

Every layout of an expression is parsed without an error.  `Built` says which calls stand
for it.  A minus sign belongs to a number, or it is a call, or two of them cancel.  A binary
minus takes the minus signs behind it into its name.

A level of the parser consumes its part of the text and goes on with its loop, so a layout
is followed from its leftmost operand on.  A turn takes less than ten turns of the parser
for each character.
-/

namespace Awtk.Fscript

open Fscript.Layout Fscript.Parser List Option

/-- The calls that are built for a layout. -/
inductive Built : Layout → Node → Prop where
  | lit {blanks : Str} {n : Nat} : Built (.lit blanks n) (number (decimal n))
  | paren {blanks after : Str} {inner : Layout} {v : Node} : Built inner v →
      Built (.paren blanks inner after) v
  | negLit {blanks after : Str} {n : Nat} :
      Built (.neg blanks (.lit after n)) (number (('-' : UInt8) :: decimal n))
  | negEven {blanks : Str} {operand : Layout} {v : Node} : operand.signs % 2 = 0 →
      Built operand.unsigned v → Built (.neg blanks operand) (.call [('-' : UInt8)] [v])
  | negOdd {blanks : Str} {operand : Layout} {v : Node} : operand.signs % 2 = 1 →
      Built operand.unsigned v → Built (.neg blanks operand) v
  | sub {blanks : Str} {l r : Layout} {v w : Node} : Built l v → Built r.unsigned w →
      Built (.bin .sub l blanks r) (.call (List.replicate (r.signs + 1) ('-' : UInt8)) [v, w])
  | bin {op : BinOp} {blanks : Str} {l r : Layout} {v w : Node} : op ≠ .sub → Built l v →
      Built r w → Built (.bin op l blanks r) (.call [op.char] [v, w])

theorem number_ne_invalid (token : Str) : number token ≠ .invalid := by
  rw [number]
  simp only
  repeat' split
  all_goals exact Node.noConfusion

theorem Built.ne_invalid {L : Layout} {v : Node} (h : Built L v) : v ≠ .invalid := by
  induction h with
  | lit => exact number_ne_invalid _
  | negLit => exact number_ne_invalid _
  | paren _ ih => exact ih
  | negOdd _ _ ih => exact ih
  | negEven => exact Node.noConfusion
  | sub => exact Node.noConfusion
  | bin => exact Node.noConfusion

namespace Parser

variable {p p' : Parser} {s rest : Str} {token : TokenType × Str × Str} {op op' : Bool} {n : Nat}
  {L operand : Layout} {v result : Node}

/-! ## Tokens that are put back -/

/-- The token is the next one. -/
structure Peeked (p : Parser) (token : TokenType × Str × Str) : Prop where
  valid : p.valid = true
  type : p.type = token.1
  temp : p.temp = token.2.1
  reads : strip p.pending = strip token.2.2
  error : p.error = none

/-- The parser is in front of a text.  The token may have been read, as an operator or not. -/
def At (op : Bool) (p : Parser) (s : Str) : Prop :=
  Ready p s ∨ ∃ token, lexed op s = some token ∧ Peeked p token

theorem lexed_ne_eof (h : lexed op s = some token) : token.1 ≠ .eof := by
  have hnumber : ∀ c s, (numberToken c s).1 ≠ .eof := by
    intro c s
    rw [numberToken]
    split <;> exact TokenType.noConfusion
  rw [lexed] at h
  split at h
  · cases h
  · split at h
    · rename_i type hsingle
      obtain rfl := some.inj h
      rintro (rfl : type = .eof)
      rw [single] at hsingle
      repeat' split at hsingle
      all_goals cases hsingle
    · split at h
      · obtain rfl := some.inj h
        exact hnumber _ _
      · split at h
        · obtain rfl := some.inj h
          exact TokenType.noConfusion
        · obtain rfl := some.inj h
          exact hnumber _ _

theorem Took.unget (h : Took p token) (hne : token.1 ≠ .eof) : Peeked p.ungetToken token := by
  have heq : p.ungetToken = { p with valid := true } := if_pos (h.type ▸ hne)
  rw [heq]
  exact ⟨rfl, h.type, h.temp, h.ready.reads, h.ready.error⟩

theorem Peeked.get (h : Peeked p token) (op : Bool) :
    ∃ p', p.getTokenEx op = some (some token.1, p') ∧ Took p' token := by
  refine ⟨{ p with valid := false }, ?_, h.type, h.temp, rfl, h.reads, h.error⟩
  rw [getTokenEx, h.valid, if_pos rfl, h.type]

theorem At.get_some (op : Bool) (h : At op' p s) (hs : Plain s) (hsome : lexed op s = some token)
    (hsame : lexed op' s = some token) :
    ∃ p', p.getTokenEx op = some (some token.1, p') ∧ Took p' token ∧ At op p'.ungetToken s := by
  have hget : ∃ p', p.getTokenEx op = some (some token.1, p') ∧ Took p' token := by
    rcases h with hready | ⟨token', htoken, hpeeked⟩
    · exact hready.get_some hs hsome
    · rw [hsame, some.injEq] at htoken
      exact htoken ▸ hpeeked.get op
  obtain ⟨p', hp', htook⟩ := hget
  exact ⟨p', hp', htook, .inr ⟨token, hsome, htook.unget (lexed_ne_eof hsome)⟩⟩

theorem At.get_none (h : At op' p s) (hs : Plain s) (hnil : strip s = []) (op : Bool) :
    ∃ p', p.getTokenEx op = some (none, p') ∧ Ready p'.ungetToken s := by
  rcases h with hready | ⟨token, htoken, -⟩
  · obtain ⟨p', hp', htype, hready'⟩ := hready.get_none hs hnil op
    refine ⟨p', hp', ?_⟩
    rw [ungetToken, if_neg (not_not.mpr htype)]
    exact hready'
  · rw [lexed_nil hnil] at htoken
    cases htoken

theorem lexed_head {c : UInt8} {t : Str} (h : lexed op s = some token) (hs : strip s = c :: t) :
    token.2.1.headD 0 = c := by
  rw [lexed, hs] at h
  simp only at h
  split at h
  · obtain rfl := some.inj h
    rfl
  · split at h
    · obtain rfl := some.inj h
      rfl
    · split at h
      · obtain rfl := some.inj h
        rfl
      · obtain rfl := some.inj h
        rfl

/-! ## The loops over operators -/

variable {operandOf loop : Node → Parser → Option (Parsed Node)} {isOperator : Str → Bool}

theorem operatorTurn_stop (h : At true p rest) (hs : Plain rest)
    (hstop : ∀ token, lexed true rest = some token → token.1 = .func → isOperator token.2.1 = false) :
    ∃ p', operatorTurn operandOf isOperator loop v p = some (.ok, v, p') ∧ At true p' rest := by
  rw [operatorTurn]
  cases hlexed : lexed true rest with
  | none =>
    obtain ⟨p', hp', hready⟩ := h.get_none hs (strip_of_lexed hlexed) true
    refine ⟨p'.ungetToken, ?_, .inl hready⟩
    rw [hp']
    rfl
  | some token =>
    obtain ⟨p', hp', htook, hat⟩ := h.get_some _ hs hlexed hlexed
    refine ⟨p'.ungetToken, ?_, hat⟩
    rw [hp']
    simp only [bind_eq_bind, bind_some]
    rw [if_neg]
    · rfl
    · rintro ⟨hfunc, hop⟩
      rw [htook.temp, hstop token hlexed (some.inj hfunc)] at hop
      cases hop

theorem operatorTurn_go (operandOf loop : Node → Parser → Option (Parsed Node)) (v : Node)
    (h : At true p s) (hs : Plain s) (hlexed : lexed true s = some token)
    (hfunc : token.1 = .func) (hop : isOperator token.2.1 = true) :
    ∃ p', Took p' token ∧ ∀ {ret : Ret} {w : Node} {p'' : Parser},
      operandOf .invalid p' = some (ret, w, p'') → w ≠ .invalid →
      operatorTurn operandOf isOperator loop v p = loop (.call token.2.1 [v, w]) p'' := by
  obtain ⟨p', hp', htook, -⟩ := h.get_some _ hs hlexed hlexed
  refine ⟨p', htook, fun {ret w p''} hoperand hne => ?_⟩
  rw [operatorTurn, hp']
  simp only [bind_eq_bind, bind_some]
  rw [if_pos ⟨congrArg some hfunc, htook.temp ▸ hop⟩, hoperand, htook.temp]
  cases w with
  | invalid => exact absurd rfl hne
  | _ => rfl

/-! ## Primary expressions -/

/-- What the parser leaves of a layout and the text behind it. -/
structure Parses (L : Layout) (rest : Str) (v : Node) (p : Parser) : Prop where
  at_rest : At true p rest
  built : Built L v

theorem plain_all (hL : L.Valid) (hf : Follow rest) : Plain (L.text ++ rest) :=
  plain_append (text_plain hL) hf.plain

theorem At.get_layout (h : At op p (L.text ++ rest)) (hL : L.Valid) (hf : Follow rest) (op' : Bool) :
    ∃ op token p', lexed op (L.text ++ rest) = some token ∧
      p.getTokenEx op' = some (some token.1, p') ∧ Took p' token := by
  rcases h with hready | ⟨token, htoken, hpeeked⟩
  · cases hlexed : lexed op' (L.text ++ rest) with
    | none =>
      obtain ⟨c, t, hstrip, -⟩ := text_first rest hL
      rw [strip_of_lexed hlexed] at hstrip
      cases hstrip
    | some token =>
      obtain ⟨p', hp', htook⟩ := hready.get_some (plain_all hL hf) hlexed
      exact ⟨op', token, p', hlexed, hp', htook⟩
  · obtain ⟨p', hp', htook⟩ := hpeeked.get op'
    exact ⟨op, token, p', htoken, hp', htook⟩

/-- The text of a whole expression ends, or a parenthesis follows. -/
abbrev Closed (rest : Str) : Prop := ∀ c ∈ (strip rest).head?, c = ')'

/-- `fexpr_parse` reads the layout. -/
def Reads (L : Layout) : Prop :=
  ∀ {n : Nat} {p : Parser} {op : Bool} {rest : Str}, At op p (L.text ++ rest) → Follow rest →
    Closed rest → 10 * L.text.length + 8 ≤ n →
    ∃ v p', fexprParse n p = some (.ok, v, p') ∧ Parses L rest v p'

theorem fexprParseTerm_number {digits : Str} (h : At op p s) (hs : Plain s)
    (hsame : lexed false s = some (.number, digits, rest))
    (hsame' : lexed op s = some (.number, digits, rest)) :
    ∃ p', fexprParseTerm (n + 1) p = some (.ok, number digits, p') ∧ Ready p' rest := by
  obtain ⟨p', hp', htook, -⟩ := h.get_some false hs hsame hsame'
  refine ⟨p', ?_, htook.ready⟩
  rw [fexprParseTerm, getToken, hp']
  simp only [bind_eq_bind, bind_some]
  rw [tokenToValue, if_pos htook.type, htook.temp]
  rfl

/-- An expression in parentheses. -/
theorem fexprParseTerm_paren {blanks after : Str} {inner : Layout}
    (h : At op p ((Layout.paren blanks inner after).text ++ rest))
    (hL : (Layout.paren blanks inner after).Valid) (hf : Follow rest) (hinner : Reads inner)
    (hn : 10 * (Layout.paren blanks inner after).text.length ≤ n) :
    ∃ v p', fexprParseTerm n p = some (.ok, v, p') ∧ Ready p' rest ∧ Built inner v := by
  have htext : (Layout.paren blanks inner after).text ++ rest =
      blanks ++ ('(' : UInt8) :: (inner.text ++ (after ++ (')' : UInt8) :: rest)) := by
    rw [Layout.text]
    simp only [append_assoc, cons_append, nil_append]
  have hlen : inner.text.length + 2 ≤ (Layout.paren blanks inner after).text.length := by
    rw [Layout.text]
    simp only [length_append, length_cons, length_nil]
    omega
  have hplain := plain_all hL hf
  rw [htext] at h hplain
  have hclose : Plain ((')' : UInt8) :: rest) := plain_cons (by decide) hf.plain
  have hfollow := follow_cons hL.2.2 (by decide) (by decide) hclose
  have hclosed : Closed (after ++ (')' : UInt8) :: rest) := by
    rw [Closed, strip_append hL.2.2, strip_of_head (by decide)]
    intro c hc
    exact (some.inj hc).symm
  obtain ⟨m, rfl⟩ : ∃ m, n = m + 1 := ⟨n - 1, by omega⟩
  obtain ⟨p₁, hp₁, htook, -⟩ := h.get_some false hplain
    (lexed_single hL.1 (by decide) (show single '(' = some .lparen from rfl) false _)
    (lexed_single hL.1 (by decide) (show single '(' = some .lparen from rfl) op _)
  obtain ⟨v, p₂, hp₂, hparses⟩ := hinner (.inl htook.ready : At true p₁ _) hfollow hclosed
    (n := m) (by omega)
  obtain ⟨p₃, hp₃, htook₃, -⟩ := hparses.at_rest.get_some false hfollow.plain
    (lexed_single hL.2.2 (by decide) (show single ')' = some .rparen from rfl) false _)
    (lexed_single hL.2.2 (by decide) (show single ')' = some .rparen from rfl) true _)
  refine ⟨v, p₃, ?_, htook₃.ready, hparses.built⟩
  rw [fexprParseTerm, getToken, hp₁]
  simp only [bind_eq_bind, bind_some]
  rw [hp₂]
  simp only [bind_some]
  rw [if_neg (by decide), expectToken, getToken, hp₃]
  rfl

/-- The expressions inside of parentheses are read. -/
abbrev InnerReads (k : Nat) : Prop := ∀ L : Layout, L.size < k → L.Valid → Reads L

theorem fexprParseTerm_primary (hinner : InnerReads L.size) (hlevel : 3 ≤ L.level)
    (h : At op p (L.text ++ rest)) (hL : L.Valid) (hf : Follow rest)
    (hn : 10 * L.text.length + 1 ≤ n) :
    ∃ v p', fexprParseTerm n p = some (.ok, v, p') ∧ Ready p' rest ∧ Built L v := by
  cases L with
  | lit blanks k =>
    obtain ⟨m, rfl⟩ : ∃ m, n = m + 1 := ⟨n - 1, by omega⟩
    obtain ⟨p', hp', hready⟩ := fexprParseTerm_number (n := m) h (plain_all hL hf)
      (lexed_lit hL hf false) (lexed_lit hL hf op)
    exact ⟨_, p', hp', hready, .lit⟩
  | paren blanks inner after =>
    obtain ⟨v, p', hp', hready, hbuilt⟩ := fexprParseTerm_paren h hL hf
      (hinner inner (Nat.lt_succ_self _) hL.2.1) (Nat.le_of_succ_le hn)
    exact ⟨v, p', hp', hready, .paren hbuilt⟩
  | neg blanks operand => exact absurd hlevel (Nat.not_succ_le_self 2)
  | bin o l blanks r =>
    have hlow : o.level ≤ 1 := by cases o <;> decide
    exact absurd (hlevel.trans hlow) (by decide)

/-! ## The unary minus -/

theorem unsigned_primary : ∀ {L : Layout}, L.Valid → 2 ≤ L.level → 3 ≤ L.unsigned.level
  | .lit _ _, _, _ | .paren _ _ _, _, _ => Nat.le_refl 3
  | .neg _ operand, h, _ => unsigned_primary (L := operand) h.2.1 h.2.2
  | .bin o _ _ _, _, h => by
    have hlow : o.level ≤ 1 := by cases o <;> decide
    exact absurd (h.trans hlow) (by decide)

theorem unsigned_length : ∀ L : Layout, L.unsigned.text.length ≤ L.text.length
  | .lit _ _ | .paren _ _ _ => Nat.le_refl _
  | .neg _ operand => by
    have hoperand := unsigned_length operand
    rw [Layout.unsigned, Layout.text, length_append, length_cons]
    omega
  | .bin _ l _ _ => by
    have hl := unsigned_length l
    simp only [Layout.unsigned, Layout.text, length_append]
    exact Nat.add_le_add_right hl _

theorem fexprParseUnary_primary (hinner : InnerReads L.size) (hlevel : 3 ≤ L.level)
    (h : At op p (L.text ++ rest)) (hL : L.Valid) (hf : Follow rest)
    (hsame : lexed false (L.text ++ rest) = some token) (hsame' : lexed op (L.text ++ rest) = some token)
    (hfunc : token.1 ≠ .func) (hn : 10 * L.text.length + 2 ≤ n) :
    ∃ v p', fexprParseUnary n result p = some (.ok, v, p') ∧ Parses L rest v p' := by
  obtain ⟨m, rfl⟩ : ∃ m, n = m + 1 := ⟨n - 1, by omega⟩
  obtain ⟨p₁, hp₁, htook, hat⟩ := h.get_some _ (plain_all hL hf) hsame hsame'
  obtain ⟨v, p₂, hp₂, hready, hbuilt⟩ := fexprParseTerm_primary hinner hlevel hat hL hf
    (Nat.le_of_succ_le_succ hn)
  refine ⟨v, p₂, ?_, .inl hready, hbuilt⟩
  have heof := lexed_ne_eof hsame
  rw [fexprParseUnary, hp₁]
  simp only [bind_eq_bind, bind_some]
  rw [if_neg (by simpa using heof), if_neg (by simp [hfunc]), hp₂]
  rfl

theorem Ready.of_strip (h : Ready p (strip s)) : Ready p s :=
  ⟨h.valid, h.reads.trans (strip_strip s), h.error⟩

/-- Minus signs in one token are a call, or they cancel. -/
theorem fexprParseUnary_signs {blanks : Str} {p₁ : Parser} (hinner : InnerReads (operand.size + 1))
    (hL : (Layout.neg blanks operand).Valid) (hf : Follow rest)
    (hp₁ : p.getTokenEx false = some (some .func, p₁))
    (htook : Took p₁ (.func, List.replicate (operand.signs + 1) ('-' : UInt8),
      strip (operand.unsigned.text ++ rest)))
    (hn : 10 * operand.text.length + 2 ≤ n) :
    ∃ v p', fexprParseUnary n result p = some (.ok, v, p') ∧
      Parses (Layout.neg blanks operand) rest v p' := by
  have hlen := unsigned_length operand
  have hsize : operand.unsigned.size ≤ operand.size + 1 := (unsigned_size operand).trans (Nat.le_succ _)
  obtain ⟨m, rfl⟩ : ∃ m, n = m + 1 := ⟨n - 1, by omega⟩
  obtain ⟨v, p₂, hp₂, hready, hbuilt⟩ := fexprParseTerm_primary (n := m)
    (fun L hlt => hinner L (Nat.lt_of_lt_of_le hlt hsize)) (unsigned_primary hL.2.1 hL.2.2)
    (.inl htook.ready.of_strip : At true p₁ _) (unsigned_valid hL.2.1) hf (by omega)
  have htemp : p₁.temp = List.replicate (operand.signs + 1) ('-' : UInt8) := htook.temp
  have hhead : p₁.temp.headD 0 = '-' := by rw [htemp, replicate_succ, headD_cons]
  have hall : (p₁.temp.all fun x => x = p₁.temp.headD 0) = true := by
    rw [hhead, htemp]
    refine List.all_eq_true.mpr fun x hx => ?_
    rw [eq_of_mem_replicate hx]
    decide
  have hlength : p₁.temp.length = operand.signs + 1 := by rw [htemp, length_replicate]
  rw [fexprParseUnary, hp₁]
  simp only [bind_eq_bind, bind_some]
  rw [if_neg (by simp), if_pos ⟨trivial, .inr (.inr hhead)⟩, if_pos hall, hp₂]
  simp only [bind_some, hlength, hhead]
  by_cases hodd : (operand.signs + 1) % 2 = 1
  · rw [if_pos hodd, if_pos trivial]
    exact ⟨_, p₂, rfl, .inl hready, .negEven (by omega) hbuilt⟩
  · rw [if_neg hodd]
    exact ⟨v, p₂, rfl, .inl hready, .negOdd (by omega) hbuilt⟩

theorem fexprParseUnary_negLit {blanks after : Str} {k : Nat} {p₁ : Parser}
    (hp₁ : p.getTokenEx false = some (some .number, p₁))
    (hpeeked : Peeked p₁.ungetToken (.number, ('-' : UInt8) :: decimal k, rest)) :
    ∃ v p', fexprParseUnary (n + 2) result p = some (.ok, v, p') ∧
      Parses (Layout.neg blanks (Layout.lit after k)) rest v p' := by
  obtain ⟨p₂, hp₂, htook⟩ := hpeeked.get false
  refine ⟨_, p₂, ?_, .inl htook.ready, .negLit⟩
  rw [fexprParseUnary, hp₁]
  simp only [bind_eq_bind, bind_some]
  rw [if_neg (by simp), if_neg (by simp), fexprParseTerm, getToken, hp₂]
  simp only [bind_eq_bind, bind_some]
  rw [tokenToValue, if_pos htook.type, htook.temp]
  rfl

theorem fexprParseUnary_neg {blanks : Str} (hinner : InnerReads (operand.size + 1))
    (h : At op p ((Layout.neg blanks operand).text ++ rest)) (hL : (Layout.neg blanks operand).Valid)
    (hf : Follow rest) (hn : 10 * (Layout.neg blanks operand).text.length + 2 ≤ n) :
    ∃ v p', fexprParseUnary n result p = some (.ok, v, p') ∧
      Parses (Layout.neg blanks operand) rest v p' := by
  have hplain := plain_all hL hf
  have hlen : operand.text.length + 1 ≤ (Layout.neg blanks operand).text.length := by
    rw [Layout.text, length_append, length_cons]
    omega
  obtain ⟨op', token, p₁, htoken, hp₁, htook⟩ := h.get_layout hL hf false
  by_cases hsigns : op' = true ∨ ∀ blanks k, operand ≠ Layout.lit blanks k
  · rw [lexed_neg hL hsigns rest] at htoken
    obtain rfl := some.inj htoken
    exact fexprParseUnary_signs hinner hL hf hp₁ htook (by omega)
  · rw [not_or, Bool.not_eq_true] at hsigns
    obtain ⟨rfl, hlit⟩ := hsigns
    simp only [not_forall, not_not] at hlit
    obtain ⟨after, k, rfl⟩ := hlit
    rw [lexed_neg_lit hL hf] at htoken
    obtain rfl := some.inj htoken
    obtain ⟨m, rfl⟩ : ∃ m, n = m + 2 := ⟨n - 2, by omega⟩
    exact fexprParseUnary_negLit hp₁ (htook.unget TokenType.noConfusion)

theorem fexprParseUnary_reads (result : Node) (hinner : InnerReads L.size) (hlevel : 2 ≤ L.level)
    (h : At op p (L.text ++ rest)) (hL : L.Valid) (hf : Follow rest)
    (hn : 10 * L.text.length + 2 ≤ n) :
    ∃ v p', fexprParseUnary n result p = some (.ok, v, p') ∧ Parses L rest v p' := by
  cases L with
  | lit blanks k =>
    exact fexprParseUnary_primary hinner (Nat.le_refl 3) h hL hf (lexed_lit hL hf false)
      (lexed_lit hL hf op) TokenType.noConfusion hn
  | paren blanks inner after =>
    have htoken : ∀ op, lexed op ((Layout.paren blanks inner after).text ++ rest) =
        some (.lparen, [('(' : UInt8)], inner.text ++ (after ++ [(')' : UInt8)]) ++ rest) := by
      intro op
      rw [Layout.text, append_assoc]
      exact lexed_single hL.1 (by decide) rfl op _
    exact fexprParseUnary_primary hinner (Nat.le_refl 3) h hL hf (htoken false) (htoken op)
      TokenType.noConfusion hn
  | neg blanks operand => exact fexprParseUnary_neg hinner h hL hf hn
  | bin o l blanks r =>
    have hlow : o.level ≤ 1 := by cases o <;> decide
    exact absurd (hlevel.trans hlow) (by decide)

/-! ## Products and sums -/

theorem text_length_pos (hL : L.Valid) : 1 ≤ L.text.length := by
  obtain ⟨c, t, hstrip, -⟩ := text_first [] hL
  rw [append_nil] at hstrip
  have hle := (strip_suffix L.text).length_le
  rw [hstrip, length_cons] at hle
  exact Nat.le_of_add_left_le hle

theorem bin_text (o : BinOp) (l r : Layout) (blanks rest : Str) :
    (Layout.bin o l blanks r).text ++ rest =
      l.text ++ (blanks ++ o.char :: (r.text ++ rest)) := by
  rw [Layout.text]
  simp only [append_assoc, cons_append]

theorem bin_length (o : BinOp) (l r : Layout) (blanks : Str) :
    l.text.length + (r.text.length + 1) ≤ (Layout.bin o l blanks r).text.length := by
  rw [Layout.text]
  simp only [length_append, length_cons]
  omega

theorem follow_bin {o : BinOp} {l r : Layout} {blanks : Str} (hL : (Layout.bin o l blanks r).Valid)
    (hf : Follow rest) : Follow (blanks ++ o.char :: (r.text ++ rest)) :=
  follow_cons hL.2.1 (by cases o <;> decide) (by cases o <;> decide)
    (plain_cons (char_plain o) (plain_all hL.2.2.1 hf))

/-- What may follow a product. -/
abbrev EndsProduct (rest : Str) : Prop :=
  ∀ c ∈ (strip rest).head?, c = ')' ∨ c = '+' ∨ c = '-'

variable {parse loopOf operandsOf : Nat → Node → Parser → Option (Parsed Node)} {extra : Nat}
  {Ends : Str → Prop}

/-- `parse` goes on with the loop behind a layout, where the rest begins as it may.  Fewer
turns than characters are taken. -/
def GoesOn (parse loopOf : Nat → Node → Parser → Option (Parsed Node)) (Ends : Str → Prop)
    (extra : Nat) (L : Layout) : Prop :=
  ∀ (n : Nat) (result : Node) (p : Parser) (op : Bool) (rest : Str), At op p (L.text ++ rest) →
    Follow rest → Ends rest → 10 * L.text.length + extra ≤ n →
    ∃ v m p', parse n result p = loopOf m v p' ∧ n ≤ m + L.text.length + 1 ∧ Parses L rest v p'

/-- The loop takes one more operator.  The right operand is `right` where the token took
its signs. -/
theorem goesOn_bin {o : BinOp} {l r : Layout} (right : Layout) {blanks name : Str}
    (hL : (Layout.bin o l blanks r).Valid) (hl : GoesOn parse loopOf Ends extra l)
    (hloop : ∀ m v p, loopOf (m + 1) v p = operatorTurn (operandsOf m) isOperator (loopOf m) v p)
    (hends : ∀ s, Ends (blanks ++ o.char :: s))
    (htoken : ∀ rest, ∃ behind, lexed true (blanks ++ o.char :: (r.text ++ rest)) =
      some (.func, name, behind) ∧ strip behind = strip (right.text ++ rest))
    (hname : isOperator name = true)
    (hright : ∀ (m : Nat) (p : Parser) (rest : Str), Ready p (right.text ++ rest) → Follow rest →
      Ends rest → 10 * r.text.length + 4 ≤ m →
      ∃ w p', operandsOf m .invalid p = some (.ok, w, p') ∧ Parses right rest w p')
    (hbuilt : ∀ v w, Built l v → Built right w → Built (.bin o l blanks r) (.call name [v, w])) :
    GoesOn parse loopOf Ends extra (.bin o l blanks r) := by
  intro n result p op rest h hf hrest hn
  have hlen := bin_length o l r blanks
  have hfollow := follow_bin hL hf
  rw [bin_text] at h
  obtain ⟨v, m, p₁, hp₁, hm, hparses⟩ := hl n result p op _ h hfollow (hends _) (by omega)
  obtain ⟨k, rfl⟩ : ∃ k, m = k + 1 := ⟨m - 1, by omega⟩
  obtain ⟨behind, hlexed, hstrip⟩ := htoken rest
  obtain ⟨p₂, htook, hgo⟩ := operatorTurn_go (operandsOf k) (loopOf k) v hparses.at_rest
    hfollow.plain hlexed rfl hname
  have hready : Ready p₂ (right.text ++ rest) :=
    ⟨htook.ready.valid, htook.ready.reads.trans hstrip, htook.ready.error⟩
  obtain ⟨w, p₃, hp₃, hparses₃⟩ := hright k p₂ rest hready hf hrest (by omega)
  refine ⟨_, k, p₃, ?_, by omega, hparses₃.at_rest, hbuilt v w hparses.built hparses₃.built⟩
  rw [hp₁, hloop, hgo hp₃ hparses₃.built.ne_invalid]

theorem operatorTurn_ends (operandOf loop : Node → Parser → Option (Parsed Node)) (v : Node)
    (isOperator : Str → Bool) (c : UInt8 → Bool) (h : At true p rest) (hf : Follow rest)
    (hops : ∀ token : Str, isOperator token = true → c (token.headD 0) = true)
    (hrest : ∀ x ∈ (strip rest).head?, x = ')' ∨ c x = false) :
    ∃ p', operatorTurn operandOf isOperator loop v p = some (.ok, v, p') ∧ At true p' rest := by
  refine operatorTurn_stop h hf.plain fun token htoken hfunc => ?_
  cases hstrip : strip rest with
  | nil =>
    rw [lexed_nil hstrip] at htoken
    cases htoken
  | cons x t =>
    rcases hrest x (by rw [hstrip]; rfl) with rfl | hx
    · rw [lexed, hstrip] at htoken
      obtain rfl := some.inj htoken
      cases hfunc
    · refine Bool.eq_false_iff.mpr fun hop => ?_
      have hc := hops token.2.1 hop
      rw [lexed_head htoken hstrip, hx] at hc
      cases hc

/-- Anything may follow an operand. -/
abbrev EndsOperand (_ : Str) : Prop := True

theorem fsexprParseProduct_reads : ∀ {L : Layout}, InnerReads L.size → L.Valid → 1 ≤ L.level →
    GoesOn fsexprParseProduct productLoop EndsOperand 3 L := by
  intro L
  induction L with
  | bin o l blanks r ihl _ =>
    intro hinner hL hlevel
    have hr : r.size < (Layout.bin o l blanks r).size := Nat.lt_succ_of_le (Nat.le_add_left _ _)
    have hl : l.size < (Layout.bin o l blanks r).size := Nat.lt_succ_of_le (Nat.le_add_right _ _)
    have hrlevel : 2 ≤ r.level := Nat.lt_of_le_of_lt hlevel hL.2.2.2.2
    have htoken (rest : Str) : ∃ behind, lexed true (blanks ++ o.char :: (r.text ++ rest)) =
        some (.func, [o.char], behind) ∧ strip behind = strip (r.text ++ rest) := by
      refine ⟨r.text ++ rest, lexed_single hL.2.1 ?_ ?_ true _, rfl⟩
      · cases o <;> decide
      · cases o with
        | add | sub => exact absurd hlevel (Nat.not_succ_le_zero 0)
        | mul | mod => rfl
    refine goesOn_bin r hL (ihl (fun x hx => hinner x (hx.trans hl)) hL.1
      (hlevel.trans hL.2.2.2.1)) (fun m v p => rfl) (fun _ => trivial) htoken ?_
      (fun m p rest hready hf _ hm => fexprParseUnary_reads _ (fun x hx => hinner x (hx.trans hr)) hrlevel
        (.inl hready : At true p _) hL.2.2.1 hf (by omega)) (fun v w => Built.bin ?_)
    · cases o with
      | add | sub => exact absurd hlevel (Nat.not_succ_le_zero 0)
      | mul | mod => decide
    · rintro rfl
      exact absurd hlevel (Nat.not_succ_le_zero 0)
  | _ =>
    intro hinner hL _ n result p op rest h hf _ hn
    have hlevel : ∀ {k : Nat}, 2 ≤ k + 2 := Nat.le_add_left 2 _
    obtain ⟨m, rfl⟩ : ∃ m, n = m + 1 := ⟨n - 1, by omega⟩
    obtain ⟨v, p', hp', hparses⟩ := fexprParseUnary_reads (n := m) result hinner
      hlevel h hL hf (by omega)
    refine ⟨v, m, p', ?_, by omega, hparses⟩
    rw [fsexprParseProduct, hp']
    rfl

theorem fsexprParseProduct_ends (result : Node) (hinner : InnerReads L.size) (hL : L.Valid) (hlevel : 1 ≤ L.level)
    (h : At op p (L.text ++ rest)) (hf : Follow rest) (hends : EndsProduct rest)
    (hn : 10 * L.text.length + 3 ≤ n) :
    ∃ v p', fsexprParseProduct n result p = some (.ok, v, p') ∧ Parses L rest v p' := by
  have hpos := text_length_pos hL
  obtain ⟨v, m, p₁, hp₁, hm, hparses⟩ := fsexprParseProduct_reads hinner hL hlevel n result p op rest
    h hf trivial hn
  obtain ⟨k, rfl⟩ : ∃ k, m = k + 1 := ⟨m - 1, by omega⟩
  obtain ⟨p₂, hp₂, hat⟩ := operatorTurn_ends (fexprParseUnary k) (productLoop k) v isProductOperator
    (fun x => x = '*' || x = '/' || x = '%') hparses.at_rest hf (fun _ => id) (fun x hx => by
      rcases hends x hx with rfl | rfl | rfl
      · exact .inl rfl
      · exact .inr (by decide)
      · exact .inr (by decide))
  refine ⟨v, p₂, ?_, hat, hparses.built⟩
  rw [hp₁, productLoop]
  exact hp₂

theorem fexprParseSum_product (hinner : InnerReads L.size) (hL : L.Valid) (hlevel : 1 ≤ L.level) :
    GoesOn fexprParseSum sumLoop EndsProduct 4 L := by
  intro n result p op rest h hf hends hn
  obtain ⟨m, rfl⟩ : ∃ m, n = m + 1 := ⟨n - 1, by omega⟩
  obtain ⟨v, p', hp', hparses⟩ := fsexprParseProduct_ends result hinner hL hlevel h hf hends
    (Nat.le_of_succ_le_succ hn)
  refine ⟨v, m, p', ?_, by omega, hparses⟩
  rw [fexprParseSum, hp']
  rfl

theorem fexprParseSum_reads : ∀ {L : Layout}, InnerReads L.size → L.Valid →
    GoesOn fexprParseSum sumLoop EndsProduct 4 L := by
  intro L
  induction L with
  | lit blanks k => exact fun hinner hL => fexprParseSum_product hinner hL (Nat.le_add_left 1 2)
  | paren blanks inner after =>
    exact fun hinner hL => fexprParseSum_product hinner hL (Nat.le_add_left 1 2)
  | neg blanks operand => exact fun hinner hL => fexprParseSum_product hinner hL (Nat.le_add_left 1 1)
  | bin o l blanks r ihl _ =>
    intro hinner hL
    have hr : r.size < (Layout.bin o l blanks r).size := Nat.lt_succ_of_le (Nat.le_add_left _ _)
    have hl : l.size < (Layout.bin o l blanks r).size := Nat.lt_succ_of_le (Nat.le_add_right _ _)
    have hgo := ihl (fun x hx => hinner x (hx.trans hl)) hL.1
    have hrlevel : 1 ≤ r.level := Nat.lt_of_le_of_lt (Nat.zero_le _) hL.2.2.2.2
    cases o with
    | mul | mod => exact fexprParseSum_product hinner hL (Nat.le_refl 1)
    | add =>
      refine goesOn_bin r hL hgo (fun m v p => rfl) ?_
        (fun rest => ⟨_, lexed_add hL.2.2.1 hL.2.1 rest, strip_strip _⟩) (by decide)
        (fun m p rest hready hf hends hm => fsexprParseProduct_ends _
          (fun x hx => hinner x (hx.trans hr)) hL.2.2.1 hrlevel (.inl hready : At true p _) hf hends
          (by omega)) (fun v w => Built.bin (by decide))
      intro s c hc
      rw [strip_append hL.2.1, strip_of_head (by decide)] at hc
      exact .inr (.inl (some.inj hc).symm)
    | sub =>
      have hsize := unsigned_size r
      have hlen := unsigned_length r
      refine goesOn_bin r.unsigned hL hgo (fun m v p => rfl) ?_
        (fun rest => ⟨_, lexed_sub hL.2.2.1 hL.2.1 rest, strip_strip _⟩) ?_
        (fun m p rest hready hf hends hm => fsexprParseProduct_ends _
          (fun x hx => hinner x ((hx.trans_le hsize).trans hr)) (unsigned_valid hL.2.2.1)
          (hrlevel.trans (unsigned_level hL.2.2.1)) (.inl hready : At true p _) hf hends (by omega))
        (fun v w => Built.sub)
      · intro s c hc
        rw [strip_append hL.2.1, strip_of_head (by decide)] at hc
        exact .inr (.inr (some.inj hc).symm)
      · rw [replicate_succ, isSumOperator, headD_cons]
        decide

/-! ## Whole expressions -/

theorem fexprParseSum_ends (result : Node) (hinner : InnerReads L.size) (hL : L.Valid)
    (h : At op p (L.text ++ rest)) (hf : Follow rest) (hclosed : Closed rest)
    (hn : 10 * L.text.length + 4 ≤ n) :
    ∃ v p', fexprParseSum n result p = some (.ok, v, p') ∧ Parses L rest v p' := by
  have hpos := text_length_pos hL
  obtain ⟨v, m, p₁, hp₁, hm, hparses⟩ := fexprParseSum_reads hinner hL n result p op rest h hf
    (fun c hc => .inl (hclosed c hc)) hn
  obtain ⟨k, rfl⟩ : ∃ k, m = k + 1 := ⟨m - 1, by omega⟩
  obtain ⟨p₂, hp₂, hat⟩ := operatorTurn_ends (fsexprParseProduct k) (sumLoop k) v isSumOperator
    (fun x => x = '+' || x = '-') hparses.at_rest hf (fun _ => id) fun x hx => .inl (hclosed x hx)
  refine ⟨v, p₂, ?_, hat, hparses.built⟩
  rw [hp₁, sumLoop]
  exact hp₂

theorem operatorTurn_closed (operandOf loop : Node → Parser → Option (Parsed Node)) (v : Node)
    (isOperator : Str → Bool) (h : At true p rest) (hf : Follow rest) (hclosed : Closed rest) :
    ∃ p', operatorTurn operandOf isOperator loop v p = some (.ok, v, p') ∧ At true p' rest :=
  operatorTurn_ends operandOf loop v isOperator (fun _ => true) h hf (fun _ _ => rfl)
    fun x hx => .inl (hclosed x hx)

theorem closed_get (h : At true p rest) (hf : Follow rest) (hclosed : Closed rest) (op : Bool) :
    ∃ t p', p.getTokenEx op = some (t, p') ∧ (t = none ∨ t = some .rparen ∧ p'.temp = [(')' : UInt8)]) ∧
      At true p'.ungetToken rest := by
  cases hstrip : strip rest with
  | nil =>
    obtain ⟨p', hp', hready⟩ := h.get_none hf.plain hstrip op
    exact ⟨none, p', hp', .inl rfl, .inl hready⟩
  | cons x t =>
    obtain rfl := hclosed x (by rw [hstrip]; rfl)
    have hlexed : ∀ op, lexed op rest = some (.rparen, [(')' : UInt8)], t) := by
      intro op
      rw [lexed, hstrip]
      rfl
    obtain ⟨p', hp', htook, hat⟩ := h.get_some _ hf.plain (hlexed op) (hlexed true)
    refine ⟨some .rparen, p', hp', .inr ⟨rfl, htook.temp⟩, .inr ⟨_, hlexed true, ?_⟩⟩
    exact htook.unget TokenType.noConfusion

/-- The token in front of a layout. -/
theorem first_get (h : At op p (L.text ++ rest)) (hL : L.Valid) (hf : Follow rest) (op' : Bool) :
    ∃ t p', p.getTokenEx op' = some (some t, p') ∧ (t = .func ∨ t = .number ∨ t = .lparen) ∧
      ∃ op, At op p'.ungetToken (L.text ++ rest) := by
  have htype : ∀ {op token}, lexed op (L.text ++ rest) = some token →
      token.1 = .func ∨ token.1 = .number ∨ token.1 = .lparen := by
    intro op token htoken
    obtain ⟨c, t, hstrip, hfirst⟩ := text_first rest hL
    have hnumber : ∀ s, (numberToken c s).1 = .func ∨ (numberToken c s).1 = .number := by
      intro s
      rw [numberToken]
      split
      · exact .inl rfl
      · exact .inr rfl
    rw [lexed, hstrip] at htoken
    simp only at htoken
    split at htoken
    · rename_i type hsingle
      obtain rfl := some.inj htoken
      have hall := forall_byte (p := fun c => !isFirst c || single c = none || single c = some .lparen)
        (by decide +kernel) c
      simp only [hfirst, hsingle] at hall
      exact .inr (.inr (by simpa using hall))
    · split at htoken
      · obtain rfl := some.inj htoken
        exact (hnumber _).imp_right .inl
      · split at htoken
        · obtain rfl := some.inj htoken
          exact .inl rfl
        · obtain rfl := some.inj htoken
          exact (hnumber _).imp_right .inl
  obtain ⟨op, token, p₁, htoken, hp₁, htook⟩ := h.get_layout hL hf op'
  exact ⟨token.1, p₁, hp₁, htype htoken, op, .inr ⟨token, htoken, htook.unget (lexed_ne_eof htoken)⟩⟩

theorem fexprParseQuestion_reads (hinner : InnerReads L.size) (hL : L.Valid)
    (h : At op p (L.text ++ rest)) (hf : Follow rest) (hclosed : Closed rest)
    (hn : 10 * L.text.length + 7 ≤ n) :
    ∃ v p', fexprParseQuestion n p = some (.ok, v, p') ∧ Parses L rest v p' := by
  obtain ⟨m, rfl⟩ : ∃ m, n = m + 4 := ⟨n - 4, by omega⟩
  obtain ⟨v, p₁, hp₁, hparses⟩ := fexprParseSum_ends (n := m + 1) (.int32 0) hinner hL h hf hclosed
    (by omega)
  obtain ⟨p₂, hp₂, hat₂⟩ := operatorTurn_closed (fexprParseSum (m + 1)) (fun v p => some (.ok, v, p)) v
    isCompareOperator hparses.at_rest hf hclosed
  have hcompare : fexprParseCompare (m + 2) p = some (.ok, v, p₂) := by
    rw [fexprParseCompare, hp₁]
    exact hp₂
  obtain ⟨p₃, hp₃, hat₃⟩ := operatorTurn_closed (fun _ => fexprParseCompare (m + 1)) (logicLoop (m + 1)) v
    isLogicOperator hat₂ hf hclosed
  have hlogic : fexprParseLogic (m + 3) p = some (.ok, v, p₃) := by
    rw [fexprParseLogic, hcompare]
    exact hp₃
  obtain ⟨t, p₄, hp₄, ht, hat₄⟩ := closed_get hat₃ hf hclosed false
  refine ⟨v, p₄.ungetToken, ?_, hat₄, hparses.built⟩
  have hquestion : t ≠ some .question := by
    rcases ht with rfl | ⟨rfl, -⟩ <;> decide
  rw [fexprParseQuestion, hlogic]
  simp only [bind_eq_bind, bind_some]
  rw [if_neg (by decide), getToken, hp₄]
  simp only [bind_some]
  rw [if_pos hquestion]
  rfl

theorem reads_of_inner (hinner : InnerReads L.size) (hL : L.Valid) : Reads L := by
  intro n p op rest h hf hclosed hn
  obtain ⟨m, rfl⟩ : ∃ m, n = m + 1 := ⟨n - 1, by omega⟩
  obtain ⟨t, p₁, hp₁, ht, op₁, hat₁⟩ := first_get h hL hf true
  obtain ⟨v, p₂, hp₂, hparses⟩ := fexprParseQuestion_reads (n := m) hinner hL hat₁ hf hclosed
    (Nat.le_of_succ_le_succ hn)
  obtain ⟨t', p₃, hp₃, ht', hat₃⟩ := closed_get hparses.at_rest hf hclosed true
  refine ⟨v, p₃.ungetToken, ?_, hat₃, hparses.built⟩
  have hfirst : ¬(some t = none ∨ some t = some .rbracket ∨ some t = some .semicolon) ∧
      ¬some t = some .var := by
    rcases ht with rfl | rfl | rfl <;> decide
  have hassign : ¬(t' ≠ none ∧ p₃.temp = (['='] : Str)) := by
    rcases ht' with rfl | ⟨rfl, htemp⟩
    · exact fun h => h.1 rfl
    · rw [htemp]
      decide
  rw [fexprParse, hp₁]
  simp only [bind_eq_bind, bind_some]
  rw [if_neg hfirst.1]
  simp only [hfirst.2, if_false]
  rw [hp₂]
  simp only [bind_some]
  rw [if_neg (by decide), hp₃]
  simp only [bind_some]
  rw [if_neg hassign]
  rfl

theorem reads_all (hL : L.Valid) : Reads L := by
  induction hk : L.size using Nat.strong_induction_on generalizing L with
  | _ k ih => exact reads_of_inner (fun x hx hxL => ih x.size (hk ▸ hx) hxL rfl) hL

/-! ## Scripts -/

theorem At.get_end {blanks : Str} (h : At true p blanks) (hblanks : Blanks blanks) (op : Bool) :
    ∃ p', p.getTokenEx op = some (none, p') ∧ Ready p' blanks := by
  have hnil : strip blanks = [] := by
    have happ := strip_append (s := []) hblanks
    rwa [append_nil] at happ
  rcases h with hready | ⟨token, htoken, -⟩
  · obtain ⟨p', hp', -, hready'⟩ := hready.get_none (blanks_plain hblanks) hnil op
    exact ⟨p', hp', hready'⟩
  · rw [lexed_nil hnil] at htoken
    cases htoken

theorem fscriptParseStatements_reads {blanks : Str} (h : At op p (L.text ++ blanks)) (hL : L.Valid)
    (hblanks : Blanks blanks) (hn : 10 * L.text.length + 9 ≤ n) :
    ∃ v p', fscriptParseStatements n [] p = some (.ok, [v], p') ∧ Ready p' blanks ∧ Built L v := by
  obtain ⟨m, rfl⟩ : ∃ m, n = m + 1 := ⟨n - 1, by omega⟩
  have hclosed : Closed blanks := by
    have happ := strip_append (s := []) hblanks
    rw [append_nil] at happ
    rw [Closed, happ]
    exact fun c hc => absurd hc (not_mem_none c)
  obtain ⟨v, p₁, hp₁, hparses⟩ := reads_all hL h (follow_nil hblanks) hclosed
    (Nat.le_of_succ_le_succ hn)
  obtain ⟨p₂, hp₂, hready⟩ := hparses.at_rest.get_end hblanks false
  refine ⟨v, p₂, ?_, hready, hparses.built⟩
  have hne := hparses.built.ne_invalid
  rw [fscriptParseStatements, hp₁]
  simp only [bind_eq_bind, bind_some]
  rw [if_neg (by decide), getToken, hp₂]
  cases v with
  | invalid => exact absurd rfl hne
  | _ => rfl

theorem fscriptParseAll_reads {blanks : Str} (hL : L.Valid) (hblanks : Blanks blanks)
    (hn : 10 * L.text.length + 11 ≤ n) :
    ∃ v p', fscriptParseAll n (.init (L.text ++ blanks)) = some (.ok, [v], p') ∧ Built L v := by
  obtain ⟨m, rfl⟩ : ∃ m, n = m + 2 := ⟨n - 2, by omega⟩
  have hat : At true (.init (L.text ++ blanks)) (L.text ++ blanks) := .inl ⟨rfl, rfl, rfl⟩
  have hf := follow_nil hblanks
  obtain ⟨t, p₁, hp₁, ht, op, hat₁⟩ := first_get hat hL hf false
  obtain ⟨v, p₂, hp₂, hready, hbuilt⟩ := fscriptParseStatements_reads (n := m + 1) hat₁ hL hblanks
    (by omega)
  obtain ⟨p₃, hp₃, hready₃⟩ := At.get_end (.inl hready) hblanks false
  have hloop : fscriptParseAllLoop (m + 2) [] (.init (L.text ++ blanks)) = some (.ok, [v], p₃) := by
    rw [fscriptParseAllLoop, getToken, hp₁]
    simp only [bind_eq_bind, bind_some]
    rw [hp₂]
    have hend : fscriptParseAllLoop (m + 1) [v] p₂ = some (.ok, [v], p₃) := by
      rw [fscriptParseAllLoop, getToken, hp₃]
      rfl
    rcases ht with rfl | rfl | rfl <;> exact hend
  refine ⟨v, p₃, ?_, hbuilt⟩
  rw [fscriptParseAll, hloop]
  simp only [bind_eq_bind, bind_some]
  rw [hready₃.error]
  rfl

end Parser

end Awtk.Fscript
