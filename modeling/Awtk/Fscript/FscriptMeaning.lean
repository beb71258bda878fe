import Awtk.Fscript.FscriptExec
import Awtk.Fscript.FscriptExpr

/-!
# The meaning of an expression

Where all intermediate results fit, a layout evaluates to the value of its expression,
unless a binary minus is directly in front of another minus sign, or the quotient of a `%`
does not fit (`eval_iff`).  The name of a binary minus that took more signs is not known to
the script, so some environment gives it no value.
-/

namespace Awtk.Fscript

open Fscript.Parser List Option

set_option maxRecDepth 2048

/-! ## What fits -/

/-- Every intermediate result fits, and no divisor is zero. -/
def Expr.Fits : Expr → Prop
  | lit n => InInt32 n
  | neg e => e.Fits ∧ InInt32 (-e.value)
  | bin op l r =>
    l.Fits ∧ r.Fits ∧ (op = .mod → r.value ≠ 0) ∧ InInt32 (op.apply l.value r.value)

/-- The smallest integer is not divided by minus one. -/
def Expr.QuotientFits : Expr → Prop
  | lit _ => True
  | neg e => e.QuotientFits
  | bin op l r =>
    l.QuotientFits ∧ r.QuotientFits ∧ (op = .mod → ¬(l.value = -2 ^ 31 ∧ r.value = -1))

/-- No binary minus is directly in front of a minus sign. -/
def Layout.Apart : Layout → Prop
  | lit _ _ => True
  | paren _ inner _ => inner.Apart
  | neg _ operand => operand.Apart
  | bin op l _ r => l.Apart ∧ r.Apart ∧ (op = .sub → r.signs = 0)

instance Expr.decidableFits : ∀ e : Expr, Decidable e.Fits
  | lit n => inferInstanceAs (Decidable (InInt32 n))
  | neg e =>
    have := decidableFits e
    inferInstanceAs (Decidable (e.Fits ∧ InInt32 (-e.value)))
  | bin op l r =>
    have := decidableFits l
    have := decidableFits r
    inferInstanceAs (Decidable (l.Fits ∧ r.Fits ∧ (op = .mod → r.value ≠ 0) ∧
      InInt32 (op.apply l.value r.value)))

instance Expr.decidableQuotientFits : ∀ e : Expr, Decidable e.QuotientFits
  | lit _ => .isTrue trivial
  | neg e => decidableQuotientFits e
  | bin op l r =>
    have := decidableQuotientFits l
    have := decidableQuotientFits r
    inferInstanceAs (Decidable (l.QuotientFits ∧ r.QuotientFits ∧
      (op = .mod → ¬(l.value = -2 ^ 31 ∧ r.value = -1))))

instance Layout.decidableApart : ∀ L : Layout, Decidable L.Apart
  | lit _ _ => .isTrue trivial
  | paren _ inner _ => decidableApart inner
  | neg _ operand => decidableApart operand
  | bin op l _ r =>
    have := decidableApart l
    have := decidableApart r
    inferInstanceAs (Decidable (l.Apart ∧ r.Apart ∧ (op = .sub → r.signs = 0)))

instance Layout.decidableValid : ∀ L : Layout, Decidable L.Valid
  | lit blanks _ => inferInstanceAs (Decidable (Blanks blanks))
  | paren blanks inner after =>
    have := decidableValid inner
    inferInstanceAs (Decidable (Blanks blanks ∧ inner.Valid ∧ Blanks after))
  | neg blanks operand =>
    have := decidableValid operand
    inferInstanceAs (Decidable (Blanks blanks ∧ operand.Valid ∧ 2 ≤ operand.level))
  | bin op l blanks r =>
    have := decidableValid l
    have := decidableValid r
    inferInstanceAs (Decidable (l.Valid ∧ Blanks blanks ∧ r.Valid ∧ op.level ≤ l.level ∧
      op.level < r.level))

/-- The script parses without an error and has the value. -/
def Evaluates {F : Doubles} (env : Env F) (script : Str) (n : Int) : Prop :=
  ∃ v, fscriptEval env script = some (some v) ∧ v.Denotes n

theorem Expr.Fits.value : ∀ {e : Expr}, e.Fits → InInt32 e.value
  | .lit _, h => h
  | .neg _, h => h.2
  | .bin _ _ _, h => h.2.2.2

theorem InInt32.exact {n : Int} (h : InInt32 n) : n.natAbs ≤ 2 ^ 53 := by
  obtain ⟨hlow, hhigh⟩ := h
  omega

variable {F : Doubles} {env : Env F} {x y : Value F} {m n : Int} {L operand : Layout} {v w : Node}

/-! ## Values -/

namespace Value

theorem Denotes.isNumber (h : x.Denotes n) : x.isNumber = true := by
  cases x with
  | other v => exact h.elim
  | _ => rfl

theorem Denotes.toDouble (h : x.Denotes n) (hn : InInt32 n) : F.Is x.toDouble n := by
  have hexact := F.ofInt_is n hn.exact
  cases x with
  | other v => exact h.elim
  | double d => exact h
  | int32 k | uint32 k | int64 k | uint64 k =>
    obtain rfl : _ = n := h
    exact hexact

theorem wrapInt32_eq (hn : InInt32 n) : wrapInt32 n = n := by
  obtain ⟨hlow, hhigh⟩ := hn
  exact Int.bmod_eq_of_le (by omega) (by omega)

theorem Denotes.toInt (h : x.Denotes n) (hn : InInt32 n) : x.toInt = n := by
  cases x with
  | other v => exact h.elim
  | double d => exact F.toInt_is h hn
  | int32 k => exact h
  | uint32 k | int64 k | uint64 k =>
    obtain rfl : _ = n := h
    exact wrapInt32_eq hn

end Value

theorem int32Result_denotes (hn : InInt32 n) :
    ∃ x : Value F, int32Result n = some x ∧ x.Denotes n :=
  ⟨.int32 n, if_pos hn, rfl⟩

theorem funcMinus_denotes (hx : x.Denotes n) (hn : InInt32 n) (hr : InInt32 (-n)) :
    ∃ v, funcMinus [x] = some v ∧ v.Denotes (-n) := by
  have hdouble := F.neg_is (hx.toDouble hn)
  cases x with
  | other v => exact hx.elim
  | int32 k =>
    obtain rfl : k = n := hx
    exact int32Result_denotes hr
  | _ => exact ⟨_, rfl, hdouble⟩

theorem funcSub_cases (x y : Value F) : (∃ a b, x = .int32 a ∧ y = .int32 b) ∨
    funcSub [x, y] = some (.double (F.sub x.toDouble y.toDouble)) := by
  cases x with
  | int32 a =>
    cases y with
    | int32 b => exact .inl ⟨a, b, rfl, rfl⟩
    | _ => exact .inr rfl
  | _ => cases y <;> exact .inr rfl

theorem funcSub_denotes (hx : x.Denotes m) (hy : y.Denotes n) (hm : InInt32 m) (hn : InInt32 n)
    (hr : InInt32 (m - n)) : ∃ v, funcSub [x, y] = some v ∧ v.Denotes (m - n) := by
  have hdouble := F.sub_is (hx.toDouble hm) (hy.toDouble hn) hr.exact
  rcases funcSub_cases x y with ⟨a, b, rfl, rfl⟩ | heq
  · obtain rfl : a = m := hx
    obtain rfl : b = n := hy
    exact int32Result_denotes hr
  · exact ⟨_, heq, hdouble⟩

theorem funcMul_denotes (hx : x.Denotes m) (hy : y.Denotes n) (hm : InInt32 m) (hn : InInt32 n)
    (hr : InInt32 (m * n)) : ∃ v, funcMul [x, y] = some v ∧ v.Denotes (m * n) :=
  ⟨_, rfl, F.mul_is (hx.toDouble hm) (hy.toDouble hn) hr.exact⟩

theorem funcSum_denotes (hx : x.Denotes m) (hy : y.Denotes n) (hm : InInt32 m) (hn : InInt32 n)
    (hr : InInt32 (m + n)) : ∃ v, funcSum [x, y] = some v ∧ v.Denotes (m + n) := by
  have hzero := F.ofInt_is 0 (by decide)
  have hfirst := F.add_is hzero (hx.toDouble hm) (by rw [Int.zero_add]; exact hm.exact)
  rw [Int.zero_add] at hfirst
  have hsum := F.add_is hfirst (hy.toDouble hn) hr.exact
  cases hdouble : [x, y].any Value.isDouble with
  | true => exact ⟨_, (if_neg (cons_ne_nil _ _)).trans (if_pos hdouble), hsum⟩
  | false =>
    refine ⟨_, (if_neg (cons_ne_nil _ _)).trans (if_neg ?_), F.toInt_is hsum hr⟩
    rw [hdouble]
    exact Bool.false_ne_true

theorem funcMod_eq (hx : x.Denotes m) (hy : y.Denotes n) (hm : InInt32 m) (hn : InInt32 n)
    (h0 : n ≠ 0) :
    funcMod [x, y] = if m = -2 ^ 31 ∧ n = -1 then none else some (.int32 (m.tmod n)) := by
  rw [funcMod, hx.toInt hm, hy.toInt hn]
  exact if_congr (or_iff_right h0) rfl rfl

theorem apply_denotes (op : BinOp) (hx : x.Denotes m) (hy : y.Denotes n) (hm : InInt32 m)
    (hn : InInt32 n) (h0 : op = .mod → n ≠ 0) (hr : InInt32 (op.apply m n))
    (hq : op = .mod → ¬(m = -2 ^ 31 ∧ n = -1)) :
    ∃ v, callFunc env [op.char] [x, y] = some v ∧ v.Denotes (op.apply m n) := by
  have hnumbers : [x, y].all Value.isNumber = true := by
    simp [hx.isNumber, hy.isNumber]
  cases op with
  | add =>
    obtain ⟨v, hv, hd⟩ := funcSum_denotes hx hy hm hn hr
    exact ⟨v, (if_pos hnumbers).trans hv, hd⟩
  | sub =>
    obtain ⟨v, hv, hd⟩ := funcSub_denotes hx hy hm hn hr
    exact ⟨v, (if_pos hnumbers).trans hv, hd⟩
  | mul =>
    obtain ⟨v, hv, hd⟩ := funcMul_denotes hx hy hm hn hr
    exact ⟨v, (if_pos hnumbers).trans hv, hd⟩
  | mod =>
    refine ⟨.int32 (m.tmod n), (if_pos hnumbers).trans ?_, rfl⟩
    rw [funcMod_eq hx hy hm hn (h0 rfl), if_neg (hq rfl)]

/-! ## Numbers -/

theorem strtoull_decimal {k : Nat} (hk : k < 2 ^ 32) : strtoull 10 (decimal k) = k := by
  have habs := strtolAbs_decimal k
  obtain ⟨c, ds, hcons, hc, -⟩ := decimal_cons k
  rw [hcons] at habs ⊢
  have hdrop : (c :: ds).dropWhile isSpace = c :: ds := strip_of_head (isDigit_not_space hc)
  rw [strtoull, hdrop]
  simp only
  rw [if_neg (ne_of_isDigit hc (by decide)), if_neg (ne_of_isDigit hc (by decide)), habs]
  exact Nat.min_eq_left (by omega)

theorem tkAtoul_decimal {k : Nat} (hk : k < 2 ^ 32) : tkAtoul (decimal k) = k := by
  rw [tkAtoul, tkAto_decimal, strtoull_decimal hk, Int.toNat_natCast]

theorem not_point {k : Nat} : (decimal k).contains '.' = false := by
  rw [contains_eq_mem, decide_eq_false_iff_not]
  intro h
  have hdigit := isDigit_of_mem_decimal h
  revert hdigit
  decide

theorem exec_number {k : Nat} (hk : InInt32 k) :
    ∃ x, exec env (number (decimal k)) = some x ∧ x.Denotes k := by
  have hlt : k < 2 ^ 31 := by
    have hhigh := hk.2
    omega
  obtain ⟨c, ds, hcons, hc, -⟩ := decimal_cons k
  have htake : (decimal k).take 63 = decimal k :=
    take_of_length_le ((length_decimal_le (by omega)).trans (by decide))
  have hminus : ((decimal k).headD 0 = '-') = False := by
    rw [hcons, headD_cons]
    exact eq_false (ne_of_isDigit hc (by decide))
  simp only [number, htake, not_point, hminus, Bool.false_eq_true, if_false,
    tkAtoul_decimal (show k < 2 ^ 32 by omega)]
  split
  · exact ⟨.int32 k, by rw [exec], rfl⟩
  · rw [if_pos (by omega)]
    exact ⟨.uint32 k, by rw [exec], rfl⟩

theorem exec_negative {k : Nat} (hk : InInt32 k) :
    ∃ x, exec env (number (('-' : UInt8) :: decimal k)) = some x ∧ x.Denotes (-k) := by
  have hlt : k < 2 ^ 31 := by
    have hhigh := hk.2
    omega
  have htake : (('-' : UInt8) :: decimal k).take 63 = ('-' : UInt8) :: decimal k := by
    have hlength := length_decimal_le (n := k) (by omega)
    exact take_of_length_le (by rw [length_cons]; omega)
  have hpoint : (('-' : UInt8) :: decimal k).contains '.' = false := by
    rw [contains_cons, not_point]
    decide
  simp only [number, htake, hpoint, Bool.false_eq_true, if_false, headD_cons, if_true,
    tail_cons, tkAtoul_decimal (show k < 2 ^ 32 by omega)]
  split
  · exact ⟨.int32 (-k), by rw [exec], rfl⟩
  · refine ⟨.int64 (-k), ?_, rfl⟩
    rw [Int.bmod_eq_of_le (by omega) (by omega), exec]

/-! ## The signs in front -/

namespace Layout

theorem not_two_le_level {op : BinOp} {l r : Layout} {blanks : Str} :
    ¬2 ≤ (bin op l blanks r).level := by
  cases op <;> simp [level, BinOp.level]

theorem value_signs : ∀ {L : Layout}, L.Valid → 2 ≤ L.level →
    (L.signs % 2 = 0 → L.tree.value = L.unsigned.tree.value) ∧
      (L.signs % 2 = 1 → -L.tree.value = L.unsigned.tree.value)
  | lit _ _, _, _ | paren _ _ _, _, _ => ⟨fun _ => rfl, fun h => absurd h Nat.zero_ne_one⟩
  | neg _ operand, h, _ => by
    obtain ⟨heven, hodd⟩ := value_signs (L := operand) h.2.1 h.2.2
    constructor
    · intro hsigns
      exact hodd (by rw [signs] at hsigns; omega)
    · intro hsigns
      rw [tree, Expr.value, Int.neg_neg]
      exact heven (by rw [signs] at hsigns; omega)
  | bin _ _ _ _, _, hlevel => absurd hlevel not_two_le_level

theorem unsigned_fits : ∀ {L : Layout}, L.Valid → 2 ≤ L.level → L.tree.Fits → L.unsigned.tree.Fits
  | lit _ _, _, _, h | paren _ _ _, _, _, h => h
  | neg _ operand, hL, _, h => unsigned_fits (L := operand) hL.2.1 hL.2.2 h.1
  | bin _ _ _ _, _, hlevel, _ => absurd hlevel not_two_le_level

theorem unsigned_quotientFits : ∀ {L : Layout}, L.Valid → 2 ≤ L.level →
    (L.unsigned.tree.QuotientFits ↔ L.tree.QuotientFits)
  | lit _ _, _, _ | paren _ _ _, _, _ => Iff.rfl
  | neg _ operand, hL, _ => unsigned_quotientFits (L := operand) hL.2.1 hL.2.2
  | bin _ _ _ _, _, hlevel => absurd hlevel not_two_le_level

theorem unsigned_apart : ∀ {L : Layout}, L.Valid → 2 ≤ L.level → (L.unsigned.Apart ↔ L.Apart)
  | lit _ _, _, _ | paren _ _ _, _, _ => Iff.rfl
  | neg _ operand, hL, _ => unsigned_apart (L := operand) hL.2.1 hL.2.2
  | bin _ _ _ _, _, hlevel => absurd hlevel not_two_le_level

end Layout

/-! ## Calls -/

theorem minus_not_core (n : Nat) : isCore (List.replicate (n + 1) ('-' : UInt8)) = false := by
  simp +decide [isCore, replicate_succ, nameIf, blockArgs, nameWhile, nameUntil,
    nameRepeatTimes, nameFor, nameForIn, nameRepeat]

theorem char_not_core (op : BinOp) : isCore [op.char] = false := by cases op <;> decide

theorem exec_unary {name : Str} (hname : isCore name = false) :
    exec env (.call name [v]) = (exec env v).bind fun x => callFunc env name [x] := by
  simp [exec, execArgs, hname]
  cases exec env v <;> rfl

theorem exec_binary {name : Str} (hname : isCore name = false) :
    exec env (.call name [v, w]) =
      (exec env v).bind fun x => (exec env w).bind fun y => callFunc env name [x, y] := by
  simp [exec, execArgs, hname]
  cases exec env v <;> cases exec env w <;> rfl

theorem builtin_minus (n : Nat) : builtin (F := F) (List.replicate (n + 2) ('-' : UInt8)) = none := by
  simp +decide [builtin, replicate_succ]

/-! ## The value of a layout -/

/-- The value is given, or there is none because a quotient does not fit. -/
def Gives (result : Option (Value F)) (e : Expr) : Prop :=
  e.QuotientFits ∧ (∃ x, result = some x ∧ x.Denotes e.value) ∨ ¬e.QuotientFits ∧ result = none

theorem binary_gives (op : BinOp) {e₁ e₂ : Expr} (hv : Gives (exec env v) e₁)
    (hw : Gives (exec env w) e₂) (hfits : (Expr.bin op e₁ e₂).Fits) :
    Gives (exec env (.call [op.char] [v, w])) (.bin op e₁ e₂) := by
  rw [exec_binary (char_not_core op)]
  obtain ⟨hfits₁, hfits₂, h0, hr⟩ := hfits
  rcases hv with ⟨hq₁, x, hx, hm⟩ | ⟨hq₁, hx⟩
  · rcases hw with ⟨hq₂, y, hy, hn⟩ | ⟨hq₂, hy⟩
    · rw [hx, hy]
      by_cases hq : op = .mod → ¬(e₁.value = -2 ^ 31 ∧ e₂.value = -1)
      · exact .inl ⟨⟨hq₁, hq₂, hq⟩, apply_denotes op hm hn hfits₁.value hfits₂.value h0 hr hq⟩
      · refine .inr ⟨fun h => hq h.2.2, ?_⟩
        obtain ⟨rfl, hoverflow⟩ := Classical.not_imp.mp hq
        have hnumbers : [x, y].all Value.isNumber = true := by
          simp [hm.isNumber, hn.isNumber]
        refine (if_pos hnumbers).trans ?_
        rw [funcMod_eq hm hn hfits₁.value hfits₂.value (h0 rfl), if_pos (not_not.mp hoverflow)]
    · exact .inr ⟨fun h => hq₂ h.2.1, by rw [hx, hy]; rfl⟩
  · exact .inr ⟨fun h => hq₁ h.1, by rw [hx]; rfl⟩

theorem Built.gives (env : Env F) (h : Built L v) : L.Valid → L.Apart → L.tree.Fits →
    Gives (exec env v) L.tree := by
  induction h with
  | lit => exact fun _ _ hfits => .inl ⟨trivial, exec_number hfits⟩
  | paren _ ih => exact fun hL hapart hfits => ih hL.2.1 hapart hfits
  | negLit => exact fun _ _ hfits => .inl ⟨trivial, exec_negative hfits.1⟩
  | @negEven blanks operand v heven _ ih =>
    intro hL hapart hfits
    obtain ⟨-, hoperand, hlevel⟩ := hL
    have hquotient := Layout.unsigned_quotientFits hoperand hlevel
    have hin := hfits.1.value
    have hvalue := (Layout.value_signs hoperand hlevel).1 heven
    rw [exec_unary (by decide)]
    rcases ih (Layout.unsigned_valid hoperand) ((Layout.unsigned_apart hoperand hlevel).mpr hapart)
      (Layout.unsigned_fits hoperand hlevel hfits.1) with ⟨hq, x, hx, hn⟩ | ⟨hq, hx⟩
    · rw [← hvalue] at hn
      obtain ⟨y, hy, hd⟩ := funcMinus_denotes hn hin hfits.2
      rw [hx]
      refine .inl ⟨hquotient.mp hq, y, (if_pos ?_).trans hy, hd⟩
      simp [hn.isNumber]
    · exact .inr ⟨fun h => hq (hquotient.mpr h), by rw [hx]; rfl⟩
  | @negOdd blanks operand v hodd _ ih =>
    intro hL hapart hfits
    obtain ⟨-, hoperand, hlevel⟩ := hL
    have hquotient := Layout.unsigned_quotientFits hoperand hlevel
    have hvalue := (Layout.value_signs hoperand hlevel).2 hodd
    rcases ih (Layout.unsigned_valid hoperand) ((Layout.unsigned_apart hoperand hlevel).mpr hapart)
      (Layout.unsigned_fits hoperand hlevel hfits.1) with ⟨hq, x, hx, hn⟩ | ⟨hq, hx⟩
    · rw [← hvalue] at hn
      exact .inl ⟨hquotient.mp hq, x, hx, hn⟩
    · exact .inr ⟨fun h => hq (hquotient.mpr h), hx⟩
  | @sub blanks l r v w _ _ ihl ihr =>
    intro hL hapart hfits
    have hsigns := hapart.2.2 rfl
    rw [Layout.unsigned_of_signs hsigns] at ihr
    rw [hsigns]
    exact binary_gives .sub (ihl hL.1 hapart.1 hfits.1)
      (ihr hL.2.2.1 hapart.2.1 hfits.2.1) hfits
  | bin _ _ _ ihl ihr =>
    intro hL hapart hfits
    exact binary_gives _ (ihl hL.1 hapart.1 hfits.1) (ihr hL.2.2.1 hapart.2.1 hfits.2.1) hfits

/-! ## Signs that are not apart -/

/-- The environment in which the other functions return no number. -/
def Env.blank (F : Doubles) : Env F where
  var _ := none
  core _ _ := none
  func _ _ := some (.other .invalid)

/-- The value is not a number. -/
def NoNumber (result : Option (Value F)) : Prop := ∀ x, result = some x → x.isNumber = false

theorem callFunc_noNumber {name : Str} {args : List (Value F)} (hname : name ≠ (['e', 'x', 'p', 'r'] : Str))
    (h : builtin (F := F) name = none ∨ ∃ x ∈ args, x.isNumber = false) :
    NoNumber (callFunc (.blank F) name args) := by
  rintro x hx
  rw [callFunc, if_neg hname] at hx
  split at hx
  · rename_i func hfunc
    have hargs : ¬args.all Value.isNumber = true := by
      rw [hfunc] at h
      obtain ⟨y, hy, hnumber⟩ := h.resolve_left (some_ne_none func)
      rw [List.all_eq_true]
      exact fun hall => Bool.false_ne_true (hnumber.symm.trans (hall y hy))
    rw [if_neg hargs] at hx
    obtain rfl := some.inj hx
    rfl
  · obtain rfl := some.inj hx
    rfl

theorem char_ne_expr (op : BinOp) : [op.char] ≠ (['e', 'x', 'p', 'r'] : Str) := by
  cases op <;> decide

theorem minus_ne_expr (n : Nat) : List.replicate (n + 1) ('-' : UInt8) ≠ (['e', 'x', 'p', 'r'] : Str) := by
  simp +decide [replicate_succ]

theorem unary_noNumber (h : NoNumber (exec (.blank F) v)) :
    NoNumber (exec (.blank F) (.call [('-' : UInt8)] [v])) := by
  intro x hx
  rw [exec_unary (by decide), bind_eq_some_iff] at hx
  obtain ⟨y, hy, hx⟩ := hx
  exact callFunc_noNumber (by decide) (.inr ⟨y, mem_singleton.mpr rfl, h y hy⟩) x hx

theorem binary_noNumber {name : Str} (hcore : isCore name = false)
    (hname : name ≠ (['e', 'x', 'p', 'r'] : Str))
    (h : builtin (F := F) name = none ∨ NoNumber (exec (.blank F) v) ∨ NoNumber (exec (.blank F) w)) :
    NoNumber (exec (.blank F) (.call name [v, w])) := by
  intro x hx
  rw [exec_binary hcore, bind_eq_some_iff] at hx
  obtain ⟨y, hy, hx⟩ := hx
  obtain ⟨z, hz, hx⟩ := bind_eq_some_iff.mp hx
  refine callFunc_noNumber hname (h.imp_right fun h => ?_) x hx
  rcases h with hv | hw
  · exact ⟨y, mem_cons_self, hv y hy⟩
  · exact ⟨z, mem_cons_of_mem y mem_cons_self, hw z hz⟩

theorem Built.noNumber (h : Built L v) : L.Valid → ¬L.Apart → NoNumber (exec (.blank F) v) := by
  induction h with
  | lit | negLit => exact fun _ h => absurd trivial h
  | paren _ ih => exact fun hL h => ih hL.2.1 h
  | negEven _ _ ih =>
    intro hL h
    exact unary_noNumber (ih (Layout.unsigned_valid hL.2.1)
      (mt (Layout.unsigned_apart hL.2.1 hL.2.2).mp h))
  | negOdd _ _ ih =>
    intro hL h
    exact ih (Layout.unsigned_valid hL.2.1) (mt (Layout.unsigned_apart hL.2.1 hL.2.2).mp h)
  | @sub blanks l r v w _ _ ihl ihr =>
    intro hL h
    refine binary_noNumber (minus_not_core _) (minus_ne_expr _) ?_
    cases hsigns : r.signs with
    | succ n => exact .inl (builtin_minus n)
    | zero =>
      rw [Layout.unsigned_of_signs hsigns] at ihr
      by_cases hl : l.Apart
      · exact .inr (.inr (ihr hL.2.2.1 fun hr => h ⟨hl, hr, fun _ => hsigns⟩))
      · exact .inr (.inl (ihl hL.1 hl))
  | @bin op blanks l r v w hop _ _ ihl ihr =>
    intro hL h
    refine binary_noNumber (char_not_core op) (char_ne_expr op) (.inr ?_)
    by_cases hl : l.Apart
    · exact .inr (ihr hL.2.2.1 fun hr => h ⟨hl, hr, fun heq => absurd heq hop⟩)
    · exact .inl (ihl hL.1 hl)

/-! ## Evaluation -/

theorem fscriptEval_layout {blanks : Str} (hL : L.Valid) (hblanks : Layout.Blanks blanks)
    (env : Env F) : ∃ v, Built L v ∧
      fscriptEval env (L.text ++ blanks) = (exec env v).map some := by
  have hlength : 10 * L.text.length + 11 ≤ turns (L.text ++ blanks) := by
    rw [turns, length_append]
    omega
  obtain ⟨v, p, hparse, hbuilt⟩ := fscriptParseAll_reads hL hblanks hlength
  refine ⟨v, hbuilt, ?_⟩
  have hcreate : fscriptCreate (L.text ++ blanks) = some (some [v]) := by
    rw [fscriptCreate, hparse]
    rfl
  rw [fscriptEval, hcreate]
  simp only [bind_eq_bind, bind_some]
  rw [exec_unary (by decide)]
  cases exec env v <;> rfl

/-- The value is right in every environment just if no binary minus is directly in front of a
minus sign and no quotient of a `%` is too big. -/
theorem eval_iff {blanks : Str} (hL : L.Valid) (hblanks : Layout.Blanks blanks)
    (hfits : L.tree.Fits) :
    (∀ env : Env F, Evaluates env (L.text ++ blanks) L.tree.value) ↔
      L.Apart ∧ L.tree.QuotientFits := by
  constructor
  · intro h
    have hapart : L.Apart := by
      by_contra hnot
      obtain ⟨x, hx, hd⟩ := h (.blank F)
      obtain ⟨v, hbuilt, heval⟩ := fscriptEval_layout hL hblanks (.blank F)
      rw [hx] at heval
      obtain ⟨y, hy, hyx⟩ := map_eq_some_iff.mp heval.symm
      obtain rfl := some.inj hyx
      exact Bool.false_ne_true ((hbuilt.noNumber hL hnot y hy).symm.trans hd.isNumber)
    refine ⟨hapart, ?_⟩
    obtain ⟨x, hx, hd⟩ := h (.blank F)
    obtain ⟨v, hbuilt, heval⟩ := fscriptEval_layout hL hblanks (.blank F)
    rcases hbuilt.gives _ hL hapart hfits with ⟨hq, -⟩ | ⟨-, hnone⟩
    · exact hq
    · rw [hx, hnone] at heval
      cases heval
  · rintro ⟨hapart, hquotient⟩ env
    obtain ⟨v, hbuilt, heval⟩ := fscriptEval_layout hL hblanks env
    rcases hbuilt.gives env hL hapart hfits with ⟨-, x, hx, hd⟩ | ⟨hq, -⟩
    · exact ⟨x, by rw [heval, hx]; rfl, hd⟩
    · exact absurd hquotient hq

/-! ## Two expressions -/

/-- The doubles that are integers, without a bound. -/
def Doubles.exact : Doubles where
  Double := Int
  ofInt n := n
  toInt n := n
  ofText _ := 0
  neg n := -n
  add m n := m + n
  sub m n := m - n
  mul m n := m * n
  div m n := m / n
  Is m n := m = n
  ofInt_is _ _ := rfl
  toInt_is h _ := h
  neg_is h := congrArg _ h
  add_is hm hn _ := by rw [hm, hn]
  sub_is hm hn _ := by rw [hm, hn]
  mul_is hm hn _ := by rw [hm, hn]

/-- `2 - (-3) * 4`. -/
def spaced : Layout :=
  .bin .sub (.lit [] 2) [32]
    (.bin .mul (.paren [32] (.neg [] (.lit [] 3)) []) [32] (.lit [32] 4))

theorem eval_spaced : spaced.text = ['2', ' ', '-', ' ', '(', '-', '3', ')', ' ', '*', ' ', '4'] ∧
    ∀ env : Env .exact, Evaluates env (spaced.text ++ []) 14 :=
  ⟨by decide, (eval_iff (F := .exact) (L := spaced) (by decide) (by decide) (by decide)).mpr
    (by decide)⟩

/-- `1 - -2`. -/
def signed : Layout := .bin .sub (.lit [] 1) [32] (.neg [32] (.lit [] 2))

/-- No other function is known: it is `func_noop`. -/
def Env.noop (F : Doubles) : Env F where
  var _ := none
  core _ _ := none
  func _ _ := some (.int32 0)

theorem fscriptEval_signed : fscriptEval (.noop .exact) signed.text = some (some (.int32 0)) := by
  obtain ⟨v, hbuilt, heval⟩ := fscriptEval_layout (L := signed) (by decide)
    (forall_mem_nil _) (.noop .exact)
  rw [append_nil] at heval
  rw [heval]
  cases hbuilt with
  | sub hl hr =>
    cases hl with
    | lit =>
      cases hr with
      | lit => rfl
  | bin hop => exact absurd rfl hop

theorem eval_signed : signed.Valid ∧ signed.tree.Fits ∧ signed.tree.value = 3 ∧
    signed.text = ['1', ' ', '-', ' ', '-', '2'] ∧
    fscriptEval (.noop .exact) signed.text = some (some (.int32 0)) ∧
    ¬Evaluates (.noop .exact) signed.text signed.tree.value := by
  refine ⟨by decide, by decide, by decide, by decide, fscriptEval_signed, ?_⟩
  rintro ⟨x, hx, hd⟩
  rw [fscriptEval_signed] at hx
  obtain rfl := some.inj (some.inj hx)
  exact absurd (show (0 : Int) = 3 from hd) (by decide)

end Awtk.Fscript
