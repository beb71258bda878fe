import Mathlib
import Awtk.Lib.Ieee

/-!
# C strings

A C string is the list of its bytes up to the NUL.  Character constants are those of
ASCII.
-/

namespace Awtk

open List

/-- The bytes of a C string in front of its NUL. -/
abbrev Str := List UInt8

/-- A character constant. -/
instance coeByte : Coe Char UInt8 := ⟨Char.toUInt8⟩

theorem forall_byte {p : UInt8 → Bool}
    (h : (List.range 256).all (fun n => p (UInt8.ofNat n)) = true) (c : UInt8) : p c = true := by
  have hc := List.all_eq_true.mp h c.toNat (mem_range.mpr c.toNat_lt)
  rwa [UInt8.ofNat_toNat] at hc

/-! ## Classes of characters -/

def isSpace (c : UInt8) : Bool := c = ' ' || (9 ≤ c && c ≤ 13)

def isDigit (c : UInt8) : Bool := '0' ≤ c && c ≤ '9'

def isAlpha (c : UInt8) : Bool := ('a' ≤ c && c ≤ 'z') || ('A' ≤ c && c ≤ 'Z')

/-- A letter, a digit or an underscore. -/
def isWord (c : UInt8) : Bool := isAlpha c || isDigit c || c = '_'

/-! ## Numbers -/

/-- The value of a digit, up to base 16. -/
def digitValue (c : UInt8) : Option Nat :=
  if isDigit c then some (c.toNat - 48)
  else if 'a' ≤ c ∧ c ≤ 'f' then some (c.toNat - 87)
  else if 'A' ≤ c ∧ c ≤ 'F' then some (c.toNat - 55)
  else none

/-- The number in front of a string. -/
def digits (base : Nat) : Nat → Str → Nat
  | n, [] => n
  | n, c :: s =>
    match digitValue c with
    | some d => if d < base then digits base (n * base + d) s else n
    | none => n

/-- `strtol` without the sign.  A prefix of the base is skipped. -/
def strtolAbs (base : Nat) (s : Str) : Nat :=
  match s with
  | c :: x :: rest =>
    if base = 16 ∧ c = '0' ∧ (x = 'x' ∨ x = 'X') then digits base 0 rest else digits base 0 s
  | _ => digits base 0 s

/-- `strtol` of a `long` of 64 bits. -/
def strtol (base : Nat) (s : Str) : Int :=
  match s.dropWhile isSpace with
  | [] => 0
  | c :: rest =>
    if c = '-' then max (-(strtolAbs base rest : Int)) (-2 ^ 63)
    else if c = '+' then min (strtolAbs base rest : Int) (2 ^ 63 - 1)
    else min (strtolAbs base (c :: rest) : Int) (2 ^ 63 - 1)

def tkStrtoi (base : Nat) (s : Str) : Int := max (min (strtol base s) (2 ^ 31 - 1)) (-2 ^ 31)

/-- What `tk_atoi` and `tk_atol` skip to find the base. -/
def tkAto (strto : Nat → Str → Int) (s : Str) : Int :=
  match s with
  | c :: x :: rest =>
    if c = '0' ∧ (x = 'x' ∨ x = 'X') then strto 16 rest
    else if c = '#' then strto 16 (x :: rest)
    else if c = '0' ∧ (x = 'b' ∨ x = 'B') then strto 2 rest
    else strto 10 s
  | _ => if s.head? = some '#' then 0 else strto 10 s

def tkAtoi (s : Str) : Int := tkAto tkStrtoi s

def tkAtol (s : Str) : Int := tkAto strtol s

def strtoull (base : Nat) (s : Str) : Nat :=
  match s.dropWhile isSpace with
  | [] => 0
  | c :: rest =>
    if c = '-' then (Int.emod (-(min (strtolAbs base rest) (2 ^ 64 - 1) : Nat)) (2 ^ 64)).toNat
    else if c = '+' then min (strtolAbs base rest) (2 ^ 64 - 1)
    else min (strtolAbs base (c :: rest)) (2 ^ 64 - 1)

def tkAtoul (s : Str) : Nat := (tkAto (fun base s => strtoull base s) s).toNat

/-- The digits of a number, as `%u` prints them. -/
def decimal (n : Nat) : Str := (Nat.toDigits 10 n).map Char.toUInt8

theorem toUInt8_digit {d : Char} (h : d.isDigit = true) :
    isDigit d.toUInt8 = true ∧ d.toUInt8.toNat = d.toNat := by
  rw [Char.isDigit, Bool.and_eq_true, decide_eq_true_eq, decide_eq_true_eq] at h
  have hlow : 48 ≤ d.toNat := UInt32.le_iff_toNat_le.mp h.1
  have hhigh : d.toNat ≤ 57 := UInt32.le_iff_toNat_le.mp h.2
  have hc : d.toUInt8.toNat = d.toNat := by
    change d.toNat % 256 = d.toNat
    omega
  rw [isDigit, Bool.and_eq_true, decide_eq_true_eq, decide_eq_true_eq, UInt8.le_iff_toNat_le,
    UInt8.le_iff_toNat_le, hc]
  exact ⟨⟨hlow, hhigh⟩, rfl⟩

theorem isDigit_of_mem_decimal {n : Nat} {c : UInt8} (h : c ∈ decimal n) : isDigit c = true := by
  rw [decimal, List.mem_map] at h
  obtain ⟨d, hd, rfl⟩ := h
  exact (toUInt8_digit (Nat.isDigit_of_mem_toDigits (by decide) (by decide) hd)).1

theorem decimal_cons (n : Nat) : ∃ c ds, decimal n = c :: ds ∧ isDigit c = true ∧
    ∀ d ∈ ds, isDigit d = true := by
  have hdigit : ∀ d ∈ decimal n, isDigit d = true := fun d hd => isDigit_of_mem_decimal hd
  cases h : decimal n with
  | nil => exact absurd (map_eq_nil_iff.mp h) Nat.toDigits_ne_nil
  | cons c ds =>
    rw [h] at hdigit
    exact ⟨c, ds, rfl, forall_mem_cons.mp hdigit⟩

theorem digits_decimal (n : Nat) : digits 10 0 (decimal n) = n := by
  have hread : ∀ {l : List Char} {k : Nat}, (∀ d ∈ l, d.isDigit = true) →
      digits 10 k (l.map Char.toUInt8) = Nat.ofDigitChars 10 l k := by
    intro l
    induction l with
    | nil => exact fun _ => rfl
    | cons d l ih =>
      intro k h
      obtain ⟨hd, hl⟩ := forall_mem_cons.mp h
      obtain ⟨hdigit, hc⟩ := toUInt8_digit hd
      have hvalue : digitValue d.toUInt8 = some (d.toNat - 48) := by
        rw [digitValue, if_pos hdigit, hc]
      have hlt : d.toNat - 48 < 10 := by
        rw [isDigit, Bool.and_eq_true, decide_eq_true_eq, decide_eq_true_eq,
          UInt8.le_iff_toNat_le, UInt8.le_iff_toNat_le, hc] at hdigit
        have hhigh : d.toNat ≤ 57 := hdigit.2
        omega
      rw [map_cons, digits, hvalue]
      simp only [hlt, if_true]
      rw [ih hl, Nat.ofDigitChars_cons, Nat.mul_comm]
      rfl
  rw [decimal, hread fun d hd => Nat.isDigit_of_mem_toDigits (by decide) (by decide) hd,
    Nat.ofDigitChars_ten_toDigits]

theorem isDigit_not_space {c : UInt8} (h : isDigit c = true) : isSpace c = false := by
  have hall := forall_byte (p := fun c => !isDigit c || !isSpace c) (by decide +kernel) c
  simpa [h] using hall

theorem ne_of_isDigit {c d : UInt8} (hc : isDigit c = true) (hd : isDigit d = false) : c ≠ d := by
  rintro rfl
  rw [hc] at hd
  cases hd

theorem strtolAbs_decimal (k : Nat) : strtolAbs 10 (decimal k) = k := by
  obtain ⟨c, ds, hcons, -, -⟩ := decimal_cons k
  have hdigits := digits_decimal k
  rw [hcons] at hdigits ⊢
  cases ds with
  | nil => exact hdigits
  | cons d ds =>
    rw [strtolAbs, if_neg fun h => absurd h.1 (by decide)]
    exact hdigits

theorem tkAto_decimal (strto : Nat → Str → Int) (k : Nat) :
    tkAto strto (decimal k) = strto 10 (decimal k) := by
  obtain ⟨c, ds, hcons, hc, hds⟩ := decimal_cons k
  rw [hcons]
  have hhash : c ≠ '#' := ne_of_isDigit hc (by decide)
  cases ds with
  | nil => exact if_neg fun h => hhash (Option.some.inj h)
  | cons d ds =>
    have hd : isDigit d = true := hds d mem_cons_self
    rw [tkAto, if_neg fun h => h.2.elim (ne_of_isDigit hd (by decide)) (ne_of_isDigit hd (by decide)),
      if_neg hhash,
      if_neg fun h => h.2.elim (ne_of_isDigit hd (by decide)) (ne_of_isDigit hd (by decide))]

theorem length_decimal_le {n : Nat} (h : n < 2 ^ 32) : (decimal n).length ≤ 10 := by
  rw [decimal, length_map, Nat.length_toDigits_le_iff (by decide) (by decide)]
  omega

/-- The digits of a number with a sign, as `%d` prints them. -/
def decimalInt (n : Int) : Str := if n < 0 then '-' :: decimal n.natAbs else decimal n.toNat

theorem tkStrtoi_range (base : Nat) (s : Str) : -2 ^ 31 ≤ tkStrtoi base s ∧ tkStrtoi base s < 2 ^ 31 := by
  rw [tkStrtoi]
  omega

theorem tkAtoi_range (s : Str) : -2 ^ 31 ≤ tkAtoi s ∧ tkAtoi s < 2 ^ 31 := by
  have hrange := tkStrtoi_range
  match s with
  | [] => exact hrange 10 []
  | [c] =>
    rw [tkAtoi, tkAto]
    · split_ifs
      · decide
      · exact hrange 10 [c]
    · intro c' x rest h
      cases h
  | c :: x :: rest =>
    rw [tkAtoi, tkAto]
    split_ifs <;> exact hrange _ _

theorem tkAtoi_decimalInt {n : Int} (hlow : -2 ^ 31 ≤ n) (hhigh : n < 2 ^ 31) : tkAtoi (decimalInt n) = n := by
  rw [decimalInt]
  split_ifs with hneg
  · obtain ⟨c, ds, hcons, hc, -⟩ := decimal_cons n.natAbs
    have habs := strtolAbs_decimal n.natAbs
    have hread : strtol 10 ('-' :: decimal n.natAbs) = max (-(n.natAbs : Int)) (-2 ^ 63) := by
      rw [strtol, dropWhile_cons_of_neg (by decide)]
      dsimp only
      rw [if_pos rfl, habs]
    rw [tkAtoi, hcons, tkAto, if_neg fun h => absurd h.1 (by decide), if_neg (by decide),
      if_neg fun h => absurd h.1 (by decide), ← hcons, tkStrtoi, hread]
    omega
  · obtain ⟨c, ds, hcons, hc, -⟩ := decimal_cons n.toNat
    have habs := strtolAbs_decimal n.toNat
    have hread : strtol 10 (decimal n.toNat) = min (n.toNat : Int) (2 ^ 63 - 1) := by
      rw [strtol, hcons, dropWhile_cons_of_neg (by rw [isDigit_not_space hc]; exact Bool.false_ne_true)]
      dsimp only
      rw [if_neg (ne_of_isDigit hc (by decide)), if_neg (ne_of_isDigit hc (by decide)), ← hcons, habs]
    rw [tkAtoi, tkAto_decimal, tkStrtoi, hread]
    omega

/-- A double as `%f` prints it, with six digits after the point. -/
def decimalFloat (bits : UInt64) : Str :=
  let e := bits.toNat / 2 ^ 52 % 2 ^ 11
  let f := bits.toNat % 2 ^ 52
  let m := if e = 0 then f else f + 2 ^ 52
  let n :=
    if 1075 ≤ e then m * 2 ^ (e - 1075) * 10 ^ 6
    else Ieee.roundEven (m * 10 ^ 6) (1075 - max e 1)
  let magnitude : Str :=
    if e = 2047 then if f = 0 then ['i', 'n', 'f'] else ['n', 'a', 'n']
    else decimal (n / 10 ^ 6) ++ ('.' : UInt8) :: (decimal (n % 10 ^ 6 + 10 ^ 6)).tail
  if 2 ^ 63 ≤ bits.toNat then '-' :: magnitude else magnitude

/-! ## Escapes -/

def strEscapeChar (c : UInt8) : UInt8 :=
  if c = '\n' then 'n'
  else if c = '\t' then 't'
  else if c = '\r' then 'r'
  else if c = 8 then 'b'
  else if c = 12 then 'f'
  else if c = 7 then 'a'
  else if c = 11 then 'v'
  else if c = 27 then 'e'
  else c

/-! ## Trimming -/

def strTrimRight (chars s : Str) : Str := (s.reverse.dropWhile (chars.contains ·)).reverse

end Awtk
