import Mathlib
import Awtk.Tkc.Utf8

/-!
# Wide strings from UTF-8

A model of the decoding half of `utf8.c`, and the round trip of
`tk_utf8_from_utf16_ex` and `tk_utf8_to_utf16_ex`.  The decoder takes the bytes
of one sequence off in the order the encoder filled them in from the end
(`utf8GetContinuation_continuation`), and it splits a character above the 16 bit
plane into the two surrogates it was put together from (`units_pairChar`).
-/

namespace Awtk.Utf8

open List Option

/-! ## The decoder -/

/-- `utf8_get_char_len`: the length a lead byte announces; `none` stands for -1. -/
def utf8GetCharLen (c : UInt8) : Option Nat :=
  if c < 0x80 then some 1
  else if c &&& 0xE0 = 0xC0 then some 2
  else if c &&& 0xF0 = 0xE0 then some 3
  else if c &&& 0xF8 = 0xF0 then some 4
  else if c &&& 0xFC = 0xF8 then some 5
  else if c &&& 0xFE = 0xFC then some 6
  else none

/-- The loop of `utf8_get_char` over `n` bytes behind the lead byte.  The inner
`none` stands for -1; to read behind the memory `p` has no defined result. -/
def utf8GetContinuation : Nat → UInt32 → List UInt8 → Option (Option UInt32)
  | 0, result, _ => some (some result)
  | _ + 1, _, [] => none
  | n + 1, result, b :: p =>
    if b &&& 0xC0 ≠ 0x80 then some none
    else utf8GetContinuation n ((result <<< 6) ||| (b &&& 0x3F).toUInt32) p

/-- `utf8_get_char`: the character, and the number of bytes to `next`. -/
def utf8GetChar : List UInt8 → Option (Option (UInt32 × Nat))
  | [] => none
  | c :: p =>
    match utf8GetCharLen c with
    | none => some none
    | some len =>
      let result := c.toUInt32 &&& ((1 <<< (8 - UInt32.ofNat len)) - 1)
      (utf8GetContinuation (len - 1) result p).map (·.map fun val => (val, len))

theorem utf8GetCharLen_pos {c : UInt8} {len : Nat} (h : utf8GetCharLen c = some len) : 0 < len := by
  unfold utf8GetCharLen at h
  repeat' split at h
  all_goals cases h
  all_goals decide

theorem utf8GetChar_pos {p : List UInt8} {val : UInt32} {len : Nat}
    (h : utf8GetChar p = some (some (val, len))) : 0 < len := by
  cases p with
  | nil => cases h
  | cons c p =>
    cases hlen : utf8GetCharLen c with
    | none =>
      simp only [utf8GetChar, hlen] at h
      cases h
    | some n =>
      simp only [utf8GetChar, hlen] at h
      obtain ⟨res, _, hres⟩ := map_eq_some_iff.mp h
      obtain ⟨_, _, heq⟩ := map_eq_some_iff.mp hres
      cases heq
      exact utf8GetCharLen_pos hlen

/-- The two halves of a character above the 16 bit plane, cut to a `wchar_t` of
two bytes. -/
def highUnit (val : UInt32) : UInt32 :=
  ((0xD800 : UInt32) + ((val - 0x10000) >>> 10)).toUInt16.toUInt32

@[inherit_doc highUnit]
def lowUnit (val : UInt32) : UInt32 :=
  ((0xDC00 : UInt32) + ((val - 0x10000) &&& 0x3FF)).toUInt16.toUInt32

/-- The loop of `tk_utf8_to_utf16_ex` with `size` bytes to go. -/
def toUtf16Loop (wchar4 : Bool) (outSize : Nat) (p : List UInt8) (size : Nat)
    (out : List UInt32) : Option (Option (List UInt32)) :=
  if 0 < size ∧ U32.add out.length 1 < outSize then
    match h : utf8GetChar p with
    | none => none
    | some none => some none
    | some (some (val, len)) =>
      have := utf8GetChar_pos h
      if wchar4 = true ∨ val < 0x10000 then
        toUtf16Loop wchar4 outSize (p.drop len) (size - len) (out ++ [val])
      else if U32.add (out.length + 1) 1 < outSize then
        toUtf16Loop wchar4 outSize (p.drop len) (size - len) (out ++ [highUnit val, lowUnit val])
      else some none
  else some (some out)
termination_by size

/-- `tk_utf8_to_utf16_ex`: the units written before the terminator, or NULL as
the inner `none`. -/
def tkUtf8ToUtf16Ex (wchar4 : Bool) (str : List UInt8) (size outSize : Nat) :
    Option (Option (List UInt32)) :=
  if outSize = 0 then some none else toUtf16Loop wchar4 outSize str size []

/-! ## One character -/

/-- A lead byte with as many continuation bytes as it announces. -/
def IsSequence : List UInt8 → Prop
  | [] => False
  | c :: p => utf8GetCharLen c = some (p.length + 1) ∧ ∀ b ∈ p, b &&& 0xC0 = 0x80

/-- Sequences only. -/
def Structured (text : List UInt8) : Prop :=
  ∃ seqs : List (List UInt8), text = seqs.flatten ∧ ∀ seq ∈ seqs, IsSequence seq

theorem continuation_fst : ∀ (n : Nat) (c : UInt32) (out : List UInt8),
    (continuation n c out).1.toNat = c.toNat / 64 ^ n
  | 0, c, _ => (Nat.div_one _).symm
  | n + 1, c, out => by
    have hshift : (c >>> 6).toNat = c.toNat / 64 := by
      rw [UInt32.toNat_shiftRight, Nat.shiftRight_eq_div_pow]
      rfl
    rw [continuation, continuation_fst n, hshift, Nat.div_div_eq_div_mul, Nat.pow_succ']

theorem and_low (c : UInt32) : (c &&& 0x3F).toNat = c.toNat % 64 := by
  rw [UInt32.toNat_and]
  exact Nat.and_two_pow_sub_one_eq_mod c.toNat 6

theorem continuation_byte (c : UInt32) :
    ((c &&& 0x3F) ||| 0x80).toUInt8 &&& 0xC0 = 0x80 ∧
    (((c &&& 0x3F) ||| 0x80).toUInt8 &&& 0x3F).toUInt32 = c &&& 0x3F := by
  have hall : ∀ x : Fin 64, (UInt32.ofNat x ||| 0x80).toUInt8 &&& 0xC0 = 0x80 ∧
      ((UInt32.ofNat x ||| 0x80).toUInt8 &&& 0x3F).toUInt32 = UInt32.ofNat x := by decide
  have hx := hall ⟨c.toNat % 64, Nat.mod_lt _ (by decide)⟩
  have hc : UInt32.ofNat (c.toNat % 64) = c &&& 0x3F := by
    rw [← and_low, UInt32.ofNat_toNat]
  rw [← hc]
  exact hx

theorem shift_or_low (c : UInt32) : ((c >>> 6) <<< 6) ||| (c &&& 0x3F) = c := by
  apply UInt32.toNat_inj.mp
  have hlt := c.toNat_lt
  have hhigh : ((c >>> 6) <<< 6).toNat = (c.toNat / 64) <<< 6 := by
    rw [UInt32.toNat_shiftLeft, UInt32.toNat_shiftRight, Nat.shiftRight_eq_div_pow,
      Nat.shiftLeft_eq, Nat.shiftLeft_eq]
    show c.toNat / 64 * 64 % 2 ^ 32 = c.toNat / 64 * 64
    omega
  rw [UInt32.toNat_or, hhigh, and_low,
    ← Nat.shiftLeft_add_eq_or_of_lt (Nat.mod_lt _ (by decide)), Nat.shiftLeft_eq]
  omega

theorem utf8GetContinuation_continuation (rest : List UInt8) : ∀ (n m : Nat) (c : UInt32)
    (out : List UInt8),
    utf8GetContinuation (n + m) (continuation n c out).1 ((continuation n c out).2 ++ rest) =
      utf8GetContinuation m c (out ++ rest)
  | 0, m, c, out => by rw [Nat.zero_add]; rfl
  | n + 1, m, c, out => by
    obtain ⟨hmark, hlow⟩ := continuation_byte c
    rw [continuation, Nat.add_right_comm, Nat.add_assoc,
      utf8GetContinuation_continuation rest n (m + 1), cons_append, utf8GetContinuation,
      if_neg (not_not.mpr hmark), hlow, shift_or_low]

theorem continuation_mem : ∀ (n : Nat) (c : UInt32) {out : List UInt8},
    (∀ b ∈ out, b &&& 0xC0 = 0x80) → ∀ b ∈ (continuation n c out).2, b &&& 0xC0 = 0x80
  | 0, _, _, h => h
  | n + 1, c, out, h => by
    refine continuation_mem n (c >>> 6) ?_
    intro b hb
    cases mem_cons.mp hb with
    | inl heq => rw [heq]; exact (continuation_byte c).1
    | inr hmem => exact h b hmem

/-- What a lead byte carries. -/
def leadBits (len : Nat) : Nat := if len = 1 then 128 else 2 ^ (7 - len)

theorem lead_byte {len : Nat} (h1 : 1 ≤ len) (h6 : len ≤ 6) {c : UInt32}
    (hc : c.toNat < leadBits len) :
    utf8GetCharLen (c ||| firstByteMark len).toUInt8 = some len ∧
    (c ||| firstByteMark len).toUInt8.toUInt32 &&& ((1 <<< (8 - UInt32.ofNat len)) - 1) = c := by
  have hall : ∀ len ∈ [1, 2, 3, 4, 5, 6], ∀ x < leadBits len,
      utf8GetCharLen (UInt32.ofNat x ||| firstByteMark len).toUInt8 = some len ∧
      (UInt32.ofNat x ||| firstByteMark len).toUInt8.toUInt32 &&&
        ((1 <<< (8 - UInt32.ofNat len)) - 1) = UInt32.ofNat x := by decide +kernel
  have hlen : len ∈ [1, 2, 3, 4, 5, 6] := by
    simp only [mem_cons, not_mem_nil, or_false]
    omega
  have hx := hall len hlen c.toNat hc
  rw [UInt32.ofNat_toNat] at hx
  exact hx

theorem div_lt_leadBits {c : UInt32} (h : c.toNat < 2 ^ 31) :
    c.toNat / 64 ^ (unicharLen c - 1) < leadBits (unicharLen c) := by
  unfold unicharLen
  simp only [UInt32.lt_iff_toNat_lt]
  split
  · next h1 =>
    rw [Nat.sub_self, Nat.pow_zero, Nat.div_one]
    exact h1
  split
  · next _ h2 => exact Nat.div_lt_of_lt_mul h2
  split
  · next _ h3 => exact Nat.div_lt_of_lt_mul h3
  split
  · next _ h4 => exact Nat.div_lt_of_lt_mul h4
  split
  · next _ h5 => exact Nat.div_lt_of_lt_mul h5
  · exact Nat.div_lt_of_lt_mul h

theorem utf8GetChar_unicharToUtf8 {c : UInt32} (h : c.toNat < 2 ^ 31) (rest : List UInt8) :
    utf8GetChar (unicharToUtf8 c ++ rest) = some (some (c, unicharLen c)) := by
  obtain ⟨h1, h6⟩ := unicharLen_le c
  have hbits : (continuation (unicharLen c - 1) c []).1.toNat < leadBits (unicharLen c) := by
    rw [continuation_fst]
    exact div_lt_leadBits h
  obtain ⟨hlen, hlow⟩ := lead_byte h1 h6 hbits
  have hrest := utf8GetContinuation_continuation rest (unicharLen c - 1) 0 c []
  rw [Nat.add_zero] at hrest
  simp only [unicharToUtf8, cons_append, utf8GetChar, hlen, hlow]
  rw [hrest]
  rfl

theorem isSequence_unicharToUtf8 {c : UInt32} (h : c.toNat < 2 ^ 31) :
    IsSequence (unicharToUtf8 c) := by
  obtain ⟨h1, h6⟩ := unicharLen_le c
  have hbits : (continuation (unicharLen c - 1) c []).1.toNat < leadBits (unicharLen c) := by
    rw [continuation_fst]
    exact div_lt_leadBits h
  constructor
  · rw [(lead_byte h1 h6 hbits).1, continuation_length, length_nil]
    congr 1
    omega
  · intro b hb
    exact continuation_mem _ c (by simp) b hb

/-! ## Surrogates -/

/-- The units the decoder writes for a character. -/
def units (wchar4 : Bool) (val : UInt32) : List UInt32 :=
  if wchar4 = true ∨ val < 0x10000 then [val] else [highUnit val, lowUnit val]

theorem pairChar_toNat {wchar4 : Bool} {wc wc2 : UInt32} (h : isPair wchar4 wc wc2 = true) :
    wchar4 = false ∧ wc.toNat - 0xD800 < 1024 ∧ wc2.toNat - 0xDC00 < 1024 ∧
    0xD800 ≤ wc.toNat ∧ 0xDC00 ≤ wc2.toNat ∧
    (pairChar wc wc2).toNat = (wc.toNat - 0xD800) * 1024 + (wc2.toNat - 0xDC00) + 0x10000 := by
  simp only [isPair, Bool.and_eq_true, Bool.not_eq_true', decide_eq_true_eq,
    UInt32.le_iff_toNat_le] at h
  obtain ⟨⟨hw, h1, h2⟩, h3, h4⟩ := h
  have h1' : 0xD800 ≤ wc.toNat := h1
  have h2' : wc.toNat ≤ 0xDBFF := h2
  have h3' : 0xDC00 ≤ wc2.toNat := h3
  have h4' : wc2.toNat ≤ 0xDFFF := h4
  refine ⟨hw, by omega, by omega, h1', h3', ?_⟩
  have hhigh : (wc - 0xD800).toNat = wc.toNat - 0xD800 :=
    UInt32.toNat_sub_of_le _ _ (UInt32.le_iff_toNat_le.mpr h1)
  have hlow : (wc2 - 0xDC00).toNat = wc2.toNat - 0xDC00 :=
    UInt32.toNat_sub_of_le _ _ (UInt32.le_iff_toNat_le.mpr h3)
  have hshift : ((wc - 0xD800) <<< 10).toNat = (wc.toNat - 0xD800) <<< 10 := by
    rw [UInt32.toNat_shiftLeft, hhigh, Nat.shiftLeft_eq, Nat.shiftLeft_eq]
    show (wc.toNat - 0xD800) * 2 ^ 10 % 2 ^ 32 = (wc.toNat - 0xD800) * 2 ^ 10
    omega
  have hor : ((wc - 0xD800) <<< 10 ||| (wc2 - 0xDC00)).toNat =
      (wc.toNat - 0xD800) * 1024 + (wc2.toNat - 0xDC00) := by
    rw [UInt32.toNat_or, hshift, hlow, ← Nat.shiftLeft_add_eq_or_of_lt (by omega),
      Nat.shiftLeft_eq]
  have hk : (0x10000 : UInt32).toNat = 0x10000 := rfl
  rw [pairChar, UInt32.toNat_add, hor, hk]
  omega

theorem cut_eq {unit wc : UInt32} (h : unit.toNat = wc.toNat) (hw : wc.toNat < 2 ^ 16) :
    unit.toUInt16.toUInt32 = wc := by
  apply UInt32.toNat_inj.mp
  rw [UInt16.toNat_toUInt32, UInt32.toNat_toUInt16]
  omega

theorem units_pairChar {wchar4 : Bool} {wc wc2 : UInt32} (h : isPair wchar4 wc wc2 = true) :
    units wchar4 (pairChar wc wc2) = [wc, wc2] := by
  obtain ⟨hw, hlow, hlow2, hge, hge2, hpair⟩ := pairChar_toNat h
  have hk : (0x10000 : UInt32).toNat = 0x10000 := rfl
  have hnot : ¬ (wchar4 = true ∨ pairChar wc wc2 < 0x10000) := by
    rw [hw, UInt32.lt_iff_toNat_lt, hpair, hk]
    simp
  have hsub : (pairChar wc wc2 - 0x10000).toNat =
      (wc.toNat - 0xD800) * 1024 + (wc2.toNat - 0xDC00) := by
    rw [UInt32.toNat_sub_of_le _ _ (UInt32.le_iff_toNat_le.mpr (by rw [hpair, hk]; omega)), hpair,
      hk]
    omega
  have hhigh : highUnit (pairChar wc wc2) = wc := by
    refine cut_eq ?_ (by omega)
    rw [UInt32.toNat_add, UInt32.toNat_shiftRight, hsub, Nat.shiftRight_eq_div_pow]
    show (0xD800 + ((wc.toNat - 0xD800) * 1024 + (wc2.toNat - 0xDC00)) / 1024) % 2 ^ 32 = wc.toNat
    omega
  have hlowUnit : lowUnit (pairChar wc wc2) = wc2 := by
    refine cut_eq ?_ (by omega)
    have hand : ((pairChar wc wc2 - 0x10000) &&& 0x3FF).toNat = wc2.toNat - 0xDC00 := by
      rw [UInt32.toNat_and, hsub]
      show _ &&& (2 ^ 10 - 1) = _
      rw [Nat.and_two_pow_sub_one_eq_mod]
      omega
    have hbase : (0xDC00 : UInt32).toNat = 0xDC00 := rfl
    rw [UInt32.toNat_add, hand, hbase]
    omega
  rw [units, if_neg hnot, hhigh, hlowUnit]

/-- The wide strings of the round trip: no terminator inside, and values that fit
the scheme with four bytes, or a unit with two. -/
def Admissible (wchar4 : Bool) (ws : List UInt32) : Prop :=
  ∀ wc ∈ ws, wc ≠ 0 ∧ wc.toNat < if wchar4 then 2 ^ 31 else 2 ^ 16

instance (wchar4 : Bool) (ws : List UInt32) : Decidable (Admissible wchar4 ws) :=
  inferInstanceAs (Decidable (∀ _ ∈ _, _))

variable {wchar4 : Bool} {ws : List UInt32}

theorem Admissible.notMem (h : Admissible wchar4 ws) : 0 ∉ ws := fun hm => (h 0 hm).1 rfl

theorem Admissible.tail {wc : UInt32} (h : Admissible wchar4 (wc :: ws)) : Admissible wchar4 ws :=
  fun wc' hm => h wc' (mem_cons_of_mem _ hm)

theorem units_unit {wc : UInt32} (h : Admissible wchar4 (wc :: ws)) : units wchar4 wc = [wc] := by
  refine if_pos ?_
  cases wchar4 with
  | true => exact .inl rfl
  | false => exact .inr (UInt32.lt_iff_toNat_lt.mpr (h wc mem_cons_self).2)

theorem flatMap_units_chars : ∀ {ws : List UInt32}, Admissible wchar4 ws →
    (chars wchar4 ws).flatMap (units wchar4) = ws
  | [], _ => rfl
  | [wc], h => by rw [chars, flatMap_cons, units_unit h]; rfl
  | wc :: wc2 :: ws, h => by
    rw [chars]
    cases hp : isPair wchar4 wc wc2 with
    | true =>
      rw [if_pos rfl, flatMap_cons, units_pairChar hp, flatMap_units_chars h.tail.tail]
      rfl
    | false =>
      rw [if_neg Bool.false_ne_true, flatMap_cons, units_unit h, flatMap_units_chars h.tail]
      rfl

theorem chars_lt : ∀ {ws : List UInt32}, Admissible wchar4 ws →
    ∀ c ∈ chars wchar4 ws, c.toNat < 2 ^ 31
  | [], _, c, hc => by cases hc
  | [wc], h, c, hc => by
    have hwc := (h wc mem_cons_self).2
    cases mem_singleton.mp hc
    split at hwc <;> omega
  | wc :: wc2 :: ws, h, c, hc => by
    rw [chars] at hc
    cases hp : isPair wchar4 wc wc2 with
    | true =>
      obtain ⟨_, hlow, hlow2, _, _, hpair⟩ := pairChar_toNat hp
      rw [hp, if_pos rfl] at hc
      cases mem_cons.mp hc with
      | inl heq => rw [heq, hpair]; omega
      | inr hmem => exact chars_lt h.tail.tail c hmem
    | false =>
      rw [hp, if_neg Bool.false_ne_true] at hc
      have hwc := (h wc mem_cons_self).2
      cases mem_cons.mp hc with
      | inl heq => rw [heq]; split at hwc <;> omega
      | inr hmem => exact chars_lt h.tail c hmem

/-! ## The round trip -/

/-- The decoder takes one character off and goes on with the bytes behind it. -/
theorem toUtf16Loop_char {outSize : Nat} {c : UInt32} {out : List UInt32} (text rest : List UInt8)
    (hc : c.toNat < 2 ^ 31) (hroom : (out ++ units wchar4 c).length < outSize)
    (hout : outSize < 2 ^ 32) :
    toUtf16Loop wchar4 outSize (unicharToUtf8 c ++ text ++ rest) (unicharToUtf8 c ++ text).length
        out =
      toUtf16Loop wchar4 outSize (text ++ rest) text.length (out ++ units wchar4 c) := by
  have hlen := unicharToUtf8_length c
  have hpos := (unicharLen_le c).1
  have hdrop : (unicharToUtf8 c ++ text ++ rest).drop (unicharLen c) = text ++ rest := by
    rw [append_assoc, ← hlen, drop_left]
  have hsize : (unicharToUtf8 c ++ text).length - unicharLen c = text.length := by
    rw [length_append, hlen, Nat.add_sub_cancel_left]
  have hchar := utf8GetChar_unicharToUtf8 hc (text ++ rest)
  rw [← append_assoc] at hchar
  rw [length_append] at hroom
  unfold units at hroom ⊢
  rw [toUtf16Loop]
  by_cases hone : wchar4 = true ∨ c < 0x10000
  · rw [if_pos hone] at hroom ⊢
    have hgo : 0 < (unicharToUtf8 c ++ text).length ∧ U32.add out.length 1 < outSize := by
      rw [length_append, hlen]
      rw [length_singleton] at hroom
      rw [U32.add_of_lt (by omega)]
      omega
    rw [if_pos hgo]
    split
    · next hnone => rw [hchar] at hnone; cases hnone
    · next hnull => rw [hchar] at hnull; cases hnull
    · next val len hval =>
      rw [hchar] at hval
      cases hval
      rw [if_pos hone, hdrop, hsize]
  · rw [if_neg hone] at hroom ⊢
    have htwo : out.length + 2 < outSize := hroom
    have hgo : 0 < (unicharToUtf8 c ++ text).length ∧ U32.add out.length 1 < outSize := by
      rw [length_append, hlen, U32.add_of_lt (by omega)]
      omega
    rw [if_pos hgo]
    split
    · next hnone => rw [hchar] at hnone; cases hnone
    · next hnull => rw [hchar] at hnull; cases hnull
    · next val len hval =>
      rw [hchar] at hval
      cases hval
      rw [if_neg hone, U32.add_of_lt (by omega), if_pos (by omega), hdrop, hsize]

theorem toUtf16Loop_chars {outSize : Nat} (rest : List UInt8) (hout : outSize < 2 ^ 32) :
    ∀ (cs out : List UInt32), (∀ c ∈ cs, c.toNat < 2 ^ 31) →
    (out ++ cs.flatMap (units wchar4)).length < outSize →
    toUtf16Loop wchar4 outSize (cs.flatMap unicharToUtf8 ++ rest)
        (cs.flatMap unicharToUtf8).length out = some (some (out ++ cs.flatMap (units wchar4)))
  | [], out, _, _ => by
    rw [toUtf16Loop, if_neg fun h => absurd h.1 (Nat.lt_irrefl 0), flatMap_nil,
      append_nil]
  | c :: cs, out, hcs, hroom => by
    rw [flatMap_cons, ← append_assoc] at hroom
    have hfirst : (out ++ units wchar4 c).length < outSize := by
      rw [length_append] at hroom
      omega
    rw [flatMap_cons, flatMap_cons, toUtf16Loop_char _ rest (hcs c mem_cons_self)
      hfirst hout, toUtf16Loop_chars rest hout cs _ (fun c' hm => hcs c' (mem_cons_of_mem _ hm))
      hroom, append_assoc]

theorem structured_encode (h : Admissible wchar4 ws) : Structured (encode wchar4 ws) := by
  refine ⟨(chars wchar4 ws).map unicharToUtf8, flatMap_def .., ?_⟩
  intro seq hseq
  obtain ⟨c, hc, rfl⟩ := List.mem_map.mp hseq
  exact isSequence_unicharToUtf8 (chars_lt h c hc)

/-- A wide string is converted to UTF-8 in a block that has room for it and its
terminator, and comes back from there.  `inp` holds the string in `inSize` units,
or up to a terminator. -/
theorem toUtf16_fromUtf16 {inp : List UInt32} {inSize outSize block wideSize : Nat}
    (h : Admissible wchar4 ws) (hws : (inp.take inSize).takeWhile (· ≠ 0) = ws)
    (hout : (encode wchar4 ws).length < outSize) (hblock : outSize ≤ block)
    (hsize : outSize < 2 ^ 32) (hwide : ws.length < wideSize) (hwideSize : wideSize < 2 ^ 32) :
    ∃ text, tkUtf8FromUtf16Ex wchar4 inp inSize outSize block = some (true, text) ∧
      Structured text ∧ 0 ∉ text ∧
      ∀ rest, tkUtf8ToUtf16Ex wchar4 (text ++ 0 :: rest) text.length wideSize = some (some ws) := by
  refine ⟨encode wchar4 ws, tkUtf8FromUtf16Ex_string hws (Nat.le_of_lt hsize) hout (by omega),
    structured_encode h, encode_zero_notMem h.notMem, fun rest => ?_⟩
  have hback := flatMap_units_chars h
  have hchars := toUtf16Loop_chars (0 :: rest) hwideSize (chars wchar4 ws) [] (chars_lt h)
    (hback.symm ▸ hwide)
  rw [hback] at hchars
  rw [tkUtf8ToUtf16Ex, if_neg (by omega)]
  exact hchars

/-- A lone surrogate before a pair, with two bytes. -/
theorem toUtf16_fromUtf16_lone :
    Admissible false [0xD800, 0xD83D, 0xDE00, 0xDC00, 0x41] ∧
    ∃ text, tkUtf8FromUtf16Ex false [0xD800, 0xD83D, 0xDE00, 0xDC00, 0x41, 0] 6 12 12 =
        some (true, text) ∧
      Structured text ∧ 0 ∉ text ∧
      ∀ rest, tkUtf8ToUtf16Ex false (text ++ 0 :: rest) text.length 6 =
        some (some [0xD800, 0xD83D, 0xDE00, 0xDC00, 0x41]) := by
  have h : Admissible false [0xD800, 0xD83D, 0xDE00, 0xDC00, 0x41] := by
    simp [Admissible]
  exact ⟨h, toUtf16_fromUtf16 h (by decide) (by decide) (by decide) (by decide) (by decide)
    (by decide)⟩

end Awtk.Utf8
