import Mathlib

/-!
# Binary32 and binary64

Conversions between the two interchange formats, on bit patterns.  `widen` is
exact.  `narrow` rounds to nearest, ties to even.  Both make a NaN quiet, as the
conversion instructions do.  So narrowing undoes widening except on signaling
NaNs, and there it never does (`narrow_widen_iff`).
-/

namespace Ieee

open Option

/-! ## Rounding -/

/-- `m / 2 ^ s` rounded to nearest, ties to even. -/
def roundEven (m s : Nat) : Nat :=
  let q := m / 2 ^ s
  let r := m % 2 ^ s
  if 2 ^ s < 2 * r ∨ (2 * r = 2 ^ s ∧ q % 2 = 1) then q + 1 else q

theorem roundEven_mul (a s : Nat) : roundEven (a * 2 ^ s) s = a := by
  have hpos : 0 < 2 ^ s := Nat.two_pow_pos s
  have hnot : ¬ (2 ^ s < 2 * 0 ∨ 2 * 0 = 2 ^ s ∧ a % 2 = 1) := by omega
  rw [roundEven, Nat.mul_div_cancel _ hpos, Nat.mul_mod_left]
  exact if_neg hnot

/-- The binary64 nearest to an integer, again as an integer. -/
def roundInt (n : Int) : Int :=
  let s := n.natAbs.log2 - 52
  n.sign * ↑(roundEven n.natAbs s * 2 ^ s)

/-! ## Fields -/

/-- Sign, exponent and fraction of a binary32 put together. -/
def pack32 (s e f : Nat) : Nat := s * 2 ^ 31 + e * 2 ^ 23 + f

/-- Sign, exponent and fraction of a binary64 put together. -/
def pack64 (s e f : Nat) : Nat := s * 2 ^ 63 + e * 2 ^ 52 + f

/-- The fraction of a NaN with its quiet bit, the top one of `n + 1`, set. -/
def quiet (n f : Nat) : Nat := f % 2 ^ n + 2 ^ n

/-- The binary64 with the value of the binary32 `x`. -/
def widenNat (x : Nat) : Nat :=
  let s := x / 2 ^ 31
  let e := x / 2 ^ 23 % 2 ^ 8
  let f := x % 2 ^ 23
  if e = 255 then pack64 s 2047 (if f = 0 then 0 else quiet 22 f * 2 ^ 29)
  else if e = 0 then
    -- a subnormal is normalised: its top bit becomes the hidden one
    if f = 0 then pack64 s 0 0
    else pack64 s (Nat.log2 f + 874) ((f - 2 ^ Nat.log2 f) * 2 ^ (52 - Nat.log2 f))
  else pack64 s (e + 896) (f * 2 ^ 29)

/-- Exponent and fraction of a finite binary64, rounded to those of a binary32.
A carry out of the fraction goes to the exponent, and what is too large becomes
infinite. -/
def narrowFinite (e f : Nat) : Nat :=
  let m := if e = 0 then f else 2 ^ 52 + f
  let e := max e 1
  let shift := max 29 (926 - e)
  min ((e + shift - 926) * 2 ^ 23 + roundEven m shift) (255 * 2 ^ 23)

/-- The binary32 nearest to the binary64 `y`. -/
def narrowNat (y : Nat) : Nat :=
  let s := y / 2 ^ 63
  let e := y / 2 ^ 52 % 2 ^ 11
  let f := y % 2 ^ 52
  if e = 2047 then pack32 s 255 (if f = 0 then 0 else quiet 22 (f / 2 ^ 29))
  else s * 2 ^ 31 + narrowFinite e f

/-- A NaN whose quiet bit is clear. -/
def Signaling (x : Nat) : Prop := x / 2 ^ 23 % 2 ^ 8 = 255 ∧ 0 < x % 2 ^ 23 ∧ x % 2 ^ 23 < 2 ^ 22

instance (x : Nat) : Decidable (Signaling x) := inferInstanceAs (Decidable (_ ∧ _ ∧ _))

/-! ## There and back -/

theorem pack64_fields {s e f : Nat} (he : e < 2 ^ 11) (hf : f < 2 ^ 52) :
    pack64 s e f / 2 ^ 63 = s ∧ pack64 s e f / 2 ^ 52 % 2 ^ 11 = e ∧ pack64 s e f % 2 ^ 52 = f := by
  unfold pack64
  omega

theorem narrowNat_pack64_finite {s e f : Nat} (he : e < 2047) (hf : f < 2 ^ 52) :
    narrowNat (pack64 s e f) = s * 2 ^ 31 + narrowFinite e f := by
  obtain ⟨hs, he', hf'⟩ := pack64_fields (s := s) (show e < 2 ^ 11 by omega) hf
  rw [narrowNat, hs, he', hf']
  exact if_neg (by omega)

theorem narrowNat_pack64_special {s f : Nat} (hf : f < 2 ^ 52) :
    narrowNat (pack64 s 2047 f) = pack32 s 255 (if f = 0 then 0 else quiet 22 (f / 2 ^ 29)) := by
  obtain ⟨hs, he', hf'⟩ := pack64_fields (s := s) (show 2047 < 2 ^ 11 by decide) hf
  rw [narrowNat, hs, he', hf']
  exact if_pos rfl

theorem narrowFinite_of_shift {e f m r shift : Nat} (hm : (if e = 0 then f else 2 ^ 52 + f) = m)
    (hshift : max 29 (926 - max e 1) = shift) (hr : roundEven m shift = r) :
    narrowFinite e f = min ((max e 1 + shift - 926) * 2 ^ 23 + r) (255 * 2 ^ 23) := by
  rw [← hr, ← hshift, ← hm]
  rfl

theorem narrowFinite_zero : narrowFinite 0 0 = 0 := by
  have hr : roundEven 0 925 = 0 := by
    have h := roundEven_mul 0 925
    rwa [Nat.zero_mul] at h
  rw [narrowFinite_of_shift (if_pos rfl) (by decide) hr]
  decide

theorem narrowFinite_normal {e f : Nat} (he : 0 < e) (he' : e < 255) (hf : f < 2 ^ 23) :
    narrowFinite (e + 896) (f * 2 ^ 29) = e * 2 ^ 23 + f := by
  have hm : (if e + 896 = 0 then f * 2 ^ 29 else 2 ^ 52 + f * 2 ^ 29) =
      (2 ^ 23 + f) * 2 ^ 29 := by
    rw [if_neg (by omega)]
    omega
  have hshift : max 29 (926 - max (e + 896) 1) = 29 := by omega
  rw [narrowFinite_of_shift hm hshift (roundEven_mul _ _)]
  omega

theorem narrowFinite_subnormal {f : Nat} (hf : 0 < f) (hf' : f < 2 ^ 23) :
    narrowFinite (Nat.log2 f + 874) ((f - 2 ^ Nat.log2 f) * 2 ^ (52 - Nat.log2 f)) = f := by
  have hne : f ≠ 0 := by omega
  have hk : Nat.log2 f < 23 := (Nat.log2_lt hne).mpr hf'
  have hle : 2 ^ Nat.log2 f ≤ f := Nat.log2_self_le hne
  generalize Nat.log2 f = k at *
  have hm : (if k + 874 = 0 then (f - 2 ^ k) * 2 ^ (52 - k)
      else 2 ^ 52 + (f - 2 ^ k) * 2 ^ (52 - k)) = f * 2 ^ (52 - k) := by
    have hpow : 2 ^ 52 = 2 ^ k * 2 ^ (52 - k) := by rw [← Nat.pow_add]; congr 1; omega
    rw [if_neg (by omega), hpow, ← Nat.add_mul, Nat.add_sub_cancel' hle]
  have hshift : max 29 (926 - max (k + 874) 1) = 52 - k := by omega
  have hbase : max (k + 874) 1 + (52 - k) - 926 = 0 := by omega
  rw [narrowFinite_of_shift hm hshift (roundEven_mul _ _), hbase]
  omega

theorem subnormal_fraction_lt {f : Nat} (hf : 0 < f) (hf' : f < 2 ^ 23) :
    Nat.log2 f < 23 ∧ (f - 2 ^ Nat.log2 f) * 2 ^ (52 - Nat.log2 f) < 2 ^ 52 := by
  have hne : f ≠ 0 := by omega
  have hk : Nat.log2 f < 23 := (Nat.log2_lt hne).mpr hf'
  have hlt : f < 2 ^ (Nat.log2 f + 1) := (Nat.log2_lt hne).mp (Nat.lt_succ_self _)
  generalize Nat.log2 f = k at *
  have hpow : 2 ^ 52 = 2 ^ k * 2 ^ (52 - k) := by rw [← Nat.pow_add]; congr 1; omega
  have hsub : f - 2 ^ k < 2 ^ k := by
    rw [Nat.pow_succ] at hlt
    omega
  rw [hpow]
  exact ⟨hk, Nat.mul_lt_mul_of_pos_right hsub (Nat.two_pow_pos _)⟩

/-- Narrowing undoes widening on everything but the signaling NaNs. -/
theorem narrowNat_widenNat_iff (x : Nat) :
    narrowNat (widenNat x) = x ↔ ¬ Signaling x := by
  have hf : x % 2 ^ 23 < 2 ^ 23 := Nat.mod_lt _ (by decide)
  have he : x / 2 ^ 23 % 2 ^ 8 < 2 ^ 8 := Nat.mod_lt _ (by decide)
  have hpack : x / 2 ^ 31 * 2 ^ 31 + (x / 2 ^ 23 % 2 ^ 8 * 2 ^ 23 + x % 2 ^ 23) = x := by omega
  unfold widenNat Signaling
  generalize x / 2 ^ 31 = s at *
  generalize x / 2 ^ 23 % 2 ^ 8 = e at *
  generalize x % 2 ^ 23 = f at *
  dsimp only
  by_cases hspecial : e = 255
  · rw [if_pos hspecial, narrowNat_pack64_special (by unfold quiet; split <;> omega)]
    unfold pack32 quiet
    by_cases hzero : f = 0
    · rw [if_pos hzero, if_pos rfl]
      omega
    · rw [if_neg hzero, if_neg (by omega)]
      omega
  · rw [if_neg hspecial]
    have hnot : ¬ (e = 255 ∧ 0 < f ∧ f < 2 ^ 22) := fun h => hspecial h.1
    refine ⟨fun _ => hnot, fun _ => ?_⟩
    by_cases hsub : e = 0
    · rw [if_pos hsub]
      by_cases hzero : f = 0
      · rw [if_pos hzero, narrowNat_pack64_finite (by decide) (by decide)]
        have := narrowFinite_zero
        omega
      · have hpos : 0 < f := Nat.pos_of_ne_zero hzero
        obtain ⟨hlog, hfrac⟩ := subnormal_fraction_lt hpos hf
        rw [if_neg hzero, narrowNat_pack64_finite (by omega) hfrac,
          narrowFinite_subnormal hpos hf]
        omega
    · rw [if_neg hsub, narrowNat_pack64_finite (by omega) (by omega),
        narrowFinite_normal (by omega) (by omega) hf]
      omega

/-! ## On machine words -/

/-- Conversion of a binary32 to binary64. -/
def widen (x : UInt32) : UInt64 := UInt64.ofNat (widenNat x.toNat)

/-- Conversion of a binary64 to binary32. -/
def narrow (y : UInt64) : UInt32 := UInt32.ofNat (narrowNat y.toNat)

theorem pack64_lt {s e f : Nat} (hs : s < 2) (he : e < 2 ^ 11) (hf : f < 2 ^ 52) :
    pack64 s e f < 2 ^ 64 := by
  unfold pack64
  omega

theorem widenNat_lt {x : Nat} (hx : x < 2 ^ 32) : widenNat x < 2 ^ 64 := by
  have hs : x / 2 ^ 31 < 2 := by omega
  have he : x / 2 ^ 23 % 2 ^ 8 < 2 ^ 8 := Nat.mod_lt _ (by decide)
  have hf : x % 2 ^ 23 < 2 ^ 23 := Nat.mod_lt _ (by decide)
  unfold widenNat
  generalize x / 2 ^ 23 % 2 ^ 8 = e at *
  generalize x % 2 ^ 23 = f at *
  dsimp only
  by_cases hspecial : e = 255
  · rw [if_pos hspecial]
    exact pack64_lt hs (by decide) (by unfold quiet; split <;> omega)
  · rw [if_neg hspecial]
    by_cases hsub : e = 0
    · rw [if_pos hsub]
      by_cases hzero : f = 0
      · rw [if_pos hzero]
        exact pack64_lt hs (by decide) (by decide)
      · obtain ⟨hlog, hfrac⟩ := subnormal_fraction_lt (Nat.pos_of_ne_zero hzero) hf
        rw [if_neg hzero]
        exact pack64_lt hs (by omega) hfrac
    · rw [if_neg hsub]
      exact pack64_lt hs (by omega) (by omega)

theorem narrowNat_lt {y : Nat} (hy : y < 2 ^ 64) : narrowNat y < 2 ^ 32 := by
  have hs : y / 2 ^ 63 < 2 := by omega
  have hf : y % 2 ^ 52 < 2 ^ 52 := Nat.mod_lt _ (by decide)
  have hfin : ∀ e f, narrowFinite e f ≤ 255 * 2 ^ 23 := fun e f => Nat.min_le_right _ _
  unfold narrowNat
  dsimp only
  split
  · unfold pack32 quiet
    split <;> omega
  · have := hfin (y / 2 ^ 52 % 2 ^ 11) (y % 2 ^ 52)
    omega

theorem narrow_widen_iff (x : UInt32) : narrow (widen x) = x ↔ ¬ Signaling x.toNat := by
  have hx := x.toNat_lt
  have hw := widenNat_lt hx
  rw [← narrowNat_widenNat_iff, ← UInt32.toNat_inj, narrow, UInt32.toNat_ofNat', widen,
    UInt64.toNat_ofNat', Nat.mod_eq_of_lt hw, Nat.mod_eq_of_lt (narrowNat_lt hw)]

/-- One and a half, and the smallest signaling NaN. -/
example : widen 0x3fc00000 = 0x3ff8000000000000 ∧ narrow (widen 0x7f800001) = 0x7fc00001 := by
  decide

end Ieee

/-!
## The numbers of binary64

A binary64 that is no NaN and no infinity is a rational number.  Its whole part is a shift of the
significand.
-/

namespace Ieee

/-- The field of the exponent. -/
def exponent (x : UInt64) : Nat := x.toNat / 2 ^ 52 % 2 ^ 11

/-- The field of the fraction. -/
def fraction (x : UInt64) : Nat := x.toNat % 2 ^ 52

/-- The fraction with the hidden bit of a normal number. -/
def significand (x : UInt64) : Nat := if exponent x = 0 then fraction x else fraction x + 2 ^ 52

/-- The absolute value. -/
def magnitude (x : UInt64) : ℚ := significand x * 2 ^ (((max (exponent x) 1 : Nat) : ℤ) - 1075)

/-- The number, unless it is a NaN or an infinity. -/
def value (x : UInt64) : Option ℚ :=
  if exponent x = 2047 then none
  else some (if 2 ^ 63 ≤ x.toNat then -magnitude x else magnitude x)

/-- The absolute value without its fraction. -/
def wholePart (x : UInt64) : Nat :=
  if 1075 ≤ exponent x then significand x * 2 ^ (exponent x - 1075)
  else significand x / 2 ^ (1075 - max (exponent x) 1)

variable {x : UInt64} {q : ℚ}

theorem magnitude_nonneg (x : UInt64) : 0 ≤ magnitude x := by
  unfold magnitude
  positivity

theorem floor_magnitude (x : UInt64) : ⌊magnitude x⌋ = wholePart x := by
  rw [magnitude, wholePart]
  split_ifs with he
  · have hexp : ((max (exponent x) 1 : Nat) : ℤ) - 1075 = (exponent x - 1075 : Nat) := by omega
    rw [hexp, zpow_natCast, ← Nat.cast_ofNat, ← Nat.cast_pow, ← Nat.cast_mul, Int.floor_natCast]
  · have hexp : ((max (exponent x) 1 : Nat) : ℤ) - 1075 =
        -((1075 - max (exponent x) 1 : Nat) : ℤ) := by omega
    rw [hexp, zpow_neg, zpow_natCast, ← div_eq_mul_inv, ← Nat.cast_ofNat, ← Nat.cast_pow,
      Rat.floor_natCast_div_natCast]
    rfl

theorem value_cases (h : value x = some q) :
    exponent x ≠ 2047 ∧
      (2 ^ 63 ≤ x.toNat ∧ q = -magnitude x ∨ ¬ 2 ^ 63 ≤ x.toNat ∧ q = magnitude x) := by
  rw [value] at h
  split_ifs at h with he hs
  · exact ⟨he, .inl ⟨hs, (Option.some.inj h).symm⟩⟩
  · exact ⟨he, .inr ⟨hs, (Option.some.inj h).symm⟩⟩

end Ieee
