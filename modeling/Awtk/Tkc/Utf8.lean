import Mathlib
import Awtk.Tkc.Types

/-!
# Wide strings as UTF-8

A model of the encoding half of `utf8.c` and of `tk_utf8_dup_wstr`.  A `wchar_t`
is its value as a `uint32_t`.  The parameter `wchar4` says that it has four
bytes; with two bytes there are surrogate pairs.  `encode` is the text a wide
string stands for.  `fromUtf16Loop` stops where the output is full, and
`tkUtf8DupWstr` gives the text exactly where `DupFits` holds.
-/

namespace Awtk.Utf8

open List Option

/-! ## Characters -/

/-- The loop of `unichar_to_utf8` that fills `n` bytes from the end, six bits
each.  It gives what is left of the character. -/
def continuation : Nat → UInt32 → List UInt8 → UInt32 × List UInt8
  | 0, c, out => (c, out)
  | n + 1, c, out => continuation n (c >>> 6) (((c &&& 0x3F) ||| 0x80).toUInt8 :: out)

/-- The number of bytes of a character. -/
def unicharLen (c : UInt32) : Nat :=
  if c < 0x80 then 1
  else if c < 0x800 then 2
  else if c < 0x10000 then 3
  else if c < 0x200000 then 4
  else if c < 0x4000000 then 5
  else 6

def firstByteMark : Nat → UInt32
  | 2 => 0xC0
  | 3 => 0xE0
  | 4 => 0xF0
  | 5 => 0xF8
  | 6 => 0xFC
  | _ => 0x00

def unicharToUtf8 (c : UInt32) : List UInt8 :=
  let len := unicharLen c
  let (c, out) := continuation (len - 1) c []
  (c ||| firstByteMark len).toUInt8 :: out

/-- A high surrogate followed by a low one, where `wchar_t` has two bytes. -/
def isPair (wchar4 : Bool) (wc wc2 : UInt32) : Bool :=
  !wchar4 && (0xD800 ≤ wc && wc ≤ 0xDBFF) && (0xDC00 ≤ wc2 && wc2 ≤ 0xDFFF)

/-- The character of a surrogate pair. -/
def pairChar (wc wc2 : UInt32) : UInt32 :=
  (((wc - 0xD800) <<< 10) ||| (wc2 - 0xDC00)) + 0x10000

/-- The characters of a wide string, surrogate pairs put together. -/
def chars (wchar4 : Bool) : List UInt32 → List UInt32
  | [] => []
  | [wc] => [wc]
  | wc :: wc2 :: ws =>
    if isPair wchar4 wc wc2 then pairChar wc wc2 :: chars wchar4 ws
    else wc :: chars wchar4 (wc2 :: ws)

/-- The bytes of a wide string. -/
def encode (wchar4 : Bool) (ws : List UInt32) : List UInt8 :=
  (chars wchar4 ws).flatMap unicharToUtf8

/-! ## No terminator inside -/

theorem or_toUInt8_ne_zero (c : UInt32) {m : UInt32} (h : m.toUInt8 ≠ 0) :
    (c ||| m).toUInt8 ≠ 0 := by
  rw [UInt32.toUInt8_or]
  intro h0
  exact h (UInt8.or_eq_zero_iff.mp h0).2

theorem continuation_zero_notMem : ∀ (n : Nat) (c : UInt32) {out : List UInt8}, 0 ∉ out →
    0 ∉ (continuation n c out).2
  | 0, _, _, h => h
  | n + 1, c, out, h => by
    refine continuation_zero_notMem n (c >>> 6) ?_
    rw [mem_cons, not_or]
    exact ⟨(or_toUInt8_ne_zero _ (by decide)).symm, h⟩

theorem continuation_length : ∀ (n : Nat) (c : UInt32) (out : List UInt8),
    (continuation n c out).2.length = n + out.length
  | 0, _, _ => (Nat.zero_add _).symm
  | n + 1, c, out => by
    rw [continuation, continuation_length n, length_cons]
    omega

theorem unicharLen_cases (c : UInt32) :
    (unicharLen c = 1 ∧ c < 0x80) ∨ (2 ≤ unicharLen c ∧ unicharLen c ≤ 6) := by
  unfold unicharLen
  by_cases h : c < 0x80
  · rw [if_pos h]
    exact .inl ⟨rfl, h⟩
  · rw [if_neg h]
    refine .inr ?_
    repeat' split
    all_goals decide

theorem unicharLen_le (c : UInt32) : 1 ≤ unicharLen c ∧ unicharLen c ≤ 6 := by
  have h := unicharLen_cases c
  omega

theorem unicharToUtf8_length (c : UInt32) : (unicharToUtf8 c).length = unicharLen c := by
  have h := unicharLen_cases c
  rw [unicharToUtf8, length_cons, continuation_length, length_nil]
  omega

theorem firstByteMark_ne_zero {n : Nat} (h2 : 2 ≤ n) (h6 : n ≤ 6) :
    (firstByteMark n).toUInt8 ≠ 0 := by
  obtain rfl | rfl | rfl | rfl | rfl : n = 2 ∨ n = 3 ∨ n = 4 ∨ n = 5 ∨ n = 6 := by omega
  all_goals decide

theorem unicharToUtf8_zero_notMem {c : UInt32} (h : c ≠ 0) : 0 ∉ unicharToUtf8 c := by
  rw [unicharToUtf8, mem_cons, not_or]
  refine ⟨Ne.symm ?_, continuation_zero_notMem _ _ not_mem_nil⟩
  cases unicharLen_cases c with
  | inl hone =>
    rw [hone.1]
    intro h0
    have hc : c.toNat < 128 := UInt32.lt_iff_toNat_lt.mp hone.2
    have hlow : (c ||| 0).toUInt8.toNat = c.toNat := by
      rw [UInt32.or_zero, UInt32.toNat_toUInt8]
      omega
    have hzero : (c ||| 0).toUInt8.toNat = 0 := congrArg UInt8.toNat h0
    exact h (UInt32.toNat_inj.mp (hlow.symm.trans hzero))
  | inr hmore => exact or_toUInt8_ne_zero _ (firstByteMark_ne_zero hmore.1 hmore.2)

theorem pairChar_ge {wchar4 : Bool} {wc wc2 : UInt32} (h : isPair wchar4 wc wc2 = true) :
    0x10000 ≤ (pairChar wc wc2).toNat := by
  simp only [isPair, Bool.and_eq_true, decide_eq_true_eq] at h
  obtain ⟨⟨_, h1, h2⟩, h3, h4⟩ := h
  have hhigh : (wc - 0xD800).toNat = wc.toNat - 0xD800 := UInt32.toNat_sub_of_le _ _ h1
  have hlow : (wc2 - 0xDC00).toNat = wc2.toNat - 0xDC00 := UInt32.toNat_sub_of_le _ _ h3
  have h2' : wc.toNat ≤ 0xDBFF := UInt32.le_iff_toNat_le.mp h2
  have h4' : wc2.toNat ≤ 0xDFFF := UInt32.le_iff_toNat_le.mp h4
  have hshift : ((wc - 0xD800) <<< 10).toNat < 2 ^ 20 := by
    rw [UInt32.toNat_shiftLeft, hhigh, Nat.shiftLeft_eq]
    show (wc.toNat - 0xD800) * 2 ^ 10 % 2 ^ 32 < 2 ^ 20
    omega
  have hor : ((wc - 0xD800) <<< 10 ||| (wc2 - 0xDC00)).toNat < 2 ^ 20 := by
    rw [UInt32.toNat_or]
    exact Nat.or_lt_two_pow hshift (by omega)
  have hk : (0x10000 : UInt32).toNat = 0x10000 := rfl
  rw [pairChar, UInt32.toNat_add]
  omega

theorem pairChar_ne_zero {wchar4 : Bool} {wc wc2 : UInt32} (h : isPair wchar4 wc wc2 = true) :
    pairChar wc wc2 ≠ 0 := by
  intro h0
  have hge := pairChar_ge h
  rw [h0] at hge
  exact absurd hge (by decide)

theorem unicharLen_pairChar {wchar4 : Bool} {wc wc2 : UInt32}
    (h : isPair wchar4 wc wc2 = true) : 2 ≤ unicharLen (pairChar wc wc2) := by
  cases unicharLen_cases (pairChar wc wc2) with
  | inl hone =>
    have hlt : (pairChar wc wc2).toNat < 128 := UInt32.lt_iff_toNat_lt.mp hone.2
    have hge := pairChar_ge h
    omega
  | inr hmore => exact hmore.1

theorem chars_ne_zero {wchar4 : Bool} : ∀ {ws : List UInt32}, 0 ∉ ws → 0 ∉ chars wchar4 ws
  | [], h => h
  | [_], h => h
  | wc :: wc2 :: ws, h => by
    rw [mem_cons, not_or] at h
    rw [chars]
    split_ifs with hp
    · rw [mem_cons, not_or]
      exact ⟨(pairChar_ne_zero hp).symm,
        chars_ne_zero fun hm => h.2 (mem_cons_of_mem _ hm)⟩
    · rw [mem_cons, not_or]
      exact ⟨h.1, chars_ne_zero h.2⟩

theorem encode_zero_notMem {wchar4 : Bool} {ws : List UInt32} (h : 0 ∉ ws) :
    0 ∉ encode wchar4 ws := by
  intro hm
  obtain ⟨c, hc, hz⟩ := mem_flatMap.mp hm
  exact unicharToUtf8_zero_notMem (fun h0 => chars_ne_zero h (h0 ▸ hc)) hz

theorem length_le_encode (wchar4 : Bool) : ∀ ws : List UInt32,
    ws.length ≤ (encode wchar4 ws).length
  | [] => Nat.le_refl 0
  | [wc] => by
    have h := unicharLen_cases wc
    rw [encode, chars, flatMap_cons, length_append, unicharToUtf8_length]
    show 1 ≤ _
    omega
  | wc :: wc2 :: ws => by
    rw [encode, chars]
    by_cases hp : isPair wchar4 wc wc2 = true
    · have h2 := unicharLen_pairChar hp
      have ih := length_le_encode wchar4 ws
      rw [if_pos hp, flatMap_cons, length_append, unicharToUtf8_length]
      show ws.length + 1 + 1 ≤ _ + (encode wchar4 ws).length
      omega
    · have h1 := unicharLen_cases wc
      have ih := length_le_encode wchar4 (wc2 :: ws)
      rw [if_neg hp, flatMap_cons, length_append, unicharToUtf8_length]
      show (wc2 :: ws).length + 1 ≤ _ + (encode wchar4 (wc2 :: ws)).length
      omega

/-! ## Conversion into a block -/

/-- The loop of `tk_utf8_from_utf16_ex` over the characters before the
terminator.  `block` is the number of bytes `out` really has, and `done` the
output so far.  The result says whether everything was converted; a write behind
the block has no defined result. -/
def fromUtf16Loop (outSize block : Nat) : List UInt32 → List UInt8 → Option (List UInt8 × Bool)
  | [], done => some (done, true)
  | wc :: cs, done =>
    let tmp := unicharToUtf8 wc
    if outSize ≤ U32.add done.length tmp.length then some (done, false)
    else if block < done.length + tmp.length then none
    else fromUtf16Loop outSize block cs (done ++ tmp)

/-- `tk_utf8_from_utf16_ex` on `inSize` units, up to a terminator, for an
`outSize` that is not 0: whether it returns `out`, and the text it leaves there,
which is terminated in any case. -/
def tkUtf8FromUtf16Ex (wchar4 : Bool) (ws : List UInt32) (inSize outSize block : Nat) :
    Option (Bool × List UInt8) := do
  let (out, all) ←
    fromUtf16Loop outSize block (chars wchar4 ((ws.take inSize).takeWhile (· ≠ 0))) []
  let stop := if out.length < outSize then out.length else outSize - 1
  if stop < block then some (all, out.take stop) else none

variable {outSize block : Nat}

theorem fromUtf16Loop_fits (hsize : outSize ≤ 2 ^ 32) : ∀ {cs : List UInt32} {done : List UInt8},
    (done ++ cs.flatMap unicharToUtf8).length < outSize →
    (done ++ cs.flatMap unicharToUtf8).length ≤ block →
    fromUtf16Loop outSize block cs done = some (done ++ cs.flatMap unicharToUtf8, true)
  | [], done, _, _ => by rw [flatMap_nil, append_nil]; rfl
  | wc :: cs, done, hout, hblock => by
    rw [flatMap_cons, ← append_assoc] at hout hblock ⊢
    have hlen : done.length + (unicharToUtf8 wc).length ≤
        (done ++ unicharToUtf8 wc ++ cs.flatMap unicharToUtf8).length := by
      simp only [length_append]
      omega
    rw [fromUtf16Loop, U32.add_of_lt (by omega), if_neg (by omega), if_neg (by omega)]
    exact fromUtf16Loop_fits hsize hout hblock

theorem fromUtf16Loop_all (hblock : block < 2 ^ 32) : ∀ {cs : List UInt32} {done out : List UInt8}
    {b : Bool}, fromUtf16Loop outSize block cs done = some (out, b) →
    out = done ++ cs.flatMap unicharToUtf8 → cs ≠ [] → out.length < outSize ∧ out.length ≤ block
  | [], _, _, _, _, _, hne => absurd rfl hne
  | wc :: cs, done, out, b, h, hall, _ => by
    have hpos : 0 < (unicharToUtf8 wc).length := by
      rw [unicharToUtf8]
      exact Nat.succ_pos _
    rw [flatMap_cons] at hall
    rw [fromUtf16Loop] at h
    by_cases hstop : outSize ≤ U32.add done.length (unicharToUtf8 wc).length
    · -- the loop stopped before this character, so something is missing
      rw [if_pos hstop] at h
      cases h
      have hlen := congrArg List.length hall
      simp only [length_append] at hlen
      omega
    · rw [if_neg hstop] at h
      by_cases hover : block < done.length + (unicharToUtf8 wc).length
      · rw [if_pos hover] at h
        cases h
      · rw [if_neg hover] at h
        cases cs with
        | nil =>
          cases h
          rw [U32.add_of_lt (by omega)] at hstop
          rw [length_append]
          omega
        | cons wc' cs =>
          refine fromUtf16Loop_all hblock h ?_ (cons_ne_nil _ _)
          rw [hall, append_assoc]

theorem fromUtf16Loop_prefix : ∀ {cs : List UInt32} {done out : List UInt8} {b : Bool},
    fromUtf16Loop outSize block cs done = some (out, b) → done.length ≤ block →
    out.length ≤ block ∧ ∃ k, out = done ++ (cs.take k).flatMap unicharToUtf8
  | [], done, out, b, h, hlen => by
    cases h
    exact ⟨hlen, 0, (append_nil _).symm⟩
  | wc :: cs, done, out, b, h, hlen => by
    rw [fromUtf16Loop] at h
    by_cases hstop : outSize ≤ U32.add done.length (unicharToUtf8 wc).length
    · rw [if_pos hstop] at h
      cases h
      exact ⟨hlen, 0, (append_nil _).symm⟩
    · rw [if_neg hstop] at h
      by_cases hover : block < done.length + (unicharToUtf8 wc).length
      · rw [if_pos hover] at h
        cases h
      · rw [if_neg hover] at h
        obtain ⟨hout, k, hk⟩ := fromUtf16Loop_prefix h (by rw [length_append]; omega)
        exact ⟨hout, k + 1, by rw [hk, take_succ_cons, flatMap_cons,
          append_assoc]⟩

theorem takeWhile_ne_zero {ws : List UInt32} (h : 0 ∉ ws) : ws.takeWhile (· ≠ 0) = ws := by
  rw [takeWhile_eq_self_iff]
  intro w hw
  have hne : w ≠ 0 := fun h0 => h (h0 ▸ hw)
  simpa using hne

theorem tkUtf8FromUtf16Ex_eq_some {wchar4 : Bool} {ws : List UInt32} {inSize : Nat}
    {b : Bool} {text : List UInt8} (h0 : 0 ∉ ws)
    (h : tkUtf8FromUtf16Ex wchar4 ws inSize outSize block = some (b, text)) :
    text.length < block ∧ ∃ out, fromUtf16Loop outSize block (chars wchar4 (ws.take inSize)) [] =
      some (out, b) ∧ text <+: out := by
  have hnone : 0 ∉ ws.take inSize := fun hm => h0 (mem_of_mem_take hm)
  rw [tkUtf8FromUtf16Ex, takeWhile_ne_zero hnone] at h
  obtain ⟨⟨out, all⟩, hloop, h⟩ := bind_eq_some_iff.mp h
  dsimp only at h
  generalize (if out.length < outSize then out.length else outSize - 1) = stop at h
  by_cases hstop : stop < block
  · rw [if_pos hstop] at h
    cases h
    refine ⟨?_, out, hloop, take_prefix ..⟩
    rw [length_take]
    omega
  · rw [if_neg hstop] at h
    cases h

theorem tkUtf8FromUtf16Ex_string {wchar4 : Bool} {inp ws : List UInt32} {inSize : Nat}
    (hws : (inp.take inSize).takeWhile (· ≠ 0) = ws) (hsize : outSize ≤ 2 ^ 32)
    (hout : (encode wchar4 ws).length < outSize) (hblock : (encode wchar4 ws).length < block) :
    tkUtf8FromUtf16Ex wchar4 inp inSize outSize block = some (true, encode wchar4 ws) := by
  have hloop : fromUtf16Loop outSize block (chars wchar4 ws) [] = some (encode wchar4 ws, true) :=
    fromUtf16Loop_fits hsize hout (Nat.le_of_lt hblock)
  rw [tkUtf8FromUtf16Ex, hws, hloop]
  show (if _ then _ else _) = _
  rw [if_pos hout, if_pos hblock, take_length]

theorem tkUtf8FromUtf16Ex_fits {wchar4 : Bool} {ws : List UInt32} {inSize : Nat} (h0 : 0 ∉ ws)
    (hin : ws.length ≤ inSize) (hsize : outSize ≤ 2 ^ 32)
    (hout : (encode wchar4 ws).length < outSize) (hblock : (encode wchar4 ws).length < block) :
    tkUtf8FromUtf16Ex wchar4 ws inSize outSize block = some (true, encode wchar4 ws) := by
  refine tkUtf8FromUtf16Ex_string ?_ hsize hout hblock
  rw [take_of_length_le hin, takeWhile_ne_zero h0]

/-! ## A fresh copy -/

/-- The fields of a `str_t` under construction: the text up to its terminator,
if there is a block, its length, and the capacity. -/
structure Str where
  str : Option (List UInt8)
  size : Nat
  capacity : Nat
  deriving DecidableEq, Repr

/-- `str_extend` of an extendable string.  The bytes behind the text are
cleared. -/
def strExtend (realloc : Nat → Bool) (s : Str) (capacity : Nat) : Ret × Str :=
  if capacity ≤ s.capacity then (.ok, s)
  else if realloc (capacity + 1) then
    (.ok, { s with str := some ((s.str.getD []).take s.size), capacity })
  else (.fail, s)

def strInit (realloc : Nat → Bool) (capacity : Nat) : Str :=
  (strExtend realloc ⟨none, 0, 0⟩ capacity).2

/-- `str_from_wstr_with_len`.  The sizes are `uint32_t`. -/
def strFromWstrWithLen (realloc : Nat → Bool) (wchar4 : Bool) (s : Str) (ws : List UInt32)
    (len : Nat) : Option (Ret × Str) :=
  let s := { s with size := 0, str := s.str.map fun _ => [] }
  let size := U32.add (U32.mul len 6) 1
  match strExtend realloc s (U32.add size 1) with
  | (.ok, s) =>
    if size > 0 then
      match s.str with
      | none => some (.ok, s)
      | some _ =>
        (tkUtf8FromUtf16Ex wchar4 ws len size (s.capacity + 1)).map fun (_, text) =>
          (.ok, { s with str := some text, size := text.length })
    else some (.ok, s)
  | (_, s) => some (.oom, s)

/-- `tk_utf8_dup_wstr`: the text, or NULL.  What `str_init` and `str_from_wstr`
return is not looked at. -/
def tkUtf8DupWstr (realloc : Nat → Bool) (wchar4 : Bool) (ws : List UInt32) :
    Option (Option (List UInt8)) :=
  let len := ws.length % 2 ^ 32
  let s := strInit realloc (U32.add (U32.mul len 4) 1)
  (strFromWstrWithLen realloc wchar4 s ws len).map fun res => res.2.str

/-- The block `tk_utf8_dup_wstr` converts into: the first one, or the one it was
grown to; `none` where there is no memory. -/
def dupBlock (realloc : Nat → Bool) (len : Nat) : Option Nat :=
  let size := U32.add (U32.mul len 6) 1
  match strExtend realloc (strInit realloc (U32.add (U32.mul len 4) 1)) (U32.add size 1) with
  | (.ok, s) => s.str.map fun _ => s.capacity + 1
  | _ => none

/-- The copy of the wide string is complete.  An empty string needs one of the
two blocks; another one has to fit the block and the size computed for it. -/
def DupFits (realloc : Nat → Bool) (wchar4 : Bool) (ws : List UInt32) : Prop :=
  if ws = [] then realloc 2 = true ∨ realloc 3 = true
  else ∃ block, dupBlock realloc ws.length = some block ∧
    (encode wchar4 ws).length < U32.add (U32.mul ws.length 6) 1 ∧
    (encode wchar4 ws).length < block

theorem strInit_cases (realloc : Nat → Bool) (capacity : Nat) (h : 0 < capacity) :
    (realloc (capacity + 1) = true ∧ strInit realloc capacity = ⟨some [], 0, capacity⟩) ∨
    (realloc (capacity + 1) = false ∧ strInit realloc capacity = ⟨none, 0, 0⟩) := by
  unfold strInit strExtend
  rw [if_neg (by show ¬ capacity ≤ 0; omega)]
  cases hr : realloc (capacity + 1) with
  | true => exact .inl ⟨rfl, rfl⟩
  | false => exact .inr ⟨rfl, rfl⟩

/-- What `str_init` and the `str_extend` of `str_from_wstr` leave: an empty text
in the block, or no block or an old one. -/
theorem dupBlock_cases (realloc : Nat → Bool) (len : Nat) :
    let s := strInit realloc (U32.add (U32.mul len 4) 1)
    let res := strExtend realloc s (U32.add (U32.add (U32.mul len 6) 1) 1)
    { s with size := 0, str := s.str.map fun _ => [] } = s ∧
    ((∃ capacity, capacity + 1 < 2 ^ 32 ∧ res = (.ok, ⟨some [], 0, capacity⟩) ∧
        dupBlock realloc len = some (capacity + 1)) ∨
      (dupBlock realloc len = none ∧ (res = (.ok, ⟨none, 0, 0⟩) ∨ res = (.fail, s)))) := by
  have hcap : U32.add (U32.mul len 4) 1 + 1 < 2 ^ 32 ∧ 0 < U32.add (U32.mul len 4) 1 := by
    unfold U32.add U32.mul
    omega
  have hwant : U32.add (U32.add (U32.mul len 6) 1) 1 + 1 < 2 ^ 32 := by
    unfold U32.add U32.mul
    omega
  unfold dupBlock
  dsimp only
  generalize U32.add (U32.add (U32.mul len 6) 1) 1 = want at *
  generalize U32.add (U32.mul len 4) 1 = cap at *
  cases strInit_cases realloc cap hcap.2 with
  | inl h =>
    rw [h.2]
    refine ⟨rfl, ?_⟩
    by_cases hle : want ≤ cap
    · have hext : strExtend realloc ⟨some [], 0, cap⟩ want = (.ok, ⟨some [], 0, cap⟩) := if_pos hle
      rw [hext]
      exact .inl ⟨cap, hcap.1, rfl, rfl⟩
    · cases hr : realloc (want + 1) with
      | true =>
        have hext : strExtend realloc ⟨some [], 0, cap⟩ want = (.ok, ⟨some [], 0, want⟩) := by
          unfold strExtend
          rw [if_neg hle, if_pos hr]
          rfl
        rw [hext]
        exact .inl ⟨want, hwant, rfl, rfl⟩
      | false =>
        have hext : strExtend realloc ⟨some [], 0, cap⟩ want = (.fail, ⟨some [], 0, cap⟩) := by
          unfold strExtend
          rw [if_neg hle, hr]
          rfl
        rw [hext]
        exact .inr ⟨rfl, .inr rfl⟩
  | inr h =>
    rw [h.2]
    refine ⟨rfl, ?_⟩
    by_cases hle : want ≤ 0
    · have hext : strExtend realloc ⟨none, 0, 0⟩ want = (.ok, ⟨none, 0, 0⟩) := if_pos hle
      rw [hext]
      exact .inr ⟨rfl, .inl rfl⟩
    · cases hr : realloc (want + 1) with
      | true =>
        have hext : strExtend realloc ⟨none, 0, 0⟩ want = (.ok, ⟨some [], 0, want⟩) := by
          unfold strExtend
          rw [if_neg hle, if_pos hr]
          rfl
        rw [hext]
        exact .inl ⟨want, hwant, rfl, rfl⟩
      | false =>
        have hext : strExtend realloc ⟨none, 0, 0⟩ want = (.fail, ⟨none, 0, 0⟩) := by
          unfold strExtend
          rw [if_neg hle, hr]
          rfl
        rw [hext]
        exact .inr ⟨rfl, .inr rfl⟩

theorem dupBlock_mod (realloc : Nat → Bool) (len : Nat) :
    dupBlock realloc (len % 2 ^ 32) = dupBlock realloc len := by
  have h4 : U32.mul (len % 2 ^ 32) 4 = U32.mul len 4 := Nat.mod_mul_mod ..
  have h6 : U32.mul (len % 2 ^ 32) 6 = U32.mul len 6 := Nat.mod_mul_mod ..
  rw [dupBlock, dupBlock, h4, h6]

theorem tkUtf8DupWstr_of_block {realloc : Nat → Bool} (wchar4 : Bool) {ws : List UInt32}
    {block : Nat} (h : dupBlock realloc ws.length = some block) :
    tkUtf8DupWstr realloc wchar4 ws =
      (tkUtf8FromUtf16Ex wchar4 ws (ws.length % 2 ^ 32)
        (U32.add (U32.mul (ws.length % 2 ^ 32) 6) 1) block).map (some ·.2) ∧ block < 2 ^ 32 := by
  rw [← dupBlock_mod] at h
  obtain ⟨hs, hcases⟩ := dupBlock_cases realloc (ws.length % 2 ^ 32)
  obtain ⟨capacity, hlt, hres, hblock⟩ | ⟨hnone, _⟩ := hcases
  · rw [hblock] at h
    cases h
    refine ⟨?_, hlt⟩
    have hpos : U32.add (U32.mul (ws.length % 2 ^ 32) 6) 1 > 0 := by
      unfold U32.add U32.mul
      omega
    rw [tkUtf8DupWstr, strFromWstrWithLen, hs, hres]
    dsimp only
    rw [if_pos hpos, Option.map_map]
    rfl
  · rw [hnone] at h
    cases h

theorem tkUtf8DupWstr_of_none {realloc : Nat → Bool} (wchar4 : Bool) {ws : List UInt32}
    (h : dupBlock realloc ws.length = none) :
    tkUtf8DupWstr realloc wchar4 ws = some none ∨
    (tkUtf8DupWstr realloc wchar4 ws = some (some []) ∧
      realloc (U32.add (U32.mul (ws.length % 2 ^ 32) 4) 1 + 1) = true) := by
  rw [← dupBlock_mod] at h
  obtain ⟨hs, hcases⟩ := dupBlock_cases realloc (ws.length % 2 ^ 32)
  obtain ⟨capacity, _, _, hblock⟩ | ⟨_, hres⟩ := hcases
  · rw [hblock] at h
    cases h
  · rw [tkUtf8DupWstr, strFromWstrWithLen, hs]
    obtain hres | hres := hres
    · rw [hres]
      dsimp only
      split
      · exact .inl rfl
      · exact .inl rfl
    · rw [hres]
      have hpos : 0 < U32.add (U32.mul (ws.length % 2 ^ 32) 4) 1 := by
        unfold U32.add U32.mul
        omega
      cases strInit_cases realloc _ hpos with
      | inl hinit =>
        rw [hinit.2]
        exact .inr ⟨rfl, hinit.1⟩
      | inr hinit =>
        rw [hinit.2]
        exact .inl rfl

theorem tkUtf8DupWstr_text {realloc : Nat → Bool} {wchar4 : Bool} {ws : List UInt32}
    {text : List UInt8} (h0 : 0 ∉ ws) (h : tkUtf8DupWstr realloc wchar4 ws = some (some text)) :
    0 ∉ text ∧ text.length + 1 < 2 ^ 32 := by
  cases hb : dupBlock realloc ws.length with
  | none =>
    obtain hnull | ⟨hempty, _⟩ := tkUtf8DupWstr_of_none wchar4 hb
    · rw [hnull] at h
      cases h
    · rw [hempty] at h
      cases h
      exact ⟨not_mem_nil, by decide⟩
  | some block =>
    obtain ⟨hdup, hlt⟩ := tkUtf8DupWstr_of_block wchar4 hb
    rw [hdup] at h
    obtain ⟨⟨b, text'⟩, hconv, htext⟩ := map_eq_some_iff.mp h
    obtain rfl : text' = text := some.inj htext
    obtain ⟨hlen, out, hloop, hpre⟩ := tkUtf8FromUtf16Ex_eq_some h0 hconv
    obtain ⟨_, k, hk⟩ := fromUtf16Loop_prefix hloop (Nat.zero_le _)
    refine ⟨fun hz => ?_, by omega⟩
    have hchars : 0 ∉ chars wchar4 (ws.take (ws.length % 2 ^ 32)) :=
      chars_ne_zero fun hm => h0 (mem_of_mem_take hm)
    rw [nil_append] at hk
    have hz' := hpre.subset hz
    rw [hk] at hz'
    obtain ⟨c, hc, hz''⟩ := mem_flatMap.mp hz'
    exact unicharToUtf8_zero_notMem (fun h0 => hchars (h0 ▸ mem_of_mem_take hc)) hz''

theorem encode_ne_nil (wchar4 : Bool) {ws : List UInt32} (h : ws ≠ []) : encode wchar4 ws ≠ [] := by
  intro hnil
  have hlen := length_le_encode wchar4 ws
  rw [hnil] at hlen
  exact h (length_eq_zero_iff.mp (Nat.le_zero.mp hlen))

/-- The copy is complete exactly where it fits. -/
theorem tkUtf8DupWstr_eq_encode_iff {realloc : Nat → Bool} {wchar4 : Bool} {ws : List UInt32}
    (h0 : 0 ∉ ws) :
    tkUtf8DupWstr realloc wchar4 ws = some (some (encode wchar4 ws)) ↔
      DupFits realloc wchar4 ws := by
  unfold DupFits
  by_cases hws : ws = []
  · subst hws
    rw [if_pos rfl]
    cases h2 : realloc 2 <;> cases h3 : realloc 3 <;>
      simp [tkUtf8DupWstr, strFromWstrWithLen, strInit, strExtend, U32.add, U32.mul, h2, h3,
        tkUtf8FromUtf16Ex, chars, fromUtf16Loop, encode]
  · rw [if_neg hws]
    constructor
    · intro h
      cases hb : dupBlock realloc ws.length with
      | none =>
        obtain hnull | ⟨hempty, _⟩ := tkUtf8DupWstr_of_none wchar4 hb
        · rw [hnull] at h
          cases h
        · rw [hempty, some.injEq, some.injEq] at h
          exact absurd h.symm (encode_ne_nil wchar4 hws)
      | some block =>
        obtain ⟨hdup, hlt⟩ := tkUtf8DupWstr_of_block wchar4 hb
        rw [hdup] at h
        obtain ⟨⟨b, text'⟩, hconv, htext⟩ := map_eq_some_iff.mp h
        obtain rfl : text' = encode wchar4 ws := some.inj htext
        obtain ⟨hlen, out, hloop, hpre⟩ := tkUtf8FromUtf16Ex_eq_some h0 hconv
        -- the string is shorter than the block, so its length did not wrap
        have hlenw := length_le_encode wchar4 ws
        have hmod : ws.length % 2 ^ 32 = ws.length := Nat.mod_eq_of_lt (by omega)
        rw [hmod, take_length] at hloop
        obtain ⟨_, k, hk⟩ := fromUtf16Loop_prefix hloop (Nat.zero_le _)
        have hall : out = [] ++ (chars wchar4 ws).flatMap unicharToUtf8 := by
          rw [nil_append] at hk ⊢
          refine (hpre.eq_of_length_le ?_).symm
          have hsplit : encode wchar4 ws = out ++
              ((chars wchar4 ws).drop k).flatMap unicharToUtf8 := by
            rw [hk, ← flatMap_append, take_append_drop, encode]
          rw [hsplit, length_append]
          exact Nat.le_add_right _ _
        have hne : chars wchar4 ws ≠ [] := by
          intro hnil
          exact encode_ne_nil wchar4 hws (by rw [encode, hnil]; rfl)
        have hout := (fromUtf16Loop_all hlt hloop hall hne).1
        rw [hall] at hout
        exact ⟨block, rfl, hout, hlen⟩
    · rintro ⟨block, hb, hout, hblock⟩
      have hlenw := length_le_encode wchar4 ws
      obtain ⟨hdup, hlt⟩ := tkUtf8DupWstr_of_block wchar4 hb
      have hmod : ws.length % 2 ^ 32 = ws.length := Nat.mod_eq_of_lt (by omega)
      rw [hdup, hmod, tkUtf8FromUtf16Ex_fits h0 (Nat.le_refl _) (Nat.le_of_lt (U32.add_lt _ _))
        hout hblock]
      rfl

end Awtk.Utf8
