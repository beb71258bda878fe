import Awtk.Tkc.StrTEdits

/-!
# Escapes

`str_escape` puts backslashes into the string that it walks over, and `str_unescape` moves the
characters of a string to its front while it decodes them.  `escaped` is the text that the first
one makes where it gets the room for its backslashes.  Decoding gives the text back, and on any
string, whatever its escapes are, it stays between the first byte and the terminator.
-/

namespace Awtk.StrT

open List Option

open Block (read write resize text)

/-! ## The code -/

/-- `sscanf` of `"%02x"`, cut to a `char`. -/
def sscanf02x (s : Str) : UInt8 :=
  UInt8.ofNat (strtol 16 ((s.dropWhile isSpace).take 2) % 2 ^ 8).toNat

/-- The loop of `str_unescape_char` over `s_str_char_escape_pairs`. -/
def unescapePair (c : UInt8) : UInt8 :=
  if c = 'n' then '\n'
  else if c = 't' then '\t'
  else if c = 'r' then '\r'
  else if c = 'b' then 8
  else if c = 'f' then 12
  else if c = 'a' then 7
  else if c = 'v' then 11
  else if c = 'e' then 27
  else 0

/-- `str_unescape_char` of the bytes from a pointer on: the character, and how many are read. -/
def strUnescapeChar : List UInt8 → Option (UInt8 × Nat)
  | [] => none
  | c :: s =>
    if c = '\'' ∨ c = '"' ∨ c = '\\' ∨ c = '?' then some (c, 1)
    else if c = 'x' then (text s 0).map fun t => (sscanf02x t, 3)
    else if c = 0 then some ('\\', 1)
    else some (unescapePair c, 1)

/-- What `str_unescape` and `str_append_unescape` read from a pointer on. -/
def unescapeNext : List UInt8 → Option (UInt8 × Nat)
  | [] => none
  | c :: s => if c = '\\' then (strUnescapeChar s).map fun p => (p.1, p.2 + 1) else some (c, 1)

variable (memory : Nat → Bool) (s : StrT)

/-- The loop of `str_unescape`, with the places of `s` and `d`. -/
def unescapeLoop (size : Nat) : Nat → List UInt8 → Nat → Nat → Option (List UInt8 × Nat)
  | 0, _, _, _ => none
  | fuel + 1, str, i, j =>
    if i < size then do
      let (c, nr) ← unescapeNext (str.drop i)
      let str ← write str j [c]
      unescapeLoop size fuel str (i + nr) (j + 1)
    else do
      let str ← write str j [0]
      some (str, j)

def unescape : Option (Ret × StrT) :=
  match s.str with
  | none => some (.badParams, s)
  | some str => do
    let (str, size) ← unescapeLoop s.size (s.size + 1) str 0 0
    some (.ok, { s with str := some str, size := size })

/-- A character gets a backslash. -/
def Special (c : UInt8) : Prop :=
  strEscapeChar c ≠ c ∨ strEscapeChar c = '\\' ∨ strEscapeChar c = '\'' ∨ strEscapeChar c = '"'

instance (c : UInt8) : Decidable (Special c) := inferInstanceAs (Decidable (_ ∨ _))

/-- The loop of `str_escape`.  What `str_insert_with_len` returns is not looked at. -/
def escapeLoop : Nat → StrT → Nat → Option StrT
  | 0, _, _ => none
  | fuel + 1, s, i =>
    if i < s.size then do
      let str ← s.str
      let c ← str[i]?
      let (s, i) ← (if Special c then (s.insertWithLen memory i ['\\'] 1).map fun p => (p.2, i + 1)
        else some (s, i))
      let str ← s.str
      let str ← write str i [strEscapeChar c]
      escapeLoop fuel { s with str := some str } (i + 1)
    else some s

def escape : Option (Ret × StrT) :=
  match s.str with
  | none => some (.badParams, s)
  | some _ => do
    let s ← escapeLoop memory (s.size + 1) s 0
    some (.ok, s)

/-- `tk_min_int` of two `uint32_t`, as one. -/
def tkMinInt (a b : Nat) : Nat := (min (I32.ofU32 a) (I32.ofU32 b) % 2 ^ 32).toNat

/-- The loop of `str_append_escape` from the place `i` on. -/
def appendEscapeLoop (t : Str) (size : Nat) : Nat → StrT → Nat → Option StrT
  | 0, _, _ => none
  | fuel + 1, s, i =>
    if i < size then do
      let c ← (t ++ [0])[i]?
      let s ← if Special c then (s.appendChar memory '\\').map Prod.snd else some s
      let (_, s) ← s.appendChar memory (strEscapeChar c)
      appendEscapeLoop t size fuel s (i + 1)
    else some s

def appendEscape (t : Str) (size : Nat) : Option (Ret × StrT) := do
  let size := tkMinInt (t.length % 2 ^ 32) size
  let s ← appendEscapeLoop memory t size (size + 1) s 0
  some (.ok, s)

/-- The loop of `str_append_unescape` from the place `i` on. -/
def appendUnescapeLoop (t : Str) (size : Nat) : Nat → StrT → Nat → Option StrT
  | 0, _, _ => none
  | fuel + 1, s, i =>
    if i < size then do
      let (c, nr) ← unescapeNext ((t ++ [0]).drop i)
      let (_, s) ← s.appendChar memory c
      appendUnescapeLoop t size fuel s (i + nr)
    else some s

def appendUnescape (t : Str) (size : Nat) : Option (Ret × StrT) := do
  let size := tkMinInt (t.length % 2 ^ 32) size
  let s ← appendUnescapeLoop memory t size (size + 1) s 0
  some (.ok, s)

/-! ## The escaped text -/

/-- A character as it is escaped. -/
def escapeChars (c : UInt8) : Str := if Special c then ['\\', strEscapeChar c] else [c]

/-- A text as it is escaped. -/
def escaped (t : Str) : Str := t.flatMap escapeChars

/-- There is room for one more character behind `n` of them. -/
def RoomAt (n : Nat) : Prop :=
  n + 2 ≤ s.capacity ∨ s.extendable = true ∧ memory (n + 3) = true ∧ n + 3 < 2 ^ 32

/-- There is room for each character that makes a text longer, from the first to the last. -/
def RoomFor (first last : Nat) : Prop := ∀ n, first ≤ n → n < last → s.RoomAt memory n

section Escape

variable {memory : Nat → Bool} {s : StrT} {t u : Str} {c : UInt8}

theorem special_cases (c : UInt8) : (Special c ∧ c ≠ 0 ∧ strEscapeChar c ≠ 0 ∧
      ∀ rest, unescapeNext (('\\' : UInt8) :: strEscapeChar c :: rest) = some (c, 2)) ∨
    ¬ Special c ∧ strEscapeChar c = c ∧ c ≠ '\\' := by
  have hall := forall_byte (p := fun c => decide ((Special c ∧ c ≠ 0 ∧ strEscapeChar c ≠ 0 ∧
      strEscapeChar c ≠ 'x' ∧ (strUnescapeChar [strEscapeChar c]) = some (c, 1)) ∨
    ¬ Special c ∧ strEscapeChar c = c ∧ c ≠ '\\')) (by decide +kernel) c
  rcases of_decide_eq_true hall with ⟨hs, hc, he, hx, hu⟩ | h
  · refine .inl ⟨hs, hc, he, fun rest => ?_⟩
    rw [strUnescapeChar] at hu
    rw [unescapeNext, if_pos rfl, strUnescapeChar]
    split at hu <;> rename_i hq
    · rw [if_pos hq, hu]
      rfl
    · rw [if_neg hq, if_neg hx, if_neg he, hu]
      rfl
  · exact .inr h

/-! ## Decoding in place -/

theorem text_stops (x : List UInt8) : ∃ t, ∀ rest, text (x ++ 0 :: rest) 0 = some t := by
  refine ⟨x.takeWhile (· ≠ 0), fun rest => ?_⟩
  have htake : (x ++ 0 :: rest).takeWhile (· ≠ 0) = x.takeWhile (· ≠ 0) := by
    induction x with
    | nil => simp
    | cons c x ih =>
      by_cases hc : c = 0
      · simp [hc]
      · rw [cons_append, takeWhile_cons_of_pos (by simp [hc]),
          takeWhile_cons_of_pos (by simp [hc]), ih]
  have hle : (x.takeWhile (· ≠ 0)).length ≤ x.length := (takeWhile_sublist _).length_le
  rw [text, drop_zero, htake, if_pos (by rw [length_append, length_cons]; omega)]

theorem unescapeNext_some (c : UInt8) (q : Str) :
    ∃ d nr, 0 < nr ∧ ∀ rest, unescapeNext (c :: q ++ 0 :: rest) = some (d, nr) := by
  by_cases hc : c = '\\'
  · have hchar : ∃ d nr, ∀ rest, strUnescapeChar (q ++ 0 :: rest) = some (d, nr) := by
      cases q with
      | nil => exact ⟨'\\', 1, fun rest => by rw [nil_append, strUnescapeChar]; rfl⟩
      | cons e q =>
        obtain ⟨t, ht⟩ := text_stops q
        simp only [cons_append, strUnescapeChar, ht, map_some]
        split_ifs
        all_goals exact ⟨_, _, fun _ => rfl⟩
    obtain ⟨d, nr, hchar⟩ := hchar
    refine ⟨d, nr + 1, Nat.succ_pos nr, fun rest => ?_⟩
    rw [cons_append, unescapeNext, if_pos hc, hchar]
    rfl
  · exact ⟨c, 1, Nat.one_pos, fun rest => by rw [cons_append, unescapeNext, if_neg hc]⟩

theorem unescapeLoop_turn {out mid w q rest : List UInt8} {size fuel nr : Nat} {d : UInt8}
    (hw : w ≠ []) (hsize : out.length + mid.length < size)
    (hnext : unescapeNext (w ++ (q ++ 0 :: rest)) = some (d, nr)) :
    unescapeLoop size (fuel + 1) (out ++ (mid ++ (w ++ (q ++ 0 :: rest)))) (out.length + mid.length)
        out.length =
      unescapeLoop size fuel (out ++ [d] ++ ((mid ++ w).tail ++ (q ++ 0 :: rest)))
        (out.length + mid.length + nr) (out ++ [d]).length := by
  have hdrop : (out ++ (mid ++ (w ++ (q ++ 0 :: rest)))).drop (out.length + mid.length) =
      w ++ (q ++ 0 :: rest) := by
    rw [← append_assoc]
    exact drop_left' length_append
  have hwrite : write (out ++ (mid ++ (w ++ (q ++ 0 :: rest)))) out.length [d] =
      some (out ++ [d] ++ ((mid ++ w).tail ++ (q ++ 0 :: rest))) := by
    obtain ⟨a, l, hl⟩ := exists_cons_of_ne_nil (show mid ++ w ≠ [] by simp [hw])
    have hsplit : mid ++ (w ++ (q ++ 0 :: rest)) = [a] ++ (l ++ (q ++ 0 :: rest)) := by
      rw [← append_assoc, hl]
      rfl
    rw [hsplit, Block.write_eq (y := [a]) (d := [d]) rfl rfl, hl, tail_cons, append_assoc]
  rw [unescapeLoop, if_pos hsize, hdrop, hnext]
  simp only [bind_eq_bind, bind_some, hwrite, length_append, length_singleton]

theorem unescapeLoop_end {out mid rest : List UInt8} {size fuel i : Nat} (hi : size ≤ i) :
    unescapeLoop size (fuel + 1) (out ++ (mid ++ 0 :: rest)) i out.length =
      some (out ++ 0 :: ((mid ++ [0]).tail ++ rest), out.length) := by
  have hwrite : write (out ++ (mid ++ 0 :: rest)) out.length [0] =
      some (out ++ 0 :: ((mid ++ [0]).tail ++ rest)) := by
    cases mid with
    | nil => exact Block.write_eq (y := [0]) rfl rfl
    | cons a mid =>
      have hsplit : a :: mid ++ 0 :: rest = [a] ++ (mid ++ [0] ++ rest) := by simp
      rw [hsplit, Block.write_eq (y := [a]) (d := [0]) rfl rfl]
      rfl
  rw [unescapeLoop, if_neg (Nat.not_lt.mpr hi), hwrite]
  rfl

/-- Decoding writes no more than it reads, and does not depend on what is behind the terminator. -/
theorem unescapeLoop_total (size : Nat) : ∀ (fuel : Nat) (out mid q : List UInt8) (i : Nat),
    q.length < fuel → out.length + mid.length + q.length = size →
    (q = [] → size ≤ i) → (q ≠ [] → i = out.length + mid.length) →
    ∃ u tail, u.length ≤ size ∧ ∀ rest,
      unescapeLoop size fuel (out ++ (mid ++ (q ++ 0 :: rest))) i out.length =
        some (u ++ 0 :: (tail ++ rest), u.length) := by
  intro fuel
  induction fuel with
  | zero => exact fun _ _ _ _ hfuel => absurd hfuel (Nat.not_lt_zero _)
  | succ fuel ih =>
    intro out mid q i hfuel hsize hend hstart
    cases q with
    | nil =>
      rw [length_nil, Nat.add_zero] at hsize
      exact ⟨out, (mid ++ [0]).tail, by omega, fun rest => unescapeLoop_end (hend rfl)⟩
    | cons c q =>
      obtain ⟨d, nr, hnr, hnext⟩ := unescapeNext_some c q
      rw [length_cons] at hsize hfuel
      -- the characters that are read, as far as they are in the string
      have hw : (c :: q).take nr ≠ [] := by
        obtain ⟨k, rfl⟩ := Nat.exists_eq_add_one_of_ne_zero hnr.ne'
        simp
      have hlen : ((c :: q).take nr).length + ((c :: q).drop nr).length = q.length + 1 := by
        rw [← length_append, take_append_drop, length_cons]
      have hpos := length_pos_iff.mpr hw
      obtain ⟨u, tail, hu, hloop⟩ := ih (out ++ [d]) (mid ++ (c :: q).take nr).tail ((c :: q).drop nr)
        (out.length + mid.length + nr) (by omega)
        (by simp only [length_append, length_singleton, length_tail]; omega)
        (fun hnil => by
          have := drop_eq_nil_iff.mp hnil
          rw [length_cons] at this
          omega)
        (fun hne => by
          have := mt drop_eq_nil_iff.mpr hne
          rw [length_cons] at this
          simp only [length_append, length_tail, length_take, length_cons,
            length_nil]
          omega)
      refine ⟨u, tail, hu, fun rest => ?_⟩
      have hsplit : c :: q ++ 0 :: rest = (c :: q).take nr ++ ((c :: q).drop nr ++ 0 :: rest) := by
        rw [← append_assoc, take_append_drop]
      rw [hstart (cons_ne_nil c q), hsplit, unescapeLoop_turn hw (by omega) (hsplit ▸ hnext rest)]
      exact hloop rest

theorem escapeChars_next (c : UInt8) : escapeChars c ≠ [] ∧
    ∀ rest, unescapeNext (escapeChars c ++ rest) = some (c, (escapeChars c).length) := by
  rw [escapeChars]
  rcases special_cases c with ⟨hs, -, -, hnext⟩ | ⟨hs, -, hc⟩
  · rw [if_pos hs]
    exact ⟨cons_ne_nil _ _, hnext⟩
  · rw [if_neg hs]
    exact ⟨cons_ne_nil _ _, fun rest => by rw [singleton_append, unescapeNext, if_neg hc]; rfl⟩

theorem escaped_cons (c : UInt8) (t : Str) : escaped (c :: t) = escapeChars c ++ escaped t :=
  flatMap_cons

/-- Decoding an escaped text gives the text. -/
theorem unescapeLoop_escaped (size : Nat) (rest : List UInt8) (t : Str) : ∀ (fuel : Nat)
    (out mid : List UInt8), t.length < fuel → out.length + mid.length + (escaped t).length = size →
    ∃ tail, unescapeLoop size fuel (out ++ (mid ++ (escaped t ++ 0 :: rest)))
        (out.length + mid.length) out.length = some (out ++ t ++ 0 :: tail, (out ++ t).length) ∧
      t.length + tail.length = mid.length + (escaped t).length + rest.length := by
  induction t with
  | nil =>
    intro fuel out mid hfuel hsize
    obtain ⟨fuel, rfl⟩ := Nat.exists_eq_add_one_of_ne_zero (Nat.ne_of_gt hfuel)
    refine ⟨(mid ++ [0]).tail ++ rest, ?_, ?_⟩
    · rw [append_nil]
      exact unescapeLoop_end (Nat.le_of_eq hsize.symm)
    · simp [escaped]
  | cons c t ih =>
    intro fuel out mid hfuel hsize
    obtain ⟨fuel, rfl⟩ := Nat.exists_eq_add_one_of_ne_zero (Nat.ne_of_gt (Nat.zero_lt_of_lt hfuel))
    obtain ⟨hne, hnext⟩ := escapeChars_next c
    have hpos := length_pos_iff.mpr hne
    rw [escaped_cons, length_append] at hsize
    have hplace : out.length + mid.length + (escapeChars c).length =
        (out ++ [c]).length + (mid ++ escapeChars c).tail.length := by
      simp only [length_append, length_tail, length_cons, length_nil]
      omega
    obtain ⟨tail, hloop, hlen⟩ := ih fuel (out ++ [c]) (mid ++ escapeChars c).tail
      (Nat.lt_of_succ_lt_succ hfuel) (by omega)
    refine ⟨tail, ?_, ?_⟩
    · rw [escaped_cons, append_assoc, unescapeLoop_turn hne (by omega) (hnext _), hplace, hloop]
      simp
    · rw [escaped_cons]
      simp only [length_append, length_tail, length_cons] at hlen ⊢
      omega

theorem length_le_escaped (t : Str) : t.length ≤ (escaped t).length := by
  induction t with
  | nil => exact Nat.zero_le _
  | cons c t ih =>
    have hpos := length_pos_iff.mpr (escapeChars_next c).1
    rw [escaped_cons, length_append, length_cons]
    omega

theorem zero_not_mem_escaped (ht : 0 ∉ t) : 0 ∉ escaped t := by
  intro hmem
  obtain ⟨c, hc, hzero⟩ := mem_flatMap.mp hmem
  have hne : c ≠ 0 := fun h => ht (h ▸ hc)
  rw [escapeChars] at hzero
  rcases special_cases c with ⟨hs, -, he, -⟩ | ⟨hs, -⟩
  · rw [if_pos hs] at hzero
    simp only [mem_cons, not_mem_nil, or_false] at hzero
    rcases hzero with hzero | hzero
    · exact absurd hzero (by decide)
    · exact he hzero.symm
  · rw [if_neg hs, mem_singleton] at hzero
    exact hne hzero.symm

theorem unescape_escaped {rest : Str} (h : Holds s (escaped t) rest) (ht : 0 ∉ t) :
    ∃ s', s.unescape = some (.ok, s') ∧ Text s' t := by
  have hle := length_le_escaped t
  obtain ⟨tail, hloop, hlen⟩ := unescapeLoop_escaped s.size rest t (s.size + 1) [] []
    (by rw [h.size]; omega) (by rw [h.size]; simp)
  simp only [nil_append, length_nil, Nat.zero_add] at hloop hlen
  have hs := h.replace t tail ht (hle.trans_lt h.room) (by omega)
  refine ⟨_, ?_, hs.text⟩
  simp only [unescape, h.str, hloop, bind_eq_bind, bind_some]

/-! ## Room -/

theorem extend_extendable {wanted : Nat} {r : Ret} {s' : StrT}
    (h : s.extend memory wanted = some (r, s')) : s'.extendable = s.extendable := by
  rw [extend] at h
  split at h
  · cases h
    rfl
  split at h
  · cases h
    rfl
  dsimp only at h
  split at h
  · obtain ⟨str, -, h⟩ := bind_eq_some_iff.mp h
    obtain ⟨str', -, h⟩ := bind_eq_some_iff.mp h
    cases h
    rfl
  · cases h
    rfl

theorem Text.capacity_lt (h : Text s t) : s.capacity < 2 ^ 32 := by
  rcases h with ⟨-, -, hcap, -⟩ | ⟨rest, h⟩
  · omega
  · exact h.lt

theorem extend_room {n : Nat} (h : Text s t) (hroom : s.RoomAt memory n) :
    ∃ s', s.extend memory (U32.add n 2) = some (.ok, s') ∧ Text s' t ∧
      s'.capacity = max s.capacity (n + 2) ∧ s'.extendable = s.extendable := by
  have hlt : n + 2 < 2 ^ 32 := by
    have := h.capacity_lt
    rcases hroom with hcap | ⟨-, -, hlt⟩ <;> omega
  have hok : Granted memory s (n + 2) → n + 2 ≤ s.capacity ∨ n + 2 + 1 < 2 ^ 32 := by
    rcases hroom with hcap | ⟨-, -, hlt⟩
    · exact fun _ => .inl hcap
    · exact fun _ => .inr hlt
  rw [U32.add_of_lt hlt]
  rcases extend_cases h hok with ⟨s', he, ht, hcap, -⟩ | he
  · exact ⟨s', he, ht, hcap, extend_extendable he⟩
  · exfalso
    rw [extend] at he
    rcases hroom with hcap | ⟨hext, hmem, hlt⟩
    · rw [if_pos hcap] at he
      cases he
    · by_cases hle : n + 2 ≤ s.capacity
      · rw [if_pos hle] at he
        cases he
      rw [if_neg hle, if_neg (not_not.mpr hext)] at he
      dsimp only at he
      rw [U32.add_of_lt (show n + 2 + 1 < 2 ^ 32 from hlt), if_pos hmem] at he
      obtain ⟨str, -, he⟩ := bind_eq_some_iff.mp he
      obtain ⟨str', -, he⟩ := bind_eq_some_iff.mp he
      cases he

/-- There is no room for a character, whatever is in the block. -/
def Refused (memory : Nat → Bool) (s : StrT) (n : Nat) : Prop :=
  s.capacity < n + 2 ∧ n + 2 < 2 ^ 32 ∧ (s.extendable = false ∨ memory (U32.add (n + 2) 1) = false)

theorem Refused.extend {n : Nat} (h : Refused memory s n) :
    s.extend memory (U32.add n 2) = some (.fail, s) := by
  obtain ⟨hcap, hlt, hno⟩ := h
  rw [U32.add_of_lt hlt, StrT.extend, if_neg (Nat.not_le.mpr hcap)]
  rcases hno with hext | hmem
  · rw [if_pos (by simp [hext])]
  · split
    · rfl
    · simp only [hmem, Bool.false_eq_true, if_false]

theorem room_refused {n : Nat} (hroom : ¬ s.RoomAt memory n) :
    Refused memory s n ∨ s.extend memory (U32.add n 2) = none ∨ 2 ^ 32 ≤ n + 2 := by
  rw [RoomAt, not_or] at hroom
  by_cases hlt : n + 2 < 2 ^ 32
  · by_cases hno : s.extendable = false ∨ memory (U32.add (n + 2) 1) = false
    · exact .inl ⟨Nat.lt_of_not_le hroom.1, hlt, hno⟩
    · rw [not_or, Bool.not_eq_false, Bool.not_eq_false] at hno
      obtain ⟨hext, hmem⟩ := hno
      have hend : 2 ^ 32 ≤ n + 3 := by
        by_contra hlt'
        rw [U32.add_of_lt (by omega)] at hmem
        exact hroom.2 ⟨hext, hmem, by omega⟩
      have hzero : U32.add (n + 2) 1 = 0 := by
        rw [U32.add]
        omega
      right; left
      rw [U32.add_of_lt hlt, extend, if_neg hroom.1, if_neg (not_not.mpr hext)]
      dsimp only
      rw [if_pos hmem, hzero, write, if_neg]
      · rfl
      · rw [resize, take_zero]
        simp
  · exact .inr (.inr (Nat.le_of_not_lt hlt))

/-! ## Appending characters -/

/-- Characters that are appended one by one. -/
def appendChars (memory : Nat → Bool) : StrT → Str → Option StrT
  | s, [] => some s
  | s, c :: w => (s.appendChar memory c).bind fun p => appendChars memory p.2 w

theorem appendChar_room (h : Text s t) (hc : c ≠ 0) (hroom : s.RoomAt memory t.length) :
    ∃ s', s.appendChar memory c = some (.ok, s') ∧ Text s' (t ++ [c]) ∧
      s'.capacity = max s.capacity (t.length + 2) ∧ s'.extendable = s.extendable := by
  obtain ⟨s', he, ht, hcap, hext⟩ := extend_room h hroom
  have hpos : t.length + 2 ≤ s'.capacity := hcap ▸ le_max_right _ _
  obtain ⟨rest, hs⟩ := ht.holds (by omega)
  have hlt := hs.lt
  obtain ⟨str, rest', hstr, hwrite, hs'⟩ := hs.append (u := [c]) (by simpa using hc.symm)
    (by rw [length_singleton]; omega)
  rw [length_singleton] at hwrite hs'
  refine ⟨_, ?_, hs'.text, hcap, hext⟩
  have hadd := U32.add_of_lt (show t.length + 1 < 2 ^ 32 by omega)
  simp only [appendChar, h.size_eq, he, bind_eq_bind, bind_some, ne_eq,
    not_true_eq_false, if_false, hs.str, hs.size, hstr, hadd, hwrite]

theorem appendChar_refused (c : UInt8) (h : Refused memory s s.size) :
    s.appendChar memory c = some (.badParams, s) := by
  rw [appendChar, h.extend]
  rfl

theorem appendChars_refused (h : Refused memory s s.size) :
    ∀ w : Str, appendChars memory s w = some s
  | [] => rfl
  | c :: w => by rw [appendChars, appendChar_refused c h, bind_some, appendChars_refused h w]

theorem roomFor_next {s' : StrT} {n m : Nat} (hcap : s'.capacity = max s.capacity (n + 2))
    (hext : s'.extendable = s.extendable) :
    s'.RoomFor memory (n + 1) m ↔ s.RoomFor memory (n + 1) m := by
  refine forall₃_congr fun k hk hm => ?_
  rw [RoomAt, RoomAt, hcap, hext]
  refine or_congr_left ?_
  rw [le_max_iff]
  omega

theorem roomFor_cons {n m : Nat} (h : n < m) :
    s.RoomFor memory n m ↔ s.RoomAt memory n ∧ s.RoomFor memory (n + 1) m := by
  constructor
  · exact fun hr => ⟨hr n (Nat.le_refl n) h, fun k hk hm => hr k (Nat.le_of_succ_le hk) hm⟩
  · rintro ⟨hn, hr⟩ k hk hm
    rcases Nat.eq_or_lt_of_le hk with rfl | hk
    · exact hn
    · exact hr k hk hm

theorem roomFor_self (n : Nat) : s.RoomFor memory n n := fun k hk hm => by omega

/-- Characters are appended exactly if there is room for all of them. -/
theorem appendChars_iff (w : Str) : ∀ {s : StrT} {t : Str}, Text s t → 0 ∉ w →
    ((∃ s', appendChars memory s w = some s' ∧ Text s' (t ++ w)) ↔
      s.RoomFor memory t.length (t ++ w).length) := by
  induction w with
  | nil =>
    intro s t h _
    rw [append_nil]
    exact iff_of_true ⟨s, rfl, h⟩ (roomFor_self _)
  | cons c w ih =>
    intro s t h hw
    rw [mem_cons, not_or] at hw
    have hlen : t.length < (t ++ c :: w).length := by simp
    rw [roomFor_cons hlen]
    by_cases hroom : s.RoomAt memory t.length
    · obtain ⟨s', hs', ht', hcap, hext⟩ := appendChar_room h (Ne.symm hw.1) hroom
      have hrest := ih ht' hw.2
      have hone : (t ++ [c]).length = t.length + 1 := length_append
      rw [hone, roomFor_next hcap hext, append_assoc, singleton_append] at hrest
      rw [appendChars, hs', bind_some, hrest, and_iff_right hroom]
    · refine iff_of_false ?_ fun hr => hroom hr.1
      rintro ⟨s', hs', ht'⟩
      rcases room_refused hroom with hno | hnone | hlong
      · rw [← h.size_eq] at hno
        rw [appendChars_refused hno, some.injEq] at hs'
        have hsize := (hs' ▸ ht').size_eq.symm.trans h.size_eq
        omega
      · rw [appendChars, appendChar, h.size_eq, hnone] at hs'
        cases hs'
      · obtain ⟨rest, hs⟩ := ht'.holds_of_ne_nil (by simp)
        have hend := hs.room.trans hs.lt
        have hfit := hs.room
        have hcap := hs.lt
        omega

/-! ## The appended texts -/

theorem tkMinInt_self {n : Nat} (h : n < 2 ^ 32) : tkMinInt n n = n := by
  rw [tkMinInt, min_self, I32.ofU32]
  split <;> omega

theorem appendEscapeLoop_eq (q : Str) : ∀ {p : Str} {s : StrT} {fuel : Nat}, q.length < fuel →
    appendEscapeLoop memory (p ++ q) (p ++ q).length fuel s p.length =
      appendChars memory s (escaped q) := by
  induction q with
  | nil =>
    intro p s fuel hfuel
    obtain ⟨fuel, rfl⟩ := Nat.exists_eq_add_one_of_ne_zero (Nat.ne_of_gt hfuel)
    rw [appendEscapeLoop, if_neg (by simp)]
    rfl
  | cons c q ih =>
    intro p s fuel hfuel
    obtain ⟨fuel, rfl⟩ := Nat.exists_eq_add_one_of_ne_zero (Nat.ne_of_gt (Nat.zero_lt_of_lt hfuel))
    have hchar : (p ++ c :: q ++ [0])[p.length]? = some c := by simp
    have hrest (s : StrT) : appendEscapeLoop memory (p ++ c :: q) (p ++ c :: q).length fuel s
        (p.length + 1) = appendChars memory s (escaped q) := by
      have hih := ih (p := p ++ [c]) (s := s) (Nat.lt_of_succ_lt_succ hfuel)
      have hone : (p ++ [c]).length = p.length + 1 := length_append
      rwa [hone, append_assoc, singleton_append] at hih
    rw [appendEscapeLoop, if_pos (by simp), hchar, escaped_cons, escapeChars]
    simp only [bind_eq_bind, bind_some, hrest]
    by_cases hs : Special c
    · rw [if_pos hs, if_pos hs]
      simp only [cons_append, nil_append, appendChars, bind_map]
      rfl
    · have hsame : strEscapeChar c = c := by
        rw [Special, not_or, not_not] at hs
        exact hs.1
      rw [if_neg hs, if_neg hs, hsame]
      rfl

theorem appendEscape_iff (h : Text s u) (ht : 0 ∉ t) (hlt : t.length < 2 ^ 32) :
    (∃ s', s.appendEscape memory t t.length = some (.ok, s') ∧ Text s' (u ++ escaped t)) ↔
      s.RoomFor memory u.length (u ++ escaped t).length := by
  rw [← appendChars_iff (escaped t) h (zero_not_mem_escaped ht)]
  have hloop : appendEscapeLoop memory t t.length (t.length + 1) s 0 =
      appendChars memory s (escaped t) := appendEscapeLoop_eq (p := []) t (Nat.lt_succ_self _)
  rw [appendEscape, Nat.mod_eq_of_lt hlt, tkMinInt_self hlt, hloop]
  cases appendChars memory s (escaped t) <;> simp

/-- The loop of `str_append_unescape` on an escaped text appends the text. -/
theorem appendUnescapeLoop_eq (q : Str) : ∀ {p : Str} {s : StrT} {fuel : Nat}, q.length < fuel →
    appendUnescapeLoop memory (p ++ escaped q) (p ++ escaped q).length fuel s p.length =
      appendChars memory s q := by
  induction q with
  | nil =>
    intro p s fuel hfuel
    obtain ⟨fuel, rfl⟩ := Nat.exists_eq_add_one_of_ne_zero (Nat.ne_of_gt hfuel)
    rw [appendUnescapeLoop, if_neg (by simp [escaped])]
    rfl
  | cons c q ih =>
    intro p s fuel hfuel
    obtain ⟨fuel, rfl⟩ := Nat.exists_eq_add_one_of_ne_zero (Nat.ne_of_gt (Nat.zero_lt_of_lt hfuel))
    obtain ⟨hne, hnext⟩ := escapeChars_next c
    have hpos := length_pos_iff.mpr hne
    have hdrop : (p ++ escaped (c :: q) ++ [0]).drop p.length = escapeChars c ++ (escaped q ++ [0]) := by
      rw [escaped_cons, append_assoc, drop_left, append_assoc]
    have hrest (s : StrT) : appendUnescapeLoop memory (p ++ escaped (c :: q))
        (p ++ escaped (c :: q)).length fuel s (p.length + (escapeChars c).length) =
          appendChars memory s q := by
      have hih := ih (p := p ++ escapeChars c) (s := s) (Nat.lt_of_succ_lt_succ hfuel)
      have hlen : (p ++ escapeChars c).length = p.length + (escapeChars c).length := length_append
      rwa [hlen, append_assoc, ← escaped_cons] at hih
    have hlt : p.length < (p ++ escaped (c :: q)).length := by
      rw [escaped_cons]
      simp only [length_append]
      omega
    rw [appendUnescapeLoop, if_pos hlt, hdrop, hnext]
    simp only [bind_eq_bind, bind_some, hrest, appendChars]

theorem appendUnescape_iff (h : Text s u) (ht : 0 ∉ t) (hlt : (escaped t).length < 2 ^ 32) :
    (∃ s', s.appendUnescape memory (escaped t) (escaped t).length = some (.ok, s') ∧
      Text s' (u ++ t)) ↔ s.RoomFor memory u.length (u ++ t).length := by
  rw [← appendChars_iff t h ht]
  have hloop : appendUnescapeLoop memory (escaped t) (escaped t).length ((escaped t).length + 1) s 0 =
      appendChars memory s t :=
    appendUnescapeLoop_eq (p := []) t (Nat.lt_succ_of_le (length_le_escaped t))
  rw [appendUnescape, Nat.mod_eq_of_lt hlt, tkMinInt_self hlt, hloop]
  cases appendChars memory s t <;> simp

/-! ## Escaping in place -/

theorem room_of_insert (a : Nat) : U32.add (U32.add a 1) 1 = U32.add a 2 := by
  rw [U32.add_add]
  rfl

theorem insertWithLen_frame {offset size : Nat} {s₁ s' : StrT} {r : Ret} (hoff : offset ≤ s.size)
    (he : s.extend memory (U32.add (U32.add s.size size) 1) = some (.ok, s₁))
    (h : s.insertWithLen memory offset u size = some (r, s')) :
    s'.size = U32.add s₁.size size ∧ s'.capacity = s₁.capacity ∧ s'.extendable = s₁.extendable := by
  rw [insertWithLen, if_neg (Nat.not_lt.mpr hoff), he] at h
  simp only [bind_eq_bind, bind_some, ne_eq, not_true_eq_false, if_false,
    bind_eq_some_iff] at h
  obtain ⟨str, -, h⟩ := h
  split at h
  · simp only [bind_eq_some_iff] at h
    obtain ⟨_, -, _, -, _, -, _, -, _, -, h⟩ := h
    cases h
    exact ⟨rfl, rfl, rfl⟩
  · simp only [bind_eq_some_iff] at h
    obtain ⟨_, -, _, -, _, -, h⟩ := h
    cases h
    exact ⟨rfl, rfl, rfl⟩

/-- A backslash is inserted where there is room for it. -/
theorem insert_room {p q : Str} (h : Text s (p ++ q)) (hroom : s.RoomAt memory (p ++ q).length) :
    ∃ r s', s.insertWithLen memory p.length ['\\'] 1 = some (r, s') ∧
      Text s' (p ++ ('\\' : UInt8) :: q) ∧ s'.capacity = max s.capacity ((p ++ q).length + 2) ∧
      s'.extendable = s.extendable := by
  obtain ⟨s₁, he, ht, hcap, hext⟩ := extend_room h hroom
  have hsize := h.size_eq
  have hlt : (p ++ q).length + 1 < 2 ^ 32 := by
    have := ht.capacity_lt
    have hle : (p ++ q).length + 2 ≤ s₁.capacity := hcap ▸ le_max_right _ _
    omega
  rw [← hsize, ← room_of_insert] at he
  have hok : RoomOk memory s (s.size + 1 + 1) := by
    rw [hsize]
    rcases hroom with hle | ⟨-, -, hlt⟩
    · exact fun _ => .inl hle
    · exact fun _ => .inr hlt
  have hoff : p.length ≤ s.size := by
    rw [hsize]
    simp
  have hgives : Gives (s.insertWithLen memory p.length ['\\'] 1) (p ++ q) ∨
      Gives (s.insertWithLen memory p.length ['\\'] 1)
        ((p ++ q).take p.length ++ (([('\\' : UInt8)] : Str).take 1 ++ (p ++ q).drop p.length)) :=
    insertWithLen_gives h (by decide) (Nat.le_refl 1) hok
  rw [take_left, drop_left] at hgives
  rcases hgives with ⟨r, s', hs', ht'⟩ | ⟨r, s', hs', ht'⟩
  · have hnew := (insertWithLen_frame hoff he hs').1
    rw [ht.size_eq, U32.add_of_lt hlt, ht'.size_eq] at hnew
    omega
  · have hnew := insertWithLen_frame hoff he hs'
    exact ⟨r, s', hs', ht', hnew.2.1.trans hcap, hnew.2.2.trans hext⟩

theorem insert_refused {i : Nat} (hi : i ≤ s.size) (h : Refused memory s s.size) :
    s.insertWithLen memory i ['\\'] 1 = some (.oom, s) := by
  rw [insertWithLen, if_neg (Nat.not_lt.mpr hi), room_of_insert, h.extend]
  rfl

theorem escapeLoop_refused (fuel : Nat) : ∀ {s s' : StrT} {i : Nat}, Refused memory s s.size →
    escapeLoop memory fuel s i = some s' → s'.size = s.size := by
  induction fuel with
  | zero => exact fun _ h => by cases h
  | succ fuel ih =>
    intro s s' i hno h
    rw [escapeLoop] at h
    by_cases hi : i < s.size
    · rw [if_pos hi] at h
      obtain ⟨str, -, hread⟩ := bind_eq_some_iff.mp h
      obtain ⟨c, -, hchar⟩ := bind_eq_some_iff.mp hread
      obtain ⟨⟨s₁, i₁⟩, hins, hrest⟩ := bind_eq_some_iff.mp hchar
      obtain ⟨str₁, -, hwrite⟩ := bind_eq_some_iff.mp hrest
      obtain ⟨str₂, -, hloop⟩ := bind_eq_some_iff.mp hwrite
      have hsame : s₁ = s := by
        split at hins
        · rw [insert_refused hi.le hno] at hins
          cases hins
          rfl
        · cases hins
          rfl
      subst hsame
      exact ih (s := { s₁ with str := some str₂ }) hno hloop
    · rw [if_neg hi] at h
      cases h
      rfl

theorem Holds.setChar {x q rest : Str} {e : UInt8} (h : Holds s (x ++ c :: q) rest) (he : e ≠ 0) :
    write (x ++ c :: q ++ 0 :: rest) x.length [e] = some (x ++ e :: q ++ 0 :: rest) ∧
      Holds { s with str := some (x ++ e :: q ++ 0 :: rest) } (x ++ e :: q) rest := by
  have hnul : 0 ∉ x ++ e :: q := by
    have hnul := h.nul
    simp only [mem_append, mem_cons, not_or] at hnul ⊢
    exact ⟨hnul.1, he.symm, hnul.2.2⟩
  refine ⟨?_, ⟨rfl, ?_, hnul, ?_, ?_, h.lt⟩⟩
  · have hsplit : x ++ c :: q ++ 0 :: rest = x ++ ([c] ++ (q ++ 0 :: rest)) := by simp
    rw [hsplit, Block.write_eq (y := [c]) (d := [e]) rfl rfl]
    simp
  · have hsize := h.size
    simpa using hsize
  · have hroom := h.room
    simpa using hroom
  · have hcap := h.capacity
    simpa using hcap

/-- The loop of `str_escape` escapes what is behind its place, exactly if there is room for it. -/
theorem escapeLoop_iff (memory : Nat → Bool) (q : Str) :
    ∀ {s : StrT} {x : Str} {fuel : Nat}, Text s (x ++ q) → q.length < fuel →
    ((∃ s', escapeLoop memory fuel s x.length = some s' ∧ Text s' (x ++ escaped q)) ↔
      s.RoomFor memory (x ++ q).length (x ++ escaped q).length) := by
  induction q with
  | nil =>
    intro s x fuel h hfuel
    obtain ⟨fuel, rfl⟩ := Nat.exists_eq_add_one_of_ne_zero (Nat.ne_of_gt hfuel)
    rw [escapeLoop, if_neg (by rw [h.size_eq]; simp)]
    exact iff_of_true ⟨s, rfl, h⟩ (roomFor_self _)
  | cons c q ih =>
    intro s x fuel h hfuel
    obtain ⟨fuel, rfl⟩ := Nat.exists_eq_add_one_of_ne_zero (Nat.ne_of_gt (Nat.zero_lt_of_lt hfuel))
    have hfuel' := Nat.lt_of_succ_lt_succ hfuel
    obtain ⟨rest, hs⟩ := h.holds_of_ne_nil (by simp)
    have hi : x.length < s.size := by
      rw [h.size_eq]
      simp
    have hread : (x ++ c :: q ++ 0 :: rest)[x.length]? = some c := by simp
    have hc : c ≠ 0 := fun hzero => hs.nul (by simp [hzero])
    rw [escapeLoop, if_pos hi, escaped_cons, escapeChars]
    simp only [hs.str, hread, bind_eq_bind, bind_some]
    by_cases hspecial : Special c
    · rw [if_pos hspecial, if_pos hspecial]
      have hne : strEscapeChar c ≠ 0 := by
        rcases special_cases c with ⟨-, -, he, -⟩ | ⟨hs, -⟩
        · exact he
        · exact absurd hspecial hs
      have hlen : (x ++ c :: q).length <
          (x ++ (('\\' : UInt8) :: strEscapeChar c :: escaped q)).length := by
        have := length_le_escaped q
        simp only [length_append, length_cons]
        omega
      change (_ ↔ s.RoomFor memory _ (x ++ (('\\' : UInt8) :: strEscapeChar c :: escaped q)).length)
      rw [roomFor_cons hlen]
      by_cases hroom : s.RoomAt memory (x ++ c :: q).length
      · obtain ⟨r, s₁, hins, ht₁, hcap, hext⟩ := insert_room h hroom
        obtain ⟨rest₁, hs₁⟩ := ht₁.holds_of_ne_nil (by simp)
        have hput (y : Str) : x ++ [('\\' : UInt8)] ++ y = x ++ ('\\' : UInt8) :: y :=
          append_assoc x _ y
        have hone : (x ++ [('\\' : UInt8)]).length = x.length + 1 := length_append
        rw [← hput] at hs₁
        obtain ⟨hwrite, hs₂⟩ := hs₁.setChar hne
        rw [hone] at hwrite
        have hboth (y : Str) : x ++ [('\\' : UInt8)] ++ [strEscapeChar c] ++ y =
            x ++ ('\\' : UInt8) :: strEscapeChar c :: y := by simp
        have hrest := ih (x := x ++ [('\\' : UInt8)] ++ [strEscapeChar c])
          (by rw [hboth, ← hput]; exact hs₂.text) hfuel'
        have htwo : (x ++ [('\\' : UInt8)] ++ [strEscapeChar c]).length = x.length + 1 + 1 := by simp
        have hmore : (x ++ ('\\' : UInt8) :: strEscapeChar c :: q).length =
            (x ++ c :: q).length + 1 := by
          simp only [length_append, length_cons]
          omega
        rw [htwo, hboth, hboth, hmore] at hrest
        simp only [hins, map_some, bind_some, hs₁.str, hwrite]
        rw [and_iff_right hroom]
        exact hrest.trans (roomFor_next hcap hext)
      · refine iff_of_false ?_ fun hr => hroom hr.1
        rintro ⟨s', hs', ht'⟩
        have hsize : s.size = (x ++ c :: q).length := h.size_eq
        rcases room_refused hroom with hno | hnone | hlong
        · rw [← hsize] at hno
          simp only [insert_refused hi.le hno, map_some, bind_some, hs.str] at hs'
          obtain ⟨str, -, hloop⟩ := bind_eq_some_iff.mp hs'
          have hend := escapeLoop_refused fuel (s := { s with str := some str }) hno hloop
          have hfinal : s'.size = (x ++ (('\\' : UInt8) :: strEscapeChar c :: escaped q)).length :=
            ht'.size_eq
          have hkept : s'.size = s.size := hend
          omega
        · rw [insertWithLen, if_neg (Nat.not_lt.mpr hi.le), room_of_insert, hsize, hnone] at hs'
          cases hs'
        · obtain ⟨rest', hs₁⟩ := ht'.holds_of_ne_nil (by simp)
          have hfit : (x ++ (('\\' : UInt8) :: strEscapeChar c :: escaped q)).length < s'.capacity :=
            hs₁.room
          have hcap := hs₁.lt
          omega
    · have hsame : strEscapeChar c = c := by
        rw [Special, not_or, not_not] at hspecial
        exact hspecial.1
      obtain ⟨hwrite, hs'⟩ := hs.setChar hc
      have hone : (x ++ [c]).length = x.length + 1 := length_append
      have happend (y : Str) : x ++ [c] ++ y = x ++ c :: y := append_assoc x [c] y
      have hrest := ih (x := x ++ [c]) (s := { s with str := some (x ++ c :: q ++ 0 :: rest) })
        (by rw [happend]; exact hs'.text) hfuel'
      rw [hone, happend, happend] at hrest
      rw [if_neg hspecial, if_neg hspecial, hsame]
      simp only [hs.str, bind_some, hwrite]
      exact hrest

/-- `str_escape` makes the escaped text, which `str_unescape` decodes, exactly if there is room. -/
theorem escape_room_iff (h : Text s t) :
    (∃ r s₁, s.escape memory = some (r, s₁) ∧ Text s₁ (escaped t) ∧ Gives s₁.unescape t) ↔
      s.RoomFor memory t.length (escaped t).length := by
  rcases h.cases with ⟨hstr, -, rfl⟩ | ⟨rest, hs⟩
  · have hescape : s.escape memory = some (.badParams, s) := by rw [escape, hstr]
    have hunescape : s.unescape = some (.badParams, s) := by rw [unescape, hstr]
    exact iff_of_true ⟨.badParams, s, hescape, h, hunescape ▸ .of_text h _⟩ (roomFor_self 0)
  have hloop := escapeLoop_iff memory t (x := []) (s := s) h
    (show t.length < s.size + 1 by rw [h.size_eq]; exact Nat.lt_succ_self _)
  rw [nil_append, nil_append] at hloop
  rw [← hloop]
  have hescape : s.escape memory = (escapeLoop memory (s.size + 1) s 0).map fun s => (.ok, s) := by
    rw [escape, hs.str]
    cases escapeLoop memory (s.size + 1) s 0 <;> simp
  constructor
  · rintro ⟨r, s₁, he, ht, -⟩
    rw [hescape, map_eq_some_iff] at he
    obtain ⟨s₂, hs₂, heq⟩ := he
    cases heq
    exact ⟨s₁, hs₂, ht⟩
  · rintro ⟨s₁, hs₁, ht⟩
    refine ⟨.ok, s₁, by rw [hescape]; exact congrArg _ hs₁, ht, ?_⟩
    rcases ht.cases with ⟨hnone, -, hnil⟩ | ⟨rest₁, hs₂⟩
    · have hunescape : s₁.unescape = some (.badParams, s₁) := by rw [unescape, hnone]
      have ht0 : t = [] := length_eq_zero_iff.mp
        (Nat.le_zero.mp (by have := length_le_escaped t; rwa [hnil] at this))
      rw [hunescape, ht0]
      rw [hnil] at ht
      exact .of_text ht _
    · obtain ⟨s₂, hu, ht₂⟩ := unescape_escaped hs₂ h.nul
      exact ⟨.ok, s₂, hu, ht₂⟩

theorem unescape_total (x rest : List UInt8) (capacity : Nat) (extendable : Bool) :
    ∃ w tail, w.length ≤ x.length ∧
      unescape ⟨some (x ++ [0]), x.length, capacity, extendable⟩ =
        some (.ok, ⟨some (w ++ 0 :: tail), w.length, capacity, extendable⟩) ∧
      unescape ⟨some (x ++ 0 :: rest), x.length, capacity, extendable⟩ =
        some (.ok, ⟨some (w ++ 0 :: (tail ++ rest)), w.length, capacity, extendable⟩) := by
  obtain ⟨w, tail, hle, hloop⟩ := unescapeLoop_total x.length (x.length + 1) [] [] x 0
    (Nat.lt_succ_self _) (by simp) (fun h => by rw [h]; rfl) (fun _ => rfl)
  simp only [nil_append, length_nil] at hloop
  refine ⟨w, tail, hle, ?_, ?_⟩
  · have hcut := hloop []
    rw [append_nil] at hcut
    simp only [unescape, hcut, bind_eq_bind, bind_some]
  · simp only [unescape, hloop rest, bind_eq_bind, bind_some]

/-- The round trips of a text through `s`, `a` and `b`: `str_escape` makes the escaped text of it
and `str_unescape` the text of that, `str_append_escape` appends the escaped text and
`str_append_unescape` the text. -/
def RoundTrips (memory : Nat → Bool) (s a b : StrT) (t u v : Str) : Prop :=
  (∃ r s₁, s.escape memory = some (r, s₁) ∧ Text s₁ (escaped t) ∧ Gives s₁.unescape t) ∧
    (∃ a₁, a.appendEscape memory t t.length = some (.ok, a₁) ∧ Text a₁ (u ++ escaped t)) ∧
    ∃ b₁, b.appendUnescape memory (escaped t) (escaped t).length = some (.ok, b₁) ∧ Text b₁ (v ++ t)

/-- A text makes all its round trips exactly if the strings have room for it, and `str_unescape` of
any bytes stays in front of the terminator. -/
theorem escape_iff {a b : StrT} {v : Str} (hs : Text s t) (ha : Text a u) (hb : Text b v) :
    (RoundTrips memory s a b t u v ↔
      s.RoomFor memory t.length (escaped t).length ∧
        a.RoomFor memory u.length (u ++ escaped t).length ∧
          b.RoomFor memory v.length (v ++ t).length) ∧
    ∀ (x rest : List UInt8) (capacity : Nat) (extendable : Bool), ∃ w tail, w.length ≤ x.length ∧
      unescape ⟨some (x ++ [0]), x.length, capacity, extendable⟩ =
        some (.ok, ⟨some (w ++ 0 :: tail), w.length, capacity, extendable⟩) ∧
      unescape ⟨some (x ++ 0 :: rest), x.length, capacity, extendable⟩ =
        some (.ok, ⟨some (w ++ 0 :: (tail ++ rest)), w.length, capacity, extendable⟩) := by
  refine ⟨?_, unescape_total⟩
  have hlt : t.length < 2 ^ 32 := hs.length_le.trans_lt hs.capacity_lt
  rw [RoundTrips, escape_room_iff hs, appendEscape_iff ha hs.nul hlt]
  refine and_congr_right fun hroom => and_congr_right fun _ => ?_
  -- a text that is as long as a size can be was not made
  have hfit : (escaped t).length < 2 ^ 32 := by
    obtain ⟨-, s₁, -, ht, -⟩ := (escape_room_iff hs).mpr hroom
    exact ht.length_le.trans_lt ht.capacity_lt
  exact appendUnescape_iff hb hs.nul hfit

end Escape

/-- A line is escaped and decoded. -/
theorem escape_line : RoundTrips (fun _ => true) ⟨some [97, 10, 0, 0], 2, 3, true⟩ ⟨none, 0, 0, true⟩
    ⟨none, 0, 0, true⟩ [97, 10] [] [] :=
  have hs : Text ⟨some [97, 10, 0, 0], 2, 3, true⟩ [97, 10] :=
    .inr ⟨[0], ⟨rfl, rfl, by decide, by decide, by decide, by decide⟩⟩
  have ha : Text ⟨none, 0, 0, true⟩ [] := .inl ⟨rfl, rfl, rfl, rfl⟩
  (escape_iff hs ha ha).1.mpr
    ⟨fun n _ hn => .inr ⟨rfl, rfl, by have : n < 3 := hn; omega⟩,
      fun n _ hn => .inr ⟨rfl, rfl, by have : n < 3 := hn; omega⟩,
      fun n _ hn => .inr ⟨rfl, rfl, by have : n < 2 := hn; omega⟩⟩

/-- In a full buffer the backslash is refused, and the letter is written over the next character. -/
theorem escape_full :
    (escape (fun _ => true) ⟨some [97, 10, 98, 0], 3, 4, false⟩ =
        some (.ok, ⟨some [97, 10, 110, 0], 3, 4, false⟩) ∧
      unescape ⟨some [97, 10, 110, 0], 3, 4, false⟩ =
        some (.ok, ⟨some [97, 10, 110, 0], 3, 4, false⟩)) ∧
    Text ⟨some [97, 10, 98, 0], 3, 4, false⟩ [97, 10, 98] ∧
    ∀ a b : StrT, ¬ RoundTrips (fun _ => true) ⟨some [97, 10, 98, 0], 3, 4, false⟩ a b
      [97, 10, 98] [] [] := by
  have hescape : escape (fun _ => true) ⟨some [97, 10, 98, 0], 3, 4, false⟩ =
      some (.ok, ⟨some [97, 10, 110, 0], 3, 4, false⟩) := by decide +kernel
  refine ⟨⟨hescape, by decide +kernel⟩,
    .inr ⟨[], ⟨rfl, rfl, by decide, by decide, by decide, by decide⟩⟩, ?_⟩
  rintro a b ⟨⟨r, s₁, he, ht, -⟩, -⟩
  rw [hescape] at he
  cases he
  have hsize := ht.size_eq
  revert hsize
  decide +kernel



end Awtk.StrT
