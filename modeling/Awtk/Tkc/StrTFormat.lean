import Awtk.Tkc.StrTText

/-!
# Formatted and converted text

The functions that let another one write to the block.  What `vsnprintf` and the conversion to UTF-8
write has to fit in the room, and what `vsnprintf` returns has to be what it wrote.
-/

namespace Awtk

open List Option

namespace Utf8

variable {outSize block : Nat}

theorem fromUtf16Loop_stops (hle : outSize ≤ block) : ∀ (cs : List UInt32) (done : List UInt8),
    done.length < outSize →
    outSize + 6 ≤ 2 ^ 32 ∨ (done ++ cs.flatMap unicharToUtf8).length < 2 ^ 32 →
    ∃ out b, fromUtf16Loop outSize block cs done = some (out, b) ∧ out.length < outSize ∧
      out <+: done ++ cs.flatMap unicharToUtf8
  | [], done, hlt, _ => ⟨done, true, rfl, hlt, prefix_append _ _⟩
  | c :: cs, done, hlt, hfit => by
    have hlen : (unicharToUtf8 c).length ≤ 6 := unicharToUtf8_length c ▸ (unicharLen_le c).2
    rw [flatMap_cons, ← append_assoc] at hfit ⊢
    have hsum : done.length + (unicharToUtf8 c).length < 2 ^ 32 := by
      rcases hfit with hfit | hfit
      · omega
      · rw [length_append, length_append] at hfit
        omega
    rw [fromUtf16Loop, U32.add_of_lt hsum]
    by_cases hstop : outSize ≤ done.length + (unicharToUtf8 c).length
    · rw [if_pos hstop]
      exact ⟨done, false, rfl, hlt, by rw [append_assoc]; exact prefix_append _ _⟩
    · rw [if_neg hstop, if_neg (by omega)]
      exact fromUtf16Loop_stops hle cs _ (by rw [length_append]; omega) hfit

theorem tkUtf8FromUtf16Ex_stops (wchar4 : Bool) {ws : List UInt32} (inSize : Nat) (h0 : 0 ∉ ws)
    (hpos : 0 < outSize) (hle : outSize ≤ block)
    (hfit : outSize + 6 ≤ 2 ^ 32 ∨ (encode wchar4 (ws.take inSize)).length < 2 ^ 32) :
    ∃ b out, tkUtf8FromUtf16Ex wchar4 ws inSize outSize block = some (b, out) ∧
      out.length < outSize ∧ out <+: encode wchar4 (ws.take inSize) := by
  have hnone : 0 ∉ ws.take inSize := fun hm => h0 (mem_of_mem_take hm)
  obtain ⟨out, b, hloop, hlt, hpre⟩ := fromUtf16Loop_stops hle
    (chars wchar4 (ws.take inSize)) [] hpos hfit
  refine ⟨b, out, ?_, hlt, hpre⟩
  rw [tkUtf8FromUtf16Ex, takeWhile_ne_zero hnone, hloop]
  show (if _ then _ else _) = _
  rw [if_pos hlt, if_pos (by omega), take_length]

end Utf8

namespace StrT

open Block (read write resize text)

/-- The room of `w` bytes does not get a block of no bytes. -/
def WantOk (memory : Nat → Bool) (s : StrT) (w : Nat) : Prop :=
  Granted memory s w → w ≤ s.capacity ∨ w + 1 < 2 ^ 32

/-- The room of `str_append_wchar`. -/
def wcharRoom (s : StrT) (ws : List UInt32) : Nat :=
  U32.add (U32.add s.size (U32.add (U32.mul (ws.length % 2 ^ 32) 6) 1)) 1

/-- The length of the output and of a character are added without a carry. -/
def WcharOk (memory : Nat → Bool) (s : StrT) (wchar4 : Bool) (ws : List UInt32) : Prop :=
  let w := wcharRoom s ws
  WantOk memory s w ∧ (Granted memory s w → max s.capacity w + 5 ≤ s.size + 2 ^ 32 ∨
    (Utf8.encode wchar4 (ws.take (ws.length % 2 ^ 32))).length < 2 ^ 32)

/-- What `str_format` writes fits, and `vsnprintf` returns its length. -/
def FormatOk (memory : Nat → Bool) (s : StrT) (size : Nat) (out : Str) : Prop :=
  let w := U32.add size 1
  let ret := (vsnprintfRet out).getD s.size
  WantOk memory s w ∧ (Granted memory s w → max s.capacity w = 0 ∨
    if size = 0 then ret = s.size
    else (out.take (size - 1)).length < max s.capacity w ∧ ret = (out.take (size - 1)).length)

/-- The room of `str_append_vformat`. -/
def vformatRoom (s : StrT) (size : Nat) : Nat := U32.add (U32.add s.size size) 1

/-- What `str_append_vformat` writes fits, and `vsnprintf` returns its length. -/
def AppendVformatOk (memory : Nat → Bool) (s : StrT) (size : Nat) (out : Str) : Prop :=
  let w := vformatRoom s size
  WantOk memory s w ∧ (Granted memory s w → max s.capacity w = 0 ∨
    s.size + (out.take (size - 1)).length < max s.capacity w ∧
      (vsnprintfRet out).getD 0 = (out.take (size - 1)).length)

section Format

variable {memory : Nat → Bool} {s : StrT} {t t' u rest : Str} {wchar4 : Bool} {ws : List UInt32}
  {size : Nat} {out : Str}

theorem Holds.putZero (h : Holds s (t ++ t') rest) (hu : 0 ∉ u) (hroom : t.length + u.length < s.capacity) :
    ∃ rest', write (t ++ t' ++ 0 :: rest) t.length (u ++ [0]) = some (t ++ u ++ 0 :: rest') ∧
      Holds { s with str := some (t ++ u ++ 0 :: rest'), size := t.length + u.length } (t ++ u) rest' := by
  have hcap := h.capacity
  rw [length_append] at hcap
  obtain ⟨a, b, c, hparts, ha, hb⟩ := Block.exists_parts (x := t' ++ 0 :: rest) (m := u.length + 1)
    (n := 0) (by rw [length_append, length_cons]; omega)
  obtain rfl : b = [] := length_eq_zero_iff.mp hb
  have hlen := congrArg List.length hparts
  simp only [length_append, length_cons, ha, hb] at hlen
  refine ⟨c, ?_, ?_⟩
  · rw [append_assoc, hparts,
      Block.write_eq rfl (by rw [ha, length_append, length_singleton])]
    simp
  · rw [← length_append]
    refine h.replace (t ++ u) c (fun hmem => ?_) (by rw [length_append]; exact hroom) ?_
    · rcases mem_append.mp hmem with hmem | hmem
      · exact h.nul (mem_append_left _ hmem)
      · exact hu hmem
    · simp only [length_append]
      omega

theorem Holds.appendZero (h : Holds s t rest) (hu : 0 ∉ u) (hroom : t.length + u.length < s.capacity) :
    ∃ rest', write (t ++ 0 :: rest) t.length (u ++ [0]) = some (t ++ u ++ 0 :: rest') ∧
      Holds { s with str := some (t ++ u ++ 0 :: rest'), size := t.length + u.length } (t ++ u) rest' := by
  have h' : Holds s (t ++ []) rest := by rwa [append_nil]
  obtain ⟨rest', hwrite, hs⟩ := h'.putZero hu hroom
  rw [append_nil] at hwrite
  exact ⟨rest', hwrite, hs⟩

/-! ## Converted text -/

/-- A conversion that has no room for all appends what it has converted. -/
theorem appendWchar_gives (h : Text s t) (hws : 0 ∉ ws) (hok : WcharOk memory s wchar4 ws) :
    ∃ u, Gives (s.appendWchar memory wchar4 ws) (t ++ u) := by
  obtain ⟨hwant, hfit⟩ := hok
  have hroom : U32.add (U32.add s.size (U32.add (U32.mul (ws.length % 2 ^ 32) 6) 1)) 1 =
    wcharRoom s ws := rfl
  simp only [appendWchar, hroom]
  rcases extend_cases h hwant with ⟨s', he, ht, hcap, hg⟩ | he
  · simp only [he, bind_eq_bind, bind_some, ne_eq, not_true_eq_false, if_false]
    rcases ht with ⟨hstr, hsize, hcap', rfl⟩ | ⟨rest, hs⟩
    · refine ⟨[], ?_⟩
      simp only [hstr, hsize, if_true]
      exact .of_text (.inl ⟨hstr, hsize, hcap', rfl⟩) _
    · have hlt := hs.lt
      have hroom := hs.room
      have hblock := hs.capacity
      have hsub : U32.sub (U32.sub s'.capacity t.length) 1 = s'.capacity - t.length - 1 := by
        rw [U32.sub_of_le hroom.le hlt, U32.sub_of_le (by omega) (by omega)]
      simp only [hs.str, hs.size, hsub]
      by_cases hout : s'.capacity - t.length - 1 = 0
      · refine ⟨[], ?_⟩
        rw [if_pos hout, Block.text_end, append_nil]
        simp only [bind_some, length_nil]
        rw [U32.add_of_lt (by omega)]
        exact .of_text (hs.replace t rest hs.nul hroom rfl).text _
      · have hlen : (t ++ 0 :: rest).length - t.length = rest.length + 1 := by
          rw [length_append, length_cons]
          omega
        have hfit' := hfit hg
        rw [← hcap, h.size_eq] at hfit'
        obtain ⟨b, out, hconv, houtlt, hpre⟩ := Utf8.tkUtf8FromUtf16Ex_stops wchar4
          (ws.length % 2 ^ 32) hws (Nat.pos_of_ne_zero hout)
          (show s'.capacity - t.length - 1 ≤ rest.length + 1 by omega) (hfit'.imp (by omega) id)
        have hnul : 0 ∉ out := fun hmem =>
          Utf8.encode_zero_notMem (fun hm => hws (mem_of_mem_take hm)) (hpre.subset hmem)
        obtain ⟨rest', hwrite, hs'⟩ := hs.appendZero hnul (by omega)
        refine ⟨out, ?_⟩
        rw [if_neg hout, hlen, hconv]
        simp only [bind_some, hwrite]
        rw [append_assoc, Block.text_eq rfl hnul]
        simp only [bind_some]
        rw [U32.add_of_lt (by omega), ← append_assoc]
        exact .of_text hs'.text _
  · refine ⟨[], ?_⟩
    rw [append_nil]
    simp only [he, bind_eq_bind, bind_some]
    exact .of_text h _

/-! ## Formatted text -/

theorem format_gives (h : Text s t) (hout : 0 ∉ out) (hok : FormatOk memory s size out) :
    Gives (s.format memory size out) t ∨ Gives (s.format memory size out) [] ∨
      Gives (s.format memory size out) (out.take (size - 1)) := by
  obtain ⟨hwant, hfit⟩ := hok
  rw [format]
  rcases extend_cases h hwant with ⟨s', he, ht, hcap, hg⟩ | he
  · simp only [he, bind_eq_bind, bind_some, ne_eq, not_true_eq_false, if_false]
    rcases ht with ⟨hstr, hsize, hcap', rfl⟩ | ⟨rest, hs⟩
    · right; left
      have hnone : Text { s' with size := 0 } [] := .inl ⟨hstr, rfl, hcap', rfl⟩
      simp only [hstr] at hnone ⊢
      exact .of_text hnone _
    · have hroom := hs.room
      have hfit' := (hfit hg).resolve_left (by omega)
      have hsame : s'.size = s.size := hs.size.trans h.size_eq.symm
      simp only [hs.str]
      by_cases hsize : size = 0
      · left
        have hs' := (hs.replace t rest hs.nul hroom rfl).text
        rw [if_pos hsize] at hfit'
        rw [vsnprintf, if_pos hsize]
        simp only [bind_some]
        cases hret : vsnprintfRet out with
        | some n =>
          rw [hret, getD_some, h.size_eq] at hfit'
          exact .of_text (hfit' ▸ hs') _
        | none => exact .of_text (hs.size ▸ hs') _
      · right; right
        rw [if_neg hsize, ← hcap, ← hsame] at hfit'
        obtain ⟨hlt, hlen⟩ := hfit'
        have h' : Holds s' ([] ++ t) rest := hs
        obtain ⟨rest', hwrite, hs'⟩ := h'.putZero (u := out.take (size - 1))
          (fun hmem => hout (mem_of_mem_take hmem)) (by rwa [length_nil, Nat.zero_add])
        rw [nil_append, nil_append, length_nil] at hwrite
        rw [length_nil, Nat.zero_add] at hs'
        rw [vsnprintf, if_neg hsize, hwrite]
        simp only [bind_some]
        cases hret : vsnprintfRet out with
        | some n =>
          rw [hret, getD_some] at hlen
          exact .of_text (hlen ▸ hs'.text) _
        | none =>
          rw [hret, getD_none] at hlen
          exact .of_text (hlen ▸ hs'.text) _
  · left
    simp only [he, bind_eq_bind, bind_some]
    exact .of_text h _

/-- The text is appended, or nothing changed.  The room is what was asked for. -/
theorem appendVformat_gives (h : Text s t) (hout : 0 ∉ out) (hok : AppendVformatOk memory s size out) :
    ∃ ret s' u, s.appendVformat memory size out = some (ret, s') ∧ Text s' (t ++ u) ∧
      u.length ≤ size ∧ (ret = .ok → vformatRoom s size ≤ s'.capacity) := by
  obtain ⟨hwant, hfit⟩ := hok
  have hroom : U32.add (U32.add s.size size) 1 = vformatRoom s size := rfl
  simp only [appendVformat, hroom]
  rcases extend_cases h hwant with ⟨s', he, ht, hcap, hg⟩ | he
  · simp only [he, bind_eq_bind, bind_some, ne_eq, not_true_eq_false, if_false]
    have hle : vformatRoom s size ≤ s'.capacity := hcap ▸ le_max_right _ _
    rcases ht with ⟨hstr, hsize, hcap', rfl⟩ | ⟨rest, hs⟩
    · refine ⟨.ok, s', [], ?_, .inl ⟨hstr, hsize, hcap', rfl⟩, Nat.zero_le _, fun _ => hle⟩
      simp only [hstr, hsize, if_true]
    · have hlt := hs.lt
      obtain ⟨hfits, hlen⟩ := (hfit hg).resolve_left (by have := hs.room; omega)
      rw [← hcap, h.size_eq] at hfits
      simp only [hs.str, hs.size]
      -- what is in the block is the text and what was written
      have hwrite : ∃ rest', vsnprintf (t ++ 0 :: rest) t.length size out =
          some (t ++ out.take (size - 1) ++ 0 :: rest') ∧
          Text ⟨some (t ++ out.take (size - 1) ++ 0 :: rest'), t.length + (out.take (size - 1)).length,
            s'.capacity, s'.extendable⟩ (t ++ out.take (size - 1)) := by
        rw [vsnprintf]
        by_cases hsize : size = 0
        · subst hsize
          simp only [Nat.zero_sub, take_zero, append_nil, if_true]
          exact ⟨rest, rfl, (hs.replace t rest hs.nul hs.room rfl).text⟩
        · rw [if_neg hsize]
          obtain ⟨rest', hwrite, hs'⟩ := hs.appendZero (u := out.take (size - 1))
            (fun hmem => hout (mem_of_mem_take hmem)) hfits
          exact ⟨rest', hwrite, hs'.text⟩
      obtain ⟨rest', hwrite, hs'⟩ := hwrite
      have hle' : (out.take (size - 1)).length ≤ size := by
        rw [length_take]
        omega
      rw [hwrite]
      simp only [bind_some]
      cases hret : vsnprintfRet out with
      | some n =>
        rw [hret, getD_some] at hlen
        refine ⟨.ok, _, out.take (size - 1), rfl, ?_, hle', fun _ => hle⟩
        rw [hlen, U32.add_of_lt (by omega)]
        exact hs'
      | none =>
        rw [hret, getD_none] at hlen
        rw [← hlen, Nat.add_zero] at hs'
        exact ⟨.badParams, _, out.take (size - 1), rfl, hs', hle', fun hbad => by cases hbad⟩
  · refine ⟨.oom, s, [], ?_, by rwa [append_nil], Nat.zero_le _, fun hbad => by cases hbad⟩
    simp only [he, bind_eq_bind, bind_some, ne_eq, reduceCtorEq, not_false_eq_true,
      if_true]

/-- The blanks have the room of the format, if its size was not cut to nothing. -/
theorem appendFormatPadding_gives (h : Text s t) (hsize : size < 2 ^ 32) (hout : 0 ∉ out)
    (hok : AppendVformatOk memory s size out) (hne : s.size + size + 1 ≠ 2 ^ 32) :
    ∃ u, Gives (s.appendFormatPadding memory size out) (t ++ u) := by
  obtain ⟨ret, s', u, he, ht, hu, hroom⟩ := appendVformat_gives h hout hok
  simp only [appendFormatPadding, he, bind_eq_bind, bind_some]
  by_cases hret : ret = .ok
  · rw [if_neg (not_not.mpr hret)]
    have hroom := hroom hret
    have hs' := ht.size_eq
    rw [length_append, ← h.size_eq] at hs'
    split_ifs with hlt
    · have hold := h.size_lt
      have hsum : s.size + size + 1 < 2 ^ 32 := by
        rw [U32.add] at hlt
        omega
      have hn : U32.sub (U32.add s.size size) s'.size = s.size + size - s'.size := by
        rw [U32.add_of_lt (by omega), U32.sub_of_le (by omega) (by omega)]
      rw [vformatRoom, U32.add_add, Nat.mod_eq_of_lt hsum] at hroom
      have hpad := appendNChars_gives ht (c := (' ' : UInt8))
        (n := s.size + size - s'.size) (.inl (by decide))
        (show RoomOk memory s' _ from fun _ => .inl (by omega))
      rw [hn]
      rcases hpad with ⟨ret', s'', he', ht'⟩ | ⟨ret', s'', he', ht'⟩
      · simp only [he', bind_some]
        exact ⟨u, .of_text ht' _⟩
      · simp only [he', bind_some]
        rw [append_assoc] at ht'
        exact ⟨_, .of_text ht' _⟩
    · exact ⟨u, .of_text ht _⟩
  · rw [if_pos hret]
    exact ⟨u, .of_text ht _⟩

end Format

end StrT

end Awtk
