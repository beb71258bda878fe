import Awtk.Tkc.StrT

/-!
# The text of a growable string

`Text s t` says that the block of `s` holds the text `t`, which has no NUL, and its terminator, and
that the size and the capacity agree with it.  Each function that has the room it asks for makes a
text of a text.
-/

namespace Awtk.StrT

open List Option

open Block (read write resize text)

/-- The block has the text, its terminator and `rest`. -/
structure Holds (s : StrT) (t rest : Str) : Prop where
  str : s.str = some (t ++ 0 :: rest)
  size : s.size = t.length
  nul : 0 ∉ t
  room : t.length < s.capacity
  capacity : s.capacity ≤ t.length + rest.length + 1
  lt : s.capacity < 2 ^ 32

/-- The string has a text.  One without a block has the empty text. -/
def Text (s : StrT) (t : Str) : Prop :=
  (s.str = none ∧ s.size = 0 ∧ s.capacity = 0 ∧ t = []) ∨ ∃ rest, Holds s t rest

/-- A call gives a string with a text. -/
def Gives (res : Option (Ret × StrT)) (t : Str) : Prop :=
  ∃ ret s, res = some (ret, s) ∧ Text s t

/-- `str_extend` has the room, or gets it. -/
def Granted (memory : Nat → Bool) (s : StrT) (wanted : Nat) : Prop :=
  wanted ≤ s.capacity ∨ s.extendable = true ∧ memory (U32.add wanted 1) = true

/-- Room of which the size was cut is not granted. -/
def RoomOk (memory : Nat → Bool) (s : StrT) (need : Nat) : Prop :=
  Granted memory s (need % 2 ^ 32) → need ≤ s.capacity ∨ need + 1 < 2 ^ 32

section Basic

variable {memory : Nat → Bool} {s s' : StrT} {t t' u rest rest' : Str} {wanted need : Nat}

theorem Text.size_eq (h : Text s t) : s.size = t.length := by
  rcases h with ⟨-, hsize, -, rfl⟩ | ⟨rest, h⟩
  · exact hsize
  · exact h.size

theorem Text.nul (h : Text s t) : 0 ∉ t := by
  rcases h with ⟨-, -, -, rfl⟩ | ⟨rest, h⟩
  · exact not_mem_nil
  · exact h.nul

theorem Text.length_le (h : Text s t) : t.length ≤ s.capacity := by
  rcases h with ⟨-, -, -, rfl⟩ | ⟨rest, h⟩
  · exact Nat.zero_le _
  · exact h.room.le

theorem Text.size_lt (h : Text s t) : s.size < 2 ^ 32 := by
  rcases h with ⟨-, hsize, -, -⟩ | ⟨rest, h⟩
  · omega
  · exact h.size ▸ h.room.trans h.lt

theorem Text.holds (h : Text s t) (hpos : 0 < s.capacity) : ∃ rest, Holds s t rest := by
  rcases h with ⟨-, -, hcap, -⟩ | h
  · omega
  · exact h

theorem Text.holds_of_ne_nil (h : Text s t) (hne : t ≠ []) : ∃ rest, Holds s t rest := by
  rcases h with ⟨-, -, -, ht⟩ | h
  · exact absurd ht hne
  · exact h

theorem Holds.text (h : Holds s t rest) : Text s t := .inr ⟨rest, h⟩

theorem Gives.of_text (h : Text s t) (ret : Ret) : Gives (some (ret, s)) t := ⟨ret, s, rfl, h⟩

theorem Holds.replace (h : Holds s t rest) (t' rest' : Str) (ht : 0 ∉ t') (hroom : t'.length < s.capacity)
    (hlen : t'.length + rest'.length = t.length + rest.length) :
    Holds { s with str := some (t' ++ 0 :: rest'), size := t'.length } t' rest' :=
  ⟨rfl, rfl, ht, hroom, by have := h.capacity; simp only; omega, h.lt⟩

/-! ## Room -/

theorem extend_block (str : List UInt8) (h : t.length ≤ wanted) :
    ∃ str', write (resize 0 (t ++ str) (wanted + 1)) wanted [0] = some str' ∧
      write str' t.length (List.replicate (wanted + 1 - t.length) 0) =
        some (t ++ 0 :: List.replicate (wanted - t.length) 0) := by
  obtain ⟨y, hy, hylen⟩ := Block.resize_append (y := str) (Nat.le_succ_of_le h) 0
  obtain ⟨y', hy', hlen⟩ := Block.write_behind (y := y) (d := [0]) h
    (by simp only [length_singleton]; omega)
  refine ⟨t ++ y', by rw [hy, hy'], ?_⟩
  have hall : (List.replicate (wanted + 1 - t.length) (0 : UInt8)).length = y'.length := by
    rw [length_replicate]
    omega
  rw [Block.write_at rfl hall.le, drop_of_length_le hall.ge, append_nil,
    Nat.sub_add_comm h, replicate_succ]

/-- `str_extend` leaves the text, and gives the room it says. -/
theorem extend_cases (h : Text s t)
    (hok : Granted memory s wanted → wanted ≤ s.capacity ∨ wanted + 1 < 2 ^ 32) :
    (∃ s', s.extend memory wanted = some (.ok, s') ∧ Text s' t ∧
      s'.capacity = max s.capacity wanted ∧ Granted memory s wanted) ∨
      s.extend memory wanted = some (.fail, s) := by
  rw [extend]
  by_cases hle : wanted ≤ s.capacity
  · rw [if_pos hle]
    exact .inl ⟨s, rfl, h, (max_eq_left hle).symm, .inl hle⟩
  rw [if_neg hle]
  by_cases hext : s.extendable = true
  · rw [if_neg (not_not.mpr hext)]
    cases hmem : memory (U32.add wanted 1) with
    | false =>
      right
      simp only [hmem, Bool.false_eq_true, if_false]
    | true =>
      have hgranted : Granted memory s wanted := .inr ⟨hext, hmem⟩
      have hlt : wanted + 1 < 2 ^ 32 := (hok hgranted).resolve_left hle
      have hold : ∃ str, s.str.getD [] = t ++ str := by
        rcases h with ⟨hstr, -, -, rfl⟩ | ⟨rest, h⟩
        · exact ⟨[], by rw [hstr]; rfl⟩
        · exact ⟨0 :: rest, by rw [h.str]; rfl⟩
      obtain ⟨str, hstr⟩ := hold
      have hlen := h.length_le
      obtain ⟨str', hfirst, hsecond⟩ := extend_block str
        (show t.length ≤ wanted by omega)
      have hs' : Holds ⟨some (t ++ 0 :: List.replicate (wanted - t.length) 0), s.size, wanted,
          s.extendable⟩ t (List.replicate (wanted - t.length) 0) := by
        refine ⟨rfl, h.size_eq, h.nul, by show t.length < wanted; omega, ?_, ?_⟩
        · rw [length_replicate]
          show wanted ≤ _
          omega
        · show wanted < 2 ^ 32
          omega
      refine .inl ⟨_, ?_, hs'.text, (max_eq_right (Nat.le_of_not_le hle)).symm, hgranted⟩
      simp only [hmem, if_true]
      rw [U32.add_of_lt hlt, hstr, hfirst]
      show (write str' s.size (List.replicate (wanted + 1 - s.size) 0)).bind _ = _
      rw [h.size_eq, hsecond]
      rfl
  · rw [if_pos hext]
    exact .inr rfl

theorem room_cases (h : Text s t) (hpos : 0 < need) (hok : RoomOk memory s need) :
    (∃ s' rest, s.extend memory (need % 2 ^ 32) = some (.ok, s') ∧ Holds s' t rest ∧
      need ≤ s'.capacity) ∨ s.extend memory (need % 2 ^ 32) = some (.fail, s) := by
  have hmod : need % 2 ^ 32 ≤ need := Nat.mod_le _ _
  have hroom : Granted memory s (need % 2 ^ 32) →
      need % 2 ^ 32 ≤ s.capacity ∨ need % 2 ^ 32 + 1 < 2 ^ 32 := by
    intro hg
    rcases hok hg with hle | hlt
    · exact .inl (hmod.trans hle)
    · exact .inr (by omega)
  rcases extend_cases h hroom with ⟨s', he, ht, hcap, hg⟩ | he
  · left
    have hneed : need ≤ s'.capacity := by
      rcases hok hg with hle | hlt
      · exact hle.trans (hcap ▸ le_max_left _ _)
      · rw [Nat.mod_eq_of_lt (by omega)] at hcap
        exact hcap ▸ le_max_right _ _
    obtain ⟨rest, hs⟩ := ht.holds (hpos.trans_le hneed)
    exact ⟨s', rest, he, hs, hneed⟩
  · exact .inr he

/-! ## Setting and appending -/

/-- A text is written behind the first part of the old one, and then its terminator. -/
theorem Holds.put (h : Holds s (t ++ t') rest) (hu : 0 ∉ u) (hroom : t.length + u.length < s.capacity) :
    ∃ str rest', write (t ++ t' ++ 0 :: rest) t.length u = some str ∧
      write str (t.length + u.length) [0] = some (t ++ u ++ 0 :: rest') ∧
      Holds { s with str := some (t ++ u ++ 0 :: rest'), size := t.length + u.length } (t ++ u) rest' := by
  have hcap := h.capacity
  rw [length_append] at hcap
  obtain ⟨a, b, c, hparts, ha, hb⟩ := Block.exists_parts (x := t' ++ 0 :: rest) (m := u.length) (n := 1)
    (by rw [length_append, length_cons]; omega)
  have hlen := congrArg List.length hparts
  simp only [length_append, length_cons, ha, hb] at hlen
  refine ⟨t ++ (u ++ (b ++ c)), c, ?_, ?_, ?_⟩
  · rw [append_assoc, hparts]
    exact Block.write_eq rfl ha
  · rw [← append_assoc, Block.write_eq (by rw [length_append]) hb]
    rfl
  · rw [← length_append]
    refine h.replace (t ++ u) c (fun hmem => ?_) (by rw [length_append]; exact hroom) ?_
    · rcases mem_append.mp hmem with hmem | hmem
      · exact h.nul (mem_append_left _ hmem)
      · exact hu hmem
    · simp only [length_append]
      omega

/-- A text is written behind the old one. -/
theorem Holds.append (h : Holds s t rest) (hu : 0 ∉ u) (hroom : t.length + u.length < s.capacity) :
    ∃ str rest', write (t ++ 0 :: rest) t.length u = some str ∧
      write str (t.length + u.length) [0] = some (t ++ u ++ 0 :: rest') ∧
      Holds { s with str := some (t ++ u ++ 0 :: rest'), size := t.length + u.length } (t ++ u) rest' := by
  have h' : Holds s (t ++ []) rest := by rwa [append_nil]
  obtain ⟨str, rest', hstr, hwrite, hs⟩ := h'.put hu hroom
  rw [append_nil] at hstr
  exact ⟨str, rest', hstr, hwrite, hs⟩

/-- The old text ends earlier. -/
theorem Holds.cut (h : Holds s (t ++ t') rest) : ∃ rest',
    write (t ++ t' ++ 0 :: rest) t.length [0] = some (t ++ 0 :: rest') ∧
      Holds { s with str := some (t ++ 0 :: rest'), size := t.length } t rest' := by
  have hroom : t.length + ([] : Str).length < s.capacity := by
    have hroom := h.room
    rw [length_append] at hroom
    rw [length_nil]
    omega
  obtain ⟨str, rest', hstr, hwrite, hs⟩ := h.put not_mem_nil hroom
  rw [append_assoc, Block.write_at rfl (Nat.zero_le _)] at hstr
  rw [append_nil] at hwrite hs
  rw [append_assoc]
  exact ⟨rest', by rw [← hwrite, ← some_inj.mp hstr]; rfl, hs⟩

/-- The padding of `strncpy` is behind the terminator. -/
theorem setWithLen_gives (h : Text s t) (hu : 0 ∉ u) {len : Nat} (hok : RoomOk memory s (len + 1)) :
    Gives (s.setWithLen memory u len) t ∨ Gives (s.setWithLen memory u len) (u.take len) := by
  have hadd : U32.add len 1 = (len + 1) % 2 ^ 32 := rfl
  rw [setWithLen, hadd]
  rcases room_cases h (Nat.succ_pos _) hok with ⟨s', rest, he, hs, hneed⟩ | he
  · right
    have hcap := hs.capacity
    obtain ⟨a, b, c, hparts, ha, hb⟩ := Block.exists_parts (x := t ++ 0 :: rest) (m := len) (n := 1)
      (by rw [length_append, length_cons]; omega)
    have hlen := congrArg List.length hparts
    simp only [length_append, length_cons, ha, hb] at hlen
    generalize hz : List.replicate (len - u.length) (0 : UInt8) = zeros
    have hzeros : zeros.length = len - u.length := by rw [← hz, length_replicate]
    have hdata : (u.take len ++ zeros).length = len := by
      rw [length_append, length_take, hzeros]
      omega
    have hnul : 0 ∉ u.take len := fun hmem => hu (mem_of_mem_take hmem)
    have hfirst : write (t ++ 0 :: rest) 0 (u.take len ++ zeros) =
        some (u.take len ++ zeros ++ (b ++ c)) := by
      rw [hparts]
      exact Block.write_eq (x := []) rfl (ha.trans hdata.symm)
    have hsecond : write (u.take len ++ zeros ++ (b ++ c)) len [0] =
        some (u.take len ++ 0 :: (zeros ++ c)) := by
      rw [Block.write_eq hdata hb, append_assoc, ← hz, ← append_assoc (List.replicate _ _),
        ← replicate_succ', replicate_succ]
      rfl
    have hs' := hs.replace (u.take len) (zeros ++ c) hnul (by rw [length_take]; omega) (by
      rw [length_append]
      rw [length_append] at hdata
      omega)
    refine ⟨.ok, _, ?_, hs'.text⟩
    simp only [he, bind_eq_bind, bind_some, ne_eq, not_true_eq_false, if_false, hs.str,
      hfirst, hsecond, Block.text_zero hnul]
  · left
    simp only [he, bind_eq_bind, bind_some]
    exact .of_text h _

theorem appendWithLen_gives (h : Text s t) (hu : 0 ∉ u) {size : Nat} (hsize : size ≤ u.length)
    (hok : RoomOk memory s (s.size + size + 1)) :
    Gives (s.appendWithLen memory u size) t ∨
      Gives (s.appendWithLen memory u size) (t ++ u.take size) := by
  rw [appendWithLen, U32.add_add]
  rcases room_cases h (Nat.succ_pos _) hok with ⟨s', rest, he, hs, hneed⟩ | he
  · right
    have hlt := hs.lt
    have hsz := h.size_eq
    have htake : (u.take size).length = size := length_take_of_le hsize
    obtain ⟨str, rest', hstr, hwrite, hs'⟩ := hs.append (u := u.take size)
      (fun hmem => hu (mem_of_mem_take hmem)) (by omega)
    rw [htake] at hwrite hs'
    refine ⟨.ok, _, ?_, hs'.text⟩
    simp only [he, bind_eq_bind, bind_some, ne_eq, not_true_eq_false, if_false, hs.str,
      Block.read_zero hsize, hs.size, hstr, U32.add_of_lt (show t.length + size < 2 ^ 32 by omega),
      hwrite]
  · left
    simp only [he, bind_eq_bind, bind_some]
    exact .of_text h _

theorem appendNChars_gives (h : Text s t) {c : UInt8} {n : Nat} (hc : c ≠ 0 ∨ n = 0)
    (hok : RoomOk memory s (s.size + n + 1)) :
    Gives (s.appendNChars memory c n) t ∨
      Gives (s.appendNChars memory c n) (t ++ List.replicate n c) := by
  rw [appendNChars, U32.add_add]
  rcases room_cases h (Nat.succ_pos _) hok with ⟨s', rest, he, hs, hneed⟩ | he
  · right
    have hlt := hs.lt
    have hsz := h.size_eq
    have hnul : 0 ∉ List.replicate n c := by
      intro hmem
      obtain ⟨hn, hzero⟩ := mem_replicate.mp hmem
      rcases hc with hc | hc
      · exact hc hzero.symm
      · exact hn hc
    obtain ⟨str, rest', hstr, hwrite, hs'⟩ := hs.append hnul (by rw [length_replicate]; omega)
    rw [length_replicate] at hwrite hs'
    refine ⟨.ok, _, ?_, hs'.text⟩
    simp only [he, bind_eq_bind, bind_some, ne_eq, not_true_eq_false, if_false, hs.str,
      hs.size, hstr, U32.add_of_lt (show t.length + n < 2 ^ 32 by omega), hwrite]
  · left
    simp only [he, bind_eq_bind, bind_some]
    exact .of_text h _

theorem appendChar_eq (memory : Nat → Bool) (s : StrT) (c : UInt8) :
    s.appendChar memory c = s.appendNChars memory c 1 := by
  rw [appendChar, appendNChars, U32.add_add]
  rfl

end Basic

end Awtk.StrT
