import Awtk.Tkc.StrTText

/-!
# Edits of a growable string

Inserting, removing, trimming and reversing.  No one but an insertion needs room.
-/

namespace Awtk.StrT

open List Option

open Block (read write resize text)

section Edits

variable {memory : Nat → Bool} {s : StrT} {t u : Str}

/-! ## Shorter texts -/

theorem Text.cases (h : Text s t) :
    (s.str = none ∧ s.size = 0 ∧ t = []) ∨ ∃ rest, Holds s t rest := by
  rcases h with ⟨hstr, hsize, -, ht⟩ | h
  · exact .inl ⟨hstr, hsize, ht⟩
  · exact .inr h

theorem Holds.take {rest : Str} (h : Holds s t rest) (i : Nat) (hi : i ≤ t.length) : ∃ rest',
    write (t ++ 0 :: rest) i [0] = some (t.take i ++ 0 :: rest') ∧
      Holds { s with str := some (t.take i ++ 0 :: rest'), size := i } (t.take i) rest' := by
  have hlen : (t.take i).length = i := length_take_of_le hi
  rw [← take_append_drop i t] at h
  obtain ⟨rest', hwrite, hs⟩ := h.cut
  rw [take_append_drop, hlen] at hwrite
  rw [hlen] at hs
  exact ⟨rest', hwrite, hs⟩

theorem shrink_gives (h : Text s t) (size : Nat) : Gives (s.shrink size) (t.take size) := by
  rw [shrink]
  split_ifs with hsize
  · rw [h.size_eq] at hsize
    obtain ⟨rest, hs⟩ := h.holds_of_ne_nil (ne_nil_of_length_pos (Nat.zero_lt_of_lt hsize))
    obtain ⟨rest', hwrite, hs'⟩ := hs.take size hsize.le
    refine ⟨.ok, _, ?_, hs'.text⟩
    simp only [hs.str, bind_eq_bind, bind_some, hwrite]
  · rw [take_of_length_le (h.size_eq ▸ Nat.le_of_not_lt hsize)]
    exact .of_text h .ok

theorem pop_gives (h : Text s t) : Gives s.pop t.dropLast := by
  rw [pop]
  by_cases hsize : s.size = 0
  · have ht : t = [] := length_eq_zero_iff.mp (h.size_eq ▸ hsize)
    subst ht
    rw [if_pos hsize]
    exact .of_text h .badParams
  · rw [if_neg hsize]
    have hpos : 0 < t.length := h.size_eq ▸ Nat.pos_of_ne_zero hsize
    obtain ⟨rest, hs⟩ := h.holds_of_ne_nil (ne_nil_of_length_pos hpos)
    obtain ⟨rest', hwrite, hs'⟩ := hs.take (t.length - 1) (Nat.sub_le _ _)
    rw [dropLast_eq_take]
    refine ⟨.ok, _, ?_, hs'.text⟩
    simp only [hs.str, hs.size, bind_eq_bind, bind_some, hwrite]

theorem dequote_gives (h : Text s t) (c : UInt8) :
    Gives (s.dequote c) t ∨ Gives (s.dequote c) (t.tail.take (t.length - 2)) := by
  rcases h.cases with ⟨hstr, -, -⟩ | ⟨rest, hs⟩
  · left
    rw [dequote, hstr]
    exact .of_text h .badParams
  simp only [dequote, hs.str, hs.size]
  by_cases hsize : t.length < 2
  · rw [if_pos hsize]
    exact .inl (.of_text h .badParams)
  rw [if_neg hsize]
  obtain ⟨x, t', rfl⟩ := exists_cons_of_length_pos (l := t) (by omega)
  rw [length_cons] at hsize ⊢
  obtain ⟨y, hy⟩ : ∃ y, (x :: t' ++ 0 :: rest)[t'.length + 1 - 1]? = some y :=
    ⟨_, getElem?_eq_getElem (by simp only [length_append, length_cons]; omega)⟩
  simp only [cons_append, getElem?_cons_zero, bind_eq_bind, bind_some] at hy ⊢
  rw [hy]
  simp only [bind_some]
  split
  · exact .inl (.of_text h .badParams)
  · right
    have hm : (t'.take (t'.length - 1)).length = t'.length - 1 :=
      length_take_of_le (Nat.sub_le _ _)
    have hread : read (x :: (t' ++ 0 :: rest)) 1 (t'.length + 1 - 2) =
        some (t'.take (t'.length - 1)) := by
      have hparts : x :: (t' ++ 0 :: rest) =
          [x] ++ (t'.take (t'.length - 1) ++ (t'.drop (t'.length - 1) ++ 0 :: rest)) := by
        rw [← append_assoc (t'.take _), take_append_drop]
        rfl
      rw [hparts]
      exact Block.read_eq rfl (by rw [hm]; omega)
    have h' : Holds s ([] ++ x :: t') rest := hs
    obtain ⟨str, rest', hstr, hwrite, hs'⟩ := h'.put (u := t'.take (t'.length - 1))
      (fun hmem => h.nul (mem_cons_of_mem _ (mem_of_mem_take hmem)))
      (by have := h.length_le; simp only [length_cons, length_nil] at *; omega)
    simp only [nil_append, length_nil, Nat.zero_add, hm, cons_append] at hstr hwrite hs'
    refine ⟨.ok, _, ?_, hs'.text⟩
    have hsub : t'.length + 1 - 2 = t'.length - 1 := by omega
    rw [hread]
    simp only [hsub, bind_some, hstr, hwrite]

/-! ## Removing and inserting -/

theorem remove_gives (h : Text s t) {offset size : Nat}
    (hok : U32.add offset size ≤ s.size → offset + size < 2 ^ 32) :
    Gives (s.remove offset size) t ∨
      Gives (s.remove offset size) (t.take offset ++ t.drop (offset + size)) := by
  rw [remove]
  split_ifs with hc
  · right
    obtain ⟨hle, hpos⟩ := hc
    have hlt := hok hle
    rw [U32.add_of_lt hlt, h.size_eq] at hle
    obtain ⟨rest, hs⟩ := h.holds_of_ne_nil (ne_nil_of_length_pos (by omega))
    have hp : (t.take offset).length = offset := length_take_of_le (by omega)
    have hq : (t.drop (offset + size)).length = t.length - (offset + size) := length_drop
    have hnul : 0 ∉ t.drop (offset + size) := fun hmem => h.nul (mem_of_mem_drop hmem)
    have htext : text (t ++ 0 :: rest) (offset + size) = some (t.drop (offset + size)) := by
      have hparts : t ++ 0 :: rest = t.take (offset + size) ++ (t.drop (offset + size) ++ 0 :: rest) := by
        rw [← append_assoc, take_append_drop]
      rw [hparts]
      exact Block.text_eq (length_take_of_le hle) hnul
    have h' : Holds s (t.take offset ++ t.drop offset) rest := by rwa [take_append_drop]
    have hroom := hs.room
    have hlt' := hs.lt
    obtain ⟨str, rest', hstr, hwrite, hs'⟩ := h'.put hnul (by omega)
    rw [take_append_drop, hp] at hstr
    have hsub : U32.sub s.size size = offset + (t.drop (offset + size)).length := by
      rw [hs.size, U32.sub_of_le (by omega) (by omega)]
      omega
    rw [hp] at hwrite hs'
    refine ⟨.ok, _, ?_, hs'.text⟩
    simp only [hs.str, bind_eq_bind, bind_some, htext, hstr, hsub, hwrite]
  · exact .inl (.of_text h .badParams)

/-- The moved part is read in front of the text that is inserted. -/
theorem insertWithLen_gives (h : Text s t) (hu : 0 ∉ u) {offset size : Nat} (hsize : size ≤ u.length)
    (hok : RoomOk memory s (s.size + size + 1)) :
    Gives (s.insertWithLen memory offset u size) t ∨
      Gives (s.insertWithLen memory offset u size)
        (t.take offset ++ (u.take size ++ t.drop offset)) := by
  rw [insertWithLen, U32.add_add]
  by_cases hoff : s.size < offset
  · rw [if_pos hoff]
    exact .inl (.of_text h .badParams)
  rw [if_neg hoff]
  rw [h.size_eq] at hoff
  rcases room_cases h (Nat.succ_pos _) hok with ⟨s', rest, he, hs, hneed⟩ | he
  · right
    have hlt := hs.lt
    have hcap := hs.capacity
    have hroom := hs.room
    rw [h.size_eq] at hneed
    have hdata : (u.take size).length = size := length_take_of_le hsize
    have hp : (t.take offset).length = offset := length_take_of_le (by omega)
    have hmove : t.length - offset = (t.drop offset).length := length_drop.symm
    have ht : t = t.take offset ++ t.drop offset := (take_append_drop _ _).symm
    generalize t.take offset = p at hp ht
    generalize t.drop offset = q at hmove ht
    subst ht
    rw [length_append] at hcap hneed hroom
    obtain ⟨a, b, c, hparts, ha, hb⟩ := Block.exists_parts (x := q ++ 0 :: rest) (m := size)
      (n := q.length) (by rw [length_append, length_cons]; omega)
    have hlen := congrArg List.length hparts
    simp only [length_append, length_cons, ha, hb] at hlen
    obtain ⟨d, c, rfl⟩ := exists_cons_of_length_pos (l := c) (by omega)
    have hblock : p ++ q ++ 0 :: rest = p ++ (q ++ 0 :: rest) := append_assoc _ _ _
    have hmoved : write (p ++ q ++ 0 :: rest) (offset + size) q =
        some (p ++ (a ++ (q ++ d :: c))) := by
      rw [hblock, hparts, ← append_assoc, Block.write_eq (by rw [length_append, hp, ha]) hb,
        append_assoc]
    have hwrite : write (p ++ (a ++ (q ++ d :: c))) offset (u.take size) =
        some (p ++ (u.take size ++ q) ++ d :: c) := by
      rw [Block.write_eq hp (ha.trans hdata.symm)]
      simp only [append_assoc]
    have hend : write (p ++ (u.take size ++ q) ++ d :: c) ((p ++ q).length + size) [0] =
        some (p ++ (u.take size ++ q) ++ 0 :: c) :=
      Block.write_eq (y := [d]) (by simp only [length_append, hdata]; omega) rfl
    have hs' := hs.replace (p ++ (u.take size ++ q)) c (by
        have hnul := hs.nul
        simp only [mem_append, not_or] at hnul ⊢
        exact ⟨hnul.1, fun hmem => hu (mem_of_mem_take hmem), hnul.2⟩)
      (by simp only [length_append, hdata]; omega)
      (by simp only [length_append, hdata, length_cons] at hlen ⊢; omega)
    have hnew : (p ++ (u.take size ++ q)).length = (p ++ q).length + size := by
      simp only [length_append, hdata]
      omega
    rw [hnew] at hs'
    have hadd := U32.add_of_lt (show (p ++ q).length + size < 2 ^ 32 by rw [length_append]; omega)
    refine ⟨.ok, _, ?_, hs'.text⟩
    simp only [he, bind_eq_bind, bind_some, ne_eq, not_true_eq_false, if_false, hs.str,
      hs.size, Block.read_zero hsize, hadd]
    rw [hmove]
    by_cases hq : 0 < q.length
    · rw [if_pos hq, hblock, Block.read_eq hp rfl, ← hblock]
      simp only [bind_some, hmoved, hwrite, hend]
    · -- nothing is moved, and the block is the same
      obtain rfl : q = [] := length_eq_zero_iff.mp (Nat.eq_zero_of_not_pos hq)
      obtain rfl : b = [] := length_eq_zero_iff.mp hb
      rw [if_neg hq, hblock, hparts]
      simp only [nil_append] at hwrite ⊢
      simp only [hwrite, bind_some, hend]
  · left
    simp only [he, bind_eq_bind, bind_some]
    exact .of_text h _

/-! ## Trimming -/

theorem trimLeft_gives (h : Text s t) (chars : Str) :
    Gives (s.trimLeft chars) (t.dropWhile (chars.contains ·)) := by
  rcases h.cases with ⟨hstr, -, rfl⟩ | ⟨rest, hs⟩
  · rw [trimLeft, hstr]
    exact .of_text h .badParams
  simp only [trimLeft, hs.str, hs.size]
  by_cases hsize : t.length = 0
  · have ht : t = [] := length_eq_zero_iff.mp hsize
    subst ht
    rw [if_pos hsize]
    exact .of_text h .ok
  rw [if_neg hsize, Block.text_zero hs.nul]
  simp only [bind_eq_bind, bind_some]
  have hsplit : t = t.takeWhile (chars.contains ·) ++ t.dropWhile (chars.contains ·) :=
    takeWhile_append_dropWhile.symm
  generalize t.takeWhile (chars.contains ·) = p at hsplit
  generalize t.dropWhile (chars.contains ·) = q at hsplit ⊢
  subst hsplit
  have hnul : 0 ∉ q := fun hmem => h.nul (mem_append_right _ hmem)
  have hi : (p ++ q).length - q.length = p.length := by rw [length_append]; omega
  have hread : read (p ++ q ++ 0 :: rest) p.length (q.length + 1) = some (q ++ [0]) := by
    have hparts : p ++ q ++ 0 :: rest = p ++ (q ++ [0] ++ rest) := by
      rw [append_assoc, append_cons q]
    rw [hparts]
    exact Block.read_eq rfl (by rw [length_append, length_singleton])
  rw [hi]
  split_ifs with hp
  · rw [hread]
    have hwrite : write (p ++ q ++ 0 :: rest) 0 (q ++ [0]) =
        some (q ++ 0 :: (p ++ q ++ 0 :: rest).drop (q.length + 1)) := by
      have hw := Block.write_at (x := []) (y := p ++ q ++ 0 :: rest) (d := q ++ [0]) rfl
        (by simp only [length_append, length_cons, length_nil]; omega)
      simp only [nil_append, length_append, length_singleton] at hw
      rw [← append_cons] at hw
      exact hw
    simp only [bind_some, hwrite, Block.text_zero hnul]
    have hroom := hs.room
    rw [length_append] at hroom
    exact .of_text (hs.replace q _ hnul (by omega)
      (by simp only [length_append, length_drop, length_cons]; omega)).text .ok
  · have hp' : p = [] := length_eq_zero_iff.mp (not_not.mp hp)
    subst hp'
    rw [nil_append] at hs ⊢
    rw [Block.text_zero hnul]
    have hsame := hs.replace q rest hnul hs.room rfl
    exact .of_text hsame.text .ok

theorem strTrimRight_prefix (chars t : Str) : strTrimRight chars t <+: t := by
  rw [strTrimRight, ← reverse_suffix, reverse_reverse]
  exact dropWhile_suffix _

theorem trimRight_gives (h : Text s t) (chars : Str) :
    Gives (s.trimRight chars) (strTrimRight chars t) := by
  rcases h.cases with ⟨hstr, -, rfl⟩ | ⟨rest, hs⟩
  · rw [trimRight, hstr]
    exact .of_text h .badParams
  simp only [trimRight, hs.str, hs.size]
  by_cases hsize : t.length = 0
  · have ht : t = [] := length_eq_zero_iff.mp hsize
    subst ht
    rw [if_pos hsize]
    exact .of_text h .ok
  have hne : t ≠ [] := fun ht => hsize (ht ▸ rfl)
  rw [if_neg hsize, Block.text_zero hs.nul]
  simp only [bind_eq_bind, bind_some, if_neg hne]
  have hpre := strTrimRight_prefix chars t
  obtain ⟨rest', hwrite, hs'⟩ := hs.take (strTrimRight chars t).length hpre.length_le
  rw [← prefix_iff_eq_take.mp hpre] at hwrite hs'
  simp only [hwrite, bind_some, Block.text_zero hs'.nul]
  exact .of_text hs'.text .ok

theorem trim_gives (h : Text s t) (chars : Str) :
    Gives (s.trim chars) (strTrimRight chars (t.dropWhile (chars.contains ·))) := by
  rw [trim]
  by_cases hsize : s.size = 0
  · have ht : t = [] := length_eq_zero_iff.mp (h.size_eq ▸ hsize)
    subst ht
    rw [if_pos hsize]
    exact .of_text h .ok
  · obtain ⟨ret, s', he, hs'⟩ := trimLeft_gives h chars
    simp only [if_neg hsize, he, bind_eq_bind, bind_some]
    exact trimRight_gives hs' chars

/-! ## Prefixes and reversing -/

theorem commonLoop_le {str : List UInt8} {limit : Nat} (hlimit : limit ≤ str.length) :
    ∀ (other : Str) {i : Nat}, i ≤ limit →
      ∃ j, commonLoop str limit other i = some j ∧ j ≤ limit
  | [], i, hi => ⟨i, rfl, hi⟩
  | c :: other, i, hi => by
    rw [commonLoop]
    by_cases hlt : i < limit
    · rw [if_pos hlt, getElem?_eq_getElem (by omega)]
      show ∃ j, (if str[i] = c then _ else _) = some j ∧ _
      split_ifs with hc
      · exact commonLoop_le hlimit other hlt
      · exact ⟨i, rfl, hi⟩
    · rw [if_neg hlt]
      exact ⟨i, rfl, hi⟩

theorem commonPrefix_gives (h : Text s t) (other : Str) :
    ∃ i, Gives (s.commonPrefix other) (t.take i) := by
  rcases h.cases with ⟨hstr, -, rfl⟩ | ⟨rest, hs⟩
  · refine ⟨0, ?_⟩
    rw [commonPrefix, hstr]
    exact .of_text h .badParams
  have hroom := hs.room
  have hmin : min s.size s.capacity = t.length := by rw [hs.size, min_eq_left hroom.le]
  obtain ⟨i, hi, hle⟩ := commonLoop_le (i := 0) (show t.length ≤ (t ++ 0 :: rest).length by simp) other
    (Nat.zero_le _)
  obtain ⟨rest', hwrite, hs'⟩ := hs.take i hle
  refine ⟨i, ?_⟩
  simp only [commonPrefix, hs.str, hmin, hi, bind_eq_bind, bind_some,
    if_pos (hle.trans_lt hroom), hwrite]
  exact .of_text hs'.text .ok

theorem getElem?_length (x : List UInt8) (c : UInt8) (y : List UInt8) : (x ++ c :: y)[x.length]? = some c := by
  simp

theorem set_length (x : List UInt8) (c d : UInt8) (y : List UInt8) : (x ++ c :: y).set x.length d = x ++ d :: y := by
  simp

/-- The loop turns the part that it has not passed. -/
theorem reverseLoop_eq : ∀ (fuel : Nat) {x m y : List UInt8}, m.length ≤ 2 * fuel + 1 →
    reverseLoop fuel (x ++ (m ++ y)) x.length (x.length + m.length - 1) =
      some (x ++ (m.reverse ++ y))
  | fuel, x, [], y, _ => by
    cases fuel with
    | zero => rfl
    | succ fuel =>
      rw [reverseLoop, if_neg (by simp)]
      rfl
  | fuel, x, [c], y, _ => by
    cases fuel with
    | zero => rfl
    | succ fuel =>
      rw [reverseLoop, if_neg (by simp)]
      rfl
  | 0, x, c :: d :: mid, y, h => by
    simp only [length_cons] at h
    omega
  | fuel + 1, x, c :: d :: mid, y, h => by
    obtain ⟨mid', e, hmid⟩ : ∃ mid' e, d :: mid = mid' ++ [e] :=
      ⟨_, _, (dropLast_append_getLast (cons_ne_nil d mid)).symm⟩
    rw [hmid] at h ⊢
    simp only [length_cons, length_append, length_nil] at h
    have hstop : x.length + (c :: (mid' ++ [e])).length - 1 = (x ++ c :: mid').length := by
      simp only [length_cons, length_append, length_nil]
      omega
    have hstop' : (x ++ c :: mid').length = (x ++ e :: mid').length := by
      simp only [length_append, length_cons]
    have hblock : x ++ (c :: (mid' ++ [e]) ++ y) = x ++ c :: mid' ++ e :: y := by simp
    have hlast : (x ++ c :: mid' ++ e :: y)[x.length]? = some c := by
      rw [append_assoc]
      exact getElem?_length x c _
    have hswap : ((x ++ c :: mid' ++ e :: y).set x.length e).set (x ++ c :: mid').length c =
        x ++ e :: mid' ++ c :: y := by
      rw [append_assoc, cons_append, set_length, ← cons_append, ← append_assoc,
        hstop', set_length]
    rw [hstop, hblock, reverseLoop, if_pos (by simp), hlast, getElem?_length]
    simp only [bind_eq_bind, bind_some, hswap]
    have ih := reverseLoop_eq fuel (x := x ++ [e]) (m := mid') (y := c :: y) (by omega)
    have hnext : (x ++ c :: mid').length - 1 = (x ++ [e]).length + mid'.length - 1 := by
      simp only [length_append, length_cons, length_nil]
      omega
    rw [length_append, length_singleton, append_assoc, append_assoc] at ih
    rw [hnext, length_append, length_singleton, append_assoc]
    simpa using ih

theorem reverse_gives (h : Text s t) : Gives s.reverse t.reverse := by
  rw [reverse]
  split_ifs with hsize
  · rw [h.size_eq] at hsize
    obtain ⟨rest, hs⟩ := h.holds_of_ne_nil (ne_nil_of_length_pos (by omega))
    have hloop := reverseLoop_eq t.length (x := []) (m := t) (y := 0 :: rest) (by omega)
    rw [nil_append, length_nil, Nat.zero_add, nil_append] at hloop
    have hs' := hs.replace t.reverse rest
      (fun hmem => hs.nul (mem_reverse.mp hmem)) (by rw [length_reverse]; exact hs.room)
      (by rw [length_reverse])
    rw [length_reverse, ← hs.size] at hs'
    refine ⟨.ok, _, ?_, hs'.text⟩
    simp only [hs.str, bind_eq_bind, bind_some, hs.size, hloop]
  · rw [h.size_eq] at hsize
    have hrev : t.reverse = t := by
      match t, hsize with
      | [], _ => rfl
      | [c], _ => rfl
      | c :: d :: t, hsize => exact absurd (by simp) hsize
    rw [hrev]
    exact .of_text h .ok

end Edits

end Awtk.StrT
