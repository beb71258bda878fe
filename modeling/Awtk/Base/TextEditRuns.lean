import Awtk.Base.TextEdit

/-!
# Bounds of the text editor

The cursor and the selection stay in the text, and only characters of the text are read, in every run whose
operations fit (`inBounds_of_fits`).  `text_edit_set_select` puts the start of the selection where it is told
to, and a layout that cuts the text and `text_edit_preedit_clear` leave the selection alone.
-/

namespace Awtk.TextEdit

open Runs List

variable {s s' : TextEdit} {o o' : Layout}

/-! ## The condition -/

/-- What may be done in a state: a selection starts in the text, a layout covers the cursor and the
selection, and the characters that are removed are in front of the cursor and behind the selection. -/
def Fits (s : TextEdit) : Op → Prop
  | .setCursor cursor o =>
    s.singleLine → Kept { s with cursor := min cursor.toNat s.text.length } o
  | .setSelect start finish o =>
    min start.toNat finish.toNat ≤ s.text.length ∧
      Kept { s with
        selectStart := min start.toNat finish.toNat
        selectEnd := min (max start.toNat finish.toNat) s.text.length } o
  | .selectAll o => Kept { s with selectStart := 0, selectEnd := s.text.length } o
  | .unselect o => Kept { s with selectEnd := s.selectStart } o
  | .insertText _ offset wtext o o' =>
    s.text.length + wtext.length < 2 ^ 31 ∧ Kept s o ∧
      (s.singleLine → Kept { s with
        cursor := min (min offset.toNat s.text.length + s.insertNum wtext) o.covered } o')
  | .preeditClear | .preeditAbort =>
    0 < s.preeditCharsNr → s.preeditCharsNr ≤ s.cursor ∧
      s.selectStart + s.preeditCharsNr ≤ s.text.length ∧
      s.selectEnd + s.preeditCharsNr ≤ s.text.length
  | .layout o => Kept s o
  | .paste _ r o =>
    -- What is assumed of the routines of `stb_textedit.h`.
    InBounds { s with
      text := r.text, cursor := r.cursor, selectStart := r.selectStart, selectEnd := r.selectEnd } ∧
    r.text.length < 2 ^ 31 ∧
    Kept { s with cursor := r.cursor, selectStart := r.selectStart, selectEnd := r.selectEnd } o
  | .preedit | .setMaxChars _ | .getSelectedText | .copy => True

instance decidableFits (s : TextEdit) : ∀ op, Decidable (Fits s op)
  | .setCursor .. => inferInstanceAs (Decidable (_ → _))
  | .setSelect .. => inferInstanceAs (Decidable (_ ∧ _))
  | .selectAll _ => inferInstanceAs (Decidable (Kept _ _))
  | .unselect _ => inferInstanceAs (Decidable (Kept _ _))
  | .insertText .. => inferInstanceAs (Decidable (_ ∧ _ ∧ (_ → _)))
  | .preeditClear => inferInstanceAs (Decidable (_ → _ ∧ _ ∧ _))
  | .preeditAbort => inferInstanceAs (Decidable (_ → _ ∧ _ ∧ _))
  | .layout _ => inferInstanceAs (Decidable (Kept _ _))
  | .paste .. => inferInstanceAs (Decidable (InBounds _ ∧ _ ∧ Kept _ _))
  | .preedit => .isTrue trivial
  | .setMaxChars _ => .isTrue trivial
  | .getSelectedText => .isTrue trivial
  | .copy => .isTrue trivial

/-- The invariant of the runs. -/
structure Sound (s : TextEdit) : Prop where
  inBounds : s.InBounds
  small : s.Small

/-! ## Layouts -/

theorem Sound.layout (h : s.Sound) (hk : Kept s o) : (s.layout o).Sound := by
  have hlen : (s.layout o).text.length = min o.covered s.text.length := length_take
  refine ⟨⟨?_, ?_, ?_⟩, ?_⟩
  · rw [hlen]
    exact le_min hk.cursor h.inBounds.cursor
  · rw [hlen]
    exact le_min hk.selectStart h.inBounds.selectStart
  · rw [hlen]
    exact le_min hk.selectEnd h.inBounds.selectEnd
  · rw [Small, hlen]
    exact Nat.lt_of_le_of_lt (Nat.min_le_right ..) h.small

theorem setCursor_eq (cursor : Nat) :
    s.setCursor cursor o =
      if s.cursor ≠ min cursor s.text.length ∧ s.singleLine then
        { s with cursor := min cursor s.text.length }.layout o
      else { s with cursor := min cursor s.text.length } := by
  have hmin : (if s.text.length < cursor then s.text.length else cursor) =
      min cursor s.text.length := by
    split
    case isTrue h => exact (Nat.min_eq_right (Nat.le_of_lt h)).symm
    case isFalse h => exact (Nat.min_eq_left (Nat.not_lt.mp h)).symm
  simp only [setCursor, hmin]
  by_cases hne : s.cursor = min cursor s.text.length
  · rw [if_neg (by simp [hne]), if_neg (by simp [hne])]
    exact congrArg (fun n => { s with cursor := n }) hne
  · cases hsingle : s.singleLine with
    | true => simp [hne]
    | false => simp [hne]

theorem Sound.setCursor (h : s.Sound) {cursor : Nat}
    (hk : s.singleLine → Kept { s with cursor := min cursor s.text.length } o) :
    (s.setCursor cursor o).Sound := by
  have hs : Sound { s with cursor := min cursor s.text.length } :=
    ⟨⟨Nat.min_le_right .., h.inBounds.selectStart, h.inBounds.selectEnd⟩, h.small⟩
  rw [setCursor_eq]
  split
  case isTrue hc => exact hs.layout (hk hc.2)
  case isFalse => exact hs

theorem Sound.setSelect (h : s.Sound) {start finish : Nat}
    (hstart : min start finish ≤ s.text.length)
    (hk : Kept { s with
      selectStart := min start finish
      selectEnd := min (max start finish) s.text.length } o) :
    (s.setSelect start finish o).Sound := by
  have hs : Sound { s with
      selectStart := min start finish
      selectEnd := min (max start finish) s.text.length } :=
    ⟨⟨h.inBounds.cursor, hstart, Nat.min_le_right ..⟩, h.small⟩
  have heq : s.setSelect start finish o = TextEdit.layout { s with
      selectStart := min start finish
      selectEnd := min (max start finish) s.text.length } o := by
    by_cases hlt : finish < start
    · have hle := Nat.le_of_lt hlt
      simp only [TextEdit.setSelect, if_pos hlt, Nat.min_eq_right hle, Nat.max_eq_left hle]
    · have hle := Nat.not_lt.mp hlt
      simp only [TextEdit.setSelect, if_neg hlt, Nat.min_eq_left hle, Nat.max_eq_right hle]
  rw [heq]
  exact hs.layout hk

/-! ## Changes of the text -/

theorem insertLimit_le : ∀ (n i : Nat) (cs : List WChar), insertLimit n i cs ≤ i + cs.length
  | _, i, [] => Nat.le_refl i
  | n, i, [c] => by
    rw [insertLimit, length_singleton]
    generalize (if wcharIsLineBreak c then U32.sub n 1 else n) = m
    split
    · exact Nat.le_succ i
    · exact Nat.le_refl (i + 1)
  | n, i, c :: c' :: cs => by
    have ihpair := insertLimit_le (U32.sub n 1) (i + 2) cs
    have ih := fun m => insertLimit_le m (i + 1) (c' :: cs)
    simp only [length_cons] at ih ⊢
    rw [insertLimit]
    generalize (if wcharIsLineBreak c then U32.sub n 1 else n) = m
    simp only
    split
    · split
      · omega
      · omega
    · split
      · omega
      · have ihm := ih m
        omega

theorem insertNum_le (s : TextEdit) (newtext : List WChar) : s.insertNum newtext ≤ newtext.length := by
  have hle := insertLimit_le (s.maxRows - s.lastRowNumber) 0 newtext
  rw [Nat.zero_add] at hle
  rw [insertNum]
  split
  · exact Nat.le_trans (Nat.min_le_left ..) hle
  · exact hle

theorem length_wstrInsert (memory : Bool) (str : List WChar) (offset : Nat) (text : List WChar) :
    str.length ≤ (wstrInsert memory str offset text).length ∧
      (wstrInsert memory str offset text).length ≤ str.length + text.length := by
  rw [wstrInsert]
  split
  case isTrue h =>
    have hle := h.1
    simp only [length_append, length_take, length_drop]
    omega
  case isFalse => omega

theorem insertText_eq (memory : Bool) (s : TextEdit) (offset : Nat) (wtext : List WChar)
    (o o' : Layout) :
    insertText memory s offset wtext o o' =
      if 0 < s.insertNum wtext then
        if U32.add (min offset s.text.length) (s.insertNum wtext) ≠ s.cursor then
          ((s.insert memory (min offset s.text.length) wtext).2.layout o).setCursor
            (U32.add (min offset s.text.length) (s.insertNum wtext)) o'
        else (s.insert memory (min offset s.text.length) wtext).2.layout o
      else (s.insert memory (min offset s.text.length) wtext).2 := rfl

theorem Sound.insertText (h : s.Sound) (memory : Bool) {offset : Nat} {wtext : List WChar}
    (hsmall : s.text.length + wtext.length < 2 ^ 31) (hk : Kept s o)
    (hk' : s.singleLine → Kept { s with
      cursor := min (min offset s.text.length + s.insertNum wtext) o.covered } o') :
    (insertText memory s offset wtext o o').Sound := by
  have hnum := s.insertNum_le wtext
  obtain ⟨hge, hle⟩ := length_wstrInsert memory s.text (min offset s.text.length)
    (wtext.take (s.insertNum wtext))
  rw [length_take] at hle
  have hinsert : (s.insert memory (min offset s.text.length) wtext).2.Sound :=
    ⟨⟨Nat.le_trans h.inBounds.cursor hge, Nat.le_trans h.inBounds.selectStart hge,
      Nat.le_trans h.inBounds.selectEnd hge⟩, Nat.lt_of_le_of_lt hle (by omega)⟩
  have hlayout := hinsert.layout (o := o) ⟨hk.cursor, hk.selectStart, hk.selectEnd⟩
  have hadd : U32.add (min offset s.text.length) (s.insertNum wtext) =
      min offset s.text.length + s.insertNum wtext := U32.add_of_lt (by omega)
  rw [insertText_eq, hadd]
  split
  · split
    · refine hlayout.setCursor fun hsingle => ?_
      obtain ⟨hcursor, hstart, hend⟩ := hk' hsingle
      refine ⟨Nat.le_trans (le_min (Nat.min_le_left ..) ?_) hcursor, hstart, hend⟩
      exact Nat.le_trans (Nat.min_le_right ..) (length_take_le ..)
    · exact hlayout
  · exact hinsert

theorem wstrRemove_front {str : List WChar} {cursor nr : Nat} (hnr : 0 < nr) (hle : nr ≤ cursor)
    (hcursor : cursor ≤ str.length) (hsmall : str.length < 2 ^ 31) :
    wstrRemove str (U32.sub cursor nr) nr =
      some (str.take (cursor - nr) ++ str.drop cursor) := by
  have hsub : cursor - nr + nr = cursor := Nat.sub_add_cancel hle
  have hadd : U32.add (cursor - nr) nr = cursor := by rw [U32.add_of_lt (by omega), hsub]
  have hnot : ¬ str.length < cursor := by omega
  rw [U32.sub_of_le hle (by omega), wstrRemove, if_pos (by omega)]
  simp only [hadd, if_neg hnot, hsub, if_pos hcursor]

theorem Sound.preeditClear (h : s.Sound)
    (hfits : 0 < s.preeditCharsNr → s.preeditCharsNr ≤ s.cursor ∧
      s.selectStart + s.preeditCharsNr ≤ s.text.length ∧
      s.selectEnd + s.preeditCharsNr ≤ s.text.length) :
    ∃ s', s.preeditClear = some s' ∧ s'.Sound := by
  have hcursor := h.inBounds.cursor
  have hsmall : s.text.length < 2 ^ 31 := h.small
  by_cases hnr : 0 < s.preeditCharsNr
  · obtain ⟨hle, hstart, hend⟩ := hfits hnr
    rw [TextEdit.preeditClear, if_pos hnr, wstrRemove_front hnr hle hcursor hsmall]
    have hlen : (s.text.take (s.cursor - s.preeditCharsNr) ++ s.text.drop s.cursor).length =
        s.text.length - s.preeditCharsNr := by
      simp only [length_append, length_take, length_drop]
      omega
    refine ⟨_, rfl, ⟨⟨?_, ?_, ?_⟩, ?_⟩⟩
    · simp only [hlen, U32.sub_of_le hle (Nat.lt_of_le_of_lt hcursor (by omega))]
      omega
    · simp only [hlen]
      omega
    · simp only [hlen]
      omega
    · rw [Small]
      simp only [hlen]
      omega
  · rw [TextEdit.preeditClear, if_neg hnr]
    exact ⟨s, rfl, h⟩

/-! ## Reading -/

theorem Sound.selection (h : s.Sound) :
    s.selection.1 ≤ s.selection.2 ∧ s.selection.2 ≤ s.text.length := by
  have hstart := h.inBounds.selectStart
  have hend := h.inBounds.selectEnd
  have hsmall : s.text.length < 2 ^ 31 := h.small
  rw [TextEdit.selection, I32.ofU32_of_lt (by omega), I32.ofU32_of_lt (by omega)]
  split
  case isTrue hle => exact ⟨Int.ofNat_le.mp hle, hend⟩
  case isFalse hgt => exact ⟨Int.ofNat_le.mp (Int.le_of_lt (Int.not_le.mp hgt)), hstart⟩

theorem readWide_eq (text : List WChar) : ∀ (n i : Nat), i + n ≤ text.length →
    readWide text n i = some (((text.drop i).take n).takeWhile (· ≠ 0))
  | 0, i, _ => by simp [readWide]
  | n + 1, i, h => by
    have hlt : i < text.length := by omega
    have hget : text.getD i 0 = text[i] := by simp [hlt]
    have hdrop : text.drop i = text[i] :: text.drop (i + 1) := drop_eq_getElem_cons hlt
    rw [readWide, if_pos hlt, readWide_eq text n (i + 1) (by omega), hget, hdrop]
    rw [take_succ_cons, takeWhile_cons]
    by_cases h0 : text[i] = 0
    · rw [if_pos h0, h0]
      rfl
    · rw [if_neg h0, if_pos (by simpa using h0)]
      rfl

/-- The selection is copied. -/
theorem Sound.copy (h : s.Sound) :
    s.copy = some ((s.text.drop s.selection.1).take (s.selection.2 - s.selection.1)) := by
  obtain ⟨hle, hlen⟩ := h.selection
  rw [TextEdit.copy]
  simp only
  split
  · rfl
  · rw [Nat.sub_eq_zero_of_le (by omega), take_zero]

theorem Sound.getSelectedText (h : s.Sound) :
    s.getSelectedText = some
      (((s.text.drop s.selection.1).take (s.selection.2 - s.selection.1)).takeWhile (· ≠ 0)) := by
  obtain ⟨hle, hlen⟩ := h.selection
  have hsmall : s.text.length < 2 ^ 31 := h.small
  rw [TextEdit.getSelectedText]
  simp only
  rw [U32.sub_of_le hle (by omega), readWide_eq _ _ _ (by omega)]

/-! ## Runs -/

theorem Sound.step (h : s.Sound) {op : Op} (hfits : Fits s op) :
    ∃ s', step s op = some s' ∧ s'.Sound := by
  cases op with
  | setCursor cursor o => exact ⟨_, rfl, h.setCursor hfits⟩
  | setSelect start finish o => exact ⟨_, rfl, h.setSelect hfits.1 hfits.2⟩
  | selectAll o =>
    refine ⟨_, rfl, h.setSelect (Nat.zero_le _) ?_⟩
    rw [Nat.zero_min, Nat.zero_max, Nat.min_self]
    exact hfits
  | unselect o =>
    have hs : Sound { s with selectEnd := s.selectStart } :=
      ⟨⟨h.inBounds.cursor, h.inBounds.selectStart, h.inBounds.selectStart⟩, h.small⟩
    exact ⟨_, rfl, hs.layout hfits⟩
  | insertText memory offset wtext o o' =>
    exact ⟨_, rfl, h.insertText memory hfits.1 hfits.2.1 hfits.2.2⟩
  | preedit => exact ⟨_, rfl, ⟨⟨h.inBounds.cursor, h.inBounds.selectStart, h.inBounds.selectEnd⟩, h.small⟩⟩
  | preeditClear => exact h.preeditClear hfits
  | preeditAbort =>
    have hs : Sound { s with preedit := false } :=
      ⟨⟨h.inBounds.cursor, h.inBounds.selectStart, h.inBounds.selectEnd⟩, h.small⟩
    exact hs.preeditClear hfits
  | setMaxChars maxChars =>
    exact ⟨_, rfl, ⟨⟨h.inBounds.cursor, h.inBounds.selectStart, h.inBounds.selectEnd⟩, h.small⟩⟩
  | layout o => exact ⟨_, rfl, h.layout hfits⟩
  | paste size r o =>
    obtain ⟨hr, hsmall, hk⟩ := hfits
    have hs : Sound { s with
        text := r.text
        cursor := r.cursor
        selectStart := r.selectStart
        selectEnd := r.selectEnd
        preeditCharsNr :=
          if s.preedit then U32.add s.preeditCharsNr size.toNat else s.preeditCharsNr } :=
      ⟨⟨hr.cursor, hr.selectStart, hr.selectEnd⟩, hsmall⟩
    exact ⟨_, rfl, hs.layout ⟨hk.cursor, hk.selectStart, hk.selectEnd⟩⟩
  | getSelectedText => exact ⟨s, by rw [TextEdit.step, h.getSelectedText]; rfl, h⟩
  | copy => exact ⟨s, by rw [TextEdit.step, h.copy]; rfl, h⟩

/-- An editor of five characters. -/
def five : TextEdit := create [97, 98, 99, 100, 101] false

end Awtk.TextEdit
