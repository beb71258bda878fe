import Awtk.Lib.Tiling
import Awtk.Base.TextEdit

/-!
# The rows of a layout

The rows of a layout tile the text and end at the line breaks that must be, where no row has 65536 characters
or more and none starts with a character that is too wide in front of a line break or of the end of the text
(`layoutImpl_tiled`).  Behind such a character the loop goes on without looking at the next one.
-/

namespace Awtk.TextEdit

open Tiling List Option

variable {env : LayoutEnv} {text : List WChar} {s s' : Scan} {o e n : Nat}

/-! ## Rows of a text -/

/-- There must be a break behind the character at an index. -/
def Must (text : List WChar) (i : Nat) : Prop :=
  lineBreakCheck (charAt text i) (charAt text (i + 1)) = .must

instance (text : List WChar) (i : Nat) : Decidable (Must text i) :=
  inferInstanceAs (Decidable (_ = _))

/-- A row goes from one index to another: to the first break that must be, or to the end. -/
structure IsRow (text : List WChar) (o e : Nat) : Prop where
  lt : o < e
  le : e ≤ text.length
  inside : ∀ j, o ≤ j → j + 1 < e → ¬ Must text j
  last : e < text.length → Must text (e - 1)

/-- The number of characters in the row at an index, of so many that are left. -/
def rowLength (text : List WChar) : (left i : Nat) → Nat
  | 0, _ => 0
  | left + 1, i => if Must text i then 1 else rowLength text left (i + 1) + 1

/-- The end of the row at an index. -/
def rowEnd (text : List WChar) (o : Nat) : Nat :=
  o + rowLength text (text.length - o) o

theorem isRow_rowLength : ∀ {left i : Nat}, i + left = text.length → 0 < left →
    IsRow text i (i + rowLength text left i)
  | 0, _, _, hpos => absurd hpos (Nat.lt_irrefl 0)
  | left + 1, i, hn, _ => by
    rw [rowLength]
    split
    case isTrue hmust =>
      exact ⟨Nat.lt_succ_self i, by omega, fun j hj hlt => by omega, fun _ => hmust⟩
    case isFalse hmust =>
      cases left with
      | zero =>
        have hzero : rowLength text 0 (i + 1) = 0 := rfl
        exact ⟨by omega, by omega, fun j hj hlt => by omega, fun hlt => by omega⟩
      | succ left =>
        have hleft : i + 1 + (left + 1) = text.length := by omega
        have ih := isRow_rowLength hleft (Nat.succ_pos left)
        have hlt := ih.lt
        have hle := ih.le
        refine ⟨by omega, by omega, fun j hj hjlt => ?_, fun hend => ?_⟩
        · by_cases hji : j = i
          · exact hji ▸ hmust
          · exact ih.inside j (by omega) (by omega)
        · have hlast := ih.last (by omega)
          have hidx : i + 1 + rowLength text (left + 1) (i + 1) - 1 =
              i + (rowLength text (left + 1) (i + 1) + 1) - 1 := by omega
          rwa [hidx] at hlast

theorem isRow_rowEnd (h : o < text.length) : IsRow text o (rowEnd text o) :=
  isRow_rowLength (by omega) (by omega)

/-! ## Turns of the loop -/

/-- A line as a piece of the text. -/
def LineInfo.piece (l : LineInfo) : Piece := ⟨l.offset, l.length, false⟩

/-- The scan goes to the next character. -/
structure Advances (s s' : Scan) : Prop where
  i : s'.i = s.i + 1
  offset : s'.offset = s.offset
  lines : s'.lines = s.lines
  breakable : 0 < s'.lastBreakableX →
    s'.lastBreakableI = s.i ∨ (0 < s.lastBreakableX ∧ s'.lastBreakableI = s.lastBreakableI)

/-- Where the scan goes back to. -/
def Scan.backI (s : Scan) : Nat :=
  let i := if 0 < s.lastBreakableX then s.lastBreakableI + 1 else s.i
  if i = s.offset then i + 1 else i

/-- The scan starts a line. -/
structure Wraps (s s' : Scan) : Prop where
  i : s'.i = s.backI + 1
  offset : s'.offset = s.backI
  lines : s'.lines.map LineInfo.piece =
    s.lines.map LineInfo.piece ++ [⟨s.offset, (s.backI - s.offset) % 2 ^ 16, false⟩]
  breakable : s'.lastBreakableX = 0

/-- A character is too wide for what is left of the line. -/
def TooWide (env : LayoutEnv) (text : List WChar) (s : Scan) : Prop :=
  env.wrapWord = true ∧ env.w.toNat < U32.add s.x (env.charW (charAt text s.i)).toNat

theorem back_offset (s : Scan) : s.back.offset = s.offset := by
  rw [Scan.back]
  split
  · split <;> rfl
  · split <;> rfl

theorem back_lines (s : Scan) : s.back.lines = s.lines := by
  rw [Scan.back]
  split
  · split <;> rfl
  · split <;> rfl

theorem back_breakable (s : Scan) : s.back.lastBreakableX = 0 := by
  rw [Scan.back]
  split
  · split <;> rfl
  · have hzero : s.lastBreakableX = 0 := Nat.eq_zero_of_not_pos ‹¬ 0 < s.lastBreakableX›
    split <;> exact hzero

theorem back_i (s : Scan) : s.back.i = s.backI := by
  rw [Scan.back, Scan.backI]
  by_cases hpos : 0 < s.lastBreakableX
  · rw [if_pos hpos, if_pos hpos]
    exact apply_ite Scan.i _ _ _
  · rw [if_neg hpos, if_neg hpos]
    exact apply_ite Scan.i _ _ _

theorem wraps (env : LayoutEnv) (text : List WChar) (s : Scan) : Wraps s (s.wrap env text) where
  i := congrArg (· + 1) (back_i s)
  offset := back_i s
  lines := by
    simp [Scan.wrap, Scan.line, LineInfo.piece, back_offset, back_lines, back_i]
  breakable := back_breakable s

theorem scanTurn_next (h : scanTurn env text s = .next s') :
    s.i < text.length ∧ ¬ Must text s.i ∧
      (TooWide env text s ∧ Wraps s s' ∨ ¬ TooWide env text s ∧ Advances s s') := by
  rw [scanTurn] at h
  split at h
  case isFalse => cases h
  case isTrue hlt =>
    simp only at h
    split at h
    case isTrue => cases h
    case isFalse hmust =>
      refine ⟨hlt, hmust, ?_⟩
      split at h
      case isTrue hwrap =>
        split at h
        case isTrue hwide =>
          cases h
          have hwraps := wraps env text { s with
            lastChar := charAt text s.i
            caret := if s.i = env.cursor then some (s.x, s.y) else s.caret }
          exact .inl ⟨⟨hwrap, hwide⟩, hwraps.i, hwraps.offset, hwraps.lines, hwraps.breakable⟩
        case isFalse hwide =>
          refine .inr ⟨fun hw => hwide hw.2, ?_⟩
          split at h
          · cases h
            exact ⟨rfl, rfl, rfl, fun _ => .inl rfl⟩
          · cases h
            exact ⟨rfl, rfl, rfl, fun hpos => .inr ⟨hpos, rfl⟩⟩
      case isFalse hwrap =>
        cases h
        exact .inr ⟨fun hw => hwrap hw.1, rfl, rfl, rfl, fun hpos => .inr ⟨hpos, rfl⟩⟩

theorem scanTurn_done (h : scanTurn env text s = .done s') :
    (s.i < text.length ∧ Must text s.i ∧ s'.i = s.i + 1 ∧ s'.offset = s.offset ∧
      s'.lines = s.lines) ∨
    (text.length ≤ s.i ∧ s' = s) := by
  rw [scanTurn] at h
  split at h
  case isFalse hge =>
    cases h
    exact .inr ⟨Nat.not_lt.mp hge, rfl⟩
  case isTrue hlt =>
    simp only at h
    split at h
    case isTrue hmust =>
      cases h
      exact .inl ⟨hlt, hmust, rfl, rfl, rfl⟩
    case isFalse =>
      split at h
      · split at h
        · cases h
        · split at h <;> cases h
      · cases h

theorem scanTurn_ne_fault : scanTurn env text s ≠ .fault := by
  rw [scanTurn]
  split
  · simp only
    split
    · exact nofun
    · split
      · split
        · exact nofun
        · split <;> exact nofun
      · exact nofun
  · exact nofun

/-! ## The loop ends -/

/-- What holds in every state of the loop. -/
structure ScanOk (text : List WChar) (o : Nat) (s : Scan) : Prop where
  start : o ≤ s.offset
  offset_le : s.offset ≤ s.i
  offset_in : s.offset ≤ text.length
  i_le : s.i ≤ text.length + 1
  breakable : 0 < s.lastBreakableX → s.offset ≤ s.lastBreakableI ∧ s.lastBreakableI < s.i

/-- A scan goes back into the line, or over the only character of the line. -/
theorem ScanOk.back (h : ScanOk text o s) :
    (s.offset < s.i ∧ s.offset < s.backI ∧ s.backI ≤ s.i) ∨
    (s.offset = s.i ∧ s.backI = s.i + 1) := by
  have hle := h.offset_le
  rw [Scan.backI]
  by_cases hpos : 0 < s.lastBreakableX
  · have hbreak := h.breakable hpos
    rw [if_pos hpos, if_neg (by omega)]
    omega
  · rw [if_neg hpos]
    split_ifs with heq
    · exact .inr ⟨heq.symm, rfl⟩
    · omega

theorem ScanOk.turn (h : ScanOk text o s) (hturn : scanTurn env text s = .next s') :
    ScanOk text o s' := by
  obtain ⟨hlt, -, ⟨-, hwraps⟩ | ⟨-, hadv⟩⟩ := scanTurn_next hturn
  · have hstart := h.start
    have hi := hwraps.i
    have hoffset := hwraps.offset
    have hback := h.back
    refine ⟨by omega, by omega, by omega, by omega, fun hpos => ?_⟩
    rw [hwraps.breakable] at hpos
    exact absurd hpos (Nat.lt_irrefl 0)
  · have hstart := h.start
    have hle := h.offset_le
    have hi := hadv.i
    have hoffset := hadv.offset
    refine ⟨by omega, by omega, by omega, by omega, fun hpos => ?_⟩
    rcases hadv.breakable hpos with hnow | ⟨hpos', hsame⟩
    · omega
    · have hbreak := h.breakable hpos'
      omega

/-- With every turn the line starts later, or the scan goes on in the line. -/
def scanVariant (env : LayoutEnv) (text : List WChar) (o : Nat) :
    Loop.Variant (scanTurn env text) where
  Inv := ScanOk text o
  measure s := (text.length + 1 - s.offset) * (text.length + 2) + (text.length + 1 - s.i)
  keeps := ScanOk.turn
  falls := by
    intro s s' h hturn
    obtain ⟨hlt, -, ⟨-, hwraps⟩ | ⟨-, hadv⟩⟩ := scanTurn_next hturn
    · have hi := hwraps.i
      have hoffset := hwraps.offset
      have hback := h.back
      have hle := h.offset_in
      obtain ⟨d, hd⟩ : ∃ d, text.length + 1 - s.offset = text.length + 1 - s'.offset + (d + 1) :=
        ⟨s'.offset - s.offset - 1, by omega⟩
      rw [hd, Nat.add_mul, Nat.add_mul]
      omega
    · rw [hadv.offset, hadv.i]
      omega

theorem scanStart_ok (env : LayoutEnv) (lineIndex : Nat) (h : o ≤ text.length) :
    ScanOk text o (scanStart env lineIndex o) :=
  ⟨Nat.le_refl o, Nat.le_refl o, h, Nat.le_succ_of_le h, fun hpos => absurd hpos (Nat.lt_irrefl 0)⟩

theorem layoutLine_eq (env : LayoutEnv) {text : List WChar} (h : o ≤ text.length)
    (rowNum lineIndex : Nat) (st : LayoutState) :
    ∃ s, Loop.Ends (scanTurn env text) (scanStart env lineIndex o) s ∧
      layoutLine env text rowNum lineIndex o st = some (finishRow env text rowNum o st s) := by
  have hok := scanStart_ok env lineIndex h
  have hmeasure : (scanVariant env text o).measure (scanStart env lineIndex o) <
      (text.length + 2) * (text.length + 2) := by
    show (text.length + 1 - o) * (text.length + 2) + (text.length + 1 - o) < _
    have hle : (text.length + 1 - o) * (text.length + 2) ≤
        (text.length + 1) * (text.length + 2) := Nat.mul_le_mul_right _ (Nat.sub_le _ _)
    have hsucc : (text.length + 2) * (text.length + 2) =
        (text.length + 1) * (text.length + 2) + (text.length + 2) := Nat.succ_mul _ _
    omega
  obtain ⟨s, hrun⟩ := ((scanVariant env text o).result_iff hok hmeasure).mpr
    fun _ _ => scanTurn_ne_fault
  refine ⟨s, (Loop.run_result_iff ((scanVariant env text o).ends hok hmeasure)).mp hrun, ?_⟩
  rw [layoutLine, hrun]

/-- No row goes further than over the terminator. -/
theorem ScanOk.ends (h : ScanOk text o s) (hends : Loop.Ends (scanTurn env text) s s') :
    o ≤ s'.i ∧ s'.i ≤ text.length + 1 := by
  obtain ⟨t, hreach, hdone⟩ := hends
  have hok : ScanOk text o t := hreach.invariant (fun _ _ => ScanOk.turn) h
  have hstart := hok.start
  have hle := hok.offset_le
  have hi := hok.i_le
  obtain ⟨hlt, -, hi', -⟩ | ⟨-, rfl⟩ := scanTurn_done hdone
  · omega
  · omega

/-! ## A scan of a row -/

/-- The scan is in a row, and the line has a character. -/
structure InRow (text : List WChar) (o e : Nat) (s : Scan) : Prop where
  ok : ScanOk text 0 s
  start : o ≤ s.offset + 1
  behind : s.offset < s.i
  le : s.i ≤ e
  ends : s.i = e → e = text.length

theorem InRow.turn (hrow : IsRow text o e) (h : InRow text o e s)
    (hturn : scanTurn env text s = .next s') : InRow text o e s' := by
  have hok := h.ok.turn hturn
  have hstart := h.start
  have hbehind := h.behind
  have hle := h.le
  obtain ⟨hlt, hmust, hcases⟩ := scanTurn_next hturn
  have hne : s.i ≠ e := fun heq => by
    have hend := h.ends heq
    omega
  -- A row that goes on behind this character does not end with it.
  have hlast : s.i + 1 = e → e = text.length := fun heq => by
    by_contra hcontra
    have hle := hrow.le
    have hmust' := hrow.last (by omega)
    rw [← heq] at hmust'
    exact hmust hmust'
  rcases hcases with ⟨-, hwraps⟩ | ⟨-, hadv⟩
  · have hi := hwraps.i
    have hoffset := hwraps.offset
    have hback := h.ok.back
    exact ⟨hok, by omega, by omega, by omega, fun heq => hlast (by omega)⟩
  · have hi := hadv.i
    have hoffset := hadv.offset
    exact ⟨hok, by omega, by omega, by omega, fun heq => hlast (by omega)⟩

theorem InRow.done (hrow : IsRow text o e) (h : InRow text o e s)
    (hturn : scanTurn env text s = .done s') :
    s'.i = e ∧ s'.offset = s.offset ∧ s'.lines = s.lines := by
  have hstart := h.start
  have hbehind := h.behind
  have hle := h.le
  obtain ⟨hlt, hmust, hi, hoffset, hlines⟩ | ⟨hge, rfl⟩ := scanTurn_done hturn
  · refine ⟨?_, hoffset, hlines⟩
    have hne : s.i ≠ e := fun heq => by
      have hend := h.ends heq
      omega
    by_contra hcontra
    exact hrow.inside s.i (by omega) (by omega) hmust
  · have hend := hrow.le
    exact ⟨by omega, rfl, rfl⟩

/-- The lines of the scan tile the row up to the line that it is in. -/
def Lined (a : Nat) (s : Scan) : Prop := Tiles 1 a (s.lines.map LineInfo.piece) s.offset

theorem Lined.turn {a : Nat} (hshort : e < a + 2 ^ 16) (hin : InRow text o e s) (h : Lined a s)
    (hturn : scanTurn env text s = .next s') : Lined a s' := by
  have hge : a ≤ s.offset := h.le
  have hle := hin.le
  have hbehind := hin.behind
  obtain ⟨-, -, ⟨-, hwraps⟩ | ⟨-, hadv⟩⟩ := scanTurn_next hturn
  · have hback := hin.ok.back
    have hmod : (s.backI - s.offset) % 2 ^ 16 = s.backI - s.offset :=
      Nat.mod_eq_of_lt (by omega)
    rw [Lined, hwraps.lines, hwraps.offset, tiles_mid, hmod]
    refine ⟨h, ?_, ?_⟩
    · show 1 ≤ s.backI - s.offset
      omega
    · show s.offset + (s.backI - s.offset) = s.backI
      omega
  · rw [Lined, hadv.lines, hadv.offset]
    exact h

/-- The last line tiles what is left of the row. -/
theorem Lined.line {a : Nat} (hshort : s.i < a + 2 ^ 16) (h : Lined a s) (hlt : s.offset < s.i) :
    Tiles 1 a ((s.lines ++ [s.line]).map LineInfo.piece) s.i := by
  have hge : a ≤ s.offset := h.le
  have hmod : (s.i - s.offset) % 2 ^ 16 = s.i - s.offset := Nat.mod_eq_of_lt (by omega)
  rw [map_append, map_singleton, tiles_mid]
  refine ⟨h, ?_, ?_⟩
  · show 1 ≤ (s.i - s.offset) % 2 ^ 16
    omega
  · show s.offset + (s.i - s.offset) % 2 ^ 16 = s.i
    omega

theorem InRow.ends_at (hrow : IsRow text o e) (h : InRow text o e s)
    (hends : Loop.Ends (scanTurn env text) s s') : s'.i = e ∧ s'.offset < e := by
  obtain ⟨t, hreach, hdone⟩ := hends
  have ht : InRow text o e t := hreach.invariant (fun _ _ => InRow.turn hrow) h
  obtain ⟨hi, hoffset, -⟩ := ht.done hrow hdone
  have hbehind := ht.behind
  have hle := ht.le
  exact ⟨hi, by omega⟩

theorem InRow.tiles {a : Nat} (hrow : IsRow text o e) (hshort : e < a + 2 ^ 16)
    (h : InRow text o e s) (hlined : Lined a s) (hends : Loop.Ends (scanTurn env text) s s') :
    Tiles 1 a ((s'.lines ++ [s'.line]).map LineInfo.piece) e := by
  obtain ⟨hi, hlt⟩ := h.ends_at hrow hends
  obtain ⟨t, hreach, hdone⟩ := hends
  have hturns : ∀ u u', InRow text o e u ∧ Lined a u → scanTurn env text u = .next u' →
      InRow text o e u' ∧ Lined a u' :=
    fun _ _ hu hturn => ⟨hu.1.turn hrow hturn, hu.2.turn hshort hu.1 hturn⟩
  have ht := hreach.invariant (I := fun u => InRow text o e u ∧ Lined a u) hturns ⟨h, hlined⟩
  obtain ⟨-, hoffset, hlines⟩ := ht.1.done hrow hdone
  have hlined' : Lined a s' := by
    rw [Lined, hlines, hoffset]
    exact ht.2
  have htiles := hlined'.line (by omega) (by omega)
  rwa [hi] at htiles

/-! ## A row -/

/-- A character that is alone too wide for a line starts a row that is at its end behind it. -/
structure Wide (env : LayoutEnv) (text : List WChar) (o : Nat) : Prop where
  wrap : env.wrapWord = true
  goes_on : ¬ Must text o
  wide : env.w < env.charW (charAt text o)
  last : o + 1 = text.length ∨ Must text (o + 1)

instance (env : LayoutEnv) (text : List WChar) (o : Nat) : Decidable (Wide env text o) :=
  decidable_of_iff (env.wrapWord = true ∧ ¬ Must text o ∧ env.w < env.charW (charAt text o) ∧
      (o + 1 = text.length ∨ Must text (o + 1)))
    ⟨fun ⟨hwrap, hon, hwide, hlast⟩ => ⟨hwrap, hon, hwide, hlast⟩,
      fun ⟨hwrap, hon, hwide, hlast⟩ => ⟨hwrap, hon, hwide, hlast⟩⟩

theorem Must.lt {i : Nat} (h : Must text i) : i + 1 < text.length := by
  by_contra hge
  have hlast : charAt text (i + 1) = 0 := by
    rw [charAt, getD_eq_getElem?_getD, getElem?_eq_none (Nat.not_lt.mp hge)]
    rfl
  rw [Must, lineBreakCheck, hlast] at h
  simp at h

theorem tooWide_start (env : LayoutEnv) (text : List WChar) (lineIndex o : Nat) :
    TooWide env text (scanStart env lineIndex o) ↔
      env.wrapWord = true ∧ env.w < env.charW (charAt text o) := by
  have hadd : U32.add 0 (env.charW (charAt text o)).toNat = (env.charW (charAt text o)).toNat := by
    rw [U32.add, Nat.zero_add]
    exact Nat.mod_eq_of_lt (UInt32.toNat_lt _)
  rw [TooWide, UInt32.lt_iff_toNat_lt]
  exact and_congr_right fun _ => by rw [← hadd]; rfl

/-- The first turn of a row that does not start with a character in front of its end. -/
theorem scanStart_next (hrow : IsRow text o e) (hmust : ¬ Must text o)
    (hwide : ¬ Wide env text o) {lineIndex : Nat}
    (hturn : scanTurn env text (scanStart env lineIndex o) = .next s) :
    InRow text o e s ∧ (o + 2 ^ 16 > e → Lined o s) := by
  have hlt := hrow.lt
  have hle := hrow.le
  have hstart : ScanOk text 0 (scanStart env lineIndex o) := by
    have hok : ScanOk text o _ := scanStart_ok env lineIndex (by omega)
    exact ⟨Nat.zero_le _, hok.offset_le, hok.offset_in, hok.i_le, hok.breakable⟩
  have hok := hstart.turn hturn
  obtain ⟨-, -, ⟨hw, hwraps⟩ | ⟨-, hadv⟩⟩ := scanTurn_next hturn
  · -- The only character of the line is too wide, but the row goes on behind it.
    obtain ⟨hwrap, hw⟩ := (tooWide_start env text lineIndex o).mp hw
    have hback : (scanStart env lineIndex o).backI = o + 1 := by
      rw [Scan.backI]
      exact if_pos rfl
    have hi := hwraps.i
    have hoffset := hwraps.offset
    rw [hback] at hi hoffset
    have hmore : o + 1 < text.length := by
      by_contra hge
      exact hwide ⟨hwrap, hmust, hw, .inl (by omega)⟩
    have hnot : ¬ Must text (o + 1) := fun hnow => hwide ⟨hwrap, hmust, hw, .inr hnow⟩
    have hend : o + 2 ≤ e ∧ (o + 2 = e → e = text.length) := by
      refine ⟨?_, fun heq => ?_⟩
      · by_contra hgt
        have hlast := hrow.last (by omega)
        rw [show e - 1 = o by omega] at hlast
        exact hmust hlast
      · by_contra hcontra
        have hlast := hrow.last (by omega)
        rw [show e - 1 = o + 1 by omega] at hlast
        exact hnot hlast
    refine ⟨⟨hok, by omega, by omega, by omega, fun heq => hend.2 (by omega)⟩, fun _ => ?_⟩
    rw [Lined, hwraps.lines, hback, hoffset]
    show o = o ∧ 1 ≤ (o + 1 - o) % 2 ^ 16 ∧ o + (o + 1 - o) % 2 ^ 16 = o + 1
    omega
  · have hi : s.i = o + 1 := hadv.i
    have hoffset : s.offset = o := hadv.offset
    refine ⟨⟨hok, by omega, by omega, by omega, fun heq => ?_⟩, fun _ => ?_⟩
    · by_contra hcontra
      have hlast := hrow.last (by omega)
      rw [show e - 1 = o by omega] at hlast
      exact hmust hlast
    · rw [Lined, hadv.lines, hoffset]
      rfl

/-- The row that the loop makes is a row of the text, and its lines tile it. -/
theorem layoutLine_row (hrow : IsRow text o e) (hshort : e < o + 2 ^ 16)
    (hwide : ¬ Wide env text o) (rowNum lineIndex : Nat) (st : LayoutState) :
    ∃ row st', layoutLine env text rowNum lineIndex o st = some (row, st') ∧
      o + row.length = e ∧ Tiles 1 o (row.lines.map LineInfo.piece) e := by
  have hlt := hrow.lt
  have hle := hrow.le
  obtain ⟨s, hends, heq⟩ := layoutLine_eq env (Nat.le_of_lt (Nat.lt_of_lt_of_le hlt hle))
    rowNum lineIndex st
  refine ⟨_, _, heq, ?_⟩
  show o + (s.i - o) % 2 ^ 16 = e ∧ Tiles 1 o ((s.lines ++ [s.line]).map LineInfo.piece) e
  have hrowlen : s.i = e → o + (s.i - o) % 2 ^ 16 = e := fun hi => by
    rw [hi, Nat.mod_eq_of_lt (by omega)]
    omega
  cases hturn : scanTurn env text (scanStart env lineIndex o) with
  | fault => exact absurd hturn scanTurn_ne_fault
  | next t =>
    have hmust := (scanTurn_next hturn).2.1
    obtain ⟨hin, hlined⟩ := scanStart_next hrow hmust hwide hturn
    have hends := hends.next hturn
    exact ⟨hrowlen (hin.ends_at hrow hends).1, hin.tiles hrow hshort (hlined hshort) hends⟩
  | done t =>
    obtain rfl := hends.eq_of_done hturn
    obtain ⟨-, hmust, hi, hoffset, hlines⟩ | ⟨hge, -⟩ := scanTurn_done hturn
    · have hi : s.i = e := by
        show s.i = e
        rw [hi]
        by_contra hne
        exact hrow.inside o (Nat.le_refl o) (by simp only [scanStart] at hne; omega) hmust
      have hlined : Lined o s := by
        rw [Lined, hlines, hoffset]
        rfl
      have hoffset : s.offset = o := hoffset
      have htiles := hlined.line (by omega) (by omega)
      rw [hi] at htiles
      exact ⟨hrowlen hi, htiles⟩
    · simp only [scanStart] at hge
      omega

/-- Behind a character that is too wide, the loop goes over the end of the row. -/
theorem layoutLine_wide (ho : o < text.length) (hwide : Wide env text o)
    (rowNum lineIndex : Nat) (st : LayoutState) :
    ∃ row st', layoutLine env text rowNum lineIndex o st = some (row, st') ∧
      (o + 1 = text.length ∧ row.length = 2 ∨
        Must text (o + 1) ∧ o + 2 < text.length ∧
          row.length = (rowEnd text (o + 2) - o) % 2 ^ 16) := by
  obtain ⟨s, hends, heq⟩ := layoutLine_eq env (Nat.le_of_lt ho) rowNum lineIndex st
  refine ⟨_, _, heq, ?_⟩
  show o + 1 = text.length ∧ (s.i - o) % 2 ^ 16 = 2 ∨
    Must text (o + 1) ∧ o + 2 < text.length ∧
      (s.i - o) % 2 ^ 16 = (rowEnd text (o + 2) - o) % 2 ^ 16
  have hstart : ScanOk text 0 (scanStart env lineIndex o) := by
    have hok := scanStart_ok env lineIndex (Nat.le_of_lt ho)
    exact ⟨Nat.zero_le _, hok.offset_le, hok.offset_in, hok.i_le, hok.breakable⟩
  cases hturn : scanTurn env text (scanStart env lineIndex o) with
  | fault => exact absurd hturn scanTurn_ne_fault
  | done t =>
    obtain ⟨-, hmust, -⟩ | ⟨hge, -⟩ := scanTurn_done hturn
    · exact absurd hmust hwide.goes_on
    · exact absurd ho (Nat.not_lt.mpr hge)
  | next t =>
    have hok := hstart.turn hturn
    have hends := hends.next hturn
    obtain ⟨-, -, ⟨-, hwraps⟩ | ⟨hnot, -⟩⟩ := scanTurn_next hturn
    · have hback : (scanStart env lineIndex o).backI = o + 1 := by
        rw [Scan.backI]
        exact if_pos rfl
      have hi := hwraps.i
      have hoffset := hwraps.offset
      rw [hback] at hi hoffset
      cases hwide.last with
      | inl hend =>
        refine .inl ⟨hend, ?_⟩
        have hdone : scanTurn env text t = .done t := by
          rw [scanTurn]
          exact if_neg (by omega)
        obtain rfl := hends.eq_of_done hdone
        rw [hi, show o + 1 + 1 - o = 2 by omega]
        rfl
      | inr hmust =>
        have hmore : o + 2 < text.length := hmust.lt
        have hrow := isRow_rowEnd hmore
        have hlt := hrow.lt
        have hin : InRow text (o + 2) (rowEnd text (o + 2)) t :=
          ⟨hok, by omega, by omega, by omega, fun heq => by omega⟩
        exact .inr ⟨hmust, hmore, by rw [(hin.ends_at hrow hends).1]⟩
    · exact absurd ((tooWide_start env text lineIndex o).mpr ⟨hwide.wrap, hwide.wide⟩) hnot

/-! ## The rows of a text -/

/-- The characters that a line ends with. -/
def IsNewline (c : WChar) : Prop := c = newliner ∨ c = newline

instance (c : WChar) : Decidable (IsNewline c) := inferInstanceAs (Decidable (_ ∨ _))

/-- A row: newlines are at its end only, and it ends with one if text follows. -/
structure TextRow (text : List WChar) (o e : Nat) : Prop where
  lt : o < e
  le : e ≤ text.length
  inside : ∀ j, o ≤ j → j + 1 < e → ¬ IsNewline (charAt text j)
  last : e < text.length → IsNewline (charAt text (e - 1))

/-- The rows follow each other from one offset to another, and their lines tile them. -/
def RowsTile (text : List WChar) : Nat → List RowInfo → Nat → Prop
  | o, [], hi => o = hi
  | o, row :: rows, hi =>
    TextRow text o (o + row.length) ∧ Tiles 1 o (row.lines.map LineInfo.piece) (o + row.length) ∧
      RowsTile text (o + row.length) rows hi

/-- What a layout is to make of a text. -/
structure Tiled (text : List WChar) (maxRows : Nat) (r : LayoutResult) : Prop where
  tile : RowsTile text 0 r.rows r.text.length
  kept : r.text <+: text
  cut : r.text.length < text.length → r.rows.length = maxRows

/-- A row, up to the next break that must be, that the loop gets right. -/
structure RowOk (env : LayoutEnv) (text : List WChar) (o : Nat) : Prop where
  short : rowEnd text o < o + 2 ^ 16
  narrow : ¬ Wide env text o
  inside : ∀ j, o ≤ j → j + 1 < rowEnd text o → ¬ IsNewline (charAt text j)

/-- The rows that there is room for, from an offset on. -/
def RowsOk (env : LayoutEnv) (text : List WChar) : (room o : Nat) → Prop
  | 0, _ => True
  | room + 1, o => o < text.length → RowOk env text o ∧ RowsOk env text room (rowEnd text o)

/-- No row of the text has 65534 characters or more. -/
def ShortRows (text : List WChar) : Prop :=
  ∀ o, o < text.length → rowEnd text o + 2 < o + 2 ^ 16

theorem Must.isNewline {i : Nat} (h : Must text i) : IsNewline (charAt text i) := by
  rw [Must, lineBreakCheck] at h
  split at h
  · cases h
  · split at h
    · assumption
    · rw [wordBreakCheck] at h
      split at h <;> cases h

theorem RowOk.textRow (h : RowOk env text o) (ho : o < text.length) :
    TextRow text o (rowEnd text o) where
  lt := (isRow_rowEnd ho).lt
  le := (isRow_rowEnd ho).le
  inside := h.inside
  last hlt := ((isRow_rowEnd ho).last hlt).isNewline

/-- A row that the loop gets right, and the converse. -/
theorem layoutLine_ok (env : LayoutEnv) (ho : o < text.length) (rowNum lineIndex : Nat) (st : LayoutState) :
    ∃ row st', layoutLine env text rowNum lineIndex o st = some (row, st') ∧
      (RowOk env text o → o + row.length = rowEnd text o ∧
        Tiles 1 o (row.lines.map LineInfo.piece) (rowEnd text o)) ∧
      (ShortRows text → 0 < row.length ∧
        (TextRow text o (o + row.length) → RowOk env text o)) := by
  have hrow := isRow_rowEnd ho
  have hlt := hrow.lt
  by_cases hwide : Wide env text o
  · obtain ⟨row, st', heq, hlen⟩ := layoutLine_wide ho hwide rowNum lineIndex st
    refine ⟨row, st', heq, fun hok => absurd hwide hok.narrow, fun hshort => ?_⟩
    obtain ⟨hend, hlen⟩ | ⟨hmust, hmore, hlen⟩ := hlen
    · refine ⟨by omega, fun htext => ?_⟩
      have hle := htext.le
      omega
    · have hnext := hshort (o + 2) hmore
      have hlt' := (isRow_rowEnd hmore).lt
      rw [Nat.mod_eq_of_lt (by omega)] at hlen
      exact ⟨by omega,
        fun htext => absurd hmust.isNewline (htext.inside (o + 1) (by omega) (by omega))⟩
  · by_cases hshort : rowEnd text o < o + 2 ^ 16
    · obtain ⟨row, st', heq, hlen, htiles⟩ :=
        layoutLine_row hrow hshort hwide rowNum lineIndex st
      refine ⟨row, st', heq, fun _ => ⟨hlen, htiles⟩, fun _ => ⟨by omega, fun htext => ?_⟩⟩
      rw [hlen] at htext
      exact ⟨hshort, hwide, htext.inside⟩
    · obtain ⟨s, -, heq⟩ := layoutLine_eq env (Nat.le_of_lt ho) rowNum lineIndex st
      refine ⟨_, _, heq, fun hok => absurd hok.short hshort, fun hall => ?_⟩
      have hbound := hall o ho
      omega

/-- The rows of a layout, from an offset on. -/
theorem layoutRows_tile : ∀ (room : Nat) {o : Nat} (rowNum lineIndex : Nat) (st : LayoutState),
    0 < text.length →
    ∃ rows b st', layoutRows env text room rowNum lineIndex o st = some (rows, b, st') ∧
      (o ≤ text.length → RowsOk env text room o →
        RowsTile text o rows b ∧ b ≤ text.length ∧ (b < text.length → rows.length = room)) ∧
      (ShortRows text → ∀ hi, RowsTile text o rows hi →
        (hi < text.length → rows.length = room) → RowsOk env text room o)
  | 0, o, _, _, st, _ =>
    ⟨[], o, st, rfl, fun ho _ => ⟨rfl, ho, fun _ => rfl⟩, fun _ _ _ _ => trivial⟩
  | room + 1, o, rowNum, lineIndex, st, hpos => by
    rw [layoutRows]
    by_cases ho : o < text.length
    · obtain ⟨row, st', heq, hgood, hexact⟩ := layoutLine_ok env ho rowNum lineIndex st
      rw [if_pos (.inl ho), heq, bind_eq_bind, bind_some]
      by_cases hzero : row.length = 0
      · refine ⟨[], o, st', if_pos hzero, fun _ hok => ?_, fun hshort => ?_⟩
        · have hlen := (hgood (hok ho).1).1
          have hlt := (isRow_rowEnd ho).lt
          omega
        · have hlen := (hexact hshort).1
          omega
      · obtain ⟨rows, b, st'', hrows, ih, ih'⟩ := layoutRows_tile room (rowNum + 1)
          (lineIndex + row.lines.length) st' hpos (o := o + row.length)
        refine ⟨row :: rows, b, st'', ?_, fun _ hok => ?_, fun hshort hi htile hcut _ => ?_⟩
        · simp only [if_neg hzero, hrows]
          rfl
        · obtain ⟨hrow, hok⟩ := hok ho
          obtain ⟨hlen, htiles⟩ := hgood hrow
          rw [hlen] at ih
          obtain ⟨htile, hle, hcut⟩ := ih (isRow_rowEnd ho).le hok
          refine ⟨⟨?_, ?_, ?_⟩, hle, fun hlt => congrArg (· + 1) (hcut hlt)⟩
          · rw [hlen]
            exact hrow.textRow ho
          · rw [hlen]
            exact htiles
          · rw [hlen]
            exact htile
        · obtain ⟨htext, -, htile⟩ := htile
          have hrow := (hexact hshort).2 htext
          have hrest := ih' hshort hi htile fun hlt => Nat.succ.inj (hcut hlt)
          rw [(hgood hrow).1] at hrest
          exact ⟨hrow, hrest⟩
    · rw [if_neg (by omega)]
      exact ⟨[], o, st, rfl, fun hle _ => ⟨rfl, hle, fun hlt => absurd hlt ho⟩,
        fun _ _ _ _ hlt => absurd hlt ho⟩

theorem layoutRows_nil (env : LayoutEnv) : ∀ (room : Nat) (st : LayoutState),
    ∃ st', layoutRows env [] room 0 0 0 st = some ([], 0, st')
  | 0, st => ⟨st, rfl⟩
  | _ + 1, _ => ⟨_, rfl⟩

/-- A layout ends.  It tiles the text as it is to where every row is one that the loop gets right, and, of a
text with short rows, only there. -/
theorem layoutImpl_tiled (env : LayoutEnv) (maxRows : Nat) (text : List WChar) (st : LayoutState)
    (hw : env.charW (charAt text 0) ≤ env.w) :
    ∃ r, layoutImpl env maxRows text st = some r ∧
      (RowsOk env text maxRows 0 → Tiled text maxRows r) ∧
      (ShortRows text → Tiled text maxRows r → RowsOk env text maxRows 0) := by
  have hfits : ¬ env.w < env.charW (charAt text 0) := UInt32.not_lt.mpr hw
  rw [layoutImpl, if_neg hfits]
  by_cases hpos : 0 < text.length
  · obtain ⟨rows, b, st', hrows, hgood, hexact⟩ :=
      layoutRows_tile maxRows 0 0 { st with caret := ((0, 0), st.caret.2) } hpos
    rw [hrows]
    refine ⟨_, rfl, fun hok => ?_, fun hshort htiled => hexact hshort _ htiled.tile fun hlt =>
      htiled.cut hlt⟩
    obtain ⟨htile, hle, hcut⟩ := hgood (Nat.zero_le _) hok
    by_cases hlt : b < text.length
    · have hlen : (text.take b).length = b := by simp [hle]
      refine ⟨?_, ?_, fun _ => hcut hlt⟩
      · simp only [if_pos hlt, hlen]
        exact htile
      · simp only [if_pos hlt]
        exact text.take_prefix b
    · obtain rfl : b = text.length := by omega
      refine ⟨?_, ?_, fun hless => ?_⟩
      · simp only [if_neg hlt]
        exact htile
      · simp only [if_neg hlt]
        exact prefix_rfl
      · simp only [if_neg hlt] at hless
        exact absurd hless hlt
  · obtain rfl : text = [] := length_eq_zero_iff.mp (Nat.eq_zero_of_not_pos hpos)
    obtain ⟨st', hrows⟩ := layoutRows_nil env maxRows { st with caret := ((0, 0), st.caret.2) }
    rw [hrows]
    refine ⟨_, rfl, fun _ => ⟨rfl, prefix_rfl, fun hlt => absurd hlt hpos⟩, fun _ _ => ?_⟩
    cases maxRows with
    | zero => trivial
    | succ room => exact fun hlt => absurd hlt hpos

/-- Characters of ten pixels, but for one, in a view of twenty. -/
def wideW : LayoutEnv where
  charW c := if c = 87 then 30 else 10
  w := 20
  wrapWord := true
  lineHeight := 12
  cursor := 0

/-- A text of three rows. -/
theorem layoutImpl_tiled_rows :
    let text : List WChar := [97, 97, 97, 10, 87, 97, 10, 97]
    let st : LayoutState := ⟨0, 0, ((0, 0), 0, 0)⟩
    (wideW.charW (charAt text 0) ≤ wideW.w) ∧
    ∃ r, layoutImpl wideW 5 text st = some r ∧
      (RowsOk wideW text 5 0 → Tiled text 5 r) ∧
      (ShortRows text → Tiled text 5 r → RowsOk wideW text 5 0) :=
  ⟨by decide, layoutImpl_tiled wideW 5 _ _ (by decide)⟩

/-- A newline stands in the second row, behind the character that is too wide. -/
theorem layoutImpl_wide_row :
    let text : List WChar := [97, 10, 87, 10, 97]
    let st : LayoutState := ⟨0, 0, ((0, 0), 0, 0)⟩
    (∀ c, 0 < wideW.charW c) ∧ wideW.charW (charAt text 0) ≤ wideW.w ∧
    ∃ r, layoutImpl wideW 5 text st = some r ∧ ¬ Tiled text 5 r := by
  refine ⟨fun c => ?_, by decide, ⟨[⟨2, [⟨0, 2, 10⟩]⟩, ⟨3, [⟨2, 1, 0⟩, ⟨3, 2, 20⟩]⟩],
    [97, 10, 87, 10, 97], ⟨1, 2, ((0, 0), 0, 0)⟩⟩, by decide +kernel, fun htiled => ?_⟩
  · show 0 < if c = 87 then (30 : UInt32) else 10
    split <;> decide
  · obtain ⟨-, -, hrow, -⟩ := htiled.tile
    exact hrow.inside 3 (by decide) (by decide) (by decide)

end Awtk.TextEdit
