import Mathlib
import Awtk.Base.TextEdit

/-!
# The line parser

A model of `line_parser_t`, which breaks a text into lines for a label.  It scans
the text once and notes where each line begins.  `line_parser_next` then gives
the lines from these places.

A pointer into the text is an index, and reading a character that is not in the
text has no result.  The widths of texts and the check for breaks are arguments
(`LineEnv`).  An `int` that is compared with a `uint32_t` is kept as its bits.

`partitions_iff` says for which texts and widths the lines are a partition of
the text.  There are two exceptions.  A text that ends in a `'\r'` is read behind
its end, and a width of zero has no room for any character, so the scan stops
and the last line keeps the rest of the text.
-/

namespace Awtk

open TextEdit List Option

/-- What a line parser takes from its arguments and its canvas. -/
structure LineEnv where
  /-- `canvas_measure_text`, converted to an `int`. -/
  measure : List WChar → Nat
  /-- One more than a width fits the `int`. -/
  measure_lt : ∀ s, measure s + 1 < 2 ^ 31
  /-- `line_break_check`. -/
  breakCheck : WChar → WChar → BreakType
  fontSize : UInt32
  width : UInt32
  lineWrap : Bool
  wordWrap : Bool

/-- `line_parser_t`.  `line` is an index into `str`. -/
structure LineParser where
  str : List WChar
  totalLines : Nat
  totalParagraphs : Nat
  lineNumbers : List Nat
  currLineNumber : Nat
  line : Nat
  lineSize : Nat
  deriving DecidableEq, Repr

namespace LineParser

/-! ## Scanning one line -/

/-- The loop of `line_parser_next_impl` that goes back from `p` to a place where the line may be
broken.  Without one it ends at `tmp`. -/
def walkBack (check : WChar → WChar → BreakType) (str : List WChar) (line tmp : Nat) :
    Nat → Option Nat
  | 0 => none
  | p + 1 =>
    (str[p]?).bind fun c1 =>
    (str[p + 1]?).bind fun c2 =>
    if check c1 c2 = .no then
      if p = line then some tmp else walkBack check str line tmp p
    else some (p + 1)

/-- Where a line that is too long ends: a blank after it belongs to it. -/
def breakAt (env : LineEnv) (str : List WChar) (line p : Nat) : Option Nat :=
  (if env.wordWrap then walkBack env.breakCheck str line p p else some p).bind fun p =>
  (str[p]?).map fun c => if TextEdit.isSpace c then p + 1 else p

/-- How the scan of a line ends: behind its last character, or because there is no room for its
first one. -/
inductive ScanEnd where
  | stop (p : Nat) (isForceBreak : Bool)
  | fail
  deriving DecidableEq, Repr

/-- The loop of `line_parser_next_impl` over the rest of the text from `p` on.  `w` is set when the
width of the line is measured. -/
def scan (env : LineEnv) (str : List WChar) (line : Nat) :
    List WChar → Nat → Option Nat → Nat → Option ScanEnd
  | [], p, _, _ => some (.stop p false)
  | c :: rest, p, w, lineW =>
    if c = newliner then
      (str[p + 1]?).map fun d => .stop (if d = newline then p + 2 else p + 1) true
    else if c = newline then some (.stop (p + 1) true)
    else if env.lineWrap then
      if env.width.toNat ≤ lineW then
        let w := w.getD (env.measure ((str.drop line).take (p - line)))
        let charW := env.measure [c] + 1
        if env.width.toNat < U32.add w charW then
          if line < p then (breakAt env str line p).map fun p => .stop p false else some .fail
        else
          scan env str line rest (p + 1) (some (U32.add w (charW - 1)))
            (U32.add lineW env.fontSize.toNat)
      else scan env str line rest (p + 1) w (U32.add lineW env.fontSize.toNat)
    else scan env str line rest (p + 1) w lineW

/-- `line_parser_next_impl` at the beginning of a line, if the text has not ended. -/
def nextImpl (env : LineEnv) (str : List WChar) (line : Nat) : Option ScanEnd :=
  scan env str line (str.drop line) line none 0

/-! ## All lines -/

/-- What the loop of `line_parser_init` has when it ends. -/
structure Lines where
  numbers : List Nat
  paragraphs : Nat
  isForceBreak : Bool
  deriving DecidableEq, Repr

/-- The loop of `line_parser_init`. -/
def initLoop (env : LineEnv) (str : List WChar) : Nat → Nat → Lines → Option Lines
  | 0, _, _ => none
  | fuel + 1, line, s =>
    if str.length ≤ line then some s
    else (nextImpl env str line).bind fun r =>
      match r with
      | .fail => some { s with isForceBreak := false }
      | .stop p isForceBreak => initLoop env str fuel p {
          numbers := s.numbers ++ [line]
          paragraphs := if isForceBreak then s.paragraphs + 1 else s.paragraphs
          isForceBreak }

/-- `line_parser_init`.  The text is not empty. -/
def init (env : LineEnv) (fuel : Nat) (str : List WChar) : Option (Ret × Option LineParser) :=
  if str = [] ∨ env.fontSize.toNat = 0 then some (.badParams, none)
  else (initLoop env str fuel 0 ⟨[], 0, false⟩).map fun s =>
    (.ok, some {
      str
      totalLines := s.numbers.length
      totalParagraphs := if s.isForceBreak then s.paragraphs else s.paragraphs + 1
      lineNumbers := s.numbers
      currLineNumber := 0
      line := 0
      lineSize := 0 })

def next (parser : LineParser) : Ret × LineParser :=
  match parser.lineNumbers[parser.currLineNumber]? with
  | none => (.eos, parser)
  | some line =>
    let lineSize :=
      if parser.lineNumbers.length = 1 then parser.str.length
      else
        match parser.lineNumbers[parser.currLineNumber + 1]? with
        | some behind => behind - line
        | none => parser.str.length - line
    (.ok, { parser with currLineNumber := parser.currLineNumber + 1, line, lineSize })

/-- The characters of the current line. -/
def current (parser : LineParser) : List WChar := (parser.str.drop parser.line).take parser.lineSize

/-- The lines `line_parser_next` returns until it says `RET_EOS`. -/
def nextAll : Nat → LineParser → Option (List (List WChar))
  | 0, _ => none
  | fuel + 1, parser =>
    let r := parser.next
    if r.1 = .ok then (nextAll fuel r.2).map (r.2.current :: ·) else some []

/-! ## Partitions into lines -/

/-- A character that ends a line. -/
def IsBreak (c : WChar) : Prop := c = newliner ∨ c = newline

instance (c : WChar) : Decidable (IsBreak c) := inferInstanceAs (Decidable (_ ∨ _))

/-- Only the end of `l` is a break. -/
def AtEnd (l : List WChar) : Prop :=
  ∀ as c bs, l = as ++ c :: bs → IsBreak c → bs = [] ∨ c = newliner ∧ bs = [newline]

/-- The two characters of a break are in one line. -/
def Together (l l' : List WChar) : Prop := ¬ (l.getLast? = some newliner ∧ l'.head? = some newline)

/-- The lines are the text, one after the other, and each break is the end of one. -/
structure Partition (str : List WChar) (lines : List (List WChar)) : Prop where
  flatten : lines.flatten = str
  ne_nil : ∀ l ∈ lines, l ≠ []
  atEnd : ∀ l ∈ lines, AtEnd l
  together : lines.IsChain Together

/-! ## What ends a line -/

/-- What may follow the characters of a line that are no breaks. -/
inductive Ending : List WChar → Prop where
  | nothing : Ending []
  | cr : Ending [newliner]
  | lf : Ending [newline]
  | both : Ending [newliner, newline]

theorem Ending.atEnd {e : List WChar} (h : Ending e) : AtEnd e := by
  intro as c bs heq hc
  cases h with
  | nothing => simp at heq
  | cr | lf =>
    obtain ⟨-, h⟩ | ⟨-, h⟩ := singleton_eq_append_iff.mp heq
    · exact .inl (List.cons.inj h).2
    · cases h
  | both =>
    match as with
    | [] =>
      obtain ⟨rfl, rfl⟩ := List.cons.inj heq
      exact .inr ⟨rfl, rfl⟩
    | [_] =>
      obtain ⟨-, h⟩ := List.cons.inj heq
      exact .inl (List.cons.inj h).2.symm
    | _ :: _ :: _ => simp at heq

theorem Ending.atEnd_append {seen e : List WChar} (hseen : ∀ c ∈ seen, ¬ IsBreak c)
    (h : Ending e) : AtEnd (seen ++ e) := by
  induction seen with
  | nil => exact h.atEnd
  | cons a seen ih =>
    intro as c bs heq hc
    cases as with
    | nil =>
      obtain ⟨rfl, -⟩ := List.cons.inj heq
      exact (hseen a mem_cons_self hc).elim
    | cons b as =>
      exact ih (fun x hx => hseen x (mem_cons_of_mem a hx)) as c bs (List.cons.inj heq).2 hc

/-! ## The scan of a line -/

section Scan

variable {env : LineEnv} {str : List WChar} {line : Nat}

theorem walkBack_spec (check : WChar → WChar → BreakType) {tmp : Nat} (htmp : tmp < str.length)
    {p : Nat} (hp : line < p) (hle : p ≤ tmp) :
    ∃ q, walkBack check str line tmp p = some q ∧ line < q ∧ q ≤ tmp := by
  induction p with
  | zero => exact absurd hp (Nat.not_lt_zero _)
  | succ p ih =>
    rw [walkBack, getElem?_eq_getElem (by omega), getElem?_eq_getElem (by omega),
      bind_some, bind_some]
    split_ifs with hno hfirst
    · exact ⟨tmp, rfl, by omega, le_refl _⟩
    · exact ih (by omega) (by omega)
    · exact ⟨p + 1, rfl, hp, hle⟩

theorem breakAt_spec (env : LineEnv) {p : Nat} (hp : line < p) (hlt : p < str.length) :
    ∃ q, breakAt env str line p = some q ∧ line < q ∧ q ≤ p + 1 := by
  obtain ⟨q, hq, hlo, hhi⟩ : ∃ q, (if env.wordWrap then walkBack env.breakCheck str line p p
      else some p) = some q ∧ line < q ∧ q ≤ p := by
    split_ifs
    · exact walkBack_spec env.breakCheck hlt hp (le_refl p)
    · exact ⟨p, rfl, hp, le_refl p⟩
  rw [breakAt, hq, bind_some, getElem?_eq_getElem (by omega), map_some]
  split_ifs
  · exact ⟨q + 1, rfl, by omega, by omega⟩
  · exact ⟨q, rfl, hlo, by omega⟩

/-- What the scan of a line gives, where `text` is the text from the line on. -/
def Scanned (env : LineEnv) (line : Nat) (text : List WChar) : Option ScanEnd → Prop
  | none => text.getLast? = some newliner
  | some .fail => env.lineWrap = true ∧ env.width.toNat = 0 ∧
      ∃ c rest, text = c :: rest ∧ ¬ IsBreak c
  | some (.stop p _) => ∃ l rest, text = l ++ rest ∧ p = line + l.length ∧ l ≠ [] ∧ AtEnd l ∧
      (l.getLast? = some newliner → ∃ d, rest.head? = some d ∧ d ≠ newline) ∧
      (env.lineWrap = true → env.width.toNat = 0 → ∃ c, l.head? = some c ∧ IsBreak c)

theorem scanned_stop (env : LineEnv) (line : Nat) {seen e : List WChar} (rest : List WChar)
    (p : Nat) (f : Bool) (he : Ending e) (hseen : ∀ c ∈ seen, ¬ IsBreak c) (hne : seen ++ e ≠ [])
    (hzero : env.lineWrap = true → env.width.toNat = 0 → seen = [] ∧ e ≠ [])
    (hlast : e = [newliner] → ∃ d, rest.head? = some d ∧ d ≠ newline)
    (hp : p = line + (seen ++ e).length) :
    Scanned env line (seen ++ e ++ rest) (some (.stop p f)) := by
  refine ⟨seen ++ e, rest, rfl, hp, hne, he.atEnd_append hseen, fun hcr => ?_, fun hw h0 => ?_⟩
  · cases he with
    | nothing =>
      rw [append_nil] at hcr
      exact (hseen _ (mem_of_getLast? hcr) (.inl rfl)).elim
    | cr => exact hlast rfl
    | lf => simp [newliner, newline] at hcr
    | both => simp [newliner, newline] at hcr
  · obtain ⟨rfl, hen⟩ := hzero hw h0
    cases he with
    | nothing => exact absurd rfl hen
    | cr => exact ⟨_, rfl, .inl rfl⟩
    | lf => exact ⟨_, rfl, .inr rfl⟩
    | both => exact ⟨_, rfl, .inl rfl⟩

theorem scanned_break {seen rest : List WChar} {c : WChar} {q : Nat}
    (hseen : ∀ d ∈ seen, ¬ IsBreak d) (hc : ¬ IsBreak c) (hlo : line < q)
    (hhi : q ≤ line + seen.length + 1)
    (hzero : env.lineWrap = true → env.width.toNat = 0 → seen = []) (hne : seen ≠ []) :
    Scanned env line (seen ++ c :: rest) (some (.stop q false)) := by
  have hplain : ∀ d ∈ (seen ++ [c]).take (q - line), ¬ IsBreak d := fun d hd => by
    rcases mem_append.mp (mem_of_mem_take hd) with hd | hd
    · exact hseen d hd
    · rwa [mem_singleton.mp hd]
  have hlen : ((seen ++ [c]).take (q - line)).length = q - line := by
    rw [length_take, length_append, length_singleton]
    omega
  have hsplit : seen ++ c :: rest =
      (seen ++ [c]).take (q - line) ++ [] ++ ((seen ++ [c]).drop (q - line) ++ rest) := by
    rw [append_nil, ← append_assoc, take_append_drop, append_assoc]
    rfl
  rw [hsplit]
  refine scanned_stop env line _ q false .nothing hplain (fun hnil => ?_)
    (fun hw h0 => absurd (hzero hw h0) hne) (fun h => nomatch h) ?_
  · rw [append_nil] at hnil
    rw [hnil] at hlen
    exact absurd hlen.symm (by simp; omega)
  · rw [append_nil, hlen]
    omega

/-- The scan goes on behind `seen`, which has no breaks. -/
theorem scan_spec (rest : List WChar) :
    ∀ (seen : List WChar) (w : Option Nat) (lineW : Nat),
      str.drop line = seen ++ rest → seen ++ rest ≠ [] → (∀ c ∈ seen, ¬ IsBreak c) →
      (seen = [] → w = none ∧ lineW = 0) →
      (env.lineWrap = true → env.width.toNat = 0 → seen = []) →
      Scanned env line (seen ++ rest) (scan env str line rest (line + seen.length) w lineW) := by
  induction rest with
  | nil =>
    intro seen w lineW hstr hne hseen hstart hzero
    rw [scan]
    have hnil : seen ++ [] = seen ++ [] ++ [] := (append_nil _).symm
    rw [hnil]
    exact scanned_stop env line [] _ false .nothing hseen hne
      (fun hw h0 => absurd (hzero hw h0) (by simpa using hne)) (fun h => nomatch h)
      (by rw [append_nil])
  | cons c rest ih =>
    intro seen w lineW hstr hne hseen hstart hzero
    have hat (k : Nat) : str[line + seen.length + k]? = (c :: rest)[k]? := by
      rw [Nat.add_assoc, ← getElem?_drop, hstr,
        getElem?_append_right (Nat.le_add_right _ _), Nat.add_sub_cancel_left]
    have hlt : line + seen.length < str.length :=
      (List.getElem?_eq_some_iff.mp (hat 0)).1
    rw [scan]
    by_cases hcr : c = newliner
    · subst hcr
      rw [if_pos rfl, hat 1]
      cases rest with
      | nil => simp [Scanned]
      | cons d rest =>
        simp only [getElem?_cons_succ, getElem?_cons_zero, map_some]
        by_cases hlf : d = newline
        · subst hlf
          rw [if_pos rfl]
          have := scanned_stop env line rest (line + seen.length + 2) true .both hseen (by simp)
            (fun hw h0 => ⟨hzero hw h0, by simp⟩) (by simp) (by simp; omega)
          simpa using this
        · rw [if_neg hlf]
          have := scanned_stop env line (d :: rest) (line + seen.length + 1) true .cr hseen
            (by simp) (fun hw h0 => ⟨hzero hw h0, by simp⟩) (fun _ => ⟨d, rfl, hlf⟩) (by simp; omega)
          simpa using this
    · rw [if_neg hcr]
      by_cases hlf : c = newline
      · subst hlf
        rw [if_pos rfl]
        have := scanned_stop env line rest (line + seen.length + 1) true .lf hseen (by simp)
          (fun hw h0 => ⟨hzero hw h0, by simp⟩) (by simp [newline, newliner]) (by simp; omega)
        simpa using this
      · rw [if_neg hlf]
        have hplain : ¬ IsBreak c := fun h => h.elim hcr hlf
        have hnext (w : Option Nat) (lineW : Nat)
            (hwide : env.lineWrap = true → env.width.toNat ≠ 0) :
            Scanned env line (seen ++ c :: rest)
              (scan env str line rest (line + seen.length + 1) w lineW) := by
          have := ih (seen ++ [c]) w lineW (by simpa using hstr) (by simp)
            (fun d hd => by
              rcases mem_append.mp hd with hd | hd
              · exact hseen d hd
              · rwa [mem_singleton.mp hd])
            (by simp) (fun hw h0 => absurd h0 (hwide hw))
          simpa [Nat.add_assoc] using this
        by_cases hwrap : env.lineWrap = true
        · rw [if_pos hwrap]
          by_cases hfull : env.width.toNat ≤ lineW
          · rw [if_pos hfull]
            dsimp only
            split_ifs with hwide hpos
            · have hseen0 : seen ≠ [] := fun hnil => by simp [hnil] at hpos
              obtain ⟨q, hq, hlo, hhi⟩ := breakAt_spec env hpos hlt
              rw [hq]
              exact scanned_break hseen hplain hlo hhi hzero hseen0
            · have hnil : seen = [] := eq_nil_of_length_eq_zero (by omega)
              subst hnil
              refine ⟨hwrap, ?_, c, rest, rfl, hplain⟩
              rw [(hstart rfl).2] at hfull
              exact Nat.le_zero.mp hfull
            · refine hnext _ _ fun _ h0 => hwide ?_
              have hnil := hzero hwrap h0
              rw [(hstart hnil).1, getD_none, h0]
              have h1 := env.measure_lt ((str.drop line).take (line + seen.length - line))
              have h2 := env.measure_lt [c]
              rw [U32.add_of_lt (by omega)]
              omega
          · rw [if_neg hfull]
            exact hnext _ _ fun _ h0 => hfull (h0 ▸ Nat.zero_le _)
        · rw [if_neg hwrap]
          exact hnext _ _ fun hw => absurd hw hwrap

theorem nextImpl_spec (env : LineEnv) (hlt : line < str.length) :
    Scanned env line (str.drop line) (nextImpl env str line) := by
  have hne : str.drop line ≠ [] := fun h => by
    have := congrArg List.length h
    rw [length_drop, length_nil] at this
    omega
  exact scan_spec (str.drop line) [] none 0 rfl hne (fun _ h => nomatch h) (fun _ => ⟨rfl, rfl⟩)
    fun _ _ => rfl

end Scan

/-! ## The loop over the lines -/

/-- Where the lines begin, the first one at `o`. -/
def starts (o : Nat) : List (List WChar) → List Nat
  | [] => []
  | l :: ls => o :: starts (o + l.length) ls

@[simp] theorem starts_length (o : Nat) (ls : List (List WChar)) :
    (starts o ls).length = ls.length := by
  induction ls generalizing o with
  | nil => rfl
  | cons l ls ih => rw [starts, length_cons, ih, length_cons]

variable {env : LineEnv} {str : List WChar}

/-- The lines the loop has found in `text`, and how it ended. -/
structure Found (env : LineEnv) (text : List WChar) (lines : List (List WChar)) : Prop where
  ne_nil : ∀ l ∈ lines, l ≠ []
  atEnd : ∀ l ∈ lines, AtEnd l
  together : lines.IsChain Together
  /-- Without any room, only breaks are found. -/
  noRoom : env.lineWrap = true → env.width.toNat = 0 →
    ∀ l ∈ lines, ∃ c, l.head? = some c ∧ IsBreak c
  ended : text = lines.flatten ∧ text.getLast? ≠ some newliner ∨
    env.lineWrap = true ∧ env.width.toNat = 0 ∧
      ∃ c rest, text = lines.flatten ++ c :: rest ∧ ¬ IsBreak c

theorem Found.nil {text : List WChar} (h : text = [] ∨ env.lineWrap = true ∧ env.width.toNat = 0 ∧
    ∃ c rest, text = c :: rest ∧ ¬ IsBreak c) : Found env text [] where
  ne_nil _ h := nomatch h
  atEnd _ h := nomatch h
  together := .nil
  noRoom _ _ _ h := nomatch h
  ended := h.imp_left fun h => by simp [h]

/-- The text of the lines begins with the first one. -/
theorem Found.head {text l : List WChar} {lines : List (List WChar)}
    (h : Found env text (l :: lines)) : text.head? = l.head? := by
  obtain ⟨c, t, rfl⟩ := exists_cons_of_ne_nil (h.ne_nil l mem_cons_self)
  obtain ⟨rfl, -⟩ | ⟨-, -, d, rest, rfl, -⟩ := h.ended
  · rfl
  · rfl

theorem Found.cons {text l rest : List WChar} {lines : List (List WChar)} (h : Found env rest lines)
    (htext : text = l ++ rest) (hne : l ≠ []) (hend : AtEnd l)
    (hcr : l.getLast? = some newliner → ∃ d, rest.head? = some d ∧ d ≠ newline)
    (hzero : env.lineWrap = true → env.width.toNat = 0 → ∃ c, l.head? = some c ∧ IsBreak c) :
    Found env text (l :: lines) where
  ne_nil := forall_mem_cons.mpr ⟨hne, h.ne_nil⟩
  atEnd := forall_mem_cons.mpr ⟨hend, h.atEnd⟩
  together := by
    refine isChain_cons.mpr ⟨fun y hy hboth => ?_, h.together⟩
    obtain ⟨ls, rfl⟩ := head?_eq_some_iff.mp hy
    obtain ⟨d, hd, hne⟩ := hcr hboth.1
    rw [h.head, hboth.2] at hd
    exact hne (some.inj hd).symm
  noRoom hw h0 := forall_mem_cons.mpr ⟨hzero hw h0, h.noRoom hw h0⟩
  ended := by
    obtain ⟨hflat, hlast⟩ | ⟨hw, h0, c, tail, hflat, hc⟩ := h.ended
    · refine .inl ⟨by rw [htext, hflat, flatten_cons], fun hlast' => ?_⟩
      rw [htext, getLast?_append, or_eq_some_iff] at hlast'
      obtain hlast' | ⟨hnone, hlast'⟩ := hlast'
      · exact hlast hlast'
      · obtain ⟨d, hd, -⟩ := hcr hlast'
        rw [getLast?_eq_none_iff.mp hnone] at hd
        cases hd
    · refine .inr ⟨hw, h0, c, tail, ?_, hc⟩
      rw [htext, hflat, flatten_cons, append_assoc]

theorem initLoop_found {fuel line : Nat} {s s' : Lines} (h : initLoop env str fuel line s = some s')
    (hle : line ≤ str.length) :
    ∃ lines, s'.numbers = s.numbers ++ starts line lines ∧ Found env (str.drop line) lines := by
  induction fuel generalizing line s with
  | zero => cases h
  | succ fuel ih =>
    rw [initLoop] at h
    split_ifs at h with hend
    · cases h
      exact ⟨[], (append_nil _).symm, .nil (.inl (drop_eq_nil_of_le hend))⟩
    · have hspec := nextImpl_spec env (Nat.not_le.mp hend)
      obtain ⟨r, hr, h⟩ := bind_eq_some_iff.mp h
      rw [hr] at hspec
      cases r with
      | fail =>
        cases h
        exact ⟨[], (append_nil _).symm, .nil (.inr hspec)⟩
      | stop p f =>
        obtain ⟨l, rest, htext, rfl, hne, hatEnd, hcr, hzero⟩ := hspec
        have hrest : str.drop (line + l.length) = rest := by
          rw [← drop_drop, htext, drop_left]
        have hlen := congrArg List.length htext
        rw [length_drop, length_append] at hlen
        obtain ⟨lines, hnum, hfound⟩ := ih h (by omega)
        rw [hrest] at hfound
        refine ⟨l :: lines, ?_, hfound.cons htext hne hatEnd hcr hzero⟩
        rw [hnum, starts, append_assoc]
        rfl

theorem initLoop_isSome (hlast : str.getLast? ≠ some newliner) {fuel line : Nat} {s : Lines}
    (hle : line ≤ str.length) (hfuel : str.length < line + fuel) :
    ∃ s', initLoop env str fuel line s = some s' := by
  induction fuel generalizing line s with
  | zero => omega
  | succ fuel ih =>
    rw [initLoop]
    split_ifs with hend
    · exact ⟨s, rfl⟩
    · have hlt := Nat.not_le.mp hend
      have hspec := nextImpl_spec env hlt
      cases hr : nextImpl env str line with
      | none =>
        rw [hr] at hspec
        refine (hlast ?_).elim
        rw [← take_append_drop line str, getLast?_append, hspec]
        rfl
      | some r =>
        cases r with
        | fail => exact ⟨_, rfl⟩
        | stop p f =>
          rw [hr] at hspec
          obtain ⟨l, rest, htext, rfl, hne, -⟩ := hspec
          have hlen := congrArg List.length htext
          rw [length_drop, length_append] at hlen
          have hpos := length_pos_of_ne_nil hne
          exact ih (by omega) (by omega)

/-! ## The lines that are returned -/

/-- The stretches of the text between the places. -/
def spans (str : List WChar) : List Nat → List (List WChar)
  | [] => []
  | [n] => [str.drop n]
  | n :: m :: ns => (str.drop n).take (m - n) :: spans str (m :: ns)

/-- The last line gets the rest of the text. -/
def extendLast : List (List WChar) → List WChar → List (List WChar)
  | [], _ => []
  | [l], rest => [l ++ rest]
  | l :: l' :: ls, rest => l :: extendLast (l' :: ls) rest

@[simp] theorem extendLast_nil (ls : List (List WChar)) : extendLast ls [] = ls := by
  induction ls with
  | nil => rfl
  | cons l ls ih =>
    cases ls with
    | nil => simp [extendLast]
    | cons l' ls => rw [extendLast, ih]

theorem spans_starts (rest : List WChar) (ls : List (List WChar)) (o : Nat)
    (h : str.drop o = ls.flatten ++ rest) : spans str (starts o ls) = extendLast ls rest := by
  induction ls generalizing o with
  | nil => rfl
  | cons l ls ih =>
    have hrest : str.drop (o + l.length) = ls.flatten ++ rest := by
      rw [← drop_drop, h, flatten_cons, append_assoc, drop_left]
    cases ls with
    | nil => simpa [starts, spans, extendLast] using h
    | cons l' ls =>
      rw [starts, starts, spans, ← starts, ih _ hrest, extendLast, Nat.add_sub_cancel_left, h,
        flatten_cons, append_assoc, take_left]

theorem next_current {parser : LineParser} {line : Nat} {ns : List Nat}
    (hzero : parser.lineNumbers.length = 1 → line = 0)
    (h : parser.lineNumbers.drop parser.currLineNumber = line :: ns) :
    ∃ size, parser.next = (.ok, { parser with
        currLineNumber := parser.currLineNumber + 1, line, lineSize := size }) ∧
      spans parser.str (line :: ns) = (parser.str.drop line).take size :: spans parser.str ns := by
  have hat (k : Nat) : parser.lineNumbers[parser.currLineNumber + k]? = (line :: ns)[k]? := by
    rw [← h, getElem?_drop]
  have hcur := hat 0
  have hnext := hat 1
  rw [Nat.add_zero] at hcur
  rw [next, hcur, hnext]
  refine ⟨_, rfl, ?_⟩
  have hlen := congrArg List.length h
  rw [length_drop, length_cons] at hlen
  cases ns with
  | nil =>
    split_ifs with hone
    · rw [hzero hone, drop_zero, take_length]
      rfl
    · exact congrArg (· :: []) (take_of_length_le (by simp)).symm
  | cons m ns =>
    rw [if_neg (by rw [length_cons] at hlen; omega)]
    rfl

/-- Asking for all lines that are left. -/
theorem nextAll_eq (parser : LineParser) (hzero : ∀ line, parser.lineNumbers = [line] → line = 0)
    {fuel : Nat} (hcur : parser.currLineNumber ≤ parser.lineNumbers.length)
    (hfuel : parser.lineNumbers.length < parser.currLineNumber + fuel) :
    nextAll fuel parser =
      some (spans parser.str (parser.lineNumbers.drop parser.currLineNumber)) := by
  induction fuel generalizing parser with
  | zero => omega
  | succ fuel ih =>
    rw [nextAll]
    cases h : parser.lineNumbers.drop parser.currLineNumber with
    | nil =>
      have hend := drop_eq_nil_iff.mp h
      rw [next, getElem?_eq_none hend]
      rfl
    | cons line ns =>
      have hlen := congrArg List.length h
      rw [length_drop, length_cons] at hlen
      have hone : parser.lineNumbers.length = 1 → line = 0 := fun hone => by
        obtain ⟨a, ha⟩ := length_eq_one_iff.mp hone
        have hcur0 : parser.currLineNumber = 0 := by omega
        rw [ha, hcur0, drop_zero] at h
        obtain ⟨rfl, -⟩ := List.cons.inj h
        exact hzero a ha
      obtain ⟨size, hnext, hspan⟩ := next_current hone h
      have hrest : parser.lineNumbers.drop (parser.currLineNumber + 1) = ns := by
        rw [← drop_drop, h, drop_one, tail_cons]
      rw [hnext, hspan]
      dsimp only
      have := ih { parser with
        currLineNumber := parser.currLineNumber + 1, line, lineSize := size } hzero
        (by dsimp only; omega) (by dsimp only; omega)
      rw [if_pos rfl, this, hrest]
      rfl

/-! ## When the lines are a partition -/

/-- The lines of the text are a partition of it, and they are as many as `total_lines`. -/
def Partitions (env : LineEnv) (str : List WChar) : Prop :=
  ∃ fuel parser lines, init env fuel str = some (.ok, some parser) ∧
    nextAll (parser.lineNumbers.length + 1) parser = some lines ∧ Partition str lines ∧
    parser.totalLines = lines.length

/-- The text can be broken into lines: there is a font size, the text does not end in the middle of
a break, and there is room for a character if one is needed. -/
def Breakable (env : LineEnv) (str : List WChar) : Prop :=
  env.fontSize.toNat ≠ 0 ∧ str.getLast? ≠ some newliner ∧
    (env.lineWrap = true → env.width.toNat = 0 → ∀ c ∈ str, IsBreak c)

instance (env : LineEnv) (str : List WChar) : Decidable (Breakable env str) :=
  inferInstanceAs (Decidable (_ ∧ _ ∧ (_ → _ → _)))

theorem init_found {fuel : Nat} {parser : LineParser}
    (h : init env fuel str = some (.ok, some parser)) :
    env.fontSize.toNat ≠ 0 ∧ ∃ lines, Found env str lines ∧ parser.totalLines = lines.length ∧
      ∀ rest, str = lines.flatten ++ rest →
        nextAll (parser.lineNumbers.length + 1) parser = some (extendLast lines rest) := by
  unfold init at h
  split_ifs at h with hbad
  · cases h
  obtain ⟨s, hs, hparser⟩ := map_eq_some_iff.mp h
  obtain ⟨lines, hnum, hfound⟩ := initLoop_found hs (Nat.zero_le _)
  rw [nil_append] at hnum
  obtain ⟨-, hparser⟩ := Prod.mk.inj hparser
  cases hparser
  refine ⟨fun h0 => hbad (.inr h0), lines, hfound, ?_, fun rest hrest => ?_⟩
  · dsimp only
    rw [hnum, starts_length]
  · rw [nextAll_eq _ (fun line hline => ?_) (Nat.zero_le _) (by dsimp only; omega)]
    · dsimp only
      rw [drop_zero, hnum, spans_starts rest lines 0 hrest]
    · dsimp only at hline
      rw [hnum] at hline
      cases lines with
      | nil => cases hline
      | cons l ls => exact (List.cons.inj hline).1.symm

theorem AtEnd.of_head {l : List WChar} (h : AtEnd l) {c : WChar} (hhead : l.head? = some c)
    (hc : IsBreak c) : ∀ d ∈ l, IsBreak d := by
  obtain ⟨t, rfl⟩ := head?_eq_some_iff.mp hhead
  intro d hd
  obtain rfl | ⟨-, rfl⟩ := h [] c t rfl hc
  · rwa [mem_singleton.mp hd]
  · rcases mem_cons.mp hd with rfl | hd
    · exact hc
    · rw [mem_singleton.mp hd]
      exact .inr rfl

theorem extendLast_concat (ls : List (List WChar)) (l rest : List WChar) :
    extendLast (ls ++ [l]) rest = ls ++ [l ++ rest] := by
  induction ls with
  | nil => rfl
  | cons a ls ih =>
    cases ls with
    | nil => rfl
    | cons b ls => exact congrArg (a :: ·) ih

theorem Found.not_partition {lines : List (List WChar)} (h : Found env str lines)
    (hw : env.lineWrap = true) (h0 : env.width.toNat = 0) {c : WChar} {rest : List WChar}
    (hc : ¬ IsBreak c) (hne : str ≠ []) : ¬ Partition str (extendLast lines (c :: rest)) := by
  intro hp
  rcases lines.eq_nil_or_concat with rfl | ⟨ls, l, rfl⟩
  · exact hne hp.flatten.symm
  · rw [concat_eq_append] at h hp
    rw [extendLast_concat] at hp
    obtain ⟨b, hb, hbreak⟩ := h.noRoom hw h0 l (by simp)
    have hend := hp.atEnd (l ++ c :: rest) (by simp)
    exact hc (hend.of_head (by rw [head?_append, hb]; rfl) hbreak c (by simp))

/-- The lines are a partition of the text exactly if it can be broken into lines. -/
theorem partitions_iff (env : LineEnv) {str : List WChar} (hne : str ≠ []) :
    Partitions env str ↔ Breakable env str := by
  constructor
  · rintro ⟨fuel, parser, lines', hinit, hnext, hp, -⟩
    obtain ⟨hfont, lines, hfound, -, hall⟩ := init_found hinit
    obtain ⟨hflat, hlast⟩ | ⟨hw, h0, c, rest, hflat, hc⟩ := hfound.ended
    · refine ⟨hfont, hlast, fun hw h0 c hmem => ?_⟩
      rw [hflat] at hmem
      obtain ⟨l, hl, hcl⟩ := mem_flatten.mp hmem
      obtain ⟨b, hb, hbreak⟩ := hfound.noRoom hw h0 l hl
      exact (hfound.atEnd l hl).of_head hb hbreak c hcl
    · rw [hall _ hflat, some.injEq] at hnext
      exact (hfound.not_partition hw h0 hc hne (hnext ▸ hp)).elim
  · rintro ⟨hfont, hlast, hroom⟩
    obtain ⟨s, hs⟩ : ∃ s, initLoop env str (str.length + 1) 0 ⟨[], 0, false⟩ = some s :=
      initLoop_isSome hlast (Nat.zero_le _) (by omega)
    obtain ⟨parser, hinit⟩ : ∃ parser, init env (str.length + 1) str = some (.ok, some parser) := by
      rw [init, if_neg (not_or.mpr ⟨hne, hfont⟩), hs]
      exact ⟨_, rfl⟩
    obtain ⟨-, lines, hfound, htotal, hall⟩ := init_found hinit
    obtain ⟨hflat, -⟩ | ⟨hw, h0, c, rest, hflat, hc⟩ := hfound.ended
    · refine ⟨_, parser, lines, hinit, ?_, ⟨hflat.symm, hfound.ne_nil, hfound.atEnd,
        hfound.together⟩, htotal⟩
      rw [hall [] (by rw [append_nil, ← hflat]), extendLast_nil]
    · exact (hc (hroom hw h0 c (hflat ▸ by simp))).elim

/-! ## Two texts -/

/-- A canvas on which each character is seven pixels wide. -/
def sevenWide (width : UInt32) : LineEnv where
  measure s := min (7 * s.length) (2 ^ 30)
  measure_lt s := by omega
  breakCheck := lineBreakCheck
  fontSize := 8
  width
  lineWrap := true
  wordWrap := true

/-- A text of two words and a line that is ended. -/
theorem partitions_words : Partitions (sevenWide 30)
    ("foo bar\r\nx".toList.map Char.val) :=
  (partitions_iff _ (by decide)).mpr (by decide)

/-- A text that ends in a `'\r'` is read behind its end. -/
theorem not_partitions_newliner : (∀ fuel, init (sevenWide 30) (fuel + 1) [newliner] = none) ∧
    ¬ Partitions (sevenWide 30) [newliner] := by
  refine ⟨fun fuel => rfl, ?_⟩
  rintro ⟨fuel, parser, lines, hinit, -⟩
  cases fuel with
  | zero => cases hinit
  | succ fuel => cases hinit

end LineParser

end Awtk
