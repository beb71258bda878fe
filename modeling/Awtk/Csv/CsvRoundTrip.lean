import Awtk.Csv.CsvFile

/-!
# The round trip of a CSV file

The buffer of a row is its cells with their NULs, and parsing the line of a row gives this
buffer back.  A line is read in pieces of 63 bytes.  Where a piece ends between the two
characters of an end of line, the next line is an empty one, which is skipped.
-/

namespace Awtk.Csv

open List Option

set_option maxRecDepth 2048

/-! ## The buffer of a row -/

/-- Cells with their NULs. -/
def pack (cells : List Str) : List UInt8 := cells.flatMap (· ++ [0])

theorem pack_cons (p : Str) (cells : List Str) : pack (p :: cells) = p ++ 0 :: pack cells := by
  simp [pack]

theorem takeWhile_ne_zero {p : Str} (hp : (0 : UInt8) ∉ p) (t : List UInt8) :
    (p ++ 0 :: t).takeWhile (· ≠ 0) = p := by
  induction p with
  | nil => rfl
  | cons c p ih =>
    have hc : c ≠ 0 := fun h => hp (h ▸ mem_cons_self)
    rw [cons_append, takeWhile_cons_of_pos (by simpa using hc),
      ih fun h => hp (mem_cons_of_mem _ h)]

theorem csvRowCellsFrom_pack {row : CsvRow} {cells : List Str} {t : List UInt8} {fuel i : Nat}
    (hcells : ∀ p ∈ cells, (0 : UInt8) ∉ p) (hbuff : row.buff.drop i = pack cells ++ t)
    (hsize : row.size = i + (pack cells).length) (hfuel : (pack cells).length ≤ fuel) :
    csvRowCellsFrom row fuel i = cells := by
  induction cells generalizing fuel i with
  | nil =>
    cases fuel with
    | zero => rfl
    | succ fuel =>
      have hi : ¬ i < row.size := by simp [hsize, pack]
      rw [csvRowCellsFrom, if_neg hi]
  | cons p cells ih =>
    rw [pack_cons] at hbuff hsize hfuel
    simp only [length_append, length_cons] at hsize hfuel
    have hp : cstrAt row.buff i = p := by
      rw [cstrAt, hbuff, append_assoc, cons_append]
      exact takeWhile_ne_zero (hcells p mem_cons_self) _
    have hrest : row.buff.drop (i + p.length + 1) = pack cells ++ t := by
      rw [Nat.add_assoc, ← drop_drop, hbuff]
      simp
    obtain ⟨fuel, rfl⟩ : ∃ n, fuel = n + 1 := ⟨fuel - 1, by omega⟩
    have hi : i < row.size := by omega
    rw [csvRowCellsFrom, if_pos hi]
    simp only [hp]
    rw [ih (fun q hq => hcells q (mem_cons_of_mem _ hq)) hrest (by omega) (by omega)]

theorem csvRowCells_pack {row : CsvRow} {cells : List Str}
    (hcells : ∀ p ∈ cells, (0 : UInt8) ∉ p) (hbuff : row.buff.take row.size = pack cells)
    (hsize : row.size = (pack cells).length) : csvRowCells row = cells := by
  refine csvRowCellsFrom_pack (t := row.buff.drop row.size) hcells ?_ (by omega) (by omega)
  rw [drop_zero, ← hbuff, take_append_drop]

theorem csvRowCellsFrom_noNul (row : CsvRow) (fuel i : Nat) :
    ∀ p ∈ csvRowCellsFrom row fuel i, (0 : UInt8) ∉ p := by
  induction fuel generalizing i with
  | zero => simp [csvRowCellsFrom]
  | succ fuel ih =>
    intro p hp
    rw [csvRowCellsFrom] at hp
    split at hp
    · rcases mem_cons.mp hp with rfl | hp
      · intro h
        simpa using mem_takeWhile_imp h
      · exact ih _ p hp
    · cases hp

theorem csvRowCells_noNul (row : CsvRow) : ∀ p ∈ csvRowCells row, (0 : UInt8) ∉ p :=
  csvRowCellsFrom_noNul row _ _

/-! ## Parsing in place -/

section Parse

variable {sep : UInt8} {st : CsvParse} {t u : List UInt8} {fuel : Nat}

theorem put_drop {n : Nat} (hd : st.d < n) (c : UInt8) :
    (st.put c).buff.drop n = st.buff.drop n := by
  rw [CsvParse.put]
  exact drop_set_of_lt hd

theorem put_take (hd : st.d < st.buff.length) (c : UInt8) :
    (st.put c).buff.take (st.put c).d = st.buff.take st.d ++ [c] := by
  simp only [CsvParse.put]
  rw [take_add_one, take_set_of_le (Nat.le_refl _), getElem?_set_self hd]
  rfl

/-- What is known in front of each character. -/
structure Parses (st : CsvParse) (out t : List UInt8) : Prop where
  behind : st.d ≤ st.s
  written : st.buff.take st.d = out
  unread : ∃ u, st.buff.drop st.s = t ++ 0 :: u

variable {out : List UInt8} {c : UInt8}

theorem Parses.inside (h : Parses st out t) : st.s < st.buff.length := by
  obtain ⟨u, hu⟩ := h.unread
  have hlen := congrArg List.length hu
  simp only [length_drop, length_append, length_cons] at hlen
  omega

/-- A character is read. -/
theorem Parses.read (h : Parses st out (c :: t)) (escape inQuota : Bool) :
    Parses ⟨st.buff, st.s + 1, st.d, escape, inQuota⟩ out t := by
  obtain ⟨u, hu⟩ := h.unread
  refine ⟨Nat.le_succ_of_le h.behind, h.written, u, ?_⟩
  rw [← drop_drop, hu]
  rfl

theorem Parses.readPut (h : Parses st out (c :: t)) (w : UInt8) (escape inQuota : Bool) :
    Parses ⟨st.buff.set st.d w, st.s + 1, st.d + 1, escape, inQuota⟩ (out ++ [w]) t := by
  have hinside := h.inside
  have hbehind := h.behind
  obtain ⟨u, hu⟩ := (h.read escape inQuota).unread
  refine ⟨Nat.succ_le_succ hbehind, ?_, u, ?_⟩
  · rw [← h.written]
    exact put_take (by omega) w
  · exact (put_drop (Nat.lt_succ_of_le hbehind) w).trans hu

/-- A turn writes what parsing writes for its character. -/
theorem Parses.char (h : Parses st out (c :: t)) (sep : UInt8) :
    ∃ w, Parses (csvRowParseChar sep { st with s := st.s + 1 } c) (out ++ w) t ∧
      parsed sep st.inQuota st.escape (c :: t) =
        w ++ parsed sep (csvRowParseChar sep { st with s := st.s + 1 } c).inQuota
          (csvRowParseChar sep { st with s := st.s + 1 } c).escape t := by
  obtain ⟨buff, s, d, escape, inQuota⟩ := st
  have hnone : ∀ e q, Parses ⟨buff, s + 1, d, e, q⟩ (out ++ []) t := by
    intro e q
    rw [append_nil]
    exact h.read e q
  cases inQuota with
  | false =>
    rcases eq_or_ne c sep with rfl | hsep
    · exact ⟨[0], by simpa [csvRowParseChar, CsvParse.put] using h.readPut 0 escape false,
        by simp [csvRowParseChar, parsed, CsvParse.put]⟩
    rcases eq_or_ne c '"' with rfl | hquote
    · exact ⟨[], by simpa [csvRowParseChar, hsep] using h.read escape true,
        by simp [csvRowParseChar, parsed, hsep]⟩
    · exact ⟨[c], by simpa [csvRowParseChar, CsvParse.put, hsep, hquote] using h.readPut c escape false,
        by simp [csvRowParseChar, parsed, hsep, hquote, CsvParse.put]⟩
  | true =>
    cases escape with
    | true =>
      exact ⟨[c], by simpa [csvRowParseChar, CsvParse.put] using h.readPut c false true,
        by simp [csvRowParseChar, parsed, CsvParse.put]⟩
    | false =>
      rcases eq_or_ne c '"' with rfl | hquote
      · exact ⟨[], by simpa [csvRowParseChar] using h.read false false,
          by simp [csvRowParseChar, parsed]⟩
      rcases eq_or_ne c '\\' with rfl | hslash
      · exact ⟨[], by simpa [csvRowParseChar, hquote] using h.read true true,
          by simp [csvRowParseChar, parsed, hquote]⟩
      · exact ⟨[c], by simpa [csvRowParseChar, CsvParse.put, hquote, hslash] using h.readPut c false true,
          by simp [csvRowParseChar, parsed, hquote, hslash, CsvParse.put]⟩

theorem csvRowParseLoop_parses (sep : UInt8) (h : Parses st out t) (ht : (0 : UInt8) ∉ t)
    (hfuel : t.length < fuel) :
    Parses (csvRowParseLoop sep fuel st) (out ++ parsed sep st.inQuota st.escape t) [] := by
  induction t generalizing st out fuel with
  | nil =>
    obtain ⟨fuel, rfl⟩ : ∃ n, fuel = n + 1 := ⟨fuel - 1, by simp at hfuel; omega⟩
    obtain ⟨u, hu⟩ := h.unread
    have hget : st.buff[st.s]? = some 0 := by
      rw [← head?_drop, hu]
      rfl
    simpa [csvRowParseLoop, hget, parsed] using h
  | cons c t ih =>
    obtain ⟨fuel, rfl⟩ : ∃ n, fuel = n + 1 := ⟨fuel - 1, by simp at hfuel; omega⟩
    obtain ⟨u, hu⟩ := h.unread
    have hget : st.buff[st.s]? = some c := by
      rw [← head?_drop, hu]
      rfl
    have hc : c ≠ 0 := fun h0 => ht (h0 ▸ mem_cons_self)
    obtain ⟨w, hw, hparsed⟩ := h.char sep
    rw [csvRowParseLoop, hget, hparsed, ← append_assoc]
    simp only [hc, if_false]
    exact ih hw (fun h0 => ht (mem_cons_of_mem _ h0)) (Nat.lt_of_succ_lt_succ hfuel)

theorem csvRowParse_take (sep : UInt8) (ht : (0 : UInt8) ∉ t) :
    (csvRowParse (t ++ [0]) sep).buff.take (csvRowParse (t ++ [0]) sep).size =
      parsed sep false false t ++ [0] ∧
    (csvRowParse (t ++ [0]) sep).size = (parsed sep false false t).length + 1 := by
  have hstart : Parses ⟨t ++ [0], 0, 0, false, false⟩ [] t := ⟨Nat.le_refl _, rfl, [], rfl⟩
  have hend := csvRowParseLoop_parses sep hstart ht
    (show t.length < (t ++ [0]).length by simp)
  have hinside := hend.inside
  have hbehind := hend.behind
  have hwritten := hend.written
  rw [nil_append] at hwritten
  have hlen := congrArg List.length hwritten
  rw [length_take, Nat.min_eq_left (by omega)] at hlen
  refine ⟨?_, congrArg (· + 1) hlen⟩
  rw [← hwritten]
  exact put_take (by omega) 0

end Parse

/-! ## The line of a row -/

/-- The text of a row without its end of line. -/
def rowLine (cells : List Str) (sep : UInt8) : Str :=
  (cells.flatMap fun p => csvColToStr p sep ++ [sep]).dropLast

section Line

variable {sep c : UInt8} {p t : Str} {cells : List Str}

theorem csvRowToStr_eq (row : CsvRow) (sep : UInt8) :
    csvRowToStr row sep = rowLine (csvRowCells row) sep ++ [('\r' : UInt8), ('\n' : UInt8)] := rfl

theorem rowLine_singleton (p : Str) (sep : UInt8) : rowLine [p] sep = csvColToStr p sep := by
  simp [rowLine]

theorem rowLine_cons (p q : Str) (cells : List Str) (sep : UInt8) :
    rowLine (p :: q :: cells) sep = csvColToStr p sep ++ sep :: rowLine (q :: cells) sep := by
  have hne : ((q :: cells).flatMap fun p => csvColToStr p sep ++ [sep]) ≠ [] := by simp
  rw [rowLine, flatMap_cons, dropLast_append_of_ne_nil hne, append_assoc]
  rfl

theorem mem_escaped (h : c ∈ escaped p) : c ∈ p ∨ c = '\\' := by
  induction p with
  | nil => cases h
  | cons a p ih =>
    rw [escaped] at h
    split at h
    · rcases mem_cons.mp h with rfl | h
      · exact .inr rfl
      rcases mem_cons.mp h with rfl | h
      · exact .inl mem_cons_self
      · exact (ih h).imp_left (mem_cons_of_mem _)
    · rcases mem_cons.mp h with rfl | h
      · exact .inl mem_cons_self
      · exact (ih h).imp_left (mem_cons_of_mem _)

theorem mem_csvColToStr (h : c ∈ csvColToStr p sep) : c ∈ p ∨ c = '\\' ∨ c = '"' := by
  rw [csvColToStr] at h
  split at h
  · rcases mem_cons.mp h with rfl | h
    · exact .inr (.inr rfl)
    rcases mem_append.mp h with h | h
    · exact (mem_escaped h).imp_right .inl
    · exact .inr (.inr (mem_singleton.mp h))
  · exact .inl h

theorem mem_rowLine (h : c ∈ rowLine cells sep) :
    (∃ p ∈ cells, c ∈ p) ∨ c = '\\' ∨ c = '"' ∨ (c = sep ∧ 2 ≤ cells.length) := by
  have hcol {p : Str} (hp : p ∈ cells) (h : c ∈ csvColToStr p sep) :
      (∃ p ∈ cells, c ∈ p) ∨ c = '\\' ∨ c = '"' ∨ (c = sep ∧ 2 ≤ cells.length) := by
    rcases mem_csvColToStr h with h | h | h
    · exact .inl ⟨p, hp, h⟩
    · exact .inr (.inl h)
    · exact .inr (.inr (.inl h))
  match cells with
  | [] => cases h
  | [p] =>
    rw [rowLine_singleton] at h
    exact hcol mem_cons_self h
  | p :: q :: cells =>
    obtain ⟨r, hr, h⟩ := mem_flatMap.mp (dropLast_subset _ h)
    rcases mem_append.mp h with h | h
    · exact hcol hr h
    · exact .inr (.inr (.inr ⟨mem_singleton.mp h, by simp⟩))

theorem rowLine_ne_nil (sep : UInt8) (hne : cells ≠ []) (hempty : cells ≠ [[]]) : rowLine cells sep ≠ [] := by
  match cells with
  | [] => exact absurd rfl hne
  | [p] =>
    rw [rowLine_singleton, csvColToStr]
    split
    · simp
    · rintro rfl
      exact hempty rfl
  | p :: q :: cells => simp [rowLine_cons]

/-! ## Parsing a line -/

theorem parsed_escaped (sep : UInt8) (p t : Str) :
    parsed sep true false (escaped p ++ t) = p ++ parsed sep true false t := by
  induction p with
  | nil => rfl
  | cons c p ih =>
    have hslash : ('\\' : UInt8) ≠ '"' := by decide
    rw [escaped]
    split
    · simp [parsed, ih, hslash]
    · next h =>
      rw [not_or] at h
      simp [parsed, h, ih]

theorem parsed_plain (hsep : sep ∉ p) (hquote : ('"' : UInt8) ∉ p) :
    parsed sep false false (p ++ t) = p ++ parsed sep false false t := by
  induction p with
  | nil => rfl
  | cons c p ih =>
    rw [mem_cons, not_or] at hsep hquote
    simp [parsed, Ne.symm hsep.1, Ne.symm hquote.1, ih hsep.2 hquote.2]

theorem parsed_csvColToStr (hquote : sep ≠ '"') (p t : Str) :
    parsed sep false false (csvColToStr p sep ++ t) = p ++ parsed sep false false t := by
  rw [csvColToStr]
  split
  · have hopen : parsed sep false false (('"' : UInt8) :: (escaped p ++ [('"' : UInt8)] ++ t)) =
        parsed sep true false (escaped p ++ (('"' : UInt8) :: t)) := by
      simp [parsed, Ne.symm hquote]
    rw [cons_append, hopen, parsed_escaped]
    simp [parsed]
  · next h =>
    rw [Bool.or_eq_true, not_or] at h
    simp only [strchr, Bool.or_eq_true, decide_eq_true_eq, contains_iff_mem, not_or] at h
    exact parsed_plain h.1.2 h.2.2

theorem parsed_rowLine (hquote : sep ≠ '"') (hne : cells ≠ []) :
    parsed sep false false (rowLine cells sep) ++ [0] = pack cells := by
  induction cells with
  | nil => exact absurd rfl hne
  | cons p cells ih =>
    cases cells with
    | nil =>
      have h := parsed_csvColToStr hquote p []
      rw [append_nil] at h
      rw [rowLine_singleton, h]
      simp [parsed, pack]
    | cons q cells =>
      rw [rowLine_cons, parsed_csvColToStr hquote, parsed, if_pos rfl, pack_cons, ← ih (by simp)]
      simp

theorem csvRowCells_csvRowParse (hquote : sep ≠ '"') (hne : cells ≠ [])
    (hcells : ∀ p ∈ cells, (0 : UInt8) ∉ p) (hline : (0 : UInt8) ∉ rowLine cells sep) :
    csvRowCells (csvRowParse (rowLine cells sep ++ [0]) sep) = cells := by
  obtain ⟨htake, hsize⟩ := csvRowParse_take sep hline
  rw [parsed_rowLine hquote hne] at htake
  refine csvRowCells_pack hcells htake ?_
  rw [hsize, ← parsed_rowLine hquote hne, length_append, length_singleton]

end Line

/-! ## Reading the lines -/

namespace IStreamMem

/-- What is still to be read. -/
def rest (input : IStreamMem) : List UInt8 := input.buff.drop input.cursor

section Reads

variable {input : IStreamMem} {l t str : List UInt8} {e : UInt8} {fuel : Nat}

theorem eos_iff : input.eos = true ↔ input.rest = [] := by
  simp [eos, rest]

theorem not_eos (h : input.rest ≠ []) : input.eos = false := by
  rw [← Bool.not_eq_true, eos_iff]
  exact h

theorem read_eq {n : Nat} (h : input.rest.take n = l) :
    input.read n = (l, { input with cursor := input.cursor + l.length }) := by
  rw [read, ← rest, h]

theorem takeWhile_line (hl : ∀ c ∈ l, isEndLine c = false) (he : isEndLine e = true)
    (t : List UInt8) : (l ++ e :: t).takeWhile (fun c => !isEndLine c) = l := by
  rw [takeWhile_append_of_pos fun c hc => by simp [hl c hc],
    takeWhile_cons_of_neg (by simp [he]), append_nil]

theorem readLineStrLoop_piece (fuel : Nat) (str : Str) (hl : ∀ c ∈ l, isEndLine c = false) (hlen : l.length = 63)
    (hrest : input.rest = l ++ t) :
    readLineStrLoop (fuel + 1) input str =
      readLineStrLoop fuel { input with cursor := input.cursor + 63 } (str ++ l) := by
  have hne : input.rest ≠ [] := by
    rintro h
    rw [h, eq_comm, append_eq_nil_iff] at hrest
    rw [hrest.1] at hlen
    cases hlen
  have hpiece : input.rest.take 63 = l := by rw [hrest, take_left' hlen]
  have hwhile : l.takeWhile (fun c => !isEndLine c) = l := by
    rw [takeWhile_eq_self_iff]
    exact fun c hc => by simp [hl c hc]
  rw [readLineStrLoop, not_eos hne, read_eq hpiece]
  simp only [hwhile, Bool.false_eq_true, if_false, if_true, hlen]
  rw [take_of_length_le hlen.le]

/-- A piece with an end of line is the last one, and the stream stands behind the end of line as
far as it was read. -/
theorem readLineStrLoop_end (fuel : Nat) (str : Str) (hl : ∀ c ∈ l, isEndLine c = false) (he : isEndLine e = true)
    (hlen : l.length < 63) (hrest : input.rest = l ++ e :: t) :
    readLineStrLoop (fuel + 1) input str = (str ++ l,
      { input with
        cursor := input.cursor + skipEndLine (l ++ e :: t.take (62 - l.length)) l.length }) := by
  have hne : input.rest ≠ [] := by simp [hrest]
  obtain ⟨k, hk⟩ : ∃ k, 63 - l.length = k + 1 := ⟨62 - l.length, by omega⟩
  have hk' : 62 - l.length = k := by omega
  have hpiece : input.rest.take 63 = l ++ e :: t.take k := by
    rw [hrest, take_append, take_of_length_le (by omega), hk, take_succ_cons]
  have hbuff : input.cursor + (l ++ e :: t).length = input.buff.length := by
    rw [← hrest, rest, length_drop]
    have : ¬ input.buff.length ≤ input.cursor := by
      simpa [eos] using not_eos hne
    omega
  have hskip : skipEndLine (l ++ e :: t.take k) l.length ≤ (l ++ e :: t.take k).length := by
    rw [skipEndLine]
    split
    · split
      · next h => exact List.getElem?_eq_some_iff.mp h |>.1
      · simp
    · simp
  rw [readLineStrLoop, not_eos hne, hk', read_eq hpiece]
  simp only [takeWhile_line hl he, Bool.false_eq_true, if_false]
  rw [if_neg (by simp), take_left]
  split
  · rw [seek, if_pos]
    · congr 2
      omega
    · simp only [length_append, length_cons, length_take] at hbuff hskip ⊢
      omega
  · congr 2
    omega

/-- A line that is saved is read again.  Its line feed may be left. -/
theorem readLineStrLoop_line (str : Str) (hl : ∀ c ∈ l, isEndLine c = false)
    (hrest : input.rest = l ++ ('\r' : UInt8) :: ('\n' : UInt8) :: t) (hfuel : l.length < fuel) :
    ∃ input', readLineStrLoop fuel input str = (str ++ l, input') ∧
      input'.buff = input.buff ∧ (input'.rest = t ∨ input'.rest = ('\n' : UInt8) :: t) := by
  induction fuel generalizing input l str with
  | zero => exact absurd hfuel (Nat.not_lt_zero _)
  | succ fuel ih =>
    rcases Nat.lt_or_ge l.length 63 with hlen | hlen
    · refine ⟨_, readLineStrLoop_end fuel str hl (by decide) hlen hrest, rfl, ?_⟩
      have hdrop (n : Nat) : input.buff.drop (input.cursor + (l.length + n)) =
          (('\r' : UInt8) :: ('\n' : UInt8) :: t).drop n := by
        rw [← drop_drop, ← drop_drop, ← rest, hrest, drop_left]
      rcases Nat.lt_or_ge l.length 62 with hlast | hlast
      · left
        obtain ⟨k, hk⟩ : ∃ k, 62 - l.length = k + 1 := ⟨61 - l.length, by omega⟩
        simpa [skipEndLine, hk, rest] using hdrop 2
      · right
        have hk : 62 - l.length = 0 := by omega
        simpa [skipEndLine, hk, rest] using hdrop 1
    · have hl' : ∀ c ∈ l.take 63, isEndLine c = false := fun c hc => hl c (mem_of_mem_take hc)
      have hpiece := readLineStrLoop_piece fuel str hl'
        (by rw [length_take]; omega)
        (by rw [hrest, ← append_assoc, take_append_drop])
      have hrest' : ({ input with cursor := input.cursor + 63 } : IStreamMem).rest =
          l.drop 63 ++ ('\r' : UInt8) :: ('\n' : UInt8) :: t := by
        rw [rest, ← drop_drop, ← rest, hrest, drop_append_of_le_length hlen]
      obtain ⟨input', hrun, hbuff, hleft⟩ := ih (str ++ l.take 63)
        (fun c hc => hl c (mem_of_mem_drop hc)) hrest' (by rw [length_drop]; omega)
      refine ⟨input', ?_, hbuff, hleft⟩
      rw [hpiece, hrun, append_assoc, take_append_drop]

theorem readLineStr_line (hl : ∀ c ∈ l, isEndLine c = false)
    (hrest : input.rest = l ++ ('\r' : UInt8) :: ('\n' : UInt8) :: t) :
    ∃ input', input.readLineStr = some (l, input') ∧
      (input'.rest = t ∨ input'.rest = ('\n' : UInt8) :: t) := by
  have hlen : input.rest.length ≤ input.buff.length := by
    rw [rest, length_drop]
    omega
  rw [hrest] at hlen
  simp only [length_append, length_cons] at hlen
  obtain ⟨input', hrun, -, hleft⟩ :=
    readLineStrLoop_line [] hl hrest (show l.length < input.buff.length by omega)
  refine ⟨input', ?_, hleft⟩
  rw [readLineStr, not_eos (by simp [hrest]), hrun]
  rfl

theorem readLineStr_left (hrest : input.rest = ('\n' : UInt8) :: t) :
    ∃ input', input.readLineStr = some ([], input') ∧ input'.rest = t := by
  have hlen : input.rest.length ≤ input.buff.length := by
    rw [rest, length_drop]
    omega
  rw [hrest, length_cons] at hlen
  obtain ⟨fuel, hfuel⟩ : ∃ n, input.buff.length = n + 1 := ⟨input.buff.length - 1, by omega⟩
  have hrun := readLineStrLoop_end fuel [] (fun c hc => absurd hc not_mem_nil)
    (show isEndLine '\n' = true by decide) (by simp) (show input.rest = [] ++ _ from hrest)
  have hskip (t : List UInt8) : skipEndLine (('\n' : UInt8) :: t) 0 = 1 := by
    rw [skipEndLine, if_neg (by simp; decide)]
  simp only [nil_append, length_nil, hskip] at hrun
  refine ⟨{ input with cursor := input.cursor + 1 }, ?_, ?_⟩
  · rw [readLineStr, not_eos (by simp [hrest]), hfuel, hrun]
    rfl
  · rw [rest, ← drop_drop, ← rest, hrest]
    rfl

theorem readLineStr_eos (hrest : input.rest = []) : input.readLineStr = none := by
  rw [readLineStr, eos_iff.mpr hrest]
  rfl

end Reads

end IStreamMem

/-! ## Loading -/

/-- What the saver needs of the cells of a row. -/
structure Savable (sep : UInt8) (cells : List Str) : Prop where
  nonempty : cells ≠ []
  notEmptyCell : cells ≠ [[]]
  noEndLine : ∀ p ∈ cells, ∀ c ∈ p, c ≠ '\r' ∧ c ≠ '\n'
  noNulSep : sep = 0 → cells.length = 1

section Load

variable {sep : UInt8} {cells : List Str} {table : List (List Str)}

theorem Savable.line_noNul (h : Savable sep cells) (hcells : ∀ p ∈ cells, (0 : UInt8) ∉ p) :
    (0 : UInt8) ∉ rowLine cells sep := by
  intro h0
  rcases mem_rowLine h0 with ⟨p, hp, h0⟩ | h0 | h0 | ⟨h0, hlen⟩
  · exact hcells p hp h0
  · exact absurd h0 (by decide)
  · exact absurd h0 (by decide)
  · have := h.noNulSep h0.symm
    omega

theorem Savable.line_noEndLine (h : Savable sep cells) (hcr : sep ≠ '\r') (hlf : sep ≠ '\n') :
    ∀ c ∈ rowLine cells sep, IStreamMem.isEndLine c = false := by
  intro c hc
  rcases mem_rowLine hc with ⟨p, hp, hc⟩ | rfl | rfl | ⟨rfl, -⟩
  · simp [IStreamMem.isEndLine, h.noEndLine p hp c hc]
  · decide
  · decide
  · simp [IStreamMem.isEndLine, hcr, hlf]

theorem lineText_line (h : Savable sep cells) (hcells : ∀ p ∈ cells, (0 : UInt8) ∉ p)
    {first : Bool} (hbom : first = true → ¬ utf8Bom <+: rowLine cells sep) :
    lineText first (rowLine cells sep) = rowLine cells sep := by
  have hnot : ¬ (first = true ∧ (rowLine cells sep).take 3 = utf8Bom) :=
    fun ⟨hfirst, htake⟩ => hbom hfirst (htake ▸ take_prefix 3 _)
  rw [lineText]
  simp only [hnot, if_false]
  cases hline : rowLine cells sep with
  | nil => rfl
  | cons c t =>
    have hc : c ≠ 0 := by
      rintro rfl
      exact h.line_noNul hcells (hline ▸ mem_cons_self)
    rw [dropWhile_cons_of_neg (by simpa using hc)]

/-- The bytes of a table. -/
def tableText (table : List (List Str)) (sep : UInt8) : List UInt8 :=
  table.flatMap fun cells => rowLine cells sep ++ [('\r' : UInt8), ('\n' : UInt8)]

/-- The loop reads the lines of a table, also behind a line feed that was left. -/
theorem csvFileLoadLines_table {csv : CsvFile} {input : IStreamMem} {fuel index : Nat}
    (hfilter : csv.filter = none) (hquote : csv.sep ≠ '"') (hcr : csv.sep ≠ '\r')
    (hlf : csv.sep ≠ '\n') (hsave : ∀ cells ∈ table, Savable csv.sep cells)
    (hcells : ∀ cells ∈ table, ∀ p ∈ cells, (0 : UInt8) ∉ p)
    (hbom : csv.rows = [] → ∀ cells, table.head? = some cells → ¬ utf8Bom <+: rowLine cells csv.sep)
    (hrest : input.rest = tableText table csv.sep ∨
      input.rest = ('\n' : UInt8) :: tableText table csv.sep)
    (hfuel : input.rest.length < fuel) :
    (csvFileLoadLines fuel csv input index).rows.map csvRowCells =
      csv.rows.map csvRowCells ++ table := by
  induction fuel generalizing csv input index table with
  | zero => exact absurd hfuel (Nat.not_lt_zero _)
  | succ fuel ih =>
    rcases hrest with hrest | hrest
    · cases table with
      | nil => simp [csvFileLoadLines, IStreamMem.readLineStr_eos hrest]
      | cons cells table =>
        have hthis := hsave cells mem_cons_self
        have hnul := hcells cells mem_cons_self
        have hline : input.rest = rowLine cells csv.sep ++ ('\r' : UInt8) :: ('\n' : UInt8) ::
            tableText table csv.sep := by
          rw [hrest, tableText, flatMap_cons, append_assoc]
          rfl
        obtain ⟨input', hread, hleft⟩ :=
          IStreamMem.readLineStr_line (hthis.line_noEndLine hcr hlf) hline
        have htext : lineText csv.rows.isEmpty (rowLine cells csv.sep) = rowLine cells csv.sep :=
          lineText_line hthis hnul fun hfirst => hbom (by simpa using hfirst) cells rfl
        have hne := rowLine_ne_nil csv.sep hthis.nonempty hthis.notEmptyCell
        have hrow : csvRowCells (csvRowOfText (rowLine cells csv.sep) csv.sep) = cells := by
          rw [csvRowOfText, takeWhile_eq_self_iff.mpr]
          · exact csvRowCells_csvRowParse hquote hthis.nonempty hnul (hthis.line_noNul hnul)
          · intro c hc
            simpa using fun h0 : c = 0 => hthis.line_noNul hnul (h0 ▸ hc)
        have hless : input'.rest.length < fuel := by
          rw [hline] at hfuel
          rcases hleft with hleft | hleft <;>
          · simp only [hleft, length_append, length_cons] at hfuel ⊢
            omega
        have hnext : (csvFileLoadLines fuel
            { csv with rows := csv.rows ++ [csvRowOfText (rowLine cells csv.sep) csv.sep] } input'
            (index + 1)).rows.map csvRowCells = _ ++ table :=
          ih hfilter hquote hcr hlf (fun cells h => hsave cells (mem_cons_of_mem _ h))
            (fun cells h => hcells cells (mem_cons_of_mem _ h)) (fun h => absurd h (by simp))
            hleft hless
        rw [csvFileLoadLines, hread]
        simp only [htext, hne, if_false, hfilter]
        rw [hfilter] at hnext
        rw [hnext]
        simp [hrow]
    · obtain ⟨input', hread, hleft⟩ := IStreamMem.readLineStr_left hrest
      have htext : lineText csv.rows.isEmpty [] = [] := by
        rw [lineText, if_neg]
        · rfl
        · exact fun h => absurd h.2 (by decide)
      rw [csvFileLoadLines, hread]
      simp only [htext, if_true]
      refine ih hfilter hquote hcr hlf hsave hcells hbom (.inl hleft) ?_
      rw [hleft]
      rw [hrest, length_cons] at hfuel
      exact Nat.lt_of_succ_lt_succ hfuel

theorem csvFileSetCols_rows (csv : CsvFile) : (csvFileSetCols csv).rows = csv.rows := by
  rw [csvFileSetCols]
  split
  · rfl
  · simp only
    split <;> simp [*]

theorem csvFileSaveToBuff_eq (csv : CsvFile) :
    csvFileSaveToBuff csv = tableText (csv.rows.map csvRowCells) csv.sep := by
  rw [csvFileSaveToBuff, tableText, flatMap_map]
  rfl

end Load

/-- What is saved is loaded with the same cells, where no line is taken for an empty one and the
first one does not start with a byte order mark. -/
theorem csvFileLoadBuff_saveToBuff (src dst : CsvFile) (hsep : dst.sep = src.sep)
    (hfilter : dst.filter = none) (hempty : src.rows = [] → dst.rows = [])
    (hquote : src.sep ≠ '"') (hcr : src.sep ≠ '\r') (hlf : src.sep ≠ '\n')
    (hsave : ∀ r ∈ src.rows, Savable src.sep (csvRowCells r))
    (hbom : ∀ r, src.rows.head? = some r → ¬ utf8Bom <+: csvRowToStr r src.sep) :
    (csvFileLoadBuff dst (csvFileSaveToBuff src)).1.rows.map csvRowCells =
      src.rows.map csvRowCells := by
  rw [csvFileLoadBuff]
  split
  · next h =>
    cases hrows : src.rows with
    | nil => rw [hempty hrows]
    | cons r rows => simp [csvFileSaveToBuff, hrows, csvRowToStr] at h
  · rw [csvFileLoadInput, csvFileSetCols_rows]
    have htable : ∀ cells ∈ src.rows.map csvRowCells, ∃ r ∈ src.rows, csvRowCells r = cells :=
      fun cells => List.mem_map.mp
    refine csvFileLoadLines_table hfilter (hsep ▸ hquote) (hsep ▸ hcr) (hsep ▸ hlf) ?_ ?_ ?_
      (.inl ?_) ?_
    · rintro cells hcells
      obtain ⟨r, hr, rfl⟩ := htable cells hcells
      exact hsep ▸ hsave r hr
    · rintro cells hcells
      obtain ⟨r, hr, rfl⟩ := htable cells hcells
      exact csvRowCells_noNul r
    · rintro - cells hcells hprefix
      rw [head?_map, map_eq_some_iff] at hcells
      obtain ⟨r, hr, rfl⟩ := hcells
      refine hbom r hr ?_
      rw [csvRowToStr_eq, ← hsep]
      exact hprefix.trans (prefix_append _ _)
    · rw [csvFileSaveToBuff_eq, hsep]
      rfl
    · simp [IStreamMem.rest]

/-- A file with the rows of a table. -/
def fileOf (sep : UInt8) (table : List (List Str)) : CsvFile :=
  { csvFileCreateEmpty sep none with
    rows := table.map fun cells => ⟨pack cells, (pack cells).length⟩ }

/-- Quotes, backslashes and separators at the ends of cells, and empty cells. -/
def sampleTable : List (List Str) :=
  [[[97], [98, 44, 34, 92, 99, 92]], [[], [92, 44], [34]], [[], []]]

theorem csvFileLoadBuff_saveToBuff_sample :
    (csvFileLoadBuff (csvFileCreateEmpty ',' none)
      (csvFileSaveToBuff (fileOf ',' sampleTable))).1.rows.map csvRowCells =
      (fileOf ',' sampleTable).rows.map csvRowCells := by
  have hrows : (fileOf ',' sampleTable).rows.map csvRowCells = sampleTable := by decide +kernel
  have hsave : ∀ cells ∈ sampleTable, Savable ',' cells := by
    intro cells hcells
    simp only [sampleTable, mem_cons, not_mem_nil, or_false] at hcells
    rcases hcells with rfl | rfl | rfl <;>
    exact ⟨by decide, by decide, by decide, by decide⟩
  refine csvFileLoadBuff_saveToBuff (fileOf ',' sampleTable) (csvFileCreateEmpty ',' none) rfl rfl
    (fun _ => rfl) (by decide) (by decide) (by decide) (fun r hr => hsave _ ?_) ?_
  · rw [← hrows]
    exact List.mem_map_of_mem hr
  · intro r hr
    obtain rfl := some_inj.mp hr
    decide +kernel

/-- With a separator that is the first byte of a byte order mark, a line starts with the mark where
no cell does.  A NUL as separator ends the line, a row without cells has an empty line, and no
bytes leave the rows of the file as they are. -/
theorem csvFile_not_roundTrips :
    (¬ ∀ (sep : UInt8) (table : List (List Str)), sep ≠ '"' → sep ≠ '\\' → sep ≠ '\r' → sep ≠ '\n' →
      (∀ cells ∈ table, cells ≠ [] ∧ cells ≠ [[]] ∧
        ∀ p ∈ cells, ∀ c ∈ p, c ≠ 0 ∧ c ≠ '\r' ∧ c ≠ '\n') →
      (∀ cells p, table.head? = some cells → cells.head? = some p → ¬ utf8Bom <+: p) →
      (csvFileLoadBuff (csvFileCreateEmpty sep none)
        (csvFileSaveToBuff (fileOf sep table))).1.rows.map csvRowCells = table) ∧
    (csvFileLoadBuff (csvFileCreateEmpty 0 none)
      (csvFileSaveToBuff (fileOf 0 [[[97], [98]]]))).1.rows.map csvRowCells = [[[97]]] ∧
    (csvFileLoadBuff (csvFileCreateEmpty ',' none)
      (csvFileSaveToBuff (fileOf ',' [[]]))).1.rows = [] ∧
    (csvFileLoadBuff (fileOf ',' [[[97]]]) (csvFileSaveToBuff (fileOf ',' []))).1.rows.map
      csvRowCells = [[[97]]] := by
  refine ⟨fun h => ?_, by decide +kernel, by decide +kernel, by decide +kernel⟩
  have hload := h 0xEF [[[], [0xBB, 0xBF]]] (by decide) (by decide) (by decide) (by decide)
    (by simp; decide)
    (by rintro _ _ ⟨⟩ ⟨⟩; decide)
  revert hload
  decide +kernel

end Awtk.Csv
