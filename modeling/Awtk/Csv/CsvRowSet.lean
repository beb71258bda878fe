import Awtk.Csv.CsvRoundTrip
import Awtk.Lib.Block

/-!
# Setting a cell

`csv_row_set` writes a value over a cell: in place where it is as long, in place and with a move
of the cells behind it where it is shorter, and in a new buffer where it is longer.  The last case
resets the row, and its mark is lost (`csvRowSet_iff`).
-/

namespace Awtk.Csv

open List Option

/-! ## Rows with all their fields -/

/-- `csv_row_t`, with the two bits that the cells do not depend on.  `size` has 30 bits. -/
structure CsvRowT extends CsvRow where
  checked : Bool
  shouldFreeBuff : Bool
  deriving DecidableEq, Repr

/-- The conversion to an `uint32_t`. -/
def wrap32 (n : Int) : Nat := (n % 2 ^ 32).toNat

/-- The conversion to the type of `size`. -/
def sizeBits (n : Nat) : Nat := n % 2 ^ 30

/-- The walk of `csv_row_get`, from an offset and the column of its cell. -/
def csvRowGetFrom (row : CsvRow) (col : Nat) : Nat → Nat → Nat → Option Nat
  | 0, _, _ => none
  | fuel + 1, i, c =>
    if i < row.size then
      if c = col then some i
      else csvRowGetFrom row col fuel (i + (cstrAt row.buff i).length + 1) (c + 1)
    else none

/-- `csv_row_get`, as an offset of the buffer. -/
def csvRowGetAt (row : CsvRow) (col : Nat) : Option Nat := csvRowGetFrom row col row.size 0 0

/-- `csv_row_set`.  The allocation is granted or not, and there is no result where a copy is not
inside its buffers. -/
def csvRowSet (granted : Bool) (row : CsvRowT) (col : Nat) (value : Str) :
    Option (Ret × CsvRowT) :=
  match csvRowGetAt row.toCsvRow col with
  | none => some (.badParams, row)
  | some p => do
    let oldLen := wrap32 (cstrAt row.buff p).length
    let newLen := wrap32 value.length
    if oldLen = newLen then
      let buff ← Block.write row.buff p (value ++ [0])
      return (.ok, { row with buff := buff })
    else if newLen < oldLen then
      let len := wrap32 (row.size - (p + oldLen))
      let buff ← Block.write row.buff p (value ++ [0])
      let moved ← Block.read buff (p + oldLen) len
      let buff ← Block.write buff (p + newLen) moved
      return (.ok, { row with buff := buff, size := sizeBits (wrap32 (row.size + newLen - oldLen)) })
    else
      let len := wrap32 (row.size + newLen - oldLen)
      if granted then
        let front ← Block.read row.buff 0 p
        let buff ← Block.write (List.replicate len 0) 0 front
        let buff ← Block.write buff p ((value ++ [0]).take (newLen + 1))
        let s := p + oldLen + 1
        let behind ← Block.read row.buff s (wrap32 (row.size - s))
        let buff ← Block.write buff (p + newLen + 1) behind
        return (.ok, ⟨⟨buff, sizeBits len⟩, false, true⟩)
      else return (.oom, row)

/-- `csv_row_set_data`, where the copy of the text is granted.  Loading makes its rows in the same
way. -/
def csvRowSetData (text : Str) (sep : UInt8) : CsvRowT :=
  let row := csvRowParse (text.takeWhile (· ≠ 0) ++ [0]) sep
  ⟨⟨row.buff, sizeBits row.size⟩, false, true⟩

/-! ## What is wanted of a call -/

/-- A column reads back as a value, and nothing else is changed.  The size is that of the cells
with their NULs. -/
structure Updated (row : CsvRowT) (col : Nat) (value : Str) (row' : CsvRowT) : Prop where
  get : csvRowGet row'.toCsvRow col = some value
  others : ∀ c, c ≠ col → csvRowGet row'.toCsvRow c = csvRowGet row.toCsvRow c
  cols : csvRowCountCols row'.toCsvRow = csvRowCountCols row.toCsvRow
  checked : row'.checked = row.checked
  size : row'.size = ((csvRowCells row'.toCsvRow).map fun p => p.length + 1).sum

/-- A call does what is wanted. -/
def Sets (granted : Bool) (row : CsvRowT) (col : Nat) (value : Str) : Prop :=
  ∃ ret row', csvRowSet granted row col value = some (ret, row') ∧ Updated row col value row'

/-- The size field has room for the row with the value in place of a cell. -/
def Fits (row : CsvRowT) (value cell : Str) : Prop :=
  row.size + value.length < 2 ^ 30 + cell.length

/-- The rows that parsing, setting and checking make, as long as the sizes fit. -/
inductive Made : CsvRowT → Prop where
  | data {text : Str} (sep : UInt8) : text.length + 1 < 2 ^ 30 → Made (csvRowSetData text sep)
  | set {granted : Bool} {row row' : CsvRowT} {col : Nat} {value : Str} {ret : Ret} :
      Made row → (0 : UInt8) ∉ value →
      (∀ cell ∈ csvRowGet row.toCsvRow col, Fits row value cell) →
      csvRowSet granted row col value = some (ret, row') → Made row'
  | check {row : CsvRowT} (checked : Bool) : Made row → Made { row with checked := checked }

/-- The buffer is the cells with their NULs. -/
structure CsvRowT.Wf (row : CsvRowT) : Prop where
  content : row.buff.take row.size = pack (csvRowCells row.toCsvRow)
  size_eq : row.size = (pack (csvRowCells row.toCsvRow)).length
  small : row.size < 2 ^ 30

/-! ## Cells and their places -/

/-- A buffer starts with some cells, and they make up the size. -/
structure Packs (row : CsvRow) (cells : List Str) (rest : List UInt8) : Prop where
  noNul : ∀ p ∈ cells, (0 : UInt8) ∉ p
  buff : row.buff = pack cells ++ rest
  size : row.size = (pack cells).length

theorem pack_append (s t : List Str) : pack (s ++ t) = pack s ++ pack t := by
  simp [pack]

theorem length_pack (cells : List Str) :
    (pack cells).length = (cells.map fun p => p.length + 1).sum := by
  simp [pack, length_flatMap]

theorem Packs.cells {row : CsvRow} {cells : List Str} {rest : List UInt8}
    (h : Packs row cells rest) : csvRowCells row = cells := by
  refine csvRowCells_pack h.noNul ?_ h.size
  rw [h.buff, h.size, take_left]

theorem Packs.wf {row : CsvRowT} {cells : List Str} {rest : List UInt8}
    (h : Packs row.toCsvRow cells rest) (hsmall : row.size < 2 ^ 30) : row.Wf := by
  refine ⟨?_, ?_, hsmall⟩
  · rw [h.cells, h.buff, h.size, take_left]
  · rw [h.cells, h.size]

theorem CsvRowT.Wf.packs {row : CsvRowT} (h : row.Wf) :
    Packs row.toCsvRow (csvRowCells row.toCsvRow) (row.buff.drop row.size) := by
  refine ⟨csvRowCells_noNul _, ?_, h.size_eq⟩
  rw [← h.content, take_append_drop]

theorem csvRowGetFrom_cell (row : CsvRow) (k : Nat) :
    ∀ fuel i c, (csvRowGetFrom row (c + k) fuel i c).map (cstrAt row.buff) =
      (csvRowCellsFrom row fuel i)[k]?
  | 0, _, _ => rfl
  | fuel + 1, i, c => by
    rw [csvRowGetFrom, csvRowCellsFrom]
    split
    · cases k with
      | zero => simp
      | succ k =>
          have hc : c ≠ c + (k + 1) := by omega
          have hcol : c + (k + 1) = c + 1 + k := by omega
          rw [if_neg hc, hcol, csvRowGetFrom_cell row k fuel]
          simp
    · rfl

theorem csvRowGetAt_cell (row : CsvRow) (col : Nat) :
    (csvRowGetAt row col).map (cstrAt row.buff) = csvRowGet row col := by
  have h := csvRowGetFrom_cell row col row.size 0 0
  rwa [Nat.zero_add] at h

theorem csvRowGetFrom_pack {row : CsvRow} {pre : List Str} {t : List UInt8}
    {fuel i c : Nat} (hpre : ∀ p ∈ pre, (0 : UInt8) ∉ p)
    (hbuff : row.buff.drop i = pack pre ++ t) (hsize : i + (pack pre).length < row.size)
    (hfuel : (pack pre).length < fuel) :
    csvRowGetFrom row (c + pre.length) fuel i c = some (i + (pack pre).length) := by
  induction pre generalizing fuel i c with
  | nil =>
    obtain ⟨fuel, rfl⟩ : ∃ n, fuel = n + 1 := ⟨fuel - 1, by omega⟩
    have hi : i < row.size := by omega
    simp [csvRowGetFrom, hi, pack]
  | cons p pre ih =>
    rw [pack_cons] at hbuff hsize hfuel ⊢
    simp only [length_append, length_cons] at hsize hfuel ⊢
    have hp : cstrAt row.buff i = p := by
      rw [cstrAt, hbuff, append_assoc, cons_append]
      exact takeWhile_ne_zero (hpre p mem_cons_self) _
    have hrest : row.buff.drop (i + p.length + 1) = pack pre ++ t := by
      rw [Nat.add_assoc, ← drop_drop, hbuff]
      simp
    obtain ⟨fuel, rfl⟩ : ∃ n, fuel = n + 1 := ⟨fuel - 1, by omega⟩
    have hi : i < row.size := by omega
    have hc : c ≠ c + (pre.length + 1) := by omega
    have hcol : c + (pre.length + 1) = c + 1 + pre.length := by omega
    have hoff : i + (p.length + ((pack pre).length + 1)) = i + p.length + 1 + (pack pre).length := by
      omega
    rw [csvRowGetFrom, if_pos hi, if_neg hc, hp, hcol, hoff]
    exact ih (fun q hq => hpre q (mem_cons_of_mem _ hq)) hrest (by omega) (by omega)

/-! ## The three cases -/

theorem wrap32_of_eq {n : Int} {m : Nat} (h : n = m) (hm : m < 2 ^ 32) : wrap32 n = m := by
  subst h
  rw [wrap32]
  omega

theorem sizeBits_of_lt {n : Nat} (h : n < 2 ^ 30) : sizeBits n = n := Nat.mod_eq_of_lt h

section Cases

variable {row : CsvRowT} {pre post : List Str} {cell value : Str}
  {rest : List UInt8}

/-- Where a cell stands in its row. -/
theorem Packs.at (h : Packs row.toCsvRow (pre ++ cell :: post) rest) :
    row.buff = pack pre ++ (cell ++ 0 :: (pack post ++ rest)) ∧
      row.size = (pack pre).length + cell.length + 1 + (pack post).length ∧
      cstrAt row.buff (pack pre).length = cell ∧
      csvRowGetAt row.toCsvRow pre.length = some (pack pre).length := by
  have hbuff : row.buff = pack pre ++ (cell ++ 0 :: (pack post ++ rest)) := by
    rw [h.buff, pack_append, pack_cons]
    simp
  have hsize : row.size = (pack pre).length + cell.length + 1 + (pack post).length := by
    rw [h.size, pack_append, pack_cons]
    simp
    omega
  refine ⟨hbuff, hsize, ?_, ?_⟩
  · rw [cstrAt, hbuff, drop_left]
    exact takeWhile_ne_zero (h.noNul cell (by simp)) _
  · have hget : csvRowGetFrom row.toCsvRow (0 + pre.length) row.size 0 0 =
        some (0 + (pack pre).length) :=
      csvRowGetFrom_pack (fun p hp => h.noNul p (by simp [hp])) hbuff (by omega) (by omega)
    simpa [csvRowGetAt] using hget

theorem Packs.replace {row' : CsvRow} {rest' : List UInt8}
    (h : Packs row.toCsvRow (pre ++ cell :: post) rest) (hvalue : (0 : UInt8) ∉ value)
    (hbuff : row'.buff = pack pre ++ (value ++ 0 :: (pack post ++ rest')))
    (hsize : row'.size = (pack pre).length + value.length + 1 + (pack post).length) :
    Packs row' (pre ++ value :: post) rest' := by
  refine ⟨?_, ?_, ?_⟩
  · intro p hp
    rcases mem_append.mp hp with hp | hp
    · exact h.noNul p (by simp [hp])
    · rcases mem_cons.mp hp with rfl | hp
      · exact hvalue
      · exact h.noNul p (by simp [hp])
  · rw [hbuff, pack_append, pack_cons]
    simp
  · rw [hsize, pack_append, pack_cons]
    simp
    omega

theorem csvRowSet_same (granted : Bool) (h : Packs row.toCsvRow (pre ++ cell :: post) rest)
    (hsmall : row.size < 2 ^ 30) (hvalue : (0 : UInt8) ∉ value)
    (hlen : value.length = cell.length) :
    ∃ row', csvRowSet granted row pre.length value = some (.ok, row') ∧
      Packs row'.toCsvRow (pre ++ value :: post) rest ∧ row'.checked = row.checked := by
  obtain ⟨hbuff, hsize, hcell, hget⟩ := h.at
  have hwrite : Block.write row.buff (pack pre).length (value ++ [0]) =
      some (pack pre ++ ((value ++ [0]) ++ (pack post ++ rest))) := by
    have hparts : row.buff = pack pre ++ ((cell ++ [0]) ++ (pack post ++ rest)) := by
      rw [hbuff]
      simp
    rw [hparts]
    exact Block.write_eq rfl (by simp [hlen])
  have hold : wrap32 cell.length = cell.length := wrap32_of_eq rfl (by omega)
  refine ⟨{ row with buff := pack pre ++ ((value ++ [0]) ++ (pack post ++ rest)) }, ?_, ?_, rfl⟩
  · simp only [csvRowSet, hget, hcell, hlen, hold, if_true, hwrite]
    rfl
  · exact h.replace hvalue (by simp) (by rw [hsize, hlen])

/-- A shorter value is written over the cell, and what stands behind the cell is moved. -/
theorem csvRowSet_shorter (granted : Bool) (h : Packs row.toCsvRow (pre ++ cell :: post) rest)
    (hsmall : row.size < 2 ^ 30) (hvalue : (0 : UInt8) ∉ value)
    (hlen : value.length < cell.length) :
    ∃ row' rest', csvRowSet granted row pre.length value = some (.ok, row') ∧
      Packs row'.toCsvRow (pre ++ value :: post) rest' ∧ row'.checked = row.checked := by
  obtain ⟨hbuff, hsize, hcell, hget⟩ := h.at
  obtain ⟨c₁, c₂, rfl, hc₁⟩ : ∃ c₁ c₂, cell = c₁ ++ c₂ ∧ c₁.length = value.length + 1 :=
    ⟨_, _, (take_append_drop (value.length + 1) cell).symm, length_take_of_le hlen⟩
  have hwrite : Block.write row.buff (pack pre).length (value ++ [0]) =
      some (pack pre ++ ((value ++ [0]) ++ (c₂ ++ 0 :: (pack post ++ rest)))) := by
    rw [hbuff, append_assoc c₁]
    exact Block.write_eq rfl (by simp [hc₁])
  have hread : Block.read (pack pre ++ ((value ++ [0]) ++ (c₂ ++ 0 :: (pack post ++ rest))))
      ((pack pre).length + (c₁ ++ c₂).length) ((pack post).length + 1) =
      some (0 :: pack post) := by
    have hparts : pack pre ++ ((value ++ [0]) ++ (c₂ ++ 0 :: (pack post ++ rest))) =
        (pack pre ++ ((value ++ [0]) ++ c₂)) ++ ((0 :: pack post) ++ rest) := by simp
    rw [hparts]
    exact Block.read_eq (by simp; omega) (by simp)
  let moved := (c₂ ++ 0 :: (pack post ++ rest)).drop (pack post).length
  have hmove : Block.write (pack pre ++ ((value ++ [0]) ++ (c₂ ++ 0 :: (pack post ++ rest))))
      ((pack pre).length + value.length) (0 :: pack post) =
      some (pack pre ++ (value ++ 0 :: (pack post ++ moved))) := by
    have hat : Block.write ((pack pre ++ value) ++ 0 :: (c₂ ++ 0 :: (pack post ++ rest)))
        ((pack pre).length + value.length) (0 :: pack post) = _ :=
      Block.write_at (by simp) (by simp; omega)
    simpa [moved] using hat
  have hold : wrap32 (c₁ ++ c₂).length = (c₁ ++ c₂).length := wrap32_of_eq rfl (by omega)
  have hnew : wrap32 value.length = value.length := wrap32_of_eq rfl (by omega)
  have hcount : wrap32 (row.size - ((pack pre).length + (c₁ ++ c₂).length)) =
      (pack post).length + 1 := wrap32_of_eq (by omega) (by omega)
  have hbits : sizeBits (wrap32 (row.size + value.length - (c₁ ++ c₂).length)) =
      (pack pre).length + value.length + 1 + (pack post).length := by
    rw [wrap32_of_eq (m := (pack pre).length + value.length + 1 + (pack post).length)
      (by omega) (by omega)]
    exact sizeBits_of_lt (by omega)
  refine ⟨⟨⟨pack pre ++ (value ++ 0 :: (pack post ++ moved)),
    (pack pre).length + value.length + 1 + (pack post).length⟩, row.checked, row.shouldFreeBuff⟩,
    moved, ?_, h.replace hvalue rfl rfl, rfl⟩
  rw [csvRowSet, hget]
  simp only [hcell, hold, hnew, Nat.ne_of_gt hlen, hlen, if_true, if_false]
  rw [hwrite]
  simp only [bind_eq_bind, bind_some, hcount, hread, hmove, hbits]
  rfl

/-- A longer value gets a buffer of its own, and the mark of the row is lost. -/
theorem csvRowSet_longer (h : Packs row.toCsvRow (pre ++ cell :: post) rest)
    (hsmall : row.size < 2 ^ 30) (hvalue : (0 : UInt8) ∉ value)
    (hlen : cell.length < value.length) (hfits : Fits row value cell) :
    ∃ row' rest', csvRowSet true row pre.length value = some (.ok, row') ∧
      Packs row'.toCsvRow (pre ++ value :: post) rest' ∧ row'.checked = false := by
  obtain ⟨hbuff, hsize, hcell, hget⟩ := h.at
  rw [Fits] at hfits
  let len := (pack pre).length + value.length + 1 + (pack post).length
  have hlen32 : wrap32 (row.size + value.length - cell.length) = len :=
    wrap32_of_eq (by omega) (by omega)
  have hold : wrap32 cell.length = cell.length := wrap32_of_eq rfl (by omega)
  have hnew : wrap32 value.length = value.length := wrap32_of_eq rfl (by omega)
  have hcount : wrap32 (row.size - ((pack pre).length + cell.length + 1 : Nat)) =
      (pack post).length := wrap32_of_eq (by omega) (by omega)
  have hfront : Block.read row.buff 0 (pack pre).length = some (pack pre) := by
    rw [hbuff, Block.read_zero (Nat.le_refl _), take_length]
  have hbehind : Block.read row.buff ((pack pre).length + cell.length + 1) (pack post).length =
      some (pack post) := by
    have hparts : row.buff = (pack pre ++ (cell ++ [0])) ++ (pack post ++ rest) := by
      rw [hbuff]
      simp
    rw [hparts]
    exact Block.read_eq (by simp; omega) rfl
  -- the new buffer is written from its start to its end
  let zeros := List.replicate len (0 : UInt8)
  let zeros₁ := zeros.drop (pack pre).length
  let zeros₂ := zeros₁.drop (value ++ [0]).length
  have hwrite₁ : Block.write zeros 0 (pack pre) = some (pack pre ++ zeros₁) :=
    Block.write_at (x := []) rfl (by simp [len]; omega)
  have hwrite₂ : Block.write (pack pre ++ zeros₁) (pack pre).length (value ++ [0]) =
      some (pack pre ++ ((value ++ [0]) ++ zeros₂)) :=
    Block.write_at rfl (by simp [zeros₁, zeros, len]; omega)
  have hwrite₃ : Block.write (pack pre ++ ((value ++ [0]) ++ zeros₂))
      ((pack pre).length + value.length + 1) (pack post) =
      some (pack pre ++ (value ++ 0 :: (pack post ++ zeros₂.drop (pack post).length))) := by
    have hat : Block.write ((pack pre ++ (value ++ [0])) ++ zeros₂)
        ((pack pre).length + value.length + 1) (pack post) = _ :=
      Block.write_at (by simp; omega) (by simp [zeros₂, zeros₁, zeros, len]; omega)
    simpa using hat
  have htake : (value ++ [0]).take (value.length + 1) = value ++ [0] :=
    take_of_length_le (by simp)
  refine ⟨⟨⟨pack pre ++ (value ++ 0 :: (pack post ++ zeros₂.drop (pack post).length)), len⟩,
    false, true⟩, _, ?_, h.replace hvalue rfl rfl, rfl⟩
  have hbits : sizeBits len = len := sizeBits_of_lt (by omega)
  rw [csvRowSet, hget]
  simp only [hcell, hold, hnew, Nat.ne_of_lt hlen, Nat.not_lt.mpr (Nat.le_of_lt hlen), if_true,
    if_false, hlen32, hfront, hcount, hbehind, bind_eq_bind, bind_some]
  rw [hwrite₁, bind_some, htake, hwrite₂, bind_some, hwrite₃, hbits]
  rfl

theorem csvRowSet_refused (h : Packs row.toCsvRow (pre ++ cell :: post) rest)
    (hsmall : row.size < 2 ^ 30) (hlen : cell.length < value.length)
    (hfits : Fits row value cell) :
    csvRowSet false row pre.length value = some (.oom, row) := by
  obtain ⟨hbuff, hsize, hcell, hget⟩ := h.at
  rw [Fits] at hfits
  have hold : wrap32 cell.length = cell.length := wrap32_of_eq rfl (by omega)
  have hnew : wrap32 value.length = value.length := wrap32_of_eq rfl (by omega)
  rw [csvRowSet, hget]
  simp only [hcell, hold, hnew, Nat.ne_of_lt hlen, Nat.not_lt.mpr (Nat.le_of_lt hlen), if_false]
  rfl

end Cases

/-! ## The rows that are made -/

theorem exists_pack : ∀ l : List UInt8, ∃ cells, l ++ [0] = pack cells ∧
    ∀ p ∈ cells, (0 : UInt8) ∉ p
  | [] => ⟨[[]], rfl, by simp⟩
  | c :: l => by
    obtain ⟨cells, hcells, hnul⟩ := exists_pack l
    cases cells with
    | nil => simp [pack] at hcells
    | cons p cells =>
        rcases eq_or_ne c 0 with rfl | hc
        · exact ⟨[] :: p :: cells, by rw [cons_append, hcells]; rfl, by simpa using hnul⟩
        · refine ⟨(c :: p) :: cells, ?_, ?_⟩
          · rw [cons_append, hcells, pack_cons, pack_cons]
            rfl
          · simpa [Ne.symm hc] using hnul

theorem length_parsed_le (sep : UInt8) (inQuota escape : Bool) (t : Str) :
    (parsed sep inQuota escape t).length ≤ t.length := by
  fun_induction parsed sep inQuota escape t
  all_goals simp only [length_nil, length_cons] at *
  all_goals omega

theorem csvRowSetData_wf (sep : UInt8) {text : Str} (htext : text.length + 1 < 2 ^ 30) :
    (csvRowSetData text sep).Wf := by
  have ht : (0 : UInt8) ∉ text.takeWhile (· ≠ 0) := by
    intro h
    simpa using mem_takeWhile_imp h
  obtain ⟨htake, hsize⟩ := csvRowParse_take sep ht
  obtain ⟨cells, hcells, hnul⟩ := exists_pack (parsed sep false false (text.takeWhile (· ≠ 0)))
  have hle := length_parsed_le sep false false (text.takeWhile (· ≠ 0))
  have htext' := ( takeWhile_prefix (l := text) (· ≠ 0)).length_le
  have hbits : sizeBits (csvRowParse (text.takeWhile (· ≠ 0) ++ [0]) sep).size =
      (csvRowParse (text.takeWhile (· ≠ 0) ++ [0]) sep).size := sizeBits_of_lt (by omega)
  have hpacks : Packs (csvRowSetData text sep).toCsvRow cells
      ((csvRowSetData text sep).buff.drop (csvRowSetData text sep).size) := by
    refine ⟨hnul, ?_, ?_⟩
    · rw [← hcells, ← htake]
      simp only [csvRowSetData, hbits]
      exact (take_append_drop _ _).symm
    · rw [← hcells, length_append]
      exact hbits.trans hsize
  refine hpacks.wf ?_
  simp only [csvRowSetData, hbits]
  omega

theorem csvRowSet_small {granted : Bool} {row row' : CsvRowT} {col : Nat} {value : Str} {ret : Ret}
    (h : csvRowSet granted row col value = some (ret, row')) (hsmall : row.size < 2 ^ 30) :
    row'.size < 2 ^ 30 := by
  have hbits : ∀ n, sizeBits n < 2 ^ 30 := fun n => Nat.mod_lt _ (by decide)
  rw [csvRowSet] at h
  cases hget : csvRowGetAt row.toCsvRow col with
  | none =>
    rw [hget] at h
    cases h
    exact hsmall
  | some p =>
    rw [hget] at h
    simp only [bind_eq_bind] at h
    split at h
    · obtain ⟨buff, -, h⟩ := bind_eq_some_iff.mp h
      cases h
      exact hsmall
    split at h
    · obtain ⟨buff, -, h⟩ := bind_eq_some_iff.mp h
      obtain ⟨moved, -, h⟩ := bind_eq_some_iff.mp h
      obtain ⟨buff', -, h⟩ := bind_eq_some_iff.mp h
      cases h
      exact hbits _
    split at h
    · obtain ⟨front, -, h⟩ := bind_eq_some_iff.mp h
      obtain ⟨buff₁, -, h⟩ := bind_eq_some_iff.mp h
      obtain ⟨buff₂, -, h⟩ := bind_eq_some_iff.mp h
      obtain ⟨behind, -, h⟩ := bind_eq_some_iff.mp h
      obtain ⟨buff₃, -, h⟩ := bind_eq_some_iff.mp h
      cases h
      exact hbits _
    · cases h
      exact hsmall

/-! ## Calls -/

section Calls

variable {granted : Bool} {row : CsvRowT} {col : Nat} {cell value : Str}

/-- The cells around a column. -/
theorem CsvRowT.Wf.split (h : row.Wf) (hcell : csvRowGet row.toCsvRow col = some cell) :
    ∃ pre post rest, Packs row.toCsvRow (pre ++ cell :: post) rest ∧ pre.length = col := by
  obtain ⟨hlt, hcell⟩ := List.getElem?_eq_some_iff.mp hcell
  refine ⟨(csvRowCells row.toCsvRow).take col, (csvRowCells row.toCsvRow).drop (col + 1),
    row.buff.drop row.size, ?_, length_take_of_le (Nat.le_of_lt hlt)⟩
  rw [← hcell, getElem_cons_drop, take_append_drop]
  exact h.packs

/-- The result of a call on a column that exists. -/
theorem CsvRowT.Wf.call (h : row.Wf) (granted : Bool) (hcell : csvRowGet row.toCsvRow col = some cell)
    (hvalue : (0 : UInt8) ∉ value) (hfits : Fits row value cell) :
    (∃ ret row' rest, csvRowSet granted row col value = some (ret, row') ∧
      Packs row'.toCsvRow ((csvRowCells row.toCsvRow).set col value) rest ∧
      row'.checked = (row.checked && decide (value.length ≤ cell.length)) ∧
      (granted = true ∨ value.length ≤ cell.length)) ∨
    (csvRowSet granted row col value = some (.oom, row) ∧ granted = false ∧
      cell.length < value.length) := by
  obtain ⟨pre, post, rest, hpacks, rfl⟩ := h.split hcell
  have hset : (csvRowCells row.toCsvRow).set pre.length value = pre ++ value :: post := by
    rw [hpacks.cells]
    simp
  rw [hset]
  rcases Nat.lt_trichotomy value.length cell.length with hlt | heq | hgt
  · obtain ⟨row', rest', hcall, hpacks', hchecked⟩ :=
      csvRowSet_shorter granted hpacks h.small hvalue hlt
    exact .inl ⟨.ok, row', rest', hcall, hpacks', by simp [hchecked, Nat.le_of_lt hlt],
      .inr (Nat.le_of_lt hlt)⟩
  · obtain ⟨row', hcall, hpacks', hchecked⟩ :=
      csvRowSet_same granted hpacks h.small hvalue heq
    exact .inl ⟨.ok, row', rest, hcall, hpacks', by simp [hchecked, heq], .inr (Nat.le_of_eq heq)⟩
  · cases granted with
    | true =>
        obtain ⟨row', rest', hcall, hpacks', hchecked⟩ :=
          csvRowSet_longer hpacks h.small hvalue hgt hfits
        exact .inl ⟨.ok, row', rest', hcall, hpacks', by simp [hchecked, hgt], .inl rfl⟩
    | false => exact .inr ⟨csvRowSet_refused hpacks h.small hgt hfits, rfl, hgt⟩

theorem updated_iff {row' : CsvRowT} (hcell : csvRowGet row.toCsvRow col = some cell) :
    Updated row col value row' ↔
      csvRowCells row'.toCsvRow = (csvRowCells row.toCsvRow).set col value ∧
        row'.checked = row.checked ∧
        row'.size = (pack ((csvRowCells row.toCsvRow).set col value)).length := by
  have hcol : col < (csvRowCells row.toCsvRow).length := (List.getElem?_eq_some_iff.mp hcell).1
  constructor
  · intro h
    have hcells : csvRowCells row'.toCsvRow = (csvRowCells row.toCsvRow).set col value := by
      apply ext_getElem?
      intro c
      rcases eq_or_ne c col with rfl | hc
      · rw [getElem?_set_self hcol]
        exact h.get
      · rw [getElem?_set_ne hc.symm]
        exact h.others c hc
    exact ⟨hcells, h.checked, by rw [length_pack, ← hcells]; exact h.size⟩
  · rintro ⟨hcells, hchecked, hsize⟩
    refine ⟨?_, ?_, ?_, hchecked, ?_⟩
    · rw [csvRowGet, hcells, getElem?_set_self hcol]
    · intro c hc
      rw [csvRowGet, hcells, getElem?_set_ne hc.symm]
      rfl
    · rw [csvRowCountCols, hcells, length_set]
      rfl
    · rw [hsize, length_pack, hcells]

theorem CsvRowT.Wf.size_set (h : row.Wf) (hcell : csvRowGet row.toCsvRow col = some cell)
    (value : Str) : (pack ((csvRowCells row.toCsvRow).set col value)).length + cell.length =
      row.size + value.length := by
  obtain ⟨pre, post, rest, hpacks, rfl⟩ := h.split hcell
  rw [hpacks.cells, hpacks.size]
  simp [pack_append, pack_cons]
  omega

theorem csvRowSet_wf {row' : CsvRowT} {ret : Ret} (h : row.Wf) (hvalue : (0 : UInt8) ∉ value)
    (hfits : ∀ cell ∈ csvRowGet row.toCsvRow col, Fits row value cell)
    (hcall : csvRowSet granted row col value = some (ret, row')) : row'.Wf := by
  cases hcell : csvRowGet row.toCsvRow col with
  | none =>
    have hget : csvRowGetAt row.toCsvRow col = none := by
      rwa [← csvRowGetAt_cell, map_eq_none_iff] at hcell
    rw [csvRowSet, hget] at hcall
    cases hcall
    exact h
  | some cell =>
    rcases h.call granted hcell hvalue (hfits cell hcell) with
      ⟨_, _, rest, hcall', hpacks, -⟩ | ⟨hcall', -⟩
    · rw [hcall'] at hcall
      cases hcall
      exact hpacks.wf (csvRowSet_small hcall' h.small)
    · rw [hcall'] at hcall
      cases hcall
      exact h

theorem Made.wf (h : Made row) : row.Wf := by
  induction h with
  | data sep htext => exact csvRowSetData_wf sep htext
  | set _ hvalue hfits hcall ih => exact csvRowSet_wf ih hvalue hfits hcall
  | check _ _ ih => exact ⟨ih.content, ih.size_eq, ih.small⟩

end Calls

/-- Setting a cell does what is wanted exactly when the value is not longer than the cell, or when
there is memory for the longer row, its size has room for it and the row is not checked. -/
theorem csvRowSet_iff (granted : Bool) (row : CsvRowT) :
    (Made row → row.Wf) ∧
      ∀ (col : Nat) (cell value : Str), row.Wf →
        csvRowGet row.toCsvRow col = some cell → (0 : UInt8) ∉ value →
        (Sets granted row col value ↔ value.length ≤ cell.length ∨
          granted = true ∧ row.checked = false ∧ Fits row value cell) := by
  refine ⟨fun h => h.wf, fun col cell value h hcell hvalue => ?_⟩
  have hsize := h.size_set hcell value
  have hsmall := h.small
  constructor
  · rintro ⟨ret, row', hcall, hupdated⟩
    rw [updated_iff hcell] at hupdated
    obtain ⟨hcells, hchecked, hsize'⟩ := hupdated
    -- the size of a row that is set is always small
    have hfits : Fits row value cell := by
      have := csvRowSet_small hcall hsmall
      rw [Fits]
      omega
    rcases h.call granted hcell hvalue hfits with
      ⟨_, _, _, hcall', -, hmark, hgranted⟩ | ⟨hcall', -, hlonger⟩
    · rw [hcall'] at hcall
      cases hcall
      rcases Nat.lt_or_ge cell.length value.length with hlt | hle
      · refine .inr ⟨hgranted.resolve_right (Nat.not_le.mpr hlt), ?_, hfits⟩
        simpa [Nat.not_le.mpr hlt, hchecked] using hmark
      · exact .inl hle
    · rw [hcall'] at hcall
      cases hcall
      omega
  · intro hwhen
    have hfits : Fits row value cell := by
      rcases hwhen with hle | ⟨-, -, hfits⟩
      · rw [Fits]
        omega
      · exact hfits
    rcases h.call granted hcell hvalue hfits with
      ⟨ret, row', rest, hcall, hpacks, hmark, -⟩ | ⟨-, hrefused, hlonger⟩
    · refine ⟨ret, row', hcall, (updated_iff hcell).mpr ⟨hpacks.cells, ?_, hpacks.size⟩⟩
      rw [hmark]
      rcases hwhen with hle | ⟨-, hchecked, -⟩
      · simp [hle]
      · simp [hchecked]
    · rcases hwhen with hle | ⟨hgranted, -⟩
      · omega
      · rw [hgranted] at hrefused
        cases hrefused

/-- The row of `a,b`, checked. -/
def checkedRow : CsvRowT :=
  { csvRowSetData [('a' : UInt8), (',' : UInt8), ('b' : UInt8)] ',' with checked := true }

theorem checkedRow_made : Made checkedRow := .check true (.data _ (by decide))

/-- `csvRowSet_iff` on a checked row and a value of the same length. -/
theorem csvRowSet_iff_checkedRow : Sets true checkedRow 1 [('c' : UInt8)] :=
  ((csvRowSet_iff true checkedRow).2 1 [('b' : UInt8)] [('c' : UInt8)]
    checkedRow_made.wf (by decide) (by decide)).mpr (.inl (by decide))

/-- A longer value takes the mark of the row away. -/
theorem csvRowSet_unchecks :
    Made checkedRow ∧ csvRowGet checkedRow.toCsvRow 0 = some [('a' : UInt8)] ∧
      ¬Sets true checkedRow 0 [('x' : UInt8), ('y' : UInt8)] := by
  have hcall : (csvRowSet true checkedRow 0 [('x' : UInt8), ('y' : UInt8)]).map
      (fun result => result.2.checked) = some false := by decide
  refine ⟨checkedRow_made, by decide, ?_⟩
  rintro ⟨ret, row', hset, hupdated⟩
  have hchecked := hupdated.checked
  rw [hset, map_some, some.injEq] at hcall
  rw [hcall] at hchecked
  cases hchecked

end Awtk.Csv
