import Awtk.Lib.Run
import Awtk.Tkc.Types

/-!
# Read-only files in memory

`rom_file_t` reads a block of memory, and a file of `romfs` reads a part of its body.  Both are
compared with a file that is its contents and a position (`ReadOnly.Lawful`).  `rom_fseek` looks at
`offset` where it should look at `whence`, and neither file keeps its position inside its contents,
so a read behind the end goes outside them.
-/

namespace Awtk

open List Option

/-- `memcpy` of so many bytes from a place of the contents, or `none` outside them. -/
def peek (data : List UInt8) (offset nr : Int) : Option (List UInt8) :=
  if nr = 0 then some []
  else if 0 ≤ offset ∧ 0 < nr ∧ offset + nr ≤ data.length then
    some ((data.drop offset.toNat).take nr.toNat)
  else none

/-! ## A read-only file -/

namespace ReadOnly

/-- A call.  A seek has the position that the C convention gives. -/
inductive Request where
  | read (size nitems : Nat)
  | seek (target : Int)
  | tell
  | eof

inductive Answer where
  | bytes (l : List UInt8) (count : Int)
  | done (ok : Bool)
  | position (p : Int)
  | flag (b : Bool)
  deriving DecidableEq

/-- What a call answers at a position, and the position behind it. -/
def Lawful (content : List UInt8) (p : Int) : Request → Answer → Int → Prop
  | .read size nitems, .bytes l count, p' =>
    l = (content.drop p.toNat).take (size * nitems) ∧ count = (l.length / size : Nat) ∧
      p' = p + l.length
  | .seek target, .done ok, p' => if ok then 0 ≤ target ∧ p' = target else p' = p
  | .tell, .position q, p' => q = p ∧ p' = p
  | .eof, .flag b, p' => (b = true ↔ (content.length : Int) ≤ p) ∧ p' = p
  | _, _, _ => False

end ReadOnly

open ReadOnly

/-! ## `rom_fs.c` -/

/-- `rom_file_t`.  The `capacity` is the length of the data. -/
structure RomFile where
  data : List UInt8
  cursor : UInt32
  length_lt : data.length < 2 ^ 32

namespace RomFile

inductive Whence where
  | set
  | cur
  | «end»
  deriving DecidableEq

/-- The number that the constant stands for. -/
def Whence.toNat : Whence → Nat
  | .set => 0
  | .cur => 1
  | .end => 2

inductive Op where
  | read (size nitems : Nat)
  | seek (offset : Int) (whence : Whence)
  | tell
  | eof

variable (f : RomFile)

def romFopenBuff (data : List UInt8) (h : data.length < 2 ^ 32) : RomFile := ⟨data, 0, h⟩

def romFread (size nitems : Nat) : Option (Answer × RomFile) :=
  let nr := size * nitems % 2 ^ 64
  if size = 0 then some (.bytes [] 0, f)
  else
    let nr := min nr (U32.sub f.data.length f.cursor.toNat)
    (peek f.data f.cursor.toNat nr).map fun l =>
      (.bytes l (nr / size : Nat), { f with cursor := f.cursor + UInt32.ofNat nr })

/-- `rom_fseek`: the `switch` is over the offset. -/
def romFseek (offset : Int) (whence : Whence) : Answer × RomFile :=
  if offset = Whence.set.toNat then
    (.done true, { f with cursor := UInt32.ofNat whence.toNat })
  else
    let f :=
      if offset = Whence.end.toNat then { f with cursor := UInt32.ofNat f.data.length } else f
    (.done true, { f with cursor := f.cursor + UInt32.ofNat whence.toNat })

/-- A call, with `rom_ftell` and `rom_feof`. -/
def call : Op → Option (Answer × RomFile)
  | .read size nitems => f.romFread size nitems
  | .seek offset whence => some (f.romFseek offset whence)
  | .tell => some (.position f.cursor.toNat, f)
  | .eof => some (.flag (decide (f.data.length ≤ f.cursor.toNat)), f)

def next (op : Op) : Option RomFile := (f.call op).map Prod.snd

/-- The call of a read-only file. -/
def request : Op → Request
  | .read size nitems => .read size nitems
  | .seek offset .set => .seek offset
  | .seek offset .cur => .seek (f.cursor.toNat + offset)
  | .seek offset .end => .seek (f.data.length + offset)
  | .tell => .tell
  | .eof => .eof

/-- A call does what it does to a read-only file with these contents. -/
def Lawful (op : Op) : Prop :=
  ∃ answer f', f.call op = some (answer, f') ∧ f'.data = f.data ∧
    ReadOnly.Lawful f.data f.cursor.toNat (f.request op) answer f'.cursor.toNat

/-- A seek gets the right position although offset and whence are exchanged. -/
def SeekRight (offset : Int) : Whence → Prop
  | .set => offset = 0 ∨ offset = 2 ∧ f.data.length = 2 ∨ offset ≠ 2 ∧ offset = f.cursor.toNat
  | .cur =>
    offset = 0 ∧ f.cursor.toNat = 1 ∨
    offset = 2 ∧ f.cursor.toNat + 2 = (f.data.length + 1) % 2 ^ 32 ∨
    offset ≠ 0 ∧ offset ≠ 2 ∧ f.cursor.toNat + offset = ((f.cursor.toNat + 1) % 2 ^ 32 : Nat)
  | .end =>
    offset = 0 ∧ f.data.length = 2 ∨ offset = 2 ∧ f.data.length + 2 < 2 ^ 32 ∨
    offset ≠ 0 ∧ offset ≠ 2 ∧ f.data.length + offset = ((f.cursor.toNat + 2) % 2 ^ 32 : Nat)

/-- When a call is right: a read is not behind the end, and the bytes that are asked for, modulo
`2 ^ 64`, are those or reach the end. -/
def Right : Op → Prop
  | .read size nitems =>
    (f.cursor.toNat ≤ f.data.length ∨ size * nitems % 2 ^ 64 = 0) ∧
      (size * nitems < 2 ^ 64 ∨ f.data.length - f.cursor.toNat ≤ size * nitems % 2 ^ 64)
  | .seek offset whence => f.SeekRight offset whence
  | .tell | .eof => True

end RomFile

/-! ## `romfs.c` -/

/-- `romfs_file_t`.  The `size` is the length of the data. -/
structure RomfsFile where
  data : List UInt8
  offset : Int32
  length_lt : data.length < 2 ^ 31

namespace RomfsFile

inductive Op where
  | read (size : UInt32)
  | seek (offset : Int32)
  | tell
  | eof

variable (fp : RomfsFile)

/-- The file that `romfs_file_create` makes. -/
def romfsFileCreate (data : List UInt8) (h : data.length < 2 ^ 31) : RomfsFile := ⟨data, 0, h⟩

/-- The `rsize` of `romfs_file_read`: the sum and the comparison are those of `uint32_t`. -/
def rsize (size : UInt32) : Int :=
  if ((fp.offset.toInt + size.toNat) % 2 ^ 32) ≤ fp.data.length then I32.ofU32 size.toNat
  else wrapI32 (fp.data.length - fp.offset.toInt)

def romfsFileRead (size : UInt32) : Option (Answer × RomfsFile) :=
  (peek fp.data fp.offset.toInt (fp.rsize size)).map fun l =>
    (.bytes l (fp.rsize size), { fp with offset := fp.offset + Int32.ofInt (fp.rsize size) })

/-- A call, with `romfs_file_seek`, `romfs_file_tell` and `romfs_file_eof`. -/
def call : Op → Option (Answer × RomfsFile)
  | .read size => fp.romfsFileRead size
  | .seek offset => some (.done true, { fp with offset })
  | .tell => some (.position fp.offset.toInt, fp)
  | .eof => some (.flag (decide ((fp.data.length : Int) ≤ fp.offset.toInt)), fp)

def next (op : Op) : Option RomfsFile := (fp.call op).map Prod.snd

/-- The call of a read-only file. -/
def request : Op → Request
  | .read size => .read 1 size.toNat
  | .seek offset => .seek offset.toInt
  | .tell => .tell
  | .eof => .eof

/-- A call does what it does to a read-only file with these contents. -/
def Lawful (op : Op) : Prop :=
  ∃ answer fp', fp.call op = some (answer, fp') ∧ fp'.data = fp.data ∧
    ReadOnly.Lawful fp.data fp.offset.toInt (request op) answer fp'.offset.toInt

/-- When a call is right. -/
def Right : Op → Prop
  | .read size =>
    0 ≤ fp.offset.toInt ∧ fp.offset.toInt ≤ fp.data.length ∧ fp.offset.toInt + size.toNat < 2 ^ 32
  | .seek offset => 0 ≤ offset.toInt
  | .tell | .eof => True

end RomfsFile

/-! ## Reads -/

variable {data : List UInt8} {offset nr : Int}

theorem peek_some {l : List UInt8} (h : peek data offset nr = some l) :
    nr = 0 ∧ l = [] ∨ 0 ≤ offset ∧ 0 < nr ∧ offset + nr ≤ data.length ∧
      l = (data.drop offset.toNat).take nr.toNat := by
  rw [peek] at h
  split_ifs at h with hzero hin
  · exact .inl ⟨hzero, (some.inj h).symm⟩
  · exact .inr ⟨hin.1, hin.2.1, hin.2.2, (some.inj h).symm⟩

theorem peek_eq (h0 : 0 ≤ offset) (hnr : 0 ≤ nr) (hle : offset + nr ≤ data.length) :
    peek data offset nr = some ((data.drop offset.toNat).take nr.toNat) := by
  rw [peek]
  split_ifs with hzero hin
  · simp [hzero]
  · rfl
  · omega

/-! ## The calls of `rom_file_t` -/

namespace RomFile

variable {f : RomFile}

theorem sub_cases {n pos : Nat} (hn : n < 2 ^ 32) (hpos : pos < 2 ^ 32) :
    pos ≤ n ∧ U32.sub n pos = n - pos ∨ n < pos ∧ 0 < U32.sub n pos := by
  rw [U32.sub]
  omega

theorem read_lawful_iff (size nitems : Nat) :
    f.Lawful (.read size nitems) ↔ f.Right (.read size nitems) := by
  have hn := f.length_lt
  have hpos := f.cursor.toNat_lt
  have hlen (k : Nat) : ((f.data.drop (f.cursor.toNat : Int).toNat).take k).length =
      min k (f.data.length - f.cursor.toNat) := by
    rw [length_take, length_drop, Int.toNat_natCast]
  have hsub := sub_cases hn hpos
  generalize hget : U32.sub f.data.length f.cursor.toNat = available at hsub
  rw [Right]
  constructor
  · rintro ⟨answer, f', hcall, -, hlaw⟩
    rw [call, romFread] at hcall
    by_cases hsize : size = 0
    · simp [hsize]
    rw [if_neg hsize, hget] at hcall
    obtain ⟨l, hl, heq⟩ := map_eq_some_iff.mp hcall
    cases heq
    have hlength := congrArg List.length hlaw.1
    rw [hlen] at hlength
    rcases peek_some hl with ⟨hzero, rfl⟩ | ⟨-, -, hle, rfl⟩
    · rw [length_nil] at hlength
      omega
    · rw [hlen] at hlength
      omega
  · rintro ⟨hbehind, hwrap⟩
    by_cases hsize : size = 0
    · have hcall : f.call (.read size nitems) = some (.bytes [] 0, f) := by
        rw [call, romFread, if_pos hsize]
      exact ⟨_, _, hcall, rfl, show _ ∧ _ ∧ _ by simp [hsize]⟩
    obtain ⟨nr, hnr⟩ : ∃ nr, nr = min (size * nitems % 2 ^ 64) available := ⟨_, rfl⟩
    have hmin : nr = min (size * nitems) (f.data.length - f.cursor.toNat) := by omega
    have hpeek : peek f.data f.cursor.toNat nr =
        some ((f.data.drop (f.cursor.toNat : Int).toNat).take (size * nitems)) := by
      by_cases hle : f.cursor.toNat ≤ f.data.length
      · rw [peek_eq (by omega) (by omega) (by omega)]
        congr 1
        rw [take_eq_take_iff, length_drop]
        omega
      · have hnil : f.data.drop (f.cursor.toNat : Int).toNat = [] :=
          drop_eq_nil_iff.mpr (by omega)
        rw [hnil, take_nil, peek, if_pos (by omega)]
    have hcall : f.call (.read size nitems) =
        some (.bytes ((f.data.drop (f.cursor.toNat : Int).toNat).take (size * nitems))
          (nr / size : Nat), { f with cursor := f.cursor + UInt32.ofNat nr }) := by
      rw [call, romFread, if_neg hsize]
      simp only [hget, ← hnr, hpeek, map_some]
    refine ⟨_, _, hcall, rfl, show _ ∧ _ ∧ _ from ⟨rfl, ?_, ?_⟩⟩
    · rw [hlen, ← hmin]
    · have hcursor : (f.cursor + UInt32.ofNat nr).toNat = f.cursor.toNat + nr := by
        rw [UInt32.toNat_add, UInt32.toNat_ofNat']
        omega
      rw [hlen, ← hmin]
      exact_mod_cast hcursor

theorem seek_cursor (offset : Int) (whence : Whence) :
    (f.romFseek offset whence).2.cursor.toNat =
      if offset = 0 then whence.toNat
      else if offset = 2 then (f.data.length + whence.toNat) % 2 ^ 32
      else (f.cursor.toNat + whence.toNat) % 2 ^ 32 := by
  have hn := f.length_lt
  have hwhence : whence.toNat < 2 ^ 32 := by cases whence <;> decide
  have hnat : (UInt32.ofNat whence.toNat).toNat = whence.toNat := UInt32.toNat_ofNat_of_lt' hwhence
  rw [romFseek, Whence.toNat, Whence.toNat]
  by_cases h0 : offset = 0
  · rw [if_pos h0, if_pos (by simpa using h0)]
    exact hnat
  · rw [if_neg h0, if_neg (by simpa using h0)]
    by_cases h2 : offset = 2
    · rw [if_pos h2, if_pos (by simpa using h2)]
      simp only [UInt32.toNat_add, hnat, UInt32.toNat_ofNat_of_lt' hn]
    · rw [if_neg h2, if_neg (by simpa using h2)]
      simp only [UInt32.toNat_add, hnat]

theorem seek_lawful_iff (offset : Int) (whence : Whence) :
    f.Lawful (.seek offset whence) ↔ f.Right (.seek offset whence) := by
  have hn := f.length_lt
  have hpos := f.cursor.toNat_lt
  have hcursor := seek_cursor (f := f) offset whence
  have hlaw (target : Int) (hreq : f.request (.seek offset whence) = .seek target) :
      f.Lawful (.seek offset whence) ↔
        ((f.romFseek offset whence).2.cursor.toNat : Int) = target := by
    have hdone : f.romFseek offset whence = (.done true, (f.romFseek offset whence).2) ∧
        (f.romFseek offset whence).2.data = f.data := by
      rw [romFseek]
      split_ifs
      all_goals exact ⟨rfl, rfl⟩
    constructor
    · rintro ⟨answer, f', hcall, -, h⟩
      rw [call, hdone.1] at hcall
      cases hcall
      rw [hreq] at h
      exact h.2
    · intro h
      refine ⟨_, _, by rw [call, hdone.1], hdone.2, ?_⟩
      rw [hreq]
      exact ⟨h ▸ Int.natCast_nonneg _, h⟩
  rw [Right]
  cases whence with
  | set =>
    rw [hlaw offset rfl, hcursor, SeekRight, Whence.toNat]
    split_ifs
    all_goals omega
  | cur =>
    rw [hlaw _ rfl, hcursor, SeekRight, Whence.toNat]
    split_ifs
    all_goals omega
  | «end» =>
    rw [hlaw _ rfl, hcursor, SeekRight, Whence.toNat]
    split_ifs
    all_goals omega

theorem lawful_iff (f : RomFile) (op : Op) : f.Lawful op ↔ f.Right op := by
  cases op with
  | read size nitems => exact read_lawful_iff size nitems
  | seek offset whence => exact seek_lawful_iff offset whence
  | tell => exact iff_of_true ⟨_, _, rfl, rfl, rfl, rfl⟩ trivial
  | eof => exact iff_of_true ⟨_, _, rfl, rfl, by simp, rfl⟩ trivial

end RomFile

/-! ## The calls of a file of `romfs` -/

namespace RomfsFile

variable {fp : RomfsFile}

theorem read_lawful_iff (size : UInt32) : fp.Lawful (.read size) ↔ fp.Right (.read size) := by
  have hn := fp.length_lt
  have hlo := fp.offset.le_toInt
  have hhi := fp.offset.toInt_lt
  have hsize := size.toNat_lt
  constructor
  · rintro ⟨answer, fp', hcall, -, -⟩
    obtain ⟨l, hl, -⟩ := map_eq_some_iff.mp hcall
    rw [Right]
    rcases peek_some hl with ⟨hzero, -⟩ | ⟨h0, hpos, hle, -⟩
    all_goals
      rw [rsize, I32.ofU32, wrapI32] at *
      split_ifs at *
      all_goals omega
  · rintro ⟨h0, hle, hsum⟩
    obtain ⟨nr, hnr⟩ : ∃ nr, nr = min size.toNat (fp.data.length - fp.offset.toInt.toNat) :=
      ⟨_, rfl⟩
    have hrsize : fp.rsize size = nr := by
      rw [rsize, I32.ofU32, wrapI32]
      split_ifs
      all_goals omega
    have hpeek : peek fp.data fp.offset.toInt nr =
        some ((fp.data.drop fp.offset.toInt.toNat).take (1 * size.toNat)) := by
      rw [peek_eq h0 (by omega) (by omega)]
      congr 1
      rw [take_eq_take_iff, length_drop]
      omega
    have hcall : fp.call (.read size) =
        some (.bytes ((fp.data.drop fp.offset.toInt.toNat).take (1 * size.toNat)) nr,
          { fp with offset := fp.offset + Int32.ofInt nr }) := by
      rw [call, romfsFileRead, hrsize, hpeek, map_some]
    have hlen : ((fp.data.drop fp.offset.toInt.toNat).take (1 * size.toNat)).length = nr := by
      rw [length_take, length_drop]
      omega
    refine ⟨_, _, hcall, rfl, show _ ∧ _ ∧ _ from ⟨rfl, ?_, ?_⟩⟩
    · rw [hlen, Nat.div_one]
    · rw [hlen, Int32.toInt_add, Int32.toInt_ofInt_of_le (by omega) (by omega), Int.bmod]
      split_ifs
      all_goals omega

theorem lawful_iff (fp : RomfsFile) (op : Op) : fp.Lawful op ↔ fp.Right op := by
  cases op with
  | read size => exact read_lawful_iff size
  | seek offset =>
    constructor
    · rintro ⟨answer, fp', hcall, -, h⟩
      cases hcall
      exact h.1
    · exact fun h => ⟨_, _, rfl, rfl, h, rfl⟩
  | tell => exact iff_of_true ⟨_, _, rfl, rfl, rfl, rfl⟩ trivial
  | eof => exact iff_of_true ⟨_, _, rfl, rfl, by simp, rfl⟩ trivial

end RomfsFile

/-! ## Runs -/

open Runs

/-- The calls of a run are those of a read-only file exactly if each is right. -/
theorem RomFs.files_iff (data : List UInt8) :
    (∀ h ops, Meets RomFile.next RomFile.Lawful (RomFile.romFopenBuff data h) ops ↔
      Meets RomFile.next RomFile.Right (RomFile.romFopenBuff data h) ops) ∧
    ∀ h ops, Meets RomfsFile.next RomfsFile.Lawful (RomfsFile.romfsFileCreate data h) ops ↔
      Meets RomfsFile.next RomfsFile.Right (RomfsFile.romfsFileCreate data h) ops := by
  constructor
  · intro h ops
    exact meets_congr (I := fun _ => True) (P := fun _ => True) (fun _ _ _ _ _ _ => trivial)
      (fun f op _ _ => RomFile.lawful_iff f op) trivial fun _ _ => trivial
  · intro h ops
    exact meets_congr (I := fun _ => True) (P := fun _ => True) (fun _ _ _ _ _ _ => trivial)
      (fun fp op _ _ => RomfsFile.lawful_iff fp op) trivial fun _ _ => trivial

/-- `rom_fseek(f, 1, SEEK_SET)` in a new file. -/
theorem RomFs.seek_stays : ¬ Meets RomFile.next RomFile.Lawful
    (RomFile.romFopenBuff [7, 8, 9] (by decide)) [.seek 1 .set] := by
  rintro ⟨⟨answer, f', hcall, -, h⟩, -⟩
  cases hcall
  exact absurd h.2 (by decide)

end Awtk
