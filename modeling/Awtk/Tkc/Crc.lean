import Mathlib
import Awtk.Tkc.Types

/-!
# Checksums

A model of the 16-bit frame check sequence of `crc.c`.  The lookup table is
generated from the reflected polynomial.  The length argument of `tk_crc16` is
an `int`: a negative one means that no byte is looked at.
-/

namespace Awtk

def crc16FcsPolyReflected : UInt16 := 0x8408

def pppInitFcs16 : UInt16 := 0xffff

/-- One step of the loop of `crc16_reflect_table_item`. -/
def crc16ReflectBit (poly crc : UInt16) : UInt16 :=
  if crc &&& 1 ≠ 0 then (crc >>> 1) ^^^ poly else crc >>> 1

/-- `crc16_reflect_table_item`: eight steps from the index. -/
def crc16ReflectTableItem (index poly : UInt16) : UInt16 :=
  (crc16ReflectBit poly)^[8] index

def crc16FcsTable (i : UInt16) : UInt16 := crc16ReflectTableItem i crc16FcsPolyReflected

def crc16UpdateByte (crc : UInt16) (data : UInt8) (table : UInt16 → UInt16) : UInt16 :=
  (crc >>> 8) ^^^ table ((crc ^^^ data.toUInt16) &&& 0xff)

def tkCrc16Byte (crc : UInt16) (data : UInt8) : UInt16 := crc16UpdateByte crc data crc16FcsTable

def tkCrc16 (crc : UInt16) (data : List UInt8) (dataLength : Int) : UInt16 :=
  (data.take dataLength.toNat).foldl tkCrc16Byte crc

/-- The checksum of all bytes of a list, whatever its length. -/
def fcs16 (crc : UInt16) (data : List UInt8) : UInt16 := data.foldl tkCrc16Byte crc

theorem tkCrc16_of_lt {n : Nat} (crc : UInt16) (data : List UInt8) (h : n < 2 ^ 31) :
    tkCrc16 crc data (I32.ofU32 n) = fcs16 crc (data.take n) := by
  rw [tkCrc16, I32.ofU32_of_lt h, Int.toNat_natCast, fcs16]

theorem tkCrc16_of_ge {n : Nat} (crc : UInt16) (data : List UInt8) (h : 2 ^ 31 ≤ n)
    (hn : n < 2 ^ 32) : tkCrc16 crc data (I32.ofU32 n) = crc := by
  have hneg : (I32.ofU32 n).toNat = 0 := 
    Int.toNat_of_nonpos (Int.le_of_lt (I32.ofU32_neg_of_ge h hn))
  rw [tkCrc16, hneg, List.take_zero, List.foldl_nil]

/-! ## The two bytes of a checksum -/

/-- `v & 0xff`. -/
def lowByte (v : UInt16) : UInt8 := (v &&& 0xff).toUInt8

/-- `v >> 8`. -/
def highByte (v : UInt16) : UInt8 := (v >>> 8).toUInt8

/-- `low | (high << 8)`. -/
def joinBytes (low high : UInt8) : UInt16 := low.toUInt16 ||| (high.toUInt16 <<< 8)

theorem joinBytes_lowByte_highByte (v : UInt16) : joinBytes (lowByte v) (highByte v) = v := by
  apply UInt16.toBitVec_inj.mp
  simp only [joinBytes, lowByte, highByte, UInt16.toBitVec_or, UInt16.toBitVec_shiftLeft,
    UInt8.toBitVec_toUInt16, UInt16.toBitVec_toUInt8, UInt16.toBitVec_and,
    UInt16.toBitVec_shiftRight]
  generalize v.toBitVec = w
  apply BitVec.eq_of_getLsbD_eq
  intro i hi
  have hmask : ∀ i < 8, (255#16).getLsbD i = true := by decide
  by_cases h : i < 8
  · have hi8 := hmask i h
    rw [BitVec.getLsbD_eq_getElem hi] at hi8
    simp [h, hi, hi8]
  · have hback : 8 + (i - 8) = i := by omega
    have hlow : i - 8 < 8 := by omega
    simp [h, hi, hback, hlow]

end Awtk
