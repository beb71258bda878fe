import Awtk.Tkc.WBuffer

/-!
# The miniz compressor

A model of `compressor_miniz.c`.  The deflate library behind it is a parameter:
two functions from the bytes and the size of the output block to the output, or
to nothing when the library reports an error.  Both take memory from the heap
first and fail without it.
-/

namespace Awtk

open Option

/-- What `mz_compress2` and `mz_uncompress` do, and the one fact about them the
streams rely on: a block with enough room for the original gets it back. -/
structure Miniz where
  mzCompress2 : (heap : Bool) → (destLen : Nat) → List UInt8 → Option (List UInt8)
  mzUncompress : (heap : Bool) → (destLen : Nat) → List UInt8 → Option (List UInt8)
  uncompress_compress {heap : Bool} {destLen : Nat} {source dest : List UInt8} :
    mzCompress2 heap destLen source = some dest →
    ∀ room, source.length ≤ room → mzUncompress true room dest = some source

/-- The memory an operation finds: blocks for growing buffers, and heap for the
library. -/
structure Memory where
  realloc : Nat → Bool
  heap : Bool

namespace Miniz

/-- The library has put its output at the start of the block. -/
def fill (out : WBuffer) (bytes : List UInt8) : WBuffer :=
  { out with data := bytes ++ out.data.drop bytes.length, cursor := bytes.length }

def compress (mz : Miniz) (mem : Memory) (data : List UInt8) (out : WBuffer) :
    Option (Ret × WBuffer) := do
  match ← out.extendCapacity mem.realloc (U32.add 512 (U32.mul data.length 2)) with
  | (.ok, out) =>
    match mz.mzCompress2 mem.heap out.capacity data with
    | some bytes => return (.ok, fill out bytes)
    | none => return (.fail, { out with cursor := 0 })
  | (_, out) => return (.oom, out)

/-- `compressor_miniz_uncompress`.  The output gets five times the size of the
input, or what the block already has. -/
def uncompress (mz : Miniz) (mem : Memory) (data : List UInt8) (out : WBuffer) :
    Option (Ret × WBuffer) := do
  match ← out.extendCapacity mem.realloc (U32.mul data.length 5) with
  | (.ok, out) =>
    match mz.mzUncompress mem.heap out.capacity data with
    | some bytes => return (.ok, fill out bytes)
    | none => return (.fail, out)
  | (_, out) => return (.oom, out)

@[simp] theorem fill_contents (out : WBuffer) (bytes : List UInt8) :
    (fill out bytes).contents = bytes :=
  List.take_left' rfl

variable {mz : Miniz} {mem : Memory} {data : List UInt8} {out out' : WBuffer}

theorem compress_ok (h : mz.compress mem data out = some (.ok, out')) :
    ∃ room, mz.mzCompress2 mem.heap room data = some out'.contents := by
  unfold compress at h
  obtain ⟨⟨r, grown⟩, -, h⟩ := bind_eq_some_iff.mp h
  cases r with
  | ok =>
    dsimp only at h
    cases hz : mz.mzCompress2 mem.heap grown.capacity data with
    | none =>
      rw [hz] at h
      cases h
    | some bytes =>
      rw [hz] at h
      cases h
      exact ⟨grown.capacity, by rw [fill_contents]; exact hz⟩
  | _ => cases h

/-- `n` bytes fit the block that is given to the library for `data`. -/
def Holds (mem : Memory) (data : List UInt8) (out : WBuffer) (n : Nat) : Prop :=
  mem.heap = true ∧ ∃ res ∈ out.extendCapacity mem.realloc (U32.mul data.length 5),
    res.1 = .ok ∧ n ≤ res.2.capacity

instance (mem : Memory) (data : List UInt8) (out : WBuffer) (n : Nat) :
    Decidable (Holds mem data out n) :=
  inferInstanceAs (Decidable (_ ∧ _))

theorem uncompress_ok {heap : Bool} {room : Nat} {source : List UInt8}
    (hz : mz.mzCompress2 heap room source = some data)
    (hroom : Holds mem data out source.length) :
    ∃ out', mz.uncompress mem data out = some (.ok, out') ∧ out'.contents = source := by
  obtain ⟨hheap, ⟨r, grown⟩, hx, rfl, hle⟩ := hroom
  rw [mem_def] at hx
  have hback := mz.uncompress_compress hz grown.capacity hle
  refine ⟨fill grown source, ?_, fill_contents _ _⟩
  rw [uncompress, hx, hheap]
  show (match mz.mzUncompress true grown.capacity data with
    | some bytes => some (Ret.ok, fill grown bytes)
    | none => some (Ret.fail, grown)) = _
  rw [hback]

end Miniz

end Awtk
