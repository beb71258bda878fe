import Awtk.Lib.Bytes
import Awtk.Tkc.Types

/-!
# The simple allocator

The allocator hands out blocks of one buffer.  The buffer is a byte memory.  A
free block starts with a `free_node_t`, and a live block starts with its size
only.  Addresses are natural numbers, `0` is the null pointer, and a pointer is
stored in `word` bytes.

A loop over the free list and the merging recursion are given fuel.  They
return `none` when it runs out.
-/

namespace Awtk

open Ring

namespace MemAllocatorSimple

/-- `mem_info_t`. -/
structure MemInfo where
  buffer : Nat
  size : Nat
  usedBytes : Nat
  usedBlockNr : Nat
  usedMaxBytes : Nat
  usedMaxBlockNr : Nat
  freeList : Nat

/-- The header of an allocator before `tk_mem_init_impl`, which
`mem_allocator_simple_init` clears. -/
def MemInfo.zero : MemInfo := ⟨0, 0, 0, 0, 0, 0, 0⟩

/-- An allocator and the memory it works on. -/
structure Heap where
  info : MemInfo
  mem : Nat → UInt8

section

variable (arch : Arch)

/-! ## Sizes -/

/-- `TK_ROUND_TO_MACH` of a `uint32_t`. -/
def roundToMach (size : Nat) : Nat :=
  U32.add size (arch.word - 1) / arch.word * arch.word

/-- `MIN_SIZE`: a size and two pointers, padded to words. -/
def minSize : Nat := 3 * arch.word

def realSize (size : Nat) : Nat := if size > minSize arch then size else minSize arch

/-- The size of the block that is looked for to serve `s` bytes. -/
def blockSize (s : Nat) : Nat := roundToMach arch (realSize arch (U32.add s 4))

/-- The sum of a block size and `MIN_SIZE`, a `size_t`. -/
def splitSize (size : Nat) : Nat := (size + minSize arch) % 256 ^ arch.word

/-! ## Nodes -/

namespace Heap

/-- `iter->size`, the header of every block. -/
def nodeSize (h : Heap) (iter : Nat) : Nat := Bytes.load h.mem 4 iter

/-- `iter->next`. -/
def next (h : Heap) (iter : Nat) : Nat := Bytes.load h.mem arch.word (iter + arch.word)

/-- `iter->prev`. -/
def prev (h : Heap) (iter : Nat) : Nat := Bytes.load h.mem arch.word (iter + 2 * arch.word)

def setSize (h : Heap) (iter size : Nat) : Heap := { h with mem := Bytes.store h.mem 4 iter size }

def setNext (h : Heap) (iter p : Nat) : Heap :=
  { h with mem := Bytes.store h.mem arch.word (iter + arch.word) p }

def setPrev (h : Heap) (iter p : Nat) : Heap :=
  { h with mem := Bytes.store h.mem arch.word (iter + 2 * arch.word) p }

/-- `if (iter != NULL) iter->next = p`. -/
def linkNext (h : Heap) (iter p : Nat) : Heap := if iter ≠ 0 then h.setNext arch iter p else h

/-- `if (iter != NULL) iter->prev = p`. -/
def linkPrev (h : Heap) (iter p : Nat) : Heap := if iter ≠ 0 then h.setPrev arch iter p else h

def setFreeList (h : Heap) (p : Nat) : Heap := { h with info := { h.info with freeList := p } }

end Heap

/-! ## Allocation -/

/-- The first node from `iter` on with at least `size` bytes, `0` if there is
none. -/
def firstFit (h : Heap) (size : Nat) : Nat → Nat → Option Nat
  | 0, _ => none
  | fuel + 1, iter =>
    if iter = 0 then some 0
    else if size ≤ h.nodeSize iter then some iter
    else firstFit h size fuel (h.next arch iter)

/-- Take the whole node `iter` off the free list. -/
def unlink (h : Heap) (iter : Nat) : Heap :=
  let h := if h.info.freeList = iter then h.setFreeList (h.next arch iter) else h
  let h := h.linkNext arch (h.prev arch iter) (h.next arch iter)
  h.linkPrev arch (h.next arch iter) (h.prev arch iter)

/-- Keep the first `size` bytes of the node `iter` and put the rest in its
place on the free list. -/
def splitNode (h : Heap) (iter size : Nat) : Heap :=
  let newIter := iter + size
  let h := h.setSize newIter (U32.sub (h.nodeSize iter) size)
  let h := h.setNext arch newIter (h.next arch iter)
  let h := h.setPrev arch newIter (h.prev arch iter)
  let h := h.linkNext arch (h.prev arch iter) newIter
  let h := h.linkPrev arch (h.next arch iter) newIter
  let h := if h.info.freeList = iter then h.setFreeList newIter else h
  h.setSize iter size

/-- Count a block of `size` bytes as used. -/
def countUsed (h : Heap) (size : Nat) : Heap :=
  let nr := U32.add h.info.usedBlockNr 1
  let bytes := U32.add h.info.usedBytes size
  { h with info := { h.info with
      usedBlockNr := nr
      usedBytes := bytes
      usedMaxBlockNr := if nr > h.info.usedMaxBlockNr then nr else h.info.usedMaxBlockNr
      usedMaxBytes := if bytes > h.info.usedMaxBytes then bytes else h.info.usedMaxBytes } }

/-- `tk_alloc_impl`: the pointer it returns and the heap afterwards. -/
def tkAllocImpl (h : Heap) (s : Nat) : Option (Nat × Heap) :=
  let size := blockSize arch s
  (firstFit arch h size h.info.size h.info.freeList).map fun iter =>
    if iter = 0 then (0, h)
    else
      let h := if h.nodeSize iter < splitSize arch size then unlink arch h iter
        else splitNode arch h iter size
      (iter + 4, countUsed h (h.nodeSize iter))

/-! ## Freeing -/

def nodeMerge2 (h : Heap) (prev next : Nat) : Heap :=
  if prev ≠ 0 ∧ next ≠ 0 ∧ h.next arch prev = next then
    let h := h.setNext arch prev (h.next arch next)
    let h := h.linkPrev arch (h.next arch next) prev
    let h := h.setSize prev (U32.add (h.nodeSize prev) (h.nodeSize next))
    if h.info.freeList = next then h.setFreeList prev else h
  else h

def nodeMerge : Nat → Heap → Nat → Option Heap
  | 0, _, _ => none
  | fuel + 1, h, iter =>
    let prev := h.prev arch iter
    let next := h.next arch iter
    if prev ≠ 0 ∧ prev + h.nodeSize prev = iter then
      nodeMerge fuel (nodeMerge2 arch h prev iter) prev
    else if next ≠ 0 ∧ iter + h.nodeSize iter = next then
      nodeMerge fuel (nodeMerge2 arch h iter next) iter
    else some h

/-- The loop of `tk_free_impl` that puts `freeIter` into the free list, in
front of the first node behind it or at the end. -/
def insertNode (freeIter : Nat) : Nat → Heap → Nat → Option Heap
  | 0, _, _ => none
  | fuel + 1, h, iter =>
    if iter = 0 then some h
    else if iter > freeIter then
      let h := h.setNext arch freeIter iter
      let h := h.setPrev arch freeIter (h.prev arch iter)
      let h := h.linkNext arch (h.prev arch iter) freeIter
      let h := h.setPrev arch iter freeIter
      some (if h.info.freeList = iter then h.setFreeList freeIter else h)
    else if h.next arch iter = 0 then
      some ((h.setNext arch iter freeIter).setPrev arch freeIter iter)
    else insertNode freeIter fuel h (h.next arch iter)

/-- The part of `tk_free_impl` that puts `freeIter` on the free list. -/
def addNode (h : Heap) (freeIter : Nat) : Option Heap :=
  let h := (h.setPrev arch freeIter 0).setNext arch freeIter 0
  if h.info.freeList = 0 then some (h.setFreeList freeIter)
  else
    (insertNode arch freeIter h.info.size h h.info.freeList).bind fun h =>
      -- only here are neighbours merged
      nodeMerge arch h.info.size h freeIter

/-- Count a block of `size` bytes as no longer used. -/
def countFreed (h : Heap) (size : Nat) : Heap :=
  { h with info := { h.info with
      usedBlockNr := U32.sub h.info.usedBlockNr 1
      usedBytes := U32.sub h.info.usedBytes size } }

def tkFreeImpl (h : Heap) (ptr : Nat) : Option Heap :=
  if ptr = 0 then some h
  else (addNode arch h (ptr - 4)).map fun h' => countFreed h' (h.nodeSize (ptr - 4))

/-! ## Reallocation and creation -/

def memcpy (h : Heap) (dst src n : Nat) : Heap :=
  { h with mem := blit h.mem dst (slice h.mem src n) }

/-- The bytes of the block of `ptr` behind its header. -/
def usable (h : Heap) (ptr : Nat) : Nat := U32.sub (h.nodeSize (ptr - 4)) 4

/-- Whether `tk_realloc_impl` keeps the block of `ptr` for `size` bytes. -/
def keeps (h : Heap) (ptr size : Nat) : Bool :=
  let upSize := (size + minSize arch) % 2 ^ 32
  size ≤ usable h ptr && usable h ptr ≤ upSize

/-- `tk_realloc_impl`: the pointer it returns and the heap afterwards. -/
def tkReallocImpl (h : Heap) (ptr size : Nat) : Option (Nat × Heap) :=
  if ptr ≠ 0 then
    if keeps arch h ptr size then some (ptr, h)
    else
      let oldSize := usable h ptr
      (tkAllocImpl arch h size).bind fun (newPtr, h) =>
        if newPtr ≠ 0 then
          let h := memcpy h newPtr ptr (if size < oldSize then size else oldSize)
          (tkFreeImpl arch h ptr).map fun h => (newPtr, h)
        else some (newPtr, h)
  else tkAllocImpl arch h size

def tkMemInitImpl (h : Heap) (buffer size : Nat) : Ret × Heap :=
  if ¬ (buffer ≠ 0 ∧ size > minSize arch) then (.badParams, h)
  else if h.info.buffer ≠ 0 then (.fail, h)
  else
    let h := { h with mem := blit h.mem buffer (List.replicate size 0) }
    let h := { h with info := { h.info with buffer, size, freeList := buffer } }
    let h := (h.setPrev arch buffer 0).setNext arch buffer 0
    let h := h.setSize buffer size
    (.ok, { h with info := { h.info with usedBlockNr := 0 } })

end

def getMemSize (h : Heap) (ptr : Nat) : Nat := if ptr = 0 then 0 else h.nodeSize (ptr - 4)

end MemAllocatorSimple

end Awtk
