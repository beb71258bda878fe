import Awtk.Tkc.MemAllocatorSimple

/-!
# What the list edits write

The nodes of an allocator lie at addresses that are at least `MIN_SIZE` apart,
so the fields of two nodes never overlap.  `Nodes arch S` says this of the
addresses `S`.  Under it every edit of the free list is described by the links
and sizes it changes, as a function of the address.
-/

namespace Awtk

namespace MemAllocatorSimple

/-- Two nodes are the same or do not overlap. -/
def Apart (arch : Arch) (a b : Nat) : Prop :=
  a = b ∨ a + minSize arch ≤ b ∨ b + minSize arch ≤ a

/-- Addresses at which nodes can stand. -/
structure Nodes (arch : Arch) (S : Nat → Prop) : Prop where
  apart : ∀ {a b}, S a → S b → Apart arch a b
  pos : ∀ {a}, S a → a ≠ 0
  lt : ∀ {a}, S a → a < 256 ^ arch.word

theorem four_le_word (arch : Arch) : 4 ≤ arch.word := by
  cases arch <;> decide

variable {arch : Arch} {S : Nat → Prop} {h : Heap} {a b v : Nat}

/-! ## Single fields -/

section

variable (hab : Apart arch a b)
include hab

theorem nodeSize_setNext : (h.setNext arch b v).nodeSize a = h.nodeSize a := by
  have := four_le_word arch
  unfold Apart minSize at hab
  exact Bytes.load_store_of_disjoint (by omega)

theorem nodeSize_setPrev : (h.setPrev arch b v).nodeSize a = h.nodeSize a := by
  have := four_le_word arch
  unfold Apart minSize at hab
  exact Bytes.load_store_of_disjoint (by omega)

theorem nodeSize_setSize (hv : v < 2 ^ 32) :
    (h.setSize b v).nodeSize a = if a = b then v else h.nodeSize a := by
  have := four_le_word arch
  unfold Apart minSize at hab
  split
  case isTrue heq =>
    subst heq
    exact Bytes.load_store _ _ hv
  case isFalse => exact Bytes.load_store_of_disjoint (by omega)

theorem next_setNext (hv : v < 256 ^ arch.word) :
    (h.setNext arch b v).next arch a = if a = b then v else h.next arch a := by
  unfold Apart minSize at hab
  split
  case isTrue heq =>
    subst heq
    exact Bytes.load_store _ _ hv
  case isFalse => exact Bytes.load_store_of_disjoint (by omega)

theorem next_setPrev : (h.setPrev arch b v).next arch a = h.next arch a := by
  unfold Apart minSize at hab
  exact Bytes.load_store_of_disjoint (by omega)

theorem next_setSize : (h.setSize b v).next arch a = h.next arch a := by
  have := four_le_word arch
  unfold Apart minSize at hab
  exact Bytes.load_store_of_disjoint (by omega)

theorem prev_setNext : (h.setNext arch b v).prev arch a = h.prev arch a := by
  unfold Apart minSize at hab
  exact Bytes.load_store_of_disjoint (by omega)

theorem prev_setPrev (hv : v < 256 ^ arch.word) :
    (h.setPrev arch b v).prev arch a = if a = b then v else h.prev arch a := by
  unfold Apart minSize at hab
  split
  case isTrue heq =>
    subst heq
    exact Bytes.load_store _ _ hv
  case isFalse => exact Bytes.load_store_of_disjoint (by omega)

theorem prev_setSize : (h.setSize b v).prev arch a = h.prev arch a := by
  have := four_le_word arch
  unfold Apart minSize at hab
  exact Bytes.load_store_of_disjoint (by omega)

end

@[simp] theorem info_setNext : (h.setNext arch b v).info = h.info := rfl
@[simp] theorem info_setPrev : (h.setPrev arch b v).info = h.info := rfl
@[simp] theorem info_setSize : (h.setSize b v).info = h.info := rfl

@[simp] theorem info_linkNext : (h.linkNext arch b v).info = h.info := by
  unfold Heap.linkNext
  split <;> rfl

@[simp] theorem info_linkPrev : (h.linkPrev arch b v).info = h.info := by
  unfold Heap.linkPrev
  split <;> rfl

@[simp] theorem nodeSize_setFreeList : (h.setFreeList v).nodeSize a = h.nodeSize a := rfl
@[simp] theorem next_setFreeList : (h.setFreeList v).next arch a = h.next arch a := rfl
@[simp] theorem prev_setFreeList : (h.setFreeList v).prev arch a = h.prev arch a := rfl

/-! ## Links to a node or to null -/

namespace Nodes

variable (hS : Nodes arch S)
include hS

theorem lt_of_null_or (hv : v = 0 ∨ S v) : v < 256 ^ arch.word := by
  rcases hv with rfl | hv
  · exact Nat.pow_pos (by decide)
  · exact hS.lt hv

theorem nodeSize_linkNext (ha : S a) (hb : b = 0 ∨ S b) :
    (h.linkNext arch b v).nodeSize a = h.nodeSize a := by
  unfold Heap.linkNext
  split
  case isTrue hne => exact nodeSize_setNext (hS.apart ha (hb.resolve_left hne))
  case isFalse => rfl

theorem nodeSize_linkPrev (ha : S a) (hb : b = 0 ∨ S b) :
    (h.linkPrev arch b v).nodeSize a = h.nodeSize a := by
  unfold Heap.linkPrev
  split
  case isTrue hne => exact nodeSize_setPrev (hS.apart ha (hb.resolve_left hne))
  case isFalse => rfl

theorem next_linkNext (ha : S a) (hb : b = 0 ∨ S b) (hv : v = 0 ∨ S v) :
    (h.linkNext arch b v).next arch a = if a = b then v else h.next arch a := by
  unfold Heap.linkNext
  split
  case isTrue hne => exact next_setNext (hS.apart ha (hb.resolve_left hne)) (hS.lt_of_null_or hv)
  case isFalse hz => rw [if_neg (by rintro rfl; exact hz (hS.pos ha))]

theorem next_linkPrev (ha : S a) (hb : b = 0 ∨ S b) :
    (h.linkPrev arch b v).next arch a = h.next arch a := by
  unfold Heap.linkPrev
  split
  case isTrue hne => exact next_setPrev (hS.apart ha (hb.resolve_left hne))
  case isFalse => rfl

theorem prev_linkNext (ha : S a) (hb : b = 0 ∨ S b) :
    (h.linkNext arch b v).prev arch a = h.prev arch a := by
  unfold Heap.linkNext
  split
  case isTrue hne => exact prev_setNext (hS.apart ha (hb.resolve_left hne))
  case isFalse => rfl

theorem prev_linkPrev (ha : S a) (hb : b = 0 ∨ S b) (hv : v = 0 ∨ S v) :
    (h.linkPrev arch b v).prev arch a = if a = b then v else h.prev arch a := by
  unfold Heap.linkPrev
  split
  case isTrue hne => exact prev_setPrev (hS.apart ha (hb.resolve_left hne)) (hS.lt_of_null_or hv)
  case isFalse hz => rw [if_neg (by rintro rfl; exact hz (hS.pos ha))]

end Nodes

/-! ## The edits -/

/-- How a heap `h'` came out of the heap `h` by an edit of the free list. -/
structure Edit (arch : Arch) (S : Nat → Prop) (h h' : Heap) (size next prev : Nat → Nat)
    (freeList : Nat) : Prop where
  size : ∀ a, S a → h'.nodeSize a = size a
  next : ∀ a, S a → h'.next arch a = next a
  prev : ∀ a, S a → h'.prev arch a = prev a
  info : h'.info = { h.info with freeList := freeList }

variable {x p n y : Nat}

theorem edit_setFreeList (arch : Arch) (S : Nat → Prop) (h : Heap) (x v : Nat) :
    Edit arch S h (if h.info.freeList = x then h.setFreeList v else h) h.nodeSize (h.next arch)
      (h.prev arch) (if h.info.freeList = x then v else h.info.freeList) := by
  split <;> exact ⟨fun _ _ => rfl, fun _ _ => rfl, fun _ _ => rfl, rfl⟩

namespace Nodes

variable (hS : Nodes arch S)
include hS

theorem edit_linkNext (hb : b = 0 ∨ S b) (hv : v = 0 ∨ S v) :
    Edit arch S h (h.linkNext arch b v) h.nodeSize
      (fun a => if a = b then v else h.next arch a) (h.prev arch) h.info.freeList :=
  ⟨fun _ ha => hS.nodeSize_linkNext ha hb, fun _ ha => hS.next_linkNext ha hb hv,
    fun _ ha => hS.prev_linkNext ha hb, info_linkNext⟩

theorem edit_linkPrev (hb : b = 0 ∨ S b) (hv : v = 0 ∨ S v) :
    Edit arch S h (h.linkPrev arch b v) h.nodeSize (h.next arch)
      (fun a => if a = b then v else h.prev arch a) h.info.freeList :=
  ⟨fun _ ha => hS.nodeSize_linkPrev ha hb, fun _ ha => hS.next_linkPrev ha hb,
    fun _ ha => hS.prev_linkPrev ha hb hv, info_linkPrev⟩

theorem edit_setNext (hb : S b) (hv : v = 0 ∨ S v) :
    Edit arch S h (h.setNext arch b v) h.nodeSize
      (fun a => if a = b then v else h.next arch a) (h.prev arch) h.info.freeList :=
  ⟨fun _ ha => nodeSize_setNext (hS.apart ha hb),
    fun _ ha => next_setNext (hS.apart ha hb) (hS.lt_of_null_or hv),
    fun _ ha => prev_setNext (hS.apart ha hb), rfl⟩

theorem edit_setPrev (hb : S b) (hv : v = 0 ∨ S v) :
    Edit arch S h (h.setPrev arch b v) h.nodeSize (h.next arch)
      (fun a => if a = b then v else h.prev arch a) h.info.freeList :=
  ⟨fun _ ha => nodeSize_setPrev (hS.apart ha hb), fun _ ha => next_setPrev (hS.apart ha hb),
    fun _ ha => prev_setPrev (hS.apart ha hb) (hS.lt_of_null_or hv), rfl⟩

theorem edit_setSize (hb : S b) (hv : v < 2 ^ 32) :
    Edit arch S h (h.setSize b v) (fun a => if a = b then v else h.nodeSize a) (h.next arch)
      (h.prev arch) h.info.freeList :=
  ⟨fun _ ha => nodeSize_setSize (hS.apart ha hb) hv, fun _ ha => next_setSize (hS.apart ha hb),
    fun _ ha => prev_setSize (hS.apart ha hb), rfl⟩

theorem unlink (hx : S x) (hp : h.prev arch x = p) (hn : h.next arch x = n) (hpS : p = 0 ∨ S p)
    (hnS : n = 0 ∨ S n) (hpx : x ≠ p) :
    Edit arch S h (unlink arch h x) h.nodeSize
      (fun a => if a = p then n else h.next arch a)
      (fun a => if a = n then p else h.prev arch a)
      (if h.info.freeList = x then n else h.info.freeList) := by
  unfold MemAllocatorSimple.unlink
  rw [hn]
  have e₁ := edit_setFreeList arch S h x n
  generalize (if h.info.freeList = x then h.setFreeList n else h) = h₁ at e₁ ⊢
  simp only [e₁.prev x hx, e₁.next x hx, hp, hn]
  have e₂ := hS.edit_linkNext (h := h₁) hpS hnS
  generalize h₁.linkNext arch p n = h₂ at e₂ ⊢
  simp only [e₂.prev x hx, e₂.next x hx, e₁.prev x hx, e₁.next x hx, hp, hn, if_neg hpx]
  have e₃ := hS.edit_linkPrev (h := h₂) hnS hpS
  refine ⟨fun a ha => ?_, fun a ha => ?_, fun a ha => ?_, ?_⟩
  · rw [e₃.size a ha, e₂.size a ha, e₁.size a ha]
  · rw [e₃.next a ha, e₂.next a ha, e₁.next a ha]
  · rw [e₃.prev a ha, e₂.prev a ha, e₁.prev a ha]
  · rw [e₃.info, e₂.info, e₁.info]

/-- Cutting `x` after `size` bytes and putting the rest `y` in its place. -/
theorem splitNode {size : Nat} (hx : S x) (hy : S y) (hxy : x + size = y) (hne : x ≠ y)
    (hsize : size < 2 ^ 32) (hp : h.prev arch x = p) (hn : h.next arch x = n)
    (hpS : p = 0 ∨ S p) (hnS : n = 0 ∨ S n) (hpx : x ≠ p) :
    Edit arch S h (splitNode arch h x size)
      (fun a => if a = x then size else if a = y then U32.sub (h.nodeSize x) size
        else h.nodeSize a)
      (fun a => if a = p then y else if a = y then n else h.next arch a)
      (fun a => if a = n then y else if a = y then p else h.prev arch a)
      (if h.info.freeList = x then y else h.info.freeList) := by
  unfold MemAllocatorSimple.splitNode
  simp only [hxy]
  have e₁ := hS.edit_setSize (h := h) (v := U32.sub (h.nodeSize x) size) hy (U32.sub_lt ..)
  generalize h.setSize y _ = h₁ at e₁ ⊢
  simp only [e₁.next x hx, hn]
  have e₂ := hS.edit_setNext (h := h₁) hy hnS
  generalize h₁.setNext arch y n = h₂ at e₂ ⊢
  simp only [e₂.prev x hx, e₁.prev x hx, hp]
  have e₃ := hS.edit_setPrev (h := h₂) hy hpS
  generalize h₂.setPrev arch y p = h₃ at e₃ ⊢
  simp only [e₃.prev x hx, e₂.prev x hx, e₁.prev x hx, hp, if_neg hne]
  have e₄ := hS.edit_linkNext (h := h₃) hpS (.inr hy)
  generalize h₃.linkNext arch p y = h₄ at e₄ ⊢
  simp only [e₄.next x hx, e₃.next x hx, e₂.next x hx, e₁.next x hx, hn, if_neg hne, if_neg hpx]
  have e₅ := hS.edit_linkPrev (h := h₄) hnS (.inr hy)
  generalize h₄.linkPrev arch n y = h₅ at e₅ ⊢
  have e₆ := edit_setFreeList arch S h₅ x y
  generalize (if h₅.info.freeList = x then h₅.setFreeList y else h₅) = h₆ at e₆ ⊢
  have e₇ := hS.edit_setSize (h := h₆) hx hsize
  refine ⟨fun a ha => ?_, fun a ha => ?_, fun a ha => ?_, ?_⟩
  · simp only [e₇.size a ha, e₆.size a ha, e₅.size a ha, e₄.size a ha, e₃.size a ha,
      e₂.size a ha, e₁.size a ha]
  · simp only [e₇.next a ha, e₆.next a ha, e₅.next a ha, e₄.next a ha, e₃.next a ha,
      e₂.next a ha, e₁.next a ha]
  · simp only [e₇.prev a ha, e₆.prev a ha, e₅.prev a ha, e₄.prev a ha, e₃.prev a ha,
      e₂.prev a ha, e₁.prev a ha]
  · simp only [e₇.info, e₆.info, e₅.info, e₄.info, e₃.info, e₂.info, e₁.info]

theorem nodeMerge2 (hpS : S p) (hxS : S x) (hn : h.next arch p = x) (hn' : h.next arch x = n)
    (hnS : n = 0 ∨ S n) (hpx : x ≠ p) :
    Edit arch S h (nodeMerge2 arch h p x)
      (fun a => if a = p then U32.add (h.nodeSize p) (h.nodeSize x) else h.nodeSize a)
      (fun a => if a = p then n else h.next arch a)
      (fun a => if a = n then p else h.prev arch a)
      (if h.info.freeList = x then p else h.info.freeList) := by
  unfold MemAllocatorSimple.nodeMerge2
  rw [if_pos ⟨hS.pos hpS, hS.pos hxS, hn⟩, hn']
  have e₁ := hS.edit_setNext (h := h) hpS hnS
  generalize h.setNext arch p n = h₁ at e₁ ⊢
  simp only [e₁.next x hxS, hn', if_neg hpx]
  have e₂ := hS.edit_linkPrev (h := h₁) hnS (.inr hpS)
  generalize h₁.linkPrev arch n p = h₂ at e₂ ⊢
  simp only [e₂.size p hpS, e₁.size p hpS, e₂.size x hxS, e₁.size x hxS]
  have e₃ := hS.edit_setSize (h := h₂) (v := U32.add (h.nodeSize p) (h.nodeSize x)) hpS
    (U32.add_lt ..)
  generalize h₂.setSize p _ = h₃ at e₃ ⊢
  have e₄ := edit_setFreeList arch S h₃ x p
  refine ⟨fun a ha => ?_, fun a ha => ?_, fun a ha => ?_, ?_⟩
  · simp only [e₄.size a ha, e₃.size a ha, e₂.size a ha, e₁.size a ha]
  · simp only [e₄.next a ha, e₃.next a ha, e₂.next a ha, e₁.next a ha]
  · simp only [e₄.prev a ha, e₃.prev a ha, e₂.prev a ha, e₁.prev a ha]
  · rw [e₄.info]
    simp only [e₃.info, e₂.info, e₁.info]

/-- The pass of the insertion loop that puts `x` in front of `n`. -/
theorem insertNode_front (fuel : Nat) (hxS : S x) (hnS : S n) (hp : h.prev arch n = p)
    (hpS : p = 0 ∨ S p) (hlt : x < n) :
    ∃ h', insertNode arch x (fuel + 1) h n = some h' ∧
    Edit arch S h h' h.nodeSize
      (fun a => if a = p then x else if a = x then n else h.next arch a)
      (fun a => if a = n then x else if a = x then p else h.prev arch a)
      (if h.info.freeList = n then x else h.info.freeList) := by
  have hnx : n ≠ x := by omega
  unfold insertNode
  rw [if_neg (hS.pos hnS), if_pos hlt]
  have e₁ := hS.edit_setNext (h := h) hxS (.inr hnS)
  generalize h.setNext arch x n = h₁ at e₁ ⊢
  simp only [e₁.prev n hnS, hp]
  have e₂ := hS.edit_setPrev (h := h₁) hxS hpS
  generalize h₁.setPrev arch x p = h₂ at e₂ ⊢
  simp only [e₂.prev n hnS, e₁.prev n hnS, hp, if_neg hnx]
  have e₃ := hS.edit_linkNext (h := h₂) hpS (.inr hxS)
  generalize h₂.linkNext arch p x = h₃ at e₃ ⊢
  have e₄ := hS.edit_setPrev (h := h₃) hnS (.inr hxS)
  generalize h₃.setPrev arch n x = h₄ at e₄ ⊢
  have e₅ := edit_setFreeList arch S h₄ n x
  refine ⟨_, rfl, fun a ha => ?_, fun a ha => ?_, fun a ha => ?_, ?_⟩
  · simp only [e₅.size a ha, e₄.size a ha, e₃.size a ha, e₂.size a ha, e₁.size a ha]
  · simp only [e₅.next a ha, e₄.next a ha, e₃.next a ha, e₂.next a ha, e₁.next a ha]
  · simp only [e₅.prev a ha, e₄.prev a ha, e₃.prev a ha, e₂.prev a ha, e₁.prev a ha]
  · rw [e₅.info]
    simp only [e₄.info, e₃.info, e₂.info, e₁.info]

theorem insertNode_back (fuel : Nat) (hxS : S x) (hpS : S p) (hn : h.next arch p = 0)
    (hle : ¬ p > x) :
    ∃ h', insertNode arch x (fuel + 1) h p = some h' ∧
    Edit arch S h h' h.nodeSize
      (fun a => if a = p then x else h.next arch a)
      (fun a => if a = x then p else h.prev arch a) h.info.freeList := by
  unfold insertNode
  rw [if_neg (hS.pos hpS), if_neg hle, if_pos hn]
  have e₁ := hS.edit_setNext (h := h) hpS (.inr hxS)
  generalize h.setNext arch p x = h₁ at e₁ ⊢
  have e₂ := hS.edit_setPrev (h := h₁) hxS (.inr hpS)
  refine ⟨_, rfl, fun a ha => ?_, fun a ha => ?_, fun a ha => ?_, ?_⟩
  · rw [e₂.size a ha, e₁.size a ha]
  · rw [e₂.next a ha, e₁.next a ha]
  · simp only [e₂.prev a ha, e₁.prev a ha]
  · rw [e₂.info, e₁.info]

end Nodes

end MemAllocatorSimple

end Awtk
