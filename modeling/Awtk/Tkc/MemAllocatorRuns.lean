import Awtk.Lib.Run
import Awtk.Tkc.MemAllocatorOps

/-!
# Runs of the simple allocator

A `State` is a heap and the pointers its callers hold.  Callers free and
reallocate live pointers only and write inside their blocks only.  `Tidy` says
what then holds after any calls: blocks and free nodes tile the buffer, the free
list is ordered, linked both ways and merged, and the counters are right.

The sizes of the requests are `uint32_t`.  Rounding one up to words can wrap to
zero, which leaves a node of size zero on the free list.  A request of nearly
`2 ^ 32` bytes can also wrap to a small block, which the copy of a reallocation
then overruns.  `Sound` excludes these two.
-/

namespace Awtk

open Ring Runs Tiling DList Function List Option

namespace MemAllocatorSimple

/-! ## Calls -/

/-- A heap and the live pointers. -/
structure State where
  heap : Heap
  live : List Nat

/-- A call of the allocator, or a write of a caller into its own block. -/
inductive Op where
  | alloc (s : UInt32)
  | realloc (ptr : Nat) (size : UInt32)
  | free (ptr : Nat)
  | fill (ptr offset : Nat) (bytes : List UInt8)

section

variable (arch : Arch)

/-- One call. -/
def step (s : State) : Op → Option State
  | .alloc n => (tkAllocImpl arch s.heap n.toNat).map fun (ptr, h) =>
      ⟨h, if ptr = 0 then s.live else ptr :: s.live⟩
  | .realloc ptr n => (tkReallocImpl arch s.heap ptr n.toNat).map fun (newPtr, h) =>
      ⟨h, if newPtr = 0 then s.live else newPtr :: s.live.erase ptr⟩
  | .free ptr => (tkFreeImpl arch s.heap ptr).map fun h => ⟨h, s.live.erase ptr⟩
  | .fill ptr offset bytes =>
      some { s with heap := { s.heap with mem := blit s.heap.mem (ptr + offset) bytes } }

/-- Only live pointers are passed, and written through within their block. -/
def Allowed (s : State) : Op → Prop
  | .alloc _ => True
  | .realloc ptr _ | .free ptr => ptr = 0 ∨ ptr ∈ s.live
  | .fill ptr offset bytes => ptr ∈ s.live ∧ offset + bytes.length ≤ usable s.heap ptr

/-- The arithmetic on the requested size does not wrap to a block that is too
small. -/
def Sound (s : State) : Op → Prop
  | .alloc n => Fits arch s.heap n.toNat
  | .realloc ptr n => (ptr ≠ 0 ∧ keeps arch s.heap ptr n.toNat) ∨
      (Fits arch s.heap n.toNat ∧ (ptr ≠ 0 → grantedSize arch s.heap n.toNat ≠ 0 →
        min n.toNat (usable s.heap ptr) + 4 ≤ grantedSize arch s.heap n.toNat))
  | .free _ | .fill .. => True

instance decidableAllowed (s : State) (op : Op) : Decidable (Allowed s op) := by
  cases op <;> unfold Allowed <;> infer_instance

instance decidableSound (s : State) (op : Op) : Decidable (Sound arch s op) := by
  cases op <;> unfold Sound <;> infer_instance

/-- The blocks of the live pointers. -/
def liveBlocks (s : State) : List Piece :=
  s.live.map fun ptr => ⟨ptr - 4, s.heap.nodeSize (ptr - 4), false⟩

/-- The pieces of the nodes of a free list. -/
def freeBlocks (s : State) (free : List Nat) : List Piece :=
  free.map fun a => ⟨a, s.heap.nodeSize a, true⟩

/-- The heap is in order.  `free` is the free list from its head. -/
structure Tidy (lo hi : Nat) (s : State) (free : List Nat) : Prop where
  /-- The live blocks and the free nodes tile the buffer. -/
  tiled : ∃ ps, Tiles (minSize arch) lo ps hi ∧ ps.Perm (liveBlocks s ++ freeBlocks s free)
  head : s.heap.info.freeList = free.headD 0
  /-- The free nodes are linked both ways. -/
  links : Seg (s.heap.next arch) (s.heap.prev arch) 0 free 0
  /-- They are in address order and no two of them touch. -/
  ordered : free.Pairwise fun a b => a + s.heap.nodeSize a < b
  used_block_nr : s.heap.info.usedBlockNr = s.live.length
  used_bytes : s.heap.info.usedBytes = ((liveBlocks s).map Piece.size).sum
  /-- Without live blocks one free node has the whole buffer. -/
  all_free : s.live = [] → free = [lo] ∧ s.heap.nodeSize lo = hi - lo

end

/-! ## The invariant -/

/-- What every call keeps.  `ps` are the pieces of the buffer. -/
structure Inv (arch : Arch) (lo hi : Nat) (s : State) (ps : List Piece) : Prop where
  shape : Shape arch s.heap lo hi ps
  coalesced : Coalesced ps
  size_eq : s.heap.info.size = hi - lo
  live : s.live.Perm ((used ps).map (·.addr + 4))
  nr : s.heap.info.usedBlockNr = (used ps).length
  bytes : s.heap.info.usedBytes = ((used ps).map Piece.size).sum

variable {arch : Arch} {h h' : Heap} {lo hi : Nat} {s s' : State} {p q x : Piece}
  {l r r' ps : List Piece}

theorem used_length_le (ps : List Piece) : (used ps).length ≤ ps.length :=
  length_filter_le ..

theorem used_sum_le (ps : List Piece) :
    ((used ps).map Piece.size).sum ≤ (ps.map Piece.size).sum := by
  have := ((used_append_free_perm ps).map Piece.size).sum_eq
  rw [map_append, sum_append] at this
  omega

theorem liveBlocks_perm (hI : Inv arch lo hi s ps) : (liveBlocks s).Perm (used ps) := by
  refine (hI.live.map _).trans (Perm.of_eq ?_)
  rw [List.map_map]
  refine (map_congr_left fun p hp => ?_).trans (List.map_id _)
  obtain ⟨hmem, hfree⟩ := mem_used.mp hp
  simp only [comp_apply, Nat.add_sub_cancel, hI.shape.header p hmem, ← hfree]
  rfl

theorem freeBlocks_eq (hI : Inv arch lo hi s ps) :
    freeBlocks s (freeAddrs ps) = ps.filter (·.free) := by
  rw [freeBlocks, freeAddrs, List.map_map]
  refine (map_congr_left fun p hp => ?_).trans (List.map_id _)
  obtain ⟨hmem, hfree⟩ := mem_filter.mp hp
  simp only [comp_apply, hI.shape.header p hmem, ← hfree]
  rfl

theorem Inv.tidy (hlt : lo < hi) (hI : Inv arch lo hi s ps) : Tidy arch lo hi s (freeAddrs ps) where
  tiled := by
    refine ⟨ps, hI.shape.tiles, ?_⟩
    rw [freeBlocks_eq hI]
    exact (((liveBlocks_perm hI).append_right _).trans (used_append_free_perm ps)).symm
  head := hI.shape.head
  links := hI.shape.links
  ordered := by
    refine pairwise_map.mpr ?_
    have hpair := hI.shape.tiles.free_pairwise (minSize_pos arch) hI.coalesced
    refine hpair.imp_of_mem fun {p q} hp _ hpq => ?_
    rw [hI.shape.header p (mem_of_mem_filter hp)]
    exact hpq
  used_block_nr := by rw [hI.nr, hI.live.length_eq, length_map]
  used_bytes := by rw [hI.bytes, ((liveBlocks_perm hI).map _).sum_eq]
  all_free hnil := by
    have hused : used ps = [] := by
      have := hI.live.length_eq
      rw [hnil, length_map] at this
      exact eq_nil_of_length_eq_zero this.symm
    have hone := hI.shape.tiles.single hI.coalesced hlt hused
    have hheader := hI.shape.header ⟨lo, hi - lo, true⟩ (by rw [hone]; exact mem_cons_self)
    rw [hone]
    exact ⟨rfl, hheader⟩

/-! ## Steps -/

theorem Shape.blit (hs : Shape arch h lo hi (l ++ x :: r))
    (hx : x.free = false) {o : Nat} {bs : List UInt8} (ho : x.addr + 4 ≤ o)
    (hend : o + bs.length ≤ x.stop) :
    Shape arch { h with mem := Ring.blit h.mem o bs } lo hi (l ++ x :: r) := by
  have hword := four_le_word arch
  have hmem : x ∈ l ++ x :: r := by simp
  refine hs.congr (fun p hp => ?_) (fun a ha => ?_) rfl
  · refine Bytes.load_blit ?_
    have := (hs.tiles.mem hp).2.1
    rcases hs.tiles.apart hp hmem with rfl | h | h
    · omega
    all_goals
      unfold Piece.stop minSize at *
      omega
  · obtain ⟨p, hp, hfree, rfl⟩ := mem_freeAddrs.mp ha
    have := (hs.tiles.mem hp).2.1
    have hapart : p.stop ≤ x.addr ∨ x.stop ≤ p.addr := by
      refine (hs.tiles.apart hp hmem).resolve_left ?_
      rintro rfl
      rw [hx] at hfree
      cases hfree
    unfold Piece.stop minSize at *
    exact ⟨Bytes.load_blit (by omega), Bytes.load_blit (by omega)⟩

theorem Inv.alloc (hR : Region arch lo hi) (hI : Inv arch lo hi s (l ++ x :: r))
    (ha : Allocated arch s.heap h' lo hi l x q r r') :
    Inv arch lo hi ⟨countUsed h' q.size, (q.addr + 4) :: s.live⟩ (l ++ q :: r') := by
  have hperm : (used (l ++ q :: r')).Perm (q :: used (l ++ x :: r)) := by
    rw [used_append, used_append, used_cons_used ha.used, used_cons_free ha.free, ha.used_eq]
    exact perm_middle
  have hlen := ha.shape.tiles.length_le
  have hsum := ha.shape.tiles.sum_size
  have hlen' := used_length_le (l ++ q :: r')
  have hsum' := used_sum_le (l ++ q :: r')
  have hmul := Nat.le_mul_of_pos_right (l ++ q :: r').length (minSize_pos arch)
  have hsmall := hR.small
  have hnr := hperm.length_eq
  have hbytes := (hperm.map Piece.size).sum_eq
  rw [length_cons, ← hI.nr] at hnr
  rw [map_cons, sum_cons, ← hI.bytes] at hbytes
  refine ⟨ha.shape.congr (fun _ _ => rfl) (fun _ _ => ⟨rfl, rfl⟩) rfl, ha.coalesced,
    ha.counts.size.trans hI.size_eq, ?_, ?_, ?_⟩
  · exact ((hI.live.cons _).trans (Perm.of_eq (map_cons ..).symm)).trans
      (hperm.map (·.addr + 4)).symm
  · simp only [countUsed, ha.counts.nr]
    rw [hnr, U32.add_of_lt (by omega)]
  · simp only [countUsed, ha.counts.bytes]
    rw [hbytes, U32.add_of_lt (by omega), Nat.add_comm]

/-- The used pieces and their counters after a release. -/
theorem Inv.freed (hR : Region arch lo hi) (hI : Inv arch lo hi s (l ++ x :: r))
    (hx : x.free = false) (hm : Merged arch s.heap h' lo hi (used (l ++ r)) ps) :
    Inv arch lo hi ⟨countFreed h' x.size, s.live.erase (x.addr + 4)⟩ ps := by
  have hperm : (used (l ++ x :: r)).Perm (x :: used ps) := by
    rw [hm.used_eq, used_append, used_append, used_cons_used hx]
    exact perm_middle
  have hlen := hI.shape.tiles.length_le
  have hsum := hI.shape.tiles.sum_size
  have hlen' := used_length_le (l ++ x :: r)
  have hsum' := used_sum_le (l ++ x :: r)
  have hmul := Nat.le_mul_of_pos_right (l ++ x :: r).length (minSize_pos arch)
  have hsmall := hR.small
  have hnr := hperm.length_eq
  have hbytes := (hperm.map Piece.size).sum_eq
  rw [length_cons, ← hI.nr] at hnr
  rw [map_cons, sum_cons, ← hI.bytes] at hbytes
  rw [← hI.nr] at hlen'
  rw [← hI.bytes] at hsum'
  refine ⟨hm.shape.congr (fun _ _ => rfl) (fun _ _ => ⟨rfl, rfl⟩) rfl, hm.coalesced,
    hm.counts.size.trans hI.size_eq, ?_, ?_, ?_⟩
  · have := (hI.live.trans (hperm.map (·.addr + 4))).erase (x.addr + 4)
    rwa [map_cons, erase_cons_head] at this
  · simp only [countFreed, hm.counts.nr]
    rw [U32.sub_of_le (by omega) (by omega)]
    omega
  · simp only [countFreed, hm.counts.bytes]
    rw [U32.sub_of_le (by omega) (by omega)]
    omega

theorem Inv.exists_of_live (hI : Inv arch lo hi s ps) {ptr : Nat} (hp : ptr ∈ s.live) :
    ∃ l x r, ps = l ++ x :: r ∧ x.free = false ∧ ptr = x.addr + 4 := by
  obtain ⟨x, hx, rfl⟩ := List.mem_map.mp (hI.live.mem_iff.mp hp)
  obtain ⟨hmem, hfree⟩ := mem_used.mp hx
  obtain ⟨l, r, rfl⟩ := mem_iff_append.mp hmem
  exact ⟨l, x, r, rfl, hfree, rfl⟩

theorem Inv.zero_not_mem (hI : Inv arch lo hi s ps) : 0 ∉ s.live := by
  intro h0
  obtain ⟨_, x, _, _, _, hx⟩ := hI.exists_of_live h0
  omega

theorem Inv.blit (hI : Inv arch lo hi s (l ++ x :: r)) (hx : x.free = false) {o : Nat}
    {bs : List UInt8} (ho : x.addr + 4 ≤ o) (hend : o + bs.length ≤ x.stop) :
    Inv arch lo hi { s with heap := { s.heap with mem := Ring.blit s.heap.mem o bs } }
      (l ++ x :: r) :=
  ⟨hI.shape.blit hx ho hend, hI.coalesced, hI.size_eq, hI.live, hI.nr, hI.bytes⟩

theorem Inv.usable_eq (hR : Region arch lo hi) (hI : Inv arch lo hi s (l ++ x :: r)) :
    usable s.heap (x.addr + 4) = x.size - 4 := by
  have hmem := hI.shape.tiles.mem (mem_append_right l (mem_cons_self (a := x) (l := r)))
  have hword := four_le_word arch
  have hsmall := hR.small
  unfold Piece.stop minSize at hmem
  rw [usable, Nat.add_sub_cancel, hI.shape.header x (by simp), U32.sub_of_le (by omega) (by omega)]

theorem step_free (hR : Region arch lo hi) (hI : Inv arch lo hi s ps) {ptr : Nat}
    (hp : ptr ∈ s.live) :
    ∃ h' ps', tkFreeImpl arch s.heap ptr = some h' ∧
      Inv arch lo hi ⟨h', s.live.erase ptr⟩ ps' := by
  obtain ⟨l, x, r, rfl, hx, rfl⟩ := hI.exists_of_live hp
  obtain ⟨h', ps', hf, hm⟩ := tkFreeImpl_spec hR hI.shape hI.coalesced hx hI.size_eq
  exact ⟨_, ps', hf, hI.freed hR hx hm⟩

theorem step_alloc (hR : Region arch lo hi) (hlt : lo < hi) (hI : Inv arch lo hi s ps) {n : Nat}
    (hfits : Fits arch s.heap n) :
    tkAllocImpl arch s.heap n = some (0, s.heap) ∨
    ∃ l x r q r' h', ps = l ++ x :: r ∧ Allocated arch s.heap h' lo hi l x q r r' ∧
      q.size = grantedSize arch s.heap n ∧
      tkAllocImpl arch s.heap n = some (q.addr + 4, countUsed h' q.size) ∧
      Inv arch lo hi ⟨countUsed h' q.size, (q.addr + 4) :: s.live⟩ (l ++ q :: r') := by
  rcases tkAllocImpl_spec hR hI.shape hI.coalesced hI.size_eq hlt hfits with
    hnone | ⟨l, x, r, q, r', h', rfl, ha, hle, hrun⟩
  · exact .inl hnone
  · exact .inr ⟨l, x, r, q, r', h', rfl, ha, hle, hrun, hI.alloc hR ha⟩

/-- A reallocation that moves a block. -/
theorem step_realloc (hR : Region arch lo hi) (hlt : lo < hi) (hI : Inv arch lo hi s ps)
    {ptr n : Nat} (hp : ptr ∈ s.live) (hkeep : ¬ keeps arch s.heap ptr n)
    (hfits : Fits arch s.heap n) (hcopy : grantedSize arch s.heap n ≠ 0 →
      min n (usable s.heap ptr) + 4 ≤ grantedSize arch s.heap n) :
    tkReallocImpl arch s.heap ptr n = some (0, s.heap) ∨
    ∃ newPtr h' ps', newPtr ≠ 0 ∧ tkReallocImpl arch s.heap ptr n = some (newPtr, h') ∧
      Inv arch lo hi ⟨h', newPtr :: s.live.erase ptr⟩ ps' := by
  have hne : ptr ≠ 0 := fun h0 => hI.zero_not_mem (h0 ▸ hp)
  rcases step_alloc hR hlt hI hfits with
    hnone | ⟨l, x, r, q, r', h₁, rfl, ha, hle, hrun, hI₁⟩
  · exact .inl (by simp [tkReallocImpl, hne, hkeep, hnone])
  · right
    have hcount : (if n < usable s.heap ptr then n else usable s.heap ptr)
        = min n (usable s.heap ptr) := by split <;> omega
    -- the copy stays inside the new block
    have hmem := hI₁.shape.tiles.mem
      (mem_append_right l (mem_cons_self (a := q) (l := r')))
    have hpos := minSize_pos arch
    rw [← hle] at hcopy
    have hcopy := hcopy (by omega)
    have hin : q.addr + 4 + (slice h₁.mem ptr (min n (usable s.heap ptr))).length ≤ q.stop := by
      rw [slice_length]
      unfold Piece.stop
      omega
    have hI₂ := hI₁.blit ha.used le_rfl hin
    obtain ⟨h', ps', hf, hI'⟩ := step_free hR hI₂ (mem_cons_of_mem _ hp)
    have hother : q.addr + 4 ≠ ptr := by
      rintro rfl
      obtain ⟨l₀, x₀, r₀, heq, hx₀, haddr⟩ := hI.exists_of_live hp
      have hin : x₀ ∈ l ++ x :: r := heq ▸ mem_append_right _ mem_cons_self
      have hxin : x ∈ l ++ x :: r := mem_append_right _ mem_cons_self
      have hmin := (hI.shape.tiles.mem hxin).2.1
      have hmin₀ := (hI.shape.tiles.mem hin).2.1
      have := ha.addr
      rcases hI.shape.tiles.apart hin hxin with rfl | h | h
      · rw [ha.free] at hx₀
        cases hx₀
      all_goals
        unfold Piece.stop at h
        omega
    refine ⟨q.addr + 4, h', ps', by omega, ?_, ?_⟩
    · have hf' : tkFreeImpl arch (memcpy (countUsed h₁ q.size) (q.addr + 4) ptr
          (min n (usable s.heap ptr))) ptr = some h' := hf
      have hnew : q.addr + 4 ≠ 0 := by omega
      rw [tkReallocImpl, if_pos hne, if_neg hkeep, hrun, bind_some]
      simp only [hcount, if_pos hnew, hf', map_some]
    · rwa [erase_cons_tail (by simpa using hother)] at hI'

/-- Every call that is allowed and sound returns and keeps the invariant. -/
theorem Inv.step (hR : Region arch lo hi) (hlt : lo < hi) (hI : Inv arch lo hi s ps) {op : Op}
    (hallowed : Allowed s op) (hsound : Sound arch s op) :
    ∃ s' ps', step arch s op = some s' ∧ Inv arch lo hi s' ps' := by
  cases op with
  | alloc n =>
      rcases step_alloc hR hlt hI hsound with hnone | ⟨l, x, r, q, r', h', rfl, -, -, hrun, hI'⟩
      · exact ⟨s, ps, by simp [MemAllocatorSimple.step, hnone], hI⟩
      · exact ⟨_, _, by simp [MemAllocatorSimple.step, hrun], hI'⟩
  | free ptr =>
      rcases hallowed with rfl | hp
      · refine ⟨s, ps, ?_, hI⟩
        simp [MemAllocatorSimple.step, tkFreeImpl, erase_of_not_mem hI.zero_not_mem]
      · obtain ⟨h', ps', hf, hI'⟩ := step_free hR hI hp
        exact ⟨_, ps', by simp [MemAllocatorSimple.step, hf], hI'⟩
  | fill ptr offset bytes =>
      obtain ⟨hp, hin⟩ := hallowed
      obtain ⟨l, x, r, rfl, hx, rfl⟩ := hI.exists_of_live hp
      rw [hI.usable_eq hR] at hin
      have hword := four_le_word arch
      have hmin := (tiles_mid.mp hI.shape.tiles).2.1
      unfold minSize at hmin
      exact ⟨_, _, rfl, hI.blit hx (by omega) (by unfold Piece.stop; omega)⟩
  | realloc ptr n =>
      by_cases h0 : ptr = 0
      · subst h0
        have hfits := (hsound.resolve_left fun h => h.1 rfl).1
        rcases step_alloc hR hlt hI hfits with
          hnone | ⟨l, x, r, q, r', h', rfl, -, -, hrun, hI'⟩
        · exact ⟨s, ps, by simp [MemAllocatorSimple.step, tkReallocImpl, hnone], hI⟩
        · refine ⟨_, _, ?_, hI'⟩
          simp [MemAllocatorSimple.step, tkReallocImpl, hrun,
            erase_of_not_mem hI.zero_not_mem]
      have hp := hallowed.resolve_left h0
      by_cases hkeep : keeps arch s.heap ptr n.toNat
      · refine ⟨⟨s.heap, ptr :: s.live.erase ptr⟩, ps, ?_, hI.shape, hI.coalesced, hI.size_eq,
          (perm_cons_erase hp).symm.trans hI.live, hI.nr, hI.bytes⟩
        simp [MemAllocatorSimple.step, tkReallocImpl, h0, hkeep]
      · obtain ⟨hfits, hcopy⟩ := hsound.resolve_left fun h => hkeep h.2
        rcases step_realloc hR hlt hI hp hkeep hfits (hcopy h0) with
          hnone | ⟨newPtr, h', ps', hnew, hrun, hI'⟩
        · exact ⟨s, ps, by simp [MemAllocatorSimple.step, hnone], hI⟩
        · exact ⟨_, ps', by simp [MemAllocatorSimple.step, hrun, hnew], hI'⟩

/-! ## Runs -/

theorem tkMemInitImpl_ok {mem : Nat → UInt8} {buffer size : Nat}
    (hinit : tkMemInitImpl arch ⟨.zero, mem⟩ buffer size = (.ok, h)) :
    minSize arch < size ∧ ∃ mem', h = (((⟨{ MemInfo.zero with
      buffer := buffer, size := size, freeList := buffer }, mem'⟩ : Heap).setPrev arch buffer
        0).setNext arch buffer 0).setSize buffer size := by
  unfold tkMemInitImpl at hinit
  split at hinit
  case isTrue => cases hinit
  case isFalse hok =>
    rw [if_neg (by simp [MemInfo.zero])] at hinit
    cases hinit
    exact ⟨(not_not.mp hok).2, _, rfl⟩

theorem inv_init {mem : Nat → UInt8} {buffer size : Nat} (hR : Region arch buffer (buffer + size))
    (hinit : tkMemInitImpl arch ⟨.zero, mem⟩ buffer size = (.ok, h)) :
    Inv arch buffer (buffer + size) ⟨h, []⟩ [⟨buffer, size, true⟩] := by
  obtain ⟨hmin, mem', rfl⟩ := tkMemInitImpl_ok hinit
  have ht : Tiles (minSize arch) buffer [⟨buffer, size, true⟩] (buffer + size) :=
    ⟨rfl, hmin.le, rfl⟩
  have hS := hR.nodes ht
  have hb : Starts [⟨buffer, size, true⟩] buffer := ⟨_, mem_singleton_self _, rfl⟩
  have hsmall := hR.small
  have e₁ := hS.edit_setPrev (h := ⟨{ MemInfo.zero with
    buffer := buffer, size := size, freeList := buffer }, mem'⟩) hb (.inl rfl)
  have e₂ := hS.edit_setNext (h := Heap.setPrev arch ⟨{ MemInfo.zero with
    buffer := buffer, size := size, freeList := buffer }, mem'⟩ buffer 0) hb (.inl rfl)
  have e₃ := hS.edit_setSize (v := size) (h := (Heap.setPrev arch ⟨{ MemInfo.zero with
    buffer := buffer, size := size, freeList := buffer }, mem'⟩ buffer 0).setNext arch buffer 0) hb
    (by omega)
  refine ⟨⟨ht, ?_, rfl, seg_singleton.mpr ⟨?_, ?_⟩⟩, .singleton _, ?_, .nil, rfl, rfl⟩
  · intro p hp
    rw [mem_singleton.mp hp, e₃.size _ hb, if_pos rfl]
  · rw [e₃.prev _ hb, e₂.prev _ hb, e₁.prev _ hb, if_pos rfl]
  · rw [e₃.next _ hb, e₂.next _ hb, if_pos rfl]
  · simp [Heap.setSize, Heap.setNext, Heap.setPrev]

/-- After any calls that are allowed and sound the heap is in order. -/
theorem tidy_of_run {mem : Nat → UInt8} {buffer size : Nat}
    (hR : Region arch buffer (buffer + size))
    (hinit : tkMemInitImpl arch ⟨.zero, mem⟩ buffer size = (.ok, h)) {ops : List Op}
    (hmeets : Meets (step arch) (fun s op => Allowed s op ∧ Sound arch s op) ⟨h, []⟩ ops) :
    ∃ s free, run (step arch) ⟨h, []⟩ ops = some s ∧
      Tidy arch buffer (buffer + size) s free := by
  have hlt : buffer < buffer + size := by
    have := (tkMemInitImpl_ok hinit).1
    omega
  have hI : ∃ ps, Inv arch buffer (buffer + size) ⟨h, []⟩ ps := ⟨_, inv_init hR hinit⟩
  obtain ⟨s, hrun, ps, hI⟩ := run_progress
    (I := fun s => ∃ ps, Inv arch buffer (buffer + size) s ps)
    (fun s op ⟨ps, hI⟩ hC => by
      obtain ⟨s', ps', hs, hI'⟩ := hI.step hR hlt hC.1 hC.2
      exact ⟨s', hs, ps', hI'⟩) hI hmeets
  exact ⟨s, _, hrun, hI.tidy hlt⟩

/-- A new heap with a buffer of `size` bytes on a 64-bit machine. -/
def newHeap (size : Nat) : Heap :=
  (tkMemInitImpl .bits64 ⟨.zero, fun _ => 0⟩ 4096 size).2

theorem tidy_of_run_short :
    ∃ s free, run (step .bits64) ⟨newHeap 128, []⟩
      [.alloc 10, .alloc 30, .free 4100, .realloc 4124 8] = some s ∧
      Tidy .bits64 4096 (4096 + 128) s free :=
  tidy_of_run ⟨by decide, by decide, by decide⟩ (Prod.ext rfl rfl) (by decide +kernel)

/-! ## A request that wraps -/

/-- After one request of `4294967290` bytes the heap is not in order: the block
that was handed out has size zero. -/
theorem wrapped_alloc_not_tidy :
    ∃ s, tkMemInitImpl .bits64 ⟨.zero, fun _ => 0⟩ 4096 64 = (.ok, newHeap 64) ∧
      Meets (step .bits64) Allowed ⟨newHeap 64, []⟩ [.alloc 4294967290] ∧
      run (step .bits64) ⟨newHeap 64, []⟩ [.alloc 4294967290] = some s ∧
      s.live = [4100] ∧ s.heap.nodeSize 4096 = 0 ∧
      ∀ free, ¬ Tidy .bits64 4096 (4096 + 64) s free := by
  have hrun : (run (step .bits64) ⟨newHeap 64, []⟩ [.alloc 4294967290]).map
      (fun s => (s.live, s.heap.nodeSize 4096)) = some ([4100], 0) := by decide +kernel
  obtain ⟨s, hs, heq⟩ := map_eq_some_iff.mp hrun
  obtain ⟨hlive, hsize⟩ := Prod.mk.inj heq
  refine ⟨s, Prod.ext rfl rfl, by decide, hs, hlive, hsize, fun free htidy => ?_⟩
  obtain ⟨ps, ht, hperm⟩ := htidy.tiled
  have hmem : (⟨4096, 0, false⟩ : Piece) ∈ ps := by
    refine hperm.mem_iff.mpr (mem_append_left _ ?_)
    simp [liveBlocks, hlive, hsize]
  exact absurd (ht.mem hmem).2.1 (by decide)

end MemAllocatorSimple

end Awtk
