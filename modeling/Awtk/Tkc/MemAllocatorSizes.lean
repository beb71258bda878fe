import Mathlib
import Awtk.Tkc.MemAllocatorRuns
import Awtk.Tkc.MemAllocatorFrames

/-!
# How much a caller gets

A `Ledger` is an allocator together with the sizes its callers asked for.  After any
calls whose sums do not wrap, `tk_alloc_impl` and `tk_realloc_impl` return null or a
pointer with the bytes that were asked for behind it, inside the buffer and apart
from all other blocks, and a reallocation keeps the bytes that the old and the new
request have in common (`sized_of_run`).
-/

namespace Awtk

open Ring Runs Tiling DList Function List Option

namespace MemAllocatorSimple

/-! ## Requests -/

/-- An allocator, and the size that was last asked for at each pointer. -/
structure Ledger where
  state : State
  asked : Nat → Nat

/-- One call, and what it asks for. -/
def ask (arch : Arch) (L : Ledger) : Op → Option Ledger
  | .alloc n => (tkAllocImpl arch L.state.heap n.toNat).map fun (ptr, h) =>
      ⟨⟨h, if ptr = 0 then L.state.live else ptr :: L.state.live⟩,
        Function.update L.asked ptr n.toNat⟩
  | .realloc ptr n => (tkReallocImpl arch L.state.heap ptr n.toNat).map fun (newPtr, h) =>
      ⟨⟨h, if newPtr = 0 then L.state.live else newPtr :: L.state.live.erase ptr⟩,
        Function.update L.asked newPtr n.toNat⟩
  | .free ptr => (step arch L.state (.free ptr)).map fun s => ⟨s, L.asked⟩
  | .fill ptr offset bytes => (step arch L.state (.fill ptr offset bytes)).map fun s => ⟨s, L.asked⟩

/-- The sums that `tk_alloc_impl` makes of `n` do not wrap, or no memory is free at
all.  The sum with `MIN_SIZE` can wrap on a machine with 32-bit pointers; it is of no
importance when the buffer is smaller than the block. -/
def Served (arch : Arch) (h : Heap) (n : Nat) : Prop :=
  h.info.freeList = 0 ∨ (n + 4 + (arch.word - 1) < 2 ^ 32 ∧
    (blockSize arch n + minSize arch < 256 ^ arch.word ∨ h.info.size < blockSize arch n))

instance decidableServed (arch : Arch) (h : Heap) (n : Nat) : Decidable (Served arch h n) :=
  inferInstanceAs (Decidable (_ ∨ _))

/-- The same of a call.  A block that is kept makes no sum. -/
def ServedOp (arch : Arch) (s : State) : Op → Prop
  | .alloc n => Served arch s.heap n.toNat
  | .realloc ptr n => (ptr ≠ 0 ∧ keeps arch s.heap ptr n.toNat) ∨ Served arch s.heap n.toNat
  | .free _ | .fill .. => True

instance decidableServedOp (arch : Arch) (s : State) : ∀ op, Decidable (ServedOp arch s op)
  | .alloc n => inferInstanceAs (Decidable (Served arch s.heap n.toNat))
  | .realloc ptr n => inferInstanceAs
      (Decidable ((ptr ≠ 0 ∧ keeps arch s.heap ptr n.toNat) ∨ Served arch s.heap n.toNat))
  | .free _ | .fill .. => .isTrue trivial

/-- `n` bytes behind `ptr` belong to its block, the block lies inside the buffer, and
no other block touches it. -/
structure Block (lo hi : Nat) (s : State) (ptr n : Nat) : Prop where
  room : n ≤ usable s.heap ptr
  above : lo + 4 ≤ ptr
  below : ptr + usable s.heap ptr ≤ hi
  apart : ∀ other ∈ s.live, other ≠ ptr →
    other + usable s.heap other + 4 ≤ ptr ∨ ptr + usable s.heap ptr + 4 ≤ other

/-- What a caller is promised of a call. -/
def Serves (arch : Arch) (lo hi : Nat) (L : Ledger) : Op → Prop
  | .alloc n => ∃ ptr h', tkAllocImpl arch L.state.heap n.toNat = some (ptr, h') ∧
      (ptr ≠ 0 → Block lo hi ⟨h', ptr :: L.state.live⟩ ptr n.toNat)
  | .realloc ptr n => ∃ newPtr h', tkReallocImpl arch L.state.heap ptr n.toNat = some (newPtr, h') ∧
      (newPtr ≠ 0 → Block lo hi ⟨h', newPtr :: L.state.live.erase ptr⟩ newPtr n.toNat ∧
        (ptr ≠ 0 → ∀ i < min (L.asked ptr) n.toNat,
          h'.mem (newPtr + i) = L.state.heap.mem (ptr + i)))
  | .free _ | .fill .. => True

variable {arch : Arch} {h h' : Heap} {lo hi n ptr : Nat} {s : State} {p q u x : Piece}
  {l r r' ps ps' : List Piece} {asked : Nat → Nat}

/-! ## Sizes -/

theorem le_roundToMach {size : Nat} (h : size + (arch.word - 1) < 2 ^ 32) :
    size ≤ roundToMach arch size := by
  rw [roundToMach, U32.add_of_lt h]
  cases arch with
  | bits32 =>
    simp only [Arch.word]
    omega
  | bits64 =>
    simp only [Arch.word]
    omega

theorem le_blockSize (h : n + 4 + (arch.word - 1) < 2 ^ 32) : n + 4 ≤ blockSize arch n := by
  have hreal : n + 4 ≤ realSize arch (n + 4) ∧ realSize arch (n + 4) + (arch.word - 1) < 2 ^ 32 := by
    unfold realSize
    split
    case isTrue => exact ⟨Nat.le_refl _, h⟩
    case isFalse hmin =>
      refine ⟨Nat.le_of_not_gt hmin, ?_⟩
      cases arch <;> decide
  rw [blockSize, U32.add_of_lt (by omega)]
  exact hreal.1.trans (le_roundToMach hreal.2)

theorem freeList_ne_zero (hR : Region arch lo hi) (hs : Shape arch h lo hi ps) (hx : x ∈ ps)
    (hfree : x.free = true) : h.info.freeList ≠ 0 := by
  have hmem : x.addr ∈ freeAddrs ps := mem_freeAddrs.mpr ⟨x, hx, hfree, rfl⟩
  rw [hs.head]
  cases hl : freeAddrs ps with
  | nil => simp [hl] at hmem
  | cons b bs =>
    have hb : b ∈ freeAddrs ps := hl ▸ mem_cons_self
    exact (hR.nodes hs.tiles).pos (starts_of_mem_freeAddrs hb)

theorem blockSize_le_grantedSize (hs : Shape arch h lo hi ps) (hne : grantedSize arch h n ≠ 0) :
    blockSize arch n ≤ grantedSize arch h n := by
  unfold grantedSize at hne ⊢
  dsimp only at hne ⊢
  cases hfirst : firstFit arch h (blockSize arch n) h.info.size h.info.freeList with
  | none => simp [hfirst] at hne
  | some iter =>
    simp only [hfirst] at hne ⊢
    split at hne
    case isTrue => exact absurd rfl hne
    case isFalse hiter =>
      rw [if_neg hiter]
      rw [hs.head] at hfirst
      split
      · exact (firstFit_mem hs.links hfirst hiter).2
      · exact Nat.le_refl _

theorem tkAllocImpl_large (hR : Region arch lo hi) (hs : Shape arch h lo hi ps)
    (hsize : h.info.size = hi - lo) (hlt : lo < hi) (hlarge : h.info.size < blockSize arch n) :
    tkAllocImpl arch h n = some (0, h) := by
  have hfirst := firstFit_spec (blockSize arch n) hs.links
    (fun a ha => (hR.nodes hs.tiles).pos (starts_of_mem_freeAddrs ha))
    (freeAddrs_length_lt hs hsize hlt)
  have hnone : ((freeAddrs ps).find? fun a => blockSize arch n ≤ h.nodeSize a) = none := by
    refine find?_eq_none.mpr fun a ha hfit => ?_
    obtain ⟨p, hp, -, rfl⟩ := mem_freeAddrs.mp ha
    have hmem := hs.tiles.mem hp
    have hheader := hs.header p hp
    unfold Piece.stop at hmem
    simp only [decide_eq_true_eq] at hfit
    omega
  rw [← hs.head, hnone] at hfirst
  simp [tkAllocImpl, hfirst]

/-! ## What one call does to the blocks -/

/-- The bytes of a piece are the same. -/
def Kept (h h' : Heap) (p : Piece) : Prop := ∀ a, p.addr ≤ a → a < p.stop → h'.mem a = h.mem a

theorem eq_of_addr_eq (ht : Tiles (minSize arch) lo ps hi) (hp : p ∈ ps) (hq : q ∈ ps)
    (h : p.addr = q.addr) : p = q := by
  have hpos := minSize_pos arch
  have hpm := (ht.mem hp).2.1
  have hqm := (ht.mem hq).2.1
  refine (ht.apart hp hq).resolve_right ?_
  unfold Piece.stop
  omega

/-- What an allocation gives: a new used piece `q` that is large enough.  The others
stay as they are. -/
structure Gives (arch : Arch) (lo hi : Nat) (s : State) (ps : List Piece) (n : Nat) (q : Piece)
    (h' : Heap) (ps' : List Piece) : Prop where
  inv : Inv arch lo hi ⟨h', (q.addr + 4) :: s.live⟩ ps'
  blocks : ∀ p, p ∈ used ps' ↔ p = q ∨ p ∈ used ps
  apart : ∀ p ∈ used ps, p.addr ≠ q.addr
  room : n + 4 ≤ q.size
  kept : ∀ p ∈ used ps, Kept s.heap h' p

/-- An allocation gives null or a piece that is large enough. -/
theorem step_alloc_gives (hR : Region arch lo hi) (hlt : lo < hi) (hI : Inv arch lo hi s ps)
    (hserved : Served arch s.heap n) :
    tkAllocImpl arch s.heap n = some (0, s.heap) ∨
    ∃ q h' ps', tkAllocImpl arch s.heap n = some (q.addr + 4, h') ∧
      Gives arch lo hi s ps n q h' ps' := by
  have hcases : Fits arch s.heap n ∨ s.heap.info.size < blockSize arch n := by
    rcases hserved with hnone | ⟨hwide, hsplit | hlarge⟩
    · exact .inl (.inr hnone)
    · have hle := le_blockSize hwide
      exact .inl (.inl ⟨by omega, hsplit⟩)
    · exact .inr hlarge
  rcases hcases with hfits | hlarge
  · rcases step_alloc hR hlt hI hfits with
      hnone | ⟨l, x, r, q, r', h₁, rfl, ha, hsize, hrun, hI'⟩
    · exact .inl hnone
    · have hx : x ∈ l ++ x :: r := mem_append_right _ mem_cons_self
      have hwide := (hserved.resolve_left (freeList_ne_zero hR hI.shape hx ha.free)).1
      have hq := hI'.shape.tiles.mem (mem_append_right l (mem_cons_self (a := q) (l := r')))
      have hpos := minSize_pos arch
      have hgranted := blockSize_le_grantedSize hI.shape (n := n) (by omega)
      have hle := le_blockSize hwide
      refine .inr ⟨q, _, _, hrun, hI', fun p => ?_, fun p hp haddr => ?_, by omega, ?_⟩
      · rw [used_append, used_append, used_cons_used ha.used, used_cons_free ha.free, ha.used_eq,
          mem_append, mem_append, mem_cons]
        exact or_left_comm
      · obtain ⟨hpmem, hpused⟩ := mem_used.mp hp
        have hpx := eq_of_addr_eq hI.shape.tiles hpmem hx (haddr.trans ha.addr)
        rw [hpx, ha.free] at hpused
        cases hpused
      · intro p hp a ha ha'
        obtain ⟨hpmem, hpused⟩ := mem_used.mp hp
        exact tkAllocImpl_kept hR hI.shape hfits hrun hpmem hpused ha ha'
  · exact .inl (tkAllocImpl_large hR hI.shape hI.size_eq hlt hlarge)

theorem step_free_gives (hR : Region arch lo hi) (hI : Inv arch lo hi s ps) (hu : u ∈ used ps) :
    ∃ h' ps', tkFreeImpl arch s.heap (u.addr + 4) = some h' ∧
      Inv arch lo hi ⟨h', s.live.erase (u.addr + 4)⟩ ps' ∧
      (∀ p, p ∈ used ps' ↔ p ∈ used ps ∧ p ≠ u) ∧
      ∀ p ∈ used ps, p ≠ u → Kept s.heap h' p := by
  obtain ⟨humem, hused⟩ := mem_used.mp hu
  obtain ⟨l, r, rfl⟩ := mem_iff_append.mp humem
  obtain ⟨h', ps', hrun, hm⟩ := tkFreeImpl_spec hR hI.shape hI.coalesced hused hI.size_eq
  refine ⟨_, ps', hrun, hI.freed hR hused hm, fun p => ?_, fun p hp hne a ha ha' => ?_⟩
  · have hl : u ∉ l := fun h => (lt_of_mem_left hI.shape.tiles (starts_of_mem h)).false
    have hr : u ∉ r := fun h => (lt_of_mem_right hI.shape.tiles (starts_of_mem h)).false
    rw [hm.used_eq, used_append, used_append, used_cons_used hused, mem_append, mem_append,
      mem_cons]
    constructor
    · rintro (hp | hp)
      · exact ⟨.inl hp, fun h => hl (h ▸ (mem_used.mp hp).1)⟩
      · exact ⟨.inr (.inr hp), fun h => hr (h ▸ (mem_used.mp hp).1)⟩
    · rintro ⟨hp | hp | hp, hne⟩
      · exact .inl hp
      · exact absurd hp hne
      · exact .inr hp
  · obtain ⟨hpmem, hpused⟩ := mem_used.mp hp
    exact tkFreeImpl_kept hR hI.shape humem hrun hpmem hpused hne ha ha'

theorem usable_of_mem (hR : Region arch lo hi) (hI : Inv arch lo hi s ps) (hu : u ∈ used ps) :
    usable s.heap (u.addr + 4) = u.size - 4 := by
  obtain ⟨l, r, rfl⟩ := mem_iff_append.mp (mem_used.mp hu).1
  exact hI.usable_eq hR

theorem memcpy_mem (h : Heap) (dst src : Nat) {n i : Nat} (hi : i < n) :
    (memcpy h dst src n).mem (dst + i) = h.mem (src + i) := by
  have hlen : i < (slice h.mem src n).length := by rwa [slice_length]
  have hread : blit h.mem dst (slice h.mem src n) (dst + i) = (slice h.mem src n)[i] :=
    blit_inside hlen
  simp only [slice, getElem_map, getElem_range] at hread
  exact hread

/-- A reallocation that does not keep its block gives null, or a new piece with the
bytes that fit into both. -/
theorem step_realloc_gives (hR : Region arch lo hi) (hlt : lo < hi) (hI : Inv arch lo hi s ps)
    (hu : u ∈ used ps) (hkeep : ¬ keeps arch s.heap (u.addr + 4) n)
    (hserved : Served arch s.heap n) :
    tkReallocImpl arch s.heap (u.addr + 4) n = some (0, s.heap) ∨
    ∃ q h' ps', tkReallocImpl arch s.heap (u.addr + 4) n = some (q.addr + 4, h') ∧
      Inv arch lo hi ⟨h', (q.addr + 4) :: s.live.erase (u.addr + 4)⟩ ps' ∧
      (∀ p, p ∈ used ps' ↔ p = q ∨ (p ∈ used ps ∧ p ≠ u)) ∧ (∀ p ∈ used ps, p.addr ≠ q.addr) ∧
      n + 4 ≤ q.size ∧
      ∀ i < min n (u.size - 4), h'.mem (q.addr + 4 + i) = s.heap.mem (u.addr + 4 + i) := by
  have hne : u.addr + 4 ≠ 0 := by omega
  rcases step_alloc_gives hR hlt hI hserved with hnone | ⟨q, h₁, ps₁, hrun, hg⟩
  · exact .inl (by simp [tkReallocImpl, hkeep, hnone])
  right
  have husable := usable_of_mem hR hI hu
  have hcount : (if n < usable s.heap (u.addr + 4) then n else usable s.heap (u.addr + 4)) =
      min n (u.size - 4) := by
    rw [husable]
    split <;> omega
  have hquq : q ≠ u := fun heq => hg.apart u hu (congrArg Piece.addr heq.symm)
  have hq₁ : q ∈ used ps₁ := (hg.blocks q).mpr (.inl rfl)
  -- the copy stays inside `q`
  have hin : q.addr + 4 + (slice h₁.mem (u.addr + 4) (min n (u.size - 4))).length ≤ q.stop := by
    have hroom := hg.room
    rw [slice_length]
    unfold Piece.stop
    omega
  have hI₂ : Inv arch lo hi ⟨memcpy h₁ (q.addr + 4) (u.addr + 4) (min n (u.size - 4)),
      (q.addr + 4) :: s.live⟩ ps₁ := by
    obtain ⟨hqmem, hqused⟩ := mem_used.mp hq₁
    obtain ⟨l, r, hsplit⟩ := mem_iff_append.mp hqmem
    have hinv := hg.inv
    rw [hsplit] at hinv ⊢
    exact hinv.blit hqused (Nat.le_refl _) hin
  obtain ⟨h', ps', hfree, hI', hused', hkept⟩ :=
    step_free_gives hR hI₂ ((hg.blocks u).mpr (.inr hu))
  refine ⟨q, h', ps', ?_, ?_, fun p => ?_, hg.apart, hg.room, fun i hi => ?_⟩
  · have hq0 : q.addr + 4 ≠ 0 := by omega
    have hfree' : tkFreeImpl arch (memcpy h₁ (q.addr + 4) (u.addr + 4) (min n (u.size - 4)))
        (u.addr + 4) = some h' := hfree
    rw [tkReallocImpl, if_pos hne, if_neg hkeep, hrun, bind_some]
    simp only [hcount, if_pos hq0, hfree', map_some]
  · have hother : q.addr + 4 ≠ u.addr + 4 := fun heq => hg.apart u hu (by omega)
    rwa [erase_cons_tail (by simpa using hother)] at hI'
  · rw [hused', hg.blocks]
    constructor
    · rintro ⟨rfl | hp, hpu⟩
      · exact .inl rfl
      · exact .inr ⟨hp, hpu⟩
    · rintro (rfl | ⟨hp, hpu⟩)
      · exact ⟨.inl rfl, hquq⟩
      · exact ⟨.inr hp, hpu⟩
  · have hroom := hg.room
    calc h'.mem (q.addr + 4 + i)
        = (memcpy h₁ (q.addr + 4) (u.addr + 4) (min n (u.size - 4))).mem (q.addr + 4 + i) := by
          refine hkept q hq₁ hquq _ (by omega) ?_
          unfold Piece.stop
          omega
      _ = h₁.mem (u.addr + 4 + i) := memcpy_mem h₁ _ _ hi
      _ = s.heap.mem (u.addr + 4 + i) := by
          refine hg.kept u hu _ (by omega) ?_
          unfold Piece.stop
          omega

/-! ## The ledger -/

/-- Every block has room for what was asked for. -/
structure Covered (arch : Arch) (lo hi : Nat) (L : Ledger) (ps : List Piece) : Prop where
  inv : Inv arch lo hi L.state ps
  room : ∀ p ∈ used ps, L.asked (p.addr + 4) + 4 ≤ p.size

variable {L : Ledger}

/-- The block of a used piece. -/
theorem Inv.block (hR : Region arch lo hi) (hI : Inv arch lo hi s ps) (hq : q ∈ used ps)
    (hroom : n + 4 ≤ q.size) : Block lo hi s (q.addr + 4) n := by
  have husable := usable_of_mem hR hI hq
  obtain ⟨hqmem, -⟩ := mem_used.mp hq
  have hmem := hI.shape.tiles.mem hqmem
  unfold Piece.stop at hmem
  refine ⟨by omega, by omega, by omega, fun other hother hne => ?_⟩
  obtain ⟨p, hp, rfl⟩ := List.mem_map.mp (hI.live.mem_iff.mp hother)
  obtain ⟨hpmem, -⟩ := mem_used.mp hp
  have hpsize := (hI.shape.tiles.mem hpmem).2.1
  have hword := four_le_word arch
  have hapart := (hI.shape.tiles.apart hpmem hqmem).resolve_left fun heq => hne (heq ▸ rfl)
  rw [usable_of_mem hR hI hp, husable]
  unfold Piece.stop minSize at *
  omega

theorem covered_update (L : Ledger) (hI : Inv arch lo hi s ps') (hroom : n + 4 ≤ q.size)
    (hold : ∀ p ∈ used ps', p = q ∨ (p.addr ≠ q.addr ∧ L.asked (p.addr + 4) + 4 ≤ p.size)) :
    Covered arch lo hi ⟨s, Function.update L.asked (q.addr + 4) n⟩ ps' := by
  refine ⟨hI, fun p hp => ?_⟩
  rcases hold p hp with rfl | ⟨hne, hle⟩
  · show Function.update L.asked (p.addr + 4) n (p.addr + 4) + 4 ≤ p.size
    rw [update_self]
    exact hroom
  · show Function.update L.asked (q.addr + 4) n (p.addr + 4) + 4 ≤ p.size
    rw [update_of_ne (by omega)]
    exact hle

/-- A call that gives null. -/
theorem Covered.null (hc : Covered arch lo hi L ps) (n : Nat) :
    Covered arch lo hi ⟨L.state, Function.update L.asked 0 n⟩ ps := by
  refine ⟨hc.inv, fun p hp => ?_⟩
  show Function.update L.asked 0 n (p.addr + 4) + 4 ≤ p.size
  rw [update_of_ne (by omega)]
  exact hc.room p hp

section

variable (hR : Region arch lo hi) (hlt : lo < hi) (hc : Covered arch lo hi L ps)
include hR hc

include hlt in
theorem ask_alloc {n : UInt32} (hserved : Served arch L.state.heap n.toNat) :
    (∃ L' ps', ask arch L (.alloc n) = some L' ∧ Covered arch lo hi L' ps') ∧
      Serves arch lo hi L (.alloc n) := by
  rcases step_alloc_gives hR hlt hc.inv hserved with hnone | ⟨q, h', ps', hrun, hg⟩
  · refine ⟨⟨_, ps, ?_, hc.null n.toNat⟩, ⟨0, L.state.heap, hnone, fun h0 => absurd rfl h0⟩⟩
    rw [ask, hnone]
    rfl
  · have hq0 : q.addr + 4 ≠ 0 := by omega
    have hq : q ∈ used ps' := (hg.blocks q).mpr (.inl rfl)
    refine ⟨⟨_, ps', ?_, covered_update L hg.inv hg.room fun p hp => ?_⟩,
      ⟨_, h', hrun, fun _ => hg.inv.block hR hq hg.room⟩⟩
    · rw [ask, hrun, map_some]
      simp only [if_neg hq0]
    · exact ((hg.blocks p).mp hp).imp id fun hold => ⟨hg.apart p hold, hc.room p hold⟩

include hlt in
theorem ask_realloc {ptr : Nat} {n : UInt32} (hallowed : Allowed L.state (.realloc ptr n))
    (hserved : ServedOp arch L.state (.realloc ptr n)) :
    (∃ L' ps', ask arch L (.realloc ptr n) = some L' ∧ Covered arch lo hi L' ps') ∧
      Serves arch lo hi L (.realloc ptr n) := by
  rcases hallowed with rfl | hlive
  · -- a null pointer is an allocation
    have herase : L.state.live.erase 0 = L.state.live := erase_of_not_mem hc.inv.zero_not_mem
    have hrealloc : tkReallocImpl arch L.state.heap 0 n.toNat =
        tkAllocImpl arch L.state.heap n.toNat := rfl
    obtain ⟨hask, hserves⟩ := ask_alloc hR hlt hc (hserved.resolve_left fun h => h.1 rfl)
    refine ⟨?_, ?_⟩
    · rwa [ask, hrealloc, herase]
    · obtain ⟨newPtr, h', hrun, hblock⟩ := hserves
      refine ⟨newPtr, h', hrun, fun hne => ⟨?_, fun h0 => absurd rfl h0⟩⟩
      rw [herase]
      exact hblock hne
  · obtain ⟨u, hu, rfl⟩ := List.mem_map.mp (hc.inv.live.mem_iff.mp hlive)
    have hne : u.addr + 4 ≠ 0 := by omega
    have husable := usable_of_mem hR hc.inv hu
    have humin := (hc.inv.shape.tiles.mem (mem_used.mp hu).1).2.1
    have hword := four_le_word arch
    unfold minSize at humin
    by_cases hkeep : keeps arch L.state.heap (u.addr + 4) n.toNat = true
    · have hroom : n.toNat + 4 ≤ u.size := by
        simp only [keeps, Bool.and_eq_true, decide_eq_true_eq] at hkeep
        omega
      have hI : Inv arch lo hi ⟨L.state.heap, (u.addr + 4) :: L.state.live.erase (u.addr + 4)⟩ ps :=
        ⟨hc.inv.shape, hc.inv.coalesced, hc.inv.size_eq,
          (perm_cons_erase hlive).symm.trans hc.inv.live, hc.inv.nr, hc.inv.bytes⟩
      have hrun : tkReallocImpl arch L.state.heap (u.addr + 4) n.toNat =
          some (u.addr + 4, L.state.heap) := by
        rw [tkReallocImpl, if_pos hne, if_pos hkeep]
      refine ⟨⟨_, ps, ?_, covered_update L hI hroom fun p hp => ?_⟩,
        ⟨_, _, hrun, fun _ => ⟨hI.block hR hu hroom, fun _ i _ => rfl⟩⟩⟩
      · rw [ask, hrun, map_some]
        simp only [if_neg hne]
      · by_cases heq : p = u
        · exact .inl heq
        · refine .inr ⟨fun haddr => heq ?_, hc.room p hp⟩
          exact eq_of_addr_eq hc.inv.shape.tiles (mem_used.mp hp).1 (mem_used.mp hu).1 haddr
    · rcases step_realloc_gives hR hlt hc.inv hu hkeep (hserved.resolve_left fun h => hkeep h.2) with
        hnone | ⟨q, h', ps', hrun, hI, hblocks, hapart, hroom, hbytes⟩
      · refine ⟨⟨_, ps, ?_, hc.null n.toNat⟩, ⟨0, L.state.heap, hnone, fun h0 => absurd rfl h0⟩⟩
        rw [ask, hnone]
        rfl
      · have hq0 : q.addr + 4 ≠ 0 := by omega
        have hq : q ∈ used ps' := (hblocks q).mpr (.inl rfl)
        have hasked := hc.room u hu
        refine ⟨⟨_, ps', ?_, covered_update L hI hroom fun p hp => ?_⟩,
          ⟨_, h', hrun, fun _ => ⟨hI.block hR hq hroom, fun _ i hi => hbytes i (by omega)⟩⟩⟩
        · rw [ask, hrun, map_some]
          simp only [if_neg hq0]
        · exact ((hblocks p).mp hp).imp id fun hold => ⟨hapart p hold.1, hc.room p hold.1⟩

theorem ask_free {ptr : Nat} (hallowed : Allowed L.state (.free ptr)) :
    ∃ L' ps', ask arch L (.free ptr) = some L' ∧ Covered arch lo hi L' ps' := by
  rcases hallowed with rfl | hlive
  · refine ⟨⟨L.state, L.asked⟩, ps, ?_, hc.inv, hc.room⟩
    simp [ask, step, tkFreeImpl, erase_of_not_mem hc.inv.zero_not_mem]
  · obtain ⟨u, hu, rfl⟩ := List.mem_map.mp (hc.inv.live.mem_iff.mp hlive)
    obtain ⟨h', ps', hrun, hI, hblocks, -⟩ := step_free_gives hR hc.inv hu
    refine ⟨⟨⟨h', L.state.live.erase (u.addr + 4)⟩, L.asked⟩, ps', ?_, hI, fun p hp => ?_⟩
    · simp [ask, step, hrun]
    · exact hc.room p ((hblocks p).mp hp).1

theorem ask_fill {ptr offset : Nat} {bytes : List UInt8}
    (hallowed : Allowed L.state (.fill ptr offset bytes)) :
    ∃ L' ps', ask arch L (.fill ptr offset bytes) = some L' ∧ Covered arch lo hi L' ps' := by
  obtain ⟨hlive, hin⟩ := hallowed
  obtain ⟨l, x, r, rfl, hx, rfl⟩ := hc.inv.exists_of_live hlive
  rw [hc.inv.usable_eq hR] at hin
  have hword := four_le_word arch
  have hmin := (tiles_mid.mp hc.inv.shape.tiles).2.1
  unfold minSize at hmin
  exact ⟨_, _, rfl, hc.inv.blit hx (by omega) (by unfold Piece.stop; omega), hc.room⟩

include hlt in
theorem ask_serves {op : Op} (hallowed : Allowed L.state op) (hserved : ServedOp arch L.state op) :
    (∃ L' ps', ask arch L op = some L' ∧ Covered arch lo hi L' ps') ∧ Serves arch lo hi L op := by
  cases op with
  | alloc n => exact ask_alloc hR hlt hc hserved
  | realloc ptr n => exact ask_realloc hR hlt hc hallowed hserved
  | free ptr => exact ⟨ask_free hR hc hallowed, trivial⟩
  | fill ptr offset bytes => exact ⟨ask_fill hR hc hallowed, trivial⟩

end

/-! ## Runs -/

/-- After any calls that are allowed and served, every call that is allowed and served
gives its caller null or what was asked for. -/
theorem sized_of_run {mem : Nat → UInt8} {buffer size : Nat}
    (hR : Region arch buffer (buffer + size))
    (hinit : tkMemInitImpl arch ⟨.zero, mem⟩ buffer size = (.ok, h)) {asked : Nat → Nat}
    {ops : List Op} (hmeets : Meets (ask arch)
      (fun L op => Allowed L.state op ∧ ServedOp arch L.state op) ⟨⟨h, []⟩, asked⟩ ops) :
    ∃ L, run (ask arch) ⟨⟨h, []⟩, asked⟩ ops = some L ∧
      ∀ op, Allowed L.state op → ServedOp arch L.state op →
        Serves arch buffer (buffer + size) L op := by
  have hlt : buffer < buffer + size := by
    have := (tkMemInitImpl_ok hinit).1
    omega
  have hstart : ∃ ps, Covered arch buffer (buffer + size) ⟨⟨h, []⟩, asked⟩ ps :=
    ⟨_, inv_init hR hinit, fun p hp => by simp [used] at hp⟩
  obtain ⟨L, hrun, ps, hc⟩ := run_progress
    (I := fun L => ∃ ps, Covered arch buffer (buffer + size) L ps)
    (fun L op hcovered hC => by
      obtain ⟨ps, hc⟩ := hcovered
      obtain ⟨⟨L', ps', hask, hc'⟩, -⟩ := ask_serves hR hlt hc hC.1 hC.2
      exact ⟨L', hask, ps', hc'⟩) hstart hmeets
  exact ⟨L, hrun, fun op hallowed hserved => (ask_serves hR hlt hc hallowed hserved).2⟩

theorem sized_of_run_short :
    ∃ L, run (ask .bits64) ⟨⟨newHeap 128, []⟩, fun _ => 0⟩
      [.alloc 10, .alloc 30, .free 4100, .realloc 4124 8] = some L ∧
      ∀ op, Allowed L.state op → ServedOp .bits64 L.state op →
        Serves .bits64 4096 (4096 + 128) L op :=
  sized_of_run ⟨by decide, by decide, by decide⟩ (Prod.ext rfl rfl) (by decide +kernel)

/-- The header of a request of `2 ^ 32 - 4` bytes wraps, and the smallest block is
handed out for it. -/
theorem wrapped_alloc_not_sized :
    tkMemInitImpl .bits64 ⟨.zero, fun _ => 0⟩ 4096 64 = (.ok, newHeap 64) ∧
    ¬ Serves .bits64 4096 (4096 + 64) ⟨⟨newHeap 64, []⟩, fun _ => 0⟩ (.alloc 4294967292) := by
  refine ⟨Prod.ext rfl rfl, ?_⟩
  rintro ⟨ptr, h', hrun, hblock⟩
  have hres : (tkAllocImpl .bits64 (newHeap 64) 4294967292).map
      (fun res => (res.1, usable res.2 res.1)) = some (4100, 20) := by decide +kernel
  have hrun' : tkAllocImpl .bits64 (newHeap 64) 4294967292 = some (ptr, h') := hrun
  rw [hrun', map_some] at hres
  obtain ⟨hptr, husable⟩ := Prod.mk.inj (some.inj hres)
  have hroom : 4294967292 ≤ usable h' ptr := (hblock (by simp_all)).room
  have husable' : usable h' ptr = 20 := husable
  omega

end MemAllocatorSimple

end Awtk
