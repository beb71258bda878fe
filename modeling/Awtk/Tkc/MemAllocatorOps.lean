import Awtk.Tkc.MemAllocatorTiling

/-!
# What the calls do to the tiling

An allocation makes a free piece, or its first part, used.  A release makes a
used piece free and joins it to its free neighbours, so that no two free pieces
touch.  Each call changes the counters of the header by the piece it is about.
-/

namespace Awtk

open Tiling DList List Option

namespace MemAllocatorSimple

variable {arch : Arch} {h h' h'' : Heap} {lo hi : Nat} {p q x : Piece} {l r ps : List Piece}

/-- The header differs in the head of the list only. -/
def SameCounts (h h' : Heap) : Prop := h'.info = { h.info with freeList := h'.info.freeList }

theorem SameCounts.trans (h₁ : SameCounts h h') (h₂ : SameCounts h' h'') : SameCounts h h'' := by
  unfold SameCounts at *
  rw [h₂, h₁]

theorem SameCounts.nr (hc : SameCounts h h') : h'.info.usedBlockNr = h.info.usedBlockNr := by
  rw [hc]

theorem SameCounts.bytes (hc : SameCounts h h') : h'.info.usedBytes = h.info.usedBytes := by
  rw [hc]

theorem SameCounts.size (hc : SameCounts h h') : h'.info.size = h.info.size := by
  rw [hc]

theorem sameCounts_setFreeList (h : Heap) (v : Nat) : SameCounts h (h.setFreeList v) := rfl

theorem sameCounts_unlink (h : Heap) (v : Nat) : SameCounts h (unlink arch h v) := by
  unfold SameCounts unlink
  split <;> simp [Heap.setFreeList]

theorem sameCounts_splitNode (h : Heap) (v n : Nat) : SameCounts h (splitNode arch h v n) := by
  unfold SameCounts splitNode
  simp only [info_setSize]
  split <;> simp [Heap.setFreeList]

theorem sameCounts_nodeMerge2 (h : Heap) (v w : Nat) : SameCounts h (nodeMerge2 arch h v w) := by
  unfold SameCounts nodeMerge2
  split
  · dsimp only
    split <;> simp [Heap.setFreeList]
  · rfl

theorem Shape.congr (hs : Shape arch h lo hi ps)
    (hsize : ∀ p ∈ ps, h'.nodeSize p.addr = h.nodeSize p.addr)
    (hlinks : ∀ a ∈ freeAddrs ps, h'.next arch a = h.next arch a ∧ h'.prev arch a = h.prev arch a)
    (hhead : h'.info.freeList = h.info.freeList) : Shape arch h' lo hi ps where
  tiles := hs.tiles
  header p hp := (hsize p hp).trans (hs.header p hp)
  head := hhead.trans hs.head
  links := hs.links.congr hlinks

/-! ## Merging -/

theorem Shape.prev_apart (hs : Shape arch h lo hi (l ++ x :: r)) (hx : x.free = true)
    (hl : ¬ EndsFree l) :
    ¬ (h.prev arch x.addr ≠ 0 ∧ h.prev arch x.addr + h.nodeSize (h.prev arch x.addr) = x.addr) := by
  rw [(hs.mid hx).1]
  rintro ⟨hne, hadj⟩
  cases hfl : freeAddrs l with
  | nil => exact hne (by rw [hfl]; rfl)
  | cons a as =>
      have hmem : (freeAddrs l).getLastD 0 ∈ freeAddrs l := by
        rw [hfl, getLastD_cons]
        exact getLastD_mem_cons
      obtain ⟨q, hq, hfree, haddr⟩ := mem_freeAddrs.mp hmem
      have hlt := (tiles_mid.mp hs.tiles).1.stop_lt (minSize_pos arch) hl hq hfree
      rw [← haddr, hs.header q (mem_append_left _ hq)] at hadj
      unfold Piece.stop at hlt
      omega

theorem Shape.next_apart (hs : Shape arch h lo hi (l ++ x :: r)) (hx : x.free = true)
    (hr : ¬ StartsFree r) :
    ¬ (h.next arch x.addr ≠ 0 ∧ x.addr + h.nodeSize x.addr = h.next arch x.addr) := by
  rw [(hs.mid hx).2, hs.header x (by simp)]
  rintro ⟨hne, hadj⟩
  cases hfr : freeAddrs r with
  | nil => exact hne (by rw [hfr]; rfl)
  | cons a as =>
      have hmem : (freeAddrs r).headD 0 ∈ freeAddrs r := by
        rw [hfr, headD_cons]
        exact mem_cons_self
      obtain ⟨q, hq, hfree, haddr⟩ := mem_freeAddrs.mp hmem
      have hlt := (tiles_mid.mp hs.tiles).2.2.lt_addr (minSize_pos arch) hr hq hfree
      unfold Piece.stop at hlt
      omega

/-- What merging around a new free piece leads to: `us` are the used pieces. -/
structure Merged (arch : Arch) (h h' : Heap) (lo hi : Nat) (us ps : List Piece) : Prop where
  shape : Shape arch h' lo hi ps
  coalesced : Coalesced ps
  used_eq : used ps = us
  counts : SameCounts h h'

theorem nodeMerge_none (fuel : Nat) (hs : Shape arch h lo hi (l ++ x :: r)) (hx : x.free = true)
    (hl : ¬ EndsFree l) (hr : ¬ StartsFree r) : nodeMerge arch (fuel + 1) h x.addr = some h := by
  rw [nodeMerge, if_neg (hs.prev_apart hx hl), if_neg (hs.next_apart hx hr)]

theorem nodeMerge_right (hR : Region arch lo hi) (fuel : Nat)
    (hs : Shape arch h lo hi (l ++ x :: r)) (hx : x.free = true) (hl : ¬ EndsFree l)
    (hcl : Coalesced l) (hcr : Coalesced r) :
    ∃ h' ps, nodeMerge arch (fuel + 2) h x.addr = some h' ∧
      Merged arch h h' lo hi (used (l ++ r)) ps := by
  by_cases hr : StartsFree r
  · obtain ⟨q, r, rfl, hq⟩ := hr.exists_cons
    obtain ⟨-, hcr, hq'⟩ := (coalesced_mid (l := [])).mp hcr
    have hs' := hs.nodeMerge2 hR hx hq
    have hnext := (hs.mid hx).2
    rw [freeAddrs_cons_free hq, headD_cons] at hnext
    have hadj : x.addr + h.nodeSize x.addr = q.addr := by
      rw [hs.header x (by simp)]
      exact (tiles_mid.mp hs.tiles).2.2.1.symm
    have hq0 : q.addr ≠ 0 := (hR.nodes hs.tiles).pos (starts_of_mem (by simp))
    refine ⟨_, _, ?_, hs', coalesced_mid.mpr ⟨hcl, hcr, fun _ => ⟨hl, (hq' hq).2⟩⟩, ?_,
      sameCounts_nodeMerge2 ..⟩
    · rw [nodeMerge, if_neg (hs.prev_apart hx hl), hnext, if_pos ⟨hq0, hadj⟩]
      exact nodeMerge_none (x := ⟨x.addr, x.size + q.size, true⟩) fuel hs' rfl hl (hq' hq).2
    · simp [hq]
  · refine ⟨h, _, nodeMerge_none (fuel + 1) hs hx hl hr, hs,
      coalesced_mid.mpr ⟨hcl, hcr, fun _ => ⟨hl, hr⟩⟩, ?_, rfl⟩
    simp [hx]

theorem nodeMerge_spec (hR : Region arch lo hi) (fuel : Nat)
    (hs : Shape arch h lo hi (l ++ x :: r)) (hx : x.free = true)
    (hcl : Coalesced l) (hcr : Coalesced r) :
    ∃ h' ps, nodeMerge arch (fuel + 3) h x.addr = some h' ∧
      Merged arch h h' lo hi (used (l ++ r)) ps := by
  by_cases hl : EndsFree l
  · obtain ⟨l, p, rfl, hp⟩ := hl.exists_concat
    obtain ⟨hcl, -, hp'⟩ := coalesced_mid.mp hcl
    have hs₀ : Shape arch h lo hi (l ++ p :: x :: r) := by simpa using hs
    have hs' := hs₀.nodeMerge2 hR hp hx
    have hprev := (hs.mid hx).1
    rw [freeAddrs_append, freeAddrs_cons_free hp, freeAddrs_nil, getLastD_concat] at hprev
    have hadj : p.addr + h.nodeSize p.addr = x.addr := by
      rw [hs₀.header p (by simp)]
      exact (tiles_mid.mp hs₀.tiles).2.2.1.symm
    have hp0 : p.addr ≠ 0 := (hR.nodes hs₀.tiles).pos (starts_of_mem (by simp))
    obtain ⟨h', ps, hm, hmerged⟩ := nodeMerge_right hR fuel hs' rfl (hp' hp).1 hcl hcr
    refine ⟨h', ps, ?_, hmerged.shape, hmerged.coalesced, ?_,
      (sameCounts_nodeMerge2 ..).trans hmerged.counts⟩
    · rw [nodeMerge, hprev, if_pos ⟨hp0, hadj⟩]
      exact hm
    · rw [hmerged.used_eq]
      simp [hp]
  · exact nodeMerge_right hR (fuel + 1) hs hx hl hcl hcr

/-! ## Releasing a block -/

theorem Shape.setLinks_used (hR : Region arch lo hi) (hs : Shape arch h lo hi (l ++ x :: r))
    (hx : x.free = false) :
    Shape arch ((h.setPrev arch x.addr 0).setNext arch x.addr 0) lo hi (l ++ x :: r) := by
  have hA := hR.around hs.tiles
  have e₁ := hA.nodes.edit_setPrev (h := h) hA.mid (.inl rfl)
  have e₂ := hA.nodes.edit_setNext (h := h.setPrev arch x.addr 0) hA.mid (.inl rfl)
  refine hs.congr (fun p hp => ?_) (fun a ha => ?_) rfl
  · rw [e₂.size _ (starts_of_mem hp), e₁.size _ (starts_of_mem hp)]
  · have hne : a ≠ x.addr := by
      rw [freeAddrs_append, freeAddrs_cons_used hx, mem_append] at ha
      have := hA.stop
      rcases ha with ha | ha
      · exact (hA.left (starts_of_mem_freeAddrs ha)).2.ne
      · have := (hA.right (starts_of_mem_freeAddrs ha)).2
        omega
    have haS := starts_of_mem_freeAddrs ha
    exact ⟨by rw [e₂.next a haS, if_neg hne, e₁.next a haS],
      by rw [e₂.prev a haS, e₁.prev a haS, if_neg hne]⟩

theorem not_endsFree_of_freeAddrs (h : freeAddrs l = []) : ¬ EndsFree l := by
  intro hl
  obtain ⟨l, p, rfl, hp⟩ := hl.exists_concat
  simp [hp] at h

theorem not_startsFree_of_freeAddrs (h : freeAddrs r = []) : ¬ StartsFree r := by
  intro hr
  obtain ⟨p, r, rfl, hp⟩ := hr.exists_cons
  simp [hp] at h

/-- Putting a used piece on the free list makes it free and merges it. -/
theorem addNode_spec (hR : Region arch lo hi) (hs : Shape arch h lo hi (l ++ x :: r))
    (hc : Coalesced (l ++ x :: r)) (hx : x.free = false) (hsize : h.info.size = hi - lo) :
    ∃ h' ps, addNode arch h x.addr = some h' ∧ Merged arch h h' lo hi (used (l ++ r)) ps := by
  obtain ⟨hcl, hcr, -⟩ := coalesced_mid.mp hc
  have hs₁ := hs.setLinks_used hR hx
  have hA := hR.around hs.tiles
  have e₁ := hA.nodes.edit_setPrev (h := h) hA.mid (.inl rfl)
  have e₂ := hA.nodes.edit_setNext (h := h.setPrev arch x.addr 0) hA.mid (.inl rfl)
  have hnext := (e₂.next _ hA.mid).trans (if_pos rfl)
  have hprev := (e₂.prev _ hA.mid).trans ((e₁.prev _ hA.mid).trans (if_pos rfl))
  have hcounts : SameCounts h ((h.setPrev arch x.addr 0).setNext arch x.addr 0) := rfl
  have hinfo : ((h.setPrev arch x.addr 0).setNext arch x.addr 0).info = h.info := rfl
  unfold addNode
  generalize (h.setPrev arch x.addr 0).setNext arch x.addr 0 = h₁ at hs₁ hnext hprev hcounts hinfo ⊢
  have hlist := hs₁.head
  rw [freeAddrs_append, freeAddrs_cons_used hx] at hlist
  by_cases hnone : freeAddrs l ++ freeAddrs r = []
  · obtain ⟨hl, hr⟩ := append_eq_nil_iff.mp hnone
    rw [hnone, headD_nil] at hlist
    refine ⟨h₁.setFreeList x.addr, l ++ { x with free := true } :: r, if_pos hlist, ?_,
      coalesced_mid.mpr ⟨hcl, hcr, fun _ => ⟨not_endsFree_of_freeAddrs hl,
        not_startsFree_of_freeAddrs hr⟩⟩, by simp, hcounts.trans (sameCounts_setFreeList ..)⟩
    refine hs₁.insert (fun _ _ => rfl) ?_ ?_ ?_ ?_ ?_ ?_ ?_
    · simp [hl]
    · simp [hl]
    · simp [hr]
    · simp [hr]
    · rw [hl]
      exact hprev
    · rw [hr]
      exact hnext
    · rw [hl]
      rfl
  · obtain ⟨a, as, hcons⟩ := exists_cons_of_ne_nil hnone
    have hne : h₁.info.freeList ≠ 0 := by
      rw [hlist, hcons, headD_cons]
      refine (hR.nodes hs.tiles).pos (starts_of_mem_freeAddrs ?_)
      rw [freeAddrs_append, freeAddrs_cons_used hx, hcons]
      exact mem_cons_self
    -- the loops have enough fuel, as the pieces are at least `MIN_SIZE` long
    have hlen := hs.tiles.length_le
    have hmin : 12 ≤ minSize arch := by
      have := four_le_word arch
      unfold minSize
      omega
    have hmul := Nat.mul_le_mul_left (l ++ x :: r).length hmin
    have hfree := freeAddrs_length_le l
    rw [length_append, length_cons] at hlen hmul
    have hpassed : freeAddrs l = [] ++ freeAddrs l := rfl
    have hfuel : (freeAddrs l).length < h₁.info.size := by
      rw [hinfo]
      omega
    obtain ⟨h₂, hins, hinfo₂, hs₂⟩ := insertNode_spec hR hs₁ hx hnext hpassed hfuel hnone
    have hsize₂ : h₂.info.size = h.info.size := by rw [hinfo₂, hinfo]
    obtain ⟨fuel, hfuel⟩ : ∃ fuel, h₂.info.size = fuel + 3 := ⟨h₂.info.size - 3, by omega⟩
    obtain ⟨h', ps, hm, hmerged⟩ := nodeMerge_spec hR fuel hs₂ rfl hcl hcr
    refine ⟨h', ps, ?_, hmerged.shape, hmerged.coalesced, hmerged.used_eq,
      (hcounts.trans hinfo₂).trans hmerged.counts⟩
    dsimp only
    rw [if_neg hne, hlist, hins, bind_some, hfuel]
    exact hm

theorem tkFreeImpl_spec (hR : Region arch lo hi) (hs : Shape arch h lo hi (l ++ x :: r))
    (hc : Coalesced (l ++ x :: r)) (hx : x.free = false) (hsize : h.info.size = hi - lo) :
    ∃ h' ps, tkFreeImpl arch h (x.addr + 4) = some (countFreed h' x.size) ∧
      Merged arch h h' lo hi (used (l ++ r)) ps := by
  obtain ⟨h', ps, hadd, hm⟩ := addNode_spec hR hs hc hx hsize
  refine ⟨h', ps, ?_, hm⟩
  rw [tkFreeImpl, if_neg (by omega), Nat.add_sub_cancel, hadd, hs.header x (by simp)]
  rfl

/-! ## Allocating a block -/

theorem minSize_le_realSize (arch : Arch) (s : Nat) : minSize arch ≤ realSize arch s := by
  unfold realSize
  split <;> omega

theorem roundToMach_eq_zero_or (arch : Arch) {size : Nat} (h : size < 2 ^ 32) :
    roundToMach arch size = 0 ∨ size ≤ roundToMach arch size := by
  unfold roundToMach U32.add
  cases arch <;> simp only [Arch.word] <;> omega

theorem minSize_le_blockSize {s : Nat} (h : blockSize arch s ≠ 0) :
    minSize arch ≤ blockSize arch s := by
  have hsmall : realSize arch (U32.add s 4) < 2 ^ 32 := by
    have := U32.add_lt s 4
    unfold realSize minSize
    split
    · assumption
    · cases arch <;> decide
  exact (minSize_le_realSize ..).trans ((roundToMach_eq_zero_or arch hsmall).resolve_left h)

/-- A request whose block size did not wrap, or that finds no free block at
all.  On a machine with 32-bit pointers the size plus `MIN_SIZE` must not wrap
either. -/
def Fits (arch : Arch) (h : Heap) (s : Nat) : Prop :=
  (blockSize arch s ≠ 0 ∧ blockSize arch s + minSize arch < 256 ^ arch.word) ∨
    h.info.freeList = 0
  deriving Decidable

/-- The size of the block that an allocation of `s` bytes gives, `0` if there is
none. -/
def grantedSize (arch : Arch) (h : Heap) (s : Nat) : Nat :=
  let size := blockSize arch s
  match firstFit arch h size h.info.size h.info.freeList with
  | none => 0
  | some iter =>
    if iter = 0 then 0
    else if h.nodeSize iter < splitSize arch size then h.nodeSize iter else size

theorem firstFit_spec (size : Nat) : ∀ {as : List Nat} {p fuel : Nat},
    Seg (h.next arch) (h.prev arch) p as 0 → (∀ a ∈ as, a ≠ 0) → as.length < fuel →
      firstFit arch h size fuel (as.headD 0)
        = some ((as.find? fun a => size ≤ h.nodeSize a).getD 0)
  | [], _, fuel + 1, _, _, _ => rfl
  | a :: as, _, fuel + 1, hlinks, hne, hfuel => by
    rw [headD_cons, firstFit, if_neg (hne a mem_cons_self)]
    split_ifs with hfit
    · rw [find?_cons_of_pos (by simpa using hfit), getD_some]
    · rw [find?_cons_of_neg (by simpa using hfit), hlinks.2.1]
      exact firstFit_spec size hlinks.2.2 (fun b hb => hne b (mem_cons_of_mem _ hb))
        (Nat.lt_of_succ_lt_succ hfuel)

/-- What a successful allocation does: the free piece `x` between `l` and `r`
gave the used piece `q`, and `r'` is what follows it now. -/
structure Allocated (arch : Arch) (h h' : Heap) (lo hi : Nat) (l : List Piece) (x q : Piece)
    (r r' : List Piece) : Prop where
  free : x.free = true
  used : q.free = false
  addr : q.addr = x.addr
  shape : Shape arch h' lo hi (l ++ q :: r')
  coalesced : Coalesced (l ++ q :: r')
  used_eq : Tiling.used r' = Tiling.used r
  counts : SameCounts h h'

theorem freeAddrs_length_lt (hs : Shape arch h lo hi ps) (hsize : h.info.size = hi - lo)
    (hpos : lo < hi) : (freeAddrs ps).length < h.info.size := by
  have hlen := hs.tiles.length_le
  have hmin : 12 ≤ minSize arch := by
    have := four_le_word arch
    unfold minSize
    omega
  have hmul := Nat.mul_le_mul_left ps.length hmin
  have hfree := freeAddrs_length_le ps
  omega

/-- An allocation fails or makes a free piece, or its first part, used. -/
theorem tkAllocImpl_spec (hR : Region arch lo hi) (hs : Shape arch h lo hi ps)
    (hc : Coalesced ps) (hsize : h.info.size = hi - lo) (hpos : lo < hi) {s : Nat}
    (hfits : Fits arch h s) :
    tkAllocImpl arch h s = some (0, h) ∨
    ∃ l x r q r' h', ps = l ++ x :: r ∧ Allocated arch h h' lo hi l x q r r' ∧
      q.size = grantedSize arch h s ∧
      tkAllocImpl arch h s = some (q.addr + 4, countUsed h' q.size) := by
  have hS := hR.nodes hs.tiles
  have hfuel := freeAddrs_length_lt hs hsize hpos
  have hfirst := firstFit_spec (blockSize arch s) hs.links
    (fun a ha => hS.pos (starts_of_mem_freeAddrs ha)) hfuel
  rw [← hs.head] at hfirst
  cases hfind : (freeAddrs ps).find? fun a => blockSize arch s ≤ h.nodeSize a with
  | none =>
      left
      rw [hfind] at hfirst
      simp [tkAllocImpl, hfirst]
  | some a =>
      right
      rw [hfind, getD_some] at hfirst
      have hmem := mem_of_find?_eq_some hfind
      have hfit : blockSize arch s ≤ h.nodeSize a := by simpa using find?_some hfind
      obtain ⟨x, hx, hfree, rfl⟩ := mem_freeAddrs.mp hmem
      obtain ⟨l, r, rfl⟩ := mem_iff_append.mp hx
      obtain ⟨hcl, hcr, hx'⟩ := coalesced_mid.mp hc
      obtain ⟨hnone, hwrap⟩ : blockSize arch s ≠ 0 ∧
          blockSize arch s + minSize arch < 256 ^ arch.word := by
        refine hfits.resolve_right fun h0 => ?_
        rw [hs.head] at h0
        cases hl : freeAddrs (l ++ x :: r) with
        | nil => simp [hl] at hmem
        | cons b bs =>
            rw [hl, headD_cons] at h0
            exact hS.pos (starts_of_mem_freeAddrs (hl ▸ mem_cons_self)) h0
      have hmin := minSize_le_blockSize hnone
      have hheader := hs.header x hx
      rw [hheader] at hfit
      have hne : x.addr ≠ 0 := hS.pos (starts_of_mem hx)
      have hsplit : splitSize arch (blockSize arch s) = blockSize arch s + minSize arch :=
        Nat.mod_eq_of_lt hwrap
      have hgranted : grantedSize arch h s
          = if x.size < splitSize arch (blockSize arch s) then x.size else blockSize arch s := by
        simp only [grantedSize, hfirst, if_neg hne, hheader]
      rw [hsplit] at hgranted
      by_cases hsmall : x.size < blockSize arch s + minSize arch
      · have hs' := hs.unlink hR hfree
        have hh' := hs'.header { x with free := false } (by simp)
        refine ⟨l, x, r, { x with free := false }, r, _, rfl, ⟨hfree, rfl, rfl, hs',
          coalesced_mid.mpr ⟨hcl, hcr, nofun⟩, rfl, sameCounts_unlink ..⟩,
          hgranted.trans (if_pos hsmall) |>.symm, ?_⟩
        simp only [tkAllocImpl, hfirst, map_some, if_neg hne, hheader, hsplit,
          if_pos hsmall, hh']
      · have hs' := hs.splitNode hR hfree hmin (by omega)
        have hh' := hs'.header ⟨x.addr, blockSize arch s, false⟩ (by simp)
        have hcr' : Coalesced (⟨x.addr + blockSize arch s, x.size - blockSize arch s, true⟩ :: r) :=
          (coalesced_mid (l := [])).mpr ⟨.nil, hcr, fun _ => ⟨by simp [EndsFree], (hx' hfree).2⟩⟩
        refine ⟨l, x, r, ⟨x.addr, blockSize arch s, false⟩, _, _, rfl, ⟨hfree, rfl, rfl, hs',
          coalesced_mid.mpr ⟨hcl, hcr', nofun⟩, by simp, sameCounts_splitNode ..⟩,
          hgranted.trans (if_neg hsmall) |>.symm, ?_⟩
        simp only [tkAllocImpl, hfirst, map_some, if_neg hne, hheader, hsplit,
          if_neg hsmall, hh']

end MemAllocatorSimple

end Awtk
