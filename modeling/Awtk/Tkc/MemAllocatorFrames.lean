import Awtk.Tkc.MemAllocatorOps

/-!
# What the allocator leaves alone

The edits of the free list write the nodes of the list and nothing else.
`Closed arch S h` says that the links of the nodes at `S` lead to nodes at `S`, and
`Within arch S h h'` that `h'` came out of `h` by writes to such nodes.  The bytes of
the used pieces are in no node, so an allocation keeps all of them and a release
keeps those of the other pieces.
-/

namespace Awtk

open Ring Tiling DList List Option

namespace MemAllocatorSimple

/-! ## Writes to nodes -/

/-- The bytes outside the nodes at `S` are the same. -/
def Frame (arch : Arch) (S : Nat → Prop) (h h' : Heap) : Prop :=
  ∀ a, (∀ b, S b → a < b ∨ b + minSize arch ≤ a) → h'.mem a = h.mem a

/-- The links of nodes lead to nodes. -/
structure Closed (arch : Arch) (S : Nat → Prop) (h : Heap) : Prop where
  next : ∀ {a}, S a → h.next arch a = 0 ∨ S (h.next arch a)
  prev : ∀ {a}, S a → h.prev arch a = 0 ∨ S (h.prev arch a)

/-- Only nodes at `S` were written, and only with links to each other. -/
structure Within (arch : Arch) (S : Nat → Prop) (h h' : Heap) : Prop where
  frame : Frame arch S h h'
  closed : Closed arch S h'

variable {arch : Arch} {S T : Nat → Prop} {h h' h'' : Heap} {b v x : Nat}

theorem Frame.refl (h : Heap) : Frame arch S h h := fun _ _ => rfl

theorem Frame.trans (h₁ : Frame arch S h h') (h₂ : Frame arch S h' h'') : Frame arch S h h'' :=
  fun a ha => (h₂ a ha).trans (h₁ a ha)

theorem Within.trans (h₁ : Within arch S h h') (h₂ : Within arch S h' h'') :
    Within arch S h h'' :=
  ⟨h₁.frame.trans h₂.frame, h₂.closed⟩

theorem Within.refl (hc : Closed arch S h) : Within arch S h h := ⟨Frame.refl h, hc⟩

theorem frame_setNext (hb : S b) : Frame arch S h (h.setNext arch b v) := by
  intro a ha
  have hout := ha b hb
  unfold minSize at hout
  refine blit_outside ?_
  rw [Bytes.ofNat_length]
  omega

theorem frame_setPrev (hb : S b) : Frame arch S h (h.setPrev arch b v) := by
  intro a ha
  have hout := ha b hb
  unfold minSize at hout
  refine blit_outside ?_
  rw [Bytes.ofNat_length]
  omega

theorem frame_setSize (hb : S b) : Frame arch S h (h.setSize b v) := by
  intro a ha
  have hout := ha b hb
  have hword := four_le_word arch
  unfold minSize at hout
  refine blit_outside ?_
  rw [Bytes.ofNat_length]
  omega

theorem frame_linkNext (hb : b = 0 ∨ S b) : Frame arch S h (h.linkNext arch b v) := by
  unfold Heap.linkNext
  split
  case isTrue hne => exact frame_setNext (hb.resolve_left hne)
  case isFalse => exact Frame.refl h

theorem frame_linkPrev (hb : b = 0 ∨ S b) : Frame arch S h (h.linkPrev arch b v) := by
  unfold Heap.linkPrev
  split
  case isTrue hne => exact frame_setPrev (hb.resolve_left hne)
  case isFalse => exact Frame.refl h

theorem frame_setFreeList (p : Prop) [Decidable p] :
    Frame arch S h (if p then h.setFreeList v else h) := by
  intro a _
  split <;> rfl

theorem Within.setFreeList (w : Within arch S h h') (p : Prop) [Decidable p] :
    Within arch S h (if p then h'.setFreeList v else h') := by
  refine ⟨w.frame.trans (frame_setFreeList p), ?_⟩
  split
  case isTrue => exact ⟨w.closed.next, w.closed.prev⟩
  case isFalse => exact w.closed

theorem closed_of_edit {size next prev : Nat → Nat} {freeList : Nat}
    (e : Edit arch S h h' size next prev freeList)
    (hnext : ∀ a, S a → next a = 0 ∨ S (next a)) (hprev : ∀ a, S a → prev a = 0 ∨ S (prev a)) :
    Closed arch S h' :=
  ⟨fun ha => e.next _ ha ▸ hnext _ ha, fun ha => e.prev _ ha ▸ hprev _ ha⟩

namespace Nodes

variable (hS : Nodes arch S) (hc : Closed arch S h)
include hS hc

theorem within_linkNext (hb : b = 0 ∨ S b) (hv : v = 0 ∨ S v) :
    Within arch S h (h.linkNext arch b v) := by
  refine ⟨frame_linkNext hb, closed_of_edit (hS.edit_linkNext hb hv) ?_ fun _ ha => hc.prev ha⟩
  intro a ha
  split
  · exact hv
  · exact hc.next ha

theorem within_linkPrev (hb : b = 0 ∨ S b) (hv : v = 0 ∨ S v) :
    Within arch S h (h.linkPrev arch b v) := by
  refine ⟨frame_linkPrev hb, closed_of_edit (hS.edit_linkPrev hb hv) (fun _ ha => hc.next ha) ?_⟩
  intro a ha
  split
  · exact hv
  · exact hc.prev ha

theorem within_setNext (hb : S b) (hv : v = 0 ∨ S v) : Within arch S h (h.setNext arch b v) := by
  have hlink := within_linkNext hS hc (.inr hb) hv
  rwa [Heap.linkNext, if_pos (hS.pos hb)] at hlink

theorem within_setPrev (hb : S b) (hv : v = 0 ∨ S v) : Within arch S h (h.setPrev arch b v) := by
  have hlink := within_linkPrev hS hc (.inr hb) hv
  rwa [Heap.linkPrev, if_pos (hS.pos hb)] at hlink

theorem within_setSize (hb : S b) (hv : v < 2 ^ 32) : Within arch S h (h.setSize b v) :=
  ⟨frame_setSize hb,
    closed_of_edit (hS.edit_setSize hb hv) (fun _ ha => hc.next ha) fun _ ha => hc.prev ha⟩

/-! ## The edits of the list -/

theorem within_unlink (hx : S x) : Within arch S h (MemAllocatorSimple.unlink arch h x) := by
  unfold MemAllocatorSimple.unlink
  have w₁ := Within.setFreeList (v := h.next arch x) (.refl hc) (h.info.freeList = x)
  have w₂ := within_linkNext hS w₁.closed (w₁.closed.prev hx) (w₁.closed.next hx)
  have w₃ := within_linkPrev hS w₂.closed (w₂.closed.next hx) (w₂.closed.prev hx)
  exact w₁.trans (w₂.trans w₃)

theorem within_nodeMerge2 {p n : Nat} (hp : S p) (hn : S n) :
    Within arch S h (MemAllocatorSimple.nodeMerge2 arch h p n) := by
  unfold MemAllocatorSimple.nodeMerge2
  split
  case isTrue =>
    have w₁ := within_setNext hS hc hp (hc.next hn)
    have w₂ := within_linkPrev hS w₁.closed (w₁.closed.next hn) (.inr hp)
    exact w₁.trans (w₂.trans ((within_setSize hS w₂.closed hp (U32.add_lt ..)).setFreeList _))
  case isFalse => exact .refl hc

omit hc in
theorem within_nodeMerge : ∀ {fuel : Nat} {h : Heap} {x : Nat}, Closed arch S h → S x →
    nodeMerge arch fuel h x = some h' → Within arch S h h'
  | fuel + 1, h, x, hc, hx, hrun => by
    rw [nodeMerge] at hrun
    split at hrun
    case isTrue hmerge =>
      have hp := (hc.prev hx).resolve_left hmerge.1
      have w := within_nodeMerge2 hS hc hp hx
      exact w.trans (within_nodeMerge w.closed hp hrun)
    case isFalse =>
      split at hrun
      case isTrue hmerge =>
        have hn := (hc.next hx).resolve_left hmerge.1
        have w := within_nodeMerge2 hS hc hx hn
        exact w.trans (within_nodeMerge w.closed hx hrun)
      case isFalse =>
        cases hrun
        exact .refl hc

omit hc in
theorem within_insertNode (hx : S x) : ∀ {fuel : Nat} {h : Heap} {iter : Nat},
    Closed arch S h → iter = 0 ∨ S iter → insertNode arch x fuel h iter = some h' →
    Within arch S h h'
  | fuel + 1, h, iter, hc, hiter, hrun => by
    rw [insertNode] at hrun
    split at hrun
    case isTrue =>
      cases hrun
      exact .refl hc
    case isFalse hne =>
      have hn := hiter.resolve_left hne
      split at hrun
      case isTrue =>
        cases hrun
        have w₁ := within_setNext hS hc hx (.inr hn)
        have w₂ := within_setPrev hS w₁.closed hx (w₁.closed.prev hn)
        have w₃ := within_linkNext hS w₂.closed (w₂.closed.prev hn) (.inr hx)
        have w₄ := within_setPrev hS w₃.closed hn (.inr hx)
        exact w₁.trans (w₂.trans (w₃.trans (w₄.setFreeList _)))
      case isFalse =>
        split at hrun
        case isTrue =>
          cases hrun
          have w₁ := within_setNext hS hc hn (.inr hx)
          exact w₁.trans (within_setPrev hS w₁.closed hx (.inr hn))
        case isFalse => exact within_insertNode hx hc (hc.next hn) hrun

omit hc in
/-- Cutting a node writes the node, its rest `y` and its neighbours. -/
theorem frame_splitNode {size y : Nat} (hx : S x) (hy : S y) (hxy : x + size = y) (hne : x ≠ y)
    (hn : h.next arch x = 0 ∨ S (h.next arch x)) (hp : h.prev arch x = 0 ∨ S (h.prev arch x)) :
    Frame arch S h (MemAllocatorSimple.splitNode arch h x size) := by
  unfold MemAllocatorSimple.splitNode
  simp only [hxy]
  have e₁ := hS.edit_setSize (h := h) (v := U32.sub (h.nodeSize x) size) hy (U32.sub_lt ..)
  have f₁ : Frame arch S h (h.setSize y (U32.sub (h.nodeSize x) size)) := frame_setSize hy
  generalize h.setSize y _ = h₁ at e₁ f₁ ⊢
  rw [← e₁.next x hx] at hn
  rw [← e₁.prev x hx] at hp
  have e₂ := hS.edit_setNext (h := h₁) hy hn
  have f₂ : Frame arch S h₁ (h₁.setNext arch y (h₁.next arch x)) := frame_setNext hy
  generalize h₁.setNext arch y _ = h₂ at e₂ f₂ ⊢
  rw [← (e₂.next x hx).trans (if_neg hne)] at hn
  rw [← e₂.prev x hx] at hp
  have e₃ := hS.edit_setPrev (h := h₂) hy hp
  have f₃ : Frame arch S h₂ (h₂.setPrev arch y (h₂.prev arch x)) := frame_setPrev hy
  generalize h₂.setPrev arch y _ = h₃ at e₃ f₃ ⊢
  rw [← e₃.next x hx] at hn
  rw [← (e₃.prev x hx).trans (if_neg hne)] at hp
  have e₄ := hS.edit_linkNext (h := h₃) hp (.inr hy)
  have f₄ : Frame arch S h₃ (h₃.linkNext arch (h₃.prev arch x) y) := frame_linkNext hp
  generalize h₃.linkNext arch (h₃.prev arch x) y = h₄ at e₄ f₄ ⊢
  have hn₄ : h₄.next arch x = 0 ∨ S (h₄.next arch x) := by
    rw [e₄.next x hx]
    split
    · exact .inr hy
    · exact hn
  exact f₁.trans (f₂.trans (f₃.trans (f₄.trans ((frame_linkPrev hn₄).trans
    ((frame_setFreeList _).trans (frame_setSize hx))))))

end Nodes

/-! ## The calls -/

variable {lo hi s ptr : Nat} {p u y : Piece} {l r ps : List Piece}

theorem Nodes.mono (hS : Nodes arch S) (hsub : ∀ a, T a → S a) : Nodes arch T :=
  ⟨fun ha hb => hS.apart (hsub _ ha) (hsub _ hb), fun ha => hS.pos (hsub _ ha),
    fun ha => hS.lt (hsub _ ha)⟩

theorem headD_null_or (ps : List Piece) :
    (freeAddrs ps).headD 0 = 0 ∨ (freeAddrs ps).headD 0 ∈ freeAddrs ps := by
  cases freeAddrs ps with
  | nil => exact .inl rfl
  | cons a as => exact .inr mem_cons_self

theorem getLastD_null_or (ps : List Piece) :
    (freeAddrs ps).getLastD 0 = 0 ∨ (freeAddrs ps).getLastD 0 ∈ freeAddrs ps := by
  cases freeAddrs ps with
  | nil => exact .inl rfl
  | cons a as =>
    rw [getLastD_cons]
    exact .inr getLastD_mem_cons

theorem Shape.closed (hs : Shape arch h lo hi ps) : Closed arch (· ∈ freeAddrs ps) h := by
  have hlinks : ∀ {a}, a ∈ freeAddrs ps → ∃ l r : List Piece,
      (∀ b ∈ freeAddrs l, b ∈ freeAddrs ps) ∧ (∀ b ∈ freeAddrs r, b ∈ freeAddrs ps) ∧
      h.prev arch a = (freeAddrs l).getLastD 0 ∧ h.next arch a = (freeAddrs r).headD 0 := by
    intro a ha
    obtain ⟨p, hp, hfree, rfl⟩ := mem_freeAddrs.mp ha
    obtain ⟨l, r, rfl⟩ := mem_iff_append.mp hp
    refine ⟨l, r, fun b hb => ?_, fun b hb => ?_, hs.mid hfree⟩
    · rw [freeAddrs_append]
      exact mem_append_left _ hb
    · rw [freeAddrs_append, freeAddrs_cons_free hfree]
      exact mem_append_right _ (mem_cons_of_mem _ hb)
  constructor
  · intro a ha
    obtain ⟨l, r, -, hr, -, hnext⟩ := hlinks ha
    rw [hnext]
    exact (headD_null_or r).imp id (hr _)
  · intro a ha
    obtain ⟨l, r, hl, -, hprev, -⟩ := hlinks ha
    rw [hprev]
    exact (getLastD_null_or l).imp id (hl _)

theorem outside_of_ne (ht : Tiles (minSize arch) lo ps hi) (hu : u ∈ ps) (hp : p ∈ ps)
    (hne : u ≠ p) {a b : Nat} (ha : u.addr ≤ a) (ha' : a < u.stop) (hb : p.addr ≤ b)
    (hb' : b + minSize arch ≤ p.stop) : a < b ∨ b + minSize arch ≤ a := by
  have := (ht.apart hu hp).resolve_left hne
  omega

theorem node_le_stop (ht : Tiles (minSize arch) lo ps hi) (hp : p ∈ ps) :
    p.addr + minSize arch ≤ p.stop := by
  have := (ht.mem hp).2.1
  unfold Piece.stop
  omega

/-- The addresses that `tk_free_impl` writes to. -/
theorem addNode_frame (hR : Region arch lo hi) (hs : Shape arch h lo hi ps) (hp : p ∈ ps)
    (hadd : addNode arch h p.addr = some h') :
    Frame arch (fun a => a ∈ freeAddrs ps ∨ a = p.addr) h h' := by
  have hS : Nodes arch (fun a => a ∈ freeAddrs ps ∨ a = p.addr) := by
    refine (hR.nodes hs.tiles).mono ?_
    rintro a (ha | rfl)
    · exact starts_of_mem_freeAddrs ha
    · exact starts_of_mem hp
  have hx : p.addr ∈ freeAddrs ps ∨ p.addr = p.addr := .inr rfl
  have e₁ := hS.edit_setPrev (h := h) hx (.inl rfl)
  have e₂ := hS.edit_setNext (h := h.setPrev arch p.addr 0) hx (.inl rfl)
  have hframe : Frame arch (fun a => a ∈ freeAddrs ps ∨ a = p.addr) h
      ((h.setPrev arch p.addr 0).setNext arch p.addr 0) :=
    Frame.trans (frame_setPrev hx) (frame_setNext hx)
  have hclosed : Closed arch (fun a => a ∈ freeAddrs ps ∨ a = p.addr)
      ((h.setPrev arch p.addr 0).setNext arch p.addr 0) := by
    constructor
    · intro a ha
      rw [e₂.next a ha, e₁.next a ha]
      split
      case isTrue => exact .inl rfl
      case isFalse hne => exact (hs.closed.next (ha.resolve_right hne)).imp id .inl
    · intro a ha
      rw [e₂.prev a ha, e₁.prev a ha]
      split
      case isTrue => exact .inl rfl
      case isFalse hne => exact (hs.closed.prev (ha.resolve_right hne)).imp id .inl
  have hlist : ((h.setPrev arch p.addr 0).setNext arch p.addr 0).info.freeList =
      (freeAddrs ps).headD 0 := hs.head
  unfold addNode at hadd
  generalize (h.setPrev arch p.addr 0).setNext arch p.addr 0 = h₁ at hframe hclosed hlist hadd
  dsimp only at hadd
  split at hadd
  case isTrue =>
    cases hadd
    exact hframe
  case isFalse =>
    obtain ⟨h₂, hinsert, hmerge⟩ := bind_eq_some_iff.mp hadd
    rw [hlist] at hinsert
    have w := hS.within_insertNode hx hclosed ((headD_null_or ps).imp id .inl) hinsert
    exact hframe.trans (w.frame.trans (hS.within_nodeMerge w.closed hx hmerge).frame)

theorem tkFreeImpl_kept (hR : Region arch lo hi) (hs : Shape arch h lo hi ps) (hp : p ∈ ps)
    (hrun : tkFreeImpl arch h (p.addr + 4) = some h') (hu : u ∈ ps) (hused : u.free = false)
    (hne : u ≠ p) {a : Nat} (ha : u.addr ≤ a) (ha' : a < u.stop) : h'.mem a = h.mem a := by
  rw [tkFreeImpl, if_neg (by omega), Nat.add_sub_cancel] at hrun
  obtain ⟨h₁, hadd, rfl⟩ := map_eq_some_iff.mp hrun
  refine addNode_frame hR hs hp hadd a ?_
  rintro b (hb | rfl)
  · obtain ⟨q, hq, hfree, rfl⟩ := mem_freeAddrs.mp hb
    have huq : u ≠ q := by
      rintro rfl
      rw [hused] at hfree
      cases hfree
    exact outside_of_ne hs.tiles hu hq huq ha ha' (Nat.le_refl _) (node_le_stop hs.tiles hq)
  · exact outside_of_ne hs.tiles hu hp hne ha ha' (Nat.le_refl _) (node_le_stop hs.tiles hp)

theorem firstFit_mem {size iter : Nat} : ∀ {as : List Nat} {p fuel : Nat},
    Seg (h.next arch) (h.prev arch) p as 0 →
    firstFit arch h size fuel (as.headD 0) = some iter → iter ≠ 0 →
    iter ∈ as ∧ size ≤ h.nodeSize iter
  | [], _, fuel + 1, _, hrun, hne => by
    rw [headD_nil, firstFit, if_pos rfl] at hrun
    cases hrun
    exact absurd rfl hne
  | a :: as, _, fuel + 1, hlinks, hrun, hne => by
    rw [headD_cons, firstFit] at hrun
    split at hrun
    case isTrue =>
      cases hrun
      exact absurd rfl hne
    case isFalse =>
      split at hrun
      case isTrue hfit =>
        cases hrun
        exact ⟨mem_cons_self, hfit⟩
      case isFalse =>
        rw [hlinks.2.1] at hrun
        obtain ⟨hmem, hfit⟩ := firstFit_mem hlinks.2.2 hrun hne
        exact ⟨mem_cons_of_mem _ hmem, hfit⟩

/-- An allocation keeps the bytes of the used pieces. -/
theorem tkAllocImpl_kept (hR : Region arch lo hi) (hs : Shape arch h lo hi ps)
    (hfits : Fits arch h s) (hrun : tkAllocImpl arch h s = some (ptr, h')) (hu : u ∈ ps)
    (hused : u.free = false) {a : Nat} (ha : u.addr ≤ a) (ha' : a < u.stop) :
    h'.mem a = h.mem a := by
  obtain ⟨iter, hfirst, hres⟩ := map_eq_some_iff.mp hrun
  split at hres
  case isTrue =>
    cases hres
    rfl
  case isFalse hne =>
    rw [hs.head] at hfirst
    obtain ⟨hmem, hfit⟩ := firstFit_mem hs.links hfirst hne
    obtain ⟨x, hx, hfree, rfl⟩ := mem_freeAddrs.mp hmem
    have hfreeOut : ∀ b, b ∈ freeAddrs ps → a < b ∨ b + minSize arch ≤ a := by
      intro b hb
      obtain ⟨q, hq, hqfree, rfl⟩ := mem_freeAddrs.mp hb
      have huq : u ≠ q := by
        rintro rfl
        rw [hused] at hqfree
        cases hqfree
      exact outside_of_ne hs.tiles hu hq huq ha ha' (Nat.le_refl _) (node_le_stop hs.tiles hq)
    split at hres
    case isTrue =>
      cases hres
      have hS : Nodes arch (· ∈ freeAddrs ps) :=
        (hR.nodes hs.tiles).mono fun a ha => starts_of_mem_freeAddrs ha
      exact (hS.within_unlink hs.closed hmem).frame a hfreeOut
    case isFalse hlarge =>
      cases hres
      rw [hs.header x hx] at hfit hlarge
      obtain ⟨hnone, hwrap⟩ : blockSize arch s ≠ 0 ∧
          blockSize arch s + minSize arch < 256 ^ arch.word := by
        refine hfits.resolve_right fun h0 => ?_
        rw [hs.head] at h0
        cases hl : freeAddrs ps with
        | nil => simp [hl] at hmem
        | cons b bs =>
          rw [hl, headD_cons] at h0
          have hb : b ∈ freeAddrs ps := hl ▸ mem_cons_self
          exact (hR.nodes hs.tiles).pos (starts_of_mem_freeAddrs hb) h0
      have hrest : blockSize arch s + minSize arch ≤ x.size := by
        rw [splitSize, Nat.mod_eq_of_lt hwrap] at hlarge
        omega
      obtain ⟨l, r, rfl⟩ := mem_iff_append.mp hx
      obtain ⟨T, hT, hxT, hyT, hlT, hrT⟩ :=
        hR.nodes_split (hs.tiles.split false true (minSize_le_blockSize hnone) hrest)
      have hS : Nodes arch (fun a => a ∈ freeAddrs (l ++ x :: r) ∨ a = x.addr + blockSize arch s) := by
        refine hT.mono ?_
        rintro b (hb | rfl)
        · rw [freeAddrs_append, freeAddrs_cons_free hfree, mem_append, mem_cons] at hb
          rcases hb with hb | rfl | hb
          · exact hlT _ (starts_of_mem_freeAddrs hb)
          · exact hxT
          · exact hrT _ (starts_of_mem_freeAddrs hb)
        · exact hyT
      have hpos := minSize_pos arch
      have hmin := minSize_le_blockSize hnone
      refine hS.frame_splitNode (.inl hmem) (.inr rfl) rfl (by omega)
        ((hs.closed.next hmem).imp id .inl) ((hs.closed.prev hmem).imp id .inl) a ?_
      rintro b (hb | rfl)
      · exact hfreeOut b hb
      · have hux : u ≠ x := by
          rintro rfl
          rw [hused] at hfree
          cases hfree
        refine outside_of_ne hs.tiles hu hx hux ha ha' (Nat.le_add_right ..) ?_
        unfold Piece.stop
        omega

end MemAllocatorSimple

end Awtk
