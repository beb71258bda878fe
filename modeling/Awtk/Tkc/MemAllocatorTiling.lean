import Awtk.Lib.DList
import Awtk.Lib.Tiling
import Awtk.Tkc.MemAllocatorNodes

/-!
# The heap is a tiling

`Shape arch h lo hi ps` says that the pieces `ps` tile the addresses from `lo`
to `hi`, that each starts with its size, and that the free ones are the free
list in address order.  Each edit of the list is an edit of the tiling:
unlinking a node makes its piece used, splitting cuts it in two, inserting makes
a piece free and merging joins two pieces.
-/

namespace Awtk

open Tiling DList List

namespace MemAllocatorSimple

/-- A range of addresses a buffer can have. -/
structure Region (arch : Arch) (lo hi : Nat) : Prop where
  pos : 0 < lo
  fits : hi ≤ 256 ^ arch.word
  small : hi < lo + 2 ^ 32

/-- The pieces tile the range and the free ones are the free list. -/
structure Shape (arch : Arch) (h : Heap) (lo hi : Nat) (ps : List Piece) : Prop where
  tiles : Tiles (minSize arch) lo ps hi
  header : ∀ p ∈ ps, h.nodeSize p.addr = p.size
  head : h.info.freeList = (freeAddrs ps).headD 0
  links : Seg (h.next arch) (h.prev arch) 0 (freeAddrs ps) 0

/-- The addresses at which pieces start. -/
def Starts (ps : List Piece) (a : Nat) : Prop := ∃ p ∈ ps, p.addr = a

variable {arch : Arch} {h h' : Heap} {lo hi : Nat} {p q x : Piece} {l r ps : List Piece}

theorem minSize_pos (arch : Arch) : 0 < minSize arch := by
  have := four_le_word arch
  unfold minSize
  omega

theorem starts_of_mem (hp : p ∈ ps) : Starts ps p.addr := ⟨p, hp, rfl⟩

theorem starts_of_mem_freeAddrs {a : Nat} (ha : a ∈ freeAddrs ps) : Starts ps a := by
  obtain ⟨p, hp, -, rfl⟩ := mem_freeAddrs.mp ha
  exact starts_of_mem hp

theorem Starts.mono {a : Nat} (h : Starts l a) (hsub : l ⊆ ps) : Starts ps a := by
  obtain ⟨p, hp, rfl⟩ := h
  exact ⟨p, hsub hp, rfl⟩

/-- The pieces of a tiling can hold nodes. -/
theorem Region.nodes (hR : Region arch lo hi) (ht : Tiles (minSize arch) lo ps hi) :
    Nodes arch (Starts ps) := by
  have hmin := minSize_pos arch
  have hpos := hR.pos
  have hfits := hR.fits
  refine ⟨?_, ?_, ?_⟩
  · rintro _ _ ⟨p, hp, rfl⟩ ⟨q, hq, rfl⟩
    have := (ht.mem hp).2.1
    have := (ht.mem hq).2.1
    unfold Apart
    rcases ht.apart hp hq with rfl | h | h
    · exact .inl rfl
    all_goals
      unfold Piece.stop at h
      omega
  · rintro _ ⟨p, hp, rfl⟩
    have := (ht.mem hp).1
    omega
  · rintro _ ⟨p, hp, rfl⟩
    have := ht.mem hp
    unfold Piece.stop at this
    omega

/-! ## Addresses on the two sides of a piece -/

theorem lt_of_mem_left (ht : Tiles (minSize arch) lo (l ++ x :: r) hi) {a : Nat}
    (ha : Starts l a) : a < x.addr := by
  obtain ⟨p, hp, rfl⟩ := ha
  have := ht.stop_le_of_mem hp
  have := (ht.mem (mem_append_left _ hp)).2.1
  have := minSize_pos arch
  unfold Piece.stop at *
  omega

theorem stop_le_of_mem_right (ht : Tiles (minSize arch) lo (l ++ x :: r) hi) {a : Nat}
    (ha : Starts r a) : x.stop ≤ a := by
  obtain ⟨p, hp, rfl⟩ := ha
  exact ht.le_addr_of_mem hp

theorem lt_stop (ht : Tiles (minSize arch) lo (l ++ x :: r) hi) : x.addr < x.stop := by
  have := (tiles_mid.mp ht).2.1
  have := minSize_pos arch
  unfold Piece.stop
  omega

theorem lt_of_mem_right (ht : Tiles (minSize arch) lo (l ++ x :: r) hi) {a : Nat}
    (ha : Starts r a) : x.addr < a :=
  (lt_stop ht).trans_le (stop_le_of_mem_right ht ha)

theorem headD_mem_or (ps : List Piece) :
    (freeAddrs ps).headD 0 = 0 ∨ Starts ps ((freeAddrs ps).headD 0) := by
  cases h : freeAddrs ps with
  | nil => exact .inl rfl
  | cons a as => exact .inr (starts_of_mem_freeAddrs (by rw [h]; exact mem_cons_self))

theorem getLastD_mem_or (ps : List Piece) :
    (freeAddrs ps).getLastD 0 = 0 ∨ Starts ps ((freeAddrs ps).getLastD 0) := by
  cases h : freeAddrs ps with
  | nil => exact .inl rfl
  | cons a as =>
      refine .inr (starts_of_mem_freeAddrs ?_)
      rw [h, getLastD_cons]
      exact getLastD_mem_cons

theorem Tiles.nodup_freeAddrs (ht : Tiles (minSize arch) lo ps hi) : (freeAddrs ps).Nodup := by
  induction ps generalizing lo with
  | nil => exact nodup_nil
  | cons p ps ih =>
      have ih := ih ht.2.2
      by_cases hfree : p.free = true
      · rw [freeAddrs_cons_free hfree, nodup_cons]
        refine ⟨fun hmem => ?_, ih⟩
        exact (lt_of_mem_right (l := []) ht (starts_of_mem_freeAddrs hmem)).false
      · rwa [freeAddrs_cons_used (by simpa using hfree)]

/-- What is known about the addresses around a piece of a tiling. -/
structure Around (arch : Arch) (l : List Piece) (x : Piece) (r : List Piece) : Prop where
  nodes : Nodes arch (Starts (l ++ x :: r))
  mid : Starts (l ++ x :: r) x.addr
  left : ∀ {a}, Starts l a → Starts (l ++ x :: r) a ∧ a < x.addr
  right : ∀ {a}, Starts r a → Starts (l ++ x :: r) a ∧ x.stop ≤ a
  stop : x.addr < x.stop

theorem Region.around (hR : Region arch lo hi) (ht : Tiles (minSize arch) lo (l ++ x :: r) hi) :
    Around arch l x r where
  nodes := hR.nodes ht
  mid := starts_of_mem (by simp)
  left ha := ⟨ha.mono (by simp), lt_of_mem_left ht ha⟩
  right ha := ⟨ha.mono fun _ h => mem_append_right _ (mem_cons_of_mem _ h),
    stop_le_of_mem_right ht ha⟩
  stop := lt_stop ht

namespace Around

variable (hA : Around arch l x r)
include hA

theorem last : (freeAddrs l).getLastD 0 = 0 ∨ Starts (l ++ x :: r) ((freeAddrs l).getLastD 0) :=
  (getLastD_mem_or l).imp id fun h => (hA.left h).1

theorem first : (freeAddrs r).headD 0 = 0 ∨ Starts (l ++ x :: r) ((freeAddrs r).headD 0) :=
  (headD_mem_or r).imp id fun h => (hA.right h).1

theorem last_lt : (freeAddrs l).getLastD 0 < x.addr := by
  rcases getLastD_mem_or l with h0 | hmem
  · have := hA.nodes.pos hA.mid
    omega
  · exact (hA.left hmem).2

theorem left_ne_first {a : Nat} (ha : a ∈ freeAddrs l) : a ≠ (freeAddrs r).headD 0 := by
  have := (hA.left (starts_of_mem_freeAddrs ha)).2
  have := hA.stop
  rcases headD_mem_or r with h0 | hmem
  · rw [h0]
    exact hA.nodes.pos (hA.left (starts_of_mem_freeAddrs ha)).1
  · have := (hA.right hmem).2
    omega

theorem right_ne_last {a : Nat} (ha : a ∈ freeAddrs r) : a ≠ (freeAddrs l).getLastD 0 := by
  have := (hA.right (starts_of_mem_freeAddrs ha)).2
  have := hA.stop
  have := hA.last_lt
  omega

end Around

/-! ## Replacing pieces -/

theorem Shape.mid (hs : Shape arch h lo hi (l ++ x :: r)) (hx : x.free = true) :
    h.prev arch x.addr = (freeAddrs l).getLastD 0 ∧
    h.next arch x.addr = (freeAddrs r).headD 0 := by
  have := hs.links
  rw [freeAddrs_append, freeAddrs_cons_free hx] at this
  exact this.mid

/-- Replace some pieces by others: the links are written next to them only. -/
theorem Shape.replace (m m' : List Piece) (hs : Shape arch h lo hi (l ++ (m ++ r)))
    (ht : Tiles (minSize arch) lo (l ++ (m' ++ r)) hi)
    (hsize : ∀ q, q ∈ l ∨ q ∈ r → h'.nodeSize q.addr = h.nodeSize q.addr)
    (hsize' : ∀ q ∈ m', h'.nodeSize q.addr = q.size)
    (hln : ∀ a ∈ freeAddrs l, h'.next arch a = if a = (freeAddrs l).getLastD 0
      then (freeAddrs m').headD ((freeAddrs r).headD 0) else h.next arch a)
    (hlp : ∀ a ∈ freeAddrs l, h'.prev arch a = h.prev arch a)
    (hrn : ∀ a ∈ freeAddrs r, h'.next arch a = h.next arch a)
    (hrp : ∀ a ∈ freeAddrs r, h'.prev arch a = if a = (freeAddrs r).headD 0
      then (freeAddrs m').getLastD ((freeAddrs l).getLastD 0) else h.prev arch a)
    (hm : Seg (h'.next arch) (h'.prev arch) ((freeAddrs l).getLastD 0) (freeAddrs m')
      ((freeAddrs r).headD 0))
    (hhead : h'.info.freeList
      = (freeAddrs l).headD ((freeAddrs m').headD ((freeAddrs r).headD 0))) :
    Shape arch h' lo hi (l ++ (m' ++ r)) where
  tiles := ht
  header q hq := by
    rcases mem_append.mp hq with hq | hq
    · rw [hsize q (.inl hq)]
      exact hs.header q (mem_append_left _ hq)
    · rcases mem_append.mp hq with hq | hq
      · exact hsize' q hq
      · rw [hsize q (.inr hq)]
        exact hs.header q (mem_append_right _ (mem_append_right _ hq))
  head := by rw [hhead, freeAddrs_append, freeAddrs_append, headD_append, headD_append]
  links := by
    have hl := (tiles_append.mp ht).choose_spec.1
    have hr := (tiles_append.mp (tiles_append.mp ht).choose_spec.2).choose_spec.2
    have hlinks := hs.links
    rw [freeAddrs_append, freeAddrs_append] at hlinks ⊢
    exact hlinks.splice (Tiles.nodup_freeAddrs hl) (Tiles.nodup_freeAddrs hr) hln hlp hrn hrp hm

/-! ## The edits of the tiling -/

theorem head_eq_iff (hs : Shape arch h lo hi (l ++ x :: r)) (hx : x.free = true) (v : Nat) :
    (if h.info.freeList = x.addr then v else h.info.freeList) = (freeAddrs l).headD v := by
  have hhead := hs.head
  rw [freeAddrs_append, freeAddrs_cons_free hx, headD_append] at hhead
  cases hl : freeAddrs l with
  | nil =>
      rw [hl, headD_nil, headD_cons] at hhead
      rw [if_pos hhead, headD_nil]
  | cons a as =>
      rw [hl] at hhead
      have ha : Starts l a := starts_of_mem_freeAddrs (by rw [hl]; exact mem_cons_self)
      have := lt_of_mem_left hs.tiles ha
      rw [hhead, headD_cons, headD_cons, if_neg (by omega)]

theorem Shape.unlink (hR : Region arch lo hi) (hs : Shape arch h lo hi (l ++ x :: r))
    (hx : x.free = true) :
    Shape arch (unlink arch h x.addr) lo hi (l ++ { x with free := false } :: r) := by
  obtain ⟨hp, hn⟩ := hs.mid hx
  have hA := hR.around hs.tiles
  have e := hA.nodes.unlink hA.mid hp hn hA.last hA.first hA.last_lt.ne'
  have hleft {a} (ha : a ∈ freeAddrs l) := (hA.left (starts_of_mem_freeAddrs ha)).1
  have hright {a} (ha : a ∈ freeAddrs r) := (hA.right (starts_of_mem_freeAddrs ha)).1
  refine hs.replace [x] [{ x with free := false }] (hs.tiles.retag false)
    ?_ ?_ ?_ ?_ ?_ ?_ seg_nil ?_
  · rintro q (hq | hq)
    · exact e.size _ (hA.left (starts_of_mem hq)).1
    · exact e.size _ (hA.right (starts_of_mem hq)).1
  · intro q hq
    rw [mem_singleton.mp hq, e.size _ hA.mid]
    exact hs.header x (by simp)
  · exact fun a ha => e.next a (hleft ha)
  · exact fun a ha => (e.prev a (hleft ha)).trans (if_neg (hA.left_ne_first ha))
  · exact fun a ha => (e.next a (hright ha)).trans (if_neg (hA.right_ne_last ha))
  · exact fun a ha => e.prev a (hright ha)
  · rw [e.info]
    exact head_eq_iff hs hx _

theorem Region.nodes_split (hR : Region arch lo hi) {size : Nat}
    (ht : Tiles (minSize arch) lo
      (l ++ ⟨x.addr, size, false⟩ :: ⟨x.addr + size, x.size - size, true⟩ :: r) hi) :
    ∃ S, Nodes arch S ∧ S x.addr ∧ S (x.addr + size) ∧ (∀ a, Starts l a → S a) ∧
      ∀ a, Starts r a → S a := by
  refine ⟨_, hR.nodes ht, ⟨_, mem_append_right _ mem_cons_self, rfl⟩,
    ⟨_, mem_append_right _ (mem_cons_of_mem _ mem_cons_self), rfl⟩,
    fun a ha => ha.mono (by simp), fun a ha => ha.mono fun _ h => by simp [h]⟩

/-- Splitting a free piece makes its first part used. -/
theorem Shape.splitNode (hR : Region arch lo hi) (hs : Shape arch h lo hi (l ++ x :: r))
    (hx : x.free = true) {size : Nat} (hmin : minSize arch ≤ size)
    (hrest : size + minSize arch ≤ x.size) :
    Shape arch (splitNode arch h x.addr size) lo hi
      (l ++ ⟨x.addr, size, false⟩ :: ⟨x.addr + size, x.size - size, true⟩ :: r) := by
  obtain ⟨hp, hn⟩ := hs.mid hx
  have hA := hR.around hs.tiles
  have ht := hs.tiles.split false true hmin hrest
  obtain ⟨S, hS, hxS, hyS, hSl, hSr⟩ := hR.nodes_split ht
  have hpos := minSize_pos arch
  have hmem := hs.tiles.mem (mem_append_right _ (mem_cons_self (a := x)))
  have hsmall := hR.small
  have hlast := hA.last_lt
  have hstop : x.stop = x.addr + x.size := rfl
  have hl {a} (ha : a ∈ freeAddrs l) := hA.left (starts_of_mem_freeAddrs ha)
  have hr {a} (ha : a ∈ freeAddrs r) := hA.right (starts_of_mem_freeAddrs ha)
  have hfirst : x.addr + size ≠ (freeAddrs r).headD 0 := by
    rcases headD_mem_or r with h0 | hmem
    · omega
    · have := (hA.right hmem).2
      omega
  have e := hS.splitNode hxS hyS rfl (by omega) (by omega) hp hn
    ((getLastD_mem_or l).imp id (hSl _)) ((headD_mem_or r).imp id (hSr _)) hlast.ne'
  have hlS {a} (ha : a ∈ freeAddrs l) := hSl a (starts_of_mem_freeAddrs ha)
  have hrS {a} (ha : a ∈ freeAddrs r) := hSr a (starts_of_mem_freeAddrs ha)
  have hsize : h.nodeSize x.addr = x.size := hs.header x (by simp)
  refine hs.replace [x] [⟨x.addr, size, false⟩, ⟨x.addr + size, x.size - size, true⟩] ht ?_ ?_ ?_ ?_ ?_ ?_ ?_ ?_
  · rintro q (hq | hq)
    · have := (hA.left (starts_of_mem hq)).2
      rw [e.size _ (hSl _ (starts_of_mem hq)), if_neg (by omega), if_neg (by omega)]
    · have := (hA.right (starts_of_mem hq)).2
      rw [e.size _ (hSr _ (starts_of_mem hq)), if_neg (by omega), if_neg (by omega)]
  · intro q hq
    rcases mem_pair.mp hq with rfl | rfl
    · rw [e.size _ hxS, if_pos rfl]
    · rw [e.size _ hyS, if_neg (by omega), if_pos rfl, hsize, U32.sub_of_le (by omega) (by omega)]
  · intro a ha
    have := (hl ha).2
    rw [e.next a (hlS ha)]
    split
    · rfl
    · rw [if_neg (by omega)]
  · intro a ha
    have := (hl ha).2
    rw [e.prev a (hlS ha), if_neg (hA.left_ne_first ha), if_neg (by omega)]
  · intro a ha
    have := (hr ha).2
    rw [e.next a (hrS ha), if_neg (hA.right_ne_last ha), if_neg (by omega)]
  · intro a ha
    have := (hr ha).2
    rw [e.prev a (hrS ha)]
    split
    · rfl
    · rw [if_neg (by omega)]
  · refine seg_singleton.mpr ⟨?_, ?_⟩
    · rw [e.prev _ hyS, if_neg hfirst, if_pos rfl]
    · rw [e.next _ hyS, if_neg (by omega), if_pos rfl]
  · rw [e.info]
    exact head_eq_iff hs hx _

/-- Merging two free neighbours joins their pieces. -/
theorem Shape.nodeMerge2 (hR : Region arch lo hi) (hs : Shape arch h lo hi (l ++ p :: q :: r))
    (hp : p.free = true) (hq : q.free = true) :
    Shape arch (nodeMerge2 arch h p.addr q.addr) lo hi
      (l ++ ⟨p.addr, p.size + q.size, true⟩ :: r) := by
  obtain ⟨-, hpn⟩ := hs.mid hp
  have hsq : Shape arch h lo hi ((l ++ [p]) ++ q :: r) := by simpa using hs
  obtain ⟨-, hqn⟩ := hsq.mid hq
  rw [freeAddrs_cons_free hq, headD_cons] at hpn
  have hA := hR.around hs.tiles
  have hqS : Starts (l ++ p :: q :: r) q.addr := starts_of_mem (by simp)
  have hpq : p.stop = q.addr := (tiles_mid.mp hs.tiles).2.2.1.symm
  have hstop := hA.stop
  have hr {a} (ha : Starts r a) := hA.right (ha.mono fun _ h => mem_cons_of_mem q h)
  have hfirst : (freeAddrs r).headD 0 = 0 ∨ Starts (l ++ p :: q :: r) ((freeAddrs r).headD 0) :=
    (headD_mem_or r).imp id fun h => (hr h).1
  have hpfirst : p.addr ≠ (freeAddrs r).headD 0 := by
    have := hA.nodes.pos hA.mid
    rcases headD_mem_or r with h0 | hmem
    · omega
    · have := (hr hmem).2
      omega
  have e := hA.nodes.nodeMerge2 hA.mid hqS hpn hqn hfirst (by omega)
  have hleft {a} (ha : a ∈ freeAddrs l) := hA.left (starts_of_mem_freeAddrs ha)
  have hright {a} (ha : a ∈ freeAddrs r) := hr (starts_of_mem_freeAddrs ha)
  have hlow := (hs.tiles.mem (mem_append_right _ (mem_cons_self (a := p)))).1
  have hhigh := (hsq.tiles.mem (mem_append_right _ (mem_cons_self (a := q)))).2.2
  have hsmall := hR.small
  have hlinks := hs.links
  rw [freeAddrs_append, freeAddrs_cons_free hp] at hlinks
  have hpq' : p.addr + p.size = q.addr := hpq
  have hhigh' : q.addr + q.size ≤ hi := hhigh
  refine hs.replace [p, q] [⟨p.addr, p.size + q.size, true⟩]
    (hs.tiles.merge true) ?_ ?_ ?_ ?_ ?_ ?_ ?_ ?_
  · rintro x (hx | hx)
    · obtain ⟨hxS, hlt⟩ := hA.left (starts_of_mem hx)
      rw [e.size _ hxS, if_neg (by omega)]
    · obtain ⟨hxS, hle⟩ := hr (starts_of_mem hx)
      rw [e.size _ hxS, if_neg (by omega)]
  · intro x hx
    rw [mem_singleton.mp hx, e.size _ hA.mid, if_pos rfl, hs.header p (by simp),
      hs.header q (by simp), U32.add_of_lt (by omega)]
  · intro a ha
    have hlt := (hleft ha).2
    rw [e.next a (hleft ha).1, if_neg (by omega)]
    split
    case isTrue hlast => exact (seg_append.mp hlinks).1.next_last ha hlast
    case isFalse => rfl
  · intro a ha
    have hlt := (hleft ha).2
    rw [e.prev a (hleft ha).1, if_neg]
    rcases headD_mem_or r with h0 | hmem
    · rw [h0]
      exact hA.nodes.pos (hleft ha).1
    · have := (hr hmem).2
      omega
  · intro a ha
    have := (hright ha).2
    rw [e.next a (hright ha).1, if_neg (by omega)]
  · exact fun a ha => e.prev a (hright ha).1
  · refine seg_singleton.mpr ⟨?_, ?_⟩
    · rw [e.prev _ hA.mid, if_neg hpfirst, (hs.mid hp).1]
    · rw [e.next _ hA.mid, if_pos rfl]
  · rw [e.info]
    have hne : h.info.freeList ≠ q.addr := by
      rw [hs.head, freeAddrs_append, freeAddrs_cons_free hp, headD_append, headD_cons]
      cases hl : freeAddrs l with
      | nil =>
          rw [headD_nil]
          omega
      | cons a as =>
          have := (hleft (a := a) (by rw [hl]; exact mem_cons_self)).2
          rw [headD_cons]
          omega
    rw [if_neg hne]
    simp only [freeAddrs_cons_free, headD_cons]
    rw [hs.head, freeAddrs_append, freeAddrs_cons_free hp, headD_append, headD_cons]

/-! ## Freeing a piece -/

theorem Shape.insert (hs : Shape arch h lo hi (l ++ x :: r))
    (hsize : ∀ a, Starts (l ++ x :: r) a → h'.nodeSize a = h.nodeSize a)
    (hln : ∀ a ∈ freeAddrs l, h'.next arch a
      = if a = (freeAddrs l).getLastD 0 then x.addr else h.next arch a)
    (hlp : ∀ a ∈ freeAddrs l, h'.prev arch a = h.prev arch a)
    (hrn : ∀ a ∈ freeAddrs r, h'.next arch a = h.next arch a)
    (hrp : ∀ a ∈ freeAddrs r, h'.prev arch a
      = if a = (freeAddrs r).headD 0 then x.addr else h.prev arch a)
    (hprev : h'.prev arch x.addr = (freeAddrs l).getLastD 0)
    (hnext : h'.next arch x.addr = (freeAddrs r).headD 0)
    (hhead : h'.info.freeList = (freeAddrs l).headD x.addr) :
    Shape arch h' lo hi (l ++ { x with free := true } :: r) := by
  refine hs.replace [x] [{ x with free := true }] (hs.tiles.retag true)
    ?_ ?_ hln hlp hrn hrp (seg_singleton.mpr ⟨hprev, hnext⟩) hhead
  · rintro q (hq | hq)
    · exact hsize _ (starts_of_mem (mem_append_left _ hq))
    · exact hsize _ (starts_of_mem (mem_append_right _ (mem_cons_of_mem _ hq)))
  · intro q hq
    have hxS : Starts (l ++ x :: r) x.addr := starts_of_mem (by simp)
    rw [mem_singleton.mp hq]
    exact (hsize _ hxS).trans (hs.header x (by simp))

/-- The insertion loop puts the node of a used piece into the list.  `as` are
the nodes it has passed, `bs` those in front of `x` it has not. -/
theorem insertNode_spec (hR : Region arch lo hi) (hs : Shape arch h lo hi (l ++ x :: r))
    (hx : x.free = false) (hnext : h.next arch x.addr = 0) :
    ∀ {as bs : List Nat} {fuel : Nat}, freeAddrs l = as ++ bs → bs.length < fuel →
      bs ++ freeAddrs r ≠ [] →
      ∃ h', insertNode arch x.addr fuel h ((bs ++ freeAddrs r).headD 0) = some h' ∧
        h'.info = { h.info with freeList := h'.info.freeList } ∧
        Shape arch h' lo hi (l ++ { x with free := true } :: r)
  | as, [], fuel + 1, hlist, hfuel, hne => by
    have hA := hR.around hs.tiles
    have hlinks := hs.links
    rw [freeAddrs_append, freeAddrs_cons_used hx] at hlinks
    obtain ⟨n, rest, hr⟩ := exists_cons_of_ne_nil hne
    rw [nil_append] at hr
    have hnr : n ∈ freeAddrs r := by rw [hr]; exact mem_cons_self
    have hfirst : (freeAddrs r).headD 0 = n := by rw [hr, headD_cons]
    obtain ⟨hnS, hle⟩ := hA.right (starts_of_mem_freeAddrs hnr)
    have hlt := hA.stop.trans_le hle
    obtain ⟨hprev, -⟩ := Seg.mid (hr ▸ hlinks)
    obtain ⟨h', hins, e⟩ := hA.nodes.insertNode_front fuel hA.mid hnS hprev hA.last hlt
    have hlast := hA.last_lt
    rw [nil_append, hfirst]
    refine ⟨h', hins, by rw [e.info], hs.insert e.size ?_ ?_ ?_ ?_ ?_ ?_ ?_⟩
    · intro a ha
      obtain ⟨haS, hax⟩ := hA.left (starts_of_mem_freeAddrs ha)
      rw [e.next a haS]
      split
      · rfl
      · rw [if_neg (by omega)]
    · intro a ha
      obtain ⟨haS, hax⟩ := hA.left (starts_of_mem_freeAddrs ha)
      rw [e.prev a haS, if_neg (by omega), if_neg (by omega)]
    · intro a ha
      obtain ⟨haS, hxa⟩ := hA.right (starts_of_mem_freeAddrs ha)
      have := hA.stop
      rw [e.next a haS, if_neg (by omega), if_neg (by omega)]
    · intro a ha
      obtain ⟨haS, hxa⟩ := hA.right (starts_of_mem_freeAddrs ha)
      have := hA.stop
      rw [e.prev a haS, hfirst]
      split
      · rfl
      · rw [if_neg (by omega)]
    · rw [e.prev _ hA.mid, if_neg (by omega), if_pos rfl]
    · rw [e.next _ hA.mid, if_neg (by omega), if_pos rfl, hfirst]
    · rw [e.info]
      simp only [hs.head, freeAddrs_append, freeAddrs_cons_used hx, headD_append, hfirst]
      cases hl : freeAddrs l with
      | nil => simp
      | cons a as =>
          have := (hA.left (starts_of_mem_freeAddrs (hl ▸ mem_cons_self))).2
          rw [headD_cons, headD_cons, if_neg (by omega)]
  | as, b :: bs, fuel + 1, hlist, hfuel, hne => by
    have hA := hR.around hs.tiles
    have hlinks := hs.links
    rw [freeAddrs_append, freeAddrs_cons_used hx, hlist, append_assoc] at hlinks
    have hbl : b ∈ freeAddrs l := by rw [hlist]; simp
    obtain ⟨hbS, hlt⟩ := hA.left (starts_of_mem_freeAddrs hbl)
    have hbn : h.next arch b = (bs ++ freeAddrs r).headD 0 := hlinks.mid.2
    rw [cons_append, headD_cons]
    by_cases hend : bs ++ freeAddrs r = []
    · obtain ⟨rfl, hr⟩ := append_eq_nil_iff.mp hend
      have hlast : (freeAddrs l).getLastD 0 = b := by rw [hlist, getLastD_concat]
      rw [hend, headD_nil] at hbn
      obtain ⟨h', hins, e⟩ := hA.nodes.insertNode_back fuel hA.mid hbS hbn (by omega)
      refine ⟨h', hins, by rw [e.info], hs.insert e.size ?_ ?_ ?_ ?_ ?_ ?_ ?_⟩
      · intro a ha
        rw [e.next a (hA.left (starts_of_mem_freeAddrs ha)).1, hlast]
      · intro a ha
        obtain ⟨haS, hax⟩ := hA.left (starts_of_mem_freeAddrs ha)
        rw [e.prev a haS, if_neg (by omega)]
      · intro a ha
        rw [hr] at ha
        cases ha
      · intro a ha
        rw [hr] at ha
        cases ha
      · rw [e.prev _ hA.mid, if_pos rfl, hlast]
      · rw [e.next _ hA.mid, if_neg (by omega), hnext, hr, headD_nil]
      · rw [e.info]
        simp only [hs.head, freeAddrs_append, freeAddrs_cons_used hx, headD_append, hlist]
        cases as <;> rfl
    · have hbn0 : h.next arch b ≠ 0 := by
        rw [hbn]
        obtain ⟨n, rest, hcons⟩ := exists_cons_of_ne_nil hend
        have hn : n ∈ freeAddrs (l ++ x :: r) := by
          have : n ∈ bs ++ freeAddrs r := by rw [hcons]; exact mem_cons_self
          rw [freeAddrs_append, freeAddrs_cons_used hx, hlist]
          rcases mem_append.mp this with hn | hn <;> simp [hn]
        rw [hcons, headD_cons]
        exact hA.nodes.pos (starts_of_mem_freeAddrs hn)
      have hpassed : freeAddrs l = (as ++ [b]) ++ bs := by rw [hlist, append_assoc]; rfl
      obtain ⟨h', hins, hinfo, hs'⟩ :=
        insertNode_spec hR hs hx hnext hpassed (Nat.lt_of_succ_lt_succ hfuel) hend
      refine ⟨h', ?_, hinfo, hs'⟩
      rw [insertNode, if_neg (hA.nodes.pos hbS), if_neg (by omega), if_neg hbn0, hbn, hins]

end MemAllocatorSimple

end Awtk
