import Awtk.Tkc.MemAllocatorPool

/-!
# Blocks of the pool allocator

Each pool lies in a live region of the allocator below, and so does each block that is not from a
pool.  The regions are apart, so an address belongs to one pool at most (`findPool_block`), and
what one call does is told by the allocator below or by one pool.
-/

namespace Awtk.MemAllocatorPool

open List Option

open Bitmap (members)

/-! ## Pools and blocks in regions -/

/-- A pool of `n` blocks in the live region at `a`. -/
structure PoolAt (M : LiveMap) (a n : Nat) (p : MemPool) : Prop where
  wf : p.Wf
  min : p.minBlockSize = 0
  capacity : p.capacity = n
  pos : a ≠ 0
  region : ∃ k, M a = some k ∧ a ≤ p.start ∧ p.start + p.blockSize * p.blockNr ≤ a + k

/-- All pools are in regions of their own. -/
structure Pools (M : LiveMap) (addr cap : Nat → Nat) (pools : List (Option MemPool)) : Prop where
  pool : ∀ i < pools.length, ∃ p, pools[i]? = some (some p) ∧ PoolAt M (addr i) (cap i) p
  inj : ∀ i < pools.length, ∀ j < pools.length, addr i = addr j → i = j

/-- A block that was handed out by a pool, or by the allocator below. -/
def BlockAt (M : LiveMap) (addr : Nat → Nat) (pools : List (Option MemPool)) (b : Block) : Prop :=
  match b.home with
  | some i => ∃ p j, pools[i]? = some (some p) ∧ j ∈ members p.bits ∧ b.ptr = p.block j ∧
      b.size ≤ p.blockSize
  | none => b.ptr ≠ 0 ∧ M b.ptr = some b.size ∧ ∀ i < pools.length, addr i ≠ b.ptr

/-- The bytes that a block has. -/
def room (M : LiveMap) (pools : List (Option MemPool)) (b : Block) : Nat :=
  match b.home with
  | some i =>
    match pools[i]? with
    | some (some p) => p.blockSize
    | _ => 0
  | none => (M b.ptr).getD 0

/-- The address of the region that a block is in. -/
def root (addr : Nat → Nat) (b : Block) : Nat :=
  match b.home with
  | some i => addr i
  | none => b.ptr

section Regions

variable {M M' : LiveMap} {addr cap : Nat → Nat} {pools : List (Option MemPool)} {b c : Block}
  {p p' q : MemPool} {a i j k n ptr size : Nat}

theorem lt_of_getElem? (h : pools[i]? = some (some p)) : i < pools.length :=
  (List.getElem?_eq_some_iff.mp h).1

theorem Pools.at (hp : Pools M addr cap pools) (h : pools[i]? = some (some p)) :
    PoolAt M (addr i) (cap i) p := by
  obtain ⟨q, hq, hat⟩ := hp.pool i (lt_of_getElem? h)
  obtain rfl : p = q := some_inj.mp (some_inj.mp (h.symm.trans hq))
  exact hat

/-- A block is in the region of its pool. -/
theorem PoolAt.block (h : PoolAt M a n p) (hj : j < p.blockNr) :
    ∃ k, M a = some k ∧ a ≤ p.block j ∧ p.block j + p.blockSize ≤ a + k := by
  obtain ⟨k, hk, hlo, hhi⟩ := h.region
  have hmul : (j + 1) * p.blockSize ≤ p.blockNr * p.blockSize := Nat.mul_le_mul_right _ hj
  rw [Nat.add_mul, Nat.one_mul, Nat.mul_comm p.blockNr] at hmul
  refine ⟨k, hk, ?_, ?_⟩
  · exact hlo.trans (Nat.le_add_right _ _)
  · rw [MemPool.block]
    omega

theorem BlockAt.region (hp : Pools M addr cap pools) (hb : BlockAt M addr pools b) :
    ∃ k, M (root addr b) = some k ∧ root addr b ≤ b.ptr ∧
      b.ptr + room M pools b ≤ root addr b + k ∧ b.ptr < root addr b + max 1 k := by
  rw [BlockAt] at hb
  rw [root, room]
  cases hhome : b.home with
  | none =>
    simp only [hhome] at hb ⊢
    rw [hb.2.1, getD_some]
    exact ⟨b.size, rfl, Nat.le_refl _, Nat.le_refl _, by omega⟩
  | some i =>
    simp only [hhome] at hb ⊢
    obtain ⟨p, j, hpool, hj, hptr, -⟩ := hb
    have hat := hp.at hpool
    obtain ⟨k, hk, hlo, hhi⟩ := hat.block (hat.wf.lt j hj)
    have hpos := hat.wf.blockSize
    simp only [hpool, hptr]
    exact ⟨k, hk, hlo, hhi, by omega⟩

theorem BlockAt.size_le (hb : BlockAt M addr pools b) : b.size ≤ room M pools b := by
  rw [BlockAt] at hb
  rw [room]
  cases hhome : b.home with
  | none =>
    simp only [hhome] at hb ⊢
    rw [hb.2.1]
    exact Nat.le_refl _
  | some i =>
    simp only [hhome] at hb ⊢
    obtain ⟨p, j, hpool, -, -, hsize⟩ := hb
    simp only [hpool]
    exact hsize

theorem BlockAt.ne_zero (hp : Pools M addr cap pools) (hb : BlockAt M addr pools b) :
    b.ptr ≠ 0 := by
  rw [BlockAt] at hb
  cases hhome : b.home with
  | none =>
    simp only [hhome] at hb
    exact hb.1
  | some i =>
    simp only [hhome] at hb
    obtain ⟨p, j, hpool, hj, hptr, -⟩ := hb
    have hat := hp.at hpool
    obtain ⟨k, -, hlo, -⟩ := hat.block (hat.wf.lt j hj)
    have hpos := hat.pos
    omega

/-- The bytes of a block are kept with its region. -/
theorem BlockAt.keeps (hp : Pools M addr cap pools) (hb : BlockAt M addr pools b) {mem mem' : Mem}
    (h : M.Keeps mem mem') : ∀ i < b.size, mem' (b.ptr + i) = mem (b.ptr + i) := by
  intro i hi
  obtain ⟨k, hk, hlo, hhi, -⟩ := hb.region hp
  have hsize := hb.size_le
  have hi' : b.ptr + i - root addr b < k := by omega
  have hbyte := h _ _ hk _ hi'
  rwa [Nat.add_sub_cancel' (hlo.trans (Nat.le_add_right _ _))] at hbyte

/-- Blocks at different addresses do not overlap. -/
theorem BlockAt.apart (hM : M.Apart) (hp : Pools M addr cap pools) (hb : BlockAt M addr pools b)
    (hc : BlockAt M addr pools c) (hne : b.ptr ≠ c.ptr) :
    b.ptr + room M pools b ≤ c.ptr ∨ c.ptr + room M pools c ≤ b.ptr := by
  by_cases hroot : root addr b = root addr c
  · rw [BlockAt] at hb hc
    rw [root, root] at hroot
    rw [room, room]
    cases hhome : b.home with
    | none =>
      simp only [hhome] at hb hroot
      cases hhome' : c.home with
      | none =>
        simp only [hhome'] at hroot
        exact absurd hroot hne
      | some i =>
        simp only [hhome'] at hc hroot
        obtain ⟨p, -, hpool, -⟩ := hc
        exact absurd hroot.symm (hb.2.2 i (lt_of_getElem? hpool))
    | some i =>
      simp only [hhome] at hb hroot
      obtain ⟨p, j, hpool, hj, hptr, -⟩ := hb
      cases hhome' : c.home with
      | none =>
        simp only [hhome'] at hc hroot
        exact absurd hroot (hc.2.2 i (lt_of_getElem? hpool))
      | some i' =>
        simp only [hhome'] at hc hroot
        obtain ⟨p', j', hpool', hj', hptr', -⟩ := hc
        obtain rfl := hp.inj i (lt_of_getElem? hpool) i' (lt_of_getElem? hpool') hroot
        obtain rfl : p = p' := some_inj.mp (some_inj.mp (hpool.symm.trans hpool'))
        simp only [hpool, hptr, hptr', MemPool.block]
        rcases Nat.lt_trichotomy j j' with hlt | rfl | hlt
        · have hmul : (j + 1) * p.blockSize ≤ j' * p.blockSize := Nat.mul_le_mul_right _ hlt
          rw [Nat.add_mul] at hmul
          omega
        · exact absurd (hptr.trans hptr'.symm) hne
        · have hmul : (j' + 1) * p.blockSize ≤ j * p.blockSize := Nat.mul_le_mul_right _ hlt
          rw [Nat.add_mul] at hmul
          omega
  · obtain ⟨k, hk, hlo, hhi, hlt⟩ := hb.region hp
    obtain ⟨k', hk', hlo', hhi', hlt'⟩ := hc.region hp
    have hapart := hM _ _ _ _ hk hk' hroot
    omega

end Regions

/-! ## Looking for the pool of an address -/

section FindPool

variable {M : LiveMap} {addr cap : Nat → Nat} {pools : List (Option MemPool)} {b : Block}
  {p : MemPool} {i j k ptr : Nat}

theorem findPool_some (hbefore : ∀ k < i, ∃ q, pools[k]? = some (some q) ∧
    memPoolGetIndex q ptr = none) (hi : pools[i]? = some (some p))
    (hin : (memPoolGetIndex p ptr).isSome) : findPool ptr pools = some (some i) := by
  induction pools generalizing i with
  | nil => cases hi
  | cons q pools ih =>
    cases i with
    | zero =>
      obtain rfl : q = some p := some_inj.mp hi
      rw [findPool, if_pos hin]
    | succ i =>
      obtain ⟨q', hq', hnone⟩ := hbefore 0 (Nat.succ_pos i)
      obtain rfl : q = some q' := some_inj.mp hq'
      have hrest := ih (fun k hk => hbefore (k + 1) (Nat.succ_lt_succ hk)) hi
      rw [findPool, hnone, hrest]
      rfl

theorem findPool_none (hall : ∀ k < pools.length, ∃ q, pools[k]? = some (some q) ∧
    memPoolGetIndex q ptr = none) : findPool ptr pools = some none := by
  induction pools with
  | nil => rfl
  | cons q pools ih =>
    obtain ⟨q', hq', hnone⟩ := hall 0 (Nat.succ_pos _)
    obtain rfl : q = some q' := some_inj.mp hq'
    have hrest := ih fun k hk => hall (k + 1) (Nat.succ_lt_succ hk)
    rw [findPool, hnone, hrest]
    rfl

theorem getIndex_eq_none (hM : M.Apart) {a n : Nat} (hat : PoolAt M a n p) {r : Nat}
    (hk : M r = some k) (hne : r ≠ a) (hlo : r ≤ ptr) (hhi : ptr < r + max 1 k) :
    memPoolGetIndex p ptr = none := by
  obtain ⟨k', hk', hlo', hhi'⟩ := hat.region
  have hapart := hM _ _ _ _ hk hk' hne
  rw [memPoolGetIndex, if_neg]
  omega

theorem findPool_of_lt (hM : M.Apart) (hp : Pools M addr cap pools)
    (hpool : pools[i]? = some (some p)) (hj : j < p.blockNr) :
    findPool (p.block j) pools = some (some i) := by
  have hat := hp.at hpool
  have hi := lt_of_getElem? hpool
  have hpos := hat.wf.blockSize
  obtain ⟨k, hk, hlo, hhi⟩ := hat.block hj
  refine findPool_some (fun l hl => ?_) hpool ?_
  · obtain ⟨q, hq, hqat⟩ := hp.pool l (hl.trans hi)
    refine ⟨q, hq, getIndex_eq_none hM hqat hk (fun heq => ?_) hlo (by omega)⟩
    exact Nat.ne_of_lt hl (hp.inj i hi l (hl.trans hi) heq).symm
  · rw [MemPool.getIndex_block hpos hj]
    rfl

theorem findPool_block (hM : M.Apart) (hp : Pools M addr cap pools) (hb : BlockAt M addr pools b) :
    findPool b.ptr pools = some b.home := by
  rw [BlockAt] at hb
  cases hhome : b.home with
  | none =>
    simp only [hhome] at hb
    refine findPool_none fun l hl => ?_
    obtain ⟨q, hq, hqat⟩ := hp.pool l hl
    exact ⟨q, hq, getIndex_eq_none hM hqat hb.2.1 (hb.2.2 l hl).symm (Nat.le_refl _) (by omega)⟩
  | some i =>
    simp only [hhome] at hb
    obtain ⟨p, j, hpool, hj, hptr, -⟩ := hb
    rw [hptr]
    exact findPool_of_lt hM hp hpool ((hp.at hpool).wf.lt j hj)

end FindPool

/-! ## What a call changes -/

section Change

variable {M M' : LiveMap} {addr cap : Nat → Nat} {pools : List (Option MemPool)} {b : Block}
  {p p' : MemPool} {i j ptr size : Nat}

/-- The regions of the pools are still live. -/
theorem Pools.live (hp : Pools M addr cap pools) (h : ∀ i < pools.length, M' (addr i) = M (addr i)) :
    Pools M' addr cap pools := by
  refine ⟨fun i hi => ?_, hp.inj⟩
  obtain ⟨p, hpool, hat⟩ := hp.pool i hi
  refine ⟨p, hpool, hat.wf, hat.min, hat.capacity, hat.pos, ?_⟩
  rw [h i hi]
  exact hat.region

/-- A pool whose blocks stay where they are. -/
structure Same (p p' : MemPool) : Prop where
  blockSize : p'.blockSize = p.blockSize
  blockNr : p'.blockNr = p.blockNr
  minBlockSize : p'.minBlockSize = p.minBlockSize
  start : p'.start = p.start
  capacity : p'.capacity = p.capacity

theorem Same.take (p : MemPool) (j : Nat) : Same p (p.take j) :=
  ⟨rfl, rfl, rfl, rfl, MemPool.take_capacity⟩

theorem Same.giveBack (p : MemPool) (j : Nat) : Same p (p.giveBack j) :=
  ⟨rfl, rfl, rfl, rfl, MemPool.giveBack_capacity⟩

theorem Same.block (h : Same p p') (j : Nat) : p'.block j = p.block j := by
  rw [MemPool.block, MemPool.block, h.start, h.blockSize]

theorem Pools.set (hp : Pools M addr cap pools) (hpool : pools[i]? = some (some p)) (h : Same p p')
    (hwf : p'.Wf) : Pools M addr cap (pools.set i (some p')) := by
  have hi := lt_of_getElem? hpool
  refine ⟨fun l hl => ?_, fun l hl l' hl' heq => ?_⟩
  · rw [length_set] at hl
    by_cases hli : i = l
    · subst hli
      have hat := hp.at hpool
      refine ⟨p', by rw [getElem?_set_self hi], hwf, ?_, ?_, hat.pos, ?_⟩
      · rw [h.minBlockSize]
        exact hat.min
      · rw [h.capacity]
        exact hat.capacity
      · rw [h.start, h.blockSize, h.blockNr]
        exact hat.region
    · rw [getElem?_set_ne hli]
      exact hp.pool l hl
  · rw [length_set] at hl hl'
    exact hp.inj l hl l' hl' heq

/-- A block whose bit stays set. -/
theorem BlockAt.set (hb : BlockAt M addr pools b) (hpool : pools[i]? = some (some p))
    (h : Same p p') (hbit : ∀ j, b.ptr = p.block j → j ∈ members p.bits → j ∈ members p'.bits) :
    BlockAt M addr (pools.set i (some p')) b := by
  have hi := lt_of_getElem? hpool
  rw [BlockAt] at hb ⊢
  cases hhome : b.home with
  | none =>
    simp only [hhome] at hb ⊢
    rw [length_set]
    exact hb
  | some l =>
    simp only [hhome] at hb ⊢
    obtain ⟨q, j, hq, hj, hptr, hsize⟩ := hb
    by_cases hli : i = l
    · subst hli
      obtain rfl : p = q := some_inj.mp (some_inj.mp (hpool.symm.trans hq))
      refine ⟨p', j, by rw [getElem?_set_self hi], hbit j hptr hj, ?_, ?_⟩
      · rw [h.block]
        exact hptr
      · rw [h.blockSize]
        exact hsize
    · rw [getElem?_set_ne hli]
      exact ⟨q, j, hq, hj, hptr, hsize⟩

/-- A block whose region stays live. -/
theorem BlockAt.live (hb : BlockAt M addr pools b) (h : b.home = none → M' b.ptr = M b.ptr) :
    BlockAt M' addr pools b := by
  rw [BlockAt] at hb ⊢
  cases hhome : b.home with
  | none =>
    simp only [hhome] at hb ⊢
    rw [h hhome]
    exact hb
  | some i =>
    simp only [hhome] at hb ⊢
    exact hb

end Change

/-! ## One call -/

section Calls

variable {τ : Type*} {A : ImplAllocator τ} {live : τ → LiveMap} {addr cap : Nat → Nat}
  {s s' : MemAllocatorPool τ} {b : Block} {p : MemPool} {i j ptr size : Nat}

/-- What `mem_allocator_pool_alloc` can do. -/
inductive Allocated (live : τ → LiveMap) (s : MemAllocatorPool τ) (size : Nat) :
    MemAllocatorPool τ → Option (Nat × Option Nat) → Prop
  | pool {i j : Nat} {p : MemPool} (hpool : s.pools[i]? = some (some p)) (hsize : size ≤ p.blockSize)
      (hj : j < p.capacity) (hfree : j ∉ members p.bits) :
      Allocated live s size { s with pools := s.pools.set i (some (p.take j)) }
        (some (p.block j, some i))
  | impl {t : τ} {mem : Mem} {q : Nat} (hq : q ≠ 0) (hnone : live s.impl q = none)
      (hlive : live t = (live s.impl).add q size) (hmem : (live s.impl).Keeps s.mem mem) :
      Allocated live s size ⟨t, mem, s.pools⟩ (some (q, none))
  | null {t : τ} {mem : Mem} (hlive : live t = live s.impl)
      (hmem : (live s.impl).Keeps s.mem mem) : Allocated live s size ⟨t, mem, s.pools⟩ none

theorem allocFromPools_spec {pools : List (Option MemPool)} (size : Nat)
    (h : ∀ l < pools.length, ∃ p, pools[l]? = some (some p) ∧ p.Wf) :
    allocFromPools size pools = some (none, pools) ∨
      ∃ i p j, pools[i]? = some (some p) ∧ size ≤ p.blockSize ∧ j < p.capacity ∧
        j ∉ members p.bits ∧
        allocFromPools size pools =
          some (some (i, p.block j), pools.set i (some (p.take j))) := by
  induction pools with
  | nil => exact .inl rfl
  | cons q pools ih =>
    obtain ⟨p, hq, hwf⟩ := h 0 (Nat.succ_pos _)
    obtain rfl : q = some p := some_inj.mp hq
    rw [allocFromPools]
    split_ifs with hmatch
    · rcases MemPool.get_spec hwf with ⟨hnone, -⟩ | ⟨j, hj, hfree, hsome⟩
      · rw [hnone]
        exact .inl rfl
      · rw [memPoolMatchSize, decide_eq_true_eq] at hmatch
        rw [hsome]
        exact .inr ⟨0, p, j, rfl, hmatch.2, hj, hfree, rfl⟩
    · rcases ih fun l hl => h (l + 1) (Nat.succ_lt_succ hl) with hnone | ⟨i, p', j, hi, hsize, hj, hfree, hsome⟩
      · rw [hnone]
        exact .inl rfl
      · rw [hsome]
        exact .inr ⟨i + 1, p', j, hi, hsize, hj, hfree, rfl⟩

theorem alloc_spec (hA : A.Lawful live) (hp : Pools (live s.impl) addr cap s.pools) (size : Nat) :
    ∃ s' r, s.alloc A size = some (s', r) ∧ Allocated live s size s' r := by
  have hwf : ∀ l < s.pools.length, ∃ p, s.pools[l]? = some (some p) ∧ p.Wf := by
    intro l hl
    obtain ⟨p, hpool, hat⟩ := hp.pool l hl
    exact ⟨p, hpool, hat.wf⟩
  rw [alloc]
  rcases allocFromPools_spec size hwf with hnone | ⟨i, p, j, hi, hsize, hj, hfree, hsome⟩
  · rw [hnone]
    rcases halloc : A.alloc s.impl s.mem size with ⟨t, mem, _ | q⟩
    · obtain ⟨hlive, hmem⟩ := hA.alloc_none halloc
      exact ⟨_, _, rfl, .null hlive hmem⟩
    · obtain ⟨hq, hnone, hlive, hmem⟩ := hA.alloc_some halloc
      exact ⟨_, _, rfl, .impl hq hnone hlive hmem⟩
  · rw [hsome]
    exact ⟨_, _, rfl, .pool hi hsize hj hfree⟩

theorem put_spec (hpool : s.pools[i]? = some (some p)) (hwf : p.Wf) (hj : j ∈ members p.bits) :
    s.put i (p.block j) = some { s with pools := s.pools.set i (some (p.giveBack j)) } := by
  rw [put, hpool]
  simp only [MemPool.put_block hwf hj, map_some]

end Calls

end Awtk.MemAllocatorPool
