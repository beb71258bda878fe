import Awtk.Lib.Run
import Awtk.Tkc.MemAllocatorPoolBlocks

/-!
# Runs of the pool allocator

Every run of legal calls keeps the blocks in regions of their own and the counters of the pools
equal to their bitmaps.  The pools hand out all their blocks as long as their numbers are not cut
(`good_iff`).
-/

namespace Awtk.MemAllocatorPool

open List Option

open Bitmap (members)

variable {τ : Type*} {A : ImplAllocator τ} {live : τ → LiveMap} {addr cap : Nat → Nat}

/-! ## The invariant -/

structure Inv (live : τ → LiveMap) (addr cap : Nat → Nat) (c : Client τ) : Prop where
  pools : Pools (live c.pool.impl) addr cap c.pool.pools
  nodup : (c.live.map Block.ptr).Nodup
  block : ∀ b ∈ c.live, BlockAt (live c.pool.impl) addr c.pool.pools b

section Inv

variable {c : Client τ} {s : MemAllocatorPool τ} {b : Block} {ptr size : Nat}

theorem mem_others : b ∈ c.others ptr ↔ b ∈ c.live ∧ b.ptr ≠ ptr := by
  simp [Client.others]

theorem nodup_others (h : (c.live.map Block.ptr).Nodup) (ptr : Nat) :
    ((c.others ptr).map Block.ptr).Nodup :=
  h.sublist (filter_sublist.map _)

theorem others_of_fresh (h : ∀ b ∈ c.live, b.ptr ≠ ptr) : c.others ptr = c.live :=
  filter_eq_self.mpr fun b hb => decide_eq_true (h b hb)

/-- What an allocation gives is a block beside the live ones. -/
theorem Inv.allocated (hA : A.Lawful live) (h : Inv live addr cap c) {s' : MemAllocatorPool τ}
    {r : Option (Nat × Option Nat)} (ha : Allocated live c.pool size s' r) :
    Inv live addr cap ⟨s', c.live⟩ ∧ (live c.pool.impl).Keeps c.pool.mem s'.mem ∧
      ∀ q home, r = some (q, home) → (∀ b ∈ c.live, b.ptr ≠ q) ∧
        BlockAt (live s'.impl) addr s'.pools ⟨q, size, home⟩ := by
  cases ha with
  | @pool i j p hpool hsize hj hfree =>
    have hat := h.pools.at hpool
    have hsame := Same.take p j
    have hwf := hat.wf.take hj hfree
    have hjnr : j < p.blockNr := lt_of_lt_of_le hj (min_le_left _ _)
    refine ⟨⟨h.pools.set hpool hsame hwf, h.nodup, fun b hb => ?_⟩, fun _ _ _ _ _ => rfl, ?_⟩
    · refine (h.block b hb).set hpool hsame fun j' _ hj' => ?_
      rw [MemPool.members_take hj]
      exact Finset.mem_insert_of_mem hj'
    · rintro q home heq
      obtain ⟨rfl, rfl⟩ := Prod.mk.inj (some_inj.mp heq)
      refine ⟨fun b hb hptr => ?_, p.take j, j, ?_, ?_, (hsame.block j).symm, hsize⟩
      · have hblock := h.block b hb
        have hfind := findPool_block (hA.apart _) h.pools hblock
        rw [hptr, findPool_of_lt (hA.apart _) h.pools hpool hjnr, some_inj] at hfind
        rw [BlockAt, ← hfind] at hblock
        obtain ⟨p', j', hpool', hj', hptr', -⟩ := hblock
        obtain rfl : p = p' := some_inj.mp (some_inj.mp (hpool.symm.trans hpool'))
        obtain rfl := MemPool.block_inj hat.wf (hptr.symm.trans hptr')
        exact hfree hj'
      · simp only [getElem?_set_self (lt_of_getElem? hpool)]
      · rw [MemPool.members_take hj]
        exact Finset.mem_insert_self j _
  | @impl t mem q hq hnone hlive hmem =>
    have hne : ∀ i < c.pool.pools.length, addr i ≠ q := by
      rintro i hi rfl
      obtain ⟨p, -, hat⟩ := h.pools.pool i hi
      obtain ⟨k, hk, -⟩ := hat.region
      rw [hnone] at hk
      cases hk
    have hpools : Pools (live t) addr cap c.pool.pools := by
      refine h.pools.live fun i hi => ?_
      rw [hlive, LiveMap.add_of_ne (hne i hi)]
    have hblock : ∀ b ∈ c.live, BlockAt (live t) addr c.pool.pools b := by
      intro b hb
      refine (h.block b hb).live fun hhome => ?_
      have hb' := h.block b hb
      rw [BlockAt, hhome] at hb'
      rw [hlive, LiveMap.add_of_ne]
      rintro rfl
      rw [hnone] at hb'
      cases hb'.2.1
    have hnew : BlockAt (live t) addr c.pool.pools ⟨q, size, none⟩ :=
      ⟨hq, by rw [hlive, LiveMap.add_self], hne⟩
    refine ⟨⟨hpools, h.nodup, hblock⟩, hmem, ?_⟩
    rintro q' home heq
    obtain ⟨rfl, rfl⟩ := Prod.mk.inj (some_inj.mp heq)
    refine ⟨fun b hb hptr => ?_, hnew⟩
    have hfind := findPool_block (hA.apart _) hpools (hblock b hb)
    rw [hptr, findPool_block (hA.apart _) hpools hnew, some_inj] at hfind
    have hb' := h.block b hb
    rw [BlockAt, ← hfind, hptr, hnone] at hb'
    cases hb'.2.1
  | @null t mem hlive hmem =>
    refine ⟨⟨?_, h.nodup, fun b hb => ?_⟩, hmem, ?_⟩
    · exact h.pools.live fun i _ => by rw [hlive]
    · exact (h.block b hb).live fun _ => by rw [hlive]
    · rintro q home heq
      cases heq

theorem Inv.cons (h : Inv live addr cap c) (hfresh : ∀ b' ∈ c.live, b'.ptr ≠ b.ptr)
    (hb : BlockAt (live c.pool.impl) addr c.pool.pools b) : Inv live addr cap ⟨c.pool, b :: c.live⟩ := by
  refine ⟨h.pools, ?_, forall_mem_cons.mpr ⟨hb, h.block⟩⟩
  rw [map_cons, nodup_cons]
  refine ⟨fun hmem => ?_, h.nodup⟩
  obtain ⟨b', hb', heq⟩ := List.mem_map.mp hmem
  exact hfresh b' hb' heq

/-- Where a block goes when it is freed. -/
def FreedHome (A : ImplAllocator τ) (s : MemAllocatorPool τ) (b : Block) : Prop :=
  match b.home with
  | some i => ∃ p j, s.pools[i]? = some (some p) ∧ j ∈ members p.bits ∧ b.ptr = p.block j ∧
      s.free A b.ptr = some { s with pools := s.pools.set i (some (p.giveBack j)) }
  | none => s.free A b.ptr =
      some ⟨(A.free s.impl s.mem b.ptr).1, (A.free s.impl s.mem b.ptr).2, s.pools⟩

theorem Inv.freedHome (hA : A.Lawful live) (h : Inv live addr cap c) (hb : b ∈ c.live) :
    FreedHome A c.pool b := by
  have hblock := h.block b hb
  have hfind := findPool_block (hA.apart _) h.pools hblock
  have hne := hblock.ne_zero h.pools
  rw [FreedHome]
  rw [BlockAt] at hblock
  cases hhome : b.home with
  | none =>
    rw [hhome] at hfind
    simp only [free, if_neg hne, hfind]
  | some i =>
    simp only [hhome] at hblock ⊢
    obtain ⟨p, j, hpool, hj, hptr, -⟩ := hblock
    refine ⟨p, j, hpool, hj, hptr, ?_⟩
    rw [hhome] at hfind
    simp only [free, if_neg hne, hfind]
    rw [hptr, put_spec hpool (h.pools.at hpool).wf hj]

/-- The other blocks stay when one is freed. -/
theorem Inv.free (hA : A.Lawful live) (h : Inv live addr cap c) (hb : b ∈ c.live) :
    ∃ s', c.pool.free A b.ptr = some s' ∧ Inv live addr cap ⟨s', c.others b.ptr⟩ := by
  have hfreed := h.freedHome hA hb
  have hblock := h.block b hb
  rw [FreedHome] at hfreed
  rw [BlockAt] at hblock
  cases hhome : b.home with
  | none =>
    simp only [hhome] at hfreed hblock
    obtain ⟨hlive, -⟩ :=
      hA.free hblock.2.1 (show A.free c.pool.impl c.pool.mem b.ptr = (_, _) from rfl)
    refine ⟨_, hfreed, ?_, nodup_others h.nodup _, fun b' hb' => ?_⟩
    · refine h.pools.live fun i hi => ?_
      rw [hlive, LiveMap.drop_of_ne (hblock.2.2 i hi)]
    · obtain ⟨hb', hne⟩ := mem_others.mp hb'
      refine (h.block b' hb').live fun _ => ?_
      rw [hlive, LiveMap.drop_of_ne hne]
  | some i =>
    simp only [hhome] at hfreed
    obtain ⟨p, j, hpool, hj, hptr, hfree⟩ := hfreed
    have hat := h.pools.at hpool
    have hsame := Same.giveBack p j
    refine ⟨_, hfree, h.pools.set hpool hsame (hat.wf.giveBack hj), nodup_others h.nodup _,
      fun b' hb' => ?_⟩
    obtain ⟨hb', hne⟩ := mem_others.mp hb'
    refine (h.block b' hb').set hpool hsame fun j' hptr' hj' => ?_
    rw [MemPool.members_giveBack (MemPool.lt_capacity hat.wf hj)]
    refine Finset.mem_erase.mpr ⟨?_, hj'⟩
    rintro rfl
    exact hne (hptr'.trans hptr.symm)

theorem free_eq_put (hA : A.Lawful live) (h : Inv live addr cap c) (hb : b ∈ c.live) {i : Nat}
    (hhome : b.home = some i) : c.pool.free A b.ptr = c.pool.put i b.ptr := by
  have hblock := h.block b hb
  have hfind := findPool_block (hA.apart _) h.pools hblock
  rw [hhome] at hfind
  rw [MemAllocatorPool.free, if_neg (hblock.ne_zero h.pools), hfind]

/-- What is left of the bytes of a block that is moved. -/
def KeepsBytes (mem mem' : Mem) (b : Block) (size : Nat) : Option (Nat × Option Nat) → Prop
  | some (q, _) => ∀ i < min b.size size, mem' (q + i) = mem (b.ptr + i)
  | none => ∀ i < b.size, mem' (b.ptr + i) = mem (b.ptr + i)

/-- The blocks after a block was moved. -/
def moved (c : Client τ) (ptr size : Nat) : Option (Nat × Option Nat) → List Block
  | some (q, home) => ⟨q, size, home⟩ :: c.others ptr
  | none => c.live

theorem Inv.others (h : Inv live addr cap c) (ptr : Nat) : Inv live addr cap ⟨c.pool, c.others ptr⟩ :=
  ⟨h.pools, nodup_others h.nodup ptr, fun b hb => h.block b (mem_others.mp hb).1⟩

/-- A block of the allocator below is moved by it. -/
theorem Inv.realloc_impl (hA : A.Lawful live) (h : Inv live addr cap c) (hb : b ∈ c.live)
    (hhome : b.home = none) {t : τ} {mem : Mem} {q : Nat}
    (hq : A.realloc c.pool.impl c.pool.mem b.ptr size = (t, mem, some q)) :
    Inv live addr cap ⟨⟨t, mem, c.pool.pools⟩, ⟨q, size, none⟩ :: c.others b.ptr⟩ ∧
      ∀ i < min b.size size, mem (q + i) = c.pool.mem (b.ptr + i) := by
  have hblock := h.block b hb
  rw [BlockAt, hhome] at hblock
  obtain ⟨hne, hnone, hlive, -, hbytes⟩ := hA.realloc_some hblock.2.1 hq
  have hneq {r k : Nat} (hr : r ≠ b.ptr) (hk : live c.pool.impl r = some k) : r ≠ q := by
    rintro rfl
    rw [LiveMap.drop_of_ne hr, hk] at hnone
    cases hnone
  have haddr : ∀ i < c.pool.pools.length, addr i ≠ q := by
    intro i hi
    obtain ⟨p, -, hat⟩ := h.pools.pool i hi
    obtain ⟨k, hk, -⟩ := hat.region
    exact hneq (hblock.2.2 i hi) hk
  have hpools : Pools (live t) addr cap c.pool.pools := by
    refine h.pools.live fun i hi => ?_
    rw [hlive, LiveMap.add_of_ne (haddr i hi), LiveMap.drop_of_ne (hblock.2.2 i hi)]
  have hnew : BlockAt (live t) addr c.pool.pools ⟨q, size, none⟩ :=
    ⟨hne, by rw [hlive, LiveMap.add_self], haddr⟩
  have hrest : ∀ b' ∈ c.others b.ptr, b'.ptr ≠ q ∧ BlockAt (live t) addr c.pool.pools b' := by
    intro b' hb'
    obtain ⟨hb', hptr⟩ := mem_others.mp hb'
    have hold := h.block b' hb'
    have hlive' : b'.home = none → b'.ptr ≠ q ∧ live t b'.ptr = live c.pool.impl b'.ptr := by
      intro hhome'
      rw [BlockAt, hhome'] at hold
      have hq' := hneq hptr hold.2.1
      refine ⟨hq', ?_⟩
      rw [hlive, LiveMap.add_of_ne hq', LiveMap.drop_of_ne hptr]
    have hnew' := hold.live fun hhome' => (hlive' hhome').2
    refine ⟨fun heq => ?_, hnew'⟩
    have hfind := findPool_block (hA.apart _) hpools hnew'
    rw [heq, findPool_block (hA.apart _) hpools hnew, some_inj] at hfind
    exact (hlive' hfind.symm).1 heq
  refine ⟨Inv.cons (c := ⟨⟨t, mem, c.pool.pools⟩, c.others b.ptr⟩) ⟨hpools, nodup_others h.nodup _,
    fun b' hb' => (hrest b' hb').2⟩ (fun b' hb' => (hrest b' hb').1) hnew, hbytes⟩

/-- A live block is moved, and its bytes with it. -/
theorem Inv.realloc (hA : A.Lawful live) (h : Inv live addr cap c) (hb : b ∈ c.live) (size : Nat) :
    ∃ s' r, c.pool.realloc A b.ptr size = some (s', r) ∧
      Inv live addr cap ⟨s', moved c b.ptr size r⟩ ∧ KeepsBytes c.pool.mem s'.mem b size r := by
  have hblock := h.block b hb
  have hfind := findPool_block (hA.apart _) h.pools hblock
  rw [MemAllocatorPool.realloc, if_neg (hblock.ne_zero h.pools), hfind]
  cases hhome : b.home with
  | none =>
    simp only
    rcases hrealloc : A.realloc c.pool.impl c.pool.mem b.ptr size with ⟨t, mem, _ | q⟩
    · have hold := hblock
      rw [BlockAt, hhome] at hold
      obtain ⟨hlive, hmem⟩ := hA.realloc_none hold.2.1 hrealloc
      refine ⟨⟨t, mem, c.pool.pools⟩, none, by simp only [hrealloc]; rfl,
        ⟨h.pools.live fun i _ => by rw [hlive], h.nodup, fun b' hb' => ?_⟩,
        hblock.keeps h.pools hmem⟩
      exact (h.block b' hb').live fun _ => by rw [hlive]
    · exact ⟨⟨t, mem, c.pool.pools⟩, some (q, none), by simp only [hrealloc]; rfl,
        h.realloc_impl hA hb hhome hrealloc⟩
  | some i =>
    have hold := hblock
    simp only [BlockAt, hhome] at hold
    obtain ⟨p, j, hpool, hj, hptr, hsize⟩ := hold
    simp only [hpool]
    split_ifs with hmatch
    · rw [memPoolMatchSize, decide_eq_true_eq] at hmatch
      refine ⟨_, _, rfl, (h.others b.ptr).cons (fun b' hb' => (mem_others.mp hb').2) ?_,
        fun _ _ => rfl⟩
      exact ⟨p, j, hpool, hj, hptr, hmatch.2⟩
    · obtain ⟨s', r, halloc, hspec⟩ := alloc_spec hA h.pools size
      obtain ⟨hinv, hmem, hnew⟩ := h.allocated hA hspec
      rw [halloc]
      cases r with
      | none => exact ⟨_, _, rfl, hinv, hblock.keeps h.pools hmem⟩
      | some r =>
        obtain ⟨q, home⟩ := r
        obtain ⟨hfresh, hat⟩ := hnew q home rfl
        -- the new block is there before the old one goes back
        let c' : Client τ :=
          ⟨{ s' with mem := s'.mem.copy q b.ptr p.blockSize }, ⟨q, size, home⟩ :: c.live⟩
        have hinv' : Inv live addr cap c' :=
          let hcons := hinv.cons hfresh hat
          ⟨hcons.pools, hcons.nodup, hcons.block⟩
        have hb' : b ∈ c'.live := mem_cons_of_mem _ hb
        obtain ⟨s'', hfree, hinv''⟩ := hinv'.free hA hb'
        have hfreed := hinv'.freedHome hA hb'
        rw [FreedHome, hhome] at hfreed
        obtain ⟨p', j', -, -, -, hfree'⟩ := hfreed
        have hmem'' : s''.mem = s'.mem.copy q b.ptr p.blockSize := by
          rw [hfree, some_inj] at hfree'
          rw [hfree']
        have hothers : c'.others b.ptr = ⟨q, size, home⟩ :: c.others b.ptr :=
          filter_cons_of_pos (decide_eq_true (hfresh b hb).symm)
        rw [hothers] at hinv''
        rw [free_eq_put hA hinv' hb' hhome] at hfree
        refine ⟨s'', some (q, home), by simp only [c'] at hfree; simp only [hfree, map_some],
          hinv'', fun l hl => ?_⟩
        have hl' : q ≤ q + l ∧ q + l < q + p.blockSize := by omega
        rw [hmem'', Mem.copy, if_pos hl', Nat.add_sub_cancel_left]
        exact hblock.keeps h.pools hmem l (lt_of_lt_of_le hl (min_le_left _ _))

theorem Inv.others_zero (h : Inv live addr cap c) : c.others 0 = c.live :=
  others_of_fresh fun b hb => (h.block b hb).ne_zero h.pools

theorem Inv.alloc (hA : A.Lawful live) (h : Inv live addr cap c) (size : Nat) :
    ∃ s' r, c.pool.alloc A size = some (s', r) ∧
      Inv live addr cap ⟨s', match r with
        | some (q, home) => ⟨q, size, home⟩ :: c.live
        | none => c.live⟩ := by
  obtain ⟨s', r, halloc, hspec⟩ := alloc_spec hA h.pools size
  obtain ⟨hinv, -, hnew⟩ := h.allocated hA hspec
  refine ⟨s', r, halloc, ?_⟩
  cases r with
  | none => exact hinv
  | some r =>
    obtain ⟨hfresh, hat⟩ := hnew r.1 r.2 rfl
    exact hinv.cons hfresh hat

theorem step_inv (hA : A.Lawful live) (h : Inv live addr cap c) (a : Action) (hl : c.Legal a) :
    ∃ c', c.step A a = some c' ∧ Inv live addr cap c' := by
  cases a with
  | alloc size =>
    obtain ⟨s', r, halloc, hinv⟩ := h.alloc hA size
    rw [Client.step, halloc]
    cases r with
    | none => exact ⟨_, rfl, hinv⟩
    | some r => exact ⟨_, rfl, hinv⟩
  | realloc ptr size =>
    rw [Client.step]
    rcases hl with rfl | ⟨b, hb, rfl⟩
    · obtain ⟨s', r, halloc, hinv⟩ := h.alloc hA size
      rw [MemAllocatorPool.realloc, if_pos rfl, halloc, h.others_zero]
      cases r with
      | none => exact ⟨_, rfl, hinv⟩
      | some r => exact ⟨_, rfl, hinv⟩
    · obtain ⟨s', r, hrealloc, hinv, -⟩ := h.realloc hA hb size
      rw [hrealloc]
      cases r with
      | none => exact ⟨_, rfl, hinv⟩
      | some r => exact ⟨_, rfl, hinv⟩
  | free ptr =>
    rw [Client.step]
    rcases hl with rfl | ⟨b, hb, rfl⟩
    · rw [MemAllocatorPool.free, if_pos rfl, h.others_zero]
      exact ⟨_, rfl, h⟩
    · obtain ⟨s', hfree, hinv⟩ := h.free hA hb
      rw [hfree]
      exact ⟨_, rfl, hinv⟩
  | write addr v => exact ⟨_, rfl, h.pools, h.nodup, h.block⟩

end Inv

/-! ## Good states -/

/-- Live blocks do not overlap and have the size that was asked for, they go back to where they are
from, and they keep their bytes when they are moved.  The counter of a pool is the number of set
bits, and a pool that is full has as many as it has blocks. -/
structure Good (A : ImplAllocator τ) (live : τ → LiveMap) (nr : List (Nat × Nat)) (c : Client τ) :
    Prop where
  apart : c.live.Pairwise fun b b' =>
    b.ptr + room (live c.pool.impl) c.pool.pools b ≤ b'.ptr ∨
      b'.ptr + room (live c.pool.impl) c.pool.pools b' ≤ b.ptr
  size : ∀ b ∈ c.live, b.size ≤ room (live c.pool.impl) c.pool.pools b
  free : ∀ b ∈ c.live, FreedHome A c.pool b
  realloc : ∀ b ∈ c.live, ∀ size s' r, c.pool.realloc A b.ptr size = some (s', r) →
    KeepsBytes c.pool.mem s'.mem b size r
  used : ∀ (i : Nat) (p : MemPool), c.pool.pools[i]? = some (some p) →
    p.used = (members p.bits).card
  full : ∀ (i : Nat) (p : MemPool) (n : Nat × Nat), c.pool.pools[i]? = some (some p) → nr[i]? = some n → (memPoolGet p).1 = none →
    p.used = n.2

theorem Inv.good {c : Client τ} {nr : List (Nat × Nat)} (hA : A.Lawful live)
    (h : Inv live addr cap c) (hcap : ∀ i n, nr[i]? = some n → cap i = n.2) :
    Good A live nr c := by
  refine ⟨?_, fun b hb => (h.block b hb).size_le, fun b hb => h.freedHome hA hb, ?_,
    fun i p hp => (h.pools.at hp).wf.used, ?_⟩
  · have hne : c.live.Pairwise fun b b' => b.ptr ≠ b'.ptr := pairwise_map.mp h.nodup
    refine hne.imp_of_mem fun {b b'} hb hb' hptr => ?_
    exact (h.block b hb).apart (hA.apart _) h.pools (h.block b' hb') hptr
  · intro b hb size s' r hrealloc
    obtain ⟨s'', r', hrealloc', -, hbytes⟩ := h.realloc hA hb size
    rw [hrealloc, some_inj, Prod.mk.injEq] at hrealloc'
    rw [hrealloc'.1, hrealloc'.2]
    exact hbytes
  · intro i p n hp hn hget
    have hat := h.pools.at hp
    rcases MemPool.get_spec hat.wf with ⟨-, hused⟩ | ⟨j, -, -, hsome⟩
    · rw [hused, hat.capacity, hcap i n hn]
    · rw [hsome] at hget
      cases hget

/-! ## The first state -/

section Init

variable {arch : Arch} {t : τ} {mem : Mem} {nr : List (Nat × Nat)}

/-- The pool that was made in the region at an address. -/
structure Made (live : τ → LiveMap) (arch : Arch) (t t' : τ) (a : Nat) (n : Nat × Nat) (p : MemPool) :
    Prop where
  pos : a ≠ 0
  fresh : live t a = none
  region : live t' a = some (memPoolGetMinSize arch n.1 n.2)
  eq : p = memPoolInit arch a n.1 n.2

theorem memPoolCreate_spec (hA : A.Lawful live) (arch : Arch) (t : τ) (mem : Mem) (n : Nat × Nat) :
    ∃ t' mem', memPoolCreate A arch t mem n.1 n.2 = (t', mem', none) ∧ live t' = live t ∨
      ∃ a p, memPoolCreate A arch t mem n.1 n.2 = (t', mem', some p) ∧
        Made live arch t t' a n p ∧ live t' = (live t).add a (memPoolGetMinSize arch n.1 n.2) := by
  rw [memPoolCreate]
  rcases halloc : A.alloc t mem (memPoolGetMinSize arch n.1 n.2) with ⟨t', mem', _ | a⟩
  · exact ⟨t', mem', .inl ⟨rfl, (hA.alloc_none halloc).1⟩⟩
  · obtain ⟨hne, hnone, hlive, -⟩ := hA.alloc_some halloc
    refine ⟨t', mem'.zero a (memPoolGetMinSize arch n.1 n.2), .inr ⟨a, _, rfl, ?_, hlive⟩⟩
    exact ⟨hne, hnone, by rw [hlive, LiveMap.add_self], rfl⟩

/-- What was live stays live, and each pool that is made is in a region of its own. -/
theorem createPools_spec (hA : A.Lawful live) (arch : Arch) :
    ∀ (nr : List (Nat × Nat)) (t : τ) (mem : Mem),
      (∀ a k, live t a = some k → live (createPools A arch nr t mem).impl a = some k) ∧
      (createPools A arch nr t mem).pools.length = nr.length ∧
      ∃ addr : Nat → Nat, ∀ i n p, nr[i]? = some n →
        (createPools A arch nr t mem).pools[i]? = some (some p) →
        Made live arch t (createPools A arch nr t mem).impl (addr i) n p ∧
          ∀ j q, (createPools A arch nr t mem).pools[j]? = some (some q) → addr i = addr j → i = j
  | [], t, mem => ⟨fun _ _ h => h, rfl, fun _ => 0, fun i n p h => by cases h⟩
  | n :: nr, t, mem => by
    rw [createPools]
    obtain ⟨t', mem', ⟨hcreate, hlive⟩ | ⟨a, p₀, hcreate, hmade, hlive⟩⟩ :=
      memPoolCreate_spec hA arch t mem n
    · obtain ⟨hkeep, hlen, addr, haddr⟩ := createPools_spec hA arch nr t' mem'
      rw [hlive] at hkeep
      simp only [hcreate]
      refine ⟨hkeep, congrArg Nat.succ hlen, fun i => addr (i - 1), fun i n' p hn hp => ?_⟩
      cases i with
      | zero => cases hp
      | succ i =>
        obtain ⟨hmade, hinj⟩ := haddr i n' p hn hp
        refine ⟨⟨hmade.pos, hlive ▸ hmade.fresh, hmade.region, hmade.eq⟩, fun j q hq heq => ?_⟩
        cases j with
        | zero => cases hq
        | succ j => exact congrArg Nat.succ (hinj j q hq heq)
    · obtain ⟨hkeep, hlen, addr, haddr⟩ := createPools_spec hA arch nr t' mem'
      have hgrow : ∀ b k, live t b = some k → live t' b = some k := by
        intro b k hk
        rw [hlive, LiveMap.add_of_ne, hk]
        rintro rfl
        rw [hmade.fresh] at hk
        cases hk
      simp only [hcreate]
      refine ⟨fun b k hk => hkeep b k (hgrow b k hk), congrArg Nat.succ hlen,
        fun i => if i = 0 then a else addr (i - 1), fun i n' p hn hp => ?_⟩
      -- a pool that was made later is in another region
      have hne : ∀ j n' q, nr[j]? = some n' →
          (createPools A arch nr t' mem').pools[j]? = some (some q) → a ≠ addr j := by
        rintro j n' q hn hq rfl
        have hfresh := (haddr j n' q hn hq).1.fresh
        rw [hmade.region] at hfresh
        cases hfresh
      have hget : ∀ (j : Nat) (q : MemPool), (createPools A arch nr t' mem').pools[j]? = some (some q) →
          ∃ n', nr[j]? = some n' := by
        intro j q hq
        exact ⟨_, getElem?_eq_getElem (hlen ▸ lt_of_getElem? hq)⟩
      cases i with
      | zero =>
        obtain rfl : n = n' := some_inj.mp hn
        obtain rfl : p₀ = p := some_inj.mp (some_inj.mp hp)
        refine ⟨⟨hmade.pos, hmade.fresh, hkeep _ _ hmade.region, hmade.eq⟩, fun j q hq heq => ?_⟩
        cases j with
        | zero => rfl
        | succ j =>
          obtain ⟨n', hn'⟩ := hget j q hq
          exact absurd heq (hne j n' q hn' hq)
      | succ i =>
        obtain ⟨hmade', hinj⟩ := haddr i n' p hn hp
        refine ⟨⟨hmade'.pos, ?_, hmade'.region, hmade'.eq⟩, fun j q hq heq => ?_⟩
        · cases hold : live t (addr i) with
          | none => exact hold
          | some k =>
            have hfresh := hmade'.fresh
            rw [hgrow _ _ hold] at hfresh
            cases hfresh
        · cases j with
          | zero => exact absurd heq.symm (hne i n' p hn hp)
          | succ j => exact congrArg Nat.succ (hinj j q hq heq)

theorem Made.poolAt {t' : τ} {a : Nat} {n : Nat × Nat} {p : MemPool} (h : Made live arch t t' a n p)
    (hsize : 0 < n.1 ∧ n.1 ≤ 64) (hnr : n.2 < 8128) : PoolAt (live t') a n.2 p := by
  obtain ⟨hpos, -, hregion, rfl⟩ := h
  have hmod : n.1 % 2 ^ 8 = n.1 := Nat.mod_eq_of_lt (by omega)
  refine ⟨MemPool.init_wf (by omega), rfl, MemPool.init_capacity_eq_iff.mpr hnr, hpos, _, hregion, ?_⟩
  have hmul : n.2 * n.1 ≤ 8128 * 64 := Nat.mul_le_mul (Nat.le_of_lt hnr) hsize.2
  have hword : arch.word ≤ 8 := by
    cases arch
    · decide
    · decide
  have hnr' : n.2 % 2 ^ 16 = n.2 := Nat.mod_eq_of_lt (by omega)
  have hbits : memPoolGetBitsSize n.2 < 2 ^ 8 := by
    rw [memPoolGetBitsSize]
    omega
  have hmin : memPoolGetMinSize arch n.1 n.2 =
      memPoolHead arch + memPoolGetBitsSize n.2 * 4 + n.2 * n.1 := by
    have hhead : memPoolHead arch ≤ 24 := by
      rw [memPoolHead]
      omega
    rw [memPoolGetMinSize, U32.mul_of_lt (by omega), U32.mul_of_lt (by omega),
      U32.add_of_lt (a := memPoolHead arch) (by omega), U32.add_of_lt (by omega)]
  simp only [memPoolInit, hmod, hnr', Nat.mod_eq_of_lt hbits, hmin, Nat.mul_comm n.1]
  omega

theorem inv_init (hA : A.Lawful live) (hsize : ∀ n ∈ nr, 0 < n.1 ∧ n.1 ≤ 64)
    (hnull : none ∉ (createPools A arch nr t mem).pools) (hnr : ∀ n ∈ nr, n.2 < 8128) :
    ∃ addr, Inv live addr (fun i => (nr.getD i (0, 0)).2) ⟨createPools A arch nr t mem, []⟩ := by
  obtain ⟨-, hlen, addr, haddr⟩ := createPools_spec hA arch nr t mem
  have hpool : ∀ i < (createPools A arch nr t mem).pools.length, ∃ n p, nr[i]? = some n ∧
      n ∈ nr ∧ (createPools A arch nr t mem).pools[i]? = some (some p) := by
    intro i hi
    have hi' : i < nr.length := hlen ▸ hi
    cases hp : (createPools A arch nr t mem).pools[i] with
    | none => exact absurd (hp ▸ getElem_mem hi) hnull
    | some p =>
      exact ⟨nr[i], p, getElem?_eq_getElem hi', getElem_mem hi',
        by rw [getElem?_eq_getElem hi, hp]⟩
  refine ⟨addr, ⟨fun i hi => ?_, fun i hi j hj heq => ?_⟩, nodup_nil, by simp⟩
  · obtain ⟨n, p, hn, hmem, hp⟩ := hpool i hi
    refine ⟨p, hp, ?_⟩
    rw [getD_eq_getElem?_getD, hn]
    exact (haddr i n p hn hp).1.poolAt (hsize n hmem) (hnr n hmem)
  · obtain ⟨n, p, hn, -, hp⟩ := hpool i hi
    obtain ⟨-, q, -, -, hq⟩ := hpool j hj
    exact (haddr i n p hn hp).2 j q hq heq

theorem allocFromPools_null {size : Nat} {pools : List (Option MemPool)} (hnull : none ∈ pools)
    (hsize : ∀ p, some p ∈ pools → p.blockSize < size) : allocFromPools size pools = none := by
  induction pools with
  | nil => cases hnull
  | cons q pools ih =>
    cases q with
    | none => rfl
    | some p =>
      have hmatch : ¬ memPoolMatchSize p size = true := by
        rw [memPoolMatchSize, decide_eq_true_eq]
        have hp := hsize p mem_cons_self
        omega
      have hrest : none ∈ pools := (mem_cons.mp hnull).resolve_left fun h => by cases h
      rw [allocFromPools, if_neg hmatch, ih hrest fun p hp => hsize p (mem_cons_of_mem _ hp)]
      rfl

/-- The pools hand out all their blocks. -/
def AllFill (nr : List (Nat × Nat)) (s : MemAllocatorPool τ) : Prop :=
  ∀ (i : Nat) (p : MemPool) (n : Nat × Nat), s.pools[i]? = some (some p) → nr[i]? = some n →
    p.Fills n.2

/-- Every run of legal calls is good, and the pools hand out all their blocks, exactly if there was
memory for all pools and no number of blocks is cut. -/
theorem createPools_good_iff (hA : A.Lawful live) (hsize : ∀ n ∈ nr, 0 < n.1 ∧ n.1 ≤ 64) :
    ((∀ as, Runs.Meets (Client.step A) Client.Legal ⟨createPools A arch nr t mem, []⟩ as →
      ∃ c, Runs.run (Client.step A) ⟨createPools A arch nr t mem, []⟩ as = some c ∧
        Good A live nr c) ∧ AllFill nr (createPools A arch nr t mem)) ↔
      none ∉ (createPools A arch nr t mem).pools ∧ ∀ n ∈ nr, n.2 < 8128 := by
  obtain ⟨-, hlen, addr, haddr⟩ := createPools_spec hA arch nr t mem
  have hwf : ∀ n ∈ nr, n.1 % 2 ^ 8 ≠ 0 := by
    intro n hn
    have := hsize n hn
    omega
  constructor
  · rintro ⟨hruns, hfill⟩
    have hnull : none ∉ (createPools A arch nr t mem).pools := by
      intro hnull
      obtain ⟨c, hrun, -⟩ := hruns [.alloc 65] ⟨trivial, fun _ _ => trivial⟩
      have hcrash : allocFromPools 65 (createPools A arch nr t mem).pools = none := by
        refine allocFromPools_null hnull fun p hp => ?_
        obtain ⟨i, hi⟩ := mem_iff_getElem?.mp hp
        have hi' : i < nr.length := hlen ▸ lt_of_getElem? hi
        have hmade := (haddr i nr[i] p (getElem?_eq_getElem hi') hi).1
        have hle := (hsize nr[i] (getElem_mem hi')).2
        rw [hmade.eq]
        exact Nat.lt_succ_of_le ((Nat.mod_le _ _).trans hle)
      rw [Runs.run_cons, Client.step, MemAllocatorPool.alloc, hcrash] at hrun
      cases hrun
    refine ⟨hnull, fun n hn => ?_⟩
    obtain ⟨i, hi⟩ := mem_iff_getElem?.mp hn
    have hi' : i < (createPools A arch nr t mem).pools.length :=
      hlen ▸ (List.getElem?_eq_some_iff.mp hi).1
    cases hp : (createPools A arch nr t mem).pools[i] with
    | none => exact absurd (hp ▸ getElem_mem hi') hnull
    | some p =>
      have hget : (createPools A arch nr t mem).pools[i]? = some (some p) := by
        rw [getElem?_eq_getElem hi', hp]
      have hfills := hfill i p n hget hi
      rw [(haddr i n p hi hget).1.eq] at hfills
      exact (MemPool.init_fills_iff (hwf n hn)).mp hfills
  · rintro ⟨hnull, hnr⟩
    obtain ⟨addr', hinv⟩ := inv_init hA hsize hnull hnr
    constructor
    · intro as hlegal
      obtain ⟨c, hrun, hinv'⟩ :=
        Runs.run_progress (fun c a h hl => step_inv hA h a hl) hinv hlegal
      refine ⟨c, hrun, hinv'.good hA fun i n hn => ?_⟩
      simp only [getD_eq_getElem?_getD, hn, getD_some]
    · intro i p n hp hn
      have hmem := mem_of_getElem? hn
      rw [(haddr i n p hn hp).1.eq]
      exact (MemPool.init_fills_iff (hwf n hmem)).mpr (hnr n hmem)

end Init

/-- The runs from `mem_allocator_pool_init` are good exactly if there is memory for all pools and
each has less than 8128 blocks. -/
theorem good_iff (hA : A.Lawful live) (arch : Arch) (t : τ) (mem : Mem)
    (pool8Nr pool16Nr pool32Nr pool48Nr pool64Nr : Nat) :
    ((∀ as, Runs.Meets (Client.step A) Client.Legal
        ⟨init A arch t mem pool8Nr pool16Nr pool32Nr pool48Nr pool64Nr, []⟩ as →
      ∃ c, Runs.run (Client.step A)
          ⟨init A arch t mem pool8Nr pool16Nr pool32Nr pool48Nr pool64Nr, []⟩ as = some c ∧
        Good A live (sizes pool8Nr pool16Nr pool32Nr pool48Nr pool64Nr) c) ∧
      AllFill (sizes pool8Nr pool16Nr pool32Nr pool48Nr pool64Nr)
        (init A arch t mem pool8Nr pool16Nr pool32Nr pool48Nr pool64Nr)) ↔
      none ∉ (init A arch t mem pool8Nr pool16Nr pool32Nr pool48Nr pool64Nr).pools ∧
        ∀ n ∈ [pool8Nr, pool16Nr, pool32Nr, pool48Nr, pool64Nr], n < 8128 := by
  have hnr : (∀ n ∈ sizes pool8Nr pool16Nr pool32Nr pool48Nr pool64Nr, n.2 < 8128) ↔
      ∀ n ∈ [pool8Nr, pool16Nr, pool32Nr, pool48Nr, pool64Nr], n < 8128 := by
    simp [sizes]
  rw [init, createPools_good_iff hA, hnr]
  intro n hn
  simp only [sizes, mem_cons, not_mem_nil, or_false] at hn
  rcases hn with rfl | rfl | rfl | rfl | rfl <;> simp

/-! ## A simple allocator below -/

/-- Regions that are given one behind the other. -/
structure Bump where
  live : LiveMap
  top : Nat
  pos : 0 < top
  below : ∀ p k, live p = some k → p + max 1 k ≤ top
  apart : live.Apart

namespace Bump

def first : Bump where
  live _ := none
  top := 16
  pos := by decide
  below _ _ h := nomatch h
  apart _ _ _ _ h := nomatch h

def give (t : Bump) (n : Nat) : Bump where
  live := t.live.add t.top n
  top := t.top + max 1 n
  pos := Nat.add_pos_left t.pos _
  below := by
    intro p k hk
    by_cases hp : p = t.top
    · subst hp
      rw [LiveMap.add_self, some_inj] at hk
      rw [hk]
    · rw [LiveMap.add_of_ne hp] at hk
      exact (t.below p k hk).trans (Nat.le_add_right _ _)
  apart := by
    intro p q k l hk hl hne
    by_cases hp : p = t.top
    · subst hp
      rw [LiveMap.add_of_ne hne.symm] at hl
      exact .inr (t.below q l hl)
    · rw [LiveMap.add_of_ne hp] at hk
      by_cases hq : q = t.top
      · subst hq
        exact .inl (t.below p k hk)
      · rw [LiveMap.add_of_ne hq] at hl
        exact t.apart p q k l hk hl hne

def take (t : Bump) (p : Nat) : Bump where
  live := t.live.drop p
  top := t.top
  pos := t.pos
  below := by
    intro q k hk
    by_cases hq : q = p
    · subst hq
      rw [LiveMap.drop_self] at hk
      cases hk
    · rw [LiveMap.drop_of_ne hq] at hk
      exact t.below q k hk
  apart := by
    intro q r k l hk hl hne
    by_cases hq : q = p
    · subst hq
      rw [LiveMap.drop_self] at hk
      cases hk
    by_cases hr : r = p
    · subst hr
      rw [LiveMap.drop_self] at hl
      cases hl
    rw [LiveMap.drop_of_ne hq] at hk
    rw [LiveMap.drop_of_ne hr] at hl
    exact t.apart q r k l hk hl hne

theorem live_top (t : Bump) : t.live t.top = none := by
  cases h : t.live t.top with
  | none => rfl
  | some k =>
    have hle := t.below t.top k h
    omega

/-- The functions of the allocator.  A region that is moved is given anew and copied. -/
def allocator : ImplAllocator Bump where
  alloc t mem n := (t.give n, mem, some t.top)
  realloc t mem p n :=
    ((t.take p).give n, mem.copy t.top p (min ((t.live p).getD 0) n), some t.top)
  free t mem p := (t.take p, mem)

theorem lawful : allocator.Lawful Bump.live := by
  refine ⟨fun t => t.apart, ?_, ?_, ?_, ?_, ?_⟩
  · rintro t mem n t' mem' p h
    cases h
    exact ⟨Nat.ne_of_gt t.pos, t.live_top, rfl, fun _ _ _ _ _ => rfl⟩
  · rintro t mem n t' mem' h
    cases h
  · rintro t mem p n k t' mem' q hk h
    cases h
    rw [hk, getD_some]
    refine ⟨Nat.ne_of_gt t.pos, (t.take p).live_top, rfl, fun r l hl i hi => ?_, fun i hi => ?_⟩
    · have hle := (t.take p).below r l hl
      have htop : (t.take p).top = t.top := rfl
      rw [Mem.copy, if_neg (by omega)]
    · rw [Mem.copy, if_pos (by omega), Nat.add_sub_cancel_left]
  · rintro t mem p n k t' mem' - h
    cases h
  · rintro t mem p k t' mem' - h
    cases h
    exact ⟨rfl, fun _ _ _ _ _ => rfl⟩

end Bump

theorem good_iff_bump :
    ((∀ as, Runs.Meets (Client.step Bump.allocator) Client.Legal
        ⟨init Bump.allocator .bits64 .first (fun _ => 0) 100 100 80 80 32, []⟩ as →
      ∃ c, Runs.run (Client.step Bump.allocator)
          ⟨init Bump.allocator .bits64 .first (fun _ => 0) 100 100 80 80 32, []⟩ as = some c ∧
        Good Bump.allocator Bump.live (sizes 100 100 80 80 32) c) ∧
      AllFill (sizes 100 100 80 80 32)
        (init Bump.allocator .bits64 .first (fun _ => 0) 100 100 80 80 32)) ↔
      none ∉ (init Bump.allocator .bits64 .first (fun _ => 0) 100 100 80 80 32).pools ∧
        ∀ n ∈ [100, 100, 80, 80, 32], n < 8128 :=
  good_iff Bump.lawful .bits64 .first (fun _ => 0) 100 100 80 80 32

/-- A pool of 8128 blocks has no word in its bitmap. -/
theorem init_not_good :
    ¬ ∀ pool8Nr pool16Nr pool32Nr pool48Nr pool64Nr : Nat,
      (∀ as, Runs.Meets (Client.step Bump.allocator) Client.Legal
          ⟨init Bump.allocator .bits64 .first (fun _ => 0) pool8Nr pool16Nr pool32Nr pool48Nr pool64Nr,
            []⟩ as →
        ∃ c, Runs.run (Client.step Bump.allocator)
            ⟨init Bump.allocator .bits64 .first (fun _ => 0) pool8Nr pool16Nr pool32Nr pool48Nr
              pool64Nr, []⟩ as = some c ∧
          Good Bump.allocator Bump.live (sizes pool8Nr pool16Nr pool32Nr pool48Nr pool64Nr) c) ∧
        AllFill (sizes pool8Nr pool16Nr pool32Nr pool48Nr pool64Nr)
          (init Bump.allocator .bits64 .first (fun _ => 0) pool8Nr pool16Nr pool32Nr pool48Nr
            pool64Nr) := by
  intro h
  have hgood := h 8128 32 32 32 32
  rw [init, createPools_good_iff Bump.lawful (by decide)] at hgood
  exact absurd (hgood.2 (8, 8128) (by decide)) (by decide)

end Awtk.MemAllocatorPool
