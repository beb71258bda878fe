import Mathlib
import Awtk.Lib.Bitmap
import Awtk.Tkc.Types

/-!
# Pools of blocks of one size

A pool is a header, a bitmap and the blocks behind it.  The fields of the header are narrow, so
the number of words of the bitmap and the number of blocks are cut to 8 and 16 bits.  A block that
is handed out is the first one whose bit is clear.
-/

namespace Awtk

open List Option

/-- `mem_pool_t`, with the words of the bitmap. -/
structure MemPool where
  blockSize : Nat
  bitsSize : Nat
  blockNr : Nat
  minBlockSize : Nat
  used : Nat
  bits : List (BitVec 32)
  start : Nat
  deriving DecidableEq, Repr

def memPoolMatchSize (pool : MemPool) (size : Nat) : Bool :=
  pool.minBlockSize ≤ size ∧ size ≤ pool.blockSize

/-- `mem_pool_get_bits_size`.  The mask makes the number even. -/
def memPoolGetBitsSize (blockNr : Nat) : Nat := (blockNr / 32 + 2) / 2 * 2

/-- `sizeof(mem_pool_t)`. -/
def memPoolHead (arch : Arch) : Nat := 8 + 2 * arch.word

/-- `mem_pool_get_min_size`, of type `uint32_t`. -/
def memPoolGetMinSize (arch : Arch) (blockSize blockNr : Nat) : Nat :=
  U32.add (U32.add (memPoolHead arch) (U32.mul (memPoolGetBitsSize blockNr) 4))
    (U32.mul blockNr blockSize)

def memPoolInit (arch : Arch) (addr blockSize blockNr : Nat) : MemPool :=
  let bitsSize := memPoolGetBitsSize blockNr % 2 ^ 8
  { blockSize := blockSize % 2 ^ 8
    bitsSize := bitsSize
    blockNr := blockNr % 2 ^ 16
    minBlockSize := 0
    used := 0
    bits := List.replicate bitsSize 0
    start := addr + memPoolHead arch + bitsSize * 4 }

/-- The loop of `mem_pool_get_free_index` over the bits of a word: a bit that is clear, or the
index behind the bits that were looked at. -/
def freeBit (blockNr : Nat) (v : BitVec 32) : Nat → Nat → Nat → Nat ⊕ Nat
  | 0, _, index => .inr index
  | fuel + 1, k, index =>
    if v.getLsbD k = false then .inl k
    else if blockNr ≤ index + 1 then .inr (index + 1)
    else freeBit blockNr v fuel (k + 1) (index + 1)

/-- The loop of `mem_pool_get_free_index` over the words.  The index that is found, and the words
with its bit set. -/
def freeIndex (blockNr : Nat) : List (BitVec 32) → Nat → Nat → Option (Nat × List (BitVec 32))
  | [], _, _ => none
  | v :: bits, i, index =>
    if blockNr ≤ index then none
    else if v ≠ BitVec.allOnes 32 then
      match freeBit blockNr v 32 0 index with
      | .inl k => some (i * 32 + k, (v ||| BitVec.twoPow 32 k) :: bits)
      | .inr index => (freeIndex blockNr bits (i + 1) index).map (Prod.map id (v :: ·))
    else (freeIndex blockNr bits (i + 1) (index + 32)).map (Prod.map id (v :: ·))

def memPoolGetFreeIndex (pool : MemPool) : Option (Nat × List (BitVec 32)) :=
  freeIndex pool.blockNr pool.bits 0 0

def memPoolGet (pool : MemPool) : Option Nat × MemPool :=
  match memPoolGetFreeIndex pool with
  | some (index, bits) =>
    (some (pool.start + index * pool.blockSize),
      { pool with used := (pool.used + 1) % 2 ^ 16, bits := bits })
  | none => (none, pool)

/-- `mem_pool_put_index`.  A word behind the bitmap is an error. -/
def memPoolPutIndex (pool : MemPool) (index : Nat) : Option (Ret × MemPool) :=
  (pool.bits[index / 32]?).map fun v =>
    if v.getLsbD (index % 32) then (.ok, { pool with bits := Bitmap.clear pool.bits index })
    else (.fail, pool)

def memPoolGetIndex (pool : MemPool) (ptr : Nat) : Option Nat :=
  if pool.start ≤ ptr ∧ ptr < pool.start + pool.blockSize * pool.blockNr then
    some ((ptr - pool.start) / pool.blockSize)
  else none

def memPoolPut (pool : MemPool) (ptr : Nat) : Option (Ret × MemPool) :=
  match memPoolGetIndex pool ptr with
  | some index =>
    (memPoolPutIndex pool index).map fun
      | (.ok, pool) => (.ok, { pool with used := (pool.used + (2 ^ 16 - 1)) % 2 ^ 16 })
      | (_, pool) => (.notFound, pool)
  | none => some (.notFound, pool)

namespace MemPool

open Bitmap (test members)

/-! ## The first clear bit -/

section FreeIndex

variable {blockNr : Nat} {v : BitVec 32} {bits bits' : List (BitVec 32)} {i k n index fuel : Nat}

/-- Every bit below the number of blocks that was looked at is set, up to the one that is found. -/
theorem freeBit_spec (hk : k + fuel = 32) (hindex : index < blockNr)
    (hset : ∀ j < k, v.getLsbD j = true) :
    (∀ k', freeBit blockNr v fuel k index = .inl k' →
      k ≤ k' ∧ k' < 32 ∧ index + (k' - k) < blockNr ∧ v.getLsbD k' = false ∧
        ∀ j < k', v.getLsbD j = true) ∧
    (∀ index', freeBit blockNr v fuel k index = .inr index' →
      index' = min (index + fuel) blockNr ∧
        ∀ j < 32, j < k ∨ index + (j - k) < blockNr → v.getLsbD j = true) := by
  induction fuel generalizing k index with
  | zero =>
    constructor
    · intro k' h
      cases h
    · intro index' h
      obtain rfl : index = index' := Sum.inr.inj h
      exact ⟨by omega, fun j hj _ => hset j (by omega)⟩
  | succ fuel ih =>
    rw [freeBit]
    cases hbit : v.getLsbD k with
    | false =>
      rw [if_pos rfl]
      constructor
      · intro k' h
        obtain rfl : k = k' := Sum.inl.inj h
        exact ⟨Nat.le_refl k, by omega, by omega, hbit, hset⟩
      · intro index' h
        cases h
    | true =>
      have hset' : ∀ j < k + 1, v.getLsbD j = true := by
        intro j hj
        rcases Nat.lt_succ_iff_lt_or_eq.mp hj with hj | rfl
        · exact hset j hj
        · exact hbit
      rw [if_neg Bool.noConfusion]
      split_ifs with hend
      · constructor
        · intro k' h
          cases h
        · intro index' h
          obtain rfl : index + 1 = index' := Sum.inr.inj h
          exact ⟨by omega, fun j _ hj => hset' j (by omega)⟩
      · obtain ⟨hfound, hnone⟩ := ih (by omega) (Nat.lt_of_not_le hend) hset'
        constructor
        · intro k' h
          obtain ⟨h1, h2, h3, h4, h5⟩ := hfound k' h
          exact ⟨by omega, h2, by omega, h4, h5⟩
        · intro index' h
          obtain ⟨h1, h2⟩ := hnone index' h
          exact ⟨by omega, fun j hj hlt => h2 j hj (by omega)⟩

/-- The index that is found is the first one whose bit is clear. -/
structure First (blockNr i : Nat) (bits bits' : List (BitVec 32)) (n : Nat) : Prop where
  lt : n < blockNr
  word : n < 32 * (i + bits.length)
  free : ∃ r, n = 32 * i + r ∧ test bits r = false ∧ bits' = Bitmap.set bits r ∧
    ∀ j < r, test bits j = true

theorem First.cons (h : First blockNr (i + 1) bits bits' n)
    (hv : ∀ j < 32, v.getLsbD j = true) : First blockNr i (v :: bits) (v :: bits') n := by
  obtain ⟨hlt, hword, r, rfl, hfree, rfl, hfirst⟩ := h
  refine ⟨hlt, by simp only [length_cons]; omega, 32 + r, by omega, ?_, ?_, fun j hj => ?_⟩
  · rw [Bitmap.test_cons_add (by decide)]
    exact hfree
  · rw [Bitmap.set_cons_add (by decide)]
  · by_cases hlow : j < 32
    · rw [Bitmap.test_cons_of_lt hlow]
      exact hv j hlow
    · obtain ⟨j', rfl⟩ := Nat.exists_eq_add_of_le (Nat.le_of_not_lt hlow)
      rw [Bitmap.test_cons_add (by decide)]
      exact hfirst j' (by omega)

theorem allOnes_bit (j : Nat) (hj : j < 32) : (BitVec.allOnes 32).getLsbD j = true := by
  rw [BitVec.getLsbD_allOnes, decide_eq_true hj]

/-- The search finds the first clear bit, and else all bits below the number of blocks are set. -/
theorem freeIndex_spec (blockNr : Nat) (bits : List (BitVec 32))
    (hindex : index = 32 * i ∨ blockNr ≤ index ∧ blockNr ≤ 32 * i) :
    (∀ n bits', freeIndex blockNr bits i index = some (n, bits') → First blockNr i bits bits' n) ∧
    (freeIndex blockNr bits i index = none →
      ∀ r < 32 * bits.length, 32 * i + r < blockNr → test bits r = true) := by
  induction bits generalizing i index with
  | nil =>
    constructor
    · intro n bits' h
      cases h
    · intro _ r hr
      cases hr
  | cons v bits ih =>
    rw [freeIndex]
    by_cases hend : blockNr ≤ index
    · rw [if_pos hend]
      constructor
      · intro n bits' h
        cases h
      · intro _ r _ hr
        omega
    rw [if_neg hend]
    have hi : index = 32 * i := by omega
    -- what the rest of the words gives, when this word has no clear bit below the number of blocks
    have hrest {index' : Nat} (hv : ∀ j < 32, 32 * i + j < blockNr → v.getLsbD j = true)
        (hindex' : index' = 32 * (i + 1) ∨ blockNr ≤ index' ∧ blockNr ≤ 32 * (i + 1)) :
        (∀ n bits', (freeIndex blockNr bits (i + 1) index').map (Prod.map id (v :: ·)) =
          some (n, bits') → First blockNr i (v :: bits) bits' n) ∧
        ((freeIndex blockNr bits (i + 1) index').map (Prod.map id (v :: ·)) = none →
          ∀ r < 32 * (v :: bits).length, 32 * i + r < blockNr → test (v :: bits) r = true) := by
      obtain ⟨hfound, hnone⟩ := ih hindex'
      constructor
      · intro n bits' h
        obtain ⟨⟨n', rest⟩, hsome, heq⟩ := map_eq_some_iff.mp h
        obtain ⟨rfl, rfl⟩ := Prod.mk.inj heq
        have hfirst := hfound n' rest hsome
        refine hfirst.cons fun j hj => hv j hj ?_
        obtain ⟨r, hr, -⟩ := hfirst.free
        have hlt := hfirst.lt
        omega
      · intro h r hr hlt
        rw [map_eq_none_iff] at h
        by_cases hlow : r < 32
        · rw [Bitmap.test_cons_of_lt hlow]
          exact hv r hlow hlt
        · obtain ⟨r', rfl⟩ := Nat.exists_eq_add_of_le (Nat.le_of_not_lt hlow)
          rw [Bitmap.test_cons_add (by decide)]
          rw [length_cons] at hr
          exact hnone h r' (by omega) (by omega)
    by_cases hfull : v = BitVec.allOnes 32
    · rw [if_neg (not_not.mpr hfull)]
      exact hrest (fun j hj _ => hfull ▸ allOnes_bit j hj) (.inl (by omega))
    · rw [if_pos hfull]
      obtain ⟨hfound, hnone⟩ :=
        freeBit_spec (k := 0) (v := v) (Nat.zero_add 32) (Nat.lt_of_not_le hend) (by simp)
      cases hbit : freeBit blockNr v 32 0 index with
      | inl k =>
        obtain ⟨-, hk, hlt, hfree, hbefore⟩ := hfound k hbit
        constructor
        · intro n bits' h
          obtain ⟨rfl, rfl⟩ := Prod.mk.inj (some_inj.mp h)
          refine ⟨by omega, by rw [length_cons]; omega, k, by omega, ?_, ?_, fun j hj => ?_⟩
          · rw [Bitmap.test_cons_of_lt hk]
            exact hfree
          · rw [Bitmap.set_cons_of_lt hk]
          · rw [Bitmap.test_cons_of_lt (hj.trans hk)]
            exact hbefore j hj
        · intro h
          cases h
      | inr index' =>
        obtain ⟨hindex', hset⟩ := hnone index' hbit
        exact hrest (fun j hj hlt => hset j hj (.inr (by omega))) (by omega)

end FreeIndex

/-! ## One pool -/

/-- The blocks that the bitmap and the number of blocks both have room for. -/
def capacity (pool : MemPool) : Nat := min pool.blockNr (32 * pool.bits.length)

/-- The address of a block. -/
def block (pool : MemPool) (i : Nat) : Nat := pool.start + i * pool.blockSize

/-- The counter is the number of set bits, and only blocks that exist are used. -/
structure Wf (pool : MemPool) : Prop where
  blockSize : 0 < pool.blockSize
  blockNr : pool.blockNr < 2 ^ 16
  lt : ∀ i ∈ members pool.bits, i < pool.blockNr
  used : pool.used = (members pool.bits).card

/-- The bit of a block is set. -/
def take (pool : MemPool) (i : Nat) : MemPool :=
  { pool with used := pool.used + 1, bits := Bitmap.set pool.bits i }

/-- The bit of a block is cleared. -/
def giveBack (pool : MemPool) (i : Nat) : MemPool :=
  { pool with used := pool.used - 1, bits := Bitmap.clear pool.bits i }

section Pool

variable {pool pool' : MemPool} {i ptr : Nat}

theorem lt_capacity (h : pool.Wf) (hi : i ∈ members pool.bits) : i < pool.capacity :=
  lt_min (h.lt i hi) (Bitmap.test_lt (Bitmap.mem_members.mp hi))

theorem members_subset (h : pool.Wf) : members pool.bits ⊆ Finset.range pool.capacity :=
  fun _ hi => Finset.mem_range.mpr (lt_capacity h hi)

theorem used_le (h : pool.Wf) : pool.used ≤ pool.capacity := by
  rw [h.used]
  exact (Finset.card_le_card (members_subset h)).trans_eq (Finset.card_range _)

@[simp] theorem take_capacity : (pool.take i).capacity = pool.capacity := by
  simp [take, capacity]

@[simp] theorem giveBack_capacity : (pool.giveBack i).capacity = pool.capacity := by
  simp [giveBack, capacity]

theorem members_take (hi : i < pool.capacity) :
    members (pool.take i).bits = insert i (members pool.bits) :=
  Bitmap.members_set (lt_of_lt_of_le hi (min_le_right _ _))

theorem members_giveBack (hi : i < pool.capacity) :
    members (pool.giveBack i).bits = (members pool.bits).erase i :=
  Bitmap.members_clear (lt_of_lt_of_le hi (min_le_right _ _))

theorem Wf.take (h : pool.Wf) (hi : i < pool.capacity) (hfree : i ∉ members pool.bits) :
    (pool.take i).Wf := by
  refine ⟨h.blockSize, h.blockNr, fun j hj => ?_, ?_⟩
  · rw [members_take hi] at hj
    rcases Finset.mem_insert.mp hj with rfl | hj
    · exact lt_of_lt_of_le hi (min_le_left _ _)
    · exact h.lt j hj
  · rw [members_take hi, Finset.card_insert_of_notMem hfree, ← h.used]
    rfl

theorem Wf.giveBack (h : pool.Wf) (hi : i ∈ members pool.bits) : (pool.giveBack i).Wf := by
  have hmembers := members_giveBack (lt_capacity h hi)
  refine ⟨h.blockSize, h.blockNr, fun j hj => ?_, ?_⟩
  · rw [hmembers] at hj
    exact h.lt j (Finset.mem_of_mem_erase hj)
  · rw [hmembers, Finset.card_erase_of_mem hi, ← h.used]
    rfl

/-- A pool is full exactly if all its blocks are used, and else it hands out one that is free. -/
theorem get_spec (h : pool.Wf) :
    (memPoolGet pool = (none, pool) ∧ pool.used = pool.capacity) ∨
      ∃ i < pool.capacity, i ∉ members pool.bits ∧
        memPoolGet pool = (some (pool.block i), pool.take i) := by
  obtain ⟨hfound, hnone⟩ :=
    freeIndex_spec pool.blockNr pool.bits (show 0 = 32 * 0 ∨ _ from .inl rfl)
  rw [memPoolGet, memPoolGetFreeIndex]
  cases hindex : freeIndex pool.blockNr pool.bits 0 0 with
  | none =>
    have hall : Finset.range pool.capacity ⊆ members pool.bits := by
      intro r hr
      have hlt := lt_min_iff.mp (Finset.mem_range.mp hr)
      exact Bitmap.mem_members.mpr (hnone hindex r hlt.2 (by omega))
    refine .inl ⟨rfl, ?_⟩
    rw [h.used, (members_subset h).antisymm hall, Finset.card_range]
  | some found =>
    obtain ⟨n, bits'⟩ := found
    obtain ⟨hlt, hword, r, hr, hfree, rfl, -⟩ := hfound n bits' hindex
    obtain rfl : n = r := by omega
    have hcap : n < pool.capacity := lt_min hlt (by omega)
    have hnot : n ∉ members pool.bits := by
      rw [Bitmap.mem_members, hfree]
      exact Bool.noConfusion
    have hused : (pool.used + 1) % 2 ^ 16 = pool.used + 1 := by
      have hle := used_le (h.take hcap hnot)
      rw [take_capacity] at hle
      have hnr := h.blockNr
      have hmin : pool.capacity ≤ pool.blockNr := min_le_left _ _
      have hle' : pool.used + 1 ≤ pool.capacity := hle
      exact Nat.mod_eq_of_lt (by omega)
    exact .inr ⟨n, hcap, hnot, by simp only [hused]; rfl⟩

theorem block_lt (hsize : 0 < pool.blockSize) (hi : i < pool.blockNr) :
    pool.block i < pool.start + pool.blockSize * pool.blockNr := by
  have hmul : (i + 1) * pool.blockSize ≤ pool.blockNr * pool.blockSize :=
    Nat.mul_le_mul_right _ hi
  rw [block, Nat.mul_comm pool.blockSize]
  rw [Nat.add_mul] at hmul
  omega

theorem getIndex_block (hsize : 0 < pool.blockSize) (hi : i < pool.blockNr) :
    memPoolGetIndex pool (pool.block i) = some i := by
  have hrange : pool.start ≤ pool.block i ∧
      pool.block i < pool.start + pool.blockSize * pool.blockNr :=
    ⟨Nat.le_add_right _ _, block_lt hsize hi⟩
  rw [memPoolGetIndex, if_pos hrange, block, Nat.add_sub_cancel_left, Nat.mul_div_cancel _ hsize]

theorem put_block (h : pool.Wf) (hi : i ∈ members pool.bits) :
    memPoolPut pool (pool.block i) = some (.ok, pool.giveBack i) := by
  have hlt := Bitmap.div_lt (Bitmap.test_lt (Bitmap.mem_members.mp hi))
  have hbit : (pool.bits[i / 32]).getLsbD (i % 32) = true := by
    have htest := Bitmap.mem_members.mp hi
    rwa [test, getD_eq_getElem?_getD, getElem?_eq_getElem hlt] at htest
  have hpos : 0 < pool.used := by
    rw [h.used]
    exact Finset.card_pos.mpr ⟨i, hi⟩
  have hused : (pool.used + (2 ^ 16 - 1)) % 2 ^ 16 = pool.used - 1 := by
    have hle := used_le h
    have hnr := h.blockNr
    have hmin : pool.capacity ≤ pool.blockNr := min_le_left _ _
    omega
  rw [memPoolPut, getIndex_block h.blockSize (h.lt i hi)]
  simp only [memPoolPutIndex, getElem?_eq_getElem hlt, map_some, hbit, if_true, hused]
  rfl

end Pool

/-! ## Handing out -/

/-- The addresses of some calls of `mem_pool_get`, if none of them reports a full pool. -/
def getMany : Nat → MemPool → Option (List Nat × MemPool)
  | 0, pool => some ([], pool)
  | n + 1, pool =>
    match memPoolGet pool with
    | (some addr, pool) => (getMany n pool).map (Prod.map (addr :: ·) id)
    | (none, _) => none

/-- A pool hands out `n` distinct blocks before it reports that it is full. -/
def Fills (n : Nat) (pool : MemPool) : Prop :=
  ∃ addrs pool', getMany n pool = some (addrs, pool') ∧ addrs.Nodup

section Fills

variable {pool pool' : MemPool} {n i j : Nat} {addrs : List Nat}

theorem block_inj (h : pool.Wf) (heq : pool.block i = pool.block j) : i = j := by
  rw [block, block, Nat.add_left_cancel_iff] at heq
  exact Nat.eq_of_mul_eq_mul_right h.blockSize heq

theorem getMany_used (h : pool.Wf) (hget : getMany n pool = some (addrs, pool')) :
    pool'.Wf ∧ pool'.used = pool.used + n ∧ pool'.capacity = pool.capacity := by
  induction n generalizing pool addrs with
  | zero =>
    obtain ⟨rfl, rfl⟩ := Prod.mk.inj (some_inj.mp hget)
    exact ⟨h, rfl, rfl⟩
  | succ n ih =>
    rw [getMany] at hget
    rcases get_spec h with ⟨hnone, -⟩ | ⟨i, hi, hfree, hsome⟩
    · rw [hnone] at hget
      cases hget
    · rw [hsome] at hget
      obtain ⟨⟨rest, last⟩, hrest, heq⟩ := map_eq_some_iff.mp hget
      obtain ⟨-, rfl⟩ := Prod.mk.inj heq
      obtain ⟨hwf, hused, hcap⟩ := ih (h.take hi hfree) hrest
      refine ⟨hwf, ?_, hcap.trans take_capacity⟩
      rw [hused]
      exact Nat.succ_add_eq_add_succ pool.used n

theorem getMany_of_le (h : pool.Wf) (hle : pool.used + n ≤ pool.capacity) :
    ∃ addrs pool', getMany n pool = some (addrs, pool') ∧ addrs.Nodup ∧
      ∀ a ∈ addrs, ∃ i, i ∉ members pool.bits ∧ a = pool.block i := by
  induction n generalizing pool with
  | zero => exact ⟨[], pool, rfl, nodup_nil, fun a ha => absurd ha not_mem_nil⟩
  | succ n ih =>
    rcases get_spec h with ⟨-, hfull⟩ | ⟨i, hi, hfree, hsome⟩
    · omega
    · have hle' : (pool.take i).used + n ≤ (pool.take i).capacity := by
        rw [take_capacity, take]
        simp only
        omega
      obtain ⟨rest, last, hrest, hnodup, hblocks⟩ := ih (h.take hi hfree) hle'
      rw [members_take hi] at hblocks
      refine ⟨pool.block i :: rest, last, ?_, nodup_cons.mpr ⟨fun hmem => ?_, hnodup⟩, ?_⟩
      · rw [getMany, hsome]
        simp only [hrest]
        rfl
      · obtain ⟨j, hj, heq⟩ := hblocks _ hmem
        have hij : i = j := block_inj h heq
        exact hj (hij ▸ Finset.mem_insert_self i _)
      · refine forall_mem_cons.mpr ⟨⟨i, hfree, rfl⟩, fun a ha => ?_⟩
        obtain ⟨j, hj, heq⟩ := hblocks a ha
        exact ⟨j, fun hmem => hj (Finset.mem_insert_of_mem hmem), heq⟩

theorem fills_iff (h : pool.Wf) : Fills n pool ↔ pool.used + n ≤ pool.capacity := by
  constructor
  · rintro ⟨addrs, pool', hget, -⟩
    obtain ⟨hwf, hused, hcap⟩ := getMany_used h hget
    rw [← hused, ← hcap]
    exact used_le hwf
  · intro hle
    obtain ⟨addrs, pool', hget, hnodup, -⟩ := getMany_of_le h hle
    exact ⟨addrs, pool', hget, hnodup⟩

end Fills

/-! ## A new pool -/

section Init

variable {arch : Arch} {addr blockSize blockNr : Nat}

theorem init_members : members (memPoolInit arch addr blockSize blockNr).bits = ∅ :=
  Bitmap.members_zero _

theorem init_wf (hsize : blockSize % 2 ^ 8 ≠ 0) : (memPoolInit arch addr blockSize blockNr).Wf := by
  refine ⟨Nat.pos_of_ne_zero hsize, Nat.mod_lt _ (by decide), fun i hi => ?_, ?_⟩
  · rw [init_members] at hi
    exact absurd hi (Finset.notMem_empty i)
  · rw [init_members]
    rfl

theorem init_capacity : (memPoolInit arch addr blockSize blockNr).capacity =
    min (blockNr % 2 ^ 16) (32 * (memPoolGetBitsSize blockNr % 2 ^ 8)) := by
  simp [capacity, memPoolInit]

theorem init_capacity_eq_iff :
    (memPoolInit arch addr blockSize blockNr).capacity = blockNr ↔ blockNr < 8128 := by
  rw [init_capacity, memPoolGetBitsSize]
  omega

theorem init_capacity_le : (memPoolInit arch addr blockSize blockNr).capacity ≤ blockNr := by
  rw [init_capacity]
  exact (min_le_left _ _).trans (Nat.mod_le _ _)

theorem init_fills_iff (hsize : blockSize % 2 ^ 8 ≠ 0) :
    Fills blockNr (memPoolInit arch addr blockSize blockNr) ↔ blockNr < 8128 := by
  have hused : (memPoolInit arch addr blockSize blockNr).used = 0 := rfl
  rw [fills_iff (init_wf hsize), hused, Nat.zero_add, ← init_capacity_eq_iff]
  exact ⟨fun hle => init_capacity_le.antisymm hle, fun heq => heq.ge⟩

end Init

end MemPool

end Awtk
