import Mathlib
import Awtk.Tkc.MemPool

/-!
# The pool allocator

Small blocks come from five pools and all others from another allocator, which the pools are made
from too.  A block that goes back is looked up by its address in the pools one after the other.
The other allocator is any one that gives regions that are live once.
-/

namespace Awtk

open Function

/-- The bytes of the memory. -/
abbrev Mem := Nat → UInt8

/-- `memset` to zero. -/
def Mem.zero (mem : Mem) (addr size : Nat) : Mem :=
  fun a => if addr ≤ a ∧ a < addr + size then 0 else mem a

/-- `memcpy`. -/
def Mem.copy (mem : Mem) (dst src size : Nat) : Mem :=
  fun a => if dst ≤ a ∧ a < dst + size then mem (src + (a - dst)) else mem a

/-! ## The allocator below -/

/-- The functions of a `mem_allocator_t` with states of type `τ`.  The address `NULL` is `none`. -/
structure ImplAllocator (τ : Type*) where
  alloc : τ → Mem → Nat → τ × Mem × Option Nat
  realloc : τ → Mem → Nat → Nat → τ × Mem × Option Nat
  free : τ → Mem → Nat → τ × Mem

/-- The sizes of the regions that are live, by their addresses. -/
abbrev LiveMap := Nat → Option Nat

namespace LiveMap

open Function (update)

/-- One more region is live. -/
def add (live : LiveMap) (p n : Nat) : LiveMap := update live p (some n)

/-- A region is not live any more. -/
def drop (live : LiveMap) (p : Nat) : LiveMap := update live p none

@[simp] theorem add_self (live : LiveMap) (p n : Nat) : live.add p n p = some n :=
  update_self _ _ _

@[simp] theorem drop_self (live : LiveMap) (p : Nat) : live.drop p p = none :=
  update_self _ _ _

theorem add_of_ne {live : LiveMap} {p q : Nat} (h : q ≠ p) (n : Nat) : live.add p n q = live q :=
  update_of_ne h _ _

theorem drop_of_ne {live : LiveMap} {p q : Nat} (h : q ≠ p) : live.drop p q = live q :=
  update_of_ne h _ _

/-- The bytes of all live regions are the same. -/
def Keeps (live : LiveMap) (mem mem' : Mem) : Prop :=
  ∀ p k, live p = some k → ∀ i < k, mem' (p + i) = mem (p + i)

/-- No two live regions overlap.  An empty region has an address of its own too. -/
def Apart (live : LiveMap) : Prop :=
  ∀ p q k l, live p = some k → live q = some l → p ≠ q → p + max 1 k ≤ q ∨ q + max 1 l ≤ p

end LiveMap

/-- An allocator gives regions that do not overlap the live ones, and keeps the bytes of the live
ones.  One that has no memory gives `NULL`, and nothing changes. -/
structure ImplAllocator.Lawful {τ : Type*} (A : ImplAllocator τ) (live : τ → LiveMap) : Prop where
  apart : ∀ t, (live t).Apart
  alloc_some : ∀ {t mem n t' mem' p}, A.alloc t mem n = (t', mem', some p) →
    p ≠ 0 ∧ live t p = none ∧ live t' = (live t).add p n ∧ (live t).Keeps mem mem'
  alloc_none : ∀ {t mem n t' mem'}, A.alloc t mem n = (t', mem', none) →
    live t' = live t ∧ (live t).Keeps mem mem'
  realloc_some : ∀ {t mem p n k t' mem' q}, live t p = some k →
    A.realloc t mem p n = (t', mem', some q) →
    q ≠ 0 ∧ (live t).drop p q = none ∧ live t' = ((live t).drop p).add q n ∧
      ((live t).drop p).Keeps mem mem' ∧ ∀ i < min k n, mem' (q + i) = mem (p + i)
  realloc_none : ∀ {t mem p n k t' mem'}, live t p = some k →
    A.realloc t mem p n = (t', mem', none) → live t' = live t ∧ (live t).Keeps mem mem'
  free : ∀ {t mem p k t' mem'}, live t p = some k → A.free t mem p = (t', mem') →
    live t' = (live t).drop p ∧ ((live t).drop p).Keeps mem mem'

/-! ## The functions -/

/-- `mem_allocator_pool_t`, with the state of the allocator below and the memory. -/
structure MemAllocatorPool (τ : Type*) where
  impl : τ
  mem : Mem
  pools : List (Option MemPool)

namespace MemAllocatorPool

variable {τ : Type*} (A : ImplAllocator τ)

/-- The loop of `mem_allocator_pool_alloc`: the index of a pool and an address in it, if the first
pool of a size that matches is not full.  A pool that is `NULL` is an error. -/
def allocFromPools (size : Nat) :
    List (Option MemPool) → Option (Option (Nat × Nat) × List (Option MemPool))
  | [] => some (none, [])
  | none :: _ => none
  | some p :: pools =>
    if memPoolMatchSize p size then
      match memPoolGet p with
      | (addr, p) => some (addr.map (Prod.mk 0), some p :: pools)
    else
      (allocFromPools size pools).map
        (Prod.map (Option.map (Prod.map (· + 1) id)) (some p :: ·))

/-- `mem_allocator_pool_alloc`: an address, and the index of the pool that it is from. -/
def alloc (s : MemAllocatorPool τ) (size : Nat) :
    Option (MemAllocatorPool τ × Option (Nat × Option Nat)) :=
  match allocFromPools size s.pools with
  | none => none
  | some (some (i, addr), pools) => some ({ s with pools := pools }, some (addr, some i))
  | some (none, pools) =>
    let (impl, mem, addr) := A.alloc s.impl s.mem size
    some (⟨impl, mem, pools⟩, addr.map fun addr => (addr, none))

/-- The loops that look for the pool of an address. -/
def findPool (ptr : Nat) : List (Option MemPool) → Option (Option Nat)
  | [] => some none
  | none :: _ => none
  | some p :: pools =>
    if (memPoolGetIndex p ptr).isSome then some (some 0)
    else (findPool ptr pools).map (Option.map (· + 1))

/-- `mem_pool_put` to one of the pools. -/
def put (s : MemAllocatorPool τ) (i ptr : Nat) : Option (MemAllocatorPool τ) :=
  match s.pools[i]? with
  | some (some p) =>
    (memPoolPut p ptr).map fun (_, p) => { s with pools := s.pools.set i (some p) }
  | _ => none

/-- `mem_allocator_pool_realloc`: an address, and the index of the pool that it is from. -/
def realloc (s : MemAllocatorPool τ) (ptr size : Nat) :
    Option (MemAllocatorPool τ × Option (Nat × Option Nat)) :=
  if ptr = 0 then s.alloc A size
  else
    match findPool ptr s.pools with
    | none => none
    | some none =>
      let (impl, mem, addr) := A.realloc s.impl s.mem ptr size
      some (⟨impl, mem, s.pools⟩, addr.map fun addr => (addr, none))
    | some (some i) =>
      match s.pools[i]? with
      | some (some p) =>
        if memPoolMatchSize p size then some (s, some (ptr, some i))
        else
          match s.alloc A size with
          | none => none
          | some (s, none) => some (s, none)
          | some (s, some (addr, home)) =>
            (put { s with mem := s.mem.copy addr ptr p.blockSize } i ptr).map fun s =>
              (s, some (addr, home))
      | _ => none

def free (s : MemAllocatorPool τ) (ptr : Nat) : Option (MemAllocatorPool τ) :=
  if ptr = 0 then some s
  else
    match findPool ptr s.pools with
    | none => none
    | some (some i) => s.put i ptr
    | some none =>
      let (impl, mem) := A.free s.impl s.mem ptr
      some ⟨impl, mem, s.pools⟩

def memPoolCreate (arch : Arch) (t : τ) (mem : Mem) (blockSize blockNr : Nat) :
    τ × Mem × Option MemPool :=
  let size := memPoolGetMinSize arch blockSize blockNr
  match A.alloc t mem size with
  | (t, mem, some addr) => (t, mem.zero addr size, some (memPoolInit arch addr blockSize blockNr))
  | (t, mem, none) => (t, mem, none)

/-- The loop of `mem_allocator_pool_init`. -/
def createPools (arch : Arch) : List (Nat × Nat) → τ → Mem → MemAllocatorPool τ
  | [], t, mem => ⟨t, mem, []⟩
  | (blockSize, blockNr) :: rest, t, mem =>
    let (t, mem, p) := memPoolCreate A arch t mem blockSize blockNr
    let s := createPools arch rest t mem
    { s with pools := p :: s.pools }

/-- The sizes of the blocks of the pools and their numbers. -/
def sizes (pool8Nr pool16Nr pool32Nr pool48Nr pool64Nr : Nat) : List (Nat × Nat) :=
  [(8, max 32 pool8Nr), (16, max 32 pool16Nr), (32, max 32 pool32Nr), (48, max 32 pool48Nr),
    (64, max 32 pool64Nr)]

def init (arch : Arch) (t : τ) (mem : Mem)
    (pool8Nr pool16Nr pool32Nr pool48Nr pool64Nr : Nat) : MemAllocatorPool τ :=
  createPools A arch (sizes pool8Nr pool16Nr pool32Nr pool48Nr pool64Nr) t mem

/-! ## Runs -/

/-- A block that was handed out: its address, the size that was asked for, and the index of the
pool that it is from. -/
structure Block where
  ptr : Nat
  size : Nat
  home : Option Nat
  deriving DecidableEq, Repr

/-- The allocator and the blocks that its user has. -/
structure Client (τ : Type*) where
  pool : MemAllocatorPool τ
  live : List Block

/-- The calls, and a write to a block. -/
inductive Action where
  | alloc (size : Nat)
  | realloc (ptr size : Nat)
  | free (ptr : Nat)
  | write (addr : Nat) (v : UInt8)

namespace Client

/-- The blocks at other addresses. -/
def others (c : Client τ) (ptr : Nat) : List Block := c.live.filter fun b => b.ptr ≠ ptr

def step (c : Client τ) : Action → Option (Client τ)
  | .alloc size =>
    (c.pool.alloc A size).map fun
      | (s, some (addr, home)) => ⟨s, ⟨addr, size, home⟩ :: c.live⟩
      | (s, none) => ⟨s, c.live⟩
  | .realloc ptr size =>
    (c.pool.realloc A ptr size).map fun
      | (s, some (addr, home)) => ⟨s, ⟨addr, size, home⟩ :: c.others ptr⟩
      | (s, none) => ⟨s, c.live⟩
  | .free ptr => (c.pool.free A ptr).map fun s => ⟨s, c.others ptr⟩
  | .write addr v => some { c with pool := { c.pool with mem := Function.update c.pool.mem addr v } }

/-- The user gives back live blocks or `NULL`, and writes to live blocks. -/
def Legal (c : Client τ) : Action → Prop
  | .alloc _ => True
  | .realloc ptr _ => ptr = 0 ∨ ∃ b ∈ c.live, b.ptr = ptr
  | .free ptr => ptr = 0 ∨ ∃ b ∈ c.live, b.ptr = ptr
  | .write addr _ => ∃ b ∈ c.live, b.ptr ≤ addr ∧ addr < b.ptr + b.size

end Client

end MemAllocatorPool

end Awtk
