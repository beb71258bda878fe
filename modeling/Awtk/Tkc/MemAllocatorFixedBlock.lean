import Awtk.Lib.Chain
import Awtk.Tkc.Types

/-!
# The fixed block allocator

A model of `mem_allocator_fixed_block.c`.  Pools are addresses of regions that
`TKMEM` granted, and their fields are functions of the address.  A block is an
address inside its pool; `node` is the word at the start of every block, which
links the unused blocks.  `0` is the null pointer.

A field of a pool that is not allocated, an assertion that fails and a write
behind a region have no defined result.  A loop over the pools visits as many of
them as there are regions, and has no defined result when that is not enough.
-/

namespace Awtk

/-- Memory that `TKMEM` granted. -/
structure Region where
  addr : Nat
  bytes : Nat
  deriving DecidableEq, Repr

/-- Two regions have no byte in common. -/
def Region.Apart (r t : Region) : Prop := r.addr + r.bytes ≤ t.addr ∨ t.addr + t.bytes ≤ r.addr

/-- `TKMEM`: the answer to a request for some bytes while the regions are in use.  It
may fail, and what it grants is disjoint from all that is in use. -/
structure Tkmem where
  grant : List Region → Nat → Option Nat
  apart : ∀ {regions : List Region} {bytes a : Nat}, grant regions bytes = some a →
    a ≠ 0 ∧ ∀ r ∈ regions, Region.Apart ⟨a, bytes⟩ r

/-- `mem_allocator_fixed_block_t` with its pools. -/
structure FixedBlock where
  size : Nat
  pools : Nat
  regions : List Region
  next : Nat → Nat
  num : Nat → Nat
  usedNum : Nat → Nat
  unusedList : Nat → Nat
  used : Nat → Nat → Bool
  node : Nat → Nat

namespace FixedBlock

section

variable (arch : Arch)

/-! ## Sizes and addresses -/

/-- `MEM_ALLOCATOR_FIXED_BLOCK_SIZE`, a `size_t`. -/
def blockSize (size : Nat) : Nat :=
  (size + (arch.word - 1)) % 256 ^ arch.word / arch.word * arch.word

def memStartOffset : Nat := 2 * arch.word + 8

/-- The bytes of the header, the blocks and the infos. -/
def poolBytes (size num : Nat) : Nat := memStartOffset arch + blockSize arch size * num + num

/-- `MEM_ALLOCATOR_FIXED_BLOCK_POOL_SIZE`, a `size_t`, as the `uint32_t` that `TKMEM`
takes. -/
def poolSize (size num : Nat) : Nat := poolBytes arch size num % 256 ^ arch.word % 2 ^ 32

def nodeGet (f : FixedBlock) (pool index : Nat) : Nat :=
  pool + memStartOffset arch + blockSize arch f.size * index

/-- `MEM_ALLOCATOR_FIXED_BLOCK_GET_INDEX` of a node of the pool. -/
def nodeIndex (f : FixedBlock) (pool node : Nat) : Nat :=
  (node - nodeGet arch f pool 0) / blockSize arch f.size

end

/-! ## Memory -/

/-- The pool is allocated. -/
def Alive (f : FixedBlock) (pool : Nat) : Prop := pool ∈ f.regions.map Region.addr

instance (f : FixedBlock) : DecidablePred f.Alive :=
  fun pool => inferInstanceAs (Decidable (pool ∈ f.regions.map Region.addr))

def tkmemAlloc (f : FixedBlock) (tk : Tkmem) (bytes : Nat) : Option (Nat × FixedBlock) :=
  (tk.grant f.regions bytes).map fun a => (a, { f with regions := ⟨a, bytes⟩ :: f.regions })

def tkmemFree (f : FixedBlock) (pool : Nat) : FixedBlock :=
  { f with regions := f.regions.filter (·.addr ≠ pool) }

/-- `TKMEM_REALLOC`, which moves the header of the pool. -/
def tkmemRealloc (f : FixedBlock) (tk : Tkmem) (pool bytes : Nat) : Option (Nat × FixedBlock) :=
  let others := f.regions.filter (·.addr ≠ pool)
  (tk.grant others bytes).map fun a => (a, { f with
    regions := ⟨a, bytes⟩ :: others
    next := Function.update f.next a (f.next pool)
    num := Function.update f.num a (f.num pool)
    usedNum := Function.update f.usedNum a (f.usedNum pool)
    unusedList := Function.update f.unusedList a (f.unusedList pool)
    used := Function.update f.used a (f.used pool) })

/-! ## Loops over the pools -/

/-- The pools `MEM_ALLOCATOR_FIXED_BLOCK_POOLS_FOREACH` visits. -/
def foreach (f : FixedBlock) : Option (List Nat) :=
  Chain.walk f.next f.Alive f.regions.length f.pools

def poolIsFull (f : FixedBlock) (pool : Nat) : Bool := f.unusedList pool == 0

def poolIsEmpty (f : FixedBlock) (pool : Nat) : Bool := f.usedNum pool == 0

def isFull (f : FixedBlock) : Option Bool := f.foreach.map (·.all f.poolIsFull)

/-- `mem_allocator_fixed_block_num_type_t`. -/
inductive NumType where
  | block
  | pool

def fixedBlockNum (f : FixedBlock) (type : NumType) (onlyEmpty : Bool) : Option Nat :=
  f.foreach.map fun l =>
    (l.filter fun pool => !onlyEmpty || f.poolIsEmpty pool).foldl
      (fun ret pool => U32.add ret (match type with | .block => f.num pool | .pool => 1)) 0

/-! ## Links of the pools -/

def poolsPush (f : FixedBlock) (pool : Nat) : Option FixedBlock :=
  if pool = f.pools then none
  else some { f with next := Function.update f.next pool f.pools, pools := pool }

def poolsPop (f : FixedBlock) : FixedBlock :=
  if f.pools ≠ 0 then
    { f with pools := f.next f.pools, next := Function.update f.next f.pools 0 }
  else f

def poolLink (f : FixedBlock) (pool prev : Nat) : Option FixedBlock :=
  if prev = 0 then f.poolsPush pool
  else if f.Alive prev ∧ f.next prev ≠ pool then
    some { f with next := Function.update (Function.update f.next pool (f.next prev)) prev pool }
  else none

def poolUnlink (f : FixedBlock) (pool prev : Nat) : Option FixedBlock :=
  if f.pools = pool then some f.poolsPop
  else if prev ≠ 0 ∧ f.Alive prev then
    some { f with next := Function.update (Function.update f.next prev (f.next pool)) pool 0 }
  else none

def poolMoveToTop (f : FixedBlock) (pool prev : Nat) : Option FixedBlock :=
  if f.pools ≠ pool then
    if prev ≠ 0 ∧ f.Alive prev then
      some { f with
        next := Function.update (Function.update f.next prev (f.next pool)) pool f.pools
        pools := pool }
    else none
  else some f

/-! ## Blocks of a pool -/

/-- `info->used = b` for one block. -/
def setUsed (f : FixedBlock) (pool index : Nat) (b : Bool) : FixedBlock :=
  { f with used := Function.update f.used pool (Function.update (f.used pool) index b) }

section

variable (arch : Arch)

/-- `mem_allocator_fixed_block_pool_allocate` of a pool that is not full. -/
def poolAllocate (f : FixedBlock) (pool : Nat) : Option (Nat × FixedBlock) :=
  if f.poolIsFull pool then none
  else
    let ret := f.unusedList pool
    let usedNum := U32.add (f.usedNum pool) 1
    let index := nodeIndex arch f pool ret
    if usedNum ≤ f.num pool ∧ f.used pool index = false then
      some (ret, { f with
        unusedList := Function.update f.unusedList pool (f.node ret)
        usedNum := Function.update f.usedNum pool usedNum }.setUsed pool index true)
    else none

/-- `mem_allocator_fixed_block_pool_deallocate`, with `RET_OK`. -/
def poolDeallocate (f : FixedBlock) (pool node : Nat) : Option FixedBlock :=
  let index := nodeIndex arch f pool node
  if f.poolIsEmpty pool = false ∧ f.used pool index = true then
    some ({ f with
      usedNum := Function.update f.usedNum pool (f.usedNum pool - 1)
      node := Function.update f.node node (f.unusedList pool)
      unusedList := Function.update f.unusedList pool node }.setUsed pool index false)
  else none

/-- The loop of `mem_allocator_fixed_block_pool_init` over `n` blocks. -/
def linkNodes (f : FixedBlock) (pool : Nat) : Nat → Nat → Nat
  | 0 => f.node
  | n + 1 =>
    Function.update (f.linkNodes pool n) (nodeGet arch f pool n) (nodeGet arch f pool (n + 1))

/-- `mem_allocator_fixed_block_pool_init`, which writes every block and every info of
the pool. -/
def poolInit (f : FixedBlock) (pool : Nat) : Option FixedBlock :=
  let num := f.num pool
  if 0 < num ∧ ∃ r ∈ f.regions, r.addr = pool ∧ poolBytes arch f.size num ≤ r.bytes then
    some { f with
      usedNum := Function.update f.usedNum pool 0
      unusedList := Function.update f.unusedList pool (nodeGet arch f pool 0)
      node := Function.update (linkNodes arch f pool (num - 1)) (nodeGet arch f pool (num - 1)) 0
      used := Function.update f.used pool fun i => if i < num then false else f.used pool i }
  else none

/-- `mem_allocator_fixed_block_pool_create`: the pool, or NULL as the inner `none`. -/
def poolCreate (f : FixedBlock) (tk : Tkmem) (num : Nat) : Option (Option (Nat × FixedBlock)) :=
  if num = 0 then some none
  else
    match f.tkmemAlloc tk (poolSize arch f.size num) with
    | none => some none
    | some (pool, f) =>
      let f := { f with
        num := Function.update f.num pool num
        next := Function.update f.next pool 0 }
      (poolInit arch f pool).map fun f => some (pool, f)

/-! ## Merging -/

/-- The loop of `mem_allocator_fixed_block_pools_destroy` that keeps the pools in
use. -/
def destroyLoop (f : FixedBlock) : Nat → Nat → Nat → Option FixedBlock
  | 0, iter, _ => if iter = 0 then some f else none
  | n + 1, iter, prev =>
    if iter = 0 then some f
    else if f.Alive iter then
      let next := f.next iter
      if f.poolIsEmpty iter then
        (f.poolUnlink iter prev).bind fun f => (f.tkmemFree iter).destroyLoop n next prev
      else f.destroyLoop n next iter
    else none

/-- `mem_allocator_fixed_block_pools_destroy(allocator, TRUE)`. -/
def poolsDestroy (f : FixedBlock) : Option FixedBlock := f.destroyLoop f.regions.length f.pools 0

/-- The empty pool that is kept, the pool in front of it, and the last pool with
blocks of both kinds. -/
structure Choice where
  pool : Nat
  prevPool : Nat
  newPrevPool : Nat

/-- The loop of `mem_allocator_fixed_block_pools_merge`. -/
def chooseLoop (f : FixedBlock) : Nat → Choice → List Nat → Choice
  | _, c, [] => c
  | prev, c, iter :: l =>
    if f.poolIsEmpty iter then
      if c.pool = 0 ∨ f.num c.pool < f.num iter then
        f.chooseLoop iter { c with pool := iter, prevPool := prev } l
      else f.chooseLoop iter c l
    else if f.poolIsFull iter = false then f.chooseLoop iter { c with newPrevPool := iter } l
    else f.chooseLoop iter c l

/-- The second half of `mem_allocator_fixed_block_pools_merge`: the pool grows to
`num` blocks and may move. -/
def regrow (f : FixedBlock) (tk : Tkmem) (pool newPrevPool num : Nat) :
    Option (Ret × FixedBlock) :=
  if f.Alive pool then
    match f.tkmemRealloc tk pool (poolSize arch f.size num) with
    | none => some (.oom, f)
    | some (pool, f) =>
      let f := { f with num := Function.update f.num pool num }
      let linked :=
        if newPrevPool = 0 then some { f with pools := pool }
        else if f.Alive newPrevPool then
          some { f with next := Function.update f.next newPrevPool pool }
        else none
      linked.bind fun f => (poolInit arch f pool).map (.ok, ·)
  else none

def poolsMerge (f : FixedBlock) (tk : Tkmem) : Option (Ret × FixedBlock) := do
  let num ← f.fixedBlockNum .block true
  if num = 0 then return (.fail, f)
  let c := f.chooseLoop 0 ⟨0, 0, 0⟩ (← f.foreach)
  if c.pool = 0 then return (.fail, f)
  let f ← f.poolUnlink c.pool c.prevPool
  let f ← f.poolsDestroy
  let f ← f.poolLink c.pool c.newPrevPool
  regrow arch f tk c.pool c.newPrevPool num

/-! ## The allocator -/

/-- `mem_allocator_fixed_block_extend`.  The new size is 1.5 times the old one. -/
def extend (f : FixedBlock) (tk : Tkmem) : Option (Ret × FixedBlock) := do
  if ← f.isFull then
    let num ← f.fixedBlockNum .block false
    let extendNum := U32.add (U32.add (num / 2) num) 1
    match ← poolCreate arch f tk (U32.sub extendNum num) with
    | none => return (.oom, f)
    | some (pool, f) => return (.ok, ← f.poolsPush pool)
  else return (.ok, f)

/-- The first pool that is not full, and the pool in front of it. -/
def findNotFull (f : FixedBlock) : Nat → List Nat → Option (Nat × Nat)
  | _, [] => none
  | prev, pool :: l => if f.poolIsFull pool then f.findNotFull pool l else some (pool, prev)

/-- `mem_allocator_fixed_block_allocate`: the block, or NULL. -/
def allocate (f : FixedBlock) (tk : Tkmem) : Option (Nat × FixedBlock) := do
  let (ret, f) ← extend arch f tk
  if ret ≠ .ok then return (0, f)
  match f.findNotFull 0 (← f.foreach) with
  | none => return (0, f)
  | some (pool, prevPool) =>
    let (node, f) ← poolAllocate arch f pool
    if f.poolIsFull pool then return (node, f)
    return (node, ← f.poolMoveToTop pool prevPool)

/-- `mem_allocator_fixed_block_node_find`: the pool of a block, and the pool in front
of it. -/
def nodeFind (f : FixedBlock) (ptr : Nat) : Nat → List Nat → Option (Nat × Nat)
  | _, [] => none
  | prev, pool :: l =>
    if 0 < f.num pool ∧ nodeGet arch f pool 0 ≤ ptr ∧ ptr ≤ nodeGet arch f pool (f.num pool - 1) then
      if (ptr - nodeGet arch f pool 0) % blockSize arch f.size = 0 then some (pool, prev) else none
    else nodeFind f ptr pool l

def deallocate (f : FixedBlock) (tk : Tkmem) (ptr : Nat) : Option (Ret × FixedBlock) := do
  if ptr = 0 then return (.ok, f)
  match nodeFind arch f ptr 0 (← f.foreach) with
  | none => return (.notFound, f)
  | some (pool, prevPool) =>
    let f ← poolDeallocate arch f pool ptr
    if f.poolIsEmpty pool ∧ 1 < (← f.fixedBlockNum .pool true) then poolsMerge arch f tk
    else if f.poolIsFull f.pools then return (.ok, ← f.poolMoveToTop pool prevPool)
    else return (.ok, f)

/-- The loop of `mem_allocator_fixed_block_clear`. -/
def clearPools (f : FixedBlock) (l : List Nat) : FixedBlock :=
  { f with
    usedNum := fun pool => if pool ∈ l then 0 else f.usedNum pool
    unusedList := fun pool => if pool ∈ l then 0 else f.unusedList pool }

def clear (f : FixedBlock) (tk : Tkmem) : Option (Ret × FixedBlock) := do
  if f.pools = 0 then return (.ok, f)
  let f := f.clearPools (← f.foreach)
  if 1 < (← f.fixedBlockNum .pool false) then poolsMerge arch f tk
  else return (.ok, ← poolInit arch f f.pools)

def alloc (f : FixedBlock) (tk : Tkmem) (size : Nat) : Option (Nat × FixedBlock) :=
  if 0 < size ∧ size ≤ blockSize arch f.size then allocate arch f tk else some (0, f)

def realloc (f : FixedBlock) (tk : Tkmem) (ptr size : Nat) : Option (Nat × FixedBlock) :=
  if 0 < size ∧ size ≤ blockSize arch f.size then
    if ptr ≠ 0 then
      f.foreach.map fun l => if (nodeFind arch f ptr 0 l).isSome then (ptr, f) else (0, f)
    else alloc arch f tk size
  else some (0, f)

/-- `mem_allocator_fixed_block_create`: the allocator, or NULL as the inner `none`. -/
def create (tk : Tkmem) (size num : Nat) : Option (Option FixedBlock) :=
  if size = 0 then some none
  else
    let f : FixedBlock := {
      size, pools := 0, regions := [], next := fun _ => 0, num := fun _ => 0
      usedNum := fun _ => 0, unusedList := fun _ => 0, used := fun _ _ => false
      node := fun _ => 0 }
    if 0 < num then
      (poolCreate arch f tk num).map (·.map fun (pool, f) => { f with pools := pool })
    else some (some f)

end

end FixedBlock

end Awtk
