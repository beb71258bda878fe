import Awtk.Lib.Run
import Awtk.Tkc.MemAllocatorFixedBlockCalls

/-!
# Runs of the fixed block allocator

Clients free and reallocate live blocks only, and write inside their blocks.
`Sound` says what then holds after any calls.  Three things can break it, and
`Fits` excludes them: the size of a pool is handed to `TKMEM` as a `uint32_t`,
the block size is rounded up in a `size_t`, and `clear` drops the unused lists
before it asks for the pool it merges into.
-/

namespace Awtk.FixedBlock

open Chain Runs Function List Option

variable {arch : Arch} {n : Nat} {c : Client} {l : List Nat}

/-! ## Steps -/

/-- A call, with the answers of `TKMEM` during it, or a write of the client into the
first word of a block. -/
inductive Op where
  | alloc (size : Nat) (tk : Tkmem)
  | realloc (ptr size : Nat) (tk : Tkmem)
  | free (ptr : Nat) (tk : Tkmem)
  | clear (tk : Tkmem)
  | store (ptr value : Nat)

/-- The client gets a pointer in place of one it gave up.  For NULL and for the same
pointer nothing changes. -/
def Client.receive (c : Client) (given : Nat) : Nat × FixedBlock → Client
  | (ptr, f) =>
    if ptr = 0 ∨ ptr = given then { c with f }
    else {
      f
      live := ptr :: c.live.erase given
      stored := Function.update c.stored ptr (f.node ptr) }

section

variable (arch : Arch)

/-- One call. -/
def step (c : Client) : Op → Option Client
  | .alloc size tk => (alloc arch c.f tk size).map (c.receive 0)
  | .realloc ptr size tk => (realloc arch c.f tk ptr size).map (c.receive ptr)
  | .free ptr tk => (deallocate arch c.f tk ptr).map fun (_, f) =>
      { c with f, live := c.live.erase ptr }
  | .clear tk => (clear arch c.f tk).map fun (_, f) => { c with f, live := [] }
  | .store ptr value => some { c with
      f := { c.f with node := Function.update c.f.node ptr value }
      stored := Function.update c.stored ptr value }

/-- Only live pointers are passed and written through. -/
def Allowed (c : Client) : Op → Prop
  | .alloc .. | .clear _ => True
  | .realloc ptr .. | .free ptr _ => ptr = 0 ∨ ptr ∈ c.live
  | .store ptr _ => ptr ∈ c.live

/-- Where a request makes the allocator extend, the bytes of the new pool do not
wrap. -/
def FitsAlloc (f : FixedBlock) (size : Nat) : Prop :=
  0 < size ∧ size ≤ blockSize arch f.size → (∀ r ∈ f.regions, f.poolIsFull r.addr = true) →
    poolBytes arch f.size (f.blocks / 2 + 1) < 2 ^ 32

/-- The bytes of a pool that is asked for do not wrap, and `clear` gets the pool it
merges into. -/
def Fits (c : Client) : Op → Prop
  | .alloc size _ => FitsAlloc arch c.f size
  | .realloc ptr size _ => ptr = 0 → FitsAlloc arch c.f size
  | .free ptr _ => ptr ≠ 0 → poolBytes arch c.f.size (c.f.freedBlocks ptr) < 2 ^ 32
  | .clear tk => 1 < c.f.regions.length → poolBytes arch c.f.size c.f.blocks < 2 ^ 32 ∧
      (tk.grant [] (poolBytes arch c.f.size c.f.blocks)).isSome
  | .store .. => True

instance (c : Client) (op : Op) : Decidable (Allowed c op) := by
  cases op <;> unfold Allowed <;> infer_instance

instance (f : FixedBlock) (size : Nat) : Decidable (FitsAlloc arch f size) := by
  unfold FitsAlloc
  infer_instance

instance (c : Client) (op : Op) : Decidable (Fits arch c op) := by
  cases op <;> unfold Fits <;> infer_instance

/-- The allocator is in order. -/
structure Sound (c : Client) : Prop where
  /-- No two live blocks are the same or overlap. -/
  apart : c.live.Nodup ∧ c.live.Pairwise fun x y =>
    Region.Apart ⟨x, blockSize arch c.f.size⟩ ⟨y, blockSize arch c.f.size⟩
  /-- Live blocks lie in memory that `TKMEM` granted. -/
  inside : ∀ x ∈ c.live, ∃ r ∈ c.f.regions,
    r.addr ≤ x ∧ x + blockSize arch c.f.size ≤ r.addr + r.bytes
  /-- Live blocks have what their client wrote. -/
  kept : ∀ x ∈ c.live, c.f.node x = c.stored x
  /-- The blocks flagged used are the live ones, they are counted, the unused list has
  all the other ones once, and at most one pool is empty. -/
  pools : ∃ l, c.f.foreach = some l ∧
    (∀ x, x ∈ c.live ↔
      ∃ pool ∈ l, ∃ i < c.f.num pool, c.f.used pool i = true ∧ x = nodeGet arch c.f pool i) ∧
    (∀ pool ∈ l, c.f.usedNum pool = (List.range (c.f.num pool)).countP (c.f.used pool)) ∧
    (∀ pool ∈ l, ∃ ul, Path c.f.node (c.f.unusedList pool) ul 0 ∧ ul.Nodup ∧
      ∀ x, x ∈ ul ↔ ∃ i < c.f.num pool, c.f.used pool i = false ∧ x = nodeGet arch c.f pool i) ∧
    (l.filter c.f.poolIsEmpty).length ≤ 1

end

/-- The invariant says that the allocator is in order. -/
theorem Inv.sound (h : Inv arch 1 c l) : Sound arch c where
  apart := by
    refine ⟨h.live_nodup, h.live_nodup.imp_of_mem fun {x y} hx hy hne => ?_⟩
    obtain ⟨a, ha, i, hi, _, rfl⟩ := (h.live_iff x).mp hx
    obtain ⟨b, hb, j, hj, _, rfl⟩ := (h.live_iff y).mp hy
    refine h.links.nodes_apart ha hb hi hj ?_
    rintro ⟨rfl, rfl⟩
    exact hne rfl
  inside x hx := by
    obtain ⟨a, ha, i, hi, _, rfl⟩ := (h.live_iff x).mp hx
    obtain ⟨r, hr, rfl⟩ := h.links.region ha
    refine ⟨r, hr, ?_, h.links.node_le hr hi⟩
    unfold nodeGet
    omega
  kept := h.kept
  pools := by
    refine ⟨l, h.links.foreach, h.live_iff, fun a ha => (h.pool a ha).count, fun a ha => ?_,
      h.empty_le⟩
    obtain ⟨ul, hpath, hmem⟩ := (h.pool a ha).unused
    exact ⟨ul, hpath, hpath.nodup, hmem⟩

/-! ## What a step keeps -/

/-- A write into a live block. -/
theorem Inv.store (h : Inv arch n c l) {ptr : Nat} (hlive : ptr ∈ c.live) (value : Nat) :
    Inv arch n { c with
      f := { c.f with node := Function.update c.f.node ptr value }
      stored := Function.update c.stored ptr value } l where
  links := ⟨h.links.1, h.links.2, h.links.3, h.links.4, h.links.5, h.links.6, h.links.7⟩
  pool a ha := by
    obtain ⟨ul, hpath, hmem⟩ := (h.pool a ha).unused
    refine ⟨(h.pool a ha).count, ul, hpath.congr fun x hx => update_of_ne ?_ _ _, hmem⟩
    -- the unused list has no live block
    rintro rfl
    obtain ⟨i, hi, hfree, heq⟩ := (hmem x).mp hx
    obtain ⟨b, hb, j, hj, hused, heq'⟩ := (h.live_iff x).mp hlive
    obtain ⟨rfl, rfl⟩ := h.links.node_inj ha hb hi hj (heq.symm.trans heq')
    rw [hfree] at hused
    cases hused
  empty_le := h.empty_le
  live_nodup := h.live_nodup
  live_iff := h.live_iff
  kept x hx := by
    by_cases hxp : x = ptr
    · subst hxp
      exact (update_self x value c.f.node).trans
        (update_self x value c.stored).symm
    · exact (update_of_ne hxp _ _).trans
        ((h.kept x hx).trans (update_of_ne hxp _ _).symm)

theorem Inv.zero_notMem (h : Inv arch n c l) : 0 ∉ c.live := by
  intro hmem
  obtain ⟨a, _, i, _, _, heq⟩ := (h.live_iff 0).mp hmem
  exact nodeGet_ne_zero c.f a i heq.symm

theorem Inv.alloc (h : Inv arch 1 c l) {size : Nat} (tk : Tkmem)
    (hfits : FitsAlloc arch c.f size) :
    ∃ c' l', (alloc arch c.f tk size).map (c.receive 0) = some c' ∧ Inv arch 1 c' l' := by
  unfold FixedBlock.alloc
  by_cases hsize : 0 < size ∧ size ≤ blockSize arch c.f.size
  · have hbytes : (∀ a ∈ l, c.f.poolIsFull a = true) →
        poolBytes arch c.f.size ((l.map c.f.num).sum / 2 + 1) < 2 ^ 32 := by
      intro hfull
      rw [← h.links.blocks_eq]
      exact hfits hsize fun r hr => hfull _ (h.links.alive.mem_iff.mp (List.mem_map_of_mem hr))
    obtain ⟨x, f', l', hres, _, hcases⟩ := h.allocate (by omega) tk hbytes
    rw [if_pos hsize, hres]
    refine ⟨_, l', rfl, ?_⟩
    dsimp only [Client.receive]
    cases hcases with
    | inl hnull =>
      rw [if_pos (Or.inl hnull.1)]
      exact hnull.2
    | inr hsome =>
      rw [if_neg (not_or.mpr ⟨hsome.1, hsome.1⟩), erase_of_not_mem h.zero_notMem]
      exact hsome.2
  · rw [if_neg hsize]
    exact ⟨_, l, rfl, by rw [Client.receive, if_pos (.inl rfl)]; exact h⟩

/-- A live block stays where it is. -/
theorem Inv.realloc (h : Inv arch 1 c l) {ptr : Nat} (hlive : ptr ∈ c.live) (size : Nat)
    (tk : Tkmem) :
    ∃ x, realloc arch c.f tk ptr size = some (x, c.f) ∧ (x = 0 ∨ x = ptr) := by
  unfold FixedBlock.realloc
  by_cases hsize : 0 < size ∧ size ≤ blockSize arch c.f.size
  · have hptr : ptr ≠ 0 := fun heq => h.zero_notMem (heq ▸ hlive)
    obtain ⟨pool, hp, i, hi, _, rfl⟩ := (h.live_iff ptr).mp hlive
    obtain ⟨a, b, _, hfind⟩ := nodeFind_eq h.links hi l [] rfl hp
    rw [getLastD_nil] at hfind
    rw [if_pos hsize, if_pos hptr, h.links.foreach, map_some, hfind]
    exact ⟨_, rfl, .inr rfl⟩
  · rw [if_neg hsize]
    exact ⟨0, rfl, .inl rfl⟩

/-- One step. -/
theorem Inv.step (h : Inv arch 1 c l) {op : Op} (hallowed : Allowed c op)
    (hfits : Fits arch c op) :
    ∃ c' l', step arch c op = some c' ∧ Inv arch 1 c' l' := by
  cases op with
  | alloc size tk => exact h.alloc tk hfits
  | realloc ptr size tk =>
    by_cases hptr : ptr = 0
    · subst hptr
      obtain ⟨c', l', hres, h'⟩ := h.alloc tk (hfits rfl)
      refine ⟨c', l', ?_, h'⟩
      rw [FixedBlock.step, FixedBlock.realloc]
      by_cases hsize : 0 < size ∧ size ≤ blockSize arch c.f.size
      · rw [if_pos hsize, if_neg (not_not.mpr rfl), hres]
      · rw [if_neg hsize]
        rw [FixedBlock.alloc, if_neg hsize] at hres
        exact hres
    · obtain ⟨x, hres, hx⟩ := h.realloc (hallowed.resolve_left hptr) size tk
      refine ⟨c, l, ?_, h⟩
      rw [FixedBlock.step, hres, map_some, Client.receive, if_pos hx]
  | free ptr tk =>
    by_cases hptr : ptr = 0
    · subst hptr
      refine ⟨c, l, ?_, h⟩
      rw [FixedBlock.step, FixedBlock.deallocate, if_pos rfl]
      exact congrArg some (by rw [erase_of_not_mem h.zero_notMem])
    · obtain ⟨ret, f', l', hres, _, h'⟩ := h.deallocate tk (hallowed.resolve_left hptr)
        (hfits hptr)
      exact ⟨_, l', by rw [FixedBlock.step, hres]; rfl, h'⟩
  | clear tk =>
    obtain ⟨ret, f', l', hres, _, h'⟩ := h.clear tk (fun hmany => (hfits hmany).1)
      fun hmany => (hfits hmany).2
    exact ⟨_, l', by rw [FixedBlock.step, hres]; rfl, h'⟩
  | store ptr value => exact ⟨_, l, rfl, h.store hallowed value⟩

/-! ## Runs -/

/-- A client of a new allocator. -/
def newClient (f : FixedBlock) : Client := { f, live := [], stored := fun _ => 0 }

theorem inv_nil {f : FixedBlock} (hpools : f.pools = 0) (hregions : f.regions = []) :
    Inv arch 1 (newClient f) [] where
  links := {
    chain := hpools
    alive := by rw [newClient, hregions]; exact .nil
    apart := by rw [newClient, hregions]; exact .nil
    bytes := by rw [newClient, hregions]; exact fun r hr => absurd hr not_mem_nil
    num_pos := fun a ha => absurd ha not_mem_nil
    block_pos := fun a ha => absurd ha not_mem_nil
    total := Nat.two_pow_pos 32 }
  pool a ha := absurd ha not_mem_nil
  empty_le := Nat.zero_le _
  live_nodup := .nil
  live_iff x := by simp [newClient]
  kept x hx := absurd hx not_mem_nil

theorem inv_inited {f : FixedBlock} {r : Region} (hpools : f.pools = r.addr) (h0 : r.addr ≠ 0)
    (hregions : f.regions = [r]) (hnext : f.next r.addr = 0) (hnum : 0 < f.num r.addr)
    (hpos : 0 < blockSize arch f.size) (hbytes : poolBytes arch f.size (f.num r.addr) ≤ r.bytes)
    (htotal : f.num r.addr < 2 ^ 32) :
    Inv arch 1 (newClient (f.inited arch r.addr)) [r.addr] := by
  obtain ⟨hok, hfree⟩ := poolOk_inited f hpos hnum
  have hlinks : Links arch f [r.addr] := {
    chain := ⟨hpools, h0, hnext⟩
    alive := by rw [hregions]; exact .refl _
    apart := by rw [hregions]; exact pairwise_singleton _ _
    bytes := by rw [hregions]; exact fun t ht => mem_singleton.mp ht ▸ hbytes
    num_pos := fun a ha => mem_singleton.mp ha ▸ hnum
    block_pos := fun _ _ => hpos
    total := htotal }
  refine ⟨hlinks.inited r.addr, fun a ha => mem_singleton.mp ha ▸ hok,
    (filter_sublist).length_le, .nil, fun x => ⟨fun hx => absurd hx not_mem_nil, ?_⟩,
    fun x hx => absurd hx not_mem_nil⟩
  rintro ⟨a, ha, i, hi, hused, _⟩
  cases mem_singleton.mp ha
  have hunused : (f.inited arch r.addr).used r.addr i = false := hfree i hi
  exact absurd (hunused.symm.trans hused) Bool.false_ne_true

/-- A new allocator has no pool, or one with all blocks unused. -/
theorem create_inv (tk : Tkmem) {size num : Nat}
    (hfits : 0 < num → 0 < blockSize arch size ∧ poolBytes arch size num < 2 ^ 32) :
    ∃ o, create arch tk size num = some o ∧ ∀ f ∈ o, ∃ l, Inv arch 1 (newClient f) l := by
  unfold create
  by_cases hsize : size = 0
  · rw [if_pos hsize]
    exact ⟨none, rfl, fun f hf => nomatch hf⟩
  · rw [if_neg hsize]
    dsimp only
    by_cases hnum : 0 < num
    · obtain ⟨hpos, hbytes⟩ := hfits hnum
      rw [if_pos hnum, poolCreate, if_neg (by omega), poolSize_eq hbytes, tkmemAlloc]
      dsimp only
      cases hgrant : tk.grant [] (poolBytes arch size num) with
      | none => exact ⟨none, rfl, fun f hf => nomatch hf⟩
      | some y =>
        rw [map_some]
        dsimp only
        let g (pools : Nat) : FixedBlock := {
          size, pools, regions := [⟨y, poolBytes arch size num⟩]
          next := Function.update (fun _ => 0) y 0, num := Function.update (fun _ => 0) y num
          usedNum := fun _ => 0, unusedList := fun _ => 0, used := fun _ _ => false
          node := fun _ => 0 }
        have hnumy (pools : Nat) : (g pools).num y = num := by
          show Function.update (fun _ => 0) y num y = num
          rw [update_self]
        have hnexty : (g y).next y = 0 := by
          show Function.update (fun _ => 0) y 0 y = 0
          rw [update_self]
        have hinit : poolInit arch (g 0) y = some ((g 0).inited arch y) := by
          refine poolInit_eq (g 0) (by rw [hnumy]; exact hnum) ⟨_, mem_singleton_self _, rfl, ?_⟩
          rw [hnumy]
        have hlink : linkNodes arch (g 0) y = linkNodes arch (g y) y :=
          funext fun n => linkNodes_congr (g y) (g 0) rfl rfl y n
        have hpools : { (g 0).inited arch y with pools := y } = (g y).inited arch y := by
          unfold inited
          rw [hlink]
          rfl
        have hle : num ≤ poolBytes arch size num := by
          unfold poolBytes
          omega
        refine ⟨some ((g y).inited arch y), ?_, fun f hf => ⟨[y], ?_⟩⟩
        · rw [← hpools]
          exact congrArg (fun o => (o.map fun f => some (y, f)).map
            (Option.map fun (pool, f) => { f with pools := pool })) hinit
        · cases hf
          exact inv_inited (f := g y) (r := ⟨y, poolBytes arch size num⟩) rfl (tk.apart hgrant).1 rfl
            hnexty (by rw [hnumy]; exact hnum) hpos (by rw [hnumy]) (by rw [hnumy]; omega)
    · rw [if_neg hnum]
      refine ⟨_, rfl, fun f hf => ?_⟩
      cases hf
      exact ⟨[], inv_nil rfl rfl⟩

/-- Every state of the run is in order. -/
def AlwaysSound (arch : Arch) (f : FixedBlock) (ops : List Op) : Prop :=
  ∀ pre, pre <+: ops → ∃ c, run (step arch) (newClient f) pre = some c ∧ Sound arch c

/-- Creating an allocator goes well, and where all steps are allowed and fit every
state of a run is in order. -/
theorem sound_of_run (arch : Arch) (tk : Tkmem) (size num : Nat)
    (hfits : 0 < num → 0 < blockSize arch size ∧ poolBytes arch size num < 2 ^ 32) :
    ∃ o, create arch tk size num = some o ∧ ∀ f ∈ o, ∀ ops,
      Meets (step arch) (fun c op => Allowed c op ∧ Fits arch c op) (newClient f) ops →
      AlwaysSound arch f ops := by
  obtain ⟨o, hcreate, hnew⟩ := create_inv tk hfits
  refine ⟨o, hcreate, fun f hf ops hmeets pre hpre => ?_⟩
  obtain ⟨c, hrun, l, h⟩ := run_progress (I := fun c => ∃ l, Inv arch 1 c l)
    (fun c op ⟨l, h⟩ hop => by
      obtain ⟨c', l', hstep, h'⟩ := h.step hop.1 hop.2
      exact ⟨c', hstep, l', h'⟩) (hnew f hf) (hmeets.initial hpre)
  exact ⟨c, hrun, h.sound⟩

/-- The end of the memory in use. -/
def top (regions : List Region) : Nat := regions.foldr (fun r a => max (r.addr + r.bytes) a) 4096

theorem top_pos : ∀ regions : List Region, 0 < top regions
  | [] => by decide
  | _ :: regions => (top_pos regions).trans_le (Nat.le_max_right ..)

theorem le_top : ∀ {regions : List Region}, ∀ r ∈ regions, r.addr + r.bytes ≤ top regions
  | [], _, hr => absurd hr not_mem_nil
  | t :: regions, r, hr => by
    cases mem_cons.mp hr with
    | inl heq => exact heq ▸ Nat.le_max_left ..
    | inr hmem => exact (le_top r hmem).trans (Nat.le_max_right ..)

/-- A `TKMEM` that grants up to `limit` bytes behind the regions in use. -/
def bump (limit : Nat) : Tkmem where
  grant regions bytes := if bytes ≤ limit then some (top regions) else none
  apart := by
    intro regions bytes a h
    split at h
    · rw [some.injEq] at h
      subst h
      exact ⟨(top_pos regions).ne', fun r hr => .inr (le_top r hr)⟩
    · cases h

theorem sound_of_run_short : ∃ f, create .bits64 (bump 64) 8 1 = some (some f) ∧
    AlwaysSound .bits64 f [.alloc 8 (bump 64), .store 4120 7, .alloc 6 (bump 64),
      .realloc 4120 3 (bump 0), .clear (bump 64)] := by
  obtain ⟨o, hcreate, h⟩ := sound_of_run .bits64 (bump 64) 8 1 (by decide)
  obtain ⟨f, hf⟩ : ∃ f, create .bits64 (bump 64) 8 1 = some (some f) := ⟨_, rfl⟩
  rw [hcreate, some.injEq] at hf
  subst hf
  refine ⟨f, hcreate, h f rfl _ ?_⟩
  have hmeets : ((create .bits64 (bump 64) 8 1).bind id).all fun f =>
      decide (Meets (step .bits64) (fun c op => Allowed c op ∧ Fits .bits64 c op) (newClient f)
        [.alloc 8 (bump 64), .store 4120 7, .alloc 6 (bump 64), .realloc 4120 3 (bump 0),
          .clear (bump 64)]) := by
    decide +kernel
  rw [hcreate] at hmeets
  exact of_decide_eq_true hmeets

/-- Two pools of one block are in use when the allocator is cleared and `TKMEM` denies
the merged pool.  One pool is left, with a block that is flagged used and not counted. -/
theorem not_sound_clear : ∃ f, create .bits64 (bump 64) 8 0 = some (some f) ∧
    Meets (step .bits64) Allowed (newClient f)
      [.alloc 8 (bump 64), .alloc 8 (bump 64), .clear (bump 40)] ∧
    ¬ AlwaysSound .bits64 f [.alloc 8 (bump 64), .alloc 8 (bump 64), .clear (bump 40)] := by
  refine ⟨_, rfl, by decide +kernel, fun h => ?_⟩
  obtain ⟨c, hrun, hsound⟩ := h _ (prefix_refl _)
  obtain ⟨l, hforeach, _, hcount, _⟩ := hsound.pools
  have hgot := congrArg (Option.map fun c : Client =>
    (c.f.foreach, c.f.usedNum 4129, (List.range (c.f.num 4129)).countP (c.f.used 4129))) hrun
  rw [map_some, hforeach] at hgot
  have hend : (some l, c.f.usedNum 4129, (List.range (c.f.num 4129)).countP (c.f.used 4129)) =
      (some [4129], 0, 1) := some.inj (hgot.symm.trans (by decide +kernel))
  obtain ⟨hl, hused, hflags⟩ := by simpa only [Prod.mk.injEq, some.injEq] using hend
  have := hcount 4129 (by rw [hl]; exact mem_singleton_self _)
  omega

end Awtk.FixedBlock
