import Mathlib
import Awtk.Tkc.MemAllocatorFixedBlockPools

/-!
# Relinking and merging pools

The four ways the pools are relinked, each at a position `l₁ ++ pool :: l₂` of the
list; the pool in front is then the last one of `l₁`.  A merge unlinks the empty
pool it keeps, destroys the other empty ones, links the kept one again and lets
it grow; `Links.poolsMerge` puts these together.
-/

namespace Awtk.FixedBlock

open Chain Function List Option

variable {arch : Arch} {f : FixedBlock} {l l₁ l₂ : List Nat} {pool : Nat}

/-! ## Links -/

/-- The allocator with other links between its pools. -/
abbrev relinked (f : FixedBlock) (next : Nat → Nat) (pools : Nat) : FixedBlock :=
  { f with next, pools }

theorem PoolOk.relinked {other : Nat} (h : PoolOk arch f other) (next : Nat → Nat) (pools : Nat) :
    PoolOk arch (f.relinked next pools) other :=
  h.congr rfl rfl rfl rfl rfl fun _ _ => rfl

theorem Links.relinked (h : Links arch f l) {l' : List Nat} {next : Nat → Nat} {pools : Nat}
    (hperm : l'.Perm l) (hpath : Path next pools l' 0) :
    Links arch (f.relinked next pools) l' where
  chain := hpath
  alive := h.alive.trans hperm.symm
  apart := h.apart
  bytes := h.bytes
  num_pos a ha := h.num_pos a (hperm.mem_iff.mp ha)
  block_pos a ha := h.block_pos a (hperm.mem_iff.mp ha)
  total := (hperm.map f.num).sum_eq ▸ h.total

/-- Taking a pool out of the list. -/
theorem unlinked (hpath : Path f.next f.pools (l₁ ++ pool :: l₂) 0)
    (halive : ∀ a ∈ l₁, f.Alive a) :
    ∃ next pools, f.poolUnlink pool (l₁.getLastD 0) = some (f.relinked next pools) ∧
      Path next pools (l₁ ++ l₂) 0 := by
  have hnodup := hpath.nodup
  have hnext := hpath.next_mid
  unfold poolUnlink
  rcases eq_nil_or_concat l₁ with rfl | ⟨l, prev, rfl⟩
  · have hhead : f.pools = pool := hpath.1
    have h0 : f.pools ≠ 0 := hhead ▸ hpath.2.1
    rw [if_pos hhead, poolsPop, if_pos h0]
    refine ⟨_, _, rfl, ?_⟩
    rw [nil_append, nodup_cons] at hnodup
    refine Path.spliceHead [pool] [] hpath (fun x hx => ?_) ?_
    · refine update_of_ne (fun heq => hnodup.1 ?_) _ _
      rw [← hhead, ← heq]
      exact hx
    · rw [hhead]
      exact hnext
  · rw [concat_eq_append, append_assoc] at hpath hnodup
    have hne : f.pools ≠ pool := by
      intro heq
      have hpath' : Path f.next f.pools ((l ++ [prev]) ++ pool :: l₂) 0 := by
        rw [append_assoc]
        exact hpath
      have := hpath'.head_eq_iff.mp heq
      simp at this
    have hprev : prev ≠ 0 ∧ f.Alive prev :=
      ⟨hpath.ne_zero prev (by simp), halive prev (by simp)⟩
    rw [concat_eq_append, getLastD_concat, if_neg hne, if_pos hprev]
    refine ⟨_, _, rfl, ?_⟩
    rw [append_assoc]
    simp only [nodup_append, nodup_cons, mem_cons, singleton_append] at hnodup
    refine Path.splice [pool] [] hpath (fun x hx => ?_) ?_
    · have hx : x ≠ pool ∧ x ≠ prev := by grind
      rw [update_of_ne hx.1, update_of_ne hx.2]
    · have hne' : prev ≠ pool := by grind
      rw [update_of_ne hne', update_self]
      exact hnext

/-- Moving a pool to the front. -/
theorem Links.poolMoveToTop (h : Links arch f (l₁ ++ pool :: l₂)) :
    ∃ next pools, f.poolMoveToTop pool (l₁.getLastD 0) = some (f.relinked next pools) ∧
      Links arch (f.relinked next pools) (pool :: (l₁ ++ l₂)) := by
  have hpath := h.chain
  have hnodup := hpath.nodup
  have hnext := hpath.next_mid
  unfold FixedBlock.poolMoveToTop
  rcases eq_nil_or_concat l₁ with rfl | ⟨l, prev, rfl⟩
  · rw [if_neg (not_not.mpr hpath.1)]
    exact ⟨f.next, f.pools, rfl, h⟩
  · rw [concat_eq_append, append_assoc] at hpath hnodup
    have hne : f.pools ≠ pool := by
      intro heq
      have hpath' : Path f.next f.pools ((l ++ [prev]) ++ pool :: l₂) 0 := by
        rw [append_assoc]
        exact hpath
      have := hpath'.head_eq_iff.mp heq
      simp at this
    have hprev : prev ≠ 0 ∧ f.Alive prev :=
      ⟨hpath.ne_zero prev (by simp), h.alive_of_mem (by simp)⟩
    rw [concat_eq_append, getLastD_concat, if_pos hne, if_pos hprev]
    refine ⟨_, _, rfl, h.relinked ?_ ?_⟩
    · rw [concat_eq_append]
      exact perm_middle.symm
    · simp only [nodup_append, nodup_cons, mem_cons, singleton_append] at hnodup
      refine ⟨rfl, hpath.ne_zero pool (by simp), ?_⟩
      rw [update_self, append_assoc]
      refine Path.splice [pool] [] hpath (fun x hx => ?_) ?_
      · have hx : x ≠ pool ∧ x ≠ prev := by grind
        rw [update_of_ne hx.1, update_of_ne hx.2]
      · have hne' : prev ≠ pool := by grind
        rw [update_of_ne hne', update_self]
        exact hnext

/-- Linking a pool behind another one, or at the front. -/
theorem linked (hpath : Path f.next f.pools (l₁ ++ l₂) 0) (halive : ∀ a ∈ l₁, f.Alive a)
    (h0 : pool ≠ 0) (hnotin : pool ∉ l₁ ++ l₂) :
    ∃ next pools, f.poolLink pool (l₁.getLastD 0) = some (f.relinked next pools) ∧
      Path next pools (l₁ ++ pool :: l₂) 0 := by
  have hnodup := hpath.nodup
  unfold poolLink
  rcases eq_nil_or_concat l₁ with rfl | ⟨l, prev, rfl⟩
  · have hne : pool ≠ f.pools := by
      intro heq
      rw [heq, hpath.head] at h0 hnotin
      cases l₂ with
      | nil => exact h0 rfl
      | cons x l₂ => exact hnotin (by simp)
    rw [getLastD_nil, if_pos rfl, poolsPush, if_neg hne]
    refine ⟨_, _, rfl, rfl, h0, ?_⟩
    rw [update_self]
    refine hpath.congr fun x hx => update_of_ne (fun heq => hnotin ?_) _ _
    rw [← heq]
    exact hx
  · rw [concat_eq_append] at hnotin hpath hnodup
    rw [append_assoc] at hpath
    have hnext : f.next prev = l₂.headD 0 := hpath.next_mid
    have hprev : prev ≠ 0 := hpath.ne_zero prev (by simp)
    have hne : f.next prev ≠ pool := by
      rw [hnext]
      intro heq
      cases l₂ with
      | nil => exact h0 heq.symm
      | cons x l₂ =>
        obtain rfl : x = pool := heq
        exact hnotin (by simp)
    rw [concat_eq_append, getLastD_concat, if_neg hprev,
      if_pos ⟨halive prev (by simp), hne⟩]
    refine ⟨_, _, rfl, ?_⟩
    simp only [nodup_append, nodup_cons, mem_append, mem_cons,
      append_assoc, not_mem_nil, or_false, not_or] at hnodup hnotin
    rw [append_assoc]
    refine Path.splice [] [pool] hpath (fun x hx => ?_) ?_
    · have hx : x ≠ pool ∧ x ≠ prev := by grind
      rw [update_of_ne hx.2, update_of_ne hx.1]
    · have hne' : pool ≠ prev := by grind
      rw [update_self]
      refine ⟨rfl, h0, ?_⟩
      rw [update_of_ne hne', update_self]
      exact hnext

/-- Another node in the place of a pool, where the links beside it are the same. -/
theorem replaced {next : Nat → Nat} {pools pool' : Nat}
    (hpath : Path f.next f.pools (l₁ ++ pool :: l₂) 0) (h0 : pool' ≠ 0)
    (hnotin : pool' ∉ l₁ ++ l₂)
    (hnext : next = Function.update f.next pool' (f.next pool) ∧ pools = pool' ∧ l₁ = [] ∨
      next = Function.update (Function.update f.next pool' (f.next pool)) (l₁.getLastD 0) pool' ∧
        pools = f.pools ∧ l₁ ≠ []) : Path next pools (l₁ ++ pool' :: l₂) 0 := by
  have hnodup := hpath.nodup
  have hbehind := hpath.next_mid
  rcases eq_nil_or_concat l₁ with rfl | ⟨l, prev, rfl⟩
  · obtain ⟨rfl, rfl, _⟩ : next = Function.update f.next pool' (f.next pool) ∧ pools = pool' ∧
        ([] : List Nat) = [] := by
      cases hnext with
      | inl h => exact h
      | inr h => exact absurd rfl h.2.2
    refine Path.spliceHead [pool] [pools] hpath (fun x hx => ?_) ⟨rfl, h0, ?_⟩
    · refine update_of_ne (fun heq => hnotin ?_) _ _
      rw [← heq]
      exact hx
    · rw [update_self]
      exact hbehind
  · rw [concat_eq_append] at hnotin hpath hnodup hnext
    rw [append_assoc] at hpath
    obtain ⟨rfl, rfl, _⟩ : next = Function.update (Function.update f.next pool' (f.next pool)) prev
        pool' ∧ pools = f.pools ∧ l ++ [prev] ≠ [] := by
      cases hnext with
      | inl h => exact absurd h.2.2 (by simp)
      | inr h =>
        rw [getLastD_concat] at h
        exact h
    simp only [nodup_append, nodup_cons, mem_append, mem_cons,
      append_assoc, not_mem_nil, or_false, not_or] at hnodup hnotin
    rw [concat_eq_append, append_assoc]
    refine Path.splice [pool] [pool'] hpath (fun x hx => ?_) ?_
    · have hx : x ≠ pool' ∧ x ≠ prev := by grind
      rw [update_of_ne hx.2, update_of_ne hx.1]
    · have hne' : pool' ≠ prev := by grind
      rw [update_self]
      refine ⟨rfl, h0, ?_⟩
      rw [update_of_ne hne', update_self]
      exact hbehind

/-! ## Loops of the merge -/

/-- The pool is in use. -/
abbrev inUse (f : FixedBlock) (pool : Nat) : Bool := !f.poolIsEmpty pool

/-- The loop of `mem_allocator_fixed_block_pools_destroy`.  The pools `l₁` are behind
the loop, and the last one of them is the pool in front. -/
theorem destroyLoop_eq : ∀ (l₂ l₁ : List Nat) {f : FixedBlock} {n : Nat},
    Path f.next f.pools (l₁ ++ l₂) 0 → (∀ a ∈ l₁ ++ l₂, f.Alive a) → l₂.length ≤ n →
    ∃ next pools, f.destroyLoop n (l₂.headD 0) (l₁.getLastD 0) =
        some { f with
          next, pools
          regions := f.regions.filter fun r => !(decide (r.addr ∈ l₂) && f.poolIsEmpty r.addr) } ∧
      Path next pools (l₁ ++ l₂.filter f.inUse) 0
  | [], l₁, f, n, hpath, _, _ => by
    refine ⟨f.next, f.pools, ?_, hpath⟩
    have hall : (f.regions.filter fun r => !(decide (r.addr ∈ ([] : List Nat)) &&
        f.poolIsEmpty r.addr)) = f.regions := by
      rw [filter_eq_self]
      intro r _
      simp
    rw [hall]
    cases n <;> exact if_pos rfl
  | iter :: l₂, l₁, f, n + 1, hpath, halive, hn => by
    have h0 : iter ≠ 0 := hpath.ne_zero iter (by simp)
    have hnodup := hpath.nodup
    simp only [nodup_append, nodup_cons, mem_cons] at hnodup
    have hlen : l₂.length ≤ n := Nat.le_of_succ_le_succ hn
    have hnext : f.next iter = l₂.headD 0 := hpath.next_mid
    rw [headD_cons, destroyLoop, if_neg h0, if_pos (halive iter (by simp)), hnext]
    dsimp only
    cases hempty : f.poolIsEmpty iter with
    | true =>
      obtain ⟨next, pools, hunlink, hpath₁⟩ := unlinked hpath
        (fun a ha => halive a (mem_append_left _ ha))
      let f₁ : FixedBlock := (f.relinked next pools).tkmemFree iter
      have halive₁ : ∀ a ∈ l₁ ++ l₂, f₁.Alive a := by
        intro a ha
        have hne : a ≠ iter := by
          have := mem_append.mp ha
          grind
        have hold : f.Alive a := halive a (by
          rw [mem_append, mem_cons]
          rw [mem_append] at ha
          tauto)
        obtain ⟨r, hr, rfl⟩ := List.mem_map.mp hold
        exact List.mem_map.mpr ⟨r, mem_filter.mpr ⟨hr, by simpa using hne⟩, rfl⟩
      obtain ⟨next', pools', hloop, hpath'⟩ := destroyLoop_eq l₂ l₁ (f := f₁) hpath₁ halive₁ hlen
      refine ⟨next', pools', ?_, ?_⟩
      · rw [if_pos rfl, hunlink, bind_some]
        refine hloop.trans ?_
        congr 2
        show (f.regions.filter _).filter _ = _
        rw [List.filter_filter]
        refine filter_congr fun r _ => ?_
        by_cases hr : r.addr = iter
        · simp [hr, hempty]
        · simp [hr]
          rfl
      · rw [filter_cons_of_neg (by simp [hempty])]
        exact hpath'
    | false =>
      have hpath₁ : Path f.next f.pools ((l₁ ++ [iter]) ++ l₂) 0 := by
        rw [append_assoc]
        exact hpath
      obtain ⟨next', pools', hloop, hpath'⟩ := destroyLoop_eq l₂ (l₁ ++ [iter]) hpath₁
        (fun a ha => halive a (by rw [append_assoc] at ha; exact ha)) hlen
      rw [getLastD_concat] at hloop
      refine ⟨next', pools', ?_, ?_⟩
      · rw [if_neg Bool.false_ne_true]
        refine hloop.trans ?_
        congr 2
        refine filter_congr fun r _ => ?_
        by_cases hr : r.addr = iter
        · simp [hr, hempty]
        · simp [hr]
      · rw [filter_cons_of_pos (by simp [hempty])]
        rw [append_assoc] at hpath'
        exact hpath'

/-- What the loop of `mem_allocator_fixed_block_pools_merge` knows of the pools
behind it. -/
structure Chosen (f : FixedBlock) (l : List Nat) (c : Choice) : Prop where
  pool : c.pool = 0 ∨ ∃ l₁ l₂, l = l₁ ++ c.pool :: l₂ ∧ c.prevPool = l₁.getLastD 0 ∧
    f.poolIsEmpty c.pool = true
  newPrev : c.newPrevPool = 0 ∨ (c.newPrevPool ∈ l ∧ f.poolIsEmpty c.newPrevPool = false)

theorem Chosen.append {c : Choice} (h : Chosen f l c) (iter : Nat) : Chosen f (l ++ [iter]) c where
  pool := by
    refine h.pool.imp_right ?_
    rintro ⟨l₁, l₂, hl, hprev, hempty⟩
    exact ⟨l₁, l₂ ++ [iter], by rw [hl, append_assoc]; rfl, hprev, hempty⟩
  newPrev := h.newPrev.imp_right fun hn => ⟨mem_append_left _ hn.1, hn.2⟩

/-- The loop chooses an empty pool where there is one. -/
theorem chooseLoop_spec : ∀ (l₂ l₁ : List Nat) {c : Choice}, Chosen f l₁ c → (∀ a ∈ l₂, a ≠ 0) →
    Chosen f (l₁ ++ l₂) (f.chooseLoop (l₁.getLastD 0) c l₂) ∧
      ((c.pool ≠ 0 ∨ ∃ a ∈ l₂, f.poolIsEmpty a = true) →
        (f.chooseLoop (l₁.getLastD 0) c l₂).pool ≠ 0)
  | [], l₁, c, h, _ => by
    rw [append_nil]
    exact ⟨h, fun hor => hor.elim id fun ⟨a, ha, _⟩ => absurd ha not_mem_nil⟩
  | iter :: l₂, l₁, c, h, h0 => by
    have hstep (c' : Choice) (h' : Chosen f (l₁ ++ [iter]) c') :
        Chosen f (l₁ ++ iter :: l₂) (f.chooseLoop iter c' l₂) ∧
          ((c'.pool ≠ 0 ∨ ∃ a ∈ l₂, f.poolIsEmpty a = true) →
            (f.chooseLoop iter c' l₂).pool ≠ 0) := by
      have hrest := chooseLoop_spec l₂ _ h' fun a ha => h0 a (mem_cons_of_mem iter ha)
      rw [getLastD_concat, append_assoc] at hrest
      exact hrest
    rw [chooseLoop]
    cases hempty : f.poolIsEmpty iter with
    | true =>
      rw [if_pos rfl]
      split_ifs with hbetter
      · obtain ⟨hchosen, hfound⟩ := hstep { c with pool := iter, prevPool := l₁.getLastD 0 }
          ⟨.inr ⟨l₁, [], rfl, rfl, hempty⟩, (h.append iter).newPrev⟩
        exact ⟨hchosen, fun _ => hfound (.inl (h0 iter mem_cons_self))⟩
      · obtain ⟨hchosen, hfound⟩ := hstep c (h.append iter)
        exact ⟨hchosen, fun _ => hfound (.inl fun heq => hbetter (.inl heq))⟩
    | false =>
      rw [if_neg Bool.false_ne_true]
      have hmore {c' : Choice} (hsame : c'.pool = c.pool)
          (hfound : (c'.pool ≠ 0 ∨ ∃ a ∈ l₂, f.poolIsEmpty a = true) →
            (f.chooseLoop iter c' l₂).pool ≠ 0) :
          (c.pool ≠ 0 ∨ ∃ a ∈ iter :: l₂, f.poolIsEmpty a = true) →
            (f.chooseLoop iter c' l₂).pool ≠ 0 := by
        rintro (hne | ⟨a, ha, hae⟩)
        · exact hfound (.inl (hsame ▸ hne))
        · cases mem_cons.mp ha with
          | inl heq =>
            rw [heq, hempty] at hae
            cases hae
          | inr hmem => exact hfound (.inr ⟨a, hmem, hae⟩)
      split_ifs with hroom
      · obtain ⟨hchosen, hfound⟩ := hstep { c with newPrevPool := iter }
          ⟨(h.append iter).pool, .inr ⟨by simp, hempty⟩⟩
        exact ⟨hchosen, hmore rfl hfound⟩
      · obtain ⟨hchosen, hfound⟩ := hstep c (h.append iter)
        exact ⟨hchosen, hmore rfl hfound⟩

/-! ## Growing a pool -/

/-- The fields of a pool and the words of its blocks are the same. -/
structure SamePool (arch : Arch) (f f' : FixedBlock) (pool : Nat) : Prop where
  size_eq : f'.size = f.size
  num_eq : f'.num pool = f.num pool
  usedNum_eq : f'.usedNum pool = f.usedNum pool
  unusedList_eq : f'.unusedList pool = f.unusedList pool
  used_eq : f'.used pool = f.used pool
  node_eq : ∀ i < f.num pool, f'.node (nodeGet arch f pool i) = f.node (nodeGet arch f pool i)

theorem PoolOk.same {f' : FixedBlock} (h : PoolOk arch f pool) (hs : SamePool arch f f' pool) :
    PoolOk arch f' pool :=
  h.congr hs.size_eq hs.num_eq hs.usedNum_eq hs.unusedList_eq hs.used_eq hs.node_eq

theorem poolBytes_pos (arch : Arch) (size num : Nat) : 0 < poolBytes arch size num := by
  unfold poolBytes memStartOffset
  omega

theorem poolSize_eq {size num : Nat} (h : poolBytes arch size num < 2 ^ 32) :
    poolSize arch size num = poolBytes arch size num := by
  have hword : 2 ^ 32 ≤ 256 ^ arch.word := by cases arch <;> decide
  rw [poolSize, Nat.mod_eq_of_lt (h.trans_le hword), Nat.mod_eq_of_lt h]

theorem grant_ne {regions : List Region} {y bytes : Nat} {tk : Tkmem}
    (h : tk.grant regions bytes = some y) (hpos : 0 < bytes) {r : Region} (hr : r ∈ regions)
    (hrpos : 0 < r.bytes) : r.addr ≠ y := by
  rintro rfl
  have hapart := (tk.apart h).2 r hr
  unfold Region.Apart at hapart
  dsimp only at hapart
  omega

theorem Links.inited (h : Links arch f l) (pool : Nat) : Links arch (f.inited arch pool) l where
  chain := h.chain
  alive := h.alive
  apart := h.apart
  bytes := h.bytes
  num_pos := h.num_pos
  block_pos := h.block_pos
  total := h.total

theorem samePool_inited (h : Links arch f l) {other : Nat} (hp : pool ∈ l) (ho : other ∈ l)
    (hne : other ≠ pool) : SamePool arch f (f.inited arch pool) other where
  size_eq := rfl
  num_eq := rfl
  usedNum_eq := update_of_ne hne _ _
  unusedList_eq := update_of_ne hne _ _
  used_eq := update_of_ne hne _ _
  node_eq _ hi := inited_node_other f (h.num_pos pool hp) fun _ hj heq =>
    hne (h.node_inj ho hp hi hj heq).1

/-- The kept pool grows to `num` blocks, or stays as it is. -/
theorem Links.regrow (h : Links arch f (l₁ ++ pool :: l₂)) (tk : Tkmem) {num : Nat}
    (hnum : 0 < num) (hbytes : poolBytes arch f.size num < 2 ^ 32)
    (htotal : num + ((l₁ ++ l₂).map f.num).sum < 2 ^ 32) :
    ∃ ret f' kept, regrow arch f tk pool (l₁.getLastD 0) num = some (ret, f') ∧
      f'.size = f.size ∧ Links arch f' (l₁ ++ kept :: l₂) ∧
      (∀ a ∈ l₁ ++ l₂, SamePool arch f f' a) ∧
      ((ret = .ok ∧ PoolOk arch f' kept ∧ ∀ i < f'.num kept, f'.used kept i = false) ∨
        (f' = f ∧ kept = pool ∧ ∃ regions, (regions.map Region.addr).Perm (l₁ ++ l₂) ∧
          tk.grant regions (poolBytes arch f.size num) = none)) := by
  have hpath := h.chain
  have hnodup := hpath.nodup
  have hpool : pool ∈ l₁ ++ pool :: l₂ := by simp
  have hblock := h.block_pos pool hpool
  have hnotin : pool ∉ l₁ ++ l₂ := by
    simp only [nodup_append, nodup_cons, mem_cons] at hnodup
    rw [mem_append]
    grind
  have hothers : ((f.regions.filter fun r => r.addr ≠ pool).map Region.addr).Perm (l₁ ++ l₂) := by
    have hmap : (f.regions.filter fun r => r.addr ≠ pool).map Region.addr =
        (f.regions.map Region.addr).filter fun a => a ≠ pool := by
      rw [List.filter_map]
      rfl
    rw [hmap]
    refine (h.alive.filter _).trans (Perm.of_eq ?_)
    rw [filter_append, filter_cons_of_neg (by simp), ← filter_append,
      filter_eq_self]
    intro a ha
    have : a ≠ pool := fun heq => hnotin (heq ▸ ha)
    simpa using this
  unfold FixedBlock.regrow
  rw [if_pos (h.alive_of_mem hpool), tkmemRealloc, poolSize_eq hbytes]
  dsimp only
  cases hgrant : tk.grant (f.regions.filter fun r => r.addr ≠ pool)
      (poolBytes arch f.size num) with
  | none =>
    rw [map_none]
    exact ⟨_, f, pool, rfl, rfl, h, fun a _ => ⟨rfl, rfl, rfl, rfl, rfl, fun _ _ => rfl⟩,
      .inr ⟨rfl, rfl, _, hothers, hgrant⟩⟩
  | some y =>
    rw [map_some]
    dsimp only
    have hy0 := (tk.apart hgrant).1
    have hyne : ∀ r ∈ f.regions.filter (fun r => r.addr ≠ pool), r.addr ≠ y := fun r hr =>
      grant_ne hgrant (poolBytes_pos ..) hr ((poolBytes_pos ..).trans_le
        (h.bytes r (mem_of_mem_filter hr)))
    have hynotin : y ∉ l₁ ++ l₂ := by
      intro hy
      obtain ⟨r, hr, hry⟩ := List.mem_map.mp (hothers.mem_iff.mpr hy)
      exact hyne r hr hry
    -- the allocator with the new links, before the blocks are linked again
    let g (next : Nat → Nat) (pools : Nat) : FixedBlock := { f with
      next, pools
      regions := ⟨y, poolBytes arch f.size num⟩ :: f.regions.filter fun r => r.addr ≠ pool
      num := Function.update (Function.update f.num y (f.num pool)) y num
      usedNum := Function.update f.usedNum y (f.usedNum pool)
      unusedList := Function.update f.unusedList y (f.unusedList pool)
      used := Function.update f.used y (f.used pool) }
    have hnumy (next pools) : (g next pools).num y = num := update_self ..
    have hnumother (next pools) {a : Nat} (ha : a ≠ y) : (g next pools).num a = f.num a := by
      show Function.update (Function.update f.num y (f.num pool)) y num a = _
      rw [update_of_ne ha, update_of_ne ha]
    have hfinish : ∀ next pools, Path next pools (l₁ ++ y :: l₂) 0 →
        ∃ ret f' kept, (poolInit arch (g next pools) y).map (Ret.ok, ·) = some (ret, f') ∧
          f'.size = f.size ∧ Links arch f' (l₁ ++ kept :: l₂) ∧
          (∀ a ∈ l₁ ++ l₂, SamePool arch f f' a) ∧
          ((ret = .ok ∧ PoolOk arch f' kept ∧ ∀ i < f'.num kept, f'.used kept i = false) ∨
            (f' = f ∧ kept = pool ∧ ∃ regions, (regions.map Region.addr).Perm (l₁ ++ l₂) ∧
              tk.grant regions (poolBytes arch f.size num) = none)) := by
      intro next pools hpath'
      have hlinks : Links arch (g next pools) (l₁ ++ y :: l₂) := {
        chain := hpath'
        alive := (List.Perm.cons y hothers).trans perm_middle.symm
        apart := pairwise_cons.mpr ⟨(tk.apart hgrant).2, h.apart.filter _⟩
        bytes := by
          intro r hr
          cases mem_cons.mp hr with
          | inl heq => rw [heq, hnumy]
          | inr hmem =>
            rw [hnumother next pools (hyne r hmem)]
            exact h.bytes r (mem_of_mem_filter hmem)
        num_pos := by
          intro a ha
          by_cases hay : a = y
          · rw [hay, hnumy]
            exact hnum
          · rw [hnumother next pools hay]
            refine h.num_pos a ?_
            rw [mem_append, mem_cons] at ha ⊢
            tauto
        block_pos := fun _ _ => hblock
        total := by
          have hsame : (l₁ ++ l₂).map (g next pools).num = (l₁ ++ l₂).map f.num :=
            map_congr_left fun a ha =>
              hnumother next pools fun heq => hynotin (heq ▸ ha)
          have hperm : (l₁ ++ y :: l₂).Perm (y :: (l₁ ++ l₂)) := perm_middle
          have hsum := (hperm.map (g next pools).num).sum_eq
          rw [map_cons, sum_cons, hsame, hnumy] at hsum
          omega }
      obtain ⟨hok, hfree⟩ := poolOk_inited (g next pools) hblock ((hnumy next pools).symm ▸ hnum)
      have hy : y ∈ l₁ ++ y :: l₂ := by simp
      refine ⟨_, (g next pools).inited arch y, y, ?_, rfl, hlinks.inited y, fun a ha => ?_,
        .inl ⟨rfl, hok, hfree⟩⟩
      · rw [poolInit_eq (g next pools) ((hnumy next pools).symm ▸ hnum)
          ⟨_, mem_cons_self, rfl, by rw [hnumy]⟩]
        rfl
      · have hay : a ≠ y := fun heq => hynotin (heq ▸ ha)
        have ha' : a ∈ l₁ ++ y :: l₂ := by
          rw [mem_append, mem_cons]
          rw [mem_append] at ha
          tauto
        have hs := samePool_inited hlinks hy ha' hay
        refine ⟨rfl, hnumother next pools hay, hs.usedNum_eq.trans (update_of_ne hay _ _),
          hs.unusedList_eq.trans (update_of_ne hay _ _),
          hs.used_eq.trans (update_of_ne hay _ _), fun i hi => ?_⟩
        exact hs.node_eq i ((hnumother next pools hay).symm ▸ hi)
    by_cases hprev : l₁.getLastD 0 = 0
    · have hnil : l₁ = [] := by
        rcases eq_nil_or_concat l₁ with hnil | ⟨l, prev, rfl⟩
        · exact hnil
        · rw [concat_eq_append, getLastD_concat] at hprev
          exact absurd hprev (hpath.ne_zero prev (by simp))
      rw [if_pos hprev, bind_some]
      exact hfinish _ _ (replaced hpath hy0 hynotin (.inl ⟨rfl, rfl, hnil⟩))
    · have hne : l₁ ≠ [] := by
        rintro rfl
        exact hprev rfl
      have hmem : l₁.getLastD 0 ∈ l₁ := by
        rw [getLastD_eq_getLast?, getLast?_eq_some_getLast hne]
        exact getLast_mem hne
      have halive : l₁.getLastD 0 ∈
          (y :: (f.regions.filter fun r => r.addr ≠ pool).map Region.addr) :=
        mem_cons_of_mem _ (hothers.mem_iff.mpr (mem_append_left _ hmem))
      rw [if_neg hprev]
      split
      · rw [bind_some]
        exact hfinish _ _ (replaced hpath hy0 hynotin (.inr ⟨rfl, rfl, hne⟩))
      · next hdead => exact absurd halive hdead

/-! ## The merge -/

theorem Links.blockNum_empty (h : Links arch f l) :
    f.fixedBlockNum .block true = some ((l.filter f.poolIsEmpty).map f.num).sum :=
  h.blockNum true

theorem split_at_prev {m : List Nat} {prev : Nat} (h : prev = 0 ∨ prev ∈ m) :
    ∃ m₁ m₂, m = m₁ ++ m₂ ∧ prev = m₁.getLastD 0 := by
  cases h with
  | inl h0 => exact ⟨[], m, rfl, h0⟩
  | inr hmem =>
    obtain ⟨a, b, rfl⟩ := append_of_mem hmem
    exact ⟨a ++ [prev], b, by rw [append_assoc]; rfl, getLastD_concat.symm⟩

/-- A merge keeps the pools in use and one empty pool, which has the blocks of all
empty pools if `TKMEM` grants it. -/
theorem Links.poolsMerge (h : Links arch f l) (hempty : ∃ a ∈ l, f.poolIsEmpty a = true)
    (tk : Tkmem)
    (hbytes : poolBytes arch f.size ((l.filter f.poolIsEmpty).map f.num).sum < 2 ^ 32) :
    ∃ ret f' l' kept, poolsMerge arch f tk = some (ret, f') ∧ f'.size = f.size ∧
      Links arch f' l' ∧ l'.Perm (kept :: l.filter f.inUse) ∧
      (∀ a ∈ l.filter f.inUse, SamePool arch f f' a) ∧
      ((ret = .ok ∧ PoolOk arch f' kept ∧ ∀ i < f'.num kept, f'.used kept i = false) ∨
        (kept ∈ l ∧ f.poolIsEmpty kept = true ∧ SamePool arch f f' kept ∧
          ∃ regions, (regions.map Region.addr).Perm (l.filter f.inUse) ∧
            tk.grant regions (poolBytes arch f.size ((l.filter f.poolIsEmpty).map f.num).sum) =
              none)) := by
  obtain ⟨num, hnum⟩ : ∃ num, num = ((l.filter f.poolIsEmpty).map f.num).sum := ⟨_, rfl⟩
  rw [← hnum] at hbytes ⊢
  have hnumpos : 0 < num := by
    obtain ⟨a, ha, hae⟩ := hempty
    have hle := num_le_total (f := f) (mem_filter.mpr ⟨ha, hae⟩)
    have hpos := h.num_pos a ha
    omega
  have h0 : ∀ a ∈ l, a ≠ 0 := h.chain.ne_zero
  obtain ⟨hchosen, hfound⟩ := chooseLoop_spec l [] (c := ⟨0, 0, 0⟩)
    ⟨.inl rfl, .inl rfl⟩ h0
  obtain ⟨c, hc⟩ : ∃ c, c = f.chooseLoop 0 ⟨0, 0, 0⟩ l := ⟨_, rfl⟩
  rw [nil_append, getLastD_nil, ← hc] at hchosen
  rw [getLastD_nil, ← hc] at hfound
  have hpool0 : c.pool ≠ 0 := hfound (.inr hempty)
  obtain ⟨l₁, l₂, hl, hprev, hpoolEmpty⟩ := hchosen.pool.resolve_left hpool0
  subst hl
  have hnodup := h.chain.nodup
  have hnotin : c.pool ∉ l₁ ++ l₂ := by
    simp only [nodup_append, nodup_cons, mem_cons] at hnodup
    rw [mem_append]
    grind
  have hsub : ∀ a ∈ l₁ ++ l₂, a ∈ l₁ ++ c.pool :: l₂ := by
    intro a ha
    rw [mem_append, mem_cons]
    rw [mem_append] at ha
    tauto
  -- the pool that is kept leaves the list
  obtain ⟨next₁, pools₁, hunlink, hpath₁⟩ := unlinked h.chain
    (fun a ha => h.alive_of_mem (mem_append_left _ ha))
  -- the other empty pools are destroyed
  have hlen : (l₁ ++ l₂).length ≤ f.regions.length := by
    have := h.alive.length_eq
    rw [length_map, length_append, length_cons] at this
    rw [length_append]
    omega
  obtain ⟨next₂, pools₂, hdestroy, hpath₂⟩ := destroyLoop_eq (l₁ ++ l₂) []
    (f := f.relinked next₁ pools₁) hpath₁ (fun a ha => h.alive_of_mem (hsub a ha)) hlen
  have hhead : (l₁ ++ l₂).headD 0 = pools₁ := hpath₁.head.symm
  rw [hhead, getLastD_nil] at hdestroy
  have hinUse : (l₁ ++ c.pool :: l₂).filter f.inUse = (l₁ ++ l₂).filter f.inUse := by
    rw [filter_append, filter_cons_of_neg (by simp [hpoolEmpty]), ← filter_append]
  rw [hinUse]
  obtain ⟨f₂, hf₂⟩ : ∃ f₂ : FixedBlock, f₂ = { f with
      next := next₂, pools := pools₂
      regions := f.regions.filter fun r =>
        !(decide (r.addr ∈ l₁ ++ l₂) && f.poolIsEmpty r.addr) } := ⟨_, rfl⟩
  have halive₂ : (f₂.regions.map Region.addr).Perm (c.pool :: (l₁ ++ l₂).filter f.inUse) := by
    have hmap : f₂.regions.map Region.addr = (f.regions.map Region.addr).filter fun a =>
        !(decide (a ∈ l₁ ++ l₂) && f.poolIsEmpty a) := by
      rw [hf₂, List.filter_map]
      rfl
    have hkeep : (l₁ ++ l₂).filter (fun a => !(decide (a ∈ l₁ ++ l₂) && f.poolIsEmpty a)) =
        (l₁ ++ l₂).filter f.inUse :=
      filter_congr fun a ha => by simp only [ha, decide_true, Bool.true_and]
    rw [hmap]
    refine (h.alive.filter _).trans ((perm_middle.filter _).trans (Perm.of_eq ?_))
    rw [filter_cons_of_pos (by simp only [hnotin, decide_false, Bool.false_and, Bool.not_false]),
      hkeep]
  -- the kept pool goes behind the last pool with room
  have hnew : c.newPrevPool = 0 ∨ c.newPrevPool ∈ (l₁ ++ l₂).filter f.inUse := by
    refine hchosen.newPrev.imp_right fun ⟨hmem, hused⟩ => ?_
    rw [← hinUse]
    exact mem_filter.mpr ⟨hmem, by simp [hused]⟩
  obtain ⟨m₁, m₂, hm, hnewPrev⟩ := split_at_prev hnew
  have hnotin₂ : c.pool ∉ m₁ ++ m₂ := by
    rw [← hm]
    exact fun hmem => hnotin (mem_of_mem_filter hmem)
  rw [hm] at halive₂
  have hpath₂' : Path f₂.next f₂.pools (m₁ ++ m₂) 0 := by
    rw [hf₂, ← hm]
    exact hpath₂
  obtain ⟨next₃, pools₃, hlink, hpath₃⟩ := linked hpath₂'
    (fun a ha => halive₂.mem_iff.mpr (mem_cons_of_mem _ (mem_append_left _ ha)))
    hpool0 hnotin₂
  have hperm₃ : (m₁ ++ c.pool :: m₂).Perm (c.pool :: (m₁ ++ m₂)) := perm_middle
  have hsub₃ : ∀ a ∈ m₁ ++ c.pool :: m₂, a ∈ l₁ ++ c.pool :: l₂ := by
    intro a ha
    cases mem_cons.mp (hperm₃.mem_iff.mp ha) with
    | inl heq => simp [heq]
    | inr hmem =>
      rw [← hm] at hmem
      exact hsub a (mem_of_mem_filter hmem)
  have hsum : num + ((m₁ ++ m₂).map f.num).sum = ((l₁ ++ c.pool :: l₂).map f.num).sum := by
    have hfilter := (filter_append_perm f.poolIsEmpty (l₁ ++ c.pool :: l₂)).map f.num
    rw [← hm, ← hinUse, hnum, ← hfilter.sum_eq, map_append, sum_append]
  have htotal := h.total
  have hpoolNum : f.num c.pool ≤ num := by
    rw [hnum]
    exact num_le_total (mem_filter.mpr ⟨by simp, hpoolEmpty⟩)
  have hlinks : Links arch (f₂.relinked next₃ pools₃) (m₁ ++ c.pool :: m₂) := {
    chain := hpath₃
    alive := halive₂.trans hperm₃.symm
    apart := by
      rw [hf₂]
      exact h.apart.filter _
    bytes := by
      rw [hf₂]
      exact fun r hr => h.bytes r (mem_of_mem_filter hr)
    num_pos := by
      rw [hf₂]
      exact fun a ha => h.num_pos a (hsub₃ a ha)
    block_pos := by
      rw [hf₂]
      exact fun a ha => h.block_pos a (hsub₃ a ha)
    total := by
      have hcons := (hperm₃.map f.num).sum_eq
      rw [map_cons, sum_cons] at hcons
      rw [hf₂]
      show ((m₁ ++ c.pool :: m₂).map f.num).sum < 2 ^ 32
      omega }
  obtain ⟨ret, f', kept, hregrow, hsize, hlinks', hsame, hcases⟩ := hlinks.regrow tk hnumpos
    (by rw [hf₂]; exact hbytes) (by rw [hf₂]; show num + ((m₁ ++ m₂).map f.num).sum < 2 ^ 32; omega)
  have hsame' (a : Nat) (hs : SamePool arch (f₂.relinked next₃ pools₃) f' a) :
      SamePool arch f f' a := by
    rw [hf₂] at hs
    exact ⟨hs.1, hs.2, hs.3, hs.4, hs.5, hs.6⟩
  rw [hf₂] at hsize
  refine ⟨ret, f', m₁ ++ kept :: m₂, kept, ?_, hsize, hlinks', ?_, ?_, ?_⟩
  · have hchoose : (f.chooseLoop 0 ⟨0, 0, 0⟩ (l₁ ++ c.pool :: l₂)) = c := hc.symm
    have hstart : (f.relinked next₁ pools₁).poolsDestroy = some f₂ := by
      rw [hf₂]
      exact hdestroy
    unfold FixedBlock.poolsMerge
    simp only [h.blockNum_empty, h.foreach, bind_eq_bind, bind_some, ← hnum, hchoose,
      if_neg (Nat.ne_of_gt hnumpos), if_neg hpool0, hprev, hunlink, hstart, hnewPrev, hlink]
    exact hregrow
  · rw [hm]
    exact perm_middle
  · rw [hm]
    exact fun a ha => hsame' a (hsame a ha)
  · refine hcases.imp_right ?_
    rintro ⟨rfl, rfl, regions, hregions, hfail⟩
    refine ⟨by simp, hpoolEmpty, hsame' _ ⟨rfl, rfl, rfl, rfl, rfl, fun _ _ => rfl⟩, regions,
      hm ▸ hregions, ?_⟩
    rw [hf₂] at hfail
    exact hfail

end Awtk.FixedBlock
