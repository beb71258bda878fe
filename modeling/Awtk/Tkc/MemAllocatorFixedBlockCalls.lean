import Awtk.Tkc.MemAllocatorFixedBlockMerge

/-!
# Calls of the fixed block allocator

A client keeps the blocks it was given, and the word it stored in each of them.
`Inv` ties these to the pools: the live blocks are the ones flagged used.  Each
call keeps it as long as the bytes of a pool it asks for do not wrap; `clear` also
has to get the pool it merges into, since it threw the counts away before.
-/

namespace Awtk.FixedBlock

open Chain Function List Option

/-- The allocator with the blocks its client holds and the words it stored there. -/
structure Client where
  f : FixedBlock
  live : List Nat
  stored : Nat → Nat

/-- At most `n` pools are empty, and the live blocks are the used ones. -/
structure Inv (arch : Arch) (n : Nat) (c : Client) (l : List Nat) : Prop where
  links : Links arch c.f l
  pool : ∀ pool ∈ l, PoolOk arch c.f pool
  empty_le : (l.filter c.f.poolIsEmpty).length ≤ n
  live_nodup : c.live.Nodup
  live_iff : ∀ x, x ∈ c.live ↔
    ∃ pool ∈ l, ∃ i < c.f.num pool, c.f.used pool i = true ∧ x = nodeGet arch c.f pool i
  kept : ∀ x ∈ c.live, c.f.node x = c.stored x

variable {arch : Arch} {n : Nat} {c : Client} {l l₁ l₂ : List Nat}

/-! ## Taking and giving back -/

theorem Inv.relinked (h : Inv arch n c l) {l' : List Nat} {next : Nat → Nat} {pools : Nat}
    (hperm : l'.Perm l) (hlinks : Links arch (c.f.relinked next pools) l') :
    Inv arch n { c with f := c.f.relinked next pools } l' where
  links := hlinks
  pool a ha := (h.pool a (hperm.mem_iff.mp ha)).relinked next pools
  empty_le := (hperm.filter _).length_eq.trans_le h.empty_le
  live_nodup := h.live_nodup
  live_iff x := by
    rw [h.live_iff x]
    constructor
    · rintro ⟨a, ha, hrest⟩
      exact ⟨a, hperm.mem_iff.mpr ha, hrest⟩
    · rintro ⟨a, ha, hrest⟩
      exact ⟨a, hperm.mem_iff.mp ha, hrest⟩
  kept := h.kept

theorem Inv.poolMoveToTop {pool : Nat} (h : Inv arch n c (l₁ ++ pool :: l₂)) :
    ∃ f', c.f.poolMoveToTop pool (l₁.getLastD 0) = some f' ∧
      Inv arch n { c with f := f' } (pool :: (l₁ ++ l₂)) := by
  obtain ⟨next, pools, hmove, hlinks⟩ := h.links.poolMoveToTop
  exact ⟨_, hmove, h.relinked perm_middle.symm hlinks⟩

/-- Taking a block that was not in use. -/
theorem Inv.took (h : Inv arch n c l) {pool i : Nat} (hp : pool ∈ l) (hi : i < c.f.num pool)
    (hfree : c.f.used pool i = false) (hok : PoolOk arch (c.f.took arch pool i) pool) :
    nodeGet arch c.f pool i ∉ c.live ∧ Inv arch n {
      f := c.f.took arch pool i
      live := nodeGet arch c.f pool i :: c.live
      stored := Function.update c.stored (nodeGet arch c.f pool i)
        (c.f.node (nodeGet arch c.f pool i)) } l := by
  have hnew : nodeGet arch c.f pool i ∉ c.live := by
    intro hmem
    obtain ⟨a, ha, j, hj, hused, heq⟩ := (h.live_iff _).mp hmem
    obtain ⟨rfl, rfl⟩ := h.links.node_inj hp ha hi hj heq
    rw [hfree] at hused
    cases hused
  refine ⟨hnew, ?_⟩
  refine ⟨⟨h.links.1, h.links.2, h.links.3, h.links.4, h.links.5, h.links.6, h.links.7⟩,
    fun a ha => ?_, ?_, nodup_cons.mpr ⟨hnew, h.live_nodup⟩, fun x => ?_, fun x hx => ?_⟩
  · by_cases hap : a = pool
    · exact hap ▸ hok
    · exact (h.pool a ha).took_other hap
  · refine (Sublist.length_le ?_).trans h.empty_le
    refine monotone_filter_right l fun a hae => ?_
    unfold poolIsEmpty at hae ⊢
    rw [beq_iff_eq] at hae ⊢
    by_cases hap : a = pool
    · rw [hap] at hae
      have : c.f.usedNum pool + 1 = 0 := (update_self ..).symm.trans hae
      omega
    · exact (update_of_ne hap _ _).symm.trans hae
  · rw [mem_cons, h.live_iff x]
    simp only [FixedBlock.took, setUsed]
    constructor
    · rintro (rfl | ⟨a, ha, j, hj, hused, rfl⟩)
      · exact ⟨pool, hp, i, hi, by rw [update_self, update_self], rfl⟩
      · refine ⟨a, ha, j, hj, ?_, rfl⟩
        by_cases hap : a = pool
        · subst hap
          by_cases hji : j = i
          · rw [update_self, hji, update_self]
          · rw [update_self, update_of_ne hji, hused]
        · rw [update_of_ne hap, hused]
    · rintro ⟨a, ha, j, hj, hused, rfl⟩
      by_cases hap : a = pool
      · subst hap
        rw [update_self] at hused
        by_cases hji : j = i
        · exact .inl (by rw [hji]; rfl)
        · rw [update_of_ne hji] at hused
          exact .inr ⟨a, ha, j, hj, hused, rfl⟩
      · rw [update_of_ne hap] at hused
        exact .inr ⟨a, ha, j, hj, hused, rfl⟩
  · show c.f.node x = _
    dsimp only
    by_cases hxn : x = nodeGet arch c.f pool i
    · rw [hxn, update_self]
    · rw [update_of_ne hxn]
      exact h.kept x ((mem_cons.mp hx).resolve_left hxn)

/-- Giving back a block in use.  Its pool may become empty. -/
theorem Inv.gave (h : Inv arch n c l) {pool i : Nat} (hp : pool ∈ l) (hi : i < c.f.num pool)
    (hused : c.f.used pool i = true) (hok : PoolOk arch (c.f.gave arch pool i) pool)
    (hcount : (l.filter (c.f.gave arch pool i).poolIsEmpty).length ≤ n) :
    Inv arch n {
      c with
      f := c.f.gave arch pool i
      live := c.live.erase (nodeGet arch c.f pool i) } l where
  links := ⟨h.links.1, h.links.2, h.links.3, h.links.4, h.links.5, h.links.6, h.links.7⟩
  pool a ha := by
    by_cases hap : a = pool
    · exact hap ▸ hok
    · exact (h.pool a ha).gave_other h.links hp ha hi hap
  empty_le := hcount
  live_nodup := h.live_nodup.erase _
  live_iff x := by
    rw [h.live_nodup.mem_erase_iff, h.live_iff x]
    simp only [FixedBlock.gave, setUsed]
    constructor
    · rintro ⟨hne, a, ha, j, hj, hu, rfl⟩
      refine ⟨a, ha, j, hj, ?_, rfl⟩
      by_cases hap : a = pool
      · subst hap
        rw [update_self, update_of_ne (fun heq => hne (by rw [heq])), hu]
      · rw [update_of_ne hap, hu]
    · rintro ⟨a, ha, j, hj, hu, rfl⟩
      by_cases hap : a = pool
      · subst hap
        rw [update_self] at hu
        by_cases hji : j = i
        · rw [hji, update_self] at hu
          cases hu
        · rw [update_of_ne hji] at hu
          exact ⟨nodeGet_ne c.f a (h.links.block_pos a ha) hji, a, ha, j, hj, hu, rfl⟩
      · rw [update_of_ne hap] at hu
        exact ⟨fun heq => hap (h.links.node_inj ha hp hj hi heq).1, a, ha, j, hj, hu, rfl⟩
  kept x hx := by
    obtain ⟨hne, hmem⟩ := h.live_nodup.mem_erase_iff.mp hx
    exact (update_of_ne hne _ _).trans (h.kept x hmem)

/-! ## Merging and extending -/

/-- What a merge or an extension leaves: the pools with used blocks are the same, and
so are their words, and the other ones have no used block. -/
theorem Inv.transfer (h : Inv arch n c l) {f' : FixedBlock} {l' : List Nat} {m : Nat}
    (hlinks : Links arch f' l') (hsize : f'.size = c.f.size)
    (hold : ∀ a ∈ l, c.f.poolIsEmpty a = false → a ∈ l')
    (hsame : ∀ a ∈ l', (a ∈ l ∧ SamePool arch c.f f' a) ∨
      (PoolOk arch f' a ∧ ∀ i < f'.num a, f'.used a i = false))
    (hinUse : ∀ a ∈ l, c.f.poolIsEmpty a = false → SamePool arch c.f f' a)
    (hcount : (l'.filter f'.poolIsEmpty).length ≤ m) :
    Inv arch m { c with f := f' } l' where
  links := hlinks
  pool a ha := by
    cases hsame a ha with
    | inl hs => exact (h.pool a hs.1).same hs.2
    | inr hok => exact hok.1
  empty_le := hcount
  live_nodup := h.live_nodup
  live_iff x := by
    rw [h.live_iff x]
    simp only [nodeGet, hsize]
    constructor
    · rintro ⟨a, ha, i, hi, hused, rfl⟩
      have hne : c.f.poolIsEmpty a = false := by
        by_contra hempty
        rw [Bool.not_eq_false, (h.pool a ha).empty_iff] at hempty
        rw [hempty i hi] at hused
        cases hused
      have hs := hinUse a ha hne
      exact ⟨a, hold a ha hne, i, hs.num_eq.symm ▸ hi, by rw [hs.used_eq, hused], rfl⟩
    · rintro ⟨a, ha, i, hi, hused, rfl⟩
      cases hsame a ha with
      | inl hs =>
        rw [hs.2.num_eq] at hi
        rw [hs.2.used_eq] at hused
        exact ⟨a, hs.1, i, hi, hused, rfl⟩
      | inr hok =>
        rw [hok.2 i hi] at hused
        cases hused
  kept x hx := by
    obtain ⟨a, ha, i, hi, hused, rfl⟩ := (h.live_iff x).mp hx
    have hne : c.f.poolIsEmpty a = false := by
      by_contra hempty
      rw [Bool.not_eq_false, (h.pool a ha).empty_iff] at hempty
      rw [hempty i hi] at hused
      cases hused
    exact ((hinUse a ha hne).node_eq i hi).trans (h.kept _ hx)

theorem mem_inUse {f : FixedBlock} {a : Nat} :
    a ∈ l.filter f.inUse ↔ a ∈ l ∧ f.poolIsEmpty a = false := by
  rw [mem_filter, inUse, Bool.not_eq_true']

theorem Inv.poolsMerge (h : Inv arch n c l) (hempty : ∃ a ∈ l, c.f.poolIsEmpty a = true)
    (tk : Tkmem)
    (hbytes : poolBytes arch c.f.size ((l.filter c.f.poolIsEmpty).map c.f.num).sum < 2 ^ 32) :
    ∃ ret f' l', poolsMerge arch c.f tk = some (ret, f') ∧ f'.size = c.f.size ∧
      Inv arch 1 { c with f := f' } l' := by
  obtain ⟨ret, f', l', kept, hmerge, hsize, hlinks, hperm, hsame, hcases⟩ :=
    h.links.poolsMerge hempty tk hbytes
  refine ⟨ret, f', l', hmerge, hsize, h.transfer hlinks hsize (fun a ha hne => ?_)
    (fun a ha => ?_) (fun a ha hne => hsame a (mem_inUse.mpr ⟨ha, hne⟩)) ?_⟩
  · exact hperm.mem_iff.mpr (mem_cons_of_mem _ (mem_inUse.mpr ⟨ha, hne⟩))
  · cases mem_cons.mp (hperm.mem_iff.mp ha) with
    | inl heq =>
      subst heq
      refine hcases.symm.imp (fun hfail => ⟨hfail.1, hfail.2.2.1⟩) fun hok => hok.2
    | inr hmem => exact .inl ⟨mem_of_mem_filter hmem, hsame a hmem⟩
  · have hnone : (l.filter c.f.inUse).filter f'.poolIsEmpty = [] := by
      rw [filter_eq_nil_iff]
      intro a ha
      have hne := (mem_inUse.mp ha).2
      have husedNum := (hsame a ha).usedNum_eq
      unfold poolIsEmpty at hne ⊢
      rw [husedNum, hne]
      exact Bool.false_ne_true
    rw [(hperm.filter _).length_eq, filter_cons, hnone]
    split <;> simp

theorem four_le_blockSize {size : Nat} (h : 0 < blockSize arch size) : 4 ≤ blockSize arch size := by
  unfold blockSize at h ⊢
  have hq := Nat.pos_of_mul_pos_right h
  have hword : 4 ≤ arch.word := by cases arch <;> decide
  exact hword.trans (Nat.le_mul_of_pos_left _ hq)

/-- A pool is added where all are full, if `TKMEM` grants it. -/
theorem Inv.extend (h : Inv arch 1 c l) (hpos : 0 < blockSize arch c.f.size) (tk : Tkmem)
    (hbytes : (∀ a ∈ l, c.f.poolIsFull a = true) →
      poolBytes arch c.f.size ((l.map c.f.num).sum / 2 + 1) < 2 ^ 32) :
    ∃ ret f' l', extend arch c.f tk = some (ret, f') ∧ f'.size = c.f.size ∧
      Inv arch 1 { c with f := f' } l' := by
  have hfull : c.f.isFull = some (l.all c.f.poolIsFull) := by
    rw [isFull, h.links.foreach]
    rfl
  have hall : (l.filter fun pool => !false || c.f.poolIsEmpty pool) = l :=
    filter_eq_self.mpr fun _ _ => rfl
  have hblocks : c.f.fixedBlockNum .block false = some (l.map c.f.num).sum := by
    rw [h.links.blockNum, hall]
  unfold FixedBlock.extend
  rw [hfull]
  cases hcase : l.all c.f.poolIsFull with
  | false => exact ⟨.ok, c.f, l, rfl, rfl, h⟩
  | true =>
    rw [List.all_eq_true] at hcase
    have hbytes := hbytes hcase
    have htotal := h.links.total
    obtain ⟨num, hnum⟩ : ∃ num, num = (l.map c.f.num).sum / 2 + 1 := ⟨_, rfl⟩
    rw [← hnum] at hbytes
    have hsub : U32.sub (U32.add (U32.add ((l.map c.f.num).sum / 2) (l.map c.f.num).sum) 1)
        (l.map c.f.num).sum = num := by
      unfold U32.sub U32.add
      omega
    have hnumle : num ≤ poolBytes arch c.f.size num := by
      unfold poolBytes
      omega
    -- the blocks of the pools fit in 32 bits together with the new ones
    have hsum : num + (l.map c.f.num).sum < 2 ^ 32 := by
      have hmul : blockSize arch c.f.size * num + num ≤ poolBytes arch c.f.size num := by
        unfold poolBytes
        omega
      have hmul' := Nat.mul_le_mul_right num (four_le_blockSize hpos)
      omega
    simp only [bind_eq_bind, bind_some, if_pos, hblocks, hsub]
    unfold poolCreate
    rw [if_neg (by omega), poolSize_eq hbytes, tkmemAlloc]
    cases hgrant : tk.grant c.f.regions (poolBytes arch c.f.size num) with
    | none => exact ⟨.oom, c.f, l, rfl, rfl, h⟩
    | some y =>
      have hy0 := (tk.apart hgrant).1
      have hyne : ∀ r ∈ c.f.regions, r.addr ≠ y := fun r hr =>
        grant_ne hgrant (poolBytes_pos ..) hr ((poolBytes_pos ..).trans_le (h.links.bytes r hr))
      have hynotin : y ∉ l := by
        intro hy
        obtain ⟨r, hr, hry⟩ := h.links.region hy
        exact hyne r hr hry
      let g : FixedBlock := { c.f with
        regions := ⟨y, poolBytes arch c.f.size num⟩ :: c.f.regions
        num := Function.update c.f.num y num
        next := Function.update (Function.update c.f.next y 0) y c.f.pools
        pools := y }
      have hnumy : g.num y = num := update_self ..
      have hnumother {a : Nat} (ha : a ≠ y) : g.num a = c.f.num a := update_of_ne ha _ _
      have hne {a : Nat} (ha : a ∈ l) : a ≠ y := fun heq => hynotin (heq ▸ ha)
      have hlinks : Links arch g (y :: l) := {
        chain := by
          refine ⟨rfl, hy0, ?_⟩
          have hnext : g.next y = c.f.pools := update_self ..
          rw [hnext]
          refine h.links.chain.congr fun a ha => ?_
          exact (update_of_ne (hne ha) _ _).trans (update_of_ne (hne ha) _ _)
        alive := h.links.alive.cons y
        apart := pairwise_cons.mpr ⟨(tk.apart hgrant).2, h.links.apart⟩
        bytes := by
          intro r hr
          cases mem_cons.mp hr with
          | inl heq => rw [heq, hnumy]
          | inr hmem =>
            rw [hnumother (hyne r hmem)]
            exact h.links.bytes r hmem
        num_pos := by
          intro a ha
          cases mem_cons.mp ha with
          | inl heq => rw [heq, hnumy]; omega
          | inr hmem =>
            rw [hnumother (hne hmem)]
            exact h.links.num_pos a hmem
        block_pos := fun _ _ => hpos
        total := by
          have hsame : l.map g.num = l.map c.f.num :=
            map_congr_left fun a ha => hnumother (hne ha)
          rw [map_cons, sum_cons, hnumy, hsame]
          exact hsum }
      have hy : y ∈ y :: l := mem_cons_self
      have hsame : ∀ a ∈ l, SamePool arch c.f (g.inited arch y) a := by
        intro a ha
        have hs := samePool_inited hlinks hy (mem_cons_of_mem _ ha) (hne ha)
        exact ⟨rfl, hnumother (hne ha), hs.usedNum_eq, hs.unusedList_eq, hs.used_eq,
          fun i hi => hs.node_eq i ((hnumother (hne ha)).symm ▸ hi)⟩
      obtain ⟨hok, hfree⟩ := poolOk_inited g hpos (hlinks.num_pos y hy)
      refine ⟨.ok, g.inited arch y, y :: l, ?_, rfl, ?_⟩
      · let g₀ : FixedBlock := { c.f with
          regions := ⟨y, poolBytes arch c.f.size num⟩ :: c.f.regions
          num := Function.update c.f.num y num
          next := Function.update c.f.next y 0 }
        have hinit : poolInit arch g₀ y = some (g₀.inited arch y) :=
          poolInit_eq g₀ (hlinks.num_pos y hy) ⟨_, mem_cons_self, rfl, hlinks.bytes _
            mem_cons_self⟩
        have hhead : y ≠ c.f.pools := by
          rw [h.links.chain.head]
          intro heq
          cases l with
          | nil => exact hy0 heq
          | cons a l => exact hne mem_cons_self heq.symm
        have hlink : linkNodes arch g y = linkNodes arch g₀ y :=
          funext fun n => linkNodes_congr g₀ g rfl rfl y n
        have hpush : (g₀.inited arch y).poolsPush y = some (g.inited arch y) := by
          refine (if_neg hhead).trans ?_
          unfold inited
          rw [hlink]
          rfl
        rw [map_some]
        dsimp only
        rw [hinit, map_some, bind_some]
        dsimp only
        rw [hpush]
        rfl
      · refine h.transfer (hlinks.inited y) rfl (fun a ha _ => mem_cons_of_mem _ ha)
          (fun a ha => ?_) (fun a ha _ => hsame a ha) ?_
        · cases mem_cons.mp ha with
          | inl heq =>
            subst heq
            exact .inr ⟨hok, hfree⟩
          | inr hmem => exact .inl ⟨hmem, hsame a hmem⟩
        · have hnone : l.filter (g.inited arch y).poolIsEmpty = [] := by
            rw [filter_eq_nil_iff]
            intro a ha hempty
            have hok' := (h.pool a ha).same (hsame a ha)
            have hfree' := hok'.empty_iff.mp hempty
            have hnumpos := h.links.num_pos a ha
            have hused := (h.pool a ha).full_iff.mp (hcase a ha) 0 hnumpos
            rw [← (hsame a ha).used_eq, hfree' 0 ((hsame a ha).num_eq.symm ▸ hnumpos)] at hused
            cases hused
          rw [filter_cons, hnone]
          split <;> simp

/-! ## Calls -/

theorem findNotFull_spec (f : FixedBlock) : ∀ l₂ l₁ : List Nat,
    f.findNotFull (l₁.getLastD 0) l₂ = none ∨
    ∃ a pool b, l₁ ++ l₂ = a ++ pool :: b ∧ f.poolIsFull pool = false ∧
      f.findNotFull (l₁.getLastD 0) l₂ = some (pool, a.getLastD 0)
  | [], _ => .inl rfl
  | pool :: l₂, l₁ => by
    rw [findNotFull]
    cases hfull : f.poolIsFull pool with
    | true =>
      have hrest := findNotFull_spec f l₂ (l₁ ++ [pool])
      rw [getLastD_concat, append_assoc] at hrest
      exact hrest
    | false => exact .inr ⟨l₁, pool, l₂, rfl, hfull, rfl⟩

/-- A call returns NULL, or a block that was not live. -/
theorem Inv.allocate (h : Inv arch 1 c l) (hpos : 0 < blockSize arch c.f.size) (tk : Tkmem)
    (hbytes : (∀ a ∈ l, c.f.poolIsFull a = true) →
      poolBytes arch c.f.size ((l.map c.f.num).sum / 2 + 1) < 2 ^ 32) :
    ∃ x f' l', allocate arch c.f tk = some (x, f') ∧ f'.size = c.f.size ∧
      ((x = 0 ∧ Inv arch 1 { c with f := f' } l') ∨
        (x ≠ 0 ∧ Inv arch 1 {
          f := f'
          live := x :: c.live
          stored := Function.update c.stored x (f'.node x) } l')) := by
  obtain ⟨ret, f₁, l', hextend, hsize, h₁⟩ := h.extend hpos tk hbytes
  unfold FixedBlock.allocate
  simp only [bind_eq_bind, hextend, bind_some]
  by_cases hret : ret = .ok
  · rw [if_neg (not_not.mpr hret), h₁.links.foreach, bind_some]
    cases findNotFull_spec f₁ l' [] with
    | inl hnone =>
      rw [getLastD_nil] at hnone
      rw [hnone]
      exact ⟨0, f₁, l', rfl, hsize, .inl ⟨rfl, h₁⟩⟩
    | inr hsome =>
      obtain ⟨a, pool, b, hl', hroom, hfind⟩ := hsome
      rw [getLastD_nil] at hfind
      rw [nil_append] at hl'
      subst hl'
      have hp : pool ∈ a ++ pool :: b := by simp
      obtain ⟨i, hi, hfree, htake, hok⟩ := (h₁.pool pool hp).poolAllocate h₁.links hp hroom
      obtain ⟨_, h₂⟩ := h₁.took hp hi hfree hok
      rw [hfind]
      dsimp only
      rw [htake, bind_some]
      dsimp only
      by_cases hfull : (f₁.took arch pool i).poolIsFull pool = true
      · rw [if_pos hfull]
        exact ⟨_, _, _, rfl, hsize, .inr ⟨nodeGet_ne_zero f₁ pool i, h₂⟩⟩
      · obtain ⟨next, pools, hmove, hlinks⟩ := h₂.links.poolMoveToTop
        rw [if_neg hfull, hmove, bind_some]
        exact ⟨_, _, _, rfl, hsize, .inr ⟨nodeGet_ne_zero f₁ pool i,
          h₂.relinked perm_middle.symm hlinks⟩⟩
  · rw [if_pos hret]
    exact ⟨0, f₁, l', rfl, hsize, .inl ⟨rfl, h₁⟩⟩

theorem not_between {f : FixedBlock} (h : Links arch f l) {a b i : Nat} (ha : a ∈ l) (hb : b ∈ l)
    (hi : i < f.num a) (hne : a ≠ b) :
    ¬ (nodeGet arch f b 0 ≤ nodeGet arch f a i ∧
      nodeGet arch f a i ≤ nodeGet arch f b (f.num b - 1)) := by
  rintro ⟨hle, hge⟩
  have hpos := h.block_pos a ha
  have hnum := h.num_pos b hb
  obtain ⟨r, hr, rfl⟩ := h.region ha
  obtain ⟨t, ht, rfl⟩ := h.region hb
  have hrt : r ≠ t := fun heq => hne (congrArg Region.addr heq)
  have hapart := h.apart.forall hr ht hrt
  have hend := h.node_le hr hi
  have hlast := h.node_le ht (i := f.num t.addr - 1) (by omega)
  have hstart : r.addr ≤ nodeGet arch f r.addr i := by
    unfold nodeGet
    omega
  have hfirst : t.addr ≤ nodeGet arch f t.addr 0 := by
    unfold nodeGet
    omega
  unfold Region.Apart at hapart
  omega

/-- The loop of `mem_allocator_fixed_block_node_find` arrives at the pool of a
block. -/
theorem nodeFind_eq {f : FixedBlock} (h : Links arch f l) {pool i : Nat} (hi : i < f.num pool) :
    ∀ l₂ l₁ : List Nat, l = l₁ ++ l₂ → pool ∈ l₂ →
    ∃ a b, l = a ++ pool :: b ∧
      nodeFind arch f (nodeGet arch f pool i) (l₁.getLastD 0) l₂ = some (pool, a.getLastD 0)
  | [], _, _, hp => absurd hp not_mem_nil
  | q :: l₂, l₁, hl, hp => by
    have hq : q ∈ l := by simp [hl]
    have hpool : pool ∈ l := by
      rw [hl]
      exact mem_append_right _ hp
    rw [nodeFind]
    by_cases hqp : pool = q
    · subst hqp
      have hsub : nodeGet arch f pool i - nodeGet arch f pool 0 = blockSize arch f.size * i := by
        unfold nodeGet
        omega
      have hle : blockSize arch f.size * i ≤ blockSize arch f.size * (f.num pool - 1) :=
        Nat.mul_le_mul_left _ (by omega)
      have hin : 0 < f.num pool ∧ nodeGet arch f pool 0 ≤ nodeGet arch f pool i ∧
          nodeGet arch f pool i ≤ nodeGet arch f pool (f.num pool - 1) := by
        unfold nodeGet
        omega
      refine ⟨l₁, l₂, hl, ?_⟩
      rw [if_pos hin, hsub, Nat.mul_mod_right, if_pos rfl]
    · have hout := not_between h hpool hq hi hqp
      obtain ⟨a, b, hab, hfind⟩ := nodeFind_eq h hi l₂ (l₁ ++ [q]) (by rw [hl, append_assoc]; rfl)
        ((mem_cons.mp hp).resolve_left hqp)
      rw [getLastD_concat] at hfind
      exact ⟨a, b, hab, by rw [if_neg fun hin => hout hin.2, hfind]⟩

theorem Links.sum_regions {f : FixedBlock} (h : Links arch f l) (p : Region → Bool)
    (q : Nat → Bool) (hpq : ∀ r ∈ f.regions, p r = q r.addr) :
    ((f.regions.filter p).map fun r => f.num r.addr).sum = ((l.filter q).map f.num).sum := by
  have hmap : (f.regions.filter p).map (fun r => f.num r.addr) =
      ((f.regions.map Region.addr).filter q).map f.num := by
    rw [List.filter_map, List.map_map]
    exact congrArg (List.map _) (filter_congr hpq)
  rw [hmap]
  exact ((h.alive.filter q).map f.num).sum_eq

/-- The blocks of all pools. -/
def blocks (f : FixedBlock) : Nat := (f.regions.map fun r => f.num r.addr).sum

/-- The blocks of the pools that are empty as soon as `ptr` is free. -/
def freedBlocks (f : FixedBlock) (ptr : Nat) : Nat :=
  ((f.regions.filter fun r => f.usedNum r.addr == 0 ||
    (f.usedNum r.addr == 1 && decide (r.addr ≤ ptr ∧ ptr < r.addr + r.bytes))).map
      fun r => f.num r.addr).sum

theorem Links.blocks_eq {f : FixedBlock} (h : Links arch f l) : f.blocks = (l.map f.num).sum := by
  have hall := h.sum_regions (fun _ => true) (fun _ => true) fun _ _ => rfl
  rwa [filter_true, filter_true] at hall

theorem freedBlocks_eq {f : FixedBlock} (h : Links arch f l) (hok : ∀ a ∈ l, PoolOk arch f a)
    {pool i : Nat} (hp : pool ∈ l) (hi : i < f.num pool) (hused : f.used pool i = true) :
    f.freedBlocks (nodeGet arch f pool i) =
      ((l.filter (f.gave arch pool i).poolIsEmpty).map f.num).sum := by
  refine h.sum_regions _ _ fun r hr => ?_
  have ha : r.addr ∈ l := h.alive.mem_iff.mp (List.mem_map.mpr ⟨r, hr, rfl⟩)
  by_cases hrp : r.addr = pool
  · subst hrp
    have hpos : f.usedNum r.addr ≠ 0 := by
      intro h0
      have hempty : f.poolIsEmpty r.addr = true := beq_iff_eq.mpr h0
      rw [(hok _ hp).empty_iff] at hempty
      rw [hempty i hi] at hused
      cases hused
    have hblock := h.block_pos _ hp
    have hin : r.addr ≤ nodeGet arch f r.addr i ∧ nodeGet arch f r.addr i < r.addr + r.bytes := by
      have hle := h.node_le hr hi
      unfold nodeGet at hle ⊢
      omega
    have hgave : (f.gave arch r.addr i).usedNum r.addr = f.usedNum r.addr - 1 :=
      update_self ..
    rw [poolIsEmpty, hgave, decide_eq_true hin, Bool.and_true, Bool.eq_iff_iff, Bool.or_eq_true]
    simp only [beq_iff_eq]
    omega
  · have hout : ¬ (r.addr ≤ nodeGet arch f pool i ∧ nodeGet arch f pool i < r.addr + r.bytes) := by
      obtain ⟨t, ht, rfl⟩ := h.region hp
      have hrt : r ≠ t := fun heq => hrp (congrArg Region.addr heq)
      have hapart := h.apart.forall hr ht hrt
      have hle := h.node_le ht hi
      have hblock := h.block_pos _ hp
      have hstart : t.addr ≤ nodeGet arch f t.addr i := by
        unfold nodeGet
        omega
      unfold Region.Apart at hapart
      omega
    have hgave : (f.gave arch pool i).usedNum r.addr = f.usedNum r.addr :=
      update_of_ne hrp _ _
    rw [poolIsEmpty, hgave, decide_eq_false hout, Bool.and_false, Bool.or_false]

/-- A live block is given back; two empty pools become one. -/
theorem Inv.deallocate (h : Inv arch 1 c l) (tk : Tkmem) {ptr : Nat} (hlive : ptr ∈ c.live)
    (hbytes : poolBytes arch c.f.size (c.f.freedBlocks ptr) < 2 ^ 32) :
    ∃ ret f' l', deallocate arch c.f tk ptr = some (ret, f') ∧ f'.size = c.f.size ∧
      Inv arch 1 { c with f := f', live := c.live.erase ptr } l' := by
  obtain ⟨pool, hp, i, hi, hused, rfl⟩ := (h.live_iff ptr).mp hlive
  obtain ⟨hgive, hok⟩ := (h.pool pool hp).poolDeallocate h.links hp hi hused
  obtain ⟨a, b, hl, hfind⟩ := nodeFind_eq h.links hi l [] rfl hp
  rw [getLastD_nil] at hfind
  rw [freedBlocks_eq h.links h.pool hp hi hused] at hbytes
  obtain ⟨f₁, hf₁⟩ : ∃ f₁, f₁ = c.f.gave arch pool i := ⟨_, rfl⟩
  have hbefore : c.f.poolIsEmpty pool = false := by
    by_contra hempty
    rw [Bool.not_eq_false, (h.pool pool hp).empty_iff] at hempty
    rw [hempty i hi] at hused
    cases hused
  have hother {q : Nat} (hq : q ≠ pool) : f₁.poolIsEmpty q = c.f.poolIsEmpty q := by
    have hsame : f₁.usedNum q = c.f.usedNum q := by
      rw [hf₁]
      exact update_of_ne hq _ _
    unfold poolIsEmpty
    rw [hsame]
  have hlinks₁ : Links arch f₁ l := by
    rw [hf₁]
    exact ⟨h.links.1, h.links.2, h.links.3, h.links.4, h.links.5, h.links.6, h.links.7⟩
  have hcount : f₁.fixedBlockNum .pool true = some (l.filter f₁.poolIsEmpty).length :=
    hlinks₁.poolNum true
  -- the client's view with any bound on the number of empty pools
  have hgave (m : Nat) (hm : (l.filter f₁.poolIsEmpty).length ≤ m) :
      Inv arch m { c with f := f₁, live := c.live.erase (nodeGet arch c.f pool i) } l := by
    have h' : Inv arch (max 1 m) c l :=
      ⟨h.links, h.pool, h.empty_le.trans (Nat.le_max_left ..), h.live_nodup, h.live_iff, h.kept⟩
    have h₁ := h'.gave hp hi hused hok (by rw [← hf₁]; omega)
    rw [← hf₁] at h₁
    exact ⟨h₁.1, h₁.2, hm, h₁.4, h₁.5, h₁.6⟩
  unfold FixedBlock.deallocate
  simp only [bind_eq_bind, if_neg (nodeGet_ne_zero c.f pool i), h.links.foreach,
    bind_some, hfind, hgive, ← hf₁, hcount]
  by_cases hmerge : f₁.poolIsEmpty pool = true ∧ 1 < (l.filter f₁.poolIsEmpty).length
  · rw [if_pos hmerge]
    obtain ⟨ret, f', l', hres, hsize, h'⟩ := (hgave _ (Nat.le_refl _)).poolsMerge
      ⟨pool, hp, hmerge.1⟩ tk (by rw [hf₁]; exact hbytes)
    exact ⟨ret, f', l', hres, hsize.trans (by rw [hf₁]; rfl), h'⟩
  · rw [if_neg hmerge]
    have hone : (l.filter f₁.poolIsEmpty).length ≤ 1 := by
      by_cases hempty : f₁.poolIsEmpty pool = true
      · exact Nat.le_of_not_lt fun hlt => hmerge ⟨hempty, hlt⟩
      · rw [Bool.not_eq_true] at hempty
        have hsame : l.filter f₁.poolIsEmpty = l.filter c.f.poolIsEmpty := by
          refine filter_congr fun q _ => ?_
          by_cases hq : q = pool
          · rw [hq, hempty, hbefore]
          · exact hother hq
        rw [hsame]
        exact h.empty_le
    have h₁ := hgave 1 hone
    by_cases hfull : f₁.poolIsFull f₁.pools = true
    · subst hl
      obtain ⟨f', hmove, h'⟩ := h₁.poolMoveToTop
      have hsize : f'.size = f₁.size := by
        obtain ⟨next, pools, hmove', _⟩ := h₁.links.poolMoveToTop
        rw [hmove, some.injEq] at hmove'
        rw [hmove']
      rw [if_pos hfull, hmove, bind_some]
      exact ⟨_, _, _, rfl, hsize.trans (by rw [hf₁]; rfl), h'⟩
    · rw [if_neg hfull]
      exact ⟨_, f₁, l, rfl, by rw [hf₁]; rfl, h₁⟩

/-- Everything is given back. -/
theorem Inv.clear (h : Inv arch 1 c l) (tk : Tkmem)
    (hbytes : 1 < c.f.regions.length → poolBytes arch c.f.size c.f.blocks < 2 ^ 32)
    (hgrant : 1 < c.f.regions.length →
      (tk.grant [] (poolBytes arch c.f.size c.f.blocks)).isSome) :
    ∃ ret f' l', clear arch c.f tk = some (ret, f') ∧ f'.size = c.f.size ∧
      Inv arch 1 { c with f := f', live := [] } l' := by
  have hfirst : c.f.pools = l.headD 0 := h.links.chain.head
  unfold FixedBlock.clear
  cases l with
  | nil =>
    rw [if_pos (show c.f.pools = 0 from hfirst)]
    refine ⟨_, c.f, [], rfl, rfl, h.links, h.pool, h.empty_le, nodup_nil, fun x => ?_,
      fun x hx => absurd hx not_mem_nil⟩
    simp
  | cons pool rest =>
    have hpools : c.f.pools ≠ 0 := by
      rw [hfirst]
      exact h.links.chain.2.1
    have hlen : (pool :: rest).length = c.f.regions.length := by
      rw [← h.links.alive.length_eq, length_map]
    rw [if_neg hpools, h.links.foreach]
    simp only [bind_eq_bind, bind_some]
    obtain ⟨f₁, hf₁⟩ : ∃ f₁, f₁ = c.f.clearPools (pool :: rest) := ⟨_, rfl⟩
    have hlinks₁ : Links arch f₁ (pool :: rest) := by
      rw [hf₁]
      exact ⟨h.links.1, h.links.2, h.links.3, h.links.4, h.links.5, h.links.6, h.links.7⟩
    have hempty : ∀ a ∈ pool :: rest, f₁.poolIsEmpty a = true := by
      intro a ha
      rw [hf₁]
      exact beq_iff_eq.mpr (if_pos ha)
    have hcount : f₁.fixedBlockNum .pool false = some (pool :: rest).length := by
      rw [hlinks₁.poolNum]
      exact congrArg some (congrArg List.length (filter_eq_self.mpr fun _ _ => rfl))
    have hsize₁ : f₁.size = c.f.size := by rw [hf₁]; rfl
    -- a single pool without used blocks
    have hsingle {f' : FixedBlock} {kept : Nat} (hlinks : Links arch f' [kept])
        (hok : PoolOk arch f' kept) (hfree : ∀ i < f'.num kept, f'.used kept i = false) :
        Inv arch 1 { c with f := f', live := [] } [kept] := by
      refine ⟨hlinks, fun a ha => (mem_singleton.mp ha).symm ▸ hok,
        (filter_sublist).length_le, nodup_nil, fun x => ?_,
        fun x hx => absurd hx not_mem_nil⟩
      constructor
      · intro hx
        cases hx
      · rintro ⟨a, ha, i, hi, hused, _⟩
        cases mem_singleton.mp ha
        rw [hfree i hi] at hused
        cases hused
    rw [← hf₁, hcount, bind_some]
    split_ifs with hmany
    · have hall : (pool :: rest).filter f₁.poolIsEmpty = pool :: rest := by
        rw [filter_eq_self]
        exact hempty
      have hnone : (pool :: rest).filter f₁.inUse = [] := by
        rw [filter_eq_nil_iff]
        intro a ha
        rw [inUse, hempty a ha]
        exact Bool.false_ne_true
      have hblocks : poolBytes arch f₁.size (((pool :: rest).filter f₁.poolIsEmpty).map f₁.num).sum =
          poolBytes arch c.f.size c.f.blocks := by
        rw [hall, hsize₁, h.links.blocks_eq, hf₁]
        rfl
      obtain ⟨ret, f', l', kept, hmerge, hsize, hlinks, hperm, _, hcases⟩ :=
        hlinks₁.poolsMerge ⟨pool, mem_cons_self, hempty pool mem_cons_self⟩ tk
          (by rw [hblocks]; exact hbytes (hlen ▸ hmany))
      rw [hnone] at hperm hcases
      cases perm_singleton.mp hperm
      obtain hok | ⟨_, _, _, regions, hregions, hfail⟩ := hcases
      · exact ⟨ret, f', [kept], hmerge, hsize.trans hsize₁, hsingle hlinks hok.2.1 hok.2.2⟩
      · have hsome := hgrant (hlen ▸ hmany)
        rw [hblocks] at hfail
        rw [map_eq_nil_iff.mp hregions.eq_nil] at hfail
        rw [hfail] at hsome
        cases hsome
    · have hrest : rest = [] := by
        cases rest with
        | nil => rfl
        | cons b rest => exact absurd (by simp) hmany
      subst hrest
      have hpool₁ : f₁.pools = pool := by
        rw [hf₁]
        exact hfirst
      obtain ⟨r, hr, hra⟩ := hlinks₁.region mem_cons_self
      have hnum := hlinks₁.num_pos pool mem_cons_self
      have hbig : poolBytes arch f₁.size (f₁.num pool) ≤ r.bytes := hra ▸ hlinks₁.bytes r hr
      obtain ⟨hok, hfree⟩ := poolOk_inited f₁ (hlinks₁.block_pos pool mem_cons_self) hnum
      rw [hpool₁, poolInit_eq f₁ hnum ⟨r, hr, hra, hbig⟩, bind_some]
      exact ⟨_, _, [pool], rfl, hsize₁, hsingle (hlinks₁.inited pool) hok hfree⟩

end Awtk.FixedBlock
