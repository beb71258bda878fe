import Mathlib
import Awtk.Tkc.MemAllocatorFixedBlock

/-!
# The pools of the fixed block allocator

`Links` is what holds of the list of pools and of the regions, whatever the
blocks are, and `PoolOk` is what holds of the blocks of one pool.  There is one
lemma for each operation on the links, and one for each operation on the blocks
of a pool.
-/

namespace Awtk.FixedBlock

open Chain Function List Option

/-! ## The list of pools -/

/-- The pools are linked in the order `l`, they are the regions in use, and each
region has room for its blocks. -/
structure Links (arch : Arch) (f : FixedBlock) (l : List Nat) : Prop where
  chain : Path f.next f.pools l 0
  alive : (f.regions.map Region.addr).Perm l
  apart : f.regions.Pairwise Region.Apart
  bytes : ∀ r ∈ f.regions, poolBytes arch f.size (f.num r.addr) ≤ r.bytes
  num_pos : ∀ pool ∈ l, 0 < f.num pool
  block_pos : ∀ pool ∈ l, 0 < blockSize arch f.size
  total : (l.map f.num).sum < 2 ^ 32

variable {arch : Arch} {f : FixedBlock} {l : List Nat}

instance : Std.Symm Region.Apart := ⟨fun _ _ h => h.symm⟩

theorem Links.alive_of_mem (h : Links arch f l) {pool : Nat} (hp : pool ∈ l) : f.Alive pool :=
  h.alive.mem_iff.mpr hp

theorem Links.foreach (h : Links arch f l) : f.foreach = some l := by
  refine walk_eq h.chain (fun pool hp => h.alive_of_mem hp) ?_
  rw [← h.alive.length_eq, length_map]

theorem foldl_add (g : Nat → Nat) : ∀ (l : List Nat) (n : Nat), n + (l.map g).sum < 2 ^ 32 →
    l.foldl (fun ret pool => U32.add ret (g pool)) n = n + (l.map g).sum
  | [], _, _ => rfl
  | pool :: l, n, h => by
    rw [map_cons, sum_cons] at h ⊢
    rw [foldl_cons, U32.add_of_lt (by omega), foldl_add g l _ (by omega), Nat.add_assoc]

theorem sum_filter_le (g : Nat → Nat) (p : Nat → Bool) (l : List Nat) :
    ((l.filter p).map g).sum ≤ (l.map g).sum :=
  (filter_sublist.map g).sum_le_sum fun _ _ => Nat.zero_le _

theorem Links.length_le (h : Links arch f l) : l.length ≤ (l.map f.num).sum := by
  have hone : ∀ n ∈ l.map f.num, 1 ≤ n := by
    intro n hn
    obtain ⟨pool, hp, rfl⟩ := List.mem_map.mp hn
    exact h.num_pos pool hp
  have hlen := length_le_sum_of_one_le _ hone
  rwa [length_map] at hlen

theorem Links.blockNum (h : Links arch f l) (onlyEmpty : Bool) :
    f.fixedBlockNum .block onlyEmpty =
      some ((l.filter fun pool => !onlyEmpty || f.poolIsEmpty pool).map f.num).sum := by
  have hle := sum_filter_le f.num (fun pool => !onlyEmpty || f.poolIsEmpty pool) l
  have htotal := h.total
  rw [fixedBlockNum, h.foreach, map_some]
  exact congrArg some ((foldl_add f.num _ 0 (by omega)).trans (Nat.zero_add _))

theorem Links.poolNum (h : Links arch f l) (onlyEmpty : Bool) :
    f.fixedBlockNum .pool onlyEmpty =
      some (l.filter fun pool => !onlyEmpty || f.poolIsEmpty pool).length := by
  have hle := (filter_sublist (p := fun pool => !onlyEmpty || f.poolIsEmpty pool)
    (l := l)).length_le
  have hlen := h.length_le
  have htotal := h.total
  have hones (m : List Nat) : (m.map fun _ => 1).sum = m.length := by simp
  rw [fixedBlockNum, h.foreach, map_some]
  refine congrArg some ((foldl_add (fun _ => 1) _ 0 ?_).trans ?_)
  · rw [hones]
    omega
  · rw [hones, Nat.zero_add]

/-! ## Blocks -/

theorem nodeGet_ne_zero (f : FixedBlock) (pool i : Nat) : nodeGet arch f pool i ≠ 0 := by
  unfold nodeGet memStartOffset
  omega

theorem nodeGet_add_le (f : FixedBlock) (pool : Nat) {i j : Nat} (h : i < j) :
    nodeGet arch f pool i + blockSize arch f.size ≤ nodeGet arch f pool j := by
  have hle : blockSize arch f.size * (i + 1) ≤ blockSize arch f.size * j := Nat.mul_le_mul_left _ h
  rw [Nat.mul_succ] at hle
  unfold nodeGet
  omega

theorem Links.region (h : Links arch f l) {pool : Nat} (hp : pool ∈ l) :
    ∃ r ∈ f.regions, r.addr = pool :=
  List.mem_map.mp (h.alive_of_mem hp)

theorem Links.node_le (h : Links arch f l) {r : Region} (hr : r ∈ f.regions) {i : Nat}
    (hi : i < f.num r.addr) :
    nodeGet arch f r.addr i + blockSize arch f.size ≤ r.addr + r.bytes := by
  have hbytes := h.bytes r hr
  have hle : blockSize arch f.size * (i + 1) ≤ blockSize arch f.size * f.num r.addr :=
    Nat.mul_le_mul_left _ hi
  rw [Nat.mul_succ] at hle
  unfold poolBytes at hbytes
  unfold nodeGet
  omega

theorem Links.nodes_apart (h : Links arch f l) {a b i j : Nat} (ha : a ∈ l) (hb : b ∈ l)
    (hi : i < f.num a) (hj : j < f.num b) (hne : ¬ (a = b ∧ i = j)) :
    nodeGet arch f a i + blockSize arch f.size ≤ nodeGet arch f b j ∨
    nodeGet arch f b j + blockSize arch f.size ≤ nodeGet arch f a i := by
  by_cases hab : a = b
  · subst hab
    have hlt : i < j ∨ j < i := by omega
    cases hlt with
    | inl hlt => exact .inl (nodeGet_add_le f a hlt)
    | inr hlt => exact .inr (nodeGet_add_le f a hlt)
  · obtain ⟨r, hr, rfl⟩ := h.region ha
    obtain ⟨t, ht, rfl⟩ := h.region hb
    have hrt : r ≠ t := fun heq => hab (congrArg Region.addr heq)
    have hapart := h.apart.forall hr ht hrt
    have hle := h.node_le hr hi
    have hle' := h.node_le ht hj
    have hge : r.addr ≤ nodeGet arch f r.addr i := by
      unfold nodeGet
      omega
    have hge' : t.addr ≤ nodeGet arch f t.addr j := by
      unfold nodeGet
      omega
    unfold Region.Apart at hapart
    omega

theorem Links.node_inj (h : Links arch f l) {a b i j : Nat} (ha : a ∈ l) (hb : b ∈ l)
    (hi : i < f.num a) (hj : j < f.num b) (heq : nodeGet arch f a i = nodeGet arch f b j) :
    a = b ∧ i = j := by
  by_contra hne
  have hpos := h.block_pos a ha
  have := h.nodes_apart ha hb hi hj hne
  omega

theorem nodeIndex_nodeGet (f : FixedBlock) (pool i : Nat) (h : 0 < blockSize arch f.size) :
    nodeIndex arch f pool (nodeGet arch f pool i) = i := by
  have hsub : nodeGet arch f pool i - nodeGet arch f pool 0 = blockSize arch f.size * i := by
    unfold nodeGet
    omega
  rw [nodeIndex, hsub, Nat.mul_div_cancel_left _ h]

/-! ## One pool -/

/-- The number of used blocks is the number of flags, and the unused list has the
other blocks. -/
structure PoolOk (arch : Arch) (f : FixedBlock) (pool : Nat) : Prop where
  count : f.usedNum pool = (List.range (f.num pool)).countP (f.used pool)
  unused : ∃ ul, Path f.node (f.unusedList pool) ul 0 ∧
    ∀ x, x ∈ ul ↔ ∃ i < f.num pool, f.used pool i = false ∧ x = nodeGet arch f pool i

theorem PoolOk.congr {f' : FixedBlock} {pool : Nat} (h : PoolOk arch f pool)
    (hsize : f'.size = f.size) (hnum : f'.num pool = f.num pool)
    (husedNum : f'.usedNum pool = f.usedNum pool)
    (hunused : f'.unusedList pool = f.unusedList pool) (hused : f'.used pool = f.used pool)
    (hnode : ∀ i < f.num pool, f'.node (nodeGet arch f pool i) = f.node (nodeGet arch f pool i)) :
    PoolOk arch f' pool := by
  obtain ⟨ul, hpath, hmem⟩ := h.unused
  refine ⟨by rw [husedNum, hnum, hused, h.count], ul, ?_, fun x => ?_⟩
  · rw [hunused]
    refine hpath.congr fun x hx => ?_
    obtain ⟨i, hi, _, rfl⟩ := (hmem x).mp hx
    exact hnode i hi
  · rw [hmem x, hnum, hused]
    simp only [nodeGet, hsize]

theorem PoolOk.full_iff {pool : Nat} (h : PoolOk arch f pool) :
    f.poolIsFull pool = true ↔ ∀ i < f.num pool, f.used pool i = true := by
  obtain ⟨ul, hpath, hmem⟩ := h.unused
  unfold poolIsFull
  rw [beq_iff_eq]
  constructor
  · intro hnull i hi
    by_contra hfree
    rw [Bool.not_eq_true] at hfree
    have hx := (hmem _).mpr ⟨i, hi, hfree, rfl⟩
    cases ul with
    | nil => cases hx
    | cons y ul => exact hpath.2.1 (hpath.1.symm.trans hnull)
  · intro hall
    cases ul with
    | nil => exact hpath
    | cons y ul =>
      obtain ⟨i, hi, hfree, _⟩ := (hmem y).mp mem_cons_self
      rw [hall i hi] at hfree
      cases hfree

theorem PoolOk.empty_iff {pool : Nat} (h : PoolOk arch f pool) :
    f.poolIsEmpty pool = true ↔ ∀ i < f.num pool, f.used pool i = false := by
  unfold poolIsEmpty
  rw [beq_iff_eq, h.count, countP_eq_zero]
  constructor
  · intro hnone i hi
    have := hnone i (mem_range.mpr hi)
    simpa using this
  · intro hnone i hi
    rw [hnone i (mem_range.mp hi)]
    exact Bool.false_ne_true

theorem countP_update {g : Nat → Bool} {i : Nat} (hg : g i = false) : ∀ {n : Nat}, i < n →
    (List.range n).countP (Function.update g i true) = (List.range n).countP g + 1
  | 0, h => absurd h (Nat.not_lt_zero i)
  | n + 1, h => by
    rw [range_succ, countP_append, countP_append, countP_singleton,
      countP_singleton]
    by_cases hin : i = n
    · subst hin
      have hsame : (List.range i).countP (Function.update g i true) = (List.range i).countP g := by
        refine countP_congr fun j hj => ?_
        rw [update_of_ne (Nat.ne_of_lt (mem_range.mp hj))]
      rw [hsame, update_self, hg]
      rfl
    · rw [countP_update hg (Nat.lt_of_le_of_ne (Nat.le_of_lt_succ h) hin),
        update_of_ne (Ne.symm hin), Nat.add_right_comm]

/-- The allocator after block `i` of a pool was taken off the front of its unused
list. -/
def took (arch : Arch) (f : FixedBlock) (pool i : Nat) : FixedBlock :=
  { f with
    unusedList := Function.update f.unusedList pool (f.node (nodeGet arch f pool i))
    usedNum := Function.update f.usedNum pool (f.usedNum pool + 1) }.setUsed pool i true

/-- The allocator after block `i` of a pool was put back. -/
def gave (arch : Arch) (f : FixedBlock) (pool i : Nat) : FixedBlock :=
  { f with
    usedNum := Function.update f.usedNum pool (f.usedNum pool - 1)
    node := Function.update f.node (nodeGet arch f pool i) (f.unusedList pool)
    unusedList := Function.update f.unusedList pool (nodeGet arch f pool i) }.setUsed pool i false

theorem num_le_total : ∀ {l : List Nat} {pool : Nat}, pool ∈ l → f.num pool ≤ (l.map f.num).sum
  | [], _, h => absurd h not_mem_nil
  | q :: l, pool, h => by
    rw [map_cons, sum_cons]
    cases mem_cons.mp h with
    | inl heq => rw [heq]; omega
    | inr hmem => exact (num_le_total hmem).trans (Nat.le_add_left _ _)

/-- The first unused block is taken. -/
theorem PoolOk.poolAllocate {pool : Nat} (h : PoolOk arch f pool) (hl : Links arch f l)
    (hp : pool ∈ l) (hfull : f.poolIsFull pool = false) :
    ∃ i < f.num pool, f.used pool i = false ∧
      poolAllocate arch f pool = some (nodeGet arch f pool i, f.took arch pool i) ∧
      PoolOk arch (f.took arch pool i) pool := by
  obtain ⟨ul, hpath, hmem⟩ := h.unused
  cases ul with
  | nil =>
    have hnull : f.unusedList pool = 0 := hpath
    rw [poolIsFull, hnull] at hfull
    cases hfull
  | cons x ul =>
    obtain ⟨i, hi, hfree, rfl⟩ := (hmem x).mp mem_cons_self
    have hhead : f.unusedList pool = nodeGet arch f pool i := hpath.1
    have hindex := nodeIndex_nodeGet f pool i (hl.block_pos pool hp)
    have hcount : (List.range (f.num pool)).countP (Function.update (f.used pool) i true) =
        f.usedNum pool + 1 := by
      rw [countP_update hfree hi, h.count]
    have hle : f.usedNum pool + 1 ≤ f.num pool := by
      have := countP_le_length (p := Function.update (f.used pool) i true)
        (l := List.range (f.num pool))
      rw [hcount, length_range] at this
      exact this
    have htotal := hl.total
    have hnum := num_le_total (f := f) hp
    refine ⟨i, hi, hfree, ?_, ?_, ul, ?_, ?_⟩
    · unfold FixedBlock.poolAllocate
      rw [if_neg (by rw [hfull]; exact Bool.false_ne_true), hhead]
      dsimp only
      rw [hindex, U32.add_of_lt (by omega), if_pos ⟨hle, hfree⟩]
      rfl
    · simp only [took, setUsed, update_self]
      exact hcount.symm
    · simp only [took, setUsed, update_self]
      exact hpath.2.2
    · have hnodup := hpath.nodup
      rw [nodup_cons] at hnodup
      intro y
      simp only [took, setUsed, update_self]
      constructor
      · intro hy
        obtain ⟨j, hj, hjfree, rfl⟩ := (hmem y).mp (mem_cons_of_mem _ hy)
        have hne : j ≠ i := fun heq => hnodup.1 (heq ▸ hy)
        exact ⟨j, hj, by rw [update_of_ne hne, hjfree], rfl⟩
      · rintro ⟨j, hj, hjfree, rfl⟩
        have hne : j ≠ i := by
          rintro rfl
          rw [update_self] at hjfree
          cases hjfree
        rw [update_of_ne hne] at hjfree
        cases mem_cons.mp ((hmem _).mpr ⟨j, hj, hjfree, rfl⟩) with
        | inl heq => exact absurd (hl.node_inj hp hp hj hi heq).2 hne
        | inr hmem' => exact hmem'

/-- A used block is put in front of the unused ones. -/
theorem PoolOk.poolDeallocate {pool i : Nat} (h : PoolOk arch f pool) (hl : Links arch f l)
    (hp : pool ∈ l) (hi : i < f.num pool) (hused : f.used pool i = true) :
    poolDeallocate arch f pool (nodeGet arch f pool i) = some (f.gave arch pool i) ∧
      PoolOk arch (f.gave arch pool i) pool := by
  obtain ⟨ul, hpath, hmem⟩ := h.unused
  have hindex := nodeIndex_nodeGet f pool i (hl.block_pos pool hp)
  have hnotin : nodeGet arch f pool i ∉ ul := by
    intro hin
    obtain ⟨j, hj, hfree, heq⟩ := (hmem _).mp hin
    rw [← (hl.node_inj hp hp hi hj heq).2, hused] at hfree
    cases hfree
  have hback : Function.update (Function.update (f.used pool) i false) i true = f.used pool := by
    rw [update_idem, ← hused, update_eq_self]
  have hcount : (List.range (f.num pool)).countP (Function.update (f.used pool) i false) + 1 =
      f.usedNum pool := by
    rw [← countP_update (update_self ..) hi, hback, h.count]
  have hempty : f.poolIsEmpty pool = false := by
    unfold poolIsEmpty
    rw [beq_eq_false_iff_ne]
    omega
  refine ⟨?_, ?_, nodeGet arch f pool i :: ul, ?_, ?_⟩
  · unfold FixedBlock.poolDeallocate
    rw [hindex, if_pos ⟨hempty, hused⟩]
    rfl
  · simp only [gave, setUsed, update_self]
    omega
  · simp only [gave, setUsed, update_self]
    refine ⟨rfl, nodeGet_ne_zero f pool i, ?_⟩
    rw [update_self]
    refine hpath.congr fun x hx => update_of_ne (fun heq => hnotin ?_) _ _
    rw [← heq]
    exact hx
  · intro y
    simp only [gave, setUsed, update_self, mem_cons]
    constructor
    · rintro (rfl | hy)
      · exact ⟨i, hi, update_self .., rfl⟩
      · obtain ⟨j, hj, hfree, rfl⟩ := (hmem y).mp hy
        by_cases hji : j = i
        · exact ⟨i, hi, update_self .., by rw [hji]; rfl⟩
        · exact ⟨j, hj, by rw [update_of_ne hji, hfree], rfl⟩
    · rintro ⟨j, hj, hfree, rfl⟩
      by_cases hji : j = i
      · exact .inl (by rw [hji]; rfl)
      · rw [update_of_ne hji] at hfree
        exact .inr ((hmem _).mpr ⟨j, hj, hfree, rfl⟩)

theorem PoolOk.took_other {pool other i : Nat} (h : PoolOk arch f other) (hne : other ≠ pool) :
    PoolOk arch (f.took arch pool i) other := by
  refine h.congr rfl rfl ?_ ?_ ?_ fun _ _ => rfl
  all_goals simp only [took, setUsed, update_of_ne hne]

theorem PoolOk.gave_other {pool other i : Nat} (h : PoolOk arch f other) (hl : Links arch f l)
    (hp : pool ∈ l) (ho : other ∈ l) (hi : i < f.num pool) (hne : other ≠ pool) :
    PoolOk arch (f.gave arch pool i) other := by
  refine h.congr rfl rfl ?_ ?_ ?_ fun j hj => ?_
  case refine_4 =>
    refine update_of_ne (fun heq => hne ?_) _ _
    exact (hl.node_inj ho hp hj hi heq).1
  all_goals simp only [gave, setUsed, update_of_ne hne]

/-! ## A pool without used blocks -/

theorem linkNodes_other (f : FixedBlock) (pool : Nat) {x : Nat} : ∀ {n : Nat},
    (∀ i < n, x ≠ nodeGet arch f pool i) → linkNodes arch f pool n x = f.node x
  | 0, _ => rfl
  | n + 1, h => by
    rw [linkNodes, update_of_ne (h n (Nat.lt_succ_self n)),
      linkNodes_other f pool fun i hi => h i (Nat.lt_succ_of_lt hi)]

theorem linkNodes_congr (f f' : FixedBlock) (hsize : f'.size = f.size) (hnode : f'.node = f.node)
    (pool : Nat) : ∀ n : Nat, linkNodes arch f' pool n = linkNodes arch f pool n
  | 0 => hnode
  | n + 1 => by
    rw [linkNodes, linkNodes, linkNodes_congr f f' hsize hnode pool n]
    simp only [nodeGet, hsize]

theorem nodeGet_ne (f : FixedBlock) (pool : Nat) {i j : Nat} (hpos : 0 < blockSize arch f.size)
    (h : i ≠ j) : nodeGet arch f pool i ≠ nodeGet arch f pool j := by
  have hlt : i < j ∨ j < i := by omega
  cases hlt with
  | inl hlt => exact (Nat.lt_of_lt_of_le (Nat.lt_add_of_pos_right hpos) (nodeGet_add_le f pool hlt)).ne
  | inr hlt => exact (Nat.lt_of_lt_of_le (Nat.lt_add_of_pos_right hpos) (nodeGet_add_le f pool hlt)).ne'

theorem linkNodes_node (f : FixedBlock) (pool : Nat) (hpos : 0 < blockSize arch f.size) :
    ∀ {n i : Nat}, i < n →
    linkNodes arch f pool n (nodeGet arch f pool i) = nodeGet arch f pool (i + 1)
  | n + 1, i, h => by
    rw [linkNodes]
    by_cases hin : i = n
    · rw [hin, update_self]
    · rw [update_of_ne (nodeGet_ne f pool hpos hin),
        linkNodes_node f pool hpos (Nat.lt_of_le_of_ne (Nat.le_of_lt_succ h) hin)]

/-- The allocator after `mem_allocator_fixed_block_pool_init`. -/
def inited (arch : Arch) (f : FixedBlock) (pool : Nat) : FixedBlock :=
  { f with
    usedNum := Function.update f.usedNum pool 0
    unusedList := Function.update f.unusedList pool (nodeGet arch f pool 0)
    node := Function.update (linkNodes arch f pool (f.num pool - 1))
      (nodeGet arch f pool (f.num pool - 1)) 0
    used := Function.update f.used pool fun i => if i < f.num pool then false else f.used pool i }

theorem inited_node_other (f : FixedBlock) {pool x : Nat} (hnum : 0 < f.num pool)
    (h : ∀ i < f.num pool, x ≠ nodeGet arch f pool i) :
    (f.inited arch pool).node x = f.node x := by
  rw [inited]
  refine (update_of_ne (h _ (by omega)) _ _).trans ?_
  exact linkNodes_other f pool fun i hi => h i (by omega)

theorem inited_path (f : FixedBlock) (pool : Nat) (hpos : 0 < blockSize arch f.size) :
    ∀ {m k : Nat}, k + m + 1 = f.num pool →
    Path (f.inited arch pool).node (nodeGet arch f pool k)
      ((List.range' k (m + 1)).map (nodeGet arch f pool)) 0
  | 0, k, h => by
    refine ⟨rfl, nodeGet_ne_zero f pool k, ?_⟩
    have hk : f.num pool - 1 = k := by omega
    rw [inited]
    simp only [hk, update_self]
    rfl
  | m + 1, k, h => by
    refine ⟨rfl, nodeGet_ne_zero f pool k, ?_⟩
    have hne : k ≠ f.num pool - 1 := by omega
    have hnext : (f.inited arch pool).node (nodeGet arch f pool k) =
        nodeGet arch f pool (k + 1) := by
      rw [inited]
      exact (update_of_ne (nodeGet_ne f pool hpos hne) _ _).trans
        (linkNodes_node f pool hpos (by omega))
    rw [hnext]
    exact inited_path f pool hpos (by omega)

theorem poolOk_inited (f : FixedBlock) {pool : Nat} (hpos : 0 < blockSize arch f.size)
    (hnum : 0 < f.num pool) : PoolOk arch (f.inited arch pool) pool ∧
      ∀ i < f.num pool, (f.inited arch pool).used pool i = false := by
  have hfree : ∀ i < f.num pool, (f.inited arch pool).used pool i = false := by
    intro i hi
    simp only [inited, update_self]
    exact if_pos hi
  refine ⟨⟨?_, (List.range' 0 (f.num pool - 1 + 1)).map (nodeGet arch f pool), ?_, fun x => ?_⟩,
    hfree⟩
  · have hzero : (List.range (f.num pool)).countP ((f.inited arch pool).used pool) = 0 := by
      rw [countP_eq_zero]
      intro i hi
      rw [hfree i (mem_range.mp hi)]
      exact Bool.false_ne_true
    exact (update_self ..).trans hzero.symm
  · have hpath := inited_path f pool hpos (m := f.num pool - 1) (k := 0) (by omega)
    have hhead : (f.inited arch pool).unusedList pool = nodeGet arch f pool 0 :=
      update_self ..
    rw [hhead]
    exact hpath
  · rw [List.mem_map]
    constructor
    · rintro ⟨i, hi, rfl⟩
      have hlt : i < f.num pool := by
        have := mem_range'_1.mp hi
        omega
      exact ⟨i, hlt, hfree i hlt, rfl⟩
    · rintro ⟨i, hi, _, rfl⟩
      have hi' : i < f.num pool := hi
      exact ⟨i, mem_range'_1.mpr (by omega), rfl⟩

theorem poolInit_eq (f : FixedBlock) {pool : Nat} (hnum : 0 < f.num pool)
    (hregion : ∃ r ∈ f.regions, r.addr = pool ∧ poolBytes arch f.size (f.num pool) ≤ r.bytes) :
    poolInit arch f pool = some (f.inited arch pool) := if_pos ⟨hnum, hregion⟩

end Awtk.FixedBlock
