import Awtk.Tkc.TreeForeach

/-!
# Removing nodes

`tree_node_destroy` frees the nodes below a node and no other.  The nodes that
`tree_remove_ex` still has to remove are alive, since it drops those below the removed
one.  The log says that each freed node had its data destroyed once.
-/

namespace Awtk.Tree

open List Option

variable {t t' : Tree} {forest forest' rest : List Siblings} {rank rank' : Nat → Nat}
  {g : Siblings} {a b n : Nat}

/-! ## Ancestors -/

theorem Wf.mem_kids_iff (h : Wf t forest rank) (ha : a ≠ 0) :
    b ∈ kids forest a ↔ b ∈ t.allocated ∧ t.parent b = a := by
  constructor
  · intro hb
    obtain ⟨g, hg, -, hbg⟩ := mem_kids hb
    exact ⟨h.mem_alive hg hbg, h.parent_of_kid hb⟩
  · rintro ⟨hb, rfl⟩
    exact (h.mem_kids_parent hb ha).2

theorem Wf.below_cases (h : Wf t forest rank) (ha : a ∈ t.allocated) (hab : Below forest a b) :
    b = a ∨ t.parent b ≠ 0 ∧ Below forest a (t.parent b) := by
  cases hab with
  | refl => exact .inl rfl
  | @tail c _ hac hcb =>
    have hc := (h.sweepForest.rank_le ha hac).1
    rw [h.parent_of_kid hcb]
    exact .inr ⟨h.ne_zero hc, hac⟩

theorem Wf.below_parent (h : Wf t forest rank) (hb : b ∈ t.allocated) (h0 : t.parent b ≠ 0)
    (hab : Below forest a (t.parent b)) : Below forest a b :=
  hab.tail (h.mem_kids_parent hb h0).2

theorem Wf.below_alive (h : Wf t forest rank) (ha : a ∈ t.allocated) (hab : Below forest a b) :
    b ∈ t.allocated :=
  (h.sweepForest.rank_le ha hab).1

theorem Wf.below_mono (h : Wf t forest rank) (h' : Wf t' forest' rank')
    (hparent : ∀ c ∈ t'.allocated, t'.parent c ≠ 0 → c ∈ t.allocated ∧ t.parent c = t'.parent c)
    (ha : a ∈ t'.allocated) (hab : Below forest' a b) : Below forest a b := by
  induction hab with
  | refl => exact .refl
  | @tail c b hac hcb ih =>
    have hc := h'.below_alive ha hac
    have hc0 := h'.ne_zero hc
    obtain ⟨hb, hbc⟩ := (h'.mem_kids_iff hc0).mp hcb
    obtain ⟨hbt, heq⟩ := hparent b hb (hbc ▸ hc0)
    exact ih.tail ((h.mem_kids_iff hc0).mpr ⟨hbt, heq.trans hbc⟩)

/-- The loop reaches the root, since ranks fall. -/
theorem Wf.ancestorLoop (h : Wf t forest rank) (ha : a ∈ t.allocated) : ∀ {n node : Nat},
    (node ≠ 0 → node ∈ t.allocated) → 0 < n →
    (node ≠ 0 → t.allocated.countP (rank · ≤ rank node) < n) →
    ∃ r, t.ancestorLoop a n node = some r ∧ (r = true ↔ node ≠ 0 ∧ Below forest a node)
  | 0, _, _, hn, _ => absurd hn (Nat.lt_irrefl 0)
  | n + 1, node, halive, _, hcount => by
    rw [Tree.ancestorLoop]
    by_cases h0 : node = 0
    · rw [if_pos h0]
      exact ⟨false, rfl, by simp [h0]⟩
    have hnode := halive h0
    have hn : t.allocated.countP (rank · ≤ rank node) < n + 1 := hcount h0
    have hpos : 0 < t.allocated.countP (rank · ≤ rank node) :=
      countP_pos_iff.mpr ⟨node, hnode, decide_eq_true (Nat.le_refl _)⟩
    rw [if_neg h0]
    by_cases heq : node = a
    · rw [if_pos heq, heq]
      exact ⟨true, rfl, by simp [h.ne_zero ha, Sweep.Below, Relation.ReflTransGen.refl]⟩
    · have hparent (hp : t.parent node ≠ 0) :
          t.allocated.countP (rank · ≤ rank (t.parent node)) < n := by
        obtain ⟨hal, hkid⟩ := h.mem_kids_parent hnode hp
        have hlt := h.sweepForest.countP_lt hal hkid
        omega
      obtain ⟨r, hr, hiff⟩ := h.ancestorLoop ha (fun hp => (h.mem_kids_parent hnode hp).1)
        (by omega : 0 < n) hparent
      rw [if_neg heq, load_eq hnode, bind_some]
      refine ⟨r, hr, hiff.trans ⟨fun hp => ⟨h0, h.below_parent hnode hp.1 hp.2⟩, fun hb => ?_⟩⟩
      exact (h.below_cases ha hb.2).resolve_left heq

theorem Wf.isAncestor (h : Wf t forest rank) (ha : a ∈ t.allocated) (hb : b ∈ t.allocated) :
    ∃ r, t.treeNodeIsAncestor b a = some r ∧ (r = true ↔ b ≠ a ∧ Below forest a b) := by
  obtain ⟨r, hr, hiff⟩ := h.ancestorLoop ha (fun hp => (h.mem_kids_parent hb hp).1)
    (Nat.succ_pos t.allocated.length) fun _ => Nat.lt_succ_of_le countP_le_length
  rw [treeNodeIsAncestor, load_eq hb, bind_some]
  refine ⟨r, hr, hiff.trans ⟨fun hp => ⟨?_, h.below_parent hb hp.1 hp.2⟩, fun hab => ?_⟩⟩
  · rintro rfl
    obtain ⟨hal, hkid⟩ := h.mem_kids_parent hb hp.1
    have hlt := h.sweepForest.rank_lt _ hal b hkid
    have hle := (h.sweepForest.rank_le ha hp.2).2
    omega
  · exact (h.below_cases ha hab.2).resolve_left hab.1

/-! ## Freed nodes -/

/-- The log tells what happened to each node: it is freed at most once, and its data are
destroyed once when it is. -/
structure Logged (t : Tree) : Prop where
  serial_lt : ∀ a ∈ t.allocated, t.serial a < t.count
  serial_inj : ∀ a ∈ t.allocated, ∀ b ∈ t.allocated, t.serial a = t.serial b → a = b
  created : ∀ a ∈ t.allocated, .created (t.serial a) (t.node a).data ∈ t.log
  created_lt : ∀ s d, .created s d ∈ t.log → s < t.count
  created_unique : ∀ s d d', .created s d ∈ t.log → .created s d' ∈ t.log → d = d'
  freed_lt : ∀ s, .freed s ∈ t.log → s < t.count
  freed_iff : ∀ s < t.count, .freed s ∈ t.log ↔ ∀ a ∈ t.allocated, t.serial a ≠ s
  freed_once : ∀ s, t.log.count (.freed s) ≤ 1
  destroyed : ∀ s d, t.log.count (.dataDestroyed s d) =
    if d ≠ 0 ∧ .created s d ∈ t.log ∧ .freed s ∈ t.log then 1 else 0

/-- The nodes are freed. -/
structure Frees (t t' : Tree) (nodes : List Nat) : Prop where
  alive : ∀ a, a ∈ t'.allocated ↔ a ∈ t.allocated ∧ a ∉ nodes
  nodup : t'.allocated.Nodup
  node : t'.node = t.node
  root : t'.root = t.root
  logged : Logged t'

/-- The nodes leave the memory, and the others stay as they are. -/
structure Leaves (t t' : Tree) (nodes : List Nat) : Prop where
  alive : ∀ a, a ∈ t'.allocated ↔ a ∈ t.allocated ∧ a ∉ nodes
  nodup : t'.allocated.Nodup
  node : t'.node = t.node

theorem Frees.leaves {nodes : List Nat} (hf : Frees t t' nodes) : Leaves t t' nodes :=
  ⟨hf.alive, hf.nodup, hf.node⟩

/-- The call of the destroy function, where there are data. -/
def dataEvents (s data : Nat) : List Event := if data ≠ 0 then [.dataDestroyed s data] else []

theorem mem_dataEvents {s data : Nat} {e : Event} :
    e ∈ dataEvents s data ↔ data ≠ 0 ∧ e = .dataDestroyed s data := by
  unfold dataEvents
  split_ifs with hd
  · rw [mem_singleton, and_iff_right hd]
  · simp [hd]

theorem count_freed_dataEvents (s s' data : Nat) : (dataEvents s data).count (.freed s') = 0 :=
  count_eq_zero.mpr fun h => by simp [mem_dataEvents] at h

theorem count_dataEvents (s data s' d : Nat) : (dataEvents s data).count (.dataDestroyed s' d) =
    if data ≠ 0 ∧ s' = s ∧ d = data then 1 else 0 := by
  unfold dataEvents
  by_cases hd : data ≠ 0
  · rw [if_pos hd, count_singleton]
    refine if_congr ?_ rfl rfl
    rw [beq_iff_eq, Event.dataDestroyed.injEq, eq_comm (a := s), eq_comm (a := data)]
    exact (and_iff_right hd).symm
  · rw [if_neg hd]
    simp [hd]

theorem treeNodeDestroyImpl_eq (ha : a ∈ t.allocated) :
    t.treeNodeDestroyImpl a = some { t with
      allocated := t.allocated.erase a
      log := .freed (t.serial a) :: (dataEvents (t.serial a) (t.node a).data ++ t.log) } := by
  unfold treeNodeDestroyImpl dataEvents
  rw [load_eq ha, map_some]
  by_cases hd : (t.node a).data ≠ 0
  · rw [if_pos hd]
    dsimp only
    rw [if_pos hd]
    rfl
  · rw [if_neg hd]
    dsimp only
    rw [if_neg hd]
    rfl

theorem Logged.destroyImpl (h : Logged t) (hnodup : t.allocated.Nodup) (ha : a ∈ t.allocated) :
    ∃ t', t.treeNodeDestroyImpl a = some t' ∧ Frees t t' [a] := by
  have hout : Event.freed (t.serial a) ∉ t.log :=
    fun hmem => (h.freed_iff _ (h.serial_lt a ha)).mp hmem a ha rfl
  have hcreated := h.created a ha
  have hmem (b : Nat) : b ∈ t.allocated.erase a ↔ b ≠ a ∧ b ∈ t.allocated := hnodup.mem_erase_iff
  have hcr (s d : Nat) : .created s d ∈
      (.freed (t.serial a) :: (dataEvents (t.serial a) (t.node a).data ++ t.log) : List Event) ↔
      .created s d ∈ t.log := by
    simp [mem_dataEvents]
  have hfr (s : Nat) : .freed s ∈
      (.freed (t.serial a) :: (dataEvents (t.serial a) (t.node a).data ++ t.log) : List Event) ↔
      s = t.serial a ∨ .freed s ∈ t.log := by
    simp [mem_dataEvents]
  refine ⟨_, treeNodeDestroyImpl_eq ha, fun b => ?_, hnodup.erase a, rfl, rfl, ?_⟩
  · rw [hmem, mem_singleton, and_comm]
  refine ⟨fun b hb => ?_, fun b hb c hc heq => ?_, fun b hb => ?_, fun s d hc => ?_,
    fun s d d' hc hc' => ?_, fun s hf => ?_, fun s hs => ?_, fun s => ?_, fun s d => ?_⟩
  · exact h.serial_lt b ((hmem b).mp hb).2
  · exact h.serial_inj b ((hmem b).mp hb).2 c ((hmem c).mp hc).2 heq
  · exact (hcr _ _).mpr (h.created b ((hmem b).mp hb).2)
  · exact h.created_lt s d ((hcr s d).mp hc)
  · exact h.created_unique s d d' ((hcr s d).mp hc) ((hcr s d').mp hc')
  · cases (hfr s).mp hf with
    | inl heq => exact heq ▸ h.serial_lt a ha
    | inr hold => exact h.freed_lt s hold
  · rw [hfr, h.freed_iff s hs]
    constructor
    · rintro hor b hb rfl
      obtain ⟨hne, hal⟩ := (hmem b).mp hb
      cases hor with
      | inl heq => exact hne (h.serial_inj b hal a ha heq)
      | inr hall => exact hall b hal rfl
    · intro hall
      by_cases heq : s = t.serial a
      · exact .inl heq
      · refine .inr fun b hb hsb => ?_
        by_cases hba : b = a
        · exact heq (hba ▸ hsb.symm)
        · exact hall b ((hmem b).mpr ⟨hba, hb⟩) hsb
  · rw [count_cons, count_append, count_freed_dataEvents, Nat.zero_add]
    by_cases heq : s = t.serial a
    · rw [heq, count_eq_zero.mpr hout]
      simp
    · have hne : ¬(Event.freed (t.serial a) == Event.freed s) = true := by simp [Ne.symm heq]
      rw [if_neg hne]
      exact h.freed_once s
  · have hne : ¬(Event.freed (t.serial a) == Event.dataDestroyed s d) = true := by simp
    rw [count_cons, count_append, count_dataEvents, if_neg hne, Nat.add_zero,
      h.destroyed s d, if_congr (and_congr_right fun _ => and_congr (hcr s d) (hfr s)) rfl rfl]
    by_cases heq : s = t.serial a
    · subst heq
      have hold : ¬(d ≠ 0 ∧ .created (t.serial a) d ∈ t.log ∧ .freed (t.serial a) ∈ t.log) :=
        fun hc => hout hc.2.2
      rw [if_neg hold, Nat.add_zero]
      refine if_congr ⟨?_, ?_⟩ rfl rfl
      · rintro ⟨hd, -, rfl⟩
        exact ⟨hd, hcreated, .inl rfl⟩
      · rintro ⟨hd, hc, -⟩
        have hdata := h.created_unique _ _ _ hc hcreated
        exact ⟨hdata ▸ hd, rfl, hdata⟩
    · have hother : ¬((t.node a).data ≠ 0 ∧ s = t.serial a ∧ d = (t.node a).data) :=
        fun hc => heq hc.2.1
      rw [if_neg hother, Nat.zero_add]
      exact if_congr (and_congr_right fun _ => and_congr_right fun _ => (or_iff_right heq).symm) rfl rfl

theorem Logged.destroyNodes (h : Logged t) (halive : t.allocated.Nodup) {nodes : List Nat}
    (hnodup : nodes.Nodup) (hmem : ∀ a ∈ nodes, a ∈ t.allocated) :
    ∃ t', t.destroyNodes nodes = some t' ∧ Frees t t' nodes := by
  induction nodes generalizing t with
  | nil => exact ⟨t, rfl, fun a => by simp, halive, rfl, rfl, h⟩
  | cons a nodes ih =>
    obtain ⟨ha, hnodup⟩ := nodup_cons.mp hnodup
    obtain ⟨t₁, ht₁, hf₁⟩ := h.destroyImpl halive (hmem a mem_cons_self)
    obtain ⟨t', ht', hf⟩ := ih hf₁.logged hf₁.nodup hnodup fun b hb =>
      (hf₁.alive b).mpr ⟨hmem b (mem_cons_of_mem a hb), fun heq =>
        ha (mem_singleton.mp heq ▸ hb)⟩
    refine ⟨t', ?_, fun b => ?_, hf.nodup, hf.node.trans hf₁.node, hf.root.trans hf₁.root,
      hf.logged⟩
    · rw [Tree.destroyNodes, ht₁, bind_some, ht']
    · rw [hf.alive, hf₁.alive, and_assoc, mem_singleton, mem_cons, not_or]

/-- Groups of nodes that are freed with all below them. -/
theorem Wf.free (h : Wf t forest rank) {nodes : List Nat} (hf : Leaves t t' nodes)
    (hgroup : ∀ g ∈ forest, ∀ a ∈ g.nodes, a ∈ nodes → ∀ b ∈ g.nodes, b ∈ nodes)
    (hdown : ∀ g ∈ forest, g.parent ∈ nodes → ∀ a ∈ g.nodes, a ∈ nodes)
    (hup : ∀ g ∈ forest, ∀ a ∈ g.nodes, a ∈ nodes → g.parent ≠ 0 → g.parent ∈ nodes) :
    Wf t' (forest.filter fun g => ∀ a ∈ g.nodes, a ∉ nodes) rank := by
  have hmem (g : Siblings) : (g ∈ forest.filter fun g => ∀ a ∈ g.nodes, a ∉ nodes) ↔
      g ∈ forest ∧ ∀ a ∈ g.nodes, a ∉ nodes := by
    rw [mem_filter, decide_eq_true_eq]
  have hsub {g : Siblings} (hg : g ∈ forest.filter fun g => ∀ a ∈ g.nodes, a ∉ nodes) : g ∈ forest :=
    ((hmem g).mp hg).1
  refine ⟨?_, hf.nodup, fun h0 => h.nonnull ((hf.alive 0).mp h0).1, fun g hg => h.nonempty g (hsub hg),
    fun g hg => ?_, fun g hg a ha => ?_, fun g hg h0 => ?_, fun a ha hc => ?_,
    fun g hg => h.rank_lt g (hsub hg)⟩
  · refine (perm_ext_iff_of_nodup hf.nodup ?_).mpr fun a => ?_
    · exact Nodup.sublist (filter_sublist.flatMap _) h.flat_nodup
    · rw [hf.alive, mem_flatMap]
      constructor
      · rintro ⟨ha, hout⟩
        obtain ⟨g, hg, hag⟩ := h.group ha
        exact ⟨g, (hmem g).mpr ⟨hg, fun b hb hbn => hout (hgroup g hg b hb hbn a hag)⟩, hag⟩
      · rintro ⟨g, hg, hag⟩
        exact ⟨h.mem_alive (hsub hg) hag, ((hmem g).mp hg).2 a hag⟩
  · refine (h.linked g (hsub hg)).congr fun a _ => ?_
    rw [next, prev, hf.node]
    exact ⟨rfl, rfl⟩
  · rw [parent, hf.node]
    exact h.parent_eq g (hsub hg) a ha
  · obtain ⟨hp, hc⟩ := h.child_mem g (hsub hg) h0
    rw [hf.alive, child, hf.node]
    exact ⟨⟨hp, fun hpn => ((hmem g).mp hg).2 _ hc (hdown g (hsub hg) hpn _ hc)⟩, hc⟩
  · rw [child, hf.node] at hc
    obtain ⟨hal, hout⟩ := (hf.alive a).mp ha
    obtain ⟨g, hg, rfl⟩ := h.leaf a hal hc
    exact ⟨g, (hmem g).mpr ⟨hg, fun b hb hbn => hout (hup g hg b hb hbn (h.ne_zero hal))⟩, rfl⟩

theorem Wf.free_below (h : Wf t forest rank) (hn : ⟨0, [n]⟩ ∈ forest) {nodes : List Nat}
    (hv : Visits forest n nodes) (hf : Leaves t t' nodes) :
    Wf t' (forest.filter fun g => ∀ a ∈ g.nodes, a ∉ nodes) rank := by
  have hna : n ∈ t.allocated := h.mem_alive hn (mem_singleton_self n)
  have hgn {g : Siblings} (hg : g ∈ forest) (hgn : n ∈ g.nodes) : g = ⟨0, [n]⟩ :=
    h.group_unique hn hg (mem_singleton_self n) hgn
  have hdown (g : Siblings) (hg : g ∈ forest) (hp : g.parent ∈ nodes) (b : Nat) (hb : b ∈ g.nodes) :
      b ∈ nodes := by
    have hbelow := (hv.mem_iff _).mp hp
    have h0 := h.ne_zero (h.below_alive hna hbelow)
    have hparent := h.parent_eq g hg b hb
    exact (hv.mem_iff b).mpr
      (h.below_parent (h.mem_alive hg hb) (hparent ▸ h0) (hparent.symm ▸ hbelow))
  refine h.free hf (fun g hg a ha han b hb => ?_) hdown fun g hg a ha han h0 => ?_
  · rcases h.below_cases hna ((hv.mem_iff a).mp han) with rfl | ⟨_, hp⟩
    · rw [hgn hg ha, mem_singleton] at hb
      exact hb ▸ han
    · rw [h.parent_eq g hg a ha] at hp
      exact hdown g hg ((hv.mem_iff _).mpr hp) b hb
  · rcases h.below_cases hna ((hv.mem_iff a).mp han) with rfl | ⟨_, hp⟩
    · exact absurd (congrArg Siblings.parent (hgn hg ha)) h0
    · rw [h.parent_eq g hg a ha] at hp
      exact (hv.mem_iff _).mpr hp

theorem Logged.relinks (h : Logged t) (hr : Relinks t t') : Logged t' := by
  have hsame := hr.same
  have hdata := hr.data
  rw [SameBut] at hsame
  have halloc : t'.allocated = t.allocated := by rw [hsame]
  have hserial : t'.serial = t.serial := by rw [hsame]
  have hlog : t'.log = t.log := by rw [hsame]
  have hcount : t'.count = t.count := by rw [hsame]
  refine ⟨?_, ?_, fun a ha => ?_, ?_, ?_, ?_, ?_, ?_, ?_⟩
  · rw [halloc, hserial, hcount]
    exact h.serial_lt
  · rw [halloc, hserial]
    exact h.serial_inj
  · rw [halloc] at ha
    rw [hserial, hlog, hdata a ha]
    exact h.created a ha
  · rw [hlog, hcount]
    exact h.created_lt
  · rw [hlog]
    exact h.created_unique
  · rw [hlog, hcount]
    exact h.freed_lt
  · rw [hlog, hcount, halloc, hserial]
    exact h.freed_iff
  · rw [hlog]
    exact h.freed_once
  · rw [hlog]
    exact h.destroyed

/-! ## Destroying a node -/

/-- A node is destroyed with what is below it. -/
structure Destroys (t t' : Tree) (forest forest' : List Siblings) (rank : Nat → Nat) (n : Nat) :
    Prop where
  wf : Wf t' forest' rank
  logged : Logged t'
  root : t'.root = t.root
  sub : ∀ b ∈ t'.allocated, b ∈ t.allocated ∧ t'.parent b = t.parent b
  dead : n ∉ t'.allocated
  kept : ∀ b ∈ t.allocated, ¬Below forest n b → b ∈ t'.allocated
  single : ∀ r, r ≠ n → ⟨0, [r]⟩ ∈ forest → ⟨0, [r]⟩ ∈ forest'

theorem Wf.destroy (h : Wf t forest rank) (hlog : Logged t) (hn : n ∈ t.allocated) :
    ∃ t' forest', t.treeNodeDestroy n = some t' ∧ Destroys t t' forest forest' rank n := by
  obtain ⟨⟨p, nodes⟩, hg, hng⟩ := h.group hn
  obtain ⟨l₁, l₂, rfl⟩ := append_of_mem hng
  obtain ⟨rest, hwf, hperm⟩ := h.split hg
  obtain ⟨t₁, ht₁, hr⟩ := hwf.unlinked
  have hwf₁ := hwf.unlink hr
  have hrelinks : Relinks t t₁ := ⟨hr.same, fun b hb => by rw [hr.node b hb, unlinkedNode]⟩
  have halloc₁ : t₁.allocated = t.allocated := by rw [hr.same]
  have hparent₁ {b : Nat} (hb : b ∈ t.allocated) : t₁.parent b = if b = n then 0 else t.parent b := by
    rw [parent, hr.node b hb, unlinkedNode]
  obtain ⟨visited, hvis, hv⟩ := hwf₁.postorder (halloc₁.symm ▸ hn)
  have hsubset (b : Nat) (hb : b ∈ visited ++ [n]) : b ∈ t₁.allocated :=
    hwf₁.below_alive (halloc₁.symm ▸ hn) ((hv.mem_iff b).mp hb)
  obtain ⟨t', ht', hf⟩ := (hlog.relinks hrelinks).destroyNodes hwf₁.nodup hv.nodup hsubset
  have hsub (b : Nat) (hb : b ∈ t'.allocated) : b ∈ t.allocated ∧ b ∉ visited ++ [n] :=
    halloc₁ ▸ (hf.alive b).mp hb
  refine ⟨t', _, ?_, hwf₁.free_below mem_cons_self hv hf.leaves, hf.logged, ?_, fun b hb => ?_,
    fun hal => ?_, fun b hb hbelow => ?_, fun r hrn hrf => ?_⟩
  · unfold treeNodeDestroy
    simp only [bind_eq_bind, ht₁, bind_some, hvis, ht']
  · rw [hf.root, hr.same]
  · obtain ⟨hal, hout⟩ := hsub b hb
    refine ⟨hal, ?_⟩
    rw [parent, hf.node]
    exact (hparent₁ hal).trans (if_neg fun heq => hout (by simp [heq]))
  · exact (hsub n hal).2 (by simp)
  · refine (hf.alive b).mpr ⟨halloc₁.symm ▸ hb, fun hmem => hbelow ?_⟩
    refine h.below_mono hwf₁ (fun c hc hc0 => ?_) (halloc₁.symm ▸ hn) ((hv.mem_iff b).mp hmem)
    rw [halloc₁] at hc
    rw [hparent₁ hc] at hc0 ⊢
    by_cases hcn : c = n
    · exact absurd (if_pos hcn) hc0
    · exact ⟨hc, (if_neg hcn).symm⟩
  · have hrest : (⟨0, [r]⟩ : Siblings) ∈ rest := by
      cases mem_cons.mp (hperm.mem_iff.mpr hrf) with
      | inl heq =>
        have hnodes : [r] = l₁ ++ n :: l₂ := congrArg Siblings.nodes heq
        have hmem : n ∈ [r] := by
          rw [hnodes]
          simp
        exact absurd (mem_singleton.mp hmem).symm hrn
      | inr hrest => exact hrest
    have hra := h.mem_alive hrf (mem_singleton_self r)
    rw [mem_filter, decide_eq_true_eq]
    refine ⟨mem_append_right _ hrest, fun a ha hmem => ?_⟩
    obtain rfl := mem_singleton.mp ha
    rcases hwf₁.below_cases (halloc₁.symm ▸ hn) ((hv.mem_iff a).mp hmem) with heq | ⟨h0, -⟩
    · exact hrn heq
    · rw [hparent₁ hra, if_neg hrn] at h0
      exact h0 (h.parent_eq _ hrf a (mem_singleton_self a))

/-! ## Removing matches -/

/-- The root is NULL or a single node without a parent. -/
def Rooted (t : Tree) (forest : List Siblings) : Prop := t.root = 0 ∨ ⟨0, [t.root]⟩ ∈ forest

/-- The links are those of ordered trees, and the log is in order. -/
def Sound (t : Tree) : Prop := ∃ forest rank, Wf t forest rank ∧ Rooted t forest ∧ Logged t

theorem Destroys.sound (hd : Destroys t t' forest forest' rank n) (hroot : Rooted t forest)
    (hn : n ≠ t.root) : Rooted t' forest' := by
  unfold Rooted
  rw [hd.root]
  exact hroot.imp_right (hd.single t.root hn.symm)

theorem Wf.removeDescendants (h : Wf t forest rank) (ha : a ∈ t.allocated) : ∀ {nodes : List Nat},
    (∀ b ∈ nodes, b ∈ t.allocated) → ∃ kept, t.removeDescendants a nodes = some kept ∧
      kept.Sublist nodes ∧ ∀ b ∈ kept, b ≠ a → ¬Below forest a b
  | [], _ => ⟨[], rfl, List.Sublist.slnil, fun _ hb => absurd hb not_mem_nil⟩
  | b :: nodes, hmem => by
    obtain ⟨r, hr, hiff⟩ := h.isAncestor ha (hmem b mem_cons_self)
    obtain ⟨kept, hkept, hsub, hout⟩ :=
      h.removeDescendants ha fun c hc => hmem c (mem_cons_of_mem b hc)
    refine ⟨if r then kept else b :: kept, ?_, ?_, fun c hc hca => ?_⟩
    · rw [Tree.removeDescendants]
      simp only [bind_eq_bind, hr, bind_some, hkept]
      rfl
    · cases r with
      | true => exact hsub.cons b
      | false => exact hsub.cons_cons b
    · cases r with
      | true => exact hout c hc hca
      | false =>
        rcases mem_cons.mp hc with rfl | hc
        · exact fun hbelow => Bool.false_ne_true (hiff.mpr ⟨hca, hbelow⟩)
        · exact hout c hc hca

/-- The nodes that are still to be removed stay alive. -/
theorem removeLoop_sound : ∀ {n : Nat} {t : Tree} {nodes : List Nat}, Sound t → nodes.length ≤ n →
    nodes.Nodup → (∀ a ∈ nodes, a ∈ t.allocated) → t.root ∉ nodes →
    ∃ t', removeLoop n t nodes = some t' ∧ Sound t'
  | n, t, [], hs, _, _, _, _ => ⟨t, by cases n <;> rfl, hs⟩
  | 0, _, _ :: _, _, hn, _, _, _ => absurd hn (Nat.not_succ_le_zero _)
  | n + 1, t, iter :: nodes, ⟨forest, rank, h, hroot, hlog⟩, hn, hnodup, hmem, hout => by
    obtain ⟨hiter, hnodup⟩ := nodup_cons.mp hnodup
    have halive := hmem iter mem_cons_self
    obtain ⟨kept, hkept, hsub, hbelow⟩ :=
      h.removeDescendants halive fun b hb => hmem b (mem_cons_of_mem iter hb)
    obtain ⟨t₁, forest₁, ht₁, hd⟩ := h.destroy hlog halive
    have hne : iter ≠ t.root := fun heq => hout (heq ▸ mem_cons_self)
    have hkeptAlive (b : Nat) (hb : b ∈ kept) : b ∈ t₁.allocated := by
      have hbn := hsub.subset hb
      have hbi : b ≠ iter := fun heq => hiter (heq ▸ hbn)
      exact hd.kept b (hmem b (mem_cons_of_mem iter hbn)) (hbelow b hb hbi)
    obtain ⟨t', ht', hs'⟩ := removeLoop_sound (n := n)
      ⟨forest₁, rank, hd.wf, hd.sound hroot hne, hd.logged⟩
      (Nat.le_trans hsub.length_le (Nat.le_of_succ_le_succ hn)) (hsub.nodup hnodup) hkeptAlive
      (by rw [hd.root]; exact fun hr => hout (mem_cons_of_mem iter (hsub.subset hr)))
    refine ⟨t', ?_, hs'⟩
    rw [removeLoop]
    simp only [bind_eq_bind, hkept, bind_some, treeRemoveNode,
      if_neg (h.ne_zero halive), ht₁, map_some, ht']

theorem removeList_sublist (compare : Nat → Nat → Int) (ctx : Nat) : ∀ (k : Nat) (nodes : List Nat),
    (t.removeList compare ctx k nodes).Sublist nodes ∧
      ∀ a ∈ t.removeList compare ctx k nodes, compare (t.node a).data ctx = 0
  | 0, [] => ⟨List.Sublist.slnil, fun _ ha => absurd ha not_mem_nil⟩
  | k + 1, [] => ⟨List.Sublist.slnil, fun _ ha => absurd ha not_mem_nil⟩
  | 0, _ :: nodes => ⟨nil_sublist _, fun _ ha => absurd ha not_mem_nil⟩
  | k + 1, node :: nodes => by
    rw [removeList]
    split_ifs with hc
    · obtain ⟨hsub, hmatch⟩ := removeList_sublist compare ctx k nodes
      refine ⟨hsub.cons_cons node, fun a ha => ?_⟩
      rcases mem_cons.mp ha with rfl | ha
      · exact hc
      · exact hmatch a ha
    · obtain ⟨hsub, hmatch⟩ := removeList_sublist compare ctx (k + 1) nodes
      exact ⟨hsub.cons node, hmatch⟩

theorem removeList_append (compare : Nat → Nat → Int) (ctx : Nat) (a : Nat) :
    ∀ {k : Nat} {nodes : List Nat},
    k ≤ nodes.countP (fun b => compare (t.node b).data ctx = 0) →
    t.removeList compare ctx k (nodes ++ [a]) = t.removeList compare ctx k nodes
  | 0, nodes, _ => by cases nodes <;> rfl
  | k + 1, [], h => absurd h (Nat.not_succ_le_zero k)
  | k + 1, node :: nodes, h => by
    rw [cons_append, removeList, removeList]
    by_cases hc : compare (t.node node).data ctx = 0
    · rw [countP_cons, if_pos (decide_eq_true hc)] at h
      rw [if_pos hc, if_pos hc, removeList_append compare ctx a (Nat.le_of_succ_le_succ h)]
    · rw [countP_cons, if_neg (by rw [decide_eq_true_eq]; exact hc)] at h
      rw [if_neg hc, if_neg hc, removeList_append compare ctx a h]

end Awtk.Tree
