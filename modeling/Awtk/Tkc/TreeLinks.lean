import Mathlib
import Awtk.Lib.DList
import Awtk.Tkc.Tree

/-!
# The links of a tree

`Wf` says that the links are those of ordered trees: the nodes come in groups of
siblings that are linked both ways, and the parent of a group has one of them as its
child.  Ranks grow downwards, so no node is above itself.  There is one lemma for what a
function writes, and one for what that makes of the groups.
-/

namespace Awtk.Tree

open DList Function List Option

/-- Nodes with one parent in their order.  The parent of unlinked nodes is NULL. -/
structure Siblings where
  parent : Nat
  nodes : List Nat
  deriving DecidableEq

/-- The links are those of ordered trees. -/
structure Wf (t : Tree) (forest : List Siblings) (rank : Nat → Nat) : Prop where
  alive : t.allocated.Perm (forest.flatMap Siblings.nodes)
  nodup : t.allocated.Nodup
  nonnull : 0 ∉ t.allocated
  nonempty : ∀ g ∈ forest, g.nodes ≠ []
  linked : ∀ g ∈ forest, Seg t.next t.prev 0 g.nodes 0
  parent_eq : ∀ g ∈ forest, ∀ a ∈ g.nodes, t.parent a = g.parent
  child_mem : ∀ g ∈ forest, g.parent ≠ 0 → g.parent ∈ t.allocated ∧ t.child g.parent ∈ g.nodes
  leaf : ∀ a ∈ t.allocated, t.child a ≠ 0 → ∃ g ∈ forest, g.parent = a
  rank_lt : ∀ g ∈ forest, g.parent ≠ 0 → ∀ a ∈ g.nodes, rank g.parent < rank a

variable {t t' : Tree} {forest rest : List Siblings} {rank : Nat → Nat} {g : Siblings}
  {a b n : Nat} {l₁ l₂ : List Nat}

/-! ## Groups -/

theorem Wf.perm (h : Wf t forest rank) {forest' : List Siblings} (hperm : forest'.Perm forest) :
    Wf t forest' rank := by
  have hmem (g : Siblings) : g ∈ forest' ↔ g ∈ forest := hperm.mem_iff
  refine ⟨h.alive.trans (hperm.symm.flatMap_right _), h.nodup, h.nonnull, ?_, ?_, ?_, ?_, ?_, ?_⟩
  · exact fun g hg => h.nonempty g ((hmem g).mp hg)
  · exact fun g hg => h.linked g ((hmem g).mp hg)
  · exact fun g hg => h.parent_eq g ((hmem g).mp hg)
  · exact fun g hg => h.child_mem g ((hmem g).mp hg)
  · intro a ha hc
    obtain ⟨g, hg, hga⟩ := h.leaf a ha hc
    exact ⟨g, (hmem g).mpr hg, hga⟩
  · exact fun g hg => h.rank_lt g ((hmem g).mp hg)

theorem Wf.mem_alive (h : Wf t forest rank) (hg : g ∈ forest) (ha : a ∈ g.nodes) :
    a ∈ t.allocated :=
  h.alive.mem_iff.mpr (mem_flatMap.mpr ⟨g, hg, ha⟩)

theorem Wf.group (h : Wf t forest rank) (ha : a ∈ t.allocated) : ∃ g ∈ forest, a ∈ g.nodes :=
  mem_flatMap.mp (h.alive.mem_iff.mp ha)

theorem Wf.ne_zero (h : Wf t forest rank) (ha : a ∈ t.allocated) : a ≠ 0 :=
  fun heq => h.nonnull (heq ▸ ha)

theorem Wf.flat_nodup (h : Wf t forest rank) : (forest.flatMap Siblings.nodes).Nodup :=
  h.alive.nodup_iff.mp h.nodup

theorem Wf.nodes_nodup (h : Wf t forest rank) (hg : g ∈ forest) : g.nodes.Nodup :=
  (nodup_flatMap.mp h.flat_nodup).1 g hg

/-- A group can be put in front of the others. -/
theorem Wf.split (h : Wf t forest rank) (hg : g ∈ forest) :
    ∃ rest, Wf t (g :: rest) rank ∧ (g :: rest).Perm forest := by
  obtain ⟨l₁, l₂, rfl⟩ := append_of_mem hg
  have hperm : (g :: (l₁ ++ l₂)).Perm (l₁ ++ g :: l₂) := perm_middle.symm
  exact ⟨l₁ ++ l₂, h.perm hperm, hperm⟩

/-- The groups have no node in common. -/
theorem Wf.disjoint (h : Wf t (g :: rest) rank) {g' : Siblings} (hg' : g' ∈ rest)
    (ha : a ∈ g'.nodes) : a ∉ g.nodes := by
  intro hag
  have hnodup := h.flat_nodup
  rw [flatMap_cons, nodup_append] at hnodup
  exact hnodup.2.2 a hag a (mem_flatMap.mpr ⟨g', hg', ha⟩) rfl

theorem Wf.group_unique (h : Wf t forest rank) {g' : Siblings} (hg : g ∈ forest)
    (hg' : g' ∈ forest) (ha : a ∈ g.nodes) (ha' : a ∈ g'.nodes) : g' = g := by
  obtain ⟨rest, hwf, hperm⟩ := h.split hg
  cases mem_cons.mp (hperm.mem_iff.mpr hg') with
  | inl heq => exact heq
  | inr hrest => exact absurd ha (hwf.disjoint hrest ha')

theorem Wf.parent_unique (h : Wf t forest rank) {g' : Siblings} (hg : g ∈ forest)
    (hg' : g' ∈ forest) (h0 : g.parent ≠ 0) (heq : g'.parent = g.parent) : g' = g := by
  have hc := (h.child_mem g hg h0).2
  have hc' := (h.child_mem g' hg' (heq ▸ h0)).2
  rw [heq] at hc'
  exact h.group_unique hg hg' hc hc'

theorem Wf.parent_ne (h : Wf t (g :: rest) rank) {g' : Siblings} (hg' : g' ∈ rest)
    (h0 : g'.parent ≠ 0) : g'.parent ≠ g.parent := by
  intro heq
  have hmem := mem_cons_of_mem g hg'
  have hc := (h.child_mem g' hmem h0).2
  rw [← h.parent_unique hmem mem_cons_self h0 heq.symm] at hc
  exact h.disjoint hg' (h.child_mem g' hmem h0).2 (h.parent_unique hmem mem_cons_self h0 heq.symm ▸ hc)

/-! ## Writes -/

/-- Write fields of a node. -/
def put (t : Tree) (a : Nat) (f : TreeNode → TreeNode) : Tree :=
  { t with node := Function.update t.node a (f (t.node a)) }

/-- Write fields of a node where the pointer is not NULL. -/
def putIf (t : Tree) (a : Nat) (f : TreeNode → TreeNode) : Tree := if a ≠ 0 then t.put a f else t

theorem load_eq (h : a ∈ t.allocated) : t.load a = some (t.node a) := if_pos h

theorem store_eq (h : a ∈ t.allocated) (f : TreeNode → TreeNode) : t.store a f = some (t.put a f) :=
  if_pos h

theorem storeIf_eq (h : a ≠ 0 → a ∈ t.allocated) (f : TreeNode → TreeNode) :
    t.storeIf a f = some (t.putIf a f) := by
  unfold storeIf putIf
  by_cases h0 : a ≠ 0
  · rw [if_pos h0, if_pos h0, store_eq (h h0)]
  · rw [if_neg h0, if_neg h0]

@[simp] theorem put_allocated (f : TreeNode → TreeNode) : (t.put a f).allocated = t.allocated := rfl

@[simp] theorem putIf_allocated (f : TreeNode → TreeNode) :
    (t.putIf a f).allocated = t.allocated := by
  unfold putIf
  split <;> rfl

theorem put_node (f : TreeNode → TreeNode) (b : Nat) :
    (t.put a f).node b = if b = a then f (t.node b) else t.node b := by
  show Function.update t.node a (f (t.node a)) b = _
  rw [update_apply]
  by_cases hb : b = a
  · rw [if_pos hb, if_pos hb, hb]
  · rw [if_neg hb, if_neg hb]

theorem putIf_node (f : TreeNode → TreeNode) (b : Nat) :
    (t.putIf a f).node b = if b = a ∧ a ≠ 0 then f (t.node b) else t.node b := by
  unfold putIf
  by_cases h0 : a ≠ 0
  · rw [if_pos h0, put_node]
    exact if_congr (and_iff_left h0).symm rfl rfl
  · rw [if_neg h0, if_neg fun h => h0 h.2]

/-- The nodes changed only. -/
def SameBut (t t' : Tree) : Prop := t' = { t with node := t'.node }

/-- What `tree_node_unlink` writes. -/
def unlinkedNode (t : Tree) (n b : Nat) : TreeNode := {
  data := (t.node b).data
  parent := if b = n then 0 else t.parent b
  prevSibling := if b = n then 0 else if b = t.next n then t.prev n else t.prev b
  nextSibling := if b = n then 0 else if b = t.prev n then t.next n else t.next b
  child := if b = t.parent n ∧ t.child b = n then if t.prev n ≠ 0 then t.prev n else t.next n
    else t.child b }

theorem sameBut_put (f : TreeNode → TreeNode) : SameBut t (t.put a f) := rfl

theorem sameBut_putIf (f : TreeNode → TreeNode) : SameBut t (t.putIf a f) := by
  unfold putIf
  split
  · rfl
  · rfl

theorem SameBut.trans {t'' : Tree} (h : SameBut t t') (h' : SameBut t' t'') : SameBut t t'' := by
  unfold SameBut at *
  rw [h', h]

/-- The nodes changed, and each one from `t` to what `f` says. -/
structure Rewrites (t t' : Tree) (f : Nat → TreeNode) : Prop where
  same : SameBut t t'
  node : ∀ b ∈ t.allocated, t'.node b = f b

theorem unlinkChild_eq (hp : t.parent n ∈ t.allocated) :
    ∃ t', t.unlinkChild n (t.node n) = some t' ∧ Rewrites t t' fun b =>
      { t.node b with child := (unlinkedNode t n b).child } := by
  unfold unlinkChild
  change ∃ t', ((t.load (t.parent n)).bind fun p =>
    if p.child = n then t.store (t.parent n) _ else some t) = some t' ∧ _
  rw [load_eq hp, bind_some]
  by_cases hchild : t.child (t.parent n) = n
  · rw [if_pos (show (t.node (t.parent n)).child = n from hchild), store_eq hp]
    refine ⟨_, rfl, sameBut_put _, fun b _ => ?_⟩
    rw [put_node, unlinkedNode]
    ext <;> grind [parent, child, next, prev]
  · rw [if_neg (show (t.node (t.parent n)).child ≠ n from hchild)]
    refine ⟨t, rfl, rfl, fun b _ => ?_⟩
    rw [unlinkedNode]
    ext <;> grind [child]

theorem unlinkParent_eq (hn : n ∈ t.allocated) (hp : t.parent n ≠ 0 → t.parent n ∈ t.allocated)
    (h0 : 0 ∉ t.allocated) :
    ∃ t', t.unlinkParent n (t.node n) = some t' ∧ Rewrites t t' fun b =>
      { t.node b with
        parent := (unlinkedNode t n b).parent
        child := (unlinkedNode t n b).child } := by
  unfold unlinkParent
  change ∃ t', (if t.parent n ≠ 0 then _ else _) = some t' ∧ _
  by_cases hpar : t.parent n ≠ 0
  · obtain ⟨t₁, ht₁, hsame₁, hnode₁⟩ := unlinkChild_eq (hp hpar)
    have halloc₁ : t₁.allocated = t.allocated := by rw [hsame₁]
    rw [if_pos hpar, ht₁, bind_some, store_eq (halloc₁ ▸ hn)]
    refine ⟨_, rfl, hsame₁.trans (sameBut_put _), fun b hb => ?_⟩
    rw [put_node, hnode₁ b hb, unlinkedNode]
    ext <;> grind [parent]
  · rw [if_neg hpar]
    refine ⟨t, rfl, rfl, fun b hb => ?_⟩
    have hb0 : b ≠ t.parent n := fun heq => h0 (not_not.mp hpar ▸ heq ▸ hb)
    rw [unlinkedNode]
    ext <;> grind [parent, child]

theorem treeNodeUnlink_eq (hn : n ∈ t.allocated) (hp : t.parent n ≠ 0 → t.parent n ∈ t.allocated)
    (hprev : t.prev n ≠ 0 → t.prev n ∈ t.allocated) (hnext : t.next n ≠ 0 → t.next n ∈ t.allocated)
    (h0 : 0 ∉ t.allocated) :
    ∃ t', t.treeNodeUnlink n = some t' ∧ Rewrites t t' (unlinkedNode t n) := by
  obtain ⟨t₁, ht₁, hsame₁, hnode₁⟩ := unlinkParent_eq hn hp h0
  have halloc₁ : t₁.allocated = t.allocated := by rw [hsame₁]
  refine ⟨((t₁.putIf (t.prev n) fun y => { y with nextSibling := t.next n }).putIf (t.next n)
    fun y => { y with prevSibling := t.prev n }).put n
      fun x => { x with prevSibling := 0, nextSibling := 0 }, ?_, ?_, fun b hb => ?_⟩
  · unfold treeNodeUnlink
    simp only [bind_eq_bind, load_eq hn, bind_some, ht₁]
    change (t₁.storeIf (t.prev n) _).bind _ = _
    rw [storeIf_eq (halloc₁ ▸ hprev), bind_some,
      storeIf_eq (by rw [putIf_allocated, halloc₁]; exact hnext), bind_some,
      store_eq (by rw [putIf_allocated, putIf_allocated, halloc₁]; exact hn)]
    rfl
  · exact hsame₁.trans ((sameBut_putIf _).trans ((sameBut_putIf _).trans (sameBut_put _)))
  · have hb0 : b ≠ 0 := fun heq => h0 (heq ▸ hb)
    rw [put_node, putIf_node, putIf_node, hnode₁ b hb]
    ext <;> grind [unlinkedNode, next, prev]

/-- What `tree_node_link_sibling` writes. -/
def linkedNode (t : Tree) (n p prev next b : Nat) : TreeNode := {
  data := (t.node b).data
  parent := if b = n then p else t.parent b
  prevSibling := if b = n then prev else if b = next then n else t.prev b
  nextSibling := if b = n then next else if b = prev then n else t.next b
  child := t.child b }

theorem treeNodeLinkSibling_prev (hn : n ∈ t.allocated) (ha : a ∈ t.allocated) (hne : a ≠ n)
    (hnext : t.next a ≠ 0 → t.next a ∈ t.allocated) (hne' : t.next a ≠ n) (h0 : 0 ∉ t.allocated)
    (c : Nat) :
    ∃ t', t.treeNodeLinkSibling n a c = some (.ok, t') ∧
      Rewrites t t' (linkedNode t n (t.parent a) a (t.next a)) := by
  have hn0 : n ≠ 0 := fun heq => h0 (heq ▸ hn)
  have ha0 : a ≠ 0 := fun heq => h0 (heq ▸ ha)
  refine ⟨((t.put n fun x => { x with
      parent := t.parent a, prevSibling := a, nextSibling := t.next a }).put a
      fun y => { y with nextSibling := n }).putIf (t.next a)
      fun y => { y with prevSibling := n }, ?_, ?_, fun b hb => ?_⟩
  · unfold treeNodeLinkSibling
    rw [if_pos ⟨hn0, .inl ha0⟩, if_pos ha0]
    simp only [bind_eq_bind, load_eq ha, bind_some, store_eq hn]
    rw [store_eq (by rwa [put_allocated]), bind_some]
    change (Tree.storeIf _ (t.next a) _).bind _ = _
    rw [storeIf_eq (by rw [put_allocated, put_allocated]; exact hnext)]
    rfl
  · exact (sameBut_put _).trans ((sameBut_put _).trans (sameBut_putIf _))
  · have hb0 : b ≠ 0 := fun heq => h0 (heq ▸ hb)
    rw [putIf_node, put_node, put_node, linkedNode]
    ext <;> grind [parent, child, next, prev]

theorem treeNodeLinkSibling_next (hn : n ∈ t.allocated) (ha : a ∈ t.allocated) (hne : a ≠ n)
    (hprev : t.prev a ≠ 0 → t.prev a ∈ t.allocated) (hne' : t.prev a ≠ n) (h0 : 0 ∉ t.allocated) :
    ∃ t', t.treeNodeLinkSibling n 0 a = some (.ok, t') ∧
      Rewrites t t' (linkedNode t n (t.parent a) (t.prev a) a) := by
  have hn0 : n ≠ 0 := fun heq => h0 (heq ▸ hn)
  have ha0 : a ≠ 0 := fun heq => h0 (heq ▸ ha)
  refine ⟨((t.put n fun x => { x with
      parent := t.parent a, nextSibling := a, prevSibling := t.prev a }).put a
      fun y => { y with prevSibling := n }).putIf (t.prev a)
      fun y => { y with nextSibling := n }, ?_, ?_, fun b hb => ?_⟩
  · unfold treeNodeLinkSibling
    rw [if_pos ⟨hn0, .inr ha0⟩, if_neg (not_not.mpr rfl)]
    simp only [bind_eq_bind, load_eq ha, bind_some, store_eq hn]
    rw [store_eq (by rwa [put_allocated]), bind_some]
    change (Tree.storeIf _ (t.prev a) _).bind _ = _
    rw [storeIf_eq (by rw [put_allocated, put_allocated]; exact hprev)]
    rfl
  · exact (sameBut_put _).trans ((sameBut_put _).trans (sameBut_putIf _))
  · have hb0 : b ≠ 0 := fun heq => h0 (heq ▸ hb)
    rw [putIf_node, put_node, put_node, linkedNode]
    ext <;> grind [parent, child, next, prev]

/-! ## Edits of groups -/

/-- The nodes changed, but not the data. -/
structure Relinks (t t' : Tree) : Prop where
  same : SameBut t t'
  data : ∀ b ∈ t.allocated, (t'.node b).data = (t.node b).data

/-- The groups `old` are replaced by `new`.  The other groups keep their links. -/
structure Edit (t t' : Tree) (old new rest : List Siblings) : Prop where
  alive : t'.allocated = t.allocated
  perm : (new.flatMap Siblings.nodes).Perm (old.flatMap Siblings.nodes)
  nonempty : ∀ g ∈ new, g.nodes ≠ []
  linked : ∀ g ∈ new, Seg t'.next t'.prev 0 g.nodes 0
  parent_eq : ∀ g ∈ new, ∀ a ∈ g.nodes, t'.parent a = g.parent
  child_mem : ∀ g ∈ new, g.parent ≠ 0 → g.parent ∈ t.allocated ∧ t'.child g.parent ∈ g.nodes
  leaf : ∀ a ∈ t.allocated, t'.child a ≠ 0 → ∃ g ∈ new ++ rest, g.parent = a
  keep : ∀ g ∈ rest, ∀ a ∈ g.nodes,
    t'.next a = t.next a ∧ t'.prev a = t.prev a ∧ t'.parent a = t.parent a
  keepChild : ∀ g ∈ rest, g.parent ≠ 0 → t'.child g.parent = t.child g.parent

theorem Edit.wf {old new : List Siblings} (e : Edit t t' old new rest) (h : Wf t (old ++ rest) rank)
    (hrank : ∀ g ∈ new, g.parent ≠ 0 → ∀ a ∈ g.nodes, rank g.parent < rank a) :
    Wf t' (new ++ rest) rank := by
  have hrest {g : Siblings} (hg : g ∈ rest) : g ∈ old ++ rest := mem_append_right old hg
  refine ⟨?_, e.alive ▸ h.nodup, e.alive ▸ h.nonnull, fun g hg => ?_, fun g hg => ?_,
    fun g hg => ?_, fun g hg h0 => ?_, fun a ha => e.leaf a (e.alive ▸ ha), fun g hg => ?_⟩
  · rw [e.alive, flatMap_append]
    refine h.alive.trans ?_
    rw [flatMap_append]
    exact e.perm.symm.append_right _
  · cases mem_append.mp hg with
    | inl hnew => exact e.nonempty g hnew
    | inr hg => exact h.nonempty g (hrest hg)
  · cases mem_append.mp hg with
    | inl hnew => exact e.linked g hnew
    | inr hg =>
      exact (h.linked g (hrest hg)).congr fun a ha => ⟨(e.keep g hg a ha).1, (e.keep g hg a ha).2.1⟩
  · cases mem_append.mp hg with
    | inl hnew => exact e.parent_eq g hnew
    | inr hg => exact fun a ha => (e.keep g hg a ha).2.2.trans (h.parent_eq g (hrest hg) a ha)
  · rw [e.alive]
    cases mem_append.mp hg with
    | inl hnew => exact e.child_mem g hnew h0
    | inr hg =>
      rw [e.keepChild g hg h0]
      exact h.child_mem g (hrest hg) h0
  · cases mem_append.mp hg with
    | inl hnew => exact hrank g hnew
    | inr hg => exact h.rank_lt g (hrest hg)

/-- A group, where it has nodes. -/
def keepGroup (p : Nat) : List Nat → List Siblings
  | [] => []
  | a :: l => [⟨p, a :: l⟩]

theorem mem_keepGroup {p : Nat} {l : List Nat} : g ∈ keepGroup p l ↔ l ≠ [] ∧ g = ⟨p, l⟩ := by
  cases l with
  | nil => simp [keepGroup]
  | cons a l => simp [keepGroup]

theorem keepGroup_nodes {p : Nat} {l : List Nat} : (keepGroup p l).flatMap Siblings.nodes = l := by
  cases l with
  | nil => rfl
  | cons a l => simp [keepGroup]

theorem getLastD_zero_mem {l : List Nat} (h : l.getLastD 0 ≠ 0) : l.getLastD 0 ∈ l := by
  cases l with
  | nil => exact absurd rfl h
  | cons a l =>
    rw [getLastD_cons]
    exact getLastD_mem_cons

theorem headD_zero_mem {l : List Nat} (h : l.headD 0 ≠ 0) : l.headD 0 ∈ l := by
  cases l with
  | nil => exact absurd rfl h
  | cons a l => exact mem_cons_self

theorem eq_nil_of_getLastD {l : List Nat} (h : l.getLastD 0 = 0) (h0 : ∀ a ∈ l, a ≠ 0) :
    l = [] := by
  cases l with
  | nil => rfl
  | cons a l =>
    rw [getLastD_cons] at h
    exact absurd h (h0 _ getLastD_mem_cons)

theorem eq_nil_of_headD {l : List Nat} (h : l.headD 0 = 0) (h0 : ∀ a ∈ l, a ≠ 0) : l = [] := by
  cases l with
  | nil => rfl
  | cons a l => exact absurd h (h0 a mem_cons_self)

/-! ## A node among its siblings -/

section Place

variable {p : Nat}

/-- The links of a node. -/
theorem Wf.links (h : Wf t (⟨p, l₁ ++ n :: l₂⟩ :: rest) rank) :
    t.prev n = l₁.getLastD 0 ∧ t.next n = l₂.headD 0 ∧ t.parent n = p :=
  have hlinks := (h.linked _ mem_cons_self).mid
  ⟨hlinks.1, hlinks.2, h.parent_eq _ mem_cons_self n (by simp)⟩

theorem Wf.prev_mem (h : Wf t (⟨p, l₁ ++ n :: l₂⟩ :: rest) rank) (h0 : t.prev n ≠ 0) :
    t.prev n ∈ l₁ := by
  rw [h.links.1] at h0 ⊢
  exact getLastD_zero_mem h0

theorem Wf.next_mem (h : Wf t (⟨p, l₁ ++ n :: l₂⟩ :: rest) rank) (h0 : t.next n ≠ 0) :
    t.next n ∈ l₂ := by
  rw [h.links.2.1] at h0 ⊢
  exact headD_zero_mem h0

theorem Wf.others (h : Wf t (⟨p, l₁ ++ n :: l₂⟩ :: rest) rank) (ha : a ∈ l₁ ++ l₂) :
    a ≠ n ∧ a ∈ l₁ ++ n :: l₂ := by
  have hnodup : (l₁ ++ n :: l₂).Nodup := h.nodes_nodup mem_cons_self
  refine ⟨fun heq => (nodup_cons.mp (nodup_middle.mp hnodup)).1 (heq ▸ ha), ?_⟩
  simp only [mem_append, mem_cons] at ha ⊢
  exact ha.imp_right .inr

theorem Wf.elsewhere (h : Wf t (⟨p, l₁ ++ n :: l₂⟩ :: rest) rank) (hg : g ∈ rest)
    (ha : a ∈ g.nodes) : a ∈ t.allocated ∧ a ≠ n ∧ a ≠ t.prev n ∧ a ≠ t.next n := by
  have hal := h.mem_alive (mem_cons_of_mem _ hg) ha
  have hout : a ∉ l₁ ++ n :: l₂ := h.disjoint hg ha
  have h0 := h.ne_zero hal
  refine ⟨hal, fun heq => hout (by simp [heq]), fun heq => hout ?_, fun heq => hout ?_⟩
  · exact mem_append_left _ (heq ▸ h.prev_mem (heq ▸ h0))
  · exact mem_append_right _ (mem_cons_of_mem n (heq ▸ h.next_mem (heq ▸ h0)))

theorem Wf.unlinked (h : Wf t (⟨p, l₁ ++ n :: l₂⟩ :: rest) rank) :
    ∃ t', t.treeNodeUnlink n = some t' ∧ Rewrites t t' (unlinkedNode t n) := by
  have hmem {b : Nat} (hb : b ∈ l₁ ++ n :: l₂) : b ∈ t.allocated :=
    h.mem_alive mem_cons_self hb
  refine treeNodeUnlink_eq (hmem (by simp)) (fun h0 => ?_) (fun h0 => ?_) (fun h0 => ?_) h.nonnull
  · rw [h.links.2.2] at h0 ⊢
    exact (h.child_mem _ mem_cons_self h0).1
  · exact hmem (mem_append_left _ (h.prev_mem h0))
  · exact hmem (mem_append_right _ (mem_cons_of_mem n (h.next_mem h0)))

/-- The siblings of an unlinked node are linked. -/
theorem Wf.unlinked_linked (h : Wf t (⟨p, l₁ ++ n :: l₂⟩ :: rest) rank)
    (hr : Rewrites t t' (unlinkedNode t n)) : Seg t'.next t'.prev 0 (l₁ ++ l₂) 0 := by
  have hnodup : (l₁ ++ l₂).Nodup :=
    (nodup_cons.mp (nodup_middle.mp (h.nodes_nodup mem_cons_self))).2
  have hnode {b : Nat} (hb : b ∈ l₁ ++ l₂) : b ≠ n ∧ t'.node b = unlinkedNode t n b :=
    ⟨(h.others hb).1, hr.node b (h.mem_alive mem_cons_self (h.others hb).2)⟩
  have hnext {b : Nat} (hb : b ∈ l₁ ++ l₂) :
      t'.next b = if b = l₁.getLastD 0 then l₂.headD 0 else t.next b := by
    rw [next, (hnode hb).2, ← h.links.1, ← h.links.2.1]
    exact if_neg (hnode hb).1
  have hprev {b : Nat} (hb : b ∈ l₁ ++ l₂) :
      t'.prev b = if b = l₂.headD 0 then l₁.getLastD 0 else t.prev b := by
    rw [prev, (hnode hb).2, ← h.links.1, ← h.links.2.1]
    exact if_neg (hnode hb).1
  have h0 {b : Nat} (hb : b ∈ l₁ ++ l₂) : b ≠ 0 :=
    h.ne_zero (h.mem_alive mem_cons_self (h.others hb).2)
  obtain ⟨hl, hr, hne⟩ := nodup_append.mp hnodup
  have hseg : Seg t.next t.prev 0 (l₁ ++ ([n] ++ l₂)) 0 := h.linked _ mem_cons_self
  change Seg t'.next t'.prev 0 (l₁ ++ ([] ++ l₂)) 0
  refine hseg.splice hl hr (fun a ha => ?_) (fun a ha => ?_) (fun a ha => ?_)
    (fun a ha => ?_) seg_nil
  · exact hnext (mem_append_left l₂ ha)
  · have hmem := mem_append_left l₂ ha
    rw [hprev hmem, if_neg]
    exact fun heq => hne a ha a (heq ▸ headD_zero_mem (heq ▸ h0 hmem)) rfl
  · have hmem := mem_append_right l₁ ha
    rw [hnext hmem, if_neg]
    exact fun heq => hne a (heq ▸ getLastD_zero_mem (heq ▸ h0 hmem)) a ha rfl
  · exact hprev (mem_append_right l₁ ha)

theorem Wf.unlinked_child (h : Wf t (⟨p, l₁ ++ n :: l₂⟩ :: rest) rank)
    (hr : Rewrites t t' (unlinkedNode t n)) (h0 : p ≠ 0) :
    (l₁ ++ l₂ = [] ∧ t'.child p = 0) ∨ t'.child p ∈ l₁ ++ l₂ := by
  obtain ⟨hp, hc⟩ := h.child_mem _ mem_cons_self h0
  have hchild : t'.child p = if t.child p = n then if t.prev n ≠ 0 then t.prev n else t.next n
      else t.child p := by
    rw [child, hr.node p hp, unlinkedNode]
    dsimp only
    rw [h.links.2.2]
    exact if_congr (and_iff_right rfl) rfl rfl
  rw [hchild]
  by_cases hcn : t.child p = n
  · rw [if_pos hcn]
    split_ifs with hprev
    · exact .inr (mem_append_left _ (h.prev_mem hprev))
    · by_cases hnext : t.next n ≠ 0
      · exact .inr (mem_append_right _ (h.next_mem hnext))
      · have hnz (a : Nat) (ha : a ∈ l₁ ++ l₂) : a ≠ 0 :=
          h.ne_zero (h.mem_alive mem_cons_self (h.others ha).2)
        have hnil₁ := eq_nil_of_getLastD (h.links.1 ▸ not_not.mp hprev)
          fun a ha => hnz a (mem_append_left l₂ ha)
        have hnil₂ := eq_nil_of_headD (h.links.2.1 ▸ not_not.mp hnext)
          fun a ha => hnz a (mem_append_right l₁ ha)
        exact .inl ⟨by rw [hnil₁, hnil₂]; rfl, not_not.mp hnext⟩
  · rw [if_neg hcn]
    right
    change t.child p ∈ l₁ ++ n :: l₂ at hc
    simp only [mem_append, mem_cons, hcn, false_or] at hc ⊢
    exact hc

/-- `tree_node_unlink` takes a node out of its group. -/
theorem Wf.unlinked_edit (h : Wf t (⟨p, l₁ ++ n :: l₂⟩ :: rest) rank)
    (hr : Rewrites t t' (unlinkedNode t n)) :
    Edit t t' [⟨p, l₁ ++ n :: l₂⟩] (⟨0, [n]⟩ :: keepGroup p (l₁ ++ l₂)) rest := by
  have hn : t'.node n = unlinkedNode t n n := hr.node n (h.mem_alive mem_cons_self (by simp))
  have hchild {b : Nat} (hb : b ∈ t.allocated) (hbp : b ≠ p) : t'.child b = t.child b := by
    rw [child, hr.node b hb, unlinkedNode]
    exact if_neg fun heq => hbp (heq.1.trans h.links.2.2)
  refine ⟨by rw [hr.same], ?_, fun g hg => ?_, fun g hg => ?_, fun g hg a ha => ?_,
    fun g hg h0 => ?_, fun a ha hc => ?_, fun g hg a ha => ?_, fun g hg h0 => ?_⟩
  · rw [flatMap_cons, keepGroup_nodes]
    simpa using perm_middle.symm
  · cases mem_cons.mp hg with
    | inl heq => exact heq ▸ cons_ne_nil n []
    | inr hkeep =>
      obtain ⟨hne, rfl⟩ := mem_keepGroup.mp hkeep
      exact hne
  · cases mem_cons.mp hg with
    | inl heq =>
      rw [heq, seg_singleton, prev, next, hn]
      exact ⟨if_pos rfl, if_pos rfl⟩
    | inr hkeep =>
      obtain ⟨-, rfl⟩ := mem_keepGroup.mp hkeep
      exact h.unlinked_linked hr
  · cases mem_cons.mp hg with
    | inl heq =>
      rw [heq, mem_singleton] at ha
      rw [heq, ha, parent, hn]
      exact if_pos rfl
    | inr hkeep =>
      obtain ⟨-, rfl⟩ := mem_keepGroup.mp hkeep
      obtain ⟨hne, hmem⟩ := h.others ha
      rw [parent, hr.node a (h.mem_alive mem_cons_self hmem), unlinkedNode]
      exact (if_neg hne).trans (h.parent_eq _ mem_cons_self a hmem)
  · cases mem_cons.mp hg with
    | inl heq => exact absurd (congrArg Siblings.parent heq) h0
    | inr hkeep =>
      obtain ⟨hne, rfl⟩ := mem_keepGroup.mp hkeep
      refine ⟨(h.child_mem _ mem_cons_self h0).1, ?_⟩
      exact (h.unlinked_child hr h0).resolve_left fun hnil => hne hnil.1
  · by_cases hap : a = p
    · have hmem := (h.unlinked_child hr (hap ▸ h.ne_zero ha)).resolve_left
        fun hnil => hc (hap ▸ hnil.2)
      refine ⟨⟨p, l₁ ++ l₂⟩, ?_, hap.symm⟩
      have hne : l₁ ++ l₂ ≠ [] := ne_nil_of_mem hmem
      exact mem_cons_of_mem _ (mem_append_left _ (mem_keepGroup.mpr ⟨hne, rfl⟩))
    · obtain ⟨g, hg, hga⟩ := h.leaf a ha (hchild ha hap ▸ hc)
      cases mem_cons.mp hg with
      | inl heq => exact absurd (hga.symm.trans (congrArg Siblings.parent heq)) hap
      | inr hrest => exact ⟨g, mem_append_right _ hrest, hga⟩
  · obtain ⟨hal, hne, hprev, hnext⟩ := h.elsewhere hg ha
    rw [next, prev, parent, hr.node a hal, unlinkedNode]
    exact ⟨(if_neg hne).trans (if_neg hprev), (if_neg hne).trans (if_neg hnext), if_neg hne⟩
  · exact hchild (h.child_mem g (mem_cons_of_mem _ hg) h0).1 (h.parent_ne hg h0)

theorem Wf.unlink (h : Wf t (⟨p, l₁ ++ n :: l₂⟩ :: rest) rank)
    (hr : Rewrites t t' (unlinkedNode t n)) :
    Wf t' (⟨0, [n]⟩ :: keepGroup p (l₁ ++ l₂) ++ rest) rank := by
  refine (h.unlinked_edit hr).wf h fun g hg h0 a ha => ?_
  cases mem_cons.mp hg with
  | inl heq => exact absurd (congrArg Siblings.parent heq) h0
  | inr hkeep =>
    obtain ⟨-, rfl⟩ := mem_keepGroup.mp hkeep
    exact h.rank_lt _ mem_cons_self h0 a (h.others ha).2

/-! ## A node put among siblings -/

/-- The siblings of a node that is put between them. -/
theorem Wf.linked_linked (h : Wf t (⟨0, [n]⟩ :: ⟨p, l₁ ++ l₂⟩ :: rest) rank)
    (hr : Rewrites t t' (linkedNode t n p (l₁.getLastD 0) (l₂.headD 0))) :
    Seg t'.next t'.prev 0 (l₁ ++ n :: l₂) 0 := by
  have hg : (⟨p, l₁ ++ l₂⟩ : Siblings) ∈ (⟨0, [n]⟩ :: ⟨p, l₁ ++ l₂⟩ :: rest : List Siblings) :=
    mem_cons_of_mem _ mem_cons_self
  have hn : t'.node n = linkedNode t n p (l₁.getLastD 0) (l₂.headD 0) n :=
    hr.node n (h.mem_alive mem_cons_self mem_cons_self)
  have hne {b : Nat} (hb : b ∈ l₁ ++ l₂) : b ≠ n :=
    fun heq => h.disjoint mem_cons_self hb (mem_singleton.mpr heq)
  have hnode {b : Nat} (hb : b ∈ l₁ ++ l₂) :
      t'.node b = linkedNode t n p (l₁.getLastD 0) (l₂.headD 0) b := hr.node b (h.mem_alive hg hb)
  have hnext {b : Nat} (hb : b ∈ l₁ ++ l₂) :
      t'.next b = if b = l₁.getLastD 0 then n else t.next b := by
    rw [next, hnode hb]
    exact if_neg (hne hb)
  have hprev {b : Nat} (hb : b ∈ l₁ ++ l₂) :
      t'.prev b = if b = l₂.headD 0 then n else t.prev b := by
    rw [prev, hnode hb]
    exact if_neg (hne hb)
  have h0 {b : Nat} (hb : b ∈ l₁ ++ l₂) : b ≠ 0 := h.ne_zero (h.mem_alive hg hb)
  obtain ⟨hl, hr, hdisj⟩ := nodup_append.mp (h.nodes_nodup hg)
  have hseg : Seg t.next t.prev 0 (l₁ ++ ([] ++ l₂)) 0 := h.linked _ hg
  change Seg t'.next t'.prev 0 (l₁ ++ ([n] ++ l₂)) 0
  refine hseg.splice hl hr (fun a ha => ?_) (fun a ha => ?_) (fun a ha => ?_)
    (fun a ha => ?_) ?_
  · exact hnext (mem_append_left l₂ ha)
  · have hmem := mem_append_left l₂ ha
    rw [hprev hmem, if_neg]
    exact fun heq => hdisj a ha a (heq ▸ headD_zero_mem (heq ▸ h0 hmem)) rfl
  · have hmem := mem_append_right l₁ ha
    rw [hnext hmem, if_neg]
    exact fun heq => hdisj a (heq ▸ getLastD_zero_mem (heq ▸ h0 hmem)) a ha rfl
  · exact hprev (mem_append_right l₁ ha)
  · rw [seg_singleton, prev, next, hn]
    exact ⟨if_pos rfl, if_pos rfl⟩

/-- `tree_node_link_sibling` puts an unlinked node into a group. -/
theorem Wf.linked_edit (h : Wf t (⟨0, [n]⟩ :: ⟨p, l₁ ++ l₂⟩ :: rest) rank)
    (hr : Rewrites t t' (linkedNode t n p (l₁.getLastD 0) (l₂.headD 0))) :
    Edit t t' [⟨0, [n]⟩, ⟨p, l₁ ++ l₂⟩] [⟨p, l₁ ++ n :: l₂⟩] rest := by
  have hg : (⟨p, l₁ ++ l₂⟩ : Siblings) ∈ (⟨0, [n]⟩ :: ⟨p, l₁ ++ l₂⟩ :: rest : List Siblings) :=
    mem_cons_of_mem _ mem_cons_self
  have hn : n ∈ t.allocated := h.mem_alive mem_cons_self mem_cons_self
  have hrest {g : Siblings} (hg : g ∈ rest) :
      g ∈ (⟨0, [n]⟩ :: ⟨p, l₁ ++ l₂⟩ :: rest : List Siblings) :=
    mem_cons_of_mem _ (mem_cons_of_mem _ hg)
  have hchild {b : Nat} (hb : b ∈ t.allocated) : t'.child b = t.child b := by
    rw [child, hr.node b hb, linkedNode]
  refine ⟨by rw [hr.same], ?_, fun g hg => ?_, fun g hg => ?_, fun g hg a ha => ?_,
    fun g hg' h0 => ?_, fun a ha hc => ?_, fun g hg' a ha => ?_, fun g hg h0 => ?_⟩
  · simp
  · rw [mem_singleton.mp hg]
    exact append_ne_nil_of_right_ne_nil l₁ (cons_ne_nil n l₂)
  · rw [mem_singleton.mp hg]
    exact h.linked_linked hr
  · obtain rfl := mem_singleton.mp hg
    by_cases han : a = n
    · rw [han, parent, hr.node n hn, linkedNode]
      exact if_pos rfl
    · have hmem : a ∈ l₁ ++ l₂ := by
        simp only [mem_append, mem_cons, han, false_or] at ha ⊢
        exact ha
      rw [parent, hr.node a (h.mem_alive (mem_cons_of_mem _ mem_cons_self) hmem), linkedNode]
      exact (if_neg han).trans (h.parent_eq _ (mem_cons_of_mem _ mem_cons_self) a hmem)
  · obtain rfl := mem_singleton.mp hg'
    obtain ⟨hp, hc⟩ := h.child_mem _ hg h0
    refine ⟨hp, ?_⟩
    rw [hchild hp]
    simp only [mem_append, mem_cons] at hc ⊢
    exact hc.imp_right .inr
  · obtain ⟨g, hgm, hga⟩ := h.leaf a ha (hchild ha ▸ hc)
    rcases mem_cons.mp hgm with rfl | hgm
    · exact absurd hga.symm (h.ne_zero ha)
    · rcases mem_cons.mp hgm with rfl | hgm
      · exact ⟨_, mem_cons_self, hga⟩
      · exact ⟨g, mem_cons_of_mem _ hgm, hga⟩
  · have hal := h.mem_alive (hrest hg') ha
    have h0 := h.ne_zero hal
    have hne : a ≠ n := fun heq =>
      h.disjoint (mem_cons_of_mem _ hg') ha (mem_singleton.mpr heq)
    have hout : a ∉ l₁ ++ l₂ :=
      (h.perm (List.Perm.swap _ _ rest)).disjoint (mem_cons_of_mem _ hg') ha
    rw [next, prev, parent, hr.node a hal, linkedNode]
    refine ⟨(if_neg hne).trans (if_neg fun heq => ?_), (if_neg hne).trans (if_neg fun heq => ?_),
      if_neg hne⟩
    · exact hout (mem_append_left _ (heq ▸ getLastD_zero_mem (heq ▸ h0)))
    · exact hout (mem_append_right _ (heq ▸ headD_zero_mem (heq ▸ h0)))
  · exact hchild (h.child_mem g (hrest hg) h0).1

theorem Wf.rerank (h : Wf t (⟨0, [n]⟩ :: rest) rank) (hleaf : t.child n = 0) (r : Nat) :
    Wf t (⟨0, [n]⟩ :: rest) (Function.update rank n r) := by
  refine ⟨h.alive, h.nodup, h.nonnull, h.nonempty, h.linked, h.parent_eq, h.child_mem, h.leaf,
    fun g hg h0 a ha => ?_⟩
  have hparent : g.parent ≠ n := by
    intro heq
    have hc := (h.child_mem g hg h0).2
    rw [heq, hleaf] at hc
    exact h.nonnull (h.mem_alive hg hc)
  have hane : a ≠ n := by
    rintro rfl
    have := h.group_unique mem_cons_self hg (mem_singleton_self a) ha
    exact h0 (congrArg Siblings.parent this)
  rw [update_of_ne hparent, update_of_ne hane]
  exact h.rank_lt g hg h0 a ha

theorem Wf.link (h : Wf t (⟨0, [n]⟩ :: ⟨p, l₁ ++ l₂⟩ :: rest) rank) (hleaf : t.child n = 0)
    (hr : Rewrites t t' (linkedNode t n p (l₁.getLastD 0) (l₂.headD 0))) :
    Relinks t t' ∧ ∃ rank', Wf t' (⟨p, l₁ ++ n :: l₂⟩ :: rest) rank' := by
  refine ⟨⟨hr.same, fun b hb => by rw [hr.node b hb, linkedNode]⟩,
    Function.update rank n (rank p + 1), (h.linked_edit hr).wf (h.rerank hleaf _) ?_⟩
  intro g hg h0 a ha
  obtain rfl := mem_singleton.mp hg
  have hmem : (⟨p, l₁ ++ l₂⟩ : Siblings) ∈ (⟨0, [n]⟩ :: ⟨p, l₁ ++ l₂⟩ :: rest : List Siblings) :=
    mem_cons_of_mem _ mem_cons_self
  have hpn : p ≠ n := by
    rintro rfl
    have hc := (h.child_mem _ hmem h0).2
    rw [hleaf] at hc
    exact h.nonnull (h.mem_alive hmem hc)
  by_cases han : a = n
  · rw [han, update_of_ne hpn, update_self]
    exact Nat.lt_succ_self _
  · rw [update_of_ne hpn, update_of_ne han]
    refine h.rank_lt _ hmem h0 a ?_
    simp only [mem_append, mem_cons, han, false_or] at ha ⊢
    exact ha

theorem Wf.link_prev (h : Wf t (⟨0, [n]⟩ :: ⟨p, l₁ ++ a :: l₂⟩ :: rest) rank)
    (hleaf : t.child n = 0) (c : Nat) :
    ∃ t', t.treeNodeLinkSibling n a c = some (.ok, t') ∧ Relinks t t' ∧
      ∃ rank', Wf t' (⟨p, l₁ ++ a :: n :: l₂⟩ :: rest) rank' := by
  have hswap := h.perm (List.Perm.swap _ _ rest)
  obtain ⟨-, hnext, hparent⟩ := hswap.links
  have halive {b : Nat} (hb : b ∈ l₁ ++ a :: l₂) : b ∈ t.allocated :=
    hswap.mem_alive mem_cons_self hb
  have hne {b : Nat} (hb : b ∈ l₁ ++ a :: l₂) : b ≠ n :=
    fun heq => h.disjoint mem_cons_self hb (mem_singleton.mpr heq)
  have hmem (h0 : t.next a ≠ 0) : t.next a ∈ l₁ ++ a :: l₂ :=
    mem_append_right _ (mem_cons_of_mem a (hswap.next_mem h0))
  have hn : n ∈ t.allocated := h.mem_alive mem_cons_self mem_cons_self
  have ha : a ∈ l₁ ++ a :: l₂ := by simp
  have hne' : t.next a ≠ n := by
    intro heq
    exact hne (hmem (heq ▸ h.ne_zero hn)) heq
  obtain ⟨t', ht', hr⟩ := treeNodeLinkSibling_prev hn (halive ha) (hne ha)
    (fun h0 => halive (hmem h0)) hne' h.nonnull c
  rw [hparent, hnext] at hr
  have hlast : (l₁ ++ [a]).getLastD 0 = a := by rw [getLastD_concat]
  rw [append_cons] at h
  rw [← hlast] at hr
  obtain ⟨hrelinks, rank', hwf⟩ := h.link hleaf hr
  rw [append_assoc] at hwf
  exact ⟨t', ht', hrelinks, rank', hwf⟩

theorem Wf.link_next (h : Wf t (⟨0, [n]⟩ :: ⟨p, a :: l₂⟩ :: rest) rank) (hleaf : t.child n = 0) :
    ∃ t', t.treeNodeLinkSibling n 0 a = some (.ok, t') ∧ Relinks t t' ∧
      ∃ rank', Wf t' (⟨p, n :: a :: l₂⟩ :: rest) rank' := by
  have hfront : Wf t (⟨0, [n]⟩ :: ⟨p, [] ++ a :: l₂⟩ :: rest) rank := h
  have hswap := hfront.perm (List.Perm.swap _ _ rest)
  obtain ⟨hprev, -, hparent⟩ := hswap.links
  have hn : n ∈ t.allocated := h.mem_alive mem_cons_self mem_cons_self
  have ha : a ∈ t.allocated := hswap.mem_alive mem_cons_self mem_cons_self
  have hne : a ≠ n := fun heq =>
    h.disjoint mem_cons_self mem_cons_self (mem_singleton.mpr heq)
  change t.prev a = 0 at hprev
  obtain ⟨t', ht', hr⟩ := treeNodeLinkSibling_next hn ha hne (fun h0 => absurd hprev h0)
    (fun heq => h.ne_zero hn (heq.symm.trans hprev)) h.nonnull
  rw [hparent, hprev] at hr
  exact ⟨t', ht', hfront.link hleaf hr⟩

/-- The first child of a leaf. -/
theorem Wf.adopt_edit (h : Wf t (⟨0, [n]⟩ :: rest) rank) (hp : p ∈ t.allocated)
    (hpleaf : t.child p = 0)
    (hr : Rewrites t t' fun b => { t.node b with
      parent := if b = n then p else t.parent b
      child := if b = p then n else t.child b }) :
    Edit t t' [⟨0, [n]⟩] [⟨p, [n]⟩] rest := by
  have hn : n ∈ t.allocated := h.mem_alive mem_cons_self mem_cons_self
  have hlinked := h.linked _ mem_cons_self
  have hchild {b : Nat} (hb : b ∈ t.allocated) : t'.child b = if b = p then n else t.child b := by
    rw [child, hr.node b hb]
  refine ⟨by rw [hr.same], ?_, fun g hg => ?_, fun g hg => ?_, fun g hg a ha => ?_,
    fun g hg h0 => ?_, fun a ha hc => ?_, fun g hg a ha => ?_, fun g hg h0 => ?_⟩
  · simp
  · rw [mem_singleton.mp hg]
    exact cons_ne_nil n []
  · rw [mem_singleton.mp hg, seg_singleton, prev, next, hr.node n hn]
    exact seg_singleton.mp hlinked
  · rw [mem_singleton.mp hg] at ha ⊢
    rw [mem_singleton.mp ha, parent, hr.node n hn]
    exact if_pos rfl
  · rw [mem_singleton.mp hg]
    refine ⟨hp, ?_⟩
    rw [hchild hp, if_pos rfl]
    exact mem_singleton_self n
  · by_cases hap : a = p
    · exact ⟨_, mem_cons_self, hap.symm⟩
    · rw [hchild ha, if_neg hap] at hc
      obtain ⟨g, hg, hga⟩ := h.leaf a ha hc
      rcases mem_cons.mp hg with rfl | hg
      · exact absurd hga.symm (h.ne_zero ha)
      · exact ⟨g, mem_cons_of_mem _ hg, hga⟩
  · have hal := h.mem_alive (mem_cons_of_mem _ hg) ha
    have hne : a ≠ n := fun heq => h.disjoint hg ha (mem_singleton.mpr heq)
    rw [next, prev, parent, hr.node a hal]
    exact ⟨rfl, rfl, if_neg hne⟩
  · have hmem := mem_cons_of_mem (⟨0, [n]⟩ : Siblings) hg
    obtain ⟨hgp, hc⟩ := h.child_mem g hmem h0
    rw [hchild hgp, if_neg]
    intro heq
    rw [heq, hpleaf] at hc
    exact h.nonnull (h.mem_alive hmem hc)

theorem Wf.adopt (h : Wf t (⟨0, [n]⟩ :: rest) rank) (hleaf : t.child n = 0) (hp : p ∈ t.allocated)
    (hpn : p ≠ n) (hpleaf : t.child p = 0)
    (hr : Rewrites t t' fun b => { t.node b with
      parent := if b = n then p else t.parent b
      child := if b = p then n else t.child b }) :
    Relinks t t' ∧ ∃ rank', Wf t' (⟨p, [n]⟩ :: rest) rank' := by
  refine ⟨⟨hr.same, fun b hb => by rw [hr.node b hb]⟩, Function.update rank n (rank p + 1),
    (h.adopt_edit hp hpleaf hr).wf (h.rerank hleaf _) fun g hg _ a ha => ?_⟩
  rw [mem_singleton.mp hg] at ha ⊢
  rw [mem_singleton.mp ha, update_of_ne hpn, update_self]
  exact Nat.lt_succ_self _

end Place

end Awtk.Tree
