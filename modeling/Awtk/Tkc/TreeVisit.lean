import Awtk.Lib.Rose
import Awtk.Tkc.TreeRemove

/-!
# Visitors that remove nodes

The traversals of `tree.c` with a visitor that decides by what it has returned before.
A node for which it returns `RET_REMOVE` is destroyed with all below it.  `Cuts` says
what that leaves of the links, and `Reduced` what is left of a tree after some nodes
were destroyed.
-/

namespace Awtk.Tree

open List Option

open Chain (Path)

/-! ## The traversals -/

/-- The nodes that were visited and what the visitor returned for them. -/
abbrev History := List (Nat × Ret)

/-- `tk_visit_t`: the result for a node behind a history. -/
abbrev Visitor := History → Nat → Ret

/-- The results for which `TK_FOREACH_VISIT_RESULT_PROCESSING` leaves the loop. -/
def breaks (ret : Ret) : Bool :=
  ret ≠ .ok && ret ≠ .continue && ret ≠ .skip && ret ≠ .remove && ret ≠ .repeat

section

variable (visit : Visitor)

/-- The loop of `tree_node_foreach_breadth_first`, with what is left of the queue. -/
def breadthFirstVisit : Nat → Tree → History → List Nat → Option (Ret × Tree × History)
  | _, t, log, [] => some (.ok, t, log)
  | 0, _, _, _ :: _ => none
  | n + 1, t, log, iter :: queue => do
    let x ← t.load iter
    let ret := visit log iter
    let log := log ++ [(iter, ret)]
    if ret = .remove then
      let t ← t.treeNodeDestroy iter
      breadthFirstVisit n t log queue
    else if breaks ret then return (ret, t, log)
    else if ret = .skip then breadthFirstVisit n t log queue
    else
      let children ← t.children x
      breadthFirstVisit n t log (queue ++ children)

/-- The loop of `tree_node_foreach_preorder`.  The top of the stack is the head. -/
def preorderVisit (node : Nat) :
    Nat → Tree → History → List Nat → Option (Ret × Tree × History)
  | _, t, log, [] => some (.ok, t, log)
  | 0, _, _, _ :: _ => none
  | n + 1, t, log, iter :: stack => do
    let x ← t.load iter
    let ret := visit log iter
    let log := log ++ [(iter, ret)]
    let stack := if iter ≠ node ∧ x.nextSibling ≠ 0 then x.nextSibling :: stack else stack
    if ret = .remove then
      let t ← t.treeNodeDestroy iter
      preorderVisit node n t log stack
    else if breaks ret then return (ret, t, log)
    else if ret = .skip then preorderVisit node n t log stack
    else
      let first ← t.treeNodeGetFirstSibling x.child
      preorderVisit node n t log (if first ≠ 0 then first :: stack else stack)

/-- The second loop of `tree_node_foreach_postorder`.  The top of the result is the
head. -/
def resultVisit : Tree → History → List Nat → Option (Ret × Tree × History)
  | t, log, [] => some (.ok, t, log)
  | t, log, iter :: result => do
    let _ ← t.load iter
    let ret := visit log iter
    let log := log ++ [(iter, ret)]
    if ret = .remove then
      let t ← t.treeNodeDestroy iter
      resultVisit t log result
    else if breaks ret then return (ret, t, log)
    else resultVisit t log result

/-- `tree_node_foreach` with a visitor: the result, the tree that is left, and the
visits. -/
def treeNodeForeachVisit (t : Tree) (node : Nat) (type : ForeachType) :
    Option (Ret × Tree × History) :=
  if node = 0 then some (.ok, t, [])
  else
    match type with
    | .breadthFirst => breadthFirstVisit visit t.allocated.length t [] [node]
    | .preorder => preorderVisit visit node t.allocated.length t [] [node]
    | .postorder => do
      let result ← t.postorderLoop t.allocated.length [node] []
      resultVisit visit t [] result

end

variable {t t' t₀ : Tree} {forest forest' forest₀ : List Siblings} {rank rank' : Nat → Nat}
  {a b n x : Nat} {removed : List Nat}

/-! ## A destroyed node -/

theorem destroyNodes_leaves : ∀ {nodes : List Nat} {t : Tree}, t.allocated.Nodup → nodes.Nodup →
    (∀ a ∈ nodes, a ∈ t.allocated) → ∃ t', t.destroyNodes nodes = some t' ∧ Leaves t t' nodes
  | [], t, hnodup, _, _ => ⟨t, rfl, fun a => by simp, hnodup, rfl⟩
  | a :: nodes, t, hnodup, hnodes, hmem => by
    obtain ⟨ha, hnodes⟩ := nodup_cons.mp hnodes
    have hstep := treeNodeDestroyImpl_eq (hmem a mem_cons_self)
    have herase (b : Nat) : b ∈ t.allocated.erase a ↔ b ≠ a ∧ b ∈ t.allocated :=
      hnodup.mem_erase_iff
    have hrest : ∀ b ∈ nodes, b ∈ t.allocated.erase a := fun b hb =>
      (herase b).mpr ⟨fun heq => ha (heq ▸ hb), hmem b (mem_cons_of_mem a hb)⟩
    obtain ⟨t', ht', hl⟩ := destroyNodes_leaves
      (t := { t with
        allocated := t.allocated.erase a
        log := .freed (t.serial a) :: (dataEvents (t.serial a) (t.node a).data ++ t.log) })
      (hnodup.erase a) hnodes hrest
    refine ⟨t', ?_, fun b => ?_, hl.nodup, hl.node⟩
    · rw [destroyNodes, hstep, bind_some, ht']
    · rw [hl.alive, herase, mem_cons, not_or]
      tauto

/-- What `tree_node_destroy` leaves. -/
structure Cuts (t t' : Tree) (forest forest' : List Siblings) (rank : Nat → Nat) (n : Nat) :
    Prop where
  wf : Wf t' forest' rank
  alive : ∀ b, b ∈ t'.allocated ↔ b ∈ t.allocated ∧ ¬Below forest n b
  node : ∀ b ∈ t'.allocated, t'.node b = unlinkedNode t n b

/-- A node is destroyed with all below it, and no other. -/
theorem Wf.cut (h : Wf t forest rank) (hn : n ∈ t.allocated) :
    ∃ t' forest', t.treeNodeDestroy n = some t' ∧ Cuts t t' forest forest' rank n := by
  obtain ⟨⟨p, nodes⟩, hg, hng⟩ := h.group hn
  obtain ⟨l₁, l₂, rfl⟩ := append_of_mem hng
  obtain ⟨rest, hwf, hperm⟩ := h.split hg
  obtain ⟨t₁, ht₁, hr⟩ := hwf.unlinked
  have hwf₁ := hwf.unlink hr
  have halloc₁ : t₁.allocated = t.allocated := by rw [hr.same]
  have hn₁ : n ∈ t₁.allocated := halloc₁.symm ▸ hn
  have hparent₁ {b : Nat} (hb : b ∈ t.allocated) : t₁.parent b = if b = n then 0 else t.parent b := by
    rw [parent, hr.node b hb, unlinkedNode]
  obtain ⟨visited, hvis, hv⟩ := hwf₁.postorder hn₁
  have hsubset (b : Nat) (hb : b ∈ visited ++ [n]) : b ∈ t₁.allocated :=
    hwf₁.below_alive hn₁ ((hv.mem_iff b).mp hb)
  obtain ⟨t', ht', hl⟩ := destroyNodes_leaves hwf₁.nodup hv.nodup hsubset
  -- unlinking the node does not change what is below it
  have hbelow (b : Nat) : b ∈ visited ++ [n] ↔ Below forest n b := by
    rw [hv.mem_iff]
    constructor
    · refine h.below_mono hwf₁ (fun c hc hc0 => ?_) hn₁
      rw [halloc₁] at hc
      rw [hparent₁ hc] at hc0 ⊢
      by_cases hcn : c = n
      · exact absurd (if_pos hcn) hc0
      · exact ⟨hc, (if_neg hcn).symm⟩
    · intro hb
      induction hb with
      | refl => exact .refl
      | @tail c b hnc hcb ih =>
        have hc := h.below_alive hn hnc
        have hc0 := h.ne_zero hc
        obtain ⟨hbt, hbc⟩ := (h.mem_kids_iff hc0).mp hcb
        have hne : b ≠ n := by
          rintro rfl
          have hlt := h.sweepForest.rank_lt c hc b hcb
          have hle := (h.sweepForest.rank_le hn hnc).2
          omega
        refine ih.tail ((hwf₁.mem_kids_iff hc0).mpr ⟨halloc₁.symm ▸ hbt, ?_⟩)
        rw [hparent₁ hbt, if_neg hne, hbc]
  refine ⟨t', _, ?_, hwf₁.free_below mem_cons_self hv hl, fun b => ?_, fun b hb => ?_⟩
  · unfold treeNodeDestroy
    simp only [bind_eq_bind, ht₁, bind_some, hvis, ht']
  · rw [hl.alive, hbelow, halloc₁]
  · rw [hl.node]
    exact hr.node b (halloc₁ ▸ ((hl.alive b).mp hb).1)

theorem Cuts.ne (hc : Cuts t t' forest forest' rank n) (hb : b ∈ t'.allocated) : b ≠ n :=
  fun heq => ((hc.alive b).mp hb).2 (heq ▸ .refl)

theorem Cuts.parent (hc : Cuts t t' forest forest' rank n) (hb : b ∈ t'.allocated) :
    t'.parent b = t.parent b := by
  rw [Tree.parent, hc.node b hb]
  exact if_neg (hc.ne hb)

theorem Cuts.next (hc : Cuts t t' forest forest' rank n) (hb : b ∈ t'.allocated)
    (hprev : b ≠ t.prev n) : t'.next b = t.next b := by
  rw [Tree.next, hc.node b hb]
  exact (if_neg (hc.ne hb)).trans (if_neg hprev)

theorem Wf.parent_prev (h : Wf t forest rank) (hn : n ∈ t.allocated) (h0 : t.prev n ≠ 0) :
    t.parent (t.prev n) = t.parent n := by
  obtain ⟨⟨p, nodes⟩, hg, hng⟩ := h.group hn
  obtain ⟨l₁, l₂, rfl⟩ := append_of_mem hng
  obtain ⟨rest, hwf, -⟩ := h.split hg
  have hmem := mem_append_left (n :: l₂) (hwf.prev_mem h0)
  rw [h.parent_eq _ hg _ hmem, h.parent_eq _ hg _ hng]

theorem Wf.next_prev (h : Wf t forest rank) (hn : n ∈ t.allocated) (h0 : t.prev n ≠ 0) :
    t.next (t.prev n) = n := by
  obtain ⟨⟨p, nodes⟩, hg, hng⟩ := h.group hn
  obtain ⟨l₁, l₂, rfl⟩ := append_of_mem hng
  obtain ⟨rest, hwf, -⟩ := h.split hg
  have hprev := hwf.links.1
  rcases eq_nil_or_concat l₁ with rfl | ⟨l, b, rfl⟩
  · exact absurd hprev h0
  · rw [concat_eq_append, getLastD_concat] at hprev
    have hseg := h.linked _ hg
    rw [concat_eq_append, append_assoc] at hseg
    rw [hprev]
    exact hseg.mid.2

theorem Cuts.kids (hc : Cuts t t' forest forest' rank n) (h : Wf t forest rank)
    (hn : n ∈ t.allocated) (hx : x ∈ t'.allocated) (hparent : x ≠ t.parent n) :
    kids forest' x = kids forest x := by
  have hx' := ((hc.alive x).mp hx).1
  have h0 := hc.wf.ne_zero hx
  have hmem (b : Nat) : b ∈ Tree.kids forest' x ↔ b ∈ Tree.kids forest x := by
    rw [hc.wf.mem_kids_iff h0, h.mem_kids_iff h0]
    constructor
    · rintro ⟨hb, hbx⟩
      exact ⟨((hc.alive b).mp hb).1, (hc.parent hb).symm.trans hbx⟩
    · rintro ⟨hb, hbx⟩
      have hb' : b ∈ t'.allocated := by
        refine (hc.alive b).mpr ⟨hb, fun hbelow => ?_⟩
        rcases h.below_cases hn hbelow with rfl | ⟨-, hup⟩
        · exact hparent hbx.symm
        · exact ((hc.alive x).mp hx).2 (hbx ▸ hup)
      exact ⟨hb', (hc.parent hb').trans hbx⟩
  have hperm : (Tree.kids forest' x).Perm (Tree.kids forest x) :=
    (perm_ext_iff_of_nodup (hc.wf.sweepForest.nodup x hx) (h.sweepForest.nodup x hx')).mpr hmem
  refine Path.eq_of_perm ((hc.wf.kids_path hx).congr fun b hb => ?_) (h.kids_path hx') hperm
  obtain ⟨hbal, hbx⟩ := (hc.wf.mem_kids_iff h0).mp hb
  refine (hc.next hbal fun heq => ?_).symm
  have hb0 : t.prev n ≠ 0 := heq ▸ hc.wf.ne_zero hbal
  rw [hc.parent hbal, heq, h.parent_prev hn hb0] at hbx
  exact hparent hbx.symm

/-! ## Several destroyed nodes -/

/-- What is left of a tree: all but what was below the removed nodes. -/
structure Reduced (t₀ : Tree) (forest₀ : List Siblings) (t : Tree) (forest : List Siblings)
    (rank : Nat → Nat) (removed : List Nat) : Prop where
  wf : Wf t forest rank
  alive : ∀ b, b ∈ t.allocated ↔ b ∈ t₀.allocated ∧ ∀ a ∈ removed, ¬Below forest₀ a b
  parent : ∀ b ∈ t.allocated, t.parent b = t₀.parent b

theorem Reduced.start (h : Wf t forest rank) : Reduced t forest t forest rank [] :=
  ⟨h, fun b => by simp, fun _ _ => rfl⟩

theorem Reduced.below_iff (hr : Reduced t₀ forest₀ t forest rank removed)
    (h₀ : Wf t₀ forest₀ rank) (ha : a ∈ t.allocated) (hb : b ∈ t.allocated) :
    Below forest a b ↔ Below forest₀ a b := by
  constructor
  · exact h₀.below_mono hr.wf
      (fun c hc _ => ⟨((hr.alive c).mp hc).1, (hr.parent c hc).symm⟩) ha
  · intro hab
    induction hab with
    | refl => exact .refl
    | @tail c b hac hcb ih =>
      have hc0 := h₀.ne_zero (h₀.below_alive ((hr.alive a).mp ha).1 hac)
      have hbc := ((h₀.mem_kids_iff hc0).mp hcb).2
      rw [← hr.parent b hb] at hbc
      obtain ⟨hc, hkid⟩ := hr.wf.mem_kids_parent hb (hbc ▸ hc0)
      rw [hbc] at hc hkid
      exact (ih hc).tail hkid

/-- One more node is destroyed. -/
theorem Reduced.cut (hr : Reduced t₀ forest₀ t forest rank removed) (h₀ : Wf t₀ forest₀ rank)
    (hn : n ∈ t.allocated) (hc : Cuts t t' forest forest' rank n) :
    Reduced t₀ forest₀ t' forest' rank (removed ++ [n]) := by
  refine ⟨hc.wf, fun b => ?_, fun b hb => ?_⟩
  · rw [hc.alive, forall_mem_append, forall_mem_singleton, ← and_assoc, ← hr.alive]
    exact and_congr_right fun hb => not_congr (hr.below_iff h₀ hn hb)
  · rw [hc.parent hb, hr.parent b ((hc.alive b).mp hb).1]

end Awtk.Tree
