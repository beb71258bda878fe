import Mathlib
import Awtk.Lib.Sweep
import Awtk.Tkc.TreeLinks

/-!
# The traversals of a tree

The children of a node are the group it is the parent of.  The three traversals are
sweeps of the nodes below the first one: they differ in the order only.  An entry of the
stack of the preorder traversal stands for a node and the siblings behind it.
-/

namespace Awtk.Tree

open List Option

open Chain (Path path_nil)
open DList

variable {t t' : Tree} {forest rest : List Siblings} {rank : Nat → Nat} {g : Siblings}
  {a b root : Nat}

/-! ## Siblings -/

theorem seg_path : ∀ {as : List Nat} {p : Nat}, Seg t.next t.prev p as 0 → (∀ a ∈ as, a ≠ 0) →
    Path t.next (as.headD 0) as 0
  | [], _, _, _ => rfl
  | a :: as, _, h, h0 => by
    refine ⟨rfl, h0 a mem_cons_self, ?_⟩
    rw [h.2.1]
    exact seg_path h.2.2 fun b hb => h0 b (mem_cons_of_mem a hb)

theorem firstSiblingLoop_eq (l : List Nat) : ∀ {r : List Nat} {a n : Nat},
    Seg t.next t.prev 0 (l ++ a :: r) 0 → (∀ b ∈ l ++ a :: r, b ∈ t.allocated ∧ b ≠ 0) →
    l.length < n → t.firstSiblingLoop n a = some ((l ++ a :: r).headD 0) := by
  induction l using List.reverseRecOn with
  | nil =>
    intro r a n h halive hn
    cases n with
    | zero => exact absurd hn (Nat.not_lt_zero _)
    | succ n =>
      rw [firstSiblingLoop, load_eq (halive a mem_cons_self).1, bind_some, if_neg]
      · rfl
      · exact not_not.mpr h.1
  | append_singleton l b ih =>
    intro r a n h halive hn
    cases n with
    | zero => exact absurd hn (Nat.not_lt_zero _)
    | succ n =>
      have hprev : (t.node a).prevSibling = b := by
        have := h.mid.1
        rwa [getLastD_concat] at this
      have hmem : b ∈ (l ++ [b]) ++ a :: r := by simp
      rw [firstSiblingLoop, load_eq (halive a (by simp)).1, bind_some, hprev,
        if_pos (halive b hmem).2]
      rw [append_assoc] at h halive ⊢
      rw [length_append] at hn
      exact ih h halive (Nat.lt_of_succ_lt_succ hn)

theorem Wf.length_le (h : Wf t forest rank) (hg : g ∈ forest) :
    g.nodes.length ≤ t.allocated.length :=
  (subperm_of_subset (h.nodes_nodup hg) fun _ ha => h.mem_alive hg ha).length_le

theorem Wf.first_sibling (h : Wf t forest rank) (hg : g ∈ forest) (ha : a ∈ g.nodes) :
    t.treeNodeGetFirstSibling a = some (g.nodes.headD 0) := by
  have halive := h.mem_alive hg ha
  obtain ⟨l, r, hlr⟩ := append_of_mem ha
  rw [treeNodeGetFirstSibling, if_neg (h.ne_zero halive), hlr]
  refine firstSiblingLoop_eq l (hlr ▸ h.linked g hg) (fun b hb => ?_) ?_
  · have hb' := h.mem_alive hg (hlr ▸ hb)
    exact ⟨hb', h.ne_zero hb'⟩
  · have hle := h.length_le hg
    rw [hlr, length_append, length_cons] at hle
    omega

theorem Wf.path (h : Wf t forest rank) (hg : g ∈ forest) :
    Path t.next (g.nodes.headD 0) g.nodes 0 :=
  seg_path (h.linked g hg) fun _ ha => h.ne_zero (h.mem_alive hg ha)

theorem Wf.siblings_from (h : Wf t forest rank) (hg : g ∈ forest) :
    t.siblingsFrom (g.nodes.headD 0) = some g.nodes :=
  Chain.walk_eq (h.path hg) (fun _ ha => h.mem_alive hg ha) (h.length_le hg)

/-! ## Children -/

/-- The children of a node. -/
def kids (forest : List Siblings) (a : Nat) : List Nat :=
  match forest.find? (·.parent = a) with
  | some g => g.nodes
  | none => []

theorem Wf.kids_eq (h : Wf t forest rank) (hg : g ∈ forest) (h0 : g.parent ≠ 0) :
    kids forest g.parent = g.nodes := by
  unfold kids
  cases hfind : forest.find? (·.parent = g.parent) with
  | none => simpa using find?_eq_none.mp hfind g hg
  | some g' =>
    have hparent := find?_some hfind
    rw [decide_eq_true_eq] at hparent
    exact congrArg Siblings.nodes
      (h.parent_unique hg (mem_of_find?_eq_some hfind) h0 hparent)

theorem mem_kids (h : b ∈ kids forest a) : ∃ g ∈ forest, g.parent = a ∧ b ∈ g.nodes := by
  unfold kids at h
  cases hfind : forest.find? (·.parent = a) with
  | none =>
    rw [hfind] at h
    exact absurd h not_mem_nil
  | some g =>
    rw [hfind] at h
    have hparent := find?_some hfind
    rw [decide_eq_true_eq] at hparent
    exact ⟨g, mem_of_find?_eq_some hfind, hparent, h⟩

theorem Wf.mem_kids_parent (h : Wf t forest rank) (ha : a ∈ t.allocated) (h0 : t.parent a ≠ 0) :
    t.parent a ∈ t.allocated ∧ a ∈ kids forest (t.parent a) := by
  obtain ⟨g, hg, hag⟩ := h.group ha
  rw [h.parent_eq g hg a hag] at h0 ⊢
  refine ⟨(h.child_mem g hg h0).1, ?_⟩
  rw [h.kids_eq hg h0]
  exact hag

theorem Wf.parent_of_kid (h : Wf t forest rank) (hb : b ∈ kids forest a) : t.parent b = a := by
  obtain ⟨g, hg, hga, hbg⟩ := mem_kids hb
  rw [h.parent_eq g hg b hbg, hga]

theorem Wf.kids_cases (h : Wf t forest rank) (ha : a ∈ t.allocated) :
    (t.child a = 0 ∧ kids forest a = []) ∨
      ∃ g ∈ forest, g.parent = a ∧ t.child a ∈ g.nodes ∧ kids forest a = g.nodes := by
  by_cases hc : t.child a = 0
  · refine .inl ⟨hc, eq_nil_iff_forall_not_mem.mpr fun b hb => ?_⟩
    obtain ⟨g, hg, rfl, -⟩ := mem_kids hb
    have hchild := (h.child_mem g hg (h.ne_zero ha)).2
    rw [hc] at hchild
    exact h.nonnull (h.mem_alive hg hchild)
  · obtain ⟨g, hg, rfl⟩ := h.leaf a ha hc
    have h0 := h.ne_zero ha
    exact .inr ⟨g, hg, rfl, (h.child_mem g hg h0).2, h.kids_eq hg h0⟩

theorem Wf.first_child (h : Wf t forest rank) (ha : a ∈ t.allocated) :
    t.treeNodeGetFirstSibling (t.child a) = some ((kids forest a).headD 0) := by
  rcases h.kids_cases ha with ⟨hc, hk⟩ | ⟨g, hg, rfl, hc, hk⟩
  · rw [hc, hk]
    rfl
  · rw [hk]
    exact h.first_sibling hg hc

theorem Wf.kids_path (h : Wf t forest rank) (ha : a ∈ t.allocated) :
    Path t.next ((kids forest a).headD 0) (kids forest a) 0 := by
  rcases h.kids_cases ha with ⟨hc, hk⟩ | ⟨g, hg, rfl, hc, hk⟩
  · rw [hk]
    rfl
  · rw [hk]
    exact h.path hg

theorem Wf.sweepForest (h : Wf t forest rank) :
    Sweep.Forest t.allocated (kids forest) rank where
  closed _ _ b hb := by
    obtain ⟨g, hg, -, hbg⟩ := mem_kids hb
    exact h.mem_alive hg hbg
  nodup a ha := by
    rcases h.kids_cases ha with ⟨-, hk⟩ | ⟨g, hg, -, -, hk⟩
    · exact hk ▸ nodup_nil
    · exact hk ▸ h.nodes_nodup hg
  unique a _ b _ c hca hcb := (h.parent_of_kid hca).symm.trans (h.parent_of_kid hcb)
  rank_lt a ha b hb := by
    obtain ⟨g, hg, rfl, hbg⟩ := mem_kids hb
    exact h.rank_lt g hg (h.ne_zero ha) b hbg

theorem Wf.children_eq (h : Wf t forest rank) (ha : a ∈ t.allocated) :
    t.children (t.node a) = some (kids forest a) := by
  rw [children]
  change (t.treeNodeGetFirstSibling (t.child a)).bind t.siblingsFrom = _
  rw [h.first_child ha, bind_some]
  refine Chain.walk_eq (h.kids_path ha) (fun b hb => h.sweepForest.closed a ha b hb) ?_
  exact (subperm_of_subset (h.sweepForest.nodup a ha)
    fun b hb => h.sweepForest.closed a ha b hb).length_le

/-! ## Traversals -/

/-- What is above a node is in the tree. -/
abbrev Below (forest : List Siblings) : Nat → Nat → Prop := Sweep.Below (kids forest)

/-- The traversal has seen `done` and has still to look at `todo`. -/
abbrev Visiting (t : Tree) (forest : List Siblings) (root : Nat) (done todo : List Nat) : Prop :=
  Sweep.Partial t.allocated (kids forest) root done todo

theorem Wf.breadthFirstLoop (h : Wf t forest rank) : ∀ {n : Nat} {done queue : List Nat},
    Visiting t forest root done queue → t.allocated.length ≤ done.length + n →
    ∃ visited, t.breadthFirstLoop n queue = some visited ∧
      Visiting t forest root (visited ++ done) []
  | n, done, [], hv, _ => ⟨[], by cases n <;> rfl, hv⟩
  | 0, done, iter :: queue, hv, hn => by
    have hle := hv.length_le
    rw [length_cons] at hle
    omega
  | n + 1, done, iter :: queue, hv, hn => by
    have halive : iter ∈ t.allocated := hv.sub iter (by simp)
    have hnext := (Sweep.Partial.next h.sweepForest hv).perm (List.Perm.refl _)
      perm_append_comm
    have hn' : t.allocated.length ≤ (iter :: done).length + n := by
      rw [length_cons]
      omega
    obtain ⟨visited, hvis, hend⟩ := h.breadthFirstLoop hnext hn'
    refine ⟨iter :: visited, ?_, hend.perm perm_middle.symm (List.Perm.refl _)⟩
    rw [Tree.breadthFirstLoop]
    simp only [bind_eq_bind, load_eq halive, bind_some, h.children_eq halive, hvis]
    rfl

theorem Wf.postorderLoop (h : Wf t forest rank) : ∀ {n : Nat} {stack result : List Nat},
    Visiting t forest root result stack → t.allocated.length ≤ result.length + n →
    ∃ visited, t.postorderLoop n stack result = some (visited ++ result) ∧
      Visiting t forest root (visited ++ result) []
  | n, [], result, hv, _ => ⟨[], by cases n <;> rfl, hv⟩
  | 0, iter :: stack, result, hv, hn => by
    have hle := hv.length_le
    rw [length_cons] at hle
    omega
  | n + 1, iter :: stack, result, hv, hn => by
    have halive : iter ∈ t.allocated := hv.sub iter (by simp)
    have hnext := (Sweep.Partial.next h.sweepForest hv).perm (List.Perm.refl _)
      ((reverse_perm (kids forest iter)).append_right stack)
    have hn' : t.allocated.length ≤ (iter :: result).length + n := by
      rw [length_cons]
      omega
    obtain ⟨visited, hvis, hend⟩ := h.postorderLoop hnext hn'
    refine ⟨visited ++ [iter], ?_, ?_⟩
    · rw [Tree.postorderLoop]
      simp only [bind_eq_bind, load_eq halive, bind_some, h.children_eq halive,
        hvis, append_assoc, singleton_append]
    · rw [append_assoc]
      exact hend

/-- The entries of the stack, each for a node and the siblings behind it. -/
inductive Stacked (next : Nat → Nat) : List Nat → List Nat → Prop where
  | nil : Stacked next [] []
  | cons {a : Nat} {l stack todo : List Nat} : Path next a (a :: l) 0 → Stacked next stack todo →
      Stacked next (a :: stack) (a :: l ++ todo)

theorem Stacked.push {next : Nat → Nat} {stack todo l : List Nat} {a : Nat}
    (h : Stacked next stack todo) (hp : Path next a l 0) :
    Stacked next (if a ≠ 0 then a :: stack else stack) (l ++ todo) := by
  cases l with
  | nil =>
    rw [if_neg (not_not.mpr (path_nil.mp hp))]
    exact h
  | cons b l =>
    obtain rfl : a = b := hp.1
    rw [if_pos hp.2.1]
    exact .cons hp h

theorem Wf.preorderLoop (h : Wf t forest rank) : ∀ {n : Nat} {done stack todo : List Nat},
    Visiting t forest root done todo → Stacked t.next stack todo → root ∈ done →
    t.allocated.length ≤ done.length + n →
    ∃ visited, t.preorderLoop root n stack = some visited ∧
      Visiting t forest root (visited ++ done) []
  | n, done, [], todo, hv, hs, _, _ => by
    cases hs
    exact ⟨[], by cases n <;> rfl, hv⟩
  | 0, done, iter :: stack, todo, hv, hs, _, hn => by
    cases hs
    have hle := hv.length_le
    rw [length_append, length_cons] at hle
    omega
  | n + 1, done, iter :: stack, todo, hv, hs, hroot, hn => by
    cases hs with
    | @cons _ l _ todo hp hs =>
      have halive : iter ∈ t.allocated := hv.sub iter (by simp)
      have hne : iter ≠ root := by
        rintro rfl
        exact (nodup_append.mp hv.nodup).2.2 iter hroot iter (by simp) rfl
      have hnext := Sweep.Partial.next h.sweepForest hv
      have hs' := (hs.push hp.2.2).push (h.kids_path halive)
      have hn' : t.allocated.length ≤ (iter :: done).length + n := by
        rw [length_cons]
        omega
      obtain ⟨visited, hvis, hend⟩ :=
        h.preorderLoop hnext hs' (mem_cons_of_mem iter hroot) hn'
      refine ⟨iter :: visited, ?_, hend.perm perm_middle.symm (List.Perm.refl _)⟩
      rw [Tree.preorderLoop]
      simp only [bind_eq_bind, load_eq halive, bind_some]
      change (t.treeNodeGetFirstSibling (t.child iter)).bind _ = _
      rw [h.first_child halive, bind_some,
        if_congr (and_iff_right hne) rfl rfl]
      exact (congrArg (Option.bind · _) hvis).trans rfl

/-- A list of the nodes below a node. -/
structure Visits (forest : List Siblings) (a : Nat) (visited : List Nat) : Prop where
  nodup : visited.Nodup
  mem_iff : ∀ b, b ∈ visited ↔ Below forest a b

theorem Visits.of_visiting {visited : List Nat} (h : Visiting t forest a visited []) :
    Visits forest a visited :=
  ⟨append_nil visited ▸ h.nodup, h.mem_iff⟩

/-- The postorder traversal visits the first node last. -/
theorem Wf.postorder (h : Wf t forest rank) (ha : a ∈ t.allocated) :
    ∃ visited, t.treeNodeForeach a .postorder = some (visited ++ [a]) ∧
      Visits forest a (visited ++ [a]) := by
  have hstart : Visiting t forest a [] [a] := Sweep.Partial.start ha
  have hnext := (Sweep.Partial.next h.sweepForest hstart).perm (List.Perm.refl _)
    ((reverse_perm (kids forest a)).append_right [])
  obtain ⟨n, hn⟩ := Nat.exists_eq_add_one.mpr (length_pos_of_mem ha)
  have hle : t.allocated.length ≤ [a].length + n := by
    rw [hn, length_singleton, Nat.add_comm]
  obtain ⟨visited, hvis, hend⟩ := h.postorderLoop hnext hle
  refine ⟨visited, ?_, .of_visiting hend⟩
  rw [treeNodeForeach, if_neg (h.ne_zero ha), hn]
  rw [Tree.postorderLoop]
  simp only [bind_eq_bind, load_eq ha, bind_some, h.children_eq ha, hvis]

/-- Each traversal visits the nodes below the first node, once. -/
theorem Wf.foreach (h : Wf t forest rank) (ha : a ∈ t.allocated) (type : ForeachType) :
    ∃ visited, t.treeNodeForeach a type = some visited ∧ Visits forest a visited := by
  have hstart : Visiting t forest a [] [a] := Sweep.Partial.start ha
  cases type with
  | breadthFirst =>
    obtain ⟨visited, hvis, hend⟩ := h.breadthFirstLoop hstart (Nat.le_add_left _ _)
    rw [append_nil] at hend
    refine ⟨visited, ?_, .of_visiting hend⟩
    rw [treeNodeForeach, if_neg (h.ne_zero ha)]
    exact hvis
  | preorder =>
    have hnext := Sweep.Partial.next h.sweepForest hstart
    have hs := Stacked.push .nil (h.kids_path ha)
    obtain ⟨n, hn⟩ := Nat.exists_eq_add_one.mpr (length_pos_of_mem ha)
    have hle : t.allocated.length ≤ [a].length + n := by
      rw [hn, length_singleton, Nat.add_comm]
    obtain ⟨visited, hvis, hend⟩ := h.preorderLoop hnext hs mem_cons_self hle
    have hperm : (a :: visited).Perm (visited ++ [a]) := (perm_append_singleton a visited).symm
    refine ⟨a :: visited, ?_, .of_visiting (hend.perm hperm (List.Perm.refl _))⟩
    rw [treeNodeForeach, if_neg (h.ne_zero ha), hn]
    rw [Tree.preorderLoop]
    simp only [bind_eq_bind, load_eq ha, bind_some]
    change (t.treeNodeGetFirstSibling (t.child a)).bind _ = _
    have hskip : ¬(a ≠ a ∧ (t.node a).nextSibling ≠ 0) := fun hne => hne.1 rfl
    rw [h.first_child ha, bind_some, if_neg hskip]
    exact (congrArg (Option.bind · _) hvis).trans rfl
  | postorder =>
    obtain ⟨visited, hvis, hend⟩ := h.postorder ha
    exact ⟨visited ++ [a], hvis, hend⟩

end Awtk.Tree
