import Awtk.Tkc.TreeVisit

/-!
# The orders of the traversals

Each traversal visits the tree below its first node in its order, without what is below
the nodes that the visitor skipped or removed.  `Pending` says that the tree still has
the trees on the worklist as it had them when the traversal began: a node that was
destroyed was not among their nodes, and its parent was not either.
-/

namespace Awtk.Tree

open List Option

open Chain (Path path_nil)
open Rose (preorders prunes ReadsAll QueueOrder)

/-! ## What the visitor did -/

/-- The results are those of the visitor. -/
def Follows (visit : Visitor) : History → History → Prop
  | _, [] => True
  | log, (a, ret) :: new => ret = visit log a ∧ Follows visit (log ++ [(a, ret)]) new

/-- The nodes that the visitor removed. -/
def removedOf (log : History) : List Nat := (log.filter (·.2 = .remove)).map Prod.fst

/-- The visitor skipped or removed the node. -/
def stopped (log : History) (a : Nat) : Bool := log.any fun p => p.1 = a && p.2 ≠ .ok

/-- What stops is told by the results. -/
def Agrees (stop : Nat → Bool) (new : History) : Prop := ∀ p ∈ new, stop p.1 = decide (p.2 ≠ .ok)

/-- A visitor that neither leaves the loop nor returns anything unusual. -/
def Plain (visit : Visitor) : Prop :=
  ∀ log a, visit log a = .ok ∨ visit log a = .skip ∨ visit log a = .remove

variable {visit : Visitor} {t t' t₀ : Tree} {forest forest' forest₀ : List Siblings}
  {rank : Nat → Nat} {a b n x : Nat} {removed : List Nat} {log new : History} {ret : Ret}
  {stop : Nat → Bool} {r : Rose Nat} {ts F : List (Rose Nat)}

theorem removedOf_cons : removedOf ((a, ret) :: new) = removedOf [(a, ret)] ++ removedOf new := by
  rw [removedOf, removedOf, removedOf, ← map_append, ← filter_append]
  rfl

theorem mem_removedOf : a ∈ removedOf log ↔ (a, .remove) ∈ log := by
  unfold removedOf
  rw [List.mem_map]
  constructor
  · rintro ⟨⟨b, ret⟩, hmem, rfl⟩
    obtain ⟨hmem, hret⟩ := mem_filter.mp hmem
    rw [decide_eq_true_eq] at hret
    exact hret ▸ hmem
  · exact fun hmem => ⟨_, mem_filter.mpr ⟨hmem, decide_eq_true rfl⟩, rfl⟩

theorem Agrees.head (h : Agrees stop ((a, ret) :: new)) : stop a = decide (ret ≠ .ok) :=
  h _ mem_cons_self

theorem Agrees.tail (h : Agrees stop ((a, ret) :: new)) : Agrees stop new :=
  fun p hp => h p (mem_cons_of_mem _ hp)

theorem agrees_stopped (h : (log.map Prod.fst).Nodup) : Agrees (stopped log) log := by
  rintro ⟨a, ret⟩ hp
  have hone : ∀ ret', (a, ret') ∈ log → ret' = ret := by
    intro ret' hp'
    have heq := inj_on_of_nodup_map h hp' hp rfl
    exact congrArg Prod.snd heq
  by_cases hret : ret = .ok
  · rw [hret, decide_eq_false (not_not.mpr rfl)]
    refine Bool.eq_false_iff.mpr fun hstop => ?_
    obtain ⟨⟨b, ret'⟩, hmem, hb⟩ := List.any_eq_true.mp hstop
    simp only [Bool.and_eq_true, decide_eq_true_eq] at hb
    obtain ⟨rfl, hne⟩ := hb
    exact hne ((hone ret' hmem).trans hret)
  · rw [decide_eq_true hret]
    exact List.any_eq_true.mpr ⟨_, hp, by simp [hret]⟩

/-! ## Trees on the worklist -/

/-- The trees are in the memory as they were. -/
structure Pending (forest₀ : List Siblings) (t : Tree) (forest : List Siblings)
    (F : List (Rose Nat)) : Prop where
  reads : ReadsAll (kids forest₀) F
  nodup : (preorders F).Nodup
  fresh : ∀ x ∈ preorders F, x ∈ t.allocated ∧ kids forest x = kids forest₀ x

theorem Pending.perm {F' : List (Rose Nat)} (h : Pending forest₀ t forest F)
    (hreads : ReadsAll (kids forest₀) F') (hperm : F'.Perm F) : Pending forest₀ t forest F' :=
  ⟨hreads, (Rose.preorders_perm hperm).nodup_iff.mpr h.nodup,
    fun x hx => h.fresh x ((Rose.preorders_perm hperm).mem_iff.mp hx)⟩

theorem Pending.tail (h : Pending forest₀ t forest (r :: F)) : Pending forest₀ t forest F := by
  have hnodup := h.nodup
  rw [preorders] at hnodup
  refine ⟨h.reads.2, (nodup_append.mp hnodup).2.1, fun x hx => h.fresh x ?_⟩
  rw [preorders]
  exact mem_append_right _ hx

theorem Pending.kids (h : Pending forest₀ t forest (.node a ts :: F)) :
    Pending forest₀ t forest (ts ++ F) := by
  have hnodup := h.nodup
  have hpre : preorders (.node a ts :: F) = a :: preorders (ts ++ F) := by
    rw [preorders, Rose.preorder, Rose.preorders_append, cons_append]
  rw [hpre] at hnodup
  refine ⟨Rose.readsAll_append.mpr ⟨h.reads.1.2, h.reads.2⟩, (nodup_cons.mp hnodup).2,
    fun x hx => h.fresh x ?_⟩
  rw [hpre]
  exact mem_cons_of_mem a hx

theorem Pending.head (h : Pending forest₀ t forest (.node a ts :: F)) :
    a ∈ t.allocated ∧ Tree.kids forest a = ts.map Rose.root := by
  have hmem : a ∈ preorders (.node a ts :: F) := by
    rw [preorders, Rose.preorder]
    exact mem_cons_self
  obtain ⟨halive, hkids⟩ := h.fresh a hmem
  exact ⟨halive, hkids.trans h.reads.1.1⟩

theorem Pending.head_notMem (h : Pending forest₀ t forest (.node a ts :: F)) :
    a ∉ preorders F := by
  have hnodup := h.nodup
  rw [preorders, Rose.preorder, cons_append, nodup_cons, mem_append, not_or]
    at hnodup
  exact hnodup.1.2

/-- Destroying the first tree leaves the others. -/
theorem Pending.cut (h : Pending forest₀ t forest (.node a ts :: F))
    (hr : Reduced t₀ forest₀ t forest rank removed) (h₀ : Wf t₀ forest₀ rank)
    (hc : Cuts t t' forest forest' rank a) : Pending forest₀ t' forest' F := by
  have ha := h.head.1
  have hnodup := h.nodup
  rw [preorders, nodup_append] at hnodup
  refine ⟨h.reads.2, hnodup.2.1, fun x hx => ?_⟩
  obtain ⟨hxal, hxkids⟩ := h.tail.fresh x hx
  have ha₀ : a ∈ t₀.allocated := ((hr.alive a).mp ha).1
  have hx' : x ∈ t'.allocated := by
    refine (hc.alive x).mpr ⟨hxal, fun hbelow => ?_⟩
    have hmem := ((h.reads.1.nodup_mem h₀.sweepForest ha₀).2 x).mpr
      ((hr.below_iff h₀ ha hxal).mp hbelow)
    exact hnodup.2.2 x hmem x hx rfl
  refine ⟨hx', ?_⟩
  rw [hc.kids hr.wf ha hx', hxkids]
  rintro rfl
  have hkid := (hr.wf.mem_kids_parent ha (hr.wf.ne_zero hxal)).2
  rw [hxkids] at hkid
  exact h.head_notMem (h.reads.2.closed hx hkid)

/-! ## A run of a loop -/

/-- The visits `new` behind `log`, and what they leave of the tree. -/
structure Visited (visit : Visitor) (t₀ : Tree) (forest₀ : List Siblings) (rank : Nat → Nat)
    (F : List (Rose Nat)) (removed : List Nat) (log new : History) (t' : Tree)
    (forest' : List Siblings) : Prop where
  follows : Follows visit log new
  sub : (new.map Prod.fst).Subperm (preorders F)
  reduced : Reduced t₀ forest₀ t' forest' rank (removed ++ removedOf new)

theorem Visited.nil (hr : Reduced t₀ forest₀ t forest rank removed) :
    Visited visit t₀ forest₀ rank [] removed log [] t forest :=
  ⟨trivial, Subperm.refl _, by rwa [removedOf, filter_nil, map_nil, append_nil]⟩

/-- No node is visited twice. -/
theorem Visited.once (h : Visited visit t₀ forest₀ rank F removed log new t' forest')
    (hnodup : (preorders F).Nodup) : (new.map Prod.fst).Nodup := by
  obtain ⟨l, hperm, hsub⟩ := h.sub
  exact hperm.nodup_iff.mp (hnodup.sublist hsub)

theorem Visited.cons {F' : List (Rose Nat)}
    (h : Visited visit t₀ forest₀ rank F' (removed ++ removedOf [(a, ret)]) (log ++ [(a, ret)]) new t'
      forest') (hret : ret = visit log a)
    (hsub : (preorders F').Subperm (preorders ts ++ preorders F)) :
    Visited visit t₀ forest₀ rank (.node a ts :: F) removed log ((a, ret) :: new) t' forest' := by
  refine ⟨⟨hret, h.follows⟩, ?_, ?_⟩
  · rw [preorders, Rose.preorder, map_cons, cons_append]
    exact (subperm_cons a).mpr (h.sub.trans hsub)
  · rw [removedOf_cons, ← append_assoc]
    exact h.reduced

/-! ## The queue -/

theorem preorders_length_pos {n : Nat} (h : (preorders (.node a ts :: F)).length ≤ n + 1) :
    (preorders (ts ++ F)).length ≤ n ∧ (preorders F).length ≤ n := by
  rw [preorders, Rose.preorder, cons_append, length_cons, length_append] at h
  rw [Rose.preorders_append, length_append]
  omega

theorem breadthFirstVisit_order (h₀ : Wf t₀ forest₀ rank) (hvisit : Plain visit) :
    ∀ {n : Nat} {t : Tree} {forest : List Siblings} (log : History) {removed : List Nat}
    {F : List (Rose Nat)}, Reduced t₀ forest₀ t forest rank removed → Pending forest₀ t forest F →
    (preorders F).length ≤ n →
    ∃ t' forest' new, breadthFirstVisit visit n t log (F.map Rose.root) =
        some (.ok, t', log ++ new) ∧
      Visited visit t₀ forest₀ rank F removed log new t' forest' ∧
      ∀ stop, Agrees stop new → QueueOrder (prunes stop F) (new.map Prod.fst)
  | n, t, forest, log, removed, [], hr, _, _ => by
    refine ⟨t, forest, [], ?_, .nil hr, fun _ _ => .nil⟩
    rw [append_nil]
    cases n <;> rfl
  | 0, _, _, _, _, .node a ts :: F, _, _, hn => by
    rw [preorders, Rose.preorder, cons_append, length_cons] at hn
    omega
  | n + 1, t, forest, log, removed, .node a ts :: F, hr, hp, hn => by
    obtain ⟨ha, hkids⟩ := hp.head
    obtain ⟨hall, hrest⟩ := preorders_length_pos hn
    rw [map_cons, Rose.root, breadthFirstVisit]
    simp only [bind_eq_bind, load_eq ha, bind_some]
    rcases hvisit log a with hret | hret | hret
    · have hp' : Pending forest₀ t forest (F ++ ts) :=
        hp.kids.perm (Rose.readsAll_append.mpr ⟨hp.reads.2, hp.reads.1.2⟩) perm_append_comm
      have hn' : (preorders (F ++ ts)).length ≤ n := by
        rwa [(Rose.preorders_perm perm_append_comm).length_eq]
      have hr' : Reduced t₀ forest₀ t forest rank (removed ++ removedOf [(a, .ok)]) := by
        rwa [show removedOf [(a, .ok)] = [] from rfl, append_nil]
      obtain ⟨t', forest', new, hrun, hv, horder⟩ := breadthFirstVisit_order h₀ hvisit
        (log ++ [(a, .ok)]) hr' hp' hn'
      refine ⟨t', forest', (a, .ok) :: new, ?_, hv.cons hret.symm ?_, fun stop hs => ?_⟩
      · rw [append_assoc, map_append] at hrun
        simp only [hret]
        rw [if_neg (by decide), if_neg (by decide), if_neg (by decide), hr.wf.children_eq ha, hkids,
          bind_some]
        exact hrun
      · rw [Rose.preorders_append]
        exact perm_append_comm.subperm
      · have hstop : stop a = false := hs.head
        have hqueue := horder stop hs.tail
        rw [Rose.prunes_append] at hqueue
        rw [prunes, Rose.prune, hstop, if_neg Bool.false_ne_true]
        exact hqueue.cons
    · have hr' : Reduced t₀ forest₀ t forest rank (removed ++ removedOf [(a, .skip)]) := by
        rwa [show removedOf [(a, .skip)] = [] from rfl, append_nil]
      obtain ⟨t', forest', new, hrun, hv, horder⟩ := breadthFirstVisit_order h₀ hvisit
        (log ++ [(a, .skip)]) hr' hp.tail hrest
      refine ⟨t', forest', (a, .skip) :: new, ?_, hv.cons hret.symm ?_, fun stop hs => ?_⟩
      · rw [append_assoc] at hrun
        simp only [hret]
        rw [if_neg (by decide), if_neg (by decide), if_pos trivial]
        exact hrun
      · exact (sublist_append_right _ _).subperm
      · have hstop : stop a = true := hs.head
        have hqueue := horder stop hs.tail
        rw [← append_nil (prunes stop F)] at hqueue
        rw [prunes, Rose.prune, hstop, if_pos rfl]
        exact hqueue.cons
    · obtain ⟨t₁, forest₁, hdestroy, hc⟩ := hr.wf.cut ha
      obtain ⟨t', forest', new, hrun, hv, horder⟩ := breadthFirstVisit_order h₀ hvisit
        (log ++ [(a, .remove)]) (hr.cut h₀ ha hc) (hp.cut hr h₀ hc) hrest
      refine ⟨t', forest', (a, .remove) :: new, ?_, hv.cons hret.symm ?_, fun stop hs => ?_⟩
      · rw [append_assoc] at hrun
        simp only [hret]
        rw [if_pos trivial, hdestroy, bind_some]
        exact hrun
      · exact (sublist_append_right _ _).subperm
      · have hstop : stop a = true := hs.head
        have hqueue := horder stop hs.tail
        rw [← append_nil (prunes stop F)] at hqueue
        rw [prunes, Rose.prune, hstop, if_pos rfl]
        exact hqueue.cons

/-! ## The stack of nodes with the siblings behind them -/

theorem Stacked.congr {next next' : Nat → Nat} {stack todo : List Nat}
    (h : Stacked next stack todo) (hag : ∀ x ∈ todo, next' x = next x) :
    Stacked next' stack todo := by
  induction h with
  | nil => exact .nil
  | cons hp _ ih =>
    refine .cons (hp.congr fun x hx => hag x (mem_append_left _ hx)) (ih fun x hx => ?_)
    exact hag x (mem_append_right _ hx)

theorem path_next_mem {next : Nat → Nat} : ∀ {a : Nat} {l : List Nat}, Path next a l 0 → x ∈ l →
    next x = 0 ∨ next x ∈ l
  | _, b :: l, h, hx => by
    rcases mem_cons.mp hx with rfl | hx
    · cases l with
      | nil => exact .inl h.2.2
      | cons c l => exact .inr (h.2.2.1 ▸ mem_cons_of_mem _ mem_cons_self)
    · exact (path_next_mem h.2.2 hx).imp_right (mem_cons_of_mem b)

theorem Stacked.next_mem {next : Nat → Nat} {stack todo : List Nat}
    (h : Stacked next stack todo) (hx : x ∈ todo) : next x = 0 ∨ next x ∈ todo := by
  induction h with
  | nil => cases hx
  | cons hp _ ih =>
    rcases mem_append.mp hx with hx | hx
    · exact (path_next_mem hp hx).imp_right (mem_append_left _)
    · exact (ih hx).imp_right (mem_append_right _)

theorem roots_subset : ∀ {F : List (Rose Nat)}, ∀ x ∈ F.map Rose.root, x ∈ preorders F
  | F, x, hx => by
    obtain ⟨r, hr, rfl⟩ := List.mem_map.mp hx
    exact Rose.mem_preorders hr r.root_mem

/-- The stack is not touched when the node that was popped is destroyed. -/
theorem Stacked.cut {stack : List Nat} (hs : Stacked t.next stack (F.map Rose.root))
    (hp : Pending forest₀ t forest (.node a ts :: F)) (hp' : Pending forest₀ t' forest' F)
    (h : Wf t forest rank) (hc : Cuts t t' forest forest' rank a) :
    Stacked t'.next stack (F.map Rose.root) := by
  refine hs.congr fun x hx => hc.next (hp'.fresh x (roots_subset x hx)).1 ?_
  rintro rfl
  have ha := hp.head.1
  have h0 := h.ne_zero (hp.tail.fresh _ (roots_subset _ hx)).1
  have hnext := hs.next_mem hx
  rw [h.next_prev ha h0] at hnext
  exact hp.head_notMem (roots_subset a (hnext.resolve_left (h.ne_zero ha)))

/-- What the preorder loop does with `n` rounds, behind the first node. -/
def PreorderSpec (visit : Visitor) (t₀ : Tree) (forest₀ : List Siblings) (rank : Nat → Nat)
    (node n : Nat) : Prop :=
  ∀ {t : Tree} {forest : List Siblings} (log : History) {removed : List Nat}
    {F : List (Rose Nat)} {stack : List Nat},
    Reduced t₀ forest₀ t forest rank removed → Pending forest₀ t forest F → node ∉ preorders F →
    Stacked t.next stack (F.map Rose.root) → (preorders F).length ≤ n →
    ∃ t' forest' new, preorderVisit visit node n t log stack = some (.ok, t', log ++ new) ∧
      Visited visit t₀ forest₀ rank F removed log new t' forest' ∧
      ∀ stop, Agrees stop new → new.map Prod.fst = preorders (prunes stop F)

/-- One round, where `hs` is about the stack with the next sibling. -/
theorem preorderVisit_round {node n : Nat} (log : History) (ih : PreorderSpec visit t₀ forest₀ rank node n)
    (h₀ : Wf t₀ forest₀ rank) (hvisit : Plain visit) {stack stack' : List Nat}
    (hr : Reduced t₀ forest₀ t forest rank removed) (hp : Pending forest₀ t forest (.node a ts :: F))
    (hnode : node ∉ preorders (ts ++ F))
    (hstack : (if a ≠ node ∧ t.next a ≠ 0 then t.next a :: stack else stack) = stack')
    (hs : Stacked t.next stack' (F.map Rose.root)) (hn : (preorders (.node a ts :: F)).length ≤ n + 1) :
    ∃ t' forest' new, preorderVisit visit node (n + 1) t log (a :: stack) =
        some (.ok, t', log ++ new) ∧
      Visited visit t₀ forest₀ rank (.node a ts :: F) removed log new t' forest' ∧
      ∀ stop, Agrees stop new → new.map Prod.fst = preorders (prunes stop (.node a ts :: F)) := by
  obtain ⟨ha, hkids⟩ := hp.head
  obtain ⟨hall, hrest⟩ := preorders_length_pos hn
  have hnode' : node ∉ preorders F := by
    rw [Rose.preorders_append, mem_append, not_or] at hnode
    exact hnode.2
  have hstack' : (if a ≠ node ∧ (t.node a).nextSibling ≠ 0 then (t.node a).nextSibling :: stack
      else stack) = stack' := hstack
  rw [preorderVisit]
  simp only [bind_eq_bind, load_eq ha, bind_some, hstack']
  rcases hvisit log a with hret | hret | hret
  · have hr' : Reduced t₀ forest₀ t forest rank (removed ++ removedOf [(a, .ok)]) := by
      rwa [show removedOf [(a, .ok)] = [] from rfl, append_nil]
    have hs' := hs.push (hr.wf.kids_path ha)
    rw [hkids, ← map_append] at hs'
    obtain ⟨t', forest', new, hrun, hv, horder⟩ := ih (log ++ [(a, .ok)]) hr' hp.kids hnode hs'
      hall
    refine ⟨t', forest', (a, .ok) :: new, ?_, hv.cons hret.symm ?_, fun stop hag => ?_⟩
    · have hfirst : t.treeNodeGetFirstSibling (t.node a).child = some ((ts.map Rose.root).headD 0) := by
        rw [← hkids]
        exact hr.wf.first_child ha
      rw [append_assoc] at hrun
      simp only [hret]
      rw [if_neg (by decide), if_neg (by decide), if_neg (by decide), hfirst, bind_some]
      exact hrun
    · rw [Rose.preorders_append]
    · have hstop : stop a = false := hag.head
      rw [map_cons, horder stop hag.tail, Rose.prunes_append, Rose.preorders_append, prunes,
        Rose.prune, hstop, if_neg Bool.false_ne_true, preorders, Rose.preorder, cons_append]
  · have hr' : Reduced t₀ forest₀ t forest rank (removed ++ removedOf [(a, .skip)]) := by
      rwa [show removedOf [(a, .skip)] = [] from rfl, append_nil]
    obtain ⟨t', forest', new, hrun, hv, horder⟩ := ih (log ++ [(a, .skip)]) hr' hp.tail hnode'
      hs hrest
    refine ⟨t', forest', (a, .skip) :: new, ?_, hv.cons hret.symm ?_, fun stop hag => ?_⟩
    · rw [append_assoc] at hrun
      simp only [hret]
      rw [if_neg (by decide), if_neg (by decide), if_pos trivial]
      exact hrun
    · exact (sublist_append_right _ _).subperm
    · have hstop : stop a = true := hag.head
      rw [map_cons, horder stop hag.tail, prunes, Rose.prune, hstop, if_pos rfl, preorders,
        Rose.preorder, preorders, cons_append, nil_append]
  · obtain ⟨t₁, forest₁, hdestroy, hc⟩ := hr.wf.cut ha
    have hp' := hp.cut hr h₀ hc
    obtain ⟨t', forest', new, hrun, hv, horder⟩ := ih (log ++ [(a, .remove)])
      (hr.cut h₀ ha hc) hp' hnode' (hs.cut hp hp' hr.wf hc) hrest
    refine ⟨t', forest', (a, .remove) :: new, ?_, hv.cons hret.symm ?_, fun stop hag => ?_⟩
    · rw [append_assoc] at hrun
      simp only [hret]
      rw [if_pos trivial, hdestroy, bind_some]
      exact hrun
    · exact (sublist_append_right _ _).subperm
    · have hstop : stop a = true := hag.head
      rw [map_cons, horder stop hag.tail, prunes, Rose.prune, hstop, if_pos rfl, preorders,
        Rose.preorder, preorders, cons_append, nil_append]

theorem preorderVisit_order (h₀ : Wf t₀ forest₀ rank) (hvisit : Plain visit) (node : Nat) :
    ∀ n, PreorderSpec visit t₀ forest₀ rank node n
  | n, t, forest, log, removed, [], stack, hr, _, _, hs, _ => by
    cases hs
    refine ⟨t, forest, [], ?_, .nil hr, fun _ _ => rfl⟩
    rw [append_nil]
    cases n <;> rfl
  | 0, _, _, _, _, .node a ts :: F, _, _, _, _, _, hn => by
    rw [preorders, Rose.preorder, cons_append, length_cons] at hn
    omega
  | n + 1, t, forest, log, removed, .node a ts :: F, stack, hr, hp, hnode, hs, hn => by
    rw [preorders, Rose.preorder, cons_append, mem_cons, not_or,
      ← Rose.preorders_append] at hnode
    have hpush : ∃ stack₁, stack = a :: stack₁ ∧
        Stacked t.next (if t.next a ≠ 0 then t.next a :: stack₁ else stack₁) (F.map Rose.root) := by
      rw [map_cons, Rose.root] at hs
      generalize htodo : a :: F.map Rose.root = todo at hs
      cases hs with
      | nil => cases htodo
      | @cons b l stack₁ todo hpath hs =>
        obtain ⟨rfl, hrest⟩ := List.cons.inj htodo
        refine ⟨stack₁, rfl, ?_⟩
        rw [hrest]
        exact hs.push hpath.2.2
    obtain ⟨stack₁, rfl, hs₁⟩ := hpush
    refine preorderVisit_round log (preorderVisit_order h₀ hvisit node n) h₀ hvisit hr hp hnode.2 ?_ hs₁ hn
    exact if_congr (and_iff_right (Ne.symm hnode.1)) rfl rfl

/-! ## The two stacks of the postorder traversal -/

/-- The result of the first loop is the postorder. -/
theorem Wf.postorderLoop_order (h : Wf t forest rank) : ∀ {n : Nat} {F : List (Rose Nat)}
    (result : List Nat), ReadsAll (kids forest) F → (∀ x ∈ preorders F, x ∈ t.allocated) →
    (preorders F).length ≤ n →
    t.postorderLoop n (F.map Rose.root) result = some (Rose.postorders F.reverse ++ result)
  | n, [], result, _, _, _ => by cases n <;> rfl
  | 0, .node a ts :: F, _, _, _, hn => by
    rw [preorders, Rose.preorder, cons_append, length_cons] at hn
    omega
  | n + 1, .node a ts :: F, result, hF, hmem, hn => by
    have hsplit : preorders (.node a ts :: F) = a :: preorders (ts ++ F) := by
      rw [preorders, Rose.preorder, Rose.preorders_append, cons_append]
    rw [hsplit] at hmem hn
    obtain ⟨ha, hrest⟩ := forall_mem_cons.mp hmem
    have hperm : (ts.reverse ++ F).Perm (ts ++ F) := (reverse_perm ts).append_right F
    have hreads : ReadsAll (kids forest) (ts.reverse ++ F) :=
      Rose.ReadsAll.perm (Rose.readsAll_append.mpr ⟨hF.1.2, hF.2⟩) hperm
    have hroots : (kids forest a).reverse ++ F.map Rose.root =
        (ts.reverse ++ F).map Rose.root := by
      rw [hF.1.1, map_append, map_reverse]
    rw [map_cons, Rose.root, Tree.postorderLoop]
    simp only [bind_eq_bind, load_eq ha, bind_some, h.children_eq ha, hroots]
    rw [h.postorderLoop_order _ hreads
      (fun x hx => hrest x ((Rose.preorders_perm hperm).mem_iff.mp hx))
      ((Rose.preorders_perm hperm).length_eq ▸ Nat.le_of_succ_le_succ hn)]
    rw [reverse_append, reverse_reverse, reverse_cons, Rose.postorders_append,
      Rose.postorders_append, Rose.postorders, Rose.postorders, Rose.postorder]
    simp only [append_assoc, append_nil, singleton_append]

/-- Nodes of which none is below one before it. -/
abbrev Upwards (forest₀ : List Siblings) (l : List Nat) : Prop :=
  l.Pairwise fun a b => ¬Below forest₀ a b

mutual

theorem Wf.postorder_upwards (h : Wf t forest rank) : ∀ {r : Rose Nat}, r.Reads (kids forest) →
    r.root ∈ t.allocated → Upwards forest r.postorder
  | .node a ts, hr, hroot => by
    have ha : a ∈ t.allocated := hroot
    have hkid : ∀ r ∈ ts, r.root ∈ kids forest a := by
      intro r hmem
      rw [hr.1]
      exact List.mem_map.mpr ⟨r, hmem, rfl⟩
    have hnodup := (hr.nodup_mem h.sweepForest hroot).1
    rw [Rose.preorder, nodup_cons] at hnodup
    rw [Rose.postorder]
    refine pairwise_append.mpr ⟨h.postorders_upwards hr.2
      (fun r hmem => h.sweepForest.closed a ha _ (hkid r hmem)) hnodup.2,
      pairwise_singleton _ _, fun b hb c hc hbelow => ?_⟩
    rw [mem_singleton.mp hc] at hbelow
    have hb' := (Rose.postorders_perm ts).mem_iff.mp hb
    have hab : Below forest a b :=
      ((hr.nodup_mem h.sweepForest hroot).2 b).mp (by rw [Rose.preorder]; exact mem_cons_of_mem a hb')
    have hle := (h.sweepForest.rank_le ha hab).2
    have hle' := (h.sweepForest.rank_le (h.below_alive ha hab) hbelow).2
    rcases h.below_cases ha hab with rfl | ⟨h0, hup⟩
    · exact hnodup.1 hb'
    · have hbal := h.below_alive ha hab
      obtain ⟨hpal, hkid⟩ := h.mem_kids_parent hbal h0
      have hlt := h.sweepForest.rank_lt _ hpal b hkid
      have hup' := (h.sweepForest.rank_le ha hup).2
      omega

theorem Wf.postorders_upwards (h : Wf t forest rank) : ∀ {F : List (Rose Nat)},
    ReadsAll (kids forest) F → (∀ r ∈ F, r.root ∈ t.allocated) → (preorders F).Nodup →
    Upwards forest (Rose.postorders F)
  | [], _, _, _ => .nil
  | r :: F, hF, hmem, hnodup => by
    obtain ⟨hroot, hrest⟩ := forall_mem_cons.mp hmem
    rw [preorders, nodup_append] at hnodup
    rw [Rose.postorders]
    refine pairwise_append.mpr ⟨h.postorder_upwards hF.1 hroot,
      h.postorders_upwards hF.2 hrest hnodup.2.1, fun b hb c hc hbelow => ?_⟩
    have hb' := ((hF.1.nodup_mem h.sweepForest hroot).2 b).mp ((Rose.postorder_perm r).mem_iff.mp hb)
    have hc' := ((hF.1.nodup_mem h.sweepForest hroot).2 c).mpr (hb'.trans hbelow)
    exact hnodup.2.2 c hc' c ((Rose.postorders_perm F).mem_iff.mp hc) rfl

end

/-- The second loop visits all of the result: a removed node is behind all below it. -/
theorem resultVisit_order (h₀ : Wf t₀ forest₀ rank) (hvisit : Plain visit) :
    ∀ {l : List Nat} {t : Tree} {forest : List Siblings} (log : History) {removed : List Nat},
    Reduced t₀ forest₀ t forest rank removed → (∀ a ∈ l, a ∈ t.allocated) → Upwards forest₀ l →
    ∃ t' forest' new, resultVisit visit t log l = some (.ok, t', log ++ new) ∧
      Follows visit log new ∧ Reduced t₀ forest₀ t' forest' rank (removed ++ removedOf new) ∧
      new.map Prod.fst = l
  | [], t, forest, log, removed, hr, _, _ => by
    refine ⟨t, forest, [], ?_, trivial, ?_, rfl⟩
    · rw [append_nil]
      rfl
    · rwa [removedOf, filter_nil, map_nil, append_nil]
  | a :: l, t, forest, log, removed, hr, hmem, hup => by
    obtain ⟨ha, hrest⟩ := forall_mem_cons.mp hmem
    obtain ⟨hfirst, hup⟩ := pairwise_cons.mp hup
    rw [resultVisit]
    simp only [bind_eq_bind, load_eq ha, bind_some]
    by_cases hret : visit log a = .remove
    · obtain ⟨t₁, forest₁, hdestroy, hc⟩ := hr.wf.cut ha
      have hrest₁ : ∀ b ∈ l, b ∈ t₁.allocated := fun b hb => (hc.alive b).mpr
        ⟨hrest b hb, fun hbelow => hfirst b hb ((hr.below_iff h₀ ha (hrest b hb)).mp hbelow)⟩
      obtain ⟨t', forest', new, hrun, hf, hr', horder⟩ := resultVisit_order h₀ hvisit
        (log ++ [(a, .remove)]) (hr.cut h₀ ha hc) hrest₁ hup
      refine ⟨t', forest', (a, .remove) :: new, ?_, ⟨hret.symm, hf⟩, ?_, by rw [map_cons, horder]⟩
      · rw [append_assoc] at hrun
        rw [if_pos hret, hdestroy, bind_some, hret]
        exact hrun
      · rw [removedOf_cons, ← append_assoc]
        exact hr'
    · have hbreaks : breaks (visit log a) = false := by
        rcases hvisit log a with h | h | h
        · rw [h]
          rfl
        · rw [h]
          rfl
        · exact absurd h hret
      have hnone : removedOf [(a, visit log a)] = [] := by
        rw [removedOf, filter_cons_of_neg (by simpa using hret)]
        rfl
      obtain ⟨t', forest', new, hrun, hf, hr', horder⟩ := resultVisit_order h₀ hvisit
        (log ++ [(a, visit log a)]) hr hrest hup
      refine ⟨t', forest', (a, visit log a) :: new, ?_, ⟨rfl, hf⟩, ?_,
        by rw [map_cons, horder]⟩
      · rw [append_assoc] at hrun
        rw [if_neg hret, hbreaks, if_neg Bool.false_ne_true]
        exact hrun
      · rw [removedOf_cons, hnone, nil_append]
        exact hr'

/-! ## The three traversals -/

/-- The order in which the nodes of a tree are visited. -/
def order (type : ForeachType) (stop : Nat → Bool) (r : Rose Nat) : List Nat :=
  match type with
  | .breadthFirst => (r.prune stop).levelOrder
  | .preorder => (r.prune stop).preorder
  | .postorder => r.postorder

/-- The traversal of `r` with the visits `log` ends with `t'`. -/
structure Traverses (visit : Visitor) (t : Tree) (forest : List Siblings) (rank : Nat → Nat)
    (type : ForeachType) (r : Rose Nat) (t' : Tree) (log : History) : Prop where
  run : treeNodeForeachVisit visit t r.root type = some (.ok, t', log)
  follows : Follows visit [] log
  order : log.map Prod.fst = order type (stopped log) r
  once : (log.map Prod.fst).Nodup
  wf : ∃ forest', Wf t' forest' rank
  alive : ∀ b, b ∈ t'.allocated ↔
    b ∈ t.allocated ∧ ∀ c, (c, .remove) ∈ log → ¬Below forest c b

theorem Reduced.alive_log (hr : Reduced t₀ forest₀ t forest rank ([] ++ removedOf log)) (b : Nat) :
    b ∈ t.allocated ↔ b ∈ t₀.allocated ∧ ∀ c, (c, .remove) ∈ log → ¬Below forest₀ c b := by
  rw [hr.alive, nil_append]
  simp only [mem_removedOf]

/-- A tree whose nodes are all below its first node. -/
theorem Pending.start (h : Wf t forest rank) (hr : r.Reads (Tree.kids forest))
    (hroot : r.root ∈ t.allocated) : Pending forest t forest [r] := by
  obtain ⟨hnodup, hmem⟩ := hr.nodup_mem h.sweepForest hroot
  have hone : preorders [r] = r.preorder := append_nil _
  refine ⟨⟨hr, trivial⟩, hone ▸ hnodup, fun x hx => ⟨?_, rfl⟩⟩
  rw [hone] at hx
  exact h.below_alive hroot ((hmem x).mp hx)

theorem Pending.length_le (hp : Pending forest t forest F) :
    (preorders F).length ≤ t.allocated.length :=
  (subperm_of_subset hp.nodup fun x hx => (hp.fresh x hx).1).length_le

theorem Wf.breadthFirst_visits (h : Wf t forest rank) (hvisit : Plain visit)
    (hr : r.Reads (kids forest)) (hroot : r.root ∈ t.allocated) :
    ∃ t' log, Traverses visit t forest rank .breadthFirst r t' log := by
  have hp := Pending.start h hr hroot
  obtain ⟨t', forest', log, hrun, hv, horder⟩ := breadthFirstVisit_order h hvisit
    [] (.start h) hp hp.length_le
  have hnodup : (log.map Prod.fst).Nodup := hv.once hp.nodup
  refine ⟨t', log, ?_, hv.follows, ?_, hnodup, ⟨forest', hv.reduced.wf⟩, hv.reduced.alive_log⟩
  · rw [treeNodeForeachVisit, if_neg (h.ne_zero hroot)]
    exact hrun
  · exact (horder _ (agrees_stopped hnodup)).eq_levelOrder

theorem Wf.preorder_visits (h : Wf t forest rank) (hvisit : Plain visit)
    (hr : r.Reads (kids forest)) (hroot : r.root ∈ t.allocated) :
    ∃ t' log, Traverses visit t forest rank .preorder r t' log := by
  have hp := Pending.start h hr hroot
  have hlen := hp.length_le
  obtain ⟨a, ts⟩ := r
  have hone : preorders [.node a ts] = a :: preorders (ts ++ []) := by
    rw [append_nil]
    exact append_nil _
  obtain ⟨n, hn⟩ : ∃ n, t.allocated.length = n + 1 := by
    refine Nat.exists_eq_succ_of_ne_zero fun h0 => ?_
    rw [hone, h0] at hlen
    exact Nat.not_succ_le_zero _ hlen
  have hnodup₁ := hp.nodup
  rw [hone, nodup_cons] at hnodup₁
  obtain ⟨t', forest', log, hrun, hv, horder⟩ := preorderVisit_round []
    (preorderVisit_order h hvisit a n) h hvisit (.start h) hp hnodup₁.1
    (if_neg fun hne => hne.1 rfl) .nil (hn ▸ hlen)
  have hnodup : (log.map Prod.fst).Nodup := hv.once hp.nodup
  refine ⟨t', log, ?_, hv.follows, ?_, hnodup, ⟨forest', hv.reduced.wf⟩, hv.reduced.alive_log⟩
  · rw [treeNodeForeachVisit, if_neg (h.ne_zero hroot), hn]
    exact hrun
  · exact (horder _ (agrees_stopped hnodup)).trans (append_nil _)

theorem Wf.postorder_visits (h : Wf t forest rank) (hvisit : Plain visit)
    (hr : r.Reads (kids forest)) (hroot : r.root ∈ t.allocated) :
    ∃ t' log, Traverses visit t forest rank .postorder r t' log := by
  have hp := Pending.start h hr hroot
  have hloop := h.postorderLoop_order [] hp.reads (fun x hx => (hp.fresh x hx).1)
    hp.length_le
  have hone : Rose.postorders [r].reverse ++ [] = r.postorder := by
    rw [append_nil]
    exact append_nil _
  have hmem : ∀ b ∈ r.postorder, b ∈ t.allocated := fun b hb =>
    (hp.fresh b (mem_append_left _ ((Rose.postorder_perm r).mem_iff.mp hb))).1
  obtain ⟨t', forest', log, hrun, hf, hred, horder⟩ := resultVisit_order h hvisit
    [] (.start h) hmem (h.postorder_upwards hr hroot)
  have hnodup := (Rose.postorder_perm r).nodup_iff.mpr (hr.nodup_mem h.sweepForest hroot).1
  refine ⟨t', log, ?_, hf, horder, horder ▸ hnodup, ⟨forest', hred.wf⟩, hred.alive_log⟩
  rw [treeNodeForeachVisit, if_neg (h.ne_zero hroot)]
  rw [hone] at hloop
  simp only [bind_eq_bind]
  rw [show t.postorderLoop t.allocated.length [r.root] [] = some r.postorder from hloop,
    bind_some]
  exact hrun

theorem order_congr {type : ForeachType} {stop' : Nat → Bool} (h : ∀ a, stop a = stop' a) :
    order type stop r = order type stop' r := by
  rw [funext h]

theorem Follows.not_stopped (hok : ∀ log b, visit log b = .ok) : ∀ {log new : History},
    Follows visit log new → ∀ a, stopped new a = false
  | _, [], _, _ => rfl
  | log, (b, ret) :: new, h, a => by
    have hrest := Follows.not_stopped hok h.2 a
    rw [stopped] at hrest ⊢
    rw [any_cons, hrest, h.1, hok]
    simp

theorem mem_order {type : ForeachType} : b ∈ order type (fun _ => false) r ↔ b ∈ r.preorder := by
  have hprune : r.prune (fun _ => false) = r := Rose.prune_none r fun _ _ => rfl
  cases type with
  | breadthFirst => rw [order, hprune, Rose.mem_levelOrder]
  | preorder => rw [order, hprune]
  | postorder => exact (Rose.postorder_perm r).mem_iff

/-- Each traversal visits the nodes of the subtree in its order and destroys the removed
subtrees.  In postorder a node is visited behind all below it, so nothing is left out. -/
theorem foreach_visits (h : Wf t forest rank) (ha : a ∈ t.allocated) (hvisit : Plain visit)
    (type : ForeachType) :
    ∃ r t' log, r.root = a ∧ r.Reads (kids forest) ∧ r.preorder.Nodup ∧
      (∀ b, b ∈ r.preorder ↔ Below forest a b) ∧ Traverses visit t forest rank type r t' log ∧
      ((∀ log b, visit log b = .ok) → log.map Prod.fst = order type (fun _ => false) r ∧
        ∀ b, b ∈ log.map Prod.fst ↔ Below forest a b) := by
  obtain ⟨r, hr, rfl⟩ := Rose.exists_reads h.sweepForest t.allocated.length ha
    (Nat.le_add_right _ _)
  obtain ⟨hnodup, hmem⟩ := hr.nodup_mem h.sweepForest ha
  have htraverses : ∃ t' log, Traverses visit t forest rank type r t' log := by
    cases type with
    | breadthFirst => exact h.breadthFirst_visits hvisit hr ha
    | preorder => exact h.preorder_visits hvisit hr ha
    | postorder => exact h.postorder_visits hvisit hr ha
  obtain ⟨t', log, ht⟩ := htraverses
  refine ⟨r, t', log, rfl, hr, hnodup, hmem, ht, fun hok => ?_⟩
  have horder := ht.order.trans (order_congr (ht.follows.not_stopped hok))
  exact ⟨horder, fun b => by rw [horder, mem_order, hmem]⟩

/-- A node with two kids, of which the second is the one it points to. -/
def twins : Tree := {
  root := 1, allocated := [1, 2, 3]
  node := fun a =>
    if a = 1 then ⟨0, 0, 0, 0, 3⟩ else if a = 2 then ⟨0, 1, 0, 3, 0⟩ else ⟨0, 1, 2, 0, 0⟩
  count := 3, serial := id, log := [] }

theorem twins_wf : Wf twins [⟨0, [1]⟩, ⟨1, [2, 3]⟩] id where
  alive := by decide
  nodup := by decide
  nonnull := by decide
  nonempty := by decide
  linked := by simp [DList.Seg, twins, next, prev]
  parent_eq := by decide
  child_mem := by decide
  leaf := by decide
  rank_lt := by decide

theorem foreach_visits_twins : ∃ r t' log, r.root = 1 ∧ r.Reads (kids [⟨0, [1]⟩, ⟨1, [2, 3]⟩]) ∧
    r.preorder.Nodup ∧ (∀ b, b ∈ r.preorder ↔ Below [⟨0, [1]⟩, ⟨1, [2, 3]⟩] 1 b) ∧
    Traverses (fun _ a => if a = 2 then .remove else .ok) twins [⟨0, [1]⟩, ⟨1, [2, 3]⟩] id .preorder r
      t' log ∧
    ((∀ (_ : History) (b : Nat), (if b = 2 then Ret.remove else .ok) = .ok) →
      log.map Prod.fst = order .preorder (fun _ => false) r ∧
        ∀ b, b ∈ log.map Prod.fst ↔ Below [⟨0, [1]⟩, ⟨1, [2, 3]⟩] 1 b) :=
  foreach_visits twins_wf (by decide) (fun _ a => by by_cases h : a = 2 <;> simp [h]) .preorder

/-- A node that is removed in postorder was visited behind its kids, which are not left
out. -/
theorem not_pruned_postorder : Wf twins [⟨0, [1]⟩, ⟨1, [2, 3]⟩] id ∧
    (Rose.node 1 [.node 2 [], .node 3 []]).Reads (kids [⟨0, [1]⟩, ⟨1, [2, 3]⟩]) ∧
    ¬∃ t' log, treeNodeForeachVisit (fun _ a => if a = 1 then .remove else .ok) twins 1 .postorder =
        some (.ok, t', log) ∧
      log.map Prod.fst =
        ((Rose.node 1 [.node 2 [], .node 3 []]).prune (stopped log)).postorder := by
  refine ⟨twins_wf, by simp [Rose.Reads, Rose.ReadsAll, kids, Rose.root], ?_⟩
  rintro ⟨t', log, hrun, horder⟩
  have hlog : (treeNodeForeachVisit (fun _ a => if a = 1 then .remove else .ok) twins 1
      .postorder).map (·.2.2) = some [(2, .ok), (3, .ok), (1, .remove)] := by decide +kernel
  rw [hrun, map_some, some.injEq] at hlog
  have hlog : log = [(2, .ok), (3, .ok), (1, .remove)] := hlog
  rw [hlog] at horder
  exact absurd horder (by decide)

end Awtk.Tree
