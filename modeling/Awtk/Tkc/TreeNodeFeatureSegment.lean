import Awtk.Lib.RoseIntervals
import Awtk.Tkc.TreeVisitOrder

/-!
# The segment feature

A model of `tree_node_feature_segment.c`.  Each node has a range that is counted in
postorder, and one node is taken for an ancestor of another when its range holds that of
the other.  The indices have no bound here, so `INT32_MAX` and `INT32_MIN` stand only for
children that are not there.
-/

namespace Awtk.Tree

open Function List Option

open Rose (Spans SpansAll ReadsAll preorders behind)

/-- `tree_node_feature_segment_t`, with `start` and `end` as its bounds. -/
abbrev TreeNodeFeatureSegment := Rose.Interval

def int32Max : Int := 2 ^ 31 - 1

def int32Min : Int := -2 ^ 31

/-- `segment_tree_update_range_by_order_ctx_t`, with the features of the nodes. -/
structure UpdateRangeCtx where
  feature : Nat → TreeNodeFeatureSegment
  index : Int

/-- The loop over the children: the least `start` and the greatest `end`. -/
def childrenRange (feature : Nat → TreeNodeFeatureSegment) (children : List Nat) :
    TreeNodeFeatureSegment := {
  lo := (children.map fun iter => (feature iter).lo).min?.getD int32Max
  hi := (children.map fun iter => (feature iter).hi).max?.getD int32Min }

/-- `segment_tree_update_range_by_order_on_visit`. -/
def updateRangeOnVisit (t : Tree) (ctx : UpdateRangeCtx) (node : Nat) : Option UpdateRangeCtx := do
  let x ← t.load node
  if x.child = 0 then
    return {
      feature := Function.update ctx.feature node ⟨ctx.index, ctx.index⟩
      index := ctx.index + 1 }
  else
    let children ← t.children x
    let range := childrenRange ctx.feature children
    -- one child is taken for two, or the range would be that of the child
    if children.length < 2 then
      return {
        feature := Function.update ctx.feature node ⟨range.lo, ctx.index⟩
        index := ctx.index + 1 }
    else return { ctx with feature := Function.update ctx.feature node range }

/-- `segment_tree_update_range_by_order`, with the features before and after. -/
def segmentTreeUpdateRangeByOrder (t : Tree) (feature : Nat → TreeNodeFeatureSegment) :
    Option (Nat → TreeNodeFeatureSegment) := do
  let visited ← t.treeForeach 0 .postorder
  let ctx ← visited.foldlM t.updateRangeOnVisit ⟨feature, 0⟩
  return ctx.feature

def segmentTreeNodeIsAncestor (feature : Nat → TreeNodeFeatureSegment) (node ancestor : Nat) :
    Bool :=
  if node = ancestor then false
  else (feature ancestor).lo ≤ (feature node).lo && (feature node).hi ≤ (feature ancestor).hi

/-- The parent link of `b` leads to `a`. -/
def IsParent (t : Tree) (a b : Nat) : Prop := b ∈ t.allocated ∧ t.parent b = a

/-- A node reaches the other one by one or more parent links. -/
def ProperAncestor (t : Tree) : Nat → Nat → Prop := Relation.TransGen t.IsParent

/-- The root, and what has the root as an ancestor. -/
def InTree (t : Tree) (a : Nat) : Prop := a = t.root ∨ t.ProperAncestor t.root a

variable {t : Tree} {forest : List Siblings} {rank : Nat → Nat} {a b : Nat}
  {ctx : UpdateRangeCtx} {r : Rose Nat} {ts F : List (Rose Nat)} {i k : Int}

/-! ## Ancestors -/

theorem Wf.below_iff_isParent (h : Wf t forest rank) (ha : a ∈ t.allocated) :
    Below forest a b ↔ Relation.ReflTransGen t.IsParent a b := by
  constructor
  · intro hab
    induction hab with
    | refl => exact .refl
    | @tail c b hac hcb ih =>
      exact ih.tail ((h.mem_kids_iff (h.ne_zero (h.below_alive ha hac))).mp hcb)
  · intro hab
    induction hab with
    | refl => exact .refl
    | @tail c b _ hcb ih =>
      exact ih.tail ((h.mem_kids_iff (h.ne_zero (h.below_alive ha ih))).mpr hcb)

theorem Wf.properAncestor_iff (h : Wf t forest rank) (ha : a ∈ t.allocated) :
    t.ProperAncestor a b ↔ b ≠ a ∧ Below forest a b := by
  have hne : t.ProperAncestor a b → b ≠ a := by
    rintro hab rfl
    obtain ⟨c, hbc, hcb⟩ := Relation.TransGen.head'_iff.mp hab
    have hkid := (h.mem_kids_iff (h.ne_zero ha)).mpr hbc
    exact Rose.not_below_kid h.sweepForest ha hkid .refl ((h.below_iff_isParent hbc.1).mpr hcb)
  constructor
  · intro hab
    exact ⟨hne hab, (h.below_iff_isParent ha).mpr hab.to_reflTransGen⟩
  · rintro ⟨hne, hab⟩
    rw [h.below_iff_isParent ha, Relation.reflTransGen_iff_eq_or_transGen] at hab
    exact hab.resolve_left hne

theorem Wf.inTree_iff (h : Wf t forest rank) (hroot : t.root ∈ t.allocated) :
    t.InTree a ↔ Below forest t.root a := by
  rw [h.below_iff_isParent hroot, Relation.reflTransGen_iff_eq_or_transGen]
  rfl

/-! ## The range of a node -/

theorem childrenRange_eq {feature : Nat → TreeNodeFeatureSegment}
    (hs : SpansAll feature ts i k) (hne : ts ≠ []) :
    childrenRange feature (ts.map Rose.root) = ⟨i, k - 1⟩ := by
  have hends := hs.ends hne
  have hbounds : ∀ r ∈ ts, i ≤ (feature r.root).lo ∧ (feature r.root).hi ≤ k - 1 := by
    intro r hr
    have hb := hs.bounds (Rose.mem_preorders hr r.root_mem)
    omega
  have hlo : (ts.map fun r => (feature r.root).lo).min? = some i := by
    refine min?_eq_some_iff.mpr ⟨hends.1, fun x hx => ?_⟩
    obtain ⟨r, hr, rfl⟩ := List.mem_map.mp hx
    exact (hbounds r hr).1
  have hhi : (ts.map fun r => (feature r.root).hi).max? = some (k - 1) := by
    refine max?_eq_some_iff.mpr ⟨hends.2, fun x hx => ?_⟩
    obtain ⟨r, hr, rfl⟩ := List.mem_map.mp hx
    exact (hbounds r hr).2
  unfold childrenRange
  rw [List.map_map, List.map_map]
  change Rose.Interval.mk ((ts.map fun r => (feature r.root).lo).min?.getD int32Max)
    ((ts.map fun r => (feature r.root).hi).max?.getD int32Min) = _
  rw [hlo, hhi, getD_some, getD_some]

/-- The visit of a node whose children have the numbers from `i` on. -/
theorem Wf.updateRangeOnVisit (h : Wf t forest rank) (ha : a ∈ t.allocated)
    (hkids : kids forest a = ts.map Rose.root) (hs : SpansAll ctx.feature ts i ctx.index) :
    t.updateRangeOnVisit ctx a = some {
      feature := Function.update ctx.feature a ⟨i, behind ts ctx.index - 1⟩
      index := behind ts ctx.index } := by
  have hchildren := h.children_eq ha
  rw [hkids] at hchildren
  have hleaf : (t.node a).child = 0 ↔ ts = [] := by
    have hcases := h.kids_cases ha
    rw [hkids, map_eq_nil_iff] at hcases
    rcases hcases with ⟨hc, hts⟩ | ⟨g, hg, -, hc, hts⟩
    · exact iff_of_true hc hts
    · refine iff_of_false (fun h0 => ?_) ?_
      · rw [Tree.child, h0] at hc
        exact h.nonnull (h.mem_alive hg hc)
      · rintro rfl
        exact h.nonempty g hg hts.symm
  unfold Tree.updateRangeOnVisit
  simp only [bind_eq_bind, load_eq ha, bind_some, hchildren]
  by_cases hts : ts = []
  · rw [if_pos (hleaf.mpr hts)]
    rw [hts, SpansAll] at hs
    have hbehind : behind ts ctx.index = ctx.index + 1 := by
      rw [hts]
      rfl
    rw [hbehind, hs, Int.add_sub_cancel]
    rfl
  · rw [if_neg fun h0 => hts (hleaf.mp h0), childrenRange_eq hs hts, length_map]
    unfold behind
    by_cases hlen : ts.length < 2
    · rw [if_pos hlen, if_pos hlen, Int.add_sub_cancel]
      rfl
    · rw [if_neg hlen, if_neg hlen]
      rfl

/-! ## The walk -/

/-- The walk over some nodes gives them their numbers and leaves the others alone. -/
structure Numbered (t : Tree) (ctx : UpdateRangeCtx) (visited nodes : List Nat)
    (spans : (Nat → TreeNodeFeatureSegment) → Int → Int → Prop) (ctx' : UpdateRangeCtx) : Prop where
  run : visited.foldlM t.updateRangeOnVisit ctx = some ctx'
  spans : spans ctx'.feature ctx.index ctx'.index
  others : ∀ b, b ∉ nodes → ctx'.feature b = ctx.feature b

mutual

theorem Wf.numbered (h : Wf t forest rank) : ∀ {r : Rose Nat} (ctx : UpdateRangeCtx),
    r.Reads (kids forest) → (∀ a ∈ r.preorder, a ∈ t.allocated) → r.preorder.Nodup →
    ∃ ctx', Numbered t ctx r.postorder r.preorder (fun seg => r.Spans seg) ctx'
  | .node a ts, ctx, hr, hmem, hnodup => by
    rw [Rose.preorder] at hmem hnodup
    obtain ⟨ha, hmem⟩ := forall_mem_cons.mp hmem
    obtain ⟨hnot, hnodup⟩ := nodup_cons.mp hnodup
    obtain ⟨ctx₁, hrun, hspans, hothers⟩ := h.numbered_all ctx hr.2 hmem hnodup
    have hvisit := h.updateRangeOnVisit ha hr.1 hspans
    refine ⟨⟨Function.update ctx₁.feature a ⟨ctx.index, behind ts ctx₁.index - 1⟩,
      behind ts ctx₁.index⟩, ?_, ⟨ctx₁.index, hspans.congr fun b hb => ?_, rfl, ?_⟩,
      fun b hb => ?_⟩
    · rw [Rose.postorder, foldlM_append, hrun]
      exact (congrArg (Option.bind · _) hvisit).trans rfl
    · have hne : b ≠ a := fun heq => hnot (heq ▸ hb)
      exact update_of_ne hne _ _
    · exact update_self _ _ _
    · rw [Rose.preorder, mem_cons, not_or] at hb
      exact (update_of_ne hb.1 _ _).trans (hothers b hb.2)

theorem Wf.numbered_all (h : Wf t forest rank) : ∀ {F : List (Rose Nat)} (ctx : UpdateRangeCtx),
    ReadsAll (kids forest) F → (∀ a ∈ preorders F, a ∈ t.allocated) → (preorders F).Nodup →
    ∃ ctx', Numbered t ctx (Rose.postorders F) (preorders F) (fun seg => SpansAll seg F) ctx'
  | [], ctx, _, _, _ => ⟨ctx, rfl, rfl, fun _ _ => rfl⟩
  | r :: F, ctx, hreads, hmem, hnodup => by
    rw [preorders] at hmem hnodup
    obtain ⟨hfirst, hrest⟩ := forall_mem_append.mp hmem
    obtain ⟨hnodup, hnodups, hdisjoint⟩ := nodup_append.mp hnodup
    obtain ⟨ctx₁, hrun, hspans, hothers⟩ := h.numbered ctx hreads.1 hfirst hnodup
    obtain ⟨ctx₂, hruns, hspansAll, hothers'⟩ := h.numbered_all ctx₁ hreads.2 hrest hnodups
    refine ⟨ctx₂, ?_, ⟨ctx₁.index, hspans.congr fun b hb => ?_, hspansAll⟩, fun b hb => ?_⟩
    · rw [Rose.postorders, foldlM_append, hrun]
      exact hruns
    · exact hothers' b fun hb' => hdisjoint b hb b hb' rfl
    · rw [preorders, mem_append, not_or] at hb
      exact (hothers' b hb.2).trans (hothers b hb.1)

end

end Awtk.Tree
