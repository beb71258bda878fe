import Mathlib
import Awtk.Lib.Chain
import Awtk.Tkc.Types

/-!
# The tree

A model of `tree.c`.  Nodes and data are addresses and `0` is NULL.  A read or write
through a pointer that is not allocated has no defined result, and neither has a loop
that visits more nodes than are allocated.

A traversal is the list of the nodes in the order in which it visits them.  None of the
visitors here writes a link before the traversal ends, and one that returns `RET_STOP`
sees the first part of the list.  The temporary arrays are lists.

The last three fields of the tree are not in the source.  They number the nodes in the
order of their creation and record what happens to them.
-/

namespace Awtk

/-- `tree_node_t`. -/
@[ext] structure TreeNode where
  data : Nat
  parent : Nat
  prevSibling : Nat
  nextSibling : Nat
  child : Nat
  deriving DecidableEq

namespace Tree

/-- What happens to the node with the number `s`. -/
inductive Event where
  | created (s data : Nat)
  | dataDestroyed (s data : Nat)
  | freed (s : Nat)
  deriving DecidableEq

end Tree

open Tree (Event)

/-- `tree_t` with the nodes that are allocated. -/
structure Tree where
  root : Nat
  allocated : List Nat
  node : Nat → TreeNode
  count : Nat
  serial : Nat → Nat
  log : List Event

namespace Tree

def init : Tree := {
  root := 0, allocated := [], node := fun _ => ⟨0, 0, 0, 0, 0⟩
  count := 0, serial := fun _ => 0, log := [] }

/-! ## Nodes -/

/-- Read a node. -/
def load (t : Tree) (a : Nat) : Option TreeNode :=
  if a ∈ t.allocated then some (t.node a) else none

/-- Write fields of a node. -/
def store (t : Tree) (a : Nat) (f : TreeNode → TreeNode) : Option Tree :=
  if a ∈ t.allocated then some { t with node := Function.update t.node a (f (t.node a)) } else none

/-- Write fields of a node where the pointer is not NULL. -/
def storeIf (t : Tree) (a : Nat) (f : TreeNode → TreeNode) : Option Tree :=
  if a ≠ 0 then t.store a f else some t

/-- Note an event, the latest one first. -/
def record (t : Tree) (event : Event) : Tree := { t with log := event :: t.log }

def next (t : Tree) (a : Nat) : Nat := (t.node a).nextSibling

def prev (t : Tree) (a : Nat) : Nat := (t.node a).prevSibling

def parent (t : Tree) (a : Nat) : Nat := (t.node a).parent

def child (t : Tree) (a : Nat) : Nat := (t.node a).child

/-- `tree_create_node`, with what the allocator returns. -/
def treeCreateNode (t : Tree) (a data : Nat) : Tree :=
  if a = 0 then t
  else
    ({ t with
      allocated := a :: t.allocated
      node := Function.update t.node a ⟨data, 0, 0, 0, 0⟩
      count := t.count + 1
      serial := Function.update t.serial a t.count }).record (.created t.count data)

/-- The loop of `tree_node_is_ancestor`, from the parent on. -/
def ancestorLoop (t : Tree) (ancestor : Nat) : Nat → Nat → Option Bool
  | 0, _ => none
  | n + 1, node =>
    if node = 0 then some false
    else if node = ancestor then some true
    else (t.load node).bind fun x => t.ancestorLoop ancestor n x.parent

def treeNodeIsAncestor (t : Tree) (node ancestor : Nat) : Option Bool :=
  (t.load node).bind fun x => t.ancestorLoop ancestor (t.allocated.length + 1) x.parent

/-! ## Siblings -/

/-- The loop of `tree_node_get_first_sibling`. -/
def firstSiblingLoop (t : Tree) : Nat → Nat → Option Nat
  | 0, _ => none
  | n + 1, node => (t.load node).bind fun x =>
      if x.prevSibling ≠ 0 then t.firstSiblingLoop n x.prevSibling else some node

def treeNodeGetFirstSibling (t : Tree) (node : Nat) : Option Nat :=
  if node = 0 then some 0 else t.firstSiblingLoop t.allocated.length node

/-- The nodes a loop from a sibling on visits. -/
def siblingsFrom (t : Tree) (first : Nat) : Option (List Nat) :=
  Chain.walk t.next (· ∈ t.allocated) t.allocated.length first

/-- `tree_node_sibling_size` of the siblings a loop visits, as it is compared with a
`uint32_t`. -/
def treeNodeSiblingSize (siblings : List Nat) : Nat := siblings.length % 2 ^ 32

def treeNodeGetSiblingByIndex : List Nat → Nat → Nat
  | [], _ => 0
  | [node], _ => node
  | node :: _ :: _, 0 => node
  | _ :: next :: siblings, index + 1 => treeNodeGetSiblingByIndex (next :: siblings) index

/-- `tree_node_unlink`, the part for the child of the parent. -/
def unlinkChild (t : Tree) (node : Nat) (x : TreeNode) : Option Tree :=
  (t.load x.parent).bind fun p =>
    if p.child = node then
      t.store x.parent fun p =>
        { p with child := if x.prevSibling ≠ 0 then x.prevSibling else x.nextSibling }
    else some t

/-- `tree_node_unlink`, the part for the parent. -/
def unlinkParent (t : Tree) (node : Nat) (x : TreeNode) : Option Tree :=
  if x.parent ≠ 0 then
    (t.unlinkChild node x).bind fun t => t.store node fun x => { x with parent := 0 }
  else some t

def treeNodeUnlink (t : Tree) (node : Nat) : Option Tree := do
  let x ← t.load node
  let t ← t.unlinkParent node x
  let t ← t.storeIf x.prevSibling fun y => { y with nextSibling := x.nextSibling }
  let t ← t.storeIf x.nextSibling fun y => { y with prevSibling := x.prevSibling }
  t.store node fun x => { x with prevSibling := 0, nextSibling := 0 }

def treeNodeLinkSibling (t : Tree) (node prevSibling nextSibling : Nat) : Option (Ret × Tree) :=
  if node ≠ 0 ∧ (prevSibling ≠ 0 ∨ nextSibling ≠ 0) then
    if prevSibling ≠ 0 then do
      let p ← t.load prevSibling
      let t ← t.store node fun x =>
        { x with parent := p.parent, prevSibling, nextSibling := p.nextSibling }
      let t ← t.store prevSibling fun y => { y with nextSibling := node }
      let t ← t.storeIf p.nextSibling fun y => { y with prevSibling := node }
      return (.ok, t)
    else do
      let q ← t.load nextSibling
      let t ← t.store node fun x =>
        { x with parent := q.parent, nextSibling, prevSibling := q.prevSibling }
      let t ← t.store nextSibling fun y => { y with prevSibling := node }
      let t ← t.storeIf q.prevSibling fun y => { y with nextSibling := node }
      return (.ok, t)
  else some (.badParams, t)

/-- The children of a node, as the traversals visit them. -/
def children (t : Tree) (x : TreeNode) : Option (List Nat) :=
  (t.treeNodeGetFirstSibling x.child).bind t.siblingsFrom

/-! ## Traversals -/

/-- `tree_foreach_type_t`. -/
inductive ForeachType where
  | breadthFirst
  | preorder
  | postorder
  deriving DecidableEq

/-- The loop of `tree_node_foreach_breadth_first`. -/
def breadthFirstLoop (t : Tree) : Nat → List Nat → Option (List Nat)
  | _, [] => some []
  | 0, _ :: _ => none
  | n + 1, iter :: queue => do
    let children ← t.children (← t.load iter)
    return iter :: (← t.breadthFirstLoop n (queue ++ children))

/-- The loop of `tree_node_foreach_preorder`.  The top of the stack is the head. -/
def preorderLoop (t : Tree) (node : Nat) : Nat → List Nat → Option (List Nat)
  | _, [] => some []
  | 0, _ :: _ => none
  | n + 1, iter :: stack => do
    let x ← t.load iter
    let stack := if iter ≠ node ∧ x.nextSibling ≠ 0 then x.nextSibling :: stack else stack
    let first ← t.treeNodeGetFirstSibling x.child
    return iter :: (← t.preorderLoop node n (if first ≠ 0 then first :: stack else stack))

/-- The first loop of `tree_node_foreach_postorder`.  The second loop pops the result
from its top. -/
def postorderLoop (t : Tree) : Nat → List Nat → List Nat → Option (List Nat)
  | _, [], result => some result
  | 0, _ :: _, _ => none
  | n + 1, iter :: stack, result => do
    let children ← t.children (← t.load iter)
    t.postorderLoop n (children.reverse ++ stack) (iter :: result)

def treeNodeForeach (t : Tree) (node : Nat) (type : ForeachType) : Option (List Nat) :=
  if node = 0 then some []
  else
    match type with
    | .breadthFirst => t.breadthFirstLoop t.allocated.length [node]
    | .preorder => t.preorderLoop node t.allocated.length [node]
    | .postorder => t.postorderLoop t.allocated.length [node] []

def treeForeach (t : Tree) (node : Nat) (type : ForeachType) : Option (List Nat) :=
  t.treeNodeForeach (if node = 0 then t.root else node) type

def treeSize (t : Tree) (node : Nat) : Option Nat :=
  (t.treeForeach node .preorder).map List.length

/-! ## Destroying -/

def treeNodeDestroyImpl (t : Tree) (node : Nat) : Option Tree :=
  (t.load node).map fun x =>
    let t := if x.data ≠ 0 then t.record (.dataDestroyed (t.serial node) x.data) else t
    { t with allocated := t.allocated.erase node }.record (.freed (t.serial node))

/-- The nodes are visited by `tree_node_destroy_on_visit`. -/
def destroyNodes : Tree → List Nat → Option Tree
  | t, [] => some t
  | t, node :: nodes => (t.treeNodeDestroyImpl node).bind fun t => t.destroyNodes nodes

def treeNodeDestroy (t : Tree) (node : Nat) : Option Tree := do
  let t ← t.treeNodeUnlink node
  t.destroyNodes (← t.treeNodeForeach node .postorder)

def treeRemoveNode (t : Tree) (node : Nat) : Option (Ret × Tree) :=
  if node = 0 then some (.badParams, t) else (t.treeNodeDestroy node).map (.ok, ·)

def treeUnlinkNode (t : Tree) (node : Nat) : Option (Ret × Tree) :=
  if node = 0 then some (.badParams, t) else (t.treeNodeUnlink node).map (.ok, ·)

def treeClear (t : Tree) : Option Tree :=
  if t.root ≠ 0 then (t.treeRemoveNode t.root).map fun (_, t) => { t with root := 0 } else some t

/-- The nodes `tree_remove_on_visit` pushes, in this order, while `removeSize` is not
used up. -/
def removeList (t : Tree) (compare : Nat → Nat → Int) (ctx : Nat) : Nat → List Nat → List Nat
  | _, [] => []
  | 0, _ :: _ => []
  | removeSize + 1, node :: nodes =>
    if compare (t.node node).data ctx = 0 then
      node :: t.removeList compare ctx removeSize nodes
    else t.removeList compare ctx (removeSize + 1) nodes

/-- `darray_remove_all` with `tree_node_is_ancestor_cmp`. -/
def removeDescendants (t : Tree) (iter : Nat) : List Nat → Option (List Nat)
  | [] => some []
  | node :: nodes => do
    let isAncestor ← t.treeNodeIsAncestor node iter
    let nodes ← t.removeDescendants iter nodes
    return if isAncestor then nodes else node :: nodes

/-- The last loop of `tree_remove_ex`.  The top of the list is the head. -/
def removeLoop : Nat → Tree → List Nat → Option Tree
  | _, t, [] => some t
  | 0, _, _ :: _ => none
  | n + 1, t, iter :: nodes => do
    let nodes ← t.removeDescendants iter nodes
    let (_, t) ← t.treeRemoveNode iter
    removeLoop n t nodes

def treeRemoveEx (t : Tree) (node : Nat) (type : ForeachType) (compare : Nat → Nat → Int)
    (ctx : Nat) (removeSize : Int) : Option (Ret × Tree) := do
  if removeSize = 0 then return (.ok, t)
  let size ← t.treeSize node
  let removeSize := if removeSize < 0 then size else min removeSize.toNat size
  let nodes ← t.treeForeach node type
  let list := t.removeList compare ctx removeSize nodes
  return (.ok, ← removeLoop list.length t list.reverse)

/-! ## Inserting -/

def treeSetRoot (t : Tree) (root : Nat) : Option (Ret × Tree) :=
  if root = 0 then some (.badParams, t) else t.treeClear.map fun t => (.ok, { t with root })

def treeInsertSiblingNode (t : Tree) (node index sibling : Nat) : Option (Ret × Tree) :=
  if node = 0 ∨ sibling = 0 then some (.badParams, t)
  else if node = t.root then some (.fail, t)
  else do
    let first ← t.treeNodeGetFirstSibling node
    if index = 0 then t.treeNodeLinkSibling sibling 0 first
    else
      let siblings ← t.siblingsFrom first
      let pos := treeNodeGetSiblingByIndex siblings index
      if index < treeNodeSiblingSize siblings then
        let x ← t.load pos
        t.treeNodeLinkSibling sibling x.prevSibling pos
      else t.treeNodeLinkSibling sibling pos 0

def treeInsertChildNode (t : Tree) (node index child : Nat) : Option (Ret × Tree) :=
  if child = 0 then some (.badParams, t)
  else if t.root = 0 then t.treeSetRoot child
  else do
    let node := if node = 0 then t.root else node
    let x ← t.load node
    if x.child = 0 then
      let t ← t.store node fun x => { x with child }
      let t ← t.store child fun x => { x with parent := node }
      return (.ok, t)
    else t.treeInsertSiblingNode x.child index child

end Tree

end Awtk
