import Awtk.Lib.Run
import Awtk.Tkc.TreeRemove

/-!
# Runs of the tree

A run is any sequence of insertions of fresh nodes, unlinks, removals and clears.  The
links stay those of ordered trees in every run that keeps the root.

`tree_remove_node` and `tree_remove_ex` free the root without a write to `tree->root`,
as `tree_clear` makes it.  `KeepsRoot` excludes just these calls.
-/

namespace Awtk.Tree

open Runs Function List Option

variable {t t' : Tree} {forest rest : List Siblings} {rank : Nat → Nat} {g : Siblings}
  {a n : Nat}

/-! ## Steps -/

/-- A call of the client. -/
inductive Op where
  | create (a data : Nat)
  | insertChild (node index child : Nat)
  | insertSibling (node index sibling : Nat)
  | unlink (node : Nat)
  | remove (node : Nat)
  | removeEx (node : Nat) (type : ForeachType) (compare : Nat → Nat → Int) (ctx : Nat)
      (removeSize : Int)
  | clear

def step (t : Tree) : Op → Option Tree
  | .create a data => some (t.treeCreateNode a data)
  | .insertChild node index child => (t.treeInsertChildNode node index child).map Prod.snd
  | .insertSibling node index sibling => (t.treeInsertSiblingNode node index sibling).map Prod.snd
  | .unlink node => (t.treeUnlinkNode node).map Prod.snd
  | .remove node => (t.treeRemoveNode node).map Prod.snd
  | .removeEx node type compare ctx removeSize =>
    (t.treeRemoveEx node type compare ctx removeSize).map Prod.snd
  | .clear => t.treeClear

/-- NULL or a node that is not freed. -/
def IsNode (t : Tree) (node : Nat) : Prop := node = 0 ∨ node ∈ t.allocated

instance (t : Tree) (node : Nat) : Decidable (IsNode t node) :=
  inferInstanceAs (Decidable (_ ∨ _))

/-- A node without links that is not the root. -/
def Fresh (t : Tree) (node : Nat) : Prop :=
  node ∈ t.allocated ∧ node ≠ t.root ∧ t.parent node = 0 ∧ t.prev node = 0 ∧ t.next node = 0 ∧
    t.child node = 0

instance (t : Tree) (node : Nat) : Decidable (Fresh t node) := inferInstanceAs (Decidable (_ ∧ _))

/-- The allocator returns NULL or memory that is not in use, the arguments are NULL or
nodes, and a node that is inserted is fresh. -/
def Allowed (t : Tree) : Op → Prop
  | .create a _ => a ∉ t.allocated
  | .insertChild node _ child => IsNode t node ∧ (child = 0 ∨ Fresh t child ∧ node ≠ child)
  | .insertSibling node _ sibling => IsNode t node ∧ (sibling = 0 ∨ Fresh t sibling ∧ node ≠ sibling)
  | .unlink node | .remove node | .removeEx node .. => IsNode t node
  | .clear => True

instance (t : Tree) : ∀ op : Op, Decidable (Allowed t op)
  | .create .. => inferInstanceAs (Decidable (_ ∉ _))
  | .insertChild .. | .insertSibling .. => inferInstanceAs (Decidable (_ ∧ _))
  | .unlink node | .remove node | .removeEx node .. => inferInstanceAs (Decidable (IsNode t node))
  | .clear => inferInstanceAs (Decidable True)

/-- The matches below the root. -/
def matchesBelowRoot (t : Tree) (compare : Nat → Nat → Int) (ctx : Nat) : Nat :=
  t.allocated.countP fun b =>
    t.treeNodeIsAncestor b t.root = some true ∧ compare (t.node b).data ctx = 0

/-- The root is not the node that is removed, and it is no match, or a postorder removal
finds as many matches as it is to remove before it comes to the root. -/
def KeepsRoot (t : Tree) : Op → Prop
  | .remove node => node = 0 ∨ node ≠ t.root
  | .removeEx node type compare ctx removeSize =>
    (node ≠ 0 ∧ node ≠ t.root) ∨ t.root = 0 ∨ removeSize = 0 ∨
      compare (t.node t.root).data ctx ≠ 0 ∨
      type = .postorder ∧ 0 < removeSize ∧ removeSize ≤ matchesBelowRoot t compare ctx
  | _ => True

instance (t : Tree) : ∀ op : Op, Decidable (KeepsRoot t op)
  | .remove _ | .removeEx .. => inferInstanceAs (Decidable (_ ∨ _))
  | .create .. | .insertChild .. | .insertSibling .. | .unlink _ | .clear =>
    inferInstanceAs (Decidable True)

/-! ## Insertions -/

theorem Wf.fresh_group (h : Wf t forest rank) (hn : Fresh t n) : ⟨0, [n]⟩ ∈ forest := by
  obtain ⟨halive, -, hparent, hprev, hnext, -⟩ := hn
  obtain ⟨⟨p, nodes⟩, hg, hng⟩ := h.group halive
  obtain ⟨l₁, l₂, rfl⟩ := append_of_mem hng
  obtain ⟨rest, hwf, -⟩ := h.split hg
  obtain ⟨hlinkPrev, hlinkNext, hlinkParent⟩ := hwf.links
  have h0 (b : Nat) (hb : b ∈ l₁ ++ l₂) : b ≠ 0 :=
    hwf.ne_zero (hwf.mem_alive mem_cons_self (hwf.others hb).2)
  have hnil₁ := eq_nil_of_getLastD (hlinkPrev.symm.trans hprev)
    fun b hb => h0 b (mem_append_left l₂ hb)
  have hnil₂ := eq_nil_of_headD (hlinkNext.symm.trans hnext)
    fun b hb => h0 b (mem_append_right l₁ hb)
  rw [hnil₁, hnil₂, ← hlinkParent, hparent] at hg
  exact hg

theorem Wf.split_two (h : Wf t forest rank) (hn : ⟨0, [n]⟩ ∈ forest) (hg : g ∈ forest)
    (hne : g ≠ ⟨0, [n]⟩) :
    ∃ rest, Wf t (⟨0, [n]⟩ :: g :: rest) rank ∧ (⟨0, [n]⟩ :: g :: rest).Perm forest := by
  obtain ⟨rest, -, hperm⟩ := h.split hn
  obtain ⟨l₁, l₂, rfl⟩ := append_of_mem
    ((mem_cons.mp (hperm.mem_iff.mpr hg)).resolve_left hne)
  have hperm' : ((⟨0, [n]⟩ : Siblings) :: g :: (l₁ ++ l₂)).Perm forest :=
    (perm_middle.symm.cons _).trans hperm
  exact ⟨l₁ ++ l₂, h.perm hperm', hperm'⟩

theorem Rooted.perm {forest' : List Siblings} (h : Rooted t forest) (hperm : forest'.Perm forest) :
    Rooted t forest' :=
  h.imp_right hperm.mem_iff.mpr

theorem Rooted.edit {old new : List Siblings} (h : Rooted t (old ++ rest))
    (hold : ∀ g ∈ old, g ≠ ⟨0, [t.root]⟩) (hr : Relinks t t') : Rooted t' (new ++ rest) := by
  have hroot : t'.root = t.root := by rw [hr.same]
  rw [Rooted, hroot]
  refine h.imp_right fun hmem => mem_append_right new ?_
  exact (mem_append.mp hmem).resolve_left fun hm => hold _ hm rfl

theorem getSiblingByIndex_split : ∀ {nodes : List Nat} (index : Nat), nodes ≠ [] →
    ∃ l₁ l₂, nodes = l₁ ++ treeNodeGetSiblingByIndex nodes index :: l₂ ∧
      (index < nodes.length → l₁.length = index)
  | [], _, hne => absurd rfl hne
  | [a], _, _ => ⟨[], [], rfl, fun h => (Nat.lt_one_iff.mp h).symm⟩
  | a :: b :: nodes, 0, _ => ⟨[], b :: nodes, rfl, fun _ => rfl⟩
  | a :: b :: nodes, index + 1, _ => by
    obtain ⟨l₁, l₂, heq, hlen⟩ :=
      getSiblingByIndex_split index (cons_ne_nil b nodes)
    refine ⟨a :: l₁, l₂, ?_, fun h => ?_⟩
    · rw [treeNodeGetSiblingByIndex, cons_append, ← heq]
    · exact congrArg (· + 1) (hlen (Nat.lt_of_succ_lt_succ h))

/-! ## Calls -/

/-- A call returns, and the tree stays in order. -/
def Returns (res : Option Tree) : Prop := ∃ t', res = some t' ∧ Sound t'

theorem Wf.create (h : Wf t forest rank) (ha : a ∉ t.allocated) (h0 : a ≠ 0) (data : Nat) :
    Wf (t.treeCreateNode a data) (⟨0, [a]⟩ :: forest) rank := by
  rw [treeCreateNode, if_neg h0]
  have hne {b : Nat} (hb : b ∈ t.allocated) : b ≠ a := fun heq => ha (heq ▸ hb)
  have hnode {b : Nat} (hb : b ∈ t.allocated) :
      Function.update t.node a ⟨data, 0, 0, 0, 0⟩ b = t.node b := update_of_ne (hne hb) _ _
  have hself : Function.update t.node a ⟨data, 0, 0, 0, 0⟩ a = ⟨data, 0, 0, 0, 0⟩ :=
    update_self _ _ _
  refine ⟨h.alive.cons a, nodup_cons.mpr ⟨ha, h.nodup⟩, fun hmem => ?_, fun g hg => ?_,
    fun g hg => ?_, fun g hg b hb => ?_, fun g hg hp => ?_, fun b hb hc => ?_, fun g hg hp => ?_⟩
  · rcases mem_cons.mp hmem with heq | hmem
    · exact h0 heq.symm
    · exact h.nonnull hmem
  · rcases mem_cons.mp hg with rfl | hg
    · exact cons_ne_nil a []
    · exact h.nonempty g hg
  · rcases mem_cons.mp hg with rfl | hg
    · refine DList.seg_singleton.mpr ⟨?_, ?_⟩
      · exact congrArg TreeNode.prevSibling hself
      · exact congrArg TreeNode.nextSibling hself
    · refine (h.linked g hg).congr fun b hb => ?_
      have hb' := hnode (h.mem_alive hg hb)
      exact ⟨congrArg TreeNode.nextSibling hb', congrArg TreeNode.prevSibling hb'⟩
  · rcases mem_cons.mp hg with rfl | hg
    · rw [mem_singleton.mp hb]
      exact congrArg TreeNode.parent hself
    · exact (congrArg TreeNode.parent (hnode (h.mem_alive hg hb))).trans (h.parent_eq g hg b hb)
  · rcases mem_cons.mp hg with rfl | hg
    · exact absurd rfl hp
    · obtain ⟨hal, hc⟩ := h.child_mem g hg hp
      refine ⟨mem_cons_of_mem a hal, ?_⟩
      change (Function.update t.node a ⟨data, 0, 0, 0, 0⟩ g.parent).child ∈ g.nodes
      rw [hnode hal]
      exact hc
  · rcases mem_cons.mp hb with rfl | hb
    · exact absurd (congrArg TreeNode.child hself) hc
    · have hc' : t.child b ≠ 0 := fun heq => hc ((congrArg TreeNode.child (hnode hb)).trans heq)
      obtain ⟨g, hg, hgb⟩ := h.leaf b hb hc'
      exact ⟨g, mem_cons_of_mem _ hg, hgb⟩
  · rcases mem_cons.mp hg with rfl | hg
    · exact absurd rfl hp
    · exact h.rank_lt g hg hp

theorem Logged.create (h : Logged t) (ha : a ∉ t.allocated) (h0 : a ≠ 0) (data : Nat) :
    Logged (t.treeCreateNode a data) := by
  rw [treeCreateNode, if_neg h0]
  have hne {b : Nat} (hb : b ∈ t.allocated) : b ≠ a := fun heq => ha (heq ▸ hb)
  have hserial {b : Nat} (hb : b ∈ t.allocated) :
      Function.update t.serial a t.count b = t.serial b := update_of_ne (hne hb) _ _
  have hself : Function.update t.serial a t.count a = t.count := update_self _ _ _
  have hcr {s d : Nat} (hc : .created s d ∈ (.created t.count data :: t.log : List Event)) :
      (s = t.count ∧ d = data) ∨ .created s d ∈ t.log := by simpa using hc
  have hfr {s : Nat} : .freed s ∈ (.created t.count data :: t.log : List Event) ↔
      .freed s ∈ t.log := by simp
  have hnew (d : Nat) : .created t.count d ∉ t.log := fun hc => Nat.lt_irrefl _ (h.created_lt _ d hc)
  have hnotFreed : .freed t.count ∉ t.log := fun hf => Nat.lt_irrefl _ (h.freed_lt _ hf)
  refine ⟨fun b hb => ?_, fun b hb c hc heq => ?_, fun b hb => ?_, fun s d hc => ?_,
    fun s d d' hc hc' => ?_, fun s hf => ?_, fun s hs => ?_, fun s => ?_, fun s d => ?_⟩
  · change Function.update t.serial a t.count b < t.count + 1
    rcases mem_cons.mp hb with rfl | hb'
    · rw [hself]
      exact Nat.lt_succ_self _
    · rw [hserial hb']
      exact Nat.lt_succ_of_lt (h.serial_lt b hb')
  · change Function.update t.serial a t.count b = Function.update t.serial a t.count c at heq
    rcases mem_cons.mp hb with rfl | hb'
    · rcases mem_cons.mp hc with rfl | hc'
      · rfl
      · rw [hself, hserial hc'] at heq
        exact absurd (h.serial_lt c hc') (heq ▸ Nat.lt_irrefl _)
    · rcases mem_cons.mp hc with rfl | hc'
      · rw [hself, hserial hb'] at heq
        exact absurd (h.serial_lt b hb') (heq ▸ Nat.lt_irrefl _)
      · rw [hserial hb', hserial hc'] at heq
        exact h.serial_inj b hb' c hc' heq
  · change .created (Function.update t.serial a t.count b)
      (Function.update t.node a ⟨data, 0, 0, 0, 0⟩ b).data ∈ (_ :: t.log : List Event)
    rcases mem_cons.mp hb with rfl | hb'
    · rw [hself, update_self]
      exact mem_cons_self
    · rw [hserial hb', update_of_ne (hne hb')]
      exact mem_cons_of_mem _ (h.created b hb')
  · rcases hcr hc with ⟨rfl, -⟩ | hold
    · exact Nat.lt_succ_self _
    · exact Nat.lt_succ_of_lt (h.created_lt s d hold)
  · rcases hcr hc with ⟨hs, hd⟩ | hold
    · rcases hcr hc' with ⟨-, hd'⟩ | hold'
      · exact hd.trans hd'.symm
      · exact absurd (hs ▸ hold') (hnew d')
    · rcases hcr hc' with ⟨hs, -⟩ | hold'
      · exact absurd (hs ▸ hold) (hnew d)
      · exact h.created_unique s d d' hold hold'
  · exact Nat.lt_succ_of_lt (h.freed_lt s (hfr.mp hf))
  · change _ ↔ ∀ b ∈ a :: t.allocated, Function.update t.serial a t.count b ≠ s
    refine hfr.trans ?_
    rw [forall_mem_cons, hself]
    rcases Nat.lt_succ_iff_lt_or_eq.mp hs with hlt | rfl
    · refine (h.freed_iff s hlt).trans ⟨fun hall => ⟨Nat.ne_of_gt hlt, fun b hb => ?_⟩,
        fun hall b hb => ?_⟩
      · rw [hserial hb]
        exact hall b hb
      · rw [← hserial hb]
        exact hall.2 b hb
    · exact iff_of_false hnotFreed fun hall => hall.1 rfl
  · change (_ :: t.log : List Event).count _ ≤ 1
    rw [count_cons_of_ne (by simp)]
    exact h.freed_once s
  · change (_ :: t.log : List Event).count _ = _
    rw [count_cons_of_ne (by simp), h.destroyed s d]
    refine if_congr (and_congr_right fun _ => ?_) rfl rfl
    refine ⟨fun ⟨hc, hf⟩ => ⟨mem_cons_of_mem _ hc, hfr.mpr hf⟩, fun ⟨hc, hf⟩ => ?_⟩
    have hf' := hfr.mp hf
    rcases hcr hc with ⟨rfl, -⟩ | hold
    · exact absurd hf' hnotFreed
    · exact ⟨hold, hf'⟩

theorem Sound.create (h : Sound t) (ha : a ∉ t.allocated) (data : Nat) :
    Sound (t.treeCreateNode a data) := by
  obtain ⟨forest, rank, hwf, hroot, hlog⟩ := h
  by_cases h0 : a = 0
  · rw [treeCreateNode, if_pos h0]
    exact ⟨forest, rank, hwf, hroot, hlog⟩
  · refine ⟨_, rank, hwf.create ha h0 data, ?_, hlog.create ha h0 data⟩
    rw [treeCreateNode, if_neg h0]
    exact hroot.imp_right (mem_cons_of_mem _)

theorem Sound.unlink (h : Sound t) (hn : n ∈ t.allocated) : Returns (t.treeNodeUnlink n) := by
  obtain ⟨forest, rank, hwf, hroot, hlog⟩ := h
  obtain ⟨⟨p, nodes⟩, hg, hng⟩ := hwf.group hn
  obtain ⟨l₁, l₂, rfl⟩ := append_of_mem hng
  obtain ⟨rest, hwf', hperm⟩ := hwf.split hg
  obtain ⟨t', ht', hr⟩ := hwf'.unlinked
  have hrelinks : Relinks t t' := ⟨hr.same, fun b hb => by rw [hr.node b hb, unlinkedNode]⟩
  refine ⟨t', ht', _, rank, hwf'.unlink hr, ?_, hlog.relinks hrelinks⟩
  have hroot' : t'.root = t.root := by rw [hr.same]
  rw [Rooted, hroot']
  refine (hroot.perm hperm).imp_right fun hmem => ?_
  rcases mem_cons.mp hmem with heq | hmem
  · have hnodes : [t.root] = l₁ ++ n :: l₂ := congrArg Siblings.nodes heq
    have hmem : n ∈ [t.root] := by
      rw [hnodes]
      simp
    rw [mem_singleton.mp hmem]
    exact mem_cons_self
  · exact mem_append_right _ hmem

theorem Sound.remove (h : Sound t) (hn : n ∈ t.allocated) (hne : n ≠ t.root) :
    Returns (t.treeNodeDestroy n) := by
  obtain ⟨forest, rank, hwf, hroot, hlog⟩ := h
  obtain ⟨t', forest', ht', hd⟩ := hwf.destroy hlog hn
  exact ⟨t', ht', forest', rank, hd.wf, hd.sound hroot hne, hd.logged⟩

theorem Sound.clear (h : Sound t) : Returns t.treeClear := by
  obtain ⟨forest, rank, hwf, hroot, hlog⟩ := h
  unfold treeClear
  by_cases h0 : t.root ≠ 0
  · have hn := hwf.mem_alive (hroot.resolve_left h0) (mem_singleton_self _)
    obtain ⟨t', forest', ht', hd⟩ := hwf.destroy hlog hn
    rw [if_pos h0, treeRemoveNode, if_neg h0, ht']
    refine ⟨_, rfl, forest', rank, ?_, .inl rfl, ?_⟩
    · exact ⟨hd.wf.alive, hd.wf.nodup, hd.wf.nonnull, hd.wf.nonempty, hd.wf.linked,
        hd.wf.parent_eq, hd.wf.child_mem, hd.wf.leaf, hd.wf.rank_lt⟩
    · exact ⟨hd.logged.serial_lt, hd.logged.serial_inj, hd.logged.created, hd.logged.created_lt,
        hd.logged.created_unique, hd.logged.freed_lt, hd.logged.freed_iff, hd.logged.freed_once,
        hd.logged.destroyed⟩
  · rw [if_neg h0]
    exact ⟨t, rfl, forest, rank, hwf, hroot, hlog⟩

theorem Sound.linked {old : List Siblings} {res : Option (Ret × Tree)}
    (hroot : Rooted t (old ++ rest)) (hold : ∀ g ∈ old, g ≠ ⟨0, [t.root]⟩) (hlog : Logged t)
    (h : ∃ t', res = some (.ok, t') ∧ Relinks t t' ∧ ∃ rank', Wf t' (g :: rest) rank') :
    Returns (res.map Prod.snd) := by
  obtain ⟨t', rfl, hr, rank', hwf⟩ := h
  have hroot' : Rooted t' ([g] ++ rest) := hroot.edit hold hr
  exact ⟨t', rfl, _, rank', hwf, hroot', hlog.relinks hr⟩

theorem Sound.insertSibling (h : Sound t) {node sibling : Nat} (hnode : node ∈ t.allocated)
    (hroot : node ≠ t.root) (hs : Fresh t sibling) (hne : node ≠ sibling) (index : Nat) :
    Returns ((t.treeInsertSiblingNode node index sibling).map Prod.snd) := by
  obtain ⟨forest, rank, hwf, hrooted, hlog⟩ := h
  obtain ⟨⟨p, nodes⟩, hg, hng⟩ := hwf.group hnode
  have hnot {a : Nat} (ha : node ≠ a) : (⟨p, nodes⟩ : Siblings) ≠ ⟨0, [a]⟩ := by
    intro heq
    have hnodes : nodes = [a] := congrArg Siblings.nodes heq
    rw [hnodes] at hng
    exact ha (mem_singleton.mp hng)
  obtain ⟨rest, hwf', hperm⟩ := hwf.split_two (hwf.fresh_group hs) hg (hnot hne)
  have hold (g : Siblings) (hg : g ∈ ([⟨0, [sibling]⟩, ⟨p, nodes⟩] : List Siblings)) :
      g ≠ ⟨0, [t.root]⟩ := by
    rcases mem_cons.mp hg with rfl | hg
    · exact fun heq => hs.2.1 (by simpa using heq)
    · exact mem_singleton.mp hg ▸ hnot hroot
  have hrooted' : Rooted t ([⟨0, [sibling]⟩, ⟨p, nodes⟩] ++ rest) := hrooted.perm hperm
  have hleaf : t.child sibling = 0 := hs.2.2.2.2.2
  have hguard : ¬(node = 0 ∨ sibling = 0) :=
    not_or.mpr ⟨hwf.ne_zero hnode, hwf.ne_zero hs.1⟩
  unfold treeInsertSiblingNode
  rw [if_neg hguard, if_neg hroot, hwf.first_sibling hg hng]
  simp only [bind_eq_bind, bind_some]
  split_ifs with h0
  · cases nodes with
    | nil => exact absurd hng not_mem_nil
    | cons a l₂ => exact Sound.linked hrooted' hold hlog (hwf'.link_next hleaf)
  · rw [hwf.siblings_from hg, bind_some]
    obtain ⟨l₁, l₂, hsplit, hlen⟩ := getSiblingByIndex_split index (ne_nil_of_mem hng)
    generalize treeNodeGetSiblingByIndex nodes index = pos at hsplit ⊢
    subst hsplit
    have hpos : pos ∈ t.allocated := hwf.mem_alive hg (by simp)
    by_cases hlt : index < treeNodeSiblingSize (l₁ ++ pos :: l₂)
    · have hlen' : l₁.length = index := hlen (Nat.lt_of_lt_of_le hlt (Nat.mod_le _ _))
      rcases eq_nil_or_concat l₁ with rfl | ⟨l, b, rfl⟩
      · exact absurd hlen'.symm h0
      · have hprev : (t.node pos).prevSibling = b := by
          have hlinks := (hwf.linked _ hg).mid.1
          rwa [concat_eq_append, getLastD_concat] at hlinks
        rw [if_pos hlt, load_eq hpos, bind_some, hprev]
        rw [concat_eq_append, append_assoc] at hwf' hrooted' hold
        exact Sound.linked hrooted' hold hlog (hwf'.link_prev hleaf pos)
    · rw [if_neg hlt]
      exact Sound.linked hrooted' hold hlog (hwf'.link_prev hleaf 0)

theorem Sound.insertChild (h : Sound t) {node child : Nat} (hnode : IsNode t node)
    (hc : Fresh t child) (hne : node ≠ child) (index : Nat) :
    Returns ((t.treeInsertChildNode node index child).map Prod.snd) := by
  obtain ⟨forest, rank, hwf, hrooted, hlog⟩ := h
  have hfresh := hwf.fresh_group hc
  have hc0 : child ≠ 0 := hwf.ne_zero hc.1
  unfold treeInsertChildNode
  rw [if_neg hc0]
  by_cases h0 : t.root = 0
  · rw [if_pos h0, treeSetRoot, if_neg hc0, treeClear, if_neg (not_not.mpr h0)]
    refine ⟨_, rfl, forest, rank, ?_, .inr hfresh, ?_⟩
    · exact ⟨hwf.alive, hwf.nodup, hwf.nonnull, hwf.nonempty, hwf.linked, hwf.parent_eq,
        hwf.child_mem, hwf.leaf, hwf.rank_lt⟩
    · exact ⟨hlog.serial_lt, hlog.serial_inj, hlog.created, hlog.created_lt, hlog.created_unique,
        hlog.freed_lt, hlog.freed_iff, hlog.freed_once, hlog.destroyed⟩
  · rw [if_neg h0]
    have hrootGroup := hrooted.resolve_left h0
    -- the parent is the root where none is given
    have hp : (if node = 0 then t.root else node) ∈ t.allocated ∧
        (if node = 0 then t.root else node) ≠ child := by
      split_ifs with hn0
      · exact ⟨hwf.mem_alive hrootGroup (mem_singleton_self _), hc.2.1.symm⟩
      · exact ⟨hnode.resolve_left hn0, hne⟩
    dsimp only
    generalize (if node = 0 then t.root else node) = p at hp ⊢
    obtain ⟨hpa, hpc⟩ := hp
    rw [load_eq hpa]
    simp only [bind_eq_bind, bind_some]
    split_ifs with hleaf
    · rw [store_eq hpa, bind_some, store_eq (by rw [put_allocated]; exact hc.1)]
      obtain ⟨rest, hwf', hperm⟩ := hwf.split hfresh
      have hr : Rewrites t ((t.put p fun x => { x with child }).put child
          fun x => { x with parent := p }) fun b => { t.node b with
            parent := if b = child then p else t.parent b
            child := if b = p then child else t.child b } := by
        refine ⟨(sameBut_put _).trans (sameBut_put _), fun b _ => ?_⟩
        rw [put_node, put_node]
        ext <;> grind [parent, Tree.child]
      have hrooted' : Rooted t ([⟨0, [child]⟩] ++ rest) := hrooted.perm hperm
      refine Sound.linked hrooted' (fun g hg => ?_) hlog
        ⟨_, rfl, hwf'.adopt hc.2.2.2.2.2 hpa hpc hleaf hr⟩
      rw [mem_singleton.mp hg]
      exact fun heq => hc.2.1 (by simpa using heq)
    · obtain ⟨g, hg, hgp⟩ := hwf.leaf p hpa hleaf
      have hgp0 : g.parent ≠ 0 := hgp.symm ▸ hwf.ne_zero hpa
      have hmem := (hwf.child_mem g hg hgp0).2
      rw [hgp] at hmem
      have hother {a : Nat} (ha : ⟨0, [a]⟩ ∈ forest) : t.child p ≠ a := by
        rintro rfl
        have heq := hwf.group_unique hg ha hmem (mem_singleton_self _)
        exact hgp0 (congrArg Siblings.parent heq).symm
      exact Sound.insertSibling ⟨forest, rank, hwf, hrooted, hlog⟩ (hwf.mem_alive hg hmem)
        (hother hrootGroup) hc (hother hfresh) index

theorem Wf.countP_below (h : Wf t forest rank) (ha : a ∈ t.allocated) {visited : List Nat}
    (hv : Visits forest a (visited ++ [a])) (p : Nat → Bool) :
    visited.countP p =
      t.allocated.countP fun b => t.treeNodeIsAncestor b a = some true ∧ p b = true := by
  obtain ⟨hnodup, -, hdisj⟩ := nodup_append.mp hv.nodup
  have hperm : visited.Perm (t.allocated.filter fun b => t.treeNodeIsAncestor b a = some true) := by
    refine (perm_ext_iff_of_nodup hnodup (h.nodup.filter _)).mpr fun b => ?_
    rw [mem_filter, decide_eq_true_eq]
    have hmem := hv.mem_iff b
    rw [mem_append, mem_singleton] at hmem
    constructor
    · intro hb
      have hbelow := hmem.mp (.inl hb)
      have hba := h.below_alive ha hbelow
      obtain ⟨r, hr, hiff⟩ := h.isAncestor ha hba
      refine ⟨hba, hr.trans (congrArg some (hiff.mpr ⟨?_, hbelow⟩))⟩
      exact hdisj b hb a (mem_singleton_self a)
    · rintro ⟨hba, hanc⟩
      obtain ⟨r, hr, hiff⟩ := h.isAncestor ha hba
      obtain ⟨hne, hbelow⟩ := hiff.mp (some.inj (hr.symm.trans hanc))
      exact (hmem.mpr hbelow).resolve_right hne
  rw [hperm.countP_eq, countP_filter]
  refine countP_congr fun b _ => ?_
  simp [and_comm]

/-- A removal that keeps the root does not put it on its list. -/
theorem Wf.root_notMem (h : Wf t forest rank) (hrooted : Rooted t forest) {node : Nat}
    {type : ForeachType} {compare : Nat → Nat → Int} {ctx k : Nat} {removeSize : Int}
    (hk : KeepsRoot t (.removeEx node type compare ctx removeSize)) (hsize : removeSize ≠ 0)
    (hpos : 0 < removeSize → k ≤ removeSize.toNat) (ha : a ∈ t.allocated)
    (hnode : a = if node = 0 then t.root else node) {visited : List Nat}
    (hvisited : t.treeNodeForeach a type = some visited) (hv : Visits forest a visited) :
    t.root ∉ t.removeList compare ctx k visited := by
  intro hmem
  obtain ⟨hsub, hmatch⟩ := removeList_sublist (t := t) compare ctx k visited
  have hbelow := (hv.mem_iff _).mp (hsub.subset hmem)
  have halive := h.below_alive ha hbelow
  have hr0 := h.ne_zero halive
  have hgroup := hrooted.resolve_left hr0
  have hra : t.root = a := by
    refine (h.below_cases ha hbelow).resolve_right fun hp => hp.1 ?_
    exact h.parent_eq _ hgroup t.root (mem_singleton_self _)
  rcases hk with hother | hnull | hzero | hdiffers | ⟨rfl, hlt, hle⟩
  · rw [if_neg hother.1] at hnode
    exact hother.2 (hnode.symm.trans hra.symm)
  · exact hr0 hnull
  · exact hsize hzero
  · exact hdiffers (hmatch t.root hmem)
  · obtain ⟨front, hfront, hvf⟩ := h.postorder ha
    rw [hfront, some.injEq] at hvisited
    subst hvisited
    have hcount := h.countP_below ha hvf fun b => compare (t.node b).data ctx = 0
    simp only [decide_eq_true_eq] at hcount
    have hkle : k ≤ front.countP fun b => compare (t.node b).data ctx = 0 := by
      rw [matchesBelowRoot, hra] at hle
      have := hpos hlt
      omega
    rw [removeList_append compare ctx a hkle] at hmem
    have hin := (removeList_sublist (t := t) compare ctx k front).1.subset hmem
    exact (nodup_append.mp hvf.nodup).2.2 t.root hin a (mem_singleton_self a) hra

theorem Sound.removeEx (h : Sound t) {node : Nat} (hnode : IsNode t node) {type : ForeachType}
    {compare : Nat → Nat → Int} {ctx : Nat} {removeSize : Int}
    (hk : KeepsRoot t (.removeEx node type compare ctx removeSize)) :
    Returns ((t.treeRemoveEx node type compare ctx removeSize).map Prod.snd) := by
  have hsound := h
  obtain ⟨forest, rank, hwf, hrooted, hlog⟩ := h
  unfold treeRemoveEx
  by_cases hsize : removeSize = 0
  · rw [if_pos hsize]
    exact ⟨t, rfl, hsound⟩
  rw [if_neg hsize]
  simp only [treeSize, treeForeach]
  generalize hstart : (if node = 0 then t.root else node) = a
  by_cases ha0 : a = 0
  · simp only [treeNodeForeach, if_pos ha0, map_some, bind_eq_bind, bind_some]
    refine ⟨t, ?_, hsound⟩
    generalize (if removeSize < 0 then _ else _) = k
    cases k <;> rfl
  · have ha : a ∈ t.allocated := by
      by_cases hn0 : node = 0
      · rw [if_pos hn0] at hstart
        exact hstart ▸ hwf.mem_alive (hrooted.resolve_left (hstart ▸ ha0)) (mem_singleton_self _)
      · rw [if_neg hn0] at hstart
        exact hstart ▸ hnode.resolve_left hn0
    obtain ⟨sized, hsized, -⟩ := hwf.foreach ha .preorder
    obtain ⟨visited, hvisited, hv⟩ := hwf.foreach ha type
    simp only [bind_eq_bind, hsized, map_some, bind_some, hvisited]
    generalize hkdef : (if removeSize < 0 then sized.length else min removeSize.toNat sized.length) = k
    have hpos (hlt : 0 < removeSize) : k ≤ removeSize.toNat := by
      rw [if_neg (Int.not_lt.mpr (Int.le_of_lt hlt))] at hkdef
      exact hkdef ▸ Nat.min_le_left _ _
    have hout := hwf.root_notMem hrooted hk hsize hpos ha hstart.symm hvisited hv
    have hsub := (removeList_sublist (t := t) compare ctx k visited).1
    obtain ⟨t', ht', hs'⟩ := removeLoop_sound hsound
      (Nat.le_of_eq length_reverse)
      (nodup_reverse.mpr (hsub.nodup hv.nodup))
      (fun b hb => hwf.below_alive ha
        ((hv.mem_iff b).mp (hsub.subset (mem_reverse.mp hb))))
      fun hr => hout (mem_reverse.mp hr)
    rw [ht']
    exact ⟨t', rfl, hs'⟩

/-! ## Runs -/

theorem Sound.step (h : Sound t) (op : Op) (hallowed : Allowed t op) (hk : KeepsRoot t op) :
    Returns (step t op) := by
  have hself : Returns ((some (Ret.badParams, t)).map Prod.snd) := ⟨t, rfl, h⟩
  cases op with
  | create a data => exact ⟨_, rfl, h.create hallowed data⟩
  | insertChild node index child =>
    rcases hallowed.2 with h0 | ⟨hfresh, hne⟩
    · rw [Tree.step, treeInsertChildNode, if_pos h0]
      exact hself
    · exact h.insertChild hallowed.1 hfresh hne index
  | insertSibling node index sibling =>
    rcases hallowed.1 with h0 | hnode
    · rw [Tree.step, treeInsertSiblingNode, if_pos (.inl h0)]
      exact hself
    rcases hallowed.2 with h0 | ⟨hfresh, hne⟩
    · rw [Tree.step, treeInsertSiblingNode, if_pos (.inr h0)]
      exact hself
    by_cases hroot : node = t.root
    · have hguard : ¬(node = 0 ∨ sibling = 0) := by
        obtain ⟨forest, rank, hwf, -⟩ := h
        exact not_or.mpr ⟨hwf.ne_zero hnode, hwf.ne_zero hfresh.1⟩
      rw [Tree.step, treeInsertSiblingNode, if_neg hguard, if_pos hroot]
      exact ⟨t, rfl, h⟩
    · exact h.insertSibling hnode hroot hfresh hne index
  | unlink node =>
    rcases hallowed with h0 | hnode
    · rw [Tree.step, treeUnlinkNode, if_pos h0]
      exact hself
    · obtain ⟨t', ht', hs'⟩ := h.unlink hnode
      have h0 : node ≠ 0 := by
        obtain ⟨forest, rank, hwf, -⟩ := h
        exact hwf.ne_zero hnode
      rw [Tree.step, treeUnlinkNode, if_neg h0, ht']
      exact ⟨t', rfl, hs'⟩
  | remove node =>
    by_cases h0 : node = 0
    · rw [Tree.step, treeRemoveNode, if_pos h0]
      exact hself
    · obtain ⟨t', ht', hs'⟩ := h.remove (hallowed.resolve_left h0) (hk.resolve_left h0)
      rw [Tree.step, treeRemoveNode, if_neg h0, ht']
      exact ⟨t', rfl, hs'⟩
  | removeEx node type compare ctx removeSize => exact h.removeEx hallowed hk
  | clear => exact h.clear

theorem sound_init : Sound init := by
  refine ⟨[], fun _ => 0, ?_, .inl rfl, ?_⟩
  · constructor <;> simp [init]
  · constructor <;> simp [init]

/-- Every state of a run is in order. -/
def AlwaysSound (ops : List Op) : Prop :=
  ∀ pre, pre <+: ops → ∃ t, run step init pre = some t ∧ Sound t

/-- A run of allowed calls that keep the root does not stop, and each of its states is in
order. -/
theorem links_sound_of_run {ops : List Op}
    (hm : Meets step (fun t op => Allowed t op ∧ KeepsRoot t op) init ops) : AlwaysSound ops :=
  meets_reachable (fun _ op h hop => h.step op hop.1 hop.2) sound_init hm

theorem links_sound_of_run_short : AlwaysSound [.create 1 10, .create 2 20, .create 3 20,
    .insertChild 0 0 1, .insertChild 1 0 2, .insertSibling 2 1 3,
    .removeEx 0 .postorder (fun x y => x - y) 20 1] :=
  links_sound_of_run (by decide +kernel)

/-- The root that `tree_remove_node` frees stays the root. -/
theorem not_sound_remove_root :
    Meets step Allowed init [.create 1 10, .insertChild 0 0 1, .remove 1] ∧
      ¬AlwaysSound [.create 1 10, .insertChild 0 0 1, .remove 1] := by
  refine ⟨by decide +kernel, fun h => ?_⟩
  obtain ⟨t, ht, forest, rank, hwf, hroot, -⟩ := h _ (prefix_refl _)
  have hend : (run step init [.create 1 10, .insertChild 0 0 1, .remove 1]).map
      (fun t => (t.root, t.allocated)) = some (1, []) := by decide +kernel
  rw [ht, map_some, some.injEq, Prod.mk.injEq] at hend
  obtain ⟨hr, halive⟩ := hend
  rcases hroot with h0 | hmem
  · rw [hr] at h0
    cases h0
  · have hal := hwf.mem_alive hmem (mem_singleton_self _)
    rw [halive] at hal
    cases hal

end Awtk.Tree
