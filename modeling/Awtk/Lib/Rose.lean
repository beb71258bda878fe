import Awtk.Lib.Sweep

/-!
# Rose trees

A node with an ordered list of trees below it, and the orders in which its nodes can
be visited.  `QueueOrder` is the order in which a queue visits the nodes of some trees
that puts the kids of a node at its end; it is the order of the levels
(`QueueOrder.eq_levels`).  `Reads kids r` says that a function from nodes to their kids
has the tree `r`; a forest has one below each node, and its preorder is a sweep.
-/

/-- A node and the trees below it. -/
inductive Rose (α : Type*) where
  | node (a : α) (kids : List (Rose α))

namespace Rose

open List

variable {α : Type*}

def root : Rose α → α
  | .node a _ => a

def kids : Rose α → List (Rose α)
  | .node _ ts => ts

/-! ## Orders -/

mutual

/-- A node before what is below it. -/
def preorder : Rose α → List α
  | .node a ts => a :: preorders ts

@[inherit_doc preorder]
def preorders : List (Rose α) → List α
  | [] => []
  | r :: rs => r.preorder ++ preorders rs

end

mutual

/-- A node behind what is below it. -/
def postorder : Rose α → List α
  | .node a ts => postorders ts ++ [a]

@[inherit_doc postorder]
def postorders : List (Rose α) → List α
  | [] => []
  | r :: rs => r.postorder ++ postorders rs

end

mutual

/-- The number of levels. -/
def depth : Rose α → Nat
  | .node _ ts => depths ts + 1

@[inherit_doc depth]
def depths : List (Rose α) → Nat
  | [] => 0
  | r :: rs => max r.depth (depths rs)

end

/-- The first `n` levels, from left to right. -/
def levels : Nat → List (Rose α) → List α
  | 0, _ => []
  | n + 1, rs => rs.map root ++ levels n (rs.flatMap kids)

/-- The levels of a tree, from the top. -/
def levelOrder (r : Rose α) : List α := levels r.depth [r]

mutual

/-- The tree without what is below the nodes with `stop`. -/
def prune (stop : α → Bool) : Rose α → Rose α
  | .node a ts => .node a (if stop a then [] else prunes stop ts)

@[inherit_doc prune]
def prunes (stop : α → Bool) : List (Rose α) → List (Rose α)
  | [] => []
  | r :: rs => r.prune stop :: prunes stop rs

end

theorem preorders_append : ∀ l r : List (Rose α),
    preorders (l ++ r) = preorders l ++ preorders r
  | [], _ => rfl
  | t :: l, r => by
    rw [cons_append, preorders, preorders, preorders_append l r, append_assoc]

theorem root_mem : ∀ r : Rose α, r.root ∈ r.preorder
  | .node a ts => by
    rw [preorder]
    exact mem_cons_self

theorem mem_preorders {rs : List (Rose α)} {r : Rose α} {a : α} (hr : r ∈ rs)
    (ha : a ∈ r.preorder) : a ∈ preorders rs := by
  obtain ⟨l, l', rfl⟩ := append_of_mem hr
  rw [preorders_append, preorders]
  exact mem_append_right _ (mem_append_left _ ha)

theorem postorders_append : ∀ l r : List (Rose α),
    postorders (l ++ r) = postorders l ++ postorders r
  | [], _ => rfl
  | t :: l, r => by
    rw [cons_append, postorders, postorders, postorders_append l r, append_assoc]

theorem prunes_append (stop : α → Bool) : ∀ l r : List (Rose α),
    prunes stop (l ++ r) = prunes stop l ++ prunes stop r
  | [], _ => rfl
  | t :: l, r => by
    rw [cons_append, prunes, prunes, prunes_append stop l r, cons_append]

mutual

theorem prune_none {stop : α → Bool} : ∀ r : Rose α, (∀ a ∈ r.preorder, stop a = false) →
    r.prune stop = r
  | .node a ts, h => by
    rw [preorder, forall_mem_cons] at h
    rw [prune, h.1, if_neg Bool.false_ne_true, prunes_none ts h.2]

theorem prunes_none {stop : α → Bool} : ∀ rs : List (Rose α),
    (∀ a ∈ preorders rs, stop a = false) → prunes stop rs = rs
  | [], _ => rfl
  | r :: rs, h => by
    rw [preorders, forall_mem_append] at h
    rw [prunes, prune_none r h.1, prunes_none rs h.2]

end

mutual

theorem postorder_perm : ∀ r : Rose α, r.postorder.Perm r.preorder
  | .node a ts => by
    rw [postorder, preorder]
    exact (postorders_perm ts).append_right [a] |>.trans (perm_append_singleton a _)

theorem postorders_perm : ∀ rs : List (Rose α), (postorders rs).Perm (preorders rs)
  | [] => .nil
  | r :: rs => by
    rw [postorders, preorders]
    exact (postorder_perm r).append (postorders_perm rs)

end

theorem preorders_perm {rs rs' : List (Rose α)} (h : rs.Perm rs') :
    (preorders rs).Perm (preorders rs') := by
  induction h with
  | nil => exact .nil
  | cons r _ ih =>
    rw [preorders, preorders]
    exact ih.append_left _
  | swap r r' rs =>
    simp only [preorders, ← append_assoc]
    exact perm_append_comm.append_right _
  | trans _ _ ih ih' => exact ih.trans ih'

/-! ## A queue -/

/-- The order in which a queue visits the nodes of trees. -/
inductive QueueOrder : List (Rose α) → List α → Prop where
  | nil : QueueOrder [] []
  | cons {a : α} {ts rs : List (Rose α)} {l : List α} : QueueOrder (rs ++ ts) l →
      QueueOrder (.node a ts :: rs) (a :: l)

/-- What is in the queue is visited before its kids. -/
theorem QueueOrder.split : ∀ {rs later : List (Rose α)} {l : List α},
    QueueOrder (rs ++ later) l →
    ∃ l', l = rs.map root ++ l' ∧ QueueOrder (later ++ rs.flatMap kids) l'
  | [], later, l, h => ⟨l, rfl, by simpa using h⟩
  | .node a ts :: rs, later, l, h => by
    cases h with
    | @cons _ _ _ l h =>
      have hrest : QueueOrder (rs ++ (later ++ ts)) l := by
        rw [← append_assoc]
        exact h
      obtain ⟨l', rfl, h'⟩ := hrest.split
      refine ⟨l', rfl, ?_⟩
      rw [append_assoc] at h'
      exact h'

theorem depths_flatMap_kids : ∀ {rs : List (Rose α)} {n : Nat}, depths rs ≤ n + 1 →
    depths (rs.flatMap kids) ≤ n
  | [], _, _ => Nat.zero_le _
  | .node a ts :: rs, n, h => by
    rw [depths, depth] at h
    have hrest : depths (rs.flatMap kids) ≤ n := depths_flatMap_kids (by omega)
    have happ : ∀ l r : List (Rose α), depths (l ++ r) = max (depths l) (depths r) := by
      intro l r
      induction l with
      | nil => simp [depths]
      | cons x l ih => rw [cons_append, depths, depths, ih, Nat.max_assoc]
    rw [flatMap_cons, happ]
    have hts : depths ts ≤ n := by omega
    exact Nat.max_le.mpr ⟨hts, hrest⟩

theorem QueueOrder.eq_levels : ∀ {n : Nat} {rs : List (Rose α)} {l : List α},
    QueueOrder rs l → depths rs ≤ n → l = levels n rs
  | 0, [], _, h, _ => by
    cases h
    rfl
  | 0, .node a ts :: rs, _, _, hn => by
    rw [depths, depth] at hn
    omega
  | n + 1, rs, l, h, hn => by
    rw [← append_nil rs] at h
    obtain ⟨l', rfl, h'⟩ := h.split
    rw [nil_append] at h'
    rw [levels, h'.eq_levels (depths_flatMap_kids hn)]

theorem depths_singleton (r : Rose α) : depths [r] ≤ r.depth := by
  rw [depths, depths]
  exact Nat.max_le.mpr ⟨Nat.le_refl _, Nat.zero_le _⟩

theorem QueueOrder.eq_levelOrder {r : Rose α} {l : List α} (h : QueueOrder [r] l) :
    l = r.levelOrder :=
  h.eq_levels (depths_singleton r)

theorem mem_preorders_iff {b : α} : ∀ rs : List (Rose α),
    b ∈ preorders rs ↔ b ∈ rs.map root ∨ b ∈ preorders (rs.flatMap kids)
  | [] => by simp [preorders]
  | .node a ts :: rs => by
    rw [preorders, preorder, flatMap_cons, preorders_append, map_cons, mem_append,
      mem_preorders_iff rs]
    simp only [mem_cons, mem_append, root, kids]
    tauto

theorem mem_levels {b : α} : ∀ {n : Nat} {rs : List (Rose α)}, depths rs ≤ n →
    (b ∈ levels n rs ↔ b ∈ preorders rs)
  | 0, [], _ => Iff.rfl
  | 0, .node a ts :: rs, hn => by
    rw [depths, depth] at hn
    omega
  | n + 1, rs, hn => by
    rw [levels, mem_append, mem_levels (depths_flatMap_kids hn)]
    exact (mem_preorders_iff rs).symm

theorem mem_levelOrder {b : α} {r : Rose α} : b ∈ r.levelOrder ↔ b ∈ r.preorder := by
  have hone : preorders [r] = r.preorder := append_nil _
  rw [levelOrder, mem_levels (depths_singleton r), hone]

/-! ## The tree of a function -/

mutual

/-- The nodes of the tree have these kids. -/
def Reads (kids : α → List α) : Rose α → Prop
  | .node a ts => kids a = ts.map root ∧ ReadsAll kids ts

@[inherit_doc Reads]
def ReadsAll (kids : α → List α) : List (Rose α) → Prop
  | [] => True
  | r :: rs => r.Reads kids ∧ ReadsAll kids rs

end

variable {nodes : List α} {next : α → List α} {rank : α → Nat} {top : α}

theorem readsAll_iff : ∀ {rs : List (Rose α)}, ReadsAll next rs ↔ ∀ r ∈ rs, r.Reads next
  | [] => by simp [ReadsAll]
  | r :: rs => by rw [ReadsAll, readsAll_iff, forall_mem_cons]

theorem readsAll_append {l r : List (Rose α)} :
    ReadsAll next (l ++ r) ↔ ReadsAll next l ∧ ReadsAll next r := by
  rw [readsAll_iff, readsAll_iff, readsAll_iff, forall_mem_append]

theorem ReadsAll.perm {rs rs' : List (Rose α)} (h : ReadsAll next rs) (hperm : rs'.Perm rs) :
    ReadsAll next rs' :=
  readsAll_iff.mpr fun r hr => readsAll_iff.mp h r (hperm.mem_iff.mp hr)

mutual

theorem Reads.closed {a b : α} : ∀ {r : Rose α}, r.Reads next → a ∈ r.preorder → b ∈ next a →
    b ∈ r.preorder
  | .node c ts, hr, ha, hb => by
    rw [preorder] at ha ⊢
    rcases mem_cons.mp ha with rfl | ha
    · rw [hr.1] at hb
      obtain ⟨r, hr, rfl⟩ := List.mem_map.mp hb
      exact mem_cons_of_mem _ (mem_preorders hr r.root_mem)
    · exact mem_cons_of_mem c (ReadsAll.closed hr.2 ha hb)

theorem ReadsAll.closed {a b : α} : ∀ {rs : List (Rose α)}, ReadsAll next rs →
    a ∈ preorders rs → b ∈ next a → b ∈ preorders rs
  | [], _, ha, _ => by cases ha
  | r :: rs, hr, ha, hb => by
    rw [preorders, mem_append] at ha ⊢
    exact ha.imp (fun ha => Reads.closed hr.1 ha hb) fun ha => ReadsAll.closed hr.2 ha hb

end

theorem exists_readsAll : ∀ {l : List α}, (∀ a ∈ l, ∃ r : Rose α, r.Reads next ∧ r.root = a) →
    ∃ rs : List (Rose α), ReadsAll next rs ∧ rs.map root = l
  | [], _ => ⟨[], trivial, rfl⟩
  | a :: l, h => by
    obtain ⟨r, hr, hroot⟩ := h a mem_cons_self
    have hrest : ∀ b ∈ l, ∃ r : Rose α, r.Reads next ∧ r.root = b :=
      fun b hb => h b (mem_cons_of_mem a hb)
    obtain ⟨rs, hrs, hroots⟩ := exists_readsAll hrest
    exact ⟨r :: rs, ⟨hr, hrs⟩, by rw [map_cons, hroot, hroots]⟩

theorem exists_reads (hF : Sweep.Forest nodes next rank) (n : Nat) : ∀ {a : α}, a ∈ nodes →
    nodes.length ≤ n + nodes.countP (rank · ≤ rank a) → ∃ r : Rose α, r.Reads next ∧ r.root = a := by
  induction n with
  | zero =>
    intro a ha hn
    have hnone : next a = [] := by
      refine eq_nil_iff_forall_not_mem.mpr fun b hb => ?_
      have hlt := hF.countP_lt ha hb
      have hle : nodes.countP (rank · ≤ rank b) ≤ nodes.length := countP_le_length
      omega
    exact ⟨.node a [], ⟨hnone, trivial⟩, rfl⟩
  | succ n ih =>
    intro a ha hn
    have hkids : ∀ b ∈ next a, ∃ r : Rose α, r.Reads next ∧ r.root = b := by
      intro b hb
      have hlt := hF.countP_lt ha hb
      exact ih (hF.closed a ha b hb) (by omega)
    obtain ⟨ts, hts, hroots⟩ := exists_readsAll hkids
    exact ⟨.node a ts, ⟨hroots.symm, hts⟩, rfl⟩

mutual

theorem Reads.sweep (hF : Sweep.Forest nodes next rank) : ∀ {r : Rose α} {done todo : List α},
    r.Reads next → Sweep.Partial nodes next top done (r.root :: todo) →
    Sweep.Partial nodes next top (r.preorder.reverse ++ done) todo
  | .node a ts, done, todo, hr, hp => by
    have hnext := hp.next hF
    rw [root, hr.1] at hnext
    have hsweep := ReadsAll.sweep hF hr.2 hnext
    rw [preorder, reverse_cons, append_assoc]
    exact hsweep

theorem ReadsAll.sweep (hF : Sweep.Forest nodes next rank) : ∀ {rs : List (Rose α)}
    {done todo : List α}, ReadsAll next rs →
    Sweep.Partial nodes next top done (rs.map root ++ todo) →
    Sweep.Partial nodes next top ((preorders rs).reverse ++ done) todo
  | [], done, todo, _, hp => hp
  | r :: rs, done, todo, hr, hp => by
    have hfirst := Reads.sweep hF hr.1 hp
    have hrest := ReadsAll.sweep hF hr.2 hfirst
    rw [preorders, reverse_append, append_assoc]
    exact hrest

end

theorem Reads.nodup_mem (hF : Sweep.Forest nodes next rank) {r : Rose α} (hr : r.Reads next)
    (hroot : r.root ∈ nodes) :
    r.preorder.Nodup ∧ ∀ b, b ∈ r.preorder ↔ Sweep.Below next r.root b := by
  have hp := hr.sweep hF (Sweep.Partial.start hroot)
  rw [append_nil] at hp
  have hnodup := hp.nodup
  rw [append_nil] at hnodup
  refine ⟨nodup_reverse.mp hnodup, fun b => ?_⟩
  rw [← hp.mem_iff, mem_reverse]

end Rose
