import Mathlib

/-!
# Sweeps of a forest

`kids` makes a finite list of nodes a forest when no node is the kid of two nodes and
a rank grows from a node to its kids.  A sweep from a node moves nodes from a worklist
to the swept ones and puts their kids on the worklist, in whatever order.  It sweeps
each node below the first one once, and no other.
-/

namespace Sweep

open List

variable {α : Type*} {nodes : List α} {kids : α → List α} {rank : α → Nat}

/-- Being a kid, or a kid of a kid, and so on, or the node itself. -/
def Below (kids : α → List α) : α → α → Prop := Relation.ReflTransGen fun a b => b ∈ kids a

/-- No node is a kid twice, and ranks grow downwards. -/
structure Forest (nodes : List α) (kids : α → List α) (rank : α → Nat) : Prop where
  closed : ∀ a ∈ nodes, ∀ b ∈ kids a, b ∈ nodes
  nodup : ∀ a ∈ nodes, (kids a).Nodup
  unique : ∀ a ∈ nodes, ∀ b ∈ nodes, ∀ c, c ∈ kids a → c ∈ kids b → a = b
  rank_lt : ∀ a ∈ nodes, ∀ b ∈ kids a, rank a < rank b

/-- The nodes `done` are swept and the nodes `todo` are on the worklist. -/
structure Partial (nodes : List α) (kids : α → List α) (root : α) (done todo : List α) : Prop where
  nodup : (done ++ todo).Nodup
  root_mem : root ∈ done ++ todo
  sub : ∀ a ∈ done ++ todo, a ∈ nodes
  closed : ∀ a ∈ done, ∀ b ∈ kids a, b ∈ done ++ todo
  source : ∀ b ∈ done ++ todo, b = root ∨ ∃ a ∈ done, b ∈ kids a
  below : ∀ b ∈ done ++ todo, Below kids root b

variable {root x : α} {done todo : List α}

theorem Partial.start (h : root ∈ nodes) : Partial nodes kids root [] [root] where
  nodup := nodup_singleton root
  root_mem := mem_singleton_self root
  sub _ ha := mem_singleton.mp ha ▸ h
  closed _ ha := absurd ha not_mem_nil
  source _ hb := .inl (mem_singleton.mp hb)
  below _ hb := mem_singleton.mp hb ▸ .refl

theorem Partial.perm (h : Partial nodes kids root done todo) {done' todo' : List α}
    (hdone : done'.Perm done) (htodo : todo'.Perm todo) : Partial nodes kids root done' todo' := by
  have hall : (done' ++ todo').Perm (done ++ todo) := hdone.append htodo
  have hmem (b : α) : b ∈ done' ++ todo' ↔ b ∈ done ++ todo := hall.mem_iff
  refine ⟨hall.nodup_iff.mpr h.nodup, (hmem root).mpr h.root_mem, fun a ha => ?_, fun a ha b hb => ?_,
    fun b hb => ?_, fun b hb => ?_⟩
  · exact h.sub a ((hmem a).mp ha)
  · exact (hmem b).mpr (h.closed a (hdone.mem_iff.mp ha) b hb)
  · refine (h.source b ((hmem b).mp hb)).imp_right ?_
    rintro ⟨a, ha, hba⟩
    exact ⟨a, hdone.mem_iff.mpr ha, hba⟩
  · exact h.below b ((hmem b).mp hb)

theorem Forest.rank_le (hF : Forest nodes kids rank) {a b : α} (ha : a ∈ nodes)
    (h : Below kids a b) : b ∈ nodes ∧ rank a ≤ rank b := by
  induction h with
  | refl => exact ⟨ha, Nat.le_refl _⟩
  | tail _ hstep ih =>
    exact ⟨hF.closed _ ih.1 _ hstep, Nat.le_trans ih.2 (Nat.le_of_lt (hF.rank_lt _ ih.1 _ hstep))⟩

theorem Forest.countP_lt (hF : Forest nodes kids rank) {a b : α} (ha : a ∈ nodes)
    (hb : b ∈ kids a) :
    nodes.countP (rank · ≤ rank a) < nodes.countP (rank · ≤ rank b) := by
  have hlt := hF.rank_lt a ha b hb
  have hmono (l : List α) : l.countP (rank · ≤ rank a) ≤ l.countP (rank · ≤ rank b) := by
    refine countP_mono_left fun c _ hc => ?_
    rw [decide_eq_true_eq] at hc ⊢
    exact Nat.le_trans hc (Nat.le_of_lt hlt)
  obtain ⟨l, r, rfl⟩ := append_of_mem (hF.closed a ha b hb)
  rw [countP_append, countP_append, countP_cons, countP_cons,
    if_neg (by rw [decide_eq_true_eq]; exact Nat.not_le.mpr hlt), if_pos (by simp)]
  have hl := hmono l
  have hr := hmono r
  omega

/-- One node is swept. -/
theorem Partial.next (hF : Forest nodes kids rank) (h : Partial nodes kids root done (x :: todo)) :
    Partial nodes kids root (x :: done) (kids x ++ todo) := by
  have hx : x ∈ done ++ x :: todo := by simp
  have hxn := h.sub x hx
  have hroot := h.sub root h.root_mem
  obtain ⟨hxout, hnodup⟩ := nodup_cons.mp (nodup_middle.mp h.nodup)
  -- a kid of `x` is new, since its only parent was not swept before
  have hnew (b : α) (hb : b ∈ kids x) : b ∉ done ++ x :: todo := by
    intro hmem
    cases h.source b hmem with
    | inl heq =>
      have hle := (hF.rank_le hroot (h.below x hx)).2
      have hlt := hF.rank_lt x hxn b hb
      rw [heq] at hlt
      exact Nat.not_lt.mpr hle hlt
    | inr hsome =>
      obtain ⟨a, ha, hba⟩ := hsome
      have heq := hF.unique a (h.sub a (mem_append_left _ ha)) x hxn b hba hb
      exact hxout (heq ▸ mem_append_left todo ha)
  have hmem (b : α) : b ∈ x :: done ++ (kids x ++ todo) ↔ b ∈ kids x ∨ b ∈ done ++ x :: todo := by
    simp only [mem_append, mem_cons]
    tauto
  have hperm : (x :: done ++ (kids x ++ todo)).Perm (kids x ++ (done ++ x :: todo)) := by
    have h₁ : (x :: done ++ (kids x ++ todo)).Perm (kids x ++ (x :: done ++ todo)) := by
      rw [← append_assoc, ← append_assoc]
      exact (perm_append_comm).append_right todo
    have h₂ : (x :: done ++ todo).Perm (done ++ x :: todo) := perm_middle.symm
    exact h₁.trans (h₂.append_left (kids x))
  refine ⟨hperm.nodup_iff.mpr ?_, (hmem root).mpr (.inr h.root_mem), fun a ha => ?_,
    fun a ha b hb => ?_, fun b hb => ?_, fun b hb => ?_⟩
  · refine nodup_append.mpr ⟨hF.nodup x hxn, h.nodup, fun b hb c hc heq => ?_⟩
    exact hnew b hb (heq ▸ hc)
  · cases (hmem a).mp ha with
    | inl hkid => exact hF.closed x hxn a hkid
    | inr hold => exact h.sub a hold
  · cases mem_cons.mp ha with
    | inl heq => exact (hmem b).mpr (.inl (heq ▸ hb))
    | inr hdone => exact (hmem b).mpr (.inr (h.closed a hdone b hb))
  · cases (hmem b).mp hb with
    | inl hkid => exact .inr ⟨x, mem_cons_self, hkid⟩
    | inr hold =>
      refine (h.source b hold).imp_right ?_
      rintro ⟨a, ha, hba⟩
      exact ⟨a, mem_cons_of_mem x ha, hba⟩
  · cases (hmem b).mp hb with
    | inl hkid => exact (h.below x hx).tail hkid
    | inr hold => exact h.below b hold

theorem Partial.length_le (h : Partial nodes kids root done todo) :
    done.length + todo.length ≤ nodes.length := by
  rw [← length_append]
  exact (subperm_of_subset h.nodup h.sub).length_le

theorem Partial.mem_iff (h : Partial nodes kids root done []) (b : α) :
    b ∈ done ↔ Below kids root b := by
  have hroot := h.root_mem
  have hclosed := h.closed
  have hbelow := h.below
  rw [append_nil] at hroot hclosed hbelow
  constructor
  · exact hbelow b
  · intro hb
    induction hb with
    | refl => exact hroot
    | tail _ hstep ih => exact hclosed _ ih _ hstep

end Sweep
