import Mathlib

/-!
# Finite acyclic relations

A relation is acyclic if no chain of it comes back to its start.  On a finite type such a relation
has a rank that grows along it, so that a walk ends within as many steps as there are elements.
-/

namespace Relation

variable {α : Type*} {r s : α → α → Prop}

/-- No chain comes back to its start. -/
def Acyclic (r : α → α → Prop) : Prop := ∀ a, ¬ TransGen r a a

/-- A rank grows along the relation, and is less than the number of elements. -/
structure Rank [Fintype α] (r : α → α → Prop) (rank : α → Nat) : Prop where
  lt_card : ∀ a, rank a < Fintype.card α
  grows : ∀ a b, r a b → rank a < rank b

theorem Acyclic.mono (h : Acyclic r) (hsub : ∀ a b, s a b → r a b) : Acyclic s :=
  fun a hcycle => h a (TransGen.mono hsub a a hcycle)

theorem Rank.mono [Fintype α] {rank : α → Nat} (h : Rank r rank) (hsub : ∀ a b, s a b → r a b) :
    Rank s rank :=
  ⟨h.lt_card, fun a b hab => h.grows a b (hsub a b hab)⟩

theorem Acyclic.exists_rank [Fintype α] (h : Acyclic r) : ∃ rank, Rank r rank := by
  classical
  let below (a : α) : Finset α := Finset.univ.filter fun b => TransGen r b a
  refine ⟨fun a => (below a).card, fun a => ?_, fun a b hab => ?_⟩
  · refine Finset.card_lt_univ_of_notMem (x := a) ?_
    simpa [below] using h a
  · refine Finset.card_lt_card ⟨?_, ?_⟩
    · intro c hc
      simp only [below, Finset.mem_filter, Finset.mem_univ, true_and] at hc ⊢
      exact hc.tail hab
    · intro hsub
      have ha : a ∈ below b := by simpa [below] using TransGen.single hab
      have haa : a ∈ below a := hsub ha
      simp only [below, Finset.mem_filter, Finset.mem_univ, true_and] at haa
      exact h a haa

theorem transGen_insert {a b c d : α}
    (h : TransGen (fun x y => r x y ∨ (x = a ∧ y = b)) c d) :
    TransGen r c d ∨ (ReflTransGen r c a ∧ ReflTransGen r b d) := by
  induction h with
  | single hstep =>
    rcases hstep with hr | ⟨rfl, rfl⟩
    · exact .inl (.single hr)
    · exact .inr ⟨.refl, .refl⟩
  | tail _ hstep ih =>
    rcases ih with hcd | ⟨hca, hbd⟩
    · rcases hstep with hr | ⟨rfl, rfl⟩
      · exact .inl (hcd.tail hr)
      · exact .inr ⟨hcd.to_reflTransGen, .refl⟩
    · rcases hstep with hr | ⟨rfl, rfl⟩
      · exact .inr ⟨hca, hbd.tail hr⟩
      · exact .inr ⟨hca, .refl⟩

theorem Acyclic.insert {a b : α} (h : Acyclic r) (hba : ¬ ReflTransGen r b a) :
    Acyclic fun x y => r x y ∨ (x = a ∧ y = b) := by
  intro c hcycle
  rcases transGen_insert hcycle with hcc | ⟨hca, hbc⟩
  · exact h c hcc
  · exact hba (hbc.trans hca)

end Relation
