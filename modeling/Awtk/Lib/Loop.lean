import Mathlib

/-!
# Loops

A loop takes one turn after the other.  A turn goes on with a new state, it ends the loop
with a result, or it does what it must not do.  `run` takes a bounded number of turns, and a
variant says how many are enough.  What a run ends with is what the last state that is
reached does (`run_result_iff`, `run_fault_iff`).
-/

/-- What a turn of a loop does. -/
inductive Turn (σ ρ : Type*) where
  | next (s : σ)
  | done (r : ρ)
  | fault

/-- What a run ends with.  It is still running when there are no turns left. -/
inductive Outcome (ρ : Type*) where
  | result (r : ρ)
  | fault
  | running
  deriving DecidableEq

namespace Loop

open Relation

variable {σ ρ : Type*} {turn : σ → Turn σ ρ} {s s' : σ} {r : ρ} {n : Nat}

/-- At most so many turns. -/
def run (turn : σ → Turn σ ρ) : Nat → σ → Outcome ρ
  | 0, _ => .running
  | n + 1, s =>
    match turn s with
    | .next s' => run turn n s'
    | .done r => .result r
    | .fault => .fault

theorem run_next (h : turn s = .next s') : run turn (n + 1) s = run turn n s' := by
  rw [run, h]

theorem run_done (h : turn s = .done r) : run turn (n + 1) s = .result r := by
  rw [run, h]

theorem run_fault (h : turn s = .fault) : run turn (n + 1) s = .fault := by
  rw [run, h]

/-- The states that a loop goes through. -/
def Reaches (turn : σ → Turn σ ρ) : σ → σ → Prop := ReflTransGen fun s s' => turn s = .next s'

theorem Reaches.refl (turn : σ → Turn σ ρ) (s : σ) : Reaches turn s s := ReflTransGen.refl

theorem Reaches.head {t : σ} (h : turn s = .next t) (ht : Reaches turn t s') : Reaches turn s s' :=
  ReflTransGen.head h ht

theorem Reaches.one (h : turn s = .next s') : Reaches turn s s' := ReflTransGen.single h

theorem Reaches.trans {t : σ} (h : Reaches turn s t) (ht : Reaches turn t s') : Reaches turn s s' :=
  ReflTransGen.trans h ht

theorem Reaches.invariant {I : σ → Prop} (hstep : ∀ s s', I s → turn s = .next s' → I s')
    (h : Reaches turn s s') (hs : I s) : I s' := by
  induction h with
  | refl => exact hs
  | tail _ hturn ih => exact hstep _ _ ih hturn

theorem run_result_iff (h : run turn n s ≠ .running) :
    run turn n s = .result r ↔ ∃ s', Reaches turn s s' ∧ turn s' = .done r := by
  induction n generalizing s with
  | zero => exact absurd rfl h
  | succ n ih =>
    cases hturn : turn s with
    | next t =>
      rw [run_next hturn] at h ⊢
      rw [ih h]
      constructor
      · rintro ⟨s', hreach, hdone⟩
        exact ⟨s', hreach.head hturn, hdone⟩
      · rintro ⟨s', hreach, hdone⟩
        rcases ReflTransGen.cases_head hreach with rfl | ⟨t', hnext, hrest⟩
        · rw [hturn] at hdone
          cases hdone
        · rw [hturn] at hnext
          cases hnext
          exact ⟨s', hrest, hdone⟩
    | done r' =>
      rw [run_done hturn]
      constructor
      · intro hr
        cases hr
        exact ⟨s, .refl turn s, hturn⟩
      · rintro ⟨s', hreach, hdone⟩
        rcases ReflTransGen.cases_head hreach with rfl | ⟨t', hnext, -⟩
        · rw [hturn] at hdone
          cases hdone
          rfl
        · rw [hturn] at hnext
          cases hnext
    | fault =>
      rw [run_fault hturn]
      constructor
      · intro hr
        cases hr
      · rintro ⟨s', hreach, hdone⟩
        rcases ReflTransGen.cases_head hreach with rfl | ⟨t', hnext, -⟩
        · rw [hturn] at hdone
          cases hdone
        · rw [hturn] at hnext
          cases hnext

theorem run_fault_iff (h : run turn n s ≠ .running) :
    run turn n s = .fault ↔ ∃ s', Reaches turn s s' ∧ turn s' = .fault := by
  constructor
  · intro hfault
    induction n generalizing s with
    | zero => exact absurd rfl h
    | succ n ih =>
      cases hturn : turn s with
      | next t =>
        rw [run_next hturn] at h hfault
        obtain ⟨s', hreach, hs'⟩ := ih h hfault
        exact ⟨s', hreach.head hturn, hs'⟩
      | done r' =>
        rw [run_done hturn] at hfault
        cases hfault
      | fault => exact ⟨s, .refl turn s, hturn⟩
  · rintro ⟨s', hreach, hs'⟩
    cases hrun : run turn n s with
    | running => exact absurd hrun h
    | fault => rfl
    | result r =>
      obtain ⟨t, hreach', hdone⟩ := (run_result_iff h).mp hrun
      -- Both states are the last one.
      rcases ReflTransGen.total_of_right_unique
        (fun a b c hb hc => by rw [hb] at hc; cases hc; rfl) hreach hreach' with hst | hts
      · rcases ReflTransGen.cases_head hst with rfl | ⟨u, hnext, -⟩
        · rw [hs'] at hdone
          cases hdone
        · rw [hs'] at hnext
          cases hnext
      · rcases ReflTransGen.cases_head hts with rfl | ⟨u, hnext, -⟩
        · rw [hs'] at hdone
          cases hdone
        · rw [hdone] at hnext
          cases hnext

/-- A loop that ends with a result, whatever number of turns it takes. -/
def Ends (turn : σ → Turn σ ρ) (s : σ) (r : ρ) : Prop :=
  ∃ s', Reaches turn s s' ∧ turn s' = .done r

theorem Ends.done (h : turn s = .done r) : Ends turn s r := ⟨s, .refl turn s, h⟩

theorem Ends.of_next (h : turn s = .next s') (hs' : Ends turn s' r) : Ends turn s r := by
  obtain ⟨t, hreach, hdone⟩ := hs'
  exact ⟨t, hreach.head h, hdone⟩

theorem Ends.next (hs : Ends turn s r) (h : turn s = .next s') : Ends turn s' r := by
  obtain ⟨t, hreach, hdone⟩ := hs
  rcases ReflTransGen.cases_head hreach with rfl | ⟨u, hnext, hrest⟩
  · rw [h] at hdone
    cases hdone
  · rw [h] at hnext
    cases hnext
    exact ⟨t, hrest, hdone⟩

theorem Ends.reached (hs : Ends turn s r) (h : Reaches turn s s') : Ends turn s' r := by
  induction h with
  | refl => exact hs
  | tail _ hturn ih => exact ih.next hturn

theorem Ends.eq_of_done {r' : ρ} (hs : Ends turn s r) (h : turn s = .done r') : r = r' := by
  obtain ⟨t, hreach, hdone⟩ := hs
  rcases ReflTransGen.cases_head hreach with rfl | ⟨u, hnext, -⟩
  · rw [h] at hdone
    cases hdone
    rfl
  · rw [h] at hnext
    cases hnext

theorem Ends.of_reaches (h : Reaches turn s s') (hs' : Ends turn s' r) : Ends turn s r := by
  obtain ⟨t, hreach, hdone⟩ := hs'
  exact ⟨t, h.trans hreach, hdone⟩

theorem Ends.of_run (h : run turn n s = .result r) : Ends turn s r :=
  (run_result_iff (by rw [h]; exact nofun)).mp h

theorem Ends.exists_run (h : Ends turn s r) : ∃ n, run turn n s = .result r := by
  obtain ⟨t, hreach, hdone⟩ := h
  induction hreach using ReflTransGen.head_induction_on with
  | refl => exact ⟨1, run_done hdone⟩
  | head hturn _ ih =>
    obtain ⟨n, hn⟩ := ih
    exact ⟨n + 1, (run_next hturn).trans hn⟩

theorem Ends.run (hs : Ends turn s r) (h : run turn n s ≠ .running) : run turn n s = .result r :=
  (run_result_iff h).mpr hs

/-- The state after so many turns. -/
def after (turn : σ → Turn σ ρ) : Nat → σ → Option σ
  | 0, s => some s
  | n + 1, s =>
    match turn s with
    | .next s' => after turn n s'
    | .done _ | .fault => none

/-- What a loop ends with, it ends with from each state that it goes through. -/
theorem Ends.after (hs : Ends turn s r) (h : after turn n s = some s') : Ends turn s' r := by
  induction n generalizing s with
  | zero =>
    cases h
    exact hs
  | succ n ih =>
    rw [Loop.after] at h
    split at h
    · rename_i t hturn
      exact ih (hs.next hturn) h
    · cases h
    · cases h

/-- Whether all states of a loop have a property, where it ends in so many turns. -/
def all (turn : σ → Turn σ ρ) (p : σ → Bool) : Nat → σ → Bool
  | 0, _ => false
  | n + 1, s =>
    p s && match turn s with
      | .next s' => all turn p n s'
      | .done _ | .fault => true

theorem all_reaches {p : σ → Bool} (h : all turn p n s = true) (hr : Reaches turn s s') :
    p s' = true := by
  induction n generalizing s with
  | zero => cases h
  | succ n ih =>
    rw [all, Bool.and_eq_true] at h
    rcases ReflTransGen.cases_head hr with rfl | ⟨t, hturn, hrest⟩
    · exact h.1
    · rw [hturn] at h
      exact ih h.2 hrest

/-- A variant: it falls with every turn, as long as an invariant holds. -/
structure Variant (turn : σ → Turn σ ρ) where
  Inv : σ → Prop
  measure : σ → Nat
  keeps : ∀ {s s' : σ}, Inv s → turn s = .next s' → Inv s'
  falls : ∀ {s s' : σ}, Inv s → turn s = .next s' → measure s' < measure s

/-- A loop with a variant ends. -/
theorem Variant.ends (v : Variant turn) (hs : v.Inv s) (hn : v.measure s < n) :
    run turn n s ≠ .running := by
  induction n generalizing s with
  | zero => exact absurd hn (Nat.not_lt_zero _)
  | succ n ih =>
    cases hturn : turn s with
    | next t =>
      rw [run_next hturn]
      have hfalls := v.falls hs hturn
      exact ih (v.keeps hs hturn) (by omega)
    | done r => rw [run_done hturn]; exact fun h => by cases h
    | fault => rw [run_fault hturn]; exact fun h => by cases h

theorem Variant.result_iff (v : Variant turn) (hs : v.Inv s) (hn : v.measure s < n) :
    (∃ r, run turn n s = .result r) ↔ ∀ s', Reaches turn s s' → turn s' ≠ .fault := by
  have hends := v.ends hs hn
  constructor
  · rintro ⟨r, hr⟩ s' hreach hfault
    have hrun := (run_fault_iff hends).mpr ⟨s', hreach, hfault⟩
    rw [hr] at hrun
    cases hrun
  · intro hall
    cases hrun : run turn n s with
    | result r => exact ⟨r, rfl⟩
    | running => exact absurd hrun hends
    | fault =>
      obtain ⟨s', hreach, hfault⟩ := (run_fault_iff hends).mp hrun
      exact absurd hfault (hall s' hreach)

end Loop
