import Mathlib

/-!
# Runs that note something

A run gives a result unless it is out of steps, and it tells whether something was noted on the way,
also of the part before the steps were used up.  `Agrees` compares it with a plain run as long as
nothing was noted.
-/

/-- What was noted, and the result. -/
structure Noted (α : Type*) where
  noted : Bool
  result : Option α

namespace Noted

variable {α β γ δ : Type*}

/-- A run that notes nothing. -/
def ofOption (r : Option α) : Noted α := ⟨false, r⟩

def pure (a : α) : Noted α := ofOption (some a)

def note (b : Bool) (t : Noted α) : Noted α := ⟨b || t.noted, t.result⟩

/-- One run after the other. -/
def bind (t : Noted α) (k : α → Noted β) : Noted β :=
  match t.result with
  | none => ⟨t.noted, none⟩
  | some a => (k a).note t.noted

def map (g : α → β) (t : Noted α) : Noted β := ⟨t.noted, t.result.map g⟩

/-- If nothing is noted, both are out of steps or their results are related. -/
def Agrees (R : α → β → Prop) (t : Noted α) (r : Option β) : Prop :=
  t.noted = false → Option.Rel R t.result r

variable {R : α → β → Prop} {Q : γ → δ → Prop} {t : Noted α} {r : Option β}

theorem Agrees.of_note : Agrees R (t.note true) r := fun h => Bool.noConfusion h

theorem Agrees.of_pure {a : α} {b : β} (h : R a b) : Agrees R (pure a) (some b) :=
  fun _ => .some h

theorem Agrees.of_none : Agrees R (ofOption none) none := fun _ => .none

theorem Agrees.ofOption_map {a : Option β} {g : β → α} (h : ∀ b, a = some b → R (g b) b) :
    Agrees R (ofOption (a.map g)) a := by
  intro _
  cases a with
  | none => exact .none
  | some b => exact .some (h b rfl)

theorem Agrees.refl (a : Option α) : Agrees Eq (ofOption a) a := by
  intro _
  cases a with
  | none => exact .none
  | some a => exact .some rfl

theorem Agrees.note_of {b : Bool} (h : b = false → Agrees R t r) : Agrees R (t.note b) r := by
  intro hnoted
  obtain ⟨hb, ht⟩ := Bool.or_eq_false_iff.mp hnoted
  exact h hb ht

theorem Agrees.bind {k : α → Noted γ} {l : β → Option δ} (h : Agrees R t r)
    (hk : ∀ a b, R a b → Agrees Q (k a) (l b)) : Agrees Q (t.bind k) (r.bind l) := by
  intro hnoted
  rw [Noted.bind] at hnoted ⊢
  cases hresult : t.result with
  | none =>
    rw [hresult] at hnoted
    have hrel := h hnoted
    rw [hresult] at hrel
    cases hrel
    exact .none
  | some a =>
    rw [hresult] at hnoted
    obtain ⟨ht, hka⟩ := Bool.or_eq_false_iff.mp hnoted
    have hrel := h ht
    rw [hresult] at hrel
    cases hrel with
    | some hab => exact hk _ _ hab hka

theorem Agrees.map {g : α → γ} {g' : β → δ} (h : Agrees R t r) (hg : ∀ a b, R a b → Q (g a) (g' b)) :
    Agrees Q (t.map g) (r.map g') := by
  intro hnoted
  have hrel := h hnoted
  rw [Noted.map]
  cases hresult : t.result with
  | none =>
    rw [hresult] at hrel
    cases hrel
    exact .none
  | some a =>
    rw [hresult] at hrel
    cases hrel with
    | some hab => exact .some (hg _ _ hab)

theorem Agrees.eq {s : Option α} (h : Agrees Eq t s) (hnoted : t.noted = false) : s = t.result := by
  have hrel := h hnoted
  cases hresult : t.result with
  | none =>
    rw [hresult] at hrel
    cases hrel
    rfl
  | some a =>
    rw [hresult] at hrel
    cases hrel with
    | some hab => rw [hab]

end Noted
