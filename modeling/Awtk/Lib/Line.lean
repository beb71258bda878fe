import Mathlib

/-!
# Waiting in line

A line in which elements wait.  They join it at its end and are served at its front, an element
can leave from anywhere, and another can take its place.  What joined waits, was served or has
left (`History.conserved`), and the elements are served in the order of their places
(`History.places`).
-/

namespace Line

open List Option

variable {α : Type*}

/-- What happens to a line. -/
inductive Event (α : Type*) where
  | join (a : α)
  | serve (a : α)
  | leave (a : α)
  | swap (a b : α)

namespace Event

/-- The element that is new. -/
def entered : Event α → Option α
  | join a => some a
  | swap _ b => some b
  | _ => none

/-- The element that comes last. -/
def joined : Event α → Option α
  | join a => some a
  | _ => none

/-- The element that is served. -/
def served : Event α → Option α
  | serve a => some a
  | _ => none

/-- The element that is gone without being served. -/
def left : Event α → Option α
  | leave a => some a
  | swap a _ => some a
  | _ => none

end Event

/-- What an event does to the line. -/
inductive Step : List α → Event α → List α → Prop
  | join {l : List α} {a : α} : Step l (.join a) (l ++ [a])
  | serve {l : List α} {a : α} : Step (a :: l) (.serve a) l
  | leave {l r : List α} {a : α} : Step (l ++ a :: r) (.leave a) (l ++ r)
  | swap {l r : List α} {a b : α} : Step (l ++ a :: r) (.swap a b) (l ++ b :: r)

/-- The events of a line that was empty. -/
inductive History : List (Event α) → List α → Prop
  | nil : History [] []
  | snoc {es : List (Event α)} {e : Event α} {l l' : List α} :
      History es l → Step l e l' → History (es ++ [e]) l'

/-- A place, with the elements that had it before. -/
inductive Place (α : Type*) where
  | waits (former : List α) (a : α)
  | served (former : List α) (a : α)
  | empty (former : List α) (a : α)

namespace Place

/-- The element that took the place when it was new. -/
def origin : Place α → α
  | waits former a | served former a | empty former a => former.headD a

def waiting : Place α → Option α
  | waits _ a => some a
  | _ => none

def servedItem : Place α → Option α
  | served _ a => some a
  | _ => none

/-- No place is served before one in front of it. -/
def Before (p q : Place α) : Prop := p.waiting ≠ none → q.servedItem = none

end Place

variable {l : List α} {es : List (Event α)} {a : α}

/-! ## Conservation -/

theorem filterMap_snoc {β : Type*} (f : Event α → Option β) (es : List (Event α)) (e : Event α) :
    (es ++ [e]).filterMap f = es.filterMap f ++ (f e).toList := by
  rw [filterMap_append]
  cases h : f e with
  | none => rw [filterMap_cons_none h, filterMap_nil]; rfl
  | some b => rw [filterMap_cons_some h, filterMap_nil]; rfl

theorem History.conserved [DecidableEq α] (h : History es l) (x : α) :
    (es.filterMap Event.entered).count x =
      l.count x + (es.filterMap Event.served).count x + (es.filterMap Event.left).count x := by
  induction h with
  | nil => rfl
  | snoc _ hstep ih =>
    simp only [filterMap_snoc, count_append] at ih ⊢
    rw [ih]
    cases hstep with
    | join => simp [Event.entered, Event.served, Event.left]; omega
    | serve => simp [Event.entered, Event.served, Event.left, count_cons]; omega
    | leave => simp [Event.entered, Event.served, Event.left, count_cons]; omega
    | swap => simp [Event.entered, Event.served, Event.left, count_cons]; omega

/-! ## Places -/

theorem pairwise_replace {R : α → α → Prop} {r : List α} {b : α} (h : (l ++ a :: r).Pairwise R)
    (hl : ∀ x, R x a → R x b) (hr : ∀ x, R a x → R b x) : (l ++ b :: r).Pairwise R := by
  obtain ⟨hleft, hright, hboth⟩ := pairwise_append.mp h
  obtain ⟨ha, hrest⟩ := pairwise_cons.mp hright
  refine pairwise_append.mpr ⟨hleft, ?_, ?_⟩
  · exact pairwise_cons.mpr ⟨fun x hx => hr x (ha x hx), hrest⟩
  · intro x hx y hy
    rcases mem_cons.mp hy with rfl | hy
    · exact hl x (hboth x hx a mem_cons_self)
    · exact hboth x hx y (mem_cons_of_mem a hy)

theorem exists_waits {ps : List (Place α)} {r : List α} (h : ps.filterMap Place.waiting = l ++ a :: r) :
    ∃ qs former rs, ps = qs ++ .waits former a :: rs ∧ qs.filterMap Place.waiting = l ∧
      rs.filterMap Place.waiting = r := by
  obtain ⟨qs, rest, rfl, hqs, hrest⟩ := filterMap_eq_append_iff.mp h
  obtain ⟨ms, p, rs, rfl, hms, hp, hrs⟩ := filterMap_eq_cons_iff.mp hrest
  have hnone : ms.filterMap Place.waiting = [] := filterMap_eq_nil_iff.mpr hms
  cases p with
  | waits former b =>
    obtain rfl : b = a := some.inj hp
    refine ⟨qs ++ ms, former, rs, by rw [append_assoc], ?_, hrs⟩
    rw [filterMap_append, hqs, hnone, append_nil]
  | served former b => cases hp
  | empty former b => cases hp

/-- The elements have places, which are served in order. -/
theorem History.places (h : History es l) : ∃ ps : List (Place α), ps.Pairwise Place.Before ∧
    ps.map Place.origin = es.filterMap Event.joined ∧ ps.filterMap Place.waiting = l ∧
    ps.filterMap Place.servedItem = es.filterMap Event.served := by
  induction h with
  | nil => exact ⟨[], .nil, rfl, rfl, rfl⟩
  | snoc _ hstep ih =>
    obtain ⟨ps, horder, horigin, hwaiting, hserved⟩ := ih
    simp only [filterMap_snoc]
    cases hstep with
    | @join l a =>
      refine ⟨ps ++ [.waits [] a], ?_, ?_, ?_, ?_⟩
      · refine pairwise_append.mpr ⟨horder, pairwise_singleton _ _, ?_⟩
        rintro p - q hq -
        rw [mem_singleton.mp hq]
        rfl
      · rw [map_append, horigin]
        rfl
      · rw [filterMap_append, hwaiting]
        rfl
      · rw [filterMap_append, hserved]
        rfl
    | @serve l a =>
      obtain ⟨qs, former, rs, rfl, hqs, hrs⟩ := exists_waits (l := []) hwaiting
      refine ⟨qs ++ .served former a :: rs, ?_, ?_, ?_, ?_⟩
      · refine pairwise_append.mpr ?_
        obtain ⟨hleft, hright, hboth⟩ := pairwise_append.mp horder
        obtain ⟨-, hrest⟩ := pairwise_cons.mp hright
        refine ⟨hleft, pairwise_cons.mpr ⟨fun q _ h => absurd rfl h, hrest⟩, ?_⟩
        intro q hq p hp
        rcases mem_cons.mp hp with rfl | hp
        · exact fun hwaits => absurd (filterMap_eq_nil_iff.mp hqs q hq) hwaits
        · exact hboth q hq p (mem_cons_of_mem _ hp)
      · rw [← horigin]
        simp [Event.joined, Place.origin]
      · rw [filterMap_append, hqs]
        exact hrs
      · have hlater : rs.filterMap Place.servedItem = [] := by
          rw [filterMap_eq_nil_iff]
          intro q hq
          obtain ⟨-, hright, -⟩ := pairwise_append.mp horder
          exact (pairwise_cons.mp hright).1 q hq (some_ne_none a)
        rw [filterMap_append, filterMap_cons_none rfl, hlater, append_nil] at hserved
        simp only [filterMap_append, filterMap_cons, Place.servedItem, hlater, hserved]
        rfl
    | @leave l r a =>
      obtain ⟨qs, former, rs, rfl, hqs, hrs⟩ := exists_waits hwaiting
      refine ⟨qs ++ .empty former a :: rs, ?_, ?_, ?_, ?_⟩
      · exact pairwise_replace horder (fun _ _ _ => rfl) fun _ _ h => absurd rfl h
      · rw [← horigin]
        simp [Event.joined, Place.origin]
      · rw [filterMap_append, hqs, ← hrs]
        rfl
      · rw [← hserved]
        simp [Event.served, Place.servedItem, filterMap_cons]
    | @swap l r a b =>
      obtain ⟨qs, former, rs, rfl, hqs, hrs⟩ := exists_waits hwaiting
      refine ⟨qs ++ .waits (former ++ [a]) b :: rs, ?_, ?_, ?_, ?_⟩
      · exact pairwise_replace horder (fun _ _ _ => rfl) fun q hq _ => hq (some_ne_none a)
      · rw [← horigin]
        cases former <;> simp [Event.joined, Place.origin]
      · rw [filterMap_append, hqs, ← hrs]
        rfl
      · rw [← hserved]
        simp [Event.served, Place.servedItem, filterMap_cons]

end Line
