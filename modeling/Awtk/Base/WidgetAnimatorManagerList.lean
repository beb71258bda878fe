import Mathlib
import Awtk.Base.WidgetAnimatorManager

/-!
# The list of the animator manager

The links of the animators are a list without a cycle (`Links`).  Every edit keeps this, if an
animator that is added has no link and the animator that is removed is not the first one.
-/

namespace Awtk.AnimatorManager

open Chain List Option

variable {m m' m'' : AnimatorManager} {l r : List Nat} {a b p : Nat}

/-! ## The invariant -/

/-- The links are the list.  Its animators know their manager, and no other animator does that is not
destroyed. -/
structure Links (m : AnimatorManager) (l : List Nat) : Prop where
  path : Path m.next m.first l 0
  allocated : ∀ a ∈ l, a ∈ m.allocated
  manager : ∀ a ∈ l, (m.animators a).manager
  update : ∀ a ∈ l, (m.animators a).update
  outside : ∀ a ∈ m.allocated, (m.animators a).update → a ∉ l → (m.animators a).manager = false

/-- What no edit of the list changes. -/
structure Frame (m m' : AnimatorManager) : Prop where
  allocated : m'.allocated = m.allocated
  turn : m'.turn = m.turn
  trace : m'.trace = m.trace
  toDispatch : ∀ a, (m'.animators a).toDispatch = (m.animators a).toDispatch
  widget : ∀ a, (m'.animators a).widget = (m.animators a).widget
  name : ∀ a, (m'.animators a).name = (m.animators a).name

theorem Frame.refl (m : AnimatorManager) : Frame m m :=
  ⟨rfl, rfl, rfl, fun _ => rfl, fun _ => rfl, fun _ => rfl⟩

theorem Frame.trans (h : Frame m m') (h' : Frame m' m'') : Frame m m'' where
  allocated := h'.allocated.trans h.allocated
  turn := h'.turn.trans h.turn
  trace := h'.trace.trans h.trace
  toDispatch := fun a => (h'.toDispatch a).trans (h.toDispatch a)
  widget := fun a => (h'.widget a).trans (h.widget a)
  name := fun a => (h'.name a).trans (h.name a)

theorem Frame.isEqual (h : Frame m m') (a widget : Nat) (name : Option Str) :
    isEqual (m'.animators a) widget name = isEqual (m.animators a) widget name := by
  simp only [AnimatorManager.isEqual, h.widget, h.name]

theorem Links.nodup (h : Links m l) : l.Nodup := h.path.nodup

theorem Links.list (h : Links m l) : m.list = some l :=
  walk_eq h.path h.allocated (subperm_of_subset h.nodup h.allocated).length_le

theorem Links.ne_zero (h : Links m l) (ha : a ∈ l) : a ≠ 0 := h.path.ne_zero a ha

/-! ## Fields that are not links -/

/-- The fields of an animator that the list is about. -/
def links (a : WidgetAnimator) : Nat × Bool × Bool × Bool × Nat × Option Str :=
  (a.next, a.manager, a.update, a.toDispatch, a.widget, a.name)

/-- Only other fields differ. -/
structure Alike (m m' : AnimatorManager) : Prop where
  first : m'.first = m.first
  allocated : m'.allocated = m.allocated
  turn : m'.turn = m.turn
  trace : m'.trace = m.trace
  links : ∀ a, links (m'.animators a) = links (m.animators a)

theorem Alike.refl (m : AnimatorManager) : Alike m m := ⟨rfl, rfl, rfl, rfl, fun _ => rfl⟩

theorem Alike.trans (h : Alike m m') (h' : Alike m' m'') : Alike m m'' where
  first := h'.first.trans h.first
  allocated := h'.allocated.trans h.allocated
  turn := h'.turn.trans h.turn
  trace := h'.trace.trans h.trace
  links := fun a => (h'.links a).trans (h.links a)

theorem Alike.modify (m : AnimatorManager) (a : Nat) {g : WidgetAnimator → WidgetAnimator}
    (hg : AnimatorManager.links (g (m.animators a)) = AnimatorManager.links (m.animators a)) :
    Alike m (m.modify a g) := by
  refine ⟨rfl, rfl, rfl, rfl, fun b => ?_⟩
  by_cases hb : b = a
  · subst hb
    simpa [AnimatorManager.modify] using hg
  · simp [AnimatorManager.modify, hb]

@[simp] theorem modify_self (m : AnimatorManager) (a : Nat) (g : WidgetAnimator → WidgetAnimator) :
    (m.modify a g).animators a = g (m.animators a) := by simp [modify]

theorem modify_ne (m : AnimatorManager) (g : WidgetAnimator → WidgetAnimator) (h : b ≠ a) :
    (m.modify a g).animators b = m.animators b := by simp [modify, h]

theorem Alike.frame (h : Alike m m') : Frame m m' := by
  have hlinks := h.links
  simp only [AnimatorManager.links, Prod.mk.injEq] at hlinks
  exact ⟨h.allocated, h.turn, h.trace, fun a => (hlinks a).2.2.2.1, fun a => (hlinks a).2.2.2.2.1,
    fun a => (hlinks a).2.2.2.2.2⟩

theorem Alike.keep (h : Alike m m') (hl : Links m l) : Links m' l := by
  have hlinks := h.links
  simp only [AnimatorManager.links, Prod.mk.injEq] at hlinks
  constructor
  · rw [h.first]
    exact hl.path.congr fun a _ => (hlinks a).1
  · exact fun a ha => h.allocated ▸ hl.allocated a ha
  · exact fun a ha => by rw [(hlinks a).2.1]; exact hl.manager a ha
  · exact fun a ha => by rw [(hlinks a).2.2.1]; exact hl.update a ha
  · intro a ha hupdate hnot
    rw [h.allocated] at ha
    rw [(hlinks a).2.2.1] at hupdate
    rw [(hlinks a).2.1]
    exact hl.outside a ha hupdate hnot

/-! ## Links and flags -/

/-- Set a link. -/
def setNext (m : AnimatorManager) (a b : Nat) : AnimatorManager :=
  m.modify a fun iter => { iter with next := b }

/-- Tell an animator whether it has a manager. -/
def setManager (m : AnimatorManager) (a : Nat) (v : Bool) : AnimatorManager :=
  m.modify a fun iter => { iter with manager := v }

/-- Destroy an animator, or not. -/
def setUpdate (m : AnimatorManager) (a : Nat) (v : Bool) : AnimatorManager :=
  m.modify a fun iter => { iter with update := v }

section Fields

variable {v : Bool}

theorem first_frame : Frame m { m with first := a } :=
  ⟨rfl, rfl, rfl, fun _ => rfl, fun _ => rfl, fun _ => rfl⟩

theorem setNext_frame : Frame m (m.setNext a b) := by
  refine ⟨rfl, rfl, rfl, fun x => ?_, fun x => ?_, fun x => ?_⟩ <;>
    (by_cases hx : x = a <;> simp [setNext, modify, hx])

theorem setManager_frame : Frame m (m.setManager a v) := by
  refine ⟨rfl, rfl, rfl, fun x => ?_, fun x => ?_, fun x => ?_⟩ <;>
    (by_cases hx : x = a <;> simp [setManager, modify, hx])

theorem setUpdate_frame : Frame m (m.setUpdate a v) := by
  refine ⟨rfl, rfl, rfl, fun x => ?_, fun x => ?_, fun x => ?_⟩ <;>
    (by_cases hx : x = a <;> simp [setUpdate, modify, hx])

@[simp] theorem next_setNext : (m.setNext a b).next = Function.update m.next a b := by
  funext x
  by_cases hx : x = a <;> simp [setNext, modify, next, hx]

@[simp] theorem next_setManager : (m.setManager a v).next = m.next := by
  funext x
  by_cases hx : x = a <;> simp [setManager, modify, next, hx]

@[simp] theorem next_setUpdate : (m.setUpdate a v).next = m.next := by
  funext x
  by_cases hx : x = a <;> simp [setUpdate, modify, next, hx]

@[simp] theorem manager_setNext (x : Nat) :
    ((m.setNext a b).animators x).manager = (m.animators x).manager := by
  by_cases hx : x = a <;> simp [setNext, modify, hx]

@[simp] theorem manager_setManager (x : Nat) :
    ((m.setManager a v).animators x).manager = if x = a then v else (m.animators x).manager := by
  by_cases hx : x = a <;> simp [setManager, modify, hx]

@[simp] theorem manager_setUpdate (x : Nat) :
    ((m.setUpdate a v).animators x).manager = (m.animators x).manager := by
  by_cases hx : x = a <;> simp [setUpdate, modify, hx]

@[simp] theorem update_setNext (x : Nat) :
    ((m.setNext a b).animators x).update = (m.animators x).update := by
  by_cases hx : x = a <;> simp [setNext, modify, hx]

@[simp] theorem update_setManager (x : Nat) :
    ((m.setManager a v).animators x).update = (m.animators x).update := by
  by_cases hx : x = a <;> simp [setManager, modify, hx]

@[simp] theorem update_setUpdate (x : Nat) :
    ((m.setUpdate a v).animators x).update = if x = a then v else (m.animators x).update := by
  by_cases hx : x = a <;> simp [setUpdate, modify, hx]

@[simp] theorem first_setNext : (m.setNext a b).first = m.first := rfl

@[simp] theorem first_setManager : (m.setManager a v).first = m.first := rfl

@[simp] theorem first_setUpdate : (m.setUpdate a v).first = m.first := rfl

@[simp] theorem allocated_setNext : (m.setNext a b).allocated = m.allocated := rfl

@[simp] theorem allocated_setManager : (m.setManager a v).allocated = m.allocated := rfl

@[simp] theorem allocated_setUpdate : (m.setUpdate a v).allocated = m.allocated := rfl

end Fields

/-! ## Adding -/

/-- The animator is the last one, as it has no link. -/
theorem add_links (h : Links m l) (ha : a ≠ 0) (hal : a ∈ m.allocated)
    (hupdate : (m.animators a).update) (hnot : a ∉ l) (hnext : m.next a = 0) :
    ∃ m', m.add a = some (.ok, m') ∧ Links m' (l ++ [a]) ∧ Frame m m' := by
  -- What holds for any way to link the animator.
  have hlinks : ∀ m₁ : AnimatorManager, Path m₁.next m₁.first (l ++ [a]) 0 →
      m₁.allocated = m.allocated → (∀ x, (m₁.animators x).manager = (m.animators x).manager) →
      (∀ x, (m₁.animators x).update = (m.animators x).update) →
      Links (m₁.setManager a true) (l ++ [a]) := by
    intro m₁ hpath hallocated hmanager hupdates
    constructor
    · simpa using hpath
    · intro x hx
      rw [allocated_setManager, hallocated]
      rcases mem_append.mp hx with hx | hx
      · exact h.allocated x hx
      · exact mem_singleton.mp hx ▸ hal
    · intro x hx
      rw [manager_setManager, hmanager]
      split
      · rfl
      · rcases mem_append.mp hx with hx | hx
        · exact h.manager x hx
        · exact absurd (mem_singleton.mp hx) ‹_›
    · intro x hx
      rw [update_setManager, hupdates]
      rcases mem_append.mp hx with hx | hx
      · exact h.update x hx
      · exact mem_singleton.mp hx ▸ hupdate
    · intro x hx hux hnx
      rw [mem_append, mem_singleton, not_or] at hnx
      rw [manager_setManager, if_neg hnx.2, hmanager]
      rw [allocated_setManager, hallocated] at hx
      rw [update_setManager, hupdates] at hux
      exact h.outside x hx hux hnx.1
  rw [add, if_neg ha, if_pos hal, h.list]
  rcases eq_nil_or_concat l with rfl | ⟨l₀, p, rfl⟩
  · have hfirst : m.first = 0 := h.path
    simp only [hfirst, if_true]
    exact ⟨_, rfl, hlinks { m with first := a } ⟨rfl, ha, hnext⟩ rfl (fun _ => rfl) (fun _ => rfl),
      first_frame.trans setManager_frame⟩
  · have hfirst : m.first ≠ 0 := by
      rw [h.path.head]
      cases l₀ with
      | nil => exact h.ne_zero (by simp)
      | cons b l₀ => exact h.ne_zero (by simp)
    have hpl : p ∉ l₀ := by
      have hnodup := h.nodup
      rw [concat_eq_append, nodup_append] at hnodup
      exact fun hp => hnodup.2.2 p hp p (mem_singleton.mpr rfl) rfl
    have hpa : a ≠ p := fun hap => hnot (by simp [hap])
    have hlast : (l₀.concat p).getLastD 0 = p := by simp
    simp only [hfirst, if_false, hlast]
    refine ⟨_, rfl, hlinks (m.setNext p a) ?_ rfl (fun x => manager_setNext x)
      (fun x => update_setNext x), setNext_frame.trans setManager_frame⟩
    rw [concat_eq_append, append_assoc]
    have hpath := h.path
    rw [concat_eq_append] at hpath
    refine Path.splice [] [a] (r := []) hpath ?_ ?_
    · rintro x (hx | hx)
      · have hxp : x ≠ p := fun hxp => hpl (hxp ▸ hx)
        simp [hxp]
      · cases hx
    · refine ⟨by simp, ha, ?_⟩
      simp [hpa, hnext]

/-! ## Removing -/

/-- What is left of the links when an animator is taken out. -/
structure Unlinked (m m' : AnimatorManager) (a : Nat) (l : List Nat) : Prop where
  path : Path m'.next m'.first l 0
  frame : Frame m m'
  update : ∀ x, (m'.animators x).update = (m.animators x).update
  manager : ∀ x, x ≠ a → (m'.animators x).manager = (m.animators x).manager

theorem findPrev_none : ∀ {l : List Nat}, a ∉ l → findPrev a l = none
  | [], _ => rfl
  | [_], _ => rfl
  | p :: iter :: l, h => by
    have hiter : iter ≠ a := fun heq => h (by simp [heq])
    rw [findPrev, if_neg hiter]
    exact findPrev_none fun hmem => h (mem_cons_of_mem _ hmem)

theorem findPrev_some : ∀ {l : List Nat}, a ∉ l ++ [p] → findPrev a (l ++ p :: a :: r) = some p
  | [], _ => by simp [findPrev]
  | [q], h => by
    have hp : p ≠ a := fun heq => h (by simp [heq])
    simp [findPrev, hp]
  | q :: q' :: l, h => by
    have hq : q' ≠ a := fun heq => h (by simp [heq])
    show (if q' = a then some q else findPrev a (q' :: l ++ p :: a :: r)) = some p
    rw [if_neg hq]
    exact findPrev_some fun hmem => h (mem_cons_of_mem _ hmem)

theorem unlink_first (h : Links m (a :: r)) :
    Unlinked m { m with first := m.next a } a r :=
  ⟨h.path.2.2, first_frame, fun _ => rfl, fun _ _ => rfl⟩

theorem unlink_next (h : Links m (l ++ p :: a :: r)) : Unlinked m (m.setNext p (m.next a)) a (l ++ p :: r) := by
  refine ⟨?_, setNext_frame, fun x => update_setNext x, fun x _ => manager_setNext x⟩
  have hnodup := h.nodup
  rw [nodup_append, nodup_cons] at hnodup
  have hnext : m.next a = r.headD 0 := by
    refine Path.next_mid (l := l ++ [p]) (r := r) (a := m.first) ?_
    rw [append_assoc]
    exact h.path
  refine Path.splice [a] [] (r := r) (by simpa using h.path) ?_ ?_
  · rintro x (hx | hx)
    · have hxp : x ≠ p := fun hxp => hnodup.2.2 x hx p mem_cons_self hxp
      simp [hxp]
    · have hxp : x ≠ p := fun hxp => hnodup.2.1.1 (hxp ▸ mem_cons_of_mem _ hx)
      simp [hxp]
  · simp [hnext]

theorem remove_notMem (h : Links m l) (ha : a ≠ 0) (hnot : a ∉ l) :
    m.remove a = some (.notFound, m) := by
  rw [remove, if_neg ha]
  by_cases hfirst : m.first = 0
  · rw [if_pos hfirst]
  · have hfa : m.first ≠ a := by
      intro heq
      rw [h.path.head] at heq hfirst
      cases l with
      | nil => exact hfirst rfl
      | cons b l => exact hnot (heq ▸ mem_cons_self)
    rw [if_neg hfirst, if_neg hfa, h.list]
    simp only [findPrev_none hnot]

theorem remove_first (h : Links m (a :: r)) :
    m.remove a = some (.ok, { m with first := m.next a }) := by
  have hfirst : m.first = a := h.path.1
  have ha : a ≠ 0 := h.ne_zero mem_cons_self
  rw [remove, if_neg ha, hfirst, if_neg ha, if_pos rfl, if_pos (h.allocated a mem_cons_self)]

theorem remove_next (h : Links m (l ++ p :: a :: r)) :
    m.remove a = some (.ok, (m.setNext p (m.next a)).setManager a false) := by
  have ha : a ≠ 0 := h.ne_zero (by simp)
  have hnodup : (l ++ p :: a :: r).Nodup := h.nodup
  have hlp : a ∉ l ++ [p] := by
    have hsplit : (l ++ [p] ++ a :: r).Nodup := by simpa using hnodup
    exact fun hmem => (nodup_append.mp hsplit).2.2 a hmem a mem_cons_self rfl
  have hfirst : m.first ≠ 0 ∧ m.first ≠ a := by
    rw [h.path.head]
    cases l with
    | nil => exact ⟨h.ne_zero (by simp), fun heq => hlp (by simp at heq; simp [heq])⟩
    | cons b l => exact ⟨h.ne_zero (by simp), fun heq => hlp (by simp at heq; simp [heq])⟩
  rw [remove, if_neg ha, if_neg hfirst.1, if_neg hfirst.2, h.list]
  simp only [findPrev_some hlp]
  rfl

theorem remove_unlinked (h : Links m l) (ha : a ∈ l) :
    ∃ m', m.remove a = some (.ok, m') ∧ Unlinked m m' a (l.erase a) ∧
      (m.first ≠ a → (m'.animators a).manager = false) := by
  obtain ⟨l₁, r, rfl⟩ := append_of_mem ha
  have hnot : a ∉ l₁ := fun hmem => (nodup_append.mp h.nodup).2.2 a hmem a mem_cons_self rfl
  rw [erase_append_right _ hnot, erase_cons_head]
  rcases eq_nil_or_concat l₁ with rfl | ⟨l₀, p, rfl⟩
  · exact ⟨_, remove_first h, unlink_first h, fun hfirst => absurd h.path.1 hfirst⟩
  · have heq : l₀.concat p ++ a :: r = l₀ ++ p :: a :: r := by simp
    have heq' : l₀.concat p ++ r = l₀ ++ p :: r := by simp
    rw [heq] at h
    rw [heq']
    have hunlinked := unlink_next h
    refine ⟨_, remove_next h, ⟨?_, hunlinked.frame.trans setManager_frame, ?_, ?_⟩, ?_⟩
    · rw [next_setManager]
      exact hunlinked.path
    · exact fun x => by rw [update_setManager]; exact hunlinked.update x
    · exact fun x hx => by rw [manager_setManager, if_neg hx]; exact hunlinked.manager x hx
    · exact fun _ => by simp

/-- The links without an animator that has no manager any more, or that is destroyed. -/
theorem Unlinked.links (h : Links m l) (hm : Unlinked m m' a (l.erase a))
    (hout : (m'.animators a).update → (m'.animators a).manager = false) : Links m' (l.erase a) := by
  have hmem : ∀ x, x ∈ l.erase a ↔ x ≠ a ∧ x ∈ l := fun x => h.nodup.mem_erase_iff
  constructor
  · exact hm.path
  · exact fun x hx => hm.frame.allocated ▸ h.allocated x ((hmem x).mp hx).2
  · exact fun x hx => by rw [hm.manager x ((hmem x).mp hx).1]; exact h.manager x ((hmem x).mp hx).2
  · exact fun x hx => by rw [hm.update]; exact h.update x ((hmem x).mp hx).2
  · intro x hx hupdate hnot
    by_cases hxa : x = a
    · exact hxa ▸ hout (hxa ▸ hupdate)
    · rw [hm.frame.allocated] at hx
      rw [hm.update] at hupdate
      rw [hm.manager x hxa]
      exact h.outside x hx hupdate fun hmem' => hnot ((hmem x).mpr ⟨hxa, hmem'⟩)

theorem remove_links (h : Links m l) (ha : a ≠ 0) (hfirst : m.first ≠ a) :
    ∃ ret m', m.remove a = some (ret, m') ∧ Links m' (l.erase a) ∧ Frame m m' := by
  by_cases hmem : a ∈ l
  · obtain ⟨m', hremove, hunlinked, hmanager⟩ := remove_unlinked h hmem
    exact ⟨_, m', hremove, hunlinked.links h fun _ => hmanager hfirst, hunlinked.frame⟩
  · rw [erase_of_not_mem hmem]
    exact ⟨_, m, remove_notMem h ha hmem, h, .refl m⟩

/-! ## Destroying -/

/-- The links without an animator that is destroyed. -/
theorem Unlinked.destroyed (h : Links m l) (hm : Unlinked m m' a (l.erase a)) :
    Links (m'.setUpdate a false) (l.erase a) := by
  have hmem : ∀ x, x ∈ l.erase a ↔ x ≠ a ∧ x ∈ l := fun x => h.nodup.mem_erase_iff
  constructor
  · rw [next_setUpdate]
    exact hm.path
  · exact fun x hx => hm.frame.allocated ▸ h.allocated x ((hmem x).mp hx).2
  · intro x hx
    rw [manager_setUpdate, hm.manager x ((hmem x).mp hx).1]
    exact h.manager x ((hmem x).mp hx).2
  · intro x hx
    rw [update_setUpdate, if_neg ((hmem x).mp hx).1, hm.update]
    exact h.update x ((hmem x).mp hx).2
  · intro x hx hupdate hnot
    rw [update_setUpdate] at hupdate
    split at hupdate
    · cases hupdate
    · rw [allocated_setUpdate, hm.frame.allocated] at hx
      rw [hm.update] at hupdate
      rw [manager_setUpdate, hm.manager x ‹_›]
      exact h.outside x hx hupdate fun hmem' => hnot ((hmem x).mpr ⟨‹_›, hmem'⟩)

theorem destroy_unmanaged (ha : a ∈ m.allocated) (hupdate : (m.animators a).update)
    (hmanager : (m.animators a).manager = false) :
    m.destroy a = some (.ok, m.setUpdate a false) := by
  simp only [destroy, ha, hupdate, hmanager, if_true, Bool.false_eq_true, if_false, map_some]
  rfl

theorem destroy_links (h : Links m l) (ha : a ∈ m.allocated) :
    ∃ ret m', m.destroy a = some (ret, m') ∧ Links m' (l.erase a) ∧ Frame m m' := by
  by_cases hupdate : (m.animators a).update
  · by_cases hmem : a ∈ l
    · obtain ⟨m₁, hremove, hunlinked, -⟩ := remove_unlinked h hmem
      refine ⟨.ok, m₁.setUpdate a false, ?_, hunlinked.destroyed h,
        hunlinked.frame.trans setUpdate_frame⟩
      rw [destroy, if_pos ha, if_pos hupdate]
      simp only [h.manager a hmem, if_true, hremove, map_some]
      rfl
    · have hunlinked : Unlinked m m a (l.erase a) := by
        rw [erase_of_not_mem hmem]
        exact ⟨h.path, .refl m, fun _ => rfl, fun _ _ => rfl⟩
      exact ⟨.ok, _, destroy_unmanaged ha hupdate (h.outside a ha hupdate hmem),
        hunlinked.destroyed h, setUpdate_frame⟩
  · have hmem : a ∉ l := fun hmem => hupdate (h.update a hmem)
    rw [erase_of_not_mem hmem, destroy, if_pos ha, if_neg hupdate]
    exact ⟨_, m, rfl, h, .refl m⟩

/-- The loop that removes all animators that are equal.  The animators `l` stay, and `r` are to come. -/
theorem removeAllLoop_links (widget : Nat) (name : Option Str) : ∀ (r : List Nat) (fuel : Nat)
    (m : AnimatorManager) (l : List Nat) (ret : Ret), Links m (l ++ r) → r.length < fuel →
      ∃ ret' m', removeAllLoop widget name fuel m (l.getLastD m.first) (r.headD 0) ret =
          some (ret', m') ∧
        Links m' (l ++ r.filter fun iter => !isEqual (m.animators iter) widget name) ∧ Frame m m'
  | [], fuel + 1, m, l, ret, h, _ => ⟨ret, m, rfl, h, .refl m⟩
  | iter :: r, fuel + 1, m, l, ret, h, hfuel => by
    have hmem : iter ∈ l ++ iter :: r := by simp
    have hiter : iter ≠ 0 := h.ne_zero hmem
    have hal : iter ∈ m.allocated := h.allocated iter hmem
    have hnext : m.next iter = r.headD 0 := Path.next_mid h.path
    have hlen : r.length < fuel := Nat.lt_of_succ_lt_succ hfuel
    rw [headD_cons, removeAllLoop, if_neg hiter, if_pos hal]
    split_ifs with heq
    · rw [filter_cons_of_neg (by simp [heq])]
      have hnot : iter ∉ l := fun hl =>
        (nodup_append.mp h.nodup).2.2 iter hl iter mem_cons_self rfl
      have herase : (l ++ iter :: r).erase iter = l ++ r := by
        rw [erase_append_right _ hnot, erase_cons_head]
      -- The rest of the run, from the list without the animator.
      have hrest : ∀ m₁ : AnimatorManager, Unlinked m m₁ iter (l ++ r) → m₁.next iter = r.headD 0 →
          (m₁.animators iter).manager = false →
          ∃ m₂, m₁.destroy iter = some (.ok, m₂) ∧ m₂.first = m₁.first ∧ m₂.next = m₁.next ∧
            ∃ ret' m', removeAllLoop widget name fuel m₂ (l.getLastD m₂.first) (r.headD 0) .ok =
                some (ret', m') ∧
              Links m' (l ++ r.filter fun iter => !isEqual (m.animators iter) widget name) ∧
              Frame m m' := by
        intro m₁ hunlinked hnext₁ hmanager
        rw [← herase] at hunlinked
        have hlinks := hunlinked.destroyed h
        rw [herase] at hlinks
        have hframe : Frame m (m₁.setUpdate iter false) := hunlinked.frame.trans setUpdate_frame
        have hdestroy : m₁.destroy iter = some (.ok, m₁.setUpdate iter false) := by
          refine destroy_unmanaged (by rw [hunlinked.frame.allocated]; exact hal) ?_ hmanager
          rw [hunlinked.update]
          exact h.update iter hmem
        obtain ⟨ret', m', hrun, hlinks', hframe'⟩ :=
          removeAllLoop_links widget name r fuel (m₁.setUpdate iter false) l .ok hlinks hlen
        refine ⟨_, hdestroy, rfl, next_setUpdate, ret', m', hrun, ?_, hframe.trans hframe'⟩
        simpa only [hframe.isEqual] using hlinks'
      have hmanager : ∀ x, x ≠ iter →
          ((m.setManager iter false).animators x).manager = (m.animators x).manager :=
        fun x hx => by rw [manager_setManager, if_neg hx]
      rcases eq_nil_or_concat l with rfl | ⟨l₀, p, rfl⟩
      · have hfirst : iter = m.first := h.path.1.symm
        have hnext₀ : AnimatorManager.next { m.setManager iter false with first := m.next iter } =
            m.next := next_setManager
        have hpath := (unlink_first h).path
        obtain ⟨m₂, hdestroy, hfirst₂, -, hrun⟩ :=
          hrest { m.setManager iter false with first := m.next iter }
            ⟨by rw [hnext₀]; exact hpath, setManager_frame.trans first_frame,
              fun x => update_setManager x, hmanager⟩
            (by rw [hnext₀]; exact hnext)
            (by rw [manager_setManager, if_pos rfl])
        have hnext₁ : (m.setManager iter false).next iter = m.next iter := by rw [next_setManager]
        have hfirst₁ : iter = (m.setManager iter false).first := hfirst
        rw [← setManager, if_pos hfirst₁, hnext₁, hdestroy]
        simp only
        have hfirst₃ : m₂.first = r.headD 0 := hfirst₂.trans hnext
        simpa [hfirst₃] using hrun
      · have hfirst : iter ≠ m.first := by
          intro heq'
          have hnil := (Path.head_eq_iff h.path).mp heq'.symm
          simp at hnil
        have hp : p ∈ m.allocated := h.allocated p (by simp)
        have heq' : l₀.concat p ++ iter :: r = l₀ ++ p :: iter :: r := by simp
        have hunlinked := unlink_next (heq' ▸ h)
        obtain ⟨m₂, hdestroy, -, hnext₂, hrun⟩ :=
          hrest ((m.setManager iter false).setNext p (m.next iter))
            ⟨by simpa using hunlinked.path, setManager_frame.trans setNext_frame,
              fun x => by simp, fun x hx => by rw [manager_setNext, hmanager x hx]⟩
            (by
              have hpi : iter ≠ p := by
                have hnodup := h.nodup
                rw [heq', nodup_append, nodup_cons] at hnodup
                exact fun hip => hnodup.2.1.1 (hip ▸ mem_cons_self)
              simpa [hpi] using hnext) (by simp)
        have hnext₁ : (m.setManager iter false).next iter = m.next iter := by rw [next_setManager]
        have hfirst₁ : iter ≠ (m.setManager iter false).first := hfirst
        have hlast : (l₀.concat p).getLastD m.first = p := by simp
        have hp₁ : p ∈ (m.setManager iter false).allocated := hp
        rw [hlast, ← setManager, if_neg hfirst₁, if_pos hp₁, hnext₁, ← setNext, hdestroy]
        simp only
        have hnext₃ : m₂.next p = r.headD 0 := by simp [hnext₂, hnext]
        simpa [hnext₃] using hrun
    · rw [filter_cons_of_pos (by simp [heq]), hnext]
      have hlist : l ++ iter :: r = (l ++ [iter]) ++ r := by simp
      rw [hlist] at h
      obtain ⟨ret', m', hrun, hlinks, hframe⟩ :=
        removeAllLoop_links widget name r fuel m (l ++ [iter]) ret h hlen
      refine ⟨ret', m', by simpa using hrun, by simpa using hlinks, hframe⟩

theorem Links.length_le (h : Links m l) : l.length ≤ m.allocated.length :=
  (subperm_of_subset h.nodup h.allocated).length_le

theorem removeAll_links (h : Links m l) (widget : Nat) (name : Option Str) :
    ∃ ret m', m.removeAll widget name = some (ret, m') ∧
      Links m' (l.filter fun iter => !isEqual (m.animators iter) widget name) ∧ Frame m m' := by
  obtain ⟨ret, m', hrun, hlinks, hframe⟩ := removeAllLoop_links widget name l
    (m.allocated.length + 1) m [] .notFound h (Nat.lt_succ_of_le h.length_le)
  have hfirst : m.first = l.headD 0 := h.path.head
  exact ⟨ret, m', by rw [removeAll]; rw [← hfirst] at hrun; exact hrun, hlinks, hframe⟩

theorem resetLoop_links : ∀ (l : List Nat) (fuel : Nat) (m : AnimatorManager), Links m l →
    l.length < fuel → ∃ m', resetLoop fuel m (l.headD 0) = some m' ∧ Links m' [] ∧ Frame m m'
  | [], fuel + 1, m, h, _ => ⟨m, rfl, h, .refl m⟩
  | iter :: r, fuel + 1, m, h, hfuel => by
    have hmem : iter ∈ iter :: r := mem_cons_self
    obtain ⟨ret, m₁, hdestroy, hlinks, hframe⟩ := destroy_links h (h.allocated iter hmem)
    rw [erase_cons_head] at hlinks
    obtain ⟨m', hrun, hlinks', hframe'⟩ :=
      resetLoop_links r fuel m₁ hlinks (Nat.lt_of_succ_lt_succ hfuel)
    have hnext : m.next iter = r.headD 0 := Path.next_mid (l := []) h.path
    refine ⟨m', ?_, hlinks', hframe.trans hframe'⟩
    rw [headD_cons, resetLoop, if_neg (h.ne_zero hmem), hdestroy, hnext]
    exact hrun

theorem reset_links (h : Links m l) :
    ∃ ret m', m.reset = some (ret, m') ∧ Links m' [] ∧ Frame m m' := by
  obtain ⟨m', hrun, hlinks, hframe⟩ :=
    resetLoop_links l (m.allocated.length + 1) m h (Nat.lt_succ_of_le h.length_le)
  have hfirst : m.first = l.headD 0 := h.path.head
  rw [← hfirst] at hrun
  refine ⟨.ok, { m' with first := 0 }, by rw [reset, hrun]; rfl, ?_, hframe.trans first_frame⟩
  exact ⟨rfl, hlinks.allocated, hlinks.manager, hlinks.update, hlinks.outside⟩

/-! ## Loops that assign to fields -/

theorem foldl_modify (g : WidgetAnimator → WidgetAnimator) : ∀ (l : List Nat) (m : AnimatorManager),
    ∃ animators, l.foldl (fun m iter => m.modify iter g) m = { m with animators := animators }
  | [], m => ⟨m.animators, rfl⟩
  | iter :: l, m => by
    obtain ⟨animators, h⟩ := foldl_modify g l (m.modify iter g)
    exact ⟨animators, h⟩

theorem foldl_animators {g : WidgetAnimator → WidgetAnimator} (hg : ∀ a, g (g a) = g a) :
    ∀ (l : List Nat) (m : AnimatorManager) (a : Nat),
      (l.foldl (fun m iter => m.modify iter g) m).animators a =
        if a ∈ l then g (m.animators a) else m.animators a
  | [], m, a => by simp
  | iter :: l, m, a => by
    rw [foldl_cons, foldl_animators hg l (m.modify iter g) a]
    by_cases ha : a = iter
    · subst ha
      simp [hg]
    · simp [modify_ne m g ha, ha]

theorem foldl_alike {g : WidgetAnimator → WidgetAnimator} (hg : ∀ a, links (g a) = links a) :
    ∀ (l : List Nat) (m : AnimatorManager), Alike m (l.foldl (fun m iter => m.modify iter g) m)
  | [], m => .refl m
  | iter :: l, m => (Alike.modify m iter (hg _)).trans (foldl_alike hg l (m.modify iter g))

theorem animatorExec_links (action : Action) (a : WidgetAnimator) :
    links (animatorExec action a) = links a := by
  cases action with
  | start =>
    simp only [animatorExec, animatorStart]
    split
    · rfl
    · split <;> rfl
  | stop =>
    simp only [animatorExec, animatorStop]
    split <;> rfl
  | pause =>
    simp only [animatorExec, animatorPause]
    split <;> rfl

theorem exec_links (h : Links m l) (widget : Nat) (name : Option Str) (action : Action) :
    ∃ nr m', m.exec widget name action = some (nr, m') ∧ Links m' l ∧ Frame m m' := by
  have halike := foldl_alike (animatorExec_links action)
    (l.filter fun iter => isEqual (m.animators iter) widget name) m
  exact ⟨_, _, by rw [exec, h.list, map_some], halike.keep h, halike.frame⟩

/-! ## Calls -/

/-- What a call may name: an animator that is allocated, and to add one that is not destroyed and not
in the list. -/
def Call.Legal (m : AnimatorManager) : Call → Prop
  | .add a => a ≠ 0 ∧ a ∈ m.allocated ∧ (m.animators a).update ∧ a ∉ m.trace.order
  | .remove a | .destroy a => a ≠ 0 ∧ a ∈ m.allocated
  | .removeAll .. | .reset | .exec .. => True

/-- The call is not one of those that go wrong: an animator that is added has no link, and the
animator that is removed is not the first one. -/
def Call.Ok (m : AnimatorManager) : Call → Prop
  | .add a => m.next a = 0
  | .remove a => m.first ≠ a
  | .removeAll .. | .reset | .destroy _ | .exec .. => True

/-- A call does to the links what it does to the list. -/
theorem call_links {c : Call} (h : Links m m.trace.order) (hlegal : c.Legal m) (hok : c.Ok m) :
    ∃ m', m.call c = some m' ∧ Links m' m'.trace.order ∧ Frame (m.note c) m' := by
  have hnote : Links (m.note c) m.trace.order := ⟨h.path, h.allocated, h.manager, h.update, h.outside⟩
  suffices hperform : ∃ m', (m.note c).perform c = some m' ∧ Links m' (c.order m) ∧
      Frame (m.note c) m' by
    obtain ⟨m', hrun, hlinks, hframe⟩ := hperform
    have horder : m'.trace.order = c.order m := by rw [hframe.trace]; rfl
    exact ⟨m', hrun, horder ▸ hlinks, hframe⟩
  cases c with
  | add a =>
    obtain ⟨ha, hal, hupdate, hnot⟩ := hlegal
    obtain ⟨m', hrun, hlinks, hframe⟩ := add_links hnote ha hal hupdate hnot hok
    exact ⟨m', by rw [perform, hrun]; rfl, hlinks, hframe⟩
  | remove a =>
    obtain ⟨ret, m', hrun, hlinks, hframe⟩ := remove_links hnote hlegal.1 hok
    exact ⟨m', by rw [perform, hrun]; rfl, hlinks, hframe⟩
  | removeAll widget name =>
    obtain ⟨ret, m', hrun, hlinks, hframe⟩ := removeAll_links hnote widget name
    exact ⟨m', by rw [perform, hrun]; rfl, hlinks, hframe⟩
  | reset =>
    obtain ⟨ret, m', hrun, hlinks, hframe⟩ := reset_links hnote
    exact ⟨m', by rw [perform, hrun]; rfl, hlinks, hframe⟩
  | destroy a =>
    obtain ⟨ret, m', hrun, hlinks, hframe⟩ := destroy_links hnote hlegal.2
    exact ⟨m', by rw [perform, hrun]; rfl, hlinks, hframe⟩
  | exec widget name action =>
    obtain ⟨nr, m', hrun, hlinks, hframe⟩ := exec_links hnote widget name action
    exact ⟨m', by rw [perform, hrun]; rfl, hlinks, hframe⟩

end Awtk.AnimatorManager
