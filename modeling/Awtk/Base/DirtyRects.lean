import Mathlib
import Awtk.Tkc.Rect

/-!
# Dirty rectangles

A rectangle that is added is merged into the first stored one that it meets, else it is
stored.  `dirty_rects_fix` then repairs the first stored rectangle, and no other one: it stays
apart from all others, and they stay as they are.
-/

namespace Awtk

open List Option

/-- `dirty_rects_t`, without the flags of debugging. -/
structure DirtyRects where
  max : Rect
  rects : List Rect
  disableMultiple : Bool
  deriving DecidableEq, Repr

namespace DirtyRects

def reset : DirtyRects := ⟨.zero, [], false⟩

/-- `dirty_rects_fix` of the first rectangle and the others.  Each turn removes one. -/
def fix : Nat → Rect → List Rect → List Rect
  | 0, first, rest => first :: rest
  | fuel + 1, first, rest =>
    match rest.findIdx? fun iter => rectHasIntersect first iter with
    | none => first :: rest
    | some i => fix fuel (rectMerge first (rest.getD i .zero)) (rest.eraseIdx i)

def fixAll : List Rect → List Rect
  | [] => []
  | first :: rest => fix rest.length first rest

/-- What `dirty_rects_add` makes of the list when it is full. -/
def collapse (maxNr : Nat) (rects : List Rect) : List Rect :=
  if maxNr ≤ rects.length then
    match rects with
    | [] => []
    | first :: rest => [rest.foldl rectMerge first]
  else rects

/-- `dirty_rects_add` for lists of at most `maxNr` rectangles, which is
`TK_MAX_DIRTY_RECT_NR`.  A write behind the array is an error. -/
def add (maxNr : Nat) (d : DirtyRects) (r : Rect) : Option DirtyRects :=
  if r.w = 0 ∨ r.h = 0 then some d
  else
    let rects := collapse maxNr d.rects
    let d := { d with max := rectMerge d.max r }
    match rects.findIdx? fun iter => rectHasIntersect iter r with
    | some i => some { d with rects := fixAll (rects.modify i fun iter => rectMerge iter r) }
    | none => if rects.length < maxNr then some { d with rects := rects ++ [r] } else none

end DirtyRects

/-! ## What is covered -/

/-- A pixel is in a rectangle of a list. -/
def Covered (rects : List Rect) (p : Int × Int) : Prop := ∃ r ∈ rects, p ∈ r.box

/-- No pixel is in two rectangles of a list. -/
def Apart (rects : List Rect) : Prop :=
  rects.Pairwise fun a b => ∀ p, ¬ (p ∈ a.box ∧ p ∈ b.box)

/-- No two rectangles of a list meet. -/
def NoMeeting (rects : List Rect) : Prop := rects.Pairwise fun a b => ¬ a.box.Meets b.box

section Covered

variable {m : Box Int} {a b r first : Rect} {l rest : List Rect} {p : Int × Int}

theorem covered_cons : Covered (r :: l) p ↔ p ∈ r.box ∨ Covered l p := by
  simp [Covered]

theorem covered_append {l' : List Rect} : Covered (l ++ l') p ↔ Covered l p ∨ Covered l' p := by
  simp only [Covered, mem_append, or_and_right, exists_or]

theorem apart_iff (h : ∀ r ∈ l, r.Solid) : Apart l ↔ NoMeeting l := by
  rw [Apart, NoMeeting]
  refine Pairwise.iff_of_mem fun {a b} ha hb => ?_
  rw [Box.meets_iff ((Rect.box_solid a).mpr (h a ha)) ((Rect.box_solid b).mpr (h b hb))]
  exact not_exists.symm

end Covered

/-! ## Splitting a list at the first match -/

section Split

variable {α : Type*} {q : α → Bool} {l pre post pre' post' : List α} {s s' z : α} {i : Nat}

theorem findIdx?_split (h : l.findIdx? q = some i) :
    ∃ pre s post, l = pre ++ s :: post ∧ pre.length = i ∧ q s = true ∧ ∀ t ∈ pre, q t = false := by
  induction l generalizing i with
  | nil => cases h
  | cons a l ih =>
    rw [findIdx?_cons] at h
    cases ha : q a with
    | true =>
      rw [ha, if_pos rfl, some_inj] at h
      exact ⟨[], a, l, rfl, h, ha, fun t ht => absurd ht not_mem_nil⟩
    | false =>
      rw [ha, if_neg Bool.false_ne_true, map_eq_some_iff] at h
      obtain ⟨j, hj, rfl⟩ := h
      obtain ⟨pre, s, post, rfl, rfl, hs, hpre⟩ := ih hj
      exact ⟨a :: pre, s, post, rfl, rfl, hs, forall_mem_cons.mpr ⟨ha, hpre⟩⟩

theorem findIdx?_append_cons (hpre : ∀ t ∈ pre, q t = false) (hs : q s = true) :
    (pre ++ s :: post).findIdx? q = some pre.length := by
  induction pre with
  | nil => simp [findIdx?_cons, hs]
  | cons a pre ih =>
    rw [forall_mem_cons] at hpre
    simp [findIdx?_cons, hpre.1, ih hpre.2]

theorem modify_append_cons (f : α → α) :
    (pre ++ s :: post).modify pre.length f = pre ++ f s :: post := by
  induction pre with
  | nil => rfl
  | cons a pre ih => rw [cons_append, length_cons, modify_succ_cons, ih]; rfl

theorem split_unique (h : pre ++ s :: post = pre' ++ s' :: post') (hpre : ∀ t ∈ pre, q t = false)
    (hpre' : ∀ t ∈ pre', q t = false) (hs : q s = true) (hs' : q s' = true) :
    pre = pre' ∧ s = s' ∧ post = post' := by
  have hlen : pre.length = pre'.length := by
    have heq := congrArg (List.findIdx? q) h
    rw [findIdx?_append_cons hpre hs, findIdx?_append_cons hpre' hs'] at heq
    exact some_inj.mp heq
  obtain ⟨hpres, htail⟩ := append_inj h hlen
  obtain ⟨hss, hposts⟩ := List.cons.inj htail
  exact ⟨hpres, hss, hposts⟩

end Split

/-! ## Repairing the list -/

namespace DirtyRects

section Fix

variable {m : Box Int} {first r s : Rect} {rest pre post l : List Rect} {fuel : Nat} {p : Int × Int}

theorem fix_none (h : ∀ t ∈ rest, rectHasIntersect first t = false) :
    fix fuel first rest = first :: rest := by
  cases fuel with
  | zero => rfl
  | succ fuel =>
    have hnone : (rest.findIdx? fun iter => rectHasIntersect first iter) = none :=
      findIdx?_eq_none_iff.mpr h
    rw [fix, hnone]

theorem fix_some (hpre : ∀ t ∈ pre, rectHasIntersect first t = false)
    (hs : rectHasIntersect first s = true) :
    fix (fuel + 1) first (pre ++ s :: post) = fix fuel (rectMerge first s) (pre ++ post) := by
  have hget : (pre ++ s :: post).getD pre.length .zero = s := by
    simp [getD_eq_getElem?_getD]
  have herase : (pre ++ s :: post).eraseIdx pre.length = pre ++ post := by
    simp [eraseIdx_append_of_length_le]
  rw [fix, findIdx?_append_cons hpre hs]
  simp only [hget, herase]

theorem fix_covers (hm : Rect.Fits m) (hin : ∀ t ∈ first :: rest, Rect.PixelsIn m t) :
    (∀ t ∈ fix fuel first rest, Rect.PixelsIn m t) ∧
      ∀ p, Covered (first :: rest) p → Covered (fix fuel first rest) p := by
  induction fuel generalizing first rest with
  | zero => exact ⟨hin, fun p hp => hp⟩
  | succ fuel ih =>
    cases hfind : rest.findIdx? fun iter => rectHasIntersect first iter with
    | none =>
      rw [fix_none (findIdx?_eq_none_iff.mp hfind)]
      exact ⟨hin, fun p hp => hp⟩
    | some i =>
      obtain ⟨pre, s, post, rfl, -, hs, hpre⟩ := findIdx?_split hfind
      rw [fix_some hpre hs]
      have hmerge := Rect.merge_covers hm (hin first (by simp)) (hin s (by simp))
      have hothers : ∀ t ∈ pre ++ post, Rect.PixelsIn m t := by
        intro t ht
        refine hin t ?_
        simp only [mem_append, mem_cons] at ht ⊢
        exact .inr (ht.imp_right .inr)
      obtain ⟨hin', hcover⟩ := ih (forall_mem_cons.mpr ⟨hmerge.1, hothers⟩)
      refine ⟨hin', fun p hp => hcover p ?_⟩
      rw [covered_cons, covered_append]
      rw [covered_cons, covered_append, covered_cons] at hp
      rcases hp with hp | hp | hp | hp
      · exact .inl (hmerge.2 p (.inl hp))
      · exact .inr (.inl hp)
      · exact .inl (hmerge.2 p (.inr hp))
      · exact .inr (.inr hp)

theorem fixAll_covers (hm : Rect.Fits m) (hin : ∀ t ∈ l, Rect.PixelsIn m t) :
    (∀ t ∈ fixAll l, Rect.PixelsIn m t) ∧ ∀ p, Covered l p → Covered (fixAll l) p := by
  cases l with
  | nil => exact ⟨hin, fun p hp => hp⟩
  | cons first rest => exact fix_covers hm hin

theorem fix_length (fuel : Nat) (first : Rect) (rest : List Rect) :
    (fix fuel first rest).length ≤ rest.length + 1 := by
  induction fuel generalizing first rest with
  | zero => exact Nat.le_refl _
  | succ fuel ih =>
    rw [fix]
    split
    · exact Nat.le_refl _
    · next i _ =>
      refine (ih _ _).trans ?_
      have := length_eraseIdx_le rest i
      omega

/-- The first rectangle takes in those that it meets, and stays apart from the others. -/
theorem fix_spec (hm : Rect.Fits m) (hfirst : Rect.In m first) (hrest : ∀ t ∈ rest, Rect.In m t)
    (hfuel : rest.length ≤ fuel) :
    (∀ t ∈ fix fuel first rest, Rect.In m t) ∧
      (NoMeeting rest → NoMeeting (fix fuel first rest)) := by
  induction fuel generalizing first rest with
  | zero =>
    obtain rfl := length_eq_zero_iff.mp (Nat.le_zero.mp hfuel)
    refine ⟨?_, fun _ => pairwise_singleton _ _⟩
    intro t ht
    exact mem_singleton.mp ht ▸ hfirst
  | succ fuel ih =>
    cases hfind : rest.findIdx? fun iter => rectHasIntersect first iter with
    | none =>
      have hnone := findIdx?_eq_none_iff.mp hfind
      rw [fix_none hnone]
      refine ⟨forall_mem_cons.mpr ⟨hfirst, hrest⟩, fun h => ?_⟩
      refine pairwise_cons.mpr ⟨fun t ht hmeets => ?_, h⟩
      have htrue := (Rect.hasIntersect_iff hm hfirst (hrest t ht)).mpr hmeets
      rw [hnone t ht] at htrue
      cases htrue
    | some i =>
      obtain ⟨pre, s, post, rfl, -, hs, hpre⟩ := findIdx?_split hfind
      rw [fix_some hpre hs]
      have hsin : Rect.In m s := hrest s (by simp)
      have hrest' : ∀ t ∈ pre ++ post, Rect.In m t := by
        intro t ht
        refine hrest t ?_
        simp only [mem_append, mem_cons] at ht ⊢
        exact ht.imp_right .inr
      have hlen : (pre ++ post).length ≤ fuel := by
        simp only [length_append, length_cons] at hfuel ⊢
        omega
      obtain ⟨hin, hno⟩ := ih (Rect.merge_in hm hfirst hsin) hrest' hlen
      refine ⟨hin, fun h => hno (Pairwise.sublist ?_ h)⟩
      exact (sublist_cons_self s post).append_left pre

end Fix

/-! ## Adding a rectangle -/

section Add

variable {m : Box Int} {first r s : Rect} {rest pre post l : List Rect} {maxNr : Nat}
  {p : Int × Int} {d : DirtyRects}

theorem foldl_merge_in (hm : Rect.Fits m) (hfirst : Rect.In m first)
    (hrest : ∀ t ∈ rest, Rect.In m t) : Rect.In m (rest.foldl rectMerge first) := by
  induction rest generalizing first with
  | nil => exact hfirst
  | cons s rest ih =>
    rw [forall_mem_cons] at hrest
    exact ih (Rect.merge_in hm hfirst hrest.1) hrest.2

theorem foldl_merge_covers (hm : Rect.Fits m) (hin : ∀ t ∈ first :: rest, Rect.PixelsIn m t) :
    Rect.PixelsIn m (rest.foldl rectMerge first) ∧
      ∀ p, Covered (first :: rest) p → p ∈ (rest.foldl rectMerge first).box := by
  induction rest generalizing first with
  | nil => exact ⟨hin first mem_cons_self, fun p hp => by simpa [Covered] using hp⟩
  | cons s rest ih =>
    rw [forall_mem_cons, forall_mem_cons] at hin
    have hmerge := Rect.merge_covers hm hin.1 hin.2.1
    obtain ⟨hin', hcover⟩ := ih (forall_mem_cons.mpr ⟨hmerge.1, hin.2.2⟩)
    refine ⟨hin', fun p hp => hcover p ?_⟩
    rw [covered_cons]
    rw [covered_cons, covered_cons] at hp
    rcases hp with hp | hp | hp
    · exact .inl (hmerge.2 p (.inl hp))
    · exact .inl (hmerge.2 p (.inr hp))
    · exact .inr hp

theorem collapse_length (hmax : 2 ≤ maxNr) (l : List Rect) : (collapse maxNr l).length < maxNr := by
  rw [collapse.eq_def]
  split
  · split
    · exact Nat.lt_of_lt_of_le Nat.zero_lt_two hmax
    · exact hmax
  · next h => exact Nat.lt_of_not_le h

theorem collapse_covers (maxNr : Nat) (hm : Rect.Fits m) (hin : ∀ t ∈ l, Rect.PixelsIn m t) :
    (∀ t ∈ collapse maxNr l, Rect.PixelsIn m t) ∧
      ∀ p, Covered l p → Covered (collapse maxNr l) p := by
  rw [collapse.eq_def]
  split
  · cases l with
    | nil => exact ⟨hin, fun p hp => hp⟩
    | cons first rest =>
      obtain ⟨hfold, hcover⟩ := foldl_merge_covers hm hin
      refine ⟨fun t ht => mem_singleton.mp ht ▸ hfold, fun p hp => ?_⟩
      exact covered_cons.mpr (.inl (hcover p hp))
  · exact ⟨hin, fun p hp => hp⟩

theorem collapse_spec (maxNr : Nat) (hm : Rect.Fits m) (hin : ∀ t ∈ l, Rect.In m t) :
    (∀ t ∈ collapse maxNr l, Rect.In m t) ∧ (NoMeeting l → NoMeeting (collapse maxNr l)) := by
  rw [collapse.eq_def]
  split
  · cases l with
    | nil => exact ⟨hin, fun h => h⟩
    | cons first rest =>
      rw [forall_mem_cons] at hin
      have hfold := foldl_merge_in hm hin.1 hin.2
      exact ⟨fun t ht => mem_singleton.mp ht ▸ hfold, fun _ => pairwise_singleton _ _⟩
  · exact ⟨hin, fun h => h⟩

/-- The list is repaired: it is the first stored rectangle that grows, or it takes in the one that
grows, or this one meets no other. -/
def Repaired (l : List Rect) (r : Rect) : Prop :=
  ∀ first pre s post, l = first :: (pre ++ s :: post) →
    (∀ t ∈ first :: pre, ¬ t.box.Meets r.box) → s.box.Meets r.box →
    (s.box.join r.box).Meets first.box ∨ ∀ t ∈ pre ++ post, ¬ (s.box.join r.box).Meets t.box

theorem noMeeting_append_cons :
    NoMeeting (pre ++ s :: post) ↔
      NoMeeting (pre ++ post) ∧ ∀ t ∈ pre ++ post, ¬ s.box.Meets t.box := by
  have hsymm : ∀ a b : Rect, ¬ a.box.Meets b.box → ¬ b.box.Meets a.box :=
    fun a b h hba => h hba.symm
  rw [NoMeeting, NoMeeting, pairwise_middle (fun {a b} => hsymm a b), pairwise_cons]
  exact and_comm

/-- `dirty_rects_add` on a list that is not full. -/
def store (l : List Rect) (r : Rect) : List Rect :=
  match l.findIdx? fun iter => rectHasIntersect iter r with
  | some i => fixAll (l.modify i fun iter => rectMerge iter r)
  | none => l ++ [r]

/-- What `dirty_rects_add` makes of the record. -/
def added (maxNr : Nat) (d : DirtyRects) (r : Rect) : DirtyRects :=
  if r.w = 0 ∨ r.h = 0 then d
  else { d with max := rectMerge d.max r, rects := store (collapse maxNr d.rects) r }

theorem add_eq_added (hmax : 2 ≤ maxNr) (d : DirtyRects) (r : Rect) :
    add maxNr d r = some (added maxNr d r) := by
  rw [add, added, store]
  split
  · rfl
  · simp only
    split
    · rfl
    · rw [if_pos (collapse_length hmax _)]

theorem store_covers (hm : Rect.Fits m) (hin : ∀ t ∈ l, Rect.PixelsIn m t)
    (hr : Rect.PixelsIn m r) :
    (∀ t ∈ store l r, Rect.PixelsIn m t) ∧
      ∀ p, p ∈ r.box ∨ Covered l p → Covered (store l r) p := by
  rw [store]
  cases hfind : l.findIdx? fun iter => rectHasIntersect iter r with
  | none =>
    refine ⟨fun t ht => ?_, fun p hp => ?_⟩
    · rcases mem_append.mp ht with ht | ht
      · exact hin t ht
      · exact mem_singleton.mp ht ▸ hr
    · rw [covered_append, covered_cons]
      exact hp.symm.imp_right .inl
  | some i =>
    obtain ⟨pre, s, post, rfl, rfl, -, -⟩ := findIdx?_split hfind
    have hmerge := Rect.merge_covers hm (hin s (by simp)) hr
    have hin' : ∀ t ∈ pre ++ rectMerge s r :: post, Rect.PixelsIn m t := by
      intro t ht
      rcases mem_append.mp ht with ht | ht
      · exact hin t (mem_append_left _ ht)
      rcases mem_cons.mp ht with rfl | ht
      · exact hmerge.1
      · exact hin t (mem_append_right _ (mem_cons_of_mem _ ht))
    simp only [modify_append_cons]
    obtain ⟨hfix, hcover⟩ := fixAll_covers hm hin'
    refine ⟨hfix, fun p hp => hcover p ?_⟩
    rw [covered_append, covered_cons]
    rw [covered_append, covered_cons] at hp
    rcases hp with hp | hp | hp | hp
    · exact .inr (.inl (hmerge.2 p (.inr hp)))
    · exact .inl hp
    · exact .inr (.inl (hmerge.2 p (.inl hp)))
    · exact .inr (.inr hp)

theorem added_covers (maxNr : Nat) (hm : Rect.Fits m) (hin : ∀ t ∈ d.rects, Rect.PixelsIn m t)
    (hr : Rect.PixelsIn m r) :
    (∀ t ∈ (added maxNr d r).rects, Rect.PixelsIn m t) ∧
      ∀ p, p ∈ r.box ∨ Covered d.rects p → Covered (added maxNr d r).rects p := by
  rw [added]
  split
  · next hempty =>
    refine ⟨hin, fun p hp => hp.resolve_left fun h => ?_⟩
    have hsolid := Rect.solid_of_mem h
    simp only [Rect.Solid] at hsolid
    omega
  · obtain ⟨hcin, hccover⟩ := collapse_covers maxNr hm hin
    obtain ⟨hsin, hscover⟩ := store_covers hm hcin hr
    exact ⟨hsin, fun p hp => hscover p (hp.imp_right (hccover p))⟩

theorem add_eq (hmax : 2 ≤ maxNr) (d : DirtyRects) (hr : r.Solid) :
    add maxNr d r = some { d with max := rectMerge d.max r, rects := store (collapse maxNr d.rects) r } := by
  have hne : ¬ (r.w = 0 ∨ r.h = 0) := by
    simp only [Rect.Solid] at hr
    omega
  rw [add_eq_added hmax, added, if_neg hne]

theorem store_length (l : List Rect) (r : Rect) : (store l r).length ≤ l.length + 1 := by
  rw [store]
  split
  · next i _ =>
    rw [fixAll.eq_def]
    split
    · exact Nat.zero_le _
    · next first rest heq =>
      have hlen := congrArg List.length heq
      rw [length_modify, length_cons] at hlen
      exact (fix_length _ _ _).trans (by omega)
  · simp

theorem store_cons (hpre : ∀ t ∈ first :: pre, rectHasIntersect t r = false)
    (hs : rectHasIntersect s r = true) :
    store (first :: (pre ++ s :: post)) r =
      fix (pre ++ s :: post).length first (pre ++ rectMerge s r :: post) := by
  have hfind : (first :: (pre ++ s :: post)).findIdx? (fun iter => rectHasIntersect iter r) =
      some (pre.length + 1) := by
    rw [← cons_append]
    exact findIdx?_append_cons hpre hs
  rw [store, hfind]
  simp only [modify_succ_cons, modify_append_cons, fixAll]
  simp

theorem repaired_iff (hpre : ∀ t ∈ first :: pre, ¬ t.box.Meets r.box) (hs : s.box.Meets r.box) :
    Repaired (first :: (pre ++ s :: post)) r ↔
      (s.box.join r.box).Meets first.box ∨ ∀ t ∈ pre ++ post, ¬ (s.box.join r.box).Meets t.box := by
  constructor
  · intro h
    exact h first pre s post rfl hpre hs
  · intro h first' pre' s' post' heq hpre' hs'
    have hsplit : (first :: pre) ++ s :: post = (first' :: pre') ++ s' :: post' := heq
    obtain ⟨hfirst, rfl, rfl⟩ := split_unique (q := fun t => decide (t.box.Meets r.box)) hsplit
      (fun t ht => decide_eq_false (hpre t ht)) (fun t ht => decide_eq_false (hpre' t ht))
      (decide_eq_true hs) (decide_eq_true hs')
    obtain ⟨rfl, rfl⟩ := List.cons.inj hfirst
    exact h

/-- Where one that is not the first grows, the list is repaired or some meet. -/
theorem noMeeting_fix_iff (hm : Rect.Fits m) (hfirst : Rect.In m first)
    (hothers : ∀ t ∈ pre ++ post, Rect.In m t) (hsin : Rect.In m s) (hr : Rect.In m r)
    (hno : NoMeeting (first :: (pre ++ s :: post))) {fuel : Nat}
    (hfuel : fuel = (pre ++ post).length + 1) :
    NoMeeting (fix fuel first (pre ++ rectMerge s r :: post)) ↔
      (s.box.join r.box).Meets first.box ∨
        ∀ t ∈ pre ++ post, ¬ (s.box.join r.box).Meets t.box := by
  subst hfuel
  have hmerge := Rect.merge_in hm hsin hr
  have hbox := Rect.merge_box hm hsin hr
  obtain ⟨hfar, htail⟩ := pairwise_cons.mp hno
  have htail' : NoMeeting (pre ++ post) := (noMeeting_append_cons.mp htail).1
  have hapart : ∀ t ∈ pre ++ post, ¬ first.box.Meets t.box := by
    intro t ht
    refine hfar t ?_
    simp only [mem_append, mem_cons] at ht ⊢
    exact ht.imp_right .inr
  have hskip : ∀ t ∈ pre ++ post, rectHasIntersect first t = false := by
    intro t ht
    rw [← Bool.not_eq_true, Rect.hasIntersect_iff hm hfirst (hothers t ht)]
    exact hapart t ht
  have hmeets := Rect.hasIntersect_iff hm hfirst hmerge
  rw [hbox] at hmeets
  cases hgrown : rectHasIntersect first (rectMerge s r) with
  | true =>
    rw [fix_some (fun t ht => hskip t (mem_append_left _ ht)) hgrown]
    have hfix := fix_spec hm (Rect.merge_in hm hfirst hmerge) hothers (Nat.le_refl _)
    exact iff_of_true (hfix.2 htail') (.inl (hmeets.mp hgrown).symm)
  | false =>
    have hnot : ¬ (s.box.join r.box).Meets first.box := by
      intro h
      rw [hmeets.mpr h.symm] at hgrown
      cases hgrown
    rw [fix_none, NoMeeting, pairwise_cons, ← NoMeeting, noMeeting_append_cons, hbox]
    · constructor
      · exact fun h => .inr h.2.2
      · intro h
        refine ⟨fun t ht => ?_, htail', h.resolve_left hnot⟩
        rcases mem_append.mp ht with ht | ht
        · exact hapart t (mem_append_left _ ht)
        rcases mem_cons.mp ht with rfl | ht
        · exact hbox ▸ fun h' => hnot h'.symm
        · exact hapart t (mem_append_right _ ht)
    · intro t ht
      rcases mem_append.mp ht with ht | ht
      · exact hskip t (mem_append_left _ ht)
      rcases mem_cons.mp ht with rfl | ht
      · exact hgrown
      · exact hskip t (mem_append_right _ ht)

theorem store_spec (hm : Rect.Fits m) (hin : ∀ t ∈ l, Rect.In m t) (hr : Rect.In m r) :
    (∀ t ∈ store l r, Rect.In m t) ∧
      (NoMeeting l → (NoMeeting (store l r) ↔ Repaired l r)) := by
  cases hfind : l.findIdx? fun iter => rectHasIntersect iter r with
  | none =>
    have hnone := findIdx?_eq_none_iff.mp hfind
    have hmeets : ∀ t ∈ l, ¬ t.box.Meets r.box := by
      intro t ht hmeets
      have htrue := (Rect.hasIntersect_iff hm (hin t ht) hr).mpr hmeets
      rw [hnone t ht] at htrue
      cases htrue
    have heq : store l r = l ++ [r] := by rw [store, hfind]
    rw [heq]
    refine ⟨?_, fun hno => iff_of_true ?_ ?_⟩
    · intro t ht
      rcases mem_append.mp ht with ht | ht
      · exact hin t ht
      · exact mem_singleton.mp ht ▸ hr
    · refine pairwise_append.mpr ⟨hno, pairwise_singleton _ _, fun t ht u hu => ?_⟩
      exact mem_singleton.mp hu ▸ hmeets t ht
    · rintro first pre s post rfl - hs
      exact absurd hs (hmeets s (by simp))
  | some i =>
    obtain ⟨pre, s, post, rfl, hi, hs, hpre⟩ := findIdx?_split hfind
    cases pre with
    | nil =>
      have heq : store ([] ++ s :: post) r = fix post.length (rectMerge s r) post := by
        rw [store, hfind, ← hi]
        rfl
      rw [heq]
      rw [nil_append, forall_mem_cons] at hin
      obtain ⟨hin', hno⟩ :=
        fix_spec hm (Rect.merge_in hm hin.1 hr) hin.2 (Nat.le_refl post.length)
      refine ⟨hin', fun h => iff_of_true (hno ?_) ?_⟩
      · exact (pairwise_cons.mp h).2
      · intro first pre' s' post' hsplit hnone
        obtain ⟨rfl, -⟩ := List.cons.inj hsplit
        exact absurd ((Rect.hasIntersect_iff hm hin.1 hr).mp hs) (hnone s mem_cons_self)
    | cons first pre =>
      rw [cons_append] at hin ⊢
      rw [forall_mem_cons] at hin
      have hsin : Rect.In m s := hin.2 s (by simp)
      have hmerge := Rect.merge_in hm hsin hr
      have hothers : ∀ t ∈ pre ++ post, Rect.In m t := by
        intro t ht
        refine hin.2 t ?_
        simp only [mem_append, mem_cons] at ht ⊢
        exact ht.imp_right .inr
      have hrest : ∀ t ∈ pre ++ rectMerge s r :: post, Rect.In m t := by
        intro t ht
        rcases mem_append.mp ht with ht | ht
        · exact hothers t (mem_append_left _ ht)
        rcases mem_cons.mp ht with rfl | ht
        · exact hmerge
        · exact hothers t (mem_append_right _ ht)
      have hlen : (pre ++ s :: post).length = (pre ++ post).length + 1 := by
        simp only [length_append, length_cons]
        omega
      have hlen' : (pre ++ rectMerge s r :: post).length ≤ (pre ++ s :: post).length := by simp
      rw [store_cons hpre hs]
      refine ⟨(fix_spec hm hin.1 hrest hlen').1, fun hno => ?_⟩
      have hpre' : ∀ t ∈ first :: pre, ¬ t.box.Meets r.box := by
        intro t ht hmeets
        have htin : Rect.In m t := by
          rcases mem_cons.mp ht with rfl | ht
          · exact hin.1
          · exact hothers t (mem_append_left _ ht)
        have htrue := (Rect.hasIntersect_iff hm htin hr).mpr hmeets
        rw [hpre t ht] at htrue
        cases htrue
      rw [repaired_iff hpre' ((Rect.hasIntersect_iff hm hsin hr).mp hs)]
      exact noMeeting_fix_iff hm hin.1 hothers hsin hr hno hlen

end Add

end DirtyRects

end Awtk
