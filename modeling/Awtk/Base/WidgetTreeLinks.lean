import Mathlib
import Awtk.Lib.Acyclic
import Awtk.Base.WidgetTree

/-!
# Links of the widget tree

The parent of a widget and the children of its parent name each other (`Linked`).  Adding, moving and
removing a child keep this, if the child that is removed is there.
-/

namespace Awtk.Forest

open Function List Option

open Function (update)
open Relation (Acyclic Rank TransGen ReflTransGen)

variable {ι : Type*} {f f' : Forest ι} {w c p : ι} {rank : ι → Nat}

/-! ## The invariant -/

/-- The children of a widget. -/
def kids (f : Forest ι) (w : ι) : List ι := (f.children w).getD []

/-- A widget is a child of another one. -/
def Below (f : Forest ι) (c p : ι) : Prop := f.parent c = some p

/-- Parents and children name each other, and the cached widgets are children. -/
structure Linked (f : Forest ι) : Prop where
  parent_iff : ∀ c p, f.parent c = some p ↔ c ∈ f.kids p
  nodup : ∀ p, (f.kids p).Nodup
  target : ∀ p t, f.target p = some t → t ∈ f.kids p
  grabWidget : ∀ p t, f.grabWidget p = some t → t ∈ f.kids p
  keyTarget : ∀ p t, f.keyTarget p = some t → t ∈ f.kids p
  alive : ∀ c p, c ∈ f.kids p → f.alive c ∧ f.alive p
  acyclic : Acyclic f.Below
  refCount : ∀ w, f.alive w → 0 < f.refCount w

/-- What the focus needs of the links, for some rank of the widgets. -/
structure Ranked [Fintype ι] (f : Forest ι) (rank : ι → Nat) : Prop where
  rank : Rank f.Below rank
  alive : ∀ c p, f.parent c = some p → f.alive c ∧ f.alive p
  keyTarget : ∀ p t, f.keyTarget p = some t → f.parent t = some p

/-- Some of the entries are cleared. -/
def Cleared (a b : ι → Option ι) : Prop := ∀ w t, b w = some t → a w = some t

theorem Cleared.refl (a : ι → Option ι) : Cleared a a := fun _ _ h => h

theorem Cleared.trans {a b c : ι → Option ι} (h : Cleared a b) (h' : Cleared b c) : Cleared a c :=
  fun w t hc => h w t (h' w t hc)

theorem Cleared.update_none [DecidableEq ι] (a : ι → Option ι) (w : ι) :
    Cleared a (update a w none) := by
  intro v t ht
  by_cases hvw : v = w
  · subst hvw
    simp at ht
  · rwa [update_of_ne hvw] at ht

theorem kids_eq {cs : List ι} (h : f.children w = some cs) : f.kids w = cs := by simp [kids, h]

theorem children_eq (h : c ∈ f.kids w) : f.children w = some (f.kids w) := by
  cases hw : f.children w with
  | none => simp [kids, hw] at h
  | some cs => rw [kids_eq hw]

theorem Linked.ranked [Fintype ι] (h : Linked f) (hrank : Rank f.Below rank) : Ranked f rank where
  rank := hrank
  alive := fun c p hp => h.alive c p ((h.parent_iff c p).mp hp)
  keyTarget := fun p t ht => (h.parent_iff t p).mpr (h.keyTarget p t ht)

theorem kids_update [DecidableEq ι] {cs : List ι} (h : f'.children = update f.children w (some cs)) :
    f'.kids = update f.kids w cs := by
  funext p
  by_cases hp : p = w
  · subst hp
    simp [kids, h]
  · simp [kids, h, hp]

/-! ## The focus -/

section Focus

variable [Fintype ι]

theorem Ranked.blur (h : Ranked f rank) {focused : ι → Bool} {keyTarget : ι → Option ι}
    (hkey : Cleared f.keyTarget keyTarget) :
    Ranked { f with focused := focused, keyTarget := keyTarget } rank :=
  ⟨h.rank, h.alive, fun p t ht => h.keyTarget p t (hkey p t ht)⟩

theorem getWindow_some (env : WidgetEnv ι) (h : Ranked f rank) :
    ∀ (fuel : Nat) (w : ι), f.alive w → Fintype.card ι ≤ fuel + rank w →
      ∃ win, getWindow env f fuel w = some win
  | 0, w, _, hfuel => absurd (h.rank.lt_card w) (by omega)
  | fuel + 1, w, hw, hfuel => by
    rw [getWindow, if_pos hw]
    split_ifs with hwin
    · exact ⟨_, rfl⟩
    · cases hp : f.parent w with
      | none => exact ⟨_, rfl⟩
      | some p =>
        have hlt : rank w < rank p := h.rank.grows w p hp
        exact getWindow_some env h fuel p (h.alive w p hp).2 (by omega)

variable [DecidableEq ι]

/-- The blur event clears some key targets, as each step goes down. -/
theorem dispatchBlurEvent_some : ∀ (fuel : Nat) (f : Forest ι) (target : Option ι), Ranked f rank →
    (∀ t, target = some t → f.alive t ∧ rank t < fuel) →
      ∃ focused keyTarget, dispatchBlurEvent fuel f target =
        some { f with focused := focused, keyTarget := keyTarget } ∧
          Cleared f.keyTarget keyTarget
  | 0, f, none, _, _ => ⟨f.focused, f.keyTarget, rfl, .refl _⟩
  | 0, _, some t, _, htarget => absurd (htarget t rfl).2 (Nat.not_lt_zero _)
  | fuel + 1, f, none, _, _ => ⟨f.focused, f.keyTarget, rfl, .refl _⟩
  | fuel + 1, f, some t, h, htarget => by
    obtain ⟨ht, hfuel⟩ := htarget t rfl
    -- The rest of the run, from the forest after this turn.
    have hnext : ∀ keyTarget, Cleared f.keyTarget keyTarget →
        ∃ focused' keyTarget',
          dispatchBlurEvent fuel
              { f with focused := update f.focused t false, keyTarget := keyTarget } (keyTarget t) =
            some { f with focused := focused', keyTarget := keyTarget' } ∧
          Cleared f.keyTarget keyTarget' := by
      intro keyTarget hkey
      obtain ⟨focused', keyTarget', hrun, hkey'⟩ := dispatchBlurEvent_some fuel
        { f with focused := update f.focused t false, keyTarget := keyTarget } (keyTarget t)
        (h.blur hkey) (by
          intro u hu
          have hp : f.parent u = some t := h.keyTarget t u (hkey t u hu)
          have hlt : rank u < rank t := h.rank.grows u t hp
          exact ⟨(h.alive u t hp).1, by omega⟩)
      exact ⟨focused', keyTarget', hrun, hkey.trans hkey'⟩
    rw [dispatchBlurEvent, if_pos ht]
    cases hp : f.parent t with
    | none =>
      simp only [hp]
      exact hnext f.keyTarget (.refl _)
    | some p =>
      simp only [hp, (h.alive t p hp).2, if_true]
      by_cases hkey : f.keyTarget p = some t
      · simp only [hkey, if_true]
        exact hnext _ (.update_none _ p)
      · simp only [hkey, if_false]
        exact hnext f.keyTarget (.refl _)

theorem unfocus_some (env : WidgetEnv ι) (h : Ranked f rank) (hw : f.alive w) :
    ∃ focused keyTarget, unfocus env f w =
      some { f with focused := focused, keyTarget := keyTarget } ∧
        Cleared f.keyTarget keyTarget := by
  obtain ⟨win, hwin⟩ := getWindow_some env h (Fintype.card ι) w hw (Nat.le_add_right _ _)
  rw [unfocus, hwin]
  cases win with
  | none => exact ⟨f.focused, f.keyTarget, rfl, .refl _⟩
  | some win =>
    by_cases hopened : env.stage win = .opened ∧ f.focused w
    · simp only [hopened]
      exact dispatchBlurEvent_some (Fintype.card ι) { f with focused := update f.focused w false }
        (some w) (h.blur (.refl _)) (by
          rintro t ⟨⟩
          exact ⟨hw, h.rank.lt_card w⟩)
    · simp only [hopened, if_false]
      exact ⟨f.focused, f.keyTarget, rfl, .refl _⟩

end Focus

/-! ## Removing a child -/

/-- What the preparation leaves. -/
structure Prepared [DecidableEq ι] (w c : ι) (f f' : Forest ι) : Prop where
  parent : f'.parent = update f.parent c none
  children : f'.children = f.children
  alive : f'.alive = f.alive
  refCount : f'.refCount = f.refCount
  target : Cleared f.target f'.target
  grabWidget : Cleared f.grabWidget f'.grabWidget
  keyTarget : Cleared f.keyTarget f'.keyTarget
  target_ne : f'.target w ≠ some c
  grabWidget_ne : f'.grabWidget w ≠ some c
  keyTarget_ne : f'.keyTarget w ≠ some c

section Remove

variable [DecidableEq ι]

/-- A cached widget after the child is removed. -/
def clear (a : ι → Option ι) (w c : ι) : ι → Option ι :=
  if a w = some c then update a w none else a

theorem clear_cleared (a : ι → Option ι) (w c : ι) : Cleared a (clear a w c) := by
  rw [clear]
  split
  · exact .update_none a w
  · exact .refl a

theorem clear_ne (a : ι → Option ι) (w c : ι) : clear a w c w ≠ some c := by
  rw [clear]
  split
  · simp
  · assumption

variable [Fintype ι]

/-- The preparation always ends. -/
theorem removeChildPrepare_some (env : WidgetEnv ι) (h : Ranked f rank) (hw : f.alive w)
    (hc : f.alive c) : ∃ f', removeChildPrepare env f w c = some f' ∧ Prepared w c f f' := by
  obtain ⟨focused, keyTarget, hunfocus, hkey⟩ := unfocus_some env h hc
  let f₁ : Forest ι := { f with
    focused := focused
    keyTarget := keyTarget
    target := clear f.target w c
    grabWidget := clear f.grabWidget w c
    grabWidgetCount :=
      if f.grabWidget w = some c then update f.grabWidgetCount w 0 else f.grabWidgetCount }
  have hf₁ : removeChildPrepare env f w c =
      (if keyTarget w = some c then
        (dispatchBlurEvent (Fintype.card ι) f₁ (keyTarget w)).map fun f =>
          { f with keyTarget := update f.keyTarget w none }
      else some f₁).map fun f => { f with parent := update f.parent c none } := by
    rw [removeChildPrepare, if_pos hw, hunfocus]
    simp only [f₁, clear]
    by_cases htarget : f.target w = some c <;> by_cases hgrab : f.grabWidget w = some c <;>
      simp only [htarget, hgrab, if_true, if_false]
  have hprepared : ∀ focused' keyTarget', Cleared keyTarget keyTarget' → keyTarget' w ≠ some c →
      Prepared w c f { f₁ with
        focused := focused', keyTarget := keyTarget', parent := update f.parent c none } :=
    fun focused' keyTarget' hcleared hne =>
      ⟨rfl, rfl, rfl, rfl, clear_cleared _ w c, clear_cleared _ w c, hkey.trans hcleared,
        clear_ne _ w c, clear_ne _ w c, hne⟩
  rw [hf₁]
  by_cases hwc : keyTarget w = some c
  · obtain ⟨focused', keyTarget', hrun, hkey'⟩ := dispatchBlurEvent_some (Fintype.card ι) f₁
      (keyTarget w) ⟨h.rank, h.alive, fun p t ht => h.keyTarget p t (hkey p t ht)⟩ (by
        intro t ht
        have hp : f.parent t = some w := h.keyTarget w t (hkey w t ht)
        exact ⟨(h.alive t w hp).1, h.rank.lt_card t⟩)
    rw [if_pos hwc, hrun]
    exact ⟨_, rfl, hprepared focused' (update keyTarget' w none)
      (hkey'.trans (.update_none _ w)) (by simp)⟩
  · rw [if_neg hwc]
    exact ⟨_, rfl, hprepared focused keyTarget (.refl _) hwc⟩

omit [Fintype ι] in
/-- A prepared child that leaves the array leaves the tree. -/
theorem Prepared.linked (hf : Linked f) (h : Prepared w c f f') (hc : c ∈ f.kids w) :
    Linked { f' with children := update f'.children w (some ((f.kids w).erase c)) } := by
  let f₂ : Forest ι := { f' with children := update f'.children w (some ((f.kids w).erase c)) }
  change Linked f₂
  have hkids : f₂.kids w = (f.kids w).erase c := kids_eq (update_self ..)
  have hkids_ne : ∀ p ≠ w, f₂.kids p = f.kids p := fun p hp => by
    simp only [kids, f₂, update_of_ne hp, h.children]
  have hmem : ∀ x p, x ∈ f₂.kids p ↔ x ∈ f.kids p ∧ x ≠ c := by
    intro x p
    by_cases hp : p = w
    · subst hp
      rw [hkids, (hf.nodup p).mem_erase_iff, and_comm]
    · rw [hkids_ne p hp]
      refine ⟨fun hx => ⟨hx, ?_⟩, And.left⟩
      rintro rfl
      have hpw : some p = some w :=
        ((hf.parent_iff x p).mpr hx).symm.trans ((hf.parent_iff x w).mpr hc)
      exact hp (some.inj hpw)
  have hcached : ∀ {a b : ι → Option ι}, (∀ p t, a p = some t → t ∈ f.kids p) → Cleared a b →
      b w ≠ some c → ∀ p t, b p = some t → t ∈ f₂.kids p := by
    intro a b ha hab hne p t ht
    have htp : t ∈ f.kids p := ha p t (hab p t ht)
    refine (hmem t p).mpr ⟨htp, ?_⟩
    rintro rfl
    have hpw : some p = some w :=
      ((hf.parent_iff t p).mpr htp).symm.trans ((hf.parent_iff t w).mpr hc)
    exact hne (some.inj hpw ▸ ht)
  have hparent : ∀ x p, f₂.parent x = some p ↔ f.parent x = some p ∧ x ≠ c := by
    intro x p
    show f'.parent x = some p ↔ _
    rw [h.parent]
    by_cases hx : x = c
    · subst hx
      simp
    · simp [hx]
  constructor
  · exact fun x p => by rw [hparent, hmem, hf.parent_iff]
  · intro p
    by_cases hp : p = w
    · rw [hp, hkids]
      exact (hf.nodup w).erase c
    · rw [hkids_ne p hp]
      exact hf.nodup p
  · exact hcached hf.target h.target h.target_ne
  · exact hcached hf.grabWidget h.grabWidget h.grabWidget_ne
  · exact hcached hf.keyTarget h.keyTarget h.keyTarget_ne
  · intro x p hx
    have halive : f₂.alive = f.alive := h.alive
    rw [halive]
    exact hf.alive x p ((hmem x p).mp hx).1
  · exact hf.acyclic.mono fun x p hx => ((hparent x p).mp hx).1
  · intro x hx
    have hrefs : f₂.refCount = f.refCount := h.refCount
    have halive : f₂.alive = f.alive := h.alive
    rw [halive] at hx
    rw [hrefs]
    exact hf.refCount x hx

omit [Fintype ι] in
theorem darrayRemove_eq (hf : Linked f) (hc : c ∈ f.kids w) :
    darrayRemove (f.children w) c = (.ok, some ((f.kids w).erase c)) := by
  rw [children_eq hc, darrayRemove]
  rcases DArray.removeEx_spec pointerCompare c (f.kids w) with
    ⟨l, x, r, hl, hx, -, hremove⟩ | ⟨hnone, -, -⟩
  · have hxc : x = c := by simpa [pointerCompare] using hx
    subst hxc
    have hxl : x ∉ l := by
      have hnodup := hf.nodup w
      rw [hl] at hnodup
      exact fun hmem => (nodup_append.mp hnodup).2.2 x hmem x mem_cons_self rfl
    simp only [hremove]
    rw [hl, erase_append_right _ hxl, erase_cons_head]
  · exact absurd (by simp [pointerCompare]) (hnone c hc)

theorem removeChild_some (env : WidgetEnv ι) (hf : Linked f) (hc : c ∈ f.kids w) :
    ∃ f', removeChild env f w c = some (.ok, f') ∧ Linked f' ∧
      f'.children = update f.children w (some ((f.kids w).erase c)) ∧ f'.alive = f.alive := by
  obtain ⟨rank, hrank⟩ := hf.acyclic.exists_rank
  obtain ⟨f', hprepare, h⟩ := removeChildPrepare_some env (hf.ranked hrank) (hf.alive c w hc).2
    (hf.alive c w hc).1
  rw [removeChild, hprepare]
  simp only [map_some, h.children, darrayRemove_eq hf hc]
  refine ⟨_, rfl, ?_, rfl, h.alive⟩
  have hlinked := h.linked hf hc
  rwa [h.children] at hlinked

/-- The widget is a window that is opened and has the focus. -/
def FocusedWindow (env : WidgetEnv ι) (f : Forest ι) (w : ι) : Prop :=
  env.isWindow w ∧ env.stage w = .opened ∧ f.focused w

/-- A call for a widget that has no parent fails, and changes nothing if it is not a window with the
focus. -/
theorem removeChild_orphan (env : WidgetEnv ι) (hf : Linked f) (hw : f.alive w) (hc : f.alive c)
    (hparent : f.parent c = none) (hfocus : ¬ FocusedWindow env f c) :
    ∃ ret, removeChild env f w c = some (ret, f) ∧ ret ≠ .ok := by
  have hnot : ∀ p, c ∉ f.kids p := fun p hp => by
    rw [← hf.parent_iff, hparent] at hp
    cases hp
  obtain ⟨fuel, hfuel⟩ : ∃ fuel, Fintype.card ι = fuel + 1 :=
    Nat.exists_eq_succ_of_ne_zero (Fintype.card_pos_iff.mpr ⟨c⟩).ne'
  have hunfocus : unfocus env f c = some f := by
    rw [unfocus, hfuel, getWindow, if_pos hc]
    by_cases hwin : env.isWindow c
    · simp only [hwin, if_true]
      rw [if_neg fun h => hfocus ⟨hwin, h⟩]
    · simp [hwin, hparent]
  have hprepare : removeChildPrepare env f w c = some f := by
    have htarget : f.target w ≠ some c := fun h => hnot w (hf.target w c h)
    have hgrab : f.grabWidget w ≠ some c := fun h => hnot w (hf.grabWidget w c h)
    have hkey : f.keyTarget w ≠ some c := fun h => hnot w (hf.keyTarget w c h)
    rw [removeChildPrepare, if_pos hw, hunfocus]
    simp only [htarget, hgrab, hkey, if_false, map_some]
    rw [← hparent, update_eq_self]
  rw [removeChild, hprepare, map_some]
  cases hcs : f.children w with
  | none =>
    refine ⟨.badParams, ?_, by simp⟩
    simp only [darrayRemove]
    rw [← hcs, update_eq_self]
  | some cs =>
    have hcw : c ∉ cs := kids_eq hcs ▸ hnot w
    refine ⟨.notFound, ?_, by simp⟩
    rcases DArray.removeEx_spec pointerCompare c cs with
      ⟨l, x, r, hl, hx, -, -⟩ | ⟨-, -, hremove⟩
    · have hxc : x = c := by simpa [pointerCompare] using hx
      rw [hl, hxc] at hcw
      exact absurd (mem_append_right l mem_cons_self) hcw
    · simp only [darrayRemove, hremove]
      rw [← hcs, update_eq_self]

end Remove

/-! ## Adding a child -/

section Add

variable [DecidableEq ι]

/-- The forest with a child more. -/
def added (f : Forest ι) (w c : ι) : Forest ι := { f with
  parent := update f.parent c (some w)
  children := update f.children w (some (f.kids w ++ [c])) }

theorem addChild_orphan (hw : f.alive w) (hc : f.alive c) (hparent : f.parent c = none) :
    addChild f w c = some (.ok, added f w c) := by
  rw [addChild, if_pos ⟨hw, hc⟩, hparent]
  rfl

theorem addChild_parent (hw : f.alive w) (hc : f.alive c) (hparent : f.parent c = some p) :
    addChild f w c = some (.badParams, f) := by
  rw [addChild, if_pos ⟨hw, hc⟩, hparent]

/-- A child that is not above the widget is linked. -/
theorem added_linked (hf : Linked f) (hw : f.alive w) (hc : f.alive c) (hparent : f.parent c = none)
    (habove : ¬ ReflTransGen f.Below w c) : Linked (added f w c) := by
  have hnot : ∀ p, c ∉ f.kids p := fun p hp => by
    rw [← hf.parent_iff, hparent] at hp
    cases hp
  have hkids : (added f w c).kids w = f.kids w ++ [c] := kids_eq (update_self ..)
  have hkids_ne : ∀ p ≠ w, (added f w c).kids p = f.kids p := fun p hp => by
    simp only [kids, added, update_of_ne hp]
  have hmem : ∀ x p, x ∈ (added f w c).kids p ↔ x ∈ f.kids p ∨ (x = c ∧ p = w) := by
    intro x p
    by_cases hp : p = w
    · subst hp
      simp [hkids]
    · simp [hkids_ne p hp, hp]
  have hsub : ∀ x p, x ∈ f.kids p → x ∈ (added f w c).kids p :=
    fun x p hx => (hmem x p).mpr (.inl hx)
  have hadded : ∀ x p, (added f w c).parent x = some p ↔ f.parent x = some p ∨ (x = c ∧ p = w) := by
    intro x p
    by_cases hx : x = c
    · subst hx
      simp [added, hparent, eq_comm]
    · simp [added, hx]
  constructor
  · exact fun x p => by rw [hadded, hmem, hf.parent_iff]
  · intro p
    by_cases hp : p = w
    · rw [hp, hkids, nodup_append_comm]
      exact nodup_cons.mpr ⟨hnot w, hf.nodup w⟩
    · rw [hkids_ne p hp]
      exact hf.nodup p
  · exact fun p t ht => hsub t p (hf.target p t ht)
  · exact fun p t ht => hsub t p (hf.grabWidget p t ht)
  · exact fun p t ht => hsub t p (hf.keyTarget p t ht)
  · intro x p hx
    rcases (hmem x p).mp hx with hx | ⟨rfl, rfl⟩
    · exact hf.alive x p hx
    · exact ⟨hc, hw⟩
  · exact (hf.acyclic.insert habove).mono fun x p hx => (hadded x p).mp hx
  · exact hf.refCount

omit [DecidableEq ι] in
theorem not_above (hw : c ≠ w) (h : ¬ TransGen f.Below w c) : ¬ ReflTransGen f.Below w c := by
  intro hpath
  rcases Relation.reflTransGen_iff_eq_or_transGen.mp hpath with heq | htrans
  · exact hw heq
  · exact h htrans

end Add

/-! ## Moving a child -/

section Restack

theorem set_length_append (a b : List ι) (x y : ι) :
    (a ++ x :: b).set a.length y = a ++ y :: b := by simp

theorem insertIdx_length_append (a b : List ι) (x : ι) :
    (a ++ b).insertIdx a.length x = a ++ x :: b := by
  induction a with
  | nil => rfl
  | cons c a ih => simp [ih]

theorem shiftUp_some (a mid b : List ι) (x : ι) :
    ∃ y, shiftUp a.length (a.length + mid.length) (a ++ mid ++ x :: b) =
      some (a ++ y :: (mid ++ b)) := by
  induction mid using List.reverseRecOn generalizing x b with
  | nil =>
    refine ⟨x, ?_⟩
    cases a with
    | nil => rfl
    | cons c a => simp [shiftUp]
  | append_singleton mid m ih =>
    obtain ⟨y, hy⟩ := ih (m :: b) m
    refine ⟨y, ?_⟩
    have hget : (a ++ (mid ++ [m]) ++ x :: b)[a.length + mid.length]? = some m := by
      simp
    have hset : (a ++ (mid ++ [m]) ++ x :: b).set (a.length + mid.length + 1) m =
        a ++ mid ++ m :: m :: b := by
      have hlen : a.length + mid.length + 1 = (a ++ (mid ++ [m])).length := by
        simp [Nat.add_assoc]
      rw [hlen, set_length_append]
      simp
    rw [length_append, length_singleton, ← Nat.add_assoc, shiftUp,
      if_pos (by omega), hget]
    simp only [hset, hy]
    simp

theorem shiftDown_some (a mid b : List ι) (x : ι) :
    ∃ y, shiftDown mid.length a.length (a ++ x :: (mid ++ b)) = some (a ++ mid ++ y :: b) := by
  induction mid generalizing a x with
  | nil => exact ⟨x, by simp [shiftDown]⟩
  | cons m mid ih =>
    obtain ⟨y, hy⟩ := ih (a ++ [m]) m
    refine ⟨y, ?_⟩
    have hget : (a ++ x :: (m :: mid ++ b))[a.length + 1]? = some m := by
      simp
    have hset : (a ++ x :: (m :: mid ++ b)).set a.length m = a ++ [m] ++ m :: (mid ++ b) := by
      simp
    rw [length_cons, shiftDown, hget]
    simp only [hset]
    rw [length_append, length_singleton] at hy
    rw [hy]
    simp

variable [DecidableEq ι]

/-- A list with an element at another index. -/
def moved (cs : List ι) (c : ι) (index : Nat) : List ι :=
  (cs.erase c).insertIdx (min index (cs.length - 1)) c

theorem moved_perm {cs : List ι} (hc : c ∈ cs) (index : Nat) : (moved cs c index).Perm cs := by
  have hlen : (cs.erase c).length = cs.length - 1 := length_erase_of_mem hc
  refine (perm_insertIdx c (cs.erase c) ?_).trans (perm_cons_erase hc).symm
  rw [hlen]
  exact Nat.min_le_right _ _

/-- The element moves by the loops. -/
theorem shift_some {a b : List ι} (hca : c ∉ a) (index : Nat)
    (hindex : index ≤ a.length + b.length) :
    if index = a.length then moved (a ++ c :: b) c index = a ++ c :: b
    else ∃ cs, (if index < a.length then shiftUp index a.length (a ++ c :: b)
      else shiftDown (index - a.length) a.length (a ++ c :: b)) = some cs ∧
        cs.set index c = moved (a ++ c :: b) c index := by
  have hmoved : moved (a ++ c :: b) c index = (a ++ b).insertIdx index c := by
    rw [moved, erase_append_right _ hca, erase_cons_head, length_append,
      length_cons, Nat.min_eq_left (by omega)]
  rw [hmoved]
  by_cases heq : index = a.length
  · rw [if_pos heq, heq]
    exact insertIdx_length_append a b c
  rw [if_neg heq]
  by_cases hlt : index < a.length
  · obtain ⟨y, hy⟩ := shiftUp_some (a.take index) (a.drop index) b c
    have hlen : (a.take index).length = index := length_take_of_le hlt.le
    have hlen' : index + (a.drop index).length = a.length := by rw [length_drop]; omega
    rw [hlen, hlen', take_append_drop] at hy
    refine ⟨_, by rw [if_pos hlt, hy], ?_⟩
    have hset := set_length_append (a.take index) (a.drop index ++ b) y c
    have hinsert := insertIdx_length_append (a.take index) (a.drop index ++ b) c
    rw [hlen] at hset hinsert
    rw [hset, ← hinsert, ← append_assoc, take_append_drop]
  · obtain ⟨y, hy⟩ := shiftDown_some a (b.take (index - a.length)) (b.drop (index - a.length)) c
    have hlen : (b.take (index - a.length)).length = index - a.length :=
      length_take_of_le (by omega)
    rw [hlen, take_append_drop] at hy
    refine ⟨_, by rw [if_neg hlt, hy], ?_⟩
    have hlen' : (a ++ b.take (index - a.length)).length = index := by
      rw [length_append, hlen]
      omega
    have hset := set_length_append (a ++ b.take (index - a.length)) (b.drop (index - a.length)) y c
    have hinsert :=
      insertIdx_length_append (a ++ b.take (index - a.length)) (b.drop (index - a.length)) c
    rw [hlen'] at hset hinsert
    rw [hset, ← hinsert, append_assoc, take_append_drop]

/-- The child moves to the index, and the other children keep their order. -/
theorem restack_some (hf : Linked f) (hc : c ∈ f.kids p) (index : Nat) :
    restack f c index = some (.ok, { f with
      children := update f.children p (some (moved (f.kids p) c index)) }) := by
  obtain ⟨hcalive, hpalive⟩ := hf.alive c p hc
  rw [restack, if_pos hcalive, (hf.parent_iff c p).mpr hc]
  simp only [hpalive, if_true]
  have hcs : f.children p = some (f.kids p) := children_eq hc
  obtain ⟨a, b, hab⟩ := append_of_mem hc
  have hnodup := hf.nodup p
  rw [hcs, getD_some]
  generalize f.kids p = cs at hab hnodup hcs
  subst hab
  have hca : c ∉ a := fun h => (nodup_append.mp hnodup).2.2 c h c mem_cons_self rfl
  have hfind : (a ++ c :: b).findIdx? (fun iter => iter = c) = some a.length := by
    rw [findIdx?_append, findIdx?_eq_none_iff.mpr]
    · simp [findIdx?_cons]
    · intro x hx
      have hxc : x ≠ c := fun h => hca (h ▸ hx)
      simpa using hxc
  have hlen : (a ++ c :: b).length = a.length + b.length + 1 := by simp [Nat.add_assoc]
  set index' := if (a ++ c :: b).length ≤ index then (a ++ c :: b).length - 1 else index with hindex'
  have hindex : index' = min index (a.length + b.length) := by
    rw [hindex', hlen]
    split <;> omega
  have hmoved : moved (a ++ c :: b) c index' = moved (a ++ c :: b) c index := by
    rw [moved, moved, hindex, hlen]
    simp
  have hshift := shift_some (b := b) hca index' (by rw [hindex]; exact Nat.min_le_right _ _)
  rw [hmoved] at hshift
  simp only [hfind]
  by_cases heq : index' = a.length
  · rw [if_pos heq] at hshift
    rw [if_pos (.inl heq), hshift, ← hcs, update_eq_self]
  · have hone : (a ++ c :: b).length ≠ 1 := by omega
    rw [if_neg heq] at hshift
    obtain ⟨cs, hrun, hset⟩ := hshift
    rw [if_neg (not_or.mpr ⟨heq, hone⟩), hrun, map_some, hset]

theorem restack_orphan (hc : f.alive c) (hparent : f.parent c = none) (index : Nat) :
    restack f c index = some (.badParams, f) := by
  rw [restack, if_pos hc, hparent]

theorem Linked.perm (hf : Linked f) {cs : List ι} (hcs : cs.Perm (f.kids p)) :
    Linked { f with children := update f.children p (some cs) } := by
  let f₂ : Forest ι := { f with children := update f.children p (some cs) }
  change Linked f₂
  have hkids : ∀ q, (f₂.kids q).Perm (f.kids q) := by
    intro q
    by_cases hq : q = p
    · subst hq
      have : f₂.kids q = cs := kids_eq (update_self ..)
      rwa [this]
    · have : f₂.kids q = f.kids q := by simp only [kids, f₂, update_of_ne hq]
      rw [this]
  have hmem : ∀ x q, x ∈ f₂.kids q ↔ x ∈ f.kids q := fun x q => (hkids q).mem_iff
  constructor
  · exact fun x q => by rw [hmem]; exact hf.parent_iff x q
  · exact fun q => (hkids q).nodup_iff.mpr (hf.nodup q)
  · exact fun q t ht => (hmem t q).mpr (hf.target q t ht)
  · exact fun q t ht => (hmem t q).mpr (hf.grabWidget q t ht)
  · exact fun q t ht => (hmem t q).mpr (hf.keyTarget q t ht)
  · exact fun x q hx => hf.alive x q ((hmem x q).mp hx)
  · exact hf.acyclic
  · exact hf.refCount

theorem insertChild_orphan (hf : Linked f) (hw : f.alive w) (hc : f.alive c)
    (hparent : f.parent c = none) (habove : ¬ ReflTransGen f.Below w c) (index : Nat) :
    ∃ f', insertChild f w index c = some (.ok, f') ∧ Linked f' ∧
      f'.kids = update f.kids w ((f.kids w).insertIdx (min index (f.kids w).length) c) := by
  have hlinked : Linked (added f w c) := added_linked hf hw hc hparent habove
  have hkids : (added f w c).kids w = f.kids w ++ [c] := kids_eq (update_self ..)
  have hmem : c ∈ (added f w c).kids w := by
    rw [hkids]
    simp
  have hnot : c ∉ f.kids w := fun h => by
    rw [← hf.parent_iff, hparent] at h
    cases h
  have hmoved : moved ((added f w c).kids w) c index =
      (f.kids w).insertIdx (min index (f.kids w).length) c := by
    rw [hkids, moved, erase_append_right _ hnot, erase_cons_head, append_nil,
      length_append, length_singleton, Nat.add_sub_cancel]
  have hcall : insertChild f w index c = restack (added f w c) c index := by
    rw [insertChild, addChild_orphan hw hc hparent]
  rw [hcall, restack_some hlinked hmem index]
  refine ⟨_, rfl, hlinked.perm (moved_perm hmem index), ?_⟩
  refine kids_update ?_
  rw [hmoved]
  simp only [added, update_idem]

end Restack

end Awtk.Forest
