import Mathlib
import Awtk.Lib.Run
import Awtk.Base.StyleMutable

/-!
# Runs of the mutable styles

The styles are compared with maps from a state and a name to what the getters
read.  `lookups_agree` says when they agree.  A set loses its value in two
kinds of calls.  A name or a state that is too long is cut when it is stored but
not when it is looked up.  The state NULL is looked up as the normal state but
added as the empty one.  Besides, a copy of a style to itself empties it.
-/

namespace Awtk

open Runs Function List Option

/-- A call at one of a family of styles. -/
inductive StyleOp (ι : Type*) where
  | setValue (i : ι) (state : Option Str) (name : Str) (v : StyleValue)
  | removeValue (i : ι) (state name : Option Str)
  | reset (i : ι)
  /-- `style_mutable_copy` from `other` to `i`. -/
  | copy (i other : ι)

/-! ## Maps -/

/-- What a style shows under each state and name. -/
abbrev StyleMap := Str → Str → Option StyleReading

namespace StyleMap

/-- Nothing is set. -/
def empty : StyleMap := fun _ _ => none

/-- One pair gets a value. -/
def set (m : StyleMap) (state name : Str) (r : StyleReading) : StyleMap :=
  fun st n => if st = state ∧ n = name then some r else m st n

/-- One pair loses its value. -/
def removeName (m : StyleMap) (state name : Str) : StyleMap :=
  fun st n => if st = state ∧ n = name then none else m st n

/-- The pairs of one state lose their values. -/
def removeState (m : StyleMap) (state : Str) : StyleMap :=
  fun st n => if st = state then none else m st n

end StyleMap

namespace StyleMutable

variable {ι : Type*} [DecidableEq ι]

/-- What a call does to the styles. -/
def step (tables : StyleTables) (s : ι → StyleMutable) : StyleOp ι → ι → StyleMutable
  | .setValue i state name v => Function.update s i ((s i).setValue tables state name v).2
  | .removeValue i state name => Function.update s i ((s i).removeValue state name).2
  | .reset i => Function.update s i (s i).reset.2
  | .copy i other =>
    let cleared := Function.update s i (s i).reset.2
    Function.update cleared i ((cleared other).visited.foldl (visitAndClone tables) (cleared i))

/-- What the call is to do to the maps.  NULL is the normal state. -/
def spec (tables : StyleTables) (m : ι → StyleMap) : StyleOp ι → ι → StyleMap
  | .setValue i state name v =>
    Function.update m i ((m i).set (state.getD widgetStateNormal) name
      (styleItemSetValue tables name v).reading)
  | .removeValue i none none => Function.update m i StyleMap.empty
  | .removeValue i (some state) none => Function.update m i ((m i).removeState state)
  | .removeValue i state (some name) =>
    Function.update m i ((m i).removeName (state.getD widgetStateNormal) name)
  | .reset i => Function.update m i StyleMap.empty
  | .copy i other => Function.update m i (m other)

/-- The styles and the maps take the same step. -/
def bothStep (tables : StyleTables) (t : (ι → StyleMutable) × (ι → StyleMap)) (op : StyleOp ι) :
    Option ((ι → StyleMutable) × (ι → StyleMap)) :=
  some (step tables t.1 op, spec tables t.2 op)

/-- New styles, and maps without a value. -/
def start : (ι → StyleMutable) × (ι → StyleMap) := (fun _ => create, fun _ => StyleMap.empty)

/-- Every lookup gives what the maps have. -/
def Agrees (t : (ι → StyleMutable) × (ι → StyleMap)) : Prop :=
  ∀ i state name, ((t.1 i).getValue state name).toOption.map StyleValue.reading =
    t.2 i (state.getD widgetStateNormal) name

/-- The state fits, or it is NULL and there is a normal state. -/
def StateFits (s : StyleMutable) : Option Str → Prop
  | some state => state.length ≤ tkNameLen
  | none => (widgetStateStyleFind s.styles none).isSome

/-- The name and the state of a set fit.  A style that is copied to itself has no item. -/
def Fits (s : ι → StyleMutable) : StyleOp ι → Prop
  | .setValue i state name _ => (s i).StateFits state ∧ name.length ≤ tkNameLen
  | .copy i other => i = other → ∀ w ∈ (s i).styles, w.items = []
  | _ => True

end StyleMutable

/-! ## States -/

namespace StyleMutable

variable {tables : StyleTables} {s : StyleMutable} {state name : Str} {w : WidgetStateStyle}
  {f : List StyleItem → List StyleItem}

/-- The states are short and differ, and their items are well formed. -/
structure Wf (tables : StyleTables) (s : StyleMutable) : Prop where
  states : (s.styles.map WidgetStateStyle.state).Nodup
  short : ∀ w ∈ s.styles, w.state.length ≤ tkNameLen
  items : ∀ w ∈ s.styles, ItemsWf tables w.items

/-- What the getters read. -/
def shown (s : StyleMutable) : StyleMap := fun state name =>
  (Keyed.lookup WidgetStateStyle.state state s.styles).bind fun w => shownItem w.items name

theorem getValue_eq_shown (s : StyleMutable) (state : Option Str) (name : Str) :
    (s.getValue state name).toOption.map StyleValue.reading =
      s.shown (state.getD widgetStateNormal) name := by
  rw [getValue, shown, widgetStateStyleFind]
  cases Keyed.lookup WidgetStateStyle.state (state.getD widgetStateNormal) s.styles with
  | none => rfl
  | some w =>
    dsimp only [bind_some]
    split_ifs with hitems
    · rw [hitems]
      rfl
    · rw [styleItemGet, shownItem]
      cases Keyed.lookup StyleItem.name name w.items with
      | none => rfl
      | some item => rfl

theorem wf_create (tables : StyleTables) : Wf tables create where
  states := nodup_nil
  short := fun _ h => nomatch h
  items := fun _ h => nomatch h

theorem Wf.mapItems (h : Wf tables s)
    (hf : ∀ w ∈ s.styles, w.state = state → ItemsWf tables (f w.items)) :
    Wf tables
      ⟨Keyed.update WidgetStateStyle.state state (WidgetStateStyle.mapItems f) s.styles⟩ := by
  refine ⟨?_, ?_, ?_⟩
  · rw [Keyed.map_key_update (WidgetStateStyle.mapItems_state f)]
    exact h.states
  · intro w hw
    obtain hw | ⟨old, hold, -, rfl⟩ := Keyed.mem_update hw
    · exact h.short w hw
    · exact h.short old hold
  · intro w hw
    obtain hw | ⟨old, hold, hstate, rfl⟩ := Keyed.mem_update hw
    · exact h.items w hw
    · exact hf old hold hstate

theorem shown_mapItems (hw : Keyed.lookup WidgetStateStyle.state state s.styles = some w)
    (st n : Str) :
    shown ⟨Keyed.update WidgetStateStyle.state state (WidgetStateStyle.mapItems f) s.styles⟩ st n =
      if st = state then shownItem (f w.items) n else s.shown st n := by
  rw [shown, Keyed.lookup_update (WidgetStateStyle.mapItems_state f)]
  split_ifs with hst
  · rw [hw]
    rfl
  · rfl

theorem shown_eq_of_lookup (hw : Keyed.lookup WidgetStateStyle.state state s.styles = some w)
    (n : Str) : s.shown state n = shownItem w.items n := by
  rw [shown, hw]
  rfl

theorem shown_eq_none (hw : Keyed.lookup WidgetStateStyle.state state s.styles = none)
    (n : Str) : s.shown state n = none := by
  rw [shown, hw]
  rfl

/-! ## Set -/

/-- The states a set looks through. -/
def added (s : StyleMutable) (state : Option Str) : StyleMutable :=
  ⟨if (widgetStateStyleFind s.styles state).isNone then widgetStateStyleAdd s.styles state
    else s.styles⟩

theorem added_of_find {state : Option Str} (h : widgetStateStyleFind s.styles state = some w) :
    s.added state = s := by
  rw [added, h]
  rfl

theorem added_of_not_find {state : Option Str} (h : widgetStateStyleFind s.styles state = none) :
    s.added state = ⟨s.styles ++ [⟨copiedName state, []⟩]⟩ := by
  rw [added, h]
  rfl

theorem Wf.of_find_added (h : Wf tables s) {state : Option Str}
    (hw : widgetStateStyleFind (s.added state).styles state = some w) :
    Wf tables (s.added state) ∧ (s.added state).shown = s.shown := by
  cases hfind : widgetStateStyleFind s.styles state with
  | some old =>
    rw [added_of_find hfind]
    exact ⟨h, rfl⟩
  | none =>
    rw [added_of_not_find hfind, widgetStateStyleFind, Keyed.lookup_concat,
      ← widgetStateStyleFind, hfind, none_or] at hw
    split_ifs at hw with hstate
    rw [added_of_not_find hfind]
    have hnew : Keyed.lookup WidgetStateStyle.state (copiedName state) s.styles = none := by
      rw [show copiedName state = state.getD widgetStateNormal from hstate]
      exact hfind
    refine ⟨⟨Keyed.nodup_concat h.states hnew, ?_, ?_⟩, ?_⟩
    · intro v hv
      obtain hv | hv := mem_append.mp hv
      · exact h.short v hv
      · rw [mem_singleton.mp hv]
        exact length_copiedName state
    · intro v hv
      obtain hv | hv := mem_append.mp hv
      · exact h.items v hv
      · rw [mem_singleton.mp hv]
        exact ItemsWf.nil tables
    · funext st n
      rw [shown, Keyed.lookup_concat, shown]
      cases Keyed.lookup WidgetStateStyle.state st s.styles with
      | some w => rfl
      | none =>
        rw [none_or]
        split_ifs
        · rfl
        · rfl

theorem widgetStateNormal_ne_nil : widgetStateNormal ≠ [] := by decide +kernel

theorem Wf.find_added_isSome (h : Wf tables s) (state : Option Str) :
    (widgetStateStyleFind (s.added state).styles state).isSome ↔ s.StateFits state := by
  cases hfind : widgetStateStyleFind s.styles state with
  | some old =>
    rw [added_of_find hfind, hfind]
    cases state with
    | none =>
      rw [StateFits, hfind]
    | some state =>
      obtain ⟨hold, hstate⟩ := Keyed.mem_of_lookup hfind
      refine iff_of_true rfl ?_
      rw [StateFits, ← show old.state = state from hstate]
      exact h.short old hold
  | none =>
    rw [added_of_not_find hfind, widgetStateStyleFind, Keyed.lookup_concat,
      ← widgetStateStyleFind, hfind, none_or]
    cases state with
    | none =>
      rw [StateFits, hfind, if_neg fun h => widgetStateNormal_ne_nil h.symm]
    | some state =>
      rw [StateFits, ← copiedName_eq_iff]
      split_ifs with hstate
      · exact iff_of_true rfl hstate
      · exact iff_of_false Bool.false_ne_true hstate

theorem setValue_eq (tables : StyleTables) (s : StyleMutable) (state : Option Str) (name : Str)
    (v : StyleValue) : (s.setValue tables state name v).2 =
      match widgetStateStyleFind (s.added state).styles state with
      | none => s.added state
      | some w => ⟨Keyed.update WidgetStateStyle.state w.state
          (WidgetStateStyle.mapItems fun _ => itemsSet tables w.items name v)
          (s.added state).styles⟩ := by
  rw [setValue, added]
  dsimp only
  cases widgetStateStyleFind (if (widgetStateStyleFind s.styles state).isNone = true then
      widgetStateStyleAdd s.styles state else s.styles) state with
  | none => rfl
  | some w => rfl

theorem Wf.setValue (h : Wf tables s) {state : Option Str} (hstate : s.StateFits state)
    (hname : name.length ≤ tkNameLen) (v : StyleValue) :
    Wf tables (s.setValue tables state name v).2 ∧
      (s.setValue tables state name v).2.shown = s.shown.set (state.getD widgetStateNormal) name
        (styleItemSetValue tables name v).reading := by
  obtain ⟨w, hw⟩ := isSome_iff_exists.mp ((h.find_added_isSome state).mpr hstate)
  obtain ⟨hadded, hshown⟩ := h.of_find_added hw
  obtain ⟨hmem, hkey⟩ := Keyed.mem_of_lookup hw
  rw [widgetStateStyleFind, ← hkey] at hw
  rw [setValue_eq, widgetStateStyleFind, ← hkey, hw]
  refine ⟨hadded.mapItems fun _ _ _ => (hadded.items w hmem).set hname v, ?_⟩
  funext st n
  rw [shown_mapItems hw, shownItem_itemsSet hname, StyleMap.set, ← hshown]
  by_cases hst : st = w.state
  · rw [if_pos hst, hst, shown_eq_of_lookup hw]
    simp
  · rw [if_neg hst, if_neg fun h => hst h.1]

theorem Wf.shown_setValue_of_not_fits (h : Wf tables s) {state : Option Str}
    (hfits : ¬ (s.StateFits state ∧ name.length ≤ tkNameLen)) (v : StyleValue) :
    (s.setValue tables state name v).2.shown (state.getD widgetStateNormal) name = none := by
  rw [setValue_eq]
  cases hw : widgetStateStyleFind (s.added state).styles state with
  | none => exact shown_eq_none hw name
  | some w =>
    have hstate : s.StateFits state := by
      rw [← h.find_added_isSome, hw]
      rfl
    obtain ⟨hadded, -⟩ := h.of_find_added hw
    obtain ⟨hmem, hkey⟩ := Keyed.mem_of_lookup hw
    rw [widgetStateStyleFind, ← hkey] at hw
    rw [← hkey]
    dsimp only
    rw [shown_mapItems hw, if_pos rfl]
    exact (hadded.items w hmem).shownItem_itemsSet_long (fun hname => hfits ⟨hstate, hname⟩) v

/-! ## Remove -/

theorem Wf.removeName (h : Wf tables s) (state : Option Str) (name : Str) :
    Wf tables (s.removeValue state (some name)).2 ∧
      (s.removeValue state (some name)).2.shown =
        s.shown.removeName (state.getD widgetStateNormal) name := by
  have heq : s.removeValue state (some name) =
      match widgetStateStyleFind s.styles state with
      | none => (.notFound, s)
      | some current =>
        if (Keyed.lookup StyleItem.name name current.items).isSome then
          (.ok, ⟨Keyed.update WidgetStateStyle.state current.state
            (WidgetStateStyle.mapItems (Keyed.remove StyleItem.name name)) s.styles⟩)
        else (.notFound, s) := by
    cases state with
    | none => rfl
    | some state => rfl
  -- A pair without a value stays without one.
  have hsame : s.shown (state.getD widgetStateNormal) name = none →
      s.shown = s.shown.removeName (state.getD widgetStateNormal) name := by
    intro hnone
    funext st n
    rw [StyleMap.removeName]
    split_ifs with hpair
    · rw [hpair.1, hpair.2, hnone]
    · rfl
  rw [heq]
  cases hw : widgetStateStyleFind s.styles state with
  | none => exact ⟨h, hsame (shown_eq_none hw name)⟩
  | some w =>
    obtain ⟨hmem, hkey⟩ := Keyed.mem_of_lookup hw
    rw [widgetStateStyleFind, ← hkey] at hw
    rw [← hkey] at hsame ⊢
    dsimp only
    split_ifs with hitem
    · refine ⟨h.mapItems fun w hw _ => (h.items w hw).remove name, ?_⟩
      funext st n
      rw [shown_mapItems hw, (h.items w hmem).shownItem_remove, StyleMap.removeName]
      by_cases hst : st = w.state
      · rw [if_pos hst, hst, shown_eq_of_lookup hw]
        simp
      · rw [if_neg hst, if_neg fun h => hst h.1]
    · refine ⟨h, hsame ?_⟩
      rw [shown_eq_of_lookup hw, shownItem, not_isSome_iff_eq_none.mp hitem]
      rfl

theorem Wf.removeState (h : Wf tables s) (state : Str) :
    Wf tables (s.removeValue (some state) none).2 ∧
      (s.removeValue (some state) none).2.shown = s.shown.removeState state := by
  rw [removeValue]
  split_ifs with hfind
  · have hsub := Keyed.remove_sublist WidgetStateStyle.state state s.styles
    refine ⟨⟨h.states.sublist (hsub.map _), fun w hw => h.short w (hsub.subset hw),
      fun w hw => h.items w (hsub.subset hw)⟩, ?_⟩
    funext st n
    rw [shown, Keyed.lookup_remove h.states, StyleMap.removeState]
    split_ifs
    · rfl
    · rfl
  · refine ⟨h, ?_⟩
    funext st n
    rw [StyleMap.removeState]
    split_ifs with hst
    · rw [hst, shown_eq_none (not_isSome_iff_eq_none.mp hfind)]
    · rfl

/-! ## Copy -/

theorem Wf.shown_of_mem (h : Wf tables s) (hw : w ∈ s.styles) {item : StyleItem}
    (hitem : item ∈ w.items) : s.shown w.state item.name = some item.value.reading := by
  rw [shown_eq_of_lookup (Keyed.lookup_of_mem h.states hw), shownItem,
    Keyed.lookup_of_mem (h.items w hw).names hitem]
  rfl

theorem mem_of_shown {r : StyleReading} (h : s.shown state name = some r) :
    ∃ w ∈ s.styles, w.state = state ∧ ∃ item ∈ w.items, item.name = name := by
  obtain ⟨w, hw, hr⟩ := bind_eq_some_iff.mp h
  obtain ⟨item, hitem, -⟩ := map_eq_some_iff.mp hr
  obtain ⟨hmem, hstate⟩ := Keyed.mem_of_lookup hw
  obtain ⟨hmem', hname⟩ := Keyed.mem_of_lookup hitem
  exact ⟨w, hmem, hstate, item, hmem', hname⟩

theorem Wf.foldl_visitAndClone (m : StyleMap) : ∀ {l : List (Str × Str × StyleValue)}
    {s : StyleMutable}, Wf tables s →
      (∀ e ∈ l, e.1.length ≤ tkNameLen ∧ e.2.1.length ≤ tkNameLen ∧
        m e.1 e.2.1 = some (styleItemSetValue tables e.2.1 e.2.2).reading) →
      Wf tables (l.foldl (visitAndClone tables) s) ∧ ∀ st n,
        (l.foldl (visitAndClone tables) s).shown st n = m st n ∨
          ((l.foldl (visitAndClone tables) s).shown st n = s.shown st n ∧
            ∀ e ∈ l, ¬ (e.1 = st ∧ e.2.1 = n))
  | [], _, h, _ => ⟨h, fun _ _ => .inr ⟨rfl, fun _ he => nomatch he⟩⟩
  | e :: l, s, h, hl => by
    obtain ⟨hstate, hname, hm⟩ := hl e mem_cons_self
    obtain ⟨hset, hshown⟩ := h.setValue (show s.StateFits (some e.1) from hstate) hname e.2.2
    obtain ⟨hend, hrest⟩ := hset.foldl_visitAndClone m fun e he =>
      hl e (mem_cons_of_mem _ he)
    refine ⟨hend, fun st n => ?_⟩
    obtain heq | ⟨heq, hnot⟩ := hrest st n
    · exact .inl heq
    · rw [hshown, StyleMap.set] at heq
      split_ifs at heq with hpair
      · obtain ⟨rfl, rfl⟩ := hpair
        exact .inl (heq.trans hm.symm)
      · refine .inr ⟨heq, fun e' he' => ?_⟩
        rcases mem_cons.mp he' with rfl | he'
        · exact fun h => hpair ⟨h.1.symm, h.2.symm⟩
        · exact hnot e' he'

theorem mem_visited {e : Str × Str × StyleValue} :
    e ∈ s.visited ↔ ∃ w ∈ s.styles, ∃ item ∈ w.items, (w.state, item.name, item.value) = e := by
  simp [visited]

/-- A copy shows what the other style shows. -/
theorem Wf.copy (h : Wf tables s) :
    Wf tables (s.visited.foldl (visitAndClone tables) create) ∧
      (s.visited.foldl (visitAndClone tables) create).shown = s.shown := by
  have hentries : ∀ e ∈ s.visited, e.1.length ≤ tkNameLen ∧ e.2.1.length ≤ tkNameLen ∧
      s.shown e.1 e.2.1 = some (styleItemSetValue tables e.2.1 e.2.2).reading := by
    intro e he
    obtain ⟨w, hw, item, hitem, rfl⟩ := mem_visited.mp he
    refine ⟨h.short w hw, (h.items w hw).short item hitem, ?_⟩
    rw [h.shown_of_mem hw hitem, (h.items w hw).settled item hitem]
  obtain ⟨hend, hshown⟩ := (wf_create tables).foldl_visitAndClone s.shown hentries
  refine ⟨hend, ?_⟩
  funext st n
  obtain heq | ⟨heq, hnot⟩ := hshown st n
  · exact heq
  · rw [heq]
    cases hr : s.shown st n with
    | none => rfl
    | some r =>
      obtain ⟨w, hw, hstate, item, hitem, hname⟩ := mem_of_shown hr
      exact absurd ⟨hstate, hname⟩ (hnot _ (mem_visited.mpr ⟨w, hw, item, hitem, rfl⟩))

theorem Wf.shown_eq_empty (h : Wf tables s) :
    s.shown = StyleMap.empty ↔ ∀ w ∈ s.styles, w.items = [] := by
  constructor
  · intro hempty w hw
    cases hitems : w.items with
    | nil => rfl
    | cons item items =>
      have hsome := h.shown_of_mem hw (hitems ▸ mem_cons_self : item ∈ w.items)
      rw [hempty] at hsome
      cases hsome
  · intro hempty
    funext st n
    cases hr : s.shown st n with
    | none => rfl
    | some r =>
      obtain ⟨w, hw, -, item, hitem, -⟩ := mem_of_shown hr
      rw [hempty w hw] at hitem
      cases hitem

/-! ## Runs -/

section Runs

variable {ι : Type*} [DecidableEq ι] {t : ι → StyleMutable} {m : ι → StyleMap}

omit [DecidableEq ι] in
theorem agrees_iff : Agrees (t, m) ↔ ∀ i, (t i).shown = m i := by
  constructor
  · intro h i
    funext state name
    exact (getValue_eq_shown (t i) (some state) name).symm.trans (h i (some state) name)
  · intro h i state name
    rw [getValue_eq_shown, h]

theorem agrees_update (h : ∀ i, (t i).shown = m i) (i : ι) (s : StyleMutable) (map : StyleMap) :
    Agrees (Function.update t i s, Function.update m i map) ↔ s.shown = map := by
  rw [agrees_iff]
  constructor
  · intro hall
    have hi := hall i
    rwa [update_self, update_self] at hi
  · intro hs j
    by_cases hj : j = i
    · subst hj
      rw [update_self, update_self, hs]
    · rw [update_of_ne hj, update_of_ne hj, h j]

theorem wf_update (h : ∀ i, Wf tables (t i)) (i : ι) (hs : Wf tables s) (j : ι) :
    Wf tables (Function.update t i s j) := by
  by_cases hj : j = i
  · subst hj
    rwa [update_self]
  · rw [update_of_ne hj]
    exact h j

/-- A call keeps the agreement exactly if it fits. -/
theorem step_agrees (h : ∀ i, Wf tables (t i)) (hm : ∀ i, (t i).shown = m i) (op : StyleOp ι) :
    (Agrees (step tables t op, spec tables m op) ↔ Fits t op) ∧
      (Fits t op → ∀ i, Wf tables (step tables t op i)) := by
  cases op with
  | setValue i state name v =>
    refine ⟨?_, fun hfits => wf_update h i ((h i).setValue hfits.1 hfits.2 v).1⟩
    rw [step, spec, agrees_update hm, ← hm i]
    constructor
    · intro hset
      by_contra hfits
      have hnone := (h i).shown_setValue_of_not_fits hfits v
      rw [hset, StyleMap.set, if_pos ⟨rfl, rfl⟩] at hnone
      cases hnone
    · intro hfits
      exact ((h i).setValue hfits.1 hfits.2 v).2
  | removeValue i state name =>
    cases name with
    | some name =>
      have hspec : spec tables m (.removeValue i state (some name)) =
          Function.update m i ((m i).removeName (state.getD widgetStateNormal) name) := by
        cases state with
        | none => rfl
        | some state => rfl
      have hremove := (h i).removeName state name
      rw [step, hspec, agrees_update hm, ← hm i]
      exact ⟨iff_of_true hremove.2 trivial, fun _ => wf_update h i hremove.1⟩
    | none =>
      cases state with
      | some state =>
        have hremove := (h i).removeState state
        rw [step, spec, agrees_update hm, ← hm i]
        exact ⟨iff_of_true hremove.2 trivial, fun _ => wf_update h i hremove.1⟩
      | none =>
        rw [step, spec, agrees_update hm]
        exact ⟨iff_of_true rfl trivial, fun _ => wf_update h i (wf_create tables)⟩
  | reset i =>
    rw [step, spec, agrees_update hm]
    exact ⟨iff_of_true rfl trivial, fun _ => wf_update h i (wf_create tables)⟩
  | copy i other =>
    have hstep : step tables t (.copy i other) = Function.update t i
        ((Function.update t i create other).visited.foldl (visitAndClone tables) create) := by
      rw [step, update_self, update_idem]
      rfl
    rw [hstep, spec, agrees_update hm, ← hm other]
    by_cases hself : i = other
    · subst hself
      rw [update_self]
      refine ⟨?_, fun _ => wf_update h i (wf_create tables)⟩
      rw [Fits, ← (h i).shown_eq_empty]
      constructor
      · intro hempty _
        exact hempty.symm
      · intro hempty
        exact (hempty rfl).symm
    · rw [update_of_ne fun h => hself h.symm]
      have hcopy := (h other).copy
      exact ⟨iff_of_true hcopy.2 fun h => absurd h hself, fun _ => wf_update h i hcopy.1⟩

/-- Tables without an entry. -/
def noTables : StyleTables where
  imageDrawTypeFind _ := none
  alignHTypeFind _ := none
  alignVTypeFind _ := none
  gradientOfStr _ := none
  colorParse _ := 0

end Runs

end StyleMutable

end Awtk
