import Mathlib
import Awtk.Lib.HoleSort
import Awtk.Lib.InPlace
import Awtk.Lib.OneHit
import Awtk.Tkc.NamedValue

/-!
# Default objects

`object_default_t` keeps named values in an array that is sorted by the comparison of names in force.  A
plain store keeps them in no order.  Each call of the object does what it does on the store as long as the
array is strictly sorted, and keeps it so.  The exception is a switch to names without case, after which
two properties can have equal names (`switch_strict_iff`).
-/

namespace Awtk

open List Option

/-! ## The code -/

/-- `object_default_t`.  The type of a property is not kept. -/
structure ObjectDefault (V : Type) where
  props : List (NamedValue V)
  nameCaseInsensitive : Bool

/-- A `tk_visit_t` that does not write to what it visits. -/
abbrev VisitProp (σ V : Type) := σ → NamedValue V → Ret × σ

/-- `darray_remove_all`, of the pointers that are NULL. -/
def removeNulls {α : Type} (elms : List (Option α)) : List α :=
  let (elms, k) := InPlace.compact Option.isSome elms.length elms 0 0
  (elms.take k).reduceOption

/-- `darray_sort`.  The fuel is enough for every array. -/
def darraySort {α : Type} (cmp : α → α → Int) (elms : List α) : List α :=
  match elms with
  | [] => []
  | x :: _ =>
    if 1 < elms.length then
      match HoleSort.quickSort cmp elms.length (fun i => elms.getD i x) 0 (elms.length - 1) with
      | some sorted => (List.range elms.length).map sorted
      | none => elms
    else elms

namespace ObjectDefault

section Code

variable {V σ : Type} (o : ObjectDefault V)

def create : ObjectDefault V := ⟨[], false⟩

/-- `object_default_get_cmp_by_name`, on the names. -/
def cmpByName : Name → Name → Int := NamedValue.comparison o.nameCaseInsensitive

/-- `object_default_get_cmp`. -/
def cmp (a b : NamedValue V) : Int := o.cmpByName a.name b.name

def findPropIndexByName (name : Name) : Option Nat :=
  match DArray.bsearchIndexEx o.cmpByName name (o.props.map NamedValue.name) with
  | .inl index => some index
  | .inr _ => none

def findPropByName (name : Name) : Option (NamedValue V) :=
  (o.findPropIndexByName name).bind fun index => o.props[index]?

def clearProps : ObjectDefault V := { o with props := [] }

def removeProp (name : Name) : Ret × ObjectDefault V :=
  match o.findPropIndexByName name with
  | some index => (.ok, { o with props := o.props.eraseIdx index })
  | none => (.notFound, o)

def setProp (name : Name) (v : V) : Ret × ObjectDefault V :=
  match o.findPropIndexByName name with
  | some index =>
    match o.props[index]? with
    | some nv => (.ok, { o with props := o.props.set index { nv with value := v } })
    | none => (.fail, o)
  | none => (.ok, { o with props := DArray.sortedInsert o.cmp ⟨name, v⟩ false o.props })

def getProp (name : Name) : Ret × Option V :=
  if 0 < o.props.length then
    match o.findPropByName name with
    | some nv => (.ok, some nv.value)
    | none => (.notFound, none)
  else (.notFound, none)

/-- The loop of `object_default_foreach_prop`: what it returns, the properties that it visits, and the
pointers after it. -/
def visitProps (onProp : VisitProp σ V) :
    σ → List (NamedValue V) → Ret × List (NamedValue V) × List (Option (NamedValue V))
  | _, [] => (.ok, [], [])
  | ctx, iter :: rest =>
    let (ret, ctx') := onProp ctx iter
    if ret = .remove then
      let (ret, visited, elms) := visitProps onProp ctx' rest
      (ret, iter :: visited, none :: elms)
    else if DArray.goesOn ret then
      let (ret, visited, elms) := visitProps onProp ctx' rest
      (ret, iter :: visited, some iter :: elms)
    else (ret, [iter], (iter :: rest).map some)

/-- `object_default_foreach_prop`, with the properties that it visits. -/
def foreachProp (onProp : VisitProp σ V) (ctx : σ) : (Ret × List (NamedValue V)) × ObjectDefault V :=
  if 0 < o.props.length then
    let (ret, visited, elms) := visitProps onProp ctx o.props
    let hasRemoved := elms.any Option.isNone
    ((ret, visited), if hasRemoved then { o with props := removeNulls elms } else o)
  else ((.ok, []), o)

def setNameCaseInsensitive (nameCaseInsensitive : Bool) : ObjectDefault V :=
  if o.nameCaseInsensitive ≠ nameCaseInsensitive then
    let o := { o with nameCaseInsensitive }
    { o with props := darraySort o.cmp o.props }
  else o

end Code

/-! ## Plain stores -/

/-- Properties in no order, and how their names are compared. -/
structure Store (V : Type) where
  props : List (NamedValue V)
  caseInsensitive : Bool

/-- The property has the name. -/
def hits {V : Type} (ci : Bool) (name : Name) (p : NamedValue V) : Bool := NamedValue.Same ci p.name name

namespace Store

variable {V σ : Type} (s : Store V)

def empty : Store V := ⟨[], false⟩

def get (name : Name) : Ret × Option V :=
  match s.props.find? (hits s.caseInsensitive name) with
  | some p => (.ok, some p.value)
  | none => (.notFound, none)

/-- A property with the name is changed, or a new one is added. -/
def set (name : Name) (v : V) : Ret × Store V :=
  if s.props.any (hits s.caseInsensitive name) then
    let put (p : NamedValue V) : NamedValue V := { p with value := v }
    (.ok, { s with props := s.props.map fun p => if hits s.caseInsensitive name p = true then put p else p })
  else (.ok, { s with props := ⟨name, v⟩ :: s.props })

def remove (name : Name) : Ret × Store V :=
  if s.props.any (hits s.caseInsensitive name) then
    (.ok, { s with props := s.props.filter fun p => !hits s.caseInsensitive name p })
  else (.notFound, s)

def clear : Store V := { s with props := [] }

/-- The properties in the order of their names. -/
def inOrder : List (NamedValue V) :=
  s.props.mergeSort fun p q => NamedValue.comparison s.caseInsensitive p.name q.name ≤ 0

/-- Visit properties: what is returned, those that are visited, and those that are left. -/
def visit (onProp : VisitProp σ V) :
    σ → List (NamedValue V) → Ret × List (NamedValue V) × List (NamedValue V)
  | _, [] => (.ok, [], [])
  | ctx, p :: rest =>
    let (ret, ctx') := onProp ctx p
    if ret = .remove then
      let (ret, visited, left) := visit onProp ctx' rest
      (ret, p :: visited, left)
    else if DArray.goesOn ret then
      let (ret, visited, left) := visit onProp ctx' rest
      (ret, p :: visited, p :: left)
    else (ret, [p], p :: rest)

def foreach (onProp : VisitProp σ V) (ctx : σ) : (Ret × List (NamedValue V)) × Store V :=
  let (ret, visited, left) := visit onProp ctx s.inOrder
  ((ret, visited), { s with props := left })

/-- How names are compared is switched. -/
def switch (caseInsensitive : Bool) : Store V := { s with caseInsensitive }

end Store

/-! ## Objects that show a store -/

section Shows

variable {V σ : Type} {o : ObjectDefault V} {s : Store V} {name : Name}

/-- The array is sorted, and no two names are equal. -/
def Strict (o : ObjectDefault V) : Prop := o.props.Pairwise fun p q => o.cmp p q < 0

/-- The object has the properties of the store, in the order of their names. -/
structure Shows (o : ObjectDefault V) (s : Store V) : Prop where
  perm : o.props.Perm s.props
  mode : o.nameCaseInsensitive = s.caseInsensitive
  strict : o.Strict

theorem cmp_isOrder (o : ObjectDefault V) : DArray.IsOrder o.cmp :=
  ⟨fun a b => (NamedValue.comparison_isOrder _).swap a.name b.name,
    fun a b c => (NamedValue.comparison_isOrder _).trans a.name b.name c.name⟩

theorem Strict.sorted (h : o.Strict) : DArray.Sorted o.cmp o.props := h.imp Int.le_of_lt

theorem Strict.sorted_names (h : o.Strict) :
    DArray.Sorted o.cmpByName (o.props.map NamedValue.name) :=
  pairwise_map.mpr h.sorted

/-- A name is that of one property at most. -/
theorem Strict.once (h : o.Strict) (name : Name) :
    OneHit.Once (hits o.nameCaseInsensitive name) o.props := by
  refine h.imp fun {p q} hlt hboth => ?_
  have hp : NamedValue.Same o.nameCaseInsensitive p.name name := of_decide_eq_true hboth.1
  have hq : NamedValue.Same o.nameCaseInsensitive q.name name := of_decide_eq_true hboth.2
  have hzero := (NamedValue.comparison_eq_zero _ _ _).mpr (hp.trans (NamedValue.Same.comm.mp hq))
  rw [cmp, cmpByName, hzero] at hlt
  exact absurd hlt (Int.lt_irrefl 0)

theorem Strict.find_cases (h : o.Strict) (name : Name) :
    (∃ i p, o.findPropIndexByName name = some i ∧ o.props[i]? = some p ∧
        hits o.nameCaseInsensitive name p = true) ∨
      (o.findPropIndexByName name = none ∧ ∀ p ∈ o.props, hits o.nameCaseInsensitive name p = false) := by
  have horder := NamedValue.comparison_isOrder o.nameCaseInsensitive
  rw [findPropIndexByName]
  rcases DArray.bsearchIndexEx_spec horder h.sorted_names name with ⟨i, hi, hfound, heq⟩ | ⟨i, hnone, hwindow⟩
  · rw [cmpByName, hfound]
    have hi' : i < o.props.length := by rwa [length_map] at hi
    refine .inl ⟨i, o.props[i], rfl, getElem?_eq_getElem hi', decide_eq_true ?_⟩
    rw [← NamedValue.comparison_eq_zero, ← heq, getElem_map]
  · rw [cmpByName, hnone]
    refine .inr ⟨rfl, fun p hp => decide_eq_false fun hsame => ?_⟩
    exact hwindow.ne (List.mem_map_of_mem hp) ((NamedValue.comparison_eq_zero _ _ _).mpr hsame)

theorem Shows.any_eq (h : Shows o s) (name : Name) :
    s.props.any (hits s.caseInsensitive name) = o.props.any (hits o.nameCaseInsensitive name) := by
  rw [h.mode]
  exact h.perm.symm.any_eq

theorem Shows.getProp (h : Shows o s) (name : Name) : o.getProp name = s.get name := by
  have hfind : s.props.find? (hits s.caseInsensitive name) =
      o.props.find? (hits o.nameCaseInsensitive name) := by
    rw [← h.mode]
    exact ((h.strict.once name).find?_perm h.perm).symm
  rw [ObjectDefault.getProp, Store.get, hfind, findPropByName]
  rcases h.strict.find_cases name with ⟨i, p, hi, hp, hhit⟩ | ⟨hi, hnone⟩
  · have hlt := (List.getElem?_eq_some_iff.mp hp).1
    rw [hi, bind_some, hp, (h.strict.once name).find? hp hhit, if_pos (by omega)]
  · rw [hi, OneHit.find?_none hnone, bind_none, ite_self]

theorem Shows.removeProp (h : Shows o s) (name : Name) :
    (o.removeProp name).1 = (s.remove name).1 ∧ Shows (o.removeProp name).2 (s.remove name).2 := by
  have hany := h.any_eq name
  rw [ObjectDefault.removeProp, Store.remove]
  rcases h.strict.find_cases name with ⟨i, p, hi, hp, hhit⟩ | ⟨hi, hnone⟩
  · have hyes : s.props.any (hits s.caseInsensitive name) = true := by
      rw [hany]
      exact List.any_eq_true.mpr ⟨p, mem_of_getElem? hp, hhit⟩
    rw [hi, if_pos hyes]
    refine ⟨rfl, ⟨?_, h.mode, ?_⟩⟩
    · dsimp only
      rw [(h.strict.once name).eraseIdx hp hhit, h.mode]
      exact h.perm.filter _
    · exact h.strict.sublist (eraseIdx_sublist _ _)
  · have hno : s.props.any (hits s.caseInsensitive name) = false := by
      rw [hany]
      exact List.any_eq_false.mpr fun p hp => Bool.eq_false_iff.mp (hnone p hp)
    rw [hi, if_neg (Bool.eq_false_iff.mp hno)]
    exact ⟨rfl, h⟩

/-- A property is set. -/
theorem Shows.setProp (h : Shows o s) (name : Name) (v : V) :
    (o.setProp name v).1 = (s.set name v).1 ∧ Shows (o.setProp name v).2 (s.set name v).2 := by
  have hany := h.any_eq name
  rw [ObjectDefault.setProp, Store.set]
  rcases h.strict.find_cases name with ⟨i, p, hi, hp, hhit⟩ | ⟨hi, hnone⟩
  · have hyes : s.props.any (hits s.caseInsensitive name) = true := by
      rw [hany]
      exact List.any_eq_true.mpr ⟨p, mem_of_getElem? hp, hhit⟩
    rw [hi, if_pos hyes]
    simp only [hp]
    have hset := (h.strict.once name).set hp hhit fun p => { p with value := v }
    refine ⟨trivial, ⟨?_, h.mode, ?_⟩⟩
    · rw [hset, ← h.mode]
      exact h.perm.map _
    · -- the names are where they were
      have hnames : (o.props.map fun p => if hits o.nameCaseInsensitive name p = true then
          { p with value := v } else p).map NamedValue.name = o.props.map NamedValue.name := by
        rw [List.map_map]
        refine map_congr_left fun p hp => ?_
        rw [Function.comp_apply]
        split <;> rfl
      have hstrict : (o.props.map NamedValue.name).Pairwise fun a b => o.cmpByName a b < 0 :=
        pairwise_map.mpr h.strict
      rw [Strict, hset]
      rw [← hnames, pairwise_map] at hstrict
      exact hstrict
  · have hno : s.props.any (hits s.caseInsensitive name) = false := by
      rw [hany]
      exact List.any_eq_false.mpr fun p hp => Bool.eq_false_iff.mp (hnone p hp)
    rw [hi, if_neg (Bool.eq_false_iff.mp hno)]
    obtain ⟨hsorted, hspec⟩ := DArray.sortedInsert_spec o.cmp_isOrder h.strict.sorted ⟨name, v⟩ false
    rcases hspec with ⟨hfalse, -⟩ | ⟨-, l, r, hprops, hys⟩
    · cases hfalse
    · have hperm : (DArray.sortedInsert o.cmp ⟨name, v⟩ false o.props).Perm (⟨name, v⟩ :: o.props) := by
        rw [hys, hprops]
        exact perm_middle
      refine ⟨rfl, ⟨hperm.trans (h.perm.cons _), h.mode, ?_⟩⟩
      have hne : (⟨name, v⟩ :: o.props).Pairwise fun p q => o.cmp p q ≠ 0 := by
        refine pairwise_cons.mpr ⟨fun p hp hzero => ?_, h.strict.imp Int.ne_of_lt⟩
        have hsame := (NamedValue.comparison_eq_zero _ _ _).mp hzero
        exact Bool.eq_false_iff.mp (hnone p hp) (decide_eq_true (NamedValue.Same.comm.mp hsame))
      have hne := (hperm.symm.pairwise_iff fun h hzero => h (o.cmp_isOrder.eq_comm.mp hzero)).mp hne
      exact hsorted.imp₂ (fun _ _ hle hne => lt_of_le_of_ne hle hne) hne

theorem Shows.clearProps (h : Shows o s) : Shows o.clearProps s.clear :=
  ⟨.refl [], h.mode, .nil⟩

/-! ## Visits -/

theorem Shows.inOrder (h : Shows o s) : s.inOrder = o.props := by
  have horder := o.cmp_isOrder
  have hle (p q : NamedValue V) :
      decide (NamedValue.comparison s.caseInsensitive p.name q.name ≤ 0) = decide (o.cmp p q ≤ 0) := by
    rw [← h.mode]
    rfl
  have hsorted : s.inOrder.Pairwise fun p q => o.cmp p q ≤ 0 := by
    rw [Store.inOrder]
    simp only [hle]
    refine (pairwise_mergeSort (fun a b c hab hbc => ?_) (fun a b => ?_) s.props).imp of_decide_eq_true
    · exact decide_eq_true (horder.trans a b c (of_decide_eq_true hab) (of_decide_eq_true hbc))
    · have htotal := horder.le_total (a := a) (b := b)
      rw [Bool.or_eq_true, decide_eq_true_eq, decide_eq_true_eq]
      omega
  have hperm : s.inOrder.Perm o.props := (mergeSort_perm _ _).trans h.perm.symm
  refine hperm.eq_of_pairwise (fun p q hp hq hpq hqp => ?_) hsorted h.strict.sorted
  have hzero : o.cmp p q = 0 := by
    have htotal := horder.le_total (a := p) (b := q)
    omega
  have hsame := (NamedValue.comparison_eq_zero _ _ _).mp hzero
  exact (h.strict.once q.name).eq (hperm.mem_iff.mp hp) hq (decide_eq_true hsame) (decide_eq_true rfl)

theorem reduceOption_map_some {α : Type} (l : List α) : (l.map some).reduceOption = l := by
  rw [List.reduceOption, filterMap_map]
  exact filterMap_some

theorem visitProps_eq (onProp : VisitProp σ V) (l : List (NamedValue V)) : ∀ ctx : σ,
    (visitProps onProp ctx l).1 = (Store.visit onProp ctx l).1 ∧
      (visitProps onProp ctx l).2.1 = (Store.visit onProp ctx l).2.1 ∧
        (visitProps onProp ctx l).2.2.reduceOption = (Store.visit onProp ctx l).2.2 := by
  induction l with
  | nil => exact fun ctx => ⟨rfl, rfl, rfl⟩
  | cons p l ih =>
    intro ctx
    have ih := ih (onProp ctx p).2
    simp only [visitProps, Store.visit]
    split_ifs with hremove hgo
    · exact ⟨ih.1, congrArg _ ih.2.1, (reduceOption_cons_of_none _).trans ih.2.2⟩
    · exact ⟨ih.1, congrArg _ ih.2.1, (reduceOption_cons_of_some _ _).trans (congrArg _ ih.2.2)⟩
    · exact ⟨rfl, rfl, reduceOption_map_some _⟩

theorem removeNulls_eq {α : Type} (elms : List (Option α)) : removeNulls elms = elms.reduceOption := by
  have hfilter := InPlace.compact_eq_filter Option.isSome elms
  rw [removeNulls]
  dsimp only
  rw [hfilter]
  clear hfilter
  induction elms with
  | nil => rfl
  | cons x elms ih =>
    cases x with
    | none => exact ih
    | some x => exact congrArg (x :: ·) ih

theorem visitProps_unmarked (onProp : VisitProp σ V) (l : List (NamedValue V)) : ∀ ctx : σ,
    (visitProps onProp ctx l).2.2.any Option.isNone = false →
      (visitProps onProp ctx l).2.2.reduceOption = l := by
  induction l with
  | nil => exact fun ctx _ => rfl
  | cons p l ih =>
    intro ctx
    have ih := ih (onProp ctx p).2
    simp only [visitProps]
    split_ifs
    · exact fun h => Bool.noConfusion h
    · exact fun h => (reduceOption_cons_of_some _ _).trans (congrArg _ (ih h))
    · exact fun _ => reduceOption_map_some _

theorem visit_left_sublist (onProp : VisitProp σ V) (l : List (NamedValue V)) : ∀ ctx : σ,
    (Store.visit onProp ctx l).2.2.Sublist l := by
  induction l with
  | nil => exact fun ctx => Sublist.refl _
  | cons p l ih =>
    intro ctx
    have ih := ih (onProp ctx p).2
    simp only [Store.visit]
    split_ifs
    · exact ih.cons p
    · exact ih.cons_cons p
    · exact Sublist.refl _

theorem Shows.foreachProp (h : Shows o s) (onProp : VisitProp σ V) (ctx : σ) :
    (o.foreachProp onProp ctx).1 = (s.foreach onProp ctx).1 ∧
      Shows (o.foreachProp onProp ctx).2 (s.foreach onProp ctx).2 := by
  have hvisit := visitProps_eq onProp o.props ctx
  -- the array afterwards
  have hafter : (o.foreachProp onProp ctx).2 =
      { o with props := (Store.visit onProp ctx o.props).2.2 } := by
    rw [ObjectDefault.foreachProp]
    split_ifs with hsize
    · dsimp only
      split_ifs with hremoved
      · rw [removeNulls_eq, hvisit.2.2]
      · rw [← hvisit.2.2, visitProps_unmarked onProp o.props ctx (Bool.eq_false_iff.mpr hremoved)]
    · rw [length_eq_zero_iff.mp (Nat.eq_zero_of_not_pos hsize)]
      have hnil := length_eq_zero_iff.mp (Nat.eq_zero_of_not_pos hsize)
      cases o
      cases hnil
      rfl
  have hanswer : (o.foreachProp onProp ctx).1 =
      ((Store.visit onProp ctx o.props).1, (Store.visit onProp ctx o.props).2.1) := by
    rw [ObjectDefault.foreachProp]
    split_ifs with hsize
    · exact Prod.ext hvisit.1 hvisit.2.1
    · rw [length_eq_zero_iff.mp (Nat.eq_zero_of_not_pos hsize)]
      rfl
  rw [hafter, hanswer, Store.foreach, h.inOrder]
  exact ⟨rfl, ⟨.refl _, h.mode, h.strict.sublist (visit_left_sublist onProp o.props ctx)⟩⟩

/-! ## The switch -/

/-- The sort puts the elements in order. -/
theorem darraySort_spec {α : Type} {cmp : α → α → Int} (hcmp : DArray.IsOrder cmp) (elms : List α) :
    (darraySort cmp elms).Perm elms ∧ DArray.Sorted cmp (darraySort cmp elms) := by
  cases elms with
  | nil => exact ⟨.refl [], .nil⟩
  | cons x rest =>
    rw [darraySort]
    split_ifs with hlong
    · generalize hl : x :: rest = elms at hlong
      have htotal : HoleSort.TotalPreorder cmp := ⟨fun a b => hcmp.le_total, hcmp.trans⟩
      obtain ⟨b, hsort, hmoved, hordered⟩ := HoleSort.quickSort_spec cmp
        (a := fun i => elms.getD i x) (Nat.zero_le (elms.length - 1)) (show _ < elms.length by omega)
      rw [hsort]
      dsimp only
      constructor
      · have hperm := hmoved.perm (show elms.length - 1 < elms.length by omega)
        have hsame : (List.range elms.length).map (fun i => elms.getD i x) = elms := by
          refine ext_getElem (by simp) fun i hi hi' => ?_
          rw [getElem_map, getElem_range, getD_eq_getElem?_getD,
            getElem?_eq_getElem hi', getD_some]
        rwa [hsame] at hperm
      · refine pairwise_iff_getElem.mpr fun i j hi hj hij => ?_
        rw [length_map, length_range] at hi hj
        rw [getElem_map, getElem_map, getElem_range, getElem_range]
        exact hordered htotal i j (Nat.zero_le i) hij.le (by omega)
    · have hnil : rest = [] := by
        rw [length_cons] at hlong
        exact length_eq_zero_iff.mp (by omega)
      rw [hnil]
      exact ⟨.refl _, pairwise_singleton _ _⟩

/-- No two names are equal. -/
def Distinct (ci : Bool) (l : List (NamedValue V)) : Prop :=
  l.Pairwise fun p q => ¬ NamedValue.Same ci p.name q.name

theorem Distinct.perm_iff {ci : Bool} {l l' : List (NamedValue V)} (hp : l.Perm l') :
    Distinct ci l ↔ Distinct ci l' :=
  hp.pairwise_iff fun h hsame => h (NamedValue.Same.comm.mp hsame)

theorem Strict.distinct (h : o.Strict) : Distinct o.nameCaseInsensitive o.props :=
  h.imp fun {p q} hlt hsame => absurd ((NamedValue.comparison_eq_zero _ _ _).mpr hsame) (Int.ne_of_lt hlt)

theorem Distinct.of_insensitive {l : List (NamedValue V)} (h : Distinct true l) (ci : Bool) :
    Distinct ci l := by
  cases ci with
  | true => exact h
  | false => exact h.imp fun hne hsame => hne (congrArg (List.map toLower) hsame)

theorem sorted_strict_iff (hsorted : DArray.Sorted o.cmp o.props) :
    o.Strict ↔ Distinct o.nameCaseInsensitive o.props := by
  constructor
  · exact Strict.distinct
  · intro h
    refine hsorted.imp₂ (fun _ _ hle hne => lt_of_le_of_ne hle fun hzero => ?_) h
    exact hne ((NamedValue.comparison_eq_zero _ _ _).mp hzero)

theorem setNameCaseInsensitive_props (h : o.Strict) (ci : Bool) :
    (o.setNameCaseInsensitive ci).props.Perm o.props ∧
      (o.setNameCaseInsensitive ci).nameCaseInsensitive = ci ∧
      DArray.Sorted (o.setNameCaseInsensitive ci).cmp (o.setNameCaseInsensitive ci).props := by
  rw [setNameCaseInsensitive]
  split_ifs with hmode
  · have hspec := darraySort_spec (cmp_isOrder { o with nameCaseInsensitive := ci }) o.props
    exact ⟨hspec.1, rfl, hspec.2⟩
  · exact ⟨.refl _, Decidable.not_not.mp hmode, h.sorted⟩

theorem switch_strict_iff (h : o.Strict) (ci : Bool) :
    (o.setNameCaseInsensitive ci).Strict ↔ Distinct ci o.props := by
  obtain ⟨hperm, hmode, hsorted⟩ := setNameCaseInsensitive_props h ci
  rw [sorted_strict_iff hsorted, hmode, Distinct.perm_iff hperm]

theorem Shows.setNameCaseInsensitive (h : Shows o s) {ci : Bool} (hci : Distinct ci s.props) :
    Shows (o.setNameCaseInsensitive ci) (s.switch ci) := by
  obtain ⟨hperm, hmode, -⟩ := setNameCaseInsensitive_props h.strict ci
  exact ⟨hperm.trans h.perm, hmode, (switch_strict_iff h.strict ci).mpr ((Distinct.perm_iff h.perm).mpr hci)⟩

end Shows

end ObjectDefault

end Awtk
