import Awtk.Lib.Run
import Awtk.Tkc.ObjectDefault

/-!
# Runs of default objects

Over a run a default object is a plain store: its array is strictly sorted, every call has the result that
it has on the store, and a name has the value that it was set to last.  This is so exactly if names are
switched to be compared without case only while no two of them differ in nothing else (`store_iff`).
-/

namespace Awtk

open Runs Option

set_option maxRecDepth 2048

namespace ObjectDefault

/-! ## Calls -/

/-- A call. -/
inductive Op (V : Type) where
  | set (name : Name) (v : V)
  | get (name : Name)
  | remove (name : Name)
  | clear
  | foreach (σ : Type) (onProp : VisitProp σ V) (ctx : σ)
  | switch (nameCaseInsensitive : Bool)

/-- What a call gives: a return code, a value, and the properties it visits. -/
structure Reply (V : Type) where
  ret : Ret
  value : Option V
  visited : List (NamedValue V)

section Runs

variable {V : Type}

/-- A call of an object. -/
def call (o : ObjectDefault V) : Op V → Reply V × ObjectDefault V
  | .set name v => (⟨(o.setProp name v).1, none, []⟩, (o.setProp name v).2)
  | .get name => (⟨(o.getProp name).1, (o.getProp name).2, []⟩, o)
  | .remove name => (⟨(o.removeProp name).1, none, []⟩, (o.removeProp name).2)
  | .clear => (⟨.ok, none, []⟩, o.clearProps)
  | .foreach _ onProp ctx =>
    (⟨(o.foreachProp onProp ctx).1.1, none, (o.foreachProp onProp ctx).1.2⟩, (o.foreachProp onProp ctx).2)
  | .switch ci => (⟨.ok, none, []⟩, o.setNameCaseInsensitive ci)

/-- A call of a plain store. -/
def storeCall (s : Store V) : Op V → Reply V × Store V
  | .set name v => (⟨(s.set name v).1, none, []⟩, (s.set name v).2)
  | .get name => (⟨(s.get name).1, (s.get name).2, []⟩, s)
  | .remove name => (⟨(s.remove name).1, none, []⟩, (s.remove name).2)
  | .clear => (⟨.ok, none, []⟩, s.clear)
  | .foreach _ onProp ctx =>
    (⟨(s.foreach onProp ctx).1.1, none, (s.foreach onProp ctx).1.2⟩, (s.foreach onProp ctx).2)
  | .switch ci => (⟨.ok, none, []⟩, s.switch ci)

/-- Names are switched to be compared without case only while no two of them are equal so. -/
def SwitchesDistinct (s : Store V) : Op V → Prop
  | .switch true => Distinct true s.props
  | _ => True

/-! ## The most recent call about a name -/

variable {σ : Type}

/-- The properties that a visitor wants to be removed. -/
def removedBy (onProp : VisitProp σ V) : σ → List (NamedValue V) → List (NamedValue V)
  | _, [] => []
  | ctx, p :: rest =>
    let (ret, ctx') := onProp ctx p
    if ret = .remove then p :: removedBy onProp ctx' rest
    else if DArray.goesOn ret then removedBy onProp ctx' rest
    else []

/-- What a call makes of a name: it sets it to a value, or it removes it. -/
def effect (o : ObjectDefault V) (name : Name) : Op V → Option (Option V)
  | .set n v => if NamedValue.Same o.nameCaseInsensitive n name then some (some v) else none
  | .remove n => if NamedValue.Same o.nameCaseInsensitive n name then some none else none
  | .clear => some none
  | .foreach _ onProp ctx =>
    if (removedBy onProp ctx o.props).any (hits o.nameCaseInsensitive name) then some none else none
  | .get _ | .switch _ => none

/-- What the most recent call that sets or removes a name makes of it. -/
def mostRecent (name : Name) : ObjectDefault V → List (Op V) → Option (Option V)
  | _, [] => none
  | o, op :: ops => (mostRecent name (call o op).2 ops).or (o.effect name op)

/-- The result of a search. -/
def found : Option V → Ret × Option V
  | some v => (.ok, some v)
  | none => (.notFound, none)

/-- The call does not switch how names are compared. -/
def Op.Keeps : Op V → Prop
  | .switch _ => False
  | _ => True

/-! ## The values of names -/

variable {o : ObjectDefault V} {s : Store V} {name : Name}

/-- The value of a name. -/
def Store.value (s : Store V) (name : Name) : Option V :=
  (s.props.find? (hits s.caseInsensitive name)).map NamedValue.value

theorem Store.get_eq (s : Store V) (name : Name) : s.get name = found (s.value name) := by
  rw [Store.get, Store.value]
  cases s.props.find? (hits s.caseInsensitive name) <;> rfl

theorem hits_congr {ci : Bool} {a b : Name} (h : NamedValue.Same ci a b) (p : NamedValue V) :
    hits ci a p = hits ci b p := by
  refine decide_eq_decide.mpr ⟨fun hp => hp.trans h, fun hp => hp.trans (NamedValue.Same.comm.mp h)⟩

theorem not_hits {ci : Bool} {a b : Name} (h : ¬ NamedValue.Same ci a b) {p : NamedValue V}
    (hp : hits ci a p = true) : hits ci b p = false :=
  decide_eq_false fun hb => h ((NamedValue.Same.comm.mp (of_decide_eq_true hp)).trans hb)

theorem Store.value_set (s : Store V) (n : Name) (v : V) (name : Name) :
    (s.set n v).2.value name =
      if NamedValue.Same s.caseInsensitive n name then some v else s.value name := by
  rw [Store.set, Store.value, Store.value]
  by_cases hany : s.props.any (hits s.caseInsensitive n) = true
  · rw [if_pos hany]
    dsimp only
    rw [List.find?_map]
    have hkeep : (hits s.caseInsensitive name) ∘ (fun p : NamedValue V =>
        if hits s.caseInsensitive n p = true then { p with value := v } else p) =
          hits s.caseInsensitive name := by
      funext p
      rw [Function.comp_apply]
      split <;> rfl
    rw [hkeep]
    split_ifs with hsame
    · have hex : ∃ p ∈ s.props, hits s.caseInsensitive name p = true := by
        simp only [hits_congr hsame, List.any_eq_true] at hany
        exact hany
      cases hfind : s.props.find? (hits s.caseInsensitive name) with
      | none =>
        cases hex with
        | intro p hp => exact absurd hp.2 (List.find?_eq_none.mp hfind p hp.1)
      | some p =>
        have hp := List.find?_some hfind
        rw [map_some, map_some, hits_congr hsame, if_pos hp]
    · cases hfind : s.props.find? (hits s.caseInsensitive name) with
      | none => rfl
      | some p =>
        have hp := List.find?_some hfind
        have hn : hits s.caseInsensitive n p = false :=
          not_hits (fun h => hsame (NamedValue.Same.comm.mp h)) hp
        rw [map_some, if_neg (Bool.eq_false_iff.mp hn)]
  · rw [if_neg hany]
    dsimp only
    rw [List.find?_cons]
    split_ifs with hsame
    · rw [hits, decide_eq_true hsame]
      rfl
    · rw [hits, decide_eq_false hsame]

theorem Store.value_remove (s : Store V) (n name : Name) :
    (s.remove n).2.value name =
      if NamedValue.Same s.caseInsensitive n name then none else s.value name := by
  have hfilter : s.props.any (hits s.caseInsensitive n) = false →
      (s.props.filter fun p => !hits s.caseInsensitive n p) = s.props := fun h =>
    OneHit.filter_not fun p hp => Bool.eq_false_iff.mpr (List.any_eq_false.mp h p hp)
  have hprops : (s.remove n).2 = { s with props := s.props.filter fun p => !hits s.caseInsensitive n p } := by
    rw [Store.remove]
    split_ifs with hany
    · rfl
    · rw [hfilter (Bool.eq_false_iff.mpr hany)]
  rw [hprops, Store.value, Store.value]
  dsimp only
  rw [List.find?_filter]
  split_ifs with hsame
  · rw [List.find?_eq_none.mpr fun p _ => by rw [hits_congr hsame]; simp]
    rfl
  · congr 2
    funext p
    cases hp : hits s.caseInsensitive name p with
    | false => simp
    | true => rw [not_hits (fun h => hsame (NamedValue.Same.comm.mp h)) hp]; rfl

theorem removedBy_subset (onProp : VisitProp σ V) (l : List (NamedValue V)) : ∀ ctx : σ,
    removedBy onProp ctx l ⊆ l := by
  induction l with
  | nil => exact fun ctx => List.Subset.refl _
  | cons p l ih =>
    intro ctx
    have ih := ih (onProp ctx p).2
    simp only [removedBy]
    split_ifs
    · exact List.cons_subset_cons p ih
    · exact List.subset_cons_of_subset p ih
    · exact List.nil_subset _

/-- A visit removes one of the properties that are hit, or it leaves them. -/
theorem find?_visit {hit : NamedValue V → Bool} (onProp : VisitProp σ V) (l : List (NamedValue V)) :
    ∀ ctx : σ, OneHit.Once hit l → (Store.visit onProp ctx l).2.2.find? hit =
      if (removedBy onProp ctx l).any hit then none else l.find? hit := by
  induction l with
  | nil => exact fun ctx _ => rfl
  | cons p l ih =>
    intro ctx h
    have hrest := List.pairwise_cons.mp h
    have ih := ih (onProp ctx p).2 hrest.2
    have hothers (hp : hit p = true) : ∀ q ∈ l, hit q = false := fun q hq =>
      Bool.eq_false_iff.mpr fun hhit => hrest.1 q hq ⟨hp, hhit⟩
    simp only [Store.visit, removedBy]
    by_cases hremove : (onProp ctx p).1 = .remove
    · simp only [if_pos hremove, List.any_cons]
      cases hp : hit p with
      | true =>
        rw [Bool.true_or, if_pos rfl]
        exact OneHit.find?_none fun q hq =>
          hothers hp q ((visit_left_sublist onProp l _).subset hq)
      | false =>
        rw [Bool.false_or, List.find?_cons_of_neg (Bool.eq_false_iff.mp hp)]
        exact ih
    · simp only [if_neg hremove]
      by_cases hgo : DArray.goesOn (onProp ctx p).1 = true
      · simp only [if_pos hgo]
        cases hp : hit p with
        | true =>
          have hnone : (removedBy onProp (onProp ctx p).2 l).any hit = false :=
            List.any_eq_false.mpr fun q hq =>
              Bool.eq_false_iff.mp (hothers hp q (removedBy_subset onProp l _ hq))
          rw [List.find?_cons_of_pos hp, List.find?_cons_of_pos hp, hnone, if_neg Bool.false_ne_true]
        | false =>
          rw [List.find?_cons_of_neg (Bool.eq_false_iff.mp hp), ih,
            List.find?_cons_of_neg (Bool.eq_false_iff.mp hp)]
      · simp only [if_neg hgo]
        rfl

theorem Shows.value_foreach (h : Shows o s) (onProp : VisitProp σ V) (ctx : σ) (name : Name) :
    (s.foreach onProp ctx).2.value name =
      if (removedBy onProp ctx o.props).any (hits o.nameCaseInsensitive name) then none else s.value name := by
  have honce := h.strict.once name
  rw [Store.value, Store.value, Store.foreach]
  dsimp only
  rw [h.inOrder, ← h.mode, find?_visit onProp o.props ctx honce, ← honce.find?_perm h.perm]
  split_ifs <;> rfl

/-! ## Runs -/

theorem Strict.distinct_sensitive (h : o.Strict) : Distinct false o.props := by
  cases hmode : o.nameCaseInsensitive with
  | true => exact Distinct.of_insensitive (hmode ▸ h.distinct) false
  | false => exact hmode ▸ h.distinct

theorem call_shows (op : Op V) (h : Shows o s) (hop : SwitchesDistinct s op) :
    (call o op).1 = (storeCall s op).1 ∧ Shows (call o op).2 (storeCall s op).2 := by
  cases op with
  | set name v =>
    have hset := h.setProp name v
    exact ⟨by rw [call, storeCall, hset.1], hset.2⟩
  | get name => exact ⟨by rw [call, storeCall, h.getProp], h⟩
  | remove name =>
    have hremove := h.removeProp name
    exact ⟨by rw [call, storeCall, hremove.1], hremove.2⟩
  | clear => exact ⟨rfl, h.clearProps⟩
  | foreach σ onProp ctx =>
    have hvisit := h.foreachProp onProp ctx
    exact ⟨by rw [call, storeCall, hvisit.1], hvisit.2⟩
  | switch ci =>
    refine ⟨rfl, h.setNameCaseInsensitive ?_⟩
    cases ci with
    | true => exact hop
    | false => exact (Distinct.perm_iff h.perm).mp h.strict.distinct_sensitive

theorem Shows.value_call (h : Shows o s) {op : Op V} (hop : op.Keeps) (name : Name) :
    (storeCall s op).2.value name = (o.effect name op).getD (s.value name) := by
  cases op with
  | set n v =>
    rw [storeCall, effect, Store.value_set, h.mode]
    split_ifs <;> rfl
  | get n => rfl
  | remove n =>
    rw [storeCall, effect, Store.value_remove, h.mode]
    split_ifs <;> rfl
  | clear => rfl
  | foreach σ onProp ctx =>
    rw [storeCall, effect, h.value_foreach onProp ctx]
    split_ifs <;> rfl
  | switch ci => exact hop.elim

theorem Op.Keeps.switchesDistinct {op : Op V} (h : op.Keeps) (s : Store V) : SwitchesDistinct s op := by
  cases op with
  | switch ci => exact h.elim
  | _ => trivial

theorem Shows.value_after (name : Name) (ops : List (Op V)) : ∀ {o : ObjectDefault V} {s : Store V},
    Shows o s → (∀ op ∈ ops, op.Keeps) →
      (after storeCall s ops).value name = (mostRecent name o ops).getD (s.value name) := by
  induction ops with
  | nil => exact fun _ _ => rfl
  | cons op ops ih =>
    intro o s h hops
    have hop := hops op List.mem_cons_self
    have hcall := call_shows op h (hop.switchesDistinct s)
    rw [after, ih hcall.2 fun op hop => hops op (List.mem_cons_of_mem _ hop), h.value_call hop, mostRecent]
    cases mostRecent name (call o op).2 ops <;> rfl

/-- What is right in a run from a new object: the array is strictly sorted, the results are those of a plain
store, a name that is looked up has what the most recent call since the last switch made of it, and a visitor
that does not stop sees every property once. -/
structure Right (ops : List (Op V)) : Prop where
  strict : ∀ pre, pre <+: ops → (after call (create : ObjectDefault V) pre).Strict
  same : results call create ops = results storeCall .empty ops
  recent : ∀ pre post name, pre ++ post <+: ops → (∀ op ∈ post, op.Keeps) →
    (after call create (pre ++ post)).getProp name =
      found ((mostRecent name (after call create pre) post).getD ((after call create pre).getProp name).2)
  visits : ∀ pre, pre <+: ops → ∀ (σ : Type) (onProp : VisitProp σ V) (ctx : σ),
    (∀ ctx p, (onProp ctx p).1 = .remove ∨ DArray.goesOn (onProp ctx p).1 = true) →
      ((after call create pre).foreachProp onProp ctx).1.2 = (after call create pre).props

theorem shows_create : Shows (create : ObjectDefault V) .empty := ⟨.refl [], rfl, .nil⟩

theorem meets_of_strict (ops : List (Op V)) : ∀ {o : ObjectDefault V} {s : Store V}, Shows o s →
    (∀ pre, pre <+: ops → (after call o pre).Strict) →
      Meets (fun s op => some (storeCall s op).2) SwitchesDistinct s ops := by
  induction ops with
  | nil => exact fun _ _ => trivial
  | cons op ops ih =>
    intro o s h hstrict
    have hop : SwitchesDistinct s op := by
      cases op with
      | switch ci =>
        cases ci with
        | true =>
          have hnext : (o.setNameCaseInsensitive true).Strict := hstrict [.switch true] ⟨ops, rfl⟩
          exact (Distinct.perm_iff h.perm).mp ((switch_strict_iff h.strict true).mp hnext)
        | false => trivial
      | _ => trivial
    refine (meets_cons_some rfl).mpr ⟨hop, ih (call_shows op h hop).2 fun pre hpre => ?_⟩
    exact hstrict (op :: pre) (List.cons_prefix_cons.mpr ⟨rfl, hpre⟩)

theorem visited_eq (onProp : VisitProp σ V)
    (hall : ∀ ctx p, (onProp ctx p).1 = .remove ∨ DArray.goesOn (onProp ctx p).1 = true)
    (l : List (NamedValue V)) : ∀ ctx : σ, (Store.visit onProp ctx l).2.1 = l := by
  induction l with
  | nil => exact fun ctx => rfl
  | cons p l ih =>
    intro ctx
    have ih := ih (onProp ctx p).2
    simp only [Store.visit]
    split_ifs with hremove hgo
    · exact congrArg _ ih
    · exact congrArg _ ih
    · exact absurd (hall ctx p) (not_or.mpr ⟨hremove, hgo⟩)

/-- A run is right exactly if names are switched to be compared without case only while no two of them are
equal so. -/
theorem store_iff (ops : List (Op V)) :
    Right ops ↔ Meets (fun s op => some (storeCall s op).2) SwitchesDistinct (.empty : Store V) ops := by
  constructor
  · exact fun h => meets_of_strict ops shows_create h.strict
  · intro hm
    have hsim := results_simulation fun o s op => call_shows (V := V) (o := o) (s := s) op
    have hshows (pre : List (Op V)) (hpre : pre <+: ops) :
        Shows (after call create pre) (after storeCall .empty pre) :=
      (hsim pre shows_create (hm.initial hpre)).2
    refine ⟨fun pre hpre => (hshows pre hpre).strict, (hsim ops shows_create hm).1, ?_, ?_⟩
    · intro pre post name hpre hkeeps
      have hfirst := hshows pre ((List.prefix_append pre post).trans hpre)
      rw [(hshows _ hpre).getProp, Store.get_eq, after_append, hfirst.value_after name post hkeeps,
        hfirst.getProp, Store.get_eq]
      congr 2
      cases (after storeCall Store.empty pre).value name <;> rfl
    · intro pre hpre σ onProp ctx hall
      have h := hshows pre hpre
      rw [(h.foreachProp onProp ctx).1, Store.foreach, h.inOrder]
      exact visited_eq onProp hall _ ctx

/-- Two names that differ in the case of their letter are set, names are switched to be compared without
case, and one name is removed.  It is found nevertheless. -/
theorem switch_keeps_both :
    let a : Name := ⟨['a'], by decide⟩
    let b : Name := ⟨['A'], by decide⟩
    (after call (create : ObjectDefault Nat) [.set a 1, .set b 2, .switch true, .remove a]).getProp a =
      (.ok, some 1) ∧ ¬ ∀ (V : Type) (ops : List (Op V)), Right ops := by
  refine ⟨by decide +kernel, fun h => ?_⟩
  have hstrict := (h Nat [.set ⟨['a'], by decide⟩ 1, .set ⟨['A'], by decide⟩ 2, .switch true]).strict _
    List.prefix_rfl
  rw [Strict] at hstrict
  exact absurd hstrict (by decide +kernel)

end Runs

end ObjectDefault

end Awtk
