import Mathlib
import Awtk.Ubjson.UbjsonObjectTrees

/-!
# The objects of the UBJSON parser

The calls for what `ubjson_writer_write_object` writes keep the objects of the parser in
order, and none of them is an `object_array_t`.  A call adds one node at most.
-/

namespace Awtk.Ubjson

open List Option

namespace Obj

variable {o c d : Obj} {props : List (Str × Obj)} {name : Str} {f : Obj → Obj} {way : List Nat}

/-! ## Places -/

/-- The places of a tree of objects are the ways down. -/
def places : Places Obj where
  child := child
  setChild := setChild
  child_setChild := by
    intro t c i d h
    cases t with
    | value v => cases h
    | default props =>
      obtain ⟨p, hp, -⟩ := map_eq_some_iff.mp h
      rw [setChild, child, getElem?_modify_eq, hp]
      rfl
    | array items =>
      have hlt := (List.getElem?_eq_some_iff.mp h).1
      rw [setChild, child, getElem?_set_self hlt]
  setChild_setChild := by
    intro t c d i
    cases t with
    | value v => rfl
    | default props => rw [setChild, setChild, modify_modify_eq]; rfl
    | array items => rw [setChild, setChild, set_set]; rfl
  setChild_self := by
    intro t c i h
    cases t with
    | value v => rfl
    | default props =>
      obtain ⟨p, hp, rfl⟩ := map_eq_some_iff.mp h
      rw [setChild, modify_eq_set_getElem?, hp]
      obtain ⟨hi, rfl⟩ := List.getElem?_eq_some_iff.mp hp
      exact congrArg default (set_getElem_self hi)
    | array items =>
      obtain ⟨hi, rfl⟩ := List.getElem?_eq_some_iff.mp h
      rw [setChild, set_getElem_self]

theorem places_nodeAt (way : List Nat) (o : Obj) : places.nodeAt way o = o.nodeAt way := by
  induction way generalizing o with
  | nil => rfl
  | cons i is ih => exact congrArg (Option.bind (o.child i)) (funext ih)

theorem places_updateAt (f : Obj → Obj) (way : List Nat) (o : Obj) :
    places.updateAt f way o = o.updateAt f way := by
  induction way generalizing o with
  | nil => rfl
  | cons i is ih =>
    rw [updateAt]
    cases hi : o.child i with
    | none => exact places.updateAt_none hi
    | some c =>
      rw [places.updateAt_some hi, ih]
      rfl

/-! ## The order -/

theorem allProps_iff {names : List Str → Prop} {size : Nat → Prop} {leaf : Value → Prop} :
    AllProps names size leaf props ↔ ∀ p ∈ props, All names size leaf p.2 := by
  induction props with
  | nil => simp [AllProps]
  | cons p props ih =>
    obtain ⟨name, o⟩ := p
    rw [AllProps, ih, forall_mem_cons]

theorem not_indexable (h : PlainName name) : indexable name = false := by
  have hhead : name.head? ≠ some '[' := fun hhead => h.bracket (mem_of_mem_head? hhead)
  exact decide_eq_false fun hall => hhead hall.1

theorem findIndex_plain (h : PlainName name) (props : List (Str × Obj)) :
    findIndex props name = props.findIdx? (·.1 = name) := by
  rw [findIndex, not_indexable h]
  rfl

theorem insertIdx_length {α : Type} (as bs : List α) (x : α) :
    (as ++ bs).insertIdx as.length x = as ++ x :: bs := by
  induction as with
  | nil => rfl
  | cons a as ih =>
    rw [cons_append, length_cons, insertIdx_succ_cons, ih]
    rfl

theorem insert_lowerBound (props : List (Str × Obj)) (name : Str) (c : Obj) :
    props.insertIdx (lowerBound props name) (name, c) =
      props.takeWhile (fun p => p.1 < name) ++ (name, c) :: props.dropWhile (fun p => p.1 < name) := by
  have h := insertIdx_length (props.takeWhile fun p => p.1 < name)
    (props.dropWhile fun p => p.1 < name) (name, c)
  rw [takeWhile_append_dropWhile] at h
  exact h

theorem ordered_insert (h : props.Pairwise fun p q => p.1 < q.1)
    (hnew : ∀ p ∈ props, p.1 ≠ name) (c : Obj) :
    (props.insertIdx (lowerBound props name) (name, c)).Pairwise fun p q => p.1 < q.1 := by
  rw [insert_lowerBound]
  induction props with
  | nil => exact pairwise_singleton _ _
  | cons p props ih =>
    rw [pairwise_cons] at h
    by_cases hlt : p.1 < name
    · simp only [takeWhile_cons, dropWhile_cons, decide_eq_true hlt, if_true]
      refine pairwise_cons.mpr ⟨?_, ih h.2 fun q hq => hnew q (mem_cons_of_mem p hq)⟩
      intro q hq
      rcases mem_append.mp hq with hq | hq
      · exact h.1 q (takeWhile_subset _ hq)
      · rcases mem_cons.mp hq with rfl | hq
        · exact hlt
        · exact h.1 q (dropWhile_subset _ hq)
    · simp only [takeWhile_cons, dropWhile_cons, decide_eq_false hlt, Bool.false_eq_true,
        if_false]
      have hgt : name < p.1 := by
        rcases Std.lt_trichotomy p.1 name with hless | heq | hgt
        · exact absurd hless hlt
        · exact absurd heq (hnew p mem_cons_self)
        · exact hgt
      refine pairwise_cons.mpr ⟨?_, pairwise_cons.mpr h⟩
      intro q hq
      rcases mem_cons.mp hq with rfl | hq
      · exact hgt
      · exact List.lt_trans hgt (h.1 q hq)

theorem map_modify (props : List (Str × Obj)) (i : Nat) (c : Obj) :
    (props.modify i fun p => (p.1, c)).map (·.1) = props.map (·.1) := by
  induction props generalizing i with
  | nil => cases i <;> rfl
  | cons p props ih =>
    cases i with
    | zero => rfl
    | succ i => exact congrArg (p.1 :: ·) (ih i)

theorem mem_modify {p : Str × Obj} {i : Nat} (h : p ∈ props.modify i fun p => (p.1, c)) :
    p.2 = c ∨ p ∈ props := by
  induction props generalizing i with
  | nil => cases i <;> cases h
  | cons q props ih =>
    cases i with
    | zero =>
      rcases mem_cons.mp h with rfl | h
      · exact .inl rfl
      · exact .inr (mem_cons_of_mem q h)
    | succ i =>
      rcases mem_cons.mp h with rfl | h
      · exact .inr mem_cons_self
      · rcases ih h with hc | hp
        · exact .inl hc
        · exact .inr (mem_cons_of_mem q hp)

theorem ordered_default : Ordered (default props) ↔
    (props.Pairwise fun p q => p.1 < q.1) ∧ ∀ p ∈ props, Ordered p.2 := by
  rw [Ordered, All, pairwise_map, allProps_iff]

theorem ordered_modify (i : Nat) (h : Ordered (default props)) (hc : Ordered c) :
    Ordered (default (props.modify i fun p => (p.1, c))) := by
  rw [ordered_default] at h ⊢
  refine ⟨?_, ?_⟩
  · rw [← pairwise_map, map_modify, pairwise_map]
    exact h.1
  · intro p hp
    rcases mem_modify hp with hp | hp
    · rw [hp]
      exact hc
    · exact h.2 p hp

theorem ordered_setProp (hname : PlainName name) (ho : Ordered o) (hc : Ordered c) :
    Ordered (o.setProp name c).2 := by
  cases o with
  | value v => exact ho
  | array items => exact ho.1.elim
  | default props =>
    change Ordered (default (setDefault props name c))
    rw [setDefault, findIndex_plain hname]
    cases hfind : props.findIdx? (·.1 = name) with
    | some i => exact ordered_modify i ho hc
    | none =>
      have hnew : ∀ p ∈ props, p.1 ≠ name := by
        intro p hp
        have hfalse := findIdx?_eq_none_iff.mp hfind p hp
        exact of_decide_eq_false hfalse
      rw [ordered_default] at ho ⊢
      refine ⟨ordered_insert ho.1 hnew c, ?_⟩
      intro p hp
      rcases eq_or_mem_of_mem_insertIdx hp with rfl | hp
      · exact hc
      · exact ho.2 p hp

theorem ordered_setChild (i : Nat) (ho : Ordered o) (hc : Ordered c) : Ordered (o.setChild i c) := by
  cases o with
  | value v => exact ho
  | default props => exact ordered_modify i ho hc
  | array items => exact ho.1.elim

theorem ordered_child {i : Nat} (ho : Ordered o) (hi : o.child i = some c) : Ordered c := by
  cases o with
  | value v => cases hi
  | array items => exact ho.1.elim
  | default props =>
    obtain ⟨p, hp, rfl⟩ := map_eq_some_iff.mp hi
    exact (ordered_default.mp ho).2 p (mem_of_getElem? hp)

theorem ordered_updateAt (hf : ∀ o, Ordered o → Ordered (f o)) (way : List Nat) (ho : Ordered o) :
    Ordered (o.updateAt f way) := by
  induction way generalizing o with
  | nil => exact hf o ho
  | cons i is ih =>
    rw [updateAt]
    cases hi : o.child i with
    | none => exact ho
    | some c => exact ordered_setChild i ho (ih (ordered_child ho hi))

/-! ## Calls keep the order -/

/-- The calls for what is written. -/
def Written (e : Doc.Event) : Prop :=
  e = (none, Doc.begins .objectEnd) ∨
    ∃ name, PlainName name ∧
      (e = (some name, Doc.begins .objectBegin) ∨ ∃ v, e = (some name, .value v))

theorem plainName_decimal {n : Nat} (hn : n < 2 ^ 32) : PlainName (decimal n) where
  nul := nul_notMem_decimal n
  dot h := by cases isDigit_of_mem_decimal h
  bracket h := by cases isDigit_of_mem_decimal h
  size := by
    have hlen := length_decimal_le hn
    omega

mutual

theorem written_toDoc : ∀ {o : Obj} {name : Str}, Plain o → PlainName name →
    ∀ e ∈ (toDoc o).events (some name), Written e
  | value v, name, _, hname, e, he => by
    rw [toDoc, Doc.events, mem_singleton] at he
    exact .inr ⟨name, hname, .inr ⟨_, he⟩⟩
  | default props, name, h, hname, e, he => by
    rw [toDoc, Doc.events, cons_append, mem_cons, mem_append, mem_singleton] at he
    rcases he with rfl | he | rfl
    · exact .inr ⟨name, hname, .inl rfl⟩
    · exact written_toMembers h.1.2 h.2 e he
    · exact .inl rfl
  | array items, name, h, hname, e, he => by
    rw [toDoc, Doc.events, cons_append, mem_cons, mem_append, mem_singleton] at he
    rcases he with rfl | he | rfl
    · exact .inr ⟨name, hname, .inl rfl⟩
    · exact written_toNamed 0 (Nat.le_of_lt (by rw [Nat.zero_add]; exact h.1)) h.2 e he
    · exact .inl rfl

theorem written_toMembers : ∀ {props : List (Str × Obj)},
    (∀ name ∈ props.map (·.1), PlainName name) →
    AllProps (fun names => names.Nodup ∧ ∀ name ∈ names, PlainName name) (· < 2 ^ 32) PlainValue props →
    ∀ e ∈ Doc.eventsMembers (toMembers props), Written e
  | [], _, _, e, he => by cases he
  | (name, _) :: props, hnames, h, e, he => by
    rw [toMembers, Doc.eventsMembers, mem_append] at he
    rcases he with he | he
    · exact written_toDoc h.1 (hnames name mem_cons_self) e he
    · exact written_toMembers (fun a ha => hnames a (mem_cons_of_mem name ha)) h.2 e he

theorem written_toNamed : ∀ (i : Nat) {items : List Obj}, i + items.length ≤ 2 ^ 32 →
    AllItems (fun names => names.Nodup ∧ ∀ name ∈ names, PlainName name) (· < 2 ^ 32) PlainValue items →
    ∀ e ∈ Doc.eventsMembers (toNamed i items), Written e
  | _, [], _, _, e, he => by cases he
  | i, _ :: items, hi, h, e, he => by
    rw [length_cons] at hi
    rw [toNamed, Doc.eventsMembers, mem_append] at he
    rcases he with he | he
    · exact written_toDoc h.1 (plainName_decimal (by omega)) e he
    · exact written_toNamed (i + 1) (by omega) h.2 e he

end

/-- The parser has no `object_array_t`, and every object is in order. -/
structure Sound (p : ObjectParser) : Prop where
  type : p.optimizedType = 0
  root : ∀ root, p.root = some root → Ordered root

theorem ordered_empty : Ordered (default []) := ordered_default.mpr ⟨.nil, fun p hp => by cases hp⟩

theorem Sound.setProp {p : ObjectParser} (h : Sound p) (hname : PlainName name) (hc : Ordered c) :
    Sound (p.setProp name c).2 := by
  rw [ObjectParser.setProp]
  cases hroot : p.root with
  | none => exact h
  | some root =>
    cases p.stack with
    | none => exact h
    | some way =>
      refine ⟨h.type, ?_⟩
      intro root' hroot'
      cases hroot'
      exact ordered_updateAt (fun o ho => ordered_setProp hname ho hc) way (h.root root hroot)

theorem Sound.pushNew {p : ObjectParser} (h : Sound p) (hname : PlainName name) :
    Sound (p.pushNew name (default [])).2 := by
  have hset := h.setProp hname ordered_empty
  rw [ObjectParser.pushNew]
  cases hroot : p.root with
  | none =>
    refine ⟨h.type, ?_⟩
    intro root' hroot'
    cases hroot'
    exact ordered_empty
  | some root =>
    cases p.stack with
    | none =>
      refine ⟨h.type, ?_⟩
      intro root' hroot'
      cases hroot'
      exact h.root root hroot
    | some way =>
      by_cases hlevel : way.length + 1 < ObjectParser.maxLevel
      · simp only [if_pos hlevel]
        exact ⟨hset.type, hset.root⟩
      · simp only [if_neg hlevel]
        exact hset

theorem Sound.pop {p : ObjectParser} (h : Sound p) : Sound p.pop.2 := by
  rw [ObjectParser.pop]
  split
  · exact h
  · exact ⟨h.type, h.root⟩
  · exact ⟨h.type, h.root⟩

theorem Sound.onKeyValue {p : ObjectParser} {e : Doc.Event} (h : Sound p) (he : Written e) :
    Sound (p.onKeyValue e.1 e.2).2 := by
  rcases he with rfl | ⟨name, hname, rfl | ⟨v, rfl⟩⟩
  · exact h.pop
  · exact h.pushNew hname
  · have hvalue : p.onKeyValue (some name) (.value v) = p.setProp name (value v) := if_pos h.type
    rw [hvalue]
    exact h.setProp hname trivial

theorem sound_feed {events : List Doc.Event} (hevents : ∀ e ∈ events, Written e)
    {s : Bool × ObjectParser} (h : Sound s.2) :
    Sound (feed ObjectParser.onKeyValue s events).2 := by
  induction events generalizing s with
  | nil => exact h
  | cons e events ih =>
    rw [Parser.feed_cons]
    refine ih (fun e' he' => hevents e' (mem_cons_of_mem e he')) ?_
    rw [call]
    split_ifs with hs
    · exact h
    · exact h.onKeyValue (hevents e mem_cons_self)

/-! ## The number of nodes -/

mutual

def count : Obj → Nat
  | value _ => 1
  | default props => countProps props + 1
  | array items => countItems items + 1

def countProps : List (Str × Obj) → Nat
  | [] => 0
  | (_, o) :: props => count o + countProps props

def countItems : List Obj → Nat
  | [] => 0
  | o :: items => count o + countItems items

end

mutual

theorem length_nodes : ∀ (o : Obj) (depth : Nat), (nodes depth o).length = count o
  | value _, _ => rfl
  | default props, depth => by
    rw [nodes, length_cons, length_nodesProps props, count]
  | array items, depth => by
    rw [nodes, length_cons, length_nodesItems items, count]

theorem length_nodesProps : ∀ (props : List (Str × Obj)) (depth : Nat),
    (nodesProps depth props).length = countProps props
  | [], _ => rfl
  | (_, o) :: props, depth => by
    rw [nodesProps, length_append, length_nodes o, length_nodesProps props, countProps]

theorem length_nodesItems : ∀ (items : List Obj) (depth : Nat),
    (nodesItems depth items).length = countItems items
  | [], _ => rfl
  | o :: items, depth => by
    rw [nodesItems, length_append, length_nodes o, length_nodesItems items, countItems]

end

mutual

theorem count_norm : ∀ o : Obj, count (norm o) = count o
  | value _ => rfl
  | default props => by rw [norm, count, count, countProps_norm props]
  | array items => by rw [norm, count, count, countItems_norm items]

theorem countProps_norm : ∀ props : List (Str × Obj), countProps (normProps props) = countProps props
  | [] => rfl
  | (_, o) :: props => by rw [normProps, countProps, countProps, count_norm o, countProps_norm props]

theorem countItems_norm : ∀ items : List Obj, countItems (normItems items) = countItems items
  | [] => rfl
  | o :: items => by rw [normItems, countItems, countItems, count_norm o, countItems_norm items]

end

theorem countProps_append (as bs : List (Str × Obj)) :
    countProps (as ++ bs) = countProps as + countProps bs := by
  induction as with
  | nil => exact (Nat.zero_add _).symm
  | cons a as ih => rw [cons_append, countProps, countProps, ih, Nat.add_assoc]

theorem countItems_append (as bs : List Obj) :
    countItems (as ++ bs) = countItems as + countItems bs := by
  induction as with
  | nil => exact (Nat.zero_add _).symm
  | cons a as ih => rw [cons_append, countItems, countItems, ih, Nat.add_assoc]

theorem countProps_modify {p : Str × Obj} {i : Nat} (h : props[i]? = some p) (c : Obj) :
    countProps (props.modify i fun p => (p.1, c)) + count p.2 = countProps props + count c := by
  induction props generalizing i with
  | nil => cases h
  | cons q props ih =>
    cases i with
    | zero =>
      cases h
      change count c + countProps props + count p.2 = count p.2 + countProps props + count c
      omega
    | succ i =>
      have hih := ih h
      change count q.2 + countProps (props.modify i fun p => (p.1, c)) + count p.2 =
        count q.2 + countProps props + count c
      omega

theorem countItems_set {items : List Obj} {i : Nat} (h : items[i]? = some o) (c : Obj) :
    countItems (items.set i c) + count o = countItems items + count c := by
  induction items generalizing i with
  | nil => cases h
  | cons q items ih =>
    cases i with
    | zero =>
      cases h
      rw [set_cons_zero, countItems, countItems]
      omega
    | succ i =>
      have hih := ih h
      rw [set_cons_succ, countItems, countItems]
      omega

theorem count_setChild {i : Nat} (h : o.child i = some c) (d : Obj) :
    count (o.setChild i d) + count c = count o + count d := by
  cases o with
  | value v => cases h
  | default props =>
    obtain ⟨p, hp, rfl⟩ := map_eq_some_iff.mp h
    have hcount := countProps_modify hp d
    rw [setChild, count, count]
    omega
  | array items =>
    have hcount := countItems_set h d
    rw [setChild, count, count]
    omega

theorem count_setProp_le (o : Obj) (name : Str) (c : Obj) :
    count (o.setProp name c).2 ≤ count o + count c := by
  cases o with
  | value v => exact Nat.le_add_right _ _
  | default props =>
    change count (default (setDefault props name c)) ≤ _
    rw [setDefault, count, count]
    cases hfind : findIndex props name with
    | some i =>
      dsimp only
      cases hi : props[i]? with
      | none =>
        rw [modify_eq_self (List.getElem?_eq_none_iff.mp hi)]
        omega
      | some p =>
        have hcount := countProps_modify hi c
        omega
    | none =>
      have hsplit := countProps_append (props.takeWhile fun p => p.1 < name)
        (props.dropWhile fun p => p.1 < name)
      rw [takeWhile_append_dropWhile] at hsplit
      dsimp only
      rw [insert_lowerBound, countProps_append, countProps]
      omega
  | array items =>
    rw [setProp]
    cases parseIndex name with
    | none => exact Nat.le_add_right _ _
    | some i =>
      dsimp only
      by_cases hlt : toU32 i < items.length
      · have hcount := countItems_set (getElem?_eq_getElem hlt) c
        rw [if_pos hlt, count, count]
        omega
      · rw [if_neg hlt]
        split_ifs with hpush
        · rw [count, count, countItems_append, countItems, countItems]
          omega
        · exact Nat.le_add_right _ _

theorem count_updateAt_le {n : Nat} (hf : ∀ o, count (f o) ≤ count o + n) (way : List Nat) (o : Obj) :
    count (o.updateAt f way) ≤ count o + n := by
  induction way generalizing o with
  | nil => exact hf o
  | cons i is ih =>
    rw [updateAt]
    cases hi : o.child i with
    | none => exact Nat.le_add_right _ _
    | some c =>
      have hchild := count_setChild hi (c.updateAt f is)
      have hle := ih c
      dsimp only
      omega

end Obj

end Awtk.Ubjson
