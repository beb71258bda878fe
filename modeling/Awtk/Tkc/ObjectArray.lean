import Awtk.Lib.InPlace
import Awtk.Lib.Run
import Awtk.Tkc.DArray

/-!
# Object arrays

`object_array_t` keeps values in a row.  An element that is removed becomes a value of type
`VALUE_TYPE_INVALID` first, and then all values of this type are removed.  So an array is a plain list as
long as none of its own values is of this type where something is removed (`list_iff`).
-/

namespace Awtk

open Runs List

namespace ObjectArray

/-! ## The code -/

/-- A `value_t`.  One of type `VALUE_TYPE_INVALID` has no content. -/
abbrev Slot (V : Type) := Option V

/-- The first `size` of the `props`. -/
abbrev Props (V : Type) := List (Slot V)

/-- A `tk_visit_t`, which is called with the index of an element as its name. -/
abbrev Visit (σ V : Type) := σ → Nat → Slot V → Ret × σ

section Code

variable {V σ : Type} (equal : Slot V → Slot V → Bool) (o : Props V)

def cleanInvalidProps : Props V :=
  let (props, size) := InPlace.compact Option.isSome o.length o 0 0
  props.take size

/-- `object_array_insert`.  The record behind the last element is not in use before. -/
def insert (index : Nat) (v : Slot V) : Ret × Props V :=
  let index := min index o.length
  (.ok, (InPlace.shiftUp (o.length - index) index (o ++ [none])).set index v)

def push (v : Slot V) : Ret × Props V := insert o o.length v

def getAndRemove (index : Nat) : Ret × Option (Slot V) × Props V :=
  match o[index]? with
  | some iter => (.ok, some iter, cleanInvalidProps (o.set index none))
  | none => (.notFound, none, o)

def remove (index : Nat) : Ret × Props V :=
  let (ret, _, o) := getAndRemove o index
  (ret, o)

/-- `object_array_remove_value`, with `value_equal` as a parameter. -/
def removeValue (v : Slot V) : Ret × Props V :=
  match o.findIdx? fun iter => equal iter v with
  | some i => remove o i
  | none => (.notFound, o)

def shift : Ret × Option (Slot V) × Props V := getAndRemove o 0

/-- `object_array_pop`. -/
def pop : Ret × Option (Slot V) × Props V :=
  match o.getLast? with
  | some last => (.ok, some last, o.dropLast)
  | none => (.badParams, none, o)

/-- `object_array_set`. -/
def set (index : UInt32) (v : Slot V) : Ret × Props V :=
  if index.toNat < o.length then (.ok, List.set o index.toNat v)
  else if index = 0xffffffff then push o v
  else (.badParams, o)

def reverse : Ret × Props V := if o.length < 2 then (.ok, o) else (.ok, InPlace.turn 0 (o.length - 1) o)

def clearProps : Ret × Props V := (.ok, [])

/-- The loop of `object_array_foreach_prop`, which marks the elements that are removed. -/
def visitProps (onProp : Visit σ V) : σ → Nat → Props V → Ret × Props V
  | _, _, [] => (.ok, [])
  | ctx, i, iter :: rest =>
    let (ret, ctx') := onProp ctx i iter
    if ret = .remove then
      let (ret, rest) := visitProps onProp ctx' (i + 1) rest
      (ret, none :: rest)
    else if DArray.goesOn ret then
      let (ret, rest) := visitProps onProp ctx' (i + 1) rest
      (ret, iter :: rest)
    else (ret, iter :: rest)

def foreachProp (onProp : Visit σ V) (ctx : σ) : Ret × Props V :=
  if o.length > 0 then
    let (ret, o) := visitProps onProp ctx 0 o
    (ret, cleanInvalidProps o)
  else (.ok, o)

end Code

/-! ## Calls -/

/-- A call. -/
inductive Op (V : Type) where
  | insert (index : UInt32) (v : Slot V)
  | set (index : UInt32) (v : Slot V)
  | push (v : Slot V)
  | remove (index : UInt32)
  | removeValue (v : Slot V)
  | pop
  | shift
  | getAndRemove (index : UInt32)
  | reverse
  | clearProps
  | foreachProp (σ : Type) (onProp : Visit σ V) (ctx : σ)

section Calls

variable {V : Type} (equal : Slot V → Slot V → Bool) (o l : Props V)

/-- The return code of a call that has no value. -/
def noValue (r : Ret × Props V) : (Ret × Option (Slot V)) × Props V := ((r.1, none), r.2)

/-- The return code of a call, and the value that it gives. -/
def withValue (r : Ret × Option (Slot V) × Props V) : (Ret × Option (Slot V)) × Props V :=
  ((r.1, r.2.1), r.2.2)

/-- A call of an array. -/
def call : Op V → (Ret × Option (Slot V)) × Props V
  | .insert index v => noValue (insert o index.toNat v)
  | .set index v => noValue (set o index v)
  | .push v => noValue (push o v)
  | .remove index => noValue (remove o index.toNat)
  | .removeValue v => noValue (removeValue equal o v)
  | .pop => withValue (pop o)
  | .shift => withValue (shift o)
  | .getAndRemove index => withValue (getAndRemove o index.toNat)
  | .reverse => noValue (reverse o)
  | .clearProps => noValue clearProps
  | .foreachProp _ onProp ctx => noValue (foreachProp o onProp ctx)

/-! ## Plain lists -/

/-- Remove one element of a list. -/
def plainRemove (index : Nat) : Ret × Props V :=
  if index < l.length then (.ok, l.eraseIdx index) else (.notFound, l)

/-- Visit a list and remove what the visitor wants to be removed, until it stops. -/
def plainForeach {σ : Type} (onProp : Visit σ V) : σ → Nat → Props V → Ret × Props V
  | _, _, [] => (.ok, [])
  | ctx, i, x :: rest =>
    let (ret, ctx') := onProp ctx i x
    if ret = .remove then plainForeach onProp ctx' (i + 1) rest
    else if DArray.goesOn ret then
      let (ret, rest) := plainForeach onProp ctx' (i + 1) rest
      (ret, x :: rest)
    else (ret, x :: rest)

/-- A call of a plain list. -/
def plain : Op V → (Ret × Option (Slot V)) × Props V
  | .insert index v => ((.ok, none), l.insertIdx (min index.toNat l.length) v)
  | .set index v =>
    if index.toNat < l.length then ((.ok, none), List.set l index.toNat v)
    else if index = 0xffffffff then ((.ok, none), l ++ [v])
    else ((.badParams, none), l)
  | .push v => ((.ok, none), l ++ [v])
  | .remove index => noValue (plainRemove l index.toNat)
  | .removeValue v =>
    match l.findIdx? fun x => equal x v with
    | some i => noValue (plainRemove l i)
    | none => ((.notFound, none), l)
  | .pop => if l = [] then ((.badParams, none), l) else ((.ok, l.getLast?), l.dropLast)
  | .shift => if l = [] then ((.notFound, none), l) else ((.ok, l.head?), l.tail)
  | .getAndRemove index =>
    ((if index.toNat < l.length then .ok else .notFound, l[index.toNat]?), l.eraseIdx index.toNat)
  | .reverse => ((.ok, none), l.reverse)
  | .clearProps => ((.ok, none), [])
  | .foreachProp _ onProp ctx => noValue (plainForeach onProp ctx 0 l)

/-! ## The condition -/

/-- No element is of type `VALUE_TYPE_INVALID` but at the index. -/
def InvalidOnlyAt (index : Nat) : Prop := ∀ j, o[j]? = some none → j = index

/-- What a visitor answers, up to where it stops. -/
def answers {σ : Type} (onProp : Visit σ V) : σ → Nat → Props V → List Ret
  | _, _, [] => []
  | ctx, i, x :: rest =>
    let (ret, ctx') := onProp ctx i x
    if ret = .remove ∨ DArray.goesOn ret then ret :: answers onProp ctx' (i + 1) rest else [ret]

/-- A call that removes an element leaves no other element of type `VALUE_TYPE_INVALID`. -/
def Unmistaken (o : Props V) : Op V → Prop
  | .remove index | .getAndRemove index => index.toNat < o.length → InvalidOnlyAt o index.toNat
  | .removeValue v => ∀ i, (o.findIdx? fun x => equal x v) = some i → InvalidOnlyAt o i
  | .shift => InvalidOnlyAt o 0
  | .foreachProp _ onProp ctx =>
    ∀ j : Nat, o[j]? = some none → (answers onProp ctx 0 o)[j]? = some Ret.remove
  | _ => True

end Calls

/-! ## Removing elements -/

section Lemmas

variable {V σ : Type} {equal : Slot V → Slot V → Bool} {o : Props V} {index : Nat} {v : Slot V}

theorem cleanInvalidProps_eq (o : Props V) : cleanInvalidProps o = o.filter Option.isSome :=
  InPlace.compact_eq_filter Option.isSome o

theorem filter_set_none : ∀ (o : Props V) (index : Nat),
    (List.set o index none).filter Option.isSome = (o.eraseIdx index).filter Option.isSome
  | [], _ => rfl
  | _ :: _, 0 => rfl
  | x :: o, index + 1 => by
    rw [set_cons_succ, eraseIdx_cons_succ, filter_cons, filter_cons, filter_set_none o]

theorem clean_set_iff (o : Props V) (index : Nat) :
    cleanInvalidProps (List.set o index none) = o.eraseIdx index ↔ InvalidOnlyAt o index := by
  rw [cleanInvalidProps_eq, filter_set_none, filter_eq_self]
  constructor
  · intro h j hj
    by_contra hne
    exact absurd (h none (mem_eraseIdx_iff_getElem?.mpr ⟨j, hne, hj⟩)) Bool.false_ne_true
  · intro h x hx
    cases mem_eraseIdx_iff_getElem?.mp hx with
    | intro j hj =>
      cases x with
      | none => exact absurd (h j hj.2) hj.1
      | some x => rfl

theorem getAndRemove_eq_iff :
    withValue (getAndRemove o index) =
      ((if index < o.length then .ok else .notFound, o[index]?), o.eraseIdx index) ↔
      (index < o.length → InvalidOnlyAt o index) := by
  by_cases h : index < o.length
  · simp only [getAndRemove, getElem?_eq_getElem h, withValue, h, if_true, forall_const,
      Prod.mk.injEq, true_and]
    exact clean_set_iff o index
  · rw [getAndRemove, getElem?_eq_none (Nat.not_lt.mp h), if_neg h,
      eraseIdx_of_length_le (Nat.not_lt.mp h)]
    exact iff_of_true rfl fun hlt => absurd hlt h

theorem remove_eq_iff :
    remove o index = plainRemove o index ↔ (index < o.length → InvalidOnlyAt o index) := by
  by_cases h : index < o.length
  · simp only [remove, getAndRemove, getElem?_eq_getElem h, plainRemove, h, if_true, forall_const,
      Prod.mk.injEq, true_and]
    exact clean_set_iff o index
  · rw [remove, getAndRemove, getElem?_eq_none (Nat.not_lt.mp h), plainRemove, if_neg h]
    exact iff_of_true rfl fun hlt => absurd hlt h

/-! ## Visits -/

theorem visitProps_eq (onProp : Visit σ V) (o : Props V) : ∀ (ctx : σ) (i : Nat),
    (visitProps onProp ctx i o).1 = (plainForeach onProp ctx i o).1 ∧
      (visitProps onProp ctx i o).2.filter Option.isSome =
        (plainForeach onProp ctx i o).2.filter Option.isSome := by
  induction o with
  | nil => exact fun ctx i => ⟨rfl, rfl⟩
  | cons x o ih =>
    intro ctx i
    have ih := ih (onProp ctx i x).2 (i + 1)
    simp only [visitProps, plainForeach]
    split_ifs with hremove hgo
    · exact ih
    · exact ⟨ih.1, by rw [filter_cons, filter_cons, ih.2]⟩
    · exact ⟨rfl, rfl⟩

theorem forall_isSome_iff (o : Props V) : (∀ x ∈ o, x.isSome) ↔ ∀ j : Nat, ¬ o[j]? = some none := by
  constructor
  · intro h j hj
    exact absurd (h none (mem_of_getElem? hj)) Bool.false_ne_true
  · intro h x hx
    cases x with
    | none =>
      cases getElem?_of_mem hx with
      | intro j hj => exact absurd hj (h j)
    | some x => rfl

theorem plainForeach_isSome_iff (onProp : Visit σ V) (o : Props V) : ∀ (ctx : σ) (i : Nat),
    (∀ x ∈ (plainForeach onProp ctx i o).2, x.isSome) ↔
      ∀ j : Nat, o[j]? = some none → (answers onProp ctx i o)[j]? = some .remove := by
  induction o with
  | nil =>
    intro ctx i
    exact iff_of_true (fun x hx => nomatch hx) fun j hj => nomatch hj
  | cons x o ih =>
    intro ctx i
    have ih := ih (onProp ctx i x).2 (i + 1)
    rw [← Nat.and_forall_add_one]
    simp only [plainForeach, answers]
    by_cases hremove : (onProp ctx i x).1 = .remove
    · simp [hremove, ih]
    · by_cases hgo : DArray.goesOn (onProp ctx i x).1 = true
      · cases x <;> simp [hremove, hgo, ih]
      · have hrest := forall_isSome_iff o
        cases x <;> simp [hremove, hgo, hrest]

theorem foreachProp_eq_iff (onProp : Visit σ V) (ctx : σ) (o : Props V) :
    foreachProp o onProp ctx = plainForeach onProp ctx 0 o ↔
      ∀ j : Nat, o[j]? = some none → (answers onProp ctx 0 o)[j]? = some .remove := by
  have hvisit := visitProps_eq onProp o ctx 0
  rw [← plainForeach_isSome_iff, ← filter_eq_self, ← hvisit.2, ← cleanInvalidProps_eq, foreachProp,
    Prod.ext_iff]
  cases o with
  | nil => exact iff_of_true ⟨rfl, rfl⟩ rfl
  | cons x o => simp only [length_cons, Nat.zero_lt_succ, if_true, hvisit.1, true_and]

/-! ## The other calls -/

theorem insert_eq (o : Props V) (index : Nat) (v : Slot V) :
    insert o index v = (.ok, o.insertIdx (min index o.length) v) := by
  rw [insert, InPlace.set_shiftUp o none v (Nat.min_le_right _ _)]

theorem push_eq (o : Props V) (v : Slot V) : push o v = (.ok, o ++ [v]) := by
  rw [push, insert_eq, Nat.min_self, InPlace.insertIdx_eq_append v (Nat.le_refl _), take_length,
    drop_length]

theorem reverse_eq (o : Props V) : reverse o = (.ok, o.reverse) := by
  rw [reverse]
  split_ifs with h
  · cases o with
    | nil => rfl
    | cons x o =>
      cases o with
      | nil => rfl
      | cons y o => exact absurd h (by simp)
  · rw [InPlace.turn_eq_reverse]

theorem set_eq (o : Props V) (index : UInt32) (v : Slot V) :
    noValue (set o index v) = plain equal o (.set index v) := by
  rw [set, plain, push_eq]
  split_ifs <;> rfl

theorem pop_eq (o : Props V) : withValue (pop o) = plain equal o .pop := by
  rw [pop, plain]
  cases o with
  | nil => rfl
  | cons x o => rw [getLast?_cons, if_neg (cons_ne_nil x o), withValue]

theorem shift_eq_iff (o : Props V) :
    withValue (shift o) = plain equal o .shift ↔ InvalidOnlyAt o 0 := by
  cases o with
  | nil => exact iff_of_true rfl fun j hj => nomatch hj
  | cons x o =>
    rw [shift, plain, if_neg (cons_ne_nil x o)]
    exact getAndRemove_eq_iff.trans ⟨fun h => h (Nat.zero_lt_succ _), fun h _ => h⟩

theorem noValue_inj {r r' : Ret × Props V} : noValue r = noValue r' ↔ r = r' := by
  simp only [noValue, Prod.ext_iff, and_true]

theorem removeValue_eq_iff (o : Props V) (v : Slot V) :
    noValue (removeValue equal o v) = plain equal o (.removeValue v) ↔
      Unmistaken equal o (.removeValue v) := by
  rw [removeValue, plain, Unmistaken]
  cases hfind : o.findIdx? fun x => equal x v with
  | none => exact iff_of_true rfl fun i hi => absurd hi (by simp)
  | some i =>
    have hlt : i < o.length := (findIdx?_eq_some_iff_getElem.mp hfind).1
    simp only [noValue_inj, remove_eq_iff, hlt, forall_const, Option.some.injEq, forall_eq']

/-! ## Runs -/

theorem call_eq_iff (equal : Slot V → Slot V → Bool) (o : Props V) (op : Op V) :
    call equal o op = plain equal o op ↔ Unmistaken equal o op := by
  cases op with
  | insert index v =>
    rw [call, insert_eq]
    exact iff_of_true rfl trivial
  | set index v => exact iff_of_true (set_eq o index v) trivial
  | push v =>
    rw [call, push_eq]
    exact iff_of_true rfl trivial
  | remove index => exact noValue_inj.trans remove_eq_iff
  | removeValue v => exact removeValue_eq_iff o v
  | pop => exact iff_of_true (pop_eq o) trivial
  | shift => exact shift_eq_iff o
  | getAndRemove index => exact getAndRemove_eq_iff
  | reverse =>
    rw [call, reverse_eq]
    exact iff_of_true rfl trivial
  | clearProps => exact iff_of_true rfl trivial
  | foreachProp σ onProp ctx => exact noValue_inj.trans (foreachProp_eq_iff onProp ctx o)

/-- The calls of a run have the results and the contents of a plain list exactly if none removes an element
by mistake. -/
theorem list_iff (equal : Slot V → Slot V → Bool) (o : Props V) (ops : List (Op V)) :
    replies (call equal) o ops = replies (plain equal) o ops ↔
      Meets (fun o op => some (plain equal o op).2) (Unmistaken equal) o ops :=
  replies_eq_iff (call_eq_iff equal) o ops

/-- Two values of type `VALUE_TYPE_INVALID` are appended and one is removed. -/
theorem remove_removes_both :
    replies (call fun a b : Slot Nat => a == b) [] [.push none, .push none, .remove 0] =
      [((.ok, none), [none]), ((.ok, none), [none, none]), ((.ok, none), [])] ∧
    ¬ ∀ (V : Type) (equal : Slot V → Slot V → Bool) (o : Props V) (ops : List (Op V)),
      replies (call equal) o ops = replies (plain equal) o ops := by
  refine ⟨rfl, fun h => ?_⟩
  have hrun := h Nat (fun a b => a == b) [] [.push none, .push none, .remove 0]
  exact absurd hrun (by decide)

end Lemmas

end ObjectArray

end Awtk
