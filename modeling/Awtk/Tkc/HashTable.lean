import Mathlib
import Awtk.Lib.Run
import Awtk.Tkc.DArray

/-!
# The hash table

A model of `hash_table.c` over `darray.c`, and what a multiset of elements does for the same
calls (`HashTable.Spec`).  The destruction of elements is left out, and there is memory.
-/

namespace Awtk

/-- `hash_table_t`. -/
structure HashTable (α : Type*) where
  buckets : List (List α)
  compare : Compare α
  hash : α → Nat

namespace HashTable

variable {α : Type*}

/-! ## The functions -/

def init (capacity : Nat) (compare : Compare α) (hash : α → Nat) : HashTable α :=
  ⟨List.replicate capacity [], compare, hash⟩

/-- The index of `hash_table_get_array`. -/
def index (t : HashTable α) (ctx : α) : Nat := t.hash ctx % t.buckets.length

def getArray (t : HashTable α) (ctx : α) : List α := t.buckets.getD (t.index ctx) []

/-- A write to the array of an element. -/
def setArray (t : HashTable α) (ctx : α) (xs : List α) : HashTable α :=
  { t with buckets := t.buckets.set (t.index ctx) xs }

/-- `hash_table_find`.  The comparator of the array stands for NULL. -/
def find (t : HashTable α) (cmp : Option (Compare α)) (ctx : α) : Option α :=
  DArray.findEx (cmp.getD t.compare) ctx (t.getArray ctx)

/-- `hash_table_add`. -/
def add (t : HashTable α) (data : α) (replaceIfExist : Bool) : Ret × HashTable α :=
  (.ok, t.setArray data (DArray.sortedInsert t.compare data replaceIfExist (t.getArray data)))

/-- `hash_table_remove`, which does not use the comparator that it is given. -/
def remove (t : HashTable α) (_cmp : Option (Compare α)) (ctx : α) : Ret × HashTable α :=
  let (r, xs) := DArray.removeEx t.compare ctx (t.getArray ctx)
  (r, t.setArray ctx xs)

def removeAll (t : HashTable α) (cmp : Option (Compare α)) (ctx : α) : Ret × HashTable α :=
  (.ok, { t with buckets := t.buckets.map (DArray.removeAll (cmp.getD t.compare) ctx) })

def size (t : HashTable α) : Nat := (t.buckets.map List.length).sum

/-- `hash_table_count`, which makes the comparator that of every array.  NULL is called. -/
def count (t : HashTable α) (cmp : Option (Compare α)) (ctx : α) : Option Nat :=
  cmp.map fun cmp => (t.buckets.map (DArray.count cmp ctx)).sum

def clear (t : HashTable α) : Ret × HashTable α := (.ok, { t with buckets := t.buckets.map fun _ => [] })

/-- The loop of `hash_table_foreach`, with the number of calls of the visitor before. -/
def foreachLoop (visit : Nat → Ret) : Nat → List (List α) → Ret × List α × List (List α)
  | _, [] => (.ok, [], [])
  | n, xs :: buckets =>
    let (r, visited, left) := DArray.foreach visit n xs
    if r = .ok then
      let (r, visited', buckets) := foreachLoop visit (n + visited.length) buckets
      (r, visited ++ visited', left :: buckets)
    else (r, visited, left :: buckets)

/-- `hash_table_foreach`, with the answers of the visitor. -/
def foreach (t : HashTable α) (visit : Nat → Ret) : Ret × List α × HashTable α :=
  let (r, visited, buckets) := foreachLoop visit 0 t.buckets
  (r, visited, { t with buckets })

/-! ## Calls -/

/-- A call of a function. -/
inductive Op (α : Type*) where
  | add (data : α) (replaceIfExist : Bool)
  | remove (cmp : Option (Compare α)) (ctx : α)
  | removeAll (cmp : Option (Compare α)) (ctx : α)
  | clear
  | find (cmp : Option (Compare α)) (ctx : α)
  | count (cmp : Option (Compare α)) (ctx : α)
  | size
  | foreach (visit : Nat → Ret)

/-- What a function returns, and what a visitor was called with. -/
inductive Result (α : Type*) where
  | ret (r : Ret)
  | item (x : Option α)
  | number (n : Nat)
  | visited (r : Ret) (xs : List α)

/-- A call and its result. -/
def exec (t : HashTable α) : Op α → Option (Result α × HashTable α)
  | .add data replaceIfExist => let (r, t) := t.add data replaceIfExist; some (.ret r, t)
  | .remove cmp ctx => let (r, t) := t.remove cmp ctx; some (.ret r, t)
  | .removeAll cmp ctx => let (r, t) := t.removeAll cmp ctx; some (.ret r, t)
  | .clear => let (r, t) := t.clear; some (.ret r, t)
  | .find cmp ctx => some (.item (t.find cmp ctx), t)
  | .count cmp ctx => (t.count cmp ctx).map fun n => (.number n, t)
  | .size => some (.number t.size, t)
  | .foreach visit => let (r, xs, t) := t.foreach visit; some (.visited r xs, t)

def step (t : HashTable α) (op : Op α) : Option (HashTable α) := (t.exec op).map (·.2)

/-! ## Multisets -/

/-- The elements of the table. -/
def contents (t : HashTable α) : Multiset α := (t.buckets.flatten : List α)

/-- What a call does to a multiset of elements, where the first comparator is that of the keys. -/
def Spec (compare : Compare α) (m : Multiset α) : Op α → Result α → Multiset α → Prop
  | .add data replaceIfExist, .ret r, m' =>
    r = .ok ∧
      ((replaceIfExist = true ∧ ∃ x l, m = x ::ₘ l ∧ compare x data = 0 ∧ m' = data ::ₘ l) ∨
        ((replaceIfExist = false ∨ ∀ x ∈ m, compare x data ≠ 0) ∧ m' = data ::ₘ m))
  | .remove cmp ctx, .ret r, m' =>
    (r = .ok ∧ ∃ x, m = x ::ₘ m' ∧ cmp.getD compare x ctx = 0) ∨
      (r = .notFound ∧ (∀ x ∈ m, cmp.getD compare x ctx ≠ 0) ∧ m' = m)
  | .removeAll cmp ctx, .ret r, m' => r = .ok ∧ m' = m.filter fun x => cmp.getD compare x ctx ≠ 0
  | .clear, .ret r, m' => r = .ok ∧ m' = 0
  | .find cmp ctx, .item x, m' =>
    m' = m ∧
      match x with
      | some x => x ∈ m ∧ cmp.getD compare x ctx = 0
      | none => ∀ x ∈ m, cmp.getD compare x ctx ≠ 0
  | .count cmp ctx, .number n, m' => m' = m ∧ n = m.countP fun x => cmp.getD compare x ctx = 0
  | .size, .number n, m' => m' = m ∧ n = m.card
  | .foreach visit, .visited r xs, m' =>
    -- The elements that are visited, the others, and how the visits end.
    (∃ rest : List α, m = (xs ++ rest : List α) ∧ DArray.Ends visit 0 r xs rest) ∧
      m = (DArray.removed visit 0 xs : List α) + m'
  | _, _, _ => False

/-- The table does what the multiset does. -/
def Conforms (t : HashTable α) (op : Op α) : Prop :=
  ∃ r t', t.exec op = some (r, t') ∧ Spec t.compare t.contents op r t'.contents

end HashTable

end Awtk

/-!
## The hash table as a multiset

Every call does to the elements of the table what it does to a multiset, except for a removal
whose comparator does not take the element that the comparator of the table takes, and a count
without a comparator.
-/

namespace Awtk

open DArray

namespace HashTable

variable {α : Type*} {t t' : HashTable α} {cmp : Option (Compare α)} {ctx data x : α}

/-! ## The arrays -/

/-- Equal elements have one hash value. -/
def Compatible (hash : α → Nat) (cmp : Compare α) : Prop := ∀ a b, cmp a b = 0 → hash a = hash b

/-- The arrays are sorted, and every element is in the array of its hash value. -/
structure Inv (t : HashTable α) : Prop where
  buckets : 0 < t.buckets.length
  order : IsOrder t.compare
  compatible : Compatible t.hash t.compare
  sorted : ∀ xs ∈ t.buckets, Sorted t.compare xs
  placed : ∀ i xs, t.buckets[i]? = some xs → ∀ x ∈ xs, t.hash x % t.buckets.length = i

theorem Inv.index_lt (h : Inv t) (ctx : α) : t.index ctx < t.buckets.length := Nat.mod_lt _ h.buckets

theorem Inv.getElem?_index (h : Inv t) (ctx : α) : t.buckets[t.index ctx]? = some (t.getArray ctx) := by
  rw [getArray, List.getD_eq_getElem?_getD, List.getElem?_eq_getElem (h.index_lt ctx), Option.getD_some]

theorem Inv.getArray_mem (h : Inv t) (ctx : α) : t.getArray ctx ∈ t.buckets :=
  List.mem_of_getElem? (h.getElem?_index ctx)

theorem mem_contents : x ∈ t.contents ↔ ∃ xs ∈ t.buckets, x ∈ xs := by
  rw [contents, Multiset.mem_coe, List.mem_flatten]

theorem Inv.mem_getArray (h : Inv t) (ctx : α) (hx : x ∈ t.contents) (hhash : t.hash x = t.hash ctx) :
    x ∈ t.getArray ctx := by
  obtain ⟨xs, hxs, hmem⟩ := mem_contents.mp hx
  obtain ⟨i, hi, rfl⟩ := List.mem_iff_getElem.mp hxs
  have hplaced := h.placed i _ (List.getElem?_eq_getElem hi) x hmem
  rw [hhash] at hplaced
  have hindex : t.index ctx = i := hplaced
  have harray := h.getElem?_index ctx
  rw [hindex, List.getElem?_eq_getElem hi] at harray
  exact Option.some.inj harray ▸ hmem

theorem Inv.mem_contents_of_getArray (h : Inv t) (hx : x ∈ t.getArray ctx) : x ∈ t.contents :=
  mem_contents.mpr ⟨_, h.getArray_mem ctx, hx⟩

/-- The elements of one array and the others. -/
theorem Inv.contents_setArray (h : Inv t) (ctx : α) :
    ∃ rest : Multiset α, t.contents = (t.getArray ctx : Multiset α) + rest ∧
      ∀ xs, (t.setArray ctx xs).contents = (xs : Multiset α) + rest := by
  have hi := h.index_lt ctx
  refine ⟨((t.buckets.take (t.index ctx)).flatten ++ (t.buckets.drop (t.index ctx + 1)).flatten : List α),
    ?_, fun xs => ?_⟩
  · have hsplit : t.buckets = t.buckets.take (t.index ctx) ++
        t.getArray ctx :: t.buckets.drop (t.index ctx + 1) := by
      have hget : t.getArray ctx = t.buckets[t.index ctx] := by
        have harray := h.getElem?_index ctx
        rw [List.getElem?_eq_getElem hi] at harray
        exact (Option.some.inj harray).symm
      rw [hget, ← List.drop_eq_getElem_cons hi, List.take_append_drop]
    rw [contents, Multiset.coe_add]
    refine Multiset.coe_eq_coe.mpr ?_
    conv_lhs => rw [hsplit]
    rw [List.flatten_append, List.flatten_cons, ← List.append_assoc, ← List.append_assoc]
    exact List.Perm.append_right _ List.perm_append_comm
  · have hset : t.buckets.set (t.index ctx) xs = t.buckets.take (t.index ctx) ++
        xs :: t.buckets.drop (t.index ctx + 1) := List.set_eq_take_append_cons_drop ▸ if_pos hi
    rw [contents, Multiset.coe_add, setArray]
    refine Multiset.coe_eq_coe.mpr ?_
    dsimp only
    rw [hset, List.flatten_append, List.flatten_cons, ← List.append_assoc, ← List.append_assoc]
    exact List.Perm.append_right _ List.perm_append_comm

theorem Inv.setArray (h : Inv t) {xs : List α} (hsorted : Sorted t.compare xs)
    (hplaced : ∀ x ∈ xs, t.hash x % t.buckets.length = t.index ctx) : Inv (t.setArray ctx xs) := by
  have hlen : (t.setArray ctx xs).buckets.length = t.buckets.length := List.length_set
  refine ⟨hlen ▸ h.buckets, h.order, h.compatible, fun ys hys => ?_, fun i ys hys y hy => ?_⟩
  · rcases List.mem_or_eq_of_mem_set hys with hys | rfl
    · exact h.sorted ys hys
    · exact hsorted
  · rw [hlen]
    change (t.buckets.set (t.index ctx) xs)[i]? = some ys at hys
    rw [List.getElem?_set] at hys
    split_ifs at hys with heq
    · cases hys
      exact heq ▸ hplaced y hy
    · exact h.placed i ys hys y hy

theorem Inv.sorted_getArray (h : Inv t) (ctx : α) : Sorted t.compare (t.getArray ctx) :=
  h.sorted _ (h.getArray_mem ctx)

theorem Inv.placed_getArray (h : Inv t) (hx : x ∈ t.getArray ctx) :
    t.hash x % t.buckets.length = t.index ctx :=
  h.placed _ _ (h.getElem?_index ctx) x hx

/-! ## Additions and searches -/

theorem add_spec (h : Inv t) (data : α) (replaceIfExist : Bool) :
    Inv (t.add data replaceIfExist).2 ∧ Conforms t (.add data replaceIfExist) := by
  obtain ⟨rest, hcontents, hset⟩ := h.contents_setArray data
  obtain ⟨hsorted, hcases⟩ := sortedInsert_spec h.order (h.sorted_getArray data) data replaceIfExist
  -- The elements of the new array were in the old one, except for the new one.
  have hplaced : ∀ x ∈ sortedInsert t.compare data replaceIfExist (t.getArray data),
      t.hash x % t.buckets.length = t.index data := by
    intro x hx
    rcases hcases with ⟨-, l, y, r, harray, -, hinsert⟩ | ⟨-, l, r, harray, hinsert⟩
    all_goals
      rw [hinsert] at hx
      rcases List.mem_append.mp hx with hx | hx
      · exact h.placed_getArray (by rw [harray]; exact List.mem_append_left _ hx)
      · rcases List.mem_cons.mp hx with rfl | hx
        · rfl
        · refine h.placed_getArray ?_
          rw [harray]
          simp [hx]
  refine ⟨h.setArray hsorted hplaced, _, _, rfl, rfl, ?_⟩
  rw [hset]
  rcases hcases with ⟨hreplace, l, y, r, harray, heq, hinsert⟩ | ⟨hnew, l, r, harray, hinsert⟩
  · refine .inl ⟨hreplace, y, (l ++ r : List α) + rest, ?_, heq, ?_⟩
    · rw [hcontents, harray, ← Multiset.cons_add, Multiset.cons_coe]
      exact congrArg (· + rest) (Multiset.coe_eq_coe.mpr List.perm_middle)
    · rw [hinsert, ← Multiset.cons_add, Multiset.cons_coe]
      exact congrArg (· + rest) (Multiset.coe_eq_coe.mpr List.perm_middle)
  · refine .inr ⟨hnew.imp_right fun hnone x hx heq => ?_, ?_⟩
    · have hmem := h.mem_getArray data hx (h.compatible x data heq)
      exact hnone x hmem heq
    · rw [hinsert, hcontents, harray, ← Multiset.cons_add, Multiset.cons_coe]
      exact congrArg (· + rest) (Multiset.coe_eq_coe.mpr List.perm_middle)

theorem find_spec (h : Inv t) (hcmp : ∀ c ∈ cmp, Compatible t.hash c) (ctx : α) :
    Conforms t (.find cmp ctx) := by
  have hcompatible : Compatible t.hash (cmp.getD t.compare) := by
    cases cmp with
    | none => exact h.compatible
    | some c => exact hcmp c rfl
  refine ⟨_, _, rfl, rfl, ?_⟩
  cases hfind : t.find cmp ctx with
  | none =>
    intro x hx heq
    have hmem := h.mem_getArray ctx hx (hcompatible x ctx heq)
    have hnone := List.find?_eq_none.mp hfind x hmem
    exact hnone (decide_eq_true heq)
  | some x =>
    have hmem := List.mem_of_find?_eq_some hfind
    have heq := List.find?_some hfind
    exact ⟨h.mem_contents_of_getArray hmem, of_decide_eq_true heq⟩

/-! ## Removals -/

theorem remove_cases (h : Inv t) (cmp : Option (Compare α)) (ctx : α) :
    Inv (t.remove cmp ctx).2 ∧
      ((∃ x, findEx t.compare ctx (t.getArray ctx) = some x ∧ (t.remove cmp ctx).1 = .ok ∧
          t.contents = x ::ₘ (t.remove cmp ctx).2.contents) ∨
        (findEx t.compare ctx (t.getArray ctx) = none ∧ (t.remove cmp ctx).1 = .notFound ∧
          (t.remove cmp ctx).2.contents = t.contents)) := by
  obtain ⟨rest, hcontents, hset⟩ := h.contents_setArray ctx
  rcases removeEx_spec t.compare ctx (t.getArray ctx) with
    ⟨l, x, r, harray, heq, hfind, hremove⟩ | ⟨hnone, hfind, hremove⟩
  · have hsub : (l ++ r).Sublist (t.getArray ctx) := by
      rw [harray]
      exact List.Sublist.append_left (List.sublist_cons_self _ _) _
    have htable : t.remove cmp ctx = (.ok, t.setArray ctx (l ++ r)) := by
      rw [remove, hremove]
    rw [htable]
    refine ⟨h.setArray ((h.sorted_getArray ctx).sublist hsub) fun y hy =>
      h.placed_getArray (hsub.subset hy), .inl ⟨x, hfind, rfl, ?_⟩⟩
    rw [hset, hcontents, harray, ← Multiset.cons_add, Multiset.cons_coe]
    exact congrArg (· + rest) (Multiset.coe_eq_coe.mpr List.perm_middle)
  · have htable : t.remove cmp ctx = (.notFound, t.setArray ctx (t.getArray ctx)) := by
      rw [remove, hremove]
    rw [htable]
    refine ⟨h.setArray (h.sorted_getArray ctx) fun y hy => h.placed_getArray hy, .inr ⟨hfind, rfl, ?_⟩⟩
    rw [hset, hcontents]

/-- The comparator of the table and that of the call agree on what is removed. -/
def Agrees (t : HashTable α) (cmp : Option (Compare α)) (ctx : α) : Prop :=
  match findEx t.compare ctx (t.getArray ctx) with
  | some x => cmp.getD t.compare x ctx = 0
  | none => ∀ x ∈ t.contents, cmp.getD t.compare x ctx ≠ 0

theorem remove_conforms_iff (h : Inv t) (cmp : Option (Compare α)) (ctx : α) :
    Conforms t (.remove cmp ctx) ↔ Agrees t cmp ctx := by
  rw [Agrees]
  rcases (remove_cases h cmp ctx).2 with ⟨x, hfind, hret, hcontents⟩ | ⟨hfind, hret, hcontents⟩
  · rw [hfind]
    constructor
    · rintro ⟨r, t', hexec, hspec⟩
      cases hexec
      rcases hspec with ⟨-, y, hy, heq⟩ | ⟨hnot, -, -⟩
      · rw [hcontents] at hy
        have hxy := (Multiset.cons_inj_left _).mp hy
        rw [hxy]
        exact heq
      · have hcontra := hret.symm.trans hnot
        cases hcontra
    · intro heq
      exact ⟨_, _, rfl, .inl ⟨hret, x, hcontents, heq⟩⟩
  · rw [hfind]
    constructor
    · rintro ⟨r, t', hexec, hspec⟩
      cases hexec
      rcases hspec with ⟨hok, -⟩ | ⟨-, hnone, -⟩
      · have hcontra := hret.symm.trans hok
        cases hcontra
      · exact hnone
    · intro hnone
      exact ⟨_, _, rfl, .inr ⟨hret, hnone, hcontents⟩⟩

theorem Inv.sublists (h : Inv t) {buckets : List (List α)}
    (hsub : List.Forall₂ List.Sublist buckets t.buckets) : Inv { t with buckets } := by
  have hlen : buckets.length = t.buckets.length := hsub.length_eq
  have hget : ∀ (i : Nat) (ys : List α), buckets[i]? = some ys → ∃ xs, t.buckets[i]? = some xs ∧ ys.Sublist xs := by
    intro i ys hys
    obtain ⟨hi, rfl⟩ := List.getElem?_eq_some_iff.mp hys
    exact ⟨_, List.getElem?_eq_getElem (hlen ▸ hi), hsub.get hi (hlen ▸ hi)⟩
  refine ⟨hlen ▸ h.buckets, h.order, h.compatible, fun ys hys => ?_, fun i ys hys y hy => ?_⟩
  · obtain ⟨i, hi, rfl⟩ := List.mem_iff_getElem.mp hys
    obtain ⟨xs, hxs, hys⟩ := hget i _ (List.getElem?_eq_getElem hi)
    exact (h.sorted xs (List.mem_of_getElem? hxs)).sublist hys
  · obtain ⟨xs, hxs, hsublist⟩ := hget i ys hys
    rw [hlen]
    exact h.placed i xs hxs y (hsublist.subset hy)

theorem Inv.map (h : Inv t) {f : List α → List α} (hf : ∀ xs, (f xs).Sublist xs) :
    Inv { t with buckets := t.buckets.map f } := by
  refine h.sublists ?_
  rw [List.forall₂_map_left_iff]
  exact List.forall₂_same.mpr fun xs _ => hf xs

theorem removeAll_spec (h : Inv t) (cmp : Option (Compare α)) (ctx : α) :
    Inv (t.removeAll cmp ctx).2 ∧ Conforms t (.removeAll cmp ctx) := by
  refine ⟨h.map fun xs => List.filter_sublist, _, _, rfl, rfl, ?_⟩
  change ((t.buckets.map (DArray.removeAll (cmp.getD t.compare) ctx)).flatten : Multiset α) =
    Multiset.filter _ (t.buckets.flatten : List α)
  rw [Multiset.filter_coe, List.filter_flatten]
  rfl

theorem clear_spec (h : Inv t) : Inv t.clear.2 ∧ Conforms t .clear := by
  refine ⟨h.map fun xs => List.nil_sublist xs, _, _, rfl, rfl, ?_⟩
  change ((t.buckets.map fun _ => ([] : List α)).flatten : Multiset α) = 0
  simp

/-! ## Numbers and visits -/

theorem size_spec (t : HashTable α) : Conforms t .size := by
  refine ⟨_, _, rfl, rfl, ?_⟩
  rw [size, contents, Multiset.coe_card, List.length_flatten]

theorem count_conforms_iff (t : HashTable α) (cmp : Option (Compare α)) (ctx : α) :
    Conforms t (.count cmp ctx) ↔ cmp.isSome = true := by
  cases cmp with
  | none =>
    refine iff_of_false ?_ Bool.false_ne_true
    rintro ⟨r, t', hexec, -⟩
    cases hexec
  | some c =>
    refine iff_of_true ⟨_, _, rfl, rfl, ?_⟩ rfl
    change (t.buckets.map (DArray.count c ctx)).sum = Multiset.countP _ ((t.buckets.flatten : List α) : Multiset α)
    rw [Multiset.coe_countP, List.countP_flatten]
    rfl

theorem Ends.append {visit : Nat → Ret} {r : Ret} {visited rest : List α} {xs : List α} {n : Nat}
    (hall : ∀ i < xs.length, visit (n + i) = .remove ∨ goesOn (visit (n + i)) = true)
    (h : Ends visit (n + xs.length) r visited rest) : Ends visit n r (xs ++ visited) rest := by
  induction xs generalizing n with
  | nil => exact h
  | cons x xs ih =>
    refine Ends.cons (ih (fun i hi => ?_) ?_) (hall 0 (Nat.succ_pos _)) x
    · have hi' := hall (i + 1) (Nat.succ_lt_succ hi)
      rwa [← Nat.add_assoc, Nat.add_right_comm] at hi'
    · rw [List.length_cons, ← Nat.add_assoc, Nat.add_right_comm] at h
      exact h

theorem foreachLoop_spec (visit : Nat → Ret) (n : Nat) (buckets : List (List α)) :
    List.Forall₂ List.Sublist (foreachLoop visit n buckets).2.2 buckets ∧
      ∃ rest, buckets.flatten = (foreachLoop visit n buckets).2.1 ++ rest ∧
        buckets.flatten.Perm (removed visit n (foreachLoop visit n buckets).2.1 ++
          (foreachLoop visit n buckets).2.2.flatten) ∧
        Ends visit n (foreachLoop visit n buckets).1 (foreachLoop visit n buckets).2.1 rest := by
  induction buckets generalizing n with
  | nil =>
    exact ⟨.nil, [], rfl, .refl _, .inl ⟨rfl, rfl, fun i hi => absurd hi (Nat.not_lt_zero i)⟩⟩
  | cons xs buckets ih =>
    obtain ⟨rest, hxs, hperm, hsub, hends⟩ := foreach_spec visit n xs
    rcases hfirst : DArray.foreach visit n xs with ⟨r, visited, left⟩
    rw [hfirst] at hxs hperm hsub hends
    dsimp only at hxs hperm hsub hends
    by_cases hok : r = .ok
    · obtain ⟨hsub', rest', hbuckets, hperm', hends'⟩ := ih (n + visited.length)
      rcases hloop : foreachLoop visit (n + visited.length) buckets with ⟨r', visited', left'⟩
      rw [hloop] at hsub' hbuckets hperm' hends'
      have heq : foreachLoop visit n (xs :: buckets) = (r', visited ++ visited', left :: left') := by
        simp only [foreachLoop, hfirst, hok, if_true, hloop]
      -- Nothing is left of an array whose visits end well.
      obtain ⟨hrest, hall⟩ : rest = [] ∧
          ∀ i < visited.length, visit (n + i) = .remove ∨ goesOn (visit (n + i)) = true := by
        rcases hends with ⟨-, hrest, hall⟩ | ⟨-, -, -, hstop⟩
        · exact ⟨hrest, hall⟩
        · rw [hok] at hstop
          cases hstop
      subst hrest
      rw [heq]
      refine ⟨.cons hsub hsub', rest', ?_, ?_, Ends.append hall hends'⟩
      · rw [List.flatten_cons, hbuckets]
        conv_lhs => rw [hxs]
        simp
      · rw [List.flatten_cons, List.flatten_cons, removed_append, List.append_assoc]
        refine (hperm.append hperm').trans ?_
        rw [List.append_assoc]
        refine List.Perm.append_left _ ?_
        rw [← List.append_assoc, ← List.append_assoc]
        exact List.Perm.append_right _ List.perm_append_comm
    · have heq : foreachLoop visit n (xs :: buckets) = (r, visited, left :: buckets) := by
        simp only [foreachLoop, hfirst, hok, if_false]
      rw [heq]
      refine ⟨.cons hsub (List.forall₂_same.mpr fun _ _ => .refl _), rest ++ buckets.flatten, ?_, ?_, ?_⟩
      · rw [List.flatten_cons, ← List.append_assoc, ← hxs]
      · rw [List.flatten_cons, List.flatten_cons, ← List.append_assoc]
        exact hperm.append_right _
      · rcases hends with ⟨hr, -⟩ | hstop
        · exact absurd hr hok
        · exact .inr hstop

theorem foreach_conforms (h : Inv t) (visit : Nat → Ret) :
    Inv (t.foreach visit).2.2 ∧ Conforms t (.foreach visit) := by
  obtain ⟨hsub, rest, hbuckets, hperm, hends⟩ := foreachLoop_spec visit 0 t.buckets
  refine ⟨h.sublists hsub, _, _, rfl, ⟨rest, congrArg _ hbuckets, hends⟩, ?_⟩
  exact (Multiset.coe_eq_coe.mpr hperm).trans (Multiset.coe_add _ _).symm

/-! ## Whole runs -/

/-- The comparator that elements are looked for with is compatible with the hash function. -/
def Op.Compatible (hash : α → Nat) : Op α → Prop
  | .find cmp _ | .remove cmp _ => ∀ c ∈ cmp, HashTable.Compatible hash c
  | _ => True

/-- A removal whose comparator agrees with that of the table, and a count with a comparator. -/
def Agreed (t : HashTable α) : Op α → Prop
  | .remove cmp ctx => Agrees t cmp ctx
  | .count cmp _ => cmp.isSome = true
  | _ => True

theorem exec_same {op : Op α} (hstep : step t op = some t') :
    t'.compare = t.compare ∧ t'.hash = t.hash := by
  obtain ⟨⟨r, t''⟩, hexec, rfl⟩ := Option.map_eq_some_iff.mp hstep
  cases op with
  | count cmp ctx =>
    obtain ⟨n, -, hn⟩ := Option.map_eq_some_iff.mp hexec
    cases hn
    exact ⟨rfl, rfl⟩
  | _ =>
    cases hexec
    exact ⟨rfl, rfl⟩

theorem inv_step (h : Inv t) {op : Op α} (hstep : step t op = some t') : Inv t' := by
  obtain ⟨⟨r, t''⟩, hexec, rfl⟩ := Option.map_eq_some_iff.mp hstep
  cases op with
  | add data replaceIfExist =>
    cases hexec
    exact (add_spec h data replaceIfExist).1
  | remove cmp ctx =>
    cases hexec
    exact (remove_cases h cmp ctx).1
  | removeAll cmp ctx =>
    cases hexec
    exact (removeAll_spec h cmp ctx).1
  | clear =>
    cases hexec
    exact (clear_spec h).1
  | find cmp ctx =>
    cases hexec
    exact h
  | count cmp ctx =>
    obtain ⟨n, -, hn⟩ := Option.map_eq_some_iff.mp hexec
    cases hn
    exact h
  | size =>
    cases hexec
    exact h
  | foreach visit =>
    cases hexec
    exact (foreach_conforms h visit).1

theorem conforms_iff (h : Inv t) {op : Op α} (hop : op.Compatible t.hash) : Conforms t op ↔ Agreed t op := by
  cases op with
  | add data replaceIfExist => exact iff_of_true (add_spec h data replaceIfExist).2 trivial
  | remove cmp ctx => exact remove_conforms_iff h cmp ctx
  | removeAll cmp ctx => exact iff_of_true (removeAll_spec h cmp ctx).2 trivial
  | clear => exact iff_of_true (clear_spec h).2 trivial
  | find cmp ctx => exact iff_of_true (find_spec h hop ctx) trivial
  | count cmp ctx => exact count_conforms_iff t cmp ctx
  | size => exact iff_of_true (size_spec t) trivial
  | foreach visit => exact iff_of_true (foreach_conforms h visit).2 trivial

theorem inv_init {capacity : Nat} (hcapacity : 0 < capacity) {compare : Compare α} (horder : IsOrder compare)
    {hash : α → Nat} (hhash : Compatible hash compare) : Inv (init capacity compare hash) := by
  have hlen : (init capacity compare hash).buckets.length = capacity := List.length_replicate
  refine ⟨by rw [hlen]; exact hcapacity, horder, hhash, fun xs hxs => ?_, fun i xs hxs x hx => ?_⟩
  · rw [List.eq_of_mem_replicate hxs]
    exact List.Pairwise.nil
  · rw [List.eq_of_mem_replicate (List.mem_of_getElem? hxs)] at hx
    cases hx

/-- No key has two elements. -/
def AtMostOne (compare : Compare α) (m : Multiset α) : Prop :=
  ∀ key, (m.countP fun x => compare x key = 0) ≤ 1

theorem atMostOne_add {compare : Compare α} (horder : IsOrder compare) {m m' : Multiset α} {r : Result α}
    (h : Spec compare m (.add data true) r m') (hm : AtMostOne compare m) : AtMostOne compare m' := by
  intro key
  have hkey := hm key
  cases r with
  | ret r =>
    obtain ⟨-, ⟨-, x, l, rfl, heq, rfl⟩ | ⟨hnew, rfl⟩⟩ := h
    · rw [Multiset.countP_cons] at hkey ⊢
      simpa only [horder.eq_congr heq key] using hkey
    · have hnone : ∀ x ∈ m, compare x data ≠ 0 := hnew.resolve_left (by decide)
      rw [Multiset.countP_cons]
      by_cases hdata : compare data key = 0
      · have hzero : m.countP (fun x => compare x key = 0) = 0 := by
          refine Multiset.countP_eq_zero.mpr fun x hx hxkey => hnone x hx ?_
          exact horder.eq_comm.mp ((horder.eq_congr hdata x).mpr (horder.eq_comm.mp hxkey))
        rw [hzero, if_pos hdata]
      · rw [if_neg hdata]
        exact hkey
  | item x => exact h.elim
  | number n => exact h.elim
  | visited r xs => exact h.elim

/-- Two numbers are compared by their last digits. -/
def compareDigit : Compare Nat := fun a b => (a % 10 : Nat) - (b % 10 : Nat)

def compareNat : Compare Nat := fun a b => (a : Int) - b

theorem isOrder_compareNat : IsOrder compareNat := by
  refine ⟨fun a b => ?_, fun a b c hab hbc => ?_⟩
  · simp only [compareNat]
    omega
  · simp only [compareNat] at *
    omega

end HashTable

end Awtk
