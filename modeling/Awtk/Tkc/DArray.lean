import Mathlib
import Awtk.Tkc.Types

/-!
# Dynamic arrays

The functions of `darray.c` that look for elements, on the list of the elements.  A comparator
gives a negative number, zero or a positive number.
-/

namespace Awtk

open List

/-- `tk_compare_t`. -/
abbrev Compare (α : Type*) := α → α → Int

namespace DArray

variable {α : Type*}

/-! ## The functions -/

def findEx (cmp : Compare α) (ctx : α) (xs : List α) : Option α := xs.find? fun x => cmp x ctx = 0

def removeEx (cmp : Compare α) (ctx : α) (xs : List α) : Ret × List α :=
  match xs.findIdx? fun x => cmp x ctx = 0 with
  | none => (.notFound, xs)
  | some i => (.ok, xs.eraseIdx i)

def removeAll (cmp : Compare α) (ctx : α) (xs : List α) : List α := xs.filter fun x => cmp x ctx ≠ 0

def count (cmp : Compare α) (ctx : α) (xs : List α) : Nat := xs.countP fun x => cmp x ctx = 0

/-- The loop of `darray_bsearch_index_ex`, where `high` is one more than in the source.  The element
is found, or it belongs at an index. -/
def bsearchLoop (cmp : Compare α) (ctx : α) (xs : List α) : Nat → Nat → Nat → Nat ⊕ Nat
  | 0, low, _ => .inr low
  | fuel + 1, low, high =>
    if low < high then
      let mid := low + (high - 1 - low) / 2
      match xs[mid]? with
      | none => .inr low
      | some x =>
        if cmp x ctx = 0 then .inl mid
        else if cmp x ctx < 0 then bsearchLoop cmp ctx xs fuel (mid + 1) high
        else bsearchLoop cmp ctx xs fuel low mid
    else .inr low

def bsearchIndexEx (cmp : Compare α) (ctx : α) (xs : List α) : Nat ⊕ Nat :=
  bsearchLoop cmp ctx xs xs.length 0 xs.length

def insert (xs : List α) (index : Nat) (data : α) : List α :=
  let index := min index xs.length
  xs.take index ++ data :: xs.drop index

def sortedInsert (cmp : Compare α) (data : α) (replaceIfExist : Bool) (xs : List α) : List α :=
  match bsearchIndexEx cmp data xs with
  | .inl i => if replaceIfExist then xs.set i data else insert xs (i + 1) data
  | .inr low => insert xs low data

/-- What `TK_FOREACH_VISIT_RESULT_PROCESSING` does with an answer: go on, remove or stop. -/
def goesOn (r : Ret) : Bool := r = .ok || r = .continue || r = .skip || r = .repeat

/-- The loop of `darray_foreach`, with the number of calls of the visitor before: the code that
is returned, the elements that were visited and those that are left. -/
def foreach (visit : Nat → Ret) : Nat → List α → Ret × List α × List α
  | _, [] => (.ok, [], [])
  | n, x :: xs =>
    if visit n = .remove then
      let (r, visited, left) := foreach visit (n + 1) xs
      (r, x :: visited, left)
    else if goesOn (visit n) then
      let (r, visited, left) := foreach visit (n + 1) xs
      (r, x :: visited, x :: left)
    else (visit n, [x], x :: xs)

/-! ## Orders -/

/-- A comparator that orders the elements.  Different elements may be equal. -/
structure IsOrder (cmp : Compare α) : Prop where
  swap : ∀ a b, cmp a b < 0 ↔ 0 < cmp b a
  trans : ∀ a b c, cmp a b ≤ 0 → cmp b c ≤ 0 → cmp a c ≤ 0

namespace IsOrder

variable {cmp : Compare α} {a b c : α}

theorem le_total (h : IsOrder cmp) : 0 ≤ cmp a b ↔ cmp b a ≤ 0 := by
  have hswap := h.swap a b
  omega

theorem eq_comm (h : IsOrder cmp) : cmp a b = 0 ↔ cmp b a = 0 := by
  have hab := h.swap a b
  have hba := h.swap b a
  omega

theorem lt_of_le_of_lt (h : IsOrder cmp) (hab : cmp a b ≤ 0) (hbc : cmp b c < 0) : cmp a c < 0 := by
  by_contra hac
  have hca : cmp c a ≤ 0 := h.le_total.mp (by omega)
  have hcb := h.trans c a b hca hab
  have hgt := (h.swap b c).mp hbc
  omega

theorem lt_of_lt_of_le (h : IsOrder cmp) (hab : cmp a b < 0) (hbc : cmp b c ≤ 0) : cmp a c < 0 := by
  by_contra hac
  have hca : cmp c a ≤ 0 := h.le_total.mp (by omega)
  have hba := h.trans b c a hbc hca
  have hgt := (h.swap a b).mp hab
  omega

theorem eq_congr (h : IsOrder cmp) (hab : cmp a b = 0) (c : α) : cmp a c = 0 ↔ cmp b c = 0 := by
  have hba := h.eq_comm.mp hab
  constructor
  · intro hac
    have hca := h.eq_comm.mp hac
    have hle := h.trans b a c (by omega) (by omega)
    have hge := h.trans c a b (by omega) (by omega)
    have htotal := h.le_total (a := b) (b := c)
    omega
  · intro hbc
    have hcb := h.eq_comm.mp hbc
    have hle := h.trans a b c (by omega) (by omega)
    have hge := h.trans c b a (by omega) (by omega)
    have htotal := h.le_total (a := a) (b := c)
    omega

end IsOrder

/-- The order of the elements of an array. -/
def Sorted (cmp : Compare α) (xs : List α) : Prop := xs.Pairwise fun a b => cmp a b ≤ 0

variable {cmp : Compare α} {ctx data : α} {xs : List α}

theorem Sorted.getElem_le (h : Sorted cmp xs) {i j : Nat} (hij : i < j) {hi : i < xs.length}
    (hj : j < xs.length) : cmp xs[i] xs[j] ≤ 0 :=
  pairwise_iff_getElem.mp h i j hi hj hij

/-! ## The search -/

/-- What is known of the elements in front of an index and from an index on. -/
structure Window (cmp : Compare α) (ctx : α) (xs : List α) (low high : Nat) : Prop where
  bound : high ≤ xs.length
  less : ∀ i (hi : i < xs.length), i < low → cmp xs[i] ctx < 0
  greater : ∀ i (hi : i < xs.length), high ≤ i → 0 < cmp xs[i] ctx

/-- The element is found, or the window is empty. -/
theorem bsearchLoop_spec (hcmp : IsOrder cmp) (h : Sorted cmp xs) {fuel low high : Nat}
    (hlow : low ≤ high) (hfuel : high - low ≤ fuel) (hwindow : Window cmp ctx xs low high) :
    (∃ i, ∃ hi : i < xs.length, bsearchLoop cmp ctx xs fuel low high = .inl i ∧ cmp xs[i] ctx = 0) ∨
      ∃ i, bsearchLoop cmp ctx xs fuel low high = .inr i ∧ Window cmp ctx xs i i := by
  induction fuel generalizing low high with
  | zero =>
    have heq : high = low := by omega
    subst heq
    exact .inr ⟨high, rfl, hwindow⟩
  | succ fuel ih =>
    rw [bsearchLoop]
    by_cases hlt : low < high
    · rw [if_pos hlt]
      have hbound := hwindow.bound
      have hmid : low + (high - 1 - low) / 2 < xs.length := by omega
      generalize hm : low + (high - 1 - low) / 2 = mid at hmid ⊢
      dsimp only
      rw [getElem?_eq_getElem hmid]
      dsimp only
      by_cases heq : cmp xs[mid] ctx = 0
      · rw [if_pos heq]
        exact .inl ⟨mid, hmid, rfl, heq⟩
      · rw [if_neg heq]
        split_ifs with hless
        · refine ih (by omega) (by omega) ⟨hbound, fun i hi hlow => ?_, hwindow.greater⟩
          rcases Nat.lt_or_eq_of_le (Nat.le_of_lt_succ hlow) with hi' | rfl
          · exact hcmp.lt_of_le_of_lt (h.getElem_le hi' hmid) hless
          · exact hless
        · refine ih (by omega) (by omega) ⟨by omega, hwindow.less, fun i hi hge => ?_⟩
          have hgreater : 0 < cmp xs[mid] ctx := by omega
          rcases Nat.lt_or_eq_of_le hge with hi' | rfl
          · have hlt' := (hcmp.swap ctx xs[mid]).mpr hgreater
            exact (hcmp.swap _ _).mp (hcmp.lt_of_lt_of_le hlt' (h.getElem_le hi' hi))
          · exact hgreater
    · rw [if_neg hlt]
      have heq : high = low := by omega
      subst heq
      exact .inr ⟨high, rfl, hwindow⟩

theorem bsearchIndexEx_spec (hcmp : IsOrder cmp) (h : Sorted cmp xs) (ctx : α) :
    (∃ i, ∃ hi : i < xs.length, bsearchIndexEx cmp ctx xs = .inl i ∧ cmp xs[i] ctx = 0) ∨
      ∃ i, bsearchIndexEx cmp ctx xs = .inr i ∧ Window cmp ctx xs i i :=
  bsearchLoop_spec hcmp h (Nat.zero_le _) (Nat.le_refl _)
    ⟨Nat.le_refl _, fun _ _ hlt => absurd hlt (Nat.not_lt_zero _),
      fun _ hi hge => absurd hi (Nat.not_lt.mpr hge)⟩

theorem Window.take_le {i : Nat} (h : Window cmp ctx xs i i) {x : α} (hx : x ∈ xs.take i) :
    cmp x ctx < 0 := by
  obtain ⟨j, hj, rfl⟩ := mem_iff_getElem.mp hx
  rw [length_take] at hj
  rw [getElem_take]
  exact h.less j (by omega) (by omega)

theorem Window.drop_ge {i : Nat} (h : Window cmp ctx xs i i) {x : α} (hx : x ∈ xs.drop i) :
    0 < cmp x ctx := by
  obtain ⟨j, hj, rfl⟩ := mem_iff_getElem.mp hx
  rw [length_drop] at hj
  rw [getElem_drop]
  exact h.greater (i + j) (by omega) (Nat.le_add_right i j)

theorem Window.ne {i : Nat} (h : Window cmp ctx xs i i) {x : α} (hx : x ∈ xs) : cmp x ctx ≠ 0 := by
  rw [← take_append_drop i xs] at hx
  rcases mem_append.mp hx with hx | hx
  · have hless := h.take_le hx
    omega
  · have hgreater := h.drop_ge hx
    omega

/-! ## The sorted insertion -/

theorem sorted_insert {l r : List α} (h : Sorted cmp (l ++ r))
    (hl : ∀ x ∈ l, cmp x data ≤ 0) (hr : ∀ x ∈ r, cmp data x ≤ 0) : Sorted cmp (l ++ data :: r) := by
  obtain ⟨hleft, hright, hboth⟩ := pairwise_append.mp h
  refine pairwise_append.mpr ⟨hleft, pairwise_cons.mpr ⟨hr, hright⟩, fun x hx y hy => ?_⟩
  rcases mem_cons.mp hy with rfl | hy
  · exact hl x hx
  · exact hboth x hx y hy

/-- What a sorted insertion does: it replaces an equal element, or it puts the new one between
the others. -/
theorem sortedInsert_spec (hcmp : IsOrder cmp) (h : Sorted cmp xs) (data : α) (replaceIfExist : Bool) :
    Sorted cmp (sortedInsert cmp data replaceIfExist xs) ∧
      ((replaceIfExist = true ∧ ∃ l x r, xs = l ++ x :: r ∧ cmp x data = 0 ∧
          sortedInsert cmp data replaceIfExist xs = l ++ data :: r) ∨
        ((replaceIfExist = false ∨ ∀ x ∈ xs, cmp x data ≠ 0) ∧ ∃ l r, xs = l ++ r ∧
          sortedInsert cmp data replaceIfExist xs = l ++ data :: r)) := by
  rcases bsearchIndexEx_spec hcmp h data with ⟨i, hi, hsearch, heq⟩ | ⟨i, hsearch, hwindow⟩
  · have hsplit : xs = xs.take i ++ xs[i] :: xs.drop (i + 1) := by
      rw [← drop_eq_getElem_cons hi, take_append_drop]
    have hdata := hcmp.eq_comm.mp heq
    have hparts := h
    rw [hsplit] at hparts
    obtain ⟨-, hright, hboth⟩ := pairwise_append.mp hparts
    have hl : ∀ x ∈ xs.take i, cmp x data ≤ 0 := fun x hx =>
      hcmp.trans x _ data (hboth x hx _ mem_cons_self) (by omega)
    have hr : ∀ x ∈ xs.drop (i + 1), cmp data x ≤ 0 := fun x hx =>
      hcmp.trans data _ x (by omega) (rel_of_pairwise_cons hright hx)
    rw [sortedInsert, hsearch]
    dsimp only
    cases replaceIfExist with
    | true =>
      have hset : xs.set i data = xs.take i ++ data :: xs.drop (i + 1) := set_eq_take_append_cons_drop ▸ if_pos hi
      rw [if_pos rfl, hset]
      have hrest : Sorted cmp (xs.take i ++ xs.drop (i + 1)) := by
        refine hparts.sublist ?_
        exact Sublist.append_left (sublist_cons_self _ _) _
      exact ⟨sorted_insert hrest hl hr, .inl ⟨rfl, _, _, _, hsplit, heq, rfl⟩⟩
    | false =>
      have htake : xs.take (i + 1) = xs.take i ++ [xs[i]] := take_succ_eq_append_getElem hi
      have hparts' : Sorted cmp (xs.take (i + 1) ++ xs.drop (i + 1)) := by
        rwa [take_append_drop]
      have hl' : ∀ x ∈ xs.take (i + 1), cmp x data ≤ 0 := by
        intro x hx
        rw [htake] at hx
        rcases mem_append.mp hx with hx | hx
        · exact hl x hx
        · rw [mem_singleton.mp hx]
          omega
      have hne : ¬(false : Bool) = true := Bool.false_ne_true
      rw [if_neg hne, insert, Nat.min_eq_left hi]
      exact ⟨sorted_insert hparts' hl' hr,
        .inr ⟨.inl rfl, _, _, (take_append_drop (i + 1) xs).symm, rfl⟩⟩
  · rw [sortedInsert, hsearch]
    dsimp only
    have hi := hwindow.bound
    rw [insert, Nat.min_eq_left hi]
    refine ⟨?_, .inr ⟨.inr fun x hx => hwindow.ne hx, xs.take i, xs.drop i,
      (take_append_drop i xs).symm, rfl⟩⟩
    refine sorted_insert (by rwa [take_append_drop])
      (fun x hx => Int.le_of_lt (hwindow.take_le hx)) fun x hx => ?_
    have hswap := (hcmp.swap data x).mpr (hwindow.drop_ge hx)
    omega

/-! ## The removal -/

theorem removeEx_spec (cmp : Compare α) (ctx : α) (xs : List α) :
    (∃ l x r, xs = l ++ x :: r ∧ cmp x ctx = 0 ∧ findEx cmp ctx xs = some x ∧
        removeEx cmp ctx xs = (.ok, l ++ r)) ∨
      ((∀ x ∈ xs, cmp x ctx ≠ 0) ∧ findEx cmp ctx xs = none ∧ removeEx cmp ctx xs = (.notFound, xs)) := by
  induction xs with
  | nil => exact .inr ⟨fun x hx => (by cases hx), rfl, rfl⟩
  | cons x xs ih =>
    rw [findEx, find?_cons, removeEx, findIdx?_cons]
    by_cases heq : cmp x ctx = 0
    · rw [decide_eq_true heq]
      exact .inl ⟨[], x, xs, rfl, heq, rfl, rfl⟩
    · rw [decide_eq_false heq]
      rw [findEx, removeEx] at ih
      rcases ih with ⟨l, y, r, rfl, hy, hfind, hremove⟩ | ⟨hnone, hfind, hremove⟩
      · refine .inl ⟨x :: l, y, r, rfl, hy, hfind, ?_⟩
        cases hidx : (l ++ y :: r).findIdx? (fun x => cmp x ctx = 0) with
        | none =>
          rw [hidx] at hremove
          cases hremove
        | some i =>
          rw [hidx] at hremove
          injection hremove with _ herase
          exact congrArg (fun ys => (Ret.ok, x :: ys)) herase
      · refine .inr ⟨fun y hy => ?_, hfind, ?_⟩
        · rcases mem_cons.mp hy with rfl | hy
          · exact heq
          · exact hnone y hy
        · cases hidx : xs.findIdx? (fun x => cmp x ctx = 0) with
          | none => rfl
          | some i =>
            rw [hidx] at hremove
            cases hremove

/-! ## The visits -/

/-- The elements whose visit is answered by a removal. -/
def removed (visit : Nat → Ret) (n : Nat) (xs : List α) : List α :=
  ((xs.zipIdx n).filter fun x => visit x.2 = .remove).map (·.1)

theorem removed_cons (visit : Nat → Ret) (n : Nat) (x : α) (xs : List α) :
    removed visit n (x :: xs) =
      if visit n = .remove then x :: removed visit (n + 1) xs else removed visit (n + 1) xs := by
  rw [removed, zipIdx_cons, filter_cons]
  by_cases hremove : visit n = .remove
  · rw [if_pos hremove, if_pos (decide_eq_true hremove)]
    rfl
  · rw [if_neg hremove, if_neg (by simpa using hremove)]
    rfl

theorem removed_append (visit : Nat → Ret) (n : Nat) (xs ys : List α) :
    removed visit n (xs ++ ys) = removed visit n xs ++ removed visit (n + xs.length) ys := by
  rw [removed, zipIdx_append, filter_append, map_append]
  rfl

/-- How the visits end: all elements were visited, or the last answer stopped the visitor. -/
def Ends (visit : Nat → Ret) (n : Nat) (r : Ret) (visited rest : List α) : Prop :=
  (r = .ok ∧ rest = [] ∧ ∀ i < visited.length, visit (n + i) = .remove ∨ goesOn (visit (n + i)) = true) ∨
    (0 < visited.length ∧ r = visit (n + visited.length - 1) ∧ r ≠ .remove ∧ goesOn r = false)

theorem Ends.cons {visit : Nat → Ret} {n : Nat} {r : Ret} {visited rest : List α}
    (h : Ends visit (n + 1) r visited rest) (hn : visit n = .remove ∨ goesOn (visit n) = true) (x : α) :
    Ends visit n r (x :: visited) rest := by
  rcases h with ⟨hr, hrest, hall⟩ | ⟨hpos, hr, hstop⟩
  · refine .inl ⟨hr, hrest, fun i hi => ?_⟩
    cases i with
    | zero => exact hn
    | succ i =>
      have hi' := hall i (Nat.lt_of_succ_lt_succ hi)
      rwa [Nat.add_right_comm] at hi'
  · refine .inr ⟨Nat.succ_pos _, ?_, hstop⟩
    rw [hr, length_cons]
    congr 1
    omega

theorem foreach_spec (visit : Nat → Ret) (n : Nat) (xs : List α) :
    ∃ rest, xs = (foreach visit n xs).2.1 ++ rest ∧
      xs.Perm (removed visit n (foreach visit n xs).2.1 ++ (foreach visit n xs).2.2) ∧
      (foreach visit n xs).2.2.Sublist xs ∧
      Ends visit n (foreach visit n xs).1 (foreach visit n xs).2.1 rest := by
  induction xs generalizing n with
  | nil => exact ⟨[], rfl, .refl _, .refl _, .inl ⟨rfl, rfl, fun i hi => absurd hi (Nat.not_lt_zero i)⟩⟩
  | cons x xs ih =>
    obtain ⟨rest, hxs, hperm, hsub, hends⟩ := ih (n + 1)
    rw [foreach]
    by_cases hremove : visit n = .remove
    · rw [if_pos hremove]
      refine ⟨rest, congrArg (x :: ·) hxs, ?_, hsub.cons x, hends.cons (.inl hremove) x⟩
      rw [removed_cons, if_pos hremove]
      exact hperm.cons x
    · rw [if_neg hremove]
      split_ifs with hgoes
      · refine ⟨rest, congrArg (x :: ·) hxs, ?_, hsub.cons_cons x, hends.cons (.inr hgoes) x⟩
        rw [removed_cons, if_neg hremove]
        exact (hperm.cons x).trans perm_middle.symm
      · refine ⟨xs, rfl, ?_, .refl _, .inr ⟨Nat.one_pos, rfl, hremove, Bool.not_eq_true _ |>.mp hgoes⟩⟩
        rw [removed_cons, if_neg hremove]
        exact .refl _

end DArray

end Awtk
