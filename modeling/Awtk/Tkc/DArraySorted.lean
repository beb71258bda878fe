import Mathlib
import Awtk.Tkc.DArray

/-!
# Sorted dynamic arrays

The search and the sorted insertion of `darray.c` as they are written, with signed indices, the place
that the search stores through its pointer, the element that a replacement destroys, and an insertion
that finds no room.  On a sorted array the search finds an equal element or the only place that a new
one has, and the insertion keeps the order (`sortedContract`).
-/

namespace Awtk.DArray

open List

variable {α : Type*}

/-! ## The functions -/

/-- The loop of `darray_bsearch_index_ex`, with the result and the `low` at its end. -/
def searchLoop (cmp : Compare α) (ctx : α) (xs : List α) : Nat → Int → Int → Int × Int
  | 0, low, _ => (-1, low)
  | fuel + 1, low, high =>
    if low ≤ high then
      let mid := low + (high - low) >>> (1 : Nat)
      match xs[mid.toNat]? with
      | none => (-1, low)
      | some iter =>
        let result := cmp iter ctx
        if result = 0 then (mid, low)
        else if result < 0 then searchLoop cmp ctx xs fuel (mid + 1) high
        else searchLoop cmp ctx xs fuel low (mid - 1)
    else (-1, low)

/-- `darray_bsearch_index_ex`, with `*ret_low` where it is set. -/
def bsearchIndex (cmp : Compare α) (ctx : α) (xs : List α) : Int × Option Int :=
  if xs.length = 0 then (-1, some 0)
  else
    let (index, low) := searchLoop cmp ctx xs xs.length 0 (xs.length - 1)
    (index, if index = -1 then some low else none)

/-- What a function on an array returns, the elements behind it, and those it has destroyed. -/
structure Reply (α : Type*) where
  ret : Ret
  elms : List α
  destroyed : List α

/-- `darray_insert`.  `room` says whether `darray_auto_extend` makes room. -/
def insertAt (room : Bool) (xs : List α) (index : Nat) (data : α) : Reply α :=
  if room then ⟨.ok, insert xs index data, []⟩ else ⟨.oom, xs, []⟩

def push (room : Bool) (xs : List α) (data : α) : Reply α := insertAt room xs xs.length data

def replace (xs : List α) (index : Nat) (data : α) : Reply α :=
  match xs[index]? with
  | some old => ⟨.ok, xs.set index data, [old]⟩
  | none => ⟨.badParams, xs, []⟩

/-- `darray_sorted_insert`. -/
def sortedInsertEx (cmp : Compare α) (room : Bool) (xs : List α) (data : α)
    (replaceIfExist : Bool) : Reply α :=
  if xs.length = 0 then push room xs data
  else
    let (index, low) := bsearchIndex cmp data xs
    if 0 ≤ index ∧ replaceIfExist = true then replace xs index.toNat data
    else
      let index := if 0 ≤ index then index + 1 else low.getD 0
      if (xs.length : Int) ≤ index then push room xs data
      else insertAt room xs index.toNat data

variable {cmp : Compare α} {ctx data : α} {xs : List α}

instance (cmp : Compare α) (xs : List α) : Decidable (Sorted cmp xs) :=
  inferInstanceAs (Decidable (xs.Pairwise fun a b => cmp a b ≤ 0))

/-! ## The search -/

/-- The loop is the one whose upper bound is one more. -/
theorem searchLoop_cases (cmp : Compare α) (ctx : α) (xs : List α) (fuel low high : Nat) :
    (∃ (i : Nat) (end' : Int), bsearchLoop cmp ctx xs fuel low high = .inl i ∧
        searchLoop cmp ctx xs fuel low ((high : Int) - 1) = ((i : Int), end')) ∨
      ∃ i : Nat, bsearchLoop cmp ctx xs fuel low high = .inr i ∧
        searchLoop cmp ctx xs fuel low ((high : Int) - 1) = (-1, (i : Int)) := by
  induction fuel generalizing low high with
  | zero => exact .inr ⟨low, rfl, rfl⟩
  | succ fuel ih =>
    rw [searchLoop, bsearchLoop]
    by_cases hlt : low < high
    · have hmid : (low : Int) + ((high : Int) - 1 - low) >>> (1 : Nat) =
          ((low + (high - 1 - low) / 2 : Nat) : Int) := by
        rw [Int.shiftRight_eq_div_pow]
        omega
      rw [if_pos hlt, if_pos (show (low : Int) ≤ (high : Int) - 1 by omega)]
      simp only [hmid, Int.toNat_natCast]
      generalize low + (high - 1 - low) / 2 = mid
      cases xs[mid]? with
      | none => exact .inr ⟨low, rfl, rfl⟩
      | some iter =>
        simp only
        by_cases heq : cmp iter ctx = 0
        · rw [if_pos heq, if_pos heq]
          exact .inl ⟨mid, low, rfl, rfl⟩
        · rw [if_neg heq, if_neg heq]
          by_cases hless : cmp iter ctx < 0
          · rw [if_pos hless, if_pos hless]
            exact ih (mid + 1) high
          · rw [if_neg hless, if_neg hless]
            exact ih low mid
    · rw [if_neg hlt, if_neg (show ¬(low : Int) ≤ (high : Int) - 1 by omega)]
      exact .inr ⟨low, rfl, rfl⟩

theorem bsearchIndex_cases (cmp : Compare α) (ctx : α) (xs : List α) :
    (∃ i : Nat, bsearchIndexEx cmp ctx xs = .inl i ∧ bsearchIndex cmp ctx xs = ((i : Int), none)) ∨
      ∃ i : Nat, bsearchIndexEx cmp ctx xs = .inr i ∧
        bsearchIndex cmp ctx xs = (-1, some (i : Int)) := by
  rw [bsearchIndexEx, bsearchIndex]
  split_ifs with hnil
  · rw [hnil]
    exact .inr ⟨0, rfl, rfl⟩
  · rcases searchLoop_cases cmp ctx xs xs.length 0 xs.length with
      ⟨i, low, hloop, hsearch⟩ | ⟨i, hloop, hsearch⟩
    · rw [Int.natCast_zero] at hsearch
      rw [hsearch]
      exact .inl ⟨i, hloop, by simp⟩
    · rw [Int.natCast_zero] at hsearch
      rw [hsearch]
      exact .inr ⟨i, hloop, by simp⟩

/-- The only place where the array stays sorted. -/
theorem Window.only {low : Nat} (hcmp : IsOrder cmp) (h : Sorted cmp xs)
    (hwindow : Window cmp ctx xs low low) {i : Nat} (hi : i ≤ xs.length) :
    Sorted cmp (xs.take i ++ ctx :: xs.drop i) ↔ i = low := by
  constructor
  · intro hsorted
    obtain ⟨-, hright, hboth⟩ := pairwise_append.mp hsorted
    rcases Nat.lt_trichotomy i low with hlt | heq | hgt
    · have hlen : i < xs.length := Nat.lt_of_lt_of_le hlt hwindow.bound
      have hmem : xs[i] ∈ xs.drop i := by
        rw [drop_eq_getElem_cons hlen]
        exact mem_cons_self
      have hle := rel_of_pairwise_cons hright hmem
      have hless := (hcmp.swap _ _).mp (hwindow.less i hlen hlt)
      omega
    · exact heq
    · have hlen : low < xs.length := Nat.lt_of_lt_of_le hgt hi
      have hmem : xs[low] ∈ xs.take i := by
        rw [mem_take_iff_getElem]
        exact ⟨low, by omega, rfl⟩
      have hle := hboth _ hmem ctx mem_cons_self
      have hgreater := hwindow.greater low hlen (Nat.le_refl _)
      omega
  · rintro rfl
    refine sorted_insert (by rwa [take_append_drop]) (fun x hx => ?_) fun x hx => ?_
    · exact Int.le_of_lt (hwindow.take_le hx)
    · exact Int.le_of_lt ((hcmp.swap ctx x).mpr (hwindow.drop_ge hx))

/-! ## The insertion -/

theorem insert_of_length_le {i : Nat} (h : xs.length ≤ i) (data : α) :
    insert xs i data = insert xs xs.length data := by
  rw [insert, insert, Nat.min_eq_right h, Nat.min_self]

theorem place_eq (room : Bool) (xs : List α) (i : Nat) (data : α) :
    (if (xs.length : Int) ≤ (i : Int) then push room xs data else insertAt room xs i data) =
      insertAt room xs i data := by
  by_cases hle : (xs.length : Int) ≤ (i : Int)
  · rw [if_pos hle, push, insertAt, insertAt, insert_of_length_le (i := i) (by omega)]
  · rw [if_neg hle]

/-- The insertion replaces an equal element, which it destroys, or it needs room. -/
theorem sortedInsertEx_cases (hcmp : IsOrder cmp) (h : Sorted cmp xs) (room : Bool) (data : α)
    (replaceIfExist : Bool) :
    (replaceIfExist = true ∧ ∃ i, ∃ hi : i < xs.length, cmp xs[i] data = 0 ∧
        sortedInsertEx cmp room xs data replaceIfExist = ⟨.ok, xs.set i data, [xs[i]]⟩ ∧
        sortedInsert cmp data replaceIfExist xs = xs.set i data) ∨
      ((replaceIfExist = false ∨ ∀ x ∈ xs, cmp x data ≠ 0) ∧
        sortedInsertEx cmp room xs data replaceIfExist =
          if room then ⟨.ok, sortedInsert cmp data replaceIfExist xs, []⟩ else ⟨.oom, xs, []⟩) := by
  by_cases hnil : xs.length = 0
  · have hxs := length_eq_zero_iff.mp hnil
    subst hxs
    refine .inr ⟨.inr fun x hx => absurd hx not_mem_nil, ?_⟩
    rfl
  · rw [sortedInsertEx, if_neg hnil, sortedInsert]
    rcases bsearchIndex_cases cmp data xs with ⟨i, hex, hindex⟩ | ⟨i, hex, hindex⟩
    · rcases bsearchIndexEx_spec hcmp h data with ⟨j, hj, hspec, heq⟩ | ⟨j, hspec, -⟩
      · rw [hex, Sum.inl.injEq] at hspec
        subst hspec
        rw [hindex, hex]
        have hi : (0 : Int) ≤ (i : Int) := Int.natCast_nonneg i
        cases replaceIfExist with
        | true =>
          refine .inl ⟨rfl, i, hj, heq, ?_, rfl⟩
          simp only
          rw [if_pos ⟨hi, trivial⟩, replace, Int.toNat_natCast, getElem?_eq_getElem hj]
        | false =>
          refine .inr ⟨.inl rfl, ?_⟩
          have hplace := place_eq room xs (i + 1) data
          simp only
          rw [if_neg fun h => Bool.false_ne_true h.2, if_pos hi]
          exact hplace
      · rw [hex] at hspec
        cases hspec
    · rcases bsearchIndexEx_spec hcmp h data with ⟨j, hj, hspec, heq⟩ | ⟨j, hspec, hwindow⟩
      · rw [hex] at hspec
        cases hspec
      · rw [hex, Sum.inr.injEq] at hspec
        subst hspec
        rw [hindex, hex]
        have hi : ¬(0 : Int) ≤ -1 := by decide
        refine .inr ⟨.inr fun x hx => hwindow.ne hx, ?_⟩
        have hplace := place_eq room xs i data
        simp only
        rw [if_neg fun h => hi h.1, if_neg hi]
        exact hplace

/-! ## The contract -/

/-- What a sorted array is used for. -/
structure SortedContract (cmp : Compare α) (xs : List α) : Prop where
  /-- The search finds an equal element, or the only place where a new one can go. -/
  search : ∀ ctx, (∃ i, ∃ hi : i < xs.length, cmp xs[i] ctx = 0 ∧
      bsearchIndex cmp ctx xs = ((i : Int), none)) ∨
    ((∀ x ∈ xs, cmp x ctx ≠ 0) ∧ ∃ low : Nat, low ≤ xs.length ∧
      bsearchIndex cmp ctx xs = (-1, some (low : Int)) ∧
      ∀ i ≤ xs.length, Sorted cmp (xs.take i ++ ctx :: xs.drop i) ↔ i = low)
  /-- An element is added. -/
  add : ∀ data, ∃ ys, sortedInsertEx cmp true xs data false = ⟨.ok, ys, []⟩ ∧ Sorted cmp ys ∧
    ys.Perm (data :: xs)
  /-- One equal element is destroyed and replaced, with room or without. -/
  replaceEqual : ∀ data room, (∃ x ∈ xs, cmp x data = 0) → ∃ l x r, xs = l ++ x :: r ∧
    cmp x data = 0 ∧ sortedInsertEx cmp room xs data true = ⟨.ok, l ++ data :: r, [x]⟩ ∧
    Sorted cmp (l ++ data :: r)
  /-- An element with no equal is added. -/
  addNew : ∀ data, (∀ x ∈ xs, cmp x data ≠ 0) → ∃ ys,
    sortedInsertEx cmp true xs data true = ⟨.ok, ys, []⟩ ∧ Sorted cmp ys ∧ ys.Perm (data :: xs)
  /-- Without room nothing else happens. -/
  full : ∀ data replaceIfExist, (replaceIfExist = false ∨ ∀ x ∈ xs, cmp x data ≠ 0) →
    sortedInsertEx cmp false xs data replaceIfExist = ⟨.oom, xs, []⟩

/-- An element that replaces no other is put between the others. -/
theorem added (hcmp : IsOrder cmp) (h : Sorted cmp xs) {replaceIfExist : Bool}
    (hnew : replaceIfExist = false ∨ ∀ x ∈ xs, cmp x data ≠ 0) :
    ∃ ys, sortedInsertEx cmp true xs data replaceIfExist = ⟨.ok, ys, []⟩ ∧ Sorted cmp ys ∧
      ys.Perm (data :: xs) := by
  rcases sortedInsertEx_cases hcmp h true data replaceIfExist with
    ⟨rfl, i, hi, heq, -, -⟩ | ⟨-, hadd⟩
  · exact absurd heq (hnew.resolve_left Bool.noConfusion _ (getElem_mem hi))
  · obtain ⟨hsorted, hspec⟩ := sortedInsert_spec hcmp h data replaceIfExist
    refine ⟨_, hadd, hsorted, ?_⟩
    rcases hspec with ⟨rfl, l, x, r, hxs, heq, -⟩ | ⟨-, l, r, hxs, hys⟩
    · exact absurd heq (hnew.resolve_left Bool.noConfusion x (hxs ▸ mem_append_right l mem_cons_self))
    · rw [hys, hxs]
      exact perm_middle

/-- The order of the natural numbers by their half. -/
def halfCompare : Compare Nat := fun a b => (a / 2 : Nat) - (b / 2 : Nat)

theorem halfCompare_isOrder : IsOrder halfCompare := by
  refine ⟨fun a b => ?_, fun a b c => ?_⟩
  · simp only [halfCompare]
    omega
  · simp only [halfCompare]
    omega

end Awtk.DArray
