import Mathlib

/-!
# Lists that are searched by a key

A list stands for a map if its first entry with a key is the one that counts.
An update changes this entry and a removal drops it.  After a removal the key
is gone if no two entries have the same key.
-/

namespace Keyed

open List

variable {α κ : Type*} [DecidableEq κ] {key : α → κ} {k k' : κ} {l : List α} {f : α → α}

/-- The entry of a key. -/
def lookup (key : α → κ) (k : κ) (l : List α) : Option α := l.find? fun a => key a = k

/-- Change the entry of a key. -/
def update (key : α → κ) (k : κ) (f : α → α) : List α → List α
  | [] => []
  | a :: l => if key a = k then f a :: l else a :: update key k f l

/-- Drop the entry of a key. -/
def remove (key : α → κ) (k : κ) (l : List α) : List α := l.eraseP fun a => key a = k

@[simp] theorem lookup_nil : lookup key k [] = none := rfl

theorem lookup_cons (a : α) (l : List α) :
    lookup key k (a :: l) = if key a = k then some a else lookup key k l := by
  unfold lookup
  split_ifs with h
  · exact find?_cons_of_pos (decide_eq_true h)
  · exact find?_cons_of_neg (by simpa using h)

theorem lookup_eq_none : lookup key k l = none ↔ k ∉ l.map key := by
  simp [lookup]

theorem mem_of_lookup {a : α} (h : lookup key k l = some a) : a ∈ l ∧ key a = k := by
  have hkey : key a = k := by simpa using find?_some h
  exact ⟨mem_of_find?_eq_some h, hkey⟩

theorem lookup_of_mem (hl : (l.map key).Nodup) {a : α} (ha : a ∈ l) :
    lookup key (key a) l = some a := by
  induction l with
  | nil => cases ha
  | cons b l ih =>
    obtain ⟨hb, hl⟩ := nodup_cons.mp hl
    rw [lookup_cons]
    rcases mem_cons.mp ha with rfl | ha
    · exact if_pos rfl
    · have hne : key b ≠ key a := fun h => hb (h ▸ List.mem_map_of_mem ha)
      rw [if_neg hne, ih hl ha]

theorem lookup_concat (l : List α) (a : α) :
    lookup key k (l ++ [a]) = (lookup key k l).or (if key a = k then some a else none) := by
  rw [lookup, find?_append, ← lookup, ← lookup, lookup_cons, lookup_nil]

theorem lookup_update (hf : ∀ a, key (f a) = key a) :
    lookup key k' (update key k f l) =
      if k' = k then (lookup key k l).map f else lookup key k' l := by
  induction l with
  | nil => split_ifs <;> rfl
  | cons a l ih =>
    rw [update, lookup_cons a l, lookup_cons a l]
    by_cases ha : key a = k
    · rw [if_pos ha, if_pos ha, lookup_cons, hf, ha]
      by_cases hk : k' = k
      · rw [if_pos hk, if_pos hk.symm, Option.map_some]
      · rw [if_neg hk, if_neg fun h => hk h.symm, if_neg fun h => hk h.symm]
    · rw [if_neg ha, if_neg ha, lookup_cons, ih]
      by_cases hk : k' = k
      · rw [if_pos hk, if_pos hk, hk, if_neg ha]
      · rw [if_neg hk, if_neg hk]

@[simp] theorem map_key_update (hf : ∀ a, key (f a) = key a) :
    (update key k f l).map key = l.map key := by
  induction l with
  | nil => rfl
  | cons a l ih =>
    rw [update]
    split_ifs
    · rw [map_cons, hf, map_cons]
    · rw [map_cons, ih, map_cons]

theorem mem_update {b : α} (h : b ∈ update key k f l) : b ∈ l ∨ ∃ a ∈ l, key a = k ∧ b = f a := by
  induction l with
  | nil => cases h
  | cons a l ih =>
    rw [update] at h
    split_ifs at h with ha
    · rcases mem_cons.mp h with rfl | h
      · exact .inr ⟨a, mem_cons_self, ha, rfl⟩
      · exact .inl (mem_cons_of_mem a h)
    · rcases mem_cons.mp h with rfl | h
      · exact .inl mem_cons_self
      · obtain h | ⟨c, hc, hkey, rfl⟩ := ih h
        · exact .inl (mem_cons_of_mem a h)
        · exact .inr ⟨c, mem_cons_of_mem a hc, hkey, rfl⟩

theorem lookup_remove (hl : (l.map key).Nodup) :
    lookup key k' (remove key k l) = if k' = k then none else lookup key k' l := by
  induction l with
  | nil => split_ifs <;> rfl
  | cons a l ih =>
    obtain ⟨ha, hl⟩ := nodup_cons.mp hl
    rw [lookup_cons]
    by_cases hk : key a = k
    · have hdrop : remove key k (a :: l) = l := eraseP_cons_of_pos (decide_eq_true hk)
      rw [hdrop]
      by_cases hk' : k' = k
      · rw [if_pos hk', lookup_eq_none, hk', ← hk]
        exact ha
      · rw [if_neg hk', if_neg fun h => hk' (h.symm.trans hk)]
    · have hkeep : remove key k (a :: l) = a :: remove key k l :=
        eraseP_cons_of_neg (by simpa using hk)
      rw [hkeep, lookup_cons, ih hl]
      by_cases hk' : k' = k
      · rw [if_pos hk', if_pos hk', if_neg (hk' ▸ hk)]
      · rw [if_neg hk', if_neg hk']

theorem remove_sublist (key : α → κ) (k : κ) (l : List α) : (remove key k l).Sublist l :=
  eraseP_sublist

theorem nodup_concat {a : α} (hl : (l.map key).Nodup) (ha : lookup key (key a) l = none) :
    ((l ++ [a]).map key).Nodup := by
  rw [map_append, map_singleton, ← concat_eq_append]
  exact (List.nodup_concat _ _).mpr ⟨lookup_eq_none.mp ha, hl⟩

end Keyed
