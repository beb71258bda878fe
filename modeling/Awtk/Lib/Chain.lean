import Mathlib

/-!
# Singly linked lists

`Path next a l b` says that following `next` from `a` visits the nodes `l` and
then arrives at `b`.  Nodes are addresses and `0` is the null pointer, so a
linked list is a path to `0`; such a path has no cycle.

`walk` is what a loop over the list visits.

An edit writes a few links around one place.  `Path.splice` and
`Path.spliceHead` replace a part of a list by another one where the links in
front of it and behind it stay as they were.
-/

namespace Chain

open List

variable {next next' : Nat → Nat}

/-- Following `next` from the first address visits the nodes and arrives at the
second address. -/
def Path (next : Nat → Nat) : Nat → List Nat → Nat → Prop
  | a, [], b => a = b
  | a, x :: l, b => a = x ∧ x ≠ 0 ∧ Path next (next x) l b

@[simp] theorem path_nil {a b : Nat} : Path next a [] b ↔ a = b := Iff.rfl

theorem path_cons {a b x : Nat} {l : List Nat} :
    Path next a (x :: l) b ↔ a = x ∧ x ≠ 0 ∧ Path next (next x) l b := Iff.rfl

theorem path_append : ∀ {a c : Nat} {l r : List Nat},
    Path next a (l ++ r) c ↔ ∃ b, Path next a l b ∧ Path next b r c
  | a, c, [], r => by simp
  | a, c, x :: l, r => by
    rw [cons_append, path_cons, path_append]
    constructor
    · rintro ⟨hx, h0, b, hl, hr⟩
      exact ⟨b, ⟨hx, h0, hl⟩, hr⟩
    · rintro ⟨b, ⟨hx, h0, hl⟩, hr⟩
      exact ⟨hx, h0, b, hl, hr⟩

theorem Path.congr : ∀ {a b : Nat} {l : List Nat}, (∀ x ∈ l, next' x = next x) →
    Path next a l b → Path next' a l b
  | _, _, [], _, h => h
  | _, _, x :: _, hagree, ⟨hx, h0, hl⟩ => by
    refine ⟨hx, h0, ?_⟩
    rw [hagree x mem_cons_self]
    exact hl.congr fun y hy => hagree y (mem_cons_of_mem _ hy)

theorem Path.head : ∀ {a b : Nat} {l : List Nat}, Path next a l b → a = l.headD b
  | _, _, [], h => h
  | _, _, _ :: _, h => h.1

theorem Path.ne_zero : ∀ {a b : Nat} {l : List Nat}, Path next a l b → ∀ x ∈ l, x ≠ 0
  | _, _, [], _, _, hx => absurd hx not_mem_nil
  | _, _, y :: l, h, x, hx => by
    cases mem_cons.mp hx with
    | inl heq => exact heq ▸ h.2.1
    | inr hmem => exact h.2.2.ne_zero x hmem

/-- There is one list from an address on. -/
theorem Path.unique : ∀ {a : Nat} {l r : List Nat}, Path next a l 0 → Path next a r 0 → l = r
  | _, [], [], _, _ => rfl
  | _, [], y :: _, hl, hr => absurd (hr.1.symm.trans hl) hr.2.1
  | _, x :: _, [], hl, hr => absurd (hl.1.symm.trans hr) hl.2.1
  | _, x :: l, y :: r, hl, hr => by
    obtain rfl : x = y := hl.1.symm.trans hr.1
    rw [hl.2.2.unique hr.2.2]

theorem Path.nodup : ∀ {a : Nat} {l : List Nat}, Path next a l 0 → l.Nodup
  | _, [], _ => nodup_nil
  | _, x :: l, h => by
    refine nodup_cons.mpr ⟨fun hmem => ?_, h.2.2.nodup⟩
    -- the list behind a second visit of `x` would be the list behind the first
    obtain ⟨l₁, l₂, rfl⟩ := append_of_mem hmem
    obtain ⟨b, _, hb⟩ := path_append.mp h.2.2
    have heq := h.2.2.unique hb.2.2
    have hlen := congrArg List.length heq
    rw [length_append, length_cons] at hlen
    omega

theorem Path.eq_of_perm {a b : Nat} {l : List Nat} : ∀ {r : List Nat}, Path next a l 0 →
    Path next b r 0 → l.Perm r → l = r
  | [], _, _, hperm => hperm.eq_nil
  | y :: r, hl, hr, hperm => by
    obtain ⟨l₁, l₂, rfl⟩ := append_of_mem (hperm.mem_iff.mpr mem_cons_self)
    obtain ⟨c, _, hrest⟩ := path_append.mp hl
    have heq : y :: l₂ = y :: r := (hrest.1 ▸ hrest).unique (hr.1 ▸ hr)
    have hlen := hperm.length_eq
    rw [heq, length_append] at hlen
    have hnil : l₁ = [] := length_eq_zero_iff.mp (by omega)
    rw [hnil, heq, nil_append]

/-- The nodes a loop visits that follows `next` up to the null pointer.  It has no
result at a node that is not allocated, or where the list has more than `n` nodes. -/
def walk (next : Nat → Nat) (alive : Nat → Prop) [DecidablePred alive] :
    Nat → Nat → Option (List Nat)
  | 0, a => if a = 0 then some [] else none
  | n + 1, a =>
    if a = 0 then some []
    else if alive a then (walk next alive n (next a)).map (a :: ·)
    else none

theorem walk_eq {alive : Nat → Prop} [DecidablePred alive] : ∀ {l : List Nat} {n a : Nat},
    Path next a l 0 → (∀ x ∈ l, alive x) → l.length ≤ n → walk next alive n a = some l
  | [], 0, _, h, _, _ => if_pos h
  | [], _ + 1, _, h, _, _ => if_pos h
  | x :: l, n + 1, a, ⟨ha, h0, h⟩, halive, hn => by
    rw [ha, walk, if_neg h0, if_pos (halive x mem_cons_self), walk_eq h
      (fun y hy => halive y (mem_cons_of_mem _ hy)) (Nat.le_of_succ_le_succ hn)]
    rfl

theorem Path.splice {a p : Nat} {l r : List Nat} (old new : List Nat)
    (h : Path next a (l ++ p :: (old ++ r)) 0)
    (hagree : ∀ x, x ∈ l ∨ x ∈ r → next' x = next x)
    (hnew : Path next' (next' p) new (r.headD 0)) : Path next' a (l ++ p :: (new ++ r)) 0 := by
  obtain ⟨b, hl, hp, h0, hrest⟩ := path_append.mp h
  obtain ⟨c, _, hr⟩ := path_append.mp hrest
  refine path_append.mpr ⟨b, hl.congr fun x hx => hagree x (.inl hx), hp, h0, ?_⟩
  refine path_append.mpr ⟨r.headD 0, hnew, ?_⟩
  rw [← hr.head]
  exact hr.congr fun x hx => hagree x (.inr hx)

theorem Path.spliceHead {a a' : Nat} {r : List Nat} (old new : List Nat) (h : Path next a (old ++ r) 0)
    (hagree : ∀ x ∈ r, next' x = next x) (hnew : Path next' a' new (r.headD 0)) :
    Path next' a' (new ++ r) 0 := by
  obtain ⟨c, _, hr⟩ := path_append.mp h
  refine path_append.mpr ⟨r.headD 0, hnew, ?_⟩
  rw [← hr.head]
  exact hr.congr hagree

theorem Path.next_mid {a p : Nat} {l r : List Nat} (h : Path next a (l ++ p :: r) 0) :
    next p = r.headD 0 := by
  obtain ⟨b, _, _, _, hr⟩ := path_append.mp h
  exact hr.head

theorem Path.head_eq_iff {a p : Nat} {l r : List Nat} (h : Path next a (l ++ p :: r) 0) :
    a = p ↔ l = [] := by
  constructor
  · intro heq
    cases l with
    | nil => rfl
    | cons x l =>
      have hnodup := h.nodup
      rw [cons_append, nodup_cons] at hnodup
      obtain rfl : x = p := h.1.symm.trans heq
      exact absurd (mem_append_right _ mem_cons_self) hnodup.1
  · rintro rfl
    exact h.1

end Chain
