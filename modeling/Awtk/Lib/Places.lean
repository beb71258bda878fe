import Mathlib

/-!
# Places in a tree

A tree whose children can be read and written by their index.  A place in it is a way down,
the list of the indices.  A node at a place can be rewritten, and what is done at one place
one after the other is done there at once.
-/

/-- Trees of type `T` with indexed children.  Writing a child is read back, the last writing
counts, and writing what is there changes nothing. -/
structure Places (T : Type*) where
  child : T → Nat → Option T
  setChild : T → Nat → T → T
  child_setChild : ∀ {t c : T} {i : Nat} (d : T), child t i = some c → child (setChild t i d) i = some d
  setChild_setChild : ∀ (t c d : T) (i : Nat), setChild (setChild t i c) i d = setChild t i d
  setChild_self : ∀ {t c : T} {i : Nat}, child t i = some c → setChild t i c = t

namespace Places

open Option

variable {T : Type*} (P : Places T) {f g : T → T} {t m : T} {way : List Nat}

/-- The node at a place. -/
def nodeAt : List Nat → T → Option T
  | [], t => some t
  | i :: is, t => (P.child t i).bind (nodeAt is)

/-- Rewrite the node at a place. -/
def updateAt (f : T → T) : List Nat → T → T
  | [], t => f t
  | i :: is, t =>
    match P.child t i with
    | some c => P.setChild t i (updateAt f is c)
    | none => t

theorem updateAt_some {c : T} {i : Nat} {is : List Nat} (h : P.child t i = some c) :
    P.updateAt f (i :: is) t = P.setChild t i (P.updateAt f is c) := by
  rw [updateAt, h]

theorem updateAt_none {i : Nat} {is : List Nat} (h : P.child t i = none) :
    P.updateAt f (i :: is) t = t := by
  rw [updateAt, h]

theorem updateAt_comp (f g : T → T) (way : List Nat) (t : T) :
    P.updateAt g way (P.updateAt f way t) = P.updateAt (fun t => g (f t)) way t := by
  induction way generalizing t with
  | nil => rfl
  | cons i is ih =>
    cases hi : P.child t i with
    | none => rw [P.updateAt_none hi, P.updateAt_none hi, P.updateAt_none hi]
    | some c =>
      rw [P.updateAt_some hi, P.updateAt_some hi, P.updateAt_some (P.child_setChild _ hi), ih,
        P.setChild_setChild]

theorem nodeAt_updateAt (f : T → T) (h : P.nodeAt way t = some m) :
    P.nodeAt way (P.updateAt f way t) = some (f m) := by
  induction way generalizing t with
  | nil =>
    cases h
    rfl
  | cons i is ih =>
    rw [nodeAt, bind_eq_some_iff] at h
    obtain ⟨c, hi, h⟩ := h
    rw [P.updateAt_some hi, nodeAt, P.child_setChild _ hi]
    exact ih h

theorem updateAt_congr (h : P.nodeAt way t = some m) (hm : f m = g m) :
    P.updateAt f way t = P.updateAt g way t := by
  induction way generalizing t with
  | nil =>
    cases h
    exact hm
  | cons i is ih =>
    rw [nodeAt, bind_eq_some_iff] at h
    obtain ⟨c, hi, h⟩ := h
    rw [P.updateAt_some hi, P.updateAt_some hi, ih h]

theorem updateAt_id (way : List Nat) (t : T) : P.updateAt (fun t => t) way t = t := by
  induction way generalizing t with
  | nil => rfl
  | cons i is ih =>
    cases hi : P.child t i with
    | none => rw [P.updateAt_none hi]
    | some c => rw [P.updateAt_some hi, ih, P.setChild_self hi]

theorem updateAt_self (h : P.nodeAt way t = some m) (hm : f m = m) : P.updateAt f way t = t := by
  rw [P.updateAt_congr (g := fun t => t) h hm, updateAt_id]

theorem nodeAt_append (way is : List Nat) (t : T) :
    P.nodeAt (way ++ is) t = (P.nodeAt way t).bind (P.nodeAt is) := by
  induction way generalizing t with
  | nil => rfl
  | cons i way ih =>
    rw [List.cons_append, nodeAt, nodeAt, bind_assoc]
    exact congrArg (Option.bind (P.child t i)) (funext fun c => ih c)

theorem updateAt_append (f : T → T) (way is : List Nat) (t : T) :
    P.updateAt f (way ++ is) t = P.updateAt (P.updateAt f is) way t := by
  induction way generalizing t with
  | nil => rfl
  | cons i way ih =>
    rw [List.cons_append]
    cases hi : P.child t i with
    | none => rw [P.updateAt_none hi, P.updateAt_none hi]
    | some c => rw [P.updateAt_some hi, P.updateAt_some hi, ih]

theorem updateAt_added {add : T → T → T} {i : Nat} (h : P.nodeAt way t = some m)
    (hchild : ∀ c, P.child (add m c) i = some c)
    (hset : ∀ c d, P.setChild (add m c) i d = add m d) (f : T → T) (c : T) :
    P.updateAt f (way ++ [i]) (P.updateAt (fun m => add m c) way t) =
      P.updateAt (fun m => add m (f c)) way t := by
  rw [updateAt_append, updateAt_comp]
  refine P.updateAt_congr h ?_
  rw [P.updateAt_some (hchild c)]
  exact hset c (f c)

theorem nodeAt_added {add : T → T → T} {i : Nat} (h : P.nodeAt way t = some m)
    (hchild : ∀ c, P.child (add m c) i = some c) (c : T) :
    P.nodeAt (way ++ [i]) (P.updateAt (fun m => add m c) way t) = some c := by
  have hat := P.nodeAt_updateAt (fun m => add m c) h
  rw [nodeAt_append, hat]
  change (P.child (add m c) i).bind (P.nodeAt []) = some c
  rw [hchild]
  rfl

end Places
