import Mathlib
import Awtk.Lib.Ring

/-!
# A bounded deque

A deque that holds at most `c` elements.  What does not fit is dropped at the
head, where the oldest elements are: an element that is pushed, at either end,
makes room for itself there.
-/

namespace Deque

open List

variable {α : Type*}

/-- The last `c` elements. -/
def lastN (c : Nat) (l : List α) : List α := l.drop (l.length - c)

/-- The operations. -/
inductive Op (α : Type*) where
  | npush (xs : List α)
  | npushHead (xs : List α)
  | npop (n : Nat)
  | npopTail (n : Nat)
  | set (i : Nat) (xs : List α)
  | clear

/-- One operation on a deque of capacity `c`.  A number of elements to pop that is
0 or too large does nothing, nor does a position behind the elements. -/
def apply (c : Nat) (l : List α) : Op α → List α
  | .npush xs => lastN c (l ++ xs)
  | .npushHead xs =>
    let xs := lastN c xs
    xs ++ l.drop (l.length + xs.length - c)
  | .npop n => if 0 < n ∧ n ≤ l.length then l.drop n else l
  | .npopTail n => if 0 < n ∧ n ≤ l.length then l.take (l.length - n) else l
  | .set i xs =>
    if i < l.length ∨ i = 0 then lastN c (l.take i ++ xs ++ l.drop (i + xs.length)) else l
  | .clear => []

/-- The elements after a sequence of operations. -/
def run (c : Nat) (l : List α) (ops : List (Op α)) : List α := ops.foldl (apply c) l

@[simp] theorem lastN_length (c : Nat) (l : List α) : (lastN c l).length = min c l.length := by
  rw [lastN, length_drop]
  omega

theorem lastN_of_le {c : Nat} {l : List α} (h : l.length ≤ c) : lastN c l = l := by
  rw [lastN, Nat.sub_eq_zero_of_le h, drop_zero]

theorem lastN_append (c : Nat) (l xs : List α) :
    lastN c (l ++ xs) = l.drop (l.length + xs.length - c) ++ lastN c xs := by
  have hlen : l.length + xs.length - c - l.length = xs.length - c := by omega
  rw [lastN, length_append, drop_append, hlen, lastN]

theorem lastN_append_of_le {c : Nat} (l : List α) {xs : List α} (h : c ≤ xs.length) :
    lastN c (l ++ xs) = lastN c xs := by
  rw [lastN_append, drop_of_length_le (by omega), nil_append]

end Deque

/-!
## A queue between two cursors

A bounded queue kept in a circular memory: elements are written at the cursor
`w`, read at the cursor `r`, and a flag tells a full queue from an empty one
when the cursors meet.  `Shows m cap r w full l` says that such a memory holds
the queue `l`, oldest element first.  There is one lemma for each change of the
queue, and `push`, `pop` and `replaceLast` are these changes on the list.
-/

namespace RingQueue

open Ring

variable {α : Type*}

/-! ## The queue as a list -/

/-- Append an element, if there is room for it. -/
def push (cap : Nat) (l : List α) (x : α) : Option (List α) :=
  if l.length < cap then some (l ++ [x]) else none

/-- Take the oldest element. -/
def pop : List α → Option (α × List α)
  | [] => none
  | x :: l => some (x, l)

/-- Put another element in place of the newest one. -/
def replaceLast (l : List α) (x : α) : Option (List α) :=
  if l = [] then none else some (l.dropLast ++ [x])

/-! ## Cursors -/

/-- The cell behind a cell. -/
def next (cap i : Nat) : Nat := if i + 1 < cap then i + 1 else 0

/-- The cell in front of a cell. -/
def prev (cap i : Nat) : Nat := if 0 < i then i - 1 else cap - 1

theorem next_eq {cap i : Nat} (h : i < cap) : next cap i = (i + 1) % cap := by
  rw [next, add_mod_eq h (by omega)]
  split
  · rfl
  · omega

theorem next_lt {cap : Nat} (i : Nat) (h : 0 < cap) : next cap i < cap := by
  unfold next
  split <;> assumption

theorem prev_add {cap r n : Nat} (hr : r < cap) (hn : n < cap) :
    prev cap ((r + (n + 1)) % cap) = (r + n) % cap := by
  rw [add_mod_eq hr (show n + 1 ≤ cap from hn), add_mod_eq hr hn.le, prev]
  split <;> split <;> split <;> omega

/-! ## A memory that holds a queue -/

/-- The memory `m` with these cursors and this flag holds `l`. -/
structure Shows (m : Nat → α) (cap r w : Nat) (full : Bool) (l : List α) : Prop where
  /-- The read cursor is a cell. -/
  read_lt : r < cap
  /-- The elements fit. -/
  length_le : l.length ≤ cap
  /-- The write cursor is behind the elements. -/
  write_eq : w = (r + l.length) % cap
  /-- The flag tells a full queue. -/
  full_iff : full = true ↔ l.length = cap
  /-- The cells between the cursors hold the elements. -/
  cells_eq : window m cap r l.length = l

namespace Shows

variable {m m' : Nat → α} {cap r w : Nat} {full : Bool} {x : α} {l : List α}

theorem nil (m : Nat → α) (h : 0 < cap) : Shows m cap 0 0 false [] where
  read_lt := h
  length_le := Nat.zero_le _
  write_eq := (Nat.zero_mod _).symm
  full_iff := by simp [h.ne]
  cells_eq := rfl

theorem write_lt (h : Shows m cap r w full l) : w < cap := by
  rw [h.write_eq]
  exact Nat.mod_lt _ (by have := h.read_lt; omega)

theorem meet_iff (h : Shows m cap r w full l) : r = w ↔ l = [] ∨ l.length = cap := by
  rw [h.write_eq, add_mod_eq h.read_lt h.length_le, ← List.length_eq_zero_iff]
  have hr := h.read_lt
  have hle := h.length_le
  split <;> omega

theorem nonempty_iff (h : Shows m cap r w full l) : (r ≠ w ∨ full = true) ↔ l ≠ [] := by
  simp only [ne_eq, h.meet_iff, h.full_iff, ← List.length_eq_zero_iff]
  have hr := h.read_lt
  omega

theorem room_iff (h : Shows m cap r w full l) : (r ≠ w ∨ full = false) ↔ l.length < cap := by
  rw [ne_eq, h.meet_iff, ← Bool.not_eq_true, h.full_iff, ← List.length_eq_zero_iff]
  have hr := h.read_lt
  have hle := h.length_le
  omega

theorem not_full (h : Shows m cap r w full l) (hroom : l.length < cap) : full = false := by
  rw [← Bool.not_eq_true, h.full_iff]
  exact hroom.ne

theorem push (h : Shows m cap r w full l) (hroom : l.length < cap) :
    Shows (blit m w [x]) cap r (next cap w) (if r = next cap w then true else full) (l ++ [x]) := by
  have hr := h.read_lt
  have hlen : (l ++ [x]).length = l.length + 1 := List.length_append
  have hnext : next cap w = (r + (l.length + 1)) % cap := by
    rw [next_eq h.write_lt, h.write_eq, Nat.mod_add_mod, Nat.add_assoc]
  have hmeet : r = next cap w ↔ l.length + 1 = cap := by
    rw [hnext, add_mod_eq hr (show l.length + 1 ≤ cap from hroom)]
    split <;> omega
  have hfilled : Filled m (blit m w [x]) cap ((r + l.length) % cap) [x] := by
    rw [← h.write_eq]
    exact filled_blit h.write_lt
  refine ⟨hr, by omega, by rw [hlen, hnext], ?_, ?_⟩
  · rw [hlen, h.not_full hroom]
    by_cases heq : r = next cap w
    · simp [heq, hmeet.mp heq]
    · simp [heq, mt hmeet.mpr heq]
  · rw [hlen]
    exact (hfilled.window hr hroom).trans (by rw [h.cells_eq])

/-- The oldest element is at the read cursor. -/
theorem head (h : Shows m cap r w full (x :: l)) : m r = x := by
  have hcell := congrArg List.head? h.cells_eq
  rw [List.length_cons, window, List.range_succ_eq_map] at hcell
  simpa [Nat.mod_eq_of_lt h.read_lt] using hcell

theorem pop (h : Shows m cap r w full (x :: l)) (hm : ∀ p, p ≠ r → m' p = m p) :
    Shows m' cap (next cap r) w false l := by
  have hr := h.read_lt
  have hle : l.length + 1 ≤ cap := h.length_le
  have htail : window m cap ((r + 1) % cap) l.length = l := by
    have hcells := h.cells_eq
    rw [List.length_cons, Nat.add_comm, window_add] at hcells
    simpa [window] using congrArg (List.drop 1) hcells
  refine ⟨next_lt r (by omega), by omega, ?_, by simp; omega, ?_⟩
  · rw [next_eq hr, Nat.mod_add_mod, h.write_eq, List.length_cons, Nat.add_assoc, Nat.add_comm 1]
  · rw [next_eq hr]
    refine (window_congr fun i hi => hm _ fun heq => ?_).trans htail
    rw [Nat.mod_add_mod, Nat.add_assoc] at heq
    have hzero := add_mod_inj hr (show 1 + i < cap by omega) (show 0 < cap by omega)
      (heq.trans (Nat.mod_eq_of_lt hr).symm)
    omega

theorem replaceLast (h : Shows m cap r w full l) (hne : l ≠ []) :
    Shows (blit m (prev cap w) [x]) cap r w full (l.dropLast ++ [x]) := by
  have hr := h.read_lt
  have hle := h.length_le
  obtain ⟨n, hn⟩ := Nat.exists_eq_add_one_of_ne_zero (mt List.length_eq_zero_iff.mp hne)
  have hlen : (l.dropLast ++ [x]).length = l.length := by simp [hn]
  have hprev : prev cap w = (r + n) % cap := by
    rw [h.write_eq, hn, prev_add hr (by omega)]
  have hfilled : Filled m (blit m (prev cap w) [x]) cap ((r + n) % cap) [x] := by
    rw [hprev]
    exact filled_blit (Nat.mod_lt _ (by omega))
  refine ⟨hr, hlen ▸ hle, hlen ▸ h.write_eq, hlen ▸ h.full_iff, ?_⟩
  rw [hlen, hfilled.overwrite hr hle (by simp [hn]), h.cells_eq, List.dropLast_eq_take, hn]
  simp [hn]

theorem of_nil (h : Shows m cap r w full []) : Shows m' cap r w full [] :=
  ⟨h.read_lt, h.length_le, h.write_eq, h.full_iff, rfl⟩

end Shows

/-! ## All cells -/

theorem window_perm (m : Nat → α) {cap r : Nat} (h : r < cap) :
    (window m cap r cap).Perm (slice m 0 cap) := by
  obtain ⟨k, rfl⟩ := Nat.exists_eq_add_of_le h.le
  have hend : (r + k) % (r + k) = 0 := Nat.mod_self _
  have hwindow : window m (r + k) r (r + k) = slice m r k ++ slice m 0 r := by
    have hlow : slice m 0 r = window m (r + k) 0 r := slice_eq_window (by omega)
    rw [slice_eq_window (Nat.le_refl _), hlow]
    nth_rewrite 2 [Nat.add_comm r k]
    rw [window_add, hend]
  rw [hwindow, slice_add, Nat.zero_add]
  exact List.perm_append_comm

end RingQueue
