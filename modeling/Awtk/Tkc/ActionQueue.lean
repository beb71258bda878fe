import Awtk.Lib.RingQueue
import Awtk.Lib.Run
import Awtk.Tkc.Types

/-!
# The action queue

`ActionQueue` is `action_queue_t`: pointers to actions in a circular array
between two cursors, in one block behind the four fields of the header.  `none`
is `NULL`.  An access to a slot that is not in the block has no result, so an
operation that uses such a slot has none either.

The size of the block is kept in a `uint16_t`.  `session_iff` says for which
capacities this matters: up to there the queue is a list that holds at most
`capacity` actions, and from there on destroying it reads behind the block.
-/

namespace Awtk

open Ring Runs List Option

/-- `action_queue_t`. -/
structure ActionQueue (α : Type*) where
  arch : Arch
  /-- The bytes of the block. -/
  size : Nat
  /-- The read cursor. -/
  r : Nat
  /-- The write cursor. -/
  w : Nat
  /-- Whether equal cursors mean a full queue. -/
  full : Bool
  capacity : Nat
  actions : Nat → Option α

namespace ActionQueue

variable {α : Type*}

/-! ## The operations -/

/-- `sizeof(action_queue_t)`: four `uint16_t` and a pointer. -/
def sizeofQueue (arch : Arch) : Nat := 8 + arch.word

/-- `action_queue_create`.  `alloc` says whether the allocation succeeds.  The size of the block is a
`uint16_t`. -/
def create (arch : Arch) (alloc : Bool) (capacity : UInt16) : Option (ActionQueue α) :=
  let size := (sizeofQueue arch + arch.word * capacity.toNat) % 2 ^ 16
  if 1 < capacity.toNat ∧ alloc then
    some {
      arch, size, r := 0, w := 0, full := false
      capacity := capacity.toNat
      actions := fun _ => none }
  else none

/-- The slot `i` is in the block. -/
def InBlock (q : ActionQueue α) (i : Nat) : Prop := 8 + q.arch.word * (i + 1) ≤ q.size

instance (q : ActionQueue α) (i : Nat) : Decidable (q.InBlock i) :=
  inferInstanceAs (Decidable (_ ≤ _))

/-- `q->actions[i]`. -/
def slot (q : ActionQueue α) (i : Nat) : Option (Option α) :=
  if q.InBlock i then some (q.actions i) else none

/-- `q->actions[i] = a`. -/
def setSlot (q : ActionQueue α) (i : Nat) (a : Option α) : Option (ActionQueue α) :=
  if q.InBlock i then some { q with actions := blit q.actions i [a] } else none

/-- `action_queue_recv`, with the action it returns. -/
def recv (q : ActionQueue α) : Option (Ret × Option α × ActionQueue α) :=
  if q.r ≠ q.w ∨ q.full then
    (q.slot q.r).bind fun action =>
    (q.setSlot q.r none).map fun q =>
    (.ok, action, { q with r := if q.r + 1 < q.capacity then q.r + 1 else 0, full := false })
  else some (.fail, none, q)

def send (q : ActionQueue α) (action : Option α) : Option (Ret × ActionQueue α) :=
  if action.isNone then some (.badParams, q)
  else if q.r ≠ q.w ∨ q.full = false then
    (q.setSlot q.w action).map fun q =>
    let w := if q.w + 1 < q.capacity then q.w + 1 else 0
    (.ok, { q with w, full := if q.r = w then true else q.full })
  else some (.fail, q)

/-- The loop of `action_queue_destroy` from `i` on: the actions it destroys. -/
def destroyLoop (q : ActionQueue α) : Nat → Nat → Option (List α)
  | _, 0 => some []
  | i, n + 1 => (q.slot i).bind fun a => (destroyLoop q (i + 1) n).map fun l => a.toList ++ l

def destroy (q : ActionQueue α) : Option (List α) := q.destroyLoop 0 q.capacity

/-- A call. -/
inductive Call (α : Type*) where
  | send (action : α)
  | recv

/-- The result of a call: what it returns and the action it hands out. -/
def call (q : ActionQueue α) : Call α → Option ((Ret × Option α) × ActionQueue α)
  | .send a => (q.send (some a)).map fun p => ((p.1, none), p.2)
  | .recv => q.recv.map fun p => ((p.1, p.2.1), p.2.2)

/-- The results of a run of calls and the actions that are destroyed with the queue. -/
def session (q : ActionQueue α) (calls : List (Call α)) :
    Option (List (Ret × Option α) × List α) :=
  (outcomes call q calls).bind fun p => p.2.destroy.map fun l => (p.1, l)

/-! ## The queue it stands for -/

namespace Fifo

/-- A call on the actions that are pending, oldest first. -/
def call (capacity : Nat) (l : List α) : Call α → (Ret × Option α) × List α
  | .send a =>
    match RingQueue.push capacity l a with
    | some l' => ((.ok, none), l')
    | none => ((.fail, none), l)
  | .recv =>
    match RingQueue.pop l with
    | some (a, l') => ((.ok, some a), l')
    | none => ((.fail, none), l)

end Fifo

/-- `q` has the actions `l` pending, all its slots are in the block, and the slots without a pending
action are `NULL`. -/
structure Pending (capacity : Nat) (q : ActionQueue α) (l : List α) : Prop where
  capacity_eq : q.capacity = capacity
  inBlock : ∀ i < capacity, q.InBlock i
  shows : RingQueue.Shows q.actions q.capacity q.r q.w q.full (l.map some)
  others : ∀ p < q.capacity, (∀ i < l.length, p ≠ (q.r + i) % q.capacity) → q.actions p = none

variable {q : ActionQueue α} {capacity : Nat} {l : List α}

/-! ## The loop of the destruction -/

theorem destroyLoop_isSome (q : ActionQueue α) (i n : Nat) :
    (q.destroyLoop i n).isSome ↔ ∀ j < n, q.InBlock (i + j) := by
  induction n generalizing i with
  | zero => simp [destroyLoop]
  | succ n ih =>
    rw [destroyLoop, slot]
    split_ifs with hi
    · rw [bind_some, isSome_map, ih]
      constructor
      · intro h j hj
        cases j with
        | zero => exact hi
        | succ j =>
          rw [Nat.add_comm j, ← Nat.add_assoc]
          exact h j (by omega)
      · intro h j hj
        rw [Nat.add_assoc, Nat.add_comm 1]
        exact h (j + 1) (by omega)
    · exact iff_of_false (by simp) fun h => hi (h 0 (Nat.succ_pos n))

theorem destroyLoop_eq (q : ActionQueue α) (i n : Nat) (h : ∀ j < n, q.InBlock (i + j)) :
    q.destroyLoop i n = some ((slice q.actions i n).filterMap id) := by
  induction n generalizing i with
  | zero => rfl
  | succ n ih =>
    have hrest : ∀ j < n, q.InBlock (i + 1 + j) := by
      intro j hj
      rw [Nat.add_assoc, Nat.add_comm 1]
      exact h (j + 1) (by omega)
    have hslice : slice q.actions i (n + 1) = q.actions i :: slice q.actions (i + 1) n := by
      rw [Nat.add_comm, slice_add]
      rfl
    have hfirst : q.InBlock i := h 0 (Nat.succ_pos n)
    rw [destroyLoop, slot, if_pos hfirst, bind_some, ih _ hrest, hslice, map_some]
    cases q.actions i <;> rfl

namespace Pending

theorem destroy (h : Pending capacity q l) : ∃ d, q.destroy = some d ∧ d.Perm l := by
  have hr := h.shows.read_lt
  have hle : l.length ≤ q.capacity := by simpa using h.shows.length_le
  refine ⟨_, q.destroyLoop_eq 0 q.capacity fun j hj => ?_, ?_⟩
  · rw [Nat.zero_add]
    exact h.inBlock j (h.capacity_eq ▸ hj)
  · have hwindow : window q.actions q.capacity q.r q.capacity =
        l.map some ++ List.replicate (q.capacity - l.length) none := by
      obtain ⟨k, hk⟩ := Nat.exists_eq_add_of_le hle
      have hcells : window q.actions q.capacity q.r l.length = l.map some := by
        simpa using h.shows.cells_eq
      have hnull : window q.actions q.capacity ((q.r + l.length) % q.capacity) k =
          List.replicate k none := by
        refine eq_replicate_iff.mpr ⟨window_length .., fun a ha => ?_⟩
        obtain ⟨i, hi, rfl⟩ := List.mem_map.mp ha
        have hik := mem_range.mp hi
        refine h.others _ (Nat.mod_lt _ (by omega)) fun j hj heq => ?_
        rw [Nat.mod_add_mod, Nat.add_assoc] at heq
        have := add_mod_inj hr (by omega) (by omega) heq
        omega
      have hsplit := window_add q.actions q.capacity q.r l.length k
      rw [← hk, hcells, hnull] at hsplit
      rw [hsplit, hk, Nat.add_sub_cancel_left]
    have hperm := (RingQueue.window_perm q.actions hr).filterMap id
    rw [hwindow, filterMap_append] at hperm
    refine hperm.symm.trans ?_
    simp [filterMap_map]

theorem send (h : Pending capacity q l) (a : α) :
    ∃ q', q.call (.send a) = some ((Fifo.call capacity l (.send a)).1, q') ∧
      Pending capacity q' (Fifo.call capacity l (.send a)).2 := by
  have hcap := h.capacity_eq
  have hroom := h.shows.room_iff
  rw [length_map, hcap] at hroom
  rw [call, ActionQueue.send, if_neg (by simp), Fifo.call, RingQueue.push]
  by_cases hlt : l.length < capacity
  · have hw := h.shows.write_lt
    have hshows := h.shows.push (x := some a) (by rwa [length_map, hcap])
    rw [if_pos (hroom.mpr hlt), if_pos hlt, setSlot, if_pos (h.inBlock q.w (hcap ▸ hw))]
    refine ⟨_, rfl, hcap, h.inBlock, by rw [map_append]; exact hshows, ?_⟩
    intro p hp hne
    have hwrite : p ≠ q.w := by
      rw [h.shows.write_eq, length_map]
      exact hne l.length (by simp)
    have hold : ∀ i < l.length, p ≠ (q.r + i) % q.capacity := by
      intro i hi
      exact hne i (by rw [length_append]; omega)
    calc blit q.actions q.w [some a] p = q.actions p := blit_outside (by simp; omega)
      _ = none := h.others p hp hold
  · rw [if_neg (mt hroom.mp hlt), if_neg hlt]
    exact ⟨q, rfl, h⟩

theorem recv (h : Pending capacity q l) :
    ∃ q', q.call .recv = some ((Fifo.call capacity l .recv).1, q') ∧
      Pending capacity q' (Fifo.call capacity l .recv).2 := by
  have hsome := h.shows.nonempty_iff
  rw [call, ActionQueue.recv]
  cases l with
  | nil =>
    rw [if_neg (mt hsome.mp fun hne => hne rfl)]
    exact ⟨q, rfl, h⟩
  | cons a l =>
    have hcap := h.capacity_eq
    have hr := h.shows.read_lt
    have hblock := h.inBlock q.r (hcap ▸ hr)
    have hclear : ∀ p, p ≠ q.r → blit q.actions q.r [none] p = q.actions p :=
      fun p hp => blit_outside (by simp; omega)
    rw [if_pos (hsome.mpr (by simp)), slot, if_pos hblock, bind_some, setSlot, if_pos hblock,
      h.shows.head]
    refine ⟨_, rfl, hcap, h.inBlock, h.shows.pop hclear, ?_⟩
    intro p hp hne
    by_cases hpr : p = q.r
    · subst hpr
      have hcell : blit q.actions q.r [none] (q.r + 0) = none := blit_inside Nat.one_pos
      exact hcell
    · refine (hclear p hpr).trans (h.others p hp fun i hi => ?_)
      cases i with
      | zero => rwa [Nat.add_zero, Nat.mod_eq_of_lt hr]
      | succ i =>
        have hshift : (q.r + (i + 1)) % q.capacity =
            (RingQueue.next q.capacity q.r + i) % q.capacity := by
          rw [RingQueue.next_eq hr, Nat.mod_add_mod, Nat.add_assoc, Nat.add_comm 1]
        rw [hshift]
        exact hne i (Nat.succ_lt_succ_iff.mp hi)

/-- One call keeps step with the list. -/
theorem call (h : Pending capacity q l) (a : Call α) :
    ∃ q', q.call a = some ((Fifo.call capacity l a).1, q') ∧
      Pending capacity q' (Fifo.call capacity l a).2 := by
  cases a with
  | send a => exact h.send a
  | recv => exact h.recv

end Pending

/-! ## Runs -/

theorem create_pending {arch : Arch} {alloc : Bool} {capacity : UInt16}
    (h : create arch alloc capacity = some q)
    (hfits : sizeofQueue arch + arch.word * capacity.toNat < 2 ^ 16) :
    Pending capacity.toNat q [] := by
  rw [create] at h
  split at h
  · rename_i hc
    cases h
    refine ⟨rfl, fun i hi => ?_, .nil _ (Nat.zero_lt_of_lt hc.1), fun _ _ _ => rfl⟩
    have hle : arch.word * (i + 1) ≤ arch.word * capacity.toNat := Nat.mul_le_mul_left _ hi
    change 8 + arch.word * (i + 1) ≤ (sizeofQueue arch + arch.word * capacity.toNat) % 2 ^ 16
    rw [Nat.mod_eq_of_lt hfits, sizeofQueue]
    omega
  · cases h

theorem create_outside {arch : Arch} {alloc : Bool} {capacity : UInt16}
    (h : create arch alloc capacity = some q)
    (hwraps : ¬ sizeofQueue arch + arch.word * capacity.toNat < 2 ^ 16) : q.destroy = none := by
  rw [create] at h
  split at h
  · rename_i hc
    cases h
    rw [← not_isSome_iff_eq_none, destroy, destroyLoop_isSome]
    intro hall
    have hlast := hall (capacity.toNat - 1) (Nat.sub_lt (Nat.zero_lt_of_lt hc.1) Nat.one_pos)
    change 8 + arch.word * (0 + (capacity.toNat - 1) + 1) ≤
      (sizeofQueue arch + arch.word * capacity.toNat) % 2 ^ 16 at hlast
    have hpred : 0 + (capacity.toNat - 1) + 1 = capacity.toNat := by omega
    have hword : arch.word < 2 ^ 16 := by cases arch <;> decide
    have hcap := capacity.toNat_lt
    have hmul : arch.word * capacity.toNat ≤ 8 * capacity.toNat :=
      Nat.mul_le_mul_right _ (by cases arch <;> decide)
    rw [hpred] at hlast
    rw [sizeofQueue] at hlast hwraps
    omega
  · cases h

/-- Every slot that is used lies in the block, the actions come out as from a list and the pending
ones are destroyed, exactly if the size of the block fits a `uint16_t`. -/
theorem session_iff {arch : Arch} {alloc : Bool} {capacity : UInt16}
    (h : create arch alloc capacity = some q) :
    (∀ calls : List (Call α), ∃ d,
        q.session calls = some (results (Fifo.call capacity.toNat) [] calls, d) ∧
          d.Perm (after (Fifo.call capacity.toNat) [] calls)) ↔
      sizeofQueue arch + arch.word * capacity.toNat < 2 ^ 16 := by
  constructor
  · intro hall
    by_contra hwraps
    obtain ⟨d, hd, -⟩ := hall []
    rw [session, outcomes, bind_some, create_outside h hwraps] at hd
    cases hd
  · intro hfits calls
    obtain ⟨q', hq', hend⟩ :=
      outcomes_simulation (fun _ _ a hR => Pending.call hR a) calls (create_pending h hfits)
    obtain ⟨d, hd, hperm⟩ := hend.destroy
    exact ⟨d, by rw [session, hq', bind_some, hd, map_some], hperm⟩

/-- A queue of two actions on a 64-bit machine that is destroyed with one of them. -/
theorem session_two :
    ∃ d, session (⟨.bits64, 32, 0, 0, false, 2, fun _ => none⟩ : ActionQueue Nat)
          [.send 1, .send 2, .send 3, .recv] =
        some (results (Fifo.call 2) [] [.send 1, .send 2, .send 3, .recv], d) ∧
      d.Perm (after (Fifo.call 2) [] [.send 1, .send 2, .send 3, .recv]) :=
  (session_iff (rfl : create .bits64 true 2 = some _)).mpr (by decide) _

/-- The block of a queue of 10000 actions has 14480 bytes, and destroying it leaves the block. -/
theorem session_wraps :
    ∃ q : ActionQueue Nat, create .bits64 true 10000 = some q ∧ q.size = 14480 ∧
      ¬ ∃ d, q.session [] = some (results (Fifo.call 10000) [] [], d) ∧
        d.Perm (after (Fifo.call 10000) [] []) := by
  refine ⟨_, rfl, rfl, ?_⟩
  rintro ⟨d, hd, -⟩
  rw [session, outcomes, bind_some,
    create_outside (rfl : create .bits64 true 10000 = some _) (by decide)] at hd
  cases hd

end ActionQueue

end Awtk
