import Awtk.Lib.RingQueue
import Awtk.Lib.Run
import Awtk.Tkc.Types

/-!
# The event queue

`EventQueue` is `event_queue_t`: the requests in a circular array between two
cursors, with a flag that is set when the write cursor reaches the read cursor.
A request is of any type.  `Fifo.call` is the queue it stands for, a list with
at most `capacity` requests.

Every call but one keeps step with that list.  `event_queue_replace_last` does
not look at the read cursor, so on an empty queue it reports success for a
request that nobody receives.  `received_iff` says that this is the only
difference.
-/

namespace Awtk

open Ring Runs

/-- `event_queue_t`. -/
structure EventQueue (α : Type*) where
  /-- The read cursor. -/
  r : Nat
  /-- The write cursor. -/
  w : Nat
  /-- Whether equal cursors mean a full queue. -/
  full : Bool
  capacity : Nat
  events : Nat → α

namespace EventQueue

variable {α : Type*}

/-! ## The operations -/

/-- `event_queue_create`.  `alloc` says whether the allocation succeeds and `zero` is a request of
zero bytes. -/
def create (alloc : Bool) (zero : α) (capacity : UInt16) : Option (EventQueue α) :=
  if 1 < capacity.toNat ∧ alloc then
    some { r := 0, w := 0, full := false, capacity := capacity.toNat, events := fun _ => zero }
  else none

/-- `event_queue_recv`, with the request it copies out. -/
def recv (q : EventQueue α) : Ret × Option α × EventQueue α :=
  if q.r ≠ q.w ∨ q.full then
    let r := q.events q.r
    (.ok, some r, { q with r := if q.r + 1 < q.capacity then q.r + 1 else 0, full := false })
  else (.fail, none, q)

def send (q : EventQueue α) (r : α) : Ret × EventQueue α :=
  if q.r ≠ q.w ∨ q.full = false then
    let w := if q.w + 1 < q.capacity then q.w + 1 else 0
    (.ok, { q with
      events := blit q.events q.w [r]
      w
      full := if q.r = w then true else q.full })
  else (.fail, q)

def replaceLast (q : EventQueue α) (r : α) : Ret × EventQueue α :=
  if 0 < q.w then (.ok, { q with events := blit q.events (q.w - 1) [r] })
  else (.ok, { q with events := blit q.events (q.capacity - 1) [r] })

/-- A call. -/
inductive Call (α : Type*) where
  | send (r : α)
  | recv
  | replaceLast (r : α)

/-- The result of a call: what it returns and the request it copies out. -/
def call (q : EventQueue α) : Call α → (Ret × Option α) × EventQueue α
  | .send r => (((q.send r).1, none), (q.send r).2)
  | .recv => ((q.recv.1, q.recv.2.1), q.recv.2.2)
  | .replaceLast r => (((q.replaceLast r).1, none), (q.replaceLast r).2)

/-! ## The queue it stands for -/

namespace Fifo

/-- A call on the requests that are pending, oldest first. -/
def call (capacity : Nat) (l : List α) : Call α → (Ret × Option α) × List α
  | .send r =>
    match RingQueue.push capacity l r with
    | some l' => ((.ok, none), l')
    | none => ((.fail, none), l)
  | .recv =>
    match RingQueue.pop l with
    | some (r, l') => ((.ok, some r), l')
    | none => ((.fail, none), l)
  | .replaceLast r =>
    match RingQueue.replaceLast l r with
    | some l' => ((.ok, none), l')
    | none => ((.fail, none), l)

end Fifo

/-- `q` has the requests `l` pending. -/
structure Pending (capacity : Nat) (q : EventQueue α) (l : List α) : Prop where
  capacity_eq : q.capacity = capacity
  shows : RingQueue.Shows q.events q.capacity q.r q.w q.full l

variable {q : EventQueue α} {capacity : Nat} {l : List α}

theorem create_pending {alloc : Bool} {zero : α} {capacity : UInt16}
    (h : create alloc zero capacity = some q) : Pending capacity.toNat q [] := by
  unfold create at h
  split at h
  · rename_i hc
    cases h
    exact ⟨rfl, .nil _ (Nat.zero_lt_of_lt hc.1)⟩
  · cases h

namespace Pending

theorem send (h : Pending capacity q l) (r : α) :
    (q.call (.send r)).1 = (Fifo.call capacity l (.send r)).1 ∧
      Pending capacity (q.call (.send r)).2 (Fifo.call capacity l (.send r)).2 := by
  have hcap := h.capacity_eq
  have hroom := h.shows.room_iff
  rw [call, EventQueue.send, Fifo.call, RingQueue.push]
  by_cases hlt : l.length < capacity
  · rw [if_pos (hroom.mpr (hcap ▸ hlt)), if_pos hlt]
    exact ⟨rfl, hcap, h.shows.push (hcap ▸ hlt)⟩
  · rw [if_neg (mt hroom.mp (hcap ▸ hlt)), if_neg hlt]
    exact ⟨rfl, h⟩

theorem recv (h : Pending capacity q l) :
    (q.call .recv).1 = (Fifo.call capacity l .recv).1 ∧
      Pending capacity (q.call .recv).2 (Fifo.call capacity l .recv).2 := by
  have hsome := h.shows.nonempty_iff
  rw [call, EventQueue.recv]
  cases l with
  | nil =>
    rw [if_neg (mt hsome.mp fun hne => hne rfl)]
    exact ⟨rfl, h⟩
  | cons x l =>
    rw [if_pos (hsome.mpr (List.cons_ne_nil x l)), h.shows.head]
    exact ⟨rfl, h.capacity_eq, h.shows.pop fun _ _ => rfl⟩

theorem replaceLast_eq (q : EventQueue α) (r : α) : q.replaceLast r =
    (.ok, { q with events := blit q.events (RingQueue.prev q.capacity q.w) [r] }) := by
  rw [replaceLast, RingQueue.prev]
  split <;> rfl

theorem replaceLast (h : Pending capacity q l) (r : α) :
    ((q.call (.replaceLast r)).1 = (Fifo.call capacity l (.replaceLast r)).1 ↔ l ≠ []) ∧
      Pending capacity (q.call (.replaceLast r)).2 (Fifo.call capacity l (.replaceLast r)).2 := by
  rw [call, replaceLast_eq, Fifo.call, RingQueue.replaceLast]
  split_ifs with hnil
  · refine ⟨iff_of_false (by simp) (not_not.mpr hnil), h.capacity_eq, ?_⟩
    subst hnil
    exact h.shows.of_nil
  · exact ⟨iff_of_true rfl hnil, h.capacity_eq, h.shows.replaceLast hnil⟩

end Pending

/-! ## Runs -/

/-- A request that is to be replaced is pending. -/
def Replaces (l : List α) : Call α → Prop
  | .replaceLast _ => l ≠ []
  | _ => True

instance (l : List α) : ∀ a, Decidable (Replaces l a)
  | .send _ => .isTrue trivial
  | .recv => .isTrue trivial
  | .replaceLast _ => decidable_of_iff (l.isEmpty = false) (by simp [Replaces])

/-- One call keeps step with the list, and has its result unless it replaces nothing. -/
theorem Pending.call (h : Pending capacity q l) (a : Call α) :
    ((q.call a).1 = (Fifo.call capacity l a).1 ↔ Replaces l a) ∧
      Pending capacity (q.call a).2 (Fifo.call capacity l a).2 := by
  cases a with
  | send r => exact ⟨iff_of_true (h.send r).1 trivial, (h.send r).2⟩
  | recv => exact ⟨iff_of_true h.recv.1 trivial, h.recv.2⟩
  | replaceLast r => exact h.replaceLast r

/-- A run of calls on a new queue has the results of the list exactly if every request that is to be
replaced is pending. -/
theorem received_iff {alloc : Bool} {zero : α} {capacity : UInt16}
    (h : create alloc zero capacity = some q) (calls : List (Call α)) :
    results call q calls = results (Fifo.call capacity.toNat) [] calls ↔
      Meets (fun l a => some (Fifo.call capacity.toNat l a).2) Replaces [] calls :=
  Runs.results_eq_iff (fun _ _ a hR => hR.call a) calls (create_pending h)

/-- A queue of two requests that is filled, has its newest request replaced and is emptied. -/
theorem received_two : results call ⟨0, 0, false, 2, fun _ => 0⟩
      [.send 1, .send 2, .send 3, .replaceLast 4, .recv, .recv, .recv] =
    results (Fifo.call 2) [] [.send 1, .send 2, .send 3, .replaceLast 4, .recv, .recv, .recv] :=
  (received_iff (rfl : create true 0 2 = some _) _).mpr (by decide)

/-- Replacing on an empty queue reports success, and the request is lost. -/
theorem replaceLast_empty :
    (create true 0 2).map (fun q => results call q [.replaceLast 7, .recv]) =
        some [(.ok, none), (.fail, none)] ∧
      ¬ ∀ calls : List (Call Nat), (create true 0 2).map (fun q => results call q calls) =
        some (results (Fifo.call 2) [] calls) := by
  refine ⟨rfl, fun h => ?_⟩
  have hreplace := h [.replaceLast 7]
  simp [create, results, call, replaceLast, Fifo.call, RingQueue.replaceLast] at hreplace

end EventQueue

end Awtk
