import Awtk.Lib.Run
import Awtk.Tkc.Types

/-!
# The timer manager

A model of `timer_manager.c` and `timer_info.c`.  A timer is an object with a number of its own,
since an id may be used again.  The clock is read by the operations: a reading is an argument, and
`System.step` takes no reading that is before an earlier one.

A dispatch is a number of turns (`timer_manager_dispatch_one`).  While the handler of a timer runs,
it may call any of the operations.
-/

namespace Awtk

/-- `timer_info_t`. -/
structure TimerInfo where
  object : Nat
  id : Nat
  start : Nat
  now : Nat
  duration : Nat
  suspend : Bool
  busy : Bool
  deriving DecidableEq, Repr

/-- `timer_manager_t`, with the number of timers that were created. -/
structure TimerManager where
  timers : List TimerInfo
  nextTimerId : Nat
  lastDispatchTime : Nat
  created : Nat
  deriving DecidableEq, Repr

namespace TimerInfo

def isAvailable (t : TimerInfo) (now : Nat) : Bool := !t.busy && t.now < now

/-- `(uint32_t)(now - timer->start)`. -/
def diff (t : TimerInfo) (now : Nat) : Nat := (now + (2 ^ 64 - t.start)) % 2 ^ 32

/-- The test of `timer_manager_dispatch_one`. -/
def isDue (t : TimerInfo) (now : Nat) : Bool := !t.suspend && t.duration ≤ t.diff now

end TimerInfo

namespace TimerManager

def invalidId : Nat := 0

def init (now : Nat) : TimerManager :=
  { timers := [], nextTimerId := invalidId + 1, lastDispatchTime := now, created := 0 }

def find (m : TimerManager) (id : Nat) : Option TimerInfo :=
  if id = invalidId then none else m.timers.find? (·.id = id)

/-- A write to the fields of a timer. -/
def update (m : TimerManager) (object : Nat) (f : TimerInfo → TimerInfo) : TimerManager :=
  { m with timers := m.timers.map fun t => if t.object = object then f t else t }

/-- `next_timer_id++`, and once more where that is the invalid id. -/
def candidate (m : TimerManager) : Nat :=
  if m.nextTimerId = invalidId then U32.add m.nextTimerId 1 else m.nextTimerId

/-- The loop of `timer_manager_get_next_timer_id`.  There is no result where it tries so many ids. -/
def nextId (m : TimerManager) : Nat → Option (Nat × TimerManager)
  | 0 => none
  | fuel + 1 =>
    let m' := { m with nextTimerId := U32.add m.candidate 1 }
    if m'.find m.candidate = none then some (m.candidate, m') else nextId m' fuel

/-- `timer_manager_get_next_timer_id`.  One of so many ids is free. -/
def getNextTimerId (m : TimerManager) : Option (Nat × TimerManager) := m.nextId (m.timers.length + 1)

/-- `timer_info_create`, where `now` is a `uint32_t`. -/
def create (m : TimerManager) (id duration now start : Nat) : TimerManager :=
  let timer : TimerInfo :=
    { object := m.created, id, start, now, duration, suspend := false, busy := false }
  { m with timers := m.timers ++ [timer], created := m.created + 1 }

/-- `timer_manager_add_with_type_and_id`, which reads the clock for `now` and for `start`. -/
def addWithTypeAndId (m : TimerManager) (id duration : Nat) (isCheckId : Bool) (now start : Nat) :
    TimerManager :=
  if id = invalidId then m
  else if isCheckId ∧ m.find id ≠ none then m
  else m.create id duration (if duration ≠ 0 then now % 2 ^ 32 else 0) start

/-- `timer_manager_add`. -/
def add (m : TimerManager) (duration now start : Nat) : Option TimerManager :=
  m.getNextTimerId.map fun (id, m) => m.addWithTypeAndId id duration false now start

def reset (m : TimerManager) (id now : Nat) : TimerManager :=
  match m.find id with
  | none => m
  | some t => m.update t.object ({ · with start := now })

def remove (m : TimerManager) (id : Nat) : TimerManager :=
  if id = invalidId then m else { m with timers := m.timers.eraseP (·.id = id) }

/-- `timer_suspend` and `timer_resume`. -/
def setSuspend (m : TimerManager) (id : Nat) (suspend : Bool) : TimerManager :=
  match m.find id with
  | none => m
  | some t => m.update t.object ({ · with suspend := suspend })

/-- The timer that `timer_manager_dispatch_one` takes. -/
def next (m : TimerManager) (now : Nat) : Option TimerInfo := m.timers.find? (·.isAvailable now)

/-- What a handler returns for `RET_REPEAT` and for another code. -/
inductive Answer where
  | repeat
  | remove
  deriving DecidableEq, Repr

/-- The end of `timer_info_on_timer` and what `timer_manager_dispatch_one` does for the answer. -/
def answer (m : TimerManager) (t : TimerInfo) (now : Nat) (a : Answer) : TimerManager :=
  let m := m.update t.object ({ · with busy := false })
  match a with
  | .repeat => m.update t.object ({ · with start := now })
  | .remove => m.remove t.id

end TimerManager

/-! ## Runs -/

/-- A call, with the readings of the clock. -/
inductive TimerCall where
  | add (duration now start : Nat)
  | addWithId (id duration now start : Nat)
  | reset (id now : Nat)
  | remove (id : Nat)
  | suspend (id : Nat)
  | resume (id : Nat)
  deriving DecidableEq, Repr

/-- The readings of the clock in a call. -/
def TimerCall.readings : TimerCall → List Nat
  | add _ now start | addWithId _ _ now start => [now, start]
  | reset _ now => [now]
  | remove _ | suspend _ | resume _ => []

/-- The effect of a call. -/
def TimerCall.apply (m : TimerManager) : TimerCall → Option TimerManager
  | add duration now start => m.add duration now start
  | addWithId id duration now start => some (m.addWithTypeAndId id duration true now start)
  | reset id now => some (m.reset id now)
  | remove id => some (m.remove id)
  | suspend id => some (m.setSuspend id true)
  | resume id => some (m.setSuspend id false)

/-- Where a dispatch is. -/
inductive Phase where
  | idle
  | dispatching
  | handling (t : TimerInfo)
  deriving DecidableEq, Repr

/-- A call of a handler: the timer as it was, and the reading that the dispatch uses. -/
structure Invocation where
  timer : TimerInfo
  now : Nat
  deriving DecidableEq, Repr

/-- A timer manager at work: the last reading of the clock, the reading that the dispatch uses and
the handlers that it called. -/
structure TimerSystem where
  manager : TimerManager
  clock : Nat
  now : Nat
  phase : Phase
  invoked : List Invocation
  deriving DecidableEq, Repr

/-- What happens next.  A dispatch starts, it takes a turn, or a handler returns. -/
inductive TimerAction where
  | call (c : TimerCall)
  | dispatch (now : Nat)
  | turn
  | answer (a : TimerManager.Answer)
  deriving DecidableEq, Repr

namespace TimerSystem

def init (now : Nat) : TimerSystem := ⟨.init now, now, now, .idle, []⟩

/-- The clock after some readings, unless one of them goes back. -/
def advance : Nat → List Nat → Option Nat
  | clock, [] => some clock
  | clock, t :: ts => if clock ≤ t ∧ t < 2 ^ 64 then advance t ts else none

/-- A call, in a handler or not. -/
def call (s : TimerSystem) (c : TimerCall) : Option TimerSystem :=
  if s.phase = .dispatching then none
  else
    (advance s.clock c.readings).bind fun clock =>
      (c.apply s.manager).map fun m => { s with manager := m, clock }

/-- The start of `timer_manager_dispatch`. -/
def dispatch (s : TimerSystem) (now : Nat) : Option TimerSystem :=
  if s.phase = .idle then
    (advance s.clock [now]).map fun clock =>
      { manager := { s.manager with lastDispatchTime := now }, clock, now, invoked := [],
        phase := if s.manager.timers = [] then .idle else .dispatching }
  else none

/-- `timer_manager_dispatch_one` up to the call of the handler. -/
def turn (s : TimerSystem) : Option TimerSystem :=
  if s.phase = .dispatching then
    match s.manager.next s.now with
    | none => some { s with phase := .idle }
    | some t =>
      let m := s.manager.update t.object ({ · with now := s.now })
      if t.isDue s.now then
        some { s with
          manager := m.update t.object ({ · with busy := true }), phase := .handling t,
          invoked := ⟨t, s.now⟩ :: s.invoked }
      else some { s with manager := m }
  else none

/-- The handler returns. -/
def answer (s : TimerSystem) (a : TimerManager.Answer) : Option TimerSystem :=
  match s.phase with
  | .handling t => some { s with manager := s.manager.answer t s.now a, phase := .dispatching }
  | _ => none

/-- One step.  A step that is not possible has no result. -/
def step (s : TimerSystem) : TimerAction → Option TimerSystem
  | .call c => s.call c
  | .dispatch now => s.dispatch now
  | .turn => s.turn
  | .answer a => s.answer a

end TimerSystem

end Awtk
