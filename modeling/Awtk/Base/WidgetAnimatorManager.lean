import Mathlib
import Awtk.Lib.Chain
import Awtk.Tkc.CStr
import Awtk.Tkc.Types

/-!
# The animator manager

A model of `widget_animator_manager.c` and of the part of `widget_animator.c` that it runs.
Animators are addresses and `0` is NULL.  A read or write through a pointer that is not allocated, or
a loop that does not end, has no result.

A callback is arbitrary code that calls the manager back, so `time_elapse` is cut at the call of a
callback: `timeElapse` runs up to the first call, `callbackReturned` from the return of a callback to
the next call or to the end.  Handlers of other events than those of `time_elapse` leave the manager
alone.

The trace is not in the source.  It has the animators that were added and not removed, and what
happened since the last `time_elapse` began.
-/

namespace Awtk

/-- `animator_state_t`. -/
inductive AnimatorState where
  | created
  | running
  | paused
  | stopped
  | done
  deriving DecidableEq, Repr

/-- `widget_animator_t`.  `manager` and `update` tell whether the pointers are not NULL, and `scale`
is the product with `time_scale`. -/
structure WidgetAnimator where
  name : Option Str
  widget : Nat
  yoyoTimes : UInt32
  repeatTimes : UInt32
  now : UInt32
  scale : UInt32 → UInt32
  startTime : UInt32
  delay : UInt32
  duration : UInt32
  state : AnimatorState
  update : Bool
  reversed : Bool
  forever : Bool
  destroyWhenDone : Bool
  toDispatch : Bool
  manager : Bool
  next : Nat
  delayTime : UInt32
  totalYoyoTimes : UInt32
  totalRepeatTimes : UInt32

namespace AnimatorManager

/-- Where `widget_animator_time_elapse` calls back.  Its `end_time` is older than the update. -/
inductive Point where
  | update (endTime : UInt32)
  | once
  | ended
  deriving DecidableEq

/-- The animator whose callback is running, in a `time_elapse` by `delta`. -/
structure Turn where
  animator : Nat
  delta : UInt32
  point : Point

/-- What happened.  The fields after `order` are about the last `time_elapse`. -/
structure Trace where
  order : List Nat
  began : List Nat
  turns : List Nat
  removed : List Nat
  added : Nat
  returns : Nat

end AnimatorManager

open AnimatorManager (Turn Trace Point)

/-- `widget_animator_manager_t`, with the animators that are allocated. -/
structure AnimatorManager where
  first : Nat
  allocated : List Nat
  animators : Nat → WidgetAnimator
  turn : Option Turn
  trace : Trace

namespace AnimatorManager

/-! ## The list -/

/-- Assign to fields of an animator. -/
def modify (m : AnimatorManager) (a : Nat) (g : WidgetAnimator → WidgetAnimator) :
    AnimatorManager :=
  { m with animators := Function.update m.animators a (g (m.animators a)) }

/-- The link of an animator. -/
def next (m : AnimatorManager) (a : Nat) : Nat := (m.animators a).next

/-- The animators that a loop over the list visits. -/
def list (m : AnimatorManager) : Option (List Nat) :=
  Chain.walk m.next (· ∈ m.allocated) m.allocated.length m.first

/-- `widget_animator_manager_add`. -/
def add (m : AnimatorManager) (animator : Nat) : Option (Ret × AnimatorManager) :=
  if animator = 0 then some (.badParams, m)
  else if animator ∈ m.allocated then
    match m.list with
    | none => none
    | some l =>
      let m :=
        if m.first = 0 then { m with first := animator }
        else m.modify (l.getLastD 0) fun iter => { iter with next := animator }
      some (.ok, m.modify animator fun a => { a with manager := true })
  else none

/-- The `prev` with which the loop of `widget_animator_manager_remove` finds an animator behind the
first one. -/
def findPrev (animator : Nat) : List Nat → Option Nat
  | prev :: iter :: l => if iter = animator then some prev else findPrev animator (iter :: l)
  | _ => none

def remove (m : AnimatorManager) (animator : Nat) : Option (Ret × AnimatorManager) :=
  if animator = 0 then some (.badParams, m)
  else if m.first = 0 then some (.notFound, m)
  else if m.first = animator then
    if animator ∈ m.allocated then some (.ok, { m with first := m.next animator }) else none
  else
    match m.list with
    | none => none
    | some l =>
      match findPrev animator l with
      | none => some (.notFound, m)
      | some prev =>
        let m := m.modify prev fun iter => { iter with next := m.next animator }
        some (.ok, m.modify animator fun iter => { iter with manager := false })

/-- `widget_animator_destroy`.  The memory is freed when the program is idle. -/
def destroy (m : AnimatorManager) (animator : Nat) : Option (Ret × AnimatorManager) :=
  if animator ∈ m.allocated then
    if (m.animators animator).update then
      let m? := if (m.animators animator).manager then (m.remove animator).map Prod.snd else some m
      m?.map fun m => (.ok, m.modify animator fun a => { a with update := false })
    else some (.badParams, m)
  else none

def isEqual (iter : WidgetAnimator) (widget : Nat) (name : Option Str) : Bool :=
  (iter.widget = widget || widget = 0) &&
    match name with
    | none => true
    | some name => iter.name = some name

/-- The loop of `widget_animator_manager_remove_all`. -/
def removeAllLoop (widget : Nat) (name : Option Str) :
    Nat → AnimatorManager → Nat → Nat → Ret → Option (Ret × AnimatorManager)
  | 0, _, _, _, _ => none
  | fuel + 1, m, prev, iter, ret =>
    if iter = 0 then some (ret, m)
    else if iter ∈ m.allocated then
      if isEqual (m.animators iter) widget name then
        let m := m.modify iter fun a => { a with manager := false }
        if iter = m.first then
          match ({ m with first := m.next iter } : AnimatorManager).destroy iter with
          | none => none
          | some (_, m) => removeAllLoop widget name fuel m m.first m.first .ok
        else if prev ∈ m.allocated then
          match (m.modify prev fun a => { a with next := m.next iter }).destroy iter with
          | none => none
          | some (_, m) => removeAllLoop widget name fuel m prev (m.next prev) .ok
        else none
      else removeAllLoop widget name fuel m iter (m.next iter) ret
    else none

def removeAll (m : AnimatorManager) (widget : Nat) (name : Option Str) :
    Option (Ret × AnimatorManager) :=
  removeAllLoop widget name (m.allocated.length + 1) m m.first m.first .notFound

/-- The loop of `widget_animator_manager_reset`. -/
def resetLoop : Nat → AnimatorManager → Nat → Option AnimatorManager
  | 0, _, _ => none
  | fuel + 1, m, iter =>
    if iter = 0 then some m
    else
      match m.destroy iter with
      | none => none
      | some (_, m') => resetLoop fuel m' (m.next iter)

def reset (m : AnimatorManager) : Option (Ret × AnimatorManager) :=
  (resetLoop (m.allocated.length + 1) m m.first).map fun m => (.ok, { m with first := 0 })

/-! ## Starting and stopping -/

/-- `action_t`. -/
inductive Action where
  | start
  | stop
  | pause
  deriving DecidableEq

def animatorStart (a : WidgetAnimator) : WidgetAnimator :=
  if a.state = .running then a
  else
    let a :=
      if a.state = .done then
        { a with
          now := 0
          startTime := 0
          reversed := false
          yoyoTimes := a.totalYoyoTimes
          repeatTimes := a.totalRepeatTimes }
      else a
    { a with state := .running, delayTime := a.delay }

def animatorStop (a : WidgetAnimator) : WidgetAnimator :=
  if a.state = .running then
    { a with now := 0, startTime := 0, reversed := false, state := .stopped }
  else a

def animatorPause (a : WidgetAnimator) : WidgetAnimator :=
  if a.state = .running then { a with state := .paused } else a

/-- What `widget_animator_manager_exec` does to an animator. -/
def animatorExec (action : Action) (a : WidgetAnimator) : WidgetAnimator :=
  match action with
  | .start => animatorStart a
  | .stop => animatorStop a
  | .pause => animatorPause a

/-- `widget_animator_manager_exec`, which returns the number of animators. -/
def exec (m : AnimatorManager) (widget : Nat) (name : Option Str) (action : Action) :
    Option (Nat × AnimatorManager) :=
  m.list.map fun l =>
    let l := l.filter fun iter => isEqual (m.animators iter) widget name
    (l.length, l.foldl (fun m iter => m.modify iter (animatorExec action)) m)

/-! ## Calls -/

/-- A call of the program or of a callback. -/
inductive Call where
  | add (animator : Nat)
  | remove (animator : Nat)
  | removeAll (widget : Nat) (name : Option Str)
  | reset
  | destroy (animator : Nat)
  | exec (widget : Nat) (name : Option Str) (action : Action)

/-- The animators that were added and not removed, after a call. -/
def Call.order (m : AnimatorManager) : Call → List Nat
  | .add animator => m.trace.order ++ [animator]
  | .remove animator | .destroy animator => m.trace.order.erase animator
  | .removeAll widget name =>
    m.trace.order.filter fun iter => !isEqual (m.animators iter) widget name
  | .reset => []
  | .exec .. => m.trace.order

/-- The number of animators that a call adds. -/
def Call.adds : Call → Nat
  | .add _ => 1
  | _ => 0

/-- Note a call in the trace. -/
def note (m : AnimatorManager) (c : Call) : AnimatorManager :=
  { m with trace := { m.trace with
      order := c.order m
      removed := m.trace.removed ++ m.trace.order.filter fun a => a ∉ c.order m
      added := m.trace.added + c.adds } }

/-- What the call does to the list. -/
def perform (m : AnimatorManager) : Call → Option AnimatorManager
  | .add animator => (m.add animator).map Prod.snd
  | .remove animator => (m.remove animator).map Prod.snd
  | .removeAll widget name => (m.removeAll widget name).map Prod.snd
  | .reset => m.reset.map Prod.snd
  | .destroy animator => (m.destroy animator).map Prod.snd
  | .exec widget name action => (m.exec widget name action).map Prod.snd

/-- A call, with its note. -/
def call (m : AnimatorManager) (c : Call) : Option AnimatorManager := (m.note c).perform c

/-! ## Elapsing time -/

def setToDispatch (m : AnimatorManager) : Option AnimatorManager :=
  m.list.map fun l => l.foldl (fun m iter => m.modify iter fun a => { a with toDispatch := true }) m

def getToDispatch (m : AnimatorManager) : Option Nat :=
  m.list.map fun l => (l.find? fun iter => (m.animators iter).toDispatch).getD 0

/-- The end of `widget_animator_time_elapse`.  The animator is destroyed after the last callback. -/
def elapseEnd (m : AnimatorManager) (animator : Nat) : Option AnimatorManager :=
  if (m.animators animator).destroyWhenDone then m.call (.destroy animator) else some m

/-- `widget_animator_time_elapse` after the callback for a repetition. -/
def elapseOnce (m : AnimatorManager) (animator : Nat) : Option Point × AnimatorManager :=
  let a := m.animators animator
  if a.repeatTimes = 0 ∧ a.yoyoTimes = 0 then
    (some .ended, m.modify animator fun a => { a with state := .done })
  else (none, m)

/-- `widget_animator_time_elapse` after the update. -/
def elapseUpdate (m : AnimatorManager) (animator : Nat) (endTime : UInt32) :
    Option Point × AnimatorManager :=
  let a := m.animators animator
  if endTime ≤ a.now then
    if 0 < a.repeatTimes then
      let repeatTimes := a.repeatTimes - 1
      (some .once, m.modify animator fun a => { a with
        startTime := a.now
        repeatTimes := if repeatTimes = 0 ∧ a.forever then 0xffffffff else repeatTimes })
    else if 0 < a.yoyoTimes then
      let yoyoTimes := if a.reversed then a.yoyoTimes - 1 else a.yoyoTimes
      (some .once, m.modify animator fun a => { a with
        startTime := a.now
        reversed := !a.reversed
        yoyoTimes := if yoyoTimes = 0 ∧ a.forever then 0xffffffff else yoyoTimes })
    else m.elapseOnce animator
  else (none, m)

/-- `widget_animator_time_elapse` up to the first callback. -/
def elapseStart (m : AnimatorManager) (animator : Nat) (delta : UInt32) :
    Option Point × AnimatorManager :=
  let a := m.animators animator
  if a.state ≠ .running then (none, m)
  else
    let elapsed := a.scale delta
    let delay := a.delayTime - elapsed
    -- The difference is an `int32_t`.
    if 0 < a.delayTime ∧ 0 < delay ∧ delay < 0x80000000 then
      (none, m.modify animator fun a => { a with delayTime := delay })
    else
      let a :=
        if 0 < a.delayTime then
          { a with now := 0 - delay, delayTime := 0, startTime := 0 }
        else { a with now := a.now + elapsed }
      let m := m.modify animator fun _ => a
      let endTime := a.startTime + a.duration
      if a.update then (some (.update endTime), m) else m.elapseUpdate animator endTime

/-- An animator of the list begins its turn. -/
def beginTurn (m : AnimatorManager) (iter : Nat) : AnimatorManager :=
  { m.modify iter fun a => { a with toDispatch := false } with
    trace := { m.trace with turns := m.trace.turns ++ [iter] } }

/-- The loop of `widget_animator_manager_time_elapse` up to a callback. -/
def dispatchLoop (delta : UInt32) : Nat → AnimatorManager → Option AnimatorManager
  | 0, _ => none
  | fuel + 1, m =>
    match m.getToDispatch with
    | none => none
    | some iter =>
      if iter = 0 then some { m with turn := none }
      else
        match (m.beginTurn iter).elapseStart iter delta with
        | (none, m) => dispatchLoop delta fuel m
        | (some point, m) => some { m with turn := some ⟨iter, delta, point⟩ }

/-- `widget_animator_manager_time_elapse` up to a callback, with the product of the time and
`time_scale`. -/
def timeElapse (m : AnimatorManager) (delta : UInt32) : Option AnimatorManager :=
  match m.turn with
  | some _ => none
  | none =>
    match m.setToDispatch with
    | none => none
    | some m =>
      dispatchLoop delta (m.allocated.length + 1) { m with
        trace := ⟨m.trace.order, m.trace.order, [], [], 0, 0⟩ }

/-- A callback has returned. -/
def noteReturn (m : AnimatorManager) : AnimatorManager :=
  { m with trace := { m.trace with returns := m.trace.returns + 1 } }

/-- The turn of an animator waits for the next callback, or it is over. -/
def resume (animator : Nat) (delta : UInt32) : Option Point × AnimatorManager → Option AnimatorManager
  | (none, m) => dispatchLoop delta (m.allocated.length + 1) m
  | (some point, m) => some { m with turn := some ⟨animator, delta, point⟩ }

/-- `widget_animator_manager_time_elapse` after a callback. -/
def callbackReturned (m : AnimatorManager) : Option AnimatorManager :=
  match m.turn with
  | none => none
  | some ⟨animator, delta, point⟩ =>
    if animator ∈ m.allocated then
      match point with
      | .update endTime => resume animator delta (m.noteReturn.elapseUpdate animator endTime)
      | .once => resume animator delta (m.noteReturn.elapseOnce animator)
      | .ended =>
        match m.noteReturn.elapseEnd animator with
        | none => none
        | some m => resume animator delta (none, m)
    else none

/-! ## Steps -/

/-- What the program does, and what a callback does. -/
inductive Step where
  | create (animator : Nat) (fields : WidgetAnimator)
  | call (c : Call)
  | timeElapse (delta : UInt32)
  | callbackReturned
  | idle

/-- The manager of a program that starts. -/
def init (animators : Nat → WidgetAnimator) : AnimatorManager :=
  ⟨0, [], animators, none, ⟨[], [], [], [], 0, 0⟩⟩

/-- `TKMEM_ZALLOC` of an animator, whose update function is set. -/
def create (m : AnimatorManager) (animator : Nat) (fields : WidgetAnimator) : AnimatorManager :=
  { m with allocated := animator :: m.allocated }.modify animator fun _ =>
    { fields with next := 0, manager := false, toDispatch := false, update := true }

/-- `widget_animator_do_destroy_async` for the destroyed animators. -/
def idle (m : AnimatorManager) : AnimatorManager :=
  { m with allocated := m.allocated.filter fun a => (m.animators a).update }

/-- A step of a program. -/
def step (m : AnimatorManager) : Step → Option AnimatorManager
  | .create animator fields => some (m.create animator fields)
  | .call c => m.call c
  | .timeElapse delta => m.timeElapse delta
  | .callbackReturned => m.callbackReturned
  | .idle => some m.idle

end AnimatorManager

end Awtk
