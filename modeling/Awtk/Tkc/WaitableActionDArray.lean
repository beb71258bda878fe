import Awtk.Tkc.Types

/-!
# The array of actions that can be waited for

`waitable_action_darray.c`: an array of actions behind a mutex, with one semaphore that counts the
free places and one that counts the actions that are queued.  Threads call its functions.  A step of a
thread is one operation on a semaphore, the change of the array with the mutex locked, the
destruction of an action, or the end of a call.  Any wait can time out.

Locking, unlocking and posting do not fail.  A comparator is a function of the action and of the
pointer it is given.
-/

namespace Awtk.WaitableActionDArray

/-- What the code reads of a `qaction_t`.  `onEvent` is what its callback, if it has one, answers
to `EVT_DESTROY`. -/
structure QAction where
  addr : UInt64
  exec : UInt64
  onEvent : Option Ret
  deriving DecidableEq, Repr

/-- `qaction_notify` of `EVT_DESTROY`. -/
def QAction.notify (action : QAction) : Ret := action.onEvent.getD .notImpl

/-- `tk_compare_t`, on an action and a pointer. -/
abbrev Compare := QAction → UInt64 → Int

/-- `on_darray_compare`.  The result is an `int`. -/
def onDarrayCompare : Compare := fun iter data =>
  Int.bmod ((iter.exec.toNat : Int) - data.toNat) (2 ^ 32)

/-- The two semaphores, `sema_send` and `sema_recv`. -/
inductive Sema where
  | send
  | recv
  deriving DecidableEq, Repr

end WaitableActionDArray

/-- `waitable_action_darray_t`.  `elms` and `capacity` are those of the `darray`. -/
structure WaitableActionDArray where
  elms : List WaitableActionDArray.QAction
  capacity : Nat
  semaSend : Nat
  semaRecv : Nat
  locked : Bool

namespace WaitableActionDArray

def create (capacity : Nat) : WaitableActionDArray where
  elms := []
  capacity := capacity
  semaSend := capacity
  semaRecv := 0
  locked := false

/-! ## The semaphores -/

def permits (q : WaitableActionDArray) : Sema → Nat
  | .send => q.semaSend
  | .recv => q.semaRecv

def setPermits (q : WaitableActionDArray) (n : Nat) : Sema → WaitableActionDArray
  | .send => { q with semaSend := n }
  | .recv => { q with semaRecv := n }

/-- `tk_semaphore_wait`, where there is a permit. -/
def wait (q : WaitableActionDArray) (sema : Sema) : Option WaitableActionDArray :=
  if 0 < q.permits sema then some (q.setPermits (q.permits sema - 1) sema) else none

def post (q : WaitableActionDArray) (sema : Sema) : WaitableActionDArray :=
  q.setPermits (q.permits sema + 1) sema

/-! ## The array -/

/-- `darray_push`.  The array grows if it can. -/
def push (q : WaitableActionDArray) (grows : Bool) (action : QAction) : Ret × WaitableActionDArray :=
  if q.elms.length < q.capacity then (.ok, { q with elms := q.elms ++ [action] })
  else if grows then
    (.ok, { q with elms := q.elms ++ [action], capacity := q.capacity / 2 + q.capacity + 1 })
  else (.oom, q)

def findIndexEx (q : WaitableActionDArray) (cmp : Option Compare) (data : UInt64) : Option Nat :=
  q.elms.findIdx? fun iter => (cmp.getD onDarrayCompare) iter data = 0

def findEx (q : WaitableActionDArray) (cmp : Option Compare) (ctx : UInt64) : Option QAction :=
  (q.findIndexEx cmp ctx).bind fun pos => q.elms[pos]?

def removeIndex (q : WaitableActionDArray) (index : Nat) : Ret × WaitableActionDArray :=
  if index < q.elms.length then (.ok, { q with elms := q.elms.eraseIdx index }) else (.badParams, q)

def removeEx (q : WaitableActionDArray) (cmp : Option Compare) (ctx : UInt64) :
    Ret × WaitableActionDArray :=
  match q.findIndexEx cmp ctx with
  | none => (.notFound, q)
  | some index => q.removeIndex index

/-- `darray_replace`. -/
def replaceIndex (q : WaitableActionDArray) (index : Nat) (data : QAction) :
    Ret × WaitableActionDArray :=
  if index < q.elms.length then (.ok, { q with elms := q.elms.set index data }) else (.badParams, q)

/-! ## The calls -/

/-- `waitable_action_darray_send`, `_recv`, `_find_ex`, `_remove_ex` and `_replace_ex`. -/
inductive Call where
  | send (action : QAction)
  | recv
  | findEx (cmp : Option Compare) (ctx : UInt64)
  | removeEx (cmp : Option Compare) (ctx : UInt64)
  | replaceEx (exec : UInt64) (newAction : QAction)

namespace Call

def find (exec : UInt64) : Call := .findEx none exec

def remove (exec : UInt64) : Call := .removeEx none exec

def replace (newAction : QAction) : Call := .replaceEx newAction.exec newAction

/-- `return_value_if_fail`. -/
def checks : Call → Bool
  | send _ | recv => true
  | findEx _ ctx | removeEx _ ctx => ctx ≠ 0
  | replaceEx exec _ => exec ≠ 0

/-- The semaphore that a call waits for. -/
def sema : Call → Option Sema
  | send _ => some .send
  | recv | removeEx _ _ => some .recv
  | findEx _ _ | replaceEx _ _ => none

/-- What a call returns if it does not get a permit. -/
def timeoutRet : Call → Ret
  | send _ | recv => .timeout
  | _ => .fail

end Call

/-- What a call does with the mutex locked: what it returns, the action that it gives its caller,
the semaphore that it posts and the action that it destroys. -/
structure Outcome where
  ret : Ret
  action : Option QAction
  posts : Option Sema
  destroys : Option QAction

/-- The change of the array. -/
def change (q : WaitableActionDArray) (grows : Bool) : Call → Outcome × WaitableActionDArray
  | .send action =>
    let (ret, q) := q.push grows action
    ({ ret, action := none, posts := if ret = .ok then some .recv else none, destroys := none }, q)
  | .recv =>
    let action := q.elms.head?
    let (ret, q) := q.removeIndex 0
    ({ ret, action, posts := if ret = .ok then some .send else none, destroys := none }, q)
  | .findEx cmp ctx =>
    ({ ret := .ok, action := q.findEx cmp ctx, posts := none, destroys := none }, q)
  | .removeEx cmp ctx =>
    let action := q.findEx cmp ctx
    let (ret, q) := q.removeEx cmp ctx
    if ret = .ok then ({ ret, action := none, posts := some .send, destroys := action }, q)
    else ({ ret, action := none, posts := some .recv, destroys := none }, q)
  | .replaceEx exec newAction =>
    match q.findIndexEx none exec with
    | none => ({ ret := .fail, action := none, posts := none, destroys := none }, q)
    | some index =>
      let old := q.elms[index]?
      let (ret, q) := q.replaceIndex index newAction
      ({ ret, action := none, posts := none, destroys := if ret = .ok then old else none }, q)

/-! ## The threads -/

/-- Where a thread is: outside, in front of `tk_semaphore_wait`, in front of `tk_mutex_lock`, or
behind the change of the array with the mutex locked. -/
inductive Thread where
  | idle
  | waiting (c : Call)
  | locking (c : Call)
  | inside (c : Call) (todo : Outcome)

/-- A call that has changed the array, with the array before and after. -/
structure Entry where
  thread : Nat
  call : Call
  outcome : Outcome
  before : List QAction
  after : List QAction

/-- What a call has returned. -/
structure Reply where
  thread : Nat
  call : Call
  ret : Ret
  action : Option QAction

/-- The array with its threads.  What follows `alive` is the history: the changes of the array, what
the calls returned, the actions that were destroyed, those of them that the system had to free, and
those that the destruction of the array destroyed. -/
structure System where
  q : WaitableActionDArray
  threads : List Thread
  alive : Bool
  entries : List Entry
  replies : List Reply
  destroyed : List QAction
  freed : List QAction
  popped : List QAction

/-- A new array and its threads. -/
def System.init (capacity threads : Nat) : System where
  q := create capacity
  threads := List.replicate threads .idle
  alive := true
  entries := []
  replies := []
  destroyed := []
  freed := []
  popped := []

/-- What happens next.  `grows` says whether the array could grow. -/
inductive Act where
  | start (i : Nat) (c : Call)
  | timeout (i : Nat)
  | run (i : Nat) (grows : Bool)
  | destroy

namespace System

/-- The thread goes on elsewhere. -/
def goto (s : System) (i : Nat) (t : Thread) : System := { s with threads := s.threads.set i t }

/-- The call returns. -/
def reply (s : System) (i : Nat) (c : Call) (ret : Ret) (action : Option QAction) : System :=
  { s.goto i .idle with replies := s.replies ++ [⟨i, c, ret, action⟩] }

def destroyQaction (s : System) (action : QAction) : System :=
  { s with
    destroyed := s.destroyed ++ [action]
    freed := if action.notify = .notImpl then s.freed ++ [action] else s.freed }

/-- A call begins. -/
def start (s : System) (i : Nat) (c : Call) : System :=
  if c.checks then s.goto i (if c.sema = none then .locking c else .waiting c)
  else s.reply i c .badParams none

/-- The mutex is locked and the array changed. -/
def enter (s : System) (i : Nat) (grows : Bool) (c : Call) : System :=
  let (outcome, q) := s.q.change grows c
  { s.goto i (.inside c outcome) with
    q := { q with locked := true }
    entries := s.entries ++ [⟨i, c, outcome, s.q.elms, q.elms⟩] }

/-- The next step with the mutex locked. -/
def proceed (s : System) (i : Nat) (c : Call) (todo : Outcome) : System :=
  match todo.posts with
  | some sema => { s.goto i (.inside c { todo with posts := none }) with q := s.q.post sema }
  | none =>
    match todo.destroys with
    | some action => (s.goto i (.inside c { todo with destroys := none })).destroyQaction action
    | none => { s.reply i c todo.ret todo.action with q := { s.q with locked := false } }

/-- The loop of `waitable_action_darray_destroy`, from the last action on. -/
def destroyAll (s : System) (actions : List QAction) : System := actions.foldl destroyQaction s

def destroy (s : System) : System :=
  let actions := s.q.elms.reverse
  { s.destroyAll actions with q := { s.q with elms := [] }, alive := false, popped := actions }

/-- No call is under way. -/
def Quiet (s : System) : Prop := ∀ t ∈ s.threads, t matches .idle

instance (s : System) : Decidable s.Quiet :=
  inferInstanceAs (Decidable (∀ t ∈ s.threads, (t matches .idle) = true))

/-- One step. -/
def step (s : System) : Act → Option System
  | .start i c =>
    match s.threads[i]? with
    | some .idle => if s.alive then some (s.start i c) else none
    | _ => none
  | .timeout i =>
    match s.threads[i]? with
    | some (.waiting c) => some (s.reply i c c.timeoutRet none)
    | _ => none
  | .run i grows =>
    match s.threads[i]? with
    | some (.waiting c) =>
      (c.sema.bind s.q.wait).map fun q => { s.goto i (.locking c) with q }
    | some (.locking c) => if s.q.locked then none else some (s.enter i grows c)
    | some (.inside c todo) => some (s.proceed i c todo)
    | _ => none
  | .destroy => if s.alive ∧ s.Quiet then some s.destroy else none

end System

end Awtk.WaitableActionDArray
