import Mathlib
import Awtk.Lib.Loop
import Awtk.Tkc.Types

/-!
# The idle manager

A model of `idle_manager.c` and `idle_info.c`.  An idle is an object with a
number of its own, since an id may be used again.  Allocations succeed, and a
handler is never NULL.

A handler is a program of type `IdleProg`.  It calls the manager, reads what
there is to read and starts dispatches, and what it does next may depend on all
that it has seen.  `IdleSystem.turn` runs the dispatches and the handlers with an
explicit stack.  The number of the dispatch that called a handler and the log
are not in the source: they record what happened.
-/

namespace Awtk

/-- `idle_info_t`. -/
structure IdleInfo (F : Type) where
  object : Nat
  id : UInt32
  onIdle : F
  ctx : UInt64
  idleInfoType : UInt16
  busy : Bool
  dispatchId : UInt32

/-- `idle_manager_t`, with the number of idles that were created. -/
structure IdleManager (F : Type) where
  idles : List (IdleInfo F)
  nextIdleId : UInt32
  dispatchTimes : UInt32
  created : Nat

variable {F : Type}

namespace IdleInfo

def isAvailable (idle : IdleInfo F) (dispatchId : UInt32) : Bool :=
  !idle.busy && idle.dispatchId ≠ dispatchId

/-- `idle_info_compare_by_ctx`: the difference of two pointers is cut to an `int`. -/
def sameCtx (idle : IdleInfo F) (ctx : UInt64) : Bool := (idle.ctx - ctx).toUInt32 = 0

/-- `idle_info_compare_by_ctx_and_type`. -/
def sameCtxAndType (idle : IdleInfo F) (type : UInt16) (ctx : UInt64) : Bool :=
  idle.idleInfoType = type && idle.sameCtx ctx

/-- `idle_info_on_idle` in front of the handler.  The idle is not busy, since it is available. -/
def begin (dispatchId : UInt32) (idle : IdleInfo F) : IdleInfo F :=
  { idle with busy := true, dispatchId := dispatchId }

/-- `idle_info_on_idle` behind the handler. -/
def finish (idle : IdleInfo F) : IdleInfo F := { idle with busy := false }

end IdleInfo

namespace IdleManager

def invalidId : UInt32 := 0

def init (F : Type) : IdleManager F :=
  { idles := [], nextIdleId := invalidId + 1, dispatchTimes := 0, created := 0 }

/-- The idles that are listed. -/
def objects (m : IdleManager F) : List Nat := m.idles.map IdleInfo.object

def find (m : IdleManager F) (id : UInt32) : Option (IdleInfo F) :=
  if id = invalidId then none else m.idles.find? (·.id = id)

/-- A write to the fields of an idle. -/
def update (m : IdleManager F) (object : Nat) (f : IdleInfo F → IdleInfo F) : IdleManager F :=
  { m with idles := m.idles.map fun idle => if idle.object = object then f idle else idle }

/-- `next_idle_id++`, and once more where that is the invalid id. -/
def candidate (m : IdleManager F) : UInt32 :=
  if m.nextIdleId = invalidId then m.nextIdleId + 1 else m.nextIdleId

/-- The loop of `idle_manager_get_next_idle_id`.  There is no result where it tries so many ids. -/
def nextId (m : IdleManager F) : Nat → Option (UInt32 × IdleManager F)
  | 0 => none
  | fuel + 1 =>
    let m' := { m with nextIdleId := m.candidate + 1 }
    if (m'.find m.candidate).isNone then some (m.candidate, m') else m'.nextId fuel

/-- `idle_manager_get_next_idle_id`.  After so many tries all ids are taken, and the loop goes on
for ever. -/
def getNextIdleId (m : IdleManager F) : Option (UInt32 × IdleManager F) := m.nextId (2 ^ 32)

/-- `idle_info_create`, with `idle_manager_append`. -/
def create (m : IdleManager F) (id : UInt32) (onIdle : F) (ctx : UInt64) (type : UInt16) :
    IdleManager F :=
  let idle : IdleInfo F :=
    { object := m.created, id, onIdle, ctx, idleInfoType := type, busy := false, dispatchId := 0 }
  { m with idles := m.idles ++ [idle], created := m.created + 1 }

def addWithTypeAndId (m : IdleManager F) (id : UInt32) (onIdle : F) (ctx : UInt64) (type : UInt16)
    (checkId : Bool) : UInt32 × IdleManager F :=
  if checkId ∧ (m.find id).isSome then (invalidId, m)
  else if id = invalidId then (invalidId, m)
  else (id, m.create id onIdle ctx type)

def addWithType (m : IdleManager F) (onIdle : F) (ctx : UInt64) (type : UInt16) :
    Option (UInt32 × IdleManager F) :=
  m.getNextIdleId.map fun (id, m) => m.addWithTypeAndId id onIdle ctx type false

/-- `slist_remove_ex` of at most one idle. -/
def removeOne (m : IdleManager F) (hit : IdleInfo F → Bool) : Ret × IdleManager F :=
  (if m.idles.any hit then .ok else .notFound, { m with idles := m.idles.eraseP hit })

/-- `slist_remove_ex` of all idles that are hit. -/
def removeHits (m : IdleManager F) (hit : IdleInfo F → Bool) : Ret × IdleManager F :=
  (if m.idles.any hit then .ok else .notFound, { m with idles := m.idles.filter fun x => !hit x })

def remove (m : IdleManager F) (id : UInt32) : Ret × IdleManager F :=
  if id = invalidId then (.badParams, m) else m.removeOne (·.id = id)

def removeAllByCtx (m : IdleManager F) (ctx : UInt64) : Ret × IdleManager F :=
  m.removeHits (·.sameCtx ctx)

def removeAllByCtxAndType (m : IdleManager F) (type : UInt16) (ctx : UInt64) :
    Ret × IdleManager F :=
  m.removeHits (·.sameCtxAndType type ctx)

def removeAll (m : IdleManager F) : Ret × IdleManager F := (.ok, { m with idles := [] })

/-- `dispatch_times++`. -/
def tick (m : IdleManager F) : IdleManager F := { m with dispatchTimes := m.dispatchTimes + 1 }

/-- The idle that `idle_manager_dispatch_one` takes. -/
def next (m : IdleManager F) (dispatchId : UInt32) : Option (IdleInfo F) :=
  m.idles.find? (·.isAvailable dispatchId)

/-- `idle_manager_dispatch_one` behind the handler. -/
def answer (m : IdleManager F) (idle : IdleInfo F) (r : Ret) : IdleManager F :=
  let m := m.update idle.object IdleInfo.finish
  if r ≠ .repeat then (m.remove idle.id).2 else m

end IdleManager

/-! ## Handlers -/

/-- What a handler asks of the manager. -/
inductive IdleCall (F : Type) where
  | add (onIdle : F) (ctx : UInt64) (type : UInt16)
  | addWithId (id : UInt32) (onIdle : F) (ctx : UInt64) (type : UInt16) (checkId : Bool)
  | remove (id : UInt32)
  | removeAllByCtx (ctx : UInt64)
  | removeAllByCtxAndType (type : UInt16) (ctx : UInt64)
  | removeAll

/-- What the manager answers. -/
inductive IdleReply where
  | id (id : UInt32)
  | ret (r : Ret)

/-- The effect of a call.  There is none if the call never returns. -/
def IdleCall.apply (m : IdleManager F) : IdleCall F → Option (IdleReply × IdleManager F)
  | add onIdle ctx type => (m.addWithType onIdle ctx type).map fun (id, m) => (.id id, m)
  | addWithId id onIdle ctx type checkId =>
    let (id, m) := m.addWithTypeAndId id onIdle ctx type checkId
    some (.id id, m)
  | remove id => let (r, m) := m.remove id; some (.ret r, m)
  | removeAllByCtx ctx => let (r, m) := m.removeAllByCtx ctx; some (.ret r, m)
  | removeAllByCtxAndType type ctx =>
    let (r, m) := m.removeAllByCtxAndType type ctx
    some (.ret r, m)
  | removeAll => let (r, m) := m.removeAll; some (.ret r, m)

/-- A handler that is still to do something.  `W` is all that handlers share besides the manager. -/
inductive IdleProg (W F : Type) where
  | ret (r : Ret)
  | call (c : IdleCall F) (k : IdleReply → IdleProg W F)
  | look (k : W → IdleManager F → IdleProg W F)
  | write (w : W) (prog : IdleProg W F)
  | dispatch (prog : IdleProg W F)

/-! ## Dispatches -/

/-- A function that is being called: a dispatch, with its number in the log and its
`dispatch_times`, or the handler of an idle. -/
inductive IdleFrame (W F : Type) where
  | dispatching (dispatch : Nat) (dispatchTimes : UInt32)
  | handling (idle : IdleInfo F) (prog : IdleProg W F)

/-- What happened: a dispatch called the handler of an idle, the handler returned, or a call of a
handler added or removed an idle. -/
inductive IdleEvent where
  | invoked (dispatch object : Nat)
  | returned (object : Nat) (r : Ret)
  | added (object : Nat)
  | removed (object : Nat)
  deriving DecidableEq

/-- The idles that a call added and removed. -/
def IdleManager.changes (m m' : IdleManager F) : List IdleEvent :=
  ((m.objects.filter (· ∉ m'.objects)).map .removed) ++
    ((m'.objects.filter (· ∉ m.objects)).map .added)

/-- An idle manager at work. -/
structure IdleSystem (W F : Type) where
  manager : IdleManager F
  world : W
  stack : List (IdleFrame W F)
  dispatches : Nat
  log : List IdleEvent

namespace IdleSystem

variable {W : Type}

/-- The call of `idle_manager_dispatch`. -/
def dispatch (s : IdleSystem W F) : IdleSystem W F :=
  let m := s.manager.tick
  { s with
    manager := m, dispatches := s.dispatches + 1
    stack :=
      if m.idles.isEmpty then s.stack else .dispatching s.dispatches m.dispatchTimes :: s.stack }

/-- A dispatch that no handler has called. -/
def start (m : IdleManager F) (w : W) : IdleSystem W F :=
  dispatch { manager := m, world := w, stack := [], dispatches := 0, log := [] }

/-- A turn of the loop of `idle_manager_dispatch`, or what a handler does next. -/
def turn (handlers : IdleInfo F → IdleProg W F) (s : IdleSystem W F) :
    Turn (IdleSystem W F) (IdleSystem W F) :=
  match s.stack with
  | [] => .done s
  | .dispatching d times :: rest =>
    match s.manager.next times with
    | none => .next { s with stack := rest }
    | some idle =>
      .next { s with
        manager := s.manager.update idle.object (IdleInfo.begin times)
        stack := .handling (idle.begin times) (handlers (idle.begin times)) ::
          .dispatching d times :: rest
        log := s.log ++ [.invoked d idle.object] }
  | .handling idle prog :: rest =>
    match prog with
    | .ret r =>
      .next { s with
        manager := s.manager.answer idle r, stack := rest
        log := s.log ++ [.returned idle.object r] }
    | .call c k =>
      match c.apply s.manager with
      | none => .next s
      | some (reply, m) =>
        .next { s with
          manager := m, stack := .handling idle (k reply) :: rest
          log := s.log ++ s.manager.changes m }
    | .look k => .next { s with stack := .handling idle (k s.world s.manager) :: rest }
    | .write w prog => .next { s with world := w, stack := .handling idle prog :: rest }
    | .dispatch prog => .next (dispatch { s with stack := .handling idle prog :: rest })

end IdleSystem

end Awtk
