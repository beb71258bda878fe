import Mathlib
import Awtk.Lib.Chain
import Awtk.Tkc.Types

/-!
# The emitter

A model of `emitter.c`.  Items, handlers and contexts are addresses and `0` is
NULL.  A read or write through a pointer that is not allocated has no defined
result.

A handler is arbitrary code that the emitter calls and that calls the emitter
back, so `emitter_dispatch` is cut at the call of a handler: `emitterDispatch`
runs up to the first call, `handlerReturned` from the return of a handler to the
next call or to the end.  A `Frame` has the locals of a dispatch whose handler is
running.

The last three fields of the emitter are not in the source.  They number the items
in the order of their registration and record what happens to them.
-/

namespace Awtk

/-- `emitter_item_t`. -/
structure EmitterItem where
  ctx : Nat
  id : Nat
  type : Nat
  handler : Nat
  tag : Nat
  working : Bool
  pendingRemove : Bool
  next : Nat
  deriving DecidableEq

/-- What `memset` and `TKMEM_ZALLOC` make of an item. -/
def EmitterItem.zero : EmitterItem := ⟨0, 0, 0, 0, 0, false, false, 0⟩

namespace Emitter

/-- What happens to the item with the number `s`.  A dispatch calls a handler after
`start` items had been registered when it began. -/
inductive Event where
  | registered (s : Nat)
  | removed (s : Nat)
  | destroyed (s : Nat)
  | called (s start : Nat)
  deriving DecidableEq

end Emitter

open Emitter (Event)

/-- `emitter_t` with the items that are allocated. -/
structure Emitter where
  items : Nat
  nextId : Nat
  disable : Int
  allocated : List Nat
  item : Nat → EmitterItem
  count : Nat
  serial : Nat → Nat
  log : List Event

namespace Emitter

def init : Emitter := {
  items := 0, nextId := 1, disable := 0, allocated := [], item := fun _ => .zero
  count := 0, serial := fun _ => 0, log := [] }

/-! ## Items -/

/-- Assign to the fields of an item. -/
def setItem (e : Emitter) (a : Nat) (item : EmitterItem) : Emitter :=
  { e with item := Function.update e.item a item }

/-- Note an event, the latest one first. -/
def record (e : Emitter) (event : Event) : Emitter := { e with log := event :: e.log }

/-- The link of an item. -/
def next (e : Emitter) (a : Nat) : Nat := (e.item a).next

/-- The items that a loop from an address on visits. -/
def itemsFrom (e : Emitter) (a : Nat) : Option (List Nat) :=
  Chain.walk e.next (· ∈ e.allocated) e.allocated.length a

/-- The items that a loop over the list visits. -/
def foreach (e : Emitter) : Option (List Nat) := e.itemsFrom e.items

/-- A loop that looks for an item, with the `prev` it arrives with. -/
def findItem (p : Nat → Bool) : Nat → List Nat → Option (Nat × Nat)
  | _, [] => none
  | prev, iter :: l => if p iter then some (prev, iter) else findItem p iter l

/-! ## Registering -/

/-- `emitter_next_id`, where `TK_INVALID_ID` is `0`. -/
def emitterNextId (e : Emitter) : Nat × Emitter :=
  let id := e.nextId
  let e := { e with nextId := U32.add e.nextId 1 }
  if id = 0 then (e.nextId, { e with nextId := U32.add e.nextId 1 }) else (id, e)

/-- `emitter_on_with_tag`, with what `TKMEM_ZALLOC` returns. -/
def emitterOnWithTag (e : Emitter) (iter etype handler ctx tag : Nat) : Nat × Emitter :=
  if handler = 0 ∨ iter = 0 then (0, e)
  else
    let (id, e) := e.emitterNextId
    let item := { EmitterItem.zero with tag, ctx, type := etype, handler, id, next := e.items }
    let e := { e with
      allocated := iter :: e.allocated
      items := iter
      count := e.count + 1
      serial := Function.update e.serial iter e.count }
    (id, (e.setItem iter item).record (.registered (e.serial iter)))

/-! ## Removing -/

def emitterItemDestroy (e : Emitter) (iter : Nat) : Emitter :=
  ({ e with allocated := e.allocated.erase iter }.setItem iter .zero).record
    (.destroyed (e.serial iter))

def emitterRemove (e : Emitter) (prev iter : Nat) : Option (Ret × Emitter) :=
  let item := e.item iter
  if iter ∉ e.allocated then none
  else if item.working then
    some (.ok, (e.setItem iter { item with pendingRemove := true }).record
      (.removed (e.serial iter)))
  else if iter = e.items then
    some (.ok, ({ e with items := item.next }.emitterItemDestroy iter).record
      (.removed (e.serial iter)))
  else if prev ∈ e.allocated then
    some (.ok, ((e.setItem prev { e.item prev with next := item.next }).emitterItemDestroy
      iter).record (.removed (e.serial iter)))
  else none

def emitterRemoveItem (e : Emitter) (item : Nat) : Option (Ret × Emitter) :=
  e.foreach.bind fun l =>
    match findItem (· == item) e.items l with
    | none => some (.notFound, e)
    | some (prev, iter) => e.emitterRemove prev iter

/-- The items `emitter_off_ex` looks for. -/
def offered (e : Emitter) (cmp : EmitterItem → Bool) (iter : Nat) : Bool :=
  !(e.item iter).pendingRemove && cmp (e.item iter)

def emitterOffEx (e : Emitter) (cmp : EmitterItem → Bool) : Option (Ret × Emitter) :=
  e.foreach.bind fun l =>
    match findItem (e.offered cmp) e.items l with
    | none => some (.fail, e)
    | some (prev, iter) => e.emitterRemove prev iter

/-- The loop after the first `emitter_off_ex`. -/
def offLoop (cmp : EmitterItem → Bool) : Nat → Emitter → Option Emitter
  | 0, _ => none
  | n + 1, e => (e.emitterOffEx cmp).bind fun (ret, e) =>
      if ret = .ok then offLoop cmp n e else some e

/-- `emitter_off_ex` until it fails. -/
def offAll (e : Emitter) (cmp : EmitterItem → Bool) : Option (Ret × Emitter) :=
  (e.emitterOffEx cmp).bind fun (ret, e) =>
    if ret = .ok then (offLoop cmp (e.allocated.length + 1) e).map (ret, ·) else some (ret, e)

def emitterOff (e : Emitter) (id : Nat) : Option (Ret × Emitter) :=
  e.emitterOffEx fun item => item.id == id

def emitterOffByFunc (e : Emitter) (etype handler ctx : Nat) : Option (Ret × Emitter) :=
  e.offAll fun item => item.type == etype && item.ctx == ctx && item.handler == handler

def emitterOffByTag (e : Emitter) (tag : Nat) : Option (Ret × Emitter) :=
  e.offAll fun item => item.tag == tag

def emitterOffByCtx (e : Emitter) (ctx : Nat) : Option (Ret × Emitter) :=
  e.offAll fun item => item.ctx == ctx

/-! ## Enabling -/

def emitterEnable (e : Emitter) : Ret × Emitter :=
  if 0 < e.disable then (.ok, { e with disable := e.disable - 1 }) else (.fail, e)

def emitterDisable (e : Emitter) : Ret × Emitter := (.ok, { e with disable := e.disable + 1 })

/-! ## Dispatching -/

/-- The locals of a dispatch whose handler is running. -/
structure Frame where
  etype : Nat
  iter : Nat
  isWorking : Bool
  start : Nat
  deriving DecidableEq

/-- How far a dispatch gets. -/
inductive Progress where
  | calls (f : Frame)
  | returns (ret : Ret)
  deriving DecidableEq

/-- The item at which the loop of `emitter_dispatch` stops, from an address on. -/
def nextOfType (e : Emitter) (etype a : Nat) : Option (Option Nat) :=
  (e.itemsFrom a).map fun l => l.find? fun iter => (e.item iter).type == etype

/-- The loop of `emitter_dispatch` up to the next call of a handler. -/
def dispatchLoop (e : Emitter) (etype start a : Nat) : Option (Emitter × Progress) :=
  (e.nextOfType etype a).map fun found =>
    match found with
    | none => (e, .returns .ok)
    | some iter =>
      let isWorking := (e.item iter).working
      ((e.setItem iter { e.item iter with working := true }).record (.called (e.serial iter) start),
        .calls { etype, iter, isWorking, start })

/-- `emitter_dispatch` up to the first call of a handler. -/
def emitterDispatch (e : Emitter) (etype : Nat) : Option (Emitter × Progress) :=
  if e.disable = 0 ∧ e.items ≠ 0 then e.dispatchLoop etype e.count e.items
  else some (e, .returns .ok)

/-- `working` after the handler of a frame returned. -/
def leave (e : Emitter) (f : Frame) : Emitter :=
  if f.isWorking then e else e.setItem f.iter { e.item f.iter with working := false }

/-- The rest of the loop of `emitter_dispatch` after a handler returned. -/
def handlerReturned (e : Emitter) (f : Frame) (ret : Ret) : Option (Emitter × Progress) :=
  if f.iter ∉ e.allocated then none
  else
    let e := e.leave f
    if ret = .stop then
      if (e.item f.iter).pendingRemove then
        (e.emitterRemoveItem f.iter).map fun (_, e) => (e, .returns ret)
      else some (e, .returns ret)
    else if ret = .remove ∨ (e.item f.iter).pendingRemove then
      let next := e.next f.iter
      (e.emitterRemoveItem f.iter).bind fun (_, e) => e.dispatchLoop f.etype f.start next
    else e.dispatchLoop f.etype f.start (e.next f.iter)

end Emitter

end Awtk
