import Mathlib
import Awtk.Tkc.DArray

/-!
# The widget tree

The functions of `widget.c` that add, move and remove children, for widgets whose vtables do not
override `on_add_child` and `on_remove_child` and whose handlers leave the tree alone.  A forest has
a column for each field that these functions read or write.  `none` is an access to a widget that
was freed.
-/

namespace Awtk

/-- `window_stage_t`. -/
inductive WindowStage where
  | none
  | loaded
  | created
  | opened
  | closed
  | suspend
  deriving DecidableEq, Repr

/-- What the functions read and do not write. -/
structure WidgetEnv (ι : Type*) where
  isWindow : ι → Bool
  stage : ι → WindowStage
  /-- `idle_exist(widget_unref_in_idle, widget)`. -/
  unrefInIdle : ι → Bool

/-- The widgets.  `children` is `none` before the array is created. -/
@[ext] structure Forest (ι : Type*) where
  parent : ι → Option ι
  children : ι → Option (List ι)
  target : ι → Option ι
  grabWidget : ι → Option ι
  grabWidgetCount : ι → Nat
  keyTarget : ι → Option ι
  focused : ι → Bool
  refCount : ι → Nat
  alive : ι → Bool

namespace Forest

open Function (update)

variable {ι : Type*} [DecidableEq ι]

/-! ## Windows and the focus -/

def getWindow (env : WidgetEnv ι) (f : Forest ι) : Nat → ι → Option (Option ι)
  | 0, _ => none
  | fuel + 1, iter =>
    if f.alive iter then
      if env.isWindow iter then some (some iter)
      else
        match f.parent iter with
        | none => some none
        | some parent => getWindow env f fuel parent
    else none

/-- `widget_dispatch_blur_event`, which holds a reference to each widget that it visits. -/
def dispatchBlurEvent : Nat → Forest ι → Option ι → Option (Forest ι)
  | _, f, none => some f
  | 0, _, some _ => none
  | fuel + 1, f, some target =>
    if f.alive target then
      let f := { f with focused := update f.focused target false }
      match f.parent target with
      | none => dispatchBlurEvent fuel f (f.keyTarget target)
      | some parent =>
        if f.alive parent then
          let f :=
            if f.keyTarget parent = some target then
              { f with keyTarget := update f.keyTarget parent none }
            else f
          dispatchBlurEvent fuel f (f.keyTarget target)
        else none
    else none

variable [Fintype ι]

/-- `widget_set_focused(widget, FALSE)` in a window that is opened, or nothing in other ones. -/
def unfocus (env : WidgetEnv ι) (f : Forest ι) (widget : ι) : Option (Forest ι) :=
  match getWindow env f (Fintype.card ι) widget with
  | none => none
  | some none => some f
  | some (some win) =>
    -- A suspended window passes `widget_is_window_opened`, and `widget_set_focused_internal` fails.
    if env.stage win = .opened ∧ f.focused widget then
      dispatchBlurEvent (Fintype.card ι) { f with focused := update f.focused widget false }
        (some widget)
    else some f

/-! ## Adding and removing children -/

def removeChildPrepare (env : WidgetEnv ι) (f : Forest ι) (widget child : ι) :
    Option (Forest ι) :=
  if f.alive widget then
    match unfocus env f child with
    | none => none
    | some f =>
      let f :=
        if f.target widget = some child then { f with target := update f.target widget none }
        else f
      let f :=
        if f.grabWidget widget = some child then
          { f with grabWidget := update f.grabWidget widget none,
                   grabWidgetCount := update f.grabWidgetCount widget 0 }
        else f
      let f? :=
        if f.keyTarget widget = some child then
          (dispatchBlurEvent (Fintype.card ι) f (f.keyTarget widget)).map fun f =>
            { f with keyTarget := update f.keyTarget widget none }
        else some f
      f?.map fun f => { f with parent := update f.parent child none }
  else none

def pointerCompare : Compare ι := fun a b => if a = b then 0 else 1

def darrayRemove (children : Option (List ι)) (child : ι) : Ret × Option (List ι) :=
  match children with
  | none => (.badParams, none)
  | some elms =>
    let (ret, elms) := DArray.removeEx pointerCompare child elms
    (ret, some elms)

def removeChild (env : WidgetEnv ι) (f : Forest ι) (widget child : ι) :
    Option (Ret × Forest ι) :=
  (removeChildPrepare env f widget child).map fun f =>
    let (ret, children) := darrayRemove (f.children widget) child
    (ret, { f with children := update f.children widget children })

/-- `widget_add_child` and `widget_add_child_default`. -/
def addChild (f : Forest ι) (widget child : ι) : Option (Ret × Forest ι) :=
  if f.alive widget ∧ f.alive child then
    match f.parent child with
    | some _ => some (.badParams, f)
    | none =>
      let children := (f.children widget).getD []
      some (.ok, { f with
        parent := update f.parent child (some widget)
        children := update f.children widget (some (children ++ [child])) })
  else none

/-! ## Moving a child -/

/-- `for (i = old_index; i > index; i--) children[i] = children[i - 1];`. -/
def shiftUp (index : Nat) : Nat → List ι → Option (List ι)
  | 0, children => some children
  | i + 1, children =>
    if index < i + 1 then
      match children[i]? with
      | none => none
      | some c => shiftUp index i (children.set (i + 1) c)
    else some children

/-- `for (i = old_index; i < index; i++) children[i] = children[i + 1];` for some turns. -/
def shiftDown : Nat → Nat → List ι → Option (List ι)
  | 0, _, children => some children
  | turns + 1, i, children =>
    match children[i + 1]? with
    | none => none
    | some c => shiftDown turns (i + 1) (children.set i c)

def restack (f : Forest ι) (widget : ι) (index : Nat) : Option (Ret × Forest ι) :=
  if f.alive widget then
    match f.parent widget with
    | none => some (.badParams, f)
    | some parent =>
      if f.alive parent then
        let children := (f.children parent).getD []
        let nr := children.length
        match children.findIdx? fun iter => iter = widget with
        | none => some (.badParams, f)
        | some oldIndex =>
          let index := if nr ≤ index then nr - 1 else index
          if index = oldIndex ∨ nr = 1 then some (.ok, f)
          else
            let shifted :=
              if index < oldIndex then shiftUp index oldIndex children
              else shiftDown (index - oldIndex) oldIndex children
            shifted.map fun children =>
              (.ok, { f with
                children := update f.children parent (some (children.set index widget)) })
      else none
  else none

def insertChild (f : Forest ι) (widget : ι) (index : Nat) (child : ι) :
    Option (Ret × Forest ι) :=
  match addChild f widget child with
  | none => none
  | some (.ok, f) => restack f child index
  | some (_, f) => some (.fail, f)

/-! ## Destroying children -/

/-- The loop of `widget_destroy_children`.  An element leaves the list before the child is released,
as nothing reads the array while the loop runs. -/
def destroyLoop (env : WidgetEnv ι) (unref : Forest ι → ι → Option (Forest ι)) (widget : ι) :
    List ι → Forest ι → Option (Forest ι)
  | [], f => some f
  | iter :: rest, f =>
    match removeChildPrepare env f widget iter with
    | none => none
    | some f =>
      match unref { f with children := update f.children widget (some rest) } iter with
      | none => none
      | some f => destroyLoop env unref widget rest f

/-- `widget_unref`, with `widget_destroy_sync`. -/
def unref (env : WidgetEnv ι) : Nat → Forest ι → ι → Option (Forest ι)
  | 0, _, _ => none
  | fuel + 1, f, widget =>
    if f.alive widget ∧ 0 < f.refCount widget then
      if 1 < f.refCount widget then
        some { f with refCount := update f.refCount widget (f.refCount widget - 1) }
      else if env.unrefInIdle widget then some f
      else
        (destroyLoop env (unref env fuel) widget ((f.children widget).getD []) f).map fun f =>
          { f with
            children := update f.children widget none
            alive := update f.alive widget false }
    else none

def destroyChildren (env : WidgetEnv ι) (f : Forest ι) (widget : ι) : Option (Ret × Forest ι) :=
  if f.alive widget then
    (destroyLoop env (unref env (Fintype.card ι)) widget ((f.children widget).getD []) f).map
      fun f => (.ok, f)
  else none

end Forest

end Awtk
