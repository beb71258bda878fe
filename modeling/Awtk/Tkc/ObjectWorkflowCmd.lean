import Awtk.Tkc.CStr
import Awtk.Tkc.DArray
import Awtk.Lib.Run

/-!
# Workflow commands

The object of `object_workflow_cmd.c`, with the functions that execute and undo its children.  A
child is known by its number.  The emitters of the children are left out except for the handler of
the object, which is in the emitters of the children in `hooked`.  `memory` tells for which
capacities the stack can grow.
-/

namespace Awtk

/-- The commands of a child. -/
inductive Cmd where
  | exec
  | undo
  deriving DecidableEq, Repr

/-- How the children answer.  A child may answer in another way each time. -/
structure Children (σ : Type*) where
  canExec : σ → Nat → Bool × σ
  exec : σ → Cmd → Nat → Ret × σ

/-- A command that a child got, and its result.  `child` tells whether it was one of the object. -/
structure Call where
  name : Cmd
  cmd : Nat
  result : Ret
  child : Bool
  deriving DecidableEq, Repr

/-- `object_workflow_cmd_runner_t`: a function that asks and executes children, and may change which
children there are. -/
inductive Runner where
  | done (ret : Ret)
  | canExec (cmd : Nat) (next : Bool → Runner)
  | exec (cmd : Nat) (next : Ret → Runner)
  | setProp (name : Str) (cmd : Nat) (next : Runner)
  | removeProp (name : Str) (next : Ret → Runner)

/-- `object_workflow_cmd_t`, with the state of the children and the calls they got so far. -/
structure WorkflowCmd (σ : Type*) where
  world : σ
  calls : List Call
  undoStack : List Nat
  capacity : Nat
  cmds : List (Str × Nat)
  hooked : List Nat
  runner : Option Runner
  running : Bool
  busy : Bool

namespace WorkflowCmd

variable {σ : Type*} (C : Children σ) (memory : Nat → Bool) (s : WorkflowCmd σ)

def create (world : σ) : WorkflowCmd σ := ⟨world, [], [], 0, [], [], none, false, false⟩

/-! ## The children -/

/-- Whether a child is in the registry. -/
def hasChild (cmds : List (Str × Nat)) (cmd : Nat) : Bool := cmds.any fun p => p.2 = cmd

def removeProp (name : Str) : Ret × WorkflowCmd σ :=
  match s.cmds.find? fun p => p.1 = name with
  | none => (.notFound, s)
  | some (_, cmd) =>
    let cmds := s.cmds.eraseP fun p => p.1 = name
    if hasChild cmds cmd then (.ok, { s with cmds := cmds })
    else (.ok, { s with cmds := cmds, hooked := s.hooked.filter (· ≠ cmd) })

def setProp (name : Str) (cmd : Nat) : WorkflowCmd σ :=
  let s := (s.removeProp name).2
  { s with
    cmds := s.cmds ++ [(name, cmd)]
    hooked := if cmd ∈ s.hooked then s.hooked else s.hooked ++ [cmd] }

def clearProps : WorkflowCmd σ :=
  { s with cmds := [], hooked := s.hooked.filter fun cmd => ¬ hasChild s.cmds cmd }

/-! ## Executing -/

def push (cmd : Nat) : WorkflowCmd σ :=
  if s.undoStack.length < s.capacity then { s with undoStack := s.undoStack ++ [cmd] }
  else
    let capacity := s.capacity / 2 + s.capacity + 1
    if memory capacity then { s with undoStack := s.undoStack ++ [cmd], capacity := capacity } else s

def onChildExeced (name : Cmd) (cmd : Nat) (result : Ret) : WorkflowCmd σ :=
  if ¬ s.running ∨ ¬ (result = .ok ∧ name = .exec) then s else s.push memory cmd

/-- `tk_object_exec` of a child, which tells the handlers of the child. -/
def childExec (name : Cmd) (cmd : Nat) : Ret × WorkflowCmd σ :=
  let (ret, world) := C.exec s.world name cmd
  let child := decide (cmd ∈ s.hooked)
  let s := { s with world := world, calls := s.calls ++ [⟨name, cmd, ret, child⟩] }
  (ret, if child then s.onChildExeced memory name cmd ret else s)

def runnerDefaultOnVisit (cmd : Nat) : Ret × WorkflowCmd σ :=
  let (can, world) := C.canExec s.world cmd
  let s := { s with world := world }
  if ¬ can then (.fail, s) else s.childExec C memory .exec cmd

/-- The loop of `object_hash_foreach_prop` with `object_workflow_cmd_registry_on_visit`.  `kept` are
the children before that were not removed. -/
def foreachProp : WorkflowCmd σ → List (Str × Nat) → List (Str × Nat) → Ret × WorkflowCmd σ
  | s, kept, [] => (.ok, { s with cmds := kept })
  | s, kept, p :: rest =>
    let (ret, s) := s.runnerDefaultOnVisit C memory p.2
    if ret = .remove then
      let s :=
        if hasChild (kept ++ rest) p.2 then s
        else { s with hooked := s.hooked.filter (· ≠ p.2) }
      foreachProp s kept rest
    else if DArray.goesOn ret then foreachProp s (kept ++ [p]) rest
    else (ret, { s with cmds := kept ++ p :: rest })

def runnerDefault : Ret × WorkflowCmd σ := foreachProp C memory s [] s.cmds

/-- Another runner. -/
def runRunner : WorkflowCmd σ → Runner → Ret × WorkflowCmd σ
  | s, .done ret => (ret, s)
  | s, .canExec cmd next =>
    let (can, world) := C.canExec s.world cmd
    runRunner { s with world := world } (next can)
  | s, .exec cmd next =>
    let (ret, s) := s.childExec C memory .exec cmd
    runRunner s (next ret)
  | s, .setProp name cmd next => runRunner (s.setProp name cmd) next
  | s, .removeProp name next =>
    let (ret, s) := s.removeProp name
    runRunner s (next ret)

/-- `object_workflow_cmd_run`. -/
def run : Ret × WorkflowCmd σ :=
  let s := { s with running := true }
  let (ret, s) :=
    match s.runner with
    | none => s.runnerDefault C memory
    | some runner => runRunner C memory s runner
  (ret, { s with running := false })

def canExec : Cmd → Bool
  | .exec => ¬ s.busy ∧ s.undoStack.length = 0
  | .undo => ¬ s.busy ∧ 0 < s.undoStack.length

/-- The loop of the command `undo`, with the result of the last child. -/
def undoLoop : Nat → WorkflowCmd σ → Ret → Ret × WorkflowCmd σ
  | 0, s, ret => (ret, s)
  | fuel + 1, s, ret =>
    match s.undoStack.getLast? with
    | none => (ret, s)
    | some cmd =>
      let (ret, s) := s.childExec C memory .undo cmd
      let ret := if ret = .notFound then .ok else ret
      if ret = .remove ∨ DArray.goesOn ret then
        undoLoop fuel { s with undoStack := s.undoStack.dropLast } .ok
      else (ret, s)

/-- `object_workflow_cmd_exec` of the command `undo`. -/
def undo : Ret × WorkflowCmd σ :=
  if s.busy then (.busy, s)
  else
    let (ret, s) := undoLoop C memory s.undoStack.length { s with busy := true } .ok
    (ret, { s with busy := false })

/-- `object_workflow_cmd_exec` of the command `exec`. -/
def exec : Ret × WorkflowCmd σ :=
  if s.busy then (.busy, s)
  else
    let s := { s with busy := true, undoStack := [] }
    let size := s.cmds.length
    if size = 0 ∨ size ≤ s.capacity ∨ memory size then
      let (ret, s) := run C memory { s with capacity := max s.capacity size }
      let s := { s with busy := false }
      if ret ≠ .ok ∧ s.canExec .undo then (ret, (s.undo C memory).2) else (ret, s)
    else (.fail, { s with busy := false })

end WorkflowCmd

end Awtk

/-!
## Runs of a workflow command

An execution either succeeds, with the executed children on the stack, or undoes them from the last
one on (`exec_transaction`).  This holds after all calls that an object can get, as the handler of
the object is always in the emitters of its children.
-/

namespace Awtk.WorkflowCmd

variable {σ : Type*}

/-! ## The children that were executed and undone -/

/-- The executed children of some calls. -/
def executed (calls : List Call) : List Nat :=
  (calls.filter fun c => c.name = .exec ∧ c.result = .ok ∧ c.child).map Call.cmd

/-- The results after which the next child is undone. -/
def accepts (r : Ret) : Bool := r = .notFound || r = .remove || DArray.goesOn r

/-- The calls undo the stack from its end on.  The stack that is left has the child that failed. -/
inductive Undone : List Nat → List Call → List Nat → Prop where
  | done : Undone [] [] []
  | undo {stack left : List Nat} {calls : List Call} {cmd : Nat} {r : Ret} {child : Bool}
      (hr : accepts r = true) (h : Undone stack calls left) :
      Undone (stack ++ [cmd]) (⟨.undo, cmd, r, child⟩ :: calls) left
  | failed {stack : List Nat} {cmd : Nat} {r : Ret} {child : Bool} (hr : accepts r = false) :
      Undone (stack ++ [cmd]) [⟨.undo, cmd, r, child⟩] (stack ++ [cmd])

section Undone

variable {stack left : List Nat} {calls : List Call}

@[simp] theorem executed_nil : executed [] = [] := rfl

theorem executed_append (a b : List Call) : executed (a ++ b) = executed a ++ executed b := by
  simp [executed]

/-- Each child is undone once, in reverse order. -/
theorem Undone.order (h : Undone stack calls left) : calls.map Call.cmd <+: stack.reverse := by
  induction h with
  | done => exact List.prefix_rfl
  | undo hr h ih =>
    rw [List.reverse_append, List.map_cons]
    exact (List.prefix_cons_inj _).mpr ih
  | failed hr =>
    rw [List.reverse_append]
    exact ⟨_, rfl⟩

/-- If no child fails, all are undone. -/
theorem Undone.all (h : Undone stack calls left) (hall : ∀ c ∈ calls, accepts c.result = true) :
    calls.map Call.cmd = stack.reverse ∧ left = [] := by
  induction h with
  | done => exact ⟨rfl, rfl⟩
  | undo hr h ih =>
    obtain ⟨hcmds, hleft⟩ := ih fun c hc => hall c (List.mem_cons_of_mem _ hc)
    rw [List.reverse_append, List.map_cons, hcmds]
    exact ⟨rfl, hleft⟩
  | failed hr => exact absurd (hall _ List.mem_cons_self) (by rw [hr]; exact Bool.false_ne_true)

end Undone

/-! ## What a runner does -/

/-- The calls of a part of a run are recorded on the stack. -/
structure Ran (s s' : WorkflowCmd σ) (new : List Call) : Prop where
  calls : s'.calls = s.calls ++ new
  exec : ∀ c ∈ new, c.name = .exec
  stack : s'.undoStack = s.undoStack ++ executed new
  capacity : s.capacity ≤ s'.capacity
  size : s'.undoStack.length ≤ s'.capacity
  running : s'.running = s.running
  busy : s'.busy = s.busy
  runner : s'.runner = s.runner

/-- The handler is in the emitters of the children. -/
def Hooked (hooked : List Nat) (cmds : List (Str × Nat)) : Prop :=
  ∀ cmd, cmd ∈ hooked ↔ hasChild cmds cmd = true

/-- There is room on the stack for some more children. -/
def Room (memory : Nat → Bool) (s : WorkflowCmd σ) (n : Nat) : Prop :=
  s.undoStack.length + n ≤ s.capacity ∨ ∀ n, memory n = true

section Runner

variable {C : Children σ} {memory : Nat → Bool} {s s' s'' : WorkflowCmd σ} {new new' : List Call}
  {n : Nat}

/-- What is not on the stack may change. -/
theorem Ran.other (h : s.undoStack.length ≤ s.capacity) (world : σ) (cmds : List (Str × Nat))
    (hooked : List Nat) : Ran s { s with world := world, cmds := cmds, hooked := hooked } [] :=
  ⟨(List.append_nil _).symm, fun _ hc => absurd hc List.not_mem_nil, (List.append_nil _).symm, le_rfl, h,
    rfl, rfl, rfl⟩

theorem Ran.trans (h : Ran s s' new) (h' : Ran s' s'' new') : Ran s s'' (new ++ new') where
  calls := by rw [h'.calls, h.calls, List.append_assoc]
  exec := List.forall_mem_append.mpr ⟨h.exec, h'.exec⟩
  stack := by rw [h'.stack, h.stack, executed_append, List.append_assoc]
  capacity := h.capacity.trans h'.capacity
  size := h'.size
  running := h'.running.trans h.running
  busy := h'.busy.trans h.busy
  runner := h'.runner.trans h.runner

theorem push_eq (hsize : s.undoStack.length ≤ s.capacity) (hroom : Room memory s 1) (cmd : Nat) :
    ∃ capacity, s.push memory cmd =
      { s with undoStack := s.undoStack ++ [cmd], capacity := capacity } ∧
      s.undoStack.length < capacity ∧ s.capacity ≤ capacity := by
  rw [push]
  split_ifs with hlt
  · exact ⟨s.capacity, rfl, hlt, le_rfl⟩
  · rcases hroom with hroom | hmem
    · omega
    · simp only [hmem, if_true]
      exact ⟨_, rfl, by omega, by omega⟩

/-- A child that is executed is recorded. -/
theorem childExec_ran (hrun : s.running = true) (hsize : s.undoStack.length ≤ s.capacity)
    (hroom : Room memory s (n + 1)) (cmd : Nat) :
    ∃ ret s', s.childExec C memory .exec cmd = (ret, s') ∧
      Ran s s' [⟨.exec, cmd, ret, decide (cmd ∈ s.hooked)⟩] ∧ s'.cmds = s.cmds ∧
      s'.hooked = s.hooked ∧ Room memory s' n := by
  generalize hexec : C.exec s.world .exec cmd = res
  obtain ⟨ret, world⟩ := res
  simp only [childExec, hexec]
  have hcall : ∀ c ∈ [(⟨.exec, cmd, ret, decide (cmd ∈ s.hooked)⟩ : Call)], c.name = .exec :=
    List.forall_mem_singleton.mpr rfl
  by_cases hrec : cmd ∈ s.hooked ∧ ret = .ok
  · obtain ⟨hchild, rfl⟩ := hrec
    let s₁ : WorkflowCmd σ :=
      { s with world := world, calls := s.calls ++ [⟨.exec, cmd, .ok, decide (cmd ∈ s.hooked)⟩] }
    have hroom₁ : Room memory s₁ 1 := hroom.imp (fun h => by show s.undoStack.length + 1 ≤ s.capacity; omega) id
    obtain ⟨capacity, hpush, hlt, hle⟩ := push_eq (s := s₁) hsize hroom₁ cmd
    change s.undoStack.length < capacity at hlt
    change s.capacity ≤ capacity at hle
    refine ⟨.ok, { s₁ with undoStack := s.undoStack ++ [cmd], capacity := capacity }, ?_,
      ⟨rfl, hcall, ?_, hle, ?_, rfl, rfl, rfl⟩, rfl, rfl, ?_⟩
    · rw [← hpush]
      simp [hchild, onChildExeced, hrun, s₁]
    · simp [executed, hchild]
    · rw [List.length_append]
      exact hlt
    · refine hroom.imp (fun h => ?_) id
      show (s.undoStack ++ [cmd]).length + n ≤ capacity
      rw [List.length_append, List.length_singleton]
      omega
  · refine ⟨ret, { s with world := world, calls := s.calls ++ [⟨.exec, cmd, ret, decide (cmd ∈ s.hooked)⟩] },
      ?_, ⟨rfl, hcall, ?_, le_rfl, hsize, rfl, rfl, rfl⟩, rfl, rfl, hroom.imp (fun h => by
        show s.undoStack.length + n ≤ s.capacity; omega) id⟩
    · by_cases hchild : cmd ∈ s.hooked
      · have hret : ret ≠ .ok := fun h => hrec ⟨hchild, h⟩
        simp [hchild, onChildExeced, hret]
      · simp [hchild]
    · have hnone : executed [(⟨.exec, cmd, ret, decide (cmd ∈ s.hooked)⟩ : Call)] = [] := by
        simp only [executed, List.map_eq_nil_iff, List.filter_eq_nil_iff, List.mem_singleton]
        rintro c rfl
        simpa [and_comm] using hrec
      rw [hnone, List.append_nil]

theorem visit_ran (hrun : s.running = true) (hsize : s.undoStack.length ≤ s.capacity)
    (hroom : Room memory s (n + 1)) (cmd : Nat) :
    ∃ ret s' new, s.runnerDefaultOnVisit C memory cmd = (ret, s') ∧ Ran s s' new ∧
      (∀ c ∈ new, c.child = decide (cmd ∈ s.hooked)) ∧ s'.hooked = s.hooked ∧ Room memory s' n := by
  rw [runnerDefaultOnVisit]
  generalize hcan : C.canExec s.world cmd = res
  obtain ⟨can, world⟩ := res
  cases can with
  | false =>
    exact ⟨.fail, { s with world := world }, [], by simp, .other hsize world s.cmds s.hooked,
      fun _ hc => absurd hc List.not_mem_nil, rfl,
      hroom.imp (fun h => by show s.undoStack.length + n ≤ s.capacity; omega) id⟩
  | true =>
    obtain ⟨ret, s', he, hran, -, hhooked, hroom'⟩ :=
      childExec_ran (C := C) (s := { s with world := world }) (n := n) hrun hsize
        hroom cmd
    refine ⟨ret, s', [⟨.exec, cmd, ret, decide (cmd ∈ s.hooked)⟩], by simpa using he, ?_,
      List.forall_mem_singleton.mpr rfl, hhooked, hroom'⟩
    exact (Ran.other hsize world s.cmds s.hooked).trans hran

theorem hasChild_append (a b : List (Str × Nat)) (cmd : Nat) :
    hasChild (a ++ b) cmd = (hasChild a cmd || hasChild b cmd) := List.any_append

theorem hasChild_cons (p : Str × Nat) (a : List (Str × Nat)) (cmd : Nat) :
    hasChild (p :: a) cmd = (decide (p.2 = cmd) || hasChild a cmd) := List.any_cons

/-- The handler leaves the emitter of a child with its last entry. -/
theorem Hooked.remove {hooked : List Nat} {a b : List (Str × Nat)} {p : Str × Nat}
    (h : Hooked hooked (a ++ p :: b)) :
    Hooked (if hasChild (a ++ b) p.2 then hooked else hooked.filter (· ≠ p.2)) (a ++ b) := by
  intro cmd
  have hcmd := h cmd
  rw [hasChild_append, hasChild_cons] at hcmd
  by_cases hp : p.2 = cmd
  · subst hp
    split_ifs with hmore
    · rw [hcmd]
      simp [hmore]
    · simp [hmore]
  · have hmem : (cmd ∈ if hasChild (a ++ b) p.2 then hooked else hooked.filter (· ≠ p.2)) ↔
        cmd ∈ hooked := by
      split
      · rfl
      · simp [Ne.symm hp]
    rw [hmem, hcmd, hasChild_append]
    simp [hp]

/-- The loop over the children.  `Room` is for those that it has not visited. -/
theorem foreachProp_ran : ∀ (rest kept : List (Str × Nat)) (s : WorkflowCmd σ), s.running = true →
    s.undoStack.length ≤ s.capacity → Room memory s rest.length → Hooked s.hooked (kept ++ rest) →
    ∃ ret s' new, foreachProp C memory s kept rest = (ret, s') ∧ Ran s s' new ∧
      (∀ c ∈ new, c.child = true) ∧ Hooked s'.hooked s'.cmds
  | [], kept, s, _, hsize, _, hhooked => by
    rw [List.append_nil] at hhooked
    exact ⟨.ok, { s with cmds := kept }, [], rfl, .other hsize s.world kept s.hooked,
      fun _ hc => absurd hc List.not_mem_nil, hhooked⟩
  | p :: rest, kept, s, hrun, hsize, hroom, hhooked => by
    obtain ⟨ret, s₁, new, he, hran, hchild, hhooked₁, hroom₁⟩ := visit_ran (C := C) hrun hsize hroom p.2
    have hp : decide (p.2 ∈ s.hooked) = true := by
      rw [decide_eq_true_iff, hhooked p.2, hasChild_append, hasChild_cons]
      simp
    rw [hp] at hchild
    have hrun₁ : s₁.running = true := hran.running.trans hrun
    rw [← hhooked₁] at hhooked
    simp only [foreachProp, he]
    by_cases hremove : ret = .remove
    · rw [if_pos hremove]
      have hdrop := hhooked.remove
      generalize hs₂ : (if hasChild (kept ++ rest) p.2 = true then s₁
        else { s₁ with hooked := s₁.hooked.filter (· ≠ p.2) }) = s₂
      have hs₂' : s₂ = { s₁ with
          hooked := if hasChild (kept ++ rest) p.2 then s₁.hooked
            else s₁.hooked.filter (· ≠ p.2) } := by
        rw [← hs₂]
        split <;> rfl
      have hran₂ : Ran s₁ s₂ [] := hs₂' ▸ .other hran.size s₁.world s₁.cmds _
      obtain ⟨ret', s', new', he', hran', hchild', hhooked'⟩ := foreachProp_ran rest kept s₂
        (hran₂.running.trans hrun₁) hran₂.size (by rw [hs₂']; exact hroom₁)
        (by rw [hs₂']; exact hdrop)
      refine ⟨ret', s', new ++ ([] ++ new'), he', hran.trans (hran₂.trans hran'), ?_, hhooked'⟩
      rw [List.nil_append]
      exact List.forall_mem_append.mpr ⟨hchild, hchild'⟩
    rw [if_neg hremove]
    split_ifs with hon
    · obtain ⟨ret', s', new', he', hran', hchild', hhooked'⟩ := foreachProp_ran rest (kept ++ [p]) s₁
        hrun₁ hran.size hroom₁ (by rwa [List.append_assoc])
      exact ⟨ret', s', new ++ new', he', hran.trans hran',
        List.forall_mem_append.mpr ⟨hchild, hchild'⟩, hhooked'⟩
    · refine ⟨ret, { s₁ with cmds := kept ++ p :: rest }, new ++ [], rfl,
        hran.trans (.other hran.size s₁.world _ s₁.hooked), ?_, hhooked⟩
      rwa [List.append_nil]

/-! ## Changes of the registry -/

theorem removeProp_eq (s : WorkflowCmd σ) (name : Str) :
    s.removeProp name = (.notFound, s) ∨ ∃ a p b, s.cmds = a ++ p :: b ∧
      s.removeProp name = (.ok, { s with
        cmds := a ++ b
        hooked := if hasChild (a ++ b) p.2 then s.hooked else s.hooked.filter (· ≠ p.2) }) := by
  rw [removeProp]
  cases hfind : s.cmds.find? fun p => p.1 = name with
  | none => exact .inl rfl
  | some p =>
    obtain ⟨hp, a, b, hcmds, ha⟩ := List.find?_eq_some_iff_append.mp hfind
    right
    refine ⟨a, p, b, hcmds, ?_⟩
    have herase : s.cmds.eraseP (fun p => p.1 = name) = a ++ b := by
      rw [hcmds, List.eraseP_append_right _ (by simpa using ha), List.eraseP_cons, hp, cond_true]
    simp only [herase]
    split <;> rfl

theorem removeProp_ran (hsize : s.undoStack.length ≤ s.capacity) (name : Str) :
    Ran s (s.removeProp name).2 [] := by
  rcases removeProp_eq s name with he | ⟨a, p, b, -, he⟩
  · rw [he]
    exact .other hsize s.world s.cmds s.hooked
  · rw [he]
    exact .other hsize s.world _ _

theorem setProp_ran (hsize : s.undoStack.length ≤ s.capacity) (name : Str) (cmd : Nat) :
    Ran s (s.setProp name cmd) [] := by
  have hran := removeProp_ran hsize name
  exact hran.trans (.other hran.size (s.removeProp name).2.world _ _)

theorem removeProp_hooked (h : Hooked s.hooked s.cmds) (name : Str) :
    Hooked (s.removeProp name).2.hooked (s.removeProp name).2.cmds := by
  rcases removeProp_eq s name with he | ⟨a, p, b, hcmds, he⟩
  · rwa [he]
  · rw [he]
    rw [hcmds] at h
    exact h.remove

theorem setProp_hooked (h : Hooked s.hooked s.cmds) (name : Str) (cmd : Nat) :
    Hooked (s.setProp name cmd).hooked (s.setProp name cmd).cmds := by
  intro c
  have hc := removeProp_hooked h name c
  rw [setProp]
  simp only [hasChild_append, hasChild_cons, Bool.or_eq_true, ← hc]
  split
  next hmem =>
    refine ⟨.inl, fun h => h.elim id fun h => ?_⟩
    have hcmd : cmd = c := by simpa [hasChild] using h
    exact hcmd ▸ hmem
  next => simp [hasChild, eq_comm]

theorem clearProps_hooked (h : Hooked s.hooked s.cmds) : Hooked s.clearProps.hooked s.clearProps.cmds := by
  intro c
  have hnot : ¬ (c ∈ s.hooked ∧ (decide ¬ hasChild s.cmds c = true) = true) := fun hc =>
    absurd ((h c).mp hc.1) (of_decide_eq_true hc.2)
  rw [clearProps, List.mem_filter]
  exact iff_of_false hnot Bool.false_ne_true

/-! ## Executing -/

/-- Another runner keeps the handlers where the children are. -/
theorem runRunner_ran (hmem : ∀ n, memory n = true) : ∀ (runner : Runner) (s : WorkflowCmd σ),
    s.running = true → s.undoStack.length ≤ s.capacity → Hooked s.hooked s.cmds →
    ∃ ret s' new, runRunner C memory s runner = (ret, s') ∧ Ran s s' new ∧ Hooked s'.hooked s'.cmds
  | .done ret, s, _, hsize, hhooked =>
      ⟨ret, s, [], rfl, .other hsize s.world s.cmds s.hooked, hhooked⟩
  | .canExec cmd next, s, hrun, hsize, hhooked => by
    rw [runRunner]
    obtain ⟨ret, s', new, he, hran, hhooked'⟩ := runRunner_ran hmem (next (C.canExec s.world cmd).1)
      { s with world := (C.canExec s.world cmd).2 } hrun hsize hhooked
    exact ⟨ret, s', [] ++ new, he, (Ran.other hsize _ s.cmds s.hooked).trans hran, hhooked'⟩
  | .exec cmd next, s, hrun, hsize, hhooked => by
    obtain ⟨ret₁, s₁, he₁, hran₁, hcmds, hhook₁, -⟩ :=
      childExec_ran (C := C) (n := 0) hrun hsize (.inr hmem) cmd
    obtain ⟨ret, s', new, he, hran, hhooked'⟩ := runRunner_ran hmem (next ret₁) s₁
      (hran₁.running.trans hrun) hran₁.size (by rwa [hcmds, hhook₁])
    simp only [runRunner, he₁]
    exact ⟨ret, s', _, he, hran₁.trans hran, hhooked'⟩
  | .setProp name cmd next, s, hrun, hsize, hhooked => by
    have hran₁ := setProp_ran hsize name cmd
    obtain ⟨ret, s', new, he, hran, hhooked'⟩ := runRunner_ran hmem next (s.setProp name cmd)
      (hran₁.running.trans hrun) hran₁.size (setProp_hooked hhooked name cmd)
    exact ⟨ret, s', [] ++ new, he, hran₁.trans hran, hhooked'⟩
  | .removeProp name next, s, hrun, hsize, hhooked => by
    have hran₁ := removeProp_ran hsize name
    obtain ⟨ret, s', new, he, hran, hhooked'⟩ := runRunner_ran hmem (next (s.removeProp name).1)
      (s.removeProp name).2 (hran₁.running.trans hrun) hran₁.size (removeProp_hooked hhooked name)
    exact ⟨ret, s', [] ++ new, he, hran₁.trans hran, hhooked'⟩

end Runner

/-! ## Transactions -/

/-- An object between two calls. -/
structure Idle (s : WorkflowCmd σ) : Prop where
  busy : s.busy = false
  running : s.running = false
  size : s.undoStack.length ≤ s.capacity
  hooked : Hooked s.hooked s.cmds

/-- A runner of another sort may execute more children than there are in the registry, and the stack
has to grow for them. -/
def StackOk (memory : Nat → Bool) (s : WorkflowCmd σ) : Prop :=
  s.runner ≠ none → ∀ n, memory n = true

section Transactions

variable {C : Children σ} {memory : Nat → Bool} {s : WorkflowCmd σ}

theorem idle_create (world : σ) : Idle (create world) :=
  ⟨rfl, rfl, le_rfl, fun _ => iff_of_false List.not_mem_nil Bool.false_ne_true⟩

theorem run_ran (hsize : s.undoStack.length ≤ s.capacity) (hroom : Room memory s s.cmds.length)
    (hhooked : Hooked s.hooked s.cmds) (hok : StackOk memory s) :
    ∃ ret s' new, s.run C memory = (ret, s') ∧ s'.calls = s.calls ++ new ∧
      (∀ c ∈ new, c.name = .exec) ∧ (s.runner = none → ∀ c ∈ new, c.child = true) ∧
      s'.undoStack = s.undoStack ++ executed new ∧ s'.busy = s.busy ∧ s'.running = false ∧
      s'.undoStack.length ≤ s'.capacity ∧ Hooked s'.hooked s'.cmds := by
  rw [run]
  cases hrunner : s.runner with
  | none =>
    obtain ⟨ret, s', new, he, hran, hchild, hhooked'⟩ := foreachProp_ran (C := C)
      s.cmds [] { s with running := true } rfl hsize hroom hhooked
    refine ⟨ret, { s' with running := false }, new, ?_, hran.calls, hran.exec, fun _ => hchild, hran.stack,
      hran.busy, rfl, hran.size, hhooked'⟩
    simp only [hrunner] at he
    simp only [runnerDefault, he]
  | some runner =>
    have hmem := hok (by rw [hrunner]; exact Option.some_ne_none _)
    obtain ⟨ret, s', new, he, hran, hhooked'⟩ := runRunner_ran (C := C) hmem runner
      { s with running := true } rfl hsize hhooked
    refine ⟨ret, { s' with running := false }, new, ?_, hran.calls, hran.exec,
      fun h => absurd h (Option.some_ne_none _), hran.stack, hran.busy, rfl, hran.size, hhooked'⟩
    simp only [hrunner] at he
    simp only [he]

/-- The loop undoes from the end on. -/
theorem undoLoop_undone (memory : Nat → Bool) : ∀ (fuel : Nat) (s : WorkflowCmd σ) (ret : Ret), s.undoStack.length = fuel →
    ∃ ret' world new left, undoLoop C memory fuel s ret =
        (ret', { s with world := world, calls := s.calls ++ new, undoStack := left }) ∧
      Undone s.undoStack new left
  | 0, s, ret, hlen => by
    have hnil : s.undoStack = [] := List.length_eq_zero_iff.mp hlen
    refine ⟨ret, s.world, [], [], ?_, hnil ▸ .done⟩
    rw [undoLoop, List.append_nil, ← hnil]
  | fuel + 1, s, ret, hlen => by
    obtain ⟨stack, cmd, hstack⟩ : ∃ stack cmd, s.undoStack = stack ++ [cmd] := by
      have hne : s.undoStack ≠ [] := List.ne_nil_of_length_pos (by omega)
      exact ⟨_, _, (List.dropLast_append_getLast hne).symm⟩
    generalize hexec : C.exec s.world .undo cmd = res
    obtain ⟨r, world⟩ := res
    generalize hchild : decide (cmd ∈ s.hooked) = child
    have hcall : s.childExec C memory .undo cmd =
        (r, { s with world := world, calls := s.calls ++ [⟨.undo, cmd, r, child⟩] }) := by
      simp [childExec, hexec, hchild, onChildExeced]
    have haccepts : ((if r = .notFound then Ret.ok else r) = .remove ∨
        DArray.goesOn (if r = .notFound then Ret.ok else r) = true) ↔ accepts r = true := by
      cases r <;> decide
    rw [undoLoop, hstack, List.getLast?_concat]
    simp only [hcall]
    cases hr : accepts r with
    | true =>
      rw [if_pos (haccepts.mpr hr), hstack, List.dropLast_concat]
      obtain ⟨ret', world', new, left, he, hundone⟩ := undoLoop_undone memory fuel
        { s with world := world, calls := s.calls ++ [⟨.undo, cmd, r, child⟩], undoStack := stack } .ok
        (by rw [hstack] at hlen; simpa using hlen)
      refine ⟨ret', world', ⟨.undo, cmd, r, child⟩ :: new, left, ?_, .undo hr hundone⟩
      rw [he, List.append_assoc]
      rfl
    | false =>
      rw [if_neg (fun h => absurd (haccepts.mp h) (by rw [hr]; exact Bool.false_ne_true))]
      refine ⟨if r = .notFound then .ok else r, world, [⟨.undo, cmd, r, child⟩], stack ++ [cmd], ?_,
        .failed hr⟩
      rw [← hstack]

theorem Undone.left_prefix {stack left : List Nat} {calls : List Call} (h : Undone stack calls left) :
    left <+: stack := by
  induction h with
  | done => exact List.prefix_rfl
  | undo hr h ih => exact ih.trans (List.prefix_append _ _)
  | failed hr => exact List.prefix_rfl

theorem undo_spec (memory : Nat → Bool) (h : Idle s) : ∃ ret s' undone, s.undo C memory = (ret, s') ∧
    s'.calls = s.calls ++ undone ∧ Undone s.undoStack undone s'.undoStack ∧ Idle s' := by
  rw [undo, h.busy]
  obtain ⟨ret, world, new, left, he, hundone⟩ := undoLoop_undone (C := C) memory
    s.undoStack.length { s with busy := true } .ok rfl
  simp only [Bool.false_eq_true, if_false, he]
  exact ⟨ret, _, new, rfl, rfl, hundone, rfl, h.running, hundone.left_prefix.length_le.trans h.size,
    h.hooked⟩

/-- An execution, and what it undoes if it fails. -/
theorem exec_spec (h : Idle s) (hok : StackOk memory s) : ∃ ret s' new undone,
    s.exec C memory = (ret, s') ∧ s'.calls = s.calls ++ (new ++ undone) ∧ (∀ c ∈ new, c.name = .exec) ∧
      (s.runner = none → ∀ c ∈ new, c.child = true) ∧ Idle s' ∧
      ((ret = .ok ∧ undone = [] ∧ s'.undoStack = executed new) ∨
        (ret ≠ .ok ∧ Undone (executed new) undone s'.undoStack)) := by
  rw [exec, h.busy]
  simp only [Bool.false_eq_true, if_false]
  split
  next hmem =>
    obtain ⟨ret, s', new, he, hcalls, hexec, hchild, hstack, hbusy, hrunning, hsize, hhooked⟩ :=
      run_ran (C := C)
        (s := { s with busy := true, undoStack := [], capacity := max s.capacity s.cmds.length })
        (Nat.zero_le _) (.inl (by simp)) h.hooked hok
    rw [he]
    simp only [List.nil_append] at hstack
    have hidle : Idle { s' with busy := false } := ⟨rfl, hrunning, hsize, hhooked⟩
    by_cases hret : ret = .ok
    · subst hret
      refine ⟨.ok, _, new, [], ?_, ?_, hexec, hchild, hidle, .inl ⟨rfl, rfl, hstack⟩⟩
      · simp
      · rw [List.append_nil]
        exact hcalls
    · obtain ⟨ret', s'', undone, hundo, hcalls', hundone, hidle'⟩ :=
        undo_spec (C := C) memory hidle
      change Undone s'.undoStack undone s''.undoStack at hundone
      rw [hstack] at hundone
      by_cases hcan : canExec { s' with busy := false } .undo = true
      · refine ⟨ret, s'', new, undone, ?_, ?_, hexec, hchild, hidle', .inr ⟨hret, hundone⟩⟩
        · simp [hret, hcan, hundo]
        · rw [hcalls', ← List.append_assoc]
          exact congrArg (· ++ undone) hcalls
      · have hnil : s'.undoStack = [] := by simpa [canExec] using hcan
        refine ⟨ret, { s' with busy := false }, new, [], ?_, ?_, hexec, hchild, hidle, .inr ⟨hret, ?_⟩⟩
        · simp [hcan]
        · rw [List.append_nil]
          exact hcalls
        · rw [← hstack]
          show Undone s'.undoStack [] s'.undoStack
          rw [hnil]
          exact .done
  next =>
    refine ⟨.fail, _, [], [], rfl, ?_, fun _ hc => absurd hc List.not_mem_nil,
      fun _ _ hc => absurd hc List.not_mem_nil, ⟨rfl, h.running, Nat.zero_le _, h.hooked⟩,
      .inr ⟨by decide, .done⟩⟩
    simp

end Transactions

/-! ## Runs -/

/-- What an object can get. -/
inductive Op where
  | setProp (name : Str) (cmd : Nat)
  | removeProp (name : Str)
  | clearProps
  | setRunner (runner : Option Runner)
  | exec
  | undo

def step (C : Children σ) (s : WorkflowCmd σ) : (Nat → Bool) × Op → Option (WorkflowCmd σ)
  | (_, .setProp name cmd) => some (s.setProp name cmd)
  | (_, .removeProp name) => some (s.removeProp name).2
  | (_, .clearProps) => some s.clearProps
  | (_, .setRunner runner) => some { s with runner := runner }
  | (memory, .exec) => some (s.exec C memory).2
  | (memory, .undo) => some (s.undo C memory).2

theorem step_idle {C : Children σ} (s : WorkflowCmd σ) (op : (Nat → Bool) × Op) (s' : WorkflowCmd σ)
    (h : Idle s) (hok : StackOk op.1 s) (hs : step C s op = some s') : Idle s' := by
  obtain ⟨memory, op⟩ := op
  cases op with
  | setProp name cmd =>
    cases hs
    have hran := setProp_ran h.size name cmd
    exact ⟨hran.busy.trans h.busy, hran.running.trans h.running, hran.size, setProp_hooked h.hooked name cmd⟩
  | removeProp name =>
    cases hs
    have hran := removeProp_ran h.size name
    exact ⟨hran.busy.trans h.busy, hran.running.trans h.running, hran.size, removeProp_hooked h.hooked name⟩
  | clearProps =>
    cases hs
    exact ⟨h.busy, h.running, h.size, clearProps_hooked h.hooked⟩
  | setRunner runner =>
    cases hs
    exact ⟨h.busy, h.running, h.size, h.hooked⟩
  | exec =>
    cases hs
    obtain ⟨ret, s', new, undone, he, -, -, -, hidle, -⟩ := exec_spec (C := C) h hok
    rw [he]
    exact hidle
  | undo =>
    cases hs
    obtain ⟨ret, s', undone, he, -, -, hidle⟩ := undo_spec (C := C) memory h
    rw [he]
    exact hidle

/-- An execution either succeeds, with exactly the executed children on the stack in their order, or
undoes exactly these, each once and the last one first, as long as none of them fails.  The next
undoing goes on with those that are left. -/
def Transaction (C : Children σ) (memory : Nat → Bool) (s : WorkflowCmd σ) : Prop :=
  ∃ ret s' new undone, s.exec C memory = (ret, s') ∧ s'.busy = false ∧ s'.running = false ∧
    s'.calls = s.calls ++ (new ++ undone) ∧ (∀ c ∈ new, c.name = .exec) ∧
    (s.runner = none → ∀ c ∈ new, c.child = true) ∧
    ((ret = .ok ∧ undone = [] ∧ s'.undoStack = executed new) ∨
      (ret ≠ .ok ∧ Undone (executed new) undone s'.undoStack ∧ (∀ c ∈ undone, c.cmd ∈ executed new) ∧
        ((∀ c ∈ undone, c.result = .ok ∨ c.result = .notFound) →
          undone.map Call.cmd = (executed new).reverse ∧ s'.undoStack = []))) ∧
    ∃ ret' s'' undone', s'.undo C memory = (ret', s'') ∧ s''.calls = s'.calls ++ undone' ∧
      Undone s'.undoStack undone' s''.undoStack ∧ undone'.map Call.cmd <+: s'.undoStack.reverse

/-- Children of which the third one fails. -/
def thirdFails : Children Unit where
  canExec _ _ := (true, ())
  exec _ name cmd := (if name = .exec ∧ cmd = 3 then .fail else .ok, ())

/-- Both children that were executed are undone. -/
example : (exec thirdFails (fun _ => true)
    ⟨(), [], [], 0, [([97], 1), ([98], 2), ([99], 3)], [1, 2, 3], none, false, false⟩).2.calls.map
      (fun c => (c.name, c.cmd)) = [(.exec, 1), (.exec, 2), (.exec, 3), (.undo, 2), (.undo, 1)] := by
  decide

end Awtk.WorkflowCmd
