import Mathlib
import Awtk.Lib.Line
import Awtk.Lib.Run
import Awtk.Tkc.WaitableActionDArray

/-!
# The array of actions over whole runs

In every run the two semaphores agree with the array, and the array is a line: an action that was
sent waits in it, was received, or was destroyed.  A removal or replacement takes the action with
the given function exactly where the first action whose function has the same lower half is that one,
since the comparison cuts the difference of the two addresses (`runs_sound_iff`).
-/

namespace Awtk.WaitableActionDArray

open Runs List Option

variable {q : WaitableActionDArray} {c : Call} {g : Bool} {l r : List QAction} {x : QAction}

/-! ## The change of the array -/

/-- The comparison that a call uses. -/
def Takes (cmp : Option Compare) (ctx : UInt64) (x : QAction) : Prop :=
  (cmp.getD onDarrayCompare) x ctx = 0

/-- `l ++ x :: r` is split at the first action that the comparison takes. -/
def FirstTaken (cmp : Option Compare) (ctx : UInt64) (l : List QAction) (x : QAction) : Prop :=
  (∀ y ∈ l, ¬Takes cmp ctx y) ∧ Takes cmp ctx x

/-- What a call can do to the array. -/
inductive Changed (q : WaitableActionDArray) : Call → Outcome → WaitableActionDArray → Prop
  | send {a : QAction} : Changed q (.send a) ⟨.ok, none, some .recv, none⟩
      { q with elms := q.elms ++ [a] }
  | recv {a : QAction} {l : List QAction} (h : q.elms = a :: l) :
      Changed q .recv ⟨.ok, some a, some .send, none⟩ { q with elms := l }
  | find {cmp : Option Compare} {ctx : UInt64} {a : Option QAction} :
      Changed q (.findEx cmp ctx) ⟨.ok, a, none, none⟩ q
  | remove {cmp : Option Compare} {ctx : UInt64} {l r : List QAction} {x : QAction}
      (h : q.elms = l ++ x :: r) (hfirst : FirstTaken cmp ctx l x) :
      Changed q (.removeEx cmp ctx) ⟨.ok, none, some .send, some x⟩ { q with elms := l ++ r }
  | keep {cmp : Option Compare} {ctx : UInt64} (h : ∀ y ∈ q.elms, ¬Takes cmp ctx y) :
      Changed q (.removeEx cmp ctx) ⟨.notFound, none, some .recv, none⟩ q
  | replace {exec : UInt64} {l r : List QAction} {x b : QAction} (h : q.elms = l ++ x :: r)
      (hfirst : FirstTaken none exec l x) :
      Changed q (.replaceEx exec b) ⟨.ok, none, none, some x⟩ { q with elms := l ++ b :: r }
  | missing {exec : UInt64} {b : QAction} (h : ∀ y ∈ q.elms, ¬Takes none exec y) :
      Changed q (.replaceEx exec b) ⟨.fail, none, none, none⟩ q

theorem findIndexEx_cases (q : WaitableActionDArray) (cmp : Option Compare) (ctx : UInt64) :
    (∃ l x r, q.elms = l ++ x :: r ∧ FirstTaken cmp ctx l x ∧ q.findIndexEx cmp ctx = some l.length) ∨
      ((∀ y ∈ q.elms, ¬Takes cmp ctx y) ∧ q.findIndexEx cmp ctx = none) := by
  rw [findIndexEx]
  cases hidx : q.elms.findIdx? fun iter => (cmp.getD onDarrayCompare) iter ctx = 0 with
  | none =>
    refine .inr ⟨fun y hy => ?_, rfl⟩
    simpa [Takes] using findIdx?_eq_none_iff.mp hidx y hy
  | some i =>
    obtain ⟨hlt, hx, hl⟩ := findIdx?_eq_some_iff_getElem.mp hidx
    refine .inl ⟨q.elms.take i, q.elms[i], q.elms.drop (i + 1), ?_, ⟨?_, ?_⟩, ?_⟩
    · rw [← drop_eq_getElem_cons hlt, take_append_drop]
    · intro y hy
      obtain ⟨j, hj, rfl⟩ := mem_iff_getElem.mp hy
      rw [length_take] at hj
      rw [getElem_take]
      simpa [Takes] using hl j (by omega)
    · simpa [Takes] using hx
    · rw [length_take, Nat.min_eq_left (Nat.le_of_lt hlt)]

/-- With a permit there is room to send, or an action to receive. -/
theorem change_cases (q : WaitableActionDArray) (g : Bool) (c : Call)
    (hsend : c.sema = some .send → q.elms.length < q.capacity)
    (hrecv : c.sema = some .recv → q.elms ≠ []) : Changed q c (q.change g c).1 (q.change g c).2 := by
  cases c with
  | send a =>
    simp only [change, push, if_pos (hsend rfl), if_true]
    exact .send
  | recv =>
    cases helms : q.elms with
    | nil => exact absurd helms (hrecv rfl)
    | cons a l =>
      simp only [change, removeIndex, helms, length_cons, Nat.zero_lt_succ, if_true,
        head?_cons, eraseIdx_zero, tail_cons]
      exact .recv helms
  | findEx cmp ctx => exact .find
  | removeEx cmp ctx =>
    rcases findIndexEx_cases q cmp ctx with ⟨l, x, r, helms, hfirst, hidx⟩ | ⟨hnone, hidx⟩
    · have hlt : l.length < q.elms.length := by simp [helms]
      have hget : q.elms[l.length]? = some x := by simp [helms]
      have herase : q.elms.eraseIdx l.length = l ++ r := by simp [helms, eraseIdx_append]
      simp only [change, removeEx, findEx, hidx, removeIndex, hlt, if_true, bind_some, hget,
        herase]
      exact .remove helms hfirst
    · simp only [change, removeEx, hidx]
      exact .keep hnone
  | replaceEx exec b =>
    rcases findIndexEx_cases q none exec with ⟨l, x, r, helms, hfirst, hidx⟩ | ⟨hnone, hidx⟩
    · have hlt : l.length < q.elms.length := by simp [helms]
      have hget : q.elms[l.length]? = some x := by simp [helms]
      have hset : q.elms.set l.length b = l ++ b :: r := by simp [helms]
      simp only [change, hidx, replaceIndex, hlt, if_true, hget, hset]
      exact .replace helms hfirst
    · simp only [change, hidx]
      exact .missing hnone

/-! ## The history -/

/-- The thread holds a permit, which it took or has to give back. -/
def Thread.holds (sema : Sema) : Thread → Bool
  | .locking c => c.sema = some sema
  | .inside _ todo => todo.posts = some sema
  | _ => false

def Thread.isInside : Thread → Bool
  | .inside _ _ => true
  | _ => false

/-- The action that the thread has taken out and has to destroy. -/
def Thread.doomed : Thread → Option QAction
  | .inside _ todo => todo.destroys
  | _ => none

/-- A call that succeeds, with the action that it gives. -/
def Thread.success : Thread → Option (Call × Option QAction)
  | .inside c todo => if todo.ret = .ok then some (c, todo.action) else none
  | _ => none

def Reply.success (r : Reply) : Option (Call × Option QAction) :=
  if r.ret = .ok then some (r.call, r.action) else none

def Entry.success (e : Entry) : Option (Call × Option QAction) :=
  if e.outcome.ret = .ok then some (e.call, e.outcome.action) else none

/-- What a change of the array is for the actions that wait. -/
def Entry.event : Entry → Option (Line.Event QAction)
  | ⟨_, .send a, ⟨.ok, _, _, _⟩, _, _⟩ => some (.join a)
  | ⟨_, .recv, ⟨.ok, some a, _, _⟩, _, _⟩ => some (.serve a)
  | ⟨_, .removeEx _ _, ⟨.ok, _, _, some a⟩, _, _⟩ => some (.leave a)
  | ⟨_, .replaceEx _ b, ⟨.ok, _, _, some a⟩, _, _⟩ => some (.swap a b)
  | _ => none

namespace System

def holders (s : System) (sema : Sema) : Nat := s.threads.countP (Thread.holds sema)

def doomed (s : System) : List QAction := s.threads.filterMap Thread.doomed

def events (s : System) : List (Line.Event QAction) :=
  s.entries.filterMap Entry.event ++ s.popped.map .leave

end System

/-- The thread `u` is now at `t`. -/
def Moved (u t : Thread) (xs ys : List Thread) : Prop := ∃ l r, xs = l ++ u :: r ∧ ys = l ++ t :: r

section
variable {xs ys : List Thread} {u t : Thread}

theorem moved_set {i : Nat} (h : xs[i]? = some u) (t : Thread) : Moved u t xs (xs.set i t) := by
  obtain ⟨hi, rfl⟩ := List.getElem?_eq_some_iff.mp h
  refine ⟨xs.take i, xs.drop (i + 1), ?_, ?_⟩
  · rw [← drop_eq_getElem_cons hi, take_append_drop]
  · rw [set_eq_take_append_cons_drop, if_pos hi]

theorem Moved.countP (h : Moved u t xs ys) (p : Thread → Bool) :
    ys.countP p + (p u).toNat = xs.countP p + (p t).toNat := by
  obtain ⟨l, r, rfl, rfl⟩ := h
  simp only [countP_append, countP_cons]
  cases p u <;> cases p t <;> simp <;> omega

theorem filterMap_cons_toList {α β : Type*} (f : α → Option β) (a : α) (l : List α) :
    (a :: l).filterMap f = (f a).toList ++ l.filterMap f := by
  cases h : f a with
  | none => rw [filterMap_cons_none h]; rfl
  | some b => rw [filterMap_cons_some h]; rfl

theorem Moved.count (h : Moved u t xs ys) (f : Thread → Option QAction) (x : QAction) :
    (ys.filterMap f).count x + (f u).toList.count x =
      (xs.filterMap f).count x + (f t).toList.count x := by
  obtain ⟨l, r, rfl, rfl⟩ := h
  simp only [filterMap_append, filterMap_cons_toList, count_append]
  omega

theorem Moved.perm {β : Type*} (h : Moved u t xs ys) (f : Thread → Option β) :
    ((f u).toList ++ ys.filterMap f).Perm ((f t).toList ++ xs.filterMap f) := by
  obtain ⟨l, r, rfl, rfl⟩ := h
  simp only [filterMap_append, filterMap_cons_toList, ← append_assoc]
  refine Perm.append_right _ ?_
  rw [append_assoc, append_assoc]
  refine (perm_append_comm_assoc _ _ _).trans ?_
  refine .trans (Perm.append_left _ perm_append_comm) ?_
  exact perm_append_comm_assoc _ _ _

end

/-! ## One step -/

/-- What a step can do. -/
inductive Moves (s : System) : Act → System → Prop
  | begin {i : Nat} {c : Call} {t : Thread} (hi : s.threads[i]? = some .idle)
      (halive : s.alive = true) (ht : t = .waiting c ∨ t = .locking c ∧ c.sema = none) :
      Moves s (.start i c) (s.goto i t)
  | refuse {a : Act} {i : Nat} {c : Call} {u : Thread} {ret : Ret} (hi : s.threads[i]? = some u)
      (hu : u = .idle ∧ s.alive = true ∨ u = .waiting c) (hret : ret ≠ .ok)
      (ha : ∀ j g, a ≠ .run j g) : Moves s a (s.reply i c ret none)
  | wait {i : Nat} {g : Bool} {c : Call} {sema : Sema} (hi : s.threads[i]? = some (.waiting c))
      (hsema : c.sema = some sema) (hpermit : 0 < s.q.permits sema) :
      Moves s (.run i g)
        { s.goto i (.locking c) with q := s.q.setPermits (s.q.permits sema - 1) sema }
  | enter {i : Nat} {g : Bool} {c : Call} (hi : s.threads[i]? = some (.locking c))
      (hlocked : s.q.locked = false) : Moves s (.run i g) (s.enter i g c)
  | post {i : Nat} {g : Bool} {c : Call} {todo : Outcome} {sema : Sema}
      (hi : s.threads[i]? = some (.inside c todo)) (hposts : todo.posts = some sema) :
      Moves s (.run i g) { s.goto i (.inside c { todo with posts := none }) with q := s.q.post sema }
  | kill {i : Nat} {g : Bool} {c : Call} {todo : Outcome} {x : QAction}
      (hi : s.threads[i]? = some (.inside c todo)) (hposts : todo.posts = none)
      (hdestroys : todo.destroys = some x) :
      Moves s (.run i g) ((s.goto i (.inside c { todo with destroys := none })).destroyQaction x)
  | leave {i : Nat} {g : Bool} {c : Call} {todo : Outcome}
      (hi : s.threads[i]? = some (.inside c todo)) (hposts : todo.posts = none)
      (hdestroys : todo.destroys = none) :
      Moves s (.run i g)
        { s.reply i c todo.ret todo.action with q := { s.q with locked := false } }
  | destroy (halive : s.alive = true) (hquiet : s.Quiet) : Moves s .destroy s.destroy

theorem step_cases {s s' : System} {a : Act} (h : s.step a = some s') : Moves s a s' := by
  cases a with
  | start i c =>
    rw [System.step] at h
    split at h
    · rename_i hi
      split at h
      · rename_i halive
        obtain rfl := some.inj h
        rw [System.start]
        split
        · refine .begin hi halive ?_
          split
          · rename_i hsema
            exact .inr ⟨rfl, hsema⟩
          · exact .inl rfl
        · exact .refuse hi (.inl ⟨rfl, halive⟩) (by decide) fun _ _ => Act.noConfusion
      · cases h
    · cases h
  | timeout i =>
    rw [System.step] at h
    split at h
    · rename_i c hi
      obtain rfl := some.inj h
      exact .refuse hi (.inr rfl) (by cases c <;> simp [Call.timeoutRet]) fun _ _ => Act.noConfusion
    · cases h
  | run i g =>
    rw [System.step] at h
    split at h
    · rename_i c hi
      obtain ⟨q', hq, rfl⟩ := map_eq_some_iff.mp h
      obtain ⟨sema, hsema, hwait⟩ := bind_eq_some_iff.mp hq
      rw [WaitableActionDArray.wait] at hwait
      split at hwait
      · rename_i hpermit
        obtain rfl := some.inj hwait
        exact .wait hi hsema hpermit
      · cases hwait
    · rename_i c hi
      split at h
      · cases h
      · rename_i hlocked
        obtain rfl := some.inj h
        exact .enter hi (Bool.eq_false_iff.mpr hlocked)
    · rename_i c todo hi
      obtain rfl := some.inj h
      rw [System.proceed]
      split
      · rename_i sema hposts
        exact .post hi hposts
      · rename_i hposts
        split
        · rename_i x hdestroys
          exact .kill hi hposts hdestroys
        · rename_i hdestroys
          exact .leave hi hposts hdestroys
    · cases h
  | destroy =>
    rw [System.step] at h
    split at h
    · rename_i hcond
      obtain rfl := some.inj h
      exact .destroy hcond.1 hcond.2
    · cases h

/-! ## The permits -/

/-- The semaphores agree with the array, and one thread at most is inside. -/
structure Permits (n : Nat) (s : System) : Prop where
  capacity : s.q.capacity = n
  send : s.q.semaSend + s.q.elms.length + s.holders .send = n
  recv : s.q.semaRecv + s.holders .recv = s.q.elms.length
  mutex : s.threads.countP Thread.isInside = s.q.locked.toNat

section
variable {s s' : System} {a : Act} {n i : Nat} {u t : Thread}

theorem holders_pos (sema : Sema) (hi : s.threads[i]? = some u) (hu : u.holds sema = true) :
    0 < s.holders sema :=
  countP_pos_iff.mpr ⟨u, mem_of_getElem? hi, hu⟩

/-- A permit lets the call change the array as it should. -/
theorem Permits.changed (h : Permits n s) {c : Call} (hi : s.threads[i]? = some (.locking c))
    (g : Bool) : Changed s.q c (s.q.change g c).1 (s.q.change g c).2 := by
  have hsend := h.send
  have hrecv := h.recv
  refine change_cases s.q g c ?_ ?_
  · intro hsema
    have hpos := holders_pos .send hi (by simp [Thread.holds, hsema])
    rw [h.capacity]
    omega
  · intro hsema hnil
    have hpos := holders_pos .recv hi (by simp [Thread.holds, hsema])
    rw [hnil, length_nil] at hrecv
    omega

/-- The permits agree if what a thread holds and the array change together. -/
theorem Permits.moved (h : Permits n s) (hi : s.threads[i]? = some u)
    (hthreads : s'.threads = s.threads.set i t) (hcapacity : s'.q.capacity = s.q.capacity)
    (hsend : s'.q.semaSend + s'.q.elms.length + (t.holds .send).toNat =
      s.q.semaSend + s.q.elms.length + (u.holds .send).toNat)
    (hrecv : s'.q.semaRecv + (t.holds .recv).toNat + s.q.elms.length =
      s.q.semaRecv + (u.holds .recv).toNat + s'.q.elms.length)
    (hmutex : s'.q.locked.toNat + u.isInside.toNat = s.q.locked.toNat + t.isInside.toNat) :
    Permits n s' := by
  have hmoved := moved_set hi t
  rw [← hthreads] at hmoved
  have hholders : ∀ sema, s'.holders sema + (u.holds sema).toNat =
      s.holders sema + (t.holds sema).toNat := fun sema => hmoved.countP _
  have hs := hholders .send
  have hr := hholders .recv
  have hin := hmoved.countP Thread.isInside
  have hsend₀ := h.send
  have hrecv₀ := h.recv
  have hmutex₀ := h.mutex
  exact ⟨hcapacity.trans h.capacity, by omega, by omega, by omega⟩

theorem Permits.locked (h : Permits n s) (hi : s.threads[i]? = some u) (hu : u.isInside = true) :
    s.q.locked = true := by
  have hpos : 0 < s.threads.countP Thread.isInside :=
    countP_pos_iff.mpr ⟨u, mem_of_getElem? hi, hu⟩
  rw [h.mutex] at hpos
  cases hlocked : s.q.locked with
  | true => rfl
  | false =>
    rw [hlocked] at hpos
    exact absurd hpos (Nat.lt_irrefl 0)

theorem Permits.step (h : Permits n s) (hm : Moves s a s') (halive : s'.alive = true) :
    Permits n s' := by
  cases hm with
  | begin hi _ ht =>
    rcases ht with rfl | ⟨rfl, hsema⟩
    · exact h.moved hi rfl rfl rfl rfl rfl
    · refine h.moved hi rfl rfl ?_ ?_ rfl
      · simp [Thread.holds, hsema, System.goto]
      · simp [Thread.holds, hsema, System.goto]
  | refuse hi hu =>
    rcases hu with ⟨rfl, -⟩ | rfl
    · exact h.moved hi rfl rfl rfl rfl rfl
    · exact h.moved hi rfl rfl rfl rfl rfl
  | @wait i g c sema hi hsema hpermit =>
    cases sema with
    | send =>
      refine h.moved hi rfl rfl ?_ ?_ rfl
      · simp [Thread.holds, hsema, setPermits, permits] at hpermit ⊢
        omega
      · simp [Thread.holds, hsema, setPermits]
    | recv =>
      refine h.moved hi rfl rfl ?_ ?_ rfl
      · simp [Thread.holds, hsema, setPermits]
      · simp [Thread.holds, hsema, setPermits, permits] at hpermit ⊢
        omega
  | @enter i g c hi hlocked =>
    have hchanged := h.changed hi g
    rw [System.enter]
    generalize s.q.change g c = out at hchanged ⊢
    obtain ⟨o, q'⟩ := out
    refine h.moved hi rfl ?_ ?_ ?_ (by rw [hlocked]; rfl)
    · cases hchanged <;> rfl
    · cases hchanged <;> simp [Thread.holds, Call.sema, *] <;> omega
    · cases hchanged <;> simp [Thread.holds, Call.sema, *] <;> omega
  | @post i g c todo sema hi hposts =>
    cases sema with
    | send =>
      refine h.moved hi rfl rfl ?_ ?_ rfl
      · simp [Thread.holds, hposts, WaitableActionDArray.post, setPermits, permits]
        omega
      · simp [Thread.holds, hposts, WaitableActionDArray.post, setPermits]
    | recv =>
      refine h.moved hi rfl rfl ?_ ?_ rfl
      · simp [Thread.holds, hposts, WaitableActionDArray.post, setPermits]
      · simp [Thread.holds, hposts, WaitableActionDArray.post, setPermits, permits]
  | kill hi hposts =>
    refine h.moved hi rfl rfl ?_ ?_ rfl
    · simp [Thread.holds, System.destroyQaction, System.goto]
    · simp [Thread.holds, System.destroyQaction, System.goto]
  | leave hi hposts =>
    refine h.moved hi rfl rfl ?_ ?_ (by rw [h.locked hi rfl]; rfl)
    · simp [Thread.holds, hposts]
    · simp [Thread.holds, hposts]
  | destroy => cases halive

/-! ## The line -/

/-- The action that a successful call has sent. -/
def sentOf : Call × Option QAction → Option QAction
  | (.send a, _) => some a
  | _ => none

/-- The action that a successful call has brought into the array. -/
def acceptedOf : Call × Option QAction → Option QAction
  | (.send a, _) => some a
  | (.replaceEx _ b, _) => some b
  | _ => none

/-- The action that a successful call has received. -/
def receivedOf : Call × Option QAction → Option QAction
  | (.recv, a) => a
  | _ => none

/-- The event of a change is what its success says. -/
structure Entry.Regular (e : Entry) : Prop where
  sent : e.event.bind Line.Event.joined = e.success.bind sentOf
  accepted : e.event.bind Line.Event.entered = e.success.bind acceptedOf
  received : e.event.bind Line.Event.served = e.success.bind receivedOf
  unharmed : e.outcome.ret ≠ .ok → e.after = e.before

/-- The array is a line, and what has left it is destroyed. -/
structure Lineage (s : System) : Prop where
  history : Line.History s.events s.q.elms
  gone : ∀ x, (s.events.filterMap Line.Event.left).count x = s.destroyed.count x + s.doomed.count x
  freed : s.freed = s.destroyed.filter fun x => x.notify = .notImpl
  regular : ∀ e ∈ s.entries, e.Regular
  success : (s.entries.filterMap Entry.success).Perm
    (s.replies.filterMap Reply.success ++ s.threads.filterMap Thread.success)
  popped : s.alive = true → s.popped = []
  quiet : s.alive = false → s.Quiet

theorem Changed.regular {o : Outcome} {q' : WaitableActionDArray} (h : Changed q c o q') (i : Nat) :
    Entry.Regular ⟨i, c, o, q.elms, q'.elms⟩ := by
  cases h with
  | find | keep | missing => exact ⟨rfl, rfl, rfl, fun _ => rfl⟩
  | _ => exact ⟨rfl, rfl, rfl, fun hret => absurd rfl hret⟩

/-- A change of the array is a step of the line, or nothing. -/
theorem Changed.event {o : Outcome} {q' : WaitableActionDArray} (h : Changed q c o q') (i : Nat) :
    (∃ ev, Entry.event ⟨i, c, o, q.elms, q'.elms⟩ = some ev ∧ Line.Step q.elms ev q'.elms ∧
        ev.left = o.destroys) ∨
      (Entry.event ⟨i, c, o, q.elms, q'.elms⟩ = none ∧ q'.elms = q.elms ∧ o.destroys = none) := by
  cases h with
  | send => exact .inl ⟨_, rfl, .join, rfl⟩
  | recv h => exact .inl ⟨_, rfl, h ▸ .serve, rfl⟩
  | find | keep | missing => exact .inr ⟨rfl, rfl, rfl⟩
  | remove h => exact .inl ⟨_, rfl, h ▸ .leave, rfl⟩
  | replace h => exact .inl ⟨_, rfl, h ▸ .swap, rfl⟩

theorem history_leaveAll {es : List (Line.Event QAction)} {l : List QAction}
    (h : Line.History es l) : Line.History (es ++ l.reverse.map .leave) [] := by
  induction l using List.reverseRecOn generalizing es with
  | nil => rwa [reverse_nil, map_nil, append_nil]
  | append_singleton l x ih =>
    have hlast : Line.Step (l ++ x :: []) (.leave x) (l ++ []) := .leave
    rw [append_nil] at hlast
    rw [reverse_append, reverse_singleton, singleton_append, map_cons,
      append_cons]
    exact ih (h.snoc hlast)

theorem filterMap_left_leave (l : List QAction) :
    (l.map Line.Event.leave).filterMap Line.Event.left = l := by
  rw [filterMap_map]
  exact filterMap_some

theorem destroyAll_eq (l : List QAction) (s : System) : s.destroyAll l = { s with
    destroyed := s.destroyed ++ l
    freed := s.freed ++ l.filter fun x => x.notify = .notImpl } := by
  induction l generalizing s with
  | nil => simp [System.destroyAll]
  | cons x l ih =>
    rw [System.destroyAll, foldl_cons, ← System.destroyAll, ih, System.destroyQaction]
    by_cases hnotify : x.notify = .notImpl
    · simp [hnotify]
    · simp [hnotify]

theorem Lineage.alive (h : Lineage s) (hm : Moves s a s') : s.alive = true := by
  cases halive : s.alive with
  | true => rfl
  | false =>
    cases hm with
    | begin _ halive' | destroy halive' => exact absurd (halive.symm.trans halive') Bool.false_ne_true
    | refuse hi hu =>
      rcases hu with ⟨-, halive'⟩ | rfl
      · exact absurd (halive.symm.trans halive') Bool.false_ne_true
      · cases h.quiet halive _ (mem_of_getElem? hi)
    | wait hi | enter hi | post hi | kill hi | leave hi =>
      cases h.quiet halive _ (mem_of_getElem? hi)

/-- A step that changes neither the array nor what is destroyed. -/
theorem Lineage.moved (h : Lineage s) (halive : s.alive = true) (hi : s.threads[i]? = some u)
    (hthreads : s'.threads = s.threads.set i t) (helms : s'.q.elms = s.q.elms)
    (hentries : s'.entries = s.entries) (hpopped : s'.popped = s.popped)
    (hdestroyed : s'.destroyed = s.destroyed) (hfreed : s'.freed = s.freed)
    (hs' : s'.alive = true) (hdoomed : t.doomed = u.doomed) {new : List Reply}
    (hreplies : s'.replies = s.replies ++ new)
    (hsuccess : new.filterMap Reply.success ++ t.success.toList = u.success.toList) :
    Lineage s' := by
  have hmoved := moved_set hi t
  rw [← hthreads] at hmoved
  have hevents : s'.events = s.events := by rw [System.events, hentries, hpopped, System.events]
  refine ⟨by rw [hevents, helms]; exact h.history, fun x => ?_, ?_, ?_, ?_, ?_, ?_⟩
  · have hcount : s'.doomed.count x + u.doomed.toList.count x =
        s.doomed.count x + t.doomed.toList.count x := hmoved.count _ x
    have hgone := h.gone x
    rw [hdoomed] at hcount
    rw [hevents, hdestroyed]
    omega
  · rw [hfreed, hdestroyed]
    exact h.freed
  · rw [hentries]
    exact h.regular
  · have hperm := hmoved.perm Thread.success
    rw [← hsuccess, append_assoc] at hperm
    have hnew := (perm_append_left_iff _).mp ((perm_append_comm_assoc _ _ _).trans hperm)
    rw [hentries, hreplies, filterMap_append, append_assoc]
    exact h.success.trans (hnew.symm.append_left _)
  · exact fun _ => hpopped.trans (h.popped halive)
  · exact fun hdead => absurd (hs'.symm.trans hdead) Bool.noConfusion

theorem Lineage.enter (h : Lineage s) (halive : s.alive = true) (g : Bool)
    (hi : s.threads[i]? = some (.locking c))
    (hchanged : Changed s.q c (s.q.change g c).1 (s.q.change g c).2) :
    Lineage (s.enter i g c) := by
  have hmoved := moved_set hi (.inside c (s.q.change g c).1)
  have hpopped : (s.enter i g c).popped = [] := h.popped halive
  have hevents : (s.enter i g c).events = s.events ++
      (Entry.event ⟨i, c, (s.q.change g c).1, s.q.elms, (s.q.change g c).2.elms⟩).toList := by
    rw [System.events, hpopped, System.events, h.popped halive]
    simp [System.enter, filterMap_cons_toList]
  have hcount : ∀ x, (s.enter i g c).doomed.count x =
      s.doomed.count x + (s.q.change g c).1.destroys.toList.count x :=
    fun x => hmoved.count Thread.doomed x
  have hregular := hchanged.regular i
  refine ⟨?_, fun x => ?_, h.freed, ?_, ?_, fun _ => hpopped, fun hdead => ?_⟩
  · rw [hevents]
    rcases hchanged.event i with ⟨ev, hev, hstep, -⟩ | ⟨hev, helms, -⟩
    · rw [hev]
      exact h.history.snoc hstep
    · rw [hev, toList_none, append_nil]
      change Line.History s.events (s.q.change g c).2.elms
      rw [helms]
      exact h.history
  · have hgone := h.gone x
    rw [hcount, hevents, filterMap_append, count_append, hgone, Nat.add_assoc]
    rcases hchanged.event i with ⟨ev, hev, -, hleft⟩ | ⟨hev, -, hdestroys⟩
    · rw [hev, ← hleft, toList_some, filterMap_cons_toList, filterMap_nil,
        append_nil]
      rfl
    · rw [hev, hdestroys]
      rfl
  · intro e he
    rcases mem_append.mp he with he | he
    · exact h.regular e he
    · rw [mem_singleton.mp he]
      exact hregular
  · have hperm := hmoved.perm Thread.success
    change ((s.entries ++ [_]).filterMap Entry.success).Perm (s.replies.filterMap Reply.success ++
      (s.threads.set i (.inside c (s.q.change g c).1)).filterMap Thread.success)
    rw [filterMap_append, filterMap_cons_toList, filterMap_nil, append_nil]
    refine (h.success.append_right _).trans ?_
    rw [append_assoc]
    exact (perm_append_comm.trans hperm.symm).append_left _
  · exact absurd (halive.symm.trans hdead) Bool.noConfusion

theorem Lineage.kill (h : Lineage s) (halive : s.alive = true) {todo : Outcome}
    (hi : s.threads[i]? = some (.inside c todo)) (hdestroys : todo.destroys = some x) :
    Lineage ((s.goto i (.inside c { todo with destroys := none })).destroyQaction x) := by
  have hmoved := moved_set hi (.inside c { todo with destroys := none })
  refine ⟨h.history, fun y => ?_, ?_, h.regular, ?_, h.popped, fun hdead => ?_⟩
  · have hcount := hmoved.count Thread.doomed y
    have hgone := h.gone y
    simp only [Thread.doomed, hdestroys, toList_some, toList_none, count_nil,
      Nat.add_zero] at hcount
    change _ = (s.destroyed ++ [x]).count y + ((s.threads.set i _).filterMap Thread.doomed).count y
    rw [count_append]
    change _ = s.destroyed.count y + (s.threads.filterMap Thread.doomed).count y at hgone
    refine hgone.trans ?_
    omega
  · change (if x.notify = .notImpl then s.freed ++ [x] else s.freed) = (s.destroyed ++ [x]).filter _
    rw [filter_append, h.freed]
    by_cases hnotify : x.notify = .notImpl
    · simp [hnotify]
    · simp [hnotify]
  · have hperm := (perm_append_left_iff _).mp (hmoved.perm Thread.success)
    exact h.success.trans (hperm.symm.append_left _)
  · exact absurd (halive.symm.trans hdead) Bool.noConfusion

theorem Lineage.destroy (h : Lineage s) (halive : s.alive = true) (hquiet : s.Quiet) :
    Lineage s.destroy := by
  have hevents : s.destroy.events = s.events ++ s.q.elms.reverse.map .leave := by
    rw [System.events, System.events, h.popped halive, map_nil, append_nil,
      System.destroy, destroyAll_eq]
  have hleft := filterMap_left_leave s.q.elms.reverse
  refine ⟨?_, fun y => ?_, ?_, ?_, ?_, fun halive' => ?_, fun _ => ?_⟩
  · rw [hevents]
    exact history_leaveAll h.history
  · have hgone := h.gone y
    have hdoomed : s.destroy.doomed = s.doomed := by
      rw [System.doomed, System.destroy, destroyAll_eq, System.doomed]
    have hdestroyed : s.destroy.destroyed = s.destroyed ++ s.q.elms.reverse := by
      rw [System.destroy, destroyAll_eq]
    rw [hevents, hdoomed, hdestroyed, filterMap_append, hleft, count_append,
      count_append, hgone]
    omega
  · rw [System.destroy, destroyAll_eq, filter_append, h.freed]
  · rw [System.destroy, destroyAll_eq]
    exact h.regular
  · rw [System.destroy, destroyAll_eq]
    exact h.success
  · cases halive'
  · rw [System.destroy, destroyAll_eq]
    exact hquiet

theorem Lineage.step (h : Lineage s) (hp : s.alive = true → Permits n s) (hm : Moves s a s') :
    Lineage s' := by
  have halive := h.alive hm
  cases hm with
  | begin hi _ ht =>
    rcases ht with rfl | ⟨rfl, -⟩
    · exact h.moved halive hi rfl rfl rfl rfl rfl rfl halive rfl (append_nil _).symm rfl
    · exact h.moved halive hi rfl rfl rfl rfl rfl rfl halive rfl (append_nil _).symm rfl
  | @refuse a i c u ret hi hu hret =>
    have hnone : [Reply.mk i c ret none].filterMap Reply.success = [] := by
      rw [filterMap_cons_toList, Reply.success, if_neg hret]
      rfl
    rcases hu with ⟨rfl, -⟩ | rfl
    · exact h.moved (t := .idle) halive hi rfl rfl rfl rfl rfl rfl halive rfl rfl (by rw [hnone]; rfl)
    · exact h.moved (t := .idle) halive hi rfl rfl rfl rfl rfl rfl halive rfl rfl (by rw [hnone]; rfl)
  | @wait i g c sema hi =>
    refine h.moved (t := .locking c) halive hi rfl ?_ rfl rfl rfl rfl halive rfl
      (append_nil _).symm rfl
    cases sema <;> rfl
  | @enter i g c hi => exact h.enter halive g hi ((hp halive).changed hi g)
  | @post i g c todo sema hi =>
    refine h.moved (t := .inside c { todo with posts := none }) halive hi rfl ?_ rfl rfl rfl rfl
      halive rfl (append_nil _).symm rfl
    cases sema <;> rfl
  | kill hi _ hdestroys => exact h.kill halive hi hdestroys
  | @leave i g c todo hi _ hdestroys =>
    refine h.moved (t := .idle) halive hi rfl rfl rfl rfl rfl rfl halive hdestroys.symm rfl ?_
    rw [filterMap_cons_toList]
    exact (append_nil _).trans (append_nil _)
  | destroy _ hquiet => exact h.destroy halive hquiet

end

/-! ## Removal by function -/

/-- The function that a call is given. -/
def Call.givenExec : Call → Option UInt64
  | .removeEx none exec => some exec
  | .replaceEx exec _ => some exec
  | _ => none

/-- A call that is given a function takes no action with another one. -/
def Entry.ByExec (e : Entry) : Prop :=
  ∀ f x, e.call.givenExec = some f → e.outcome.destroys = some x → x.exec = f

/-- The addresses have the same lower half. -/
def SameHalf (f g : UInt64) : Prop := f.toNat % 2 ^ 32 = g.toNat % 2 ^ 32

instance (f g : UInt64) : Decidable (SameHalf f g) := inferInstanceAs (Decidable (_ = _))

/-- The first action whose function has the lower half of `f` has the function `f`. -/
def ExactFirst (f : UInt64) (elms : List QAction) : Prop :=
  ∀ x ∈ elms.find? fun y => SameHalf y.exec f, x.exec = f

instance (f : UInt64) (elms : List QAction) : Decidable (ExactFirst f elms) :=
  Option.decidableForallMem _

/-- The function with which the thread is about to change the array. -/
def Thread.givenExec : Thread → Option UInt64
  | .locking c => c.givenExec
  | _ => none

/-- The condition on a step: a call that is given a function changes the array only where the first
action that compares equal has that function. -/
def Exact (s : System) : Act → Prop
  | .run i _ => ∀ f ∈ s.threads[i]?.bind Thread.givenExec, ExactFirst f s.q.elms
  | _ => True

instance (s : System) : ∀ a, Decidable (Exact s a)
  | .run _ _ => Option.decidableForallMem _
  | .start _ _ | .timeout _ | .destroy => .isTrue trivial

theorem takes_iff {f : UInt64} : Takes none f x ↔ SameHalf x.exec f := by
  rw [Takes, SameHalf, getD_none, onDarrayCompare, ← Int.dvd_iff_bmod_eq_zero]
  omega

/-- The search by a function stops at the first action whose function has the same lower half. -/
theorem FirstTaken.find {f : UInt64} (h : FirstTaken none f l x) (r : List QAction) :
    (l ++ x :: r).find? (fun y => SameHalf y.exec f) = some x := by
  obtain ⟨hl, hx⟩ := h
  rw [find?_eq_some_iff_append]
  refine ⟨decide_eq_true (takes_iff.mp hx), l, r, rfl, fun y hy => ?_⟩
  simpa using mt takes_iff.mpr (hl y hy)

theorem find_eq_none {f : UInt64} {elms : List QAction} (h : ∀ y ∈ elms, ¬Takes none f y) :
    elms.find? (fun y => SameHalf y.exec f) = none := by
  rw [find?_eq_none]
  intro y hy
  simpa using mt takes_iff.mpr (h y hy)

theorem Changed.byExec_iff {o : Outcome} {q' : WaitableActionDArray} (h : Changed q c o q') (i : Nat) :
    Entry.ByExec ⟨i, c, o, q.elms, q'.elms⟩ ↔
      ∀ f, c.givenExec = some f → ExactFirst f q.elms := by
  have htaken : ∀ {f : UInt64} {l r : List QAction} {x : QAction}, q.elms = l ++ x :: r →
      FirstTaken none f l x → (ExactFirst f q.elms ↔ x.exec = f) := by
    intro f l r x helms hfirst
    have hfind := hfirst.find r
    rw [← helms] at hfind
    simp [ExactFirst, hfind]
  have hmissing : ∀ {f : UInt64}, (∀ y ∈ q.elms, ¬Takes none f y) → ExactFirst f q.elms := by
    intro f hnone y hy
    rw [find_eq_none hnone] at hy
    cases hy
  cases h with
  | send | recv | find => simp [Entry.ByExec, Call.givenExec]
  | @remove cmp ctx l r x helms hfirst =>
    cases cmp with
    | none => simp [Entry.ByExec, Call.givenExec, htaken helms hfirst]
    | some cmp => simp [Entry.ByExec, Call.givenExec]
  | @keep cmp ctx hnone =>
    cases cmp with
    | none => simp [Entry.ByExec, Call.givenExec, hmissing hnone]
    | some cmp => simp [Entry.ByExec, Call.givenExec]
  | replace helms hfirst => simp [Entry.ByExec, Call.givenExec, htaken helms hfirst]
  | missing hnone => simp [Entry.ByExec, Call.givenExec, hmissing hnone]

/-! ## Whole runs -/

namespace System

/-- The calls that have succeeded, or are inside and will. -/
def successes (s : System) : List (Call × Option QAction) := s.entries.filterMap Entry.success

def sent (s : System) : List QAction := s.successes.filterMap sentOf

def accepted (s : System) : List QAction := s.successes.filterMap acceptedOf

def received (s : System) : List QAction := s.successes.filterMap receivedOf

end System

/-- What holds in every state. -/
structure Sound (n : Nat) (s : System) : Prop where
  /-- Free places, queued actions and the permits that calls hold are the capacity. -/
  sendPermits : s.alive = true → s.q.semaSend + s.q.elms.length + s.holders .send = n
  recvPermits : s.alive = true → s.q.semaRecv + s.holders .recv = s.q.elms.length
  /-- The calls that returned `RET_OK` are those that changed the array so, with those inside. -/
  returned : s.successes.Perm
    (s.replies.filterMap Reply.success ++ s.threads.filterMap Thread.success)
  /-- What was accepted is queued, was received, or was destroyed, unless a call inside has to. -/
  accounted : ∀ x, s.accepted.count x =
    s.q.elms.count x + s.received.count x + s.destroyed.count x + s.doomed.count x
  settled : s.q.locked = false → s.doomed = []
  /-- The actions that are sent get places, and are received in the order of their places. -/
  ordered : ∃ ps : List (Line.Place QAction), ps.Pairwise Line.Place.Before ∧
    ps.map Line.Place.origin = s.sent ∧ ps.filterMap Line.Place.waiting = s.q.elms ∧
    ps.filterMap Line.Place.servedItem = s.received
  /-- A call that does not succeed leaves the array as it is. -/
  unharmed : ∀ e ∈ s.entries, e.outcome.ret ≠ .ok → e.after = e.before
  byExec : ∀ e ∈ s.entries, e.ByExec

/-- The invariant of all runs. -/
structure Invariant (n : Nat) (s : System) : Prop where
  permits : s.alive = true → Permits n s
  lineage : Lineage s

section
variable {s s' : System} {a : Act} {n k : Nat}

theorem invariant_init (n k : Nat) : Invariant n (.init n k) := by
  have hidle : ∀ t ∈ (System.init n k).threads, t = .idle :=
    fun t ht => eq_of_mem_replicate ht
  have hnone : ∀ {β : Type} (f : Thread → Option β), f .idle = none →
      (System.init n k).threads.filterMap f = [] := by
    intro β f hf
    rw [filterMap_eq_nil_iff]
    exact fun t ht => hidle t ht ▸ hf
  have hzero : ∀ p : Thread → Bool, p .idle = false → (System.init n k).threads.countP p = 0 := by
    intro p hp
    rw [countP_eq_zero]
    intro t ht
    rw [hidle t ht, hp]
    exact Bool.false_ne_true
  refine ⟨fun _ => ⟨rfl, ?_, ?_, hzero _ rfl⟩, ⟨.nil, fun x => ?_, rfl, ?_, ?_, fun _ => rfl, ?_⟩⟩
  · rw [System.holders, hzero _ rfl]
    rfl
  · rw [System.holders, hzero _ rfl]
    rfl
  · rw [System.doomed, hnone _ rfl]
    rfl
  · exact fun e he => absurd he not_mem_nil
  · rw [hnone _ rfl]
    exact .refl _
  · exact fun h => absurd h Bool.noConfusion

theorem Invariant.step (h : Invariant n s) (hs : s.step a = some s') : Invariant n s' := by
  have hm := step_cases hs
  have halive := h.lineage.alive hm
  exact ⟨(h.permits halive).step hm, h.lineage.step h.permits hm⟩

theorem events_filterMap (f : Line.Event QAction → Option QAction)
    (g : Call × Option QAction → Option QAction) (hleave : ∀ x, f (.leave x) = none)
    (hentry : ∀ e ∈ s.entries, e.event.bind f = e.success.bind g) :
    s.events.filterMap f = s.successes.filterMap g := by
  have hpopped : (s.popped.map Line.Event.leave).filterMap f = [] := by
    rw [filterMap_eq_nil_iff]
    intro ev hev
    obtain ⟨x, -, rfl⟩ := List.mem_map.mp hev
    exact hleave x
  rw [System.events, filterMap_append, hpopped, append_nil, filterMap_filterMap,
    System.successes, filterMap_filterMap]
  exact filterMap_congr hentry

theorem Invariant.sound_iff_byExec (h : Invariant n s) : Sound n s ↔ ∀ e ∈ s.entries, e.ByExec := by
  refine ⟨Sound.byExec, fun hbyExec => ?_⟩
  obtain ⟨hpermits, hlineage⟩ := h
  have hjoined := events_filterMap Line.Event.joined sentOf (fun _ => rfl)
    fun e he => (hlineage.regular e he).sent
  have hentered := events_filterMap Line.Event.entered acceptedOf (fun _ => rfl)
    fun e he => (hlineage.regular e he).accepted
  have hserved := events_filterMap Line.Event.served receivedOf (fun _ => rfl)
    fun e he => (hlineage.regular e he).received
  refine ⟨fun halive => (hpermits halive).send, fun halive => (hpermits halive).recv,
    hlineage.success, fun x => ?_, fun hlocked => ?_, ?_,
    fun e he => (hlineage.regular e he).unharmed, hbyExec⟩
  · have hconserved := hlineage.history.conserved x
    have hgone := hlineage.gone x
    rw [hentered, hserved] at hconserved
    rw [System.accepted, System.received]
    omega
  · rw [System.doomed, filterMap_eq_nil_iff]
    intro t ht
    cases halive : s.alive with
    | true =>
      have hmutex := (hpermits halive).mutex
      rw [hlocked, Bool.toNat_false, countP_eq_zero] at hmutex
      cases t with
      | inside c todo => exact absurd rfl (hmutex _ ht)
      | _ => rfl
    | false =>
      have hidle := hlineage.quiet halive t ht
      cases t with
      | inside c todo => cases hidle
      | _ => rfl
  · obtain ⟨ps, horder, horigin, hwaiting, hps⟩ := hlineage.history.places
    exact ⟨ps, horder, horigin.trans hjoined, hwaiting, hps.trans hserved⟩

theorem Invariant.byExec_step (h : Invariant n s) (hs : s.step a = some s')
    (hold : ∀ e ∈ s.entries, e.ByExec) : (∀ e ∈ s'.entries, e.ByExec) ↔ Exact s a := by
  have hm := step_cases hs
  have halive := h.lineage.alive hm
  have hother : ∀ {i : Nat} {g : Bool} {u : Thread}, s.threads[i]? = some u →
      u.givenExec = none → Exact s (.run i g) := by
    intro i g u hi hu f hf
    rw [hi, bind_some, hu] at hf
    cases hf
  cases hm with
  | begin => exact iff_of_true hold trivial
  | destroy =>
    refine iff_of_true ?_ trivial
    rw [System.destroy, destroyAll_eq]
    exact hold
  | refuse _ _ _ ha =>
    refine iff_of_true hold ?_
    cases a with
    | run j g => exact absurd rfl (ha j g)
    | _ => trivial
  | wait hi => exact iff_of_true hold (hother hi rfl)
  | post hi => exact iff_of_true hold (hother hi rfl)
  | kill hi => exact iff_of_true hold (hother hi rfl)
  | leave hi => exact iff_of_true hold (hother hi rfl)
  | @enter i g c hi =>
    have hiff := ((h.permits halive).changed hi g).byExec_iff i
    have hexact : Exact s (.run i g) ↔ ∀ f, c.givenExec = some f → ExactFirst f s.q.elms := by
      rw [Exact, hi]
      exact Iff.rfl
    rw [hexact, ← hiff]
    change (∀ e ∈ s.entries ++ [_], e.ByExec) ↔ _
    rw [forall_mem_append, forall_mem_singleton]
    exact and_iff_right hold

/-- Whatever the threads do, everything holds in every state just if, whenever a call that is
given a function changes the array, the first action that compares equal has that function. -/
theorem runs_sound_iff {as : List Act} {t : System} (hrun : run System.step (.init n k) as = some t) :
    (∀ pre, pre <+: as → ∀ u, run System.step (.init n k) pre = some u → Sound n u) ↔
      Meets System.step Exact (.init n k) as := by
  have hinit := invariant_init n k
  have henabled : Meets System.step (fun s a => (s.step a).isSome = true) (.init n k) as :=
    meets_of_run hrun
  have hstep : ∀ s a, Invariant n s → (s.step a).isSome = true → ∃ s', s.step a = some s' ∧
      Invariant n s' ∧ ((∀ e ∈ s.entries, e.ByExec) → ((∀ e ∈ s'.entries, e.ByExec) ↔ Exact s a)) := by
    intro s a h hsome
    obtain ⟨s', hs⟩ := isSome_iff_exists.mp hsome
    exact ⟨s', hs, h.step hs, h.byExec_step hs⟩
  have hiff := forall_initial_iff_meets hstep hinit (fun e he => absurd he not_mem_nil) henabled
  refine Iff.trans ?_ hiff
  refine forall₂_congr fun pre _ => forall₂_congr fun u hu => Invariant.sound_iff_byExec ?_
  exact run_invariant' (fun s a s' h hs => h.step hs) hinit hu

end

/-- A call of the only thread that has to wait. -/
def callAlone (c : Call) : List Act := [.start 0 c, .run 0 false, .run 0 false, .run 0 false, .run 0 false]

/-- An action is sent and received, another is sent and removed by its function. -/
def sendsAndRemoves : List Act :=
  callAlone (.send ⟨1, 16, none⟩) ++ callAlone .recv ++ callAlone (.send ⟨2, 32, none⟩) ++
    callAlone (.remove 32) ++ [.run 0 false, .destroy]

theorem sendsAndRemoves_sound :
    (run System.step (.init 1 1) sendsAndRemoves).map System.destroyed = some [⟨2, 32, none⟩] ∧
      ∀ pre, pre <+: sendsAndRemoves → ∀ u, run System.step (.init 1 1) pre = some u →
        Sound 1 u := by
  refine ⟨by decide +kernel, ?_⟩
  have hsome : (run System.step (.init 1 1) sendsAndRemoves).isSome = true := by decide +kernel
  obtain ⟨t, ht⟩ := isSome_iff_exists.mp hsome
  exact (runs_sound_iff ht).mpr (by decide +kernel)

/-- An action is sent, and one is removed whose function lies `2 ^ 32` behind. -/
def removesAnother : List Act :=
  callAlone (.send ⟨1, 0x100000010, none⟩) ++ callAlone (.remove 0x10) ++ [.run 0 false]

theorem removesAnother_not_sound : ∃ t, run System.step (.init 1 1) removesAnother = some t ∧
    t.destroyed = [⟨1, 0x100000010, none⟩] ∧ ¬Sound 1 t := by
  refine ⟨_, rfl, rfl, fun h => ?_⟩
  have hexec := h.byExec _ (mem_cons_of_mem _ mem_cons_self) 0x10 _ rfl rfl
  exact absurd hexec (by decide)

end Awtk.WaitableActionDArray
