import Mathlib
import Awtk.Tkc.Types

/-!
# The state machine

A machine is a table of states and a table of transitions.  Two states may
share an array of transitions, so an array is a list of names of cells.  What a
transition leads to is not in the table.  `tk_state_machine_get_transition`
fills in a `NULL` target of a transition of a base state, so the targets are
part of what a call changes.

The functions of the states and transitions are seen by the order in which they
run.  Handling an event returns these calls as a list of `SmAct`.  The list
also marks each arrival at a state, because only one kind of arrival runs the
entry action.

A back transition handles the same event again in the state it leads to.
Nothing in the machine bounds how often this happens, so `handle` takes fuel.
`handle_isSome_iff` says that fuel is enough exactly if the chain of back
transitions for the event ends.
-/

namespace Awtk

open List Option

/-! ## Machines -/

/-- `tk_sm_event_t`. -/
structure SmEvent (δ : Type*) where
  type : Int
  data : δ

/-- `tk_sm_transition_t` without its target.  `guard` comes with its condition. -/
structure SmTransition (δ : Type*) where
  etype : Int
  guard : Option (SmEvent δ → Bool)
  /-- Whether there is an action. -/
  action : Bool

/-- `tk_sm_state_t`.  An empty array is `NULL`. -/
structure SmState (σ τ : Type*) where
  baseState : Option σ
  transitions : List τ
  transitionsBack : List τ
  /-- Whether there is an entry action. -/
  entryAction : Bool
  /-- Whether there is an exit action. -/
  exitAction : Bool

/-- The states and transitions of a machine. -/
structure SmTable (σ τ δ : Type*) where
  state : σ → SmState σ τ
  transition : τ → SmTransition δ

/-- `tk_state_machine_t`, with the targets of the transitions. -/
@[ext] structure StateMachine (σ τ : Type*) where
  currentState : Option σ
  previousState : Option σ
  /-- `next_state` of each transition. -/
  nextState : τ → Option σ

/-- What a call does that can be seen from outside, and the arrivals. -/
inductive SmAct (σ τ : Type*) where
  /-- The exit action of a state runs. -/
  | exit (s : σ)
  /-- The action of a transition runs. -/
  | action (s : σ) (t : τ) (next : σ)
  /-- The entry action of a state runs. -/
  | entry (s : σ)
  /-- A transition leads to another state that has no entry action. -/
  | plain (s : σ)
  /-- A back transition leads to another state. -/
  | back (s : σ)
  deriving DecidableEq

namespace StateMachine

variable {σ τ δ : Type*} [DecidableEq σ] [DecidableEq τ]

/-! ## The operations -/

/-- Whether a transition is for the event and its guard, if it has one, holds. -/
def accepts (m : SmTable σ τ δ) (e : SmEvent δ) (t : τ) : Bool :=
  (m.transition t).etype == e.type && ((m.transition t).guard.map fun g => g e).getD true

/-- The loop over the transitions of the base state.  It stops at the transition it finds. -/
def baseLoop (m : SmTable σ τ δ) (e : SmEvent δ) (base : σ) :
    List τ → (τ → Option σ) → Option τ × (τ → Option σ)
  | [], next => (none, next)
  | t :: ts, next =>
      let next := if next t = none then Function.update next t (some base) else next
      if accepts m e t then (some t, next) else baseLoop m e base ts next

/-- `tk_state_machine_get_transition`: the transition, whether it is a back transition, and the
targets of the transitions afterwards. -/
def getTransition (m : SmTable σ τ δ) (fsm : StateMachine σ τ) (current : σ) (e : SmEvent δ) :
    Option (τ × Bool) × (τ → Option σ) :=
  match (m.state current).transitions.find? (accepts m e) with
  | some t => (some (t, false), fsm.nextState)
  | none =>
    match (m.state current).transitionsBack.find? (accepts m e) with
    | some t => (some (t, true), fsm.nextState)
    | none =>
      match (m.state current).baseState with
      | none => (none, fsm.nextState)
      | some base =>
        let r := baseLoop m e base (m.state base).transitions fsm.nextState
        (r.1.map fun t => (t, false), r.2)

def init (m : SmTable σ τ δ) (initial : σ) (fsm : StateMachine σ τ) : Ret × StateMachine σ τ :=
  if (m.state initial).transitionsBack = [] then
    (.ok, { fsm with currentState := some initial, previousState := none })
  else (.badParams, fsm)

/-- The exit action of the current state and the action of the transition. -/
def leave (m : SmTable σ τ δ) (current : σ) (t : τ) (next : σ) : List (SmAct σ τ) :=
  (if next ≠ current ∧ (m.state current).exitAction then [.exit current] else []) ++
    if (m.transition t).action then [.action current t next] else []

/-- The arrival by a transition that is no back transition. -/
def arrive (m : SmTable σ τ δ) (current next : σ) : List (SmAct σ τ) :=
  if next ≠ current then [if (m.state next).entryAction then .entry next else .plain next] else []

def handle (m : SmTable σ τ δ) (e : SmEvent δ) :
    Nat → StateMachine σ τ → Option (Ret × List (SmAct σ τ) × StateMachine σ τ)
  | 0, _ => none
  | fuel + 1, fsm =>
    match fsm.currentState with
    | none => some (.notImpl, [], fsm)
    | some current =>
      match getTransition m fsm current e with
      | (none, heap) => some (.notFound, [], { fsm with nextState := heap })
      | (some (t, isBack), heap) =>
        let next := (heap t).getD current
        let moved : StateMachine σ τ := ⟨some next, some current, heap⟩
        if isBack then
          if next = current then
            some (.fail, leave m current t next, { fsm with nextState := heap })
          else
            (handle m e fuel moved).map fun r =>
              (r.1, leave m current t next ++ .back next :: r.2.1, r.2.2)
        else some (.ok, leave m current t next ++ arrive m current next, moved)

/-- `tk_state_machine_deinit`.  A machine without a current state has none. -/
def deinit (m : SmTable σ τ δ) (fsm : StateMachine σ τ) :
    Option (Ret × List (SmAct σ τ) × StateMachine σ τ) :=
  fsm.currentState.map fun current =>
    (.ok, if (m.state current).exitAction then [.exit current] else [],
      { fsm with currentState := none, previousState := none })

/-- The events are handled one after the other, whatever each call returns. -/
def handleAll (m : SmTable σ τ δ) (fuel : Nat) :
    List (SmEvent δ) → StateMachine σ τ → Option (List (SmAct σ τ) × StateMachine σ τ)
  | [], fsm => some ([], fsm)
  | e :: es, fsm =>
    (handle m e fuel fsm).bind fun r =>
    (handleAll m fuel es r.2.2).map fun r' => (r.2.1 ++ r'.1, r'.2)

/-- The events are handled and then the machine is closed. -/
def session (m : SmTable σ τ δ) (fuel : Nat) (es : List (SmEvent δ)) (fsm : StateMachine σ τ) :
    Option (List (SmAct σ τ)) :=
  (handleAll m fuel es fsm).bind fun r => (deinit m r.2).map fun d => r.1 ++ d.2.1

/-! ## Back transitions -/

/-- Handling the event begins with a back transition to another state, which leaves the machine
`fsm'`. -/
def BackStep (m : SmTable σ τ δ) (e : SmEvent δ) (fsm fsm' : StateMachine σ τ) : Prop :=
  ∃ current t next, fsm.currentState = some current ∧
    (getTransition m fsm current e).1 = some (t, true) ∧
    (fsm.nextState t).getD current = next ∧ next ≠ current ∧
    fsm' = ⟨some next, some current, fsm.nextState⟩

omit [DecidableEq σ] in
theorem getTransition_isBack {m : SmTable σ τ δ} {fsm : StateMachine σ τ} {current : σ}
    {e : SmEvent δ} {t : τ} (h : (getTransition m fsm current e).1 = some (t, true)) :
    (m.state current).transitionsBack.find? (accepts m e) = some t ∧
      (getTransition m fsm current e).2 = fsm.nextState := by
  unfold getTransition at h ⊢
  cases hn : (m.state current).transitions.find? (accepts m e) with
  | some t' => simp [hn] at h
  | none =>
    cases hb : (m.state current).transitionsBack.find? (accepts m e) with
    | some t' =>
      simp only [hn, hb, some.injEq, Prod.mk.injEq, and_true] at h
      exact ⟨by rw [h], rfl⟩
    | none =>
      cases hbase : (m.state current).baseState with
      | none => simp [hn, hb, hbase] at h
      | some base => simp [hn, hb, hbase] at h

omit [DecidableEq σ] in
theorem getTransition_back {m : SmTable σ τ δ} {fsm : StateMachine σ τ} {current : σ}
    {e : SmEvent δ} {t : τ} (h : (getTransition m fsm current e).1 = some (t, true)) :
    (getTransition m fsm current e).2 = fsm.nextState := (getTransition_isBack h).2

omit [DecidableEq σ] in
theorem transitionsBack_ne {m : SmTable σ τ δ} {fsm : StateMachine σ τ} {current : σ}
    {e : SmEvent δ} {t : τ} (h : (getTransition m fsm current e).1 = some (t, true)) :
    (m.state current).transitionsBack ≠ [] :=
  ne_nil_of_mem (mem_of_find?_eq_some (getTransition_isBack h).1)

theorem BackStep.handle_eq {m : SmTable σ τ δ} {e : SmEvent δ} {fsm fsm' : StateMachine σ τ}
    (h : BackStep m e fsm fsm') : ∃ current t next, fsm.currentState = some current ∧
      (m.state current).transitionsBack ≠ [] ∧ next ≠ current ∧ fsm'.currentState = some next ∧
      ∀ fuel, handle m e (fuel + 1) fsm = (handle m e fuel fsm').map fun r =>
        (r.1, leave m current t next ++ .back next :: r.2.1, r.2.2) := by
  obtain ⟨current, t, next, hc, ht, rfl, hne, rfl⟩ := h
  refine ⟨current, t, _, hc, transitionsBack_ne ht, hne, rfl, fun fuel => ?_⟩
  have hg : getTransition m fsm current e = (some (t, true), fsm.nextState) :=
    Prod.ext ht (getTransition_back ht)
  rw [handle]
  simp only [hc, hg, if_true, if_neg hne]

theorem handle_cases (m : SmTable σ τ δ) (e : SmEvent δ) {fsm : StateMachine σ τ} {current : σ}
    (hc : fsm.currentState = some current) :
    (∃ heap, ∀ fuel, handle m e (fuel + 1) fsm =
      some (.notFound, [], { fsm with nextState := heap })) ∨
    (∃ t heap, ∀ fuel, handle m e (fuel + 1) fsm =
      some (.fail, leave m current t current, { fsm with nextState := heap })) ∨
    (∃ t next heap, ∀ fuel, handle m e (fuel + 1) fsm = some (.ok,
      leave m current t next ++ arrive m current next, ⟨some next, some current, heap⟩)) ∨
    ∃ fsm', BackStep m e fsm fsm' := by
  rcases hg : getTransition m fsm current e with ⟨_ | ⟨t, isBack⟩, heap⟩
  · refine .inl ⟨heap, fun fuel => ?_⟩
    rw [handle]
    simp only [hc, hg]
  · cases isBack with
    | false =>
      refine .inr (.inr (.inl ⟨t, (heap t).getD current, heap, fun fuel => ?_⟩))
      rw [handle]
      simp only [hc, hg, Bool.false_eq_true, if_false]
    | true =>
      have ht : (getTransition m fsm current e).1 = some (t, true) := by rw [hg]
      obtain rfl : heap = fsm.nextState := by rw [← getTransition_back ht, hg]
      by_cases hn : (fsm.nextState t).getD current = current
      · refine .inr (.inl ⟨t, fsm.nextState, fun fuel => ?_⟩)
        rw [handle]
        simp only [hc, hg, if_true, hn]
      · exact .inr (.inr (.inr ⟨_, current, t, _, hc, ht, rfl, hn, rfl⟩))

omit [DecidableEq σ] in
/-- Each event has at most one back transition. -/
theorem BackStep.unique {m : SmTable σ τ δ} {e : SmEvent δ} {fsm fsm₁ fsm₂ : StateMachine σ τ}
    (h₁ : BackStep m e fsm fsm₁) (h₂ : BackStep m e fsm fsm₂) : fsm₁ = fsm₂ := by
  obtain ⟨c, t, _, hc, ht, rfl, _, rfl⟩ := h₁
  obtain ⟨c', t', _, hc', ht', rfl, _, rfl⟩ := h₂
  obtain rfl : c = c' := some.inj (hc.symm.trans hc')
  obtain rfl : t = t' := (Prod.mk.inj (some.inj (ht.symm.trans ht'))).1
  rfl

theorem handle_isSome {m : SmTable σ τ δ} {e : SmEvent δ} {fsm : StateMachine σ τ}
    (h : Acc (flip (BackStep m e)) fsm) : ∃ fuel, (handle m e fuel fsm).isSome = true := by
  induction h with
  | intro fsm _ ih =>
    cases hc : fsm.currentState with
    | none => exact ⟨1, by simp [handle, hc]⟩
    | some current =>
      obtain ⟨_, h⟩ | ⟨_, _, h⟩ | ⟨_, _, _, h⟩ | ⟨fsm', hback⟩ := handle_cases m e hc
      · exact ⟨1, by rw [h, isSome_some]⟩
      · exact ⟨1, by rw [h, isSome_some]⟩
      · exact ⟨1, by rw [h, isSome_some]⟩
      · obtain ⟨fuel, hf⟩ := ih fsm' hback
        obtain ⟨_, _, _, _, _, _, _, h⟩ := hback.handle_eq
        exact ⟨fuel + 1, by rw [h, isSome_map, hf]⟩

/-! ## Arrivals and exits -/

section Balance

/-- How often a state is arrived at. -/
def arrivals (acts : List (SmAct σ τ)) (s : σ) : Nat :=
  acts.count (.entry s) + acts.count (.plain s) + acts.count (.back s)

/-- How often the exit action of a state runs. -/
def exits (acts : List (SmAct σ τ)) (s : σ) : Nat := acts.count (.exit s)

/-- Whether a machine is in a state. -/
def inside (here s : σ) : Nat := if here = s then 1 else 0

theorem arrivals_append (a b : List (SmAct σ τ)) (s : σ) :
    arrivals (a ++ b) s = arrivals a s + arrivals b s := by
  simp only [arrivals, count_append]
  omega

theorem exits_append (a b : List (SmAct σ τ)) (s : σ) :
    exits (a ++ b) s = exits a s + exits b s := count_append

variable {m : SmTable σ τ δ}

/-- A machine goes from the state `s` to the state `s'` and runs `acts`.  At no moment has it left
a state more often than it was in it. -/
structure Balanced (m : SmTable σ τ δ) (s : σ) (acts : List (SmAct σ τ)) (s' : σ) : Prop where
  /-- Each exit has an arrival of its own. -/
  matched : ∀ pre, pre <+: acts → ∀ x, exits pre x ≤ arrivals pre x + inside s x
  /-- The state the machine ends in has an arrival that no exit has used. -/
  rest : ∀ x, exits acts x + inside s' x ≤ arrivals acts x + inside s x
  /-- The entry action is left out where there is none. -/
  plain : ∀ x, .plain x ∈ acts → (m.state x).entryAction = false
  /-- It is also left out after a back transition. -/
  back : ∀ x, .back x ∈ acts → ∃ c, (m.state c).transitionsBack ≠ []

theorem Balanced.nil (m : SmTable σ τ δ) (s : σ) : Balanced m s [] s where
  matched pre hpre x := by simp [prefix_nil.mp hpre, exits]
  rest x := by simp [exits, arrivals]
  plain x hx := nomatch hx
  back x hx := nomatch hx

/-- What is matched stays so over two stretches of a run. -/
theorem Balanced.append {s s' s'' : σ} {a b : List (SmAct σ τ)} (ha : Balanced m s a s')
    (hb : Balanced m s' b s'') : Balanced m s (a ++ b) s'' where
  matched pre hpre x := by
    obtain ⟨post, hpre⟩ := hpre
    obtain ⟨a', rfl, -⟩ | ⟨q, rfl, rfl⟩ := append_eq_append_iff.mp hpre
    · exact ha.matched pre (prefix_append _ _) x
    · have h1 := ha.rest x
      have h2 := hb.matched q (prefix_append _ _) x
      rw [exits_append, arrivals_append]
      omega
  rest x := by
    have h1 := ha.rest x
    have h2 := hb.rest x
    rw [exits_append, arrivals_append]
    omega
  plain x hx := (mem_append.mp hx).elim (ha.plain x) (hb.plain x)
  back x hx := (mem_append.mp hx).elim (ha.back x) (hb.back x)

/-! ## Each call keeps the balance -/

theorem exits_leave (m : SmTable σ τ δ) (current : σ) (t : τ) (next x : σ) :
    exits (leave m current t next) x ≤ if next = current then 0 else inside current x := by
  unfold leave exits inside
  split_ifs <;> simp_all

theorem arrivals_leave (m : SmTable σ τ δ) (current : σ) (t : τ) (next x : σ) :
    arrivals (leave m current t next) x = 0 := by
  unfold leave arrivals
  split_ifs <;> simp

theorem exits_arrive (m : SmTable σ τ δ) (current next x : σ) :
    exits (arrive m current next : List (SmAct σ τ)) x = 0 := by
  unfold arrive exits
  split_ifs <;> simp

theorem arrivals_arrive (m : SmTable σ τ δ) (current next x : σ) :
    arrivals (arrive m current next : List (SmAct σ τ)) x =
      if next = current then 0 else inside next x := by
  unfold arrive arrivals inside
  split_ifs <;> simp_all

omit [DecidableEq τ] in
theorem plain_mem_leave {current : σ} {t : τ} {next x : σ} :
    SmAct.plain x ∉ leave m current t next := by
  unfold leave
  split_ifs <;> simp

omit [DecidableEq τ] in
theorem back_mem_leave {current : σ} {t : τ} {next x : σ} :
    SmAct.back x ∉ leave m current t next := by
  unfold leave
  split_ifs <;> simp

theorem Balanced.stay (m : SmTable σ τ δ) (current : σ) (t : τ) :
    Balanced m current (leave m current t current) current := by
  have hexit (x : σ) : exits (leave m current t current) x = 0 := by
    simpa using exits_leave m current t current x
  refine ⟨fun pre hpre x => ?_, fun x => ?_, fun x hx => (plain_mem_leave hx).elim,
    fun x hx => (back_mem_leave hx).elim⟩
  · have hle : exits pre x ≤ _ := hpre.sublist.count_le _
    have := hexit x
    unfold exits at this hle
    simp [exits, Nat.le_zero.mp (hle.trans this.le)]
  · rw [hexit, arrivals_leave]

theorem Balanced.ordinary (m : SmTable σ τ δ) (current : σ) (t : τ) (next : σ) :
    Balanced m current (leave m current t next ++ arrive m current next) next := by
  have hexit (x : σ) := exits_leave m current t next x
  refine ⟨fun pre hpre x => ?_, fun x => ?_, fun x hx => ?_, fun x hx => ?_⟩
  · have hle : exits pre x ≤ exits (leave m current t next ++ arrive m current next) x :=
      hpre.sublist.count_le _
    rw [exits_append, exits_arrive] at hle
    have := hexit x
    split_ifs at this <;> omega
  · rw [exits_append, arrivals_append, exits_arrive, arrivals_leave, arrivals_arrive]
    have := hexit x
    split_ifs at this ⊢ with hn
    · subst hn
      omega
    · omega
  · have hx := (mem_append.mp hx).resolve_left plain_mem_leave
    unfold arrive at hx
    split_ifs at hx <;> simp_all
  · have hx := (mem_append.mp hx).resolve_left back_mem_leave
    unfold arrive at hx
    split_ifs at hx <;> simp_all

/-- A back transition to another state. -/
theorem Balanced.behind {current : σ} (t : τ) {next : σ} (hne : next ≠ current)
    (hback : (m.state current).transitionsBack ≠ []) :
    Balanced m current (leave m current t next ++ [.back next]) next := by
  have hexit (x : σ) : exits (leave m current t next) x ≤ inside current x := by
    simpa only [if_neg hne] using exits_leave m current t next x
  have hlast (x : σ) : exits [SmAct.back (τ := τ) next] x = 0 ∧
      arrivals [SmAct.back (τ := τ) next] x = inside next x := by
    simp [exits, arrivals, inside, count_cons]
  refine ⟨fun pre hpre x => ?_, fun x => ?_, fun x hx => ?_, fun _ _ => ⟨current, hback⟩⟩
  · have hle : exits pre x ≤ exits (leave m current t next ++ [.back next]) x :=
      hpre.sublist.count_le _
    rw [exits_append, (hlast x).1] at hle
    have := hexit x
    omega
  · rw [exits_append, arrivals_append, (hlast x).1, (hlast x).2, arrivals_leave]
    have := hexit x
    omega
  · have hx := (mem_append.mp hx).resolve_left plain_mem_leave
    simp at hx

theorem handle_balanced {e : SmEvent δ} {fuel : Nat} {fsm fsm' : StateMachine σ τ}
    {current : σ} {r : Ret} {acts : List (SmAct σ τ)} (hc : fsm.currentState = some current)
    (h : handle m e fuel fsm = some (r, acts, fsm')) :
    ∃ s, fsm'.currentState = some s ∧ Balanced m current acts s := by
  induction fuel generalizing fsm current acts with
  | zero => cases h
  | succ fuel ih =>
    obtain ⟨_, heq⟩ | ⟨t, _, heq⟩ | ⟨t, next, _, heq⟩ | ⟨fsm₁, hback⟩ := handle_cases m e hc
    · cases (heq fuel).symm.trans h
      exact ⟨current, hc, .nil m current⟩
    · cases (heq fuel).symm.trans h
      exact ⟨current, hc, .stay m current t⟩
    · cases (heq fuel).symm.trans h
      exact ⟨next, rfl, .ordinary m current t next⟩
    · obtain ⟨c, t, next, hc', htb, hne, hc₁, heq⟩ := hback.handle_eq
      obtain rfl : c = current := some.inj (hc'.symm.trans hc)
      rw [heq] at h
      obtain ⟨⟨r₁, acts₁, fsm₂⟩, h₁, hr⟩ := map_eq_some_iff.mp h
      cases hr
      obtain ⟨s, hs, hbal⟩ := ih hc₁ h₁
      refine ⟨s, hs, ?_⟩
      rw [append_cons]
      exact (Balanced.behind t hne htb).append hbal

theorem handleAll_balanced {fuel : Nat} {es : List (SmEvent δ)}
    {fsm fsm' : StateMachine σ τ} {current : σ} {acts : List (SmAct σ τ)}
    (hc : fsm.currentState = some current) (h : handleAll m fuel es fsm = some (acts, fsm')) :
    ∃ s, fsm'.currentState = some s ∧ Balanced m current acts s := by
  induction es generalizing fsm current acts with
  | nil =>
    cases h
    exact ⟨current, hc, .nil m current⟩
  | cons e es ih =>
    obtain ⟨⟨r, acts₁, fsm₁⟩, h₁, htail⟩ := bind_eq_some_iff.mp h
    obtain ⟨⟨acts₂, fsm₂⟩, h₂, hr⟩ := map_eq_some_iff.mp htail
    cases hr
    obtain ⟨s₁, hs₁, hbal₁⟩ := handle_balanced hc h₁
    obtain ⟨s₂, hs₂, hbal₂⟩ := ih hs₁ h₂
    exact ⟨s₂, hs₂, hbal₁.append hbal₂⟩

theorem session_split {fuel : Nat} {es : List (SmEvent δ)}
    {fsm : StateMachine σ τ} {current : σ} {acts : List (SmAct σ τ)}
    (hc : fsm.currentState = some current) (h : session m fuel es fsm = some acts) :
    ∃ acts₁ s last, acts = acts₁ ++ last ∧ Balanced m current acts₁ s ∧
      last = if (m.state s).exitAction then [.exit s] else [] := by
  obtain ⟨⟨acts₁, fsm₁⟩, h₁, htail⟩ := bind_eq_some_iff.mp h
  obtain ⟨⟨_, last, _⟩, h₂, rfl⟩ := map_eq_some_iff.mp htail
  obtain ⟨s, hs, hbal⟩ := handleAll_balanced hc h₁
  rw [deinit, hs, map_some, some.injEq, Prod.mk.injEq, Prod.mk.injEq] at h₂
  exact ⟨acts₁, s, last, rfl, hbal, h₂.2.1.symm⟩

theorem session_matched {fuel : Nat} {es : List (SmEvent δ)}
    {fsm : StateMachine σ τ} {current : σ} {acts : List (SmAct σ τ)}
    (hc : fsm.currentState = some current) (h : session m fuel es fsm = some acts) :
    ∀ pre, pre <+: acts → ∀ x, exits pre x ≤ arrivals pre x + inside current x := by
  obtain ⟨acts₁, s, last, rfl, hbal, hlast⟩ := session_split hc h
  rintro pre ⟨post, hpre⟩ x
  obtain ⟨a', rfl, -⟩ | ⟨q, rfl, hq⟩ := append_eq_append_iff.mp hpre
  · exact hbal.matched pre (prefix_append _ _) x
  · have hrest := hbal.rest x
    have hexit : exits q x ≤ inside s x := by
      refine ((prefix_append q post).sublist.count_le _).trans ?_
      rw [← hq, hlast]
      split_ifs <;> simp [inside, count_cons]
    rw [exits_append, arrivals_append]
    omega

theorem session_plain {fuel : Nat} {es : List (SmEvent δ)}
    {fsm : StateMachine σ τ} {current : σ} {acts : List (SmAct σ τ)}
    (hc : fsm.currentState = some current) (h : session m fuel es fsm = some acts) {x : σ}
    (hx : .plain x ∈ acts) : (m.state x).entryAction = false := by
  obtain ⟨acts₁, s, last, rfl, hbal, hlast⟩ := session_split hc h
  refine hbal.plain x ((mem_append.mp hx).resolve_right fun hx => ?_)
  rw [hlast] at hx
  split_ifs at hx <;> simp at hx

theorem handle_notFound {e : SmEvent δ} {fuel : Nat} {fsm fsm' : StateMachine σ τ}
    {acts : List (SmAct σ τ)} (h : handle m e fuel fsm = some (.notFound, acts, fsm'))
    (hback : ¬ ∃ fsm₁, BackStep m e fsm fsm₁) :
    fsm'.currentState = fsm.currentState ∧ fsm'.previousState = fsm.previousState ∧ acts = [] := by
  cases fuel with
  | zero => cases h
  | succ fuel =>
    cases hc : fsm.currentState with
    | none =>
      rw [handle] at h
      simp only [hc] at h
      cases h
    | some current =>
      obtain ⟨_, heq⟩ | ⟨_, _, heq⟩ | ⟨_, _, _, heq⟩ | hb := handle_cases m e hc
      · cases (heq fuel).symm.trans h
        exact ⟨hc, rfl, rfl⟩
      · cases (heq fuel).symm.trans h
      · cases (heq fuel).symm.trans h
      · exact (hback hb).elim

/-- Every exit action in a session has an arrival of its own before it, and the arrivals run the
entry action unless a back transition makes them.  A call that takes no back transition and finds no
transition changes nothing.  Handling an event ends where the chain of back transitions ends. -/
theorem session_balance (m : SmTable σ τ δ) :
    (∀ initial fsm fuel es acts, (init m initial fsm).1 = .ok →
      session m fuel es (init m initial fsm).2 = some acts →
      ∀ pre, pre <+: acts → ∀ x, exits pre x ≤ arrivals pre x + inside initial x ∧
        ((m.state x).entryAction = true →
          exits pre x ≤ pre.count (.entry x) + pre.count (.back x) + inside initial x)) ∧
    (∀ e fuel fsm fsm' acts, handle m e fuel fsm = some (.notFound, acts, fsm') →
      (¬ ∃ fsm₁, BackStep m e fsm fsm₁) →
      fsm'.currentState = fsm.currentState ∧ fsm'.previousState = fsm.previousState ∧ acts = []) ∧
    ∀ e fsm, Acc (flip (BackStep m e)) fsm → ∃ fuel, (handle m e fuel fsm).isSome = true := by
  refine ⟨fun initial fsm fuel es acts hok h pre hpre x => ?_,
    fun e fuel fsm fsm' acts => handle_notFound, fun e fsm => handle_isSome⟩
  have hc : (init m initial fsm).2.currentState = some initial := by
    unfold init at hok ⊢
    split_ifs at hok ⊢
    rfl
  have hm := session_matched hc h pre hpre x
  refine ⟨hm, fun hx => ?_⟩
  have hplain : SmAct.plain x ∉ pre := fun hp => by
    rw [session_plain hc h (hpre.subset hp)] at hx
    cases hx
  rwa [arrivals, count_eq_zero_of_not_mem hplain] at hm

end Balance

/-! ## A machine with back transitions -/

/-- A page `0`, a page `1` with both actions, and two states on top of the page `1` that go back on
the event `3` and on the event `4`.  The event `5` goes back from each of the two to the other. -/
def overlayTable : SmTable Nat Nat Unit where
  state
    | 0 => ⟨none, [0], [], false, false⟩
    | 1 => ⟨none, [1, 2], [], true, true⟩
    | 2 => ⟨none, [], [3, 4, 5], false, true⟩
    | _ => ⟨none, [], [6], false, false⟩
  transition
    | 0 => ⟨1, none, false⟩
    | 1 => ⟨2, none, false⟩
    | 2 | 3 => ⟨3, none, false⟩
    | 4 => ⟨4, none, false⟩
    | _ => ⟨5, none, false⟩

/-- The machine before it is set up. -/
def overlay : StateMachine Nat Nat where
  currentState := none
  previousState := none
  nextState
    | 0 | 3 | 4 => some 1
    | 1 | 6 => some 2
    | 2 => some 0
    | _ => some 3

theorem overlay_endless (fuel : Nat) (s : Nat) (hs : s = 2 ∨ s = 3) (previous : Option Nat) :
    handle overlayTable ⟨5, ()⟩ fuel ⟨some s, previous, overlay.nextState⟩ = none := by
  induction fuel generalizing s previous with
  | zero => rfl
  | succ fuel ih =>
    obtain rfl | rfl := hs
    · exact congrArg (Option.map _) (ih 3 (.inr rfl) (some 2))
    · exact congrArg (Option.map _) (ih 2 (.inl rfl) (some 3))

/-- The page `1` is left twice and entered once.  A call that finds no transition has gone back to
the page `1` before.  The event `5` is never finished. -/
theorem session_overlay :
    (∃ acts, session overlayTable 2 [⟨1, ()⟩, ⟨2, ()⟩, ⟨3, ()⟩] (init overlayTable 0 overlay).2 =
        some acts ∧ exits acts 1 = 2 ∧ acts.count (.entry 1) = 1 ∧ inside 0 1 = 0) ∧
    (∃ fsm acts fsm', (handleAll overlayTable 1 [⟨1, ()⟩, ⟨2, ()⟩]
          (init overlayTable 0 overlay).2).map Prod.snd = some fsm ∧
        handle overlayTable ⟨4, ()⟩ 2 fsm = some (.notFound, acts, fsm') ∧
        fsm.currentState = some 2 ∧ fsm'.currentState = some 1 ∧ exits acts 2 = 1) ∧
    ∃ fsm, (handleAll overlayTable 1 [⟨1, ()⟩, ⟨2, ()⟩]
          (init overlayTable 0 overlay).2).map Prod.snd = some fsm ∧
        ∀ fuel, handle overlayTable ⟨5, ()⟩ fuel fsm = none :=
  ⟨⟨_, rfl, by decide, by decide, rfl⟩, ⟨_, _, _, rfl, rfl, rfl, rfl, by decide⟩,
    ⟨_, rfl, fun fuel => overlay_endless fuel 2 (.inl rfl) (some 1)⟩⟩

/-- The balance holds of the machine above, a call without a transition changes nothing there, and
the event `1` is finished in the page `0`. -/
theorem session_balance_overlay :
    (∀ pre, pre <+: [SmAct.entry 1, .exit 1, .plain 2, .exit 2] → ∀ x,
      exits (τ := Nat) pre x ≤ arrivals pre x + inside 0 x) ∧
    (∀ fsm' acts, handle overlayTable ⟨2, ()⟩ 1 (init overlayTable 0 overlay).2 =
      some (.notFound, acts, fsm') → acts = []) ∧
    ∃ fuel, (handle overlayTable ⟨1, ()⟩ fuel (init overlayTable 0 overlay).2).isSome = true := by
  have hback (e : SmEvent Unit) (fsm₁ : StateMachine Nat Nat) :
      ¬ BackStep overlayTable e (init overlayTable 0 overlay).2 fsm₁ := by
    rintro ⟨c, t, _, hc, ht, -⟩
    obtain rfl : 0 = c := some.inj hc
    exact transitionsBack_ne ht rfl
  refine ⟨fun pre hpre x => ((session_balance overlayTable).1 0 overlay 1 [⟨1, ()⟩, ⟨2, ()⟩] _ rfl
      rfl pre hpre x).1, fun fsm' acts h => ?_, ?_⟩
  · exact ((session_balance overlayTable).2.1 _ _ _ _ _ h fun ⟨_, hb⟩ => hback _ _ hb).2.2
  · exact (session_balance overlayTable).2.2 _ _ (.intro _ fun fsm₁ hb => (hback _ _ hb).elim)

end StateMachine

end Awtk
