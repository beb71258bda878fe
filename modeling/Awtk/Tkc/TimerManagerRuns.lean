import Awtk.Tkc.TimerManager

/-!
# Dispatching timers

What every run of a timer manager keeps: a dispatch calls the handler of a timer once at most,
and not before the duration is over, unless the timer was started behind the reading of the clock
that the dispatch uses.  A dispatch goes on forever only if its handlers add timers forever that
can be taken at once.
-/

namespace Awtk

open Runs List Option

/-! ## The calls -/

namespace TimerManager

variable {m m' m'' : TimerManager}

/-- The timers are timers of before, with the same `now`, and new objects. -/
structure Extends (m m' : TimerManager) : Prop where
  created : m.created ≤ m'.created
  timers : ∀ t' ∈ m'.timers,
    (∃ t ∈ m.timers, t.object = t'.object ∧ t.now = t'.now) ∨
      (m.created ≤ t'.object ∧ t'.object < m'.created)

theorem Extends.refl (m : TimerManager) : Extends m m :=
  ⟨Nat.le_refl _, fun t ht => .inl ⟨t, ht, rfl, rfl⟩⟩

theorem Extends.trans (h : Extends m m') (h' : Extends m' m'') : Extends m m'' := by
  refine ⟨Nat.le_trans h.created h'.created, fun t'' ht'' => ?_⟩
  rcases h'.timers t'' ht'' with ⟨t', ht', hobject, hnow⟩ | ⟨hle, hlt⟩
  · rcases h.timers t' ht' with ⟨t, ht, hobject', hnow'⟩ | ⟨hle, hlt⟩
    · exact .inl ⟨t, ht, hobject'.trans hobject, hnow'.trans hnow⟩
    · exact .inr ⟨hobject ▸ hle, hobject ▸ Nat.lt_of_lt_of_le hlt h'.created⟩
  · exact .inr ⟨Nat.le_trans h.created hle, hlt⟩

theorem extends_update (m : TimerManager) (object : Nat) {f : TimerInfo → TimerInfo}
    (hf : ∀ t, (f t).object = t.object ∧ (f t).now = t.now) : Extends m (m.update object f) := by
  refine ⟨Nat.le_refl _, fun t' ht' => .inl ?_⟩
  obtain ⟨t, ht, rfl⟩ := mem_map.mp ht'
  refine ⟨t, ht, ?_⟩
  split_ifs
  · exact ⟨(hf t).1.symm, (hf t).2.symm⟩
  · exact ⟨rfl, rfl⟩

theorem extends_remove (m : TimerManager) (id : Nat) : Extends m (m.remove id) := by
  rw [remove]
  split_ifs
  · exact .refl m
  · exact ⟨Nat.le_refl _, fun t ht => .inl ⟨t, mem_of_mem_eraseP ht, rfl, rfl⟩⟩

theorem extends_create (m : TimerManager) (id duration now start : Nat) :
    Extends m (m.create id duration now start) := by
  refine ⟨Nat.le_succ _, fun t ht => ?_⟩
  rcases mem_append.mp ht with ht | ht
  · exact .inl ⟨t, ht, rfl, rfl⟩
  · rw [mem_singleton.mp ht]
    exact .inr ⟨Nat.le_refl _, Nat.lt_succ_self _⟩

theorem timers_nextId {fuel id : Nat} (h : m.nextId fuel = some (id, m')) :
    m'.timers = m.timers ∧ m'.created = m.created := by
  induction fuel generalizing m with
  | zero => cases h
  | succ fuel ih =>
    rw [nextId] at h
    split at h
    · cases h
      exact ⟨rfl, rfl⟩
    · have hrest := ih h
      exact hrest

theorem extends_addWithTypeAndId (m : TimerManager) (id duration : Nat) (isCheckId : Bool)
    (now start : Nat) : Extends m (m.addWithTypeAndId id duration isCheckId now start) := by
  rw [addWithTypeAndId]
  split_ifs
  · exact .refl m
  · exact .refl m
  all_goals exact extends_create m _ _ _ _

theorem extends_add {duration now start : Nat} (h : m.add duration now start = some m') :
    Extends m m' := by
  obtain ⟨⟨id, m₁⟩, hid, rfl⟩ := map_eq_some_iff.mp h
  obtain ⟨htimers, hcreated⟩ := timers_nextId hid
  have hsame : Extends m m₁ :=
    ⟨Nat.le_of_eq hcreated.symm, fun t ht => .inl ⟨t, htimers ▸ ht, rfl, rfl⟩⟩
  exact hsame.trans (extends_addWithTypeAndId m₁ id duration false now start)

theorem extends_apply {c : TimerCall} (h : c.apply m = some m') : Extends m m' := by
  cases c with
  | add duration now start => exact extends_add h
  | addWithId id duration now start =>
    cases h
    exact extends_addWithTypeAndId m _ _ _ _ _
  | reset id now =>
    cases h
    rw [reset]
    split
    · exact .refl m
    · exact extends_update m _ fun t => ⟨rfl, rfl⟩
  | remove id =>
    cases h
    exact extends_remove m id
  | suspend id =>
    cases h
    rw [setSuspend]
    split
    · exact .refl m
    · exact extends_update m _ fun t => ⟨rfl, rfl⟩
  | resume id =>
    cases h
    rw [setSuspend]
    split
    · exact .refl m
    · exact extends_update m _ fun t => ⟨rfl, rfl⟩

theorem extends_answer (m : TimerManager) (t : TimerInfo) (now : Nat) (a : Answer) :
    Extends m (m.answer t now a) := by
  have hbusy : Extends m (m.update t.object ({ · with busy := false })) :=
    extends_update m t.object fun t => ⟨rfl, rfl⟩
  cases a with
  | «repeat» => exact hbusy.trans (extends_update _ _ fun t => ⟨rfl, rfl⟩)
  | remove => exact hbusy.trans (extends_remove _ _)

/-! ## The timers that are left -/

/-- The timers that a dispatch did not take yet. -/
def pending (m : TimerManager) (now : Nat) : Nat := m.timers.countP (·.now < now)

theorem pending_update (m : TimerManager) (object now : Nat) {f : TimerInfo → TimerInfo}
    (hf : ∀ t, (f t).now = t.now) : (m.update object f).pending now = m.pending now := by
  rw [pending, pending, update, countP_map]
  refine countP_congr fun t _ => ?_
  rw [Function.comp_apply]
  split_ifs
  · rw [hf]
  · rfl

theorem pending_remove (m : TimerManager) (id now : Nat) : (m.remove id).pending now ≤ m.pending now := by
  rw [remove]
  split_ifs
  · exact Nat.le_refl _
  · exact Sublist.countP_le eraseP_sublist

theorem pending_create (m : TimerManager) {id duration start now n : Nat} (h : n ≤ now) :
    (m.create id duration now start).pending n = m.pending n := by
  rw [pending, pending, create, countP_append]
  simp [Nat.not_lt.mpr h]

/-- The new timer can be taken by a dispatch with this reading of the clock. -/
def AtOnce (duration now n : Nat) : Prop := (if duration ≠ 0 then now % 2 ^ 32 else 0) < n

theorem pending_addWithTypeAndId (m : TimerManager) {id duration now start n : Nat} {isCheckId : Bool}
    (h : ¬AtOnce duration now n) :
    (m.addWithTypeAndId id duration isCheckId now start).pending n ≤ m.pending n := by
  rw [addWithTypeAndId]
  by_cases hid : id = invalidId
  · rw [if_pos hid]
  · rw [if_neg hid]
    by_cases hcheck : isCheckId = true ∧ m.find id ≠ none
    · rw [if_pos hcheck]
    · rw [if_neg hcheck, pending_create m (Nat.not_lt.mp h)]

theorem pending_add {duration now start n : Nat} (h : m.add duration now start = some m')
    (hnot : ¬AtOnce duration now n) : m'.pending n ≤ m.pending n := by
  obtain ⟨⟨id, m₁⟩, hid, rfl⟩ := map_eq_some_iff.mp h
  have hsame : m₁.pending n = m.pending n := by
    rw [pending, pending, (timers_nextId hid).1]
  rw [← hsame]
  exact pending_addWithTypeAndId m₁ hnot

theorem pending_setSuspend (m : TimerManager) (id n : Nat) (suspend : Bool) :
    (m.setSuspend id suspend).pending n = m.pending n := by
  rw [setSuspend]
  split
  · rfl
  · exact pending_update m _ n fun t => rfl

theorem pending_answer (m : TimerManager) (t : TimerInfo) (now n : Nat) (a : Answer) :
    (m.answer t now a).pending n ≤ m.pending n := by
  have hbusy : (m.update t.object ({ · with busy := false })).pending n = m.pending n :=
    pending_update m t.object n fun t => rfl
  cases a with
  | «repeat» =>
    refine Nat.le_of_eq (Eq.trans ?_ hbusy)
    exact pending_update _ _ n fun t => rfl
  | remove =>
    rw [← hbusy]
    exact pending_remove _ _ n

/-- A call that adds a timer that can be taken at once. -/
def AddsAtOnce (n : Nat) : TimerCall → Prop
  | .add duration now _ | .addWithId _ duration now _ => AtOnce duration now n
  | _ => False

theorem pending_apply {c : TimerCall} {n : Nat} (hnot : ¬AddsAtOnce n c) (h : c.apply m = some m') :
    m'.pending n ≤ m.pending n := by
  cases c with
  | add duration now start => exact pending_add h hnot
  | addWithId id duration now start =>
    cases h
    exact pending_addWithTypeAndId m hnot
  | reset id now =>
    cases h
    rw [reset]
    split
    · exact Nat.le_refl _
    · exact Nat.le_of_eq (pending_update m _ n fun t => rfl)
  | remove id =>
    cases h
    exact pending_remove m id n
  | suspend id =>
    cases h
    exact Nat.le_of_eq (pending_setSuspend m id n true)
  | resume id =>
    cases h
    exact Nat.le_of_eq (pending_setSuspend m id n false)

end TimerManager

/-! ## The steps -/

namespace TimerSystem

open TimerManager

variable {s s' : TimerSystem}

/-- What every run keeps: timers have numbers of their own, and a timer whose handler was called
by the dispatch is not taken again. -/
structure Inv (s : TimerSystem) : Prop where
  clock : s.phase ≠ .idle → s.now < 2 ^ 64
  timers : ∀ t ∈ s.manager.timers, t.object < s.manager.created
  invoked : ∀ i ∈ s.invoked, i.timer.object < s.manager.created
  taken : ∀ i ∈ s.invoked, ∀ t ∈ s.manager.timers, t.object = i.timer.object → s.now ≤ t.now
  once : (s.invoked.map (·.timer.object)).Nodup

theorem inv_init (now : Nat) : Inv (init now) :=
  ⟨fun h => absurd rfl h, fun t ht => (by cases ht), fun i hi => (by cases hi), fun i hi => (by cases hi),
    nodup_nil⟩

theorem Inv.extends {m : TimerManager} (h : Inv s) (hext : Extends s.manager m) (clock : Nat)
    {phase : Phase} (hphase : phase ≠ .idle → s.now < 2 ^ 64) :
    Inv { s with manager := m, clock, phase } := by
  refine ⟨hphase, fun t ht => ?_, fun i hi => ?_, fun i hi t ht heq => ?_, h.once⟩
  · rcases hext.timers t ht with ⟨t₀, ht₀, hobject, -⟩ | ⟨-, hlt⟩
    · exact hobject ▸ Nat.lt_of_lt_of_le (h.timers t₀ ht₀) hext.created
    · exact hlt
  · exact Nat.lt_of_lt_of_le (h.invoked i hi) hext.created
  · rcases hext.timers t ht with ⟨t₀, ht₀, hobject, hnow⟩ | ⟨hle, -⟩
    · exact hnow ▸ h.taken i hi t₀ ht₀ (hobject.trans heq)
    · have hlt := h.invoked i hi
      rw [← heq] at hlt
      exact absurd hlt (Nat.not_lt.mpr hle)

theorem advance_lt {clock clock' : Nat} {ts : List Nat} (h : advance clock ts = some clock')
    {t : Nat} (ht : t ∈ ts) : t < 2 ^ 64 := by
  induction ts generalizing clock with
  | nil => cases ht
  | cons u ts ih =>
    rw [advance] at h
    split_ifs at h with hu
    rcases mem_cons.mp ht with rfl | ht
    · exact hu.2
    · exact ih h ht

/-- A timer that was taken. -/
def take (m : TimerManager) (object now : Nat) : TimerManager := m.update object ({ · with now := now })

theorem mem_take {m : TimerManager} {object now : Nat} {t' : TimerInfo}
    (h : t' ∈ (take m object now).timers) :
    ∃ t ∈ m.timers, t.object = t'.object ∧ t'.now = if t'.object = object then now else t.now := by
  obtain ⟨t, ht, rfl⟩ := mem_map.mp h
  refine ⟨t, ht, ?_⟩
  by_cases hobject : t.object = object
  · rw [if_pos hobject, if_pos hobject]
    exact ⟨rfl, rfl⟩
  · rw [if_neg hobject, if_neg hobject]
    exact ⟨rfl, rfl⟩

theorem turn_cases (h : s.turn = some s') :
    s.phase = .dispatching ∧
      ((s.manager.next s.now = none ∧ s' = { s with phase := .idle }) ∨
        ∃ t, s.manager.next s.now = some t ∧
          ((t.isDue s.now = false ∧ s' = { s with manager := take s.manager t.object s.now }) ∨
            (t.isDue s.now = true ∧
              s' = { s with
                manager := (take s.manager t.object s.now).update t.object ({ · with busy := true })
                phase := .handling t, invoked := ⟨t, s.now⟩ :: s.invoked }))) := by
  rw [turn] at h
  by_cases hphase : s.phase = .dispatching
  · rw [if_pos hphase] at h
    refine ⟨hphase, ?_⟩
    cases hnext : s.manager.next s.now with
    | none =>
      rw [hnext] at h
      exact .inl ⟨rfl, (some.inj h).symm⟩
    | some t =>
      rw [hnext] at h
      refine .inr ⟨t, rfl, ?_⟩
      cases hdue : t.isDue s.now with
      | false =>
        simp only [hdue] at h
        exact .inl ⟨rfl, (some.inj h).symm⟩
      | true =>
        simp only [hdue] at h
        exact .inr ⟨rfl, (some.inj h).symm⟩
  · rw [if_neg hphase] at h
    cases h

theorem next_spec {m : TimerManager} {now : Nat} {t : TimerInfo} (h : m.next now = some t) :
    t ∈ m.timers ∧ t.now < now := by
  refine ⟨mem_of_find?_eq_some h, ?_⟩
  have havailable := find?_some h
  rw [TimerInfo.isAvailable, Bool.and_eq_true, decide_eq_true_eq] at havailable
  exact havailable.2

theorem Inv.take (h : Inv s) (object : Nat) : Inv { s with manager := take s.manager object s.now } := by
  refine ⟨h.clock, fun t' ht' => ?_, h.invoked, fun i hi t' ht' heq => ?_, h.once⟩
  · obtain ⟨t, ht, hobject, -⟩ := mem_take ht'
    exact hobject ▸ h.timers t ht
  · obtain ⟨t, ht, hobject, hnow⟩ := mem_take ht'
    rw [hnow]
    split_ifs
    · exact Nat.le_refl _
    · exact h.taken i hi t ht (hobject.trans heq)

theorem Inv.invoke (h : Inv s) {t : TimerInfo} (ht : t ∈ s.manager.timers) (hnow : t.now < s.now) :
    Inv { s with manager := TimerSystem.take s.manager t.object s.now, invoked := ⟨t, s.now⟩ :: s.invoked } := by
  have htake := h.take t.object
  refine ⟨h.clock, htake.timers, ?_, ?_, ?_⟩
  · intro i hi
    rcases mem_cons.mp hi with rfl | hi
    · exact h.timers t ht
    · exact h.invoked i hi
  · intro i hi t' ht' heq
    rcases mem_cons.mp hi with rfl | hi
    · obtain ⟨t₀, -, -, hnow'⟩ := mem_take ht'
      rw [hnow', if_pos heq]
    · exact htake.taken i hi t' ht' heq
  · refine nodup_cons.mpr ⟨fun hmem => ?_, h.once⟩
    obtain ⟨i, hi, heq⟩ := mem_map.mp hmem
    have hle := h.taken i hi t ht heq.symm
    exact absurd hnow (Nat.not_lt.mpr hle)

theorem inv_step (a : TimerAction) (h : Inv s) (hstep : step s a = some s') : Inv s' := by
  cases a with
  | call c =>
    change s.call c = some s' at hstep
    rw [call] at hstep
    split_ifs at hstep
    obtain ⟨clock, -, hstep⟩ := bind_eq_some_iff.mp hstep
    obtain ⟨m, hm, rfl⟩ := map_eq_some_iff.mp hstep
    exact h.extends (extends_apply hm) clock h.clock
  | dispatch now =>
    change s.dispatch now = some s' at hstep
    rw [dispatch] at hstep
    split at hstep
    · obtain ⟨clock, hclock, rfl⟩ := map_eq_some_iff.mp hstep
      exact ⟨fun _ => advance_lt hclock mem_cons_self, h.timers, fun i hi => (by cases hi),
        fun i hi => (by cases hi), nodup_nil⟩
    · cases hstep
  | turn =>
    obtain ⟨hphase, hcases⟩ := turn_cases hstep
    have hclock := h.clock (by rw [hphase]; exact nofun)
    rcases hcases with ⟨-, rfl⟩ | ⟨t, hnext, ⟨-, rfl⟩ | ⟨-, rfl⟩⟩
    · exact h.extends (.refl _) s.clock fun _ => hclock
    · exact h.take t.object
    · obtain ⟨ht, hnow⟩ := next_spec hnext
      have hbusy : Extends (take s.manager t.object s.now)
          ((take s.manager t.object s.now).update t.object ({ · with busy := true })) :=
        extends_update _ _ fun t => ⟨rfl, rfl⟩
      exact (h.invoke ht hnow).extends hbusy s.clock fun _ => hclock
  | answer a =>
    change s.answer a = some s' at hstep
    rw [answer] at hstep
    split at hstep
    · rename_i t hphase
      cases hstep
      exact h.extends (extends_answer _ _ _ _) s.clock fun _ => h.clock (by rw [hphase]; exact nofun)
    · cases hstep

/-! ## Never early -/

/-- Every handler that the dispatch called was called behind the duration of its timer. -/
def NeverEarly (s : TimerSystem) : Prop :=
  ∀ i ∈ s.invoked, (i.timer.duration : Int) ≤ (i.now : Int) - i.timer.start

/-- The dispatch called no handler twice. -/
def OnceEach (s : TimerSystem) : Prop := (s.invoked.map (·.timer.object)).Nodup

/-- The timer that is taken is suspended, or it was started no later than the reading of the clock
that the dispatch uses. -/
def StartedInTime (s : TimerSystem) (a : TimerAction) : Prop :=
  a = .turn → ∀ t, s.manager.next s.now = some t → t.suspend = false → t.start ≤ s.now

theorem diff_le {t : TimerInfo} {now : Nat} (h : t.start ≤ now) (hnow : now < 2 ^ 64) :
    t.diff now ≤ now - t.start := by
  rw [TimerInfo.diff]
  omega

theorem neverEarly_step (a : TimerAction) (hinv : Inv s) (h : NeverEarly s) (hcond : StartedInTime s a)
    (hstep : step s a = some s') : NeverEarly s' := by
  cases a with
  | call c =>
    change s.call c = some s' at hstep
    rw [call] at hstep
    split_ifs at hstep
    obtain ⟨clock, -, hstep⟩ := bind_eq_some_iff.mp hstep
    obtain ⟨m, hm, rfl⟩ := map_eq_some_iff.mp hstep
    exact h
  | dispatch now =>
    change s.dispatch now = some s' at hstep
    rw [dispatch] at hstep
    split at hstep
    · obtain ⟨clock, hclock, rfl⟩ := map_eq_some_iff.mp hstep
      exact fun i hi => by cases hi
    · cases hstep
  | turn =>
    obtain ⟨hphase, hcases⟩ := turn_cases hstep
    have hclock := hinv.clock (by rw [hphase]; exact nofun)
    rcases hcases with ⟨-, rfl⟩ | ⟨t, hnext, ⟨-, rfl⟩ | ⟨hdue, rfl⟩⟩
    · exact h
    · exact h
    · intro i hi
      rcases mem_cons.mp hi with rfl | hi
      · rw [TimerInfo.isDue, Bool.and_eq_true, Bool.not_eq_true', decide_eq_true_eq] at hdue
        have hstart := hcond rfl t hnext hdue.1
        have hdiff := diff_le hstart hclock
        change (t.duration : Int) ≤ (s.now : Int) - t.start
        omega
      · exact h i hi
  | answer a =>
    change s.answer a = some s' at hstep
    rw [answer] at hstep
    split at hstep
    · cases hstep
      exact h
    · cases hstep

/-! ## The end of a dispatch -/

/-- The timers that the dispatch did not take yet. -/
def pending (s : TimerSystem) : Nat := s.manager.pending s.now

/-- A timer is added that the dispatch can take. -/
def AddsAtOnce (s : TimerSystem) (a : TimerAction) : Prop :=
  ∃ c, a = .call c ∧ TimerManager.AddsAtOnce s.now c

theorem pending_take {m : TimerManager} {t : TimerInfo} {now : Nat} (ht : t ∈ m.timers)
    (hnow : t.now < now) : (take m t.object now).pending now < m.pending now := by
  obtain ⟨l, l', hl⟩ := append_of_mem ht
  have hle : ∀ ts : List TimerInfo,
      (ts.map fun u => if u.object = t.object then { u with now := now } else u).countP (·.now < now) ≤
        ts.countP (·.now < now) := by
    intro ts
    rw [countP_map]
    refine countP_mono_left fun u _ hu => ?_
    rw [Function.comp_apply] at hu
    split_ifs at hu with hobject
    · simp at hu
    · exact hu
  have hl₁ := hle l
  have hl₂ := hle l'
  rw [TimerManager.pending, TimerManager.pending, take, update, hl, map_append, countP_append,
    countP_append, map_cons, countP_cons, countP_cons, if_pos rfl]
  simp only [decide_eq_true_eq, Nat.lt_irrefl, if_false, hnow, if_true]
  omega

/-- Nothing but an addition at once gives the dispatch more to do, and a turn that does not end it
gives it less. -/
theorem pending_step {a : TimerAction} (hphase : s.phase ≠ .idle) (hnot : ¬AddsAtOnce s a)
    (hstep : step s a = some s') :
    s'.pending ≤ s.pending ∧ (a = .turn → s'.phase ≠ .idle → s'.pending < s.pending) := by
  cases a with
  | call c =>
    change s.call c = some s' at hstep
    rw [call] at hstep
    split_ifs at hstep
    obtain ⟨clock, -, hstep⟩ := bind_eq_some_iff.mp hstep
    obtain ⟨m, hm, rfl⟩ := map_eq_some_iff.mp hstep
    exact ⟨pending_apply (fun hadds => hnot ⟨c, rfl, hadds⟩) hm, nofun⟩
  | dispatch now =>
    change s.dispatch now = some s' at hstep
    rw [dispatch, if_neg hphase] at hstep
    cases hstep
  | turn =>
    obtain ⟨-, hcases⟩ := turn_cases hstep
    rcases hcases with ⟨-, rfl⟩ | ⟨t, hnext, ⟨-, rfl⟩ | ⟨-, rfl⟩⟩
    · exact ⟨Nat.le_refl _, fun _ hidle => absurd rfl hidle⟩
    · obtain ⟨ht, hnow⟩ := next_spec hnext
      have hlt := pending_take ht hnow
      exact ⟨Nat.le_of_lt hlt, fun _ _ => hlt⟩
    · obtain ⟨ht, hnow⟩ := next_spec hnext
      have hlt := pending_take ht hnow
      have hbusy := pending_update (take s.manager t.object s.now) t.object s.now
        (f := ({ · with busy := true })) fun t => rfl
      rw [← hbusy] at hlt
      exact ⟨Nat.le_of_lt hlt, fun _ _ => hlt⟩
  | answer a =>
    change s.answer a = some s' at hstep
    rw [answer] at hstep
    split at hstep
    · cases hstep
      exact ⟨pending_answer _ _ _ _ _, nofun⟩
    · cases hstep

/-- The turns of a dispatch that go on forever. -/
structure Endless (ρ : Nat → TimerSystem) (α : Nat → TimerAction) : Prop where
  steps : ∀ k, step (ρ k) (α k) = some (ρ (k + 1))
  dispatching : ∀ k, (ρ k).phase ≠ .idle
  turns : ∀ k, ∃ j, k ≤ j ∧ α j = .turn

section Endless

variable {ρ : Nat → TimerSystem} {α : Nat → TimerAction} {k : Nat}

theorem Endless.pending_le (h : Endless ρ α) (hnot : ∀ j, k ≤ j → ¬AddsAtOnce (ρ j) (α j)) (n : Nat) :
    (ρ (k + n)).pending ≤ (ρ k).pending := by
  induction n with
  | zero => exact Nat.le_refl _
  | succ n ih =>
    have hstep := pending_step (h.dispatching (k + n)) (hnot (k + n) (Nat.le_add_right k n)) (h.steps (k + n))
    exact Nat.le_trans hstep.1 ih

theorem Endless.not_bounded (h : Endless ρ α) {n : Nat} (hnot : ∀ j, k ≤ j → ¬AddsAtOnce (ρ j) (α j)) :
    ¬(ρ k).pending < n := by
  induction n generalizing k with
  | zero => exact Nat.not_lt_zero _
  | succ n ih =>
    intro hlt
    obtain ⟨j, hj, hturn⟩ := h.turns k
    obtain ⟨i, rfl⟩ := Nat.exists_eq_add_of_le hj
    have hle := h.pending_le hnot i
    have hstep := pending_step (h.dispatching (k + i)) (hnot (k + i) hj) (h.steps (k + i))
    have hless := hstep.2 hturn (h.dispatching (k + i + 1))
    refine ih (k := k + i + 1) (fun j hj' => hnot j (by omega)) ?_
    omega

/-- A dispatch goes on forever only if timers are added forever that it can take at once. -/
theorem Endless.adds (h : Endless ρ α) (k : Nat) : ∃ j, k ≤ j ∧ AddsAtOnce (ρ j) (α j) := by
  by_contra hno
  have hnot : ∀ j, k ≤ j → ¬AddsAtOnce (ρ j) (α j) := fun j hj hadds => hno ⟨j, hj, hadds⟩
  exact h.not_bounded hnot (Nat.lt_succ_self _)

end Endless

/-! ## Whole runs -/

/-- In every run a dispatch calls each handler once at most, and never early if the timers that it
takes were started in time.  A dispatch ends unless timers are added forever that it can take at once. -/
theorem dispatch_of_run (now : Nat) :
    (∀ as s, run step (init now) as = some s →
      OnceEach s ∧ (Meets step StartedInTime (init now) as → NeverEarly s)) ∧
    ∀ ρ α, Endless ρ α → ∀ k, ∃ j, k ≤ j ∧ AddsAtOnce (ρ j) (α j) := by
  refine ⟨fun as s hrun => ⟨?_, fun hmeets => ?_⟩, fun ρ α h => h.adds⟩
  · exact (run_invariant' (fun s a s' h => inv_step a h) (inv_init now) hrun).once
  · have hboth := run_invariant (I := fun s => Inv s ∧ NeverEarly s) (C := StartedInTime)
      (fun s a s' h hcond hstep => ⟨inv_step a h.1 hstep, neverEarly_step a h.1 h.2 hcond hstep⟩)
      ⟨inv_init now, fun i hi => by cases hi⟩ hmeets hrun
    exact hboth.2

/-- The handler of one timer resets another when the clock has moved on, and the other one is
called 5 milliseconds before it was started. -/
def lateReset : List TimerAction :=
  [.call (.add 10 0 0), .call (.add 10 0 0), .dispatch 10, .turn, .call (.reset 2 15), .answer .repeat,
    .turn]

theorem reset_not_neverEarly :
    ¬ ∀ (now : Nat) as s, run step (init now) as = some s → NeverEarly s ∧ OnceEach s := by
  intro h
  obtain ⟨s, hs⟩ : ∃ s, run step (init 0) lateReset = some s := ⟨_, rfl⟩
  have hearly := (h 0 lateReset s hs).1
  cases hs
  have hlate := hearly _ mem_cons_self
  revert hlate
  decide

end TimerSystem

end Awtk
