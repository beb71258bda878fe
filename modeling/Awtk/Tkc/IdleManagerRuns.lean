import Awtk.Tkc.IdleManagerHistory

/-!
# Runs of the idle manager

A dispatch whose states all fit comes to an end, whatever the handlers do, as
long as they add a finite number of idles.  Each dispatch calls an idle once at
most, so a dispatch has a finite number of turns.  Dispatches inside handlers
call fewer and fewer idles, since those whose handlers run are busy.
`dispatch_correct` adds what became of the idles.
-/

namespace Awtk

open IdleManager Loop

variable {W F : Type}

namespace IdleSystem

variable {handlers : IdleInfo F → IdleProg W F} {m₀ : IdleManager F} {s t : IdleSystem W F}
  {rest : List (IdleFrame W F)} {bound : Nat}

/-! ## Turns -/

theorem turn_finish {d : Nat} {times : UInt32} (hstack : s.stack = .dispatching d times :: rest)
    (hnext : s.manager.next times = none) :
    turn handlers s = .next { s with stack := rest } := by
  rw [turn, hstack]
  dsimp only
  rw [hnext]

theorem turn_invoke {d : Nat} {times : UInt32} {idle : IdleInfo F}
    (hstack : s.stack = .dispatching d times :: rest)
    (hnext : s.manager.next times = some idle) :
    turn handlers s = .next { s with
      manager := s.manager.update idle.object (IdleInfo.begin times)
      stack := .handling (idle.begin times) (handlers (idle.begin times)) ::
        .dispatching d times :: rest
      log := s.log ++ [.invoked d idle.object] } := by
  rw [turn, hstack]
  dsimp only
  rw [hnext]

theorem turn_answer {idle : IdleInfo F} {r : Ret}
    (hstack : s.stack = .handling idle (.ret r) :: rest) :
    turn handlers s = .next { s with
      manager := s.manager.answer idle r, stack := rest
      log := s.log ++ [.returned idle.object r] } := by
  rw [turn, hstack]

theorem turn_call {idle : IdleInfo F} {c : IdleCall F} {k : IdleReply → IdleProg W F}
    {reply : IdleReply} {m : IdleManager F} (hstack : s.stack = .handling idle (.call c k) :: rest)
    (happly : c.apply s.manager = some (reply, m)) :
    turn handlers s = .next { s with
      manager := m, stack := .handling idle (k reply) :: rest
      log := s.log ++ s.manager.changes m } := by
  rw [turn, hstack]
  dsimp only
  rw [happly]

theorem turn_dispatch {idle : IdleInfo F} {prog : IdleProg W F}
    (hstack : s.stack = .handling idle (.dispatch prog) :: rest) :
    turn handlers s = .next (dispatch { s with stack := .handling idle prog :: rest }) := by
  rw [turn, hstack]

theorem turn_done (h : turn handlers s = .done t) : s = t := by
  unfold turn at h
  split at h
  · cases h
    rfl
  · split at h
    · cases h
    · cases h
  · split at h
    · cases h
    · split at h
      · cases h
      · cases h
    · cases h
    · cases h
    · cases h

theorem log_prefix (h : Reaches (turn handlers) s t) : s.log <+: t.log := by
  refine h.invariant (I := fun t => s.log <+: t.log) ?_ List.prefix_rfl
  intro t t' hlog hturn
  cases stepped hturn with
  | finish _ _ => exact hlog
  | invoke _ _ => exact hlog.trans (List.prefix_append _ _)
  | answer _ => exact hlog.trans (List.prefix_append _ _)
  | call _ _ => exact hlog.trans (List.prefix_append _ _)
  | hang _ _ => exact hlog
  | go _ => exact hlog
  | dispatch _ => exact hlog

/-! ## States that fit -/

/-- All states that are reached fit, and there are not more idles than `bound`. -/
structure Safe (handlers : IdleInfo F → IdleProg W F) (m₀ : IdleManager F) (bound : Nat)
    (s : IdleSystem W F) : Prop where
  inv : Inv m₀ s
  reached : ∀ t, Reaches (turn handlers) s t → t.fits = true ∧ t.manager.created ≤ bound

namespace Safe

theorem reaches (hm₀ : m₀.Wf) (h : Safe handlers m₀ bound s)
    (hreach : Reaches (turn handlers) s t) : Safe handlers m₀ bound t := by
  refine hreach.invariant (I := Safe handlers m₀ bound) ?_ h
  intro s s' h hturn
  exact ⟨h.inv.next hm₀ (h.reached s (.refl _ s)).1 hturn,
    fun t ht => h.reached t (ht.head hturn)⟩

theorem length_le {l : List Nat} (hl : l.Nodup) (hlt : ∀ o ∈ l, o < bound) : l.length ≤ bound := by
  have hsub : l ⊆ List.range bound := fun o ho => List.mem_range.mpr (hlt o ho)
  have hlen := (List.subperm_of_subset hl hsub).length_le
  rwa [List.length_range] at hlen

theorem length_handled (h : Safe handlers m₀ bound s) : (handled s.stack).length ≤ bound := by
  have hlen := length_le h.inv.objects.handled fun o ho => by
    obtain ⟨x, hx, rfl⟩ := List.mem_map.mp ho
    exact Nat.lt_of_lt_of_le (h.inv.objects.handledCreated x hx) (h.reached s (.refl _ s)).2
  rwa [List.length_map] at hlen

theorem length_invoked (h : Safe handlers m₀ bound s) (d : Nat) :
    (s.log.filterMap (IdleEvent.invokedBy d)).length ≤ bound := by
  refine length_le (h.inv.stamps.once d) fun o ho => ?_
  have hlogged := h.inv.stamps.logged d o (IdleEvent.mem_invokedBy.mp ho)
  exact Nat.lt_of_lt_of_le hlogged.2 (h.reached s (.refl _ s)).2

/-- A handler returns, if the dispatches that it starts return. -/
theorem returns_handling (hm₀ : m₀.Wf) {n : Nat}
    (hdispatch : ∀ {s : IdleSystem W F} {d : Nat} {times : UInt32} {rest : List (IdleFrame W F)},
      Safe handlers m₀ bound s → s.stack = .dispatching d times :: rest →
      bound ≤ n + (handled rest).length → ∃ t, Reaches (turn handlers) s t ∧ t.stack = rest)
    (prog : IdleProg W F) : ∀ {s : IdleSystem W F} {idle : IdleInfo F}
      {rest : List (IdleFrame W F)}, Safe handlers m₀ bound s →
      s.stack = .handling idle prog :: rest → bound ≤ n + (handled rest).length + 1 →
      ∃ t, Reaches (turn handlers) s t ∧ t.stack = rest := by
  induction prog with
  | ret r =>
    intro s idle rest h hstack hn
    exact ⟨_, .one (turn_answer hstack), rfl⟩
  | call c k ih =>
    intro s idle rest h hstack hn
    have hfits := (h.reached s (.refl _ s)).1
    rw [fits, hstack] at hfits
    have hfree : c.isAdd = true → s.manager.idles.length < 2 ^ 32 - 1 := by
      intro hadd
      simpa [hadd] using hfits
    obtain ⟨⟨reply, m⟩, happly⟩ := IdleCall.exists_apply hfree
    have hturn : turn handlers s = _ := turn_call hstack happly
    obtain ⟨t, ht, hrest⟩ := ih reply (h.reaches hm₀ (.one hturn)) rfl hn
    exact ⟨t, ht.head hturn, hrest⟩
  | look k ih =>
    intro s idle rest h hstack hn
    have hturn : turn handlers s =
        .next { s with stack := .handling idle (k s.world s.manager) :: rest } := by
      rw [turn, hstack]
    obtain ⟨t, ht, hrest⟩ := ih _ _ (h.reaches hm₀ (.one hturn)) rfl hn
    exact ⟨t, ht.head hturn, hrest⟩
  | write w prog ih =>
    intro s idle rest h hstack hn
    have hturn : turn handlers s =
        .next { s with world := w, stack := .handling idle prog :: rest } := by
      rw [turn, hstack]
    obtain ⟨t, ht, hrest⟩ := ih (h.reaches hm₀ (.one hturn)) rfl hn
    exact ⟨t, ht.head hturn, hrest⟩
  | dispatch prog ih =>
    intro s idle rest h hstack hn
    have hturn : turn handlers s = _ := turn_dispatch hstack
    have hsafe := h.reaches hm₀ (.one hturn)
    let waiting : IdleSystem W F := { s with stack := .handling idle prog :: rest }
    cases hempty : s.manager.idles.isEmpty with
    | true =>
      rw [dispatch_of_isEmpty (s := waiting) hempty] at hturn hsafe
      obtain ⟨t, ht, hrest⟩ := ih hsafe rfl hn
      exact ⟨t, ht.head hturn, hrest⟩
    | false =>
      rw [dispatch_of_not_isEmpty (s := waiting) hempty] at hturn hsafe
      obtain ⟨t, ht, hback⟩ := hdispatch hsafe rfl hn
      obtain ⟨u, hu, hrest⟩ := ih (hsafe.reaches hm₀ ht) hback hn
      exact ⟨u, (ht.trans hu).head hturn, hrest⟩

theorem length_invoked_invoke (log : List IdleEvent) (d o : Nat) :
    ((log ++ [IdleEvent.invoked d o]).filterMap (IdleEvent.invokedBy d)).length =
      (log.filterMap (IdleEvent.invokedBy d)).length + 1 := by
  simp [IdleEvent.invokedBy]

/-- A dispatch returns.  The induction is on the number of idles whose handlers do not run, and then
on the number of those that the dispatch has not called. -/
theorem returns_dispatching (hm₀ : m₀.Wf) (n : Nat) : ∀ {s : IdleSystem W F} {d : Nat}
    {times : UInt32} {rest : List (IdleFrame W F)}, Safe handlers m₀ bound s →
      s.stack = .dispatching d times :: rest → bound ≤ n + (handled rest).length →
      ∃ t, Reaches (turn handlers) s t ∧ t.stack = rest := by
  induction n with
  | zero =>
    intro s d times rest h hstack hn
    cases hnext : s.manager.next times with
    | none => exact ⟨_, .one (turn_finish hstack hnext), rfl⟩
    | some idle =>
      have hlen := (h.reaches hm₀ (.one (turn_invoke hstack hnext))).length_handled
      rw [handled_handling, handled_dispatching, List.length_cons] at hlen
      omega
  | succ n ih =>
    intro s d times rest h hstack hn
    have hcalls : ∀ (k : Nat) {s : IdleSystem W F}, Safe handlers m₀ bound s →
        s.stack = .dispatching d times :: rest →
        bound ≤ k + (s.log.filterMap (IdleEvent.invokedBy d)).length →
        ∃ t, Reaches (turn handlers) s t ∧ t.stack = rest := by
      intro k
      induction k with
      | zero =>
        intro s h hstack hk
        cases hnext : s.manager.next times with
        | none => exact ⟨_, .one (turn_finish hstack hnext), rfl⟩
        | some idle =>
          have hlen := (h.reaches hm₀ (.one (turn_invoke hstack hnext))).length_invoked d
          rw [length_invoked_invoke] at hlen
          omega
      | succ k ihk =>
        intro s h hstack hk
        cases hnext : s.manager.next times with
        | none => exact ⟨_, .one (turn_finish hstack hnext), rfl⟩
        | some idle =>
          have hturn : turn handlers s = _ := turn_invoke hstack hnext
          have hsafe := h.reaches hm₀ (.one hturn)
          obtain ⟨t, ht, hback⟩ := returns_handling hm₀ ih _ hsafe rfl (by
            rw [handled_dispatching]
            omega)
          have hmore := (( log_prefix ht).filterMap (IdleEvent.invokedBy d)).length_le
          rw [length_invoked_invoke] at hmore
          obtain ⟨u, hu, hrest⟩ := ihk (hsafe.reaches hm₀ ht) hback (by omega)
          exact ⟨u, (ht.trans hu).head hturn, hrest⟩
    exact hcalls bound h hstack (Nat.le_add_right _ _)

end Safe

/-! ## Dispatches -/

/-- What became of the idles of `m` in a dispatch. -/
structure Dispatched (m : IdleManager F) (s : IdleSystem W F) : Prop where
  /-- A dispatch calls an idle at most once. -/
  once : ∀ d, (s.log.filterMap (IdleEvent.invokedBy d)).Nodup
  /-- An idle that was registered and was not removed by a handler has been called. -/
  called : ∀ x ∈ m.idles, .removed x.object ∉ s.log → ∃ d, .invoked d x.object ∈ s.log
  /-- An idle whose handler did not return `RET_REPEAT` is gone. -/
  gone : ∀ o r, .returned o r ∈ s.log → r ≠ .repeat → o ∉ s.manager.objects
  /-- No other idle is gone, but those that handlers removed. -/
  kept : ∀ o, o ∈ m.objects ∨ .added o ∈ s.log → .removed o ∉ s.log →
    (∀ r, .returned o r ∈ s.log → r = .repeat) → o ∈ s.manager.objects
  wf : s.manager.Wf

theorem inv_start (hm : m₀.Wf) (w : W) : Inv m₀ (start m₀ w) := by
  have hstamps : Stamps m₀ [] 0 [] := by
    refine ⟨List.nodup_nil, ?_, ?_, ?_, ?_⟩
    · exact fun _ h => nomatch h
    · exact fun _ _ h => nomatch h
    · exact fun _ h => nomatch h
    · exact fun _ => List.nodup_nil
  have hhistory : History m₀ m₀ [] [] := by
    refine ⟨?_, ?_, ?_, ?_, ?_⟩
    · exact fun _ _ h => nomatch h
    · exact fun o ho => .inl (ho.resolve_right fun h => nomatch h)
    · exact fun _ h => nomatch h
    · exact fun _ _ h => nomatch h
    · exact fun x₀ hx₀ x hx heq => .inl (by rw [eq_of_object hm.distinct hx hx₀ heq])
  rw [start]
  cases hempty : m₀.idles.isEmpty with
  | true =>
    rw [dispatch_of_isEmpty hempty]
    refine ⟨{ hm.objects with }, (hstamps.start 0).tail, { hhistory with }, Nat.le_refl _, ?_⟩
    rw [Bottom]
    dsimp only [List.getLast?_nil]
    rw [next, tick, List.isEmpty_iff.mp hempty]
    rfl
  | false =>
    rw [dispatch_of_not_isEmpty hempty]
    exact ⟨{ hm.objects with }, hstamps.start _, { hhistory with }, Nat.le_refl _, rfl⟩

theorem Inv.dispatched (hstamp : ∀ x ∈ m₀.idles, x.dispatchId ≠ m₀.dispatchTimes + 1)
    (h : Inv m₀ s) (hstack : s.stack = []) : Dispatched m₀ s := by
  have hobjects := h.objects
  have hbottom := h.bottom
  rw [hstack] at hobjects
  rw [Bottom, hstack] at hbottom
  have hwf := Objects.wf hobjects
  refine ⟨h.stamps.once, ?_, h.history.gone, ?_, hwf⟩
  · intro x hx hremoved
    obtain hin | hin | ⟨r, hr, -⟩ := h.history.kept x.object (.inl (List.mem_map_of_mem hx))
    · obtain ⟨y, hy, heq⟩ := mem_objects.mp hin
      obtain hsame | ⟨d, hd⟩ := h.history.stamped x hx y hy heq
      · -- The outermost dispatch would have called it.
        have hnot := List.find?_eq_none.mp hbottom y hy
        rw [IdleInfo.isAvailable, hwf.free y hy, hsame] at hnot
        simp [hstamp x hx] at hnot
      · exact ⟨d, heq ▸ hd⟩
    · exact absurd hin hremoved
    · exact h.history.answered _ r hr
  · intro o ho hremoved hrepeat
    obtain hin | hin | ⟨r, hlog, hr⟩ := h.history.kept o ho
    · exact hin
    · exact absurd hin hremoved
    · exact absurd (hrepeat r hlog) hr

/-- A dispatch whose states fit ends, and each idle is called and removed as its handler says. -/
theorem dispatch_correct (handlers : IdleInfo F → IdleProg W F) {m : IdleManager F} (w : W)
    (hm : m.Wf) (hstamp : ∀ x ∈ m.idles, x.dispatchId ≠ m.dispatchTimes + 1)
    (hadds : ∃ n, ∀ s, Reaches (turn handlers) (start m w) s → s.manager.created ≤ n)
    (hfits : ∀ s, Reaches (turn handlers) (start m w) s → s.fits = true) :
    ∃ s, Ends (turn handlers) (start m w) s ∧ Dispatched m s := by
  obtain ⟨n, hn⟩ := hadds
  have hsafe : Safe handlers m n (start m w) :=
    ⟨inv_start hm w, fun t ht => ⟨hfits t ht, hn t ht⟩⟩
  have hends : ∃ t, Reaches (turn handlers) (start m w) t ∧ t.stack = [] := by
    cases hempty : m.idles.isEmpty with
    | true =>
      refine ⟨_, .refl _ _, ?_⟩
      rw [start, dispatch_of_isEmpty hempty]
    | false =>
      have hstack : (start m w).stack = [.dispatching 0 m.tick.dispatchTimes] := by
        rw [start, dispatch_of_not_isEmpty hempty]
      exact hsafe.returns_dispatching hm n hstack (Nat.le_add_right _ _)
  obtain ⟨t, ht, hstack⟩ := hends
  have hdone : turn handlers t = .done t := by rw [turn, hstack]
  exact ⟨t, ⟨t, ht, hdone⟩, (hsafe.reaches hm ht).inv.dispatched hstamp hstack⟩

/-- Two idles. -/
def twoIdles : IdleManager Unit :=
  ((IdleManager.init Unit).create 1 () 0 0).create 2 () 0 0

/-- The first idle starts a dispatch and stays, the second one is done. -/
def nestedOnce (idle : IdleInfo Unit) : IdleProg Unit Unit :=
  if idle.id = 1 then .dispatch (.ret .repeat) else .ret .ok

theorem dispatch_correct_two :
    ∃ s, Ends (turn nestedOnce) (start twoIdles ()) s ∧ Dispatched twoIdles s := by
  have hall : all (turn nestedOnce) (fun s => s.fits && s.manager.created ≤ 2) 20
      (start twoIdles ()) = true := by decide +kernel
  have hreach : ∀ s, Reaches (turn nestedOnce) (start twoIdles ()) s →
      s.fits = true ∧ decide (s.manager.created ≤ 2) = true := by
    intro s hs
    have hboth := all_reaches hall hs
    exact (Bool.and_eq_true _ _).mp hboth
  have hwf : twoIdles.Wf := ⟨by decide, by decide, by decide, by decide⟩
  exact dispatch_correct nestedOnce () hwf (by decide)
    ⟨2, fun s hs => of_decide_eq_true (hreach s hs).2⟩ fun s hs => (hreach s hs).1

/-- Both idles start a dispatch and stay. -/
def nestedAlways (_ : IdleInfo Unit) : IdleProg Unit Unit := .dispatch (.ret .repeat)

/-- The outermost dispatch calls the first idle once more, since the dispatch in the handler of the
second one has overwritten its number. -/
theorem dispatch_repeats :
    ¬ ∃ s, Ends (turn nestedAlways) (start twoIdles ()) s ∧ Dispatched twoIdles s := by
  rintro ⟨s, hends, hdispatched⟩
  have hany : (after (turn nestedAlways) 20 (start twoIdles ())).any (fun t =>
      !decide (t.log.filterMap (IdleEvent.invokedBy 0)).Nodup) = true := by decide +kernel
  cases hafter : after (turn nestedAlways) 20 (start twoIdles ()) with
  | none =>
    rw [hafter] at hany
    cases hany
  | some t =>
    rw [hafter] at hany
    have hnot : ¬ (t.log.filterMap (IdleEvent.invokedBy 0)).Nodup := by simpa using hany
    obtain ⟨u, hu, hdone⟩ := hends.after hafter
    have hprefix := log_prefix hu
    rw [turn_done hdone] at hprefix
    exact hnot ((hdispatched.once 0).sublist ( hprefix.sublist.filterMap (IdleEvent.invokedBy 0)))

end IdleSystem

end Awtk
