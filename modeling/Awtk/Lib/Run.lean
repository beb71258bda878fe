import Mathlib

/-!
# Runs of a transition function

A system is a partial transition function `step : σ → ι → Option σ`.  An action
that is not enabled gives `none`.  `run` replays a list of actions.  `Meets`
says that every step of a run meets a condition on the state before the step.
The invariant rule `run_invariant` turns a fact about one step into a fact
about every state a run reaches.
-/

namespace Runs

open List Option

variable {σ ι : Type*} {step : σ → ι → Option σ} {C : σ → ι → Prop}

/-- Replay a list of actions. -/
def run (step : σ → ι → Option σ) : σ → List ι → Option σ
  | s, [] => some s
  | s, a :: as => (step s a).bind fun s' => run step s' as

/-- Every step of the run from `s` meets `C` in the state before the step. -/
def Meets (step : σ → ι → Option σ) (C : σ → ι → Prop) : σ → List ι → Prop
  | _, [] => True
  | s, a :: as => C s a ∧ ∀ s', step s a = some s' → Meets step C s' as

@[simp] theorem run_nil (s : σ) : run step s [] = some s := rfl

@[simp] theorem run_cons (s : σ) (a : ι) (as : List ι) :
    run step s (a :: as) = (step s a).bind fun s' => run step s' as := rfl

@[simp] theorem meets_nil (s : σ) : Meets step C s [] := trivial

theorem meets_cons {s : σ} {a : ι} {as : List ι} :
    Meets step C s (a :: as) ↔ C s a ∧ ∀ s', step s a = some s' → Meets step C s' as :=
  Iff.rfl

theorem meets_cons_some {s s' : σ} {a : ι} {as : List ι} (h : step s a = some s') :
    Meets step C s (a :: as) ↔ C s a ∧ Meets step C s' as := by
  rw [meets_cons, h]
  simp only [some.injEq, forall_eq']

/-- Whether a run meets a decidable condition can be computed. -/
instance decidableMeets [∀ s a, Decidable (C s a)] :
    ∀ s as, Decidable (Meets step C s as)
  | _, [] => .isTrue trivial
  | s, a :: as =>
    match h : step s a with
    | none => decidable_of_iff (C s a) (by rw [meets_cons, h]; simp)
    | some s' =>
      have := decidableMeets s' as
      decidable_of_iff (C s a ∧ Meets step C s' as) (meets_cons_some h).symm

theorem meets_of_forall {P : ι → Prop} : ∀ {as : List ι} {s : σ}, (∀ a ∈ as, P a) →
    Meets step (fun _ a => P a) s as
  | [], _, _ => trivial
  | a :: _, _, h =>
      ⟨h a mem_cons_self, fun _ _ => meets_of_forall fun b hb => h b (mem_cons_of_mem a hb)⟩

/-- The first part of a run meets what the whole run meets. -/
theorem Meets.initial : ∀ {as bs : List ι} {s : σ}, as <+: bs → Meets step C s bs →
    Meets step C s as
  | [], _, _, _, _ => trivial
  | a :: as, bs, s, hpre, hm => by
    obtain ⟨rest, rfl⟩ := hpre
    exact ⟨hm.1, fun s' hs => (hm.2 s' hs).initial ⟨rest, rfl⟩⟩

theorem run_cons_some {s t : σ} {a : ι} {as : List ι} (h : run step s (a :: as) = some t) :
    ∃ s', step s a = some s' ∧ run step s' as = some t :=
  bind_eq_some_iff.mp h

theorem meets_of_run : ∀ {as : List ι} {s t : σ}, run step s as = some t →
    Meets step (fun s a => (step s a).isSome = true) s as
  | [], _, _, _ => trivial
  | a :: as, s, t, h => by
    obtain ⟨s', hs, hr⟩ := run_cons_some h
    exact (meets_cons_some hs).mpr ⟨isSome_iff_exists.mpr ⟨s', hs⟩, meets_of_run hr⟩

theorem run_invariant {I : σ → Prop}
    (hstep : ∀ s a s', I s → C s a → step s a = some s' → I s') :
    ∀ {as : List ι} {s t : σ}, I s → Meets step C s as → run step s as = some t → I t
  | [], s, t, hI, _, h => by
    rw [run_nil, some.injEq] at h
    exact h ▸ hI
  | a :: as, s, t, hI, hm, h => by
    obtain ⟨s', hs, hr⟩ := run_cons_some h
    exact run_invariant hstep (hstep s a s' hI hm.1 hs) (hm.2 s' hs) hr

theorem run_invariant' {I : σ → Prop} (hstep : ∀ s a s', I s → step s a = some s' → I s') :
    ∀ {as : List ι} {s t : σ}, I s → run step s as = some t → I t
  | [], s, t, hI, h => by
    rw [run_nil, some.injEq] at h
    exact h ▸ hI
  | a :: as, s, t, hI, h => by
    obtain ⟨s', hs, hr⟩ := run_cons_some h
    exact run_invariant' hstep (hstep s a s' hI hs) hr

theorem run_progress {I : σ → Prop}
    (hstep : ∀ s a, I s → C s a → ∃ s', step s a = some s' ∧ I s') :
    ∀ {as : List ι} {s : σ}, I s → Meets step C s as → ∃ t, run step s as = some t ∧ I t
  | [], s, hI, _ => ⟨s, rfl, hI⟩
  | a :: as, s, hI, hm => by
    obtain ⟨s', hs, hI'⟩ := hstep s a hI hm.1
    obtain ⟨t, ht, hIt⟩ := run_progress hstep hI' (hm.2 s' hs)
    exact ⟨t, by rw [run_cons, hs, bind_some, ht], hIt⟩

theorem Meets.imp_invariant {I : σ → Prop} {D : σ → ι → Prop}
    (hstep : ∀ s a, I s → C s a → ∃ s', step s a = some s' ∧ I s')
    (himp : ∀ s a, I s → C s a → D s a) :
    ∀ {as : List ι} {s : σ}, I s → Meets step C s as → Meets step D s as
  | [], _, _, _ => trivial
  | a :: as, s, hI, hm => by
    obtain ⟨s', hs, hI'⟩ := hstep s a hI hm.1
    exact (meets_cons_some hs).mpr
      ⟨himp s a hI hm.1, Meets.imp_invariant hstep himp hI' (hm.2 s' hs)⟩

theorem meets_enabled {I : σ → Prop}
    (hstep : ∀ s a, I s → C s a → ∃ s', step s a = some s' ∧ I s') {as : List ι} {s : σ} (hI : I s)
    (hm : Meets step C s as) : Meets step (fun s a => ∃ s', step s a = some s' ∧ I s') s as :=
  hm.imp_invariant hstep hstep hI

theorem meets_reachable {I : σ → Prop}
    (hstep : ∀ s a, I s → C s a → ∃ s', step s a = some s' ∧ I s') {as : List ι} {s : σ}
    (hI : I s) (hm : Meets step C s as) : ∀ pre, pre <+: as → ∃ t, run step s pre = some t ∧ I t :=
  fun _ hpre => run_progress hstep hI (hm.initial hpre)

theorem forall_initial_iff_meets {I G : σ → Prop} {D : σ → ι → Prop}
    (hstep : ∀ s a, I s → C s a → ∃ s', step s a = some s' ∧ I s' ∧ (G s → (G s' ↔ D s a))) :
    ∀ {as : List ι} {s : σ}, I s → G s → Meets step C s as →
      ((∀ pre, pre <+: as → ∀ t, run step s pre = some t → G t) ↔ Meets step D s as)
  | [], s, _, hG, _ => by
    refine iff_of_true (fun pre hpre t ht => ?_) trivial
    rw [prefix_nil.mp hpre, run_nil, some.injEq] at ht
    exact ht ▸ hG
  | a :: as, s, hI, hG, hm => by
    obtain ⟨s', hs, hI', hiff⟩ := hstep s a hI hm.1
    have hm' := hm.2 s' hs
    rw [meets_cons_some hs]
    constructor
    · intro h
      have hG' : G s' := h [a] ⟨as, rfl⟩ s' (by rw [run_cons, hs, bind_some, run_nil])
      refine ⟨(hiff hG).mp hG', (forall_initial_iff_meets hstep hI' hG' hm').mp ?_⟩
      intro pre hpre t ht
      refine h (a :: pre) (cons_prefix_cons.mpr ⟨rfl, hpre⟩) t ?_
      rw [run_cons, hs, bind_some, ht]
    · rintro ⟨hD, hrest⟩ pre hpre t ht
      have hG' : G s' := (hiff hG).mpr hD
      cases pre with
      | nil =>
        rw [run_nil, some.injEq] at ht
        exact ht ▸ hG
      | cons b pre =>
        obtain ⟨rfl, htail⟩ := cons_prefix_cons.mp hpre
        rw [run_cons, hs, bind_some] at ht
        exact (forall_initial_iff_meets hstep hI' hG' hm').mpr hrest pre htail t ht

theorem forall_initial_iff_meets_of_lost {I G : σ → Prop} {D : σ → ι → Prop}
    (hstep : ∀ s a, I s → ∃ s', step s a = some s' ∧ (G s' ↔ D s a) ∧ (D s a → I s')) :
    ∀ {as : List ι} {s : σ}, I s → G s →
      ((∀ pre, pre <+: as → ∀ t, run step s pre = some t → G t) ↔ Meets step D s as)
  | [], s, _, hG => by
    refine iff_of_true (fun pre hpre t ht => ?_) trivial
    rw [prefix_nil.mp hpre, run_nil, some.injEq] at ht
    exact ht ▸ hG
  | a :: as, s, hI, hG => by
    obtain ⟨s', hs, hiff, hkeep⟩ := hstep s a hI
    rw [meets_cons_some hs]
    constructor
    · intro h
      have hG' : G s' := h [a] ⟨as, rfl⟩ s' (by rw [run_cons, hs, bind_some, run_nil])
      have hD := hiff.mp hG'
      refine ⟨hD, (forall_initial_iff_meets_of_lost hstep (hkeep hD) hG').mp ?_⟩
      intro pre hpre t ht
      refine h (a :: pre) (cons_prefix_cons.mpr ⟨rfl, hpre⟩) t ?_
      rw [run_cons, hs, bind_some, ht]
    · rintro ⟨hD, hrest⟩ pre hpre t ht
      cases pre with
      | nil =>
        rw [run_nil, some.injEq] at ht
        exact ht ▸ hG
      | cons b pre =>
        obtain ⟨rfl, htail⟩ := cons_prefix_cons.mp hpre
        rw [run_cons, hs, bind_some] at ht
        exact (forall_initial_iff_meets_of_lost hstep (hkeep hD) (hiff.mpr hD)).mpr hrest
          pre htail t ht

theorem meets_congr {I : σ → Prop} {P : ι → Prop} {D : σ → ι → Prop}
    (hkeep : ∀ s a s', I s → P a → step s a = some s' → I s')
    (hiff : ∀ s a, I s → P a → (C s a ↔ D s a)) :
    ∀ {as : List ι} {s : σ}, I s → (∀ a ∈ as, P a) → (Meets step C s as ↔ Meets step D s as)
  | [], _, _, _ => Iff.rfl
  | a :: as, s, hI, hP => by
    have ha := hP a mem_cons_self
    have hrest : ∀ s', step s a = some s' → (Meets step C s' as ↔ Meets step D s' as) :=
      fun s' hs => meets_congr hkeep hiff (hkeep s a s' hI ha hs)
        fun b hb => hP b (mem_cons_of_mem a hb)
    rw [meets_cons, meets_cons, hiff s a hI ha]
    exact and_congr_right fun _ => forall₂_congr hrest

/-! ## Two systems -/

/-- The results and the states of the calls of a run. -/
def replies {ρ : Type*} (call : σ → ι → ρ × σ) : σ → List ι → List (ρ × σ)
  | _, [] => []
  | s, a :: as => call s a :: replies call (call s a).2 as

theorem replies_eq_iff {ρ : Type*} {call spec : σ → ι → ρ × σ}
    (h : ∀ s a, call s a = spec s a ↔ C s a) (s : σ) (as : List ι) :
    replies call s as = replies spec s as ↔ Meets (fun s a => some (spec s a).2) C s as := by
  induction as generalizing s with
  | nil => exact iff_of_true rfl trivial
  | cons a as ih =>
    rw [replies, replies, List.cons.injEq, h, meets_cons_some rfl]
    refine and_congr_right fun hC => ?_
    rw [(h s a).mpr hC]
    exact ih _

/-- The results of the calls of a run. -/
def results {ρ : Type*} (call : σ → ι → ρ × σ) : σ → List ι → List ρ
  | _, [] => []
  | s, a :: as => (call s a).1 :: results call (call s a).2 as

/-- The state after the calls of a run. -/
def after {ρ : Type*} (call : σ → ι → ρ × σ) : σ → List ι → σ
  | s, [] => s
  | s, a :: as => after call (call s a).2 as

theorem after_append {ρ : Type*} (call : σ → ι → ρ × σ) (as bs : List ι) : ∀ s : σ,
    after call s (as ++ bs) = after call (after call s as) bs := by
  induction as with
  | nil => exact fun s => rfl
  | cons a as ih => exact fun s => ih _

theorem results_simulation {τ ρ : Type*} {call : σ → ι → ρ × σ} {spec : τ → ι → ρ × τ}
    {D : τ → ι → Prop} {R : σ → τ → Prop}
    (hstep : ∀ s v a, R s v → D v a → (call s a).1 = (spec v a).1 ∧ R (call s a).2 (spec v a).2)
    (as : List ι) : ∀ {s : σ} {v : τ}, R s v → Meets (fun v a => some (spec v a).2) D v as →
      results call s as = results spec v as ∧ R (after call s as) (after spec v as) := by
  induction as with
  | nil => exact fun hR _ => ⟨rfl, hR⟩
  | cons a as ih =>
    intro s v hR hm
    have hcall := hstep s v a hR hm.1
    have hrest := ih hcall.2 (hm.2 _ rfl)
    exact ⟨by rw [results, results, hcall.1, hrest.1], hrest.2⟩

theorem results_eq_iff {τ ρ : Type*} {call : σ → ι → ρ × σ} {spec : τ → ι → ρ × τ}
    {D : τ → ι → Prop} {R : σ → τ → Prop}
    (hstep : ∀ s v a, R s v →
      ((call s a).1 = (spec v a).1 ↔ D v a) ∧ R (call s a).2 (spec v a).2)
    (as : List ι) : ∀ {s : σ} {v : τ}, R s v →
      (results call s as = results spec v as ↔ Meets (fun v a => some (spec v a).2) D v as) := by
  induction as with
  | nil => exact fun _ => iff_of_true rfl trivial
  | cons a as ih =>
    intro s v hR
    have hcall := hstep s v a hR
    rw [results, results, List.cons.injEq, hcall.1, meets_cons_some rfl, ih hcall.2]

/-! ## Calls that may have no result -/

/-- The results of the calls of a run and the state after them, if every call has a result. -/
def outcomes {ρ : Type*} (call : σ → ι → Option (ρ × σ)) : σ → List ι → Option (List ρ × σ)
  | s, [] => some ([], s)
  | s, a :: as => (call s a).bind fun p => (outcomes call p.2 as).map fun t => (p.1 :: t.1, t.2)

theorem outcomes_simulation {τ ρ : Type*} {call : σ → ι → Option (ρ × σ)} {spec : τ → ι → ρ × τ}
    {R : σ → τ → Prop}
    (hstep : ∀ s v a, R s v → ∃ s', call s a = some ((spec v a).1, s') ∧ R s' (spec v a).2)
    (as : List ι) : ∀ {s : σ} {v : τ}, R s v →
      ∃ s', outcomes call s as = some (results spec v as, s') ∧ R s' (after spec v as) := by
  induction as with
  | nil => exact fun {s} {v} hR => ⟨s, rfl, hR⟩
  | cons a as ih =>
    intro s v hR
    obtain ⟨s', hs, hR'⟩ := hstep s v a hR
    obtain ⟨t, ht, hend⟩ := ih hR'
    refine ⟨t, ?_, hend⟩
    rw [outcomes, hs, bind_some, ht]
    rfl

/-! ## Runs with their history -/

/-- The same steps, with the actions that were taken. -/
def record (step : σ → ι → Option σ) (s : σ × List ι) (a : ι) : Option (σ × List ι) :=
  (step s.1 a).map fun s' => (s', s.2 ++ [a])

theorem run_record (s : σ) (l : List ι) : ∀ as : List ι,
    run (record step) (s, l) as = (run step s as).map fun s' => (s', l ++ as)
  | [] => by simp
  | a :: as => by
    rw [run_cons, run_cons, record]
    cases step s a with
    | none => rfl
    | some s' =>
      rw [map_some, bind_some, bind_some, run_record s' _ as,
        append_assoc]
      rfl

theorem meets_record (s : σ) (l : List ι) : ∀ as : List ι,
    Meets (record step) (fun s a => C s.1 a) (s, l) as ↔ Meets step C s as
  | [] => Iff.rfl
  | a :: as => by
    rw [meets_cons, meets_cons, record]
    cases step s a with
    | none => simp
    | some s' => simp [meets_record s' _ as]

end Runs
