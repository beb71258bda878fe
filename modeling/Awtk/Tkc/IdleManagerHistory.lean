import Awtk.Tkc.IdleManagerSteps

/-!
# What the turns of a dispatch keep

`Inv` relates the manager, the stack and the log.  A turn keeps it if the state
`fits` (`Inv.next`).  There the three ways to go wrong are left out: a dispatch
calls the handler of an idle that a dispatch around it has called, a handler is
done and another idle has its id, or there are so many idles that no id is
free.
-/

namespace Awtk

open List

variable {W F : Type}

/-! ## Frames -/

/-- The idle whose handler runs. -/
def IdleFrame.idle? : IdleFrame W F → Option (IdleInfo F)
  | dispatching _ _ => none
  | handling idle _ => some idle

/-- The dispatch that runs. -/
def IdleFrame.dispatch? : IdleFrame W F → Option (Nat × UInt32)
  | dispatching d times => some (d, times)
  | handling _ _ => none

namespace IdleSystem

/-- The idles whose handlers run. -/
def handled (stack : List (IdleFrame W F)) : List (IdleInfo F) := stack.filterMap IdleFrame.idle?

/-- The dispatches that run. -/
def running (stack : List (IdleFrame W F)) : List (Nat × UInt32) :=
  stack.filterMap IdleFrame.dispatch?

variable {stack rest : List (IdleFrame W F)} {d : Nat} {times : UInt32} {idle : IdleInfo F}
  {prog : IdleProg W F}

@[simp] theorem handled_dispatching :
    handled (.dispatching d times :: rest) = handled rest := rfl

@[simp] theorem handled_handling :
    handled (.handling idle prog :: rest) = idle :: handled rest := rfl

@[simp] theorem running_dispatching :
    running (.dispatching d times :: rest) = (d, times) :: running rest := rfl

@[simp] theorem running_handling :
    running (.handling idle prog :: rest) = running rest := rfl

/-- What has to hold before a turn.  An idle that is called does not have the number of another
dispatch that runs.  No other idle has the id of one that is done.  There are not so many idles when
one is added. -/
def fits (s : IdleSystem W F) : Bool :=
  match s.stack with
  | .dispatching _ times :: rest =>
    match s.manager.next times with
    | none => true
    | some idle => (running rest).all fun d => d.2 ≠ idle.dispatchId
  | .handling idle (.ret r) :: _ =>
    r = .repeat || s.manager.idles.all fun x => x.id ≠ idle.id || x.object = idle.object
  | .handling _ (.call c _) :: _ => !c.isAdd || s.manager.idles.length < 2 ^ 32 - 1
  | _ => true

/-! ## Turns -/

/-- What a turn can do. -/
inductive Stepped (handlers : IdleInfo F → IdleProg W F) (s : IdleSystem W F) :
    IdleSystem W F → Prop
  | finish {d : Nat} {times : UInt32} {rest : List (IdleFrame W F)}
      (hstack : s.stack = .dispatching d times :: rest) (hnext : s.manager.next times = none) :
      Stepped handlers s { s with stack := rest }
  | invoke {d : Nat} {times : UInt32} {rest : List (IdleFrame W F)} {idle : IdleInfo F}
      (hstack : s.stack = .dispatching d times :: rest)
      (hnext : s.manager.next times = some idle) :
      Stepped handlers s { s with
        manager := s.manager.update idle.object (IdleInfo.begin times)
        stack := .handling (idle.begin times) (handlers (idle.begin times)) ::
          .dispatching d times :: rest
        log := s.log ++ [.invoked d idle.object] }
  | answer {idle : IdleInfo F} {r : Ret} {rest : List (IdleFrame W F)}
      (hstack : s.stack = .handling idle (.ret r) :: rest) :
      Stepped handlers s { s with
        manager := s.manager.answer idle r, stack := rest
        log := s.log ++ [.returned idle.object r] }
  | call {idle : IdleInfo F} {c : IdleCall F} {k : IdleReply → IdleProg W F}
      {rest : List (IdleFrame W F)} {reply : IdleReply} {m : IdleManager F}
      (hstack : s.stack = .handling idle (.call c k) :: rest)
      (happly : c.apply s.manager = some (reply, m)) :
      Stepped handlers s { s with
        manager := m, stack := .handling idle (k reply) :: rest
        log := s.log ++ s.manager.changes m }
  | hang {idle : IdleInfo F} {c : IdleCall F} {k : IdleReply → IdleProg W F}
      {rest : List (IdleFrame W F)} (hstack : s.stack = .handling idle (.call c k) :: rest)
      (happly : c.apply s.manager = none) : Stepped handlers s s
  | go {idle : IdleInfo F} {prog prog' : IdleProg W F} {rest : List (IdleFrame W F)} {w : W}
      (hstack : s.stack = .handling idle prog :: rest) :
      Stepped handlers s { s with world := w, stack := .handling idle prog' :: rest }
  | dispatch {idle : IdleInfo F} {prog prog' : IdleProg W F} {rest : List (IdleFrame W F)}
      (hstack : s.stack = .handling idle prog :: rest) :
      Stepped handlers s (dispatch { s with stack := .handling idle prog' :: rest })

theorem stepped {handlers : IdleInfo F → IdleProg W F} {s s' : IdleSystem W F}
    (h : turn handlers s = .next s') : Stepped handlers s s' := by
  unfold turn at h
  split at h
  · cases h
  · rename_i d times rest hstack
    split at h
    · rename_i hnext
      cases h
      exact .finish hstack hnext
    · rename_i idle hnext
      cases h
      exact .invoke hstack hnext
  · rename_i idle prog rest hstack
    split at h
    · cases h
      exact .answer hstack
    · split at h
      · rename_i happly
        cases h
        exact .hang hstack happly
      · rename_i reply m happly
        cases h
        exact .call hstack happly
    · cases h
      exact .go hstack
    · cases h
      exact .go hstack
    · cases h
      exact .dispatch hstack

end IdleSystem

/-! ## Stamps -/

/-- The idle that is called, if it is a call of the dispatch. -/
def IdleEvent.invokedBy (d : Nat) : IdleEvent → Option Nat
  | invoked d' object => if d' = d then some object else none
  | _ => none

theorem IdleEvent.mem_invokedBy {d o : Nat} {log : List IdleEvent} :
    o ∈ log.filterMap (invokedBy d) ↔ .invoked d o ∈ log := by
  rw [mem_filterMap]
  constructor
  · rintro ⟨e, he, ho⟩
    cases e with
    | invoked d' o' =>
      rw [invokedBy] at ho
      split_ifs at ho with hd
      cases ho
      exact hd ▸ he
    | returned o' r => cases ho
    | added o' => cases ho
    | removed o' => cases ho
  · intro h
    exact ⟨_, h, if_pos rfl⟩

namespace IdleManager

variable {m m' m₀ : IdleManager F} {idle x : IdleInfo F} {hs : List (IdleInfo F)}
  {rs rs' : List (Nat × UInt32)} {d n : Nat} {times : UInt32} {log es : List IdleEvent} {r : Ret}

/-- The idles that a dispatch has called and that are still listed bear its number, and it has
called each idle once. -/
structure Stamps (m : IdleManager F) (rs : List (Nat × UInt32)) (n : Nat) (log : List IdleEvent) :
    Prop where
  distinct : (rs.map Prod.fst).Nodup
  started : ∀ d ∈ rs, d.1 < n
  logged : ∀ d o, .invoked d o ∈ log → d < n ∧ o < m.created
  stamp : ∀ d ∈ rs, ∀ x ∈ m.idles, .invoked d.1 x.object ∈ log → x.dispatchId = d.2
  once : ∀ d, (log.filterMap (IdleEvent.invokedBy d)).Nodup

namespace Stamps

/-- A turn that calls no idle. -/
theorem kept (h : Stamps m rs n log) (hkept : Kept m m') (hrs : rs'.Sublist rs)
    (hes : ∀ d o, .invoked d o ∉ es) : Stamps m' rs' n (log ++ es) := by
  have hmem : ∀ d o, .invoked d o ∈ log ++ es → .invoked d o ∈ log := fun d o hlog =>
    (mem_append.mp hlog).resolve_right (hes d o)
  refine ⟨h.distinct.sublist (hrs.map _), fun d hd => h.started d (hrs.subset hd), ?_, ?_, ?_⟩
  · intro d o hlog
    obtain ⟨hd, ho⟩ := h.logged d o (hmem d o hlog)
    exact ⟨hd, Nat.lt_of_lt_of_le ho hkept.1⟩
  · intro d hd x hx hlog
    obtain ⟨y, hy, hobject, -, hstamp⟩ | hnew := hkept.2 x hx
    · rw [← hstamp]
      exact h.stamp d (hrs.subset hd) y hy (hobject ▸ hmem _ _ hlog)
    · exact absurd (hnew ▸ (h.logged _ _ (hmem _ _ hlog)).2) (Nat.lt_irrefl _)
  · intro d
    have hnone : es.filterMap (IdleEvent.invokedBy d) = [] := by
      rw [eq_nil_iff_forall_not_mem]
      exact fun o ho => hes d o (IdleEvent.mem_invokedBy.mp ho)
    rw [filterMap_append, hnone, append_nil]
    exact h.once d

/-- A dispatch calls an idle. -/
theorem begin (h : Stamps m ((d, times) :: rs) n log) (hm : m.objects.Nodup)
    (hcreated : ∀ o ∈ m.objects, o < m.created)
    (hidle : idle ∈ m.idles) (havailable : idle.dispatchId ≠ times)
    (hfits : ∀ r ∈ rs, r.2 ≠ idle.dispatchId) :
    Stamps (m.update idle.object (IdleInfo.begin times)) ((d, times) :: rs) n
      (log ++ [.invoked d idle.object]) := by
  have hcases : ∀ d' o, .invoked d' o ∈ log ++ [.invoked d idle.object] →
      .invoked d' o ∈ log ∨ (d' = d ∧ o = idle.object) := by
    intro d' o hlog
    refine (mem_append.mp hlog).imp_right fun hnew => ?_
    cases mem_singleton.mp hnew
    exact ⟨rfl, rfl⟩
  obtain ⟨hnot, hdistinct⟩ := nodup_cons.mp h.distinct
  -- The dispatch has not called this idle before.
  have hfresh : .invoked d idle.object ∉ log := fun hlog =>
    havailable (h.stamp (d, times) mem_cons_self idle hidle hlog)
  refine ⟨h.distinct, h.started, ?_, ?_, ?_⟩
  · intro d' o hlog
    obtain hlog | ⟨rfl, rfl⟩ := hcases d' o hlog
    · exact h.logged d' o hlog
    · exact ⟨h.started (d', times) mem_cons_self, hcreated _ (List.mem_map_of_mem hidle)⟩
  · intro d' hd' x hx hlog
    obtain ⟨y, hy, rfl⟩ := mem_update.mp hx
    by_cases heq : y.object = idle.object
    · have hyidle := eq_of_object hm hy hidle heq
      rw [if_pos heq] at hlog ⊢
      rcases mem_cons.mp hd' with rfl | hd'
      · rfl
      · -- An idle that a dispatch around this one has called is not called.
        obtain hlog | ⟨hd, -⟩ := hcases _ _ hlog
        · have hstamp := h.stamp d' (mem_cons_of_mem _ hd') y hy hlog
          exact absurd (hyidle ▸ hstamp).symm (hfits d' hd')
        · have hmem : d'.1 ∈ rs.map Prod.fst := List.mem_map_of_mem hd'
          exact absurd (hd ▸ hmem) hnot
    · rw [if_neg heq] at hlog ⊢
      obtain hlog | ⟨-, ho⟩ := hcases _ _ hlog
      · exact h.stamp d' hd' y hy hlog
      · exact absurd ho heq
  · intro d'
    rw [filterMap_append]
    by_cases hd : d = d'
    · subst hd
      have hone : [IdleEvent.invoked d idle.object].filterMap (IdleEvent.invokedBy d) =
          [idle.object] := by
        simp [IdleEvent.invokedBy]
      rw [hone, ← concat_eq_append]
      exact (nodup_concat _ _).mpr ⟨fun h => hfresh (IdleEvent.mem_invokedBy.mp h), h.once d⟩
    · have hnone : [IdleEvent.invoked d idle.object].filterMap (IdleEvent.invokedBy d') = [] := by
        simp [IdleEvent.invokedBy, hd]
      rw [hnone, append_nil]
      exact h.once d'

/-- A dispatch starts. -/
theorem start (h : Stamps m rs n log) (times : UInt32) :
    Stamps m.tick ((n, times) :: rs) (n + 1) log := by
  refine ⟨?_, ?_, ?_, ?_, h.once⟩
  · refine nodup_cons.mpr ⟨fun hmem => ?_, h.distinct⟩
    obtain ⟨d, hd, heq⟩ := List.mem_map.mp hmem
    exact Nat.ne_of_lt (h.started d hd) heq
  · intro d hd
    rcases mem_cons.mp hd with rfl | hd
    · exact Nat.lt_succ_self _
    · exact Nat.lt_succ_of_lt (h.started d hd)
  · intro d o hlog
    obtain ⟨hd, ho⟩ := h.logged d o hlog
    exact ⟨Nat.lt_succ_of_lt hd, ho⟩
  · intro d hd x hx hlog
    rcases mem_cons.mp hd with rfl | hd
    · exact absurd (h.logged _ _ hlog).1 (Nat.lt_irrefl _)
    · exact h.stamp d hd x hx hlog

theorem tail (h : Stamps m ((d, times) :: rs) n log) : Stamps m rs n log where
  distinct := (nodup_cons.mp h.distinct).2
  started := fun d hd => h.started d (mem_cons_of_mem _ hd)
  logged := h.logged
  stamp := fun d hd => h.stamp d (mem_cons_of_mem _ hd)
  once := h.once

end Stamps

/-! ## What the log tells -/

/-- The log tells what became of the idles that were listed at first in `m₀`, or added since. -/
structure History (m₀ m : IdleManager F) (hs : List (IdleInfo F)) (log : List IdleEvent) :
    Prop where
  gone : ∀ o r, .returned o r ∈ log → r ≠ .repeat → o ∉ m.objects
  kept : ∀ o, o ∈ m₀.objects ∨ .added o ∈ log →
    o ∈ m.objects ∨ .removed o ∈ log ∨ ∃ r, .returned o r ∈ log ∧ r ≠ .repeat
  called : ∀ h ∈ hs, ∃ d, .invoked d h.object ∈ log
  answered : ∀ o r, .returned o r ∈ log → ∃ d, .invoked d o ∈ log
  stamped : ∀ x₀ ∈ m₀.idles, ∀ x ∈ m.idles, x.object = x₀.object →
    x.dispatchId = x₀.dispatchId ∨ ∃ d, .invoked d x.object ∈ log

theorem mem_changes {e : IdleEvent} : e ∈ m.changes m' ↔
    (∃ o, (o ∈ m.objects ∧ o ∉ m'.objects) ∧ .removed o = e) ∨
      ∃ o, (o ∈ m'.objects ∧ o ∉ m.objects) ∧ .added o = e := by
  simp [changes]

namespace History

theorem call (h : History m₀ m hs log) (hold : ∀ o ∈ m₀.objects, o < m.created)
    (hlogged : ∀ d o, .invoked d o ∈ log → o < m.created) (hkept : Kept m m') :
    History m₀ m' hs (log ++ m.changes m') := by
  have hreturned : ∀ o r, .returned o r ∈ log ++ m.changes m' → .returned o r ∈ log := by
    intro o r hlog
    refine (mem_append.mp hlog).resolve_right fun hnew => ?_
    obtain ⟨_, -, heq⟩ | ⟨_, -, heq⟩ := mem_changes.mp hnew
    · cases heq
    · cases heq
  refine ⟨?_, ?_, ?_, ?_, ?_⟩
  · intro o r hlog hr hmem
    have hlog := hreturned o r hlog
    obtain ⟨x, hx, rfl⟩ := mem_objects.mp hmem
    obtain ⟨y, hy, hobject, -⟩ | hnew := hkept.2 x hx
    · exact h.gone _ r hlog hr (hobject ▸ List.mem_map_of_mem hy)
    · obtain ⟨d, hd⟩ := h.answered _ r hlog
      exact Nat.ne_of_lt (hlogged d _ hd) hnew
  · intro o ho
    by_cases hmem : o ∈ m'.objects
    · exact .inl hmem
    · have hbefore : o ∈ m₀.objects ∨ .added o ∈ log := by
        refine ho.imp_right fun hlog => (mem_append.mp hlog).resolve_right fun hnew => ?_
        obtain ⟨_, -, heq⟩ | ⟨_, ⟨hin, -⟩, heq⟩ := mem_changes.mp hnew
        · cases heq
        · cases heq
          exact hmem hin
      obtain hin | hremoved | ⟨r, hlog, hr⟩ := h.kept o hbefore
      · refine .inr (.inl (mem_append_right _ (mem_changes.mpr (.inl ⟨o, ⟨hin, hmem⟩, rfl⟩))))
      · exact .inr (.inl (mem_append_left _ hremoved))
      · exact .inr (.inr ⟨r, mem_append_left _ hlog, hr⟩)
  · intro y hy
    obtain ⟨d, hd⟩ := h.called y hy
    exact ⟨d, mem_append_left _ hd⟩
  · intro o r hlog
    obtain ⟨d, hd⟩ := h.answered o r (hreturned o r hlog)
    exact ⟨d, mem_append_left _ hd⟩
  · intro x₀ hx₀ x hx heq
    obtain ⟨y, hy, hobject, -, hstamp⟩ | hnew := hkept.2 x hx
    · rw [← hstamp, ← hobject]
      refine (h.stamped x₀ hx₀ y hy (hobject.trans heq)).imp_right ?_
      rintro ⟨d, hd⟩
      exact ⟨d, mem_append_left _ hd⟩
    · have hlt := hold x₀.object (List.mem_map_of_mem hx₀)
      exact absurd (heq.symm.trans hnew) (Nat.ne_of_lt hlt)

theorem begin (h : History m₀ m hs log) (d : Nat) (idle : IdleInfo F) (times : UInt32) :
    History m₀ (m.update idle.object (IdleInfo.begin times)) (idle.begin times :: hs)
      (log ++ [.invoked d idle.object]) := by
  have hobjects : (m.update idle.object (IdleInfo.begin times)).objects = m.objects :=
    objects_update fun _ => rfl
  have hcalled : .invoked d idle.object ∈ log ++ [.invoked d idle.object] :=
    mem_append_right _ (mem_singleton_self _)
  have hreturned : ∀ o r, .returned o r ∈ log ++ [.invoked d idle.object] →
      .returned o r ∈ log := by
    intro o r hlog
    refine (mem_append.mp hlog).resolve_right fun hnew => ?_
    cases mem_singleton.mp hnew
  refine ⟨?_, ?_, ?_, ?_, ?_⟩
  · intro o r hlog
    rw [hobjects]
    exact h.gone o r (hreturned o r hlog)
  · intro o ho
    have hbefore : o ∈ m₀.objects ∨ .added o ∈ log := by
      refine ho.imp_right fun hlog => (mem_append.mp hlog).resolve_right fun hnew => ?_
      cases mem_singleton.mp hnew
    rw [hobjects]
    refine (h.kept o hbefore).imp_right (Or.imp (mem_append_left _) ?_)
    rintro ⟨r, hlog, hr⟩
    exact ⟨r, mem_append_left _ hlog, hr⟩
  · intro y hy
    rcases mem_cons.mp hy with rfl | hy
    · exact ⟨d, hcalled⟩
    · obtain ⟨d', hd'⟩ := h.called y hy
      exact ⟨d', mem_append_left _ hd'⟩
  · intro o r hlog
    obtain ⟨d', hd'⟩ := h.answered o r (hreturned o r hlog)
    exact ⟨d', mem_append_left _ hd'⟩
  · intro x₀ hx₀ x hx heq
    obtain ⟨y, hy, rfl⟩ := mem_update.mp hx
    split_ifs at heq ⊢ with hsame
    · refine .inr ⟨d, ?_⟩
      rw [show (y.begin times).object = idle.object from hsame]
      exact hcalled
    · refine (h.stamped x₀ hx₀ y hy heq).imp_right ?_
      rintro ⟨d', hd'⟩
      exact ⟨d', mem_append_left _ hd'⟩

theorem answer (h : History m₀ m (idle :: hs) log) (hobjects : Objects m (idle :: hs)) (r : Ret)
    (hid : r ≠ .repeat → ∀ x ∈ m.idles, x.id = idle.id → x.object = idle.object) :
    History m₀ (m.answer idle r) hs (log ++ [.returned idle.object r]) := by
  have hreturned : .returned idle.object r ∈ log ++ [.returned idle.object r] :=
    mem_append_right _ (mem_singleton_self _)
  have hcases : ∀ o r', .returned o r' ∈ log ++ [.returned idle.object r] →
      .returned o r' ∈ log ∨ (o = idle.object ∧ r' = r) := by
    intro o r' hlog
    refine (mem_append.mp hlog).imp_right fun hnew => ?_
    cases mem_singleton.mp hnew
    exact ⟨rfl, rfl⟩
  obtain ⟨d, hd⟩ := h.called idle mem_cons_self
  refine ⟨?_, ?_, ?_, ?_, ?_⟩
  · intro o r' hlog hr
    obtain hlog | ⟨rfl, rfl⟩ := hcases o r' hlog
    · exact fun hmem => h.gone o r' hlog hr ((objects_answer_sublist m idle r).subset hmem)
    · exact hobjects.not_mem_answer hr (hid hr)
  · intro o ho
    have hbefore : o ∈ m₀.objects ∨ .added o ∈ log := by
      refine ho.imp_right fun hlog => (mem_append.mp hlog).resolve_right fun hnew => ?_
      cases mem_singleton.mp hnew
    obtain hin | hremoved | ⟨r', hlog, hr'⟩ := h.kept o hbefore
    · by_cases hr : r = .repeat
      · refine .inl ?_
        have hsame : (m.update idle.object IdleInfo.finish).objects = m.objects :=
          objects_update fun _ => rfl
        rw [IdleManager.answer, if_neg (not_not.mpr hr), hsame]
        exact hin
      · obtain hin' | ⟨-, rfl⟩ := Objects.mem_answer (r := r) (hid hr) hin
        · exact .inl hin'
        · exact .inr (.inr ⟨r, hreturned, hr⟩)
    · exact .inr (.inl (mem_append_left _ hremoved))
    · exact .inr (.inr ⟨r', mem_append_left _ hlog, hr'⟩)
  · intro y hy
    obtain ⟨d', hd'⟩ := h.called y (mem_cons_of_mem _ hy)
    exact ⟨d', mem_append_left _ hd'⟩
  · intro o r' hlog
    obtain hlog | ⟨rfl, -⟩ := hcases o r' hlog
    · obtain ⟨d', hd'⟩ := h.answered o r' hlog
      exact ⟨d', mem_append_left _ hd'⟩
    · exact ⟨d, mem_append_left _ hd⟩
  · intro x₀ hx₀ x hx heq
    obtain ⟨y, hy, rfl⟩ := mem_update.mp ((sublist_answer m idle r).subset hx)
    have hstamped := h.stamped x₀ hx₀ y hy
    split_ifs at heq ⊢
    · refine (hstamped heq).imp_right ?_
      rintro ⟨d', hd'⟩
      exact ⟨d', mem_append_left _ hd'⟩
    · refine (hstamped heq).imp_right ?_
      rintro ⟨d', hd'⟩
      exact ⟨d', mem_append_left _ hd'⟩

end History

/-- A manager outside of all dispatches. -/
structure Wf (m : IdleManager F) : Prop where
  distinct : m.objects.Nodup
  created : ∀ o ∈ m.objects, o < m.created
  ids : ∀ x ∈ m.idles, x.id ≠ invalidId
  free : ∀ x ∈ m.idles, x.busy = false

theorem Wf.objects (h : Wf m) : Objects m [] where
  distinct := h.distinct
  created := h.created
  ids := h.ids
  busy := fun x hx => by simp [h.free x hx]
  handled := nodup_nil
  handledCreated := fun _ h => nomatch h
  handledIds := fun _ h => nomatch h
  same := fun _ h => nomatch h

theorem Objects.wf (h : Objects m []) : Wf m where
  distinct := h.distinct
  created := h.created
  ids := h.ids
  free := fun x hx => by simpa using h.busy x hx

end IdleManager

/-! ## The invariant -/

namespace IdleSystem

open IdleManager

/-- The outermost dispatch has the number `times`, and when it is done there is no idle left for
it. -/
def Bottom (times : UInt32) (s : IdleSystem W F) : Prop :=
  match s.stack.getLast? with
  | none => s.manager.next times = none
  | some frame => frame.dispatch?.map Prod.snd = some times

variable {m₀ : IdleManager F} {s s' : IdleSystem W F}

theorem Bottom.of_last (h : Bottom times s) (hne : s.stack ≠ [])
    (hlast : s'.stack.getLast? = s.stack.getLast?) : Bottom times s' := by
  rw [Bottom] at h ⊢
  rw [hlast]
  cases hframe : s.stack.getLast? with
  | none => exact absurd (getLast?_eq_none_iff.mp hframe) hne
  | some frame =>
    rw [hframe] at h
    exact h

/-- There is a dispatch below a handler. -/
theorem Bottom.handling (h : Bottom times s) (hstack : s.stack = .handling idle prog :: rest)
    (hlast : rest ≠ [] → s'.stack.getLast? = rest.getLast?) : Bottom times s' := by
  have hne : s.stack ≠ [] := hstack ▸ cons_ne_nil _ _
  cases rest with
  | nil =>
    rw [Bottom, hstack] at h
    cases h
  | cons frame rest =>
    refine h.of_last hne ?_
    rw [hlast (cons_ne_nil frame rest), hstack, getLast?_cons_cons]

theorem Bottom.finish {d : Nat} {t : UInt32} (h : Bottom times s)
    (hstack : s.stack = .dispatching d t :: rest) (hnext : s.manager.next t = none) :
    Bottom times { s with stack := rest } := by
  have hne : s.stack ≠ [] := hstack ▸ cons_ne_nil _ _
  cases rest with
  | nil =>
    rw [Bottom, hstack] at h
    cases h
    exact hnext
  | cons frame rest =>
    refine h.of_last hne ?_
    rw [hstack, getLast?_cons_cons]

theorem Bottom.push {frame : IdleFrame W F} (h : Bottom times s) (hne : s.stack ≠ [])
    (hpush : s'.stack = frame :: s.stack) : Bottom times s' := by
  refine h.of_last hne ?_
  rw [hpush, getLast?_cons_of_ne_nil hne]

/-- What the turns of a dispatch of `m₀` keep. -/
structure Inv (m₀ : IdleManager F) (s : IdleSystem W F) : Prop where
  objects : Objects s.manager (handled s.stack)
  stamps : Stamps s.manager (running s.stack) s.dispatches s.log
  history : History m₀ s.manager (handled s.stack) s.log
  created : m₀.created ≤ s.manager.created
  bottom : Bottom (m₀.dispatchTimes + 1) s

/-- A handler goes on. -/
theorem Inv.go (h : Inv m₀ s) (hstack : s.stack = .handling idle prog :: rest)
    (prog' : IdleProg W F) (w : W) :
    Inv m₀ { s with world := w, stack := .handling idle prog' :: rest } := by
  have hobjects := h.objects
  have hstamps := h.stamps
  have hhistory := h.history
  rw [hstack] at hobjects hstamps hhistory
  refine ⟨hobjects, hstamps, hhistory, h.created, ?_⟩
  exact h.bottom.handling hstack fun hrest => getLast?_cons_of_ne_nil hrest

theorem dispatch_of_isEmpty (h : s.manager.idles.isEmpty = true) :
    s.dispatch = { s with manager := s.manager.tick, dispatches := s.dispatches + 1 } := by
  have hempty : s.manager.tick.idles.isEmpty = true := h
  rw [dispatch]
  simp [hempty]

theorem dispatch_of_not_isEmpty (h : s.manager.idles.isEmpty = false) : s.dispatch = { s with
    manager := s.manager.tick, dispatches := s.dispatches + 1
    stack := .dispatching s.dispatches s.manager.tick.dispatchTimes :: s.stack } := by
  have hempty : s.manager.tick.idles.isEmpty = false := h
  rw [dispatch]
  simp [hempty]

/-- A handler starts a dispatch. -/
theorem Inv.dispatch (h : Inv m₀ s) (hne : s.stack ≠ []) : Inv m₀ s.dispatch := by
  cases hempty : s.manager.idles.isEmpty with
  | true =>
    rw [dispatch_of_isEmpty hempty]
    exact ⟨{ h.objects with }, (h.stamps.start 0).tail, { h.history with }, h.created,
      h.bottom.of_last hne rfl⟩
  | false =>
    rw [dispatch_of_not_isEmpty hempty]
    exact ⟨{ h.objects with }, h.stamps.start _, { h.history with }, h.created,
      h.bottom.push hne rfl⟩

theorem Inv.next {handlers : IdleInfo F → IdleProg W F} (hm₀ : m₀.Wf) (h : Inv m₀ s)
    (hfits : s.fits = true) (hturn : turn handlers s = .next s') : Inv m₀ s' := by
  have hold : ∀ o ∈ m₀.objects, o < s.manager.created := fun o ho =>
    Nat.lt_of_lt_of_le (hm₀.created o ho) h.created
  have hobjects := h.objects
  have hstamps := h.stamps
  have hhistory := h.history
  cases stepped hturn with
  | finish hstack hnext =>
    rw [hstack] at hobjects hstamps hhistory
    exact ⟨hobjects, hstamps.tail, hhistory, h.created, h.bottom.finish hstack hnext⟩
  | @invoke d times rest idle hstack hnext =>
    rw [fits, hstack] at hfits
    rw [hstack] at hobjects hstamps hhistory
    dsimp only at hfits
    rw [hnext] at hfits
    have hidle : idle ∈ s.manager.idles := mem_of_find?_eq_some hnext
    have havailable : idle.busy = false ∧ idle.dispatchId ≠ times := by
      simpa [IdleInfo.isAvailable] using find?_some hnext
    have hne : s.stack ≠ [] := hstack ▸ cons_ne_nil _ _
    refine ⟨hobjects.begin hidle havailable.1 times, ?_, hhistory.begin d idle times, h.created,
      h.bottom.push hne (by rw [hstack])⟩
    exact hstamps.begin hobjects.distinct hobjects.created hidle havailable.2
      fun r hr => by simpa using List.all_eq_true.mp hfits r hr
  | @answer idle r rest hstack =>
    rw [fits, hstack] at hfits
    rw [hstack] at hobjects hstamps hhistory
    have hid : r ≠ .repeat → ∀ x ∈ s.manager.idles, x.id = idle.id → x.object = idle.object := by
      intro hr x hx hid
      have hall := (Bool.or_eq_true _ _).mp hfits
      have hx := List.all_eq_true.mp (hall.resolve_left (by simpa using hr)) x hx
      simpa [hid] using hx
    refine ⟨hobjects.answer r, ?_, hhistory.answer hobjects r hid, ?_,
      h.bottom.handling hstack fun _ => rfl⟩
    · exact hstamps.kept (kept_answer _ idle r) (Sublist.refl _) (by simp)
    · exact (created_answer s.manager idle r).symm ▸ h.created
  | @call idle c k rest reply m hstack happly =>
    have hchanged := IdleCall.changed happly
    rw [hstack] at hobjects hstamps hhistory
    have hnot : ∀ d o, .invoked d o ∉ s.manager.changes m := by
      intro d o hmem
      obtain ⟨_, -, heq⟩ | ⟨_, -, heq⟩ := mem_changes.mp hmem
      · cases heq
      · cases heq
    refine ⟨hobjects.changed hchanged, hstamps.kept hchanged.kept (Sublist.refl _) hnot, ?_,
      Nat.le_trans h.created hchanged.kept.1, ?_⟩
    · exact hhistory.call hold (fun d o hlog => (hstamps.logged d o hlog).2) hchanged.kept
    · exact h.bottom.handling hstack fun hrest => getLast?_cons_of_ne_nil hrest
  | hang hstack happly => exact h
  | go hstack => exact h.go hstack _ _
  | dispatch hstack => exact (h.go hstack _ s.world).dispatch (cons_ne_nil _ _)

end IdleSystem

end Awtk
