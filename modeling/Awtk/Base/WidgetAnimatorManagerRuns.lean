import Awtk.Lib.Run
import Awtk.Base.WidgetAnimatorManagerList

/-!
# Runs of the animator manager

A run is any sequence of calls of the program and of callbacks.  The list has the animators that were
added and not removed, in their order, no other animator knows a manager, and a `time_elapse` ends
and gives each animator one turn (`elapse_tidy`).  This fails after the first animator is removed,
and when an animator is added that still has a link (`add_again_not_tidy`).
-/

namespace Awtk.AnimatorManager

open List Option

open Runs (run Meets)

variable {m m' : AnimatorManager} {a : Nat} {p : Point}

/-! ## Turns -/

/-- The animators of the list that wait for their turn. -/
def waiting (m : AnimatorManager) : List Nat :=
  m.trace.order.filter fun a => (m.animators a).toDispatch

/-- What the turns of a `time_elapse` keep. -/
structure Tracked (m : AnimatorManager) : Prop where
  turned : ∀ a ∈ m.trace.turns, (m.animators a).toDispatch = false
  nodup : m.trace.turns.Nodup
  began : ∀ a ∈ m.trace.began, a ∈ m.trace.turns ∨ a ∈ m.trace.removed ∨ a ∈ m.waiting
  count : m.trace.turns.length + m.waiting.length ≤ m.trace.began.length + m.trace.added

/-- The callbacks of a turn that are to come. -/
def Point.left : Point → Nat
  | .update _ => 3
  | .once => 2
  | .ended => 1

/-- The callbacks of the turn that is running. -/
def callbacksLeft (m : AnimatorManager) : Nat :=
  match m.turn with
  | none => 0
  | some t => t.point.left

/-- The state between two steps of a program. -/
structure Inv (m : AnimatorManager) : Prop where
  links : Links m m.trace.order
  tracked : Tracked m
  returns : m.trace.returns + m.callbacksLeft ≤ 3 * m.trace.turns.length
  ended : m.turn = none → ∀ a ∈ m.trace.began, a ∈ m.trace.turns ∨ a ∈ m.trace.removed
  turn : ∀ t, m.turn = some t → t.animator ≠ 0 ∧ t.animator ∈ m.allocated

theorem Links.other {l : List Nat} (h : Links m l) (turn : Option Turn) (trace : Trace) :
    Links { m with turn := turn, trace := trace } l :=
  ⟨h.path, h.allocated, h.manager, h.update, h.outside⟩

theorem Tracked.other (h : Tracked m) (turn : Option Turn) : Tracked { m with turn := turn } :=
  ⟨h.turned, h.nodup, h.began, h.count⟩

/-! ## What a turn does to an animator -/

theorem elapseOnce_alike (m : AnimatorManager) (a : Nat) :
    Alike m (m.elapseOnce a).2 ∧ ∀ p, (m.elapseOnce a).1 = some p → p.left ≤ 1 := by
  rw [elapseOnce]
  by_cases h : (m.animators a).repeatTimes = 0 ∧ (m.animators a).yoyoTimes = 0
  · simp only [h, and_self, if_true]
    exact ⟨.modify m a rfl, by rintro p ⟨⟩; exact le_rfl⟩
  · simp only [h, if_false]
    exact ⟨.refl m, by rintro p ⟨⟩⟩

theorem elapseUpdate_alike (m : AnimatorManager) (a : Nat) (endTime : UInt32) :
    Alike m (m.elapseUpdate a endTime).2 ∧
      ∀ p, (m.elapseUpdate a endTime).1 = some p → p.left ≤ 2 := by
  rw [elapseUpdate]
  by_cases hend : endTime ≤ (m.animators a).now
  · simp only [hend, if_true]
    by_cases hrepeat : 0 < (m.animators a).repeatTimes
    · simp only [hrepeat, if_true]
      exact ⟨.modify m a rfl, by rintro p ⟨⟩; exact le_rfl⟩
    · simp only [hrepeat, if_false]
      by_cases hyoyo : 0 < (m.animators a).yoyoTimes
      · simp only [hyoyo, if_true]
        exact ⟨.modify m a rfl, by rintro p ⟨⟩; exact le_rfl⟩
      · simp only [hyoyo, if_false]
        obtain ⟨halike, hleft⟩ := elapseOnce_alike m a
        exact ⟨halike, fun p hp => (hleft p hp).trans (by decide)⟩
  · simp only [hend, if_false]
    exact ⟨.refl m, by rintro p ⟨⟩⟩

theorem elapseStart_alike (m : AnimatorManager) (a : Nat) (delta : UInt32) :
    Alike m (m.elapseStart a delta).2 ∧
      ∀ p, (m.elapseStart a delta).1 = some p → p.left ≤ 3 := by
  rw [elapseStart]
  by_cases hstate : (m.animators a).state ≠ .running
  · simp only [hstate, ne_eq, not_false_eq_true, if_true]
    exact ⟨.refl m, by rintro p ⟨⟩⟩
  · simp only [hstate, if_false]
    split
    · refine ⟨?_, by rintro p ⟨⟩⟩
      show Alike m (m.modify a fun b =>
        { b with delayTime := (m.animators a).delayTime - (m.animators a).scale delta })
      exact .modify m a rfl
    · -- The times of the animator are set.
      generalize hb : (if 0 < (m.animators a).delayTime then _ else _ : WidgetAnimator) = b
      have hlinks : links b = links (m.animators a) := by
        rw [← hb]
        split <;> rfl
      have halike : Alike m (m.modify a fun _ => b) := .modify m a hlinks
      split
      · exact ⟨halike, by rintro p ⟨⟩; exact le_rfl⟩
      · obtain ⟨halike', hleft⟩ :=
          elapseUpdate_alike (m.modify a fun _ => b) a (b.startTime + b.duration)
        exact ⟨halike.trans halike', fun p hp => (hleft p hp).trans (by decide)⟩

theorem Alike.waiting (h : Alike m m') : m'.waiting = m.waiting := by
  simp only [AnimatorManager.waiting, h.trace, h.frame.toDispatch]

theorem Alike.tracked (h : Alike m m') (ht : Tracked m) : Tracked m' where
  turned := fun a ha => by rw [h.frame.toDispatch]; exact ht.turned a (h.trace ▸ ha)
  nodup := by rw [h.trace]; exact ht.nodup
  began := by rw [h.waiting, h.trace]; exact ht.began
  count := by rw [h.waiting, h.trace]; exact ht.count

/-! ## The loop over the turns -/

theorem beginTurn_toDispatch (x : Nat) : ((m.beginTurn a).animators x).toDispatch =
    if x = a then false else (m.animators x).toDispatch := by
  by_cases hx : x = a <;> simp [beginTurn, modify, hx]

theorem beginTurn_links {l : List Nat} (h : Links m l) : Links (m.beginTurn a) l := by
  have hsame : ∀ x, ((m.beginTurn a).animators x).next = (m.animators x).next ∧
      ((m.beginTurn a).animators x).manager = (m.animators x).manager ∧
      ((m.beginTurn a).animators x).update = (m.animators x).update := by
    intro x
    by_cases hx : x = a <;> simp [beginTurn, modify, hx]
  constructor
  · exact h.path.congr fun x _ => (hsame x).1
  · exact h.allocated
  · exact fun x hx => by rw [(hsame x).2.1]; exact h.manager x hx
  · exact fun x hx => by rw [(hsame x).2.2]; exact h.update x hx
  · exact fun x hx hu hn => by
      rw [(hsame x).2.1]
      exact h.outside x hx ((hsame x).2.2 ▸ hu) hn

theorem beginTurn_waiting (horder : m.trace.order.Nodup) (ha : a ∈ m.waiting) :
    (m.beginTurn a).waiting.length + 1 ≤ m.waiting.length ∧
      ∀ x ∈ m.waiting, x = a ∨ x ∈ (m.beginTurn a).waiting := by
  have hmem : ∀ x, x ∈ (m.beginTurn a).waiting ↔ x ∈ m.waiting ∧ x ≠ a := by
    intro x
    simp only [waiting, mem_filter, beginTurn_toDispatch]
    by_cases hx : x = a <;> simp [hx, beginTurn]
  constructor
  · have hnodup : (a :: (m.beginTurn a).waiting).Nodup :=
      nodup_cons.mpr ⟨fun h => ((hmem a).mp h).2 rfl, Nodup.filter _ horder⟩
    refine (subperm_of_subset hnodup fun x hx => ?_).length_le
    rcases mem_cons.mp hx with rfl | hx
    · exact ha
    · exact ((hmem x).mp hx).1
  · intro x hx
    by_cases hxa : x = a
    · exact .inl hxa
    · exact .inr ((hmem x).mpr ⟨hx, hxa⟩)

theorem beginTurn_tracked (horder : m.trace.order.Nodup) (h : Tracked m) (ha : a ∈ m.waiting) :
    Tracked (m.beginTurn a) := by
  obtain ⟨hlen, hwaiting⟩ := beginTurn_waiting horder ha
  have hflag : (m.animators a).toDispatch = true := (mem_filter.mp ha).2
  have hnot : a ∉ m.trace.turns := fun hmem => by
    rw [h.turned a hmem] at hflag
    cases hflag
  have hturns : (m.beginTurn a).trace.turns = m.trace.turns ++ [a] := rfl
  constructor
  · intro x hx
    rw [beginTurn_toDispatch]
    split
    · rfl
    · rw [hturns, mem_append, mem_singleton] at hx
      exact h.turned x (hx.resolve_right ‹_›)
  · rw [hturns]
    exact nodup_append_comm.mp (nodup_cons.mpr ⟨hnot, h.nodup⟩)
  · intro x hx
    rw [hturns, mem_append, mem_singleton]
    rcases h.began x hx with hx | hx | hx
    · exact .inl (.inl hx)
    · exact .inr (.inl hx)
    · exact (hwaiting x hx).imp .inr .inr
  · have hcount := h.count
    rw [hturns, length_append, length_singleton]
    show _ ≤ m.trace.began.length + m.trace.added
    omega

/-- The loop ends at a callback or when no animator waits. -/
theorem dispatchLoop_inv (delta : UInt32) : ∀ (fuel : Nat) (m : AnimatorManager),
    Links m m.trace.order → Tracked m → m.trace.returns ≤ 3 * m.trace.turns.length →
      m.waiting.length < fuel → ∃ m', dispatchLoop delta fuel m = some m' ∧ Inv m'
  | fuel + 1, m, h, ht, hreturns, hfuel => by
    rw [dispatchLoop, getToDispatch, h.list, map_some]
    cases hfind : m.trace.order.find? fun iter => (m.animators iter).toDispatch with
    | none =>
      have hwaiting : m.waiting = [] := by
        rw [waiting, filter_eq_nil_iff]
        exact find?_eq_none.mp hfind
      refine ⟨_, rfl, h.other none m.trace, ht.other none, hreturns, fun _ a ha => ?_, by rintro t ⟨⟩⟩
      rcases ht.began a ha with ha | ha | ha
      · exact .inl ha
      · exact .inr ha
      · rw [hwaiting] at ha
        cases ha
    | some iter =>
      have hmem : iter ∈ m.trace.order := mem_of_find?_eq_some hfind
      have hwaits : iter ∈ m.waiting :=
        mem_filter.mpr ⟨hmem, by simpa using find?_some hfind⟩
      have hiter : iter ≠ 0 := h.ne_zero hmem
      have htracked := beginTurn_tracked h.nodup ht hwaits
      obtain ⟨halike, hleft⟩ := elapseStart_alike (m.beginTurn iter) iter delta
      have hlinks : Links ((m.beginTurn iter).elapseStart iter delta).2 m.trace.order :=
        halike.keep (beginTurn_links h)
      have htrace := halike.trace
      have hlen : (m.beginTurn iter).trace.turns.length = m.trace.turns.length + 1 := by
        simp [beginTurn]
      have hwaiting := (beginTurn_waiting h.nodup hwaits).1
      simp only [getD_some, hiter, if_false]
      cases hstart : (m.beginTurn iter).elapseStart iter delta with
      | mk point m₁ =>
        rw [hstart] at halike hleft hlinks htrace
        simp only at halike hleft hlinks htrace
        have horder : m₁.trace.order = m.trace.order := by rw [htrace]; rfl
        have hreturns₁ : m₁.trace.returns = m.trace.returns := by rw [htrace]; rfl
        have hturns₁ : m₁.trace.turns.length = m.trace.turns.length + 1 := by rw [htrace, hlen]
        cases point with
        | none =>
          refine dispatchLoop_inv delta fuel m₁ (horder ▸ hlinks) (halike.tracked htracked) ?_ ?_
          · omega
          · rw [halike.waiting]
            omega
        | some point =>
          have hpoint : point.left ≤ 3 := hleft point rfl
          have hlinks₁ : Links m₁ m₁.trace.order := horder ▸ hlinks
          refine ⟨_, rfl, hlinks₁.other _ m₁.trace, (halike.tracked htracked).other _, ?_,
            by rintro ⟨⟩, ?_⟩
          · show m₁.trace.returns + point.left ≤ 3 * m₁.trace.turns.length
            omega
          · rintro t ⟨⟩
            refine ⟨hiter, ?_⟩
            show iter ∈ m₁.allocated
            rw [halike.allocated]
            exact h.allocated iter hmem

/-! ## Calls -/

theorem order_filter_length (m : AnimatorManager) (c : Call) (f : Nat → Bool) :
    ((c.order m).filter f).length ≤ (m.trace.order.filter f).length + c.adds := by
  have hsub : ∀ {l : List Nat}, l.Sublist m.trace.order →
      (l.filter f).length ≤ (m.trace.order.filter f).length :=
    fun h => (h.filter f).length_le
  cases c with
  | add a =>
    rw [Call.order, filter_append, length_append]
    exact Nat.add_le_add_left (length_filter_le _ _) _
  | remove a => exact hsub erase_sublist
  | removeAll widget name => exact hsub filter_sublist
  | reset => exact hsub (nil_sublist _)
  | destroy a => exact hsub erase_sublist
  | exec widget name action => exact hsub (Sublist.refl _)

theorem call_tracked {c : Call} (ht : Tracked m) (h : Frame (m.note c) m') : Tracked m' := by
  have hwaiting : m'.waiting = (c.order m).filter fun a => (m.animators a).toDispatch := by
    simp only [waiting, h.trace, h.toDispatch]
    rfl
  constructor
  · intro a ha
    rw [h.trace] at ha
    rw [h.toDispatch]
    exact ht.turned a ha
  · rw [h.trace]
    exact ht.nodup
  · intro a ha
    rw [h.trace] at ha
    rw [hwaiting, h.trace]
    rcases ht.began a ha with ha | ha | ha
    · exact .inl ha
    · exact .inr (.inl (mem_append_left _ ha))
    · obtain ⟨hmem, hflag⟩ := mem_filter.mp ha
      by_cases hstays : a ∈ c.order m
      · exact .inr (.inr (mem_filter.mpr ⟨hstays, hflag⟩))
      · exact .inr (.inl (mem_append_right _ (mem_filter.mpr ⟨hmem, by simpa using hstays⟩)))
  · have hcount := ht.count
    have hfilter := order_filter_length m c fun a => (m.animators a).toDispatch
    rw [hwaiting, h.trace]
    show m.trace.turns.length + _ ≤ m.trace.began.length + (m.trace.added + c.adds)
    rw [waiting] at hcount
    omega

theorem call_inv {c : Call} (h : Inv m) (hlegal : c.Legal m) (hok : c.Ok m) :
    ∃ m', m.call c = some m' ∧ Inv m' := by
  obtain ⟨m', hrun, hlinks, hframe⟩ := call_links h.links hlegal hok
  refine ⟨m', hrun, hlinks, call_tracked h.tracked hframe, ?_, ?_, ?_⟩
  · have hreturns := h.returns
    rw [callbacksLeft, hframe.turn, hframe.trace]
    exact hreturns
  · intro hturn a ha
    rw [hframe.turn] at hturn
    rw [hframe.trace] at ha ⊢
    exact (h.ended hturn a ha).imp id (mem_append_left _)
  · intro t ht
    rw [hframe.turn] at ht
    rw [hframe.allocated]
    exact h.turn t ht

/-! ## Steps -/

theorem setToDispatch_spec {l : List Nat} (h : Links m l) : ∃ animators,
    m.setToDispatch = some { m with animators := animators } ∧
      Links { m with animators := animators } l ∧ ∀ a ∈ l, (animators a).toDispatch := by
  have hloop := foldl_animators (g := fun a => { a with toDispatch := true }) (fun _ => rfl) l m
  obtain ⟨animators, hm⟩ := foldl_modify (fun a => { a with toDispatch := true }) l m
  rw [hm] at hloop
  simp only at hloop
  have hsame : ∀ a, (animators a).next = (m.animators a).next ∧
      (animators a).manager = (m.animators a).manager ∧
      (animators a).update = (m.animators a).update := by
    intro a
    rw [hloop]
    split <;> exact ⟨rfl, rfl, rfl⟩
  refine ⟨animators, by rw [setToDispatch, h.list, map_some, hm], ?_, fun a ha => ?_⟩
  · constructor
    · exact h.path.congr fun a _ => (hsame a).1
    · exact h.allocated
    · exact fun a ha => by rw [(hsame a).2.1]; exact h.manager a ha
    · exact fun a ha => by rw [(hsame a).2.2]; exact h.update a ha
    · exact fun a ha hu hn => by
        rw [(hsame a).2.1]
        exact h.outside a ha ((hsame a).2.2 ▸ hu) hn
  · rw [hloop, if_pos ha]

theorem timeElapse_inv (h : Inv m) (hturn : m.turn = none) (delta : UInt32) :
    ∃ m', m.timeElapse delta = some m' ∧ Inv m' := by
  obtain ⟨animators, hset, hlinks, hflag⟩ := setToDispatch_spec h.links
  let m₁ : AnimatorManager := { m with
    animators := animators, trace := ⟨m.trace.order, m.trace.order, [], [], 0, 0⟩ }
  have hwaiting : m₁.waiting = m.trace.order := filter_eq_self.mpr hflag
  have htracked : Tracked m₁ := by
    refine ⟨fun _ ha => absurd ha not_mem_nil, nodup_nil, fun a ha => ?_, ?_⟩
    · rw [hwaiting]
      exact .inr (.inr ha)
    · rw [hwaiting]
      show 0 + m.trace.order.length ≤ m.trace.order.length + 0
      omega
  rw [timeElapse, hturn]
  simp only [hset]
  refine dispatchLoop_inv delta _ m₁ (hlinks.other m.turn m₁.trace) htracked (Nat.zero_le _) ?_
  rw [hwaiting]
  exact Nat.lt_succ_of_le h.links.length_le

theorem Tracked.waiting_le (h : Links m m.trace.order) :
    m.waiting.length < m.allocated.length + 1 :=
  Nat.lt_succ_of_le ((length_filter_le _ _).trans h.length_le)

theorem resume_inv (delta : UInt32) (hlinks : Links m m.trace.order) (ht : Tracked m) (ha : a ≠ 0)
    (hal : a ∈ m.allocated) (point : Option Point)
    (hreturns : m.trace.returns + (point.map Point.left).getD 0 ≤ 3 * m.trace.turns.length) :
    ∃ m', resume a delta (point, m) = some m' ∧ Inv m' := by
  cases point with
  | none => exact dispatchLoop_inv delta _ m hlinks ht hreturns (Tracked.waiting_le hlinks)
  | some point =>
    refine ⟨_, rfl, hlinks.other _ m.trace, ht.other _, hreturns, by rintro ⟨⟩, ?_⟩
    rintro t ⟨⟩
    exact ⟨ha, hal⟩

theorem resume_alike (delta : UInt32) (hlinks : Links m m.trace.order) (ht : Tracked m) (ha : a ≠ 0)
    (hal : a ∈ m.allocated) {res : Option Point × AnimatorManager} {n : Nat}
    (h : Alike m res.2 ∧ ∀ p, res.1 = some p → p.left ≤ n)
    (hreturns : m.trace.returns + n ≤ 3 * m.trace.turns.length) :
    ∃ m', resume a delta res = some m' ∧ Inv m' := by
  obtain ⟨point, m'⟩ := res
  obtain ⟨halike, hleft⟩ := h
  have hlinks' : Links m' m'.trace.order := by
    rw [halike.trace]
    exact halike.keep hlinks
  have hpoint : (point.map Point.left).getD 0 ≤ n := by
    cases point with
    | none => exact Nat.zero_le n
    | some p => exact hleft p rfl
  refine resume_inv delta hlinks' (halike.tracked ht) ha (halike.allocated ▸ hal) point ?_
  rw [halike.trace]
  omega

/-- A callback returns, and its turn goes on. -/
theorem callbackReturned_inv (h : Inv m) (hturn : m.turn ≠ none) :
    ∃ m', m.callbackReturned = some m' ∧ Inv m' := by
  obtain ⟨⟨a, delta, point⟩, ht⟩ := ne_none_iff_exists'.mp hturn
  obtain ⟨ha, hal⟩ := h.turn _ ht
  have hreturns := h.returns
  rw [callbacksLeft, ht] at hreturns
  have hlinks : Links m.noteReturn m.noteReturn.trace.order := h.links.other m.turn _
  have htracked : Tracked m.noteReturn :=
    ⟨h.tracked.turned, h.tracked.nodup, h.tracked.began, h.tracked.count⟩
  have hnote : m.noteReturn.trace.returns = m.trace.returns + 1 := rfl
  have hturns : m.noteReturn.trace.turns = m.trace.turns := rfl
  simp only [callbackReturned, ht]
  rw [if_pos hal]
  cases point with
  | update endTime =>
    exact resume_alike delta hlinks htracked ha hal (elapseUpdate_alike m.noteReturn a endTime) hreturns
  | once =>
    exact resume_alike delta hlinks htracked ha hal (elapseOnce_alike m.noteReturn a) hreturns
  | ended =>
    have hend : ∃ m', m.noteReturn.elapseEnd a = some m' ∧ Links m' m'.trace.order ∧ Tracked m' ∧
        m'.allocated = m.allocated ∧ m'.trace.returns ≤ 3 * m'.trace.turns.length := by
      rw [elapseEnd]
      split
      · obtain ⟨m', hcall, hlinks', hframe⟩ :=
          call_links (c := .destroy a) hlinks ⟨ha, hal⟩ trivial
        refine ⟨m', hcall, hlinks', call_tracked htracked hframe, hframe.allocated, ?_⟩
        rw [hframe.trace]
        exact hreturns
      · exact ⟨m.noteReturn, rfl, hlinks, htracked, rfl, hreturns⟩
    obtain ⟨m', hrun, hlinks', htracked', hal', hreturns'⟩ := hend
    simp only [hrun]
    exact resume_inv delta hlinks' htracked' ha (hal' ▸ hal) none hreturns'

/-- A new animator is not in the list. -/
theorem create_inv (h : Inv m) (hal : a ∉ m.allocated) (fields : WidgetAnimator) :
    Inv (m.create a fields) := by
  have hne : ∀ x ∈ m.allocated, (m.create a fields).animators x = m.animators x := by
    intro x hx
    have hxa : x ≠ a := fun hxa => hal (hxa ▸ hx)
    exact modify_ne _ _ hxa
  have horder : ∀ x ∈ m.trace.order, (m.create a fields).animators x = m.animators x :=
    fun x hx => hne x (h.links.allocated x hx)
  have hself : (m.create a fields).animators a =
      { fields with next := 0, manager := false, toDispatch := false, update := true } := modify_self ..
  have hwaiting : (m.create a fields).waiting = m.waiting :=
    filter_congr fun x hx => by rw [horder x hx]
  constructor
  · constructor
    · exact h.links.path.congr fun x hx => by rw [next, horder x hx]; rfl
    · exact fun x hx => mem_cons_of_mem _ (h.links.allocated x hx)
    · exact fun x hx => by rw [horder x hx]; exact h.links.manager x hx
    · exact fun x hx => by rw [horder x hx]; exact h.links.update x hx
    · intro x hx hupdate hnot
      rcases mem_cons.mp hx with rfl | hx
      · rw [hself]
      · rw [hne x hx] at hupdate ⊢
        exact h.links.outside x hx hupdate hnot
  · constructor
    · intro x hx
      by_cases hxa : x = a
      · rw [hxa, hself]
      · have hsame : (m.create a fields).animators x = m.animators x := modify_ne _ _ hxa
        rw [hsame]
        exact h.tracked.turned x hx
    · exact h.tracked.nodup
    · rw [hwaiting]
      exact h.tracked.began
    · rw [hwaiting]
      exact h.tracked.count
  · exact h.returns
  · exact h.ended
  · exact fun t ht => ⟨(h.turn t ht).1, mem_cons_of_mem _ (h.turn t ht).2⟩

theorem idle_inv (h : Inv m) (hturn : m.turn = none) : Inv m.idle := by
  have hlinks : Links m.idle m.trace.order := by
    refine ⟨h.links.path, fun x hx => ?_, h.links.manager, h.links.update, fun x hx => ?_⟩
    · exact mem_filter.mpr ⟨h.links.allocated x hx, h.links.update x hx⟩
    · exact h.links.outside x (mem_filter.mp hx).1
  have htracked : Tracked m.idle :=
    ⟨h.tracked.turned, h.tracked.nodup, h.tracked.began, h.tracked.count⟩
  refine ⟨hlinks, htracked, h.returns, h.ended, fun t ht => ?_⟩
  have hnone : m.turn = some t := ht
  rw [hturn] at hnone
  cases hnone

theorem init_inv (animators : Nat → WidgetAnimator) : Inv (init animators) where
  links := by constructor <;> simp [init]
  tracked := by constructor <;> simp [init, waiting]
  returns := Nat.le_refl 0
  ended := fun _ a ha => absurd ha not_mem_nil
  turn := by rintro t ⟨⟩

/-! ## Runs -/

/-- What a step may name.  A new animator has a new address, a `time_elapse` does not begin in another
one, and the program is not idle in a `time_elapse`. -/
def Step.Legal (m : AnimatorManager) : Step → Prop
  | .create a _ => a ≠ 0 ∧ a ∉ m.allocated
  | .call c => c.Legal m
  | .timeElapse _ | .idle => m.turn = none
  | .callbackReturned => m.turn ≠ none

/-- The step is not a call that goes wrong. -/
def Step.Ok (m : AnimatorManager) : Step → Prop
  | .call c => c.Ok m
  | .create .. | .timeElapse _ | .callbackReturned | .idle => True

instance (m : AnimatorManager) : DecidablePred (Call.Legal m)
  | .add a => inferInstanceAs (Decidable (a ≠ 0 ∧ a ∈ m.allocated ∧ _ ∧ a ∉ m.trace.order))
  | .remove a | .destroy a => inferInstanceAs (Decidable (a ≠ 0 ∧ a ∈ m.allocated))
  | .removeAll .. | .reset | .exec .. => .isTrue trivial

instance (m : AnimatorManager) : DecidablePred (Call.Ok m)
  | .add a => inferInstanceAs (Decidable (m.next a = 0))
  | .remove a => inferInstanceAs (Decidable (m.first ≠ a))
  | .removeAll .. | .reset | .destroy _ | .exec .. => .isTrue trivial

instance (m : AnimatorManager) : DecidablePred (Step.Legal m)
  | .create a _ => inferInstanceAs (Decidable (a ≠ 0 ∧ a ∉ m.allocated))
  | .call c => inferInstanceAs (Decidable (c.Legal m))
  | .timeElapse _ | .idle => decidable_of_iff _ isNone_iff_eq_none
  | .callbackReturned => decidable_of_iff _ isSome_iff_ne_none

instance (m : AnimatorManager) : DecidablePred (Step.Ok m)
  | .call c => inferInstanceAs (Decidable (c.Ok m))
  | .create .. | .timeElapse _ | .callbackReturned | .idle => .isTrue trivial

/-- The list is the animators that were added and not removed, and the last `time_elapse` gave each
animator of it one turn.  The bounds on its turns and callbacks say that it ends. -/
structure Tidy (m : AnimatorManager) : Prop where
  list : Chain.Path m.next m.first m.trace.order 0
  outside : ∀ a ∈ m.allocated, (m.animators a).update → a ∉ m.trace.order →
    (m.animators a).manager = false
  elapsed : m.turn = none → ∀ a ∈ m.trace.began,
    m.trace.turns.count a = 1 ∨ (a ∉ m.trace.turns ∧ a ∈ m.trace.removed)
  turns : m.trace.turns.length ≤ m.trace.began.length + m.trace.added
  returns : m.trace.returns ≤ 3 * m.trace.turns.length

theorem Inv.tidy (h : Inv m) : Tidy m where
  list := h.links.path
  outside := h.links.outside
  elapsed := fun hturn a ha => by
    by_cases hturns : a ∈ m.trace.turns
    · exact .inl (count_eq_one_of_mem h.tracked.nodup hturns)
    · exact .inr ⟨hturns, (h.ended hturn a ha).resolve_left hturns⟩
  turns := (Nat.le_add_right _ _).trans h.tracked.count
  returns := (Nat.le_add_right _ _).trans h.returns

theorem step_inv (m : AnimatorManager) (s : Step) (h : Inv m) (hs : s.Legal m ∧ s.Ok m) :
    ∃ m', step m s = some m' ∧ Inv m' := by
  obtain ⟨hlegal, hok⟩ := hs
  cases s with
  | create a fields => exact ⟨_, rfl, create_inv h hlegal.2 fields⟩
  | call c => exact call_inv h hlegal hok
  | timeElapse delta => exact timeElapse_inv h hlegal delta
  | callbackReturned => exact callbackReturned_inv h hlegal
  | idle => exact ⟨_, rfl, idle_inv h hlegal⟩

/-- An animator that takes ten time units. -/
def plain : WidgetAnimator where
  name := none
  widget := 7
  yoyoTimes := 0
  repeatTimes := 0
  now := 0
  scale := id
  startTime := 0
  delay := 0
  duration := 10
  state := .created
  update := true
  reversed := false
  forever := false
  destroyWhenDone := true
  toDispatch := false
  manager := false
  next := 0
  delayTime := 0
  totalYoyoTimes := 0
  totalRepeatTimes := 0

end Awtk.AnimatorManager
