import Mathlib
import Awtk.Tkc.Emitter

/-!
# The items of an emitter

Three things hold of an emitter whose handlers may be running.  `Linked` is about
the list, `Framed` ties the flags of the items to the dispatches in progress, and
`Logged` ties the items to what was recorded.  There is one lemma for each of the
three and each thing that can happen to an item.
-/

namespace Awtk.Emitter

open Chain Function List Option

variable {e e' : Emitter} {l l₁ l₂ : List Nat} {stack : List Frame} {a : Nat}
  {x : Option Nat}

/-! ## The list -/

/-- The items are linked in the order `l`, and they are what is allocated. -/
structure Linked (e : Emitter) (l : List Nat) : Prop where
  chain : Path e.next e.items l 0
  alive : e.allocated.Perm l

theorem Linked.itemsFrom (h : Linked e (l₁ ++ l₂)) : e.itemsFrom (l₂.headD 0) = some l₂ := by
  obtain ⟨b, _, hb⟩ := path_append.mp h.chain
  rw [← hb.head]
  refine walk_eq hb (fun y hy => h.alive.mem_iff.mpr (mem_append_right _ hy)) ?_
  rw [h.alive.length_eq, length_append]
  omega

theorem Linked.foreach (h : Linked e l) : e.foreach = some l := by
  have h' : Linked e ([] ++ l) := h
  rw [Emitter.foreach, h.chain.head, h'.itemsFrom]

theorem Linked.mem (h : Linked e (l₁ ++ a :: l₂)) : a ∈ e.allocated :=
  h.alive.mem_iff.mpr (by simp)

theorem Linked.notMem (h : Linked e (l₁ ++ a :: l₂)) : a ∉ l₁ ++ l₂ := by
  have hnodup := nodup_middle.mp h.chain.nodup
  exact (nodup_cons.mp hnodup).1

theorem findItem_spec (p : Nat → Bool) : ∀ (l : List Nat) (prev : Nat),
    (findItem p prev l = none ∧ ∀ a ∈ l, p a = false) ∨
    ∃ l₁ a l₂, l = l₁ ++ a :: l₂ ∧ p a = true ∧ findItem p prev l = some (l₁.getLastD prev, a)
  | [], _ => .inl ⟨rfl, fun _ ha => absurd ha not_mem_nil⟩
  | b :: l, prev => by
    rw [findItem]
    cases hb : p b with
    | true => exact .inr ⟨[], b, l, rfl, hb, rfl⟩
    | false =>
      cases findItem_spec p l b with
      | inl hnone =>
        refine .inl ⟨hnone.1, fun a ha => ?_⟩
        cases mem_cons.mp ha with
        | inl heq => exact heq ▸ hb
        | inr hmem => exact hnone.2 a hmem
      | inr hsome =>
        obtain ⟨l₁, a, l₂, rfl, ha, hfind⟩ := hsome
        refine .inr ⟨b :: l₁, a, l₂, rfl, ha, ?_⟩
        rw [if_neg Bool.false_ne_true, hfind]
        cases l₁ with
        | nil => rfl
        | cons c l₁ => rfl

/-- Two items that differ in their links at most. -/
def SameItem (x y : EmitterItem) : Prop := x = { y with next := x.next }

theorem SameItem.rfl {y : EmitterItem} : SameItem y y := Eq.refl y

/-- `emitter_remove` marks an item whose handler is running, and unlinks and destroys
any other one. -/
structure RemovedItem (e e' : Emitter) (l₁ l₂ l' : List Nat) (a : Nat) : Prop where
  linked : Linked e' l'
  count_eq : e'.count = e.count
  serial_eq : e'.serial = e.serial
  cases : ((e.item a).working = true ∧ l' = l₁ ++ a :: l₂ ∧
      e'.log = .removed (e.serial a) :: e.log ∧
      e'.item = Function.update e.item a { e.item a with pendingRemove := true }) ∨
    ((e.item a).working = false ∧ l' = l₁ ++ l₂ ∧
      e'.log = .removed (e.serial a) :: .destroyed (e.serial a) :: e.log ∧
      ∀ b ∈ l₁ ++ l₂, SameItem (e'.item b) (e.item b))

theorem Linked.erase (h : Linked e (l₁ ++ a :: l₂)) :
    (e.allocated.erase a).Perm (l₁ ++ l₂) := by
  refine (h.alive.erase a).trans ?_
  rw [erase_append_right _ fun ha => h.notMem (mem_append_left _ ha),
    erase_cons_head]

theorem Linked.emitterRemove (h : Linked e (l₁ ++ a :: l₂)) :
    ∃ e' l', e.emitterRemove (l₁.getLastD e.items) a = some (.ok, e') ∧
      RemovedItem e e' l₁ l₂ l' a := by
  have hnotin := h.notMem
  have hsub {b : Nat} (hb : b ∈ l₁ ++ l₂) : b ≠ a := fun heq => hnotin (heq ▸ hb)
  have hnext : e.next a = l₂.headD 0 := h.chain.next_mid
  unfold Emitter.emitterRemove
  rw [if_neg (not_not.mpr h.mem)]
  by_cases hw : (e.item a).working = true
  · refine ⟨_, l₁ ++ a :: l₂, if_pos hw, ⟨h.chain.congr fun b _ => ?_, h.alive⟩, rfl, rfl,
      .inl ⟨hw, rfl, rfl, rfl⟩⟩
    show (Function.update e.item a _ b).next = (e.item b).next
    by_cases hb : b = a
    · rw [hb, update_self]
    · rw [update_of_ne hb]
  · have hidle : (e.item a).working = false := Bool.not_eq_true _ ▸ hw
    rw [if_neg hw]
    by_cases hhead : a = e.items
    · have hnil := h.chain.head_eq_iff.mp hhead.symm
      subst hnil
      refine ⟨_, l₂, if_pos hhead, ⟨?_, h.erase⟩, rfl, rfl,
        .inr ⟨hidle, rfl, rfl, fun b hb => ?_⟩⟩
      · refine Path.congr (fun b hb => ?_) h.chain.2.2
        show (Function.update e.item a _ b).next = (e.item b).next
        rw [update_of_ne (hsub hb)]
      · show SameItem (Function.update e.item a _ b) (e.item b)
        rw [update_of_ne (hsub hb)]
        exact .rfl
    · have hne : l₁ ≠ [] := fun hnil => hhead (h.chain.head_eq_iff.mpr hnil).symm
      obtain ⟨l, prev, rfl⟩ := (eq_nil_or_concat l₁).resolve_left hne
      rw [concat_eq_append] at *
      have hprev : prev ∈ e.allocated := h.alive.mem_iff.mpr (by simp)
      have hpa : prev ≠ a := hsub (by simp)
      rw [getLastD_concat, if_neg hhead, if_pos hprev]
      refine ⟨_, l ++ [prev] ++ l₂, rfl, ⟨?_, h.erase⟩, rfl, rfl,
        .inr ⟨hidle, rfl, rfl, fun b hb => ?_⟩⟩
      · have hchain := h.chain
        rw [append_assoc] at hchain ⊢
        refine Path.splice [a] [] hchain (fun b hb => ?_) ?_
        · have hba : b ≠ a := hsub (by simp only [mem_append]; tauto)
          have hbp : b ≠ prev := by
            rintro rfl
            have hnodup := h.chain.nodup
            rw [append_assoc] at hnodup
            have hout := (nodup_cons.mp (nodup_middle.mp hnodup)).1
            exact hout (by simp only [mem_append]; tauto)
          show (Function.update (Function.update e.item prev _) a _ b).next = (e.item b).next
          rw [update_of_ne hba, update_of_ne hbp]
        · show (Function.update (Function.update e.item prev _) a _ prev).next = l₂.headD 0
          rw [update_of_ne hpa, update_self]
          exact hnext
      · show SameItem (Function.update (Function.update e.item prev _) a _ b) (e.item b)
        rw [update_of_ne (hsub hb)]
        by_cases hbp : b = prev
        · rw [hbp, update_self]
          exact Eq.refl _
        · rw [update_of_ne hbp]
          exact .rfl

/-- The items behind a removed one stay as they are. -/
theorem RemovedItem.behind {l' : List Nat} (hr : RemovedItem e e' l₁ l₂ l' a)
    (h : Linked e (l₁ ++ a :: l₂)) :
    ∃ l₁', l' = l₁' ++ l₂ ∧ ∀ b ∈ l₂, SameItem (e'.item b) (e.item b) := by
  cases hr.cases with
  | inl hmark =>
    refine ⟨l₁ ++ [a], by simp [hmark.2.1], fun b hb => ?_⟩
    have hba : b ≠ a := fun heq => h.notMem (heq ▸ mem_append_right l₁ hb)
    rw [hmark.2.2.2, update_of_ne hba]
    exact .rfl
  | inr hgone =>
    exact ⟨l₁, hgone.2.1, fun b hb => hgone.2.2.2 b (mem_append_right l₁ hb)⟩

/-! ## Flags -/

/-- A frame found its item working exactly where an outer frame is at the same item. -/
def Saved : List Frame → Prop
  | [] => True
  | f :: stack => (f.isWorking = true ↔ ∃ g ∈ stack, g.iter = f.iter) ∧ Saved stack

/-- The working items are those whose handlers are running, and items that wait for
their removal are working, the item `x` apart. -/
structure Framed (x : Option Nat) (e : Emitter) (stack : List Frame) (l : List Nat) : Prop where
  iter_mem : ∀ f ∈ stack, f.iter ∈ l
  start : ∀ f ∈ stack, e.serial f.iter < f.start ∧ f.start ≤ e.count
  working : ∀ a ∈ l, (e.item a).working = true ↔ ∃ f ∈ stack, f.iter = a
  saved : Saved stack
  pending : ∀ a ∈ l, x ≠ some a → (e.item a).pendingRemove = true → (e.item a).working = true

theorem Framed.congr (h : Framed x e stack l) {l' : List Nat}
    (hmem : ∀ f ∈ stack, f.iter ∈ l') (hsub : ∀ b ∈ l', b ∈ l)
    (hserial : e'.serial = e.serial) (hcount : e'.count = e.count)
    (hworking : ∀ b ∈ l', (e'.item b).working = (e.item b).working)
    (hpending : ∀ b ∈ l', (e'.item b).pendingRemove = true → (e.item b).working = true) :
    Framed none e' stack l' where
  iter_mem := hmem
  start := by
    rw [hserial, hcount]
    exact h.start
  working b hb := by
    rw [hworking b hb]
    exact h.working b (hsub b hb)
  saved := h.saved
  pending b hb _ hp := by
    rw [hworking b hb]
    exact hpending b hb hp

theorem SameItem.working_eq {y z : EmitterItem} (h : SameItem y z) : y.working = z.working := by
  rw [h]

theorem SameItem.pendingRemove_eq {y z : EmitterItem} (h : SameItem y z) :
    y.pendingRemove = z.pendingRemove := by
  rw [h]

theorem SameItem.type_eq {y z : EmitterItem} (h : SameItem y z) : y.type = z.type := by
  rw [h]

theorem Framed.removed {l' : List Nat} (h : Framed x e stack (l₁ ++ a :: l₂))
    (hl : Linked e (l₁ ++ a :: l₂)) (hx : x = none ∨ x = some a) (hr : RemovedItem e e' l₁ l₂ l' a) :
    Framed none e' stack l' := by
  have hpending (b : Nat) (hb : b ∈ l₁ ++ a :: l₂) (hba : b ≠ a) :
      (e.item b).pendingRemove = true → (e.item b).working = true := by
    refine h.pending b hb ?_
    rintro rfl
    cases hx with
    | inl hnone => cases hnone
    | inr heq => exact hba (some.inj heq)
  cases hr.cases with
  | inl hmark =>
    obtain ⟨hw, rfl, _, hitem⟩ := hmark
    refine h.congr h.iter_mem (fun b hb => hb) hr.serial_eq hr.count_eq (fun b _ => ?_)
      fun b hb => ?_
    · rw [hitem]
      by_cases hba : b = a
      · rw [hba, update_self]
      · rw [update_of_ne hba]
    · by_cases hba : b = a
      · exact fun _ => hba ▸ hw
      · rw [hitem, update_of_ne hba]
        exact hpending b hb hba
  | inr hgone =>
    obtain ⟨hidle, rfl, _, hsame⟩ := hgone
    have hsub (b : Nat) (hb : b ∈ l₁ ++ l₂) : b ∈ l₁ ++ a :: l₂ :=
      mem_append.mpr ((mem_append.mp hb).imp_right (mem_cons_of_mem a))
    refine h.congr (fun f hf => ?_) hsub hr.serial_eq hr.count_eq (fun b hb => ?_) fun b hb => ?_
    · have hfa : f.iter ≠ a := by
        intro heq
        have hw := (h.working a (by simp)).mpr ⟨f, hf, heq⟩
        rw [hidle] at hw
        cases hw
      have hmem := h.iter_mem f hf
      rw [mem_append, mem_cons] at hmem
      rw [mem_append]
      tauto
    · exact (hsame b hb).working_eq
    · rw [(hsame b hb).pendingRemove_eq]
      exact hpending b (hsub b hb) fun heq => hl.notMem (heq ▸ hb)

/-- A new item in front. -/
theorem Framed.registered (h : Framed none e stack l) (ha : a ∉ l) {item : EmitterItem}
    (hw : item.working = false) (hp : item.pendingRemove = false)
    (hitem : e'.item = Function.update e.item a item)
    (hserial : e'.serial = Function.update e.serial a e.count) (hcount : e'.count = e.count + 1) :
    Framed none e' stack (a :: l) where
  iter_mem f hf := mem_cons_of_mem a (h.iter_mem f hf)
  start f hf := by
    have hne : f.iter ≠ a := fun heq => ha (heq ▸ h.iter_mem f hf)
    have := h.start f hf
    rw [hserial, update_of_ne hne, hcount]
    omega
  working b hb := by
    rw [hitem]
    by_cases hba : b = a
    · subst hba
      rw [update_self, hw]
      refine iff_of_false Bool.false_ne_true ?_
      rintro ⟨f, hf, rfl⟩
      exact ha (h.iter_mem f hf)
    · rw [update_of_ne hba]
      exact h.working b ((mem_cons.mp hb).resolve_left hba)
  saved := h.saved
  pending b hb _ := by
    rw [hitem]
    by_cases hba : b = a
    · rw [hba, update_self, hp]
      exact fun hfalse => absurd hfalse Bool.false_ne_true
    · rw [update_of_ne hba]
      exact h.pending b ((mem_cons.mp hb).resolve_left hba) nofun

/-- A handler is called. -/
theorem Framed.called (h : Framed none e stack l) (ha : a ∈ l) {etype start : Nat}
    (hstart : e.serial a < start ∧ start ≤ e.count)
    (hitem : e'.item = Function.update e.item a { e.item a with working := true })
    (hserial : e'.serial = e.serial) (hcount : e'.count = e.count) :
    Framed none e' ({ etype, iter := a, isWorking := (e.item a).working, start } :: stack) l where
  iter_mem f hf := by
    cases mem_cons.mp hf with
    | inl heq => exact heq ▸ ha
    | inr hmem => exact h.iter_mem f hmem
  start f hf := by
    rw [hserial, hcount]
    cases mem_cons.mp hf with
    | inl heq => exact heq ▸ hstart
    | inr hmem => exact h.start f hmem
  working b hb := by
    rw [hitem]
    by_cases hba : b = a
    · rw [hba, update_self]
      exact iff_of_true rfl ⟨_, mem_cons_self, rfl⟩
    · rw [update_of_ne hba, h.working b hb]
      constructor
      · rintro ⟨f, hf, heq⟩
        exact ⟨f, mem_cons_of_mem _ hf, heq⟩
      · rintro ⟨f, hf, heq⟩
        cases mem_cons.mp hf with
        | inl hfa => exact absurd (hfa ▸ heq).symm hba
        | inr hmem => exact ⟨f, hmem, heq⟩
  saved := ⟨h.working a ha, h.saved⟩
  pending b hb _ := by
    rw [hitem]
    by_cases hba : b = a
    · rw [hba, update_self]
      exact fun _ => rfl
    · rw [update_of_ne hba]
      exact h.pending b hb nofun

theorem leave_eq (e : Emitter) (f : Frame) :
    ∃ working, e.leave f = e.setItem f.iter { e.item f.iter with working } := by
  unfold leave
  split
  · refine ⟨(e.item f.iter).working, ?_⟩
    show e = { e with item := Function.update e.item f.iter (e.item f.iter) }
    rw [update_eq_self]
  · exact ⟨false, rfl⟩

/-- An item that does not wait needs no exception. -/
theorem Framed.settled (h : Framed (some a) e stack l) (hp : (e.item a).pendingRemove = false) :
    Framed none e stack l where
  iter_mem := h.iter_mem
  start := h.start
  working := h.working
  saved := h.saved
  pending b hb _ hpb := by
    refine h.pending b hb (fun heq => ?_) hpb
    rw [← some.inj heq, hp] at hpb
    cases hpb

/-- A handler returns.  Its item may now wait for its removal without working. -/
theorem Framed.left {f : Frame} (h : Framed none e (f :: stack) l) :
    Framed (some f.iter) (leave e f) stack l := by
  obtain ⟨hsaved, hrest⟩ := h.saved
  have hmem := h.iter_mem f mem_cons_self
  have hserial : (leave e f).serial = e.serial := by
    unfold leave
    split <;> rfl
  have hcount : (leave e f).count = e.count := by
    unfold leave
    split <;> rfl
  have hother {b : Nat} (hb : b ≠ f.iter) : (leave e f).item b = e.item b := by
    unfold leave
    split
    · rfl
    · exact update_of_ne hb _ _
  have hself : ((leave e f).item f.iter).working = true ↔ f.isWorking = true := by
    unfold leave
    cases hf : f.isWorking with
    | true =>
      rw [if_pos rfl]
      exact iff_of_true ((h.working _ hmem).mpr ⟨f, mem_cons_self, rfl⟩) rfl
    | false =>
      rw [if_neg Bool.false_ne_true]
      show (Function.update e.item f.iter _ f.iter).working = true ↔ _
      rw [update_self]
  refine ⟨fun g hg => h.iter_mem g (mem_cons_of_mem f hg), fun g hg => ?_, fun b hb => ?_,
    hrest, fun b hb hne => ?_⟩
  · rw [hserial, hcount]
    exact h.start g (mem_cons_of_mem f hg)
  · by_cases hbf : b = f.iter
    · rw [hbf, hself, hsaved]
    · rw [hother hbf, h.working b hb]
      constructor
      · rintro ⟨g, hg, heq⟩
        cases mem_cons.mp hg with
        | inl hgf => exact absurd (hgf ▸ heq).symm hbf
        | inr hmem => exact ⟨g, hmem, heq⟩
      · rintro ⟨g, hg, heq⟩
        exact ⟨g, mem_cons_of_mem f hg, heq⟩
  · rw [hother fun heq => hne (congrArg some heq.symm)]
    exact h.pending b hb nofun

/-! ## The log -/

/-- The number of the item an event is about. -/
def Event.serial : Event → Nat
  | .registered s | .removed s | .destroyed s | .called s _ => s

/-- The items are the ones that were registered and not destroyed, latest first.  Each
was destroyed once at most, and the removed ones are the destroyed ones and those that
wait for it. -/
structure Logged (e : Emitter) (l : List Nat) : Prop where
  sorted : l.Pairwise fun a b => e.serial b < e.serial a
  lt : ∀ event ∈ e.log, event.serial < e.count
  listed : ∀ s, (∃ a ∈ l, e.serial a = s) ↔ .registered s ∈ e.log ∧ .destroyed s ∉ e.log
  once : ∀ s, e.log.count (.destroyed s) ≤ 1
  removed : ∀ s, .removed s ∈ e.log ↔
    .destroyed s ∈ e.log ∨ ∃ a ∈ l, e.serial a = s ∧ (e.item a).pendingRemove = true
  called : ∀ s start, .called s start ∈ e.log → s < start

/-- A handler is called only for an item with no removal before. -/
def Silent : List Event → Prop
  | [] => True
  | .called s _ :: log => .removed s ∉ log ∧ Silent log
  | _ :: log => Silent log

theorem silent_removed {s : Nat} {log : List Event} :
    Silent (.removed s :: log) ↔ Silent log := Iff.rfl

theorem silent_destroyed {s : Nat} {log : List Event} :
    Silent (.destroyed s :: log) ↔ Silent log := Iff.rfl

theorem silent_called {s start : Nat} {log : List Event} :
    Silent (.called s start :: log) ↔ .removed s ∉ log ∧ Silent log := Iff.rfl

theorem Logged.serial_lt (h : Logged e l) (ha : a ∈ l) : e.serial a < e.count :=
  h.lt _ ((h.listed _).mp ⟨a, ha, rfl⟩).1

theorem Logged.inj (h : Logged e l) {b : Nat} (ha : a ∈ l) (hb : b ∈ l)
    (heq : e.serial a = e.serial b) : a = b := by
  have hnodup : (l.map e.serial).Nodup := pairwise_map.mpr (h.sorted.imp fun hlt => Nat.ne_of_gt hlt)
  exact inj_on_of_nodup_map hnodup ha hb heq

theorem Logged.not_destroyed (h : Logged e l) (ha : a ∈ l) :
    .destroyed (e.serial a) ∉ e.log :=
  ((h.listed _).mp ⟨a, ha, rfl⟩).2

theorem Logged.removed_iff (h : Logged e l) (ha : a ∈ l) :
    .removed (e.serial a) ∈ e.log ↔ (e.item a).pendingRemove = true := by
  rw [h.removed]
  constructor
  · rintro (hd | ⟨b, hb, heq, hp⟩)
    · exact absurd hd (h.not_destroyed ha)
    · exact h.inj hb ha heq ▸ hp
  · exact fun hp => .inr ⟨a, ha, rfl, hp⟩

theorem Logged.removedItem {l' : List Nat} (h : Logged e (l₁ ++ a :: l₂))
    (hl : Linked e (l₁ ++ a :: l₂)) (hr : RemovedItem e e' l₁ l₂ l' a) : Logged e' l' := by
  have ha : a ∈ l₁ ++ a :: l₂ := by simp
  have hlt := h.serial_lt ha
  cases hr.cases with
  | inl hmark =>
    obtain ⟨hw, rfl, hlog, hitem⟩ := hmark
    refine ⟨?_, ?_, ?_, ?_, ?_, ?_⟩
    · rw [hr.serial_eq]
      exact h.sorted
    · rw [hlog, hr.count_eq]
      exact forall_mem_cons.mpr ⟨hlt, h.lt⟩
    · intro s
      rw [hr.serial_eq, hlog]
      simpa using h.listed s
    · intro s
      rw [hlog, count_cons_of_ne (show Event.removed (e.serial a) ≠ .destroyed s by simp)]
      exact h.once s
    · intro s
      have hremoved := h.removed s
      simp only [hlog, hr.serial_eq, hitem, mem_cons, Event.removed.injEq, reduceCtorEq,
        false_or, hremoved]
      constructor
      · rintro (rfl | hd | ⟨b, hb, heq, hp⟩)
        · exact .inr ⟨a, ha, rfl, by rw [update_self]⟩
        · exact .inl hd
        · refine .inr ⟨b, hb, heq, ?_⟩
          by_cases hba : b = a
          · rw [hba, update_self]
          · rw [update_of_ne hba, hp]
      · rintro (hd | ⟨b, hb, heq, hp⟩)
        · exact .inr (.inl hd)
        · by_cases hba : b = a
          · exact .inl (hba ▸ heq.symm)
          · rw [update_of_ne hba] at hp
            exact .inr (.inr ⟨b, hb, heq, hp⟩)
    · intro s n hs
      rw [hlog] at hs
      exact h.called s n (by simpa using hs)
  | inr hgone =>
    obtain ⟨hidle, rfl, hlog, hsame⟩ := hgone
    have hsub (b : Nat) (hb : b ∈ l₁ ++ l₂) : b ∈ l₁ ++ a :: l₂ :=
      mem_append.mpr ((mem_append.mp hb).imp_right (mem_cons_of_mem a))
    have hback (b : Nat) (hb : b ∈ l₁ ++ a :: l₂) (hba : b ≠ a) : b ∈ l₁ ++ l₂ := by
      rw [mem_append, mem_cons] at hb
      rw [mem_append]
      tauto
    have hne (b : Nat) (hb : b ∈ l₁ ++ l₂) : e.serial b ≠ e.serial a := fun heq =>
      hl.notMem (h.inj (hsub b hb) ha heq ▸ hb)
    refine ⟨?_, ?_, ?_, ?_, ?_, ?_⟩
    · rw [hr.serial_eq]
      exact h.sorted.sublist ((sublist_cons_self a l₂).append_left l₁)
    · rw [hlog, hr.count_eq]
      exact forall_mem_cons.mpr ⟨hlt, forall_mem_cons.mpr ⟨hlt, h.lt⟩⟩
    · intro s
      simp only [hlog, hr.serial_eq, mem_cons, Event.destroyed.injEq, reduceCtorEq, false_or,
        not_or]
      constructor
      · rintro ⟨b, hb, rfl⟩
        obtain ⟨hreg, hkept⟩ := (h.listed _).mp ⟨b, hsub b hb, rfl⟩
        exact ⟨hreg, hne b hb, hkept⟩
      · rintro ⟨hreg, hs, hkept⟩
        obtain ⟨b, hb, rfl⟩ := (h.listed s).mpr ⟨hreg, hkept⟩
        exact ⟨b, hback b hb fun heq => hs (heq ▸ rfl), rfl⟩
    · intro s
      rw [hlog, count_cons_of_ne (show Event.removed (e.serial a) ≠ .destroyed s by simp)]
      by_cases hs : s = e.serial a
      · subst hs
        rw [count_cons_self, count_eq_zero.mpr (h.not_destroyed ha)]
      · rw [count_cons_of_ne fun heq => hs (Event.destroyed.inj heq).symm]
        exact h.once s
    · intro s
      have hremoved := h.removed s
      simp only [hlog, hr.serial_eq, mem_cons, Event.removed.injEq, Event.destroyed.injEq,
        reduceCtorEq, false_or, hremoved]
      constructor
      · rintro (hs | hd | ⟨b, hb, heq, hp⟩)
        · exact .inl (.inl hs)
        · exact .inl (.inr hd)
        · by_cases hba : b = a
          · exact .inl (.inl (hba ▸ heq.symm))
          · have hmem := hback b hb hba
            exact .inr ⟨b, hmem, heq, (hsame b hmem).pendingRemove_eq.trans hp⟩
      · rintro ((hs | hd) | ⟨b, hb, heq, hp⟩)
        · exact .inl hs
        · exact .inr (.inl hd)
        · exact .inr (.inr ⟨b, hsub b hb, heq, (hsame b hb).pendingRemove_eq.symm.trans hp⟩)
    · intro s n hs
      rw [hlog] at hs
      exact h.called s n (by simpa using hs)

theorem Logged.congr (h : Logged e l)
    (hpending : ∀ b, (e'.item b).pendingRemove = (e.item b).pendingRemove)
    (hserial : e'.serial = e.serial) (hcount : e'.count = e.count) (hlog : e'.log = e.log) :
    Logged e' l where
  sorted := hserial ▸ h.sorted
  lt := hcount ▸ hlog ▸ h.lt
  listed := hserial ▸ hlog ▸ h.listed
  once := hlog ▸ h.once
  removed s := by simp only [hlog, hserial, hpending, h.removed s]
  called := hlog ▸ h.called

theorem RemovedItem.silent_iff {l' : List Nat} (hr : RemovedItem e e' l₁ l₂ l' a) :
    Silent e'.log ↔ Silent e.log := by
  cases hr.cases with
  | inl hmark => rw [hmark.2.2.1, silent_removed]
  | inr hgone => rw [hgone.2.2.1, silent_removed, silent_destroyed]

/-- A new item in front. -/
theorem Logged.registered (h : Logged e l) (ha : a ∉ l) {item : EmitterItem}
    (hp : item.pendingRemove = false) (hitem : e'.item = Function.update e.item a item)
    (hserial : e'.serial = Function.update e.serial a e.count) (hcount : e'.count = e.count + 1)
    (hlog : e'.log = .registered e.count :: e.log) : Logged e' (a :: l) := by
  have hnew : e'.serial a = e.count := by rw [hserial, update_self]
  have hold (b : Nat) (hb : b ∈ l) : e'.serial b = e.serial b ∧ e'.item b = e.item b := by
    have hne : b ≠ a := fun heq => ha (heq ▸ hb)
    rw [hserial, hitem, update_of_ne hne, update_of_ne hne]
    exact ⟨rfl, rfl⟩
  refine ⟨?_, ?_, fun s => ?_, fun s => ?_, fun s => ?_, fun s n hs => ?_⟩
  · refine pairwise_cons.mpr ⟨fun b hb => ?_, h.sorted.imp_of_mem fun hb hc hlt => ?_⟩
    · rw [hnew, (hold b hb).1]
      exact h.serial_lt hb
    · rw [(hold _ hb).1, (hold _ hc).1]
      exact hlt
  · rw [hlog, hcount]
    exact forall_mem_cons.mpr
      ⟨Nat.lt_succ_self _, fun event hevent => Nat.lt_succ_of_lt (h.lt event hevent)⟩
  · simp only [hlog, mem_cons, Event.registered.injEq, reduceCtorEq, false_or]
    constructor
    · rintro ⟨b, rfl | hb, rfl⟩
      · rw [hnew]
        exact ⟨.inl rfl, fun hd => Nat.lt_irrefl _ (h.lt _ hd)⟩
      · rw [(hold b hb).1]
        obtain ⟨hreg, hkept⟩ := (h.listed _).mp ⟨b, hb, rfl⟩
        exact ⟨.inr hreg, hkept⟩
    · rintro ⟨hs | hreg, hkept⟩
      · exact ⟨a, .inl rfl, hnew.trans hs.symm⟩
      · obtain ⟨b, hb, rfl⟩ := (h.listed s).mpr ⟨hreg, hkept⟩
        exact ⟨b, .inr hb, (hold b hb).1⟩
  · rw [hlog, count_cons_of_ne (show Event.registered e.count ≠ .destroyed s by simp)]
    exact h.once s
  · simp only [hlog, mem_cons, reduceCtorEq, false_or, h.removed s]
    refine or_congr_right ⟨?_, ?_⟩
    · rintro ⟨b, hb, heq, hpb⟩
      rw [← (hold b hb).1] at heq
      rw [← (hold b hb).2] at hpb
      exact ⟨b, .inr hb, heq, hpb⟩
    · rintro ⟨b, rfl | hb, heq, hpb⟩
      · rw [hitem, update_self, hp] at hpb
        cases hpb
      · rw [(hold b hb).1] at heq
        rw [(hold b hb).2] at hpb
        exact ⟨b, hb, heq, hpb⟩
  · rw [hlog] at hs
    exact h.called s n (by simpa using hs)

/-- A handler is called. -/
theorem Logged.calls (h : Logged e l) {start : Nat} (ha : a ∈ l) (hstart : e.serial a < start)
    (hpending : ∀ b, (e'.item b).pendingRemove = (e.item b).pendingRemove)
    (hserial : e'.serial = e.serial) (hcount : e'.count = e.count)
    (hlog : e'.log = .called (e.serial a) start :: e.log) : Logged e' l := by
  refine ⟨?_, ?_, fun s => ?_, fun s => ?_, fun s => ?_, fun s n hs => ?_⟩
  · rw [hserial]
    exact h.sorted
  · rw [hlog, hcount]
    exact forall_mem_cons.mpr ⟨h.serial_lt ha, h.lt⟩
  · rw [hserial, hlog]
    simpa using h.listed s
  · rw [hlog, count_cons_of_ne (show Event.called (e.serial a) start ≠ .destroyed s by simp)]
    exact h.once s
  · simp only [hlog, hserial, hpending, mem_cons, reduceCtorEq, false_or, h.removed s]
  · rw [hlog] at hs
    cases mem_cons.mp hs with
    | inl heq =>
      obtain ⟨rfl, rfl⟩ := Event.called.inj heq
      exact hstart
    | inr hmem => exact h.called s n hmem

end Awtk.Emitter
