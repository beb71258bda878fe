import Mathlib
import Awtk.Lib.Run
import Awtk.Tkc.EmitterItems

/-!
# Runs of the emitter

A run is any sequence of calls and of returns of handlers, so handlers may do
anything, dispatch again and not return at all.  `Tidy` holds after any run: what is
removed is destroyed once, at the latest when no dispatch works on it any more, what
is not removed stays, and a dispatch calls no item that was added during it.

The handler of a removed item can be called again.  A dispatch looks at the type of
an item only, and an item whose own handler is running stays in the list with its type
when it is removed.  `Fits` says that the next item of the type does not wait for its
removal, and removed items are silent exactly in the runs that meet it.
-/

namespace Awtk.Emitter

open Chain Runs List Option

variable {e e' : Emitter} {l l₁ l₂ : List Nat} {stack : List Frame} {a : Nat}
  {x : Option Nat}

/-! ## Steps -/

/-- The emitter and the dispatches in progress, the innermost one first. -/
structure World where
  e : Emitter
  stack : List Frame

/-- A call of the client or of the running handler, or its return. -/
inductive Act where
  | on (iter etype handler ctx tag : Nat)
  | off (id : Nat)
  | offByFunc (etype handler ctx : Nat)
  | offByTag (tag : Nat)
  | offByCtx (ctx : Nat)
  | removeItem (item : Nat)
  | enable
  | disable
  | dispatch (etype : Nat)
  | handlerReturns (ret : Ret)
  deriving DecidableEq

/-- A dispatch goes on behind the frames of the outer ones. -/
def World.continue (stack : List Frame) : Emitter × Progress → World
  | (e, .calls f) => ⟨e, f :: stack⟩
  | (e, .returns _) => ⟨e, stack⟩

def step (w : World) : Act → Option World
  | .on iter etype handler ctx tag =>
      some { w with e := (w.e.emitterOnWithTag iter etype handler ctx tag).2 }
  | .off id => (w.e.emitterOff id).map fun (_, e) => { w with e }
  | .offByFunc etype handler ctx =>
      (w.e.emitterOffByFunc etype handler ctx).map fun (_, e) => { w with e }
  | .offByTag tag => (w.e.emitterOffByTag tag).map fun (_, e) => { w with e }
  | .offByCtx ctx => (w.e.emitterOffByCtx ctx).map fun (_, e) => { w with e }
  | .removeItem item => (w.e.emitterRemoveItem item).map fun (_, e) => { w with e }
  | .enable => some { w with e := w.e.emitterEnable.2 }
  | .disable => some { w with e := w.e.emitterDisable.2 }
  | .dispatch etype => (w.e.emitterDispatch etype).map (World.continue w.stack)
  | .handlerReturns ret =>
    match w.stack with
    | [] => none
    | f :: stack => (w.e.handlerReturned f ret).map (World.continue stack)

/-- `TKMEM_ZALLOC` returns NULL or memory that is not in use, and only a running handler
returns. -/
def Allowed (w : World) : Act → Prop
  | .on iter .. => iter ∉ w.e.allocated
  | .handlerReturns _ => w.stack ≠ []
  | _ => True

instance (w : World) : ∀ act : Act, Decidable (Allowed w act)
  | .on .. => inferInstanceAs (Decidable (_ ∉ _))
  | .handlerReturns _ => inferInstanceAs (Decidable (_ ≠ _))
  | .off _ | .offByFunc .. | .offByTag _ | .offByCtx _ | .removeItem _ | .enable | .disable
  | .dispatch _ => inferInstanceAs (Decidable True)

/-- The next item of the type does not wait for its removal. -/
def Kept (e : Emitter) (etype a : Nat) : Prop :=
  ∀ found ∈ e.nextOfType etype a, ∀ iter ∈ found, (e.item iter).pendingRemove = false

/-- Where a dispatch begins or goes on, it does not come to an item that waits for its
removal. -/
def Fits (w : World) : Act → Prop
  | .dispatch etype => w.e.disable = 0 → Kept w.e etype w.e.items
  | .handlerReturns ret => ret ≠ .stop → ∀ f ∈ w.stack.head?, Kept w.e f.etype (w.e.next f.iter)
  | _ => True

instance (e : Emitter) (etype a : Nat) : Decidable (Kept e etype a) := by
  unfold Kept
  infer_instance

instance (w : World) (act : Act) : Decidable (Fits w act) := by
  cases act <;> unfold Fits <;> infer_instance

/-- What holds whatever the handlers do. -/
structure Tidy (w : World) : Prop where
  /-- The list has the items that were registered and not destroyed, so it has all that
  were not removed. -/
  listed : ∃ l, w.e.foreach = some l ∧
    (∀ s, (∃ a ∈ l, w.e.serial a = s) ↔ .registered s ∈ w.e.log ∧ .destroyed s ∉ w.e.log) ∧
    ∀ s, .registered s ∈ w.e.log → .removed s ∉ w.e.log → ∃ a ∈ l, w.e.serial a = s
  /-- No item is destroyed twice, and only removed ones are. -/
  once : ∀ s, w.e.log.count (.destroyed s) ≤ 1 ∧ (.destroyed s ∈ w.e.log → .removed s ∈ w.e.log)
  /-- A removed item is destroyed, or a dispatch is working on it. -/
  finished : ∀ s, .removed s ∈ w.e.log →
    .destroyed s ∈ w.e.log ∨ ∃ f ∈ w.stack, w.e.serial f.iter = s
  /-- A dispatch that began after `start` items had been registered calls only these. -/
  added : ∀ s start, .called s start ∈ w.e.log → s < start

/-! ## The invariant -/

/-- What holds between the calls of the emitter. -/
structure Inv (x : Option Nat) (e : Emitter) (stack : List Frame) (l : List Nat) : Prop where
  linked : Linked e l
  framed : Framed x e stack l
  logged : Logged e l

theorem Inv.tidy {w : World} (h : Inv none w.e w.stack l) : Tidy w where
  listed := by
    refine ⟨l, h.linked.foreach, h.logged.listed, fun s hreg hkept => ?_⟩
    exact (h.logged.listed s).mpr ⟨hreg, fun hd => hkept ((h.logged.removed s).mpr (.inl hd))⟩
  once s := ⟨h.logged.once s, fun hd => (h.logged.removed s).mpr (.inl hd)⟩
  finished s hs := by
    refine ((h.logged.removed s).mp hs).imp_right ?_
    rintro ⟨a, ha, rfl, hp⟩
    obtain ⟨f, hf, rfl⟩ := (h.framed.working a ha).mp (h.framed.pending a ha nofun hp)
    exact ⟨f, hf, rfl⟩
  added := h.logged.called

/-! ## Registering and removing -/

theorem emitterNextId_eq (e : Emitter) :
    ∃ id nextId, e.emitterNextId = (id, { e with nextId }) := by
  unfold emitterNextId
  dsimp only
  split
  · exact ⟨_, _, rfl⟩
  · exact ⟨_, _, rfl⟩

theorem Inv.emitterOnWithTag (h : Inv none e stack l) {iter : Nat} (hiter : iter ∉ e.allocated)
    (etype handler ctx tag : Nat) :
    ∃ l', Inv none (e.emitterOnWithTag iter etype handler ctx tag).2 stack l' ∧
      (Silent (e.emitterOnWithTag iter etype handler ctx tag).2.log ↔ Silent e.log) := by
  unfold Emitter.emitterOnWithTag
  by_cases hfail : handler = 0 ∨ iter = 0
  · rw [if_pos hfail]
    exact ⟨l, h, Iff.rfl⟩
  · obtain ⟨id, nextId, hid⟩ := e.emitterNextId_eq
    rw [if_neg hfail, hid]
    have hout : iter ∉ l := fun hmem => hiter (h.linked.alive.mem_iff.mpr hmem)
    have hserial : Function.update e.serial iter e.count iter = e.count := Function.update_self ..
    refine ⟨iter :: l, ⟨⟨?_, h.linked.alive.cons iter⟩,
      h.framed.registered hout rfl rfl rfl rfl rfl,
      h.logged.registered hout rfl rfl rfl rfl (congrArg (Event.registered · :: e.log) hserial)⟩,
      Iff.rfl⟩
    refine ⟨rfl, fun h0 => hfail (.inr h0), ?_⟩
    show Path (fun b => (Function.update e.item iter _ b).next)
      (Function.update e.item iter _ iter).next l 0
    rw [Function.update_self]
    refine h.linked.chain.congr fun b hb => ?_
    have hne : b ≠ iter := fun heq => hout (heq ▸ hb)
    dsimp only
    rw [Function.update_of_ne hne]
    rfl

theorem Inv.emitterRemove (h : Inv x e stack (l₁ ++ a :: l₂)) (hx : x = none ∨ x = some a) :
    ∃ e' l', e.emitterRemove (l₁.getLastD e.items) a = some (.ok, e') ∧
      RemovedItem e e' l₁ l₂ l' a ∧ Inv none e' stack l' := by
  obtain ⟨e', l', hremove, hr⟩ := h.linked.emitterRemove
  exact ⟨e', l', hremove, hr, hr.linked, h.framed.removed h.linked hx hr,
    h.logged.removedItem h.linked hr⟩

theorem findItem_append {p : Nat → Bool} (ha : p a = true) : ∀ {l₁ : List Nat} {prev : Nat},
    (∀ b ∈ l₁, p b = false) → findItem p prev (l₁ ++ a :: l₂) = some (l₁.getLastD prev, a)
  | [], _, _ => if_pos ha
  | b :: l₁, prev, hout => by
    rw [cons_append, findItem, hout b mem_cons_self, if_neg Bool.false_ne_true,
      findItem_append ha fun c hc => hout c (mem_cons_of_mem b hc)]
    cases l₁ with
    | nil => rfl
    | cons c l₁ => rfl

theorem Inv.removeItem_mem (h : Inv x e stack (l₁ ++ a :: l₂)) (hx : x = none ∨ x = some a) :
    ∃ e' l', e.emitterRemoveItem a = some (.ok, e') ∧ RemovedItem e e' l₁ l₂ l' a ∧
      Inv none e' stack l' := by
  obtain ⟨e', l', hremove, hr, h'⟩ := h.emitterRemove hx
  have hout (b : Nat) (hb : b ∈ l₁) : (b == a) = false :=
    beq_eq_false_iff_ne.mpr fun heq =>
      h.linked.notMem (heq ▸ mem_append_left l₂ hb)
  refine ⟨e', l', ?_, hr, h'⟩
  rw [emitterRemoveItem, h.linked.foreach, bind_some, 
    findItem_append (p := fun iter => iter == a) (beq_self_eq_true a) hout]
  exact hremove

/-- What every way to remove items keeps. -/
def Removes (e : Emitter) (stack : List Frame) (res : Option (Ret × Emitter)) : Prop :=
  ∃ ret e' l', res = some (ret, e') ∧ Inv none e' stack l' ∧ (Silent e'.log ↔ Silent e.log)

theorem Inv.emitterRemoveItem (h : Inv none e stack l) (item : Nat) :
    Removes e stack (e.emitterRemoveItem item) := by
  by_cases hmem : item ∈ l
  · obtain ⟨l₁, l₂, rfl⟩ := append_of_mem hmem
    obtain ⟨e', l', hremove, hr, h'⟩ := h.removeItem_mem (.inl rfl)
    exact ⟨_, e', l', hremove, h', hr.silent_iff⟩
  · refine ⟨.notFound, e, l, ?_, h, Iff.rfl⟩
    obtain ⟨hnone, _⟩ | ⟨l₁, a, l₂, rfl, ha, _⟩ := findItem_spec (· == item) l e.items
    · rw [Emitter.emitterRemoveItem, h.linked.foreach, bind_some, hnone]
    · exact absurd (beq_iff_eq.mp ha ▸ mem_append_right l₁ mem_cons_self) hmem

theorem RemovedItem.countP_lt {l' : List Nat} (hr : RemovedItem e e' l₁ l₂ l' a)
    (hl : Linked e (l₁ ++ a :: l₂)) {cmp : EmitterItem → Bool}
    (hcmp : ∀ y z, SameItem y z → cmp y = cmp z)
    (ha : e.offered cmp a = true) :
    l'.countP (e'.offered cmp) < (l₁ ++ a :: l₂).countP (e.offered cmp) := by
  have hcount (m : List Nat) (hm : ∀ b ∈ m, b ∈ l₁ ++ l₂) :
      m.countP (e'.offered cmp) = m.countP (e.offered cmp) := by
    refine countP_congr fun b hb => ?_
    unfold offered
    have hba : b ≠ a := fun heq => hl.notMem (heq ▸ hm b hb)
    cases hr.cases with
    | inl hmark => rw [hmark.2.2.2, Function.update_of_ne hba]
    | inr hgone =>
      have hsame := hgone.2.2.2 b (hm b hb)
      rw [hsame.pendingRemove_eq, hcmp _ _ hsame]
  have hleft := hcount l₁ fun b hb => mem_append_left l₂ hb
  have hright := hcount l₂ fun b hb => mem_append_right l₁ hb
  rw [countP_append, countP_cons_of_pos ha]
  cases hr.cases with
  | inl hmark =>
    obtain ⟨_, rfl, _, hitem⟩ := hmark
    rw [countP_append, countP_cons_of_neg, hleft, hright]
    · omega
    · rw [offered, hitem, Function.update_self]
      exact Bool.false_ne_true
  | inr hgone =>
    obtain ⟨_, rfl, _, _⟩ := hgone
    rw [countP_append, hleft, hright]
    omega

theorem Inv.emitterOffEx (h : Inv none e stack l) {cmp : EmitterItem → Bool}
    (hcmp : ∀ y z, SameItem y z → cmp y = cmp z) :
    ∃ ret e' l', e.emitterOffEx cmp = some (ret, e') ∧ Inv none e' stack l' ∧
      (Silent e'.log ↔ Silent e.log) ∧
      (ret = .ok → l'.countP (e'.offered cmp) < l.countP (e.offered cmp)) := by
  unfold Emitter.emitterOffEx
  rw [h.linked.foreach, bind_some]
  obtain ⟨hnone, _⟩ | ⟨l₁, a, l₂, rfl, ha, hfind⟩ :=
    findItem_spec (e.offered cmp) l e.items
  · rw [hnone]
    exact ⟨.fail, e, l, rfl, h, Iff.rfl, nofun⟩
  · obtain ⟨e', l', hremove, hr, h'⟩ := h.emitterRemove (.inl rfl)
    rw [hfind]
    exact ⟨.ok, e', l', hremove, h', hr.silent_iff, fun _ => hr.countP_lt h.linked hcmp ha⟩

theorem Inv.offLoop {cmp : EmitterItem → Bool} (hcmp : ∀ y z, SameItem y z → cmp y = cmp z) :
    ∀ {n : Nat} {e : Emitter} {l : List Nat}, Inv none e stack l → l.countP (e.offered cmp) < n →
      ∃ e' l', offLoop cmp n e = some e' ∧ Inv none e' stack l' ∧ (Silent e'.log ↔ Silent e.log)
  | n + 1, e, l, h, hn => by
    obtain ⟨ret, e₁, l₁, hoff, h₁, hsilent, hless⟩ := h.emitterOffEx hcmp
    rw [Emitter.offLoop, hoff, bind_some]
    dsimp only
    by_cases hret : ret = .ok
    · obtain ⟨e', l', hloop, h', hsilent'⟩ := Inv.offLoop hcmp h₁ (n := n)
        (Nat.lt_of_lt_of_le (hless hret) (Nat.le_of_lt_succ hn))
      rw [if_pos hret]
      exact ⟨e', l', hloop, h', hsilent'.trans hsilent⟩
    · rw [if_neg hret]
      exact ⟨e₁, l₁, rfl, h₁, hsilent⟩

theorem Inv.offAll (h : Inv none e stack l) {cmp : EmitterItem → Bool}
    (hcmp : ∀ y z, SameItem y z → cmp y = cmp z) : Removes e stack (e.offAll cmp) := by
  obtain ⟨ret, e₁, l₁, hoff, h₁, hsilent, _⟩ := h.emitterOffEx hcmp
  unfold Emitter.offAll
  rw [hoff, bind_some]
  dsimp only
  by_cases hret : ret = .ok
  · have hbound : l₁.countP (e₁.offered cmp) < e₁.allocated.length + 1 := by
      rw [h₁.linked.alive.length_eq]
      exact Nat.lt_succ_of_le countP_le_length
    obtain ⟨e', l', hloop, h', hsilent'⟩ := h₁.offLoop hcmp hbound
    rw [if_pos hret, hloop]
    exact ⟨ret, e', l', rfl, h', hsilent'.trans hsilent⟩
  · rw [if_neg hret]
    exact ⟨ret, e₁, l₁, rfl, h₁, hsilent⟩

/-! ## Dispatching -/

theorem Linked.nextOfType (h : Linked e (l₁ ++ l₂)) (etype : Nat) :
    e.nextOfType etype (l₂.headD 0) = some (l₂.find? fun iter => (e.item iter).type == etype) := by
  rw [Emitter.nextOfType, h.itemsFrom, map_some]

theorem Linked.kept_congr {l₁' : List Nat} (h : Linked e (l₁ ++ l₂)) (h' : Linked e' (l₁' ++ l₂))
    {etype : Nat} (hsame : ∀ b ∈ l₂, (e'.item b).type = (e.item b).type ∧
      (e'.item b).pendingRemove = (e.item b).pendingRemove) :
    Kept e' etype (l₂.headD 0) ↔ Kept e etype (l₂.headD 0) := by
  have hfind : (l₂.find? fun iter => (e'.item iter).type == etype) =
      l₂.find? fun iter => (e.item iter).type == etype :=
    find?_congr fun b hb => by rw [(hsame b hb).1]
  unfold Kept
  rw [h.nextOfType, h'.nextOfType, hfind]
  simp only [mem_some_iff, forall_eq']
  refine forall_congr' fun iter => imp_congr_right fun hiter => ?_
  rw [(hsame iter (mem_of_find?_eq_some hiter)).2]

/-- What a dispatch keeps as it goes on to its next item. -/
def Continues (e : Emitter) (stack : List Frame) (kept : Prop)
    (res : Option (Emitter × Progress)) : Prop :=
  ∃ p l', res = some p ∧
    Inv none (World.continue stack p).e (World.continue stack p).stack l' ∧
    (Silent e.log → (Silent (World.continue stack p).e.log ↔ kept))

theorem Inv.dispatchLoop (h : Inv none e stack (l₁ ++ l₂)) (etype : Nat) {start : Nat}
    (hstart : start ≤ e.count) (hlt : ∀ b ∈ l₂, e.serial b < start) :
    Continues e stack (Kept e etype (l₂.headD 0)) (e.dispatchLoop etype start (l₂.headD 0)) := by
  unfold Emitter.dispatchLoop Kept
  rw [h.linked.nextOfType, map_some]
  cases hfind : l₂.find? fun iter => (e.item iter).type == etype with
  | none =>
    refine ⟨_, l₁ ++ l₂, rfl, h, fun hsilent => iff_of_true hsilent ?_⟩
    intro found hfound iter hiter
    cases hfound
    cases hiter
  | some a =>
    have hmem := mem_of_find?_eq_some hfind
    have ha : a ∈ l₁ ++ l₂ := mem_append_right l₁ hmem
    have hpending (b : Nat) : (Function.update e.item a { e.item a with working := true } b).pendingRemove =
        (e.item b).pendingRemove := by
      by_cases hba : b = a
      · rw [hba, Function.update_self]
      · rw [Function.update_of_ne hba]
    refine ⟨_, l₁ ++ l₂, rfl, ⟨⟨h.linked.chain.congr fun b _ => ?_, h.linked.alive⟩,
      h.framed.called ha ⟨hlt a hmem, hstart⟩ rfl rfl rfl,
      h.logged.calls ha (hlt a hmem) hpending rfl rfl rfl⟩, fun hsilent => ?_⟩
    · show (Function.update e.item a _ b).next = (e.item b).next
      by_cases hba : b = a
      · rw [hba, Function.update_self]
      · rw [Function.update_of_ne hba]
    · show Silent (.called (e.serial a) start :: e.log) ↔ _
      rw [silent_called, h.logged.removed_iff ha, Bool.not_eq_true, and_iff_left hsilent]
      simp only [mem_some_iff, forall_eq']

theorem Inv.emitterDispatch (h : Inv none e stack l) (etype : Nat) :
    Continues e stack (e.disable = 0 → Kept e etype e.items) (e.emitterDispatch etype) := by
  have hhead := h.linked.chain.head
  have h₀ : Inv none e stack ([] ++ l) := h
  unfold Emitter.emitterDispatch
  split_ifs with hon
  · rw [hhead]
    obtain ⟨p, l', hres, h', hsilent⟩ := h₀.dispatchLoop etype (Nat.le_refl _)
      fun b hb => h.logged.serial_lt hb
    refine ⟨p, l', hres, h', fun hs => (hsilent hs).trans ?_⟩
    exact ⟨fun hkept _ => hkept, fun hkept => hkept hon.1⟩
  · refine ⟨_, l, rfl, h, fun hsilent => iff_of_true hsilent fun hd => ?_⟩
    have hnil : e.items = 0 := Classical.not_not.mp fun h0 => hon ⟨hd, h0⟩
    have hl : l = [] := by
      cases l with
      | nil => rfl
      | cons b l => exact absurd (hhead.symm.trans hnil) (h.linked.chain.2.1)
    subst hl
    rw [hhead]
    intro found hfound iter hiter
    rw [h₀.linked.nextOfType] at hfound
    cases hfound
    cases hiter

/-- A handler returned, and its item may wait for its removal. -/
theorem Inv.left {f : Frame} (h : Inv none e (f :: stack) l) :
    Inv (some f.iter) (e.leave f) stack l ∧ (e.leave f).log = e.log ∧
      (e.leave f).serial = e.serial ∧ (e.leave f).count = e.count ∧
      ∀ b, ((e.leave f).item b).next = (e.item b).next ∧
        ((e.leave f).item b).type = (e.item b).type ∧
        ((e.leave f).item b).pendingRemove = (e.item b).pendingRemove := by
  have hframed := h.framed.left
  obtain ⟨working, hleave⟩ := e.leave_eq f
  rw [hleave] at hframed ⊢
  have hsame (b : Nat) :
      ((e.setItem f.iter { e.item f.iter with working }).item b).next = (e.item b).next ∧
      ((e.setItem f.iter { e.item f.iter with working }).item b).type = (e.item b).type ∧
      ((e.setItem f.iter { e.item f.iter with working }).item b).pendingRemove =
        (e.item b).pendingRemove := by
    simp only [setItem]
    by_cases hb : b = f.iter
    · rw [hb, Function.update_self]
      exact ⟨rfl, rfl, rfl⟩
    · rw [Function.update_of_ne hb]
      exact ⟨rfl, rfl, rfl⟩
  exact ⟨⟨⟨h.linked.chain.congr fun b _ => (hsame b).1, h.linked.alive⟩, hframed,
    h.logged.congr (fun b => (hsame b).2.2) rfl rfl rfl⟩, rfl, rfl, rfl, hsame⟩

theorem Inv.handlerReturned {f : Frame} (h : Inv none e (f :: stack) l) (ret : Ret) :
    Continues e stack (ret ≠ .stop → Kept e f.etype (e.next f.iter))
      (e.handlerReturned f ret) := by
  obtain ⟨l₁, l₂, rfl⟩ := append_of_mem (h.framed.iter_mem f mem_cons_self)
  obtain ⟨hserial, hcount⟩ := h.framed.start f mem_cons_self
  obtain ⟨h₁, hlog₁, hserial₁, hcount₁, hsame₁⟩ := h.left
  have hnext : e.next f.iter = l₂.headD 0 := h.linked.chain.next_mid
  -- the items behind the current one are older than the dispatch
  have hlt (b : Nat) (hb : b ∈ l₂) : e.serial b < f.start := by
    have hsorted := (pairwise_append.mp h.logged.sorted).2.1
    exact Nat.lt_trans ((pairwise_cons.mp hsorted).1 b hb) hserial
  have hsplit : l₁ ++ f.iter :: l₂ = (l₁ ++ [f.iter]) ++ l₂ := by simp
  unfold Emitter.handlerReturned
  rw [if_neg (not_not.mpr h.linked.mem)]
  dsimp only
  generalize e.leave f = e₁ at *
  have hnext₁ : e₁.next f.iter = l₂.headD 0 := h₁.linked.chain.next_mid
  by_cases hstop : ret = .stop
  · have hany : ret ≠ .stop → Kept e f.etype (e.next f.iter) := fun hne => absurd hstop hne
    rw [if_pos hstop]
    by_cases hp : (e₁.item f.iter).pendingRemove = true
    · obtain ⟨e', l', hremove, hr, h'⟩ := h₁.removeItem_mem (.inr rfl)
      rw [if_pos hp, hremove]
      refine ⟨_, l', rfl, h', fun hsilent => iff_of_true ?_ hany⟩
      exact hr.silent_iff.mpr (hlog₁ ▸ hsilent)
    · rw [if_neg hp]
      refine ⟨_, _, rfl, ⟨h₁.linked, h₁.framed.settled (Bool.not_eq_true _ ▸ hp), h₁.logged⟩,
        fun hsilent => iff_of_true ?_ hany⟩
      exact hlog₁ ▸ hsilent
  · rw [if_neg hstop, hnext₁, hnext]
    have hkept : (ret ≠ .stop → Kept e f.etype (l₂.headD 0)) ↔ Kept e f.etype (l₂.headD 0) :=
      ⟨fun hk => hk hstop, fun hk _ => hk⟩
    rw [hkept]
    by_cases hp : ret = .remove ∨ (e₁.item f.iter).pendingRemove = true
    · obtain ⟨e', l', hremove, hr, h'⟩ := h₁.removeItem_mem (.inr rfl)
      rw [if_pos hp, hremove, bind_some]
      dsimp only
      obtain ⟨l₁', rfl, hbehind⟩ := hr.behind h₁.linked
      obtain ⟨p, l', hres, h'', hsilent⟩ := h'.dispatchLoop f.etype
        (hr.count_eq ▸ hcount₁ ▸ hcount) (hr.serial_eq ▸ hserial₁ ▸ hlt)
      refine ⟨p, l', hres, h'', fun hs => (hsilent ?_).trans ?_⟩
      · exact hr.silent_iff.mpr (hlog₁ ▸ hs)
      · refine Linked.kept_congr (hsplit ▸ h.linked) h'.linked fun b hb => ?_
        rw [(hbehind b hb).type_eq, (hbehind b hb).pendingRemove_eq]
        exact (hsame₁ b).2
    · rw [if_neg hp]
      rw [not_or] at hp
      have h₂ : Inv none e₁ stack ((l₁ ++ [f.iter]) ++ l₂) :=
        hsplit ▸ ⟨h₁.linked, h₁.framed.settled (Bool.not_eq_true _ ▸ hp.2), h₁.logged⟩
      obtain ⟨p, l', hres, h', hsilent⟩ := h₂.dispatchLoop f.etype (hcount₁ ▸ hcount)
        (hserial₁ ▸ hlt)
      refine ⟨p, l', hres, h', fun hs => (hsilent (hlog₁ ▸ hs)).trans ?_⟩
      exact Linked.kept_congr (hsplit ▸ h.linked) h₂.linked fun b _ => (hsame₁ b).2

/-! ## Runs -/

/-- What one step keeps.  It keeps the removed items silent exactly if it fits. -/
def Steps (w : World) (fits : Prop) (res : Option World) : Prop :=
  ∃ w', res = some w' ∧ (∃ l, Inv none w'.e w'.stack l) ∧
    (Silent w.e.log → (Silent w'.e.log ↔ fits))

theorem Removes.steps {w : World} {res : Option (Ret × Emitter)} (h : Removes w.e w.stack res) :
    Steps w True (res.map fun (_, e) => { w with e }) := by
  obtain ⟨ret, e', l', rfl, h', hsilent⟩ := h
  exact ⟨_, rfl, ⟨l', h'⟩, fun hs => iff_of_true (hsilent.mpr hs) trivial⟩

theorem Continues.steps {w : World} {kept : Prop} {res : Option (Emitter × Progress)}
    (h : Continues w.e stack kept res) : Steps w kept (res.map (World.continue stack)) := by
  obtain ⟨p, l', rfl, h', hsilent⟩ := h
  exact ⟨_, rfl, ⟨l', h'⟩, hsilent⟩

theorem sameItem_cmp {y z : EmitterItem} (h : SameItem y z) : y.id = z.id ∧ y.type = z.type ∧
    y.ctx = z.ctx ∧ y.handler = z.handler ∧ y.tag = z.tag := by
  rw [h]
  exact ⟨rfl, rfl, rfl, rfl, rfl⟩

theorem Inv.withDisable (h : Inv none e stack l) (d : Int) :
    Inv none { e with disable := d } stack l where
  linked := ⟨h.linked.1, h.linked.2⟩
  framed := ⟨h.framed.1, h.framed.2, h.framed.3, h.framed.4, h.framed.5⟩
  logged := ⟨h.logged.1, h.logged.2, h.logged.3, h.logged.4, h.logged.5, h.logged.6⟩

theorem Inv.step {w : World} (h : Inv none w.e w.stack l) {act : Act} (hallowed : Allowed w act) :
    Steps w (Fits w act) (step w act) := by
  cases act with
  | on iter etype handler ctx tag =>
    obtain ⟨l', h', hsilent⟩ := h.emitterOnWithTag hallowed etype handler ctx tag
    exact ⟨_, rfl, ⟨l', h'⟩, fun hs => iff_of_true (hsilent.mpr hs) trivial⟩
  | off id =>
    have hcmp (y z : EmitterItem) (hyz : SameItem y z) : (y.id == id) = (z.id == id) := by
      rw [(sameItem_cmp hyz).1]
    obtain ⟨ret, e', l', hres, h', hsilent, _⟩ := h.emitterOffEx hcmp
    exact Removes.steps ⟨ret, e', l', hres, h', hsilent⟩
  | offByFunc etype handler ctx =>
    refine (h.offAll fun y z hyz => ?_).steps
    obtain ⟨_, htype, hctx, hhandler, _⟩ := sameItem_cmp hyz
    rw [htype, hctx, hhandler]
  | offByTag tag =>
    refine (h.offAll fun y z hyz => ?_).steps
    rw [(sameItem_cmp hyz).2.2.2.2]
  | offByCtx ctx =>
    refine (h.offAll fun y z hyz => ?_).steps
    rw [(sameItem_cmp hyz).2.2.1]
  | removeItem item => exact (h.emitterRemoveItem item).steps
  | enable =>
    obtain ⟨d, hd⟩ : ∃ d, w.e.emitterEnable.2 = { w.e with disable := d } := by
      unfold emitterEnable
      split
      · exact ⟨_, rfl⟩
      · exact ⟨w.e.disable, rfl⟩
    refine ⟨_, rfl, ⟨l, hd ▸ h.withDisable d⟩, fun hs => iff_of_true ?_ trivial⟩
    rw [hd]
    exact hs
  | disable => exact ⟨_, rfl, ⟨l, h.withDisable _⟩, fun hs => iff_of_true hs trivial⟩
  | dispatch etype => exact (h.emitterDispatch etype).steps
  | handlerReturns ret =>
    obtain ⟨e, stack⟩ := w
    cases stack with
    | nil => exact absurd rfl hallowed
    | cons f stack =>
      have hfits : Fits ⟨e, f :: stack⟩ (.handlerReturns ret) ↔
          (ret ≠ .stop → Kept e f.etype (e.next f.iter)) := by
        simp only [Fits, head?_cons, mem_some_iff, forall_eq']
      rw [hfits]
      exact (h.handlerReturned ret).steps

/-- Every state of the run is tidy, and no handler of a removed item was called. -/
def Sound (acts : List Act) : Prop :=
  ∀ pre, pre <+: acts → ∃ w, run step ⟨init, []⟩ pre = some w ∧ Tidy w ∧ Silent w.e.log

theorem inv_init : Inv none init [] [] where
  linked := ⟨rfl, .nil⟩
  framed := ⟨nofun, nofun, nofun, trivial, nofun⟩
  logged := ⟨.nil, nofun, fun s => by simp [init], fun s => by simp [init], fun s => by simp [init],
    nofun⟩

/-- Every run stays tidy, whatever the handlers do. -/
theorem tidy_of_meets {acts : List Act} (hm : Meets step Allowed ⟨init, []⟩ acts) :
    ∀ pre, pre <+: acts → ∃ w, run step ⟨init, []⟩ pre = some w ∧ Tidy w := by
  intro pre hpre
  obtain ⟨w, hrun, l, h⟩ := meets_reachable (I := fun w => ∃ l, Inv none w.e w.stack l)
    (fun w act ⟨l, h⟩ hallowed => by
      obtain ⟨w', hstep, hI, _⟩ := h.step hallowed
      exact ⟨w', hstep, hI⟩) ⟨[], inv_init⟩ hm pre hpre
  exact ⟨w, hrun, h.tidy⟩

/-- Removed items are silent in exactly the runs in which no dispatch comes to an item
that waits for its removal. -/
theorem sound_iff {acts : List Act} (hm : Meets step Allowed ⟨init, []⟩ acts) :
    Sound acts ↔ Meets step Fits ⟨init, []⟩ acts := by
  have hiff := forall_initial_iff_meets (I := fun w => ∃ l, Inv none w.e w.stack l)
    (G := fun w => Silent w.e.log) (D := Fits)
    (fun w act ⟨l, h⟩ hallowed => by
      obtain ⟨w', hstep, hI, hsilent⟩ := h.step hallowed
      exact ⟨w', hstep, hI, hsilent⟩) ⟨[], inv_init⟩ (show Silent [] from trivial) hm
  rw [← hiff]
  constructor
  · intro h pre hpre w hw
    obtain ⟨w', hrun, _, hsilent⟩ := h pre hpre
    rw [hw, some.injEq] at hrun
    exact hrun ▸ hsilent
  · intro h pre hpre
    obtain ⟨w, hrun, htidy⟩ := tidy_of_meets hm pre hpre
    exact ⟨w, hrun, htidy, h pre hpre w hrun⟩

/-- A handler dispatches another type, whose handler removes both of them, and a handler
of a third item is removed by its return code. -/
theorem sound_iff_nested :
    Meets step Allowed ⟨init, []⟩ [.on 1 7 9 0 1, .on 2 8 9 0 1, .on 3 7 9 0 2, .dispatch 7,
      .handlerReturns .remove, .dispatch 8, .offByTag 1, .handlerReturns .ok,
      .handlerReturns .stop] ∧
    Sound [.on 1 7 9 0 1, .on 2 8 9 0 1, .on 3 7 9 0 2, .dispatch 7, .handlerReturns .remove,
      .dispatch 8, .offByTag 1, .handlerReturns .ok, .handlerReturns .stop] :=
  ⟨by decide +kernel, (sound_iff (by decide +kernel)).mpr (by decide +kernel)⟩

/-- A handler removes its own item and dispatches the type again: it is called again. -/
theorem not_sound_off_dispatch :
    Meets step Allowed ⟨init, []⟩ [.on 1 7 9 0 0, .dispatch 7, .off 1, .dispatch 7] ∧
    ¬ Sound [.on 1 7 9 0 0, .dispatch 7, .off 1, .dispatch 7] := by
  refine ⟨by decide +kernel, fun h => ?_⟩
  obtain ⟨w, hrun, _, hsilent⟩ := h _ (prefix_refl _)
  have hlog := congrArg (Option.map fun w : World => w.e.log) hrun
  have hend : (run step ⟨init, []⟩ [.on 1 7 9 0 0, .dispatch 7, .off 1, .dispatch 7]).map
      (fun w : World => w.e.log) =
      some [.called 0 1, .removed 0, .called 0 1, .registered 0] := by
    decide +kernel
  rw [hend, map_some, some.injEq] at hlog
  rw [← hlog, silent_called] at hsilent
  exact hsilent.1 mem_cons_self

end Awtk.Emitter
