import Mathlib
import Awtk.Tkc.IdleManager

/-!
# Steps of the idle manager

What the calls of a handler do to the list of the idles, and what a turn of a
dispatch keeps.  `Wf` has what holds of a manager outside of all dispatches.
-/

namespace Awtk

open List Option

variable {F : Type}

namespace IdleManager

variable {m m' : IdleManager F} {idle : IdleInfo F} {f : IdleInfo F → IdleInfo F} {o : Nat}

/-! ## Ids -/

/-- Where the ids start from. -/
def position (m : IdleManager F) : Nat := m.nextIdleId.toNat - 1

theorem toNat_candidate (m : IdleManager F) : m.candidate.toNat = m.position + 1 := by
  rw [candidate, position]
  split_ifs with h
  · rw [h]
    rfl
  · have hne : m.nextIdleId.toNat ≠ 0 := fun h0 => h (UInt32.toNat_inj.mp h0)
    omega

theorem position_lt (m : IdleManager F) : m.position < 2 ^ 32 - 1 := by
  have hlt := m.nextIdleId.toNat_lt
  rw [position]
  omega

theorem position_candidate (m : IdleManager F) :
    position { m with nextIdleId := m.candidate + 1 } = (m.position + 1) % (2 ^ 32 - 1) := by
  have hlt := m.position_lt
  rw [position, UInt32.toNat_add, toNat_candidate]
  obtain hlast | hlast : m.position + 1 = 2 ^ 32 - 1 ∨ m.position + 1 < 2 ^ 32 - 1 := by omega
  · rw [hlast]
    rfl
  · rw [Nat.mod_eq_of_lt hlast]
    have hone : (1 : UInt32).toNat = 1 := rfl
    rw [hone, Nat.mod_eq_of_lt (by omega)]
    omega

theorem mem_of_nextId_eq_none : ∀ {n : Nat} {m : IdleManager F}, m.nextId n = none → ∀ i < n,
    (m.position + i) % (2 ^ 32 - 1) + 1 ∈ m.idles.map fun idle => idle.id.toNat
  | n + 1, m, h, i, hi => by
    rw [nextId] at h
    split at h
    · cases h
    · rename_i hfound
      cases i with
      | zero =>
        have hpos : (m.position + 0) % (2 ^ 32 - 1) = m.position := Nat.mod_eq_of_lt m.position_lt
        rw [hpos, ← toNat_candidate]
        rw [isNone_iff_eq_none] at hfound
        obtain ⟨idle, hidle⟩ := ne_none_iff_exists'.mp hfound
        rw [find] at hidle
        split_ifs at hidle
        have hid : idle.id = m.candidate := by simpa using find?_some hidle
        exact List.mem_map.mpr ⟨idle, mem_of_find?_eq_some hidle, by rw [hid]⟩
      | succ i =>
        have hrest := mem_of_nextId_eq_none h i (Nat.lt_of_succ_lt_succ hi)
        rw [position_candidate, Nat.mod_add_mod, Nat.add_assoc, Nat.add_comm 1 i] at hrest
        exact hrest

theorem length_of_cycle {l : List Nat} {n p : Nat} (hp : p < n) (h : ∀ i < n, (p + i) % n + 1 ∈ l) :
    n ≤ l.length := by
  have hsub : List.range' 1 n ⊆ l := by
    intro v hv
    rw [mem_range'_1] at hv
    have hmem := h ((v - 1 + n - p) % n) (Nat.mod_lt _ (Nat.zero_lt_of_lt hp))
    rw [Nat.add_mod_mod, show p + (v - 1 + n - p) = v - 1 + n by omega, Nat.add_mod_right,
      Nat.mod_eq_of_lt (by omega), Nat.sub_add_cancel hv.1] at hmem
    exact hmem
  have hlen := (subperm_of_subset nodup_range' hsub).length_le
  rwa [length_range'] at hlen

theorem exists_nextId (h : m.idles.length < 2 ^ 32 - 1) : ∃ r, m.getNextIdleId = some r := by
  cases hnext : m.getNextIdleId with
  | some r => exact ⟨r, rfl⟩
  | none =>
    have hlen := length_of_cycle m.position_lt fun i hi =>
      mem_of_nextId_eq_none hnext i (Nat.lt_of_lt_of_le hi (Nat.sub_le _ _))
    rw [length_map] at hlen
    exact absurd hlen (Nat.not_le_of_lt h)

theorem nextId_fields {n : Nat} {id : UInt32} (h : m.nextId n = some (id, m')) :
    m'.idles = m.idles ∧ m'.created = m.created := by
  induction n generalizing m with
  | zero => cases h
  | succ n ih =>
    rw [nextId] at h
    split at h
    · cases h
      exact ⟨rfl, rfl⟩
    · have hrest := ih h
      exact hrest

/-! ## Calls -/

/-- What a call of a handler can do to the idles: some are removed, or one is added. -/
inductive Changed (m : IdleManager F) : IdleManager F → Prop
  | removed {m' : IdleManager F} (hidles : m'.idles.Sublist m.idles)
      (hcreated : m'.created = m.created) : Changed m m'
  | added {m' : IdleManager F} (idle : IdleInfo F) (hobject : idle.object = m.created)
      (hid : idle.id ≠ invalidId) (hbusy : idle.busy = false)
      (hidles : m'.idles = m.idles ++ [idle]) (hcreated : m'.created = m.created + 1) : Changed m m'

theorem changed_removeOne (m : IdleManager F) (hit : IdleInfo F → Bool) :
    Changed m (m.removeOne hit).2 := .removed eraseP_sublist rfl

theorem changed_removeHits (m : IdleManager F) (hit : IdleInfo F → Bool) :
    Changed m (m.removeHits hit).2 := .removed filter_sublist rfl

theorem changed_remove (m : IdleManager F) (id : UInt32) : Changed m (m.remove id).2 := by
  rw [remove]
  split_ifs
  · exact .removed (Sublist.refl _) rfl
  · exact changed_removeOne m _

theorem changed_addWithTypeAndId (hidles : m'.idles = m.idles) (hcreated : m'.created = m.created)
    (id : UInt32) (onIdle : F) (ctx : UInt64) (type : UInt16) (checkId : Bool) :
    Changed m (m'.addWithTypeAndId id onIdle ctx type checkId).2 := by
  have hsame : Changed m m' := .removed (hidles ▸ Sublist.refl _) hcreated
  rw [addWithTypeAndId]
  split_ifs with hfound hid
  · exact hsame
  · exact hsame
  · exact .added ⟨m'.created, id, onIdle, ctx, type, false, 0⟩ hcreated hid rfl
      (congrArg (· ++ _) hidles) (congrArg (· + 1) hcreated)

end IdleManager

open IdleManager in
theorem IdleCall.changed {m m' : IdleManager F} {c : IdleCall F} {reply : IdleReply}
    (h : c.apply m = some (reply, m')) : Changed m m' := by
  cases c with
  | add onIdle ctx type =>
    obtain ⟨⟨id, m₁⟩, hadd, heq⟩ := map_eq_some_iff.mp h
    obtain ⟨⟨id₀, m₀⟩, hnext, hadd⟩ := map_eq_some_iff.mp hadd
    obtain ⟨hidles, hcreated⟩ := nextId_fields hnext
    have hchanged := changed_addWithTypeAndId hidles hcreated id₀ onIdle ctx type false
    rw [show m₀.addWithTypeAndId id₀ onIdle ctx type false = (id, m₁) from hadd] at hchanged
    cases heq
    exact hchanged
  | addWithId id onIdle ctx type checkId =>
    cases h
    exact changed_addWithTypeAndId rfl rfl id onIdle ctx type checkId
  | remove id =>
    cases h
    exact changed_remove m id
  | removeAllByCtx ctx =>
    cases h
    exact changed_removeHits m _
  | removeAllByCtxAndType type ctx =>
    cases h
    exact changed_removeHits m _
  | removeAll =>
    cases h
    exact .removed (nil_sublist _) rfl

/-- The call looks for a free id. -/
def IdleCall.isAdd : IdleCall F → Bool
  | .add _ _ _ => true
  | _ => false

theorem IdleCall.exists_apply {m : IdleManager F} {c : IdleCall F}
    (h : c.isAdd = true → m.idles.length < 2 ^ 32 - 1) : ∃ r, c.apply m = some r := by
  cases c with
  | add onIdle ctx type =>
    obtain ⟨r, hr⟩ := IdleManager.exists_nextId (h rfl)
    rw [apply, IdleManager.addWithType, hr, map_some, map_some]
    exact ⟨_, rfl⟩
  | _ => exact ⟨_, rfl⟩

namespace IdleManager

variable {m m' : IdleManager F} {idle x : IdleInfo F} {hs : List (IdleInfo F)} {r : Ret}

/-! ## Writes -/

theorem mem_update {o : Nat} {f : IdleInfo F → IdleInfo F} :
    x ∈ (m.update o f).idles ↔ ∃ y ∈ m.idles, (if y.object = o then f y else y) = x :=
  List.mem_map

theorem objects_update {o : Nat} {f : IdleInfo F → IdleInfo F} (hf : ∀ y, (f y).object = y.object) :
    (m.update o f).objects = m.objects := by
  rw [objects, update, List.map_map, objects]
  refine map_congr_left fun y _ => ?_
  rw [Function.comp_apply]
  split_ifs
  · exact hf y
  · rfl

theorem mem_objects {o : Nat} : o ∈ m.objects ↔ ∃ x ∈ m.idles, x.object = o := List.mem_map

theorem eq_of_object (h : m.objects.Nodup) {y : IdleInfo F} (hx : x ∈ m.idles) (hy : y ∈ m.idles)
    (heq : x.object = y.object) : x = y :=
  inj_on_of_nodup_map h hx hy heq

/-- Some idles are new, the others are as they were but for the flag. -/
def Kept (m m' : IdleManager F) : Prop :=
  m.created ≤ m'.created ∧ ∀ x ∈ m'.idles,
    (∃ y ∈ m.idles, y.object = x.object ∧ y.id = x.id ∧ y.dispatchId = x.dispatchId) ∨
      x.object = m.created

theorem Changed.kept (h : Changed m m') : Kept m m' := by
  cases h with
  | removed hidles hcreated =>
    exact ⟨Nat.le_of_eq hcreated.symm, fun x hx => .inl ⟨x, hidles.subset hx, rfl, rfl, rfl⟩⟩
  | added idle hobject hid hbusy hidles hcreated =>
    refine ⟨hcreated ▸ Nat.le_succ _, fun x hx => ?_⟩
    rw [hidles] at hx
    obtain hx | hx := mem_append.mp hx
    · exact .inl ⟨x, hx, rfl, rfl, rfl⟩
    · rw [mem_singleton.mp hx]
      exact .inr hobject

theorem sublist_answer (m : IdleManager F) (idle : IdleInfo F) (r : Ret) :
    (m.answer idle r).idles.Sublist (m.update idle.object IdleInfo.finish).idles := by
  rw [answer]
  split_ifs
  · rw [remove]
    split_ifs
    · exact Sublist.refl _
    · exact eraseP_sublist
  · exact Sublist.refl _

theorem created_answer (m : IdleManager F) (idle : IdleInfo F) (r : Ret) :
    (m.answer idle r).created = m.created := by
  rw [answer]
  split_ifs
  · rw [remove]
    split_ifs
    · rfl
    · rfl
  · rfl

theorem kept_answer (m : IdleManager F) (idle : IdleInfo F) (r : Ret) :
    Kept m (m.answer idle r) := by
  refine ⟨Nat.le_of_eq (created_answer m idle r).symm, fun x hx => .inl ?_⟩
  obtain ⟨y, hy, rfl⟩ := mem_update.mp ((sublist_answer m idle r).subset hx)
  refine ⟨y, hy, ?_⟩
  split_ifs
  · exact ⟨rfl, rfl, rfl⟩
  · exact ⟨rfl, rfl, rfl⟩

theorem objects_answer_sublist (m : IdleManager F) (idle : IdleInfo F) (r : Ret) :
    (m.answer idle r).objects.Sublist m.objects := by
  have h := (sublist_answer m idle r).map IdleInfo.object
  have hsame : (m.update idle.object IdleInfo.finish).objects = m.objects :=
    objects_update fun _ => rfl
  rw [objects] at hsame
  rwa [hsame] at h

/-! ## Objects -/

/-- Every listed object has an id, and those that are busy are those whose handlers run. -/
structure Objects (m : IdleManager F) (hs : List (IdleInfo F)) : Prop where
  distinct : m.objects.Nodup
  created : ∀ o ∈ m.objects, o < m.created
  ids : ∀ x ∈ m.idles, x.id ≠ invalidId
  busy : ∀ x ∈ m.idles, x.busy = true ↔ x.object ∈ hs.map IdleInfo.object
  handled : (hs.map IdleInfo.object).Nodup
  handledCreated : ∀ h ∈ hs, h.object < m.created
  handledIds : ∀ h ∈ hs, h.id ≠ invalidId
  same : ∀ h ∈ hs, ∀ x ∈ m.idles, x.object = h.object → x.id = h.id

namespace Objects

theorem changed (h : Objects m hs) (hchanged : Changed m m') : Objects m' hs := by
  cases hchanged with
  | removed hidles hcreated =>
    have hsub : m'.objects.Sublist m.objects := hidles.map _
    exact {
      distinct := h.distinct.sublist hsub
      created := fun o ho => hcreated ▸ h.created o (hsub.subset ho)
      ids := fun x hx => h.ids x (hidles.subset hx)
      busy := fun x hx => h.busy x (hidles.subset hx)
      handled := h.handled
      handledCreated := fun x hx => hcreated ▸ h.handledCreated x hx
      handledIds := h.handledIds
      same := fun y hy x hx => h.same y hy x (hidles.subset hx) }
  | added idle hobject hid hbusy hidles hcreated =>
    have hobjects : m'.objects = m.objects ++ [m.created] := by
      rw [objects, hidles, map_append, map_singleton, hobject, objects]
    have hnew : m.created ∉ m.objects := fun hmem => Nat.lt_irrefl _ (h.created _ hmem)
    have hfree : idle.object ∉ hs.map IdleInfo.object := by
      intro hmem
      obtain ⟨y, hy, heq⟩ := List.mem_map.mp hmem
      exact Nat.ne_of_lt (h.handledCreated y hy) (heq.trans hobject)
    have hcases : ∀ x ∈ m'.idles, x ∈ m.idles ∨ x = idle := by
      intro x hx
      rw [hidles] at hx
      exact (mem_append.mp hx).imp_right mem_singleton.mp
    refine { h with distinct := ?_, created := ?_, ids := ?_, busy := ?_, handledCreated := ?_,
                    same := ?_ }
    · rw [hobjects, ← concat_eq_append]
      exact (nodup_concat _ _).mpr ⟨hnew, h.distinct⟩
    · intro o ho
      rw [hobjects] at ho
      rw [hcreated]
      obtain ho | ho := mem_append.mp ho
      · exact Nat.lt_succ_of_lt (h.created o ho)
      · rw [mem_singleton.mp ho]
        exact Nat.lt_succ_self _
    · intro x hx
      obtain hx | rfl := hcases x hx
      · exact h.ids x hx
      · exact hid
    · intro x hx
      obtain hx | rfl := hcases x hx
      · exact h.busy x hx
      · rw [hbusy]
        exact iff_of_false Bool.false_ne_true hfree
    · intro y hy
      rw [hcreated]
      exact Nat.lt_succ_of_lt (h.handledCreated y hy)
    · intro y hy x hx heq
      obtain hx | rfl := hcases x hx
      · exact h.same y hy x hx heq
      · exact absurd (heq ▸ List.mem_map_of_mem hy) hfree

/-- The handler of an idle that is not busy is called. -/
theorem begin (h : Objects m hs) (hidle : idle ∈ m.idles) (hbusy : idle.busy = false)
    (times : UInt32) :
    Objects (m.update idle.object (IdleInfo.begin times)) (idle.begin times :: hs) := by
  have hobjects : (m.update idle.object (IdleInfo.begin times)).objects = m.objects :=
    objects_update fun _ => rfl
  have hnot : idle.object ∉ hs.map IdleInfo.object := by
    intro hmem
    rw [(h.busy idle hidle).mpr hmem] at hbusy
    cases hbusy
  refine ⟨?_, ?_, ?_, ?_, ?_, ?_, ?_, ?_⟩
  · rw [hobjects]
    exact h.distinct
  · rw [hobjects]
    exact h.created
  · intro x hx
    obtain ⟨y, hy, rfl⟩ := mem_update.mp hx
    split_ifs
    · exact h.ids y hy
    · exact h.ids y hy
  · intro x hx
    obtain ⟨y, hy, rfl⟩ := mem_update.mp hx
    rw [map_cons, mem_cons]
    split_ifs with heq
    · exact iff_of_true rfl (.inl heq)
    · rw [h.busy y hy]
      exact (or_iff_right heq).symm
  · exact nodup_cons.mpr ⟨hnot, h.handled⟩
  · intro y hy
    rcases mem_cons.mp hy with rfl | hy
    · exact h.created idle.object (List.mem_map_of_mem hidle)
    · exact h.handledCreated y hy
  · intro y hy
    rcases mem_cons.mp hy with rfl | hy
    · exact h.ids idle hidle
    · exact h.handledIds y hy
  · intro y hy x hx heq
    obtain ⟨z, hz, rfl⟩ := mem_update.mp hx
    have hz' : z.object = y.object ∧ (z.id = y.id →
        (if z.object = idle.object then z.begin times else z).id = y.id) := by
      split_ifs at heq ⊢
      · exact ⟨heq, fun h => h⟩
      · exact ⟨heq, fun h => h⟩
    refine hz'.2 ?_
    rcases mem_cons.mp hy with rfl | hy
    · rw [eq_of_object h.distinct hz hidle hz'.1]
      rfl
    · exact h.same y hy z hz hz'.1

theorem finish (h : Objects m (idle :: hs)) :
    Objects (m.update idle.object IdleInfo.finish) hs := by
  have hobjects : (m.update idle.object IdleInfo.finish).objects = m.objects :=
    objects_update fun _ => rfl
  obtain ⟨hnot, hhandled⟩ := nodup_cons.mp h.handled
  refine ⟨?_, ?_, ?_, ?_, hhandled, ?_, ?_, ?_⟩
  · rw [hobjects]
    exact h.distinct
  · rw [hobjects]
    exact h.created
  · intro x hx
    obtain ⟨y, hy, rfl⟩ := mem_update.mp hx
    split_ifs
    · exact h.ids y hy
    · exact h.ids y hy
  · intro x hx
    obtain ⟨y, hy, rfl⟩ := mem_update.mp hx
    have hbusy := h.busy y hy
    rw [map_cons, mem_cons] at hbusy
    split_ifs with heq
    · refine iff_of_false Bool.false_ne_true fun hmem => hnot ?_
      rw [← heq]
      exact hmem
    · rw [hbusy]
      exact or_iff_right heq
  · exact fun y hy => h.handledCreated y (mem_cons_of_mem _ hy)
  · exact fun y hy => h.handledIds y (mem_cons_of_mem _ hy)
  · intro y hy x hx heq
    obtain ⟨z, hz, rfl⟩ := mem_update.mp hx
    have hsame := h.same y (mem_cons_of_mem _ hy) z hz
    split_ifs at heq ⊢
    · exact hsame heq
    · exact hsame heq

theorem answer (h : Objects m (idle :: hs)) (r : Ret) : Objects (m.answer idle r) hs := by
  rw [IdleManager.answer]
  split_ifs
  · exact h.finish.changed (changed_remove _ _)
  · exact h.finish

theorem not_mem_answer (h : Objects m (idle :: hs)) (hr : r ≠ .repeat)
    (hid : ∀ x ∈ m.idles, x.id = idle.id → x.object = idle.object) :
    idle.object ∉ (m.answer idle r).objects := by
  rw [IdleManager.answer, if_pos hr, remove, if_neg (h.handledIds idle mem_cons_self)]
  intro hmem
  obtain ⟨x, hx, hobject⟩ := mem_objects.mp hmem
  have hx' := eraseP_sublist.subset hx
  have hxid : x.id = idle.id := by
    obtain ⟨y, hy, rfl⟩ := mem_update.mp hx'
    have hsame := h.same idle mem_cons_self y hy
    split_ifs at hobject ⊢
    · exact hsame hobject
    · exact hsame hobject
  obtain ⟨a, l₁, l₂, -, ha, hl, herase⟩ :=
    exists_of_eraseP (p := (·.id = idle.id)) hx' (decide_eq_true hxid)
  have haobject : a.object = idle.object := by
    have hmema : a ∈ (m.update idle.object IdleInfo.finish).idles :=
      hl ▸ mem_append_right _ mem_cons_self
    have haid : a.id = idle.id := of_decide_eq_true ha
    obtain ⟨y, hy, rfl⟩ := mem_update.mp hmema
    split_ifs at haid ⊢
    · exact hid y hy haid
    · exact hid y hy haid
  have hdistinct := h.finish.distinct
  rw [objects, hl, map_append, map_cons, nodup_middle, ← map_append,
    nodup_cons] at hdistinct
  refine hdistinct.1 ?_
  rw [haobject, ← hobject, ← herase]
  exact List.mem_map_of_mem hx

theorem mem_answer (hid : ∀ x ∈ m.idles, x.id = idle.id → x.object = idle.object) {o : Nat}
    (ho : o ∈ m.objects) :
    o ∈ (m.answer idle r).objects ∨ (r ≠ .repeat ∧ o = idle.object) := by
  have hobjects : (m.update idle.object IdleInfo.finish).objects = m.objects :=
    objects_update fun _ => rfl
  rw [← hobjects] at ho
  rw [IdleManager.answer]
  split_ifs with hr
  · rw [remove]
    split_ifs
    · exact .inl ho
    · obtain ⟨x, hx, rfl⟩ := mem_objects.mp ho
      by_cases hxid : x.id = idle.id
      · obtain ⟨y, hy, rfl⟩ := mem_update.mp hx
        refine .inr ⟨hr, ?_⟩
        split_ifs at hxid ⊢
        · exact hid y hy hxid
        · exact hid y hy hxid
      · refine .inl (mem_objects.mpr ⟨x, ?_, rfl⟩)
        exact (mem_eraseP_of_neg (by simpa using hxid)).mpr hx
  · exact .inl ho

end Objects

end IdleManager

end Awtk
