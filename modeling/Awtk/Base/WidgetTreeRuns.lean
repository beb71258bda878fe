import Awtk.Lib.Run
import Awtk.Base.WidgetTreeLinks

/-!
# Runs of the widget tree

Every run of calls keeps parents and children together and follows the lists of the children, as
long as the widget that is removed is a child, or has no parent (`follows_of_meets`).  Removing a
widget from a parent that is not its own takes its parent away (`removeChild_other_parent`).
-/

namespace Awtk.Forest

open Function List Option

open Function (update)
open Relation (Acyclic Rank TransGen ReflTransGen)
open Runs (run Meets)

variable {ι : Type*} [DecidableEq ι] {f f' f'' : Forest ι} {w c p : ι} {rank : ι → Nat}

/-! ## Destroying children -/

/-- What is left after a widget of some rank is released. -/
structure Released (rank : ι → Nat) (w : ι) (f f' : Forest ι) : Prop where
  linked : Linked f'
  below : ∀ a b, f'.Below a b → f.Below a b
  alive : ∀ p, f'.alive p → f.alive p
  alive_above : ∀ p, rank w < rank p → f'.alive p = f.alive p
  children : ∀ p, f'.alive p → f'.children p = f.children p

/-- What is left after the children of a widget are released. -/
structure Emptied (rank : ι → Nat) (w : ι) (f f' : Forest ι) : Prop where
  linked : Linked f'
  below : ∀ a b, f'.Below a b → f.Below a b
  alive : ∀ p, f'.alive p → f.alive p
  alive_above : ∀ p, rank w ≤ rank p → f'.alive p = f.alive p
  children : ∀ p, p ≠ w → f'.alive p → f'.children p = f.children p
  kids : f'.kids w = []

theorem freed_linked (hf : Linked f) (hkids : f.kids w = []) (hparent : f.parent w = none) :
    Linked { f with children := update f.children w none, alive := update f.alive w false } := by
  let f₂ : Forest ι :=
    { f with children := update f.children w none, alive := update f.alive w false }
  change Linked f₂
  have hsame : ∀ p, f₂.kids p = f.kids p := by
    intro p
    by_cases hp : p = w
    · subst hp
      rw [hkids]
      simp [kids, f₂]
    · simp only [kids, f₂, update_of_ne hp]
  constructor
  · exact fun x p => by rw [hsame]; exact hf.parent_iff x p
  · exact fun p => by rw [hsame]; exact hf.nodup p
  · exact fun p t ht => by rw [hsame]; exact hf.target p t ht
  · exact fun p t ht => by rw [hsame]; exact hf.grabWidget p t ht
  · exact fun p t ht => by rw [hsame]; exact hf.keyTarget p t ht
  · intro x p hx
    rw [hsame] at hx
    have hxw : x ≠ w := by
      rintro rfl
      rw [← hf.parent_iff, hparent] at hx
      cases hx
    have hpw : p ≠ w := by
      rintro rfl
      rw [hkids] at hx
      cases hx
    simp only [f₂, update_of_ne hxw, update_of_ne hpw]
    exact hf.alive x p hx
  · exact hf.acyclic
  · intro x hx
    by_cases hxw : x = w
    · subst hxw
      simp [f₂] at hx
    · simp only [f₂, update_of_ne hxw] at hx
      exact hf.refCount x hx

variable [Fintype ι]

/-- The children are released one by one. -/
theorem destroyLoop_some (env : WidgetEnv ι) {unref : Forest ι → ι → Option (Forest ι)}
    (hunref : ∀ f c, Linked f → Rank f.Below rank → f.parent c = none → f.alive c →
      rank c < rank w → ∃ f', unref f c = some f' ∧ Released rank c f f') :
    ∀ (cs : List ι) (f : Forest ι), Linked f → Rank f.Below rank → f.alive w → f.kids w = cs →
      ∃ f', destroyLoop env unref w cs f = some f' ∧ Emptied rank w f f'
  | [], f, hf, _, _, hcs =>
    ⟨f, rfl, hf, fun _ _ h => h, fun _ h => h, fun _ _ => rfl, fun _ _ _ => rfl, hcs⟩
  | iter :: rest, f, hf, hrank, hw, hcs => by
    have hiter : iter ∈ f.kids w := hcs ▸ mem_cons_self
    have hbelow : f.Below iter w := (hf.parent_iff iter w).mpr hiter
    have hlt : rank iter < rank w := hrank.grows iter w hbelow
    obtain ⟨f₁, hprepare, h₁⟩ :=
      removeChildPrepare_some env (hf.ranked hrank) hw (hf.alive iter w hiter).1
    have hlinked := h₁.linked hf hiter
    rw [hcs, erase_cons_head] at hlinked
    set f₂ : Forest ι := { f₁ with children := update f₁.children w (some rest) } with hf₂
    have hparent₂ : f₂.parent = update f.parent iter none := h₁.parent
    have halive₂ : f₂.alive = f.alive := h₁.alive
    have hchildren₂ : f₂.children = update f.children w (some rest) := by
      rw [hf₂, ← h₁.children]
    have hbelow₂ : ∀ a b, f₂.Below a b → f.Below a b := by
      intro a b hab
      rw [Below, hparent₂] at hab
      by_cases ha : a = iter
      · subst ha
        simp at hab
      · rwa [update_of_ne ha] at hab
    obtain ⟨f₃, hrun₃, h₃⟩ := hunref f₂ iter hlinked (hrank.mono hbelow₂)
      (by rw [hparent₂, update_self]) (by rw [halive₂]; exact (hf.alive iter w hiter).1) hlt
    have hw₃ : f₃.alive w := by rw [h₃.alive_above w hlt, halive₂]; exact hw
    have hkids₃ : f₃.kids w = rest :=
      kids_eq (by rw [h₃.children w hw₃, hchildren₂, update_self])
    obtain ⟨f', hrun, h⟩ := destroyLoop_some env hunref rest f₃ h₃.linked
      ((hrank.mono hbelow₂).mono h₃.below) hw₃ hkids₃
    refine ⟨f', by simp only [destroyLoop, hprepare, ← hf₂, hrun₃, hrun], h.linked, ?_, ?_, ?_, ?_,
      h.kids⟩
    · exact fun a b hab => hbelow₂ a b (h₃.below a b (h.below a b hab))
    · intro p hp
      rw [← halive₂]
      exact h₃.alive p (h.alive p hp)
    · intro p hp
      rw [h.alive_above p hp, h₃.alive_above p (by omega), halive₂]
    · intro p hpw hp
      rw [h.children p hpw hp, h₃.children p (h.alive p hp), hchildren₂, update_of_ne hpw]

/-- A widget that has no parent is released, as its children have a smaller rank. -/
theorem unref_some (env : WidgetEnv ι) : ∀ (fuel : Nat) (f : Forest ι) (c : ι), Linked f →
    Rank f.Below rank → f.parent c = none → f.alive c → rank c < fuel →
      ∃ f', unref env fuel f c = some f' ∧ Released rank c f f'
  | 0, _, _, _, _, _, _, hfuel => absurd hfuel (Nat.not_lt_zero _)
  | fuel + 1, f, c, hf, hrank, hparent, hc, hfuel => by
    have hrefs : 0 < f.refCount c := hf.refCount c hc
    rw [unref, if_pos ⟨hc, hrefs⟩]
    by_cases hmany : 1 < f.refCount c
    · rw [if_pos hmany]
      refine ⟨_, rfl, ⟨⟨hf.parent_iff, hf.nodup, hf.target, hf.grabWidget, hf.keyTarget, hf.alive,
        hf.acyclic, ?_⟩, fun _ _ h => h, fun _ h => h, fun _ _ => rfl, fun _ _ => rfl⟩⟩
      intro x hx
      by_cases hxc : x = c
      · subst hxc
        simp only [update_self]
        omega
      · simp only [update_of_ne hxc]
        exact hf.refCount x hx
    · rw [if_neg hmany]
      split_ifs with hidle
      · exact ⟨f, rfl, hf, fun _ _ h => h, fun _ h => h, fun _ _ => rfl, fun _ _ => rfl⟩
      · have hunref : ∀ f d, Linked f → Rank f.Below rank → f.parent d = none → f.alive d →
            rank d < rank c → ∃ f', unref env fuel f d = some f' ∧ Released rank d f f' :=
          fun f d hf hrank hparent hd hlt =>
            unref_some env fuel f d hf hrank hparent hd (by omega)
        obtain ⟨f', hrun, h⟩ := destroyLoop_some env hunref (f.kids c) f hf hrank hc rfl
        have hparent' : f'.parent c = none := by
          cases hp : f'.parent c with
          | none => rfl
          | some p => exact absurd (h.below c p hp) (by simp [Below, hparent])
        rw [← kids, hrun]
        refine ⟨_, rfl, freed_linked h.linked h.kids hparent', h.below, ?_, ?_, ?_⟩
        · intro p hp
          by_cases hpc : p = c
          · subst hpc
            exact hc
          · simp only [update_of_ne hpc] at hp
            exact h.alive p hp
        · intro p hp
          have hpc : p ≠ c := by
            rintro rfl
            exact lt_irrefl _ hp
          simp only [update_of_ne hpc]
          exact h.alive_above p hp.le
        · intro p hp
          have hpc : p ≠ c := by
            rintro rfl
            simp at hp
          simp only [update_of_ne hpc] at hp ⊢
          exact h.children p hpc hp

theorem destroyChildren_some (env : WidgetEnv ι) (hf : Linked f) (hw : f.alive w) :
    ∃ f', destroyChildren env f w = some (.ok, f') ∧ Linked f' ∧ f'.alive w ∧ f'.kids w = [] ∧
      ∀ p, p ≠ w → f'.alive p → f'.children p = f.children p := by
  obtain ⟨rank, hrank⟩ := hf.acyclic.exists_rank
  have hunref : ∀ f c, Linked f → Rank f.Below rank → f.parent c = none → f.alive c →
      rank c < rank w → ∃ f', unref env (Fintype.card ι) f c = some f' ∧ Released rank c f f' :=
    fun f c hf hrank hparent hc _ =>
      unref_some env (Fintype.card ι) f c hf hrank hparent hc (hrank.lt_card c)
  obtain ⟨f', hrun, h⟩ := destroyLoop_some env hunref (f.kids w) f hf hrank hw rfl
  refine ⟨f', by rw [destroyChildren, if_pos hw, ← kids, hrun, map_some], h.linked, ?_,
    h.kids, h.children⟩
  rw [h.alive_above w le_rfl]
  exact hw

/-! ## Calls -/

/-- A call on the tree. -/
inductive Op (ι : Type*) where
  | addChild (widget child : ι)
  | insertChild (widget : ι) (index : Nat) (child : ι)
  | removeChild (widget child : ι)
  | restack (widget : ι) (index : Nat)
  | destroyChildren (widget : ι)

/-- What the call does. -/
def call (env : WidgetEnv ι) (f : Forest ι) : Op ι → Option (Ret × Forest ι)
  | .addChild widget child => addChild f widget child
  | .insertChild widget index child => insertChild f widget index child
  | .removeChild widget child => removeChild env f widget child
  | .restack widget index => restack f widget index
  | .destroyChildren widget => destroyChildren env f widget

/-- The forest after a call. -/
def step (env : WidgetEnv ι) (f : Forest ι) (op : Op ι) : Option (Forest ι) :=
  (call env f op).map Prod.snd

/-- The widgets of the call exist, and a widget that is added is not an ancestor. -/
def Op.Legal (f : Forest ι) : Op ι → Prop
  | .addChild w c | .insertChild w _ c => f.alive w ∧ f.alive c ∧ ¬ TransGen f.Below w c
  | .removeChild w c => f.alive w ∧ f.alive c
  | .restack w _ | .destroyChildren w => f.alive w

/-- The call does what it is documented to do.  A widget without a parent is not added to itself, and
a widget that is removed is a child, or has no parent and no focus. -/
def Op.Ok (env : WidgetEnv ι) (f : Forest ι) : Op ι → Prop
  | .addChild w c | .insertChild w _ c => f.parent c = none → c ≠ w
  | .removeChild w c => c ∈ f.kids w ∨ (f.parent c = none ∧ ¬ FocusedWindow env f c)
  | .restack .. | .destroyChildren _ => True

/-! ## The lists of the children -/

/-- Parents and children name each other, and the cached widgets are children. -/
structure Consistent (f : Forest ι) : Prop where
  parent_iff : ∀ c p, f.parent c = some p ↔ c ∈ f.kids p
  nodup : ∀ p, (f.kids p).Nodup
  target : ∀ p t, f.target p = some t → t ∈ f.kids p
  grabWidget : ∀ p t, f.grabWidget p = some t → t ∈ f.kids p
  keyTarget : ∀ p t, f.keyTarget p = some t → t ∈ f.kids p

/-- When a call succeeds. -/
def Op.Succeeds (f : Forest ι) : Op ι → Prop
  | .addChild _ c | .insertChild _ _ c => f.parent c = none
  | .removeChild w c => c ∈ f.kids w
  | .restack w _ => f.parent w ≠ none
  | .destroyChildren _ => True

/-- What a call that succeeds does to the lists. -/
def Op.Lists (f f' : Forest ι) : Op ι → Prop
  | .addChild w c => f'.kids = update f.kids w (f.kids w ++ [c])
  | .insertChild w index c =>
    f'.kids = update f.kids w ((f.kids w).insertIdx (min index (f.kids w).length) c)
  | .removeChild w c => f'.kids = update f.kids w ((f.kids w).erase c)
  | .restack w index => ∀ p, f.parent w = some p → f'.kids = update f.kids p
      (((f.kids p).erase w).insertIdx (min index ((f.kids p).length - 1)) w)
  | .destroyChildren w => f'.kids w = [] ∧ ∀ p, p ≠ w → f'.alive p → f'.kids p = f.kids p

/-- A call that succeeds follows the lists, and one that fails changes nothing. -/
def Follows (env : WidgetEnv ι) (f : Forest ι) (op : Op ι) : Prop :=
  ∃ ret f', call env f op = some (ret, f') ∧ (ret = .ok ↔ op.Succeeds f) ∧
    (ret = .ok → op.Lists f f') ∧ (ret ≠ .ok → f' = f)

/-- The forest is consistent before and after each call of a run, and each call follows the lists. -/
def Keeps (env : WidgetEnv ι) (f : Forest ι) (ops : List (Op ι)) : Prop :=
  (∀ pre, pre <+: ops → ∃ f', run (step env) f pre = some f' ∧ Consistent f') ∧
    Meets (step env) (Follows env) f ops

omit [DecidableEq ι] [Fintype ι] in
theorem Linked.consistent (hf : Linked f) : Consistent f :=
  ⟨hf.parent_iff, hf.nodup, hf.target, hf.grabWidget, hf.keyTarget⟩

theorem follows_fail {env : WidgetEnv ι} {op : Op ι} {ret : Ret}
    (hcall : call env f op = some (ret, f)) (hret : ret ≠ .ok) (hnot : ¬ op.Succeeds f) :
    Follows env f op :=
  ⟨ret, f, hcall, iff_of_false hret hnot, fun h => absurd h hret, fun _ => rfl⟩

theorem follows_ok {env : WidgetEnv ι} {op : Op ι} (hcall : call env f op = some (.ok, f'))
    (hsucceeds : op.Succeeds f) (hlists : op.Lists f f') : Follows env f op :=
  ⟨.ok, f', hcall, iff_of_true rfl hsucceeds, fun _ => hlists, fun h => absurd rfl h⟩

/-- A call keeps the links and follows the lists. -/
theorem call_linked (env : WidgetEnv ι) (f : Forest ι) (op : Op ι) (hf : Linked f)
    (hlegal : op.Legal f) (hok : op.Ok env f) :
    (∃ f', step env f op = some f' ∧ Linked f') ∧ Follows env f op := by
  cases op with
  | addChild w c =>
    obtain ⟨hw, hc, habove⟩ := hlegal
    cases hparent : f.parent c with
    | none =>
      have hcall : call env f (.addChild w c) = some (.ok, added f w c) :=
        addChild_orphan hw hc hparent
      have hlinked : Linked (added f w c) :=
        added_linked hf hw hc hparent (not_above (hok hparent) habove)
      exact ⟨⟨_, by rw [step, hcall]; rfl, hlinked⟩, follows_ok hcall hparent (kids_update rfl)⟩
    | some p =>
      have hcall : call env f (.addChild w c) = some (.badParams, f) := addChild_parent hw hc hparent
      exact ⟨⟨f, by rw [step, hcall]; rfl, hf⟩,
        follows_fail hcall (by simp) (by simp [Op.Succeeds, hparent])⟩
  | insertChild w index c =>
    obtain ⟨hw, hc, habove⟩ := hlegal
    cases hparent : f.parent c with
    | none =>
      obtain ⟨f', hcall, hlinked, hkids⟩ :=
        insertChild_orphan hf hw hc hparent (not_above (hok hparent) habove) index
      exact ⟨⟨f', by rw [step, call, hcall]; rfl, hlinked⟩, follows_ok hcall hparent hkids⟩
    | some p =>
      have hcall : call env f (.insertChild w index c) = some (.fail, f) := by
        rw [call, insertChild, addChild_parent hw hc hparent]
      exact ⟨⟨f, by rw [step, hcall]; rfl, hf⟩,
        follows_fail hcall (by simp) (by simp [Op.Succeeds, hparent])⟩
  | removeChild w c =>
    obtain ⟨hw, hc⟩ := hlegal
    rcases hok with hmem | ⟨hparent, hfocus⟩
    · obtain ⟨f', hcall, hlinked, hchildren, -⟩ := removeChild_some env hf hmem
      exact ⟨⟨f', by rw [step, call, hcall]; rfl, hlinked⟩,
        follows_ok hcall hmem (kids_update hchildren)⟩
    · obtain ⟨ret, hcall, hret⟩ := removeChild_orphan env hf hw hc hparent hfocus
      refine ⟨⟨f, by rw [step, call, hcall]; rfl, hf⟩, follows_fail hcall hret ?_⟩
      intro hmem
      rw [Op.Succeeds, ← hf.parent_iff, hparent] at hmem
      cases hmem
  | restack c index =>
    cases hparent : f.parent c with
    | none =>
      have hcall : call env f (.restack c index) = some (.badParams, f) :=
        restack_orphan hlegal hparent index
      exact ⟨⟨f, by rw [step, hcall]; rfl, hf⟩,
        follows_fail hcall (by simp) (by simp [Op.Succeeds, hparent])⟩
    | some p =>
      have hmem : c ∈ f.kids p := (hf.parent_iff c p).mp hparent
      have hcall := restack_some hf hmem index
      refine ⟨⟨_, by rw [step, call, hcall]; rfl, hf.perm (moved_perm hmem index)⟩,
        follows_ok hcall (by simp [Op.Succeeds, hparent]) ?_⟩
      intro q hq
      rw [hparent, some.injEq] at hq
      subst hq
      exact kids_update rfl
  | destroyChildren w =>
    obtain ⟨f', hcall, hlinked, -, hkids, hchildren⟩ := destroyChildren_some env hf hlegal
    refine ⟨⟨f', by rw [step, call, hcall]; rfl, hlinked⟩, follows_ok hcall trivial ⟨hkids, ?_⟩⟩
    intro p hp halive
    rw [kids, kids, hchildren p hp halive]

/-- A run keeps the forest consistent and follows the lists of the children. -/
theorem follows_of_meets (env : WidgetEnv ι) {ops : List (Op ι)} (hf : Linked f)
    (hmeets : Meets (step env) (fun f op => op.Legal f ∧ op.Ok env f) f ops) : Keeps env f ops := by
  have hstep : ∀ f op, Linked f → op.Legal f ∧ op.Ok env f →
      ∃ f', step env f op = some f' ∧ Linked f' :=
    fun f op hf h => (call_linked env f op hf h.1 h.2).1
  refine ⟨fun pre hpre => ?_, hmeets.imp_invariant hstep
    (fun f op hf h => (call_linked env f op hf h.1 h.2).2) hf⟩
  obtain ⟨f', hrun, hlinked⟩ := Runs.meets_reachable hstep hf hmeets pre hpre
  exact ⟨f', hrun, hlinked.consistent⟩

/-! ## Widgets that have no links -/

/-- Widgets that have no links. -/
def bare (ι : Type*) : Forest ι where
  parent := fun _ => none
  children := fun _ => none
  target := fun _ => none
  grabWidget := fun _ => none
  grabWidgetCount := fun _ => 0
  keyTarget := fun _ => none
  focused := fun _ => false
  refCount := fun _ => 1
  alive := fun _ => true

omit [DecidableEq ι] [Fintype ι] in
theorem root_not_above (hw : f.parent w = none) : ¬ TransGen f.Below w c := by
  intro h
  obtain ⟨p, hp, -⟩ := Relation.TransGen.head'_iff.mp h
  exact absurd hp (by simp [Below, hw])

omit [DecidableEq ι] [Fintype ι] in
theorem bare_linked : Linked (bare ι) := by
  constructor <;> simp [bare, kids]
  exact fun w => root_not_above (f := bare ι) rfl

/-- There are no windows. -/
def noWindows (ι : Type*) : WidgetEnv ι :=
  ⟨fun _ => false, fun _ => .none, fun _ => false⟩

theorem follows_of_meets_example : Keeps (noWindows (Fin 3)) (bare (Fin 3))
    [.addChild 0 1, .insertChild 0 0 2, .restack 2 7, .removeChild 0 1, .removeChild 0 1,
      .destroyChildren 0] := by
  refine follows_of_meets (noWindows (Fin 3)) bare_linked ?_
  refine (Runs.meets_cons_some rfl).mpr ⟨⟨⟨rfl, rfl, root_not_above rfl⟩, fun _ => by decide⟩, ?_⟩
  refine (Runs.meets_cons_some rfl).mpr ⟨⟨⟨rfl, rfl, root_not_above rfl⟩, fun _ => by decide⟩, ?_⟩
  refine (Runs.meets_cons_some rfl).mpr ⟨⟨rfl, trivial⟩, ?_⟩
  refine (Runs.meets_cons_some rfl).mpr ⟨⟨⟨rfl, rfl⟩, .inl (by decide)⟩, ?_⟩
  refine (Runs.meets_cons_some rfl).mpr ⟨⟨⟨rfl, rfl⟩, .inr ⟨rfl, by simp [FocusedWindow, noWindows]⟩⟩, ?_⟩
  refine (Runs.meets_cons_some rfl).mpr ⟨⟨rfl, trivial⟩, trivial⟩

/-- The child of another parent loses its parent, and stays in the list of its children. -/
theorem removeChild_other_parent : ¬ ∀ (env : WidgetEnv (Fin 3)) (f : Forest (Fin 3))
    (ops : List (Op (Fin 3))), Linked f → Meets (step env) (fun f op => op.Legal f) f ops →
      Keeps env f ops := by
  intro h
  have hmeets : Meets (step (noWindows (Fin 3))) (fun f op => op.Legal f) (bare (Fin 3))
      [.addChild 0 2, .removeChild 1 2] := by
    refine (Runs.meets_cons_some rfl).mpr ⟨⟨rfl, rfl, root_not_above rfl⟩, ?_⟩
    refine (Runs.meets_cons_some rfl).mpr ⟨⟨rfl, rfl⟩, trivial⟩
  obtain ⟨f', hrun, hconsistent⟩ := (h (noWindows (Fin 3)) _ _ bare_linked hmeets).1 _ prefix_rfl
  have hmem : 2 ∈ f'.kids 0 := by
    obtain rfl := some.inj hrun
    decide
  have hparent : f'.parent 2 = none := by
    obtain rfl := some.inj hrun
    rfl
  rw [← hconsistent.parent_iff, hparent] at hmem
  cases hmem

end Awtk.Forest
