import Mathlib
import Awtk.Fscript.FscriptReturn

/-!
# A script runs as it is meant

The flag of `return` takes a script out of its function as if it left at once, as long as no return is
noted (`exec_unwinds`).  What the arguments of a call do is related one by one (`Follows`), and each
function of fscript keeps that relation.
-/

namespace Awtk.Fscript

open Noted List Option

variable {V S : Type} {host : Host V S}

/-- From a state without a return, an argument does what it is meant to do. -/
def Follows (c' : Unwind.Comp V S) (c : Eval.Comp V S) : Prop :=
  ∀ f : FscriptT S, f.returned = false → Agrees Eq (c' f) (c f)

theorem follows_pure (g : FscriptT S → V × FscriptT S) :
    Follows (fun f => pure (g f)) (fun f => some (g f)) := fun _ _ => .of_pure rfl

theorem follows_plain (c : Eval.Comp V S) : Follows (Unwind.plain c) c := fun f _ => .refl (c f)

theorem returned_of_left {f : FscriptT S} (h : ¬f.left = true) : f.returned = false := by
  cases hreturned : f.returned with
  | false => rfl
  | true =>
    rw [FscriptT.left, hreturned, Bool.or_true] at h
    exact absurd rfl h

theorem agrees_control {β γ : Type} {R : β × FscriptT S → γ → Prop} {exit : V → β}
    {arg' : Unwind.Comp V S} {arg : Eval.Comp V S} {k' : V → FscriptT S → Noted (β × FscriptT S)}
    {k : V × FscriptT S → Option γ} {f : FscriptT S} (harg : Follows arg' arg)
    (hf : f.returned = false)
    (hk : ∀ v f, f.returned = false → Agrees R (k' v f) (k (v, f))) :
    Agrees R (Unwind.control exit arg' k' f) ((arg f).bind k) := by
  refine (harg f hf).bind ?_
  rintro ⟨v, g⟩ _ rfl
  dsimp only
  split
  · exact .of_note
  · next hg => exact hk v g (Bool.eq_false_of_not_eq_true hg)

/-! ## Functions -/

theorem evalArgs_follows : ∀ {args' : List (Unwind.Comp V S)} {args : List (Eval.Comp V S)},
    List.Forall₂ Follows args' args → ∀ f : FscriptT S, f.returned = false →
      Agrees (fun a b => a = b ∧ ∀ vs, a.1 = .inr vs → a.2.returned = false)
        (Unwind.evalArgs args' f) (Eval.evalArgs args f)
  | _, _, .nil, f, hf => .of_pure ⟨rfl, fun _ _ => hf⟩
  | _, _, .cons harg hargs, f, hf => by
    refine (harg f hf).bind ?_
    rintro ⟨v, g⟩ _ rfl
    dsimp only
    split
    · exact .of_pure ⟨rfl, fun _ h => by cases h⟩
    · next hg =>
      refine (evalArgs_follows hargs g (returned_of_left hg)).map ?_
      rintro ⟨r, g'⟩ _ ⟨rfl, hreturned⟩
      cases r with
      | inl w => exact ⟨rfl, fun _ h => by cases h⟩
      | inr vs => exact ⟨rfl, fun _ _ => hreturned vs rfl⟩

theorem execExtFunc_follows {func' : List V → Unwind.Comp V S} {func : List V → Eval.Comp V S}
    {args' : List (Unwind.Comp V S)} {args : List (Eval.Comp V S)}
    (hfunc : ∀ vs, Follows (func' vs) (func vs)) (hargs : List.Forall₂ Follows args' args) :
    Follows (Unwind.execExtFunc func' args') (Eval.execExtFunc func args) := by
  intro f hf
  refine (evalArgs_follows hargs f hf).bind ?_
  rintro ⟨r, g⟩ _ ⟨rfl, hreturned⟩
  cases r with
  | inl v => exact .of_pure rfl
  | inr vs => exact hfunc vs g (hreturned vs rfl)

theorem funcFunction_follows {params : List Str} {body' : List (Unwind.Comp V S)}
    {body : List (Eval.Comp V S)} (hbody : List.Forall₂ Follows body' body) (vs : List V) :
    Follows (Unwind.funcFunction host params body' vs) (Eval.funcFunction host params body vs) := by
  intro f hf
  have hrun := execExtFunc_follows (fun vs => follows_plain (Eval.funcNoop host vs)) hbody
    { f with state := host.enter params vs f.state } hf
  refine Agrees.map hrun ?_
  rintro ⟨v, g⟩ _ rfl
  rfl

/-! ## The core functions -/

theorem execIf_follows : ∀ {args' : List (Unwind.Comp V S)} {args : List (Eval.Comp V S)},
    List.Forall₂ Follows args' args → Follows (Unwind.execIf host args') (Eval.execIf host args)
  | _, _, .nil => follows_pure _
  | _, _, .cons hotherwise .nil => hotherwise
  | _, _, .cons hcondition (.cons hbody hargs) => by
    intro f hf
    refine agrees_control hcondition hf fun v g hg => ?_
    dsimp only
    split
    · exact hbody g hg
    · exact execIf_follows hargs g hg

theorem execLoopBody_follows : ∀ {args' : List (Unwind.Comp V S)} {args : List (Eval.Comp V S)},
    List.Forall₂ Follows args' args → ∀ (v : V) (f : FscriptT S), f.returned = false →
      Agrees (fun a b => a = b ∧ (a.2.1 = false → a.2.2.returned = false))
        (Unwind.execLoopBody args' v f) (Eval.execLoopBody args v f)
  | _, _, .nil, v, f, hf => .of_pure ⟨rfl, fun _ => hf⟩
  | _, _, @List.Forall₂.cons _ _ _ _ _ args' args harg hargs, _, f, hf => by
    refine (harg f hf).bind ?_
    rintro ⟨v, g⟩ _ rfl
    dsimp only
    split
    · exact .of_pure ⟨rfl, fun h => by cases h⟩
    · split
      · refine .note_of fun hempty => ?_
        cases hargs with
        | nil => exact .of_pure ⟨rfl, fun h => by cases h⟩
        | cons _ _ => cases hempty
      · next hg =>
        have hreturned : g.returned = false := Bool.eq_false_of_not_eq_true hg
        split
        · exact .of_pure ⟨rfl, fun _ => hreturned⟩
        · exact execLoopBody_follows hargs v g hreturned

/-- The head goes on or ends, and a return in it is noted. -/
def HeadFollows (head' : Nat → FscriptT S → Noted ((V ⊕ Bool) × FscriptT S))
    (head : Nat → FscriptT S → Option (Bool × FscriptT S)) : Prop :=
  ∀ i f, f.returned = false →
    Agrees (fun a b => a = (.inr b.1, b.2) ∧ b.2.returned = false) (head' i f) (head i f)

/-- What is behind the body leaves with nothing, and it sets no flag of a return. -/
def TailFollows (tail' : Nat → FscriptT S → Noted (Option V × FscriptT S))
    (tail : Nat → FscriptT S → Option (FscriptT S)) : Prop :=
  ∀ i f, Agrees (fun a g => a = (none, g) ∧ g.returned = f.returned) (tail' i f) (tail i f)

section Loops

variable {head' : Nat → FscriptT S → Noted ((V ⊕ Bool) × FscriptT S)}
  {head : Nat → FscriptT S → Option (Bool × FscriptT S)} {body' : List (Unwind.Comp V S)}
  {body : List (Eval.Comp V S)} {tail' : Nat → FscriptT S → Noted (Option V × FscriptT S)}
  {tail : Nat → FscriptT S → Option (FscriptT S)}

theorem loop_follows (hhead : HeadFollows head' head) (hbody : List.Forall₂ Follows body' body)
    (htail : TailFollows tail' tail) : ∀ (turns i : Nat) (v : V) (f : FscriptT S),
      f.returned = false →
        Agrees Eq (Unwind.loop head' body' tail' turns i v f) (Eval.loop head body tail turns i v f)
  | 0, _, _, _, _ => .of_none
  | n + 1, i, v, f, hf => by
    refine (hhead i f hf).bind ?_
    rintro _ ⟨go, g⟩ ⟨rfl, hg⟩
    cases go with
    | false => exact .of_pure rfl
    | true =>
      refine (execLoopBody_follows hbody v g hg).bind ?_
      rintro ⟨w, done, g₁⟩ _ ⟨rfl, hdone⟩
      refine (htail i g₁).bind ?_
      rintro _ g₂ ⟨rfl, hg₂⟩
      cases done with
      | true => exact .of_pure rfl
      | false => exact loop_follows hhead hbody htail n (i + 1) w g₂ (hg₂.trans (hdone rfl))

theorem inLoop_follows (hhead : HeadFollows head' head) (hbody : List.Forall₂ Follows body' body)
    (htail : TailFollows tail' tail) (turns : Nat) :
    Follows (Unwind.inLoop host head' body' tail' turns) fun f =>
      (Eval.loop head body tail turns 0 host.invalid (enterLoop f)).map fun (v, f) =>
        (v, leaveLoop f) := by
  intro f hf
  refine (loop_follows hhead hbody htail turns 0 host.invalid (enterLoop f) hf).map ?_
  rintro ⟨v, g⟩ _ rfl
  rfl

end Loops

theorem condHead_follows (isWhile : Bool) {condition' : Unwind.Comp V S} {condition : Eval.Comp V S}
    (h : Follows condition' condition) :
    HeadFollows (Unwind.condHead host isWhile condition')
      (Eval.condHead host isWhile condition) := by
  intro i f hf
  rw [Eval.condHead, map_eq_bind]
  exact agrees_control h hf fun v g hg => .of_pure ⟨rfl, hg⟩

theorem plainHead_follows {head : Nat → FscriptT S → Bool × FscriptT S}
    (h : ∀ i f, (head i f).2.returned = f.returned) :
    HeadFollows (V := V) (Unwind.plainHead head) fun i f => some (head i f) :=
  fun i f hf => .of_pure ⟨rfl, (h i f).trans hf⟩

theorem plainTail_follows {tail : Nat → FscriptT S → Option (FscriptT S)}
    (h : ∀ i f g, tail i f = some g → g = f) :
    TailFollows (V := V) (Unwind.plainTail tail) tail :=
  fun i f => .ofOption_map fun g hg => ⟨rfl, by rw [h i f g hg]⟩

theorem noTail_eq (i : Nat) (f g : FscriptT S) (h : Eval.noTail i f = some g) : g = f :=
  (some.inj h).symm

theorem repeatTail_eq (start delta : Int) (i : Nat) (f g : FscriptT S)
    (h : Eval.repeatTail start delta i f = some g) : g = f := by
  rw [Eval.repeatTail] at h
  split at h
  · exact (some.inj h).symm
  · cases h

theorem repeatHead_returned (var : Str) (start stop delta : Int) (i : Nat) (f : FscriptT S) :
    (Eval.repeatHead host var start stop delta i f).2.returned = f.returned := by
  rw [Eval.repeatHead]
  split
  · rfl
  · rfl

theorem forInHead_returned (var : Str) (obj : V) (n i : Nat) (f : FscriptT S) :
    (Eval.forInHead host var obj n i f).2.returned = f.returned := by
  rw [Eval.forInHead]
  split
  · split
    · rfl
    · rfl
  · rfl

/-- Behind a return an idle step leaves everything as it is. -/
def Idles (idle : FscriptT S → Bool) (step : Eval.Comp V S) : Prop :=
  ∀ f, f.returned = true → idle f = true → ∃ v, step f = some (v, f)

theorem forTail_follows {idle : FscriptT S → Bool} {step' : Unwind.Comp V S} {step : Eval.Comp V S}
    (hstep : Follows step' step) (hidle : Idles idle step) :
    TailFollows (Unwind.forTail idle step') (Eval.forTail step) := by
  intro i f
  rw [Unwind.forTail, Eval.forTail]
  split
  · next hf =>
    refine .note_of fun h => ?_
    obtain ⟨v, hv⟩ := hidle f hf (by simpa using h)
    rw [hv]
    exact .of_pure ⟨rfl, rfl⟩
  · next hf =>
    have hreturned : f.returned = false := Bool.eq_false_of_not_eq_true hf
    rw [map_eq_bind]
    exact agrees_control hstep hreturned fun v g hg => .of_pure ⟨rfl, hg.trans hreturned.symm⟩

section CoreFunctions

variable {args' : List (Unwind.Comp V S)} {args : List (Eval.Comp V S)} {turns : Nat}
  {var : Option Str}

theorem execWhileOrUntil_follows (isWhile : Bool) : List.Forall₂ Follows args' args →
    Follows (Unwind.execWhileOrUntil host isWhile turns args')
      (Eval.execWhileOrUntil host isWhile turns args)
  | .nil => follows_pure _
  | .cons _ .nil => follows_pure _
  | .cons hcondition (.cons harg hargs) =>
    inLoop_follows (condHead_follows isWhile hcondition) (.cons harg hargs)
      (plainTail_follows noTail_eq) turns

theorem execRepeat_follows : List.Forall₂ Follows args' args →
    Follows (Unwind.execRepeat host turns var args') (Eval.execRepeat host turns var args)
  | .nil => follows_pure _
  | .cons _ .nil => follows_pure _
  | .cons _ (.cons _ .nil) => follows_pure _
  | .cons _ (.cons _ (.cons _ .nil)) => follows_pure _
  | .cons _ (.cons _ (.cons _ (.cons _ .nil))) => follows_pure _
  | .cons _ (.cons hstart (.cons hstop (.cons hdelta (.cons harg hargs)))) => by
    intro f hf
    refine agrees_control hstart hf fun v₁ f₁ hf₁ => ?_
    refine agrees_control hstop hf₁ fun v₂ f₂ hf₂ => ?_
    refine agrees_control hdelta hf₂ fun v₃ f₃ hf₃ => ?_
    cases var with
    | none => exact .of_none
    | some var =>
      exact inLoop_follows (plainHead_follows (repeatHead_returned var _ _ _)) (.cons harg hargs)
        (plainTail_follows (repeatTail_eq _ _)) turns f₃ hf₃

theorem execFor_follows {idle : FscriptT S → Bool}
    (hidle : ∀ step, args[2]? = some step → Idles idle step) : List.Forall₂ Follows args' args →
      Follows (Unwind.execFor host turns idle args') (Eval.execFor host turns args)
  | .nil => follows_pure _
  | .cons _ .nil => follows_pure _
  | .cons _ (.cons _ .nil) => follows_pure _
  | .cons _ (.cons _ (.cons _ .nil)) => follows_pure _
  | .cons hinit (.cons hcondition (.cons hstep (.cons harg hargs))) => by
    intro f hf
    refine agrees_control hinit hf fun v g hg => ?_
    exact inLoop_follows (condHead_follows true hcondition) (.cons harg hargs)
      (forTail_follows hstep (hidle _ rfl)) turns g hg

theorem execForIn_follows : List.Forall₂ Follows args' args →
    Follows (Unwind.execForIn host turns var args') (Eval.execForIn host turns var args)
  | .nil => follows_pure _
  | .cons _ .nil => follows_pure _
  | .cons _ (.cons _ .nil) => follows_pure _
  | .cons _ (.cons hobj (.cons harg hargs)) => by
    intro f hf
    refine agrees_control hobj hf fun v g hg => ?_
    dsimp only
    cases host.size v g.state with
    | none => exact .of_pure rfl
    | some n =>
      cases var with
      | none => exact .of_none
      | some var =>
        exact inLoop_follows (plainHead_follows (forInHead_returned var v n)) (.cons harg hargs)
          (plainTail_follows noTail_eq) turns g hg

theorem execRepeatTimes_follows : List.Forall₂ Follows args' args →
    Follows (Unwind.execRepeatTimes host turns args') (Eval.execRepeatTimes host turns args)
  | .nil => follows_pure _
  | .cons _ .nil => follows_pure _
  | .cons htimes (.cons harg hargs) => by
    intro f hf
    refine agrees_control htimes hf fun v g hg => ?_
    exact inLoop_follows (plainHead_follows fun _ _ => rfl) (.cons harg hargs)
      (plainTail_follows noTail_eq) turns g hg

theorem execCoreFunc_follows {idle : FscriptT S → Bool} (func : Core)
    (hidle : ∀ step, args[2]? = some step → Idles idle step)
    (hargs : List.Forall₂ Follows args' args) :
    Follows (Unwind.execCoreFunc host turns var idle func args')
      (Eval.execCoreFunc host turns var func args) := by
  cases func with
  | «if» =>
    intro f hf
    simp only [Unwind.execCoreFunc, Eval.execCoreFunc, hargs.length_eq]
    split
    · exact .of_pure rfl
    · exact execIf_follows hargs f hf
  | «while» => exact execWhileOrUntil_follows true hargs
  | «until» => exact execWhileOrUntil_follows false hargs
  | «repeat» => exact execRepeat_follows hargs
  | «for» => exact execFor_follows hidle hargs
  | forIn => exact execForIn_follows hargs
  | repeatTimes => exact execRepeatTimes_follows hargs
  | functionDef => exact follows_pure _

end CoreFunctions

/-! ## Idle steps -/

theorem execIf_idles {f : FscriptT S} : ∀ args : List (Eval.Comp V S),
    (∀ arg ∈ args, ∃ v, arg f = some (v, f)) → ∃ v, Eval.execIf host args f = some (v, f)
  | [], _ => ⟨_, rfl⟩
  | [otherwise], h => h otherwise mem_cons_self
  | condition :: body :: args, h => by
    obtain ⟨v, hv⟩ := h condition mem_cons_self
    obtain ⟨w, hw⟩ := h body (mem_cons_of_mem _ mem_cons_self)
    obtain ⟨u, hu⟩ := execIf_idles args fun arg harg =>
      h arg (mem_cons_of_mem _ (mem_cons_of_mem _ harg))
    rw [Eval.execIf, hv]
    dsimp only [Option.bind]
    split
    · exact ⟨w, hw⟩
    · exact ⟨u, hu⟩

theorem left_of_returned {f : FscriptT S} (h : f.returned = true) : f.left = true := by
  rw [FscriptT.left, h, Bool.or_true]

theorem execExtFunc_idles {func : List V → Eval.Comp V S} {arg : Eval.Comp V S}
    {args : List (Eval.Comp V S)} {f : FscriptT S} (hf : f.returned = true)
    (harg : ∃ v, arg f = some (v, f)) :
    ∃ v, Eval.execExtFunc func (arg :: args) f = some (v, f) := by
  obtain ⟨v, hv⟩ := harg
  refine ⟨v, ?_⟩
  rw [Eval.execExtFunc, Eval.evalArgs, hv]
  dsimp only [Option.bind]
  rw [if_pos (left_of_returned hf)]

section Idle

variable [DecidableEq S] {callee : Node → Eval.Comp V S} {turns : Nat}

theorem extFunc_idles {name : Str} {f : FscriptT S} (hf : f.returned = true)
    (h : Eval.idleCall host name f.state = true) :
    ∃ v, Eval.extFunc host callee name [] f = some (v, f) := by
  rw [Eval.extFunc]
  split
  · refine ⟨host.ofInt 0, ?_⟩
    rw [Eval.funcReturn, ← hf]
    rfl
  · next hreturn =>
    split
    · exact ⟨_, rfl⟩
    · next hexpr =>
      simp only [Eval.idleCall, hreturn, hexpr, decide_false, Bool.false_or, Bool.and_eq_true,
        isNone_iff_eq_none, decide_eq_true_eq] at h
      rw [h.1]
      refine ⟨(host.func name [] f.state).1, ?_⟩
      change some (_, { f with state := (host.func name [] f.state).2 }) = _
      rw [h.2]

mutual

theorem idle_idles : ∀ (node : Node) (f : FscriptT S), f.returned = true →
    Eval.idle host f.state node = true → ∃ v, Eval.evalNode host callee turns node f = some (v, f)
  | .id name, f, hf, h => by
    simp only [Eval.idle, ne_eq, Bool.and_eq_true, decide_eq_true_eq] at h
    obtain ⟨⟨hbreak, hcontinue⟩, hvar⟩ := h
    rw [Eval.evalNode, Eval.execId, if_neg fun h => hbreak h.2, if_neg fun h => hcontinue h.2]
    split
    · refine ⟨host.ofInt 0, ?_⟩
      rw [← hf]
    · split
      · exact ⟨_, rfl⟩
      · refine ⟨(host.getVar name f.state).1, ?_⟩
        change some (_, { f with state := (host.getVar name f.state).2 }) = _
        rw [hvar]
  | .call name args, f, hf, h => by
    rw [Eval.idle] at h
    rw [Eval.evalNode]
    cases hcore : core name with
    | some func =>
      rw [hcore] at h
      dsimp only at h ⊢
      cases func with
      | «if» =>
        dsimp only [Eval.execCoreFunc] at h ⊢
        split
        · exact ⟨_, rfl⟩
        · exact execIf_idles _ (idleAll_idles args f hf h)
      | functionDef => exact ⟨_, rfl⟩
      | _ => cases h
    | none =>
      rw [hcore] at h
      dsimp only at h ⊢
      split at h
      · next hnil =>
        subst hnil
        exact extFunc_idles hf h
      · next hne =>
        cases args with
        | nil => exact absurd rfl hne
        | cons arg args =>
          by_cases hnamed : takesName name = true ∧ (varName (arg :: args)).isSome = true
          · obtain ⟨var, hvar⟩ := isSome_iff_exists.mp hnamed.2
            rw [Eval.namedArgs, hvar]
            dsimp only
            rw [if_pos hnamed.1]
            exact execExtFunc_idles hf ⟨_, rfl⟩
          · have hhead : Eval.idle host f.state arg = true := by
              rw [Bool.or_eq_true, Bool.and_eq_true] at h
              exact h.resolve_left hnamed
            have harg := idle_idles arg f hf hhead
            have hargs : Eval.namedArgs host name (arg :: args)
                (Eval.evalNodes host callee turns (arg :: args)) =
                Eval.evalNode host callee turns arg :: Eval.evalNodes host callee turns args := by
              rw [Eval.namedArgs]
              split
              · next var hvar =>
                rw [if_neg fun hname => hnamed ⟨hname, by rw [hvar]; rfl⟩]
                rfl
              · rfl
            rw [hargs]
            exact execExtFunc_idles hf harg
  | .invalid, _, _, _ => ⟨_, rfl⟩
  | .bool _, _, _, _ => ⟨_, rfl⟩
  | .int32 _, _, _, _ => ⟨_, rfl⟩
  | .uint32 _, _, _, _ => ⟨_, rfl⟩
  | .int64 _, _, _, _ => ⟨_, rfl⟩
  | .uint64 _, _, _, _ => ⟨_, rfl⟩
  | .double _, _, _, _ => ⟨_, rfl⟩
  | .str _, _, _, _ => ⟨_, rfl⟩

theorem idleAll_idles : ∀ (nodes : List Node) (f : FscriptT S), f.returned = true →
    Eval.idleAll host f.state nodes = true →
      ∀ arg ∈ Eval.evalNodes host callee turns nodes, ∃ v, arg f = some (v, f)
  | [], _, _, _ => fun _ h => absurd h not_mem_nil
  | node :: nodes, f, hf, h => by
    rw [Eval.idleAll, Bool.and_eq_true] at h
    intro arg harg
    rw [Eval.evalNodes] at harg
    rcases mem_cons.mp harg with rfl | harg
    · exact idle_idles node f hf h.1
    · exact idleAll_idles nodes f hf h.2 arg harg

end

end Idle

/-! ## Whole scripts -/

section Scripts

variable {callee' : Node → Unwind.Comp V S} {callee : Node → Eval.Comp V S} {turns : Nat}

theorem extFunc_follows (hcallee : ∀ node, Follows (callee' node) (callee node)) (name : Str)
    (vs : List V) :
    Follows (Unwind.extFunc host callee' name vs) (Eval.extFunc host callee name vs) := by
  rw [Unwind.extFunc, Eval.extFunc]
  split
  · exact follows_plain _
  · split
    · exact follows_plain _
    · cases hdef : host.funcDef name with
      | none => exact follows_plain _
      | some d =>
        obtain ⟨params, body⟩ := d
        refine funcFunction_follows ?_ vs
        rw [forall₂_map_left_iff, forall₂_map_right_iff, forall₂_same]
        exact fun node _ => hcallee node

theorem namedArgs_follows {name : Str} {nodes : List Node} {args' : List (Unwind.Comp V S)}
    {args : List (Eval.Comp V S)} (h : List.Forall₂ Follows args' args) :
    List.Forall₂ Follows (Unwind.namedArgs host name nodes args')
      (Eval.namedArgs host name nodes args) := by
  rw [Unwind.namedArgs, Eval.namedArgs]
  cases varName nodes with
  | none => exact h
  | some var =>
    dsimp only
    split
    · refine .cons (follows_pure _) ?_
      cases h with
      | nil => exact .nil
      | cons _ hargs => exact hargs
    · exact h

theorem evalNodes_step : ∀ (nodes : List Node) {i : Nat} {step : Eval.Comp V S},
    (Eval.evalNodes host callee turns nodes)[i]? = some step →
      step = Eval.evalNode host callee turns (nodes.getD i .invalid)
  | [], _, _, h => by cases h
  | _ :: _, 0, _, h => (some.inj h).symm
  | _ :: nodes, _ + 1, _, h => evalNodes_step nodes h

variable [DecidableEq S]

mutual

theorem evalNode_follows (hcallee : ∀ node, Follows (callee' node) (callee node)) : ∀ node : Node,
    Follows (Unwind.evalNode host callee' turns node) (Eval.evalNode host callee turns node)
  | .id name => by
    rw [Unwind.evalNode, Eval.evalNode]
    exact follows_plain _
  | .call name args => by
    have hargs := evalNodes_follows hcallee args
    rw [Unwind.evalNode, Eval.evalNode]
    cases core name with
    | none => exact execExtFunc_follows (extFunc_follows hcallee name) (namedArgs_follows hargs)
    | some func =>
      refine execCoreFunc_follows func (fun step hstep f hf hidle => ?_) hargs
      rw [evalNodes_step args hstep]
      exact idle_idles _ f hf hidle
  | .invalid => follows_pure _
  | .bool _ => follows_pure _
  | .int32 _ => follows_pure _
  | .uint32 _ => follows_pure _
  | .int64 _ => follows_pure _
  | .uint64 _ => follows_pure _
  | .double _ => follows_pure _
  | .str _ => follows_pure _

theorem evalNodes_follows (hcallee : ∀ node, Follows (callee' node) (callee node)) :
    ∀ nodes : List Node, List.Forall₂ Follows (Unwind.evalNodes host callee' turns nodes)
      (Eval.evalNodes host callee turns nodes)
  | [] => .nil
  | node :: nodes => .cons (evalNode_follows hcallee node) (evalNodes_follows hcallee nodes)

end

theorem evalArg_follows (n : Nat) (node : Node) :
    Follows (Unwind.evalArg host n node) (Eval.evalArg host n node) := by
  induction n generalizing node with
  | zero => exact evalNode_follows (fun _ _ _ => .of_none) node
  | succ n ih => exact evalNode_follows ih node

theorem fscriptExec_agrees (n : Nat) (script : List Node) (state : S) :
    Agrees Eq (Unwind.fscriptExec host n script state) (Eval.fscriptExec host n script state) := by
  refine Agrees.map (evalArg_follows n (.call nameExpr script) _ rfl) ?_
  rintro ⟨v, f⟩ _ rfl
  rfl

end Scripts

/-! ## Scripts that write down what they do -/

/-- The values are numbers, the state is the list of what was done, and every other function does
something. -/
def recorder (funcDef : Str → Option (List Str × List Node)) : Host Int (List Str) where
  literal
    | .int32 n => n
    | .bool b => if b then 1 else 0
    | _ => 0
  id _ := 0
  null := 0
  invalid := 0
  ofInt n := n
  valueBool v := v ≠ 0
  valueInt v := v
  getVar _ done := (0, done)
  setVar _ _ done := (.ok, done)
  checkFailed done := done
  size _ _ := none
  item _ _ _ := none
  func name _ done := (0, done ++ [name])
  funcDef := funcDef
  enter _ _ done := done
  leave _ done := done

/-- `return n`. -/
def returnNode (n : Int) : Node := .call nameReturn [.int32 n]

def printNode : Node := .call ['p'] []

/-- `while(true) { repeat_times(2) { if(true) { return 5 } p() } } p()`. -/
def nestedReturn : List Node :=
  [.call Parser.nameWhile [.bool true, .call nameExpr
    [.call Parser.nameRepeatTimes [.int32 2, .call nameExpr
      [.call Parser.nameIf [.bool true, .call nameExpr [returnNode 5]], printNode]]]], printNode]

end Awtk.Fscript
