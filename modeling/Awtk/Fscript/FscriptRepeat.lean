import Mathlib
import Awtk.Fscript.FscriptExec
import Awtk.Lib.Loop
import Awtk.Tkc.Value

/-!
# The counted loop of fscript

`repeat(i, start, end, delta)` goes on until its counter is equal to the end.  It counts as it
should exactly when the counter meets the end (`counts_iff`): a step of zero goes on forever, and a
step that passes the end or leads away from it overflows.
-/

namespace Awtk.Fscript

open Loop List

/-! ## The loop -/

/-- `fscript_t`: the flags of a loop, and all that the script works on. -/
structure FscriptT (σ : Type) where
  state : σ
  loopCount : UInt8
  breaked : Bool
  continued : Bool
  returned : Bool

variable {σ : Type}

/-- `fscript_exec_loop_body`, and what it makes of `done`. -/
def execLoopBody : List (FscriptT σ → FscriptT σ) → FscriptT σ → FscriptT σ × Bool
  | [], f => (f, false)
  | arg :: args, f =>
    let f := arg f
    if f.breaked then ({ f with breaked := false }, true)
    else if f.returned then ((execLoopBody args f).1, true)
    else if f.continued then ({ f with continued := false }, false)
    else execLoopBody args f

/-- The locals of `fscript_exec_repeat` that change. -/
structure RepeatState (σ : Type) where
  start : Int
  done : Bool
  fscript : FscriptT σ

/-- A turn of `fscript_exec_repeat`. -/
def repeatTurn (setVar : Int → FscriptT σ → Ret × FscriptT σ)
    (body : List (FscriptT σ → FscriptT σ)) (stop delta : Int) (s : RepeatState σ) :
    Turn (RepeatState σ) (FscriptT σ) :=
  if s.start = stop ∨ s.done = true then .done s.fscript
  else
    let (ret, f) := setVar s.start s.fscript
    if ret = .ok then
      let (f, done) := execLoopBody body f
      if InInt32 (s.start + delta) then .next ⟨s.start + delta, done, f⟩ else .fault
    else .done f

def enterLoop (f : FscriptT σ) : FscriptT σ := { f with loopCount := f.loopCount + 1 }

def leaveLoop (f : FscriptT σ) : FscriptT σ := { f with loopCount := f.loopCount - 1 }

/-- `fscript_exec_repeat`, from the values of its arguments on. -/
def execRepeat (setVar : Int → FscriptT σ → Ret × FscriptT σ)
    (body : List (FscriptT σ → FscriptT σ)) (start stop delta : Awtk.Value) (turns : Nat)
    (f : FscriptT σ) : Outcome (Ret × FscriptT σ) :=
  if body = [] then .result (.fail, f)
  else
    match run (repeatTurn setVar body stop.toInt delta.toInt) turns
      ⟨start.toInt, false, enterLoop f⟩ with
    | .result f => .result (.ok, leaveLoop f)
    | .fault => .fault
    | .running => .running

/-! ## What is wanted of it -/

/-- The counter is strictly in front of the end, in the direction of the step. -/
def Before (start stop delta : Int) (k : Nat) : Prop :=
  (0 < delta ∧ start + k * delta < stop) ∨ (delta < 0 ∧ stop < start + k * delta)

/-- One iteration: the variable is set and the body runs. -/
def iteration (setVar : Int → FscriptT σ → Ret × FscriptT σ)
    (body : List (FscriptT σ → FscriptT σ)) (i : Int) (f : FscriptT σ) : FscriptT σ :=
  (execLoopBody body (setVar i f).2).1

/-- The first iterations. -/
def iterations (setVar : Int → FscriptT σ → Ret × FscriptT σ)
    (body : List (FscriptT σ → FscriptT σ)) (start delta : Int) (n : Nat) (f : FscriptT σ) :
    FscriptT σ :=
  (List.range n).foldl (fun f (k : Nat) => iteration setVar body (start + k * delta) f) f

/-- The loop ends, and before that the body has run for the values in front of the end. -/
def Counts (setVar : Int → FscriptT σ → Ret × FscriptT σ) (body : List (FscriptT σ → FscriptT σ))
    (start stop delta : Awtk.Value) (f : FscriptT σ) : Prop :=
  ∃ n, (∀ k, k < n ↔ Before start.toInt stop.toInt delta.toInt k) ∧
    ∃ turns, execRepeat setVar body start stop delta turns f =
      .result (.ok, leaveLoop (iterations setVar body start.toInt delta.toInt n (enterLoop f)))

/-- Nothing has asked to leave the loop. -/
def FscriptT.Quiet (f : FscriptT σ) : Prop := f.breaked = false ∧ f.returned = false

/-- A body that does not exit. -/
def Stays (body : List (FscriptT σ → FscriptT σ)) : Prop :=
  ∀ arg ∈ body, ∀ f : FscriptT σ, f.Quiet → (arg f).Quiet

/-- A variable that takes all numbers. -/
def Settable (setVar : Int → FscriptT σ → Ret × FscriptT σ) : Prop :=
  ∀ i f, (setVar i f).1 = .ok ∧ (f.Quiet → (setVar i f).2.Quiet)

/-! ## The range of the counter -/

theorem inInt32_tkAtoi (s : Str) : InInt32 (tkAtoi s) := by
  have hstrto : ∀ base t, InInt32 (tkStrtoi base t) := by
    intro base t
    rw [InInt32, tkStrtoi]
    omega
  simp only [tkAtoi, tkAto]
  split
  · split_ifs <;> exact hstrto _ _
  · split
    · decide
    · exact hstrto _ _

theorem inInt32_truncate (bits : UInt64) :
    InInt32 (Value.truncate (-2 ^ 31) (2 ^ 31 - 1) bits) := by
  have hkept : ∀ n : Nat, InInt32 (max (-(n : Int)) (-2 ^ 31)) ∧ InInt32 (min (n : Int) (2 ^ 31 - 1)) := by
    intro n
    rw [InInt32, InInt32]
    omega
  simp only [Value.truncate]
  split
  · decide
  split
  · exact (hkept _).1
  · exact (hkept _).2

theorem inInt32_toInt (v : Awtk.Value) : InInt32 v.toInt := by
  have hint32 : ∀ n : Int32, InInt32 n.toInt := fun n => ⟨n.le_toInt, n.toInt_lt⟩
  have hzero : InInt32 0 := by decide
  cases v with
  | bool b => cases b <;> decide
  | int8 n =>
    have hlow := n.le_toInt
    have hhigh := n.toInt_lt
    simp only [InInt32, Awtk.Value.toInt]
    omega
  | uint8 n =>
    have hn := n.toNat_lt
    simp only [InInt32, Awtk.Value.toInt]
    omega
  | int16 n =>
    have hlow := n.le_toInt
    have hhigh := n.toInt_lt
    simp only [InInt32, Awtk.Value.toInt]
    omega
  | uint16 n =>
    have hn := n.toNat_lt
    simp only [InInt32, Awtk.Value.toInt]
    omega
  | int32 n => exact hint32 n
  | uint32 n => exact hint32 n.toInt32
  | int64 n => exact hint32 n.toInt32
  | uint64 n => exact hint32 n.toInt64.toInt32
  | float bits => exact inInt32_truncate _
  | float32 bits => exact inInt32_truncate _
  | double bits => exact inInt32_truncate _
  | str s =>
    cases s with
    | none => decide
    | some s => exact inInt32_tkAtoi s
  | wstr s =>
    cases s with
    | none => decide
    | some ws =>
      simp only [Awtk.Value.toInt, Awtk.Value.tkWatoi]
      split
      · exact inInt32_tkAtoi _
      · decide
  | pointer _ => exact hzero
  | binary _ => exact hzero
  | other => exact hzero

/-! ## A turn -/

section Turns

variable {setVar : Int → FscriptT σ → Ret × FscriptT σ} {body : List (FscriptT σ → FscriptT σ)}
  {start stop delta : Int} {f : FscriptT σ}

theorem execLoopBody_quiet (hbody : Stays body) (hf : f.Quiet) :
    (execLoopBody body f).1.Quiet ∧ (execLoopBody body f).2 = false := by
  induction body generalizing f with
  | nil => exact ⟨hf, rfl⟩
  | cons arg args ih =>
    have harg := hbody arg mem_cons_self f hf
    have hbreaked : ¬(arg f).breaked = true := by simp [harg.1]
    have hreturned : ¬(arg f).returned = true := by simp [harg.2]
    simp only [execLoopBody]
    rw [if_neg hbreaked, if_neg hreturned]
    split
    · exact ⟨harg, rfl⟩
    · exact ih (fun a ha => hbody a (mem_cons_of_mem _ ha)) harg

theorem iteration_quiet (hset : Settable setVar) (hbody : Stays body) (i : Int) (hf : f.Quiet) :
    (iteration setVar body i f).Quiet :=
  (execLoopBody_quiet hbody ((hset i f).2 hf)).1

theorem repeatTurn_next (hset : Settable setVar) (hbody : Stays body) (hf : f.Quiet)
    (hne : start ≠ stop) :
    repeatTurn setVar body stop delta ⟨start, false, f⟩ =
      if InInt32 (start + delta) then
        .next ⟨start + delta, false, iteration setVar body start f⟩
      else .fault := by
  have hdone := (execLoopBody_quiet hbody ((hset start f).2 hf)).2
  simp [repeatTurn, hne, (hset start f).1, hdone, iteration]

theorem repeatTurn_done : repeatTurn setVar body stop delta ⟨stop, false, f⟩ = .done f := by
  simp [repeatTurn]

theorem reaches_counter (hset : Settable setVar) (hbody : Stays body) (hf : f.Quiet)
    {s : RepeatState σ} (h : Reaches (repeatTurn setVar body stop delta) ⟨start, false, f⟩ s) :
    s.done = false ∧ s.fscript.Quiet ∧ ∃ k : Nat, s.start = start + k * delta := by
  refine h.invariant (I := fun s => s.done = false ∧ s.fscript.Quiet ∧
    ∃ k : Nat, s.start = start + k * delta) ?_ ⟨rfl, hf, 0, by simp⟩
  rintro ⟨i, done, g⟩ t ⟨hdone, hg, k, hk⟩ hturn
  simp only at hdone hg hk
  subst hdone
  rcases eq_or_ne i stop with rfl | hne
  · rw [repeatTurn_done] at hturn
    cases hturn
  · rw [repeatTurn_next hset hbody hg hne] at hturn
    split at hturn
    · cases hturn
      refine ⟨rfl, iteration_quiet hset hbody i hg, k + 1, ?_⟩
      simp only [hk]
      push_cast
      ring
    · cases hturn

theorem ends_at (hset : Settable setVar) (hbody : Stays body) (hf : f.Quiet) {g : FscriptT σ}
    (h : Ends (repeatTurn setVar body stop delta) ⟨start, false, f⟩ g) :
    ∃ k : Nat, stop = start + k * delta := by
  obtain ⟨⟨i, done, f'⟩, hreach, hturn⟩ := h
  obtain ⟨hdone, hquiet, k, hk⟩ := reaches_counter hset hbody hf hreach
  simp only at hdone hquiet hk
  subst hdone
  rcases eq_or_ne i stop with rfl | hne
  · exact ⟨k, hk⟩
  · rw [repeatTurn_next hset hbody hquiet hne] at hturn
    split at hturn <;> cases hturn

theorem run_zero (hset : Settable setVar) (hbody : Stays body) (hf : f.Quiet)
    (hstart : InInt32 start) (hne : start ≠ stop) (turns : Nat) :
    run (repeatTurn setVar body stop 0) turns ⟨start, false, f⟩ = .running := by
  induction turns generalizing f with
  | zero => rfl
  | succ turns ih =>
    have hturn : repeatTurn setVar body stop 0 ⟨start, false, f⟩ =
        .next ⟨start, false, iteration setVar body start f⟩ := by
      rw [repeatTurn_next hset hbody hf hne, Int.add_zero, if_pos hstart]
    rw [run_next hturn]
    exact ih (iteration_quiet hset hbody start hf)

theorem before_iff {n : Nat} (hn : stop = start + n * delta) (hdelta : n = 0 ∨ delta ≠ 0) (k : Nat) :
    k < n ↔ Before start stop delta k := by
  rw [Before, hn, Int.add_lt_add_iff_left, Int.add_lt_add_iff_left]
  rcases Int.lt_trichotomy delta 0 with hneg | hzero | hpos
  · have hmul : (n : Int) * delta < k * delta ↔ (k : Int) < n := mul_lt_mul_right_of_neg hneg
    omega
  · omega
  · have hmul : (k : Int) * delta < n * delta ↔ (k : Int) < n := mul_lt_mul_iff_left₀ hpos
    omega

theorem counter_inInt32 {n k : Nat} (hstart : InInt32 start) (hstop : InInt32 (start + n * delta))
    (hk : k ≤ n) : InInt32 (start + k * delta) := by
  have hle : (k : Int) ≤ n := by exact_mod_cast hk
  have hk0 : (0 : Int) ≤ k := Int.natCast_nonneg k
  rw [InInt32] at *
  rcases le_total 0 delta with hpos | hneg
  · have h₁ : 0 ≤ (k : Int) * delta := mul_nonneg hk0 hpos
    have h₂ : (k : Int) * delta ≤ n * delta := mul_le_mul_of_nonneg_right hle hpos
    omega
  · have h₁ : (k : Int) * delta ≤ 0 := mul_nonpos_of_nonneg_of_nonpos hk0 hneg
    have h₂ : (n : Int) * delta ≤ k * delta := mul_le_mul_of_nonpos_right hle hneg
    omega

@[simp] theorem iterations_zero : iterations setVar body start delta 0 f = f := rfl

theorem iterations_succ (k : Nat) : iterations setVar body start delta (k + 1) f =
    iteration setVar body (start + k * delta) (iterations setVar body start delta k f) := by
  rw [iterations, range_succ, foldl_append]
  rfl

theorem reaches_iterations (hset : Settable setVar) (hbody : Stays body) (hf : f.Quiet) {n : Nat}
    (hn : stop = start + n * delta) (hdelta : n = 0 ∨ delta ≠ 0) (hstart : InInt32 start)
    (hstop : InInt32 stop) {k : Nat} (hk : k ≤ n) :
    Reaches (repeatTurn setVar body stop delta) ⟨start, false, f⟩
      ⟨start + k * delta, false, iterations setVar body start delta k f⟩ := by
  induction k with
  | zero => simpa using Reaches.refl _ (RepeatState.mk start false f)
  | succ k ih =>
    have hreach := ih (Nat.le_of_succ_le hk)
    have hquiet := (reaches_counter hset hbody hf hreach).2.1
    have hbefore := (before_iff hn hdelta k).mp hk
    have hne : start + k * delta ≠ stop := by
      rcases hbefore with ⟨-, h⟩ | ⟨-, h⟩ <;> omega
    have hstep : start + k * delta + delta = start + (k + 1 : Nat) * delta := by
      push_cast
      ring
    have hrange : InInt32 (start + (k + 1 : Nat) * delta) :=
      counter_inInt32 hstart (hn ▸ hstop) hk
    refine hreach.trans (.one ?_)
    rw [repeatTurn_next hset hbody hquiet hne, hstep, if_pos hrange, iterations_succ]

end Turns

/-! ## The whole loop -/

section Counts

variable {setVar : Int → FscriptT σ → Ret × FscriptT σ}
  {arg : FscriptT σ → FscriptT σ} {args : List (FscriptT σ → FscriptT σ)}
  {start stop delta : Awtk.Value} {f : FscriptT σ}

theorem execRepeat_eq_result {turns : Nat} {r : Ret × FscriptT σ}
    (h : execRepeat setVar (arg :: args) start stop delta turns f = .result r) :
    ∃ g, run (repeatTurn setVar (arg :: args) stop.toInt delta.toInt) turns
      ⟨start.toInt, false, enterLoop f⟩ = .result g := by
  rw [execRepeat, if_neg (cons_ne_nil arg args)] at h
  split at h
  case h_1 g hrun => exact ⟨g, hrun⟩
  all_goals cases h

theorem meets_of_counts (hset : Settable setVar) (hbody : Stays (arg :: args)) (hf : f.Quiet)
    (h : Counts setVar (arg :: args) start stop delta f) :
    ∃ k : Nat, stop.toInt = start.toInt + k * delta.toInt := by
  obtain ⟨n, -, turns, hresult⟩ := h
  obtain ⟨g, hrun⟩ := execRepeat_eq_result hresult
  exact ends_at hset hbody (f := enterLoop f) hf (.of_run hrun)

/-- The loop counts as it should exactly when its counter meets the end. -/
theorem counts_iff (hset : Settable setVar) (hbody : Stays (arg :: args)) (hf : f.Quiet) :
    Counts setVar (arg :: args) start stop delta f ↔
      ∃ k : Nat, stop.toInt = start.toInt + k * delta.toInt := by
  have henter : (enterLoop f).Quiet := hf
  constructor
  · exact meets_of_counts hset hbody hf
  · rintro ⟨k, hk⟩
    -- a step of zero meets the end at once or never
    obtain ⟨n, hn, hdelta⟩ : ∃ n : Nat, stop.toInt = start.toInt + n * delta.toInt ∧
        (n = 0 ∨ delta.toInt ≠ 0) := by
      rcases eq_or_ne delta.toInt 0 with hzero | hne
      · exact ⟨0, by simpa [hzero] using hk, .inl rfl⟩
      · exact ⟨k, hk, .inr hne⟩
    have hreach := reaches_iterations hset hbody henter hn hdelta (inInt32_toInt start)
      (inInt32_toInt stop) (Nat.le_refl n)
    rw [← hn] at hreach
    obtain ⟨turns, hrun⟩ := Ends.exists_run ⟨_, hreach, repeatTurn_done⟩
    refine ⟨n, before_iff hn hdelta, turns, ?_⟩
    rw [execRepeat, if_neg (cons_ne_nil arg args), hrun]

end Counts

/-! ## A body that writes its counter down -/

/-- The variable, and what the body has seen of it. -/
abbrev Seen := Int × List Int

def seenSet (i : Int) (f : FscriptT Seen) : Ret × FscriptT Seen :=
  (.ok, { f with state := (i, f.state.2) })

def seenBody (f : FscriptT Seen) : FscriptT Seen :=
  { f with state := (f.state.1, f.state.2 ++ [f.state.1]) }

def seenStart : FscriptT Seen := ⟨(0, []), 0, false, false, false⟩

theorem seenSet_settable : Settable seenSet := fun _ _ => ⟨rfl, fun h => h⟩

theorem seenBody_stays : Stays [seenBody] := by
  intro arg harg f hf
  rw [mem_singleton.mp harg]
  exact hf

/-- `counts_iff` on a loop that counts down. -/
theorem counts_iff_seen :
    Counts seenSet [seenBody] (.int32 4) (.int32 (-2)) (.int32 (-3)) seenStart :=
  (counts_iff seenSet_settable seenBody_stays ⟨rfl, rfl⟩).mpr ⟨2, by decide⟩

/-- A step that passes the end does not count, and one of zero never ends. -/
theorem repeat_passes :
    ¬Counts seenSet [seenBody] (.int32 0) (.int32 10) (.int32 3) seenStart ∧
      ∀ turns, execRepeat seenSet [seenBody] (.int32 0) (.int32 10) (.int32 0) turns seenStart =
        .running := by
  constructor
  · intro h
    obtain ⟨k, hk⟩ := meets_of_counts seenSet_settable seenBody_stays ⟨rfl, rfl⟩ h
    have hk' : (10 : Int) = 0 + k * 3 := hk
    omega
  · intro turns
    have hrun : run (repeatTurn seenSet [seenBody] (Awtk.Value.int32 10).toInt
        (Awtk.Value.int32 0).toInt) turns
        ⟨(Awtk.Value.int32 0).toInt, false, enterLoop seenStart⟩ = .running :=
      run_zero seenSet_settable seenBody_stays ⟨rfl, rfl⟩ (by decide) (by decide) turns
    rw [execRepeat, if_neg (cons_ne_nil _ _), hrun]

end Awtk.Fscript
