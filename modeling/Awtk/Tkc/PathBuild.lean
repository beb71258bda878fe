import Mathlib
import Awtk.Lib.Block
import Awtk.Tkc.Path

/-!
# Bounds of `path_build`

`path_build` checks each component against what is left of the size, and a separator that it
adds is not taken off.  `pathBuildInto` works on the bytes of the result, and a write outside
of them has no result.  It is right for exactly the components whose text fits with its
separators as well (`pathBuildInto_iff`).
-/

namespace Awtk.Path

open List Option

/-- `new_size`, which is of type `int32_t`. -/
def newSize (p : Str) : Int := wrapI32 p.length

/-- The check of a component. -/
def Accepts (avail : Int) (p : Str) : Prop := wrapI32 (newSize p + 1) < avail

instance (avail : Int) (p : Str) : Decidable (Accepts avail p) :=
  inferInstanceAs (Decidable (_ < _))

/-- `memcpy` of a component.  A negative size is a large one of type `size_t`. -/
def copyInto (result : Str) (d : Nat) (p : Str) : Option Str :=
  if newSize p < 0 then none else Block.write result d (p.take (newSize p).toNat)

section Code

variable (sys : System)

/-- The separator in front of a component. -/
def putSep (result : Str) (d : Nat) : Option (Str × Nat) :=
  if d ≠ 0 ∧ charAt result (d - 1) ≠ sys.pathSep then
    (Block.write result d [sys.pathSep]).map (·, d + 1)
  else some (result, d)

/-- The loop of `path_build`, with the index of `d` and `avail_size`. -/
def buildLoop (result : Str) (d : Nat) (avail : Int) : List Str → Option (Ret × Str)
  | [] => some (.ok, result)
  | p :: ps =>
    if Accepts avail p then
      (putSep sys result d).bind fun (result, d) =>
        (copyInto result d p).bind fun result =>
          buildLoop result (d + (newSize p).toNat) (wrapI32 (avail - newSize p)) ps
    else some (.fail, result)

/-- `path_build` in a result of `size` bytes.  It is cleared first. -/
def pathBuildInto (size : Int32) (args : List Str) : Option (Ret × Str) :=
  if size.toInt < 0 then none
  else buildLoop sys (List.replicate size.toInt.toNat 0) 0 size.toInt args

/-! ## The text -/

/-- A component behind the text so far. -/
def joinOnto (text p : Str) : Str :=
  if text ≠ [] ∧ text.getLast? ≠ some sys.pathSep then text ++ sys.pathSep :: p else text ++ p

/-- The components joined with separators. -/
def joined (args : List Str) : Str := args.foldl (joinOnto sys) []

end Code

/-- All components pass their check, with what is left of the size. -/
def Passes : Int → List Str → Prop
  | _, [] => True
  | avail, p :: ps => Accepts avail p ∧ Passes (wrapI32 (avail - newSize p)) ps

instance : (avail : Int) → (args : List Str) → Decidable (Passes avail args)
  | _, [] => .isTrue trivial
  | avail, p :: ps =>
    have := instDecidablePasses (wrapI32 (avail - newSize p)) ps
    inferInstanceAs (Decidable (_ ∧ _))

/-- The bytes of a component that are copied. -/
def copied (p : Str) : Str := p.take (newSize p).toNat

variable {sys : System} {text p : Str} {size : Int32} {avail : Int} {args : List Str}

/-! ## A component -/

theorem write_zeros (text data : Str) (k : Nat) :
    Block.write (text ++ List.replicate k 0) text.length data =
      if data.length ≤ k then some (text ++ data ++ List.replicate (k - data.length) 0)
      else none := by
  split_ifs with h
  · rw [Block.write_at rfl (by simpa using h), drop_replicate, append_assoc]
  · rw [Block.write, if_neg]
    simpa using h

theorem putSep_iff (text : Str) (k : Nat) :
    (text.length ≠ 0 ∧ charAt (text ++ List.replicate k 0) (text.length - 1) ≠ sys.pathSep) ↔
      text ≠ [] ∧ text.getLast? ≠ some sys.pathSep := by
  cases text using List.reverseRecOn with
  | nil => simp
  | append_singleton text c => simp [charAt]

theorem newSize_le (p : Str) : newSize p ≤ p.length := by
  rw [newSize, wrapI32]
  omega

theorem length_copied (h : 0 ≤ newSize p) : ((copied p).length : Int) = newSize p := by
  have := newSize_le p
  rw [copied, length_take]
  omega

theorem copied_of_lt (h : p.length < 2 ^ 31) : copied p = p := by
  rw [copied, newSize, wrapI32_eq (by omega) (by omega), Int.toNat_natCast, take_length]

theorem copyInto_eq (text p : Str) (k : Nat) :
    copyInto (text ++ List.replicate k 0) text.length p =
      if 0 ≤ newSize p ∧ (copied p).length ≤ k then
        some (text ++ copied p ++ List.replicate (k - (copied p).length) 0)
      else none := by
  rw [copyInto, ← copied, write_zeros]
  by_cases h : 0 ≤ newSize p
  · rw [if_neg (Int.not_lt.mpr h)]
    simp only [h, true_and]
  · rw [if_pos (Int.not_le.mp h), if_neg (fun hc => h hc.1)]

theorem copy_then (text p : Str) (k : Nat) (rest : Str → Nat → Option (Ret × Str)) :
    ((copyInto (text ++ List.replicate k 0) text.length p).bind fun result =>
        rest result (text.length + (newSize p).toNat)) =
      if 0 ≤ newSize p ∧ (text ++ copied p).length ≤ text.length + k then
        rest (text ++ copied p ++
            List.replicate (text.length + k - (text ++ copied p).length) 0)
          (text ++ copied p).length
      else none := by
  simp only [copyInto_eq, length_append, Nat.add_le_add_iff_left, Nat.add_sub_add_left]
  split_ifs with h
  · have hlen := length_copied h.1
    have hd : (newSize p).toNat = (copied p).length := by omega
    rw [bind_some, hd]
  · rfl

/-- A component and the separator in front of it. -/
theorem put_then (text p : Str) (k : Nat) (rest : Str → Nat → Option (Ret × Str)) :
    ((putSep sys (text ++ List.replicate k 0) text.length).bind fun (result, d) =>
        (copyInto result d p).bind fun result => rest result (d + (newSize p).toNat)) =
      if 0 ≤ newSize p ∧ (joinOnto sys text (copied p)).length ≤ text.length + k then
        rest (joinOnto sys text (copied p) ++
            List.replicate (text.length + k - (joinOnto sys text (copied p)).length) 0)
          (joinOnto sys text (copied p)).length
      else none := by
  rw [putSep]
  simp only [putSep_iff]
  by_cases hsep : text ≠ [] ∧ text.getLast? ≠ some sys.pathSep
  · have hjoin : joinOnto sys text (copied p) = text ++ [sys.pathSep] ++ copied p := by
      rw [joinOnto, if_pos hsep, append_assoc, singleton_append]
    rw [if_pos hsep, hjoin, write_zeros, length_singleton]
    cases k with
    | zero =>
      rw [if_neg (by simp), map_none, bind_none, if_neg]
      simp only [length_append, length_singleton]
      omega
    | succ k =>
      have hd : text.length + 1 = (text ++ [sys.pathSep]).length := by
        rw [length_append, length_singleton]
      have hlen : text.length + (k + 1) = (text ++ [sys.pathSep]).length + k := by omega
      rw [if_pos (by omega), map_some, bind_some, hlen, Nat.add_sub_cancel, hd]
      exact copy_then (text ++ [sys.pathSep]) p k rest
  · rw [if_neg hsep, joinOnto, if_neg hsep, bind_some]
    exact copy_then text p k rest

theorem buildLoop_cons (text p : Str) (k : Nat) (avail : Int) (ps : List Str) :
    buildLoop sys (text ++ List.replicate k 0) text.length avail (p :: ps) =
      if Accepts avail p then
        if 0 ≤ newSize p ∧ (joinOnto sys text (copied p)).length ≤ text.length + k then
          buildLoop sys (joinOnto sys text (copied p) ++
              List.replicate (text.length + k - (joinOnto sys text (copied p)).length) 0)
            (joinOnto sys text (copied p)).length (wrapI32 (avail - newSize p)) ps
        else none
      else some (.fail, text ++ List.replicate k 0) := by
  rw [buildLoop, put_then text p k fun result d =>
    buildLoop sys result d (wrapI32 (avail - newSize p)) ps]

/-! ## Runs -/

/-- The copied components behind a text. -/
def joinedFrom (sys : System) (text : Str) (args : List Str) : Str :=
  (args.map copied).foldl (joinOnto sys) text

/-- Every text that is put together has room. -/
def RoomFrom (sys : System) (size : Nat) (text : Str) (avail : Int) (args : List Str) : Prop :=
  ∀ l, l <+: args → Passes avail l →
    (∀ p ∈ l, 0 ≤ newSize p) ∧ (joinedFrom sys text l).length ≤ size

theorem roomFrom_nil (sys : System) (size : Nat) (text : Str) (avail : Int) :
    RoomFrom sys size text avail [] ↔ text.length ≤ size := by
  constructor
  · intro h
    exact (h [] prefix_rfl trivial).2
  · intro h l hl _
    rw [prefix_nil.mp hl]
    exact ⟨nofun, h⟩

theorem roomFrom_cons (sys : System) (size : Nat) (text p : Str) (avail : Int) (ps : List Str)
    (htext : text.length ≤ size) :
    RoomFrom sys size text avail (p :: ps) ↔ (Accepts avail p →
      0 ≤ newSize p ∧ (joinOnto sys text (copied p)).length ≤ size ∧
        RoomFrom sys size (joinOnto sys text (copied p)) (wrapI32 (avail - newSize p)) ps) := by
  constructor
  · intro h haccepts
    obtain ⟨hp, hlen⟩ := h [p] ⟨ps, rfl⟩ ⟨haccepts, trivial⟩
    refine ⟨hp p mem_cons_self, hlen, fun l hl hpass => ?_⟩
    obtain ⟨hl', hlen'⟩ := h (p :: l) (cons_prefix_cons.mpr ⟨rfl, hl⟩) ⟨haccepts, hpass⟩
    exact ⟨fun q hq => hl' q (mem_cons_of_mem p hq), hlen'⟩
  · intro h l hl hpass
    cases l with
    | nil => exact ⟨nofun, htext⟩
    | cons q l =>
      obtain ⟨rfl, htail⟩ := cons_prefix_cons.mp hl
      obtain ⟨hp, -, hrest⟩ := h hpass.1
      obtain ⟨hall, hlen⟩ := hrest l htail hpass.2
      exact ⟨forall_mem_cons.mpr ⟨hp, hall⟩, hlen⟩

/-- No write is outside exactly if there is room, and then the result is the text with zeros. -/
theorem buildLoop_eq (sys : System) : ∀ (args : List Str) (text : Str) (k : Nat) (avail : Int),
    (RoomFrom sys (text.length + k) text avail args → ∃ ret result,
      buildLoop sys (text ++ List.replicate k 0) text.length avail args = some (ret, result) ∧
        (ret = .ok ↔ Passes avail args) ∧
        (ret = .ok → result = joinedFrom sys text args ++
          List.replicate (text.length + k - (joinedFrom sys text args).length) 0)) ∧
    (¬ RoomFrom sys (text.length + k) text avail args →
      buildLoop sys (text ++ List.replicate k 0) text.length avail args = none)
  | [], text, k, avail => by
    rw [roomFrom_nil]
    refine ⟨fun _ => ⟨.ok, _, rfl, ⟨fun _ => trivial, fun _ => rfl⟩, fun _ => ?_⟩, fun h => ?_⟩
    · rw [joinedFrom, map_nil, foldl_nil, Nat.add_sub_cancel_left]
    · exact absurd (Nat.le_add_right _ _) h
  | p :: ps, text, k, avail => by
    rw [buildLoop_cons, roomFrom_cons sys _ text p avail ps (Nat.le_add_right _ _)]
    by_cases haccepts : Accepts avail p
    · by_cases hfits : 0 ≤ newSize p ∧ (joinOnto sys text (copied p)).length ≤ text.length + k
      · have hsize : (joinOnto sys text (copied p)).length +
            (text.length + k - (joinOnto sys text (copied p)).length) = text.length + k :=
          Nat.add_sub_cancel' hfits.2
        have ih := buildLoop_eq sys ps (joinOnto sys text (copied p))
          (text.length + k - (joinOnto sys text (copied p)).length) (wrapI32 (avail - newSize p))
        rw [hsize] at ih
        rw [if_pos haccepts, if_pos hfits]
        refine ⟨fun h => ?_, fun h => ih.2 fun hroom => ?_⟩
        · obtain ⟨ret, result, heq, hret, hresult⟩ := ih.1 (h haccepts).2.2
          refine ⟨ret, result, heq, ?_, hresult⟩
          rw [hret, Passes, and_iff_right haccepts]
        · exact h fun _ => ⟨hfits.1, hfits.2, hroom⟩
      · rw [if_pos haccepts, if_neg hfits]
        refine ⟨fun h => absurd ⟨(h haccepts).1, (h haccepts).2.1⟩ hfits, fun _ => rfl⟩
    · rw [if_neg haccepts]
      refine ⟨fun _ => ⟨.fail, _, rfl, ⟨nofun, fun h => absurd h.1 haccepts⟩, nofun⟩, fun h => ?_⟩
      exact absurd (fun hc => absurd hc haccepts) h

/-! ## The bounds -/

theorem length_joinOnto (sys : System) (text p : Str) :
    text.length + p.length ≤ (joinOnto sys text p).length := by
  rw [joinOnto]
  split_ifs
  · simp only [length_append, length_cons]
    omega
  · rw [length_append]

theorem length_le_foldl (sys : System) : ∀ (args : List Str) (text : Str),
    text.length ≤ (args.foldl (joinOnto sys) text).length ∧
      ∀ p ∈ args, p.length ≤ (args.foldl (joinOnto sys) text).length
  | [], text => ⟨le_rfl, nofun⟩
  | p :: ps, text => by
    have hjoin := length_joinOnto sys text p
    obtain ⟨htext, hall⟩ := length_le_foldl sys ps (joinOnto sys text p)
    rw [foldl_cons, forall_mem_cons]
    exact ⟨by omega, by omega, hall⟩

theorem joinedFrom_eq (h : (joined sys args).length < 2 ^ 31) : joinedFrom sys [] args = joined sys args := by
  have hcopied : args.map copied = args := by
    conv_rhs => rw [← List.map_id args]
    refine map_congr_left fun p hp => copied_of_lt ?_
    exact ((length_le_foldl sys args []).2 p hp).trans_lt h
  rw [joinedFrom, hcopied, joined]

/-- The joined text of every part of the components that passes the checks is in the result, and there
is a byte left behind the text of all of them. -/
def Room (sys : System) (size : Int32) (args : List Str) : Prop :=
  0 ≤ size.toInt ∧ RoomFrom sys size.toInt.toNat [] size.toInt args ∧
    (Passes size.toInt args → (joined sys args).length < size.toInt)

theorem pathBuildInto_of_room (h : Room sys size args) :
    ∃ ret result, pathBuildInto sys size args = some (ret, result) ∧
      (ret = .ok ↔ Passes size.toInt args) ∧
      (ret = .ok → ∃ k, result = joined sys args ++ 0 :: List.replicate k 0) := by
  obtain ⟨hsize, hroom, hterm⟩ := h
  have hloop := buildLoop_eq sys args [] size.toInt.toNat size.toInt
  rw [nil_append, length_nil, Nat.zero_add] at hloop
  obtain ⟨ret, result, heq, hret, hresult⟩ := hloop.1 hroom
  rw [pathBuildInto, if_neg (Int.not_lt.mpr hsize)]
  refine ⟨ret, result, heq, hret, fun hok => ?_⟩
  have hlt := hterm (hret.mp hok)
  have hmax := size.toInt_lt
  refine ⟨size.toInt.toNat - (joined sys args).length - 1, ?_⟩
  rw [hresult hok, joinedFrom_eq (by omega), ← replicate_succ]
  congr 2
  omega

/-- `path_build` writes no byte outside of the result, and a result that it calls right is the
components joined with separators, with a zero behind them. -/
theorem pathBuildInto_iff (sys : System) (size : Int32) (args : List Str) :
    (∃ ret result, pathBuildInto sys size args = some (ret, result) ∧
      (ret = .ok → ∃ k, result = joined sys args ++ 0 :: List.replicate k 0)) ↔
      Room sys size args := by
  rw [pathBuildInto, Room]
  by_cases hsize : size.toInt < 0
  · rw [if_pos hsize]
    exact ⟨nofun, fun h => absurd h.1 (Int.not_le.mpr hsize)⟩
  rw [if_neg hsize, and_iff_right (Int.not_lt.mp hsize)]
  have hloop := buildLoop_eq sys args [] size.toInt.toNat size.toInt
  rw [nil_append, length_nil, Nat.zero_add] at hloop
  constructor
  · rintro ⟨ret, result, heq, hok⟩
    have hroom : RoomFrom sys size.toInt.toNat [] size.toInt args := by
      by_contra hno
      rw [hloop.2 hno] at heq
      cases heq
    obtain ⟨ret', result', heq', hret, hresult⟩ := hloop.1 hroom
    rw [heq] at heq'
    obtain ⟨rfl, rfl⟩ := Prod.mk.inj (some.inj heq')
    refine ⟨hroom, fun hpass => ?_⟩
    obtain ⟨k, hk⟩ := hok (hret.mpr hpass)
    have hlen := congrArg List.length ((hresult (hret.mpr hpass)).symm.trans hk)
    have hfits := (hroom args prefix_rfl hpass).2
    simp only [length_append, length_replicate, length_cons] at hlen
    omega
  · intro hroom
    obtain ⟨ret, result, heq, -, hresult⟩ := pathBuildInto_of_room ⟨Int.not_lt.mp hsize, hroom⟩
    rw [pathBuildInto, if_neg hsize] at heq
    exact ⟨ret, result, heq, hresult⟩

/-- Three separators need more than the byte that the checks leave. -/
theorem pathBuildInto_four :
    ¬ ∃ ret result, pathBuildInto .unix 6 [['a'], ['b'], ['c'], ['d']] = some (ret, result) ∧
      (ret = .ok → ∃ k, result = joined .unix [['a'], ['b'], ['c'], ['d']] ++ 0 :: List.replicate k 0) := by
  have hnone : pathBuildInto .unix 6 [['a'], ['b'], ['c'], ['d']] = none := by decide
  rintro ⟨ret, result, heq, -⟩
  rw [hnone] at heq
  cases heq

end Awtk.Path
