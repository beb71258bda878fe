import Awtk.Tkc.UrlScan

/-!
# The parameters of URLs

A parameter object holds its properties in the order of their names, each name once unless it is that of an
index.  Properties that are printed one after the other are read back in that order.
-/

namespace Awtk

open List

/-! ## Parameter objects -/

namespace UrlParam

variable {ps : List UrlParam} {name value : Str}

theorem tkStrcmp_isOrder : DArray.IsOrder tkStrcmp := NamedValue.cmpUnits_isOrder

theorem compare_isOrder : DArray.IsOrder compare :=
  ⟨fun a b => tkStrcmp_isOrder.swap a.1 b.1, fun a b c => tkStrcmp_isOrder.trans a.1 b.1 c.1⟩

/-- What holds of the properties that a text has set. -/
structure Sound (ps : List UrlParam) : Prop where
  sorted : DArray.Sorted compare ps
  distinct : ps.Pairwise fun a b => a.1 = b.1 → tkStrIndexable a.1 = true
  name : ∀ nv ∈ ps, ('=' : UInt8) ∉ nv.1
  value : ∀ nv ∈ ps, ('&' : UInt8) ∉ nv.2

theorem sound_nil : Sound [] :=
  ⟨.nil, .nil, fun _ h => absurd h not_mem_nil, fun _ h => absurd h not_mem_nil⟩

theorem findPropIndexByName_cases (hsorted : DArray.Sorted compare ps) (name : Str) :
    (∃ i, findPropIndexByName name ps = some i ∧ i < ps.length ∧
        (tkStrIndexable name = true ∨ ∃ nv ∈ ps, nv.1 = name)) ∨
      (findPropIndexByName name ps = none ∧ (tkStrIndexable name = true ∨ ∀ nv ∈ ps, nv.1 ≠ name)) := by
  rw [findPropIndexByName]
  split_ifs with hindex
  · dsimp only
    split_ifs with hbound
    · exact .inl ⟨_, rfl, by omega, .inl hindex⟩
    · exact .inr ⟨rfl, .inl hindex⟩
  · have hnames : DArray.Sorted tkStrcmp (ps.map Prod.fst) := pairwise_map.mpr hsorted
    rcases DArray.bsearchIndexEx_spec tkStrcmp_isOrder hnames name with
      ⟨i, hi, hfound, heq⟩ | ⟨i, hnone, hwindow⟩
    · rw [hfound]
      have hname := (NamedValue.cmpUnits_eq_zero _ _).mp heq
      rw [getElem_map] at hname
      rw [length_map] at hi
      exact .inl ⟨i, rfl, hi, .inr ⟨_, getElem_mem hi, hname⟩⟩
    · rw [hnone]
      refine .inr ⟨rfl, .inr fun nv hnv heq => ?_⟩
      exact hwindow.ne (List.mem_map_of_mem hnv) ((NamedValue.cmpUnits_eq_zero _ _).mpr heq)

theorem setProp_cases (hsorted : DArray.Sorted compare ps) (name value : Str) :
    (∃ i, i < ps.length ∧ (tkStrIndexable name = true ∨ ∃ nv ∈ ps, nv.1 = name) ∧
        setProp name value ps = ps.modify i fun nv => (nv.1, value)) ∨
      ((tkStrIndexable name = true ∨ ∀ nv ∈ ps, nv.1 ≠ name) ∧ DArray.Sorted compare (setProp name value ps) ∧
        ∃ l r, ps = l ++ r ∧ setProp name value ps = l ++ (name, value) :: r) := by
  rw [setProp]
  rcases findPropIndexByName_cases hsorted name with ⟨i, hi, hlt, hname⟩ | ⟨hnone, hname⟩
  · rw [hi]
    exact .inl ⟨i, hlt, hname, rfl⟩
  · rw [hnone]
    obtain ⟨hsorted', hcases⟩ := DArray.sortedInsert_spec compare_isOrder hsorted (name, value) false
    rcases hcases with ⟨hfalse, -⟩ | ⟨-, hsplit⟩
    · cases hfalse
    · exact .inr ⟨hname, hsorted', hsplit⟩

theorem setProp_ne_nil (hsorted : DArray.Sorted compare ps) (name value : Str) : setProp name value ps ≠ [] := by
  rcases setProp_cases hsorted name value with ⟨i, hlt, -, hset⟩ | ⟨-, -, l, r, -, hset⟩
  · rw [hset, ← length_pos_iff, length_modify]
    omega
  · rw [hset]
    exact append_ne_nil_of_right_ne_nil l (cons_ne_nil _ _)

theorem map_fst_modify (i : Nat) (value : Str) (ps : List UrlParam) :
    (ps.modify i fun nv => (nv.1, value)).map Prod.fst = ps.map Prod.fst := by
  induction ps generalizing i with
  | nil => cases i <;> rfl
  | cons nv ps ih =>
    cases i with
    | zero => rfl
    | succ i => exact congrArg (nv.1 :: ·) (ih i)

theorem mem_modify {i : Nat} {nv : UrlParam} (h : nv ∈ ps.modify i fun nv => (nv.1, value)) :
    nv ∈ ps ∨ nv.2 = value := by
  induction ps generalizing i with
  | nil => cases i <;> exact absurd h not_mem_nil
  | cons first ps ih =>
    cases i with
    | zero =>
      rcases mem_cons.mp h with rfl | h
      · exact .inr rfl
      · exact .inl (mem_cons_of_mem _ h)
    | succ i =>
      rcases mem_cons.mp h with rfl | h
      · exact .inl mem_cons_self
      · exact (ih h).imp_left (mem_cons_of_mem _)

theorem Sound.setProp (h : Sound ps) (hname : ('=' : UInt8) ∉ name) (hvalue : ('&' : UInt8) ∉ value) :
    Sound (setProp name value ps) := by
  rcases setProp_cases h.sorted name value with ⟨i, -, -, hset⟩ | ⟨hnew, hsorted, l, r, hps, hset⟩
  · have hnames := map_fst_modify i value ps
    rw [hset]
    refine ⟨?_, ?_, fun nv hnv => ?_, fun nv hnv => ?_⟩
    · exact pairwise_map (f := Prod.fst) (R := fun a b => tkStrcmp a b ≤ 0).mp (hnames ▸ pairwise_map.mpr h.sorted)
    · exact pairwise_map (f := Prod.fst) (R := fun a b => a = b → tkStrIndexable a = true).mp
        (hnames ▸ pairwise_map.mpr h.distinct)
    · have hmem : nv.1 ∈ ps.map Prod.fst := hnames ▸ List.mem_map_of_mem hnv
      obtain ⟨old, hold, heq⟩ := List.mem_map.mp hmem
      exact heq ▸ h.name old hold
    · rcases mem_modify hnv with hold | heq
      · exact h.value nv hold
      · rw [heq]
        exact hvalue
  · have hperm : (UrlParam.setProp name value ps).Perm ((name, value) :: ps) := by
      rw [hset, hps]
      exact perm_middle
    refine ⟨hsorted, ?_, fun nv hnv => ?_, fun nv hnv => ?_⟩
    · refine (hperm.pairwise_iff fun {a b} hab heq => heq ▸ hab heq.symm).mpr
        (pairwise_cons.mpr ⟨fun nv hnv heq => ?_, h.distinct⟩)
      rcases hnew with hindex | hne
      · exact hindex
      · exact absurd heq.symm (hne nv hnv)
    · rcases mem_cons.mp (hperm.mem_iff.mp hnv) with rfl | hold
      · exact hname
      · exact h.name nv hold
    · rcases mem_cons.mp (hperm.mem_iff.mp hnv) with rfl | hold
      · exact hvalue
      · exact h.value nv hold

theorem setProp_snoc (hsorted : DArray.Sorted compare ps) (hindex : tkStrIndexable name = false)
    (hlast : ∀ nv ∈ ps, compare nv (name, value) < 0) : setProp name value ps = ps ++ [(name, value)] := by
  rcases setProp_cases hsorted name value with ⟨i, -, hname, -⟩ | ⟨-, hsorted', l, r, hps, hset⟩
  · rcases hname with htrue | ⟨nv, hnv, heq⟩
    · exact absurd htrue (Bool.eq_false_iff.mp hindex)
    · have hzero : compare nv (name, value) = 0 := (NamedValue.cmpUnits_eq_zero _ _).mpr heq
      exact absurd hzero (Int.ne_of_lt (hlast nv hnv))
  · -- what stood behind it would come both in front of it and behind it
    cases r with
    | nil => rw [hset, hps, append_nil]
    | cons nv r =>
      rw [hset] at hsorted'
      have hle := rel_of_pairwise_cons (pairwise_append.mp hsorted').2.1 (mem_cons_self (a := nv) (l := r))
      have hlt := hlast nv (by rw [hps]; exact mem_append_right l mem_cons_self)
      have hgt := (compare_isOrder.swap nv (name, value)).mp hlt
      omega

end UrlParam

/-! ## The parameters of a text -/

namespace Url

open Scan

variable {q w s : Str} {u : Url} {ps : List UrlParam}

/-- The parameters are those of a text. -/
def SoundParams (params : Option (List UrlParam)) : Prop := ∀ ps, params = some ps → ps ≠ [] ∧ UrlParam.Sound ps

theorem SoundParams.set (h : SoundParams u.params) (hw : ('=' : UInt8) ∉ w) (hs : ('&' : UInt8) ∉ s) :
    SoundParams (u.setParam w s).params := by
  have hold : UrlParam.Sound (u.params.getD []) := by
    cases hps : u.params with
    | none => exact UrlParam.sound_nil
    | some ps => exact (h ps hps).2
  intro ps hps
  cases hps
  exact ⟨UrlParam.setProp_ne_nil hold.sorted w s, hold.setProp hw hs⟩

/-- From the `?` on a text changes the parameters alone. -/
theorem loop_query (q : Str) : ∀ {u : Url} {w s : Str}, SoundParams u.params →
    (('=' : UInt8) ∉ w → ∃ params, loop q ⟨.key, 0, w, s, u⟩ = some { u with params } ∧ SoundParams params) ∧
      (('=' : UInt8) ∉ s → ('&' : UInt8) ∉ w →
        ∃ params, loop q ⟨.value, 0, w, s, u⟩ = some { u with params } ∧ SoundParams params) := by
  induction q with
  | nil =>
    intro u w s h
    constructor
    · intro hw
      by_cases hsize : 0 < w.length
      · exact ⟨_, congrArg (fun m : Scan => some m.url) (if_pos hsize), h.set hw not_mem_nil⟩
      · exact ⟨_, congrArg (fun m : Scan => some m.url) (if_neg hsize), h⟩
    · intro hs hw
      exact ⟨_, rfl, h.set hs hw⟩
  | cons c q ih =>
    intro u w s h
    constructor
    · intro hw
      by_cases hc : c = '='
      · rw [hc]
        exact (ih h).2 hw not_mem_nil
      · have hnext := loop_word (p := q) (w := w) (s := s) (u := u) [c]
          (forall_mem_singleton.mpr (show stops .key c = false from decide_eq_false hc))
        have hw' : ('=' : UInt8) ∉ w ++ [c] := by simp [hw, Ne.symm hc]
        exact hnext ▸ (ih h).1 hw'
    · intro hs hw
      by_cases hc : c = '&'
      · rw [hc]
        exact (ih (w := []) (s := s) (h.set hs hw)).1 not_mem_nil
      · have hnext := loop_word (p := q) (w := w) (s := s) (u := u) [c]
          (forall_mem_singleton.mpr (show stops .value c = false from decide_eq_false hc))
        have hw' : ('&' : UInt8) ∉ w ++ [c] := by simp [hw, Ne.symm hc]
        exact hnext ▸ (ih h).2 hs hw'

theorem readQuery_sound (t : Str) (h : SoundParams u.params) :
    ∃ params, readQuery u t = some { u with params } ∧ SoundParams params := by
  cases t with
  | nil => exact ⟨u.params, rfl, h⟩
  | cons c q => exact (loop_query q h).1 not_mem_nil

/-! ## Printed parameters -/

/-- Of the delimiters of URLs, the name has no `[`, and the value no `?`. -/
def Plain (nv : UrlParam) : Prop := ('[' : UInt8) ∉ nv.1 ∧ ('?' : UInt8) ∉ nv.2

instance (nv : UrlParam) : Decidable (Plain nv) := inferInstanceAs (Decidable (_ ∧ _))

theorem Plain.not_indexable {nv : UrlParam} (h : Plain nv) : tkStrIndexable nv.1 = false := by
  rw [tkStrIndexable]
  have hhead : nv.1.head? ≠ some ('[' : UInt8) := fun heq => h.1 (mem_of_mem_head? heq)
  simp [hhead]

/-- What is printed of parameters. -/
def queryText (params : Option (List UrlParam)) : Str :=
  match params with
  | some ps => ps.foldl onVisitParam [('?' : UInt8)]
  | none => []

/-- The parameters behind the first one. -/
def moreText (ps : List UrlParam) : Str := ps.flatMap fun nv => ('&' : UInt8) :: (nv.1 ++ ('=' : UInt8) :: nv.2)

theorem foldl_onVisitParam (rest : List UrlParam) : ∀ {x v : Str}, ('?' : UInt8) ∉ v →
    (∀ nv ∈ rest, Plain nv) →
      rest.foldl onVisitParam (x ++ ('=' : UInt8) :: v) = x ++ ('=' : UInt8) :: v ++ moreText rest := by
  induction rest with
  | nil => exact fun _ _ => (append_nil _).symm
  | cons nv rest ih =>
    intro x v hv hrest
    obtain ⟨hnv, hrest⟩ := forall_mem_cons.mp hrest
    have hlast : (x ++ ('=' : UInt8) :: v).getLast? ≠ some ('?' : UInt8) := by
      intro heq
      rw [getLast?_append_cons] at heq
      rcases mem_cons.mp (mem_of_getLast? heq) with hne | hmem
      · exact absurd hne (by decide)
      · exact hv hmem
    have hvisit : onVisitParam (x ++ ('=' : UInt8) :: v) nv =
        (x ++ ('=' : UInt8) :: v ++ ('&' : UInt8) :: nv.1) ++ ('=' : UInt8) :: nv.2 := by
      rw [onVisitParam, if_pos hlast]
      simp
    rw [foldl_cons, hvisit, ih hnv.2 hrest]
    simp [moreText]

theorem not_stops_key {v : Str} (h : ('=' : UInt8) ∉ v) : ∀ c ∈ v, stops .key c = false :=
  fun _ hc => decide_eq_false fun heq => h (heq ▸ hc)

theorem not_stops_value {v : Str} (h : ('&' : UInt8) ∉ v) : ∀ c ∈ v, stops .value c = false :=
  fun _ hc => decide_eq_false fun heq => h (heq ▸ hc)

theorem setProp_last {done rest : List UrlParam} {name value : Str} {v : Url} (hdone : v.params.getD [] = done)
    (hstrict : (done ++ (name, value) :: rest).Pairwise fun a b => UrlParam.compare a b < 0)
    (hindex : tkStrIndexable name = false) :
    v.setParam name value = { v with params := some (done ++ [(name, value)]) } := by
  obtain ⟨hsorted, -, hbefore⟩ := pairwise_append.mp hstrict
  have hset := UrlParam.setProp_snoc (hsorted.imp Int.le_of_lt) hindex fun nv hnv =>
    hbefore nv hnv _ mem_cons_self
  rw [setParam, hdone, hset]

/-- Parameters are read one after the other, and each is put behind those in front of it. -/
theorem loop_params (rest : List UrlParam) : ∀ {done : List UrlParam} {name value : Str} {v : Url},
    v.params.getD [] = done →
    (done ++ (name, value) :: rest).Pairwise (fun a b => UrlParam.compare a b < 0) →
    (∀ nv ∈ (name, value) :: rest, tkStrIndexable nv.1 = false ∧ ('=' : UInt8) ∉ nv.1 ∧ ('&' : UInt8) ∉ nv.2) →
      loop (value ++ moreText rest) ⟨.value, 0, [], name, v⟩ =
        some { v with params := some (done ++ (name, value) :: rest) } := by
  induction rest with
  | nil =>
    intro done name value v hdone hstrict hall
    obtain ⟨⟨hindex, -, hvalue⟩, -⟩ := forall_mem_cons.mp hall
    have hset := setProp_last hdone hstrict hindex
    rw [moreText, flatMap_nil, loop_word value (not_stops_value hvalue)]
    exact congrArg some hset
  | cons nv rest ih =>
    intro done name value v hdone hstrict hall
    obtain ⟨⟨hindex, -, hvalue⟩, hrest⟩ := forall_mem_cons.mp hall
    have hset := setProp_last hdone hstrict hindex
    obtain ⟨-, hname, -⟩ := (forall_mem_cons.mp hrest).1
    have hlist : done ++ (name, value) :: nv :: rest = done ++ [(name, value)] ++ nv :: rest := by simp
    rw [hlist] at hstrict ⊢
    have hread := ih (v := v.setParam name value) (by rw [hset]; rfl) hstrict hrest
    have htext : moreText (nv :: rest) =
        ('&' : UInt8) :: (nv.1 ++ ('=' : UInt8) :: (nv.2 ++ moreText rest)) := by
      rw [moreText, flatMap_cons, ← moreText, cons_append, append_assoc, cons_append]
    have hkey := loop_word (p := ('=' : UInt8) :: (nv.2 ++ moreText rest)) (w := []) (s := name) (u := v.setParam name value)
      nv.1 (not_stops_key hname)
    rw [loop_word value (not_stops_value hvalue), htext]
    refine hkey.trans (hread.trans ?_)
    rw [hset]

/-- The printed parameters are read back. -/
theorem readQuery_printed {v : Url} {params : Option (List UrlParam)} (hv : v.params = none)
    (hsound : SoundParams params) (hplain : ∀ ps, params = some ps → ∀ nv ∈ ps, Plain nv) :
    readQuery v (queryText params) = some { v with params } := by
  cases params with
  | none =>
    cases v
    cases hv
    rfl
  | some ps =>
    obtain ⟨hne, hsound⟩ := hsound ps rfl
    have hplain := hplain ps rfl
    have hindex : ∀ nv ∈ ps, tkStrIndexable nv.1 = false := fun nv hnv => (hplain nv hnv).not_indexable
    have hstrict : ps.Pairwise fun a b => UrlParam.compare a b < 0 := by
      refine (hsound.sorted.and hsound.distinct).imp_of_mem fun {a b} ha _ hab => ?_
      refine lt_of_le_of_ne hab.1 fun hzero => ?_
      have hsame := hab.2 ((NamedValue.cmpUnits_eq_zero _ _).mp hzero)
      exact absurd hsame (Bool.eq_false_iff.mp (hindex a ha))
    cases ps with
    | nil => exact absurd rfl hne
    | cons nv rest =>
      obtain ⟨hnv, hrest⟩ := forall_mem_cons.mp hplain
      have hall : ∀ nv' ∈ nv :: rest,
          tkStrIndexable nv'.1 = false ∧ ('=' : UInt8) ∉ nv'.1 ∧ ('&' : UInt8) ∉ nv'.2 :=
        fun nv' h => ⟨hindex nv' h, hsound.name nv' h, hsound.value nv' h⟩
      have hfirst : onVisitParam [('?' : UInt8)] nv = (('?' : UInt8) :: nv.1) ++ ('=' : UInt8) :: nv.2 := by
        simp [onVisitParam]
      have htext : queryText (some (nv :: rest)) =
          ('?' : UInt8) :: (nv.1 ++ ('=' : UInt8) :: (nv.2 ++ moreText rest)) := by
        rw [queryText, foldl_cons, hfirst, foldl_onVisitParam rest hnv.2 hrest]
        simp
      have hkey := loop_word (p := ('=' : UInt8) :: (nv.2 ++ moreText rest)) (w := []) (s := []) (u := v) nv.1
        (not_stops_key (hsound.name nv mem_cons_self))
      rw [htext]
      exact hkey.trans (@loop_params rest [] nv.1 nv.2 v (by rw [hv]; rfl) hstrict hall)

end Url

end Awtk
