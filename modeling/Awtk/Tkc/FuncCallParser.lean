import Awtk.Tkc.ObjectDefaultRuns
import Awtk.Tkc.Tokenizer

/-!
# Function calls

`func_call_parse` reads a text `name(p1="v1",p2="v2")` into an object with the name of the function and a
property for each parameter.  The parentheses, the comma, the equals sign and the blanks are one class of
separators.  A `FuncCall` is such a text with its blanks.

The separators that a value starts with are skipped like those between the tokens
(`funcCallParse_text`), so the object has the pairs of the text exactly if no value starts with one
(`funcCallParse_iff`).
-/

namespace Awtk

open Tokenizer ObjectDefault List Option

set_option maxRecDepth 2048

/-! ## The code -/

/-- The separators of `func_call_parser_init`. -/
def callSeparators : Str := ['(', '=', ',', ')', '\r', '\n', '\t', ' ']

/-- `TK_NAME_LEN`. -/
def TK_NAME_LEN : Nat := 31

/-- The loop of `func_call_parser_parse`: what it returns and the parameters it reports. -/
def funcCallLoop : Nat → Tokenizer → Option (Ret × List (Str × Option Str))
  | 0, _ => none
  | fuel + 1, t =>
    if t.hasMore then
      match t.next with
      | (none, _) => some (.ok, [])
      | (some token, t) =>
        let name := token.take TK_NAME_LEN
        if t.hasMore then
          let (value, t) := t.nextStr
          (funcCallLoop fuel t).map fun p => (p.1, (name, value) :: p.2)
        else some (.badParams, [])
    else some (.ok, [])

/-- `func_call_parser_parse`: what it returns, the name and the parameters it reports. -/
def funcCallParserParse (t : Tokenizer) : Option (Ret × Option Str × List (Str × Option Str)) :=
  if t.hasMore then
    let fuel := t.size + 1
    let (name, t) := t.next
    (funcCallLoop fuel t).map fun p => (p.1, name, p.2)
  else some (.badParams, none, [])

/-- The name of a property, if it is no path, no index and not reserved. -/
def Name.ofText (text : Str) : Option Name :=
  if h : (∀ c ∈ text, c ≠ 0 ∧ c ≠ '.' ∧ c ≠ '[') ∧ text ≠ ['#', 's', 'i', 'z', 'e'] ∧
      text ≠ ['#', 'd', 'i', 's', 'a', 'b', 'l', 'e', '_', 'p', 'a', 't', 'h'] then some ⟨text, h⟩
  else none

/-- An object with a name. -/
structure NamedObject (V : Type) where
  name : Option Str
  props : ObjectDefault V

def parserOnParam (obj : Option (ObjectDefault (Option Str))) (param : Str × Option Str) :
    Option (ObjectDefault (Option Str)) :=
  obj.bind fun o => (Name.ofText param.1).map fun name => (o.setProp name param.2).2

/-- `func_call_parse`.  It has no result where a parameter has a name that is not plain. -/
def funcCallParse (str : Str) (size : Nat) : Option (NamedObject (Option Str)) :=
  if 0 < size then
    (funcCallParserParse (init str size callSeparators)).bind fun p =>
    (p.2.2.foldl parserOnParam (some create)).map fun props => ⟨p.2.1, props⟩
  else none

/-! ## Texts -/

/-- White space. -/
def isBlank (c : UInt8) : Bool := c = ' ' || c = '\t' || c = '\r' || c = '\n'

/-- A word without separators. -/
def IsWord (w : Str) : Prop := w ≠ [] ∧ ∀ c ∈ w, strchr callSeparators c = false

/-- White space between tokens. -/
structure Blanks where
  text : Str
  blank : ∀ c ∈ text, isBlank c = true

/-- A parameter as it is written: its name, its value in quotes, and the white space around them. -/
structure CallParam where
  name : Name
  value : Str
  beforeName : Blanks
  beforeEquals : Blanks
  beforeValue : Blanks
  afterValue : Blanks
  name_word : IsWord name.text
  name_short : name.text.length ≤ TK_NAME_LEN
  value_plain : ∀ c ∈ value, c ≠ 0 ∧ c ≠ ('"' : UInt8)

/-- The text of a parameter behind its first blanks. -/
def CallParam.body (p : CallParam) : Str :=
  p.name.text ++ (p.beforeEquals.text ++ ('=' : UInt8) :: p.beforeValue.text) ++
    (('"' : UInt8) :: p.value ++ ('"' : UInt8) :: p.afterValue.text)

/-- The text of the parameters. -/
def paramsText : List CallParam → Str
  | [] => []
  | [p] => p.beforeName.text ++ p.body
  | p :: q :: ps => p.beforeName.text ++ p.body ++ (',' : UInt8) :: paramsText (q :: ps)

/-- A call as it is written. -/
structure FuncCall where
  name : Str
  params : List CallParam
  before : Blanks
  beforeOpen : Blanks
  beforeClose : Blanks
  after : Blanks
  name_word : IsWord name
  names_distinct : (params.map CallParam.name).Nodup

/-- The text of a call. -/
def FuncCall.text (c : FuncCall) : Str :=
  c.before.text ++ c.name ++ c.beforeOpen.text ++ ('(' : UInt8) :: paramsText c.params ++
    c.beforeClose.text ++ (')' : UInt8) :: c.after.text

/-- A parameter as a property, with some value. -/
def CallParam.prop (p : CallParam) (value : Str) : NamedValue (Option Str) := ⟨p.name, some value⟩

/-- A value without the separators it starts with. -/
def CallParam.read (p : CallParam) : Str := skipped callSeparators p.value

/-! ## Reading a text -/

theorem blank_separator {c : UInt8} (h : isBlank c = true) : strchr callSeparators c = true := by
  have hall := forall_byte (p := fun c => !isBlank c || strchr callSeparators c) (by decide +kernel) c
  simpa [h] using hall

theorem Blanks.separators (b : Blanks) : ∀ c ∈ b.text, strchr callSeparators c = true :=
  fun c hc => blank_separator (b.blank c hc)

theorem Blanks.head_separator (b : Blanks) {c : UInt8} (hc : strchr callSeparators c = true) (r : Str) :
    ∀ a ∈ (b.text ++ c :: r).head?, strchr callSeparators a = true := by
  intro a ha
  cases hblank : b.text with
  | nil =>
    rw [hblank, nil_append, head?_cons, mem_some_iff] at ha
    exact ha ▸ hc
  | cons d l =>
    rw [hblank, cons_append, head?_cons, mem_some_iff] at ha
    exact b.separators a (by rw [hblank, ha]; exact mem_cons_self)

theorem funcCallLoop_nil {done s : Str} (fuel : Nat) (h : skipped callSeparators s = []) :
    funcCallLoop (fuel + 1) (goto callSeparators done s) = some (.ok, []) := by
  obtain ⟨t, ht⟩ := goto_next_none done h
  rw [funcCallLoop, ht]
  split <;> rfl

/-- One turn of the loop reads one parameter. -/
theorem funcCallLoop_cons (done : Str) {s r : Str} (fuel : Nat) (p : CallParam)
    (h : skipped callSeparators s = p.body ++ r) :
    ∃ done', funcCallLoop (fuel + 1) (goto callSeparators done s) =
      (funcCallLoop fuel (goto callSeparators done' (p.afterValue.text ++ r))).map
        fun q => (q.1, (p.name.text, some p.read) :: q.2) := by
  let quoted : Str := ('"' : UInt8) :: p.value ++ ('"' : UInt8) :: (p.afterValue.text ++ r)
  have hbody : p.body ++ r =
      p.name.text ++ (p.beforeEquals.text ++ ('=' : UInt8) :: (p.beforeValue.text ++ quoted)) := by
    simp [CallParam.body, quoted]
  have hbetween : ∀ c ∈ p.beforeEquals.text ++ ('=' : UInt8) :: p.beforeValue.text,
      strchr callSeparators c = true := by
    intro c hc
    rcases mem_append.mp hc with hc | hc
    · exact p.beforeEquals.separators c hc
    · rcases mem_cons.mp hc with rfl | hc
      · decide
      · exact p.beforeValue.separators c hc
  have hquoted : skipped callSeparators
      (p.beforeEquals.text ++ ('=' : UInt8) :: (p.beforeValue.text ++ quoted)) = quoted := by
    rw [← cons_append, ← append_assoc, skipped_append hbetween]
    exact dropWhile_cons_of_neg (by decide)
  rw [hbody] at h
  obtain ⟨done₁, hnext⟩ := goto_next done h p.name_word.1 p.name_word.2
    (p.beforeEquals.head_separator (by decide) _)
  obtain ⟨done', hstr⟩ := goto_nextStr done₁ (show strchr callSeparators '"' = false by decide) p.value_plain
    (p.afterValue.text ++ r)
  have hmore : (goto callSeparators done s).hasMore = true := by
    cases s with
    | nil =>
      rw [skipped, dropWhile_nil] at h
      exact absurd (append_eq_nil_iff.mp h.symm).1 p.name_word.1
    | cons c s => simp
  refine ⟨done', ?_⟩
  rw [funcCallLoop, if_pos hmore, hnext, hquoted]
  simp only [take_of_length_le p.name_short]
  rw [if_pos (by simp [quoted]), hstr]
  rfl

/-- The parameters of a call are read in order. -/
theorem funcCallLoop_params (ps : List CallParam) : ∀ (done : Str) {s after : Str} {fuel : Nat},
    (∀ c ∈ after, strchr callSeparators c = true) → ps.length < fuel →
    skipped callSeparators s = skipped callSeparators (paramsText ps ++ after) →
      funcCallLoop fuel (goto callSeparators done s) =
        some (.ok, ps.map fun p => (p.name.text, some p.read)) := by
  induction ps with
  | nil =>
    intro done s after fuel hafter hfuel h
    cases fuel with
    | zero => cases hfuel
    | succ fuel => exact funcCallLoop_nil fuel (h.trans (skipped_all hafter))
  | cons p ps ih =>
    intro done s after fuel hafter hfuel h
    cases fuel with
    | zero => cases hfuel
    | succ fuel =>
      -- what is behind the parameter is read like the other parameters
      obtain ⟨r, hr, hrest⟩ : ∃ r, paramsText (p :: ps) ++ after = p.beforeName.text ++ (p.body ++ r) ∧
          skipped callSeparators (p.afterValue.text ++ r) =
            skipped callSeparators (paramsText ps ++ after) := by
        cases ps with
        | nil => exact ⟨after, by simp [paramsText], skipped_append p.afterValue.separators _⟩
        | cons q ps =>
          refine ⟨(',' : UInt8) :: (paramsText (q :: ps) ++ after), by simp [paramsText], ?_⟩
          rw [skipped_append p.afterValue.separators]
          exact dropWhile_cons_of_pos (by decide)
      have hskip : skipped callSeparators s = p.body ++ r := by
        rw [h, hr, skipped_append p.beforeName.separators, CallParam.body, append_assoc,
          append_assoc]
        exact skipped_word p.name_word.1 p.name_word.2 _
      obtain ⟨done', hloop⟩ := funcCallLoop_cons done fuel p hskip
      rw [hloop, ih done' hafter (Nat.lt_of_succ_lt_succ hfuel) hrest]
      rfl

theorem length_le_paramsText : ∀ ps : List CallParam, ps.length ≤ (paramsText ps).length
  | [] => Nat.zero_le _
  | [p] => by
    have hname := length_pos_iff.mpr p.name_word.1
    simp [paramsText, CallParam.body]
    omega
  | p :: q :: ps => by
    have hrest := length_le_paramsText (q :: ps)
    simp only [paramsText, length_append, length_cons] at hrest ⊢
    omega

/-! ## The object -/

theorem Name.ofText_text (n : Name) : Name.ofText n.text = some n := dif_pos n.plain

/-- Parameters with distinct names become properties. -/
theorem foldl_parserOnParam (ps : List CallParam) : ∀ {o : ObjectDefault (Option Str)}
    {s : Store (Option Str)}, Shows o s → s.caseInsensitive = false →
    (ps.map CallParam.name).Nodup → (∀ p ∈ ps, ∀ q ∈ s.props, q.name ≠ p.name) →
    ∃ o', (ps.map fun p => (p.name.text, some p.read)).foldl parserOnParam (some o) = some o' ∧
      o'.props.Perm (ps.map (fun p => p.prop p.read) ++ s.props) := by
  induction ps with
  | nil => exact fun h _ _ _ => ⟨_, rfl, h.perm⟩
  | cons p ps ih =>
    intro o s h hcase hnodup hnew
    rw [map_cons, nodup_cons] at hnodup
    have hany : s.props.any (hits s.caseInsensitive p.name) = false := by
      rw [List.any_eq_false]
      intro q hq hhit
      rw [hcase, hits, decide_eq_true_eq] at hhit
      have htext : q.name.text = p.name.text := hhit
      exact hnew p mem_cons_self q hq (by cases hn : q.name; cases hm : p.name; simp_all)
    have hset := (h.setProp p.name (some p.read)).2
    rw [Store.set, if_neg (by rw [hany]; decide)] at hset
    obtain ⟨o', ho', hperm⟩ := ih hset hcase hnodup.2 fun q hq r hr => by
      rcases mem_cons.mp hr with rfl | hr
      · intro heq
        exact hnodup.1 ((show p.name = q.name from heq) ▸ List.mem_map_of_mem hq)
      · exact hnew q (mem_cons_of_mem p hq) r hr
    refine ⟨o', ?_, ?_⟩
    · rw [map_cons, foldl_cons, parserOnParam, bind_some, Name.ofText_text,
        map_some, ho']
    · exact hperm.trans (perm_middle)

/-- The object of a call has its parameters, with their values as they are read. -/
theorem funcCallParse_text (c : FuncCall) (h : c.text.length < 2 ^ 32) :
    ∃ o, funcCallParse c.text c.text.length = some ⟨some c.name, o⟩ ∧
      o.props.Perm (c.params.map fun p => p.prop p.read) := by
  let after : Str := c.beforeClose.text ++ (')' : UInt8) :: c.after.text
  let inside : Str := c.beforeOpen.text ++ ('(' : UInt8) :: (paramsText c.params ++ after)
  have htext : c.text = c.before.text ++ (c.name ++ inside) := by
    simp [FuncCall.text, inside, after]
  have hafter : ∀ b ∈ after, strchr callSeparators b = true := by
    intro b hb
    rcases mem_append.mp hb with hb | hb
    · exact c.beforeClose.separators b hb
    · rcases mem_cons.mp hb with rfl | hb
      · decide
      · exact c.after.separators b hb
  have hname : skipped callSeparators c.text = c.name ++ inside := by
    rw [htext, skipped_append c.before.separators, skipped_word c.name_word.1 c.name_word.2]
  have hinside : skipped callSeparators (skipped callSeparators inside) =
      skipped callSeparators (paramsText c.params ++ after) := by
    have honce : skipped callSeparators inside =
        skipped callSeparators (paramsText c.params ++ after) := by
      rw [skipped_append c.beforeOpen.separators]
      exact dropWhile_cons_of_pos (by decide)
    rw [honce]
    exact (skipped_eq_iff _ _).mpr (skipped_head _ _)
  have hlength : 0 < c.text.length := by
    rw [htext]
    simp [inside]
  obtain ⟨done, hnext⟩ := goto_next [] hname c.name_word.1 c.name_word.2
    (c.beforeOpen.head_separator (by decide) _)
  have hfuel : c.params.length < c.text.length + 1 := by
    have := length_le_paramsText c.params
    simp [htext, inside]
    omega
  have hparams := funcCallLoop_params c.params done hafter hfuel hinside
  obtain ⟨o, ho, hperm⟩ := foldl_parserOnParam c.params shows_create rfl c.names_distinct
    (by simp [Store.empty])
  refine ⟨o, ?_, by simpa [Store.empty] using hperm⟩
  have hmore : (goto callSeparators [] c.text).hasMore = true := by
    rw [goto_hasMore, htext]
    simp [inside]
  have hsize : (goto callSeparators [] c.text).size = c.text.length := rfl
  rw [funcCallParse, if_pos hlength, init_eq h, funcCallParserParse, if_pos hmore]
  simp only [hnext, hsize, hparams, map_some, bind_some, ho]

/-- The object of a call has the pairs of the call exactly if no value starts with a separator. -/
theorem funcCallParse_iff (c : FuncCall) (h : c.text.length < 2 ^ 32) :
    (∃ o, funcCallParse c.text c.text.length = some ⟨some c.name, o⟩ ∧
        o.props.Perm (c.params.map fun p => p.prop p.value)) ↔
      ∀ p ∈ c.params, ∀ b ∈ p.value.head?, strchr callSeparators b = false := by
  obtain ⟨o, ho, hperm⟩ := funcCallParse_text c h
  constructor
  · rintro ⟨o', ho', hperm'⟩ p hp
    rw [ho, some.injEq, NamedObject.mk.injEq] at ho'
    rw [← ho'.2] at hperm'
    -- the pair that was read for `p` is the pair of a parameter with its name
    have hmem : p.prop p.read ∈ c.params.map fun p => p.prop p.value :=
      hperm'.subset (hperm.symm.subset (List.mem_map_of_mem hp))
    obtain ⟨q, hq, heq⟩ := List.mem_map.mp hmem
    rw [CallParam.prop, CallParam.prop, NamedValue.mk.injEq, some.injEq] at heq
    have hsame : q = p := inj_on_of_nodup_map c.names_distinct hq hp heq.1
    exact (skipped_eq_iff _ _).mp (hsame ▸ heq.2.symm)
  · intro hvalues
    refine ⟨o, ho, ?_⟩
    rwa [map_congr_left fun p hp => by
      rw [CallParam.read, (skipped_eq_iff _ _).mpr (hvalues p hp)]] at hperm

/-- No white space. -/
def Blanks.none : Blanks := ⟨[], by simp⟩

/-- The call `move(x="v")` with a value. -/
def moveCall (value : Str) (h : ∀ c ∈ value, c ≠ 0 ∧ c ≠ ('"' : UInt8)) : FuncCall where
  name := ['m', 'o', 'v', 'e']
  params := [{
    name := ⟨['x'], by decide⟩, value
    beforeName := .none, beforeEquals := .none, beforeValue := .none, afterValue := .none
    name_word := ⟨by simp, by decide⟩
    name_short := by decide
    value_plain := h }]
  before := .none
  beforeOpen := .none
  beforeClose := .none
  after := .none
  name_word := ⟨by simp, by decide⟩
  names_distinct := by simp

/-- A value that ends with separators. -/
theorem funcCallParse_one : (∃ o, funcCallParse (moveCall ['1', ' ', ','] (by decide)).text
        (moveCall ['1', ' ', ','] (by decide)).text.length =
      some ⟨some (moveCall ['1', ' ', ','] (by decide)).name, o⟩ ∧
      o.props.Perm ((moveCall ['1', ' ', ','] (by decide)).params.map fun p => p.prop p.value)) ↔
    ∀ p ∈ (moveCall ['1', ' ', ','] (by decide)).params, ∀ b ∈ p.value.head?,
      strchr callSeparators b = false :=
  funcCallParse_iff (moveCall ['1', ' ', ','] (by decide)) (by decide +kernel)

/-- The space that a value starts with is lost: the property of `move(x=" 1")` is `1`. -/
theorem funcCallParse_space :
    (funcCallParse (moveCall [' ', '1'] (by decide)).text
        (moveCall [' ', '1'] (by decide)).text.length).map
        (fun o => o.props.props.map NamedValue.value) = some [some [('1' : UInt8)]] ∧
      ¬ ∃ o, funcCallParse (moveCall [' ', '1'] (by decide)).text
          (moveCall [' ', '1'] (by decide)).text.length =
        some ⟨some (moveCall [' ', '1'] (by decide)).name, o⟩ ∧
        o.props.Perm ((moveCall [' ', '1'] (by decide)).params.map fun p => p.prop p.value) := by
  have hvalue : (funcCallParse (moveCall [' ', '1'] (by decide)).text
        (moveCall [' ', '1'] (by decide)).text.length).map
        (fun o => o.props.props.map NamedValue.value) = some [some [('1' : UInt8)]] := by decide +kernel
  refine ⟨hvalue, ?_⟩
  rintro ⟨o, ho, hperm⟩
  rw [ho, map_some, some.injEq] at hvalue
  have hread := hperm.map NamedValue.value
  rw [hvalue] at hread
  have hcontra : ([some [('1' : UInt8)]] : List (Option Str)) =
      [some [(' ' : UInt8), ('1' : UInt8)]] := perm_singleton.mp hread
  revert hcontra
  decide

end Awtk
