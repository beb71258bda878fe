import Mathlib
import Awtk.Tkc.Url

/-!
# How URLs are read

What each state of the parser does with the text up to the end of its part.  Between the schema and the path
the parser goes back and forth between `STATE_HOST` and `STATE_PORT`: an `Authority` is what it has found
there, and `read` is what it finds next.
-/

namespace Awtk.Url

open Scan List Option

/-! ## Words -/

/-- What ends a part. -/
def stops (state : UrlState) (c : UInt8) : Bool :=
  match state with
  | .start => true
  | .schema => isSchemaEnd c
  | .host => isHostEnd c
  | .port => isPortEnd c
  | .path => c = '?'
  | .key => c = '='
  | .value => c = '&'

variable {state : UrlState} {c : UInt8} {p w s t X : Str} {u : Url}

theorem turn_next {m : Scan} (h : stops m.state c = false) : m.turn (c :: p) = some (m.next (c :: p)) := by
  have hgo : ¬ (c :: p).head?.all (stops m.state) = true := by
    rw [head?_cons, all_some, h]
    exact Bool.false_ne_true
  cases m with
  | mk state skip word str url =>
    cases state with
    | start => cases h
    | schema => exact if_neg hgo
    | port => exact if_neg hgo
    | _ => exact congrArg some (if_neg hgo)

theorem turn_str {m : Scan} (hstart : m.state ≠ .start) (hvalue : m.state ≠ .value)
    (h : p.head?.all (stops m.state) = true) : ({ m with str := s } : Scan).turn p = m.turn p := by
  cases m with
  | mk state skip word str url =>
    cases state with
    | start => exact absurd rfl hstart
    | value => exact absurd rfl hvalue
    | schema => exact (if_pos h).trans (if_pos h).symm
    | port => exact (if_pos h).trans (if_pos h).symm
    | _ => exact congrArg some ((if_pos h).trans (if_pos h).symm)

theorem loop_word (v : Str) (h : ∀ c ∈ v, stops state c = false) :
    loop (v ++ p) ⟨state, 0, w, s, u⟩ = loop p ⟨state, 0, w ++ v, s, u⟩ := by
  induction v generalizing w with
  | nil => rw [nil_append, append_nil]
  | cons c v ih =>
    obtain ⟨hc, hv⟩ := forall_mem_cons.mp h
    rw [cons_append, loop, if_pos rfl, turn_next hc, bind_some]
    exact (ih hv).trans (by rw [append_assoc]; rfl)

theorem loop_str (s' : Str) (hstart : state ≠ .start) (hvalue : state ≠ .value) :
    loop t ⟨state, 0, w, s, u⟩ = loop t ⟨state, 0, w, s', u⟩ := by
  induction t generalizing w with
  | nil =>
    have hsame := turn_str (m := ⟨state, 0, w, s', u⟩) (p := []) (s := s) hstart hvalue rfl
    exact congrArg (Option.map Scan.url) hsame
  | cons c t ih =>
    cases hc : stops state c with
    | true =>
      have hsame := turn_str (m := ⟨state, 0, w, s', u⟩) (p := c :: t) (s := s) hstart hvalue hc
      exact congrArg (·.bind (loop t)) hsame
    | false =>
      have hword := fun s => loop_word (p := t) (w := w) (s := s) (u := u) [c]
        (forall_mem_singleton.mpr hc)
      exact (hword s).trans (ih.trans (hword s').symm)

/-! ## Paths and what follows them -/

/-- What does not end a path. -/
def inPath (c : UInt8) : Bool := !stops .path c

/-- The text behind a path, which begins with its `?` if there is one. -/
def readQuery (u : Url) : Str → Option Url
  | [] => some u
  | _ :: q => loop q ⟨.key, 0, [], [], u⟩

theorem dropWhile_cases (f : UInt8 → Bool) (t : Str) :
    t.dropWhile f = [] ∨ ∃ c r, t.dropWhile f = c :: r ∧ f c = false := by
  cases h : t.dropWhile f with
  | nil => exact .inl rfl
  | cons c r =>
    have hc := head_dropWhile_not f (l := t) (by rw [h]; exact cons_ne_nil c r)
    simp only [h, head_cons] at hc
    exact .inr ⟨c, r, rfl, hc⟩

theorem stops_of_mem {c : UInt8} (hc : c ∈ t.takeWhile fun c => !stops state c) : stops state c = false := by
  simpa using mem_takeWhile_imp hc

theorem loop_path : loop t ⟨.path, 0, w, s, u⟩ =
    readQuery { u with path := some (w ++ t.takeWhile inPath) } (t.dropWhile inPath) := by
  have hword : ∀ c ∈ t.takeWhile inPath, stops .path c = false := fun c hc => stops_of_mem hc
  conv_lhs => rw [← takeWhile_append_dropWhile (p := inPath) (l := t), loop_word _ hword]
  rcases dropWhile_cases inPath t with hnil | ⟨c, r, hcons, hc⟩
  · rw [hnil]
    rfl
  · have hc : c = '?' := by simpa [inPath, stops] using hc
    rw [hcons, hc]
    exact loop_str [] (show UrlState.key ≠ .start by decide) (by decide)

/-! ## Schemas -/

theorem loop_blanks (s : Str) : loop s ⟨.start, 0, [], [], u⟩ =
    loop (s.dropWhile isSpace) ⟨.start, 0, [], [], u⟩ := by
  induction s with
  | nil => rfl
  | cons c s ih =>
    cases hc : isSpace c with
    | true =>
      have hturn : Scan.start ⟨.start, 0, [], [], u⟩ (c :: s) = ⟨.start, 0, [], [], u⟩ := if_pos hc
      rw [dropWhile_cons_of_pos hc, ← ih, loop, if_pos rfl, turn, hturn, bind_some]
    | false => rw [dropWhile_cons_of_neg (by rw [hc]; exact Bool.false_ne_true)]

theorem loop_start (hc : isSpace c = false) : loop (c :: t) ⟨.start, 0, [], [], u⟩ =
    if isFilePath (c :: t) = true then loop t ⟨.path, 0, [c], [], { u with schema := some strFile }⟩
    else loop t ⟨.schema, 0, [c], [], u⟩ := by
  have hgo : ¬ (c :: t).head?.any isSpace = true := by
    rw [head?_cons, any_some, hc]
    exact Bool.false_ne_true
  rw [loop, if_pos rfl]
  dsimp only [turn, start]
  rw [if_neg hgo]
  split_ifs
  · rfl
  · rfl

/-- A host without a schema. -/
def bare (host : Str) : Url := { schema := some strSchemaDefault, port := 80, host := some host }

theorem loop_schema_query :
    loop ('?' :: t) ⟨.schema, 0, w, s, {}⟩ = readQuery (bare w) ('?' :: t) :=
  loop_str [] (show UrlState.key ≠ .start by decide) (by decide)

theorem loop_schema_path : loop ('/' :: t) ⟨.schema, 0, w, s, {}⟩ =
    readQuery { bare w with path := some (t.takeWhile inPath) } (t.dropWhile inPath) :=
  loop_path

theorem loop_schema_file : loop (':' :: '/' :: '/' :: t) ⟨.schema, 0, strFile, s, {}⟩ =
    readQuery { schema := some strFile, path := some (t.takeWhile inPath) } (t.dropWhile inPath) :=
  loop_path

/-- Two slashes stand in front. -/
def hasSlashes (t : Str) : Bool := (['/', '/'] : Str).isPrefixOf t

/-- A slash or a backslash stands in front. -/
def hasSep (t : Str) : Bool := (['/'] : Str).isPrefixOf t || (['\\'] : Str).isPrefixOf t

theorem hasSlashes_eq (h : hasSlashes t = true) : ∃ r : Str, t = ('/' : UInt8) :: ('/' : UInt8) :: r := by
  obtain ⟨r, rfl⟩ := isPrefixOf_iff_prefix.mp h
  exact ⟨r, rfl⟩

theorem loop_schema_drive (hslashes : hasSlashes t = false) (hsep : hasSep t = true) :
    loop (':' :: t) ⟨.schema, 0, w, s, {}⟩ =
      if w.length = 1 then
        readQuery { schema := some strFile, path := some (w ++ (':' : UInt8) :: t.takeWhile inPath) }
          (t.dropWhile inPath)
      else none := by
  have hturn : Scan.schema ⟨.schema, 0, w, s, {}⟩ (':' :: t) =
      if w.length = 1 then some ⟨.path, 0, w ++ [(':' : UInt8)], w, { schema := some strFile }⟩ else none := by
    have hend : schemaEnd ⟨.schema, 0, w, w, {}⟩ (':' :: t) =
        if w.length = 1 then some ⟨.path, 0, w ++ [(':' : UInt8)], w, { schema := some strFile }⟩ else none := by
      rw [schemaEnd]
      exact (if_neg (Bool.eq_false_iff.mp hslashes)).trans (if_pos hsep)
    refine (if_pos rfl).trans ((congrArg _ hend).trans ?_)
    split_ifs <;> rfl
  rw [loop, if_pos rfl, turn]
  dsimp only
  rw [hturn]
  split_ifs
  · exact loop_path.trans (by rw [append_assoc]; rfl)
  · rfl

/-! ## Authorities -/

/-- What is known of an authority: its user with a password, its host if a port follows, and the text of
the part that is not over. -/
structure Authority where
  user : Option (Str × Str) := none
  host : Option Str := none
  word : Str := []

namespace Authority

/-- A host ends at a colon, and with the text of the port it is a user if an `@` is there. -/
def step (a : Authority) (c : UInt8) : Authority :=
  match a.host with
  | none => if c = ':' then { a with host := some a.word, word := [] } else { a with word := a.word ++ [c] }
  | some h =>
    if c = '@' then ⟨some (h, a.word), none, []⟩ else { a with word := a.word ++ [c] }

@[simp] theorem step_host (user : Option (Str × Str)) (w : Str) (c : UInt8) :
    step ⟨user, none, w⟩ c = if c = ':' then ⟨user, some w, []⟩ else ⟨user, none, w ++ [c]⟩ := rfl

@[simp] theorem step_port (user : Option (Str × Str)) (h w : Str) (c : UInt8) :
    step ⟨user, some h, w⟩ c = if c = '@' then ⟨some (h, w), none, []⟩ else ⟨user, some h, w ++ [c]⟩ := rfl

/-- A text without slashes and question marks is read. -/
def read (a : Authority) (t : Str) : Authority := t.foldl step a

/-- The host, when the text is over. -/
def name (a : Authority) : Str := a.host.getD a.word

/-- The port, when the text is over. -/
def port (a : Authority) : Int := if a.host.isSome then tkAtoi a.word else 0

/-- The parser, in front of what follows. -/
def scan (a : Authority) (schema : Str) : Scan where
  state := if a.host.isSome then .port else .host
  skip := 0
  word := a.word
  str := []
  url := { schema := some schema, userName := a.user.map Prod.fst, password := a.user.map Prod.snd, host := a.host }

/-- The path behind the authority.  Only a host leaves the slash to it. -/
def path (a : Authority) : Str → Option Str
  | [] => none
  | c :: t =>
    if c = '/' then some ((if a.host.isSome then [] else [c]) ++ t.takeWhile inPath) else none

/-- The URL of the authority, with what follows it. -/
def url (a : Authority) (schema t : Str) : Url where
  schema := some schema
  userName := a.user.map Prod.fst
  password := a.user.map Prod.snd
  host := some a.name
  port := a.port
  path := a.path t

end Authority

theorem loop_schema_authority (h : X ≠ strFile) :
    loop (':' :: '/' :: '/' :: t) ⟨.schema, 0, X, s, {}⟩ = loop t (Authority.scan {} X) := by
  have hfile : ¬ some X = some strFile := fun heq => h (some.inj heq)
  have hstr := loop_str (t := t) (w := []) (s := X) (u := { schema := some X }) []
    (show UrlState.host ≠ .start by decide) (by decide)
  have hturn : Scan.schema ⟨.schema, 0, X, s, {}⟩ (':' :: '/' :: '/' :: t) =
      some ⟨.host, 2, [], X, { schema := some X }⟩ :=
    (if_pos rfl).trans (congrArg some (if_neg hfile))
  rw [loop, if_pos rfl, turn]
  dsimp only
  rw [hturn]
  exact hstr

theorem loop_schema_port (hslashes : hasSlashes t = false) (hsep : hasSep t = false) :
    loop (':' :: t) ⟨.schema, 0, w, s, {}⟩ = loop t (Authority.scan ⟨none, some w, []⟩ strSchemaDefault) := by
  have hturn : Scan.schema ⟨.schema, 0, w, s, {}⟩ (':' :: t) =
      some ⟨.port, 0, [], w, { schema := some strSchemaDefault, host := some w }⟩ := by
    have hend : schemaEnd ⟨.schema, 0, w, w, {}⟩ (':' :: t) =
        some ⟨.port, 0, [], w, { schema := some strSchemaDefault, host := some w }⟩ := by
      rw [schemaEnd]
      exact (if_neg (Bool.eq_false_iff.mp hslashes)).trans
        ((if_neg (Bool.eq_false_iff.mp hsep)).trans (if_pos rfl))
    exact (if_pos rfl).trans (congrArg _ hend)
  rw [loop, if_pos rfl, turn]
  dsimp only
  rw [hturn]
  exact loop_str [] (show UrlState.port ≠ .start by decide) (by decide)

/-- What does not end an authority. -/
def inAuthority (c : UInt8) : Bool := c ≠ '/' && c ≠ '?'

theorem loop_step (a : Authority) (hc : inAuthority c = true) :
    loop (c :: t) (a.scan X) = loop t ((a.step c).scan X) := by
  obtain ⟨hslash, hquestion⟩ : c ≠ '/' ∧ c ≠ '?' := by simpa [inAuthority] using hc
  obtain ⟨user, host, word⟩ := a
  cases host with
  | none =>
    by_cases hcolon : c = ':'
    · rw [Authority.step_host, if_pos hcolon, hcolon]
      exact loop_str [] (show UrlState.port ≠ .start by decide) (by decide)
    · have hstops : stops .host c = false := by simp [stops, isHostEnd, hcolon, hslash, hquestion]
      rw [Authority.step_host, if_neg hcolon]
      exact loop_word [c] (forall_mem_singleton.mpr hstops)
  | some h =>
    by_cases hat : c = '@'
    · rw [Authority.step_port, if_pos hat, hat]
      exact loop_str [] (show UrlState.host ≠ .start by decide) (by decide)
    · have hstops : stops .port c = false := by simp [stops, isPortEnd, hat, hslash, hquestion]
      rw [Authority.step_port, if_neg hat]
      exact loop_word [c] (forall_mem_singleton.mpr hstops)

theorem loop_read (a : Authority) (A : Str) (hA : ∀ c ∈ A, inAuthority c = true) :
    loop (A ++ t) (a.scan X) = loop t ((a.read A).scan X) := by
  induction A generalizing a with
  | nil => rfl
  | cons c A ih =>
    obtain ⟨hc, hA⟩ := forall_mem_cons.mp hA
    exact (loop_step a hc).trans (ih (a.step c) hA)

theorem loop_after (a : Authority) (ht : t = [] ∨ ∃ c r, t = c :: r ∧ inAuthority c = false) :
    loop t (a.scan X) = readQuery (a.url X t) (t.dropWhile inPath) := by
  obtain ⟨user, host, word⟩ := a
  rcases ht with rfl | ⟨c, r, rfl, hc⟩
  · cases host <;> rfl
  · have hc : c = '/' ∨ c = '?' := by simpa [inAuthority, ← or_iff_not_imp_left] using hc
    have hstr := fun u s => loop_str (t := r) (w := []) (s := s) (u := u) []
      (show UrlState.key ≠ .start by decide) (by decide)
    rcases hc with rfl | rfl
    · cases host with
      | none => exact loop_path
      | some h => exact loop_path
    · cases host with
      | none => exact hstr _ word
      | some h => exact hstr _ word

theorem loop_authority (a : Authority) : loop t (a.scan X) =
    readQuery ((a.read (t.takeWhile inAuthority)).url X (t.dropWhile inAuthority))
      ((t.dropWhile inAuthority).dropWhile inPath) := by
  have hread := loop_read (X := X) (t := t.dropWhile inAuthority) a (t.takeWhile inAuthority)
    fun c hc => mem_takeWhile_imp hc
  rw [takeWhile_append_dropWhile] at hread
  exact hread.trans (loop_after _ (dropWhile_cases inAuthority t))

end Awtk.Url
