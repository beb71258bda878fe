import Awtk.Tkc.UrlParams

/-!
# Printed URLs

A URL that is printed is a text again, and this text can be read in another way.  `keeps` says of a text that
its URL is read back from what is printed: the names in front of the path have no delimiter in them, and
the path has kept its slash, which it loses behind a port and behind a host without a schema.
-/

namespace Awtk.Url

open Scan List Option

set_option maxRecDepth 2048

/-! ## Texts that are kept -/

/-- No character ends a host. -/
def free (n : Str) : Bool := n.all fun c => !isHostEnd c

/-- The authority is read back, and so is the path behind it. -/
def Authority.keeps (a : Authority) (t : Str) : Bool :=
  free a.name && a.user.all (fun user => free user.1) &&
    (t.head? ≠ some ('/' : UInt8) || a.host.isNone || (tkAtoi a.word = 0 && t[1]? = some ('/' : UInt8)))

/-- The text behind a part of an authority is kept. -/
def keepsAfter (a : Authority) (t : Str) : Bool :=
  (a.read (t.takeWhile inAuthority)).keeps (t.dropWhile inAuthority)

/-- The text is kept that has a schema, or a host without one, in front. -/
def keepsBehind (w : Str) : Str → Bool
  | [] => free w
  | d :: r =>
    if d = '?' then free w
    else if d = '/' then false
    else if hasSlashes r then w = strFile || keepsAfter {} (r.drop 2)
    else if hasSep r then w.head? ≠ some ('?' : UInt8)
    else keepsAfter ⟨none, some w, []⟩ r

/-- The URL of the text is read back from what is printed of it. -/
def keeps (s : Str) : Bool :=
  match s.dropWhile isSpace with
  | [] => true
  | c :: t =>
    isFilePath (c :: t) ||
      keepsBehind (c :: t.takeWhile fun c => !isSchemaEnd c) (t.dropWhile fun c => !isSchemaEnd c)

/-- Two URLs have the same parts.  Whether the port was in the text is none of them. -/
structure SameParts (u u' : Url) : Prop where
  schema : u'.schema = u.schema
  userName : u'.userName = u.userName
  password : u'.password = u.password
  host : u'.host = u.host
  port : u'.port = u.port
  path : u'.path = u.path
  params : u'.params = u.params

/-! ## Ports -/

variable {u : Url} {X host t s w : Str} {user : Option (Str × Str)} {c : UInt8}

/-- The port is printed. -/
def printsPort (u : Url) : Bool := u.port ≠ 0 && !u.fixedPort

theorem fix_eq (u : Url) : ∃ port fixedPort, fix u = { u with port, fixedPort } := by
  rw [fix]
  split_ifs <;> exact ⟨_, _, rfl⟩

theorem fix_of_port (h : u.port ≠ 0) : fix u = u := if_neg h

theorem fix_port (h : u.port = 0) : (fix u).port = (fix { schema := u.schema }).port := by
  rw [fix, if_pos h, fix, if_pos rfl]
  dsimp only
  split_ifs <;> first | rfl | exact h

theorem fix_printsPort (h : u.fixedPort = false) : (fix u).printsPort = decide (u.port ≠ 0) := by
  by_cases hport : u.port = 0
  · rw [fix, if_pos hport]
    split_ifs <;> simp [printsPort, hport]
  · rw [fix_of_port hport, printsPort, h]
    simp

/-! ## URLs with a host -/

/-- A text that is read as a schema. -/
def IsSchema (X : Str) : Prop :=
  X ≠ strFile ∧ ∃ c w, X = c :: w ∧ isSpace c = false ∧ isFilePath X = false ∧ ∀ d ∈ w, isSchemaEnd d = false

/-- What holds of a URL with a host that has been read. -/
structure Web (u : Url) (X : Str) (user : Option (Str × Str)) (host : Str) : Prop where
  schema : u.schema = some X
  isSchema : IsSchema X
  userName : u.userName = user.map Prod.fst
  password : u.password = user.map Prod.snd
  passwordText : ∀ p ∈ user, ∀ c ∈ p.2, isPortEnd c = false
  host : u.host = some host
  portLow : -2 ^ 31 ≤ u.port
  portHigh : u.port < 2 ^ 31
  portUnprinted : u.printsPort = false → (fix { schema := some X }).port = u.port
  path : ∀ P, u.path = some P → ('?' : UInt8) ∉ P
  params : SoundParams u.params

/-- The URL is read back from what is printed of it. -/
def Web.Kept (u : Url) (user : Option (Str × Str)) (host : Str) : Prop :=
  free host = true ∧ user.all (fun user => free user.1) = true ∧
    ∀ P, u.path = some P → u.printsPort = false ∧ P.head? = some ('/' : UInt8)

theorem isSchema_default : IsSchema strSchemaDefault :=
  ⟨by decide, 'h', ['t', 't', 'p'], rfl, by decide, by decide, by decide⟩

/-- What is printed of the user. -/
def userText (user : Option (Str × Str)) : Str :=
  match user with
  | some (name, password) => name ++ (':' : UInt8) :: (password ++ [('@' : UInt8)])
  | none => []

/-- What is printed of the port. -/
def portText (u : Url) : Str := if u.printsPort then ':' :: decimalInt u.port else []

theorem onVisitParam_append (s : Str) (h : t ≠ []) (nv : UrlParam) :
    onVisitParam (s ++ t) nv = s ++ onVisitParam t nv := by
  rw [onVisitParam, onVisitParam, getLast?_append_of_ne_nil s h]
  split_ifs <;> simp

theorem foldl_onVisitParam_append (s : Str) (ps : List UrlParam) : ∀ {t : Str}, t ≠ [] →
    ps.foldl onVisitParam (s ++ t) = s ++ ps.foldl onVisitParam t := by
  induction ps with
  | nil => exact fun _ => rfl
  | cons nv ps ih =>
    intro t h
    have hne : onVisitParam t nv ≠ [] := by simp [onVisitParam]
    rw [foldl_cons, foldl_cons, onVisitParam_append s h, ih hne]

theorem appendParams_eq (u : Url) (str : Str) : u.appendParams str = str ++ queryText u.params := by
  rw [appendParams]
  cases u.params with
  | none => exact (append_nil str).symm
  | some ps => exact foldl_onVisitParam_append str ps (cons_ne_nil _ _)

theorem appendPath_eq (u : Url) (str : Str) : u.appendPath str = str ++ u.path.getD [] := by
  rw [appendPath]
  cases u.path with
  | none => exact (append_nil str).symm
  | some path => rfl

theorem Web.toString (h : Web u X user host) : u.toString = X ++ (':' : UInt8) :: '/' :: '/' ::
    (userText user ++ host ++ u.portText ++ (u.path.getD [] ++ queryText u.params)) := by
  have hhost : ∀ str, u.appendHost str = str ++ (host ++ u.portText) := by
    intro str
    rw [appendHost, h.host, portText, printsPort]
    by_cases hport : u.port = 0 <;> cases hfixed : u.fixedPort <;> simp [hport]
  have huser : ∀ str, u.appendUser str = str ++ userText user := by
    intro str
    have hpassword := h.password
    rw [appendUser, h.userName]
    cases user with
    | none => exact (append_nil str).symm
    | some p =>
      rw [map_some] at hpassword
      simp [appendPassword, hpassword, userText]
  rw [Url.toString, appendParams_eq, appendPath_eq, hhost, huser, appendSchema, h.schema]
  simp

/-! ## What is printed is read -/

theorem isFilePath_cons (c : UInt8) (t : Str) : isFilePath (c :: t) = true ↔
    c = '/' ∨ c = '\\' ∨ c = '.' ∧ (t.head? = some ('/' : UInt8) ∨ t.head? = some ('\\' : UInt8)) := by
  cases t with
  | nil => simp [isFilePath]
  | cons d t =>
    have hc (x : UInt8) : x = c ↔ c = x := eq_comm
    have hd (x : UInt8) : x = d ↔ d = x := eq_comm
    simp only [isFilePath, List.isPrefixOf, head?_cons, some.injEq, Bool.or_eq_true, Bool.and_true,
      Bool.and_eq_true, decide_eq_true_eq, beq_iff_eq, hc, hd]
    tauto

theorem isFilePath_colon (c : UInt8) (w r : Str) :
    isFilePath (c :: (w ++ (':' : UInt8) :: r)) = isFilePath (c :: w) := by
  rw [Bool.eq_iff_iff, isFilePath_cons, isFilePath_cons]
  cases w with
  | nil =>
    have hslash : (':' : UInt8) ≠ '/' := by decide
    have hback : (':' : UInt8) ≠ '\\' := by decide
    simp [hslash, hback]
  | cons d w => rfl

theorem loop_printed (h : IsSchema X) :
    loop (X ++ (':' : UInt8) :: '/' :: '/' :: t) ⟨.start, 0, [], [], {}⟩ = loop t (Authority.scan {} X) := by
  obtain ⟨hfile, c, w, rfl, hc, hpath, hw⟩ := h
  have hword := loop_word (p := ':' :: '/' :: '/' :: t) (w := [c]) (s := []) (u := {}) w
    (show ∀ d ∈ w, stops .schema d = false from hw)
  rw [cons_append, loop_start hc, isFilePath_colon, hpath, if_neg Bool.false_ne_true]
  exact hword.trans (loop_schema_authority hfile)

namespace Authority

variable {a : Authority} {v : Str}

theorem read_append (a : Authority) (s t : Str) : a.read (s ++ t) = (a.read s).read t := foldl_append

theorem read_host (v : Str) (h : ∀ c ∈ w, c ≠ ':') : read ⟨user, none, v⟩ w = ⟨user, none, v ++ w⟩ := by
  induction w generalizing v with
  | nil => rw [append_nil]; rfl
  | cons c w ih =>
    obtain ⟨hc, hw⟩ := forall_mem_cons.mp h
    rw [read, foldl_cons, step_host, if_neg hc, ← read, ih _ hw, append_assoc, singleton_append]

theorem read_port (v : Str) (h : ∀ c ∈ w, c ≠ '@') : read ⟨user, some host, v⟩ w = ⟨user, some host, v ++ w⟩ := by
  induction w generalizing v with
  | nil => rw [append_nil]; rfl
  | cons c w ih =>
    obtain ⟨hc, hw⟩ := forall_mem_cons.mp h
    rw [read, foldl_cons, step_port, if_neg hc, ← read, ih _ hw, append_assoc, singleton_append]

/-- What holds of the passwords in an authority. -/
structure Fine (a : Authority) : Prop where
  password : ∀ p ∈ a.user, ∀ c ∈ p.2, isPortEnd c = false
  word : a.host.isSome = true → ∀ c ∈ a.word, isPortEnd c = false

/-- The names in an authority have no delimiter. -/
structure Free (a : Authority) : Prop where
  user : a.user.all (fun user => free user.1) = true
  host : ∀ h ∈ a.host, free h = true
  word : a.host = none → free a.word = true

theorem Free.name (h : Free a) : free a.name = true := by
  rw [Authority.name]
  cases hhost : a.host with
  | none => exact h.word hhost
  | some host => exact h.host host hhost

theorem Fine.step (h : Fine a) (hc : inAuthority c = true) : Fine (a.step c) := by
  obtain ⟨user, host, word⟩ := a
  cases host with
  | none =>
    rw [step_host]
    split_ifs
    · exact ⟨h.password, fun _ _ hd => absurd hd not_mem_nil⟩
    · exact ⟨h.password, fun hsome => absurd hsome Bool.false_ne_true⟩
  | some host =>
    have hword := h.word rfl
    rw [step_port]
    split_ifs with hat
    · exact ⟨fun p hp => mem_some.mp hp ▸ hword, fun hsome => absurd hsome Bool.false_ne_true⟩
    · have hend : isPortEnd c = false := by
        simpa [isPortEnd, hat, inAuthority, and_comm] using hc
      exact ⟨h.password, fun _ => forall_mem_append.mpr ⟨hword, forall_mem_singleton.mpr hend⟩⟩

theorem Free.step (h : Free a) (hc : inAuthority c = true) : Free (a.step c) := by
  obtain ⟨user, host, word⟩ := a
  cases host with
  | none =>
    have hword := h.word rfl
    rw [step_host]
    split_ifs with hcolon
    · exact ⟨h.user, fun _ hh => mem_some.mp hh ▸ hword, fun hnone => absurd hnone (by simp)⟩
    · have hend : isHostEnd c = false := by
        simpa [isHostEnd, hcolon, inAuthority, and_comm] using hc
      refine ⟨h.user, fun _ hh => absurd hh (not_mem_none _), fun _ => ?_⟩
      rw [free, all_append, ← free, hword, all_cons, hend]
      rfl
  | some host =>
    have hhost := h.host host rfl
    rw [step_port]
    split_ifs with hat
    · exact ⟨hhost, fun _ hh => absurd hh (not_mem_none _), fun _ => rfl⟩
    · exact ⟨h.user, h.host, fun hnone => absurd hnone (by simp)⟩

theorem read_keeps {P : Authority → Prop} (hstep : ∀ {a c}, P a → inAuthority c = true → P (a.step c)) (h : P a)
    (ht : ∀ c ∈ t, inAuthority c = true) : P (a.read t) := by
  induction t generalizing a with
  | nil => exact h
  | cons c t ih =>
    obtain ⟨hc, ht⟩ := forall_mem_cons.mp ht
    exact ih (hstep h hc) ht

end Authority

theorem inAuthority_of_free (h : free w = true) : ∀ c ∈ w, inAuthority c = true := by
  intro c hc
  have hfree := List.all_eq_true.mp h c hc
  simp [isHostEnd] at hfree
  simp [inAuthority, hfree]

theorem inAuthority_of_port (h : isPortEnd c = false) : inAuthority c = true := by
  simp [isPortEnd] at h
  simp [inAuthority, h]

theorem not_portEnd {n : Int} (h : c ∈ decimalInt n) : isPortEnd c = false := by
  have hdigit : ∀ k : Nat, c ∈ decimal k → isPortEnd c = false := fun k hk => by
    have hc := isDigit_of_mem_decimal hk
    simp [isPortEnd, ne_of_isDigit hc (show isDigit '@' = false by decide),
      ne_of_isDigit hc (show isDigit '?' = false by decide), ne_of_isDigit hc (show isDigit '/' = false by decide)]
  rw [decimalInt] at h
  split_ifs at h
  · rcases mem_cons.mp h with rfl | h
    · decide
    · exact hdigit _ h
  · exact hdigit _ h

section Printed

variable (h : Web u X user host) (hhost : free host = true)
  (huser : user.all (fun user => free user.1) = true)

include h hhost huser

theorem Web.printed : ∀ c ∈ userText user ++ host ++ u.portText, inAuthority c = true := by
  have hport : ∀ c ∈ u.portText, inAuthority c = true := by
    intro c hc
    rw [portText] at hc
    split_ifs at hc
    · rcases mem_cons.mp hc with rfl | hc
      · decide
      · exact inAuthority_of_port (not_portEnd hc)
    · exact absurd hc not_mem_nil
  have huser : ∀ c ∈ userText user, inAuthority c = true := by
    cases user with
    | none => exact fun _ hc => absurd hc not_mem_nil
    | some p =>
      have hpassword : ∀ c ∈ p.2, inAuthority c = true := fun c hc =>
        inAuthority_of_port (h.passwordText p rfl c hc)
      refine forall_mem_append.mpr ⟨inAuthority_of_free huser, forall_mem_cons.mpr ⟨by decide, ?_⟩⟩
      exact forall_mem_append.mpr ⟨hpassword, forall_mem_singleton.mpr (by decide)⟩
  exact forall_mem_append.mpr ⟨forall_mem_append.mpr ⟨huser, inAuthority_of_free hhost⟩, hport⟩

/-- The authority that is printed is read back. -/
theorem Web.read : Authority.read {} (userText user ++ host ++ u.portText) =
    if u.printsPort = true then ⟨user, some host, decimalInt u.port⟩ else ⟨user, none, host⟩ := by
  have hname : ∀ {n : Str}, free n = true → ∀ c ∈ n, c ≠ ':' := fun hn c hc hcolon => by
    have hend := List.all_eq_true.mp hn c hc
    rw [hcolon] at hend
    exact absurd hend (by decide)
  have hfirst : Authority.read {} (userText user) = ⟨user, none, []⟩ := by
    cases user with
    | none => rfl
    | some p =>
      have hat : ∀ c ∈ p.2, c ≠ '@' := fun c hc heq => by
        have hend := h.passwordText p rfl c hc
        rw [heq] at hend
        exact absurd hend (by decide)
      rw [userText, Authority.read_append, Authority.read_host [] (hname huser), ← singleton_append,
        Authority.read_append, Authority.read_append]
      change (Authority.read ⟨none, some p.1, []⟩ p.2).read [('@' : UInt8)] = _
      rw [Authority.read_port [] hat]
      rfl
  rw [append_assoc, Authority.read_append, hfirst, Authority.read_append, Authority.read_host [] (hname hhost), portText]
  split_ifs
  · refine Authority.read_port [] fun c hc heq => ?_
    have hend := not_portEnd hc
    rw [heq] at hend
    exact absurd hend (by decide)
  · rfl

end Printed

theorem Web.reparse (h : Web u X user host)
    (ht : userText user ++ host ++ u.portText ++ (u.path.getD [] ++ queryText u.params) = t) :
    create (some u.toString) =
      (readQuery ((Authority.read {} (t.takeWhile inAuthority)).url X (t.dropWhile inAuthority))
        ((t.dropWhile inAuthority).dropWhile inPath)).map fix := by
  rw [create, parse, h.toString, ht, loop_printed h.isSchema, loop_authority]

theorem queryText_cases (params : Option (List UrlParam)) :
    queryText params = [] ∨ ∃ q, queryText params = ('?' : UInt8) :: q := by
  cases params with
  | none => exact .inl rfl
  | some ps =>
    cases ps with
    | nil => exact .inr ⟨[], rfl⟩
    | cons nv ps =>
      have hfirst : onVisitParam [('?' : UInt8)] nv = [('?' : UInt8)] ++ (nv.1 ++ ('=' : UInt8) :: nv.2) := by
        simp [onVisitParam]
      refine .inr ⟨ps.foldl onVisitParam (nv.1 ++ ('=' : UInt8) :: nv.2), ?_⟩
      rw [queryText, foldl_cons, hfirst, foldl_onVisitParam_append _ ps (by simp)]
      rfl

theorem takeWhile_query {f : UInt8 → Bool} (hf : f '?' = false) (hw : ∀ c ∈ w, f c = true) (params : Option (List UrlParam)) :
    (w ++ queryText params).takeWhile f = w ∧ (w ++ queryText params).dropWhile f = queryText params := by
  rw [takeWhile_append_of_pos hw, dropWhile_append_of_pos hw]
  rcases queryText_cases params with hnil | ⟨q, hq⟩
  · rw [hnil]
    exact ⟨append_nil w, rfl⟩
  · rw [hq, takeWhile_cons_of_neg (by rw [hf]; exact Bool.false_ne_true),
      dropWhile_cons_of_neg (by rw [hf]; exact Bool.false_ne_true)]
    exact ⟨append_nil w, rfl⟩

theorem inPath_of_not_mem (h : ('?' : UInt8) ∉ w) : ∀ c ∈ w, inPath c = true := fun c hc => by
  have hne : c ≠ '?' := fun heq => h (heq ▸ hc)
  simp [inPath, stops, hne]

/-- A path that is read back has kept its slash, and no port is printed in front of it. -/
theorem Web.path_kept (h : Web u X user host) (hhost : free host = true)
    (huser : user.all (fun user => free user.1) = true) {P : Str} (hP : u.path = some P)
    (ht : userText user ++ host ++ u.portText ++ (P ++ queryText u.params) = t)
    (hread : (Authority.read {} (t.takeWhile inAuthority)).path (t.dropWhile inAuthority) = some P) :
    u.printsPort = false ∧ P.head? = some ('/' : UInt8) := by
  have hin := h.printed hhost huser
  have hquery : inAuthority '?' = false := by decide
  rw [← ht, takeWhile_append_of_pos hin, dropWhile_append_of_pos hin] at hread
  have hsplit := takeWhile_append_dropWhile (p := inAuthority) (l := P)
  rcases dropWhile_cases inAuthority P with hnil | ⟨c, r, hcons, hc⟩
  · -- without a slash the path is part of the host or of the port
    have hall : ∀ c ∈ P, inAuthority c = true := dropWhile_eq_nil_iff.mp hnil
    rw [(takeWhile_query hquery hall u.params).1, (takeWhile_query hquery hall u.params).2] at hread
    rcases queryText_cases u.params with hnil | ⟨q, hq⟩
    · rw [hnil] at hread
      cases hread
    · rw [hq] at hread
      cases hread
  · rw [hcons] at hsplit
    generalize hfirst : P.takeWhile inAuthority = first at hsplit
    have hall : ∀ c ∈ first, inAuthority c = true := fun c hc =>
      mem_takeWhile_imp (hfirst ▸ hc)
    have hmark : ('?' : UInt8) ∉ first ++ c :: r := hsplit ▸ h.path P hP
    have hslash : c = '/' := by
      have hmark : c ≠ '?' := fun heq => hmark (heq ▸ mem_append_right first mem_cons_self)
      simpa [inAuthority, hmark] using hc
    have hr : ∀ c ∈ r, inPath c = true :=
      inPath_of_not_mem fun hmem => hmark (mem_append_right first (mem_cons_of_mem c hmem))
    rw [← hsplit, append_assoc first, takeWhile_append_of_pos hall, dropWhile_append_of_pos hall,
      cons_append, takeWhile_cons_of_neg (by rw [hc]; exact Bool.false_ne_true),
      dropWhile_cons_of_neg (by rw [hc]; exact Bool.false_ne_true), append_nil, Authority.path,
      if_pos hslash, (takeWhile_query (show inPath '?' = false by decide) hr u.params).1] at hread
    have hread := some.inj hread
    split_ifs at hread with hport
    · have hlength := congrArg List.length hread
      simp only [nil_append, length_append, length_cons] at hlength
      omega
    · have hempty : first = [] := self_eq_append_left.mp hread
      rw [hempty, append_nil, h.read hhost huser] at hport
      rw [← hsplit, hempty, hslash]
      refine ⟨?_, rfl⟩
      cases hprints : u.printsPort with
      | false => rfl
      | true =>
        rw [hprints] at hport
        exact absurd rfl hport

theorem Web.kept (h : Web u X user host) {u' : Url} (hu' : create (some u.toString) = some u') (hsame : SameParts u u') : Web.Kept u user host := by
  generalize ht : userText user ++ host ++ u.portText ++ (u.path.getD [] ++ queryText u.params) = t
  rw [h.reparse ht] at hu'
  generalize hb : Authority.read {} (t.takeWhile inAuthority) = b at hu'
  have hfree : b.Free := by
    rw [← hb]
    exact Authority.read_keeps Authority.Free.step ⟨rfl, fun _ hh => (nomatch hh), fun _ => rfl⟩
      fun c hc => mem_takeWhile_imp hc
  have hnone : SoundParams (b.url X (t.dropWhile inAuthority)).params := fun _ hps => nomatch hps
  obtain ⟨params, hquery, -⟩ := readQuery_sound ((t.dropWhile inAuthority).dropWhile inPath) hnone
  rw [hquery, map_some] at hu'
  obtain ⟨port, fixedPort, hfix⟩ := fix_eq { b.url X (t.dropWhile inAuthority) with params }
  rw [hfix, some.injEq] at hu'
  have hhost : free host = true := by
    have heq := hsame.host
    rw [← hu', h.host] at heq
    rw [← some.inj heq]
    exact hfree.name
  have huser : user.all (fun user => free user.1) = true := by
    have heq := hsame.userName
    rw [← hu', h.userName] at heq
    have hall := hfree.user
    have hmap : ∀ o : Option (Str × Str), o.all (fun user => free user.1) = (o.map Prod.fst).all free := fun o => by
      cases o <;> rfl
    rw [hmap] at hall ⊢
    exact heq ▸ hall
  refine ⟨hhost, huser, fun P hP => h.path_kept (t := t) hhost huser hP (by rw [← ht, hP]; rfl) ?_⟩
  have heq := hsame.path
  rw [← hu', hP] at heq
  rw [hb]
  exact heq

/-- A URL is read back whose names and path are kept. -/
theorem Web.read_back (h : Web u X user host) (hkept : Web.Kept u user host)
    (hplain : ∀ ps, u.params = some ps → ∀ nv ∈ ps, Plain nv) :
    ∃ u', create (some u.toString) = some u' ∧ SameParts u u' := by
  obtain ⟨hhost, huser, hpath⟩ := hkept
  have hin := h.printed hhost huser
  have hreparse := h.reparse rfl
  -- what is printed behind the authority is the path and the parameters again
  have hpaths : ∀ c ∈ u.path.getD [], inPath c = true := by
    cases hP : u.path with
    | none => exact fun _ hc => absurd hc not_mem_nil
    | some P => exact inPath_of_not_mem (h.path P hP)
  have hquery := takeWhile_query (show inPath '?' = false by decide) hpaths u.params
  have hrest : (u.path.getD [] ++ queryText u.params).takeWhile inAuthority = [] ∧
      (u.path.getD [] ++ queryText u.params).dropWhile inAuthority = u.path.getD [] ++ queryText u.params := by
    cases hP : u.path with
    | none => exact takeWhile_query (by decide) (fun _ hc => absurd hc not_mem_nil) u.params
    | some P =>
      obtain ⟨r, rfl⟩ : ∃ r, P = ('/' : UInt8) :: r := head?_eq_some_iff.mp (hpath P hP).2
      have hslash : ¬ inAuthority '/' = true := by decide
      exact ⟨takeWhile_cons_of_neg hslash, dropWhile_cons_of_neg hslash⟩
  rw [takeWhile_append_of_pos hin, dropWhile_append_of_pos hin, hrest.1, hrest.2, append_nil,
    h.read hhost huser, hquery.2] at hreparse
  generalize hb : (if u.printsPort = true then ⟨user, some host, decimalInt u.port⟩ else ⟨user, none, host⟩ : Authority) = b at hreparse
  have hread := readQuery_printed (v := b.url X (u.path.getD [] ++ queryText u.params)) rfl h.params hplain
  rw [hread, map_some] at hreparse
  have hname : b.user = user ∧ b.name = host := by
    rw [← hb]
    split_ifs <;> exact ⟨rfl, rfl⟩
  have hpathRead : b.path (u.path.getD [] ++ queryText u.params) = u.path := by
    cases hP : u.path with
    | none =>
      rw [getD_none, nil_append]
      rcases queryText_cases u.params with hnil | ⟨q, hq⟩
      · rw [hnil]
        rfl
      · rw [hq]
        rfl
    | some P =>
      obtain ⟨hunprinted, hslash⟩ := hpath P hP
      obtain ⟨r, rfl⟩ := head?_eq_some_iff.mp hslash
      have hr : ∀ c ∈ r, inPath c = true := inPath_of_not_mem fun hmem =>
        h.path _ hP (mem_cons_of_mem _ hmem)
      rw [← hb, hunprinted, if_neg Bool.false_ne_true, getD_some, cons_append, Authority.path, if_pos rfl,
        (takeWhile_query (by decide) hr u.params).1]
      rfl
  have hport : (fix { b.url X (u.path.getD [] ++ queryText u.params) with params := u.params }).port = u.port := by
    cases hprints : u.printsPort with
    | false =>
      rw [hprints, if_neg Bool.false_ne_true] at hb
      rw [fix_port (by rw [← hb]; rfl)]
      exact h.portUnprinted hprints
    | true =>
      have hread : b.port = u.port := by
        rw [← hb, hprints, if_pos rfl]
        exact tkAtoi_decimalInt h.portLow h.portHigh
      have hne : u.port ≠ 0 := by
        rw [printsPort, Bool.and_eq_true, decide_eq_true_eq] at hprints
        exact hprints.1
      refine (congrArg Url.port (fix_of_port ?_)).trans hread
      intro hzero
      exact hne (hread.symm.trans hzero)
  refine ⟨_, hreparse, ?_⟩
  obtain ⟨port, fixedPort, hfix⟩ := fix_eq { b.url X (u.path.getD [] ++ queryText u.params) with params := u.params }
  rw [hfix] at hport ⊢
  refine ⟨h.schema.symm, ?_, ?_, ?_, hport, hpathRead, rfl⟩
  · exact (congrArg (Option.map Prod.fst) hname.1).trans h.userName.symm
  · exact (congrArg (Option.map Prod.snd) hname.1).trans h.password.symm
  · exact (congrArg some hname.2).trans h.host.symm

/-! ## Files -/

/-- What holds of the URL of a file that has been read. -/
structure File (u : Url) (P : Str) : Prop where
  url : u = { schema := some strFile, path := some P, params := u.params }
  path : ∀ c ∈ P.tail, inPath c = true
  params : SoundParams u.params

theorem File.toString {P : Str} (h : File u P) :
    u.toString = strFile ++ (':' : UInt8) :: '/' :: '/' :: (P ++ queryText u.params) := by
  rw [h.url, Url.toString, appendParams_eq, appendPath_eq]
  simp [appendHost, appendUser, appendSchema]

theorem File.reparse {P : Str} (h : File u P) : create (some u.toString) =
    (readQuery { schema := some strFile, path := some ((P ++ queryText u.params).takeWhile inPath) }
      ((P ++ queryText u.params).dropWhile inPath)).map fix := by
  rw [h.toString]
  exact congrArg (Option.map fix) loop_schema_file

theorem File.sameParts_iff {P : Str} (h : File u P) (hplain : ∀ ps, u.params = some ps → ∀ nv ∈ ps, Plain nv) :
    (∃ u', create (some u.toString) = some u' ∧ SameParts u u') ↔ P.head? ≠ some ('?' : UInt8) := by
  have hpath : u.path = some P := by rw [h.url]
  constructor
  · rintro ⟨u', hu', hsame⟩ hhead
    obtain ⟨r, rfl⟩ := head?_eq_some_iff.mp hhead
    obtain ⟨params, hquery, -⟩ := readQuery_sound
      (u := { schema := some strFile, path := some ((('?' : UInt8) :: r ++ queryText u.params).takeWhile inPath) })
      ((('?' : UInt8) :: r ++ queryText u.params).dropWhile inPath) fun _ hps => nomatch hps
    rw [h.reparse, hquery] at hu'
    have heq := hsame.path
    rw [← some.inj hu', hpath] at heq
    cases heq
  · intro hhead
    have hall : ∀ c ∈ P, inPath c = true := by
      cases P with
      | nil => exact fun _ hc => absurd hc not_mem_nil
      | cons c r =>
        have hc : c ≠ '?' := fun heq => hhead (congrArg some heq)
        exact forall_mem_cons.mpr ⟨by simp [inPath, stops, hc], h.path⟩
    have hquery := takeWhile_query (show inPath '?' = false by decide) hall u.params
    have hread := h.reparse
    rw [hquery.1, hquery.2, readQuery_printed rfl h.params hplain] at hread
    refine ⟨u, hread.trans (congrArg some ?_), ⟨rfl, rfl, rfl, rfl, rfl, rfl, rfl⟩⟩
    conv_rhs => rw [h.url]
    rfl

/-! ## The URLs of texts -/

theorem fix_range (hlow : -2 ^ 31 ≤ u.port) (hhigh : u.port < 2 ^ 31) :
    -2 ^ 31 ≤ (fix u).port ∧ (fix u).port < 2 ^ 31 := by
  rw [fix]
  split_ifs
  · exact (by decide : -2 ^ 31 ≤ (80 : Int) ∧ (80 : Int) < 2 ^ 31)
  · exact (by decide : -2 ^ 31 ≤ (443 : Int) ∧ (443 : Int) < 2 ^ 31)
  · exact (by decide : -2 ^ 31 ≤ (21 : Int) ∧ (21 : Int) < 2 ^ 31)
  · exact ⟨hlow, hhigh⟩
  · exact ⟨hlow, hhigh⟩

theorem Authority.port_range (a : Authority) : -2 ^ 31 ≤ a.port ∧ a.port < 2 ^ 31 := by
  rw [Authority.port]
  split_ifs
  · exact tkAtoi_range a.word
  · decide

theorem head_takeWhile (f : UInt8 → Bool) (hc : f c = true) : (t.takeWhile f).head? = some c ↔ t.head? = some c := by
  cases t with
  | nil => exact Iff.rfl
  | cons d t =>
    rw [takeWhile_cons]
    split_ifs with hd
    · exact Iff.rfl
    · constructor
      · exact fun h => nomatch h
      · intro h
        rw [some.inj h] at hd
        exact absurd hc hd

theorem Authority.path_keeps (a : Authority) (t : Str) :
    (t.head? ≠ some ('/' : UInt8) || a.host.isNone || (tkAtoi a.word = 0 && t[1]? = some ('/' : UInt8))) = true ↔
      ∀ P, a.path t = some P → a.port = 0 ∧ P.head? = some ('/' : UInt8) := by
  obtain ⟨user, host, word⟩ := a
  cases t with
  | nil => exact ⟨fun _ _ hP => (nomatch hP), fun _ => rfl⟩
  | cons c r =>
    by_cases hc : c = '/'
    · rw [hc]
      cases host with
      | none =>
        constructor
        · intro _ P hP
          cases hP
          exact ⟨rfl, rfl⟩
        · exact fun _ => rfl
      | some h =>
        have hhead := head_takeWhile (t := r) inPath (show inPath '/' = true by decide)
        simp only [head?_cons, ne_eq, not_true_eq_false, decide_false, isNone_some, Bool.false_or,
          Bool.and_eq_true, decide_eq_true_eq, getElem?_cons_succ, ← head?_eq_getElem?, ← hhead]
        constructor
        · intro hkeeps P hP
          cases hP
          exact hkeeps
        · exact fun h => h _ rfl
    · constructor
      · intro _ P hP
        rw [Authority.path, if_neg hc] at hP
        cases hP
      · intro _
        simp [hc]

theorem mark_not_mem (t : Str) : ('?' : UInt8) ∉ t.takeWhile inPath := fun h =>
  absurd (mem_takeWhile_imp h) (by decide)

theorem Authority.path_in (a : Authority) {P : Str} (hP : a.path t = some P) : ('?' : UInt8) ∉ P := by
  cases t with
  | nil => cases hP
  | cons c r =>
    by_cases hc : c = '/'
    · rw [Authority.path, if_pos hc, hc] at hP
      rw [← some.inj hP]
      split_ifs
      · exact mark_not_mem r
      · exact not_mem_cons_of_ne_of_not_mem (by decide) (mark_not_mem r)
    · rw [Authority.path, if_neg hc] at hP
      cases hP

theorem web_of_authority (hX : IsSchema X) {a : Authority} (ha : a.Fine)
    (hu : (readQuery (a.url X t) (t.dropWhile inPath)).map fix = some u) :
    Web u X a.user a.name ∧ (a.keeps t = true ↔ Web.Kept u a.user a.name) := by
  obtain ⟨params, hquery, hsound⟩ := readQuery_sound (u := a.url X t) (t.dropWhile inPath) fun _ hps => nomatch hps
  rw [hquery, map_some, some.injEq] at hu
  have hprints := fix_printsPort (u := { a.url X t with params }) rfl
  have hrange := fix_range (u := { a.url X t with params }) a.port_range.1 a.port_range.2
  have hport := fix_port (u := { a.url X t with params })
  obtain ⟨port, fixedPort, hfix⟩ := fix_eq { a.url X t with params }
  rw [hu] at hprints hrange hport hfix
  have hpath : u.path = a.path t := by
    rw [hfix]
    rfl
  have hprints : u.printsPort = decide (a.port ≠ 0) := hprints
  constructor
  · refine ⟨by rw [hfix]; rfl, hX, by rw [hfix]; rfl, by rw [hfix]; rfl, ha.password, by rw [hfix]; rfl, hrange.1, hrange.2,
      fun hunprinted => ?_, fun P hP => ?_, by rw [hfix]; exact hsound⟩
    · have hzero : a.port = 0 := by simpa [hprints] using hunprinted
      exact (hport hzero).symm
    · exact a.path_in (hpath ▸ hP)
  · rw [Authority.keeps, Bool.and_eq_true, Bool.and_eq_true, and_assoc, a.path_keeps t, Web.Kept, hpath, hprints]
    simp only [decide_eq_false_iff_not, not_not]

theorem file_of_query {P : Str} (hP : ∀ c ∈ P.tail, inPath c = true)
    (hu : (readQuery { schema := some strFile, path := some P } t).map fix = some u) : File u P := by
  obtain ⟨params, hquery, hsound⟩ := readQuery_sound (u := { schema := some strFile, path := some P }) t
    fun _ hps => nomatch hps
  rw [hquery] at hu
  have hu := some.inj hu
  rw [← hu]
  exact ⟨rfl, hP, hsound⟩

theorem web_of_bare (path : Option Str) (hpath : ∀ P, path = some P → ('?' : UInt8) ∉ P)
    (hu : (readQuery { bare w with path } t).map fix = some u) :
    Web u strSchemaDefault none w ∧ (Web.Kept u none w ↔ free w = true ∧ path = none) := by
  obtain ⟨params, hquery, hsound⟩ := readQuery_sound (u := { bare w with path }) t fun _ hps => nomatch hps
  rw [hquery] at hu
  have hu := some.inj hu
  rw [← hu]
  constructor
  · exact ⟨rfl, isSchema_default, rfl, rfl, fun _ hp => (nomatch hp), rfl, (by decide : -2 ^ 31 ≤ (80 : Int)),
      (by decide : (80 : Int) < 2 ^ 31), fun h => (nomatch h), hpath, hsound⟩
  · constructor
    · intro h
      refine ⟨h.1, ?_⟩
      cases path with
      | none => rfl
      | some P => exact nomatch (h.2.2 P rfl).1
    · rintro ⟨hfree, rfl⟩
      exact ⟨hfree, rfl, fun P hP => nomatch hP⟩

/-- What a text is read as, and when its URL is kept. -/
inductive Reads (kept : Bool) (u : Url) : Prop where
  | blank (h : u = {}) (hkept : kept = true)
  | file {P : Str} (h : File u P) (hkept : kept = true ↔ P.head? ≠ some ('?' : UInt8))
  | web {X host : Str} {user : Option (Str × Str)} (h : Web u X user host)
      (hkept : kept = true ↔ Web.Kept u user host)

theorem Reads.authority (hX : IsSchema X) {a : Authority} (ha : a.Fine)
    (h : (loop t (a.scan X)).map fix = some u) : Reads (keepsAfter a t) u := by
  rw [loop_authority] at h
  have hfine : (a.read (t.takeWhile inAuthority)).Fine :=
    Authority.read_keeps Authority.Fine.step ha fun _ hc => mem_takeWhile_imp hc
  exact .web (web_of_authority hX hfine h).1 (web_of_authority hX hfine h).2

/-- A schema, a drive, or a host or user without a schema is read. -/
theorem Reads.colon {r : Str} (hc : isSpace c = false) (hw : ∀ d ∈ w, isSchemaEnd d = false)
    (hfile : isFilePath (c :: w) = false)
    (h : (loop (':' :: r) ⟨.schema, 0, c :: w, [], {}⟩).map fix = some u) :
    Reads (keepsBehind (c :: w) (':' :: r)) u := by
  rw [keepsBehind, if_neg (by decide), if_neg (by decide)]
  cases hslashes : hasSlashes r with
  | true =>
    obtain ⟨r, rfl⟩ := hasSlashes_eq hslashes
    rw [if_pos rfl]
    by_cases hschema : c :: w = strFile
    · rw [hschema, loop_schema_file] at h
      have hread := file_of_query (fun _ hd => mem_takeWhile_imp (mem_of_mem_tail hd)) h
      refine .file hread ⟨fun _ hhead => ?_, fun _ => by simp [hschema]⟩
      exact mark_not_mem r (mem_of_mem_head? hhead)
    · rw [loop_schema_authority hschema] at h
      have hread := Reads.authority (a := {}) ⟨hschema, c, w, rfl, hc, hfile, hw⟩
        ⟨fun _ hp => absurd hp (not_mem_none _), fun hsome => absurd hsome Bool.false_ne_true⟩ h
      rwa [decide_eq_false hschema, Bool.false_or]
  | false =>
    rw [if_neg Bool.false_ne_true]
    cases hsep : hasSep r with
    | true =>
      rw [loop_schema_drive hslashes hsep] at h
      rw [if_pos rfl]
      split_ifs at h with hlength
      · obtain rfl : w = [] := length_eq_zero_iff.mp (Nat.succ.inj hlength)
        have hread := file_of_query (P := [c] ++ (':' : UInt8) :: r.takeWhile inPath)
          (forall_mem_cons.mpr ⟨by decide, fun _ hd => mem_takeWhile_imp hd⟩) h
        exact .file hread (by rw [decide_eq_true_eq]; rfl)
      · cases h
    | false =>
      rw [loop_schema_port hslashes hsep] at h
      rw [if_neg Bool.false_ne_true]
      exact Reads.authority isSchema_default
        ⟨fun _ hp => absurd hp (not_mem_none _), fun _ _ hd => absurd hd not_mem_nil⟩ h

theorem Reads.schema {r : Str} (hc : isSpace c = false) (hw : ∀ d ∈ w, isSchemaEnd d = false)
    (hfile : ∀ r', r = (':' : UInt8) :: r' → isFilePath (c :: w) = false)
    (hr : r = [] ∨ ∃ d r', r = d :: r' ∧ (!isSchemaEnd d) = false)
    (h : (loop r ⟨.schema, 0, c :: w, [], {}⟩).map fix = some u) : Reads (keepsBehind (c :: w) r) u := by
  rcases hr with rfl | ⟨d, r, rfl, hd⟩
  · have hweb := web_of_bare (t := []) none (fun _ hP => absurd hP (by simp)) h
    exact .web hweb.1 (by simp [hweb.2, keepsBehind])
  · have hd : d = ':' ∨ d = '/' ∨ d = '?' := by simpa [isSchemaEnd, or_iff_not_imp_left] using hd
    rcases hd with rfl | rfl | rfl
    · exact .colon hc hw (hfile r rfl) h
    · have hweb := web_of_bare (some (r.takeWhile inPath))
        (fun _ hP => some.inj hP ▸ mark_not_mem r) (loop_schema_path ▸ h)
      refine .web hweb.1 ⟨fun hfalse => absurd hfalse Bool.false_ne_true, fun hkept => ?_⟩
      exact absurd (hweb.2.mp hkept).2 (by simp)
    · have hweb := web_of_bare none (fun _ hP => absurd hP (by simp)) (loop_schema_query ▸ h)
      exact .web hweb.1 (by simp [hweb.2, keepsBehind])

theorem create_reads (h : create (some s) = some u) : Reads (keeps s) u := by
  rw [create, parse, loop_blanks] at h
  rcases dropWhile_cases isSpace s with hnil | ⟨c, t, hcons, hc⟩
  · rw [hnil] at h
    exact .blank (some.inj h).symm (by rw [keeps, hnil])
  · rw [hcons, loop_start hc] at h
    rw [keeps, hcons]
    dsimp only
    cases hfile : isFilePath (c :: t) with
    | true =>
      rw [if_pos hfile, loop_path] at h
      have hread := file_of_query (P := [c] ++ t.takeWhile inPath) (fun _ hd => mem_takeWhile_imp hd) h
      refine .file hread ⟨fun _ heq => ?_, fun _ => rfl⟩
      rw [some.inj heq, isFilePath_cons] at hfile
      rcases hfile with hslash | hback | hdot
      · exact absurd hslash (by decide)
      · exact absurd hback (by decide)
      · exact absurd hdot.1 (by decide)
    | false =>
      rw [hfile, if_neg Bool.false_ne_true] at h
      have hw : ∀ d ∈ t.takeWhile (fun c => !isSchemaEnd c), isSchemaEnd d = false := fun d hd => by
        simpa using mem_takeWhile_imp hd
      have hsplit := takeWhile_append_dropWhile (p := fun c => !isSchemaEnd c) (l := t)
      have hword := loop_word (p := t.dropWhile fun c => !isSchemaEnd c) (w := [c]) (s := []) (u := {}) _
        (show ∀ d ∈ t.takeWhile (fun c => !isSchemaEnd c), stops .schema d = false from hw)
      rw [hsplit] at hword
      rw [hword] at h
      refine .schema hc hw (fun r hr => ?_) (dropWhile_cases _ t) h
      rw [← isFilePath_colon c _ r, ← hr, hsplit]
      exact hfile

/-- Of every text that is read and whose parameters have no delimiters, the URL is read back from what is
printed of it exactly if the text is kept. -/
theorem roundTrip_iff (h : create (some s) = some u) (hplain : ∀ ps, u.params = some ps → ∀ nv ∈ ps, Plain nv) :
    (∃ u', create (some u.toString) = some u' ∧ SameParts u u') ↔ keeps s = true := by
  cases create_reads h with
  | blank hblank hkept =>
    rw [hblank]
    exact ⟨fun _ => hkept, fun _ => ⟨{}, rfl, ⟨rfl, rfl, rfl, rfl, rfl, rfl, rfl⟩⟩⟩
  | file hfile hkept => exact (hfile.sameParts_iff hplain).trans hkept.symm
  | web hweb hkept =>
    rw [hkept]
    exact ⟨fun ⟨_, hu', hsame⟩ => hweb.kept hu' hsame, fun hkept => hweb.read_back hkept hplain⟩

/-- `u:p@h:8080?k=v&n=1`. -/
def userText8080 : Str :=
  ['u', ':', 'p', '@', 'h', ':', '8', '0', '8', '0', '?', 'k', '=', 'v', '&', 'n', '=', '1']

/-- The URL of the text. -/
def userUrl : Url where
  schema := some ['h', 't', 't', 'p']
  userName := some ['u']
  password := some ['p']
  host := some ['h']
  port := 8080
  params := some [(['k'], ['v']), (['n'], ['1'])]

theorem roundTrip_user : ∃ u', create (some userUrl.toString) = some u' ∧ SameParts userUrl u' := by
  have hplain : ∀ ps, userUrl.params = some ps → ∀ nv ∈ ps, Plain nv := by
    intro ps hps
    cases hps
    decide
  exact (roundTrip_iff (s := userText8080) (by decide +kernel) hplain).mpr (by decide +kernel)

/-- `http://h:8080/a`. -/
def portUrl : Str := ['h', 't', 't', 'p', ':', '/', '/', 'h', ':', '8', '0', '8', '0', '/', 'a']

/-- Behind a port the path loses its slash, and then it is printed as part of the port. -/
theorem roundTrip_port : ¬ ∀ s u, create (some s) = some u → (∀ ps, u.params = some ps → ∀ nv ∈ ps, Plain nv) →
    ∃ u', create (some u.toString) = some u' ∧ SameParts u u' := by
  intro h
  let read : Url := { schema := some ['h', 't', 't', 'p'], host := some ['h'], port := 8080, path := some ['a'] }
  have hread : create (some portUrl) = some read := by decide +kernel
  obtain ⟨u', hu', hsame⟩ := h _ _ hread fun _ hps => nomatch hps
  have hagain : create (some read.toString) = some { read with path := none } := by decide +kernel
  rw [hagain] at hu'
  have hpath := hsame.path
  rw [← some.inj hu'] at hpath
  cases hpath

end Awtk.Url
