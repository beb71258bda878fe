import Awtk.Xml.XmlParserReads

/-!
# The turns over a rendering

Which turns the driver takes over white space, a tag and a text.  Between two parts of a
rendering it is in `State.none`, and the pointer is in front of the next part.
-/

namespace Awtk.Xml

open List Option

open Loop (Reaches)
open XmlParser

/-- The parser of a builder that sees every error, what it has said and the open tags. -/
structure Ready (p : XmlParser) (es : List Event) (tags : List Str) : Prop where
  events : p.events = es
  tags : p.tagStack = tags
  trim : p.trimText = true
  mode : p.reportErrorMode = .always

/-- A part of a text in front of the rest is read as some calls of the builder. -/
def Reads (w rest : Str) (tags tags' : List Str) (es : List Event) : Prop :=
  ∀ p before es₀, Ready p es₀ tags →
    ∃ p' before', Reaches Driver.turn ⟨p, .none, ⟨before, w ++ rest⟩⟩ ⟨p', .none, ⟨before', rest⟩⟩ ∧
      Ready p' (es₀ ++ es) tags'

theorem Ready.tells {p p' : XmlParser} {es es' : List Event} {tags : List Str} (h : Ready p es tags)
    (htells : Tells p p' es') : Ready p' (es ++ es') tags :=
  ⟨by rw [htells.events, h.events], htells.tags.trans h.tags, htells.trim.trans h.trim,
    htells.mode.trans h.mode⟩

theorem Ready.pushTag {p : XmlParser} {es : List Event} {tags : List Str} (h : Ready p es tags)
    (tag : Str) : Ready (p.pushTag tag) es (tag :: tags) :=
  ⟨h.events, congrArg (tag :: ·) h.tags, h.trim, h.mode⟩

theorem Ready.resetBuffer {p : XmlParser} {es : List Event} {tags : List Str} (h : Ready p es tags) :
    Ready p.resetBuffer es tags :=
  ⟨h.events, h.tags, h.trim, h.mode⟩

/-- One part after the other. -/
theorem Reads.append {w w' rest : Str} {tags tags' tags'' : List Str} {es es' : List Event}
    (h : Reads w (w' ++ rest) tags tags' es) (h' : Reads w' rest tags' tags'' es') :
    Reads (w ++ w') rest tags tags'' (es ++ es') := by
  intro p before es₀ hp
  obtain ⟨p', before', hreach, hp'⟩ := h p before es₀ hp
  obtain ⟨p'', before'', hreach', hp''⟩ := h' p' before' (es₀ ++ es) hp'
  rw [append_assoc] at hp''
  refine ⟨p'', before'', ?_, hp''⟩
  rw [append_assoc]
  exact hreach.trans hreach'

theorem reads_nil (rest : Str) (tags : List Str) : Reads [] rest tags tags [] :=
  fun p before es₀ hp => ⟨p, before, .refl _ _, by rwa [append_nil]⟩

namespace Driver

variable {p p' : XmlParser} {st : State} {c : UInt8} {before after : Str}

/-! ## One turn -/

theorem not_startsCrlf (h : c ≠ '\r') (after : Str) : ¬startsCrlf (c :: after) = true := by
  intro hcrlf
  rw [startsCrlf, isPrefixOf_cons_cons, Bool.and_eq_true, beq_iff_eq] at hcrlf
  exact h hcrlf.1.symm

theorem startsCrlf_iff {s : Str} : startsCrlf s = true ↔ ∃ t, s = 13 :: 10 :: t := by
  rw [startsCrlf, isPrefixOf_iff_prefix]
  exact ⟨fun ⟨t, ht⟩ => ⟨t, ht.symm⟩, fun ⟨t, ht⟩ => ⟨t, ht.symm⟩⟩

theorem newline_of_not (h : ¬startsCrlf (c :: after) = true) :
    newline c before after = ⟨before, c :: after⟩ := by
  rw [newline, if_neg]
  rintro ⟨rfl, hlf⟩
  cases after with
  | nil => cases hlf
  | cons d after =>
    cases hlf
    exact h rfl

theorem turn_of_handle {d : Driver} (h : ¬startsCrlf (c :: after) = true)
    (hhandle : handle c p ⟨before, c :: after⟩ st = some d) :
    turn ⟨p, st, ⟨before, c :: after⟩⟩ = d.endTurn := by
  rw [turn]
  dsimp only
  rw [newline_of_not h, hhandle]

theorem turn_crlf {d : Driver} (hhandle : handle 13 p ⟨13 :: before, 10 :: after⟩ st = some d) :
    turn ⟨p, st, ⟨before, 13 :: 10 :: after⟩⟩ = d.endTurn := by
  rw [turn]
  dsimp only
  rw [show newline 13 before (10 :: after) = ⟨13 :: before, 10 :: after⟩ from rfl, hhandle]

/-! ## White space -/

theorem handle_blank {es : List Event} {tags : List Str} (hp : Ready p es tags) (h : isSpace c = true)
    (cur : Cursor) : handle c p cur .none = some ⟨p, .none, cur⟩ := by
  have hlt : c ≠ '<' := by
    rintro rfl
    cases h
  rw [handle, if_neg hlt, hp.trim, h]
  rfl

theorem reads_space {rest : Str} (h : isSpace c = true) (hcrlf : ¬startsCrlf (c :: rest) = true)
    (tags : List Str) : Reads [c] rest tags tags [] := by
  intro p before es₀ hp
  refine ⟨p, c :: before, .one ?_, by rwa [append_nil]⟩
  exact turn_of_handle hcrlf (handle_blank hp h _)

theorem reads_crlf (rest : Str) (tags : List Str) : Reads [13, 10] rest tags tags [] := by
  intro p before es₀ hp
  refine ⟨p, 10 :: 13 :: before, .one ?_, by rwa [append_nil]⟩
  exact turn_crlf (handle_blank hp rfl _)

theorem reads_blank (rest : Str) (hrest : rest.head? ≠ some (10 : UInt8)) (tags : List Str) :
    ∀ {space : Str}, IsBlank space → Reads space rest tags tags []
  | [], _ => reads_nil rest tags
  | [c], h => by
    refine reads_space (isSpace_of_blank h mem_cons_self) (fun hcrlf => ?_) tags
    obtain ⟨t, ht⟩ := startsCrlf_iff.mp hcrlf
    cases ht
    exact hrest rfl
  | c :: d :: space, h => by
    by_cases hcrlf : startsCrlf (c :: d :: (space ++ rest)) = true
    · obtain ⟨t, ht⟩ := startsCrlf_iff.mp hcrlf
      cases ht
      exact (reads_crlf (space ++ rest) tags).append (reads_blank rest hrest tags h.tail.tail)
    · have hspace := isSpace_of_blank h mem_cons_self
      exact (reads_space hspace hcrlf tags).append (reads_blank rest hrest tags h.tail)

/-! ## Tags -/

theorem turn_lt (p : XmlParser) (before after : Str) :
    turn ⟨p, .none, ⟨before, ('<' : UInt8) :: c :: after⟩⟩ =
      .next ⟨p.resetBuffer, .afterLt, ⟨('<' : UInt8) :: before, c :: after⟩⟩ :=
  turn_of_handle (d := ⟨p.resetBuffer, .afterLt, ⟨before, ('<' : UInt8) :: c :: after⟩⟩)
    (not_startsCrlf (c := '<') (by decide) _) rfl

theorem skipWhile_isSpace (h : isSpace c = false) (before after : Str) :
    Cursor.skipWhile isSpace ⟨before, c :: after⟩ = ⟨before, c :: after⟩ := by
  rw [Cursor.skipWhile, takeWhile_cons, dropWhile_cons, h]
  rfl

theorem ne_of_isWord (h : isWord c = true) : c ≠ '?' ∧ c ≠ '/' ∧ c ≠ '!' := by
  have hall : (!isWord c || (c ≠ '?' && c ≠ '/' && c ≠ '!')) = true :=
    forall_byte (p := fun c => !isWord c || (c ≠ '?' && c ≠ '/' && c ≠ '!')) (by decide +kernel) c
  rw [h] at hall
  simp only [Bool.not_true, Bool.false_or, Bool.and_eq_true, decide_eq_true_eq] at hall
  exact ⟨hall.1.1, hall.1.2, hall.2⟩

theorem afterLt_word {cur : Cursor} (hskip : cur.skipWhile isSpace = cur) (h : isWord cur.char = true)
    (p : XmlParser) :
    afterLt p cur =
      if isAlpha cur.char ∨ cur.char = '_' ∨ cur.char = ':' then ⟨p, .startTag, cur⟩
      else ⟨p.check (cur.prev ≠ some ('<' : UInt8)) (.invalidAfterLt cur.char), .afterLt, cur⟩ := by
  obtain ⟨hpi, hslash, hbang⟩ := ne_of_isWord h
  rw [afterLt, hskip]
  rw [if_neg hpi, if_neg hslash, if_neg hbang]

theorem turn_afterLt (h : isWord c = true) (hgood : isDigit c = false) (p : XmlParser)
    (before after : Str) :
    turn ⟨p, .afterLt, ⟨before, c :: after⟩⟩ = .next ⟨p, .startTag, ⟨c :: before, after⟩⟩ := by
  have hplain := plain_of_isWord h
  have hstart : isAlpha c = true ∨ c = '_' ∨ c = ':' := by
    have hgood' := start_of_good h hgood
    rw [Bool.or_eq_true, decide_eq_true_eq] at hgood'
    exact hgood'.imp_right .inl
  have hhandle : handle c p ⟨before, c :: after⟩ .afterLt = some ⟨p, .startTag, ⟨before, c :: after⟩⟩ :=
    congrArg some ((afterLt_word (skipWhile_isSpace hplain.space before after) h p).trans
      (if_pos hstart))
  exact turn_of_handle (not_startsCrlf hplain.cr after) hhandle

theorem startsCrlf_append {t : Str} (hcr : t.head? ≠ some (13 : UInt8)) (hlf : t.head? ≠ some (10 : UInt8)) :
    ∀ s : Str, startsCrlf (s ++ t) = startsCrlf s
  | [] => by
    cases t with
    | nil => rfl
    | cons c t =>
      rw [nil_append, Bool.eq_false_iff.mpr (not_startsCrlf (fun h => hcr (congrArg some h)) t)]
      rfl
  | [c] => by
    cases t with
    | nil => rfl
    | cons d t =>
      refine (Bool.eq_false_iff.mpr fun hcrlf => ?_).trans (Bool.eq_false_iff.mpr fun hcrlf => ?_).symm
      · obtain ⟨u, hu⟩ := startsCrlf_iff.mp hcrlf
        cases hu
        exact hlf rfl
      · obtain ⟨u, hu⟩ := startsCrlf_iff.mp hcrlf
        cases hu
  | c :: d :: s => rfl

theorem head_tagEnd (stop : Bool) (rest : Str) {c : UInt8} (h : c ≠ '/' ∧ c ≠ '>') :
    (tagEnd stop ++ rest).head? ≠ some c := by
  intro hhead
  cases stop with
  | true =>
    cases hhead
    exact h.1 rfl
  | false =>
    cases hhead
    exact h.2 rfl

theorem reaches_startTag {name : Str} (h : isWord c = true) (hgood : isDigit c = false) (p : XmlParser)
    (before after : Str) :
    Reaches turn ⟨p, .none, ⟨before, ('<' : UInt8) :: c :: (name ++ after)⟩⟩
      ⟨p.resetBuffer, .startTag, ⟨c :: ('<' : UInt8) :: before, name ++ after⟩⟩ :=
  .head (turn_lt p before _) (.one (turn_afterLt h hgood _ _ _))

/-- A start tag whose name is not followed by a CRLF behind its first letter. -/
theorem reads_startTag {name : Str} {attrs : List Attr} {space : Str} (hname : IsName name)
    (hgood : GoodName name) (h : OkAttrs attrs space)
    (hcrlf : ¬(name.length = 1 ∧ startsCrlf (renderAttrs attrs space) = true)) (stop : Bool) (rest : Str)
    (tags : List Str) :
    Reads (('<' : UInt8) :: (name ++ (renderAttrs attrs space ++ tagEnd stop))) rest tags
      (if stop then tags else name :: tags) (startEvents stop name attrs) := by
  intro p before es₀ hp
  obtain ⟨c, name, rfl⟩ := exists_cons_of_ne_nil hname.1
  have hplain : ∀ d ∈ name, Plain d := fun d hd => hname.plain (mem_cons_of_mem c hd)
  obtain ⟨p', before', hparse, htells⟩ := parseStartTag_attrs (p := p.resetBuffer) c hplain h
    hp.mode rfl stop rest (('<' : UInt8) :: before)
  rw [strtrim_name hname] at htells
  have hready : Ready p' (es₀ ++ startEvents stop (c :: name) attrs)
      (if stop then tags else (c :: name) :: tags) := by
    cases stop with
    | true => exact hp.resetBuffer.tells htells
    | false => exact (hp.resetBuffer.pushTag (c :: name)).tells htells
  have htext : ('<' : UInt8) :: (c :: name ++ (renderAttrs attrs space ++ tagEnd stop)) ++ rest =
      ('<' : UInt8) :: c :: (name ++ (renderAttrs attrs space ++ (tagEnd stop ++ rest))) := by
    simp only [cons_append, append_assoc]
  refine ⟨p', ('>' : UInt8) :: before', ?_, hready⟩
  rw [htext]
  refine (reaches_startTag (hname.2 c mem_cons_self) (hgood c rfl) p before _).trans (.one ?_)
  have hnot : ¬startsCrlf (name ++ (renderAttrs attrs space ++ (tagEnd stop ++ rest))) = true := by
    cases name with
    | nil =>
      rw [nil_append, startsCrlf_append (head_tagEnd stop rest (by decide))
        (head_tagEnd stop rest (by decide))]
      exact fun h => hcrlf ⟨rfl, h⟩
    | cons d name => exact not_startsCrlf (hplain d mem_cons_self).cr _
  obtain ⟨d, after, hafter⟩ : ∃ d after,
      name ++ (renderAttrs attrs space ++ (tagEnd stop ++ rest)) = d :: after := by
    refine exists_cons_of_ne_nil fun hnil => ?_
    have hlen := congrArg List.length hnil
    cases stop <;> simp [tagEnd] at hlen
  rw [hafter] at hnot hparse ⊢
  have hhandle : handle d p.resetBuffer ⟨c :: ('<' : UInt8) :: before, d :: after⟩ .startTag =
      some ⟨p', .none, ⟨before', ('>' : UInt8) :: rest⟩⟩ := congrArg toNone hparse
  exact turn_of_handle hnot hhandle

theorem takeWhile_gt {w : Str} (h : ∀ c ∈ w, c ≠ '>') (rest : Str) :
    (w ++ ('>' : UInt8) :: rest).takeWhile (fun c => decide (c ≠ ('>' : UInt8))) = w ∧
      (w ++ ('>' : UInt8) :: rest).dropWhile (fun c => decide (c ≠ ('>' : UInt8))) =
        ('>' : UInt8) :: rest := by
  have hw : ∀ c ∈ w, decide (c ≠ ('>' : UInt8)) = true := fun c hc => decide_eq_true (h c hc)
  rw [takeWhile_append_of_pos hw, dropWhile_append_of_pos hw]
  exact ⟨append_nil w, rfl⟩

theorem parseEndTag_name {name space : Str} (hname : IsName name) (h : IsBlank space)
    (htag : p.strdup name true = some (name, p')) (rest before : Str) :
    p.parseEndTag ⟨before, name ++ (space ++ ('>' : UInt8) :: rest)⟩ =
      some (((p'.check (isValidTagName name) (.invalidEndTagName name)).popTag name).emit (.stop name),
        ⟨(name ++ space).reverse ++ before, ('>' : UInt8) :: rest⟩) := by
  have hplain : ∀ d ∈ name ++ space, d ≠ '>' := by
    intro d hd heq
    rcases mem_append.mp hd with hd | hd
    · exact (hname.plain hd).gt heq
    · rw [heq] at hd
      have hspace := isSpace_of_blank h hd
      cases hspace
  obtain ⟨htake, hdrop⟩ := takeWhile_gt hplain rest
  have hne : name ++ space ≠ [] := append_ne_nil_of_left_ne_nil hname.1 space
  rw [← append_assoc, parseEndTag, Cursor.skipWhile]
  dsimp only
  rw [htake, hdrop, if_neg (cons_ne_nil _ _), if_neg hne,
    trim_right hname.ends.2 fun c hc => isSpace_of_blank h hc, htag]
  rfl

/-- An end tag. -/
theorem reads_endTag {name space : Str} (hname : IsName name) (hgood : GoodName name) (h : IsBlank space)
    (rest : Str) (tags : List Str) : Reads (renderEnd name space) rest (name :: tags) tags [.stop name] := by
  intro p before es₀ hp
  obtain ⟨⟨tag, p'⟩, htag⟩ : ∃ r, p.resetBuffer.strdup name true = some r := strdup_some (.inl hname.1)
  obtain ⟨htells, heq, -⟩ := tells_strdup htag
  change tag = strtrim name at heq
  rw [strtrim_name hname] at heq
  subst heq
  have hready : Ready p' es₀ (tag :: tags) := by
    have hboth := hp.resetBuffer.tells htells
    rwa [append_nil] at hboth
  have hpop : p'.popTag tag = { p' with tagStack := tags } := by
    simp only [popTag, hready.tags, decide_true, check, if_true]
  have hparse := parseEndTag_name hname h htag rest (('/' : UInt8) :: ('<' : UInt8) :: before)
  rw [isValidTagName_of_good hname hgood, check, if_pos rfl, hpop] at hparse
  have hready' : Ready (({ p' with tagStack := tags } : XmlParser).emit (.stop tag))
      (es₀ ++ [.stop tag]) tags :=
    ⟨congrArg (· ++ _) hready.events, rfl, hready.trim, hready.mode⟩
  refine ⟨_, ('>' : UInt8) :: ((tag ++ space).reverse ++ ('/' : UInt8) :: ('<' : UInt8) :: before), ?_,
    hready'⟩
  obtain ⟨c, name, rfl⟩ := exists_cons_of_ne_nil hname.1
  have htext : renderEnd (c :: name) space ++ rest =
      ('<' : UInt8) :: ('/' : UInt8) :: (c :: name ++ (space ++ ('>' : UInt8) :: rest)) := by
    simp [renderEnd]
  rw [htext]
  have hslash : handle '/' p.resetBuffer ⟨('<' : UInt8) :: before,
      ('/' : UInt8) :: (c :: name ++ (space ++ ('>' : UInt8) :: rest))⟩ .afterLt =
        some ⟨p.resetBuffer, .endTag, ⟨('<' : UInt8) :: before,
          ('/' : UInt8) :: (c :: name ++ (space ++ ('>' : UInt8) :: rest))⟩⟩ := rfl
  have hhandle : handle c p.resetBuffer ⟨('/' : UInt8) :: ('<' : UInt8) :: before,
      c :: (name ++ (space ++ ('>' : UInt8) :: rest))⟩ .endTag = _ := congrArg toNone hparse
  have hc := (hname.plain mem_cons_self).cr
  refine .head (turn_lt p before _) (.head (turn_of_handle (not_startsCrlf (by decide) _) hslash) ?_)
  exact .one (turn_of_handle (not_startsCrlf hc _) hhandle)

/-! ## Texts -/

/-- A CRLF and a CR are read as a LF. -/
def lineEnds : Str → Str
  | [] => []
  | c :: s =>
    if startsCrlf (c :: s) then lineEnds s
    else if c = '\r' then ('\n' : UInt8) :: lineEnds s
    else c :: lineEnds s

/-- White space on both sides is trimmed. -/
def trim (s : Str) : Str := ((s.dropWhile isSpace).reverse.dropWhile isSpace).reverse

/-- The text that is told for a text up to the next tag.  Where a CRLF is behind the first
character, the text starts with the CR. -/
def received : Str → Str
  | [] => []
  | c :: s => trim (lineEnds (if startsCrlf s then s else c :: s))

/-- A tag that is no CDATA section. -/
def startsTag : Str → Bool
  | c :: d :: _ => c = '<' && d ≠ '!'
  | _ => false

theorem startsTag_cons {s : Str} (h : startsTag s = true) : ∃ t, s = ('<' : UInt8) :: t := by
  match s, h with
  | c :: d :: t, h =>
    rw [startsTag, Bool.and_eq_true, decide_eq_true_eq] at h
    exact ⟨d :: t, congrArg (· :: d :: t) h.1⟩

theorem not_cdata {s : Str} (h : startsTag s = true) : cdataStart.isPrefixOf s = false := by
  match s, h with
  | c :: d :: t, h =>
    rw [startsTag, Bool.and_eq_true, decide_eq_true_eq] at h
    rw [Bool.eq_false_iff]
    intro hpre
    obtain ⟨u, hu⟩ := isPrefixOf_iff_prefix.mp hpre
    cases hu
    exact of_decide_eq_true h.2 rfl

theorem head_startsTag {s : Str} (h : startsTag s = true) {c : UInt8} (hc : c ≠ '<') :
    s.head? ≠ some c := by
  obtain ⟨t, rfl⟩ := startsTag_cons h
  exact fun heq => hc (some.inj heq).symm

/-- A line break is read as a LF. -/
def lineEnd (c : UInt8) : UInt8 := if c = '\r' then '\n' else c

theorem lineEnds_cons {s : Str} (h : ¬startsCrlf (c :: s) = true) :
    lineEnds (c :: s) = lineEnd c :: lineEnds s := by
  rw [lineEnds, if_neg h, lineEnd]
  split_ifs <;> rfl

theorem lineEnds_crlf (s : Str) : lineEnds (13 :: 10 :: s) = 10 :: lineEnds s := by
  have h : ¬startsCrlf (10 :: s) = true := not_startsCrlf (c := 10) (by decide) s
  have hcrlf : startsCrlf (13 :: 10 :: s) = true := rfl
  rw [lineEnds, if_pos hcrlf, lineEnds_cons h]
  rfl

theorem textLoop_cons (hlt : c ≠ '<') (h : ¬startsCrlf (c :: after) = true) (s : Str) :
    textLoop (c :: after) before 0 s = textLoop after (c :: before) 0 (s ++ [lineEnd c]) := by
  have hcrlf : ¬(c = '\r' ∧ after.head? = some (10 : UInt8)) := by
    rintro ⟨rfl, hlf⟩
    cases after with
    | nil => cases hlf
    | cons d after =>
      cases hlf
      exact h rfl
  rw [textLoop, if_neg hcrlf]
  by_cases hcr : c = '\r'
  · subst hcr
    rfl
  · rw [lineEnd, if_neg hcr]
    by_cases hlf : c = '\n'
    · subst hlf
      rfl
    · rw [if_neg (not_or.mpr ⟨hlf, hcr⟩), if_neg hlt]

theorem textLoop_crlf (before after s : Str) :
    textLoop (13 :: 10 :: after) before 0 s = textLoop after (10 :: 13 :: before) 0 (s ++ [10]) := by
  rw [textLoop, if_pos ⟨rfl, rfl⟩, textLoop]
  rfl

/-- A text is copied up to the tag behind it. -/
theorem textLoop_text {tag : Str} (h : startsTag tag = true) :
    ∀ {w : Str}, ('<' : UInt8) ∉ w → ∀ before s,
      textLoop (w ++ tag) before 0 s =
        (Cursor.back ⟨w.reverse ++ before, tag⟩).map fun cur => (s ++ lineEnds w, cur)
  | [], _, before, s => by
    have hcdata := not_cdata h
    obtain ⟨t, rfl⟩ := startsTag_cons h
    rw [nil_append, textLoop, if_neg (fun hcr => absurd hcr.1 (by decide)),
      if_neg (by decide), if_pos rfl, hcdata]
    simp [lineEnds]
  | [c], hlt, before, s => by
    have hc : c ≠ '<' := fun heq => hlt (heq ▸ mem_cons_self)
    have hnot : ¬startsCrlf [c] = true := fun hcrlf => by
      obtain ⟨t, ht⟩ := startsCrlf_iff.mp hcrlf
      cases ht
    have hnot' : ¬startsCrlf (c :: tag) = true := by
      rwa [← startsCrlf_append (head_startsTag h (by decide)) (head_startsTag h (by decide))] at hnot
    rw [singleton_append, textLoop_cons hc hnot', lineEnds_cons hnot]
    have htag := textLoop_text h (w := []) not_mem_nil (c :: before) (s ++ [lineEnd c])
    simpa using htag
  | c :: d :: w, hlt, before, s => by
    by_cases hcrlf : startsCrlf (c :: d :: w) = true
    · obtain ⟨t, ht⟩ := startsCrlf_iff.mp hcrlf
      cases ht
      have hw : ('<' : UInt8) ∉ w := fun hmem => hlt (by simp [hmem])
      have hrest := textLoop_text h hw (10 :: 13 :: before) (s ++ [10])
      rw [cons_append, cons_append, textLoop_crlf, hrest, lineEnds_crlf]
      simp
    · have hc : c ≠ '<' := fun heq => hlt (heq ▸ mem_cons_self)
      have hrest := textLoop_text h (fun hmem => hlt (mem_cons_of_mem c hmem)) (c :: before)
        (s ++ [lineEnd c])
      have hcrlf' : ¬startsCrlf (c :: (d :: w ++ tag)) = true := hcrlf
      rw [cons_append, textLoop_cons hc hcrlf', hrest, lineEnds_cons hcrlf]
      simp

theorem lineEnds_ne_nil : ∀ {s : Str}, s ≠ [] → lineEnds s ≠ []
  | [], h => absurd rfl h
  | c :: s, _ => by
    by_cases hcrlf : startsCrlf (c :: s) = true
    · obtain ⟨t, ht⟩ := startsCrlf_iff.mp hcrlf
      rw [ht, lineEnds_crlf]
      exact cons_ne_nil _ _
    · rw [lineEnds_cons hcrlf]
      exact cons_ne_nil _ _

theorem onText_of_ready {es : List Event} {tags : List Str} (hp : Ready p es tags) {s : Str} (hs : s ≠ []) :
    p.onText s = p.emit (.text (trim s)) := by
  rw [XmlParser.onText, if_neg hs, if_pos hp.trim, trim]

theorem parseText_text {w rest : Str} (hw : w ≠ []) (hlt : ('<' : UInt8) ∉ w) (h : startsTag rest = true)
    {cur : Cursor} (hback : cur.back = some ⟨before, w ++ rest⟩) (p : XmlParser) :
    ∃ cur', p.parseText cur = some (p.onText (lineEnds w), cur') ∧
      cur'.next = some ⟨w.reverse ++ before, rest⟩ := by
  obtain ⟨c, cs, hrev⟩ : ∃ c cs, w.reverse ++ before = c :: cs :=
    exists_cons_of_ne_nil
      (append_ne_nil_of_left_ne_nil (fun hnil => hw (reverse_eq_nil_iff.mp hnil)) before)
  refine ⟨⟨cs, c :: rest⟩, ?_, congrArg some (congrArg (Cursor.mk · rest) hrev.symm)⟩
  rw [parseText, hback, bind_some, textLoop_text h hlt, hrev]
  rfl

theorem endTurn_of_next {d : Driver} {cur : Cursor} (h : d.cur.next = some cur) :
    d.endTurn = .next ⟨d.parser, d.state, cur⟩ := by
  rw [endTurn, h]

/-- A text up to the next tag. -/
theorem reads_text {w rest : Str} (hfirst : ∃ c ∈ w.head?, isSpace c = false) (hlt : ('<' : UInt8) ∉ w)
    (h : startsTag rest = true) (tags : List Str) : Reads w rest tags tags [.text (received w)] := by
  intro p before es₀ hp
  obtain ⟨c, hhead, hspace⟩ := hfirst
  cases w with
  | nil => cases hhead
  | cons d w =>
    cases hhead
    have hc : c ≠ '<' := fun heq => hlt (heq ▸ mem_cons_self)
    have hcr : c ≠ '\r' := by
      rintro rfl
      cases hspace
    have hstart : turn ⟨p, .none, ⟨before, c :: (w ++ rest)⟩⟩ = .next ⟨p, .text, ⟨c :: before, w ++ rest⟩⟩ := by
      have hhandle : handle c p ⟨before, c :: (w ++ rest)⟩ .none =
          some ⟨p, .text, ⟨before, c :: (w ++ rest)⟩⟩ := by
        rw [handle, if_neg hc, hspace]
        simp
      exact turn_of_handle (not_startsCrlf hcr _) hhandle
    have hready : ∀ s, s ≠ [] → Ready (p.onText s) (es₀ ++ [.text (trim s)]) tags := by
      intro s hs
      rw [onText_of_ready hp hs]
      exact hp.tells (tells_emit p _)
    by_cases hcrlf : startsCrlf w = true
    · obtain ⟨t, rfl⟩ := startsCrlf_iff.mp hcrlf
      have hlt' : ('<' : UInt8) ∉ 13 :: 10 :: t := fun hmem => hlt (mem_cons_of_mem c hmem)
      have hback : Cursor.back ⟨13 :: c :: before, 10 :: (t ++ rest)⟩ =
          some ⟨c :: before, 13 :: 10 :: t ++ rest⟩ := rfl
      obtain ⟨cur, hparse, hnext⟩ := parseText_text (cons_ne_nil 13 (10 :: t)) hlt' h hback p
      refine ⟨_, (13 :: 10 :: t).reverse ++ c :: before, .head hstart (.one ?_),
        hready _ (lineEnds_ne_nil (cons_ne_nil 13 (10 :: t)))⟩
      have hhandle : handle 13 p ⟨13 :: c :: before, 10 :: (t ++ rest)⟩ .text = _ := congrArg toNone hparse
      exact (turn_crlf hhandle).trans (endTurn_of_next hnext)
    · have hback : Cursor.back ⟨c :: before, w ++ rest⟩ = some ⟨before, c :: w ++ rest⟩ := rfl
      obtain ⟨cur, hparse, hnext⟩ := parseText_text (cons_ne_nil c w) hlt h hback p
      obtain ⟨x, after, hafter⟩ : ∃ x after, w ++ rest = x :: after := by
        obtain ⟨t, rfl⟩ := startsTag_cons h
        exact exists_cons_of_ne_nil (append_ne_nil_of_right_ne_nil w (cons_ne_nil _ t))
      have hnot : ¬startsCrlf (x :: after) = true := by
        rwa [← hafter, startsCrlf_append (head_startsTag h (by decide)) (head_startsTag h (by decide))]
      have hready' := hready _ (lineEnds_ne_nil (cons_ne_nil c w))
      rw [received, if_neg hcrlf]
      refine ⟨_, (c :: w).reverse ++ before, .head hstart (.one ?_), hready'⟩
      rw [hafter] at hparse ⊢
      have hhandle : handle x p ⟨c :: before, x :: after⟩ .text = _ := congrArg toNone hparse
      exact (turn_of_handle hnot hhandle).trans (endTurn_of_next hnext)

end Driver

end Awtk.Xml
