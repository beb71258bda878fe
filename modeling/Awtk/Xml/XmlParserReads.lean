import Awtk.Xml.XmlParserBounds
import Awtk.Xml.XmlRendering

/-!
# What the XML parser reads

One lemma for each part of a rendering: which calls of the builder it makes, and where the
parser is behind it.
-/

namespace Awtk.Xml

open List Option

open Loop (Reaches)

/-! ## Characters -/

theorem isSpace_of_blank {s : Str} (h : IsBlank s) {c : UInt8} (hc : c ∈ s) : isSpace c = true := by
  rcases h c hc with rfl | rfl | rfl | rfl <;> rfl

theorem IsBlank.tail {c : UInt8} {s : Str} (h : IsBlank (c :: s)) : IsBlank s :=
  fun d hd => h d (mem_cons_of_mem c hd)

/-- A character of a name is none that the parser looks for. -/
structure Plain (c : UInt8) : Prop where
  space : isSpace c = false
  lf : c ≠ '\n'
  cr : c ≠ '\r'
  lt : c ≠ '<'
  gt : c ≠ '>'
  slash : c ≠ '/'
  equal : c ≠ '='

theorem plain_of_isWord {c : UInt8} (h : isWord c = true) : Plain c := by
  have hall : (!isWord c || (!isSpace c && c ≠ '\n' && c ≠ '\r' && c ≠ '<' && c ≠ '>' && c ≠ '/' &&
      c ≠ '=')) = true :=
    forall_byte (p := fun c => !isWord c || (!isSpace c && c ≠ '\n' && c ≠ '\r' && c ≠ '<' && c ≠ '>' &&
      c ≠ '/' && c ≠ '=')) (by decide +kernel) c
  rw [h] at hall
  simp only [Bool.not_true, Bool.false_or, Bool.and_eq_true, Bool.not_eq_true', decide_eq_true_eq] at hall
  obtain ⟨⟨⟨⟨⟨⟨hspace, hlf⟩, hcr⟩, hlt⟩, hgt⟩, hslash⟩, hequal⟩ := hall
  exact ⟨hspace, hlf, hcr, hlt, hgt, hslash, hequal⟩

theorem IsName.plain {name : Str} (h : IsName name) {c : UInt8} (hc : c ∈ name) : Plain c :=
  plain_of_isWord (h.2 c hc)

theorem start_of_good {c : UInt8} (h : isWord c = true) (hgood : isDigit c = false) :
    (isAlpha c || c = '_') = true := by
  rw [isWord, hgood, Bool.or_false] at h
  exact h

theorem isValidTagName_of_good {name : Str} (h : IsName name) (hgood : GoodName name) :
    isValidTagName name = true := by
  obtain ⟨c, s, rfl⟩ := exists_cons_of_ne_nil h.1
  rw [isValidTagName, Bool.and_eq_true, List.all_eq_true]
  refine ⟨start_of_good (h.2 c mem_cons_self) (hgood c rfl), fun d hd => ?_⟩
  have hword := h.2 d (mem_cons_of_mem c hd)
  rw [isWord] at hword
  rw [hword]
  rfl

/-! ## Trimming -/

theorem dropWhile_head {s : Str} (h : ∃ c ∈ s.head?, isSpace c = false) : s.dropWhile isSpace = s := by
  obtain ⟨c, hc, hspace⟩ := h
  cases s with
  | nil => cases hc
  | cons d s =>
    cases hc
    rw [dropWhile_cons, hspace]
    rfl

theorem reverse_head {s : Str} (h : ∃ c ∈ s.getLast?, isSpace c = false) :
    ∃ c ∈ s.reverse.head?, isSpace c = false := by
  rw [head?_reverse]
  exact h

theorem trim_right {s after : Str} (h : ∃ c ∈ s.getLast?, isSpace c = false)
    (hafter : ∀ c ∈ after, isSpace c = true) :
    ((s ++ after).reverse.dropWhile isSpace).reverse = s := by
  rw [reverse_append,
    dropWhile_append_of_pos fun c hc => hafter c (mem_reverse.mp hc),
    dropWhile_head (reverse_head h), reverse_reverse]

theorem IsName.ends {name : Str} (h : IsName name) :
    (∃ c ∈ name.head?, isSpace c = false) ∧ ∃ c ∈ name.getLast?, isSpace c = false := by
  obtain ⟨c, s, rfl⟩ := exists_cons_of_ne_nil h.1
  refine ⟨⟨c, rfl, (h.plain mem_cons_self).space⟩, ?_⟩
  exact ⟨_, getLast?_eq_some_getLast (cons_ne_nil c s), (h.plain (getLast_mem _)).space⟩

theorem strtrim_name {name : Str} (h : IsName name) : strtrim name = name := by
  have hright : ((name ++ []).reverse.dropWhile isSpace).reverse = name :=
    trim_right h.ends.2 fun c hc => by cases hc
  rw [append_nil] at hright
  rw [strtrim, hright, dropWhile_head h.ends.1]

namespace XmlParser

/-! ## What is said -/

/-- What is left of a parser when it has made some calls. -/
structure Tells (p p' : XmlParser) (es : List Event) : Prop where
  events : p'.events = p.events ++ es
  tags : p'.tagStack = p.tagStack
  trim : p'.trimText = p.trimText
  mode : p'.reportErrorMode = p.reportErrorMode

variable {p p' p'' : XmlParser} {es es' : List Event}

theorem Tells.refl (p : XmlParser) : Tells p p [] := ⟨(append_nil _).symm, rfl, rfl, rfl⟩

theorem Tells.trans (h : Tells p p' es) (h' : Tells p' p'' es') : Tells p p'' (es ++ es') :=
  ⟨by rw [h'.events, h.events, append_assoc], h'.tags.trans h.tags, h'.trim.trans h.trim,
    h'.mode.trans h.mode⟩

theorem tells_emit (p : XmlParser) (e : Event) : Tells p (p.emit e) [e] := ⟨rfl, rfl, rfl, rfl⟩

theorem tells_report (h : p.reportErrorMode = .always) (e : Error) : Tells p (p.report e) [.error e] := by
  have hshould : p.shouldReportError = true := by rw [shouldReportError, h]
  rw [report, if_pos hshould]
  exact ⟨rfl, rfl, rfl, rfl⟩

theorem tells_check (h : p.reportErrorMode = .always) (ok : Bool) (e : Error) :
    Tells p (p.check ok e) (if ok then [] else [.error e]) := by
  cases ok with
  | true => exact .refl p
  | false => exact tells_report h e

theorem tells_strdup {s copy : Str} {trim : Bool} (h : p.strdup s trim = some (copy, p')) :
    Tells p p' [] ∧ copy = (if trim then strtrim s else s) ∧ p'.attrs = p.attrs := by
  rw [strdup] at h
  split at h
  · cases h
  · cases h
    exact ⟨⟨(append_nil _).symm, rfl, rfl, rfl⟩, rfl, rfl⟩

@[simp] theorem attrs_report (p : XmlParser) (e : Error) : (p.report e).attrs = p.attrs := by
  rw [report]
  split <;> rfl

@[simp] theorem attrs_check (p : XmlParser) (ok : Bool) (e : Error) : (p.check ok e).attrs = p.attrs := by
  cases ok with
  | true => rfl
  | false => exact attrs_report p e

/-! ## Attributes -/

/-- The errors for the name of an attribute behind others. -/
def nameErrors (seen : List Str) (name : Str) : List Event :=
  if isValidTagName name then
    if name ∈ seen then [.error (.duplicateAttr name)] else []
  else [.error (.invalidAttrName name)]

theorem tells_checkAttrName (h : p.reportErrorMode = .always) (name : Str) :
    Tells p (p.checkAttrName name) (nameErrors (p.attrs.map (·.1)) name) ∧
      (p.checkAttrName name).attrs = p.attrs := by
  rw [checkAttrName, nameErrors, isValidAttrName]
  by_cases hvalid : isValidTagName name = true
  · rw [if_pos hvalid, if_pos hvalid, checkDuplicateAttrs]
    refine ⟨?_, attrs_check p _ _⟩
    have htells := tells_check h (p.attrs.all (·.1 ≠ name)) (.duplicateAttr name)
    by_cases hmem : name ∈ p.attrs.map (·.1)
    · have hall : p.attrs.all (·.1 ≠ name) = false := by
        rw [List.all_eq_false]
        obtain ⟨a, ha, rfl⟩ := List.mem_map.mp hmem
        exact ⟨a, ha, by simp⟩
      rw [hall] at htells ⊢
      rw [if_pos hmem]
      exact htells
    · have hall : p.attrs.all (·.1 ≠ name) = true := by
        rw [List.all_eq_true]
        intro a ha
        refine decide_eq_true fun heq => hmem ?_
        rw [← heq]
        exact List.mem_map_of_mem ha
      rw [hall] at htells ⊢
      rw [if_neg hmem]
      exact htells
  · rw [if_neg hvalid, if_neg hvalid]
    exact ⟨tells_report h _, attrs_report p _⟩

theorem tells_addAttr {name : Str} (h : IsName name) (value : Str) (p : XmlParser) :
    ∃ p', p.addAttr name value = some p' ∧ Tells p p' [] ∧ p'.attrs = p.attrs ++ [(name, value)] := by
  obtain ⟨⟨copy, p'⟩, hname⟩ : ∃ r, p.strdup name true = some r := strdup_some (.inl h.1)
  obtain ⟨⟨copy', p''⟩, hvalue⟩ : ∃ r, p'.strdup value false = some r := strdup_some (.inr rfl)
  obtain ⟨htells, hcopy, hattrs⟩ := tells_strdup hname
  obtain ⟨htells', hcopy', hattrs'⟩ := tells_strdup hvalue
  rw [if_pos rfl, strtrim_name h] at hcopy
  change copy' = value at hcopy'
  subst hcopy hcopy'
  refine ⟨{ p'' with attrs := p''.attrs ++ [(copy, copy')] }, ?_, ?_, ?_⟩
  · change (p.strdup copy true).bind _ = _
    rw [hname, bind_some]
    change (p'.strdup copy' false).bind _ = _
    rw [hvalue]
    rfl
  · have hboth := htells.trans htells'
    exact ⟨hboth.events, hboth.tags, hboth.trim, hboth.mode⟩
  · change p''.attrs ++ [(copy, copy')] = _
    rw [hattrs', hattrs]

theorem attrLoop_blank {space : Str} (h : IsBlank space) (rest before : Str) (p : XmlParser) :
    attrLoop '/' (space ++ rest) before .preKey p =
      attrLoop '/' rest (space.reverse ++ before) .preKey p := by
  induction space generalizing before with
  | nil => rfl
  | cons c space ih =>
    have hspace := isSpace_of_blank h mem_cons_self
    have hturn : attrLoop '/' (c :: (space ++ rest)) before .preKey p =
        attrLoop '/' (space ++ rest) (c :: before) .preKey p := by
      rw [attrLoop]
      by_cases hnl : c = '\n' ∨ c = '\r'
      · rw [if_pos hnl]
        rfl
      · have hpre : preKeyTurn '/' c = .preKey := by
          rcases h c mem_cons_self with rfl | rfl | rfl | rfl <;> rfl
        rw [if_neg hnl, attrTurn, bind_some, hpre]
        rfl
    rw [cons_append, hturn, ih h.tail, reverse_cons, append_assoc]
    rfl

theorem attrLoop_key {name : Str} (h : ∀ c ∈ name, Plain c) (key rest before : Str) (p : XmlParser) :
    attrLoop '/' (name ++ rest) before (.key key) p =
      attrLoop '/' rest (name.reverse ++ before) (.key (key ++ name)) p := by
  induction name generalizing key before with
  | nil => rw [append_nil]; rfl
  | cons c name ih =>
    have hc := h c mem_cons_self
    have hturn : attrLoop '/' (c :: (name ++ rest)) before (.key key) p =
        attrLoop '/' (name ++ rest) (c :: before) (.key (key ++ [c])) p := by
      rw [attrLoop, if_neg (not_or.mpr ⟨hc.lf, hc.cr⟩), attrTurn, if_neg hc.equal,
        if_neg (not_or.mpr ⟨hc.slash, hc.gt⟩), hc.space]
      rfl
    rw [cons_append, hturn, ih (fun d hd => h d (mem_cons_of_mem c hd)), reverse_cons,
      append_assoc, append_assoc]
    rfl

theorem attrLoop_value {quote : UInt8} (hquote : quote = '\"' ∨ quote = '\'') {value : Str}
    (h : quote ∉ value) (name had rest before : Str) (p : XmlParser) :
    attrLoop '/' (value ++ rest) before (.value name quote had) p =
      attrLoop '/' rest (value.reverse ++ before) (.value name quote (had ++ value)) p := by
  induction value generalizing had before with
  | nil => rw [append_nil]; rfl
  | cons c value ih =>
    have hc : c ≠ quote := fun heq => h (heq ▸ mem_cons_self)
    have hspace : quote ≠ ' ' := by rcases hquote with rfl | rfl <;> decide
    have hturn : attrLoop '/' (c :: (value ++ rest)) before (.value name quote had) p =
        attrLoop '/' (value ++ rest) (c :: before) (.value name quote (had ++ [c])) p := by
      rw [attrLoop]
      split_ifs with hnl
      · rfl
      · rw [attrTurn, if_neg (by rintro (heq | ⟨heq, -⟩); exacts [hc heq, hspace heq])]
        rfl
    rw [cons_append, hturn, ih (fun hmem => h (mem_cons_of_mem c hmem)), reverse_cons,
      append_assoc, append_assoc]
    rfl

theorem attrLoop_preKey {c : UInt8} (h : Plain c) (rest before : Str) (p : XmlParser) :
    attrLoop '/' (c :: rest) before .preKey p = attrLoop '/' rest (c :: before) (.key [c]) p := by
  have hpre : preKeyTurn '/' c = .key [c] := by
    rw [preKeyTurn, if_neg (not_or.mpr ⟨h.slash, h.gt⟩), h.space]
    rfl
  rw [attrLoop, if_neg (not_or.mpr ⟨h.lf, h.cr⟩), attrTurn, bind_some, hpre]
  rfl

theorem attrLoop_equal (key rest before : Str) (p : XmlParser) :
    attrLoop '/' (('=' : UInt8) :: rest) before (.key key) p =
      attrLoop '/' rest (('=' : UInt8) :: before) (.preValue key) (p.checkAttrName key) := rfl

theorem attrLoop_open {quote : UInt8} (h : quote = '\"' ∨ quote = '\'') (key rest before : Str)
    (p : XmlParser) :
    attrLoop '/' (quote :: rest) before (.preValue key) p =
      attrLoop '/' rest (quote :: before) (.value key quote []) p := by
  rcases h with rfl | rfl <;> rfl

theorem attrLoop_close {quote : UInt8} (h : quote = '\"' ∨ quote = '\'') {key value : Str}
    (hadd : p.addAttr key value = some p') (rest before : Str) :
    attrLoop '/' (quote :: rest) before (.value key quote value) p =
      attrLoop '/' rest (quote :: before) .preKey p' := by
  have hnl : ¬(quote = '\n' ∨ quote = '\r') := by rcases h with rfl | rfl <;> decide
  have hspace : ¬(quote = ' ' ∧ (quote = '/' ∨ quote = '>')) := by rcases h with rfl | rfl <;> decide
  rw [attrLoop, if_neg hnl, attrTurn, if_pos (.inl rfl), hadd, map_some, if_neg hspace]
  rfl

theorem attrLoop_attr {a : Attr} (h : a.Ok) (hmode : p.reportErrorMode = .always) (rest before : Str) :
    ∃ p', attrLoop '/' (a.render ++ rest) before .preKey p =
        attrLoop '/' rest (a.render.reverse ++ before) .preKey p' ∧
      Tells p p' (nameErrors (p.attrs.map (·.1)) a.name) ∧ p'.attrs = p.attrs ++ [a.pair] := by
  obtain ⟨space, aname, value, quote⟩ := a
  obtain ⟨hspace, hname, hquote, hvalue, -⟩ := h
  dsimp only at hspace hname hquote hvalue ⊢
  obtain ⟨c, name, rfl⟩ := exists_cons_of_ne_nil hname.1
  obtain ⟨hcheck, hattrs⟩ := tells_checkAttrName hmode (c :: name)
  obtain ⟨p', hadd, htells, hattrs'⟩ := tells_addAttr hname value (p.checkAttrName (c :: name))
  refine ⟨p', ?_, by simpa only [append_nil] using hcheck.trans htells, by rw [hattrs', hattrs]; rfl⟩
  have hrender : (Attr.mk space (c :: name) value quote).render ++ rest =
      space ++ (c :: (name ++ ('=' : UInt8) :: quote :: (value ++ quote :: rest))) := by
    simp [Attr.render]
  rw [hrender, attrLoop_blank hspace, attrLoop_preKey (hname.plain mem_cons_self),
    attrLoop_key fun d hd => hname.plain (mem_cons_of_mem c hd), attrLoop_equal,
    attrLoop_open hquote, attrLoop_value hquote hvalue, nil_append, singleton_append,
    attrLoop_close hquote hadd]
  simp [Attr.render]

/-- The errors for the names of the attributes of a tag. -/
def attrErrors (seen : List Str) : List Str → List Event
  | [] => []
  | name :: names => nameErrors seen name ++ attrErrors (seen ++ [name]) names

/-- The attributes of a tag, and the white space behind them. -/
theorem attrLoop_attrs {attrs : List Attr} {space : Str} (h : ∀ a ∈ attrs, a.Ok) (hspace : IsBlank space)
    {c : UInt8} (hc : c = '/' ∨ c = '>') (hmode : p.reportErrorMode = .always) (rest before : Str) :
    ∃ p', attrLoop '/' (renderAttrs attrs space ++ c :: rest) before .preKey p =
        some (p', ⟨(renderAttrs attrs space).reverse ++ before, c :: rest⟩) ∧
      Tells p p' (attrErrors (p.attrs.map (·.1)) (attrs.map Attr.name)) ∧
      p'.attrs = p.attrs ++ attrs.map Attr.pair := by
  induction attrs generalizing p before with
  | nil =>
    refine ⟨p, ?_, .refl p, (append_nil _).symm⟩
    have hstop : attrLoop '/' (c :: rest) (space.reverse ++ before) .preKey p =
        some (p, ⟨space.reverse ++ before, c :: rest⟩) := by
      rcases hc with rfl | rfl <;> rfl
    change attrLoop '/' (space ++ c :: rest) before .preKey p = _
    rw [attrLoop_blank hspace, hstop]
    rfl
  | cons a attrs ih =>
    obtain ⟨p', hattr, htells, hattrs⟩ :=
      attrLoop_attr (h a mem_cons_self) hmode (renderAttrs attrs space ++ c :: rest) before
    obtain ⟨p'', hloop, htells', hattrs'⟩ := ih (p := p') (fun b hb => h b (mem_cons_of_mem a hb))
      (htells.mode.trans hmode) (a.render.reverse ++ before)
    refine ⟨p'', ?_, ?_, ?_⟩
    · have hrender : renderAttrs (a :: attrs) space = a.render ++ renderAttrs attrs space := by
        simp [renderAttrs]
      rw [hrender, append_assoc, hattr, hloop, reverse_append, append_assoc]
    · rw [hattrs, map_append] at htells'
      exact htells.trans htells'
    · rw [hattrs', hattrs, append_assoc]
      rfl

/-! ## Tags -/

theorem renderAttrs_cons {attrs : List Attr} {space : Str} (h : OkAttrs attrs space) {c : UInt8}
    {s : Str} (hs : renderAttrs attrs space = c :: s) :
    (c = ' ' ∨ c = '\t' ∨ c = '\n' ∨ c = '\r') ∧
      ∃ attrs' space', s = renderAttrs attrs' space' ∧ (∀ a ∈ attrs', a.Ok) ∧ IsBlank space' ∧
        attrs'.map Attr.name = attrs.map Attr.name ∧ attrs'.map Attr.pair = attrs.map Attr.pair := by
  obtain ⟨hok, hfirst, hblank⟩ := h
  cases attrs with
  | nil =>
    change space = c :: s at hs
    subst hs
    exact ⟨hblank c mem_cons_self, [], s, rfl, hok, hblank.tail, rfl, rfl⟩
  | cons a attrs =>
    obtain ⟨aspace, name, value, quote⟩ := a
    obtain ⟨d, aspace, rfl⟩ := exists_cons_of_ne_nil (hfirst _ rfl)
    obtain ⟨haspace, hname, hquote, hvalue, hnul⟩ := hok _ mem_cons_self
    have hcons : renderAttrs (⟨d :: aspace, name, value, quote⟩ :: attrs) space =
        d :: renderAttrs (⟨aspace, name, value, quote⟩ :: attrs) space := by
      simp [renderAttrs, Attr.render]
    rw [hcons] at hs
    cases hs
    refine ⟨haspace c mem_cons_self, ⟨aspace, name, value, quote⟩ :: attrs, space, rfl, ?_, hblank,
      rfl, rfl⟩
    intro b hb
    rcases mem_cons.mp hb with rfl | hb
    · exact ⟨haspace.tail, hname, hquote, hvalue, hnul⟩
    · exact hok b (mem_cons_of_mem _ hb)

/-- The end of a start tag. -/
def tagEnd (stop : Bool) : Str := if stop then ['/', '>'] else ['>']

/-- What is told for a start tag. -/
def startEvents (stop : Bool) (tag : Str) (attrs : List Attr) : List Event :=
  attrErrors [] (attrs.map Attr.name) ++
    ((if isValidTagName tag then [] else [.error (.invalidTagName tag)]) ++
      .start tag (attrs.map Attr.pair) :: if stop then [.stop tag] else [])

theorem tells_startTag (h : p.reportErrorMode = .always) (tag : Str) (stop : Bool) :
    let p' := (p.check (isValidTagName tag) (.invalidTagName tag)).emit (.start tag p.attrs)
    Tells (if stop then p else p.pushTag tag) (if stop then p'.emit (.stop tag) else p'.pushTag tag)
      ((if isValidTagName tag then [] else [.error (.invalidTagName tag)]) ++
        .start tag p.attrs :: if stop then [.stop tag] else []) := by
  have hcheck := (tells_check h (isValidTagName tag) (.invalidTagName tag)).trans
    (tells_emit _ (.start tag p.attrs))
  cases stop with
  | true =>
    have hboth := hcheck.trans (tells_emit _ (.stop tag))
    rw [append_assoc] at hboth
    exact hboth
  | false =>
    exact ⟨hcheck.events, congrArg (tag :: ·) hcheck.tags, hcheck.trim, hcheck.mode⟩

theorem takeWhile_plain {name : Str} (h : ∀ c ∈ name, Plain c) {c : UInt8} (hc : isNameEnd c = true)
    (rest : Str) :
    (name ++ c :: rest).takeWhile (!isNameEnd ·) = name ∧
      (name ++ c :: rest).dropWhile (!isNameEnd ·) = c :: rest := by
  have hname : ∀ d ∈ name, (!isNameEnd d) = true := by
    intro d hd
    have hplain := h d hd
    simp [isNameEnd, hplain.space, hplain.gt, hplain.slash]
  rw [takeWhile_append_of_pos hname, dropWhile_append_of_pos hname, takeWhile_cons,
    dropWhile_cons, hc]
  exact ⟨append_nil name, rfl⟩

/-- The name and the attributes. -/
theorem parseName_attrs (first : UInt8) {name : Str} (hname : ∀ c ∈ name, Plain c) {attrs : List Attr}
    {space : Str} (h : OkAttrs attrs space) (hmode : p.reportErrorMode = .always) (hattrs : p.attrs = [])
    {c : UInt8} (hc : c = '/' ∨ c = '>') (rest before : Str) :
    ∃ p', p.parseName ⟨first :: before, name ++ (renderAttrs attrs space ++ c :: rest)⟩ =
        some (strtrim (first :: name), p',
          ⟨(renderAttrs attrs space).reverse ++ (name.reverse ++ first :: before), c :: rest⟩) ∧
      Tells p p' (attrErrors [] (attrs.map Attr.name)) ∧ p'.attrs = attrs.map Attr.pair := by
  obtain ⟨⟨tag, p'⟩, htag⟩ : ∃ r, p.strdup (first :: name) true = some r :=
    strdup_some (.inl (cons_ne_nil _ _))
  obtain ⟨htells, heq, hsame⟩ := tells_strdup htag
  change tag = strtrim (first :: name) at heq
  subst heq
  cases hrender : renderAttrs attrs space with
  | nil =>
    have hnil : attrs = [] := by
      cases attrs with
      | nil => rfl
      | cons a attrs =>
        have hlen := congrArg List.length hrender
        simp [renderAttrs, Attr.render] at hlen
    subst hnil
    have hcend : isNameEnd c = true := by rcases hc with rfl | rfl <;> rfl
    obtain ⟨htake, hdrop⟩ := takeWhile_plain hname hcend rest
    have hstop : (Cursor.skipWhile (!isNameEnd ·) ⟨first :: before, name ++ c :: rest⟩) =
        ⟨name.reverse ++ first :: before, c :: rest⟩ := by
      rw [Cursor.skipWhile, htake, hdrop]
    refine ⟨p', ?_, htells, hsame.trans hattrs⟩
    rw [nil_append, parseName_of_cons rfl (congrArg Cursor.after hstop), htake, htag, hstop]
    have hcs : c = '>' ∨ c = '/' := hc.symm
    rw [bind_some]
    dsimp only
    rw [if_pos hcs]
    rfl
  | cons d s =>
    obtain ⟨hd, attrs', space', rfl, hok, hblank, hnames, hpairs⟩ := renderAttrs_cons h hrender
    have hdend : isNameEnd d = true := by rcases hd with rfl | rfl | rfl | rfl <;> rfl
    have hdplain : ¬(d = '>' ∨ d = '/') := by rcases hd with rfl | rfl | rfl | rfl <;> decide
    obtain ⟨htake, hdrop⟩ := takeWhile_plain hname hdend (renderAttrs attrs' space' ++ c :: rest)
    have hstop : (Cursor.skipWhile (!isNameEnd ·)
        ⟨first :: before, name ++ d :: (renderAttrs attrs' space' ++ c :: rest)⟩) =
        ⟨name.reverse ++ first :: before, d :: (renderAttrs attrs' space' ++ c :: rest)⟩ := by
      rw [Cursor.skipWhile, htake, hdrop]
    obtain ⟨p'', hloop, htells', hattrs'⟩ := attrLoop_attrs (p := { p' with attrs := [] }) hok hblank hc
      (htells.mode.trans hmode) rest (d :: (name.reverse ++ first :: before))
    rw [hnames] at htells'
    rw [hpairs, nil_append] at hattrs'
    refine ⟨p'', ?_, ?_, hattrs'⟩
    · have hrest : renderAttrs attrs' space' ++ c :: rest ≠ [] :=
        append_ne_nil_of_right_ne_nil _ (cons_ne_nil c rest)
      rw [cons_append, parseName_of_cons rfl (congrArg Cursor.after hstop), htake, htag, hstop,
        bind_some]
      dsimp only
      rw [if_neg hdplain, if_neg hrest, parseAttrs]
      dsimp only
      rw [hloop]
      simp
    · have hboth : Tells p p'' ([] ++ attrErrors [] (attrs.map Attr.name)) :=
        ⟨by rw [htells'.events]; exact congrArg (· ++ _) (htells.events.trans (append_nil _)),
          htells'.tags.trans htells.tags, htells'.trim.trans htells.trim, htells'.mode.trans htells.mode⟩
      exact hboth

/-- The rest of a start tag, from its second character on. -/
theorem parseStartTag_attrs (first : UInt8) {name : Str} (hname : ∀ c ∈ name, Plain c)
    {attrs : List Attr} {space : Str} (h : OkAttrs attrs space) (hmode : p.reportErrorMode = .always)
    (hattrs : p.attrs = []) (stop : Bool) (rest before : Str) :
    ∃ p' before', p.parseStartTag
        ⟨first :: before, name ++ (renderAttrs attrs space ++ (tagEnd stop ++ rest))⟩ =
          some (p', ⟨before', ('>' : UInt8) :: rest⟩) ∧
      Tells (if stop then p else p.pushTag (strtrim (first :: name))) p'
        (startEvents stop (strtrim (first :: name)) attrs) := by
  obtain ⟨c, cs, hend, hc⟩ : ∃ c cs, tagEnd stop ++ rest = c :: cs ∧ (c = '/' ∨ c = '>') := by
    cases stop with
    | true => exact ⟨_, _, rfl, .inl rfl⟩
    | false => exact ⟨_, _, rfl, .inr rfl⟩
  obtain ⟨p', hparse, htells, hpairs⟩ := parseName_attrs first hname h hmode hattrs hc cs before
  have htag := tells_startTag (htells.mode.trans hmode) (strtrim (first :: name)) stop
  dsimp only at htag
  rw [hpairs] at htag
  rw [parseStartTag, hend, hparse, map_some]
  dsimp only
  rw [hpairs]
  cases stop with
  | true =>
    cases hend
    exact ⟨_, _, rfl, htells.trans htag⟩
  | false =>
    cases hend
    refine ⟨_, _, rfl, ?_⟩
    have hpush : Tells (p.pushTag (strtrim (first :: name))) (p'.pushTag (strtrim (first :: name)))
        (attrErrors [] (attrs.map Attr.name)) :=
      ⟨htells.events, congrArg (_ :: ·) htells.tags, htells.trim, htells.mode⟩
    exact hpush.trans htag

end XmlParser

end Awtk.Xml
