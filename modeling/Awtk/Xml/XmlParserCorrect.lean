import Awtk.Xml.XmlParserTurns

/-!
# The events of a rendering

The parser tells a builder the tree of a rendering, whatever white space the rendering has, as
long as no CRLF is directly behind a name or a text of one character.
-/

namespace Awtk.Xml

open XmlParser Driver List

/-! ## Texts -/

theorem lineEnd_of_ne {c : UInt8} (h : c ≠ '\r') : lineEnd c = c := by
  rw [lineEnd, if_neg h]

theorem lineEnds_append {s : Str} (h : (13 : UInt8) ∉ s) (after : Str) :
    lineEnds (s ++ after) = s ++ lineEnds after := by
  induction s with
  | nil => rfl
  | cons c s ih =>
    have hc : c ≠ '\r' := fun heq => h (heq ▸ mem_cons_self)
    rw [cons_append, lineEnds_cons (not_startsCrlf hc _), lineEnd_of_ne hc,
      ih fun hmem => h (mem_cons_of_mem c hmem)]
    rfl

theorem isSpace_lineEnds {s : Str} (h : ∀ c ∈ s, isSpace c = true) :
    ∀ c ∈ lineEnds s, isSpace c = true := by
  induction s with
  | nil => exact fun c hc => by cases hc
  | cons d s ih =>
    have hs := ih fun c hc => h c (mem_cons_of_mem d hc)
    rw [lineEnds]
    split_ifs
    · exact hs
    · intro c hc
      rcases mem_cons.mp hc with rfl | hc
      · rfl
      · exact hs c hc
    · intro c hc
      rcases mem_cons.mp hc with rfl | hc
      · exact h c mem_cons_self
      · exact hs c hc

theorem received_text {s after : Str} (h : IsText s) (hafter : IsBlank after)
    (hgood : (13 : UInt8) ∉ s ∧ ¬(s.length = 1 ∧ startsCrlf after = true)) : received (s ++ after) = s := by
  obtain ⟨hcr, hcrlf⟩ := hgood
  have htrim : trim (lineEnds (s ++ after)) = s := by
    have hhead : ∃ c ∈ (s ++ lineEnds after).head?, isSpace c = false := by
      obtain ⟨c, hc, hspace⟩ := h.first
      cases s with
      | nil => cases hc
      | cons d s => exact ⟨c, hc, hspace⟩
    rw [lineEnds_append hcr, trim, dropWhile_head hhead]
    exact trim_right h.last (isSpace_lineEnds fun c hc => isSpace_of_blank hafter hc)
  cases s with
  | nil =>
    obtain ⟨c, hc, -⟩ := h.first
    cases hc
  | cons c s =>
    have hnot : ¬startsCrlf (s ++ after) = true := by
      cases s with
      | nil => exact fun hstarts => hcrlf ⟨rfl, hstarts⟩
      | cons d s =>
        refine not_startsCrlf (fun heq => hcr ?_) _
        rw [heq]
        exact mem_cons_of_mem c mem_cons_self
    rw [cons_append, received, if_neg hnot]
    exact htrim

theorem reads_gap {gap : Gap} (h : gap.Ok) (hgood : gap.Good) (rest : Str) (hrest : startsTag rest = true)
    (tags : List Str) : Reads gap.render rest tags tags gap.events := by
  cases gap with
  | blank space => exact reads_blank rest (head_startsTag hrest (by decide)) tags h
  | text space s after =>
    obtain ⟨hspace, htext, hafter⟩ := h
    have hfirst : ∃ c ∈ (s ++ after).head?, isSpace c = false := by
      obtain ⟨c, hc, hnot⟩ := htext.first
      cases s with
      | nil => cases hc
      | cons d s => exact ⟨c, hc, hnot⟩
    have hlt : ('<' : UInt8) ∉ s ++ after := by
      intro hmem
      rcases mem_append.mp hmem with hmem | hmem
      · exact htext.tag hmem
      · have hlt := isSpace_of_blank hafter hmem
        cases hlt
    have hreads := reads_text hfirst hlt hrest tags
    rw [received_text htext hafter hgood] at hreads
    refine (reads_blank _ ?_ tags hspace).append hreads
    obtain ⟨c, hc, hnot⟩ := hfirst
    cases hs : s ++ after with
    | nil => rw [hs] at hc; cases hc
    | cons d t =>
      rw [hs] at hc
      cases hc
      intro heq
      cases heq
      cases hnot

/-! ## Trees -/

theorem attrErrors_eq_nil {names : List Str} (h : ∀ name ∈ names, isValidTagName name = true) {seen : List Str}
    (hnodup : (seen ++ names).Nodup) : attrErrors seen names = [] := by
  induction names generalizing seen with
  | nil => rfl
  | cons name names ih =>
    have hnot : name ∉ seen := by
      intro hmem
      exact (nodup_append.mp hnodup).2.2 name hmem name mem_cons_self rfl
    rw [attrErrors, nameErrors, if_pos (h name mem_cons_self), if_neg hnot]
    refine ih (fun n hn => h n (mem_cons_of_mem name hn)) ?_
    rwa [append_assoc]

theorem startEvents_good {name : Str} {attrs : List Attr} {space : Str} (hname : IsName name)
    (hattrs : OkAttrs attrs space) (h : GoodStart name attrs space) (stop : Bool) :
    startEvents stop name attrs =
      .start name (attrs.map Attr.pair) :: if stop then [.stop name] else [] := by
  have hnames : ∀ n ∈ attrs.map Attr.name, isValidTagName n = true := by
    intro n hn
    obtain ⟨a, ha, rfl⟩ := List.mem_map.mp hn
    exact isValidTagName_of_good (hattrs.ok a ha).name (h.names a ha)
  rw [startEvents, attrErrors_eq_nil hnames h.nodup, isValidTagName_of_good hname h.tag]
  rfl

theorem startsTag_render {e : Elem} (h : e.Ok) (rest : Str) : startsTag (e.render ++ rest) = true := by
  cases e with
  | selfClosing name attrs space =>
    rw [Elem.Ok] at h
    obtain ⟨c, name, rfl⟩ := exists_cons_of_ne_nil h.1.1
    have hc := (ne_of_isWord (h.1.2 c mem_cons_self)).2.2
    simp [Elem.render, startsTag, hc]
  | element name attrs space items last endSpace =>
    rw [Elem.Ok] at h
    obtain ⟨c, name, rfl⟩ := exists_cons_of_ne_nil h.1.1
    have hc := (ne_of_isWord (h.1.2 c mem_cons_self)).2.2
    simp [Elem.render, startsTag, hc]

mutual

theorem reads_elem : ∀ {e : Elem}, e.Ok → e.Good → ∀ rest tags, Reads e.render rest tags tags e.events
  | .selfClosing name attrs space, hok, hgood, rest, tags => by
    rw [Elem.Ok] at hok
    rw [Elem.Good] at hgood
    have hstart := reads_startTag hok.1 hgood.tag hok.2 hgood.crlf true rest tags
    rw [startEvents_good hok.1 hok.2 hgood] at hstart
    rw [Elem.render, Elem.events]
    exact hstart
  | .element name attrs space items last endSpace, hok, hgood, rest, tags => by
    rw [Elem.Ok] at hok
    rw [Elem.Good] at hgood
    obtain ⟨hname, hattrs, hitems, hlast, hend⟩ := hok
    obtain ⟨hstart, hgoodItems, hgoodLast⟩ := hgood
    have hstop := reads_endTag hname hstart.tag hend rest tags
    have hgap := (reads_gap hlast hgoodLast (renderEnd name endSpace ++ rest) rfl
      (name :: tags)).append hstop
    have hinner := (reads_items hitems hgoodItems _ (name :: tags)).append hgap
    have houter := (reads_startTag hname hstart.tag hattrs hstart.crlf false _ tags).append hinner
    rw [startEvents_good hname hattrs hstart] at houter
    rw [Elem.render, Elem.events]
    exact houter

theorem reads_items : ∀ {items : List (Gap × Elem)}, Elem.OkItems items → Elem.GoodItems items →
    ∀ rest tags, Reads (Elem.renderItems items) rest tags tags (Elem.eventsItems items)
  | [], _, _, rest, tags => by
    rw [Elem.renderItems, Elem.eventsItems]
    exact reads_nil rest tags
  | (gap, e) :: items, hok, hgood, rest, tags => by
    rw [Elem.OkItems] at hok
    rw [Elem.GoodItems] at hgood
    obtain ⟨hgap, helem, hitems⟩ := hok
    obtain ⟨hgoodGap, hgoodElem, hgoodItems⟩ := hgood
    have htail := (reads_elem helem hgoodElem _ tags).append (reads_items hitems hgoodItems rest tags)
    have hfirst : startsTag (e.render ++ Elem.renderItems items ++ rest) = true := by
      rw [append_assoc]
      exact startsTag_render helem _
    rw [Elem.renderItems, Elem.eventsItems]
    exact (reads_gap hgap hgoodGap _ hfirst tags).append htail

end

/-! ## Documents -/

theorem ready_create : Ready (XmlParser.create true .always) [] [] := ⟨rfl, rfl, rfl, rfl⟩

/-- The parser tells the tree and no error. -/
theorem xmlParserParse_render {root : Elem} (h : root.Ok) (hgood : root.Good) {before after : Str}
    (hbefore : IsBlank before) (hafter : IsBlank after) :
    ∃ p, xmlParserParse (XmlParser.create true .always) (before ++ (root.render ++ after)) = .result p ∧
      p.events = root.events := by
  have hfirst := head_startsTag (startsTag_render h (after ++ [])) (c := 10) (by decide)
  have hroot := (reads_elem h hgood (after ++ []) []).append
    (reads_blank [] (fun hnil => by cases hnil) [] hafter)
  have hdoc := (reads_blank _ (by rwa [append_assoc]) [] hbefore).append hroot
  obtain ⟨p', before', hreach, hready⟩ := hdoc _ [] [] ready_create
  have hevents : p'.events = root.events := by simpa using hready.events
  rw [append_nil] at hreach
  have hdone : turn ⟨p', .none, ⟨before', []⟩⟩ = .done { p' with tagStack := [] } := by
    change Turn.done (checkUnclosedTags p') = _
    rw [checkUnclosedTags, hready.tags]
    rfl
  refine ⟨{ p' with tagStack := [] }, ?_, hevents⟩
  exact (Loop.run_result_iff (run_ne_running _ _)).mpr ⟨_, hreach, hdone⟩

/-- An element with a one-letter name, a line break behind it, an attribute and a text. -/
def sample : Elem :=
  .element ['a'] [⟨['\n'], ['b'], ['c', ' '], '\"'⟩] [' ']
    [(.text ['\r', '\n'] ['x', ' ', 'y'] ['\t'], .selfClosing ['d', '1'] [] ['\r', '\n'])]
    (.blank []) [' ']

theorem isName_of_all {s : Str} (hne : s ≠ []) (h : s.all isWord = true) : IsName s :=
  ⟨hne, fun c hc => List.all_eq_true.mp h c hc⟩

theorem sample_ok : sample.Ok := by
  rw [sample, Elem.Ok]
  refine ⟨isName_of_all (by decide) rfl, ⟨?_, ?_, by simp [IsBlank]⟩, ?_, by simp [Gap.Ok, IsBlank],
    by simp [IsBlank]⟩
  · intro a ha
    cases mem_singleton.mp ha
    exact ⟨by simp [IsBlank], isName_of_all (by decide) rfl, .inl rfl, by decide, by decide⟩
  · intro a ha
    cases ha
    decide
  · rw [Elem.OkItems, Elem.Ok, Elem.OkItems]
    refine ⟨⟨by simp [IsBlank], ⟨⟨_, rfl, rfl⟩, ⟨_, rfl, rfl⟩, by decide, by decide⟩, by simp [IsBlank]⟩,
      ⟨isName_of_all (by decide) rfl, ?_, ?_, by simp [IsBlank]⟩, trivial⟩
    · intro a ha
      cases ha
    · intro a ha
      cases ha

theorem sample_good : sample.Good := by
  rw [sample, Elem.Good, Elem.GoodItems, Elem.Good, Elem.GoodItems]
  refine ⟨⟨fun c hc => (by cases hc; rfl), ?_, by decide, by decide⟩,
    ⟨⟨by decide, by decide⟩, ⟨fun c hc => (by cases hc; rfl), fun a ha => (by cases ha), by decide, by decide⟩,
      trivial⟩, trivial⟩
  intro a ha
  cases mem_singleton.mp ha
  exact fun c hc => (by cases hc; rfl)

theorem xmlParserParse_render_sample :
    ∃ p, xmlParserParse (XmlParser.create true .always) (([] : Str) ++ (sample.render ++ (['\n'] : Str))) =
        .result p ∧ p.events = sample.events :=
  xmlParserParse_render sample_ok sample_good (fun c hc => by cases hc) (by simp [IsBlank])

/-- A name that starts with a digit is an error. -/
theorem digit_name_not_events :
    ¬ ∀ root : Elem, root.Ok → ∀ before after : Str, IsBlank before → IsBlank after →
      ∃ p, xmlParserParse (XmlParser.create true .always) (before ++ (root.render ++ after)) = .result p ∧
        p.events = root.events := by
  intro h
  have hok : (Elem.selfClosing ['1'] [] []).Ok := by
    rw [Elem.Ok]
    exact ⟨isName_of_all (by decide) rfl, fun a ha => (by cases ha), fun a ha => (by cases ha),
      fun c hc => (by cases hc)⟩
  obtain ⟨p, hp, hevents⟩ := h _ hok [] [] (fun c hc => by cases hc) (fun c hc => by cases hc)
  cases hp
  cases hevents

end Awtk.Xml
