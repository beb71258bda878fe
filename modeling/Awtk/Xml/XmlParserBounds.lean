import Mathlib
import Awtk.Xml.XmlParser

/-!
# The bounds of the XML parser

Every function of the parser moves the pointer forward, apart from the steps back in front
of a text, a CDATA section and a document type.  So the loop ends, and the accesses outside
of the text and the buffer are those of four kinds of input (`Driver.Bad`).
-/

namespace Awtk.Xml

open List Option

/-! ## Moving forward -/

namespace Cursor

variable {cur cur' cur'' : Cursor}

/-- The pointer moved over a part of the text. -/
def Forward (cur cur' : Cursor) : Prop :=
  ∃ w, cur.after = w ++ cur'.after ∧ cur'.before = w.reverse ++ cur.before

theorem Forward.refl (cur : Cursor) : Forward cur cur := ⟨[], rfl, rfl⟩

theorem Forward.trans (h : Forward cur cur') (h' : Forward cur' cur'') : Forward cur cur'' := by
  obtain ⟨w, hafter, hbefore⟩ := h
  obtain ⟨v, hafter', hbefore'⟩ := h'
  refine ⟨w ++ v, ?_, ?_⟩
  · rw [hafter, hafter', append_assoc]
  · rw [hbefore', hbefore, reverse_append, append_assoc]

theorem forward_cons (c : UInt8) (before after : Str) :
    Forward ⟨before, c :: after⟩ ⟨c :: before, after⟩ :=
  ⟨[c], rfl, rfl⟩

theorem forward_skipWhile (p : UInt8 → Bool) (cur : Cursor) : Forward cur (cur.skipWhile p) :=
  ⟨cur.after.takeWhile p, takeWhile_append_dropWhile.symm, rfl⟩

/-- A bound of the turns that are left. -/
def size (cur : Cursor) : Nat := 2 * cur.after.length + 4 * cur.after.count ('!' : UInt8)

theorem Forward.size_le (h : Forward cur cur') : cur'.size ≤ cur.size := by
  obtain ⟨w, hafter, -⟩ := h
  rw [size, size, hafter, length_append, count_append]
  omega

theorem size_next (h : cur.next = some cur') : cur'.size + 2 ≤ cur.size := by
  obtain ⟨before, after⟩ := cur
  cases after with
  | nil => cases h
  | cons c after =>
    cases h
    change 2 * after.length + 4 * after.count ('!' : UInt8) + 2 ≤
      2 * (c :: after).length + 4 * (c :: after).count ('!' : UInt8)
    rw [length_cons, count_cons]
    omega

theorem size_next_bang (h : cur.next = some cur') (hchar : cur.char = '!') :
    cur'.size + 6 ≤ cur.size := by
  obtain ⟨before, after⟩ := cur
  cases after with
  | nil => cases h
  | cons c after =>
    cases h
    change c = _ at hchar
    subst hchar
    change 2 * after.length + 4 * after.count ('!' : UInt8) + 6 ≤
      2 * (('!' : UInt8) :: after).length + 4 * (('!' : UInt8) :: after).count ('!' : UInt8)
    rw [length_cons, count_cons_self]
    omega

theorem prev_next (h : cur.next = some cur') : cur'.prev = some cur.char := by
  obtain ⟨before, after⟩ := cur
  cases after with
  | nil => cases h
  | cons c after =>
    cases h
    rfl

theorem before_next (h : cur.next = some cur') : cur'.before = cur.char :: cur.before := by
  obtain ⟨before, after⟩ := cur
  cases after with
  | nil => cases h
  | cons c after =>
    cases h
    rfl

end Cursor

open Cursor (Forward)

namespace XmlParser

variable {p : XmlParser} {cur cur' : Cursor}

/-! ## Attributes -/

theorem strdup_some {s : Str} {trim : Bool} (h : s ≠ [] ∨ trim = false) :
    ∃ r, p.strdup s trim = some r := by
  rw [strdup, if_neg]
  · exact ⟨_, rfl⟩
  · rintro ⟨htrim, hs, -⟩
    rcases h with h | h
    · exact h hs
    · rw [h] at htrim
      cases htrim

/-- The name of an attribute is not empty. -/
def AttrState.Named : AttrState → Prop
  | .key name | .preEqual name | .preValue name | .value name _ _ => name ≠ []
  | .preKey | .done => True

theorem named_preKeyTurn (endChar c : UInt8) : (preKeyTurn endChar c).Named := by
  rw [preKeyTurn]
  split_ifs
  · trivial
  · trivial
  · exact cons_ne_nil c []

theorem named_preValueTurn (c : UInt8) {key : Str} (p : XmlParser) (h : key ≠ []) :
    (preValueTurn c key p).1.Named := by
  rw [preValueTurn]
  split_ifs
  · exact h
  · exact h
  · exact h

theorem addAttr_some {key : Str} (p : XmlParser) (value : Str) (h : key ≠ []) :
    ∃ p', p.addAttr key value = some p' := by
  obtain ⟨⟨name, p'⟩, hname⟩ : ∃ r, p.strdup key true = some r := strdup_some (.inl h)
  obtain ⟨⟨v, p''⟩, hvalue⟩ : ∃ r, p'.strdup value false = some r := strdup_some (.inr rfl)
  refine ⟨{ p'' with attrs := p''.attrs ++ [(name, v)] }, ?_⟩
  change (p.strdup key true).bind _ = _
  rw [hname, bind_some]
  change (p'.strdup value false).bind _ = _
  rw [hvalue]
  rfl

theorem attrTurn_some (endChar c : UInt8) (p : XmlParser) {st : AttrState} (h : st.Named) :
    ∃ st' p', attrTurn endChar c p st = some (st', p') ∧ st'.Named := by
  cases st with
  | preKey => exact ⟨_, _, rfl, named_preKeyTurn endChar c⟩
  | done => exact ⟨_, _, rfl, trivial⟩
  | preValue key => exact ⟨_, _, rfl, named_preValueTurn c p h⟩
  | key key =>
    rw [attrTurn]
    split_ifs
    · exact ⟨_, _, rfl, h⟩
    · exact ⟨_, _, rfl, trivial⟩
    · exact ⟨_, _, rfl, h⟩
    · exact ⟨_, _, rfl, append_ne_nil_of_right_ne_nil _ (cons_ne_nil c [])⟩
  | preEqual key =>
    rw [attrTurn]
    split_ifs
    · exact ⟨_, _, rfl, h⟩
    · exact ⟨_, _, rfl, h⟩
    · exact ⟨_, _, rfl, named_preValueTurn c _ h⟩
    · exact ⟨_, _, rfl, named_preKeyTurn endChar c⟩
  | value key valueEnd value =>
    rw [attrTurn]
    split_ifs
    · obtain ⟨p', hp'⟩ := addAttr_some p value h
      rw [hp']
      exact ⟨_, _, rfl, named_preKeyTurn endChar c⟩
    · obtain ⟨p', hp'⟩ := addAttr_some p value h
      rw [hp']
      exact ⟨_, _, rfl, trivial⟩
    · exact ⟨_, _, rfl, h⟩

theorem AttrState.Named.keep {st : AttrState} (h : st.Named) (c : UInt8) : (st.keep c).Named := by
  cases st with
  | key key => exact append_ne_nil_of_right_ne_nil _ (cons_ne_nil c [])
  | _ => exact h

theorem attrLoop_some (endChar : UInt8) {after before : Str} {st : AttrState} {p : XmlParser}
    (h : st.Named) :
    ∃ p' cur, attrLoop endChar after before st p = some (p', cur) ∧ Forward ⟨before, after⟩ cur := by
  induction after generalizing before st p with
  | nil => exact ⟨p, ⟨before, []⟩, rfl, .refl _⟩
  | cons c after ih =>
    rw [attrLoop]
    by_cases hnl : c = '\n' ∨ c = '\r'
    · rw [if_pos hnl]
      obtain ⟨p', cur, hloop, hforward⟩ := ih (h.keep c)
      exact ⟨p', cur, hloop, (Cursor.forward_cons c before after).trans hforward⟩
    · rw [if_neg hnl]
      obtain ⟨st', p', hturn, hnamed⟩ := attrTurn_some endChar c p h
      rw [hturn, bind_some]
      dsimp only
      split_ifs with hdone
      · exact ⟨_, _, rfl, .refl _⟩
      · obtain ⟨p'', cur, hloop, hforward⟩ := ih hnamed
        exact ⟨p'', cur, hloop, (Cursor.forward_cons c before after).trans hforward⟩

theorem parseAttrs_some (p : XmlParser) (endChar : UInt8) (cur : Cursor) :
    ∃ p' cur', p.parseAttrs endChar cur = some (p', cur') ∧ Forward cur cur' :=
  attrLoop_some endChar trivial

/-! ## Tags, instructions and comments -/

/-- A function has no result exactly under a condition, and else it moves the pointer forward. -/
def Goes (x : Option (XmlParser × Cursor)) (cur : Cursor) (bad : Prop) : Prop :=
  (bad ∧ x = none) ∨ (¬bad ∧ ∃ p' cur', x = some (p', cur') ∧ Forward cur cur')

theorem forward_of_skipWhile {q : UInt8 → Bool} {c : UInt8} {after : Str}
    (h : (cur.skipWhile q).after = c :: after) : Forward cur ⟨c :: (cur.skipWhile q).before, after⟩ := by
  have hskip := Cursor.forward_skipWhile q cur
  have hcons := Cursor.forward_cons c (cur.skipWhile q).before after
  rw [← h] at hcons
  exact hskip.trans hcons

theorem parseName_of_nil {first : UInt8} (hfirst : cur.prev = some first)
    (hstop : (cur.skipWhile (!isNameEnd ·)).after = []) :
    p.parseName cur = p.buffer.map fun tag => (tag, p, cur.skipWhile (!isNameEnd ·)) := by
  simp only [parseName, hfirst, bind_some, hstop]

theorem parseName_of_cons {first c : UInt8} {after : Str} (hfirst : cur.prev = some first)
    (hstop : (cur.skipWhile (!isNameEnd ·)).after = c :: after) :
    p.parseName cur =
      (p.strdup (first :: cur.after.takeWhile (!isNameEnd ·)) true).bind fun (tag, p) =>
        if c = '>' ∨ c = '/' then some (tag, p, cur.skipWhile (!isNameEnd ·))
        else if after = [] then some (tag, p, ⟨c :: (cur.skipWhile (!isNameEnd ·)).before, []⟩)
        else (p.parseAttrs '/' ⟨c :: (cur.skipWhile (!isNameEnd ·)).before, after⟩).map
          fun (p, cur) => (tag, p, cur) := by
  simp only [parseName, hfirst, bind_some, hstop]

theorem parseName_goes (hprev : cur.prev ≠ none) :
    (p.buffer = none ∧ (∀ c ∈ cur.after, isNameEnd c = false) ∧ p.parseName cur = none) ∨
      (¬(p.buffer = none ∧ ∀ c ∈ cur.after, isNameEnd c = false) ∧
        ∃ tag p' cur', p.parseName cur = some (tag, p', cur') ∧ Forward cur cur') := by
  obtain ⟨first, hfirst⟩ := ne_none_iff_exists'.mp hprev
  have hskip := Cursor.forward_skipWhile (!isNameEnd ·) cur
  cases hstop : (cur.skipWhile (!isNameEnd ·)).after with
  | nil =>
    rw [parseName_of_nil hfirst hstop]
    have hall : ∀ c ∈ cur.after, isNameEnd c = false := fun c hc =>
      Bool.not_eq_true' _ |>.mp (dropWhile_eq_nil_iff.mp hstop c hc)
    cases hbuffer : p.buffer with
    | none => exact .inl ⟨rfl, hall, rfl⟩
    | some tag => exact .inr ⟨fun h => (by cases h.1), tag, p, _, rfl, hskip⟩
  | cons c after =>
    rw [parseName_of_cons hfirst hstop]
    have hnot : ¬(p.buffer = none ∧ ∀ c ∈ cur.after, isNameEnd c = false) := by
      rintro ⟨-, hall⟩
      have hnil : (cur.skipWhile (!isNameEnd ·)).after = [] :=
        dropWhile_eq_nil_iff.mpr fun c hc => congrArg (! ·) (hall c hc)
      rw [hstop] at hnil
      cases hnil
    have hforward := forward_of_skipWhile hstop
    obtain ⟨⟨tag, p'⟩, htag⟩ :
        ∃ r, p.strdup (first :: cur.after.takeWhile (!isNameEnd ·)) true = some r :=
      strdup_some (.inl (cons_ne_nil _ _))
    rw [htag, bind_some]
    refine .inr ⟨hnot, ?_⟩
    dsimp only
    split_ifs with hend hnil
    · exact ⟨_, _, _, rfl, hskip⟩
    · subst hnil
      exact ⟨_, _, _, rfl, hforward⟩
    · obtain ⟨p'', cur', hattrs, hforward'⟩ := parseAttrs_some p' '/'
        ⟨c :: (cur.skipWhile (!isNameEnd ·)).before, after⟩
      rw [hattrs]
      exact ⟨_, _, _, rfl, hforward.trans hforward'⟩

theorem parseStartTag_goes (hprev : cur.prev ≠ none) :
    Goes (p.parseStartTag cur) cur (p.buffer = none ∧ ∀ c ∈ cur.after, isNameEnd c = false) := by
  rcases parseName_goes (p := p) hprev with ⟨hbuffer, hall, hnone⟩ | ⟨hnot, tag, p', cur', hsome, hforward⟩
  · rw [parseStartTag, hnone]
    exact .inl ⟨⟨hbuffer, hall⟩, rfl⟩
  · rw [parseStartTag, hsome]
    exact .inr ⟨hnot, _, _, rfl, hforward.trans (Cursor.forward_skipWhile _ cur')⟩

/-- An end tag that is blank. -/
def Blank (after : Str) : Prop :=
  ∃ name rest, after = name ++ ('>' : UInt8) :: rest ∧ name ≠ [] ∧ ∀ c ∈ name, isSpace c = true

theorem trimmed_eq_nil {s : Str} :
    (s.reverse.dropWhile isSpace).reverse = [] ↔ ∀ c ∈ s, isSpace c = true := by
  rw [reverse_eq_nil_iff, dropWhile_eq_nil_iff]
  simp only [mem_reverse]

theorem takeWhile_blank {name : Str} (h : ∀ c ∈ name, isSpace c = true) (rest : Str) :
    (name ++ ('>' : UInt8) :: rest).takeWhile (fun c => decide (c ≠ ('>' : UInt8))) = name ∧
      (name ++ ('>' : UInt8) :: rest).dropWhile (fun c => decide (c ≠ ('>' : UInt8))) =
        ('>' : UInt8) :: rest := by
  have hname : ∀ c ∈ name, decide (c ≠ ('>' : UInt8)) = true := by
    intro c hc
    have hspace := h c hc
    refine decide_eq_true fun heq => ?_
    rw [heq] at hspace
    cases hspace
  rw [takeWhile_append_of_pos hname, dropWhile_append_of_pos hname]
  exact ⟨append_nil name, rfl⟩

theorem parseEndTag_goes (hused : p.bufferUsed = 0) :
    Goes (p.parseEndTag cur) cur (Blank cur.after) := by
  have hforward := Cursor.forward_skipWhile (fun c => decide (c ≠ ('>' : UInt8))) cur
  by_cases hblank : Blank cur.after
  · obtain ⟨name, rest, hafter, hne, hspace⟩ := hblank
    obtain ⟨htake, hdrop⟩ := takeWhile_blank hspace rest
    refine .inl ⟨⟨name, rest, hafter, hne, hspace⟩, ?_⟩
    rw [parseEndTag, Cursor.skipWhile, hafter, htake, hdrop, if_neg (cons_ne_nil _ _), if_neg hne,
      trimmed_eq_nil.mpr hspace, strdup, if_pos ⟨rfl, rfl, hused⟩]
    rfl
  · refine .inr ⟨hblank, ?_⟩
    rw [parseEndTag]
    dsimp only
    by_cases hend : (cur.skipWhile (fun c => decide (c ≠ ('>' : UInt8)))).after = []
    · rw [if_pos hend]
      exact ⟨_, _, rfl, hforward⟩
    · rw [if_neg hend]
      split_ifs with hname
      · exact ⟨_, _, rfl, hforward⟩
      · obtain ⟨⟨tag, p'⟩, htag⟩ : ∃ r, p.strdup ((cur.after.takeWhile
            (fun c => decide (c ≠ ('>' : UInt8)))).reverse.dropWhile isSpace).reverse true = some r := by
          refine strdup_some (.inl fun hnil => hblank ?_)
          obtain ⟨c, rest, hrest⟩ := exists_cons_of_ne_nil hend
          have hc : decide (c ≠ ('>' : UInt8)) = false := by
            have hhead := head_dropWhile_not (fun c => decide (c ≠ ('>' : UInt8))) hend
            change cur.after.dropWhile (fun c => decide (c ≠ ('>' : UInt8))) = c :: rest at hrest
            simpa only [hrest, head_cons] using hhead
          have hafter : cur.after = cur.after.takeWhile (fun c => decide (c ≠ ('>' : UInt8))) ++ c :: rest := by
            rw [← hrest]
            exact takeWhile_append_dropWhile.symm
          rw [decide_eq_false_iff_not, not_not] at hc
          rw [hc] at hafter
          exact ⟨_, rest, hafter, hname, trimmed_eq_nil.mp hnil⟩
        rw [htag]
        exact ⟨_, _, rfl, hforward⟩

/-- An instruction without a name. -/
def Nameless (after : Str) : Prop := ∃ c rest, after = c :: rest ∧ isPiNameEnd c = true

theorem parsePiName_goes (hused : p.bufferUsed = 0) :
    (Nameless cur.after ∧ p.parsePiName cur = none) ∨
      (¬Nameless cur.after ∧
        ∃ tag p' cur', p.parsePiName cur = some (tag, p', cur') ∧ Forward cur cur') := by
  rw [parsePiName]
  dsimp only
  cases hstop : (cur.skipWhile (!isPiNameEnd ·)).after with
  | nil =>
    refine .inr ⟨?_, _, _, _, rfl, Cursor.forward_skipWhile _ cur⟩
    rintro ⟨c, rest, hafter, hc⟩
    have hall := dropWhile_eq_nil_iff.mp hstop c (by rw [hafter]; exact mem_cons_self)
    rw [hc] at hall
    cases hall
  | cons c after =>
    have hforward := forward_of_skipWhile hstop
    dsimp only
    by_cases hname : cur.after.takeWhile (!isPiNameEnd ·) = []
    · have hafter : cur.after = c :: after := by
        have hsplit := @takeWhile_append_dropWhile _ (!isPiNameEnd ·) cur.after
        rw [hname] at hsplit
        exact hsplit.symm.trans hstop
      have hc : isPiNameEnd c = true := by
        rw [hafter, takeWhile_cons] at hname
        cases hend : isPiNameEnd c with
        | true => rfl
        | false =>
          rw [hend] at hname
          cases hname
      refine .inl ⟨⟨c, after, hafter, hc⟩, ?_⟩
      rw [hname, strdup, if_pos ⟨rfl, rfl, hused⟩]
      rfl
    · obtain ⟨⟨tag, p'⟩, htag⟩ : ∃ r, p.strdup (cur.after.takeWhile (!isPiNameEnd ·)) true = some r :=
        strdup_some (.inl hname)
      rw [htag, bind_some]
      dsimp only
      refine .inr ⟨?_, ?_⟩
      · rintro ⟨d, rest, hafter, hd⟩
        rw [hafter, takeWhile_cons, hd] at hname
        exact hname rfl
      · have hskip := Cursor.forward_skipWhile (fun c => decide (c = ('\n' : UInt8) ∨ c = ('\r' : UInt8)))
          ⟨c :: (cur.skipWhile (!isPiNameEnd ·)).before, after⟩
        split_ifs
        · exact ⟨_, _, _, rfl, Cursor.forward_skipWhile _ cur⟩
        · exact ⟨_, _, _, rfl, hforward.trans hskip⟩
        · obtain ⟨p'', cur', hattrs, hforward'⟩ := parseAttrs_some
            (p'.check (decide (cur.after.takeWhile (!isPiNameEnd ·) = [] ∨
              isValidTagName (cur.after.takeWhile (!isPiNameEnd ·)) = true))
              (.invalidPiName (cur.after.takeWhile (!isPiNameEnd ·)))) '?'
            ((⟨c :: (cur.skipWhile (!isPiNameEnd ·)).before, after⟩ : Cursor).skipWhile
              fun c => decide (c = ('\n' : UInt8) ∨ c = ('\r' : UInt8)))
          rw [hattrs]
          exact ⟨_, _, _, rfl, (hforward.trans hskip).trans hforward'⟩

theorem parsePiEnd_forward (p : XmlParser) (cur : Cursor) : Forward cur (p.parsePiEnd cur).2.2 := by
  obtain ⟨before, after⟩ := cur
  cases after with
  | nil => exact .refl _
  | cons c after =>
    rw [parsePiEnd]
    by_cases hc : c = '?'
    · simp only [if_pos hc]
      exact Cursor.forward_cons c before after
    · simp only [if_neg hc]
      exact .refl _

theorem parsePi_goes (hused : p.bufferUsed = 0) : Goes (p.parsePi cur) cur (Nameless cur.after) := by
  rcases @parsePiName_goes p cur hused with ⟨hbad, hnone⟩ | ⟨hnot, tag, p', cur', hsome, hforward⟩
  · rw [parsePi, hnone]
    exact .inl ⟨hbad, rfl⟩
  · rw [parsePi, hsome]
    refine .inr ⟨hnot, _, _, rfl, ?_⟩
    exact (hforward.trans (parsePiEnd_forward p' cur')).trans (Cursor.forward_skipWhile _ _)

theorem commentLoop_forward (after before : Str) (st : CommentState) (text : Str) :
    Forward ⟨before, after⟩ (commentLoop after before st text).2 := by
  induction after generalizing before st text with
  | nil => exact .refl _
  | cons c after ih =>
    have hcons := Cursor.forward_cons c before after
    unfold commentLoop
    by_cases hnl : c = '\n' ∨ c = '\r'
    · rw [if_pos hnl]
      exact hcons.trans (ih _ _ _)
    · rw [if_neg hnl]
      cases st with
      | comment => exact hcons.trans (ih _ _ _)
      | minus1 => exact hcons.trans (ih _ _ _)
      | minus2 =>
        dsimp only
        by_cases hc : c = '>'
        · rw [if_pos hc]
          exact .refl _
        · rw [if_neg hc]
          exact hcons.trans (ih _ _ _)

theorem parseComment_goes (hcur : cur.after ≠ []) : Goes (p.parseComment cur) cur False := by
  obtain ⟨before, after⟩ := cur
  cases after with
  | nil => exact absurd rfl hcur
  | cons c after =>
    refine .inr ⟨id, ?_⟩
    have hforward := (Cursor.forward_cons c before after).trans
      (commentLoop_forward after (c :: before) .comment [])
    rw [parseComment, Cursor.next, map_some]
    cases hloop : commentLoop after (c :: before) .comment [] with
    | mk text cur' =>
      rw [hloop] at hforward
      cases text with
      | none => exact ⟨_, _, rfl, hforward⟩
      | some text => exact ⟨_, _, rfl, hforward⟩

/-! ## Text -/

theorem cdata_split {s data : Str} (h : cdata s = some data) : ∃ rest, s = data ++ cdataEnd ++ rest := by
  induction s generalizing data with
  | nil => cases h
  | cons c s ih =>
    rw [cdata] at h
    by_cases hend : cdataEnd.isPrefixOf (c :: s) = true
    · rw [if_pos hend] at h
      cases h
      obtain ⟨rest, hrest⟩ := isPrefixOf_iff_prefix.mp hend
      exact ⟨rest, hrest.symm⟩
    · rw [if_neg hend] at h
      obtain ⟨data, hdata, rfl⟩ := map_eq_some_iff.mp h
      obtain ⟨rest, rfl⟩ := ih hdata
      exact ⟨rest, rfl⟩

theorem isPrefixOf_append {s : Str} (h : cdataEnd.length ≤ s.length) (t : Str) :
    cdataEnd.isPrefixOf (s ++ t) = cdataEnd.isPrefixOf s := by
  rw [Bool.eq_iff_iff, isPrefixOf_iff_prefix, isPrefixOf_iff_prefix]
  constructor
  · intro hpre
    exact prefix_of_prefix_length_le hpre (prefix_append s t) h
  · intro hpre
    exact hpre.trans (prefix_append s t)

theorem cdata_append {s data : Str} (h : cdata s = some data) (t : Str) : cdata (s ++ t) = some data := by
  induction s generalizing data with
  | nil => cases h
  | cons c s ih =>
    have hlen : cdataEnd.length ≤ (c :: s).length := by
      obtain ⟨rest, hrest⟩ := cdata_split h
      rw [hrest, append_assoc, length_append, length_append]
      omega
    have hiff : cdataEnd.isPrefixOf (c :: (s ++ t)) = cdataEnd.isPrefixOf (c :: s) :=
      isPrefixOf_append hlen t
    rw [cdata] at h
    rw [cons_append, cdata, hiff]
    by_cases hend : cdataEnd.isPrefixOf (c :: s) = true
    · rw [if_pos hend] at h ⊢
      exact h
    · rw [if_neg hend] at h ⊢
      obtain ⟨data, hdata, rfl⟩ := map_eq_some_iff.mp h
      rw [ih hdata]
      rfl

theorem cdata_first {data t : Str} (h : cdata (data ++ cdataEnd ++ t) = some data) :
    cdata (data ++ cdataEnd) = some data := by
  induction data with
  | nil => rfl
  | cons c data ih =>
    have hlen : cdataEnd.length ≤ (c :: (data ++ cdataEnd)).length := by
      rw [length_cons, length_append]
      omega
    have hiff : cdataEnd.isPrefixOf (c :: (data ++ cdataEnd ++ t)) =
        cdataEnd.isPrefixOf (c :: (data ++ cdataEnd)) := isPrefixOf_append hlen t
    rw [cons_append, cons_append, cdata, hiff] at h
    rw [cons_append, cdata]
    by_cases hend : cdataEnd.isPrefixOf (c :: (data ++ cdataEnd)) = true
    · rw [if_pos hend] at h
      cases h
    · rw [if_neg hend] at h ⊢
      obtain ⟨data', hdata, heq⟩ := map_eq_some_iff.mp h
      injection heq with _ heq
      subst heq
      rw [ih hdata]
      rfl

/-- Characters and closed CDATA sections. -/
inductive TextPart : Str → Prop where
  | nil : TextPart []
  | char {c : UInt8} {s : Str} : c ≠ '<' → TextPart s → TextPart (c :: s)
  | section {data s : Str} : cdata (data ++ cdataEnd) = some data → TextPart s →
      TextPart (cdataStart ++ (data ++ cdataEnd) ++ s)

/-- A CDATA section of a text is not closed. -/
def OpenCdata (s : Str) : Prop :=
  ∃ part rest, s = part ++ (cdataStart ++ rest) ∧ TextPart part ∧ cdata rest = none

theorem openCdata_cons {c : UInt8} (hc : c ≠ '<') (s : Str) : OpenCdata (c :: s) ↔ OpenCdata s := by
  constructor
  · rintro ⟨part, rest, hs, hpart, hrest⟩
    cases hpart with
    | nil =>
      injection hs with hs
      exact absurd hs hc
    | char _ hpart =>
      injection hs with _ hs
      exact ⟨_, rest, hs, hpart, hrest⟩
    | «section» _ _ =>
      injection hs with hs
      exact absurd hs hc
  · rintro ⟨part, rest, rfl, hpart, hrest⟩
    exact ⟨c :: part, rest, rfl, .char hc hpart, hrest⟩

theorem openCdata_start {s data rest : Str} (hs : s = data ++ cdataEnd ++ rest)
    (hdata : cdata s = some data) : OpenCdata (cdataStart ++ s) ↔ OpenCdata rest := by
  have hfirst : cdata (data ++ cdataEnd) = some data := cdata_first (by rw [← hs]; exact hdata)
  constructor
  · rintro ⟨part, rest', hs', hpart, hrest'⟩
    cases hpart with
    | nil =>
      rw [nil_append, append_cancel_left_eq] at hs'
      rw [hs', hrest'] at hdata
      cases hdata
    | char hc _ =>
      injection hs' with hs'
      exact absurd hs'.symm hc
    | @«section» data' part hdata' hpart =>
      rw [append_assoc, append_assoc, append_cancel_left_eq] at hs'
      have hsame : cdata s = some data' := by
        rw [hs']
        exact cdata_append hdata' _
      rw [hdata] at hsame
      cases hsame
      rw [hs, append_cancel_left_eq] at hs'
      exact ⟨part, rest', hs', hpart, hrest'⟩
  · rintro ⟨part, rest', rfl, hpart, hrest'⟩
    refine ⟨cdataStart ++ (data ++ cdataEnd) ++ part, rest', ?_, .section hfirst hpart, hrest'⟩
    rw [hs]
    simp only [append_assoc]

theorem openCdata_none {s : Str} (h : cdata s = none) : OpenCdata (cdataStart ++ s) :=
  ⟨[], s, rfl, .nil, h⟩

theorem not_openCdata {c : UInt8} {s : Str} (hc : c = '<') (h : ¬cdataStart <+: c :: s) :
    ¬OpenCdata (c :: s) := by
  rintro ⟨part, rest, hs, hpart, hrest⟩
  cases hpart with
  | nil => exact h ⟨rest, hs.symm⟩
  | char hd _ =>
    injection hs with hs
    exact hd (hs.symm.trans hc)
  | @«section» data part _ _ =>
    refine h ⟨data ++ (cdataEnd ++ (part ++ (cdataStart ++ rest))), ?_⟩
    rw [hs]
    simp only [append_assoc]

theorem textLoop_skip (w after before s : Str) :
    textLoop (w ++ after) before w.length s = textLoop after (w.reverse ++ before) 0 s := by
  induction w generalizing before with
  | nil => rfl
  | cons c w ih =>
    rw [cons_append, length_cons, textLoop, ih, reverse_cons, append_assoc]
    rfl

/-- Where a text ends: at the end of all, or in front of the tag that is behind it. -/
def TextEnd (cur cur' : Cursor) : Prop :=
  cur'.after = [] ∨ ∃ before c after, cur'.next = some ⟨before, c :: after⟩ ∧
    Forward cur ⟨before, c :: after⟩ ∧ c = '<' ∧ ¬cdataStart <+: c :: after

theorem TextEnd.of_forward {cur cur' cur'' : Cursor} (h : Forward cur cur')
    (h' : TextEnd cur' cur'') : TextEnd cur cur'' := by
  rcases h' with hend | ⟨before, c, after, hnext, hforward, htag⟩
  · exact .inl hend
  · exact .inr ⟨before, c, after, hnext, h.trans hforward, htag⟩

/-- There is no result exactly if a CDATA section of the text is not closed. -/
def TextGoes (after before : Str) (x : Option (Str × Cursor)) : Prop :=
  (OpenCdata after ∧ x = none) ∨
    (¬OpenCdata after ∧ ∃ s cur, x = some (s, cur) ∧ TextEnd ⟨before, after⟩ cur)

theorem TextGoes.of_tail {w rest before : Str} {x : Option (Str × Cursor)}
    (hopen : OpenCdata (w ++ rest) ↔ OpenCdata rest) (h : TextGoes rest (w.reverse ++ before) x) :
    TextGoes (w ++ rest) before x := by
  rcases h with ⟨hbad, hx⟩ | ⟨hnot, s, cur, hx, hend⟩
  · exact .inl ⟨hopen.mpr hbad, hx⟩
  · exact .inr ⟨mt hopen.mp hnot, s, cur, hx, .of_forward ⟨w, rfl, rfl⟩ hend⟩

theorem not_openCdata_nil : ¬OpenCdata [] := by
  rintro ⟨part, rest, hs, -, -⟩
  have hnil := (append_eq_nil_iff.mp (append_eq_nil_iff.mp hs.symm).2).1
  cases hnil

/-- The loop, by the length of the text. -/
theorem textLoop_goes (n : Nat) {after before : Str} (hn : after.length ≤ n)
    (hbefore : before = [] → after.head? = some (60 : UInt8) → cdataStart <+: after) (s : Str) :
    TextGoes after before (textLoop after before 0 s) := by
  induction n generalizing after before s with
  | zero =>
    rw [Nat.le_zero, length_eq_zero_iff] at hn
    subst hn
    exact .inr ⟨not_openCdata_nil, s, _, rfl, .inl rfl⟩
  | succ n ih =>
    cases after with
    | nil => exact .inr ⟨not_openCdata_nil, s, _, rfl, .inl rfl⟩
    | cons c after =>
      rw [length_cons] at hn
      rw [textLoop]
      by_cases hcrlf : c = '\r' ∧ after.head? = some (10 : UInt8)
      · obtain ⟨rfl, hlf⟩ := hcrlf
        rw [if_pos ⟨rfl, hlf⟩]
        obtain ⟨rest, rfl⟩ : ∃ rest, after = (10 : UInt8) :: rest := by
          cases after with
          | nil => cases hlf
          | cons d rest => cases hlf; exact ⟨rest, rfl⟩
        have hskip := textLoop_skip [10] rest ('\r' :: before) (s ++ (['\n'] : Str))
        rw [length_cons] at hn
        refine @TextGoes.of_tail ['\r', 10] rest before _ ?_ ?_
        · rw [cons_append, cons_append, openCdata_cons (by decide), openCdata_cons (by decide)]
          rfl
        · exact hskip ▸ ih (by omega) (fun hnil => by cases hnil) _
      · rw [if_neg hcrlf]
        by_cases hnl : c = '\n' ∨ c = '\r'
        · have hc : c ≠ '<' := by rcases hnl with rfl | rfl <;> decide
          rw [if_pos hnl]
          exact @TextGoes.of_tail [c] after before _ (openCdata_cons hc after)
            (ih (by omega) (fun hnil => by cases hnil) _)
        · rw [if_neg hnl]
          by_cases hc : c = '<'
          · rw [if_pos hc]
            by_cases hpre : cdataStart.isPrefixOf (c :: after) = true
            · obtain ⟨t, ht⟩ := isPrefixOf_iff_prefix.mp hpre
              rw [if_pos hpre]
              have hdrop : after.drop 8 = t := by
                injection ht with _ ht
                rw [← ht]
                rfl
              rw [hdrop]
              cases hdata : cdata t with
              | none =>
                rw [← ht]
                exact .inl ⟨openCdata_none hdata, rfl⟩
              | some data =>
                obtain ⟨rest, rfl⟩ := cdata_split hdata
                have hafter : after = cdataStart.tail ++ (data ++ cdataEnd) ++ rest := by
                  injection ht with _ ht
                  rw [← ht]
                  simp only [append_assoc]
                  rfl
                have hlen : (cdataStart.tail ++ (data ++ cdataEnd)).length = 8 + data.length + 3 := by
                  rw [length_append, length_append, ← Nat.add_assoc]
                  rfl
                have hskip := textLoop_skip (cdataStart.tail ++ (data ++ cdataEnd)) rest (c :: before)
                  (s ++ data)
                rw [← hafter, hlen] at hskip
                rw [hafter, length_append, hlen] at hn
                have hgoes : TextGoes rest ((cdataStart.tail ++ (data ++ cdataEnd)).reverse ++ c :: before)
                    (textLoop rest ((cdataStart.tail ++ (data ++ cdataEnd)).reverse ++ c :: before) 0
                      (s ++ data)) :=
                  ih (by omega) (fun hnil => absurd (append_eq_nil_iff.mp hnil).2
                    (cons_ne_nil _ _)) _
                rw [← hskip] at hgoes
                have hwhole : c :: after = cdataStart ++ (data ++ cdataEnd) ++ rest := by
                  rw [← ht]
                  simp only [append_assoc]
                have hbefore' : (cdataStart ++ (data ++ cdataEnd)).reverse ++ before =
                    (cdataStart.tail ++ (data ++ cdataEnd)).reverse ++ c :: before := by
                  have hstart : cdataStart = c :: cdataStart.tail := by rw [hc]; rfl
                  rw [hstart]
                  simp
                rw [hwhole]
                refine TextGoes.of_tail ?_ ?_
                · rw [append_assoc]
                  exact openCdata_start rfl hdata
                · rw [hbefore']
                  exact hgoes
            · rw [if_neg hpre]
              rw [ isPrefixOf_iff_prefix] at hpre
              obtain ⟨d, before', rfl⟩ : ∃ d before', before = d :: before' :=
                exists_cons_of_ne_nil fun hnil => hpre (hbefore hnil (by rw [hc]; rfl))
              exact .inr ⟨not_openCdata hc hpre, s, _, rfl,
                .inr ⟨d :: before', c, after, rfl, .refl _, hc, hpre⟩⟩
          · rw [if_neg hc]
            exact @TextGoes.of_tail [c] after before _ (openCdata_cons hc after)
              (ih (by omega) (fun hnil => by cases hnil) _)

end XmlParser

open XmlParser

namespace Driver

/-! ## One turn -/

/-- What makes the parser access memory outside: a CDATA section that is not closed, a start
tag that the text ends in while nothing was copied to the buffer, a blank end tag, and an
instruction without a name. -/
def BadAt (c : UInt8) (p : XmlParser) (cur : Cursor) : State → Prop
  | .text => ∃ x before, cur.before = x :: before ∧ OpenCdata (x :: cur.after)
  | .preComment1 => c = '[' ∧ cdataStart.drop 2 <+: cur.after ∧
      ∃ x y before, cur.before = y :: x :: before ∧ OpenCdata (x :: y :: cur.after)
  | .startTag => p.buffer = none ∧ ∀ c ∈ cur.after, isNameEnd c = false
  | .endTag => Blank cur.after
  | .processInstruction => Nameless cur.after
  | _ => False

/-- The condition on the state in front of a turn. -/
def Bad (d : Driver) : Prop :=
  match d.cur.after with
  | [] => False
  | c :: after => BadAt c d.parser (newline c d.cur.before after) d.state

/-- What is in front of the pointer, and the buffer is empty inside of a tag. -/
structure Inv (d : Driver) : Prop where
  unused : d.state ≠ .none → d.state ≠ .text → d.parser.bufferUsed = 0
  started : d.state ≠ .none → d.cur.before ≠ []
  text : d.state = .text → d.cur.prev ≠ some (60 : UInt8)
  bang : d.state = .preComment1 → ∃ u v, d.cur.before = u ++ (33 : UInt8) :: v ∧ v ≠ []

/-- The first character of a text and the start of a CDATA section are read again. -/
def rank : State → Nat
  | .preComment1 => 5
  | .text | .doctype => 1
  | _ => 0

def measure (d : Driver) : Nat := d.cur.size + rank d.state

/-- A step of the `switch`: it has no result exactly under a condition, and else the loop
goes on with less than before. -/
def Advances (x : Option Driver) (m : Nat) (bad : Prop) : Prop :=
  (bad ∧ x = none) ∨ (¬bad ∧ ∃ d, x = some d ∧
    ∀ cur, d.cur.next = some cur → Inv { d with cur := cur } ∧ measure { d with cur := cur } < m)

variable {p : XmlParser} {cur : Cursor} {c : UInt8} {m : Nat} {bad : Prop}

theorem inv_none (p : XmlParser) (cur : Cursor) : Inv ⟨p, .none, cur⟩ :=
  ⟨fun h => absurd rfl h, fun h => absurd rfl h, fun h => (by cases h), fun h => (by cases h)⟩

theorem advances_toNone {x : Option (XmlParser × Cursor)} (h : Goes x cur bad) (hm : cur.size ≤ m) :
    Advances (toNone x) m bad := by
  rcases h with ⟨hbad, rfl⟩ | ⟨hnot, p', cur', rfl, hforward⟩
  · exact .inl ⟨hbad, rfl⟩
  · refine .inr ⟨hnot, ⟨p', .none, cur'⟩, rfl, fun cur'' hnext => ⟨inv_none _ _, ?_⟩⟩
    change cur'.next = some cur'' at hnext
    have hsize := hforward.size_le
    have hsize' := Cursor.size_next hnext
    change cur''.size + 0 < m
    omega

theorem advances_some {st : State} (hused : p.bufferUsed = 0) (htext : st ≠ .text)
    (hpre : st ≠ .preComment1) {cur' : Cursor} (hforward : Forward cur cur')
    (hm : cur.size ≤ m) : Advances (some ⟨p, st, cur'⟩) m False := by
  refine .inr ⟨id, _, rfl, fun cur'' hnext => ⟨⟨fun _ _ => hused, fun _ => ?_, fun h => absurd h htext,
    fun h => absurd h hpre⟩, ?_⟩⟩
  · rw [Cursor.before_next hnext]
    exact cons_ne_nil _ _
  · change cur'.next = some cur'' at hnext
    have hsize := hforward.size_le
    have hsize' := Cursor.size_next hnext
    have hrank : rank st ≤ 1 := by
      cases st with
      | preComment1 => exact absurd rfl hpre
      | text => exact Nat.le_refl 1
      | doctype => exact Nat.le_refl 1
      | _ => exact Nat.zero_le 1
    change cur''.size + rank st < m
    omega

@[simp] theorem bufferUsed_report (p : XmlParser) (e : Error) : (p.report e).bufferUsed = p.bufferUsed := by
  rw [report]
  split <;> rfl

@[simp] theorem bufferUsed_check (p : XmlParser) (ok : Bool) (e : Error) :
    (p.check ok e).bufferUsed = p.bufferUsed := by
  cases ok
  · exact bufferUsed_report p e
  · rfl

theorem advances_none (hc : cur.char = c ∨ isSpace c = true ∧ isSpace cur.char = true)
    (hm : cur.size ≤ m) : Advances (handle c p cur .none) m False := by
  rw [handle]
  by_cases hlt : c = '<'
  · rw [if_pos hlt]
    exact advances_some rfl (by decide) (by decide) (.refl cur) hm
  · rw [if_neg hlt]
    split_ifs with htext
    · refine .inr ⟨id, _, rfl, fun cur' hnext => ⟨⟨fun _ h => absurd rfl h, fun _ => ?_, fun _ => ?_,
        fun h => by cases h⟩, ?_⟩⟩
      · rw [Cursor.before_next hnext]
        exact cons_ne_nil _ _
      · rw [Cursor.prev_next hnext]
        intro heq
        injection heq with heq
        rcases hc with hc | ⟨-, hspace⟩
        · exact hlt (hc.symm.trans heq)
        · rw [heq] at hspace
          cases hspace
      · change cur.next = some cur' at hnext
        have hsize := Cursor.size_next hnext
        change cur'.size + 1 < m
        omega
    · refine .inr ⟨id, _, rfl, fun cur' hnext => ⟨inv_none _ _, ?_⟩⟩
      change cur.next = some cur' at hnext
      have hsize := Cursor.size_next hnext
      change cur'.size + 0 < m
      omega

theorem advances_afterLt (hused : p.bufferUsed = 0) (hbefore : cur.before ≠ []) (hm : cur.size ≤ m) :
    Advances (some (afterLt p cur)) m False := by
  have hforward := Cursor.forward_skipWhile isSpace cur
  rw [afterLt]
  by_cases hpi : (cur.skipWhile isSpace).char = '?'
  · rw [if_pos hpi]
    exact advances_some hused (by decide) (by decide) hforward hm
  · rw [if_neg hpi]
    by_cases hend : (cur.skipWhile isSpace).char = '/'
    · rw [if_pos hend]
      exact advances_some hused (by decide) (by decide) hforward hm
    · rw [if_neg hend]
      by_cases hbang : (cur.skipWhile isSpace).char = '!'
      · rw [if_pos hbang]
        refine .inr ⟨id, _, rfl, fun cur' hnext => ⟨⟨fun _ _ => hused, fun _ => ?_, fun h => (by cases h),
          fun _ => ⟨[], (cur.skipWhile isSpace).before, ?_, ?_⟩⟩, ?_⟩⟩
        · rw [Cursor.before_next hnext]
          exact cons_ne_nil _ _
        · rw [Cursor.before_next hnext, hbang]
          rfl
        · exact append_ne_nil_of_right_ne_nil _ hbefore
        · change (cur.skipWhile isSpace).next = some cur' at hnext
          have hsize := hforward.size_le
          have hsize' := Cursor.size_next_bang hnext hbang
          change cur'.size + 5 < m
          omega
      · rw [if_neg hbang]
        split_ifs
        · exact advances_some hused (by decide) (by decide) hforward hm
        · exact advances_some (by rw [bufferUsed_check]; exact hused) (by decide) (by decide) hforward hm

theorem advances_doctype (hbefore : cur.before ≠ []) (hm : cur.size + 1 ≤ m) :
    Advances (toNone (p.parseDoctype cur)) m False := by
  obtain ⟨before, after⟩ := cur
  obtain ⟨x, before, rfl⟩ := exists_cons_of_ne_nil hbefore
  refine .inr ⟨id, _, rfl, fun cur' hnext => ⟨inv_none _ _, ?_⟩⟩
  change Cursor.next (Cursor.skipWhile _ ⟨before, x :: after⟩) = some cur' at hnext
  change cur'.size + 0 < m
  by_cases hx : x = '>'
  · have hstop : Cursor.skipWhile (fun c => decide (c ≠ ('>' : UInt8))) ⟨before, x :: after⟩ =
        ⟨before, x :: after⟩ := by
      rw [Cursor.skipWhile, hx]
      rfl
    rw [hstop] at hnext
    cases hnext
    omega
  · have hstep : Cursor.skipWhile (fun c => decide (c ≠ ('>' : UInt8))) ⟨before, x :: after⟩ =
        Cursor.skipWhile (fun c => decide (c ≠ ('>' : UInt8))) ⟨x :: before, after⟩ := by
      simp only [Cursor.skipWhile, takeWhile_cons, dropWhile_cons, decide_eq_true hx, if_true,
        reverse_cons, append_assoc, singleton_append]
    rw [hstep] at hnext
    have hsize := (Cursor.forward_skipWhile (fun c => decide (c ≠ ('>' : UInt8)))
      ⟨x :: before, after⟩).size_le
    have hsize' := Cursor.size_next hnext
    omega

theorem advances_parseText {x : UInt8} {before after : Str} (hx : x ≠ '<')
    (hm : (⟨x :: before, after⟩ : Cursor).size + 1 ≤ m) :
    Advances (toNone (p.parseText ⟨x :: before, after⟩)) m (OpenCdata (x :: after)) := by
  have hgoes : TextGoes (x :: after) before (textLoop (x :: after) before 0 []) :=
    textLoop_goes (x :: after).length (Nat.le_refl _) (fun _ hhead => by
      injection hhead with hhead
      exact absurd hhead hx) []
  rw [parseText, Cursor.back, bind_some]
  rcases hgoes with ⟨hbad, hnone⟩ | ⟨hnot, s, cur', hsome, hend⟩
  · rw [hnone]
    exact .inl ⟨hbad, rfl⟩
  · rw [hsome]
    refine .inr ⟨hnot, _, rfl, fun cur'' hnext => ⟨inv_none _ _, ?_⟩⟩
    change cur'.next = some cur'' at hnext
    change cur''.size + 0 < m
    rcases hend with hnil | ⟨b, c, a, hnext', ⟨w, hafter, hbefore⟩, hc, -⟩
    · obtain ⟨b, a⟩ := cur'
      subst hnil
      cases hnext
    · rw [hnext] at hnext'
      cases hnext'
      cases w with
      | nil =>
        injection hafter with hx' _
        exact absurd (hx'.trans hc) hx
      | cons y w =>
        injection hafter with _ hafter
        have hforward : Forward ⟨x :: before, after⟩ ⟨w.reverse ++ x :: before, c :: a⟩ :=
          ⟨w, hafter, rfl⟩
        have hsize := hforward.size_le
        simp only [Cursor.size] at hsize hm ⊢
        omega

/-- A CDATA section is parsed from its start on. -/
theorem advances_cdata {x y : UInt8} {before after : Str}
    (hbang : before = [] → y = '!') (hpre : cdataStart.drop 2 <+: after)
    (hm : (⟨y :: x :: before, after⟩ : Cursor).size + 5 ≤ m) :
    Advances (toNone ((Cursor.back ⟨y :: x :: before, after⟩).bind p.parseText)) m
      (OpenCdata (x :: y :: after)) := by
  have hstart : x = '<' → y = '!' → cdataStart <+: x :: y :: after := by
    rintro rfl rfl
    obtain ⟨t, ht⟩ := hpre
    exact ⟨t, by rw [← ht]; rfl⟩
  have hgoes : TextGoes (x :: y :: after) before (textLoop (x :: y :: after) before 0 []) :=
    textLoop_goes (x :: y :: after).length (Nat.le_refl _) (fun hnil hhead => by
      injection hhead with hhead
      exact hstart hhead (hbang hnil)) []
  rw [Cursor.back, bind_some, parseText, Cursor.back, bind_some]
  rcases hgoes with ⟨hbad, hnone⟩ | ⟨hnot, s, cur', hsome, hend⟩
  · rw [hnone]
    exact .inl ⟨hbad, rfl⟩
  · rw [hsome]
    refine .inr ⟨hnot, _, rfl, fun cur'' hnext => ⟨inv_none _ _, ?_⟩⟩
    change cur'.next = some cur'' at hnext
    change cur''.size + 0 < m
    rcases hend with hnil | ⟨b, c, a, hnext', ⟨w, hafter, hbefore⟩, hc, hno⟩
    · obtain ⟨b, a⟩ := cur'
      subst hnil
      cases hnext
    · rw [hnext] at hnext'
      cases hnext'
      simp only [Cursor.size] at hm ⊢
      cases w with
      | nil =>
        have hy : y ≠ '!' := by
          rintro rfl
          injection hafter with hx ha
          have hstart' := hstart (hx.trans hc) rfl
          rw [hx, ha] at hstart'
          exact hno hstart'
        injection hafter with _ ha
        rw [hc, ← ha, length_cons, length_cons, count_cons_of_ne (by decide),
          count_cons_of_ne hy]
        omega
      | cons x' w =>
        cases w with
        | nil =>
          injection hafter with _ hafter
          injection hafter with _ ha
          change after = a at ha
          rw [hc, ← ha, length_cons, count_cons_of_ne (by decide)]
          omega
        | cons y' w =>
          injection hafter with _ hafter
          injection hafter with _ hafter
          change after = w ++ c :: a at hafter
          rw [hafter, length_append, count_append] at hm
          omega

theorem advances_preComment1 (hcur : c = '[' → cur.char = '[')
    (hinv : Inv ⟨p, .preComment1, cur⟩) (hm : cur.size + 5 ≤ m) :
    Advances (preComment1 c p cur) m (BadAt c p cur .preComment1) := by
  have hused : p.bufferUsed = 0 := hinv.unused (fun h => by cases h) (fun h => by cases h)
  obtain ⟨u, v, hbefore, hv⟩ := hinv.bang rfl
  change cur.before = u ++ (33 : UInt8) :: v at hbefore
  have hno : c ≠ '[' ∨ ¬cdataStart.drop 2 <+: cur.after → ¬BadAt c p cur .preComment1 := by
    rintro (hc | hpre) ⟨hc', hpre', -⟩
    · exact hc hc'
    · exact hpre hpre'
  have hkeep : ∀ {x : Option Driver}, ¬BadAt c p cur .preComment1 → Advances x m False →
      Advances x m (BadAt c p cur .preComment1) := by
    rintro x hnot (⟨hf, -⟩ | ⟨-, h⟩)
    · exact hf.elim
    · exact .inr ⟨hnot, h⟩
  rw [preComment1]
  by_cases hdash : c = '-'
  · rw [if_pos hdash]
    refine hkeep (hno (.inl (by rw [hdash]; decide))) ?_
    exact advances_some hused (by decide) (by decide) (.refl cur) (by omega)
  · rw [if_neg hdash]
    by_cases hdoc : c = 'D' ∨ c = 'd'
    · rw [if_pos hdoc]
      refine hkeep (hno (.inl (by rcases hdoc with rfl | rfl <;> decide))) ?_
      exact advances_some hused (by decide) (by decide) (.refl cur) (by omega)
    · rw [if_neg hdoc]
      split_ifs with hcdata
      · obtain ⟨hc, hpre⟩ := hcdata
        rw [ isPrefixOf_iff_prefix] at hpre
        obtain ⟨before, after⟩ := cur
        change before = u ++ (33 : UInt8) :: v at hbefore
        -- The two characters in front of the bracket.
        obtain ⟨y, x, rest, hsplit, hbang⟩ : ∃ y x rest, before = y :: x :: rest ∧
            (rest = [] → y = '!') := by
          cases u with
          | nil =>
            obtain ⟨x, rest, rfl⟩ := exists_cons_of_ne_nil hv
            exact ⟨_, x, rest, hbefore, fun _ => rfl⟩
          | cons y u =>
            cases u with
            | nil => exact ⟨y, _, v, hbefore, fun hnil => absurd hnil hv⟩
            | cons x u =>
              exact ⟨y, x, u ++ (33 : UInt8) :: v, hbefore, fun hnil =>
                absurd (append_eq_nil_iff.mp hnil).2 (cons_ne_nil _ _)⟩
        subst hsplit
        rcases advances_cdata (p := p) hbang hpre hm with ⟨hbad, hnone⟩ | ⟨hnot, hgo⟩
        · exact .inl ⟨⟨hc, hpre, x, y, rest, rfl, hbad⟩, hnone⟩
        · refine .inr ⟨?_, hgo⟩
          rintro ⟨-, -, x', y', rest', heq, hbad⟩
          cases heq
          exact hnot hbad
      · rw [ isPrefixOf_iff_prefix] at hcdata
        refine .inr ⟨hno (not_and_or.mp hcdata), _, rfl, fun cur' hnext => ⟨⟨fun _ _ => ?_, fun _ => ?_,
          fun h => (by cases h), fun _ => ?_⟩, ?_⟩⟩
        · exact (bufferUsed_check p _ _).trans hused
        · rw [Cursor.before_next hnext]
          exact cons_ne_nil _ _
        · refine ⟨cur.char :: u, v, ?_, hv⟩
          rw [Cursor.before_next hnext]
          exact congrArg (cur.char :: ·) hbefore
        · change cur.next = some cur' at hnext
          have hsize := Cursor.size_next hnext
          change cur'.size + 5 < m
          omega

/-- One step of the `switch`. -/
theorem handle_advances {st : State} (hinv : Inv ⟨p, st, cur⟩) (hafter : cur.after ≠ [])
    (hc : cur.char = c ∨ isSpace c = true ∧ isSpace cur.char = true) :
    Advances (handle c p cur st) (measure ⟨p, st, cur⟩) (BadAt c p cur st) := by
  have hsize : cur.size ≤ measure ⟨p, st, cur⟩ := Nat.le_add_right _ _
  have hused' : st ≠ .none → st ≠ .text → p.bufferUsed = 0 := hinv.unused
  have hbefore' : st ≠ .none → cur.before ≠ [] := hinv.started
  cases st with
  | none => exact advances_none hc hsize
  | afterLt => exact advances_afterLt (hused' (by decide) (by decide)) (hbefore' (by decide)) hsize
  | startTag =>
    refine advances_toNone (parseStartTag_goes ?_) hsize
    intro hprev
    exact hbefore' (by decide) (head?_eq_none_iff.mp hprev)
  | endTag => exact advances_toNone (parseEndTag_goes (hused' (by decide) (by decide))) hsize
  | processInstruction =>
    exact advances_toNone (parsePi_goes (hused' (by decide) (by decide))) hsize
  | preComment1 =>
    refine advances_preComment1 (fun hbracket => ?_) hinv (Nat.le_refl _)
    rcases hc with hc | ⟨hspace, -⟩
    · rw [hc, hbracket]
    · rw [hbracket] at hspace
      cases hspace
  | preComment2 => exact advances_toNone (parseComment_goes hafter) hsize
  | comment => exact advances_toNone (parseComment_goes hafter) hsize
  | doctype => exact advances_doctype (hbefore' (by decide)) (Nat.le_refl _)
  | text =>
    obtain ⟨before, after⟩ := cur
    obtain ⟨x, before, rfl⟩ := exists_cons_of_ne_nil (hbefore' (by decide))
    have hx : x ≠ '<' := fun heq => hinv.text rfl (congrArg some heq)
    rcases advances_parseText (p := p) hx (Nat.le_refl _) with ⟨hbad, hnone⟩ | ⟨hnot, hgo⟩
    · exact .inl ⟨⟨x, before, rfl, hbad⟩, hnone⟩
    · refine .inr ⟨?_, hgo⟩
      rintro ⟨x', before', heq, hbad⟩
      cases heq
      exact hnot hbad

/-! ## Whole runs -/

theorem newline_spec (c : UInt8) (before after : Str) :
    Forward ⟨before, c :: after⟩ (newline c before after) ∧ (newline c before after).after ≠ [] ∧
      ((newline c before after).char = c ∨
        isSpace c = true ∧ isSpace (newline c before after).char = true) := by
  rw [newline]
  split_ifs with hcrlf
  · obtain ⟨rfl, hlf⟩ := hcrlf
    cases after with
    | nil => cases hlf
    | cons d after =>
      cases hlf
      exact ⟨Cursor.forward_cons _ _ _, cons_ne_nil _ _, .inr ⟨rfl, rfl⟩⟩
  · exact ⟨.refl _, cons_ne_nil _ _, .inl rfl⟩

theorem inv_newline {d : Driver} {after : Str} (h : Inv d) (hafter : d.cur.after = c :: after) :
    Inv ⟨d.parser, d.state, newline c d.cur.before after⟩ := by
  obtain ⟨p, st, ⟨before, after'⟩⟩ := d
  subst hafter
  rw [newline]
  split_ifs with hcrlf
  · obtain ⟨rfl, -⟩ := hcrlf
    refine ⟨h.unused, fun _ => cons_ne_nil _ _, fun _ heq => ?_, fun hpre => ?_⟩
    · injection heq with heq
      cases heq
    · obtain ⟨u, v, hbefore, hv⟩ := h.bang hpre
      exact ⟨(13 : UInt8) :: u, v, congrArg ((13 : UInt8) :: ·) hbefore, hv⟩
  · exact h

theorem turn_spec {d : Driver} (h : Inv d) :
    (d.Bad ∧ turn d = .fault) ∨ (¬d.Bad ∧ turn d ≠ .fault ∧
      ∀ d', turn d = .next d' → Inv d' ∧ measure d' < measure d) := by
  rw [Bad, turn]
  cases hafter : d.cur.after with
  | nil => exact .inr ⟨id, fun hf => (by cases hf), fun d' hnext => (by cases hnext)⟩
  | cons c after =>
    obtain ⟨hforward, hne, hc⟩ := newline_spec c d.cur.before after
    have hm : measure ⟨d.parser, d.state, newline c d.cur.before after⟩ ≤ measure d := by
      have hsize := hforward.size_le
      rw [← hafter] at hsize
      exact Nat.add_le_add_right hsize _
    rcases handle_advances (inv_newline h hafter) hne hc with ⟨hbad, hnone⟩ | ⟨hnot, d', hsome, hgo⟩
    · dsimp only
      rw [hnone]
      exact .inl ⟨hbad, rfl⟩
    · dsimp only
      rw [hsome]
      refine .inr ⟨hnot, ?_⟩
      dsimp only [endTurn]
      cases hnext : d'.cur.next with
      | none => exact ⟨fun hf => (by cases hf), fun d'' hd => (by cases hd)⟩
      | some cur =>
        refine ⟨fun hf => (by cases hf), fun d'' hd => ?_⟩
        cases hd
        obtain ⟨hinv, hlt⟩ := hgo cur hnext
        exact ⟨hinv, Nat.lt_of_lt_of_le hlt hm⟩

theorem turn_fault_iff {d : Driver} (h : Inv d) : turn d = .fault ↔ d.Bad := by
  rcases turn_spec h with ⟨hbad, hfault⟩ | ⟨hnot, hne, -⟩
  · exact ⟨fun _ => hbad, fun _ => hfault⟩
  · exact ⟨fun hf => absurd hf hne, fun hbad => absurd hbad hnot⟩

/-- The text that is left falls. -/
def variant : Loop.Variant turn where
  Inv := Inv
  measure := measure
  keeps := by
    intro d d' h hnext
    rcases turn_spec h with ⟨-, hfault⟩ | ⟨-, -, hgo⟩
    · rw [hfault] at hnext
      cases hnext
    · exact (hgo d' hnext).1
  falls := by
    intro d d' h hnext
    rcases turn_spec h with ⟨-, hfault⟩ | ⟨-, -, hgo⟩
    · rw [hfault] at hnext
      cases hnext
    · exact (hgo d' hnext).2

theorem measure_init_lt (p : XmlParser) (xml : Str) : measure (init p xml) < 8 * xml.length + 8 := by
  have hcount := count_le_length (a := ('!' : UInt8)) (l := xml)
  change 2 * xml.length + 4 * xml.count ('!' : UInt8) + 0 < _
  omega

theorem run_ne_running (p : XmlParser) (xml : Str) : xmlParserParse p xml ≠ .running :=
  variant.ends (inv_none _ _) (measure_init_lt p xml)

end Driver

end Awtk.Xml
