import Awtk.Tkc.StrTEscape

/-!
# XML entities

`str_encode_xml_entity` appends a text with an entity for each of four characters, and
`str_decode_xml_entity_with_len` writes the text that it stands for.  The decoder looks for a whole
entity behind each `&` in front of `len`, also where the entity ends behind `len`.
-/

namespace Awtk.StrT

open List Option

open Block (read write)

/-- An entity behind its `&`, the character it stands for, and how far the decoder goes on. -/
structure XmlEntity where
  name : Str
  char : UInt8
  skip : Nat
  deriving DecidableEq

/-- The entities in the order in which they are compared. -/
def xmlEntities : List XmlEntity :=
  [⟨['l', 't', ';'], '<', 3⟩, ⟨['g', 't', ';'], '>', 3⟩, ⟨['a', 'm', 'p', ';'], '&', 4⟩,
    ⟨['q', 'u', 'o', 't', ';'], '"', 5⟩, ⟨['q', 'u', 'o', 't', 'a', ';'], '"', 5⟩,
    ⟨['n', 'b', 's', 'p', ';'], ' ', 5⟩]

/-- The entity that `tk_strncmp` finds. -/
def xmlEntity (s : Str) : Option XmlEntity := xmlEntities.find? fun e => e.name.isPrefixOf s

/-- The character that is decoded from a pointer on, and how many are read. -/
def decodeXmlNext : Str → UInt8 × Nat
  | [] => (0, 1)
  | c :: s =>
    if c = '&' then
      match xmlEntity s with
      | some e => (e.char, e.skip + 1)
      | none => (c, 1)
    else (c, 1)

variable (memory : Nat → Bool) (s : StrT)

/-- The loop of `str_decode_xml_entity_with_len`, with the places of `s` and `d`. -/
def decodeXmlLoop (t : Str) (len : Nat) : Nat → List UInt8 → Nat → Nat → Option (List UInt8 × Nat)
  | 0, _, _, _ => none
  | fuel + 1, str, i, j =>
    if i < t.length ∧ i < len then
      (write str j [(decodeXmlNext (t.drop i)).1]).bind fun str =>
        decodeXmlLoop t len fuel str (i + (decodeXmlNext (t.drop i)).2) (j + 1)
    else (write str j [0]).map fun str => (str, j)

def decodeXmlEntityWithLen (t : Str) (len : Nat) : Option (Ret × StrT) := do
  let (ret, s) ← s.extend memory (U32.add len 1)
  if ret ≠ .ok then some (.oom, s)
  else
    let str ← s.str
    let (str, size) ← decodeXmlLoop t len (len + 1) str 0 0
    some (.ok, { s with str := some str, size := size })

def decodeXmlEntity (t : Str) : Option (Ret × StrT) :=
  s.decodeXmlEntityWithLen memory t (t.length % 2 ^ 32)

/-- What a character is appended as. -/
def xmlChars (c : UInt8) : Str :=
  if c = '<' then ['&', 'l', 't', ';']
  else if c = '>' then ['&', 'g', 't', ';']
  else if c = '&' then ['&', 'a', 'm', 'p', ';']
  else if c = '"' then ['&', 'q', 'u', 'o', 't', ';']
  else [c]

/-- `str_append` of an entity or `str_append_char`. -/
def appendXmlChar (c : UInt8) : Option (Ret × StrT) :=
  if (xmlChars c).length = 1 then s.appendChar memory c
  else s.appendWithLen memory (xmlChars c) (xmlChars c).length

/-- The loop of `str_encode_xml_entity_with_len` from the place `i` on. -/
def encodeXmlLoop (t : Str) (len : Nat) : Nat → StrT → Nat → Option (Ret × StrT)
  | 0, _, _ => none
  | fuel + 1, s, i =>
    if i < len then
      ((t ++ [0])[i]?).bind fun c => (s.appendXmlChar memory c).bind fun p =>
        if p.1 ≠ .ok then some (.oom, p.2) else encodeXmlLoop t len fuel p.2 (i + 1)
    else some (.ok, s)

def encodeXmlEntity (t : Str) : Option (Ret × StrT) :=
  encodeXmlLoop memory t (t.length % 2 ^ 32) (t.length % 2 ^ 32 + 1) s 0

/-! ## The texts -/

/-- A text with its entities. -/
def xmlEncoded (t : Str) : Str := t.flatMap xmlChars

/-- The text that is decoded from the first `len` characters on. -/
def xmlDecoded : (len : Nat) → Str → Str
  | 0, _ | _, [] => []
  | len + 1, c :: s =>
    if c = '&' then
      match xmlEntity s with
      | some e => e.char :: xmlDecoded (len - e.skip) (s.drop e.skip)
      | none => c :: xmlDecoded len s
    else c :: xmlDecoded len s

/-- An entity that is decoded ends behind the first `len` characters.  Of `&amp;` the `&` alone is
as good. -/
def XmlCut : (len : Nat) → Str → Prop
  | 0, _ | _, [] => False
  | len + 1, c :: s =>
    if c = '&' then
      match xmlEntity s with
      | some e =>
        len < e.name.length ∧ ¬ (e.char = '&' ∧ len = 0) ∨ XmlCut (len - e.skip) (s.drop e.skip)
      | none => XmlCut len s
    else XmlCut len s

section Xml

variable {memory : Nat → Bool} {s : StrT} {t u : Str} {c : UInt8} {len : Nat}

/-! ## Decoding the first characters -/

theorem xmlEntity_mem {e : XmlEntity} {w : Str} (h : xmlEntity w = some e) :
    e ∈ xmlEntities ∧ e.name <+: w := by
  rw [xmlEntity] at h
  have hpre := find?_some h
  exact ⟨mem_of_find?_eq_some h, isPrefixOf_iff_prefix.mp hpre⟩

theorem xmlEntity_some {e : XmlEntity} {w : Str} :
    xmlEntity w = some e ↔ e ∈ xmlEntities ∧ e.name <+: w := by
  have hone : ∀ e ∈ xmlEntities, ∀ e' ∈ xmlEntities, e.name <+: e'.name → e = e' := by decide
  refine ⟨xmlEntity_mem, ?_⟩
  rintro ⟨he, hw⟩
  cases h : xmlEntity w with
  | none =>
    rw [xmlEntity, find?_eq_none] at h
    exact absurd ( isPrefixOf_iff_prefix.mpr hw) (h e he)
  | some e' =>
    obtain ⟨he', hw'⟩ := xmlEntity_mem h
    rcases prefix_or_prefix_of_prefix hw hw' with hpre | hpre
    · rw [hone e he e' he' hpre]
    · rw [hone e' he' e he hpre]

theorem xmlEntity_take (n : Nat) (w : Str) :
    xmlEntity (w.take n) = (xmlEntity w).filter fun e => e.name.length ≤ n := by
  ext e
  simp only [filter_eq_some_iff, xmlEntity_some, prefix_take_iff, and_assoc,
    decide_eq_true_eq]

theorem xmlEntities_spec : ∀ e ∈ xmlEntities, ('&' : UInt8) ∉ e.name ∧ e.char ≠ 0 ∧ 0 < e.skip ∧
    e.skip ≤ e.name.length ∧ e.name.length ≤ e.skip + 1 := by
  decide

theorem xmlDecoded_plain (hw : ('&' : UInt8) ∉ t) : xmlDecoded len t = t.take len := by
  induction t generalizing len with
  | nil => cases len <;> simp [xmlDecoded]
  | cons c t ih =>
    rw [mem_cons, not_or] at hw
    cases len with
    | zero => rw [xmlDecoded, take_zero]
    | succ len => rw [xmlDecoded, if_neg (Ne.symm hw.1), ih hw.2, take_succ_cons]

/-- The first characters are decoded alike with and without what is behind them exactly if they do
not cut an entity. -/
theorem xmlDecoded_take_iff (len : Nat) (t : Str) :
    xmlDecoded len t = xmlDecoded len (t.take len) ↔ ¬ XmlCut len t := by
  fun_induction xmlDecoded len t with
  | case1 => simp [xmlDecoded, XmlCut]
  | case2 => simp [xmlDecoded, XmlCut]
  | case3 len s e he ih =>
    obtain ⟨hmem, hpre⟩ := xmlEntity_some.mp he
    obtain ⟨hname, -, hskip, hle, hge⟩ := xmlEntities_spec e hmem
    rw [take_succ_cons, xmlDecoded, if_pos rfl, xmlEntity_take, he, XmlCut, if_pos rfl, he]
    by_cases hfit : e.name.length ≤ len
    · have hkeep : (some e).filter (fun e => decide (e.name.length ≤ len)) = some e := by
        simp [hfit]
      rw [hkeep]
      simp only [Nat.not_lt.mpr hfit, false_and, false_or, cons_inj_right, drop_take, ih]
    · -- of the entity that is cut the text without the rest has the characters
      have hlt := Nat.lt_of_not_le hfit
      have hdrop : (some e).filter (fun e => decide (e.name.length ≤ len)) = none := by simp [hlt]
      have htake : s.take len = e.name.take len := by
        rw [prefix_iff_eq_take.mp hpre, take_take, min_eq_left (by omega)]
      have hplain : ('&' : UInt8) ∉ s.take len := fun h => hname (mem_of_mem_take (htake ▸ h))
      have hnil : s.take len = [] ↔ len = 0 := by
        rw [htake, take_eq_nil_iff, ← length_eq_zero_iff]
        omega
      have hzero : len - e.skip = 0 := by omega
      rw [hdrop]
      simp only [hzero, xmlDecoded, XmlCut, xmlDecoded_plain hplain, take_take, min_self,
        or_false, List.cons.injEq, hlt, true_and, not_not, ← hnil, eq_comm (a := [])]
  | case4 len s he ih =>
    rw [take_succ_cons, xmlDecoded, if_pos rfl, xmlEntity_take, he, XmlCut, if_pos rfl, he]
    simpa using ih
  | case5 len c s hc ih =>
    rw [take_succ_cons, xmlDecoded, if_neg hc, XmlCut, if_neg hc, cons_inj_right, ih]

theorem xmlDecoded_bounds (len : Nat) (t : Str) :
    (xmlDecoded len t).length ≤ len ∧ (0 ∉ t → 0 ∉ xmlDecoded len t) := by
  fun_induction xmlDecoded len t with
  | case1 => simp
  | case2 => simp
  | case3 len s e he ih =>
    have hchar := (xmlEntities_spec e (xmlEntity_mem he).1).2.1
    refine ⟨by rw [length_cons]; omega, fun ht hmem => ?_⟩
    rcases mem_cons.mp hmem with hmem | hmem
    · exact hchar hmem.symm
    · exact ih.2 (fun h => ht (mem_cons_of_mem _ (mem_of_mem_drop h))) hmem
  | case4 len s he ih =>
    exact ⟨Nat.succ_le_succ ih.1, fun ht hmem => (mem_cons.mp hmem).elim (by decide)
      (ih.2 fun h => ht (mem_cons_of_mem _ h))⟩
  | case5 len c s hc ih =>
    rw [mem_cons, not_or]
    exact ⟨Nat.succ_le_succ ih.1, fun ht hmem => (mem_cons.mp hmem).elim ht.1 (ih.2 ht.2)⟩

/-! ## The round trip of a text -/

theorem xmlDecoded_next (len : Nat) (c : UInt8) (w : Str) :
    xmlDecoded (len + 1) (c :: w) = (decodeXmlNext (c :: w)).1 ::
      xmlDecoded (len + 1 - (decodeXmlNext (c :: w)).2)
        ((c :: w).drop (decodeXmlNext (c :: w)).2) := by
  rw [xmlDecoded, decodeXmlNext]
  by_cases hc : c = '&'
  · rw [if_pos hc, if_pos hc]
    cases xmlEntity w with
    | none => rfl
    | some e => simp
  · rw [if_neg hc, if_neg hc]
    rfl

/-- What a character is appended as is decoded as the character. -/
theorem decodeXmlNext_chars (c : UInt8) (rest : Str) : xmlChars c ≠ [] ∧
    decodeXmlNext (xmlChars c ++ rest) = (c, (xmlChars c).length) := by
  have hentity (e : XmlEntity) (he : e ∈ xmlEntities) (hskip : e.name.length = e.skip) :
      decodeXmlNext (('&' : UInt8) :: e.name ++ rest) =
        (e.char, (('&' : UInt8) :: e.name).length) := by
    rw [cons_append, decodeXmlNext, if_pos rfl,
      xmlEntity_some.mpr ⟨he, prefix_append _ _⟩, length_cons, hskip]
  rw [xmlChars]
  split_ifs with hlt hgt hamp hquot
  · exact ⟨by simp, hlt ▸ hentity ⟨['l', 't', ';'], '<', 3⟩ (by decide) rfl⟩
  · exact ⟨by simp, hgt ▸ hentity ⟨['g', 't', ';'], '>', 3⟩ (by decide) rfl⟩
  · exact ⟨by simp, hamp ▸ hentity ⟨['a', 'm', 'p', ';'], '&', 4⟩ (by decide) rfl⟩
  · exact ⟨by simp, hquot ▸ hentity ⟨['q', 'u', 'o', 't', ';'], '"', 5⟩ (by decide) rfl⟩
  · exact ⟨by simp, by rw [singleton_append, decodeXmlNext, if_neg hamp]; rfl⟩

theorem xmlDecoded_encoded (t : Str) : xmlDecoded (xmlEncoded t).length (xmlEncoded t) = t := by
  induction t with
  | nil => rw [xmlEncoded, flatMap_nil, length_nil, xmlDecoded]
  | cons c t ih =>
    have hcons : xmlEncoded (c :: t) = xmlChars c ++ xmlEncoded t := flatMap_cons
    obtain ⟨hne, hnext⟩ := decodeXmlNext_chars c (xmlEncoded t)
    obtain ⟨a, w, hw⟩ := exists_cons_of_ne_nil hne
    rw [hcons, length_append]
    rw [hw, cons_append] at hnext
    rw [hw, cons_append, length_cons, Nat.add_right_comm, xmlDecoded_next, hnext,
      length_cons, ← cons_append, drop_left' (length_cons ..)]
    have hlen : w.length + (xmlEncoded t).length + 1 - (w.length + 1) = (xmlEncoded t).length := by
      omega
    rw [hlen, ih]

theorem length_le_xmlEncoded (t : Str) : t.length ≤ (xmlEncoded t).length := by
  induction t with
  | nil => exact Nat.zero_le _
  | cons c t ih =>
    have hpos := length_pos_iff.mpr (decodeXmlNext_chars c []).1
    have hcons : xmlEncoded (c :: t) = xmlChars c ++ xmlEncoded t := flatMap_cons
    rw [hcons, length_append, length_cons]
    omega

/-! ## The strings -/

theorem decodeXmlLoop_eq (t : Str) (len : Nat) : ∀ (fuel : Nat) (out mid : List UInt8) (i : Nat),
    len - i < fuel → len - i < mid.length →
    ∃ rest, decodeXmlLoop t len fuel (out ++ mid) i out.length =
        some (out ++ xmlDecoded (len - i) (t.drop i) ++ 0 :: rest,
          (out ++ xmlDecoded (len - i) (t.drop i)).length) ∧
      (xmlDecoded (len - i) (t.drop i)).length + rest.length + 1 = mid.length := by
  intro fuel
  induction fuel with
  | zero => exact fun _ _ _ hfuel _ => absurd hfuel (Nat.not_lt_zero _)
  | succ fuel ih =>
    intro out mid i hfuel hmid
    obtain ⟨a, mid, rfl⟩ := exists_cons_of_length_pos (Nat.zero_lt_of_lt hmid)
    have hwrite (d : UInt8) :
        write (out ++ a :: mid) out.length [d] = some (out ++ [d] ++ mid) := by
      rw [append_assoc]
      exact Block.write_eq (y := [a]) rfl rfl
    rw [decodeXmlLoop]
    by_cases hi : i < t.length ∧ i < len
    · obtain ⟨n, hn⟩ := Nat.exists_eq_succ_of_ne_zero (show len - i ≠ 0 by omega)
      obtain ⟨c, w, hw⟩ := exists_cons_of_length_pos
        (show 0 < (t.drop i).length by rw [length_drop]; omega)
      have hpos : 0 < (decodeXmlNext (c :: w)).2 := by
        rw [decodeXmlNext]
        split
        · split <;> simp
        · simp
      rw [if_pos hi, hn, hw, xmlDecoded_next, hwrite, bind_some]
      generalize decodeXmlNext (c :: w) = p at hpos ⊢
      have hlen : n + 1 - p.2 = len - (i + p.2) := by omega
      rw [length_cons] at hmid
      obtain ⟨rest, hloop, hrest⟩ := ih (out ++ [p.1]) mid (i + p.2)
        (by omega) (by omega)
      rw [length_append, length_singleton] at hloop
      rw [← hw, drop_drop, hlen]
      refine ⟨rest, ?_, ?_⟩
      · rw [hloop]
        simp
      · rw [length_cons, length_cons]
        omega
    · have hnil : xmlDecoded (len - i) (t.drop i) = [] := by
        by_cases ht : i < t.length
        · rw [show len - i = 0 by omega, xmlDecoded]
        · rw [drop_eq_nil_iff.mpr (Nat.le_of_not_lt ht)]
          cases len - i <;> simp [xmlDecoded]
      rw [if_neg hi, hnil, hwrite, append_nil]
      exact ⟨mid, by simp, by simp⟩

/-- A string that can grow gets the room it asks for. -/
theorem extend_grows (h : Text s u) (hext : s.extendable = true) {wanted : Nat}
    (hlt : wanted + 1 < 2 ^ 32) :
    ∃ s', s.extend (fun _ => true) wanted = some (.ok, s') ∧ Text s' u ∧ wanted ≤ s'.capacity ∧
      s'.extendable = true := by
  rcases extend_cases h fun _ => .inr hlt with ⟨s', he, ht, hcap, -⟩ | he
  · exact ⟨s', he, ht, hcap ▸ le_max_right _ _, (extend_extendable he).trans hext⟩
  · exfalso
    rw [extend, if_neg (not_not.mpr hext), if_pos rfl] at he
    split at he
    · cases he
    · obtain ⟨str, -, he⟩ := bind_eq_some_iff.mp he
      obtain ⟨str', -, he⟩ := bind_eq_some_iff.mp he
      cases he

/-- It gets the decoded text. -/
theorem decodeXmlEntityWithLen_eq (h : Text s u) (hext : s.extendable = true) (ht : 0 ∉ t)
    (hlen : len + 2 < 2 ^ 32) :
    ∃ s', s.decodeXmlEntityWithLen (fun _ => true) t len = some (.ok, s') ∧
      Text s' (xmlDecoded len t) := by
  obtain ⟨s', he, hs', hcap, -⟩ := extend_grows h hext (show len + 1 + 1 < 2 ^ 32 from hlen)
  obtain ⟨rest, hs⟩ := hs'.holds (by omega)
  have hroom := hs.capacity
  obtain ⟨hle, hnul⟩ := xmlDecoded_bounds len t
  obtain ⟨rest', hloop, hrest⟩ := decodeXmlLoop_eq t len (len + 1) []
    (u ++ 0 :: rest) 0 (by omega)
    (by rw [length_append, length_cons]; omega)
  rw [Nat.sub_zero, drop_zero, nil_append, nil_append, length_nil] at hloop
  rw [Nat.sub_zero, drop_zero, length_append, length_cons] at hrest
  have hs₂ := hs.replace (xmlDecoded len t) rest' (hnul ht) (by omega) (by omega)
  have hadd := U32.add_of_lt (show len + 1 < 2 ^ 32 by omega)
  refine ⟨_, ?_, hs₂.text⟩
  simp only [decodeXmlEntityWithLen, hadd, he, hs.str, hloop,
    bind_eq_bind, bind_some, ne_eq, not_true_eq_false, if_false]

theorem appendXmlChar_eq (memory : Nat → Bool) (s : StrT) (c : UInt8) :
    s.appendXmlChar memory c = s.appendWithLen memory (xmlChars c) (xmlChars c).length := by
  rw [appendXmlChar]
  split_ifs with hone
  · have hplain : xmlChars c = [c] := by
      rw [xmlChars] at hone ⊢
      split_ifs at hone ⊢ <;> simp at *
    rw [hplain, appendChar, appendWithLen, length_singleton, U32.add_add]
    rfl
  · rfl

theorem zero_notMem_xmlChars (hc : c ≠ 0) : 0 ∉ xmlChars c := by
  rw [xmlChars]
  split_ifs
  · decide
  · decide
  · decide
  · decide
  · simpa using hc.symm

/-- It gets a text that is appended. -/
theorem appendWithLen_grows (h : Text s u) (hext : s.extendable = true) {w : Str} (hw : 0 ∉ w)
    (hlen : u.length + w.length + 2 < 2 ^ 32) :
    ∃ s', s.appendWithLen (fun _ => true) w w.length = some (.ok, s') ∧ Text s' (u ++ w) ∧
      s'.extendable = true := by
  obtain ⟨s', he, hs', hcap, hext'⟩ := extend_grows h hext
    (show u.length + w.length + 1 + 1 < 2 ^ 32 from hlen)
  obtain ⟨rest, hs⟩ := hs'.holds (by omega)
  obtain ⟨str, rest', hstr, hwrite, hs₂⟩ := hs.append hw (by omega)
  have hsize := U32.add_of_lt (show u.length + w.length < 2 ^ 32 by omega)
  have hneed := U32.add_of_lt (show u.length + w.length + 1 < 2 ^ 32 by omega)
  refine ⟨_, ?_, hs₂.text, hext'⟩
  simp only [appendWithLen, h.size_eq, hsize, hneed, he, hs.str, hs.size,
    Block.read_zero (Nat.le_refl w.length), take_length, hstr, hwrite,
    bind_eq_bind, bind_some, ne_eq, not_true_eq_false, if_false]

theorem encodeXmlLoop_eq (q : Str) : ∀ {p : Str} {s : StrT} {u : Str} {fuel : Nat},
    Text s u → s.extendable = true → 0 ∉ q → u.length + (xmlEncoded q).length + 2 < 2 ^ 32 →
    q.length < fuel →
    ∃ s', encodeXmlLoop (fun _ => true) (p ++ q) (p ++ q).length fuel s p.length = some (.ok, s') ∧
      Text s' (u ++ xmlEncoded q) := by
  induction q with
  | nil =>
    intro p s u fuel h _ _ _ hfuel
    obtain ⟨fuel, rfl⟩ := Nat.exists_eq_add_one_of_ne_zero (Nat.ne_of_gt hfuel)
    refine ⟨s, by rw [encodeXmlLoop, if_neg (by simp)], ?_⟩
    rwa [xmlEncoded, flatMap_nil, append_nil]
  | cons c q ih =>
    intro p s u fuel h hext hq hlen hfuel
    obtain ⟨fuel, rfl⟩ := Nat.exists_eq_add_one_of_ne_zero (Nat.ne_of_gt (Nat.zero_lt_of_lt hfuel))
    rw [mem_cons, not_or] at hq
    have hcons : xmlEncoded (c :: q) = xmlChars c ++ xmlEncoded q := flatMap_cons
    rw [hcons, length_append] at hlen
    have hchar : (p ++ c :: q ++ [0])[p.length]? = some c := by simp
    obtain ⟨s₁, happend, h₁, hext₁⟩ := appendWithLen_grows h hext
      (zero_notMem_xmlChars (Ne.symm hq.1)) (by omega)
    rw [← appendXmlChar_eq] at happend
    obtain ⟨s', hloop, h'⟩ := ih (p := p ++ [c]) h₁ hext₁ hq.2
      (by rw [length_append]; omega) (Nat.lt_of_succ_lt_succ hfuel)
    have hone : (p ++ [c]).length = p.length + 1 := length_append
    rw [hone, append_assoc, singleton_append] at hloop
    refine ⟨s', ?_, ?_⟩
    · rw [encodeXmlLoop, if_pos (by simp), hchar, bind_some, happend, bind_some,
        if_neg (not_not.mpr rfl), hloop]
    · rwa [hcons, ← append_assoc]

/-- The decoder of `len` characters depends on these alone, and gives no more of them. -/
def Slices (s : StrT) (t : Str) (len : Nat) : Prop :=
  ∃ s₁ s₂ w, s.decodeXmlEntityWithLen (fun _ => true) t len = some (.ok, s₁) ∧
    s.decodeXmlEntityWithLen (fun _ => true) (t.take len) len = some (.ok, s₂) ∧
    Text s₁ w ∧ Text s₂ w ∧ w.length ≤ len

theorem Text.unique {v : Str} (hu : Text s u) (hv : Text s v) : u = v := by
  rcases hu with ⟨hnone, -, -, rfl⟩ | ⟨rest, hu⟩
  · rcases hv with ⟨-, -, -, rfl⟩ | ⟨rest, hv⟩
    · rfl
    · cases hnone.symm.trans hv.str
  · rcases hv with ⟨hnone, -, -, rfl⟩ | ⟨rest', hv⟩
    · cases hnone.symm.trans hu.str
    · have htext : Block.text (_ ++ 0 :: rest) 0 = some _ := Block.text_zero hu.nul
      rw [some.inj (hu.str.symm.trans hv.str), Block.text_zero hv.nul] at htext
      exact (some.inj htext).symm

theorem slices_iff (h : Text s u) (hext : s.extendable = true) (ht : 0 ∉ t)
    (hlen : len + 2 < 2 ^ 32) : Slices s t len ↔ ¬ XmlCut len t := by
  obtain ⟨s₁, hs₁, ht₁⟩ := decodeXmlEntityWithLen_eq h hext ht hlen
  obtain ⟨s₂, hs₂, ht₂⟩ := decodeXmlEntityWithLen_eq h hext
    (t := t.take len) (fun h => ht (mem_of_mem_take h)) hlen
  rw [← xmlDecoded_take_iff]
  constructor
  · rintro ⟨s₁', s₂', w, hs₁', hs₂', hw₁, hw₂, -⟩
    rw [hs₁] at hs₁'
    rw [hs₂] at hs₂'
    cases hs₁'
    cases hs₂'
    exact (ht₁.unique hw₁).trans (hw₂.unique ht₂)
  · intro heq
    exact ⟨s₁, s₂, _, hs₁, hs₂, ht₁, heq ▸ ht₂, (xmlDecoded_bounds len t).1⟩

/-- Texts come back, and the first characters decide exactly if they do not cut an entity. -/
theorem xmlEntity_iff (t : Str) :
    (∀ {a b : StrT} {v : Str}, Text a [] → a.extendable = true → Text b v → b.extendable = true →
      0 ∉ t → (xmlEncoded t).length + 2 < 2 ^ 32 →
      ∃ a' b' w, a.encodeXmlEntity (fun _ => true) t = some (.ok, a') ∧ Text a' w ∧
        b.decodeXmlEntity (fun _ => true) w = some (.ok, b') ∧ Text b' t) ∧
    ∀ {s : StrT} {u : Str} {len : Nat}, Text s u → s.extendable = true → 0 ∉ t →
      len + 2 < 2 ^ 32 → (Slices s t len ↔ ¬ XmlCut len t) := by
  refine ⟨?_, slices_iff⟩
  intro a b v ha haext hb hbext ht hlen
  have hlong := length_le_xmlEncoded t
  have hnul : 0 ∉ xmlEncoded t := fun hmem => by
    obtain ⟨c, hc, hzero⟩ := mem_flatMap.mp hmem
    exact zero_notMem_xmlChars (fun h => ht (h ▸ hc)) hzero
  obtain ⟨a', hencode, ha'⟩ := encodeXmlLoop_eq t (p := []) ha haext ht
    (by rw [length_nil, Nat.zero_add]; exact hlen) (Nat.lt_succ_self _)
  obtain ⟨b', hdecode, hb'⟩ := decodeXmlEntityWithLen_eq hb hbext hnul hlen
  rw [xmlDecoded_encoded] at hb'
  refine ⟨a', b', xmlEncoded t, ?_, ha', ?_, hb'⟩
  · rw [encodeXmlEntity, Nat.mod_eq_of_lt (by omega)]
    exact hencode
  · rw [decodeXmlEntity, Nat.mod_eq_of_lt (by omega)]
    exact hdecode

end Xml

/-- `xmlEntity_iff` on the whole text `&lt;`. -/
theorem xmlEntity_iff_whole : Slices ⟨none, 0, 0, true⟩ ['&', 'l', 't', ';'] 4 := by
  refine ((xmlEntity_iff ['&', 'l', 't', ';']).2 (.inl ⟨rfl, rfl, rfl, rfl⟩) rfl (by decide)
    (by decide)).mpr ?_
  have hentity : xmlEntity ['l', 't', ';'] = some ⟨['l', 't', ';'], '<', 3⟩ := by decide
  simp [XmlCut, hentity]

/-- The text `&lt;` with a length of 1. -/
theorem xmlEntity_cut : ¬ Slices ⟨none, 0, 0, true⟩ ['&', 'l', 't', ';'] 1 := by
  rw [slices_iff (.inl ⟨rfl, rfl, rfl, rfl⟩) rfl (by decide) (by decide)]
  have hentity : xmlEntity ['l', 't', ';'] = some ⟨['l', 't', ';'], '<', 3⟩ := by decide
  simp only [XmlCut, hentity, if_true]
  exact not_not.mpr (.inl ⟨by decide, by decide⟩)

end Awtk.StrT
