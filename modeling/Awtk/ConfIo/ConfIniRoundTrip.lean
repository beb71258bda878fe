import Mathlib
import Awtk.ConfIo.ConfIni
import Awtk.ConfIo.ConfNodeStore

/-!
# The round trip of an INI document

INI has no line that leaves a group.  So what is saved is loaded again exactly where no
root-level key comes after a group (`roundTrips_iff_keysFirst`).

`regroup` is what the loader makes of the children of the root: a key goes to the last
group in front of it, if there is one.
-/

namespace Awtk.Conf

open List Option

namespace Ini

/-! ## Documents that settings make -/

/-- A component of a path. -/
structure IniName (name : Str) : Prop where
  nonempty : name ≠ []
  word : ∀ c ∈ name, isWord c = true

/-- A string value. -/
def IniText (s : Str) : Prop := ∀ c ∈ s, (isAlpha c || isDigit c) = true

instance (s : Str) : Decidable (IniText s) := List.decidableBAll _ s

/-- A path of one or two components. -/
def IniPath (path : Str) : Prop :=
  ∃ names, path = List.intercalate [('.' : UInt8)] names ∧ (names.length = 1 ∨ names.length = 2) ∧
    ∀ name ∈ names, IniName name

/-- An empty INI document, with a root or without. -/
structure EmptyIni (doc : ConfDoc) : Prop where
  maxDeepLevel : doc.maxDeepLevel = 2
  disablePath : doc.disablePath = false
  root : doc.root = none ∨ doc.root = some (ConfNode.create ConfDoc.rootName)

/-- A sequence of `conf_doc_set` with strings. -/
def setAll : List (Str × Str) → ConfDoc → Option ConfDoc
  | [], doc => some doc
  | (path, s) :: sets, doc => (doc.set path (.str (some s))).bind fun (_, doc) => setAll sets doc

/-- A leaf with a string. -/
structure Key (n : ConfNode) : Prop where
  name : IniName n.name
  value : ∃ s, n.getValue = some (.str (some s)) ∧ IniText s

def isGroup : ConfNode → Bool
  | .node .. => true
  | _ => false

/-- A node with keys. -/
structure Group (n : ConfNode) : Prop where
  isGroup : isGroup n = true
  name : IniName n.name
  keys : ∀ k ∈ n.children, Key k
  nodup : (n.children.map ConfNode.name).Nodup

/-- What every such document is. -/
structure IniDoc (doc : ConfDoc) : Prop where
  maxDeepLevel : doc.maxDeepLevel = 2
  disablePath : doc.disablePath = false
  children : ∀ c ∈ doc.base.children, Key c ∨ Group c
  nodup : (doc.base.children.map ConfNode.name).Nodup

/-! ## Characters -/

variable {c : UInt8} {name s : Str}

theorem isWord_of_text (h : (isAlpha c || isDigit c) = true) : isWord c = true := by
  rw [isWord, h, Bool.true_or]

theorem ne_of_isWord {a : UInt8} (h : isWord c = true) (ha : isWord a = false) : c ≠ a := by
  rintro rfl
  rw [h] at ha
  cases ha

theorem not_isSpace_of_isWord (h : isWord c = true) : isSpace c = false := by
  have hall := forall_byte (p := fun c => !(isWord c && isSpace c)) (by decide +kernel) c
  simpa [h] using hall

theorem IniText.word (h : IniText s) : ∀ c ∈ s, isWord c = true :=
  fun c hc => isWord_of_text (h c hc)

theorem IniName.word' (h : IniName name) : ConfDoc.Word name where
  nonempty := h.nonempty
  noDot c hc := decide_eq_false (ne_of_isWord (h.word c hc) (by decide))

theorem IniName.plain (h : IniName name) : ConfNode.Plain name := by
  cases name with
  | nil => exact absurd rfl h.nonempty
  | cons c rest =>
    have hc : isWord c = true := h.word c mem_cons_self
    exact ⟨fun heq => ne_of_isWord hc (by decide) (some_inj.mp heq),
      fun heq => ne_of_isWord hc (by decide) (some_inj.mp heq)⟩

/-! ## Reading a line -/

namespace Loader

variable {a : UInt8} {root : ConfNode} {node group : Option (List Nat)}

theorem next_skip (hc : isSpace c = true) :
    next ⟨.none, a, s, root, node, group⟩ c = ⟨.none, c, s, root, node, group⟩ := by
  have hslash : c ≠ '\\' := by rintro rfl; exact absurd hc (by decide)
  have hopen : c ≠ '[' := by rintro rfl; exact absurd hc (by decide)
  have hcomment : c ≠ '#' := by rintro rfl; exact absurd hc (by decide)
  simp [next, step, hslash, hopen, hcomment, hc]

theorem next_key (hc : isWord c = true) :
    next ⟨.none, a, s, root, node, group⟩ c = ⟨.key, c, [c], root, node, group⟩ := by
  have hslash : c ≠ '\\' := ne_of_isWord hc (by decide)
  have hopen : c ≠ '[' := ne_of_isWord hc (by decide)
  have hcomment : c ≠ '#' := ne_of_isWord hc (by decide)
  simp [next, step, hslash, hopen, hcomment, not_isSpace_of_isWord hc]

theorem next_key_append (hslash : c ≠ '\\') (heq : c ≠ '=') :
    next ⟨.key, a, s, root, node, group⟩ c = ⟨.key, c, s ++ [c], root, node, group⟩ := by
  simp [next, step, hslash, heq]

theorem next_group (hc : isWord c = true) :
    next ⟨.beforeGroup, a, s, root, node, group⟩ c = ⟨.group, c, [c], root, node, group⟩ := by
  have hslash : c ≠ '\\' := ne_of_isWord hc (by decide)
  simp [next, step, hslash, not_isSpace_of_isWord hc]

theorem next_group_append (hslash : c ≠ '\\') (hclose : c ≠ ']') :
    next ⟨.group, a, s, root, node, group⟩ c = ⟨.group, c, s ++ [c], root, node, group⟩ := by
  simp [next, step, hslash, hclose]

theorem next_value (hc : isWord c = true) :
    next ⟨.beforeValue, a, s, root, node, group⟩ c = ⟨.value, c, [c], root, node, group⟩ := by
  have hslash : c ≠ '\\' := ne_of_isWord hc (by decide)
  have hspace : c ≠ ' ' := ne_of_isWord hc (by decide)
  have htab : c ≠ '\t' := ne_of_isWord hc (by decide)
  have hcr : c ≠ '\r' := ne_of_isWord hc (by decide)
  have hlf : c ≠ '\n' := ne_of_isWord hc (by decide)
  simp [next, step, hslash, hspace, htab, hcr, hlf]

theorem next_value_append (hc : isWord c = true) (ha : a ≠ '\\') :
    next ⟨.value, a, s, root, node, group⟩ c = ⟨.value, c, s ++ [c], root, node, group⟩ := by
  have hslash : c ≠ '\\' := ne_of_isWord hc (by decide)
  have hcomment : c ≠ '#' := ne_of_isWord hc (by decide)
  have hlf : c ≠ '\n' := ne_of_isWord hc (by decide)
  simp [next, step, hslash, hcomment, hlf, ha]

theorem foldl_word {state : ParserState} (hnext : ∀ {a s c}, isWord c = true → a ≠ ('\\' : UInt8) →
      next ⟨state, a, s, root, node, group⟩ c = ⟨state, c, s ++ [c], root, node, group⟩) :
    ∀ (w s : Str) (a : UInt8), (∀ c ∈ w, isWord c = true) → a ≠ '\\' →
      ∃ c', c' ≠ ('\\' : UInt8) ∧ w.foldl next ⟨state, a, s, root, node, group⟩ =
        ⟨state, c', s ++ w, root, node, group⟩
  | [], s, a, _, ha => ⟨a, ha, by rw [append_nil]; rfl⟩
  | c :: w, s, a, hw, ha => by
    have hc : isWord c = true := hw c mem_cons_self
    have hslash : c ≠ '\\' := ne_of_isWord hc (by decide)
    obtain ⟨c', hc', hfold⟩ := foldl_word hnext w (s ++ [c]) c
      (fun b hb => hw b (mem_cons_of_mem c hb)) hslash
    refine ⟨c', hc', ?_⟩
    rw [foldl_cons, hnext hc ha, hfold, append_assoc]
    rfl

theorem next_equals :
    next ⟨.key, a, s, root, node, group⟩ '=' =
      ⟨.beforeValue, '=', strTrimRight [' ', '\t'] s,
        (root.appendAt (group.getD []) (ConfNode.create (strTrimRight [' ', '\t'] s))).1,
        some (root.appendAt (group.getD []) (ConfNode.create (strTrimRight [' ', '\t'] s))).2,
        group⟩ := rfl

theorem next_close :
    next ⟨.group, a, s, root, node, group⟩ ']' =
      ⟨.none, ']', strTrimRight [' ', '\t'] s,
        (root.appendAt [] (ConfNode.create (strTrimRight [' ', '\t'] s))).1, node,
        some (root.appendAt [] (ConfNode.create (strTrimRight [' ', '\t'] s))).2⟩ := rfl

theorem next_value_end {way : List Nat} (ha : a ≠ '\\') :
    next ⟨.value, a, s, root, some way, group⟩ '\n' =
      ⟨.none, '\n', strTrimRight [' ', '\t', '\r', '\n'] s,
        root.updateAt (fun n => (ConfNode.setValue
          (.str (some (strTrimRight [' ', '\t', '\r', '\n'] s))) n).2) way, some way, group⟩ := by
  have hslash : ('\n' : UInt8) ≠ '\\' := by decide
  have hcomment : ('\n' : UInt8) ≠ '#' := by decide
  simp [next, step, setValue, ha, hslash, hcomment]

theorem next_value_empty {way : List Nat} :
    next ⟨.beforeValue, a, s, root, some way, group⟩ '\n' =
      ⟨.none, '\n', [], root.updateAt (fun n => (ConfNode.setValue (.str (some [])) n).2) way,
        some way, group⟩ := rfl

end Loader

theorem strTrimRight_last {chars w t : Str} (hw : ∀ c ∈ w.getLast?, chars.contains c = false)
    (ht : ∀ c ∈ t, chars.contains c = true) : strTrimRight chars (w ++ t) = w := by
  have htail : ∀ c ∈ t.reverse, chars.contains c = true :=
    fun c hc => ht c (mem_reverse.mp hc)
  have hword : w.reverse.dropWhile (chars.contains ·) = w.reverse := by
    refine dropWhile_eq_self_iff.mpr fun hpos hin => ?_
    have hmem : w.reverse[0] ∈ w.getLast? := by
      rw [← head?_reverse, head?_eq_getElem?]
      exact getElem?_eq_getElem hpos
    rw [hw _ hmem] at hin
    cases hin
  rw [strTrimRight, reverse_append, dropWhile_append_of_pos htail, hword,
    reverse_reverse]

theorem strTrimRight_append {chars w t : Str} (hw : ∀ c ∈ w, chars.contains c = false)
    (ht : ∀ c ∈ t, chars.contains c = true) : strTrimRight chars (w ++ t) = w :=
  strTrimRight_last (fun c hc => hw c (mem_of_mem_getLast? hc)) ht

theorem strTrimRight_word {chars w : Str} (hw : ∀ c ∈ w, chars.contains c = false) :
    strTrimRight chars w = w := by
  simpa using strTrimRight_append (t := []) hw (by simp)

theorem not_blank_of_isWord (h : isWord c = true) :
    ([' ', '\t', '\r', '\n'] : Str).contains c = false := by
  have hall := forall_byte (p := fun c => !(isWord c && ([' ', '\t', '\r', '\n'] : Str).contains c))
    (by decide +kernel) c
  simpa [h] using hall

theorem not_blank_of_isWord' (h : isWord c = true) : ([' ', '\t'] : Str).contains c = false := by
  have hall := forall_byte (p := fun c => !(isWord c && ([' ', '\t'] : Str).contains c))
    (by decide +kernel) c
  simpa [h] using hall

/-- A key that the loader makes. -/
def newKey (name s : Str) : ConfNode := ((ConfNode.create name).setValue (.str (some s))).2

@[simp] theorem name_newKey (name s : Str) : (newKey name s).name = name :=
  ConfDoc.name_setValue (ConfNode.create name)

/-- The line of a key. -/
def keyLine (name s : Str) : Str :=
  ' ' :: ' ' :: (name ++ (' ' :: '=' :: ' ' :: (s ++ (['\n'] : Str)) : Str))

/-- The line of a key in front of its value. -/
def keyHead (name : Str) : Str := ' ' :: ' ' :: (name ++ ([' ', '=', ' '] : Str))

theorem keyLine_eq (name s : Str) : keyLine name s = keyHead name ++ (s ++ (['\n'] : Str)) := by
  simp [keyLine, keyHead]

/-- The line of a group. -/
def groupLine (name : Str) : Str := '[' :: (name ++ ([']', '\n'] : Str))

namespace Loader

variable {a : UInt8} {root : ConfNode} {node group : Option (List Nat)} {t : Str}

theorem foldl_value (htext : IniText s) {way : List Nat} :
    (s ++ (['\n'] : Str)).foldl next ⟨.beforeValue, a, t, root, some way, group⟩ =
      ⟨.none, '\n', s, root.updateAt (fun n => (ConfNode.setValue (.str (some s)) n).2) way,
        some way, group⟩ := by
  cases s with
  | nil => exact next_value_empty
  | cons c s =>
    have hc : isWord c = true := htext.word c mem_cons_self
    have hnext : ∀ {a s c}, isWord c = true → a ≠ ('\\' : UInt8) →
        next ⟨.value, a, s, root, some way, group⟩ c = ⟨.value, c, s ++ [c], root, some way, group⟩ :=
      next_value_append
    obtain ⟨c', hc', hfold⟩ := foldl_word hnext s [c] c
      (fun b hb => htext.word b (mem_cons_of_mem c hb)) (ne_of_isWord hc (by decide))
    have htrim : strTrimRight [' ', '\t', '\r', '\n'] (c :: s) = c :: s :=
      strTrimRight_word fun b hb => not_blank_of_isWord (htext.word b hb)
    rw [cons_append, foldl_cons, next_value hc, foldl_append, hfold, foldl_cons,
      foldl_nil, next_value_end hc', singleton_append, htrim]

/-- The line of a key up to its value. -/
theorem foldl_keyHead (hname : IniName name) :
    (keyHead name).foldl next ⟨.none, a, t, root, node, group⟩ =
      ⟨.beforeValue, ' ', name, (root.appendAt (group.getD []) (ConfNode.create name)).1,
        some (root.appendAt (group.getD []) (ConfNode.create name)).2, group⟩ := by
  cases name with
  | nil => exact absurd rfl hname.nonempty
  | cons c name =>
    have hc : isWord c = true := hname.word c mem_cons_self
    have hnext : ∀ {a s c}, isWord c = true → a ≠ ('\\' : UInt8) →
        next ⟨.key, a, s, root, node, group⟩ c = ⟨.key, c, s ++ [c], root, node, group⟩ :=
      fun hb _ => next_key_append (ne_of_isWord hb (by decide)) (ne_of_isWord hb (by decide))
    obtain ⟨c', hc', hfold⟩ := foldl_word hnext name [c] c
      (fun b hb => hname.word b (mem_cons_of_mem c hb)) (ne_of_isWord hc (by decide))
    have htrim : strTrimRight [' ', '\t'] ((c :: name) ++ ([' '] : Str)) = c :: name :=
      strTrimRight_append (fun b hb => not_blank_of_isWord' (hname.word b hb)) (by simp)
    have hblank : next ⟨.key, c', c :: name, root, node, group⟩ ' ' =
        ⟨.key, ' ', (c :: name) ++ ([' '] : Str), root, node, group⟩ :=
      next_key_append (by decide) (by decide)
    have hskip : ∀ way, next ⟨.beforeValue, '=', c :: name,
        (root.appendAt (group.getD []) (ConfNode.create (c :: name))).1, way, group⟩ ' ' =
        ⟨.beforeValue, ' ', c :: name,
          (root.appendAt (group.getD []) (ConfNode.create (c :: name))).1, way, group⟩ :=
      fun _ => rfl
    rw [keyHead, foldl_cons, next_skip (by decide), foldl_cons, next_skip (by decide),
      cons_append, foldl_cons, next_key hc, foldl_append, hfold,
      singleton_append, foldl_cons, hblank, foldl_cons, next_equals, htrim,
      foldl_cons, hskip, foldl_nil]

theorem foldl_key (hname : IniName name) (htext : IniText s) :
    (keyLine name s).foldl next ⟨.none, a, t, root, node, group⟩ =
      ⟨.none, '\n', s,
        (root.appendAt (group.getD []) (ConfNode.create name)).1.updateAt
          (fun n => (ConfNode.setValue (.str (some s)) n).2)
          (root.appendAt (group.getD []) (ConfNode.create name)).2,
        some (root.appendAt (group.getD []) (ConfNode.create name)).2, group⟩ := by
  rw [keyLine_eq, foldl_append, foldl_keyHead hname, foldl_value htext]

theorem foldl_group (hname : IniName name) :
    (groupLine name).foldl next ⟨.none, a, t, root, node, group⟩ =
      ⟨.none, '\n', name, (root.appendAt [] (ConfNode.create name)).1, node,
        some (root.appendAt [] (ConfNode.create name)).2⟩ := by
  cases name with
  | nil => exact absurd rfl hname.nonempty
  | cons c name =>
    have hc : isWord c = true := hname.word c mem_cons_self
    have hnext : ∀ {a s c}, isWord c = true → a ≠ ('\\' : UInt8) →
        next ⟨.group, a, s, root, node, group⟩ c = ⟨.group, c, s ++ [c], root, node, group⟩ :=
      fun hb _ => next_group_append (ne_of_isWord hb (by decide)) (ne_of_isWord hb (by decide))
    obtain ⟨c', hc', hfold⟩ := foldl_word hnext name [c] c
      (fun b hb => hname.word b (mem_cons_of_mem c hb)) (ne_of_isWord hc (by decide))
    have htrim : strTrimRight [' ', '\t'] (c :: name) = c :: name :=
      strTrimRight_word fun b hb => not_blank_of_isWord' (hname.word b hb)
    have hopen : next ⟨.none, a, t, root, node, group⟩ '[' =
        ⟨.beforeGroup, '[', t, root, node, group⟩ := rfl
    rw [groupLine, foldl_cons, hopen, cons_append, foldl_cons, next_group hc,
      foldl_append, hfold, singleton_append, foldl_cons, next_close, htrim,
      foldl_cons, next_skip (by decide), foldl_nil]

end Loader

/-! ## Saved lines -/

theorem saveStr_text (h : IniText s) : saveStr commentChar s = s := by
  induction s with
  | nil => rfl
  | cons c s ih =>
    have hc : isWord c = true := h.word c mem_cons_self
    have hescape : strEscapeChar c = c := by
      have hall := forall_byte (p := fun c => !(isWord c) || strEscapeChar c == c) (by decide +kernel) c
      simpa [hc] using hall
    have hcomment : c ≠ commentChar := ne_of_isWord hc (by decide)
    have hslash : c ≠ '\\' := ne_of_isWord hc (by decide)
    have hlf : c ≠ '\n' := ne_of_isWord hc (by decide)
    have ih : saveStr commentChar s = s := ih fun b hb => h b (mem_cons_of_mem c hb)
    simp [saveStr, hescape, hcomment, hslash, hlf, ih]

/-- The string of a key. -/
def text (n : ConfNode) : Str :=
  match n.getValue with
  | some (.str (some s)) => s
  | _ => []

variable {n : ConfNode}

theorem Key.getValue (h : Key n) : n.getValue = some (.str (some (text n))) ∧ IniText (text n) := by
  obtain ⟨s, hs, htext⟩ := h.value
  have heq : text n = s := by rw [text, hs]
  rw [heq]
  exact ⟨hs, htext⟩

theorem Key.save (h : Key n) : saveLeafNode n = some (keyLine n.name (text n)) := by
  obtain ⟨hvalue, htext⟩ := h.getValue
  rw [saveLeafNode, hvalue, map_some, saveValue, saveStr_text htext]
  simp [keyLine]

theorem Key.not_group (h : Key n) : isGroup n = false := by
  cases n with
  | none => rfl
  | leaf => rfl
  | node =>
    obtain ⟨s, hs, -⟩ := h.value
    cases hs

theorem Key.saveGroup (h : Key n) : saveGroup n = some (keyLine n.name (text n)) := by
  cases n with
  | leaf => exact h.save
  | none | node =>
    obtain ⟨s, hs, -⟩ := h.value
    cases hs

/-- The lines of keys. -/
def keyLines (ks : List ConfNode) : Str := ks.flatMap fun k => keyLine k.name (text k)

theorem save_keys : ∀ {ks : List ConfNode}, (∀ k ∈ ks, Key k) →
    ks.mapM saveLeafNode = some (ks.map fun k => keyLine k.name (text k))
  | [], _ => rfl
  | k :: ks, h => by
    rw [mapM_cons, (h k mem_cons_self).save,
      save_keys fun b hb => h b (mem_cons_of_mem k hb)]
    rfl

theorem Group.save (h : Group n) :
    saveGroup n = some (groupLine n.name ++ keyLines n.children) := by
  cases n with
  | node name type ks =>
    rw [Ini.saveGroup, save_keys h.keys, map_some, keyLines, flatMap_def]
    · rfl
    · exact fun _ _ _ heq => by cases heq
  | none => cases h.isGroup
  | leaf => cases h.isGroup

/-- The text of a child of the root. -/
def groupText (n : ConfNode) : Str :=
  if isGroup n then groupLine n.name ++ keyLines n.children
  else keyLine n.name (text n)

theorem save_groups : ∀ {cs : List ConfNode}, (∀ c ∈ cs, Key c ∨ Group c) →
    cs.mapM saveGroup = some (cs.map groupText)
  | [], _ => rfl
  | c :: cs, h => by
    have hc : saveGroup c = some (groupText c) := by
      cases h c mem_cons_self with
      | inl hkey => rw [hkey.saveGroup, groupText, hkey.not_group]; rfl
      | inr hgroup => rw [hgroup.save, groupText, hgroup.isGroup]; rfl
    rw [mapM_cons, hc, save_groups fun b hb => h b (mem_cons_of_mem c hb)]
    rfl

/-! ## What is loaded -/

/-- A node that `conf_doc_append_child` fills. -/
def container (name : Str) : List ConfNode → ConfNode
  | [] => ConfNode.create name
  | c :: cs => .node name .object (c :: cs)

@[simp] theorem name_container (cs : List ConfNode) : (container name cs).name = name := by
  cases cs <;> rfl

@[simp] theorem children_container (cs : List ConfNode) : (container name cs).children = cs := by
  cases cs <;> rfl

theorem appendChild_container (cs : List ConfNode) (child : ConfNode) :
    (container name cs).appendChild child = container name (cs ++ [child]) := by
  cases cs <;> rfl

theorem setFirstChild_container {cs : List ConfNode} (hcs : cs ≠ []) (ds : List ConfNode) :
    (container name cs).setFirstChild (ds ++ [n]) = container name (ds ++ [n]) := by
  cases cs with
  | nil => exact absurd rfl hcs
  | cons c cs => cases ds <;> rfl

theorem updateAt_container (f : ConfNode → ConfNode) (cs : List ConfNode) (way : List Nat) :
    (container name (cs ++ [n])).updateAt f (cs.length :: way) =
      container name (cs ++ [n.updateAt f way]) := by
  have hget : (container name (cs ++ [n])).children[cs.length]? = some n := by
    rw [children_container, getElem?_concat_length]
  rw [ConfNode.updateAt, hget]
  dsimp only
  rw [children_container, set_append_right _ _ (Nat.le_refl _), Nat.sub_self,
    set_cons_zero, setFirstChild_container (append_ne_nil_of_right_ne_nil cs (by simp))]

/-- The root while it is loaded: the last child is the current group, if there is one. -/
structure Loaded where
  done : List ConfNode
  last : Option (Str × List ConfNode)

namespace Loaded

def flat (L : Loaded) : List ConfNode :=
  match L.last with
  | none => L.done
  | some (g, ks) => L.done ++ [container g ks]

def group (L : Loaded) : Option (List Nat) := L.last.map fun _ => [L.done.length]

def addKey (L : Loaded) (k : ConfNode) : Loaded :=
  match L.last with
  | none => { L with done := L.done ++ [k] }
  | some (g, ks) => { L with last := some (g, ks ++ [k]) }

def addGroup (L : Loaded) (name : Str) : Loaded := { done := L.flat, last := some (name, []) }

theorem group_addKey (L : Loaded) (k : ConfNode) : (L.addKey k).group = L.group := by
  obtain ⟨done, last⟩ := L
  cases last <;> rfl

/-- A key that is appended and then gets its value. -/
theorem root_addKey (L : Loaded) (f : ConfNode → ConfNode) :
    ((container name L.flat).appendAt (L.group.getD []) n).1.updateAt f
      ((container name L.flat).appendAt (L.group.getD []) n).2 =
      container name (L.addKey (f n)).flat := by
  obtain ⟨done, last⟩ := L
  cases last with
  | none =>
    have happend : (container name (done ++ [n])).updateAt f [done.length] =
        container name (done ++ [f n]) := updateAt_container f done []
    simpa [flat, group, addKey, ConfNode.appendAt, ConfNode.updateAt, ConfNode.nodeAt,
      appendChild_container] using happend
  | some g =>
    obtain ⟨g, ks⟩ := g
    have hget : (container name (done ++ [container g ks])).nodeAt [done.length] =
        some (container g ks) := by
      rw [ConfNode.nodeAt, children_container, getElem?_concat_length]
      rfl
    have happend : (container name (done ++ [container g ks])).updateAt (·.appendChild n)
        [done.length] = container name (done ++ [container g (ks ++ [n])]) := by
      rw [updateAt_container, ConfNode.updateAt, appendChild_container]
    have hupdate : (container name (done ++ [container g (ks ++ [n])])).updateAt f
        [done.length, ks.length] = container name (done ++ [container g (ks ++ [f n])]) := by
      rw [updateAt_container, updateAt_container, ConfNode.updateAt]
    simp only [flat, group, addKey, ConfNode.appendAt, map_some, getD_some, hget,
      happend, children_container, singleton_append, hupdate]

/-- The loader has read up to the end of a line. -/
structure Reads (L : Loaded) (l : Loader) : Prop where
  state : l.state = .none
  root : l.root = container ConfDoc.rootName L.flat
  group : l.group = L.group

variable {L : Loaded} {l : Loader}

theorem Reads.eq (h : L.Reads l) :
    l = ⟨.none, l.c, l.s, container ConfDoc.rootName L.flat, l.node, L.group⟩ := by
  rw [← h.state, ← h.root, ← h.group]

theorem Reads.key (h : L.Reads l) (hname : IniName name) (htext : IniText s) :
    (L.addKey (newKey name s)).Reads ((keyLine name s).foldl Loader.next l) := by
  rw [h.eq, Loader.foldl_key hname htext]
  exact ⟨rfl, root_addKey L _, (group_addKey L _).symm⟩

theorem Reads.group_line (h : L.Reads l) (hname : IniName name) :
    (L.addGroup name).Reads ((groupLine name).foldl Loader.next l) := by
  rw [h.eq, Loader.foldl_group hname]
  refine ⟨rfl, ?_, ?_⟩
  · exact appendChild_container L.flat _
  · simp [ConfNode.appendAt, ConfNode.nodeAt, Loaded.group, addGroup]

/-- A key of the document. -/
def addSaved (L : Loaded) (k : ConfNode) : Loaded := L.addKey (newKey k.name (text k))

theorem Reads.keys : ∀ {ks : List ConfNode} {L : Loaded} {l : Loader}, L.Reads l →
    (∀ k ∈ ks, Key k) → (ks.foldl addSaved L).Reads ((keyLines ks).foldl Loader.next l)
  | [], _, _, h, _ => h
  | k :: ks, L, l, h, hks => by
    have hk : Key k := hks k mem_cons_self
    have ih : (ks.foldl addSaved (L.addSaved k)).Reads
        ((keyLines ks).foldl Loader.next ((keyLine k.name (text k)).foldl Loader.next l)) :=
      (h.key hk.name hk.getValue.2).keys fun b hb => hks b (mem_cons_of_mem k hb)
    rw [keyLines, flatMap_cons, foldl_append]
    exact ih

/-- A child of the root. -/
def addChild (L : Loaded) (c : ConfNode) : Loaded :=
  if isGroup c then c.children.foldl addSaved (L.addGroup c.name) else L.addSaved c

theorem Reads.children : ∀ {cs : List ConfNode} {L : Loaded} {l : Loader}, L.Reads l →
    (∀ c ∈ cs, Key c ∨ Group c) →
    (cs.foldl addChild L).Reads ((cs.flatMap groupText).foldl Loader.next l)
  | [], _, _, h, _ => h
  | c :: cs, L, l, h, hcs => by
    have hc : (L.addChild c).Reads ((groupText c).foldl Loader.next l) := by
      cases hcs c mem_cons_self with
      | inl hkey =>
        rw [addChild, groupText, hkey.not_group]
        exact h.key hkey.name hkey.getValue.2
      | inr hgroup =>
        rw [addChild, groupText, hgroup.isGroup, if_pos rfl, if_pos rfl, foldl_append]
        exact (h.group_line hgroup.name).keys hgroup.keys
    rw [flatMap_cons, foldl_append]
    exact hc.children fun b hb => hcs b (mem_cons_of_mem c hb)

theorem foldl_addSaved {g : Str} : ∀ (ks : List ConfNode) {done kids : List ConfNode},
    ks.foldl addSaved ⟨done, some (g, kids)⟩ =
      ⟨done, some (g, kids ++ ks.map fun k => newKey k.name (text k))⟩
  | [], done, kids => by rw [map_nil, append_nil]; rfl
  | k :: ks, done, kids => by
    rw [foldl_cons, map_cons]
    refine (foldl_addSaved ks).trans ?_
    rw [append_assoc, singleton_append]

theorem addChild_group {c : ConfNode} (L : Loaded) (h : isGroup c = true) :
    L.addChild c = ⟨L.flat, some (c.name, c.children.map fun k => newKey k.name (text k))⟩ := by
  rw [addChild, if_pos h, addGroup, foldl_addSaved, nil_append]

theorem addChild_key {c : ConfNode} (L : Loaded) (h : isGroup c = false) :
    L.addChild c = L.addKey (newKey c.name (text c)) := by
  rw [addChild, h]
  rfl

/-- The names that the root has in the end: those of the groups and of the keys in front
of them. -/
def rootNames : Bool → List ConfNode → List Str
  | _, [] => []
  | inGroup, c :: cs =>
    if isGroup c then c.name :: rootNames true cs
    else if inGroup then rootNames inGroup cs
    else c.name :: rootNames inGroup cs

theorem rootNames_subset : ∀ (cs : List ConfNode) (b : Bool), ∀ a ∈ rootNames b cs,
    a ∈ cs.map ConfNode.name
  | [], _, _, h => h
  | c :: cs, b, a, ha => by
    rw [rootNames] at ha
    rw [map_cons, mem_cons]
    by_cases hc : isGroup c = true
    · rw [if_pos hc] at ha
      exact (mem_cons.mp ha).imp_right (rootNames_subset cs true a)
    · rw [if_neg hc] at ha
      cases b with
      | true => exact .inr (rootNames_subset cs true a ha)
      | false => exact (mem_cons.mp ha).imp_right (rootNames_subset cs false a)

theorem names_flat : ∀ (cs : List ConfNode) (L : Loaded),
    (cs.foldl addChild L).flat.map ConfNode.name =
      L.flat.map ConfNode.name ++ rootNames L.last.isSome cs
  | [], L => by rw [rootNames, append_nil]; rfl
  | c :: cs, L => by
    rw [foldl_cons, names_flat cs]
    cases hc : isGroup c with
    | true =>
      rw [rootNames, if_pos hc, addChild_group L hc]
      simp [flat]
    | false =>
      rw [rootNames, hc, addChild_key L hc]
      obtain ⟨done, last⟩ := L
      cases last <;> simp [flat, addKey]

end Loaded

/-- A child of the root as it comes back from its own place. -/
def reload (c : ConfNode) : ConfNode :=
  if isGroup c then container c.name (c.children.map fun k => newKey k.name (text k))
  else newKey c.name (text c)

/-- No key comes after a group. -/
def KeysFirst (cs : List ConfNode) : Prop := cs.Pairwise fun a b => isGroup a = true → isGroup b = true

instance (cs : List ConfNode) : Decidable (KeysFirst cs) :=
  inferInstanceAs (Decidable (cs.Pairwise _))

theorem flat_of_keysFirst : ∀ {cs : List ConfNode} (L : Loaded), KeysFirst cs →
    (L.last.isSome → ∀ c ∈ cs, isGroup c = true) →
    (cs.foldl Loaded.addChild L).flat = L.flat ++ cs.map reload
  | [], L, _, _ => by rw [map_nil, append_nil]; rfl
  | c :: cs, L, hfirst, hlast => by
    obtain ⟨hc, hcs⟩ := pairwise_cons.mp hfirst
    rw [foldl_cons, map_cons, reload]
    cases hgroup : isGroup c with
    | true =>
      rw [flat_of_keysFirst _ hcs fun _ b hb => hc b hb hgroup, L.addChild_group hgroup]
      simp [Loaded.flat]
    | false =>
      obtain ⟨done, last⟩ := L
      cases last with
      | some g => exact absurd (hlast rfl c mem_cons_self) (by simp [hgroup])
      | none =>
        rw [Loaded.addChild_key _ hgroup, flat_of_keysFirst _ hcs fun h => by cases h]
        simp [Loaded.flat, Loaded.addKey]

/-- Where every key is found at the root again, the keys come first. -/
theorem keysFirst_of_rootNames : ∀ {cs : List ConfNode} {inGroup : Bool},
    (cs.map ConfNode.name).Nodup →
    (∀ c ∈ cs, isGroup c = false → c.name ∈ Loaded.rootNames inGroup cs) →
    KeysFirst cs ∧ (inGroup = true → ∀ c ∈ cs, isGroup c = true)
  | [], _, _, _ => ⟨List.Pairwise.nil, fun _ _ h => absurd h not_mem_nil⟩
  | c :: cs, inGroup, hnodup, hnames => by
    obtain ⟨hc, hcs⟩ := nodup_cons.mp hnodup
    have htail : ∀ b, (∀ a ∈ Loaded.rootNames inGroup (c :: cs),
        a = c.name ∨ a ∈ Loaded.rootNames b cs) →
        ∀ d ∈ cs, isGroup d = false → d.name ∈ Loaded.rootNames b cs := by
      intro b hb d hd hkey
      cases hb _ (hnames d (mem_cons_of_mem c hd) hkey) with
      | inl heq => exact absurd (List.mem_map.mpr ⟨d, hd, heq⟩) hc
      | inr hmem => exact hmem
    cases hgroup : isGroup c with
    | true =>
      have hb : ∀ a ∈ Loaded.rootNames inGroup (c :: cs), a = c.name ∨
          a ∈ Loaded.rootNames true cs := by
        intro a ha
        rw [Loaded.rootNames, if_pos hgroup] at ha
        exact mem_cons.mp ha
      obtain ⟨hrest, hall⟩ := keysFirst_of_rootNames hcs (htail true hb)
      refine ⟨pairwise_cons.mpr ⟨fun b hb _ => hall rfl b hb, hrest⟩, fun _ => ?_⟩
      exact forall_mem_cons.mpr ⟨hgroup, hall rfl⟩
    | false =>
      cases inGroup with
      | true =>
        have hmem : c.name ∈ Loaded.rootNames true (c :: cs) :=
          hnames c mem_cons_self hgroup
        rw [Loaded.rootNames, hgroup] at hmem
        exact absurd (Loaded.rootNames_subset cs true _ hmem) hc
      | false =>
        have hb : ∀ a ∈ Loaded.rootNames false (c :: cs), a = c.name ∨
            a ∈ Loaded.rootNames false cs := by
          intro a ha
          rw [Loaded.rootNames, hgroup] at ha
          exact mem_cons.mp ha
        obtain ⟨hrest, -⟩ := keysFirst_of_rootNames hcs (htail false hb)
        refine ⟨pairwise_cons.mpr ⟨fun b _ h => ?_, hrest⟩, fun h => by cases h⟩
        rw [hgroup] at h
        cases h

/-! ## The views of a document and of what is loaded -/

theorem getValue_newKey (name s : Str) : (newKey name s).getValue = some (.str (some s)) :=
  ConfDoc.setValue_ok (v := .str (some s)) rfl

theorem children_newKey (name s : Str) : (newKey name s).children = [] := rfl

theorem Key.children (h : Key n) : n.children = [] := by
  cases n with
  | none => rfl
  | leaf => rfl
  | node =>
    obtain ⟨s, hs, -⟩ := h.value
    cases hs

theorem childNamed_map {m : ConfNode} {f : ConfNode → ConfNode} (hf : ∀ c, (f c).name = c.name)
    (hm : m.children = n.children.map f) (a : Str) : m.childNamed a = (n.childNamed a).map f := by
  rw [ConfNode.childNamed, ConfNode.childNamed, hm, find?_map]
  have hcongr : (fun c => decide (c.name = a)) ∘ f = fun c => decide (c.name = a) :=
    funext fun c => by rw [Function.comp_apply, hf]
  rw [hcongr]

theorem view_congr {m : ConfNode} {f : ConfNode → ConfNode} (hf : ∀ c, (f c).name = c.name)
    (hm : m.children = n.children.map f) (hvalue : m.getValue = n.getValue)
    (hview : ∀ c ∈ n.children, ∀ q,
      ((f c).view q).map ConfNode.getValue = (c.view q).map ConfNode.getValue) :
    ∀ q, (m.view q).map ConfNode.getValue = (n.view q).map ConfNode.getValue
  | [] => congrArg some hvalue
  | a :: q => by
    rw [ConfNode.view, ConfNode.view, childNamed_map hf hm]
    cases hc : n.childNamed a with
    | none => rfl
    | some c => exact hview c (mem_of_find?_eq_some hc) q

theorem Key.view_reload (h : Key n) :
    ∀ q, ((newKey n.name (text n)).view q).map ConfNode.getValue =
      (n.view q).map ConfNode.getValue := by
  refine view_congr (f := id) (fun _ => rfl) ?_ ?_ ?_
  · rw [children_newKey, h.children, map_nil]
  · rw [getValue_newKey, h.getValue.1]
  · intro c hc
    rw [h.children] at hc
    cases hc

theorem name_reload (c : ConfNode) : (reload c).name = c.name := by
  rw [reload]
  cases isGroup c
  · exact name_newKey _ _
  · exact name_container _

theorem getValue_container (cs : List ConfNode) : (container name cs).getValue = none := by
  cases cs <;> rfl

theorem getValue_group (h : isGroup n = true) : n.getValue = none := by
  cases n with
  | none => rfl
  | leaf => cases h
  | node => rfl

theorem view_reload (h : Key n ∨ Group n) :
    ∀ q, ((reload n).view q).map ConfNode.getValue = (n.view q).map ConfNode.getValue := by
  cases h with
  | inl hkey =>
    rw [reload, hkey.not_group]
    exact hkey.view_reload
  | inr hgroup =>
    rw [reload, if_pos hgroup.isGroup]
    refine view_congr (fun k => name_newKey k.name (text k)) (children_container _) ?_ ?_
    · rw [getValue_container, getValue_group hgroup.isGroup]
    · exact fun k hk => (hgroup.keys k hk).view_reload

/-! ## The round trip -/

variable {doc : ConfDoc}

/-- What is saved and loaded again gives the same at every path of plain names. -/
def RoundTrips (doc : ConfDoc) : Prop :=
  ∃ saved, save doc = some saved ∧ ∀ path names, doc.PlainPath path names →
    ((load saved).get path).map Prod.fst = (doc.get path).map Prod.fst

theorem save_eq (h : IniDoc doc) : save doc = some (doc.base.children.flatMap groupText) := by
  rw [save]
  cases hroot : doc.root with
  | none => simp [ConfDoc.base, hroot, ConfNode.create, ConfNode.children]
  | some root =>
    have hbase : doc.base = root := by rw [ConfDoc.base, hroot, getD_some]
    have hcs := h.children
    rw [hbase] at hcs ⊢
    dsimp only
    rw [save_groups hcs, map_some, flatMap_def]

/-- The root that is loaded. -/
def loadedRoot (doc : ConfDoc) : ConfNode :=
  container ConfDoc.rootName (doc.base.children.foldl Loaded.addChild ⟨[], none⟩).flat

theorem load_eq (h : IniDoc doc) : load (doc.base.children.flatMap groupText) =
    { root := some (loadedRoot doc), maxDeepLevel := 2, disablePath := false } := by
  have hstart : (Loaded.mk [] none).Reads Loader.start := ⟨rfl, rfl, rfl⟩
  have hread := hstart.children h.children
  rw [load, hread.state, if_neg (by decide), hread.root]
  rfl

theorem IniDoc.plainPath (h : IniDoc doc) (hname : IniName name) : doc.PlainPath name [name] := by
  have hpath : doc.PlainPath (List.intercalate [('.' : UInt8)] [name]) [name] := by
    refine ConfDoc.plainPath_join h.disablePath (cons_ne_nil _ _) ?_ ?_ ?_ ?_
    · rw [h.maxDeepLevel, length_singleton]
      decide
    · exact fun a ha => mem_singleton.mp ha ▸ hname.word'
    · exact fun a ha => mem_singleton.mp ha ▸ hname.plain
    · rw [intercalate_singleton]
      exact fun hmem => ne_of_isWord (hname.word _ hmem) (by decide) rfl
  rwa [intercalate_singleton] at hpath

theorem IniDoc.view_child (h : IniDoc doc) {c : ConfNode} (hc : c ∈ doc.base.children) :
    doc.view [c.name] = some c := by
  rw [← ConfDoc.view_base (cons_ne_nil _ _), ConfNode.view]
  cases hfind : doc.base.childNamed c.name with
  | none =>
    have hnot := find?_eq_none.mp hfind c hc
    simp at hnot
  | some c' =>
    have hname : c'.name = c.name := by simpa using find?_some hfind
    rw [inj_on_of_nodup_map h.nodup (mem_of_find?_eq_some hfind) hc hname]
    rfl

theorem IniDoc.plainPath_loaded (h : IniDoc doc) {path : Str} {names : List Str}
    (hpath : doc.PlainPath path names) :
    (ConfDoc.mk (some (loadedRoot doc)) 2 false).PlainPath path names := by
  refine ⟨?_, hpath.nonempty, hpath.plain, hpath.noSpecial⟩
  rw [← hpath.tokens, ConfDoc.tokens, ConfDoc.tokens, h.maxDeepLevel, h.disablePath]

theorem IniDoc.comesBack_iff (h : IniDoc doc) :
    RoundTrips doc ↔ KeysFirst doc.base.children := by
  constructor
  · rintro ⟨saved, hsaved, hget⟩
    rw [save_eq h, some_inj] at hsaved
    subst hsaved
    rw [load_eq h] at hget
    have hall : ∀ c ∈ doc.base.children, isGroup c = false →
        c.name ∈ Loaded.rootNames false doc.base.children := fun c hc hnot => ?_
    exact (keysFirst_of_rootNames h.nodup hall).1
    cases h.children c hc with
    | inr hgroup => rw [hgroup.isGroup] at hnot; cases hnot
    | inl hkey =>
      have hpath : doc.PlainPath c.name [c.name] := h.plainPath hkey.name
      have heq := hget c.name [c.name] hpath
      rw [ConfDoc.get_view hpath, ConfDoc.get_view (h.plainPath_loaded hpath), h.view_child hc,
        ConfDoc.answer, hkey.getValue.1] at heq
      have hnames : (loadedRoot doc).children.map ConfNode.name =
          Loaded.rootNames false doc.base.children := by
        rw [loadedRoot, children_container]
        exact Loaded.names_flat _ _
      rw [← hnames]
      cases hview : (loadedRoot doc).childNamed c.name with
      | none => simp [ConfDoc.view, ConfNode.view, hview, ConfDoc.answer] at heq
      | some c' =>
        have hname : c'.name = c.name := by simpa using find?_some hview
        exact List.mem_map.mpr ⟨c', mem_of_find?_eq_some hview, hname⟩
  · intro hfirst
    refine ⟨_, save_eq h, fun path names hpath => ?_⟩
    rw [load_eq h, ConfDoc.get_view hpath, ConfDoc.get_view (h.plainPath_loaded hpath)]
    refine congrArg some (ConfDoc.answer_congr ?_)
    have hbase : doc.view names = doc.base.view names := (ConfDoc.view_base hpath.nonempty).symm
    rw [hbase]
    cases hnames : names with
    | nil => exact absurd hnames hpath.nonempty
    | cons a q =>
      have hflat : (loadedRoot doc).children = doc.base.children.map reload := by
        rw [loadedRoot, children_container, flat_of_keysFirst _ hfirst fun h => by cases h]
        rfl
      rw [ConfDoc.view, bind_some, ConfNode.view, ConfNode.view,
        childNamed_map name_reload hflat]
      cases hc : doc.base.childNamed a with
      | none => rfl
      | some c => exact view_reload (h.children c (mem_of_find?_eq_some hc)) q

/-! ## Documents after any settings -/

theorem children_put {g : ConfNode → ConfNode} {P : ConfNode → Prop} {a : Str} {p : List Str}
    (hg : ∀ x, (g x).name = x.name) (hall : ∀ c ∈ n.children, P c)
    (hnodup : (n.children.map ConfNode.name).Nodup)
    (hput : ∀ c ∈ n.children, c.name = a → P (ConfNode.put g p c))
    (hnew : P (ConfNode.put g p (ConfNode.create a))) :
    (∀ c ∈ (ConfNode.put g (a :: p) n).children, P c) ∧
      ((ConfNode.put g (a :: p) n).children.map ConfNode.name).Nodup := by
  cases hi : n.findChild a with
  | none =>
    have hname : (ConfNode.put g p (ConfNode.create a)).name = a := ConfNode.name_put hg p _
    have hnot : a ∉ n.children.map ConfNode.name := by
      intro hmem
      obtain ⟨c, hc, heq⟩ := List.mem_map.mp hmem
      exact ConfNode.findChild_none hi c hc heq
    rw [ConfNode.put_missing hi, ConfNode.children_appendChild, map_append, map_singleton,
      hname]
    refine ⟨fun c hc => ?_, ?_⟩
    · cases mem_append.mp hc with
      | inl hold => exact hall c hold
      | inr hlast => exact mem_singleton.mp hlast ▸ hnew
    · exact nodup_append_comm.mp (nodup_cons.mpr ⟨hnot, hnodup⟩)
  | some i =>
    obtain ⟨l, child, r, h⟩ := ConfNode.findChild_some hi
    have hname : (ConfNode.put g p child).name = child.name := ConfNode.name_put hg p child
    have hmem : child ∈ n.children := by rw [h.split]; simp
    rw [h.put hi, ConfNode.children_setFirstChild]
    rw [h.split] at hnodup
    refine ⟨fun c hc => ?_, by simpa [hname] using hnodup⟩
    rcases mem_append.mp hc with hl | hr
    · exact hall c (by rw [h.split]; exact mem_append_left _ hl)
    · rcases mem_cons.mp hr with rfl | hr
      · exact hput child hmem h.named
      · exact hall c (by rw [h.split]; exact mem_append_right _ (mem_cons_of_mem _ hr))

theorem isGroup_put {g : ConfNode → ConfNode} (a : Str) (p : List Str) :
    isGroup (ConfNode.put g (a :: p) n) = true := by
  cases hi : n.findChild a with
  | none =>
    rw [ConfNode.put_missing hi]
    cases n with
    | none => rfl
    | leaf => rfl
    | node name type cs => cases cs <;> rfl
  | some i =>
    obtain ⟨l, child, r, h⟩ := ConfNode.findChild_some hi
    rw [h.put hi]
    rfl

theorem key_set (hname : IniName n.name) (htext : IniText s) (hn : isGroup n = false) :
    Key (n.setValue (.str (some s))).2 := by
  cases n with
  | node => cases hn
  | none | leaf => exact ⟨hname, s, ConfDoc.setValue_ok (v := .str (some s)) rfl, htext⟩

theorem group_set {b : Str} (hname : IniName n.name) (hb : IniName b) (htext : IniText s)
    (hkeys : ∀ k ∈ n.children, Key k) (hnodup : (n.children.map ConfNode.name).Nodup) :
    Group (ConfNode.put (fun x => (x.setValue (.str (some s))).2) [b] n) := by
  obtain ⟨hall, hnodup'⟩ := children_put (p := []) ConfDoc.name_setValue hkeys hnodup
    (fun c hc heq => key_set (hkeys c hc).name htext (hkeys c hc).not_group)
    (key_set hb htext rfl)
  refine ⟨isGroup_put b [], ?_, hall, hnodup'⟩
  rw [ConfNode.name_put ConfDoc.name_setValue]
  exact hname

theorem EmptyIni.iniDoc (h : EmptyIni doc) : IniDoc doc := by
  have hbase : doc.base = ConfNode.create ConfDoc.rootName := by
    rw [ConfDoc.base]
    cases h.root with
    | inl hnone => rw [hnone, getD_none]
    | inr hsome => rw [hsome, getD_some]
  refine ⟨h.maxDeepLevel, h.disablePath, ?_, ?_⟩
  · rw [hbase]
    exact fun c hc => absurd hc not_mem_nil
  · rw [hbase]
    exact nodup_nil

theorem mem_join : ∀ (names : List Str), c ∈ List.intercalate [('.' : UInt8)] names →
    c = '.' ∨ ∃ name ∈ names, c ∈ name
  | [], h => absurd h not_mem_nil
  | [name], h => .inr ⟨name, mem_cons_self, by rwa [intercalate_singleton] at h⟩
  | name :: b :: names, h => by
    rw [intercalate_cons_cons, append_assoc, mem_append, mem_append,
      mem_singleton] at h
    rcases h with hname | hdot | hrest
    · exact .inr ⟨name, mem_cons_self, hname⟩
    · exact .inl hdot
    · refine (mem_join (b :: names) hrest).imp_right ?_
      rintro ⟨a, ha, hc⟩
      exact ⟨a, mem_cons_of_mem name ha, hc⟩

theorem IniDoc.set (h : IniDoc doc) {path : Str} (hpath : IniPath path) (htext : IniText s) :
    ∃ ret doc', doc.set path (.str (some s)) = some (ret, doc') ∧ IniDoc doc' := by
  obtain ⟨names, rfl, hlen, hnames⟩ := hpath
  have hne : names ≠ [] := by
    rintro rfl
    simp at hlen
  have hplain : doc.PlainPath (List.intercalate [('.' : UInt8)] names) names := by
    refine ConfDoc.plainPath_join h.disablePath hne ?_ (fun a ha => (hnames a ha).word')
      (fun a ha => (hnames a ha).plain) fun hmem => ?_
    · rw [h.maxDeepLevel]
      omega
    · cases mem_join names hmem with
      | inl hdot => exact absurd hdot (by decide)
      | inr hname =>
        obtain ⟨name, hname, hc⟩ := hname
        exact ne_of_isWord ((hnames name hname).word _ hc) (by decide) rfl
  suffices hroot : (∀ c ∈ (ConfNode.put (fun x => (x.setValue (.str (some s))).2) names
      doc.base).children, Key c ∨ Group c) ∧
      ((ConfNode.put (fun x => (x.setValue (.str (some s))).2) names
        doc.base).children.map ConfNode.name).Nodup from
    ⟨_, _, ConfDoc.set_put hplain, h.maxDeepLevel, h.disablePath, hroot.1, hroot.2⟩
  match names, hlen, hnames with
  | [a], _, hnames =>
    have ha : IniName a := hnames a mem_cons_self
    refine children_put ConfDoc.name_setValue h.children h.nodup (fun c hc _ => ?_)
      (.inl (key_set ha htext rfl))
    cases h.children c hc with
    | inl hkey => exact .inl (key_set hkey.name htext hkey.not_group)
    | inr hgroup =>
      right
      cases c with
      | node => exact hgroup
      | none => cases hgroup.isGroup
      | leaf => cases hgroup.isGroup
  | [a, b], _, hnames =>
    have ha : IniName a := hnames a mem_cons_self
    have hb : IniName b := hnames b (mem_cons_of_mem a mem_cons_self)
    refine children_put ConfDoc.name_setValue h.children h.nodup (fun c hc _ => ?_)
      (.inr (group_set ha hb htext (fun k hk => absurd hk not_mem_nil) nodup_nil))
    cases h.children c hc with
    | inl hkey =>
      refine .inr (group_set hkey.name hb htext ?_ ?_)
      · rw [hkey.children]
        exact fun k hk => absurd hk not_mem_nil
      · rw [hkey.children]
        exact nodup_nil
    | inr hgroup => exact .inr (group_set hgroup.name hb htext hgroup.keys hgroup.nodup)

theorem IniDoc.setAll : ∀ {sets : List (Str × Str)} {doc : ConfDoc}, IniDoc doc →
    (∀ s ∈ sets, IniPath s.1 ∧ IniText s.2) → ∃ doc', Ini.setAll sets doc = some doc' ∧ IniDoc doc'
  | [], doc, h, _ => ⟨doc, rfl, h⟩
  | (path, s) :: sets, doc, h, hsets => by
    obtain ⟨hpath, htext⟩ := hsets (path, s) mem_cons_self
    obtain ⟨ret, doc', hset, h'⟩ := h.set hpath htext
    rw [Ini.setAll, hset, bind_some]
    exact h'.setAll fun b hb => hsets b (mem_cons_of_mem _ hb)

/-- After any settings the document comes back exactly where no key at the root comes after
a group. -/
theorem roundTrips_iff_keysFirst (h : EmptyIni doc) (sets : List (Str × Str))
    (hsets : ∀ s ∈ sets, IniPath s.1 ∧ IniText s.2) :
    ∃ doc', setAll sets doc = some doc' ∧ (RoundTrips doc' ↔ KeysFirst doc'.base.children) := by
  obtain ⟨doc', hrun, h'⟩ := h.iniDoc.setAll hsets
  exact ⟨doc', hrun, h'.comesBack_iff⟩

/-- A key in front of a group comes back. -/
theorem roundTrips_key_group :
    ∃ doc, setAll [(['x'], ['y']), (['g', '.', 'k'], ['v'])] { ConfDoc.create with maxDeepLevel := 2 }
      = some doc ∧ RoundTrips doc := by
  have hempty : EmptyIni { ConfDoc.create with maxDeepLevel := 2 } := ⟨rfl, rfl, .inl rfl⟩
  have hword : ∀ c : UInt8, isWord c = true → IniName [c] := fun c hc =>
    ⟨cons_ne_nil c [], fun b hb => mem_singleton.mp hb ▸ hc⟩
  have hg : IniName ['g'] := hword 'g' (by decide)
  have hk : IniName ['k'] := hword 'k' (by decide)
  have hx : IniName ['x'] := hword 'x' (by decide)
  have hsets : ∀ s ∈ ([(['x'], ['y']), (['g', '.', 'k'], ['v'])] : List (Str × Str)),
      IniPath s.1 ∧ IniText s.2 := by
    intro s hs
    rcases mem_cons.mp hs with rfl | hs
    · exact ⟨⟨[['x']], rfl, .inl rfl, fun _ h => mem_singleton.mp h ▸ hx⟩, by decide⟩
    · rw [mem_singleton.mp hs]
      refine ⟨⟨[['g'], ['k']], rfl, .inr rfl, fun _ h => ?_⟩, by decide⟩
      rcases mem_cons.mp h with rfl | h
      · exact hg
      · exact mem_singleton.mp h ▸ hk
  obtain ⟨doc, hrun, hiff⟩ := roundTrips_iff_keysFirst hempty _ hsets
  refine ⟨doc, hrun, hiff.mpr ?_⟩
  cases hrun
  decide +kernel

/-- A key behind a group comes back as a key of the group. -/
theorem not_roundTrips_group_key :
    ∃ doc, setAll [(['g', '.', 'k'], ['v']), (['x'], ['y'])] { ConfDoc.create with maxDeepLevel := 2 }
      = some doc ∧ ¬RoundTrips doc := by
  refine ⟨_, rfl, ?_⟩
  rintro ⟨saved, hsaved, hget⟩
  cases hsaved
  have hpath := hget ['x'] [['x']] ⟨by decide +kernel, cons_ne_nil _ _, fun name hname => ?_, by decide⟩
  · revert hpath
    decide +kernel
  · rw [mem_singleton.mp hname]
    exact ⟨by decide, by decide⟩

end Ini

end Awtk.Conf
