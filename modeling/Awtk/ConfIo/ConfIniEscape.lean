import Mathlib
import Awtk.ConfIo.ConfIniRoundTrip

/-!
# Escapes of an INI value

The saver writes a backslash and a letter for a control character, and a backslash in front of a
`#` and of a backslash.  The loader drops the first backslash of a run and keeps what follows, so
that letters stay letters, and a backslash is only lost where no backslash is in front of it.
A value comes back exactly when none of that meets it (`value_comesBack_iff`).
-/

namespace Awtk.Conf

open List Option

set_option maxRecDepth 2048

namespace Ini

/-! ## What is written and read -/

/-- The saver writes a backslash in front of the character. -/
def Marked (c : UInt8) : Prop := strEscapeChar c ≠ c ∨ c = '#' ∨ c = '\\'

instance (c : UInt8) : Decidable (Marked c) := inferInstanceAs (Decidable (_ ∨ _))

/-- What is read of a value that was saved, behind a backslash or not. -/
def reread : Bool → Str → Str
  | _, [] => []
  | slash, c :: s =>
    if slash = true ∧ Marked c then '\\' :: strEscapeChar c :: reread (c = '\\') s
    else strEscapeChar c :: reread (c = '\\') s

/-- No character is written as another one, and no backslash stands in front of a backslash or
a `#`. -/
def Kept : Bool → Str → Prop
  | _, [] => True
  | slash, c :: s =>
    strEscapeChar c = c ∧ (slash = true → c ≠ '#' ∧ c ≠ '\\') ∧ Kept (c = '\\') s

/-- The first and the last character are no white space. -/
def Trimmed (s : Str) : Prop :=
  (∀ c ∈ s.head?, isSpace c = false) ∧ ∀ c ∈ s.getLast?, isSpace c = false

variable {c a : UInt8} {s t acc : Str} {slash : Bool}

theorem marked_newline : Marked '\n' := .inl (by decide)

theorem Marked.not_space (h : Marked c) : ([' ', '\t', '\r', '\n'] : Str).contains (strEscapeChar c) =
    false := by
  have hall := forall_byte (p := fun c => !decide (Marked c) ||
    !([' ', '\t', '\r', '\n'] : Str).contains (strEscapeChar c)) (by decide +kernel) c
  simpa [h] using hall

theorem escape_eq_slash : strEscapeChar c = '\\' ↔ c = '\\' := by
  have hall := forall_byte (p := fun c => decide (strEscapeChar c = '\\' ↔ c = '\\'))
    (by decide +kernel) c
  simpa using hall

theorem not_marked (h : ¬Marked c) :
    strEscapeChar c = c ∧ c ≠ '#' ∧ c ≠ '\\' ∧ c ≠ '\n' := by
  refine ⟨Classical.not_not.mp fun he => h (.inl he), fun he => h (.inr (.inl he)),
    fun he => h (.inr (.inr he)), ?_⟩
  rintro rfl
  exact h marked_newline

theorem saveStr_cons (c : UInt8) (s : Str) : saveStr commentChar (c :: s) =
    (if Marked c then [('\\' : UInt8), strEscapeChar c] else [c]) ++ saveStr commentChar s := by
  by_cases h : Marked c
  · have hcond : strEscapeChar c ≠ c ∨ c = commentChar ∨ c = '\\' ∨ c = '\n' :=
      h.imp_right fun h => h.imp_right .inl
    rw [saveStr, if_pos h, if_pos hcond]
    rfl
  · obtain ⟨hescape, hcomment, hslash, hlf⟩ := not_marked h
    have hcond : ¬(strEscapeChar c ≠ c ∨ c = commentChar ∨ c = '\\' ∨ c = '\n') := by
      rintro (he | he | he | he)
      · exact he hescape
      · exact hcomment he
      · exact hslash he
      · exact hlf he
    rw [saveStr, if_neg h, if_neg hcond, hescape]
    rfl

theorem not_blank_of_not_space (hc : isSpace c = false) :
    ([' ', '\t', '\r', '\n'] : Str).contains (strEscapeChar c) = false := by
  have hall := forall_byte (p := fun c => isSpace c ||
    !([' ', '\t', '\r', '\n'] : Str).contains (strEscapeChar c)) (by decide +kernel) c
  simpa [hc] using hall

theorem reread_ne_nil (slash : Bool) (c : UInt8) (s : Str) : reread slash (c :: s) ≠ [] := by
  rw [reread]
  split <;> exact cons_ne_nil _ _

theorem getLast?_reread (slash : Bool) :
    ∀ s : Str, (reread slash s).getLast? = s.getLast?.map strEscapeChar
  | [] => rfl
  | [c] => by
    rw [reread, reread]
    split <;> rfl
  | c :: b :: s => by
    have ih := getLast?_reread (c = '\\') (b :: s)
    have hcons : ∀ d, (d :: reread (c = '\\') (b :: s)).getLast? =
        (reread (c = '\\') (b :: s)).getLast? := by
      intro d
      obtain ⟨e, r, hr⟩ := exists_cons_of_ne_nil (reread_ne_nil (c = '\\') b s)
      rw [hr, getLast?_cons_cons]
    rw [reread, getLast?_cons_cons]
    split
    · rw [getLast?_cons_cons, hcons, ih]
    · rw [hcons, ih]

/-! ## Reading a value -/

namespace Loader

variable {root : ConfNode} {node group : Option (List Nat)}

theorem next_value_slash : next ⟨.value, a, acc, root, node, group⟩ '\\' =
    ⟨.value, '\\', acc ++ (if a = '\\' then [('\\' : UInt8)] else []), root, node, group⟩ := by
  by_cases ha : a = '\\'
  · subst ha
    rfl
  · simp [next, step, ha]

theorem next_value_behind : next ⟨.value, '\\', acc, root, node, group⟩ c =
    ⟨.value, c, acc ++ [c], root, node, group⟩ := by
  by_cases hc : c = '\\'
  · subst hc
    rfl
  · simp [next, step, hc]

theorem next_value_plain (h : ¬Marked c) : next ⟨.value, a, acc, root, node, group⟩ c =
    ⟨.value, c, acc ++ [c], root, node, group⟩ := by
  obtain ⟨-, hcomment, hslash, hlf⟩ := not_marked h
  by_cases ha : a = '\\'
  · rw [ha]
    exact next_value_behind
  · exact by simp [next, step, hcomment, hslash, hlf, ha]

theorem foldl_saveStr : ∀ (s acc : Str) (a : UInt8), ∃ a',
    (saveStr commentChar s).foldl next ⟨.value, a, acc, root, node, group⟩ =
      ⟨.value, a', acc ++ reread (a = '\\') s, root, node, group⟩
  | [], acc, a => ⟨a, by rw [reread, append_nil]; rfl⟩
  | c :: s, acc, a => by
    by_cases h : Marked c
    · obtain ⟨a', hfold⟩ := foldl_saveStr s
        (acc ++ (if a = '\\' then [('\\' : UInt8)] else []) ++ [strEscapeChar c])
        (strEscapeChar c)
      simp only [escape_eq_slash] at hfold
      refine ⟨a', ?_⟩
      rw [saveStr_cons, if_pos h, cons_append, foldl_cons, next_value_slash,
        cons_append, foldl_cons, next_value_behind, nil_append, hfold, reread]
      by_cases ha : a = '\\' <;> simp [ha, h]
    · obtain ⟨a', hfold⟩ := foldl_saveStr s (acc ++ [c]) c
      refine ⟨a', ?_⟩
      rw [saveStr_cons, if_neg h, cons_append, foldl_cons, next_value_plain h,
        nil_append, hfold, reread, (not_marked h).1]
      simp [h]

theorem foldl_saveStr_first (hc : isSpace c = false) :
    (saveStr commentChar (c :: s)).foldl next ⟨.beforeValue, ' ', t, root, node, group⟩ =
      (saveStr commentChar s).foldl next
        ⟨.value, strEscapeChar c, [strEscapeChar c], root, node, group⟩ := by
  have hfirst : ∀ {b e : UInt8}, ([' ', '\t', '\r', '\n'] : Str).contains e = false →
      (e = '\\' → b = '\\') →
      next ⟨.beforeValue, b, t, root, node, group⟩ e = ⟨.value, e, [e], root, node, group⟩ := by
    intro b e he hb
    simp only [contains_cons, Bool.or_eq_false_iff, beq_eq_false_iff_ne] at he
    have hskip : ¬(e = '\\' ∧ b ≠ '\\') := fun h => h.2 (hb h.1)
    simp [next, step, hskip, he]
  rw [saveStr_cons, foldl_append]
  by_cases h : Marked c
  · have hslash : next ⟨.beforeValue, ' ', t, root, node, group⟩ '\\' =
        ⟨.beforeValue, '\\', t, root, node, group⟩ := rfl
    rw [if_pos h, foldl_cons, hslash, foldl_cons, hfirst h.not_space fun _ => rfl,
      foldl_nil]
  · obtain ⟨hescape, -, hslash, -⟩ := not_marked h
    have hblank := not_blank_of_not_space hc
    rw [hescape] at hblank ⊢
    rw [if_neg h, foldl_cons, hfirst hblank fun he => absurd he hslash, foldl_nil]

/-- What `conf_doc_load_ini` makes of the end of the text. -/
def finish (l : Loader) : Loader := if l.state = .value then l.setValue else l

/-- The last value of a text. -/
theorem finish_value (hs : Trimmed s) {way : List Nat} :
    (finish ((saveStr commentChar s ++ (['\n'] : Str)).foldl next
      ⟨.beforeValue, ' ', t, root, some way, group⟩)).root =
      root.updateAt (fun n => (ConfNode.setValue (.str (some (reread false s))) n).2) way := by
  cases s with
  | nil => rfl
  | cons c s =>
    have hc := hs.1 c rfl
    have hlast : ∀ b ∈ (reread false (c :: s)).getLast?,
        ([' ', '\t', '\r', '\n'] : Str).contains b = false := by
      rw [getLast?_reread]
      intro b hb
      obtain ⟨b', hb', rfl⟩ := map_eq_some_iff.mp hb
      exact not_blank_of_not_space (hs.2 b' hb')
    have hread : strEscapeChar c :: reread (c = '\\') s = reread false (c :: s) := by
      simp [reread]
    have hvalue : ∃ a', (saveStr commentChar (c :: s)).foldl next
        ⟨.beforeValue, ' ', t, root, some way, group⟩ =
          ⟨.value, a', reread false (c :: s), root, some way, group⟩ := by
      obtain ⟨a', hfold⟩ := foldl_saveStr s [strEscapeChar c] (strEscapeChar c)
      refine ⟨a', ?_⟩
      rw [foldl_saveStr_first hc, hfold, singleton_append]
      simp only [escape_eq_slash, hread]
    obtain ⟨a', hvalue⟩ := hvalue
    rw [foldl_append, hvalue, foldl_cons, foldl_nil]
    by_cases ha : a' = '\\'
    · -- the line feed becomes part of the value, and is trimmed
      rw [ha, next_value_behind]
      have htrim := strTrimRight_last (t := (['\n'] : Str)) hlast (by decide)
      simp [finish, setValue, htrim]
    · have htrim := strTrimRight_last (t := []) hlast (by simp)
      rw [append_nil] at htrim
      rw [next_value_end ha, htrim]
      rfl

end Loader

/-! ## What comes back -/

theorem length_reread_le (slash : Bool) : ∀ s : Str, s.length ≤ (reread slash s).length
  | [] => Nat.le_refl _
  | c :: s => by
    have ih := length_reread_le (c = '\\') s
    rw [reread]
    split <;> simp only [length_cons] <;> omega

theorem reread_eq_iff (slash : Bool) : ∀ s : Str, reread slash s = s ↔ Kept slash s
  | [] => Iff.rfl.trans (iff_of_true rfl trivial)
  | c :: s => by
    have ih := reread_eq_iff (c = '\\') s
    rw [reread, Kept, ← ih]
    split
    case isTrue h =>
      refine iff_of_false (fun heq => ?_) ?_
      · have hlen := congrArg List.length heq
        have hle := length_reread_le (c = '\\') s
        simp only [length_cons] at hlen
        omega
      · rintro ⟨hescape, hslash, -⟩
        rcases h.2 with hne | hcomment | hbackslash
        · exact hne hescape
        · exact (hslash h.1).1 hcomment
        · exact (hslash h.1).2 hbackslash
    case isFalse h =>
      rw [List.cons.injEq]
      constructor
      · rintro ⟨hescape, hrest⟩
        refine ⟨hescape, fun hslash => ⟨?_, ?_⟩, hrest⟩
        · exact fun hcomment => h ⟨hslash, .inr (.inl hcomment)⟩
        · exact fun hbackslash => h ⟨hslash, .inr (.inr hbackslash)⟩
      · rintro ⟨hescape, -, hrest⟩
        exact ⟨hescape, hrest⟩

/-- No character is written as another one, and no backslash stands in front of a backslash or
a `#`. -/
def Plain (s : Str) : Prop :=
  (∀ c ∈ s, strEscapeChar c = c) ∧
    s.IsChain fun (a b : UInt8) => a = '\\' → b ≠ '#' ∧ b ≠ '\\'

theorem kept_iff (slash : Bool) : ∀ s : Str, Kept slash s ↔
    Plain s ∧ (slash = true → ∀ c ∈ s.head?, c ≠ '#' ∧ c ≠ '\\')
  | [] => iff_of_true trivial ⟨⟨by simp, .nil⟩, by simp⟩
  | c :: s => by
    have ih := kept_iff (c = '\\') s
    rw [Kept, ih]
    simp only [Plain, mem_cons, forall_eq_or_imp, isChain_cons, head?_cons,
      mem_def, some.injEq, forall_eq', decide_eq_true_eq]
    constructor
    · rintro ⟨hescape, hslash, ⟨hall, hchain⟩, hhead⟩
      exact ⟨⟨⟨hescape, hall⟩, fun b hb hc => hhead hc b hb, hchain⟩, hslash⟩
    · rintro ⟨⟨⟨hescape, hall⟩, hhead, hchain⟩, hslash⟩
      exact ⟨hescape, hslash, ⟨hall, hchain⟩, fun hc b hb => hhead b hb hc⟩

theorem reread_eq_iff_plain (s : Str) : reread false s = s ↔ Plain s := by
  rw [reread_eq_iff, kept_iff]
  simp

/-! ## Documents of one key in a group -/

section OneKey

variable {g k : Str} {doc : ConfDoc}

/-- The path of a key in a group. -/
def keyPath (g k : Str) : Str := g ++ ('.' : UInt8) :: k

/-- The document of a group with a key. -/
def oneKey (g k s : Str) : ConfDoc :=
  { root := some (container ConfDoc.rootName [container g [newKey k s]]), maxDeepLevel := 2,
    disablePath := false }

theorem plainPath_keyPath (hmax : doc.maxDeepLevel = 2) (hdisable : doc.disablePath = false)
    (hg : IniName g) (hk : IniName k) : doc.PlainPath (keyPath g k) [g, k] := by
  have hnames : ∀ name ∈ [g, k], IniName name := by simp [hg, hk]
  have hjoin : keyPath g k = List.intercalate [('.' : UInt8)] [g, k] := by
    simp [keyPath, List.intercalate]
  rw [hjoin]
  refine ConfDoc.plainPath_join hdisable (cons_ne_nil _ _) (by simp [hmax])
    (fun a ha => (hnames a ha).word') (fun a ha => (hnames a ha).plain) fun hmem => ?_
  cases mem_join [g, k] hmem with
  | inl hdot => exact absurd hdot (by decide)
  | inr hname =>
    obtain ⟨name, hname, hc⟩ := hname
    exact ne_of_isWord ((hnames name hname).word _ hc) (by decide) rfl

theorem set_oneKey (hdoc : EmptyIni doc) (hg : IniName g) (hk : IniName k) (s : Str) :
    ∃ ret, doc.set (keyPath g k) (.str (some s)) = some (ret, oneKey g k s) := by
  have hbase : doc.base = ConfNode.create ConfDoc.rootName := by
    rw [ConfDoc.base]
    cases hdoc.root with
    | inl hnone => rw [hnone, getD_none]
    | inr hsome => rw [hsome, getD_some]
  rw [ConfDoc.set_put (plainPath_keyPath hdoc.maxDeepLevel hdoc.disablePath hg hk), hbase,
    hdoc.maxDeepLevel, hdoc.disablePath]
  exact ⟨_, rfl⟩

theorem save_oneKey (g k s : Str) : save (oneKey g k s) =
    some (groupLine g ++ (keyHead k ++ (saveStr commentChar s ++ (['\n'] : Str)))) := by
  have hleaf : saveLeafNode (newKey k s) =
      some (keyHead k ++ (saveStr commentChar s ++ (['\n'] : Str))) := by
    rw [saveLeafNode, getValue_newKey, map_some, saveValue, name_newKey]
    simp [keyHead]
  have hgroup : saveGroup (container g [newKey k s]) =
      some (groupLine g ++ (keyHead k ++ (saveStr commentChar s ++ (['\n'] : Str)))) := by
    rw [container, saveGroup, ConfNode.children, mapM_cons, hleaf]
    · simp [groupLine, ConfNode.name]
    · exact fun _ _ _ h => by cases h
  rw [save, oneKey]
  dsimp only
  rw [children_container, mapM_cons, hgroup]
  simp

theorem load_oneKey (hg : IniName g) (hk : IniName k) (hs : Trimmed s) :
    load (groupLine g ++ (keyHead k ++ (saveStr commentChar s ++ (['\n'] : Str)))) =
      oneKey g k (reread false s) := by
  have hstart : (Loaded.mk [] none).Reads Loader.start := ⟨rfl, rfl, rfl⟩
  have hgroup := (hstart.group_line hg).eq
  have hload : ∀ data, load data = { root := some (Loader.finish
      (data.foldl Loader.next Loader.start)).root, maxDeepLevel := 2, disablePath := false } :=
    fun _ => rfl
  rw [hload, foldl_append, hgroup, foldl_append, Loader.foldl_keyHead hk,
    Loader.finish_value hs, Loaded.root_addKey]
  rfl

theorem get_oneKey (hg : IniName g) (hk : IniName k) (s : Str) :
    ((oneKey g k s).get (keyPath g k)).map Prod.fst = some (.ok, some (.str (some s))) := by
  rw [ConfDoc.get_view (plainPath_keyPath rfl rfl hg hk)]
  have hview : (oneKey g k s).view [g, k] = some (newKey k s) := by
    simp [ConfDoc.view, oneKey, ConfNode.view, ConfNode.childNamed]
  rw [hview, ConfDoc.answer, getValue_newKey]
  rfl

/-- A value that is set in an empty document, saved and loaded comes back. -/
def ComesBack (doc : ConfDoc) (path s : Str) : Prop :=
  ∃ ret doc' saved, doc.set path (.str (some s)) = some (ret, doc') ∧ save doc' = some saved ∧
    ((load saved).get path).map Prod.fst = some (.ok, some (.str (some s)))

theorem comesBack_iff_reread (hdoc : EmptyIni doc) (hg : IniName g) (hk : IniName k)
    (hs : Trimmed s) : ComesBack doc (keyPath g k) s ↔ reread false s = s := by
  obtain ⟨ret, hset⟩ := set_oneKey hdoc hg hk s
  have hget : ((load (groupLine g ++ (keyHead k ++ (saveStr commentChar s ++
      (['\n'] : Str))))).get (keyPath g k)).map Prod.fst =
        some (.ok, some (.str (some (reread false s)))) := by
    rw [load_oneKey hg hk hs, get_oneKey hg hk]
  constructor
  · rintro ⟨ret', doc', saved, hset', hsave, hback⟩
    rw [hset] at hset'
    cases hset'
    rw [save_oneKey] at hsave
    cases hsave
    rw [hget] at hback
    simpa using hback
  · intro heq
    rw [heq] at hget
    exact ⟨ret, _, _, hset, save_oneKey g k s, hget⟩

/-- A value comes back exactly when no character of it is written as a letter, and no backslash
stands in front of a backslash or a `#`. -/
theorem value_comesBack_iff (hdoc : EmptyIni doc) (hg : IniName g) (hk : IniName k)
    (hs : Trimmed s) : ComesBack doc (keyPath g k) s ↔ Plain s :=
  (comesBack_iff_reread hdoc hg hk hs).trans (reread_eq_iff_plain s)

end OneKey

/-! ## A document -/

/-- An empty INI document. -/
def emptyDoc : ConfDoc := { ConfDoc.create with maxDeepLevel := 2 }

theorem emptyDoc_empty : EmptyIni emptyDoc := ⟨rfl, rfl, .inl rfl⟩

theorem iniName_singleton (hc : isWord c = true) : IniName [c] :=
  ⟨cons_ne_nil c [], fun _ hb => mem_singleton.mp hb ▸ hc⟩

/-- A value with a `#`, a `=` and a backslash between letters. -/
theorem value_comesBack_hash :
    ComesBack emptyDoc (keyPath ['g'] ['k']) (['#', 'a', '=', '\\', 'b'] : Str) :=
  (value_comesBack_iff emptyDoc_empty (iniName_singleton (by decide))
    (iniName_singleton (by decide)) ⟨by decide, by decide⟩).mpr
    ⟨by decide, by decide⟩

/-- A tab comes back as a letter, and a backslash in front of another one makes a third. -/
theorem value_comesBack_not_tab :
    ¬ComesBack emptyDoc (keyPath ['g'] ['k']) (['a', '\t', 'b'] : Str) ∧
      ¬ComesBack emptyDoc (keyPath ['g'] ['k']) (['a', '\\', '\\', 'b'] : Str) := by
  constructor
  · rw [comesBack_iff_reread emptyDoc_empty (iniName_singleton (by decide))
      (iniName_singleton (by decide)) ⟨by decide, by decide⟩]
    decide
  · rw [comesBack_iff_reread emptyDoc_empty (iniName_singleton (by decide))
      (iniName_singleton (by decide)) ⟨by decide, by decide⟩]
    decide

end Ini

end Awtk.Conf
