import Mathlib
import Awtk.ConfIo.ConfNode

/-!
# A configuration as a store

`view` is what a document is for: a map from lists of names to nodes.  A node is found by
the first child with its name at each level.  `put` and `del` are the updates of this map
that `conf_doc_set` and `conf_doc_remove` make.

A name does not have to be unique among its siblings.  A removal then uncovers the next
one, so a path is gone after it exactly where its last name was unique.
-/

namespace Awtk.Conf

open List Option

namespace ConfNode

variable {n m child : ConfNode} {name : Str} {p q : List Str} {g : ConfNode → ConfNode} {i : Nat}

/-! ## Views -/

/-- The first child with a name. -/
def childNamed (n : ConfNode) (name : Str) : Option ConfNode := n.children.find? (·.name = name)

/-- The node at a list of names. -/
def view : List Str → ConfNode → Option ConfNode
  | [], n => some n
  | name :: p, n => (n.childNamed name).bind (view p)

/-- Rewrite the node at a list of names, and create what is missing. -/
def put (g : ConfNode → ConfNode) : List Str → ConfNode → ConfNode
  | [], n => g n
  | name :: p, n =>
    match n.findChild name with
    | some i =>
      match n.children[i]? with
      | some child => n.setFirstChild (n.children.set i (put g p child))
      | Option.none => n
    | Option.none => n.appendChild (put g p (create name))

/-- Remove the node at a list of names. -/
def del : List Str → ConfNode → ConfNode
  | [], n => n
  | [name], n =>
    match n.findChild name with
    | some i => n.setFirstChild (n.children.eraseIdx i)
    | Option.none => n
  | name :: p, n =>
    match n.findChild name with
    | some i =>
      match n.children[i]? with
      | some child => n.setFirstChild (n.children.set i (del p child))
      | Option.none => n
    | Option.none => n

/-! ## Children -/

@[simp] theorem children_setFirstChild (cs : List ConfNode) :
    (n.setFirstChild cs).children = cs := rfl

@[simp] theorem name_setFirstChild (cs : List ConfNode) : (n.setFirstChild cs).name = n.name := rfl

@[simp] theorem children_appendChild : (n.appendChild child).children = n.children ++ [child] := by
  cases n with
  | none => rfl
  | leaf => rfl
  | node name type cs => cases cs <;> rfl

@[simp] theorem name_appendChild : (n.appendChild child).name = n.name := by
  cases n with
  | none => rfl
  | leaf => rfl
  | node name type cs => cases cs <;> rfl

theorem appendChild_set (c c' : ConfNode) :
    (n.appendChild c).setFirstChild ((n.appendChild c).children.set n.children.length c') =
      n.appendChild c' := by
  cases n with
  | none => rfl
  | leaf => rfl
  | node name type cs =>
    cases cs with
    | nil => rfl
    | cons first rest =>
      rw [children_appendChild]
      simp [appendChild, setFirstChild, children, ConfNode.name, ConfNode.type]

theorem setFirstChild_self (h : n.children ≠ []) : n.setFirstChild n.children = n := by
  cases n with
  | none => exact absurd rfl h
  | leaf => exact absurd rfl h
  | node => rfl

theorem setFirstChild_set_self (h : n.children[i]? = some child) :
    n.setFirstChild (n.children.set i child) = n := by
  obtain ⟨hi, rfl⟩ := List.getElem?_eq_some_iff.mp h
  rw [set_getElem_self]
  exact setFirstChild_self (ne_nil_of_length_pos (Nat.zero_lt_of_lt hi))

/-- The first child with a name, and the others around it. -/
structure At (n : ConfNode) (name : Str) (i : Nat) (l : List ConfNode) (child : ConfNode)
    (r : List ConfNode) : Prop where
  split : n.children = l ++ child :: r
  index : l.length = i
  named : child.name = name
  first : ∀ c ∈ l, c.name ≠ name

theorem findChild_some (h : n.findChild name = some i) : ∃ l child r, n.At name i l child r := by
  obtain ⟨hi, hname, hbefore⟩ := findIdx?_eq_some_iff_getElem.mp h
  refine ⟨n.children.take i, n.children[i], n.children.drop (i + 1), ?_, ?_, ?_, fun c hc => ?_⟩
  · rw [getElem_cons_drop, take_append_drop]
  · exact length_take_of_le (Nat.le_of_lt hi)
  · exact of_decide_eq_true hname
  · obtain ⟨j, hj, rfl⟩ := getElem_of_mem hc
    rw [getElem_take]
    have hji : j < i := Nat.lt_of_lt_of_le hj (length_take_le i n.children)
    exact fun heq => hbefore j hji (decide_eq_true heq)

theorem findChild_none (h : n.findChild name = Option.none) : ∀ c ∈ n.children, c.name ≠ name :=
  fun c hc heq => by simpa [heq] using findIdx?_eq_none_iff.mp h c hc

variable {l r : List ConfNode}

theorem find_named {cs : List ConfNode} (hl : ∀ c ∈ l, c.name ≠ name) (hname : child.name = name) :
    (l ++ child :: cs).find? (·.name = name) = some child := by
  rw [find?_append, find?_eq_none.mpr fun c hc => by simpa using hl c hc, none_or,
    find?_cons_of_pos (by simpa using hname)]

theorem find_other {a : Str} (hname : child.name ≠ a) :
    (l ++ child :: r).find? (·.name = a) = (l ++ r).find? (·.name = a) := by
  rw [find?_append, find?_append, find?_cons_of_neg (by simpa using hname)]

theorem At.getElem? (h : n.At name i l child r) : n.children[i]? = some child := by
  rw [h.split, ← h.index, getElem?_append_right (Nat.le_refl _), Nat.sub_self]
  rfl

theorem At.childNamed (h : n.At name i l child r) : n.childNamed name = some child := by
  rw [ConfNode.childNamed, h.split]
  exact find_named h.first h.named

theorem At.set (h : n.At name i l child r) (c : ConfNode) : n.children.set i c = l ++ c :: r := by
  rw [h.split, ← h.index, set_append_right _ _ (Nat.le_refl _), Nat.sub_self]
  rfl

theorem At.eraseIdx (h : n.At name i l child r) : n.children.eraseIdx i = l ++ r := by
  rw [h.split, ← h.index, eraseIdx_append_of_length_le (Nat.le_refl _), Nat.sub_self]
  rfl

theorem childNamed_none (h : n.findChild name = Option.none) : n.childNamed name = Option.none :=
  find?_eq_none.mpr fun c hc => by simpa using findChild_none h c hc

/-! ## Updates of the map -/

/-- The node an update is applied to. -/
def target : List Str → ConfNode → ConfNode
  | [], n => n
  | name :: p, n => target p ((n.childNamed name).getD (create name))

theorem At.put (h : n.At name i l child r) (hi : n.findChild name = some i) (g : ConfNode → ConfNode)
    (p : List Str) : ConfNode.put g (name :: p) n = n.setFirstChild (l ++ ConfNode.put g p child :: r) := by
  rw [ConfNode.put, hi]
  dsimp only
  rw [h.getElem?]
  dsimp only
  rw [h.set]

theorem put_missing (hi : n.findChild name = Option.none) (g : ConfNode → ConfNode) (p : List Str) :
    put g (name :: p) n = n.appendChild (put g p (create name)) := by
  rw [put, hi]

theorem name_put (hg : ∀ x, (g x).name = x.name) : ∀ (p : List Str) (n : ConfNode),
    (put g p n).name = n.name
  | [], n => hg n
  | name :: p, n => by
    cases hi : n.findChild name with
    | none => rw [put_missing hi, name_appendChild]
    | some i =>
      obtain ⟨l, child, r, h⟩ := findChild_some hi
      rw [h.put hi, name_setFirstChild]

theorem view_put_self (hg : ∀ x, (g x).name = x.name) : ∀ (p : List Str) (n : ConfNode),
    view p (put g p n) = some (g (target p n))
  | [], n => rfl
  | name :: p, n => by
    rw [view, target]
    cases hi : n.findChild name with
    | none =>
      have hnamed : (put g p (create name)).name = name := name_put hg p _
      rw [put_missing hi, childNamed, children_appendChild, childNamed_none hi, getD_none,
        find_named (findChild_none hi) hnamed]
      exact view_put_self hg p _
    | some i =>
      obtain ⟨l, child, r, h⟩ := findChild_some hi
      have hnamed : (put g p child).name = name := (name_put hg p child).trans h.named
      rw [h.put hi, childNamed, children_setFirstChild, h.childNamed, getD_some,
        find_named h.first hnamed]
      exact view_put_self hg p child

/-- An update does not touch what is neither above nor below. -/
theorem view_put_other (hg : ∀ x, (g x).name = x.name) : ∀ {p q : List Str} (n : ConfNode),
    ¬p <+: q → ¬q <+: p → view q (put g p n) = view q n
  | [], q, _, hpq, _ => absurd ( nil_prefix) hpq
  | name :: p, [], _, _, hqp => absurd ( nil_prefix) hqp
  | name :: p, a :: q, n, hpq, hqp => by
    rw [view, view]
    by_cases ha : a = name
    · subst ha
      have hpq' : ¬p <+: q := fun h => hpq (cons_prefix_cons.mpr ⟨rfl, h⟩)
      have hqp' : ¬q <+: p := fun h => hqp (cons_prefix_cons.mpr ⟨rfl, h⟩)
      cases hi : n.findChild a with
      | none =>
        have hnamed : (put g p (create a)).name = a := name_put hg p _
        rw [put_missing hi, childNamed, children_appendChild, childNamed_none hi,
          find_named (findChild_none hi) hnamed, bind_some, bind_none,
          view_put_other hg (create a) hpq' hqp']
        cases q with
        | nil => exact absurd nil_prefix hqp'
        | cons b q => rfl
      | some i =>
        obtain ⟨l, child, r, h⟩ := findChild_some hi
        have hnamed : (put g p child).name = a := (name_put hg p child).trans h.named
        rw [h.put hi, childNamed, children_setFirstChild, h.childNamed, find_named h.first hnamed,
          bind_some, bind_some, view_put_other hg child hpq' hqp']
    · refine congrArg (Option.bind · _) ?_
      cases hi : n.findChild name with
      | none =>
        have hnamed : (put g p (create name)).name ≠ a := fun h =>
          ha (h.symm.trans (name_put hg p (create name)))
        rw [put_missing hi, childNamed, children_appendChild, find_other hnamed, append_nil]
        rfl
      | some i =>
        obtain ⟨l, child, r, h⟩ := findChild_some hi
        have hnamed : (put g p child).name ≠ a := fun heq =>
          ha (heq.symm.trans ((name_put hg p child).trans h.named))
        rw [h.put hi, childNamed, childNamed, children_setFirstChild, h.split, find_other hnamed,
          find_other fun heq => ha (heq.symm.trans h.named)]

/-- Only one child of its parent has the last name. -/
def OnlyOne : List Str → ConfNode → Prop
  | [], _ => True
  | [name], n => n.children.countP (·.name = name) ≤ 1
  | name :: p, n => ∀ c, n.childNamed name = some c → OnlyOne p c

theorem At.del_one (h : n.At name i l child r) (hi : n.findChild name = some i) :
    del [name] n = n.setFirstChild (l ++ r) := by
  rw [del, hi]
  dsimp only
  rw [h.eraseIdx]

theorem At.del (h : n.At name i l child r) (hi : n.findChild name = some i) (hp : p ≠ []) :
    del (name :: p) n = n.setFirstChild (l ++ del p child :: r) := by
  cases p with
  | nil => exact absurd rfl hp
  | cons a p =>
    rw [ConfNode.del, hi]
    · dsimp only
      rw [h.getElem?]
      dsimp only
      rw [h.set]
    · exact fun heq => by cases heq

theorem del_missing (hi : n.findChild name = Option.none) (p : List Str) : del (name :: p) n = n := by
  cases p with
  | nil => rw [del, hi]
  | cons a p =>
    rw [del, hi]
    exact fun heq => by cases heq

theorem name_del : ∀ (p : List Str) (n : ConfNode), (del p n).name = n.name
  | [], n => rfl
  | name :: p, n => by
    cases hi : n.findChild name with
    | none => rw [del_missing hi]
    | some i =>
      obtain ⟨l, child, r, h⟩ := findChild_some hi
      cases p with
      | nil => rw [h.del_one hi, name_setFirstChild]
      | cons a p => rw [h.del hi (cons_ne_nil a p), name_setFirstChild]

/-- A removed node, and what was below it, are gone where no other child has its name. -/
theorem view_del_self : ∀ {p : List Str} (q : List Str) (n : ConfNode), p ≠ [] → OnlyOne p n →
    view (p ++ q) (del p n) = Option.none
  | [], _, _, hp, _ => absurd rfl hp
  | [name], q, n, _, hone => by
    rw [singleton_append, view]
    refine bind_eq_none_iff.mpr fun c hc => ?_
    exfalso
    obtain ⟨hmem, hname⟩ : c ∈ (del [name] n).children ∧ c.name = name :=
      ⟨mem_of_find?_eq_some hc, by simpa using find?_some hc⟩
    cases hi : n.findChild name with
    | none =>
      rw [del_missing hi] at hmem
      exact findChild_none hi c hmem hname
    | some i =>
      obtain ⟨l, child, r, h⟩ := findChild_some hi
      rw [h.del_one hi, children_setFirstChild] at hmem
      have hcount : 0 < (l ++ r).countP (·.name = name) :=
        countP_pos_iff.mpr ⟨c, hmem, by simpa using hname⟩
      rw [OnlyOne, h.split, countP_append, countP_cons, if_pos (by simpa using h.named)]
        at hone
      rw [countP_append] at hcount
      omega
  | name :: a :: p, q, n, _, hone => by
    rw [cons_append, view]
    cases hi : n.findChild name with
    | none => rw [del_missing hi, childNamed_none hi, bind_none]
    | some i =>
      obtain ⟨l, child, r, h⟩ := findChild_some hi
      have hnamed : (del (a :: p) child).name = name := (name_del _ child).trans h.named
      rw [h.del hi (cons_ne_nil a p), childNamed, children_setFirstChild,
        find_named h.first hnamed, bind_some]
      exact view_del_self q child (cons_ne_nil a p) (hone child h.childNamed)

theorem getValue_setFirstChild (cs : List ConfNode) : (n.setFirstChild cs).getValue = Option.none :=
  rfl

theorem getValue_of_children (h : n.children ≠ []) : n.getValue = Option.none := by
  cases n with
  | none => rfl
  | leaf => exact absurd rfl h
  | node => rfl

/-- A removal keeps the values of the nodes that are not below the removed one. -/
theorem view_del_other : ∀ {p q : List Str} (n : ConfNode), ¬p <+: q →
    (view q (del p n)).map getValue = (view q n).map getValue
  | [], _, _, hpq => absurd nil_prefix hpq
  | name :: p, q, n, hpq => by
    cases hi : n.findChild name with
    | none => rw [del_missing hi]
    | some i =>
      obtain ⟨l, child, r, h⟩ := findChild_some hi
      have hne : n.children ≠ [] := by
        rw [h.split]
        exact append_ne_nil_of_right_ne_nil l (cons_ne_nil child r)
      obtain ⟨cs, hcs⟩ : ∃ cs, del (name :: p) n = n.setFirstChild cs := by
        cases p with
        | nil => exact ⟨_, h.del_one hi⟩
        | cons a p => exact ⟨_, h.del hi (cons_ne_nil a p)⟩
      cases q with
      | nil =>
        rw [hcs, view, view, map_some, map_some, getValue_setFirstChild,
          getValue_of_children hne]
      | cons a q =>
        rw [view, view]
        by_cases ha : a = name
        · subst ha
          cases p with
          | nil => exact absurd (cons_prefix_cons.mpr ⟨rfl, nil_prefix⟩) hpq
          | cons b p =>
            have hnamed : (del (b :: p) child).name = a := (name_del _ child).trans h.named
            rw [h.del hi (cons_ne_nil b p), childNamed, children_setFirstChild,
              h.childNamed, find_named h.first hnamed, bind_some, bind_some]
            exact view_del_other child fun hpre => hpq (cons_prefix_cons.mpr ⟨rfl, hpre⟩)
        · have hother : (del (name :: p) n).childNamed a = n.childNamed a := by
            have hchild : child.name ≠ a := fun heq => ha (heq.symm.trans h.named)
            rw [childNamed, childNamed, h.split, find_other hchild]
            cases p with
            | nil => rw [h.del_one hi, children_setFirstChild]
            | cons b p =>
              have hnamed : (del (b :: p) child).name ≠ a := fun heq =>
                ha (heq.symm.trans ((name_del _ child).trans h.named))
              rw [h.del hi (cons_ne_nil b p), children_setFirstChild, find_other hnamed]
          rw [hother]

/-! ## The walk -/

/-- A name that is neither an index nor a special attribute. -/
def Plain (name : Str) : Prop := name.head? ≠ some '[' ∧ name.head? ≠ some '#'

theorem lookup_plain (h : Plain name) :
    n.lookup name = some (n, match n.findChild name with
      | some i => .child i
      | Option.none => .missing) := by
  rw [lookup, if_neg h.1, if_neg h.2]
  cases n.findChild name <;> rfl

/-- A lookup finds the node of the view, and writes nothing. -/
theorem findNode_view : ∀ {p : List Str} (n : ConfNode), p ≠ [] → (∀ name ∈ p, Plain name) →
    (n.findNode false p = some (n, Option.none) ∧ view p n = Option.none) ∨
      ∃ way, n.findNode false p = some (n, some way) ∧ way ≠ [] ∧
        (∃ m, n.nodeAt way = some m ∧ view p n = some m) ∧ n.removeAt way = del p n
  | [], _, hp, _ => absurd rfl hp
  | name :: p, n, _, hplain => by
    rw [findNode, lookup_plain (hplain name mem_cons_self), view]
    cases hi : n.findChild name with
    | none =>
      left
      rw [childNamed_none hi]
      exact ⟨rfl, rfl⟩
    | some i =>
      obtain ⟨l, child, r, h⟩ := findChild_some hi
      rw [h.childNamed, bind_some]
      dsimp only
      by_cases hp : p = []
      · right
        subst hp
        rw [if_pos rfl, h.del_one hi]
        refine ⟨[i], rfl, cons_ne_nil i [], ⟨child, ?_, rfl⟩, ?_⟩
        · rw [nodeAt, h.getElem?]
          rfl
        · rw [removeAt, h.eraseIdx]
      · rw [if_neg hp, h.getElem?, bind_some, h.del hi hp]
        have hself : n.setFirstChild (n.children.set i child) = n :=
          setFirstChild_set_self h.getElem?
        rcases findNode_view child hp fun a ha => hplain a (mem_cons_of_mem name ha) with
          ⟨hfind, hview⟩ | ⟨way, hfind, hway, ⟨m, hm, hview⟩, hremove⟩
        · left
          rw [hfind, hview]
          exact ⟨by rw [map_some, hself]; rfl, rfl⟩
        · right
          refine ⟨i :: way, ?_, cons_ne_nil i way, ⟨m, ?_, hview⟩, ?_⟩
          · rw [hfind, map_some, hself]
            rfl
          · rw [nodeAt, h.getElem?]
            exact hm
          · rw [removeAt, h.getElem?]
            · dsimp only
              rw [h.set, hremove]
            · exact hway

/-- A lookup that creates finds the node the update is applied to. -/
theorem findNode_put {α : Type} (f : ConfNode → α × ConfNode) : ∀ {p : List Str} (n : ConfNode),
    p ≠ [] → (∀ name ∈ p, Plain name) →
    ∃ n' way, n.findNode true p = some (n', some way) ∧
      n'.modifyAt f way = some ((f (target p n)).1, put (fun x => (f x).2) p n)
  | [], _, hp, _ => absurd rfl hp
  | name :: p, n, _, hplain => by
    have hrest : ∀ a ∈ p, Plain a := fun a ha => hplain a (mem_cons_of_mem name ha)
    rw [findNode, lookup_plain (hplain name mem_cons_self), target]
    cases hi : n.findChild name with
    | none =>
      rw [childNamed_none hi, getD_none, put_missing hi]
      dsimp only
      have hget : (n.appendChild (create name)).children[n.children.length]? = some (create name) := by
        rw [children_appendChild, getElem?_append_right (Nat.le_refl _), Nat.sub_self]
        rfl
      rw [if_pos rfl]
      by_cases hp : p = []
      · subst hp
        refine ⟨_, [n.children.length], if_pos rfl, ?_⟩
        rw [modifyAt, hget]
        exact congrArg (fun x => some (_, x)) (appendChild_set (create name) _)
      · obtain ⟨c', way, hfind, hmodify⟩ := findNode_put f (create name) hp hrest
        refine ⟨(n.appendChild (create name)).setFirstChild
          ((n.appendChild (create name)).children.set n.children.length c'),
          n.children.length :: way, ?_, ?_⟩
        · rw [if_neg hp, hget, bind_some, hfind]
          rfl
        · have hget' : (n.appendChild c').children[n.children.length]? = some c' := by
            rw [children_appendChild, getElem?_append_right (Nat.le_refl _), Nat.sub_self]
            rfl
          have hset := appendChild_set (n := n) c' (put (fun x => (f x).2) p (create name))
          rw [appendChild_set, modifyAt, hget', bind_some, hmodify]
          exact congrArg (fun x => some (_, x)) hset
    | some i =>
      obtain ⟨l, child, r, h⟩ := findChild_some hi
      rw [h.childNamed, getD_some, h.put hi]
      dsimp only
      by_cases hp : p = []
      · subst hp
        refine ⟨n, [i], if_pos rfl, ?_⟩
        rw [modifyAt, h.getElem?]
        exact congrArg (fun cs => some (_, n.setFirstChild cs)) (h.set _)
      · obtain ⟨c', way, hfind, hmodify⟩ := findNode_put f child hp hrest
        refine ⟨n.setFirstChild (n.children.set i c'), i :: way, ?_, ?_⟩
        · rw [if_neg hp, h.getElem?, bind_some, hfind]
          rfl
        · have hget' : (n.children.set i c')[i]? = some c' := by
            rw [h.set, ← h.index, getElem?_append_right (Nat.le_refl _), Nat.sub_self]
            rfl
          have hset : (n.children.set i c').set i (put (fun x => (f x).2) p child) =
              l ++ put (fun x => (f x).2) p child :: r := by
            rw [set_set, h.set]
          rw [modifyAt, children_setFirstChild, hget', bind_some, hmodify]
          exact congrArg (fun cs => some (_, n.setFirstChild cs)) hset

end ConfNode

/-! ## Documents -/

namespace ConfDoc

variable {doc doc' : ConfDoc} {path path' : Str} {p q : List Str} {v : Value}

/-- A path of plain names, as the document cuts it. -/
structure PlainPath (doc : ConfDoc) (path : Str) (names : List Str) : Prop where
  tokens : doc.tokens path = some names
  nonempty : names ≠ []
  plain : ∀ name ∈ names, ConfNode.Plain name
  noSpecial : ('#' : UInt8) ∉ path

/-- A name as a path has it between two dots. -/
structure Word (name : Str) : Prop where
  nonempty : name ≠ []
  noDot : ∀ c ∈ name, isSeparator c = false

theorem Word.dropWhile_append {name : Str} (h : Word name) (rest : Str) :
    (name ++ rest).dropWhile isSeparator = name ++ rest := by
  cases name with
  | nil => exact absurd rfl h.nonempty
  | cons c name =>
    have hc : isSeparator c = false := h.noDot c mem_cons_self
    simp [hc]

theorem Word.not_separator {name : Str} (h : Word name) : ∀ c ∈ name, (!isSeparator c) = true :=
  fun c hc => by rw [h.noDot c hc, Bool.not_false]

theorem join_words (name : Str) (names : List Str) :
    ∃ rest, List.intercalate [('.' : UInt8)] (name :: names) = name ++ rest := by
  cases names with
  | nil => exact ⟨[], by rw [intercalate_singleton, append_nil]⟩
  | cons b names => exact ⟨_, by rw [intercalate_cons_cons, append_assoc]⟩

/-- The tokens of a path that is written with dots. -/
theorem cut_join : ∀ {names : List Str} {n : Nat}, names ≠ [] → names.length ≤ n + 1 →
    (∀ name ∈ names, Word name) → cut n (List.intercalate [('.' : UInt8)] names) = names
  | [], _, hne, _, _ => absurd rfl hne
  | [name], 0, _, _, _ => by rw [intercalate_singleton, cut]
  | [name], n + 1, _, _, hwords => by
    have hname : Word name := hwords name mem_cons_self
    have hdrop : name.dropWhile isSeparator = name := by
      simpa using hname.dropWhile_append []
    have hrest : name.dropWhile (!isSeparator ·) = [] :=
      dropWhile_eq_nil_iff.mpr hname.not_separator
    rw [intercalate_singleton, cut, hdrop, hrest,
      takeWhile_eq_self_iff.mpr hname.not_separator]
    rfl
  | name :: b :: names, 0, _, hlen, _ => by simp at hlen
  | name :: b :: names, n + 1, _, hlen, hwords => by
    have hname : Word name := hwords name mem_cons_self
    have hb : Word b := hwords b (mem_cons_of_mem name mem_cons_self)
    have ih : cut n (List.intercalate [('.' : UInt8)] (b :: names)) = b :: names :=
      cut_join (cons_ne_nil b names) (Nat.le_of_succ_le_succ hlen) fun a ha =>
        hwords a (mem_cons_of_mem name ha)
    obtain ⟨rest, hjoin⟩ := join_words b names
    rw [intercalate_cons_cons, append_assoc, cut, hname.dropWhile_append,
      takeWhile_append_of_pos hname.not_separator,
      dropWhile_append_of_pos hname.not_separator]
    rw [hjoin] at ih ⊢
    have hdot : isSeparator ('.' : UInt8) = true := by decide
    rw [singleton_append, takeWhile_cons_of_neg (by simp [hdot]), append_nil,
      dropWhile_cons_of_neg (by simp [hdot]), dropWhile_cons_of_pos hdot,
      hb.dropWhile_append]
    cases hs : b ++ rest with
    | nil => exact absurd (append_eq_nil_iff.mp hs).1 hb.nonempty
    | cons c s => rw [hs] at ih; exact congrArg (name :: ·) ih

theorem plainPath_join {names : List Str} (hpath : doc.disablePath = false) (hne : names ≠ [])
    (hlen : names.length ≤ doc.maxDeepLevel) (hwords : ∀ name ∈ names, Word name)
    (hplain : ∀ name ∈ names, ConfNode.Plain name)
    (hspecial : ('#' : UInt8) ∉ List.intercalate [('.' : UInt8)] names) :
    doc.PlainPath (List.intercalate [('.' : UInt8)] names) names := by
  refine ⟨?_, hne, hplain, hspecial⟩
  cases names with
  | nil => exact absurd rfl hne
  | cons name names =>
    have hname : Word name := hwords name mem_cons_self
    have hcut : cut (doc.maxDeepLevel - 1) (List.intercalate [('.' : UInt8)] (name :: names)) =
        name :: names := by
      refine cut_join hne ?_ hwords
      rw [length_cons] at hlen ⊢
      omega
    obtain ⟨rest, hjoin⟩ := join_words name names
    have hpos : name ++ rest ≠ [] := fun h => hname.nonempty (append_eq_nil_iff.mp h).1
    rw [tokens, if_neg (by simp [hpath]), hcut, hjoin, if_neg hpos, hname.dropWhile_append,
      if_neg fun h => hpos h.2]

theorem PlainPath.withRoot (h : doc.PlainPath path p) (root : Option ConfNode) :
    ({ doc with root } : ConfDoc).PlainPath path p :=
  ⟨h.tokens, h.nonempty, h.plain, h.noSpecial⟩

/-- The node at a list of names. -/
def view (doc : ConfDoc) (p : List Str) : Option ConfNode := doc.root.bind (ConfNode.view p)

/-- What a path gives where a node is found, or not. -/
def answer : Option ConfNode → Ret × Option Value
  | none => (.notFound, some (.int32 0))
  | some n =>
    match n.getValue with
    | some v => (.ok, some v)
    | none => (.notImpl, none)

/-- The value that comes back.  A `float_t` is kept as a `float`. -/
def returned : Value → Value
  | .float bits => .float32 bits
  | v => v

theorem read_plain {n : ConfNode} {way : List Nat} (h : ('#' : UInt8) ∉ path) :
    read n way path = some (answer (some n)) := by
  have hspecial : path.dropWhile (fun (c : UInt8) => c ≠ '#') = [] :=
    dropWhile_eq_nil_iff.mpr fun c hc => decide_eq_true fun heq => h (heq ▸ hc)
  rw [read, if_pos hspecial]
  cases hv : n.getValue <;> simp [answer, hv]

theorem get_view (h : doc.PlainPath path p) : doc.get path = some (answer (doc.view p), doc) := by
  rw [get, findNode]
  cases hroot : doc.root with
  | none => simp [view, answer, hroot]
  | some root =>
    have hself : { doc with root := some root } = doc := by rw [← hroot]
    rcases root.findNode_view h.nonempty h.plain with
      ⟨hfind, hview⟩ | ⟨way, hfind, -, ⟨m, hm, hview⟩, -⟩
    · simp [h.tokens, hfind, view, hroot, hview, hself, answer]
    · simp [h.tokens, hfind, view, hroot, hview, hself, nodeAt, hm, read_plain h.noSpecial]

theorem exists_view (h : doc.PlainPath path p) :
    doc.exists? path = some ((doc.view p).isSome, doc) := by
  rw [exists?, findNode]
  cases hroot : doc.root with
  | none => simp [view, hroot]
  | some root =>
    have hself : { doc with root := some root } = doc := by rw [← hroot]
    rcases root.findNode_view h.nonempty h.plain with
      ⟨hfind, hview⟩ | ⟨way, hfind, -, ⟨m, hm, hview⟩, -⟩
    · simp [h.tokens, hfind, view, hroot, hview, hself]
    · simp [h.tokens, hfind, view, hroot, hview, hself]

/-- The root that `conf_doc_set` starts from. -/
def base (doc : ConfDoc) : ConfNode := doc.root.getD (ConfNode.create rootName)

theorem set_put (h : doc.PlainPath path p) : doc.set path v =
    some ((ConfNode.setValue v (ConfNode.target p doc.base)).1,
      { doc with root := some (ConfNode.put (fun n => (ConfNode.setValue v n).2) p doc.base) }) := by
  obtain ⟨n, way, hfind, hmodify⟩ :=
    ConfNode.findNode_put (ConfNode.setValue v) doc.base h.nonempty h.plain
  have htokens : ({ doc with root := some doc.base } : ConfDoc).tokens path = some p := h.tokens
  have hstep : ({ doc with root := some doc.base } : ConfDoc).findNode true path =
      some ({ doc with root := some n }, some way) := by
    rw [findNode]
    simp [htokens, hfind]
  rw [set]
  change (ConfDoc.findNode { doc with root := some doc.base } true path).bind _ = _
  rw [hstep]
  simp [hmodify]

theorem remove_del (h : doc.PlainPath path p) (hok : doc.remove path = some (.ok, doc')) :
    doc' = { doc with root := doc.root.map (ConfNode.del p) } := by
  rw [remove, findNode] at hok
  cases hroot : doc.root with
  | none => simp [hroot] at hok
  | some root =>
    rcases root.findNode_view h.nonempty h.plain with
      ⟨hfind, -⟩ | ⟨way, hfind, hway, -, hdel⟩
    · simp [hroot, h.tokens, hfind] at hok
    · cases way with
      | nil => exact absurd rfl hway
      | cons i is => simpa [hroot, h.tokens, hfind, hdel] using hok.symm

theorem setValue_ok {n : ConfNode} (h : (ConfNode.setValue v n).1 = .ok) :
    (ConfNode.setValue v n).2.getValue = some (returned v) := by
  cases n with
  | node => simp [ConfNode.setValue] at h
  | none | leaf =>
    cases v with
    | str s =>
      cases s with
      | none => rfl
      | some s =>
        by_cases hs : s.length < 8 <;> simp [ConfNode.setValue, ConfNode.getValue, hs, returned]
    | binary data =>
      cases data with
      | none => simp [ConfNode.setValue] at h
      | some data => rfl
    | other => simp [ConfNode.setValue] at h
    | _ => rfl

theorem name_setValue (n : ConfNode) : (ConfNode.setValue v n).2.name = n.name := by
  cases n with
  | node => rfl
  | none | leaf =>
    cases v with
    | binary data => cases data <;> rfl
    | str s => cases s <;> rfl
    | _ => rfl

theorem view_base (hq : q ≠ []) : ConfNode.view q doc.base = doc.view q := by
  rw [view, base]
  cases doc.root with
  | none =>
    cases q with
    | nil => exact absurd rfl hq
    | cons name q => rfl
  | some root => rfl

theorem get_set_self (h : doc.PlainPath path p) (hset : doc.set path v = some (.ok, doc')) :
    doc'.get path = some ((.ok, some (returned v)), doc') := by
  rw [set_put h, some_inj, Prod.mk.injEq] at hset
  obtain ⟨hok, rfl⟩ := hset
  rw [get_view (h.withRoot _), view, bind_some,
    ConfNode.view_put_self name_setValue, answer]
  simp only [setValue_ok hok]

theorem get_set_other (h : doc.PlainPath path p) (hset : doc.set path v = some (.ok, doc'))
    (h' : doc.PlainPath path' q) (hpq : ¬p <+: q) (hqp : ¬q <+: p) :
    (doc'.get path').map Prod.fst = (doc.get path').map Prod.fst := by
  rw [set_put h, some_inj, Prod.mk.injEq] at hset
  obtain ⟨-, rfl⟩ := hset
  rw [get_view h', get_view (h'.withRoot _), view,
    bind_some, ConfNode.view_put_other name_setValue doc.base hpq hqp,
    view_base h'.nonempty]
  rfl

/-- Only one child of the parent of a path has its last name. -/
def OnlyOne (doc : ConfDoc) (p : List Str) : Prop := ∀ root ∈ doc.root, root.OnlyOne p

theorem exists_remove (h : doc.PlainPath path p) (hone : doc.OnlyOne p)
    (hremove : doc.remove path = some (.ok, doc')) (h' : doc.PlainPath path' q) (hpq : p <+: q) :
    doc'.exists? path' = some (false, doc') := by
  obtain rfl := remove_del h hremove
  obtain ⟨r, rfl⟩ := hpq
  rw [exists_view (h'.withRoot _), view]
  cases hroot : doc.root with
  | none => rfl
  | some root =>
    rw [map_some, bind_some,
      ConfNode.view_del_self r root h.nonempty (hone root hroot)]
    rfl

theorem answer_congr {a b : Option ConfNode}
    (h : a.map ConfNode.getValue = b.map ConfNode.getValue) : answer a = answer b := by
  cases a with
  | none =>
    cases b with
    | none => rfl
    | some b => cases h
  | some a =>
    cases b with
    | none => cases h
    | some b => simp only [answer, some_inj.mp h]

theorem get_remove_other (h : doc.PlainPath path p) (hremove : doc.remove path = some (.ok, doc'))
    (h' : doc.PlainPath path' q) (hpq : ¬p <+: q) :
    (doc'.get path').map Prod.fst = (doc.get path').map Prod.fst := by
  obtain rfl := remove_del h hremove
  rw [get_view h', get_view (h'.withRoot _), view, view]
  cases hroot : doc.root with
  | none => rfl
  | some root =>
    exact congrArg some (answer_congr (ConfNode.view_del_other root hpq))

/-- What is set is read back and what is removed is gone, and the other paths of plain
names keep what they give. -/
theorem store_law (h : doc.PlainPath path p) :
    (∀ v doc', doc.set path v = some (.ok, doc') →
      doc'.get path = some ((.ok, some (returned v)), doc') ∧
      ∀ path' q, doc.PlainPath path' q → ¬p <+: q → ¬q <+: p →
        (doc'.get path').map Prod.fst = (doc.get path').map Prod.fst) ∧
    ∀ doc', doc.remove path = some (.ok, doc') →
      (doc.OnlyOne p → ∀ path' q, doc.PlainPath path' q → p <+: q →
        doc'.exists? path' = some (false, doc')) ∧
      ∀ path' q, doc.PlainPath path' q → ¬p <+: q →
        (doc'.get path').map Prod.fst = (doc.get path').map Prod.fst :=
  ⟨fun _ _ hset => ⟨get_set_self h hset, fun _ _ h' => get_set_other h hset h'⟩,
    fun _ hremove => ⟨fun hone _ _ h' => exists_remove h hone hremove h',
      fun _ _ h' => get_remove_other h hremove h'⟩⟩

theorem store_law_create : ∃ doc, create.set ['a', '.', 'b'] (.int32 7) = some (.ok, doc) ∧
    doc.get ['a', '.', 'b'] = some ((.ok, some (.int32 7)), doc) := by
  have hpath : create.PlainPath ['a', '.', 'b'] [['a'], ['b']] := by
    refine ⟨by decide +kernel, cons_ne_nil _ _, fun name hname => ?_, by decide⟩
    rcases mem_cons.mp hname with rfl | hname
    · exact ⟨by decide, by decide⟩
    · rw [mem_singleton.mp hname]
      exact ⟨by decide, by decide⟩
  exact ⟨_, rfl, ((store_law hpath).1 (.int32 7) _ rfl).1⟩

/-- A removed path can still be there: `conf_doc_add_child` takes the number of children as
the name of the new one, whether there is one with this name or not.  With a depth of two
the path below the removed one is a key of its own.  And a key that is set can be the one
of an index. -/
theorem exists_after_remove :
    ((do
      let (_, doc) ← create.set ['a', '.', '1'] (.int32 7)
      let (_, doc) ← doc.addChild ['a']
      let (ret, doc) ← doc.remove ['a', '.', '1']
      return (ret, (← doc.exists? ['a', '.', '1']).1)) : Option (Ret × Bool)) = some (.ok, true) ∧
    ((do
      let (_, doc) ← ({ create with maxDeepLevel := 2 } : ConfDoc).set ['a', '.', 'b'] (.int32 7)
      let (_, doc) ← doc.set ['a', '.', 'b', '.', 'c'] (.int32 7)
      let (ret, doc) ← doc.remove ['a', '.', 'b']
      return (ret, (← doc.exists? ['a', '.', 'b', '.', 'c']).1)) : Option (Ret × Bool)) =
        some (.ok, true) ∧
    ((do
      let ((before, _), doc) ← create.get ['[', '0', ']']
      let (ret, doc) ← doc.set ['a'] (.int32 7)
      return (before, ret, (← doc.get ['[', '0', ']']).1)) :
        Option (Ret × Ret × Ret × Option Value)) =
        some (.notFound, .ok, .ok, some (.int32 7)) := by
  refine ⟨?_, ?_, ?_⟩ <;> decide +kernel

end ConfDoc

end Awtk.Conf
