import Awtk.Ubjson.UbjsonObjectCalls

/-!
# UBJSON round trips of objects

`ubjson_writer_write_object` writes an `object_array_t` as an object, the parser puts the
names in order, and it stops at the first object that is one level too deep.  So a tree comes
back exactly if it has no array, its names are in order, and nothing is behind such an object
(`toObject_writeObject_iff`).
-/

namespace Awtk.Ubjson

open List Option

namespace Obj

variable {o c : Obj} {props : List (Str × Obj)} {name : Str} {way : List Nat} {root : Obj}
  {p : ObjectParser}

/-! ## Where the parser stops -/

/-- An object that is one level too deep. -/
def tooDeep : Nat × Bool := (ObjectParser.maxLevel + 1, true)

/-- The number of nodes up to the first that is too deep. -/
def reached : List (Nat × Bool) → Nat
  | [] => 0
  | n :: ns => if n = tooDeep then 1 else reached ns + 1

theorem reached_append (as bs : List (Nat × Bool)) :
    reached (as ++ bs) = if tooDeep ∈ as then reached as else as.length + reached bs := by
  induction as with
  | nil => simp
  | cons a as ih =>
    rw [cons_append, reached, reached, ih]
    by_cases ha : a = tooDeep
    · subst ha
      rw [if_pos rfl, if_pos mem_cons_self, if_pos rfl]
    · have hmem : tooDeep ∈ a :: as ↔ tooDeep ∈ as := by
        rw [mem_cons, or_iff_right (Ne.symm ha)]
      rw [if_neg ha, if_neg ha]
      by_cases has : tooDeep ∈ as
      · rw [if_pos has, if_pos (hmem.mpr has)]
      · rw [if_neg has, if_neg (mt hmem.mp has), length_cons]
        omega

theorem reached_le (ns : List (Nat × Bool)) : reached ns ≤ ns.length := by
  induction ns with
  | nil => exact Nat.le_refl 0
  | cons n ns ih =>
    rw [reached, length_cons]
    split <;> omega

theorem reached_lt {ns : List (Nat × Bool)} (h : tooDeep ∈ ns.dropLast) : reached ns < ns.length := by
  induction ns with
  | nil => cases h
  | cons n ns ih =>
    cases ns with
    | nil => cases h
    | cons n' ns =>
      rw [dropLast_cons_cons, mem_cons] at h
      rw [reached, length_cons]
      by_cases hn : n = tooDeep
      · rw [if_pos hn, length_cons]
        omega
      · rcases h with h | h
        · exact absurd h.symm hn
        · have hlt := ih h
          rw [if_neg hn]
          omega

/-- The parser at an object. -/
structure Opens (p : ObjectParser) (root : Obj) (way : List Nat) : Prop where
  parser : p = { root := some root, stack := some way, optimizedType := 0 }
  level : way.length < ObjectParser.maxLevel

theorem Opens.setProp (h : Opens p root way) (name : Str) (c : Obj) : ∃ root',
    (p.setProp name c).2 = { root := some root', stack := some way, optimizedType := 0 } ∧
      count root' ≤ count root + count c := by
  refine ⟨root.updateAt (fun o => (o.setProp name c).2) way, ?_,
    count_updateAt_le (fun o => count_setProp_le o name c) way root⟩
  rw [ObjectParser.setProp, h.parser]

theorem Opens.pushNew (h : Opens p root way) (name : Str) : ∃ root' i,
    count root' ≤ count root + 1 ∧
      p.pushNew name (default []) =
        (if way.length + 1 < ObjectParser.maxLevel then
          (.ok, { root := some root', stack := some (way ++ [i]), optimizedType := 0 })
        else (.badParams, { root := some root', stack := some way, optimizedType := 0 })) := by
  obtain ⟨root', hset, hcount⟩ := h.setProp name (default [])
  refine ⟨root', ((root.nodeAt way).map (·.slot name)).getD 0, hcount, ?_⟩
  rw [ObjectParser.pushNew, hset, h.parser]

/-- After the calls for some nodes: no more nodes than were reached were added, and without an
error the parser is at the same object. -/
def Counts (s : Bool × ObjectParser) (root : Obj) (way : List Nat) (ns : List (Nat × Bool)) : Prop :=
  ∃ root', s.2.root = some root' ∧ count root' ≤ count root + reached ns ∧
    (s.1 = false → tooDeep ∉ ns ∧ Opens s.2 root' way)

variable {s : Bool × ObjectParser} {ns ms : List (Nat × Bool)}

theorem Counts.andThen {events : List Doc.Event} (h : Counts s root way ns)
    (hnext : ∀ root', Opens s.2 root' way →
      Counts (feed ObjectParser.onKeyValue (false, s.2) events) root' way ms) :
    Counts (feed ObjectParser.onKeyValue s events) root way (ns ++ ms) := by
  obtain ⟨root', hroot, hcount, hok⟩ := h
  have hle := reached_le ns
  have happend := reached_append ns ms
  cases hs : s.1 with
  | true =>
    rw [Parser.feed_stopped ObjectParser.onKeyValue hs]
    refine ⟨root', hroot, ?_, fun hfalse => by rw [hs] at hfalse; cases hfalse⟩
    by_cases hmem : tooDeep ∈ ns
    · rw [happend, if_pos hmem]
      exact hcount
    · rw [happend, if_neg hmem]
      omega
  | false =>
    obtain ⟨hmem, hopens⟩ := hok hs
    have hs' : s = (false, s.2) := by rw [← hs]
    obtain ⟨root'', hroot', hcount', hok'⟩ := hnext root' hopens
    rw [hs']
    refine ⟨root'', hroot', ?_, fun hfalse => ?_⟩
    · rw [happend, if_neg hmem]
      omega
    · obtain ⟨hmem', hopens'⟩ := hok' hfalse
      exact ⟨fun hboth => (mem_append.mp hboth).elim hmem hmem', hopens'⟩

theorem Opens.counts_value (h : Opens p root way) (name : Str) (v : Value) (depth : Nat) :
    Counts (feed ObjectParser.onKeyValue (false, p) [(some name, .value v)]) root way
      [(depth, false)] := by
  obtain ⟨root', hset, hcount⟩ := h.setProp name (value v)
  have hcall : call ObjectParser.onKeyValue (false, p) (some name, .value v) =
      (decide ((p.setProp name (value v)).1 ≠ .ok), (p.setProp name (value v)).2) := by
    have hvalue : p.onKeyValue (some name) (.value v) = p.setProp name (value v) := by
      rw [h.parser]
      rfl
    rw [← hvalue]
    rfl
  have hreached : reached [(depth, false)] = 1 := by
    rw [reached]
    split <;> rfl
  refine ⟨root', ?_, by rw [hreached]; exact hcount, fun _ => ⟨?_, ?_, h.level⟩⟩
  · rw [feed, foldl_cons, hcall, foldl_nil, hset]
  · intro hmem
    cases mem_singleton.mp hmem
  · rw [feed, foldl_cons, hcall, foldl_nil, hset]

theorem pop_concat (root : Option Obj) (way : List Nat) (i : Nat) (type : UInt8) :
    ObjectParser.pop ⟨root, some (way ++ [i]), type⟩ = (.ok, ⟨root, some way, type⟩) := by
  obtain ⟨j, js, hcons⟩ := exists_cons_of_ne_nil (append_ne_nil_of_right_ne_nil way
    (cons_ne_nil i []))
  have hdrop : (j :: js).dropLast = way := by rw [← hcons, dropLast_concat]
  rw [hcons]
  change (Ret.ok, (⟨root, some (j :: js).dropLast, type⟩ : ObjectParser)) = _
  rw [hdrop]

/-- The members of a new object are parsed in it. -/
theorem Opens.counts_object (h : Opens p root way) (name : Str) {events : List Doc.Event}
    (hnext : ∀ (p : ObjectParser) (root : Obj) (i : Nat), Opens p root (way ++ [i]) →
      Counts (feed ObjectParser.onKeyValue (false, p) events) root (way ++ [i]) ns) :
    Counts (feed ObjectParser.onKeyValue (false, p)
      ((some name, Doc.begins .objectBegin) :: events ++ [(none, Doc.begins .objectEnd)]))
      root way ((way.length + 2, true) :: ns) := by
  obtain ⟨root', i, hcount, hpush⟩ := h.pushNew name
  have hlevel := h.level
  have hcall : call ObjectParser.onKeyValue (false, p) (some name, Doc.begins .objectBegin) =
      (decide ((p.pushNew name (default [])).1 ≠ .ok), (p.pushNew name (default [])).2) := rfl
  rw [cons_append, Parser.feed_cons, hcall, hpush]
  split_ifs with hdeep
  · have hopens : Opens { root := some root', stack := some (way ++ [i]), optimizedType := 0 } root'
        (way ++ [i]) := ⟨rfl, by rw [length_append]; exact hdeep⟩
    obtain ⟨root'', hroot, hcount', hok⟩ := hnext _ root' i hopens
    have hhead : ¬(way.length + 2, true) = tooDeep := by
      rw [tooDeep, Prod.mk.injEq]
      omega
    rw [Parser.feed_append]
    change Counts (feed _ (feed _ (false, _) events) _) root way _
    generalize feed ObjectParser.onKeyValue (false, _) events = s at hroot hok ⊢
    have hreached : reached ((way.length + 2, true) :: ns) = reached ns + 1 := if_neg hhead
    cases hs : s.1 with
    | true =>
      rw [Parser.feed_stopped ObjectParser.onKeyValue hs]
      refine ⟨root'', hroot, by omega, fun hfalse => by rw [hs] at hfalse; cases hfalse⟩
    | false =>
      obtain ⟨hmem, hopens'⟩ := hok hs
      have hpop : s.2.pop = (.ok, { root := some root'', stack := some way, optimizedType := 0 }) := by
        rw [hopens'.parser, pop_concat]
      have hend : feed ObjectParser.onKeyValue s [(none, Doc.begins .objectEnd)] =
          (false, { root := some root'', stack := some way, optimizedType := 0 }) := by
        rw [feed, foldl_cons, foldl_nil, call, hs]
        change (decide (s.2.pop.1 ≠ .ok), s.2.pop.2) = _
        rw [hpop]
        rfl
      rw [hend]
      refine ⟨root'', rfl, by omega, fun _ => ⟨?_, rfl, h.level⟩⟩
      intro hmem'
      rcases mem_cons.mp hmem' with heq | hmem'
      · exact hhead heq.symm
      · exact hmem hmem'
  · rw [Parser.feed_stopped ObjectParser.onKeyValue (by rfl)]
    have hlen : way.length + 2 = ObjectParser.maxLevel + 1 := by omega
    have hhead : (way.length + 2, true) = tooDeep := congrArg (·, true) hlen
    refine ⟨root', rfl, ?_, fun hfalse => by cases hfalse⟩
    rw [reached, if_pos hhead]
    exact hcount

mutual

theorem counts_toDoc : ∀ {o : Obj}, Ordered o → ∀ {p : ObjectParser} {root : Obj} {way : List Nat}
    (_ : Opens p root way) (name : Str),
    Counts (feed ObjectParser.onKeyValue (false, p) ((toDoc o).events (some name))) root way
      (nodes (way.length + 2) o)
  | value v, _, _, _, _, h, name => h.counts_value name (written v) _
  | array _, ho, _, _, _, _, _ => ho.1.elim
  | default props, ho, _, _, way, h, name => by
    rw [toDoc, Doc.events, nodes]
    refine h.counts_object name ?_
    intro p root i hp
    have hcounts := counts_toMembers ho.2 hp
    rw [length_append] at hcounts
    exact hcounts

theorem counts_toMembers : ∀ {props : List (Str × Obj)},
    AllProps (fun names => names.Pairwise (· < ·)) (fun _ => False) (fun _ => True) props →
    ∀ {p : ObjectParser} {root : Obj} {way : List Nat}, Opens p root way →
    Counts (feed ObjectParser.onKeyValue (false, p) (Doc.eventsMembers (toMembers props))) root way
      (nodesProps (way.length + 2) props)
  | [], _, p, root, way, h => by
    refine ⟨root, by rw [h.parser]; rfl, Nat.le_refl _, fun _ => ⟨not_mem_nil, h⟩⟩
  | (name, o) :: props, ho, p, root, way, h => by
    rw [toMembers, Doc.eventsMembers, Parser.feed_append, nodesProps]
    exact (counts_toDoc ho.1 h name).andThen fun root' hopens => counts_toMembers ho.2 hopens

end

/-! ## Trees that come back -/

theorem plainProps (h : Plain (default props)) : ∀ p ∈ props, PlainName p.1 ∧ Plain p.2 := by
  intro p hp
  exact ⟨h.1.2 p.1 (List.mem_map_of_mem hp), allProps_iff.mp h.2 p hp⟩

theorem findIndex_none (hname : PlainName name) (hlt : ∀ p ∈ props, p.1 < name) :
    findIndex props name = none := by
  rw [findIndex_plain hname, findIdx?_eq_none_iff]
  intro p hp
  exact decide_eq_false fun heq => List.lt_irrefl _ (heq ▸ hlt p hp)

theorem lowerBound_eq (hlt : ∀ p ∈ props, p.1 < name) : lowerBound props name = props.length :=
  congrArg List.length (takeWhile_eq_self_iff.mpr fun p hp => decide_eq_true (hlt p hp))

theorem setProp_append (hname : PlainName name) (hlt : ∀ p ∈ props, p.1 < name) (c : Obj) :
    (default props).setProp name c = (.ok, default (props ++ [(name, c)])) := by
  change (Ret.ok, default (setDefault props name c)) = _
  rw [setDefault, findIndex_none hname hlt, lowerBound_eq hlt]
  exact congrArg (fun props => (Ret.ok, default props)) (insertIdx_length_self)

theorem slot_append (hname : PlainName name) (hlt : ∀ p ∈ props, p.1 < name) :
    (default props).slot name = props.length := by
  rw [slot, findIndex_none hname hlt, lowerBound_eq hlt]
  rfl

/-- The parser at an object whose names are behind the given ones. -/
structure Ready (p : ObjectParser) (root : Obj) (way : List Nat) (props : List (Str × Obj)) : Prop
    extends Opens p root way where
  at_way : root.nodeAt way = some (default props)

/-- The calls for some nodes: the root is built, and only the last node stops the parser. -/
structure Builds (s : Bool × ObjectParser) (root : Obj) (way : List Nat) (ns : List (Nat × Bool)) :
    Prop where
  built : s.2.root = some root
  stops : s.1 = true → tooDeep ∈ ns
  goes : s.1 = false → tooDeep ∉ ns ∧ s.2 = { root := some root, stack := some way, optimizedType := 0 }

theorem Ready.updateAt_eq (h : Ready p root way props) {f g : Obj → Obj}
    (hfg : f (default props) = g (default props)) : root.updateAt f way = root.updateAt g way := by
  rw [← places_updateAt, ← places_updateAt]
  exact places.updateAt_congr ((places_nodeAt way root).trans h.at_way) hfg

theorem Ready.setProp (h : Ready p root way props) (hname : PlainName name)
    (hlt : ∀ p ∈ props, p.1 < name) (c : Obj) :
    p.setProp name c =
      (.ok, ⟨some (root.updateAt (fun _ => default (props ++ [(name, c)])) way), some way, 0⟩) := by
  have hupdate : root.updateAt (fun o => (o.setProp name c).2) way =
      root.updateAt (fun _ => default (props ++ [(name, c)])) way :=
    h.updateAt_eq (by rw [setProp_append hname hlt])
  rw [ObjectParser.setProp, h.parser]
  dsimp only
  rw [hupdate, h.at_way, map_some, setProp_append hname hlt]
  rfl

theorem Ready.pushNew (h : Ready p root way props) (hname : PlainName name)
    (hlt : ∀ p ∈ props, p.1 < name) :
    p.pushNew name (default []) =
      (if way.length + 1 < ObjectParser.maxLevel then
        (.ok, ⟨some (root.updateAt (fun _ => default (props ++ [(name, default [])])) way),
          some (way ++ [props.length]), 0⟩)
      else (.badParams,
        ⟨some (root.updateAt (fun _ => default (props ++ [(name, default [])])) way), some way, 0⟩)) := by
  have hslot : ((root.nodeAt way).map (·.slot name)).getD 0 = props.length := by
    rw [h.at_way, map_some, getD_some, slot_append hname hlt]
  rw [ObjectParser.pushNew, h.setProp hname hlt, h.parser]
  dsimp only
  rw [hslot]

theorem child_concat (props : List (Str × Obj)) (name : Str) (c : Obj) :
    (default (props ++ [(name, c)])).child props.length = some c := by
  rw [child, getElem?_concat_length]
  rfl

theorem setChild_concat (props : List (Str × Obj)) (name : Str) (c d : Obj) :
    (default (props ++ [(name, c)])).setChild props.length d = default (props ++ [(name, d)]) := by
  rw [setChild]
  induction props with
  | nil => rfl
  | cons p props ih =>
    injection ih with ih
    exact congrArg (fun props => default (p :: props)) ih

theorem Ready.added_at (h : Ready p root way props) (name : Str) (c : Obj) :
    (root.updateAt (fun _ => default (props ++ [(name, c)])) way).nodeAt (way ++ [props.length]) =
      some c := by
  have hat : places.nodeAt (way ++ [props.length])
      (places.updateAt (fun _ => default (props ++ [(name, c)])) way root) = some c :=
    @Places.nodeAt_added _ places _ _ _ (fun _ c => default (props ++ [(name, c)])) _
      ((places_nodeAt way root).trans h.at_way) (fun c => child_concat props name c) c
  rw [places_nodeAt, places_updateAt] at hat
  exact hat

theorem Ready.added_updateAt (h : Ready p root way props) (name : Str) (f : Obj → Obj) (c : Obj) :
    (root.updateAt (fun _ => default (props ++ [(name, c)])) way).updateAt f (way ++ [props.length]) =
      root.updateAt (fun _ => default (props ++ [(name, f c)])) way := by
  have hat : places.updateAt f (way ++ [props.length])
      (places.updateAt (fun _ => default (props ++ [(name, c)])) way root) =
      places.updateAt (fun _ => default (props ++ [(name, f c)])) way root :=
    @Places.updateAt_added _ places _ _ _ (fun _ c => default (props ++ [(name, c)])) _
      ((places_nodeAt way root).trans h.at_way) (fun c => child_concat props name c)
      (fun c d => setChild_concat props name c d) f c
  simp only [places_updateAt] at hat
  exact hat

/-- At the object that was written. -/
theorem Ready.written (h : Ready p root way props) (added : List (Str × Obj)) :
    Ready ⟨some (root.updateAt (fun _ => default (props ++ added)) way), some way, 0⟩
      (root.updateAt (fun _ => default (props ++ added)) way) way (props ++ added) where
  parser := rfl
  level := h.level
  at_way := by
    have hat := places.nodeAt_updateAt (fun _ => default (props ++ added))
      ((places_nodeAt way root).trans h.at_way)
    rw [places_nodeAt, places_updateAt] at hat
    exact hat

theorem Ready.builds_value (h : Ready p root way props) (hname : PlainName name)
    (hlt : ∀ p ∈ props, p.1 < name) (v : Value) (depth : Nat) :
    Builds (feed ObjectParser.onKeyValue (false, p) [(some name, .value v)])
      (root.updateAt (fun _ => default (props ++ [(name, value v)])) way) way [(depth, false)] := by
  have hvalue : p.onKeyValue (some name) (.value v) = p.setProp name (value v) := by
    rw [h.parser]
    rfl
  have hcall : feed ObjectParser.onKeyValue (false, p) [(some name, .value v)] =
      (decide ((p.setProp name (value v)).1 ≠ .ok), (p.setProp name (value v)).2) := by
    rw [← hvalue]
    rfl
  rw [hcall, h.setProp hname hlt]
  refine ⟨rfl, fun hstop => (by cases hstop), fun _ => ⟨?_, rfl⟩⟩
  intro hmem
  cases mem_singleton.mp hmem

/-- The members are built in the new object, and it is popped.  An object that is too deep
is not pushed, and it has no members. -/
theorem Ready.builds_object (h : Ready p root way props) (hname : PlainName name)
    (hlt : ∀ p ∈ props, p.1 < name) {events : List Doc.Event} {added : List (Str × Obj)}
    (hlast : tooDeep ∉ ((way.length + 2, true) :: ns).dropLast)
    (hempty : ns = [] → events = [] ∧ added = [])
    (hnext : ∀ (p : ObjectParser) (root : Obj) (i : Nat), Ready p root (way ++ [i]) [] →
      Builds (feed ObjectParser.onKeyValue (false, p) events)
        (root.updateAt (fun _ => default added) (way ++ [i])) (way ++ [i]) ns) :
    Builds (feed ObjectParser.onKeyValue (false, p)
        ((some name, Doc.begins .objectBegin) :: events ++ [(none, Doc.begins .objectEnd)]))
      (root.updateAt (fun _ => default (props ++ [(name, default added)])) way) way
      ((way.length + 2, true) :: ns) := by
  have hlevel := h.level
  have hcall : call ObjectParser.onKeyValue (false, p) (some name, Doc.begins .objectBegin) =
      (decide ((p.pushNew name (default [])).1 ≠ .ok), (p.pushNew name (default [])).2) := rfl
  rw [cons_append, Parser.feed_cons, hcall, h.pushNew hname hlt]
  by_cases hdeep : way.length + 1 < ObjectParser.maxLevel
  · have hhead : ¬(way.length + 2, true) = tooDeep := by
      rw [tooDeep, Prod.mk.injEq]
      omega
    have hready : Ready
        ⟨some (root.updateAt (fun _ => default (props ++ [(name, default [])])) way),
          some (way ++ [props.length]), 0⟩
        (root.updateAt (fun _ => default (props ++ [(name, default [])])) way)
        (way ++ [props.length]) [] :=
      ⟨⟨rfl, by rw [length_append]; exact hdeep⟩, h.added_at name (default [])⟩
    have hbuilds := hnext _ _ _ hready
    rw [h.added_updateAt name (fun _ => default added)] at hbuilds
    rw [if_pos hdeep, Parser.feed_append]
    change Builds (feed _ (feed _ (false, _) events) _) _ way _
    generalize feed ObjectParser.onKeyValue (false, _) events = s at hbuilds ⊢
    cases hs : s.1 with
    | true =>
      rw [Parser.feed_stopped ObjectParser.onKeyValue hs]
      exact ⟨hbuilds.built, fun _ => mem_cons_of_mem _ (hbuilds.stops hs),
        fun hfalse => by rw [hs] at hfalse; cases hfalse⟩
    | false =>
      obtain ⟨hmem, hstate⟩ := hbuilds.goes hs
      have hend : feed ObjectParser.onKeyValue s [(none, Doc.begins .objectEnd)] =
          (decide (s.2.pop.1 ≠ .ok), s.2.pop.2) := by
        rw [feed, foldl_cons, foldl_nil, call, hs]
        rfl
      rw [hend, hstate, pop_concat]
      refine ⟨rfl, fun hstop => (by cases hstop), fun _ => ⟨?_, rfl⟩⟩
      intro hmem'
      rcases mem_cons.mp hmem' with heq | hmem'
      · exact hhead heq.symm
      · exact hmem hmem'
  · have hlen : way.length + 2 = ObjectParser.maxLevel + 1 := by omega
    have hhead : (way.length + 2, true) = tooDeep := congrArg (·, true) hlen
    have hns : ns = [] := by
      cases ns with
      | nil => rfl
      | cons n ns =>
        rw [dropLast_cons_cons, hhead] at hlast
        exact absurd mem_cons_self hlast
    obtain ⟨rfl, rfl⟩ := hempty hns
    rw [if_neg hdeep, Parser.feed_stopped ObjectParser.onKeyValue (by rfl)]
    exact ⟨rfl, fun _ => mem_cons.mpr (.inl hhead.symm), fun hfalse => by cases hfalse⟩

theorem nodes_ne_nil (o : Obj) (depth : Nat) : nodes depth o ≠ [] := by
  cases o <;> exact cons_ne_nil _ _

theorem nodesProps_eq_nil {depth : Nat} (h : nodesProps depth props = []) : props = [] := by
  cases props with
  | nil => rfl
  | cons p props =>
    obtain ⟨name, o⟩ := p
    exact absurd (append_eq_nil_iff.mp h).1 (nodes_ne_nil o depth)

mutual

theorem builds_toDoc : ∀ {o : Obj}, Ordered o → Plain o →
    ∀ {p : ObjectParser} {root : Obj} {way : List Nat} {props : List (Str × Obj)} {name : Str},
    Ready p root way props → PlainName name → (∀ p ∈ props, p.1 < name) →
    tooDeep ∉ (nodes (way.length + 2) o).dropLast →
    Builds (feed ObjectParser.onKeyValue (false, p) ((toDoc o).events (some name)))
      (root.updateAt (fun _ => default (props ++ [(name, norm o)])) way) way
      (nodes (way.length + 2) o)
  | value v, _, _, _, _, _, _, _, h, hname, hlt, _ => h.builds_value hname hlt (written v) _
  | array _, ho, _, _, _, _, _, _, _, _, _, _ => ho.1.elim
  | default props, ho, hplain, _, _, way, _, _, h, hname, hlt, hlast => by
    rw [toDoc, Doc.events, nodes, norm]
    refine h.builds_object hname hlt hlast ?_ ?_
    · intro hnil
      rw [nodesProps_eq_nil hnil]
      exact ⟨rfl, rfl⟩
    · intro p root i hready
      have hlen : (way ++ [i]).length + 2 = way.length + 2 + 1 := by rw [length_append]; rfl
      have hlast' : tooDeep ∉ (nodesProps ((way ++ [i]).length + 2) props).dropLast := by
        rw [hlen]
        intro hmem
        refine hlast ?_
        rw [nodes, dropLast_cons_of_ne_nil (fun hnil => by rw [hnil] at hmem; cases hmem)]
        exact mem_cons_of_mem _ hmem
      have hbuilds := builds_toMembers (ordered_default.mp ho).1 ho.2 (plainProps hplain) hready
        (fun p hp => by cases hp) hlast'
      rw [hlen] at hbuilds
      exact hbuilds

theorem builds_toMembers : ∀ {props : List (Str × Obj)}, (props.Pairwise fun p q => p.1 < q.1) →
    AllProps (fun names => names.Pairwise (· < ·)) (fun _ => False) (fun _ => True) props →
    (∀ p ∈ props, PlainName p.1 ∧ Plain p.2) →
    ∀ {p : ObjectParser} {root : Obj} {way : List Nat} {before : List (Str × Obj)},
    Ready p root way before → (∀ p ∈ before, ∀ q ∈ props, p.1 < q.1) →
    tooDeep ∉ (nodesProps (way.length + 2) props).dropLast →
    Builds (feed ObjectParser.onKeyValue (false, p) (Doc.eventsMembers (toMembers props)))
      (root.updateAt (fun _ => default (before ++ normProps props)) way) way
      (nodesProps (way.length + 2) props)
  | [], _, _, _, p, root, way, before, h, _, _ => by
    have hself : root.updateAt (fun _ => default (before ++ normProps [])) way = root := by
      rw [normProps, append_nil, ← places_updateAt]
      exact places.updateAt_self ((places_nodeAt way root).trans h.at_way) rfl
    rw [hself]
    refine ⟨by rw [h.parser]; rfl, fun hstop => (by cases hstop), fun _ => ⟨not_mem_nil, h.parser⟩⟩
  | (name, o) :: props, hord, ho, hplain, p, root, way, before, h, hlt, hlast => by
    rw [pairwise_cons] at hord
    obtain ⟨hname, hplain'⟩ := hplain _ mem_cons_self
    have hlt' : ∀ p ∈ before, p.1 < name := fun p hp => hlt p hp _ mem_cons_self
    rw [toMembers, Doc.eventsMembers, Parser.feed_append]
    cases props with
    | nil =>
      have hnodes : nodesProps (way.length + 2) [(name, o)] = nodes (way.length + 2) o :=
        append_nil _
      rw [hnodes] at hlast ⊢
      exact builds_toDoc ho.1 hplain' h hname hlt' hlast
    | cons q props =>
      have hsplit : nodesProps (way.length + 2) ((name, o) :: q :: props) =
        nodes (way.length + 2) o ++ nodesProps (way.length + 2) (q :: props) := rfl
      have hne : nodesProps (way.length + 2) (q :: props) ≠ [] := fun hnil =>
        cons_ne_nil _ _ (nodesProps_eq_nil hnil)
      rw [hsplit, dropLast_append_of_ne_nil hne, mem_append, not_or] at hlast
      have hbuilds := builds_toDoc ho.1 hplain' h hname hlt' fun hmem =>
        hlast.1 (dropLast_subset _ hmem)
      generalize feed ObjectParser.onKeyValue (false, p) ((toDoc o).events (some name)) = s
        at hbuilds ⊢
      have hs : s.1 = false := by
        cases hs : s.1 with
        | false => rfl
        | true => exact absurd (hbuilds.stops hs) hlast.1
      obtain ⟨-, hstate⟩ := hbuilds.goes hs
      have hready := h.written [(name, norm o)]
      have hlt'' : ∀ p ∈ before ++ [(name, norm o)], ∀ r ∈ q :: props, p.1 < r.1 := by
        intro p hp r hr
        rcases mem_append.mp hp with hp | hp
        · exact hlt p hp r (mem_cons_of_mem _ hr)
        · rw [mem_singleton.mp hp]
          exact hord.1 r hr
      have hrest := builds_toMembers hord.2 ho.2
        (fun p hp => hplain p (mem_cons_of_mem _ hp)) hready hlt'' hlast.2
      have hs' : s = (false, s.2) := by rw [← hs]
      have hboth : (root.updateAt (fun _ => default (before ++ [(name, norm o)])) way).updateAt
          (fun _ => default (before ++ [(name, norm o)] ++ normProps (q :: props))) way =
          root.updateAt (fun _ => default (before ++ normProps ((name, o) :: q :: props))) way := by
        rw [← places_updateAt, ← places_updateAt, places.updateAt_comp, places_updateAt,
          append_assoc]
        rfl
      rw [hboth] at hrest
      rw [hs', hstate, hsplit]
      exact ⟨hrest.built, fun hstop => mem_append_right _ (hrest.stops hstop), fun hgo =>
        ⟨fun hmem => (mem_append.mp hmem).elim hlast.1 (hrest.goes hgo).1, (hrest.goes hgo).2⟩⟩

end

/-! ## Trees that do not come back -/

theorem map_normProps (props : List (Str × Obj)) :
    (normProps props).map (·.1) = props.map (·.1) := by
  induction props with
  | nil => rfl
  | cons p props ih => exact congrArg (p.1 :: ·) ih

theorem written_written (v : Value) : written (written v) = written v := by
  cases v <;> rfl

mutual

theorem norm_norm : ∀ o : Obj, norm (norm o) = norm o
  | value v => congrArg value (written_written v)
  | default props => congrArg default (normProps_normProps props)
  | array items => congrArg array (normItems_normItems items)

theorem normProps_normProps : ∀ props : List (Str × Obj), normProps (normProps props) = normProps props
  | [] => rfl
  | (name, o) :: props => by
    rw [normProps, normProps, norm_norm o, normProps_normProps props]

theorem normItems_normItems : ∀ items : List Obj, normItems (normItems items) = normItems items
  | [] => rfl
  | o :: items => by
    rw [normItems, normItems, norm_norm o, normItems_normItems items]

end

mutual

theorem ordered_norm : ∀ {o : Obj}, Ordered (norm o) ↔ Ordered o
  | value _ => Iff.rfl
  | default props => by
    rw [norm, Ordered, All, All, map_normProps]
    exact and_congr_right fun _ => orderedProps_norm
  | array items => by
    rw [norm, Ordered, All, All]
    exact ⟨fun h => h.1.elim, fun h => h.1.elim⟩

theorem orderedProps_norm : ∀ {props : List (Str × Obj)},
    AllProps (fun names => names.Pairwise (· < ·)) (fun _ => False) (fun _ => True) (normProps props) ↔
      AllProps (fun names => names.Pairwise (· < ·)) (fun _ => False) (fun _ => True) props
  | [] => Iff.rfl
  | (_, _) :: _ => and_congr ordered_norm orderedProps_norm

end

theorem Same.ordered {t : Obj} (h : Same o t) (ho : Ordered o) : Ordered t := by
  rw [← ordered_norm, ← h, ordered_norm]
  exact ho

theorem Same.count_eq {t : Obj} (h : Same o t) : count o = count t := by
  rw [← count_norm o, h, count_norm]

theorem feed_object (members : List (Str × Doc)) :
    feed ObjectParser.onKeyValue (false, .init) ((Doc.object members).events none) =
      feed ObjectParser.onKeyValue (false, ⟨some (default []), some [], 0⟩)
        (Doc.eventsMembers members ++ [(none, Doc.begins .objectEnd)]) := by
  rw [Doc.events, cons_append, Parser.feed_cons]
  rfl

theorem opens_init : Opens ⟨some (default []), some [], 0⟩ (default []) [] := ⟨rfl, by decide⟩

theorem feed_end_root (s : Bool × ObjectParser) :
    (feed ObjectParser.onKeyValue s [(none, Doc.begins .objectEnd)]).2.root = s.2.root := by
  rw [feed, foldl_cons, foldl_nil, call]
  by_cases hs : s.1 = true
  · rw [if_pos hs]
  · rw [if_neg hs]
    change s.2.pop.2.root = s.2.root
    rw [ObjectParser.pop]
    split <;> rfl

theorem ordered_feed {t : Obj} (ht : ∀ v, t ≠ value v) (h : Plain t)
    (ho : (feed ObjectParser.onKeyValue (false, .init) ((toDoc t).events none)).2.root = some o) :
    Ordered o := by
  have hsound : Sound ⟨some (default []), some [], 0⟩ := by
    refine ⟨rfl, ?_⟩
    intro root hroot
    cases hroot
    exact ordered_empty
  have hend : ∀ e ∈ [((none, Doc.begins .objectEnd) : Doc.Event)], Written e :=
    fun e he => .inl (mem_singleton.mp he)
  cases t with
  | value v => exact absurd rfl (ht v)
  | default props =>
    rw [toDoc, feed_object] at ho
    refine (sound_feed ?_ hsound).root o ho
    exact forall_mem_append.mpr ⟨written_toMembers h.1.2 h.2, hend⟩
  | array items =>
    rw [toDoc, feed_object] at ho
    refine (sound_feed ?_ hsound).root o ho
    exact forall_mem_append.mpr
      ⟨written_toNamed 0 (Nat.le_of_lt (by rw [Nat.zero_add]; exact h.1)) h.2, hend⟩

theorem toObject_writeObject_iff {t : Obj} {text : List UInt8} (ht : ∀ v, t ≠ value v) (h : Plain t)
    (hshort : Short t) (hwrite : writeObject t = some text) (hsize : text.length < 2 ^ 32) :
    (∃ o, toObject text = .ok (some o) ∧ Same o t) ↔
      Ordered t ∧ tooDeep ∉ (nodes 1 t).dropLast := by
  rw [toObject_eq ht h hshort hwrite hsize]
  constructor
  · rintro ⟨o, hroot, hsame⟩
    injection hroot with hroot
    have hord := hsame.ordered (ordered_feed ht h hroot)
    refine ⟨hord, fun hlast => ?_⟩
    cases t with
    | value v => exact ht v rfl
    | array items => exact hord.1.elim
    | default props =>
      rw [toDoc, feed_object, Parser.feed_append, feed_end_root] at hroot
      obtain ⟨root, hroot', hcount, -⟩ := counts_toMembers hord.2 opens_init
      rw [hroot] at hroot'
      cases hroot'
      have hlt := reached_lt hlast
      have hreached : reached (nodes 1 (default props)) = reached (nodesProps 2 props) + 1 :=
        if_neg (by decide)
      have hlen := length_nodes (default props) 1
      have heq := hsame.count_eq
      change count o ≤ 1 + reached (nodesProps 2 props) at hcount
      omega
  · rintro ⟨hord, hlast⟩
    cases t with
    | value v => exact absurd rfl (ht v)
    | array items => exact hord.1.elim
    | default props =>
      have hready : Ready ⟨some (default []), some [], 0⟩ (default []) [] [] := ⟨opens_init, rfl⟩
      have hlast' : tooDeep ∉ (nodesProps 2 props).dropLast := by
        intro hmem
        refine hlast ?_
        rw [nodes, dropLast_cons_of_ne_nil (fun hnil => by rw [hnil] at hmem; cases hmem)]
        exact mem_cons_of_mem _ hmem
      have hbuilds := builds_toMembers (ordered_default.mp hord).1 hord.2 (plainProps h) hready
        (fun p hp => by cases hp) hlast'
      refine ⟨norm (default props), ?_, ?_⟩
      · rw [toDoc, feed_object, Parser.feed_append, feed_end_root, hbuilds.built, norm]
        rfl
      · exact norm_norm (default props)

/-- `{"a": {"b": -1, "c": "x"}, "d": true}`. -/
def sample : Obj :=
  default [(['a'], default [(['b'], value (.int8 (-1))), (['c'], value (.str (some ['x'])))]),
    (['d'], value (.bool true))]

theorem plain_sample : Plain sample :=
  ⟨⟨by decide, by decide⟩,
    ⟨⟨by decide, by decide⟩, trivial, ⟨by decide, by decide, by decide⟩, trivial⟩, trivial, trivial⟩

theorem toObject_writeObject_iff_sample :
    (∃ o, toObject [123, 105, 1, 97, 123, 105, 1, 98, 105, 255, 105, 1, 99, 83, 105, 1, 120, 125,
        105, 1, 100, 84, 125] = .ok (some o) ∧ Same o sample) ↔
      Ordered sample ∧ tooDeep ∉ (nodes 1 sample).dropLast :=
  toObject_writeObject_iff (fun v hv => by cases hv) plain_sample
    ⟨trivial, ⟨trivial, trivial, trivial, trivial⟩, trivial, trivial⟩ (by decide +kernel) (by decide)

/-- The array `[1]` of `{"a": [1]}` comes back as the object `{"0": 1}`. -/
theorem array_not_toObject_writeObject : ¬ ∀ (t : Obj) (text : List UInt8), (∀ v, t ≠ value v) →
    Plain t → writeObject t = some text → text.length < 2 ^ 32 →
    ∃ o, toObject text = .ok (some o) ∧ Same o t := by
  intro hall
  have hplain : Plain (default [(['a'], array [value (.int8 1)])]) :=
    ⟨⟨by decide, by decide⟩, ⟨by decide, trivial, trivial⟩, trivial⟩
  obtain ⟨o, ho, hsame⟩ := hall (default [(['a'], array [value (.int8 1)])])
    [123, 105, 1, 97, 123, 105, 1, 48, 105, 1, 125, 125] (fun v hv => by cases hv) hplain
    (by decide +kernel) (by decide)
  have hback : toObject [123, 105, 1, 97, 123, 105, 1, 48, 105, 1, 125, 125] =
    .ok (some (default [(['a'], default [(['0'], value (.int8 1))])])) := by rfl
  rw [hback] at ho
  cases ho
  cases hsame

end Obj

end Awtk.Ubjson
