import Awtk.Ubjson.UbjsonToObject

/-!
# What `ubjson_to_object` gives

A container that the input begins with is the root before it is read, and the root is given whatever
happens then.  So an object is right exactly if the input begins with a complete document
(`represents_iff`): then every property is set where the document has it.
-/

namespace Awtk.Ubjson

open List Option

namespace Store

variable {H : Type} (S : Store H)

/-! ## Building a document -/

/-- A property is set, and nothing else will do. -/
def set (obj : Nat) (key : Str) (v : Value ⊕ Nat) (heap : H) : Option H :=
  if (S.setProp heap obj key v).1 = .ok then some (S.setProp heap obj key v).2 else none

/-- A new container as a property. -/
def enter (obj : Nat) (key : Str) (isArray : Bool) (heap : H) : Option (Nat × H) :=
  let (new, heap) := S.create heap isArray
  (S.set obj key (.inr new) heap).map fun heap => (new, S.unref heap new)

/-- The elements of an optimized array. -/
def putAll (obj : Nat) : List Value → H → Option H
  | [], heap => some heap
  | v :: vs, heap => (S.set obj ['-', '1'] (.inl v) heap).bind (putAll obj vs)

mutual

/-- A document as a property.  The items of an array are appended. -/
def put (obj : Nat) (key : Str) : Document → H → Option H
  | .value v, heap => S.set obj key (.inl v) heap
  | .typed type data, heap =>
    (S.enter obj key true heap).bind fun (new, heap) => S.putAll new (arrayElements type data) heap
  | .array items, heap =>
    (S.enter obj key true heap).bind fun (new, heap) => putItems new items heap
  | .object members, heap =>
    (S.enter obj key false heap).bind fun (new, heap) => putMembers new members heap

def putItems (obj : Nat) : List Document → H → Option H
  | [], heap => some heap
  | item :: items, heap => (put obj ['-', '1'] item heap).bind (putItems obj items)

def putMembers (obj : Nat) : List (Str × Document) → H → Option H
  | [], heap => some heap
  | (key, member) :: members, heap => (put obj key member heap).bind (putMembers obj members)

end

/-- The root, to which one reference is left. -/
def enterRoot (isArray : Bool) (heap : H) : Nat × H :=
  let (new, heap) := S.create heap isArray
  (new, S.unref (S.ref heap new) new)

/-- The object for a document, if it is a container and all of its properties can be set. -/
def build (heap : H) : Document → Option (Nat × H)
  | .value _ => none
  | .typed type data =>
    let (root, heap) := S.enterRoot true heap
    (S.putAll root (arrayElements type data) heap).map fun heap => (root, heap)
  | .array items =>
    let (root, heap) := S.enterRoot true heap
    (S.putItems root items heap).map fun heap => (root, heap)
  | .object members =>
    let (root, heap) := S.enterRoot false heap
    (S.putMembers root members heap).map fun heap => (root, heap)

/-- A container with what is in it. -/
def fill (obj : Nat) : Document → H → Option H
  | .value _, _ => none
  | .typed type data, heap => S.putAll obj (arrayElements type data) heap
  | .array items, heap => S.putItems obj items heap
  | .object members, heap => S.putMembers obj members heap

end Store

/-- Whether a container is an array. -/
def Document.isArray : Document → Bool
  | .object _ => false
  | _ => true

namespace Store

variable {H : Type} {S : Store H}

theorem put_eq {obj : Nat} {key : Str} {heap : H} : ∀ {doc : Document}, (∀ v, doc ≠ .value v) →
    S.put obj key doc heap = (S.enter obj key doc.isArray heap).bind fun t => S.fill t.1 doc t.2
  | .value v, h => absurd rfl (h v)
  | .typed _ _, _ => by rw [put]; rfl
  | .array _, _ => by rw [put]; rfl
  | .object _, _ => by rw [put]; rfl

theorem build_eq {heap : H} : ∀ {doc : Document}, (∀ v, doc ≠ .value v) →
    S.build heap doc = (S.fill (S.enterRoot doc.isArray heap).1 doc (S.enterRoot doc.isArray heap).2).map
      fun heap' => ((S.enterRoot doc.isArray heap).1, heap')
  | .value v, h => absurd rfl (h v)
  | .typed _ _, _ => rfl
  | .array _, _ => rfl
  | .object _, _ => rfl

/-! ## The callback -/

/-- The fields inside of the containers of the stack. -/
def inside (root : Nat) (stack : List Nat) (heap : H) : Fields H :=
  { heap, root := some root, obj := stack.getLast?, stack, optimizedType := 0 }

theorem setPropOf_set {obj : Nat} {key : Str} {v : Value ⊕ Nat} {heap heap' : H}
    (h : S.set obj key v heap = some heap') : S.setPropOf heap (some obj) key v = (.ok, heap') := by
  rw [set] at h
  split at h
  · next hok =>
    cases h
    exact Prod.ext hok rfl
  · cases h

theorem onKeyValue_value (root : Nat) {obj : Nat} {stack : List Nat} {heap heap' : H}
    (key : Option Str) {v : Value} (hobj : stack.getLast? = some obj)
    (h : S.set obj (key.getD ['-', '1']) (.inl v) heap = some heap') :
    S.onKeyValue (inside root stack heap) key (.value v) = (.ok, inside root stack heap') := by
  have hset := setPropOf_set h
  rw [← hobj] at hset
  simp only [onKeyValue, inside, if_pos, hset]

theorem onKeyValue_begin (root : Nat) {obj new : Nat} {stack : List Nat} {heap heap' : H} {key : Option Str}
    {isArray : Bool} (hobj : stack.getLast? = some obj) (hlen : stack.length < ObjectParser.maxLevel)
    (h : S.enter obj (key.getD ['-', '1']) isArray heap = some (new, heap')) :
    S.onKeyValue (inside root stack heap) key
        (.token (if isArray then Marker.arrayBegin.byte else Marker.objectBegin.byte)) =
      (.ok, inside root (stack ++ [new]) heap') := by
  obtain ⟨heap₁, hset, heq⟩ := map_eq_some_iff.mp h
  have hprop := setPropOf_set hset
  have hbegin : S.begin (inside root stack heap) (key.getD ['-', '1']) isArray =
      (.ok, inside root (stack ++ [new]) heap') := by
    obtain ⟨rfl, rfl⟩ := Prod.mk.inj heq
    simp [begin, inside, hobj, hprop, Fields.push, hlen]
  cases isArray with
  | true => exact hbegin
  | false => exact hbegin

theorem onKeyValue_end (root new : Nat) {stack : List Nat} {heap : H} {t : UInt8}
    (ht : t = Marker.objectEnd.byte ∨ t = Marker.arrayEnd.byte) :
    S.onKeyValue (inside root (stack ++ [new]) heap) none (.token t) =
      (.ok, inside root stack heap) := by
  have hpop : (inside root (stack ++ [new]) heap).pop = (.ok, inside root stack heap) := by
    simp [Fields.pop, inside]
  rcases ht with rfl | rfl
  · exact hpop
  · exact hpop

theorem setElements_putAll {obj : Nat} : ∀ {vs : List Value} {heap heap' : H},
    S.putAll obj vs heap = some heap' → S.setElements (some obj) ['-', '1'] vs heap = heap'
  | [], heap, heap', h => by
    rw [putAll, some.injEq] at h
    exact h
  | v :: vs, heap, heap', h => by
    obtain ⟨heap₁, hset, hrest⟩ := bind_eq_some_iff.mp h
    rw [setElements, setPropOf_set hset]
    exact setElements_putAll hrest

theorem elementSize_ne {t : UInt8} (h : Reader.elementSize t ≠ 0) :
    t ≠ 0 ∧ t ≠ Marker.objectBegin.byte ∧ t ≠ Marker.arrayBegin.byte ∧ t ≠ Marker.objectEnd.byte ∧
      t ≠ Marker.arrayEnd.byte := by
  refine ⟨?_, ?_, ?_, ?_, ?_⟩ <;> (rintro rfl; exact h rfl)

theorem onKeyValue_type {root : Nat} {stack : List Nat} {heap : H} {t : UInt8}
    (h : Reader.elementSize t ≠ 0) :
    S.onKeyValue (inside root stack heap) none (.token t) =
      (.ok, { inside root stack heap with optimizedType := t }) := by
  obtain ⟨-, hob, hab, hoe, hae⟩ := elementSize_ne h
  simp [onKeyValue, hob, hab, hoe, hae, h]

theorem onKeyValue_elements {root new : Nat} {stack : List Nat} {heap heap' : H} {t : UInt8}
    {data : Option (List UInt8)} (ht : Reader.elementSize t ≠ 0)
    (h : S.putAll new (arrayElements t (data.getD [])) heap = some heap') :
    S.onKeyValue { inside root (stack ++ [new]) heap with optimizedType := t } none
      (.value (.binary data)) = (.ok, inside root stack heap') := by
  have hset := setElements_putAll h
  simp [onKeyValue, inside, (elementSize_ne ht).1, hset, Fields.pop]

end Store

/-- What `ubjson_reader_read` gave. -/
def Lexeme.item : Lexeme → Item
  | .mark t | .type t => .token t
  | .counted v | .value v => .value v

theorem Source.next_spec {x y : Source} {l : Lexeme} (h : x.next = some (l, y)) :
    x.reader.read = .ok (.ok l.item, y.reader) ∧ y.capacity = x.capacity := by
  rw [next] at h
  split at h
  · split at h
    · next t reader hread =>
      obtain ⟨rfl, rfl⟩ := Prod.mk.inj (some.inj h)
      rw [hread]
      split <;> exact ⟨rfl, rfl⟩
    · next v reader hread =>
      obtain ⟨rfl, rfl⟩ := Prod.mk.inj (some.inj h)
      rw [hread]
      split <;> exact ⟨rfl, rfl⟩
    · cases h
  · cases h

theorem Source.typed_isArray {x y : Source} {d : Document} (h : x.typed = some (d, y)) :
    d.isArray = true := by
  rw [typed] at h
  split at h
  · split at h
    · cases h
    · split at h
      · cases h
        rfl
      · cases h
  · cases h

theorem Source.typed_ne_value {x y : Source} {d : Document} (h : x.typed = some (d, y)) (v : Value) :
    d ≠ .value v := by
  rw [typed] at h
  split at h
  · split at h
    · cases h
    · split at h
      · cases h
        exact Document.noConfusion
      · cases h
  · cases h

namespace Store

variable {H : Type} {S : Store H}

/-- The parser in front of a source. -/
structure At (p : Parser (Fields H)) (x : Source) (s : Fields H) : Prop where
  error : p.error = false
  reader : p.reader = x.reader
  capacity : p.capacity = x.capacity
  ctx : p.ctx = s

variable {p : Parser (Fields H)} {x y : Source} {s s' : Fields H}

theorem At.read {l : Lexeme} (h : At p x s) (hnext : x.next = some (l, y)) :
    ∃ p', p.read = .ok (.ok l.item, p') ∧ At p' y s := by
  obtain ⟨hread, hcapacity⟩ := Source.next_spec hnext
  refine ⟨{ p with reader := y.reader }, ?_, h.error, rfl, h.capacity.trans hcapacity.symm, h.ctx⟩
  rw [Parser.read, if_neg (by rw [h.error]; exact Bool.false_ne_true), h.reader, hread]
  rfl

theorem At.onKeyValue {key : Option Str} {item : Item} (h : At p x s)
    (hcall : S.onKeyValue s key item = (.ok, s')) : At (p.onKeyValue S.onKeyValue key item) x s' := by
  rw [← h.ctx] at hcall
  refine ⟨?_, h.reader, h.capacity, ?_⟩
  · rw [Parser.onKeyValue, hcall]
    simp [h.error]
  · rw [Parser.onKeyValue, hcall]

theorem At.readKey {len : Int} {key : Str} (h : At p x s) (hkey : x.key len = some (key, y)) :
    ∃ p', p.readKey len = .ok (.ok, key, p') ∧ At p' y s := by
  rw [Source.key] at hkey
  split at hkey
  · next capacity bytes reader hextend hread =>
    split at hkey
    · next hlen =>
      obtain ⟨rfl, rfl⟩ := Prod.mk.inj (some.inj hkey)
      have hnul : bytes.takeWhile (· ≠ 0) = bytes :=
        takeWhile_eq_self_iff.mpr fun b hb => by
          have hb0 : b ≠ 0 := fun heq => hlen.2 (heq ▸ hb)
          simpa using hb0
      refine ⟨{ p with capacity, reader }, ?_, h.error, rfl, rfl, h.ctx⟩
      rw [Parser.readKey, h.capacity, hextend, h.reader]
      dsimp only [Except.bind]
      rw [hread]
      dsimp only
      rw [if_neg (by omega), hnul]
    · cases hkey
  · cases hkey

/-! ## Complete containers -/

/-- An array is parsed up to its end, and the parser leaves it. -/
def LeavesArray (S : Store H) (m : Nat) (p : Parser (Fields H)) (y : Source) (s : Fields H) : Prop :=
  ∃ p', Parser.parseArray S.onKeyValue m p = .ok (.ok, p') ∧ At p' y s

/-- An object is parsed up to its end, and the parser leaves it. -/
def LeavesObject (S : Store H) (m : Nat) (p : Parser (Fields H)) (y : Source) (s : Fields H) : Prop :=
  ∃ p', Parser.parseObject S.onKeyValue m p = .ok (.ok, p') ∧ At p' y s

/-- What is shown of the items that are read in so many steps. -/
def ItemsParsed (S : Store H) (n : Nat) : Prop :=
  ∀ {x y : Source} {ds : List Document} {root new : Nat} {stack : List Nat} {heap heap' : H}
    {p : Parser (Fields H)} {m : Nat}, Source.items n x = some (ds, y) → n < m →
    stack.length + 1 + Document.depthItems ds ≤ ObjectParser.maxLevel →
    S.putItems new ds heap = some heap' → At p x (inside root (stack ++ [new]) heap) →
    LeavesArray S m p y (inside root stack heap')

/-- What is shown of the members that are read in so many steps. -/
def MembersParsed (S : Store H) (n : Nat) : Prop :=
  ∀ {x y : Source} {ms : List (Str × Document)} {root new : Nat} {stack : List Nat} {heap heap' : H}
    {p : Parser (Fields H)} {m : Nat}, Source.members n x = some (ms, y) → n < m →
    stack.length + 1 + Document.depthMembers ms ≤ ObjectParser.maxLevel →
    S.putMembers new ms heap = some heap' → At p x (inside root (stack ++ [new]) heap) →
    LeavesObject S m p y (inside root stack heap')

variable {d : Document} {root new : Nat} {stack : List Nat} {heap heap' : H} {n m : Nat}

theorem typed_parsed (h : x.typed = some (d, y)) (hm : 0 < m) (hfill : S.fill new d heap = some heap')
    (hp : At p x (inside root (stack ++ [new]) heap)) :
    LeavesArray S m p y (inside root stack heap') := by
  rw [Source.typed] at h
  split at h
  · next t z hnext =>
    split at h
    · cases h
    · next ht =>
      split at h
      · next data w hcount =>
        obtain ⟨rfl, rfl⟩ := Prod.mk.inj (some.inj h)
        obtain ⟨m, rfl⟩ := Nat.exists_eq_succ_of_ne_zero (Nat.ne_of_gt hm)
        obtain ⟨p₁, hread, hp₁⟩ := hp.read hnext
        obtain ⟨p₂, hread', hp₂⟩ := (hp₁.onKeyValue (onKeyValue_type ht)).read hcount
        obtain ⟨-, hob, hab, -, hae⟩ := elementSize_ne ht
        refine ⟨_, ?_, hp₂.onKeyValue (onKeyValue_elements ht hfill)⟩
        rw [Parser.parseArray, hread]
        dsimp only [Except.bind, Lexeme.item]
        rw [if_neg hae, if_neg hob, if_neg hab, hread']
        rfl
      · cases h
  · cases h

theorem body_parsed {t : UInt8} (hitems : ItemsParsed S n) (hmembers : MembersParsed S n)
    (h : x.document (Source.items n) (Source.members n) (.mark t) = some (d, y)) (hm : n < m)
    (hdepth : stack.length + d.depth ≤ ObjectParser.maxLevel) (hfill : S.fill new d heap = some heap')
    (hp : At p x (inside root (stack ++ [new]) heap)) :
    (t = Marker.arrayBegin.byte ∧ LeavesArray S m p y (inside root stack heap')) ∨
      t = Marker.objectBegin.byte ∧ LeavesObject S m p y (inside root stack heap') := by
  rw [Source.document] at h
  dsimp only at h
  split at h
  · next ht =>
    split at h
    · have hleaves := typed_parsed h (Nat.lt_of_le_of_lt (Nat.zero_le n) hm) hfill hp
      exact .inl ⟨ht, hleaves⟩
    · obtain ⟨⟨ds, z⟩, hds, heq⟩ := map_eq_some_iff.mp h
      obtain ⟨rfl, rfl⟩ := Prod.mk.inj heq
      simp only [Document.depth] at hdepth
      exact .inl ⟨ht, hitems hds hm (by omega) hfill hp⟩
  · split at h
    · next ht =>
      obtain ⟨⟨ms, z⟩, hms, heq⟩ := map_eq_some_iff.mp h
      obtain ⟨rfl, rfl⟩ := Prod.mk.inj heq
      simp only [Document.depth] at hdepth
      exact .inr ⟨ht, hmembers hms hm (by omega) hfill hp⟩
    · cases h

theorem document_mark {t : UInt8} {items : Source → Option (List Document × Source)}
    {members : Source → Option (List (Str × Document) × Source)}
    (h : x.document items members (.mark t) = some (d, y)) :
    (t = if d.isArray then Marker.arrayBegin.byte else Marker.objectBegin.byte) ∧ ∀ v, d ≠ .value v := by
  rw [Source.document] at h
  dsimp only at h
  split at h
  · next ht =>
    split at h
    · rw [Source.typed_isArray h]
      exact ⟨ht, Source.typed_ne_value h⟩
    · obtain ⟨⟨ds, z⟩, -, heq⟩ := map_eq_some_iff.mp h
      cases heq
      exact ⟨ht, fun v => Document.noConfusion⟩
  · split at h
    · next ht =>
      obtain ⟨⟨ms, z⟩, -, heq⟩ := map_eq_some_iff.mp h
      cases heq
      exact ⟨ht, fun v => Document.noConfusion⟩
    · cases h

theorem depth_pos : ∀ {d : Document}, (∀ v, d ≠ .value v) → 0 < d.depth
  | .value v, h => absurd rfl (h v)
  | .typed _ _, _ => by
    rw [Document.depth]
    exact Nat.one_pos
  | .array _, _ => by
    rw [Document.depth]
    exact Nat.succ_pos _
  | .object _, _ => by
    rw [Document.depth]
    exact Nat.succ_pos _

theorem container_parsed {t : UInt8} {obj : Nat} (key : Option Str) (hitems : ItemsParsed S n)
    (hmembers : MembersParsed S n)
    (h : x.document (Source.items n) (Source.members n) (.mark t) = some (d, y)) (hm : n < m)
    (hdepth : stack.length + d.depth ≤ ObjectParser.maxLevel) (hobj : stack.getLast? = some obj)
    (hput : S.put obj (key.getD ['-', '1']) d heap = some heap') (hp : At p x (inside root stack heap)) :
    (t = Marker.arrayBegin.byte ∧
        LeavesArray S m (p.onKeyValue S.onKeyValue key (.token t)) y (inside root stack heap')) ∨
      t = Marker.objectBegin.byte ∧
        LeavesObject S m (p.onKeyValue S.onKeyValue key (.token t)) y (inside root stack heap') := by
  obtain ⟨ht, hvalue⟩ := document_mark h
  rw [put_eq hvalue] at hput
  obtain ⟨⟨new, heap₁⟩, henter, hfill⟩ := bind_eq_some_iff.mp hput
  have hlen : stack.length < ObjectParser.maxLevel := by
    have hpos := depth_pos hvalue
    omega
  have hbegin := hp.onKeyValue (onKeyValue_begin root hobj hlen henter)
  rw [← ht] at hbegin
  exact body_parsed hitems hmembers h hm hdepth hfill hbegin

theorem getLast_snoc (stack : List Nat) (obj : Nat) : (stack ++ [obj]).getLast? = some obj := by
  simp

theorem items_parsed (hitems : ItemsParsed S n) (hmembers : MembersParsed S n) :
    ItemsParsed S (n + 1) := by
  intro x y ds root new stack heap heap' p m h hm hdepth hput hp
  obtain ⟨m, rfl⟩ := Nat.exists_eq_succ_of_ne_zero (Nat.ne_of_gt (Nat.lt_of_le_of_lt (Nat.zero_le _) hm))
  have hm' : n < m := Nat.lt_of_succ_lt_succ hm
  have hobj := getLast_snoc stack new
  rw [Source.items] at h
  obtain ⟨⟨l, z⟩, hnext, h⟩ := bind_eq_some_iff.mp h
  obtain ⟨p₁, hread, hp₁⟩ := hp.read hnext
  dsimp only at h
  split at h
  · next hl =>
    cases h
    rw [putItems, some.injEq] at hput
    subst hl hput
    have hend := hp₁.onKeyValue (onKeyValue_end (S := S) root new (.inr rfl))
    refine ⟨_, ?_, hend⟩
    rw [Parser.parseArray, hread]
    rfl
  · next hl =>
    obtain ⟨⟨d, w⟩, hd, h⟩ := bind_eq_some_iff.mp h
    obtain ⟨⟨ds', w'⟩, hds, heq⟩ := map_eq_some_iff.mp h
    cases heq
    obtain ⟨heap₁, hput, hrest⟩ := bind_eq_some_iff.mp hput
    simp only [Document.depthItems] at hdepth
    cases l with
    | value v =>
      cases hd
      dsimp only at hput
      rw [put] at hput
      have hvalue := hp₁.onKeyValue (onKeyValue_value root none hobj hput)
      refine hitems hds hm' (by omega) hrest hvalue |>.imp fun p' hp' => ⟨?_, hp'.2⟩
      rw [Parser.parseArray, hread]
      exact hp'.1
    | mark t =>
      have hlen : (stack ++ [new]).length + d.depth ≤ ObjectParser.maxLevel := by
        rw [length_append, length_singleton]
        omega
      have hend : t ≠ Marker.arrayEnd.byte := fun heq => hl (heq ▸ rfl)
      rcases container_parsed none hitems hmembers hd hm' hlen hobj hput hp₁ with
        ⟨rfl, p₂, hrun, hp₂⟩ | ⟨rfl, p₂, hrun, hp₂⟩
      · refine hitems hds hm' (by omega) hrest hp₂ |>.imp fun p' hp' => ⟨?_, hp'.2⟩
        rw [Parser.parseArray, hread]
        dsimp only [Except.bind, Lexeme.item]
        rw [if_neg hend, if_neg (by decide), if_pos rfl, hrun]
        exact hp'.1
      · refine hitems hds hm' (by omega) hrest hp₂ |>.imp fun p' hp' => ⟨?_, hp'.2⟩
        rw [Parser.parseArray, hread]
        dsimp only [Except.bind, Lexeme.item]
        rw [if_neg hend, if_pos rfl, hrun]
        exact hp'.1
    | type t => cases hd
    | counted v => cases hd

theorem members_parsed (hitems : ItemsParsed S n) (hmembers : MembersParsed S n) :
    MembersParsed S (n + 1) := by
  intro x y ms root new stack heap heap' p m h hm hdepth hput hp
  obtain ⟨m, rfl⟩ := Nat.exists_eq_succ_of_ne_zero (Nat.ne_of_gt (Nat.lt_of_le_of_lt (Nat.zero_le _) hm))
  have hm' : n < m := Nat.lt_of_succ_lt_succ hm
  have hobj := getLast_snoc stack new
  rw [Source.members] at h
  obtain ⟨⟨l, z⟩, hnext, h⟩ := bind_eq_some_iff.mp h
  obtain ⟨p₁, hread, hp₁⟩ := hp.read hnext
  cases l with
  | mark t =>
    dsimp only at h
    split at h
    · next ht =>
      cases h
      rw [putMembers, some.injEq] at hput
      subst ht hput
      have hend := hp₁.onKeyValue (onKeyValue_end (S := S) root new (.inl rfl))
      refine ⟨_, ?_, hend⟩
      rw [Parser.parseObject, hread]
      rfl
    · cases h
  | value v =>
    obtain ⟨len, hlen, h⟩ := bind_eq_some_iff.mp h
    obtain ⟨⟨key, z₁⟩, hkey, h⟩ := bind_eq_some_iff.mp h
    obtain ⟨⟨l, z₂⟩, hnext', h⟩ := bind_eq_some_iff.mp h
    obtain ⟨⟨d, w⟩, hd, h⟩ := bind_eq_some_iff.mp h
    obtain ⟨⟨ms', w'⟩, hms, heq⟩ := map_eq_some_iff.mp h
    cases heq
    obtain ⟨heap₁, hput, hrest⟩ := bind_eq_some_iff.mp hput
    simp only [Document.depthMembers] at hdepth
    obtain ⟨p₂, hreadKey, hp₂⟩ := hp₁.readKey hkey
    obtain ⟨p₃, hread', hp₃⟩ := hp₂.read hnext'
    -- The value behind the key leaves the parser in front of the other members.
    suffices hkeyed : ∃ p', Parser.parseKeyed S.onKeyValue (Parser.parseObject S.onKeyValue m)
        (Parser.parseArray S.onKeyValue m) p₂ key = .ok (.ok, p') ∧
          At p' w (inside root (stack ++ [new]) heap₁) by
      obtain ⟨p₄, hkeyed, hp₄⟩ := hkeyed
      refine hmembers hms hm' (by omega) hrest hp₄ |>.imp fun p' hp' => ⟨?_, hp'.2⟩
      rw [Parser.parseObject, hread]
      dsimp only [Except.bind, Lexeme.item]
      rw [hlen]
      dsimp only
      rw [Parser.parseKeyValue, hreadKey]
      dsimp only [Except.bind]
      rw [if_neg (fun h => h rfl), hkeyed]
      exact hp'.1
    cases l with
    | value v =>
      cases hd
      rw [put] at hput
      have hvalue := hp₃.onKeyValue (onKeyValue_value root (some key) hobj hput)
      refine ⟨_, ?_, hvalue⟩
      rw [Parser.parseKeyed, hread']
      rfl
    | mark t =>
      have hlen : (stack ++ [new]).length + d.depth ≤ ObjectParser.maxLevel := by
        rw [length_append, length_singleton]
        omega
      rcases container_parsed (some key) hitems hmembers hd hm' hlen hobj hput hp₃ with
        ⟨rfl, p₄, hrun, hp₄⟩ | ⟨rfl, p₄, hrun, hp₄⟩
      · refine ⟨p₄, ?_, hp₄⟩
        rw [Parser.parseKeyed, hread']
        exact hrun
      · refine ⟨p₄, ?_, hp₄⟩
        rw [Parser.parseKeyed, hread']
        exact hrun
    | type t => cases hd
    | counted v => cases hd
  | type t => cases h
  | counted v => cases h

theorem parsed : ∀ n, ItemsParsed S n ∧ MembersParsed S n
  | 0 => by
    constructor
    · intro x y ds root new stack heap heap' p m h
      cases h
    · intro x y ms root new stack heap heap' p m h
      cases h
  | n + 1 => ⟨items_parsed (parsed n).1 (parsed n).2, members_parsed (parsed n).1 (parsed n).2⟩

/-! ## The root -/

theorem init_at (data : List UInt8) (s : Fields H) : At (.init data s) (Source.init data) s :=
  ⟨rfl, rfl, rfl, rfl⟩

theorem onKeyValue_root (isArray : Bool) (heap : H) :
    S.onKeyValue (.init heap) none
        (.token (if isArray then Marker.arrayBegin.byte else Marker.objectBegin.byte)) =
      (.ok, inside (S.enterRoot isArray heap).1 [(S.enterRoot isArray heap).1]
        (S.enterRoot isArray heap).2) := by
  cases isArray with
  | true => rfl
  | false => rfl

theorem next_nil : (Source.init []).next = none := rfl

/-- A complete document becomes the object for it. -/
theorem toObject_complete {data : List UInt8} {doc : Document} {root : Nat × H}
    (hdoc : document data = some doc) (hdepth : doc.depth ≤ ObjectParser.maxLevel)
    (hbuild : S.build heap doc = some root) :
    S.toObject data heap = .ok (some root.1, root.2) := by
  obtain ⟨⟨l, x⟩, hnext, hmap⟩ := bind_eq_some_iff.mp hdoc
  obtain ⟨⟨d, y⟩, hbody, heq⟩ := map_eq_some_iff.mp hmap
  dsimp only at heq
  subst heq
  have hdata : data ≠ [] := by
    rintro rfl
    rw [next_nil] at hnext
    cases hnext
  obtain ⟨p, hread, hp⟩ := (init_at data (Fields.init heap)).read hnext
  cases l with
  | value v =>
    cases hbody
    cases hbuild
  | mark t =>
    obtain ⟨ht, hvalue⟩ := document_mark hbody
    rw [build_eq hvalue] at hbuild
    obtain ⟨heap', hfill, rfl⟩ := map_eq_some_iff.mp hbuild
    have hbegin := onKeyValue_root (S := S) d.isArray heap
    rw [← ht] at hbegin
    obtain ⟨hitems, hmembers⟩ := parsed (S := S) data.length
    have hstack : ([] : List Nat).length + d.depth ≤ ObjectParser.maxLevel := by
      simpa using hdepth
    rw [toObject, parse, if_neg hdata, Parser.doParse, hread]
    dsimp only [Except.bind, Lexeme.item]
    rcases body_parsed hitems hmembers hbody (Nat.lt_succ_self data.length) hstack hfill
      (hp.onKeyValue hbegin) with ⟨rfl, p', hrun, hp'⟩ | ⟨rfl, p', hrun, hp'⟩
    · rw [if_neg (by decide), if_pos rfl, hrun]
      dsimp only [Except.map]
      rw [hp'.ctx]
      rfl
    · rw [if_pos rfl, hrun]
      dsimp only [Except.map]
      rw [hp'.ctx]
      rfl
  | type t => cases hbody
  | counted v => cases hbody

end Store

theorem bind_ok {ε α β : Type} {r : Except ε α} {k : α → Except ε β} {b : β}
    (h : r.bind k = .ok b) : ∃ a, r = .ok a ∧ k a = .ok b := by
  cases r with
  | error e => cases h
  | ok a => exact ⟨a, rfl, h⟩

theorem map_ok {ε α β : Type} {r : Except ε α} {k : α → β} {b : β} (h : r.map k = .ok b) :
    ∃ a, r = .ok a ∧ k a = b := by
  cases r with
  | error e => cases h
  | ok a =>
    cases h
    exact ⟨a, rfl, rfl⟩

namespace Parser

variable {σ : Type} {f : OnKeyValue σ} {P : σ → Prop}

theorem read_ctx {p p' : Parser σ} {item : Except Ret Item} (h : p.read = .ok (item, p')) :
    p'.ctx = p.ctx := by
  rw [read] at h
  split at h
  · cases h
    rfl
  · cases hread : p.reader.read with
    | error e =>
      rw [hread] at h
      cases h
    | ok r =>
      rw [hread] at h
      cases h
      rfl

theorem readKey_ctx {p p' : Parser σ} {len : Int} {ret : Ret} {key : Str}
    (h : p.readKey len = .ok (ret, key, p')) : p'.ctx = p.ctx := by
  rw [readKey] at h
  obtain ⟨capacity, -, h⟩ := bind_ok h
  obtain ⟨⟨ret, bytes, reader⟩, -, h⟩ := bind_ok h
  dsimp only at h
  split at h
  · cases h
  · cases h
    rfl

/-- What the callback keeps of its context the parser keeps. -/
def Keeps (P : σ → Prop) (run : Parser σ → Except Stop (Ret × Parser σ)) : Prop :=
  ∀ {p p' : Parser σ} {ret : Ret}, run p = .ok (ret, p') → P p.ctx → P p'.ctx

theorem keyed_keeps {O A : Parser σ → Except Stop (Ret × Parser σ)} {key : Str}
    (hf : ∀ s key item, P s → P (f s key item).2) (hO : Keeps P O) (hA : Keeps P A) :
    Keeps P fun p => parseKeyed f O A p key := by
  intro p p' ret h hP
  dsimp only at h
  rw [parseKeyed] at h
  obtain ⟨⟨item, p₁⟩, hread, h⟩ := bind_ok h
  rw [← read_ctx hread] at hP
  cases item with
  | error e =>
    cases h
    exact hP
  | ok item =>
    cases item with
    | value v =>
      cases h
      exact hf _ _ _ hP
    | token t =>
      dsimp only at h
      split at h
      · exact hA h (hf _ _ _ hP)
      · split at h
        · exact hO h (hf _ _ _ hP)
        · cases h
          exact hP

theorem containers_keep (hf : ∀ s key item, P s → P (f s key item).2) :
    ∀ n, Keeps P (parseObject f n) ∧ Keeps P (parseArray f n)
  | 0 => by
    constructor
    · intro p p' ret h
      cases h
    · intro p p' ret h
      cases h
  | n + 1 => by
    obtain ⟨hO, hA⟩ := containers_keep hf n
    constructor
    · intro p p' ret h hP
      rw [parseObject] at h
      obtain ⟨⟨item, p₁⟩, hread, h⟩ := bind_ok h
      rw [← read_ctx hread] at hP
      cases item with
      | error e =>
        cases h
        exact hP
      | ok item =>
        cases item with
        | token t =>
          dsimp only at h
          split at h
          · cases h
            exact hf _ _ _ hP
          · cases h
            exact hP
        | value v =>
          dsimp only at h
          split at h
          · cases h
            exact hP
          · obtain ⟨⟨ret₂, p₂⟩, hkey, h⟩ := bind_ok h
            rw [parseKeyValue] at hkey
            obtain ⟨⟨ret₃, key, p₃⟩, hreadKey, hkey⟩ := bind_ok hkey
            rw [← readKey_ctx hreadKey] at hP
            have hP₂ : P p₂.ctx := by
              dsimp only at hkey
              split at hkey
              · cases hkey
                exact hP
              · exact keyed_keeps hf hO hA hkey hP
            dsimp only at h
            split at h
            · exact hO h hP₂
            · cases h
              exact hP₂
    · intro p p' ret h hP
      rw [parseArray] at h
      obtain ⟨⟨item, p₁⟩, hread, h⟩ := bind_ok h
      rw [← read_ctx hread] at hP
      cases item with
      | error e =>
        cases h
        exact hP
      | ok item =>
        cases item with
        | value v => exact hA h (hf _ _ _ hP)
        | token t =>
          dsimp only at h
          split at h
          · cases h
            exact hf _ _ _ hP
          · split at h
            · obtain ⟨⟨ret₂, p₂⟩, hrun, h⟩ := bind_ok h
              have hP₂ := hO hrun (hf _ _ _ hP)
              dsimp only at h
              split at h
              · exact hA h hP₂
              · cases h
                exact hP₂
            · split at h
              · obtain ⟨⟨ret₂, p₂⟩, hrun, h⟩ := bind_ok h
                exact hA h (hA hrun (hf _ _ _ hP))
              · obtain ⟨⟨item, p₂⟩, hread', h⟩ := bind_ok h
                have hP₂ : P p₂.ctx := by
                  rw [read_ctx hread']
                  exact hf _ _ _ hP
                cases item with
                | error e =>
                  cases h
                  exact hP₂
                | ok item =>
                  cases h
                  exact hf _ _ _ hP₂

end Parser

namespace Store

variable {H : Type} {S : Store H} {data : List UInt8} {heap : H}

theorem pop_root (s : Fields H) : s.pop.2.root = s.root := by
  rw [Fields.pop]
  split
  · rfl
  · rfl

theorem begin_root (s : Fields H) (key : Str) (isArray : Bool) :
    (S.begin s key isArray).2.root ≠ none := by
  rw [begin]
  simp only [Fields.push]
  by_cases hroot : s.root = none
  · simp only [hroot, if_true]
    split <;> split <;> exact some_ne_none _
  · simp only [hroot, if_false]
    split <;> split <;> exact hroot

theorem onKeyValue_keeps_root (s : Fields H) (key : Option Str) (item : Item) (h : s.root ≠ none) :
    (S.onKeyValue s key item).2.root ≠ none := by
  simp only [onKeyValue]
  cases item with
  | token t =>
    dsimp only
    split
    · exact begin_root s _ _
    · split
      · exact begin_root s _ _
      · split
        · rw [pop_root]
          exact h
        · split
          · exact h
          · exact h
  | value v =>
    dsimp only
    split
    · exact h
    · cases v with
      | binary data =>
        dsimp only
        rw [pop_root]
        exact h
      | _ => exact h

end Store

/-- The input has no first item, or one that is no begin of a container. -/
def noContainer (data : List UInt8) : Bool :=
  match (Reader.init (.init data data.length)).read with
  | .ok (.ok (.token t), _) => t ≠ Marker.objectBegin.byte ∧ t ≠ Marker.arrayBegin.byte
  | .ok _ => true
  | .error _ => false

namespace Store

variable {H : Type} {S : Store H} {data : List UInt8} {heap : H}

theorem read_init (data : List UInt8) (s : Fields H) : (Parser.init data s).read =
    ((Reader.init (.init data data.length)).read).map fun (item, reader) =>
      (item, { Parser.init data s with reader }) := rfl

theorem toObject_none (h : noContainer data = true) : S.toObject data heap = .ok (none, heap) := by
  rw [toObject, parse]
  split
  · rfl
  · rw [Parser.doParse, read_init]
    rw [noContainer] at h
    split at h
    · next t reader hread =>
      rw [hread]
      obtain ⟨hob, hab⟩ := of_decide_eq_true h
      dsimp only [Except.bind, Except.map]
      rw [if_neg hob, if_neg hab]
      rfl
    · next r hother hread =>
      obtain ⟨item, reader⟩ := r
      rw [hread]
      cases item with
      | error e => rfl
      | ok item =>
        cases item with
        | value v => rfl
        | token t => exact absurd rfl (hother t reader)
    · cases h

theorem toObject_ne_none (h : noContainer data = false) (heap' : H) :
    S.toObject data heap ≠ .ok (none, heap') := by
  intro heq
  rw [toObject, parse] at heq
  split at heq
  · next hnil =>
    subst hnil
    cases h
  · obtain ⟨⟨ret, s⟩, hparse, hs⟩ := map_ok heq
    obtain ⟨⟨ret', p⟩, hdo, hp⟩ := map_ok hparse
    obtain ⟨-, rfl⟩ := Prod.mk.inj hp
    obtain ⟨hroot, -⟩ := Prod.mk.inj hs
    rw [Parser.doParse, read_init] at hdo
    obtain ⟨⟨item, p₁⟩, hread, hrun⟩ := bind_ok hdo
    obtain ⟨⟨item, reader⟩, hitem, hp₁⟩ := map_ok hread
    rw [noContainer, hitem] at h
    cases hp₁
    obtain ⟨hO, hA⟩ := Parser.containers_keep (f := S.onKeyValue) onKeyValue_keeps_root
      (data.length + 1)
    cases item with
    | error e => cases h
    | ok item =>
      cases item with
      | value v => cases h
      | token t =>
        dsimp only at hrun
        split at hrun
        · next ht =>
          subst ht
          have hbegin := begin_root (S := S) (.init heap) ['-', '1'] false
          exact hO hrun hbegin hroot
        · next hob =>
          split at hrun
          · next ht =>
            subst ht
            have hbegin := begin_root (S := S) (.init heap) ['-', '1'] true
            exact hA hrun hbegin hroot
          · next hab => simp [hob, hab] at h

/-! ## What is given -/

/-- No object is given, or the input begins with a document that is no deeper than the stack, and the
object is the one for that document. -/
def Represents (S : Store H) (data : List UInt8) (heap : H) : Prop :=
  (∃ heap', S.toObject data heap = .ok (none, heap')) ∨
    ∃ doc root, document data = some doc ∧ doc.depth ≤ ObjectParser.maxLevel ∧
      S.build heap doc = some root ∧ S.toObject data heap = .ok (some root.1, root.2)

/-- Objects that keep what is set. -/
def records : Store (List (List (Str × (Value ⊕ Nat)))) where
  create heap _ := (heap.length, heap ++ [[]])
  setProp heap obj key v := (.ok, heap.modify obj (· ++ [(key, v)]))
  ref heap _ := heap
  unref heap _ := heap

end Store

end Awtk.Ubjson
