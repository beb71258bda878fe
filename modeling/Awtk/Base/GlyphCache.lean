import Mathlib
import Awtk.Lib.Recency
import Awtk.Lib.Run
import Awtk.Tkc.Types

/-!
# The glyph cache

`GlyphCache` is `glyph_cache_t`.  `items` has the slots that are in use, so its
length is `size`, and there is no array after `glyph_cache_deinit`.  A glyph is
known by its pointer, and a call tells which glyphs it destroys.  The clock is
read when a glyph is added or found, so such a call has the time it reads.

The cache is compared with a list of the same items, the one added last first.
There the most recent items are those of `Recency`.  `results_recent` says when
the two agree.  The code goes wrong in two places.  `glyph_cache_lookup` takes
the first slot with a key, which is not the glyph added last if there are two.
The comparison of `glyph_cache_shrink` cuts a difference of two times to an
`int`, so it is wrong for times that are `2 ^ 31` apart.
-/

namespace Awtk

open Runs Recency Option

/-- `glyph_cache_item_t`. -/
structure GlyphCacheItem (γ : Type*) where
  lastAccessTime : UInt64
  size : UInt16
  code : UInt32
  g : γ
  deriving DecidableEq

/-- The time of the last access as a number. -/
def GlyphCacheItem.time {γ : Type*} (item : GlyphCacheItem γ) : Nat := item.lastAccessTime.toNat

/-- `glyph_cache_t`. -/
structure GlyphCache (γ : Type*) where
  items : Option (List (GlyphCacheItem γ))
  capacity : Nat
  /-- Whether there is a `destroy_glyph`. -/
  destroyGlyph : Bool

/-- What the C standard says about `qsort`: where the comparison orders the elements, the result has
the same elements in this order. -/
structure Qsort (α : Type*) where
  sort : (α → α → Int) → List α → List α
  perm : ∀ (f : α → Int) (cmp : α → α → Int) (l : List α),
    (∀ a ∈ l, ∀ b ∈ l, (cmp a b < 0 ↔ f a < f b) ∧ (cmp a b = 0 ↔ f a = f b)) →
      (sort cmp l).Perm l
  sorted : ∀ (f : α → Int) (cmp : α → α → Int) (l : List α),
    (∀ a ∈ l, ∀ b ∈ l, (cmp a b < 0 ↔ f a < f b) ∧ (cmp a b = 0 ↔ f a = f b)) →
      (sort cmp l).Pairwise fun a b => f a ≤ f b

namespace GlyphCache

variable {γ : Type*}

/-- What a call returns, and which glyphs it destroys. -/
structure Outcome (γ : Type*) where
  ret : Ret
  /-- The glyph that was found. -/
  found : Option γ
  destroyed : Multiset γ

/-- A call, with the time it reads if it reads the clock. -/
inductive Op (γ : Type*) where
  | add (code : UInt32) (size : UInt16) (g : γ) (now : UInt64)
  | lookup (code : UInt32) (size : UInt16) (now : UInt64)
  | shrink (cacheSize : UInt32)
  | deinit

/-! ## The operations -/

def init (γ : Type*) (capacity : UInt32) (destroyGlyph : Bool) : Option (GlyphCache γ) :=
  if 0 < capacity.toNat then some ⟨some [], capacity.toNat, destroyGlyph⟩ else none

/-- `GLYPH_CACHE_FREE_ITEM` at some items: the glyphs that are destroyed. -/
def freeItems (destroyGlyph : Bool) (items : List (GlyphCacheItem γ)) : Multiset γ :=
  if destroyGlyph then (items.map GlyphCacheItem.g : List γ) else 0

/-- The loop of `glyph_cache_get_empty` over the slots from `i` on. -/
def oldestLoop : List (GlyphCacheItem γ) → Nat → Nat → UInt64 → Nat
  | [], _, oldest, _ => oldest
  | item :: items, i, oldest, oldestTime =>
    if item.lastAccessTime < oldestTime then
      if item.lastAccessTime = 0 then i else oldestLoop items (i + 1) i item.lastAccessTime
    else oldestLoop items (i + 1) oldest oldestTime

/-- The slot `glyph_cache_get_empty` empties in a full cache. -/
def oldestSlot (items : List (GlyphCacheItem γ)) : Nat := oldestLoop items 0 0 0xffffffffffffffff

/-- `glyph_cache_add`, with `glyph_cache_get_empty`. -/
def add (cache : GlyphCache γ) (code : UInt32) (size : UInt16) (g : γ) (now : UInt64) :
    Outcome γ × GlyphCache γ :=
  match cache.items with
  | none => (⟨.badParams, none, 0⟩, cache)
  | some items =>
    let item : GlyphCacheItem γ := ⟨now, size, code, g⟩
    if items.length < cache.capacity then
      (⟨.ok, none, 0⟩, { cache with items := some (items ++ [item]) })
    else
      (⟨.ok, none, freeItems cache.destroyGlyph items[oldestSlot items]?.toList⟩,
        { cache with items := some (items.set (oldestSlot items) item) })

/-- The item is stored under the key. -/
def Matches (code : UInt32) (size : UInt16) (item : GlyphCacheItem γ) : Prop :=
  item.code = code ∧ item.size = size

instance (code : UInt32) (size : UInt16) (item : GlyphCacheItem γ) :
    Decidable (Matches code size item) := inferInstanceAs (Decidable (_ ∧ _))

/-- The first item of the key gets a new time. -/
def touch (code : UInt32) (size : UInt16) (now : UInt64) :
    List (GlyphCacheItem γ) → List (GlyphCacheItem γ)
  | [] => []
  | item :: items =>
    if Matches code size item then { item with lastAccessTime := now } :: items
    else item :: touch code size now items

def lookup (cache : GlyphCache γ) (code : UInt32) (size : UInt16) (now : UInt64) :
    Outcome γ × GlyphCache γ :=
  match cache.items.bind fun items => items.find? fun item => Matches code size item with
  | some item =>
    (⟨.ok, some item.g, 0⟩, { cache with items := cache.items.map (touch code size now) })
  | none => (⟨.notFound, none, 0⟩, cache)

/-- `glyph_cache_item_compare_by_time`.  A difference of `uint64_t` is cut to an `int`. -/
def compareByTime (a b : GlyphCacheItem γ) : Int :=
  I32.ofU32 ((b.lastAccessTime - a.lastAccessTime).toNat % 2 ^ 32)

def shrink (q : Qsort (GlyphCacheItem γ)) (cache : GlyphCache γ) (cacheSize : Nat) :
    Outcome γ × GlyphCache γ :=
  match cache.items with
  | none => (⟨.badParams, none, 0⟩, cache)
  | some items =>
    if cacheSize < items.length then
      let items := q.sort compareByTime items
      (⟨.ok, none, freeItems cache.destroyGlyph (items.drop cacheSize)⟩,
        { cache with items := some (items.take cacheSize) })
    else (⟨.ok, none, 0⟩, cache)

def deinit (cache : GlyphCache γ) : Outcome γ × GlyphCache γ :=
  (⟨.ok, none, freeItems cache.destroyGlyph (cache.items.getD [])⟩, ⟨none, 0, false⟩)

/-- What a call does. -/
def call (q : Qsort (GlyphCacheItem γ)) (cache : GlyphCache γ) :
    Op γ → Outcome γ × GlyphCache γ
  | .add code size g now => cache.add code size g now
  | .lookup code size now => cache.lookup code size now
  | .shrink cacheSize => cache.shrink q cacheSize.toNat
  | .deinit => cache.deinit

end GlyphCache

/-! ## The cache it stands for -/

namespace RecentGlyphs

open GlyphCache

variable {γ : Type*}

/-- A call on the items that are cached, the one added last first.  A glyph that is added to a full
cache takes the place of the one that was used least recently, and a cache that shrinks keeps the
ones that were used most recently. -/
def call (capacity : Nat) (destroyGlyph : Bool) :
    Option (List (GlyphCacheItem γ)) → Op γ → GlyphCache.Outcome γ × Option (List (GlyphCacheItem γ))
  | none, .add .. => (⟨.badParams, none, 0⟩, none)
  | none, .lookup .. => (⟨.notFound, none, 0⟩, none)
  | none, .shrink _ => (⟨.badParams, none, 0⟩, none)
  | none, .deinit => (⟨.ok, none, 0⟩, none)
  | some l, .add code size g now =>
    (⟨.ok, none, freeItems destroyGlyph (oldest GlyphCacheItem.time (capacity - 1) l)⟩,
      some (⟨now, size, code, g⟩ :: newest GlyphCacheItem.time (capacity - 1) l))
  | some l, .lookup code size now =>
    match l.find? fun item => Matches code size item with
    | some item => (⟨.ok, some item.g, 0⟩, some (touch code size now l))
    | none => (⟨.notFound, none, 0⟩, some l)
  | some l, .shrink cacheSize =>
    (⟨.ok, none, freeItems destroyGlyph (oldest GlyphCacheItem.time cacheSize.toNat l)⟩,
      some (newest GlyphCacheItem.time cacheSize.toNat l))
  | some l, .deinit => (⟨.ok, none, freeItems destroyGlyph l⟩, none)

end RecentGlyphs

namespace GlyphCache

variable {γ : Type*} {items l : List (GlyphCacheItem γ)}

/-! ## The slot that is emptied -/

/-- The loop has seen the slots `seen`, and `oldest` is the one with the least time, or it is the
first one as long as no time was less than the greatest there is. -/
theorem oldestLoop_spec (items : List (GlyphCacheItem γ)) :
    ∀ (seen : List (GlyphCacheItem γ)) (oldest : Nat) (t : UInt64),
      (∀ a ∈ seen, t.toNat ≤ a.time) →
      (((seen ++ items)[oldest]?.map GlyphCacheItem.lastAccessTime) = some t ∨
        oldest = 0 ∧ t = 0xffffffffffffffff) → seen ++ items ≠ [] →
      ∃ item, (seen ++ items)[oldestLoop items seen.length oldest t]? = some item ∧
        ∀ a ∈ seen ++ items, item.time ≤ a.time := by
  induction items with
  | nil =>
    intro seen oldest t hle hold hne
    rw [List.append_nil] at hold hne ⊢
    obtain hold | ⟨rfl, rfl⟩ := hold
    · obtain ⟨item, hat, rfl⟩ := map_eq_some_iff.mp hold
      exact ⟨item, hat, hle⟩
    · obtain ⟨item, rest, rfl⟩ := List.exists_cons_of_ne_nil hne
      refine ⟨item, rfl, fun a ha => le_trans ?_ (hle a ha)⟩
      exact Nat.le_of_lt_succ item.lastAccessTime.toNat_lt
  | cons b items ih =>
    intro seen oldest t hle hold hne
    have hat : (seen ++ b :: items)[seen.length]? = some b := by simp
    rw [List.append_cons] at hold hne hat ⊢
    rw [oldestLoop]
    have hnext (oldest : Nat) (t : UInt64) := ih (seen ++ [b]) oldest t
    rw [List.length_append, List.length_singleton] at hnext
    split_ifs with hlt hzero
    · refine ⟨b, hat, fun a _ => ?_⟩
      rw [GlyphCacheItem.time, hzero]
      exact Nat.zero_le _
    · refine hnext _ _ (fun a ha => ?_) (.inl (by rw [hat, map_some])) hne
      rcases List.mem_append.mp ha with ha | ha
      · exact (UInt64.lt_iff_toNat_lt.mp hlt).le.trans (hle a ha)
      · rw [List.mem_singleton.mp ha]
        exact le_refl _
    · refine hnext _ _ (fun a ha => ?_) hold hne
      rcases List.mem_append.mp ha with ha | ha
      · exact hle a ha
      · rw [List.mem_singleton.mp ha]
        exact Nat.not_lt.mp fun h => hlt (UInt64.lt_iff_toNat_lt.mpr h)

theorem oldestSlot_spec (hne : items ≠ []) : ∃ as item bs, items = as ++ item :: bs ∧
    as.length = oldestSlot items ∧ ∀ a ∈ items, item.time ≤ a.time := by
  obtain ⟨item, hat, hle⟩ := oldestLoop_spec items [] 0 0xffffffffffffffff
    (fun a ha => nomatch ha) (.inr ⟨rfl, rfl⟩) hne
  obtain ⟨hlt, hget⟩ := List.getElem?_eq_some_iff.mp hat
  refine ⟨items.take (oldestSlot items), item, items.drop (oldestSlot items + 1), ?_, ?_, hle⟩
  · rw [← hget]
    exact ((List.take_append_drop _ _).symm.trans
      (congrArg _ (List.drop_eq_getElem_cons hlt)))
  · rw [List.length_take]
    exact Nat.min_eq_left hlt.le

/-! ## The order of the times -/

/-- Times that are less than `2 ^ 31` apart. -/
def Close (l : List (GlyphCacheItem γ)) : Prop :=
  ∀ a ∈ l, ∀ b ∈ l, b.time < a.time + 2 ^ 31

instance (l : List (GlyphCacheItem γ)) : Decidable (Close l) :=
  inferInstanceAs (Decidable (∀ _ ∈ _, ∀ _ ∈ _, _))

theorem compareByTime_eq {a b : GlyphCacheItem γ} (hab : b.time < a.time + 2 ^ 31)
    (hba : a.time < b.time + 2 ^ 31) : compareByTime a b = b.time - a.time := by
  have ha := a.lastAccessTime.toNat_lt
  have hb := b.lastAccessTime.toNat_lt
  rw [compareByTime, UInt64.toNat_sub, I32.ofU32]
  unfold GlyphCacheItem.time at hab hba ⊢
  split_ifs <;> omega

theorem sort_spec (q : Qsort (GlyphCacheItem γ)) (hclose : Close items)
    (hnodup : (items.map GlyphCacheItem.time).Nodup) :
    (q.sort compareByTime items).Perm items ∧
      (q.sort compareByTime items).Pairwise fun a b => b.time < a.time := by
  have hcmp : ∀ a ∈ items, ∀ b ∈ items,
      (compareByTime a b < 0 ↔ -(a.time : Int) < -(b.time : Int)) ∧
      (compareByTime a b = 0 ↔ -(a.time : Int) = -(b.time : Int)) := by
    intro a ha b hb
    rw [compareByTime_eq (hclose a ha b hb) (hclose b hb a ha)]
    omega
  have hperm := q.perm _ compareByTime items hcmp
  have hsorted := q.sorted _ compareByTime items hcmp
  refine ⟨hperm, ?_⟩
  have hne := List.pairwise_map.mp ((hperm.map _).nodup_iff.mpr hnodup)
  refine (hsorted.and hne).imp fun {a b} hab => ?_
  have hdiff : a.time ≠ b.time := hab.2
  omega

/-! ## The first item of a key -/

theorem touch_append {code : UInt32} {size : UInt16} {now : UInt64}
    {as bs : List (GlyphCacheItem γ)} {item : GlyphCacheItem γ} (has : ∀ a ∈ as, ¬ Matches code size a)
    (hitem : Matches code size item) :
    touch code size now (as ++ item :: bs) = as ++ { item with lastAccessTime := now } :: bs := by
  induction as with
  | nil => exact if_pos hitem
  | cons a as ih =>
    rw [List.cons_append, touch, if_neg (has a List.mem_cons_self),
      ih fun b hb => has b (List.mem_cons_of_mem a hb), List.cons_append]

theorem find_split {code : UInt32} {size : UInt16} {item : GlyphCacheItem γ}
    (h : l.find? (fun item => Matches code size item) = some item) :
    ∃ as bs, l = as ++ item :: bs ∧ Matches code size item ∧ ∀ a ∈ as, ¬ Matches code size a := by
  obtain ⟨hitem, as, bs, rfl, has⟩ := List.find?_eq_some_iff_append.mp h
  exact ⟨as, bs, rfl, of_decide_eq_true hitem, fun a ha => by simpa using has a ha⟩

theorem find_perm {p : GlyphCacheItem γ → Bool} (h : items.Perm l)
    (hone : (l.filter p).length ≤ 1) : items.find? p = l.find? p := by
  rw [← List.head?_filter, ← List.head?_filter]
  have hf := h.filter p
  match hl : l.filter p with
  | [] => rw [hl] at hf; rw [hf.eq_nil]
  | [a] => rw [hl] at hf; rw [List.perm_singleton.mp hf]
  | _ :: _ :: _ => rw [hl] at hone; simp at hone

theorem touch_perm {code : UInt32} {size : UInt16} {now : UInt64} {item : GlyphCacheItem γ}
    (h : items.Perm l) (hitems : items.find? (fun item => Matches code size item) = some item)
    (hl : l.find? (fun item => Matches code size item) = some item) :
    (touch code size now items).Perm (touch code size now l) := by
  obtain ⟨as, bs, rfl, hitem, has⟩ := find_split hitems
  obtain ⟨cs, ds, rfl, -, hcs⟩ := find_split hl
  rw [touch_append has hitem, touch_append hcs hitem]
  have hrest : (as ++ bs).Perm (cs ++ ds) :=
    ((List.perm_middle.symm.trans h).trans List.perm_middle).cons_inv
  exact List.perm_middle.trans ((hrest.cons _).trans List.perm_middle.symm)

/-! ## One call -/

/-- The cache has the items `s`, in any order. -/
inductive Shows (capacity : Nat) (destroyGlyph : Bool) :
    GlyphCache γ → Option (List (GlyphCacheItem γ)) → Prop where
  | alive {items l : List (GlyphCacheItem γ)} (perm : items.Perm l) (room : l.length ≤ capacity)
      (nodup : (l.map GlyphCacheItem.time).Nodup) :
      Shows capacity destroyGlyph ⟨some items, capacity, destroyGlyph⟩ (some l)
  | gone (c : Nat) (d : Bool) : Shows capacity destroyGlyph ⟨none, c, d⟩ none

/-- The clock has a later time than all the items. -/
def Later (l : List (GlyphCacheItem γ)) (now : UInt64) : Prop :=
  ∀ item ∈ l, item.time < now.toNat

instance (l : List (GlyphCacheItem γ)) (now : UInt64) : Decidable (Later l now) :=
  inferInstanceAs (Decidable (∀ _ ∈ _, _))

/-- The clock does not go back, and two accesses have different times. -/
def Ticks : Option (List (GlyphCacheItem γ)) → Op γ → Prop
  | some l, .add _ _ _ now => Later l now
  | some l, .lookup code size now => (∃ item ∈ l, Matches code size item) → Later l now
  | _, _ => True

/-- At most one glyph has the key that is looked up, and the times are close where some of them are
compared. -/
def Fits : Option (List (GlyphCacheItem γ)) → Op γ → Prop
  | some l, .lookup code size _ => (l.filter fun item => Matches code size item).length ≤ 1
  | some l, .shrink cacheSize => cacheSize.toNat < l.length → Close l
  | _, _ => True

instance : (s : Option (List (GlyphCacheItem γ))) → (a : Op γ) → Decidable (Ticks s a ∧ Fits s a)
  | some l, .add _ _ _ now => inferInstanceAs (Decidable (Later l now ∧ True))
  | some l, .lookup code size now => inferInstanceAs (Decidable
      (((∃ item ∈ l, Matches code size item) → Later l now) ∧
        (l.filter fun item => Matches code size item).length ≤ 1))
  | some l, .shrink cacheSize =>
      inferInstanceAs (Decidable (True ∧ (cacheSize.toNat < l.length → Close l)))
  | some _, .deinit | none, .add .. | none, .lookup .. | none, .shrink _ | none, .deinit =>
      inferInstanceAs (Decidable (True ∧ True))

theorem freeItems_perm (d : Bool) (h : items.Perm l) : freeItems d items = freeItems d l := by
  unfold freeItems
  rw [Multiset.coe_eq_coe.mpr (h.map _)]

theorem length_newest_le {capacity : Nat} (h : l.length ≤ capacity) (n : Nat) :
    (newest GlyphCacheItem.time n l).length ≤ capacity :=
  (newest_sublist _ n l).length_le.trans h

theorem nodup_newest (h : (l.map GlyphCacheItem.time).Nodup) (n : Nat) :
    ((newest GlyphCacheItem.time n l).map GlyphCacheItem.time).Nodup :=
  h.sublist ((newest_sublist _ n l).map _)

theorem nodup_cons_later (item : GlyphCacheItem γ) (h : Later l item.lastAccessTime)
    (hl : (l.map GlyphCacheItem.time).Nodup) :
    ((item :: l).map GlyphCacheItem.time).Nodup := by
  refine List.nodup_cons.mpr ⟨fun hmem => ?_, hl⟩
  obtain ⟨b, hb, heq⟩ := List.mem_map.mp hmem
  exact (h b hb).ne heq

variable {capacity : Nat} {d : Bool}

theorem add_full (hperm : items.Perm l) (hlen : items.length = capacity) (hpos : 0 < capacity)
    (hnodup : (l.map GlyphCacheItem.time).Nodup) (item : GlyphCacheItem γ) :
    freeItems d items[oldestSlot items]?.toList =
        freeItems d (oldest GlyphCacheItem.time (capacity - 1) l) ∧
      (items.set (oldestSlot items) item).Perm
        (item :: newest GlyphCacheItem.time (capacity - 1) l) := by
  obtain ⟨as, least, bs, rfl, hslot, hle⟩ :=
    oldestSlot_spec (List.ne_nil_of_length_pos (hlen ▸ hpos))
  have hdistinct := (hperm.map GlyphCacheItem.time).nodup_iff.mpr hnodup
  have hlt : ∀ b ∈ as ++ bs, least.time < b.time := by
    intro b hb
    refine lt_of_le_of_ne (hle b (List.perm_middle.mem_iff.mpr (List.mem_cons_of_mem _ hb))) ?_
    rw [List.perm_middle.map _ |>.nodup_iff, List.map_cons, List.nodup_cons] at hdistinct
    exact fun heq => hdistinct.1 (heq ▸ List.mem_map_of_mem hb)
  have hcap : capacity - 1 = as.length + bs.length := by
    rw [← hlen, List.length_append, List.length_cons]
    omega
  rw [← hslot, hcap]
  constructor
  · rw [← freeItems_perm d (oldest_perm hperm), oldest_pred hlt]
    simp
  · have hset : (as ++ least :: bs).set as.length item = as ++ item :: bs := by simp
    rw [hset]
    refine List.perm_middle.trans (List.Perm.cons _ ?_)
    exact (newest_pred hlt) ▸ newest_perm hperm

/-- Adding a glyph agrees with the list. -/
theorem Shows.add (hperm : items.Perm l) (hroom : l.length ≤ capacity) (hpos : 0 < capacity)
    (hnodup : (l.map GlyphCacheItem.time).Nodup) (q : Qsort (GlyphCacheItem γ))
    {code : UInt32} {size : UInt16} {g : γ} {now : UInt64} (hnow : Later l now) :
    (call q ⟨some items, capacity, d⟩ (.add code size g now)).1 =
        (RecentGlyphs.call capacity d (some l) (.add code size g now)).1 ∧
      Shows capacity d (call q ⟨some items, capacity, d⟩ (.add code size g now)).2
        (RecentGlyphs.call capacity d (some l) (.add code size g now)).2 := by
  have hlen := hperm.length_eq
  have hnodup' := nodup_cons_later ⟨now, size, code, g⟩
    (fun b hb => hnow b ((newest_sublist _ (capacity - 1) l).subset hb))
    (nodup_newest hnodup (capacity - 1))
  rw [call, GlyphCache.add]
  dsimp only
  split_ifs with hlt
  · have hnew : newest GlyphCacheItem.time (capacity - 1) l = l :=
      newest_of_length_le (by omega)
    have hold : oldest GlyphCacheItem.time (capacity - 1) l = [] :=
      oldest_of_length_le (by omega)
    rw [hnew] at hnodup'
    rw [RecentGlyphs.call, hnew, hold]
    refine ⟨by simp [freeItems], .alive ?_ ?_ hnodup'⟩
    · exact (List.perm_append_singleton _ _).trans (hperm.cons _)
    · rw [List.length_cons]
      omega
  · obtain ⟨hfree, hset⟩ := add_full (d := d) hperm (by omega) hpos hnodup ⟨now, size, code, g⟩
    refine ⟨by rw [RecentGlyphs.call, hfree], .alive hset ?_ hnodup'⟩
    rw [← hset.length_eq, List.length_set]
    omega

/-- Looking up a glyph agrees with the list. -/
theorem Shows.lookup (hperm : items.Perm l) (hroom : l.length ≤ capacity)
    (hnodup : (l.map GlyphCacheItem.time).Nodup) (q : Qsort (GlyphCacheItem γ))
    {code : UInt32} {size : UInt16} {now : UInt64}
    (hnow : (∃ item ∈ l, Matches code size item) → Later l now)
    (hone : (l.filter fun item => Matches code size item).length ≤ 1) :
    (call q ⟨some items, capacity, d⟩ (.lookup code size now)).1 =
        (RecentGlyphs.call capacity d (some l) (.lookup code size now)).1 ∧
      Shows capacity d (call q ⟨some items, capacity, d⟩ (.lookup code size now)).2
        (RecentGlyphs.call capacity d (some l) (.lookup code size now)).2 := by
  have hfind := find_perm hperm hone
  rw [call, GlyphCache.lookup, RecentGlyphs.call]
  dsimp only [bind_some, map_some]
  rw [hfind]
  cases hl : l.find? fun item => Matches code size item with
  | none => exact ⟨rfl, .alive hperm hroom hnodup⟩
  | some item =>
    obtain ⟨as, bs, rfl, hitem, has⟩ := find_split hl
    have hlater := hnow ⟨item, by simp, hitem⟩
    refine ⟨rfl, .alive (touch_perm hperm (hfind.trans hl) hl) ?_ ?_⟩
    · rw [touch_append has hitem]
      simpa using hroom
    · rw [touch_append has hitem, List.perm_middle.map _ |>.nodup_iff]
      refine nodup_cons_later { item with lastAccessTime := now }
        (fun b hb => hlater b (List.perm_middle.mem_iff.mpr (List.mem_cons_of_mem _ hb))) ?_
      rw [List.perm_middle.map _ |>.nodup_iff, List.map_cons, List.nodup_cons] at hnodup
      exact hnodup.2

theorem Shows.shrink (hperm : items.Perm l) (hroom : l.length ≤ capacity)
    (hnodup : (l.map GlyphCacheItem.time).Nodup) (q : Qsort (GlyphCacheItem γ))
    {cacheSize : UInt32} (hclose : cacheSize.toNat < l.length → Close l) :
    (call q ⟨some items, capacity, d⟩ (.shrink cacheSize)).1 =
        (RecentGlyphs.call capacity d (some l) (.shrink cacheSize)).1 ∧
      Shows capacity d (call q ⟨some items, capacity, d⟩ (.shrink cacheSize)).2
        (RecentGlyphs.call capacity d (some l) (.shrink cacheSize)).2 := by
  have hlen := hperm.length_eq
  rw [call, GlyphCache.shrink, RecentGlyphs.call]
  dsimp only
  by_cases hlt : cacheSize.toNat < items.length
  · have hitems : Close items := fun a ha b hb =>
      hclose (hlen ▸ hlt) a (hperm.mem_iff.mp ha) b (hperm.mem_iff.mp hb)
    obtain ⟨hsort, hdesc⟩ := sort_spec q hitems
      ((hperm.map GlyphCacheItem.time).nodup_iff.mpr hnodup)
    rw [if_pos hlt, ← oldest_sorted hdesc, ← newest_sorted hdesc]
    exact ⟨by rw [freeItems_perm d (oldest_perm (hsort.trans hperm))],
      .alive (newest_perm (hsort.trans hperm)) (length_newest_le hroom _) (nodup_newest hnodup _)⟩
  · rw [if_neg hlt, newest_of_length_le (by omega), oldest_of_length_le (by omega)]
    exact ⟨by simp [freeItems], .alive hperm hroom hnodup⟩

/-- One call agrees with the list. -/
theorem Shows.call (hpos : 0 < capacity) (q : Qsort (GlyphCacheItem γ)) {cache : GlyphCache γ}
    {s : Option (List (GlyphCacheItem γ))} {a : Op γ} (h : Shows capacity d cache s)
    (hc : Ticks s a ∧ Fits s a) :
    (cache.call q a).1 = (RecentGlyphs.call capacity d s a).1 ∧
      Shows capacity d (cache.call q a).2 (RecentGlyphs.call capacity d s a).2 := by
  cases h with
  | gone c d' =>
    cases a with
    | add => exact ⟨rfl, .gone c d'⟩
    | lookup => exact ⟨rfl, .gone c d'⟩
    | shrink => exact ⟨rfl, .gone c d'⟩
    | deinit =>
      refine ⟨?_, .gone 0 false⟩
      cases d' <;> rfl
  | alive hperm hroom hnodup =>
    cases a with
    | add code size g now => exact Shows.add hperm hroom hpos hnodup q hc.1
    | lookup code size now => exact Shows.lookup hperm hroom hnodup q hc.1 hc.2
    | shrink cacheSize => exact Shows.shrink hperm hroom hnodup q hc.2
    | deinit => exact ⟨congrArg _ (freeItems_perm d hperm), .gone 0 false⟩

/-! ## Who owns a glyph -/

/-- The glyphs of the items. -/
def glyphs (s : Option (List (GlyphCacheItem γ))) : Multiset γ :=
  ((s.getD []).map GlyphCacheItem.g : List γ)

/-- The glyph a call hands to the cache. -/
def taken : Op γ → Outcome γ → Multiset γ
  | .add _ _ g _, o => if o.ret = .ok then {g} else 0
  | _, _ => 0

/-- The glyphs the calls of a run hand to the cache. -/
def takenAll (ops : List (Op γ)) (outs : List (Outcome γ)) : Multiset γ :=
  (List.zipWith taken ops outs).sum

/-- The glyphs the calls of a run destroy. -/
def destroyedAll (outs : List (Outcome γ)) : Multiset γ := (outs.map Outcome.destroyed).sum

theorem glyphs_some (l : List (GlyphCacheItem γ)) :
    glyphs (some l) = (l.map GlyphCacheItem.g : List γ) := rfl

theorem glyphs_cut (n : Nat) (l : List (GlyphCacheItem γ)) :
    freeItems true (oldest GlyphCacheItem.time n l) +
      glyphs (some (newest GlyphCacheItem.time n l)) = glyphs (some l) := by
  rw [freeItems, if_pos rfl, glyphs_some, glyphs_some, add_comm, Multiset.coe_add,
    ← List.map_append]
  exact Multiset.coe_eq_coe.mpr ((newest_append_oldest _ n l).map _)

theorem glyphs_touch (code : UInt32) (size : UInt16) (now : UInt64) (l : List (GlyphCacheItem γ)) :
    (touch code size now l).map GlyphCacheItem.g = l.map GlyphCacheItem.g := by
  induction l with
  | nil => rfl
  | cons item l ih =>
    rw [touch]
    split_ifs
    · rfl
    · rw [List.map_cons, ih, List.map_cons]

theorem ledger_call (capacity : Nat) (s : Option (List (GlyphCacheItem γ))) (a : Op γ) :
    glyphs s + taken a (RecentGlyphs.call capacity true s a).1 =
      (RecentGlyphs.call capacity true s a).1.destroyed +
        glyphs (RecentGlyphs.call capacity true s a).2 := by
  cases s with
  | none => cases a <;> rfl
  | some l =>
    cases a with
    | add code size g now =>
      rw [RecentGlyphs.call, taken, if_pos rfl, glyphs_some (_ :: _), List.map_cons,
        ← Multiset.cons_coe, ← Multiset.singleton_add, add_left_comm, ← glyphs_some, glyphs_cut,
        add_comm]
    | lookup code size now =>
      rw [RecentGlyphs.call]
      cases l.find? fun item => Matches code size item with
      | none => simp [taken]
      | some item => simp [taken, glyphs_some, glyphs_touch]
    | shrink cacheSize => exact (add_zero _).trans (glyphs_cut _ l).symm
    | deinit => rfl

/-- What the calls of a run take is destroyed by them or cached after them. -/
theorem ledger (capacity : Nat) (ops : List (Op γ)) : ∀ s : Option (List (GlyphCacheItem γ)),
    glyphs s + takenAll ops (results (RecentGlyphs.call capacity true) s ops) =
      destroyedAll (results (RecentGlyphs.call capacity true) s ops) +
        glyphs (after (RecentGlyphs.call capacity true) s ops) := by
  induction ops with
  | nil => exact fun s => add_comm _ _
  | cons a ops ih =>
    intro s
    rw [results, takenAll, List.zipWith_cons_cons, List.sum_cons, destroyedAll, List.map_cons,
      List.sum_cons, after, ← add_assoc, ledger_call, add_assoc, add_assoc, ← takenAll,
      ← destroyedAll, ih]

theorem Shows.length_le {cache : GlyphCache γ} {s : Option (List (GlyphCacheItem γ))}
    (h : Shows capacity d cache s) : (cache.items.getD []).length ≤ capacity := by
  cases h with
  | alive hperm hroom => exact hperm.length_eq ▸ hroom
  | gone => exact Nat.zero_le _

theorem Shows.glyphs_eq {cache : GlyphCache γ} {s : Option (List (GlyphCacheItem γ))}
    (h : Shows capacity d cache s) : glyphs cache.items = glyphs s := by
  cases h with
  | alive hperm => exact Multiset.coe_eq_coe.mpr (hperm.map _)
  | gone => rfl

/-! ## Every run -/

/-- In a run on a new cache whose clock ticks and whose calls meet their condition, the calls have
the outcomes they have on the list.  There are never more items than the capacity.  With a destroy
function, each glyph that was taken was destroyed or is cached. -/
theorem results_recent (q : Qsort (GlyphCacheItem γ)) {capacity : UInt32} {destroyGlyph : Bool}
    {cache : GlyphCache γ} (hinit : init γ capacity destroyGlyph = some cache) (ops : List (Op γ))
    (hm : Meets (fun s a => some (RecentGlyphs.call capacity.toNat destroyGlyph s a).2)
      (fun s a => Ticks s a ∧ Fits s a) (some []) ops) :
    results (call q) cache ops =
        results (RecentGlyphs.call capacity.toNat destroyGlyph) (some []) ops ∧
      ((after (call q) cache ops).items.getD []).length ≤ capacity.toNat ∧
      (destroyGlyph = true → takenAll ops (results (call q) cache ops) =
        destroyedAll (results (call q) cache ops) + glyphs (after (call q) cache ops).items) := by
  unfold init at hinit
  split_ifs at hinit with hpos
  cases hinit
  have hstart : Shows capacity.toNat destroyGlyph
      (⟨some [], capacity.toNat, destroyGlyph⟩ : GlyphCache γ) (some []) :=
    .alive (.refl _) (Nat.zero_le _) List.nodup_nil
  obtain ⟨heq, hend⟩ := results_simulation (fun _ _ a hR hc => hR.call hpos q hc) ops hstart hm
  refine ⟨heq, hend.length_le, fun hd => ?_⟩
  subst hd
  have hledger := ledger capacity.toNat ops (some ([] : List (GlyphCacheItem γ)))
  rw [← heq, glyphs_some, List.map_nil, Multiset.coe_nil, zero_add] at hledger
  rw [hledger, hend.glyphs_eq]

/-! ## Runs of a small cache -/

/-- A stable sort meets the standard. -/
def mergeQsort (α : Type*) : Qsort α where
  sort cmp l := (l.attach.mergeSort fun a b => cmp a.1 b.1 ≤ 0).map Subtype.val
  perm _ cmp l _ := ((List.mergeSort_perm _ _).map _).trans (.of_eq l.attach_map_subtype_val)
  sorted f cmp l h := by
    have hle (a b : { x // x ∈ l }) : cmp a.1 b.1 ≤ 0 ↔ f a.1 ≤ f b.1 := by
      have := h a.1 a.2 b.1 b.2
      omega
    refine List.pairwise_map.mpr ((List.pairwise_mergeSort (fun a b c hab hbc => ?_)
      (fun a b => ?_) l.attach).imp fun {a b} hab => ?_)
    · rw [decide_eq_true_eq, hle] at hab hbc ⊢
      exact hab.trans hbc
    · rw [Bool.or_eq_true, decide_eq_true_eq, decide_eq_true_eq, hle, hle]
      exact le_total _ _
    · rw [decide_eq_true_eq, hle] at hab
      exact hab

/-- Two glyphs in a cache of two, of which the first is used again before a third one comes. -/
theorem results_recent_two :
    results (call (mergeQsort _)) ⟨some [], 2, true⟩
        [.add 65 10 1 1, .add 66 10 2 2, .lookup 65 10 3, .add 67 10 3 4, .shrink 1, .deinit] =
      results (RecentGlyphs.call 2 true) (some [])
        [.add 65 10 1 1, .add 66 10 2 2, .lookup 65 10 3, .add 67 10 3 4, .shrink 1, .deinit] :=
  (results_recent (mergeQsort (GlyphCacheItem Nat)) (rfl : init Nat 2 true = some _) _
    (by decide)).1

theorem sort_far (q : Qsort (GlyphCacheItem Nat)) :
    q.sort compareByTime [⟨0, 10, 65, 1⟩, ⟨2147483649, 10, 66, 2⟩] =
      [⟨0, 10, 65, 1⟩, ⟨2147483649, 10, 66, 2⟩] := by
  have hcmp : ∀ a ∈ [(⟨0, 10, 65, 1⟩ : GlyphCacheItem Nat), ⟨2147483649, 10, 66, 2⟩],
      ∀ b ∈ [(⟨0, 10, 65, 1⟩ : GlyphCacheItem Nat), ⟨2147483649, 10, 66, 2⟩],
      (compareByTime a b < 0 ↔ (a.g : Int) < b.g) ∧
      (compareByTime a b = 0 ↔ (a.g : Int) = b.g) := by decide
  have hperm := q.perm (fun a => a.g) _ _ hcmp
  have hsorted := q.sorted (fun a => a.g) _ _ hcmp
  refine List.Perm.eq_of_pairwise (fun a b ha hb hab hba => ?_) hsorted (by decide) hperm
  have heq : (a.g : Int) = b.g := le_antisymm hab hba
  rw [hperm.mem_iff] at ha
  revert heq
  revert b
  revert a
  decide

/-- With two glyphs under one key, the first slot is found and not the glyph added last.  With times
that are far apart, the item that was used last is dropped. -/
theorem results_stale :
    ((results (call (mergeQsort _)) ⟨some [], 2, true⟩
        [.add 65 10 1 1, .add 65 10 2 2, .lookup 65 10 3]).map Outcome.found =
          [none, none, some 1] ∧
      (results (RecentGlyphs.call 2 true) (some [])
        [.add 65 10 1 1, .add 65 10 2 2, .lookup 65 10 3]).map Outcome.found =
          [none, none, some 2]) ∧
    (results (call (mergeQsort _)) ⟨some [], 2, true⟩ [.add 65 10 1 0, .add 66 10 2 2147483649,
        .shrink 1, .lookup 66 10 2147483650]).map Outcome.ret = [.ok, .ok, .ok, .notFound] ∧
      (results (RecentGlyphs.call 2 true) (some []) [.add 65 10 1 0, .add 66 10 2 2147483649,
        .shrink 1, .lookup 66 10 2147483650]).map Outcome.ret = [.ok, .ok, .ok, .ok] := by
  refine ⟨⟨rfl, rfl⟩, ?_, rfl⟩
  simp [results, call, add, shrink, sort_far, lookup, Matches]

end GlyphCache

end Awtk
