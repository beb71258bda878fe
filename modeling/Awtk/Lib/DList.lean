import Mathlib

/-!
# Doubly linked segments

`Seg next prev p as q` says that the nodes `as` are linked both ways, that the
first one points back to `p` and that the last one points on to `q`.  A list
that ends in a null pointer is a segment from null to null.

An edit of a list writes a few links around one place.  `seg_append` cuts the
segment there, `Seg.left` and `Seg.right` move the two halves to the new links,
and `seg_append` joins them again.
-/

namespace DList

open List

variable {α : Type*} {next prev next' prev' : α → α}

/-- The nodes `as` are linked both ways between `p` and `q`. -/
def Seg (next prev : α → α) : α → List α → α → Prop
  | _, [], _ => True
  | p, a :: as, q => prev a = p ∧ next a = as.headD q ∧ Seg next prev a as q

@[simp] theorem seg_nil {p q : α} : Seg next prev p [] q := trivial

theorem seg_cons {p q a : α} {as : List α} :
    Seg next prev p (a :: as) q ↔ prev a = p ∧ next a = as.headD q ∧ Seg next prev a as q :=
  Iff.rfl

theorem seg_singleton {p q a : α} : Seg next prev p [a] q ↔ prev a = p ∧ next a = q := by
  simp [Seg]

theorem headD_append (l r : List α) (q : α) : (l ++ r).headD q = l.headD (r.headD q) := by
  cases l <;> rfl

theorem seg_append {p q : α} {l r : List α} :
    Seg next prev p (l ++ r) q
      ↔ Seg next prev p l (r.headD q) ∧ Seg next prev (l.getLastD p) r q := by
  induction l generalizing p with
  | nil => simp
  | cons a l ih =>
      rw [cons_append, seg_cons, ih, headD_append, seg_cons, getLastD_cons]
      tauto

theorem Seg.mid {p q a : α} {l r : List α} (h : Seg next prev p (l ++ a :: r) q) :
    prev a = l.getLastD p ∧ next a = r.headD q :=
  have := (seg_append.mp h).2
  ⟨this.1, this.2.1⟩

theorem Seg.next_last {p q a : α} {l : List α} (h : Seg next prev p l q) (ha : a ∈ l)
    (hlast : a = l.getLastD p) : next a = q := by
  rcases eq_nil_or_concat l with rfl | ⟨l, b, rfl⟩
  · cases ha
  · rw [concat_eq_append, getLastD_concat] at hlast
    rw [concat_eq_append] at h
    exact hlast ▸ h.mid.2

theorem Seg.congr {q : α} : ∀ {as : List α} {p : α}, Seg next prev p as q →
    (∀ a ∈ as, next' a = next a ∧ prev' a = prev a) → Seg next' prev' p as q
  | [], _, _, _ => trivial
  | a :: as, _, h, hag => by
    obtain ⟨hn, hp⟩ := hag a mem_cons_self
    exact ⟨hp.trans h.1, hn.trans h.2.1, h.2.2.congr fun b hb => hag b (mem_cons_of_mem _ hb)⟩

/-- A segment whose last node was pointed elsewhere. -/
theorem Seg.left {q q' : α} : ∀ {l : List α} {p : α}, Seg next prev p l q → l.Nodup →
    (∀ a ∈ l, prev' a = prev a) →
    (∀ a ∈ l, a ≠ l.getLastD p → next' a = next a) →
    (∀ a ∈ l, a = l.getLastD p → next' a = q') → Seg next' prev' p l q'
  | [], _, _, _, _, _, _ => trivial
  | [a], p, h, _, hp, _, hlast => by
    have ha := mem_singleton_self a
    exact ⟨(hp a ha).trans h.1, hlast a ha rfl, trivial⟩
  | a :: b :: l, p, h, hnd, hp, hn, hlast => by
    obtain ⟨hnot, hnd'⟩ := nodup_cons.mp hnd
    have hne : a ≠ (a :: b :: l).getLastD p := by
      rintro heq
      apply hnot
      rw [getLastD_cons, getLastD_cons] at heq
      rw [heq]
      exact getLastD_mem_cons
    refine ⟨(hp a mem_cons_self).trans h.1, (hn a mem_cons_self hne).trans h.2.1, ?_⟩
    exact h.2.2.left hnd' (fun c hc => hp c (mem_cons_of_mem _ hc))
      (fun c hc => hn c (mem_cons_of_mem _ hc))
      (fun c hc => hlast c (mem_cons_of_mem _ hc))

/-- A segment whose first node was pointed back elsewhere. -/
theorem Seg.right {p p' q : α} {r : List α} (h : Seg next prev p r q)
    (hn : ∀ a ∈ r, next' a = next a) (hp : ∀ a ∈ r.tail, prev' a = prev a)
    (hfirst : ∀ a ∈ r.head?, prev' a = p') : Seg next' prev' p' r q := by
  cases r with
  | nil => trivial
  | cons a r =>
      refine ⟨hfirst a rfl, (hn a mem_cons_self).trans h.2.1, ?_⟩
      exact h.2.2.congr fun b hb => ⟨hn b (mem_cons_of_mem _ hb), hp b hb⟩

theorem Seg.splice {p q : α} {l m m' r : List α} [DecidableEq α]
    (h : Seg next prev p (l ++ (m ++ r)) q) (hl : l.Nodup) (hr : r.Nodup)
    (hln : ∀ a ∈ l, next' a = if a = l.getLastD p then m'.headD (r.headD q) else next a)
    (hlp : ∀ a ∈ l, prev' a = prev a) (hrn : ∀ a ∈ r, next' a = next a)
    (hrp : ∀ a ∈ r, prev' a = if a = r.headD q then m'.getLastD (l.getLastD p) else prev a)
    (hm : Seg next' prev' (l.getLastD p) m' (r.headD q)) :
    Seg next' prev' p (l ++ (m' ++ r)) q := by
  obtain ⟨hleft, hmr⟩ := seg_append.mp h
  obtain ⟨-, hright⟩ := seg_append.mp hmr
  refine seg_append.mpr ⟨?_, seg_append.mpr ⟨hm, ?_⟩⟩
  · rw [headD_append]
    exact hleft.left hl hlp (fun a ha hne => (hln a ha).trans (if_neg hne))
      (fun a ha heq => (hln a ha).trans (if_pos heq))
  · refine hright.right hrn (fun a ha => ?_) (fun a ha => ?_)
    · rw [hrp a (mem_of_mem_tail ha), if_neg]
      cases r with
      | nil => cases ha
      | cons b r =>
          rintro rfl
          exact (nodup_cons.mp hr).1 ha
    · rw [hrp a (mem_of_mem_head? ha), if_pos]
      rw [headD_eq_head?_getD, ha, Option.getD_some]

end DList
