import Awtk.Base.DirtyRects
import Awtk.Lib.Run

/-!
# Runs of dirty rectangles

Whatever is added is covered, and `max` is the box around it, as long as this box has sides of
type `int32_t`.  The stored rectangles stay apart exactly as long as each step repairs the
list (`exact_iff_meets`).
-/

namespace Awtk.DirtyRects

open List Option

/-- A rectangle of a size that is not negative, whose edges are of type `int32_t`. -/
structure Valid (r : Rect) : Prop where
  w : 0 ≤ r.w
  h : 0 ≤ r.h
  fits : Rect.Fits r.box

/-- The boxes of the rectangles with pixels. -/
def solids (rs : List Rect) : Set (Box Int) := {b | ∃ r ∈ rs, r.Solid ∧ r.box = b}

/-- What is stored after some rectangles were added. -/
structure Exact (maxNr : Nat) (d : DirtyRects) (rs : List Rect) : Prop where
  nr : d.rects.length ≤ maxNr
  covered : ∀ r ∈ rs, ∀ p ∈ r.box, Covered d.rects p
  empty : solids rs = ∅ → d.max = .zero
  max : (solids rs).Nonempty → d.max.box.IsHull (solids rs)
  apart : Apart d.rects

/-- The box around all rectangles has sides of type `int32_t`, and the list is repaired. -/
def StepOk (maxNr : Nat) (d : DirtyRects) (r : Rect) : Prop :=
  r.Solid → (d.max.Solid → Rect.Fits (d.max.box.join r.box)) ∧ Repaired (collapse maxNr d.rects) r

section Solids

variable {rs : List Rect} {r : Rect} {p : Int × Int}

theorem solids_append_solid (hr : r.Solid) (rs : List Rect) :
    solids (rs ++ [r]) = insert r.box (solids rs) := by
  ext b
  simp only [solids, mem_append, mem_singleton, Set.mem_ofPred_eq, Set.mem_insert_iff]
  constructor
  · rintro ⟨t, ht | rfl, hs, rfl⟩
    · exact .inr ⟨t, ht, hs, rfl⟩
    · exact .inl rfl
  · rintro (rfl | ⟨t, ht, hs, rfl⟩)
    · exact ⟨r, .inr rfl, hr, rfl⟩
    · exact ⟨t, .inl ht, hs, rfl⟩

theorem solids_append_empty (hr : ¬ r.Solid) (rs : List Rect) : solids (rs ++ [r]) = solids rs := by
  ext b
  simp only [solids, mem_append, mem_singleton, Set.mem_ofPred_eq]
  constructor
  · rintro ⟨t, ht | rfl, hs, rfl⟩
    · exact ⟨t, ht, hs, rfl⟩
    · exact absurd hs hr
  · rintro ⟨t, ht, hs, rfl⟩
    exact ⟨t, .inl ht, hs, rfl⟩

theorem eq_zero_of_not_solid (h : Valid r) (hr : ¬ r.Solid) : r.w = 0 ∨ r.h = 0 := by
  have hw := h.w
  have hh := h.h
  simp only [Rect.Solid] at hr
  omega

end Solids

/-! ## One step -/

/-- What holds as long as the box around all rectangles fits. -/
structure Inv (d : DirtyRects) (rs : List Rect) : Prop where
  covered : ∀ r ∈ rs, ∀ p ∈ r.box, Covered d.rects p
  empty : solids rs = ∅ → d.max = .zero ∧ d.rects = []
  full : (solids rs).Nonempty → d.max.box.IsHull (solids rs) ∧ Rect.Fits d.max.box ∧
    ∀ s ∈ d.rects, Rect.In d.max.box s

/-- The box around all rectangles fits. -/
def AllFit (rs : List Rect) : Prop := ∀ m : Box Int, m.IsHull (solids rs) → Rect.Fits m

/-- What holds in any case. -/
structure Keeps (maxNr : Nat) (d : DirtyRects) (rs : List Rect) : Prop where
  valid : ∀ r ∈ rs, Valid r
  nr : d.rects.length ≤ maxNr
  sides : d.max.w < 2 ^ 31 ∧ d.max.h < 2 ^ 31
  inv : AllFit rs → Inv d rs

section Step

variable {maxNr : Nat} {d : DirtyRects} {rs : List Rect} {r : Rect}

theorem allFit_of_append (hr : r.Solid) (h : AllFit (rs ++ [r])) : AllFit rs := by
  intro m hm
  have hjoin : (m.join r.box).IsHull (solids (rs ++ [r])) := by
    rw [solids_append_solid hr]
    exact hm.insert r.box
  exact (h _ hjoin).mono (Box.within_join_left m r.box)

theorem fits_of_hull (hvalid : ∀ r ∈ rs, Valid r) {m : Rect} (hm : m.box.IsHull (solids rs))
    (hw : m.w < 2 ^ 31 ∧ m.h < 2 ^ 31) : Rect.Fits m.box := by
  have hedge : ∀ b ∈ solids rs, Rect.Fits b := by
    rintro b ⟨t, ht, -, rfl⟩
    exact (hvalid t ht).fits
  obtain ⟨b1, hb1, hleft⟩ := hm.left.1
  obtain ⟨b2, hb2, htop⟩ := hm.top.1
  obtain ⟨b3, hb3, hright⟩ := hm.right.1
  obtain ⟨b4, hb4, hbottom⟩ := hm.bottom.1
  refine ⟨?_, ?_, ?_, ?_, ?_, ?_⟩
  · exact hleft ▸ (hedge b1 hb1).left
  · exact htop ▸ (hedge b2 hb2).top
  · exact hright ▸ (hedge b3 hb3).right
  · exact hbottom ▸ (hedge b4 hb4).bottom
  · simp only [Rect.box]
    omega
  · simp only [Rect.box]
    omega

theorem solid_of_hull {m : Rect} (hne : (solids rs).Nonempty) (hm : m.box.IsHull (solids rs)) :
    m.Solid := by
  obtain ⟨b, t, ht, hs, rfl⟩ := hne
  have hin : t.box.Within m.box := hm.within ⟨t, ht, hs, rfl⟩
  obtain ⟨⟨h1, h2⟩, h3, h4⟩ := hin
  obtain ⟨hw, hh⟩ := hs
  simp only [Rect.box] at h1 h2 h3 h4
  constructor <;> omega

/-- A rectangle with pixels is added to a list that fits. -/
theorem inv_store (hinv : Inv d rs) (hr : r.Solid) (maxNr : Nat)
    (hfit : AllFit (rs ++ [r])) :
    Inv { d with max := rectMerge d.max r, rects := store (collapse maxNr d.rects) r } (rs ++ [r]) ∧
      (NoMeeting d.rects →
        (NoMeeting (store (collapse maxNr d.rects) r) ↔ Repaired (collapse maxNr d.rects) r)) := by
  have hhull : (rectMerge d.max r).box.IsHull (solids (rs ++ [r])) ∧
      ∀ s ∈ d.rects, Rect.In (rectMerge d.max r).box s := by
    rw [solids_append_solid hr]
    rcases Set.eq_empty_or_nonempty (solids rs) with hempty | hne
    · obtain ⟨hzero, hnil⟩ := hinv.empty hempty
      have hmerge : rectMerge d.max r = r := by
        rw [rectMerge, if_pos ⟨hr.1, hr.2⟩, hzero]
        rfl
      rw [hmerge, hempty, hnil]
      refine ⟨?_, fun s hs => absurd hs not_mem_nil⟩
      have h := Box.isHull_singleton r.box
      simpa using h
    · obtain ⟨hull, -, hin⟩ := hinv.full hne
      have hjoin := hull.insert r.box
      have hfits : Rect.Fits (d.max.box.join r.box) := hfit _ (by rwa [solids_append_solid hr])
      have hbox := Rect.merge_box hfits ⟨solid_of_hull hne hull, Box.within_join_left _ _⟩
        ⟨hr, Box.within_join_right _ _⟩
      rw [hbox]
      exact ⟨hjoin, fun s hs => (hin s hs).mono (Box.within_join_left _ _)⟩
  obtain ⟨hull, hin⟩ := hhull
  have hfits := hfit _ hull
  have hrin : Rect.In (rectMerge d.max r).box r := ⟨hr, hull.within ⟨r, by simp, hr, rfl⟩⟩
  obtain ⟨hcin, hcno⟩ := collapse_spec maxNr hfits hin
  obtain ⟨hsin, hsno⟩ := store_spec hfits hcin hrin
  have hccover := (collapse_covers maxNr hfits fun s hs => (hin s hs).pixelsIn).2
  have hscover := (store_covers hfits (fun s hs => (hcin s hs).pixelsIn) hrin.pixelsIn).2
  have hne : (solids (rs ++ [r])).Nonempty := ⟨r.box, r, by simp, hr, rfl⟩
  refine ⟨⟨?_, fun h => absurd h hne.ne_empty, fun _ => ⟨hull, hfits, hsin⟩⟩, fun h => hsno (hcno h)⟩
  intro t ht p hp
  rcases mem_append.mp ht with ht | ht
  · exact hscover p (.inr (hccover p (hinv.covered t ht p hp)))
  · exact hscover p (.inl (mem_singleton.mp ht ▸ hp))

theorem Inv.solid (h : Inv d rs) : ∀ s ∈ d.rects, s.Solid := by
  intro s hs
  rcases Set.eq_empty_or_nonempty (solids rs) with hempty | hne
  · rw [(h.empty hempty).2] at hs
    cases hs
  · exact ((h.full hne).2.2 s hs).solid

theorem Valid.sides (h : Valid r) : r.w < 2 ^ 31 ∧ r.h < 2 ^ 31 := by
  have hwidth := h.fits.width
  have hheight := h.fits.height
  simp only [Rect.box] at hwidth hheight
  constructor <;> omega

/-- An exact list stays exact if the box fits and the list is repaired, and only then. -/
theorem exact_iff_stepOk (hmax : 2 ≤ maxNr) (h : Keeps maxNr d rs)
    (hvalids : ∀ t ∈ rs ++ [r], Valid t) (hexact : Exact maxNr d rs) (hr : r.Solid) :
    Exact maxNr { d with max := rectMerge d.max r, rects := store (collapse maxNr d.rects) r }
      (rs ++ [r]) ↔ StepOk maxNr d r := by
  have hvalid : Valid r := hvalids r (by simp)
  have hne : (solids (rs ++ [r])).Nonempty := ⟨r.box, r, by simp, hr, rfl⟩
  have hno (hfit : AllFit (rs ++ [r])) : NoMeeting d.rects :=
    (apart_iff (h.inv (allFit_of_append hr hfit)).solid).mp hexact.apart
  constructor
  · intro hexact' _
    have hull := hexact'.max hne
    have hfits := fits_of_hull hvalids hull (Rect.merge_lt h.sides hvalid.sides)
    have hfit : AllFit (rs ++ [r]) := fun m hm => hm.unique hull ▸ hfits
    obtain ⟨hinv', hiff⟩ := inv_store (h.inv (allFit_of_append hr hfit)) hr maxNr hfit
    refine ⟨fun hsolid => ?_, (hiff (hno hfit)).mp ((apart_iff hinv'.solid).mp hexact'.apart)⟩
    rcases Set.eq_empty_or_nonempty (solids rs) with hempty | hne'
    · rw [hexact.empty hempty] at hsolid
      exact absurd hsolid (by decide)
    · refine hfit _ ?_
      rw [solids_append_solid hr]
      exact (hexact.max hne').insert r.box
  · intro hok
    obtain ⟨hfits, hrepaired⟩ := hok hr
    have hfit : AllFit (rs ++ [r]) := by
      intro m hm
      rw [solids_append_solid hr] at hm
      rcases Set.eq_empty_or_nonempty (solids rs) with hempty | hne'
      · rw [hempty] at hm
        have hsingle : m = r.box := hm.unique (by simpa using Box.isHull_singleton r.box)
        exact hsingle ▸ hvalid.fits
      · have hull := hexact.max hne'
        exact hm.unique (hull.insert r.box) ▸ hfits (solid_of_hull hne' hull)
    obtain ⟨hinv', hiff⟩ := inv_store (h.inv (allFit_of_append hr hfit)) hr maxNr hfit
    exact ⟨(store_length _ _).trans (collapse_length hmax _), hinv'.covered,
      fun hempty => absurd hempty hne.ne_empty, fun _ => (hinv'.full hne).1,
      (apart_iff hinv'.solid).mpr ((hiff (hno hfit)).mpr hrepaired)⟩

/-- What a step keeps in any case, and when the list stays exact. -/
theorem add_keeps (hmax : 2 ≤ maxNr) (h : Keeps maxNr d rs) (hvalid : Valid r) :
    ∃ d', add maxNr d r = some d' ∧ Keeps maxNr d' (rs ++ [r]) ∧
      (Exact maxNr d rs → (Exact maxNr d' (rs ++ [r]) ↔ StepOk maxNr d r)) := by
  have hvalids : ∀ t ∈ rs ++ [r], Valid t := by
    intro t ht
    rcases mem_append.mp ht with ht | ht
    · exact h.valid t ht
    · exact mem_singleton.mp ht ▸ hvalid
  by_cases hr : r.Solid
  · refine ⟨_, add_eq hmax d hr, ⟨hvalids, ?_, ?_, fun hfit => ?_⟩, fun hexact => ?_⟩
    · exact (store_length _ _).trans (collapse_length hmax _)
    · exact Rect.merge_lt h.sides hvalid.sides
    · exact (inv_store (h.inv (allFit_of_append hr hfit)) hr maxNr hfit).1
    · exact exact_iff_stepOk hmax h hvalids hexact hr
  · have hcovered {d : DirtyRects} (hcov : ∀ t ∈ rs, ∀ p ∈ t.box, Covered d.rects p) :
        ∀ t ∈ rs ++ [r], ∀ p ∈ t.box, Covered d.rects p := by
      intro t ht p hp
      rcases mem_append.mp ht with ht | ht
      · exact hcov t ht p hp
      · exact absurd (Rect.solid_of_mem (mem_singleton.mp ht ▸ hp)) hr
    refine ⟨d, by rw [add, if_pos (eq_zero_of_not_solid hvalid hr)],
      ⟨hvalids, h.nr, h.sides, fun hfit => ?_⟩, fun hexact => iff_of_true ?_ fun hs => absurd hs hr⟩
    · rw [AllFit, solids_append_empty hr] at hfit
      have hinv := h.inv hfit
      refine ⟨hcovered hinv.covered, ?_, ?_⟩
      · rw [solids_append_empty hr]
        exact hinv.empty
      · rw [solids_append_empty hr]
        exact hinv.full
    · refine ⟨hexact.nr, hcovered hexact.covered, ?_, ?_, hexact.apart⟩
      · rw [solids_append_empty hr]
        exact hexact.empty
      · rw [solids_append_empty hr]
        exact hexact.max

end Step

/-! ## Runs -/

section Runs

variable {maxNr : Nat} {rs : List Rect}

theorem keeps_reset (maxNr : Nat) : Keeps maxNr reset [] := by
  have hempty : solids [] = ∅ := by simp [solids]
  refine ⟨by simp, Nat.zero_le _, by decide, fun _ => ⟨by simp, fun _ => ⟨rfl, rfl⟩, fun h => ?_⟩⟩
  exact absurd hempty h.ne_empty

theorem exact_reset (maxNr : Nat) : Exact maxNr reset [] := by
  have hempty : solids [] = ∅ := by simp [solids]
  exact ⟨Nat.zero_le _, by simp, fun _ => rfl, fun h => absurd hempty h.ne_empty,
    List.Pairwise.nil⟩

theorem step_record (hmax : 2 ≤ maxNr) (s : DirtyRects × List Rect) (r : Rect)
    (h : Keeps maxNr s.1 s.2) (hvalid : Valid r) :
    ∃ s', Runs.record (add maxNr) s r = some s' ∧ Keeps maxNr s'.1 s'.2 ∧
      (Exact maxNr s.1 s.2 → (Exact maxNr s'.1 s'.2 ↔ StepOk maxNr s.1 r)) := by
  obtain ⟨d', hadd, hkeeps, hexact⟩ := add_keeps hmax h hvalid
  exact ⟨(d', s.2 ++ [r]), by rw [Runs.record, hadd]; rfl, hkeeps, hexact⟩

theorem run_add (hmax : 2 ≤ maxNr) (hvalid : ∀ r ∈ rs, Valid r) :
    ∃ d, Runs.run (add maxNr) reset rs = some d ∧ Keeps maxNr d rs := by
  have hmeets : Runs.Meets (Runs.record (add maxNr)) (fun _ r => Valid r) (reset, []) rs :=
    Runs.meets_of_forall hvalid
  obtain ⟨⟨d, l⟩, hrun, hkeeps⟩ := Runs.run_progress (I := fun s => Keeps maxNr s.1 s.2)
    (fun s r h hr => (step_record hmax s r h hr).imp fun _ h' => ⟨h'.1, h'.2.1⟩)
    (keeps_reset maxNr) hmeets
  rw [Runs.run_record, map_eq_some_iff] at hrun
  obtain ⟨d', hd', heq⟩ := hrun
  obtain ⟨rfl, rfl⟩ := Prod.mk.inj heq
  exact ⟨d', hd', hkeeps⟩

/-- The stored rectangles are exact after each step of a run if each step is good, and only
then. -/
theorem exact_iff_meets (maxNr : Nat) (hmax : 2 ≤ maxNr) (rs : List Rect)
    (hvalid : ∀ r ∈ rs, Valid r) :
    (∀ pre, pre <+: rs → ∃ d, Runs.run (add maxNr) reset pre = some d ∧ Exact maxNr d pre) ↔
      Runs.Meets (add maxNr) (StepOk maxNr) reset rs := by
  have hmeets : Runs.Meets (Runs.record (add maxNr)) (fun _ r => Valid r) (reset, []) rs :=
    Runs.meets_of_forall hvalid
  have hiff := Runs.forall_initial_iff_meets (G := fun s : DirtyRects × List Rect => Exact maxNr s.1 s.2)
    (step_record hmax) (keeps_reset maxNr) (exact_reset maxNr) hmeets
  rw [Runs.meets_record (C := StepOk maxNr)] at hiff
  rw [← hiff]
  constructor
  · intro h pre hpre t ht
    obtain ⟨d, hd, hexact⟩ := h pre hpre
    rw [Runs.run_record, hd, map_some, some_inj] at ht
    exact ht ▸ hexact
  · intro h pre hpre
    obtain ⟨d, hd, -⟩ := run_add hmax fun r hr => hvalid r (hpre.subset hr)
    refine ⟨d, hd, ?_⟩
    have ht : Runs.run (Runs.record (add maxNr)) (reset, []) pre = some (d, pre) := by
      rw [Runs.run_record, hd]
      rfl
    exact h pre hpre _ ht

end Runs

/-- Three rectangles side by side, and one over the second and the third. -/
def sampleRects : List Rect := [⟨0, 0, 5, 5⟩, ⟨10, 0, 5, 5⟩, ⟨20, 0, 5, 5⟩, ⟨12, 0, 10, 5⟩]

theorem valid_sampleRects : ∀ r ∈ sampleRects, Valid r := by
  intro r hr
  simp only [sampleRects, mem_cons, not_mem_nil, or_false] at hr
  rcases hr with rfl | rfl | rfl | rfl <;>
  exact ⟨by decide, by decide, by decide, by decide, by decide, by decide, by decide, by decide⟩

theorem exact_iff_meets_sample :
    (∀ pre, pre <+: sampleRects →
      ∃ d, Runs.run (add 10) reset pre = some d ∧ Exact 10 d pre) ↔
      Runs.Meets (add 10) (StepOk 10) reset sampleRects :=
  exact_iff_meets 10 (by decide) sampleRects valid_sampleRects

/-- The second rectangle grows into the third one. -/
theorem add_not_exact :
    ¬ ∀ rs : List Rect, (∀ r ∈ rs, Valid r) →
      ∃ d, Runs.run (add 10) reset rs = some d ∧ Exact 10 d rs := by
  intro h
  obtain ⟨d, hrun, hexact⟩ := h sampleRects valid_sampleRects
  have heq : Runs.run (add 10) reset sampleRects =
      some ⟨⟨0, 0, 25, 5⟩, [⟨0, 0, 5, 5⟩, ⟨10, 0, 12, 5⟩, ⟨20, 0, 5, 5⟩], false⟩ := by
    decide +kernel
  rw [heq, some_inj] at hrun
  have hapart := hexact.apart
  rw [← hrun] at hapart
  have hpair := (pairwise_cons.mp (pairwise_cons.mp hapart).2).1 ⟨20, 0, 5, 5⟩
    mem_cons_self
  exact hpair (20, 0) ⟨⟨⟨by decide, by decide⟩, by decide, by decide⟩,
    ⟨by decide, by decide⟩, by decide, by decide⟩

end Awtk.DirtyRects
