import Mathlib
import Awtk.Lib.Box
import Awtk.Tkc.Types

/-!
# Rectangles

`rect_t` with coordinates of type `int32_t`, whose sums wrap.  Inside of a box that fits
the type nothing wraps: there `rect_merge` is the join of boxes and `rect_has_intersect`
tells if they meet.
-/

namespace Awtk

open List

/-- `rect_t`. -/
structure Rect where
  x : Int
  y : Int
  w : Int
  h : Int
  deriving DecidableEq, Repr

/-- The rectangle that `memset` leaves. -/
def Rect.zero : Rect := ⟨0, 0, 0, 0⟩

def rectMerge (dr r : Rect) : Rect :=
  if 0 < r.w ∧ 0 < r.h then
    if 0 < dr.w ∧ 0 < dr.h then
      let x := min dr.x r.x
      let y := min dr.y r.y
      let right := max (wrapI32 (r.x + r.w)) (wrapI32 (dr.x + dr.w))
      let bottom := max (wrapI32 (r.y + r.h)) (wrapI32 (dr.y + dr.h))
      ⟨x, y, wrapI32 (right - x), wrapI32 (bottom - y)⟩
    else r
  else dr

def rectHasIntersect (r1 r2 : Rect) : Bool :=
  let right1 := wrapI32 (wrapI32 (r1.x + r1.w) - 1)
  let right2 := wrapI32 (wrapI32 (r2.x + r2.w) - 1)
  let bottom1 := wrapI32 (wrapI32 (r1.y + r1.h) - 1)
  let bottom2 := wrapI32 (wrapI32 (r2.y + r2.h) - 1)
  ¬ (right1 < r2.x ∨ right2 < r1.x ∨ bottom1 < r2.y ∨ bottom2 < r1.y)

/-! ## Boxes -/

namespace Rect

/-- The pixels of a rectangle. -/
def box (r : Rect) : Box Int := ⟨r.x, r.y, r.x + r.w, r.y + r.h⟩

/-- A rectangle with pixels. -/
def Solid (r : Rect) : Prop := 0 < r.w ∧ 0 < r.h

instance (r : Rect) : Decidable r.Solid := inferInstanceAs (Decidable (_ ∧ _))

theorem box_solid (r : Rect) : r.box.Solid ↔ r.Solid := by
  simp only [Box.Solid, Solid, box]
  omega

/-- The edges of a box are of type `int32_t`, and so are its sides. -/
structure Fits (b : Box Int) : Prop where
  left : -2 ^ 31 ≤ b.left
  top : -2 ^ 31 ≤ b.top
  right : b.right < 2 ^ 31
  bottom : b.bottom < 2 ^ 31
  width : b.right - b.left < 2 ^ 31
  height : b.bottom - b.top < 2 ^ 31

theorem fits_iff {b : Box Int} : Fits b ↔
    -2 ^ 31 ≤ b.left ∧ -2 ^ 31 ≤ b.top ∧ b.right < 2 ^ 31 ∧ b.bottom < 2 ^ 31 ∧
      b.right - b.left < 2 ^ 31 ∧ b.bottom - b.top < 2 ^ 31 := by
  constructor
  · rintro ⟨h1, h2, h3, h4, h5, h6⟩
    exact ⟨h1, h2, h3, h4, h5, h6⟩
  · rintro ⟨h1, h2, h3, h4, h5, h6⟩
    exact ⟨h1, h2, h3, h4, h5, h6⟩

instance (b : Box Int) : Decidable (Fits b) := decidable_of_iff _ fits_iff.symm

theorem Fits.mono {a b : Box Int} (h : Fits b) (hab : a.Within b) : Fits a := by
  obtain ⟨⟨h1, h2⟩, h3, h4⟩ := hab
  obtain ⟨h5, h6, h7, h8, h9, h10⟩ := h
  constructor <;> omega

/-- A rectangle with pixels in a box. -/
structure In (m : Box Int) (r : Rect) : Prop where
  solid : r.Solid
  within : r.box.Within m

variable {m m' : Box Int} {a b : Rect}

theorem In.mono (h : In m a) (hm : m.Within m') : In m' a := ⟨h.solid, h.within.trans hm⟩

theorem In.boxSolid (h : In m a) : a.box.Solid := (box_solid a).mpr h.solid

theorem hasIntersect_iff (hm : Fits m) (ha : In m a) (hb : In m b) :
    rectHasIntersect a b = true ↔ a.box.Meets b.box := by
  obtain ⟨⟨hax, hax'⟩, hay, hay'⟩ := ha.within
  obtain ⟨⟨hbx, hbx'⟩, hby, hby'⟩ := hb.within
  obtain ⟨haw, hah⟩ := ha.solid
  obtain ⟨hbw, hbh⟩ := hb.solid
  obtain ⟨h1, h2, h3, h4, -, -⟩ := hm
  simp only [box] at hax hax' hay hay' hbx hbx' hby hby'
  have hright1 : wrapI32 (wrapI32 (a.x + a.w) - 1) = a.x + a.w - 1 := by
    rw [wrapI32_eq (v := a.x + a.w) (by omega) (by omega), wrapI32_eq (by omega) (by omega)]
  have hright2 : wrapI32 (wrapI32 (b.x + b.w) - 1) = b.x + b.w - 1 := by
    rw [wrapI32_eq (v := b.x + b.w) (by omega) (by omega), wrapI32_eq (by omega) (by omega)]
  have hbottom1 : wrapI32 (wrapI32 (a.y + a.h) - 1) = a.y + a.h - 1 := by
    rw [wrapI32_eq (v := a.y + a.h) (by omega) (by omega), wrapI32_eq (by omega) (by omega)]
  have hbottom2 : wrapI32 (wrapI32 (b.y + b.h) - 1) = b.y + b.h - 1 := by
    rw [wrapI32_eq (v := b.y + b.h) (by omega) (by omega), wrapI32_eq (by omega) (by omega)]
  simp only [rectHasIntersect, hright1, hright2, hbottom1, hbottom2, Box.Meets, box,
    decide_eq_true_eq]
  omega

theorem merge_box (hm : Fits m) (ha : In m a) (hb : In m b) :
    (rectMerge a b).box = a.box.join b.box := by
  obtain ⟨⟨hax, hax'⟩, hay, hay'⟩ := ha.within
  obtain ⟨⟨hbx, hbx'⟩, hby, hby'⟩ := hb.within
  obtain ⟨haw, hah⟩ := ha.solid
  obtain ⟨hbw, hbh⟩ := hb.solid
  obtain ⟨h1, h2, h3, h4, h5, h6⟩ := hm
  simp only [box] at hax hax' hay hay' hbx hbx' hby hby'
  rw [rectMerge, if_pos ⟨hbw, hbh⟩, if_pos ⟨haw, hah⟩]
  simp only [box, Box.join]
  rw [wrapI32_eq (v := b.x + b.w) (by omega) (by omega),
    wrapI32_eq (v := a.x + a.w) (by omega) (by omega),
    wrapI32_eq (v := b.y + b.h) (by omega) (by omega),
    wrapI32_eq (v := a.y + a.h) (by omega) (by omega),
    wrapI32_eq (by omega) (by omega), wrapI32_eq (by omega) (by omega)]
  ext
  · rfl
  · rfl
  · simp only
    omega
  · simp only
    omega

theorem merge_in (hm : Fits m) (ha : In m a) (hb : In m b) : In m (rectMerge a b) := by
  have hbox := merge_box hm ha hb
  refine ⟨(box_solid _).mp ?_, ?_⟩
  · rw [hbox]
    exact Box.solid_join ha.boxSolid _
  · rw [hbox]
    exact Box.join_within ha.within hb.within

/-- The pixels of a rectangle, if it has any, are in a box. -/
def PixelsIn (m : Box Int) (r : Rect) : Prop := r.Solid → r.box.Within m

instance (m : Box Int) (r : Rect) : Decidable (PixelsIn m r) :=
  inferInstanceAs (Decidable (_ → _))

theorem In.pixelsIn (h : In m a) : PixelsIn m a := fun _ => h.within

theorem solid_of_mem {p : Int × Int} (h : p ∈ a.box) : a.Solid :=
  (box_solid a).mp (Box.solid_of_mem h)

theorem merge_covers (hm : Fits m) (ha : PixelsIn m a) (hb : PixelsIn m b) :
    PixelsIn m (rectMerge a b) ∧ ∀ p, p ∈ a.box ∨ p ∈ b.box → p ∈ (rectMerge a b).box := by
  by_cases hbs : b.Solid
  · by_cases has : a.Solid
    · have hain : In m a := ⟨has, ha has⟩
      have hbin : In m b := ⟨hbs, hb hbs⟩
      refine ⟨(merge_in hm hain hbin).pixelsIn, fun p hp => ?_⟩
      rw [merge_box hm hain hbin]
      cases hp with
      | inl hp => exact Box.mem_join_left hp _
      | inr hp => exact Box.mem_join_right _ hp
    · have heq : rectMerge a b = b := by
        simp only [Solid] at has hbs
        rw [rectMerge, if_pos hbs, if_neg has]
      rw [heq]
      exact ⟨hb, fun p hp => hp.resolve_left fun h => has (solid_of_mem h)⟩
  · have heq : rectMerge a b = a := by
      simp only [Solid] at hbs
      rw [rectMerge, if_neg hbs]
    rw [heq]
    exact ⟨ha, fun p hp => hp.resolve_right fun h => hbs (solid_of_mem h)⟩

theorem merge_lt (ha : a.w < 2 ^ 31 ∧ a.h < 2 ^ 31) (hb : b.w < 2 ^ 31 ∧ b.h < 2 ^ 31) :
    (rectMerge a b).w < 2 ^ 31 ∧ (rectMerge a b).h < 2 ^ 31 := by
  rw [rectMerge]
  split
  · split
    · exact ⟨wrapI32_lt _, wrapI32_lt _⟩
    · exact hb
  · exact ha

end Rect

end Awtk

/-!
## The difference of rectangles

`rect_diff` cuts what is left of a rectangle into a strip above the other one, one at each side and
one below.  They are the strips of the boxes around their common part (`rectDiff_exact`).
-/

namespace Awtk

def rectIntersect (r1 r2 : Rect) : Rect :=
  let bottom1 := wrapI32 (wrapI32 (r1.y + r1.h) - 1)
  let bottom2 := wrapI32 (wrapI32 (r2.y + r2.h) - 1)
  let right1 := wrapI32 (wrapI32 (r1.x + r1.w) - 1)
  let right2 := wrapI32 (wrapI32 (r2.x + r2.w) - 1)
  let top := max r1.y r2.y
  let left := max r1.x r2.x
  let right := min right1 right2
  let bottom := min bottom1 bottom2
  ⟨left, top, if left ≤ right then wrapI32 (wrapI32 (right - left) + 1) else 0,
    if top ≤ bottom then wrapI32 (wrapI32 (bottom - top) + 1) else 0⟩

/-- `rect_diff`: what it returns and the four rectangles. -/
def rectDiff (r1 r2 : Rect) : Bool × List Rect :=
  let i := rectIntersect r1 r2
  if i.w = 0 ∨ i.h = 0 then (true, [r1, .zero, .zero, .zero])
  else if i = r1 then (false, [.zero, .zero, .zero, .zero])
  else
    let right1 := wrapI32 (wrapI32 (r1.x + r1.w) - 1)
    let right2 := wrapI32 (wrapI32 (r2.x + r2.w) - 1)
    let bottom1 := wrapI32 (wrapI32 (r1.y + r1.h) - 1)
    let bottom2 := wrapI32 (wrapI32 (r2.y + r2.h) - 1)
    (true,
      [⟨r1.x, r1.y, r1.w, max (wrapI32 (i.y - r1.y)) 0⟩,
        ⟨r1.x, i.y, max (wrapI32 (i.x - r1.x)) 0, i.h⟩,
        ⟨wrapI32 (i.x + i.w), i.y, max (wrapI32 (right1 - right2)) 0, i.h⟩,
        ⟨r1.x, wrapI32 (i.y + i.h), r1.w, max (wrapI32 (bottom1 - bottom2)) 0⟩])

namespace Rect

/-- A start and a length of type `int32_t`, the length not negative, whose last position and whose
end are of the type as well. -/
structure SideFits (start length : Int) : Prop where
  start_le : -2 ^ 31 ≤ start
  length_nonneg : 0 ≤ length
  length_lt : length < 2 ^ 31
  last_le : -2 ^ 31 ≤ start + length - 1
  end_lt : start + length < 2 ^ 31

/-- No edge of the rectangle overflows. -/
structure EdgesFit (r : Rect) : Prop where
  horizontal : SideFits r.x r.w
  vertical : SideFits r.y r.h

variable {r1 r2 : Rect}

/-! ## One direction -/

section

variable {x1 w1 x2 w2 : Int}

theorem SideFits.last_eq (h : SideFits x1 w1) : wrapI32 (wrapI32 (x1 + w1) - 1) = x1 + w1 - 1 := by
  obtain ⟨h1, h2, h3, h4, h5⟩ := h
  rw [wrapI32_eq (v := x1 + w1) (by omega) h5, wrapI32_eq h4 (by omega)]

theorem SideFits.common_eq (h1 : SideFits x1 w1) (h2 : SideFits x2 w2) :
    (if max x1 x2 ≤ min (x1 + w1 - 1) (x2 + w2 - 1) then
        wrapI32 (wrapI32 (min (x1 + w1 - 1) (x2 + w2 - 1) - max x1 x2) + 1) else 0) =
      max (min (x1 + w1) (x2 + w2) - max x1 x2) 0 := by
  obtain ⟨ha, hb, hc, hd, he⟩ := h1
  obtain ⟨ha', hb', hc', hd', he'⟩ := h2
  split_ifs with h
  · rw [wrapI32_eq (v := min (x1 + w1 - 1) (x2 + w2 - 1) - max x1 x2) (by omega) (by omega),
      wrapI32_eq (by omega) (by omega)]
    omega
  · omega

theorem SideFits.before_eq (h1 : SideFits x1 w1) (hm : max x1 x2 < min (x1 + w1) (x2 + w2)) :
    max (wrapI32 (max x1 x2 - x1)) 0 = max x1 x2 - x1 := by
  obtain ⟨ha, hb, hc, hd, he⟩ := h1
  rw [wrapI32_eq (by omega) (by omega)]
  omega

theorem SideFits.end_eq (h1 : SideFits x1 w1) (hm : max x1 x2 < min (x1 + w1) (x2 + w2)) :
    wrapI32 (max x1 x2 + (min (x1 + w1) (x2 + w2) - max x1 x2)) = min (x1 + w1) (x2 + w2) := by
  obtain ⟨ha, hb, hc, hd, he⟩ := h1
  rw [wrapI32_eq (by omega) (by omega)]
  omega

theorem SideFits.behind_eq (h1 : SideFits x1 w1) (h2 : SideFits x2 w2)
    (hm : max x1 x2 < min (x1 + w1) (x2 + w2)) :
    max (wrapI32 (x1 + w1 - 1 - (x2 + w2 - 1))) 0 = x1 + w1 - min (x1 + w1) (x2 + w2) := by
  obtain ⟨ha, hb, hc, hd, he⟩ := h1
  obtain ⟨ha', hb', hc', hd', he'⟩ := h2
  rw [wrapI32_eq (by omega) (by omega)]
  omega

end

/-- The rectangle of a box. -/
def ofBox (b : Box Int) : Rect := ⟨b.left, b.top, b.right - b.left, b.bottom - b.top⟩

@[simp] theorem box_ofBox (b : Box Int) : (ofBox b).box = b := by
  simp only [ofBox, box, add_sub_cancel]

theorem eq_iff {r r' : Rect} : r = r' ↔ r.x = r'.x ∧ r.y = r'.y ∧ r.w = r'.w ∧ r.h = r'.h := by
  cases r
  cases r'
  simp

theorem mem_box_zero (p : Int × Int) : p ∉ Rect.zero.box := fun h => by
  have := h.1.1.trans_lt h.1.2
  simp [Rect.zero, box] at this

/-! ## The common part -/

theorem intersect_eq (h1 : EdgesFit r1) (h2 : EdgesFit r2) :
    rectIntersect r1 r2 = ⟨max r1.x r2.x, max r1.y r2.y,
      max (min (r1.x + r1.w) (r2.x + r2.w) - max r1.x r2.x) 0,
      max (min (r1.y + r1.h) (r2.y + r2.h) - max r1.y r2.y) 0⟩ := by
  simp only [rectIntersect, h1.horizontal.last_eq, h1.vertical.last_eq, h2.horizontal.last_eq,
    h2.vertical.last_eq, h1.horizontal.common_eq h2.horizontal, h1.vertical.common_eq h2.vertical]

theorem empty_iff (h1 : EdgesFit r1) (h2 : EdgesFit r2) :
    ((rectIntersect r1 r2).w = 0 ∨ (rectIntersect r1 r2).h = 0) ↔
      ¬ (r1.box.inter r2.box).Solid := by
  simp only [intersect_eq h1 h2, Box.Solid, Box.inter, box]
  omega

theorem intersect_box (h1 : EdgesFit r1) (h2 : EdgesFit r2) (hi : (r1.box.inter r2.box).Solid) :
    rectIntersect r1 r2 = ofBox (r1.box.inter r2.box) := by
  obtain ⟨hx, hy⟩ := hi
  simp only [Box.inter, box] at hx hy
  rw [intersect_eq h1 h2]
  simp only [ofBox, Box.inter, box, Rect.mk.injEq, true_and]
  omega

/-! ## The strips -/

theorem diff_eq_strips (h1 : EdgesFit r1) (h2 : EdgesFit r2) (hi : (r1.box.inter r2.box).Solid)
    (hne : ofBox (r1.box.inter r2.box) ≠ r1) :
    rectDiff r1 r2 = (true, (r1.box.strips (r1.box.inter r2.box)).map ofBox) := by
  have hnot : ¬ ((rectIntersect r1 r2).w = 0 ∨ (rectIntersect r1 r2).h = 0) := by
    rw [empty_iff h1 h2, not_not]
    exact hi
  rw [rectDiff, if_neg hnot, intersect_box h1 h2 hi, if_neg hne]
  have hx : max r1.x r2.x < min (r1.x + r1.w) (r2.x + r2.w) := hi.1
  have hy : max r1.y r2.y < min (r1.y + r1.h) (r2.y + r2.h) := hi.2
  simp only [h1.horizontal.last_eq, h1.vertical.last_eq, h2.horizontal.last_eq,
    h2.vertical.last_eq, h1.horizontal.behind_eq h2.horizontal hx,
    h1.vertical.behind_eq h2.vertical hy, ofBox, Box.inter, box, Box.strips, List.map_cons,
    List.map_nil, h1.horizontal.before_eq hx, h1.vertical.before_eq hy, h1.horizontal.end_eq hx,
    h1.vertical.end_eq hy, add_sub_cancel_left]

/-! ## The difference -/

theorem diff_cases (h1 : EdgesFit r1) (h2 : EdgesFit r2) :
    (¬ (r1.box.inter r2.box).Solid ∧ rectDiff r1 r2 = (true, [r1, .zero, .zero, .zero])) ∨
    (r1.Solid ∧ r1.box.Within r2.box ∧
      rectDiff r1 r2 = (false, [.zero, .zero, .zero, .zero])) ∨
    ((r1.box.inter r2.box).Solid ∧ ¬ r1.box.Within r2.box ∧
      rectDiff r1 r2 = (true, (r1.box.strips (r1.box.inter r2.box)).map ofBox)) := by
  by_cases hi : (r1.box.inter r2.box).Solid
  · have hne : ¬ ((rectIntersect r1 r2).w = 0 ∨ (rectIntersect r1 r2).h = 0) := by
      rw [empty_iff h1 h2, not_not]
      exact hi
    have hin : ofBox (r1.box.inter r2.box) = r1 ↔ r1.box.Within r2.box := by
      obtain ⟨hx, hy⟩ := hi
      simp only [Box.inter, box] at hx hy
      rw [Rect.eq_iff]
      simp only [ofBox, Box.inter, box, Box.Within]
      omega
    by_cases hw : r1.box.Within r2.box
    · refine .inr (.inl ⟨?_, hw, ?_⟩)
      · rw [← box_solid]
        obtain ⟨p, hp⟩ := hi.exists_mem
        exact Box.solid_of_mem (Box.mem_inter.mp hp).1
      · rw [rectDiff, if_neg hne, intersect_box h1 h2 hi, if_pos (hin.mpr hw)]
    · exact .inr (.inr ⟨hi, hw, diff_eq_strips h1 h2 hi (mt hin.mp hw)⟩)
  · refine .inl ⟨hi, ?_⟩
    rw [rectDiff, if_pos ((empty_iff h1 h2).mpr hi)]

/-- `rect_diff` is false exactly for a rectangle with pixels that is inside of the other one, and else
its four rectangles are the pixels of the first one that are not in the second one, each once. -/
theorem rectDiff_exact (h1 : EdgesFit r1) (h2 : EdgesFit r2) :
    ((rectDiff r1 r2).1 = false ↔ r1.Solid ∧ ∀ p ∈ r1.box, p ∈ r2.box) ∧
    ((rectDiff r1 r2).1 = true →
      (rectDiff r1 r2).2.length = 4 ∧
      (∀ o ∈ (rectDiff r1 r2).2, 0 ≤ o.w ∧ 0 ≤ o.h) ∧
      (rectDiff r1 r2).2.Pairwise (fun o o' => ∀ p ∈ o.box, p ∉ o'.box) ∧
      ∀ p, (∃ o ∈ (rectDiff r1 r2).2, p ∈ o.box) ↔ p ∈ r1.box ∧ p ∉ r2.box) := by
  rcases diff_cases h1 h2 with ⟨hno, heq⟩ | ⟨hsolid, hin, heq⟩ | ⟨hi, hin, heq⟩
  · have hapart : ∀ p ∈ r1.box, p ∉ r2.box := fun p hp hp' => hno (Box.solid_inter_of_mem hp hp')
    rw [heq]
    refine ⟨⟨nofun, fun h => ?_⟩, fun _ => ⟨rfl, ?_, ?_, fun p => ?_⟩⟩
    · obtain ⟨p, hp⟩ := ((box_solid r1).mpr h.1).exists_mem
      exact absurd (h.2 p hp) (hapart p hp)
    · simpa [Rect.zero] using ⟨h1.horizontal.length_nonneg, h1.vertical.length_nonneg⟩
    · simp [mem_box_zero]
    · simp [mem_box_zero, and_iff_left_of_imp (hapart p)]
  · rw [heq]
    exact ⟨⟨fun _ => ⟨hsolid, fun p hp => hin.mem hp⟩, fun _ => rfl⟩, nofun⟩
  · have hwithin := Box.inter_within r1.box r2.box
    rw [heq]
    refine ⟨⟨nofun, fun h => ?_⟩, fun _ => ⟨rfl, ?_, ?_, fun p => ?_⟩⟩
    · exact absurd ((Box.within_iff ((box_solid r1).mpr h.1)).mpr h.2) hin
    · rw [List.forall_mem_map]
      intro s hs
      have := Box.strips_le hwithin hi hs
      simp only [ofBox]
      omega
    · rw [List.pairwise_map]
      simp only [box_ofBox]
      exact Box.strips_apart hi
    · simp only [List.mem_map, exists_exists_and_eq_and, box_ofBox, Box.mem_strips hwithin hi,
        Box.mem_inter]
      constructor
      · exact fun h => ⟨h.1, fun hp => h.2 ⟨h.1, hp⟩⟩
      · exact fun h => ⟨h.1, fun hp => h.2 hp.2⟩

theorem rectDiff_exact_frame :
    (rectDiff ⟨0, 0, 4, 4⟩ ⟨1, 1, 2, 2⟩).1 = true ∧
    ∀ p, (∃ o ∈ (rectDiff ⟨0, 0, 4, 4⟩ ⟨1, 1, 2, 2⟩).2, p ∈ o.box) ↔
      p ∈ (⟨0, 0, 4, 4⟩ : Rect).box ∧ p ∉ (⟨1, 1, 2, 2⟩ : Rect).box :=
  have h1 : EdgesFit ⟨0, 0, 4, 4⟩ := by constructor <;> constructor <;> simp
  have h2 : EdgesFit ⟨1, 1, 2, 2⟩ := by constructor <;> constructor <;> simp
  ⟨by decide, ((rectDiff_exact h1 h2).2 (by decide)).2.2.2⟩

end Rect

end Awtk
