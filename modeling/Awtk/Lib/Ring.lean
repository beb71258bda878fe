import Mathlib

/-!
# Windows of a circular memory

A memory is a function from cells to contents.  `window m cap r n` reads `n`
cells from cell `r`, wrapping at `cap`.  `slice m o n` reads without wrapping
and `blit m o bs` writes without wrapping.  A wrapped write is described by
`Filled`, which says which cells hold the new contents and that the others are
unchanged, so it does not matter in how many pieces the write was done.  A
memory whose cells hold several contents each is read through `cells`, and
`chunks` cuts a list the same way.
-/

namespace Ring

open Function List

variable {α : Type*}

/-! ## Wrapping arithmetic -/

theorem add_mod_eq {a b cap : Nat} (ha : a < cap) (hb : b ≤ cap) :
    (a + b) % cap = if a + b < cap then a + b else a + b - cap := by
  split_ifs with h
  · rw [Nat.mod_eq_of_lt h]
  · rw [Nat.mod_eq_sub_mod (by omega), Nat.mod_eq_of_lt (by omega)]

theorem add_mod_inj {r i j cap : Nat} (hr : r < cap) (hi : i < cap) (hj : j < cap)
    (h : (r + i) % cap = (r + j) % cap) : i = j := by
  rw [add_mod_eq hr hi.le, add_mod_eq hr hj.le] at h
  split at h <;> split at h <;> omega

/-! ## Reading -/

/-- `n` cells from cell `o`, without wrapping. -/
def slice (m : Nat → α) (o n : Nat) : List α := (List.range n).map fun i => m (o + i)

/-- `n` cells from cell `r`, wrapping at `cap`. -/
def window (m : Nat → α) (cap r n : Nat) : List α :=
  (List.range n).map fun i => m ((r + i) % cap)

@[simp] theorem slice_length (m : Nat → α) (o n : Nat) : (slice m o n).length = n := by
  simp [slice]

@[simp] theorem window_length (m : Nat → α) (cap r n : Nat) :
    (window m cap r n).length = n := by
  simp [window]

@[simp] theorem window_zero (m : Nat → α) (cap r : Nat) : window m cap r 0 = [] := rfl

theorem slice_eq_window {m : Nat → α} {cap o n : Nat} (h : o + n ≤ cap) :
    slice m o n = window m cap o n := by
  refine map_congr_left fun i hi => ?_
  rw [Nat.mod_eq_of_lt]
  have := mem_range.mp hi
  omega

theorem slice_add (m : Nat → α) (o n k : Nat) :
    slice m o (n + k) = slice m o n ++ slice m (o + n) k := by
  simp only [slice, range_add, map_append, List.map_map, comp_def, Nat.add_assoc]

theorem window_add (m : Nat → α) (cap r k n : Nat) :
    window m cap r (k + n) = window m cap r k ++ window m cap ((r + k) % cap) n := by
  have hshift (i : Nat) : (r + (k + i)) % cap = ((r + k) % cap + i) % cap := by
    rw [Nat.mod_add_mod, Nat.add_assoc]
  simp only [window, range_add, map_append, List.map_map, comp_def, hshift]

theorem window_take {m : Nat → α} {cap r k n : Nat} (h : k ≤ n) :
    (window m cap r n).take k = window m cap r k := by
  obtain ⟨d, rfl⟩ := Nat.exists_eq_add_of_le h
  rw [window_add, take_left' (window_length ..)]

theorem window_drop {m : Nat → α} {cap r k n : Nat} (h : k ≤ n) :
    (window m cap r n).drop k = window m cap ((r + k) % cap) (n - k) := by
  obtain ⟨d, rfl⟩ := Nat.exists_eq_add_of_le h
  rw [window_add, drop_left' (window_length ..), Nat.add_sub_cancel_left]

theorem window_congr {m m' : Nat → α} {cap r n : Nat}
    (h : ∀ i < n, m ((r + i) % cap) = m' ((r + i) % cap)) :
    window m cap r n = window m' cap r n :=
  map_congr_left fun i hi => h i (mem_range.mp hi)

/-! ## Writing -/

/-- Write `bs` from cell `o` on, without wrapping. -/
def blit (m : Nat → α) (o : Nat) (bs : List α) : Nat → α := fun p =>
  if o ≤ p then (bs[p - o]?).getD (m p) else m p

theorem blit_inside {m : Nat → α} {o i : Nat} {bs : List α} (h : i < bs.length) :
    blit m o bs (o + i) = bs[i] := by
  simp [blit, h]

theorem blit_outside {m : Nat → α} {o p : Nat} {bs : List α} (h : p < o ∨ o + bs.length ≤ p) :
    blit m o bs p = m p := by
  unfold blit
  split
  · rw [getElem?_eq_none (by omega), Option.getD_none]
  · rfl

theorem slice_blit (m : Nat → α) (o : Nat) (bs : List α) :
    slice (blit m o bs) o bs.length = bs := by
  refine ext_getElem (slice_length ..) fun i h1 h2 => ?_
  simp only [slice, getElem_map, getElem_range]
  exact blit_inside h2

theorem blit_congr {m m' : Nat → α} {o : Nat} {bs : List α}
    (h : ∀ p, p < o ∨ o + bs.length ≤ p → m p = m' p) : blit m o bs = blit m' o bs := by
  funext p
  by_cases hp : p < o ∨ o + bs.length ≤ p
  · rw [blit_outside hp, blit_outside hp, h p hp]
  · obtain ⟨i, rfl⟩ := Nat.exists_eq_add_of_le (Nat.le_of_not_lt fun hlt => hp (.inl hlt))
    have hi : i < bs.length := by omega
    rw [blit_inside hi, blit_inside hi]

theorem blit_append (m : Nat → α) (o : Nat) (bs cs : List α) :
    blit m o (bs ++ cs) = blit (blit m (o + bs.length) cs) o bs := by
  funext p
  by_cases hlt : p < o
  · rw [blit_outside (.inl hlt), blit_outside (.inl hlt), blit_outside (.inl (by omega))]
  · obtain ⟨i, rfl⟩ := Nat.exists_eq_add_of_le (Nat.le_of_not_lt hlt)
    by_cases hi : i < bs.length
    · rw [blit_inside hi, blit_inside (by simp; omega), getElem_append_left hi]
    · have hfirst : blit (blit m (o + bs.length) cs) o bs (o + i) =
          blit m (o + bs.length) cs (o + i) := blit_outside (.inr (by omega))
      rw [hfirst]
      obtain ⟨j, rfl⟩ := Nat.exists_eq_add_of_le (Nat.le_of_not_lt hi)
      rw [← Nat.add_assoc o]
      by_cases hj : j < cs.length
      · rw [blit_inside hj, Nat.add_assoc, blit_inside (by simp; omega)]
        simp
      · have hnone : o + bs.length + cs.length ≤ o + bs.length + j := by omega
        rw [blit_outside (.inr hnone), blit_outside (.inr (by simp; omega))]

/-- `m'` is `m` with `bs` written from cell `w` on, wrapping at `cap`. -/
structure Filled (m m' : Nat → α) (cap w : Nat) (bs : List α) : Prop where
  /-- The cells of the write hold the new contents. -/
  written : ∀ i (h : i < bs.length), m' ((w + i) % cap) = bs[i]
  /-- Every other cell below the capacity is unchanged. -/
  frame : ∀ p < cap, (∀ i < bs.length, p ≠ (w + i) % cap) → m' p = m p

theorem filled_blit {m : Nat → α} {cap w : Nat} {bs : List α} (h : w + bs.length ≤ cap) :
    Filled m (blit m w bs) cap w bs where
  written i hi := by
    rw [Nat.mod_eq_of_lt (by omega)]
    exact blit_inside hi
  frame p _ hne := by
    refine blit_outside ?_
    by_contra hin
    have := hne (p - w) (by omega)
    rw [Nat.mod_eq_of_lt (by omega)] at this
    omega

theorem filled_blit_wrap {m : Nat → α} {cap w : Nat} {bs cs : List α} (hw : w < cap)
    (hbs : w + bs.length = cap) (hcs : cs.length ≤ w) :
    Filled m (blit (blit m w bs) 0 cs) cap w (bs ++ cs) where
  written i hi := by
    rw [length_append] at hi
    rw [add_mod_eq hw (by omega)]
    by_cases h : i < bs.length
    · rw [if_pos (by omega), blit_outside (by omega), blit_inside h, getElem_append_left h]
    · rw [if_neg (by omega), getElem_append_right (by omega)]
      have : blit (blit m w bs) 0 cs (0 + (i - bs.length)) = cs[i - bs.length] :=
        blit_inside (by omega)
      rw [← this]
      congr 1
      omega
  frame p hp hne := by
    have hcell : ∀ i < bs.length + cs.length,
        p ≠ if w + i < cap then w + i else w + i - cap := by
      intro i hi
      have := hne i (by rw [length_append]; exact hi)
      rwa [add_mod_eq hw (by omega)] at this
    have hlow : ¬ p < cs.length := by
      intro hlt
      have := hcell (bs.length + p) (by omega)
      rw [if_neg (by omega)] at this
      omega
    have hhigh : p < w := by
      by_contra hge
      have := hcell (p - w) (by omega)
      rw [if_pos (by omega)] at this
      omega
    rw [blit_outside (by omega), blit_outside (by omega)]

theorem Filled.window {m m' : Nat → α} {cap r n : Nat} {bs : List α} (hr : r < cap)
    (hroom : n + bs.length ≤ cap) (hf : Filled m m' cap ((r + n) % cap) bs) :
    window m' cap r (n + bs.length) = Ring.window m cap r n ++ bs := by
  rw [window_add]
  congr 1
  · refine window_congr fun i hi => hf.frame _ (Nat.mod_lt _ (by omega)) fun j hj heq => ?_
    have hij : (r + i) % cap = (r + (n + j)) % cap := by
      rw [heq, Nat.mod_add_mod, Nat.add_assoc]
    have := add_mod_inj hr (by omega) (by omega) hij
    omega
  · refine ext_getElem (window_length ..) fun i h1 h2 => ?_
    simp only [Ring.window, getElem_map, getElem_range]
    exact hf.written i h2

theorem Filled.nil {m m' : Nat → α} {cap w : Nat} (hf : Filled m m' cap w []) (r : Nat) {n : Nat}
    (hn : n ≤ cap) : Ring.window m' cap r n = Ring.window m cap r n :=
  window_congr fun _ hi => hf.frame _ (Nat.mod_lt _ (by omega)) fun _ hj => absurd hj (by simp)

theorem Filled.overwrite {m m' : Nat → α} {cap r n i : Nat} {bs : List α} (hr : r < cap)
    (hn : n ≤ cap) (hi : i + bs.length ≤ n) (hf : Filled m m' cap ((r + i) % cap) bs) :
    Ring.window m' cap r n =
      (Ring.window m cap r n).take i ++ bs ++ (Ring.window m cap r n).drop (i + bs.length) := by
  obtain ⟨k, rfl⟩ := Nat.exists_eq_add_of_le hi
  rw [window_take (by omega), window_drop (by omega), window_add,
    hf.window hr (by omega), Nat.add_sub_cancel_left]
  congr 1
  refine window_congr fun j hj => hf.frame _ (Nat.mod_lt _ (by omega)) fun l hl heq => ?_
  have hjl : (r + (i + bs.length + j)) % cap = (r + (i + l)) % cap := by
    rw [← Nat.add_assoc, ← Nat.mod_add_mod, heq, Nat.mod_add_mod, Nat.add_assoc]
  have := add_mod_inj hr (by omega) (by omega) hjl
  omega

/-! ## Cells of several contents -/

/-- The cells of `u` contents each. -/
def cells (m : Nat → α) (u : Nat) : Nat → List α := fun p => slice m (u * p) u

/-- The first `n` pieces of `u` elements each. -/
def chunks (u n : Nat) (bs : List α) : List (List α) :=
  (List.range n).map fun i => (bs.drop (u * i)).take u

@[simp] theorem chunks_length (u n : Nat) (bs : List α) : (chunks u n bs).length = n := by
  simp [chunks]

theorem chunks_add (u k n : Nat) (bs : List α) :
    chunks u (k + n) bs = chunks u k bs ++ chunks u n (bs.drop (u * k)) := by
  simp only [chunks, range_add, map_append, List.map_map, comp_def,
    drop_drop, Nat.mul_add]

theorem chunks_take (u n : Nat) (bs : List α) : chunks u n (bs.take (u * n)) = chunks u n bs := by
  refine map_congr_left fun i hi => ?_
  have hle : u * i + u ≤ u * n := Nat.mul_le_mul_left u (mem_range.mp hi)
  rw [drop_take, take_take, Nat.min_eq_left (by omega)]

theorem slice_blit_inside {m : Nat → α} {o k n : Nat} {bs : List α} (h : k + n ≤ bs.length) :
    slice (blit m o bs) (o + k) n = (bs.drop k).take n := by
  refine ext_getElem ?_ fun i h1 h2 => ?_
  · rw [slice_length, length_take, length_drop]
    omega
  · rw [slice_length] at h1
    have hin : blit m o bs (o + (k + i)) = bs[k + i] := blit_inside (by omega)
    simp only [slice, getElem_map, getElem_range, getElem_take, getElem_drop]
    rw [Nat.add_assoc, hin]

theorem slice_blit_outside {m : Nat → α} {o o' n : Nat} {bs : List α}
    (h : o' + n ≤ o ∨ o + bs.length ≤ o') : slice (blit m o bs) o' n = slice m o' n := by
  refine map_congr_left fun i hi => blit_outside ?_
  have := mem_range.mp hi
  omega

theorem cells_blit {m : Nat → α} {u p n : Nat} {bs : List α} (h : bs.length = u * n) :
    cells (blit m (u * p) bs) u = blit (cells m u) p (chunks u n bs) := by
  funext q
  by_cases hq : p ≤ q ∧ q < p + n
  · obtain ⟨k, rfl⟩ := Nat.exists_eq_add_of_le hq.1
    have hk : k < n := by omega
    have hle : u * k + u ≤ u * n := Nat.mul_le_mul_left u hk
    rw [blit_inside (by rw [chunks_length]; exact hk), cells, Nat.mul_add,
      slice_blit_inside (by omega)]
    simp only [chunks, getElem_map, getElem_range]
  · rw [blit_outside (by rw [chunks_length]; omega), cells, cells]
    refine slice_blit_outside ?_
    rw [h]
    have hlt : q < p ∨ p + n ≤ q := by omega
    cases hlt with
    | inl hlt => exact .inl (Nat.mul_le_mul_left u hlt)
    | inr hge => exact .inr (Nat.mul_add u p n ▸ Nat.mul_le_mul_left u hge)

end Ring
