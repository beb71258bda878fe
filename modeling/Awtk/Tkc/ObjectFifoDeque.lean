import Awtk.Lib.Run
import Awtk.Tkc.ObjectFifo

/-!
# The fifo object is a bounded deque

Runs of the operations on a fifo object.  The units of the fifo follow those of
the deque as long as `Fits` holds: `object_fifo_set` looks its position up after
it made room behind the last unit, so a write that drops units at the head goes
to the wrong place, and sums of `uint32_t` may wrap.
-/

namespace Awtk.ObjectFifo

open Ring Deque Runs List Option

/-- A call with the caller's data. -/
inductive Op where
  | npush (data : List UInt8) (nr : Nat)
  | npushHead (data : List UInt8) (nr : Nat)
  | npop (nr : Nat)
  | npopTail (nr : Nat)
  | set (index : Nat) (data : List UInt8) (nr : Nat)
  | clear

/-- One call, with what it returns. -/
def call (f : ObjectFifo) : Op → Option (Ret × ObjectFifo)
  | .npush data nr => f.npush (some data) nr
  | .npushHead data nr => f.npushHead data nr
  | .npop nr => some (f.npop nr)
  | .npopTail nr => some (f.npopTail nr)
  | .set index data nr => f.set index data nr
  | .clear => some f.clear

/-- One call as a step of the fifo. -/
def step (f : ObjectFifo) (op : Op) : Option ObjectFifo := (f.call op).map Prod.snd

/-- A call as an operation of the deque. -/
def Op.view (unitSize : Nat) : Op → Deque.Op (List UInt8)
  | .npush data nr => .npush (chunks unitSize nr data)
  | .npushHead data nr => .npushHead (chunks unitSize nr data)
  | .npop nr => .npop nr
  | .npopTail nr => .npopTail nr
  | .set index data nr => .set index (chunks unitSize nr data)
  | .clear => .clear

/-- What the caller promises: the numbers are `uint32_t`, and the data has `nr`
units. -/
def Op.Valid (unitSize : Nat) : Op → Prop
  | .npush data nr | .npushHead data nr => nr < 2 ^ 32 ∧ unitSize * nr ≤ data.length
  | .npop nr | .npopTail nr => nr < 2 ^ 32
  | .set index data nr => index < 2 ^ 32 ∧ nr < 2 ^ 32 ∧ unitSize * nr ≤ data.length
  | .clear => True

instance (unitSize : Nat) : ∀ op : Op, Decidable (op.Valid unitSize)
  | .npush .. | .npushHead .. | .set .. => inferInstanceAs (Decidable (_ ∧ _))
  | .npop _ | .npopTail _ => inferInstanceAs (Decidable (_ < _))
  | .clear => inferInstanceAs (Decidable True)

/-- The new size and the offset of the units that are skipped do not wrap, and a
write at a position of the fifo does not reach behind the capacity, unless it
replaces everything. -/
def Fits (f : ObjectFifo) : Op → Prop
  | .npush _ nr | .npushHead _ nr =>
    f.size + nr < 2 ^ 32 ∧ f.unitSize * (nr - f.capacity) < 2 ^ 32
  | .set index _ nr =>
    (index < f.size → nr < f.capacity → index + nr ≤ f.capacity) ∧
      f.unitSize * (nr - f.capacity) < 2 ^ 32
  | _ => True

instance (f : ObjectFifo) : ∀ op : Op, Decidable (f.Fits op)
  | .npush .. | .npushHead .. | .set .. => inferInstanceAs (Decidable (_ ∧ _))
  | .npop _ | .npopTail _ | .clear => inferInstanceAs (Decidable True)

/-- The fifo holds the elements of the deque, within its bounds. -/
def Follows (f : ObjectFifo) (capacity : Nat) (l : List (List UInt8)) : Prop :=
  f.contents = l.map some ∧ f.size ≤ capacity ∧ f.cursor < capacity

/-- Every state of the run follows the deque. -/
def Refines (f₀ : ObjectFifo) (ops : List Op) : Prop :=
  ∀ pre, pre <+: ops → ∃ f, Runs.run step f₀ pre = some f ∧
    Follows f f₀.capacity (Deque.run f₀.capacity [] (pre.map (·.view f₀.unitSize)))

/-- One call keeps the units of the fifo those of the deque. -/
theorem Ok.step {f : ObjectFifo} (h : Ok f) {op : Op} (hvalid : op.Valid f.unitSize)
    (hfits : f.Fits op) :
    ∃ f', f.step op = some f' ∧ Holding f f' (apply f.capacity f.units (op.view f.unitSize)) := by
  cases op with
  | npush data nr =>
    obtain ⟨f', hpush, h'⟩ := h.npush nr (some data) hfits.1 hfits.2 hvalid.2
    exact ⟨f', congrArg (Option.map Prod.snd) hpush, h'⟩
  | npushHead data nr =>
    obtain ⟨f', hpush, h'⟩ := h.npushHead hfits.1 hfits.2 hvalid.2
    exact ⟨f', congrArg (Option.map Prod.snd) hpush, h'⟩
  | npop nr => exact ⟨_, rfl, h.npop nr⟩
  | npopTail nr => exact ⟨_, rfl, h.npopTail nr⟩
  | clear => exact ⟨_, rfl, h.clear⟩
  | set index data nr =>
    by_cases hindex : index < f.size ∨ index = 0
    · have hroom : nr < f.capacity → index + nr ≤ f.capacity := by
        intro hlt
        cases hindex with
        | inl hin => exact hfits.1 hin hlt
        | inr hzero => omega
      obtain ⟨f', hset, h'⟩ := h.set index nr data hindex hvalid.2.1 hroom hfits.2 hvalid.2.2
      refine ⟨f', congrArg (Option.map Prod.snd) hset, h'.ok, h'.unitSize_eq, h'.capacity_eq, ?_⟩
      rw [h'.units_eq, Op.view, apply, units_length, if_pos hindex, chunks_length]
    · refine ⟨f, ?_, h, rfl, rfl, ?_⟩
      · rw [ObjectFifo.step, call, ObjectFifo.set, if_neg hindex]
        rfl
      · rw [Op.view, apply, units_length, if_neg hindex]

/-! ## Every run -/

/-- A fifo of the same kind, whose fields are in their bounds. -/
structure Sound (f f' : ObjectFifo) : Prop where
  ok : Ok f'
  unitSize_eq : f'.unitSize = f.unitSize
  capacity_eq : f'.capacity = f.capacity

theorem Sound.trans {f f' f'' : ObjectFifo} (h : Sound f f') (h' : Sound f' f'') : Sound f f'' :=
  ⟨h'.ok, h'.unitSize_eq.trans h.unitSize_eq, h'.capacity_eq.trans h.capacity_eq⟩

theorem Ok.sound {f : ObjectFifo} (h : Ok f) : Sound f f := ⟨h, rfl, rfl⟩

theorem put_sound {f f' : ObjectFifo} {o n : Nat} {data : Option (List UInt8)} (h : Ok f)
    (hput : f.put o data n = some f') : Sound f f' := by
  unfold put at hput
  split at hput
  · cases hput
  · cases data with
    | none =>
      cases hput
      exact ⟨⟨h.1, h.2, h.3, h.4, h.5, h.6⟩, rfl, rfl⟩
    | some bs =>
      simp only at hput
      split at hput
      · cases hput
      · cases hput
        exact ⟨⟨h.1, h.2, h.3, h.4, h.5, h.6⟩, rfl, rfl⟩

theorem putUnits_sound {f f' : ObjectFifo} {index nr : Nat} {data : Option (List UInt8)} (h : Ok f)
    (hput : f.putUnits index data nr = some f') : Sound f f' := by
  unfold ObjectFifo.putUnits at hput
  simp only at hput
  split at hput
  · exact put_sound h hput
  · obtain ⟨f₁, hput₁, hput⟩ := bind_eq_some_iff.mp hput
    have h₁ := put_sound h hput₁
    exact h₁.trans (put_sound h₁.ok hput)

theorem defaultSet_sound {f f' : ObjectFifo} {index nr : Nat} {data : Option (List UInt8)}
    (h : Ok f) (hset : f.defaultSet index data nr = some f') : Sound f f' := by
  unfold ObjectFifo.defaultSet at hset
  split at hset
  · exact putUnits_sound h hset
  · exact putUnits_sound h hset

theorem npush_sound {f : ObjectFifo} {nr : Nat} {data : Option (List UInt8)}
    {r : Ret × ObjectFifo} (h : Ok f) (hpush : f.npush data nr = some r) : Sound f r.2 := by
  unfold ObjectFifo.npush at hpush
  obtain ⟨f', hset, rfl⟩ := map_eq_some_iff.mp hpush
  have hpos : 0 < f.capacity := Nat.zero_lt_of_lt h.cursor_lt
  have hcursor : f.pushCursor nr < f.capacity := by
    unfold pushCursor
    split
    · exact Nat.mod_lt _ hpos
    · exact Nat.mod_lt _ hpos
  have h₁ : Sound f { f with size := min (U32.add f.size nr) f.capacity, cursor := f.pushCursor nr } :=
    ⟨⟨h.1, h.2, h.3, h.4, hcursor, Nat.min_le_right _ _⟩, rfl, rfl⟩
  exact h₁.trans (defaultSet_sound h₁.ok hset)

theorem set_sound {f : ObjectFifo} {index nr : Nat} {data : List UInt8}
    {r : Ret × ObjectFifo} (h : Ok f) (hset : f.set index data nr = some r) : Sound f r.2 := by
  have hclipped : ∀ {index nr : Nat} {data : List UInt8}, f.setClipped index data nr = some r →
      Sound f r.2 := by
    intro index nr data hset
    unfold setClipped at hset
    obtain ⟨f₁, hgrown, hset⟩ := bind_eq_some_iff.mp hset
    have h₁ : Sound f f₁ := by
      split at hgrown
      · obtain ⟨r', hpush, rfl⟩ := map_eq_some_iff.mp hgrown
        exact npush_sound h hpush
      · cases hgrown
        exact h.sound
    obtain ⟨f', hset', rfl⟩ := map_eq_some_iff.mp hset
    exact h₁.trans (defaultSet_sound h₁.ok hset')
  unfold ObjectFifo.set at hset
  split at hset
  · split at hset
    · exact hclipped hset
    · exact hclipped hset
  · cases hset
    exact h.sound

theorem Ok.step_sound {f f' : ObjectFifo} {op : Op} (h : Ok f) (hstep : f.step op = some f') :
    Sound f f' := by
  obtain ⟨r, hcall, rfl⟩ := map_eq_some_iff.mp hstep
  cases op with
  | npush data nr => exact npush_sound h hcall
  | npushHead data nr =>
    have h₁ : Sound f { f with size := min (U32.add f.size nr) f.capacity } :=
      ⟨⟨h.1, h.2, h.3, h.4, h.5, Nat.min_le_right _ _⟩, rfl, rfl⟩
    obtain ⟨r', hset, rfl⟩ := map_eq_some_iff.mp hcall
    have h₂ := set_sound h₁.ok hset
    exact h₁.trans h₂
  | npop nr =>
    cases hcall
    exact ⟨(h.npop nr).ok, (h.npop nr).unitSize_eq, (h.npop nr).capacity_eq⟩
  | npopTail nr =>
    cases hcall
    exact ⟨(h.npopTail nr).ok, (h.npopTail nr).unitSize_eq, (h.npopTail nr).capacity_eq⟩
  | set index data nr => exact set_sound h hcall
  | clear =>
    cases hcall
    exact ⟨h.clear.ok, h.clear.unitSize_eq, h.clear.capacity_eq⟩

theorem sound_after_run : ∀ {ops : List Op} {f f' : ObjectFifo}, Ok f →
    Runs.run step f ops = some f' → Sound f f'
  | [], f, _, h, hrun => by
    cases hrun
    exact h.sound
  | op :: ops, f, f', h, hrun => by
    rw [run_cons] at hrun
    obtain ⟨f₁, hstep, hrun⟩ := bind_eq_some_iff.mp hrun
    have h₁ := h.step_sound hstep
    exact h₁.trans (sound_after_run h₁.ok hrun)

/-! ## Runs that fit -/

theorem holding_of_run : ∀ {ops : List Op} {f : ObjectFifo}, Ok f →
    (∀ op ∈ ops, op.Valid f.unitSize) → Meets step Fits f ops →
    ∃ f', Runs.run step f ops = some f' ∧
      Holding f f' (Deque.run f.capacity f.units (ops.map (·.view f.unitSize)))
  | [], f, h, _, _ => ⟨f, rfl, h, rfl, rfl, rfl⟩
  | op :: ops, f, h, hvalid, hm => by
    obtain ⟨f₁, hstep, h₁⟩ := h.step (hvalid op mem_cons_self) hm.1
    obtain ⟨f', hrun, h'⟩ := holding_of_run h₁.ok
      (fun op' hop => h₁.unitSize_eq.symm ▸ hvalid op' (mem_cons_of_mem _ hop))
      (hm.2 f₁ hstep)
    refine ⟨f', by rw [run_cons, hstep, bind_some, hrun], h'.ok,
      h'.unitSize_eq.trans h₁.unitSize_eq, h'.capacity_eq.trans h₁.capacity_eq, ?_⟩
    rw [h'.units_eq, h₁.units_eq, h₁.unitSize_eq, h₁.capacity_eq]
    rfl

/-- Where every call fits, every state of a run of a new fifo follows the deque. -/
theorem refines_of_run (capacity unitSize : Nat) {f₀ : ObjectFifo} {ops : List Op}
    (hnew : create true capacity unitSize = some f₀) (hcap : capacity ≤ 2 ^ 31)
    (hbytes : unitSize * capacity < 2 ^ 32) (hvalid : ∀ op ∈ ops, op.Valid unitSize)
    (hm : Meets step Fits f₀ ops) : Refines f₀ ops := by
  obtain ⟨h₀, hcapacity, hunit⟩ := create_ok hnew hcap hbytes
  subst hcapacity hunit
  intro pre hpre
  obtain ⟨f, hrun, h⟩ := holding_of_run h₀.ok (fun op hop => hvalid op (hpre.subset hop))
    (hm.initial hpre)
  rw [h₀.units_eq] at h
  refine ⟨f, hrun, ?_, h.capacity_eq ▸ h.ok.size_le, h.capacity_eq ▸ h.ok.cursor_lt⟩
  rw [h.ok.contents_eq, h.units_eq]

/-- Units of two bytes in a ring of three. -/
theorem refines_of_run_short : ∃ f₀, create true 3 2 = some f₀ ∧
    Refines f₀ [.npush [1, 1, 2, 2] 2, .set 1 [3, 3, 4, 4] 2, .npushHead [5, 5] 1, .npopTail 1,
      .set 0 [6, 6, 7, 7, 8, 8, 9, 9] 4, .npop 2, .clear] :=
  ⟨_, rfl, refines_of_run 3 2 rfl (by decide) (by decide) (by decide +kernel) (by decide +kernel)⟩

/-- A write at position 2 of a full ring of 4 units drops one unit and then goes to
the wrong place. -/
theorem not_refines_set : ∃ f₀, create true 4 1 = some f₀ ∧
    (∀ op ∈ [Op.npush [1, 2, 3, 4] 4, .set 2 [7, 8, 9] 3], op.Valid 1) ∧
    ¬ Refines f₀ [.npush [1, 2, 3, 4] 4, .set 2 [7, 8, 9] 3] := by
  refine ⟨_, rfl, by decide +kernel, fun h => ?_⟩
  obtain ⟨f, hrun, hcontents, _⟩ := h _ (prefix_refl _)
  have hgot := congrArg (Option.map contents) hrun
  rw [map_some, hcontents] at hgot
  exact absurd hgot (by decide +kernel)

end Awtk.ObjectFifo

/-!
## Cloning a part of a fifo object

`object_fifo_default_part_clone` copies a range of units in one piece or in two.  The second piece is copied
from the clone onto itself, and so a range that reaches over the end of the ring is cloned only where the
units behind the end are cleared ones (`partClone_iff`).
-/

namespace Awtk.ObjectFifo

open Ring Deque

/-- The bytes that a `memcpy` reads from the buffer. -/
def read (f : ObjectFifo) (o n : Nat) : Option (List UInt8) :=
  if f.block < o + n then none else some (slice f.buffer o n)

/-- A `memcpy` of `n` bytes from byte `o` of a fifo's buffer to the start of the clone's. -/
def copyFrom (clone f : ObjectFifo) (o n : Nat) : Option ObjectFifo :=
  (f.read o n).bind fun bs => clone.put 0 (some bs) n

/-- `object_fifo_default_part_clone`; the inner `none` is NULL. -/
def defaultPartClone (alloc : Bool) (f : ObjectFifo) (index nr : Nat) : Option (Option ObjectFifo) :=
  match create alloc nr f.unitSize with
  | none => some none
  | some clone =>
    let start := U32.mul f.unitSize index
    let copied :=
      if U32.add index nr ≤ f.capacity then clone.copyFrom f start (U32.mul f.unitSize nr)
      else
        let part := U32.sub f.capacity index
        (clone.copyFrom f start (U32.mul f.unitSize part)).bind fun clone =>
          clone.copyFrom clone 0 (U32.mul f.unitSize (U32.sub nr part))
    copied.map fun clone => some { clone with size := nr, cursor := U32.sub nr 1 }

def isValid (f : ObjectFifo) (index : Nat) : Bool := index < f.size

def partClone (alloc : Bool) (f : ObjectFifo) (index nr : Nat) : Option (Option ObjectFifo) :=
  if f.isValid index ∧ f.isValid (U32.sub (U32.add index nr) 1) then
    defaultPartClone alloc f (f.toAbsIndex index) nr
  else some none

variable {f : ObjectFifo} {index nr : Nat}

/-- The clone has the units of the range. -/
def ClonesPart (f : ObjectFifo) (index nr : Nat) (clone : ObjectFifo) : Prop :=
  clone.size = nr ∧ ∀ i < nr, clone.get i = f.get (index + i)

/-- The range has units, and it ends in front of the end of the ring, or behind the end are cleared units. -/
structure Clonable (f : ObjectFifo) (index nr : Nat) : Prop where
  pos : 0 < nr
  rest : ∀ i < nr, f.capacity ≤ f.toAbsIndex index + i →
    f.get (index + i) = some (List.replicate f.unitSize 0)

theorem slice_units {α : Type*} (m : Nat → α) (u p : Nat) {n i : Nat} (hi : i < n) :
    ((slice m (u * p) (u * n)).drop (u * i)).take u = cells m u (p + i) := by
  have hle : u * i + u ≤ u * n := Nat.mul_le_mul_left u hi
  refine List.ext_getElem ?_ fun j h1 h2 => ?_
  · rw [List.length_take, List.length_drop, slice_length, cells, slice_length]
    omega
  · simp only [cells, slice, List.getElem_take, List.getElem_drop, List.getElem_map,
      List.getElem_range, Nat.mul_add, Nat.add_assoc]

theorem copyFrom_units (clone : ObjectFifo) (h : f.block = clone.unitSize * f.capacity) {p n : Nat}
    (hp : p + n ≤ f.capacity) (hblock : clone.unitSize * n ≤ clone.block) :
    ∃ m, clone.copyFrom f (clone.unitSize * p) (clone.unitSize * n) =
        some { clone with buffer := m } ∧
      cells m clone.unitSize = blit (cells clone.buffer clone.unitSize) 0
        ((List.range n).map fun i => cells f.buffer clone.unitSize (p + i)) := by
  have hin : ¬ f.block < clone.unitSize * p + clone.unitSize * n := by
    rw [h, ← Nat.mul_add]
    exact Nat.not_lt.mpr (Nat.mul_le_mul_left _ hp)
  have hblock' : clone.unitSize * 0 + clone.unitSize * n ≤ clone.block := by
    rw [Nat.mul_zero, Nat.zero_add]
    exact hblock
  have hholds : Holds (clone.unitSize * n)
      (some (slice f.buffer (clone.unitSize * p) (clone.unitSize * n))) := (slice_length ..).ge
  obtain ⟨m, hput, hcells⟩ := put_units hblock' hholds
  rw [Nat.mul_zero] at hput
  refine ⟨m, ?_, hcells.trans (congrArg _ (List.map_congr_left fun i hi => ?_))⟩
  · rw [copyFrom, read, if_neg hin, Option.bind_some, hput]
  · exact slice_units f.buffer clone.unitSize p (List.mem_range.mp hi)

theorem blit_range {α : Type*} (m : Nat → α) (n : Nat) (g : Nat → α) (j : Nat) :
    blit m 0 ((List.range n).map g) j = if j < n then g j else m j := by
  by_cases hj : j < n
  · have hlen : j < ((List.range n).map g).length := by simpa using hj
    have hin := blit_inside (m := m) (o := 0) hlen
    rw [Nat.zero_add] at hin
    rw [if_pos hj, hin, List.getElem_map, List.getElem_range]
  · rw [if_neg hj]
    exact blit_outside (.inr (by simpa using Nat.not_lt.mp hj))

/-- The buffer of a clone: the units up to the end of the ring, and behind them cleared ones. -/
theorem Ok.defaultPartClone (h : Ok f) {p : Nat} (hp : p < f.capacity) (hpos : 0 < nr)
    (hnr : nr ≤ f.capacity) :
    ∃ m, defaultPartClone true f p nr =
        some (some ⟨f.unitSize, nr, nr - 1, nr, f.unitSize * nr, m⟩) ∧
      ∀ j < nr, cells m f.unitSize j =
        if p + j < f.capacity then cells f.buffer f.unitSize (p + j)
        else List.replicate f.unitSize 0 := by
  have hcap := h.capacity_le
  have hbytes := h.mul_lt hnr
  have hnew : create true nr f.unitSize =
      some ⟨f.unitSize, nr, 0, 0, f.unitSize * nr, fun _ => 0⟩ := by
    rw [create, if_pos ⟨hpos, h.unitSize_pos, rfl⟩, U32.mul_of_lt hbytes]
  have hzero : ∀ j, cells (fun _ => (0 : UInt8)) f.unitSize j = List.replicate f.unitSize 0 := by
    intro j
    rw [cells, slice, List.map_const', List.length_range]
  rw [ObjectFifo.defaultPartClone, hnew]
  simp only [U32.mul_of_lt (h.mul_lt hp.le), U32.mul_of_lt hbytes,
    U32.add_of_lt (a := p) (b := nr) (by omega), U32.sub_of_le (a := nr) (b := 1) hpos (by omega)]
  by_cases hone : p + nr ≤ f.capacity
  · obtain ⟨m, hcopy, hcells⟩ := copyFrom_units
      ⟨f.unitSize, nr, 0, 0, f.unitSize * nr, fun _ => 0⟩ h.block_eq hone (Nat.le_refl _)
    simp only at hcopy hcells
    refine ⟨m, ?_, fun j hj => ?_⟩
    · rw [if_pos hone, hcopy]
      rfl
    · rw [hcells, blit_range, if_pos hj, if_pos (by omega)]
  · -- The first piece ends with the ring, and the second one is copied onto itself.
    obtain ⟨part, hpart⟩ := Nat.exists_eq_add_of_le hp.le
    obtain ⟨rest, rfl⟩ : ∃ rest, nr = part + rest := Nat.exists_eq_add_of_le (by omega)
    have hsub : U32.sub f.capacity p = part := by
      rw [U32.sub_of_le hp.le (by omega)]
      omega
    have hrest : U32.sub (part + rest) part = rest := by
      rw [U32.sub_of_le (Nat.le_add_right _ _) (by omega), Nat.add_sub_cancel_left]
    obtain ⟨m₁, hcopy₁, hcells₁⟩ := copyFrom_units
      ⟨f.unitSize, part + rest, 0, 0, f.unitSize * (part + rest), fun _ => 0⟩ h.block_eq
      hpart.ge (Nat.mul_le_mul_left _ (Nat.le_add_right _ _))
    obtain ⟨m₂, hcopy₂, hcells₂⟩ := copyFrom_units (p := 0) (n := rest)
      ⟨f.unitSize, part + rest, 0, 0, f.unitSize * (part + rest), m₁⟩
      (f := ⟨f.unitSize, part + rest, 0, 0, f.unitSize * (part + rest), m₁⟩) rfl
      (by rw [Nat.zero_add]; exact Nat.le_add_left _ _)
      (Nat.mul_le_mul_left _ (Nat.le_add_left _ _))
    simp only [Nat.mul_zero] at hcopy₁ hcells₁ hcopy₂ hcells₂
    refine ⟨m₂, ?_, fun j hj => ?_⟩
    · rw [if_neg hone, hsub, hrest, U32.mul_of_lt (h.mul_lt (by omega)),
        U32.mul_of_lt (h.mul_lt (by omega)), hcopy₁, Option.bind_some]
      simp only [hcopy₂]
      rfl
    · have hself : cells m₂ f.unitSize j = cells m₁ f.unitSize j := by
        rw [hcells₂, blit_range, Nat.zero_add, ite_self]
      rw [hself, hcells₁, blit_range, hzero]
      by_cases hjp : j < part
      · rw [if_pos hjp, if_pos (by omega)]
      · rw [if_neg hjp, if_neg (by omega)]

theorem clone_get {u : Nat} {m : Nat → UInt8} (hu : 0 < u) (hcap : nr ≤ 2 ^ 31)
    (hbytes : u * nr < 2 ^ 32) (hpos : 0 < nr) {i : Nat} (hi : i < nr) :
    get ⟨u, nr, nr - 1, nr, u * nr, m⟩ i = some (cells m u i) := by
  have hok : Ok ⟨u, nr, nr - 1, nr, u * nr, m⟩ :=
    ⟨hu, hcap, hbytes, rfl, by show nr - 1 < nr; omega, Nat.le_refl nr⟩
  have hhead : head ⟨u, nr, nr - 1, nr, u * nr, m⟩ = 0 := by
    show (nr - 1 + 1 + nr - nr) % nr = 0
    rw [Nat.sub_add_cancel hpos, Nat.add_sub_cancel, Nat.mod_self]
  have habs : toAbsIndex ⟨u, nr, nr - 1, nr, u * nr, m⟩ i = i := by
    rw [hok.toAbsIndex_eq hi, hhead, Nat.zero_add]
    exact Nat.mod_eq_of_lt hi
  rw [get, if_pos hi, habs, U32.mul_of_lt (hok.mul_lt hi.le)]
  rfl

theorem Ok.get_eq (h : Ok f) {i : Nat} (hi : index + i < f.size) :
    f.get (index + i) =
      some (cells f.buffer f.unitSize ((f.toAbsIndex index + i) % f.capacity)) := by
  have hlt := h.toAbsIndex_lt (index + i)
  have hindex : index < f.size := Nat.lt_of_le_of_lt (Nat.le_add_right _ _) hi
  rw [get, if_pos hi, U32.mul_of_lt (h.mul_lt hlt.le), h.toAbsIndex_eq hi, h.toAbsIndex_eq hindex,
    Nat.mod_add_mod, Nat.add_assoc]
  rfl

/-- A part is cloned exactly if the range is clonable. -/
theorem partClone_iff (capacity unitSize : Nat) {f₀ : ObjectFifo} {ops : List Op}
    (hnew : create true capacity unitSize = some f₀) (hcap : capacity ≤ 2 ^ 31)
    (hbytes : unitSize * capacity < 2 ^ 32) (hrun : Runs.run step f₀ ops = some f)
    (index nr : Nat) (hrange : index + nr ≤ f.size) :
    ∃ r, f.partClone true index nr = some r ∧
      ((∃ clone, r = some clone ∧ ClonesPart f index nr clone) ↔ Clonable f index nr) := by
  have h : Ok f := (sound_after_run (create_ok hnew hcap hbytes).1.ok hrun).ok
  have hsize := h.size_le
  have hmax := h.capacity_le
  by_cases hpos : 0 < nr
  · have hvalid : f.isValid index ∧ f.isValid (U32.sub (U32.add index nr) 1) := by
      rw [U32.add_of_lt (by omega), U32.sub_of_le (by omega) (by omega)]
      exact ⟨decide_eq_true (by omega), decide_eq_true (by omega)⟩
    obtain ⟨m, hclone, hcells⟩ := h.defaultPartClone (h.toAbsIndex_lt index) hpos (by omega)
    refine ⟨_, by rw [partClone, if_pos hvalid]; exact hclone, ?_⟩
    have hget : ∀ i < nr, get ⟨f.unitSize, nr, nr - 1, nr, f.unitSize * nr, m⟩ i =
        some (cells m f.unitSize i) := fun i hi =>
      clone_get h.unitSize_pos (by omega) (h.mul_lt (by omega)) hpos hi
    have hfront : ∀ i < nr, f.toAbsIndex index + i < f.capacity →
        f.get (index + i) = some (cells m f.unitSize i) := by
      intro i hi hlt
      rw [h.get_eq (by omega), Nat.mod_eq_of_lt hlt, hcells i hi, if_pos hlt]
    have hback : ∀ i < nr, f.capacity ≤ f.toAbsIndex index + i →
        cells m f.unitSize i = List.replicate f.unitSize 0 := by
      intro i hi hge
      rw [hcells i hi, if_neg (Nat.not_lt.mpr hge)]
    constructor
    · rintro ⟨clone, heq, -, hclones⟩
      cases heq
      refine ⟨hpos, fun i hi hge => ?_⟩
      rw [← hclones i hi, hget i hi, hback i hi hge]
    · intro hok
      refine ⟨_, rfl, rfl, fun i hi => ?_⟩
      rw [hget i hi]
      by_cases hlt : f.toAbsIndex index + i < f.capacity
      · exact (hfront i hi hlt).symm
      · rw [hback i hi (Nat.not_lt.mp hlt), hok.rest i hi (Nat.not_lt.mp hlt)]
  · refine ⟨none, ?_, fun hclones => ?_, fun hok => absurd hok.pos hpos⟩
    swap
    · obtain ⟨clone, heq, -⟩ := hclones
      cases heq
    obtain rfl : nr = 0 := by omega
    rw [partClone]
    split
    · rfl
    · rfl

/-- A range of a full ring of units of two bytes that ends with the ring. -/
theorem partClone_iff_straight : ∃ f₀ f r, create true 3 2 = some f₀ ∧
    Runs.run step f₀ [.npush [1, 1, 2, 2, 3, 3] 3] = some f ∧ f.partClone true 1 2 = some r ∧
    ((∃ clone, r = some clone ∧ ClonesPart f 1 2 clone) ↔ Clonable f 1 2) := by
  have hnew : create true 3 2 = some ⟨2, 3, 0, 0, 6, fun _ => 0⟩ := rfl
  have hrun : Runs.run step ⟨2, 3, 0, 0, 6, fun _ => 0⟩ [.npush [1, 1, 2, 2, 3, 3] 3] =
      some _ := rfl
  obtain ⟨r, hclone, hiff⟩ := partClone_iff 3 2 hnew (by decide) (by decide) hrun 1 2
    (by decide +kernel)
  exact ⟨_, _, r, hnew, hrun, hclone, hiff⟩

/-- A range that reaches over the end: 4 is behind it, and the clone has a cleared unit. -/
theorem partClone_over : ∃ f₀ f clone, create true 3 1 = some f₀ ∧
    Runs.run step f₀ [.npush [1, 2, 3] 3, .npush [4] 1] = some f ∧
    f.partClone true 1 2 = some (some clone) ∧
    f.get 2 = some [4] ∧ clone.contents = [some [3], some [0]] ∧ ¬ ClonesPart f 1 2 clone := by
  refine ⟨_, _, _, rfl, rfl, rfl, by decide +kernel, by decide +kernel, fun hclones => ?_⟩
  exact absurd (hclones.2 1 (by decide)) (by decide +kernel)

end Awtk.ObjectFifo
