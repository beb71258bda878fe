import Awtk.Lib.Ring
import Awtk.Lib.RingQueue
import Awtk.Tkc.Types

/-!
# The fifo object

A model of `object_fifo.c` over `object_fifo_default.c`, for a fifo no listener
is attached to: every dispatched event then returns `RET_OK`.  The sums are sums
of `uint32_t`, and so is the number of bytes that is allocated.  A copy from
behind the caller's data or into what lies behind the block has no defined
result.

`Ok.defaultSet` says once what a write does to the units of the ring; everything
else about the contents is derived from it.
-/

namespace Awtk

open Ring Deque List

/-- `object_fifo_default_t`.  `block` is the number of bytes `buffer` was
allocated with. -/
structure ObjectFifo where
  unitSize : Nat
  capacity : Nat
  cursor : Nat
  size : Nat
  block : Nat
  buffer : Nat → UInt8

namespace ObjectFifo

/-! ## The operations -/

def create (alloc : Bool) (capacity unitSize : Nat) : Option ObjectFifo :=
  if 0 < capacity ∧ 0 < unitSize ∧ alloc = true then
    some {
      unitSize, capacity, cursor := 0, size := 0
      block := U32.mul unitSize capacity
      buffer := fun _ => 0 }
  else none

def toAbsIndex (f : ObjectFifo) (index : Nat) : Nat :=
  U32.add (U32.add (U32.add (U32.sub f.cursor f.size) 1) f.capacity) index % f.capacity

/-- `object_fifo_get`: the unit the pointer it returns leads to, or NULL. -/
def get (f : ObjectFifo) (index : Nat) : Option (List UInt8) :=
  if index < f.size then
    some (slice f.buffer (U32.mul f.unitSize (f.toAbsIndex index)) f.unitSize)
  else none

/-- A `memcpy` of `n` bytes from `data` to byte `o` of the buffer, a `memset` where
`data` is NULL. -/
def put (f : ObjectFifo) (o : Nat) (data : Option (List UInt8)) (n : Nat) : Option ObjectFifo :=
  if f.block < o + n then none
  else
    match data with
    | none => some { f with buffer := blit f.buffer o (List.replicate n 0) }
    | some bs =>
      if bs.length < n then none else some { f with buffer := blit f.buffer o (bs.take n) }

/-- The second half of `object_fifo_default_set`, for at most `capacity` units. -/
def putUnits (f : ObjectFifo) (index : Nat) (data : Option (List UInt8)) (nr : Nat) :
    Option ObjectFifo :=
  let elem := U32.mul f.unitSize index
  if U32.add index nr ≤ f.capacity then f.put elem data (U32.mul f.unitSize nr)
  else
    let part := U32.sub f.capacity index
    (f.put elem data (U32.mul f.unitSize part)).bind fun f =>
      f.put 0 (data.map (·.drop (U32.mul f.unitSize part)))
        (U32.mul f.unitSize (U32.sub nr part))

/-- `object_fifo_default_set`, which always returns `RET_OK`. -/
def defaultSet (f : ObjectFifo) (index : Nat) (data : Option (List UInt8)) (nr : Nat) :
    Option ObjectFifo :=
  if f.capacity < nr then
    f.putUnits index (data.map (·.drop (U32.mul (U32.sub nr f.capacity) f.unitSize))) f.capacity
  else f.putUnits index data nr

/-- The cursor `object_fifo_npush` computes. -/
def pushCursor (f : ObjectFifo) (nr : Nat) : Nat :=
  if f.size ≠ 0 then U32.add f.cursor nr % f.capacity
  else U32.sub (U32.add f.cursor nr) 1 % f.capacity

def npush (f : ObjectFifo) (data : Option (List UInt8)) (nr : Nat) : Option (Ret × ObjectFifo) :=
  let cursor := f.pushCursor nr
  let f := { f with size := min (U32.add f.size nr) f.capacity, cursor }
  let headIndex :=
    U32.add (U32.add (U32.sub cursor (min nr f.capacity)) 1) f.capacity % f.capacity
  (f.defaultSet headIndex data nr).map (.ok, ·)

/-- `object_fifo_set` behind the clipping of the data. -/
def setClipped (f : ObjectFifo) (index : Nat) (data : List UInt8) (nr : Nat) :
    Option (Ret × ObjectFifo) :=
  let grown :=
    if f.size < U32.add index nr then
      (f.npush none (U32.sub (U32.add index nr) f.size)).map (·.2)
    else some f
  grown.bind fun f => (f.defaultSet (f.toAbsIndex index) (some data) nr).map (.ok, ·)

/-- `object_fifo_set`. -/
def set (f : ObjectFifo) (index : Nat) (data : List UInt8) (nr : Nat) :
    Option (Ret × ObjectFifo) :=
  if index < f.size ∨ index = 0 then
    if f.capacity ≤ nr then
      f.setClipped 0 (data.drop (U32.mul f.unitSize (U32.sub nr f.capacity))) f.capacity
    else f.setClipped index data nr
  else some (.badParams, f)

/-- `object_fifo_npush_head`, which does not look at what `object_fifo_set`
returns. -/
def npushHead (f : ObjectFifo) (data : List UInt8) (nr : Nat) : Option (Ret × ObjectFifo) :=
  let f := { f with size := min (U32.add f.size nr) f.capacity }
  (f.set 0 data nr).map fun res => (.ok, res.2)

def npop (f : ObjectFifo) (nr : Nat) : Ret × ObjectFifo :=
  if 0 < nr ∧ nr ≤ f.size then (.ok, { f with size := f.size - nr }) else (.badParams, f)

def npopTail (f : ObjectFifo) (nr : Nat) : Ret × ObjectFifo :=
  if 0 < nr ∧ nr ≤ f.size then
    let size := f.size - nr
    let cursor :=
      if 0 < size then U32.add (U32.sub f.cursor nr) f.capacity % f.capacity else 0
    (.ok, { f with size, cursor })
  else (.badParams, f)

def clear (f : ObjectFifo) : Ret × ObjectFifo :=
  if f.size = 0 then (.ok, f) else (.ok, { f with size := 0, cursor := 0 })

/-- `object_fifo_get` at every position below the size. -/
def contents (f : ObjectFifo) : List (Option (List UInt8)) := (List.range f.size).map f.get

/-! ## The ring of units -/

/-- The fields fit each other, and no sum of two positions wraps. -/
structure Ok (f : ObjectFifo) : Prop where
  unitSize_pos : 0 < f.unitSize
  capacity_le : f.capacity ≤ 2 ^ 31
  bytes_lt : f.unitSize * f.capacity < 2 ^ 32
  block_eq : f.block = f.unitSize * f.capacity
  cursor_lt : f.cursor < f.capacity
  size_le : f.size ≤ f.capacity

/-- The position of the oldest unit. -/
def head (f : ObjectFifo) : Nat := (f.cursor + 1 + f.capacity - f.size) % f.capacity

/-- The units of the fifo, the oldest one first. -/
def units (f : ObjectFifo) : List (List UInt8) :=
  window (cells f.buffer f.unitSize) f.capacity f.head f.size

/-- The units the caller hands in; NULL stands for cleared units. -/
def dataUnits (unitSize nr : Nat) : Option (List UInt8) → List (List UInt8)
  | none => List.replicate nr (List.replicate unitSize 0)
  | some bs => chunks unitSize nr bs

/-- The data has `n` bytes, where there is data. -/
def Holds (n : Nat) : Option (List UInt8) → Prop
  | none => True
  | some bs => n ≤ bs.length

variable {f : ObjectFifo}

@[simp] theorem units_length (f : ObjectFifo) : f.units.length = f.size := window_length ..

@[simp] theorem dataUnits_length (unitSize nr : Nat) (data : Option (List UInt8)) :
    (dataUnits unitSize nr data).length = nr := by
  cases data with
  | none => exact length_replicate
  | some bs => exact chunks_length ..

theorem dataUnits_add (u k n : Nat) (data : Option (List UInt8)) :
    dataUnits u (k + n) data = dataUnits u k data ++ dataUnits u n (data.map (·.drop (u * k))) := by
  cases data with
  | none => exact replicate_add ..
  | some bs => exact chunks_add ..

theorem Holds.drop {u k n : Nat} {data : Option (List UInt8)} (h : Holds (u * (k + n)) data) :
    Holds (u * n) (data.map (·.drop (u * k))) := by
  cases data with
  | none => trivial
  | some bs =>
    have hle : u * (k + n) ≤ bs.length := h
    show u * n ≤ (bs.drop (u * k)).length
    rw [length_drop]
    rw [Nat.mul_add] at hle
    omega

theorem Holds.mono {m n : Nat} {data : Option (List UInt8)} (h : Holds n data) (hle : m ≤ n) :
    Holds m data := by
  cases data with
  | none => trivial
  | some bs => exact hle.trans h

theorem chunks_replicate (u n : Nat) :
    chunks u n (List.replicate (u * n) (0 : UInt8)) = List.replicate n (List.replicate u 0) := by
  refine ext_getElem (by simp) fun i h1 h2 => ?_
  rw [chunks_length] at h1
  have hle : u * i + u ≤ u * n := Nat.mul_le_mul_left u h1
  simp only [chunks, getElem_map, getElem_range, getElem_replicate,
    drop_replicate, take_replicate]
  congr 1
  omega

theorem put_units {p n : Nat} {data : Option (List UInt8)}
    (hblock : f.unitSize * p + f.unitSize * n ≤ f.block) (hdata : Holds (f.unitSize * n) data) :
    ∃ m, f.put (f.unitSize * p) data (f.unitSize * n) = some { f with buffer := m } ∧
      cells m f.unitSize = blit (cells f.buffer f.unitSize) p (dataUnits f.unitSize n data) := by
  unfold put
  rw [if_neg (by omega)]
  cases data with
  | none =>
    refine ⟨_, rfl, ?_⟩
    rw [cells_blit length_replicate, chunks_replicate]
    rfl
  | some bs =>
    have hle : f.unitSize * n ≤ bs.length := hdata
    refine ⟨_, if_neg (by omega), ?_⟩
    rw [cells_blit (length_take_of_le hle), chunks_take]
    rfl

theorem Ok.mul_lt (h : Ok f) {n : Nat} (hn : n ≤ f.capacity) : f.unitSize * n < 2 ^ 32 :=
  Nat.lt_of_le_of_lt (Nat.mul_le_mul_left _ hn) h.bytes_lt

/-- A write of units that fit the ring, in one piece or in two. -/
theorem Ok.putUnits (h : Ok f) {index nr : Nat} {data : Option (List UInt8)}
    (hindex : index < f.capacity) (hnr : nr ≤ f.capacity) (hdata : Holds (f.unitSize * nr) data) :
    ∃ m, f.putUnits index data nr = some { f with buffer := m } ∧
      Filled (cells f.buffer f.unitSize) (cells m f.unitSize) f.capacity index
        (dataUnits f.unitSize nr data) := by
  have hcap := h.capacity_le
  unfold ObjectFifo.putUnits
  rw [U32.mul_of_lt (h.mul_lt hindex.le), U32.add_of_lt (by omega), U32.mul_of_lt (h.mul_lt hnr)]
  by_cases hone : index + nr ≤ f.capacity
  · have hblock : f.unitSize * index + f.unitSize * nr ≤ f.block := by
      rw [h.block_eq, ← Nat.mul_add]
      exact Nat.mul_le_mul_left _ hone
    obtain ⟨m, hput, hcells⟩ := put_units hblock hdata
    refine ⟨m, by rw [if_pos hone]; exact hput, ?_⟩
    rw [hcells]
    exact filled_blit (by rw [dataUnits_length]; exact hone)
  · -- the first piece ends with the ring, the second one starts at cell 0
    obtain ⟨part, hpart⟩ := Nat.exists_eq_add_of_le hindex.le
    obtain ⟨rest, rfl⟩ : ∃ rest, nr = part + rest := Nat.exists_eq_add_of_le (by omega)
    have hsub : U32.sub f.capacity index = part := by
      rw [U32.sub_of_le hindex.le (by omega)]
      omega
    have hblock : f.unitSize * index + f.unitSize * part ≤ f.block := by
      rw [h.block_eq, ← Nat.mul_add, hpart]
    obtain ⟨m₁, hput₁, hcells₁⟩ := put_units hblock
      (hdata.mono (Nat.mul_le_mul_left _ (Nat.le_add_right part rest)))
    have hblock₂ : f.unitSize * 0 + f.unitSize * rest ≤ f.block := by
      rw [h.block_eq, ← Nat.mul_add]
      exact Nat.mul_le_mul_left _ (by omega)
    obtain ⟨m₂, hput₂, hcells₂⟩ :=
      put_units (f := { f with buffer := m₁ }) hblock₂ hdata.drop
    refine ⟨m₂, ?_, ?_⟩
    · rw [if_neg hone, hsub]
      dsimp only
      rw [U32.mul_of_lt (h.mul_lt (by omega)), hput₁, Option.bind_some]
      dsimp only
      rw [U32.mul_of_lt (h.mul_lt (by omega)),
        U32.sub_of_le (Nat.le_add_right part rest) (by omega), Nat.add_sub_cancel_left,
        U32.mul_of_lt (h.mul_lt (by omega))]
      exact hput₂
    · rw [hcells₂, hcells₁, dataUnits_add]
      exact filled_blit_wrap hindex (by rw [dataUnits_length]; omega)
        (by rw [dataUnits_length]; omega)

theorem Ok.defaultSet (h : Ok f) {index nr : Nat} (data : Option (List UInt8))
    (hindex : index < f.capacity) (hnr : nr < 2 ^ 32)
    (hskip : f.unitSize * (nr - f.capacity) < 2 ^ 32) (hdata : Holds (f.unitSize * nr) data) :
    ∃ m, f.defaultSet index data nr = some { f with buffer := m } ∧
      Filled (cells f.buffer f.unitSize) (cells m f.unitSize) f.capacity index
        (lastN f.capacity (dataUnits f.unitSize nr data)) := by
  unfold ObjectFifo.defaultSet
  by_cases hclip : f.capacity < nr
  · obtain ⟨skip, rfl⟩ : ∃ skip, nr = skip + f.capacity := ⟨nr - f.capacity, by omega⟩
    rw [Nat.add_sub_cancel] at hskip
    have hlast : lastN f.capacity (dataUnits f.unitSize (skip + f.capacity) data) =
        dataUnits f.unitSize f.capacity (data.map (·.drop (f.unitSize * skip))) := by
      rw [dataUnits_add, lastN_append_of_le _ (dataUnits_length ..).ge,
        lastN_of_le (dataUnits_length ..).le]
    rw [if_pos hclip, U32.sub_of_le hclip.le hnr, Nat.add_sub_cancel,
      U32.mul_of_lt (Nat.mul_comm _ _ ▸ hskip), Nat.mul_comm skip, hlast]
    exact h.putUnits hindex (Nat.le_refl _) hdata.drop
  · rw [if_neg hclip, lastN_of_le (by rw [dataUnits_length]; omega)]
    exact h.putUnits hindex (by omega) hdata

/-! ## Positions -/

theorem sum_eq {a b c : Nat} (hb : b ≤ c) (hlt : a + 1 + c - b < 2 ^ 32) :
    U32.add (U32.add (U32.sub a b) 1) c = a + 1 + c - b := by
  unfold U32.add U32.sub
  omega

theorem Ok.toAbsIndex_eq (h : Ok f) {index : Nat} (hindex : index < f.size) :
    f.toAbsIndex index = (f.head + index) % f.capacity := by
  have hcap := h.capacity_le
  have hcursor := h.cursor_lt
  have hsize := h.size_le
  rw [toAbsIndex, sum_eq hsize (by omega), U32.add_of_lt (by omega), head, Nat.mod_add_mod]

theorem Ok.toAbsIndex_lt (h : Ok f) (index : Nat) : f.toAbsIndex index < f.capacity :=
  Nat.mod_lt _ (Nat.zero_lt_of_lt h.cursor_lt)

theorem Ok.head_lt (h : Ok f) : f.head < f.capacity :=
  Nat.mod_lt _ (Nat.zero_lt_of_lt h.cursor_lt)

theorem Ok.contents_eq (h : Ok f) : f.contents = f.units.map some := by
  rw [contents, units, window, List.map_map]
  refine map_congr_left fun k hk => ?_
  have hlt := mem_range.mp hk
  have hpos : (f.head + k) % f.capacity < f.capacity :=
    Nat.mod_lt _ (Nat.zero_lt_of_lt h.cursor_lt)
  rw [get, if_pos hlt, h.toAbsIndex_eq hlt, U32.mul_of_lt (h.mul_lt hpos.le)]
  rfl

/-! ## What the operations do to the units -/

/-- `f'` is a fifo of the same kind with these units. -/
structure Holding (f f' : ObjectFifo) (l : List (List UInt8)) : Prop where
  ok : Ok f'
  unitSize_eq : f'.unitSize = f.unitSize
  capacity_eq : f'.capacity = f.capacity
  units_eq : f'.units = l

theorem Ok.head_pushed (h : Ok f) {nr : Nat} (hnr : nr < f.capacity) (hsize : 0 < f.size) :
    (f.pushCursor nr + 1 + f.capacity - min (f.size + nr) f.capacity) % f.capacity =
      (f.head + (f.size + nr - f.capacity)) % f.capacity := by
  have hcap := h.capacity_le
  have hcursor := h.cursor_lt
  have hle := h.size_le
  rw [pushCursor, if_pos (by omega), U32.add_of_lt (by omega), Nat.add_assoc, Nat.add_sub_assoc
    (by omega), Nat.mod_add_mod, head, Nat.mod_add_mod]
  congr 1
  omega

theorem Ok.npush (h : Ok f) (nr : Nat) (data : Option (List UInt8)) (hnr : f.size + nr < 2 ^ 32)
    (hskip : f.unitSize * (nr - f.capacity) < 2 ^ 32) (hdata : Holds (f.unitSize * nr) data) :
    ∃ f', f.npush data nr = some (.ok, f') ∧
      Holding f f' (lastN f.capacity (f.units ++ dataUnits f.unitSize nr data)) := by
  have hcap := h.capacity_le
  have hle := h.size_le
  have hpos : 0 < f.capacity := Nat.zero_lt_of_lt h.cursor_lt
  have hcursor : f.pushCursor nr < f.capacity := by
    unfold pushCursor
    split <;> exact Nat.mod_lt _ hpos
  obtain ⟨k, hk⟩ : ∃ k, k = min nr f.capacity := ⟨_, rfl⟩
  obtain ⟨n, hn⟩ : ∃ n, min (f.size + nr) f.capacity = n + k :=
    ⟨min (f.size + nr) f.capacity - k, by omega⟩
  have hsum : U32.add (U32.add (U32.sub (f.pushCursor nr) k) 1) f.capacity % f.capacity =
      (f.pushCursor nr + 1 + f.capacity - k) % f.capacity := by
    by_cases hlt : f.pushCursor nr + 1 + f.capacity - k < 2 ^ 32
    · rw [sum_eq (by omega) hlt]
    · -- no unit is written, and the largest ring is half the numbers
      have hk0 : k = 0 := by omega
      have hhalf : f.capacity = 2 ^ 31 ∧ f.pushCursor nr = 2 ^ 31 - 1 := by omega
      rw [hhalf.1, hhalf.2, hk0]
      rfl
  let f₁ : ObjectFifo := { f with size := n + k, cursor := f.pushCursor nr }
  have h₁ : Ok f₁ := {
    unitSize_pos := h.unitSize_pos
    capacity_le := hcap
    bytes_lt := h.bytes_lt
    block_eq := h.block_eq
    cursor_lt := hcursor
    size_le := by show n + k ≤ f.capacity; omega }
  obtain ⟨m, hset, hfilled⟩ := h₁.defaultSet data
    (Nat.mod_lt (f.pushCursor nr + 1 + f.capacity - k) hpos) (by omega) hskip hdata
  refine ⟨{ f₁ with buffer := m }, ?_, ?_, rfl, rfl, ?_⟩
  · unfold ObjectFifo.npush
    dsimp only
    rw [U32.add_of_lt hnr, ← hk, hn, hsum]
    exact congrArg (Option.map (Ret.ok, ·)) hset
  · exact ⟨h₁.1, h₁.2, h₁.3, h₁.4, h₁.5, h₁.6⟩
  · have hlast : (lastN f.capacity (dataUnits f.unitSize nr data)).length = k := by
      rw [lastN_length, dataUnits_length]
      omega
    have hhead : (f.pushCursor nr + 1 + f.capacity - k) % f.capacity = (f₁.head + n) % f.capacity := by
      show _ = ((f.pushCursor nr + 1 + f.capacity - (n + k)) % f.capacity + n) % f.capacity
      rw [Nat.mod_add_mod]
      congr 1
      omega
    have hwindow := Filled.window (n := n) h₁.head_lt (by rw [hlast]; show n + k ≤ f.capacity; omega)
      (hhead ▸ hfilled)
    rw [hlast] at hwindow
    refine hwindow.trans ?_
    rw [lastN_append, units_length, dataUnits_length]
    congr 1
    -- the units that stay are the last ones of the old ring
    by_cases hstay : n = 0
    · rw [hstay, window_zero, drop_of_length_le]
      rw [units_length]
      omega
    · have hnrlt : nr < f.capacity := by omega
      rw [units, window_drop (by omega), ← h.head_pushed hnrlt (by omega), hn]
      congr 1
      omega

theorem Ok.overwrite (h : Ok f) (index nr : Nat) (data : List UInt8)
    (hfits : index + nr ≤ f.size) (hdata : f.unitSize * nr ≤ data.length) :
    ∃ f', f.defaultSet (f.toAbsIndex index) (some data) nr = some f' ∧
      Holding f f' (f.units.take index ++ chunks f.unitSize nr data ++ f.units.drop (index + nr)) := by
  have hcap := h.capacity_le
  have hle := h.size_le
  have hzero : nr - f.capacity = 0 := by omega
  obtain ⟨m, hset, hfilled⟩ := h.defaultSet (some data) (h.toAbsIndex_lt index) (by omega)
    (by rw [hzero, Nat.mul_zero]; decide) hdata
  have hlast : lastN f.capacity (dataUnits f.unitSize nr (some data)) = chunks f.unitSize nr data :=
    lastN_of_le (by rw [dataUnits_length]; omega)
  rw [hlast] at hfilled
  refine ⟨_, hset, ⟨h.1, h.2, h.3, h.4, h.5, h.6⟩, rfl, rfl, ?_⟩
  cases nr with
  | zero =>
    refine (hfilled.nil _ hle).trans ?_
    show f.units = _ ++ [] ++ _
    rw [append_nil, Nat.add_zero, take_append_drop]
  | succ k =>
    rw [h.toAbsIndex_eq (by omega)] at hfilled
    have hwindow := hfilled.overwrite h.head_lt hle (by rw [chunks_length]; exact hfits)
    rw [chunks_length] at hwindow
    exact hwindow

/-- `object_fifo_set` where the units it writes fit the ring. -/
theorem Ok.setClipped (h : Ok f) {index nr : Nat} {data : List UInt8}
    (hindex : index < f.size ∨ index = 0) (hfits : index + nr ≤ f.capacity)
    (hdata : f.unitSize * nr ≤ data.length) :
    ∃ f', f.setClipped index data nr = some (.ok, f') ∧
      Holding f f' (lastN f.capacity
        (f.units.take index ++ chunks f.unitSize nr data ++ f.units.drop (index + nr))) := by
  have hcap := h.capacity_le
  have hle := h.size_le
  unfold ObjectFifo.setClipped
  rw [U32.add_of_lt (by omega)]
  by_cases hgrow : f.size < index + nr
  · obtain ⟨k, hk⟩ := Nat.exists_eq_add_of_lt hgrow
    have hzero : k + 1 - f.capacity = 0 := by omega
    obtain ⟨f₁, hpush, h₁⟩ := h.npush (k + 1) none (by omega)
      (by rw [hzero, Nat.mul_zero]; decide) trivial
    have hunits : f₁.units =
        f.units ++ List.replicate (k + 1) (List.replicate f.unitSize 0) := by
      rw [h₁.units_eq]
      exact lastN_of_le (by rw [length_append, units_length, dataUnits_length]; omega)
    have hsize : f₁.size = index + nr := by
      rw [← units_length f₁, hunits, length_append, units_length, length_replicate]
      omega
    obtain ⟨f', hset, h'⟩ := h₁.ok.overwrite index nr data
      hsize.ge (h₁.unitSize_eq.symm ▸ hdata)
    refine ⟨f', ?_, h'.ok, h'.unitSize_eq.trans h₁.unitSize_eq,
      h'.capacity_eq.trans h₁.capacity_eq, ?_⟩
    · rw [if_pos hgrow, U32.sub_of_le hgrow.le (by omega), hk, Nat.add_assoc,
        Nat.add_sub_cancel_left, hpush]
      exact congrArg (Option.map (Ret.ok, ·)) hset
    · rw [h'.units_eq, hunits, h₁.unitSize_eq, take_append_of_le_length
        (by rw [units_length]; omega)]
      have hbehind : (f.units ++ List.replicate (k + 1) (List.replicate f.unitSize 0)).drop
          (index + nr) = [] := by
        rw [drop_of_length_le]
        rw [← hunits, units_length, hsize]
      have hnone : f.units.drop (index + nr) = [] := by
        rw [drop_of_length_le]
        rw [units_length]
        omega
      rw [hbehind, hnone, lastN_of_le]
      rw [append_nil, length_append, length_take, chunks_length, units_length]
      omega
  · obtain ⟨f', hset, h'⟩ := h.overwrite index nr data (by omega) hdata
    refine ⟨f', ?_, h'.ok, h'.unitSize_eq, h'.capacity_eq, ?_⟩
    · rw [if_neg hgrow]
      exact congrArg (Option.map (Ret.ok, ·)) hset
    · rw [h'.units_eq, lastN_of_le]
      rw [length_append, length_append, length_take, length_drop,
        chunks_length, units_length]
      omega

/-- `object_fifo_set` at a position of the fifo.  Units that are more than the ring
replace everything. -/
theorem Ok.set (h : Ok f) (index nr : Nat) (data : List UInt8)
    (hindex : index < f.size ∨ index = 0) (hnr : nr < 2 ^ 32)
    (hfits : nr < f.capacity → index + nr ≤ f.capacity)
    (hskip : f.unitSize * (nr - f.capacity) < 2 ^ 32) (hdata : f.unitSize * nr ≤ data.length) :
    ∃ f', f.set index data nr = some (.ok, f') ∧
      Holding f f' (lastN f.capacity
        (f.units.take index ++ chunks f.unitSize nr data ++ f.units.drop (index + nr))) := by
  unfold ObjectFifo.set
  rw [if_pos hindex]
  by_cases hclip : f.capacity ≤ nr
  · obtain ⟨skip, rfl⟩ := Nat.exists_eq_add_of_le hclip
    rw [Nat.add_sub_cancel_left] at hskip
    have hle := h.size_le
    have hlast : lastN f.capacity (chunks f.unitSize (f.capacity + skip) data) =
        chunks f.unitSize f.capacity (data.drop (f.unitSize * skip)) := by
      rw [Nat.add_comm, chunks_add, lastN_append_of_le _ (chunks_length ..).ge,
        lastN_of_le (chunks_length ..).le]
    rw [if_pos hclip, U32.sub_of_le hclip hnr, Nat.add_sub_cancel_left, U32.mul_of_lt hskip]
    have hdrop : f.unitSize * f.capacity ≤ (data.drop (f.unitSize * skip)).length := by
      rw [length_drop]
      rw [Nat.mul_add] at hdata
      omega
    obtain ⟨f', hset, h'⟩ := h.setClipped (.inr rfl) (Nat.zero_add f.capacity).le hdrop
    refine ⟨f', hset, h'.ok, h'.unitSize_eq, h'.capacity_eq, ?_⟩
    have hnone (n : Nat) (hn : f.capacity ≤ n) : f.units.drop n = [] := by
      rw [drop_of_length_le]
      rw [units_length]
      omega
    rw [h'.units_eq, hnone _ (by omega), hnone _ (by omega), append_nil, append_nil,
      take_zero, nil_append, lastN_of_le (chunks_length ..).le,
      lastN_append_of_le _ (by rw [chunks_length]; omega), hlast]
  · rw [if_neg hclip]
    exact h.setClipped hindex (hfits (by omega)) hdata

/-- `object_fifo_npush_head` moves the head back, and drops the oldest units where
there is no room. -/
theorem Ok.npushHead (h : Ok f) {nr : Nat} {data : List UInt8} (hnr : f.size + nr < 2 ^ 32)
    (hskip : f.unitSize * (nr - f.capacity) < 2 ^ 32) (hdata : f.unitSize * nr ≤ data.length) :
    ∃ f', f.npushHead data nr = some (.ok, f') ∧
      Holding f f' (apply f.capacity f.units (.npushHead (chunks f.unitSize nr data))) := by
  have hle := h.size_le
  have hcursor := h.cursor_lt
  let f₁ : ObjectFifo := { f with size := min (f.size + nr) f.capacity }
  have h₁ : Ok f₁ := ⟨h.1, h.2, h.3, h.4, h.5, Nat.min_le_right ..⟩
  obtain ⟨f', hset, h'⟩ := h₁.set 0 nr data (.inr rfl) (by omega)
    (fun hlt => by omega) hskip hdata
  refine ⟨f', ?_, h'.ok, h'.unitSize_eq, h'.capacity_eq, ?_⟩
  · unfold ObjectFifo.npushHead
    dsimp only
    rw [U32.add_of_lt hnr]
    exact congrArg (Option.map fun res => (Ret.ok, res.2)) hset
  · rw [h'.units_eq, take_zero, nil_append, Nat.zero_add]
    show lastN f.capacity (chunks f.unitSize nr data ++ f₁.units.drop nr) =
      lastN f.capacity (chunks f.unitSize nr data) ++
        f.units.drop (f.units.length + (lastN f.capacity (chunks f.unitSize nr data)).length -
          f.capacity)
    rw [lastN_length, chunks_length, units_length]
    have hsize₁ : f₁.size = min (f.size + nr) f.capacity := rfl
    by_cases hclip : f.capacity ≤ nr
    · have hnone₁ : f₁.units.drop nr = [] := by
        rw [drop_of_length_le]
        rw [units_length]
        omega
      have hnone : f.units.drop (f.size + min f.capacity nr - f.capacity) = [] := by
        rw [drop_of_length_le]
        rw [units_length]
        omega
      rw [hnone₁, hnone, append_nil, append_nil]
    · have hmin : min f.capacity nr = nr := by omega
      have hold : f₁.units.drop nr = f.units.drop (f.size + nr - f.capacity) := by
        rw [units, units, window_drop (by omega), window_drop (by omega)]
        have hstart : (f₁.head + nr) % f₁.capacity =
            (f.head + (f.size + nr - f.capacity)) % f.capacity := by
          show ((f.cursor + 1 + f.capacity - min (f.size + nr) f.capacity) % f.capacity + nr) %
            f.capacity = ((f.cursor + 1 + f.capacity - f.size) % f.capacity + _) % f.capacity
          rw [Nat.mod_add_mod, Nat.mod_add_mod]
          congr 1
          omega
        rw [hstart]
        congr 1
        omega
      rw [hold, hmin, lastN_of_le, lastN_of_le (by rw [chunks_length]; omega)]
      rw [length_append, chunks_length, length_drop, units_length]
      omega

theorem Ok.npop (h : Ok f) (nr : Nat) :
    Holding f (f.npop nr).2 (apply f.capacity f.units (.npop nr)) := by
  have hcursor := h.cursor_lt
  have hle := h.size_le
  show Holding f _ (if 0 < nr ∧ nr ≤ f.units.length then _ else _)
  rw [units_length]
  unfold ObjectFifo.npop
  by_cases hnr : 0 < nr ∧ nr ≤ f.size
  · rw [if_pos hnr, if_pos hnr]
    refine ⟨⟨h.1, h.2, h.3, h.4, h.5, (Nat.sub_le ..).trans hle⟩, rfl, rfl, ?_⟩
    have hhead : (f.cursor + 1 + f.capacity - (f.size - nr)) % f.capacity =
        (f.head + nr) % f.capacity := by
      rw [head, Nat.mod_add_mod]
      congr 1
      omega
    rw [units, units, window_drop hnr.2, ← hhead]
    rfl
  · rw [if_neg hnr, if_neg hnr]
    exact ⟨h, rfl, rfl, rfl⟩

/-- A pop at the tail keeps the head. -/
theorem Ok.npopTail (h : Ok f) (nr : Nat) :
    Holding f (f.npopTail nr).2 (apply f.capacity f.units (.npopTail nr)) := by
  have hcap := h.capacity_le
  have hcursor := h.cursor_lt
  have hle := h.size_le
  show Holding f _ (if 0 < nr ∧ nr ≤ f.units.length then _ else _)
  rw [units_length]
  unfold ObjectFifo.npopTail
  by_cases hnr : 0 < nr ∧ nr ≤ f.size
  · have hsum : U32.add (U32.sub f.cursor nr) f.capacity = f.cursor + f.capacity - nr := by
      unfold U32.add U32.sub
      omega
    rw [if_pos hnr, if_pos hnr, hsum]
    dsimp only
    by_cases hmore : 0 < f.size - nr
    · rw [if_pos hmore]
      refine ⟨⟨h.1, h.2, h.3, h.4, Nat.mod_lt _ (by show 0 < f.capacity; omega),
        (Nat.sub_le ..).trans hle⟩, rfl, rfl, ?_⟩
      have hhead : ((f.cursor + f.capacity - nr) % f.capacity + 1 + f.capacity - (f.size - nr)) %
          f.capacity = f.head := by
        have hsplit : f.cursor + f.capacity - nr + (1 + f.capacity - (f.size - nr)) =
            f.cursor + 1 + f.capacity - f.size + f.capacity := by omega
        rw [Nat.add_assoc, Nat.add_sub_assoc (by omega), Nat.mod_add_mod, hsplit,
          Nat.add_mod_right, head]
      rw [units, units, window_take (Nat.sub_le ..), ← hhead]
      rfl
    · have hnone : f.size - nr = 0 := by omega
      rw [if_neg hmore, hnone]
      exact ⟨⟨h.1, h.2, h.3, h.4, by show 0 < f.capacity; omega, Nat.zero_le _⟩, rfl, rfl, rfl⟩
  · rw [if_neg hnr, if_neg hnr]
    exact ⟨h, rfl, rfl, rfl⟩

theorem Ok.clear (h : Ok f) : Holding f f.clear.2 [] := by
  unfold ObjectFifo.clear
  split_ifs with hsize
  · exact ⟨h, rfl, rfl, length_eq_zero_iff.mp (by rw [units_length, hsize])⟩
  · exact ⟨⟨h.1, h.2, h.3, h.4, Nat.zero_lt_of_lt h.cursor_lt, Nat.zero_le _⟩, rfl, rfl, rfl⟩

theorem create_ok {capacity unitSize : Nat} (h : create true capacity unitSize = some f)
    (hcap : capacity ≤ 2 ^ 31) (hbytes : unitSize * capacity < 2 ^ 32) :
    Holding f f [] ∧ f.capacity = capacity ∧ f.unitSize = unitSize := by
  unfold create at h
  by_cases hpos : 0 < capacity ∧ 0 < unitSize ∧ true = true
  · rw [if_pos hpos] at h
    cases h
    exact ⟨⟨⟨hpos.2.1, hcap, hbytes, U32.mul_of_lt hbytes, hpos.1, Nat.zero_le _⟩, rfl, rfl, rfl⟩,
      rfl, rfl⟩
  · rw [if_neg hpos] at h
    cases h

end ObjectFifo

end Awtk
