import Awtk.Tkc.BufferValue

/-!
# What a failed call leaves behind

A value is a tag and a payload, written or read one after the other.  A call that
fails at the tag, or at a tag it does not know, leaves the cursor where it was.
One that fails at the payload leaves it behind the tag.  `WriteKeeps` and
`ReadKeeps` say that a call keeps the cursor if it fails; `WriteCompletes` and
`ReadCompletes` are the exact conditions.
-/

namespace Awtk.BufferValue

open WBuffer List Option

/-! ## Writing -/

section
variable (realloc : Nat → Bool) (wchar4 : Bool)

/-- If `wbuffer_write_value` does not return `RET_OK`, the cursor and the contents
are as they were. -/
def WriteKeeps (wb : WBuffer) (v : Value) : Prop :=
  ∀ ret wb', wbufferWriteValue realloc wchar4 wb v = some (ret, wb') → ret ≠ .ok →
    wb'.cursor = wb.cursor ∧ wb'.contents = wb.contents

/-- The number of bytes `wbuffer_write_string` is asked to write, if it is given
a string. -/
def stringSize (s : List UInt8) : Nat := (s.length + 1) % 2 ^ 32

/-- Behind the tag the payload is not refused, or an unknown tag is taken back. -/
def PayloadCompletes (extendable : Bool) (cursor capacity : Nat) (v : Value) : Prop :=
  let fits (n : Nat) := ¬ Refuses realloc extendable capacity (U32.add (U32.add cursor n) 1)
  match fixedPayload v with
  | some (n, _) => fits n
  | none =>
    match v with
    | .string (some s) => fits (stringSize s.val)
    | .wstring (some s) =>
      match Utf8.tkUtf8DupWstr realloc wchar4 s.val with
      | some (some text) => fits (stringSize text)
      | some none => False
      | none => True
    | .other _ => cursor ≤ 2 ^ 31
    | _ => False

/-- Where the tag is written, the payload is written too, or the tag is taken
back. -/
def WriteCompletes (wb : WBuffer) (v : Value) : Prop :=
  ∀ c, grantedCapacity realloc wb.extendable wb.capacity (wb.need 1) = some c →
    wb.cursor + 1 ≤ c → PayloadCompletes realloc wchar4 wb.extendable (wb.cursor + 1) c v

end

section
variable {realloc : Nat → Bool} {wchar4 : Bool} {wb wb' : WBuffer} {v : Value}

theorem keeps_writeBinary_iff (realloc : Nat → Bool) (bytes : List UInt8)
    (hpos : 0 < wb.cursor) :
    (∀ ret wb', wb.writeBinary realloc bytes = some (ret, wb') → ret ≠ .ok →
      wb'.cursor = wb.cursor - 1 ∧ wb'.contents = wb.contents.take (wb.cursor - 1)) ↔
    ¬ Refuses realloc wb.extendable wb.capacity (wb.need bytes.length) := by
  constructor
  · intro h hrefuses
    have := (h _ _ (writeBinary_of_refuses hrefuses) (by decide)).1
    omega
  · intro h ret wb' hx hr
    exact absurd (refuses_of_writeBinary hr hx) h

theorem stringBytes_length (s : List UInt8) :
    ((s ++ [0]).take ((s.length + 1) % 2 ^ 32)).length = stringSize s := by
  have hle := Nat.mod_le (s.length + 1) (2 ^ 32)
  rw [length_take, length_append]
  exact Nat.min_eq_left hle

theorem wbufferSkip_back (hw : wb.Ok) (hpos : 0 < wb.cursor) :
    wbufferSkip realloc wb (-1) = if wb.cursor ≤ 2 ^ 31 then
      some (.ok, { wb with cursor := wb.cursor - 1 }) else some (.badParams, wb) := by
  have hc := hw.cursor
  have hb := hw.bound
  have hsum : U32.add wb.cursor ((-1 : Int) % 2 ^ 32).toNat = wb.cursor - 1 := by
    show (wb.cursor + 4294967295) % 2 ^ 32 = wb.cursor - 1
    omega
  rw [wbufferSkip, hsum]
  by_cases hle : wb.cursor ≤ 2 ^ 31
  · have hlt : wb.cursor - 1 < 2 ^ 31 := by omega
    have hcap : wb.cursor - 1 ≤ wb.capacity := by omega
    rw [if_pos hle, I32.ofU32_of_lt hlt, if_neg (by omega), Int.toNat_natCast, extendCapacity,
      if_pos hcap]
    rfl
  · rw [if_neg hle, if_pos (I32.ofU32_neg_of_ge (by omega) (by omega))]

/-- The switch after the tag. -/
theorem keeps_writePayload_iff (realloc : Nat → Bool) (wchar4 : Bool) (v : Value) (hw : wb.Ok)
    (hpos : 0 < wb.cursor) :
    (∀ ret wb', writePayload realloc wchar4 wb v = some (ret, wb') → ret ≠ .ok →
      wb'.cursor = wb.cursor - 1 ∧ wb'.contents = wb.contents.take (wb.cursor - 1)) ↔
    PayloadCompletes realloc wchar4 wb.extendable wb.cursor wb.capacity v := by
  have hnull : ¬ ∀ ret wb', some (Ret.badParams, wb) = some (ret, wb') → ret ≠ .ok →
      wb'.cursor = wb.cursor - 1 ∧ wb'.contents = wb.contents.take (wb.cursor - 1) := by
    intro h
    have := (h _ _ rfl (by decide)).1
    omega
  have hstring (s : List UInt8) :
      (∀ ret wb', writeString realloc wb (some s) = some (ret, wb') → ret ≠ .ok →
        wb'.cursor = wb.cursor - 1 ∧ wb'.contents = wb.contents.take (wb.cursor - 1)) ↔
      ¬ Refuses realloc wb.extendable wb.capacity (wb.need (stringSize s)) := by
    rw [← stringBytes_length s]
    exact keeps_writeBinary_iff realloc _ hpos
  unfold writePayload PayloadCompletes
  cases hf : fixedPayload v with
  | some f =>
    have h := keeps_writeBinary_iff realloc (Bytes.ofNat f.1 f.2) hpos
    rw [Bytes.ofNat_length] at h
    exact h
  | none =>
    cases v with
    | string s =>
      cases s with
      | none => exact iff_of_false hnull id
      | some s => exact hstring s.val
    | wstring s =>
      cases s with
      | none => exact iff_of_false hnull id
      | some s =>
        dsimp only
        cases hd : Utf8.tkUtf8DupWstr realloc wchar4 s.val with
        | none => exact iff_of_true nofun trivial
        | some text =>
          cases text with
          | none => exact iff_of_false hnull id
          | some text => exact hstring text
    | other t =>
      dsimp only
      rw [wbufferSkip_back hw hpos]
      by_cases hle : wb.cursor ≤ 2 ^ 31
      · refine iff_of_true ?_ hle
        intro ret wb' h _
        rw [if_pos hle] at h
        cases h
        refine ⟨rfl, ?_⟩
        rw [back_contents hw, hw.contents_length]
      · refine iff_of_false ?_ hle
        rw [if_neg hle]
        intro h
        have hcur : wb.cursor = wb.cursor - 1 := (h _ _ rfl (by decide)).1
        omega
    | _ => cases hf

theorem writeKeeps_iff_of_tag {w : WBuffer} (hw : wb.Ok)
    (hx : wb.writeUint8 realloc (writtenTag v) = some (.ok, w)) :
    WriteKeeps realloc wchar4 wb v ↔
      PayloadCompletes realloc wchar4 wb.extendable (wb.cursor + 1) w.capacity v := by
  obtain ⟨hok, hcont, hext⟩ := hw.writeBinary_ok hx
  have hcur : w.cursor = wb.cursor + 1 := by
    rw [← hok.contents_length, hcont, length_append, hw.contents_length]
    rfl
  have hback : w.contents.take (w.cursor - 1) = wb.contents := by
    rw [hcont, hcur, Nat.add_sub_cancel]
    exact take_left' hw.contents_length
  have hpayload := keeps_writePayload_iff realloc wchar4 v hok (by omega)
  rw [hback, hcur, Nat.add_sub_cancel, hext] at hpayload
  rw [← hpayload, WriteKeeps, wbufferWriteValue, hx]
  rfl

theorem writeKeeps_iff (hw : wb.Ok) :
    WriteKeeps realloc wchar4 wb v ↔ WriteCompletes realloc wchar4 wb v := by
  constructor
  · intro h c hc hle
    have hle : wb.cursor + [writtenTag v].length ≤ c := hle
    obtain ⟨w, hx, rfl⟩ := hw.writeBinary_granted.mpr ⟨hc, hle⟩
    exact (writeKeeps_iff_of_tag hw hx).mp h
  · intro h ret wb' hv hr
    cases hx : wb.writeUint8 realloc (writtenTag v) with
    | none =>
      rw [wbufferWriteValue, hx] at hv
      cases hv
    | some res =>
      obtain ⟨r, w⟩ := res
      by_cases hrok : r = .ok
      · subst hrok
        obtain ⟨hc, hle⟩ := hw.writeBinary_granted.mp ⟨w, hx, rfl⟩
        exact (writeKeeps_iff_of_tag hw hx).mpr (h w.capacity hc hle) ret wb' hv hr
      · obtain ⟨rfl, rfl⟩ := hw.writeBinary_not_ok hrok hx
        rw [wbufferWriteValue, hx] at hv
        cases hv
        exact ⟨rfl, rfl⟩

end

/-! ## Reading -/

/-- If `rbuffer_read_value` does not return `RET_OK`, the cursor is as it was. -/
def ReadKeeps (rb : RBuffer) : Prop :=
  ∀ ret v rb', rbufferReadValue rb = some (ret, v, rb') → ret ≠ .ok → rb'.cursor = rb.cursor

/-- Behind a known tag there is all of the payload, and an unknown one is taken
back. -/
def ReadCompletes (rb : RBuffer) : Prop :=
  match rb.rest with
  | [] => True
  | tag :: more =>
    match ValueType.ofByte tag with
    | some .string => 0 ∈ more
    | some .wstring | none => rb.cursor + 1 ≤ 2 ^ 31
    | some t => ∀ f ∈ fixedSetter t, f.1 ≤ more.length

section
variable {rb : RBuffer} {tag : UInt8} {more : List UInt8}

theorem readUint_eq_tag (hb : rb.Ok) (h : rb.rest = tag :: more) :
    rb.readUint 1 = some (.ok, tag.toNat, { rb with cursor := rb.cursor + 1 }) := by
  have hread := RBuffer.readUint_of_rest (show rb.rest = [tag] ++ more from h) hb.size.ge hb.cursor
  rwa [show Bytes.toNat [tag] = tag.toNat by rw [Bytes.toNat, Bytes.toNat]; rfl] at hread

/-- A call that ends behind the tag `rb` is at keeps the cursor if it fails. -/
def KeepsFrom (rb : RBuffer) (x : Option (Ret × Option Value × RBuffer)) : Prop :=
  ∀ ret v rb', x = some (ret, v, rb') → ret ≠ .ok → rb'.cursor = rb.cursor - 1

theorem keepsFrom_fixed_iff (hb : rb.Ok) (hpos : 0 < rb.cursor) (n : Nat) (set : Nat → Value) :
    KeepsFrom rb (do
      let (ret, value, rb) ← rb.readUint n
      return (ret, some (set value), rb)) ↔ n ≤ rb.rest.length := by
  have hc := hb.cursor
  rw [RBuffer.rest_length hb.size.ge, RBuffer.readUint_eq]
  split_ifs with hle
  · refine iff_of_true ?_ (by omega)
    intro ret v rb' h hr
    cases h
    exact absurd rfl hr
  · refine iff_of_false ?_ (by omega)
    intro h
    have hcur : rb.cursor = rb.cursor - 1 := h _ _ _ rfl (by decide)
    omega

theorem keepsFrom_string_iff (hb : rb.Ok) (hpos : 0 < rb.cursor) :
    KeepsFrom rb (do
      let (ret, value, rb) ← rb.readString
      return (ret, some (.string (value.map CString.ofBytes)), rb)) ↔ 0 ∈ rb.rest := by
  rw [RBuffer.readString_eq hb.size.ge hb.cursor hb.bound]
  split_ifs with h0
  · refine iff_of_true ?_ h0
    intro ret v rb' h hr
    cases h
    exact absurd rfl hr
  · refine iff_of_false ?_ h0
    intro h
    have hcur : rb.cursor = rb.cursor - 1 := h _ _ _ rfl (by decide)
    omega

theorem keepsFrom_unknown_iff (hb : rb.Ok) (hpos : 0 < rb.cursor) :
    KeepsFrom rb (do
      let (_, rb) ← rb.skip (-1)
      return (.notImpl, none, rb)) ↔ rb.cursor ≤ 2 ^ 31 := by
  have hc := hb.cursor
  have hbound := hb.bound
  rw [RBuffer.skip]
  dsimp only
  rcases Nat.lt_trichotomy rb.cursor (2 ^ 31) with hlt | heq | hgt
  · refine iff_of_true ?_ (by omega)
    have hsum : I32.ofU32 rb.cursor + -1 = ((rb.cursor - 1 : Nat) : Int) := by
      rw [I32.ofU32_of_lt hlt]
      omega
    rw [hsum, if_neg (by omega), if_pos (by omega)]
    intro ret v rb' h _
    cases h
    rfl
  · refine iff_of_true ?_ (by omega)
    have hsum : I32.ofU32 rb.cursor + -1 < -2 ^ 31 := by
      rw [heq]
      decide
    rw [if_pos (.inl hsum)]
    intro ret v rb' h _
    cases h
  · refine iff_of_false ?_ (by omega)
    have hneg := I32.ofU32_neg_of_ge (by omega) (show rb.cursor < 2 ^ 32 by omega)
    have hge : -2 ^ 31 < I32.ofU32 rb.cursor := by
      rw [I32.ofU32, if_neg (by omega)]
      omega
    rw [if_neg (by omega), if_neg (by omega)]
    intro h
    have hcur : rb.cursor = rb.cursor - 1 := h _ _ _ rfl (by decide)
    omega

/-- A call of `rbuffer_read_value` that fails keeps the cursor exactly if the
payload is complete. -/
theorem readKeeps_iff (hb : rb.Ok) : ReadKeeps rb ↔ ReadCompletes rb := by
  have hlen := RBuffer.rest_length hb.size.ge
  have hc := hb.cursor
  have hbound := hb.bound
  unfold ReadCompletes ReadKeeps
  cases hrest : rb.rest with
  | nil =>
    rw [hrest, length_nil] at hlen
    refine iff_of_true ?_ trivial
    intro ret v rb' h _
    rw [rbufferReadValue, RBuffer.readUint_eq, if_neg (by omega)] at h
    cases h
    rfl
  | cons tag more =>
    let rb1 : RBuffer := { rb with cursor := rb.cursor + 1 }
    have hmore : rb1.rest = more := by
      show (rb.data.take rb.capacity).drop (rb.cursor + 1) = more
      exact RBuffer.drop_succ_of_drop hrest
    rw [hrest, length_cons] at hlen
    have hb1 : rb1.Ok := ⟨hb.size, show rb.cursor + 1 ≤ rb.capacity by omega, hbound⟩
    have hpos : 0 < rb1.cursor := Nat.succ_pos _
    have hfixed := keepsFrom_fixed_iff hb1 hpos
    have hstring := keepsFrom_string_iff hb1 hpos
    have hunknown := keepsFrom_unknown_iff hb1 hpos
    rw [hmore] at hfixed hstring
    rw [rbufferReadValue, readUint_eq_tag hb hrest, bind_eq_bind, bind_some]
    dsimp only
    rw [UInt8.ofNat_toNat]
    cases ht : ValueType.ofByte tag with
    | none => exact hunknown
    | some t =>
      cases hs : fixedSetter t with
      | none =>
        cases t with
        | string => exact hstring
        | wstring => exact hunknown
        | _ => cases hs
      | some f =>
        obtain ⟨n, set⟩ := f
        have hmem : n ≤ more.length ↔ ∀ f ∈ some (n, set), f.1 ≤ more.length := by simp
        cases t with
        | string => cases hs
        | wstring => cases hs
        | _ =>
          dsimp only
          rw [hs]
          exact (hfixed n set).trans hmem

end

/-! ## Both -/

/-- Exactly the calls whose payload is complete, or whose unknown tag is taken
back, leave the cursor alone when they fail. -/
theorem keeps_iff (realloc : Nat → Bool) (wchar4 : Bool) (wb : WBuffer) (v : Value) (rb : RBuffer)
    (hw : wb.Ok) (hr : rb.Ok) :
    (WriteKeeps realloc wchar4 wb v ↔ WriteCompletes realloc wchar4 wb v) ∧
      (ReadKeeps rb ↔ ReadCompletes rb) :=
  ⟨writeKeeps_iff hw, readKeeps_iff hr⟩

/-- A string written to a block of three bytes, and a number read from one. -/
theorem keeps_iff_small :
    (WriteKeeps (fun _ => false) true (.init [0, 0, 0]) (.string none) ↔
      WriteCompletes (fun _ => false) true (.init [0, 0, 0]) (.string none)) ∧
    (ReadKeeps (.init [3, 7, 0] 3) ↔ ReadCompletes (.init [3, 7, 0] 3)) :=
  keeps_iff _ _ _ _ _ (init_ok (by decide)) ⟨rfl, by decide, by decide⟩

/-- A `uint16` with room for its tag only, and a `uint16` that is cut off, move
the cursor by one. -/
theorem not_keeps_uint16 :
    ¬ WriteKeeps (fun _ => false) true (.init [0, 0]) (.uint16 7) ∧
      ¬ ReadKeeps (.init [5, 7] 2) := by
  constructor
  · intro h
    have hrun : wbufferWriteValue (fun _ => false) true (.init [0, 0]) (.uint16 7) =
        some (.badParams, ⟨[5, 0], 1, 2, false⟩) := by decide
    exact absurd (h _ _ hrun (by decide)).1 (by decide)
  · intro h
    have hrun : rbufferReadValue (.init [5, 7] 2) =
        some (.badParams, some (.uint16 0), ⟨[5, 7], 1, 2⟩) := by decide
    exact absurd (h _ _ _ hrun (by decide)) (by decide)

end Awtk.BufferValue
