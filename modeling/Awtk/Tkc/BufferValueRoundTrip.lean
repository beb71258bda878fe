import Awtk.Tkc.BufferValue

/-!
# Round trip of values in a buffer

`RoundTrips` says of one run that a sequence of values is written and read back.
It holds exactly where the allocator has room for the bytes (`HasRoom`) and
every value is one the codec carries (`Carries`).  The induction is over the
sequence: each step compares what `wbuffer_write_value` appends with what
`rbuffer_read_value` takes.
-/

namespace Awtk.BufferValue

open WBuffer List Option

variable {realloc : Nat → Bool} {wchar4 : Bool} {wb wb' : WBuffer} {v : Value}

/-! ## The property and the condition -/

/-- A value of a type the switch handles, with a string where one is expected. -/
def Handled : Value → Prop
  | .string s => s ≠ none
  | .wstring s => s ≠ none
  | .other _ => False
  | _ => True

/-- What is to come back: a wide string comes back as a string. -/
def expected (wchar4 : Bool) : Value → Value
  | .wstring (some s) => .string (some ⟨Utf8.encode wchar4 s.val, Utf8.encode_zero_notMem s.prop⟩)
  | v => v

/-- The values are written behind the contents of the buffer, and a reader of
the written bytes gets them back and ends where the writer ended. -/
def RoundTrips (realloc : Nat → Bool) (wchar4 : Bool) (wb : WBuffer) (vs : List Value) : Prop :=
  ∃ wb', writeValues realloc wchar4 wb vs = some (.ok, wb') ∧
    ∃ rb', readValues vs.length ⟨wb'.data, wb.cursor, wb'.cursor⟩ =
        some (vs.map (expected wchar4), rb') ∧
      rb'.cursor = wb'.cursor

/-- The number of bytes of the payload of a value. -/
def payloadSize (wchar4 : Bool) (v : Value) : Nat :=
  match fixedPayload v with
  | some (n, _) => n
  | none =>
    match v with
    | .string (some s) => s.val.length + 1
    | .wstring (some s) => (Utf8.encode wchar4 s.val).length + 1
    | _ => 0

/-- The sizes of the pieces that are written one after another: for each value
its tag and its payload. -/
def pieceSizes (wchar4 : Bool) : List Value → List Nat
  | [] => []
  | v :: vs => 1 :: payloadSize wchar4 v :: pieceSizes wchar4 vs

/-- Every piece ends inside the block the buffer then has. -/
def HasRoom (realloc : Nat → Bool) : Nat → Nat → List Nat → Prop
  | _, _, [] => True
  | cursor, capacity, n :: ns =>
    ∃ c, grownCapacity realloc capacity (U32.add (U32.add cursor n) 1) = some c ∧
      cursor + n ≤ c ∧ HasRoom realloc (cursor + n) c ns

/-- The values that survive: a `uint64` of at most 16 bits, a `float` that is no
signaling NaN, a wide string whose copy is complete, and all others. -/
def Carries (realloc : Nat → Bool) (wchar4 : Bool) : Value → Prop
  | .uint64 v => v.toNat < 2 ^ 16
  | .float bits => ¬ Ieee.Signaling bits.toNat
  | .wstring (some s) => Utf8.DupFits realloc wchar4 s.val
  | _ => True

/-! ## Payloads -/

/-- A value of fixed size as it comes out of the codec. -/
def carried : Value → Value
  | .uint64 v => .uint64 (.ofNat (valueUint16OfUint64 v).toNat)
  | .float bits => .float (Ieee.narrow (Ieee.widen bits))
  | v => v

/-- Each arm with a fixed size meets the arm that reads it. -/
theorem fixedPayload_spec {n number : Nat} (h : fixedPayload v = some (n, number)) :
    number < 256 ^ n ∧ ∃ t set, writtenTag v = t.toByte ∧ t ≠ .string ∧ t ≠ .wstring ∧
      fixedSetter t = some (n, set) ∧ set number = carried v := by
  cases v with
  | bool v =>
    cases h
    cases v with
    | true => exact ⟨by decide, .bool, _, rfl, by decide, by decide, rfl, rfl⟩
    | false => exact ⟨by decide, .bool, _, rfl, by decide, by decide, rfl, rfl⟩
  | uint8 v =>
    cases h
    exact ⟨v.toNat_lt, .uint8, _, rfl, by decide, by decide, rfl, by simp [carried]⟩
  | int8 v =>
    cases h
    exact ⟨v.toUInt8.toNat_lt, .int8, _, rfl, by decide, by decide, rfl, by simp [carried]⟩
  | uint16 v =>
    cases h
    exact ⟨v.toNat_lt, .uint16, _, rfl, by decide, by decide, rfl, by simp [carried]⟩
  | int16 v =>
    cases h
    exact ⟨v.toUInt16.toNat_lt, .int16, _, rfl, by decide, by decide, rfl, by simp [carried]⟩
  | uint32 v =>
    cases h
    exact ⟨v.toNat_lt, .uint32, _, rfl, by decide, by decide, rfl, by simp [carried]⟩
  | int32 v =>
    cases h
    exact ⟨v.toUInt32.toNat_lt, .int32, _, rfl, by decide, by decide, rfl, by simp [carried]⟩
  | uint64 v =>
    cases h
    have hlt := (valueUint16OfUint64 v).toNat_lt
    exact ⟨by omega, .uint64, _, rfl, by decide, by decide, rfl, rfl⟩
  | int64 v =>
    cases h
    exact ⟨v.toUInt64.toNat_lt, .int64, _, rfl, by decide, by decide, rfl, by simp [carried]⟩
  | float bits =>
    cases h
    exact ⟨(Ieee.widen bits).toNat_lt, .float, _, rfl, by decide, by decide, rfl,
      by simp [carried]⟩
  | float32 bits =>
    cases h
    exact ⟨bits.toNat_lt, .float32, _, rfl, by decide, by decide, rfl, by simp [carried]⟩
  | double bits =>
    cases h
    exact ⟨bits.toNat_lt, .double, _, rfl, by decide, by decide, rfl, by simp [carried]⟩
  | string => cases h
  | wstring => cases h
  | other => cases h

theorem carried_eq_iff (hf : (fixedPayload v).isSome) :
    carried v = expected wchar4 v ↔ Carries realloc wchar4 v := by
  cases v with
  | uint64 v =>
    have hlow : (valueUint16OfUint64 v).toNat = v.toNat % 2 ^ 16 := by
      rw [valueUint16OfUint64, UInt32.toNat_toUInt16, UInt64.toNat_toUInt32]
      omega
    show Value.uint64 _ = Value.uint64 _ ↔ v.toNat < 2 ^ 16
    rw [Value.uint64.injEq, ← UInt64.toNat_inj, UInt64.toNat_ofNat', hlow]
    omega
  | float bits =>
    show Value.float _ = Value.float _ ↔ _
    rw [Value.float.injEq]
    exact Ieee.narrow_widen_iff bits
  | string => cases hf
  | wstring => cases hf
  | other => cases hf
  | _ => exact iff_of_true rfl trivial

/-- The bytes of the payload, if the value is written. -/
def payloadBytes (realloc : Nat → Bool) (wchar4 : Bool) (v : Value) : Option (List UInt8) :=
  match fixedPayload v with
  | some (n, number) => some (Bytes.ofNat n number)
  | none =>
    match v with
    | .string (some s) => some ((s.val ++ [0]).take ((s.val.length + 1) % 2 ^ 32))
    | .wstring (some s) =>
      match Utf8.tkUtf8DupWstr realloc wchar4 s.val with
      | some (some text) => some (text ++ [0])
      | _ => none
    | _ => none

theorem writePayload_eq_ok (realloc : Nat → Bool) (wchar4 : Bool) (wb wb' : WBuffer)
    (hv : Handled v) :
    writePayload realloc wchar4 wb v = some (.ok, wb') ↔
      ∃ p, payloadBytes realloc wchar4 v = some p ∧ wb.writeBinary realloc p = some (.ok, wb') := by
  unfold writePayload payloadBytes
  cases hf : fixedPayload v with
  | some f => exact ⟨fun h => ⟨_, rfl, h⟩, fun ⟨p, hp, h⟩ => by cases hp; exact h⟩
  | none =>
    cases v with
    | string s =>
      cases s with
      | none => exact absurd rfl hv
      | some s => exact ⟨fun h => ⟨_, rfl, h⟩, fun ⟨p, hp, h⟩ => by cases hp; exact h⟩
    | wstring s =>
      cases s with
      | none => exact absurd rfl hv
      | some s =>
        dsimp only
        cases hd : Utf8.tkUtf8DupWstr realloc wchar4 s.val with
        | none =>
          constructor
          · intro h
            cases h
          · rintro ⟨p, hp, _⟩
            cases hp
        | some text =>
          cases text with
          | none =>
          constructor
          · intro h
            cases h
          · rintro ⟨p, hp, _⟩
            cases hp
          | some text =>
            have hlen := (Utf8.tkUtf8DupWstr_text s.prop hd).2
            have hall : (text ++ [0]).take ((text.length + 1) % 2 ^ 32) = text ++ [0] := by
              rw [Nat.mod_eq_of_lt hlen]
              exact take_of_length_le (by simp)
            show writeString realloc wb (some text) = _ ↔ _
            rw [writeString, hall]
            exact ⟨fun h => ⟨_, rfl, h⟩, fun ⟨p, hp, h⟩ => by cases hp; exact h⟩
    | other => exact absurd hv id
    | _ => cases hf

/-! ## Writing a value -/

theorem wbufferWriteValue_eq_ok (hv : Handled v) :
    wbufferWriteValue realloc wchar4 wb v = some (.ok, wb') ↔
      ∃ w p, wb.writeUint8 realloc (writtenTag v) = some (.ok, w) ∧
        payloadBytes realloc wchar4 v = some p ∧ w.writeBinary realloc p = some (.ok, wb') := by
  unfold wbufferWriteValue
  cases hx : wb.writeUint8 realloc (writtenTag v) with
  | none => simp
  | some res =>
    obtain ⟨r, w⟩ := res
    have hp := writePayload_eq_ok realloc wchar4 w wb' hv
    cases r with
    | ok => simp [hp]
    | _ => simp

theorem wbufferWriteValue_contents (hw : wb.Ok) (hv : Handled v)
    (h : wbufferWriteValue realloc wchar4 wb v = some (.ok, wb')) :
    ∃ p, payloadBytes realloc wchar4 v = some p ∧ wb'.Ok ∧
      wb'.contents = wb.contents ++ writtenTag v :: p ∧ wb'.extendable = wb.extendable := by
  obtain ⟨w, p, hx, hp, hx'⟩ := (wbufferWriteValue_eq_ok hv).mp h
  obtain ⟨hok, hcont, hext⟩ := hw.writeBinary_ok hx
  obtain ⟨hok', hcont', hext'⟩ := hok.writeBinary_ok hx'
  exact ⟨p, hp, hok', by rw [hcont', hcont, append_assoc]; rfl, by rw [hext', hext]⟩

/-- The room a written value took, and what it takes to write one. -/
theorem wbufferWriteValue_room (hw : wb.Ok) (hext : wb.extendable = true) (hv : Handled v)
    {p : List UInt8} (hp : payloadBytes realloc wchar4 v = some p) (ns : List Nat) :
    HasRoom realloc wb.cursor wb.capacity (1 :: p.length :: ns) ↔
      ∃ wb', wbufferWriteValue realloc wchar4 wb v = some (.ok, wb') ∧
        HasRoom realloc wb'.cursor wb'.capacity ns := by
  constructor
  · rintro ⟨c, hc, hle, c', hc', hle', hrest⟩
    have hfit : wb.cursor + [writtenTag v].length ≤ c := hle
    obtain ⟨w, hx⟩ := hw.writeBinary_of_grown hext hc hfit
    obtain ⟨hgrown, _, hcur⟩ := hw.writeBinary_grown hext hx
    obtain ⟨hok, _, hext'⟩ := hw.writeBinary_ok hx
    have hcap : w.capacity = c := some.inj (hgrown.symm.trans hc)
    have hcur' : w.cursor = wb.cursor + 1 := hcur
    rw [← hcap, ← hcur'] at hc'
    rw [← hcur'] at hle' hrest
    obtain ⟨w', hx'⟩ := hok.writeBinary_of_grown (by rw [hext', hext]) hc' hle'
    obtain ⟨hgrown', _, hcur''⟩ := hok.writeBinary_grown (by rw [hext', hext]) hx'
    have hcap' : w'.capacity = c' := some.inj (hgrown'.symm.trans hc')
    refine ⟨w', (wbufferWriteValue_eq_ok hv).mpr ⟨w, p, hx, hp, hx'⟩, ?_⟩
    rw [hcap', hcur'']
    exact hrest
  · rintro ⟨wb', h, hrest⟩
    obtain ⟨w, p', hx, hp', hx'⟩ := (wbufferWriteValue_eq_ok hv).mp h
    cases hp.symm.trans hp'
    obtain ⟨hok, _, hext'⟩ := hw.writeBinary_ok hx
    obtain ⟨hgrown, hle, hcur⟩ := hw.writeBinary_grown hext hx
    obtain ⟨hgrown', hle', hcur'⟩ := hok.writeBinary_grown (by rw [hext', hext]) hx'
    have hcur1 : w.cursor = wb.cursor + 1 := hcur
    refine ⟨w.capacity, hgrown, hle, wb'.capacity, ?_, ?_, ?_⟩
    · rw [← hcur1]
      exact hgrown'
    · rw [← hcur1]
      exact hle'
    · rw [← hcur1, ← hcur']
      exact hrest

theorem writeValues_cons_eq_ok {vs : List Value} :
    writeValues realloc wchar4 wb (v :: vs) = some (.ok, wb') ↔
      ∃ w, wbufferWriteValue realloc wchar4 wb v = some (.ok, w) ∧
        writeValues realloc wchar4 w vs = some (.ok, wb') := by
  rw [writeValues]
  cases hx : wbufferWriteValue realloc wchar4 wb v with
  | none => simp
  | some res =>
    obtain ⟨r, w⟩ := res
    cases r <;> simp

theorem writeValues_contents : ∀ {vs : List Value} {wb : WBuffer}, wb.Ok → (∀ v ∈ vs, Handled v) →
    writeValues realloc wchar4 wb vs = some (.ok, wb') →
    wb'.Ok ∧ ∃ more, wb'.contents = wb.contents ++ more
  | [], wb, hw, _, h => by
    cases h
    exact ⟨hw, [], (append_nil _).symm⟩
  | v :: vs, wb, hw, hvs, h => by
    obtain ⟨w, hx, h⟩ := writeValues_cons_eq_ok.mp h
    obtain ⟨p, _, hok, hcont, _⟩ := wbufferWriteValue_contents hw (hvs v mem_cons_self) hx
    obtain ⟨hok', more, hmore⟩ :=
      writeValues_contents hok (fun v hv => hvs v (mem_cons_of_mem _ hv)) h
    exact ⟨hok', _, by rw [hmore, hcont, append_assoc]⟩

/-! ## Reading a value -/

variable {rb rb' : RBuffer} {more : List UInt8}

theorem readUint_tag {tag : UInt8} (h : rb.rest = tag :: more) (hcap : rb.capacity ≤ rb.data.length)
    (hcur : rb.cursor ≤ rb.capacity) :
    rb.readUint 1 = some (.ok, tag.toNat, { rb with cursor := rb.cursor + 1 }) := by
  have hread := RBuffer.readUint_of_rest (show rb.rest = [tag] ++ more from h) hcap hcur
  rwa [show Bytes.toNat [tag] = tag.toNat by rw [Bytes.toNat, Bytes.toNat]; rfl] at hread

theorem rest_succ {tag : UInt8} (h : rb.rest = tag :: more) :
    ({ rb with cursor := rb.cursor + 1 } : RBuffer).rest = more := by
  show (rb.data.take rb.capacity).drop (rb.cursor + 1) = more
  rw [← drop_drop, show (rb.data.take rb.capacity).drop rb.cursor = tag :: more from h]
  rfl

theorem cursor_lt {tag : UInt8} (h : rb.rest = tag :: more) : rb.cursor < rb.capacity := by
  have hlen := congrArg List.length h
  rw [RBuffer.rest, length_drop, length_take, length_cons] at hlen
  omega

theorem rbufferReadValue_fixed {n number : Nat} (hf : fixedPayload v = some (n, number))
    (h : rb.rest = writtenTag v :: (Bytes.ofNat n number ++ more))
    (hcap : rb.capacity ≤ rb.data.length) (hcur : rb.cursor ≤ rb.capacity) :
    rbufferReadValue rb =
      some (.ok, some (carried v), { rb with cursor := rb.cursor + 1 + n }) := by
  obtain ⟨hlt, t, set, htag, hstr, hwstr, hset, hcarried⟩ := fixedPayload_spec hf
  have hread : ({ rb with cursor := rb.cursor + 1 } : RBuffer).readUint n =
      some (.ok, number, { rb with cursor := rb.cursor + 1 + n }) := by
    have hrest := RBuffer.readUint_of_rest (rest_succ h) hcap (cursor_lt h)
    rwa [Bytes.ofNat_length, Bytes.toNat_ofNat, Nat.mod_eq_of_lt hlt] at hrest
  rw [rbufferReadValue, readUint_tag h hcap hcur, htag, bind_eq_bind, bind_some]
  dsimp only
  rw [UInt8.ofNat_toNat, ValueType.ofByte_toByte]
  cases t with
  | string => exact absurd rfl hstr
  | wstring => exact absurd rfl hwstr
  | _ =>
    dsimp only
    rw [hset]
    dsimp only
    rw [hread, ← hcarried]
    rfl

theorem CString.ofBytes_val {s : List UInt8} (hs : 0 ∉ s) : CString.ofBytes s = ⟨s, hs⟩ := by
  apply Subtype.ext
  show s.takeWhile (· ≠ 0) = s
  rw [takeWhile_eq_self_iff]
  intro b hb
  have hne : b ≠ 0 := fun h0 => hs (h0 ▸ hb)
  simpa using hne

theorem rbufferReadValue_stringTag (h : rb.rest = ValueType.string.toByte :: more)
    (hcap : rb.capacity ≤ rb.data.length) (hcur : rb.cursor ≤ rb.capacity) :
    rbufferReadValue rb = do
      let res ← ({ rb with cursor := rb.cursor + 1 } : RBuffer).readString
      return (res.1, some (.string (res.2.1.map CString.ofBytes)), res.2.2) := by
  rw [rbufferReadValue, readUint_tag h hcap hcur]
  rfl

theorem rbufferReadValue_string {s : List UInt8} (hs : 0 ∉ s)
    (h : rb.rest = ValueType.string.toByte :: (s ++ [0] ++ more))
    (hcap : rb.capacity ≤ rb.data.length) (hcur : rb.cursor ≤ rb.capacity)
    (hlt : rb.capacity < 2 ^ 32) :
    rbufferReadValue rb = some (.ok, some (.string (some ⟨s, hs⟩)),
      { rb with cursor := rb.cursor + 1 + (s.length + 1) }) := by
  have hrest : ({ rb with cursor := rb.cursor + 1 } : RBuffer).rest = s ++ 0 :: more := by
    rw [rest_succ h, append_assoc]
    rfl
  rw [rbufferReadValue_stringTag h hcap hcur,
    RBuffer.readString_of_rest hs hrest hcap (cursor_lt h) hlt, bind_eq_bind,
    bind_some]
  dsimp only
  rw [map_some, CString.ofBytes_val hs]
  rfl

theorem rbufferReadValue_string_length {s : CString}
    (h : rb.rest = ValueType.string.toByte :: more) (hcap : rb.capacity ≤ rb.data.length)
    (hcur : rb.cursor ≤ rb.capacity) (hlt : rb.capacity < 2 ^ 32)
    (hread : rbufferReadValue rb = some (.ok, some (.string (some s)), rb')) :
    s.val.length < rb.capacity := by
  let rb1 : RBuffer := { rb with cursor := rb.cursor + 1 }
  have hlen : rb1.rest.length = rb.capacity - (rb.cursor + 1) := RBuffer.rest_length hcap
  have hcur1 : rb1.cursor ≤ rb1.capacity := cursor_lt h
  have hread1 := @RBuffer.readString_eq rb1 hcap hcur1 hlt
  rw [rbufferReadValue_stringTag h hcap hcur, hread1] at hread
  by_cases h0 : 0 ∈ rb1.rest
  · rw [if_pos h0] at hread
    cases hread
    have htext := rb1.text_length_lt_iff.mpr h0
    have htake := ( takeWhile_prefix (l := rb1.text) (· ≠ 0)).length_le
    show (rb1.text.takeWhile (· ≠ 0)).length < rb.capacity
    omega
  · rw [if_neg h0] at hread
    cases hread

/-! ## One value -/

/-- A string whose size, terminator included, is a `uint32_t`. -/
def Short : Value → Prop
  | .string (some s) => s.val.length + 1 < 2 ^ 32
  | _ => True

/-- The reader that reads back what was written between two states of the
writer. -/
def readerOf (wb' : WBuffer) (cursor : Nat) : RBuffer := ⟨wb'.data, cursor, wb'.cursor⟩

theorem readerOf_rest (hw : wb.Ok) {bytes : List UInt8} (h : wb'.contents = wb.contents ++ bytes) :
    (readerOf wb' wb.cursor).rest = bytes := by
  show wb'.contents.drop wb.cursor = bytes
  rw [h, ← hw.contents_length, drop_left]

theorem short_of_fixed {f : Nat × Nat} (hf : fixedPayload v = some f) : Short v := by
  cases v with
  | string => cases hf
  | _ => trivial

theorem payloadSize_of_fixed {f : Nat × Nat} (hf : fixedPayload v = some f) :
    payloadSize wchar4 v = f.1 := by
  unfold payloadSize
  rw [hf]

theorem payloadBytes_length (hv : Handled v) (hc : Carries realloc wchar4 v) (hs : Short v) :
    ∃ p, payloadBytes realloc wchar4 v = some p ∧ p.length = payloadSize wchar4 v := by
  cases hf : fixedPayload v with
  | some f =>
    refine ⟨Bytes.ofNat f.1 f.2, by unfold payloadBytes; rw [hf], ?_⟩
    rw [payloadSize_of_fixed hf, Bytes.ofNat_length]
  | none =>
    cases v with
    | string s =>
      cases s with
      | none => exact absurd rfl hv
      | some s =>
        have hlen : s.val.length + 1 < 2 ^ 32 := hs
        refine ⟨_, rfl, ?_⟩
        rw [Nat.mod_eq_of_lt hlen, length_take]
        simp [payloadSize, fixedPayload]
    | wstring s =>
      cases s with
      | none => exact absurd rfl hv
      | some s =>
        have hdup := (Utf8.tkUtf8DupWstr_eq_encode_iff s.prop).mpr hc
        refine ⟨Utf8.encode wchar4 s.val ++ [0], ?_, ?_⟩
        · simp only [payloadBytes, fixedPayload, hdup]
        · simp [payloadSize, fixedPayload]
    | other => exact absurd hv id
    | _ => cases hf

/-- A value that is carried is read back as it is expected, and the reader moves
on as the writer did. -/
theorem read_written (hw : wb.Ok) (hw' : wb'.Ok) (hv : Handled v)
    (hc : Carries realloc wchar4 v) (hs : Short v) {p : List UInt8}
    (hp : payloadBytes realloc wchar4 v = some p)
    (hcont : wb'.contents = wb.contents ++ (writtenTag v :: (p ++ more)))
    (hcur : wb.cursor ≤ wb'.cursor) :
    rbufferReadValue (readerOf wb' wb.cursor) =
      some (.ok, some (expected wchar4 v), readerOf wb' (wb.cursor + 1 + p.length)) := by
  have hrest := readerOf_rest hw hcont
  have hcap : (readerOf wb' wb.cursor).capacity ≤ (readerOf wb' wb.cursor).data.length := by
    show wb'.cursor ≤ wb'.data.length
    rw [hw'.size]
    exact hw'.cursor
  have hlt : (readerOf wb' wb.cursor).capacity < 2 ^ 32 := Nat.lt_of_le_of_lt hw'.cursor hw'.bound
  cases hf : fixedPayload v with
  | some f =>
    obtain ⟨n, number⟩ := f
    have hbytes : p = Bytes.ofNat n number := by
      unfold payloadBytes at hp
      rw [hf] at hp
      exact (some.inj hp).symm
    rw [hbytes] at hrest ⊢
    rw [rbufferReadValue_fixed hf hrest hcap hcur,
      (carried_eq_iff (by rw [hf]; rfl)).mpr hc, Bytes.ofNat_length]
    rfl
  | none =>
    cases v with
    | string s =>
      cases s with
      | none => exact absurd rfl hv
      | some s =>
        have hlen : s.val.length + 1 < 2 ^ 32 := hs
        have hbytes : p = s.val ++ [0] := by
          rw [← some.inj hp, Nat.mod_eq_of_lt hlen]
          exact take_of_length_le (by simp)
        rw [hbytes] at hrest ⊢
        rw [rbufferReadValue_string s.prop hrest hcap hcur hlt, length_append]
        rfl
    | wstring s =>
      cases s with
      | none => exact absurd rfl hv
      | some s =>
        have hdup := (Utf8.tkUtf8DupWstr_eq_encode_iff s.prop).mpr hc
        have hbytes : p = Utf8.encode wchar4 s.val ++ [0] := by
          simp only [payloadBytes, fixedPayload, hdup] at hp
          exact (some.inj hp).symm
        rw [hbytes] at hrest ⊢
        rw [rbufferReadValue_string (Utf8.encode_zero_notMem s.prop) hrest hcap hcur hlt,
          length_append]
        rfl
    | other => exact absurd hv id
    | _ => cases hf

/-- A value that is read back as it is expected is one that is carried. -/
theorem carries_of_read (hw : wb.Ok) (hw' : wb'.Ok) (hv : Handled v) {p : List UInt8}
    (hp : payloadBytes realloc wchar4 v = some p)
    (hcont : wb'.contents = wb.contents ++ (writtenTag v :: (p ++ more)))
    (hcur : wb.cursor ≤ wb'.cursor)
    (hread : rbufferReadValue (readerOf wb' wb.cursor) =
      some (.ok, some (expected wchar4 v), rb')) :
    Carries realloc wchar4 v ∧ Short v := by
  have hrest := readerOf_rest hw hcont
  have hcap : (readerOf wb' wb.cursor).capacity ≤ (readerOf wb' wb.cursor).data.length := by
    show wb'.cursor ≤ wb'.data.length
    rw [hw'.size]
    exact hw'.cursor
  have hlt : (readerOf wb' wb.cursor).capacity < 2 ^ 32 := Nat.lt_of_le_of_lt hw'.cursor hw'.bound
  cases hf : fixedPayload v with
  | some f =>
    obtain ⟨n, number⟩ := f
    have hbytes : p = Bytes.ofNat n number := by
      unfold payloadBytes at hp
      rw [hf] at hp
      exact (some.inj hp).symm
    rw [hbytes] at hrest
    rw [rbufferReadValue_fixed hf hrest hcap hcur] at hread
    have heq : carried v = expected wchar4 v := by
      simp only [some.injEq, Prod.mk.injEq] at hread
      exact hread.2.1
    exact ⟨(carried_eq_iff (by rw [hf]; rfl)).mp heq, short_of_fixed hf⟩
  | none =>
    cases v with
    | string s =>
      cases s with
      | none => exact absurd rfl hv
      | some s =>
        refine ⟨trivial, ?_⟩
        have hlt := rbufferReadValue_string_length hrest hcap hcur hlt hread
        have hb := hw'.bound
        have hc := hw'.cursor
        show s.val.length + 1 < 2 ^ 32
        have hcap' : (readerOf wb' wb.cursor).capacity = wb'.cursor := rfl
        omega
    | wstring s =>
      cases s with
      | none => exact absurd rfl hv
      | some s =>
        refine ⟨(Utf8.tkUtf8DupWstr_eq_encode_iff s.prop).mp ?_, trivial⟩
        simp only [payloadBytes, fixedPayload] at hp
        cases hd : Utf8.tkUtf8DupWstr realloc wchar4 s.val with
        | none => rw [hd] at hp; cases hp
        | some text =>
          cases text with
          | none => rw [hd] at hp; cases hp
          | some text =>
            rw [hd] at hp
            cases hp
            obtain ⟨hzero, _⟩ := Utf8.tkUtf8DupWstr_text s.prop hd
            rw [rbufferReadValue_string hzero hrest hcap hcur hlt] at hread
            simp only [Prod.mk.injEq, some.injEq] at hread
            have htext : text = Utf8.encode wchar4 s.val := by
              have hvalue := hread.2.1
              simp only [expected, Value.string.injEq, some.injEq, Subtype.mk.injEq]
                at hvalue
              exact hvalue
            rw [htext]
    | other => exact absurd hv id
    | _ => cases hf

/-! ## Sequences -/

theorem readValues_succ_eq_some {n : Nat} {vs : List Value} {rb1 : RBuffer}
    (h : rbufferReadValue rb = some (.ok, some v, rb1)) :
    readValues (n + 1) rb = some (v :: vs, rb') ↔ readValues n rb1 = some (vs, rb') := by
  rw [readValues, h, bind_eq_bind, bind_some]
  dsimp only
  cases readValues n rb1 with
  | none => simp
  | some res =>
    obtain ⟨vs', rb''⟩ := res
    simp

theorem readValues_succ_head {n : Nat} {vs : List Value}
    (h : readValues (n + 1) rb = some (v :: vs, rb')) :
    ∃ rb1, rbufferReadValue rb = some (.ok, some v, rb1) := by
  rw [readValues] at h
  cases hr : rbufferReadValue rb with
  | none =>
    rw [hr] at h
    cases h
  | some res =>
    obtain ⟨ret, val, rb1⟩ := res
    rw [hr] at h
    cases ret with
    | ok =>
      cases val with
      | none => cases h
      | some val =>
        have h : ((readValues n rb1).bind fun res => some (val :: res.1, res.2)) =
          some (v :: vs, rb') := h
        obtain ⟨⟨vs', rb''⟩, _, h⟩ := bind_eq_some_iff.mp h
        cases h
        exact ⟨rb1, rfl⟩
    | _ => cases h

theorem short_of_hasRoom {cursor capacity : Nat} {ns : List Nat} (hcap : capacity < 2 ^ 32)
    (h : HasRoom realloc cursor capacity (1 :: payloadSize wchar4 v :: ns)) : Short v := by
  obtain ⟨c, hc, _, c', hc', hle, _⟩ := h
  have hlt : ∀ {old need c}, grownCapacity realloc old need = some c → old < 2 ^ 32 →
      c < 2 ^ 32 := by
    intro old need c hg hold
    unfold grownCapacity at hg
    split at hg
    · cases hg
      exact hold
    · split at hg
      case isTrue hr =>
        cases hg
        exact hr.1
      case isFalse => cases hg
  have hc'lt := hlt hc' (hlt hc hcap)
  cases v with
  | string s =>
    cases s with
    | none => trivial
    | some s =>
      have hsize : payloadSize wchar4 (.string (some s)) = s.val.length + 1 := rfl
      show s.val.length + 1 < 2 ^ 32
      omega
  | _ => trivial

/-- A sequence survives exactly if it has room and every value is carried. -/
theorem roundTrips_iff : ∀ {vs : List Value} {wb : WBuffer}, wb.Ok → wb.extendable = true →
    (∀ v ∈ vs, Handled v) →
    (RoundTrips realloc wchar4 wb vs ↔
      HasRoom realloc wb.cursor wb.capacity (pieceSizes wchar4 vs) ∧
        ∀ v ∈ vs, Carries realloc wchar4 v)
  | [], wb, _, _, _ => by
    refine iff_of_true ⟨wb, rfl, ⟨wb.data, wb.cursor, wb.cursor⟩, rfl, rfl⟩ ⟨trivial, ?_⟩
    intro v hv
    cases hv
  | v :: vs, wb, hw, hext, hvs => by
    have hv := hvs v mem_cons_self
    have hvs' := fun v hv => hvs v (mem_cons_of_mem _ hv)
    -- what the first call writes, where the last one succeeds
    have hfirst : ∀ {w wb'}, wbufferWriteValue realloc wchar4 wb v = some (.ok, w) →
        writeValues realloc wchar4 w vs = some (.ok, wb') →
        w.Ok ∧ w.extendable = true ∧ wb'.Ok ∧ wb.cursor ≤ wb'.cursor ∧ ∃ p more,
          payloadBytes realloc wchar4 v = some p ∧ w.cursor = wb.cursor + 1 + p.length ∧
          wb'.contents = wb.contents ++ (writtenTag v :: (p ++ more)) := by
      intro w wb' hx hxs
      obtain ⟨p, hp, hok, hcont, hext'⟩ := wbufferWriteValue_contents hw hv hx
      obtain ⟨hok', more, hmore⟩ := writeValues_contents hok hvs' hxs
      have hcur : w.cursor = wb.cursor + 1 + p.length := by
        rw [← hok.contents_length, hcont, length_append, hw.contents_length,
          length_cons]
        omega
      have hcur' : w.cursor + more.length = wb'.cursor := by
        rw [← hok'.contents_length, hmore, length_append, hok.contents_length]
      refine ⟨hok, by rw [hext', hext], hok', by omega, p, more, hp, hcur, ?_⟩
      rw [hmore, hcont, append_assoc]
      rfl
    constructor
    · rintro ⟨wb', hx, rb', hread, hend⟩
      obtain ⟨w, hx, hxs⟩ := writeValues_cons_eq_ok.mp hx
      obtain ⟨hok, hext', hok', hle, p, more, hp, hcur, hcont⟩ := hfirst hx hxs
      obtain ⟨rb1, hread1⟩ := readValues_succ_head hread
      obtain ⟨hcarry, hshort⟩ := carries_of_read hw hok' hv hp hcont hle hread1
      have hread1' := read_written hw hok' hv hcarry hshort hp hcont hle
      rw [← hcur] at hread1'
      have hrest := (readValues_succ_eq_some hread1').mp hread
      obtain ⟨hroom, hcarries⟩ := (roundTrips_iff hok hext' hvs').mp
        ⟨wb', hxs, rb', hrest, hend⟩
      obtain ⟨p', hp', hsize⟩ := payloadBytes_length hv hcarry hshort
      cases hp.symm.trans hp'
      refine ⟨?_, forall_mem_cons.mpr ⟨hcarry, hcarries⟩⟩
      rw [pieceSizes, ← hsize]
      exact (wbufferWriteValue_room hw hext hv hp _).mpr ⟨w, hx, hroom⟩
    · rintro ⟨hroom, hcarries⟩
      obtain ⟨hcarry, hcarries⟩ := forall_mem_cons.mp hcarries
      have hshort : Short v := short_of_hasRoom hw.bound hroom
      obtain ⟨p, hp, hsize⟩ := payloadBytes_length hv hcarry hshort
      rw [pieceSizes, ← hsize] at hroom
      obtain ⟨w, hx, hroom⟩ := (wbufferWriteValue_room hw hext hv hp _).mp hroom
      obtain ⟨p', hp', hok, _, hext'⟩ := wbufferWriteValue_contents hw hv hx
      obtain ⟨wb', hxs, rb', hread, hend⟩ :=
        (roundTrips_iff hok (by rw [hext', hext]) hvs').mpr ⟨hroom, hcarries⟩
      obtain ⟨_, _, hok', hle, p'', more, hp'', hcur, hcont⟩ := hfirst hx hxs
      have hread1 := read_written hw hok' hv hcarry hshort hp'' hcont hle
      rw [← hcur] at hread1
      exact ⟨wb', writeValues_cons_eq_ok.mpr ⟨w, hx, hxs⟩, rb',
        (readValues_succ_eq_some hread1).mpr hread, hend⟩

/-- The values of the switch on a fresh buffer: a string, a `float` and the
largest `uint64` that is carried. -/
theorem roundTrips_iff_three :
    RoundTrips (fun _ => true) true initExtendable
        [.string (some ⟨[65, 66], by decide⟩), .float 0x3fc00000, .uint64 65535] ↔
      HasRoom (fun _ => true) 0 0 [1, 3, 1, 8, 1, 8] ∧
        ∀ v ∈ [Value.string (some ⟨[65, 66], by decide⟩), .float 0x3fc00000, .uint64 65535],
          Carries (fun _ => true) true v :=
  roundTrips_iff initExtendable_ok rfl (by
    intro v hv
    simp only [mem_cons, not_mem_nil, or_false] at hv
    obtain rfl | rfl | rfl := hv <;> simp [Handled])

/-- The number 65536 comes back as 0. -/
theorem not_roundTrips_uint64 :
    ¬ RoundTrips (fun _ => true) true initExtendable [.uint64 65536] := by
  rintro ⟨wb', hx, rb', hread, _⟩
  have hrun : writeValues (fun _ => true) true initExtendable [.uint64 65536] =
      some (.ok, ⟨[9, 0, 0, 0, 0, 0, 0, 0, 0, 0], 9, 10, true⟩) := by decide
  rw [hrun] at hx
  cases hx
  have hzero : readValues 1 ⟨[9, 0, 0, 0, 0, 0, 0, 0, 0, 0], 0, 9⟩ =
      some ([.uint64 0], ⟨[9, 0, 0, 0, 0, 0, 0, 0, 0, 0], 9, 9⟩) := by decide
  have hcontra := hzero.symm.trans hread
  simp [expected] at hcontra

end Awtk.BufferValue
