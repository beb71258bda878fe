import Awtk.Lib.Run
import Awtk.Tkc.BufferValue

/-!
# Bounds of the read buffer

A run is a list of operations on one buffer.  The cursor stays inside the block
and no byte behind the capacity is looked at in every run whose steps meet
`Fits` (`inBounds_of_run`).  The typed reads and peeks, the strings and the
rewind need no condition; the sum in `rbuffer_read_binary` must not wrap, those
in `rbuffer_skip` must be an `int`, and the groups `__decode_hex` takes apart must
end inside the block.
-/

namespace Awtk.RBuffer

open List Option

/-! ## Runs -/

/-- The widths of the typed operations. -/
inductive Width where
  | w8
  | w16
  | w32
  | w64

def Width.bytes : Width → Nat
  | w8 => 1
  | w16 => 2
  | w32 => 4
  | w64 => 8

inductive Op where
  | read (w : Width)
  | peek (w : Width)
  | readBinary (size : UInt32)
  | readString
  | readValue
  | readFromHexstr (w : Width)
  | skip (offset : Int32)
  | rewind

/-- The buffer after an operation. -/
def step (rb : RBuffer) : Op → Option RBuffer
  | .read w => (rb.readUint w.bytes).map (·.2.2)
  | .peek w => (rb.peekUint w.bytes).map fun _ => rb
  | .readBinary size => (rb.readBinary size.toNat).map (·.2.2)
  | .readString => rb.readString.map (·.2.2)
  | .readValue => (BufferValue.rbufferReadValue rb).map (·.2.2)
  | .readFromHexstr w => (rb.readFromHexstr w.bytes).map (·.2.2)
  | .skip offset => (rb.skip offset.toInt).map (·.2)
  | .rewind => some rb.rewind

/-- Every operation of the run looks at bytes of the block only and leaves the
cursor inside it. -/
def InBounds (rb : RBuffer) (ops : List Op) : Prop :=
  Runs.Meets step (fun rb op => ∃ rb', step rb op = some rb' ∧ rb'.Ok) rb ops

/-! ## The condition -/

/-- What is left of `0x` and what follows. -/
def dropPrefix : List UInt8 → List UInt8
  | 0x30 :: x :: cs => if x = 0x78 ∨ x = 0x58 then cs else 0x30 :: x :: cs
  | bs => bs

/-- The two characters of a group and what follows: separators and a prefix come
before them. -/
def group (bs : List UInt8) : List UInt8 := dropPrefix (bs.dropWhile isSeparator)

/-- The first `n` groups that start among the next `text` bytes end inside the
block. -/
def HexRoom : (n text : Nat) → List UInt8 → Prop
  | 0, _, _ => True
  | n + 1, text, bs =>
    text = 0 ∨ 2 ≤ (group bs).length ∧
      let bs' := (group bs).drop 2
      HexRoom n (text - (bs.length - bs'.length)) bs'

instance decidableHexRoom : ∀ n text bs, Decidable (HexRoom n text bs)
  | 0, _, _ => .isTrue trivial
  | n + 1, text, bs =>
    have := decidableHexRoom n (text - (bs.length - ((group bs).drop 2).length)) ((group bs).drop 2)
    inferInstanceAs (Decidable (_ ∨ _ ∧ _))

/-- What an operation relies on. -/
def Fits (rb : RBuffer) : Op → Prop
  | .readBinary size => rb.cursor + size.toNat < 2 ^ 32
  | .skip offset =>
    -2 ^ 31 ≤ I32.ofU32 rb.cursor + offset.toInt ∧ I32.ofU32 rb.cursor + offset.toInt < 2 ^ 31
  | .readValue => rb.cursor + 1 ≠ 2 ^ 31 ∨
    ∀ tag ∈ rb.rest.head?, BufferValue.ValueType.ofByte tag ∉ [none, some .wstring]
  | .readFromHexstr w => HexRoom w.bytes rb.text.length rb.rest
  | .read _ | .peek _ | .readString | .rewind => True

instance (rb : RBuffer) : (op : Op) → Decidable (rb.Fits op)
  | .readBinary size => inferInstanceAs (Decidable (rb.cursor + size.toNat < 2 ^ 32))
  | .skip offset =>
    inferInstanceAs (Decidable (-2 ^ 31 ≤ I32.ofU32 rb.cursor + offset.toInt ∧
      I32.ofU32 rb.cursor + offset.toInt < 2 ^ 31))
  | .readValue =>
    inferInstanceAs (Decidable (rb.cursor + 1 ≠ 2 ^ 31 ∨
      ∀ tag ∈ rb.rest.head?, BufferValue.ValueType.ofByte tag ∉ [none, some .wstring]))
  | .readFromHexstr w => inferInstanceAs (Decidable (HexRoom w.bytes rb.text.length rb.rest))
  | .read _ | .peek _ | .readString | .rewind => inferInstanceAs (Decidable True)

/-! ## Reading behind the cursor -/

variable {rb : RBuffer}

theorem Ok.move (h : rb.Ok) {cursor : Nat} (hc : cursor ≤ rb.capacity) :
    RBuffer.Ok { rb with cursor } :=
  ⟨h.size, hc, h.bound⟩

/-- The bytes of the block from an index on. -/
def from_ (rb : RBuffer) (p : Nat) : List UInt8 := (rb.data.take rb.capacity).drop p

theorem Ok.from_length (h : rb.Ok) (p : Nat) : (rb.from_ p).length = rb.capacity - p := by
  rw [from_, length_drop, length_take, h.size, Nat.min_self]

theorem from_succ {p : Nat} {c : UInt8} {cs : List UInt8} (h : rb.from_ p = c :: cs) :
    rb.byte? p = some c ∧ rb.from_ (p + 1) = cs :=
  ⟨byte?_of_drop h, drop_succ_of_drop h⟩

theorem skipSeparators_spec : ∀ {bs : List UInt8} {p : Nat}, rb.from_ p = bs →
    bs.dropWhile isSeparator ≠ [] →
    ∃ q, rb.skipSeparators bs.length p = some q ∧ p ≤ q ∧ rb.from_ q = bs.dropWhile isSeparator
  | [], _, _, hne => absurd rfl hne
  | c :: cs, p, h, hne => by
    obtain ⟨hc, hcs⟩ := from_succ h
    rw [length_cons, skipSeparators, hc, bind_eq_bind, bind_some]
    cases hs : isSeparator c with
    | true =>
      rw [dropWhile_cons_of_pos hs] at hne ⊢
      obtain ⟨q, hq, hle, hfrom⟩ := skipSeparators_spec hcs hne
      exact ⟨q, hq, Nat.le_of_succ_le hle, hfrom⟩
    | false =>
      rw [dropWhile_cons_of_neg (by rw [hs]; decide)]
      exact ⟨p, rfl, Nat.le_refl p, h⟩

theorem skipPrefix_spec {bs : List UInt8} {p : Nat} (h : rb.from_ p = bs)
    (hlen : 2 ≤ (dropPrefix bs).length) :
    ∃ q, rb.skipPrefix p = some q ∧ p ≤ q ∧ rb.from_ q = dropPrefix bs := by
  cases bs with
  | nil => exact absurd hlen (by decide)
  | cons c cs =>
    obtain ⟨hc, hcs⟩ := from_succ h
    rw [skipPrefix, hc, bind_eq_bind, bind_some]
    by_cases hzero : c = 0x30
    · subst hzero
      cases cs with
      | nil => exact absurd hlen (by decide)
      | cons x cs =>
        obtain ⟨hx, hcs'⟩ := from_succ hcs
        rw [if_pos rfl, hx, bind_some]
        by_cases hp : x = 0x78 ∨ x = 0x58
        · exact ⟨p + 2, by rw [if_pos hp]; rfl, Nat.le_add_right p 2, hcs'.trans (if_pos hp).symm⟩
        · exact ⟨p, by rw [if_neg hp]; rfl, Nat.le_refl p, h.trans (if_neg hp).symm⟩
    · rw [if_neg hzero]
      refine ⟨p, rfl, Nat.le_refl p, ?_⟩
      rw [h, dropPrefix]
      intro x cs' heq
      exact absurd (List.cons.inj heq).1 hzero

theorem copyTwo_spec {p : Nat} (h : 2 ≤ (rb.from_ p).length) : ∃ v, rb.copyTwo p = some v := by
  obtain ⟨c, d, cs, hcs⟩ : ∃ c d cs, rb.from_ p = c :: d :: cs := by
    match hb : rb.from_ p, h with
    | c :: d :: cs, _ => exact ⟨c, d, cs, rfl⟩
  obtain ⟨hc, hd⟩ := from_succ hcs
  rw [copyTwo, hc, (from_succ hd).1]
  by_cases hzero : c = 0
  · exact ⟨[], by simp [hzero]⟩
  · exact ⟨_, by simp only [bind_eq_bind, bind_some, if_neg hzero]; rfl⟩

/-- With room for its groups the loop of `__decode_hex` ends inside the block. -/
theorem decodeHexLoop_spec (h : rb.Ok) (stop : Nat) : ∀ {n p : Nat}, p ≤ rb.capacity →
    HexRoom n (stop - p) (rb.from_ p) →
    ∃ bytes q, rb.decodeHexLoop stop n p = some (bytes, q) ∧ p ≤ q ∧ q ≤ rb.capacity
  | 0, p, hp, _ => ⟨[], p, rfl, Nat.le_refl p, hp⟩
  | n + 1, p, hp, hroom => by
    rw [decodeHexLoop]
    split_ifs with hlt
    · obtain hzero | ⟨hlen, hroom⟩ := hroom
      · omega
      have hbs := h.from_length p
      have hsep : (rb.from_ p).dropWhile isSeparator ≠ [] := by
        intro hnil
        rw [group, hnil] at hlen
        exact absurd hlen (by decide)
      obtain ⟨q₁, hq₁, hle₁, hfrom₁⟩ := skipSeparators_spec rfl hsep
      obtain ⟨q₂, hq₂, hle₂, hfrom₂⟩ := skipPrefix_spec hfrom₁ hlen
      have hfrom₂ : rb.from_ q₂ = group (rb.from_ p) := hfrom₂
      obtain ⟨v, hv⟩ := copyTwo_spec (by rw [hfrom₂]; exact hlen)
      have hfrom₃ : rb.from_ (q₂ + 2) = (group (rb.from_ p)).drop 2 := by
        rw [← hfrom₂, from_, from_, drop_drop]
      have hlen₂ := h.from_length q₂
      rw [hfrom₂] at hlen₂
      have hroom : HexRoom n (stop - p - ((rb.from_ p).length - (rb.from_ (q₂ + 2)).length))
          (rb.from_ (q₂ + 2)) := hfrom₃ ▸ hroom
      have hnext : stop - p - ((rb.from_ p).length - (rb.from_ (q₂ + 2)).length) =
          stop - (q₂ + 2) := by
        rw [hbs, h.from_length]
        omega
      rw [hnext] at hroom
      obtain ⟨bytes, q, hx, hle, hq⟩ := decodeHexLoop_spec h stop (by omega) hroom
      rw [hbs] at hq₁
      refine ⟨UInt8.ofNat (strtol16 v % 256).toNat :: bytes, q, ?_, by omega, hq⟩
      simp only [hq₁, hq₂, hv, hx, bind_eq_bind, bind_some]
      rfl
    · exact ⟨[], p, rfl, Nat.le_refl p, hp⟩

theorem readFromHexstr_spec (h : rb.Ok) {n : Nat} (hroom : HexRoom n rb.text.length rb.rest) :
    ∃ res, rb.readFromHexstr n = some res ∧ res.2.2.Ok := by
  have hc := h.cursor
  have hb := h.bound
  have htext : rb.cursor + rb.text.length - rb.cursor = rb.text.length := Nat.add_sub_cancel_left ..
  obtain ⟨bytes, q, hx, hle, hq⟩ := decodeHexLoop_spec h (rb.cursor + rb.text.length) hc
    (show HexRoom n _ rb.rest by rw [htext]; exact hroom)
  have hcur : U32.add rb.cursor (q - rb.cursor) = q := by
    rw [U32.add_of_lt (by omega)]
    omega
  rw [readFromHexstr, tkStrnlen_cursor h.size.ge hc hb, bind_eq_bind, bind_some, hx]
  exact ⟨_, rfl, h.move (by rw [hcur]; exact hq)⟩

/-! ## Steps -/

theorem readUint_inBounds (h : rb.Ok) (n : Nat) :
    ∃ res, rb.readUint n = some res ∧ res.2.2.Ok := by
  rw [readUint_eq]
  split_ifs with hle
  · exact ⟨_, rfl, h.move hle⟩
  · exact ⟨_, rfl, h⟩

theorem readString_inBounds (h : rb.Ok) : ∃ res, rb.readString = some res ∧ res.2.2.Ok := by
  have hlen := rest_length h.size.ge
  rw [readString_eq h.size.ge h.cursor h.bound]
  by_cases h0 : 0 ∈ rb.rest
  · have hlt := rb.text_length_lt_iff.mpr h0
    rw [if_pos h0]
    exact ⟨_, rfl, h.move (by omega)⟩
  · rw [if_neg h0]
    exact ⟨_, rfl, h⟩

theorem skip_inBounds (h : rb.Ok) {offset : Int}
    (hlow : -2 ^ 31 ≤ I32.ofU32 rb.cursor + offset) (hhigh : I32.ofU32 rb.cursor + offset < 2 ^ 31) :
    ∃ res, rb.skip offset = some res ∧ res.2.Ok := by
  rw [skip, if_neg (by omega)]
  split_ifs with hin
  · exact ⟨_, rfl, h.move (by omega)⟩
  · exact ⟨_, rfl, h⟩

/-- A value is read inside the block, and an unknown tag is taken back where its
end is not the smallest `int`. -/
theorem readValue_inBounds (h : rb.Ok) (hfits : rb.Fits .readValue) :
    ∃ res, BufferValue.rbufferReadValue rb = some res ∧ res.2.2.Ok := by
  have hlen := rest_length h.size.ge
  have hc := h.cursor
  have hb := h.bound
  cases hrest : rb.rest with
  | nil =>
    rw [hrest, length_nil] at hlen
    rw [BufferValue.rbufferReadValue, readUint_eq, if_neg (by omega)]
    exact ⟨_, rfl, h⟩
  | cons tag more =>
    rw [hrest, length_cons] at hlen
    have h1 : RBuffer.Ok { rb with cursor := rb.cursor + 1 } := h.move (by omega)
    have htag := readUint_of_rest (show rb.rest = [tag] ++ more from hrest) h.size.ge hc
    have hnat : Bytes.toNat [tag] = tag.toNat := by
      rw [Bytes.toNat, Bytes.toNat]
      rfl
    have htag : rb.readUint 1 = some (.ok, tag.toNat, { rb with cursor := rb.cursor + 1 }) := by
      rw [← hnat]
      exact htag
    have hunknown (ht : BufferValue.ValueType.ofByte tag ∈ [none, some .wstring]) :
        ∃ res, RBuffer.skip { rb with cursor := rb.cursor + 1 } (-1) = some res ∧ res.2.Ok := by
      have hne : rb.cursor + 1 ≠ 2 ^ 31 := by
        cases hfits with
        | inl hne => exact hne
        | inr hknown => exact absurd ht (hknown tag (by rw [hrest]; rfl))
      have hcursor : I32.ofU32 (rb.cursor + 1) + -1 < 2 ^ 31 ∧
          -2 ^ 31 ≤ I32.ofU32 (rb.cursor + 1) + -1 := by
        unfold I32.ofU32
        split
        all_goals omega
      exact skip_inBounds h1 hcursor.2 hcursor.1
    rw [BufferValue.rbufferReadValue, htag, bind_eq_bind, bind_some]
    dsimp only
    rw [UInt8.ofNat_toNat]
    cases ht : BufferValue.ValueType.ofByte tag with
    | none =>
      obtain ⟨res, hx, hok⟩ := hunknown (by rw [ht]; exact mem_cons_self)
      dsimp only
      rw [hx]
      exact ⟨_, rfl, hok⟩
    | some t =>
      cases hs : BufferValue.fixedSetter t with
      | none =>
        cases t with
        | string =>
          obtain ⟨res, hx, hok⟩ := readString_inBounds h1
          dsimp only
          rw [hx]
          exact ⟨_, rfl, hok⟩
        | wstring =>
          obtain ⟨res, hx, hok⟩ := hunknown (by rw [ht]; simp)
          dsimp only
          rw [hx]
          exact ⟨_, rfl, hok⟩
        | _ => cases hs
      | some f =>
        obtain ⟨n, set⟩ := f
        obtain ⟨res, hx, hok⟩ := readUint_inBounds h1 n
        cases t with
        | string => cases hs
        | wstring => cases hs
        | _ =>
          dsimp only
          rw [hs]
          dsimp only
          rw [hx]
          exact ⟨_, rfl, hok⟩

theorem step_inBounds (op : Op) (h : rb.Ok) (hfits : rb.Fits op) :
    ∃ rb', step rb op = some rb' ∧ rb'.Ok := by
  have hc := h.cursor
  cases op with
  | read w =>
    obtain ⟨res, hx, hok⟩ := readUint_inBounds h w.bytes
    exact ⟨res.2.2, by rw [step, hx]; rfl, hok⟩
  | peek w =>
    rw [step, peekUint]
    split_ifs with hle
    · rw [load_cursor hle]
      exact ⟨rb, rfl, h⟩
    · exact ⟨rb, rfl, h⟩
  | readBinary size =>
    have hsum : U32.add rb.cursor size.toNat = rb.cursor + size.toNat := U32.add_of_lt hfits
    rw [step, readBinary, hsum]
    split_ifs with hle
    · rw [load_cursor hle]
      exact ⟨_, rfl, h.move hle⟩
    · exact ⟨_, rfl, h⟩
  | readString =>
    obtain ⟨res, hx, hok⟩ := readString_inBounds h
    exact ⟨res.2.2, by rw [step, hx]; rfl, hok⟩
  | readValue =>
    obtain ⟨res, hx, hok⟩ := readValue_inBounds h hfits
    exact ⟨res.2.2, by rw [step, hx]; rfl, hok⟩
  | readFromHexstr w =>
    obtain ⟨res, hx, hok⟩ := readFromHexstr_spec h hfits
    exact ⟨res.2.2, by rw [step, hx]; rfl, hok⟩
  | skip offset =>
    obtain ⟨res, hx, hok⟩ := skip_inBounds h hfits.1 hfits.2
    exact ⟨res.2, by rw [step, hx]; rfl, hok⟩
  | rewind => exact ⟨rb.rewind, rfl, h.move (Nat.zero_le _)⟩

/-- A run whose operations fit is in bounds. -/
theorem inBounds_of_run (data : List UInt8) (ops : List Op) (hlen : data.length < 2 ^ 32)
    (hfits : Runs.Meets step Fits (init data data.length) ops) :
    InBounds (init data data.length) ops :=
  Runs.meets_enabled (fun _ op h hf => step_inBounds op h hf)
    ⟨rfl, Nat.zero_le _, hlen⟩ hfits

/-- A tagged string, a hexadecimal number with a separator and a prefix, a binary
block, and the way back. -/
theorem inBounds_of_run_short :
    InBounds (init [14, 65, 0, 0x20, 0x30, 0x78, 0x31, 0x32, 0, 9] 10)
      [.readValue, .readFromHexstr .w16, .readBinary 1, .skip (-2), .peek .w16, .rewind] :=
  inBounds_of_run _ _ (by decide) (by decide +kernel)

/-- The sum of cursor and size wraps, and the whole address space is copied.  A
blank behind the last digit moves the cursor behind the capacity. -/
theorem not_inBounds_wrap :
    ¬ InBounds (init [7, 8] 2) [.read .w8, .readBinary 4294967295] ∧
      ¬ InBounds (init [0x31, 0x32, 0x20, 0] 4) [.readFromHexstr .w16] := by
  constructor
  · intro h
    obtain ⟨rb', hx, -⟩ := (h.2 ⟨[7, 8], 1, 2⟩ (by decide)).1
    have hnone : step ⟨[7, 8], 1, 2⟩ (.readBinary 4294967295) = none := by decide
    rw [hnone] at hx
    cases hx
  · intro h
    obtain ⟨rb', hx, hok⟩ := h.1
    have hend : step (init [0x31, 0x32, 0x20, 0] 4) (.readFromHexstr .w16) =
        some ⟨[0x31, 0x32, 0x20, 0], 5, 4⟩ := by decide +kernel
    rw [hend] at hx
    cases hx
    exact absurd hok.cursor (by decide)

end Awtk.RBuffer
