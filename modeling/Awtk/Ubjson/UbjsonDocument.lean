import Awtk.Ubjson.UbjsonParser

/-!
# UBJSON documents

`Doc` is what a UBJSON text stands for.  What the writer makes of it is parsed as the
events of the document in their order (`parse_encode`).  Where the callback refuses one of
them the parser stops, and the events behind it are lost.
-/

namespace Awtk.Ubjson

open List Option

/-- A value, an optimized array of bytes, or a container. -/
inductive Doc where
  | value (v : Value)
  | bytes (data : List UInt8)
  | array (items : List Doc)
  | object (members : List (Str × Doc))

namespace Doc

/-- The bytes of a value. -/
def encodeValue : Value → Option (List UInt8)
  | .bool v => some (if v then Writer.writeTrue else Writer.writeFalse)
  | .int8 v => some (Writer.writeInt8 v)
  | .uint8 v => some (Writer.writeUint8 v)
  | .int16 v => some (Writer.writeInt16 v)
  | .uint16 v => some (Writer.writeUint16 v)
  | .int32 v => some (Writer.writeInt32 v)
  | .uint32 v => some (Writer.writeUint32 v)
  | .int64 v => some (Writer.writeInt64 v)
  | .uint64 v => some (Writer.writeUint64 v)
  | .pointer v => some (Writer.writePointer v)
  | .float32 bits => some (Writer.writeFloat32 bits)
  | .double bits => some (Writer.writeFloat64 bits)
  | .str s => Writer.writeStr s
  | .wstr ws => Writer.writeWstr ws
  | .float _ | .binary _ | .other => none

mutual

/-- The bytes of a document. -/
def encode : Doc → Option (List UInt8)
  | value v => encodeValue v
  | bytes data => Writer.writeArrayUint8 (some data)
  | array items =>
    (encodeItems items).map fun text => Writer.writeArrayBegin ++ text ++ Writer.writeArrayEnd
  | object members =>
    (encodeMembers members).map fun text => Writer.writeObjectBegin ++ text ++ Writer.writeObjectEnd

/-- The bytes of the items of an array. -/
def encodeItems : List Doc → Option (List UInt8)
  | [] => some []
  | item :: items => (encode item).bind fun text => (encodeItems items).map (text ++ ·)

/-- The bytes of the members of an object. -/
def encodeMembers : List (Str × Doc) → Option (List UInt8)
  | [] => some []
  | (name, member) :: members =>
    (Writer.writeKey name).bind fun key =>
      (encode member).bind fun text => (encodeMembers members).map (key ++ text ++ ·)

end

/-- A call of the callback. -/
abbrev Event := Option Str × Item

def begins (m : Marker) : Item := .token m.byte

mutual

/-- The calls for a document with a key. -/
def events (key : Option Str) : Doc → List Event
  | value v => [(key, .value v)]
  | bytes data => [(key, begins .arrayBegin), (none, begins .uint8), (none, .value (.binary (some data)))]
  | array items => (key, begins .arrayBegin) :: eventsItems items ++ [(none, begins .arrayEnd)]
  | object members => (key, begins .objectBegin) :: eventsMembers members ++ [(none, begins .objectEnd)]

def eventsItems : List Doc → List Event
  | [] => []
  | item :: items => events none item ++ eventsItems items

def eventsMembers : List (Str × Doc) → List Event
  | [] => []
  | (name, member) :: members => events (some name) member ++ eventsMembers members

end

/-- A string without NUL, or a number.  The size of the block for a wide string does not
overflow. -/
def ValueOk : Value → Prop
  | .str (some s) => 0 ∉ s ∧ s.length < 2 ^ 32
  | .wstr (some ws) => Utf8.Admissible true ws ∧ 6 * ws.length + 1 < 2 ^ 32
  | .str none | .wstr none => False
  | _ => True

mutual

/-- The strings and names have no NUL, and no length exceeds a `uint32_t`. -/
def Ok : Doc → Prop
  | value v => ValueOk v
  | bytes data => data.length < 2 ^ 32
  | array items => OkItems items
  | object members => OkMembers members

def OkItems : List Doc → Prop
  | [] => True
  | item :: items => Ok item ∧ OkItems items

def OkMembers : List (Str × Doc) → Prop
  | [] => True
  | (name, member) :: members => (0 ∉ name ∧ name.length < 2 ^ 32) ∧ Ok member ∧ OkMembers members

end

theorem length_encodeValue {v : Value} {text : List UInt8} (h : encodeValue v = some text) :
    0 < text.length := by
  cases v with
  | str s =>
    obtain ⟨_, -, rfl⟩ := map_eq_some_iff.mp h
    exact Nat.succ_pos _
  | wstr ws =>
    obtain ⟨_, -, h⟩ := bind_eq_some_iff.mp h
    obtain ⟨_, -, rfl⟩ := map_eq_some_iff.mp h
    exact Nat.succ_pos _
  | bool b => cases b <;> (cases h; exact Nat.succ_pos _)
  | float bits => cases h
  | binary data => cases h
  | other => cases h
  | _ => cases h; exact Nat.succ_pos _

theorem writeArrayUint8_eq {data text : List UInt8} (hlt : data.length < 2 ^ 32)
    (h : Writer.writeArrayUint8 (some data) = some text) :
    data ≠ [] ∧ ∃ len, Writer.writeLength data.length = some len ∧
      text = Marker.arrayBegin.byte :: Marker.containerType.byte :: Marker.uint8.byte ::
        (Marker.containerCount.byte :: len ++ data) := by
  rw [Writer.writeArrayUint8, Nat.mod_eq_of_lt hlt] at h
  by_cases h0 : data.length = 0
  · rw [if_pos h0] at h
    cases h
  · rw [if_neg h0] at h
    obtain ⟨len, hlen, rfl⟩ := map_eq_some_iff.mp h
    refine ⟨fun hnil => h0 (by rw [hnil]; rfl), len, hlen, ?_⟩
    rw [take_length]
    rfl

theorem array_append (text rest : List UInt8) :
    Writer.writeArrayBegin ++ text ++ Writer.writeArrayEnd ++ rest =
      Marker.arrayBegin.byte :: (text ++ Marker.arrayEnd.byte :: rest) := by
  rw [append_assoc, append_assoc]
  rfl

theorem object_append (text rest : List UInt8) :
    Writer.writeObjectBegin ++ text ++ Writer.writeObjectEnd ++ rest =
      Marker.objectBegin.byte :: (text ++ Marker.objectEnd.byte :: rest) := by
  rw [append_assoc, append_assoc]
  rfl

end Doc

/-! ## Reading numbers -/

theorem toNat_bigEndian (n v : Nat) : Bytes.toNat (bigEndian n v).reverse = v % 256 ^ n := by
  rw [bigEndian, reverse_reverse, Bytes.toNat_ofNat]

@[simp] theorem length_bigEndian (n v : Nat) : (bigEndian n v).length = n := by
  rw [bigEndian, length_reverse, Bytes.ofNat_length]

/-- The reader is in front of some bytes. -/
structure Reader.At (r : Reader) (type : UInt8) (rest : List UInt8) : Prop where
  ok : r.rb.Ok
  rest : r.rb.rest = rest
  type : r.optimizedType = type

namespace Reader

variable {r : Reader} {type : UInt8} {bs rest : List UInt8}

theorem At.length (h : r.At type rest) : rest.length = r.rb.capacity - r.rb.cursor := by
  rw [← h.rest, RBuffer.rest_length h.ok.size.ge]

theorem At.withCapacity (h : r.At type rest) (capacity : Nat) :
    ({ r with capacity } : Reader).At type rest :=
  ⟨h.ok, h.rest, h.type⟩

theorem readData_at (h : r.At type (bs ++ rest)) (hne : bs ++ rest ≠ []) :
    ∃ r', r.readData bs.length = .ok (.ok, bs, r') ∧ r'.At type rest := by
  have hlen := h.length
  have hcur := h.ok.cursor
  have hbound := h.ok.bound
  have hpos : 0 < (bs ++ rest).length := length_pos_of_ne_nil hne
  rw [length_append] at hlen hpos
  have hmore : r.rb.hasMore = true := by
    rw [RBuffer.hasMore]
    exact decide_eq_true (by omega)
  have hsum : U32.add r.rb.cursor bs.length = r.rb.cursor + bs.length := U32.add_of_lt (by omega)
  have hle : r.rb.cursor + bs.length ≤ r.rb.capacity := by omega
  have hload : r.rb.load r.rb.cursor bs.length = some bs := by
    rw [RBuffer.load_cursor hle, h.rest, take_left]
  refine ⟨{ r with rb := { r.rb with cursor := r.rb.cursor + bs.length } }, ?_, ?_⟩
  · rw [readData, if_pos hmore, RBuffer.readBinary, hsum, if_pos hle, hload]
    rfl
  · refine ⟨⟨h.ok.size, hle, h.ok.bound⟩, ?_, h.type⟩
    have hrest := h.rest
    rw [RBuffer.rest] at hrest ⊢
    rw [← drop_drop, hrest, drop_left]

theorem readMarker_at {b : UInt8} (h : r.At type (b :: rest)) :
    ∃ r', r.readData 1 = .ok (.ok, [b], r') ∧ r'.At type rest := by
  have hcons : r.At type ([b] ++ rest) := h
  exact readData_at hcons (cons_ne_nil b rest)

theorem readNumber_at {n v : Nat} {f : Nat → Value} (h : r.At type (bigEndian n v ++ rest))
    (hn : 0 < n) (hv : v < 256 ^ n) :
    ∃ r', r.readNumber n f = .ok (.ok (.value (f v)), r') ∧ r'.At type rest := by
  have hne : bigEndian n v ++ rest ≠ [] := by
    intro h0
    have hlen := congrArg List.length h0
    rw [length_append, length_bigEndian, length_nil] at hlen
    omega
  obtain ⟨r', hread, hat⟩ := readData_at h hne
  have hvalue : Bytes.toNat (bigEndian n v).reverse = v := by
    rw [toNat_bigEndian, Nat.mod_eq_of_lt hv]
  rw [length_bigEndian] at hread
  refine ⟨r', ?_, hat⟩
  rw [readNumber, hread]
  change Except.ok (Except.ok (Item.value (f (Bytes.toNat (bigEndian n v).reverse))), r') = _
  rw [hvalue]

/-- The markers of numbers, with the number of bytes and the value. -/
def number : Marker → Option (Nat × (Nat → Value))
  | .int8 => some (1, fun v => .int8 (UInt8.ofNat v).toInt8)
  | .uint8 => some (1, fun v => .uint8 (UInt8.ofNat v))
  | .int16 => some (2, fun v => .int16 (UInt16.ofNat v).toInt16)
  | .uint16 => some (2, fun v => .uint16 (UInt16.ofNat v))
  | .int32 => some (4, fun v => .int32 (UInt32.ofNat v).toInt32)
  | .uint32 => some (4, fun v => .uint32 (UInt32.ofNat v))
  | .int64 => some (8, fun v => .int64 (UInt64.ofNat v).toInt64)
  | .uint64 => some (8, fun v => .uint64 (UInt64.ofNat v))
  | .pointer => some (8, fun v => .pointer (UInt64.ofNat v))
  | .float32 => some (4, fun v => .float32 (UInt32.ofNat v))
  | .float64 => some (8, fun v => .double (UInt64.ofNat v))
  | _ => none

theorem number_size {m : Marker} {size : Nat} {f : Nat → Value} (hm : number m = some (size, f)) :
    0 < size := by
  cases m <;> first | (cases hm; decide) | cases hm

variable {n : Nat}

theorem read_number {m : Marker} {size v : Nat} {f : Nat → Value}
    (hm : number m = some (size, f)) (hv : v < 256 ^ size)
    (h : r.At type (Writer.writeNumber m size v ++ rest)) :
    ∃ r', r.readLevels (n + 1) = .ok (.ok (.value (f v)), r') ∧ r'.At type rest := by
  obtain ⟨r₁, hread, hat⟩ := readMarker_at h
  obtain ⟨r', hnumber, hat'⟩ := readNumber_at (f := f) hat (number_size hm) hv
  refine ⟨r', ?_, hat'⟩
  rw [readLevels, hread, ← hnumber]
  cases m <;> first | (cases hm; rfl) | cases hm

theorem read_int8 {v : Int8} (h : r.At type (Writer.writeInt8 v ++ rest)) :
    ∃ r', r.readLevels (n + 1) = .ok (.ok (.value (.int8 v)), r') ∧ r'.At type rest := by
  have hread := read_number (n := n) (m := .int8) rfl v.toUInt8.toNat_lt h
  rwa [UInt8.ofNat_toNat, Int8.toInt8_toUInt8] at hread

theorem read_int16 {v : Int16} (h : r.At type (Writer.writeInt16 v ++ rest)) :
    ∃ r', r.readLevels (n + 1) = .ok (.ok (.value (.int16 v)), r') ∧ r'.At type rest := by
  have hread := read_number (n := n) (m := .int16) rfl v.toUInt16.toNat_lt h
  rwa [UInt16.ofNat_toNat, Int16.toInt16_toUInt16] at hread

theorem read_int32 {v : Int32} (h : r.At type (Writer.writeInt32 v ++ rest)) :
    ∃ r', r.readLevels (n + 1) = .ok (.ok (.value (.int32 v)), r') ∧ r'.At type rest := by
  have hread := read_number (n := n) (m := .int32) rfl v.toUInt32.toNat_lt h
  rwa [UInt32.ofNat_toNat, Int32.toInt32_toUInt32] at hread

theorem read_int64 {v : Int64} (h : r.At type (Writer.writeInt64 v ++ rest)) :
    ∃ r', r.readLevels (n + 1) = .ok (.ok (.value (.int64 v)), r') ∧ r'.At type rest := by
  have hread := read_number (n := n) (m := .int64) rfl v.toUInt64.toNat_lt h
  rwa [UInt64.ofNat_toNat, Int64.toInt64_toUInt64] at hread

theorem read_length {len : Nat} {text : List UInt8} (hlen : Writer.writeLength len = some text)
    (h : r.At type (text ++ rest)) :
    ∃ v r', r.readLevels (n + 1) = .ok (.ok (.value v), r') ∧ r'.At type rest ∧ v.toInt = len ∧
      Parser.keyLength v = some (len : Int) := by
  rw [Writer.writeLength] at hlen
  by_cases h8 : len ≤ 127
  · rw [if_pos h8] at hlen
    cases hlen
    obtain ⟨r', hread, hat⟩ := read_int8 (n := n) h
    have hv : (Int8.ofNat len).toInt = len := Int8.toInt_ofNat_of_lt (by omega)
    exact ⟨_, r', hread, hat, hv, congrArg some hv⟩
  · rw [if_neg h8] at hlen
    by_cases h16 : len ≤ 32767
    · rw [if_pos h16] at hlen
      cases hlen
      obtain ⟨r', hread, hat⟩ := read_int16 (n := n) h
      have hv : (Int16.ofNat len).toInt = len := Int16.toInt_ofNat_of_lt (by omega)
      exact ⟨_, r', hread, hat, hv, congrArg some hv⟩
    · rw [if_neg h16] at hlen
      by_cases h32 : len ≤ 2147483647
      · rw [if_pos h32] at hlen
        cases hlen
        obtain ⟨r', hread, hat⟩ := read_int32 (n := n) h
        have hv : (Int32.ofNat len).toInt = len := Int32.toInt_ofNat_of_lt (by omega)
        exact ⟨_, r', hread, hat, hv, congrArg some hv⟩
      · rw [if_neg h32] at hlen
        cases hlen

theorem toU32_natCast {len : Nat} (h : len < 2 ^ 32) : toU32 (len : Int) = len := by
  rw [toU32, Int.emod_eq_of_lt (by omega) (by omega), Int.toNat_natCast]

theorem writeLength_le {len : Nat} {text : List UInt8} (h : Writer.writeLength len = some text) :
    len ≤ 2147483647 := by
  by_contra hlt
  rw [Writer.writeLength, if_neg (by omega), if_neg (by omega), if_neg (by omega)] at h
  cases h

theorem strExtend_natCast (capacity : Nat) {len : Nat} (h : len ≤ 2147483647) :
    ∃ c, strExtend capacity (toU32 ((len : Int) + 1)) = .ok c := by
  have hlt : len + 1 < 2 ^ 32 := by omega
  have hcast : toU32 ((len : Int) + 1) = len + 1 := toU32_natCast hlt
  rw [hcast, strExtend]
  by_cases hle : len + 1 ≤ capacity
  · exact ⟨capacity, if_pos hle⟩
  · exact ⟨len + 1, by rw [if_neg hle, if_neg (by omega)]⟩

theorem readText_at {s : List UInt8} (hlen : s.length ≤ 2147483647)
    (h : r.At type (s ++ rest)) (hne : s ++ rest ≠ []) :
    ∃ r', r.readText s.length = .ok (.ok, s, r') ∧ r'.At type rest := by
  obtain ⟨c, hc⟩ := strExtend_natCast r.capacity hlen
  obtain ⟨r', hread, hat⟩ := readData_at (h.withCapacity c) hne
  refine ⟨r', ?_, hat⟩
  rw [readText, hc]
  change (Except.bind (readData { r with capacity := c } (toU32 (s.length : Int))) _) = _
  rw [toU32_natCast (by omega), hread]
  have hneg : ¬(Ret.ok = Ret.ok ∧ (s.length : Int) < 0) := by omega
  change (if Ret.ok = Ret.ok ∧ (s.length : Int) < 0 then Except.error Stop.outside
    else Except.ok (Ret.ok, s, r')) = _
  rw [if_neg hneg]

theorem read_keyLen {s text : List UInt8} (hs : s.length < 2 ^ 32)
    (htext : Writer.writeKeyLen s = some text) :
    s.length ≤ 2147483647 ∧ ∃ len, Writer.writeLength s.length = some len ∧ text = len ++ s := by
  rw [Writer.writeKeyLen, Nat.mod_eq_of_lt hs] at htext
  obtain ⟨len, hlen, rfl⟩ := map_eq_some_iff.mp htext
  exact ⟨writeLength_le hlen, len, hlen, by rw [take_length]⟩

theorem read_str {s text : List UInt8} (hs : 0 ∉ s) (hlen : s.length < 2 ^ 32)
    (htext : Writer.writeStrLen s = some text) (hrest : rest ≠ [])
    (h : r.At type (text ++ rest)) :
    ∃ r', r.readLevels (n + 2) = .ok (.ok (.value (.str (some s))), r') ∧ r'.At type rest := by
  obtain ⟨body, hbody, rfl⟩ := map_eq_some_iff.mp htext
  obtain ⟨hle, len, hwrite, rfl⟩ := read_keyLen hlen hbody
  rw [cons_append, append_assoc] at h
  obtain ⟨r₁, hmarker, hat₁⟩ := readMarker_at h
  obtain ⟨v, r₂, hread, hat₂, hv, -⟩ := read_length (n := n) hwrite hat₁
  have hne : s ++ rest ≠ [] := append_ne_nil_of_right_ne_nil s hrest
  obtain ⟨r', hdata, hat'⟩ := readText_at hle hat₂ hne
  refine ⟨r', ?_, hat'⟩
  rw [readLevels, hmarker]
  change withLength (readLevels (n + 1)) r₁ _ = _
  rw [withLength, hread]
  change r₂.readString false v.toInt = _
  rw [hv, readString, hdata]
  change (if 0 ∈ s then _ else _) = _
  rw [if_neg hs]

theorem length_encode_le (ws : List UInt32) : (Utf8.encode true ws).length ≤ 6 * ws.length := by
  have hchars : ∀ ws : List UInt32, Utf8.chars true ws = ws := by
    intro ws
    induction ws with
    | nil => rfl
    | cons wc ws ih =>
      cases ws with
      | nil => rfl
      | cons wc2 ws =>
        have hpair : Utf8.isPair true wc wc2 = false := rfl
        rw [Utf8.chars, hpair, if_neg Bool.false_ne_true, ih]
  rw [Utf8.encode, hchars]
  induction ws with
  | nil => exact Nat.le_refl 0
  | cons wc ws ih =>
    have hle := (Utf8.unicharLen_le wc).2
    rw [flatMap_cons, length_append, Utf8.unicharToUtf8_length, length_cons]
    omega

theorem wstrText_eq {ws : List UInt32} (hws : 0 ∉ ws) (hlen : 6 * ws.length + 1 < 2 ^ 32) :
    Writer.wstrText ws = some (Utf8.encode true ws) := by
  have hle := length_encode_le ws
  have hsize : U32.add (U32.mul ws.length 6) 1 = 6 * ws.length + 1 := by
    rw [U32.mul, U32.add]
    omega
  have hcapacity : U32.add (6 * ws.length + 1) 1 = 6 * ws.length + 2 := by
    rw [U32.add]
    omega
  have hextend : Utf8.strExtend (fun _ => true) ⟨none, 0, 0⟩ (6 * ws.length + 2) =
      (.ok, ⟨some [], 0, 6 * ws.length + 2⟩) := by
    rw [Utf8.strExtend, if_neg (by simp)]
    rfl
  have htext : Utf8.tkUtf8FromUtf16Ex true ws ws.length (6 * ws.length + 1) (6 * ws.length + 2 + 1) =
      some (true, Utf8.encode true ws) :=
    Utf8.tkUtf8FromUtf16Ex_fits hws (Nat.le_refl _) (by omega) (by omega) (by omega)
  have hfrom : Utf8.strFromWstrWithLen (fun _ => true) true ⟨none, 0, 0⟩ ws ws.length =
      some (.ok, ⟨some (Utf8.encode true ws), (Utf8.encode true ws).length, 6 * ws.length + 2⟩) := by
    rw [Utf8.strFromWstrWithLen, hsize, hcapacity]
    dsimp only [map_none]
    rw [hextend]
    dsimp only
    rw [if_pos (Nat.succ_pos _), htext]
    rfl
  rw [Writer.wstrText, Nat.mod_eq_of_lt (by omega)]
  exact congrArg (Option.bind · fun x => x.2.str) hfrom

theorem toUtf16_encode {ws : List UInt32} (hws : Utf8.Admissible true ws)
    (hlen : (Utf8.encode true ws).length ≤ 2147483647) :
    Utf8.tkUtf8ToUtf16Ex true (Utf8.encode true ws ++ [0]) (Utf8.encode true ws).length
      ((Utf8.encode true ws).length + 1) = some (some ws) := by
  have hwide : ws.length < (Utf8.encode true ws).length + 1 :=
    Nat.lt_succ_of_le (Utf8.length_le_encode true ws)
  have htake : (ws.take ws.length).takeWhile (· ≠ 0) = ws := by
    rw [take_length, Utf8.takeWhile_ne_zero hws.notMem]
  obtain ⟨text, htext, -, -, hback⟩ := Utf8.toUtf16_fromUtf16 hws htake (Nat.lt_succ_self _)
    (Nat.le_refl _) (by omega) hwide (by omega)
  rw [Utf8.tkUtf8FromUtf16Ex_string htake (by omega) (Nat.lt_succ_self _) (Nat.lt_succ_self _),
    some_inj, Prod.mk.injEq] at htext
  obtain ⟨-, rfl⟩ := htext
  exact hback []

theorem read_wstr {ws : List UInt32} {text : List UInt8} (hws : Utf8.Admissible true ws)
    (hlen : 6 * ws.length + 1 < 2 ^ 32)
    (htext : Writer.writeWstr (some ws) = some text) (hrest : rest ≠ [])
    (h : r.At type (text ++ rest)) :
    ∃ r', r.readLevels (n + 2) = .ok (.ok (.value (.wstr (some ws))), r') ∧ r'.At type rest := by
  have hlt : (Utf8.encode true ws).length < 2 ^ 32 := by
    have hle := length_encode_le ws
    omega
  have htext' : (Writer.writeKeyLen (Utf8.encode true ws)).map (Marker.wstring.byte :: ·) =
      some text := by
    rw [← htext, Writer.writeWstr, getD_some, wstrText_eq hws.notMem hlen]
    rfl
  obtain ⟨body, hbody, rfl⟩ := map_eq_some_iff.mp htext'
  obtain ⟨hle, len, hwrite, rfl⟩ := read_keyLen hlt hbody
  rw [cons_append, append_assoc] at h
  obtain ⟨r₁, hmarker, hat₁⟩ := readMarker_at h
  obtain ⟨v, r₂, hread, hat₂, hv, -⟩ := read_length (n := n) hwrite hat₁
  have hne : Utf8.encode true ws ++ rest ≠ [] := append_ne_nil_of_right_ne_nil _ hrest
  obtain ⟨r', hdata, hat'⟩ := readText_at hle hat₂ hne
  refine ⟨r', ?_, hat'⟩
  rw [readLevels, hmarker]
  change withLength (readLevels (n + 1)) r₁ _ = _
  rw [withLength, hread]
  change r₂.readString true v.toInt = _
  have hback : (some ws).map (fun ws => ws.takeWhile (· ≠ 0)) = some ws :=
    congrArg some (Utf8.takeWhile_ne_zero hws.notMem)
  rw [hv, readString, hdata]
  dsimp only [Except.bind]
  rw [if_neg (not_not.mpr rfl), if_pos rfl, toUtf16_encode hws hle]
  exact congrArg (fun ws => Except.ok (Except.ok (Item.value (.wstr ws)), r')) hback

theorem At.levels (h : r.At type rest) : r.read = readLevels (rest.length + 1) r := by
  rw [read, h.length]

/-- A value is read back. -/
theorem read_value {v : Value} {text : List UInt8} (htext : Doc.encodeValue v = some text)
    (hok : Doc.ValueOk v) (hrest : rest ≠ []) (h : r.At type (text ++ rest)) :
    ∃ r', r.read = .ok (.ok (.value v), r') ∧ r'.At type rest := by
  have hpos : 0 < rest.length := length_pos_of_ne_nil hrest
  obtain ⟨n, hn⟩ : ∃ n, (text ++ rest).length + 1 = n + 2 := by
    rw [length_append]
    exact ⟨text.length + rest.length - 1, by omega⟩
  rw [h.levels, hn]
  cases v with
  | bool b =>
    cases htext
    cases b with
    | true =>
      obtain ⟨r', hread, hat⟩ := readMarker_at h
      refine ⟨r', ?_, hat⟩
      rw [readLevels, hread]
      rfl
    | false =>
      obtain ⟨r', hread, hat⟩ := readMarker_at h
      refine ⟨r', ?_, hat⟩
      rw [readLevels, hread]
      rfl
  | int8 v => cases htext; exact read_int8 h
  | uint8 v =>
    cases htext
    have hread := read_number (n := n + 1) (m := .uint8) rfl v.toNat_lt h
    rwa [UInt8.ofNat_toNat] at hread
  | int16 v => cases htext; exact read_int16 h
  | uint16 v =>
    cases htext
    have hread := read_number (n := n + 1) (m := .uint16) rfl v.toNat_lt h
    rwa [UInt16.ofNat_toNat] at hread
  | int32 v => cases htext; exact read_int32 h
  | uint32 v =>
    cases htext
    have hread := read_number (n := n + 1) (m := .uint32) rfl v.toNat_lt h
    rwa [UInt32.ofNat_toNat] at hread
  | int64 v => cases htext; exact read_int64 h
  | uint64 v =>
    cases htext
    have hread := read_number (n := n + 1) (m := .uint64) rfl v.toNat_lt h
    rwa [UInt64.ofNat_toNat] at hread
  | pointer v =>
    cases htext
    have hread := read_number (n := n + 1) (m := .pointer) rfl v.toNat_lt h
    rwa [UInt64.ofNat_toNat] at hread
  | float bits => cases htext
  | float32 bits =>
    cases htext
    have hread := read_number (n := n + 1) (m := .float32) rfl bits.toNat_lt h
    rwa [UInt32.ofNat_toNat] at hread
  | double bits =>
    cases htext
    have hread := read_number (n := n + 1) (m := .float64) rfl bits.toNat_lt h
    rwa [UInt64.ofNat_toNat] at hread
  | str s =>
    cases s with
    | none => cases hok
    | some s => exact read_str hok.1 hok.2 htext hrest h
  | wstr ws =>
    cases ws with
    | none => cases hok
    | some ws => exact read_wstr hok.1 hok.2 htext hrest h
  | binary data => cases htext
  | other => cases htext

theorem read_token {m : Marker}
    (hm : m = .arrayBegin ∨ m = .arrayEnd ∨ m = .objectBegin ∨ m = .objectEnd)
    (h : r.At type (m.byte :: rest)) :
    ∃ r', r.read = .ok (.ok (.token m.byte), r') ∧ r'.At type rest := by
  obtain ⟨r', hread, hat⟩ := readMarker_at h
  refine ⟨r', ?_, hat⟩
  rw [h.levels, readLevels, hread]
  rcases hm with rfl | rfl | rfl | rfl <;> rfl

theorem read_type {t : UInt8} (h : r.At type (Marker.containerType.byte :: t :: rest)) :
    ∃ r', r.read = .ok (.ok (.token t), r') ∧ r'.At t rest := by
  obtain ⟨r₁, hmarker, hat₁⟩ := readMarker_at h
  obtain ⟨r', hread, hat⟩ := readMarker_at hat₁
  refine ⟨{ r' with optimizedType := t }, ?_, ⟨hat.ok, hat.rest, rfl⟩⟩
  rw [h.levels, readLevels, hmarker]
  change (r₁.readData 1).bind _ = _
  rw [hread]
  rfl

/-- The bytes of an optimized array are read back. -/
theorem read_bytes {data len : List UInt8} (hdata : data ≠ [])
    (hlen : Writer.writeLength data.length = some len)
    (h : r.At Marker.uint8.byte (Marker.containerCount.byte :: len ++ data ++ rest)) :
    ∃ r', r.read = .ok (.ok (.value (.binary (some data))), r') ∧ r'.At 0 rest := by
  rw [append_assoc, cons_append] at h
  obtain ⟨r₁, hmarker, hat₁⟩ := readMarker_at h
  obtain ⟨v, r₂, hread, hat₂, hv, -⟩ := read_length (n := (len ++ (data ++ rest)).length) hlen hat₁
  obtain ⟨r₃, htext, hat₃⟩ := readText_at (writeLength_le hlen) hat₂
    (append_ne_nil_of_left_ne_nil hdata rest)
  refine ⟨{ r₃ with optimizedType := 0 }, ?_, ⟨hat₃.ok, hat₃.rest, rfl⟩⟩
  have hsize : elementSize Marker.uint8.byte = 1 := by decide
  have hle : data.length ≤ 2147483647 := writeLength_le hlen
  have hint : I32.ofU32 (toU32 ((data.length : Int) * ((1 : Nat) : Int))) = data.length := by
    rw [Int.natCast_one, Int.mul_one, toU32_natCast (by omega), I32.ofU32_of_lt (by omega)]
  have harray : r₂.readOptimizedArray r₂.optimizedType v.toInt =
      .ok (.ok (.value (.binary (some data))), r₃) := by
    rw [hat₂.type, hv, readOptimizedArray, hsize]
    dsimp only
    rw [hint, htext]
    rfl
  rw [h.levels, length_cons, readLevels, hmarker]
  change withLength (readLevels ((len ++ (data ++ rest)).length + 1)) r₁ (fun r count =>
    (r.readOptimizedArray r.optimizedType count).map fun a =>
      (a.1, { a.2 with optimizedType := 0 })) = _
  rw [withLength, hread]
  change (r₂.readOptimizedArray r₂.optimizedType v.toInt).map _ = _
  rw [harray]
  rfl

end Reader

/-! ## Runs of the parser -/

/-- A call of the callback, where none has failed. -/
def call {σ : Type} (f : OnKeyValue σ) (s : Bool × σ) (e : Doc.Event) : Bool × σ :=
  if s.1 then s
  else
    let (ret, ctx) := f s.2 e.1 e.2
    (ret ≠ .ok, ctx)

/-- The calls one after the other, until one fails. -/
def feed {σ : Type} (f : OnKeyValue σ) (s : Bool × σ) (events : List Doc.Event) : Bool × σ :=
  events.foldl (call f) s

namespace Parser

variable {σ : Type} {f : OnKeyValue σ} {p : Parser σ} {s : Bool × σ} {type : UInt8}
  {rest : List UInt8}

/-- The parser after some calls, in front of what is left if none has failed. -/
structure After (p : Parser σ) (type : UInt8) (rest : List UInt8) (s : Bool × σ) : Prop where
  error : p.error = s.1
  ctx : p.ctx = s.2
  reader : s.1 = false → p.reader.At type rest

/-- The end of a parse function.  It fails only after a call that has failed. -/
def Ends (x : Except Stop (Ret × Parser σ)) (rest : List UInt8) (s : Bool × σ) : Prop :=
  ∃ ret p, x = .ok (ret, p) ∧ p.After 0 rest s ∧ (s.1 = false → ret = .ok)

theorem After.stopped {rest' : List UInt8} {type' : UInt8} (h : p.After type rest s)
    (hs : s.1 = true) : p.After type' rest' s where
  error := h.error
  ctx := h.ctx
  reader hfalse := by rw [hs] at hfalse; cases hfalse

theorem feed_stopped (f : OnKeyValue σ) (hs : s.1 = true) (events : List Doc.Event) :
    feed f s events = s := by
  induction events with
  | nil => rfl
  | cons e events ih =>
    have hcall : call f s e = s := if_pos hs
    rw [feed, foldl_cons, hcall]
    exact ih

theorem feed_append (f : OnKeyValue σ) (s : Bool × σ) (as bs : List Doc.Event) :
    feed f s (as ++ bs) = feed f (feed f s as) bs :=
  foldl_append

theorem feed_cons (f : OnKeyValue σ) (s : Bool × σ) (e : Doc.Event) (es : List Doc.Event) :
    feed f s (e :: es) = feed f (call f s e) es := rfl

theorem After.read_stopped (h : p.After type rest s) (hs : s.1 = true) :
    p.read = .ok (.error .fail, p) := by
  rw [read, if_pos (h.error.trans hs)]

theorem After.read_item {item : Item} {type' : UInt8} {rest' : List UInt8}
    (h : p.After type rest s) (hs : s.1 = false)
    (hread : ∃ r, p.reader.read = .ok (.ok item, r) ∧ r.At type' rest') :
    ∃ p', p.read = .ok (.ok item, p') ∧ p'.After type' rest' s := by
  obtain ⟨r, hread, hat⟩ := hread
  refine ⟨{ p with reader := r }, ?_, ⟨h.error, h.ctx, fun _ => hat⟩⟩
  rw [read, h.error, hs, hread]
  rfl

theorem After.onKeyValue (h : p.After type rest s) (hs : s.1 = false) (key : Option Str)
    (item : Item) : (p.onKeyValue f key item).After type rest (call f s (key, item)) := by
  have hcall : call f s (key, item) = (decide ((f p.ctx key item).1 ≠ .ok), (f p.ctx key item).2) := by
    rw [call, hs, h.ctx]
    rfl
  rw [hcall]
  refine ⟨?_, rfl, fun _ => h.reader hs⟩
  change (p.error || decide ((f p.ctx key item).1 ≠ .ok)) = _
  rw [h.error, hs, Bool.false_or]

theorem parseArray_stopped (h : p.After type rest s) (hs : s.1 = true) {n : Nat} (hn : 0 < n)
    (rest' : List UInt8) : Ends (parseArray f n p) rest' s := by
  obtain ⟨n, rfl⟩ := Nat.exists_eq_succ_of_ne_zero (Nat.ne_of_gt hn)
  refine ⟨.ok, p, ?_, h.stopped hs, fun _ => rfl⟩
  rw [parseArray, h.read_stopped hs]
  rfl

theorem parseObject_stopped (h : p.After type rest s) (hs : s.1 = true) {n : Nat} (hn : 0 < n)
    (rest' : List UInt8) : Ends (parseObject f n p) rest' s := by
  obtain ⟨n, rfl⟩ := Nat.exists_eq_succ_of_ne_zero (Nat.ne_of_gt hn)
  refine ⟨.ok, p, ?_, h.stopped hs, fun _ => rfl⟩
  rw [parseObject, h.read_stopped hs]
  rfl

theorem parseArray_end (h : p.After 0 (Marker.arrayEnd.byte :: rest) s) {n : Nat} (hn : 0 < n) :
    Ends (parseArray f n p) rest (call f s (none, Doc.begins .arrayEnd)) := by
  by_cases hs : s.1 = true
  · have hcall : call f s (none, Doc.begins .arrayEnd) = s := if_pos hs
    rw [hcall]
    exact parseArray_stopped h hs hn rest
  · rw [Bool.not_eq_true] at hs
    obtain ⟨n, rfl⟩ := Nat.exists_eq_succ_of_ne_zero (Nat.ne_of_gt hn)
    obtain ⟨p', hread, hp'⟩ := h.read_item hs (Reader.read_token (by simp) (h.reader hs))
    refine ⟨.ok, p'.onKeyValue f none (Doc.begins .arrayEnd), ?_, hp'.onKeyValue hs _ _, fun _ => rfl⟩
    rw [parseArray, hread]
    rfl

theorem parseObject_end (h : p.After 0 (Marker.objectEnd.byte :: rest) s) {n : Nat} (hn : 0 < n) :
    Ends (parseObject f n p) rest (call f s (none, Doc.begins .objectEnd)) := by
  by_cases hs : s.1 = true
  · have hcall : call f s (none, Doc.begins .objectEnd) = s := if_pos hs
    rw [hcall]
    exact parseObject_stopped h hs hn rest
  · rw [Bool.not_eq_true] at hs
    obtain ⟨n, rfl⟩ := Nat.exists_eq_succ_of_ne_zero (Nat.ne_of_gt hn)
    obtain ⟨p', hread, hp'⟩ := h.read_item hs (Reader.read_token (by simp) (h.reader hs))
    refine ⟨.ok, p'.onKeyValue f none (Doc.begins .objectEnd), ?_, hp'.onKeyValue hs _ _,
      fun _ => rfl⟩
    rw [parseObject, hread]
    rfl

theorem parseArray_bytes {data len : List UInt8} (hdata : data ≠ [])
    (hlen : Writer.writeLength data.length = some len)
    (h : p.After 0 (Marker.containerType.byte :: Marker.uint8.byte ::
      (Marker.containerCount.byte :: len ++ data ++ rest)) s) {n : Nat} (hn : 0 < n) :
    Ends (parseArray f n p) rest
      (feed f s [(none, Doc.begins .uint8), (none, .value (.binary (some data)))]) := by
  by_cases hs : s.1 = true
  · rw [feed_stopped f hs]
    exact parseArray_stopped h hs hn rest
  · rw [Bool.not_eq_true] at hs
    obtain ⟨n, rfl⟩ := Nat.exists_eq_succ_of_ne_zero (Nat.ne_of_gt hn)
    obtain ⟨p₁, hread₁, hp₁⟩ := h.read_item hs (Reader.read_type (h.reader hs))
    have hp₂ := hp₁.onKeyValue (f := f) hs none (Doc.begins .uint8)
    rw [parseArray, hread₁]
    change Ends ((p₁.onKeyValue f none (Doc.begins .uint8)).read.bind _) rest _
    rw [feed_cons]
    generalize call f s (none, Doc.begins .uint8) = s₂ at hp₂ ⊢
    by_cases hs₂ : s₂.1 = true
    · rw [feed_stopped f hs₂, hp₂.read_stopped hs₂]
      exact ⟨.fail, _, rfl, hp₂.stopped hs₂, fun hfalse => by rw [hs₂] at hfalse; cases hfalse⟩
    · rw [Bool.not_eq_true] at hs₂
      obtain ⟨p₃, hread₃, hp₃⟩ := hp₂.read_item hs₂ (Reader.read_bytes hdata hlen (hp₂.reader hs₂))
      rw [hread₃]
      exact ⟨.ok, _, rfl, hp₃.onKeyValue hs₂ none _, fun _ => rfl⟩

theorem readKey_at {name : Str} (h : p.After 0 (name ++ rest) s) (hs : s.1 = false)
    (hname : 0 ∉ name) (hlen : name.length ≤ 2147483647) (hrest : rest ≠ []) :
    ∃ p', p.readKey name.length = .ok (.ok, name, p') ∧ p'.After 0 rest s := by
  obtain ⟨c, hc⟩ := Reader.strExtend_natCast p.capacity hlen
  obtain ⟨r, hread, hat⟩ := Reader.readData_at (h.reader hs)
    (append_ne_nil_of_right_ne_nil name hrest)
  refine ⟨{ p with capacity := c, reader := r }, ?_, ⟨h.error, h.ctx, fun _ => hat⟩⟩
  have hneg : ¬(Ret.ok = Ret.ok ∧ (name.length : Int) < 0) := by omega
  rw [readKey, hc]
  change (Except.bind (p.reader.readData (toU32 (name.length : Int))) _) = _
  rw [Reader.toU32_natCast (by omega), hread]
  change (if Ret.ok = Ret.ok ∧ (name.length : Int) < 0 then Except.error Stop.outside
    else Except.ok (Ret.ok, name.takeWhile (· ≠ 0), { p with capacity := c, reader := r })) = _
  have hall : name.takeWhile (fun (c : UInt8) => c ≠ 0) = name := by
    rw [takeWhile_eq_self_iff]
    intro c hc
    exact decide_eq_true fun h0 => hname (h0 ▸ hc)
  rw [if_neg hneg, hall]

theorem parseObject_key {name key : Str} {s' : Bool × σ} {rest' : List UInt8}
    (hname : 0 ∉ name) (hlen : name.length < 2 ^ 32) (hkey : Writer.writeKey name = some key)
    (hrest : rest ≠ []) (h : p.After 0 (key ++ rest) s) (hs : s.1 = false) {n : Nat}
    (hnext : ∀ p : Parser σ, p.After 0 rest s →
      Ends ((p.parseKeyed f (parseObject f n) (parseArray f n) name).bind fun (ret, p) =>
        if ret = Ret.ok then parseObject f n p else .ok (.fail, p)) rest' s') :
    Ends (parseObject f (n + 1) p) rest' s' := by
  obtain ⟨hle, len, hwrite, rfl⟩ := Reader.read_keyLen hlen hkey
  rw [append_assoc] at h
  have hat := h.reader hs
  obtain ⟨v, r, hread, hat', -, hv⟩ := Reader.read_length
    (n := (len ++ (name ++ rest)).length) hwrite hat
  rw [← hat.levels] at hread
  obtain ⟨p₁, hread₁, hp₁⟩ := h.read_item hs ⟨r, hread, hat'⟩
  obtain ⟨p₂, hread₂, hp₂⟩ := readKey_at hp₁ hs hname hle hrest
  rw [parseObject, hread₁]
  dsimp only [Except.bind]
  rw [hv]
  change Ends ((parseKeyValue f (parseObject f n) (parseArray f n) p₁ name.length).bind _) rest' s'
  rw [parseKeyValue, hread₂]
  exact hnext p₂ hp₂

theorem Ends.andThen {x : Except Stop (Ret × Parser σ)} {rest' : List UInt8}
    {events : List Doc.Event} {next : Parser σ → Except Stop (Ret × Parser σ)} (h : Ends x rest s)
    (hnext : ∀ p : Parser σ, p.After 0 rest s → Ends (next p) rest' (feed f s events)) :
    Ends (x.bind fun (ret, p) => if ret = Ret.ok then next p else .ok (.fail, p)) rest'
      (feed f s events) := by
  obtain ⟨ret, p, rfl, hp, hret⟩ := h
  by_cases hok : ret = .ok
  · subst hok
    exact hnext p hp
  · have hs : s.1 = true := by
      by_contra hne
      exact hok (hret (Bool.eq_false_of_not_eq_true hne))
    rw [feed_stopped f hs]
    refine ⟨.fail, p, ?_, hp.stopped hs, fun hfalse => by rw [hs] at hfalse; cases hfalse⟩
    change (if ret = Ret.ok then next p else .ok (.fail, p)) = _
    rw [if_neg hok]

theorem Ends.andThenArray {x : Except Stop (Ret × Parser σ)} {rest' : List UInt8}
    {events : List Doc.Event} {next : Parser σ → Except Stop (Ret × Parser σ)} (h : Ends x rest s)
    (hnext : ∀ p : Parser σ, p.After 0 rest s → Ends (next p) rest' (feed f s events)) :
    Ends (x.bind fun (_, p) => next p) rest' (feed f s events) := by
  obtain ⟨ret, p, rfl, hp, -⟩ := h
  exact hnext p hp

theorem After.parseKeyed_array (h : p.After 0 (Marker.arrayBegin.byte :: rest) s)
    (hs : s.1 = false) (name : Str) (O A : Parser σ → Except Stop (Ret × Parser σ)) :
    ∃ p', p.parseKeyed f O A name = A p' ∧
      p'.After 0 rest (call f s (some name, Doc.begins .arrayBegin)) := by
  obtain ⟨p₁, hread, hp₁⟩ := h.read_item hs (Reader.read_token (.inl rfl) (h.reader hs))
  refine ⟨p₁.onKeyValue f (some name) (Doc.begins .arrayBegin), ?_, hp₁.onKeyValue hs _ _⟩
  rw [parseKeyed, hread]
  rfl

theorem After.parseKeyed_object (h : p.After 0 (Marker.objectBegin.byte :: rest) s)
    (hs : s.1 = false) (name : Str) (O A : Parser σ → Except Stop (Ret × Parser σ)) :
    ∃ p', p.parseKeyed f O A name = O p' ∧
      p'.After 0 rest (call f s (some name, Doc.begins .objectBegin)) := by
  obtain ⟨p₁, hread, hp₁⟩ := h.read_item hs
    (Reader.read_token (.inr (.inr (.inl rfl))) (h.reader hs))
  refine ⟨p₁.onKeyValue f (some name) (Doc.begins .objectBegin), ?_, hp₁.onKeyValue hs _ _⟩
  rw [parseKeyed, hread]
  rfl

mutual

/-- The items of an array are parsed as their events. -/
theorem parse_items {σ : Type} {f : OnKeyValue σ} : ∀ (items : List Doc) {text rest : List UInt8}
    {p : Parser σ} {s : Bool × σ} {n : Nat}, Doc.encodeItems items = some text →
    Doc.OkItems items → p.After 0 (text ++ Marker.arrayEnd.byte :: rest) s →
    (text ++ Marker.arrayEnd.byte :: rest).length < n →
    Ends (parseArray f n p) rest
      (feed f s (Doc.eventsItems items ++ [(none, Doc.begins .arrayEnd)]))
  | [], text, rest, p, s, n, htext, _, h, hn => by
    rw [Doc.encodeItems, some_inj] at htext
    subst htext
    exact parseArray_end h (Nat.lt_of_le_of_lt (Nat.zero_le _) hn)
  | item :: items, text, rest, p, s, n, htext, hok, h, hn => by
    by_cases hs : s.1 = true
    · rw [feed_stopped f hs]
      exact parseArray_stopped h hs (Nat.lt_of_le_of_lt (Nat.zero_le _) hn) rest
    · rw [Bool.not_eq_true] at hs
      rw [Doc.encodeItems, bind_eq_some_iff] at htext
      obtain ⟨t, ht, htext⟩ := htext
      obtain ⟨ts, hts, rfl⟩ := map_eq_some_iff.mp htext
      obtain ⟨n, rfl⟩ := Nat.exists_eq_succ_of_ne_zero (Nat.ne_zero_of_lt hn)
      rw [Doc.OkItems] at hok
      rw [Doc.eventsItems, append_assoc, feed_append]
      rw [append_assoc] at h hn
      have hrest : ts ++ Marker.arrayEnd.byte :: rest ≠ [] :=
        append_ne_nil_of_right_ne_nil ts (cons_ne_nil _ rest)
      cases item with
      | value v =>
        have hpos := Doc.length_encodeValue ht
        rw [length_append] at hn
        obtain ⟨p₁, hread, hp₁⟩ := h.read_item hs (Reader.read_value ht hok.1 hrest (h.reader hs))
        rw [parseArray, hread]
        exact parse_items items hts hok.2 (hp₁.onKeyValue hs none (.value v)) (by omega)
      | bytes data =>
        rw [Doc.Ok] at hok
        obtain ⟨hdata, len, hlen, rfl⟩ := Doc.writeArrayUint8_eq hok.1 ht
        obtain ⟨p₁, hread, hp₁⟩ := h.read_item hs (Reader.read_token (.inl rfl) (h.reader hs))
        rw [length_append, length_cons] at hn
        rw [parseArray, hread]
        exact (parseArray_bytes hdata hlen (hp₁.onKeyValue hs none (Doc.begins .arrayBegin))
          (by omega)).andThenArray fun p hp => parse_items items hts hok.2 hp (by omega)
      | array inner =>
        rw [Doc.Ok] at hok
        rw [Doc.encode] at ht
        obtain ⟨ti, hti, rfl⟩ := map_eq_some_iff.mp ht
        rw [Doc.array_append] at h hn
        rw [length_cons, length_append, length_cons] at hn
        obtain ⟨p₁, hread, hp₁⟩ := h.read_item hs (Reader.read_token (.inl rfl) (h.reader hs))
        rw [parseArray, hread]
        exact (parse_items inner hti hok.1 (hp₁.onKeyValue hs none (Doc.begins .arrayBegin))
          (by rw [length_append, length_cons]; omega)).andThenArray fun p hp => parse_items items hts hok.2 hp (by omega)
      | object members =>
        rw [Doc.Ok] at hok
        rw [Doc.encode] at ht
        obtain ⟨ti, hti, rfl⟩ := map_eq_some_iff.mp ht
        rw [Doc.object_append] at h hn
        rw [length_cons, length_append, length_cons] at hn
        obtain ⟨p₁, hread, hp₁⟩ := h.read_item hs
          (Reader.read_token (.inr (.inr (.inl rfl))) (h.reader hs))
        rw [parseArray, hread]
        exact (parse_members members hti hok.1 (hp₁.onKeyValue hs none (Doc.begins .objectBegin))
          (by rw [length_append, length_cons]; omega)).andThen fun p hp => parse_items items hts hok.2 hp (by omega)

/-- The members of an object are parsed as their events. -/
theorem parse_members {σ : Type} {f : OnKeyValue σ} : ∀ (members : List (Str × Doc))
    {text rest : List UInt8} {p : Parser σ} {s : Bool × σ} {n : Nat},
    Doc.encodeMembers members = some text → Doc.OkMembers members →
    p.After 0 (text ++ Marker.objectEnd.byte :: rest) s →
    (text ++ Marker.objectEnd.byte :: rest).length < n →
    Ends (parseObject f n p) rest
      (feed f s (Doc.eventsMembers members ++ [(none, Doc.begins .objectEnd)]))
  | [], text, rest, p, s, n, htext, _, h, hn => by
    rw [Doc.encodeMembers, some_inj] at htext
    subst htext
    exact parseObject_end h (Nat.lt_of_le_of_lt (Nat.zero_le _) hn)
  | (name, member) :: members, text, rest, p, s, n, htext, hok, h, hn => by
    by_cases hs : s.1 = true
    · rw [feed_stopped f hs]
      exact parseObject_stopped h hs (Nat.lt_of_le_of_lt (Nat.zero_le _) hn) rest
    · rw [Bool.not_eq_true] at hs
      rw [Doc.encodeMembers, bind_eq_some_iff] at htext
      obtain ⟨key, hkey, htext⟩ := htext
      obtain ⟨t, ht, htext⟩ := bind_eq_some_iff.mp htext
      obtain ⟨ts, hts, rfl⟩ := map_eq_some_iff.mp htext
      obtain ⟨n, rfl⟩ := Nat.exists_eq_succ_of_ne_zero (Nat.ne_zero_of_lt hn)
      rw [Doc.OkMembers] at hok
      obtain ⟨⟨hname, hlen⟩, hmember, hmembers⟩ := hok
      rw [Doc.eventsMembers, append_assoc, feed_append]
      rw [append_assoc, append_assoc] at h hn
      have hrest : ts ++ Marker.objectEnd.byte :: rest ≠ [] :=
        append_ne_nil_of_right_ne_nil ts (cons_ne_nil _ rest)
      refine parseObject_key hname hlen hkey (append_ne_nil_of_right_ne_nil t hrest) h hs ?_
      intro p₁ hp₁
      cases member with
      | value v =>
        have hpos := Doc.length_encodeValue ht
        rw [length_append, length_append] at hn
        obtain ⟨p₂, hread, hp₂⟩ := hp₁.read_item hs
          (Reader.read_value ht hmember hrest (hp₁.reader hs))
        rw [parseKeyed, hread]
        exact parse_members members hts hmembers (hp₂.onKeyValue hs (some name) (.value v)) (by omega)
      | bytes data =>
        rw [Doc.Ok] at hmember
        obtain ⟨hdata, len, hlen, rfl⟩ := Doc.writeArrayUint8_eq hmember ht
        obtain ⟨p₂, hread, hp₂⟩ := hp₁.parseKeyed_array hs name (parseObject f n) (parseArray f n)
        rw [length_append, length_append, length_cons] at hn
        rw [hread]
        exact (parseArray_bytes hdata hlen hp₂ (by omega)).andThen fun p hp =>
          parse_members members hts hmembers hp (by omega)
      | array inner =>
        rw [Doc.Ok] at hmember
        rw [Doc.encode] at ht
        obtain ⟨ti, hti, rfl⟩ := map_eq_some_iff.mp ht
        rw [Doc.array_append] at hp₁ hn
        rw [length_append, length_cons, length_append, length_cons] at hn
        obtain ⟨p₂, hread, hp₂⟩ := hp₁.parseKeyed_array hs name (parseObject f n) (parseArray f n)
        rw [hread]
        exact (parse_items inner hti hmember hp₂ (by rw [length_append, length_cons]; omega)).andThen fun p hp =>
          parse_members members hts hmembers hp (by omega)
      | object inner =>
        rw [Doc.Ok] at hmember
        rw [Doc.encode] at ht
        obtain ⟨ti, hti, rfl⟩ := map_eq_some_iff.mp ht
        rw [Doc.object_append] at hp₁ hn
        rw [length_append, length_cons, length_append, length_cons] at hn
        obtain ⟨p₂, hread, hp₂⟩ := hp₁.parseKeyed_object hs name (parseObject f n) (parseArray f n)
        rw [hread]
        exact (parse_members inner hti hmember hp₂ (by rw [length_append, length_cons]; omega)).andThen fun p hp =>
          parse_members members hts hmembers hp (by omega)

end

/-- The parser in front of a text. -/
theorem After.init {text : List UInt8} (ctx : σ) (hsize : text.length < 2 ^ 32) :
    (Parser.init text ctx).After 0 text (false, ctx) where
  error := rfl
  ctx := rfl
  reader _ := ⟨⟨rfl, Nat.zero_le _, hsize⟩, take_length, rfl⟩

/-- What is left to parse behind the first token. -/
theorem doParse_events {doc : Doc} {text : List UInt8} (hdoc : ∀ v, doc ≠ .value v)
    (htext : doc.encode = some text) (hok : doc.Ok) (hsize : text.length < 2 ^ 32) (ctx : σ) :
    Ends (doParse f (text.length + 1) (.init text ctx)) [] (feed f (false, ctx) (doc.events none)) := by
  have h := After.init ctx hsize
  cases doc with
  | value v => exact absurd rfl (hdoc v)
  | bytes data =>
    rw [Doc.Ok] at hok
    obtain ⟨hdata, len, hlen, rfl⟩ := Doc.writeArrayUint8_eq hok htext
    obtain ⟨p₁, hread, hp₁⟩ := h.read_item rfl (Reader.read_token (.inl rfl) (h.reader rfl))
    rw [doParse, hread]
    have hat := hp₁.onKeyValue (f := f) rfl none (Doc.begins .arrayBegin)
    rw [← append_nil (Marker.containerCount.byte :: len ++ data)] at hat
    exact parseArray_bytes hdata hlen hat (Nat.succ_pos _)
  | array items =>
    rw [Doc.Ok] at hok
    rw [Doc.encode] at htext
    obtain ⟨ti, hti, rfl⟩ := map_eq_some_iff.mp htext
    have hcons := Doc.array_append ti []
    rw [append_nil] at hcons
    rw [hcons] at h ⊢
    obtain ⟨p₁, hread, hp₁⟩ := h.read_item rfl (Reader.read_token (.inl rfl) (h.reader rfl))
    rw [doParse, hread]
    exact parse_items items hti hok (hp₁.onKeyValue rfl none (Doc.begins .arrayBegin))
      (by rw [length_cons]; omega)
  | object members =>
    rw [Doc.Ok] at hok
    rw [Doc.encode] at htext
    obtain ⟨ti, hti, rfl⟩ := map_eq_some_iff.mp htext
    have hcons := Doc.object_append ti []
    rw [append_nil] at hcons
    rw [hcons] at h ⊢
    obtain ⟨p₁, hread, hp₁⟩ := h.read_item rfl
      (Reader.read_token (.inr (.inr (.inl rfl))) (h.reader rfl))
    rw [doParse, hread]
    exact parse_members members hti hok (hp₁.onKeyValue rfl none (Doc.begins .objectBegin))
      (by rw [length_cons]; omega)

end Parser

theorem parse_encode {σ : Type} (f : OnKeyValue σ) {doc : Doc} {text : List UInt8}
    (hdoc : ∀ v, doc ≠ .value v) (htext : doc.encode = some text) (hok : doc.Ok)
    (hsize : text.length < 2 ^ 32) (ctx : σ) :
    parse f text ctx = .ok (.ok, (feed f (false, ctx) (doc.events none)).2) := by
  obtain ⟨ret, p, hrun, hp, hret⟩ := Parser.doParse_events (f := f) hdoc htext hok hsize ctx
  have hne : text ≠ [] := by
    rintro rfl
    cases hrun
    cases hret hp.error.symm
  rw [parse, if_neg hne, hrun]
  exact congrArg (fun ctx => Except.ok (Ret.ok, ctx)) hp.ctx

end Awtk.Ubjson
