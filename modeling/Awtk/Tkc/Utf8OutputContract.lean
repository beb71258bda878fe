import Awtk.Tkc.Utf8RoundTrip

/-!
# The output buffer of the UTF-8 decoder

What `tk_utf8_to_utf16_ex` stores and what it tells its caller about it.  The loop
asks where a character starts, not where it ends, and it stops without NULL when
`out` is full: a cut sequence at the end of the input is read past `str + size`, and
a call that has not reached the end returns `out` all the same (`contract_iff`).
-/

namespace Awtk.Utf8

open List Option

/-! ## The stores of the loop -/

/-- The loop of `tk_utf8_to_utf16_ex` with everything it stores: the units of `out`,
the terminator with them, and whether `out` is returned. -/
def toUtf16Stores (wchar4 : Bool) (outSize : Nat) (p : List UInt8) (size : Nat)
    (out : List UInt32) : Option (List UInt32 × Bool) :=
  if 0 < size ∧ U32.add out.length 1 < outSize then
    match h : utf8GetChar p with
    | none => none
    | some none => some (out, false)
    | some (some (val, len)) =>
      have := utf8GetChar_pos h
      if wchar4 = true ∨ val < 0x10000 then
        toUtf16Stores wchar4 outSize (p.drop len) (size - len) (out ++ [val])
      else if U32.add (out.length + 1) 1 < outSize then
        toUtf16Stores wchar4 outSize (p.drop len) (size - len) (out ++ [highUnit val, lowUnit val])
      else some (out ++ [highUnit val], false)
  else some (out ++ [0], true)
termination_by size

section
variable {wchar4 : Bool} {outSize size : Nat} {p : List UInt8} {out : List UInt32}
  (hgo : 0 < size ∧ U32.add out.length 1 < outSize)
include hgo

theorem toUtf16Stores_cut (hchar : utf8GetChar p = none) :
    toUtf16Stores wchar4 outSize p size out = none := by
  rw [toUtf16Stores, if_pos hgo]
  split
  · rfl
  · next hbad => cases hchar.symm.trans hbad
  · next hval => cases hchar.symm.trans hval

theorem toUtf16Stores_bad (hchar : utf8GetChar p = some none) :
    toUtf16Stores wchar4 outSize p size out = some (out, false) := by
  rw [toUtf16Stores, if_pos hgo]
  split
  · next hnone => cases hchar.symm.trans hnone
  · rfl
  · next hval => cases hchar.symm.trans hval

theorem toUtf16Stores_char {val : UInt32} {len : Nat}
    (hchar : utf8GetChar p = some (some (val, len))) :
    toUtf16Stores wchar4 outSize p size out =
      if wchar4 = true ∨ val < 0x10000 then
        toUtf16Stores wchar4 outSize (p.drop len) (size - len) (out ++ [val])
      else if U32.add (out.length + 1) 1 < outSize then
        toUtf16Stores wchar4 outSize (p.drop len) (size - len) (out ++ [highUnit val, lowUnit val])
      else some (out ++ [highUnit val], false) := by
  rw [toUtf16Stores, if_pos hgo]
  split
  · next hnone => cases hchar.symm.trans hnone
  · next hbad => cases hchar.symm.trans hbad
  · next hval =>
    cases hchar.symm.trans hval
    rfl

end

/-- What a caller sees of the stores. -/
def returned (stores : List UInt32 × Bool) : Option (List UInt32) :=
  if stores.2 = true then some stores.1.dropLast else none

/-! ## Sequences -/

/-- The value of a sequence: the bits of the lead byte, and six of each byte behind. -/
def charOf : List UInt8 → UInt32
  | [] => 0
  | c :: p =>
    UInt32.ofNat (p.foldl (fun v b => v * 64 + b.toNat % 64) (c.toNat % leadBits (p.length + 1)))

/-- A byte that no sequence has where it stands. -/
inductive IllFormed : List UInt8 → Prop
  | lead {c : UInt8} {p : List UInt8} : utf8GetCharLen c = none → IllFormed (c :: p)
  | tail {c b : UInt8} {len : Nat} {bytes rest : List UInt8} : utf8GetCharLen c = some len →
      bytes.length + 1 < len → (∀ x ∈ bytes, x &&& 0xC0 = 0x80) → b &&& 0xC0 ≠ 0x80 →
      IllFormed (c :: (bytes ++ b :: rest))

theorem shift_or_byte {result : UInt32} (b : UInt8) (h : (result.toNat + 1) * 64 ≤ 2 ^ 32) :
    ((result <<< 6) ||| (b &&& 0x3F).toUInt32).toNat = result.toNat * 64 + b.toNat % 64 := by
  have hshift : (result <<< 6).toNat = result.toNat <<< 6 := by
    rw [UInt32.toNat_shiftLeft, Nat.shiftLeft_eq, Nat.shiftLeft_eq]
    show result.toNat * 64 % 2 ^ 32 = result.toNat * 64
    omega
  have hlow : (b &&& 0x3F).toUInt32.toNat = b.toNat % 64 := by
    rw [UInt8.toNat_toUInt32, UInt8.toNat_and]
    exact Nat.and_two_pow_sub_one_eq_mod b.toNat 6
  rw [UInt32.toNat_or, hshift, hlow, ← Nat.shiftLeft_add_eq_or_of_lt (Nat.mod_lt _ (by decide)),
    Nat.shiftLeft_eq]

theorem utf8GetContinuation_bytes (rest : List UInt8) : ∀ {bytes : List UInt8} {result : UInt32},
    (∀ b ∈ bytes, b &&& 0xC0 = 0x80) → (result.toNat + 1) * 64 ^ bytes.length ≤ 2 ^ 32 →
    utf8GetContinuation bytes.length result (bytes ++ rest) =
      some (some (UInt32.ofNat (bytes.foldl (fun v b => v * 64 + b.toNat % 64) result.toNat)))
  | [], result, _, _ => by
    rw [foldl_nil, UInt32.ofNat_toNat]
    rfl
  | b :: bytes, result, hbytes, hfit => by
    rw [length_cons, Nat.pow_succ', ← Nat.mul_assoc] at hfit
    have hone : 1 ≤ 64 ^ bytes.length := Nat.one_le_pow _ _ (by decide)
    have hstep := shift_or_byte b (Nat.le_trans (Nat.le_mul_of_pos_right _ hone) hfit)
    have hnext : (((result <<< 6) ||| (b &&& 0x3F).toUInt32).toNat + 1) * 64 ^ bytes.length ≤
        2 ^ 32 := by
      refine Nat.le_trans (Nat.mul_le_mul_right _ ?_) hfit
      rw [hstep]
      omega
    rw [length_cons, cons_append, utf8GetContinuation,
      if_neg (not_not.mpr (hbytes b mem_cons_self)),
      utf8GetContinuation_bytes rest (fun x hx => hbytes x (mem_cons_of_mem _ hx)) hnext,
      hstep, foldl_cons]

theorem lead_bits {c : UInt8} {len : Nat} (h : utf8GetCharLen c = some len) :
    len ≤ 6 ∧ (c.toUInt32 &&& ((1 <<< (8 - UInt32.ofNat len)) - 1)).toNat = c.toNat % leadBits len ∧
    (c.toNat % leadBits len + 1) * 64 ^ (len - 1) ≤ 2 ^ 32 := by
  have hall : ∀ x < 256, ∀ len ∈ (utf8GetCharLen (UInt8.ofNat x)).toList,
      len ≤ 6 ∧ ((UInt8.ofNat x).toUInt32 &&& ((1 <<< (8 - UInt32.ofNat len)) - 1)).toNat =
        (UInt8.ofNat x).toNat % leadBits len ∧
      ((UInt8.ofNat x).toNat % leadBits len + 1) * 64 ^ (len - 1) ≤ 2 ^ 32 := by decide +kernel
  have hc := hall c.toNat c.toNat_lt
  rw [UInt8.ofNat_toNat, h] at hc
  exact hc len (mem_singleton.mpr rfl)

theorem utf8GetChar_sequence : ∀ {seq : List UInt8}, IsSequence seq → ∀ rest : List UInt8,
    utf8GetChar (seq ++ rest) = some (some (charOf seq, seq.length))
  | c :: p, ⟨hlen, hp⟩, rest => by
    obtain ⟨_, hbits, hfit⟩ := lead_bits hlen
    rw [Nat.add_sub_cancel, ← hbits] at hfit
    simp only [cons_append, utf8GetChar, hlen, Nat.add_sub_cancel, charOf,
      utf8GetContinuation_bytes rest hp hfit, hbits, map_some, length_cons]

theorem utf8GetContinuation_cases : ∀ (n : Nat) (result : UInt32) (p : List UInt8),
    (∃ bytes rest, p = bytes ++ rest ∧ bytes.length = n ∧ ∀ b ∈ bytes, b &&& 0xC0 = 0x80) ∨
    (∃ bytes b rest, p = bytes ++ b :: rest ∧ bytes.length < n ∧
      (∀ x ∈ bytes, x &&& 0xC0 = 0x80) ∧ b &&& 0xC0 ≠ 0x80) ∨
    utf8GetContinuation n result p = none
  | 0, _, p => .inl ⟨[], p, rfl, rfl, by simp⟩
  | _ + 1, _, [] => .inr (.inr rfl)
  | n + 1, result, b :: p => by
    by_cases hb : b &&& 0xC0 = 0x80
    · have hcons : ∀ {bytes : List UInt8}, (∀ x ∈ bytes, x &&& 0xC0 = 0x80) →
          ∀ x ∈ b :: bytes, x &&& 0xC0 = 0x80 := fun h => forall_mem_cons.mpr ⟨hb, h⟩
      rw [utf8GetContinuation, if_neg (not_not.mpr hb)]
      rcases utf8GetContinuation_cases n ((result <<< 6) ||| (b &&& 0x3F).toUInt32) p with
        ⟨bytes, rest, rfl, hlen, hbytes⟩ | ⟨bytes, x, rest, rfl, hlen, hbytes, hx⟩ | hnone
      · exact .inl ⟨b :: bytes, rest, rfl, congrArg (· + 1) hlen, hcons hbytes⟩
      · exact .inr (.inl ⟨b :: bytes, x, rest, rfl, Nat.succ_lt_succ hlen, hcons hbytes, hx⟩)
      · exact .inr (.inr hnone)
    · exact .inr (.inl ⟨[], b, p, rfl, Nat.succ_pos n, by simp, hb⟩)

theorem utf8GetContinuation_bad {b : UInt8} (rest : List UInt8) (hb : b &&& 0xC0 ≠ 0x80) :
    ∀ {bytes : List UInt8} {n : Nat} {result : UInt32}, (∀ x ∈ bytes, x &&& 0xC0 = 0x80) →
    bytes.length < n → utf8GetContinuation n result (bytes ++ b :: rest) = some none
  | [], n + 1, result, _, _ => by rw [nil_append, utf8GetContinuation, if_pos hb]
  | x :: bytes, n + 1, result, hbytes, hlen => by
    rw [cons_append, utf8GetContinuation,
      if_neg (not_not.mpr (hbytes x mem_cons_self))]
    exact utf8GetContinuation_bad rest hb (fun y hy => hbytes y (mem_cons_of_mem _ hy))
      (Nat.lt_of_succ_lt_succ hlen)

theorem utf8GetChar_illFormed {p : List UInt8} (h : IllFormed p) : utf8GetChar p = some none := by
  cases h with
  | lead hlen => simp only [utf8GetChar, hlen]
  | tail hlen hshort hbytes hb =>
    simp only [utf8GetChar, hlen]
    rw [utf8GetContinuation_bad _ hb hbytes (by omega)]
    rfl

theorem utf8GetChar_cases : ∀ p : List UInt8,
    (∃ seq rest, p = seq ++ rest ∧ IsSequence seq) ∨ IllFormed p ∨ utf8GetChar p = none
  | [] => .inr (.inr rfl)
  | c :: p => by
    cases hlen : utf8GetCharLen c with
    | none => exact .inr (.inl (.lead hlen))
    | some len =>
      have hpos := utf8GetCharLen_pos hlen
      rcases utf8GetContinuation_cases (len - 1)
          (c.toUInt32 &&& ((1 <<< (8 - UInt32.ofNat len)) - 1)) p with
        ⟨bytes, rest, rfl, hbytes, hmark⟩ | ⟨bytes, b, rest, rfl, hbytes, hmark, hb⟩ | hnone
      · refine .inl ⟨c :: bytes, rest, rfl, ?_, hmark⟩
        rw [hlen, hbytes, Nat.sub_add_cancel hpos]
      · exact .inr (.inl (.tail hlen (by omega) hmark hb))
      · refine .inr (.inr ?_)
        simp only [utf8GetChar, hlen, hnone]
        rfl

/-! ## What is written, and what is promised -/

/-- The units of sequences. -/
def unitsOf (wchar4 : Bool) (seqs : List (List UInt8)) : List UInt32 :=
  seqs.flatMap fun seq => units wchar4 (charOf seq)

/-- All of `text` is complete characters, and they are what was stored behind `out`. -/
def Decoded (wchar4 : Bool) (text : List UInt8) (out stored : List UInt32) : Prop :=
  ∃ seqs : List (List UInt8), text = seqs.flatten ∧ (∀ seq ∈ seqs, IsSequence seq) ∧
    stored = out ++ unitsOf wchar4 seqs ++ [0]

/-- The contract from a state of the loop: nothing behind `text` is read, at most
`outSize` units are stored, and `out` is returned for a whole conversion only. -/
def Keeps (wchar4 : Bool) (outSize : Nat) (text : List UInt8) (out : List UInt32) : Prop :=
  ∃ stores, toUtf16Stores wchar4 outSize text text.length out = some stores ∧
    stores.1.length ≤ outSize ∧ (stores.2 = true → Decoded wchar4 text out stores.1)

/-- What may stand behind the sequences, with room for `room` units: nothing, or,
while there is room for another unit, an ill-formed byte inside the input, or a
character of which only the first half has room. -/
def EndsWell (wchar4 : Bool) (room : Nat) (tail : List UInt8) : Prop :=
  tail = [] ∨ (1 < room ∧ IllFormed tail) ∨
    (room = 2 ∧ ∃ seq rest, tail = seq ++ rest ∧ IsSequence seq ∧
      (units wchar4 (charOf seq)).length = 2)

/-- The inputs on which the contract is kept. -/
def Fits (wchar4 : Bool) (room : Nat) (text : List UInt8) : Prop :=
  ∃ (seqs : List (List UInt8)) (tail : List UInt8), text = seqs.flatten ++ tail ∧
    (∀ seq ∈ seqs, IsSequence seq) ∧ (unitsOf wchar4 seqs).length < room ∧
    EndsWell wchar4 (room - (unitsOf wchar4 seqs).length) tail

theorem unitsOf_cons (seq : List UInt8) (seqs : List (List UInt8)) :
    unitsOf wchar4 (seq :: seqs) = units wchar4 (charOf seq) ++ unitsOf wchar4 seqs :=
  flatMap_cons

theorem units_cases (wchar4 : Bool) (val : UInt32) :
    ((wchar4 = true ∨ val < 0x10000) ∧ units wchar4 val = [val]) ∨
    (¬ (wchar4 = true ∨ val < 0x10000) ∧ units wchar4 val = [highUnit val, lowUnit val]) := by
  by_cases hone : wchar4 = true ∨ val < 0x10000
  · exact .inl ⟨hone, if_pos hone⟩
  · exact .inr ⟨hone, if_neg hone⟩

theorem units_length_pos (wchar4 : Bool) (val : UInt32) : 0 < (units wchar4 val).length := by
  rcases units_cases wchar4 val with ⟨_, h⟩ | ⟨_, h⟩
  · rw [h]
    exact Nat.one_pos
  · rw [h]
    exact Nat.two_pos

theorem isSequence_length_pos : ∀ {seq : List UInt8}, IsSequence seq → 0 < seq.length
  | _ :: _, _ => Nat.succ_pos _

theorem flatten_inj {seq p : List UInt8} (hseq : IsSequence seq) {seqs : List (List UInt8)}
    (hseqs : ∀ s ∈ seqs, IsSequence s) (h : seq ++ p = seqs.flatten) :
    ∃ seqs', seqs = seq :: seqs' ∧ p = seqs'.flatten := by
  cases seqs with
  | nil =>
    have hpos := isSequence_length_pos hseq
    have hlen := congrArg List.length h
    rw [length_append] at hlen
    simp only [flatten_nil, length_nil] at hlen
    omega
  | cons first seqs =>
    rw [flatten_cons] at h
    have hread := utf8GetChar_sequence hseq p
    rw [h, utf8GetChar_sequence (hseqs first mem_cons_self)] at hread
    have hlen : first.length = seq.length :=
      congrArg Prod.snd (some.inj (some.inj hread))
    obtain ⟨hfirst, hrest⟩ := append_inj h hlen.symm
    exact ⟨seqs, by rw [hfirst], hrest⟩

theorem fits_of_endsWell {text : List UInt8} {room : Nat} (hroom : 0 < room)
    (hend : EndsWell wchar4 room text) : Fits wchar4 room text :=
  ⟨[], text, rfl, by simp, hroom, hend⟩

theorem fits_sequence {seq p : List UInt8} {room : Nat} (hseq : IsSequence seq)
    (h : (units wchar4 (charOf seq)).length < room)
    (hp : Fits wchar4 (room - (units wchar4 (charOf seq)).length) p) :
    Fits wchar4 room (seq ++ p) := by
  obtain ⟨seqs, tail, rfl, hseqs, hunits, hend⟩ := hp
  refine ⟨seq :: seqs, tail, by rw [flatten_cons, append_assoc],
    forall_mem_cons.mpr ⟨hseq, hseqs⟩, ?_, ?_⟩
  · rw [unitsOf_cons, length_append]
    omega
  · rw [unitsOf_cons, length_append, ← Nat.sub_sub]
    exact hend

/-! ## The outcomes of one round -/

variable {outSize : Nat} {out : List UInt32}

theorem stores_nil : toUtf16Stores wchar4 outSize [] 0 out = some (out ++ [0], true) := by
  rw [toUtf16Stores, if_neg fun h => absurd h.1 (Nat.lt_irrefl 0)]

section
variable (hout : outSize < 2 ^ 32)
include hout

theorem stores_full {p : List UInt8} (h : out.length + 1 = outSize) :
    toUtf16Stores wchar4 outSize p p.length out = some (out ++ [0], true) := by
  rw [toUtf16Stores, if_neg]
  rw [U32.add_of_lt (by omega), h]
  exact fun hgo => absurd hgo.2 (Nat.lt_irrefl outSize)

theorem round {p : List UInt8} (hp : p ≠ []) (h : out.length + 1 < outSize) :
    0 < p.length ∧ U32.add out.length 1 < outSize := by
  rw [U32.add_of_lt (by omega)]
  exact ⟨length_pos_iff.mpr hp, h⟩

theorem stores_bad {p : List UInt8} (h : out.length + 1 < outSize) (hbad : IllFormed p) :
    toUtf16Stores wchar4 outSize p p.length out = some (out, false) := by
  have hp : p ≠ [] := by
    rintro rfl
    cases hbad
  exact toUtf16Stores_bad (round hout hp h) (utf8GetChar_illFormed hbad)

theorem stores_sequence (wchar4 : Bool) {seq : List UInt8} (hseq : IsSequence seq) (p : List UInt8)
    (h : out.length + 1 < outSize) :
    (out.length + (units wchar4 (charOf seq)).length < outSize ∧
      toUtf16Stores wchar4 outSize (seq ++ p) (seq ++ p).length out =
        toUtf16Stores wchar4 outSize p p.length (out ++ units wchar4 (charOf seq))) ∨
    (out.length + 2 = outSize ∧ (units wchar4 (charOf seq)).length = 2 ∧
      toUtf16Stores wchar4 outSize (seq ++ p) (seq ++ p).length out =
        some (out ++ [highUnit (charOf seq)], false)) := by
  have hpos := isSequence_length_pos hseq
  have hp : seq ++ p ≠ [] := by
    intro hnil
    rw [(append_eq_nil_iff.mp hnil).1] at hpos
    exact absurd hpos (Nat.lt_irrefl 0)
  have hchar := utf8GetChar_sequence hseq p
  have hsize : (seq ++ p).length - seq.length = p.length := by
    rw [length_append, Nat.add_sub_cancel_left]
  rw [toUtf16Stores_char (round hout hp h) hchar, drop_left, hsize]
  rcases units_cases wchar4 (charOf seq) with ⟨hone, hunits⟩ | ⟨hone, hunits⟩
  · rw [if_pos hone, hunits]
    exact .inl ⟨h, rfl⟩
  · rw [if_neg hone, hunits, U32.add_of_lt (by omega)]
    split_ifs with htwo
    · exact .inl ⟨htwo, rfl⟩
    · exact .inr ⟨by omega, rfl, rfl⟩

/-! ## The contract -/

theorem keeps_sequence {seq p : List UInt8} (hseq : IsSequence seq)
    (h : out.length + (units wchar4 (charOf seq)).length < outSize) :
    Keeps wchar4 outSize (seq ++ p) out ↔
      Keeps wchar4 outSize p (out ++ units wchar4 (charOf seq)) := by
  have hpos := units_length_pos wchar4 (charOf seq)
  have hstores : toUtf16Stores wchar4 outSize (seq ++ p) (seq ++ p).length out =
      toUtf16Stores wchar4 outSize p p.length (out ++ units wchar4 (charOf seq)) := by
    have hmore : out.length + 1 < outSize := by omega
    rcases stores_sequence hout wchar4 hseq p hmore with ⟨_, heq⟩ | ⟨hfull, htwo, _⟩
    · exact heq
    · omega
  have hdecoded : ∀ stored, Decoded wchar4 (seq ++ p) out stored ↔
      Decoded wchar4 p (out ++ units wchar4 (charOf seq)) stored := by
    intro stored
    constructor
    · rintro ⟨seqs, htext, hseqs, rfl⟩
      obtain ⟨seqs', rfl, hp⟩ := flatten_inj hseq hseqs htext
      refine ⟨seqs', hp, fun s hs => hseqs s (mem_cons_of_mem _ hs), ?_⟩
      rw [unitsOf_cons, ← append_assoc out]
    · rintro ⟨seqs, rfl, hseqs, rfl⟩
      refine ⟨seq :: seqs, by rw [flatten_cons], forall_mem_cons.mpr ⟨hseq, hseqs⟩, ?_⟩
      rw [unitsOf_cons, ← append_assoc out]
  simp only [Keeps, hstores, hdecoded]

/-- The condition is enough.  The induction is on the sequences of the input. -/
theorem keeps_of_endsWell {tail : List UInt8} : ∀ {seqs : List (List UInt8)} {out : List UInt32},
    (∀ seq ∈ seqs, IsSequence seq) → out.length + (unitsOf wchar4 seqs).length < outSize →
    EndsWell wchar4 (outSize - out.length - (unitsOf wchar4 seqs).length) tail →
    Keeps wchar4 outSize (seqs.flatten ++ tail) out
  | [], out, _, hroom, hend => by
    have hroom' : out.length < outSize := hroom
    rcases hend with rfl | ⟨hmore, hbad⟩ | ⟨htwo, seq, rest, rfl, hseq, hpair⟩
    · refine ⟨_, stores_nil, ?_, fun _ => ⟨[], rfl, by simp, ?_⟩⟩
      · rw [length_append]
        exact hroom'
      · simp [unitsOf]
    · have hmore' : out.length + 1 < outSize := Nat.add_lt_of_lt_sub' hmore
      exact ⟨_, stores_bad hout hmore' hbad, Nat.le_of_lt hroom', nofun⟩
    · have htwo' : outSize - out.length = 2 := htwo
      have hmore : out.length + 1 < outSize := by omega
      rcases stores_sequence hout wchar4 hseq rest hmore with ⟨hfits, _⟩ | ⟨_, _, heq⟩
      · omega
      · refine ⟨_, heq, ?_, nofun⟩
        rw [length_append]
        exact hroom'
  | seq :: seqs, out, hseqs, hroom, hend => by
    obtain ⟨hseq, hrest⟩ := forall_mem_cons.mp hseqs
    rw [unitsOf_cons, length_append] at hroom hend
    rw [flatten_cons, append_assoc, keeps_sequence hout hseq (by omega)]
    refine keeps_of_endsWell hrest ?_ ?_
    · rw [length_append]
      omega
    · rw [length_append, Nat.sub_sub, Nat.add_assoc, ← Nat.sub_sub]
      exact hend

theorem not_keeps_cut {text : List UInt8} (hp : text ≠ []) (hmore : out.length + 1 < outSize)
    (hcut : utf8GetChar text = none) : ¬ Keeps wchar4 outSize text out := by
  rintro ⟨stores, hstores, _⟩
  rw [toUtf16Stores_cut (round hout hp hmore) hcut] at hstores
  cases hstores

theorem not_keeps_full {text : List UInt8} (hp : text ≠ []) (hfull : out.length + 1 = outSize) :
    ¬ Keeps wchar4 outSize text out := by
  rintro ⟨stores, hstores, _, hdone⟩
  rw [stores_full hout hfull] at hstores
  cases hstores
  obtain ⟨seqs, rfl, hseqs, heq⟩ := hdone rfl
  cases seqs with
  | nil => exact absurd rfl hp
  | cons seq seqs =>
    have hpos := units_length_pos wchar4 (charOf seq)
    have hlen := congrArg List.length heq
    rw [unitsOf_cons] at hlen
    simp only [length_append] at hlen
    omega

/-- The condition is needed.  The induction is on the length of the input. -/
theorem fits_of_keeps (n : Nat) : ∀ {text : List UInt8} {out : List UInt32}, text.length ≤ n →
    out.length < outSize → Keeps wchar4 outSize text out →
    Fits wchar4 (outSize - out.length) text := by
  induction n with
  | zero =>
    intro text out hn hroom _
    exact fits_of_endsWell (Nat.sub_pos_of_lt hroom)
      (.inl (length_eq_zero_iff.mp (Nat.le_zero.mp hn)))
  | succ n ih =>
    intro text out hn hroom h
    cases htext : text with
    | nil => exact fits_of_endsWell (Nat.sub_pos_of_lt hroom) (.inl rfl)
    | cons c rest =>
      have hp : text ≠ [] := by simp [htext]
      rw [← htext]
      by_cases hmore : out.length + 1 < outSize
      · rcases utf8GetChar_cases text with ⟨seq, p, rfl, hseq⟩ | hbad | hcut
        · rcases stores_sequence hout wchar4 hseq p hmore with
            ⟨hfits, _⟩ | ⟨hfull, hpair, _⟩
          · have hpos := isSequence_length_pos hseq
            rw [length_append] at hn
            have hrest := ih (by omega) (by rw [length_append]; exact hfits)
              ((keeps_sequence hout hseq hfits).mp h)
            rw [length_append, ← Nat.sub_sub] at hrest
            exact fits_sequence hseq (Nat.lt_sub_iff_add_lt'.mpr hfits) hrest
          · exact fits_of_endsWell (Nat.sub_pos_of_lt hroom)
              (.inr (.inr ⟨by omega, seq, p, rfl, hseq, hpair⟩))
        · exact fits_of_endsWell (Nat.sub_pos_of_lt hroom) (.inr (.inl ⟨by omega, hbad⟩))
        · exact absurd h (not_keeps_cut hout hp hmore hcut)
      · exact absurd h (not_keeps_full hout hp (by omega))

end

/-- The output buffer contract of `tk_utf8_to_utf16_ex` is kept on exactly the inputs
whose sequences have room for their units, and behind which there is nothing but what
makes the decoder return NULL. -/
theorem contract_iff {outSize : Nat} (text : List UInt8) (hpos : 0 < outSize)
    (hout : outSize < 2 ^ 32) :
    Keeps wchar4 outSize text [] ↔ Fits wchar4 outSize text := by
  constructor
  · exact fits_of_keeps hout text.length (Nat.le_refl _) hpos
  · rintro ⟨seqs, tail, rfl, hseqs, hroom, hend⟩
    exact keeps_of_endsWell hout hseqs (by simpa using hroom) hend
/-- An accented letter in a buffer with room for it. -/
theorem contract_iff_letter :
    0 < 3 ∧ 3 < 2 ^ 32 ∧
    (Keeps true 3 [0x61, 0xC3, 0xA9] [] ↔ Fits true 3 [0x61, 0xC3, 0xA9]) :=
  ⟨by decide, by decide, contract_iff [0x61, 0xC3, 0xA9] (by decide) (by decide)⟩

/-- A cut sequence is read past the end of the input, and two letters are returned as
one when the buffer has room for one. -/
theorem not_keeps :
    ¬ Keeps true 8 [0xC3] [] ∧ ¬ Keeps true 2 [0x61, 0x62] [] := by
  have hletter : IsSequence [0x61] := ⟨rfl, by simp⟩
  constructor
  · have hcut : utf8GetChar [0xC3] = none := rfl
    exact not_keeps_cut (by decide) (by simp) (by decide) hcut
  · intro h
    have hrest : Keeps true 2 [0x62] ([] ++ units true (charOf [0x61])) :=
      (keeps_sequence (by decide) hletter (by decide)).mp h
    have hfull : ([] ++ units true (charOf [0x61])).length + 1 = 2 := rfl
    exact not_keeps_full (by decide) (by simp) hfull hrest

end Awtk.Utf8
