import Mathlib
import Awtk.Streams.ShdlcFraming

/-!
# Integrity of received frames

`shdlc_read_data` is meant to accept nothing but a frame whose checksum it has
compared.  `Verified` says so of one accepted input, `Integrity` of every buffer
and allocator.  The reader falls short of it in several ways, and `SoundFrame` is
the condition on the characters of the frame that rules out exactly these.
-/

namespace Awtk.Shdlc

open WBuffer Stuffing List

variable {realloc : Nat → Bool} {wb wb' : WBuffer}

/-! ## The property -/

/-- `input` is a run of opening flags, a frame and a closing flag, and `rest`.
Unescaped, the frame is a header, a body and the checksum of both, and the
buffer holds the header and the body. -/
def Verified (input : List UInt8) (wb : WBuffer) (rest : List UInt8) : Prop :=
  ∃ (k : Nat) (frame : List UInt8) (header : UInt8) (body : List UInt8) (low high : UInt8),
    input = List.replicate (k + 1) shdlcFlag ++ (frame ++ shdlcFlag :: rest) ∧
    shdlcFlag ∉ frame ∧
    unstuff code false frame = header :: (body ++ [low, high]) ∧
    fcs16 pppInitFcs16 (header :: body) = joinBytes low high ∧
    wb.contents = header :: body

/-- Reading `input` has a defined result, and what is accepted is verified. -/
def Integrity (input : List UInt8) : Prop :=
  ∀ (realloc : Nat → Bool) (wb : WBuffer), wb.Ok →
    ∃ r wb' rest, shdlcReadData realloc wb input = some (r, wb', rest) ∧
      (r = .ok → Verified input wb' rest)

/-! ## The condition -/

/-- The characters behind the header, up to the next flag. -/
def frameChars (tail : List UInt8) : List UInt8 := tail.takeWhile (· ≠ shdlcFlag)

/-- What the reader writes to the buffer for a frame: the header as it is, and
the rest unescaped. -/
def received (c : UInt8) (tail : List UInt8) : List UInt8 :=
  c :: unstuff code false (frameChars tail)

/-- The frame with first character `c`, followed by `tail`, reaches none of the
gaps of the reader. -/
structure SoundFrame (c : UInt8) (tail : List UInt8) : Prop where
  /-- An ack or a nack is not longer than its checksum, so it is not cut off. -/
  notCut : (Header.mk c).type = shdlcAck ∨ (Header.mk c).type = shdlcNack →
    (received c tail).length ≤ 3
  /-- The frame fits a buffer whose size is a `uint32_t`. -/
  fits : (received c tail).length < growLimit
  /-- A frame that is closed and passes the comparison has a header that is not
  escaped and is not the checksum itself, and where its length is no `int`, so
  that nothing was summed up, its checksum is right all the same. -/
  checked : shdlcFlag ∈ tail → ∀ body low high, received c tail = body ++ [low, high] →
    Matches body low high →
    c ≠ shdlcEscapeChar ∧ body ≠ [] ∧
      (2 ^ 31 ≤ body.length → fcs16 pppInitFcs16 body = joinBytes low high)

/-- The first frame of the input, if there is one, is sound. -/
def Sound (input : List UInt8) : Prop :=
  ∀ k c tail, input = List.replicate (k + 1) shdlcFlag ++ c :: tail → c ≠ shdlcFlag →
    SoundFrame c tail

/-! ## Taking an input apart -/

theorem flag_notMem_frameChars (tail : List UInt8) : shdlcFlag ∉ frameChars tail := by
  intro h
  have := mem_takeWhile_imp h
  simp at this

theorem frameChars_append (tail : List UInt8) :
    (shdlcFlag ∉ tail ∧ frameChars tail = tail) ∨
    (shdlcFlag ∈ tail ∧ ∃ rest, tail = frameChars tail ++ shdlcFlag :: rest) := by
  induction tail with
  | nil => exact .inl ⟨not_mem_nil, rfl⟩
  | cons c tail ih =>
    by_cases hc : c = shdlcFlag
    · refine .inr ⟨by simp [hc], tail, ?_⟩
      simp [frameChars, hc]
    · have hcons : frameChars (c :: tail) = c :: frameChars tail := by simp [frameChars, hc]
      rw [hcons]
      cases ih with
      | inl h => exact .inl ⟨by simp [Ne.symm hc, h.1], by rw [h.2]⟩
      | inr h =>
        obtain ⟨hmem, rest, hrest⟩ := h
        exact .inr ⟨mem_cons_of_mem _ hmem, rest, by rw [cons_append, ← hrest]⟩

theorem replicate_append_inj {m n : Nat} {xs ys : List UInt8} (hx : shdlcFlag ∉ xs)
    (hy : shdlcFlag ∉ ys)
    (h : List.replicate m shdlcFlag ++ xs = List.replicate n shdlcFlag ++ ys) : xs = ys := by
  have hkeep : ∀ {zs : List UInt8}, shdlcFlag ∉ zs → ∀ k,
      (List.replicate k shdlcFlag ++ zs).filter (· ≠ shdlcFlag) = zs := by
    intro zs hz k
    rw [filter_append, filter_replicate_of_neg (by simp), nil_append,
      filter_eq_self]
    intro z hz'
    simpa using fun hzf : z = shdlcFlag => hz (hzf ▸ hz')
  rw [← hkeep hx m, h, hkeep hy n]

theorem input_cases (input : List UInt8) :
    (∃ k, input = List.replicate k shdlcFlag) ∨
    (∃ c rest, input = c :: rest ∧ c ≠ shdlcFlag) ∨
    (∃ k c tail, input = List.replicate (k + 1) shdlcFlag ++ c :: tail ∧ c ≠ shdlcFlag) := by
  induction input with
  | nil => exact .inl ⟨0, rfl⟩
  | cons c rest ih =>
    by_cases hc : c = shdlcFlag
    · subst hc
      cases ih with
      | inl h =>
        obtain ⟨k, rfl⟩ := h
        exact .inl ⟨k + 1, rfl⟩
      | inr h =>
        cases h with
        | inl h =>
          obtain ⟨d, rest, rfl, hd⟩ := h
          exact .inr (.inr ⟨0, d, rest, rfl, hd⟩)
        | inr h =>
          obtain ⟨k, d, tail, rfl, hd⟩ := h
          exact .inr (.inr ⟨k + 1, d, tail, rfl, hd⟩)
    · exact .inr (.inl ⟨c, rest, rfl, hc⟩)

theorem skipFlags_flags : ∀ k : Nat, skipFlags (List.replicate k shdlcFlag) = none
  | 0 => rfl
  | k + 1 => by
    rw [replicate_succ, skipFlags, if_neg (by simp)]
    exact skipFlags_flags k

theorem expectFlag_broken : ∀ cs : List UInt8,
    expectFlag true cs = none ∨ ∃ rest, expectFlag true cs = some (true, rest)
  | [] => .inl rfl
  | c :: cs => by
    rw [expectFlag]
    by_cases hc : c = shdlcFlag
    · exact .inr ⟨cs, if_pos hc⟩
    · rw [if_neg hc]
      exact expectFlag_broken cs

theorem shdlcReadData_flags (realloc : Nat → Bool) (wb : WBuffer) (k : Nat) : ∃ r rest,
    shdlcReadData realloc wb (List.replicate k shdlcFlag) = some (r, wb, rest) ∧ r ≠ .ok := by
  cases k with
  | zero => exact ⟨.timeout, [], rfl, by decide⟩
  | succ k =>
    refine ⟨.timeout, [], ?_, by decide⟩
    rw [shdlcReadData, replicate_succ, expectFlag, if_pos rfl]
    dsimp only
    rw [skipFlags_flags]

theorem shdlcReadData_broken (realloc : Nat → Bool) (wb : WBuffer) {c : UInt8}
    (hc : c ≠ shdlcFlag) (cs : List UInt8) : ∃ r rest,
    shdlcReadData realloc wb (c :: cs) = some (r, wb, rest) ∧ r ≠ .ok := by
  rw [shdlcReadData, expectFlag, if_neg hc]
  cases expectFlag_broken cs with
  | inl h =>
    rw [h]
    exact ⟨.timeout, [], rfl, by decide⟩
  | inr h =>
    obtain ⟨rest, h⟩ := h
    rw [h]
    exact ⟨.crc, rest, rfl, by decide⟩

theorem exists_eq_append_pair {xs : List UInt8} (h : 2 ≤ xs.length) :
    ∃ body low high, xs = body ++ [low, high] := by
  have hdrop : (xs.drop (xs.length - 2)).length = 2 := by
    rw [length_drop]
    omega
  obtain ⟨low, high, hlast⟩ := length_eq_two.mp hdrop
  exact ⟨xs.take (xs.length - 2), low, high, by rw [← hlast, take_append_drop]⟩

/-! ## A sound frame -/

/-- What a closed and sound frame has when it passes the comparison. -/
theorem SoundFrame.verified {c : UInt8} {tail rest body : List UInt8} {low high : UInt8}
    (hs : SoundFrame c tail) (hc : c ≠ shdlcFlag) (htail : tail = frameChars tail ++ shdlcFlag :: rest)
    (hbody : received c tail = body ++ [low, high]) (hm : Matches body low high)
    (hcont : wb.contents = body) (k : Nat) :
    Verified (List.replicate (k + 1) shdlcFlag ++ c :: tail) wb rest := by
  have hmem : shdlcFlag ∈ tail := by
    rw [htail]
    simp
  obtain ⟨hesc, hne, hlong⟩ := hs.checked hmem body low high hbody hm
  cases body with
  | nil => exact absurd rfl hne
  | cons header body =>
    have hun : unstuff code false (c :: frameChars tail) = header :: (body ++ [low, high]) := by
      rw [← cons_append, ← hbody, unstuff_cons_of_ne code hesc]
      rfl
    refine ⟨k, c :: frameChars tail, header, body, low, high, ?_, ?_, hun, ?_, hcont⟩
    · rw [cons_append, ← htail]
    · rw [mem_cons, not_or]
      exact ⟨Ne.symm hc, flag_notMem_frameChars tail⟩
    · by_cases hlen : (header :: body).length < 2 ^ 31
      · have hreal := hm.symm
        rwa [tkCrc16_of_lt _ _ hlen, take_length] at hreal
      · exact hlong (Nat.not_lt.mp hlen)

theorem SoundFrame.read {c : UInt8} {tail : List UInt8} (hs : SoundFrame c tail)
    (hc : c ≠ shdlcFlag) (hw : wb.Ok) (k : Nat) :
    ∃ r wb' rest, shdlcReadData realloc wb (List.replicate (k + 1) shdlcFlag ++ c :: tail) =
        some (r, wb', rest) ∧
      (r = .ok → Verified (List.replicate (k + 1) shdlcFlag ++ c :: tail) wb' rest) := by
  have hcut : (Header.mk c).type = shdlcAck ∨ (Header.mk c).type = shdlcNack →
      (unstuff code false (frameChars tail)).length ≤ 2 :=
    fun ht => Nat.le_of_succ_le_succ (hs.notCut ht)
  have hfit : wb.rewind.cursor + (received c tail).length < growLimit := by
    show 0 + _ < _
    rw [Nat.zero_add]
    exact hs.fits
  obtain ⟨r, w, hx⟩ : ∃ r w, writeBytes realloc wb.rewind (received c tail) = some (r, w) :=
    Ok.writeBytes_defined _ hw.rewind hfit
  obtain ⟨tail', htail, hend⟩ : ∃ tail', tail = frameChars tail ++ tail' ∧
      (tail' = [] ∨ ∃ rest, tail' = shdlcFlag :: rest) := by
    cases frameChars_append tail with
    | inl h => exact ⟨[], by rw [append_nil, h.2], .inl rfl⟩
    | inr h =>
      obtain ⟨_, rest, h⟩ := h
      exact ⟨shdlcFlag :: rest, h, .inr ⟨rest, rfl⟩⟩
  have hread := shdlcReadData_chars realloc hw hc (flag_notMem_frameChars tail) hcut k
    tail'
  rw [← htail, show c :: unstuff code false (frameChars tail) = received c tail from rfl,
    hx] at hread
  by_cases hr : r = .ok
  · subst hr
    obtain ⟨lastC', hread⟩ := hread
    obtain ⟨hok, hcont, _⟩ := writeBytes_ok hw.rewind hx
    rw [rewind_contents, nil_append] at hcont
    cases hend with
    | inl hnil =>
      subst hnil
      exact ⟨.timeout, w, [], hread, fun h => absurd h (by decide)⟩
    | inr hflag =>
      obtain ⟨rest, rfl⟩ := hflag
      rw [readBody_flag] at hread
      by_cases hlen : 2 ≤ (received c tail).length
      · obtain ⟨body, low, high, hbody⟩ := exists_eq_append_pair hlen
        obtain ⟨w', hclose, _, hw'⟩ := closeFrame_append hok (hcont.trans hbody)
        rw [hclose] at hread
        refine ⟨_, _, _, hread, fun hok => ?_⟩
        have hm : Matches body low high := by
          by_contra hm
          rw [if_neg hm] at hok
          cases hok
        exact hs.verified hc htail hbody hm hw' k
      · rw [closeFrame_short (by rw [← hok.contents_length, hcont]; omega)] at hread
        exact ⟨.fail, w, rest, hread, fun h => absurd h (by decide)⟩
  · simp only [if_neg hr] at hread
    obtain ⟨rest, hread⟩ := hread
    exact ⟨.oom, w, rest, hread, fun h => absurd h (by decide)⟩

theorem integrity_of_sound {input : List UInt8} (hs : Sound input) : Integrity input := by
  intro realloc wb hw
  cases input_cases input with
  | inl h =>
    obtain ⟨k, rfl⟩ := h
    obtain ⟨r, rest, hread, hr⟩ := shdlcReadData_flags realloc wb k
    exact ⟨r, wb, rest, hread, fun h => absurd h hr⟩
  | inr h =>
    cases h with
    | inl h =>
      obtain ⟨c, cs, rfl, hc⟩ := h
      obtain ⟨r, rest, hread, hr⟩ := shdlcReadData_broken realloc wb hc cs
      exact ⟨r, wb, rest, hread, fun h => absurd h hr⟩
    | inr h =>
      obtain ⟨k, c, tail, rfl, hc⟩ := h
      exact (hs k c tail rfl hc).read hc hw k

/-! ## An unsound frame -/

/-- A buffer as large as one can be that still has to grow, with an allocator
that never hands out more. -/
@[irreducible] def largest : WBuffer := ⟨List.replicate growLimit 0, 0, growLimit, true⟩

def refuse (_ : Nat) : Bool := false

theorem largest_ok : largest.Ok := by
  rw [largest]
  exact ⟨length_replicate, Nat.zero_le _, by show growLimit < 2 ^ 32; decide⟩

theorem largest_fields : largest.cursor = 0 ∧ largest.capacity = growLimit ∧
    largest.extendable = true := by
  rw [largest]
  exact ⟨rfl, rfl, rfl⟩

theorem largest_rewind : largest.rewind = largest := by rw [largest, WBuffer.rewind]

theorem writeBytes_largest (bs : List UInt8) (h : bs.length < growLimit) :
    ∃ w, writeBytes refuse largest bs = some (.ok, w) ∧ w.Ok ∧ w.contents = bs := by
  have hroom : Room refuse largest bs.length := .inl (by rwa [largest_fields.2.1])
  have hfit : largest.cursor + bs.length ≤ bs.length := by rw [largest_fields.1, Nat.zero_add]
  obtain ⟨w, hx, _⟩ := Room.writeBytes bs largest_ok hroom hfit
  obtain ⟨hok, hcont, _⟩ := writeBytes_ok largest_ok hx
  have hempty : largest.contents = [] := by rw [contents, largest_fields.1, take_zero]
  rw [hempty, nil_append] at hcont
  exact ⟨w, hx, hok, hcont⟩

theorem writeBytes_overflow {bs : List UInt8} (h : growLimit ≤ bs.length) :
    writeBytes refuse largest bs = none := by
  have hlim : growLimit = 2863311531 := rfl
  obtain ⟨as, b, cs, rfl, has⟩ : ∃ as b cs, bs = as ++ b :: cs ∧ as.length + 1 = growLimit := by
    have hlt : growLimit - 1 < bs.length := by omega
    refine ⟨bs.take (growLimit - 1), bs[growLimit - 1], bs.drop (growLimit - 1 + 1), ?_, ?_⟩
    · rw [← drop_eq_getElem_cons hlt, take_append_drop]
    · rw [length_take]
      omega
  obtain ⟨w, hx, hok, hcont⟩ := writeBytes_largest as (by omega)
  have hcap : w.capacity = growLimit := by
    rw [writeBytes_refused (fun _ => rfl) largest_ok hx, largest_fields.2.1]
  have hext : w.extendable = true := by
    rw [(writeBytes_ok largest_ok hx).2.2, largest_fields.2.2]
  have hcur : w.cursor + 1 = growLimit := by rw [← hok.contents_length, hcont, has]
  have hnone : w.writeUint8 refuse b = none := by
    have hsum : U32.add (U32.add w.cursor 1) 1 = growLimit + 1 := by
      rw [U32.add_of_lt (a := w.cursor) (by omega), hcur, U32.add_of_lt (by omega)]
    have hgrow : w.extendDelta refuse 1 = none := by
      rw [extendDelta, hsum, extendCapacity, hcap, if_neg (by omega), hext, if_neg (by decide)]
      exact if_pos (by omega)
    show (w.extendDelta refuse 1).bind _ = none
    rw [hgrow]
    rfl
  rw [writeBytes_append hx, writeBytes_cons_none hnone]

/-- A verified input was read up to a flag. -/
theorem Verified.last (before : List UInt8) {rest : List UInt8} (d : UInt8)
    (h : Verified (before ++ d :: rest) wb rest) : d = shdlcFlag := by
  obtain ⟨k, frame, _, _, _, _, hin, _⟩ := h
  rw [← append_assoc, ← singleton_append (x := d),
    ← singleton_append (x := shdlcFlag), ← append_assoc, ← append_assoc] at hin
  have hcancel := append_cancel_right hin
  exact singleton_inj.mp (append_inj' hcancel rfl).2

/-- The frame of a verified input is the one in front of the closing flag. -/
theorem Verified.frame {k : Nat} {chars rest : List UInt8} (hflag : shdlcFlag ∉ chars)
    (h : Verified (List.replicate (k + 1) shdlcFlag ++ (chars ++ shdlcFlag :: rest)) wb rest) :
    ∃ header body low high, unstuff code false chars = header :: (body ++ [low, high]) ∧
      fcs16 pppInitFcs16 (header :: body) = joinBytes low high ∧ wb.contents = header :: body := by
  obtain ⟨k', frame, header, body, low, high, hin, hf, hun, hfcs, hcont⟩ := h
  rw [← append_assoc, ← append_assoc] at hin
  have hframe := replicate_append_inj hflag hf (append_cancel_right hin)
  exact ⟨header, body, low, high, by rw [hframe, hun], hfcs, hcont⟩

variable {k : Nat} {c : UInt8} {tail : List UInt8}

/-- An ack or a nack that is cut off is accepted at a character that is no flag. -/
theorem notCut_of_integrity (hc : c ≠ shdlcFlag)
    (hi : Integrity (List.replicate (k + 1) shdlcFlag ++ c :: tail))
    (ht : (Header.mk c).type = shdlcAck ∨ (Header.mk c).type = shdlcNack) :
    (received c tail).length ≤ 3 := by
  by_contra hlen
  have hlt : 2 < (unstuff code false (frameChars tail)).length := by
    rw [received, length_cons] at hlen
    omega
  obtain ⟨as, d, bs, hsplit, hesc, has⟩ := exists_split_of_lt_unstuff code hlt
  have hflag := flag_notMem_frameChars tail
  rw [hsplit] at hflag
  have hd : d ≠ shdlcFlag := by
    rintro rfl
    simp at hflag
  have hflag_as : shdlcFlag ∉ as := fun h => hflag (mem_append_left _ h)
  obtain ⟨tail', htail⟩ : ∃ tail', tail = as ++ d :: tail' := by
    obtain ⟨t, ht⟩ := takeWhile_prefix (l := tail) (· ≠ shdlcFlag)
    exact ⟨bs ++ t, by rw [← ht, ← frameChars, hsplit]; simp⟩
  have hread := shdlcReadData_chars refuse largest_ok hc hflag_as
    (fun _ => has.le) k (d :: tail')
  have hthree : (c :: unstuff code false as).length = 3 := by rw [length_cons, has]
  obtain ⟨w, hx, hok, hcont⟩ := writeBytes_largest (c :: unstuff code false as)
    (by rw [hthree]; decide)
  rw [largest_rewind, hx] at hread
  obtain ⟨lastC', hread⟩ := hread
  have hcut : AtCut ⟨c⟩ w := ⟨ht, by rw [← hok.contents_length, hcont, hthree]⟩
  rw [readBody_cut hd hesc hcut, ← htail] at hread
  obtain ⟨r, w', rest, hread', hver⟩ := hi refuse largest largest_ok
  rw [hread] at hread'
  cases hread'
  have hv := hver rfl
  rw [htail, show List.replicate (k + 1) shdlcFlag ++ c :: (as ++ d :: tail') =
    (List.replicate (k + 1) shdlcFlag ++ c :: as) ++ d :: tail' by simp] at hv
  exact hd (Verified.last _ _ hv)

theorem fits_of_integrity (hc : c ≠ shdlcFlag)
    (hi : Integrity (List.replicate (k + 1) shdlcFlag ++ c :: tail)) :
    (received c tail).length < growLimit := by
  by_contra hlen
  have hcut := fun ht => Nat.le_of_succ_le_succ (notCut_of_integrity hc hi ht)
  obtain ⟨tail', htail⟩ : ∃ tail', frameChars tail ++ tail' = tail :=
    takeWhile_prefix (l := tail) (· ≠ shdlcFlag)
  have hread := shdlcReadData_chars refuse largest_ok hc
    (flag_notMem_frameChars tail) hcut k tail'
  rw [largest_rewind, htail,
    show c :: unstuff code false (frameChars tail) = received c tail from rfl,
    writeBytes_overflow (Nat.not_lt.mp hlen)] at hread
  obtain ⟨r, w', rest, hread', _⟩ := hi refuse largest largest_ok
  rw [hread] at hread'
  cases hread'

theorem checked_of_integrity (hc : c ≠ shdlcFlag)
    (hi : Integrity (List.replicate (k + 1) shdlcFlag ++ c :: tail)) (hmem : shdlcFlag ∈ tail)
    {body : List UInt8} {low high : UInt8} (hbody : received c tail = body ++ [low, high])
    (hm : Matches body low high) :
    c ≠ shdlcEscapeChar ∧ body ≠ [] ∧
      (2 ^ 31 ≤ body.length → fcs16 pppInitFcs16 body = joinBytes low high) := by
  have hcut := fun ht => Nat.le_of_succ_le_succ (notCut_of_integrity hc hi ht)
  obtain ⟨rest, htail⟩ : ∃ rest, tail = frameChars tail ++ shdlcFlag :: rest := by
    cases frameChars_append tail with
    | inl h => exact absurd hmem h.1
    | inr h => exact h.2
  -- the reader accepts the frame
  have hread := shdlcReadData_chars refuse largest_ok hc
    (flag_notMem_frameChars tail) hcut k (shdlcFlag :: rest)
  obtain ⟨w, hx, hok, hcont⟩ := writeBytes_largest _ (fits_of_integrity hc hi)
  rw [largest_rewind, ← htail,
    show c :: unstuff code false (frameChars tail) = received c tail from rfl, hx] at hread
  obtain ⟨lastC', hread⟩ := hread
  obtain ⟨w', hclose, _, hw'⟩ := closeFrame_append hok (hcont.trans hbody)
  rw [readBody_flag, hclose, if_pos hm] at hread
  obtain ⟨r, w'', rest', hread', hver⟩ := hi refuse largest largest_ok
  rw [hread] at hread'
  cases hread'
  -- so the frame is verified, and its decoding is known
  have hv := hver rfl
  rw [htail, ← cons_append] at hv
  have hflag : shdlcFlag ∉ c :: frameChars tail := by
    rw [mem_cons, not_or]
    exact ⟨Ne.symm hc, flag_notMem_frameChars tail⟩
  obtain ⟨header, body', low', high', hun, hfcs, hcont'⟩ := hv.frame hflag
  rw [hw'] at hcont'
  subst hcont'
  have hesc : c ≠ shdlcEscapeChar := by
    rintro rfl
    have hlen := congrArg List.length hun
    have hlen' := congrArg List.length hbody
    rw [show unstuff code false (shdlcEscapeChar :: frameChars tail) =
      unstuff code true (frameChars tail) from unstuff_esc code _ _,
      unstuff_length_eq code true false] at hlen
    simp only [received, length_cons, length_append, length_nil] at hlen hlen'
    omega
  refine ⟨hesc, by simp, fun _ => ?_⟩
  rw [unstuff_cons_of_ne code hesc] at hun
  have hsame : header :: body' ++ [low, high] = header :: body' ++ [low', high'] := by
    rw [← hbody, cons_append, ← hun]
    rfl
  have hpair := append_cancel_left hsame
  cases hpair
  exact hfcs

/-- `shdlc_read_data` accepts nothing but verified frames exactly on the inputs
whose first frame is sound. -/
theorem integrity_iff_sound (input : List UInt8) : Integrity input ↔ Sound input := by
  constructor
  · rintro hi k c tail rfl hc
    exact ⟨notCut_of_integrity hc hi, fits_of_integrity hc hi,
      fun hmem _ _ _ hbody hm => checked_of_integrity hc hi hmem hbody hm⟩
  · exact integrity_of_sound

/-- An ack of four zero-filled bytes is accepted with no checksum compared. -/
theorem not_integrity_ack : ¬ Integrity [0x7E, 0x02, 0x00, 0x00, 0x00] := by
  intro h
  obtain ⟨r, wb', rest, hread, hver⟩ := h (fun _ => true) initExtendable initExtendable_ok
  have hrun : shdlcReadData (fun _ => true) initExtendable [0x7E, 0x02, 0x00, 0x00, 0x00] =
      some (.ok, ⟨[2, 0, 0, 0], 3, 4, true⟩, []) := by decide
  rw [hrun] at hread
  cases hread
  have hv := hver rfl
  have hlast := Verified.last [0x7E, 0x02, 0x00, 0x00] 0x00 hv
  exact absurd hlast (by decide)

end Awtk.Shdlc
