import Awtk.Tkc.CStr
import Awtk.Tkc.Types

/-!
# Lines of a memory stream

A model of `tk_istream_read_line_str` over `tk_istream_mem_t`.  The string grows and is
the list of its bytes.  `line` is the buffer of the call with whatever it holds before,
and each read fills its first bytes.

A text is cut into lines by `linesFrom`.  What the calls return is such a cut too, but a
CR in the last byte of a chunk does not see an LF behind it.
-/

namespace Awtk.IStreamMem

def cr : UInt8 := 13

def lf : UInt8 := 10

def isEndLine (c : UInt8) : Bool := c = cr || c = lf

end IStreamMem

/-- `tk_istream_mem_t`. -/
structure IStreamMem where
  buff : Str
  cursor : Nat
  packetSize : Nat

namespace IStreamMem

def create (buff : Str) (packetSize : Nat) : Option IStreamMem :=
  if packetSize < buff.length then some { buff, cursor := 0, packetSize } else none

/-- `tk_istream_mem_read`: the bytes it copies. -/
def read (s : IStreamMem) (maxSize : Nat) : Str × IStreamMem :=
  let size := if s.packetSize ≠ 0 ∧ s.packetSize < maxSize then s.packetSize else maxSize
  let left := U32.sub s.buff.length s.cursor
  let size := if size > left then left else size
  ((s.buff.drop s.cursor).take size, { s with cursor := s.cursor + size })

def seek (s : IStreamMem) (offset : Nat) : Ret × IStreamMem :=
  if offset ≤ s.buff.length then (.ok, { s with cursor := offset }) else (.badParams, s)

/-- `tk_istream_mem_eos`. -/
def eos (s : IStreamMem) : Bool := s.cursor ≥ s.buff.length

/-- The index behind the end of the line at `i`.  The byte behind a CR is looked at where
it was not read, too. -/
def skipEndLine (text : Str) (i : Nat) : Nat :=
  if text[i]? = some cr then
    if text[i + 1]? = some lf then i + 2 else i + 1
  else i + 1

/-- The loop of `tk_istream_read_line_str`. -/
def readLineLoop : Nat → IStreamMem → Str → Str → Option (IStreamMem × Str)
  | 0, _, _, _ => none
  | n + 1, s, line, str =>
    if s.eos then some (s, str)
    else
      let (bytes, s) := s.read (line.length - 1)
      let size := bytes.length
      let line := bytes ++ line.drop size
      let i := (line.take size).findIdx isEndLine
      let str := str ++ line.take i
      if i = size then readLineLoop n s line str
      else
        let i := skipEndLine line i
        if i < size then
          let (ret, s) := s.seek (U32.sub s.cursor (size - i))
          if ret = .ok then some (s, str) else none
        else some (s, str)

/-- `tk_istream_read_line_str`.  Each round reads a byte. -/
def readLineStr (line : Str) (s : IStreamMem) : Option (Ret × IStreamMem × Str) :=
  if s.eos then some (.done, s, [])
  else (readLineLoop (s.buff.length + 1) s line []).map fun (s, str) => (.ok, s, str)

/-- One call after another, each with its own buffer. -/
def readLines : List Str → IStreamMem → Option (List (Ret × Str))
  | [], _ => some []
  | line :: lines, s => do
    let (ret, s, str) ← s.readLineStr line
    return (ret, str) :: (← readLines lines s)

/-! ## Lines -/

/-- The lines of a text behind the first bytes `line` of a line.  With `skip` an LF belongs
to the line before.  `cut` are the indices in its line at which a CR is not taken with an
LF behind it. -/
def linesFrom (cut : Nat → Bool) : Bool → Str → Str → List Str
  | _, line, [] => if line = [] then [] else [line]
  | skip, line, c :: rest =>
    if skip && c = lf then linesFrom cut false line rest
    else if c = cr then line :: linesFrom cut (!cut line.length) [] rest
    else if c = lf then line :: linesFrom cut false [] rest
    else linesFrom cut false (line ++ [c]) rest

/-- The lines of a text: each ends at a CR, an LF, both, or with the text. -/
def lines (content : Str) : List Str := linesFrom (fun _ => false) false [] content

/-- The results of `n` calls that return some lines and then nothing. -/
def expected : Nat → List Str → List (Ret × Str)
  | 0, _ => []
  | n + 1, [] => (.done, []) :: expected n []
  | n + 1, line :: ls => (.ok, line) :: expected n ls

/-- No CR with an LF behind it is at an index of `cut` in its line, where `n` bytes of the
line are in front of the text. -/
def NeverCut (cut : Nat → Bool) : Nat → Str → Prop
  | _, [] => True
  | n, c :: rest =>
    if c = cr then (rest.head? = some lf → cut n = false) ∧ NeverCut cut 0 rest
    else if c = lf then NeverCut cut 0 rest
    else NeverCut cut (n + 1) rest

/-- The largest number of bytes of a read. -/
def chunk (packetSize : Nat) : Nat := if packetSize ≠ 0 ∧ packetSize < 63 then packetSize else 63

/-- The byte is the last one of a chunk of its line. -/
def lastOfChunk (packetSize n : Nat) : Bool := (n + 1) % chunk packetSize = 0

/-- What is behind the first line. -/
def afterLine (cut : Nat → Bool) (n : Nat) (text : Str) : Str :=
  match text.dropWhile (!isEndLine ·) with
  | [] => []
  | c :: rest =>
    if c = cr ∧ rest.head? = some lf ∧ cut (n + (text.takeWhile (!isEndLine ·)).length) = false then
      rest.tail
    else rest

variable {cut : Nat → Bool} {skip : Bool} {line text rest : Str} {c : UInt8} {n : Nat}

theorem endLine_cases (c : UInt8) : c = cr ∨ c = lf ∨ isEndLine c = false := by
  by_cases hcr : c = cr
  · exact .inl hcr
  · by_cases hlf : c = lf
    · exact .inr (.inl hlf)
    · exact .inr (.inr (by simp [isEndLine, hcr, hlf]))

@[simp] theorem lf_ne_cr : lf ≠ cr := by decide

@[simp] theorem linesFrom_cr : linesFrom cut skip line (cr :: rest) =
    line :: linesFrom cut (!cut line.length) [] rest := by
  simp [linesFrom, lf_ne_cr.symm]

@[simp] theorem linesFrom_lf : linesFrom cut skip line (lf :: rest) =
    if skip then linesFrom cut false line rest else line :: linesFrom cut false [] rest := by
  simp [linesFrom]

theorem linesFrom_text (h : isEndLine c = false) :
    linesFrom cut skip line (c :: rest) = linesFrom cut false (line ++ [c]) rest := by
  rw [isEndLine, Bool.or_eq_false_iff, decide_eq_false_iff_not, decide_eq_false_iff_not] at h
  simp [linesFrom, h]

@[simp] theorem neverCut_cr : NeverCut cut n (cr :: rest) ↔
    (rest.head? = some lf → cut n = false) ∧ NeverCut cut 0 rest := by
  simp [NeverCut]

@[simp] theorem neverCut_lf : NeverCut cut n (lf :: rest) ↔ NeverCut cut 0 rest := by
  simp [NeverCut]

theorem neverCut_text (h : isEndLine c = false) :
    NeverCut cut n (c :: rest) ↔ NeverCut cut (n + 1) rest := by
  rw [isEndLine, Bool.or_eq_false_iff, decide_eq_false_iff_not, decide_eq_false_iff_not] at h
  simp [NeverCut, h]

theorem afterLine_cr : afterLine cut n (cr :: rest) =
    if rest.head? = some lf ∧ cut n = false then rest.tail else rest := by
  simp [afterLine, isEndLine]

theorem afterLine_lf : afterLine cut n (lf :: rest) = rest := by
  simp [afterLine, isEndLine]

theorem afterLine_text (h : isEndLine c = false) :
    afterLine cut n (c :: rest) = afterLine cut (n + 1) rest := by
  unfold afterLine
  rw [List.takeWhile_cons_of_pos (by simp [h]), List.dropWhile_cons_of_pos (by simp [h]),
    List.length_cons, Nat.add_right_comm, Nat.add_assoc]

theorem linesFrom_skip (cut : Nat → Bool) (skip : Bool) (text : Str) : linesFrom cut skip [] text =
    linesFrom cut false [] (if text.head? = some lf ∧ skip then text.tail else text) := by
  cases text with
  | nil => simp [linesFrom]
  | cons c rest =>
    rcases endLine_cases c with rfl | rfl | hc
    · simp [lf_ne_cr.symm]
    · cases skip <;> simp
    · have hne : c ≠ lf := by
        rintro rfl
        simp [isEndLine] at hc
      simp [linesFrom_text hc, hne]

/-- The first line and the others. -/
theorem linesFrom_eq : ∀ {text line : Str}, line ++ text ≠ [] →
    linesFrom cut false line text = (line ++ text.takeWhile (!isEndLine ·)) ::
      linesFrom cut false [] (afterLine cut line.length text)
  | [], line, h => by
    rw [List.append_nil] at h
    simp [linesFrom, afterLine, h]
  | c :: rest, line, _ => by
    rcases endLine_cases c with rfl | rfl | hc
    · rw [linesFrom_cr, afterLine_cr, linesFrom_skip]
      simp [isEndLine]
    · rw [linesFrom_lf, afterLine_lf]
      simp [isEndLine]
    · rw [linesFrom_text hc, linesFrom_eq (by simp), afterLine_text hc,
        List.takeWhile_cons_of_pos (by simp [hc]), List.append_assoc, List.length_append]
      rfl

/-! ## Cuts -/

/-- Cutting pairs gives no fewer lines. -/
theorem linesFrom_length_le (cut : Nat → Bool) : ∀ (text line : Str) {skip skip' : Bool},
    (skip' = true → skip = true) → (skip = true → line = []) →
    (linesFrom (fun _ => false) skip line text).length ≤ (linesFrom cut skip' line text).length
  | [], line, skip, skip', _, _ => by simp [linesFrom]
  | c :: rest, line, skip, skip', hskip, hline => by
    have ih (line' : Str) : (linesFrom (fun _ => false) false line' rest).length ≤
        (linesFrom cut false line' rest).length :=
      linesFrom_length_le cut rest line' id (fun h => absurd h Bool.false_ne_true)
    rcases endLine_cases c with rfl | rfl | hc
    · rw [linesFrom_cr, linesFrom_cr]
      exact Nat.succ_le_succ (linesFrom_length_le cut rest [] (fun _ => rfl) fun _ => rfl)
    · rw [linesFrom_lf, linesFrom_lf]
      cases skip with
      | false =>
        have hfalse : skip' = false := by simpa using hskip
        simpa [hfalse] using ih []
      | true =>
        rw [hline rfl]
        cases skip' with
        | false => simpa using Nat.le_succ_of_le (ih [])
        | true => simpa using ih []
    · rw [linesFrom_text hc, linesFrom_text hc]
      exact ih (line ++ [c])

/-- A text is cut into its lines exactly when no pair is cut. -/
theorem linesFrom_eq_iff : ∀ (text line : Str) (skip : Bool), (skip = true → line = []) →
    (linesFrom cut skip line text = linesFrom (fun _ => false) skip line text ↔
      NeverCut cut line.length text)
  | [], line, skip, _ => by simp [linesFrom, NeverCut]
  | c :: rest, line, skip, hline => by
    have ih (line' : Str) := linesFrom_eq_iff rest line' false
      (fun h => absurd h Bool.false_ne_true)
    rcases endLine_cases c with rfl | rfl | hc
    · rw [linesFrom_cr, linesFrom_cr, neverCut_cr, List.cons.injEq, and_iff_right rfl]
      cases hcut : cut line.length with
      | false =>
        have ih' := linesFrom_eq_iff rest [] true (fun _ => rfl)
        simpa using ih'
      | true =>
        by_cases hhead : rest.head? = some lf
        · -- the LF is a line of its own
          obtain ⟨rest', rfl⟩ : ∃ rest', rest = lf :: rest' := by
            cases rest with
            | nil => simp at hhead
            | cons d rest' => exact ⟨rest', by simpa using hhead⟩
          have hle : (linesFrom (fun _ => false) false [] rest').length ≤
              (linesFrom cut false [] rest').length :=
            linesFrom_length_le cut rest' [] id (fun h => absurd h Bool.false_ne_true)
          refine iff_of_false (fun heq => ?_) (fun hnever => ?_)
          · have hlen := congrArg List.length heq
            simp at hlen
            omega
          · simp at hnever
        · have hskip := linesFrom_skip (fun _ => false) true rest
          rw [if_neg fun h => hhead h.1] at hskip
          simpa [hhead, hskip] using ih []
    · rw [linesFrom_lf, linesFrom_lf, neverCut_lf]
      cases skip with
      | false => simpa using ih []
      | true =>
        rw [hline rfl]
        simpa using ih []
    · rw [linesFrom_text hc, linesFrom_text hc, neverCut_text hc]
      simpa using ih (line ++ [c])

theorem expected_injective : ∀ {ls ls' : List Str}, (∀ n, expected n ls = expected n ls') → ls = ls'
  | [], [], _ => rfl
  | [], l' :: ls', h => by
    have hone := h 1
    simp [expected] at hone
  | l :: ls, [], h => by
    have hone := h 1
    simp [expected] at hone
  | l :: ls, l' :: ls', h => by
    have hone := h 1
    simp only [expected, List.cons.injEq, Prod.mk.injEq, true_and, and_true] at hone
    have hrest : ls = ls' := expected_injective fun n => by
      have hn := h (n + 1)
      simp only [expected, List.cons.injEq] at hn
      exact hn.2
    rw [hone, hrest]

/-! ## A call -/

/-- The cursor is in the data. -/
def Wf (s : IStreamMem) : Prop := s.cursor ≤ s.buff.length ∧ s.buff.length < 2 ^ 32

/-- What was not read yet. -/
def unread (s : IStreamMem) : Str := s.buff.drop s.cursor

/-- The stream was moved to where `left` is left. -/
structure Moved (s s' : IStreamMem) (left : Str) : Prop where
  wf : s'.Wf
  buff : s'.buff = s.buff
  packetSize : s'.packetSize = s.packetSize
  unread : s'.unread = left

variable {s s' : IStreamMem} {left pre post str : Str} {packetSize i : Nat}

theorem chunk_pos (packetSize : Nat) : 0 < chunk packetSize := by
  unfold chunk
  split <;> omega

theorem Moved.trans {s'' : IStreamMem} {left' : Str} (h : Moved s s' left)
    (h' : Moved s' s'' left') : Moved s s'' left' :=
  ⟨h'.wf, h'.buff.trans h.buff, h'.packetSize.trans h.packetSize, h'.unread⟩

theorem unread_length (s : IStreamMem) : s.unread.length = s.buff.length - s.cursor :=
  List.length_drop

theorem eos_iff (h : s.Wf) : s.eos = true ↔ s.unread = [] := by
  rw [eos, decide_eq_true_eq, ← List.length_eq_zero_iff, unread_length]
  have hle := h.1
  omega

/-- A read takes a chunk, or all there is. -/
theorem read_spec (h : s.Wf) : ∃ s', s.read 63 = (s.unread.take (chunk s.packetSize), s') ∧
    Moved s s' (s.unread.drop (chunk s.packetSize)) ∧
    s'.cursor = s.cursor + (s.unread.take (chunk s.packetSize)).length := by
  have hleft : U32.sub s.buff.length s.cursor = s.unread.length := by
    rw [U32.sub_of_le h.1 h.2, unread_length]
  have hlen := unread_length s
  have hle := h.1
  unfold read
  rw [hleft]
  simp only
  rw [show (if s.packetSize ≠ 0 ∧ s.packetSize < 63 then s.packetSize else 63) =
    chunk s.packetSize from rfl, show s.buff.drop s.cursor = s.unread from rfl]
  split
  case isTrue hgt =>
    have htake : s.unread.take (chunk s.packetSize) = s.unread := List.take_of_length_le (by omega)
    have hdrop : s.unread.drop (chunk s.packetSize) = [] := List.drop_eq_nil_of_le (by omega)
    rw [List.take_length, htake, hdrop]
    refine ⟨_, rfl, ⟨⟨?_, h.2⟩, rfl, rfl, ?_⟩, rfl⟩
    · change s.cursor + s.unread.length ≤ s.buff.length
      omega
    · exact List.drop_eq_nil_of_le (by simp only; omega)
  case isFalse hgt =>
    refine ⟨_, rfl, ⟨⟨?_, h.2⟩, rfl, rfl, ?_⟩, ?_⟩
    · change s.cursor + chunk s.packetSize ≤ s.buff.length
      omega
    · exact List.drop_drop.symm
    · rw [List.length_take, Nat.min_eq_left (by omega)]

/-- Moving back to the byte `i` of what was read. -/
theorem seek_back (h' : s'.Wf) (hbuff : s'.buff = s.buff)
    (hpacket : s'.packetSize = s.packetSize) {size : Nat} (hcursor : s'.cursor = s.cursor + size)
    (hi : i < size) : ∃ s'', s'.seek (U32.sub s'.cursor (size - i)) = (.ok, s'') ∧
      Moved s s'' (s.unread.drop i) := by
  have hle := h'.1
  have hlt := h'.2
  have hpos : U32.sub s'.cursor (size - i) = s.cursor + i := by
    rw [U32.sub_of_le (by omega) (by omega)]
    omega
  rw [hpos, seek, if_pos (by omega)]
  refine ⟨_, rfl, ⟨?_, h'.2⟩, hbuff, hpacket, ?_⟩
  · change s.cursor + i ≤ s'.buff.length
    omega
  · change s'.buff.drop (s.cursor + i) = _
    rw [hbuff, unread, List.drop_drop]

theorem exists_endLine : ∀ text : Str, (∀ c ∈ text, isEndLine c = false) ∨
    ∃ pre c post, text = pre ++ c :: post ∧ (∀ d ∈ pre, isEndLine d = false) ∧ isEndLine c = true
  | [] => .inl fun _ h => absurd h List.not_mem_nil
  | c :: rest => by
    cases hc : isEndLine c with
    | true => exact .inr ⟨[], c, rest, rfl, fun _ h => absurd h List.not_mem_nil, hc⟩
    | false =>
      cases exists_endLine rest with
      | inl hall => exact .inl (List.forall_mem_cons.mpr ⟨hc, hall⟩)
      | inr hex =>
        obtain ⟨pre, d, post, rfl, hpre, hd⟩ := hex
        exact .inr ⟨c :: pre, d, post, rfl, List.forall_mem_cons.mpr ⟨hc, hpre⟩, hd⟩

theorem afterLine_append : ∀ {pre : Str} {n : Nat}, (∀ c ∈ pre, isEndLine c = false) →
    afterLine cut n (pre ++ post) = afterLine cut (n + pre.length) post
  | [], n, _ => rfl
  | c :: pre, n, h => by
    obtain ⟨hc, hpre⟩ := List.forall_mem_cons.mp h
    rw [List.cons_append, afterLine_text hc, afterLine_append hpre, List.length_cons]
    congr 1
    omega

theorem takeWhile_append (h : ∀ c ∈ pre, isEndLine c = false) :
    (pre ++ post).takeWhile (!isEndLine ·) = pre ++ post.takeWhile (!isEndLine ·) :=
  List.takeWhile_append_of_pos fun c hc => by rw [h c hc]; rfl

/-- A chunk does not change the place in the chunks. -/
theorem afterLine_chunk (packetSize : Nat) (text : Str) :
    afterLine (lastOfChunk packetSize) (chunk packetSize) text =
      afterLine (lastOfChunk packetSize) 0 text := by
  unfold afterLine lastOfChunk
  simp only [Nat.zero_add, Nat.add_assoc, Nat.add_mod_left]

theorem skipEndLine_eq {tail : Str} : skipEndLine (pre ++ c :: tail) pre.length =
    if c = cr ∧ tail.head? = some lf then pre.length + 2 else pre.length + 1 := by
  have hc : (pre ++ c :: tail)[pre.length]? = some c := by simp
  have htail : (pre ++ c :: tail)[pre.length + 1]? = tail.head? := by
    rw [List.getElem?_append_right (by omega), List.head?_eq_getElem?]
    simp
  by_cases hcr : c = cr
  · rw [skipEndLine, if_pos (hc.trans (congrArg some hcr))]
    simp only [htail, and_iff_right hcr]
  · have hne : ¬(pre ++ c :: tail)[pre.length]? = some cr :=
      fun h => hcr (Option.some.inj (hc.symm.trans h))
    rw [skipEndLine, if_neg hne, if_neg fun h => hcr h.1]

theorem findIdx_endLine (hpre : ∀ d ∈ pre, isEndLine d = false) (hc : isEndLine c = true) :
    (pre ++ c :: post).findIdx isEndLine = pre.length := by
  have hall : pre.findIdx isEndLine = pre.length := List.findIdx_eq_length_of_false hpre
  rw [List.findIdx_append, hall, if_neg (Nat.lt_irrefl _), List.findIdx_cons, hc]
  simp

/-- What is left when a chunk has an end of line, where `junk` is the rest of the buffer. -/
theorem afterLine_found (left junk : Str) (hpre : ∀ d ∈ pre, isEndLine d = false)
    (hc : isEndLine c = true) (hfull : left ≠ [] → (pre ++ c :: post).length = chunk packetSize)
    (hle : (pre ++ c :: post).length ≤ chunk packetSize) :
    afterLine (lastOfChunk packetSize) 0 (pre ++ c :: (post ++ left)) =
      if skipEndLine (pre ++ c :: (post ++ junk)) pre.length < (pre ++ c :: post).length then
        (pre ++ c :: (post ++ left)).drop (skipEndLine (pre ++ c :: (post ++ junk)) pre.length)
      else left := by
  have hdrop {text : Str} : (pre ++ c :: text).drop (pre.length + 1) = text := by
    rw [List.drop_append, List.drop_eq_nil_of_le (by omega)]
    simp
  rw [afterLine_append hpre, Nat.zero_add, skipEndLine_eq]
  cases post with
  | nil =>
    simp only [List.nil_append]
    rw [if_neg (by rw [List.length_append, List.length_singleton]; split <;> omega)]
    rcases endLine_cases c with rfl | rfl | hc'
    · -- an LF behind the chunk is not seen
      refine afterLine_cr.trans (if_neg fun hlf => ?_)
      have hne : left ≠ [] := by
        rintro rfl
        simp at hlf
      have hlen := hfull hne
      rw [List.length_append, List.length_singleton] at hlen
      simp [lastOfChunk, hlen] at hlf
    · exact afterLine_lf
    · rw [hc] at hc'
      cases hc'
  | cons p ps =>
    simp only [List.cons_append, List.head?_cons, Option.some.injEq]
    rw [List.length_append, List.length_cons, List.length_cons] at hle ⊢
    rcases endLine_cases c with rfl | rfl | hc'
    · have hcut : lastOfChunk packetSize pre.length = false := by
        unfold lastOfChunk
        rw [Nat.mod_eq_of_lt (by omega)]
        simp
      rw [afterLine_cr, hcut, List.head?_cons]
      by_cases hp : p = lf
      · have hskip : cr = cr ∧ p = lf := ⟨rfl, hp⟩
        rw [if_pos ⟨congrArg some hp, rfl⟩, if_pos hskip, List.tail_cons]
        cases ps with
        | nil => simp
        | cons q ps =>
          rw [if_pos (by simp)]
          change _ = (pre ++ cr :: p :: (q :: ps ++ left)).drop (pre.length + 1 + 1)
          rw [← List.drop_drop, hdrop, List.drop_one, List.tail_cons]
      · have hskip : ¬(cr = cr ∧ p = lf) := fun h => hp h.2
        rw [if_neg fun h => hp (Option.some.inj h.1), if_neg hskip, if_pos (by omega), hdrop]
    · have hskip : ¬(lf = cr ∧ p = lf) := fun h => lf_ne_cr h.1
      rw [afterLine_lf, if_neg hskip, if_pos (by omega), hdrop]
    · rw [hc] at hc'
      cases hc'

theorem readLineLoop_spec : ∀ {n : Nat} {s : IStreamMem} {line : Str} (str : Str), s.Wf →
    line.length = 64 → s.unread.length < n →
    ∃ s', readLineLoop n s line str = some (s', str ++ s.unread.takeWhile (!isEndLine ·)) ∧
      Moved s s' (afterLine (lastOfChunk s.packetSize) 0 s.unread)
  | n + 1, s, line, str, h, hline, hn => by
    by_cases hnil : s.unread = []
    · rw [readLineLoop, if_pos ((eos_iff h).mpr hnil), hnil, List.takeWhile_nil, List.append_nil]
      exact ⟨s, rfl, h, rfl, rfl, hnil⟩
    obtain ⟨s₁, hread, hm, hcursor⟩ := read_spec h
    have hsplit := (List.take_append_drop (chunk s.packetSize) s.unread).symm
    rw [← hm.unread] at hsplit
    have hle : (s.unread.take (chunk s.packetSize)).length ≤ chunk s.packetSize :=
      List.length_take_le _ _
    have hfull : s₁.unread ≠ [] →
        (s.unread.take (chunk s.packetSize)).length = chunk s.packetSize := by
      rw [hm.unread, ne_eq, List.drop_eq_nil_iff, List.length_take]
      omega
    have hbytes : s.unread.take (chunk s.packetSize) ≠ [] := by
      rw [ne_eq, List.take_eq_nil_iff]
      have hpos := chunk_pos s.packetSize
      exact fun hor => hor.elim (by omega) hnil
    have hchunk : chunk s.packetSize ≤ 63 := by
      unfold chunk
      split <;> omega
    generalize hb : s.unread.take (chunk s.packetSize) = bytes at *
    have htake : (bytes ++ line.drop bytes.length).take bytes.length = bytes :=
      List.take_left' rfl
    rw [readLineLoop, if_neg fun heos => hnil ((eos_iff h).mp heos), hline]
    simp only [hread, htake, Nat.add_one_sub_one]
    cases exists_endLine bytes with
    | inl hall =>
      have hi : bytes.findIdx isEndLine = bytes.length := List.findIdx_eq_length_of_false hall
      have hpos := List.length_pos_iff.mpr hbytes
      have hlen := congrArg List.length hsplit
      rw [List.length_append] at hlen
      have hline' : (bytes ++ line.drop bytes.length).length = 64 := by
        rw [List.length_append, List.length_drop]
        omega
      obtain ⟨s', hrun, hm'⟩ := readLineLoop_spec (str ++ bytes) hm.wf hline'
        (by omega : s₁.unread.length < n)
      refine ⟨s', ?_, ?_⟩
      · rw [hi, if_pos rfl, htake, hrun, hsplit, takeWhile_append hall, List.append_assoc]
      · rw [hm.packetSize] at hm'
        have hafter : afterLine (lastOfChunk s.packetSize) 0 s.unread =
            afterLine (lastOfChunk s.packetSize) 0 s₁.unread := by
          rw [hsplit, afterLine_append hall, Nat.zero_add]
          by_cases hend : s₁.unread = []
          · rw [hend]
            rfl
          · rw [hfull hend, afterLine_chunk]
        rw [hafter]
        exact hm.trans hm'
    | inr hex =>
      obtain ⟨pre, c, post, rfl, hpre, hc⟩ := hex
      have hafter := afterLine_found s₁.unread (line.drop (pre ++ c :: post).length)
        hpre hc hfull hle
      have hassoc (x : Str) : pre ++ c :: (post ++ x) = pre ++ c :: post ++ x := by simp
      rw [hassoc, hassoc, ← hsplit] at hafter
      have hwhile : s.unread.takeWhile (!isEndLine ·) = pre := by
        rw [hsplit, ← hassoc, takeWhile_append hpre, List.takeWhile_cons_of_neg (by simp [hc]),
          List.append_nil]
      have hpretake : (pre ++ c :: post ++ line.drop (pre ++ c :: post).length).take pre.length =
          pre := by
        rw [List.append_assoc, List.take_left]
      have hne : pre.length ≠ (pre ++ c :: post).length := by simp
      rw [findIdx_endLine hpre hc, if_neg hne, hpretake, hwhile]
      generalize skipEndLine _ _ = j at hafter ⊢
      by_cases hj : j < (pre ++ c :: post).length
      · obtain ⟨s', hseek, hm'⟩ := seek_back hm.wf hm.buff hm.packetSize hcursor hj
        rw [if_pos hj] at hafter ⊢
        rw [hseek, hafter]
        exact ⟨s', rfl, hm'⟩
      · rw [if_neg hj] at hafter ⊢
        rw [hafter]
        exact ⟨s₁, rfl, hm.wf, hm.buff, hm.packetSize, rfl⟩

/-- A call returns the first line and moves behind it. -/
theorem readLineStr_spec (h : s.Wf) (hline : line.length = 64) (hne : s.unread ≠ []) :
    ∃ s', s.readLineStr line = some (.ok, s', s.unread.takeWhile (!isEndLine ·)) ∧
      Moved s s' (afterLine (lastOfChunk s.packetSize) 0 s.unread) := by
  have hlen := unread_length s
  obtain ⟨s', hrun, hm⟩ := readLineLoop_spec [] h hline
    (by omega : s.unread.length < s.buff.length + 1)
  refine ⟨s', ?_, hm⟩
  rw [readLineStr, if_neg fun heos => hne ((eos_iff h).mp heos), hrun]
  rfl

/-- What the calls return. -/
theorem readLines_spec : ∀ {buffers : List Str} {s : IStreamMem}, s.Wf →
    (∀ line ∈ buffers, line.length = 64) → readLines buffers s = some (expected buffers.length
      (linesFrom (lastOfChunk s.packetSize) false [] s.unread))
  | [], s, _, _ => rfl
  | line :: buffers, s, h, hlen => by
    obtain ⟨hline, hrest⟩ := List.forall_mem_cons.mp hlen
    rw [readLines]
    by_cases hnil : s.unread = []
    · have ih := readLines_spec h hrest
      rw [hnil] at ih ⊢
      simp only [readLineStr, (eos_iff h).mpr hnil, if_true, Option.bind_eq_bind,
        Option.bind_some, ih]
      rfl
    · obtain ⟨s', hcall, hm⟩ := readLineStr_spec h hline hnil
      have ih := readLines_spec hm.wf hrest
      rw [hm.packetSize, hm.unread] at ih
      have hfirst : linesFrom (lastOfChunk s.packetSize) false [] s.unread =
          s.unread.takeWhile (!isEndLine ·) :: linesFrom (lastOfChunk s.packetSize) false []
            (afterLine (lastOfChunk s.packetSize) 0 s.unread) := linesFrom_eq hnil
      simp only [hcall, Option.bind_eq_bind, Option.bind_some, ih]
      rw [hfirst]
      rfl

/-- The calls return the lines exactly when no CR with an LF behind it is the last byte of
a chunk of its line. -/
theorem readLines_iff {content : Str} (h : create content packetSize = some s)
    (hlen : content.length < 2 ^ 32) :
    (∀ buffers, (∀ line ∈ buffers, line.length = 64) →
      readLines buffers s = some (expected buffers.length (lines content))) ↔
    NeverCut (lastOfChunk packetSize) 0 content := by
  obtain ⟨-, rfl⟩ : packetSize < content.length ∧ IStreamMem.mk content 0 packetSize = s := by
    unfold create at h
    split at h
    case isTrue hlt => exact ⟨hlt, Option.some.inj h⟩
    case isFalse => cases h
  have hwf : (IStreamMem.mk content 0 packetSize).Wf := ⟨Nat.zero_le _, hlen⟩
  have hiff : linesFrom (lastOfChunk packetSize) false [] content = lines content ↔
      NeverCut (lastOfChunk packetSize) 0 content :=
    linesFrom_eq_iff content [] false (fun _ => rfl)
  rw [← hiff]
  constructor
  · intro hall
    refine expected_injective fun n => ?_
    have hbuffers : ∀ line ∈ List.replicate n (List.replicate 64 (0 : UInt8)),
        line.length = 64 := by
      intro line hline
      rw [(List.mem_replicate.mp hline).2, List.length_replicate]
    have hn := (readLines_spec hwf hbuffers).symm.trans (hall _ hbuffers)
    rw [List.length_replicate] at hn
    exact Option.some.inj hn
  · intro heq buffers hbuffers
    rw [readLines_spec hwf hbuffers, ← heq]
    rfl

theorem readLines_iff_pair :
    (∀ buffers, (∀ line ∈ buffers, line.length = 64) →
      readLines buffers ⟨[97, 13, 10], 0, 2⟩ =
        some (expected buffers.length (lines [97, 13, 10]))) ↔
    NeverCut (lastOfChunk 2) 0 [97, 13, 10] :=
  readLines_iff rfl (by decide)

/-- A line that ends at the end of a chunk is followed by an empty one. -/
theorem readLines_pair_cut : ∃ s, create [13, 10] 1 = some s ∧
    ¬∀ buffers, (∀ line ∈ buffers, line.length = 64) →
      readLines buffers s = some (expected buffers.length (lines [13, 10])) := by
  refine ⟨_, rfl, fun hall => ?_⟩
  have htwo := hall [List.replicate 64 0, List.replicate 64 0] (by decide)
  exact absurd htwo (by decide)

end Awtk.IStreamMem
