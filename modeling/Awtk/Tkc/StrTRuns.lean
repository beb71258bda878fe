import Awtk.Lib.Run
import Awtk.Tkc.StrTEdits
import Awtk.Tkc.StrTFormat
import Awtk.Tkc.StrTReplace

/-!
# Runs of a growable string

Every run of calls keeps the size, the terminator and the C string together as long as each call
gets the room that it writes to, and writes what it counts (`wf_of_meets`).  A formatted text that
is cut is counted whole (`format_not_wf`).
-/

namespace Awtk.StrT

open List Option

open Block (read write resize text)

/-! ## Calls -/

/-- A call on a string.  `out` is the text of a format. -/
inductive Op where
  | setWithLen (text : Str) (len : UInt32)
  | appendWithLen (text : Str) (size : UInt32)
  | appendChar (c : UInt8)
  | appendNChars (c : UInt8) (n : UInt32)
  | appendWchar (wchar4 : Bool) (ws : List UInt32)
  | insertWithLen (offset : UInt32) (text : Str) (size : UInt32)
  | remove (offset size : UInt32)
  | replaceEx (pos : UInt32) (text newText : Str)
  | trim (chars : Str)
  | shrink (size : UInt32)
  | pop
  | reverse
  | commonPrefix (other : Str)
  | dequote (quoteChar : UInt8)
  | format (size : UInt32) (out : Str)
  | appendVformat (size : UInt32) (out : Str)
  | appendFormatPadding (size : UInt32) (out : Str)

/-- A call, and the sizes for which there is memory. -/
structure Call where
  memory : Nat → Bool
  op : Op

/-- What the call does. -/
def call (memory : Nat → Bool) (s : StrT) : Op → Option (Ret × StrT)
  | .setWithLen text len => s.setWithLen memory text len.toNat
  | .appendWithLen text size => s.appendWithLen memory text size.toNat
  | .appendChar c => s.appendChar memory c
  | .appendNChars c n => s.appendNChars memory c n.toNat
  | .appendWchar wchar4 ws => s.appendWchar memory wchar4 ws
  | .insertWithLen offset text size => s.insertWithLen memory offset.toNat text size.toNat
  | .remove offset size => s.remove offset.toNat size.toNat
  | .replaceEx pos text newText => s.replaceEx memory pos.toNat text newText
  | .trim chars => s.trim chars
  | .shrink size => s.shrink size.toNat
  | .pop => s.pop
  | .reverse => s.reverse
  | .commonPrefix other => s.commonPrefix other
  | .dequote quoteChar => s.dequote quoteChar
  | .format size out => s.format memory size.toNat out
  | .appendVformat size out => s.appendVformat memory size.toNat out
  | .appendFormatPadding size out => s.appendFormatPadding memory size.toNat out

/-- The string after a call.  An access outside of the block gives none. -/
def step (s : StrT) (c : Call) : Option StrT := (call c.memory s c.op).map Prod.snd

/-- The texts of a call have no NUL. -/
def Op.NulFree : Op → Prop
  | .setWithLen text _ | .appendWithLen text _ | .insertWithLen _ text _ => 0 ∉ text
  | .appendChar c => c ≠ 0
  | .appendNChars c n => c ≠ 0 ∨ n = 0
  | .appendWchar _ ws => 0 ∉ ws
  | .replaceEx _ text newText => 0 ∉ text ∧ 0 ∉ newText
  | .format _ out | .appendVformat _ out | .appendFormatPadding _ out => 0 ∉ out
  | .trim _ | .commonPrefix _ | .remove .. | .shrink _ | .pop | .reverse | .dequote _ => True

/-- The call has the room that it uses, and counts what it writes. -/
def Op.Ok (memory : Nat → Bool) (s : StrT) : Op → Prop
  | .setWithLen _ len => RoomOk memory s (len.toNat + 1)
  | .appendWithLen text size | .insertWithLen _ text size =>
    size.toNat ≤ text.length ∧ RoomOk memory s (s.size + size.toNat + 1)
  | .appendChar _ => RoomOk memory s (s.size + 2)
  | .appendNChars _ n => RoomOk memory s (s.size + n.toNat + 1)
  | .appendWchar wchar4 ws => WcharOk memory s wchar4 ws
  | .remove offset size =>
    U32.add offset.toNat size.toNat ≤ s.size → offset.toNat + size.toNat < 2 ^ 32
  | .replaceEx pos text newText => ReplaceOk memory s pos.toNat text newText
  | .format size out => FormatOk memory s size.toNat out
  | .appendVformat size out => AppendVformatOk memory s size.toNat out
  | .appendFormatPadding size out =>
    AppendVformatOk memory s size.toNat out ∧ s.size + size.toNat + 1 ≠ 2 ^ 32
  | .trim _ | .shrink _ | .pop | .reverse | .commonPrefix _ | .dequote _ => True

def StepOk (s : StrT) (c : Call) : Prop := c.op.NulFree ∧ c.op.Ok c.memory s

/-! ## The invariant -/

/-- A string that is made, or attached to a buffer with a text. -/
inductive Started : StrT → Prop where
  | init (memory : Nat → Bool) (capacity : Nat) {s : StrT} (hlt : capacity + 1 < 2 ^ 32)
    (h : init memory capacity = some (some s)) : Started s
  | attach (buff : List UInt8) {s : StrT} (hlt : buff.length < 2 ^ 32)
    (h : attach buff buff.length = some (some s)) : Started s
  | attachWithSize (buff : List UInt8) (size : Nat) {s : StrT} (hlt : buff.length < 2 ^ 32)
    (hnul : 0 ∉ buff.take size) (h : attachWithSize buff size buff.length = some (some s)) : Started s

/-- The size is inside the block, and is that of the C string, at which the terminator is.  A string
that has no block yet has the size 0. -/
def Wf (s : StrT) : Prop :=
  match s.str with
  | none => s.size = 0
  | some str => s.size < str.length ∧ str[s.size]? = some 0 ∧
      ∃ t, text str 0 = some t ∧ t.length = s.size

section Runs

variable {memory : Nat → Bool} {s : StrT} {t : Str}

theorem Text.wf (h : Text s t) : Wf s := by
  rcases h with ⟨hstr, hsize, -, -⟩ | ⟨rest, h⟩
  · rw [Wf, hstr]
    exact hsize
  · rw [Wf, h.str, h.size]
    refine ⟨by simp, by simp, t, Block.text_zero h.nul, rfl⟩

theorem attachWithSize_text {buff : List UInt8} {size : Nat} (hlt : buff.length < 2 ^ 32)
    (hnul : 0 ∉ buff.take size) (h : attachWithSize buff size buff.length = some (some s)) :
    Text s (buff.take size) := by
  rw [attachWithSize] at h
  split at h
  · cases h
  next hsize =>
    rw [not_or, Nat.not_le] at hsize
    have hlen : (buff.take size).length = size := length_take_of_le hsize.2.le
    have hsplit : buff = buff.take size ++ buff.drop size := (take_append_drop _ _).symm
    generalize buff.take size = t at *
    generalize buff.drop size = y at *
    subst hsplit
    rw [length_append] at hsize
    obtain ⟨c, y, rfl⟩ := exists_cons_of_length_pos (l := y) (by omega)
    rw [Block.write_at hlen (by simp)] at h
    cases h
    refine .inr ⟨y, rfl, hlen.symm, hnul, ?_, ?_, hlt⟩
    · show t.length < (t ++ c :: y).length
      rw [length_append, length_cons]
      omega
    · show (t ++ c :: y).length ≤ _
      rw [length_append, length_cons]
      omega

theorem Started.text (h : Started s) : ∃ t, Text s t := by
  cases h with
  | init memory capacity hlt h =>
    have hzero : Text ⟨none, 0, 0, true⟩ [] := .inl ⟨rfl, rfl, rfl, rfl⟩
    rw [StrT.init] at h
    have hok : Granted memory ⟨none, 0, 0, true⟩ capacity → capacity ≤ 0 ∨ capacity + 1 < 2 ^ 32 :=
      fun _ => .inr hlt
    rcases extend_cases hzero hok with
      ⟨s', he, ht, -, -⟩ | he
    · rw [he] at h
      cases h
      exact ⟨[], ht⟩
    · rw [he] at h
      cases h
  | attach buff hlt h =>
    rw [StrT.attach] at h
    split at h
    · cases h
    · have hlen : (List.replicate buff.length (0 : UInt8)).length = buff.length := length_replicate
      have hwrite := Block.write_at (x := []) (y := buff) (d := List.replicate buff.length 0) rfl
        hlen.le
      rw [nil_append, nil_append, hlen, drop_length, append_nil] at hwrite
      rw [length_nil] at hwrite
      rw [hwrite, bind_some] at h
      rw [← hlen] at hlt
      have h' : StrT.attachWithSize (List.replicate buff.length 0) 0
          (List.replicate buff.length (0 : UInt8)).length = some (some s) := by rw [hlen]; exact h
      exact ⟨_, attachWithSize_text hlt (by simp) h'⟩
  | attachWithSize buff size hlt hnul h => exact ⟨_, attachWithSize_text hlt hnul h⟩

/-- One call makes a text of a text. -/
theorem call_gives (h : Text s t) (op : Op) (hnul : op.NulFree) (hok : op.Ok memory s) :
    ∃ t', Gives (call memory s op) t' := by
  cases op with
  | setWithLen text len =>
    exact (setWithLen_gives h hnul hok).elim (fun hg => ⟨_, hg⟩) (fun hg => ⟨_, hg⟩)
  | appendWithLen text size =>
    exact (appendWithLen_gives h hnul hok.1 hok.2).elim (fun hg => ⟨_, hg⟩) (fun hg => ⟨_, hg⟩)
  | appendChar c =>
    have hgives := appendNChars_gives h (c := c) (n := 1) (.inl hnul) hok
    rw [← appendChar_eq] at hgives
    exact hgives.elim (fun hg => ⟨_, hg⟩) (fun hg => ⟨_, hg⟩)
  | appendNChars c n =>
    have hn : c ≠ 0 ∨ n.toNat = 0 := hnul.imp id fun hn => by rw [hn]; rfl
    exact (appendNChars_gives h hn hok).elim (fun hg => ⟨_, hg⟩) (fun hg => ⟨_, hg⟩)
  | appendWchar wchar4 ws =>
    obtain ⟨u, hg⟩ := appendWchar_gives h hnul hok
    exact ⟨_, hg⟩
  | insertWithLen offset text size =>
    exact (insertWithLen_gives h hnul hok.1 hok.2).elim (fun hg => ⟨_, hg⟩) (fun hg => ⟨_, hg⟩)
  | remove offset size =>
    exact (remove_gives h hok).elim (fun hg => ⟨_, hg⟩) (fun hg => ⟨_, hg⟩)
  | replaceEx pos text newText =>
    exact (replaceEx_gives h hnul.1 hnul.2 hok).elim (fun hg => ⟨_, hg⟩) (fun hg => ⟨_, hg⟩)
  | trim chars => exact ⟨_, trim_gives h chars⟩
  | shrink size => exact ⟨_, shrink_gives h _⟩
  | pop => exact ⟨_, pop_gives h⟩
  | reverse => exact ⟨_, reverse_gives h⟩
  | commonPrefix other =>
    obtain ⟨i, hg⟩ := commonPrefix_gives h other
    exact ⟨_, hg⟩
  | dequote c => exact (dequote_gives h c).elim (fun hg => ⟨_, hg⟩) (fun hg => ⟨_, hg⟩)
  | format size out =>
    rcases format_gives h hnul hok with hg | hg | hg
    · exact ⟨_, hg⟩
    · exact ⟨_, hg⟩
    · exact ⟨_, hg⟩
  | appendVformat size out =>
    obtain ⟨ret, s', u, he, ht, -⟩ := appendVformat_gives h hnul hok
    exact ⟨_, ret, s', he, ht⟩
  | appendFormatPadding size out =>
    obtain ⟨u, hg⟩ := appendFormatPadding_gives h size.toNat_lt hnul hok.1 hok.2
    exact ⟨_, hg⟩

theorem step_text (s : StrT) (c : Call) (h : ∃ t, Text s t) (hok : StepOk s c) :
    ∃ s', step s c = some s' ∧ ∃ t, Text s' t := by
  obtain ⟨t, ht⟩ := h
  obtain ⟨t', ret, s', he, ht'⟩ := call_gives ht c.op hok.1 hok.2
  exact ⟨s', by rw [step, he]; rfl, t', ht'⟩

/-- In every run of calls that have their room and count what they write, the string is well-formed
after each call, and no call accesses memory outside of the block. -/
theorem wf_of_meets (hstart : Started s) {calls : List Call} (hm : Runs.Meets step StepOk s calls) :
    ∀ pre, pre <+: calls → ∃ s', Runs.run step s pre = some s' ∧ Wf s' := by
  intro pre hpre
  obtain ⟨s', hrun, t, ht⟩ := Runs.meets_reachable (I := fun s => ∃ t, Text s t) step_text
    hstart.text hm pre hpre
  exact ⟨s', hrun, ht.wf⟩

end Runs

def hello : Str := [104, 101, 108, 108, 111]

/-- A byte of a text is replaced, and blanks are appended up to the end of the buffer. -/
theorem wf_of_meets_hello :
    ∃ s', Runs.run step ⟨some (hello ++ [0, 0, 0, 0]), 5, 9, false⟩
      [⟨fun _ => true, .replaceEx 1 [108] [120]⟩, ⟨fun _ => true, .appendNChars 32 3⟩] = some s' ∧
      Wf s' := by
  refine wf_of_meets
    (.attachWithSize (hello ++ [0, 0, 0, 0]) 5 (by decide) (by decide) (by decide +kernel)) ?_
    _ (List.prefix_refl _)
  have hreplace : step ⟨some (hello ++ [0, 0, 0, 0]), 5, 9, false⟩
      ⟨fun _ => true, .replaceEx 1 [108] [120]⟩ =
      some ⟨some [104, 101, 120, 120, 111, 0, 0, 0, 0], 5, 9, false⟩ := by decide +kernel
  refine (Runs.meets_cons_some hreplace).mpr
    ⟨⟨⟨by decide, by decide⟩, ?_⟩, ⟨.inl (by decide), fun _ => .inl (by decide)⟩, fun _ _ => trivial⟩
  intro str p hstr _ hp _
  cases hstr
  have hp' : text (hello ++ [0, 0, 0, 0]) 1 = some ([101, 108, 108, 111] : Str) := by decide +kernel
  obtain rfl := some_inj.mp (hp.symm.trans hp')
  exact ⟨fun _ => by decide, fun hd => absurd hd (by decide +kernel), fun _ =>
    ⟨by decide +kernel, by decide +kernel, trivial⟩⟩

/-- A formatted text that is cut has the size of all of it. -/
theorem format_not_wf : ¬ ∀ (s : StrT) (calls : List Call), Started s →
    (∀ c ∈ calls, c.op.NulFree) → ∀ pre, pre <+: calls →
      ∃ s', Runs.run step s pre = some s' ∧ Wf s' := by
  intro h
  have hstart : Started ⟨some (List.replicate 9 0), 0, 8, true⟩ :=
    .init (fun _ => true) 8 (by decide) (by decide +kernel)
  obtain ⟨s', hrun, hwf⟩ := h _ [⟨fun _ => true, .format 4 hello⟩] hstart
    (by simp [Op.NulFree, hello]) _ prefix_rfl
  have hrun' : Runs.run step ⟨some (List.replicate 9 0), 0, 8, true⟩
      [⟨fun _ => true, .format 4 hello⟩] = some ⟨some [104, 101, 108, 0, 0, 0, 0, 0, 0], 5, 8, true⟩ := by
    decide +kernel
  rw [hrun', some_inj] at hrun
  subst hrun
  obtain ⟨-, -, t, ht, hlen⟩ := hwf
  have ht' : text [104, 101, 108, 0, 0, 0, 0, 0, 0] 0 = some ([104, 101, 108] : List UInt8) := by
    decide +kernel
  rw [ht', some_inj] at ht
  subst ht
  cases hlen

end Awtk.StrT
