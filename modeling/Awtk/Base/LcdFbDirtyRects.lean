import Mathlib
import Awtk.Base.DirtyRectsRuns
import Awtk.Tkc.Types

/-!
# Dirty rectangles of frame buffers

Each frame buffer has its own dirty rectangles, and an update goes to all of them.  A frame
buffer is looked up by the low 32 bits of its address.  The ledger says what was reported since
each one was reset, and the records cover it as long as no two addresses agree in these bits
(`damage_of_meets`).
-/

namespace Awtk

open Function List Option

/-! ## The functions -/

/-- An address of a frame buffer. -/
abbrev Fb := BitVec 64

def tkPointerToInt (p : Fb) : BitVec 32 := p.setWidth 32

/-- `lcd_fb_info_t`. -/
structure LcdFbInfo where
  fb : Fb
  dirtyRects : DirtyRects
  deriving DecidableEq, Repr

/-- `lcd_fb_dirty_rects_t`. -/
structure LcdFbDirtyRects where
  lcdW : Int
  lcdH : Int
  fbDirtyList : List LcdFbInfo
  deriving DecidableEq, Repr

/-- The rectangle of the whole screen. -/
def screenRect (lcdW lcdH : Int) : Rect := ⟨0, 0, lcdW, lcdH⟩

namespace LcdFbDirtyRects

def init (lcdW lcdH : Int) : LcdFbDirtyRects := ⟨lcdW, lcdH, []⟩

def screen (s : LcdFbDirtyRects) : Rect := screenRect s.lcdW s.lcdH

def cmpByFb (info : LcdFbInfo) (fb : Fb) : BitVec 32 :=
  tkPointerToInt info.fb - tkPointerToInt fb

def getDirtyRectsByFb (s : LcdFbDirtyRects) (fb : Fb) : Option DirtyRects :=
  if fb = 0 then none
  else (s.fbDirtyList.find? fun info => cmpByFb info fb = 0).map LcdFbInfo.dirtyRects

def resetDirtyRectsByFb (s : LcdFbDirtyRects) (fb : Fb) : Ret × LcdFbDirtyRects :=
  if fb = 0 then (.badParams, s)
  else
    match s.fbDirtyList.findIdx? fun info => cmpByFb info fb = 0 with
    | some i =>
      (.ok, { s with
        fbDirtyList := s.fbDirtyList.modify i fun info => { info with dirtyRects := .reset } })
    | none => (.notFound, s)

/-- The dirty rectangles of each frame buffer are replaced. -/
def forEach (s : LcdFbDirtyRects) (f : DirtyRects → Option DirtyRects) : Option LcdFbDirtyRects :=
  (s.fbDirtyList.mapM fun info => (f info.dirtyRects).map fun d => { info with dirtyRects := d }).map
    fun l => { s with fbDirtyList := l }

def updateAllFbDirtyRect (maxNr : Nat) (s : LcdFbDirtyRects) (dirtyRect : Option Rect) :
    Option LcdFbDirtyRects :=
  s.forEach fun d =>
    match dirtyRect with
    | none => d.add maxNr s.screen
    | some r => d.add maxNr r

def updateAllFbDirtyRects (maxNr : Nat) (s : LcdFbDirtyRects) (dirtyRects : Option DirtyRects) :
    Option LcdFbDirtyRects :=
  s.forEach fun d =>
    match dirtyRects with
    | none => d.add maxNr s.screen
    | some rs =>
      if rs.disableMultiple then d.add maxNr rs.max
      else rs.rects.foldlM (DirtyRects.add maxNr) d

def addFbInfo (maxNr : Nat) (s : LcdFbDirtyRects) (fb : Fb) : Option (Ret × LcdFbDirtyRects) :=
  if fb = 0 then some (.badParams, s)
  else
    match s.fbDirtyList.find? fun info => cmpByFb info fb = 0 with
    | some _ => some (.ok, s)
    | none =>
      (DirtyRects.reset.add maxNr s.screen).map fun d =>
        (.ok, { s with fbDirtyList := s.fbDirtyList ++ [⟨fb, d⟩] })

def reinit (maxNr : Nat) (s : LcdFbDirtyRects) (lcdW lcdH : Int) : Option LcdFbDirtyRects :=
  { s with lcdW := lcdW, lcdH := lcdH }.forEach fun _ =>
    DirtyRects.reset.add maxNr (screenRect lcdW lcdH)

/-! ## Runs -/

/-- The calls that change the records. -/
inductive Action where
  | addFbInfo (fb : Fb)
  | updateRect (dirtyRect : Option Rect)
  | updateRects (dirtyRects : Option DirtyRects)
  | resetByFb (fb : Fb)
  | reinit (lcdW lcdH : Int)
  deriving DecidableEq, Repr

def step (maxNr : Nat) (s : LcdFbDirtyRects) : Action → Option LcdFbDirtyRects
  | .addFbInfo fb => (s.addFbInfo maxNr fb).map Prod.snd
  | .updateRect r => s.updateAllFbDirtyRect maxNr r
  | .updateRects rs => s.updateAllFbDirtyRects maxNr rs
  | .resetByFb fb => some (s.resetDirtyRectsByFb fb).2
  | .reinit lcdW lcdH => s.reinit maxNr lcdW lcdH

end LcdFbDirtyRects

/-! ## The ledger -/

/-- What was reported since each frame buffer was reset.  One that is not registered has no
entry. -/
structure DamageLedger where
  screen : Rect
  reported : Fb → Option (List Rect)

namespace DamageLedger

open LcdFbDirtyRects (Action)

def report (L : DamageLedger) (rs : List Rect) : DamageLedger :=
  { L with reported := fun fb => (L.reported fb).map (· ++ rs) }

def step (L : DamageLedger) : Action → DamageLedger
  | .addFbInfo fb =>
    if fb = 0 then L
    else { L with
      reported := Function.update L.reported fb (some ((L.reported fb).getD [L.screen])) }
  | .updateRect r => L.report [r.getD L.screen]
  | .updateRects rs => L.report (rs.elim [L.screen] DirtyRects.rects)
  | .resetByFb fb =>
    { L with reported := Function.update L.reported fb ((L.reported fb).map fun _ => []) }
  | .reinit lcdW lcdH =>
    ⟨screenRect lcdW lcdH, fun fb => (L.reported fb).map fun _ => [screenRect lcdW lcdH]⟩

/-- The ledger after some calls. -/
def after (lcdW lcdH : Int) (as : List Action) : DamageLedger :=
  as.foldl step ⟨screenRect lcdW lcdH, fun _ => none⟩

theorem after_concat (lcdW lcdH : Int) (as : List Action) (a : Action) :
    after lcdW lcdH (as ++ [a]) = (after lcdW lcdH as).step a := by
  simp [after]

end DamageLedger

namespace LcdFbDirtyRects

/-- The pixels of a list of rectangles are covered. -/
def CoversAll (d : DirtyRects) (rs : List Rect) : Prop := ∀ r ∈ rs, ∀ p ∈ r.box, Covered d.rects p

/-- Each frame buffer has what was reported for it, and is reset alone. -/
structure Tracks (s : LcdFbDirtyRects) (L : DamageLedger) : Prop where
  covered : ∀ fb rs, L.reported fb = some rs →
    ∃ d, s.getDirtyRectsByFb fb = some d ∧ CoversAll d rs
  alone : ∀ fb g, L.reported fb ≠ none → L.reported g ≠ none → g ≠ fb →
    (s.resetDirtyRectsByFb fb).2.getDirtyRectsByFb g = s.getDirtyRectsByFb g

/-- The pixels of some rectangles are in one box with sides of type `int32_t`. -/
def FitTogether (rs : List Rect) : Prop := ∃ m, Rect.Fits m ∧ ∀ r ∈ rs, Rect.PixelsIn m r

theorem fitTogether_iff {rs : List Rect} : FitTogether rs ↔
    ∀ h ∈ Box.hull ((rs.filter fun r => r.Solid).map Rect.box), Rect.Fits h := by
  have hin (m : Box Int) : (∀ r ∈ rs, Rect.PixelsIn m r) ↔
      ∀ h ∈ Box.hull ((rs.filter fun r => r.Solid).map Rect.box), h.Within m := by
    rw [Box.hull_within_iff, List.forall_mem_map]
    simp [Rect.PixelsIn]
  constructor
  · rintro ⟨m, hm, hrs⟩ h hh
    exact hm.mono ((hin m).mp hrs h hh)
  · intro hfits
    cases hhull : Box.hull ((rs.filter fun r => r.Solid).map Rect.box) with
    | none =>
      refine ⟨Rect.zero.box, by decide, (hin _).mpr fun h hh => ?_⟩
      rw [hhull] at hh
      cases hh
    | some m =>
      refine ⟨m, hfits m hhull, (hin m).mpr fun h hh => ?_⟩
      rw [hhull, mem_some_iff] at hh
      exact hh ▸ Box.Within.refl m

instance (rs : List Rect) : Decidable (FitTogether rs) := decidable_of_iff _ fitTogether_iff.symm

/-- No other frame buffer has the same low bits. -/
def Distinct (s : LcdFbDirtyRects) (fb : Fb) : Prop :=
  ∀ info ∈ s.fbDirtyList, tkPointerToInt info.fb = tkPointerToInt fb → info.fb = fb

instance (s : LcdFbDirtyRects) (fb : Fb) : Decidable (s.Distinct fb) :=
  inferInstanceAs (Decidable (∀ _ ∈ _, _ → _))

/-- The rectangles that an update adds. -/
def passed (s : LcdFbDirtyRects) : Option DirtyRects → List Rect
  | none => [s.screen]
  | some rs => if rs.disableMultiple then [rs.max] else rs.rects

/-- The address is not taken for another one, the sums of coordinates do not wrap, and a box that
stands for its rectangles is around them. -/
def StepOk (s : LcdFbDirtyRects) : Action → Prop
  | .addFbInfo fb => s.Distinct fb
  | .updateRect r =>
    ∀ info ∈ s.fbDirtyList, FitTogether (info.dirtyRects.rects ++ [r.getD s.screen])
  | .updateRects rs =>
    (∀ info ∈ s.fbDirtyList, FitTogether (info.dirtyRects.rects ++ s.passed rs)) ∧
      ∀ d ∈ rs, d.disableMultiple = true → ∀ r ∈ d.rects, Rect.PixelsIn d.max.box r
  | .resetByFb fb => s.Distinct fb
  | .reinit _ _ => True

instance (s : LcdFbDirtyRects) : ∀ a, Decidable (s.StepOk a)
  | .addFbInfo fb => inferInstanceAs (Decidable (s.Distinct fb))
  | .updateRect _ => inferInstanceAs (Decidable (∀ _ ∈ _, FitTogether _))
  | .updateRects _ =>
    inferInstanceAs (Decidable ((∀ _ ∈ _, FitTogether _) ∧ ∀ _ ∈ _, _ → ∀ _ ∈ _, Rect.PixelsIn _ _))
  | .resetByFb fb => inferInstanceAs (Decidable (s.Distinct fb))
  | .reinit _ _ => isTrue trivial

/-! ## Looking up -/

section Find

variable {maxNr : Nat} {s : LcdFbDirtyRects} {L : DamageLedger} {l : List LcdFbInfo}
  {info : LcdFbInfo} {fb : Fb} {d : DirtyRects} {rs : List Rect} {r : Rect}

theorem cmpByFb_eq_zero : cmpByFb info fb = 0 ↔ tkPointerToInt info.fb = tkPointerToInt fb := by
  rw [cmpByFb]
  bv_omega

/-- No two frame buffers have the same low bits. -/
def Apart (l : List LcdFbInfo) : Prop := (l.map fun info => tkPointerToInt info.fb).Nodup

theorem find?_eq (hl : Apart l) (hmem : info ∈ l) :
    (l.find? fun i => cmpByFb i info.fb = 0) = some info := by
  induction l with
  | nil => cases hmem
  | cons a l ih =>
    rw [Apart, map_cons, nodup_cons] at hl
    rcases mem_cons.mp hmem with rfl | hmem
    · rw [find?_cons_of_pos]
      exact decide_eq_true (cmpByFb_eq_zero.mpr rfl)
    · rw [find?_cons_of_neg]
      · exact ih hl.2 hmem
      · rw [decide_eq_true_eq, cmpByFb_eq_zero]
        intro h
        exact hl.1 (h ▸ List.mem_map.mpr ⟨info, hmem, rfl⟩)

theorem getDirtyRectsByFb_eq (hl : Apart s.fbDirtyList) (hmem : info ∈ s.fbDirtyList)
    (hne : info.fb ≠ 0) : s.getDirtyRectsByFb info.fb = some info.dirtyRects := by
  rw [getDirtyRectsByFb, if_neg hne, find?_eq hl hmem]
  rfl

/-- The record of one frame buffer is reset. -/
def resetInfo (fb : Fb) (info : LcdFbInfo) : LcdFbInfo :=
  if info.fb = fb then { info with dirtyRects := .reset } else info

theorem resetInfo_fb (fb : Fb) (info : LcdFbInfo) : (resetInfo fb info).fb = info.fb := by
  rw [resetInfo]
  split <;> rfl

theorem map_resetInfo_of_ne (h : ∀ info ∈ l, info.fb ≠ fb) : l.map (resetInfo fb) = l := by
  conv_rhs => rw [← List.map_id l]
  exact map_congr_left fun info hinfo => if_neg (h info hinfo)

/-- Where the address is not taken for another one, its record is the one that is reset. -/
theorem reset_eq (hl : Apart s.fbDirtyList) (hd : s.Distinct fb) (hne : fb ≠ 0) :
    (s.resetDirtyRectsByFb fb).2 =
      { s with fbDirtyList := s.fbDirtyList.map (resetInfo fb) } := by
  rw [resetDirtyRectsByFb, if_neg hne]
  cases hfind : s.fbDirtyList.findIdx? fun info => cmpByFb info fb = 0 with
  | none =>
    have hnone := findIdx?_eq_none_iff.mp hfind
    rw [map_resetInfo_of_ne]
    intro info hinfo h
    have hcmp := hnone info hinfo
    rw [decide_eq_false_iff_not, cmpByFb_eq_zero] at hcmp
    exact hcmp (h ▸ rfl)
  | some i =>
    obtain ⟨pre, a, post, hsplit, rfl, ha, hpre⟩ := findIdx?_split hfind
    have hkey : tkPointerToInt a.fb = tkPointerToInt fb :=
      cmpByFb_eq_zero.mp (of_decide_eq_true ha)
    have hafb : a.fb = fb := hd a (by simp [hsplit]) hkey
    rw [Apart, hsplit, map_append, map_cons, nodup_append, nodup_cons] at hl
    have hpre' : ∀ info ∈ pre, info.fb ≠ fb := by
      intro info hinfo h
      have hcmp := hpre info hinfo
      rw [decide_eq_false_iff_not, cmpByFb_eq_zero] at hcmp
      exact hcmp (h ▸ rfl)
    have hpost : ∀ info ∈ post, info.fb ≠ fb := by
      intro info hinfo h
      refine hl.2.1.1 (List.mem_map.mpr ⟨info, hinfo, ?_⟩)
      rw [h, hkey]
    have ha' : resetInfo fb a = { a with dirtyRects := .reset } := if_pos hafb
    simp only [hsplit, modify_append_cons, map_append, map_cons,
      map_resetInfo_of_ne hpre', map_resetInfo_of_ne hpost, ha']

theorem reset_zero : (s.resetDirtyRectsByFb 0).2 = s := rfl

theorem forEach_eq (f : DirtyRects → DirtyRects) :
    (s.forEach fun d => some (f d)) = some { s with
      fbDirtyList := s.fbDirtyList.map fun info =>
        { info with dirtyRects := f info.dirtyRects } } := by
  rw [forEach]
  simp only [map_some]
  have h : s.fbDirtyList.mapM (m := Option)
      (fun info => pure { info with dirtyRects := f info.dirtyRects }) = _ := mapM_pure
  exact congrArg (Option.map _) h

end Find

/-! ## One step -/

/-- The records agree with the ledger. -/
structure Represents (s : LcdFbDirtyRects) (L : DamageLedger) : Prop where
  screen : s.screen = L.screen
  apart : Apart s.fbDirtyList
  nonnull : ∀ info ∈ s.fbDirtyList, info.fb ≠ 0
  registered : ∀ fb, L.reported fb ≠ none ↔ fb ∈ s.fbDirtyList.map LcdFbInfo.fb
  covered : ∀ info ∈ s.fbDirtyList, ∀ rs, L.reported info.fb = some rs →
    CoversAll info.dirtyRects rs

section Step

variable {maxNr : Nat} {s : LcdFbDirtyRects} {L L' : DamageLedger} {info : LcdFbInfo} {fb : Fb}
  {d : DirtyRects} {rs : List Rect} {r : Rect}

theorem foldl_added_covers (maxNr : Nat) {m : Box Int} (hm : Rect.Fits m)
    (hin : ∀ t ∈ d.rects, Rect.PixelsIn m t)
    (hrs : ∀ r ∈ rs, Rect.PixelsIn m r) :
    ∀ p, Covered rs p ∨ Covered d.rects p → Covered (rs.foldl (DirtyRects.added maxNr) d).rects p := by
  induction rs generalizing d with
  | nil =>
    intro p hp
    exact hp.resolve_left fun h => by simp [Covered] at h
  | cons r rs ih =>
    rw [forall_mem_cons] at hrs
    obtain ⟨hin', hcover⟩ := DirtyRects.added_covers maxNr hm hin hrs.1
    intro p hp
    refine ih hin' hrs.2 p ?_
    rw [covered_cons] at hp
    rcases hp with (hp | hp) | hp
    · exact .inr (hcover p (.inl hp))
    · exact .inl hp
    · exact .inr (hcover p (.inr hp))

theorem coversAll_foldl (hfit : FitTogether (d.rects ++ rs)) {rs' : List Rect} (h : CoversAll d rs')
    {rs'' : List Rect} (hrs : ∀ r ∈ rs'', ∀ p ∈ r.box, Covered rs p) :
    CoversAll (rs.foldl (DirtyRects.added maxNr) d) (rs' ++ rs'') := by
  obtain ⟨m, hm, hin⟩ := hfit
  have hcover := foldl_added_covers maxNr hm
    (fun t ht => hin t (mem_append_left _ ht)) fun t ht => hin t (mem_append_right _ ht)
  intro r hr p hp
  rcases mem_append.mp hr with hr | hr
  · exact hcover p (.inr (h r hr p hp))
  · exact hcover p (.inl (hrs r hr p hp))

/-- Records that are replaced in their places. -/
theorem Represents.map (h : Represents s L) (g : LcdFbInfo → LcdFbInfo)
    (hg : ∀ info, (g info).fb = info.fb) (hreg : ∀ fb, L'.reported fb ≠ none ↔ L.reported fb ≠ none)
    (hcov : ∀ info ∈ s.fbDirtyList, ∀ rs, L'.reported info.fb = some rs →
      CoversAll (g info).dirtyRects rs) {w h' : Int} (hscreen : screenRect w h' = L'.screen) :
    Represents ⟨w, h', s.fbDirtyList.map g⟩ L' := by
  have hfb : (s.fbDirtyList.map g).map LcdFbInfo.fb = s.fbDirtyList.map LcdFbInfo.fb := by
    rw [List.map_map]
    exact map_congr_left fun info _ => hg info
  refine ⟨hscreen, ?_, ?_, ?_, ?_⟩
  · have hkey : (s.fbDirtyList.map g).map (fun info => tkPointerToInt info.fb) =
        s.fbDirtyList.map fun info => tkPointerToInt info.fb := by
      rw [List.map_map]
      exact map_congr_left fun info _ => congrArg tkPointerToInt (hg info)
    rw [Apart, hkey]
    exact h.apart
  · intro info hinfo
    obtain ⟨i, hi, rfl⟩ := List.mem_map.mp hinfo
    rw [hg]
    exact h.nonnull i hi
  · intro fb
    rw [hfb, hreg]
    exact h.registered fb
  · intro info hinfo rs hrs
    obtain ⟨i, hi, rfl⟩ := List.mem_map.mp hinfo
    rw [hg] at hrs
    exact hcov i hi rs hrs

/-- An update of all records. -/
theorem Represents.update (hmax : 2 ≤ maxNr) (h : Represents s L) {f : DirtyRects → Option DirtyRects}
    (hf : ∀ d, f d = rs.foldlM (DirtyRects.add maxNr) d)
    (hfit : ∀ info ∈ s.fbDirtyList, FitTogether (info.dirtyRects.rects ++ rs)) {rs'' : List Rect}
    (hrs : ∀ r ∈ rs'', ∀ p ∈ r.box, Covered rs p) :
    ∃ s', s.forEach f = some s' ∧ Represents s' (L.report rs'') := by
  have hsome : f = fun d => some (rs.foldl (DirtyRects.added maxNr) d) := by
    funext d
    have hadd : DirtyRects.add maxNr = fun d r => pure (DirtyRects.added maxNr d r) := by
      funext d r
      exact DirtyRects.add_eq_added hmax d r
    rw [hf, hadd, foldlM_pure]
    rfl
  rw [hsome, forEach_eq]
  let g (info : LcdFbInfo) : LcdFbInfo :=
    { info with dirtyRects := rs.foldl (DirtyRects.added maxNr) info.dirtyRects }
  refine ⟨_, rfl, h.map g (fun _ => rfl) (fun fb => ?_) (fun info hinfo rs' hrs' => ?_) h.screen⟩
  · rw [DamageLedger.report, Ne, map_eq_none_iff]
  · obtain ⟨old, hold, rfl⟩ := map_eq_some_iff.mp hrs'
    exact coversAll_foldl (hfit info hinfo) (h.covered info hinfo old hold) hrs

theorem coversAll_screen (hmax : 2 ≤ maxNr) (w h : Int) :
    ∃ d, DirtyRects.reset.add maxNr (screenRect w h) = some d ∧ CoversAll d [screenRect w h] := by
  refine ⟨_, DirtyRects.add_eq_added hmax _ _, fun r hr p hp => ?_⟩
  rw [mem_singleton.mp hr] at hp
  have hsolid := Rect.solid_of_mem hp
  rw [DirtyRects.added, if_neg]
  · exact ⟨screenRect w h, by simp [DirtyRects.store, DirtyRects.collapse, DirtyRects.reset], hp⟩
  · simp only [Rect.Solid] at hsolid
    omega

theorem represents_init (w h : Int) : Represents (init w h) (DamageLedger.after w h []) :=
  ⟨rfl, nodup_nil, by simp [init], by simp [init, DamageLedger.after], by simp [init]⟩

theorem represents_addFbInfo (hmax : 2 ≤ maxNr) (h : Represents s L) (hd : s.Distinct fb) :
    ∃ s', step maxNr s (.addFbInfo fb) = some s' ∧ Represents s' (L.step (.addFbInfo fb)) := by
  rw [step, addFbInfo, DamageLedger.step]
  by_cases hne : fb = 0
  · rw [if_pos hne, if_pos hne]
    exact ⟨s, rfl, h⟩
  rw [if_neg hne, if_neg hne]
  cases hfind : s.fbDirtyList.find? fun info => cmpByFb info fb = 0 with
  | some info =>
    have hmem := mem_of_find?_eq_some hfind
    have hcmp := find?_some hfind
    have hfb : info.fb = fb := hd info hmem (cmpByFb_eq_zero.mp (of_decide_eq_true hcmp))
    obtain ⟨rs, hrs⟩ := ne_none_iff_exists'.mp
      ((h.registered fb).mpr (List.mem_map.mpr ⟨info, hmem, hfb⟩))
    have hsame : Function.update L.reported fb (some ((L.reported fb).getD [L.screen])) =
        L.reported := by
      rw [hrs, getD_some, ← hrs, update_eq_self]
    refine ⟨s, rfl, ?_⟩
    rw [hsame]
    exact h
  | none =>
    have hnone := find?_eq_none.mp hfind
    have hnew : ∀ info ∈ s.fbDirtyList, tkPointerToInt info.fb ≠ tkPointerToInt fb := by
      intro info hinfo hkey
      exact hnone info hinfo (decide_eq_true (cmpByFb_eq_zero.mpr hkey))
    have hnew' : fb ∉ s.fbDirtyList.map LcdFbInfo.fb := by
      intro hmem
      obtain ⟨info, hinfo, rfl⟩ := List.mem_map.mp hmem
      exact hnew info hinfo rfl
    have hnotin : L.reported fb = none := by
      by_contra hreg
      exact hnew' ((h.registered fb).mp hreg)
    obtain ⟨d, hadd, hcover⟩ := coversAll_screen hmax s.lcdW s.lcdH
    refine ⟨{ s with fbDirtyList := s.fbDirtyList ++ [⟨fb, d⟩] }, ?_, h.screen, ?_, ?_, ?_, ?_⟩
    · rw [screen, hadd]
      rfl
    · rw [Apart, map_append, nodup_append]
      refine ⟨h.apart, nodup_singleton _, fun k hk k' hk' => ?_⟩
      obtain ⟨info, hinfo, rfl⟩ := List.mem_map.mp hk
      rw [map_singleton, mem_singleton] at hk'
      exact hk' ▸ hnew info hinfo
    · intro info hinfo
      rcases mem_append.mp hinfo with hinfo | hinfo
      · exact h.nonnull info hinfo
      · exact mem_singleton.mp hinfo ▸ hne
    · intro g
      simp only [map_append, map_singleton, mem_append, mem_singleton]
      by_cases hg : g = fb
      · simp [hg]
      · rw [update_of_ne hg, h.registered g, or_iff_left hg]
    · intro info hinfo rs hrs
      rcases mem_append.mp hinfo with hinfo | hinfo
      · have hg : info.fb ≠ fb := fun hg => hnew info hinfo (hg ▸ rfl)
        simp only [update_of_ne hg] at hrs
        exact h.covered info hinfo rs hrs
      · obtain rfl := mem_singleton.mp hinfo
        simp only [update_self, hnotin, getD_none, some_inj] at hrs
        rw [← hrs, ← h.screen]
        exact hcover

theorem represents_resetByFb (h : Represents s L) (hd : s.Distinct fb) :
    Represents (s.resetDirtyRectsByFb fb).2 (L.step (.resetByFb fb)) := by
  rw [DamageLedger.step]
  by_cases hne : fb = 0
  · have hnotin : L.reported fb = none := by
      by_contra hreg
      obtain ⟨info, hinfo, hfb⟩ := List.mem_map.mp ((h.registered fb).mp hreg)
      exact h.nonnull info hinfo (hfb.trans hne)
    rw [hnotin, map_none, ← hnotin, update_eq_self, hne, reset_zero]
    exact h
  rw [reset_eq h.apart hd hne]
  refine h.map (resetInfo fb) (resetInfo_fb fb) (fun g => ?_) (fun info hinfo rs hrs => ?_) h.screen
  · by_cases hg : g = fb
    · simp [hg]
    · simp only [update_of_ne hg]
  · rw [resetInfo]
    by_cases hg : info.fb = fb
    · simp only [hg, update_self, map_eq_some_iff] at hrs
      obtain ⟨_, -, rfl⟩ := hrs
      intro r hr
      cases hr
    · simp only [update_of_ne hg] at hrs
      rw [if_neg hg]
      exact h.covered info hinfo rs hrs

theorem represents_reinit (hmax : 2 ≤ maxNr) (hs : Represents s L) (w h : Int) :
    ∃ s', step maxNr s (.reinit w h) = some s' ∧ Represents s' (L.step (.reinit w h)) := by
  obtain ⟨d, hadd, hcover⟩ := coversAll_screen hmax w h
  rw [step, reinit, hadd, forEach_eq]
  let g (info : LcdFbInfo) : LcdFbInfo := { info with dirtyRects := d }
  refine ⟨_, rfl, hs.map g (fun _ => rfl) (fun fb => ?_) (fun info hinfo rs hrs => ?_) rfl⟩
  · rw [DamageLedger.step, Ne, map_eq_none_iff]
  · obtain ⟨_, -, rfl⟩ := map_eq_some_iff.mp hrs
    exact hcover

theorem represents_updateRect (hmax : 2 ≤ maxNr) (h : Represents s L) {r : Option Rect}
    (hok : s.StepOk (.updateRect r)) :
    ∃ s', step maxNr s (.updateRect r) = some s' ∧ Represents s' (L.step (.updateRect r)) := by
  rw [step, updateAllFbDirtyRect, DamageLedger.step]
  refine h.update hmax (fun d => ?_) hok fun t ht p hp => ?_
  · cases r <;> simp
  · rw [← h.screen] at ht
    exact ⟨t, ht, hp⟩

theorem represents_updateRects (hmax : 2 ≤ maxNr) (h : Represents s L) {dr : Option DirtyRects}
    (hok : s.StepOk (.updateRects dr)) :
    ∃ s', step maxNr s (.updateRects dr) = some s' ∧ Represents s' (L.step (.updateRects dr)) := by
  obtain ⟨hfit, hbox⟩ := hok
  rw [step, updateAllFbDirtyRects, DamageLedger.step]
  refine h.update hmax (fun d => ?_) hfit fun t ht p hp => ?_
  · cases dr with
    | none => simp [passed]
    | some rs =>
      simp only [passed]
      split <;> simp
  · cases dr with
    | none =>
      rw [← h.screen] at ht
      exact ⟨t, ht, hp⟩
    | some rs =>
      rw [passed]
      split
      · next hone =>
        have hin : Rect.PixelsIn rs.max.box t := hbox rs rfl hone t ht
        exact ⟨rs.max, mem_cons_self, (hin (Rect.solid_of_mem hp)).mem hp⟩
      · exact ⟨t, ht, hp⟩

theorem step_represents (hmax : 2 ≤ maxNr) {a : Action} (h : Represents s L) (hok : s.StepOk a) :
    ∃ s', step maxNr s a = some s' ∧ Represents s' (L.step a) := by
  cases a with
  | addFbInfo fb => exact represents_addFbInfo hmax h hok
  | updateRect r => exact represents_updateRect hmax h hok
  | updateRects dr => exact represents_updateRects hmax h hok
  | resetByFb fb => exact ⟨_, rfl, represents_resetByFb h hok⟩
  | reinit w h' => exact represents_reinit hmax h w h'

theorem Represents.distinct (h : Represents s L) (hreg : L.reported fb ≠ none) : s.Distinct fb := by
  obtain ⟨info, hinfo, rfl⟩ := List.mem_map.mp ((h.registered fb).mp hreg)
  intro other hother hkey
  rw [inj_on_of_nodup_map h.apart hother hinfo hkey]

theorem Represents.tracks (h : Represents s L) : s.Tracks L := by
  constructor
  · intro fb rs hrs
    have hreg : L.reported fb ≠ none := by
      rw [hrs]
      exact some_ne_none rs
    obtain ⟨info, hinfo, rfl⟩ := List.mem_map.mp ((h.registered fb).mp hreg)
    exact ⟨info.dirtyRects, getDirtyRectsByFb_eq h.apart hinfo (h.nonnull info hinfo),
      h.covered info hinfo rs hrs⟩
  · intro fb g hfb hg hne
    have hd := h.distinct hfb
    obtain ⟨info, hinfo, rfl⟩ := List.mem_map.mp ((h.registered g).mp hg)
    have hnonnull : fb ≠ 0 := by
      rintro rfl
      obtain ⟨other, hother, hzero⟩ := List.mem_map.mp ((h.registered 0).mp hfb)
      exact h.nonnull other hother hzero
    have hsame : resetInfo fb info = info := if_neg hne
    have hmem : info ∈ (s.resetDirtyRectsByFb fb).2.fbDirtyList := by
      rw [reset_eq h.apart hd hnonnull]
      exact List.mem_map.mpr ⟨info, hinfo, hsame⟩
    rw [getDirtyRectsByFb_eq h.apart hinfo (h.nonnull info hinfo),
      getDirtyRectsByFb_eq (represents_resetByFb h hd).apart hmem (h.nonnull info hinfo)]

end Step

/-! ## Runs -/

/-- In a run whose calls are all good, the records cover what the ledger has, after each call. -/
theorem damage_of_meets (maxNr : Nat) (hmax : 2 ≤ maxNr) (w h : Int) (as : List Action)
    (hm : Runs.Meets (step maxNr) StepOk (init w h) as) :
    ∀ pre, pre <+: as → ∃ s, Runs.run (step maxNr) (init w h) pre = some s ∧
      s.Tracks (DamageLedger.after w h pre) := by
  intro pre hpre
  have hm' : Runs.Meets (Runs.record (step maxNr)) (fun s a => StepOk s.1 a) (init w h, []) as :=
    (Runs.meets_record _ _ as).mpr hm
  have hstep : ∀ (s : LcdFbDirtyRects × List Action) (a : Action),
      Represents s.1 (DamageLedger.after w h s.2) → StepOk s.1 a →
      ∃ s', Runs.record (step maxNr) s a = some s' ∧
        Represents s'.1 (DamageLedger.after w h s'.2) := by
    intro s a hs hok
    obtain ⟨s', hs', hrep⟩ := step_represents hmax hs hok
    refine ⟨(s', s.2 ++ [a]), by rw [Runs.record, hs']; rfl, ?_⟩
    rw [DamageLedger.after_concat]
    exact hrep
  obtain ⟨⟨s, l⟩, hrun, hrep⟩ :=
    Runs.meets_reachable hstep (represents_init w h) hm' pre hpre
  rw [Runs.run_record, map_eq_some_iff] at hrun
  obtain ⟨s', hs', heq⟩ := hrun
  obtain ⟨rfl, rfl⟩ := Prod.mk.inj heq
  exact ⟨s', hs', hrep.tracks⟩

/-- Two frame buffers that are reset in turns, with a list and its box. -/
def sampleCalls : List Action :=
  [.addFbInfo 0x1000, .addFbInfo 0x2000, .resetByFb 0x1000, .updateRect (some ⟨1, 1, 2, 2⟩),
    .resetByFb 0x2000, .updateRects (some ⟨⟨0, 0, 7, 1⟩, [⟨0, 0, 1, 1⟩, ⟨6, 0, 1, 1⟩], true⟩),
    .updateRects none, .reinit 16 16]

theorem damage_of_meets_sample :
    ∃ s, Runs.run (step 10) (init 8 8) sampleCalls = some s ∧
      s.Tracks (DamageLedger.after 8 8 sampleCalls) :=
  damage_of_meets 10 (by decide) 8 8 sampleCalls (by decide +kernel) _ (List.prefix_refl _)

/-- Two addresses with the same low bits have one record. -/
theorem reset_not_alone :
    ¬ ∀ as : List Action, ∃ s, Runs.run (step 10) (init 8 8) as = some s ∧
      s.Tracks (DamageLedger.after 8 8 as) := by
  intro h
  obtain ⟨s, hrun, htracks⟩ := h [.addFbInfo 0x1000, .addFbInfo 0x100001000, .resetByFb 0x1000]
  have heq : Runs.run (step 10) (init 8 8)
      [.addFbInfo 0x1000, .addFbInfo 0x100001000, .resetByFb 0x1000] =
      some ⟨8, 8, [⟨0x1000, .reset⟩]⟩ := by decide +kernel
  rw [heq, some_inj] at hrun
  subst hrun
  obtain ⟨d, hd, hcover⟩ := htracks.covered 0x100001000 [screenRect 8 8] (by decide +kernel)
  have hreset : d = .reset := by
    rw [show getDirtyRectsByFb _ _ = some DirtyRects.reset by decide +kernel, some_inj] at hd
    exact hd.symm
  have hpixel : Covered d.rects (0, 0) :=
    hcover _ mem_cons_self (0, 0) ⟨⟨by decide, by decide⟩, by decide, by decide⟩
  rw [hreset] at hpixel
  simp [Covered, DirtyRects.reset] at hpixel

end LcdFbDirtyRects

end Awtk
