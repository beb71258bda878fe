import Mathlib
import Awtk.Tkc.TimerManager

/-!
# The time of the next timer

`timer_manager_next_time` goes through the list of the timers with a candidate.  It takes the expiry of a
timer where the duration is below the difference of the candidate and the start, a `uint32_t`.  A timer that
starts behind the candidate has a large difference, and its expiry is taken too (`nextTime_eq`).
-/

namespace Awtk

open List

namespace TimerManager

variable {l pre post : List TimerInfo} {t t₀ m now : Nat} {k : TimerInfo}

/-- `t = timer->start + timer->duration`, where the timer is taken. -/
def nextTimeTurn (t : Nat) (timer : TimerInfo) : Nat :=
  if timer.duration < timer.diff t then (timer.start + timer.duration) % 2 ^ 64 else t

def nextTime (m : TimerManager) (now : Nat) : Nat :=
  m.timers.foldl nextTimeTurn ((now + 0xffff) % 2 ^ 64)

/-! ## The earliest time -/

/-- When a timer is over. -/
def expiry (timer : TimerInfo) : Nat := timer.start + timer.duration

/-- The earliest of the times, and of the time that is waited for at most. -/
def earliest (l : List TimerInfo) (now : Nat) : Nat := (l.map expiry).foldl min (now + 0xffff)

/-- The sums do not wrap. -/
structure Fits (l : List TimerInfo) (now : Nat) : Prop where
  now_lt : now + 0xffff < 2 ^ 64
  expiry_lt : ∀ k ∈ l, expiry k < 2 ^ 64

/-- A timer is not taken where the candidate is `m` already. -/
def Rests (m : Nat) (l : List TimerInfo) : Prop := ∀ k ∈ l, k.diff m ≤ k.duration

/-- A timer is taken from every later one of the candidates. -/
def Taken (k : TimerInfo) (candidates : List Nat) : Prop :=
  ∀ c ∈ candidates, c ≤ expiry k ∨ k.duration < k.diff c

/-- Nothing is over before the candidate that the loop starts with, or a timer that is over first is taken;
and no timer behind is. -/
structure Undisturbed (l : List TimerInfo) (now : Nat) : Prop where
  fits : Fits l now
  rests : (earliest l now = now + 0xffff ∧ Rests (now + 0xffff) l) ∨
    ∃ pre k post, l = pre ++ k :: post ∧ expiry k = earliest l now ∧
      Taken k ((now + 0xffff) :: pre.map expiry) ∧ Rests (earliest l now) post

/-- The times are near each other: no timer is over, and the wait is not, `2 ^ 32` or more behind the start
of another timer. -/
structure Near (l : List TimerInfo) (now : Nat) : Prop where
  fits : Fits l now
  now_near : ∀ k ∈ l, now + 0xffff < k.start + 2 ^ 32
  expiry_near : ∀ k ∈ l, ∀ j ∈ l, expiry j < k.start + 2 ^ 32

theorem foldl_min_le : ∀ (l : List Nat) (t : Nat), l.foldl min t ≤ t
  | [], t => Nat.le_refl t
  | a :: l, t => Nat.le_trans (foldl_min_le l (min t a)) (Nat.min_le_left t a)

theorem foldl_min_le_mem : ∀ {l : List Nat} (t : Nat), ∀ a ∈ l, l.foldl min t ≤ a
  | b :: l, t, a, ha => by
    rw [foldl_cons]
    cases mem_cons.mp ha with
    | inl heq =>
      subst heq
      exact Nat.le_trans (foldl_min_le l _) (Nat.min_le_right t a)
    | inr hmem => exact foldl_min_le_mem _ a hmem

theorem foldl_min_mem : ∀ (l : List Nat) (t : Nat), l.foldl min t = t ∨ l.foldl min t ∈ l
  | [], _ => .inl rfl
  | a :: l, t => by
    rw [foldl_cons]
    rcases foldl_min_mem l (min t a) with heq | hmem
    · rcases Nat.le_total t a with hle | hle
      · exact .inl (heq.trans (Nat.min_eq_left hle))
      · rw [heq, Nat.min_eq_right hle]
        exact .inr mem_cons_self
    · exact .inr (mem_cons_of_mem a hmem)

theorem earliest_le_now (l : List TimerInfo) (now : Nat) : earliest l now ≤ now + 0xffff :=
  foldl_min_le _ _

theorem earliest_le (h : k ∈ l) : earliest l now ≤ expiry k :=
  foldl_min_le_mem _ _ (List.mem_map_of_mem h)

/-! ## The loop -/

theorem nextTimeTurn_of_taken (h : k.duration < k.diff t) (hlt : expiry k < 2 ^ 64) :
    nextTimeTurn t k = expiry k := by
  rw [nextTimeTurn, if_pos h]
  exact Nat.mod_eq_of_lt hlt

theorem nextTimeTurn_of_not_taken (h : k.diff t ≤ k.duration) : nextTimeTurn t k = t :=
  if_neg (Nat.not_lt.mpr h)

theorem foldl_turn_mem : ∀ {l : List TimerInfo} (t : Nat), (∀ k ∈ l, expiry k < 2 ^ 64) →
    l.foldl nextTimeTurn t ∈ t :: l.map expiry
  | [], t, _ => mem_singleton.mpr rfl
  | k :: l, t, h => by
    rw [foldl_cons, map_cons]
    have ih := foldl_turn_mem (l := l) (nextTimeTurn t k) fun j hj => h j (mem_cons_of_mem k hj)
    have hturn : nextTimeTurn t k = t ∨ nextTimeTurn t k = expiry k := by
      by_cases htaken : k.duration < k.diff t
      · exact .inr (nextTimeTurn_of_taken htaken (h k mem_cons_self))
      · exact .inl (nextTimeTurn_of_not_taken (Nat.not_lt.mp htaken))
    rcases mem_cons.mp ih with heq | hmem
    · rw [heq]
      rcases hturn with heq | heq
      · rw [heq]
        exact mem_cons_self
      · rw [heq]
        exact mem_cons_of_mem _ mem_cons_self
    · exact mem_cons_of_mem _ (mem_cons_of_mem _ hmem)

theorem foldl_turn_of_rests : ∀ {l : List TimerInfo}, Rests m l → l.foldl nextTimeTurn m = m
  | [], _ => rfl
  | k :: l, h => by
    rw [foldl_cons, nextTimeTurn_of_not_taken (h k mem_cons_self)]
    exact foldl_turn_of_rests fun j hj => h j (mem_cons_of_mem k hj)

theorem foldl_turn_ne (hlt : ∀ k ∈ l, expiry k < 2 ^ 64) (hne : ∀ k ∈ l, expiry k ≠ m)
    (ht : t ≠ m) : l.foldl nextTimeTurn t ≠ m := by
  intro heq
  have hmem := foldl_turn_mem t hlt
  rw [heq] at hmem
  rcases mem_cons.mp hmem with heq | hmem
  · exact ht heq.symm
  · obtain ⟨k, hk, heq⟩ := List.mem_map.mp hmem
    exact hne k hk heq

theorem rests_of_foldl_turn : ∀ {l : List TimerInfo}, (∀ k ∈ l, expiry k < 2 ^ 64) →
    (∀ k ∈ l, expiry k ≠ m) → l.foldl nextTimeTurn m = m → Rests m l
  | [], _, _, _ => fun _ hk => by cases hk
  | k :: l, hlt, hne, heq => by
    rw [foldl_cons] at heq
    have hlt' : ∀ j ∈ l, expiry j < 2 ^ 64 := fun j hj => hlt j (mem_cons_of_mem k hj)
    have hne' : ∀ j ∈ l, expiry j ≠ m := fun j hj => hne j (mem_cons_of_mem k hj)
    by_cases htaken : k.duration < k.diff m
    · rw [nextTimeTurn_of_taken htaken (hlt k mem_cons_self)] at heq
      exact absurd heq (foldl_turn_ne hlt' hne' (hne k mem_cons_self))
    · rw [nextTimeTurn_of_not_taken (Nat.not_lt.mp htaken)] at heq
      intro j hj
      rcases mem_cons.mp hj with rfl | hj
      · exact Nat.not_lt.mp htaken
      · exact rests_of_foldl_turn hlt' hne' heq j hj

theorem nextTimeTurn_foldl (hlt : ∀ j ∈ pre, expiry j < 2 ^ 64) (hk : expiry k < 2 ^ 64)
    (htaken : Taken k (t :: pre.map expiry)) (hle : ∀ c ∈ t :: pre.map expiry, expiry k ≤ c) :
    nextTimeTurn (pre.foldl nextTimeTurn t) k = expiry k := by
  have hmem := foldl_turn_mem t hlt
  by_cases hdiff : k.duration < k.diff (pre.foldl nextTimeTurn t)
  · exact nextTimeTurn_of_taken hdiff hk
  · rw [nextTimeTurn_of_not_taken (Nat.not_lt.mp hdiff)]
    rcases htaken _ hmem with hge | hdiff'
    · exact Nat.le_antisymm hge (hle _ hmem)
    · exact absurd hdiff' hdiff

/-- Where the times are near each other, a timer is taken from every later candidate. -/
theorem Near.taken (h : Near l now) (hk : k ∈ l) (hpre : ∀ j ∈ pre, j ∈ l) :
    Taken k ((now + 0xffff) :: pre.map expiry) := by
  intro c hc
  have hlt := h.fits.expiry_lt k hk
  have hnear : c < k.start + 2 ^ 32 := by
    rcases mem_cons.mp hc with rfl | hc
    · exact h.now_near k hk
    · obtain ⟨j, hj, rfl⟩ := List.mem_map.mp hc
      exact h.expiry_near k hk j (hpre j hj)
  by_cases hle : c ≤ expiry k
  · exact .inl hle
  · rw [expiry] at hle hlt
    have hdiff : k.diff c = c - k.start := by
      have hsum : c + (2 ^ 64 - k.start) = (c - k.start) + 2 ^ 32 * 2 ^ 32 := by omega
      rw [TimerInfo.diff, hsum, Nat.add_mul_mod_self_left]
      exact Nat.mod_eq_of_lt (by omega)
    exact .inr (by omega)

theorem exists_last (m : Nat) : ∀ l : List TimerInfo, (∀ k ∈ l, expiry k ≠ m) ∨
    ∃ pre k post, l = pre ++ k :: post ∧ expiry k = m ∧ ∀ j ∈ post, expiry j ≠ m
  | [] => .inl fun _ hk => by cases hk
  | k :: l => by
    rcases exists_last m l with hnone | ⟨pre, j, post, rfl, hj, hpost⟩
    · by_cases hk : expiry k = m
      · exact .inr ⟨[], k, l, rfl, hk, hnone⟩
      · exact .inl fun j hj => (mem_cons.mp hj).elim (fun heq => heq ▸ hk) (hnone j)
    · exact .inr ⟨k :: pre, j, post, rfl, hj, hpost⟩

theorem earliest_le_candidate (now : Nat) (hmem : ∀ j ∈ pre, j ∈ l) :
    ∀ c ∈ (now + 0xffff) :: pre.map expiry, earliest l now ≤ c := by
  intro c hc
  rcases mem_cons.mp hc with rfl | hc
  · exact earliest_le_now _ _
  · obtain ⟨j, hj, rfl⟩ := List.mem_map.mp hc
    exact earliest_le (hmem j hj)

/-- The earliest time is what the loop finds where it is undisturbed, and, among times that are near each
other, only there. -/
theorem nextTime_eq (m : TimerManager) (now : Nat) :
    (Undisturbed m.timers now → m.nextTime now = earliest m.timers now) ∧
    (Near m.timers now → m.nextTime now = earliest m.timers now → Undisturbed m.timers now) := by
  rw [nextTime]
  constructor
  · rintro ⟨hfits, ⟨hnow, hrests⟩ | ⟨pre, k, post, hl, hk, htaken, hrests⟩⟩
    · rw [Nat.mod_eq_of_lt hfits.now_lt, hnow]
      exact foldl_turn_of_rests hrests
    · have hpre : ∀ j ∈ pre, j ∈ m.timers := fun j hj => hl ▸ mem_append_left _ hj
      have hmem : k ∈ m.timers := hl ▸ mem_append_right _ mem_cons_self
      have hle := earliest_le_candidate now hpre
      rw [← hk] at hle hrests
      have hturn := nextTimeTurn_foldl (fun j hj => hfits.expiry_lt j (hpre j hj))
        (hfits.expiry_lt k hmem) htaken hle
      rw [Nat.mod_eq_of_lt hfits.now_lt, ← hk, hl, foldl_append, foldl_cons, hturn]
      exact foldl_turn_of_rests hrests
  · intro hnear heq
    have hfits := hnear.fits
    refine ⟨hfits, ?_⟩
    rw [Nat.mod_eq_of_lt hfits.now_lt] at heq
    rcases exists_last (earliest m.timers now) m.timers with hnone | ⟨pre, k, post, hl, hk, hpost⟩
    · have hnow : earliest m.timers now = now + 0xffff := by
        rcases foldl_min_mem (m.timers.map expiry) (now + 0xffff) with hnow | hmem
        · exact hnow
        · obtain ⟨k, hk, heq⟩ := List.mem_map.mp hmem
          exact absurd heq (hnone k hk)
      rw [hnow] at heq hnone
      exact .inl ⟨hnow, rests_of_foldl_turn hfits.expiry_lt hnone heq⟩
    · have hpre : ∀ j ∈ pre, j ∈ m.timers := fun j hj => hl ▸ mem_append_left _ hj
      have hmem : k ∈ m.timers := hl ▸ mem_append_right _ mem_cons_self
      have hafter : ∀ j ∈ post, j ∈ m.timers :=
        fun j hj => hl ▸ mem_append_right _ (mem_cons_of_mem k hj)
      have htaken := hnear.taken hmem hpre
      have hle := earliest_le_candidate now hpre
      rw [← hk] at hle hpost
      have hturn := nextTimeTurn_foldl (fun j hj => hfits.expiry_lt j (hpre j hj))
        (hfits.expiry_lt k hmem) htaken hle
      -- The candidate is the earliest time behind the last timer that is over then.
      have hrest : post.foldl nextTimeTurn (expiry k) = expiry k := by
        rw [← hk] at heq
        rwa [hl, foldl_append, foldl_cons, hturn] at heq
      refine .inr ⟨pre, k, post, hl, hk, htaken, ?_⟩
      rw [← hk]
      exact rests_of_foldl_turn (fun j hj => hfits.expiry_lt j (hafter j hj)) hpost hrest

/-- A manager whose clock reads 100: one timer is overdue since 10, the other one is over at 140. -/
def overdue (l : List TimerInfo) : TimerManager := { init 0 with timers := l }

/-- The overdue timer comes last. -/
theorem nextTime_eq_overdue :
    let timers : List TimerInfo := [⟨1, 2, 90, 90, 50, false, false⟩, ⟨0, 1, 0, 0, 10, false, false⟩]
    (overdue timers).nextTime 100 = earliest timers 100 ∧ earliest timers 100 = 10 := by
  refine ⟨(nextTime_eq (overdue _) 100).1 ⟨⟨by decide, by decide⟩, .inr
    ⟨[⟨1, 2, 90, 90, 50, false, false⟩], ⟨0, 1, 0, 0, 10, false, false⟩, [], rfl, rfl, ?_, ?_⟩⟩, rfl⟩
  · intro c hc
    right
    fin_cases hc <;> decide
  · intro k hk
    cases hk

/-- It comes first, and the other one is taken behind it. -/
theorem nextTime_disturbed :
    let timers : List TimerInfo := [⟨0, 1, 0, 0, 10, false, false⟩, ⟨1, 2, 90, 90, 50, false, false⟩]
    (∀ k ∈ timers, k.start ≤ 100 ∧ k.duration < 2 ^ 32) ∧ earliest timers 100 = 10 ∧
      (overdue timers).nextTime 100 = 140 := by
  decide

end TimerManager

end Awtk
