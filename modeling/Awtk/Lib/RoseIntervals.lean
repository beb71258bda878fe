import Mathlib
import Awtk.Lib.Rose

/-!
# Nested intervals of a rose tree

Each node has an interval of integers.  `Spans` says that the intervals are counted in
postorder: a node reaches from the first to the last number below it, and takes one of
its own when it has fewer than two kids.  One interval is then inside another exactly
when its node is below the other (`Spans.inside_iff`).
-/

/-- The numbers from `lo` to `hi`. -/
structure Rose.Interval where
  lo : Int
  hi : Int
  deriving DecidableEq

/-- The interval is part of the other one. -/
def Rose.Interval.Inside (x y : Rose.Interval) : Prop := y.lo ≤ x.lo ∧ x.hi ≤ y.hi

namespace Rose

open List

variable {α : Type*} {seg seg' : α → Interval} {next : α → List α} {rank : α → Nat}
  {nodes : List α} {a b : α} {i j : Int}

/-- The first number behind a node, where `k` is the first one behind its kids. -/
def behind (ts : List (Rose α)) (k : Int) : Int := if ts.length < 2 then k + 1 else k

mutual

/-- The tree has the numbers from `i` on, and `j` is the first one behind them. -/
def Spans (seg : α → Interval) : Rose α → Int → Int → Prop
  | .node a ts, i, j => ∃ k, SpansAll seg ts i k ∧ j = behind ts k ∧ seg a = ⟨i, j - 1⟩

@[inherit_doc Spans]
def SpansAll (seg : α → Interval) : List (Rose α) → Int → Int → Prop
  | [], i, j => i = j
  | r :: rs, i, j => ∃ k, r.Spans seg i k ∧ SpansAll seg rs k j

end

mutual

theorem Spans.lt : ∀ {r : Rose α} {i j : Int}, r.Spans seg i j → i < j
  | .node a ts, i, j, ⟨k, hk, hj, _⟩ => by
    have hle := SpansAll.le hk
    unfold behind at hj
    split at hj <;> omega

theorem SpansAll.le : ∀ {rs : List (Rose α)} {i j : Int}, SpansAll seg rs i j →
    i + rs.length ≤ j
  | [], i, j, h => by
    rw [SpansAll] at h
    simp [h]
  | r :: rs, i, j, ⟨k, hr, hrs⟩ => by
    have hlt := Spans.lt hr
    have hle := SpansAll.le hrs
    rw [length_cons, Nat.cast_add_one]
    omega

end

theorem SpansAll.lt_behind {ts : List (Rose α)} (h : SpansAll seg ts i j) : j ≤ behind ts j ∧
    i < behind ts j := by
  have hle := h.le
  unfold behind
  split <;> omega

mutual

/-- Numbers below a tree are numbers of the tree. -/
theorem Spans.bounds : ∀ {r : Rose α} {i j : Int}, r.Spans seg i j → a ∈ r.preorder →
    i ≤ (seg a).lo ∧ (seg a).lo ≤ (seg a).hi ∧ (seg a).hi < j
  | .node c ts, i, j, ⟨k, hk, hj, hc⟩, ha => by
    have hb := hk.lt_behind
    rw [preorder] at ha
    cases mem_cons.mp ha with
    | inl ha =>
      rw [ha, hc]
      simp only
      omega
    | inr ha =>
      have hbounds := SpansAll.bounds hk ha
      omega

theorem SpansAll.bounds : ∀ {rs : List (Rose α)} {i j : Int}, SpansAll seg rs i j →
    a ∈ preorders rs → i ≤ (seg a).lo ∧ (seg a).lo ≤ (seg a).hi ∧ (seg a).hi < j
  | r :: rs, i, j, ⟨k, hr, hrs⟩, ha => by
    have hlt := Spans.lt hr
    have hle := SpansAll.le hrs
    rw [preorders] at ha
    cases mem_append.mp ha with
    | inl ha =>
      have hbounds := Spans.bounds hr ha
      omega
    | inr ha =>
      have hbounds := SpansAll.bounds hrs ha
      omega

end

/-- No node below has all the numbers of a node. -/
theorem SpansAll.smaller : ∀ {ts : List (Rose α)} {i k : Int}, SpansAll seg ts i k →
    a ∈ preorders ts → ¬Interval.Inside ⟨i, behind ts k - 1⟩ (seg a)
  | [r], i, k, h, ha, hin => by
    have hbounds := h.bounds ha
    have hbehind : behind [r] k = k + 1 := rfl
    have hle : behind [r] k - 1 ≤ (seg a).hi := hin.2
    omega
  | r :: r' :: rs, i, k, ⟨m, hr, hrs⟩, ha, hin => by
    have hbehind : behind (r :: r' :: rs) k = k := if_neg (by simp)
    have hlo : (seg a).lo ≤ i := hin.1
    have hhi : behind (r :: r' :: rs) k - 1 ≤ (seg a).hi := hin.2
    have hlt := hr.lt
    have hle := hrs.le
    rw [length_cons, Nat.cast_add_one] at hle
    rw [preorders] at ha
    cases mem_append.mp ha with
    | inl ha =>
      have hbounds := hr.bounds ha
      omega
    | inr ha =>
      have hbounds := hrs.bounds ha
      omega

mutual

theorem Spans.congr : ∀ {r : Rose α} {i j : Int}, r.Spans seg i j →
    (∀ a ∈ r.preorder, seg' a = seg a) → r.Spans seg' i j
  | .node c ts, i, j, ⟨k, hk, hj, hc⟩, hag => by
    rw [preorder, forall_mem_cons] at hag
    exact ⟨k, SpansAll.congr hk hag.2, hj, hag.1.trans hc⟩

theorem SpansAll.congr : ∀ {rs : List (Rose α)} {i j : Int}, SpansAll seg rs i j →
    (∀ a ∈ preorders rs, seg' a = seg a) → SpansAll seg' rs i j
  | [], _, _, h, _ => h
  | r :: rs, i, j, ⟨k, hr, hrs⟩, hag => by
    rw [preorders, forall_mem_append] at hag
    exact ⟨k, Spans.congr hr hag.1, SpansAll.congr hrs hag.2⟩

end

/-- The first and the last number of some trees are those of their roots. -/
theorem SpansAll.ends : ∀ {rs : List (Rose α)} {i j : Int}, SpansAll seg rs i j → rs ≠ [] →
    i ∈ rs.map (fun r => (seg r.root).lo) ∧ j - 1 ∈ rs.map fun r => (seg r.root).hi
  | r :: rs, i, j, ⟨k, hr, hrs⟩, _ => by
    have hroot : seg r.root = ⟨i, k - 1⟩ := by
      cases r with
      | node c ts =>
        obtain ⟨_, _, _, hc⟩ := hr
        exact hc
    rw [map_cons, map_cons, hroot]
    refine ⟨mem_cons_self, ?_⟩
    cases rs with
    | nil =>
      rw [SpansAll] at hrs
      rw [hrs]
      exact mem_cons_self
    | cons r' rs => exact mem_cons_of_mem _ (hrs.ends (cons_ne_nil r' rs)).2

/-! ## Intervals and the nodes below -/

theorem mem_preorders_kid : ∀ {rs : List (Rose α)}, a ∈ preorders rs → ∃ r ∈ rs, a ∈ r.preorder
  | r :: rs, ha => by
    rw [preorders] at ha
    cases mem_append.mp ha with
    | inl ha => exact ⟨r, mem_cons_self, ha⟩
    | inr ha =>
      obtain ⟨r', hr', ha⟩ := mem_preorders_kid ha
      exact ⟨r', mem_cons_of_mem r hr', ha⟩

theorem closed_below {l : List α} (hl : ∀ a b, a ∈ l → b ∈ next a → b ∈ l) (ha : a ∈ l)
    (hab : Sweep.Below next a b) : b ∈ l := by
  induction hab with
  | refl => exact ha
  | tail _ hstep ih => exact hl _ _ ih hstep

theorem not_below_kid (hF : Sweep.Forest nodes next rank) (ha : a ∈ nodes) (hb : b ∈ next a)
    {c : α} (hc : Sweep.Below next b c) : ¬Sweep.Below next c a := by
  intro hca
  have hlt := hF.rank_lt a ha b hb
  have hbc := hF.rank_le (hF.closed a ha b hb) hc
  have hle := hF.rank_le hbc.1 hca
  omega

mutual

theorem Spans.inside_iff (hF : Sweep.Forest nodes next rank) : ∀ {r : Rose α} {i j : Int},
    r.Spans seg i j → r.Reads next → r.root ∈ nodes → a ∈ r.preorder → b ∈ r.preorder →
    ((seg b).Inside (seg a) ↔ Sweep.Below next a b)
  | .node c ts, i, j, ⟨k, hk, hj, hc⟩, hr, hroot, ha, hb => by
    have hmem := (hr.nodup_mem hF hroot).2
    have hkids : ∀ t ∈ ts, t.root ∈ next c := fun t ht => by
      rw [hr.1]
      exact List.mem_map_of_mem ht
    have hnodup := (hr.nodup_mem hF hroot).1
    rw [preorder, nodup_cons] at hnodup
    by_cases hac : a = c
    · have hspans : Spans seg (.node c ts) i j := ⟨k, hk, hj, hc⟩
      have hbounds := hspans.bounds hb
      refine iff_of_true ?_ (hac ▸ (hmem b).mp hb)
      rw [hac, Interval.Inside, hc]
      simp only
      omega
    have ha' : a ∈ preorders ts := by
      rw [preorder] at ha
      exact (mem_cons.mp ha).resolve_left hac
    by_cases hbc : b = c
    · refine iff_of_false ?_ fun hab => ?_
      · rw [hbc, hc, hj]
        exact hk.smaller ha'
      · -- the first node is not below one of its kids
        obtain ⟨t, ht, hat⟩ := mem_preorders_kid ha'
        have hta := ((readsAll_iff.mp hr.2 t ht).nodup_mem hF
          (hF.closed c hroot _ (hkids t ht))).2 a
        exact not_below_kid hF hroot (hkids t ht) (hta.mp hat) (hbc ▸ hab)
    · have hb' : b ∈ preorders ts := by
        rw [preorder] at hb
        exact (mem_cons.mp hb).resolve_left hbc
      exact SpansAll.inside_iff hF hk hr.2 (fun t ht => hF.closed c hroot _ (hkids t ht)) hnodup.2
        ha' hb'

theorem SpansAll.inside_iff (hF : Sweep.Forest nodes next rank) : ∀ {rs : List (Rose α)}
    {i j : Int}, SpansAll seg rs i j → ReadsAll next rs → (∀ r ∈ rs, r.root ∈ nodes) →
    (preorders rs).Nodup → a ∈ preorders rs → b ∈ preorders rs →
    ((seg b).Inside (seg a) ↔ Sweep.Below next a b)
  | r :: rs, i, j, ⟨k, hr, hrs⟩, hreads, hroots, hnodup, ha, hb => by
    obtain ⟨hroot, hroots⟩ := forall_mem_cons.mp hroots
    rw [preorders, nodup_append] at hnodup
    rw [preorders, mem_append] at ha hb
    rcases ha with ha | ha <;> rcases hb with hb | hb
    · exact Spans.inside_iff hF hr hreads.1 hroot ha hb
    · refine iff_of_false (fun hin => ?_) fun hab => ?_
      · have hx := hr.bounds ha
        have hy := hrs.bounds hb
        have hhi := hin.2
        omega
      · exact hnodup.2.2 b (closed_below (fun _ _ => hreads.1.closed) ha hab) b hb rfl
    · refine iff_of_false (fun hin => ?_) fun hab => ?_
      · have hx := hrs.bounds ha
        have hy := hr.bounds hb
        have hlo := hin.1
        omega
      · exact hnodup.2.2 b hb b (closed_below (fun _ _ => hreads.2.closed) ha hab) rfl
    · exact SpansAll.inside_iff hF hrs hreads.2 hroots hnodup.2.1 ha hb

end

end Rose
