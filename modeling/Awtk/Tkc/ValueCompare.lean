import Awtk.Tkc.Value

/-!
# Comparing values

`value_compare` and `value_equal` of the types that have an order, and the natural order of their
values.  The comparison of an `int32_t`, a `uint32_t` and an `int64_t` is right exactly where the
difference is small enough, or its lower half has the right sign by chance (`compare_iff_close`).
-/

namespace Awtk.Value

open Option

/-! ## The functions -/

/-- The conversion to an `int`. -/
def wrapInt (n : Int) : Int := Int.bmod n (2 ^ 32)

/-- The result of an operation on the type of signed integers with so many bits, unless it
overflows. -/
def checked (bits : Nat) (n : Int) : Option Int :=
  if -2 ^ (bits - 1) ≤ n ∧ n < 2 ^ (bits - 1) then some n else none

/-- `strcmp` and `wcscmp`, of which the sign is known. -/
def cmpUnits {α : Type} [DecidableEq α] [Ord α] : List α → List α → Int
  | [], [] => 0
  | [], _ :: _ => -1
  | _ :: _, [] => 1
  | a :: s, b :: t => if a = b then cmpUnits s t else if compare a b = .lt then -1 else 1

/-- `tk_strcmp` and `tk_wstrcmp`. -/
def tkCmp {α : Type} [DecidableEq α] [Ord α] : Option (List α) → Option (List α) → Int
  | none, none => 0
  | none, some _ => -1
  | some _, none => 1
  | some s, some t => cmpUnits s t

/-- The comparison of two unsigned numbers: the difference, as an `int`. -/
def cmpUnsigned (a b : Nat) : Option Int :=
  if b < a then some (wrapInt (a - b)) else checked 32 (-wrapInt (b - a))

/-- `value_compare`, of values that have an order.  There is no result where the arithmetic of
signed integers overflows. -/
def compare : Value → Value → Option Int
  | .bool a, .bool b => checked 32 ((a.toNat : Int) - b.toNat)
  | .int8 a, .int8 b => checked 32 (a.toInt - b.toInt)
  | .uint8 a, .uint8 b => cmpUnsigned a.toNat b.toNat
  | .int16 a, .int16 b => checked 32 (a.toInt - b.toInt)
  | .uint16 a, .uint16 b => cmpUnsigned a.toNat b.toNat
  | .int32 a, .int32 b => checked 32 (a.toInt - b.toInt)
  | .uint32 a, .uint32 b => cmpUnsigned a.toNat b.toNat
  | .int64 a, .int64 b => (checked 64 (a.toInt - b.toInt)).map wrapInt
  | .uint64 a, .uint64 b => some (if b < a then 1 else if a < b then -1 else 0)
  | .str a, .str b => some (tkCmp a b)
  | .wstr a, .wstr b => some (tkCmp a b)
  | _, _ => some (-1)

def equal (v w : Value) : Option Bool := (v.compare w).map fun c => c = 0

/-! ## The natural order -/

/-- The order of two values of one type: integers by their value, strings by their units from the
first on, with NULL in front of all of them. -/
def order : Value → Value → Option Ordering
  | .bool a, .bool b => some (Ord.compare a b)
  | .int8 a, .int8 b => some (Ord.compare a.toInt b.toInt)
  | .uint8 a, .uint8 b => some (Ord.compare a.toNat b.toNat)
  | .int16 a, .int16 b => some (Ord.compare a.toInt b.toInt)
  | .uint16 a, .uint16 b => some (Ord.compare a.toNat b.toNat)
  | .int32 a, .int32 b => some (Ord.compare a.toInt b.toInt)
  | .uint32 a, .uint32 b => some (Ord.compare a.toNat b.toNat)
  | .int64 a, .int64 b => some (Ord.compare a.toInt b.toInt)
  | .uint64 a, .uint64 b => some (Ord.compare a.toNat b.toNat)
  | .str a, .str b => some (Ord.compare a b)
  | .wstr a, .wstr b => some (Ord.compare a b)
  | _, _ => none

/-- The comparison has the sign of the natural order, and equality is equality. -/
def Agrees (v w : Value) : Prop :=
  ∃ c, v.compare w = some c ∧ v.order w = some (Ord.compare c 0) ∧
    v.equal w = some (decide (v = w))

/-- The comparison says that the first value is not the greater one. -/
def Le (v w : Value) : Prop := ∃ c, v.compare w = some c ∧ c ≤ 0

/-- On a set of values the comparison is a total order, and it is the natural one. -/
structure TotallyOrders (s : Set Value) : Prop where
  agrees : ∀ v ∈ s, ∀ w ∈ s, Agrees v w
  refl : ∀ v ∈ s, Le v v
  antisymm : ∀ v ∈ s, ∀ w ∈ s, Le v w → Le w v → v = w
  trans : ∀ u ∈ s, ∀ v ∈ s, ∀ w ∈ s, Le u v → Le v w → Le u w
  total : ∀ v ∈ s, ∀ w ∈ s, Le v w ∨ Le w v

/-- Two values whose difference an `int` holds.  Of two `int64_t` it is the lower half of the
difference that has to have its sign, and the difference may not overflow. -/
def Close : Value → Value → Prop
  | .int32 a, .int32 b => -2 ^ 31 ≤ a.toInt - b.toInt ∧ a.toInt - b.toInt < 2 ^ 31
  | .uint32 a, .uint32 b => a.toNat < b.toNat + 2 ^ 31 ∧ b.toNat < a.toNat + 2 ^ 31
  | .int64 a, .int64 b =>
    (-2 ^ 63 ≤ a.toInt - b.toInt ∧ a.toInt - b.toInt < 2 ^ 63) ∧
      (b.toInt < a.toInt → 0 < (a.toInt - b.toInt) % 2 ^ 32 ∧
        (a.toInt - b.toInt) % 2 ^ 32 < 2 ^ 31) ∧
      (a.toInt < b.toInt → 2 ^ 31 ≤ (a.toInt - b.toInt) % 2 ^ 32)
  | _, _ => True

/-! ## Laws of the natural order -/

theorem order_eq_iff {v w : Value} {o : Ordering} (h : v.order w = some o) :
    o = .eq ↔ v = w := by
  fun_cases order v w
  all_goals simp only [order, some.injEq, reduceCtorEq] at h
  all_goals
    subst h
    simp [Int8.toInt_inj, Int16.toInt_inj, Int32.toInt_inj,
      Int64.toInt_inj, UInt8.toNat_inj, UInt16.toNat_inj, UInt32.toNat_inj, UInt64.toNat_inj]

theorem order_swap {v w : Value} {o : Ordering} (h : v.order w = some o) :
    w.order v = some o.swap := by
  fun_cases order v w
  all_goals simp only [order, some.injEq, reduceCtorEq] at h
  all_goals
    subst h
    rw [order, ← Std.OrientedOrd.eq_swap]

theorem order_trans {u v w : Value} {o p : Ordering} (ho : u.order v = some o)
    (hp : v.order w = some p) (hoLE : o.isLE) (hpLE : p.isLE) :
    ∃ q, u.order w = some q ∧ q.isLE := by
  fun_cases order u v
  all_goals simp only [order, some.injEq, reduceCtorEq] at ho
  all_goals
    cases w
    all_goals simp only [order, some.injEq, reduceCtorEq] at hp
    subst ho hp
    exact ⟨_, rfl, Std.TransOrd.isLE_trans hoLE hpLE⟩

theorem agrees_iff_sign {v w : Value} {o : Ordering} (h : v.order w = some o) :
    Agrees v w ↔ ∃ c, v.compare w = some c ∧ Ord.compare c 0 = o := by
  constructor
  · rintro ⟨c, hc, ho, -⟩
    rw [h, some.injEq] at ho
    exact ⟨c, hc, ho.symm⟩
  · rintro ⟨c, hc, ho⟩
    refine ⟨c, hc, by rw [h, ho], ?_⟩
    have heq : c = 0 ↔ v = w := by
      rw [← order_eq_iff h, ← ho, Std.LawfulEqOrd.compare_eq_iff_eq]
    simp [equal, hc, heq]

/-! ## Signs of differences -/

theorem wrapInt_low {n : Int} (h : n % 2 ^ 32 < 2 ^ 31) : wrapInt n = n % 2 ^ 32 := by
  simp only [wrapInt, Int.bmod]
  split <;> omega

theorem wrapInt_high {n : Int} (h : 2 ^ 31 ≤ n % 2 ^ 32) :
    wrapInt n = n % 2 ^ 32 - 2 ^ 32 := by
  simp only [wrapInt, Int.bmod]
  split <;> omega

theorem checked_eq_some {bits : Nat} {n c : Int} :
    checked bits n = some c ↔ (-2 ^ (bits - 1) ≤ n ∧ n < 2 ^ (bits - 1)) ∧ n = c := by
  unfold checked
  split <;> simp [*]

theorem compare_zero_iff (c x y : Int) :
    Ord.compare c 0 = Ord.compare x y ↔ (c < 0 ↔ x < y) ∧ (0 < c ↔ y < x) := by
  constructor
  · intro h
    have hlt : c < 0 ↔ x < y := by rw [← Int.compare_eq_lt, ← Int.compare_eq_lt, h]
    have hgt : 0 < c ↔ y < x := by
      rw [← Int.compare_eq_gt, ← Int.compare_eq_gt (a := x), h]
    exact ⟨hlt, hgt⟩
  · intro h
    rcases Int.lt_trichotomy x y with hlt | rfl | hgt
    · rw [Int.compare_eq_lt.mpr hlt, Int.compare_eq_lt.mpr (h.1.mpr hlt)]
    · rw [Int.compare_eq_eq.mpr rfl, Int.compare_eq_eq.mpr (by omega)]
    · rw [Int.compare_eq_gt.mpr hgt, Int.compare_eq_gt.mpr (h.2.mpr hgt)]

theorem compare_natCast (a b : Nat) : Ord.compare (a : Int) b = Ord.compare a b := by
  rcases Nat.lt_trichotomy a b with hlt | rfl | hgt
  · rw [Nat.compare_eq_lt.mpr hlt, Int.compare_eq_lt.mpr (by omega)]
  · rw [Nat.compare_eq_eq.mpr rfl, Int.compare_eq_eq.mpr rfl]
  · rw [Nat.compare_eq_gt.mpr hgt, Int.compare_eq_gt.mpr (by omega)]

theorem checked_sub_iff (x y : Int) :
    (∃ c, checked 32 (x - y) = some c ∧ Ord.compare c 0 = Ord.compare x y) ↔
      -2 ^ 31 ≤ x - y ∧ x - y < 2 ^ 31 := by
  simp only [checked_eq_some, compare_zero_iff]
  constructor
  · rintro ⟨c, ⟨h, -⟩, -⟩
    exact h
  · intro h
    exact ⟨x - y, ⟨h, rfl⟩, by omega, by omega⟩

theorem wrapInt_sign (x y : Int) :
    ((wrapInt (x - y) < 0 ↔ x < y) ∧ (0 < wrapInt (x - y) ↔ y < x)) ↔
      (y < x → 0 < (x - y) % 2 ^ 32 ∧ (x - y) % 2 ^ 32 < 2 ^ 31) ∧
        (x < y → 2 ^ 31 ≤ (x - y) % 2 ^ 32) := by
  rcases lt_or_ge ((x - y) % 2 ^ 32) (2 ^ 31) with h | h
  · rw [wrapInt_low h]
    omega
  · rw [wrapInt_high h]
    omega

theorem cmpUnsigned_iff {a b : Nat} (ha : a < 2 ^ 32) (hb : b < 2 ^ 32) :
    (∃ c, cmpUnsigned a b = some c ∧ Ord.compare c 0 = Ord.compare a b) ↔
      a < b + 2 ^ 31 ∧ b < a + 2 ^ 31 := by
  simp only [← compare_natCast, compare_zero_iff, cmpUnsigned]
  rcases Nat.lt_or_ge b a with h | h
  · have hsign := wrapInt_sign a b
    simp only [if_pos h, some.injEq, exists_eq_left']
    omega
  · have hsign := wrapInt_sign b a
    simp only [if_neg (Nat.not_lt.mpr h), checked_eq_some]
    constructor
    · rintro ⟨c, ⟨hc, rfl⟩, hneg, hpos⟩
      omega
    · rintro ⟨hab, hba⟩
      have hlow : ((b : Int) - a) % 2 ^ 32 < 2 ^ 31 := by omega
      rw [wrapInt_low hlow]
      exact ⟨_, ⟨by omega, rfl⟩, by omega, by omega⟩

theorem checked_sub_narrow {x y : Int} (hx : -2 ^ 15 ≤ x ∧ x < 2 ^ 15)
    (hy : -2 ^ 15 ≤ y ∧ y < 2 ^ 15) :
    ∃ c, checked 32 (x - y) = some c ∧ Ord.compare c 0 = Ord.compare x y := by
  rw [checked_sub_iff]
  omega

theorem cmpUnsigned_narrow {a b : Nat} (ha : a < 2 ^ 16) (hb : b < 2 ^ 16) :
    ∃ c, cmpUnsigned a b = some c ∧ Ord.compare c 0 = Ord.compare a b := by
  rw [cmpUnsigned_iff (by omega) (by omega)]
  omega

theorem wrapInt_sub_iff (x y : Int) :
    (∃ c, (checked 64 (x - y)).map wrapInt = some c ∧ Ord.compare c 0 = Ord.compare x y) ↔
      (-2 ^ 63 ≤ x - y ∧ x - y < 2 ^ 63) ∧
        (y < x → 0 < (x - y) % 2 ^ 32 ∧ (x - y) % 2 ^ 32 < 2 ^ 31) ∧
        (x < y → 2 ^ 31 ≤ (x - y) % 2 ^ 32) := by
  simp only [compare_zero_iff, map_eq_some_iff, checked_eq_some]
  rw [← wrapInt_sign]
  constructor
  · rintro ⟨c, ⟨d, ⟨h, rfl⟩, rfl⟩, hsign⟩
    exact ⟨h, hsign⟩
  · rintro ⟨h, hsign⟩
    exact ⟨_, ⟨_, ⟨h, rfl⟩, rfl⟩, hsign⟩

theorem cmpUnits_sign {α : Type} [DecidableEq α] [Ord α] [Std.LawfulEqOrd α] :
    ∀ s t : List α, Ord.compare (cmpUnits s t) 0 = Ord.compare s t
  | [], [] => rfl
  | [], _ :: _ => rfl
  | _ :: _, [] => rfl
  | a :: s, b :: t => by
    rw [cmpUnits, List.compare_cons_cons]
    cases hab : Ord.compare a b with
    | eq => simp [Std.LawfulEqOrd.eq_of_compare hab, cmpUnits_sign s t]
    | lt =>
        have hne : a ≠ b := by rintro rfl; simp at hab
        simp [hne, Ordering.then]
        rfl
    | gt =>
        have hne : a ≠ b := by rintro rfl; simp at hab
        simp [hne, Ordering.then]
        rfl

theorem tkCmp_sign {α : Type} [DecidableEq α] [Ord α] [Std.LawfulEqOrd α] :
    ∀ s t : Option (List α), Ord.compare (tkCmp s t) 0 = Ord.compare s t
  | none, none => rfl
  | none, some _ => rfl
  | some _, none => rfl
  | some s, some t => cmpUnits_sign s t

/-! ## The order of the comparison -/

/-- Two values of one type are compared rightly exactly when they are close. -/
theorem agrees_of_order {v w : Value} {o : Ordering} (h : v.order w = some o) :
    Agrees v w ↔ Close v w := by
  rw [agrees_iff_sign h]
  fun_cases order v w
  all_goals
    simp only [order, some.injEq, reduceCtorEq] at h
  all_goals
    subst h
    simp only [compare, Close]
  case case1 a b => cases a <;> cases b <;> simp [checked] <;> rfl
  case case2 a b =>
    have bounds : ∀ x : Int8, -2 ^ 15 ≤ x.toInt ∧ x.toInt < 2 ^ 15 := by
      intro x
      have hlow := x.le_toInt
      have hhigh := x.toInt_lt
      omega
    exact iff_true_intro (checked_sub_narrow (bounds a) (bounds b))
  case case3 a b =>
    have bound : ∀ x : UInt8, x.toNat < 2 ^ 16 := fun x => Nat.lt_trans x.toNat_lt (by decide)
    exact iff_true_intro (cmpUnsigned_narrow (bound a) (bound b))
  case case4 a b =>
    exact iff_true_intro
      (checked_sub_narrow ⟨a.le_toInt, a.toInt_lt⟩ ⟨b.le_toInt, b.toInt_lt⟩)
  case case5 a b => exact iff_true_intro (cmpUnsigned_narrow a.toNat_lt b.toNat_lt)
  case case6 a b => exact checked_sub_iff a.toInt b.toInt
  case case7 a b => exact cmpUnsigned_iff a.toNat_lt b.toNat_lt
  case case8 a b => exact wrapInt_sub_iff a.toInt b.toInt
  case case9 a b =>
    refine iff_true_intro ⟨_, rfl, ?_⟩
    rw [← compare_natCast, compare_zero_iff]
    simp only [UInt64.lt_iff_toNat_lt]
    split
    · omega
    · split <;> omega
  case case10 a b => exact iff_true_intro ⟨_, rfl, tkCmp_sign a b⟩
  case case11 a b => exact iff_true_intro ⟨_, rfl, tkCmp_sign a b⟩

theorem le_iff {v w : Value} (h : Agrees v w) :
    Le v w ↔ ∃ o, v.order w = some o ∧ o.isLE := by
  rcases h with ⟨c, hc, ho, -⟩
  have hle : (Ord.compare c 0).isLE ↔ c ≤ 0 := by
    rw [Ordering.isLE_iff_ne_gt, ← Int.not_lt]
    exact not_congr Int.compare_eq_gt
  simp [Le, hc, ho, hle]

theorem totallyOrders_of_agrees {s : Set Value} (h : ∀ v ∈ s, ∀ w ∈ s, Agrees v w) :
    TotallyOrders s := by
  have total : ∀ v ∈ s, ∀ w ∈ s, Le v w ∨ Le w v := by
    intro v hv w hw
    have ⟨c, _, ho, _⟩ := h v hv w hw
    rw [le_iff (h v hv w hw), le_iff (h w hw v hv), order_swap ho, ho]
    cases Ord.compare c 0 <;> simp
  refine ⟨h, fun v hv => (total v hv v hv).elim id id, ?_, ?_, total⟩
  · intro v hv w hw hvw hwv
    rw [le_iff (h v hv w hw)] at hvw
    rw [le_iff (h w hw v hv)] at hwv
    rcases hvw with ⟨o, ho, hoLE⟩
    rcases hwv with ⟨p, hp, hpLE⟩
    rw [order_swap ho, some.injEq] at hp
    subst hp
    exact (order_eq_iff ho).mp (by cases o <;> simp_all)
  · intro u hu v hv w hw huv hvw
    rw [le_iff (h u hu v hv)] at huv
    rw [le_iff (h v hv w hw)] at hvw
    rcases huv with ⟨o, ho, hoLE⟩
    rcases hvw with ⟨p, hp, hpLE⟩
    exact (le_iff (h u hu w hw)).mpr (order_trans ho hp hoLE hpLE)

/-- Two values of one type are compared rightly exactly when they are close, and on a set of
values of one type the comparison is the natural total order exactly when all of them are close
to each other. -/
theorem compare_iff_close (s : Set Value) :
    (∀ v w : Value, v.order w ≠ none → (Agrees v w ↔ Close v w)) ∧
      ((∀ v ∈ s, ∀ w ∈ s, v.order w ≠ none) →
        (TotallyOrders s ↔ ∀ v ∈ s, ∀ w ∈ s, Close v w)) := by
  have pair : ∀ v w : Value, v.order w ≠ none → (Agrees v w ↔ Close v w) := by
    intro v w h
    obtain ⟨o, ho⟩ := ne_none_iff_exists'.mp h
    exact agrees_of_order ho
  refine ⟨pair, fun hs => ⟨fun h v hv w hw => ?_, fun h => ?_⟩⟩
  · exact (pair v w (hs v hv w hw)).mp (h.agrees v hv w hw)
  · exact totallyOrders_of_agrees fun v hv w hw => (pair v w (hs v hv w hw)).mpr (h v hv w hw)

/-- `compare_iff_close` on a set of two numbers. -/
theorem compare_iff_close_two : TotallyOrders {.int64 5, .int64 (-3)} := by
  refine ((compare_iff_close _).2 ?_).mpr ?_
  · rintro v (rfl | rfl) w (rfl | rfl) <;> decide
  · rintro v (rfl | rfl) w (rfl | rfl) <;> simp only [Close] <;> decide

/-- Numbers that differ above the lower half only count as equal. -/
theorem compare_far :
    order (.int64 0x100000000) (.int64 0) = some .gt ∧
      compare (.int64 0x100000000) (.int64 0) = some 0 ∧
      equal (.int64 0x100000000) (.int64 0) = some true ∧
      ¬Agrees (.int64 0x100000000) (.int64 0) := by
  have hcompare : compare (.int64 0x100000000) (.int64 0) = some 0 := by decide
  refine ⟨by decide, hcompare, by decide, ?_⟩
  rintro ⟨c, hc, ho, -⟩
  rw [hcompare, some.injEq] at hc
  subst hc
  exact absurd ho (by decide)

end Awtk.Value
