import Awtk.UiLoader.UiLoaderDefault

/-!
# Round trip of user interfaces

The calls of a forest are a row of widgets, each with its properties and with the ends behind them.  The
loader replays the row, but of two or more end marks at the end of the file it leaves the last one
(`load_document`).  So a forest comes back exactly if its last outermost widget has no children.
-/

namespace Awtk.UiLoaderDefault

open UiBuilderCall UiForest UiBinaryWriter List Option

variable {rb : RBuffer} {more tail : List UInt8} {n : Nat}

/-! ## Properties -/

theorem bytes_propCalls_cons (name value : Str) (props : List (Str × Str)) :
    (propCalls ((name, value) :: props)).flatMap bytes =
      name ++ 0 :: (value ++ 0 :: (propCalls props).flatMap bytes) := by
  simp [propCalls, bytes]

/-- A key that was read, and the properties behind it. -/
theorem At.props {props : List (Str × Str)} (hprops : PropsOk props) : ∀ {rb : RBuffer}
    (cs : List UiBuilderCall), At rb ((propCalls props).flatMap bytes ++ 0 :: more) →
    ∃ key rb₁ rb₂, rb.readString = some (.ok, some key, rb₁) ∧ rb₁.capacity = rb.capacity ∧
      (∀ n, props.length < n → propLoop n rb₁ key cs = some (.ok, rb₂, cs ++ propCalls props)) ∧
      At rb₂ more ∧ rb₂.capacity = rb.capacity := by
  induction props with
  | nil =>
    intro rb cs h
    obtain ⟨rb₁, hrun, hat, hcap⟩ := h.readString (s := []) not_mem_nil
    refine ⟨[], rb₁, rb₁, hrun, hcap, fun n hn => ?_, hat, hcap⟩
    obtain ⟨n, rfl⟩ := Nat.exists_eq_add_of_lt hn
    rw [propLoop, if_pos rfl, propCalls, map_nil, append_nil]
  | cons p props ih =>
    intro rb cs h
    obtain ⟨name, value⟩ := p
    obtain ⟨hname, hname0, hvalue0⟩ := hprops (name, value) mem_cons_self
    rw [bytes_propCalls_cons, append_assoc, cons_append, append_assoc,
      cons_append] at h
    obtain ⟨rb₁, hrun₁, hat₁, hcap₁⟩ := h.readString hname0
    obtain ⟨rb₂, hrun₂, hat₂, hcap₂⟩ := hat₁.readString hvalue0
    obtain ⟨key, rb₃, rb₄, hrun₃, hcap₃, hloop, hat₄, hcap₄⟩ :=
      ih (fun q hq => hprops q (mem_cons_of_mem _ hq)) (cs ++ [onWidgetProp name value]) hat₂
    refine ⟨name, rb₁, rb₄, hrun₁, hcap₁, fun n hn => ?_, hat₄, hcap₄.trans (hcap₂.trans hcap₁)⟩
    cases n with
    | zero => exact absurd hn (Nat.not_lt_zero _)
    | succ n =>
      rw [propLoop, if_neg hname, hrun₂, bind_eq_bind, bind_some]
      simp only [hrun₃, bind_some]
      rw [hloop n (Nat.lt_of_succ_lt_succ hn), append_assoc]
      rfl

theorem length_le_bytes (props : List (Str × Str)) :
    props.length ≤ ((propCalls props).flatMap bytes).length := by
  induction props with
  | nil => exact Nat.le_refl 0
  | cons p props ih =>
    rw [bytes_propCalls_cons]
    simp only [length_append, length_cons]
    omega

theorem At.readProps {props : List (Str × Str)} (hprops : PropsOk props)
    (cs : List UiBuilderCall) (h : At rb ((propCalls props).flatMap bytes ++ 0 :: more)) :
    ∃ rb', readProps rb cs = some (.ok, rb', cs ++ propCalls props ++ [onWidgetPropEnd]) ∧
      At rb' more ∧ rb'.capacity = rb.capacity := by
  have hlen := h.length
  have hle := length_le_bytes props
  obtain ⟨key, rb₁, rb₂, hrun, hcap₁, hloop, hat, hcap₂⟩ := At.props hprops cs h
  refine ⟨rb₂, ?_, hat, hcap₂⟩
  rw [length_append, length_cons] at hlen
  rw [UiLoaderDefault.readProps, hrun, bind_eq_bind, bind_some]
  simp only
  rw [hloop (rb₁.capacity + 1) (by omega)]
  rfl

/-! ## End marks -/

/-- Bytes that do not start with an end mark. -/
def Unmarked (tail : List UInt8) : Prop := tail.head? ≠ some 0

/-- The last of two or more end marks stays at the end of the file. -/
def left (ends : Nat) (tail : List UInt8) : Nat := if tail = [] ∧ 2 ≤ ends then 1 else 0

theorem left_one (tail : List UInt8) : left 1 tail = 0 := if_neg fun h => absurd h.2 (by decide)

theorem left_nil {k : Nat} : left (k + 2) [] = 1 := if_pos ⟨rfl, Nat.le_add_left 2 k⟩

theorem left_of_ne_nil {k : Nat} (h : tail ≠ []) : left k tail = 0 := if_neg fun h' => h h'.1

theorem At.endTurn (cs : List UiBuilderCall) (h : At rb (0 :: more)) :
    ∃ rb', At rb' more ∧ rb'.capacity = rb.capacity ∧
      (more.length ≤ 1 → endLoop (n + 1) 0 rb cs = some (rb', cs ++ [onWidgetEnd])) ∧
      ∀ mark rest, more = mark :: rest → rest ≠ [] →
        endLoop (n + 1) 0 rb cs = endLoop n mark.toNat rb' (cs ++ [onWidgetEnd]) := by
  obtain ⟨rb', hrun, hat, hcap⟩ := h.readMark
  have hlen := hat.length
  have hbound := hat.ok.bound
  refine ⟨rb', hat, hcap, fun hle => ?_, fun mark rest hmore hrest => ?_⟩
  · rw [UiLoaderDefault.endLoop, if_neg (by decide), hrun, bind_eq_bind, bind_some]
    by_cases hadd : rb'.cursor + 1 < 2 ^ 32
    · simp only [U32.add_of_lt hadd]
      rw [if_pos (by omega)]
      rfl
    · -- The sum wraps at the largest capacity, and there is nothing to look at.
      have hpeek : rb'.peekUint 1 = some (.badParams, 0) := by
        rw [RBuffer.peekUint, if_neg (by omega)]
      simp only [hpeek]
      split <;> rfl
  · subst hmore
    have hpos := length_pos_iff.mpr hrest
    rw [length_cons] at hlen
    rw [UiLoaderDefault.endLoop, if_neg (by decide), hrun, bind_eq_bind, bind_some]
    simp only [U32.add_of_lt (a := rb'.cursor) (b := 1) (by omega)]
    rw [if_neg (by omega), hat.peekMark]
    rfl

/-- The end marks are read one after another. -/
theorem At.endLoop (htail : Unmarked tail) : ∀ (k : Nat) {n : Nat} {rb : RBuffer}
    (cs : List UiBuilderCall), k + 1 < n → At rb (List.replicate (k + 1) 0 ++ tail) →
    ∃ rb', endLoop n 0 rb cs =
        some (rb', cs ++ List.replicate (k + 1 - left (k + 1) tail) onWidgetEnd) ∧
      At rb' (List.replicate (left (k + 1) tail) 0 ++ tail) ∧ rb'.capacity = rb.capacity := by
  intro k
  induction k with
  | zero =>
    intro n rb cs hn h
    obtain ⟨n, rfl⟩ : ∃ m, n = m + 2 := ⟨n - 2, by omega⟩
    have hat₀ : At rb (0 :: tail) := h
    obtain ⟨rb', hat, hcap, hstop, hgo⟩ := hat₀.endTurn (n := n + 1) cs
    rw [left_one]
    refine ⟨rb', ?_, hat, hcap⟩
    by_cases hle : tail.length ≤ 1
    · rw [hstop hle]
      rfl
    · cases tail with
      | nil => exact absurd (Nat.zero_le 1) hle
      | cons mark rest =>
        have hmark : mark.toNat ≠ 0 := fun h0 => htail (by
          rw [head?_cons, UInt8.toNat_inj.mp (h0.trans UInt8.toNat_zero.symm)])
        have hrest : rest ≠ [] := by
          intro hnil
          rw [hnil] at hle
          exact hle (Nat.le_refl 1)
        rw [hgo mark rest rfl hrest, UiLoaderDefault.endLoop, if_pos hmark]
        rfl
  | succ k ih =>
    intro n rb cs hn h
    obtain ⟨n, rfl⟩ : ∃ m, n = m + 1 := ⟨n - 1, by omega⟩
    rw [replicate_succ, cons_append] at h
    obtain ⟨rb₁, hat₁, hcap₁, hstop, hgo⟩ := h.endTurn (n := n) cs
    by_cases hle : (List.replicate (k + 1) 0 ++ tail).length ≤ 1
    · rw [length_append, length_replicate] at hle
      obtain rfl : k = 0 := by omega
      obtain rfl : tail = [] := eq_nil_of_length_eq_zero (by omega)
      refine ⟨rb₁, ?_, ?_, hcap₁⟩
      · rw [hstop hle]
        rfl
      · exact hat₁
    · have hleft : left (k + 1 + 1) tail = left (k + 1) tail := by
        by_cases hnil : tail = []
        · subst hnil
          cases k with
          | zero => exact absurd (Nat.le_refl 1) hle
          | succ k => rw [left_nil, left_nil]
        · rw [left_of_ne_nil hnil, left_of_ne_nil hnil]
      obtain ⟨rb₂, hrun₂, hat₂, hcap₂⟩ := ih (cs ++ [onWidgetEnd]) (Nat.lt_of_succ_lt_succ hn) hat₁
      refine ⟨rb₂, ?_, ?_, hcap₂.trans hcap₁⟩
      · rw [hgo 0 (List.replicate k 0 ++ tail) rfl ?_]
        · rw [UInt8.toNat_zero, hrun₂, hleft, append_assoc]
          have hle' : left (k + 1) tail ≤ k + 1 := by
            rw [left]
            split
            · omega
            · omega
          rw [Nat.succ_sub hle', replicate_succ]
          rfl
        · intro hnil
          rw [replicate_succ, cons_append, hnil] at hle
          exact hle (Nat.le_refl 1)
      · rw [hleft]
        exact hat₂

theorem left_le (k : Nat) (tail : List UInt8) : left k tail ≤ k := by
  rw [left]
  split
  case isTrue h => exact Nat.le_of_succ_le h.2
  case isFalse => exact Nat.zero_le k

theorem At.hasMore (h : At rb more) (hmore : more ≠ []) : rb.hasMore = true := by
  have hlen := h.length
  have hpos := length_pos_iff.mpr hmore
  rw [RBuffer.hasMore, decide_eq_true_eq]
  omega

theorem At.readEnds {ends : Nat} (htail : Unmarked tail) (cs : List UiBuilderCall)
    (h : At rb (List.replicate ends 0 ++ tail)) :
    ∃ rb', readEnds rb cs =
        some (.ok, rb', cs ++ List.replicate (ends - left ends tail) onWidgetEnd) ∧
      At rb' (List.replicate (left ends tail) 0 ++ tail) ∧ rb'.capacity = rb.capacity := by
  have hlen := h.length
  rw [length_append, length_replicate] at hlen
  cases ends with
  | zero =>
    have hleft : left 0 tail = 0 := Nat.le_zero.mp (left_le 0 tail)
    rw [hleft]
    refine ⟨rb, ?_, h, rfl⟩
    rw [UiLoaderDefault.readEnds]
    cases tail with
    | nil =>
      have hno : rb.hasMore = false := by
        rw [RBuffer.hasMore, decide_eq_false_iff_not]
        exact Nat.not_lt.mpr hlen.ge
      rw [hno, Nat.sub_zero, replicate_zero, append_nil]
      rfl
    | cons mark rest =>
      have hmark : mark.toNat ≠ 0 := fun h0 => htail (by
        rw [head?_cons, UInt8.toNat_inj.mp (h0.trans UInt8.toNat_zero.symm)])
      have hat : At rb (mark :: rest) := h
      rw [if_pos (hat.hasMore (cons_ne_nil _ _)), hat.peekMark]
      simp [UiLoaderDefault.endLoop, hmark]
  | succ k =>
    have hat : At rb (0 :: (List.replicate k 0 ++ tail)) := h
    obtain ⟨rb', hrun, hat', hcap⟩ :=
      At.endLoop htail k (n := rb.capacity + 1) cs (by omega) h
    refine ⟨rb', ?_, hat', hcap⟩
    rw [UiLoaderDefault.readEnds, if_pos (hat.hasMore (cons_ne_nil _ _)), hat.peekMark,
      bind_eq_bind, bind_some]
    simp only [UInt8.toNat_zero, hrun]
    rfl

/-! ## Rows of widgets -/

/-- A widget with its properties, and the number of ends behind them. -/
structure RowItem where
  desc : WidgetDesc
  props : List (Str × Str)
  ends : Nat

/-- The calls of a widget, where so many ends are left. -/
def RowItem.calls (item : RowItem) (leave : Nat) : List UiBuilderCall :=
  onWidgetStart item.desc :: propCalls item.props ++ [onWidgetPropEnd] ++
    List.replicate (item.ends - leave) onWidgetEnd

structure RowItem.Ok (item : RowItem) : Prop where
  named : item.desc.Named
  props : PropsOk item.props

theorem RowItem.bytes_eq (item : RowItem) :
    (item.calls 0).flatMap bytes = item.desc.bytes ++
      ((propCalls item.props).flatMap bytes ++ 0 :: List.replicate item.ends 0) := by
  have hends : (List.replicate item.ends onWidgetEnd).flatMap bytes =
      List.replicate item.ends (0 : UInt8) := by
    induction item.ends with
    | zero => rfl
    | succ k ih =>
      rw [replicate_succ, flatMap_cons, ih]
      rfl
  rw [RowItem.calls, Nat.sub_zero, flatMap_append, hends]
  simp [bytes]

theorem At.readWidget {item : RowItem} (hok : item.Ok) (htail : Unmarked tail)
    (cs : List UiBuilderCall) (h : At rb ((item.calls 0).flatMap bytes ++ tail)) :
    ∃ rb', readWidget rb cs = some (.ok, rb', cs ++ item.calls (left item.ends tail)) ∧
      At rb' (List.replicate (left item.ends tail) 0 ++ tail) ∧ rb'.capacity = rb.capacity := by
  rw [item.bytes_eq, append_assoc, append_assoc, cons_append] at h
  obtain ⟨rb₁, hrun₁, hat₁, hcap₁⟩ := h.readBinary
  obtain ⟨rb₂, hrun₂, hat₂, hcap₂⟩ :=
    hat₁.readProps hok.props (cs ++ [onWidgetStart item.desc])
  obtain ⟨rb₃, hrun₃, hat₃, hcap₃⟩ := hat₂.readEnds htail
    (cs ++ [onWidgetStart item.desc] ++ propCalls item.props ++ [onWidgetPropEnd])
  refine ⟨rb₃, ?_, hat₃, hcap₃.trans (hcap₂.trans hcap₁)⟩
  rw [item.desc.bytes_length] at hrun₁
  rw [UiLoaderDefault.readWidget, hrun₁, bind_eq_bind, bind_some]
  simp only [WidgetDesc.ofBytes?_bytes]
  rw [bind_eq_bind, bind_some, hrun₂, bind_eq_bind, bind_some]
  simp only [hrun₃]
  simp [RowItem.calls]

/-- The calls that the loader makes for a row. -/
def replay : List RowItem → List UiBuilderCall
  | [] => []
  | [item] => item.calls (left item.ends [])
  | item :: row => item.calls 0 ++ replay row

/-- The bytes of a row. -/
def rowBytes (row : List RowItem) : List UInt8 := row.flatMap fun item => (item.calls 0).flatMap bytes

theorem unmarked_rowBytes {item : RowItem} (hok : item.Ok) (row : List RowItem) :
    Unmarked (rowBytes (item :: row)) := by
  have hnamed := hok.named
  have hlen := item.desc.type_length
  rw [Unmarked, rowBytes, flatMap_cons, item.bytes_eq, WidgetDesc.bytes]
  cases htype : item.desc.type with
  | nil => simp [htype] at hlen
  | cons c cs =>
    rw [WidgetDesc.Named, htype, head?_cons] at hnamed
    simpa using hnamed

theorem rowBytes_ne_nil (item : RowItem) (row : List RowItem) : rowBytes (item :: row) ≠ [] := by
  intro hnil
  have hlen := congrArg List.length hnil
  rw [rowBytes, flatMap_cons, item.bytes_eq, length_append, length_append,
    item.desc.bytes_length] at hlen
  simp at hlen

/-- A row is replayed. -/
theorem At.widgetLoop {row : List RowItem} : ∀ {n : Nat} {rb : RBuffer} (cs : List UiBuilderCall),
    (∀ item ∈ row, item.Ok) → row.length < n → At rb (rowBytes row) →
    widgetLoop (fun _ => true) n rb cs = some (.ok, cs ++ replay row ++ [onEnd]) := by
  induction row with
  | nil =>
    intro n rb cs hok hn h
    obtain ⟨n, rfl⟩ : ∃ m, n = m + 1 := ⟨n - 1, by omega⟩
    have hlen := h.length
    rw [rowBytes, flatMap_nil, length_nil] at hlen
    rw [UiLoaderDefault.widgetLoop, if_neg (by omega), replay, append_nil]
  | cons item row ih =>
    intro n rb cs hok hn h
    obtain ⟨n, rfl⟩ : ∃ m, n = m + 1 := ⟨n - 1, by omega⟩
    have hitem := hok item mem_cons_self
    have hat₀ : At rb ((item.calls 0).flatMap bytes ++ rowBytes row) := h
    have htail : Unmarked (rowBytes row) := by
      cases row with
      | nil => exact nofun
      | cons next row =>
        exact unmarked_rowBytes (hok next (mem_cons_of_mem _ mem_cons_self)) row
    have hroom : rb.cursor + 48 ≤ rb.capacity := by
      have hlen := h.length
      rw [rowBytes, flatMap_cons, item.bytes_eq, length_append, length_append,
        item.desc.bytes_length] at hlen
      omega
    obtain ⟨rb', hrun, hat, hcap⟩ := hat₀.readWidget hitem htail cs
    rw [UiLoaderDefault.widgetLoop, if_pos hroom, hrun, bind_eq_bind, bind_some]
    simp only [if_true]
    cases row with
    | nil =>
      -- At most one end mark is left, which is no widget.
      obtain ⟨n, rfl⟩ : ∃ m, n = m + 1 := ⟨n - 1, by simp only [length_cons] at hn; omega⟩
      have hlen := hat.length
      have hleft : left item.ends [] ≤ 1 := by
        rw [left]
        split
        · exact Nat.le_refl 1
        · exact Nat.zero_le 1
      rw [length_append, length_replicate, rowBytes, flatMap_nil,
        length_nil] at hlen
      rw [UiLoaderDefault.widgetLoop, if_neg (by omega)]
      rfl
    | cons next row =>
      rw [left_of_ne_nil (rowBytes_ne_nil next row)] at hat ⊢
      have hat' : At rb' (rowBytes (next :: row)) := hat
      rw [ih _ (fun i hi => hok i (mem_cons_of_mem _ hi)) (Nat.lt_of_succ_lt_succ hn) hat']
      simp [replay]

/-! ## The row of a forest -/

/-- A widget in front of the row of its children.  Its end comes behind the last of them. -/
def nest (desc : WidgetDesc) (props : List (Str × Str)) (ends : Nat) :
    List RowItem → List RowItem
  | [] => [⟨desc, props, ends⟩]
  | item :: below => ⟨desc, props, 0⟩ :: item :: below

/-- The row of a forest in front of so many ends. -/
def row : UiForest → Nat → List RowItem
  | .nil, _ => []
  | .cons desc props children siblings, k =>
    let ends := if (row siblings k).isEmpty then k + 1 else 1
    nest desc props ends (row children ends) ++ row siblings k

/-- The calls of a row. -/
def rowCalls (row : List RowItem) : List UiBuilderCall := row.flatMap fun item => item.calls 0

theorem rowCalls_append (row₁ row₂ : List RowItem) :
    rowCalls (row₁ ++ row₂) = rowCalls row₁ ++ rowCalls row₂ := flatMap_append

theorem nest_ne_nil {desc : WidgetDesc} {props : List (Str × Str)} {ends : Nat}
    (below : List RowItem) : nest desc props ends below ≠ [] := by
  cases below with
  | nil => exact nofun
  | cons item below => exact nofun

theorem row_nil_iff {f : UiForest} {k : Nat} : row f k = [] ↔ f = .nil := by
  cases f with
  | nil => exact iff_of_true rfl rfl
  | cons desc props children siblings =>
    exact iff_of_false (fun h => nest_ne_nil _ (append_eq_nil_iff.mp h).1) nofun

theorem row_cons (desc : WidgetDesc) (props : List (Str × Str)) (children siblings : UiForest)
    (k : Nat) :
    (siblings = .nil ∧ row (.cons desc props children siblings) k =
      nest desc props (k + 1) (row children (k + 1))) ∨
    (siblings ≠ .nil ∧ row (.cons desc props children siblings) k =
      nest desc props 1 (row children 1) ++ row siblings k) := by
  cases h : siblings with
  | nil => exact .inl ⟨rfl, append_nil _⟩
  | cons d p c s =>
    have hempty : (row siblings k).isEmpty = false := by
      rw [isEmpty_eq_false_iff]
      exact fun hnil => by rw [row_nil_iff.mp hnil] at h; cases h
    refine .inr ⟨nofun, ?_⟩
    rw [← h, row, hempty]
    rfl

theorem rowCalls_nest (desc : WidgetDesc) (props : List (Str × Str)) (children : UiForest)
    (ends : Nat) (ih : children ≠ .nil →
      rowCalls (row children ends) = children.calls ++ List.replicate ends onWidgetEnd) :
    rowCalls (nest desc props ends (row children ends)) =
      onWidgetStart desc :: propCalls props ++ [onWidgetPropEnd] ++ children.calls ++
        List.replicate ends onWidgetEnd := by
  cases hrow : row children ends with
  | nil =>
    rw [row_nil_iff.mp hrow]
    simp [nest, rowCalls, RowItem.calls, UiForest.calls]
  | cons item below =>
    have hne : children ≠ .nil := fun h => by rw [h] at hrow; cases hrow
    have hcalls := ih hne
    rw [hrow] at hcalls
    have hnest : nest desc props ends (item :: below) = [⟨desc, props, 0⟩] ++ item :: below := rfl
    rw [hnest, rowCalls_append, hcalls]
    simp [rowCalls, RowItem.calls]

theorem rowCalls_row (f : UiForest) : ∀ k, f ≠ .nil →
    rowCalls (row f k) = f.calls ++ List.replicate k onWidgetEnd := by
  induction f with
  | nil => exact fun _ h => absurd rfl h
  | cons desc props children siblings ihchildren ihsiblings =>
    intro k _
    rcases row_cons desc props children siblings k with ⟨rfl, hrow⟩ | ⟨hne, hrow⟩
    · rw [hrow, rowCalls_nest _ _ _ _ (ihchildren (k + 1)), UiForest.calls, UiForest.calls,
        replicate_succ]
      simp
    · rw [hrow, rowCalls_append, rowCalls_nest _ _ _ _ (ihchildren 1), ihsiblings k hne,
        UiForest.calls]
      simp

theorem nest_ok {desc : WidgetDesc} {props : List (Str × Str)} {ends : Nat}
    {below : List RowItem} (hnamed : desc.Named) (hprops : PropsOk props)
    (hbelow : ∀ item ∈ below, item.Ok) : ∀ item ∈ nest desc props ends below, item.Ok := by
  intro item hitem
  cases below with
  | nil =>
    obtain rfl := mem_singleton.mp hitem
    exact ⟨hnamed, hprops⟩
  | cons next below =>
    rcases mem_cons.mp hitem with rfl | hitem
    · exact ⟨hnamed, hprops⟩
    · exact hbelow item hitem

theorem row_ok (f : UiForest) : ∀ k, f.Ok → ∀ item ∈ row f k, item.Ok := by
  induction f with
  | nil => exact fun _ _ _ h => absurd h not_mem_nil
  | cons desc props children siblings ihchildren ihsiblings =>
    intro k hok item hitem
    obtain ⟨hnamed, hprops, hchildren, hsiblings⟩ := hok
    rcases mem_append.mp hitem with hitem | hitem
    · exact nest_ok hnamed hprops (ihchildren _ hchildren) item hitem
    · exact ihsiblings k hsiblings item hitem

/-! ## The end of the row -/

/-- The ends behind the last widget. -/
def lastEnds (row : List RowItem) : Nat := (row.getLast?.map RowItem.ends).getD 0

theorem lastEnds_append (row₁ : List RowItem) {row₂ : List RowItem} (h : row₂ ≠ []) :
    lastEnds (row₁ ++ row₂) = lastEnds row₂ := by
  have hlast := getLast?_eq_some_getLast h
  rw [lastEnds, getLast?_append, hlast, lastEnds, hlast]
  rfl

theorem replay_eq (row : List RowItem) :
    replay row = if 2 ≤ lastEnds row then (rowCalls row).dropLast else rowCalls row := by
  induction row with
  | nil => rfl
  | cons item row ih =>
    cases row with
    | nil =>
      have hcalls : rowCalls [item] = item.calls 0 := append_nil _
      have hlast : lastEnds [item] = item.ends := rfl
      rw [replay, hcalls, hlast]
      split
      case isTrue hends =>
        obtain ⟨k, hk⟩ : ∃ k, item.ends = k + 2 := ⟨item.ends - 2, by omega⟩
        rw [hk, left_nil, RowItem.calls, RowItem.calls, hk, Nat.sub_zero, replicate_succ',
          ← append_assoc, dropLast_concat]
        rfl
      case isFalse hends =>
        have hleft : left item.ends [] = 0 := if_neg fun h => hends h.2
        rw [hleft]
    | cons next row =>
      have hne : rowCalls (next :: row) ≠ [] := by
        rw [rowCalls, flatMap_cons, RowItem.calls]
        simp
      have hlast : lastEnds (item :: next :: row) = lastEnds (next :: row) :=
        lastEnds_append [item] (cons_ne_nil next row)
      have hcalls : rowCalls (item :: next :: row) = item.calls 0 ++ rowCalls (next :: row) := rfl
      have hreplay : replay (item :: next :: row) = item.calls 0 ++ replay (next :: row) := rfl
      rw [hreplay, ih, hlast, hcalls]
      split
      · exact (dropLast_append_of_ne_nil hne).symm
      · rfl

theorem lastEnds_nest {desc : WidgetDesc} {props : List (Str × Str)} {ends : Nat}
    {below : List RowItem} (h : below ≠ []) :
    lastEnds (nest desc props ends below) = lastEnds below := by
  cases below with
  | nil => exact absurd rfl h
  | cons item below => exact lastEnds_append [_] h

theorem lastEnds_row (f : UiForest) : ∀ k, f ≠ .nil → k + 1 ≤ lastEnds (row f k) := by
  induction f with
  | nil => exact fun _ h => absurd rfl h
  | cons desc props children siblings ihchildren ihsiblings =>
    intro k _
    rcases row_cons desc props children siblings k with ⟨rfl, hrow⟩ | ⟨hne, hrow⟩
    · rw [hrow]
      by_cases hchildren : children = .nil
      · rw [hchildren]
        exact Nat.le_refl _
      · rw [lastEnds_nest fun h => hchildren (row_nil_iff.mp h)]
        exact Nat.le_of_succ_le (ihchildren (k + 1) hchildren)
    · rw [hrow, lastEnds_append _ fun h => hne (row_nil_iff.mp h)]
      exact ihsiblings k hne

theorem lastEnds_le_one_iff (f : UiForest) : ¬ 2 ≤ lastEnds (row f 0) ↔ f.LastChildless := by
  induction f with
  | nil => exact iff_of_true (by decide) trivial
  | cons desc props children siblings ihchildren ihsiblings =>
    rcases row_cons desc props children siblings 0 with ⟨rfl, hrow⟩ | ⟨hne, hrow⟩
    · rw [hrow]
      cases children with
      | nil => exact iff_of_true (by decide : ¬ 2 ≤ 1) rfl
      | cons d p c s =>
        have hne : row (.cons d p c s) 1 ≠ [] := fun h => by cases row_nil_iff.mp h
        have hle := lastEnds_row (.cons d p c s) 1 nofun
        rw [lastEnds_nest hne]
        exact iff_of_false (fun h => h hle) nofun
    · rw [hrow, lastEnds_append _ fun h => hne (row_nil_iff.mp h), ihsiblings]
      cases siblings with
      | nil => exact absurd rfl hne
      | cons d p c s => exact Iff.rfl

/-! ## Documents -/

theorem length_le_rowBytes (row : List RowItem) : row.length ≤ (rowBytes row).length := by
  induction row with
  | nil => exact Nat.le_refl 0
  | cons item row ih =>
    have hbytes : rowBytes (item :: row) = (item.calls 0).flatMap bytes ++ rowBytes row := rfl
    rw [hbytes, item.bytes_eq, length_append, length_append, item.desc.bytes_length,
      length_cons]
    omega

theorem rowBytes_eq (row : List RowItem) : rowBytes row = (rowCalls row).flatMap bytes := by
  rw [rowBytes, rowCalls, flatMap_assoc]

theorem rowBytes_row (f : UiForest) : rowBytes (row f 0) = f.calls.flatMap bytes := by
  by_cases hf : f = .nil
  · rw [hf]
    rfl
  · rw [rowBytes_eq, rowCalls_row f 0 hf, replicate_zero, append_nil]

/-- The calls that come back: without the last one if the last outermost widget has children. -/
theorem replay_row (f : UiForest) :
    (f.LastChildless → replay (row f 0) = f.calls) ∧
      (¬ f.LastChildless → replay (row f 0) = f.calls.dropLast) := by
  by_cases hf : f = .nil
  · rw [hf]
    exact ⟨fun _ => rfl, fun _ => rfl⟩
  · have hcalls := rowCalls_row f 0 hf
    rw [replicate_zero, append_nil] at hcalls
    rw [replay_eq, hcalls]
    constructor
    · intro hlast
      rw [if_neg ((lastEnds_le_one_iff f).mpr hlast)]
    · intro hlast
      rw [if_pos (not_not.mp fun h => hlast ((lastEnds_le_one_iff f).mp h))]

/-- What the loader does with the document of a forest. -/
theorem load_document {f : UiForest} (hf : f.Ok) (hlt : (document f.calls).length < 2 ^ 32) :
    load (fun _ => true) (document f.calls) =
      some (.ok, onStart :: replay (row f 0) ++ [onEnd]) := by
  let rb := RBuffer.init (document f.calls) (document f.calls).length
  have hat : At rb (Bytes.ofNat 4 uiDataMagic ++ f.calls.flatMap bytes) := by
    refine ⟨⟨rfl, Nat.zero_le _, hlt⟩, ?_⟩
    show ((document f.calls).take (document f.calls).length).drop 0 = _
    rw [take_length]
    rfl
  have hread := RBuffer.readUint_of_rest hat.rest hat.ok.size.ge hat.ok.cursor
  have hskip := hat.skip
  have hlen : (Bytes.ofNat 4 uiDataMagic).length = 4 := Bytes.ofNat_length ..
  have hmagic : Bytes.toNat (Bytes.ofNat 4 uiDataMagic) = uiDataMagic := by decide
  rw [← rowBytes_row] at hskip
  have hrow := length_le_rowBytes (row f 0)
  have hcap := hskip.length
  have hloop := At.widgetLoop (n := rb.capacity + 1) [onStart] (row_ok f 0 hf)
    (by simp only at hcap; omega) hskip
  rw [hlen, hmagic] at hread
  rw [load, hread, bind_eq_bind, bind_some]
  simp only [if_true]
  rw [hlen] at hloop
  exact hloop

/-- The document that was written comes back as the same calls exactly if the last outermost widget has no
children. -/
theorem load_written_iff {f : UiForest} (hf : f.Ok) {realloc : Nat → Bool} {wb : WBuffer}
    (hw : wb.Ok) (hempty : wb.contents = []) (hroom : wb.Room realloc (document f.calls).length) :
    ∃ wb', write realloc wb f.calls = some wb' ∧
      (load (fun _ => true) wb'.contents = some (.ok, onStart :: f.calls ++ [onEnd]) ↔
        f.LastChildless) := by
  obtain ⟨wb', hrun, hok, hcontents⟩ := write_append f.calls hw hroom (by rw [hempty]; simp)
  rw [hempty, nil_append] at hcontents
  have hlt : (document f.calls).length < 2 ^ 32 := by
    rw [← hcontents, hok.contents_length]
    exact Nat.lt_of_le_of_lt hok.cursor hok.bound
  refine ⟨wb', hrun, ?_⟩
  rw [hcontents, load_document hf hlt]
  obtain ⟨hyes, hno⟩ := replay_row f
  constructor
  · intro heq
    by_contra hlast
    have hreplay : replay (row f 0) = f.calls := by simpa using heq
    rw [hno hlast] at hreplay
    have hne : f.calls ≠ [] := by
      cases f with
      | nil => exact absurd trivial hlast
      | cons desc props children siblings => simp [UiForest.calls]
    have hlen := congrArg List.length hreplay
    rw [length_dropLast] at hlen
    have hpos := length_pos_iff.mpr hne
    omega
  · intro hlast
    rw [hyes hlast]

/-- The descriptor of a `view`. -/
def view : WidgetDesc where
  type := [0x76, 0x69, 0x65, 0x77] ++ List.replicate 28 0
  x := 0
  y := 0
  w := 10
  h := -1
  type_length := rfl

/-- A view with a name. -/
def single : UiForest := .cons view [([0x6E], [0x61])] .nil .nil

/-- A view in a view. -/
def nested : UiForest := .cons view [] single .nil

theorem load_written_iff_single :
    ∃ wb', write (fun _ => true) .initExtendable single.calls = some wb' ∧
      (load (fun _ => true) wb'.contents = some (.ok, onStart :: single.calls ++ [onEnd]) ↔
        single.LastChildless) :=
  load_written_iff (f := single)
    ⟨by rw [WidgetDesc.Named]; decide, by simp [PropsOk], trivial, trivial⟩ WBuffer.initExtendable_ok rfl
    (.inr ⟨rfl, by decide, fun _ _ => rfl⟩)

/-- The end of the outer view does not come back. -/
theorem load_nested :
    ∃ wb', write (fun _ => true) .initExtendable nested.calls = some wb' ∧
      load (fun _ => true) wb'.contents = some (.ok, onStart :: nested.calls.dropLast ++ [onEnd]) ∧
      load (fun _ => true) wb'.contents ≠ some (.ok, onStart :: nested.calls ++ [onEnd]) := by
  have hrun : ((write (fun _ => true) .initExtendable nested.calls).bind fun wb =>
      load (fun _ => true) wb.contents) =
        some (.ok, onStart :: nested.calls.dropLast ++ [onEnd]) := by
    decide +kernel
  obtain ⟨wb', hwrite, hload⟩ := bind_eq_some_iff.mp hrun
  refine ⟨wb', hwrite, hload, ?_⟩
  rw [hload]
  decide +kernel

end Awtk.UiLoaderDefault
