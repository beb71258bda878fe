import Awtk.Ubjson.UbjsonToObjectComplete

/-!
# The steps are enough

A turn of a loop of the parser reads a byte at least, and so does every item of a document.  So the
parser never runs out of steps (`toObject_steps`), and more steps give the same document
(`document_steps`).  The size of the input is a `uint32_t`.
-/

namespace Awtk.Ubjson

open Option

/-- The bytes that are left. -/
def Reader.left (r : Reader) : Nat := r.rb.capacity - r.rb.cursor

/-- A run comes to an end, not before the place where it began. -/
def Goes {α : Type} (r : Reader) (place : α → Reader) : Except Stop α → Prop
  | .error e => e = .outside
  | .ok a => (place a).rb.capacity = r.rb.capacity ∧ (place a).left ≤ r.left

namespace Goes

variable {α β : Type} {r : Reader} {place : α → Reader} {place' : β → Reader} {run : Except Stop α}

theorem bind {k : α → Except Stop β} (h : Goes r place run)
    (hk : ∀ a, run = .ok a → (place a).rb.capacity = r.rb.capacity → (place a).left ≤ r.left →
      Goes (place a) place' (k a)) : Goes r place' (run.bind k) := by
  cases run with
  | error e => exact h
  | ok a =>
    obtain ⟨hcap, hleft⟩ := h
    have hrest := hk a rfl hcap hleft
    dsimp only [Except.bind]
    cases hka : k a with
    | error e =>
      rw [hka] at hrest
      exact hrest
    | ok b =>
      rw [hka] at hrest
      exact ⟨hrest.1.trans hcap, hrest.2.trans hleft⟩

theorem map {k : α → β} (h : Goes r place run) (hk : ∀ a, (place' (k a)).rb = (place a).rb) :
    Goes r place' (run.map k) := by
  cases run with
  | error e => exact h
  | ok a =>
    change (place' (k a)).rb.capacity = _ ∧ (place' (k a)).rb.capacity - (place' (k a)).rb.cursor ≤ _
    rw [hk]
    exact h

theorem here {a : α} (h : (place a).rb = r.rb) : Goes r place (.ok a) := by
  change (place a).rb.capacity = _ ∧ (place a).rb.capacity - (place a).rb.cursor ≤ _
  rw [h]
  exact ⟨rfl, Nat.le_refl _⟩

theorem ok {a : α} (h : Goes r place (.ok a)) :
    (place a).rb.capacity = r.rb.capacity ∧ (place a).left ≤ r.left := h

end Goes

namespace Reader

variable {r : Reader}

/-! ## The reader -/

theorem readBinary_cases {rb : RBuffer} (size : Nat) (hcap : rb.capacity < 2 ^ 32) :
    rb.readBinary size = none ∨ rb.readBinary size = some (.badParams, [], rb) ∨
      ∃ bytes, rb.cursor + size ≤ rb.capacity ∧
        rb.readBinary size = some (.ok, bytes, { rb with cursor := rb.cursor + size }) := by
  rw [RBuffer.readBinary]
  split
  · by_cases hle : rb.cursor + size ≤ rb.capacity
    · have hsum : U32.add rb.cursor size = rb.cursor + size :=
        Nat.mod_eq_of_lt (Nat.lt_of_le_of_lt hle hcap)
      rw [RBuffer.load_cursor hle, hsum]
      exact .inr (.inr ⟨_, hle, rfl⟩)
    · rw [RBuffer.load, if_neg hle]
      exact .inl rfl
  · exact .inr (.inl rfl)

theorem readData_cases (size : Nat) (hcap : r.rb.capacity < 2 ^ 32) :
    r.readData size = .error .outside ∨
      (∃ ret, ret ≠ Ret.ok ∧ r.readData size = .ok (ret, [], r)) ∨
      ∃ bytes, r.rb.cursor < r.rb.capacity ∧ r.rb.cursor + size ≤ r.rb.capacity ∧
        r.readData size =
          .ok (.ok, bytes, { r with rb := { r.rb with cursor := r.rb.cursor + size } }) := by
  rw [readData]
  split
  · next hmore =>
    rcases readBinary_cases size hcap with h | h | ⟨bytes, hle, h⟩
    · rw [h]
      exact .inl rfl
    · rw [h]
      exact .inr (.inl ⟨.badParams, by decide, rfl⟩)
    · rw [h]
      exact .inr (.inr ⟨bytes, of_decide_eq_true hmore, hle, rfl⟩)
  · exact .inr (.inl ⟨.done, by decide, rfl⟩)

theorem readData_goes (size : Nat) (hcap : r.rb.capacity < 2 ^ 32) :
    Goes r (·.2.2) (r.readData size) := by
  rcases readData_cases size hcap with h | ⟨ret, -, h⟩ | ⟨bytes, -, hle, h⟩
  · rw [h]
    rfl
  · rw [h]
    exact .here rfl
  · rw [h]
    refine ⟨rfl, ?_⟩
    dsimp only [left]
    omega

theorem readText_goes (len : Int) (hcap : r.rb.capacity < 2 ^ 32) :
    Goes r (·.2.2) (r.readText len) := by
  rw [readText, strExtend]
  have hread : ∀ capacity, Goes r (·.2.2)
      (({ r with capacity }.readData (toU32 len)).bind fun a =>
        if a.1 = Ret.ok ∧ len < 0 then .error .outside else .ok (a.1, a.2.1, a.2.2)) := by
    intro capacity
    refine (readData_goes (r := { r with capacity }) (toU32 len) hcap).bind (r := r) fun a _ _ _ => ?_
    obtain ⟨ret, bytes, r'⟩ := a
    dsimp only
    split
    · rfl
    · exact .here rfl
  split
  · exact hread r.capacity
  · split
    · rfl
    · exact hread _

theorem readNumber_goes (n : Nat) (f : Nat → Value) (hcap : r.rb.capacity < 2 ^ 32) :
    Goes r (·.2) (r.readNumber n f) := by
  refine (readData_goes n hcap).bind fun a _ _ _ => ?_
  obtain ⟨ret, bytes, r'⟩ := a
  dsimp only
  split
  · exact .here rfl
  · exact .here rfl

theorem readString_goes (wide : Bool) (len : Int) (hcap : r.rb.capacity < 2 ^ 32) :
    Goes r (·.2) (r.readString wide len) := by
  refine (readText_goes len hcap).bind fun a _ _ _ => ?_
  dsimp only
  split
  · exact .here rfl
  · split
    · split
      · rfl
      · exact .here rfl
    · split
      · exact .here rfl
      · exact .here rfl

theorem readOptimizedArray_goes (type : UInt8) (count : Int) (hcap : r.rb.capacity < 2 ^ 32) :
    Goes r (·.2) (r.readOptimizedArray type count) := by
  refine (readText_goes _ hcap).bind fun a _ _ _ => ?_
  dsimp only
  split
  · exact .here rfl
  · split
    · rfl
    · exact .here rfl

theorem withLength_goes {read : Reader → Except Stop (Except Ret Item × Reader)}
    {next : Reader → Int → Except Stop (Except Ret Item × Reader)} (hread : Goes r (·.2) (read r))
    (hnext : ∀ r' len, r'.rb.capacity = r.rb.capacity → Goes r' (·.2) (next r' len)) :
    Goes r (·.2) (withLength read r next) := by
  refine hread.bind fun a _ hcap _ => ?_
  obtain ⟨item, r'⟩ := a
  cases item with
  | error e => exact .here rfl
  | ok item =>
    cases item with
    | value v => exact hnext r' _ hcap
    | token t => exact hnext r' _ hcap

/-- An item has a byte. -/
def Reads (r : Reader) (run : Except Stop (Except Ret Item × Reader)) : Prop :=
  Goes r (·.2) run ∧ ∀ item r', run = .ok (.ok item, r') → r'.left < r.left

theorem Goes.reads (r₁ : Reader) {run : Except Stop (Except Ret Item × Reader)}
    (h : Goes r₁ (·.2) run) (hcap : r₁.rb.capacity = r.rb.capacity) (hleft : r₁.left < r.left) :
    Reads r run := by
  cases run with
  | error e => exact ⟨h, fun _ _ h => by cases h⟩
  | ok a =>
    obtain ⟨hcap', hleft'⟩ := h.ok
    refine ⟨⟨hcap'.trans hcap, Nat.le_trans hleft' (Nat.le_of_lt hleft)⟩, ?_⟩
    intro item r' heq
    cases heq
    exact Nat.lt_of_le_of_lt hleft' hleft

theorem readLevels_reads : ∀ (n : Nat) {r : Reader}, r.rb.capacity < 2 ^ 32 → r.left < n →
    Reads r (r.readLevels n)
  | 0, _, _, hleft => absurd hleft (Nat.not_lt_zero _)
  | n + 1, r, hcap, hleft => by
    rw [readLevels.eq_def]
    dsimp only
    rcases readData_cases 1 hcap with h | ⟨ret, hret, h⟩ | ⟨bytes, hmore, hle, h⟩
    · rw [h]
      exact ⟨rfl, fun _ _ h => by cases h⟩
    · rw [h]
      dsimp only [Except.bind]
      rw [if_pos hret]
      exact ⟨.here rfl, fun _ _ h => by cases h⟩
    · rw [h]
      dsimp only [Except.bind]
      rw [if_neg (fun h => h rfl)]
      obtain ⟨r₁, hr₁⟩ : ∃ r₁ : Reader,
          r₁ = { r with rb := { r.rb with cursor := r.rb.cursor + 1 } } := ⟨_, rfl⟩
      rw [← hr₁]
      have hcap₁ : r₁.rb.capacity = r.rb.capacity := by rw [hr₁]
      have hcursor₁ : r₁.rb.cursor = r.rb.cursor + 1 := by rw [hr₁]
      have hlt : r₁.left < r.left := by
        rw [left, left, hcap₁, hcursor₁]
        omega
      refine Goes.reads r₁ ?_ hcap₁ hlt
      have hcap' : r₁.rb.capacity < 2 ^ 32 := hcap₁ ▸ hcap
      have hlevels := (readLevels_reads n hcap' (by omega)).1
      split
      -- The values and the marks without a length.
      all_goals first
        | exact .here rfl
        | exact readNumber_goes _ _ hcap'
        | skip
      · refine (readText_goes 1 hcap').bind fun a _ _ _ => ?_
        obtain ⟨ret, bytes, r'⟩ := a
        dsimp only
        split
        · exact .here rfl
        · exact .here rfl
      · exact withLength_goes hlevels fun r' len hr' =>
          readString_goes false len (hr' ▸ hcap')
      · exact withLength_goes hlevels fun r' len hr' =>
          readString_goes true len (hr' ▸ hcap')
      · refine (readData_goes 1 hcap').bind fun a _ _ _ => ?_
        obtain ⟨ret, bytes, r'⟩ := a
        dsimp only
        split
        · exact .here rfl
        · exact .here rfl
      · exact withLength_goes hlevels fun r' count hr' =>
          (readOptimizedArray_goes _ count (hr' ▸ hcap')).map fun _ => rfl

theorem read_reads (hcap : r.rb.capacity < 2 ^ 32) : Reads r r.read :=
  readLevels_reads _ hcap (Nat.lt_succ_self _)

end Reader

/-! ## The parser -/

namespace Parser

variable {σ : Type} {f : OnKeyValue σ} {p : Parser σ}

theorem read_goes (hcap : p.reader.rb.capacity < 2 ^ 32) :
    Goes p.reader (·.2.reader) p.read ∧
      ∀ item p', p.read = .ok (.ok item, p') → p'.reader.left < p.reader.left := by
  rw [read]
  split
  · exact ⟨.here rfl, fun _ _ h => by cases h⟩
  · obtain ⟨hgoes, hlt⟩ := Reader.read_reads hcap
    refine ⟨hgoes.map fun _ => rfl, ?_⟩
    intro item p' h
    obtain ⟨⟨item', r'⟩, hread, heq⟩ := map_ok h
    cases heq
    exact hlt _ _ hread

theorem readKey_goes (len : Int) (hcap : p.reader.rb.capacity < 2 ^ 32) :
    Goes p.reader (·.2.2.reader) (p.readKey len) := by
  have hread : ∀ capacity : Nat, Goes p.reader (·.2.2.reader)
      ((p.reader.readData (toU32 len)).bind fun a =>
        if a.1 = Ret.ok ∧ len < 0 then .error .outside
        else .ok (a.1, a.2.1.takeWhile (· ≠ 0), { p with capacity, reader := a.2.2 })) := by
    intro capacity
    refine (Reader.readData_goes (toU32 len) hcap).bind fun a _ _ _ => ?_
    obtain ⟨ret, bytes, r'⟩ := a
    dsimp only
    split
    · rfl
    · exact .here rfl
  rw [readKey, strExtend]
  split
  · exact hread p.capacity
  · split
    · rfl
    · exact hread _

/-- A call of the parser from places with less than so many bytes left. -/
def Terminates (n : Nat) (run : Parser σ → Except Stop (Ret × Parser σ)) : Prop :=
  ∀ p : Parser σ, p.reader.rb.capacity < 2 ^ 32 → p.reader.left < n →
    Goes p.reader (·.2.reader) (run p)

theorem parseKeyed_goes {n : Nat} {O A : Parser σ → Except Stop (Ret × Parser σ)} (key : Str)
    (hO : Terminates n O) (hA : Terminates n A) (hcap : p.reader.rb.capacity < 2 ^ 32)
    (hleft : p.reader.left < n) : Goes p.reader (·.2.reader) (parseKeyed f O A p key) := by
  refine (read_goes hcap).1.bind fun a _ hcap' hleft' => ?_
  obtain ⟨item, p'⟩ := a
  dsimp only at hcap' hleft'
  cases item with
  | error e => exact .here rfl
  | ok item =>
    cases item with
    | value v => exact .here rfl
    | token t =>
      dsimp only
      split
      · exact hA (p'.onKeyValue f _ _) (hcap' ▸ hcap) (Nat.lt_of_le_of_lt hleft' hleft)
      · split
        · exact hO (p'.onKeyValue f _ _) (hcap' ▸ hcap) (Nat.lt_of_le_of_lt hleft' hleft)
        · exact .here rfl

theorem containers_terminate : ∀ n, Terminates n (parseObject f n) ∧ Terminates n (parseArray f n)
  | 0 => ⟨fun _ _ h => absurd h (Nat.not_lt_zero _), fun _ _ h => absurd h (Nat.not_lt_zero _)⟩
  | n + 1 => by
    obtain ⟨hO, hA⟩ := containers_terminate n
    constructor
    · intro p hcap hleft
      rw [parseObject]
      refine (read_goes hcap).1.bind fun a hread hcap₁ _ => ?_
      obtain ⟨item, p₁⟩ := a
      dsimp only at hcap₁
      cases item with
      | error e => exact .here rfl
      | ok item =>
        have hlt := (read_goes hcap).2 _ _ hread
        cases item with
        | token t =>
          dsimp only
          split
          · exact .here rfl
          · exact .here rfl
        | value v =>
          dsimp only
          split
          · exact .here rfl
          · next len _ =>
            have hkey : Goes p₁.reader (·.2.reader)
                (parseKeyValue f (parseObject f n) (parseArray f n) p₁ len) := by
              refine (readKey_goes len (hcap₁ ▸ hcap)).bind fun a _ hcap₂ hleft₂ => ?_
              obtain ⟨ret, key, p₂⟩ := a
              dsimp only at hcap₂ hleft₂ ⊢
              split
              · exact .here rfl
              · exact parseKeyed_goes key hO hA (hcap₂ ▸ hcap₁ ▸ hcap) (by omega)
            refine hkey.bind fun a _ hcap₂ hleft₂ => ?_
            obtain ⟨ret, p₂⟩ := a
            dsimp only at hcap₂ hleft₂ ⊢
            split
            · exact hO p₂ (hcap₂ ▸ hcap₁ ▸ hcap) (by omega)
            · exact .here rfl
    · intro p hcap hleft
      rw [parseArray]
      refine (read_goes hcap).1.bind fun a hread hcap₁ _ => ?_
      obtain ⟨item, p₁⟩ := a
      dsimp only at hcap₁
      cases item with
      | error e => exact .here rfl
      | ok item =>
        have hlt := (read_goes hcap).2 _ _ hread
        have hcap' : p₁.reader.rb.capacity < 2 ^ 32 := hcap₁ ▸ hcap
        have hleft' : p₁.reader.left < n := Nat.lt_of_lt_of_le hlt (Nat.le_of_lt_succ hleft)
        cases item with
        | value v => exact hA (p₁.onKeyValue f none _) hcap' hleft'
        | token t =>
          dsimp only
          split
          · exact .here rfl
          · split
            · refine (hO (p₁.onKeyValue f none _) hcap' hleft').bind fun a _ hcap₂ hleft₂ => ?_
              obtain ⟨ret, p₂⟩ := a
              dsimp only at hcap₂ hleft₂ ⊢
              split
              · exact hA p₂ (hcap₂ ▸ hcap') (Nat.lt_of_le_of_lt hleft₂ hleft')
              · exact .here rfl
            · split
              · refine (hA (p₁.onKeyValue f none _) hcap' hleft').bind fun a _ hcap₂ hleft₂ => ?_
                exact hA a.2 (hcap₂ ▸ hcap') (Nat.lt_of_le_of_lt hleft₂ hleft')
              · refine (read_goes (p := p₁.onKeyValue f none _) hcap').1.bind fun a _ _ _ => ?_
                obtain ⟨item, p₂⟩ := a
                cases item with
                | error e => exact .here rfl
                | ok item => exact .here rfl

theorem init_left (data : List UInt8) (ctx : σ) : (init data ctx).reader.left = data.length := rfl

theorem parse_steps {data : List UInt8} (h : data.length < 2 ^ 32) (ctx : σ) :
    parse f data ctx ≠ .error .steps := by
  intro heq
  rw [parse] at heq
  split at heq
  · cases heq
  · have hgoes : Goes (init data ctx).reader (·.2.reader) (doParse f (data.length + 1) (init data ctx)) := by
      obtain ⟨hO, hA⟩ := containers_terminate (f := f) (data.length + 1)
      rw [doParse]
      refine (read_goes (p := init data ctx) h).1.bind fun a _ hcap hleft => ?_
      obtain ⟨item, p⟩ := a
      have hcap' : p.reader.rb.capacity < 2 ^ 32 := lt_of_eq_of_lt hcap h
      have hleft' : p.reader.left < data.length + 1 := Nat.lt_succ_of_le hleft
      cases item with
      | error e => exact .here rfl
      | ok item =>
        cases item with
        | value v => exact .here rfl
        | token t =>
          dsimp only
          split
          · exact hO (p.onKeyValue f none _) hcap' hleft'
          · split
            · exact hA (p.onKeyValue f none _) hcap' hleft'
            · exact .here rfl
    cases hrun : doParse f (data.length + 1) (init data ctx) with
    | error e =>
      rw [hrun] at hgoes heq
      cases hgoes
      cases heq
    | ok r =>
      rw [hrun] at heq
      cases heq

end Parser

/-- The parser stops for an access outside of the buffers only. -/
theorem Store.toObject_steps {H : Type} (S : Store H) {data : List UInt8} (h : data.length < 2 ^ 32)
    (heap : H) : S.toObject data heap ≠ .error .steps := by
  intro heq
  have hparse := Parser.parse_steps (f := S.onKeyValue) h (.init heap)
  rw [toObject] at heq
  cases hrun : parse S.onKeyValue data (.init heap) with
  | error e =>
    rw [hrun] at hparse heq
    cases heq
    exact hparse rfl
  | ok r =>
    rw [hrun] at heq
    cases heq

/-! ## Documents -/

namespace Source

variable {x y : Source}

/-- A source behind another one. -/
structure Behind (y x : Source) : Prop where
  capacity : y.reader.rb.capacity = x.reader.rb.capacity
  left : y.reader.left ≤ x.reader.left

theorem Behind.refl (x : Source) : x.Behind x := ⟨rfl, Nat.le_refl _⟩

theorem Behind.trans {z : Source} (h : z.Behind y) (h' : y.Behind x) : z.Behind x :=
  ⟨h.capacity.trans h'.capacity, h.left.trans h'.left⟩

theorem next_behind {l : Lexeme} (hcap : x.reader.rb.capacity < 2 ^ 32) (h : x.next = some (l, y)) :
    y.Behind x ∧ y.reader.left < x.reader.left := by
  obtain ⟨hread, -⟩ := next_spec h
  obtain ⟨hgoes, hlt⟩ := Reader.read_reads hcap
  rw [hread] at hgoes
  exact ⟨⟨hgoes.ok.1, hgoes.ok.2⟩, hlt _ _ hread⟩

theorem key_behind {len : Int} {key : Str} (hcap : x.reader.rb.capacity < 2 ^ 32)
    (h : x.key len = some (key, y)) : y.Behind x := by
  rw [Source.key] at h
  split at h
  · next capacity bytes reader _ hread =>
    split at h
    · cases h
      have hgoes := Reader.readData_goes (toU32 len) hcap
      rw [hread] at hgoes
      exact ⟨hgoes.ok.1, hgoes.ok.2⟩
    · cases h
  · cases h

theorem typed_behind {d : Document} (hcap : x.reader.rb.capacity < 2 ^ 32)
    (h : x.typed = some (d, y)) : y.Behind x := by
  rw [typed] at h
  split at h
  · next t z hnext =>
    have hz := (next_behind hcap hnext).1
    split at h
    · cases h
    · split at h
      · next data w hcount =>
        cases h
        exact (next_behind (hz.capacity ▸ hcap) hcount).1.trans hz
      · cases h
  · cases h

/-- So many steps are enough for what is read from here. -/
structure Enough (n : Nat) (x : Source) : Prop where
  items : ∀ n', x.reader.left < n' → Source.items n x = Source.items n' x
  members : ∀ n', x.reader.left < n' → Source.members n x = Source.members n' x
  itemsBehind : ∀ {ds y}, Source.items n x = some (ds, y) → y.Behind x
  membersBehind : ∀ {ms y}, Source.members n x = some (ms, y) → y.Behind x

theorem Enough.document {n n' : Nat} (h : x.Enough n) (hleft : x.reader.left < n') (l : Lexeme) :
    x.document (Source.items n) (Source.members n) l =
      x.document (Source.items n') (Source.members n') l := by
  rw [Source.document.eq_def, Source.document.eq_def, h.items n' hleft, h.members n' hleft]

theorem Enough.document_behind {n : Nat} {l : Lexeme} {d : Document} (h : x.Enough n)
    (hcap : x.reader.rb.capacity < 2 ^ 32)
    (hdoc : x.document (Source.items n) (Source.members n) l = some (d, y)) : y.Behind x := by
  rw [Source.document.eq_def] at hdoc
  split at hdoc
  · cases hdoc
    exact .refl x
  · split at hdoc
    · split at hdoc
      · exact typed_behind hcap hdoc
      · obtain ⟨⟨ds, z⟩, hds, heq⟩ := map_eq_some_iff.mp hdoc
        cases heq
        exact h.itemsBehind hds
    · split at hdoc
      · obtain ⟨⟨ms, z⟩, hms, heq⟩ := map_eq_some_iff.mp hdoc
        cases heq
        exact h.membersBehind hms
      · cases hdoc
  · cases hdoc

theorem enough : ∀ (n : Nat) {x : Source}, x.reader.rb.capacity < 2 ^ 32 → x.reader.left < n →
    x.Enough n
  | 0, _, _, h => absurd h (Nat.not_lt_zero _)
  | n + 1, x, hcap, hleft => by
    -- What is behind the next lexeme has less bytes.
    have hrest : ∀ {l : Lexeme} {x₁ x₂ : Source}, x.next = some (l, x₁) → x₂.Behind x₁ →
        x₂.Enough n ∧ x₂.Behind x ∧ x₂.reader.rb.capacity < 2 ^ 32 ∧
          ∀ m, x.reader.left < m + 1 → x₂.reader.left < m := by
      intro l x₁ x₂ hnext hx₂
      obtain ⟨hx₁, hlt⟩ := next_behind hcap hnext
      have hbehind := hx₂.trans hx₁
      have hcap₂ : x₂.reader.rb.capacity < 2 ^ 32 := hbehind.capacity ▸ hcap
      have hlt₂ := Nat.lt_of_le_of_lt hx₂.left hlt
      exact ⟨enough n hcap₂ (by omega), hbehind, hcap₂, fun m hm => by omega⟩
    constructor
    · intro n' hn'
      obtain ⟨m, rfl⟩ := Nat.exists_eq_add_one_of_ne_zero (Nat.ne_zero_of_lt hn')
      rw [Source.items, Source.items]
      refine Option.bind_congr fun a hnext => ?_
      obtain ⟨l, x₁⟩ := a
      obtain ⟨henough, -, hcap₁, hlt⟩ := hrest hnext (.refl x₁)
      dsimp only
      split
      · rfl
      · rw [← henough.document (hlt m hn') l]
        refine Option.bind_congr fun a hdoc => ?_
        obtain ⟨d, x₂⟩ := a
        obtain ⟨henough₂, -, -, hlt₂⟩ := hrest hnext (henough.document_behind hcap₁ hdoc)
        dsimp only
        rw [henough₂.items m (hlt₂ m hn')]
    · intro n' hn'
      obtain ⟨m, rfl⟩ := Nat.exists_eq_add_one_of_ne_zero (Nat.ne_zero_of_lt hn')
      rw [Source.members, Source.members]
      refine Option.bind_congr fun a hnext => ?_
      obtain ⟨l, x₁⟩ := a
      obtain ⟨-, -, hcap₁, -⟩ := hrest hnext (.refl x₁)
      cases l with
      | value v =>
        refine Option.bind_congr fun len _ => Option.bind_congr fun a hkey => ?_
        obtain ⟨key, x₂⟩ := a
        refine Option.bind_congr fun a hnext' => ?_
        obtain ⟨l, x₃⟩ := a
        have hx₂ := key_behind hcap₁ hkey
        have hx₃ := (next_behind (hx₂.capacity ▸ hcap₁) hnext').1.trans hx₂
        obtain ⟨henough, -, hcap₃, hlt⟩ := hrest hnext hx₃
        dsimp only
        rw [← henough.document (hlt m hn') l]
        refine Option.bind_congr fun a hdoc => ?_
        obtain ⟨d, x₄⟩ := a
        obtain ⟨henough₄, -, -, hlt₄⟩ := hrest hnext ((henough.document_behind hcap₃ hdoc).trans hx₃)
        dsimp only
        rw [henough₄.members m (hlt₄ m hn')]
      | mark t => rfl
      | type t => rfl
      | counted v => rfl
    · intro ds y h
      rw [Source.items] at h
      obtain ⟨⟨l, x₁⟩, hnext, h⟩ := bind_eq_some_iff.mp h
      obtain ⟨henough, hx₁, hcap₁, -⟩ := hrest hnext (.refl x₁)
      dsimp only at h
      split at h
      · cases h
        exact hx₁
      · obtain ⟨⟨d, x₂⟩, hdoc, h⟩ := bind_eq_some_iff.mp h
        obtain ⟨⟨ds', y'⟩, hds, heq⟩ := map_eq_some_iff.mp h
        cases heq
        obtain ⟨henough₂, hx₂, -, -⟩ := hrest hnext (henough.document_behind hcap₁ hdoc)
        exact (henough₂.itemsBehind hds).trans hx₂
    · intro ms y h
      rw [Source.members] at h
      obtain ⟨⟨l, x₁⟩, hnext, h⟩ := bind_eq_some_iff.mp h
      obtain ⟨-, hx₁, hcap₁, -⟩ := hrest hnext (.refl x₁)
      cases l with
      | value v =>
        obtain ⟨len, -, h⟩ := bind_eq_some_iff.mp h
        obtain ⟨⟨key, x₂⟩, hkey, h⟩ := bind_eq_some_iff.mp h
        obtain ⟨⟨l, x₃⟩, hnext', h⟩ := bind_eq_some_iff.mp h
        obtain ⟨⟨d, x₄⟩, hdoc, h⟩ := bind_eq_some_iff.mp h
        obtain ⟨⟨ms', y'⟩, hms, heq⟩ := map_eq_some_iff.mp h
        cases heq
        have hx₂ := key_behind hcap₁ hkey
        have hx₃ := (next_behind (hx₂.capacity ▸ hcap₁) hnext').1.trans hx₂
        obtain ⟨henough, -, hcap₃, -⟩ := hrest hnext hx₃
        obtain ⟨henough₄, hx₄, -, -⟩ := hrest hnext ((henough.document_behind hcap₃ hdoc).trans hx₃)
        exact (henough₄.membersBehind hms).trans hx₄
      | mark t =>
        dsimp only at h
        split at h
        · cases h
          exact hx₁
        · cases h
      | type t => cases h
      | counted v => cases h

end Source

/-- The steps of a document are enough. -/
theorem document_steps {data : List UInt8} (h : data.length < 2 ^ 32) {n : Nat} (hn : data.length ≤ n) :
    document data = (Source.init data).next.bind fun (lexeme, x) =>
      (x.document (Source.items n) (Source.members n) lexeme).map Prod.fst := by
  refine Option.bind_congr fun ⟨l, x⟩ hnext => ?_
  obtain ⟨hx, hlt⟩ := Source.next_behind h hnext
  have hlt' : x.reader.left < data.length := hlt
  dsimp only
  rw [(Source.enough data.length (hx.capacity ▸ h) hlt').document (Nat.lt_of_lt_of_le hlt' hn) l]

end Awtk.Ubjson
