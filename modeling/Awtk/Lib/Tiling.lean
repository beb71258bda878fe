import Mathlib

/-!
# Tilings of an address range

A range of addresses is cut into pieces, each free or used.  `Tiles m lo ps hi`
says that the pieces `ps`, in address order, cover `[lo, hi)` without gap or
overlap and that each is at least `m` long.  `Coalesced` says that no two free
pieces touch.  An allocator cuts a piece in two, joins two pieces or changes
what a piece is used for, and the lemmas here say what each of these keeps.
-/

namespace Tiling

open List Option

/-- A piece of an address range. -/
structure Piece where
  addr : Nat
  size : Nat
  free : Bool
  deriving DecidableEq

/-- The address behind a piece. -/
def Piece.stop (p : Piece) : Nat := p.addr + p.size

/-- The pieces cover the addresses from `lo` up to `hi`. -/
def Tiles (m : Nat) : Nat → List Piece → Nat → Prop
  | lo, [], hi => lo = hi
  | lo, p :: ps, hi => p.addr = lo ∧ m ≤ p.size ∧ Tiles m p.stop ps hi

variable {m lo hi : Nat} {p q x : Piece} {l r ps : List Piece}

theorem tiles_cons :
    Tiles m lo (p :: ps) hi ↔ p.addr = lo ∧ m ≤ p.size ∧ Tiles m p.stop ps hi := Iff.rfl

theorem tiles_append :
    Tiles m lo (l ++ r) hi ↔ ∃ mid, Tiles m lo l mid ∧ Tiles m mid r hi := by
  induction l generalizing lo with
  | nil => simp [Tiles]
  | cons p l ih => simp only [cons_append, tiles_cons, ih, ← exists_and_left, and_assoc]

theorem tiles_mid : Tiles m lo (l ++ p :: r) hi ↔
    Tiles m lo l p.addr ∧ m ≤ p.size ∧ Tiles m p.stop r hi := by
  rw [tiles_append]
  constructor
  · rintro ⟨mid, hl, rfl, hm, hr⟩
    exact ⟨hl, hm, hr⟩
  · rintro ⟨hl, hm, hr⟩
    exact ⟨_, hl, rfl, hm, hr⟩

theorem Tiles.le : ∀ {ps : List Piece} {lo : Nat}, Tiles m lo ps hi → lo ≤ hi
  | [], _, h => Nat.le_of_eq h
  | p :: ps, lo, h => by
    have := h.2.2.le
    have := h.1
    unfold Piece.stop at *
    omega

theorem Tiles.mem (h : Tiles m lo ps hi) (hp : p ∈ ps) :
    lo ≤ p.addr ∧ m ≤ p.size ∧ p.stop ≤ hi := by
  obtain ⟨l, r, rfl⟩ := mem_iff_append.mp hp
  obtain ⟨hl, hm, hr⟩ := tiles_mid.mp h
  exact ⟨hl.le, hm, hr.le⟩

theorem Tiles.stop_le_of_mem (h : Tiles m lo (l ++ p :: r) hi) (hq : q ∈ l) : q.stop ≤ p.addr :=
  ((tiles_mid.mp h).1.mem hq).2.2

theorem Tiles.le_addr_of_mem (h : Tiles m lo (l ++ p :: r) hi) (hq : q ∈ r) : p.stop ≤ q.addr :=
  ((tiles_mid.mp h).2.2.mem hq).1

/-- Two pieces are the same or apart. -/
theorem Tiles.apart (h : Tiles m lo ps hi) (hp : p ∈ ps) (hq : q ∈ ps) :
    p = q ∨ p.stop ≤ q.addr ∨ q.stop ≤ p.addr := by
  obtain ⟨l, r, rfl⟩ := mem_iff_append.mp hp
  rcases mem_append.mp hq with hq | hq
  · exact .inr (.inr (h.stop_le_of_mem hq))
  · rcases mem_cons.mp hq with rfl | hq
    · exact .inl rfl
    · exact .inr (.inl (h.le_addr_of_mem hq))

theorem Tiles.length_le : ∀ {ps : List Piece} {lo : Nat}, Tiles m lo ps hi →
    lo + ps.length * m ≤ hi
  | [], _, h => by simpa using Nat.le_of_eq h
  | p :: ps, lo, h => by
    have := h.2.2.length_le
    have := h.1
    have := h.2.1
    rw [length_cons, Nat.succ_mul]
    unfold Piece.stop at *
    omega

theorem Tiles.sum_size : ∀ {ps : List Piece} {lo : Nat}, Tiles m lo ps hi →
    lo + (ps.map Piece.size).sum = hi
  | [], _, h => h
  | p :: ps, lo, h => by
    have := h.2.2.sum_size
    have := h.1
    rw [map_cons, sum_cons]
    unfold Piece.stop at *
    omega

/-! ## Edits -/

theorem Tiles.retag (h : Tiles m lo (l ++ p :: r) hi) (b : Bool) :
    Tiles m lo (l ++ { p with free := b } :: r) hi := by
  obtain ⟨hl, hm, hr⟩ := tiles_mid.mp h
  exact tiles_mid.mpr ⟨hl, hm, hr⟩

/-- Cut a piece in two. -/
theorem Tiles.split (h : Tiles m lo (l ++ p :: r) hi) {n : Nat} (b c : Bool) (hn : m ≤ n)
    (hrest : n + m ≤ p.size) :
    Tiles m lo (l ++ ⟨p.addr, n, b⟩ :: ⟨p.addr + n, p.size - n, c⟩ :: r) hi := by
  obtain ⟨hl, -, hr⟩ := tiles_mid.mp h
  refine tiles_mid.mpr ⟨hl, hn, rfl, by simp only; omega, ?_⟩
  have : Piece.stop ⟨p.addr + n, p.size - n, c⟩ = p.stop := by
    simp only [Piece.stop]
    omega
  rwa [this]

theorem Tiles.merge (h : Tiles m lo (l ++ p :: q :: r) hi) (b : Bool) :
    Tiles m lo (l ++ ⟨p.addr, p.size + q.size, b⟩ :: r) hi := by
  obtain ⟨hl, hm, hq, -, hr⟩ := tiles_mid.mp h
  refine tiles_mid.mpr ⟨hl, by simp only; omega, ?_⟩
  have : Piece.stop ⟨p.addr, p.size + q.size, b⟩ = q.stop := by
    simp only [Piece.stop] at hq ⊢
    omega
  rwa [this]

/-! ## Free and used pieces -/

/-- The addresses of the free pieces. -/
def freeAddrs (ps : List Piece) : List Nat := (ps.filter (·.free)).map (·.addr)

/-- The used pieces. -/
def used (ps : List Piece) : List Piece := ps.filter (!·.free)

@[simp] theorem freeAddrs_nil : freeAddrs [] = [] := rfl

@[simp] theorem freeAddrs_append : freeAddrs (l ++ r) = freeAddrs l ++ freeAddrs r := by
  simp [freeAddrs]

@[simp] theorem freeAddrs_cons_free (h : p.free = true) :
    freeAddrs (p :: ps) = p.addr :: freeAddrs ps := by
  simp [freeAddrs, h]

@[simp] theorem freeAddrs_cons_used (h : p.free = false) : freeAddrs (p :: ps) = freeAddrs ps := by
  simp [freeAddrs, h]

@[simp] theorem used_append : used (l ++ r) = used l ++ used r := by
  simp [used]

@[simp] theorem used_cons_free (h : p.free = true) : used (p :: ps) = used ps := by
  simp [used, h]

@[simp] theorem used_cons_used (h : p.free = false) : used (p :: ps) = p :: used ps := by
  simp [used, h]

theorem mem_freeAddrs {a : Nat} : a ∈ freeAddrs ps ↔ ∃ p ∈ ps, p.free = true ∧ p.addr = a := by
  simp [freeAddrs, and_assoc]

theorem mem_used : p ∈ used ps ↔ p ∈ ps ∧ p.free = false := by
  simp [used]

theorem freeAddrs_length_le (ps : List Piece) : (freeAddrs ps).length ≤ ps.length := by
  rw [freeAddrs, length_map]
  exact length_filter_le ..

theorem used_append_free_perm (ps : List Piece) :
    (used ps ++ ps.filter (·.free)).Perm ps :=
  (perm_append_comm).trans (filter_append_perm _ ps)

/-! ## Free pieces that do not touch -/

/-- No two free pieces are neighbours. -/
def Coalesced (ps : List Piece) : Prop := ps.IsChain fun p q => ¬ (p.free = true ∧ q.free = true)

/-- The last piece is free. -/
def EndsFree (l : List Piece) : Prop := ∃ p ∈ l.getLast?, p.free = true

/-- The first piece is free. -/
def StartsFree (r : List Piece) : Prop := ∃ p ∈ r.head?, p.free = true

theorem EndsFree.exists_concat (h : EndsFree l) : ∃ l' p, l = l' ++ [p] ∧ p.free = true := by
  obtain ⟨p, hp, hfree⟩ := h
  obtain ⟨l', rfl⟩ := getLast?_eq_some_iff.mp hp
  exact ⟨l', p, rfl, hfree⟩

theorem StartsFree.exists_cons (h : StartsFree r) : ∃ p r', r = p :: r' ∧ p.free = true := by
  obtain ⟨p, hp, hfree⟩ := h
  obtain ⟨r', rfl⟩ := head?_eq_some_iff.mp hp
  exact ⟨p, r', rfl, hfree⟩

theorem coalesced_mid : Coalesced (l ++ p :: r) ↔
    Coalesced l ∧ Coalesced r ∧ (p.free = true → ¬ EndsFree l ∧ ¬ StartsFree r) := by
  unfold Coalesced EndsFree StartsFree
  rw [isChain_append, isChain_cons]
  simp only [head?_cons, mem_def, some.injEq]
  constructor
  · rintro ⟨hl, ⟨hhead, hr⟩, hlast⟩
    refine ⟨hl, hr, fun hp => ⟨?_, ?_⟩⟩
    · rintro ⟨q, hq, hfree⟩
      exact hlast q hq p rfl ⟨hfree, hp⟩
    · rintro ⟨q, hq, hfree⟩
      exact hhead q hq ⟨hp, hfree⟩
  · rintro ⟨hl, hr, hp⟩
    refine ⟨hl, ⟨fun q hq h => (hp h.1).2 ⟨q, hq, h.2⟩, hr⟩, ?_⟩
    rintro q hq _ rfl h
    exact (hp h.2).1 ⟨q, hq, h.1⟩

theorem Tiles.stop_lt (h : Tiles m lo l hi) (hm : 0 < m) (hend : ¬ EndsFree l) (hq : q ∈ l)
    (hfree : q.free = true) : q.stop < hi := by
  obtain ⟨a, b, rfl⟩ := mem_iff_append.mp hq
  cases hb : b.getLast? with
  | none =>
      rw [getLast?_eq_none_iff.mp hb] at hend
      exact absurd ⟨q, by simp, hfree⟩ hend
  | some z =>
      have hz := mem_of_getLast? hb
      have := h.le_addr_of_mem hz
      have := h.mem (mem_append_right a (mem_cons_of_mem q hz))
      unfold Piece.stop at *
      omega

theorem Tiles.lt_addr (h : Tiles m lo r hi) (hm : 0 < m) (hstart : ¬ StartsFree r) (hq : q ∈ r)
    (hfree : q.free = true) : lo < q.addr := by
  cases r with
  | nil => cases hq
  | cons z r =>
      rcases mem_cons.mp hq with rfl | hq
      · exact absurd ⟨q, rfl, hfree⟩ hstart
      · have := (h.2.2.mem hq).1
        have := h.1
        have := h.2.1
        unfold Piece.stop at *
        omega

theorem Tiles.free_pairwise (hm : 0 < m) : ∀ {ps : List Piece} {lo : Nat}, Tiles m lo ps hi →
    Coalesced ps → (ps.filter (·.free)).Pairwise fun p q => p.stop < q.addr
  | [], _, _, _ => List.Pairwise.nil
  | p :: ps, lo, h, hc => by
    obtain ⟨-, hps, hp⟩ := coalesced_mid (l := []) |>.mp hc
    have ih := h.2.2.free_pairwise hm hps
    by_cases hfree : p.free = true
    · rw [filter_cons_of_pos hfree, pairwise_cons]
      refine ⟨fun q hq => ?_, ih⟩
      obtain ⟨hq, hqf⟩ := mem_filter.mp hq
      exact h.2.2.lt_addr hm (hp hfree).2 hq hqf
    · rwa [filter_cons_of_neg hfree]

theorem Tiles.single (h : Tiles m lo ps hi) (hc : Coalesced ps) (hlt : lo < hi)
    (hused : used ps = []) : ps = [⟨lo, hi - lo, true⟩] := by
  have hall : ∀ p ∈ ps, p.free = true := by
    intro p hp
    by_contra hne
    have : p ∈ used ps := mem_used.mpr ⟨hp, by simpa using hne⟩
    rw [hused] at this
    cases this
  match ps, h, hc, hall with
  | [], h, _, _ => exact absurd h hlt.ne
  | [p], h, _, hall =>
      obtain ⟨addr, size, free⟩ := p
      obtain rfl : free = true := hall _ (mem_singleton_self _)
      obtain ⟨rfl, -, h⟩ := h
      obtain rfl : _ = hi := h
      simp [Piece.stop]
  | p :: q :: ps, _, hc, hall =>
      have := (coalesced_mid (l := []) |>.mp hc).2.2 (hall p mem_cons_self)
      exact absurd ⟨q, rfl, hall q (by simp)⟩ this.2

end Tiling
