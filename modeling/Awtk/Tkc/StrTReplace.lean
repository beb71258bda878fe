import Awtk.Lib.Replace
import Awtk.Tkc.StrTText

/-!
# Replacing in a growable string

`str_replace_impl` renders the matches of the text by the new one, in the block itself if the new
one is not longer.  At each byte that is not part of a match it compares with all of the text, so
that the text may not be longer than what is left of the block there.
-/

namespace Awtk.StrT

open List Option

open Block (read write resize text)
open Replace (tokens render)

/-- Each comparison is inside of the block.  `room` bytes are behind the text. -/
def Compares (t : Str) (room : Nat) : List (Option UInt8) → Prop
  | [] => True
  | none :: toks => Compares t room toks
  | some _ :: toks => t.length ≤ (render t toks).length + 1 + room ∧ Compares t room toks

/-- A new text that is counted as longer has the room, and one that is not counted so is not
longer. -/
def ReplaceOk (memory : Nat → Bool) (s : StrT) (pos : Nat) (t newText : Str) : Prop :=
  ∀ str p, s.str = some str → pos < s.size → text str pos = some p → countSubStr p t ≠ 0 →
    let n := newText.length % 2 ^ 32
    let delta := I32.ofU32 (U32.sub n t.length)
    let size := s.size + countSubStr p t * n
    (delta ≤ 0 → n ≤ t.length) ∧
      (0 < delta → s.extendable = true → size + 1 < 2 ^ 32 + countSubStr p t * t.length ∧
        memory (size + 1 - countSubStr p t * t.length) = true) ∧
      (delta ≤ 0 ∨ s.extendable = true → Compares t (str.length - s.size) (tokens t 0 p))

section Loop

variable {t u p : Str}

theorem strstr_eq (t p : Str) : strstr t p = Replace.find t p := by
  induction p with
  | nil => rfl
  | cons c p ih =>
    rw [strstr, Replace.find, ih]
    simp only [ isPrefixOf_iff_prefix]

theorem countLoop_eq (ht : t ≠ []) : ∀ {fuel : Nat} {p : Str}, p.length < fuel →
    countLoop t t.length fuel p = (tokens t 0 p).count none
  | fuel + 1, p, hfuel => by
    rw [countLoop, strstr_eq, Replace.count_tokens ht]
    cases hfind : Replace.find t p with
    | none => rfl
    | some q =>
      obtain ⟨hsuffix, hprefix⟩ := Replace.find_suffix hfind
      have hpos := length_pos_of_ne_nil ht
      have hq := hsuffix.length_le
      have hle := hprefix.length_le
      simp only
      rw [countLoop_eq ht (by rw [length_drop]; omega)]

theorem count_le (ht : t ≠ []) (p : Str) : (tokens t 0 p).count none * t.length ≤ p.length := by
  have hlen := Replace.length_render t [] (tokens t 0 p)
  rw [Replace.render_tokens ht, length_nil, Nat.mul_zero] at hlen
  omega

theorem countSubStr_eq (hp : p.length < 2 ^ 32) (hcount : countSubStr p t ≠ 0) :
    t ≠ [] ∧ t.length < 2 ^ 32 ∧ countSubStr p t = (tokens t 0 p).count none := by
  rw [countSubStr] at hcount ⊢
  by_cases hmod : t.length % 2 ^ 32 = 0
  · simp only [hmod, if_true, ne_eq, not_true_eq_false] at hcount
  simp only [hmod, if_false] at hcount ⊢
  have ht : t ≠ [] := fun h => hmod (by rw [h]; rfl)
  have hlt : t.length < 2 ^ 32 := by
    cases hfind : strstr t p with
    | none =>
      rw [countLoop, hfind] at hcount
      exact absurd rfl hcount
    | some q =>
      rw [strstr_eq] at hfind
      obtain ⟨hsuffix, hprefix⟩ := Replace.find_suffix hfind
      have hq := hsuffix.length_le
      have hle := hprefix.length_le
      omega
  refine ⟨ht, hlt, ?_⟩
  have hle := count_le ht p
  have hpos := length_pos_of_ne_nil ht
  have hcle : (tokens t 0 p).count none ≤ (tokens t 0 p).count none * t.length :=
    Nat.le_mul_of_pos_right _ hpos
  rw [Nat.mod_eq_of_lt hlt, countLoop_eq ht (Nat.lt_succ_self _), Nat.mod_eq_of_lt (by omega)]

/-! ## The loop -/

theorem take_eq_iff {rest : Str} (ht : 0 ∉ t) :
    (p ++ 0 :: rest).take t.length = t ↔ t <+: p := by
  constructor
  · intro h
    have hpre : t <+: p ++ 0 :: rest := h ▸ take_prefix _ _
    by_cases hle : t.length ≤ p.length
    · exact prefix_of_prefix_length_le hpre (prefix_append _ _) hle
    · have hzero : p ++ [0] <+: p ++ 0 :: rest := ⟨rest, by rw [append_assoc]; rfl⟩
      have hsub := prefix_of_prefix_length_le hzero hpre
        (by rw [length_append, length_singleton]; omega)
      exact absurd (hsub.subset (mem_append_right _ (mem_singleton_self 0))) ht
  · rintro ⟨q, rfl⟩
    rw [append_assoc, take_left]

theorem write_parts {x m y z d : List UInt8} (h : d.length ≤ m.length + y.length) :
    ∃ m', write (x ++ (m ++ (y ++ z))) x.length d = some (x ++ d ++ (m' ++ z)) ∧
      d.length + m'.length = m.length + y.length := by
  refine ⟨(m ++ y).drop d.length, ?_, ?_⟩
  · rw [← append_assoc m, Block.write_at rfl (by simp only [length_append]; omega),
      drop_append_of_le_length (by rw [length_append]; exact h)]
    simp only [append_assoc]
  · rw [length_drop, length_append]
    omega

theorem getElem?_parts (x y z : List UInt8) (c : UInt8) :
    (x ++ (y ++ c :: z))[x.length + y.length]? = some c := by
  rw [← append_assoc, ← length_append, getElem?_append_right le_rfl, Nat.sub_self]
  rfl

theorem replaceLoop_turn {x y z dst : List UInt8} {c : UInt8} {same : Bool} {fuel j : Nat} (hc : c ≠ 0)
    (hlen : t.length ≤ (c :: z).length) :
    replaceLoop t u same (fuel + 1) dst (x ++ (y ++ c :: z)) (x.length + y.length) j =
      if (c :: z).take t.length = t then
        (write dst j u).bind fun dst => replaceLoop t u same fuel dst
          (if same then dst else x ++ (y ++ c :: z)) (x.length + y.length + t.length) (j + u.length)
      else
        (write dst j [c]).bind fun dst => replaceLoop t u same fuel dst
          (if same then dst else x ++ (y ++ c :: z)) (x.length + y.length + 1) (j + 1) := by
  have hread : read (x ++ (y ++ c :: z)) (x.length + y.length) t.length =
      some ((c :: z).take t.length) := by
    have hparts : x ++ (y ++ c :: z) =
        (x ++ y) ++ ((c :: z).take t.length ++ (c :: z).drop t.length) := by
      rw [take_append_drop, append_assoc]
    rw [hparts]
    exact Block.read_eq length_append (length_take_of_le hlen)
  rw [replaceLoop, getElem?_parts]
  simp only [bind_eq_bind, bind_some, if_neg hc, hread]

theorem replaceLoop_match (ht : t ≠ []) (ht0 : 0 ∉ t) {x y z : List UInt8} (dst : List UInt8)
    (same : Bool) (fuel j : Nat) :
    replaceLoop t u same (fuel + 1) dst (x ++ (y ++ (t ++ z))) (x.length + y.length) j =
      (write dst j u).bind fun dst => replaceLoop t u same fuel dst
        (if same then dst else x ++ (y ++ (t ++ z))) (x.length + y.length + t.length)
        (j + u.length) := by
  obtain ⟨c, w, hw⟩ : ∃ c w, t ++ z = c :: w := by
    cases t with
    | nil => exact absurd rfl ht
    | cons c t => exact ⟨c, t ++ z, rfl⟩
  have hc : c ≠ 0 := by
    rintro rfl
    cases t with
    | nil => exact ht rfl
    | cons d t =>
      rw [cons_append] at hw
      exact ht0 (head_eq_of_cons_eq hw ▸ mem_cons_self)
  have hlen : t.length ≤ (c :: w).length := by
    rw [← hw, length_append]
    omega
  rw [hw, replaceLoop_turn hc hlen, if_pos (by rw [← hw, take_left])]

theorem replaceLoop_value (ht0 : 0 ∉ t) {x y rest : List UInt8} {c : UInt8} (dst : List UInt8)
    (same : Bool) (fuel j : Nat) (h : ¬ t <+: c :: p) (hc : c ≠ 0) (hroom : t.length ≤ p.length + 1 + (rest.length + 1)) :
    replaceLoop t u same (fuel + 1) dst (x ++ (y ++ (c :: p ++ 0 :: rest))) (x.length + y.length) j =
      (write dst j [c]).bind fun dst => replaceLoop t u same fuel dst
        (if same then dst else x ++ (y ++ (c :: p ++ 0 :: rest))) (x.length + y.length + 1)
        (j + 1) := by
  have hlen : t.length ≤ (c :: (p ++ 0 :: rest)).length := by
    simp only [length_cons, length_append]
    omega
  have hne : ¬ (c :: (p ++ 0 :: rest)).take t.length = t := by
    rw [← cons_append, take_eq_iff ht0]
    exact h
  rw [cons_append, replaceLoop_turn hc hlen, if_neg hne]

/-- In the block itself, `mid` is between what is written and what is read. -/
theorem replaceLoop_same (ht : t ≠ []) (ht0 : 0 ∉ t) (hu : u.length ≤ t.length) (rest : Str) :
    ∀ (fuel : Nat) (x mid : Str), p.length < fuel → 0 ∉ p →
      Compares t (rest.length + 1) (tokens t 0 p) →
      ∃ rest', replaceLoop t u true fuel (x ++ (mid ++ (p ++ 0 :: rest)))
        (x ++ (mid ++ (p ++ 0 :: rest))) (x.length + mid.length) x.length =
          some (x ++ (render u (tokens t 0 p) ++ 0 :: rest'),
            x.length + (render u (tokens t 0 p)).length) ∧
        (render u (tokens t 0 p)).length + rest'.length = mid.length + p.length + rest.length := by
  induction p using Replace.text_induction ht with
  | nil =>
    intro fuel x mid hfuel _ _
    obtain ⟨fuel, rfl⟩ := Nat.exists_eq_add_of_lt hfuel
    obtain ⟨rest', hwrite, hlen⟩ := write_parts (x := x) (m := mid) (y := [0]) (z := rest)
      (d := [0]) (by simp)
    refine ⟨rest' ++ rest, ?_, ?_⟩
    · rw [nil_append, replaceLoop, getElem?_parts]
      simp only [bind_eq_bind, bind_some, if_true]
      rw [show mid ++ 0 :: rest = mid ++ ([0] ++ rest) from rfl, hwrite]
      simp [tokens]
    · simp only [tokens, Replace.render_nil, length_nil, length_append, length_cons] at hlen ⊢
      omega
  | matched p ih =>
    intro fuel x mid hfuel hp hc
    obtain ⟨fuel, rfl⟩ := Nat.exists_eq_add_of_lt hfuel
    rw [Replace.tokens_match ht] at hc ⊢
    obtain ⟨mid', hwrite, hlen⟩ := write_parts (x := x) (m := mid) (y := t) (z := p ++ 0 :: rest)
      (d := u) (by omega)
    obtain ⟨rest', hloop, hlen'⟩ := ih ((t ++ p).length + fuel) (x ++ u) mid'
      (by have := length_pos_of_ne_nil ht; rw [length_append]; omega)
      (fun hmem => hp (mem_append_right _ hmem)) hc
    refine ⟨rest', ?_, ?_⟩
    · rw [append_assoc t, replaceLoop_match ht ht0]
      simp only [hwrite, bind_some, if_true]
      have hi : x.length + mid.length + t.length = (x ++ u).length + mid'.length := by
        rw [length_append]
        omega
      rw [hi, (length_append : (x ++ u).length = _).symm, hloop, Replace.render_match]
      simp only [append_assoc, length_append, Nat.add_assoc]
    · rw [Replace.render_match, length_append, length_append]
      omega
  | value c p h ih =>
    intro fuel x mid hfuel hp hc
    obtain ⟨fuel, rfl⟩ := Nat.exists_eq_add_of_lt hfuel
    rw [Replace.tokens_value h] at hc ⊢
    obtain ⟨hroom, hc⟩ := hc
    rw [Replace.render_tokens ht] at hroom
    obtain ⟨mid', hwrite, hlen⟩ := write_parts (x := x) (m := mid) (y := [c]) (z := p ++ 0 :: rest)
      (d := [c]) (by simp)
    simp only [length_singleton] at hlen
    obtain ⟨rest', hloop, hlen'⟩ := ih ((c :: p).length + fuel) (x ++ [c]) mid'
      (by rw [length_cons]; omega) (fun hmem => hp (mem_cons_of_mem _ hmem)) hc
    refine ⟨rest', ?_, ?_⟩
    · rw [replaceLoop_value ht0 _ true _ _ h (fun h0 => hp (h0 ▸ mem_cons_self)) (by omega)]
      rw [show mid ++ (c :: p ++ 0 :: rest) = mid ++ ([c] ++ (p ++ 0 :: rest)) from rfl]
      simp only [hwrite, bind_some, if_true]
      have hi : x.length + mid.length + 1 = (x ++ [c]).length + mid'.length := by
        rw [length_append, length_singleton]
        omega
      rw [hi, show x.length + 1 = (x ++ [c]).length by rw [length_append, length_singleton],
        hloop, Replace.render_value]
      have hsize : (x ++ [c]).length + (render u (tokens t 0 p)).length =
          x.length + (c :: render u (tokens t 0 p)).length := by
        simp only [length_append, length_cons, length_nil]
        omega
      rw [hsize, append_assoc]
      rfl
    · rw [Replace.render_value, length_cons, length_cons]
      omega

/-- In another block, what is read stays. -/
theorem replaceLoop_other (u : Str) (ht : t ≠ []) (ht0 : 0 ∉ t) (rest : Str) :
    ∀ (fuel : Nat) (x pre junk : Str), p.length < fuel → 0 ∉ p →
      Compares t (rest.length + 1) (tokens t 0 p) →
      (render u (tokens t 0 p)).length < junk.length →
      ∃ rest', replaceLoop t u false fuel (x ++ junk) (pre ++ (p ++ 0 :: rest)) pre.length x.length =
          some (x ++ (render u (tokens t 0 p) ++ 0 :: rest'),
            x.length + (render u (tokens t 0 p)).length) ∧
        (render u (tokens t 0 p)).length + rest'.length + 1 = junk.length := by
  induction p using Replace.text_induction ht with
  | nil =>
    intro fuel x pre junk hfuel _ _ hjunk
    obtain ⟨fuel, rfl⟩ := Nat.exists_eq_add_of_lt hfuel
    obtain ⟨d, junk, rfl⟩ := exists_cons_of_length_pos (Nat.zero_lt_of_lt hjunk)
    refine ⟨junk, ?_, ?_⟩
    · have hread := getElem?_parts pre [] rest 0
      rw [length_nil, Nat.add_zero] at hread
      rw [replaceLoop, nil_append, ← nil_append (0 :: rest), hread]
      simp only [bind_eq_bind, bind_some, if_true]
      rw [Block.write_at rfl (by simp)]
      rfl
    · rw [length_cons]
      simp only [tokens, Replace.render_nil, length_nil]
      omega
  | matched p ih =>
    intro fuel x pre junk hfuel hp hc hjunk
    obtain ⟨fuel, rfl⟩ := Nat.exists_eq_add_of_lt hfuel
    rw [Replace.tokens_match ht] at hc hjunk ⊢
    rw [Replace.render_match, length_append] at hjunk
    have hdrop : (junk.drop u.length).length = junk.length - u.length := length_drop
    obtain ⟨rest', hloop, hlen⟩ := ih ((t ++ p).length + fuel) (x ++ u) (pre ++ t)
      (junk.drop u.length)
      (by have := length_pos_of_ne_nil ht; rw [length_append]; omega)
      (fun hmem => hp (mem_append_right _ hmem)) hc (by omega)
    refine ⟨rest', ?_, ?_⟩
    · have hturn := replaceLoop_match (u := u) ht ht0 (x := pre) (y := []) (z := p ++ 0 :: rest)
        (x ++ junk) false ((t ++ p).length + fuel) x.length
      simp only [length_nil, Nat.add_zero, nil_append] at hturn
      rw [append_assoc t, hturn, Block.write_at rfl (by omega)]
      simp only [bind_some, Bool.false_eq_true, if_false]
      rw [(length_append : (x ++ u).length = _).symm,
        (length_append : (pre ++ t).length = _).symm, ← append_assoc, ← append_assoc pre,
        hloop, Replace.render_match]
      simp only [append_assoc, length_append, Nat.add_assoc]
    · rw [Replace.render_match, length_append]
      omega
  | value c p h ih =>
    intro fuel x pre junk hfuel hp hc hjunk
    obtain ⟨fuel, rfl⟩ := Nat.exists_eq_add_of_lt hfuel
    rw [Replace.tokens_value h] at hc hjunk ⊢
    rw [Replace.render_value, length_cons] at hjunk
    obtain ⟨hroom, hc⟩ := hc
    rw [Replace.render_tokens ht] at hroom
    obtain ⟨d, junk, rfl⟩ := exists_cons_of_length_pos (Nat.zero_lt_of_lt hjunk)
    rw [length_cons] at hjunk
    obtain ⟨rest', hloop, hlen⟩ := ih ((c :: p).length + fuel) (x ++ [c])
      (pre ++ [c]) junk (by rw [length_cons]; omega)
      (fun hmem => hp (mem_cons_of_mem _ hmem)) hc (by omega)
    refine ⟨rest', ?_, ?_⟩
    · have hturn := replaceLoop_value (u := u) ht0 (x := pre) (y := []) (x ++ d :: junk) false
        ((c :: p).length + fuel) x.length h (fun h0 => hp (h0 ▸ mem_cons_self)) (by omega)
      simp only [length_nil, Nat.add_zero, nil_append] at hturn
      rw [hturn, Block.write_at rfl (by simp)]
      simp only [bind_some, Bool.false_eq_true, if_false]
      rw [show x.length + 1 = (x ++ [c]).length by rw [length_append, length_singleton],
        show pre.length + 1 = (pre ++ [c]).length by rw [length_append, length_singleton],
        ← append_assoc, show pre ++ (c :: p ++ 0 :: rest) = pre ++ [c] ++ (p ++ 0 :: rest) by simp]
      simp only [length_singleton, drop_succ_cons, drop_zero]
      rw [hloop, Replace.render_value]
      have hsize : (x ++ [c]).length + (render u (tokens t 0 p)).length =
          x.length + (c :: render u (tokens t 0 p)).length := by
        simp only [length_append, length_cons, length_nil]
        omega
      rw [hsize, append_assoc]
      rfl
    · rw [Replace.render_value, length_cons, length_cons]
      omega

end Loop

section Replace

variable {memory : Nat → Bool} {s : StrT} {t text' newText p : Str} {pos : Nat}

theorem replace_capacity (size count n : Nat) {len x : Nat} (hlen : len < 2 ^ 32)
    (hx : x + count * len = size + count * n + 1) (hlt : x < 2 ^ 32) :
    U32.add (U32.add size (U32.mul count (U32.sub n len))) 1 = x := by
  have hsum : size + count * (n + (2 ^ 32 - len)) + 1 = x + count * 2 ^ 32 := by
    have hmul : count * (n + (2 ^ 32 - len)) + count * len = count * n + count * 2 ^ 32 := by
      rw [← Nat.mul_add, ← Nat.mul_add]
      congr 1
      omega
    omega
  rw [U32.add_add, U32.mul, U32.sub, Nat.mod_eq_of_lt hlen, Nat.mul_mod_mod]
  calc (size + count * (n + (2 ^ 32 - len)) % 2 ^ 32 + 1) % 2 ^ 32
      = (size + count * (n + (2 ^ 32 - len)) + 1) % 2 ^ 32 := by
        rw [Nat.add_right_comm, Nat.add_mod_mod, Nat.add_right_comm]
    _ = x := by rw [hsum, Nat.add_mul_mod_self_right, Nat.mod_eq_of_lt hlt]

theorem replaceImpl_same (start rest : Str) (ht : t ≠ []) (ht0 : 0 ∉ t) (htlt : t.length < 2 ^ 32)
    (hu : newText.length % 2 ^ 32 ≤ t.length) (hp : 0 ∉ p)
    (hc : Compares t (rest.length + 1) (tokens t 0 p)) :
    let new := render (newText.take (newText.length % 2 ^ 32)) (tokens t 0 p)
    ∃ rest', replaceImpl true (start ++ (p ++ 0 :: rest)) (start ++ (p ++ 0 :: rest)) start.length t
        newText = some (start ++ (new ++ 0 :: rest'), start.length + new.length) ∧
      new.length + rest'.length = p.length + rest.length := by
  intro new
  have hn : (newText.take (newText.length % 2 ^ 32)).length ≤ t.length :=
    (length_take_le _ _).trans hu
  obtain ⟨rest', hloop, hlen⟩ := replaceLoop_same ht ht0 hn rest
    ((start ++ (p ++ 0 :: rest)).length + 1) start [] (by simp only [length_append]; omega) hp hc
  simp only [nil_append, length_nil, Nat.add_zero, Nat.zero_add] at hloop hlen
  refine ⟨rest', ?_, hlen⟩
  have hwrite : write (start ++ (p ++ 0 :: rest)) 0 start = some (start ++ (p ++ 0 :: rest)) :=
    Block.write_eq (x := []) rfl rfl
  simp only [replaceImpl, Nat.mod_eq_of_lt htlt, take_length, bind_eq_bind,
    Block.read_zero le_rfl, bind_some, hwrite, if_true, hloop]
  rfl

/-- The same in a block of its own, that has the room for the new text and no more. -/
theorem replaceImpl_other (start rest : Str) {capacity : Nat} (ht : t ≠ []) (ht0 : 0 ∉ t)
    (htlt : t.length < 2 ^ 32) (hp : 0 ∉ p) (hc : Compares t (rest.length + 1) (tokens t 0 p))
    (hcap : capacity = start.length +
      (render (newText.take (newText.length % 2 ^ 32)) (tokens t 0 p)).length + 1) :
    let new := render (newText.take (newText.length % 2 ^ 32)) (tokens t 0 p)
    replaceImpl false (List.replicate capacity 0) (start ++ (p ++ 0 :: rest)) start.length t newText =
      some (start ++ (new ++ [0]), start.length + new.length) := by
  intro new
  have hjunk : ((List.replicate capacity (0 : UInt8)).drop start.length).length = new.length + 1 := by
    rw [length_drop, length_replicate, hcap]
    show start.length + new.length + 1 - start.length = _
    omega
  obtain ⟨rest', hloop, hlen⟩ := replaceLoop_other (newText.take (newText.length % 2 ^ 32)) ht ht0
    rest ((start ++ (p ++ 0 :: rest)).length + 1) start start
    ((List.replicate capacity (0 : UInt8)).drop start.length)
    (by simp only [length_append]; omega) hp hc (hjunk ▸ Nat.lt_succ_self _)
  rw [hjunk] at hlen
  have hrest : rest' = [] := length_eq_zero_iff.mp (by
    change new.length + rest'.length + 1 = new.length + 1 at hlen
    omega)
  subst hrest
  have hwrite := Block.write_at (x := []) (y := List.replicate capacity (0 : UInt8)) (d := start) rfl
    (by rw [length_replicate]; omega)
  simp only [nil_append, length_nil] at hwrite
  simp only [replaceImpl, Nat.mod_eq_of_lt htlt, take_length, bind_eq_bind,
    Block.read_zero le_rfl, bind_some, hwrite, Bool.false_eq_true, if_false, hloop]
  rfl

/-- Each match behind `pos` becomes the new text, of which the length is of type `uint32_t`. -/
theorem replaceEx_gives (h : Text s text') (ht : 0 ∉ t) (hnew : 0 ∉ newText)
    (hok : ReplaceOk memory s pos t newText) :
    Gives (s.replaceEx memory pos t newText) text' ∨
      Gives (s.replaceEx memory pos t newText) (text'.take pos ++
        render (newText.take (newText.length % 2 ^ 32)) (tokens t 0 (text'.drop pos))) := by
  rcases h with ⟨hstr, hsize, hcap, rfl⟩ | ⟨rest, hs⟩
  · left
    simp only [replaceEx, hstr]
    exact .of_text (.inl ⟨hstr, hsize, hcap, rfl⟩) _
  simp only [replaceEx, hs.str]
  by_cases hbad : t = [] ∨ s.size ≤ pos
  · rw [if_pos hbad]
    exact .inl (.of_text hs.text _)
  rw [if_neg hbad]
  rw [not_or, Nat.not_le] at hbad
  obtain ⟨-, hpos⟩ := hbad
  have hpos' : pos < text'.length := hs.size ▸ hpos
  have hsplit : text' = text'.take pos ++ text'.drop pos := (take_append_drop _ _).symm
  have hstart : (text'.take pos).length = pos := length_take_of_le hpos'.le
  have hnul : 0 ∉ text'.take pos ∧ 0 ∉ text'.drop pos :=
    ⟨fun hm => hs.nul (mem_of_mem_take hm), fun hm => hs.nul (mem_of_mem_drop hm)⟩
  generalize text'.take pos = start at *
  generalize text'.drop pos = p at *
  subst hsplit
  have hroom := hs.room
  have hlt := hs.lt
  rw [length_append] at hroom
  rw [append_assoc, Block.text_eq hstart hnul.2]
  simp only [bind_eq_bind, bind_some]
  by_cases hcount : countSubStr p t = 0
  · rw [if_pos hcount]
    exact .inl (.of_text hs.text _)
  rw [if_neg hcount]
  have hp : p.length < 2 ^ 32 := by omega
  obtain ⟨htne, htlt, hcountEq⟩ := countSubStr_eq hp hcount
  obtain ⟨hdown, hup, hcompares⟩ := hok _ p hs.str hpos
    (by rw [append_assoc]; exact Block.text_eq hstart hnul.2) hcount
  have hblock : (start ++ p ++ 0 :: rest).length - s.size = rest.length + 1 := by
    rw [hs.size, length_append, length_cons]
    omega
  rw [hblock] at hcompares
  rw [Nat.mod_eq_of_lt htlt]
  have hnewNul : 0 ∉ start ++ render (newText.take (newText.length % 2 ^ 32)) (tokens t 0 p) := by
    intro hmem
    rcases mem_append.mp hmem with hmem | hmem
    · exact hnul.1 hmem
    · rcases Replace.mem_render hmem with hmem | hmem
      · exact hnew (mem_of_mem_take hmem)
      · have hmem' := Replace.mem_render_of_value (u := t) hmem
        rw [Replace.render_tokens htne] at hmem'
        exact hnul.2 hmem'
  have hlen := Replace.length_render t (newText.take (newText.length % 2 ^ 32)) (tokens t 0 p)
  rw [Replace.render_tokens htne, length_take_of_le (Nat.mod_le _ _), ← hcountEq] at hlen
  by_cases hdelta : I32.ofU32 (U32.sub (newText.length % 2 ^ 32) t.length) ≤ 0
  · rw [if_pos hdelta]
    right
    obtain ⟨rest', himpl, hlen'⟩ := replaceImpl_same start rest htne ht htlt (hdown hdelta)
      hnul.2 (hcompares (.inl hdelta))
    rw [hstart] at himpl
    simp only [himpl, bind_some]
    have hs' := hs.replace _ rest' hnewNul (by
        have hd := hdown hdelta
        have hmul : countSubStr p t * (newText.length % 2 ^ 32) ≤ countSubStr p t * t.length :=
          Nat.mul_le_mul_left _ hd
        rw [length_append]
        omega) (by simp only [length_append]; omega)
    rw [length_append, hstart, append_assoc] at hs'
    exact .of_text hs'.text _
  · rw [if_neg hdelta]
    by_cases hext : s.extendable = true
    · right
      rw [if_pos hext]
      obtain ⟨hroom', hmem⟩ := hup (Int.not_le.mp hdelta) hext
      have hsize := hs.size
      rw [length_append] at hsize
      have hX : s.size + countSubStr p t * (newText.length % 2 ^ 32) + 1 - countSubStr p t * t.length =
          start.length +
            (render (newText.take (newText.length % 2 ^ 32)) (tokens t 0 p)).length + 1 := by
        omega
      have hcapacity := replace_capacity s.size (countSubStr p t)
        (newText.length % 2 ^ 32) (x := s.size + countSubStr p t * (newText.length % 2 ^ 32) + 1 -
          countSubStr p t * t.length) htlt (by omega) (by omega)
      have himpl := replaceImpl_other start rest htne ht htlt hnul.2 (hcompares (.inr hext)) hX
      rw [hstart] at himpl
      rw [hcapacity, if_pos hmem, himpl]
      simp only [bind_some]
      rw [← append_assoc, hX]
      refine .of_text (.inr ⟨[], rfl, ?_, hnewNul, ?_, ?_, ?_⟩) _
      · rw [length_append, hstart]
      · rw [length_append]
        exact Nat.lt_succ_self _
      · rw [length_append]
        exact le_rfl
      · show start.length + (render _ (tokens t 0 p)).length + 1 < 2 ^ 32
        omega
    · rw [if_neg hext]
      exact .inl (.of_text hs.text _)

end Replace

end Awtk.StrT
