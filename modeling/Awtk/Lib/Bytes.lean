import Awtk.Lib.Ring

/-!
# Little-endian numbers

`ofNat n v` is the number `v` in `n` bytes, least significant first, and `toNat`
reads it back.  `load` and `store` do the same at an address of a memory.
-/

namespace Bytes

open List

/-- The low `n` bytes of `v`, least significant first. -/
def ofNat : Nat → Nat → List UInt8
  | 0, _ => []
  | n + 1, v => UInt8.ofNat v :: ofNat n (v / 256)

/-- The number whose bytes these are, least significant first. -/
def toNat : List UInt8 → Nat
  | [] => 0
  | b :: bs => b.toNat + 256 * toNat bs

@[simp] theorem ofNat_length : ∀ n v, (ofNat n v).length = n
  | 0, _ => rfl
  | n + 1, v => by rw [ofNat, length_cons, ofNat_length n]

theorem toNat_ofNat : ∀ n v, toNat (ofNat n v) = v % 256 ^ n
  | 0, v => by simp [ofNat, toNat, Nat.mod_one]
  | n + 1, v => by
    rw [ofNat, toNat, toNat_ofNat n, Nat.pow_succ', Nat.mod_mul]
    rfl

/-! ## In a memory -/

/-- The `n`-byte number at `a`. -/
def load (m : Nat → UInt8) (n a : Nat) : Nat := toNat (Ring.slice m a n)

/-- Put the `n`-byte number `v` at `a`. -/
def store (m : Nat → UInt8) (n a v : Nat) : Nat → UInt8 := Ring.blit m a (ofNat n v)

theorem load_store {n v : Nat} (m : Nat → UInt8) (a : Nat) (hv : v < 256 ^ n) :
    load (store m n a v) n a = v := by
  have hread := Ring.slice_blit m a (ofNat n v)
  rw [ofNat_length] at hread
  rw [load, store, hread, toNat_ofNat, Nat.mod_eq_of_lt hv]

theorem load_blit {m : Nat → UInt8} {n a o : Nat} {bs : List UInt8}
    (h : a + n ≤ o ∨ o + bs.length ≤ a) : load (Ring.blit m o bs) n a = load m n a := by
  refine congrArg toNat (map_congr_left fun i hi => Ring.blit_outside ?_)
  have := mem_range.mp hi
  omega

theorem load_store_of_disjoint {m : Nat → UInt8} {n k a o v : Nat}
    (h : a + n ≤ o ∨ o + k ≤ a) : load (store m k o v) n a = load m n a :=
  load_blit (by rwa [ofNat_length])

end Bytes
