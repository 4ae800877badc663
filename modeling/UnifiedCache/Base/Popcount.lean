/-
  UnifiedCache.Base.Popcount — the ones of a number, and the Hamming distance of two strings of bytes.

  The ones of a number can be counted in parts (`popcount_add`), so a word that is loaded from bytes has
  the ones of the bytes (`popcount_loaded`), and the distance of two strings is the sum of the distances
  of their parts (`hamming_append`).
-/

import Mathlib.Algebra.Ring.Nat
import Mathlib.Algebra.BigOperators.Group.List.Basic

namespace UnifiedCache.Base

/-- The ones among the lowest `w` bits. -/
def popcount : Nat → Nat → Nat
  | 0, _ => 0
  | w + 1, n => n % 2 + popcount w (n / 2)

variable {w v n : Nat}

theorem popcount_succ (w n : Nat) : popcount (w + 1) n = n % 2 + popcount w (n / 2) := rfl

@[simp] theorem popcount_zero (w : Nat) : popcount w 0 = 0 := by
  induction w with
  | zero => rfl
  | succ w ih =>
    rw [popcount_succ, Nat.zero_div, ih]

theorem popcount_le (w n : Nat) : popcount w n ≤ w := by
  induction w generalizing n with
  | zero => exact Nat.le_refl 0
  | succ w ih =>
    have hbit : n % 2 < 2 := Nat.mod_lt _ (by decide)
    have hrest := ih (n / 2)
    rw [popcount_succ]
    omega

theorem popcount_add (w v n : Nat) : popcount (w + v) n = popcount w n + popcount v (n / 2 ^ w) := by
  induction w generalizing n with
  | zero =>
    rw [Nat.zero_add, Nat.pow_zero, Nat.div_one]
    exact (Nat.zero_add _).symm
  | succ w ih =>
    rw [Nat.add_right_comm, popcount_succ, popcount_succ, ih, Nat.div_div_eq_div_mul, Nat.pow_succ', Nat.add_assoc]

theorem popcount_mod (w n : Nat) : popcount w (n % 2 ^ w) = popcount w n := by
  induction w generalizing n with
  | zero => rfl
  | succ w ih =>
    have hbit : n % 2 ^ (w + 1) % 2 = n % 2 := Nat.mod_mod_of_dvd n ⟨2 ^ w, by rw [Nat.pow_succ']⟩
    have hrest : n % 2 ^ (w + 1) / 2 = n / 2 % 2 ^ w := by
      rw [Nat.pow_succ', Nat.mod_mul_right_div_self]
    rw [popcount_succ, popcount_succ, hbit, hrest, ih]

/-- A number that fits has no ones above. -/
theorem popcount_of_lt (h : n < 2 ^ w) : popcount (w + v) n = popcount w n := by
  rw [popcount_add, Nat.div_eq_of_lt h, popcount_zero, Nat.add_zero]

/-! ## Bytes -/

/-- The word that is loaded from some bytes, the low byte first. -/
def loaded : List UInt8 → Nat
  | [] => 0
  | b :: l => b.toNat + 2 ^ 8 * loaded l

def byteOnes (b : UInt8) : Nat := popcount 8 b.toNat

theorem byteOnes_le (b : UInt8) : byteOnes b ≤ 8 := popcount_le 8 _

theorem popcount_loaded (l : List UInt8) : popcount (8 * l.length) (loaded l) = (l.map byteOnes).sum := by
  induction l with
  | nil => rfl
  | cons b l ih =>
    have hlow : popcount 8 (b.toNat + 2 ^ 8 * loaded l) = byteOnes b := by
      rw [← popcount_mod, Nat.add_mul_mod_self_left, popcount_mod]
      rfl
    have hhigh : (b.toNat + 2 ^ 8 * loaded l) / 2 ^ 8 = loaded l := by
      rw [Nat.add_mul_div_left _ _ (by decide), Nat.div_eq_of_lt b.toNat_lt, Nat.zero_add]
    rw [List.length_cons, List.map_cons, List.sum_cons, Nat.mul_succ, Nat.add_comm, loaded, popcount_add, hlow, hhigh, ih]

theorem sum_byteOnes_le (l : List UInt8) : (l.map byteOnes).sum ≤ 8 * l.length := by
  induction l with
  | nil => exact Nat.le_refl 0
  | cons b l ih =>
    have hb := byteOnes_le b
    rw [List.map_cons, List.sum_cons, List.length_cons]
    omega

/-! ## Distances -/

def xorBytes (a b : List UInt8) : List UInt8 := List.zipWith (fun x y => x ^^^ y) a b

def hamming (a b : List UInt8) : Nat := ((xorBytes a b).map byteOnes).sum

theorem length_xorBytes {a b : List UInt8} (h : a.length = b.length) : (xorBytes a b).length = a.length := by
  unfold xorBytes
  rw [List.length_zipWith, ← h, Nat.min_self]

theorem hamming_append {a b a' b' : List UInt8} (h : a.length = b.length) : hamming (a ++ a') (b ++ b') = hamming a b +
    hamming a' b' := by
  unfold hamming xorBytes
  rw [List.zipWith_append h, List.map_append, List.sum_append]

theorem hamming_le {a b : List UInt8} (h : a.length = b.length) : hamming a b ≤ 8 * a.length := by
  have hsum := sum_byteOnes_le (xorBytes a b)
  rw [length_xorBytes h] at hsum
  exact hsum

theorem hamming_take_drop {a b : List UInt8} (n : Nat) (h : a.length = b.length) :
    hamming a b = hamming (a.take n) (b.take n) + hamming (a.drop n) (b.drop n) := by
  rw [← hamming_append (by rw [List.length_take, List.length_take, h]), List.take_append_drop, List.take_append_drop]

end UnifiedCache.Base
