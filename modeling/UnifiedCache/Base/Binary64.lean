/-
  UnifiedCache.Base.Binary64 — natural numbers in double precision.

  A double has 53 significant bits; a natural number that needs more is rounded to the nearest that
  does not, a tie to the one whose last bit is 0. A product of a natural number and a double
  `m / 2^k` is `f64 (n * m) / 2^k`, as scaling by a power of two changes no significant bit.

  - `f64_mono`: rounding keeps the order.
  - `f64_mul_pow`: what has 53 bits is not changed.
-/

import Mathlib.Algebra.GroupWithZero.Nat
import Mathlib.Data.Nat.Log
import Mathlib.Tactic.Common

namespace UnifiedCache.Base

/-- The nearest multiple of `u`, the even one of two. -/
def roundHalfEven (u n : Nat) : Nat :=
  if 2 * (n % u) < u ∨ 2 * (n % u) = u ∧ n / u % 2 = 0 then n / u * u else (n / u + 1) * u

theorem roundHalfEven_le (u n : Nat) : roundHalfEven u n ≤ (n / u + 1) * u := by
  unfold roundHalfEven
  split
  · exact Nat.mul_le_mul_right u (Nat.le_succ _)
  · exact Nat.le_refl _

theorem le_roundHalfEven (u n : Nat) : n / u * u ≤ roundHalfEven u n := by
  unfold roundHalfEven
  split
  · exact Nat.le_refl _
  · exact Nat.mul_le_mul_right u (Nat.le_succ _)

theorem roundHalfEven_mono (u : Nat) {m n : Nat} (h : m ≤ n) : roundHalfEven u m ≤ roundHalfEven u n := by
  have hdiv : m / u ≤ n / u := Nat.div_le_div_right h
  by_cases hlt : m / u < n / u
  · calc roundHalfEven u m ≤ (m / u + 1) * u := roundHalfEven_le u m
      _ ≤ n / u * u := Nat.mul_le_mul_right u hlt
      _ ≤ roundHalfEven u n := le_roundHalfEven u n
  · have heq : n / u = m / u := by omega
    have hmod : m % u ≤ n % u := by
      have hm := Nat.div_add_mod m u
      have hn := Nat.div_add_mod n u
      rw [heq] at hn
      omega
    unfold roundHalfEven
    rw [heq]
    split
    · split
      · exact Nat.le_refl _
      · exact Nat.mul_le_mul_right u (Nat.le_succ _)
    · rw [if_neg (by omega)]

theorem roundHalfEven_mul {u : Nat} (hu : 0 < u) (q : Nat) : roundHalfEven u (q * u) = q * u := by
  unfold roundHalfEven
  rw [Nat.mul_mod_left, if_pos (.inl (by omega)), Nat.mul_div_cancel q hu]

/-- The last place of `n`. -/
def ulp (n : Nat) : Nat := 2 ^ (Nat.log 2 n - 52)

theorem ulp_pos (n : Nat) : 0 < ulp n := Nat.two_pow_pos _

/-- `n` in double precision. -/
def f64 (n : Nat) : Nat := roundHalfEven (ulp n) n

/-- A power of two up to which `n` reaches. -/
theorem f64_le_pow {n e : Nat} (h : n < 2 ^ e) : f64 n ≤ 2 ^ e := by
  by_cases hn : n = 0
  · subst hn
    exact Nat.zero_le _
  · have hlog : Nat.log 2 n < e := Nat.log_lt_of_lt_pow hn h
    have hdvd : ulp n ∣ 2 ^ e := Nat.pow_dvd_pow 2 (by omega)
    have hdiv : n / ulp n < 2 ^ e / ulp n := Nat.div_lt_div_of_lt_of_dvd hdvd h
    calc f64 n ≤ (n / ulp n + 1) * ulp n := roundHalfEven_le _ _
      _ ≤ 2 ^ e / ulp n * ulp n := Nat.mul_le_mul_right _ hdiv
      _ = 2 ^ e := Nat.div_mul_cancel hdvd

theorem pow_le_f64 {n e : Nat} (h : 2 ^ e ≤ n) : 2 ^ e ≤ f64 n := by
  have hn : n ≠ 0 := Nat.ne_of_gt (Nat.lt_of_lt_of_le (Nat.two_pow_pos e) h)
  have hlog : e ≤ Nat.log 2 n := (Nat.le_log_iff_pow_le (by decide) hn).mpr h
  have hdvd : ulp n ∣ 2 ^ Nat.log 2 n := Nat.pow_dvd_pow 2 (by omega)
  calc 2 ^ e ≤ 2 ^ Nat.log 2 n := Nat.pow_le_pow_right (by decide) hlog
    _ = 2 ^ Nat.log 2 n / ulp n * ulp n := (Nat.div_mul_cancel hdvd).symm
    _ ≤ n / ulp n * ulp n := Nat.mul_le_mul_right _ (Nat.div_le_div_right (Nat.pow_log_le_self 2 hn))
    _ ≤ f64 n := le_roundHalfEven _ _

/-- Within one power of two by `roundHalfEven_mono`; between two a power lies in between. -/
theorem f64_mono {m n : Nat} (h : m ≤ n) : f64 m ≤ f64 n := by
  by_cases heq : Nat.log 2 m = Nat.log 2 n
  · unfold f64 ulp
    rw [heq]
    exact roundHalfEven_mono _ h
  · have hle : Nat.log 2 m ≤ Nat.log 2 n := Nat.log_mono_right h
    have hn : n ≠ 0 := by
      intro h0
      rw [h0, Nat.log_zero_right] at heq hle
      omega
    calc f64 m ≤ 2 ^ (Nat.log 2 m + 1) := f64_le_pow (Nat.lt_pow_succ_log_self (by decide) m)
      _ ≤ 2 ^ Nat.log 2 n := Nat.pow_le_pow_right (by decide) (by omega)
      _ ≤ f64 n := pow_le_f64 (Nat.pow_log_le_self 2 hn)

theorem f64_mul_pow {n : Nat} (hn : n < 2 ^ 53) (k : Nat) : f64 (n * 2 ^ k) = n * 2 ^ k := by
  have hdvd : ulp (n * 2 ^ k) ∣ n * 2 ^ k := by
    by_cases h0 : n = 0
    · rw [h0, Nat.zero_mul]
      exact Nat.dvd_zero _
    · have hlt : n * 2 ^ k < 2 ^ (53 + k) := by
        rw [Nat.pow_add]
        exact Nat.mul_lt_mul_of_pos_right hn (Nat.two_pow_pos k)
      have hne : n * 2 ^ k ≠ 0 := Nat.mul_ne_zero h0 (Nat.ne_of_gt (Nat.two_pow_pos k))
      have hlog : Nat.log 2 (n * 2 ^ k) < 53 + k := Nat.log_lt_of_lt_pow hne hlt
      exact Nat.dvd_trans (Nat.pow_dvd_pow 2 (by omega)) (Nat.dvd_mul_left _ n)
  obtain ⟨q, hq⟩ := hdvd
  have hpos := ulp_pos (n * 2 ^ k)
  unfold f64
  generalize ulp (n * 2 ^ k) = u at hq hpos ⊢
  rw [hq, Nat.mul_comm u q, roundHalfEven_mul hpos]

theorem f64_eq_self {n : Nat} (hn : n < 2 ^ 53) : f64 n = n := by
  simpa using f64_mul_pow hn 0

end UnifiedCache.Base
