/-
  UnifiedCache.Base.Tally — how many of the first `n` things have a property, when one of them
  changes (`Nat.count` under a point change).

  This is what a counter of outstanding work is compared with: a unit that finishes lowers the
  tally by one (`tally_drop`), one that changes without finishing keeps it (`tally_congr`), and
  new units raise it by their number (`tally_add`).
-/

import Mathlib.Data.Nat.Count

namespace UnifiedCache.Base

variable {p q : Nat → Prop} [DecidablePred p] [DecidablePred q]

theorem tally_congr {n : Nat} (h : ∀ i, i < n → (p i ↔ q i)) : Nat.count p n = Nat.count q n :=
  Nat.le_antisymm (Nat.count_mono_left fun i hi => (h i hi).mp) (Nat.count_mono_left fun i hi => (h i hi).mpr)

/-- The thing at `k` loses the property. -/
theorem tally_drop {n k : Nat} (hk : k < n) (hp : p k) (hq : ¬ q k) (h : ∀ i, i < n → i ≠ k → (p i ↔ q i)) :
    Nat.count p n = Nat.count q n + 1 := by
  induction n with
  | zero => omega
  | succ n ih =>
    rw [Nat.count_succ, Nat.count_succ]
    by_cases hkn : k = n
    · subst hkn
      rw [if_pos hp, if_neg hq, tally_congr fun i hi => h i (by omega) (by omega)]
    · rw [ih (by omega) fun i hi => h i (by omega)]
      simp only [h n (Nat.lt_succ_self n) (Ne.symm hkn)]
      omega

/-- `k` new things, all with the property. -/
theorem tally_add {n k : Nat} (hold : ∀ i, i < n → (p i ↔ q i)) (hnew : ∀ i, n ≤ i → i < n + k → q i) :
    Nat.count q (n + k) = Nat.count p n + k := by
  rw [Nat.count_add, tally_congr hold, (Nat.count_iff_forall (n := k)).mpr fun i hi => hnew _ (by omega) (by omega)]

/-- `k` new things, none with the property. -/
theorem tally_skip {n k : Nat} (hold : ∀ i, i < n → (p i ↔ q i)) (hnew : ∀ i, n ≤ i → i < n + k → ¬ q i) :
    Nat.count q (n + k) = Nat.count p n := by
  rw [Nat.count_add, tally_congr hold, (Nat.count_iff_forall_not (n := k)).mpr fun i hi => hnew _ (by omega) (by omega),
    Nat.add_zero]

theorem not_of_tally_zero {n i : Nat} (h : Nat.count p n = 0) (hi : i < n) : ¬ p i := Nat.count_iff_forall_not.mp h i hi

theorem tally_pos {n i : Nat} (hi : i < n) (hp : p i) : 0 < Nat.count p n :=
  Nat.pos_of_ne_zero fun h => not_of_tally_zero h hi hp

theorem exists_of_tally_pos {n : Nat} (h : 0 < Nat.count p n) : ∃ i, i < n ∧ p i := by
  by_contra hno
  refine h.ne' (Nat.count_iff_forall_not.mpr fun i hi hp => hno ⟨i, hi, hp⟩)

end UnifiedCache.Base
