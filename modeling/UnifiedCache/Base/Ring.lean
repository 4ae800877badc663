/-
  UnifiedCache.Base.Ring — the places of a ring, counted from one of them.

  `around n home m` is the place `m` steps on from `home` in a ring of `n` places. The first `n`
  are all the places, each once (`around_inj`, `exists_around`).
-/

import Mathlib.Data.Nat.ModEq

namespace UnifiedCache.Base

def around (n home m : Nat) : Nat := (home + m) % n

variable {n home : Nat}

theorem around_lt (hn : 0 < n) (m : Nat) : around n home m < n := Nat.mod_lt _ hn

theorem around_zero (hhome : home < n) : around n home 0 = home := Nat.mod_eq_of_lt hhome

theorem around_succ (m : Nat) : (around n home m + 1) % n = around n home (m + 1) := by
  unfold around
  rw [Nat.mod_add_mod, Nat.add_assoc]

theorem around_self (hhome : home < n) : around n home n = home := by
  unfold around
  rw [Nat.add_mod_right, Nat.mod_eq_of_lt hhome]

theorem around_inj {m m' : Nat} (hm : m < n) (hm' : m' < n) (h : around n home m = around n home m') : m = m' := by
  have hmod : m % n = m' % n := Nat.ModEq.add_left_cancel' home h
  rwa [Nat.mod_eq_of_lt hm, Nat.mod_eq_of_lt hm'] at hmod

/-- One round comes by every place. -/
theorem exists_around {i : Nat} (home : Nat) (hi : i < n) : ∃ m < n, around n home m = i := by
  have hn : 0 < n := by omega
  have hlt : home % n < n := Nat.mod_lt home hn
  have hmod : ∀ m, around n home m = (home % n + m) % n := fun m => (Nat.mod_add_mod ..).symm
  by_cases hle : home % n ≤ i
  · refine ⟨i - home % n, by omega, ?_⟩
    rw [hmod, Nat.add_sub_cancel' hle, Nat.mod_eq_of_lt hi]
  · refine ⟨i + n - home % n, by omega, ?_⟩
    have heq : home % n + (i + n - home % n) = i + n := by omega
    rw [hmod, heq, Nat.add_mod_right, Nat.mod_eq_of_lt hi]

end UnifiedCache.Base
