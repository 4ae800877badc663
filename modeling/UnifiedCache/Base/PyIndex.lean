/-
  UnifiedCache.Base.PyIndex — an item of a Python list by a number that may be negative.

  From -1 down an index counts from the end; one past either end raises (`none`).

  - `pyGet_natCast`, `pyGet_neg`: the two directions.
  - `pyAt_eq_mod`: in a list of `n` the place of an index is its rest by `n`.
-/

import Mathlib.Data.List.Basic

namespace UnifiedCache.Base

variable {α : Type*}

/-- `l[i]`. -/
def pyGet (l : List α) (i : Int) : Option α :=
  if 0 ≤ i then l[i.toNat]? else if -i ≤ l.length then l[(l.length + i).toNat]? else none

theorem pyGet_natCast (l : List α) (i : Nat) : pyGet l i = l[i]? := by
  rw [pyGet, if_pos (Int.natCast_nonneg i), Int.toNat_natCast]

theorem pyGet_neg (l : List α) {i : Nat} (hi : 0 < i) (hle : i ≤ l.length) : pyGet l (-i) = l[l.length - i]? := by
  rw [pyGet, if_neg (by omega), if_pos (by omega)]
  congr 1
  omega

/-- Where `l[i]` is in a list of `n`. -/
def pyAt (n : Nat) (i : Int) : Option Nat :=
  if 0 ≤ i then (if i < n then some i.toNat else none) else if -i ≤ n then some (n + i).toNat else none

theorem pyAt_lt {n k : Nat} {i : Int} (h : pyAt n i = some k) : k < n := by
  unfold pyAt at h
  split at h
  · split at h
    · obtain rfl := Option.some.inj h
      omega
    · cases h
  · split at h
    · obtain rfl := Option.some.inj h
      omega
    · cases h

theorem pyAt_eq_mod {n : Nat} {i : Int} (hlo : -i ≤ n) (hhi : i < n) : pyAt n i = some ((n + i) % n).toNat := by
  by_cases h : 0 ≤ i
  · rw [pyAt, if_pos h, if_pos hhi, Int.add_emod_left, Int.emod_eq_of_lt h hhi]
  · rw [pyAt, if_neg h, if_pos hlo, Int.emod_eq_of_lt (by omega) (by omega)]

end UnifiedCache.Base
