/-
  UnifiedCache.Base.Strides — every `step`-th item of a list, as Python's `l[r::step]`.

  - `stride_getElem?`: its items, in order.
  - `stride_length_iff`: the strides of all ranks are of one length.
  - `strides_perm`: together they are the list.
-/

import Mathlib.Data.List.Perm.Basic
import Mathlib.Tactic.Common

namespace UnifiedCache.Base

variable {α : Type*}

/-- `l[r::step]`. -/
def stride (step : Nat) : Nat → List α → List α
  | _, [] => []
  | 0, a :: l => a :: stride step (step - 1) l
  | r + 1, _ :: l => stride step r l

theorem stride_getElem? {step : Nat} (hstep : 0 < step) (r : Nat) (l : List α) (j : Nat) :
    (stride step r l)[j]? = l[r + j * step]? := by
  induction l generalizing r j with
  | nil => simp [stride]
  | cons a l ih =>
    cases r with
    | zero =>
      cases j with
      | zero => simp [stride]
      | succ j =>
        have hplace : 0 + (j + 1) * step = step - 1 + j * step + 1 := by
          rw [Nat.add_mul]
          omega
        rw [stride, List.getElem?_cons_succ, ih, hplace, List.getElem?_cons_succ]
    | succ r =>
      have hplace : r + 1 + j * step = r + j * step + 1 := by omega
      rw [stride, ih, hplace, List.getElem?_cons_succ]

theorem lt_stride_length {step : Nat} (hstep : 0 < step) (r : Nat) (l : List α) (j : Nat) : j < (stride step r l).length ↔
    r + j * step < l.length := by
  have hget := stride_getElem? hstep r l j
  constructor
  · intro h
    rw [List.getElem?_eq_getElem h] at hget
    exact (List.getElem?_eq_some_iff.mp hget.symm).1
  · intro h
    rw [List.getElem?_eq_getElem h] at hget
    exact (List.getElem?_eq_some_iff.mp hget).1

/-- All ranks have `n` items just when there are `n` for each. -/
theorem stride_length_iff {step : Nat} (hstep : 0 < step) (l : List α) (n : Nat) :
    (∀ r, r < step → (stride step r l).length = n) ↔ l.length = n * step := by
  constructor
  · intro h
    have hlast : ¬ n < (stride step 0 l).length := by rw [h 0 hstep]; exact Nat.lt_irrefl n
    rw [lt_stride_length hstep, Nat.zero_add, Nat.not_lt] at hlast
    cases n with
    | zero => omega
    | succ n =>
      have hin : n < (stride step (step - 1) l).length := by rw [h (step - 1) (by omega)]; exact Nat.lt_succ_self n
      rw [lt_stride_length hstep] at hin
      rw [Nat.add_mul] at hlast ⊢
      omega
  · intro h r hr
    have hlt : ∀ j, j < (stride step r l).length ↔ j < n := by
      intro j
      rw [lt_stride_length hstep, h]
      constructor
      · intro hj
        exact Nat.lt_of_mul_lt_mul_right (Nat.lt_of_le_of_lt (Nat.le_add_left _ r) hj)
      · intro hj
        have hle := Nat.mul_le_mul_right step (Nat.succ_le_of_lt hj)
        rw [Nat.succ_mul] at hle
        omega
    exact Nat.le_antisymm (Nat.le_of_not_lt fun h' => Nat.lt_irrefl _ ((hlt n).mp h'))
      (Nat.le_of_not_lt fun h' => Nat.lt_irrefl _ ((hlt _).mpr h'))

theorem strides_perm {step : Nat} (hstep : 0 < step) (l : List α) :
    ((List.range step).flatMap fun r => stride step r l).Perm l := by
  obtain ⟨k, rfl⟩ : ∃ k, step = k + 1 := ⟨step - 1, by omega⟩
  induction l with
  | nil =>
    refine List.Perm.of_eq (List.flatMap_eq_nil_iff.mpr fun r _ => ?_)
    simp [stride]
  | cons a l ih =>
    have hfirst : ((List.range (k + 1)).flatMap fun r => stride (k + 1) r (a :: l)) =
        a :: (stride (k + 1) k l ++ (List.range k).flatMap fun r => stride (k + 1) r l) := by
      rw [List.range_succ_eq_map, List.flatMap_cons, List.flatMap_map]
      rfl
    rw [hfirst]
    refine (List.perm_append_comm.trans ?_).cons a
    have hlast : ((List.range (k + 1)).flatMap fun r => stride (k + 1) r l) =
        ((List.range k).flatMap fun r => stride (k + 1) r l) ++ stride (k + 1) k l := by
      rw [List.range_succ, List.flatMap_append, List.flatMap_singleton]
    exact hlast ▸ ih

end UnifiedCache.Base
