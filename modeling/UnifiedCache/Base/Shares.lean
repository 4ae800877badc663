/-
  UnifiedCache.Base.Shares — work that is split among ranks.

  Rank `r` of `t` has the share `[n*r/t, n*(r+1)/t)` of `n` items in order, or the items of a ring
  whose number is `r` modulo `t`.

  - `shares_tile`: the shares, one after the other, are all items in order.
  - `share_unique`: each item is in the share of one rank.
  - `flatMap_comm_perm`: what is gathered by ranks is what is gathered by items.
-/

import Mathlib.Data.List.Perm.Basic
import Mathlib.Logic.ExistsUnique
import Mathlib.Tactic.Common

namespace UnifiedCache.Base

variable {α β γ : Type*}

/-- Where the share of rank `r` begins, which is where that of rank `r - 1` ends. -/
def shareStart (n t r : Nat) : Nat := n * r / t

theorem shareStart_mono {n t r r' : Nat} (h : r ≤ r') : shareStart n t r ≤ shareStart n t r' :=
  Nat.div_le_div_right (Nat.mul_le_mul_left n h)

theorem shareStart_all {n t : Nat} (ht : 0 < t) : shareStart n t t = n := Nat.mul_div_cancel n ht

theorem shareStart_le {n t r : Nat} (ht : 0 < t) (hr : r ≤ t) : shareStart n t r ≤ n :=
  Nat.le_trans (shareStart_mono hr) (Nat.le_of_eq (shareStart_all ht))

/-- The share of rank `r`. -/
def share (n t r : Nat) : List Nat := List.range' (shareStart n t r) (shareStart n t (r + 1) - shareStart n t r)

theorem mem_share {n t r i : Nat} : i ∈ share n t r ↔ shareStart n t r ≤ i ∧ i < shareStart n t (r + 1) := by
  have hmono : shareStart n t r ≤ shareStart n t (r + 1) := shareStart_mono (Nat.le_succ r)
  rw [share, List.mem_range'_1]
  omega

theorem shares_upto (n t k : Nat) : (List.range k).flatMap (share n t) = List.range (shareStart n t k) := by
  induction k with
  | zero => simp [shareStart]
  | succ k ih =>
    have hmono : shareStart n t k ≤ shareStart n t (k + 1) := shareStart_mono (Nat.le_succ k)
    have happend := List.range'_append_1 (s := 0) (m := shareStart n t k) (n := shareStart n t (k + 1) - shareStart n t k)
    rw [Nat.zero_add, Nat.add_sub_cancel' hmono] at happend
    rw [List.range_succ, List.flatMap_append, ih, List.flatMap_singleton, share, List.range_eq_range',
      List.range_eq_range', happend]

theorem shares_tile {t : Nat} (ht : 0 < t) (n : Nat) : (List.range t).flatMap (share n t) = List.range n := by
  rw [shares_upto, shareStart_all ht]

theorem share_one (n : Nat) : share n 1 0 = List.range n := by
  simpa using shares_tile Nat.one_pos n

theorem share_unique {n t i : Nat} (ht : 0 < t) (hi : i < n) : ∃! r, r < t ∧ i ∈ share n t r := by
  have hmem : i ∈ (List.range t).flatMap (share n t) := by
    rw [shares_tile ht]
    exact List.mem_range.mpr hi
  obtain ⟨r, hr, hir⟩ := List.mem_flatMap.mp hmem
  refine ⟨r, ⟨List.mem_range.mp hr, hir⟩, fun r' ⟨_, hir'⟩ => ?_⟩
  obtain ⟨hstart, hend⟩ := mem_share.mp hir
  obtain ⟨hstart', hend'⟩ := mem_share.mp hir'
  rcases Nat.lt_trichotomy r r' with hlt | heq | hgt
  · have hle : shareStart n t (r + 1) ≤ shareStart n t r' := shareStart_mono hlt
    omega
  · exact heq.symm
  · have hle : shareStart n t (r' + 1) ≤ shareStart n t r := shareStart_mono hgt
    omega

/-- The ranks of a ring: item `k` goes to one of them. -/
theorem ring_flatMap {t : Nat} (ht : 0 < t) (k : Nat) (l : List α) :
    (List.range t).flatMap (fun r => if k % t = r then l else []) = l := by
  have hupto : ∀ m, (List.range m).flatMap (fun r => if k % t = r then l else []) = if k % t < m then l else [] := by
    intro m
    induction m with
    | zero => rfl
    | succ m ih =>
      rw [List.range_succ, List.flatMap_append, ih, List.flatMap_singleton]
      by_cases heq : k % t = m
      · rw [if_neg (by omega), if_pos heq, if_pos (by omega), List.nil_append]
      · rw [if_neg heq, List.append_nil]
        by_cases hlt : k % t < m
        · rw [if_pos hlt, if_pos (by omega)]
        · rw [if_neg hlt, if_neg (by omega)]
  rw [hupto, if_pos (Nat.mod_lt k ht)]

theorem flatMap_comm_perm (l : List α) (m : List β) (f : α → β → List γ) :
    (l.flatMap fun a => m.flatMap (f a)).Perm (m.flatMap fun b => l.flatMap fun a => f a b) := by
  induction l with
  | nil => simp
  | cons a l ih =>
    rw [List.flatMap_cons]
    have hmerge := (ih.append_left (m.flatMap (f a))).trans (List.flatMap_append_perm m (f a) fun b => l.flatMap fun a => f a b)
    simpa only [List.flatMap_cons] using hmerge

end UnifiedCache.Base
