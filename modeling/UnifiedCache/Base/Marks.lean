/-
  UnifiedCache.Base.Marks — flags that are set one after another from the first.

  A prefix search that is reported element by element sets the flags of the prefix: flag `i` is set
  exactly if `i` is in it (`markFirst_getElem?`), and the leading run of set flags is the prefix
  (`markFirst_findIdx`).
-/

import Mathlib.Data.List.Basic

namespace UnifiedCache.Base

/-- `num` flags, of which the first `n` are set. -/
def markFirst (num n : Nat) : List Bool := (List.range n).foldl (fun flags i => flags.set i true) (List.replicate num false)

variable {num n : Nat}

theorem markFirst_succ (num n : Nat) : markFirst num (n + 1) = (markFirst num n).set n true := by
  unfold markFirst
  rw [List.range_succ, List.foldl_append, List.foldl_cons, List.foldl_nil]

theorem markFirst_length : (markFirst num n).length = num := by
  induction n with
  | zero => exact List.length_replicate
  | succ n ih => rw [markFirst_succ, List.length_set, ih]

theorem markFirst_getElem? {i : Nat} (hi : i < num) : (markFirst num n)[i]? = some (decide (i < n)) := by
  induction n with
  | zero =>
    change (List.replicate num false)[i]? = _
    rw [List.getElem?_replicate, if_pos hi, decide_eq_false (Nat.not_lt_zero i)]
  | succ n ih =>
    rw [markFirst_succ, List.getElem?_set]
    by_cases e : n = i
    · subst e
      rw [if_pos rfl, markFirst_length, if_pos hi, decide_eq_true (Nat.lt_succ_self n)]
    · rw [if_neg e, ih]
      congr 1
      rw [decide_eq_decide]
      omega

/-- The flags are what they should be exactly if those of the things come first. -/
theorem markFirst_eq_map {α : Type*} {l : List α} {p : α → Bool} :
    markFirst l.length n = l.map p ↔ ∀ (i : Nat) (a : α), l[i]? = some a → p a = decide (i < n) := by
  refine ⟨?_, ?_⟩
  · intro h i a ha
    have hi := (List.getElem?_eq_some_iff.mp ha).1
    have hat := markFirst_getElem? (n := n) hi
    rw [h, List.getElem?_map, ha] at hat
    exact Option.some.inj hat
  · intro h
    refine List.ext_getElem? fun i => ?_
    rw [List.getElem?_map]
    cases ha : l[i]? with
    | none =>
      rw [List.getElem?_eq_none_iff] at ha
      exact List.getElem?_eq_none (by rwa [markFirst_length])
    | some a =>
      rw [markFirst_getElem? (List.getElem?_eq_some_iff.mp ha).1, Option.map_some, h i a ha]

/-- The set flags are the leading run. -/
theorem markFirst_findIdx (hn : n ≤ num) : ((markFirst num n).findIdx fun flag => !flag) = n := by
  have hat : ∀ i, ∀ h : i < (markFirst num n).length, (markFirst num n)[i] = decide (i < n) := by
    intro i h
    have hi := markFirst_getElem? (n := n) (markFirst_length ▸ h)
    rw [List.getElem?_eq_getElem h] at hi
    exact Option.some.inj hi
  rcases Nat.lt_or_eq_of_le hn with hlt | rfl
  · rw [List.findIdx_eq (by rwa [markFirst_length])]
    refine ⟨?_, ?_⟩
    · rw [hat, decide_eq_false (Nat.lt_irrefl n)]
      rfl
    · intro j hj
      rw [hat, decide_eq_true hj]
      rfl
  · rw [List.findIdx_eq_length_of_false, markFirst_length]
    intro flag hmem
    obtain ⟨i, hi, rfl⟩ := List.getElem_of_mem hmem
    rw [hat, decide_eq_true (by rwa [markFirst_length] at hi)]
    rfl

end UnifiedCache.Base
