/-
  UnifiedCache.Base.OpenAddressing — open addressing with tombstones under linear probing.

  A table of `n` cells; a key's path starts at its home. `Addressed`: each key occupies a cell at
  most once, and no cell before it on its path is empty. So a search that has come to an empty
  cell, or all the way around, knows that the key is absent (`Addressed.absent`).

  - `Addressed.put`: an absent key goes to the first cell of its path that is not occupied, or to
    an earlier deleted one of it.
  - `Addressed.delete`: a cell becomes a tombstone.
-/

import Mathlib.Data.Nat.Find
import Mathlib.Logic.Function.Basic
import UnifiedCache.Base.Ring

namespace UnifiedCache.Base

inductive Cell (Key : Type) where
  | empty
  | occupied (key : Key)
  | deleted
  deriving DecidableEq, Repr

variable {Key : Type} {n : Nat} {home : Key → Nat} {cell : Nat → Cell Key}

structure Addressed (n : Nat) (home : Key → Nat) (cell : Nat → Cell Key) : Prop where
  path : ∀ i k, i < n → cell i = .occupied k →
    ∃ m < n, i = around n (home k) m ∧ ∀ j < m, cell (around n (home k) j) ≠ .empty
  unique : ∀ i j k, i < n → j < n → cell i = .occupied k → cell j = .occupied k → i = j

/-- The key occupies a cell. -/
def Holds (n : Nat) (cell : Nat → Cell Key) (k : Key) : Prop := ∃ i < n, cell i = .occupied k

/-- A search for the key from its home ends without it after `m` cells. -/
structure Missed (n : Nat) (home : Key → Nat) (cell : Nat → Cell Key) (k : Key) (m : Nat) : Prop where
  passed : ∀ j < m, cell (around n (home k) j) ≠ .occupied k
  ends : m = n ∨ cell (around n (home k) m) = .empty

theorem Addressed.absent (h : Addressed n home cell) {k : Key} {m : Nat} (hm : Missed n home cell k m) : ¬ Holds n cell k := by
  rintro ⟨i, hi, hk⟩
  obtain ⟨m', hm', rfl, hpath⟩ := h.path i k hi hk
  rcases lt_trichotomy m' m with hlt | rfl | hgt
  · exact hm.passed m' hlt hk
  · rcases hm.ends with heq | hempty
    · omega
    · rw [hk] at hempty
      cases hempty
  · rcases hm.ends with heq | hempty
    · omega
    · exact hpath m hgt hempty

theorem addressed_fresh : Addressed n home fun _ => .empty := ⟨nofun, nofun⟩

theorem not_holds_fresh (k : Key) : ¬ Holds n (fun _ => .empty) k := nofun

theorem Addressed.put (h : Addressed n home cell) {k : Key} (habsent : ¬ Holds n cell k) {m : Nat} (hm : m < n)
    (hpath : ∀ j < m, cell (around n (home k) j) ≠ .empty) :
    Addressed n home (Function.update cell (around n (home k) m) (.occupied k)) := by
  have hkeep : ∀ i, cell i ≠ .empty → Function.update cell (around n (home k) m) (.occupied k) i ≠ .empty := by
    intro i hne
    by_cases heq : i = around n (home k) m
    · rw [heq, Function.update_self]
      nofun
    · rw [Function.update_of_ne heq]
      exact hne
  have hnew : ∀ i k', i < n → Function.update cell (around n (home k) m) (.occupied k) i = .occupied k' →
      (i = around n (home k) m ∧ k' = k) ∨ (i ≠ around n (home k) m ∧ k' ≠ k ∧ cell i = .occupied k') := by
    intro i k' hi hk'
    by_cases heq : i = around n (home k) m
    · rw [heq, Function.update_self] at hk'
      exact .inl ⟨heq, (Cell.occupied.inj hk').symm⟩
    · rw [Function.update_of_ne heq] at hk'
      refine .inr ⟨heq, ?_, hk'⟩
      intro e
      subst e
      exact habsent ⟨i, hi, hk'⟩
  constructor
  · intro i k' hi hk'
    rcases hnew i k' hi hk' with ⟨rfl, rfl⟩ | ⟨_, _, hold⟩
    · exact ⟨m, hm, rfl, fun j hj => hkeep _ (hpath j hj)⟩
    · obtain ⟨m', hm', heq, hpath'⟩ := h.path i k' hi hold
      exact ⟨m', hm', heq, fun j hj => hkeep _ (hpath' j hj)⟩
  · intro i j k' hi hj hki hkj
    rcases hnew i k' hi hki with ⟨rfl, rfl⟩ | ⟨_, hne, holdi⟩
    · rcases hnew j _ hj hkj with ⟨rfl, _⟩ | ⟨_, hne, _⟩
      · rfl
      · exact absurd rfl hne
    · rcases hnew j k' hj hkj with ⟨_, rfl⟩ | ⟨_, _, holdj⟩
      · exact absurd rfl hne
      · exact h.unique i j k' hi hj holdi holdj

theorem holds_put {k k' : Key} {i : Nat} (hi : i < n) (hfree : ∀ k'', cell i ≠ .occupied k'') :
    Holds n (Function.update cell i (.occupied k)) k' ↔ k' = k ∨ Holds n cell k' := by
  constructor
  · rintro ⟨j, hj, hk'⟩
    by_cases heq : j = i
    · rw [heq, Function.update_self] at hk'
      exact .inl (Cell.occupied.inj hk').symm
    · rw [Function.update_of_ne heq] at hk'
      exact .inr ⟨j, hj, hk'⟩
  · rintro (rfl | ⟨j, hj, hk'⟩)
    · exact ⟨i, hi, Function.update_self ..⟩
    · refine ⟨j, hj, ?_⟩
      have hne : j ≠ i := by
        intro e
        subst e
        exact hfree k' hk'
      rw [Function.update_of_ne hne]
      exact hk'

theorem Addressed.delete (h : Addressed n home cell) (i : Nat) : Addressed n home (Function.update cell i .deleted) := by
  have hold : ∀ j k, Function.update cell i .deleted j = .occupied k → cell j = .occupied k := by
    intro j k hk
    by_cases heq : j = i
    · rw [heq, Function.update_self] at hk
      cases hk
    · rwa [Function.update_of_ne heq] at hk
  constructor
  · intro j k hj hk
    obtain ⟨m, hm, heq, hpath⟩ := h.path j k hj (hold j k hk)
    refine ⟨m, hm, heq, fun j' hj' => ?_⟩
    by_cases hi : around n (home k) j' = i
    · rw [hi, Function.update_self]
      nofun
    · rw [Function.update_of_ne hi]
      exact hpath j' hj'
  · intro j j' k hj hj' hk hk'
    exact h.unique j j' k hj hj' (hold j k hk) (hold j' k hk')

/-- The tombstone takes its key out, and no other. -/
theorem Addressed.holds_delete (h : Addressed n home cell) {i : Nat} {k k' : Key} (hi : i < n) (hk : cell i = .occupied k) :
    Holds n (Function.update cell i .deleted) k' ↔ k' ≠ k ∧ Holds n cell k' := by
  constructor
  · rintro ⟨j, hj, hk'⟩
    have hne : j ≠ i := by
      intro e
      subst e
      rw [Function.update_self] at hk'
      cases hk'
    rw [Function.update_of_ne hne] at hk'
    refine ⟨?_, j, hj, hk'⟩
    intro e
    subst e
    exact hne (h.unique j i k' hj hi hk' hk)
  · rintro ⟨hkk, j, hj, hk'⟩
    refine ⟨j, hj, ?_⟩
    have hne : j ≠ i := by
      intro e
      subst e
      rw [hk] at hk'
      exact hkk (Cell.occupied.inj hk').symm
    rw [Function.update_of_ne hne]
    exact hk'

/-- A table that has an empty cell has one on every path, the first with no empty one before it. -/
theorem exists_first_empty (home : Nat) (h : ∃ i < n, cell i = .empty) :
    ∃ m < n, cell (around n home m) = .empty ∧ ∀ j < m, cell (around n home j) ≠ .empty := by
  classical
  obtain ⟨i, hi, hempty⟩ := h
  obtain ⟨m, hm, rfl⟩ := exists_around home hi
  have hex : ∃ m, cell (around n home m) = .empty := ⟨m, hempty⟩
  refine ⟨Nat.find hex, ?_, Nat.find_spec hex, fun j hj => Nat.find_min hex hj⟩
  exact Nat.lt_of_le_of_lt (Nat.find_min' hex hempty) hm

end UnifiedCache.Base
