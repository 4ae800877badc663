/-
  UnifiedCache.Posix.LookupResults — `Lookup` of the Posix store (ucm/store/posix/cc/space_manager.cc)
  and what a store's `Lookup` answers (ucm/store/ucmstore_v1.h).

  The code marks the prefix that `LookupOnPrefix` has found. A block that is there after one that is not
  is reported absent (`gap_not_reported`): the answer has one right entry for each block exactly if the
  blocks that are there come first (`lookup_elementwise_iff`).
-/

import UnifiedCache.Base.Marks
import UnifiedCache.Posix.Lookup

namespace UnifiedCache.Posix

open UnifiedCache.Base

/-- `Lookup` of `num` blocks, where `LookupOnPrefix` has answered `index`. -/
def lookupResults (num : Nat) (index : Int) : List Bool := markFirst num (index + 1).toNat

/-- One entry for each block, true for those that are there. -/
def Elementwise (num : Nat) (present : Nat → Bool) (results : List Bool) : Prop :=
  results.length = num ∧ ∀ i, i < num → results[i]? = some (present i)

variable {nWorker num : Nat} {present : Nat → Bool} {s : PrefixLookup} {r : Int}

theorem lookupResults_getElem? {i : Nat} (hi : i < num) : (lookupResults num r)[i]? = some (decide ((i : Int) ≤ r)) := by
  unfold lookupResults
  rw [markFirst_getElem? hi]
  congr 1
  rw [decide_eq_decide]
  omega

/-- The marked entries are a leading run. -/
theorem lookupResults_findIdx (hlow : -1 ≤ r) (hhigh : r < num) :
    ((lookupResults num r).findIdx fun hit => !hit : Nat) = r + 1 := by
  unfold lookupResults
  rw [markFirst_findIdx (by omega)]
  omega

/-- Where `LookupOnPrefix` answers, `Lookup` is elementwise, and the prefix is its leading run, exactly if no
    block is there after one that
is not. -/
theorem lookup_elementwise_iff (hn : 0 < nWorker) (h : Reach (prefixLookup nWorker num present) Reported s)
    (hr : s.caller = .returned (.ok r)) :
    (Elementwise num present (lookupResults num r) ∧ r = ((lookupResults num r).findIdx fun hit => !hit : Nat) - 1) ↔
      ∀ i j, i < j → j < num → present j = true → present i = true := by
  have hexact : -1 ≤ r ∧ r < num ∧ (∀ i : Nat, (i : Int) ≤ r → i < num ∧ present i = true) ∧ ∀ i : Nat, (i : Int) = r + 1 →
      i < num → present i = false := by
    rcases (prefixInv hn h).returned r hr with ⟨hz, rfl⟩ | ⟨f, rfl, hf, hnext, hall⟩
    · refine ⟨by omega, by omega, ?_, ?_⟩
      · intro i hi
        omega
      · intro i hi hlt
        omega
    · refine ⟨by omega, by omega, ?_, ?_⟩
      · intro i hi
        exact ⟨by omega, (hall i (by omega)).1⟩
      · intro i hi hlt
        obtain rfl : i = f := by omega
        exact hnext hlt
  obtain ⟨hlow, hhigh, hhit, hmiss⟩ := hexact
  have hrun := lookupResults_findIdx hlow hhigh
  refine ⟨?_, ?_⟩
  · intro hel i j hij hj hp
    have hjr := hel.1.2 j hj
    rw [lookupResults_getElem? hj, hp, Option.some.injEq, decide_eq_true_iff] at hjr
    exact (hhit i (by omega)).2
  · intro hdown
    refine ⟨⟨markFirst_length, ?_⟩, by omega⟩
    intro i hi
    rw [lookupResults_getElem? hi]
    congr 1
    by_cases hle : (i : Int) ≤ r
    · rw [decide_eq_true hle, (hhit i hle).2]
    · rw [decide_eq_false hle]
      -- the first block that is not there is not after this one
      have hfirst := hmiss (r + 1).toNat (by omega) (by omega)
      cases hp : present i with
      | false => rfl
      | true =>
        rcases Nat.lt_or_eq_of_le (show (r + 1).toNat ≤ i by omega) with hlt | e
        · rw [hdown _ i hlt hi hp] at hfirst
          cases hfirst
        · rw [e, hp] at hfirst
          cases hfirst

/-- A run of one worker over three blocks. -/
def threeBlocks : List LookupLabel :=
  [.push, .push, .take 0, .run 0 false, .run 0 false, .run 0 false, .run 0 false, .run 0 false, .run 0 false,
    .run 0 false, .run 0 false,
    .run 0 false, .call, .call, .call]

/-- The last of three blocks is there, the second is not: only the first is reported. -/
theorem gap_not_reported : ∃ s, Reach (prefixLookup 1 3 fun i => i ≠ 1) Reported s ∧ s.caller = .returned (.ok 0) ∧
    ¬Elementwise 3 (fun i => i ≠ 1) (lookupResults 3 0) := by
  obtain ⟨s, hs, hp⟩ := exists_of_replayOk (S := prefixLookup 1 3 fun i => i ≠ 1) (fun s l => decide (Reported s l))
      (fun _ _ => of_decide_eq_true)
    threeBlocks (s := ⟨.pushing 0, fun _ => .unpushed, fun _ => .none, 3, .ok, 1, fun _ => false⟩)
    (p := fun s => match s.caller with | .returned (.ok r) => r = 0 | _ => false)
    ⟨rfl, fun _ => rfl, fun _ => rfl, rfl, rfl, rfl⟩ (by decide)
  refine ⟨s, hs, ?_, fun he => ?_⟩
  · split at hp
    · next r he => rw [he, of_decide_eq_true hp]
    · cases hp
  · have h2 := he.2 2 (by decide)
    revert h2
    decide

/-- A block that is there before one that is not. -/
theorem lookup_elementwise_prefix : ∃ s, Reach (prefixLookup 1 2 fun i => i = 0) Reported s ∧
    Elementwise 2 (fun i => i = 0) (lookupResults 2 0) := by
  obtain ⟨s, hs, hp⟩ := exists_of_replayOk (S := prefixLookup 1 2 fun i => i = 0) (fun s l => decide (Reported s l))
      (fun _ _ => of_decide_eq_true)
    threeBlocks (s := ⟨.pushing 0, fun _ => .unpushed, fun _ => .none, 2, .ok, 1, fun _ => false⟩)
    (p := fun s => match s.caller with | .returned (.ok r) => r = 0 | _ => false)
    ⟨rfl, fun _ => rfl, fun _ => rfl, rfl, rfl, rfl⟩ (by decide)
  have hr : s.caller = .returned (.ok 0) := by
    split at hp
    · next r he => rw [he, of_decide_eq_true hp]
    · cases hp
  refine ⟨s, hs, ((lookup_elementwise_iff (by decide) hs hr).mpr ?_).1⟩
  intro i j hij hj hp
  simp only [decide_eq_true_eq] at hp ⊢
  omega

end UnifiedCache.Posix
