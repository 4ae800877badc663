/-
  UnifiedCache.Cache.PrefixLookup — `LookupOnPrefix` of the cache store is the prefix of its `Lookup`
  (see `UnifiedCache.Cache.Lookup`).

  The backend is asked about the blocks that the buffer does not have. Its prefix of these ends at the
  first block that neither has, and `missIdx` leads back to where that block is in the list
  (`missIdx_findIdx`). So both calls agree for every buffer and every backend that answers as a store
  should (`Backend.Answers`), errors apart (`prefix_of_lookup`).
-/

import UnifiedCache.Cache.Lookup

namespace UnifiedCache.Cache

variable {Block : Type}

/-- The backend's `Lookup` has one answer for each block, and its `LookupOnPrefix` is the leading run. -/
structure Backend.Answers (backend : Backend Block) (has : Block → Bool) : Prop where
  lookup : ∀ blocks, backend.lookup blocks = .ok (blocks.map has)
  lookupOnPrefix : ∀ blocks, backend.lookupOnPrefix blocks = .ok ((blocks.findIdx fun b => !has b : Nat) - 1)

section Lists

variable (cached has : Block → Bool)

/-- What `Lookup` in the buffer leaves, from index `i` on. -/
structure Misses (i : Nat) (blocks : List Block) (r : List Bool × List Block × List Nat) : Prop where
  results : r.1 = blocks.map cached
  length : r.2.2.length = r.2.1.length
  empty : r.2.1 = [] → ∀ b, b ∈ blocks → cached b = true

theorem lookupBuffer_misses (i : Nat) (blocks : List Block) :
    Misses cached i blocks (lookupBuffer (fun _ => cached) i blocks) := by
  induction blocks generalizing i with
  | nil => exact ⟨rfl, rfl, fun _ b hb => by cases hb⟩
  | cons block blocks ih =>
    have h := ih (i + 1)
    unfold lookupBuffer
    cases hit : cached block with
    | true =>
      refine ⟨?_, h.length, ?_⟩
      · simp [h.results, hit]
      · intro he b hb
        rcases List.mem_cons.mp hb with rfl | hb
        · exact hit
        · exact h.empty he b hb
    | false =>
      refine ⟨?_, ?_, ?_⟩
      · simp [h.results, hit]
      · simp [h.length]
      · intro he
        cases he

/-- The first miss that the backend has not is the first block that neither has. -/
theorem missIdx_findIdx (i : Nat) (blocks : List Block) :
    (lookupBuffer (fun _ => cached) i blocks).2.2[(lookupBuffer (fun _ => cached) i blocks).2.1.findIdx fun b => !has b]? =
      if (blocks.findIdx fun b => !cached b && !has b) = blocks.length then none
      else some (i + blocks.findIdx fun b => !cached b && !has b) := by
  induction blocks generalizing i with
  | nil => rfl
  | cons block blocks ih =>
    have h := ih (i + 1)
    unfold lookupBuffer
    cases hit : cached block with
    | true =>
      simp only [if_true, List.findIdx_cons, hit, Bool.not_true, Bool.false_and, List.length_cons, cond_false,
        Nat.add_right_cancel_iff]
      rw [h, Nat.add_right_comm, Nat.add_assoc]
    | false =>
      cases hhas : has block with
      | true =>
        simp only [Bool.false_eq_true, if_false, List.findIdx_cons, hit, hhas, Bool.not_false, Bool.not_true,
          Bool.and_false, cond_false,
          List.length_cons, List.getElem?_cons_succ, Nat.add_right_cancel_iff]
        rw [h, Nat.add_right_comm, Nat.add_assoc]
      | false => simp [List.findIdx_cons, hit, hhas]

/-- The backend's answers go where the misses are. -/
theorem fillResults_misses (i : Nat) (blocks : List Block) (before : List Bool) (hi : before.length = i) :
    fillResults (lookupBuffer (fun _ => cached) i blocks).2.2 ((lookupBuffer (fun _ => cached) i blocks).2.1.map has)
      (before ++ (lookupBuffer (fun _ => cached) i blocks).1) = before ++ blocks.map fun b => cached b || has b := by
  induction blocks generalizing i before with
  | nil => rfl
  | cons block blocks ih =>
    unfold lookupBuffer
    cases hit : cached block with
    | true =>
      have h := ih (i + 1) (before ++ [true]) (by simp [hi])
      rw [List.append_assoc, List.append_assoc] at h
      simpa [hit] using h
    | false =>
      have h := ih (i + 1) (before ++ [has block]) (by simp [hi])
      rw [List.append_assoc, List.append_assoc] at h
      have hset : (before ++ false :: (lookupBuffer (fun _ => cached) (i + 1) blocks).1).set i (has block) =
          before ++ has block :: (lookupBuffer (fun _ => cached) (i + 1) blocks).1 := by
        rw [List.set_append_right _ _ (Nat.le_of_eq hi), hi, Nat.sub_self, List.set_cons_zero]
      simp only [Bool.false_eq_true, if_false, List.map_cons, fillResults, hset, hit, Bool.false_or]
      exact h

end Lists

variable {cached has : Block → Bool} {backend : Backend Block}

theorem lookupFast_eq (hB : backend.Answers has) (blocks : List Block) :
    lookupFast backend (fun _ => cached) blocks = .ok (blocks.map fun b => cached b || has b) := by
  have hm := lookupBuffer_misses cached 0 blocks
  have hf := fillResults_misses cached has 0 blocks [] rfl
  unfold lookupFast
  generalize lookupBuffer (fun _ => cached) 0 blocks = r at hm hf
  obtain ⟨results, missBlk, missIdx⟩ := r
  dsimp only
  split
  · next hnone =>
    have hall := hm.empty (List.isEmpty_iff.mp hnone)
    rw [show results = blocks.map cached from hm.results]
    congr 1
    refine List.map_congr_left fun b hb => ?_
    rw [hall b hb, Bool.true_or]
  · rw [hB.lookup]
    dsimp only
    exact congrArg Except.ok hf

theorem lookupOnPrefixFast_eq (hB : backend.Answers has) (blocks : List Block) :
    lookupOnPrefixFast backend (fun _ => cached) blocks = .ok ((blocks.findIdx fun b => !cached b && !has b : Nat) - 1) := by
  have hm := lookupBuffer_misses cached 0 blocks
  have hf := missIdx_findIdx cached has 0 blocks
  unfold lookupOnPrefixFast
  generalize lookupBuffer (fun _ => cached) 0 blocks = r at hm hf
  obtain ⟨results, missBlk, missIdx⟩ := r
  have hlen : missIdx.length = missBlk.length := hm.length
  dsimp only at hf ⊢
  split
  · next hnone =>
    have hall := hm.empty (List.isEmpty_iff.mp hnone)
    rw [List.findIdx_eq_length_of_false fun b hb => by rw [hall b hb]; rfl]
  · rw [hB.lookupOnPrefix]
    dsimp only
    rw [show ((missBlk.findIdx fun b => !has b : Nat) - 1 + 1 : Int).toNat = missBlk.findIdx fun b => !has b by omega]
    split at hf
    · next hend =>
      -- every miss is with the backend
      have hle := List.getElem?_eq_none_iff.mp hf
      have hall : (missBlk.findIdx fun b => !has b) = missIdx.length :=
        Nat.le_antisymm (hlen ▸ List.findIdx_le_length) hle
      rw [if_pos hall, hend]
    · obtain ⟨hlt, hidx⟩ := List.getElem?_eq_some_iff.mp hf
      rw [if_neg (Nat.ne_of_lt hlt), ← List.getElem_eq_getD (h := hlt), hidx, Nat.zero_add]

/-- `LookupOnPrefix` is one less than the first index that is neither cached nor with the backend, which is
    where the leading run of
`Lookup` ends. -/
theorem prefix_of_lookup (hB : backend.Answers has) (blocks : List Block) :
    ∃ results, lookupFast backend (fun _ => cached) blocks = .ok results ∧
      lookupOnPrefixFast backend (fun _ => cached) blocks = .ok ((results.findIdx fun hit => !hit : Nat) - 1) ∧
      lookupOnPrefixFast backend (fun _ => cached) blocks = .ok ((blocks.findIdx fun b => !cached b && !has b : Nat) - 1) := by
  refine ⟨_, lookupFast_eq hB blocks, ?_, lookupOnPrefixFast_eq hB blocks⟩
  rw [lookupOnPrefixFast_eq hB, List.findIdx_map]
  congr 5
  funext b
  simp

/-- The second of three blocks is cached, the first is with the backend. -/
theorem prefix_of_lookup_mixed : ∃ results,
    lookupFast ⟨fun bs => .ok (bs.map (· == 0)), fun bs => .ok ((bs.findIdx fun b => !(b == 0) : Nat) - 1)⟩ (fun _ => (· == 1))
    [0, 1, 2] = .ok results ∧
      lookupOnPrefixFast ⟨fun bs => .ok (bs.map (· == 0)), fun bs => .ok ((bs.findIdx fun b => !(b == 0) : Nat) - 1)⟩
      (fun _ => (· == 1)) [0, 1, 2] =
        .ok ((results.findIdx fun hit => !hit : Nat) - 1) ∧
      lookupOnPrefixFast ⟨fun bs => .ok (bs.map (· == 0)), fun bs => .ok ((bs.findIdx fun b => !(b == 0) : Nat) - 1)⟩
      (fun _ => (· == 1)) [0, 1, 2] =
        .ok (([0, 1, 2].findIdx fun b => !(b == 1) && !(b == 0) : Nat) - 1) :=
  @prefix_of_lookup Nat (· == 1) (· == 0) _ ⟨fun _ => rfl, fun _ => rfl⟩ [0, 1, 2]

end UnifiedCache.Cache
