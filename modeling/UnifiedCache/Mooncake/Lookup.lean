/-
  UnifiedCache.Mooncake.Lookup — `Lookup` and `LookupOnPrefix` of the Mooncake store
  (ucm/store/mooncakestore/cc/mooncake_store.cc).

  The remote prefix is followed by the backend's prefix of the rest. A block that only the remote has,
  after one that only the backend has, ends the answer (`remote_after_backend`). And `Lookup` marks that
  prefix: what is there after it is reported absent. The two answers are those of the union of the tiers
  exactly if the list is a run of remote blocks, then one of blocks of the backend, then blocks of
  neither (`lookup_union_iff`).
-/

import UnifiedCache.Base.Marks
import UnifiedCache.Mooncake.ShareBuffer

namespace UnifiedCache.Mooncake

open UnifiedCache.Base

/-- What a lookup goes to. A client answers for each key whether the remote has it, or fails. -/
structure LookupTiers where
  rpcClient : Option (List (List Char) → List (Option Bool))
  storeBackend : Option (List BlockId → Except Int Int)

/-- The key of a block's first shard. -/
def firstKey (block : BlockId) : List Char := blockIdToKey block ++ ['_', '0']

variable (T : LookupTiers)

def rpcBatchIsExist (keys : List (List Char)) : List Int :=
  match T.rpcClient with
  | none => keys.map fun _ => -1
  | some client =>
    (client keys).map fun r =>
      match r with
      | none => -1
      | some true => 1
      | some false => 0

def lookupOnPrefix (blocks : List BlockId) : Int :=
  if blocks.length = 0 then -1
  else
    match (rpcBatchIsExist T (blocks.map firstKey)).findIdx? fun e => e != 1 with
    | none => (blocks.length : Int) - 1
    | some firstMiss =>
      match T.storeBackend with
      | none => (firstMiss : Int) - 1
      | some backend =>
        match backend (blocks.drop firstMiss) with
        | .error _ => (firstMiss : Int) - 1
        | .ok backendHit => if 0 ≤ backendHit then firstMiss + backendHit else (firstMiss : Int) - 1

def lookup (blocks : List BlockId) : List Bool := markFirst blocks.length (lookupOnPrefix T blocks + 1).toNat

/-- There is a client, the remote's content is `remote`, and the backend, if there is one, has `has` and answers
    its leading run. -/
structure LookupTiers.Truthful (remote : List Char → Bool) (has : BlockId → Bool) : Prop where
  client : ∃ client, T.rpcClient = some client ∧ ∀ keys, client keys = keys.map fun key => some (remote key)
  backend : ∀ backend, T.storeBackend = some backend → ∀ blocks, backend blocks = .ok ((blocks.findIdx fun b => !has b : Nat) - 1)
  none : T.storeBackend = none → ∀ b, has b = false

variable {T} {remote : List Char → Bool} {has : BlockId → Bool}

/-- The remote prefix, then the backend's. -/
theorem lookupOnPrefix_eq (hT : T.Truthful remote has) (blocks : List BlockId) :
    lookupOnPrefix T blocks = ((blocks.findIdx fun b => !remote (firstKey b)) +
      ((blocks.drop (blocks.findIdx fun b => !remote (firstKey b))).findIdx fun b => !has b) : Nat) - 1 := by
  obtain ⟨client, hc, hclient⟩ := hT.client
  unfold lookupOnPrefix
  by_cases h0 : blocks.length = 0
  · obtain rfl := List.length_eq_zero_iff.mp h0
    rfl
  · have hexists : rpcBatchIsExist T (blocks.map firstKey) = blocks.map fun b => if remote (firstKey b) = true then 1 else 0 := by
      unfold rpcBatchIsExist
      rw [hc]
      dsimp only
      rw [hclient, List.map_map, List.map_map]
      refine List.map_congr_left fun b _ => ?_
      dsimp only [Function.comp]
      cases remote (firstKey b) <;> rfl
    have hmiss : ((rpcBatchIsExist T (blocks.map firstKey)).findIdx? fun e => e != 1) = blocks.findIdx? fun b =>
        !remote (firstKey b) := by
      rw [hexists, List.findIdx?_map]
      congr 1
      funext b
      dsimp only [Function.comp]
      cases remote (firstKey b) <;> rfl
    rw [if_neg h0, hmiss]
    cases hf : blocks.findIdx? fun b => !remote (firstKey b) with
    | none =>
      rw [List.findIdx?_eq_none_iff_findIdx_eq.mp hf, List.drop_length]
      rfl
    | some firstMiss =>
      have hidx := (List.findIdx?_eq_some_iff_findIdx_eq.mp hf).2
      rw [hidx]
      dsimp only
      cases hb : T.storeBackend with
      | none =>
        have hzero : ((blocks.drop firstMiss).findIdx fun b => !has b) = 0 := by
          cases blocks.drop firstMiss with
          | nil => rfl
          | cons b rest => rw [List.findIdx_cons, hT.none hb b]; rfl
        rw [hzero]
        rfl
      | some backend =>
        dsimp only
        rw [hT.backend backend hb]
        dsimp only
        split <;> omega

/-- A run of remote blocks, one of blocks of the backend, and blocks of neither. -/
def InTierOrder (remote : List Char → Bool) (has : BlockId → Bool) (blocks : List BlockId) : Prop :=
  ∃ first second rest, blocks = first ++ second ++ rest ∧ (∀ b, b ∈ first → remote (firstKey b) = true) ∧
  (∀ b, b ∈ second → has b = true) ∧
    ∀ b, b ∈ rest → remote (firstKey b) = false ∧ has b = false

/-- How many blocks the code counts. -/
def counted (remote : List Char → Bool) (has : BlockId → Bool) (blocks : List BlockId) : Nat :=
  (blocks.findIdx fun b => !remote (firstKey b)) +
  ((blocks.drop (blocks.findIdx fun b => !remote (firstKey b))).findIdx fun b => !has b)

theorem counted_cons (b : BlockId) (blocks : List BlockId) :
    counted remote has (b :: blocks) = if remote (firstKey b) = true then counted remote has blocks + 1
    else (b :: blocks).findIdx fun b => !has b := by
  unfold counted
  rw [List.findIdx_cons]
  cases remote (firstKey b) with
  | true =>
    rw [if_pos rfl]
    simp only [Bool.not_true, cond_false, List.drop_succ_cons]
    omega
  | false =>
    rw [if_neg (by decide)]
    simp

theorem findIdx_run {p : BlockId → Bool} {run rest : List BlockId} (hrun : ∀ b, b ∈ run → p b = false)
    (hrest : ∀ b, b ∈ rest → p b = true) :
    (run ++ rest).findIdx p = run.length := by
  rw [List.findIdx_append, if_neg]
  · cases rest with
    | nil => simp
    | cons b rest => rw [List.findIdx_cons, hrest b List.mem_cons_self]; simp
  · intro h
    obtain ⟨b, hb, hp⟩ := List.findIdx_lt_length.mp h
    rw [hrun b hb] at hp
    cases hp

/-- In the order of the tiers the code counts both runs. -/
theorem counted_runs {first second rest : List BlockId} (hfirst : ∀ b, b ∈ first → remote (firstKey b) = true)
    (hsecond : ∀ b, b ∈ second → has b = true) (hrest : ∀ b, b ∈ rest → remote (firstKey b) = false ∧ has b = false) :
    counted remote has (first ++ second ++ rest) = (first ++ second).length := by
  induction first with
  | cons b first ih =>
    rw [List.cons_append, List.cons_append, counted_cons, if_pos (hfirst b List.mem_cons_self),
      ih fun b hb => hfirst b (List.mem_cons_of_mem _ hb)]
    rfl
  | nil =>
    rw [List.nil_append]
    induction second with
    | cons b second ih =>
      rw [List.cons_append, counted_cons]
      split
      · rw [ih fun b hb => hsecond b (List.mem_cons_of_mem _ hb)]
        rfl
      · have hrun : ∀ c, c ∈ b :: second → (!has c) = false := by
          intro c hc
          rw [hsecond c hc]
          rfl
        refine findIdx_run hrun fun c hc => ?_
        rw [(hrest c hc).2]
        rfl
    | nil =>
      cases rest with
      | nil => rfl
      | cons b rest =>
        have hb := hrest b List.mem_cons_self
        rw [List.nil_append, counted_cons, hb.1, if_neg (by decide), List.findIdx_cons, hb.2]
        rfl

/-- `LookupOnPrefix` is the prefix of the union of the tiers, and `Lookup` marks what one of them has, exactly
    in the order of the tiers. -/
theorem lookup_union_iff (hT : T.Truthful remote has) (blocks : List BlockId) :
    (lookupOnPrefix T blocks = (blocks.findIdx fun b => !remote (firstKey b) && !has b : Nat) - 1 ∧
      lookup T blocks = blocks.map fun b => remote (firstKey b) || has b) ↔ InTierOrder remote has blocks := by
  have heq : lookupOnPrefix T blocks = (counted remote has blocks : Int) - 1 := lookupOnPrefix_eq hT blocks
  have hlook : lookup T blocks = markFirst blocks.length (counted remote has blocks) := by
    unfold lookup
    rw [heq]
    congr 1
    omega
  rw [heq, hlook, markFirst_eq_map]
  refine ⟨?_, ?_⟩
  · intro h
    have hmarks := h.2
    refine ⟨blocks.take (blocks.findIdx fun b => !remote (firstKey b)),
      (blocks.drop (blocks.findIdx fun b => !remote (firstKey b))).take
        ((blocks.drop (blocks.findIdx fun b => !remote (firstKey b))).findIdx fun b => !has b),
      (blocks.drop (blocks.findIdx fun b => !remote (firstKey b))).drop
        ((blocks.drop (blocks.findIdx fun b => !remote (firstKey b))).findIdx fun b => !has b), ?_, ?_, ?_, ?_⟩
    · rw [List.append_assoc, List.take_append_drop, List.take_append_drop]
    · intro b hb
      obtain ⟨i, hi, rfl⟩ := List.mem_take_iff_getElem.mp hb
      have hnot := List.not_of_lt_findIdx (Nat.lt_of_lt_of_le hi (Nat.min_le_left ..))
      simpa using hnot
    · intro b hb
      obtain ⟨i, hi, rfl⟩ := List.mem_take_iff_getElem.mp hb
      have hnot := List.not_of_lt_findIdx (Nat.lt_of_lt_of_le hi (Nat.min_le_left ..))
      simpa using hnot
    · intro b hb
      rw [List.drop_drop] at hb
      obtain ⟨i, hi⟩ := List.mem_iff_getElem?.mp hb
      rw [List.getElem?_drop] at hi
      have hm := hmarks _ b hi
      rw [decide_eq_false (by unfold counted; omega), Bool.or_eq_false_iff] at hm
      exact hm
  · intro h
    obtain ⟨first, second, rest, rfl, hfirst, hsecond, hrest⟩ := h
    have hboth : ∀ b, b ∈ first ++ second → (remote (firstKey b) || has b) = true := by
      intro b hb
      rcases List.mem_append.mp hb with hb | hb
      · rw [hfirst b hb, Bool.true_or]
      · rw [hsecond b hb, Bool.or_true]
    rw [counted_runs hfirst hsecond hrest]
    refine ⟨?_, ?_⟩
    · congr 2
      refine (findIdx_run ?_ ?_).symm
      · intro b hb
        have := hboth b hb
        revert this
        cases remote (firstKey b) <;> cases has b <;> decide
      · intro b hb
        rw [(hrest b hb).1, (hrest b hb).2]
        rfl
    · intro i b hi
      by_cases hlt : i < (first ++ second).length
      · rw [List.getElem?_append_left hlt] at hi
        rw [hboth b (List.mem_of_getElem? hi), decide_eq_true hlt]
      · rw [List.getElem?_append_right (Nat.le_of_not_lt hlt)] at hi
        have hb := hrest b (List.mem_of_getElem? hi)
        rw [hb.1, hb.2, decide_eq_false hlt]
        rfl

/-! ## Blocks 0, 1 and 2 -/

def block (n : Nat) : BlockId := fun i => if i.val = 0 then BitVec.ofNat 8 n else 0

/-- A remote that has the blocks of `remote`, and a backend that has those of `has`. -/
def tiers (remote : List Char → Bool) (has : BlockId → Bool) : LookupTiers :=
  ⟨some fun keys => keys.map fun key => some (remote key), some fun blocks => .ok ((blocks.findIdx fun b => !has b : Nat) - 1)⟩

theorem tiers_truthful (remote : List Char → Bool) (has : BlockId → Bool) : (tiers remote has).Truthful remote has := by
  refine ⟨⟨_, rfl, fun _ => rfl⟩, ?_, nofun⟩
  intro backend hb blocks
  obtain rfl := Option.some.inj hb
  rfl

/-- The remote has blocks 0 and 2, the backend has block 1: the prefix ends at block 1, and block 2 is reported absent. -/
theorem remote_after_backend :
    (tiers (fun key => key = firstKey (block 0) || key = firstKey (block 2)) fun b => b 0 = 1).Truthful
      (fun key => key = firstKey (block 0) || key = firstKey (block 2)) (fun b => b 0 = 1) ∧
    lookupOnPrefix (tiers (fun key => key = firstKey (block 0) || key = firstKey (block 2)) fun b => b 0 = 1)
    [block 0, block 1, block 2] = 1 ∧
    lookup (tiers (fun key => key = firstKey (block 0) || key = firstKey (block 2)) fun b => b 0 = 1)
    [block 0, block 1, block 2] =
      [true, true, false] ∧
    ([block 0, block 1, block 2].map fun b =>
      (decide (firstKey b = firstKey (block 0)) || decide (firstKey b = firstKey (block 2))) || decide (b 0 = 1)) =
      [true, true, true] := by
  refine ⟨tiers_truthful _ _, ?_, ?_, ?_⟩
  all_goals decide +kernel

/-- The remote has block 0, the backend has block 1. -/
theorem lookup_union_two :
    lookupOnPrefix (tiers (fun key => key = firstKey (block 0)) fun b => b 0 = 1) [block 0, block 1] =
      ([block 0, block 1].findIdx fun b => !decide (firstKey b = firstKey (block 0)) && !decide (b 0 = 1) : Nat) - 1 ∧
    lookup (tiers (fun key => key = firstKey (block 0)) fun b => b 0 = 1) [block 0, block 1] =
      [block 0, block 1].map fun b => decide (firstKey b = firstKey (block 0)) || decide (b 0 = 1) := by
  refine (lookup_union_iff (tiers_truthful _ _) [block 0, block 1]).mpr ⟨[block 0], [block 1], [], rfl, ?_, ?_, nofun⟩
  · intro b hb
    rw [List.mem_singleton.mp hb]
    exact decide_eq_true rfl
  · intro b hb
    rw [List.mem_singleton.mp hb]
    decide

end UnifiedCache.Mooncake
