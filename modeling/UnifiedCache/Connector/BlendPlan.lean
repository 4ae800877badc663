/-
  UnifiedCache.Connector.BlendPlan — what the blend connector loads and dumps for a request
  (see `UnifiedCache.Connector.BlendChunks`).

  Nothing sets the monitor that the hit rate is reported to: a request with a full block is refused
  before its plan is kept (`monitor_unset`). With a monitor, the blocks at the front that are found under
  the hashes of the prompt are cut from the first chunk. So the plan of a request is right where they do
  not go beyond the first chunk, or no chunks are loaded (`blend_plan_iff`). Where they do, the first
  chunk is left with less than no blocks, and the blocks of the next one are loaded twice
  (`prefix_beyond_first_chunk`).

  A plan is right: it joins positions of the prompt, each once, with blocks that were found; the chunks
  tile the blocks from the prefix hit on; and what is built is dumped under the hashes of the prompt.
-/

import UnifiedCache.Connector.BlendChunks
import UnifiedCache.Connector.RankConsistency

namespace UnifiedCache.Connector

open UnifiedCache.Base

section Spec

variable (cfg : BlendConfig) (finds : Bytes → Bool) (allTokenIds : List Int)

/-- The blocks at the front that are found under the hashes of the prompt. -/
def prefixHit :
    Nat := ((List.range (allTokenIds.length / cfg.blockSize)).takeWhile fun p => finds (prefixHash cfg allTokenIds p)).length

/-- The end of the last chunk. -/
def chunksEnd : Nat := chunkStart cfg allTokenIds (allTokenIds.length / cfg.blockSize)

/-- The blocks of the chunks that are found after the prefix hit. -/
def foundBlocks : Nat :=
  (List.range' (prefixHit cfg finds allTokenIds) (chunksEnd cfg allTokenIds - prefixHit cfg finds allTokenIds)).countP fun p =>
    finds (chunkHash cfg allTokenIds p)

/-- The request is one padded chunk, or too few blocks are found, or the prefix hit ends in the first chunk. -/
def Within : Prop :=
  (allTokenIds.getLast? = some cfg.chunkEndTokenId ∧ allTokenIds.length % cfg.blockSize = 0) ∨
  foundBlocks cfg finds allTokenIds < minBlendThreshold ∨
    chunkStart cfg allTokenIds (prefixHit cfg finds allTokenIds - 1) = 0

instance : Decidable (Within cfg finds allTokenIds) := inferInstanceAs (Decidable (_ ∨ _ ∨ _))

/-- The chunks tile the blocks from `a` to `b`, none with less than no blocks. -/
def Tiles : Int → List ChunkMetaData → Int → Prop
  | a, [], b => a = b
  | a, m :: ms, b => m.startBlkIdx = a ∧ 0 ≤ m.chunkBlksLen ∧ m.chunkTokensLen = m.chunkBlksLen * cfg.blockSize ∧
      Tiles m.endBlkIdx ms b

def blockAt (vllmBlockIds : List Nat) (p : Nat) : Nat := vllmBlockIds[p]?.getD 0

structure PlanRight (vllmBlockIds : List Nat) (stage : BlendStage) (d : BlendRequestDispatchMeta) : Prop where
  load : ∃ (positions : List Nat) (hash : Nat → Bytes), positions.Nodup ∧
    (∀ p, p ∈ positions → p < allTokenIds.length / cfg.blockSize ∧ finds (hash p) = true ∧
      (p < prefixHit cfg finds allTokenIds ∧ hash p = prefixHash cfg allTokenIds p ∨ hash p = chunkHash cfg allTokenIds p)) ∧
    d.loadBlockIds = (positions.map hash, positions.map (blockAt vllmBlockIds))
  once : vllmBlockIds.Nodup → d.loadBlockIds.2.Nodup
  tiles : stage = .cacheBlend → Tiles cfg (prefixHit cfg finds allTokenIds) d.chunksMeta (chunksEnd cfg allTokenIds)
  chunks : stage = .cacheBlend → ∀ m, m ∈ d.chunksMeta → (m.storeHits.length : Int) = m.chunkBlksLen ∧
    ∀ p : Nat, m.startBlkIdx ≤ p → p < m.endBlkIdx →
      m.positionOffset = ((p * cfg.blockSize : Nat) : Int) - (((p - chunkStart cfg allTokenIds p) * cfg.blockSize : Nat) : Int)
  dump : stage ≠ .cacheBlend →
    d.dumpBlockIds =
      ((List.range' (prefixHit cfg finds allTokenIds) (allTokenIds.length / cfg.blockSize - prefixHit cfg finds allTokenIds)).map
        (prefixHash cfg allTokenIds),
        (List.range' (prefixHit cfg finds allTokenIds)
          (allTokenIds.length / cfg.blockSize - prefixHit cfg finds allTokenIds)).map (blockAt vllmBlockIds))

/-- The request is taken, and what is loaded and dumped for it, if anything, is right. -/
def PlansRight (lookupAll : List Bytes → List Bool) (monitor : Bool) (vllmBlockIds : List Nat) : Prop :=
  ∃ n reqMeta, getNumNewMatchedTokens cfg allTokenIds lookupAll monitor = .ok (n, reqMeta) ∧
    ∀ r, reqMeta = some r → PlanRight cfg finds allTokenIds vllmBlockIds r.blendStage (generateBlendDispatchMeta r vllmBlockIds)

end Spec

/-- What `lookup_all` finds. -/
def Manager.finds {Block Req : Type} [DecidableEq Block] (m : Manager Block Req) (has : Block → Bool) (b : Block) : Bool :=
  match m.tracker with
  | none => has b
  | some inconsistent => if b ∈ inconsistent then false else has b

theorem Manager.lookupAll_finds {Block Req : Type} [DecidableEq Block] [DecidableEq Req] (m : Manager Block Req)
    {store : StoreLookup Block}
    {has : Block → Bool} (hst : store.Holds has) (blockIds : List Block) : m.lookupAll store blockIds =
    blockIds.map (m.finds has) := by
  unfold Manager.lookupAll Manager.finds
  rw [hst.lookup]
  cases m.tracker with
  | none => rfl
  | some inconsistent =>
    show List.zipWith _ blockIds (blockIds.map has) = _
    rw [List.zipWith_map_right, List.zipWith_self]

variable {cfg : BlendConfig} {finds : Bytes → Bool} {allTokenIds : List Int} {vllmBlockIds : List Nat} {a e : Nat}
    {m : ChunkMetaData}
  {ms : List ChunkMetaData}

/-! ## Slices -/

theorem pySlice_range {β : Type} (f : Nat → β) {n : Nat} (he : e ≤ n) :
    pySlice ((List.range n).map f) a e = (List.range' a (e - a)).map f := by
  rw [pySlice_eq, ← List.map_take, ← List.map_drop, List.take_range, Nat.min_eq_left he, List.range_eq_range', List.drop_range']
  simp

theorem take_blocks {n : Nat} (h : n ≤ vllmBlockIds.length) :
    vllmBlockIds.take n = (List.range n).map (blockAt vllmBlockIds) := by
  apply List.ext_getElem
  · rw [List.length_take, List.length_map, List.length_range, Nat.min_eq_left h]
  · intro i h1 h2
    rw [List.getElem_take, List.getElem_map, List.getElem_range]
    unfold blockAt
    rw [List.getElem?_eq_getElem, Option.getD_some]

theorem pySlice_blocks (he : e ≤ vllmBlockIds.length) :
    pySlice vllmBlockIds a e = (List.range' a (e - a)).map (blockAt vllmBlockIds) := by
  rw [pySlice_eq, take_blocks he, ← List.map_drop, List.range_eq_range', List.drop_range']
  simp

theorem compress_map {β : Type} (f : Nat → β) (flag : Nat → Bool) (r : List Nat) :
    compress (r.map f) (r.map flag) = (r.filter flag).map f := by
  unfold compress
  rw [List.zip_map', List.filter_map, List.map_map]
  rfl

theorem blocks_nodup {positions : List Nat} (hnodup : positions.Nodup) (hlt : ∀ p, p ∈ positions → p < vllmBlockIds.length)
    (h : vllmBlockIds.Nodup) :
    (positions.map (blockAt vllmBlockIds)).Nodup := by
  apply List.Nodup.map_on _ hnodup
  intro p hp p' hp' he
  unfold blockAt at he
  rw [List.getElem?_eq_getElem (hlt p hp), List.getElem?_eq_getElem (hlt p' hp'), Option.getD_some, Option.getD_some] at he
  exact (List.Nodup.getElem_inj_iff h).mp he

/-! ## The prefix hit -/

theorem prefixHit_le (cfg : BlendConfig) (finds : Bytes → Bool) (allTokenIds : List Int) :
    prefixHit cfg finds allTokenIds ≤ allTokenIds.length / cfg.blockSize := by
  have h := (List.takeWhile_prefix (p := fun p => finds (prefixHash cfg allTokenIds p))
      (l := List.range (allTokenIds.length / cfg.blockSize))).length_le
  rw [List.length_range] at h
  exact h

theorem prefixHit_finds {p : Nat} (h : p < prefixHit cfg finds allTokenIds) : finds (prefixHash cfg allTokenIds p) = true := by
  have hpre := List.takeWhile_prefix (p := fun p => finds (prefixHash cfg allTokenIds p))
      (l := List.range (allTokenIds.length / cfg.blockSize))
  have hmem := List.mem_takeWhile_imp (List.getElem_mem h)
  rw [hpre.getElem h, List.getElem_range] at hmem
  exact hmem

theorem lookup_prefix : (((cfg.hashes allTokenIds).map finds).takeWhile id).length = prefixHit cfg finds allTokenIds := by
  rw [hashes_eq_map, List.map_map, List.takeWhile_map, List.length_map]
  rfl

theorem hash_in_first (h : chunkStart cfg allTokenIds (prefixHit cfg finds allTokenIds - 1) = 0) {p : Nat}
    (hp : p < prefixHit cfg finds allTokenIds) :
    chunkHash cfg allTokenIds p = prefixHash cfg allTokenIds p := by
  apply chunkHash_of_first
  have hle := chunkStart_mono cfg allTokenIds (Nat.le_sub_one_of_lt hp)
  omega

/-! ## Nothing is blended -/

theorem build_right (hroom : allTokenIds.length / cfg.blockSize ≤ vllmBlockIds.length) :
    PlanRight cfg finds allTokenIds vllmBlockIds .buildPrefixCache
      (generateBlendDispatchMeta ⟨cfg.hashes allTokenIds, prefixHit cfg finds allTokenIds, [],
        .buildPrefixCache⟩ vllmBlockIds) := by
  have hle := prefixHit_le cfg finds allTokenIds
  have hlt : ∀ p, p ∈ List.range (prefixHit cfg finds allTokenIds) → p < vllmBlockIds.length := by
    intro p hp
    have := List.mem_range.mp hp
    omega
  have hload : vllmBlockIds.take (prefixHit cfg finds allTokenIds) = (List.range (prefixHit cfg finds allTokenIds)).map
      (blockAt vllmBlockIds) :=
    take_blocks (by omega)
  refine ⟨⟨List.range (prefixHit cfg finds allTokenIds), prefixHash cfg allTokenIds, List.nodup_range, fun p hp => ?_, ?_⟩,
    fun h => ?_, nofun, nofun,
    fun _ => ?_⟩
  · have hp := List.mem_range.mp hp
    exact ⟨by omega, prefixHit_finds hp, .inl ⟨hp, rfl⟩⟩
  · refine Prod.ext ?_ hload
    show (cfg.hashes allTokenIds).take _ = _
    rw [hashes_eq_map, ← List.map_take, List.take_range, Nat.min_eq_left hle]
  · show (vllmBlockIds.take _).Nodup
    rw [hload]
    exact blocks_nodup List.nodup_range hlt h
  · refine Prod.ext ?_ ?_
    · show (cfg.hashes allTokenIds).drop _ = _
      rw [hashes_eq_map, ← List.map_drop, List.range_eq_range', List.drop_range']
      simp
    · show (vllmBlockIds.take (cfg.hashes allTokenIds).length).drop _ = _
      rw [length_hashes, ← pySlice_eq, pySlice_blocks hroom]

/-! ## Chunks are blended -/

/-- The part of a chunk from block `a` to block `e`, with its hits; the chunk starts at `c`. -/
structure IsHit (cfg : BlendConfig) (finds : Bytes → Bool) (allTokenIds : List Int) (placed : Nat → Nat → List Nat) (a e : Nat)
    (m : ChunkMetaData) :
    Prop where
  le : a ≤ e
  made : ∃ c : Nat, c ≤ a ∧ (∀ p, a ≤ p → p < e → chunkStart cfg allTokenIds p = c) ∧
    m = ⟨a * cfg.blockSize, (e - a : Int) * cfg.blockSize, a, e - a, (a - c : Int) * cfg.blockSize, placed a e,
      (List.range' a (e - a)).map (chunkHash cfg allTokenIds), (List.range' a (e - a)).map fun p =>
      finds (chunkHash cfg allTokenIds p)⟩

/-- The lookups of a prompt, put together. -/
def lookups (cfg : BlendConfig) (finds : Bytes → Bool) (allTokenIds : List Int) : List Bool :=
  (List.range (chunksEnd cfg allTokenIds)).map fun p => finds (chunkHash cfg allTokenIds p)

theorem IsChunk.hit (finds : Bytes → Bool) (h : IsChunk cfg allTokenIds a e m) (he : e ≤ chunksEnd cfg allTokenIds) :
    IsHit cfg finds allTokenIds (fun _ _ => []) a e
    { m with storeHits := pySlice (lookups cfg finds allTokenIds) m.startBlkIdx m.endBlkIdx } := by
  refine ⟨Nat.le_of_lt h.lt, a, Nat.le_refl a, h.start, ?_⟩
  have hend : m.endBlkIdx = e := by
    rw [h.made]
    show (a : Int) + (e - a) = e
    omega
  have hstart : m.startBlkIdx = a := by rw [h.made]
  rw [hend, hstart]
  unfold lookups
  rw [pySlice_range _ he, h.made, Int.sub_self, Int.zero_mul]

/-- The prefix hit is cut from the first chunk. -/
theorem IsHit.cut {n : Nat} (h : IsHit cfg finds allTokenIds (fun _ _ => []) 0 e m) (hn : n ≤ e) :
    IsHit cfg finds allTokenIds (fun _ _ => []) n e (m.updateMetaPartialPc n cfg.blockSize) := by
  obtain ⟨c, hc, hstart, rfl⟩ := h.made
  obtain rfl : c = 0 := Nat.le_zero.mp hc
  refine ⟨hn, 0, Nat.zero_le n, fun p h1 h2 => hstart p (Nat.zero_le p) h2, ?_⟩
  unfold ChunkMetaData.updateMetaPartialPc
  have hdrop : (List.range' 0 (e - 0)).drop n = List.range' n (e - n) := by
    rw [List.drop_range', Nat.sub_zero]
    simp
  have hlen : ((e : Int) - (0 : Nat)) * cfg.blockSize - n * cfg.blockSize = ((e : Int) - n) * cfg.blockSize := by
    rw [← Int.sub_mul]
    simp
  split
  · dsimp only
    rw [← List.map_drop, ← List.map_drop, hdrop, hlen]
    simp
  · next hzero =>
    obtain rfl : n = 0 := by omega
    rfl

theorem IsHit.place (he : e ≤ vllmBlockIds.length) (h : IsHit cfg finds allTokenIds (fun _ _ => []) a e m) :
    IsHit cfg finds allTokenIds (fun a e => (List.range' a (e - a)).map (blockAt vllmBlockIds)) a e
      { m with vllmBlkIds := pySlice vllmBlockIds m.startBlkIdx m.endBlkIdx } := by
  obtain ⟨c, hc, hstart, hm⟩ := h.made
  have hle := h.le
  refine ⟨hle, c, hc, hstart, ?_⟩
  have hend : m.endBlkIdx = e := by
    rw [hm]
    show (a : Int) + (e - a) = e
    omega
  have hfirst : m.startBlkIdx = a := by rw [hm]
  rw [hend, hfirst, pySlice_blocks he, hm]

theorem IsHit.tiles {placed : Nat → Nat → List Nat} {b : Nat} (h : Follow (IsHit cfg finds allTokenIds placed) a ms b) :
    Tiles cfg a ms b := by
  induction h with
  | nil => exact rfl
  | @cons a e b m ms h _ ih =>
    obtain ⟨c, -, -, rfl⟩ := h.made
    have hle := h.le
    refine ⟨rfl, ?_, rfl, ?_⟩
    · show (0 : Int) ≤ e - a
      omega
    · have hend : (a : Int) + (e - a) = e := by omega
      unfold ChunkMetaData.endBlkIdx
      dsimp only
      rw [hend]
      exact ih

theorem IsHit.offset {placed : Nat → Nat → List Nat} (h : IsHit cfg finds allTokenIds placed a e m) :
    (m.storeHits.length : Int) = m.chunkBlksLen ∧
    ∀ p : Nat, m.startBlkIdx ≤ p → p < m.endBlkIdx →
      m.positionOffset = ((p * cfg.blockSize : Nat) : Int) -
      (((p - chunkStart cfg allTokenIds p) * cfg.blockSize : Nat) : Int) := by
  obtain ⟨c, hc, hstart, rfl⟩ := h.made
  have hle := h.le
  constructor
  · dsimp only
    rw [List.length_map, List.length_range']
    omega
  · intro p h1 h2
    have h1 : (a : Int) ≤ p := h1
    have h2 : (p : Int) < a + (e - a) := h2
    rw [hstart p (by omega) (by omega)]
    show (a : Int) * cfg.blockSize - (a - c) * cfg.blockSize = _
    have hcp : c ≤ p := by omega
    rw [Int.natCast_mul, Int.natCast_mul, Int.natCast_sub hcp, ← Int.sub_mul, ← Int.sub_mul]
    congr 1
    omega

theorem blend_right
    (hs : Follow (IsHit cfg finds allTokenIds fun _ _ => []) (prefixHit cfg finds allTokenIds) ms (chunksEnd cfg allTokenIds))
    (hfirst : chunkStart cfg allTokenIds (prefixHit cfg finds allTokenIds - 1) = 0)
    (hroom : allTokenIds.length / cfg.blockSize ≤ vllmBlockIds.length) :
    PlanRight cfg finds allTokenIds vllmBlockIds .cacheBlend
      (generateBlendDispatchMeta
        ⟨(List.range (chunksEnd cfg allTokenIds)).map (chunkHash cfg allTokenIds), prefixHit cfg finds allTokenIds, ms,
          .cacheBlend⟩ vllmBlockIds) := by
  have hle := hs.le fun _ _ _ h => h.le
  have hend : chunksEnd cfg allTokenIds ≤ allTokenIds.length / cfg.blockSize := chunkStart_le _ _ _
  have hplaced := hs.map _ (fun _ _ _ h => h.le) fun a e m h he => h.place (show e ≤ vllmBlockIds.length by omega)
  have hhashes := hplaced.flatMap (g := (·.hitsChunkBlksHash)) (fun _ _ _ h => h.le) fun a e m h => by
    obtain ⟨c, -, -, rfl⟩ := h.made
    exact compress_map _ _ _
  have hblocks := hplaced.flatMap (g := (·.hitsVllmBlkIds)) (fun _ _ _ h => h.le) fun a e m h => by
    obtain ⟨c, -, -, rfl⟩ := h.made
    exact compress_map _ _ _
  generalize hpositions : List.range (prefixHit cfg finds allTokenIds) ++ (List.range' (prefixHit cfg finds allTokenIds)
    (chunksEnd cfg allTokenIds - prefixHit cfg finds allTokenIds)).filter
    (fun p => finds (chunkHash cfg allTokenIds p)) = positions
  have hmem : ∀ p, p ∈ positions → p < chunksEnd cfg allTokenIds ∧ finds (chunkHash cfg allTokenIds p) = true := by
    intro p hp
    rw [← hpositions] at hp
    rcases List.mem_append.mp hp with hp | hp
    · have hp := List.mem_range.mp hp
      exact ⟨by omega, by rw [hash_in_first hfirst hp]; exact prefixHit_finds hp⟩
    · obtain ⟨hp, hfound⟩ := List.mem_filter.mp hp
      have hp := List.mem_range'_1.mp hp
      exact ⟨by omega, hfound⟩
  have hnodup : positions.Nodup := by
    rw [← hpositions]
    refine List.nodup_append.mpr ⟨List.nodup_range, List.Nodup.filter _ List.nodup_range', fun p hp p' hp' e => ?_⟩
    have hp := List.mem_range.mp hp
    have hp' := List.mem_range'_1.mp (List.mem_of_mem_filter hp')
    omega
  have hload : (generateBlendDispatchMeta
      ⟨(List.range (chunksEnd cfg allTokenIds)).map (chunkHash cfg allTokenIds), prefixHit cfg finds allTokenIds, ms,
        .cacheBlend⟩ vllmBlockIds).loadBlockIds =
      (positions.map (chunkHash cfg allTokenIds), positions.map (blockAt vllmBlockIds)) := by
    rw [← hpositions, List.map_append, List.map_append, ← hhashes, ← hblocks]
    refine Prod.ext ?_ ?_
    · show List.take _ _ ++ _ = _
      rw [← List.map_take, List.take_range, Nat.min_eq_left hle]
    · show vllmBlockIds.take (prefixHit cfg finds allTokenIds) ++ _ = _
      rw [take_blocks (by omega)]
  refine ⟨⟨positions, chunkHash cfg allTokenIds, hnodup, fun p hp => ?_, hload⟩, fun h => ?_, fun _ => IsHit.tiles hplaced,
    fun _ => hplaced.forall fun _ _ _ h => h.offset, fun h => absurd rfl h⟩
  · obtain ⟨hp, hfound⟩ := hmem p hp
    exact ⟨by omega, hfound, .inr rfl⟩
  · rw [hload]
    exact blocks_nodup hnodup (fun p hp => by have := (hmem p hp).1; omega) h

/-! ## The plan of a request -/

section Plan

variable {lookupAll : List Bytes → List Bool}

/-- The chunks with their hits, from what both lookups give. -/
def withHits (results : List Bool) (m : ChunkMetaData) : ChunkMetaData :=
    { m with storeHits := pySlice results m.startBlkIdx m.endBlkIdx }

theorem getReqChunkHit_build {stage : BlendStage} (hlookup : ∀ ids, lookupAll ids = ids.map finds) (h : stage ≠ .cacheBlend)
    (hashes : List Bytes) :
    getReqChunkHit cfg lookupAll stage (cfg.hashes allTokenIds) [] hashes = .ok (prefixHit cfg finds allTokenIds, 0, []) := by
  simp only [getReqChunkHit]
  rw [if_pos h, hlookup, lookup_prefix]

/-- What both lookups of a prompt with chunks give. -/
theorem getReqChunkHit_blend (cfg : BlendConfig) (allTokenIds : List Int) (m : ChunkMetaData) (ms : List ChunkMetaData)
    (hlookup : ∀ ids, lookupAll ids = ids.map finds) :
    ∃ results, getReqChunkHit cfg lookupAll .cacheBlend (cfg.hashes allTokenIds) (m :: ms)
        ((List.range (chunksEnd cfg allTokenIds)).map (chunkHash cfg allTokenIds)) =
      .ok (prefixHit cfg finds allTokenIds, foundBlocks cfg finds allTokenIds,
        if ((withHits results m).updateMetaPartialPc (prefixHit cfg finds allTokenIds) cfg.blockSize).chunkTokensLen = 0
          then ms.map (withHits results)
        else (withHits results m).updateMetaPartialPc (prefixHit cfg finds allTokenIds) cfg.blockSize :: ms.map
          (withHits results)) ∧
      (chunkStart cfg allTokenIds (prefixHit cfg finds allTokenIds - 1) = 0 →
        prefixHit cfg finds allTokenIds ≤ chunksEnd cfg allTokenIds →
        results = lookups cfg finds allTokenIds) := by
  have hdrop :
      lookupAll (((List.range (chunksEnd cfg allTokenIds)).map (chunkHash cfg allTokenIds)).drop
      (prefixHit cfg finds allTokenIds)) =
      (List.range' (prefixHit cfg finds allTokenIds) (chunksEnd cfg allTokenIds - prefixHit cfg finds allTokenIds)).map
        fun p => finds (chunkHash cfg allTokenIds p) := by
    rw [hlookup, ← List.map_drop, List.range_eq_range', List.drop_range', List.map_map]
    simp [Function.comp_def]
  refine ⟨((cfg.hashes allTokenIds).map finds).take (prefixHit cfg finds allTokenIds) ++
    (List.range' (prefixHit cfg finds allTokenIds) (chunksEnd cfg allTokenIds - prefixHit cfg finds allTokenIds)).map
      (fun p => finds (chunkHash cfg allTokenIds p)), ?_, fun hfirst hle => ?_⟩
  · simp only [getReqChunkHit]
    rw [if_neg (by simp), hlookup (cfg.hashes allTokenIds), lookup_prefix, hdrop, List.countP_map]
    rfl
  · have hfront : ((cfg.hashes allTokenIds).map finds).take (prefixHit cfg finds allTokenIds) =
        (List.range (prefixHit cfg finds allTokenIds)).map fun p => finds (chunkHash cfg allTokenIds p) := by
      rw [hashes_eq_map, List.map_map, ← List.map_take, List.take_range, Nat.min_eq_left (prefixHit_le cfg finds allTokenIds)]
      exact List.map_congr_left fun p hp => by rw [Function.comp_apply, hash_in_first hfirst (List.mem_range.mp hp)]
    rw [hfront, ← List.map_append, range_append_range' hle]
    rfl

/-- The stage, the chunks and the hashes of a prompt with chunks. -/
theorem processReq_cases (cfg : BlendConfig) (allTokenIds : List Int) :
    (∃ stage, stage ≠ .cacheBlend ∧ processReq cfg allTokenIds = (stage, cfg.hashes allTokenIds, [], []) ∧
      ((allTokenIds.getLast? = some cfg.chunkEndTokenId ∧ allTokenIds.length % cfg.blockSize = 0) ∨
        chunksEnd cfg allTokenIds = 0)) ∨
    ∃ e m ms, ¬ (allTokenIds.getLast? = some cfg.chunkEndTokenId ∧ allTokenIds.length % cfg.blockSize = 0) ∧
    IsChunk cfg allTokenIds 0 e m ∧
      Follow (IsChunk cfg allTokenIds) e ms (chunksEnd cfg allTokenIds) ∧
      processReq cfg allTokenIds = (.cacheBlend, cfg.hashes allTokenIds, m :: ms,
        (List.range (chunksEnd cfg allTokenIds)).map (chunkHash cfg allTokenIds)) := by
  simp only [processReq]
  split
  · next h => exact .inl ⟨.buildChunkCache, nofun, rfl, .inl h⟩
  · next hwhole =>
    have hinv := split_chunks cfg allTokenIds (Nat.le_refl _)
    rcases hinv.chunks.uncons with ⟨hms, hend⟩ | ⟨e, m, ms, hms, h, hs⟩
    · refine .inl ⟨.buildPrefixCache, nofun, ?_, .inr hend.symm⟩
      rw [if_pos hms, hms, hinv.hashes, ← hend]
      rfl
    · refine .inr ⟨e, m, ms, hwhole, h, hs, ?_⟩
      rw [if_neg (by rw [hms]; nofun), hms, hinv.hashes]
      rfl

/-- With a monitor, a request with a full block gets a plan. -/
theorem monitored_plan (hlookup : ∀ ids, lookupAll ids = ids.map finds) (hfull : 0 < allTokenIds.length / cfg.blockSize)
    (hroom : allTokenIds.length / cfg.blockSize ≤ vllmBlockIds.length) :
    ∃ n reqMeta, getNumNewMatchedTokens cfg allTokenIds lookupAll true = .ok (n, some reqMeta) ∧
      (PlanRight cfg finds allTokenIds vllmBlockIds reqMeta.blendStage (generateBlendDispatchMeta reqMeta vllmBlockIds) ↔
        Within cfg finds allTokenIds) := by
  have hend : chunksEnd cfg allTokenIds ≤ allTokenIds.length / cfg.blockSize := chunkStart_le _ _ _
  simp only [getNumNewMatchedTokens]
  rw [if_neg (by omega)]
  rcases processReq_cases cfg allTokenIds with ⟨stage, hstage, hreq, hwhole⟩ | ⟨e, m, ms, hwhole, hm, hms, hreq⟩
  · -- no chunk is blended
    simp only [hreq, getReqChunkHit_build hlookup hstage, Bind.bind, Except.bind, updateStats, if_true]
    refine ⟨_, _, rfl, fun _ => ?_, fun _ => ?_⟩
    · rcases hwhole with h | h
      · exact .inl h
      · right
        left
        unfold foundBlocks
        rw [h, Nat.zero_sub]
        exact Nat.zero_lt_of_lt (by decide : 0 < minBlendThreshold)
    · exact build_right hroom
  · obtain ⟨results, hhit, hresults⟩ := getReqChunkHit_blend cfg allTokenIds m ms hlookup
    simp only [hreq, hhit, Bind.bind, Except.bind, updateStats, if_true]
    by_cases hfew : foundBlocks cfg finds allTokenIds < minBlendThreshold
    · simp only [if_pos hfew]
      exact ⟨_, _, rfl, fun _ => .inr (.inl hfew), fun _ => build_right hroom⟩
    simp only [if_neg hfew]
    have hlt := hm.lt
    have hlen : ∀ n : Nat, ((withHits results m).updateMetaPartialPc n cfg.blockSize).chunkTokensLen =
        ((e : Int) - n) * cfg.blockSize ∧
        ((withHits results m).updateMetaPartialPc n cfg.blockSize).chunkBlksLen = (e : Int) - n := by
      intro n
      unfold withHits ChunkMetaData.updateMetaPartialPc
      rw [hm.made]
      split
      · constructor
        · dsimp only
          rw [← Int.sub_mul]
          simp
        · simp
      · next hzero =>
        obtain rfl : n = 0 := by omega
        exact ⟨rfl, rfl⟩
    refine ⟨_, _, rfl, fun h => ?_, fun h => ?_⟩
    · -- the first chunk would be left with less than no blocks
      refine .inr (.inr ?_)
      by_contra hne
      have hbeyond : e < prefixHit cfg finds allTokenIds := by
        by_contra hle
        exact hne (hm.start _ (Nat.zero_le _) (by omega))
      have hkept :
          ((withHits results m).updateMetaPartialPc (prefixHit cfg finds allTokenIds) cfg.blockSize).chunkTokensLen ≠ 0 := by
        rw [(hlen _).1]
        intro hzero
        rcases Int.mul_eq_zero.mp hzero with h0 | h0
        · omega
        · have := cfg.pos
          omega
      simp only [if_neg hkept] at h
      have htiles := h.tiles rfl
      simp only [generateBlendDispatchMeta, if_true, List.map_cons, Tiles] at htiles
      have hneg := htiles.2.1
      rw [(hlen _).2] at hneg
      omega
    · have hfirst := (h.resolve_left hwhole).resolve_left hfew
      have hle : prefixHit cfg finds allTokenIds ≤ e := by
        by_contra hgt
        have hmono := chunkStart_mono cfg allTokenIds (show e ≤ prefixHit cfg finds allTokenIds - 1 by omega)
        rw [hm.ends] at hmono
        omega
      have hrest := hms.le fun _ _ _ h => Nat.le_of_lt h.lt
      obtain rfl := hresults hfirst (by omega)
      have hhead := (hm.hit finds hrest).cut hle
      have htail := hms.map (withHits (lookups cfg finds allTokenIds)) (fun _ _ _ h => Nat.le_of_lt h.lt)
        fun _ _ _ h he => h.hit finds he
      refine blend_right ?_ hfirst hroom
      split
      · next hzero =>
        rw [(hlen _).1] at hzero
        have he : prefixHit cfg finds allTokenIds = e := by
          rcases Int.mul_eq_zero.mp hzero with h0 | h0
          · omega
          · have := cfg.pos
            omega
        rw [he]
        exact htail
      · exact .cons hhead htail

/-- The statistics are refused, whatever was found. -/
theorem unmonitored_plan (h : 0 < allTokenIds.length / cfg.blockSize) (reqMeta : Int × Option BlendRequestMeta) :
    getNumNewMatchedTokens cfg allTokenIds lookupAll false ≠ .ok reqMeta := by
  simp only [getNumNewMatchedTokens]
  rw [if_neg (by omega)]
  cases hhit : getReqChunkHit cfg lookupAll (processReq cfg allTokenIds).1 (processReq cfg allTokenIds).2.1
    (processReq cfg allTokenIds).2.2.1
      (processReq cfg allTokenIds).2.2.2 with
  | error e => nofun
  | ok hit => nofun

theorem blend_plan_iff {Req : Type} [DecidableEq Req] (manager : Manager Bytes Req) {store : StoreLookup Bytes}
    {has : Bytes → Bool}
    (hst : store.Holds has) (hroom : allTokenIds.length / cfg.blockSize ≤ vllmBlockIds.length) :
    (PlansRight cfg (manager.finds has) allTokenIds (manager.lookupAll store) hasMonitor vllmBlockIds ↔
      allTokenIds.length / cfg.blockSize = 0) ∧
      (PlansRight cfg (manager.finds has) allTokenIds (manager.lookupAll store) true vllmBlockIds ↔
        allTokenIds.length / cfg.blockSize = 0 ∨ Within cfg (manager.finds has) allTokenIds) := by
  have hnone : ∀ monitor, allTokenIds.length / cfg.blockSize = 0 →
      PlansRight cfg (manager.finds has) allTokenIds (manager.lookupAll store) monitor vllmBlockIds := by
    intro monitor hzero
    refine ⟨0, none, ?_, nofun⟩
    simp only [getNumNewMatchedTokens]
    rw [if_pos hzero]
    rfl
  constructor
  · refine ⟨fun ⟨n, reqMeta, h, _⟩ => ?_, hnone hasMonitor⟩
    by_contra hne
    exact unmonitored_plan (Nat.pos_of_ne_zero hne) _ h
  · by_cases hzero : allTokenIds.length / cfg.blockSize = 0
    · exact ⟨fun _ => .inl hzero, fun _ => hnone true hzero⟩
    · obtain ⟨n, reqMeta, hplan, hiff⟩ := monitored_plan (manager.lookupAll_finds hst) (Nat.pos_of_ne_zero hzero) hroom
      refine ⟨fun ⟨n', reqMeta', h, hright⟩ => .inr ?_, fun h => ⟨n, some reqMeta, hplan, fun r hr => ?_⟩⟩
      · obtain ⟨rfl, rfl⟩ := Prod.mk.inj (Except.ok.inj (hplan.symm.trans h))
        exact hiff.mp (hright reqMeta rfl)
      · obtain rfl := Option.some.inj hr
        exact hiff.mpr (h.resolve_left hzero)

end Plan

/-! ## Two prompts -/

/-- Blocks of one token, and the tokens themselves for their hashes. -/
def oneTokenBlocks : BlendConfig where
  blockSize := 1
  pos := Nat.one_pos
  chunkEndTokenId := 0
  hasher
    | .object (.block parent tokens) => parent ++ tokens.map fun x => UInt8.ofNat x.toNat
    | _ => []
  seed := []

/-- A chunk of two blocks, one of eighteen, and a question. -/
def twoChunks : List Int := [1, 0] ++ List.replicate 17 2 ++ [0, 3]

def storeOf (keys : List Bytes) : StoreLookup Bytes :=
  ⟨fun ids => ids.map fun b => decide (b ∈ keys), fun ids => (ids.takeWhile fun b => decide (b ∈ keys)).length - 1⟩

theorem storeOf_holds (keys : List Bytes) : (storeOf keys).Holds fun b => decide (b ∈ keys) := ⟨fun _ => rfl, fun _ => rfl⟩

/-- The hashes of the chunks. -/
def chunkKeys : List Bytes := (List.range 20).map (chunkHash oneTokenBlocks twoChunks)

def plainManager : Manager Bytes Nat := .new true false

/-- What the connector with a monitor keeps for the prompt. -/
def keptFor (keys : List Bytes) : Option BlendRequestMeta :=
  match getNumNewMatchedTokens oneTokenBlocks twoChunks (plainManager.lookupAll (storeOf keys)) true with
  | .ok (_, reqMeta) => reqMeta
  | .error _ => none

/-- The blocks of both chunks are found: refused as the connector is, and planned as they should be with a monitor. -/
theorem blend_plan_iff_chunks :
    ¬ PlansRight oneTokenBlocks (plainManager.finds fun b => decide (b ∈ chunkKeys)) twoChunks
    (plainManager.lookupAll (storeOf chunkKeys)) hasMonitor
        (List.range 21) ∧
      PlansRight oneTokenBlocks (plainManager.finds fun b => decide (b ∈ chunkKeys)) twoChunks
      (plainManager.lookupAll (storeOf chunkKeys)) true
        (List.range 21) ∧
      (keptFor chunkKeys).map (·.blendStage) = some .cacheBlend := by
  obtain ⟨hcode, hmonitor⟩ := @blend_plan_iff oneTokenBlocks twoChunks (List.range 21) Nat _ plainManager _ _
      (storeOf_holds chunkKeys) (by decide)
  exact ⟨fun h => absurd (hcode.mp h) (by decide), hmonitor.mpr (.inr (by decide +kernel)), by decide +kernel⟩

/-- A prompt of one block, and nothing stored. -/
theorem monitor_unset :
    getNumNewMatchedTokens oneTokenBlocks [3] (plainManager.lookupAll (storeOf [])) hasMonitor = .error .attributeError ∧
      ¬ PlansRight oneTokenBlocks (plainManager.finds fun b => decide (b ∈ ([] : List Bytes)))
      [3] (plainManager.lookupAll (storeOf [])) hasMonitor [0] := by
  have hraises : getNumNewMatchedTokens oneTokenBlocks [3] (plainManager.lookupAll (storeOf [])) hasMonitor =
      .error .attributeError := rfl
  refine ⟨hraises, fun ⟨n, reqMeta, h, _⟩ => ?_⟩
  rw [hraises] at h
  cases h

/-- The first three blocks are found under the hashes of the prompt: with a monitor, the third is loaded again,
    as a block of the second chunk. -/
theorem prefix_beyond_first_chunk :
    ∃ keys reqMeta, keptFor keys = some reqMeta ∧
      (generateBlendDispatchMeta reqMeta (List.range 21)).loadBlockIds.2 = [0, 1, 2] ++ (List.range 18).map (· + 2) ∧
      ¬ PlanRight oneTokenBlocks (plainManager.finds fun b => decide (b ∈ keys)) twoChunks (List.range 21) reqMeta.blendStage
        (generateBlendDispatchMeta reqMeta (List.range 21)) := by
  have hload : (keptFor (chunkKeys ++ (List.range 3).map (prefixHash oneTokenBlocks twoChunks))).map
      (fun reqMeta => (generateBlendDispatchMeta reqMeta (List.range 21)).loadBlockIds.2) =
      some ([0, 1, 2] ++ (List.range 18).map (· + 2)) := by
    decide +kernel
  obtain ⟨reqMeta, h, hload⟩ := Option.map_eq_some_iff.mp hload
  refine ⟨_, reqMeta, h, hload, fun hright => ?_⟩
  have hnodup := hright.once List.nodup_range
  rw [hload] at hnodup
  exact absurd hnodup (by decide)

end UnifiedCache.Connector
