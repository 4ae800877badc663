/-
  UnifiedCache.Connector.BlendChunks — the chunks of a prompt, and what is loaded for them
  (ucm/integration/vllm/blend_connector.py: `ChunkMetaData`, and `UCMBlendConnector` up to the dispatch
  metadata of a request).

  A block whose last token is the end token ends a chunk. The hashes of the prompt's blocks are chained
  from the first block on; those of a chunk start anew. A request that is one padded chunk is only
  dumped; where chunks are found, the blocks that are found under the hashes of their chunks are loaded,
  after those at the front that are found under the hashes of the prompt. The hit rate of the chunks is
  to be reported before the plan is kept, to a `self.monitor` that nothing sets.

  Proved here: `_process_req` finds the chunks, one after the other (`split_chunks`). Lengths are
  integers: they are subtracted from.
-/

import UnifiedCache.Connector.BlockKeys

namespace UnifiedCache.Connector

open UnifiedCache.Base

/-- Where a bound of a slice is. -/
def pyIndex (n : Nat) (i : Int) : Nat := if i < 0 then (n + i).toNat else min i.toNat n

/-- `l[i:j]`. -/
def pySlice {β : Type} (l : List β) (i j : Int) : List β := (l.take (pyIndex l.length j)).drop (pyIndex l.length i)

theorem pySlice_eq {β : Type} (l : List β) (a e : Nat) : pySlice l a e = (l.take e).drop a := by
  have hindex : ∀ i : Nat, pyIndex l.length i = min i l.length := by
    intro i
    unfold pyIndex
    rw [if_neg (by omega), Int.toNat_natCast]
  unfold pySlice
  rw [hindex, hindex, List.take_eq_take_min (i := e)]
  by_cases h : a ≤ l.length
  · rw [Nat.min_eq_left h]
  · rw [Nat.min_eq_right (by omega), List.drop_eq_nil_of_le (by rw [List.length_take]; omega),
      List.drop_eq_nil_of_le (by rw [List.length_take]; omega)]

/-- `itertools.compress`. -/
def compress {β : Type} (data : List β) (selectors : List Bool) : List β := ((data.zip selectors).filter (·.2)).map (·.1)

structure ChunkMetaData where
  startTokenDix : Int
  chunkTokensLen : Int
  startBlkIdx : Int
  chunkBlksLen : Int
  cachedStartPosition : Int
  vllmBlkIds : List Nat
  chunkBlksHash : List Bytes
  storeHits : List Bool
  deriving DecidableEq

namespace ChunkMetaData

variable (m : ChunkMetaData)

def endBlkIdx : Int := m.startBlkIdx + m.chunkBlksLen

def positionOffset : Int := m.startTokenDix - m.cachedStartPosition

def hitsVllmBlkIds : List Nat := compress m.vllmBlkIds m.storeHits

def hitsChunkBlksHash : List Bytes := compress m.chunkBlksHash m.storeHits

def updateMetaPartialPc (numPcPartBlks blockSize : Nat) : ChunkMetaData :=
  if 0 < numPcPartBlks then
    { m with
      startTokenDix := m.startTokenDix + numPcPartBlks * blockSize
      chunkTokensLen := m.chunkTokensLen - numPcPartBlks * blockSize
      startBlkIdx := m.startBlkIdx + numPcPartBlks
      chunkBlksLen := m.chunkBlksLen - numPcPartBlks
      chunkBlksHash := m.chunkBlksHash.drop numPcPartBlks
      storeHits := m.storeHits.drop numPcPartBlks
      cachedStartPosition := m.cachedStartPosition + numPcPartBlks * blockSize }
  else m

end ChunkMetaData

inductive BlendStage where
  | buildChunkCache
  | buildPrefixCache
  | cacheBlend
  deriving DecidableEq

structure BlendRequestMeta where
  ucmBlockHashs : List Bytes
  pcHitBlockNum : Nat
  chunksMeta : List ChunkMetaData
  blendStage : BlendStage

structure BlendRequestDispatchMeta where
  loadBlockIds : List Bytes × List Nat
  dumpBlockIds : List Bytes × List Nat
  chunksMeta : List ChunkMetaData
  deriving DecidableEq

/-- What a request is refused with. -/
inductive BlendError where
  /-- `self.monitor`. -/
  | attributeError
  /-- `req_chunks_meta[0]`. -/
  | indexError
  deriving DecidableEq

structure BlendConfig where
  blockSize : Nat
  pos : 0 < blockSize
  chunkEndTokenId : Int
  hasher : HashInput → Bytes
  seed : Bytes

variable (cfg : BlendConfig) (allTokenIds : List Int)

/-- `self.generate_hash`. -/
def BlendConfig.hashes (tokenIds : List Int) : List Bytes := generateHash cfg.hasher cfg.blockSize tokenIds cfg.seed

/-- The variables of the loop of `_process_req`. -/
structure Split where
  startBlkIdx : Nat
  startTokenDix : Nat
  chunksMeta : List ChunkMetaData
  reqChunksHashes : List Bytes

def splitBlock (s : Split) (endBlkIdx : Nat) : Split :=
  let endTokenIdx := cfg.blockSize - 1 + endBlkIdx * cfg.blockSize
  if allTokenIds[endTokenIdx]? = some cfg.chunkEndTokenId then
    let chunkBlksHash := cfg.hashes ((allTokenIds.take (endTokenIdx + 1)).drop s.startTokenDix)
    let chunkBlksLen : Int := endBlkIdx - s.startBlkIdx + 1
    { startBlkIdx := endBlkIdx + 1
      startTokenDix := endTokenIdx + 1
      chunksMeta :=
        s.chunksMeta ++ [⟨s.startTokenDix, chunkBlksLen * cfg.blockSize, s.startBlkIdx, chunkBlksLen, 0, [], chunkBlksHash, []⟩]
      reqChunksHashes := s.reqChunksHashes ++ chunkBlksHash }
  else s

/-- The loop, over the first `n` blocks. -/
def splitChunks (n : Nat) : Split := (List.range n).foldl (splitBlock cfg allTokenIds) ⟨0, 0, [], []⟩

/-- `_process_req`: the stage, the hashes of the prompt, the chunks, and their hashes. -/
def processReq : BlendStage × List Bytes × List ChunkMetaData × List Bytes :=
  let prefixBlockHashes := cfg.hashes allTokenIds
  if allTokenIds.getLast? = some cfg.chunkEndTokenId ∧ allTokenIds.length % cfg.blockSize = 0
    then (.buildChunkCache, prefixBlockHashes, [], [])
  else
    let s := splitChunks cfg allTokenIds (allTokenIds.length / cfg.blockSize)
    (if s.chunksMeta = [] then .buildPrefixCache else .cacheBlend, prefixBlockHashes, s.chunksMeta, s.reqChunksHashes)

section Hits

variable (lookupAll : List Bytes → List Bool)

/-- `_get_req_chunk_hit`, with the chunks that it leaves. -/
def getReqChunkHit (reqStage : BlendStage) (prefixBlockHashes : List Bytes) (reqChunksMeta : List ChunkMetaData)
    (reqChunksHashes : List Bytes) :
    Except BlendError (Nat × Nat × List ChunkMetaData) :=
  let pcLookupResults := lookupAll prefixBlockHashes
  let pcHitBlocks := (pcLookupResults.takeWhile id).length
  if reqStage ≠ .cacheBlend then .ok (pcHitBlocks, 0, reqChunksMeta)
  else
    let chunkLookupResults := lookupAll (reqChunksHashes.drop pcHitBlocks)
    let chunkHitBlocks := chunkLookupResults.countP id
    let chunkLookupResults := pcLookupResults.take pcHitBlocks ++ chunkLookupResults
    match reqChunksMeta.map fun m => { m with storeHits := pySlice chunkLookupResults m.startBlkIdx m.endBlkIdx } with
    | [] => .error .indexError
    | firstChunkMeta :: rest =>
      let firstChunkMeta := firstChunkMeta.updateMetaPartialPc pcHitBlocks cfg.blockSize
      .ok (pcHitBlocks, chunkHitBlocks, if firstChunkMeta.chunkTokensLen = 0 then rest else firstChunkMeta :: rest)

def minBlendThreshold : Nat := 16

/-- Whether `__init__`, here or in the classes above, has set `self.monitor`. -/
def hasMonitor : Bool := false

/-- `self.monitor.update_stats`. -/
def updateStats (monitor : Bool) : Except BlendError Unit := if monitor then .ok () else .error .attributeError

/-- `get_num_new_matched_tokens`: the tokens, and what is kept for the request. -/
def getNumNewMatchedTokens (monitor : Bool) : Except BlendError (Int × Option BlendRequestMeta) := do
  if allTokenIds.length / cfg.blockSize = 0 then return (0, none)
  let (reqStage, prefixBlockHashes, reqChunksMeta, reqChunksHashes) := processReq cfg allTokenIds
  let (pcHitBlocks, chunkHitBlocks, reqChunksMeta) ← getReqChunkHit cfg lookupAll reqStage prefixBlockHashes reqChunksMeta
      reqChunksHashes
  let reqStage := if chunkHitBlocks < minBlendThreshold then .buildPrefixCache else reqStage
  let reqChunksMeta := if chunkHitBlocks < minBlendThreshold then [] else reqChunksMeta
  let reqBlockHashes := if reqStage = .cacheBlend then reqChunksHashes else prefixBlockHashes
  updateStats monitor
  let pcHitTokens := pcHitBlocks * cfg.blockSize
  return (if pcHitTokens = allTokenIds.length then pcHitTokens - 1 else pcHitTokens,
    some ⟨reqBlockHashes, pcHitBlocks, reqChunksMeta, reqStage⟩)

end Hits

/-- `_generate_blend_dispatch_meta`. -/
def generateBlendDispatchMeta (reqMeta : BlendRequestMeta) (vllmBlockIds : List Nat) : BlendRequestDispatchMeta :=
  let loadUcmBlockIds := reqMeta.ucmBlockHashs.take reqMeta.pcHitBlockNum
  let loadVllmBlockIds := vllmBlockIds.take reqMeta.pcHitBlockNum
  if reqMeta.blendStage = .cacheBlend then
    let chunksMeta := reqMeta.chunksMeta.map fun m => { m with vllmBlkIds := pySlice vllmBlockIds m.startBlkIdx m.endBlkIdx }
    ⟨(loadUcmBlockIds ++ chunksMeta.flatMap (·.hitsChunkBlksHash), loadVllmBlockIds ++ chunksMeta.flatMap (·.hitsVllmBlkIds)),
      ([], []), chunksMeta⟩
  else
    ⟨(loadUcmBlockIds, loadVllmBlockIds),
      (reqMeta.ucmBlockHashs.drop reqMeta.pcHitBlockNum,
        (vllmBlockIds.take reqMeta.ucmBlockHashs.length).drop reqMeta.pcHitBlockNum),
      reqMeta.chunksMeta⟩

/-! ## Positions of the prompt -/

/-- The last token of the block is the end token. -/
def endsChunk (p : Nat) : Bool := allTokenIds[cfg.blockSize - 1 + p * cfg.blockSize]? = some cfg.chunkEndTokenId

/-- Where the chunk of a block starts. -/
def chunkStart : Nat → Nat
  | 0 => 0
  | p + 1 => if endsChunk cfg allTokenIds p = true then p + 1 else chunkStart p

def prefixHash (p : Nat) : Bytes := (cfg.hashes allTokenIds)[p]?.getD []

/-- The hash of a block, where the hashes start at its chunk. -/
def chunkHash (p : Nat) : Bytes :=
  (cfg.hashes (allTokenIds.drop (chunkStart cfg allTokenIds p * cfg.blockSize)))[p - chunkStart cfg allTokenIds p]?.getD []

variable {cfg} {allTokenIds} {n a e p : Nat} {m : ChunkMetaData} {ms : List ChunkMetaData}

theorem chunkStart_le (cfg : BlendConfig) (allTokenIds : List Int) (p : Nat) : chunkStart cfg allTokenIds p ≤ p := by
  induction p with
  | zero => exact Nat.le_refl 0
  | succ p ih =>
    rw [chunkStart]
    split
    · exact Nat.le_refl _
    · exact Nat.le_succ_of_le ih

theorem chunkStart_mono (cfg : BlendConfig) (allTokenIds : List Int) {p p' : Nat} (h : p ≤ p') :
    chunkStart cfg allTokenIds p ≤ chunkStart cfg allTokenIds p' := by
  induction h with
  | refl => exact Nat.le_refl _
  | @step p' hle ih =>
    rw [chunkStart]
    split
    · exact Nat.le_succ_of_le (Nat.le_trans (chunkStart_le cfg allTokenIds p) hle)
    · exact ih

/-- The blocks from the start of a chunk on are in that chunk. -/
theorem chunkStart_eq {p p' : Nat} (h : p ≤ p') (hstart : chunkStart cfg allTokenIds p' ≤ p) :
    chunkStart cfg allTokenIds p = chunkStart cfg allTokenIds p' := by
  induction h with
  | refl => rfl
  | @step p' hle ih =>
    rw [chunkStart] at hstart ⊢
    split at hstart
    · exact absurd (Nat.le_trans hstart hle) (Nat.not_succ_le_self _)
    · next hend =>
      rw [if_neg hend]
      exact ih hstart

theorem chunkHash_of_first (h : chunkStart cfg allTokenIds p = 0) :
    chunkHash cfg allTokenIds p = prefixHash cfg allTokenIds p := by
  unfold chunkHash prefixHash
  rw [h, Nat.zero_mul, List.drop_zero, Nat.sub_zero]

theorem range_append_range' (h : a ≤ e) : List.range a ++ List.range' a (e - a) = List.range e := by
  have happ := List.range'_append_1 (s := 0) (m := a) (n := e - a)
  rw [Nat.zero_add, Nat.add_sub_cancel' h] at happ
  rw [List.range_eq_range', List.range_eq_range']
  exact happ

theorem length_hashes (tokenIds : List Int) : (cfg.hashes tokenIds).length = tokenIds.length / cfg.blockSize :=
  generateHash_length cfg.hasher cfg.pos tokenIds cfg.seed

/-- The hashes of the first blocks. -/
theorem hashes_take {tokenIds : List Int} (h : n ≤ tokenIds.length / cfg.blockSize) :
    cfg.hashes (tokenIds.take (n * cfg.blockSize)) = (cfg.hashes tokenIds).take n := by
  have hlen : (tokenIds.take (n * cfg.blockSize)).length / cfg.blockSize = n := by
    rw [List.length_take, Nat.min_eq_left ((Nat.le_div_iff_mul_le cfg.pos).mp h), Nat.mul_div_cancel _ cfg.pos]
  have hblocks : fullBlocks cfg.blockSize (tokenIds.take (n * cfg.blockSize)) = (fullBlocks cfg.blockSize tokenIds).take n := by
    rw [fullBlocks_take _ _ h]
    unfold fullBlocks
    rw [hlen]
    exact List.map_congr_left fun k hk => blockTokens_take tokenIds (List.mem_range.mp hk)
  unfold BlendConfig.hashes
  rw [generateHash_eq _ cfg.pos, generateHash_eq _ cfg.pos, hblocks, chain_take]

theorem hashes_eq_map (tokenIds : List Int) :
    cfg.hashes tokenIds = (List.range (tokenIds.length / cfg.blockSize)).map (prefixHash cfg tokenIds) := by
  apply List.ext_getElem
  · rw [length_hashes, List.length_map, List.length_range]
  · intro i h _
    rw [List.getElem_map, List.getElem_range]
    unfold prefixHash
    rw [List.getElem?_eq_getElem h, Option.getD_some]

/-- The hashes of the tokens of a chunk. -/
theorem hashes_chunk (hle : a ≤ e) (he : e ≤ allTokenIds.length / cfg.blockSize)
    (hstart : ∀ p, a ≤ p → p < e → chunkStart cfg allTokenIds p = a) :
    cfg.hashes ((allTokenIds.take (e * cfg.blockSize)).drop (a * cfg.blockSize)) =
    (List.range' a (e - a)).map (chunkHash cfg allTokenIds) := by
  have hmul : a * cfg.blockSize ≤ e * cfg.blockSize := Nat.mul_le_mul_right _ hle
  have hend : e * cfg.blockSize ≤ allTokenIds.length := (Nat.le_div_iff_mul_le cfg.pos).mp he
  have hroom : e - a ≤ (allTokenIds.drop (a * cfg.blockSize)).length / cfg.blockSize := by
    rw [Nat.le_div_iff_mul_le cfg.pos, List.length_drop, Nat.sub_mul]
    omega
  have hcut : (allTokenIds.take (e * cfg.blockSize)).drop (a * cfg.blockSize) =
      (allTokenIds.drop (a * cfg.blockSize)).take ((e - a) * cfg.blockSize) := by
    rw [List.drop_take, Nat.sub_mul]
  rw [hcut, hashes_take hroom, hashes_eq_map, ← List.map_take, List.take_range, Nat.min_eq_left hroom,
    List.range'_eq_map_range, List.map_map]
  apply List.map_congr_left
  intro j hj
  have hj := List.mem_range.mp hj
  have hs := hstart (a + j) (Nat.le_add_right _ _) (by omega)
  show prefixHash cfg _ j = chunkHash cfg allTokenIds (a + j)
  unfold chunkHash prefixHash
  rw [hs, Nat.add_sub_cancel_left]

/-! ## The loop -/

/-- The chunk from block `a` to block `e`, as it is found. -/
structure IsChunk (cfg : BlendConfig) (allTokenIds : List Int) (a e : Nat) (m : ChunkMetaData) : Prop where
  lt : a < e
  start : ∀ p, a ≤ p → p < e → chunkStart cfg allTokenIds p = a
  ends : chunkStart cfg allTokenIds e = e
  made : m = ⟨a * cfg.blockSize, (e - a : Int) * cfg.blockSize, a, e - a, 0, [],
      (List.range' a (e - a)).map (chunkHash cfg allTokenIds), []⟩

/-- Chunks that follow one another from `a` to `b`. -/
inductive Follow (R : Nat → Nat → ChunkMetaData → Prop) : Nat → List ChunkMetaData → Nat → Prop
  | nil {a : Nat} : Follow R a [] a
  | cons {a e b : Nat} {m : ChunkMetaData} {ms : List ChunkMetaData} (h : R a e m) (hs : Follow R e ms b) : Follow R a (m :: ms) b

section Follow

variable {R R' : Nat → Nat → ChunkMetaData → Prop} {b : Nat}

theorem Follow.concat (hs : Follow R a ms b) (h : R b e m) : Follow R a (ms ++ [m]) e := by
  induction hs with
  | nil => exact .cons h .nil
  | cons h' _ ih => exact .cons h' (ih h)

theorem Follow.uncons (hs : Follow R a ms b) : ms = [] ∧ a = b ∨ ∃ e m ms', ms = m :: ms' ∧ R a e m ∧ Follow R e ms' b := by
  cases hs with
  | nil => exact .inl ⟨rfl, rfl⟩
  | cons h hs => exact .inr ⟨_, _, _, rfl, h, hs⟩

theorem Follow.le (hR : ∀ a e m, R a e m → a ≤ e) (hs : Follow R a ms b) : a ≤ b := by
  induction hs with
  | nil => exact Nat.le_refl _
  | cons h _ ih => exact Nat.le_trans (hR _ _ _ h) ih

theorem Follow.map (f : ChunkMetaData → ChunkMetaData) (hR : ∀ a e m, R a e m → a ≤ e)
    (hf : ∀ a e m, R a e m → e ≤ b → R' a e (f m))
    (hs : Follow R a ms b) : Follow R' a (ms.map f) b := by
  induction hs with
  | nil => exact .nil
  | cons h hs ih => exact .cons (hf _ _ _ h (hs.le hR)) (ih hf)

theorem Follow.forall {P : ChunkMetaData → Prop} (hP : ∀ a e m, R a e m → P m) (hs : Follow R a ms b) : ∀ m, m ∈ ms → P m := by
  induction hs with
  | nil => exact fun m hm => absurd hm List.not_mem_nil
  | cons h _ ih =>
    intro m hm
    rcases List.mem_cons.mp hm with rfl | hm
    · exact hP _ _ _ h
    · exact ih m hm

/-- What the chunks keep of their blocks, taken together. -/
theorem Follow.flatMap {β : Type} {g : ChunkMetaData → List β} {flag : Nat → Bool} {f : Nat → β} (hR : ∀ a e m, R a e m → a ≤ e)
    (hg : ∀ a e m, R a e m → g m = ((List.range' a (e - a)).filter flag).map f) (hs : Follow R a ms b) :
    ms.flatMap g = ((List.range' a (b - a)).filter flag).map f := by
  induction hs with
  | nil =>
    rw [Nat.sub_self]
    rfl
  | @cons a e b m ms h hs ih =>
    have hle := hR _ _ _ h
    have hle' := hs.le hR
    have happ := List.range'_append_1 (s := a) (m := e - a) (n := b - e)
    rw [Nat.add_sub_cancel' hle, show e - a + (b - e) = b - a by omega] at happ
    rw [List.flatMap_cons, hg _ _ _ h, ih, ← happ, List.filter_append, List.map_append]

end Follow

structure SplitInv (cfg : BlendConfig) (allTokenIds : List Int) (n : Nat) (s : Split) : Prop where
  startBlkIdx : s.startBlkIdx = chunkStart cfg allTokenIds n
  startTokenDix : s.startTokenDix = chunkStart cfg allTokenIds n * cfg.blockSize
  chunks : Follow (IsChunk cfg allTokenIds) 0 s.chunksMeta (chunkStart cfg allTokenIds n)
  hashes : s.reqChunksHashes = (List.range (chunkStart cfg allTokenIds n)).map (chunkHash cfg allTokenIds)

theorem SplitInv.block {s : Split} (h : SplitInv cfg allTokenIds n s) (hn : n < allTokenIds.length / cfg.blockSize) :
    SplitInv cfg allTokenIds (n + 1) (splitBlock cfg allTokenIds s n) := by
  have hpos := cfg.pos
  have htoken : cfg.blockSize - 1 + n * cfg.blockSize + 1 = (n + 1) * cfg.blockSize := by
    rw [Nat.succ_mul]
    omega
  simp only [splitBlock]
  by_cases hend : endsChunk cfg allTokenIds n = true
  · have hstart : chunkStart cfg allTokenIds (n + 1) = n + 1 := by
      rw [chunkStart, if_pos hend]
    have hle := chunkStart_le cfg allTokenIds n
    have hsame : ∀ p, chunkStart cfg allTokenIds n ≤ p → p < n + 1 →
        chunkStart cfg allTokenIds p = chunkStart cfg allTokenIds n :=
      fun p h1 h2 => chunkStart_eq (Nat.le_of_lt_succ h2) h1
    rw [if_pos (of_decide_eq_true hend), htoken, h.startTokenDix, h.startBlkIdx, hashes_chunk (Nat.le_succ_of_le hle) hn hsame]
    refine ⟨hstart.symm, by rw [hstart], ?_, ?_⟩
    · rw [hstart]
      refine h.chunks.concat ⟨Nat.lt_succ_of_le hle, hsame, hstart, ?_⟩
      have hlen : (n : Int) - chunkStart cfg allTokenIds n + 1 = ((n + 1 : Nat) : Int) - chunkStart cfg allTokenIds n := by
        omega
      rw [hlen, Int.natCast_mul]
    · rw [hstart, h.hashes, ← List.map_append]
      exact congrArg _ (range_append_range' (Nat.le_succ_of_le hle))
  · have hstart : chunkStart cfg allTokenIds (n + 1) = chunkStart cfg allTokenIds n := by
      rw [chunkStart, if_neg hend]
    rw [if_neg fun e => hend (decide_eq_true e)]
    exact ⟨by rw [hstart]; exact h.startBlkIdx, by rw [hstart]; exact h.startTokenDix, by rw [hstart]; exact h.chunks,
      by rw [hstart]; exact h.hashes⟩

/-- The loop finds the chunks, and the hashes of their blocks. -/
theorem split_chunks (cfg : BlendConfig) (allTokenIds : List Int) {n : Nat} (hn : n ≤ allTokenIds.length / cfg.blockSize) :
    SplitInv cfg allTokenIds n (splitChunks cfg allTokenIds n) := by
  induction n with
  | zero => exact ⟨rfl, (Nat.zero_mul _).symm, .nil, rfl⟩
  | succ n ih =>
    unfold splitChunks
    rw [List.range_succ, List.foldl_append]
    exact (ih (Nat.le_of_succ_le hn)).block hn

end UnifiedCache.Connector
