/-
  UnifiedCache.Connector.FawaDump — how the workers of a FAWA connector share a step's dump
  (ucm/integration/vllm/hma_connector.py: `_slice_group_block_ids`, `_generate_dispatch_meta`,
  `_extract_fa_ptr`, `_extract_wa_ptr` and `wait_for_save` of `UCMFAWAConnector`, and the addresses of
  `KVCacheGroupLayout`).

  The scheduler plans for each request which hash blocks are dumped and which block ids of each
  group hold them: one for each key in a full-attention group; in a window group the `tail_blocks`
  ones before each block's end, or before the last one's. Every tensor-parallel rank gets the same
  plans. It dumps its share of each request's keys with the rows of pointers that it makes for them;
  where only the last window state is stored, a ring over the requests says which rank does.

  An index or an array of a wrong shape raises (`none`). Block ids and pointers are unsigned 64-bit;
  numpy makes doubles of the product of signed offsets and unsigned sizes. What the store does with a
  dump that it is handed, and the log and the metrics, are left out.

  - `generateDispatchMeta_shaped`: the shapes of a plan's arrays.
  - `extractFaPtr_eq`, `extractWaPtr_eq`: row `i` is made of the block ids of key `i`.
  - `rank_dumps`: what one rank dumps.
  - `dump_split_exact`: the ranks' dumps together are those of every key, once, with its row.
-/

import UnifiedCache.Base.Binary64
import UnifiedCache.Base.Lists
import UnifiedCache.Base.Shares
import UnifiedCache.Connector.BlendChunks
import UnifiedCache.Connector.FawaLookup

namespace UnifiedCache.Connector.Fawa

open UnifiedCache.Base

/-! ## Layouts -/

/-- A tensor view of a group's layout. -/
structure View where
  basePtr : Nat
  blockStride : Nat
  tokenStride : Nat
  tensorBlockSize : Nat

/-- The pointers of a key. -/
abbrev Row := List Nat

/-- An item of `extract_addrs`. -/
def blockAddr (v : View) (blockId : Nat) : Nat := (blockId * v.blockStride % 2 ^ 64 + v.basePtr) % 2 ^ 64

def extractAddrs (views : List View) (blockIds : List Nat) : List Row := blockIds.map fun b => views.map fun v => blockAddr v b

/-- An item of `extract_addrs_with_offsets`; `num`: what is kept of a number in the offsets' arithmetic. -/
def tokenAddr (num : Nat → Nat) (groupTokenBlockSize : Nat) (v : View) (blockId offset : Nat) : Nat :=
  let physicalTokenOffset := num (num (num offset * num v.tensorBlockSize) / groupTokenBlockSize)
  num (num (num (blockId * v.blockStride % 2 ^ 64) + num (physicalTokenOffset * num v.tokenStride)) + num v.basePtr) % 2 ^ 64

def extractAddrsWithOffsets (num : Nat → Nat) (views : List View) (groupTokenBlockSize : Nat)
    (blockIds offsets : List Nat) : List Row :=
  List.zipWith (fun b offset => views.map fun v => tokenAddr num groupTokenBlockSize v b offset) blockIds offsets

/-- A KV cache group: its meta data, whether it is a window group, and its layout on this worker. -/
structure Group where
  window : Bool
  tokenBlockSize : Nat
  tailBlocks : Nat
  tailTokens : Int
  layout : Option (List View)

/-- Whether a group has pointers in the window rows. -/
def Group.hasTail (g : Group) : Bool := g.window && decide (g.tailTokens ≠ 0)

/-- A worker of a connector; both stores have a layout, or they are not made. -/
structure Worker where
  hashBlockSize : Nat
  waDumpBlockWise : Bool
  groups : List Group
  hasFull : ∃ g ∈ groups, g.window = false ∧ g.layout.isSome
  hasWindow : ∃ g ∈ groups, g.hasTail = true ∧ g.layout.isSome

variable (cfg : Worker)

/-! ## The scheduler's plan -/

structure FAWARequestDispatchMeta where
  loadKeys : List Bytes
  loadHashStart : Nat
  loadHashEnd : Nat
  loadVllmBlockIds : List (List Nat)
  dumpKeys : List Bytes
  dumpHashStart : Nat
  dumpHashEnd : Nat
  dumpVllmBlockIds : List (List Nat)

/-- `_slice_group_block_ids`, for the token indices of at least one boundary. -/
def sliceGroupBlockIds (g : Group) (groupBlockIds : List Nat) (windowBoundaryTokenIdx : List Nat) (fetchWaBlockWise : Bool) :
    Option (List Nat) :=
  if g.window then
    if g.tailTokens = 0 then some []
    else if fetchWaBlockWise then
      (windowBoundaryTokenIdx.flatMap fun idx => (List.range g.tailBlocks).reverse.map fun offset =>
        ((idx / g.tokenBlockSize : Nat) : Int) - (offset : Nat)).mapM (pyGet groupBlockIds)
    else
      windowBoundaryTokenIdx.getLast?.map fun idx =>
        let boundaryBlockIdx := idx / g.tokenBlockSize + 1
        pySlice groupBlockIds ((boundaryBlockIdx : Int) - g.tailBlocks) boundaryBlockIdx
  else windowBoundaryTokenIdx.mapM fun idx => groupBlockIds[idx / g.tokenBlockSize]?

/-- `np.arange(start + 1, end + 1) * hash_block_size - 1`. -/
def boundaries (start stop : Nat) : List Nat := (List.range' (start + 1) (stop - start)).map fun h => h * cfg.hashBlockSize - 1

/-- The block ids of every group. -/
def sliceGroups (allGroupBlockIds : List (List Nat)) (start stop : Nat) (fetchWaBlockWise : Bool) : Option (List (List Nat)) :=
  allGroupBlockIds.zipIdx.mapM fun (groupBlockIds, groupId) =>
    cfg.groups[groupId]?.bind fun g => sliceGroupBlockIds g groupBlockIds (boundaries cfg start stop) fetchWaBlockWise

/-- `_generate_dispatch_meta`; the request's state after it, and the plan. -/
def generateDispatchMeta (req : FAWARequestMeta) (newTokens : Nat) (newVllmBlockIds : List (List Nat)) (needLoad : Bool) :
    Option (FAWARequestMeta × FAWARequestDispatchMeta) :=
  let tables := if req.vllmBlockIds = [] then cfg.groups.map fun _ => [] else req.vllmBlockIds
  if newVllmBlockIds.length ≠ tables.length then none
  else
    let tables := List.zipWith (· ++ ·) tables newVllmBlockIds
    let loads := needLoad && decide (req.hbmHitBlockNum < req.totalHitBlockNum)
    let computedEndToken := min req.numTokenIds (req.tokenProcessed + newTokens)
    let dumpStart := max req.totalHitBlockNum (req.tokenProcessed / cfg.hashBlockSize)
    let dumpEnd := computedEndToken / cfg.hashBlockSize
    let dumps := decide (dumpStart < dumpEnd)
    match if loads then sliceGroups cfg tables req.hbmHitBlockNum req.totalHitBlockNum false else some [],
        if dumps then sliceGroups cfg tables dumpStart dumpEnd cfg.waDumpBlockWise else some [] with
    | some loadVllmBlockIds, some dumpVllmBlockIds =>
      some
        ({ req with vllmBlockIds := tables, tokenProcessed := computedEndToken },
          { loadKeys := if loads then (req.ucmBlockIds.take req.totalHitBlockNum).drop req.hbmHitBlockNum else []
            loadHashStart := if loads then req.hbmHitBlockNum else 0
            loadHashEnd := if loads then req.totalHitBlockNum else 0
            loadVllmBlockIds := loadVllmBlockIds
            dumpKeys := if dumps then (req.ucmBlockIds.take dumpEnd).drop dumpStart else []
            dumpHashStart := dumpStart
            dumpHashEnd := dumpEnd
            dumpVllmBlockIds := dumpVllmBlockIds })
    | _, _ => none

/-! ## The rows of a worker -/

/-- `np.concatenate(arrays, axis=1)`, for arrays of rows. -/
def hstack : List (List Row) → Option (List Row)
  | [] => none
  | a :: rest =>
    if rest.all (fun b => b.length == a.length) then
      some ((List.range a.length).map fun i => (a :: rest).flatMap fun b => (b[i]?).getD [])
    else none

/-- `reshape(n, -1)`. -/
def reshape (n : Nat) (rows : List Row) : Option (List Row) :=
  if n = 0 ∨ rows.flatten.length % n ≠ 0 then none
  else
    let width := rows.flatten.length / n
    some ((List.range n).map fun i => (rows.flatten.drop (i * width)).take width)

/-- The pointers of each group that has some, of the groups with these numbers. -/
def groupPtrs (layoutOf : Group → Option (List View)) (extract : Group → List View → List Nat → Option (List Row))
    (vllmIds : List (List Nat)) :
    List (Group × Nat) → Option (List (List Row))
  | [] => some []
  | (g, groupId) :: rest =>
    match layoutOf g with
    | none => groupPtrs layoutOf extract vllmIds rest
    | some views =>
      match vllmIds[groupId]? with
      | none => none
      | some blockIds => (extract g views blockIds).bind fun ptrs => (groupPtrs layoutOf extract vllmIds rest).map (ptrs :: ·)

/-- The layout of a full-attention group. -/
def Group.fullLayout (g : Group) : Option (List View) := if g.window then none else g.layout

/-- The layout of a window group that has pointers. -/
def Group.tailLayout (g : Group) : Option (List View) := if g.hasTail then g.layout else none

def fullPtrs (hashStart hashEnd : Nat) (g : Group) (views : List View) (blockIds : List Nat) : Option (List Row) :=
  if cfg.hashBlockSize = g.tokenBlockSize then some (extractAddrs views blockIds)
  else
    some (extractAddrsWithOffsets f64 views g.tokenBlockSize blockIds
      ((List.range' hashStart (hashEnd - hashStart)).map fun h => h * cfg.hashBlockSize % g.tokenBlockSize))

/-- `_extract_fa_ptr`. -/
def extractFaPtr (hashStart hashEnd : Nat) (candidateVllmIds : List (List Nat)) : Option (List Row) :=
  (groupPtrs Group.fullLayout (fullPtrs cfg hashStart hashEnd) candidateVllmIds cfg.groups.zipIdx).bind hstack

/-- Whether a tail is the end of one larger block. -/
def Group.shortTail (g : Group) : Prop := g.tailBlocks = 1 ∧ g.tailTokens < g.tokenBlockSize

instance (g : Group) : Decidable g.shortTail := inferInstanceAs (Decidable (_ ∧ _))

/-- Where such a tail begins. -/
def Group.tailOffset (g : Group) : Nat := ((g.tokenBlockSize : Int) - g.tailTokens).toNat

/-- What an unsigned 64-bit number keeps. -/
def u64 (n : Nat) : Nat := n % 2 ^ 64

def tailPtrs (nKeys : Nat) (g : Group) (views : List View) (blockIds : List Nat) : Option (List Row) :=
  if g.shortTail then some (extractAddrsWithOffsets u64 views g.tokenBlockSize blockIds (blockIds.map fun _ => g.tailOffset))
  else reshape nKeys (extractAddrs views blockIds)

/-- `_extract_wa_ptr`. -/
def extractWaPtr (nKeys : Nat) (vllmIds : List (List Nat)) : Option (List Row) :=
  (groupPtrs Group.tailLayout (tailPtrs nKeys) vllmIds cfg.groups.zipIdx).bind hstack

/-! ## `wait_for_save` -/

section Save

variable {Req : Type}

/-- What is gathered for one store: keys, rows, and the keys of each request. -/
structure DumpPart (Req : Type) where
  keys : List Bytes
  rows : List Row
  blocksByRequest : List (Req × List Bytes)

namespace DumpPart

def empty : DumpPart Req := ⟨[], [], []⟩

def append (p q : DumpPart Req) : DumpPart Req := ⟨p.keys ++ q.keys, p.rows ++ q.rows, p.blocksByRequest ++ q.blocksByRequest⟩

/-- The keys of one request with their rows. -/
def ofRows (requestId : Req) (keys : List Bytes) (rows : List Row) : DumpPart Req := ⟨keys, rows, [(requestId, keys)]⟩

end DumpPart

/-- A request's keys for the two stores on rank `tpRank` of more than one. -/
def splitRequest (tpSize tpRank waDumpRingIdx : Nat) (requestId : Req) (request : FAWARequestDispatchMeta) :
    Option (DumpPart Req × DumpPart Req) :=
  let numKeys := request.dumpKeys.length
  let tpBlockStart := numKeys * tpRank / tpSize
  let tpBlockEnd := numKeys * (tpRank + 1) / tpSize
  let tpDumpKeys := (request.dumpKeys.take tpBlockEnd).drop tpBlockStart
  let fa :=
    if tpDumpKeys = [] then some DumpPart.empty
    else
      let faDumpVllmBlockIds := request.dumpVllmBlockIds.mapIdx fun groupId groupBlockIds =>
        if (cfg.groups[groupId]?).any fun g => !g.window then (groupBlockIds.take tpBlockEnd).drop tpBlockStart else groupBlockIds
      (extractFaPtr cfg (request.dumpHashStart + tpBlockStart) (request.dumpHashStart + tpBlockEnd) faDumpVllmBlockIds).map
        (.ofRows requestId tpDumpKeys)
  let wa :=
    if cfg.waDumpBlockWise then
      if tpDumpKeys = [] then some DumpPart.empty
      else
        let waDumpVllmBlockIds := request.dumpVllmBlockIds.mapIdx fun groupId groupBlockIds =>
          match cfg.groups[groupId]? with
          | some g =>
            if g.window then (groupBlockIds.take (tpBlockEnd * g.tailBlocks)).drop (tpBlockStart * g.tailBlocks)
              else groupBlockIds
          | none => groupBlockIds
        (extractWaPtr cfg tpDumpKeys.length waDumpVllmBlockIds).map (.ofRows requestId tpDumpKeys)
    else if waDumpRingIdx % tpSize = tpRank then
      let requestWaDumpKeys := request.dumpKeys.drop (numKeys - 1)
      (extractWaPtr cfg requestWaDumpKeys.length request.dumpVllmBlockIds).map (.ofRows requestId requestWaDumpKeys)
    else some .empty
  fa.bind fun fa => wa.map fun wa => (fa, wa)

/-- The same on a single rank. -/
def wholeRequest (requestId : Req) (request : FAWARequestDispatchMeta) : Option (DumpPart Req × DumpPart Req) :=
  let fa := (extractFaPtr cfg request.dumpHashStart request.dumpHashEnd request.dumpVllmBlockIds).map
      (.ofRows requestId request.dumpKeys)
  let waKeys := if cfg.waDumpBlockWise then request.dumpKeys else request.dumpKeys.drop (request.dumpKeys.length - 1)
  let wa := (extractWaPtr cfg waKeys.length request.dumpVllmBlockIds).map (.ofRows requestId waKeys)
  fa.bind fun fa => wa.map fun wa => (fa, wa)

/-- The loop over the requests, from ring index `waDumpRingIdx`. -/
def gather (tpSize tpRank : Nat) : Nat → List (Req × FAWARequestDispatchMeta) → Option (DumpPart Req × DumpPart Req)
  | _, [] => some (.empty, .empty)
  | waDumpRingIdx, (requestId, request) :: rest =>
    if request.dumpKeys = [] then gather tpSize tpRank waDumpRingIdx rest
    else
      (if tpSize > 1 then splitRequest cfg tpSize tpRank waDumpRingIdx requestId request
        else wholeRequest cfg requestId request).bind
        fun (fa, wa) => (gather tpSize tpRank (waDumpRingIdx + 1) rest).map fun (fa', wa') => (fa.append fa', wa.append wa')

/-- Whether rows can be stacked. -/
def uniform (rows : List Row) : Bool := rows.all fun row => row.length == (rows.headD []).length

/-- What one rank hands to the two stores, and whether the call raises. -/
structure Submitted (Req : Type) where
  fa : DumpPart Req
  wa : DumpPart Req
  raised : Bool

/-- `wait_for_save`: the full-attention keys go first. -/
def waitForSave (tpSize tpRank : Nat) (requestMeta : List (Req × FAWARequestDispatchMeta)) : Submitted Req :=
  match gather cfg tpSize tpRank 0 requestMeta with
  | none => ⟨.empty, .empty, true⟩
  | some (fa, wa) =>
    if !uniform fa.rows then ⟨.empty, .empty, true⟩
    else if !uniform wa.rows then ⟨fa, .empty, true⟩
    else ⟨fa, wa, false⟩

end Save

/-! ## The shapes of a plan -/

/-- The arrays of a plan that has keys to dump: one block id a key in a full-attention group, the tail
    before each boundary in a window group, or one tail. -/
structure Shaped (m : FAWARequestDispatchMeta) : Prop where
  keys : m.dumpKeys.length = m.dumpHashEnd - m.dumpHashStart
  full : ∀ (groupId : Nat) g, cfg.groups[groupId]? = some g → g.window = false →
    ∃ ids, m.dumpVllmBlockIds[groupId]? = some ids ∧ ids.length = m.dumpKeys.length
  tails : ∀ (groupId : Nat) g, cfg.groups[groupId]? = some g → g.hasTail = true →
    ∃ ids, m.dumpVllmBlockIds[groupId]? = some ids ∧
      (cfg.waDumpBlockWise = true → ids.length = m.dumpKeys.length * g.tailBlocks) ∧
      (cfg.waDumpBlockWise = false → g.tailBlocks = 1 → ids.length = 1)

/-- A plan that the scheduler builds of a request: its keys are the hashes of its blocks, each group has
    a table, and each table has the block of the last token to dump. -/
structure Planned (m : FAWARequestDispatchMeta) : Prop where
  built : ∃ req newTokens newVllmBlockIds needLoad req',
    generateDispatchMeta cfg req newTokens newVllmBlockIds needLoad = some (req', m) ∧
    req.ucmBlockIds.length = req.numTokenIds / cfg.hashBlockSize ∧
    (req.vllmBlockIds = [] ∨ req.vllmBlockIds.length = cfg.groups.length) ∧
    ∀ (groupId : Nat) g table, cfg.groups[groupId]? = some g → req'.vllmBlockIds[groupId]? = some table →
      m.dumpKeys ≠ [] → (m.dumpHashEnd * cfg.hashBlockSize - 1) / g.tokenBlockSize < table.length

section Shapes

variable {cfg} {m : FAWARequestDispatchMeta} {g : Group} {ids table : List Nat} {start stop : Nat}

theorem boundaries_length : (boundaries cfg start stop).length = stop - start := by
  rw [boundaries, List.length_map, List.length_range']

theorem boundaries_getLast (h : start < stop) : (boundaries cfg start stop).getLast? = some (stop * cfg.hashBlockSize - 1) := by
  rw [boundaries, List.getLast?_map, List.getLast?_range', if_neg (by omega)]
  simp only [Option.map_some, Option.some.injEq]
  congr 2
  omega

theorem sliceGroupBlockIds_full {wise : Bool} (hg : g.window = false)
    (h : sliceGroupBlockIds g table (boundaries cfg start stop) wise = some ids) : ids.length = stop - start := by
  unfold sliceGroupBlockIds at h
  rw [hg, if_neg (by simp)] at h
  rw [← (mapM_some_iff.mp h).length_eq, boundaries_length]

theorem sliceGroupBlockIds_wise (hg : g.hasTail = true)
    (h : sliceGroupBlockIds g table (boundaries cfg start stop) true = some ids) :
    ids.length = (stop - start) * g.tailBlocks := by
  obtain ⟨hwindow, htail⟩ : g.window = true ∧ g.tailTokens ≠ 0 := by simpa [Group.hasTail] using hg
  unfold sliceGroupBlockIds at h
  rw [if_pos hwindow, if_neg htail, if_pos rfl] at h
  rw [← (mapM_some_iff.mp h).length_eq, List.length_flatMap]
  simp [boundaries_length]

/-- The last tail, if it is one block, is in the table. -/
theorem sliceGroupBlockIds_last (hg : g.hasTail = true) (htail1 : g.tailBlocks = 1) (hlt : start < stop)
    (hcovers : (stop * cfg.hashBlockSize - 1) / g.tokenBlockSize < table.length)
    (h : sliceGroupBlockIds g table (boundaries cfg start stop) false = some ids) : ids.length = 1 := by
  obtain ⟨hwindow, htail⟩ : g.window = true ∧ g.tailTokens ≠ 0 := by simpa [Group.hasTail] using hg
  unfold sliceGroupBlockIds at h
  rw [if_pos hwindow, if_neg htail, if_neg (by simp), boundaries_getLast hlt, Option.map_some, Option.some.injEq] at h
  rw [← h, htail1]
  generalize (stop * cfg.hashBlockSize - 1) / g.tokenBlockSize = last at hcovers ⊢
  have hfrom : ((last + 1 : Nat) : Int) - ((1 : Nat) : Int) = (last : Nat) := by omega
  show (pySlice table (((last + 1 : Nat) : Int) - ((1 : Nat) : Int)) (last + 1 : Nat)).length = 1
  rw [hfrom, pySlice_eq, List.length_drop, List.length_take]
  omega

/-- Each group's block ids are sliced from its table. -/
theorem sliceGroups_at {tables sliced : List (List Nat)} {wise : Bool} (h : sliceGroups cfg tables start stop wise = some sliced)
    {groupId : Nat} (hg : cfg.groups[groupId]? = some g) (htable : tables[groupId]? = some table) :
    ∃ ids, sliced[groupId]? = some ids ∧ sliceGroupBlockIds g table (boundaries cfg start stop) wise = some ids := by
  have hat : tables.zipIdx[groupId]? = some (table, groupId) := by simp [List.getElem?_zipIdx, htable]
  obtain ⟨ids, hids, hsliced⟩ := forall₂_at (mapM_some_iff.mp h) hat
  exact ⟨ids, hids, by simpa [hg] using hsliced⟩

/-- What a plan says of its dump. -/
theorem generateDispatchMeta_dump {req req' : FAWARequestMeta} {newTokens : Nat} {newIds : List (List Nat)} {needLoad : Bool}
    (h : generateDispatchMeta cfg req newTokens newIds needLoad = some (req', m)) :
    newIds.length = (if req.vllmBlockIds = [] then cfg.groups.map fun _ => [] else req.vllmBlockIds).length ∧
    req'.vllmBlockIds = List.zipWith (· ++ ·) (if req.vllmBlockIds = [] then cfg.groups.map fun _ => []
      else req.vllmBlockIds) newIds ∧
    m.dumpHashEnd ≤ req.numTokenIds / cfg.hashBlockSize ∧
    m.dumpKeys = (if m.dumpHashStart < m.dumpHashEnd then (req.ucmBlockIds.take m.dumpHashEnd).drop m.dumpHashStart else []) ∧
    (m.dumpHashStart < m.dumpHashEnd →
      sliceGroups cfg req'.vllmBlockIds m.dumpHashStart m.dumpHashEnd cfg.waDumpBlockWise = some m.dumpVllmBlockIds) := by
  unfold generateDispatchMeta at h
  dsimp only at h
  generalize (if req.vllmBlockIds = [] then cfg.groups.map fun _ => [] else req.vllmBlockIds) = tables at h ⊢
  by_cases hlength : newIds.length = tables.length
  · rw [if_neg (by simpa using hlength)] at h
    split at h
    · rename_i loadIds dumpIds hload hdump
      obtain ⟨rfl, rfl⟩ := Prod.mk.inj (Option.some.inj h)
      refine ⟨hlength, rfl, Nat.div_le_div_right (Nat.min_le_left _ _), by simp only [decide_eq_true_eq], fun hlt => ?_⟩
      dsimp only at hlt ⊢
      rwa [if_pos (decide_eq_true hlt)] at hdump
    · cases h
  · rw [if_pos hlength] at h
    cases h

theorem Planned.shaped (h : Planned cfg m) (hkeys : m.dumpKeys ≠ []) : Shaped cfg m := by
  obtain ⟨req, newTokens, newIds, needLoad, req', hbuilt, hhashes, htables, hcovers⟩ := h.built
  obtain ⟨hlength, hreq', hend, hdumpKeys, hsliced⟩ := generateDispatchMeta_dump hbuilt
  have hlt : m.dumpHashStart < m.dumpHashEnd := by
    by_contra hnot
    rw [if_neg hnot] at hdumpKeys
    exact hkeys hdumpKeys
  rw [if_pos hlt] at hdumpKeys
  have hn : m.dumpKeys.length = m.dumpHashEnd - m.dumpHashStart := by
    rw [hdumpKeys, List.length_drop, List.length_take, hhashes, Nat.min_eq_left hend]
  have htablesLength : req'.vllmBlockIds.length = cfg.groups.length := by
    rw [hreq', List.length_zipWith, hlength, Nat.min_self]
    rcases htables with hnil | hall
    · rw [if_pos hnil, List.length_map]
    · split
      · rw [List.length_map]
      · exact hall
  have htable : ∀ (groupId : Nat) g, cfg.groups[groupId]? = some g → ∃ table, req'.vllmBlockIds[groupId]? = some table := by
    intro groupId g hg
    have hlt : groupId < req'.vllmBlockIds.length := by
      rw [htablesLength]
      exact (List.getElem?_eq_some_iff.mp hg).1
    exact ⟨_, List.getElem?_eq_getElem hlt⟩
  refine ⟨hn, fun groupId g hg hfull => ?_, fun groupId g hg htail => ?_⟩
  · obtain ⟨table, htab⟩ := htable groupId g hg
    obtain ⟨ids, hids, hslice⟩ := sliceGroups_at (hsliced hlt) hg htab
    exact ⟨ids, hids, by rw [sliceGroupBlockIds_full hfull hslice, hn]⟩
  · obtain ⟨table, htab⟩ := htable groupId g hg
    obtain ⟨ids, hids, hslice⟩ := sliceGroups_at (hsliced hlt) hg htab
    refine ⟨ids, hids, fun hwise => ?_, fun hchunk hone => ?_⟩
    · rw [hwise] at hslice
      rw [sliceGroupBlockIds_wise htail hslice, hn]
    · rw [hchunk] at hslice
      exact sliceGroupBlockIds_last htail hone hlt (hcovers groupId g table hg htab hkeys) hslice

end Shapes

/-! ## Rows of keys -/

/-- A full-attention group's pointers for a key: those of its block id, at its offset. -/
def Group.fullRow (g : Group) (blockId hash : Nat) : Row :=
  match g.fullLayout with
  | some views =>
    if cfg.hashBlockSize = g.tokenBlockSize then views.map fun v => blockAddr v blockId
    else views.map fun v => tokenAddr f64 g.tokenBlockSize v blockId (hash * cfg.hashBlockSize % g.tokenBlockSize)
  | none => []

/-- A window group's pointers for a tail of these block ids. -/
def Group.tailRow (g : Group) (blockIds : List Nat) : Row :=
  match g.tailLayout with
  | some views =>
    if g.shortTail then views.map fun v => tokenAddr u64 g.tokenBlockSize v (blockIds.headD 0) g.tailOffset
    else blockIds.flatMap fun b => views.map fun v => blockAddr v b
  | none => []

/-- The full-attention row of key `i` of a request. -/
def faRow (ids : List (List Nat)) (hashStart i : Nat) : Row :=
  cfg.groups.zipIdx.flatMap fun x => x.1.fullRow cfg (((ids[x.2]?).getD [])[i]?.getD 0) (hashStart + i)

/-- The window row of the tails that `pick` takes of each group's block ids. -/
def waRow (ids : List (List Nat)) (pick : Group → List Nat → List Nat) : Row :=
  cfg.groups.zipIdx.flatMap fun x => x.1.tailRow (pick x.1 ((ids[x.2]?).getD []))

/-- The tail of key `i`. -/
def tailOf (i : Nat) (g : Group) (ids : List Nat) : List Nat := (ids.drop (i * g.tailBlocks)).take g.tailBlocks

/-- The one tail that there is. -/
def lastTail (_g : Group) (ids : List Nat) : List Nat := ids

section Rows

variable {cfg} {ids : List (List Nat)} {n hashStart : Nat}

theorem hstack_eq {arrays : List (List Row)} (hne : arrays ≠ []) (hall : ∀ a ∈ arrays, a.length = n) :
    hstack arrays = some ((List.range n).map fun i => arrays.flatMap fun a => (a[i]?).getD []) := by
  cases arrays with
  | nil => exact absurd rfl hne
  | cons a rest =>
    have ha : a.length = n := hall a List.mem_cons_self
    have hrest : rest.all (fun b => b.length == a.length) = true := by
      rw [List.all_eq_true]
      intro b hb
      rw [ha, hall b (List.mem_cons_of_mem a hb)]
      exact beq_self_eq_true n
    rw [hstack, if_pos hrest, ha]

/-- Where each group with a layout has an array of one row a key, the groups' rows are put side by
    side. By induction on the groups. -/
theorem groupPtrs_spec {layoutOf : Group → Option (List View)} {extract : Group → List View → List Nat → Option (List Row)}
    (row : Nat → Group → List Nat → Row) (hnone : ∀ i g l, layoutOf g = none → row i g l = []) (L : List (Group × Nat))
    (hshape : ∀ x ∈ L, ∀ views, layoutOf x.1 = some views → ∃ l ptrs, ids[x.2]? = some l ∧ extract x.1 views l = some ptrs ∧
      ptrs.length = n ∧ ∀ i < n, ptrs[i]? = some (row i x.1 l)) :
    ∃ arrays, groupPtrs layoutOf extract ids L = some arrays ∧ (∀ a ∈ arrays, a.length = n) ∧
      ((∃ x ∈ L, (layoutOf x.1).isSome) → arrays ≠ []) ∧
      ∀ i < n, (arrays.flatMap fun a => (a[i]?).getD []) = L.flatMap fun x => row i x.1 ((ids[x.2]?).getD []) := by
  induction L with
  | nil => exact ⟨[], rfl, fun a ha => absurd ha List.not_mem_nil, fun ⟨x, hx, _⟩ => absurd hx List.not_mem_nil, fun i _ => rfl⟩
  | cons x L ih =>
    obtain ⟨arrays, harrays, hlengths, hne, hrows⟩ := ih fun y hy => hshape y (List.mem_cons_of_mem _ hy)
    cases hlayout : layoutOf x.1 with
    | none =>
      refine ⟨arrays, by rw [groupPtrs, hlayout]; exact harrays, hlengths, fun ⟨y, hy, hsome⟩ => ?_, fun i hi => ?_⟩
      · rcases List.mem_cons.mp hy with rfl | hy
        · rw [hlayout] at hsome
          cases hsome
        · exact hne ⟨y, hy, hsome⟩
      · rw [hrows i hi, List.flatMap_cons, hnone i x.1 _ hlayout, List.nil_append]
    | some views =>
      obtain ⟨l, ptrs, hids, hextract, hlength, hrow⟩ := hshape x List.mem_cons_self views hlayout
      refine ⟨ptrs :: arrays, ?_, fun a ha => ?_, fun _ => List.cons_ne_nil _ _, fun i hi => ?_⟩
      · simp only [groupPtrs, hlayout, hids, hextract, harrays, Option.bind_some, Option.map_some]
      · rcases List.mem_cons.mp ha with rfl | ha
        · exact hlength
        · exact hlengths a ha
      · rw [List.flatMap_cons, List.flatMap_cons, hrows i hi, hrow i hi, hids, Option.getD_some, Option.getD_some]

/-- The whole, for groups of which one has a layout. -/
theorem groupPtrs_hstack {layoutOf : Group → Option (List View)} {extract : Group → List View → List Nat → Option (List Row)}
    (row : Nat → Group → List Nat → Row) (hnone : ∀ i g l, layoutOf g = none → row i g l = [])
    (hsome : ∃ g ∈ cfg.groups, (layoutOf g).isSome)
    (hshape : ∀ (groupId : Nat) g, cfg.groups[groupId]? = some g → ∀ views, layoutOf g = some views →
      ∃ l ptrs, ids[groupId]? = some l ∧ extract g views l = some ptrs ∧ ptrs.length = n ∧ ∀ i < n, ptrs[i]? = some (row i g l)) :
    (groupPtrs layoutOf extract ids cfg.groups.zipIdx).bind hstack =
      some ((List.range n).map fun i => cfg.groups.zipIdx.flatMap fun x => row i x.1 ((ids[x.2]?).getD [])) := by
  obtain ⟨arrays, harrays, hlengths, hne, hrows⟩ := groupPtrs_spec row hnone cfg.groups.zipIdx
    fun x hx views hlayout => hshape x.2 x.1 (List.mem_zipIdx_iff_getElem?.mp hx) views hlayout
  obtain ⟨g, hg, hlayout⟩ := hsome
  obtain ⟨groupId, hid⟩ := List.mem_iff_getElem?.mp hg
  have hmem : (g, groupId) ∈ cfg.groups.zipIdx := List.mem_zipIdx_iff_getElem?.mpr hid
  rw [harrays, Option.bind_some, hstack_eq (hne ⟨_, hmem, hlayout⟩) hlengths]
  congr 1
  apply List.map_congr_left
  intro i hi
  exact hrows i (List.mem_range.mp hi)

theorem extractAddrsWithOffsets_getElem? (num : Nat → Nat) (views : List View) (G : Nat) {blockIds offsets : List Nat}
    {i b offset : Nat}
    (hb : blockIds[i]? = some b) (ho : offsets[i]? = some offset) :
    (extractAddrsWithOffsets num views G blockIds offsets)[i]? = some (views.map fun v => tokenAddr num G v b offset) := by
  rw [extractAddrsWithOffsets, List.getElem?_zipWith, hb, ho]

/-- Row `i` is made of the block ids of key `i`. -/
theorem extractFaPtr_eq
    (hshape : ∀ (groupId : Nat) g, cfg.groups[groupId]? = some g → g.window = false → ∃ l, ids[groupId]? = some l ∧
      l.length = n) :
    extractFaPtr cfg hashStart (hashStart + n) ids = some ((List.range n).map (faRow cfg ids hashStart)) := by
  refine groupPtrs_hstack (fun i g l => g.fullRow cfg (l[i]?.getD 0) (hashStart + i)) ?_ ?_ ?_
  · intro i g l hnone
    simp only [Group.fullRow, hnone]
  · obtain ⟨g, hg, hfull, hsome⟩ := cfg.hasFull
    exact ⟨g, hg, by rw [Group.fullLayout, hfull]; exact hsome⟩
  · intro groupId g hg views hlayout
    have hfull : g.window = false := by
      cases hwindow : g.window with
      | false => rfl
      | true => simp [Group.fullLayout, hwindow] at hlayout
    obtain ⟨l, hids, hlength⟩ := hshape groupId g hg hfull
    by_cases hsize : cfg.hashBlockSize = g.tokenBlockSize
    · refine ⟨l, _, hids, if_pos hsize, by rw [extractAddrs, List.length_map, hlength], fun i hi => ?_⟩
      have hb : l[i]? = some l[i] := List.getElem?_eq_getElem (by omega)
      simp only [Group.fullRow, hlayout, if_pos hsize, extractAddrs, List.getElem?_map, hb, Option.map_some, Option.getD_some]
    · refine ⟨l, _, hids, if_neg hsize, ?_, fun i hi => ?_⟩
      · rw [extractAddrsWithOffsets, List.length_zipWith, List.length_map, List.length_range', hlength]
        omega
      · have hb : l[i]? = some l[i] := List.getElem?_eq_getElem (by omega)
        have hoffset :
            ((List.range' hashStart (hashStart + n - hashStart)).map fun h => h * cfg.hashBlockSize % g.tokenBlockSize)[i]? =
            some ((hashStart + i) * cfg.hashBlockSize % g.tokenBlockSize) := by
          rw [List.getElem?_map, List.getElem?_range' (by omega), Option.map_some, Nat.one_mul]
        simp only [Group.fullRow, hlayout, if_neg hsize, hb, Option.getD_some]
        exact extractAddrsWithOffsets_getElem? _ _ _ hb hoffset

theorem drop_flatMap {f : Nat → Row} {w : Nat} (hw : ∀ b, (f b).length = w) (l : List Nat) (k : Nat) :
    (l.flatMap f).drop (k * w) = (l.drop k).flatMap f := by
  induction k generalizing l with
  | zero => rw [Nat.zero_mul, List.drop_zero, List.drop_zero]
  | succ k ih =>
    cases l with
    | nil => simp
    | cons b l =>
      rw [List.flatMap_cons, List.drop_succ_cons, ← ih l, Nat.add_mul, Nat.one_mul, Nat.add_comm, ← List.drop_drop, ← hw b,
        List.drop_left]

theorem take_flatMap {f : Nat → Row} {w : Nat} (hw : ∀ b, (f b).length = w) (l : List Nat) (k : Nat) :
    (l.flatMap f).take (k * w) = (l.take k).flatMap f := by
  induction k generalizing l with
  | zero => simp
  | succ k ih =>
    cases l with
    | nil => simp
    | cons b l =>
      rw [List.flatMap_cons, List.take_succ_cons, List.flatMap_cons, ← ih l, Nat.add_mul, Nat.one_mul, Nat.add_comm,
        List.take_append,
        hw b, Nat.add_sub_cancel_left, List.take_of_length_le (by rw [hw b]; omega)]

/-- The rows of `n` keys, of `c` block ids each. -/
theorem reshape_extractAddrs (views : List View) {l : List Nat} {c : Nat} (hn : 0 < n) (hl : l.length = n * c) :
    reshape n (extractAddrs views l) =
      some ((List.range n).map fun i => ((l.drop (i * c)).take c).flatMap fun b => views.map fun v => blockAddr v b) := by
  have hw : ∀ b, (views.map fun v => blockAddr v b).length = views.length := fun b => List.length_map _
  have hflat : (extractAddrs views l).flatten = l.flatMap fun b => views.map fun v => blockAddr v b := by
    rw [extractAddrs, List.flatMap_def]
  have hlength : (extractAddrs views l).flatten.length = n * (c * views.length) := by
    rw [hflat, List.length_flatMap, List.map_congr_left fun b _ => hw b, List.map_const', List.sum_replicate_nat, hl,
      Nat.mul_assoc]
  rw [reshape, hlength, if_neg (by rw [Nat.mul_mod_right]; omega), Nat.mul_div_cancel_left _ hn]
  dsimp only
  rw [Option.some.injEq]
  apply List.map_congr_left
  intro i _
  rw [hflat, ← Nat.mul_assoc, drop_flatMap hw, take_flatMap hw]

/-- Row `i` is made of the tail that `pick i` takes, for arrays of one tail a key. -/
theorem extractWaPtr_eq (hn : 0 < n) (pick : Nat → Group → List Nat → List Nat)
    (hshape : ∀ (groupId : Nat) g, cfg.groups[groupId]? = some g → g.hasTail = true → ∃ l c, ids[groupId]? = some l ∧
      l.length = n * c ∧
      (g.shortTail → c = 1) ∧ ∀ i < n, pick i g l = (l.drop (i * c)).take c) :
    extractWaPtr cfg n ids = some ((List.range n).map fun i => waRow cfg ids (pick i)) := by
  refine groupPtrs_hstack (fun i g l => g.tailRow (pick i g l)) ?_ ?_ ?_
  · intro i g l hnone
    simp only [Group.tailRow, hnone]
  · obtain ⟨g, hg, htail, hsome⟩ := cfg.hasWindow
    exact ⟨g, hg, by rw [Group.tailLayout, htail]; exact hsome⟩
  · intro groupId g hg views hlayout
    have htail : g.hasTail = true := by
      cases h : g.hasTail with
      | true => rfl
      | false => simp [Group.tailLayout, h] at hlayout
    obtain ⟨l, c, hids, hlength, hone, hpick⟩ := hshape groupId g hg htail
    by_cases hshort : g.shortTail
    · obtain rfl := hone hshort
      rw [Nat.mul_one] at hlength
      refine ⟨l, _, hids, if_pos hshort, ?_, fun i hi => ?_⟩
      · rw [extractAddrsWithOffsets, List.length_zipWith, List.length_map, Nat.min_self, hlength]
      · have hb : l[i]? = some l[i] := List.getElem?_eq_getElem (by omega)
        have hhead : (pick i g l).headD 0 = l[i] := by
          rw [hpick i hi, Nat.mul_one, List.drop_eq_getElem_cons (by omega)]
          rfl
        have hoffset : (l.map fun _ => g.tailOffset)[i]? = some g.tailOffset := by rw [List.getElem?_map, hb, Option.map_some]
        simp only [Group.tailRow, hlayout, if_pos hshort, hhead]
        exact extractAddrsWithOffsets_getElem? _ _ _ hb hoffset
    · refine ⟨l, _, hids, (if_neg hshort).trans (reshape_extractAddrs views hn hlength),
        by rw [List.length_map, List.length_range], fun i hi => ?_⟩
      rw [List.getElem?_map, List.getElem?_range hi, Option.map_some, Group.tailRow, hlayout]
      simp only [if_neg hshort, hpick i hi]

end Rows

/-! ## One request on one rank -/

/-- Key `i` of a request, with its full-attention row. -/
def ownFa (m : FAWARequestDispatchMeta) (i : Nat) : Bytes × Row :=
    (m.dumpKeys[i]?.getD [], faRow cfg m.dumpVllmBlockIds m.dumpHashStart i)

/-- Key `i` of a request, with the row of its tail. -/
def ownWa (m : FAWARequestDispatchMeta) (i : Nat) : Bytes × Row :=
    (m.dumpKeys[i]?.getD [], waRow cfg m.dumpVllmBlockIds (tailOf i))

/-- The last key of a request, with the row of the last tail. -/
def ownLast (m : FAWARequestDispatchMeta) : Bytes × Row := (m.dumpKeys.getLast?.getD [], waRow cfg m.dumpVllmBlockIds lastTail)

section Split

variable {Req : Type} {cfg} {m : FAWARequestDispatchMeta} {tp r : Nat}

/-- The keys and rows of a part are these, side by side. -/
structure DumpPart.Is (p : DumpPart Req) (l : List (Bytes × Row)) : Prop where
  keys : p.keys = l.map Prod.fst
  rows : p.rows = l.map Prod.snd

theorem DumpPart.Is.zip {p : DumpPart Req} {l : List (Bytes × Row)} (h : p.Is l) : p.keys.zip p.rows = l := by
  rw [h.keys, h.rows, List.zip_map', List.map_id']

theorem DumpPart.Is.append {p q : DumpPart Req} {l l' : List (Bytes × Row)} (hp : p.Is l) (hq : q.Is l') :
    (p.append q).Is (l ++ l') where
  keys := by rw [DumpPart.append, hp.keys, hq.keys, List.map_append]
  rows := by rw [DumpPart.append, hp.rows, hq.rows, List.map_append]

theorem DumpPart.empty_is : (DumpPart.empty : DumpPart Req).Is [] := ⟨rfl, rfl⟩

/-- A slice, item by item. -/
theorem slice_eq_map {β : Type} (l : List β) (d : β) {s e : Nat} (he : e ≤ l.length) :
    (l.take e).drop s = (List.range' s (e - s)).map fun i => l[i]?.getD d := by
  apply List.ext_getElem
  · rw [List.length_drop, List.length_take, List.length_map, List.length_range', Nat.min_eq_left he]
  · intro i h1 h2
    rw [List.length_drop, List.length_take] at h1
    rw [List.getElem_drop, List.getElem_take, List.getElem_map, List.getElem_range', Nat.one_mul,
      List.getElem?_eq_getElem (by omega),
      Option.getD_some]

theorem faRow_slice {ids : List (List Nat)} {hashStart s e j : Nat} (hj : s + j < e) :
    faRow cfg (ids.mapIdx fun groupId l => if (cfg.groups[groupId]?).any fun g => !g.window then (l.take e).drop s else l)
    (hashStart + s) j =
      faRow cfg ids hashStart (s + j) := by
  unfold faRow
  refine List.flatMap_congr fun x hx => ?_
  have hg := List.mem_zipIdx_iff_getElem?.mp hx
  cases hwindow : x.1.window with
  | true => simp [Group.fullRow, Group.fullLayout, hwindow]
  | false =>
    rw [List.getElem?_mapIdx, hg, Nat.add_assoc]
    simp only [Option.any_some, hwindow, Bool.not_false, if_true]
    congr 1
    cases ids[x.2]? with
    | none => simp
    | some l => simp only [Option.map_some, Option.getD_some, List.getElem?_drop, List.getElem?_take_of_lt hj]

theorem waRow_slice {ids : List (List Nat)} {s e j : Nat} (hj : s + j < e) :
    waRow cfg (ids.mapIdx fun groupId l =>
        match cfg.groups[groupId]? with
        | some g => if g.window then (l.take (e * g.tailBlocks)).drop (s * g.tailBlocks) else l
        | none => l) (tailOf j) =
      waRow cfg ids (tailOf (s + j)) := by
  unfold waRow
  refine List.flatMap_congr fun x hx => ?_
  have hg := List.mem_zipIdx_iff_getElem?.mp hx
  cases hwindow : x.1.window with
  | false => simp [Group.tailRow, Group.tailLayout, Group.hasTail, hwindow]
  | true =>
    rw [List.getElem?_mapIdx, hg]
    simp only [hwindow, if_true]
    congr 1
    cases ids[x.2]? with
    | none => simp [tailOf]
    | some l =>
      have hend : (s + j + 1) * x.1.tailBlocks ≤ e * x.1.tailBlocks := Nat.mul_le_mul_right _ hj
      rw [Nat.add_mul, Nat.one_mul, Nat.add_mul] at hend
      simp only [Option.map_some, Option.getD_some, tailOf, List.drop_drop, List.drop_take, List.take_take]
      rw [Nat.add_mul, Nat.min_eq_left (by omega)]

theorem ofRows_is (requestId : Req) {keys : List Bytes} {rows : List Row} {l : List (Bytes × Row)} (hkeys : keys = l.map Prod.fst)
    (hrows : rows = l.map Prod.snd) : (DumpPart.ofRows requestId keys rows).Is l := ⟨hkeys, hrows⟩

/-- A share without keys adds nothing. -/
theorem ofRows_or_empty (requestId : Req) {keys : List Bytes} {rows : List Row} {l : List (Bytes × Row)}
    (hkeys : keys = l.map Prod.fst)
    (hrows : rows = l.map Prod.snd) :
    ∃ p, (if keys = [] then some DumpPart.empty else some (DumpPart.ofRows requestId keys rows)) = some p ∧ p.Is l := by
  by_cases hnil : keys = []
  · rw [if_pos hnil]
    rw [hnil, eq_comm, List.map_eq_nil_iff] at hkeys
    exact ⟨_, rfl, hkeys ▸ DumpPart.empty_is⟩
  · rw [if_neg hnil]
    exact ⟨_, rfl, ofRows_is requestId hkeys hrows⟩

/-- A slice of a request's keys with the block ids of the full-attention groups sliced alike. -/
theorem extractFaPtr_slice (hm : Shaped cfg m) {s e : Nat} (hle : s ≤ e) (he : e ≤ m.dumpKeys.length) :
    extractFaPtr cfg (m.dumpHashStart + s) (m.dumpHashStart + e)
        (m.dumpVllmBlockIds.mapIdx fun groupId l => if (cfg.groups[groupId]?).any fun g => !g.window
          then (l.take e).drop s else l) =
      some ((List.range' s (e - s)).map fun i => (ownFa cfg m i).2) := by
  rw [show m.dumpHashStart + e = m.dumpHashStart + s + (e - s) by omega, extractFaPtr_eq ?_,
    List.range'_eq_map_range, List.map_map,
    Option.some.injEq]
  · apply List.map_congr_left
    intro j hj
    have hlt := List.mem_range.mp hj
    exact faRow_slice (by omega)
  · intro groupId g hg hfull
    obtain ⟨l, hl, hlength⟩ := hm.full groupId g hg hfull
    refine ⟨(l.take e).drop s, by simp [List.getElem?_mapIdx, hl, hg, hfull], ?_⟩
    rw [List.length_drop, List.length_take, hlength, Nat.min_eq_left he]

/-- A slice of a request's keys with the block ids of the window groups sliced by tails. -/
theorem extractWaPtr_slice (hm : Shaped cfg m) (hwise : cfg.waDumpBlockWise = true) {s e : Nat} (hlt : s < e)
    (he : e ≤ m.dumpKeys.length) :
    extractWaPtr cfg (e - s)
        (m.dumpVllmBlockIds.mapIdx fun groupId l =>
          match cfg.groups[groupId]? with
          | some g => if g.window then (l.take (e * g.tailBlocks)).drop (s * g.tailBlocks) else l
          | none => l) =
      some ((List.range' s (e - s)).map fun i => (ownWa cfg m i).2) := by
  rw [extractWaPtr_eq (by omega) tailOf ?_, List.range'_eq_map_range, List.map_map, Option.some.injEq]
  · apply List.map_congr_left
    intro j hj
    have hlt := List.mem_range.mp hj
    exact waRow_slice (by omega)
  · intro groupId g hg htail
    obtain ⟨l, hl, hlength, _⟩ := hm.tails groupId g hg htail
    have hwindow : g.window = true := by
      simp only [Group.hasTail, Bool.and_eq_true] at htail
      exact htail.1
    have hend : e * g.tailBlocks ≤ m.dumpKeys.length * g.tailBlocks := Nat.mul_le_mul_right _ he
    refine ⟨(l.take (e * g.tailBlocks)).drop (s * g.tailBlocks), g.tailBlocks,
      by simp [List.getElem?_mapIdx, hl, hg, hwindow], ?_,
      fun hshort => hshort.1, fun _ _ => rfl⟩
    rw [List.length_drop, List.length_take, hlength hwise, Nat.min_eq_left hend, Nat.sub_mul]

/-- The last tail alone. -/
theorem extractWaPtr_last (hm : Shaped cfg m) (hchunk : cfg.waDumpBlockWise = false) :
    extractWaPtr cfg 1 m.dumpVllmBlockIds = some [(ownLast cfg m).2] := by
  rw [extractWaPtr_eq Nat.one_pos (fun _ => lastTail) ?_]
  · rfl
  · intro groupId g hg htail
    obtain ⟨l, hl, _, hone⟩ := hm.tails groupId g hg htail
    refine ⟨l, l.length, hl, (Nat.one_mul _).symm, fun hshort => hone hchunk hshort.1, fun i hi => ?_⟩
    obtain rfl : i = 0 := by omega
    rw [Nat.zero_mul, List.drop_zero, List.take_length]
    rfl

theorem drop_last_keys (cfg : Worker) (hkeys : m.dumpKeys ≠ []) : m.dumpKeys.drop (m.dumpKeys.length - 1) =
    [(ownLast cfg m).1] := by
  rw [List.drop_length_sub_one hkeys, ownLast, List.getLast?_eq_some_getLast hkeys, Option.getD_some]

/-- What a rank dumps of a request, the `ring`th with keys. -/
def rankWa (cfg : Worker) (tp r ring : Nat) (m : FAWARequestDispatchMeta) : List (Bytes × Row) :=
  if cfg.waDumpBlockWise = true then (share m.dumpKeys.length tp r).map (ownWa cfg m)
  else if ring % tp = r then [ownLast cfg m]
  else []

theorem splitRequest_spec (htp : 0 < tp) (hr : r < tp) (hm : Shaped cfg m) (hkeys : m.dumpKeys ≠ []) (ring : Nat)
    (requestId : Req) :
    ∃ fa wa, splitRequest cfg tp r ring requestId m = some (fa, wa) ∧ fa.Is ((share m.dumpKeys.length tp r).map (ownFa cfg m)) ∧
      wa.Is (rankWa cfg tp r ring m) := by
  have hle : m.dumpKeys.length * r / tp ≤ m.dumpKeys.length * (r + 1) / tp := shareStart_mono (Nat.le_succ r)
  have he : m.dumpKeys.length * (r + 1) / tp ≤ m.dumpKeys.length := shareStart_le htp hr
  have hshare : share m.dumpKeys.length tp r =
      List.range' (m.dumpKeys.length * r / tp) (m.dumpKeys.length * (r + 1) / tp - m.dumpKeys.length * r / tp) := rfl
  have hslice := slice_eq_map m.dumpKeys [] (s := m.dumpKeys.length * r / tp) he
  have hfull := extractFaPtr_slice hm hle he
  have htails := fun hwise => extractWaPtr_slice (s := m.dumpKeys.length * r / tp)
      (e := m.dumpKeys.length * (r + 1) / tp) hm hwise
  unfold splitRequest rankWa
  dsimp only
  rw [hshare]
  generalize m.dumpKeys.length * r / tp = s at hle he hslice hfull htails ⊢
  generalize m.dumpKeys.length * (r + 1) / tp = e at hle he hslice hfull htails ⊢
  have hlength : ((m.dumpKeys.take e).drop s).length = e - s := by rw [hslice, List.length_map, List.length_range']
  have hkeysOf : ∀ f : Nat → Row,
      (m.dumpKeys.take e).drop s = ((List.range' s (e - s)).map fun i => (m.dumpKeys[i]?.getD [], f i)).map Prod.fst := by
    intro f
    rw [hslice, List.map_map]
    rfl
  have hrowsOf : ∀ f : Nat → Bytes × Row, (List.range' s (e - s)).map (fun i => (f i).2) =
      ((List.range' s (e - s)).map f).map Prod.snd := by
    intro f
    rw [List.map_map]
    rfl
  obtain ⟨fa, hfa, hisFa⟩ := ofRows_or_empty requestId (l := (List.range' s (e - s)).map (ownFa cfg m)) (hkeysOf _) (hrowsOf _)
  rw [hfull, Option.map_some, hlength, hfa, Option.bind_some]
  cases hwise : cfg.waDumpBlockWise with
  | true =>
    obtain ⟨wa, hwa, hisWa⟩ := ofRows_or_empty requestId (l := (List.range' s (e - s)).map (ownWa cfg m)) (hkeysOf _) (hrowsOf _)
    refine ⟨fa, wa, ?_, hisFa, by rw [if_pos rfl]; exact hisWa⟩
    rw [if_pos rfl]
    by_cases hnil : (m.dumpKeys.take e).drop s = []
    · rw [if_pos hnil] at hwa ⊢
      rw [hwa, Option.map_some]
    · have hpos := List.length_pos_iff.mpr hnil
      have hlt : s < e := by omega
      rw [if_neg hnil] at hwa ⊢
      rw [htails hwise hlt he, Option.map_some, hwa, Option.map_some]
  | false =>
    simp only [Bool.false_eq_true, if_false]
    by_cases hturn : ring % tp = r
    · rw [if_pos hturn, if_pos hturn, drop_last_keys cfg hkeys]
      exact ⟨fa, .ofRows requestId [(ownLast cfg m).1] [(ownLast cfg m).2],
        by rw [List.length_singleton, extractWaPtr_last hm hwise, Option.map_some, Option.map_some], hisFa, ofRows_is _ rfl rfl⟩
    · rw [if_neg hturn, if_neg hturn]
      exact ⟨fa, _, rfl, hisFa, DumpPart.empty_is⟩

theorem wholeRequest_spec (hm : Shaped cfg m) (hkeys : m.dumpKeys ≠ []) (ring : Nat) (requestId : Req) :
    ∃ fa wa, wholeRequest cfg requestId m = some (fa, wa) ∧ fa.Is ((share m.dumpKeys.length 1 0).map (ownFa cfg m)) ∧
      wa.Is (rankWa cfg 1 0 ring m) := by
  have hpos := List.length_pos_iff.mpr hkeys
  have hend : m.dumpHashEnd = m.dumpHashStart + m.dumpKeys.length := by
    have := hm.keys
    omega
  have hkeysOf : ∀ f : Nat → Row,
      m.dumpKeys = ((List.range m.dumpKeys.length).map fun i => (m.dumpKeys[i]?.getD [], f i)).map Prod.fst := by
    intro f
    have hslice := slice_eq_map m.dumpKeys [] (s := 0) (Nat.le_refl m.dumpKeys.length)
    rw [List.take_length, List.drop_zero, Nat.sub_zero, ← List.range_eq_range'] at hslice
    rw [List.map_map]
    exact hslice
  have hrowsOf : ∀ f : Nat → Bytes × Row, (List.range m.dumpKeys.length).map (fun i => (f i).2) =
      ((List.range m.dumpKeys.length).map f).map Prod.snd := by
    intro f
    rw [List.map_map]
    rfl
  have hfa : extractFaPtr cfg m.dumpHashStart m.dumpHashEnd m.dumpVllmBlockIds =
      some ((List.range m.dumpKeys.length).map fun i => (ownFa cfg m i).2) := by
    rw [hend]
    exact extractFaPtr_eq hm.full
  unfold wholeRequest rankWa
  rw [share_one, hfa, Option.map_some]
  cases hwise : cfg.waDumpBlockWise with
  | true =>
    have hwa : extractWaPtr cfg m.dumpKeys.length m.dumpVllmBlockIds =
        some ((List.range m.dumpKeys.length).map fun i => (ownWa cfg m i).2) := by
      refine extractWaPtr_eq hpos tailOf fun groupId g hg htail => ?_
      obtain ⟨l, hl, hlength, _⟩ := hm.tails groupId g hg htail
      exact ⟨l, g.tailBlocks, hl, hlength hwise, fun hshort => hshort.1, fun _ _ => rfl⟩
    simp only [if_true, hwa, Option.map_some, Option.bind_some]
    exact ⟨_, _, rfl, ofRows_is _ (hkeysOf _) (hrowsOf _), ofRows_is _ (hkeysOf _) (hrowsOf _)⟩
  | false =>
    simp only [Bool.false_eq_true, if_false, Nat.mod_one, if_true, drop_last_keys cfg hkeys, List.length_singleton,
      extractWaPtr_last hm hwise,
      Option.map_some, Option.bind_some]
    exact ⟨_, _, rfl, ofRows_is _ (hkeysOf _) (hrowsOf _), ofRows_is _ rfl rfl⟩

/-! ## All requests on one rank -/

/-- The requests with keys. -/
def dumping (plans : List (Req × FAWARequestDispatchMeta)) : List (Req × FAWARequestDispatchMeta) :=
    plans.filter fun p => p.2.dumpKeys ≠ []

/-- The full-attention keys that rank `r` dumps. -/
def rankFas (cfg : Worker) (tp r : Nat) (plans : List (Req × FAWARequestDispatchMeta)) : List (Bytes × Row) :=
  (dumping plans).flatMap fun p => (share p.2.dumpKeys.length tp r).map (ownFa cfg p.2)

/-- The window keys that rank `r` dumps. -/
def rankWas (cfg : Worker) (tp r ring : Nat) (plans : List (Req × FAWARequestDispatchMeta)) : List (Bytes × Row) :=
  ((dumping plans).zipIdx ring).flatMap fun x => rankWa cfg tp r x.2 x.1.2

/-- By induction on the requests; only those with keys move the ring on. -/
theorem gather_spec (htp : 0 < tp) (hr : r < tp) (plans : List (Req × FAWARequestDispatchMeta))
    (hplans : ∀ p ∈ plans, Planned cfg p.2) (ring : Nat) :
    ∃ fa wa, gather cfg tp r ring plans = some (fa, wa) ∧ fa.Is (rankFas cfg tp r plans) ∧
    wa.Is (rankWas cfg tp r ring plans) := by
  induction plans generalizing ring with
  | nil => exact ⟨_, _, rfl, DumpPart.empty_is, DumpPart.empty_is⟩
  | cons p plans ih =>
    obtain ⟨requestId, m⟩ := p
    have hrest : ∀ p ∈ plans, Planned cfg p.2 := fun p hp => hplans p (List.mem_cons_of_mem _ hp)
    by_cases hkeys : m.dumpKeys = []
    · have hskip : dumping ((requestId, m) :: plans) = dumping plans := List.filter_cons_of_neg (by simpa using hkeys)
      rw [gather, if_pos hkeys, rankFas, rankWas, hskip]
      exact ih hrest ring
    · have hm := (hplans _ List.mem_cons_self).shaped hkeys
      have hkept : dumping ((requestId, m) :: plans) = (requestId, m) :: dumping plans :=
          List.filter_cons_of_pos (by simpa using hkeys)
      obtain ⟨fa', wa', hgather, hfa', hwa'⟩ := ih hrest (ring + 1)
      have hone : ∃ fa wa, (if tp > 1 then splitRequest cfg tp r ring requestId m else wholeRequest cfg requestId m) =
          some (fa, wa) ∧
          fa.Is ((share m.dumpKeys.length tp r).map (ownFa cfg m)) ∧ wa.Is (rankWa cfg tp r ring m) := by
        by_cases hmore : tp > 1
        · rw [if_pos hmore]
          exact splitRequest_spec htp hr hm hkeys ring requestId
        · obtain ⟨rfl, rfl⟩ : tp = 1 ∧ r = 0 := by omega
          rw [if_neg hmore]
          exact wholeRequest_spec hm hkeys ring requestId
      obtain ⟨fa, wa, hrequest, hfa, hwa⟩ := hone
      refine ⟨fa.append fa', wa.append wa', ?_, ?_, ?_⟩
      · rw [gather, if_neg hkeys, hrequest, Option.bind_some]
        dsimp only
        rw [hgather, Option.map_some]
      · rw [rankFas, hkept, List.flatMap_cons]
        exact hfa.append hfa'
      · rw [rankWas, hkept, List.zipIdx_cons, List.flatMap_cons]
        exact hwa.append hwa'

/-! ## Stacking -/

theorem uniform_of {rows : List Row} {w : Nat} (h : ∀ row ∈ rows, row.length = w) : uniform rows = true := by
  rw [uniform, List.all_eq_true]
  intro row hrow
  cases rows with
  | nil => cases hrow
  | cons row' rows => rw [h row hrow, List.headD_cons, h row' List.mem_cons_self, beq_self_eq_true]

theorem faRow_length (ids : List (List Nat)) (hashStart i : Nat) :
    (faRow cfg ids hashStart i).length = (cfg.groups.zipIdx.map fun x => (x.1.fullLayout.getD []).length).sum := by
  rw [faRow, List.length_flatMap]
  congr 1
  apply List.map_congr_left
  intro x _
  unfold Group.fullRow
  cases x.1.fullLayout with
  | none => rfl
  | some views => dsimp only; split <;> rw [List.length_map, Option.getD_some]

/-- The rows of whole tails are of one width. -/
theorem ownWa_length (hm : Shaped cfg m) (hwise : cfg.waDumpBlockWise = true) {i : Nat} (hi : i < m.dumpKeys.length) :
    (ownWa cfg m i).2.length =
      (cfg.groups.zipIdx.map fun x => (if x.1.shortTail then 1 else x.1.tailBlocks) * (x.1.tailLayout.getD []).length).sum := by
  rw [ownWa, waRow, List.length_flatMap]
  congr 1
  apply List.map_congr_left
  intro x hx
  unfold Group.tailRow
  cases hlayout : x.1.tailLayout with
  | none => simp
  | some views =>
    have htail : x.1.hasTail = true := by
      cases h : x.1.hasTail with
      | true => rfl
      | false => simp [Group.tailLayout, h] at hlayout
    obtain ⟨l, hl, hlength, _⟩ := hm.tails x.2 x.1 (List.mem_zipIdx_iff_getElem?.mp hx) htail
    have hend : (i + 1) * x.1.tailBlocks ≤ m.dumpKeys.length * x.1.tailBlocks := Nat.mul_le_mul_right _ hi
    have htailOf : (tailOf i x.1 l).length = x.1.tailBlocks := by
      rw [Nat.add_mul, Nat.one_mul] at hend
      rw [tailOf, List.length_take, List.length_drop, hlength hwise]
      omega
    dsimp only
    split
    · rw [List.length_map, Option.getD_some, Nat.one_mul]
    · rw [List.length_flatMap, hl, Option.getD_some, List.map_congr_left fun _ _ => List.length_map _, List.map_const',
        List.sum_replicate_nat,
        htailOf, Option.getD_some]

/-! ## All ranks -/

/-- The keys of a step with their full-attention rows. -/
def ownFas (cfg : Worker) (plans : List (Req × FAWARequestDispatchMeta)) : List (Bytes × Row) :=
  plans.flatMap fun p => (List.range p.2.dumpKeys.length).map (ownFa cfg p.2)

/-- The keys of a step with their window rows: of each key, or of each request's last one. -/
def ownWas (cfg : Worker) (plans : List (Req × FAWARequestDispatchMeta)) : List (Bytes × Row) :=
  if cfg.waDumpBlockWise = true then plans.flatMap fun p => (List.range p.2.dumpKeys.length).map (ownWa cfg p.2)
  else (dumping plans).map fun p => ownLast cfg p.2

theorem dumping_flatMap {β : Type} (plans : List (Req × FAWARequestDispatchMeta)) (f : FAWARequestDispatchMeta → List β)
    (hnil : ∀ m : FAWARequestDispatchMeta, m.dumpKeys = [] → f m = []) : ((dumping plans).flatMap fun p => f p.2) =
    plans.flatMap fun p => f p.2 := by
  induction plans with
  | nil => rfl
  | cons p plans ih =>
    by_cases hkeys : p.2.dumpKeys = []
    · rw [dumping, List.filter_cons_of_neg (by simpa using hkeys), List.flatMap_cons, hnil p.2 hkeys, List.nil_append]
      exact ih
    · rw [dumping, List.filter_cons_of_pos (by simpa using hkeys), List.flatMap_cons, List.flatMap_cons]
      exact congrArg _ ih

theorem rankFas_perm (htp : 0 < tp) (plans : List (Req × FAWARequestDispatchMeta)) :
    ((List.range tp).flatMap fun r => rankFas cfg tp r plans).Perm (ownFas cfg plans) := by
  refine (flatMap_comm_perm _ _ _).trans (.of_eq ?_)
  rw [ownFas, ← dumping_flatMap plans (fun m => (List.range m.dumpKeys.length).map (ownFa cfg m)) fun m h => by simp [h]]
  refine List.flatMap_congr fun p _ => ?_
  rw [← shares_tile htp p.2.dumpKeys.length, List.map_flatMap]

theorem rankWas_perm (htp : 0 < tp) (plans : List (Req × FAWARequestDispatchMeta)) :
    ((List.range tp).flatMap fun r => rankWas cfg tp r 0 plans).Perm (ownWas cfg plans) := by
  refine (flatMap_comm_perm _ _ _).trans (.of_eq ?_)
  unfold ownWas
  cases hwise : cfg.waDumpBlockWise with
  | true =>
    rw [if_pos rfl, ← dumping_flatMap plans (fun m => (List.range m.dumpKeys.length).map (ownWa cfg m)) fun m h => by simp [h]]
    calc ((dumping plans).zipIdx 0).flatMap (fun x => (List.range tp).flatMap fun r => rankWa cfg tp r x.2 x.1.2)
        _ = ((dumping plans).zipIdx 0).flatMap (fun x => (List.range x.1.2.dumpKeys.length).map (ownWa cfg x.1.2)) := by
          refine List.flatMap_congr fun x _ => ?_
          rw [← shares_tile htp x.1.2.dumpKeys.length, List.map_flatMap]
          exact List.flatMap_congr fun r _ => by rw [rankWa, if_pos hwise]
        _ = (((dumping plans).zipIdx 0).map Prod.fst).flatMap (fun p => (List.range p.2.dumpKeys.length).map (ownWa cfg p.2)) :=
          by rw [List.flatMap_map]
        _ = (dumping plans).flatMap (fun p => (List.range p.2.dumpKeys.length).map (ownWa cfg p.2)) := by rw [List.zipIdx_map_fst]
  | false =>
    rw [if_neg (by simp)]
    calc ((dumping plans).zipIdx 0).flatMap (fun x => (List.range tp).flatMap fun r => rankWa cfg tp r x.2 x.1.2)
        _ = ((dumping plans).zipIdx 0).flatMap (fun x => [ownLast cfg x.1.2]) := by
          refine List.flatMap_congr fun x _ => ?_
          rw [← ring_flatMap htp x.2 [ownLast cfg x.1.2]]
          exact List.flatMap_congr fun r _ => by rw [rankWa, hwise]; rfl
        _ = (((dumping plans).zipIdx 0).map Prod.fst).map (fun p => ownLast cfg p.2) :=
          by rw [List.map_map, List.map_eq_flatMap]; rfl
        _ = (dumping plans).map (fun p => ownLast cfg p.2) := by rw [List.zipIdx_map_fst]

theorem mem_rankWas {ring : Nat} {plans : List (Req × FAWARequestDispatchMeta)} {x : Bytes × Row}
    (h : x ∈ rankWas cfg tp r ring plans) :
    ∃ p ∈ dumping plans, ∃ k, x ∈ rankWa cfg tp r k p.2 := by
  obtain ⟨y, hy, hx⟩ := List.mem_flatMap.mp h
  exact ⟨y.1, List.fst_mem_of_mem_zipIdx hy, y.2, hx⟩

/-- In block-wise mode all window rows of a rank can be stacked. -/
theorem rankWas_uniform (hwise : cfg.waDumpBlockWise = true) (htp : 0 < tp) (hr : r < tp) {ring : Nat}
    {plans : List (Req × FAWARequestDispatchMeta)}
    (hplans : ∀ p ∈ plans, Planned cfg p.2) : uniform ((rankWas cfg tp r ring plans).map Prod.snd) = true := by
  refine uniform_of
    (w := (cfg.groups.zipIdx.map fun x => (if x.1.shortTail then 1 else x.1.tailBlocks) * (x.1.tailLayout.getD []).length).sum) ?_
  intro row hrow
  obtain ⟨x, hx, rfl⟩ := List.mem_map.mp hrow
  obtain ⟨p, hp, k, hxp⟩ := mem_rankWas hx
  obtain ⟨hmem, hkeys⟩ := List.mem_filter.mp hp
  rw [rankWa, if_pos hwise] at hxp
  obtain ⟨i, hi, rfl⟩ := List.mem_map.mp hxp
  have hlt : i < p.2.dumpKeys.length := Nat.lt_of_lt_of_le (mem_share.mp hi).2 (shareStart_le htp hr)
  exact ownWa_length ((hplans p hmem).shaped (by simpa using hkeys)) hwise hlt

theorem rankFas_uniform (plans : List (Req × FAWARequestDispatchMeta)) :
    uniform ((rankFas cfg tp r plans).map Prod.snd) = true := by
  refine uniform_of (w := (cfg.groups.zipIdx.map fun x => (x.1.fullLayout.getD []).length).sum) ?_
  intro row hrow
  obtain ⟨x, hx, rfl⟩ := List.mem_map.mp hrow
  obtain ⟨p, _, hxp⟩ := List.mem_flatMap.mp hx
  obtain ⟨i, _, rfl⟩ := List.mem_map.mp hxp
  exact faRow_length _ _ _

theorem waitForSave_eq {requestMeta : List (Req × FAWARequestDispatchMeta)} {fa wa : DumpPart Req}
    (hgather : gather cfg tp r 0 requestMeta = some (fa, wa))
    (hfa : uniform fa.rows = true) :
    waitForSave cfg tp r requestMeta = if uniform wa.rows = true then ⟨fa, wa, false⟩ else ⟨fa, .empty, true⟩ := by
  rw [waitForSave, hgather]
  cases h : uniform wa.rows <;> simp [hfa, h]

/-- In chunk-wise mode the last tails of the step's requests make rows of one width. -/
def LastTailsStack (cfg : Worker) (plans : List (Req × FAWARequestDispatchMeta)) : Prop :=
  cfg.waDumpBlockWise = false → ∀ p ∈ dumping plans, ∀ q ∈ dumping plans, (ownLast cfg p.2).2.length = (ownLast cfg q.2).2.length

/-- They do where each is complete. -/
theorem lastTailsStack_of_complete {plans : List (Req × FAWARequestDispatchMeta)}
    (h : ∀ p ∈ dumping plans, ∀ (groupId : Nat) g, cfg.groups[groupId]? = some g → g.hasTail = true →
      ((p.2.dumpVllmBlockIds[groupId]?).getD []).length = g.tailBlocks) : LastTailsStack cfg plans := by
  intro _
  have hwidth : ∀ p ∈ dumping plans, (ownLast cfg p.2).2.length =
      (cfg.groups.zipIdx.map fun x => (if x.1.shortTail then 1 else x.1.tailBlocks) * (x.1.tailLayout.getD []).length).sum := by
    intro p hp
    rw [ownLast, waRow, List.length_flatMap]
    congr 1
    apply List.map_congr_left
    intro x hx
    unfold Group.tailRow lastTail
    cases hlayout : x.1.tailLayout with
    | none => simp
    | some views =>
      have htail : x.1.hasTail = true := by
        cases h : x.1.hasTail with
        | true => rfl
        | false => simp [Group.tailLayout, h] at hlayout
      have hlength := h p hp x.2 x.1 (List.mem_zipIdx_iff_getElem?.mp hx) htail
      dsimp only
      split
      · rw [List.length_map, Option.getD_some, Nat.one_mul]
      · rw [List.length_flatMap, Option.getD_some, List.map_congr_left fun _ _ => List.length_map _, List.map_const',
          List.sum_replicate_nat,
          hlength]
  intro p hp q hq
  rw [hwidth p hp, hwidth q hq]

/-- In chunk-wise mode a rank's rows are among those of the last tails. -/
theorem rankWas_uniform_of_stack (hchunk : cfg.waDumpBlockWise = false) {plans : List (Req × FAWARequestDispatchMeta)}
    (hstack : LastTailsStack cfg plans) (ring : Nat) : uniform ((rankWas cfg tp r ring plans).map Prod.snd) = true := by
  have hlast : ∀ row ∈ (rankWas cfg tp r ring plans).map Prod.snd, ∃ p ∈ dumping plans, row = (ownLast cfg p.2).2 := by
    intro row hrow
    obtain ⟨x, hx, rfl⟩ := List.mem_map.mp hrow
    obtain ⟨p, hp, k, hxp⟩ := mem_rankWas hx
    rw [rankWa, hchunk, if_neg (by simp)] at hxp
    split at hxp
    · exact ⟨p, hp, by rw [List.mem_singleton.mp hxp]⟩
    · cases hxp
  cases hrows : (rankWas cfg tp r ring plans).map Prod.snd with
  | nil => rfl
  | cons row rows =>
    rw [← hrows]
    refine uniform_of (w := row.length) fun row' hrow' => ?_
    obtain ⟨p, hp, rfl⟩ := hlast row' hrow'
    obtain ⟨q, hq, rfl⟩ := hlast row (by rw [hrows]; exact List.mem_cons_self)
    exact hstack hchunk p hp q hq

/-- One rank's dump. -/
theorem rank_dumps (htp : 0 < tp) (hr : r < tp) {plans : List (Req × FAWARequestDispatchMeta)}
    (hplans : ∀ p ∈ plans, Planned cfg p.2)
    (hstack : LastTailsStack cfg plans) :
    (waitForSave cfg tp r plans).raised = false ∧ (waitForSave cfg tp r plans).fa.Is (rankFas cfg tp r plans) ∧
      (waitForSave cfg tp r plans).wa.Is (rankWas cfg tp r 0 plans) := by
  obtain ⟨fa, wa, hgather, hfa, hwa⟩ := gather_spec htp hr plans hplans 0
  have huniform : uniform wa.rows = true := by
    rw [hwa.rows]
    cases hwise : cfg.waDumpBlockWise with
    | true => exact rankWas_uniform hwise htp hr hplans
    | false => exact rankWas_uniform_of_stack hwise hstack 0
  rw [waitForSave_eq hgather (by rw [hfa.rows]; exact rankFas_uniform plans), if_pos huniform]
  exact ⟨rfl, hfa, hwa⟩

end Split

/-- For any number of ranks and any plans of a step: no rank raises, each hands the stores its keys
    and rows side by side, and over all ranks these are every key with its own row, once; where only
    last states are stored, the last key of each request, once. (There the last tails must have one
    width, or even one rank alone could not stack their rows.) A key is in the share of one rank. -/
theorem dump_split_exact {Req : Type} {tp : Nat} (htp : 0 < tp) (plans : List (Req × FAWARequestDispatchMeta))
    (hplans : ∀ p ∈ plans, Planned cfg p.2)
    (hstack : LastTailsStack cfg plans) :
    (∀ r, r < tp → (waitForSave cfg tp r plans).raised = false ∧ (waitForSave cfg tp r plans).fa.Is (rankFas cfg tp r plans) ∧
      (waitForSave cfg tp r plans).wa.Is (rankWas cfg tp r 0 plans)) ∧
    ((List.range tp).flatMap fun r => (waitForSave cfg tp r plans).fa.keys.zip (waitForSave cfg tp r plans).fa.rows).Perm
    (ownFas cfg plans) ∧
    ((List.range tp).flatMap fun r => (waitForSave cfg tp r plans).wa.keys.zip (waitForSave cfg tp r plans).wa.rows).Perm
    (ownWas cfg plans) ∧
    ∀ p ∈ plans, ∀ i < p.2.dumpKeys.length, ∃! r, r < tp ∧ i ∈ share p.2.dumpKeys.length tp r := by
  have hranks : ∀ r, r < tp → _ := fun r hr => rank_dumps htp hr hplans hstack
  refine ⟨hranks, ?_, ?_, fun p _ i hi => share_unique htp hi⟩
  · refine (List.Perm.of_eq (List.flatMap_congr fun r hr => ?_)).trans (rankFas_perm htp plans)
    exact (hranks r (List.mem_range.mp hr)).2.1.zip
  · refine (List.Perm.of_eq (List.flatMap_congr fun r hr => ?_)).trans (rankWas_perm htp plans)
    exact (hranks r (List.mem_range.mp hr)).2.2.zip

section Sample

/-- A worker with a full-attention group and a window group of two blocks, each of 4 tokens; only last
    states are stored. -/
def sampleWorker : Worker where
  hashBlockSize := 4
  waDumpBlockWise := false
  groups := [⟨false, 4, 1, 4, some [⟨1000, 64, 16, 4⟩]⟩, ⟨true, 4, 2, 8, some [⟨5000, 32, 8, 4⟩]⟩]
  hasFull := ⟨_, List.mem_cons_self, rfl, rfl⟩
  hasWindow := ⟨_, List.mem_cons_of_mem _ List.mem_cons_self, rfl, rfl⟩

/-- Three blocks to dump. -/
def samplePlan : FAWARequestDispatchMeta := ⟨[], 0, 0, [], [[1], [2], [3]], 0, 3, [[5, 6, 7], [9, 10]]⟩

/-- Two blocks of another request. -/
def otherPlan : FAWARequestDispatchMeta := ⟨[], 0, 0, [], [[4], [5]], 0, 2, [[11, 12], [13, 14]]⟩

/-- Both groups' tables have the block of the last token. -/
theorem sampleTables_cover {fullTable windowTable : List Nat} {last : Nat} (hfull : last / 4 < fullTable.length)
    (hwindow : last / 4 < windowTable.length) {groupId : Nat} {g : Group} {table : List Nat}
    (hg : sampleWorker.groups[groupId]? = some g)
    (htable : [fullTable, windowTable][groupId]? = some table) : last / g.tokenBlockSize < table.length := by
  match groupId with
  | 0 =>
    obtain rfl := Option.some.inj hg
    obtain rfl := Option.some.inj htable
    exact hfull
  | 1 =>
    obtain rfl := Option.some.inj hg
    obtain rfl := Option.some.inj htable
    exact hwindow
  | _ + 2 => cases hg

theorem samplePlan_planned : Planned sampleWorker samplePlan :=
  ⟨⟨⟨[[1], [2], [3]], 0, 0, 12, [], 0⟩, 12, [[5, 6, 7], [8, 9, 10]], true,
    ⟨[[1], [2], [3]], 0, 0, 12, [[5, 6, 7], [8, 9, 10]], 12⟩,
    rfl, rfl, .inl rfl, fun _ _ _ hg htable _ => sampleTables_cover (by decide) (by decide) hg htable⟩⟩

theorem otherPlan_planned : Planned sampleWorker otherPlan :=
  ⟨⟨⟨[[4], [5]], 0, 0, 8, [], 0⟩, 8, [[11, 12], [13, 14]], true, ⟨[[4], [5]], 0, 0, 8, [[11, 12], [13, 14]], 8⟩,
    rfl, rfl, .inl rfl, fun _ _ _ hg htable _ => sampleTables_cover (by decide) (by decide) hg htable⟩⟩

theorem samplePlans_stack : LastTailsStack sampleWorker [(0, samplePlan), (1, otherPlan)] := by
  refine lastTailsStack_of_complete fun p hp groupId g hg htail => ?_
  have hp' := (List.mem_filter.mp hp).1
  match groupId with
  | 0 =>
    obtain rfl := Option.some.inj hg
    cases htail
  | 1 =>
    obtain rfl := Option.some.inj hg
    rcases List.mem_pair.mp hp' with rfl | rfl <;> rfl
  | _ + 2 => cases hg

theorem dump_split_exact_two_ranks :
    ((List.range 2).flatMap fun r => (waitForSave sampleWorker 2 r [(0, samplePlan), (1, otherPlan)]).wa.keys.zip
      (waitForSave sampleWorker 2 r [(0, samplePlan), (1, otherPlan)]).wa.rows).Perm [([3], [5288, 5320]), ([5], [5416, 5448])] :=
  (dump_split_exact sampleWorker (by decide) [(0, samplePlan), (1, otherPlan)]
    (fun p hp => by rcases List.mem_pair.mp hp with rfl | rfl; exacts [samplePlan_planned, otherPlan_planned])
    samplePlans_stack).2.2.1.trans (.of_eq (by decide +kernel))

end Sample

end UnifiedCache.Connector.Fawa
