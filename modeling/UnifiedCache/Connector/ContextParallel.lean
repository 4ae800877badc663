/-
  UnifiedCache.Connector.ContextParallel — the plans of a step, split among context-parallel ranks
  (ucm/integration/vllm/ucm_connector.py: `get_num_new_matched_tokens`, `_generate_dispatch_meta` and
  `build_connector_meta` of `UCMDirectConnector`, `bind_connector_metadata` of `UCMCPConnector`).

  A block of the engine is `cp_world_size` hash blocks, and every rank holds one of these under the
  block's id. The scheduler plans windows of hashes and of block ids; a rank keeps every
  `cp_world_size`-th hash of a window, from its own place on, and all ids.

  The engine asks for hits before it schedules a request that waits, hands over the whole table of a
  request that starts or resumes and what is new of one that runs; a table has room for the tokens that
  are computed or scheduled. Drafted tokens may be rejected, the request's own are not. What the store
  says is any hit among the keys it is asked for.

  - `rank_partition`: whatever the window, the ranks' hashes are the window's, once and in order.
  - `dump_split_iff`: when all ranks have a hash for each id that is dumped.
  - `Config.Inv`: in a run of sound steps every plan is split right (`Inv.step`).
-/

import Mathlib.Data.List.Nodup
import UnifiedCache.Base.Strides
import UnifiedCache.Base.Transition
import UnifiedCache.Connector.BlockKeys

namespace UnifiedCache.Connector.ContextParallel

open UnifiedCache.Base

/-! ## Plans -/

/-- A connector of `pcpWorldSize * dcpWorldSize` ranks. -/
structure Config where
  hashBlockSize : Nat
  pcpWorldSize : Nat
  dcpWorldSize : Nat
  hashBlockSize_pos : 0 < hashBlockSize
  pcpWorldSize_pos : 0 < pcpWorldSize
  dcpWorldSize_pos : 0 < dcpWorldSize
  persistTokenThreshold : Int
  recomputeTokens : Nat
  hasher : HashInput → Bytes
  seed : Bytes

structure RequestMeta where
  ucmBlockIds : List Bytes
  hbmHitBlockNum : Nat
  totalHitBlockNum : Nat
  numTokenIds : Nat
  vllmBlockIds : List Nat
  tokenProcessed : Nat
  deriving DecidableEq

/-- Hashes, and the block ids that they are loaded into or dumped from. -/
abbrev Window := List Bytes × List Nat

structure RequestDispatchMeta where
  loadBlockIds : Window
  dumpBlockIds : Window
  deriving DecidableEq

namespace Config

variable (cfg : Config)

def cpWorldSize : Nat := cfg.pcpWorldSize * cfg.dcpWorldSize

def blockSize : Nat := cfg.hashBlockSize * cfg.cpWorldSize

def currentRank (pcpRank dcpRank : Nat) : Nat := cfg.dcpWorldSize * pcpRank + dcpRank

/-- The ranks of all workers. -/
def ranks : List Nat := (List.range cfg.pcpWorldSize).flatMap fun pcpRank => (List.range cfg.dcpWorldSize).map
    (cfg.currentRank pcpRank)

def generateHash (allTokenIds : List Int) : List Bytes := Connector.generateHash cfg.hasher cfg.hashBlockSize allTokenIds cfg.seed

/-- The hashes that are looked up; none for a request below the threshold. -/
def externalBlockIds (allTokenIds : List Int) (numComputedTokens : Nat) : List Bytes :=
  if cfg.persistTokenThreshold > allTokenIds.length then []
  else (cfg.generateHash allTokenIds).drop (numComputedTokens / cfg.blockSize * cfg.cpWorldSize)

/-- `get_num_new_matched_tokens`: the tokens to load, and what is kept of the request. `lastHit` is what the
    lookup returns, unless it raises. -/
def getNumNewMatchedTokens (known : Option RequestMeta) (allTokenIds : List Int) (numComputedTokens : Nat)
    (lastHit : Option Int) :
    Nat × Option RequestMeta :=
  let hbmHitBlockNum := numComputedTokens / cfg.blockSize
  if cfg.externalBlockIds allTokenIds numComputedTokens = [] then (0, known)
  else
    let externalHitBlocks := (((lastHit.getD (-1)) + 1) / cfg.cpWorldSize).toNat
    let totalHitBlockNum := hbmHitBlockNum + externalHitBlocks
    let externalHitTokens := externalHitBlocks * cfg.blockSize
    let actualRecomputeTokens : Int := allTokenIds.length - (totalHitBlockNum * cfg.blockSize : Nat)
    let externalHitTokens :=
      if actualRecomputeTokens < cfg.recomputeTokens
        then (externalHitTokens - (cfg.recomputeTokens - actualRecomputeTokens)).toNat
      else externalHitTokens
    (externalHitTokens,
      some
        { ucmBlockIds := cfg.generateHash allTokenIds
          hbmHitBlockNum := hbmHitBlockNum
          totalHitBlockNum := totalHitBlockNum
          numTokenIds := allTokenIds.length
          vllmBlockIds := []
          tokenProcessed := hbmHitBlockNum * cfg.blockSize + externalHitTokens })

/-- `ucm_block_ids[start * cp_world_size : end * cp_world_size]`. -/
def hashWindow (ucmBlockIds : List Bytes) (start stop : Nat) : List Bytes :=
  (ucmBlockIds.take (stop * cfg.cpWorldSize)).drop (start * cfg.cpWorldSize)

/-- `_generate_dispatch_meta`: what is kept of the request, and its plan. -/
def generateDispatchMeta (reqMeta : RequestMeta) (newTokens : Nat) (vllmBlockIds : List Nat) (needLoad : Bool) :
    RequestMeta × RequestDispatchMeta :=
  let recorded := reqMeta.vllmBlockIds ++ vllmBlockIds
  let load : Window :=
    if needLoad then
      (cfg.hashWindow reqMeta.ucmBlockIds reqMeta.hbmHitBlockNum reqMeta.totalHitBlockNum,
        (vllmBlockIds.take reqMeta.totalHitBlockNum).drop reqMeta.hbmHitBlockNum)
    else ([], [])
  if reqMeta.tokenProcessed < reqMeta.numTokenIds then
    let startIdx := reqMeta.tokenProcessed / cfg.blockSize
    let endIdx := (reqMeta.tokenProcessed + newTokens) / cfg.blockSize
    let dumpUcmBlockIds := cfg.hashWindow reqMeta.ucmBlockIds startIdx endIdx
    let dumpVllmBlockIds := (recorded.take endIdx).drop startIdx
    let tokenProcessed := reqMeta.tokenProcessed + newTokens
    let dumpVllmBlockIds := if tokenProcessed > reqMeta.numTokenIds then dumpVllmBlockIds.take dumpUcmBlockIds.length
        else dumpVllmBlockIds
    ({ reqMeta with vllmBlockIds := recorded, tokenProcessed := tokenProcessed }, ⟨load, (dumpUcmBlockIds, dumpVllmBlockIds)⟩)
  else ({ reqMeta with vllmBlockIds := recorded }, ⟨load, ([], [])⟩)

/-- A window in `bind_connector_metadata` of the worker of a rank. -/
def bindWindow (currentRank : Nat) (window : Window) : Window :=
  if 0 < window.1.length then (stride cfg.cpWorldSize currentRank window.1, window.2) else window

/-! ## A window split among the ranks -/

theorem cpWorldSize_pos : 0 < cfg.cpWorldSize := Nat.mul_pos cfg.pcpWorldSize_pos cfg.dcpWorldSize_pos

theorem blockSize_pos : 0 < cfg.blockSize := Nat.mul_pos cfg.hashBlockSize_pos cfg.cpWorldSize_pos

theorem ranks_eq : cfg.ranks = List.range cfg.cpWorldSize := by
  have hupto : ∀ k, ((List.range k).flatMap fun pcpRank => (List.range cfg.dcpWorldSize).map (cfg.currentRank pcpRank)) =
      List.range (k * cfg.dcpWorldSize) := by
    intro k
    induction k with
    | zero => simp
    | succ k ih =>
      rw [List.range_succ, List.flatMap_append, ih, List.flatMap_singleton, Nat.succ_mul, List.range_add, Nat.mul_comm k]
      rfl
  exact hupto cfg.pcpWorldSize

theorem bindWindow_eq (r : Nat) (window : Window) : cfg.bindWindow r window = (stride cfg.cpWorldSize r window.1, window.2) := by
  unfold bindWindow
  split
  · rfl
  · rename_i h
    obtain ⟨hashes, ids⟩ := window
    obtain rfl : hashes = [] := List.eq_nil_of_length_eq_zero (by simpa using h)
    simp [stride]

/-- The ranks' hashes are the window's, each on one rank, in order. -/
theorem rank_partition (window : Window) :
    (cfg.ranks.flatMap fun r => (cfg.bindWindow r window).1).Perm window.1 ∧
      ∀ r ∈ cfg.ranks, ∀ j, (cfg.bindWindow r window).1[j]? = window.1[r + j * cfg.cpWorldSize]? := by
  simp only [bindWindow_eq, ranks_eq]
  exact ⟨strides_perm cfg.cpWorldSize_pos window.1, fun r _ j => stride_getElem? cfg.cpWorldSize_pos r window.1 j⟩

/-- A window is split right: the ranks' hashes are the window's, once and in order, and on every rank the
    hash beside a block's id in the request's table is the rank's own one of this block. -/
structure Split (hashes : List Bytes) (table : List Nat) (window : Window) : Prop where
  perm : (cfg.ranks.flatMap fun r => (cfg.bindWindow r window).1).Perm window.1
  order : ∀ r ∈ cfg.ranks, ∀ j, (cfg.bindWindow r window).1[j]? = window.1[r + j * cfg.cpWorldSize]?
  lengths : ∀ r ∈ cfg.ranks, (cfg.bindWindow r window).1.length = (cfg.bindWindow r window).2.length
  aligned : ∃ start, ∀ r ∈ cfg.ranks, ∀ j, j < (cfg.bindWindow r window).2.length →
    (cfg.bindWindow r window).2[j]? = table[start + j]? ∧
    (cfg.bindWindow r window).1[j]? = hashes[(start + j) * cfg.cpWorldSize + r]?

/-- The two windows of a plan. -/
structure Right (hashes : List Bytes) (table : List Nat) (dispatch : RequestDispatchMeta) : Prop where
  load : cfg.Split hashes table dispatch.loadBlockIds
  dump : cfg.Split hashes table dispatch.dumpBlockIds

variable {cfg} {hashes : List Bytes} {table : List Nat} {start stop : Nat}

/-- A window of as many hashes for each id as there are ranks, of one range of blocks. -/
theorem split_of (start : Nat) {window : Window} (hlength : window.1.length = window.2.length * cfg.cpWorldSize)
    (hids : ∀ j, j < window.2.length → window.2[j]? = table[start + j]?)
    (hhashes : ∀ k, k < window.1.length → window.1[k]? = hashes[start * cfg.cpWorldSize + k]?) :
    cfg.Split hashes table window := by
  obtain ⟨hperm, horder⟩ := cfg.rank_partition window
  refine ⟨hperm, horder, fun r hr => ?_, start, fun r hr j hj => ?_⟩
  · rw [ranks_eq, List.mem_range] at hr
    rw [bindWindow_eq]
    exact (stride_length_iff cfg.cpWorldSize_pos window.1 window.2.length).mpr hlength r hr
  · rw [bindWindow_eq] at hj
    change j < window.2.length at hj
    have hrank : r < cfg.cpWorldSize := List.mem_range.mp (cfg.ranks_eq ▸ hr)
    have hplace : r + j * cfg.cpWorldSize < window.1.length := by
      have hle := Nat.mul_le_mul_right cfg.cpWorldSize (Nat.succ_le_of_lt hj)
      rw [Nat.succ_mul] at hle
      omega
    refine ⟨by rw [bindWindow_eq]; exact hids j hj, ?_⟩
    rw [horder r hr, hhashes _ hplace, Nat.add_mul]
    congr 1
    omega

theorem hashWindow_length (ucmBlockIds : List Bytes) :
    (cfg.hashWindow ucmBlockIds start stop).length =
    min (stop * cfg.cpWorldSize) ucmBlockIds.length - start * cfg.cpWorldSize := by
  rw [hashWindow, List.length_drop, List.length_take]

theorem hashWindow_getElem? {ucmBlockIds : List Bytes} {k : Nat} (hk : k < (cfg.hashWindow ucmBlockIds start stop).length) :
    (cfg.hashWindow ucmBlockIds start stop)[k]? = ucmBlockIds[start * cfg.cpWorldSize + k]? := by
  rw [hashWindow_length] at hk
  rw [hashWindow, List.getElem?_drop, List.getElem?_take_of_lt (by omega)]

/-! ## The windows of a plan -/

section Plan

variable {reqMeta : RequestMeta} {newTokens : Nat} {vllmBlockIds : List Nat} {needLoad : Bool}

/-- A request's hashes and hits, as `get_num_new_matched_tokens` makes them. -/
structure Hashed (cfg : Config) (reqMeta : RequestMeta) : Prop where
  hashes : reqMeta.ucmBlockIds.length = reqMeta.numTokenIds / cfg.hashBlockSize
  hits : reqMeta.hbmHitBlockNum ≤ reqMeta.totalHitBlockNum
  known : reqMeta.totalHitBlockNum * cfg.cpWorldSize ≤ reqMeta.ucmBlockIds.length

/-- Where the dump's window begins and ends. -/
def dumpStart (cfg : Config) (reqMeta : RequestMeta) : Nat := reqMeta.tokenProcessed / cfg.blockSize

def dumpEnd (cfg : Config) (reqMeta : RequestMeta) (newTokens : Nat) : Nat := (reqMeta.tokenProcessed + newTokens) / cfg.blockSize

/-- A step that goes past the request's tokens ends its window within the hashes, or starts it after them. -/
def DumpFits (cfg : Config) (reqMeta : RequestMeta) (newTokens : Nat) : Prop :=
  reqMeta.tokenProcessed < reqMeta.numTokenIds → reqMeta.numTokenIds < reqMeta.tokenProcessed + newTokens →
    cfg.cpWorldSize = 1 ∨ dumpEnd cfg reqMeta newTokens * cfg.cpWorldSize ≤ reqMeta.ucmBlockIds.length ∨
      reqMeta.ucmBlockIds.length ≤ dumpStart cfg reqMeta * cfg.cpWorldSize

instance : Decidable (DumpFits cfg reqMeta newTokens) := inferInstanceAs (Decidable (_ → _ → _))

/-- Ids cut to the number of hashes, against these. -/
theorem cut_length_iff {cp s e h w : Nat} (hcp : 0 < cp) (hle : s ≤ e) (hw : w = min (e * cp) h - s * cp) :
    w = min (e - s) w * cp ↔ cp = 1 ∨ e * cp ≤ h ∨ h ≤ s * cp := by
  have hsub : (e - s) * cp = e * cp - s * cp := Nat.sub_mul e s cp
  have hmono : s * cp ≤ e * cp := Nat.mul_le_mul_right cp hle
  have hsmall : e - s ≤ (e - s) * cp := Nat.le_mul_of_pos_right _ hcp
  constructor
  · intro heq
    by_contra hnot
    rw [not_or, not_or] at hnot
    obtain ⟨hone, hend, hstart⟩ := hnot
    rcases Nat.le_total (e - s) w with hmin | hmin
    · rw [Nat.min_eq_left hmin] at heq
      omega
    · rw [Nat.min_eq_right hmin] at heq
      have htwo : w * 2 ≤ w * cp := Nat.mul_le_mul_left w (by omega)
      omega
  · intro hcond
    rcases hcond with hone | hend | hstart
    · subst hone
      omega
    · rw [Nat.min_eq_left (by omega)]
      omega
    · have hzero : w = 0 := by omega
      simp [hzero]

/-- The dump's window, of the request's blocks. -/
theorem dump_window (needLoad : Bool) (hprocess : reqMeta.tokenProcessed < reqMeta.numTokenIds)
    (htable : dumpEnd cfg reqMeta newTokens ≤ (reqMeta.vllmBlockIds ++ vllmBlockIds).length) {window : Window}
    (hwindow : window = (cfg.generateDispatchMeta reqMeta newTokens vllmBlockIds needLoad).2.dumpBlockIds) :
    window.1 = cfg.hashWindow reqMeta.ucmBlockIds (dumpStart cfg reqMeta) (dumpEnd cfg reqMeta newTokens) ∧
      window.2.length = (if reqMeta.numTokenIds < reqMeta.tokenProcessed + newTokens then
          min (dumpEnd cfg reqMeta newTokens - dumpStart cfg reqMeta) window.1.length
        else dumpEnd cfg reqMeta newTokens - dumpStart cfg reqMeta) ∧
      ∀ j, j < window.2.length → window.2[j]? = (reqMeta.vllmBlockIds ++ vllmBlockIds)[dumpStart cfg reqMeta + j]? := by
  have hids :
      (((reqMeta.vllmBlockIds ++ vllmBlockIds).take (dumpEnd cfg reqMeta newTokens)).drop (dumpStart cfg reqMeta)).length =
      dumpEnd cfg reqMeta newTokens - dumpStart cfg reqMeta := by
    rw [List.length_drop, List.length_take, Nat.min_eq_left htable]
  have hat : ∀ j, j < dumpEnd cfg reqMeta newTokens - dumpStart cfg reqMeta →
      (((reqMeta.vllmBlockIds ++ vllmBlockIds).take (dumpEnd cfg reqMeta newTokens)).drop (dumpStart cfg reqMeta))[j]? =
        (reqMeta.vllmBlockIds ++ vllmBlockIds)[dumpStart cfg reqMeta + j]? := by
    intro j hj
    rw [List.getElem?_drop, List.getElem?_take_of_lt (by omega)]
  rw [generateDispatchMeta, if_pos hprocess] at hwindow
  subst hwindow
  refine ⟨rfl, ?_, ?_⟩
  · dsimp only
    split
    · rw [List.length_take, Nat.min_comm]
      exact congrArg (min · _) hids
    · exact hids
  · dsimp only
    split
    · intro j hj
      rw [List.length_take] at hj
      rw [List.getElem?_take_of_lt (by omega)]
      exact hat j (by rw [← hids]; exact Nat.lt_of_lt_of_le hj (Nat.min_le_right _ _))
    · intro j hj
      exact hat j (by rw [← hids]; exact hj)

/-- Within the request's tokens the window ends within the hashes. -/
theorem dumpEnd_le (hashed : Hashed cfg reqMeta) (hle : reqMeta.tokenProcessed + newTokens ≤ reqMeta.numTokenIds) :
    dumpEnd cfg reqMeta newTokens * cfg.cpWorldSize ≤ reqMeta.ucmBlockIds.length := by
  rw [hashed.hashes, Nat.le_div_iff_mul_le cfg.hashBlockSize_pos, Nat.mul_assoc, Nat.mul_comm cfg.cpWorldSize]
  exact Nat.le_trans (Nat.div_mul_le_self _ cfg.blockSize) hle

theorem dumpStart_le : dumpStart cfg reqMeta ≤ dumpEnd cfg reqMeta newTokens := Nat.div_le_div_right (Nat.le_add_right _ _)

/-- All ranks have a hash for each id that is dumped, just when the step fits. -/
theorem dump_split_iff (needLoad : Bool) (hashed : Hashed cfg reqMeta)
    (htable : dumpEnd cfg reqMeta newTokens ≤ (reqMeta.vllmBlockIds ++ vllmBlockIds).length) :
    (∀ r ∈ cfg.ranks,
      (cfg.bindWindow r (cfg.generateDispatchMeta reqMeta newTokens vllmBlockIds needLoad).2.dumpBlockIds).1.length =
        (cfg.bindWindow r (cfg.generateDispatchMeta reqMeta newTokens vllmBlockIds needLoad).2.dumpBlockIds).2.length) ↔
      DumpFits cfg reqMeta newTokens := by
  simp only [bindWindow_eq, ranks_eq, List.mem_range]
  rw [stride_length_iff cfg.cpWorldSize_pos]
  by_cases hprocess : reqMeta.tokenProcessed < reqMeta.numTokenIds
  · obtain ⟨hhashes, hlength, _⟩ := dump_window needLoad hprocess htable rfl
    have hwindow : (cfg.hashWindow reqMeta.ucmBlockIds (dumpStart cfg reqMeta) (dumpEnd cfg reqMeta newTokens)).length = _ :=
      hashWindow_length _
    rw [← hhashes] at hwindow
    by_cases hover : reqMeta.numTokenIds < reqMeta.tokenProcessed + newTokens
    · rw [if_pos hover] at hlength
      rw [hlength, cut_length_iff cfg.cpWorldSize_pos dumpStart_le hwindow]
      exact ⟨fun h _ _ => h, fun h => h hprocess hover⟩
    · rw [if_neg hover] at hlength
      have hend := dumpEnd_le hashed (Nat.le_of_not_lt hover)
      rw [hlength, Nat.sub_mul, hwindow, Nat.min_eq_left hend]
      exact ⟨fun _ _ h => absurd h hover, fun _ => rfl⟩
  · rw [generateDispatchMeta, if_neg hprocess]
    exact ⟨fun _ h => absurd h hprocess, fun _ => by simp⟩

theorem split_nil (hashes : List Bytes) (table : List Nat) : cfg.Split hashes table ([], []) :=
  split_of 0 (Nat.zero_mul _).symm (fun _ h => absurd h (Nat.not_lt_zero _)) fun _ h => absurd h (Nat.not_lt_zero _)

theorem dump_split (hashed : Hashed cfg reqMeta)
    (htable : reqMeta.tokenProcessed < reqMeta.numTokenIds →
      dumpEnd cfg reqMeta newTokens ≤ (reqMeta.vllmBlockIds ++ vllmBlockIds).length)
    (hfits : DumpFits cfg reqMeta newTokens) :
    cfg.Split reqMeta.ucmBlockIds (reqMeta.vllmBlockIds ++ vllmBlockIds)
      (cfg.generateDispatchMeta reqMeta newTokens vllmBlockIds needLoad).2.dumpBlockIds := by
  by_cases hprocess : reqMeta.tokenProcessed < reqMeta.numTokenIds
  · obtain ⟨hhashes, _, hids⟩ := dump_window needLoad hprocess (htable hprocess) rfl
    have hlengths := (dump_split_iff needLoad hashed (htable hprocess)).mpr hfits
    simp only [bindWindow_eq, ranks_eq, List.mem_range] at hlengths
    refine split_of (dumpStart cfg reqMeta) ((stride_length_iff cfg.cpWorldSize_pos _ _).mp hlengths) hids fun k hk => ?_
    rw [hhashes] at hk ⊢
    exact hashWindow_getElem? hk
  · rw [generateDispatchMeta, if_neg hprocess]
    exact split_nil _ _

theorem loadBlockIds_eq : (cfg.generateDispatchMeta reqMeta newTokens vllmBlockIds needLoad).2.loadBlockIds =
    if needLoad then (cfg.hashWindow reqMeta.ucmBlockIds reqMeta.hbmHitBlockNum reqMeta.totalHitBlockNum,
      (vllmBlockIds.take reqMeta.totalHitBlockNum).drop reqMeta.hbmHitBlockNum) else ([], []) := by
  by_cases hprocess : reqMeta.tokenProcessed < reqMeta.numTokenIds
  · rw [generateDispatchMeta, if_pos hprocess]
  · rw [generateDispatchMeta, if_neg hprocess]

/-- A load takes the hit blocks, if the table has them. -/
theorem load_split (hashed : Hashed cfg reqMeta)
    (htable : needLoad = true → reqMeta.hbmHitBlockNum < reqMeta.totalHitBlockNum →
      reqMeta.totalHitBlockNum ≤ vllmBlockIds.length) :
    cfg.Split reqMeta.ucmBlockIds vllmBlockIds
    (cfg.generateDispatchMeta reqMeta newTokens vllmBlockIds needLoad).2.loadBlockIds := by
  rw [loadBlockIds_eq]
  cases needLoad with
  | false => exact split_nil _ _
  | true =>
    have hids : ((vllmBlockIds.take reqMeta.totalHitBlockNum).drop reqMeta.hbmHitBlockNum).length =
        reqMeta.totalHitBlockNum - reqMeta.hbmHitBlockNum := by
      have hcovers := htable rfl
      rw [List.length_drop, List.length_take]
      omega
    rw [if_pos rfl]
    refine split_of reqMeta.hbmHitBlockNum ?_ (fun j hj => ?_) fun k hk => hashWindow_getElem? hk
    · dsimp only
      rw [hashWindow_length, hids, Nat.min_eq_left hashed.known, Nat.sub_mul]
    · dsimp only at hj ⊢
      rw [List.getElem?_drop, List.getElem?_take_of_lt (by omega)]

end Plan

end Config

/-! ## Steps of the engine -/

section Engine

variable (Req : Type)

inductive Phase where
  | waiting
  | matched
  | running
  deriving DecidableEq

/-- The engine's state of a request. -/
structure EngineRequest where
  phase : Phase
  /-- It has been scheduled before. -/
  started : Bool
  /-- The tokens it had when hits were asked for. -/
  numTokens : Nat
  numComputedTokens : Nat
  table : List Nat
  deriving DecidableEq

def EngineRequest.arriving : EngineRequest := ⟨.waiting, false, 0, 0, []⟩

/-- How a scheduled request comes. -/
inductive Scheduled where
  | new
  | resumed
  | cached
  deriving DecidableEq

/-- Whether a request may be scheduled so. -/
def EngineRequest.mayRun (e : EngineRequest) : Scheduled → Bool
  | .new => e.phase = .matched ∧ e.started = false
  | .resumed => e.phase = .matched ∧ e.started = true
  | .cached => e.phase = .running

/-- The part of a `SchedulerOutput` that is read; a cached request has its new block ids. -/
structure SchedulerOutput where
  requests : List (Req × Scheduled × List Nat)
  numScheduledTokens : Req → Nat
  finishedReqIds : List Req
  keys : (requests.map Prod.fst).Nodup

/-- A plan of the step, beside the request's hashes and its table. -/
structure Planned where
  requestId : Req
  dispatch : RequestDispatchMeta
  ucmBlockIds : List Bytes
  table : List Nat

structure State where
  requestsMeta : Req → Option RequestMeta
  engine : Req → EngineRequest
  /-- The latest step's plans. -/
  plan : List (Planned Req)

inductive Label where
  | ask (requestId : Req) (allTokenIds : List Int) (numComputedTokens : Nat) (lastHit : Option Int)
  | build (out : SchedulerOutput Req)
  | reject (requestId : Req) (numComputedTokens : Nat)
  | preempt (requestId : Req)

end Engine

namespace Config

variable (cfg : Config) {Req : Type} [DecidableEq Req]

/-- What the engine does with a scheduled request, if it may. -/
def engineSchedule (e : EngineRequest) (kind : Scheduled) (newTokens : Nat) (blockIds : List Nat) : Option EngineRequest :=
  let table := if kind = .cached then e.table ++ blockIds else blockIds
  if e.mayRun kind = true ∧ e.numComputedTokens + newTokens ≤ table.length * cfg.blockSize then
    some { e with phase := .running, started := true, numComputedTokens := e.numComputedTokens + newTokens, table := table }
  else none

/-- A turn of the loops of `build_connector_meta`. -/
def scheduleRequest (numScheduledTokens : Req → Nat) (s : State Req) (request : Req × Scheduled × List Nat) :
    Option (State Req) :=
  let (requestId, kind, blockIds) := request
  (cfg.engineSchedule (s.engine requestId) kind (numScheduledTokens requestId) blockIds).map fun e =>
    let s := { s with engine := Function.update s.engine requestId e }
    match s.requestsMeta requestId with
    | none => s
    | some reqMeta =>
      let (reqMeta, dispatch) := cfg.generateDispatchMeta reqMeta (numScheduledTokens requestId) blockIds
          (decide (kind ≠ .cached))
      { s with
        requestsMeta := Function.update s.requestsMeta requestId (some reqMeta)
        plan := s.plan ++ [⟨requestId, dispatch, reqMeta.ucmBlockIds, e.table⟩] }

/-- `build_connector_meta`. -/
def buildConnectorMeta (s : State Req) (out : SchedulerOutput Req) : Option (State Req) :=
  (out.requests.foldlM (cfg.scheduleRequest out.numScheduledTokens) { s with plan := [] }).map fun s =>
    { s with
      requestsMeta := fun requestId => if requestId ∈ out.finishedReqIds then none else s.requestsMeta requestId
      engine := fun requestId => if requestId ∈ out.finishedReqIds then .arriving else s.engine requestId }

/-- What a lookup among these keys may return. -/
def HitAmong (externalBlockIds : List Bytes) (lastHit : Option Int) : Prop :=
  ∀ last, lastHit = some last → -1 ≤ last ∧ last < externalBlockIds.length

instance (externalBlockIds : List Bytes) (lastHit : Option Int) : Decidable (HitAmong externalBlockIds lastHit) :=
  match lastHit with
  | none => isTrue nofun
  | some last => decidable_of_iff (-1 ≤ last ∧ last < externalBlockIds.length) ⟨fun h _ heq => Option.some.inj heq ▸ h,
      fun h => h last rfl⟩

def step (s : State Req) : Label Req → Option (State Req)
  | .ask requestId allTokenIds numComputedTokens lastHit =>
    let e := s.engine requestId
    if e.phase ≠ .running ∧ e.numTokens ≤ allTokenIds.length ∧ numComputedTokens % cfg.blockSize = 0 ∧
        HitAmong (cfg.externalBlockIds allTokenIds numComputedTokens) lastHit then
      let (externalTokens, reqMeta) := cfg.getNumNewMatchedTokens (s.requestsMeta requestId) allTokenIds numComputedTokens lastHit
      some
        { s with
          requestsMeta := Function.update s.requestsMeta requestId reqMeta
          engine := Function.update s.engine requestId
            { e with phase := .matched, numTokens := allTokenIds.length, numComputedTokens := numComputedTokens +
              externalTokens } }
    else none
  | .build out => cfg.buildConnectorMeta s out
  | .reject requestId numComputedTokens =>
    let e := s.engine requestId
    if e.phase = .running ∧ e.numTokens ≤ numComputedTokens ∧ numComputedTokens ≤ e.numComputedTokens then
      some { s with engine := Function.update s.engine requestId { e with numComputedTokens := numComputedTokens } }
    else none
  | .preempt requestId =>
    let e := s.engine requestId
    if e.phase = .running then
      some { s with
        engine := Function.update s.engine requestId { e with phase := .waiting, numComputedTokens := 0, table := [] } }
    else none

def sys (Req : Type) [DecidableEq Req] : System (State Req) (Label Req) where
  init s := s = ⟨fun _ => none, fun _ => .arriving, []⟩
  step := cfg.step

/-- A scheduled request whose plan comes out right: its dump fits, nothing is left of the table it had before it
    was preempted, and its table has the blocks that are loaded. -/
structure SoundRequest (reqMeta : RequestMeta) (newTokens : Nat) (kind : Scheduled) (blockIds : List Nat) : Prop where
  dump : DumpFits cfg reqMeta newTokens
  fresh : kind = .resumed → reqMeta.vllmBlockIds = []
  load : kind ≠ .cached → reqMeta.hbmHitBlockNum < reqMeta.totalHitBlockNum → reqMeta.totalHitBlockNum ≤ blockIds.length

instance (reqMeta : RequestMeta) (newTokens : Nat) (kind : Scheduled) (blockIds : List Nat) :
    Decidable (cfg.SoundRequest reqMeta newTokens kind blockIds) :=
  decidable_of_iff (DumpFits cfg reqMeta newTokens ∧ (kind = .resumed → reqMeta.vllmBlockIds = []) ∧
    (kind ≠ .cached → reqMeta.hbmHitBlockNum < reqMeta.totalHitBlockNum → reqMeta.totalHitBlockNum ≤ blockIds.length))
    ⟨fun h => ⟨h.1, h.2.1, h.2.2⟩, fun h => ⟨h.dump, h.fresh, h.load⟩⟩

/-- A step of which every request is sound. -/
def Sound (s : State Req) : Label Req → Prop
  | .build out => ∀ request ∈ out.requests, ∀ reqMeta, s.requestsMeta request.1 = some reqMeta →
    cfg.SoundRequest reqMeta (out.numScheduledTokens request.1) request.2.1 request.2.2
  | _ => True

/-! ### What is kept of a request -/

/-- What is kept of a request, against the engine's state of it. -/
structure Kept (cfg : Config) (reqMeta : RequestMeta) (e : EngineRequest) : Prop where
  hashed : Hashed cfg reqMeta
  tokens : reqMeta.numTokenIds ≤ e.numTokens
  above : cfg.persistTokenThreshold ≤ reqMeta.numTokenIds
  unstarted : e.started = false → reqMeta.vllmBlockIds = []
  /-- Before its first plan no more than the hits are processed. -/
  early : e.phase ≠ .running → reqMeta.vllmBlockIds = [] →
    reqMeta.tokenProcessed ≤ reqMeta.totalHitBlockNum * cfg.blockSize ∨ reqMeta.numTokenIds ≤ reqMeta.tokenProcessed
  asked : e.phase = .matched → reqMeta.vllmBlockIds = [] →
    reqMeta.tokenProcessed ≤ e.numComputedTokens ∨ reqMeta.numTokenIds ≤ reqMeta.tokenProcessed
  recorded : e.phase = .running → reqMeta.vllmBlockIds = e.table
  progress : e.phase = .running → reqMeta.tokenProcessed ≤ e.numComputedTokens ∨ reqMeta.numTokenIds ≤ reqMeta.tokenProcessed
  covered : e.phase = .running → e.numComputedTokens ≤ e.table.length * cfg.blockSize

variable {cfg} {reqMeta reqMeta' : RequestMeta} {e e' : EngineRequest} {allTokenIds : List Int}
    {numComputedTokens newTokens : Nat}
  {lastHit : Option Int} {kind : Scheduled} {blockIds : List Nat}

theorem generateHash_length (allTokenIds : List Int) : (cfg.generateHash allTokenIds).length =
    allTokenIds.length / cfg.hashBlockSize :=
  Connector.generateHash_length cfg.hasher cfg.hashBlockSize_pos allTokenIds cfg.seed

/-- Hits that leave nothing to look up are as many as were known before. -/
theorem Kept.covered_by_hits (hk : Kept cfg reqMeta e) (hlen : e.numTokens ≤ allTokenIds.length)
    (hnone : cfg.externalBlockIds allTokenIds numComputedTokens = []) : reqMeta.totalHitBlockNum * cfg.blockSize ≤
    numComputedTokens := by
  have htokens := hk.tokens
  have habove := hk.above
  unfold externalBlockIds at hnone
  rw [if_neg (by omega), List.drop_eq_nil_iff, generateHash_length] at hnone
  have hhits : reqMeta.totalHitBlockNum * cfg.cpWorldSize ≤ numComputedTokens / cfg.blockSize * cfg.cpWorldSize :=
    calc reqMeta.totalHitBlockNum * cfg.cpWorldSize
        _ ≤ reqMeta.numTokenIds / cfg.hashBlockSize := hk.hashed.hashes ▸ hk.hashed.known
        _ ≤ allTokenIds.length / cfg.hashBlockSize := Nat.div_le_div_right (by omega)
        _ ≤ _ := hnone
  have hle := Nat.le_of_mul_le_mul_right hhits cfg.cpWorldSize_pos
  exact Nat.le_trans (Nat.mul_le_mul_right _ hle) (Nat.div_mul_le_self _ _)

/-- A request that was kept from an earlier time. -/
theorem Kept.ask_known (hk : Kept cfg reqMeta e) (hphase : e.phase ≠ .running) (hlen : e.numTokens ≤ allTokenIds.length)
    (hnone : cfg.externalBlockIds allTokenIds numComputedTokens = []) :
    Kept cfg reqMeta { e with phase := .matched, numTokens := allTokenIds.length, numComputedTokens := numComputedTokens } where
  hashed := hk.hashed
  tokens := Nat.le_trans hk.tokens hlen
  above := hk.above
  unstarted := hk.unstarted
  early _ hempty := hk.early hphase hempty
  asked _ hempty := (hk.early hphase hempty).imp_left fun hle => Nat.le_trans hle (hk.covered_by_hits hlen hnone)
  recorded h := by cases h
  progress h := by cases h
  covered h := by cases h

/-- The hits of a lookup are within the hashes. -/
theorem hits_known (hsome : cfg.externalBlockIds allTokenIds numComputedTokens ≠ [])
    (hhit : HitAmong (cfg.externalBlockIds allTokenIds numComputedTokens) lastHit) :
    cfg.persistTokenThreshold ≤ allTokenIds.length ∧
      (numComputedTokens / cfg.blockSize + ((lastHit.getD (-1) + 1) / cfg.cpWorldSize).toNat) * cfg.cpWorldSize ≤
        (cfg.generateHash allTokenIds).length := by
  unfold externalBlockIds at hsome hhit
  split at hsome
  · exact absurd rfl hsome
  · rename_i habove
    rw [if_neg habove] at hhit
    refine ⟨by omega, ?_⟩
    have hdrop : numComputedTokens / cfg.blockSize * cfg.cpWorldSize < (cfg.generateHash allTokenIds).length := by
      by_contra hnot
      exact hsome (List.drop_eq_nil_iff.mpr (by omega))
    have hbound : -1 ≤ lastHit.getD (-1) ∧
        lastHit.getD (-1) + 1 ≤ ((cfg.generateHash allTokenIds).length : Int) -
        (numComputedTokens / cfg.blockSize * cfg.cpWorldSize : Nat) := by
      cases lastHit with
      | none => exact ⟨Int.le_refl _, by rw [Option.getD_none]; omega⟩
      | some last =>
        obtain ⟨hlo, hhi⟩ := hhit last rfl
        rw [List.length_drop] at hhi
        exact ⟨hlo, by rw [Option.getD_some]; omega⟩
    have hcp : (0 : Int) < cfg.cpWorldSize := Int.natCast_pos.mpr cfg.cpWorldSize_pos
    have hdiv := Int.ediv_mul_le (lastHit.getD (-1) + 1) (Int.ne_of_gt hcp)
    have hnonneg : 0 ≤ (lastHit.getD (-1) + 1) / (cfg.cpWorldSize : Int) := Int.ediv_nonneg (by omega) (by omega)
    have hnat : ((((lastHit.getD (-1) + 1) / cfg.cpWorldSize).toNat * cfg.cpWorldSize : Nat) : Int) =
        (lastHit.getD (-1) + 1) / cfg.cpWorldSize * cfg.cpWorldSize := by rw [Int.natCast_mul, Int.toNat_of_nonneg hnonneg]
    rw [Nat.add_mul]
    omega

/-- A request that is asked for anew. -/
theorem ask_fresh (known : Option RequestMeta) (hsome : cfg.externalBlockIds allTokenIds numComputedTokens ≠ [])
    (hhit : HitAmong (cfg.externalBlockIds allTokenIds numComputedTokens) lastHit) (e : EngineRequest) :
    ∃ externalTokens reqMeta, cfg.getNumNewMatchedTokens known allTokenIds numComputedTokens lastHit =
    (externalTokens, some reqMeta) ∧
      Kept cfg reqMeta
        { e with phase := .matched, numTokens := allTokenIds.length, numComputedTokens := numComputedTokens +
          externalTokens } := by
  obtain ⟨habove, hknown⟩ := hits_known hsome hhit
  unfold getNumNewMatchedTokens
  rw [if_neg hsome]
  dsimp only
  refine ⟨_, _, rfl, ?_⟩
  generalize hext :
    (if (allTokenIds.length : Int) - (((numComputedTokens / cfg.blockSize + ((lastHit.getD (-1) + 1) / cfg.cpWorldSize).toNat) *
      cfg.blockSize : Nat) : Int) < cfg.recomputeTokens then _ else _ : Nat) = externalTokens
  have hle : externalTokens ≤ ((lastHit.getD (-1) + 1) / cfg.cpWorldSize).toNat * cfg.blockSize := by
    split at hext
    · omega
    · omega
  refine
    { hashed := ⟨generateHash_length allTokenIds, Nat.le_add_right _ _, hknown⟩
      tokens := Nat.le_refl _
      above := habove
      unstarted := fun _ => rfl
      early := fun _ _ => .inl ?_
      asked := fun _ _ => .inl ?_
      recorded := nofun
      progress := nofun
      covered := nofun }
  · dsimp only
    rw [Nat.add_mul]
    omega
  · have hdiv := Nat.div_mul_le_self numComputedTokens cfg.blockSize
    dsimp only
    omega

/-! ### Scheduling -/

theorem engineSchedule_eq_some (h : cfg.engineSchedule e kind newTokens blockIds = some e') :
    e.mayRun kind = true ∧ e'.table = (if kind = .cached then e.table ++ blockIds else blockIds) ∧
      e.numComputedTokens + newTokens ≤ e'.table.length * cfg.blockSize ∧
      e' = { e with
        phase := .running, started := true, numComputedTokens := e.numComputedTokens + newTokens, table := e'.table } := by
  unfold engineSchedule at h
  obtain ⟨⟨hmay, hroom⟩, h⟩ := Option.ite_none_right_eq_some.mp h
  obtain rfl := Option.some.inj h
  exact ⟨hmay, rfl, hroom, rfl⟩

/-- The table that is recorded is the engine's, and no more is processed than is computed. -/
theorem Kept.scheduled (hk : Kept cfg reqMeta e) (hsound : cfg.SoundRequest reqMeta newTokens kind blockIds)
    (hmay : e.mayRun kind = true) :
    reqMeta.vllmBlockIds ++ blockIds = (if kind = .cached then e.table ++ blockIds else blockIds) ∧
      (reqMeta.tokenProcessed ≤ e.numComputedTokens ∨ reqMeta.numTokenIds ≤ reqMeta.tokenProcessed) := by
  cases kind with
  | new =>
    obtain ⟨hphase, hstarted⟩ := of_decide_eq_true hmay
    have hempty := hk.unstarted hstarted
    exact ⟨by rw [hempty]; rfl, hk.asked hphase hempty⟩
  | resumed =>
    obtain ⟨hphase, _⟩ := of_decide_eq_true hmay
    have hempty := hsound.fresh rfl
    exact ⟨by rw [hempty]; rfl, hk.asked hphase hempty⟩
  | cached =>
    have hphase : e.phase = .running := of_decide_eq_true hmay
    exact ⟨by rw [hk.recorded hphase]; rfl, hk.progress hphase⟩

/-- What is kept after a plan. -/
theorem generateDispatchMeta_kept (needLoad : Bool) :
    (cfg.generateDispatchMeta reqMeta newTokens blockIds needLoad).1 =
      { reqMeta with
        vllmBlockIds := reqMeta.vllmBlockIds ++ blockIds
        tokenProcessed := if reqMeta.tokenProcessed < reqMeta.numTokenIds then reqMeta.tokenProcessed + newTokens
          else reqMeta.tokenProcessed } := by
  by_cases hprocess : reqMeta.tokenProcessed < reqMeta.numTokenIds
  · rw [generateDispatchMeta, if_pos hprocess, if_pos hprocess]
  · rw [generateDispatchMeta, if_neg hprocess, if_neg hprocess]

/-- A sound request is split right, and is kept. -/
theorem Kept.schedule (hk : Kept cfg reqMeta e) (hsound : cfg.SoundRequest reqMeta newTokens kind blockIds)
    (h : cfg.engineSchedule e kind newTokens blockIds = some e') :
    Kept cfg (cfg.generateDispatchMeta reqMeta newTokens blockIds (decide (kind ≠ .cached))).1 e' ∧
      cfg.Right reqMeta.ucmBlockIds e'.table
      (cfg.generateDispatchMeta reqMeta newTokens blockIds (decide (kind ≠ .cached))).2 := by
  obtain ⟨hmay, htable, hroom, he⟩ := engineSchedule_eq_some h
  obtain ⟨hrecorded, hprogress⟩ := hk.scheduled hsound hmay
  rw [← htable] at hrecorded
  refine ⟨?_, ⟨?_, ?_⟩⟩
  · rw [generateDispatchMeta_kept, he]
    refine
      { hashed := ⟨hk.hashed.hashes, hk.hashed.hits, hk.hashed.known⟩
        tokens := hk.tokens
        above := hk.above
        unstarted := nofun
        early := fun hphase => absurd rfl hphase
        asked := nofun
        recorded := fun _ => hrecorded
        progress := fun _ => ?_
        covered := fun _ => hroom }
    dsimp only
    split
    · omega
    · omega
  · by_cases hkind : kind = .cached
    · rw [decide_eq_false (by simpa using hkind), loadBlockIds_eq]
      exact split_nil _ _
    · rw [decide_eq_true hkind]
      rw [if_neg hkind] at htable
      rw [htable]
      exact load_split hk.hashed fun _ => hsound.load hkind
  · rw [← hrecorded]
    refine dump_split hk.hashed (fun hprocess => ?_) hsound.dump
    rw [hrecorded]
    have hle : reqMeta.tokenProcessed + newTokens ≤ e'.table.length * cfg.blockSize := by omega
    exact Nat.div_le_of_le_mul (Nat.mul_comm _ _ ▸ hle)

/-! ### Runs -/

/-- All requests are kept, and all plans of the latest step are right. -/
structure Inv (cfg : Config) (s : State Req) : Prop where
  kept : ∀ requestId reqMeta, s.requestsMeta requestId = some reqMeta → Kept cfg reqMeta (s.engine requestId)
  right : ∀ p ∈ s.plan, cfg.Right p.ucmBlockIds p.table p.dispatch

variable {s s' : State Req} {requestId : Req}

/-- What is kept of all requests after that of one has changed. -/
theorem kept_update (requestId : Req) {m : Option RequestMeta} (hk : ∀ id reqMeta, s.requestsMeta id = some reqMeta →
    Kept cfg reqMeta (s.engine id))
    (hone : ∀ reqMeta, m = some reqMeta → Kept cfg reqMeta e) :
    ∀ id reqMeta, Function.update s.requestsMeta requestId m id = some reqMeta →
    Kept cfg reqMeta (Function.update s.engine requestId e id) := by
  intro id reqMeta h
  by_cases heq : id = requestId
  · subst heq
    rw [Function.update_self] at h ⊢
    exact hone reqMeta h
  · rw [Function.update_of_ne heq] at h ⊢
    exact hk id reqMeta h

/-- The same, where only the engine's state of one has changed. -/
theorem kept_update_engine (hk : ∀ id reqMeta, s.requestsMeta id = some reqMeta → Kept cfg reqMeta (s.engine id))
    (hone : ∀ reqMeta, s.requestsMeta requestId = some reqMeta → Kept cfg reqMeta e) :
    ∀ id reqMeta, s.requestsMeta id = some reqMeta → Kept cfg reqMeta (Function.update s.engine requestId e id) := by
  have hboth := kept_update requestId hk hone
  rwa [Function.update_eq_self] at hboth

theorem scheduleRequest_spec {numScheduledTokens : Req → Nat} {request : Req × Scheduled × List Nat} (hi : cfg.Inv s)
    (hsound : ∀ reqMeta, s.requestsMeta request.1 = some reqMeta →
      cfg.SoundRequest reqMeta (numScheduledTokens request.1) request.2.1 request.2.2)
    (h : cfg.scheduleRequest numScheduledTokens s request = some s') :
    cfg.Inv s' ∧ ∀ id, id ≠ request.1 → s'.requestsMeta id = s.requestsMeta id := by
  obtain ⟨requestId, kind, blockIds⟩ := request
  obtain ⟨e, he, rfl⟩ := Option.map_eq_some_iff.mp h
  dsimp only at he hsound ⊢
  cases hm : s.requestsMeta requestId with
  | none =>
    exact ⟨⟨kept_update_engine hi.kept fun reqMeta hsome => absurd (hm.symm.trans hsome) nofun, hi.right⟩, fun _ _ => rfl⟩
  | some reqMeta =>
    obtain ⟨hkept, hright⟩ := (hi.kept requestId reqMeta hm).schedule (hsound reqMeta hm) he
    refine ⟨⟨kept_update _ hi.kept fun reqMeta' hsome => Option.some.inj hsome ▸ hkept, fun p hp => ?_⟩, fun id hne => ?_⟩
    · rcases List.mem_append.mp hp with hp | hp
      · exact hi.right p hp
      · rw [List.mem_singleton.mp hp, generateDispatchMeta_kept]
        exact hright
    · exact Function.update_of_ne hne _ _

theorem scheduleRequests_spec {numScheduledTokens : Req → Nat} {requests : List (Req × Scheduled × List Nat)}
    (hkeys : (requests.map Prod.fst).Nodup) (hi : cfg.Inv s)
    (hsound : ∀ request ∈ requests, ∀ reqMeta, s.requestsMeta request.1 = some reqMeta →
      cfg.SoundRequest reqMeta (numScheduledTokens request.1) request.2.1 request.2.2)
    (h : requests.foldlM (cfg.scheduleRequest numScheduledTokens) s = some s') : cfg.Inv s' := by
  induction requests generalizing s with
  | nil =>
    obtain rfl := Option.some.inj h
    exact hi
  | cons request requests ih =>
    rw [List.foldlM_cons] at h
    obtain ⟨t, ht, h⟩ := Option.bind_eq_some_iff.mp h
    rw [List.map_cons, List.nodup_cons] at hkeys
    obtain ⟨hinv, hsame⟩ := scheduleRequest_spec hi (hsound request List.mem_cons_self) ht
    refine ih hkeys.2 hinv (fun request' hmem reqMeta hm => ?_) h
    have hne : request'.1 ≠ request.1 := fun heq => hkeys.1 (heq ▸ List.mem_map_of_mem hmem)
    exact hsound request' (List.mem_cons_of_mem _ hmem) reqMeta (hsame _ hne ▸ hm)

theorem Inv.build (hi : cfg.Inv s) {out : SchedulerOutput Req} (hsound : cfg.Sound s (.build out))
    (h : cfg.buildConnectorMeta s out = some s') :
    cfg.Inv s' := by
  obtain ⟨t, ht, rfl⟩ := Option.map_eq_some_iff.mp h
  have hempty : cfg.Inv { s with plan := [] } := ⟨hi.kept, fun p hp => absurd hp List.not_mem_nil⟩
  have hinv := scheduleRequests_spec out.keys hempty hsound ht
  refine ⟨fun id reqMeta hm => ?_, hinv.right⟩
  dsimp only at hm ⊢
  split at hm
  · cases hm
  · rename_i hnot
    rw [if_neg hnot]
    exact hinv.kept id reqMeta hm

theorem Inv.ask (hi : cfg.Inv s) (h : cfg.step s (.ask requestId allTokenIds numComputedTokens lastHit) = some s') :
    cfg.Inv s' := by
  unfold Config.step at h
  dsimp only at h
  split at h
  · rename_i hcond
    obtain ⟨hphase, hlen, _, hhit⟩ := hcond
    obtain rfl := Option.some.inj h
    refine ⟨kept_update _ hi.kept fun reqMeta hm => ?_, hi.right⟩
    by_cases hnone : cfg.externalBlockIds allTokenIds numComputedTokens = []
    · have heq : cfg.getNumNewMatchedTokens (s.requestsMeta requestId) allTokenIds numComputedTokens lastHit =
          (0, s.requestsMeta requestId) := by
        rw [getNumNewMatchedTokens, if_pos hnone]
      rw [heq] at hm ⊢
      exact (hi.kept requestId reqMeta hm).ask_known hphase hlen hnone
    · obtain ⟨externalTokens, fresh, heq, hkept⟩ := ask_fresh (s.requestsMeta requestId) hnone hhit (s.engine requestId)
      rw [heq] at hm ⊢
      obtain rfl := Option.some.inj hm
      exact hkept
  · cases h

theorem Inv.reject (hi : cfg.Inv s) (h : cfg.step s (.reject requestId numComputedTokens) = some s') : cfg.Inv s' := by
  obtain ⟨⟨hphase, htokens, hle⟩, h⟩ := Option.ite_none_right_eq_some.mp h
  obtain rfl := Option.some.inj h
  refine ⟨kept_update_engine hi.kept fun reqMeta hm => ?_, hi.right⟩
  have hk := hi.kept requestId reqMeta hm
  refine { hk with asked := fun h => ?_, progress := fun _ => ?_, covered := fun _ => Nat.le_trans hle (hk.covered hphase) }
  · rw [hphase] at h
    cases h
  · have hall := hk.tokens
    dsimp only
    omega

theorem Inv.preempt (hi : cfg.Inv s) (h : cfg.step s (.preempt requestId) = some s') : cfg.Inv s' := by
  obtain ⟨hphase, h⟩ := Option.ite_none_right_eq_some.mp h
  obtain rfl := Option.some.inj h
  refine ⟨kept_update_engine hi.kept fun reqMeta hm => ?_, hi.right⟩
  have hk := hi.kept requestId reqMeta hm
  refine { hk with early := fun _ hempty => ?_, asked := nofun, recorded := nofun, progress := nofun, covered := nofun }
  have hcovered := hk.covered hphase
  rw [← hk.recorded hphase, hempty, List.length_nil, Nat.zero_mul] at hcovered
  have hprogress := hk.progress hphase
  omega

theorem Inv.step (hi : cfg.Inv s) {a : Label Req} (hsound : cfg.Sound s a) (h : cfg.step s a = some s') : cfg.Inv s' := by
  cases a with
  | ask requestId allTokenIds numComputedTokens lastHit => exact hi.ask h
  | build out => exact hi.build hsound h
  | reject requestId numComputedTokens => exact hi.reject h
  | preempt requestId => exact hi.preempt h

end Config

end UnifiedCache.Connector.ContextParallel
