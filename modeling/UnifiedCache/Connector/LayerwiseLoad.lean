/-
  UnifiedCache.Connector.LayerwiseLoad — loads pipelined by layer
  (ucm/integration/vllm/ucm_connector.py: the load half of `UCMLayerWiseConnector`).

  `start_load_kv` submits the loads of the first layer, one for each request with a load plan;
  `wait_for_layer_load` waits the loads of its layer and submits those of the next one. A request
  whose submit or wait raises is failed: its blocks are reported invalid and it is left out of the
  rest of the step.

  A step of the engine is a `start`, waits of the base layers in order, waits of the layers after
  them (a speculative model may run none, some or each of these, more than once), and a `save`. Each
  call carries the requests whose submits and whose waits raise in it.

  The log holds what happened in the step, the latest first. A layer is `used` when its wait
  returns, for its forward pass reads the blocks then.
-/

import Mathlib.Algebra.Ring.Nat
import UnifiedCache.Base.Transition
import UnifiedCache.Connector.BlockKeys

namespace UnifiedCache.Connector

open UnifiedCache.Base

variable {Req : Type}

/-- The layers of a rank, consecutive; a base model has the first ones. -/
structure LayerRows where
  firstLayerId : Nat
  /-- For each layer the stride and the base of each of its tensors. -/
  rows : List (List (Nat × Nat))
  numBase : Nat
  base_pos : 0 < numBase
  base_le : numBase ≤ rows.length

namespace LayerRows

variable (lay : LayerRows)

def layerIds : List Nat := List.range' lay.firstLayerId lay.rows.length

/-- A row of `extract_block_addrs`, in `uint64`s. -/
def rowAddrs (vllmBlockIds : List Nat) (row : List (Nat × Nat)) : List (List Nat) :=
  vllmBlockIds.map fun b => row.map fun p => (p.1 * b + p.2) % 2 ^ 64

/-- `extract_block_addrs` with `layer_first`. -/
def extractBlockAddrs (vllmBlockIds : List Nat) : List (List (List Nat)) := lay.rows.map (rowAddrs vllmBlockIds)

/-- Where a layer's tensors have the blocks. -/
def layerAddrs (layerId : Nat) (vllmBlockIds : List Nat) : List (List Nat) :=
  rowAddrs vllmBlockIds ((lay.rows[layerId - lay.firstLayerId]?).getD [])

end LayerRows

/-- What the connector reads of a `RequestDispatchMeta`. -/
structure LayerRequest (Req : Type) where
  requestId : Req
  loadBlockIds : List Bytes × List Nat
  dumpBlockIds : List Bytes × List Nat

/-- `metadata.request_meta`, in its order. -/
structure LayerMetadata (Req : Type) where
  requestMeta : List (LayerRequest Req)
  keys : (requestMeta.map LayerRequest.requestId).Nodup

structure LayerTask (Req : Type) where
  id : Nat
  layerId : Nat
  requestId : Req
  storeBlockIds : List Bytes
  shardIndexs : List Nat
  layerPtrs : List (List Nat)
  deriving DecidableEq

/-- An item of `request_data`. -/
structure RequestData (Req : Type) where
  requestId : Req
  ucmBlockIds : List Bytes
  storeBlockIds : List Bytes
  totalPtrs : List (List (List Nat))

inductive LoadEvent (Req : Type) where
  | submitted (t : LayerTask Req)
  | waited (id : Nat) (ok : Bool)
  | used (layerId : Nat)
  deriving DecidableEq

inductive LoadPhase where
  | idle
  | loading
  | saved
  deriving DecidableEq

structure LayerLoads (Req : Type) where
  phase : LoadPhase
  metadata : LayerMetadata Req
  /-- `load_tasks`, keyed by layer and request. -/
  loadTasks : List (LayerTask Req)
  requestData : List (RequestData Req)
  failureReqIds : List Req
  needLoad : Bool
  loadFailedReqs : List Req
  invalidBlockIds : List Nat
  nextTask : Nat
  log : List (LoadEvent Req)

/-- A worker's rank and its hasher. -/
structure LayerWorker where
  lay : LayerRows
  tpRank : Nat
  tpSize : Nat
  isMla : Bool
  requestHasher : Bytes → Bytes

namespace LayerWorker

variable [DecidableEq Req] (w : LayerWorker)

def storeBlockIds (ucmBlockIds : List Bytes) : List Bytes :=
  if w.tpRank % w.tpSize ≠ 0 ∧ w.isMla = false then ucmBlockIds.map w.requestHasher else ucmBlockIds

/-- The requests with a load plan. -/
def planned (md : LayerMetadata Req) : List (LayerRequest Req) := md.requestMeta.filter fun r => !r.loadBlockIds.1.isEmpty

def dataOf (r : LayerRequest Req) : RequestData Req where
  requestId := r.requestId
  ucmBlockIds := r.loadBlockIds.1
  storeBlockIds := w.storeBlockIds r.loadBlockIds.1
  totalPtrs := w.lay.extractBlockAddrs r.loadBlockIds.2

/-- The blocks that `_record_load_error` is given for a request, which the metadata has. -/
def errorBlocks (md : LayerMetadata Req) (requestId : Req) : List Nat :=
  match md.requestMeta.find? fun r => r.requestId = requestId with
  | some r => r.loadBlockIds.2 ++ r.dumpBlockIds.2
  | none => []

/-- The handler of a submit or wait that raised. -/
def recordFailure (s : LayerLoads Req) (requestId : Req) : LayerLoads Req :=
  { s with
    invalidBlockIds := s.invalidBlockIds ++ errorBlocks s.metadata requestId
    failureReqIds := s.failureReqIds ++ [requestId]
    loadFailedReqs := s.loadFailedReqs ++ [requestId] }

/-- `load_tasks[layer_id][request_id] = task`. -/
def setTask (tasks : List (LayerTask Req)) (t : LayerTask Req) : List (LayerTask Req) :=
  if tasks.any fun t' => t'.layerId = t.layerId ∧ t'.requestId = t.requestId then
    tasks.map fun t' => if t'.layerId = t.layerId ∧ t'.requestId = t.requestId then t else t'
  else tasks ++ [t]

/-- A turn of `_submit_request_load_tasks_for_layer`; `raises` are the requests whose submit raises. -/
def submitRequest (layerId localRow : Nat) (raises : List Req) (s : LayerLoads Req) (d : RequestData Req) : LayerLoads Req :=
  if d.requestId ∈ s.failureReqIds then s
  else
    match d.totalPtrs[localRow]? with
    | none => recordFailure s d.requestId
    | some layerPtrs =>
      if d.requestId ∈ raises then recordFailure s d.requestId
      else
        let t : LayerTask Req :=
          ⟨s.nextTask, layerId, d.requestId, d.storeBlockIds, List.replicate d.ucmBlockIds.length layerId, layerPtrs⟩
        { s with
          loadTasks := setTask s.loadTasks t
          nextTask := s.nextTask + 1
          log := .submitted t :: s.log }

def submitLayer (layerId localRow : Nat) (raises : List Req) (s : LayerLoads Req) : LayerLoads Req :=
  s.requestData.foldl (submitRequest layerId localRow raises) s

/-- A turn of the loop of `wait_for_layer_load`; `raises` are the requests whose wait raises. -/
def waitTask (raises : List Req) (s : LayerLoads Req) (t : LayerTask Req) : LayerLoads Req :=
  if t.requestId ∈ raises then recordFailure { s with log := .waited t.id false :: s.log } t.requestId
  else { s with log := .waited t.id true :: s.log }

/-- `start_load_kv`. -/
def startLoadKv (md : LayerMetadata Req) (submitRaises : List Req) (s : LayerLoads Req) : LayerLoads Req :=
  let s := { s with
    phase := .loading
    metadata := md
    loadTasks := []
    failureReqIds := []
    requestData := (planned md).map w.dataOf
    needLoad := !(planned md).isEmpty
    log := [] }
  if s.needLoad then submitLayer w.lay.firstLayerId 0 submitRaises s else s

/-- `wait_for_layer_load`. -/
def waitForLayerLoad (layerId : Nat) (waitRaises submitRaises : List Req) (s : LayerLoads Req) : LayerLoads Req :=
  if !s.needLoad then { s with log := .used layerId :: s.log }
  else
    let layerTasks := s.loadTasks.filter (·.layerId = layerId)
    let s := { s with loadTasks := s.loadTasks.filter (·.layerId ≠ layerId) }
    let s := layerTasks.foldl (waitTask waitRaises) s
    let nextLayerId := layerId + 1
    let s := if nextLayerId ∈ w.lay.layerIds then submitLayer nextLayerId (nextLayerId - w.lay.firstLayerId) submitRaises s else s
    { s with log := .used layerId :: s.log }

end LayerWorker

/-! ## Steps of the engine -/

namespace LayerLoads

def usedLayers (log : List (LoadEvent Req)) : List Nat :=
  log.filterMap fun
    | .used layerId => some layerId
    | _ => none

def initial : LayerLoads Req := ⟨.idle, ⟨[], List.nodup_nil⟩, [], [], [], false, [], [], 0, []⟩

end LayerLoads

inductive LoadLabel (Req : Type) where
  | start (md : LayerMetadata Req) (submitRaises : List Req)
  | wait (layerId : Nat) (waitRaises submitRaises : List Req)
  | save
  /-- The errors are reported, after the step. -/
  | report

namespace LayerWorker

variable [DecidableEq Req] (w : LayerWorker)

/-- A base layer is waited for when those before it have been, another layer after all of them. -/
def mayWait (layerId : Nat) (used : List Nat) : Bool :=
  if layerId < w.lay.firstLayerId + w.lay.numBase then layerId == w.lay.firstLayerId + used.length
  else w.lay.numBase ≤ used.length

def loadStep (s : LayerLoads Req) : LoadLabel Req → Option (LayerLoads Req)
  | .start md submitRaises => if s.phase ≠ .loading then some (w.startLoadKv md submitRaises s) else none
  | .wait layerId waitRaises submitRaises =>
    if s.phase = .loading ∧ layerId ∈ w.lay.layerIds ∧ w.mayWait layerId (LayerLoads.usedLayers s.log) = true then
      some (w.waitForLayerLoad layerId waitRaises submitRaises s)
    else none
  | .save =>
    if s.phase = .loading ∧ w.lay.numBase ≤ (LayerLoads.usedLayers s.log).length then some { s with phase := .saved } else none
  | .report => if s.phase = .saved then some { s with phase := .idle, loadFailedReqs := [], invalidBlockIds := [] } else none

def loadSys (Req : Type) [DecidableEq Req] : System (LayerLoads Req) (LoadLabel Req) where
  init s := s = .initial
  step := w.loadStep

end LayerWorker

end UnifiedCache.Connector
