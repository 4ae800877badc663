/-
  UnifiedCache.Connector.AsyncDump — dumps that outlive the step they were submitted in
  (ucm/integration/vllm/ucm_connector.py, `UCMDirectConnector` and `UCMLayerWiseConnector`).

  Actors:

  - the engine: finishes requests, preempts them, and gives their blocks back;
  - the scheduler's connector: says for a finished request whether its blocks must be kept
    (`request_finished`), and remembers which requests dump in a step it builds;
  - the worker's connector of each rank: runs the steps in the order they were built. It waits for the
    dumps of preempted requests before a step, submits the step's own, polls, and at its end waits for the
    dumps of the finished requests and reports them.

  The engine may be any number of steps ahead. A rank submits one dump for a step, or one for a layer; the
  dumps of MTP layers are put off to the end of the forward pass. A submission may fail, a wait may raise:
  the task is waited for either way.

  The engine gives the blocks of a request back when it preempts it, when `request_finished` answers
  `False`, and otherwise when every rank has reported the request.
-/

import Mathlib.Data.List.Basic
import Mathlib.Logic.Function.Basic
import UnifiedCache.Base.Transition

namespace UnifiedCache.Connector.AsyncDump

open UnifiedCache.Base

/-- What a step dumps of a request: `dump_block_ids`. -/
structure DumpPlan (R U : Type) where
  requestId : R
  ucmBlockIds : List U
  vllmBlockIds : List Nat

/-- What the workers are told of a step: the connector's metadata and `finished_req_ids`. -/
structure StepOutput (R U : Type) where
  requestMeta : List (DumpPlan R U)
  preemptedReqIds : List R
  finishedReqIds : List R

/-- `PendingDumpTask`, with the blocks it reads. -/
structure PendingDumpTask (R : Type) where
  requestIds : List R
  vllmBlockIds : List Nat
  /-- Ghost: the step it was submitted in. -/
  step : Nat

structure Config where
  /-- Ranks. -/
  world : Nat
  tpSize : Nat
  isMla : Bool
  layerwise : Bool
  skipNullVllmBlocks : Bool
  /-- `_is_mtp_layer`. -/
  isMtpLayer : Nat → Bool

inductive Pc where
  | idle
  /-- After `handle_preemptions`. -/
  | forward
  /-- After `wait_for_save`. -/
  | saved
  deriving DecidableEq

structure Worker (R : Type) where
  /-- The step it runs next, or is in. -/
  next : Nat
  pc : Pc
  pendingDumpTasks : List (PendingDumpTask R)
  /-- `_deferred_mtp_dumps`: the latest of each layer. -/
  deferredMtpDumps : List (Nat × PendingDumpTask R)
  asyncDumpReqIds : List R
  /-- Ghost: how often `get_finished` has reported a request. -/
  reported : R → Nat

structure State (cfg : Config) (R U : Type) where
  /-- The steps built so far. -/
  steps : List (StepOutput R U)
  /-- The scheduler's. -/
  asyncDumpReqIds : List R
  /-- Finished since the last step was built. -/
  finishedReqIds : List R
  finished : R → Bool
  /-- `request_finished` answered `True`. -/
  delayed : R → Bool
  /-- A finished request's blocks are given back. -/
  freed : R → Bool
  workers : Fin cfg.world → Worker R

inductive Label (cfg : Config) (R U : Type) where
  /-- A request finishes, or is aborted. -/
  | finish (r : R)
  /-- A step is built. -/
  | schedule (requestMeta : List (DumpPlan R U)) (preempted : List R)
  | release (r : R)
  /-- `handle_preemptions`. -/
  | handlePreemptions (w : Fin cfg.world)
  /-- `save_kv_layer` of a layer-wise connector; whether its submission succeeds. -/
  | saveKvLayer (w : Fin cfg.world) (layer : Nat) (ok : Bool)
  /-- `wait_for_save`: which tasks `check` finds complete, and which submissions succeed. -/
  | waitForSave (w : Fin cfg.world) (complete submitted : Nat → Bool)
  /-- A step without a forward pass. -/
  | noForward (w : Fin cfg.world)
  | getFinished (w : Fin cfg.world)

section Model

variable {cfg : Config} {R U : Type} [DecidableEq R]

/-- The requests with `len(dump_block_ids[0]) > 0`. -/
def StepOutput.dumpReqIds (o : StepOutput R U) :
    List R := (o.requestMeta.filter fun d => !d.ucmBlockIds.isEmpty).map DumpPlan.requestId

/-- `_drop_null_vllm_blocks`. -/
def dropNullVllmBlocks (d : DumpPlan R U) : DumpPlan R U :=
  if d.ucmBlockIds.isEmpty || d.vllmBlockIds.isEmpty then d
  else
    let kept := (d.ucmBlockIds.zip d.vllmBlockIds).filter fun p => p.2 ≠ 0
    { d with ucmBlockIds := kept.map Prod.fst, vllmBlockIds := kept.map Prod.snd }

/-- What a rank dumps of a step. -/
def StepOutput.saved (cfg : Config) (o : StepOutput R U) : List (DumpPlan R U) :=
  let plans := o.requestMeta.filter fun d => !d.ucmBlockIds.isEmpty
  if !cfg.layerwise && cfg.skipNullVllmBlocks then (plans.map dropNullVllmBlocks).filter fun d =>
    !d.ucmBlockIds.isEmpty else plans

/-- The task for it. -/
def taskOf (plans : List (DumpPlan R U)) (step : Nat) : PendingDumpTask R :=
  ⟨plans.map DumpPlan.requestId, plans.flatMap DumpPlan.vllmBlockIds, step⟩

/-- A rank that leaves the dumps to the first one. -/
def Config.silent (cfg : Config) (w : Fin cfg.world) : Bool :=
  cfg.isMla && (if cfg.layerwise then w.val % cfg.tpSize ≠ 0 else w.val ≠ 0)

/-- `pending_dump_task.request_ids & request_ids`. -/
def PendingDumpTask.touches (t : PendingDumpTask R) (requestIds : List R) : Bool := t.requestIds.any fun r => r ∈ requestIds

namespace Worker

/-- `_flush_pending_dump_tasks` of some requests. -/
def flush (k : Worker R) (requestIds : List R) : Worker R :=
  { k with pendingDumpTasks := k.pendingDumpTasks.filter fun t => !t.touches requestIds }

/-- `_poll_pending_dump_tasks`. -/
def poll (k : Worker R) (complete : Nat → Bool) : Worker R :=
  { k with pendingDumpTasks := (k.pendingDumpTasks.zipIdx.filter fun x => !complete x.2).map Prod.fst }

/-- `submit_dump`, and the task appended if it succeeds. -/
def submit (k : Worker R) (t : PendingDumpTask R) (ok : Bool) : Worker R :=
  if ok then { k with pendingDumpTasks := k.pendingDumpTasks ++ [t] } else k

/-- `_async_dump_req_ids.update`. -/
def noteDumps (k : Worker R) (requestIds : List R) : Worker R := { k with asyncDumpReqIds := k.asyncDumpReqIds ++ requestIds }

/-- `_flush_deferred_mtp_dumps`, in the order of the layers. -/
def flushDeferred (k : Worker R) (submitted : Nat → Bool) : Worker R :=
  (k.deferredMtpDumps.mergeSort fun x y => x.1 ≤ y.1).foldl (fun k x => k.submit x.2 (submitted x.1))
  { k with deferredMtpDumps := [] }

/-- `get_finished`. -/
def getFinished (k : Worker R) (finishedReqIds : List R) : Worker R :=
  let ids := finishedReqIds.filter fun r => r ∈ k.asyncDumpReqIds
  let k := if ids.isEmpty then k else k.flush ids
  { k with
    asyncDumpReqIds := k.asyncDumpReqIds.filter fun r => r ∉ ids
    reported := fun r => k.reported r + if r ∈ ids then 1 else 0 }

end Worker

def saveKvLayer (cfg : Config) (w : Fin cfg.world) (o : StepOutput R U) (k : Worker R) (layer : Nat) (ok : Bool) : Worker R :=
  if cfg.silent w then k
  else
    let plans := o.saved cfg
    if plans.isEmpty then k
    else if cfg.isMtpLayer layer then
      { k with deferredMtpDumps := (k.deferredMtpDumps.filter fun x => x.1 ≠ layer) ++ [(layer, taskOf plans k.next)] }
    else k.submit (taskOf plans k.next) ok

def waitForSave (cfg : Config) (w : Fin cfg.world) (o : StepOutput R U) (k : Worker R)
    (complete submitted : Nat → Bool) : Worker R :=
  if cfg.layerwise then ((k.flushDeferred submitted).poll complete).noteDumps o.dumpReqIds
  else
    let k := (k.poll complete).noteDumps o.dumpReqIds
    if cfg.silent w || (o.saved cfg).isEmpty then k else k.submit (taskOf (o.saved cfg) k.next) (submitted 0)

/-- One of the workers changes. -/
def State.setWorker (s : State cfg R U) (w : Fin cfg.world) (k : Worker R) : State cfg R U :=
  { s with workers := Function.update s.workers w k }

def step (s : State cfg R U) : Label cfg R U → Option (State cfg R U)
  | .finish r =>
    if s.finished r then none
    else
      let s := { s with finished := Function.update s.finished r true, finishedReqIds := s.finishedReqIds ++ [r] }
      if r ∈ s.asyncDumpReqIds then
        some { s with asyncDumpReqIds := s.asyncDumpReqIds.filter fun x => x ≠ r, delayed := Function.update s.delayed r true }
      else some { s with freed := Function.update s.freed r true }
  | .schedule requestMeta preempted =>
    let o : StepOutput R U := ⟨requestMeta, preempted, s.finishedReqIds⟩
    some { s with steps := s.steps ++ [o], finishedReqIds := [], asyncDumpReqIds := s.asyncDumpReqIds ++ o.dumpReqIds }
  | .release r =>
    if s.delayed r = true ∧ ∀ w, (s.workers w).reported r ≠ 0
      then some { s with freed := Function.update s.freed r true } else none
  | .handlePreemptions w =>
    let k := s.workers w
    match k.pc, s.steps[k.next]? with
    | .idle, some o =>
      let k := if o.preemptedReqIds.isEmpty then k else k.flush o.preemptedReqIds
      some (s.setWorker w { k with pc := .forward })
    | _, _ => none
  | .saveKvLayer w layer ok =>
    let k := s.workers w
    match k.pc, s.steps[k.next]? with
    | .forward, some o => if cfg.layerwise then some (s.setWorker w (saveKvLayer cfg w o k layer ok)) else none
    | _, _ => none
  | .waitForSave w complete submitted =>
    let k := s.workers w
    match k.pc, s.steps[k.next]? with
    | .forward, some o => some (s.setWorker w { waitForSave cfg w o k complete submitted with pc := .saved })
    | _, _ => none
  | .noForward w =>
    let k := s.workers w
    match k.pc, s.steps[k.next]? with
    | .forward, some o => if o.requestMeta.isEmpty then some (s.setWorker w { k with pc := .saved }) else none
    | _, _ => none
  | .getFinished w =>
    let k := s.workers w
    match k.pc, s.steps[k.next]? with
    | .saved, some o => some (s.setWorker w { k.getFinished o.finishedReqIds with pc := .idle, next := k.next + 1 })
    | _, _ => none

def initial (cfg : Config) (R U : Type) : State cfg R U :=
  ⟨[], [], [], fun _ => false, fun _ => false, fun _ => false, fun _ => ⟨0, .idle, [], [], [], fun _ => 0⟩⟩

def sys (cfg : Config) (R U : Type) [DecidableEq R] : System (State cfg R U) (Label cfg R U) := ⟨(· = initial cfg R U), step⟩

/-- The engine schedules no request that has finished. -/
def Alive (s : State cfg R U) : Label cfg R U → Prop
  | .schedule requestMeta _ => ∀ d ∈ requestMeta, s.finished d.requestId = false
  | _ => True

instance (s : State cfg R U) : ∀ a, Decidable (Alive s a)
  | .schedule requestMeta _ => inferInstanceAs (Decidable (∀ d ∈ requestMeta, s.finished d.requestId = false))
  | .finish _ | .release _ | .handlePreemptions _ | .saveKvLayer .. | .waitForSave .. | .noForward _ | .getFinished _ =>
      isTrue trivial

end Model

end UnifiedCache.Connector.AsyncDump
