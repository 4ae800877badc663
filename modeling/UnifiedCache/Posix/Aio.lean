/-
  UnifiedCache.Posix.Aio — the AIO engine of the Posix store
  (ucm/store/posix/cc/io_engine_aio.h, block_operator.h, aio_impl.cc over
  ucm/store/detail/template/task_wrapper.h).

  Actors: callers of `Submit` and `Wait`, the open workers and commit workers of the block
  operator, the kernel, the completion thread, the garbage collector, and whoever
  force-completes a task (the deadline sweep, or `Cancel` after a timed out `Wait`). An open
  worker runs a unit's open callback, the completion thread or a canceller its I/O callback;
  their reads and writes of shared state are steps in the source's order. How completions reach
  the completion thread is `UnifiedCache.Posix.AioRing`; here a completed I/O's callback is
  called at some later time.

  Clocks are not modelled: any task may be force-completed once, at any time. The callbacks of
  the open tasks that `CancelQueued` purges may come after the latch is aborted, which the code
  does not do; nothing proved depends on it. The failure status and the metrics are left out.
-/

import UnifiedCache.Posix.Psync

namespace UnifiedCache.Posix

open UnifiedCache.Base UnifiedCache.Detail

inductive AioPhase where
  /-- In the open queue. -/
  | queued
  /-- With an open worker, in `open`. -/
  | opening
  /-- The open callback is called: with an error, or with a descriptor. -/
  | openError
  | opened (ino : Nat)
  /-- Past the look at the failure set. -/
  | passed (ino : Nat)
  | inflight (ino : Nat)
  /-- The I/O is over; its callback is still to be called. -/
  | completed (ino : Nat) (ok : Bool)
  | finished
  deriving DecidableEq, Repr

/-- The kernel may be reading or writing for the unit. -/
def AioPhase.running : AioPhase → Bool
  | .inflight _ => true
  | _ => false

/-- The unit is about to be submitted. -/
def AioPhase.submitting : AioPhase → Bool
  | .passed _ => true
  | _ => false

structure AioUnit where
  task : Nat
  type : TaskType
  shard : Shard
  phase : AioPhase
  /-- Its count went when the latch was aborted. -/
  lost : Bool
  /-- In flight when the latch was aborted. -/
  abandoned : Bool
  counted : Nat

/-- How far the force-completion of a task is. -/
inductive ForcePc where
  | notForced
  /-- Marked failed; its I/Os and queued opens are being cancelled. -/
  | cancelling
  | aborted
  deriving DecidableEq, Repr

/-- `BlockOperator::CommitTask`. -/
structure CommitTask where
  id : Nat
  success : Bool
  deriving DecidableEq

structure AioEngine where
  wrapper : TaskWrapper
  nUnit : Nat
  unit : Nat → AioUnit
  force : Nat → ForcePc
  commits : List CommitTask
  files : Files

namespace AioEngine

def init : AioEngine := ⟨.init, 0, fun _ => ⟨0, .load, ⟨0, 0⟩, .queued, false, false, 0⟩, fun _ => .notForced, [], .init⟩

variable (n : Nat) (s : AioEngine)

def setPhase (u : Nat) (phase : AioPhase) : AioEngine :=
  { s with unit := Function.update s.unit u { s.unit u with phase } }

/-- `w->Done()`, the last thing of a unit's callbacks. -/
def countDown (u : Nat) : AioEngine :=
  let x := s.unit u
  { s with
    wrapper := s.wrapper.done x.task
    unit := Function.update s.unit u
      { x with phase := .finished, counted := x.counted + if 0 < s.wrapper.counter x.task then 1 else 0 } }

def fail (u : Nat) : AioEngine := { s with wrapper := s.wrapper.fail (s.unit u).task }

/-- `if constexpr (dump) { if (last) { CommitBlock(id, …); } }`. -/
def commitBlock (u : Nat) (success : Bool) : AioEngine :=
  let x := s.unit u
  { s with commits := if x.type = .dump ∧ isLast n x.shard.index then s.commits ++ [⟨x.shard.owner, success⟩] else s.commits }

/-- `Submit`: `Dispatch` sets the waiter and queues an open task for each shard. -/
def submit (type : TaskType) (shards : List Shard) : AioEngine :=
  { s with
    wrapper := s.wrapper.submit shards.length
    nUnit := s.nUnit + shards.length
    unit := fun u =>
      if s.nUnit ≤ u ∧ u < s.nUnit + shards.length then
        ⟨s.wrapper.nTask, type, (shards[u - s.nUnit]?).getD ⟨0, 0⟩, .queued, false, false, 0⟩
      else s.unit u }

/-- `open` succeeds; a load opens the archived file. -/
def openOk (u : Nat) : Option AioEngine :=
  let x := s.unit u
  match x.type with
  | .dump =>
    some { s.setPhase u (.opened (s.files.openActivated x.shard.owner).2) with
      files := (s.files.openActivated x.shard.owner).1 }
  | .load => (s.files.archived x.shard.owner).map fun ino => s.setPhase u (.opened ino)

/-- `handleFailure`. -/
def handleFailure (u : Nat) : AioEngine := ((s.fail u).commitBlock n u false).countDown u

/-- The look at the failure set in `OnOpenCallback`. -/
def check (u ino : Nat) : AioEngine :=
  if s.wrapper.failureSet (s.unit u).task then (s.commitBlock n u false).countDown u else s.setPhase u (.passed ino)

/-- The I/O ends in the kernel. -/
def complete (u ino : Nat) (ok : Bool) : AioEngine :=
  let x := s.unit u
  { s.setPhase u (.completed ino ok) with
    files := if x.type = .dump ∧ ok then s.files.writeShard ino x.shard.index else s.files }

/-- `OnIoCallback`. -/
def onIoCallback (u : Nat) (ok : Bool) : AioEngine :=
  let s' := if ok then s else s.fail u
  (s'.commitBlock n u (!s'.wrapper.failureSet (s.unit u).task)).countDown u

/-- `w->Abort()` at the end of `ForceComplete`. -/
def abort (t : Nat) : AioEngine :=
  { s with
    wrapper := s.wrapper.abort t
    force := Function.update s.force t .aborted
    unit := fun u =>
      let x := s.unit u
      if x.task = t ∧ x.phase ≠ .finished then
        { x with lost := true, abandoned := x.abandoned || x.phase.running }
      else x }

end AioEngine

inductive AioEngineLabel where
  | submit (type : TaskType) (shards : List Shard)
  | wait (l : WaitLabel)
  | take (u : Nat)
  | openFile (u : Nat) (ok : Bool)
  | check (u : Nat)
  | submitIo (u : Nat) (ok : Bool)
  | complete (u : Nat) (ok : Bool)
  | callback (u : Nat)
  | commit (c : CommitTask) (renamed : Bool)
  /-- `ForceComplete` marks the task failed. -/
  | forceMark (t : Nat)
  /-- `io_cancel` takes an I/O back. -/
  | cancelIo (u : Nat)
  /-- `CancelQueued` purges an open task. -/
  | purge (u : Nat)
  | abort (t : Nat)
  | gc (b : Nat)

def aioEngineStep (n : Nat) (s : AioEngine) : AioEngineLabel → Option AioEngine
  | .submit type shards => some (s.submit type shards)
  | .wait l => (waitStep true s.wrapper l).map fun w => { s with wrapper := w }
  | .take u => if u < s.nUnit ∧ (s.unit u).phase = .queued then some (s.setPhase u .opening) else none
  | .openFile u ok =>
    if u < s.nUnit ∧ (s.unit u).phase = .opening then if ok then s.openOk u else some (s.setPhase u .openError) else none
  | .check u =>
    match (s.unit u).phase with
    | .openError => if u < s.nUnit then some (s.handleFailure n u) else none
    | .opened ino => if u < s.nUnit then some (s.check n u ino) else none
    | _ => none
  | .submitIo u ok =>
    match (s.unit u).phase with
    | .passed ino => if u < s.nUnit then some (if ok then s.setPhase u (.inflight ino) else s.handleFailure n u) else none
    | _ => none
  | .complete u ok =>
    match (s.unit u).phase with
    | .inflight ino => if u < s.nUnit then some (s.complete u ino ok) else none
    | _ => none
  | .callback u =>
    match (s.unit u).phase with
    | .completed _ ok => if u < s.nUnit then some (s.onIoCallback n u ok) else none
    | _ => none
  | .commit c renamed =>
    if c ∈ s.commits then some { s with commits := s.commits.erase c, files := s.files.commitFile c.id c.success renamed }
    else none
  | .forceMark t =>
    if t < s.wrapper.nTask ∧ s.force t = .notForced then
      some { s with wrapper := s.wrapper.fail t, force := Function.update s.force t .cancelling }
    else none
  | .cancelIo u =>
    match (s.unit u).phase with
    | .inflight ino =>
      if u < s.nUnit ∧ s.force (s.unit u).task = .cancelling then some (s.setPhase u (.completed ino false)) else none
    | _ => none
  | .purge u =>
    if u < s.nUnit ∧ (s.unit u).phase = .queued ∧ s.force (s.unit u).task = .cancelling then some (s.setPhase u .openError)
    else none
  | .abort t => if s.force t = .cancelling then some (s.abort t) else none
  | .gc b => some { s with files := s.files.removeFile b }

def aioEngine (n : Nat) : System AioEngine AioEngineLabel where
  init := (· = .init)
  step := aioEngineStep n

end UnifiedCache.Posix
