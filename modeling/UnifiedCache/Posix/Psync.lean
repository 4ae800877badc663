/-
  UnifiedCache.Posix.Psync — the psync engine of the Posix store
  (ucm/store/posix/cc/io_engine_psync.h, trans_queue.cc over
  ucm/shared/infra/thread/thread_pool.h and ucm/store/detail/template/task_wrapper.h).

  Actors: callers of `Submit` and `Wait`, any number of pool workers, each pool's timeout
  monitor, and the garbage collector that removes archived files. A worker is the unit it
  holds; its steps are the reads and writes of shared state and the system calls of
  `LoadWorker` and `DumpWorker`, in their order. A unit's place in the pool's lists (`taskQ_`,
  `taskPending_`, the snapshot of a traversal) is one phase, `queued`: which worker takes which
  unit, and which units a traversal still finds, is left open. System calls succeed or fail.
  The task's failure status and the metrics are left out.
-/

import UnifiedCache.Base.Transition
import UnifiedCache.Detail.Accounting
import UnifiedCache.Posix.BlockFiles

namespace UnifiedCache.Posix

open UnifiedCache.Base UnifiedCache.Detail

/-- `TransTask::Type`. -/
inductive TaskType where
  | load
  | dump
  deriving DecidableEq, Repr

structure Shard where
  owner : Nat
  index : Nat
  deriving DecidableEq, Repr

/-- How far a unit has got. -/
inductive PsyncPhase where
  | queued
  /-- In a worker's hands. -/
  | taken
  /-- Past the look at the failure set, in `S2H` or `H2S`. -/
  | passed
  | opened (ino : Nat)
  /-- `S2H` or `H2S` has returned, without an open file or after its transfer. -/
  | openFailed
  | transferred (ino : Nat) (ok : Bool)
  /-- Past the commit. -/
  | counting (ok : Bool)
  /-- The worker has called `Done` and has not let go of the unit. -/
  | done
  | released
  /-- Taken out of the queue by a traversal. -/
  | cancelled
  deriving DecidableEq, Repr

structure PsyncUnit where
  task : Nat
  type : TaskType
  shard : Shard
  phase : PsyncPhase
  /-- Timed out in a worker's hands. -/
  abandoned : Bool
  /-- How often it has counted its waiter down. -/
  counted : Nat

/-- The unit is or was with a worker. -/
def PsyncPhase.held : PsyncPhase → Bool
  | .queued | .cancelled => false
  | _ => true

/-- The unit has called `Done` in its turn. -/
def PsyncPhase.over : PsyncPhase → Bool
  | .done | .released | .cancelled => true
  | _ => false

/-- A read or write of the unit may be running. -/
def PsyncPhase.running : PsyncPhase → Bool
  | .passed | .opened _ => true
  | _ => false

structure PsyncState where
  wrapper : TaskWrapper
  nUnit : Nat
  unit : Nat → PsyncUnit
  files : Files

namespace PsyncState

def init : PsyncState := ⟨.init, 0, fun _ => ⟨0, .load, ⟨0, 0⟩, .queued, false, 0⟩, .init⟩

variable (s : PsyncState)

def setUnit (u : Nat) (x : PsyncUnit) : PsyncState := { s with unit := Function.update s.unit u x }

/-- `waiter->Done()`, with the unit as it is afterwards. -/
def countDown (u : Nat) (x : PsyncUnit) : PsyncState :=
  { s with
    wrapper := s.wrapper.done x.task
    unit := Function.update s.unit u { x with counted := x.counted + if 0 < s.wrapper.counter x.task then 1 else 0 } }

/-- `Submit`: `Push` sets the waiter and queues a unit for each shard. -/
def submit (type : TaskType) (shards : List Shard) : PsyncState :=
  { s with
    wrapper := s.wrapper.submit shards.length
    nUnit := s.nUnit + shards.length
    unit := fun u =>
      if s.nUnit ≤ u ∧ u < s.nUnit + shards.length then
        ⟨s.wrapper.nTask, type, (shards[u - s.nUnit]?).getD ⟨0, 0⟩, .queued, false, 0⟩
      else s.unit u }

/-- The look at the failure set: the unit of a failed task is only counted down. -/
def check (u : Nat) : PsyncState :=
  let x := s.unit u
  if s.wrapper.failureSet x.task then s.countDown u { x with phase := .done } else s.setUnit u { x with phase := .passed }

/-- `file.Open` succeeds; a load opens the archived file. -/
def openOk (u : Nat) : Option PsyncState :=
  let x := s.unit u
  match x.type with
  | .dump =>
    some { s.setUnit u { x with phase := .opened (s.files.openActivated x.shard.owner).2 } with
      files := (s.files.openActivated x.shard.owner).1 }
  | .load => (s.files.archived x.shard.owner).map fun ino => s.setUnit u { x with phase := .opened ino }

def openFailed (u : Nat) : PsyncState := s.setUnit u { s.unit u with phase := .openFailed }

/-- The reads or writes of the shard's addresses. -/
def transfer (u ino : Nat) (ok : Bool) : PsyncState :=
  let x := s.unit u
  { s.setUnit u { x with phase := .transferred ino ok } with
    files := if x.type = .dump ∧ ok then s.files.writeShard ino x.shard.index else s.files }

/-- `if (ios.shard.index + 1 == nShardPerBlock_) { layout_->CommitFile(…, s.Success()); }`. -/
def commit (n u : Nat) (ok renamed : Bool) : PsyncState :=
  let x := s.unit u
  { s.setUnit u { x with phase := .counting ok } with
    files := if x.type = .dump ∧ isLast n x.shard.index then s.files.commitFile x.shard.owner ok renamed else s.files }

/-- The end of a worker's function. -/
def finish (u : Nat) (ok : Bool) : PsyncState :=
  let x := s.unit u
  { s with wrapper := s.wrapper.failIf (!ok) x.task }.countDown u { x with phase := .done }

/-- `OnIoUnitTimeout`. -/
def onIoUnitTimeout (u : Nat) (x : PsyncUnit) : PsyncState := { s with wrapper := s.wrapper.fail x.task }.countDown u x

end PsyncState

inductive PsyncLabel where
  | submit (type : TaskType) (shards : List Shard)
  | wait (l : WaitLabel)
  | take (u : Nat)
  | check (u : Nat)
  | openFile (u : Nat) (ok : Bool)
  | transfer (u : Nat) (ok : Bool)
  | commit (u : Nat) (renamed : Bool)
  | finish (u : Nat)
  | release (u : Nat)
  /-- The monitor times out a worker's unit; since it locked the unit the worker may have gone on. -/
  | monitor (u : Nat)
  /-- The traversal of `Cancel(t)` takes a queued unit: one of `t`, or one whose own waiter has
      timed out. -/
  | cancel (t u : Nat)
  | gc (b : Nat)

def psyncStep (n : Nat) (s : PsyncState) : PsyncLabel → Option PsyncState
  | .submit type shards => some (s.submit type shards)
  | .wait l => (waitStep false s.wrapper l).map fun w => { s with wrapper := w }
  | .take u =>
    if u < s.nUnit ∧ (s.unit u).phase = .queued then some (s.setUnit u { s.unit u with phase := .taken }) else none
  | .check u => if u < s.nUnit ∧ (s.unit u).phase = .taken then some (s.check u) else none
  | .openFile u ok =>
    if u < s.nUnit ∧ (s.unit u).phase = .passed then if ok then s.openOk u else some (s.openFailed u) else none
  | .transfer u ok =>
    match (s.unit u).phase with
    | .opened ino => if u < s.nUnit then some (s.transfer u ino ok) else none
    | _ => none
  | .commit u renamed =>
    match (s.unit u).phase with
    | .openFailed => if u < s.nUnit then some (s.commit n u false renamed) else none
    | .transferred _ ok => if u < s.nUnit then some (s.commit n u ok renamed) else none
    | _ => none
  | .finish u =>
    match (s.unit u).phase with
    | .counting ok => if u < s.nUnit then some (s.finish u ok) else none
    | _ => none
  | .release u =>
    if u < s.nUnit ∧ (s.unit u).phase = .done then some (s.setUnit u { s.unit u with phase := .released }) else none
  | .monitor u =>
    if u < s.nUnit ∧ (s.unit u).phase.held = true ∧ (s.unit u).abandoned = false then
      some (s.onIoUnitTimeout u { s.unit u with abandoned := true })
    else none
  | .cancel t u =>
    if u < s.nUnit ∧ (s.unit u).phase = .queued ∧ s.wrapper.wait t = .cancelling then
      some (s.onIoUnitTimeout u { s.unit u with phase := .cancelled })
    else none
  | .gc b => some { s with files := s.files.removeFile b }

def psync (n : Nat) : System PsyncState PsyncLabel where
  init := (· = .init)
  step := psyncStep n

end UnifiedCache.Posix
