/-
  UnifiedCache.Cache.Store — the cache store: any number of processes, each with its load queue
  and dump queue, over one host buffer (ucm/store/cache/cc/{trans_manager.h,load_queue.cc,
  dump_queue.cc} over ucm/store/detail/template/task_wrapper.h).

  Actors: callers of `Submit` and `Wait`; in each process the load dispatcher, the transfer
  thread, the dump dispatcher and the dumper; the backend and the copy engines, whose operations
  end by themselves. A step is one read or write of what they share, in the source's order.

  A handle of a buffer node, with the `ShardTask` or place in a `DumpCtx` that carries it, is an
  item, numbered in the order of the `Get`s. The transfer thread is the item it holds
  (`Stage.transferring`), a vector or holder is the items of a stage, and a ring queue hands out
  its items by the ticket of their `Push`. A handle that goes out of scope is dropped: it is
  released some time later (`release`), by itself.

  Left open: when operations end and whether they succeed; a failed copy may have issued a part
  (`part`). The backend's `Wait` succeeds when the operation is over; it may fail before that, as a
  wait that times out does, and the operation goes on. Not modelled: the queues' capacities (`full`
  is the outcome of `TryPush`), the failure statuses, the metrics, the stop of the threads.
  `BackendDumpStage` skips the wait of a context whose handle is not above the last; the backend's
  handles increase, so that it waits for each.
-/

import UnifiedCache.Cache.Get
import UnifiedCache.Detail.TaskWrapper

namespace UnifiedCache.Cache

open UnifiedCache.Base UnifiedCache.Detail

/-- An operation of the backend. -/
inductive Op where
  | none
  | running
  | ended
  deriving DecidableEq, Repr

/-- A `TransBuffer::Handle`. -/
inductive Hold where
  | held
  /-- Out of scope, and yet to be released. -/
  | dropping
  | released
  deriving DecidableEq, Repr

inductive Stage where
  /-- With the load dispatcher, right after its `Get`. -/
  | got
  /-- In `readyTasks` or `pendingTasks`. -/
  | collected
  /-- In `running_`. -/
  | queued
  /-- With the transfer thread, in `WaitBackendTaskReady`. -/
  | waiting
  /-- There, having read LOADING. -/
  | spinning
  /-- Past it. -/
  | ready
  /-- A launch boundary, in `FlushSdmaDirectTaskBatch`. -/
  | flushing
  /-- About to synchronize the stream. -/
  | syncing
  /-- A failure is about to be recorded. -/
  | failing
  /-- About to call `Done`, if it has the waiter, and return. -/
  | counting
  /-- In `holder_`. -/
  | holder
  /-- With the dump dispatcher, right after its `Get`. -/
  | dumpGot
  /-- In `bufferHandles`, before and after the stream is synchronized. -/
  | copied
  | synced
  /-- In `dumping_`. -/
  | dumping
  /-- Done with. -/
  | ended
  deriving DecidableEq, Repr

/-- The transfer thread has the item in its hands. -/
def Stage.transferring : Stage → Bool
  | .waiting | .spinning | .ready | .flushing | .syncing | .failing | .counting => true
  | _ => false

structure Item where
  proc : Nat
  task : Nat
  /-- The shard's index in the task. -/
  shard : Nat
  /-- The handle's node. -/
  pos : Nat
  owner : Bool
  isLoad : Bool
  stage : Stage
  handle : Hold
  /-- In `readyTasks`. -/
  ready : Bool
  waiter : Bool
  launchBoundary : Bool
  ticket : Nat
  /-- The backend's operation on the node's data. -/
  backend : Op
  /-- A copy between the node's data and the device is issued and not synchronized. -/
  copying : Bool
  deriving DecidableEq, Repr

namespace Item

/-- The handle goes out of scope. -/
def letGo (x : Item) : Item := { x with handle := if x.handle = .held then .dropping else x.handle }

/-- The item is done with. -/
def drop (x : Item) : Item := { x.letGo with stage := .ended }

/-- A new handle. -/
def start (p t j i : Nat) (owner isLoad : Bool) : Item :=
  ⟨p, t, j, i, owner, isLoad, if isLoad then .got else .dumpGot, .held, false, false, false, 0, .none, false⟩

end Item

/-- `TransTask`, with the shards of its `desc`. -/
structure TransTask (Block : Type) where
  isLoad : Bool
  desc : List (Block × Nat)

inductive DispatchPc where
  | idle
  /-- About to `Get` shard `i` of task `t`. -/
  | loop (t i : Nat)
  /-- With the handle, item `u`. -/
  | got (t i u : Nat)
  /-- A failure is about to be recorded. -/
  | failing (t : Nat)
  /-- About to call `Done` and return. -/
  | done (t : Nat)
  /-- Pushing `readyTasks` and `pendingTasks`. -/
  | pushing (t : Nat)
  deriving DecidableEq, Repr

inductive DumpPc where
  | idle
  | loop (t i : Nat)
  | got (t i u : Nat)
  /-- About to synchronize the stream. -/
  | sync (t : Nat)
  /-- Marking the handles, about to submit to the backend. -/
  | mark (t : Nat)
  | failed (t : Nat)
  | done (t : Nat)
  deriving DecidableEq, Repr

structure Proc (Block : Type) where
  wrapper : TaskWrapper
  task : Nat → TransTask Block
  /-- The load queue's `waiting_`. -/
  waiting : List Nat
  dispatcher : DispatchPc
  /-- How many items have been pushed to `running_`. -/
  tickets : Nat
  /-- The dump queue's `waiting_` and `dumping_`. -/
  dumpWaiting : List Nat
  dumper : DumpPc
  dumping : List Nat

structure Store (Block : Type) where
  buf : Buf Block
  nItem : Nat
  item : Nat → Item
  proc : Nat → Proc Block

/-- `UseSdmaDirectTaskLaunch()` of each process, and the buffer's parameters. -/
structure Config (Block : Type) extends Params Block where
  taskLaunch : Nat → Bool

variable {Block : Type}

namespace Store

variable (s : Store Block)

def setProc (p : Nat) (pr : Proc Block) : Store Block := { s with proc := Function.update s.proc p pr }

def setItem (u : Nat) (x : Item) : Store Block := { s with item := Function.update s.item u x }

def addItem (x : Item) : Store Block := { s with nItem := s.nItem + 1, item := Function.update s.item s.nItem x }

/-- What happens to all items at once. -/
def each (f : Item → Item) : Store Block := { s with item := fun u => f (s.item u) }

def setDispatcher (p : Nat) (pc : DispatchPc) : Store Block := s.setProc p { s.proc p with dispatcher := pc }

def setDumper (p : Nat) (pc : DumpPc) : Store Block := s.setProc p { s.proc p with dumper := pc }

def setWrapper (p : Nat) (w : TaskWrapper) : Store Block := s.setProc p { s.proc p with wrapper := w }

/-- The items of process `p` at a stage are dropped. -/
def dropAt (p : Nat) (at_ : Stage → Bool) : Store Block := s.each fun x => if x.proc = p ∧ at_ x.stage then x.drop else x

/-- An item of process `p` at a stage. -/
def At (p : Nat) (stage : Stage) (u : Nat) : Prop := u < s.nItem ∧ (s.item u).proc = p ∧ (s.item u).stage = stage

instance (p : Nat) (stage : Stage) (u : Nat) : Decidable (s.At p stage u) := by unfold At; infer_instance

end Store

/-! ## The load dispatcher -/

inductive DispatchLabel where
  /-- `waiting_` hands out a task. -/
  | start
  /-- `Get` returns node `i`. -/
  | get (i : Nat)
  /-- Submit to the backend, if the handle's owner has to, and queue or collect. -/
  | submit (ok : Bool)
  | finish
  | push (u : Nat)
  | fail
  | done
  deriving DecidableEq

namespace Store

variable (C : Config Block) (s : Store Block) (p : Nat)

/-- Queue the item in shard-launch mode, collect it in task-launch mode. -/
def enqueue (t j u : Nat) (x : Item) : Store Block :=
  let pr := s.proc p
  if C.taskLaunch p then
    (s.setItem u { x with stage := .collected, ready := s.buf.ready x.pos }).setDispatcher p (.loop t (j + 1))
  else
    (s.setItem u { x with stage := .queued, ticket := pr.tickets, waiter := j + 1 = (pr.task t).desc.length }).setProc p
      { pr with tickets := pr.tickets + 1, dispatcher := .loop t (j + 1) }

/-- `backend_->Load`, where it is called. -/
def submitLoad (t j u : Nat) (ok : Bool) : Store Block :=
  let x := s.item u
  if x.owner && !s.buf.ready x.pos then
    if ok then s.enqueue C p t j u { x with backend := .running }
    else { s with buf := s.buf.markFailed x.pos statusError }.setDispatcher p (.failing t)
  else s.enqueue C p t j u x

/-- `readyTasks` are pushed first, each vector in its order. -/
def pushedBefore (u v : Nat) : Prop :=
  (s.item u).ready = true ∧ (s.item v).ready = false ∨ (s.item u).ready = (s.item v).ready ∧ u ≤ v

instance (u v : Nat) : Decidable (s.pushedBefore u v) := by unfold pushedBefore; infer_instance

/-- `running_.Push`; the last of each vector is a boundary, the last of all has the waiter. -/
def pushItem (u : Nat) : Store Block :=
  let pr := s.proc p
  (s.setItem u { s.item u with
      stage := .queued
      ticket := pr.tickets
      launchBoundary := decide (∀ v, v < s.nItem → s.At p .collected v → (s.item v).ready = (s.item u).ready → v = u)
      waiter := decide (∀ v, v < s.nItem → s.At p .collected v → v = u) }).setProc p { pr with tickets := pr.tickets + 1 }

end Store

def dispatchStep [DecidableEq Block] (C : Config Block) (s : Store Block) (p : Nat) : DispatchLabel → Option (Store Block)
  | .start =>
    match (s.proc p).dispatcher, (s.proc p).waiting with
    | .idle, t :: rest =>
      some (s.setProc p { s.proc p with
        waiting := rest
        dispatcher := if (s.proc p).wrapper.failureSet t then .done t else .loop t 0 })
    | _, _ => none
  | .get i =>
    match (s.proc p).dispatcher with
    | .loop t j =>
      match ((s.proc p).task t).desc[j]? with
      | some (blockId, shardIdx) =>
        (s.buf.get C.toParams ⟨blockId, shardIdx, true, true⟩ i).map fun (b, owner) =>
          ({ s with buf := b }.addItem (.start p t j i owner true)).setDispatcher p (.got t j s.nItem)
      | none => none
    | _ => none
  | .submit ok =>
    match (s.proc p).dispatcher with
    | .got t j u => some (s.submitLoad C p t j u ok)
    | _ => none
  | .finish =>
    match (s.proc p).dispatcher with
    | .loop t j =>
      if j = ((s.proc p).task t).desc.length then some (s.setDispatcher p (if C.taskLaunch p then .pushing t else .idle))
      else none
    | .pushing _ => if ∀ v, v < s.nItem → ¬ s.At p .collected v then some (s.setDispatcher p .idle) else none
    | _ => none
  | .push u =>
    match (s.proc p).dispatcher with
    | .pushing _ =>
      if s.At p .collected u ∧ ∀ v, v < s.nItem → s.At p .collected v → s.pushedBefore u v then some (s.pushItem p u) else none
    | _ => none
  | .fail =>
    match (s.proc p).dispatcher with
    | .failing t => some ((s.setWrapper p ((s.proc p).wrapper.fail t)).setDispatcher p (.done t))
    | _ => none
  | .done =>
    match (s.proc p).dispatcher with
    | .done t =>
      -- what the function still holds goes out of scope
      some (((s.setWrapper p ((s.proc p).wrapper.done t)).setDispatcher p .idle).dropAt p fun st => st = .got || st = .collected)
    | _ => none

/-! ## The transfer thread -/

inductive TransferLabel where
  /-- `running_` hands out an item. -/
  | take
  /-- The backend's `Wait` returns. -/
  | wait (ok : Bool)
  /-- `GetState`. -/
  | look
  /-- The look at the failure set after LOADING. -/
  | check
  /-- Task-launch mode: move to `holder_`. -/
  | hold
  | copy (ok part : Bool)
  | flush (ok part : Bool)
  | sync (ok : Bool)
  | fail
  | done
  deriving DecidableEq

namespace Store

variable (C : Config Block) (s : Store Block) (u : Nat)

def setStage (stage : Stage) : Store Block := s.setItem u { s.item u with stage }

/-- `failureSet_->Contains`. -/
def failed : Bool := (s.proc (s.item u).proc).wrapper.failureSet (s.item u).task

/-- `holder_.clear()`. -/
def clearHolder : Store Block := s.dropAt (s.item u).proc (· = .holder)

/-- The item is the next that `running_` hands out, to an idle transfer thread. -/
def Next : Prop :=
  s.At (s.item u).proc .queued u ∧ (∀ v, v < s.nItem → s.At (s.item u).proc .queued v → (s.item u).ticket ≤ (s.item v).ticket) ∧
    ∀ v, v < s.nItem → (s.item v).proc = (s.item u).proc → (s.item v).stage.transferring = false

instance : Decidable (s.Next u) := by unfold Next; infer_instance

def take : Store Block :=
  if s.failed u then
    if (s.item u).waiter then (s.clearHolder u).setStage u .counting else s.setItem u (s.item u).drop
  else s.setStage u .waiting

/-- `WaitBackendTaskReady` for a handle with a backend task. -/
def waitBackend (ok : Bool) : Store Block :=
  if ok then { s with buf := s.buf.markReady (s.item u).pos }.setStage u .ready
  else { s with buf := s.buf.markFailed (s.item u).pos statusError }.setStage u .failing

/-- And for one without. -/
def lookState : Store Block :=
  s.setStage u (match s.buf.getState (s.item u).pos with
    | .ready => .ready
    | .failed => .failing
    | .loading => .spinning)

/-- `HostToDeviceAsync` of one shard. -/
def copyShard (ok part : Bool) : Store Block :=
  let x := s.item u
  s.setItem u { x with
    copying := ok || part
    stage := if ok then if x.waiter then .syncing else .holder else .failing }

/-- `HostToDeviceTaskAsync` of the holder, which has the boundary too. -/
def flushHolder (ok part : Bool) : Store Block :=
  let s' := s.each fun x =>
    if x.proc = (s.item u).proc ∧ (x.stage = .holder ∨ x.stage = .flushing) then { x with copying := ok || part } else x
  if ok then s'.setStage u .syncing else (s'.clearHolder u).setItem u { (s'.item u).letGo with stage := .failing }

/-- `stream.Synchronize()`, and `holder_.clear()`. -/
def syncStream (ok : Bool) : Store Block :=
  let p := (s.item u).proc
  let s' := if ok then s.each fun x => if x.proc = p ∧ x.isLoad then { x with copying := false } else x else s
  let x := s'.item u
  (s'.clearHolder u).setItem u { (if C.taskLaunch p then x.letGo else x) with stage := if ok then .counting else .failing }

def failTask : Store Block :=
  let x := s.item u
  let s' := if C.taskLaunch x.proc then s.clearHolder u else s
  (s'.setWrapper x.proc ((s.proc x.proc).wrapper.fail x.task)).setStage u .counting

def countDown : Store Block :=
  let x := s.item u
  (if x.waiter then s.setWrapper x.proc ((s.proc x.proc).wrapper.done x.task) else s).setItem u x.drop

end Store

/-- A step of the transfer thread that has item `u`, or takes it. -/
def transferStep (C : Config Block) (s : Store Block) (u : Nat) (l : TransferLabel) : Option (Store Block) :=
  if u < s.nItem then
    match l, (s.item u).stage with
    | .take, .queued => if s.Next u then some (s.take u) else none
    | .wait ok, .waiting =>
      if (s.item u).backend = .ended ∨ ok = false ∧ (s.item u).backend = .running then some (s.waitBackend u ok) else none
    | .look, .waiting => if (s.item u).backend = .none then some (s.lookState u) else none
    | .check, .spinning => some (s.setStage u (if s.failed u then .failing else .waiting))
    | .hold, .ready =>
      if C.taskLaunch (s.item u).proc then some (s.setStage u (if (s.item u).launchBoundary then .flushing else .holder))
      else none
    | .copy ok part, .ready => if C.taskLaunch (s.item u).proc then none else some (s.copyShard u ok part)
    | .flush ok part, .flushing => some (s.flushHolder u ok part)
    | .sync ok, .syncing => some (s.syncStream C u ok)
    | .fail, .failing => some (s.failTask C u)
    | .done, .counting => some (s.countDown u)
    | _, _ => none
  else none

/-! ## The dump queue -/

inductive DumpLabel where
  /-- `waiting_` hands out a task; the outcome of `WaitEvent`. -/
  | start (ok : Bool)
  | get (i : Nat)
  /-- Skip the shard, collect it, or copy and collect it. -/
  | take (ok part : Bool)
  | finish
  | sync (ok : Bool)
  | mark (u : Nat)
  | submit (ok : Bool)
  | fail
  | done
  /-- The dumper's wait for the first of `dumping_` returns. -/
  | waited (ok : Bool)
  deriving DecidableEq

namespace Store

variable (s : Store Block) (p : Nat)

/-- The handles of `DumpOneTask` when it fails. -/
def dropDump : Store Block := s.dropAt p fun st => st = .dumpGot || st = .copied || st = .synced

def takeDump (t j u : Nat) (ok part : Bool) : Store Block :=
  let x := s.item u
  if !x.owner then (s.setItem u x.drop).setDumper p (.loop t (j + 1))
  else if s.buf.ready x.pos then (s.setItem u { x with stage := .copied }).setDumper p (.loop t (j + 1))
  else if ok then (s.setItem u { x with stage := .copied, copying := true }).setDumper p (.loop t (j + 1))
  else ((s.setItem u { x with copying := part }).dropDump p).setDumper p (.failed t)

def syncDump (t : Nat) (ok : Bool) : Store Block :=
  if ok then
    (s.each fun x =>
      if x.proc = p ∧ x.isLoad = false then { x with copying := false, stage := if x.stage = .copied then .synced else x.stage }
      else x).setDumper p (.mark t)
  else (s.dropDump p).setDumper p (.failed t)

/-- `backend_->Dump`, and `dumping_.Push`. -/
def submitDump (t : Nat) (ok : Bool) : Store Block :=
  if ok then
    (s.each fun x => if x.proc = p ∧ x.stage = .synced then { x with stage := .dumping, backend := .running } else x).setProc p
      { s.proc p with dumping := (s.proc p).dumping ++ [t], dumper := .done t }
  else (s.dropDump p).setDumper p (.failed t)

/-- The items of the context of task `t` in `dumping_`. -/
def InContext (t u : Nat) : Prop := s.At p .dumping u ∧ (s.item u).task = t

instance (t u : Nat) : Decidable (s.InContext p t u) := by unfold InContext; infer_instance

end Store

def dumpStep [DecidableEq Block] (C : Config Block) (s : Store Block) (p : Nat) : DumpLabel → Option (Store Block)
  | .start ok =>
    match (s.proc p).dumper, (s.proc p).dumpWaiting with
    | .idle, t :: rest =>
      some (s.setProc p { s.proc p with
        dumpWaiting := rest
        dumper := if (s.proc p).wrapper.failureSet t then .done t else if ok then .loop t 0 else .failed t })
    | _, _ => none
  | .get i =>
    match (s.proc p).dumper with
    | .loop t j =>
      match ((s.proc p).task t).desc[j]? with
      | some (blockId, shardIdx) =>
        (s.buf.get C.toParams ⟨blockId, shardIdx, false, false⟩ i).map fun (b, owner) =>
          ({ s with buf := b }.addItem (.start p t j i owner false)).setDumper p (.got t j s.nItem)
      | none => none
    | _ => none
  | .take ok part =>
    match (s.proc p).dumper with
    | .got t j u => some (s.takeDump p t j u ok part)
    | _ => none
  | .finish =>
    match (s.proc p).dumper with
    | .loop t j =>
      if j = ((s.proc p).task t).desc.length then
        some (s.setDumper p (if ∃ u, u < s.nItem ∧ s.At p .copied u then .sync t else .done t))
      else none
    | _ => none
  | .sync ok =>
    match (s.proc p).dumper with
    | .sync t => some (s.syncDump p t ok)
    | _ => none
  | .mark u =>
    match (s.proc p).dumper with
    | .mark _ => if s.At p .synced u then some { s with buf := s.buf.markReady (s.item u).pos } else none
    | _ => none
  | .submit ok =>
    match (s.proc p).dumper with
    -- each handle has been marked
    | .mark t =>
      if ∀ u, u < s.nItem → s.At p .synced u → s.buf.getState (s.item u).pos ≠ .loading then some (s.submitDump p t ok) else none
    | _ => none
  | .fail =>
    match (s.proc p).dumper with
    | .failed t => some ((s.setWrapper p ((s.proc p).wrapper.fail t)).setDumper p (.done t))
    | _ => none
  | .done =>
    match (s.proc p).dumper with
    | .done t => some ((s.setWrapper p ((s.proc p).wrapper.done t)).setDumper p .idle)
    | _ => none
  | .waited ok =>
    match (s.proc p).dumping with
    | t :: rest =>
      if ok = true → ∀ u, u < s.nItem → s.InContext p t u → (s.item u).backend = .ended then
        some ((s.each fun x => if x.proc = p ∧ x.stage = .dumping ∧ x.task = t then x.drop else x).setProc p
          { s.proc p with dumping := rest })
      else none
    | [] => none

/-! ## The store -/

namespace Store

variable (s : Store Block) (p : Nat)

/-- `TaskWrapper::Submit` and `Dispatch`; `full`: `TryPush` fails. -/
def submit (isLoad : Bool) (desc : List (Block × Nat)) (full : Bool) : Store Block :=
  let pr := s.proc p
  let t := pr.wrapper.nTask
  let w := pr.wrapper.submit 1
  s.setProc p { pr with
    task := Function.update pr.task t ⟨isLoad, desc⟩
    wrapper := if full then (w.fail t).done t else w
    waiting := if isLoad && !full then pr.waiting ++ [t] else pr.waiting
    dumpWaiting := if !isLoad && !full then pr.dumpWaiting ++ [t] else pr.dumpWaiting }

/-- `Release`. -/
def release (u : Nat) : Store Block :=
  { s with buf := s.buf.release (s.item u).pos }.setItem u { s.item u with handle := .released }

end Store

inductive StoreLabel (Block : Type) where
  | submit (p : Nat) (isLoad : Bool) (desc : List (Block × Nat)) (full : Bool)
  | wait (p : Nat) (l : WaitLabel)
  | dispatch (p : Nat) (l : DispatchLabel)
  | transfer (u : Nat) (l : TransferLabel)
  | dump (p : Nat) (l : DumpLabel)
  /-- The backend operation of a load item ends. -/
  | loadOver (u : Nat)
  /-- The backend operation of a dump context ends. -/
  | dumpOver (p t : Nat)
  | release (u : Nat)

def storeStep [DecidableEq Block] (C : Config Block) (s : Store Block) : StoreLabel Block → Option (Store Block)
  | .submit p isLoad desc full => some (s.submit p isLoad desc full)
  | .wait p l => (waitStep false (s.proc p).wrapper l).map fun w => s.setWrapper p w
  | .dispatch p l => dispatchStep C s p l
  | .transfer u l => transferStep C s u l
  | .dump p l => dumpStep C s p l
  | .loadOver u =>
    if u < s.nItem ∧ (s.item u).isLoad = true ∧ (s.item u).backend = .running then
      some (s.setItem u { s.item u with backend := .ended })
    else none
  | .dumpOver p t =>
    some (s.each fun x => if x.proc = p ∧ x.task = t ∧ x.isLoad = false ∧
      x.backend = .running then { x with backend := .ended } else x)
  | .release u => if u < s.nItem ∧ (s.item u).handle = .dropping then some (s.release u) else none

/-- A new buffer, and processes that have done nothing. -/
structure Store.IsInit (s : Store Block) : Prop where
  buf : s.buf.IsInit
  nItem : s.nItem = 0
  wrapper : ∀ p, (s.proc p).wrapper = .init
  waiting : ∀ p, (s.proc p).waiting = []
  dispatcher : ∀ p, (s.proc p).dispatcher = .idle
  tickets : ∀ p, (s.proc p).tickets = 0
  dumpWaiting : ∀ p, (s.proc p).dumpWaiting = []
  dumper : ∀ p, (s.proc p).dumper = .idle
  dumping : ∀ p, (s.proc p).dumping = []

def cacheStore [DecidableEq Block] (C : Config Block) : System (Store Block) (StoreLabel Block) where
  init := Store.IsInit
  step := storeStep C

/-- One node, one process in shard-launch mode. -/
def oneNode : Config Nat where
  blockIdHasher := fun _ => 0
  shardHasher := fun _ => 0
  nNode := 1
  reservedNumber := 0
  bypassHitOnLoad := false
  taskLaunch := fun _ => false

/-- Two nodes, shard-launch mode. -/
def twoNodeStore : Config Nat := { twoNodes with taskLaunch := fun _ => false }

def freshStore : Store Nat where
  buf := freshNodes.buf
  nItem := 0
  item := fun _ => .start 0 0 0 0 false true
  proc := fun _ => ⟨.init, fun _ => ⟨true, []⟩, [], .idle, 0, [], .idle, []⟩

theorem freshStore_init : freshStore.IsInit :=
  ⟨freshNodes_init.buf, rfl, fun _ => rfl, fun _ => rfl, fun _ => rfl, fun _ => rfl, fun _ => rfl, fun _ => rfl, fun _ => rfl⟩

/-- A load of one shard, up to the backend. -/
def loadOne : List (StoreLabel Nat) :=
  [.submit 0 true [(7, 0)] false, .wait 0 (.call 0), .dispatch 0 .start, .dispatch 0 (.get 0), .dispatch 0 (.submit true),
    .dispatch 0 .finish]

end UnifiedCache.Cache
