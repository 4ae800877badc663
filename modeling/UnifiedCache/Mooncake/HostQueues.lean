/-
  UnifiedCache.Mooncake.HostQueues — the load and dump queues of the Mooncake store over its pool of
  host buffers (ucm/store/mooncakestore/cc/{load_queue,dump_queue,trans_manager}.cc,
  host_buffer_pool.h, copy_stream.h).

  Actors: callers of `Submit` and `Wait`; the dispatcher and the transfer thread of the load queue;
  the dispatcher and the backend stage of the dump queue; the remote store, the backend and the
  streams.

  A buffer belongs to whoever has its handle. `running_` is taken in order: the jobs below `head`
  have been taken. The other rings are taken in any order. A load of the backend moves any bytes of
  the shard in any order, and succeeds only with all of them; the backend's `Wait` succeeds when the
  operation has, and may fail under it, as a wait that times out does. A copy of a stream moves any
  bytes until the stream is synchronised; where one fails to be issued, some of its tensors may have
  been (`left`). A synchronisation that succeeds ends the copies of its stream, one that fails ends
  none. The backend numbers its tasks upwards, so that the dump queue's backend stage waits for each
  of them.

  A remote get that reports success has brought the shard's bytes. This is the path without
  `ShareLoadQueue`; the store is not destroyed.
-/

import UnifiedCache.Base.Tally
import UnifiedCache.Detail.TaskWrapper
import UnifiedCache.Mooncake.ShareBuffer

namespace UnifiedCache.Mooncake

open UnifiedCache.Base UnifiedCache.Detail

inductive TaskType where
  | load
  | dump
  deriving DecidableEq

/-- Whose a buffer of the pool is. -/
inductive Owner where
  | free
  /-- The load dispatcher's `buf`. -/
  | loader
  /-- The `hostBuf` of a `ShardTask`. -/
  | job (j : Nat)
  /-- The `hostBufs` of a task's `DumpCtx`, or the `buf` that is to become one of them. -/
  | ctx (t : Nat)
  deriving DecidableEq

inductive CopyState where
  | none
  /-- Issued, as a whole or in part. -/
  | issued (whole : Bool)
  | synced (whole : Bool)
  deriving DecidableEq

/-- Where a `ShardTask` is. -/
inductive JobPc where
  | queued
  /-- In the backend's `Wait`. -/
  | waiting
  | copying
  /-- In `Synchronize`. -/
  | syncing
  /-- In `holder_`. -/
  | held
  /-- At the end of `TransferOneTask`. -/
  | finishing (ok : Bool)
  | dropped
  deriving DecidableEq

/-- `ShardTask`. -/
structure Job where
  task : Nat
  shard : Nat
  buf : Nat
  /-- It has the waiter. -/
  last : Bool
  pc : JobPc
  load : BackendLoad
  copy : CopyState

/-- Where a task is. -/
inductive TaskPc where
  /-- In `waiting_`. -/
  | queued
  /-- In `TryMooncakeLoad`. -/
  | getting
  /-- In `SubmitMissShards`, before a shard. -/
  | submitting (i pushed : Nat)
  | acquired (i pushed b : Nat)
  /-- In `DumpOneTask`, before the keys are looked up. -/
  | checking
  | waitingEvent (missing : Bool)
  /-- In `PrepareBackendDump`, before a shard. -/
  | preparing (i : Nat) (missing : Bool)
  | gathering (i b : Nat) (missing : Bool)
  | putting (missing : Bool)
  /-- In `SubmitBackendDump`. -/
  | synchronizing
  | dumping
  /-- `DumpOneTask` has returned. -/
  | leaving (ok : Bool)
  | left
  deriving DecidableEq

structure QueueTask where
  type : TaskType
  nShard : Nat
  hit : Nat → Bool
  pc : TaskPc

/-- The backend's dump of a task. -/
inductive DumpOp where
  | none
  | running
  | ended
  deriving DecidableEq

structure QueueConfig (Byte : Type) where
  /-- The number of buffers. -/
  count : Nat
  backend : Bool
  /-- The bytes of a shard. -/
  length : Nat
  /-- The bytes of a shard of a task. -/
  file : Nat → Nat → Nat → Byte

structure Queues (Byte : Type) where
  wrapper : TaskWrapper
  task : Nat → QueueTask
  owner : Nat → Owner
  loader : Option Nat
  nJob : Nat
  job : Nat → Job
  head : Nat
  transfer : Option Nat
  dumper : Option Nat
  dumpOp : Nat → DumpOp
  /-- The buffers that a task's dump reads. -/
  reads : Nat → Nat → Bool
  /-- A copy from the device to the buffer has been issued and not synchronised. -/
  gather : Nat → Bool
  host : Nat → Nat → Byte
  dest : Nat → Nat → Nat → Byte
  /-- The bytes that a job's load, and its copy, has moved. -/
  got : Nat → Nat → Bool
  moved : Nat → Nat → Bool

/-- What the load dispatcher does next with its task. -/
inductive LoaderLabel where
  /-- `batch_get_into_multi_buffers` returns the shards it has got, or a wrong number of results. -/
  | get (results : Option (Nat → Bool))
  /-- The loop goes on to the next shard, or ends. -/
  | next
  /-- `AcquireWithTimeout`. -/
  | acquire (b : Option Nat)
  /-- The backend's `Load`, and the push. -/
  | load (ok : Bool)

/-- What the transfer thread does next with its job. -/
inductive TransferLabel where
  | backendWait
  /-- The backend's `Wait` fails, and the load goes on. -/
  | backendTimeout
  | copy (ok left : Bool)
  | sync (ok : Bool)
  | finish

/-- What the dump dispatcher does next with its task. -/
inductive DumperLabel where
  /-- `batchIsExist` returns. -/
  | check (missing : Bool)
  | event (ok : Bool)
  | acquire (b : Option Nat)
  /-- The loop ends. -/
  | prepared
  | gather (ok left : Bool)
  /-- The prerequisite and the put, if any. -/
  | put (ok : Bool)
  | sync (ok : Bool)
  /-- The backend's `Dump`, and the push. -/
  | dump (ok : Bool)
  | leave

inductive QueueLabel (Byte : Type) where
  | submit (type : TaskType) (n : Nat) (full : Bool)
  | wait (l : WaitLabel)
  | takeLoad (t : Nat)
  | loader (l : LoaderLabel)
  | take
  | transfer (l : TransferLabel)
  | takeDump (t : Nat)
  | dumper (l : DumperLabel)
  /-- The backend stage has waited for the task's dump. -/
  | dumped (t : Nat)
  /-- Its wait fails, and the dump goes on. -/
  | dumpTimeout (t : Nat)
  /-- A load of the backend. -/
  | write (j o : Nat)
  | endLoad (j : Nat) (ok : Bool)
  | endDump (t : Nat)
  /-- A copy to the device. -/
  | move (j o : Nat)
  /-- A copy from the device. -/
  | gatherMove (b o : Nat) (v : Byte)

namespace Queues

variable {Byte : Type} (s : Queues Byte)

def setPc (t : Nat) (pc : TaskPc) : Queues Byte := { s with task := Function.update s.task t { s.task t with pc } }

def setJob (j : Nat) (x : Job) : Queues Byte := { s with job := Function.update s.job j x }

def setOwner (b : Nat) (o : Owner) : Queues Byte := { s with owner := Function.update s.owner b o }

/-- `failureSet_->Insert`, unless `ok`. -/
def failUnless (ok : Bool) (t : Nat) : Queues Byte := { s with wrapper := s.wrapper.failIf (!ok) t }

def done (t : Nat) : Queues Byte := { s with wrapper := s.wrapper.done t }

/-- The load dispatcher is done with its task. -/
def leaveLoader (t : Nat) : Queues Byte := { s.setPc t .left with loader := none }

/-- The load of a task ends before the transfer thread has it: marked failed unless `ok`. -/
def endTask (ok : Bool) (t : Nat) : Queues Byte := ((s.failUnless ok t).done t).leaveLoader t

/-- The `ShardTask` goes, and its buffer. -/
def dropJob (j : Nat) : Queues Byte := (s.setOwner (s.job j).buf .free).setJob j { s.job j with pc := .dropped }

/-- `holder_.clear()`. -/
def clearHolder : Queues Byte :=
  { s with
    owner := fun b =>
      match s.owner b with
      | .job j => if (s.job j).pc = .held then .free else .job j
      | o => o
    job := fun j => if (s.job j).pc = .held then { s.job j with pc := .dropped } else s.job j }

/-- The copies of the load queue's streams have ended. -/
def syncCopies : Queues Byte :=
  { s with
    job := fun j =>
      match (s.job j).copy with
      | .issued whole => { s.job j with copy := .synced whole }
      | _ => s.job j }

/-- The `DumpCtx` of a task goes. -/
def dropCtx (t : Nat) : Queues Byte := { s with owner := fun b => if s.owner b = .ctx t then .free else s.owner b }

/-- `DumpOneTask` returns a failure. -/
def dumpFails (t : Nat) : Queues Byte := (s.dropCtx t).setPc t (.leaving false)

def missCount (t : Nat) : Nat := Nat.count (fun i => (s.task t).hit i = false) (s.task t).nShard

end Queues

section Steps

variable {Byte : Type} (C : QueueConfig Byte) (s : Queues Byte)

/-- `LoadQueue::DispatchOneTask` and `SubmitMissShards`. -/
def loaderStep (t : Nat) : LoaderLabel → Option (Queues Byte)
  | .get results =>
    if (s.task t).pc = .getting then
      match results with
      | none => some (s.endTask false t)
      | some hit =>
        let s' := { s with
          task := Function.update s.task t { s.task t with hit }
          dest := Function.update s.dest t fun i => if i < (s.task t).nShard ∧ hit i = true then C.file t i else s.dest t i }
        if s'.missCount t = 0 ∨ C.backend = false then some (s'.endTask true t) else some (s'.setPc t (.submitting 0 0))
    else none
  | .next =>
    match (s.task t).pc with
    | .submitting i pushed =>
      if i < (s.task t).nShard then
        if (s.task t).hit i = true then some (s.setPc t (.submitting (i + 1) pushed)) else none
      else some (s.leaveLoader t)
    | _ => none
  | .acquire b =>
    match (s.task t).pc with
    | .submitting i pushed =>
      if i < (s.task t).nShard ∧ (s.task t).hit i = false then
        match b with
        | some b => if b < C.count ∧ s.owner b = .free then some ((s.setOwner b .loader).setPc t (.acquired i pushed b)) else none
        | none => some (s.endTask false t)
      else none
    | _ => none
  | .load ok =>
    match (s.task t).pc with
    | .acquired i pushed b =>
      if ok then
        some { (s.setOwner b (.job s.nJob)).setPc t (.submitting (i + 1) (pushed + 1)) with
          nJob := s.nJob + 1
          job := Function.update s.job s.nJob ⟨t, i, b, decide (pushed + 1 = s.missCount t), .queued, .running, .none⟩
          got := Function.update s.got s.nJob fun _ => false
          moved := Function.update s.moved s.nJob fun _ => false }
      else some ((s.setOwner b .free).endTask false t)
    | _ => none

/-- `LoadQueue::TransferOneTask`, after the failure set was looked at. -/
def transferStep (j : Nat) : TransferLabel → Option (Queues Byte)
  | .backendWait =>
    match (s.job j).pc, (s.job j).load with
    | .waiting, .ended ok => some (s.setJob j { s.job j with pc := if ok then .copying else .finishing false })
    | _, _ => none
  | .backendTimeout =>
    if (s.job j).pc = .waiting ∧
      (s.job j).load = .running then some (s.setJob j { s.job j with pc := .finishing false }) else none
  | .copy ok left =>
    if (s.job j).pc = .copying then
      if ok then
        if (s.job j).last then some (s.setJob j { s.job j with pc := .syncing, copy := .issued true })
        else some { s.setJob j { s.job j with pc := .held, copy := .issued true } with transfer := none }
      else some (s.setJob j { s.job j with pc := .finishing false, copy := if left then .issued false else .none })
    else none
  | .sync ok =>
    if (s.job j).pc = .syncing then
      if ok then
        if ∀ k, k < s.nJob → (s.job k).copy = .issued true → ∀ o, o < C.length → s.moved k o = true then
          some ((s.setJob j { s.job j with pc := .finishing true }).syncCopies.clearHolder)
        else none
      else some ((s.setJob j { s.job j with pc := .finishing false }).clearHolder)
    else none
  | .finish =>
    match (s.job j).pc with
    | .finishing ok =>
      let s' := s.failUnless ok (s.job j).task
      some { (if (s.job j).last then s'.clearHolder.done (s.job j).task else s').dropJob j with transfer := none }
    | _ => none

/-- `DumpQueue::DispatchOneTask` and `DumpOneTask`. -/
def dumperStep (t : Nat) : DumperLabel → Option (Queues Byte)
  | .check missing =>
    if (s.task t).pc = .checking then some (s.setPc t (if C.backend then .waitingEvent missing else .putting missing)) else none
  | .event ok =>
    match (s.task t).pc with
    | .waitingEvent missing => some (s.setPc t (if ok then .preparing 0 missing else .leaving false))
    | _ => none
  | .acquire b =>
    match (s.task t).pc with
    | .preparing i missing =>
      if i < (s.task t).nShard then
        match b with
        | some b => if b < C.count ∧
            s.owner b = .free then some ((s.setOwner b (.ctx t)).setPc t (.gathering i b missing)) else none
        | none => some (s.setPc t (.putting missing))
      else none
    | _ => none
  | .prepared =>
    match (s.task t).pc with
    | .preparing i missing => if i < (s.task t).nShard then none else some (s.setPc t (.putting missing))
    | _ => none
  | .gather ok left =>
    match (s.task t).pc with
    | .gathering i b missing =>
      if ok then some { s.setPc t (.preparing (i + 1) missing) with gather := Function.update s.gather b true }
      else some { s.dumpFails t with gather := Function.update s.gather b left }
    | _ => none
  | .put ok =>
    match (s.task t).pc with
    | .putting missing =>
      if missing = true ∧ ok = false then some (s.dumpFails t)
      else if ∃ b, b < C.count ∧ s.owner b = .ctx t then some (s.setPc t .synchronizing)
      else some (s.setPc t (.leaving true))
    | _ => none
  | .sync ok =>
    if (s.task t).pc = .synchronizing then
      if ok then some { s.setPc t .dumping with gather := fun _ => false } else some (s.dumpFails t)
    else none
  | .dump ok =>
    if (s.task t).pc = .dumping then
      if ok then
        some { s.setPc t (.leaving true) with
          dumpOp := Function.update s.dumpOp t .running
          reads := Function.update s.reads t fun b => decide (s.owner b = .ctx t) }
      else some (s.dumpFails t)
    else none
  | .leave =>
    match (s.task t).pc with
    | .leaving ok => some { ((s.failUnless ok t).done t).setPc t .left with dumper := none }
    | _ => none

def queueStep : QueueLabel Byte → Option (Queues Byte)
  | .submit type n full =>
    let t := s.wrapper.nTask
    let s' := { s with wrapper := s.wrapper.submit 1, task := Function.update s.task t ⟨type, n, fun _ => false, .queued⟩ }
    some (if full then ((s'.failUnless false t).done t).setPc t .left else s')
  | .wait l => (waitStep false s.wrapper l).map fun w => { s with wrapper := w }
  | .takeLoad t =>
    if t < s.wrapper.nTask ∧ (s.task t).type = .load ∧ (s.task t).pc = .queued ∧ s.loader = none then
      if s.wrapper.failureSet t then some ((s.done t).setPc t .left) else some { s.setPc t .getting with loader := some t }
    else none
  | .loader l =>
    match s.loader with
    | some t => loaderStep C s t l
    | none => none
  | .take =>
    if s.head < s.nJob ∧ s.transfer = none then
      let j := s.head
      let s' := { s with head := s.head + 1 }
      if s.wrapper.failureSet (s.job j).task then some ((if (s.job j).last then s'.done (s.job j).task else s').dropJob j)
      else some { s'.setJob j { s.job j with pc := .waiting } with transfer := some j }
    else none
  | .transfer l =>
    match s.transfer with
    | some j => transferStep C s j l
    | none => none
  | .takeDump t =>
    if t < s.wrapper.nTask ∧ (s.task t).type = .dump ∧ (s.task t).pc = .queued ∧ s.dumper = none then
      some { s.setPc t (if s.wrapper.failureSet t then .leaving true else .checking) with dumper := some t }
    else none
  | .dumper l =>
    match s.dumper with
    | some t => dumperStep C s t l
    | none => none
  | .dumped t => if s.dumpOp t = .ended then some (s.dropCtx t) else none
  | .dumpTimeout t => if s.dumpOp t = .running then some (s.dropCtx t) else none
  | .write j o =>
    if j < s.nJob ∧ (s.job j).load = .running ∧ o < C.length then
      some { s with
        host := Function.update s.host (s.job j).buf
          (Function.update (s.host (s.job j).buf) o (C.file (s.job j).task (s.job j).shard o))
        got := Function.update s.got j (Function.update (s.got j) o true) }
    else none
  | .endLoad j ok =>
    if j < s.nJob ∧ (s.job j).load = .running ∧ (ok = true → ∀ o, o < C.length → s.got j o = true) then
      some (s.setJob j { s.job j with load := .ended ok })
    else none
  | .endDump t => if s.dumpOp t = .running then some { s with dumpOp := Function.update s.dumpOp t .ended } else none
  | .move j o =>
    if j < s.nJob ∧ ((s.job j).copy = .issued true ∨ (s.job j).copy = .issued false) ∧ o < C.length then
      some { s with
        dest := Function.update s.dest (s.job j).task (Function.update (s.dest (s.job j).task) (s.job j).shard
          (Function.update (s.dest (s.job j).task (s.job j).shard) o (s.host (s.job j).buf o)))
        moved := Function.update s.moved j (Function.update (s.moved j) o true) }
    else none
  | .gatherMove b o v =>
    if s.gather b = true then some { s with host := Function.update s.host b (Function.update (s.host b) o v) } else none

end Steps

/-- `TransManager::Setup`. -/
structure Queues.IsInit {Byte : Type} (s : Queues Byte) : Prop where
  wrapper : s.wrapper = .init
  owner : ∀ b, s.owner b = .free
  loader : s.loader = none
  nJob : s.nJob = 0
  head : s.head = 0
  transfer : s.transfer = none
  dumper : s.dumper = none
  dumpOp : ∀ t, s.dumpOp t = .none
  gather : ∀ b, s.gather b = false

def hostQueues {Byte : Type} (C : QueueConfig Byte) : System (Queues Byte) (QueueLabel Byte) where
  init := Queues.IsInit
  step := queueStep C

end UnifiedCache.Mooncake
