/-
  UnifiedCache.Gdr.Stream — a GDR stream: its submitter, its scheduler and completion threads, and the
  NIC (ucm/shared/trans/cuda/gdr/gdr_stream.{h,cc}, and the channel's post and poll of gdr_copy.cc).

  One thread submits copies and event waits, and calls `Synchronized`. The scheduler takes them from
  the operation ring in batches: it waits for an event, and posts a copy on the queue pair; a full
  queue is tried again, and another error makes the operation fail. The NIC completes the copies in
  posting order, each with success or an error, and the completion thread polls them. A fatal error
  (`StopWithAsyncError`) stops the stream.

  The operation ring is a bounded queue of one producer and one consumer, which a fatal error empties.
  Loads of `asyncErrorSet_` and of `stopRequested_` that follow one another are one step, and so is a
  post. `finished` and `failed` record for which operations `MarkOperationCompleted` and
  `MarkOperationFailed` have been called, and `covered` how far the calls of `Synchronized` that have
  returned went.
-/

import Mathlib.Data.List.Sort
import UnifiedCache.Base.Transition
import UnifiedCache.Gdr.Frontier

namespace UnifiedCache.Gdr

open UnifiedCache.Base

def kOperationRingCapacity : Nat := 8192

def kCompletionRingCapacity : Nat := 8192

def kInflightRingCapacity : Nat := 8192

def kSchedulerBatchSize : Nat := 128

inductive OperationType where
  | wait
  | copy
  deriving DecidableEq

structure Operation where
  type : OperationType
  operationId : Nat
  size : Nat
  deriving DecidableEq

/-- The two threads that call `MarkOperationCompleted`. -/
inductive StreamThread where
  | scheduler
  | completion
  deriving DecidableEq

/-- Where a thread is in `StopWithAsyncError`. -/
inductive StopPc where
  | locking
  /-- Before `ResetOperationRing`. -/
  | resetting
  | requesting
  deriving DecidableEq

inductive SubmitterPc where
  | idle
  /-- At the head of the loop of `PushOperation`. -/
  | pushing (op : Operation)
  | trying (op : Operation)
  /-- Before `nextOperationId_` is stored. -/
  | publishing
  /-- In the loop of `Synchronized`. -/
  | syncing (target : Nat)
  | locking (target : Nat)
  deriving DecidableEq

inductive SchedulerPc where
  /-- Before `cudaSetDevice`. -/
  | setup
  /-- At the head of the loop. -/
  | polling
  | popping
  /-- Before the next operation of a batch. -/
  | next (batch : List Operation)
  /-- In `cudaEventSynchronize`. -/
  | waiting (op : Operation) (batch : List Operation)
  /-- In `SubmitCopyOperationFromQueue`. -/
  | submitting (op : Operation) (batch : List Operation)
  | posting (op : Operation) (batch : List Operation)
  /-- The send queue was full. -/
  | retrying (op : Operation) (batch : List Operation)
  /-- In `MarkOperationFailed`. -/
  | failing (op : Operation) (batch : List Operation)
  | marking (batch : List Operation)
  | stopping (stage : StopPc)
  | exited
  deriving DecidableEq

inductive CompletionPc where
  /-- Before `RequestCompletionNotification`. -/
  | notifying
  | polling
  /-- `PollCompletion` has returned a request. -/
  | completed (reqId : Nat)
  | marking
  /-- The queue was empty. -/
  | checking
  | waiting
  | canceled
  | stopping (stage : StopPc)
  | exited
  deriving DecidableEq

structure Stream where
  /-- `operationRing_`, the head first. -/
  ring : List Operation
  frontier : Frontier
  /-- `failedOperations_`, by their ids. -/
  failedOperations : List Nat
  asyncErrorSet : Bool
  stopRequested : Bool
  nextOperationId : Nat
  mark : StreamThread → MarkPc
  submitter : SubmitterPc
  scheduler : SchedulerPc
  completion : CompletionPc
  /-- `inflightSlots_`. -/
  inflight : Nat → Nat
  inflightWr : Nat
  /-- The copies that are posted on the queue pair, and the completions of the others. -/
  posted : List Nat
  cq : List (Nat × Bool)
  finished : Nat → Bool
  failed : Nat → Bool
  covered : Nat

inductive SubmitterLabel where
  | submit (type : OperationType) (size : Nat)
  | check
  | push
  /-- The ring was full for too long. -/
  | giveUp
  | publish
  | synchronized
  /-- The loop of `Synchronized` ends. -/
  | poll
  | return

inductive PostResult where
  | posted
  /-- `-EAGAIN`. -/
  | full
  | error
  deriving DecidableEq

inductive SchedulerLabel where
  | step
  | setDevice (ok : Bool)
  | event (ok : Bool)
  | post (r : PostResult)
  | mark (spurious : Bool)

inductive WaitResult where
  | event
  | canceled
  | error
  deriving DecidableEq

inductive CompletionLabel where
  | step
  | notify (ok : Bool)
  /-- `ibv_poll_cq` fails. -/
  | pollFails
  | wait (r : WaitResult)
  | mark (spurious : Bool)

inductive StreamLabel where
  | submitter (l : SubmitterLabel)
  | scheduler (l : SchedulerLabel)
  | completion (l : CompletionLabel)
  /-- The NIC completes a copy. -/
  | nic (ok : Bool)

namespace Stream

variable (s : Stream)

/-- `HasAsyncError() || stopRequested_`. -/
def stops : Bool := s.asyncErrorSet || s.stopRequested

/-- `MarkOperationCompleted` is called. -/
def call (t : StreamThread) (operationId : Nat) : Stream :=
  { s with mark := Function.update s.mark t (.called operationId), finished := Function.update s.finished operationId true }

/-- The next step of `MarkOperationCompleted`. -/
def markStep (t : StreamThread) (spurious : Bool) : Option Stream :=
  (Gdr.markStep kCompletionRingCapacity s.frontier spurious (s.mark t)).map fun r =>
  { s with frontier := r.1, mark := Function.update s.mark t r.2 }

/-- The next step of `StopWithAsyncError`. -/
def stopStep : StopPc → Stream
  | .locking => { s with asyncErrorSet := true, failedOperations := [] }
  | .resetting => { s with ring := [] }
  | .requesting => { s with stopRequested := true }

def setScheduler (pc : SchedulerPc) : Stream := { s with scheduler := pc }

def setCompletion (pc : CompletionPc) : Stream := { s with completion := pc }

/-- `PostCopyWithInflightSlot` has room for the copy. -/
def hasRoom (maxInflightWr reqId : Nat) : Bool := s.inflightWr < maxInflightWr && s.inflight (reqId % kInflightRingCapacity) = 0

end Stream

def StopPc.next : StopPc → Option StopPc
  | .locking => some .resetting
  | .resetting => some .requesting
  | .requesting => none

section Steps

variable (s : Stream)

/-- `SubmitAsync`, `WaitEvent`, `PushOperation` and `Synchronized`. -/
def submitterStep : SubmitterLabel → Option Stream
  | .submit type size =>
    if s.submitter = .idle ∧
      s.asyncErrorSet = false then some { s with submitter := .pushing ⟨type, s.nextOperationId, size⟩ } else none
  | .check =>
    match s.submitter with
    | .pushing op => some { s with submitter := if s.stops then .idle else .trying op }
    | _ => none
  | .push =>
    match s.submitter with
    | .trying op =>
      if s.ring.length < kOperationRingCapacity then some { s with ring := s.ring ++ [op], submitter := .publishing }
      else some { s with submitter := .pushing op }
    | _ => none
  | .giveUp =>
    match s.submitter with
    | .trying _ => if s.ring.length < kOperationRingCapacity then none else some { s with submitter := .idle }
    | _ => none
  | .publish =>
    if s.submitter = .publishing then some { s with nextOperationId := s.nextOperationId + 1, submitter := .idle } else none
  | .synchronized => if s.submitter = .idle then some { s with submitter := .syncing (s.nextOperationId - 1) } else none
  | .poll =>
    match s.submitter with
    | .syncing target => if s.asyncErrorSet ∨ target ≤ s.frontier.last then some { s with submitter := .locking target } else none
    | _ => none
  | .return =>
    match s.submitter with
    | .locking target =>
      let s' := { s with submitter := .idle, covered := max s.covered target }
      some
        (if s.asyncErrorSet then s'
        else
          match s.failedOperations with
          | [] => s'
          | id :: rest => if s.frontier.last < id then s' else { s' with failedOperations := rest })
    | _ => none

/-- What `Synchronized` returns. -/
inductive SyncStatus where
  | ok
  /-- The error of an operation. -/
  | operation (operationId : Nat)
  | asyncError
  deriving DecidableEq

/-- `AsyncErrorLocked` and `TakeCompletedOperationError`. -/
def syncStatus : SyncStatus :=
  if s.asyncErrorSet then .asyncError
  else
    match s.failedOperations with
    | [] => .ok
    | id :: _ => if s.frontier.last < id then .ok else .operation id

/-- `SchedulerLoop` and `SubmitCopyOperationFromQueue`. -/
def schedulerStep (maxInflightWr : Nat) : SchedulerLabel → Option Stream
  | .setDevice ok => if s.scheduler = .setup then some (s.setScheduler (if ok then .polling else .stopping .locking)) else none
  | .step =>
    match s.scheduler with
    | .polling => some (s.setScheduler (if s.stops then .exited else .popping))
    | .popping =>
      let batch := s.ring.take kSchedulerBatchSize
      some { s with ring := s.ring.drop kSchedulerBatchSize, scheduler := if batch = [] then .polling else .next batch }
    | .next [] => some (s.setScheduler .polling)
    | .next (op :: batch) =>
      some (s.setScheduler (if s.stops then .exited else if op.type = .wait then .waiting op batch else .submitting op batch))
    | .submitting op batch =>
      if s.stops then some (s.setScheduler .exited)
      else if op.size = 0 then some ((s.call .scheduler op.operationId).setScheduler (.marking batch))
      else some (s.setScheduler (.posting op batch))
    | .retrying op batch => some (s.setScheduler (if s.stops then .exited else .submitting op batch))
    | .failing op batch =>
      some (Stream.setScheduler
        { s.call .scheduler op.operationId with
          -- `failedOperations_` is ordered
          failedOperations := s.failedOperations.orderedInsert (· ≤ ·) op.operationId
          failed := Function.update s.failed op.operationId true } (.marking batch))
    | .stopping stage => some ((s.stopStep stage).setScheduler (stage.next.elim .exited .stopping))
    | _ => none
  | .event ok =>
    match s.scheduler with
    | .waiting op batch => some (if ok then (s.call .scheduler op.operationId).setScheduler (.marking batch)
        else s.setScheduler (.stopping .locking))
    | _ => none
  | .post r =>
    match s.scheduler with
    | .posting op batch =>
      match r with
      | .posted =>
        if s.hasRoom maxInflightWr op.operationId then
          some { s with
            scheduler := .next batch
            inflight := Function.update s.inflight (op.operationId % kInflightRingCapacity) op.operationId
            inflightWr := s.inflightWr + 1
            posted := s.posted ++ [op.operationId] }
        else none
      | .full => if s.hasRoom maxInflightWr op.operationId then none else some (s.setScheduler (.retrying op batch))
      | .error => some (s.setScheduler (.failing op batch))
    | _ => none
  | .mark spurious =>
    match s.scheduler with
    | .marking batch => (s.markStep .scheduler spurious).map fun s' => if s'.mark .scheduler = .none
        then s'.setScheduler (.next batch) else s'
    | _ => none

/-- `CompletionLoop` and `PollCompletion`. -/
def completionStep : CompletionLabel → Option Stream
  | .notify ok => if s.completion = .notifying then some (s.setCompletion (if ok then .polling else .stopping .locking)) else none
  | .step =>
    match s.completion with
    | .polling =>
      match s.cq with
      | [] => some (s.setCompletion .checking)
      | (reqId, ok) :: cq =>
        if ok then
          if s.inflight (reqId % kInflightRingCapacity) = reqId then
            some { s with
              cq
              inflight := Function.update s.inflight (reqId % kInflightRingCapacity) 0
              inflightWr := s.inflightWr - 1
              completion := .completed reqId }
          else some { s with cq, completion := .stopping .locking }
        else some { s with cq, completion := .stopping .locking }
    | .completed reqId =>
      some (if s.asyncErrorSet then s.setCompletion .exited else (s.call .completion reqId).setCompletion .marking)
    | .checking => some (s.setCompletion (if s.stops then .exited else .waiting))
    | .canceled => some (s.setCompletion (if s.stops then .exited else .notifying))
    | .stopping stage => some ((s.stopStep stage).setCompletion (stage.next.elim .exited .stopping))
    | _ => none
  | .pollFails => if s.completion = .polling then some (s.setCompletion (.stopping .locking)) else none
  | .wait r =>
    if s.completion = .waiting then
      match r with
      | .event => some (s.setCompletion .notifying)
      | .canceled => some (s.setCompletion .canceled)
      | .error => some (s.setCompletion (.stopping .locking))
    else none
  | .mark spurious =>
    if s.completion = .marking then
      (s.markStep .completion spurious).map fun s' => if s'.mark .completion = .none then s'.setCompletion .polling else s'
    else none

def streamStep (maxInflightWr : Nat) : StreamLabel → Option Stream
  | .submitter l => submitterStep s l
  | .scheduler l => schedulerStep s maxInflightWr l
  | .completion l => completionStep s l
  | .nic ok =>
    match s.posted with
    | [] => none
    | reqId :: posted => some { s with posted, cq := s.cq ++ [(reqId, ok)] }

end Steps

/-- `Setup`. -/
structure Stream.IsInit (s : Stream) : Prop where
  ring : s.ring = []
  frontier : s.frontier = ⟨0, fun _ => 0⟩
  failedOperations : s.failedOperations = []
  asyncErrorSet : s.asyncErrorSet = false
  stopRequested : s.stopRequested = false
  nextOperationId : s.nextOperationId = 1
  mark : ∀ t, s.mark t = .none
  submitter : s.submitter = .idle
  scheduler : s.scheduler = .setup
  completion : s.completion = .notifying
  inflight : ∀ i, s.inflight i = 0
  inflightWr : s.inflightWr = 0
  posted : s.posted = []
  cq : s.cq = []
  finished : ∀ id, s.finished id = false
  failed : ∀ id, s.failed id = false
  covered : s.covered = 0

def gdrStream (maxInflightWr : Nat) : System Stream StreamLabel where
  init := Stream.IsInit
  step s l := streamStep s maxInflightWr l

end UnifiedCache.Gdr
