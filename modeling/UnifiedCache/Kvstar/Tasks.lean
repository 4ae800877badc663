/-
  UnifiedCache.Kvstar.Tasks — the retrieval tasks: their queues, and what `Wait` and `GetResult` report
  (ucm/sparse/kvstar/retrieve/core/domain/retrieve_task/{retrieve_task_manager,retrieve_task_queue,
  retrieve_task_runner}.cpp, retrieve_task_waiter.h and thread/latch.h).

  A task is given a number and comes to the end of the next queue; the worker of the queue computes it,
  stores the result, and counts its latch down. `Wait` takes the waiter of the task, waits for the
  latch, and asks the failure set. Calls under the lock of the manager are one step, and so is each
  atomic store. The latch counts down without its lock, so a notification that comes between a
  waiter's look at the counter and its sleep is lost.

  The runner catches what the kernel throws, records it in the result, and returns `OK`: the worker
  then stores `SUCCESS`, and no task ever comes to the failure set. So `Wait` is right just for the
  tasks that do not throw (`retrieval_reports`).

  A behaviour that is undefined is the end of a worker. `submitted`, `computed` and `place` are ghosts.
-/

import UnifiedCache.Base.Transition
import UnifiedCache.Kvstar.Kernel

namespace UnifiedCache.Kvstar

open UnifiedCache.Base

inductive TaskStatus where
  | pending
  | running
  | success
  | failure
  deriving DecidableEq

inductive Status where
  | ok
  | error
  | notFound
  deriving DecidableEq

structure TaskResult where
  status : TaskStatus
  topkIndices : List Nat
  errorMessage : String
  deriving DecidableEq

structure WorkItem (α : Type) where
  allocTaskId : Nat
  task : RetrieveTask α

inductive WorkerPc (α : Type) where
  | idle
  | popped (item : WorkItem α)
  /-- Before the failure set is asked. -/
  | checking (item : WorkItem α)
  | running (item : WorkItem α)
  /-- In the handler of the runner. -/
  | caught (item : WorkItem α) (what : String)
  /-- The runner has returned. -/
  | ran (item : WorkItem α) (status : Status)
  /-- The task is in the failure set. -/
  | failed (item : WorkItem α)
  /-- Before `Done` of the latch. -/
  | finished (item : WorkItem α)
  /-- Before `Notify`. -/
  | notifying (item : WorkItem α)

inductive WaitPc where
  | idle
  /-- Before the counter is looked at. -/
  | looking (taskId : Nat)
  /-- The counter was not zero. -/
  | falling (taskId : Nat)
  | asleep (taskId : Nat)
  /-- The latch has let it pass. -/
  | passed (taskId : Nat)
  | removing (taskId : Nat) (failure : Bool)
  | returned (taskId : Nat) (status : Status)
  deriving DecidableEq

/-- Where a task is. -/
inductive Place where
  | absent
  | queued (queue : Nat)
  | held (queue : Nat)
  | done
  deriving DecidableEq

structure Manager (ι α : Type) where
  taskIdSeed : Nat
  lastTimeScheduledQueueIdx : Nat
  taskQ : Nat → List (WorkItem α)
  worker : Nat → WorkerPc α
  waiters : Nat → Bool
  /-- The counters of the latches. -/
  counter : Nat → Nat
  resultMap : Nat → Option TaskResult
  failureSet : List Nat
  wait : ι → WaitPc
  submitted : Nat → Option (RetrieveTask α)
  computed : Nat → Option Computed
  place : Nat → Place

inductive WorkerLabel where
  | pop
  /-- With the order that `nth_element` leaves. -/
  | step (order : List Nat)

inductive WaitLabel where
  | call (taskId : Nat)
  | step
  | spurious

inductive ManagerLabel (ι α : Type) where
  | submit (task : RetrieveTask α)
  | worker (queue : Nat) (l : WorkerLabel)
  | wait (t : ι) (l : WaitLabel)

section Steps

variable {ι α : Type} [DecidableEq ι] [LinearOrder α] (kernel : Kernel) (numQueues : Nat) (s : Manager ι α)

def Manager.setWorker (queue : Nat) (pc : WorkerPc α) : Manager ι α := { s with worker := Function.update s.worker queue pc }

def Manager.setResult (taskId : Nat) (f : TaskResult → TaskResult) : Manager ι α :=
  { s with resultMap := Function.update s.resultMap taskId ((s.resultMap taskId).map f) }

def Manager.setWait (t : ι) (pc : WaitPc) : Manager ι α := { s with wait := Function.update s.wait t pc }

/-- `SubmitSingleTask`. -/
def submitSingleTask (task : RetrieveTask α) : Option (Manager ι α) :=
  let taskId := s.taskIdSeed + 1
  if numQueues = 0 then none
  -- `emplace` finds the number taken
  else if s.waiters taskId = true then some { s with taskIdSeed := taskId }
  else if (s.resultMap taskId).isSome then some { s with taskIdSeed := taskId }
  else
    some { s with
      taskIdSeed := taskId
      waiters := Function.update s.waiters taskId true
      counter := Function.update s.counter taskId 1
      resultMap := Function.update s.resultMap taskId (some ⟨.pending, [], ""⟩)
      taskQ := Function.update s.taskQ s.lastTimeScheduledQueueIdx (s.taskQ s.lastTimeScheduledQueueIdx ++ [⟨taskId, task⟩])
      lastTimeScheduledQueueIdx := (s.lastTimeScheduledQueueIdx + 1) % numQueues
      submitted := Function.update s.submitted taskId (some task)
      place := Function.update s.place taskId (.queued s.lastTimeScheduledQueueIdx) }

/-- `Execute`, and what the runner does with it. -/
def runnerRun (queue : Nat) (item : WorkItem α) (order : List Nat) : Option (Manager ι α) :=
  let s' := { s with computed := Function.update s.computed item.allocTaskId (some (execute kernel item.task order)) }
  match execute kernel item.task order with
  | .threw what => some (s'.setWorker queue (.caught item what))
  | .undefined => none
  | .topkIndices l =>
    some ((s'.setResult item.allocTaskId fun r => { r with topkIndices := l, status := .success }).setWorker queue
      (.ran item .ok))

/-- The loop of `Worker`. -/
def workerStep (queue : Nat) : WorkerLabel → Option (Manager ι α)
  | .pop =>
    match s.worker queue, s.taskQ queue with
    | .idle, item :: rest =>
      some { s with
        taskQ := Function.update s.taskQ queue rest
        worker := Function.update s.worker queue (.popped item)
        place := Function.update s.place item.allocTaskId (.held queue) }
    | _, _ => none
  | .step order =>
    match s.worker queue with
    | .popped item =>
        some ((s.setResult item.allocTaskId fun r => { r with status := .running }).setWorker queue (.checking item))
    | .checking item => some (s.setWorker queue (if item.allocTaskId ∈ s.failureSet then .finished item else .running item))
    | .running item => if kernel = .vector ∧ ¬ LeftBy item.task order then none else runnerRun kernel s queue item order
    | .caught item what =>
      some ((s.setResult item.allocTaskId fun r => { r with errorMessage := what, status := .failure }).setWorker queue
        (.ran item .ok))
    | .ran item status =>
      match status with
      | .ok => some ((s.setResult item.allocTaskId fun r => { r with status := .success }).setWorker queue (.finished item))
      | _ => some ({ s with failureSet := item.allocTaskId :: s.failureSet }.setWorker queue (.failed item))
    | .failed item =>
        some ((s.setResult item.allocTaskId fun r => { r with status := .failure }).setWorker queue (.finished item))
    | .finished item =>
      let count := s.counter item.allocTaskId - 1
      some { s with
        counter := Function.update s.counter item.allocTaskId count
        worker := Function.update s.worker queue (if count = 0 then .notifying item else .idle)
        place := Function.update s.place item.allocTaskId .done }
    | .notifying item =>
      some { s with
        worker := Function.update s.worker queue .idle
        wait := fun t => if s.wait t = .asleep item.allocTaskId then .looking item.allocTaskId else s.wait t }
    | .idle => none

/-- `Wait`. -/
def waitStep (t : ι) : WaitLabel → Option (Manager ι α)
  | .call taskId =>
    match s.wait t with
    | .idle | .returned _ _ =>
      if s.waiters taskId = true then
        some { s with waiters := Function.update s.waiters taskId false, wait := Function.update s.wait t (.looking taskId) }
      else some (s.setWait t (.returned taskId .notFound))
    | _ => none
  | .step =>
    match s.wait t with
    | .looking taskId => some (s.setWait t (if s.counter taskId = 0 then .passed taskId else .falling taskId))
    | .falling taskId => some (s.setWait t (.asleep taskId))
    | .passed taskId => some (s.setWait t (.removing taskId (taskId ∈ s.failureSet)))
    | .removing taskId failure =>
      some { s with
        failureSet := s.failureSet.filter (· ≠ taskId)
        wait := Function.update s.wait t (.returned taskId (if failure then .error else .ok)) }
    | _ => none
  | .spurious =>
    match s.wait t with
    | .asleep taskId => some (s.setWait t (.looking taskId))
    | _ => none

def managerStep : ManagerLabel ι α → Option (Manager ι α)
  | .submit task => submitSingleTask numQueues s task
  | .worker queue l => if queue < numQueues then workerStep kernel s queue l else none
  | .wait t l => waitStep s t l

end Steps

variable {ι α : Type} [DecidableEq ι] [LinearOrder α]

structure Manager.IsInit (s : Manager ι α) : Prop where
  taskIdSeed : s.taskIdSeed = 0
  lastTimeScheduledQueueIdx : s.lastTimeScheduledQueueIdx = 0
  taskQ : ∀ q, s.taskQ q = []
  worker : ∀ q, s.worker q = .idle
  waiters : ∀ id, s.waiters id = false
  counter : ∀ id, s.counter id = 0
  resultMap : ∀ id, s.resultMap id = none
  failureSet : s.failureSet = []
  wait : ∀ t, s.wait t = .idle
  submitted : ∀ id, s.submitted id = none
  computed : ∀ id, s.computed id = none
  place : ∀ id, s.place id = .absent

def retrieval (ι α : Type) [DecidableEq ι] [LinearOrder α] (kernel : Kernel) (numQueues : Nat) :
    System (Manager ι α) (ManagerLabel ι α) where
  init := Manager.IsInit
  step s l := managerStep kernel numQueues s l

end UnifiedCache.Kvstar
