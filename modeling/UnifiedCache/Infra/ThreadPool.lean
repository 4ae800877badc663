/-
  UnifiedCache.Infra.ThreadPool — a queue, its workers, and calls that thin it out
  (ucm/shared/infra/thread/thread_pool.h).

  Actors. Callers push tasks. Workers pop them from the front of `taskQ_` and run them; with nothing
  to pop they sleep until they are notified. A `TraverseWaitQueue` sets `drain_` and takes the whole
  queue away as its snapshot. It goes through it without the lock: a task is taken for good
  (`filter`, `visitor`), or kept, and the kept ones go back in batches of `nWorker_`. At the end, or
  where `earlyStopper` says so, what is left of the snapshot goes back, then what was pushed
  meanwhile (`taskPending_`). A call that finds `drain_` set does nothing.

  A step is what a thread does under one lock of `taskMtx_`, or without it a round of the walk or
  the end of a task. What the three functions of a traversal answer is left open. A worker whose task hangs is
  told to stop and replaced (the monitor); the destructor stops all.

  A task is the number of its push. `executed` and `taken` record who popped a task, and who took it.
-/

import UnifiedCache.Base.Transition

namespace UnifiedCache.Infra.ThreadPool

open UnifiedCache.Base

inductive WorkerPc where
  | ready
  | asleep
  | running (task : Nat)
  | ended
  deriving DecidableEq, Repr

/-- A `WorkerLoop`: `ready` is before the lock. -/
structure Worker where
  pc : WorkerPc
  stopRequested : Bool
  deriving DecidableEq, Repr

/-- A call of `TraverseWaitQueue`; its snapshot is what is kept before `it`, and the rest. -/
inductive Traversal where
  | begin
  | walk (kept rest : List Nat) (processed : Nat)
  | batch (kept rest : List Nat)
  | merge (snapshot : List Nat)
  | done
  deriving DecidableEq, Repr

/-- What `earlyStopper` and `filter` say of a task. -/
inductive Decision where
  | stop
  | take
  | keep
  deriving DecidableEq, Repr

structure State where
  taskQ : List Nat
  taskPending : List Nat
  drain : Bool
  stop : Bool
  workers : List Worker
  traversals : List Traversal
  pushed : Nat
  /-- Each task popped, after the worker that did. -/
  executed : List (Nat × Nat)
  /-- Each task visited, after the call that did. -/
  taken : List (Nat × Nat)
  deriving DecidableEq, Repr

/-! ## Steps -/

inductive WorkerAct where
  | pop
  | wait
  | wake
  | exit
  | complete
  deriving DecidableEq, Repr

inductive Label where
  /-- `Push` of a list of `k` tasks. -/
  | pushList (k : Nat)
  /-- `Push` of one task; `waiter` is who `notify_one` wakes. -/
  | push (waiter : Option Nat)
  | worker (w : Nat) (act : WorkerAct)
  | call
  | traverse (i : Nat) (d : Decision)
  | requestStop (w : Nat)
  | addWorker
  | destroy
  deriving DecidableEq, Repr

def notify (worker : Worker) : Worker := if worker.pc = .asleep then { worker with pc := .ready } else worker

/-- `notify_one` wakes one that sleeps, if any does. -/
def notifyOne (workers : List Worker) : Option Nat → Option (List Worker)
  | none => if ∀ worker ∈ workers, worker.pc ≠ .asleep then some workers else none
  | some w =>
    match workers[w]? with
    | some worker => if worker.pc = .asleep then some (workers.set w (notify worker)) else none
    | none => none

def push (s : State) (waiter : Option Nat) : Option State :=
  if s.drain then some { s with taskPending := s.taskPending ++ [s.pushed], pushed := s.pushed + 1 }
  else (notifyOne s.workers waiter).map fun workers => { s with
    taskQ := s.taskQ ++ [s.pushed], pushed := s.pushed + 1, workers := workers }

def pushList (s : State) (k : Nat) : State :=
  if s.drain then { s with taskPending := s.taskPending ++ List.range' s.pushed k, pushed := s.pushed + k }
  else { s with taskQ := s.taskQ ++ List.range' s.pushed k, pushed := s.pushed + k, workers := s.workers.map notify }

/-- `WorkerLoop`. -/
def workerStep (s : State) (w : Nat) (worker : Worker) : WorkerAct → Option State
  | .pop =>
    match s.taskQ with
    | task :: taskQ =>
      if worker.pc = .ready ∧ s.stop = false ∧ worker.stopRequested = false then
        some { s with
          taskQ := taskQ, executed := s.executed ++ [(w, task)],
          workers := s.workers.set w { worker with pc := .running task } }
      else none
    | [] => none
  | .wait =>
    if worker.pc = .ready ∧ s.stop = false ∧ worker.stopRequested = false ∧ s.taskQ = [] then
      some { s with workers := s.workers.set w { worker with pc := .asleep } }
    else none
  | .wake => if worker.pc = .asleep then some { s with workers := s.workers.set w { worker with pc := .ready } } else none
  | .exit =>
    if worker.pc = .ready ∧ (s.stop = true ∨ worker.stopRequested = true) then
      some { s with workers := s.workers.set w { worker with pc := .ended } }
    else none
  | .complete =>
    match worker.pc with
    | .running _ =>
        some { s with workers := s.workers.set w { worker with pc := if worker.stopRequested then .ended else .ready } }
    | _ => none

/-- A round of the walk: the call's next place, and the task it takes. -/
def visit (nWorker : Nat) (kept : List Nat) (task : Nat) (rest : List Nat) (processed : Nat) : Decision → Traversal × List Nat
  | .stop => (.merge (kept ++ task :: rest), [])
  | .take => (.walk kept rest processed, [task])
  | .keep => (if processed + 1 = nWorker then .batch (kept ++ [task]) rest else .walk (kept ++ [task]) rest (processed + 1), [])

/-- `TraverseWaitQueue`. -/
def traverseStep (nWorker : Nat) (s : State) (i : Nat) (d : Decision) : Traversal → Option State
  | .begin =>
    if s.drain then some { s with traversals := s.traversals.set i .done }
    else some { s with drain := true, taskQ := [], traversals := s.traversals.set i (.walk [] s.taskQ 0) }
  | .walk kept [] _ => some { s with traversals := s.traversals.set i (.merge kept) }
  | .walk kept (task :: rest) processed =>
    let (next, visited) := visit nWorker kept task rest processed d
    some { s with traversals := s.traversals.set i next, taken := s.taken ++ visited.map fun task => (i, task) }
  | .batch kept rest =>
    some { s with taskQ := s.taskQ ++ kept, traversals := s.traversals.set i (.walk [] rest 0), workers := s.workers.map notify }
  | .merge snapshot =>
    some { s with taskQ := s.taskQ ++ snapshot ++ s.taskPending, taskPending := [], drain := false,
                  traversals := s.traversals.set i .done, workers := s.workers.map notify }
  | .done => none

def newWorker : Worker := ⟨.ready, false⟩

def step (nWorker : Nat) (s : State) : Label → Option State
  | .pushList k => some (pushList s k)
  | .push waiter => push s waiter
  | .worker w act => s.workers[w]?.bind fun worker => workerStep s w worker act
  | .call => some { s with traversals := s.traversals ++ [.begin] }
  | .traverse i d => s.traversals[i]?.bind (traverseStep nWorker s i d)
  | .requestStop w => s.workers[w]?.map fun worker => { s with workers := s.workers.set w { worker with stopRequested := true } }
  | .addWorker => some { s with workers := s.workers ++ [newWorker] }
  | .destroy => some { s with stop := true, workers := s.workers.map notify }

/-- After `Run`. -/
def initial (nWorker : Nat) : State := ⟨[], [], false, false, List.replicate nWorker newWorker, [], 0, [], []⟩

def sys (nWorker : Nat) : System State Label := ⟨(· = initial nWorker), step nWorker⟩

/-! ## What is asked of it -/

def Traversal.snapshot : Traversal → List Nat
  | .walk kept rest _ => kept ++ rest
  | .batch kept rest => kept ++ rest
  | .merge snapshot => snapshot
  | .begin | .done => []

/-- The tasks not yet popped or taken, in the order in which they will be in the queue. -/
def State.waiting (s : State) : List Nat := s.taskQ ++ s.traversals.flatMap Traversal.snapshot ++ s.taskPending

/-- Every task pushed was popped by one worker, or taken by one call, or waits: one of these, and
    once. What was popped and what waits is in the order in which it was pushed. -/
structure Accounted (s : State) : Prop where
  once : (s.executed.map Prod.snd ++ s.taken.map Prod.snd ++ s.waiting).Perm (List.range s.pushed)
  ordered : (s.executed.map Prod.snd ++ s.waiting).Pairwise (· < ·)

/-- The task was popped or taken. -/
def Finished (s : State) (task : Nat) : Prop := (∃ w, (w, task) ∈ s.executed) ∨ ∃ i, (i, task) ∈ s.taken

/-- Nobody is stopped. -/
def Undisturbed : State → Label → Prop
  | _, .requestStop _ | _, .destroy => False
  | _, _ => True

end UnifiedCache.Infra.ThreadPool
