/-
  UnifiedCache.PcStore.TransQueue — the tasks of the PcStore
  (ucm/store/pcstore/cc/domain/trans/{trans_manager.cc,trans_queue.cc,trans_share_queue.cc} over
  ucm/shared/infra/thread/thread_pool.h).

  Actors: callers of `Submit` (which dispatches) and `Wait`, the file workers, the device workers,
  the workers of the share queue, and the monitor of the file pool. A task has a block for each
  group of its addresses. A load goes to the file pool and, once read, to the device pool; where
  `rankSize > 1` it goes to the share queue. A dump is copied to the host by the dispatch, which
  then hands each block to the file pool and counts it.

  The pools take any of their blocks; that they take the oldest does not matter here. A worker
  function gets a copy of the block (`auto t`), so the `done` of a block that its file worker has
  moved on is still there for the monitor. Where a device copy of several addresses fails, the
  addresses before the one that failed may still be copied (`left`). Clocks are not modelled: the
  monitor may find any block that a file worker has not let go of.

  Ghost: how often a block has counted its waiter down.
-/

import UnifiedCache.Base.Transition
import UnifiedCache.Detail.Accounting

namespace UnifiedCache.PcStore

open UnifiedCache.Base UnifiedCache.Detail

inductive Kind where
  | load
  /-- A load in the share queue. -/
  | shareLoad
  | dump
  deriving DecidableEq

/-- Where a block is. -/
inductive Phase where
  | undispatched
  | queued
  /-- In a file worker's hands. -/
  | held
  /-- In `File::Read` or `File::Write`. -/
  | passed
  | devQueued
  | devHeld
  /-- In the share queue's `wait_`. -/
  | waiting
  /-- In `HandleLoadTask`. -/
  | taken
  /-- About to ask `Ready4Read` for the first time. -/
  | asking
  /-- In the share queue's `load_`. -/
  | loading
  /-- In `HandleReadyTask`, with the reader's status. -/
  | ready (ok : Bool)
  /-- In the copy to the device. -/
  | copying
  /-- About to insert its task to the failure set; `file`: still in its file worker's hands. -/
  | failing (file : Bool)
  /-- About to call `done`. -/
  | ending (file : Bool)
  | ended
  deriving DecidableEq

/-- What the monitor has done about a block. -/
inductive Timed where
  | no
  | found
  /-- The failure mark is set. -/
  | marked
  /-- `done(false)` is called. -/
  | ended
  deriving DecidableEq

structure Block where
  task : Nat
  kind : Kind
  phase : Phase
  /-- It is a file worker's `current`. -/
  current : Bool
  timed : Timed
  /-- Of a dump: the dispatch has called `Done` for it. -/
  told : Bool
  /-- A copy that failed has left addresses being copied. -/
  left : Bool
  counted : Nat
  deriving DecidableEq

/-- Where the dispatch of a task is. -/
inductive DispatchPc where
  /-- Of a load: each block is pushed on its own. -/
  | loops
  /-- Of a dump, before `Synchronized` has returned. -/
  | copying
  | synced
  | failed
  | returned
  deriving DecidableEq

structure Trans where
  wrapper : TaskWrapper
  nBlock : Nat
  block : Nat → Block
  dispatch : Nat → DispatchPc

/-! ## `Wait` -/

/-- `TransManager::Wait`. -/
def managerWait (w : TaskWrapper) : WaitLabel → Option TaskWrapper
  | .call t => if t < w.nTask ∧ w.wait t = .notCalled then some (w.setWait t .waiting) else none
  | .finished t => if w.wait t = .waiting ∧ w.counter t = 0 then some (w.leaveWait false t) else none
  | .timeout t => if w.wait t = .waiting ∧ w.counter t ≠ 0 then some ((w.fail t).setWait t .draining) else none
  | .cancelled _ => none
  | .drained t => if w.wait t = .draining ∧ w.counter t = 0 then some (w.leaveWait false t) else none

theorem managerWait_keeps {w w' : TaskWrapper} {l : WaitLabel} (h : managerWait w l = some w') : WaitKeeps false w w' := by
  cases l with
  | call t => exact waitStep_keeps (l := .call t) h
  | finished t => exact waitStep_keeps (l := .finished t) h
  | drained t => exact waitStep_keeps (l := .drained t) h
  | cancelled => cases h
  | timeout t =>
    simp only [managerWait, Option.ite_none_right_eq_some, Option.some.injEq] at h
    obtain ⟨⟨hpc, hz⟩, rfl⟩ := h
    refine ⟨rfl, rfl, fun t' ht => ?_, fun t' ht => ?_, fun t' ht => ?_, fun t' ht => ?_, fun t' ht => ?_⟩
    all_goals by_cases e : t' = t <;> simp_all

/-! ## Steps -/

inductive BlockLabel where
  /-- Pushed to its queue by the dispatch. -/
  | dispatch
  /-- The dispatch's `Done` for a dump's block. -/
  | told
  /-- The dispatch's `Done` where the copies of the dump have failed. -/
  | toldFailed
  /-- A file worker takes it. -/
  | take
  /-- The look at the failure set. -/
  | look
  /-- The read or write of the file returns. -/
  | file (ok : Bool)
  /-- A device worker takes it. -/
  | takeDevice
  /-- A worker of the share queue takes it. -/
  | takeShare
  /-- `Ready4Read`, `none` being Retry. -/
  | ask (status : Option Bool)
  /-- The copy to the device returns. -/
  | copy (ok left : Bool)
  | mark
  | done
  /-- The file worker resets its `current`. -/
  | letGo
  | timeout
  | timeoutMark
  | timeoutDone
  /-- The copies that were left are over. -/
  | copyEnds
  deriving DecidableEq

inductive TransLabel where
  | submit (isLoad : Bool) (n : Nat)
  | wait (l : WaitLabel)
  /-- `Synchronized` of a dump returns. -/
  | sync (t : Nat) (ok : Bool)
  | block (u : Nat) (l : BlockLabel)

namespace Trans

def init : Trans := ⟨.init, 0, fun _ => ⟨0, .load, .undispatched, false, .no, false, false, 0⟩, fun _ => .loops⟩

variable (s : Trans)

/-- `Submit`; `shared`: `rankSize > 1`. -/
def submit (shared isLoad : Bool) (n : Nat) : Trans where
  wrapper := s.wrapper.submit n
  nBlock := s.nBlock + n
  block u :=
    if s.nBlock ≤ u then
      ⟨s.wrapper.nTask, if isLoad then if shared then .shareLoad else .load else .dump, .undispatched, false, .no,
        false, false, 0⟩
    else s.block u
  dispatch := Function.update s.dispatch s.wrapper.nTask (if isLoad then .loops else .copying)

def setBlock (u : Nat) (x : Block) : Trans := { s with block := Function.update s.block u x }

def setPhase (u : Nat) (p : Phase) : Trans := s.setBlock u { s.block u with phase := p }

/-- `waiter->Done()`, with the block as it is afterwards. -/
def countDown (u : Nat) (x : Block) : Trans :=
  { s with
    wrapper := s.wrapper.done x.task
    block := Function.update s.block u { x with counted := x.counted + if 0 < s.wrapper.counter x.task then 1 else 0 } }

def marked (u : Nat) : Bool := s.wrapper.failureSet (s.block u).task

/-- `if (this->failureSet_->Contains(task.owner))` of the workers. -/
def look (u : Nat) : Option Trans :=
  match (s.block u).phase with
  | .held =>
    if s.marked u then some (s.setPhase u (if (s.block u).kind = .dump then .ended else .ending true))
      else some (s.setPhase u .passed)
  | .devHeld => some (s.setPhase u (if s.marked u then .ending false else .copying))
  | .taken => some (s.setPhase u (if s.marked u then .ending false else .asking))
  | .ready ok => some (s.setPhase u (if s.marked u then .ending false else if ok then .copying else .failing false))
  | _ => none

def blockStep (u : Nat) : BlockLabel → Option Trans
  | .dispatch =>
    match (s.block u).phase, (s.block u).kind with
    | .undispatched, .load => some (s.setPhase u .queued)
    | .undispatched, .shareLoad => some (s.setPhase u .waiting)
    | .undispatched, .dump => if s.dispatch (s.block u).task = .synced then some (s.setPhase u .queued) else none
    | _, _ => none
  | .told =>
    if (s.block u).kind = .dump ∧ (s.block u).phase ≠ .undispatched ∧ (s.block u).told = false then
      some (s.countDown u { s.block u with told := true })
    else none
  | .toldFailed =>
    if (s.block u).kind = .dump ∧ s.dispatch (s.block u).task = .failed then
      some { s.countDown u { s.block u with told := true } with
          dispatch := Function.update s.dispatch (s.block u).task .returned }
    else none
  | .take => if (s.block u).phase = .queued then some (s.setBlock u { s.block u with phase := .held, current := true }) else none
  | .look => s.look u
  | .file ok =>
    if (s.block u).phase = .passed then
      some (s.setPhase u (if (s.block u).kind = .dump then .ended else if ok then .devQueued else .failing true))
    else none
  | .takeDevice => if (s.block u).phase = .devQueued then some (s.setPhase u .devHeld) else none
  | .takeShare => if (s.block u).phase = .waiting then some (s.setPhase u .taken) else none
  | .ask status =>
    match (s.block u).phase, status with
    | .asking, none => some (s.setPhase u .loading)
    | .asking, some ok => some (s.setPhase u (.ready ok))
    | .loading, some ok => some (s.setPhase u (.ready ok))
    | _, _ => none
  | .copy ok left =>
    if (s.block u).phase = .copying ∧ (ok = true → left = false) then
      some (s.setBlock u { s.block u with phase := if ok then .ending false else .failing false, left })
    else none
  | .mark =>
    match (s.block u).phase with
    | .failing file => some { s.setPhase u (.ending file) with wrapper := s.wrapper.fail (s.block u).task }
    | _ => none
  | .done =>
    match (s.block u).phase with
    | .ending _ => some (s.countDown u { s.block u with phase := .ended })
    | _ => none
  | .letGo =>
    match (s.block u).phase with
    | .held | .passed | .failing true | .ending true => none
    | _ => if (s.block u).current then some (s.setBlock u { s.block u with current := false }) else none
  | .timeout =>
    if (s.block u).current = true ∧ (s.block u).timed = .no then some (s.setBlock u { s.block u with timed := .found }) else none
  | .timeoutMark =>
    if (s.block u).timed = .found then
      some { s.setBlock u { s.block u with timed := .marked } with
        wrapper := s.wrapper.failIf ((s.block u).kind ≠ .dump) (s.block u).task }
    else none
  | .timeoutDone =>
    if (s.block u).timed = .marked then
      if (s.block u).kind = .dump then some (s.setBlock u { s.block u with timed := .ended })
      else some (s.countDown u { s.block u with timed := .ended })
    else none
  | .copyEnds => if (s.block u).left = true then some (s.setBlock u { s.block u with left := false }) else none

end Trans

def transStep (shared : Bool) (s : Trans) : TransLabel → Option Trans
  | .submit isLoad n => some (s.submit shared isLoad n)
  | .wait l => (managerWait s.wrapper l).map fun w => { s with wrapper := w }
  | .sync t ok =>
    if t < s.wrapper.nTask ∧ s.dispatch t = .copying then
      some { s with
        dispatch := Function.update s.dispatch t (if ok then .synced else .failed)
        wrapper := s.wrapper.failIf (!ok) t }
    else none
  | .block u l => if u < s.nBlock then s.blockStep u l else none

def transQueue (shared : Bool) : System Trans TransLabel where
  init := (· = .init)
  step := transStep shared

end UnifiedCache.PcStore
