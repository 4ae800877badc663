/-
  UnifiedCache.Detail.TaskWrapper — the submit/wait wrapper that the stores' engines share
  (ucm/store/detail/template/task_wrapper.h over ucm/shared/infra/thread/latch.h).

  A wrapper holds each task's latch counter, where its `Wait` is, and the set of failed task
  ids. Tasks are numbered in the order of `Submit`. One `Wait` takes the task out of `tasks_`;
  a further one returns NotFound without touching anything and is not a step here. Clocks are
  not modelled: `WaitFor` may time out at any moment at which the counter is not zero.

  An engine's steps are built from these: `done`, `abort` and `fail` are what its threads call,
  `waitStep` is what `Wait` does on its own. `isAio` is the virtual `IsAio()`: such an engine
  keeps the failure marks of its tasks.
-/

import Mathlib.Logic.Function.Basic

namespace UnifiedCache.Detail

/-- Where the `Wait` of a task is. -/
inductive WaitPc where
  | notCalled
  /-- In `WaitFor`. -/
  | waiting
  /-- In `Cancel`, after a timeout. -/
  | cancelling
  /-- In the `WaitForDuration` loop. -/
  | draining
  | returned
  deriving DecidableEq, Repr

structure TaskWrapper where
  nTask : Nat
  /-- `Latch::counter_`. -/
  counter : Nat → Nat
  wait : Nat → WaitPc
  failureSet : Nat → Bool

namespace TaskWrapper

def init : TaskWrapper := ⟨0, fun _ => 0, fun _ => .notCalled, fun _ => false⟩

variable (w : TaskWrapper)

/-- A new task, its latch set to `n`. -/
def submit (n : Nat) : TaskWrapper := { w with nTask := w.nTask + 1, counter := Function.update w.counter w.nTask n }

/-- `Latch::Up`. -/
def up (t : Nat) : TaskWrapper := { w with counter := Function.update w.counter t (w.counter t + 1) }

/-- `Latch::Done`: a counter at zero stays there. -/
def done (t : Nat) : TaskWrapper := { w with counter := Function.update w.counter t (w.counter t - 1) }

/-- `Latch::Abort`. -/
def abort (t : Nat) : TaskWrapper := { w with counter := Function.update w.counter t 0 }

/-- `failureSet_.Insert`. -/
def fail (t : Nat) : TaskWrapper := { w with failureSet := Function.update w.failureSet t true }

/-- `failureSet_.Insert` on a failure only. -/
def failIf (c : Bool) (t : Nat) : TaskWrapper := if c then w.fail t else w

/-- `failureSet_.Remove`. -/
def unfail (t : Nat) : TaskWrapper := { w with failureSet := Function.update w.failureSet t false }

def setWait (t : Nat) (pc : WaitPc) : TaskWrapper := { w with wait := Function.update w.wait t pc }

/-- `Wait` is left: the failure mark is read, and erased unless the engine is asynchronous. -/
def leaveWait (isAio : Bool) (t : Nat) : TaskWrapper := (if isAio then w else w.unfail t).setWait t .returned

end TaskWrapper

inductive WaitLabel where
  | call (t : Nat)
  /-- `WaitFor` returns true and `Wait` returns. -/
  | finished (t : Nat)
  /-- `WaitFor` returns false: the task is marked failed and `Cancel` is called. -/
  | timeout (t : Nat)
  /-- `Cancel` returns. -/
  | cancelled (t : Nat)
  /-- `WaitForDuration` returns true and `Wait` returns. -/
  | drained (t : Nat)

def waitStep (isAio : Bool) (w : TaskWrapper) : WaitLabel → Option TaskWrapper
  | .call t => if t < w.nTask ∧ w.wait t = .notCalled then some (w.setWait t .waiting) else none
  | .finished t => if w.wait t = .waiting ∧ w.counter t = 0 then some (w.leaveWait isAio t) else none
  | .timeout t => if w.wait t = .waiting ∧ w.counter t ≠ 0 then some ((w.fail t).setWait t .cancelling) else none
  | .cancelled t => if w.wait t = .cancelling then some (w.setWait t .draining) else none
  | .drained t => if w.wait t = .draining ∧ w.counter t = 0 then some (w.leaveWait isAio t) else none

inductive WaitStatus where
  | ok
  /-- `FailureStatus(t)`. -/
  | failure
  | timeout
  deriving DecidableEq, Repr

/-- What `Wait` returns with a step, and for which task. -/
def waitStatus (w : TaskWrapper) : WaitLabel → Option (Nat × WaitStatus)
  | .finished t => some (t, if w.failureSet t then .failure else .ok)
  | .drained t => some (t, .timeout)
  | _ => none

namespace TaskWrapper

variable (w : TaskWrapper) (n t t' : Nat) (c : Bool) (pc : WaitPc)

/-! ## Reading a wrapper after a call -/

@[simp] theorem submit_nTask : (w.submit n).nTask = w.nTask + 1 := rfl
@[simp] theorem submit_counter : (w.submit n).counter t = if t = w.nTask then n else w.counter t := Function.update_apply ..
@[simp] theorem submit_wait : (w.submit n).wait = w.wait := rfl
@[simp] theorem submit_failureSet : (w.submit n).failureSet = w.failureSet := rfl

@[simp] theorem up_nTask : (w.up t).nTask = w.nTask := rfl
@[simp] theorem up_counter : (w.up t).counter t' = if t' = t then w.counter t + 1 else w.counter t' := Function.update_apply ..
@[simp] theorem up_wait : (w.up t).wait = w.wait := rfl
@[simp] theorem up_failureSet : (w.up t).failureSet = w.failureSet := rfl

@[simp] theorem done_nTask : (w.done t).nTask = w.nTask := rfl
@[simp] theorem done_counter : (w.done t).counter t' = if t' = t then w.counter t - 1 else w.counter t' :=
    Function.update_apply ..
@[simp] theorem done_wait : (w.done t).wait = w.wait := rfl
@[simp] theorem done_failureSet : (w.done t).failureSet = w.failureSet := rfl

@[simp] theorem abort_nTask : (w.abort t).nTask = w.nTask := rfl
@[simp] theorem abort_counter : (w.abort t).counter t' = if t' = t then 0 else w.counter t' := Function.update_apply ..
@[simp] theorem abort_wait : (w.abort t).wait = w.wait := rfl
@[simp] theorem abort_failureSet : (w.abort t).failureSet = w.failureSet := rfl

@[simp] theorem fail_nTask : (w.fail t).nTask = w.nTask := rfl
@[simp] theorem fail_counter : (w.fail t).counter = w.counter := rfl
@[simp] theorem fail_wait : (w.fail t).wait = w.wait := rfl
@[simp] theorem fail_failureSet : (w.fail t).failureSet t' = if t' = t then true else w.failureSet t' := Function.update_apply ..

@[simp] theorem failIf_nTask : (w.failIf c t).nTask = w.nTask := by unfold failIf; split <;> rfl
@[simp] theorem failIf_counter : (w.failIf c t).counter = w.counter := by unfold failIf; split <;> rfl
@[simp] theorem failIf_wait : (w.failIf c t).wait = w.wait := by unfold failIf; split <;> rfl
@[simp] theorem failIf_failureSet :
    (w.failIf c t).failureSet t' = if t' = t ∧ c = true then true else w.failureSet t' := by
  unfold failIf
  split <;> simp [*]

@[simp] theorem setWait_nTask : (w.setWait t pc).nTask = w.nTask := rfl
@[simp] theorem setWait_counter : (w.setWait t pc).counter = w.counter := rfl
@[simp] theorem setWait_wait : (w.setWait t pc).wait t' = if t' = t then pc else w.wait t' := Function.update_apply ..
@[simp] theorem setWait_failureSet : (w.setWait t pc).failureSet = w.failureSet := rfl

@[simp] theorem leaveWait_nTask : (w.leaveWait c t).nTask = w.nTask := by unfold leaveWait; split <;> rfl
@[simp] theorem leaveWait_counter : (w.leaveWait c t).counter = w.counter := by unfold leaveWait; split <;> rfl
@[simp] theorem leaveWait_wait : (w.leaveWait c t).wait t' = if t' = t then .returned else w.wait t' := by
  unfold leaveWait
  split <;> simp [unfail]
@[simp] theorem leaveWait_failureSet :
    (w.leaveWait c t).failureSet t' = if t' = t ∧ c = false then false else w.failureSet t' := by
  unfold leaveWait
  split <;> simp [unfail, Function.update_apply, *]

end TaskWrapper

/-! ## What `Wait` does -/

/-- A step of `Wait` leaves the latches alone, and returns only at zero. -/
structure WaitKeeps (isAio : Bool) (w w' : TaskWrapper) : Prop where
  nTask : w'.nTask = w.nTask
  counter : w'.counter = w.counter
  returned : ∀ t, w'.wait t = .returned → w.wait t = .returned ∨ w.counter t = 0
  kept : ∀ t, w.wait t = .returned → w'.wait t = .returned
  called : ∀ t, w'.wait t ≠ .notCalled → w.wait t ≠ .notCalled ∨ t < w.nTask
  marks : ∀ t, w.failureSet t = true → w'.failureSet t = true ∨ isAio = false ∧ w'.wait t = .returned ∧ w.counter t = 0
  marks' : ∀ t, w'.failureSet t = true → w.failureSet t = true ∨ w.wait t = .waiting

theorem waitStep_keeps {isAio : Bool} {w w' : TaskWrapper} {l : WaitLabel} (h : waitStep isAio w l = some w') :
    WaitKeeps isAio w w' := by
  cases l with
  | call t =>
    simp only [waitStep, Option.ite_none_right_eq_some, Option.some.injEq] at h
    obtain ⟨⟨hlt, hpc⟩, rfl⟩ := h
    refine ⟨rfl, rfl, fun t' ht => ?_, fun t' ht => ?_, fun t' ht => ?_, fun t' ht => .inl ht, fun t' ht => .inl ht⟩
    all_goals by_cases e : t' = t <;> simp_all
  | finished t =>
    simp only [waitStep, Option.ite_none_right_eq_some, Option.some.injEq] at h
    obtain ⟨⟨hpc, hz⟩, rfl⟩ := h
    refine ⟨by simp, by simp, fun t' ht => ?_, fun t' ht => ?_, fun t' ht => ?_, fun t' ht => ?_, fun t' ht => ?_⟩
    all_goals by_cases e : t' = t <;> simp_all
  | timeout t =>
    simp only [waitStep, Option.ite_none_right_eq_some, Option.some.injEq] at h
    obtain ⟨⟨hpc, hz⟩, rfl⟩ := h
    refine ⟨rfl, rfl, fun t' ht => ?_, fun t' ht => ?_, fun t' ht => ?_, fun t' ht => ?_, fun t' ht => ?_⟩
    all_goals by_cases e : t' = t <;> simp_all
  | cancelled t =>
    simp only [waitStep, Option.ite_none_right_eq_some, Option.some.injEq] at h
    obtain ⟨hpc, rfl⟩ := h
    refine ⟨rfl, rfl, fun t' ht => ?_, fun t' ht => ?_, fun t' ht => ?_, fun t' ht => .inl ht, fun t' ht => .inl ht⟩
    all_goals by_cases e : t' = t <;> simp_all
  | drained t =>
    simp only [waitStep, Option.ite_none_right_eq_some, Option.some.injEq] at h
    obtain ⟨⟨hpc, hz⟩, rfl⟩ := h
    refine ⟨by simp, by simp, fun t' ht => ?_, fun t' ht => ?_, fun t' ht => ?_, fun t' ht => ?_, fun t' ht => ?_⟩
    all_goals by_cases e : t' = t <;> simp_all

end UnifiedCache.Detail
