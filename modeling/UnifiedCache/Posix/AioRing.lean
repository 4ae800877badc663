/-
  UnifiedCache.Posix.AioRing — the completion thread of the AIO engine
  (ucm/store/posix/cc/aio_impl.{h,cc}).

  Actors: the callers of `ReadAsync`/`WriteAsync` (`track`, `ioSubmit`) and of `CancelTask`,
  the kernel (`complete` appends an event to the completion ring, `signal` then adds one to the
  eventfd), the destructor (`dtorStop`, then `dtorWrite`), and the completion thread: one step
  for each call of `CompletionLoop` and `HarvestCompletions` that can block or whose order
  against the other actors matters. The eventfd is the only descriptor in the epoll set.
  `iocbTable_` and `iocbToTag_` are one list of pairs; clocks are not modelled, so `MaybeSweep`
  is a step without effect and the sweep's cancellations are steps of their own.

  Proved:
  - `aio_no_empty_wait`: while the thread collects only events whose wake-ups it has read, and
    never the whole ring as one full batch, it enters `io_getevents` only on a ring with an
    event, and so can always go on.
  - `aio_waits_on_empty_ring`: a completion between the eventfd read and `io_getevents` leaves
    a wake-up behind for an emptied ring, and the thread waits there while an I/O is stuck.
-/

import Mathlib.Data.List.Nodup
import Mathlib.Data.List.Perm.Basic
import UnifiedCache.Base.Transition

namespace UnifiedCache.Posix

open UnifiedCache.Base

def batchCompleteSize : Nat := 512

def ecanceled : Int := 125

/-- `AioImpl::Result`. -/
structure AioResult where
  nBytes : Int
  error : Int
  deriving DecidableEq

/-- The fields of an `io_event` that are read; `obj` names the iocb, which also holds the callback. -/
structure IoEvent where
  obj : Nat
  res : Int
  deriving DecidableEq

/-- The result that a completion's callback gets. -/
def IoEvent.result (e : IoEvent) : AioResult := if e.res ≥ 0 then ⟨e.res, 0⟩ else ⟨-1, -e.res⟩

/-- Where the completion thread is. -/
inductive AioPc where
  /-- `while (!stop_)` of `CompletionLoop`. -/
  | checkStop
  | epollWait
  | readEventFd
  /-- `while (!stop_)` of `HarvestCompletions`. -/
  | harvest
  | getEvents
  /-- The loop over the `num` events of a batch, with those not handled yet. -/
  | handle (events : List IoEvent) (num : Nat)
  | maybeSweep
  | exited
  deriving DecidableEq

structure AioState where
  next : Nat
  /-- Iocbs tracked or about to be submitted, not yet accepted by the kernel. -/
  prepared : List Nat
  inflight : List Nat
  ring : List IoEvent
  /-- Completions in the ring whose eventfd signal is still to come. -/
  unsignalled : Nat
  eventFd : Nat
  iocbToTag : List (Nat × Nat)
  /-- Callbacks called, with their results. -/
  called : List (Nat × AioResult)
  stop : Bool
  dtorWrote : Bool
  pc : AioPc
  deriving DecidableEq

namespace AioState

def init : AioState where
  next := 0
  prepared := []
  inflight := []
  ring := []
  unsignalled := 0
  eventFd := 0
  iocbToTag := []
  called := []
  stop := false
  dtorWrote := false
  pc := .checkStop

variable (s : AioState)

def track (tag : Nat) : AioState :=
  { s with
    next := s.next + 1
    prepared := s.prepared ++ [s.next]
    iocbToTag := if tag = 0 then s.iocbToTag else s.iocbToTag ++ [(s.next, tag)] }

def untrack (cb : Nat) : AioState := { s with iocbToTag := s.iocbToTag.filter fun p => p.1 ≠ cb }

/-- `SubmitIo` returns; a failed submission is dropped by its caller. -/
def ioSubmit (cb : Nat) (ok : Bool) : AioState :=
  if ok then { s with prepared := s.prepared.erase cb, inflight := s.inflight ++ [cb] }
  else { s with prepared := s.prepared.erase cb }.untrack cb

def complete (cb : Nat) (res : Int) : AioState :=
  { s with inflight := s.inflight.erase cb, ring := s.ring ++ [⟨cb, res⟩], unsignalled := s.unsignalled + 1 }

def signal : AioState := { s with unsignalled := s.unsignalled - 1, eventFd := s.eventFd + 1 }

/-- The iocbs of a task that `CancelTask` cancels: tracked under its tag, and taken back by the
    kernel. -/
def cancelled (tag : Nat) (taken : List Nat) : List Nat :=
  s.inflight.filter fun cb => decide (cb ∈ taken) && decide ((cb, tag) ∈ s.iocbToTag)

/-- `CancelTask`. -/
def cancelTask (tag : Nat) (taken : List Nat) : AioState :=
  { s with
    inflight := s.inflight.filter fun cb => !(decide (cb ∈ taken) && decide ((cb, tag) ∈ s.iocbToTag))
    iocbToTag := s.iocbToTag.filter fun p => decide (p.1 ∉ s.cancelled tag taken)
    called := s.called ++ (s.cancelled tag taken).map fun cb => (cb, ⟨-1, ecanceled⟩) }

/-- One event of a batch: the callback, then the iocb is untracked and deleted. -/
def callback (e : IoEvent) (events : List IoEvent) (num : Nat) : AioState :=
  { s with called := s.called ++ [(e.obj, e.result)], pc := .handle events num }.untrack e.obj

/-- The completion thread's next step. In `io_getevents` it is blocked while the ring is empty. -/
def thread : Option AioState :=
  match s.pc with
  | .checkStop => some { s with pc := if s.stop then .exited else .epollWait }
  | .epollWait => some { s with pc := if 0 < s.eventFd then .readEventFd else .maybeSweep }
  | .readEventFd => some { s with eventFd := 0, pc := .harvest }
  | .harvest => some { s with pc := if s.stop then .maybeSweep else .getEvents }
  | .getEvents =>
    if s.ring = [] then none
    else some { s with
      ring := s.ring.drop batchCompleteSize
      pc := .handle (s.ring.take batchCompleteSize) (s.ring.take batchCompleteSize).length }
  | .handle (e :: events) num => some (s.callback e events num)
  | .handle [] num => some { s with pc := if num < batchCompleteSize then .maybeSweep else .harvest }
  | .maybeSweep => some { s with pc := .checkStop }
  | .exited => none

end AioState

inductive AioLabel where
  | track (tag : Nat)
  | ioSubmit (cb : Nat) (ok : Bool)
  | complete (cb : Nat) (res : Int)
  | signal
  | cancelTask (tag : Nat) (taken : List Nat)
  | dtorStop
  | dtorWrite
  | thread
  /-- `epoll_wait` or `io_getevents` returns -1. -/
  | interrupted

def aioStep (s : AioState) : AioLabel → Option AioState
  | .track tag => some (s.track tag)
  | .ioSubmit cb ok => if cb ∈ s.prepared then some (s.ioSubmit cb ok) else none
  | .complete cb res => if cb ∈ s.inflight then some (s.complete cb res) else none
  | .signal => if 0 < s.unsignalled then some s.signal else none
  | .cancelTask tag taken => some (s.cancelTask tag taken)
  | .dtorStop => some { s with stop := true }
  | .dtorWrite => if s.stop ∧ s.dtorWrote = false then some { s with eventFd := s.eventFd + 1, dtorWrote := true } else none
  | .thread => s.thread
  | .interrupted => if s.pc = .epollWait ∨ s.pc = .getEvents then some { s with pc := .maybeSweep } else none

def aioSystem : System AioState AioLabel where
  init := (· = .init)
  step := aioStep

/-! ## The ring at `io_getevents` -/

/-- The thread waits in `io_getevents` only for events that are there. -/
def NeverWaits (s : AioState) : Prop := s.pc = .getEvents → s.ring ≠ []

/-- When `io_getevents` returns, it leaves as many events as wake-ups are still to be read or
    sent, and the batch is not exactly the whole ring. -/
def CollectsRead (s : AioState) : AioLabel → Prop
  | .thread => s.pc = .getEvents → s.stop = false →
      s.eventFd + s.unsignalled + min batchCompleteSize s.ring.length ≤ s.ring.length ∧ s.ring.length ≠ batchCompleteSize
  | _ => True

instance : ∀ s a, Decidable (CollectsRead s a)
  | _, .thread => inferInstanceAs (Decidable (_ → _ → _))
  | _, .track _ | _, .ioSubmit _ _ | _, .complete _ _ | _, .signal | _, .cancelTask _ _ | _, .dtorStop | _, .dtorWrite
  | _, .interrupted => .isTrue trivial

/-- Wake-ups are covered by events in the ring, unless the destructor has asked to stop. -/
structure RingInv (s : AioState) : Prop where
  covered : s.stop = false → s.eventFd + s.unsignalled ≤ s.ring.length
  woken : s.pc = .readEventFd → 0 < s.eventFd
  harvest : s.pc = .harvest → s.stop = false → s.ring ≠ []
  getEvents : NeverWaits s
  full : ∀ events num, s.pc = .handle events num → num < batchCompleteSize ∨ s.stop = true ∨ s.ring ≠ []

section RingInv

variable {s s' : AioState}

/-- A step of another actor: the ring and the eventfd only grow. -/
theorem RingInv.env (h : RingInv s) (hpc : s'.pc = s.pc) (hring : s.ring ≠ [] → s'.ring ≠ [])
    (hstop : s'.stop = false → s.stop = false) (hfd : s.eventFd ≤ s'.eventFd)
    (hcov : s'.stop = false → s'.eventFd + s'.unsignalled ≤ s'.ring.length) : RingInv s' := by
  refine ⟨hcov, fun hp => ?_, fun hp hs => hring (h.harvest (hpc ▸ hp) (hstop hs)), fun hp => hring (h.getEvents (hpc ▸ hp)),
    fun events num hp => ?_⟩
  · have := h.woken (hpc ▸ hp)
    omega
  · rcases h.full events num (hpc ▸ hp) with h1 | h1 | h1
    · exact .inl h1
    · refine .inr (.inl ?_)
      by_contra hs
      rw [hstop (by simpa using hs)] at h1
      cases h1
    · exact .inr (.inr (hring h1))

theorem thread_ringInv (h : s.thread = some s') (hok : CollectsRead s .thread) (hi : RingInv s) : RingInv s' := by
  unfold AioState.thread at h
  split at h
  · obtain rfl := Option.some.inj h
    refine ⟨hi.covered, fun hp => ?_, fun hp => ?_, fun hp => ?_, fun events num hp => ?_⟩ <;>
      simp only at hp <;> split at hp <;> cases hp
  · -- `epoll_wait` reports the eventfd only when it is not zero
    obtain rfl := Option.some.inj h
    refine ⟨hi.covered, fun hp => ?_, fun hp => ?_, fun hp => ?_, fun events num hp => ?_⟩ <;>
      simp only at hp <;> split at hp
    case refine_1.isTrue hlt => exact hlt
    all_goals cases hp
  · next hpc =>
    -- a wake-up was read: an event covers it
    obtain rfl := Option.some.inj h
    have hfd := hi.woken hpc
    refine ⟨fun hs => ?_, nofun, fun _ hs => ?_, nofun, nofun⟩
    · have := hi.covered hs
      simp only
      omega
    · have := hi.covered hs
      exact List.ne_nil_of_length_pos (show 0 < s.ring.length by omega)
  · next hpc =>
    obtain rfl := Option.some.inj h
    refine ⟨hi.covered, fun hp => ?_, fun hp => ?_, fun hp => ?_, fun events num hp => ?_⟩ <;>
      simp only at hp <;> split at hp
    case refine_3.isFalse hs => exact hi.harvest hpc (by simpa using hs)
    all_goals cases hp
  · next hpc =>
    split at h
    · cases h
    next hne =>
    obtain rfl := Option.some.inj h
    refine ⟨fun hs => ?_, nofun, nofun, nofun, fun events num hp => ?_⟩
    · obtain ⟨hcov, -⟩ := hok hpc hs
      simp only [List.length_drop]
      omega
    · obtain ⟨rfl, rfl⟩ := AioPc.handle.inj hp
      by_cases hfull : s.ring.length < batchCompleteSize
      · exact .inl (by rw [List.length_take]; omega)
      · cases hs : s.stop with
        | true => exact .inr (.inl rfl)
        | false =>
          obtain ⟨-, hwhole⟩ := hok hpc hs
          exact .inr (.inr (List.ne_nil_of_length_pos (by simp only [List.length_drop]; omega)))
  · next e events num hpc =>
    obtain rfl := Option.some.inj h
    refine ⟨hi.covered, nofun, nofun, nofun, fun events' num' hp => ?_⟩
    obtain ⟨rfl, rfl⟩ := AioPc.handle.inj hp
    exact hi.full _ _ hpc
  · next num hpc =>
    obtain rfl := Option.some.inj h
    refine ⟨hi.covered, fun hp => ?_, fun hp => ?_, fun hp => ?_, fun events num hp => ?_⟩ <;>
      simp only at hp <;> split at hp
    case refine_2.isFalse hfull =>
      intro hs
      rcases hi.full _ _ hpc with h1 | h1 | h1
      · exact absurd h1 hfull
      · rw [h1] at hs
        cases hs
      · exact h1
    all_goals cases hp
  · obtain rfl := Option.some.inj h
    exact ⟨hi.covered, nofun, nofun, nofun, nofun⟩
  · cases h

theorem step_ringInv {a : AioLabel} (h : aioStep s a = some s') (hok : CollectsRead s a) (hi : RingInv s) : RingInv s' := by
  cases a with
  | track tag =>
    obtain rfl := Option.some.inj h
    exact hi.env rfl id id (Nat.le_refl _) hi.covered
  | ioSubmit cb ok =>
    simp only [aioStep, Option.ite_none_right_eq_some, Option.some.injEq] at h
    obtain ⟨-, rfl⟩ := h
    unfold AioState.ioSubmit
    split <;> exact hi.env rfl id id (Nat.le_refl _) hi.covered
  | complete cb res =>
    simp only [aioStep, Option.ite_none_right_eq_some, Option.some.injEq] at h
    obtain ⟨-, rfl⟩ := h
    refine hi.env rfl (fun _ => by simp [AioState.complete]) id (Nat.le_refl _) fun hs => ?_
    have := hi.covered hs
    simp only [AioState.complete, List.length_append, List.length_singleton]
    omega
  | signal =>
    simp only [aioStep, Option.ite_none_right_eq_some, Option.some.injEq] at h
    obtain ⟨hpos, rfl⟩ := h
    refine hi.env rfl id id (Nat.le_succ _) fun hs => ?_
    have := hi.covered hs
    simp only [AioState.signal]
    omega
  | cancelTask tag taken =>
    obtain rfl := Option.some.inj h
    exact hi.env rfl id id (Nat.le_refl _) hi.covered
  | dtorStop =>
    obtain rfl := Option.some.inj h
    exact hi.env rfl id (nofun) (Nat.le_refl _) nofun
  | dtorWrite =>
    -- the destructor's own wake-up comes after its stop request
    simp only [aioStep, Option.ite_none_right_eq_some, Option.some.injEq] at h
    obtain ⟨⟨hstop, -⟩, rfl⟩ := h
    refine hi.env rfl id id (Nat.le_succ _) fun hs => ?_
    rw [hstop] at hs
    cases hs
  | thread => exact thread_ringInv h hok hi
  | interrupted =>
    simp only [aioStep, Option.ite_none_right_eq_some, Option.some.injEq] at h
    obtain ⟨-, rfl⟩ := h
    exact ⟨hi.covered, nofun, nofun, nofun, nofun⟩

/-- A thread that is not blocked in `io_getevents` has a step. -/
theorem thread_enabled (h : NeverWaits s) (hexit : s.pc ≠ .exited) : s.thread.isSome = true := by
  unfold AioState.thread
  split
  case h_5 hpc => rw [if_neg (h hpc)]; rfl
  case h_9 hpc => exact absurd hpc hexit
  all_goals rfl

/-- In a run whose batches collect only events whose wake-ups were read, the thread never waits
    on an empty ring: it always has a step, until it has seen the stop request. -/
theorem aio_no_empty_wait (h : Reach aioSystem CollectsRead s) :
    NeverWaits s ∧ (s.pc ≠ .exited → s.thread.isSome = true) := by
  have hi : RingInv s := by
    refine h.inv (I := RingInv) (fun s hs => ?_) fun _ _ _ hi hok hst => step_ringInv hst hok hi
    rw [show s = .init from hs]
    exact ⟨fun _ => Nat.le_refl _, nofun, nofun, nofun, nofun⟩
  exact ⟨hi.getEvents, thread_enabled hi.getEvents⟩

end RingInv

/-- A completion that lands while the thread is in `epoll_wait`. -/
def quietTrace : List AioLabel :=
  [.track 1, .ioSubmit 0 true, .thread, .complete 0 4096, .signal, .thread, .thread, .thread]

theorem aio_no_empty_wait_quiet : ∃ s, Reach aioSystem CollectsRead s ∧ (s.pc = .getEvents ∧ s.ring.length = 1) ∧
    (NeverWaits s ∧ (s.pc ≠ .exited → s.thread.isSome = true)) := by
  obtain ⟨s, hr, hs⟩ := exists_of_replayOk (fun s a => decide (CollectsRead s a)) (fun _ _ => of_decide_eq_true)
      (S := aioSystem) quietTrace (s := .init)
    (p := fun s => decide (s.pc = .getEvents ∧ s.ring.length = 1)) rfl (by decide)
  exact ⟨s, hr, of_decide_eq_true hs, aio_no_empty_wait hr⟩

/-- The second completion lands between the eventfd read and `io_getevents`; the third I/O is
    stuck. -/
def emptyRingTrace : List AioLabel :=
  [.track 1, .track 1, .track 1, .ioSubmit 0 true, .ioSubmit 1 true, .ioSubmit 2 true, .complete 0 4096, .signal,
    .thread, .thread, .thread, .complete 1 4096, .signal,
    -- both events are collected and handled
    .thread, .thread, .thread, .thread, .thread, .thread,
    -- the wake-up of the second one is left
    .thread, .thread, .thread, .thread]

theorem aio_waits_on_empty_ring : ∃ s, Reach aioSystem Any s ∧
    (s.pc = .getEvents ∧ s.ring = [] ∧ s.inflight = [2]) := by
  obtain ⟨s, hr, hs⟩ := exists_of_replay (S := aioSystem) emptyRingTrace (s := .init)
    (p := fun s => decide (s.pc = .getEvents ∧ s.ring = [] ∧ s.inflight = [2])) rfl (by decide)
  exact ⟨s, hr, of_decide_eq_true hs⟩

end UnifiedCache.Posix
