/-
  UnifiedCache.Posix.StoreRuns — the runs of the Posix store, whichever engine it was set up
  with (see `UnifiedCache.Posix.PsyncRuns`, `UnifiedCache.Posix.AioRuns`).

  - `posix_io_settled`: units count down once and no I/O outlives `Wait`, but for units that a
    timeout gave up, in runs in which nobody comes back from a timeout to count again.
  - `posix_visible_complete`: an archived file has all its shards, in runs in which the last
    shard of a block is written after the others.

  Neither holds in all runs: in `psync_timeout_run` an I/O runs on after `Wait`, in
  `psync_early_commit_run` a file is committed with a hole.
-/

import UnifiedCache.Posix.AioRuns

namespace UnifiedCache.Posix

open UnifiedCache.Base UnifiedCache.Detail

/-! ## Counting -/

theorem posix_io_settled (n : Nat) :
    (∀ s, Reach (psync n) StuckOnly s → ∀ u, u < s.nUnit → PsyncSettled s u) ∧
      ∀ s, Reach (aioEngine n) NoneSubmitting s → ∀ u, u < s.nUnit → AioSettled s u :=
  ⟨fun _ h _ hu => psync_accounted h hu, fun _ h _ hu => aio_accounted h hu⟩

/-- `StuckOnly` as a check. -/
def psyncStuckOnly (s : PsyncState) : PsyncLabel → Bool
  | .monitor u => decide ((s.unit u).phase.over = false ∨ s.wrapper.counter (s.unit u).task = 0)
  | .check u =>
    !s.wrapper.failureSet (s.unit u).task || decide ((s.unit u).abandoned = false ∨ s.wrapper.counter (s.unit u).task = 0)
  | .finish u => decide ((s.unit u).abandoned = false ∨ s.wrapper.counter (s.unit u).task = 0)
  | _ => true

theorem psyncStuckOnly_ok {s : PsyncState} {l : PsyncLabel} (h : psyncStuckOnly s l = true) : StuckOnly s l := by
  cases l with
  | check u =>
    intro hfail
    simpa [psyncStuckOnly, hfail] using h
  | monitor u | finish u =>
    unfold StuckOnly
    simpa [psyncStuckOnly] using h
  | _ => trivial

/-- The monitor times out a unit that is in the system call; its worker comes back after `Wait`. -/
def psyncLateTrace : List PsyncLabel :=
  [.submit .dump [⟨7, 0⟩], .take 0, .check 0, .openFile 0 true, .wait (.call 0), .monitor 0, .wait (.finished 0),
    .transfer 0 true,
    .commit 0 true, .finish 0]

/-- A task that is force-completed while its unit is in flight. -/
def aioAbortTrace : List AioEngineLabel :=
  [.submit .dump [⟨7, 0⟩], .take 0, .openFile 0 true, .check 0, .submitIo 0 true, .wait (.call 0), .wait (.timeout 0),
    .forceMark 0, .abort 0, .wait (.cancelled 0), .wait (.drained 0)]

def aioNoneSubmitting (s : AioEngine) : AioEngineLabel → Bool
  | .abort _ => decide (∀ u, u < s.nUnit → (s.unit u).phase.submitting = false)
  | _ => true

theorem aioNoneSubmitting_ok {s : AioEngine} {l : AioEngineLabel} (h : aioNoneSubmitting s l = true) :
    NoneSubmitting s l := by
  cases l with
  | abort t => exact fun u hu _ => of_decide_eq_true h u hu
  | _ => trivial

theorem posix_io_settled_timeouts : (∃ s, s.wrapper.wait 0 = .returned ∧ PsyncSettled s 0) ∧
    ∃ s, (s.wrapper.wait 0 = .returned ∧ (s.unit 0).phase.running = true) ∧ AioSettled s 0 := by
  refine ⟨?_, ?_⟩
  · obtain ⟨s, hr, hs⟩ := exists_of_replayOk (S := psync 2) psyncStuckOnly (fun _ _ => psyncStuckOnly_ok) psyncLateTrace
      (s := .init) (p := fun s => decide (s.wrapper.wait 0 = .returned ∧ 0 < s.nUnit)) rfl (by decide)
    obtain ⟨hw, hu⟩ := of_decide_eq_true hs
    exact ⟨s, hw, (posix_io_settled 2).1 s hr 0 hu⟩
  · obtain ⟨s, hr, hs⟩ := exists_of_replayOk (S := aioEngine 2) aioNoneSubmitting (fun _ _ => aioNoneSubmitting_ok)
      aioAbortTrace (s := .init)
      (p := fun s => decide ((s.wrapper.wait 0 = .returned ∧ (s.unit 0).phase.running = true) ∧ 0 < s.nUnit)) rfl (by decide)
    obtain ⟨hw, hu⟩ := of_decide_eq_true hs
    exact ⟨s, hw, (posix_io_settled 2).2 s hr 0 hu⟩

/-- The monitor times out a unit whose worker is in the system call; `Wait` returns. -/
def psyncTimeoutTrace : List PsyncLabel :=
  [.submit .dump [⟨0, 0⟩], .take 0, .check 0, .openFile 0 true, .wait (.call 0), .monitor 0, .wait (.finished 0)]

theorem psync_timeout_run : ∃ s, Reach (psync 2) Any s ∧
    (s.wrapper.wait 0 = .returned ∧ (s.unit 0).phase.running = true ∧ 0 < s.nUnit) := by
  obtain ⟨s, hr, hs⟩ := exists_of_replay (S := psync 2) psyncTimeoutTrace (s := .init)
    (p := fun s => decide (s.wrapper.wait 0 = .returned ∧ (s.unit 0).phase.running = true ∧ 0 < s.nUnit)) rfl (by decide)
  exact ⟨s, hr, of_decide_eq_true hs⟩

/-! ## Visibility -/

theorem posix_visible_complete (n : Nat) :
    (∀ s, Reach (psync n) (LastShardLast n) s → VisibleComplete n s.files) ∧
      ∀ s, Reach (aioEngine n) (AioLastShardLast n) s → VisibleComplete n s.files :=
  ⟨fun _ h => psync_visible h, fun _ h => aio_visible h⟩

/-- No writer of a last shard at an open that creates the file, and the others written at the
    last shard's write. -/
def psyncInOrder (n : Nat) (s : PsyncState) : PsyncLabel → Bool
  | .openFile u true => decide (s.files.activated (s.unit u).shard.owner ≠ none) ||
      decide (∀ v, v < s.nUnit → (s.unit v).phase = .queued ∨ (s.unit v).phase = .passed)
  | .transfer u true =>
    match (s.unit u).phase with
    | .opened ino => isLast n (s.unit u).shard.index == false || decide (∀ j, j < n - 1 → s.files.written ino j = true)
    | _ => true
  | _ => true

theorem psyncInOrder_ok {n : Nat} {s : PsyncState} {l : PsyncLabel} (h : psyncInOrder n s l = true) : LastShardLast n s l := by
  cases l with
  | openFile u ok =>
    cases ok with
    | false => trivial
    | true =>
      intro _ hnone
      simp only [psyncInOrder, hnone, ne_eq, not_true_eq_false, decide_false, Bool.false_or, decide_eq_true_eq] at h
      refine ⟨fun ino wrote hH => ?_, id⟩
      obtain ⟨v, hv, -, -, -, hp⟩ := hH
      rcases h v hv with hq | hq <;> rw [hq] at hp <;> simp at hp
  | transfer u ok =>
    cases ok with
    | false => trivial
    | true =>
      intro _ hlast ino hpc j hj
      simp only [psyncInOrder, hpc, hlast, Bool.or_eq_true, decide_eq_true_eq] at h
      rcases h with h | h
      · cases h
      · exact h j (by omega)
  | _ => trivial

/-- The same for the AIO engine. -/
def aioInOrder (n : Nat) (s : AioEngine) : AioEngineLabel → Bool
  | .openFile u true => decide (s.files.activated (s.unit u).shard.owner ≠ none) ||
      (decide (∀ v, v < s.nUnit → (s.unit v).phase = .queued ∨ (s.unit v).phase = .opening) && s.commits.isEmpty)
  | .complete u true =>
    match (s.unit u).phase with
    | .inflight ino => isLast n (s.unit u).shard.index == false || decide (∀ j, j < n - 1 → s.files.written ino j = true)
    | _ => true
  | _ => true

theorem aioInOrder_ok {n : Nat} {s : AioEngine} {l : AioEngineLabel} (h : aioInOrder n s l = true) :
    AioLastShardLast n s l := by
  cases l with
  | openFile u ok =>
    cases ok with
    | false => trivial
    | true =>
      intro _ hnone
      simp only [aioInOrder, hnone, ne_eq, not_true_eq_false, decide_false, Bool.false_or, Bool.and_eq_true,
        decide_eq_true_eq, List.isEmpty_iff] at h
      refine ⟨fun ino wrote hH => ?_, fun hc => ?_⟩
      · obtain ⟨v, hv, -, -, -, hp⟩ := hH
        rcases h.1 v hv with hq | hq <;> rw [hq] at hp <;> simp at hp
      · rw [AioEngine.committing, h.2] at hc
        cases hc
  | complete u ok =>
    cases ok with
    | false => trivial
    | true =>
      intro _ hlast ino hpc j hj
      simp only [aioInOrder, hpc, hlast, Bool.or_eq_true, decide_eq_true_eq] at h
      rcases h with h | h
      · cases h
      · exact h j (by omega)
  | _ => trivial

def psyncOrderedTrace : List PsyncLabel :=
  [.submit .dump [⟨7, 0⟩, ⟨7, 1⟩], .take 0, .check 0, .openFile 0 true, .transfer 0 true, .take 1, .check 1, .openFile 1 true,
    .transfer 1 true, .commit 1 true]

def aioOrderedTrace : List AioEngineLabel :=
  [.submit .dump [⟨7, 0⟩, ⟨7, 1⟩], .take 0, .openFile 0 true, .check 0, .submitIo 0 true, .take 1, .openFile 1 true, .check 1,
    .submitIo 1 true, .complete 0 true, .complete 1 true, .callback 1, .commit ⟨7, true⟩ true]

theorem posix_visible_complete_ordered : (∃ s : PsyncState, s.files.archived 7 = some 0 ∧ VisibleComplete 2 s.files) ∧
    ∃ s : AioEngine, s.files.archived 7 = some 0 ∧ VisibleComplete 2 s.files := by
  refine ⟨?_, ?_⟩
  · obtain ⟨s, hr, hs⟩ := exists_of_replayOk (S := psync 2) (psyncInOrder 2) (fun _ _ => psyncInOrder_ok) psyncOrderedTrace
      (s := .init) (p := fun s => decide (s.files.archived 7 = some 0)) rfl (by decide)
    exact ⟨s, of_decide_eq_true hs, (posix_visible_complete 2).1 s hr⟩
  · obtain ⟨s, hr, hs⟩ := exists_of_replayOk (S := aioEngine 2) (aioInOrder 2) (fun _ _ => aioInOrder_ok) aioOrderedTrace
      (s := .init) (p := fun s => decide (s.files.archived 7 = some 0)) rfl (by decide)
    exact ⟨s, of_decide_eq_true hs, (posix_visible_complete 2).2 s hr⟩

/-- The worker of the last shard is the first to finish. -/
def psyncEarlyCommitTrace : List PsyncLabel :=
  [.submit .dump [⟨7, 0⟩, ⟨7, 1⟩], .take 0, .take 1, .check 0, .check 1, .openFile 0 true, .openFile 1 true,
    .transfer 1 true, .commit 1 true]

theorem psync_early_commit_run : ∃ s, Reach (psync 2) Any s ∧ (s.files.archived 7 = some 0 ∧ s.files.written 0 0 = false) := by
  obtain ⟨s, hr, hs⟩ := exists_of_replay (S := psync 2) psyncEarlyCommitTrace (s := .init)
    (p := fun s => decide (s.files.archived 7 = some 0 ∧ s.files.written 0 0 = false)) rfl (by decide)
  exact ⟨s, hr, of_decide_eq_true hs⟩

end UnifiedCache.Posix
