/-
  UnifiedCache.Posix.AioRuns — what holds in the runs of the AIO engine
  (see `UnifiedCache.Posix.Aio`).

  - Counting (`aio_accounted`): in runs in which no unit is between its look at the failure set
    and its submission when its task's latch is aborted (`NoneSubmitting`), each unit counts its
    waiter down once, or its count went with the latch; and when `Wait` has returned, no I/O of
    the task is in flight but those that were so at the abort, and none will be submitted.
  - Visibility (`aio_visible`): in runs in which the last shard of a block is written last, an
    archived file has all its shards.
-/

import UnifiedCache.Posix.Aio
import UnifiedCache.Posix.PsyncRuns

namespace UnifiedCache.Posix

open UnifiedCache.Base UnifiedCache.Detail

/-! ## Counting -/

/-- The unit has yet to count its waiter down. -/
def AioUnit.pend (x : AioUnit) : Bool := decide (x.phase ≠ .finished) && !x.lost

/-- No unit is about to be submitted when its task's latch is aborted. -/
def NoneSubmitting (s : AioEngine) : AioEngineLabel → Prop
  | .abort t => ∀ u, u < s.nUnit → (s.unit u).task = t → (s.unit u).phase.submitting = false
  | _ => True

structure AioAcc (w : TaskWrapper) (nUnit : Nat) (unit : Nat → AioUnit) (force : Nat → ForcePc) : Prop where
  acc : Accounted w nUnit (fun u => (unit u).task) (fun u => (unit u).pend) (fun u => (unit u).lost) fun u => (unit u).counted
  forced : ∀ t, force t ≠ .notForced → t < w.nTask ∧ w.failureSet t = true
  drained : ∀ u, u < nUnit → force (unit u).task = .aborted → (unit u).pend = false
  lost : ∀ u, u < nUnit → (unit u).lost = true → force (unit u).task = .aborted
  quiet : ∀ u, u < nUnit → (unit u).lost = true →
    (unit u).phase.submitting = false ∧ ((unit u).phase.running = true → (unit u).abandoned = true)

namespace AioAcc

variable {w w' : TaskWrapper} {nUnit : Nat} {unit : Nat → AioUnit} {force : Nat → ForcePc}

/-- Reading an updated unit. -/
theorem update_cases {P : AioUnit → Prop} {u v : Nat} {x : AioUnit} (hx : v = u → P x) (hv : v ≠ u → P (unit v)) :
    P (Function.update unit u x v) := by
  by_cases e : v = u
  · subst e
    rw [Function.update_self]
    exact hx rfl
  · rw [Function.update_of_ne e]
    exact hv e

/-- A unit goes on to another phase. -/
theorem phase (h : AioAcc w nUnit unit force) {u : Nat} {phase : AioPhase} (hold : (unit u).phase ≠ .finished)
    (hnew : phase ≠ .finished)
    (hq : (unit u).lost = true → phase.submitting = false ∧ (phase.running = true → (unit u).abandoned = true)) :
    AioAcc w nUnit (Function.update unit u { unit u with phase }) force := by
  have hpend : ({ unit u with phase } : AioUnit).pend = (unit u).pend := by simp [AioUnit.pend, hold, hnew]
  refine ⟨h.acc.congr rfl rfl rfl (fun v _ => ?_) (fun v _ => ?_) (fun v _ => ?_) (fun v _ => ?_), h.forced, fun v hv => ?_,
    fun v hv => ?_, fun v hv => ?_⟩
  · exact update_cases (P := fun x => x.task = (unit v).task) (fun e => by rw [e]) fun _ => rfl
  · exact update_cases (P := fun x => x.pend = (unit v).pend) (fun e => by rw [e, hpend]) fun _ => rfl
  · exact update_cases (P := fun x => x.lost = (unit v).lost) (fun e => by rw [e]) fun _ => rfl
  · exact update_cases (P := fun x => x.counted = (unit v).counted) (fun e => by rw [e]) fun _ => rfl
  · refine update_cases (P := fun x => force x.task = .aborted → x.pend = false) (fun e ha => ?_) fun _ => h.drained v hv
    rw [hpend]
    exact h.drained u (e ▸ hv) ha
  · exact update_cases (P := fun x => x.lost = true → force x.task = .aborted) (fun e => e ▸ h.lost v hv) fun _ => h.lost v hv
  · exact update_cases (P := fun x => x.lost = true → x.phase.submitting = false ∧ (x.phase.running = true → x.abandoned = true))
      (fun _ => hq) fun _ => h.quiet v hv

/-- The failure set grows. -/
theorem mark (h : AioAcc w nUnit unit force) (hn : w'.nTask = w.nTask) (hc : w'.counter = w.counter) (hw : w'.wait = w.wait)
    (hf : ∀ t, w.failureSet t = true → w'.failureSet t = true) : AioAcc w' nUnit unit force :=
  ⟨h.acc.congr hn hc hw (fun _ _ => rfl) (fun _ _ => rfl) (fun _ _ => rfl) (fun _ _ => rfl),
    fun t ht => ⟨hn ▸ (h.forced t ht).1, hf t (h.forced t ht).2⟩, h.drained, h.lost, h.quiet⟩

/-- A unit ends: it counts, or its count was lost and the latch is at zero. -/
theorem countDown (h : AioAcc w nUnit unit force) {u : Nat} (hu : u < nUnit) (hold : (unit u).phase ≠ .finished) :
    AioAcc (w.done (unit u).task) nUnit (Function.update unit u
      { unit u with phase := .finished, counted := (unit u).counted + if 0 < w.counter (unit u).task then 1 else 0 }) force := by
  generalize hx : ({ unit u with
    phase := .finished, counted := (unit u).counted + if 0 < w.counter (unit u).task then 1 else 0 } : AioUnit) = x
  have htask : x.task = (unit u).task := by rw [← hx]
  have hlost : x.lost = (unit u).lost := by rw [← hx]
  have hphase : x.phase = .finished := by rw [← hx]
  have hend : x.pend = false := by unfold AioUnit.pend; rw [hphase]; rfl
  have hcount : x.counted = (unit u).counted + if 0 < w.counter (unit u).task then 1 else 0 := by rw [← hx]
  refine ⟨?_, h.forced, fun v hv => ?_, fun v hv => ?_, fun v hv => ?_⟩
  · cases hl : (unit u).lost with
    | false =>
      have hp : (unit u).pend = true := by simp [AioUnit.pend, hold, hl]
      have hpos := h.acc.counter_pos hu hp
      have hzero : (unit u).counted = 0 := by
        have := h.acc.counted u hu
        simpa [hp] using this
      refine h.acc.done hu hp hl rfl rfl rfl (fun v _ => ?_) ?_ (fun v _ hne => ?_) (fun v _ => ?_) ?_ fun v _ hne => ?_
      · exact update_cases (P := fun y => y.task = (unit v).task) (fun e => by rw [htask, e]) fun _ => rfl
      · rw [Function.update_self, hend]
      · rw [Function.update_of_ne hne]
      · exact update_cases (P := fun y => y.lost = (unit v).lost) (fun e => by rw [hlost, e]) fun _ => rfl
      · rw [Function.update_self, hcount, hzero, if_pos hpos]
      · rw [Function.update_of_ne hne]
    | true =>
      -- all units of the aborted task are over or lost
      have hz : w.counter (unit u).task = 0 := by
        rw [h.acc.counter]
        refine Nat.count_iff_forall_not.mpr fun v hv hc => ?_
        have := h.drained v hv (by rw [hc.1]; exact h.lost u hu hl)
        rw [this] at hc
        cases hc.2
      have hkeep : (w.done (unit u).task).counter = w.counter := by
        funext t
        rw [TaskWrapper.done_counter]
        split
        · next e => rw [e, hz]
        · rfl
      have hpu : (unit u).pend = false := h.drained u hu (h.lost u hu hl)
      refine h.acc.congr rfl hkeep rfl (fun v _ => ?_) (fun v _ => ?_) (fun v _ => ?_) fun v _ => ?_
      · exact update_cases (P := fun y => y.task = (unit v).task) (fun e => by rw [htask, e]) fun _ => rfl
      · exact update_cases (P := fun y => y.pend = (unit v).pend) (fun e => by rw [hend, e, hpu]) fun _ => rfl
      · exact update_cases (P := fun y => y.lost = (unit v).lost) (fun e => by rw [hlost, e]) fun _ => rfl
      · refine update_cases (P := fun y => y.counted = (unit v).counted) (fun e => ?_) fun _ => rfl
        rw [hcount, e, hz]
        rfl
  · exact update_cases (P := fun y => force y.task = .aborted → y.pend = false) (fun _ _ => hend) fun _ => h.drained v hv
  · exact update_cases (P := fun y => y.lost = true → force y.task = .aborted)
      (fun e hl => by rw [htask]; exact h.lost u hu (hlost ▸ hl)) fun _ => h.lost v hv
  · refine update_cases (P := fun y => y.lost = true → y.phase.submitting = false ∧ (y.phase.running = true → y.abandoned = true))
      (fun _ _ => ?_) fun _ => h.quiet v hv
    rw [hphase]
    exact ⟨rfl, nofun⟩

end AioAcc

section Accounted

variable {n : Nat} {s s' : AioEngine}

/-- The engine's bookkeeping of counts. -/
abbrev AioEngine.Acc (s : AioEngine) : Prop := AioAcc s.wrapper s.nUnit s.unit s.force

theorem Acc.fail (h : s.Acc) (u : Nat) : (s.fail u).Acc :=
  h.mark rfl rfl rfl fun t ht => by simp only [AioEngine.fail, TaskWrapper.fail_failureSet, ht, ite_self]

theorem Acc.handleFailure (h : s.Acc) {u : Nat} (hu : u < s.nUnit) (hold : (s.unit u).phase ≠ .finished) :
    (s.handleFailure n u).Acc := AioAcc.countDown (Acc.fail h u) hu hold

theorem Acc.submit (h : s.Acc) (type : TaskType) (shards : List Shard) : (s.submit type shards).Acc := by
  have hold : ∀ v, v < s.nUnit → (s.submit type shards).unit v = s.unit v := fun v hv => by
    simp only [AioEngine.submit]
    rw [if_neg (by omega)]
  have hnew : ∀ v, s.nUnit ≤ v → v < s.nUnit + shards.length → (s.submit type shards).unit v =
      ⟨s.wrapper.nTask, type, (shards[v - s.nUnit]?).getD ⟨0, 0⟩, .queued, false, false, 0⟩ := fun v h1 h2 => by
    simp only [AioEngine.submit]
    rw [if_pos ⟨h1, h2⟩]
  refine ⟨h.acc.submit shards.length (fun v hv => by rw [hold v hv]) (fun v hv => by rw [hold v hv])
    (fun v hv => by rw [hold v hv]) (fun v hv => by rw [hold v hv]) fun v h1 h2 => by rw [hnew v h1 h2]; exact ⟨rfl, rfl, rfl⟩,
    fun t ht => ?_, fun v hv hf => ?_, fun v hv hl => ?_, fun v hv hl => ?_⟩
  · obtain ⟨h1, h2⟩ := h.forced t ht
    exact ⟨Nat.lt_succ_of_lt h1, h2⟩
  all_goals by_cases hlt : v < s.nUnit
  · rw [hold v hlt] at hf ⊢
    exact h.drained v hlt hf
  · -- the new task is not forced
    rw [hnew v (by omega) hv] at hf
    have hf' : s.force s.wrapper.nTask = .aborted := hf
    exact absurd (h.forced s.wrapper.nTask (by rw [hf']; decide)).1 (Nat.lt_irrefl _)
  · rw [hold v hlt] at hl ⊢
    exact h.lost v hlt hl
  · rw [hnew v (by omega) hv] at hl
    cases hl
  · rw [hold v hlt] at hl ⊢
    exact h.quiet v hlt hl
  · rw [hnew v (by omega) hv] at hl
    cases hl

/-- The latch of a task is aborted, with none of its units about to be submitted. -/
theorem Acc.abort (h : s.Acc) {t : Nat} (hf : s.force t = .cancelling)
    (hok : ∀ u, u < s.nUnit → (s.unit u).task = t → (s.unit u).phase.submitting = false) : (s.abort t).Acc := by
  have hunit : ∀ v, (s.abort t).unit v = if (s.unit v).task = t ∧ (s.unit v).phase ≠ .finished then
      { s.unit v with lost := true, abandoned := (s.unit v).abandoned || (s.unit v).phase.running } else s.unit v := fun _ => rfl
  have htask : ∀ v, ((s.abort t).unit v).task = (s.unit v).task := fun v => by rw [hunit]; split <;> rfl
  have hphase : ∀ v, ((s.abort t).unit v).phase = (s.unit v).phase := fun v => by rw [hunit]; split <;> rfl
  have hforce : ∀ t', (s.abort t).force t' = if t' = t then .aborted else s.force t' := fun t' => Function.update_apply ..
  have hpend : ∀ v, ((s.abort t).unit v).pend = if (s.unit v).task = t then false else (s.unit v).pend := fun v => by
    rw [hunit]
    unfold AioUnit.pend
    by_cases h1 : (s.unit v).task = t <;> by_cases h2 : (s.unit v).phase = .finished <;> simp [h1, h2]
  refine ⟨?_, fun t' ht' => ?_, fun v hv hfv => ?_, fun v hv hl => ?_, fun v hv hl => ?_⟩
  · refine (h.acc.abort t (fun v _ => hpend v) fun v hv => ?_).congr rfl rfl rfl (fun v _ => htask v) (fun _ _ => rfl)
      (fun _ _ => rfl) fun v _ => by rw [hunit]; split <;> rfl
    -- a unit of the task that was pending has not finished, and one that was not was lost before or had finished
    rw [hunit]
    unfold AioUnit.pend
    by_cases h1 : (s.unit v).task = t <;> by_cases h2 : (s.unit v).phase = .finished <;>
      cases hl : (s.unit v).lost <;> simp [h1, h2, hl]
  · rw [hforce] at ht'
    split at ht'
    · next e =>
      rw [e]
      exact h.forced t (by rw [hf]; decide)
    · exact h.forced t' ht'
  · rw [hpend]
    split
    · rfl
    · next hne =>
      rw [hforce, htask, if_neg hne] at hfv
      exact h.drained v hv hfv
  · rw [hforce, htask]
    split
    · rfl
    · next hne =>
      rw [hunit, if_neg fun hc => hne hc.1] at hl
      exact h.lost v hv hl
  · rw [hphase]
    by_cases hin : (s.unit v).task = t ∧ (s.unit v).phase ≠ .finished
    · refine ⟨hok v hv hin.1, fun hr => ?_⟩
      rw [hunit, if_pos hin]
      simp [hr]
    · rw [hunit, if_neg hin] at hl ⊢
      exact h.quiet v hv hl

theorem step_aioAcc {l : AioEngineLabel} (h : aioEngineStep n s l = some s') (hok : NoneSubmitting s l) (ha : s.Acc) :
    s'.Acc := by
  cases l with
  | submit type shards =>
    obtain rfl := Option.some.inj h
    exact Acc.submit ha type shards
  | wait l =>
    simp only [aioEngineStep, Option.map_eq_some_iff] at h
    obtain ⟨w, hw, rfl⟩ := h
    have hk := waitStep_keeps hw
    refine ⟨ha.acc.wait hk, fun t ht => ⟨hk.nTask ▸ (ha.forced t ht).1, ?_⟩, ha.drained, ha.lost, ha.quiet⟩
    -- an asynchronous engine keeps its failure marks
    rcases hk.marks t (ha.forced t ht).2 with hm | ⟨hno, -⟩
    · exact hm
    · cases hno
  | take u =>
    simp only [aioEngineStep, Option.ite_none_right_eq_some, Option.some.injEq] at h
    obtain ⟨⟨hu, hpc⟩, rfl⟩ := h
    exact ha.phase (by rw [hpc]; decide) nofun fun _ => ⟨rfl, nofun⟩
  | openFile u ok =>
    simp only [aioEngineStep, Option.ite_none_right_eq_some] at h
    obtain ⟨⟨hu, hpc⟩, h⟩ := h
    cases ok with
    | false =>
      obtain rfl := Option.some.inj h
      exact ha.phase (by rw [hpc]; decide) nofun fun _ => ⟨rfl, nofun⟩
    | true =>
      simp only [↓reduceIte, AioEngine.openOk] at h
      split at h
      · obtain rfl := Option.some.inj h
        exact ha.phase (by rw [hpc]; decide) nofun fun _ => ⟨rfl, nofun⟩
      · rw [Option.map_eq_some_iff] at h
        obtain ⟨ino, -, rfl⟩ := h
        exact ha.phase (by rw [hpc]; decide) nofun fun _ => ⟨rfl, nofun⟩
  | check u =>
    simp only [aioEngineStep] at h
    split at h
    · next hpc =>
      simp only [Option.ite_none_right_eq_some, Option.some.injEq] at h
      obtain ⟨hu, rfl⟩ := h
      exact Acc.handleFailure ha hu (by rw [hpc]; decide)
    · next ino hpc =>
      simp only [Option.ite_none_right_eq_some, Option.some.injEq] at h
      obtain ⟨hu, rfl⟩ := h
      unfold AioEngine.check
      split
      · exact AioAcc.countDown ha hu (by rw [hpc]; exact nofun)
      · next hno =>
        -- a lost unit's task is marked
        refine ha.phase (by rw [hpc]; exact nofun) nofun fun hl => ?_
        have hfa := ha.lost u hu hl
        exact absurd (ha.forced _ (by rw [hfa]; decide)).2 hno
    · cases h
  | submitIo u ok =>
    simp only [aioEngineStep] at h
    split at h
    · next ino hpc =>
      simp only [Option.ite_none_right_eq_some, Option.some.injEq] at h
      obtain ⟨hu, rfl⟩ := h
      split
      · refine ha.phase (by rw [hpc]; exact nofun) nofun fun hl => ?_
        have := (ha.quiet u hu hl).1
        rw [hpc] at this
        cases this
      · exact Acc.handleFailure ha hu (by rw [hpc]; exact nofun)
    · cases h
  | complete u ok =>
    simp only [aioEngineStep] at h
    split at h
    · next ino hpc =>
      simp only [Option.ite_none_right_eq_some, Option.some.injEq] at h
      obtain ⟨hu, rfl⟩ := h
      exact ha.phase (by rw [hpc]; exact nofun) nofun fun _ => ⟨rfl, nofun⟩
    · cases h
  | callback u =>
    simp only [aioEngineStep] at h
    split at h
    · next ino ok hpc =>
      simp only [Option.ite_none_right_eq_some, Option.some.injEq] at h
      obtain ⟨hu, rfl⟩ := h
      unfold AioEngine.onIoCallback
      cases ok with
      | true => exact AioAcc.countDown ha hu (by rw [hpc]; exact nofun)
      | false => exact AioAcc.countDown (Acc.fail ha u) hu (by show (s.unit u).phase ≠ _; rw [hpc]; exact nofun)
    · cases h
  | commit c renamed =>
    simp only [aioEngineStep, Option.ite_none_right_eq_some, Option.some.injEq] at h
    obtain ⟨-, rfl⟩ := h
    exact ha
  | forceMark t =>
    simp only [aioEngineStep, Option.ite_none_right_eq_some, Option.some.injEq] at h
    obtain ⟨⟨hlt, hf⟩, rfl⟩ := h
    have hforce : ∀ t', Function.update s.force t ForcePc.cancelling t' = .aborted → s.force t' = .aborted := by
      intro t' ht'
      rw [Function.update_apply] at ht'
      split at ht'
      · cases ht'
      · exact ht'
    refine ⟨ha.acc.congr rfl rfl rfl (fun _ _ => rfl) (fun _ _ => rfl) (fun _ _ => rfl) (fun _ _ => rfl), fun t' ht' => ?_,
      fun v hv hfv => ha.drained v hv (hforce _ hfv), fun v hv hl => ?_, ha.quiet⟩
    · simp only [TaskWrapper.fail_failureSet]
      by_cases e : t' = t
      · rw [e]
        exact ⟨hlt, if_pos rfl⟩
      · simp only [Function.update_of_ne e] at ht'
        rw [if_neg e]
        exact ha.forced t' ht'
    · have hfa := ha.lost v hv hl
      simp only [Function.update_apply]
      rw [if_neg]
      · exact hfa
      · intro e
        rw [e, hf] at hfa
        cases hfa
  | cancelIo u =>
    simp only [aioEngineStep] at h
    split at h
    · next ino hpc =>
      simp only [Option.ite_none_right_eq_some, Option.some.injEq] at h
      obtain ⟨-, rfl⟩ := h
      exact ha.phase (by rw [hpc]; exact nofun) nofun fun _ => ⟨rfl, nofun⟩
    · cases h
  | purge u =>
    simp only [aioEngineStep, Option.ite_none_right_eq_some, Option.some.injEq] at h
    obtain ⟨⟨-, hpc, -⟩, rfl⟩ := h
    exact ha.phase (by rw [hpc]; decide) nofun fun _ => ⟨rfl, nofun⟩
  | abort t =>
    simp only [aioEngineStep, Option.ite_none_right_eq_some, Option.some.injEq] at h
    obtain ⟨hf, rfl⟩ := h
    exact Acc.abort ha hf hok
  | gc b =>
    obtain rfl := Option.some.inj h
    exact ha

/-- What a unit may still do after the `Wait` of its task has returned. -/
structure AioSettled (s : AioEngine) (u : Nat) : Prop where
  atMostOnce : (s.unit u).counted ≤ 1
  once : s.wrapper.wait (s.unit u).task = .returned → (s.unit u).counted = 1 ∨ (s.unit u).lost = true
  forced : (s.unit u).lost = true → s.force (s.unit u).task = .aborted
  quiet : s.wrapper.wait (s.unit u).task = .returned →
    (s.unit u).phase.submitting = false ∧ ((s.unit u).phase.running = true → (s.unit u).abandoned = true)

theorem aio_accounted (h : Reach (aioEngine n) NoneSubmitting s) {u : Nat} (hu : u < s.nUnit) : AioSettled s u := by
  have ha : s.Acc := by
    refine h.inv (I := AioEngine.Acc) (fun s hs => ?_) fun _ _ _ ha hok hst => step_aioAcc hst hok ha
    rw [show s = .init from hs]
    exact ⟨.init, fun t ht => absurd rfl ht, nofun, nofun, nofun⟩
  have hc := ha.acc.counted u hu
  refine ⟨?_, fun hr => ?_, ha.lost u hu, fun hr => ?_⟩
  · rw [hc]
    split <;> decide
  · have hp := ha.acc.settled hu hr
    cases hl : (s.unit u).lost with
    | true => exact .inr rfl
    | false => exact .inl (by simpa [hp, hl] using hc)
  · have hp : (s.unit u).pend = false := ha.acc.settled hu hr
    cases hl : (s.unit u).lost with
    | true => exact ha.quiet u hu hl
    | false =>
      have hfin : (s.unit u).phase = .finished := by simpa [AioUnit.pend, hl] using hp
      rw [hfin]
      exact ⟨rfl, nofun⟩

end Accounted

/-! ## Visibility -/

/-- A writer of a block's last shard between its open and its callback. -/
def AioUnit.Holds (n : Nat) (x : AioUnit) (b ino : Nat) (wrote : Bool) : Prop :=
  x.type = .dump ∧ x.shard.owner = b ∧ isLast n x.shard.index = true ∧
    ((x.phase = .opened ino ∨ x.phase = .passed ino ∨ x.phase = .inflight ino) ∧ wrote = false ∨
      x.phase = .completed ino true ∧ wrote = true)

def AioEngine.holders (n : Nat) (s : AioEngine) (b ino : Nat) (wrote : Bool) : Prop :=
  ∃ u, u < s.nUnit ∧ (s.unit u).Holds n b ino wrote

/-- The commit of the block's file is submitted. -/
def AioEngine.committing (s : AioEngine) (b : Nat) : Prop := (⟨b, true⟩ : CommitTask) ∈ s.commits

abbrev AioEngine.Safe (n : Nat) (s : AioEngine) : Prop := Posix.Safe n s.files (s.holders n) s.committing

/-- The last shard of a block is written after the others, and its activated file is not created
    anew beside a writer of the last shard or a submitted commit. -/
def AioLastShardLast (n : Nat) (s : AioEngine) : AioEngineLabel → Prop
  | .openFile u true => (s.unit u).type = .dump → CreatesAlone s.files (s.holders n) s.committing (s.unit u).shard.owner
  | .complete u true => (s.unit u).type = .dump → isLast n (s.unit u).shard.index = true →
      ∀ ino, (s.unit u).phase = .inflight ino → OthersWritten n s.files ino
  | _ => True

section Visible

variable {n : Nat} {s s' : AioEngine}

theorem aioHolders_update {b ino : Nat} {wrote : Bool} (h : s'.holders n b ino wrote) {u : Nat} {x : AioUnit}
    (hunit : s'.unit = Function.update s.unit u x) (hn : s'.nUnit = s.nUnit) :
    s.holders n b ino wrote ∨ x.Holds n b ino wrote := by
  obtain ⟨v, hv, hx⟩ := h
  rw [hunit] at hx
  by_cases e : v = u
  · subst e
    rw [Function.update_self] at hx
    exact .inr hx
  · rw [Function.update_of_ne e] at hx
    exact .inl ⟨v, hn ▸ hv, hx⟩

/-- A unit that changes into one that is not a writer. -/
theorem Safe.aioUnit (h : s.Safe n) {u : Nat} {x : AioUnit} (hunit : s'.unit = Function.update s.unit u x)
    (hn : s'.nUnit = s.nUnit) (hf : s'.files = s.files) (hc : ∀ b, s'.committing b → s.committing b)
    (hx : ∀ b ino wrote, ¬ x.Holds n b ino wrote) : s'.Safe n := by
  rw [AioEngine.Safe, hf]
  refine h.mono (fun b ino wrote hH => ?_) hc
  rcases aioHolders_update hH hunit hn with hH | hH
  · exact hH
  · exact absurd hH (hx b ino wrote)

theorem not_holds {x : AioUnit} (h : ∀ ino, x.phase ≠ .opened ino ∧ x.phase ≠ .passed ino ∧ x.phase ≠ .inflight ino ∧
    x.phase ≠ .completed ino true) (b ino : Nat) (wrote : Bool) : ¬ x.Holds n b ino wrote := by
  obtain ⟨h1, h2, h3, h4⟩ := h ino
  rintro ⟨-, -, -, ⟨hp | hp | hp, -⟩ | ⟨hp, -⟩⟩
  · exact h1 hp
  · exact h2 hp
  · exact h3 hp
  · exact h4 hp

theorem not_holds_finished {x : AioUnit} (h : x.phase = .finished) (b ino : Nat) (wrote : Bool) :
    ¬ x.Holds n b ino wrote := by
  refine not_holds (fun ino => ?_) b ino wrote
  rw [h]
  exact ⟨nofun, nofun, nofun, nofun⟩

/-- A unit that stays the writer it was. -/
theorem Safe.aioKeep (h : s.Safe n) {u : Nat} (hu : u < s.nUnit) {phase : AioPhase}
    (hx : ∀ b ino wrote, ({ s.unit u with phase } : AioUnit).Holds n b ino wrote → (s.unit u).Holds n b ino wrote) :
    (s.setPhase u phase).Safe n := by
  refine h.mono (fun b ino wrote hH => ?_) fun _ hc => hc
  rcases aioHolders_update (s := s) hH rfl rfl with hH | hH
  · exact hH
  · exact ⟨u, hu, hx b ino wrote hH⟩

/-- The commit of a failure is submitted, and the unit ends. -/
theorem Safe.commitFailed (h : s.Safe n) (u : Nat) : ((s.commitBlock n u false).countDown u).Safe n := by
  refine h.aioUnit rfl rfl rfl (fun b hc => ?_) (not_holds_finished rfl)
  simp only [AioEngine.committing, AioEngine.countDown, AioEngine.commitBlock] at hc ⊢
  split at hc
  · rcases List.mem_append.mp hc with hc | hc
    · exact hc
    · simp at hc
  · exact hc

theorem step_aioSafe {l : AioEngineLabel} (h : aioEngineStep n s l = some s') (hok : AioLastShardLast n s l) (hs : s.Safe n) :
    s'.Safe n := by
  cases l with
  | submit type shards =>
    obtain rfl := Option.some.inj h
    refine hs.mono (fun b ino wrote hH => ?_) fun _ hc => hc
    obtain ⟨v, hv, hx⟩ := hH
    by_cases hlt : v < s.nUnit
    · simp only [AioEngine.submit] at hx
      rw [if_neg (by omega)] at hx
      exact ⟨v, hlt, hx⟩
    · simp only [AioEngine.submit] at hx hv
      rw [if_pos ⟨by omega, hv⟩] at hx
      refine absurd hx (not_holds (fun _ => ?_) b ino wrote)
      exact ⟨nofun, nofun, nofun, nofun⟩
  | wait l =>
    simp only [aioEngineStep, Option.map_eq_some_iff] at h
    obtain ⟨w, hw, rfl⟩ := h
    exact hs
  | take u =>
    simp only [aioEngineStep, Option.ite_none_right_eq_some, Option.some.injEq] at h
    obtain ⟨-, rfl⟩ := h
    exact hs.aioUnit rfl rfl rfl (fun _ hc => hc) (not_holds fun _ => ⟨nofun, nofun, nofun, nofun⟩)
  | openFile u ok =>
    simp only [aioEngineStep, Option.ite_none_right_eq_some] at h
    obtain ⟨⟨hu, hpc⟩, h⟩ := h
    cases ok with
    | false =>
      obtain rfl := Option.some.inj h
      exact hs.aioUnit rfl rfl rfl (fun _ hc => hc) (not_holds fun _ => ⟨nofun, nofun, nofun, nofun⟩)
    | true =>
      simp only [↓reduceIte, AioEngine.openOk] at h
      split at h
      · next htype =>
        obtain rfl := Option.some.inj h
        have hopen := hok htype
        cases hlast : isLast n (s.unit u).shard.index with
        | true =>
          refine (hs.openLast hopen).mono (fun b ino wrote hH => ?_) fun _ hc => hc
          rcases aioHolders_update (s := s) hH rfl rfl with hH | ⟨-, rfl, -, ⟨hp | hp | hp, rfl⟩ | ⟨hp, -⟩⟩
          · exact .inl hH
          · exact .inr ⟨rfl, (AioPhase.opened.inj hp).symm, rfl⟩
          all_goals cases hp
        | false =>
          refine (hs.openActivated hopen).mono (fun b ino wrote hH => ?_) fun _ hc => hc
          rcases aioHolders_update (s := s) hH rfl rfl with hH | ⟨-, -, hl, -⟩
          · exact hH
          · rw [hlast] at hl
            cases hl
      · next htype =>
        rw [Option.map_eq_some_iff] at h
        obtain ⟨ino, -, rfl⟩ := h
        refine hs.mono (fun b ino wrote hH => ?_) fun _ hc => hc
        rcases aioHolders_update (s := s) hH rfl rfl with hH | ⟨ht, -⟩
        · exact hH
        · rw [htype] at ht
          cases ht
  | check u =>
    simp only [aioEngineStep] at h
    split at h
    · simp only [Option.ite_none_right_eq_some, Option.some.injEq] at h
      obtain ⟨hu, rfl⟩ := h
      exact Safe.commitFailed (s := s.fail u) hs u
    · next ino hpc =>
      simp only [Option.ite_none_right_eq_some, Option.some.injEq] at h
      obtain ⟨hu, rfl⟩ := h
      unfold AioEngine.check
      split
      · exact hs.commitFailed u
      · refine hs.aioKeep hu fun b ino' wrote hx => ?_
        obtain ⟨h1, h2, h3, ⟨hp | hp | hp, hw⟩ | ⟨hp, -⟩⟩ := hx
        · cases hp
        · obtain rfl := AioPhase.passed.inj hp
          exact ⟨h1, h2, h3, .inl ⟨.inl hpc, hw⟩⟩
        all_goals cases hp
    · cases h
  | submitIo u ok =>
    simp only [aioEngineStep] at h
    split at h
    · next ino hpc =>
      simp only [Option.ite_none_right_eq_some, Option.some.injEq] at h
      obtain ⟨hu, rfl⟩ := h
      split
      · refine hs.aioKeep hu fun b ino' wrote hx => ?_
        obtain ⟨h1, h2, h3, ⟨hp | hp | hp, hw⟩ | ⟨hp, -⟩⟩ := hx
        · cases hp
        · cases hp
        · obtain rfl := AioPhase.inflight.inj hp
          exact ⟨h1, h2, h3, .inl ⟨.inr (.inl hpc), hw⟩⟩
        · cases hp
      · exact Safe.commitFailed (s := s.fail u) hs u
    · cases h
  | complete u ok =>
    simp only [aioEngineStep] at h
    split at h
    · next ino hpc =>
      simp only [Option.ite_none_right_eq_some, Option.some.injEq] at h
      obtain ⟨hu, rfl⟩ := h
      unfold AioEngine.complete
      simp only
      split
      · next hdump =>
        cases hlast : isLast n (s.unit u).shard.index with
        | true =>
          have hH : s.holders n (s.unit u).shard.owner ino false :=
            ⟨u, hu, hdump.1, rfl, hlast, .inl ⟨.inr (.inr hpc), rfl⟩⟩
          obtain rfl : ok = true := hdump.2
          refine (hs.writeLast hH hlast (hok hdump.1 hlast ino hpc)).mono (fun b ino' wrote hH => ?_) fun _ hc => hc
          rcases aioHolders_update (s := s) hH rfl rfl with hH | ⟨-, rfl, -, ⟨hp | hp | hp, -⟩ | ⟨hp, rfl⟩⟩
          · exact .inl hH
          · cases hp
          · cases hp
          · cases hp
          · exact .inr ⟨rfl, (AioPhase.completed.inj hp).1.symm, rfl⟩
        | false =>
          refine (hs.writeShard ino _).mono (fun b ino' wrote hH => ?_) fun _ hc => hc
          rcases aioHolders_update (s := s) hH rfl rfl with hH | ⟨-, -, hl, -⟩
          · exact hH
          · rw [hlast] at hl
            cases hl
      · next hno =>
        refine hs.mono (fun b ino' wrote hH => ?_) fun _ hc => hc
        rcases aioHolders_update (s := s) hH rfl rfl with hH | ⟨ht, -, -, ⟨hp | hp | hp, -⟩ | ⟨hp, -⟩⟩
        · exact hH
        · cases hp
        · cases hp
        · cases hp
        · exact absurd ⟨ht, (AioPhase.completed.inj hp).2⟩ hno
    · cases h
  | callback u =>
    simp only [aioEngineStep] at h
    split at h
    · next ino ok hpc =>
      simp only [Option.ite_none_right_eq_some, Option.some.injEq] at h
      obtain ⟨hu, rfl⟩ := h
      unfold AioEngine.onIoCallback
      cases ok with
      | false =>
        -- the callback marks the task failed, so its commit is that of a failure
        have hfail : (s.fail u).wrapper.failureSet (s.unit u).task = true := by
          simp only [AioEngine.fail, TaskWrapper.fail_failureSet, ↓reduceIte]
        simp only [Bool.false_eq_true, ↓reduceIte, hfail, Bool.not_true]
        exact Safe.commitFailed (s := s.fail u) hs u
      | true =>
        simp only [↓reduceIte]
        cases hm : s.wrapper.failureSet (s.unit u).task with
        | true => exact hs.commitFailed u
        | false =>
          have hs' : Posix.Safe n s.files (s.holders n) ((s.commitBlock n u true).countDown u).committing := by
            by_cases hdump : (s.unit u).type = .dump ∧ isLast n (s.unit u).shard.index = true
            · have hH : s.holders n (s.unit u).shard.owner ino true := ⟨u, hu, hdump.1, rfl, hdump.2, .inr ⟨hpc, rfl⟩⟩
              refine (hs.submit hH).mono (fun _ _ _ hH => hH) fun b hc => ?_
              simp only [AioEngine.committing, AioEngine.countDown, AioEngine.commitBlock] at hc
              rw [if_pos hdump] at hc
              rcases List.mem_append.mp hc with hc | hc
              · exact .inl hc
              · exact .inr (by simpa using hc)
            · refine hs.mono (fun _ _ _ hH => hH) fun b hc => ?_
              simp only [AioEngine.committing, AioEngine.countDown, AioEngine.commitBlock] at hc
              rwa [if_neg hdump] at hc
          refine hs'.mono (fun b ino' wrote hH => ?_) fun _ hc => hc
          rcases aioHolders_update (s := s) hH rfl rfl with hH | hx
          · exact hH
          · exact absurd hx (not_holds_finished rfl b ino' wrote)
    · cases h
  | commit c renamed =>
    simp only [aioEngineStep, Option.ite_none_right_eq_some, Option.some.injEq] at h
    obtain ⟨hmem, rfl⟩ := h
    refine (hs.commitFile renamed fun hsucc => ?_).mono (fun _ _ _ hH => hH) fun b hc => List.mem_of_mem_erase hc
    obtain ⟨id, success⟩ := c
    subst hsucc
    exact hmem
  | forceMark t =>
    simp only [aioEngineStep, Option.ite_none_right_eq_some, Option.some.injEq] at h
    obtain ⟨-, rfl⟩ := h
    exact hs
  | cancelIo u =>
    simp only [aioEngineStep] at h
    split at h
    · simp only [Option.ite_none_right_eq_some, Option.some.injEq] at h
      obtain ⟨-, rfl⟩ := h
      exact hs.aioUnit rfl rfl rfl (fun _ hc => hc) (not_holds fun _ => ⟨nofun, nofun, nofun, nofun⟩)
    · cases h
  | purge u =>
    simp only [aioEngineStep, Option.ite_none_right_eq_some, Option.some.injEq] at h
    obtain ⟨-, rfl⟩ := h
    exact hs.aioUnit rfl rfl rfl (fun _ hc => hc) (not_holds fun _ => ⟨nofun, nofun, nofun, nofun⟩)
  | abort t =>
    -- abandoned writers go on
    simp only [aioEngineStep, Option.ite_none_right_eq_some, Option.some.injEq] at h
    obtain ⟨-, rfl⟩ := h
    refine hs.mono (fun b ino wrote hH => ?_) fun _ hc => hc
    obtain ⟨v, hv, hx⟩ := hH
    refine ⟨v, hv, ?_⟩
    unfold AioUnit.Holds AioEngine.abort at hx
    simp only at hx
    split at hx <;> exact hx
  | gc b =>
    obtain rfl := Option.some.inj h
    exact hs.removeFile b

theorem aio_visible (h : Reach (aioEngine n) (AioLastShardLast n) s) : VisibleComplete n s.files := by
  have hs : s.Safe n := by
    refine h.inv (I := AioEngine.Safe n) (fun s hs => ?_) fun _ _ _ hs hok hst => step_aioSafe hst hok hs
    rw [show s = .init from hs]
    refine ⟨nofun, fun b ino wrote hH => ?_, nofun⟩
    obtain ⟨u, hu, -⟩ := hH
    cases hu
  exact hs.visible

end Visible

end UnifiedCache.Posix
