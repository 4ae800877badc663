/-
  UnifiedCache.Mooncake.HostHolder — the copies that the load queue holds
  (see `UnifiedCache.Mooncake.HostQueues`).

  A task is over when it has been marked failed or its `Wait` has returned, and doomed when it is
  over or the transfer thread is about to mark it. In every run:
  - `OrderInv`: the jobs of a task are pushed in a row, which ends with the job that has the waiter
    unless the task is doomed;
  - `HolderInv`: a job is dropped with its copy synchronised, or its task is doomed; for a task that
    is not over, a latch at zero means that all of its jobs have been dropped.
-/

import UnifiedCache.Mooncake.HostTasks

namespace UnifiedCache.Mooncake

open UnifiedCache.Base UnifiedCache.Detail

variable {Byte : Type} {C : QueueConfig Byte} {s s' : Queues Byte} {l : QueueLabel Byte}

/-! ## Tasks that nobody will take for loaded -/

/-- The task has been marked failed, or was waited for. -/
def Queues.Over (s : Queues Byte) (t : Nat) : Prop := s.wrapper.failureSet t = true ∨ s.wrapper.wait t = .returned

/-- It is over, or its job is at the end of `TransferOneTask` with a failure. -/
def Queues.Doomed (s : Queues Byte) (t : Nat) : Prop :=
  s.Over t ∨ ∃ j, s.transfer = some j ∧ (s.job j).task = t ∧ (s.job j).pc = .finishing false

theorem over_congr {t : Nat} (h : s.Over t) (hw : s'.wrapper.wait = s.wrapper.wait)
    (hf : s.wrapper.failureSet t = true → s'.wrapper.failureSet t = true) : s'.Over t := by
  rcases h with h | h
  · exact .inl (hf h)
  · right
    rw [hw]
    exact h

theorem step_over {t : Nat} (h : s.Over t) (hs : queueStep C s l = some s') : s'.Over t := by
  cases l with
  | wait l =>
    obtain ⟨w, hw, rfl⟩ := Option.map_eq_some_iff.mp hs
    have hk := waitStep_keeps hw
    rcases h with h | h
    · rcases hk.marks t h with e | ⟨-, e, -⟩
      · exact .inl e
      · exact .inr e
    · exact .inr (hk.kept t h)
  | loader l =>
    simp only [queueStep] at hs
    split at hs
    · cases l <;> simp only [loaderStep] at hs <;> (repeat' split at hs) <;> first | cases hs; done | skip
      all_goals
        obtain rfl := Option.some.inj hs
        refine over_congr h ?_ ?_ <;> simp +contextual [Queues.endTask, Queues.leaveLoader, Queues.setPc, Queues.done,
          Queues.failUnless, Queues.setOwner]
    · cases hs
  | transfer l =>
    simp only [queueStep] at hs
    split at hs
    · cases l <;> simp only [transferStep] at hs <;> (repeat' split at hs) <;> first | cases hs; done | skip
      all_goals
        obtain rfl := Option.some.inj hs
        refine over_congr h ?_ ?_ <;> simp +contextual [Queues.dropJob, Queues.setJob, Queues.setOwner, Queues.done,
          Queues.clearHolder,
          Queues.syncCopies, Queues.failUnless]
    · cases hs
  | dumper l =>
    simp only [queueStep] at hs
    split at hs
    · cases l <;> simp only [dumperStep] at hs <;> (repeat' split at hs) <;> first | cases hs; done | skip
      all_goals
        obtain rfl := Option.some.inj hs
        refine over_congr h ?_ ?_ <;> simp +contextual [Queues.dumpFails, Queues.dropCtx, Queues.setPc, Queues.setOwner,
          Queues.done, Queues.failUnless]
    · cases hs
  | _ =>
    simp only [queueStep] at hs
    repeat' split at hs
    all_goals first | cases hs; done | skip
    all_goals
      obtain rfl := Option.some.inj hs
      refine over_congr h ?_ ?_ <;> simp +contextual [Queues.setPc, Queues.done, Queues.failUnless, Queues.setJob,
        Queues.dropJob, Queues.setOwner,
        Queues.dropCtx]

/-- A step of the load queue's threads. -/
def QueueLabel.ofLoadQueue : QueueLabel Byte → Bool
  | .loader _ | .take | .transfer _ => true
  | _ => false

/-- What the other steps leave as it is. -/
structure RestFrame (s s' : Queues Byte) : Prop where
  jobs : s'.nJob = s.nJob ∧ s'.head = s.head ∧ s'.transfer = s.transfer
  job : ∀ j, (s'.job j).task = (s.job j).task ∧ (s'.job j).shard = (s.job j).shard ∧ (s'.job j).buf = (s.job j).buf ∧
    (s'.job j).last = (s.job j).last ∧ (s'.job j).pc = (s.job j).pc ∧ (s'.job j).copy = (s.job j).copy
  loading : ∀ t, s.loader = some t → s'.loader = some t ∧ s'.task t = s.task t
  loader : ∀ t, s'.loader = some t → s.loader = some t ∨ (s'.task t).pc = .getting
  counter : ∀ j, j < s.nJob → s'.wrapper.counter (s.job j).task = s.wrapper.counter (s.job j).task

theorem rest_frame (hq : QueuesInv s) (hta : TasksInv s) (hl : l.ofLoadQueue = false) (hs : queueStep C s l = some s') :
    RestFrame s s' := by
  have hload := hq.dispatch.loader
  have hjob := hta.job
  cases l with
  | loader l => cases hl
  | transfer l => cases hl
  | take => cases hl
  | dumper l =>
    simp only [queueStep] at hs
    split at hs
    · next t ht =>
      have hf := dumper_frame ht hs
      have htype := (hq.dispatch.dumper t ht).2.1
      obtain ⟨hloader, hn, hj, hhead, htransfer⟩ := hf.rest
      refine ⟨⟨hn, hhead, htransfer⟩, fun j => ?_, fun t' ht' => ?_, fun t' ht' => ?_, fun j hlt => ?_⟩
      · rw [hj]
        exact ⟨rfl, rfl, rfl, rfl, rfl, rfl⟩
      · rw [hloader]
        exact ⟨ht', hf.task t' (hq.dispatch.ne ht' ht)⟩
      · rw [hloader] at ht'
        exact .inl ht'
      · apply (hf.counter.2 _ _).1
        intro e
        have hloads := (hjob j hlt).2.1
        rw [e, htype] at hloads
        cases hloads
    · cases hs
  | wait l =>
    obtain ⟨w, hw, rfl⟩ := Option.map_eq_some_iff.mp hs
    refine ⟨⟨rfl, rfl, rfl⟩, fun j => ⟨rfl, rfl, rfl, rfl, rfl, rfl⟩, fun t ht => ⟨ht, rfl⟩, fun t ht => .inl ht, fun j _ => ?_⟩
    exact congrFun (waitStep_keeps hw).counter _
  | submit type n full =>
    obtain rfl := Option.some.inj hs
    have hold : ∀ x t, t < s.wrapper.nTask → Function.update s.task s.wrapper.nTask x t = s.task t :=
        fun x t e => Function.update_of_ne e.ne ..
    split
    · refine ⟨⟨rfl, rfl, rfl⟩, fun _ => ⟨rfl, rfl, rfl, rfl, rfl, rfl⟩, fun t ht => ⟨ht, ?_⟩, fun _ ht => .inl ht,
        fun j hlt => ?_⟩
      · exact (Function.update_of_ne (hload t ht).1.ne ..).trans (hold _ t (hload t ht).1)
      · simp [Queues.setPc, Queues.done, Queues.failUnless, (hjob j hlt).1.ne]
    · refine ⟨⟨rfl, rfl, rfl⟩, fun _ => ⟨rfl, rfl, rfl, rfl, rfl, rfl⟩, fun t ht => ⟨ht, hold _ t (hload t ht).1⟩,
        fun _ ht => .inl ht, fun j hlt => ?_⟩
      simp [(hjob j hlt).1.ne]
  | takeLoad t =>
    simp only [queueStep] at hs
    split at hs
    · next hc =>
      have hidle : ∀ t', s.loader ≠ some t' := by simp [hc.2.2.2]
      split at hs
      · obtain rfl := Option.some.inj hs
        refine ⟨⟨rfl, rfl, rfl⟩, fun _ => ⟨rfl, rfl, rfl, rfl, rfl, rfl⟩, fun t' ht' => absurd ht' (hidle t'),
          fun _ ht => .inl ht, fun j hlt => ?_⟩
        -- a task that has jobs was taken before
        have hne : (s.job j).task ≠ t := fun e => (hjob j hlt).2.2.1 (e ▸ hc.2.2.1)
        simp [Queues.setPc, Queues.done, hne]
      · obtain rfl := Option.some.inj hs
        refine ⟨⟨rfl, rfl, rfl⟩, fun _ => ⟨rfl, rfl, rfl, rfl, rfl, rfl⟩, fun t' ht' => absurd ht' (hidle t'),
          fun t' ht' => .inr ?_, fun _ _ => rfl⟩
        obtain rfl := Option.some.inj ht'
        simp [Queues.setPc]
    · cases hs
  | takeDump t =>
    simp only [queueStep] at hs
    split at hs
    · next hc =>
      obtain rfl := Option.some.inj hs
      refine ⟨⟨rfl, rfl, rfl⟩, fun _ => ⟨rfl, rfl, rfl, rfl, rfl, rfl⟩,
        fun t' ht' => ⟨ht', Function.update_of_ne (fun e => ?_) ..⟩, fun _ ht => .inl ht,
        fun _ _ => rfl⟩
      have htype := (hload t' ht').2.1
      rw [e, hc.2.1] at htype
      cases htype
    · cases hs
  | endLoad j ok =>
    simp only [queueStep] at hs
    split at hs
    · obtain rfl := Option.some.inj hs
      refine ⟨⟨rfl, rfl, rfl⟩, fun k => ?_, fun _ ht => ⟨ht, rfl⟩, fun _ ht => .inl ht, fun _ _ => rfl⟩
      dsimp only [Queues.setJob]
      by_cases e : k = j
      · rw [e, Function.update_self]
        exact ⟨rfl, rfl, rfl, rfl, rfl, rfl⟩
      · rw [Function.update_of_ne e]
        exact ⟨rfl, rfl, rfl, rfl, rfl, rfl⟩
    · cases hs
  | _ =>
    simp only [queueStep] at hs
    split at hs
    · obtain rfl := Option.some.inj hs
      exact ⟨⟨rfl, rfl, rfl⟩, fun _ => ⟨rfl, rfl, rfl, rfl, rfl, rfl⟩, fun _ ht => ⟨ht, rfl⟩, fun _ ht => .inl ht, fun _ _ => rfl⟩
    · cases hs

theorem step_doomed {t : Nat} (h : s.Doomed t) (hq : QueuesInv s) (hta : TasksInv s) (hs : queueStep C s l = some s') :
    s'.Doomed t := by
  rcases h with h | ⟨j, hj, htask, hpc⟩
  · exact .inl (step_over h hs)
  · have hlt := hq.jobs.transfer_lt j hj
    cases l with
    | transfer l =>
      simp only [queueStep, hj] at hs
      -- it is at its end, where the mark is made
      cases l <;> simp only [transferStep, hpc] at hs <;> first | cases hs; done | skip
      left
      left
      obtain rfl := Option.some.inj hs
      subst htask
      split <;> simp [Queues.dropJob, Queues.setJob, Queues.setOwner, Queues.done, Queues.clearHolder, Queues.failUnless]
    | take =>
      simp only [queueStep, hj] at hs
      rw [if_neg (by simp)] at hs
      cases hs
    | loader l =>
      simp only [queueStep] at hs
      split at hs
      · next t' ht' =>
        have hf := hq.loader_frame ht' hs
        refine .inr ⟨j, hf.rest.2.1.trans hj, ?_, ?_⟩
        · rw [hf.job.2 j hlt]
          exact htask
        · rw [hf.job.2 j hlt]
          exact hpc
      · cases hs
    | _ =>
      have hf := rest_frame hq hta rfl hs
      obtain ⟨e1, -, -, -, e2, -⟩ := hf.job j
      exact .inr ⟨j, hf.jobs.2.2.trans hj, e1.trans htask, e2.trans hpc⟩

/-! ## The order of the jobs -/

/-- From `j` on, and below `n`, there is the job of its task that has the waiter. -/
def Queues.Ends (s : Queues Byte) (j n : Nat) : Prop := ∃ m, j ≤ m ∧ m < n ∧ (s.job m).task = (s.job j).task ∧
    (s.job m).last = true

theorem Ends.mono {j n n' : Nat} (h : s.Ends j n) (hn : n ≤ n') (hj : ∀ k, k < n → (s'.job k).task = (s.job k).task ∧
    (s'.job k).last = (s.job k).last) :
    s'.Ends j n' := by
  obtain ⟨m, hjm, hm, htask, hlast⟩ := h
  refine ⟨m, hjm, lt_of_lt_of_le hm hn, ?_, ?_⟩
  · rw [(hj m hm).1, (hj j (lt_of_le_of_lt hjm hm)).1]
    exact htask
  · rw [(hj m hm).2]
    exact hlast

theorem missCount_setPc (t : Nat) (pc : TaskPc) (t' : Nat) : (s.setPc t pc).missCount t' = s.missCount t' := by
  have htask : ((s.setPc t pc).task t').hit = (s.task t').hit ∧ ((s.setPc t pc).task t').nShard = (s.task t').nShard := by
    simp only [Queues.setPc]
    by_cases e : t' = t
    · rw [e, Function.update_self]
      exact ⟨rfl, rfl⟩
    · rw [Function.update_of_ne e]
      exact ⟨rfl, rfl⟩
  unfold Queues.missCount
  rw [htask.1, htask.2]

structure OrderInv (s : Queues Byte) : Prop where
  next : ∀ j, s.transfer = some j → s.head = j + 1
  pushing : ∀ t i p, s.loader = some t → ((s.task t).pc = .submitting i p ∨ ∃ b, (s.task t).pc = .acquired i p b) →
    i ≤ (s.task t).nShard ∧ (p = s.missCount t → ∀ j, j < s.nJob → (s.job j).task = t → s.Ends j s.nJob)
  /-- The jobs of a task that the dispatcher is done with. -/
  ended : ∀ j, j < s.nJob → s.loader ≠ some (s.job j).task → s.Doomed (s.job j).task ∨ s.Ends j s.nJob
  /-- A job with one of another task behind it. -/
  grouped : ∀ j k, j < k → k < s.nJob → (s.job k).task ≠ (s.job j).task → s.Doomed (s.job j).task ∨ s.Ends j k

/-- The jobs are where they were in the queue. -/
theorem OrderInv.congr (h : OrderInv s) (hjob : ∀ j, (s'.job j).task = (s.job j).task ∧ (s'.job j).last = (s.job j).last)
    (hn : s'.nJob = s.nJob)
    (hnext : ∀ j, s'.transfer = some j → s'.head = j + 1) (hd : ∀ t, s.Doomed t → s'.Doomed t)
    (hpush : ∀ t i p, s'.loader = some t → ((s'.task t).pc = .submitting i p ∨ ∃ b, (s'.task t).pc = .acquired i p b) →
      i ≤ (s'.task t).nShard ∧ (p = s'.missCount t → ∀ j, j < s.nJob → (s.job j).task = t → s.Ends j s.nJob))
    (hend : ∀ j, j < s.nJob → s'.loader ≠ some (s.job j).task → s.loader ≠ some (s.job j).task ∨ s'.Doomed (s.job j).task ∨
      s.Ends j s.nJob) :
    OrderInv s' := by
  have hends : ∀ {j n n'}, s.Ends j n → n ≤ n' → s'.Ends j n' := fun he hle => Ends.mono he hle fun k _ => hjob k
  refine ⟨hnext, fun t i p ht hpc => ?_, fun j hj ht => ?_, fun j k hjk hk hne => ?_⟩
  · obtain ⟨hi, hp⟩ := hpush t i p ht hpc
    refine ⟨hi, fun e j hj htask => ?_⟩
    rw [hn] at hj ⊢
    rw [(hjob j).1] at htask
    exact hends (hp e j hj htask) le_rfl
  · rw [hn] at hj ⊢
    rw [(hjob j).1] at ht ⊢
    rcases hend j hj ht with hl | hdoom | he
    · rcases h.ended j hj hl with hdoom | he
      · exact .inl (hd _ hdoom)
      · exact .inr (hends he le_rfl)
    · exact .inl hdoom
    · exact .inr (hends he le_rfl)
  · rw [hn] at hk
    rw [(hjob j).1, (hjob k).1] at hne
    rw [(hjob j).1]
    rcases h.grouped j k hjk hk hne with hdoom | he
    · exact .inl (hd _ hdoom)
    · exact .inr (hends he le_rfl)

/-- A shard is pushed: its job is the last of the queue, and of the dispatcher's task. -/
theorem OrderInv.push (h : OrderInv s) (hf : LoaderFrame t s s') (ht : s.loader = some t) {i p : Nat}
    (hi : i < (s.task t).nShard) (hn : s'.nJob = s.nJob + 1)
    (hlast : (s'.job s.nJob).task = t ∧ (s'.job s.nJob).last = decide (p + 1 = s.missCount t)) (hl : s'.loader = some t)
    (htask : s'.task t = { s.task t with pc := .submitting (i + 1) (p + 1) }) (hd : ∀ t, s.Doomed t → s'.Doomed t) :
    OrderInv s' := by
  obtain ⟨hnew, hlast⟩ := hlast
  have hold := hf.job.2
  have hends : ∀ {j n n'}, s.Ends j n → n ≤ s.nJob → n ≤ n' → s'.Ends j n' := by
    intro j n n' he hle hle'
    apply Ends.mono he hle'
    intro k hk
    rw [hold k (lt_of_lt_of_le hk hle)]
    exact ⟨rfl, rfl⟩
  have hmiss : s'.missCount t = s.missCount t := by
    unfold Queues.missCount
    rw [htask]
  refine ⟨fun j hj => ?_, fun t' i' p' ht' hpc' => ?_, fun j hj hne => ?_, fun j k hjk hk hne => ?_⟩
  · rw [hf.rest.2.1] at hj
    rw [hf.rest.1]
    exact h.next j hj
  · obtain rfl := Option.some.inj (hl.symm.trans ht')
    rw [htask] at hpc' ⊢
    rcases hpc' with e | ⟨b', e⟩
    · obtain ⟨rfl, rfl⟩ := TaskPc.submitting.inj e
      refine ⟨hi, fun he j hj hjt => ?_⟩
      rw [hmiss] at he
      rw [hn] at hj ⊢
      -- the job with the waiter has just come
      refine ⟨s.nJob, by omega, by omega, hnew.trans hjt.symm, ?_⟩
      rw [hlast]
      exact decide_eq_true he
    · cases e
  · rw [hn] at hj ⊢
    by_cases e : j = s.nJob
    · rw [e, hnew] at hne
      exact absurd hl hne
    · have hlt : j < s.nJob := by omega
      rw [hold j hlt] at hne ⊢
      rw [hl, ← ht] at hne
      rcases h.ended j hlt hne with hdoom | he
      · exact .inl (hd _ hdoom)
      · exact .inr (hends he le_rfl (by omega))
  · rw [hn] at hk
    have hlt : j < s.nJob := by omega
    rw [hold j hlt] at hne ⊢
    by_cases e : k = s.nJob
    · rw [e, hnew] at hne
      rw [e]
      rcases h.ended j hlt (by rw [ht]; exact fun he => hne (Option.some.inj he)) with hdoom | he
      · exact .inl (hd _ hdoom)
      · exact .inr (hends he le_rfl le_rfl)
    · have hk' : k < s.nJob := by omega
      rw [hold k hk'] at hne
      rcases h.grouped j k hjk hk' hne with hdoom | he
      · exact .inl (hd _ hdoom)
      · exact .inr (hends he (by omega) le_rfl)

theorem OrderInv.loaderStep {t : Nat} {l : LoaderLabel} (h : OrderInv s) (hq : QueuesInv s) (hta : TasksInv s)
    (ht : s.loader = some t)
    (hs : loaderStep C s t l = some s') : OrderInv s' := by
  have hf := hq.loader_frame ht hs
  have hd : ∀ t', s.Doomed t' →
      s'.Doomed t' := fun t' hdoom => step_doomed (l := .loader l) hdoom hq hta (by simpa only [queueStep, ht] using hs)
  have hself : ∀ x : QueueTask, Function.update s.task t x t = x := fun x => Function.update_self ..
  -- the jobs of the dispatcher's task are the only ones that are not ended
  have hother : ∀ j, (s.job j).task ≠ t → s.loader ≠ some (s.job j).task := by
    intro j hne e
    exact hne (Option.some.inj (ht.symm.trans e)).symm
  cases l with
  | get results =>
    simp only [Mooncake.loaderStep] at hs
    split at hs
    · next hpc =>
      have hno : ∀ j, j < s.nJob → (s.job j).task ≠ t := by
        intro j hj e
        subst e
        exact (hta.job j hj).2.2.2 hpc
      split at hs
      · obtain rfl := Option.some.inj hs
        exact h.congr (fun _ => ⟨rfl, rfl⟩) rfl h.next hd (by intros; contradiction) fun j hj _ => .inl (hother j (hno j hj))
      · split at hs
        · obtain rfl := Option.some.inj hs
          exact h.congr (fun _ => ⟨rfl, rfl⟩) rfl h.next hd (by intros; contradiction) fun j hj _ => .inl (hother j (hno j hj))
        · obtain rfl := Option.some.inj hs
          refine h.congr (fun _ => ⟨rfl, rfl⟩) rfl h.next hd (fun t' i p ht' hpc' => ?_) fun j hj _ => .inl (hother j (hno j hj))
          obtain rfl := Option.some.inj (ht.symm.trans ht')
          simp only [Queues.setPc, Function.update_self] at hpc' ⊢
          rcases hpc' with e | ⟨b, e⟩
          · obtain ⟨rfl, -⟩ := TaskPc.submitting.inj e
            exact ⟨Nat.zero_le _, fun _ j hj htask => absurd htask (hno j hj)⟩
          · cases e
    · cases hs
  | next =>
    simp only [Mooncake.loaderStep] at hs
    split at hs
    · next i p hpc =>
      obtain ⟨hle, hall⟩ := h.pushing t i p ht (.inl hpc)
      split at hs
      · next hi =>
        split at hs
        · obtain rfl := Option.some.inj hs
          refine h.congr (fun _ => ⟨rfl, rfl⟩) rfl h.next hd (fun t' i' p' ht' hpc' => ?_) fun _ _ hne => .inl hne
          obtain rfl := Option.some.inj (ht.symm.trans ht')
          rw [missCount_setPc]
          simp only [Queues.setPc, Function.update_self] at hpc' ⊢
          rcases hpc' with e | ⟨b, e⟩
          · obtain ⟨rfl, rfl⟩ := TaskPc.submitting.inj e
            exact ⟨hi, hall⟩
          · cases e
        · cases hs
      · -- all of the shards that were missed have been pushed
        next hi =>
        obtain rfl := Option.some.inj hs
        refine h.congr (fun _ => ⟨rfl, rfl⟩) rfl h.next hd (by intros; contradiction) fun j hj _ => ?_
        by_cases e : (s.job j).task = t
        · obtain rfl : i = (s.task t).nShard := by omega
          exact .inr (.inr (hall (hta.pushed t _ p ht (.inl hpc)).1 j hj e))
        · exact .inl (hother j e)
    · cases hs
  | acquire b =>
    simp only [Mooncake.loaderStep] at hs
    split at hs
    · next i p hpc =>
      split at hs
      · split at hs
        · next b =>
          split at hs
          · obtain rfl := Option.some.inj hs
            refine h.congr (fun _ => ⟨rfl, rfl⟩) rfl h.next hd (fun t' i' p' ht' hpc' => ?_) fun _ _ hne => .inl hne
            obtain rfl := Option.some.inj (ht.symm.trans ht')
            rw [missCount_setPc]
            simp only [Queues.setPc, Queues.setOwner, Function.update_self] at hpc' ⊢
            rcases hpc' with e | ⟨b', e⟩
            · cases e
            · obtain ⟨rfl, rfl, -⟩ := TaskPc.acquired.inj e
              exact h.pushing t i p ht (.inl hpc)
          · cases hs
        · obtain rfl := Option.some.inj hs
          refine h.congr (fun _ => ⟨rfl, rfl⟩) rfl h.next hd (by intros; contradiction) fun j hj _ => ?_
          by_cases e : (s.job j).task = t
          · refine .inr (.inl (.inl (.inl ?_)))
            simp [Queues.endTask, Queues.leaveLoader, Queues.setPc, Queues.done, Queues.failUnless, e]
          · exact .inl (hother j e)
      · cases hs
    · cases hs
  | load ok =>
    simp only [Mooncake.loaderStep] at hs
    split at hs
    · next i p b hpc =>
      split at hs
      · have hi := (hta.acquired t i p b ht hpc).1
        obtain rfl := Option.some.inj hs
        have hjob :
            Function.update s.job s.nJob (⟨t, i, b, decide (p + 1 = s.missCount t), .queued, .running, .none⟩ : Job) s.nJob = _ :=
          Function.update_self ..
        refine h.push hf ht (p := p) hi rfl ?_ ht (hself _) hd
        dsimp only
        rw [hjob]
        exact ⟨rfl, rfl⟩
      · obtain rfl := Option.some.inj hs
        refine h.congr (fun _ => ⟨rfl, rfl⟩) rfl h.next hd (by intros; contradiction) fun j hj _ => ?_
        by_cases e : (s.job j).task = t
        · refine .inr (.inl (.inl (.inl ?_)))
          simp [Queues.endTask, Queues.leaveLoader, Queues.setPc, Queues.done, Queues.failUnless, Queues.setOwner, e]
        · exact .inl (hother j e)
    · cases hs

theorem step_orderInv (h : OrderInv s) (hq : QueuesInv s) (hta : TasksInv s) (hs : queueStep C s l = some s') : OrderInv s' := by
  have hd : ∀ t, s.Doomed t → s'.Doomed t := fun _ hdoom => step_doomed hdoom hq hta hs
  cases l with
  | loader l =>
    simp only [queueStep] at hs
    split at hs
    · next t ht => exact h.loaderStep hq hta ht hs
    · cases hs
  | transfer l =>
    simp only [queueStep] at hs
    split at hs
    · next j ht =>
      have hf := hq.transfer_frame ht hs
      obtain ⟨htask, hl, -, hn, hhead, -⟩ := hf.rest
      have hmiss : s'.missCount = s.missCount := by
        funext t
        unfold Queues.missCount
        rw [htask]
      have hnext : ∀ k, s'.transfer = some k → s'.head = k + 1 := by
        intro k hk
        rw [hhead]
        apply h.next
        cases l <;> simp only [transferStep] at hs <;> (repeat' split at hs) <;> first | cases hs; done | skip
        all_goals
          obtain rfl := Option.some.inj hs
          first | exact hk | cases hk
      refine h.congr (fun k => ⟨(hf.job k).1, (hf.job k).2.2.2.1⟩) hn hnext hd (fun t i p ht' hpc => ?_) fun k _ hne => .inl ?_
      · rw [htask] at hpc ⊢
        rw [hmiss]
        exact h.pushing t i p (hl.symm.trans ht') hpc
      · rw [← hl]
        exact hne
    · cases hs
  | take =>
    simp only [queueStep] at hs
    split at hs
    · next hc =>
      have hjob : ∀ x k, x.task = (s.job s.head).task → x.last = (s.job s.head).last →
          (Function.update s.job s.head x k).task = (s.job k).task ∧
          (Function.update s.job s.head x k).last = (s.job k).last := by
        intro x k h1 h2
        by_cases e : k = s.head
        · rw [e, Function.update_self]
          exact ⟨h1, h2⟩
        · rw [Function.update_of_ne e]
          exact ⟨rfl, rfl⟩
      have hnone : ∀ k, s.transfer = some k → False := fun k hk => by rw [hc.2] at hk; cases hk
      split at hs
      · obtain rfl := Option.some.inj hs
        split
        · next hlast =>
          rw [if_pos hlast] at hd
          exact h.congr (fun k => hjob _ k rfl rfl) rfl (fun k hk => (hnone k hk).elim) hd h.pushing fun _ _ hne => .inl hne
        · next hlast =>
          rw [if_neg hlast] at hd
          exact h.congr (fun k => hjob _ k rfl rfl) rfl (fun k hk => (hnone k hk).elim) hd h.pushing fun _ _ hne => .inl hne
      · obtain rfl := Option.some.inj hs
        refine h.congr (fun k => hjob _ k rfl rfl) rfl (fun k hk => ?_) hd h.pushing fun _ _ hne => .inl hne
        obtain rfl := Option.some.inj hk
        rfl
    · cases hs
  | _ =>
    have hf := rest_frame hq hta rfl hs
    obtain ⟨hn, hhead, htr⟩ := hf.jobs
    refine h.congr (fun k => ⟨(hf.job k).1, (hf.job k).2.2.2.1⟩) hn (fun k hk => ?_) hd (fun t i p ht hpc => ?_) fun k _ hne =>
      .inl fun e => ?_
    · rw [hhead]
      exact h.next k (htr.symm.trans hk)
    · rcases hf.loader t ht with hl | hget
      · have htask := (hf.loading t hl).2
        have hmiss : s'.missCount t = s.missCount t := congrArg (fun y : QueueTask => y.misses y.nShard) htask
        rw [htask] at hpc ⊢
        rw [hmiss]
        exact h.pushing t i p hl hpc
      · rcases hpc with hpc | ⟨b, hpc⟩ <;> rw [hget] at hpc <;> cases hpc
    · exact hne (hf.loading _ e).1

/-! ## The holder -/

structure HolderInv (s : Queues Byte) : Prop where
  /-- The job that would have cleared the holder was skipped. -/
  skipped : ∀ k m, k ≤ m → m < s.head → s.transfer ≠ some m → (s.job k).pc = .held → (s.job m).task = (s.job k).task →
      (s.job m).last = true →
    s.Doomed (s.job k).task
  finished : ∀ j, s.transfer = some j → (s.job j).pc = .finishing true → ∀ k, k < s.nJob → (s.job k).pc ≠ .held
  dropped : ∀ j, j < s.nJob → (s.job j).pc = .dropped → (s.job j).copy = .synced true ∨ s.Doomed (s.job j).task
  counted : ∀ j, j < s.nJob → (s.job j).pc ≠ .dropped → s.wrapper.counter (s.job j).task ≠ 0 ∨ s.Over (s.job j).task

/-- The jobs that the transfer thread finds in its holder are of its own task, or of one that is doomed. -/
theorem HolderInv.other (h : HolderInv s) (hq : JobsInv s) (ho : OrderInv s) {j k : Nat} (ht : s.transfer = some j)
    (hk : k < s.nJob)
    (hpc : (s.job k).pc = .held) (hne : (s.job k).task ≠ (s.job j).task) : s.Doomed (s.job k).task := by
  have hhead := ho.next j ht
  have hlt : k < s.head := by
    by_contra hle
    have e := (hq.queued k hk).mpr (Nat.le_of_not_lt hle)
    rw [hpc] at e
    cases e
  have hkj : k ≠ j := by
    intro e
    subst e
    exact hne rfl
  rcases ho.grouped k j (by omega) (hq.transfer_lt j ht) (Ne.symm hne) with hdoom | ⟨m, hkm, hm, htask, hlast⟩
  · exact hdoom
  · apply h.skipped k m hkm (by omega) _ hpc htask hlast
    rw [ht]
    intro e
    obtain rfl := Option.some.inj e
    exact lt_irrefl _ hm

/-- The jobs go on: those that are dropped have been copied, and none comes into the holder with its waiter behind it. -/
theorem HolderInv.goesOn (h : HolderInv s) (hn : s'.nJob = s.nJob)
    (hjob : ∀ k, (s'.job k).task = (s.job k).task ∧ (s'.job k).last = (s.job k).last)
    (hover : ∀ t, s.Over t → s'.Over t) (hd : ∀ t, s.Doomed t → s'.Doomed t)
    (hpassed : ∀ m, m < s'.head → s'.transfer ≠ some m → (s.job m).last = true → m < s.head ∧ s.transfer ≠ some m ∨
      s'.Doomed (s.job m).task)
    (hheld : ∀ k, (s'.job k).pc = .held → (s.job k).pc = .held ∨ ∀ m, k ≤ m → m < s'.head → (s.job m).last = false)
    (hfinished : ∀ j, s'.transfer = some j → (s'.job j).pc = .finishing true → ∀ k, k < s.nJob → (s'.job k).pc ≠ .held)
    (hdropped : ∀ k, k < s.nJob → (s'.job k).pc = .dropped → (s'.job k).copy = .synced true ∨ s'.Doomed (s.job k).task)
    (hcounted : ∀ k, k < s.nJob → (s'.job k).pc ≠ .dropped → (s.job k).pc ≠ .dropped ∧
      (s'.wrapper.counter (s.job k).task = s.wrapper.counter (s.job k).task ∨ s'.Over (s.job k).task)) : HolderInv s' := by
  refine ⟨fun k m hkm hm hne hpc htask hlast => ?_, fun j hj hpc k hk => ?_, fun k hk hpc => ?_, fun k hk hpc => ?_⟩
  · rw [(hjob m).1, (hjob k).1] at htask
    rw [(hjob m).2] at hlast
    rw [(hjob k).1]
    rcases hheld k hpc with e | e
    · rcases hpassed m hm hne hlast with ⟨hm, hne⟩ | hdoom
      · exact hd _ (h.skipped k m hkm hm hne e htask hlast)
      · exact htask ▸ hdoom
    · rw [e m hkm hm] at hlast
      cases hlast
  · rw [hn] at hk
    exact hfinished j hj hpc k hk
  · rw [hn] at hk
    rw [(hjob k).1]
    exact hdropped k hk hpc
  · rw [hn] at hk
    rw [(hjob k).1]
    obtain ⟨hpc, e | e⟩ := hcounted k hk hpc
    · rw [e]
      exact (h.counted k hk hpc).imp id (hover _)
    · exact .inr e

/-- One job goes on. -/
theorem HolderInv.one (h : HolderInv s) {j : Nat} {x : Job} (hjob : s'.job = Function.update s.job j x) (hn : s'.nJob = s.nJob)
    (hx : x.task = (s.job j).task ∧ x.last = (s.job j).last) (hover : ∀ t, s.Over t → s'.Over t)
    (hd : ∀ t, s.Doomed t → s'.Doomed t)
    (hpassed : ∀ m, m < s'.head → s'.transfer ≠ some m → (s.job m).last = true → m < s.head ∧ s.transfer ≠ some m ∨
      s'.Doomed (s.job m).task)
    (hheld : x.pc = .held → ∀ m, j ≤ m → m < s'.head → (s.job m).last = false)
    (hfinishing : ∀ i, s'.transfer = some i → i = j ∧ x.pc ≠ .finishing true)
    (hdropped : x.pc = .dropped → s'.Doomed (s.job j).task) (hpc : (s.job j).pc ≠ .dropped)
    (hcounter : ∀ t, s'.wrapper.counter t = s.wrapper.counter t ∨ s'.Over t) : HolderInv s' := by
  have hself : s'.job j = x := by rw [hjob, Function.update_self]
  have hother : ∀ k, k ≠ j → s'.job k = s.job k := fun k e => by rw [hjob, Function.update_of_ne e]
  refine h.goesOn hn (fun k => ?_) hover hd hpassed (fun k hk => ?_) (fun i hi hfin => ?_) (fun k hk hdrop => ?_) fun k hk hne =>
    ⟨?_, hcounter _⟩
  · by_cases e : k = j
    · rw [e, hself]
      exact hx
    · rw [hother k e]
      exact ⟨rfl, rfl⟩
  · by_cases e : k = j
    · rw [e, hself] at hk
      rw [e]
      exact .inr (hheld hk)
    · rw [hother k e] at hk
      exact .inl hk
  · obtain ⟨rfl, hno⟩ := hfinishing i hi
    rw [hself] at hfin
    exact absurd hfin hno
  · by_cases e : k = j
    · rw [e, hself] at hdrop
      rw [e]
      exact .inr (hdropped hdrop)
    · rw [hother k e] at hdrop ⊢
      exact (h.dropped k hk hdrop).imp id (hd _)
  · by_cases e : k = j
    · rw [e]
      exact hpc
    · rw [hother k e] at hne
      exact hne

/-- Where the jobs are, and what they have copied, is as before. -/
theorem HolderInv.congr (h : HolderInv s) (hn : s'.nJob = s.nJob ∧ s'.head = s.head ∧ s'.transfer = s.transfer)
    (hjob : ∀ j, (s'.job j).task = (s.job j).task ∧ (s'.job j).last = (s.job j).last ∧ (s'.job j).pc = (s.job j).pc ∧
      (s'.job j).copy = (s.job j).copy)
    (hc : ∀ j, j < s.nJob → s'.wrapper.counter (s.job j).task = s.wrapper.counter (s.job j).task)
    (hover : ∀ t, s.Over t → s'.Over t) (hd : ∀ t, s.Doomed t → s'.Doomed t) : HolderInv s' := by
  obtain ⟨hn, hhead, htr⟩ := hn
  refine h.goesOn hn (fun k => ⟨(hjob k).1, (hjob k).2.1⟩) hover hd (fun m hm hne _ => .inl ⟨hhead ▸ hm, htr ▸ hne⟩)
    (fun k hk => ?_)
    (fun j hj hpc k hk => ?_) (fun k hk hdrop => ?_) fun k hk hne => ⟨?_, .inl (hc k hk)⟩
  · rw [(hjob k).2.2.1] at hk
    exact .inl hk
  · rw [htr] at hj
    rw [(hjob j).2.2.1] at hpc
    rw [(hjob k).2.2.1]
    exact h.finished j hj hpc k hk
  · rw [(hjob k).2.2.1] at hdrop
    rw [(hjob k).2.2.2]
    exact (h.dropped k hk hdrop).imp id (hd _)
  · rw [← (hjob k).2.2.1]
    exact hne

theorem HolderInv.loaderStep {t : Nat} {l : LoaderLabel} (h : HolderInv s) (hq : QueuesInv s) (hta : TasksInv s)
    (ht : s.loader = some t)
    (hs : loaderStep C s t l = some s') : HolderInv s' := by
  have hf := hq.loader_frame ht hs
  have hstep : queueStep C s (.loader l) = some s' := by simpa only [queueStep, ht] using hs
  have hd : ∀ t', s.Doomed t' → s'.Doomed t' := fun t' hdoom => step_doomed hdoom hq hta hstep
  have hold := hf.job.2
  obtain ⟨hhead, htr, -⟩ := hf.rest
  have hhead_le := hq.jobs.head_le
  -- a new job is queued
  have hnew : ∀ j, j < s'.nJob → (s'.job j).pc ≠ .queued → j < s.nJob := by
    intro j hj hpc
    by_contra hle
    obtain ⟨i, p, b, -, e, -⟩ := hf.pushed j (Nat.le_of_not_lt hle) hj
    rw [e] at hpc
    exact hpc rfl
  refine ⟨fun k m hkm hm hne hpc htask hlast => ?_, fun j hj hpc k hk hheld => ?_, fun j hj hpc => ?_, fun j hj hpc => ?_⟩
  · rw [hhead] at hm
    rw [htr] at hne
    rw [hold k (by omega)] at hpc htask ⊢
    rw [hold m (by omega)] at htask hlast
    exact hd _ (h.skipped k m hkm hm hne hpc htask hlast)
  · rw [htr] at hj
    rw [hold j (hq.jobs.transfer_lt j hj)] at hpc
    have hlt := hnew k hk (by rw [hheld]; simp)
    rw [hold k hlt] at hheld
    exact h.finished j hj hpc k hlt hheld
  · have hlt := hnew j hj (by rw [hpc]; simp)
    rw [hold j hlt] at hpc ⊢
    exact (h.dropped j hlt hpc).imp id (hd _)
  · by_cases hlt : j < s.nJob
    · rw [hold j hlt] at hpc ⊢
      rcases loader_down hta hs (s.job j).task with e | ⟨e, -, hno | ⟨-, hmark⟩⟩
      · rw [e]
        exact (h.counted j hlt hpc).imp id fun hover => step_over hover hstep
      · exact absurd e (hno j hlt)
      · rw [e]
        exact .inr (.inl hmark)
    · obtain ⟨i, p, b, hacq, e, -⟩ := hf.pushed j (Nat.le_of_not_lt hlt) hj
      rw [e]
      left
      rcases loader_down hta hs t with e' | ⟨-, e', -⟩
      · dsimp only
        rw [e']
        exact hta.pushed_up ht hacq
      · rw [e'] at hj
        exact absurd hj hlt

theorem HolderInv.take (h : HolderInv s) (hq : QueuesInv s) (hta : TasksInv s) (hs : queueStep C s .take = some s') :
    HolderInv s' := by
  have hd : ∀ t, s.Doomed t → s'.Doomed t := fun _ hdoom => step_doomed hdoom hq hta hs
  have hover : ∀ t, s.Over t → s'.Over t := fun _ hover => step_over hover hs
  have hmark : s.wrapper.failureSet (s.job s.head).task = true → s'.Over (s.job s.head).task := fun hfail => hover _ (.inl hfail)
  simp only [queueStep] at hs
  split at hs
  · next hc =>
    have hpc := (hq.jobs.queued s.head hc.1).mpr le_rfl
    have hne : (s.job s.head).pc ≠ .dropped := by simp [hpc]
    have hidle : ∀ m, s.transfer ≠ some m := by simp [hc.2]
    split at hs
    · next hfail =>
      obtain ⟨hjob, hn, hhead, htr, hcnt⟩ : s'.job = Function.update s.job s.head { s.job s.head with pc := .dropped } ∧
          s'.nJob = s.nJob ∧
          s'.head = s.head + 1 ∧ s'.transfer = s.transfer ∧
          ∀ t, t ≠ (s.job s.head).task → s'.wrapper.counter t = s.wrapper.counter t := by
        obtain rfl := Option.some.inj hs
        split
        · refine ⟨rfl, rfl, rfl, rfl, fun t ht => ?_⟩
          simp [Queues.dropJob, Queues.setJob, Queues.setOwner, Queues.done, ht]
        · exact ⟨rfl, rfl, rfl, rfl, fun t _ => rfl⟩
      refine h.one hjob hn ⟨rfl, rfl⟩ hover hd (fun m hm _ _ => ?_) (fun e => by cases e) (fun i hi => ?_)
        (fun _ => .inl (hmark hfail)) hne fun t => ?_
      · by_cases e : m = s.head
        · rw [e]
          exact .inr (.inl (hmark hfail))
        · exact .inl ⟨by omega, hidle m⟩
      · exact absurd (htr ▸ hi) (hidle i)
      · by_cases e : t = (s.job s.head).task
        · rw [e]
          exact .inr (hmark hfail)
        · exact .inl (hcnt t e)
    · obtain ⟨hjob, hn, hhead, htr, hcnt⟩ : s'.job = Function.update s.job s.head { s.job s.head with pc := .waiting } ∧
          s'.nJob = s.nJob ∧
          s'.head = s.head + 1 ∧ s'.transfer = some s.head ∧ s'.wrapper.counter = s.wrapper.counter := by
        obtain rfl := Option.some.inj hs
        exact ⟨rfl, rfl, rfl, rfl, rfl⟩
      refine h.one hjob hn ⟨rfl, rfl⟩ hover hd (fun m hm hm' _ => ?_) (fun e => by cases e) (fun i hi => ?_)
        (fun e => by cases e) hne fun t => ?_
      · have e : m ≠ s.head := fun e => hm' (e ▸ htr)
        exact .inl ⟨by omega, hidle m⟩
      · exact ⟨(Option.some.inj (htr.symm.trans hi)).symm, by simp⟩
      · exact .inl (congrFun hcnt t)
  · cases hs

/-- The transfer thread's job goes on, and is not held. -/
theorem HolderInv.setJob (h : HolderInv s) {j : Nat} {x : Job} (ht : s.transfer = some j) (hpc : (s.job j).pc ≠ .dropped)
    (hx : x.task = (s.job j).task ∧ x.last = (s.job j).last) (hx' : x.pc ≠ .held ∧ x.pc ≠ .dropped ∧ x.pc ≠ .finishing true)
    (hd : ∀ t, s.Doomed t → (s.setJob j x).Doomed t) : HolderInv (s.setJob j x) := by
  refine h.one rfl rfl hx (fun _ => id) hd (fun m hm hne _ => .inl ⟨hm, hne⟩) (fun e => absurd e hx'.1)
    (fun i hi => ⟨?_, hx'.2.2⟩)
    (fun e => absurd e hx'.2.1) hpc fun _ => .inl rfl
  exact (Option.some.inj (ht.symm.trans hi)).symm

/-- The holder is cleared; what was in it has been copied. -/
theorem HolderInv.clear (h : HolderInv s) {j : Nat} {s₁ : Queues Byte} (hpc : (s.job j).pc ≠ .dropped)
    (hn : s₁.nJob = s.nJob ∧ s₁.head = s.head ∧ s₁.transfer = s.transfer ∧ s₁.wrapper.counter = s.wrapper.counter)
    (hjob : ∀ k, (s₁.job k).task = (s.job k).task ∧ (s₁.job k).last = (s.job k).last)
    (hself : (s₁.job j).pc ≠ .held ∧ (s₁.job j).pc ≠ .dropped) (hother : ∀ k, k ≠ j → (s₁.job k).pc = (s.job k).pc)
    (hcopy : ∀ k, k < s.nJob → k ≠ j → (s.job k).pc = .held → (s₁.job k).copy = .synced true ∨
      s₁.clearHolder.Doomed (s.job k).task)
    (hkept : ∀ k, (s.job k).copy = .synced true → (s₁.job k).copy = .synced true)
    (hover : ∀ t, s.Over t → s₁.clearHolder.Over t) (hd : ∀ t, s.Doomed t → s₁.clearHolder.Doomed t) :
    HolderInv s₁.clearHolder := by
  obtain ⟨hn, hhead, htr, hcnt⟩ := hn
  have hcleared := fun k => clearHolder_job (s := s₁) k
  have hno : ∀ k, (s₁.clearHolder.job k).pc ≠ .held := by
    intro k
    rw [(hcleared k).2.2.2]
    split
    · nofun
    · assumption
  refine h.goesOn hn (fun k => ?_) hover hd (fun m hm hne _ => .inl ⟨hhead ▸ hm, htr ▸ hne⟩) (fun k hk => absurd hk (hno k))
    (fun _ _ _ k _ => hno k)
    (fun k hk hdrop => ?_) fun k hk hne => ⟨?_, .inl (congrFun hcnt _)⟩
  · rw [(hcleared k).1, (hcleared k).2.1]
    exact hjob k
  · rw [(hcleared k).2.2.2] at hdrop
    rw [(hcleared k).2.2.1]
    by_cases e : k = j
    · rw [e, if_neg hself.1] at hdrop
      exact absurd hdrop hself.2
    · rw [hother k e] at hdrop
      split at hdrop
      · next hheld => exact hcopy k hk e hheld
      · exact (h.dropped k hk hdrop).imp (hkept k) (hd _)
  · rw [(hcleared k).2.2.2] at hne
    by_cases e : k = j
    · rw [e]
      exact hpc
    · rw [hother k e] at hne
      intro hdrop
      rw [hdrop] at hne
      exact hne rfl

theorem HolderInv.copy {j : Nat} {ok left : Bool} (h : HolderInv s) (hq : QueuesInv s) (hta : TasksInv s) (ho : OrderInv s)
    (ht : s.transfer = some j) (hs : transferStep C s j (.copy ok left) = some s') : HolderInv s' := by
  have hstep : queueStep C s (.transfer (.copy ok left)) = some s' := by simpa only [queueStep, ht] using hs
  have hd : ∀ t, s.Doomed t → s'.Doomed t := fun t hdoom => step_doomed hdoom hq hta hstep
  have hhead := ho.next j ht
  simp only [transferStep] at hs
  split at hs
  · next hpc =>
    have hne : (s.job j).pc ≠ .dropped := by
      rw [hpc]
      simp
    split at hs
    · split at hs
      · obtain rfl := Option.some.inj hs
        exact h.setJob ht hne ⟨rfl, rfl⟩ ⟨by simp, by simp, by simp⟩ hd
      · -- the job that is held has no waiter
        next hlast =>
        obtain rfl := Option.some.inj hs
        refine h.one rfl rfl ⟨rfl, rfl⟩ (fun t hover => step_over hover hstep) hd (fun m hm _ hw => .inl ⟨hm, fun e => ?_⟩)
          (fun _ m hjm hm => ?_)
          (fun _ e => by cases e) (fun e => by cases e) hne fun _ => .inl rfl
        · obtain rfl := Option.some.inj (ht.symm.trans e)
          exact hlast hw
        · have hm : m < s.head := hm
          obtain rfl : m = j := by omega
          exact Bool.eq_false_of_not_eq_true hlast
    · obtain rfl := Option.some.inj hs
      exact h.setJob ht hne ⟨rfl, rfl⟩ ⟨by simp, by simp, by simp⟩ hd
  · cases hs

theorem HolderInv.sync {j : Nat} {ok : Bool} (h : HolderInv s) (hq : QueuesInv s) (hta : TasksInv s) (ho : OrderInv s)
    (ht : s.transfer = some j) (hs : transferStep C s j (.sync ok) = some s') : HolderInv s' := by
  have hstep : queueStep C s (.transfer (.sync ok)) = some s' := by simpa only [queueStep, ht] using hs
  have hd : ∀ t, s.Doomed t → s'.Doomed t := fun t hdoom => step_doomed hdoom hq hta hstep
  have hover : ∀ t, s.Over t → s'.Over t := fun t hover => step_over hover hstep
  simp only [transferStep] at hs
  split at hs
  · next hpc =>
    have hheld : ∀ k, k < s.nJob → (s.job k).pc = .held → (s.job k).copy = .issued true := by
      intro k hk hpck
      have hok := hq.jobs.ok k hk
      simp only [Job.Ok, hpck] at hok
      exact hok.1
    have hne : (s.job j).pc ≠ .dropped := by
      rw [hpc]
      simp
    have hset : ∀ x : Job, (s.setJob j x).job j = x ∧ ∀ k, k ≠ j → (s.setJob j x).job k = s.job k := fun x =>
      ⟨Function.update_self .., fun k e => Function.update_of_ne e ..⟩
    have hjobs : ∀ pc k, ((s.setJob j { s.job j with pc }).job k).task = (s.job k).task ∧
        ((s.setJob j { s.job j with pc }).job k).last = (s.job k).last ∧ ((s.setJob j { s.job j with pc }).job k).copy =
        (s.job k).copy := by
      intro pc k
      by_cases e : k = j
      · rw [e, (hset _).1]
        exact ⟨rfl, rfl, rfl⟩
      · rw [(hset _).2 k e]
        exact ⟨rfl, rfl, rfl⟩
    split at hs
    · split at hs
      · -- the copies that were held have ended
        obtain rfl := Option.some.inj hs
        have hsync := fun k => syncCopies_job (s := s.setJob j { s.job j with pc := .finishing true }) k
        refine h.clear hne ⟨rfl, rfl, rfl, rfl⟩ (fun k => ?_) ?_ (fun k e => ?_) (fun k hk e hpck => .inl ?_)
          (fun k e => ?_) hover hd
        · rw [(hsync k).1, (hsync k).2.1]
          exact ⟨(hjobs _ k).1, (hjobs _ k).2.1⟩
        · rw [(hsync j).2.2.1, (hset _).1]
          exact ⟨by simp, by simp⟩
        · rw [(hsync k).2.2.1, (hset _).2 k e]
        · exact (hsync k).2.2.2 true (.inl ((hjobs _ k).2.2.trans (hheld k hk hpck)))
        · exact (hsync k).2.2.2 true (.inr ((hjobs _ k).2.2.trans e))
      · cases hs
    · obtain rfl := Option.some.inj hs
      have hmine : Queues.Doomed ((s.setJob j { s.job j with pc := .finishing false }).clearHolder) (s.job j).task := by
        refine .inr ⟨j, ht, ?_⟩
        simp [Queues.clearHolder, Queues.setJob]
      refine h.clear hne ⟨rfl, rfl, rfl, rfl⟩ (fun k => ⟨(hjobs _ k).1, (hjobs _ k).2.1⟩) ?_ (fun k e => ?_)
        (fun k hk _ hpck => .inr ?_)
        (fun k e => (hjobs _ k).2.2.trans e) hover hd
      · rw [(hset _).1]
        exact ⟨by simp, by simp⟩
      · rw [(hset _).2 k e]
      · by_cases e : (s.job k).task = (s.job j).task
        · rw [e]
          exact hmine
        · exact hd _ (h.other hq.jobs ho ht hk hpck e)
  · cases hs

/-- The end of `TransferOneTask`. -/
structure FinishFrame (j : Nat) (ok : Bool) (s s' : Queues Byte) : Prop where
  job : s'.job j = { s.job j with pc := .dropped }
  other : ∀ k, k ≠ j → s'.job k = if (s.job j).last = true ∧
      (s.job k).pc = .held then { s.job k with pc := .dropped } else s.job k
  rest : s'.nJob = s.nJob ∧ s'.head = s.head ∧ s'.transfer = none
  mark : ok = false → s'.wrapper.failureSet (s.job j).task = true
  counter : ∀ t, (s.job j).last = false ∨ t ≠ (s.job j).task → s'.wrapper.counter t = s.wrapper.counter t

theorem finish_frame {j : Nat} {ok : Bool} (hpc : (s.job j).pc = .finishing ok) (hs : transferStep C s j .finish = some s') :
    FinishFrame j ok s s' := by
  simp only [transferStep, hpc] at hs
  obtain rfl := Option.some.inj hs
  have hfailed : ok = false → (s.wrapper.failIf (!ok) (s.job j).task).failureSet (s.job j).task = true := by
    intro e
    rw [TaskWrapper.failIf_failureSet, if_pos ⟨rfl, by rw [e]; rfl⟩]
  by_cases hlast : (s.job j).last = true
  · rw [if_pos hlast]
    have hstays : s.clearHolder.job j = s.job j := if_neg (by simp [hpc])
    refine ⟨?_, fun k hk => ?_, ⟨rfl, rfl, rfl⟩, hfailed, fun t ht => ?_⟩
    · show Function.update s.clearHolder.job j { s.clearHolder.job j with pc := .dropped } j = _
      rw [Function.update_self, hstays]
    · show Function.update s.clearHolder.job j _ k = _
      rw [Function.update_of_ne hk]
      simp only [Queues.clearHolder, hlast, true_and]
    · have hne : t ≠ (s.job j).task := ht.resolve_left (by rw [hlast]; simp)
      show ((s.wrapper.failIf (!ok) (s.job j).task).done (s.job j).task).counter t = s.wrapper.counter t
      rw [TaskWrapper.done_counter, if_neg hne, TaskWrapper.failIf_counter]
  · rw [if_neg hlast]
    refine ⟨Function.update_self .., fun k hk => ?_, ⟨rfl, rfl, rfl⟩, hfailed, fun t _ => ?_⟩
    · rw [if_neg fun e => hlast e.1]
      exact Function.update_of_ne hk ..
    · show (s.wrapper.failIf (!ok) (s.job j).task).counter t = s.wrapper.counter t
      rw [TaskWrapper.failIf_counter]

theorem HolderInv.finish {j : Nat} (h : HolderInv s) (hq : QueuesInv s) (hta : TasksInv s) (ho : OrderInv s)
    (ht : s.transfer = some j) (hs : transferStep C s j .finish = some s') : HolderInv s' := by
  have hstep : queueStep C s (.transfer .finish) = some s' := by simpa only [queueStep, ht] using hs
  have hd : ∀ t, s.Doomed t → s'.Doomed t := fun t hdoom => step_doomed hdoom hq hta hstep
  have hhead := ho.next j ht
  obtain ⟨ok, hpc⟩ : ∃ ok, (s.job j).pc = .finishing ok := by
    simp only [transferStep] at hs
    split at hs
    · next ok hpc => exact ⟨ok, hpc⟩
    · cases hs
  have hx := hq.jobs.ok j (hq.jobs.transfer_lt j ht)
  obtain ⟨hjob, hjob', ⟨hn, hhead', htr⟩, hmark, hcnt⟩ := finish_frame hpc hs
  have hmine : ok = false → s'.Doomed (s.job j).task := fun e => .inl (.inl (hmark e))
  refine ⟨fun k m hkm hm _ hheld htask hlast => ?_, fun k hk => ?_, fun k hk hdrop => ?_, fun k hk hne => ?_⟩
  · -- the holder has been cleared, or the job that is at its end has no waiter
    have hkj : k ≠ j := by
      intro e
      subst e
      rw [hjob] at hheld
      cases hheld
    rw [hjob' k hkj] at hheld htask ⊢
    split at hheld
    · cases hheld
    · next hno =>
      rw [if_neg hno] at htask ⊢
      rw [hhead'] at hm
      by_cases e : m = j
      · rw [e, hjob] at hlast
        exact absurd ⟨hlast, hheld⟩ hno
      · rw [hjob' m e] at htask hlast
        have hfix : (s.job m).task = (s.job k).task ∧ (s.job m).last = true := by
          split at hlast <;> simp_all
        refine hd _ (h.skipped k m hkm hm ?_ hheld hfix.1 hfix.2)
        rw [ht]
        exact fun e' => e (Option.some.inj e').symm
  · rw [htr] at hk
    cases hk
  · rw [hn] at hk
    by_cases e : k = j
    · rw [e, hjob]
      cases ok with
      | true =>
        simp only [Job.Ok, hpc] at hx
        exact .inl (hx trivial).1
      | false => exact .inr (hmine rfl)
    · rw [hjob' k e] at hdrop ⊢
      split at hdrop
      · next hheld =>
        rw [if_pos hheld]
        by_cases e' : (s.job k).task = (s.job j).task
        · cases ok with
          | true => exact absurd hheld.2 (h.finished j ht hpc k hk)
          | false =>
            right
            show s'.Doomed (s.job k).task
            rw [e']
            exact hmine rfl
        · exact .inr (hd _ (h.other hq.jobs ho ht hk hheld.2 e'))
      · next hno =>
        rw [if_neg hno]
        exact (h.dropped k hk hdrop).imp id (hd _)
  · rw [hn] at hk
    by_cases e : k = j
    · rw [e, hjob] at hne
      exact absurd rfl hne
    · rw [hjob' k e] at hne ⊢
      split at hne
      · exact absurd rfl hne
      · next hno =>
        rw [if_neg hno]
        by_cases e' : (s.job j).last = true ∧ (s.job k).task = (s.job j).task
        · cases ok with
          | true =>
            -- the others of its task have been dropped
            exfalso
            have hset := hta.settled hq.jobs (by omega) (.inr ht) e'.1 hk e e'.2
            have hcur : (s.job k).pc.current = false := by
              by_contra hcur
              have hk' := (hq.jobs.current k hk).mp (Bool.eq_true_of_not_eq_false hcur)
              rw [ht] at hk'
              exact e (Option.some.inj hk').symm
            revert hset hcur hno hne
            cases (s.job k).pc <;> simp [JobPc.uncopied, JobPc.current, e'.1]
          | false =>
            right
            left
            rw [e'.2]
            exact hmark rfl
        · rw [hcnt (s.job k).task (by grind)]
          exact (h.counted k hk hne).imp id fun hover => step_over hover hstep

theorem HolderInv.transferStep {j : Nat} {l : TransferLabel} (h : HolderInv s) (hq : QueuesInv s) (hta : TasksInv s)
    (ho : OrderInv s)
    (ht : s.transfer = some j) (hs : transferStep C s j l = some s') : HolderInv s' := by
  have hd : ∀ t, s.Doomed t →
      s'.Doomed t := fun t hdoom => step_doomed (l := .transfer l) hdoom hq hta (by simpa only [queueStep, ht] using hs)
  cases l with
  | copy ok left => exact h.copy hq hta ho ht hs
  | sync ok => exact h.sync hq hta ho ht hs
  | finish => exact h.finish hq hta ho ht hs
  | backendWait =>
    simp only [Mooncake.transferStep] at hs
    split at hs
    · next ok hpc _ =>
      obtain rfl := Option.some.inj hs
      refine h.setJob ht (by rw [hpc]; simp) ⟨rfl, rfl⟩ ?_ hd
      cases ok <;> exact ⟨by simp, by simp, by simp⟩
    · cases hs
  | backendTimeout =>
    simp only [Mooncake.transferStep] at hs
    split at hs
    · next hpc =>
      obtain rfl := Option.some.inj hs
      exact h.setJob ht (by rw [hpc.1]; simp) ⟨rfl, rfl⟩ ⟨by simp, by simp, by simp⟩ hd
    · cases hs

theorem step_holderInv (h : HolderInv s) (hq : QueuesInv s) (hta : TasksInv s) (ho : OrderInv s)
    (hs : queueStep C s l = some s') :
    HolderInv s' := by
  cases l with
  | loader l =>
    simp only [queueStep] at hs
    split at hs
    · next t ht => exact h.loaderStep hq hta ht hs
    · cases hs
  | transfer l =>
    simp only [queueStep] at hs
    split at hs
    · next j ht => exact h.transferStep hq hta ho ht hs
    · cases hs
  | take => exact h.take hq hta hs
  | _ =>
    have hf := rest_frame hq hta rfl hs
    exact h.congr hf.jobs (fun j => ⟨(hf.job j).1, (hf.job j).2.2.2.1, (hf.job j).2.2.2.2⟩) hf.counter
      (fun _ hover => step_over hover hs)
      fun _ hdoom => step_doomed hdoom hq hta hs

end UnifiedCache.Mooncake
