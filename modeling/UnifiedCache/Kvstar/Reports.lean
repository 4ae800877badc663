/-
  UnifiedCache.Kvstar.Reports — what `Wait` and `GetResult` report of a retrieval task
  (see `UnifiedCache.Kvstar.Tasks`).

  A task is in a queue, in the hands of one worker, or done; a task that is done has its result, and
  stays as it is (`TaskInv`). So in the runs in which every task that is computed is `Served`, no task
  is waited for twice, and no notification comes while a waiter falls asleep, each `Wait` returns `OK`,
  and each result is right (`retrieval_reports`).

  Otherwise: a task whose shapes are rejected is reported as a success with no blocks at all
  (`rejected_task_succeeds`).
-/

import UnifiedCache.Kvstar.Tasks

namespace UnifiedCache.Kvstar

open UnifiedCache.Base

variable {ι α : Type} [LinearOrder α] {kernel : Kernel} {numQueues : Nat} {s s' : Manager ι α} {l : ManagerLabel ι α}

/-- The task that a worker has in hand. -/
def WorkerPc.held : WorkerPc α → Option (WorkItem α)
  | .popped item | .checking item | .running item | .caught item _ | .ran item _ | .failed item | .finished item => some item
  | .idle | .notifying _ => none

/-- The task has been computed, and its blocks are stored. -/
def Stored (s : Manager ι α) (taskId : Nat) (task : RetrieveTask α) : Prop :=
  ∃ r, s.resultMap taskId = some r ∧ s.computed taskId = some (.topkIndices r.topkIndices) ∧ Chosen task r.topkIndices ∧
  KernelsRight task

/-- The result of the task is right. -/
def Right (s : Manager ι α) (taskId : Nat) (task : RetrieveTask α) : Prop :=
  ∃ r, s.resultMap taskId = some r ∧ r.status = .success ∧ s.computed taskId = some (.topkIndices r.topkIndices) ∧
  Chosen task r.topkIndices ∧
    KernelsRight task

structure TaskInv (s : Manager ι α) : Prop where
  queued : ∀ q item, item ∈ s.taskQ q → s.place item.allocTaskId = .queued q ∧ s.submitted item.allocTaskId = some item.task
  nodup : ∀ q, ((s.taskQ q).map (·.allocTaskId)).Nodup
  held : ∀ q item, (s.worker q).held = some item → s.place item.allocTaskId = .held q ∧
      s.submitted item.allocTaskId = some item.task
  absent : ∀ id, s.taskIdSeed < id → s.place id = .absent
  fresh : ∀ id, s.place id = .absent → s.submitted id = none ∧ s.waiters id = false ∧ s.resultMap id = none
  known : ∀ id, s.place id ≠ .absent → (s.resultMap id).isSome
  live : ∀ id q, s.place id = .queued q ∨ s.place id = .held q → s.counter id = 1
  failureSet : s.failureSet = []
  caught : ∀ q item what, s.worker q ≠ .caught item what
  failed : ∀ q item, s.worker q ≠ .failed item
  ran : ∀ q item status, s.worker q = .ran item status → status = .ok ∧ Stored s item.allocTaskId item.task
  finished : ∀ q item, s.worker q = .finished item → Right s item.allocTaskId item.task
  done : ∀ id, s.place id = .done → s.counter id = 0 ∧ ∃ task, s.submitted id = some task ∧ Right s id task

theorem Stored.congr {taskId : Nat} {task : RetrieveTask α} (h : Stored s taskId task)
    (hr : s'.resultMap taskId = s.resultMap taskId)
    (hc : s'.computed taskId = s.computed taskId) : Stored s' taskId task := by
  unfold Stored
  rw [hr, hc]
  exact h

theorem Right.congr {taskId : Nat} {task : RetrieveTask α} (h : Right s taskId task)
    (hr : s'.resultMap taskId = s.resultMap taskId)
    (hc : s'.computed taskId = s.computed taskId) : Right s' taskId task := by
  unfold Right
  rw [hr, hc]
  exact h

/-- What a worker leaves as it is while it has a task in hand. -/
structure HandKeeps (s s' : Manager ι α) (taskId : Nat) : Prop where
  taskIdSeed : s'.taskIdSeed = s.taskIdSeed
  taskQ : s'.taskQ = s.taskQ
  waiters : s'.waiters = s.waiters
  counter : s'.counter = s.counter
  failureSet : s'.failureSet = s.failureSet
  submitted : s'.submitted = s.submitted
  place : s'.place = s.place
  resultMap : ∀ id, id ≠ taskId → s'.resultMap id = s.resultMap id
  computed : ∀ id, id ≠ taskId → s'.computed id = s.computed id
  known : (s'.resultMap taskId).isSome

/-- A worker goes on with the task that it has in hand. -/
theorem TaskInv.hand {q : Nat} {item : WorkItem α} {pc : WorkerPc α} (h : TaskInv s) (hheld : (s.worker q).held = some item)
    (hk : HandKeeps s s' item.allocTaskId) (hworker : s'.worker = Function.update s.worker q pc) (hpc : pc.held = some item)
    (hcaught : ∀ item what, pc ≠ .caught item what) (hfailed : ∀ item, pc ≠ .failed item)
    (hran : ∀ status, pc = .ran item status → status = .ok ∧ Stored s' item.allocTaskId item.task)
    (hfinished : pc = .finished item → Right s' item.allocTaskId item.task) : TaskInv s' := by
  obtain ⟨hplace, hsub⟩ := h.held q item hheld
  have hself : s'.worker q = pc := by
    rw [hworker]
    exact Function.update_self ..
  have hother : ∀ q', q' ≠ q → s'.worker q' = s.worker q' := by
    intro q' e
    rw [hworker]
    exact Function.update_of_ne e ..
  have hne : ∀ q' item', q' ≠ q → (s.worker q').held = some item' → item'.allocTaskId ≠ item.allocTaskId := by
    intro q' item' e hheld' heq
    have hplace' := (h.held q' item' hheld').1
    rw [heq, hplace] at hplace'
    exact e (Place.held.inj hplace').symm
  constructor
  · rw [hk.taskQ, hk.place, hk.submitted]
    exact h.queued
  · rw [hk.taskQ]
    exact h.nodup
  · intro q' item' hheld'
    rw [hk.place, hk.submitted]
    by_cases e : q' = q
    · rw [e, hself, hpc] at hheld'
      obtain rfl := Option.some.inj hheld'
      exact e ▸ ⟨hplace, hsub⟩
    · rw [hother q' e] at hheld'
      exact h.held q' item' hheld'
  · rw [hk.taskIdSeed, hk.place]
    exact h.absent
  · intro id hid
    rw [hk.place] at hid
    have hne : id ≠ item.allocTaskId := by
      intro e
      subst e
      rw [hplace] at hid
      cases hid
    rw [hk.submitted, hk.waiters, hk.resultMap id hne]
    exact h.fresh id hid
  · intro id hid
    rw [hk.place] at hid
    by_cases e : id = item.allocTaskId
    · rw [e]
      exact hk.known
    · rw [hk.resultMap id e]
      exact h.known id hid
  · rw [hk.place, hk.counter]
    exact h.live
  · rw [hk.failureSet]
    exact h.failureSet
  · intro q' item' what
    by_cases e : q' = q
    · rw [e, hself]
      exact hcaught item' what
    · rw [hother q' e]
      exact h.caught q' item' what
  · intro q' item'
    by_cases e : q' = q
    · rw [e, hself]
      exact hfailed item'
    · rw [hother q' e]
      exact h.failed q' item'
  · intro q' item' status hpc'
    by_cases e : q' = q
    · rw [e, hself] at hpc'
      rw [hpc'] at hpc
      obtain rfl := Option.some.inj hpc
      exact hran status hpc'
    · rw [hother q' e] at hpc'
      have hid := hne q' item' e (by rw [hpc']; rfl)
      obtain ⟨hok, hst⟩ := h.ran q' item' status hpc'
      exact ⟨hok, hst.congr (hk.resultMap _ hid) (hk.computed _ hid)⟩
  · intro q' item' hpc'
    by_cases e : q' = q
    · rw [e, hself] at hpc'
      rw [hpc'] at hpc
      obtain rfl := Option.some.inj hpc
      exact hfinished hpc'
    · rw [hother q' e] at hpc'
      have hid := hne q' item' e (by rw [hpc']; rfl)
      exact (h.finished q' item' hpc').congr (hk.resultMap _ hid) (hk.computed _ hid)
  · intro id hid
    rw [hk.place] at hid
    have hne : id ≠ item.allocTaskId := by
      intro e
      subst e
      rw [hplace] at hid
      cases hid
    obtain ⟨hcount, task, hsub', hright⟩ := h.done id hid
    rw [hk.counter, hk.submitted]
    exact ⟨hcount, task, hsub', hright.congr (hk.resultMap id hne) (hk.computed id hne)⟩

/-- A task comes to a queue. -/
theorem TaskInv.submit {task : RetrieveTask α} (h : TaskInv s) (hs : submitSingleTask numQueues s task = some s') :
    TaskInv s' := by
  have habsent := h.absent (s.taskIdSeed + 1) (Nat.lt_succ_self _)
  obtain ⟨hnone, hwaiter, hresult⟩ := h.fresh _ habsent
  simp only [submitSingleTask] at hs
  split at hs
  · cases hs
  rw [hwaiter, hresult, if_neg (by nofun), if_neg (by nofun)] at hs
  obtain rfl := Option.some.inj hs
  -- the number is new
  have hqueued : ∀ q item, item ∈ s.taskQ q → item.allocTaskId ≠ s.taskIdSeed + 1 := by
    intro q item hitem e
    have hplace := (h.queued q item hitem).1
    rw [e, habsent] at hplace
    cases hplace
  have hheld : ∀ q item, (s.worker q).held = some item → item.allocTaskId ≠ s.taskIdSeed + 1 := by
    intro q item hitem e
    have hplace := (h.held q item hitem).1
    rw [e, habsent] at hplace
    cases hplace
  constructor
  · intro q item hitem
    dsimp only at hitem ⊢
    by_cases e : q = s.lastTimeScheduledQueueIdx
    · rw [e, Function.update_self] at hitem
      rcases List.mem_append.mp hitem with hitem | hitem
      · have hne := hqueued _ item hitem
        rw [Function.update_of_ne hne, Function.update_of_ne hne, e]
        exact h.queued _ item hitem
      · obtain rfl := List.mem_singleton.mp hitem
        dsimp only
        rw [Function.update_self, Function.update_self, e]
        exact ⟨rfl, rfl⟩
    · rw [Function.update_of_ne e] at hitem
      have hne := hqueued _ item hitem
      rw [Function.update_of_ne hne, Function.update_of_ne hne]
      exact h.queued _ item hitem
  · intro q
    dsimp only
    by_cases e : q = s.lastTimeScheduledQueueIdx
    · rw [e, Function.update_self, List.map_append]
      refine List.nodup_append.mpr ⟨h.nodup _, List.nodup_singleton _, fun a ha b hb e => ?_⟩
      obtain ⟨item, hitem, rfl⟩ := List.mem_map.mp ha
      rw [List.map_singleton, List.mem_singleton] at hb
      exact hqueued _ item hitem (e.trans hb)
    · rw [Function.update_of_ne e]
      exact h.nodup q
  · intro q item hitem
    have hne := hheld q item hitem
    dsimp only
    rw [Function.update_of_ne hne, Function.update_of_ne hne]
    exact h.held q item hitem
  · intro id hid
    have hid : s.taskIdSeed + 1 < id := hid
    dsimp only
    rw [Function.update_of_ne (by omega)]
    exact h.absent id (by omega)
  · intro id hid
    dsimp only at hid ⊢
    by_cases e : id = s.taskIdSeed + 1
    · rw [e, Function.update_self] at hid
      cases hid
    · rw [Function.update_of_ne e] at hid
      rw [Function.update_of_ne e, Function.update_of_ne e, Function.update_of_ne e]
      exact h.fresh id hid
  · intro id hid
    dsimp only at hid ⊢
    by_cases e : id = s.taskIdSeed + 1
    · rw [e, Function.update_self]
      rfl
    · rw [Function.update_of_ne e] at hid
      rw [Function.update_of_ne e]
      exact h.known id hid
  · intro id q hid
    dsimp only at hid ⊢
    by_cases e : id = s.taskIdSeed + 1
    · rw [e, Function.update_self]
    · rw [Function.update_of_ne e] at hid
      rw [Function.update_of_ne e]
      exact h.live id q hid
  · exact h.failureSet
  · exact h.caught
  · exact h.failed
  · intro q item status hpc
    have hne := hheld q item (by rw [hpc]; rfl)
    obtain ⟨hok, hst⟩ := h.ran q item status hpc
    exact ⟨hok, hst.congr (Function.update_of_ne hne ..) rfl⟩
  · intro q item hpc
    have hne := hheld q item (by rw [hpc]; rfl)
    exact (h.finished q item hpc).congr (Function.update_of_ne hne ..) rfl
  · intro id hid
    dsimp only at hid ⊢
    have hne : id ≠ s.taskIdSeed + 1 := by
      intro e
      subst e
      rw [Function.update_self] at hid
      cases hid
    rw [Function.update_of_ne hne] at hid
    obtain ⟨hcount, task', hsub, hright⟩ := h.done id hid
    rw [Function.update_of_ne hne, Function.update_of_ne hne]
    exact ⟨hcount, task', hsub, hright.congr (Function.update_of_ne hne ..) rfl⟩

/-- A worker takes the first task of its queue. -/
theorem TaskInv.pop {q : Nat} {item : WorkItem α} {rest : List (WorkItem α)} (h : TaskInv s) (hq : s.taskQ q = item :: rest) :
    TaskInv { s with
      taskQ := Function.update s.taskQ q rest
      worker := Function.update s.worker q (.popped item)
      place := Function.update s.place item.allocTaskId (.held q) } := by
  obtain ⟨hplace, hsub⟩ := h.queued q item (by rw [hq]; exact List.mem_cons_self)
  have hnodup := h.nodup q
  rw [hq, List.map_cons, List.nodup_cons] at hnodup
  have hqueued : ∀ q' item', item' ∈ Function.update s.taskQ q rest q' → item' ∈ s.taskQ q' ∧
      item'.allocTaskId ≠ item.allocTaskId := by
    intro q' item' hitem
    by_cases e : q' = q
    · rw [e, Function.update_self] at hitem
      refine ⟨?_, fun heq => hnodup.1 (heq ▸ List.mem_map_of_mem hitem)⟩
      rw [e, hq]
      exact List.mem_cons_of_mem _ hitem
    · rw [Function.update_of_ne e] at hitem
      refine ⟨hitem, fun heq => ?_⟩
      have hplace' := (h.queued q' item' hitem).1
      rw [heq, hplace] at hplace'
      exact e (Place.queued.inj hplace').symm
  have hheld : ∀ q' item', (s.worker q').held = some item' → item'.allocTaskId ≠ item.allocTaskId := by
    intro q' item' hitem heq
    have hplace' := (h.held q' item' hitem).1
    rw [heq, hplace] at hplace'
    cases hplace'
  have hother : ∀ id, s.place id ≠ .queued q → id ≠ item.allocTaskId := by
    intro id hid heq
    rw [heq] at hid
    exact hid hplace
  constructor
  · intro q' item' hitem
    obtain ⟨hitem, hne⟩ := hqueued q' item' hitem
    dsimp only
    rw [Function.update_of_ne hne]
    exact h.queued q' item' hitem
  · intro q'
    dsimp only
    by_cases e : q' = q
    · rw [e, Function.update_self]
      exact hnodup.2
    · rw [Function.update_of_ne e]
      exact h.nodup q'
  · intro q' item' hitem
    dsimp only at hitem ⊢
    by_cases e : q' = q
    · rw [e, Function.update_self] at hitem
      obtain rfl := Option.some.inj hitem
      rw [Function.update_self, e]
      exact ⟨rfl, hsub⟩
    · rw [Function.update_of_ne e] at hitem
      rw [Function.update_of_ne (hheld q' item' hitem)]
      exact h.held q' item' hitem
  · intro id hid
    have habsent := h.absent id hid
    dsimp only
    rw [Function.update_of_ne (hother id (by rw [habsent]; nofun))]
    exact habsent
  · intro id hid
    dsimp only at hid ⊢
    by_cases e : id = item.allocTaskId
    · rw [e, Function.update_self] at hid
      cases hid
    · rw [Function.update_of_ne e] at hid
      exact h.fresh id hid
  · intro id hid
    dsimp only at hid
    by_cases e : id = item.allocTaskId
    · rw [e]
      exact h.known _ (by rw [hplace]; nofun)
    · rw [Function.update_of_ne e] at hid
      exact h.known id hid
  · intro id q' hid
    dsimp only at hid
    by_cases e : id = item.allocTaskId
    · rw [e]
      exact h.live _ q (.inl hplace)
    · rw [Function.update_of_ne e] at hid
      exact h.live id q' hid
  · exact h.failureSet
  · intro q' item' what
    dsimp only
    by_cases e : q' = q
    · rw [e, Function.update_self]
      nofun
    · rw [Function.update_of_ne e]
      exact h.caught q' item' what
  · intro q' item'
    dsimp only
    by_cases e : q' = q
    · rw [e, Function.update_self]
      nofun
    · rw [Function.update_of_ne e]
      exact h.failed q' item'
  · intro q' item' status hpc
    dsimp only at hpc
    by_cases e : q' = q
    · rw [e, Function.update_self] at hpc
      cases hpc
    · rw [Function.update_of_ne e] at hpc
      obtain ⟨hok, hst⟩ := h.ran q' item' status hpc
      exact ⟨hok, hst.congr rfl rfl⟩
  · intro q' item' hpc
    dsimp only at hpc
    by_cases e : q' = q
    · rw [e, Function.update_self] at hpc
      cases hpc
    · rw [Function.update_of_ne e] at hpc
      exact (h.finished q' item' hpc).congr rfl rfl
  · intro id hid
    dsimp only at hid
    by_cases e : id = item.allocTaskId
    · rw [e, Function.update_self] at hid
      cases hid
    · rw [Function.update_of_ne e] at hid
      obtain ⟨hcount, task, hsub', hright⟩ := h.done id hid
      exact ⟨hcount, task, hsub', hright.congr rfl rfl⟩

/-- A worker counts the latch down. -/
theorem TaskInv.finish {q : Nat} {item : WorkItem α} (h : TaskInv s) (hpc : s.worker q = .finished item) :
    s.counter item.allocTaskId - 1 = 0 ∧
    TaskInv { s with
      counter := Function.update s.counter item.allocTaskId 0
      worker := Function.update s.worker q (.notifying item)
      place := Function.update s.place item.allocTaskId .done } := by
  obtain ⟨hplace, hsub⟩ := h.held q item (by rw [hpc]; rfl)
  have hcount := h.live _ q (.inr hplace)
  refine ⟨by rw [hcount], ?_⟩
  have hqueued : ∀ q' item', item' ∈ s.taskQ q' → item'.allocTaskId ≠ item.allocTaskId := by
    intro q' item' hitem heq
    have hplace' := (h.queued q' item' hitem).1
    rw [heq, hplace] at hplace'
    cases hplace'
  have hheld : ∀ q' item', q' ≠ q → (s.worker q').held = some item' → item'.allocTaskId ≠ item.allocTaskId := by
    intro q' item' e hitem heq
    have hplace' := (h.held q' item' hitem).1
    rw [heq, hplace] at hplace'
    exact e (Place.held.inj hplace').symm
  constructor
  · intro q' item' hitem
    dsimp only
    rw [Function.update_of_ne (hqueued q' item' hitem)]
    exact h.queued q' item' hitem
  · exact h.nodup
  · intro q' item' hitem
    dsimp only at hitem ⊢
    by_cases e : q' = q
    · rw [e, Function.update_self] at hitem
      cases hitem
    · rw [Function.update_of_ne e] at hitem
      rw [Function.update_of_ne (hheld q' item' e hitem)]
      exact h.held q' item' hitem
  · intro id hid
    have habsent := h.absent id hid
    dsimp only
    rw [Function.update_of_ne]
    · exact habsent
    · intro e
      subst e
      rw [habsent] at hplace
      cases hplace
  · intro id hid
    dsimp only at hid
    by_cases e : id = item.allocTaskId
    · rw [e, Function.update_self] at hid
      cases hid
    · rw [Function.update_of_ne e] at hid
      exact h.fresh id hid
  · intro id hid
    dsimp only at hid
    by_cases e : id = item.allocTaskId
    · rw [e]
      exact h.known _ (by rw [hplace]; nofun)
    · rw [Function.update_of_ne e] at hid
      exact h.known id hid
  · intro id q' hid
    dsimp only at hid ⊢
    by_cases e : id = item.allocTaskId
    · rw [e, Function.update_self] at hid
      rcases hid with hid | hid <;> cases hid
    · rw [Function.update_of_ne e] at hid
      rw [Function.update_of_ne e]
      exact h.live id q' hid
  · exact h.failureSet
  · intro q' item' what
    dsimp only
    by_cases e : q' = q
    · rw [e, Function.update_self]
      nofun
    · rw [Function.update_of_ne e]
      exact h.caught q' item' what
  · intro q' item'
    dsimp only
    by_cases e : q' = q
    · rw [e, Function.update_self]
      nofun
    · rw [Function.update_of_ne e]
      exact h.failed q' item'
  · intro q' item' status hpc'
    dsimp only at hpc'
    by_cases e : q' = q
    · rw [e, Function.update_self] at hpc'
      cases hpc'
    · rw [Function.update_of_ne e] at hpc'
      obtain ⟨hok, hst⟩ := h.ran q' item' status hpc'
      exact ⟨hok, hst.congr rfl rfl⟩
  · intro q' item' hpc'
    dsimp only at hpc'
    by_cases e : q' = q
    · rw [e, Function.update_self] at hpc'
      cases hpc'
    · rw [Function.update_of_ne e] at hpc'
      exact (h.finished q' item' hpc').congr rfl rfl
  · intro id hid
    dsimp only at hid ⊢
    by_cases e : id = item.allocTaskId
    · rw [e, Function.update_self]
      exact ⟨rfl, item.task, hsub, (h.finished q item hpc).congr rfl rfl⟩
    · rw [Function.update_of_ne e] at hid
      rw [Function.update_of_ne e]
      obtain ⟨hcount, task, hsub', hright⟩ := h.done id hid
      exact ⟨hcount, task, hsub', hright.congr rfl rfl⟩

/-- A worker that has no task in hand. -/
theorem TaskInv.rest {q : Nat} {pc : WorkerPc α} (h : TaskInv s) (hpc : pc.held = none)
    (hworker : s'.worker = Function.update s.worker q pc)
    (hsame : s'.taskIdSeed = s.taskIdSeed ∧ s'.taskQ = s.taskQ ∧ s'.waiters = s.waiters ∧ s'.counter = s.counter ∧
      s'.resultMap = s.resultMap ∧
      s'.failureSet = s.failureSet ∧ s'.submitted = s.submitted ∧ s'.computed = s.computed ∧
      s'.place = s.place) : TaskInv s' := by
  obtain ⟨hseed, hq, hwaiters, hcounter, hresult, hfail, hsub, hcomp, hplace⟩ := hsame
  have hback : ∀ q' pc', s'.worker q' = pc' → pc'.held ≠ none → s.worker q' = pc' := by
    intro q' pc' hpc' hne
    rw [hworker] at hpc'
    by_cases e : q' = q
    · rw [e, Function.update_self] at hpc'
      exact absurd (hpc' ▸ hpc) hne
    · rw [Function.update_of_ne e] at hpc'
      exact hpc'
  have hright : ∀ id task, Right s id task → Right s' id task := fun _ _ hr => hr.congr (by rw [hresult]) (by rw [hcomp])
  constructor
  · rw [hq, hplace, hsub]
    exact h.queued
  · rw [hq]
    exact h.nodup
  · intro q' item hheld
    rw [hplace, hsub]
    apply h.held q' item
    rw [hback q' _ rfl (by rw [hheld]; nofun)]
    exact hheld
  · rw [hseed, hplace]
    exact h.absent
  · rw [hplace, hsub, hwaiters, hresult]
    exact h.fresh
  · rw [hplace, hresult]
    exact h.known
  · rw [hplace, hcounter]
    exact h.live
  · rw [hfail]
    exact h.failureSet
  · intro q' item what hpc'
    exact h.caught q' item what (hback q' _ hpc' nofun)
  · intro q' item hpc'
    exact h.failed q' item (hback q' _ hpc' nofun)
  · intro q' item status hpc'
    obtain ⟨hok, hst⟩ := h.ran q' item status (hback q' _ hpc' nofun)
    exact ⟨hok, hst.congr (by rw [hresult]) (by rw [hcomp])⟩
  · intro q' item hpc'
    exact hright _ _ (h.finished q' item (hback q' _ hpc' nofun))
  · intro id hid
    rw [hplace] at hid
    rw [hcounter, hsub]
    obtain ⟨hcount, task, hsub', hr⟩ := h.done id hid
    exact ⟨hcount, task, hsub', hright id task hr⟩

/-- A kernel chooses right for a task that is served. -/
theorem served_executes {task : RetrieveTask α} {order : List Nat} (h : Served task)
    (horder : ¬ (kernel = .vector ∧ ¬ LeftBy task order)) :
    ∃ l, execute kernel task order = .topkIndices l ∧ Chosen task l := by
  have hright := (kernelsRight_iff task).mpr h
  cases kernel with
  | vector =>
    have hleft : LeftBy task order := by
      by_contra hne
      exact horder ⟨rfl, hne⟩
    obtain ⟨l, l', hl, -, hchosen, -⟩ := hright order hleft
    exact ⟨l, hl, hchosen⟩
  | scalar =>
    obtain ⟨order', hleft⟩ := exists_nthElement task.score (task.blkRepreShape.headD 0) (task.topK.toInt - 1).toNat
    obtain ⟨l, l', -, hl', -, hchosen, -⟩ := hright order' hleft
    exact ⟨l', hl', hchosen⟩

omit [LinearOrder α] in
theorem handKeeps_setResult {q : Nat} {taskId : Nat} (f : TaskResult → TaskResult) (pc : WorkerPc α)
    (h : (s.resultMap taskId).isSome) :
    HandKeeps s ((s.setResult taskId f).setWorker q pc) taskId := by
  refine ⟨rfl, rfl, rfl, rfl, rfl, rfl, rfl, fun id e => Function.update_of_ne e .., fun _ _ => rfl, ?_⟩
  show (Function.update s.resultMap taskId ((s.resultMap taskId).map f) taskId).isSome
  rw [Function.update_self, Option.isSome_map]
  exact h

theorem TaskInv.worker {q : Nat} {l : WorkerLabel} (h : TaskInv s) (hserved : ∀ item, s.worker q = .running item →
    Served item.task)
    (hs : workerStep kernel s q l = some s') : TaskInv s' := by
  have hknown : ∀ item, (s.worker q).held = some item → (s.resultMap item.allocTaskId).isSome := by
    intro item hheld
    apply h.known
    rw [(h.held q item hheld).1]
    nofun
  cases l with
  | pop =>
    simp only [workerStep] at hs
    split at hs
    · next item rest hpc hq =>
      obtain rfl := Option.some.inj hs
      exact h.pop hq
    · cases hs
  | step order =>
    cases hpc : s.worker q with
    | idle =>
      simp only [workerStep, hpc] at hs
      cases hs
    | popped item =>
      simp only [workerStep, hpc] at hs
      obtain rfl := Option.some.inj hs
      have hheld : (s.worker q).held = some item := by
        rw [hpc]
        rfl
      exact h.hand hheld (handKeeps_setResult _ _ (hknown item hheld)) rfl rfl nofun nofun nofun nofun
    | checking item =>
      simp only [workerStep, hpc] at hs
      rw [h.failureSet, if_neg (List.not_mem_nil)] at hs
      obtain rfl := Option.some.inj hs
      have hheld : (s.worker q).held = some item := by
        rw [hpc]
        rfl
      exact h.hand hheld ⟨rfl, rfl, rfl, rfl, rfl, rfl, rfl, fun _ _ => rfl, fun _ _ => rfl,
        hknown item hheld⟩ rfl rfl nofun nofun nofun nofun
    | running item =>
      have hheld : (s.worker q).held = some item := by
        rw [hpc]
        rfl
      simp only [workerStep, hpc] at hs
      split at hs
      · cases hs
      · next horder =>
        obtain ⟨l, hexec, hchosen⟩ := served_executes (hserved item hpc) horder
        simp only [runnerRun, hexec] at hs
        obtain rfl := Option.some.inj hs
        obtain ⟨r, hr⟩ := Option.isSome_iff_exists.mp (hknown item hheld)
        refine h.hand hheld ⟨rfl, rfl, rfl, rfl, rfl, rfl, rfl, fun id e => Function.update_of_ne e ..,
          fun id e => Function.update_of_ne e .., ?_⟩ rfl rfl
          nofun nofun (fun status e => ?_) nofun
        · show (Function.update s.resultMap item.allocTaskId _ item.allocTaskId).isSome
          rw [Function.update_self, Option.isSome_map]
          exact hknown item hheld
        · obtain ⟨-, rfl⟩ := WorkerPc.ran.inj e
          refine ⟨rfl, { r with topkIndices := l, status := .success }, ?_, Function.update_self .., hchosen,
            (kernelsRight_iff _).mpr (hserved item hpc)⟩
          show Function.update s.resultMap item.allocTaskId ((s.resultMap item.allocTaskId).map _) item.allocTaskId = _
          rw [Function.update_self, hr]
          rfl
    | caught item what => exact absurd hpc (h.caught q item what)
    | failed item => exact absurd hpc (h.failed q item)
    | ran item status =>
      have hheld : (s.worker q).held = some item := by
        rw [hpc]
        rfl
      obtain ⟨rfl, r, hr, hcomp, hchosen, hright⟩ := h.ran q item status hpc
      simp only [workerStep, hpc] at hs
      obtain rfl := Option.some.inj hs
      refine h.hand hheld (handKeeps_setResult _ _ (hknown item hheld)) rfl rfl nofun nofun nofun fun _ => ?_
      refine ⟨{ r with status := .success }, ?_, rfl, hcomp, hchosen, hright⟩
      show Function.update s.resultMap item.allocTaskId ((s.resultMap item.allocTaskId).map _) item.allocTaskId = _
      rw [Function.update_self, hr]
      rfl
    | finished item =>
      obtain ⟨hzero, hinv⟩ := h.finish hpc
      simp only [workerStep, hpc, hzero] at hs
      obtain rfl := Option.some.inj hs
      exact hinv
    | notifying item =>
      simp only [workerStep, hpc] at hs
      obtain rfl := Option.some.inj hs
      exact h.rest rfl rfl ⟨rfl, rfl, rfl, rfl, rfl, rfl, rfl, rfl, rfl⟩

/-! ## Waiting -/

structure WaitInv (s : Manager ι α) : Prop where
  waiting : ∀ t id, s.wait t = .looking id ∨ s.wait t = .falling id ∨ s.wait t = .asleep id → s.place id ≠ .absent
  passed : ∀ t id, s.wait t = .passed id → s.place id = .done
  removing : ∀ t id failure, s.wait t = .removing id failure → s.place id = .done ∧ failure = false
  returned : ∀ t id status, s.wait t = .returned id status → status ≠ .notFound → s.place id = .done ∧ status = .ok
  asleep : ∀ t id, s.wait t = .falling id ∨ s.wait t = .asleep id → s.counter id = 0 → ∃ q item, s.worker q = .notifying item ∧
      item.allocTaskId = id

/-- What a worker's step does to those who wait. -/
inductive WakeStep (q : Nat) (s s' : Manager ι α) : Prop where
  | works (wait : s'.wait = s.wait) (others : ∀ q', q' ≠ q → s'.worker q' = s.worker q')
      (before : ∀ item, s.worker q ≠ .notifying item)
      (counter : s'.counter = s.counter)
  | counts (item : WorkItem α) (wait : s'.wait = s.wait) (others : ∀ q', q' ≠ q → s'.worker q' = s.worker q')
      (before : ∀ item, s.worker q ≠ .notifying item) (now : s'.worker q = .notifying item)
      (counter : ∀ id, id ≠ item.allocTaskId → s'.counter id = s.counter id)
  | notifies (item : WorkItem α) (before : s.worker q = .notifying item)
      (wait : s'.wait = fun t => if s.wait t = .asleep item.allocTaskId then .looking item.allocTaskId else s.wait t)
      (others : ∀ q', q' ≠ q → s'.worker q' = s.worker q') (counter : s'.counter = s.counter)

theorem workerStep_wakes {q : Nat} {l : WorkerLabel} (h : TaskInv s) (hs : workerStep kernel s q l = some s') :
    WakeStep q s s' ∧ (∀ id, s.place id ≠ .absent → s'.place id ≠ .absent) ∧ ∀ id, s.place id = .done → s'.place id = .done := by
  have hothers : ∀ {f : Nat → WorkerPc α} {pc : WorkerPc α}, ∀ q', q' ≠ q → Function.update f q pc q' = f q' :=
      fun q' e => Function.update_of_ne e ..
  cases l with
  | pop =>
    simp only [workerStep] at hs
    split at hs
    · next item rest hpc hq =>
      obtain rfl := Option.some.inj hs
      have hplace := (h.queued q item (by rw [hq]; exact List.mem_cons_self)).1
      refine ⟨.works rfl hothers (by rw [hpc]; nofun) rfl, fun id hid => ?_, fun id hid => ?_⟩
      · dsimp only
        by_cases e : id = item.allocTaskId
        · rw [e, Function.update_self]
          nofun
        · rw [Function.update_of_ne e]
          exact hid
      · dsimp only
        rw [Function.update_of_ne]
        · exact hid
        · intro e
          subst e
          rw [hid] at hplace
          cases hplace
    · cases hs
  | step order =>
    cases hpc : s.worker q with
    | idle =>
      simp only [workerStep, hpc] at hs
      cases hs
    | finished item =>
      obtain ⟨hzero, -⟩ := h.finish hpc
      have hplace := (h.held q item (by rw [hpc]; rfl)).1
      simp only [workerStep, hpc, hzero] at hs
      obtain rfl := Option.some.inj hs
      refine ⟨.counts item rfl hothers (by rw [hpc]; nofun) (Function.update_self ..) fun id e => Function.update_of_ne e ..,
        fun id hid => ?_, fun id hid => ?_⟩
      · dsimp only
        by_cases e : id = item.allocTaskId
        · rw [e, Function.update_self]
          nofun
        · rw [Function.update_of_ne e]
          exact hid
      · dsimp only
        by_cases e : id = item.allocTaskId
        · rw [e, Function.update_self]
        · rw [Function.update_of_ne e]
          exact hid
    | notifying item =>
      simp only [workerStep, hpc] at hs
      obtain rfl := Option.some.inj hs
      exact ⟨.notifies item hpc rfl hothers rfl, fun _ h => h, fun _ h => h⟩
    | running item =>
      simp only [workerStep, hpc] at hs
      split at hs
      · cases hs
      · simp only [runnerRun] at hs
        split at hs
        · obtain rfl := Option.some.inj hs
          exact ⟨.works rfl hothers (by rw [hpc]; nofun) rfl, fun _ h => h, fun _ h => h⟩
        · cases hs
        · obtain rfl := Option.some.inj hs
          exact ⟨.works rfl hothers (by rw [hpc]; nofun) rfl, fun _ h => h, fun _ h => h⟩
    | ran item status =>
      simp only [workerStep, hpc] at hs
      split at hs
      all_goals
        obtain rfl := Option.some.inj hs
        exact ⟨.works rfl hothers (by rw [hpc]; nofun) rfl, fun _ h => h, fun _ h => h⟩
    | _ =>
      simp only [workerStep, hpc] at hs
      obtain rfl := Option.some.inj hs
      exact ⟨.works rfl hothers (by rw [hpc]; nofun) rfl, fun _ h => h, fun _ h => h⟩

theorem WaitInv.worker {q : Nat} {l : WorkerLabel} (h : WaitInv s) (ht : TaskInv s)
    (hprompt : ∀ item, s.worker q = .notifying item → ∀ t, s.wait t ≠ .falling item.allocTaskId)
    (hs : workerStep kernel s q l = some s') : WaitInv s' := by
  obtain ⟨hwake, habsent, hdone⟩ := workerStep_wakes ht hs
  have hwait : ∀ t pc, s'.wait t = pc → s.wait t = pc ∨ ∃ id, pc = .looking id ∧ s.wait t = .asleep id := by
    intro t pc hpc
    cases hwake with
    | works wait others before counter => exact .inl (wait ▸ hpc)
    | counts item wait others before now counter => exact .inl (wait ▸ hpc)
    | notifies item before wait others counter =>
      rw [wait] at hpc
      dsimp only at hpc
      split at hpc
      · next e => exact .inr ⟨_, hpc.symm, e⟩
      · exact .inl hpc
  constructor
  · intro t id hpc
    apply habsent
    apply h.waiting t id
    rcases hpc with hpc | hpc | hpc
    · rcases hwait t _ hpc with e | ⟨id', e, e'⟩
      · exact .inl e
      · cases e
        exact .inr (.inr e')
    · rcases hwait t _ hpc with e | ⟨id', e, -⟩
      · exact .inr (.inl e)
      · cases e
    · rcases hwait t _ hpc with e | ⟨id', e, -⟩
      · exact .inr (.inr e)
      · cases e
  · intro t id hpc
    rcases hwait t _ hpc with e | ⟨id', e, -⟩
    · exact hdone id (h.passed t id e)
    · cases e
  · intro t id failure hpc
    rcases hwait t _ hpc with e | ⟨id', e, -⟩
    · exact ⟨hdone id (h.removing t id failure e).1, (h.removing t id failure e).2⟩
    · cases e
  · intro t id status hpc hst
    rcases hwait t _ hpc with e | ⟨id', e, -⟩
    · exact ⟨hdone id (h.returned t id status e hst).1, (h.returned t id status e hst).2⟩
    · cases e
  · intro t id hpc hzero
    have hpc' : s.wait t = .falling id ∨ s.wait t = .asleep id := by
      rcases hpc with hpc | hpc
      · rcases hwait t _ hpc with e | ⟨id', e, -⟩
        · exact .inl e
        · cases e
      · rcases hwait t _ hpc with e | ⟨id', e, -⟩
        · exact .inr e
        · cases e
    cases hwake with
    | works wait others before counter =>
      obtain ⟨q', item, hq', hid⟩ := h.asleep t id hpc' (counter ▸ hzero)
      have hne : q' ≠ q := fun e => before item (e ▸ hq')
      exact ⟨q', item, (others q' hne).trans hq', hid⟩
    | counts item wait others before now counter =>
      by_cases e : id = item.allocTaskId
      · exact ⟨q, item, now, e.symm⟩
      · obtain ⟨q', item', hq', hid⟩ := h.asleep t id hpc' (counter id e ▸ hzero)
        have hne : q' ≠ q := fun e => before item' (e ▸ hq')
        exact ⟨q', item', (others q' hne).trans hq', hid⟩
    | notifies item before wait others counter =>
      -- those who are asleep are woken
      have hid : id ≠ item.allocTaskId := by
        intro e
        subst e
        rcases hpc' with e | e
        · exact hprompt item before t e
        · rw [wait] at hpc
          dsimp only at hpc
          rw [if_pos e] at hpc
          rcases hpc with hpc | hpc <;> cases hpc
      obtain ⟨q', item', hq', hid'⟩ := h.asleep t id hpc' (counter ▸ hzero)
      have hne : q' ≠ q := by
        intro e
        subst e
        rw [before] at hq'
        cases hq'
        exact hid hid'.symm
      exact ⟨q', item', (others q' hne).trans hq', hid'⟩

theorem WaitInv.submit {task : RetrieveTask α} (h : WaitInv s) (ht : TaskInv s)
    (hs : submitSingleTask numQueues s task = some s') : WaitInv s' := by
  have habsent := ht.absent (s.taskIdSeed + 1) (Nat.lt_succ_self _)
  obtain ⟨-, hwaiter, hresult⟩ := ht.fresh _ habsent
  simp only [submitSingleTask] at hs
  split at hs
  · cases hs
  rw [hwaiter, hresult, if_neg (by nofun), if_neg (by nofun)] at hs
  obtain rfl := Option.some.inj hs
  have hne : ∀ id, s.place id ≠ .absent → id ≠ s.taskIdSeed + 1 := fun id hid e => hid (e ▸ habsent)
  have hdone : ∀ id, s.place id = .done →
      Function.update s.place (s.taskIdSeed + 1) (.queued s.lastTimeScheduledQueueIdx) id = .done := by
    intro id hid
    rw [Function.update_of_ne (hne id (by rw [hid]; nofun))]
    exact hid
  constructor
  · intro t id hpc
    have hid := h.waiting t id hpc
    dsimp only
    rw [Function.update_of_ne (hne id hid)]
    exact hid
  · intro t id hpc
    exact hdone id (h.passed t id hpc)
  · intro t id failure hpc
    exact ⟨hdone id (h.removing t id failure hpc).1, (h.removing t id failure hpc).2⟩
  · intro t id status hpc hst
    exact ⟨hdone id (h.returned t id status hpc hst).1, (h.returned t id status hpc hst).2⟩
  · intro t id hpc hzero
    have hid := h.waiting t id (.inr hpc)
    dsimp only at hzero
    rw [Function.update_of_ne (hne id hid)] at hzero
    exact h.asleep t id hpc hzero

omit [LinearOrder α] in
/-- A waiter comes to another point. -/
theorem WaitInv.move [DecidableEq ι] {t : ι} {pc : WaitPc} (h : WaitInv s) (hwait : s'.wait = Function.update s.wait t pc)
    (hsame : s'.place = s.place ∧ s'.counter = s.counter ∧ s'.worker = s.worker)
    (hwaiting : ∀ id, pc = .looking id ∨ pc = .falling id ∨ pc = .asleep id → s.place id ≠ .absent)
    (hpassed : ∀ id, pc = .passed id → s.place id = .done)
    (hremoving : ∀ id failure, pc = .removing id failure → s.place id = .done ∧ failure = false)
    (hreturned : ∀ id status, pc = .returned id status → status ≠ .notFound → s.place id = .done ∧ status = .ok)
    (hasleep : ∀ id, pc = .falling id ∨ pc = .asleep id → s.counter id = 0 → ∃ q item, s.worker q = .notifying item ∧
      item.allocTaskId = id) : WaitInv s' := by
  obtain ⟨hplace, hcounter, hworker⟩ := hsame
  have hself : s'.wait t = pc := by
    rw [hwait]
    exact Function.update_self ..
  have hother : ∀ t', t' ≠ t → s'.wait t' = s.wait t' := by
    intro t' e
    rw [hwait]
    exact Function.update_of_ne e ..
  constructor
  · intro t' id hpc
    rw [hplace]
    by_cases e : t' = t
    · rw [e, hself] at hpc
      exact hwaiting id hpc
    · rw [hother t' e] at hpc
      exact h.waiting t' id hpc
  · intro t' id hpc
    rw [hplace]
    by_cases e : t' = t
    · rw [e, hself] at hpc
      exact hpassed id hpc
    · rw [hother t' e] at hpc
      exact h.passed t' id hpc
  · intro t' id failure hpc
    rw [hplace]
    by_cases e : t' = t
    · rw [e, hself] at hpc
      exact hremoving id failure hpc
    · rw [hother t' e] at hpc
      exact h.removing t' id failure hpc
  · intro t' id status hpc
    rw [hplace]
    by_cases e : t' = t
    · rw [e, hself] at hpc
      exact hreturned id status hpc
    · rw [hother t' e] at hpc
      exact h.returned t' id status hpc
  · intro t' id hpc
    rw [hcounter, hworker]
    by_cases e : t' = t
    · rw [e, hself] at hpc
      exact hasleep id hpc
    · rw [hother t' e] at hpc
      exact h.asleep t' id hpc

omit [LinearOrder α] in
theorem waitStep_call [DecidableEq ι] {t : ι} {taskId : Nat} (hs : waitStep s t (.call taskId) = some s') :
    (s.waiters taskId = true ∧
      s' = { s with waiters := Function.update s.waiters taskId false, wait := Function.update s.wait t (.looking taskId) }) ∨
    (s.waiters taskId = false ∧ s' = s.setWait t (.returned taskId .notFound)) := by
  simp only [waitStep] at hs
  split at hs
  · split at hs
    · next hw => exact .inl ⟨hw, (Option.some.inj hs).symm⟩
    · next hw => exact .inr ⟨Bool.eq_false_of_not_eq_true hw, (Option.some.inj hs).symm⟩
  · split at hs
    · next hw => exact .inl ⟨hw, (Option.some.inj hs).symm⟩
    · next hw => exact .inr ⟨Bool.eq_false_of_not_eq_true hw, (Option.some.inj hs).symm⟩
  · cases hs

theorem WaitInv.wait [DecidableEq ι] {t : ι} {l : WaitLabel} (h : WaitInv s) (ht : TaskInv s) (hs : waitStep s t l = some s') :
    WaitInv s' := by
  cases l with
  | call taskId =>
    rcases waitStep_call hs with ⟨hw, rfl⟩ | ⟨-, rfl⟩
    · have hplace : s.place taskId ≠ .absent := by
        intro e
        rw [(ht.fresh taskId e).2.1] at hw
        cases hw
      refine h.move rfl ⟨rfl, rfl, rfl⟩ ?_ nofun nofun nofun ?_
      · intro id e
        rcases e with e | e | e <;> cases e
        exact hplace
      · intro id e
        rcases e with e | e <;> cases e
    · refine h.move rfl ⟨rfl, rfl, rfl⟩ ?_ nofun nofun ?_ ?_
      · intro id e
        rcases e with e | e | e <;> cases e
      · intro id status e hst
        cases e
        exact absurd rfl hst
      · intro id e
        rcases e with e | e <;> cases e
  | step =>
    cases hpc : s.wait t with
    | looking taskId =>
      have hplace := h.waiting t taskId (.inl hpc)
      simp only [waitStep, hpc] at hs
      obtain rfl := Option.some.inj hs
      by_cases hzero : s.counter taskId = 0
      · rw [if_pos hzero]
        refine h.move rfl ⟨rfl, rfl, rfl⟩ ?_ ?_ nofun nofun ?_
        · intro id e
          rcases e with e | e | e <;> cases e
        · intro id e
          cases e
          cases hp : s.place taskId with
          | absent => exact absurd hp hplace
          | queued q =>
            rw [ht.live taskId q (.inl hp)] at hzero
            cases hzero
          | held q =>
            rw [ht.live taskId q (.inr hp)] at hzero
            cases hzero
          | done => rfl
        · intro id e
          rcases e with e | e <;> cases e
      · rw [if_neg hzero]
        refine h.move rfl ⟨rfl, rfl, rfl⟩ ?_ nofun nofun nofun ?_
        · intro id e
          rcases e with e | e | e <;> cases e
          exact hplace
        · intro id e hz
          rcases e with e | e <;> cases e
          exact absurd hz hzero
    | falling taskId =>
      have hplace := h.waiting t taskId (.inr (.inl hpc))
      have hasleep := h.asleep t taskId (.inl hpc)
      simp only [waitStep, hpc] at hs
      obtain rfl := Option.some.inj hs
      refine h.move rfl ⟨rfl, rfl, rfl⟩ ?_ nofun nofun nofun ?_
      · intro id e
        rcases e with e | e | e <;> cases e
        exact hplace
      · intro id e hz
        rcases e with e | e <;> cases e
        exact hasleep hz
    | passed taskId =>
      have hdone := h.passed t taskId hpc
      simp only [waitStep, hpc] at hs
      obtain rfl := Option.some.inj hs
      refine h.move rfl ⟨rfl, rfl, rfl⟩ ?_ nofun ?_ nofun ?_
      · intro id e
        rcases e with e | e | e <;> cases e
      · intro id failure e
        cases e
        refine ⟨hdone, ?_⟩
        rw [ht.failureSet]
        rfl
      · intro id e
        rcases e with e | e <;> cases e
    | removing taskId failure =>
      obtain ⟨hdone, rfl⟩ := h.removing t taskId failure hpc
      simp only [waitStep, hpc] at hs
      obtain rfl := Option.some.inj hs
      refine h.move rfl ⟨rfl, rfl, rfl⟩ ?_ nofun nofun ?_ ?_
      · intro id e
        rcases e with e | e | e <;> cases e
      · intro id status e _
        cases e
        exact ⟨hdone, rfl⟩
      · intro id e
        rcases e with e | e <;> cases e
    | _ =>
      simp only [waitStep, hpc] at hs
      cases hs
  | spurious =>
    cases hpc : s.wait t with
    | asleep taskId =>
      have hplace := h.waiting t taskId (.inr (.inr hpc))
      simp only [waitStep, hpc] at hs
      obtain rfl := Option.some.inj hs
      refine h.move rfl ⟨rfl, rfl, rfl⟩ ?_ nofun nofun nofun ?_
      · intro id e
        rcases e with e | e | e <;> cases e
        exact hplace
      · intro id e
        rcases e with e | e <;> cases e
    | _ =>
      simp only [waitStep, hpc] at hs
      cases hs

omit [LinearOrder α] in
/-- `Wait` only takes a waiter, and empties an empty failure set. -/
theorem waitStep_frame [DecidableEq ι] {t : ι} {l : WaitLabel} (hs : waitStep s t l = some s') :
    ∃ waiters failureSet wait, s' = { s with waiters := waiters, failureSet := failureSet, wait := wait } ∧
      (∀ id, waiters id = true → s.waiters id = true) ∧ (s.failureSet = [] → failureSet = []) := by
  cases l with
  | call taskId =>
    rcases waitStep_call hs with ⟨-, rfl⟩ | ⟨-, rfl⟩
    · refine ⟨_, s.failureSet, _, rfl, fun id hid => ?_, id⟩
      by_cases e : id = taskId
      · rw [e, Function.update_self] at hid
        cases hid
      · rw [Function.update_of_ne e] at hid
        exact hid
    · exact ⟨s.waiters, s.failureSet, _, rfl, fun _ => id, id⟩
  | step =>
    cases hpc : s.wait t with
    | removing taskId failure =>
      simp only [waitStep, hpc] at hs
      obtain rfl := Option.some.inj hs
      refine ⟨s.waiters, _, _, rfl, fun _ => id, fun e => ?_⟩
      rw [e]
      rfl
    | looking taskId | falling taskId | passed taskId =>
      simp only [waitStep, hpc] at hs
      obtain rfl := Option.some.inj hs
      exact ⟨s.waiters, s.failureSet, _, rfl, fun _ => id, id⟩
    | _ =>
      simp only [waitStep, hpc] at hs
      cases hs
  | spurious =>
    cases hpc : s.wait t with
    | asleep taskId =>
      simp only [waitStep, hpc] at hs
      obtain rfl := Option.some.inj hs
      exact ⟨s.waiters, s.failureSet, _, rfl, fun _ => id, id⟩
    | _ =>
      simp only [waitStep, hpc] at hs
      cases hs

theorem TaskInv.wait [DecidableEq ι] {t : ι} {l : WaitLabel} (h : TaskInv s) (hs : waitStep s t l = some s') : TaskInv s' := by
  obtain ⟨waiters, failureSet, wait, rfl, hwaiters, hfail⟩ := waitStep_frame hs
  refine ⟨h.queued, h.nodup, h.held, h.absent, fun id hid => ?_, h.known, h.live, hfail h.failureSet, h.caught, h.failed, h.ran,
    h.finished, h.done⟩
  obtain ⟨hsub, hw, hresult⟩ := h.fresh id hid
  refine ⟨hsub, Bool.eq_false_of_not_eq_true fun e => ?_, hresult⟩
  rw [hwaiters id e] at hw
  cases hw

/-! ## Runs -/

/-- Only tasks that are `Served` are computed, a task is waited for once, and no notification comes while a
    waiter falls asleep. -/
def Prompt (s : Manager ι α) : ManagerLabel ι α → Prop
  | .worker q (.step _) =>
    (∀ item, s.worker q = .running item → Served item.task) ∧ ∀ item, s.worker q = .notifying item →
    ∀ t, s.wait t ≠ .falling item.allocTaskId
  | .wait _ (.call id) => (s.submitted id).isSome → s.waiters id = true
  | _ => True

variable [DecidableEq ι]

omit [DecidableEq ι] in
theorem TaskInv.init (h : s.IsInit) : TaskInv s := by
  constructor
  · intro q item hitem
    rw [h.taskQ] at hitem
    cases hitem
  · intro q
    rw [h.taskQ]
    exact List.nodup_nil
  · intro q item hheld
    rw [h.worker] at hheld
    cases hheld
  · intro id _
    exact h.place id
  · intro id _
    exact ⟨h.submitted id, h.waiters id, h.resultMap id⟩
  · intro id hid
    exact absurd (h.place id) hid
  · intro id q hid
    rw [h.place] at hid
    rcases hid with hid | hid <;> cases hid
  · exact h.failureSet
  · intro q item what
    rw [h.worker]
    nofun
  · intro q item
    rw [h.worker]
    nofun
  · intro q item status hpc
    rw [h.worker] at hpc
    cases hpc
  · intro q item hpc
    rw [h.worker] at hpc
    cases hpc
  · intro id hid
    rw [h.place] at hid
    cases hid

omit [LinearOrder α] [DecidableEq ι] in
theorem WaitInv.init (h : s.IsInit) : WaitInv s := by
  constructor
  · intro t id hpc
    rw [h.wait] at hpc
    rcases hpc with hpc | hpc | hpc <;> cases hpc
  · intro t id hpc
    rw [h.wait] at hpc
    cases hpc
  · intro t id failure hpc
    rw [h.wait] at hpc
    cases hpc
  · intro t id status hpc
    rw [h.wait] at hpc
    cases hpc
  · intro t id hpc
    rw [h.wait] at hpc
    rcases hpc with hpc | hpc <;> cases hpc

theorem TaskInv.step (h : TaskInv s) (hp : Prompt s l) (hs : managerStep kernel numQueues s l = some s') : TaskInv s' := by
  cases l with
  | submit task => exact h.submit hs
  | worker q l =>
    simp only [managerStep] at hs
    split at hs
    · cases l with
      | pop => exact h.worker (fun item hpc => by simp only [workerStep, hpc] at hs; cases hs) hs
      | step order => exact h.worker hp.1 hs
    · cases hs
  | wait t l => exact h.wait hs

theorem WaitInv.step (h : WaitInv s) (ht : TaskInv s) (hp : Prompt s l) (hs : managerStep kernel numQueues s l = some s') :
    WaitInv s' := by
  cases l with
  | submit task => exact h.submit ht hs
  | worker q l =>
    simp only [managerStep] at hs
    split at hs
    · cases l with
      | pop => exact h.worker ht (fun item hpc => by simp only [workerStep, hpc] at hs; cases hs) hs
      | step order => exact h.worker ht hp.2 hs
    · cases hs
  | wait t l => exact h.wait ht hs

theorem reach_taskInv (h : Reach (retrieval ι α kernel numQueues) Prompt s) : TaskInv s :=
  h.inv (I := TaskInv) (fun _ hi => TaskInv.init hi) fun _ _ _ hi hp hs => hi.step hp hs

theorem reach_waitInv (h : Reach (retrieval ι α kernel numQueues) Prompt s) : WaitInv s :=
  h.inv_with (I := WaitInv) (J := TaskInv) (fun _ hr => reach_taskInv hr) (fun _ hi => WaitInv.init hi) fun _ _ _ ht hi hp hs =>
  hi.step ht hp hs

/-- What `Wait` has returned for a task is right, and so is its result. -/
structure Reported (s : Manager ι α) (taskId : Nat) (status : Status) : Prop where
  ok_iff : status = .ok ↔ ∃ l, s.computed taskId = some (.topkIndices l)
  ok : status = .ok → ∃ task r, s.submitted taskId = some task ∧ s.resultMap taskId = some r ∧ r.status = .success ∧
    s.computed taskId = some (.topkIndices r.topkIndices) ∧ Chosen task r.topkIndices ∧ KernelsRight task
  error : status ≠ .ok → ∃ r, s.resultMap taskId = some r ∧ r.status = .failure

theorem retrieval_reports :
    (∀ task : RetrieveTask α, KernelsRight task ↔ Served task) ∧
    ∀ s, Reach (retrieval ι α kernel numQueues) Prompt s →
      (∀ t id status, s.wait t = .returned id status → status ≠ .notFound → Reported s id status) ∧
      (∀ t id s', (s.submitted id).isSome → Prompt s (.wait t (.call id)) → waitStep s t (.call id) = some s' →
        s'.wait t = .looking id) ∧
      ∀ t id, s.wait t = .falling id ∨ s.wait t = .asleep id → s.counter id = 0 → ∃ q item, s.worker q = .notifying item ∧
      item.allocTaskId = id := by
  refine ⟨kernelsRight_iff, fun s h => ⟨?_, ?_, (reach_waitInv h).asleep⟩⟩
  · intro t id status hpc hst
    obtain ⟨hdone, rfl⟩ := (reach_waitInv h).returned t id status hpc hst
    obtain ⟨-, task, hsub, r, hr, hsuccess, hcomp, hchosen, hright⟩ := (reach_taskInv h).done id hdone
    exact ⟨⟨fun _ => ⟨_, hcomp⟩, fun _ => rfl⟩, fun _ => ⟨task, r, hsub, hr, hsuccess, hcomp, hchosen, hright⟩,
      fun hne => absurd rfl hne⟩
  · intro t id s' hsub hp hs
    rcases waitStep_call hs with ⟨-, rfl⟩ | ⟨hw, -⟩
    · exact Function.update_self ..
    · rw [hp hsub] at hw
      cases hw

def freshManager : Manager Unit Nat :=
  ⟨0, 0, fun _ => [], fun _ => .idle, fun _ => false, fun _ => 0, fun _ => none, [], fun _ => .idle, fun _ => none,
    fun _ => none, fun _ => .absent⟩

theorem freshManager_isInit : freshManager.IsInit :=
  ⟨rfl, rfl, fun _ => rfl, fun _ => rfl, fun _ => rfl, fun _ => rfl, fun _ => rfl, rfl, fun _ => rfl, fun _ => rfl,
    fun _ => rfl, fun _ => rfl⟩

/-- Four blocks of different scores, and two to choose. -/
def twoOfFour (task : RetrieveTask Nat) : Bool :=
  decide (task.queryShape = [1, 2, 2] ∧ task.blkRepreShape = [4, 1, 2, 2] ∧ task.dPrunedIndexShape = none ∧ task.topK = 2) &&
    decide ((List.range 4).map task.score).Nodup

theorem twoOfFour_served {task : RetrieveTask Nat} (h : twoOfFour task = true) : Served task := by
  obtain ⟨hshapes, hne⟩ := (Bool.and_eq_true ..).mp h
  obtain ⟨hquery, hblk, hpruned, htopK⟩ := of_decide_eq_true hshapes
  have hne : ((List.range 4).map task.score).Nodup := of_decide_eq_true hne
  refine ⟨fun select => ?_, ?_, ?_, ?_⟩
  · simp only [executeImpl, hquery, hblk, hpruned]
    rfl
  · rw [htopK]
    decide
  · rw [htopK, hblk]
    decide
  · rw [hblk]
    exact settled_of_distinct fun i j hi hj => List.inj_on_of_nodup_map hne (List.mem_range.mpr hi) (List.mem_range.mpr hj)

def prompt (s : Manager Unit Nat) : ManagerLabel Unit Nat → Bool
  | .worker q (.step _) =>
    match s.worker q with
    | .running item => twoOfFour item.task
    | .notifying item => decide (s.wait () ≠ .falling item.allocTaskId)
    | _ => true
  | .wait _ (.call id) => s.waiters id
  | _ => true

theorem prompt_ok {s : Manager Unit Nat} {l : ManagerLabel Unit Nat} (h : prompt s l = true) : Prompt s l := by
  unfold Prompt
  split
  · next q order =>
    constructor
    · intro item hpc
      simp only [prompt, hpc] at h
      exact twoOfFour_served h
    · intro item hpc t
      simp only [prompt, hpc] at h
      exact of_decide_eq_true h
  · exact fun _ => h
  · trivial

/-- The worker of a queue takes a task, and comes to the end of its computation. -/
def computes (q : Nat) (order : List Nat) : List (ManagerLabel Unit Nat) :=
  [.worker q .pop, .worker q (.step []), .worker q (.step []), .worker q (.step order)]

/-- It counts the task down and notifies. -/
def counts (q : Nat) : List (ManagerLabel Unit Nat) := [.worker q (.step []), .worker q (.step []), .worker q (.step [])]

def waits : List (ManagerLabel Unit Nat) := [.wait () (.call 1), .wait () .step, .wait () .step, .wait () .step]

/-- Two tasks on two queues; the waiter of the first falls asleep before it is computed. -/
def twoTasks : List (ManagerLabel Unit Nat) :=
  [.submit ⟨[1, 2, 2], [4, 1, 2, 2], none, 2, fun i => [5, 9, 1, 7].getD i 0⟩,
    .submit ⟨[1, 2, 2], [4, 1, 2, 2], none, 2, fun i => [6, 2, 8, 3].getD i 0⟩] ++
    computes 1 [2, 0, 3, 1] ++ waits.take 3 ++ computes 0 [1, 3, 2, 0] ++ counts 0 ++ [.wait () .step, .wait () .step,
      .wait () .step]

theorem retrieval_reports_two_tasks :
    ∃ s : Manager Unit Nat, s.wait () = .returned 1 .ok ∧ Reported s 1 .ok ∧ s.computed 1 = some (.topkIndices [1, 3]) ∧
      (∀ s', Prompt s (.wait () (.call 1)) → waitStep s () (.call 1) = some s' → s'.wait () = .looking 1) ∧
      ∀ id, s.wait () = .falling id ∨ s.wait () = .asleep id → s.counter id = 0 → ∃ q item, s.worker q = .notifying item ∧
      item.allocTaskId = id := by
  obtain ⟨s, hr, hs⟩ := exists_of_replayOk (S := retrieval Unit Nat .vector 2) prompt (fun _ _ => prompt_ok) twoTasks
      (s := freshManager)
    (p := fun s => decide (s.wait () = .returned 1 .ok) && decide (s.computed 1 = some (.topkIndices [1, 3])) &&
      (s.submitted 1).isSome)
    freshManager_isInit (by decide +kernel)
  obtain ⟨⟨hwait, hcomp⟩, hsub⟩ : (s.wait () = .returned 1 .ok ∧ s.computed 1 = some (.topkIndices [1, 3])) ∧
      (s.submitted 1).isSome = true := by
    simpa using hs
  obtain ⟨hreported, hcall, hasleep⟩ := retrieval_reports.2 s hr
  exact ⟨s, hwait, hreported () 1 .ok hwait (by nofun), hcomp, fun s' => hcall () 1 s' hsub, hasleep ()⟩

/-- The shapes of a task are rejected, and `Wait` returns `OK`, with `SUCCESS` and no blocks. Of three blocks
    the kernels choose two that are not the same,
and no blocks are an undefined behaviour. -/
theorem rejected_task_succeeds :
    (∃ s : Manager Unit Nat, Reach (retrieval Unit Nat .scalar 1) Any s ∧ s.wait () = .returned 1 .ok ∧
      s.computed 1 = some (.threw "Query shape must be 3D (x, H, d).") ∧
      s.resultMap 1 = some ⟨.success, [], "Query shape must be 3D (x, H, d)."⟩) ∧
    (∃ (task : RetrieveTask Nat) (order : List Nat), LeftBy task order ∧ execute .vector task order = .topkIndices [2, 0] ∧
      execute .scalar task order = .topkIndices [2, 1]) ∧
    ∃ task : RetrieveTask Nat, ∀ order, execute .vector task order = .undefined ∧ execute .scalar task order = .undefined := by
  refine ⟨?_, ?_, ?_⟩
  · obtain ⟨s, hr, hs⟩ := exists_of_replay (S := retrieval Unit Nat .scalar 1)
      (.submit ⟨[1], [1, 1, 1, 1], none, 1, fun _ => 5⟩ :: computes 0 [] ++ .worker 0 (.step []) :: counts 0 ++ waits)
      (s := freshManager)
      (p := fun s => decide (s.wait () = .returned 1 .ok) &&
        decide (s.computed 1 = some (.threw "Query shape must be 3D (x, H, d).")) &&
        decide (s.resultMap 1 = some ⟨.success, [], "Query shape must be 3D (x, H, d)."⟩))
      freshManager_isInit (by decide +kernel)
    obtain ⟨⟨hwait, hcomp⟩, hresult⟩ : (s.wait () = .returned 1 .ok ∧
        s.computed 1 = some (.threw "Query shape must be 3D (x, H, d).")) ∧
        s.resultMap 1 = some ⟨.success, [], "Query shape must be 3D (x, H, d)."⟩ := by
      simpa using hs
    exact ⟨s, hr, hwait, hcomp, hresult⟩
  · exact ⟨⟨[1, 1, 1], [3, 1, 1, 1], none, 2, fun i => if i = 2 then 2 else 1⟩, [2, 0, 1], by decide +kernel, by decide +kernel,
      by decide +kernel⟩
  · exact ⟨⟨[1, 1, 1], [1, 1, 1, 1], none, 0, fun _ => 5⟩, fun order => ⟨by rfl, by rfl⟩⟩

end UnifiedCache.Kvstar
