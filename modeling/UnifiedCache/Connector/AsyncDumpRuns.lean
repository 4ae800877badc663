/-
  UnifiedCache.Connector.AsyncDumpRuns — when the blocks that a dump reads may be given back.

  Both connectors keep a set of requests that dump; each rank's is the scheduler's as of the step it is at.
  In every run in which the engine schedules no request that has finished:

  1. `dumps_keep_blocks`: while a rank is in a step, every dump not waited for reads blocks that its
     requests have not lost by a preemption up to that step; and none reads blocks of a finished request
     that were given back, nor will one be submitted.
  2. `finished_reported_once`: a rank reports a request in the step that lists it as finished, once, if
     `request_finished` answered `True`, and never otherwise; so all ranks come to report it.
-/

import Mathlib.Data.Nat.Basic
import UnifiedCache.Connector.AsyncDump

namespace UnifiedCache.Connector.AsyncDump

open UnifiedCache.Base

variable {cfg : Config} {R U : Type}

/-- Some step dumps the request. -/
def Dumped (steps : List (StepOutput R U)) (r : R) : Prop := ∃ o ∈ steps, r ∈ o.dumpReqIds

/-- Some step lists the request as finished. -/
def Listed (steps : List (StepOutput R U)) (r : R) : Prop := ∃ o ∈ steps, r ∈ o.finishedReqIds

section Steps

variable {steps : List (StepOutput R U)} {o : StepOutput R U} {r : R} {n : Nat}

theorem dumped_concat : Dumped (steps ++ [o]) r ↔ Dumped steps r ∨ r ∈ o.dumpReqIds := by
  constructor
  · rintro ⟨o', ho', hr⟩
    rcases List.mem_append.mp ho' with ho' | ho'
    · exact .inl ⟨o', ho', hr⟩
    · exact .inr (List.mem_singleton.mp ho' ▸ hr)
  · rintro (⟨o', ho', hr⟩ | hr)
    · exact ⟨o', List.mem_append_left _ ho', hr⟩
    · exact ⟨o, List.mem_append_right _ List.mem_cons_self, hr⟩

theorem listed_concat : Listed (steps ++ [o]) r ↔ Listed steps r ∨ r ∈ o.finishedReqIds := by
  constructor
  · rintro ⟨o', ho', hr⟩
    rcases List.mem_append.mp ho' with ho' | ho'
    · exact .inl ⟨o', ho', hr⟩
    · exact .inr (List.mem_singleton.mp ho' ▸ hr)
  · rintro (⟨o', ho', hr⟩ | hr)
    · exact ⟨o', List.mem_append_left _ ho', hr⟩
    · exact ⟨o, List.mem_append_right _ List.mem_cons_self, hr⟩

theorem take_next (ho : steps[n]? = some o) : steps.take (n + 1) = steps.take n ++ [o] := by
  rw [List.take_add_one, ho]
  rfl

theorem Dumped.of_take (h : Dumped (steps.take n) r) : Dumped steps r := by
  obtain ⟨o, ho, hr⟩ := h
  exact ⟨o, List.mem_of_mem_take ho, hr⟩

theorem Listed.of_take (h : Listed (steps.take n) r) : Listed steps r := by
  obtain ⟨o, ho, hr⟩ := h
  exact ⟨o, List.mem_of_mem_take ho, hr⟩

theorem getElem?_concat (h : n < steps.length) : (steps ++ [o])[n]? = steps[n]? := List.getElem?_append_left h

end Steps

/-! ## A rank -/

/-- What is known of a task that a rank has not waited for. -/
structure Held (steps : List (StepOutput R U)) (k : Worker R) (t : PendingDumpTask R) : Prop where
  step_le : t.step ≤ k.next
  step_lt : k.pc = .idle → t.step < k.next
  dumped : ∀ o, steps[t.step]? = some o → ∀ r ∈ t.requestIds, r ∈ o.dumpReqIds
  reads : ∀ o, steps[t.step]? = some o → ∀ b ∈ t.vllmBlockIds, ∃ d ∈ o.requestMeta, d.requestId ∈ t.requestIds ∧
      b ∈ d.vllmBlockIds
  kept : ∀ r ∈ t.requestIds, ∀ j o, t.step < j → (j < k.next ∨ j = k.next ∧ k.pc ≠ .idle) → steps[j]? = some o →
      r ∉ o.preemptedReqIds
  unfinished : ∀ r ∈ t.requestIds, ¬ Listed (steps.take k.next) r

structure WorkerInv (cfg : Config) (steps : List (StepOutput R U)) (delayed : R → Bool) (k : Worker R) : Prop where
  next_le : k.next ≤ steps.length
  busy : k.pc ≠ .idle → k.next < steps.length
  ids : ∀ r, r ∈ k.asyncDumpReqIds ↔
    (Dumped (steps.take k.next) r ∨ k.pc = .saved ∧ ∃ o, steps[k.next]? = some o ∧ r ∈ o.dumpReqIds) ∧
    ¬ Listed (steps.take k.next) r
  pending : ∀ t ∈ k.pendingDumpTasks, Held steps k t
  deferred : ∀ x ∈ k.deferredMtpDumps, k.pc = .forward ∧ x.2.step = k.next ∧ x.2.requestIds ≠ [] ∧ Held steps k x.2
  direct : cfg.layerwise = false → k.deferredMtpDumps = []
  reported : ∀ r, Listed (steps.take k.next) r → delayed r = true → k.reported r = 1
  silent : ∀ r, (¬ Listed (steps.take k.next) r ∨ delayed r = false) → k.reported r = 0

structure Inv (s : State cfg R U) : Prop where
  ids : ∀ r, r ∈ s.asyncDumpReqIds ↔ Dumped s.steps r ∧ s.finished r = false
  finished : ∀ r, s.finished r = true ↔ Listed s.steps r ∨ r ∈ s.finishedReqIds
  fresh : ∀ r ∈ s.finishedReqIds, ¬ Listed s.steps r
  once : ∀ (i j : Nat) (o o' : StepOutput R U), s.steps[i]? = some o → s.steps[j]? = some o' → ∀ r ∈ o.finishedReqIds,
      r ∈ o'.finishedReqIds → i = j
  late : ∀ (i j : Nat) (o o' : StepOutput R U), i ≤ j → s.steps[i]? = some o → s.steps[j]? = some o' → ∀ r ∈ o.finishedReqIds,
      r ∉ o'.dumpReqIds
  delayed : ∀ r, s.delayed r = true → s.finished r = true ∧ Dumped s.steps r
  undelayed : ∀ r, s.finished r = true → s.delayed r = false → ¬ Dumped s.steps r
  freed : ∀ r, s.freed r = true → s.finished r = true ∧ ((∀ w, Listed (s.steps.take (s.workers w).next) r) ∨ ¬ Dumped s.steps r)
  workers : ∀ w, WorkerInv cfg s.steps s.delayed (s.workers w)

section Worker

variable {steps : List (StepOutput R U)} {delayed : R → Bool} {k : Worker R} {o : StepOutput R U}

theorem Held.step_lt_length {t : PendingDumpTask R} (ht : Held steps k t) (hle : k.next ≤ steps.length)
    (hbusy : k.pc ≠ .idle → k.next < steps.length) :
    t.step < steps.length := by
  by_cases hp : k.pc = .idle
  · exact Nat.lt_of_lt_of_le (ht.step_lt hp) hle
  · exact Nat.lt_of_le_of_lt ht.step_le (hbusy hp)

theorem Held.schedule {t : PendingDumpTask R} (ht : Held steps k t) (hle : k.next ≤ steps.length)
    (hbusy : k.pc ≠ .idle → k.next < steps.length)
    (o : StepOutput R U) : Held (steps ++ [o]) k t := by
  have hlt := ht.step_lt_length hle hbusy
  refine ⟨ht.step_le, ht.step_lt, fun o' ho' => ht.dumped o' (getElem?_concat hlt ▸ ho'),
    fun o' ho' => ht.reads o' (getElem?_concat hlt ▸ ho'),
    fun r hr j o' hj hor ho' => ?_, ?_⟩
  · have hjlt : j < steps.length := by
      rcases hor with hlt | ⟨rfl, hb⟩
      · exact Nat.lt_of_lt_of_le hlt hle
      · exact hbusy hb
    exact ht.kept r hr j o' hj hor (getElem?_concat hjlt ▸ ho')
  · rw [List.take_append_of_le_length hle]
    exact ht.unfinished

/-- A step is built behind those a rank knows of. -/
theorem WorkerInv.schedule (h : WorkerInv cfg steps delayed k) (o : StepOutput R U) : WorkerInv cfg (steps ++ [o]) delayed k := by
  have htake : (steps ++ [o]).take k.next = steps.take k.next := List.take_append_of_le_length h.next_le
  refine ⟨?_, fun hb => ?_, fun r => ?_, fun t ht => (h.pending t ht).schedule h.next_le h.busy o, fun x hx => ?_, h.direct,
    fun r => ?_, fun r => ?_⟩
  · rw [List.length_append]
    exact Nat.le_trans h.next_le (Nat.le_add_right ..)
  · rw [List.length_append]
    exact Nat.lt_of_lt_of_le (h.busy hb) (Nat.le_add_right ..)
  · rw [htake, h.ids]
    refine and_congr_left fun _ => or_congr_right (and_congr_right fun hp => ?_)
    have hb : k.pc ≠ .idle := by rw [hp]; exact nofun
    rw [getElem?_concat (h.busy hb)]
  · obtain ⟨hp, hstep, hne, ht⟩ := h.deferred x hx
    exact ⟨hp, hstep, hne, ht.schedule h.next_le h.busy o⟩
  · rw [htake]
    exact h.reported r
  · rw [htake]
    exact h.silent r

/-- Only tasks, put-off tasks and the set of requests change; the rank stays where it is. -/
theorem WorkerInv.tasks {k' : Worker R} (h : WorkerInv cfg steps delayed k) (hnext : k'.next = k.next) (hpc : k'.pc = k.pc)
    (hids : k'.asyncDumpReqIds = k.asyncDumpReqIds) (hreported : k'.reported = k.reported)
    (hpending : ∀ t ∈ k'.pendingDumpTasks, Held steps k t)
    (hdeferred : ∀ x ∈ k'.deferredMtpDumps, k.pc = .forward ∧ x.2.step = k.next ∧ x.2.requestIds ≠ [] ∧ Held steps k x.2)
    (hdirect : cfg.layerwise = false → k'.deferredMtpDumps = []) : WorkerInv cfg steps delayed k' := by
  obtain ⟨next, pc, tasks, puts, ids, reported⟩ := k'
  subst hnext hpc hids hreported
  have hheld : ∀ t, Held steps k t → Held steps { k with pendingDumpTasks := tasks, deferredMtpDumps := puts } t := fun t ht =>
    ⟨ht.step_le, ht.step_lt, ht.dumped, ht.reads, ht.kept, ht.unfinished⟩
  exact ⟨h.next_le, h.busy, h.ids, fun t ht => hheld t (hpending t ht), fun x hx => (hdeferred x hx).imp id fun hx =>
    hx.imp id fun hx => hx.imp id (hheld _),
    hdirect, h.reported, h.silent⟩

/-- What is left of a plan is of the same request, and reads no other block. -/
theorem dropNullVllmBlocks_spec (d : DumpPlan R U) :
    (dropNullVllmBlocks d).requestId = d.requestId ∧ ∀ b ∈ (dropNullVllmBlocks d).vllmBlockIds, b ∈ d.vllmBlockIds := by
  unfold dropNullVllmBlocks
  split
  · exact ⟨rfl, fun _ hb => hb⟩
  · refine ⟨rfl, fun b hb => ?_⟩
    obtain ⟨p, hp, rfl⟩ := List.mem_map.mp hb
    exact (List.of_mem_zip (List.mem_filter.mp hp).1).2

theorem saved_mem {d : DumpPlan R U} (h : d ∈ o.saved cfg) : d.requestId ∈ o.dumpReqIds ∧
    ∃ d' ∈ o.requestMeta, d'.requestId = d.requestId ∧ ∀ b ∈ d.vllmBlockIds, b ∈ d'.vllmBlockIds := by
  have hplain : ∀ d ∈ o.requestMeta.filter (fun d => !d.ucmBlockIds.isEmpty), d.requestId ∈ o.dumpReqIds ∧
      d ∈ o.requestMeta := fun d hd =>
    ⟨List.mem_map.mpr ⟨d, hd, rfl⟩, (List.mem_filter.mp hd).1⟩
  unfold StepOutput.saved at h
  dsimp only at h
  split at h
  · obtain ⟨d', hd', rfl⟩ := List.mem_map.mp (List.mem_filter.mp h).1
    obtain ⟨hdump, hmem⟩ := hplain d' hd'
    obtain ⟨hid, hblocks⟩ := dropNullVllmBlocks_spec d'
    exact ⟨hid ▸ hdump, d', hmem, hid.symm, hblocks⟩
  · exact ⟨(hplain d h).1, d, (hplain d h).2, rfl, fun _ hb => hb⟩

/-- The task of a step the rank is in. -/
theorem held_taskOf (cfg : Config) (ho : steps[k.next]? = some o) (hpc : k.pc ≠ .idle)
    (hlisted : ∀ r ∈ o.dumpReqIds, ¬ Listed (steps.take k.next) r) :
    Held steps k (taskOf (o.saved cfg) k.next) := by
  have hids : ∀ r ∈ (taskOf (o.saved cfg) k.next).requestIds, r ∈ o.dumpReqIds := by
    intro r hr
    obtain ⟨d, hd, rfl⟩ := List.mem_map.mp hr
    exact (saved_mem hd).1
  refine ⟨Nat.le_refl _, fun hp => absurd hp hpc, fun o' ho' r hr => ?_, fun o' ho' b hb => ?_, fun r _ j _ hj hle _ => ?_,
    fun r hr => hlisted r (hids r hr)⟩
  · obtain rfl := Option.some.inj (ho.symm.trans ho')
    exact hids r hr
  · obtain rfl := Option.some.inj (ho.symm.trans ho')
    obtain ⟨d, hd, hb⟩ := List.mem_flatMap.mp hb
    obtain ⟨-, d', hmem, hid, hblocks⟩ := saved_mem hd
    exact ⟨d', hmem, List.mem_map.mpr ⟨d, hd, hid.symm⟩, hblocks b hb⟩
  · rcases hle with hlt | ⟨rfl, -⟩
    · exact absurd (Nat.lt_trans hj hlt) (Nat.lt_irrefl _)
    · exact absurd hj (Nat.lt_irrefl _)

theorem mem_submit {t t' : PendingDumpTask R} {ok : Bool} (h : t ∈ (k.submit t' ok).pendingDumpTasks) :
    t ∈ k.pendingDumpTasks ∨ t = t' := by
  unfold Worker.submit at h
  split at h
  · exact (List.mem_append.mp h).imp id List.mem_singleton.mp
  · exact .inl h

theorem mem_poll {complete : Nat → Bool} {t : PendingDumpTask R} (h : t ∈ (k.poll complete).pendingDumpTasks) :
    t ∈ k.pendingDumpTasks := by
  obtain ⟨x, hx, rfl⟩ := List.mem_map.mp h
  have hmem := (List.mem_filter.mp hx).1
  exact List.fst_mem_of_mem_zipIdx hmem

section Flush

variable [DecidableEq R]

theorem mem_flush {ids : List R} {t : PendingDumpTask R} (h : t ∈ (k.flush ids).pendingDumpTasks) :
    t ∈ k.pendingDumpTasks ∧ ∀ r ∈ t.requestIds, r ∉ ids := by
  obtain ⟨hmem, hnot⟩ := List.mem_filter.mp h
  refine ⟨hmem, fun r hr hin => ?_⟩
  have htouch : t.touches ids = true := List.any_eq_true.mpr ⟨r, hr, decide_eq_true hin⟩
  rw [htouch] at hnot
  exact Bool.false_ne_true hnot

end Flush

end Worker

/-! ## The steps of a rank -/

section Step

variable {steps : List (StepOutput R U)} {delayed : R → Bool} {k : Worker R} {o : StepOutput R U}

/-- A rank begins a step, with no task left of the requests the step preempts. -/
theorem WorkerInv.begin {k' : Worker R} (h : WorkerInv cfg steps delayed k) (hpc : k.pc = .idle) (ho : steps[k.next]? = some o)
    (hnext : k'.next = k.next) (hids : k'.asyncDumpReqIds = k.asyncDumpReqIds) (hreported : k'.reported = k.reported)
    (hputs : k'.deferredMtpDumps = k.deferredMtpDumps)
    (hleft : ∀ t ∈ k'.pendingDumpTasks, t ∈ k.pendingDumpTasks ∧ ∀ r ∈ t.requestIds, r ∉ o.preemptedReqIds) :
    WorkerInv cfg steps delayed { k' with pc := .forward } := by
  obtain ⟨next, pc, tasks, puts, ids, reported⟩ := k'
  subst hnext hids hreported hputs
  refine ⟨h.next_le, fun _ => (List.getElem?_eq_some_iff.mp ho).1, fun r => ?_, fun t ht => ?_, fun x hx => ?_, h.direct,
    h.reported, h.silent⟩
  · rw [h.ids, hpc]
    exact and_congr_left fun _ => or_congr_right ⟨fun hp => absurd hp.1 nofun, fun hp => absurd hp.1 nofun⟩
  · obtain ⟨hmem, hnot⟩ := hleft t ht
    have ht' := h.pending t hmem
    refine ⟨ht'.step_le, fun hp => absurd hp nofun, ht'.dumped, ht'.reads, fun r hr j o' hj hle ho' => ?_, ht'.unfinished⟩
    rcases hle with hlt | ⟨rfl, -⟩
    · exact ht'.kept r hr j o' hj (.inl hlt) ho'
    · obtain rfl := Option.some.inj (ho.symm.trans ho')
      exact hnot r hr
  · exact absurd (hpc.symm.trans (h.deferred x hx).1) nofun

theorem WorkerInv.handlePreemptions [DecidableEq R] (h : WorkerInv cfg steps delayed k) (hpc : k.pc = .idle)
    (ho : steps[k.next]? = some o) :
    WorkerInv cfg steps delayed { (if o.preemptedReqIds.isEmpty then k else k.flush o.preemptedReqIds) with pc := .forward } := by
  split
  · rename_i hempty
    refine h.begin hpc ho rfl rfl rfl rfl fun t ht => ⟨ht, fun r _ => ?_⟩
    rw [List.isEmpty_iff.mp hempty]
    exact List.not_mem_nil
  · exact h.begin hpc ho rfl rfl rfl rfl fun t ht => mem_flush ht

/-- A worker with other tasks pending, and otherwise the same but for what is put off. -/
structure SameBut (k k' : Worker R) : Prop where
  next : k'.next = k.next
  pc : k'.pc = k.pc
  ids : k'.asyncDumpReqIds = k.asyncDumpReqIds
  reported : k'.reported = k.reported

theorem sameBut_submit (k : Worker R) (t : PendingDumpTask R) (ok : Bool) : SameBut k (k.submit t ok) := by
  unfold Worker.submit
  split
  · exact ⟨rfl, rfl, rfl, rfl⟩
  · exact ⟨rfl, rfl, rfl, rfl⟩

theorem submit_deferred (k : Worker R) (t : PendingDumpTask R) (ok : Bool) :
    (k.submit t ok).deferredMtpDumps = k.deferredMtpDumps := by
  unfold Worker.submit
  split
  · rfl
  · rfl

theorem saveKvLayer_next (w : Fin cfg.world) (o : StepOutput R U) (k : Worker R) (layer : Nat) (ok : Bool) :
    (saveKvLayer cfg w o k layer ok).next = k.next := by
  unfold saveKvLayer
  split
  · rfl
  · dsimp only
    split
    · rfl
    · split
      · rfl
      · exact (sameBut_submit ..).next

theorem WorkerInv.saveKvLayer {w : Fin cfg.world} {layer : Nat} {ok : Bool} (h : WorkerInv cfg steps delayed k)
    (hlayer : cfg.layerwise = true)
    (hpc : k.pc = .forward) (ho : steps[k.next]? = some o) (hlisted : ∀ r ∈ o.dumpReqIds, ¬ Listed (steps.take k.next) r) :
    WorkerInv cfg steps delayed (AsyncDump.saveKvLayer cfg w o k layer ok) := by
  have hbusy : k.pc ≠ .idle := by rw [hpc]; exact nofun
  have htask := held_taskOf cfg ho hbusy hlisted
  unfold AsyncDump.saveKvLayer
  split
  · exact h
  · simp only []
    split
    · exact h
    · rename_i hne
      split
      · refine h.tasks rfl rfl rfl rfl h.pending (fun x hx => ?_) fun hno => absurd (hlayer.symm.trans hno) nofun
        rcases List.mem_append.mp hx with hx | hx
        · exact h.deferred x (List.mem_filter.mp hx).1
        · rw [List.mem_singleton.mp hx]
          refine ⟨hpc, rfl, fun hnil => hne (List.isEmpty_iff.mpr (List.map_eq_nil_iff.mp hnil)), htask⟩
      · have hs := sameBut_submit k (taskOf (o.saved cfg) k.next) ok
        refine h.tasks hs.next hs.pc hs.ids hs.reported (fun t ht => ?_) ?_ fun hno => absurd (hlayer.symm.trans hno) nofun
        · rcases mem_submit ht with ht | rfl
          · exact h.pending t ht
          · exact htask
        · rw [submit_deferred]
          exact h.deferred

/-- Flushing what was put off appends those tasks, and leaves none of them. -/
theorem flushDeferred_spec (k : Worker R) (submitted : Nat → Bool) :
    SameBut k (k.flushDeferred submitted) ∧ (k.flushDeferred submitted).deferredMtpDumps = [] ∧
      ∀ t ∈ (k.flushDeferred submitted).pendingDumpTasks, t ∈ k.pendingDumpTasks ∨ ∃ x ∈ k.deferredMtpDumps, x.2 = t := by
  have hmain : ∀ (l : List (Nat × PendingDumpTask R)) (k : Worker R),
      let k' := l.foldl (fun k x => k.submit x.2 (submitted x.1)) k
      SameBut k k' ∧ k'.deferredMtpDumps = k.deferredMtpDumps ∧ ∀ t ∈ k'.pendingDumpTasks, t ∈ k.pendingDumpTasks ∨
      ∃ x ∈ l, x.2 = t := by
    intro l
    induction l with
    | nil => exact fun k => ⟨⟨rfl, rfl, rfl, rfl⟩, rfl, fun t ht => .inl ht⟩
    | cons x l ih =>
      intro k
      obtain ⟨hsame, hputs, hmem⟩ := ih (k.submit x.2 (submitted x.1))
      have hx := sameBut_submit k x.2 (submitted x.1)
      have hxputs := submit_deferred k x.2 (submitted x.1)
      refine ⟨⟨hsame.1.trans hx.1, hsame.2.trans hx.2, hsame.3.trans hx.3, hsame.4.trans hx.4⟩, hputs.trans hxputs,
        fun t ht => ?_⟩
      rcases hmem t ht with ht | ⟨y, hy, rfl⟩
      · exact (mem_submit ht).imp id fun he => ⟨x, List.mem_cons_self, he.symm⟩
      · exact .inr ⟨y, List.mem_cons_of_mem _ hy, rfl⟩
  obtain ⟨hsame, hputs, hmem⟩ := hmain (k.deferredMtpDumps.mergeSort fun x y => x.1 ≤ y.1) { k with deferredMtpDumps := [] }
  refine ⟨⟨hsame.1, hsame.2, hsame.3, hsame.4⟩, hputs, fun t ht => (hmem t ht).imp id ?_⟩
  rintro ⟨x, hx, rfl⟩
  exact ⟨x, (List.mergeSort_perm ..).mem_iff.mp hx, rfl⟩

theorem waitForSave_next (w : Fin cfg.world) (o : StepOutput R U) (k : Worker R) (complete submitted : Nat → Bool) :
    (waitForSave cfg w o k complete submitted).next = k.next := by
  unfold waitForSave
  split
  · exact (flushDeferred_spec k submitted).1.next
  · dsimp only
    split
    · rfl
    · exact (sameBut_submit ..).next

/-- A rank has noted the dumps of the step it is in. -/
theorem WorkerInv.saved {k' : Worker R} (h : WorkerInv cfg steps delayed k) (hpc : k.pc = .forward) (ho : steps[k.next]? = some o)
    (hlisted : ∀ r ∈ o.dumpReqIds, ¬ Listed (steps.take k.next) r) (hnext : k'.next = k.next)
    (hids : k'.asyncDumpReqIds = k.asyncDumpReqIds ++ o.dumpReqIds) (hreported : k'.reported = k.reported)
    (hpending : ∀ t ∈ k'.pendingDumpTasks, Held steps k t) (hputs : k'.deferredMtpDumps = []) :
    WorkerInv cfg steps delayed { k' with pc := .saved } := by
  have hbusy : k.pc ≠ .idle := by rw [hpc]; exact nofun
  obtain ⟨next, pc, tasks, puts, ids, reported⟩ := k'
  subst hnext hids hreported hputs
  refine ⟨h.next_le, fun _ => h.busy hbusy, fun r => ?_, fun t ht => ?_, nofun, fun _ => rfl, h.reported, h.silent⟩
  · rw [List.mem_append, h.ids, hpc]
    constructor
    · rintro (⟨hd | hd, hnl⟩ | hr)
      · exact ⟨.inl hd, hnl⟩
      · exact absurd hd.1 nofun
      · exact ⟨.inr ⟨rfl, o, ho, hr⟩, hlisted r hr⟩
    · rintro ⟨hd | ⟨-, o', ho', hr⟩, hnl⟩
      · exact .inl ⟨.inl hd, hnl⟩
      · obtain rfl := Option.some.inj (ho.symm.trans ho')
        exact .inr hr
  · have ht' := hpending t ht
    exact ⟨ht'.step_le, fun hp => absurd hp nofun, ht'.dumped, ht'.reads,
      fun r hr j o' hj hle => ht'.kept r hr j o' hj (hle.imp id fun he => ⟨he.1, hbusy⟩),
      ht'.unfinished⟩

/-- The end of a forward pass: the step's dumps are noted, tasks of it may have come, tasks that are
    complete are gone, and nothing is put off. -/
theorem WorkerInv.waitForSave {w : Fin cfg.world} {complete submitted : Nat → Bool} (h : WorkerInv cfg steps delayed k)
    (hpc : k.pc = .forward)
    (ho : steps[k.next]? = some o) (hlisted : ∀ r ∈ o.dumpReqIds, ¬ Listed (steps.take k.next) r) :
    WorkerInv cfg steps delayed { AsyncDump.waitForSave cfg w o k complete submitted with pc := .saved } := by
  have hbusy : k.pc ≠ .idle := by rw [hpc]; exact nofun
  have htask := held_taskOf cfg ho hbusy hlisted
  have hlt := h.busy hbusy
  have hspec : (AsyncDump.waitForSave cfg w o k complete submitted).next = k.next ∧
      (AsyncDump.waitForSave cfg w o k complete submitted).asyncDumpReqIds = k.asyncDumpReqIds ++ o.dumpReqIds ∧
      (AsyncDump.waitForSave cfg w o k complete submitted).reported = k.reported ∧
      (∀ t ∈ (AsyncDump.waitForSave cfg w o k complete submitted).pendingDumpTasks, Held steps k t) ∧
      (AsyncDump.waitForSave cfg w o k complete submitted).deferredMtpDumps = [] := by
    unfold AsyncDump.waitForSave
    split
    · obtain ⟨hsame, hputs, hmem⟩ := flushDeferred_spec k submitted
      refine ⟨hsame.next, congrArg (· ++ o.dumpReqIds) hsame.ids, hsame.reported, fun t ht => ?_, hputs⟩
      rcases hmem t (mem_poll ht) with ht | ⟨x, hx, rfl⟩
      · exact h.pending t ht
      · exact (h.deferred x hx).2.2.2
    · rename_i hlayer
      have hputs := h.direct (Bool.eq_false_iff.mpr hlayer)
      split
      · exact ⟨rfl, rfl, rfl, fun t ht => h.pending t (mem_poll ht), hputs⟩
      · have hs := sameBut_submit ((k.poll complete).noteDumps o.dumpReqIds) (taskOf (o.saved cfg) k.next) (submitted 0)
        refine ⟨hs.next, hs.ids, hs.reported, fun t ht => ?_, (submit_deferred ..).trans hputs⟩
        rcases mem_submit ht with ht | rfl
        · exact h.pending t (mem_poll ht)
        · exact htask
  generalize AsyncDump.waitForSave cfg w o k complete submitted = k' at hspec ⊢
  obtain ⟨hnext, hids, hreported, hpending, hputs⟩ := hspec
  exact h.saved hpc ho hlisted hnext hids hreported hpending hputs

/-- A step that dumps nothing ends without a forward pass. -/
theorem WorkerInv.noForward (h : WorkerInv cfg steps delayed k) (hpc : k.pc = .forward) (ho : steps[k.next]? = some o)
    (hempty : o.requestMeta = []) : WorkerInv cfg steps delayed { k with pc := .saved } := by
  have hnone : o.dumpReqIds = [] := by
    unfold StepOutput.dumpReqIds
    rw [hempty]
    rfl
  have hputs : k.deferredMtpDumps = [] := by
    refine List.eq_nil_iff_forall_not_mem.mpr fun x hx => ?_
    obtain ⟨-, hstep, hne, ht⟩ := h.deferred x hx
    obtain ⟨r, hr⟩ := List.exists_mem_of_ne_nil _ hne
    exact List.not_mem_nil (hnone ▸ ht.dumped o (hstep ▸ ho) r hr)
  refine h.saved hpc ho (fun r hr => absurd (hnone ▸ hr) List.not_mem_nil) rfl ?_ rfl h.pending hputs
  rw [hnone, List.append_nil]

section GetFinished

variable [DecidableEq R] (k : Worker R) (finishedReqIds : List R)

theorem getFinished_deferred : (k.getFinished finishedReqIds).deferredMtpDumps = k.deferredMtpDumps := by
  unfold Worker.getFinished
  dsimp only
  split
  · rfl
  · rfl

theorem getFinished_ids : (k.getFinished finishedReqIds).asyncDumpReqIds =
    k.asyncDumpReqIds.filter fun r => r ∉ finishedReqIds.filter fun r => r ∈ k.asyncDumpReqIds := by
  unfold Worker.getFinished
  dsimp only
  split
  · rfl
  · rfl

theorem getFinished_reported (r : R) : (k.getFinished finishedReqIds).reported r =
    k.reported r + if r ∈ finishedReqIds.filter (fun r => r ∈ k.asyncDumpReqIds) then 1 else 0 := by
  unfold Worker.getFinished
  dsimp only
  split
  · rfl
  · rfl

variable {k finishedReqIds}

/-- The tasks left have none of the requests reported. -/
theorem mem_getFinished {t : PendingDumpTask R} (h : t ∈ (k.getFinished finishedReqIds).pendingDumpTasks) :
    t ∈ k.pendingDumpTasks ∧ ∀ r ∈ t.requestIds, r ∉ finishedReqIds.filter fun r => r ∈ k.asyncDumpReqIds := by
  unfold Worker.getFinished at h
  dsimp only at h
  split at h
  · rename_i hempty
    refine ⟨h, fun r _ => ?_⟩
    rw [List.isEmpty_iff.mp hempty]
    exact List.not_mem_nil
  · exact mem_flush h

end GetFinished

theorem WorkerInv.getFinished [DecidableEq R] (h : WorkerInv cfg steps delayed k) (hpc : k.pc = .saved)
    (ho : steps[k.next]? = some o)
    (honce : ∀ r ∈ o.finishedReqIds, ¬ Listed (steps.take k.next) r) (hlate : ∀ r ∈ o.finishedReqIds, r ∉ o.dumpReqIds)
    (hdelayed : ∀ r ∈ o.finishedReqIds, delayed r = true ↔ Dumped (steps.take k.next) r) :
    WorkerInv cfg steps delayed { k.getFinished o.finishedReqIds with pc := .idle, next := k.next + 1 } := by
  have htake := take_next ho
  have hbusy : k.pc ≠ .idle := by rw [hpc]; exact nofun
  -- the requests reported: those finished that dumped before
  have hmem : ∀ r, r ∈ o.finishedReqIds.filter (fun r => r ∈ k.asyncDumpReqIds) ↔ r ∈ o.finishedReqIds ∧
      Dumped (steps.take k.next) r := by
    intro r
    rw [List.mem_filter, decide_eq_true_eq, h.ids]
    refine and_congr_right fun hr => ⟨fun hin => hin.1.elim id ?_, fun hd => ⟨.inl hd, honce r hr⟩⟩
    rintro ⟨-, o', ho', hd⟩
    obtain rfl := Option.some.inj (ho.symm.trans ho')
    exact absurd hd (hlate r hr)
  have hleft : ∀ t ∈ (k.getFinished o.finishedReqIds).pendingDumpTasks,
      t ∈ k.pendingDumpTasks ∧ ∀ r ∈ t.requestIds, ¬ (r ∈ o.finishedReqIds ∧ Dumped (steps.take k.next) r) := fun t ht =>
    (mem_getFinished ht).imp id fun hnot r hr hd => hnot r hr ((hmem r).mpr hd)
  refine ⟨?_, fun hp => absurd rfl hp, fun r => ?_, fun t ht => ?_, fun x hx => ?_, ?_, fun r hl hd => ?_, fun r hor => ?_⟩
  · exact h.busy hbusy
  · change r ∈ (k.getFinished o.finishedReqIds).asyncDumpReqIds ↔ (Dumped (steps.take (k.next + 1)) r ∨ _) ∧
        ¬ Listed (steps.take (k.next + 1)) r
    rw [getFinished_ids, List.mem_filter, decide_eq_true_eq, hmem, h.ids, htake, dumped_concat, listed_concat]
    constructor
    · rintro ⟨⟨hd, hnl⟩, hnot⟩
      have hd' : Dumped (steps.take k.next) r ∨ r ∈ o.dumpReqIds := hd.imp id fun ⟨_, o', ho', hr⟩ => by
        obtain rfl := Option.some.inj (ho.symm.trans ho')
        exact hr
      refine ⟨.inl hd', fun hor => hor.elim hnl fun hr => ?_⟩
      exact hd'.elim (fun hd => hnot ⟨hr, hd⟩) (hlate r hr)
    · rintro ⟨hd | hd, hnl⟩
      · exact ⟨⟨hd.imp id fun hr => ⟨hpc, o, ho, hr⟩, fun hl => hnl (.inl hl)⟩, fun hr => hnl (.inr hr.1)⟩
      · exact absurd hd.1 nofun
  · obtain ⟨hin, hnot⟩ := hleft t ht
    have ht' := h.pending t hin
    have hlt : t.step < steps.length := Nat.lt_of_le_of_lt ht'.step_le (h.busy hbusy)
    refine ⟨Nat.le_succ_of_le ht'.step_le, fun _ => Nat.lt_succ_of_le ht'.step_le, ht'.dumped, ht'.reads,
      fun r hr j o' hj hle ho' => ?_, fun r hr hl => ?_⟩
    · rcases hle with hlt | ⟨-, hp⟩
      · refine ht'.kept r hr j o' hj ?_ ho'
        rcases Nat.lt_succ_iff_lt_or_eq.mp hlt with hlt | rfl
        · exact .inl hlt
        · exact .inr ⟨rfl, hbusy⟩
      · exact absurd rfl hp
    · change Listed (steps.take (k.next + 1)) r at hl
      rw [htake, listed_concat] at hl
      rcases hl with hl | hr'
      · exact ht'.unfinished r hr hl
      · -- a finished request with a task has dumped before this step, or in it
        obtain ⟨o', ho'⟩ : ∃ o', steps[t.step]? = some o' := ⟨_, List.getElem?_eq_getElem hlt⟩
        have hd := ht'.dumped o' ho' r hr
        rcases Nat.lt_or_eq_of_le ht'.step_le with hlt' | heq
        · refine hnot r hr ⟨hr', o', ?_, hd⟩
          exact List.mem_take_iff_getElem.mpr ⟨t.step, Nat.lt_min.mpr ⟨hlt', hlt⟩, (List.getElem?_eq_some_iff.mp ho').2⟩
        · rw [heq] at ho'
          obtain rfl := Option.some.inj (ho.symm.trans ho')
          exact hlate r hr' hd
  · have hx' : x ∈ k.deferredMtpDumps := getFinished_deferred k o.finishedReqIds ▸ hx
    exact absurd (hpc.symm.trans (h.deferred x hx').1) nofun
  · exact fun hno => (getFinished_deferred k o.finishedReqIds).trans (h.direct hno)
  · change Listed (steps.take (k.next + 1)) r at hl
    rw [htake, listed_concat] at hl
    change (k.getFinished o.finishedReqIds).reported r = 1
    rw [getFinished_reported]
    rcases hl with hl | hr
    · rw [h.reported r hl hd, if_neg fun hin => honce r ((hmem r).mp hin).1 hl]
    · rw [h.silent r (.inl (honce r hr)), if_pos ((hmem r).mpr ⟨hr, (hdelayed r hr).mp hd⟩)]
  · change ¬ Listed (steps.take (k.next + 1)) r ∨ _ at hor
    rw [htake, listed_concat, not_or] at hor
    change (k.getFinished o.finishedReqIds).reported r = 0
    rw [getFinished_reported, h.silent r (hor.imp And.left id), if_neg]
    intro hin
    obtain ⟨hr, hd⟩ := (hmem r).mp hin
    rcases hor with ⟨-, hno⟩ | hno
    · exact hno hr
    · exact absurd (((hdelayed r hr).mpr hd).symm.trans hno) nofun

end Step

/-! ## Runs -/

section Run

variable {s : State cfg R U} {r : R}

theorem listed_take {steps : List (StepOutput R U)} {n : Nat} :
    Listed (steps.take n) r ↔ ∃ i o, i < n ∧ steps[i]? = some o ∧ r ∈ o.finishedReqIds := by
  constructor
  · rintro ⟨o, ho, hr⟩
    obtain ⟨i, hi, rfl⟩ := List.mem_take_iff_getElem.mp ho
    exact ⟨i, _, (Nat.lt_min.mp hi).1, List.getElem?_eq_getElem (Nat.lt_min.mp hi).2, hr⟩
  · rintro ⟨i, o, hi, ho, hr⟩
    obtain ⟨hlt, rfl⟩ := List.getElem?_eq_some_iff.mp ho
    exact ⟨_, List.mem_take_iff_getElem.mpr ⟨i, Nat.lt_min.mpr ⟨hi, hlt⟩, rfl⟩, hr⟩

theorem Listed.mono {steps : List (StepOutput R U)} {m n : Nat} (h : Listed (steps.take m) r) (hle : m ≤ n) :
    Listed (steps.take n) r := by
  obtain ⟨i, o, hi, ho, hr⟩ := listed_take.mp h
  exact listed_take.mpr ⟨i, o, Nat.lt_of_lt_of_le hi hle, ho, hr⟩

/-- Facts of a step that some rank is in. -/
theorem Inv.atStep (h : Inv s) {n : Nat} {o : StepOutput R U} (ho : s.steps[n]? = some o) :
    (∀ r ∈ o.dumpReqIds, ¬ Listed (s.steps.take n) r) ∧ (∀ r ∈ o.finishedReqIds, ¬ Listed (s.steps.take n) r) ∧
      (∀ r ∈ o.finishedReqIds, r ∉ o.dumpReqIds) ∧ ∀ r ∈ o.finishedReqIds, s.delayed r = true ↔ Dumped (s.steps.take n) r := by
  refine ⟨fun r hr hl => ?_, fun r hr hl => ?_, fun r hr => h.late n n o o (Nat.le_refl n) ho ho r hr,
    fun r hr => ⟨fun hd => ?_, fun hd => ?_⟩⟩
  · obtain ⟨i, o', hi, ho', hr'⟩ := listed_take.mp hl
    exact h.late i n o' o (Nat.le_of_lt hi) ho' ho r hr' hr
  · obtain ⟨i, o', hi, ho', hr'⟩ := listed_take.mp hl
    exact absurd (h.once i n o' o ho' ho r hr' hr) (Nat.ne_of_lt hi)
  · obtain ⟨o', hmem, hr'⟩ := (h.delayed r hd).2
    obtain ⟨j, hj, rfl⟩ := List.mem_iff_getElem.mp hmem
    have hlt : j < n := by
      by_contra hle
      exact h.late n j o _ (Nat.le_of_not_lt hle) ho (List.getElem?_eq_getElem hj) r hr hr'
    exact ⟨_, List.mem_take_iff_getElem.mpr ⟨j, Nat.lt_min.mpr ⟨hlt, hj⟩, rfl⟩, hr'⟩
  · by_contra hno
    have hfin : s.finished r = true := (h.finished r).mpr (.inl ⟨o, List.mem_of_getElem? ho, hr⟩)
    exact h.undelayed r hfin (Bool.eq_false_iff.mpr hno) hd.of_take

/-- A rank moves on. -/
theorem Inv.setWorker (h : Inv s) {w : Fin cfg.world} {k : Worker R} (hk : WorkerInv cfg s.steps s.delayed k)
    (hnext : (s.workers w).next ≤ k.next) : Inv (s.setWorker w k) := by
  refine ⟨h.ids, h.finished, h.fresh, h.once, h.late, h.delayed, h.undelayed,
    fun r hf => ⟨(h.freed r hf).1, (h.freed r hf).2.imp (fun hl w' => ?_) id⟩,
    fun w' => ?_⟩
  · change Listed (s.steps.take (Function.update s.workers w k w').next) r
    by_cases hw : w' = w
    · subst hw
      rw [Function.update_self]
      exact (hl w').mono hnext
    · rw [Function.update_of_ne hw]
      exact hl w'
  · change WorkerInv cfg s.steps s.delayed (Function.update s.workers w k w')
    by_cases hw : w' = w
    · subst hw
      rw [Function.update_self]
      exact hk
    · rw [Function.update_of_ne hw]
      exact h.workers w'

theorem mem_dumpReqIds {o : StepOutput R U} (h : r ∈ o.dumpReqIds) : ∃ d ∈ o.requestMeta, d.requestId = r := by
  obtain ⟨d, hd, rfl⟩ := List.mem_map.mp h
  exact ⟨d, (List.mem_filter.mp hd).1, rfl⟩

/-- The steps after another is built: those before, and it. -/
theorem getElem?_concat_cases {steps : List (StepOutput R U)} {o o' : StepOutput R U} {n : Nat}
    (h : (steps ++ [o])[n]? = some o') :
    (n < steps.length ∧ steps[n]? = some o') ∨ n = steps.length ∧ o' = o := by
  obtain ⟨hlt, rfl⟩ := List.getElem?_eq_some_iff.mp h
  rw [List.length_append, List.length_singleton] at hlt
  rcases Nat.lt_or_eq_of_le (Nat.le_of_lt_succ hlt) with hn | rfl
  · exact .inl ⟨hn, (getElem?_concat hn).symm.trans h⟩
  · exact .inr ⟨rfl, List.getElem_concat_length rfl _⟩

theorem init_inv : Inv (initial cfg R U) := by
  have hnone : ∀ x, ¬ Dumped ([] : List (StepOutput R U)) x := fun x ⟨_, ho, _⟩ => List.not_mem_nil ho
  have hnone' : ∀ x, ¬ Listed ([] : List (StepOutput R U)) x := fun x ⟨_, ho, _⟩ => List.not_mem_nil ho
  refine ⟨fun x => ⟨fun hx => absurd hx List.not_mem_nil, fun hx => absurd hx.1 (hnone x)⟩, fun x => ⟨nofun, fun hx => ?_⟩,
    nofun, nofun, nofun, nofun,
    nofun, nofun, fun w => ⟨Nat.le_refl _, fun hp => absurd rfl hp, fun x => ⟨nofun, ?_⟩, nofun, nofun, fun _ => rfl,
      fun x hl => ?_, fun _ _ => rfl⟩⟩
  · exact hx.elim (fun hl => absurd hl (hnone' x)) fun hx => absurd hx List.not_mem_nil
  · rintro ⟨hd | ⟨hp, -⟩, -⟩
    · exact absurd hd (hnone x)
    · exact absurd hp nofun
  · exact absurd hl (hnone' x)

section Engine

variable [DecidableEq R]

/-- `request_finished` answers `True` for a request that no step has listed as finished. -/
theorem WorkerInv.delay {steps : List (StepOutput R U)} {delayed : R → Bool} {k : Worker R} (h : WorkerInv cfg steps delayed k)
    (hr : ¬ Listed steps r) : WorkerInv cfg steps (Function.update delayed r true) k := by
  have hne : ∀ x, Listed (steps.take k.next) x → x ≠ r := fun x hl he => hr (he ▸ hl.of_take)
  refine ⟨h.next_le, h.busy, h.ids, h.pending, h.deferred, h.direct, fun x hl hd => ?_, fun x hor => ?_⟩
  · rw [Function.update_of_ne (hne x hl)] at hd
    exact h.reported x hl hd
  · rcases hor with hl | hd
    · exact h.silent x (.inl hl)
    · by_cases hx : x = r
      · exact absurd (hx ▸ hd) (by rw [Function.update_self]; exact nofun)
      · rw [Function.update_of_ne hx] at hd
        exact h.silent x (.inr hd)

theorem update_true {f : R → Bool} {x : R} : Function.update f r true x = true ↔ x = r ∨ f x = true := by
  by_cases hx : x = r
  · rw [hx, Function.update_self]
    exact ⟨fun _ => .inl rfl, fun _ => rfl⟩
  · rw [Function.update_of_ne hx]
    exact ⟨.inr, fun hor => hor.resolve_left hx⟩

theorem Inv.finish (h : Inv s) {s' : State cfg R U} (hstep : step s (.finish r) = some s') : Inv s' := by
  simp only [step] at hstep
  split at hstep
  · exact absurd hstep nofun
  rename_i hfin
  have hfresh : ¬ (Listed s.steps r ∨ r ∈ s.finishedReqIds) := fun hor => hfin ((h.finished r).mpr hor)
  have hl : ¬ Listed s.steps r := fun hl => hfresh (.inl hl)
  have hfinished : ∀ x, Function.update s.finished r true x = true ↔ Listed s.steps x ∨ x ∈ s.finishedReqIds ++ [r] := fun x => by
    rw [update_true, h.finished, List.mem_append, List.mem_singleton]
    exact ⟨fun hx => hx.elim (fun he => .inr (.inr he)) (Or.imp id .inl), fun hx => hx.elim (.inr ∘ .inl) fun hx =>
      hx.elim (.inr ∘ .inr) .inl⟩
  have hfresh' : ∀ x ∈ s.finishedReqIds ++ [r], ¬ Listed s.steps x := fun x hx => by
    rcases List.mem_append.mp hx with hx | hx
    · exact h.fresh x hx
    · exact List.mem_singleton.mp hx ▸ hl
  have hdump : r ∈ s.asyncDumpReqIds ↔ Dumped s.steps r := by
    rw [h.ids]
    exact ⟨And.left, fun hd => ⟨hd, Bool.eq_false_iff.mpr hfin⟩⟩
  have hids : ∀ x, x ≠ r → (x ∈ s.asyncDumpReqIds ↔ Dumped s.steps x ∧ Function.update s.finished r true x = false) :=
      fun x hx => by
    rw [Function.update_of_ne hx]
    exact h.ids x
  have hgone : Function.update s.finished r true r ≠ false := by
    rw [Function.update_self]
    exact nofun
  split at hstep
  · rename_i hin
    obtain rfl := Option.some.inj hstep
    refine ⟨fun x => ?_, hfinished, hfresh', h.once, h.late, fun x hd => ?_, fun x hf hd => ?_, fun x hf => ?_,
      fun w => (h.workers w).delay hl⟩
    · rw [List.mem_filter, decide_eq_true_eq]
      constructor
      · rintro ⟨hx, hne⟩
        exact (hids x hne).mp hx
      · rintro ⟨hd, hf⟩
        have hne : x ≠ r := fun he => hgone (he ▸ hf)
        exact ⟨(hids x hne).mpr ⟨hd, hf⟩, hne⟩
    · rcases update_true.mp hd with rfl | hd
      · exact ⟨update_true.mpr (.inl rfl), hdump.mp hin⟩
      · exact ⟨update_true.mpr (.inr (h.delayed x hd).1), (h.delayed x hd).2⟩
    · have hne : x ≠ r := by
        rintro rfl
        change Function.update s.delayed x true x = false at hd
        rw [Function.update_self] at hd
        exact absurd hd nofun
      change Function.update s.finished r true x = true at hf
      change Function.update s.delayed r true x = false at hd
      rw [Function.update_of_ne hne] at hf hd
      exact h.undelayed x hf hd
    · exact ⟨update_true.mpr (.inr (h.freed x hf).1), (h.freed x hf).2⟩
  · rename_i hnot
    have hnd : ¬ Dumped s.steps r := fun hd => hnot (hdump.mpr hd)
    obtain rfl := Option.some.inj hstep
    refine ⟨fun x => ?_, hfinished, hfresh', h.once, h.late,
      fun x hd => ⟨update_true.mpr (.inr (h.delayed x hd).1), (h.delayed x hd).2⟩,
      fun x hf hd => ?_, fun x hf => ?_, h.workers⟩
    · by_cases hx : x = r
      · subst hx
        exact ⟨fun hin => absurd hin hnot, fun hd => absurd hd.1 hnd⟩
      · exact hids x hx
    · rcases update_true.mp hf with rfl | hf
      · exact hnd
      · exact h.undelayed x hf hd
    · rcases update_true.mp hf with rfl | hf
      · exact ⟨update_true.mpr (.inl rfl), .inr hnd⟩
      · exact ⟨update_true.mpr (.inr (h.freed x hf).1), (h.freed x hf).2⟩

theorem Inv.schedule (h : Inv s) {requestMeta : List (DumpPlan R U)} {preempted : List R}
    (hok : ∀ d ∈ requestMeta, s.finished d.requestId = false)
    {s' : State cfg R U} (hstep : step s (.schedule requestMeta preempted) = some s') : Inv s' := by
  obtain rfl := Option.some.inj hstep
  have hlive : ∀ x ∈ (⟨requestMeta, preempted, s.finishedReqIds⟩ : StepOutput R U).dumpReqIds, s.finished x = false :=
      fun x hx => by
    obtain ⟨d, hd, rfl⟩ := mem_dumpReqIds hx
    exact hok d hd
  have hgone : ∀ x, s.finished x = true → x ∉ (⟨requestMeta, preempted, s.finishedReqIds⟩ : StepOutput R U).dumpReqIds :=
      fun x hf hx =>
    absurd (hf.symm.trans (hlive x hx)) nofun
  refine ⟨fun x => ?_, fun x => ?_, fun x hx => absurd hx List.not_mem_nil, fun i j o o' ho ho' x hx hx' => ?_,
    fun i j o o' hle ho ho' x hx => ?_,
    fun x hd => ⟨(h.delayed x hd).1, dumped_concat.mpr (.inl (h.delayed x hd).2)⟩, fun x hf hd hor => ?_, fun x hf => ?_,
    fun w => (h.workers w).schedule _⟩
  · rw [List.mem_append, h.ids, dumped_concat]
    constructor
    · rintro (⟨hd, hf⟩ | hx)
      · exact ⟨.inl hd, hf⟩
      · exact ⟨.inr hx, hlive x hx⟩
    · rintro ⟨hd | hx, hf⟩
      · exact .inl ⟨hd, hf⟩
      · exact .inr hx
  · rw [listed_concat]
    exact (h.finished x).trans ⟨.inl, fun hor => hor.elim id fun hx => absurd hx List.not_mem_nil⟩
  · rcases getElem?_concat_cases ho with ⟨-, ho⟩ | ⟨rfl, rfl⟩
    · rcases getElem?_concat_cases ho' with ⟨-, ho'⟩ | ⟨rfl, rfl⟩
      · exact h.once i j o o' ho ho' x hx hx'
      · exact absurd ⟨o, List.mem_of_getElem? ho, hx⟩ (h.fresh x hx')
    · rcases getElem?_concat_cases ho' with ⟨-, ho'⟩ | ⟨rfl, rfl⟩
      · exact absurd ⟨o', List.mem_of_getElem? ho', hx'⟩ (h.fresh x hx)
      · rfl
  · rcases getElem?_concat_cases ho' with ⟨hj, ho'⟩ | ⟨rfl, rfl⟩
    · rcases getElem?_concat_cases ho with ⟨-, ho⟩ | ⟨rfl, rfl⟩
      · exact h.late i j o o' hle ho ho' x hx
      · exact absurd (Nat.lt_of_le_of_lt hle hj) (Nat.lt_irrefl _)
    · refine hgone x ((h.finished x).mpr ?_)
      rcases getElem?_concat_cases ho with ⟨-, ho⟩ | ⟨rfl, rfl⟩
      · exact .inl ⟨o, List.mem_of_getElem? ho, hx⟩
      · exact .inr hx
  · exact (dumped_concat.mp hor).elim (h.undelayed x hf hd) (hgone x hf)
  · refine ⟨(h.freed x hf).1, (h.freed x hf).2.imp (fun hl w => ?_) fun hnd hd =>
      (dumped_concat.mp hd).elim hnd (hgone x (h.freed x hf).1)⟩
    change Listed ((s.steps ++ [_]).take (s.workers w).next) x
    rw [List.take_append_of_le_length (h.workers w).next_le]
    exact hl w

theorem Inv.release (h : Inv s) {s' : State cfg R U} (hstep : step s (.release r) = some s') : Inv s' := by
  obtain ⟨⟨hd, hrep⟩, hs⟩ := Option.ite_none_right_eq_some.mp hstep
  obtain rfl := Option.some.inj hs
  refine ⟨h.ids, h.finished, h.fresh, h.once, h.late, h.delayed, h.undelayed, fun x hf => ?_, h.workers⟩
  rcases update_true.mp hf with rfl | hf
  · refine ⟨(h.delayed x hd).1, .inl fun w => ?_⟩
    by_contra hl
    exact hrep w ((h.workers w).silent x (.inl hl))
  · exact h.freed x hf

theorem step_inv {s' : State cfg R U} (h : Inv s) (a : Label cfg R U) (hok : Alive s a)
    (hstep : step s a = some s') : Inv s' := by
  cases a with
  | finish r => exact h.finish hstep
  | schedule requestMeta preempted => exact h.schedule hok hstep
  | release r => exact h.release hstep
  | handlePreemptions w =>
    simp only [step] at hstep
    split at hstep
    · rename_i o hpc ho
      obtain rfl := Option.some.inj hstep
      refine h.setWorker ((h.workers w).handlePreemptions hpc ho) (Nat.le_of_eq ?_)
      split
      · rfl
      · rfl
    · exact absurd hstep nofun
  | saveKvLayer w layer ok =>
    simp only [step] at hstep
    split at hstep
    · rename_i o hpc ho
      obtain ⟨hlayer, hs⟩ := Option.ite_none_right_eq_some.mp hstep
      obtain rfl := Option.some.inj hs
      exact h.setWorker ((h.workers w).saveKvLayer hlayer hpc ho (h.atStep ho).1) (Nat.le_of_eq (saveKvLayer_next ..).symm)
    · exact absurd hstep nofun
  | waitForSave w complete submitted =>
    simp only [step] at hstep
    split at hstep
    · rename_i o hpc ho
      obtain rfl := Option.some.inj hstep
      exact h.setWorker ((h.workers w).waitForSave hpc ho (h.atStep ho).1) (Nat.le_of_eq (waitForSave_next ..).symm)
    · exact absurd hstep nofun
  | noForward w =>
    simp only [step] at hstep
    split at hstep
    · rename_i o hpc ho
      obtain ⟨hempty, hs⟩ := Option.ite_none_right_eq_some.mp hstep
      obtain rfl := Option.some.inj hs
      exact h.setWorker ((h.workers w).noForward hpc ho (List.isEmpty_iff.mp hempty)) (Nat.le_refl _)
    · exact absurd hstep nofun
  | getFinished w =>
    simp only [step] at hstep
    split at hstep
    · rename_i o hpc ho
      obtain rfl := Option.some.inj hstep
      obtain ⟨-, honce, hlate, hdelayed⟩ := h.atStep ho
      exact h.setWorker ((h.workers w).getFinished hpc ho honce hlate hdelayed) (Nat.le_succ _)
    · exact absurd hstep nofun

theorem reach_inv (h : Reach (sys cfg R U) Alive s) : Inv s := h.inv (fun _ hi => hi ▸ init_inv) fun _ a _ hi hok hst =>
    step_inv hi a hok hst

/-- The blocks that a dump submitted or put off reads are those of plans whose requests no step since has
    preempted, up to the one the rank is in, and whose blocks are not given back as finished; nor are those
    of any request that a step the rank has not run through dumps. A dump is pending until it is waited for,
    and a wait that raises ends it. -/
theorem dumps_keep_blocks (h : Reach (sys cfg R U) Alive s) (w : Fin cfg.world) :
    (∀ t, (t ∈ (s.workers w).pendingDumpTasks ∨ ∃ layer, (layer, t) ∈ (s.workers w).deferredMtpDumps) →
      ∃ o, s.steps[t.step]? = some o ∧
      ∀ b ∈ t.vllmBlockIds, ∃ d ∈ o.requestMeta, b ∈ d.vllmBlockIds ∧ s.freed d.requestId = false ∧
        ∀ j o', t.step < j → (j < (s.workers w).next ∨ j = (s.workers w).next ∧ (s.workers w).pc ≠ .idle) →
        s.steps[j]? = some o' →
          d.requestId ∉ o'.preemptedReqIds) ∧
    ∀ j o, (s.workers w).next ≤ j → s.steps[j]? = some o → ∀ r ∈ o.dumpReqIds, s.freed r = false := by
  have hinv := reach_inv h
  have hw := hinv.workers w
  refine ⟨fun t ht => ?_, fun j o hle ho r hr => ?_⟩
  · have hheld : Held s.steps (s.workers w) t := ht.elim (hw.pending t) fun ⟨_, hx⟩ => (hw.deferred _ hx).2.2.2
    have ho := List.getElem?_eq_getElem (hheld.step_lt_length hw.next_le hw.busy)
    refine ⟨_, ho, fun b hb => ?_⟩
    obtain ⟨d, hd, hid, hread⟩ := hheld.reads _ ho b hb
    refine ⟨d, hd, hread, Bool.eq_false_iff.mpr fun hf => ?_, hheld.kept _ hid⟩
    rcases (hinv.freed _ hf).2 with hl | hnd
    · exact hheld.unfinished _ hid (hl w)
    · exact hnd ⟨_, List.mem_of_getElem? ho, hheld.dumped _ ho _ hid⟩
  · refine Bool.eq_false_iff.mpr fun hf => ?_
    rcases (hinv.freed r hf).2 with hl | hnd
    · obtain ⟨i, o', hi, ho', hr'⟩ := listed_take.mp (hl w)
      exact hinv.late i j o' o (Nat.le_trans (Nat.le_of_lt hi) hle) ho' ho r hr' hr
    · exact hnd ⟨o, List.mem_of_getElem? ho, hr⟩

section Sample

/-- Two ranks; requests 0 and 1 dump, 1 is preempted, and 0 finishes. -/
abbrev sampleCfg : Config := ⟨2, 2, false, false, false, fun _ => false⟩

def sampleRun : List (Label sampleCfg Nat Nat) :=
  [.schedule [⟨0, [70], [7]⟩] [], .schedule [⟨1, [80], [8]⟩] [], .handlePreemptions 0,
    .waitForSave 0 (fun _ => false) (fun _ => true),
   .finish 0, .getFinished 0, .handlePreemptions 0, .waitForSave 0 (fun _ => false) (fun _ => true), .getFinished 0, .finish 2,
   .schedule [] [1],
   .handlePreemptions 0]

/-- A finished request's dump is still pending in the step that lists it. -/
theorem dumps_keep_blocks_finished : ∃ s : State sampleCfg Nat Nat, s.finished 0 = true ∧ s.freed 2 = true ∧ s.freed 0 = false ∧
    ∃ t ∈ (s.workers 0).pendingDumpTasks, t.step = 0 ∧ 7 ∈ t.vllmBlockIds := by
  obtain ⟨s, hreach, hp⟩ := exists_of_replayOk (S := sys sampleCfg Nat Nat) (fun s a => decide (Alive s a))
      (fun _ _ => of_decide_eq_true)
    sampleRun (s := initial sampleCfg Nat Nat)
    (p := fun s => decide (s.finished 0 = true ∧ s.freed 2 = true ∧
      (s.steps[0]?.all fun o => o.requestMeta.all fun d => d.requestId == 0) = true ∧
      ∃ t ∈ (s.workers 0).pendingDumpTasks, t.step = 0 ∧ 7 ∈ t.vllmBlockIds))
    rfl (by decide)
  obtain ⟨hfin, hfreed, hids, t, ht, hstep, hb⟩ := of_decide_eq_true hp
  obtain ⟨o, ho, hkeep⟩ := (dumps_keep_blocks hreach 0).1 t (.inl ht)
  obtain ⟨d, hd, -, hf, -⟩ := hkeep 7 hb
  rw [hstep] at ho
  rw [ho] at hids
  have hzero : d.requestId = 0 := beq_iff_eq.mp (List.all_eq_true.mp hids d hd)
  exact ⟨s, hfin, hfreed, hzero ▸ hf, t, ht, hstep, hb⟩

end Sample

/-- A rank has reported a request once if it has run through the step that lists it as finished and
    `request_finished` answered `True` for it, and not otherwise; what is given back later than at its
    finish has been reported by each. -/
theorem finished_reported_once (h : Reach (sys cfg R U) Alive s) (w : Fin cfg.world) (r : R) :
    ((s.workers w).reported r = 1 ↔ Listed (s.steps.take (s.workers w).next) r ∧ s.delayed r = true) ∧
    (s.workers w).reported r ≤ 1 ∧
      (s.freed r = true → s.delayed r = true → (s.workers w).reported r = 1) := by
  have hinv := reach_inv h
  have hw := hinv.workers w
  have honce : (s.workers w).reported r = 1 ↔ Listed (s.steps.take (s.workers w).next) r ∧ s.delayed r = true := by
    refine ⟨fun hone => ?_, fun hld => hw.reported r hld.1 hld.2⟩
    by_contra hno
    have hor : ¬ Listed (s.steps.take (s.workers w).next) r ∨ s.delayed r = false :=
      (not_and_or.mp hno).imp id Bool.eq_false_iff.mpr
    exact absurd (hone.symm.trans (hw.silent r hor)) nofun
  refine ⟨honce, ?_, fun hf hd => ?_⟩
  · by_cases hld : Listed (s.steps.take (s.workers w).next) r ∧ s.delayed r = true
    · exact Nat.le_of_eq (honce.mpr hld)
    · rw [hw.silent r ((not_and_or.mp hld).imp id Bool.eq_false_iff.mpr)]
      exact Nat.zero_le 1
  · rcases (hinv.freed r hf).2 with hl | hnd
    · exact honce.mpr ⟨hl w, hd⟩
    · exact absurd (hinv.delayed r hd).2 hnd

section Sample

/-- Both ranks have run the three steps, and request 0 is given back. -/
theorem finished_reported_once_released : ∃ s : State sampleCfg Nat Nat, s.freed 0 = true ∧ (s.workers 0).reported 0 = 1 ∧
    (s.workers 1).reported 0 = 1 := by
  obtain ⟨s, hreach, hp⟩ := exists_of_replayOk (S := sys sampleCfg Nat Nat) (fun s a => decide (Alive s a))
      (fun _ _ => of_decide_eq_true)
    (sampleRun ++ [.noForward 0, .getFinished 0] ++
      (List.replicate 3 [.handlePreemptions 1, .waitForSave 1 (fun _ => false) (fun _ => false), .getFinished 1]).flatten ++
      [.release 0])
    (s := initial sampleCfg Nat Nat) (p := fun s => decide (s.freed 0 = true ∧ s.delayed 0 = true)) rfl (by decide)
  obtain ⟨hf, hd⟩ := of_decide_eq_true hp
  exact ⟨s, hf, (finished_reported_once hreach 0 0).2.2 hf hd, (finished_reported_once hreach 1 0).2.2 hf hd⟩

end Sample

end Engine

end Run

end UnifiedCache.Connector.AsyncDump
