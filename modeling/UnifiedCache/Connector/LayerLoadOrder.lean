/-
  UnifiedCache.Connector.LayerLoadOrder — in which order of waits each layer's loads are there in
  time (see `UnifiedCache.Connector.LayerwiseLoad`).

  Every wait submits the next layer, also when its own layer has been waited for before, and only a
  wait for a layer waits its loads. So a layer that is come back to has its successor submitted
  again, one that is passed over has no loads, and one that is not come to leaves them unwaited.
  `InOrder` asks for none of this while a request with a load plan has not failed.

  - `Books`: the tasks open, each submitted and not waited, of a request that has not failed; all
    others waited once.
  - `waitTasks_spec`, `submitAll_spec`: what the two loops do to the books.
  - `StepInv`: while requests live the layers used are the first ones, and the open tasks are those
    of the next layer, one for each request that lives.
  - `layers_in_time`: the result, over every run of steps that meet `InOrder`.
  - `out_of_order`: runs that do not.
-/

import Mathlib.Data.List.Nodup
import UnifiedCache.Connector.LayerwiseLoad

namespace UnifiedCache.Connector

open UnifiedCache.Base

variable {Req : Type} [DecidableEq Req]

namespace LayerWorker

open LayerLoads

/-! ## What a step should do -/

/-- The load of a layer for a request. -/
def taskOf (w : LayerWorker) (id layerId : Nat) (r : LayerRequest Req) : LayerTask Req where
  id := id
  layerId := layerId
  requestId := r.requestId
  storeBlockIds := w.storeBlockIds r.loadBlockIds.1
  shardIndexs := List.replicate r.loadBlockIds.1.length layerId
  layerPtrs := w.lay.layerAddrs layerId r.loadBlockIds.2

/-- The layer's shards went into its rows of the request's blocks. -/
def Loaded (w : LayerWorker) (log : List (LoadEvent Req)) (r : LayerRequest Req) (layerId : Nat) : Prop :=
  ∃ id, .submitted (w.taskOf id layerId r) ∈ log ∧ .waited id true ∈ log

structure Failed (s : LayerLoads Req) (r : LayerRequest Req) : Prop where
  known : r.requestId ∈ s.failureReqIds
  marked : r.requestId ∈ s.loadFailedReqs
  invalid : ∀ b ∈ r.loadBlockIds.2, b ∈ s.invalidBlockIds

/-- No layer is submitted that was used before; the latest event comes first. -/
def NoLate : List (LoadEvent Req) → Prop
  | [] => True
  | .submitted t :: log => t.layerId ∉ usedLayers log ∧ NoLate log
  | _ :: log => NoLate log

/-- How often a task was waited. -/
def waits (log : List (LoadEvent Req)) (id : Nat) : Nat :=
  log.countP fun
    | .waited id' _ => id' = id
    | _ => false

structure StepRight (w : LayerWorker) (s : LayerLoads Req) : Prop where
  loaded : ∀ layerId ∈ usedLayers s.log, ∀ r ∈ planned s.metadata, w.Loaded s.log r layerId ∨ Failed s r
  early : NoLate s.log
  waited : s.phase = .saved → ∀ t, .submitted t ∈ s.log → waits s.log t.id = 1

/-- No request with a load plan is left. -/
def NoneLive (s : LayerLoads Req) : Prop := ∀ d ∈ s.requestData, d.requestId ∈ s.failureReqIds

/-- While there is one: a layer is waited for when all before it have been, and again only the last;
    the step ends when all have been. -/
def InOrder (w : LayerWorker) (s : LayerLoads Req) : LoadLabel Req → Prop
  | .wait layerId _ _ => NoneLive s ∨
      ((∀ k ∈ w.lay.layerIds, k < layerId → k ∈ usedLayers s.log) ∧
        (layerId ∈ usedLayers s.log → ∀ k ∈ w.lay.layerIds, k ≤ layerId))
  | .save => NoneLive s ∨ ∀ k ∈ w.lay.layerIds, k ∈ usedLayers s.log
  | _ => True

/-! ## The log -/

section Log

variable {log : List (LoadEvent Req)} {t : LayerTask Req} {id : Nat} {ok : Bool} {layerId : Nat}

omit [DecidableEq Req] in
@[simp] theorem usedLayers_submitted : usedLayers (.submitted t :: log) = usedLayers log := rfl

omit [DecidableEq Req] in
@[simp] theorem usedLayers_waited : usedLayers (.waited id ok :: log) = usedLayers log := rfl

omit [DecidableEq Req] in
@[simp] theorem usedLayers_used : usedLayers (.used layerId :: log) = layerId :: usedLayers log := rfl

omit [DecidableEq Req] in
@[simp] theorem waits_submitted (id : Nat) : waits (.submitted t :: log) id = waits log id := by
  simp [waits]

omit [DecidableEq Req] in
@[simp] theorem waits_used (id : Nat) : waits (.used layerId :: log) id = waits log id := by
  simp [waits]

omit [DecidableEq Req] in
theorem waits_waited (id' : Nat) : waits (.waited id ok :: log) id' = waits log id' + if id = id' then 1 else 0 := by
  simp [waits, List.countP_cons]

omit [DecidableEq Req] in
theorem Loaded.mono {w : LayerWorker} {log' : List (LoadEvent Req)} {r : LayerRequest Req} (h : w.Loaded log r layerId)
    (hsub : log ⊆ log') : w.Loaded log' r layerId := by
  obtain ⟨id, hsubmitted, hwaited⟩ := h
  exact ⟨id, hsub hsubmitted, hsub hwaited⟩

end Log

/-! ## The books -/

structure Books (w : LayerWorker) (s : LayerLoads Req) (openTasks : List (LayerTask Req)) : Prop where
  plan : s.requestData = (planned s.metadata).map w.dataOf
  fresh : ∀ t, .submitted t ∈ s.log → t.id < s.nextTask
  unused : ∀ id, s.nextTask ≤ id → waits s.log id = 0
  ids : ∀ t t', .submitted t ∈ s.log → .submitted t' ∈ s.log → t.id = t'.id → t = t'
  opened : ∀ t ∈ openTasks, .submitted t ∈ s.log ∧ waits s.log t.id = 0 ∧ t.requestId ∉ s.failureReqIds ∧
    ∃ r ∈ planned s.metadata, t = w.taskOf t.id t.layerId r
  closed : ∀ t, .submitted t ∈ s.log → t ∈ openTasks ∨ waits s.log t.id = 1
  distinct : (openTasks.map LayerTask.requestId).Nodup
  failed : ∀ r ∈ planned s.metadata, r.requestId ∈ s.failureReqIds → Failed s r
  loaded : ∀ layerId ∈ usedLayers s.log, ∀ r ∈ planned s.metadata, w.Loaded s.log r layerId ∨ r.requestId ∈ s.failureReqIds
  early : NoLate s.log

/-- What the loops leave alone and only add to. -/
structure Grows (s s' : LayerLoads Req) : Prop where
  phase : s'.phase = s.phase
  metadata : s'.metadata = s.metadata
  requestData : s'.requestData = s.requestData
  needLoad : s'.needLoad = s.needLoad
  used : usedLayers s'.log = usedLayers s.log
  log : s.log ⊆ s'.log
  failures : s.failureReqIds ⊆ s'.failureReqIds

variable {w : LayerWorker} {s s' : LayerLoads Req} {t : LayerTask Req} {ts : List (LayerTask Req)} {r : LayerRequest Req}
  {layerId : Nat}

omit [DecidableEq Req] in
theorem Grows.refl (s : LayerLoads Req) : Grows s s := ⟨rfl, rfl, rfl, rfl, rfl, List.Subset.refl _, List.Subset.refl _⟩

omit [DecidableEq Req] in
theorem Grows.trans {s'' : LayerLoads Req} (h : Grows s s') (h' : Grows s' s'') : Grows s s'' :=
  ⟨h'.phase.trans h.phase, h'.metadata.trans h.metadata, h'.requestData.trans h.requestData, h'.needLoad.trans h.needLoad,
    h'.used.trans h.used, List.Subset.trans h.log h'.log, List.Subset.trans h.failures h'.failures⟩

omit [DecidableEq Req] in
theorem mem_requestMeta (h : r ∈ planned s.metadata) : r ∈ s.metadata.requestMeta := (List.mem_filter.mp h).1

/-- A request is found by its id. -/
theorem find_request (h : r ∈ s.metadata.requestMeta) :
    s.metadata.requestMeta.find? (fun r' => r'.requestId = r.requestId) = some r := by
  have hkeys := s.metadata.keys
  generalize s.metadata.requestMeta = reqs at h hkeys
  induction reqs with
  | nil => cases h
  | cons r₀ reqs ih =>
    rw [List.map_cons, List.nodup_cons] at hkeys
    rcases List.mem_cons.mp h with rfl | hmem
    · exact List.find?_cons_of_pos (by simp)
    · have hne : r₀.requestId ≠ r.requestId := fun heq => hkeys.1 (heq ▸ List.mem_map_of_mem hmem)
      rw [List.find?_cons_of_neg (by simpa using hne)]
      exact ih hmem hkeys.2

theorem errorBlocks_eq (h : r ∈ s.metadata.requestMeta) : errorBlocks s.metadata r.requestId = r.loadBlockIds.2 ++
    r.dumpBlockIds.2 := by
  unfold errorBlocks
  rw [find_request h]

theorem recordFailure_grows (s : LayerLoads Req) (requestId : Req) : Grows s (recordFailure s requestId) :=
  ⟨rfl, rfl, rfl, rfl, rfl, List.Subset.refl _, List.subset_append_left _ _⟩

/-- A request without an open task fails. -/
theorem Books.fail (hb : w.Books s ts) (hnot : r.requestId ∉ ts.map LayerTask.requestId) :
    w.Books (recordFailure s r.requestId) ts := by
  refine ⟨hb.plan, hb.fresh, hb.unused, hb.ids, fun t ht => ?_, hb.closed, hb.distinct, fun r' hr' hfailed => ?_, ?_, hb.early⟩
  · obtain ⟨hsubmitted, hwaits, hlive, hof⟩ := hb.opened t ht
    refine ⟨hsubmitted, hwaits, fun hmem => ?_, hof⟩
    rcases List.mem_append.mp hmem with hmem | hmem
    · exact hlive hmem
    · rw [List.mem_singleton] at hmem
      exact hnot (hmem ▸ List.mem_map_of_mem ht)
  · by_cases hsame : r'.requestId = r.requestId
    · refine ⟨hfailed, ?_, fun b hb => ?_⟩
      · rw [hsame]
        exact List.mem_append_right _ (List.mem_singleton_self _)
      · have hblocks : errorBlocks s.metadata r.requestId = r'.loadBlockIds.2 ++ r'.dumpBlockIds.2 := by
          rw [← hsame]
          exact errorBlocks_eq (mem_requestMeta hr')
        show b ∈ s.invalidBlockIds ++ errorBlocks s.metadata r.requestId
        rw [hblocks]
        exact List.mem_append_right _ (List.mem_append_left _ hb)
    · have hbefore : r'.requestId ∈ s.failureReqIds := by
        rcases List.mem_append.mp hfailed with hmem | hmem
        · exact hmem
        · exact absurd (List.mem_singleton.mp hmem) hsame
      obtain ⟨_, hmarked, hinvalid⟩ := hb.failed r' hr' hbefore
      exact ⟨hfailed, List.mem_append_left _ hmarked, fun b hb => List.mem_append_left _ (hinvalid b hb)⟩
  · intro layerId hused r' hr'
    rcases hb.loaded layerId hused r' hr' with hloaded | hfailed
    · exact .inl hloaded
    · exact .inr (List.mem_append_left _ hfailed)

/-- The first open task is waited. -/
theorem Books.wait (hb : w.Books s (t :: ts)) (ok : Bool) : w.Books { s with log := .waited t.id ok :: s.log } ts := by
  obtain ⟨hsubmitted, hwaits, _, _⟩ := hb.opened t List.mem_cons_self
  have hother : ∀ t', .submitted t' ∈ s.log → t' ≠ t → t'.id ≠ t.id :=
    fun t' ht' hne heq => hne (hb.ids t' t ht' hsubmitted heq)
  have hdistinct := hb.distinct
  rw [List.map_cons, List.nodup_cons] at hdistinct
  refine ⟨hb.plan, ?_, ?_, ?_, fun t' ht' => ?_, fun t' ht' => ?_, hdistinct.2, ?_, ?_, hb.early⟩
  · simpa using hb.fresh
  · intro id hid
    have hlt := hb.fresh t hsubmitted
    have hne : t.id ≠ id := fun heq => by
      have hid' : s.nextTask ≤ id := hid
      omega
    rw [waits_waited, if_neg hne, Nat.add_zero]
    exact hb.unused id hid
  · simpa using hb.ids
  · obtain ⟨hsubmitted', hwaits', hlive', hof'⟩ := hb.opened t' (List.mem_cons_of_mem _ ht')
    have hne : t' ≠ t := by
      intro e
      subst e
      exact hdistinct.1 (List.mem_map_of_mem ht')
    refine ⟨List.mem_cons_of_mem _ hsubmitted', ?_, hlive', hof'⟩
    rw [waits_waited, if_neg (hother t' hsubmitted' hne).symm]
    exact hwaits'
  · have hsubmitted' : .submitted t' ∈ s.log := by simpa using ht'
    by_cases hsame : t' = t
    · refine .inr ?_
      rw [waits_waited, hsame, hwaits, if_pos rfl]
    · rcases hb.closed t' hsubmitted' with hopen | hone
      · rcases List.mem_cons.mp hopen with heq | hmem
        · exact absurd heq hsame
        · exact .inl hmem
      · refine .inr ?_
        rw [waits_waited, if_neg (hother t' hsubmitted' hsame).symm]
        exact hone
  · intro r' hr' hfailed
    obtain ⟨hknown, hmarked, hinvalid⟩ := hb.failed r' hr' hfailed
    exact ⟨hknown, hmarked, hinvalid⟩
  · intro layerId hused r' hr'
    rcases hb.loaded layerId hused r' hr' with hloaded | hfailed
    · exact .inl (hloaded.mono (List.subset_cons_self _ _))
    · exact .inr hfailed

theorem waitTask_spec (hb : w.Books s (t :: ts)) (raises : List Req) :
    w.Books (waitTask raises s t) ts ∧ Grows s (waitTask raises s t) ∧ (waitTask raises s t).loadTasks = s.loadTasks ∧
      (t.requestId ∈ (waitTask raises s t).failureReqIds ∨ .waited t.id true ∈ (waitTask raises s t).log) := by
  have hgrows : ∀ ok, Grows s { s with log := .waited t.id ok :: s.log } := fun ok =>
    ⟨rfl, rfl, rfl, rfl, rfl, List.subset_cons_self _ _, List.Subset.refl _⟩
  unfold waitTask
  by_cases hraises : t.requestId ∈ raises
  · rw [if_pos hraises]
    obtain ⟨_, _, _, r, hr, hof⟩ := hb.opened t List.mem_cons_self
    have hid : t.requestId = r.requestId := by rw [hof]; rfl
    have hdistinct := hb.distinct
    rw [List.map_cons, List.nodup_cons] at hdistinct
    rw [hid] at hdistinct ⊢
    refine ⟨(hb.wait false).fail hdistinct.1, (hgrows false).trans (recordFailure_grows _ _), rfl, .inl ?_⟩
    exact List.mem_append_right _ (List.mem_singleton_self _)
  · rw [if_neg hraises]
    exact ⟨hb.wait true, hgrows true, rfl, .inr List.mem_cons_self⟩

/-- By induction on the tasks left to wait. -/
theorem waitTasks_spec (hb : w.Books s ts) (raises : List Req) :
    w.Books (ts.foldl (waitTask raises) s) [] ∧ Grows s (ts.foldl (waitTask raises) s) ∧
      (ts.foldl (waitTask raises) s).loadTasks = s.loadTasks ∧
      ∀ t ∈ ts, t.requestId ∈ (ts.foldl (waitTask raises) s).failureReqIds ∨
      .waited t.id true ∈ (ts.foldl (waitTask raises) s).log := by
  induction ts generalizing s with
  | nil => exact ⟨hb, Grows.refl s, rfl, nofun⟩
  | cons t ts ih =>
    obtain ⟨hb₁, hgrows₁, hload₁, hdone₁⟩ := waitTask_spec hb raises
    obtain ⟨hb₂, hgrows₂, hload₂, hdone₂⟩ := ih hb₁
    rw [List.foldl_cons]
    refine ⟨hb₂, hgrows₁.trans hgrows₂, hload₂.trans hload₁, fun t' ht' => ?_⟩
    rcases List.mem_cons.mp ht' with rfl | ht'
    · rcases hdone₁ with hfailed | hwaited
      · exact .inl (hgrows₂.failures hfailed)
      · exact .inr (hgrows₂.log hwaited)
    · exact hdone₂ t' ht'

omit [DecidableEq Req] in
/-- A new task of a request that lives and has none open, for a layer not used yet. -/
theorem Books.submit (hb : w.Books s ts) (hr : r ∈ planned s.metadata) (hlive : r.requestId ∉ s.failureReqIds)
    (hnot : r.requestId ∉ ts.map LayerTask.requestId) (hearly : layerId ∉ usedLayers s.log) (loadTasks : List (LayerTask Req)) :
    w.Books { s with
      loadTasks := loadTasks
      nextTask := s.nextTask + 1
      log := .submitted (w.taskOf s.nextTask layerId r) :: s.log } (ts ++ [w.taskOf s.nextTask layerId r]) := by
  have hnew : ∀ {t : LayerTask Req}, .submitted t ∈ LoadEvent.submitted (w.taskOf s.nextTask layerId r) :: s.log →
      t = w.taskOf s.nextTask layerId r ∨ .submitted t ∈ s.log := by
    intro t ht
    rcases List.mem_cons.mp ht with heq | hmem
    · exact .inl (LoadEvent.submitted.inj heq)
    · exact .inr hmem
  refine ⟨hb.plan, fun t ht => ?_, fun id hid => ?_, fun t t' ht ht' heq => ?_, fun t ht => ?_, fun t ht => ?_, ?_,
    fun r' hr' hfailed => ?_, fun layerId' hused r' hr' => ?_, ⟨hearly, hb.early⟩⟩
  · show t.id < s.nextTask + 1
    rcases hnew ht with rfl | hmem
    · exact Nat.lt_succ_self _
    · exact Nat.lt_succ_of_lt (hb.fresh t hmem)
  · have hid' : s.nextTask + 1 ≤ id := hid
    rw [waits_submitted]
    exact hb.unused id (by omega)
  · rcases hnew ht with rfl | hmem
    · rcases hnew ht' with rfl | hmem'
      · rfl
      · exact absurd heq.symm (Nat.ne_of_lt (hb.fresh t' hmem'))
    · rcases hnew ht' with rfl | hmem'
      · exact absurd heq (Nat.ne_of_lt (hb.fresh t hmem))
      · exact hb.ids t t' hmem hmem' heq
  · rw [waits_submitted]
    rcases List.mem_append.mp ht with hmem | hmem
    · obtain ⟨hsubmitted, hrest⟩ := hb.opened t hmem
      exact ⟨List.mem_cons_of_mem _ hsubmitted, hrest⟩
    · obtain rfl := List.mem_singleton.mp hmem
      exact ⟨List.mem_cons_self, hb.unused _ (Nat.le_refl _), hlive, r, hr, rfl⟩
  · rw [waits_submitted]
    rcases hnew ht with rfl | hmem
    · exact .inl (List.mem_append_right _ (List.mem_singleton_self _))
    · rcases hb.closed t hmem with hopen | hone
      · exact .inl (List.mem_append_left _ hopen)
      · exact .inr hone
  · rw [List.map_append, List.map_singleton]
    refine List.nodup_append.mpr ⟨hb.distinct, List.pairwise_singleton _ _, fun a ha b hb' heq => ?_⟩
    obtain rfl := List.mem_singleton.mp hb'
    rw [heq] at ha
    exact hnot ha
  · obtain ⟨hknown, hmarked, hinvalid⟩ := hb.failed r' hr' hfailed
    exact ⟨hknown, hmarked, hinvalid⟩
  · rcases hb.loaded layerId' hused r' hr' with hloaded | hfailed
    · exact .inl (hloaded.mono (List.subset_cons_self _ _))
    · exact .inr hfailed

omit [DecidableEq Req] in
theorem mem_layerIds {lay : LayerRows} : layerId ∈ lay.layerIds ↔ lay.firstLayerId ≤ layerId ∧
    layerId < lay.firstLayerId + lay.rows.length := by
  unfold LayerRows.layerIds
  rw [List.mem_range'_1]

omit [DecidableEq Req] in
/-- The row of a layer that the rank has. -/
theorem row_eq {lay : LayerRows} (h : layerId ∈ lay.layerIds) (blocks : List Nat) :
    (lay.extractBlockAddrs blocks)[layerId - lay.firstLayerId]? = some (lay.layerAddrs layerId blocks) := by
  rw [mem_layerIds] at h
  have hlt : layerId - lay.firstLayerId < lay.rows.length := by omega
  unfold LayerRows.extractBlockAddrs LayerRows.layerAddrs
  rw [List.getElem?_map, List.getElem?_eq_getElem hlt, Option.map_some, Option.getD_some]

/-- A turn of the submit loop, for a request that has no task open. -/
theorem submitRequest_spec (hb : w.Books s s.loadTasks) (hr : r ∈ planned s.metadata) (hlayer : layerId ∈ w.lay.layerIds)
    (hnot : r.requestId ∉ s.loadTasks.map LayerTask.requestId) (hearly : layerId ∉ usedLayers s.log) (raises : List Req) :
    let s' := submitRequest layerId (layerId - w.lay.firstLayerId) raises s (w.dataOf r)
    w.Books s' s'.loadTasks ∧ Grows s s' ∧
    (∀ t ∈ s'.loadTasks, t ∈ s.loadTasks ∨ t.layerId = layerId ∧ t.requestId = r.requestId) ∧
      s.loadTasks ⊆ s'.loadTasks ∧
      (r.requestId ∈ s'.failureReqIds ∨ ∃ t ∈ s'.loadTasks, t.requestId = r.requestId) := by
  have hfail : w.Books (recordFailure s r.requestId) s.loadTasks ∧ Grows s (recordFailure s r.requestId) ∧
      r.requestId ∈ (recordFailure s r.requestId).failureReqIds :=
    ⟨hb.fail hnot, recordFailure_grows s _, List.mem_append_right _ (List.mem_singleton_self _)⟩
  simp only [submitRequest]
  have hrow : (w.dataOf r).totalPtrs[layerId - w.lay.firstLayerId]? = some (w.lay.layerAddrs layerId r.loadBlockIds.2) :=
    row_eq hlayer _
  by_cases hknown : (w.dataOf r).requestId ∈ s.failureReqIds
  · rw [if_pos hknown]
    exact ⟨hb, Grows.refl s, fun t ht => .inl ht, List.Subset.refl _, .inl hknown⟩
  · rw [if_neg hknown, hrow]
    simp only
    by_cases hraises : (w.dataOf r).requestId ∈ raises
    · rw [if_pos hraises]
      exact ⟨hfail.1, hfail.2.1, fun t ht => .inl ht, List.Subset.refl _, .inl hfail.2.2⟩
    · rw [if_neg hraises]
      have hset : setTask s.loadTasks (w.taskOf s.nextTask layerId r) = s.loadTasks ++ [w.taskOf s.nextTask layerId r] := by
        unfold setTask
        rw [if_neg]
        intro hany
        obtain ⟨t, ht, hkey⟩ := List.any_eq_true.mp hany
        have hsame : t.requestId = r.requestId := (of_decide_eq_true hkey).2
        exact hnot (hsame ▸ List.mem_map_of_mem ht)
      have hbooks := hb.submit hr hknown hnot hearly (s.loadTasks ++ [w.taskOf s.nextTask layerId r])
      rw [← hset] at hbooks
      refine ⟨?_, ⟨rfl, rfl, rfl, rfl, rfl, List.subset_cons_self _ _, List.Subset.refl _⟩, fun t ht => ?_, ?_, .inr ?_⟩
      · exact hbooks
      · have ht' : t ∈ setTask s.loadTasks (w.taskOf s.nextTask layerId r) := ht
        rw [hset] at ht'
        rcases List.mem_append.mp ht' with hmem | hmem
        · exact .inl hmem
        · rw [List.mem_singleton.mp hmem]
          exact .inr ⟨rfl, rfl⟩
      · show s.loadTasks ⊆ setTask s.loadTasks (w.taskOf s.nextTask layerId r)
        rw [hset]
        exact List.subset_append_left _ _
      · refine ⟨w.taskOf s.nextTask layerId r, ?_, rfl⟩
        show w.taskOf s.nextTask layerId r ∈ setTask s.loadTasks (w.taskOf s.nextTask layerId r)
        rw [hset]
        exact List.mem_append_right _ (List.mem_singleton_self _)

/-- By induction on the requests left to submit, none of which has a task open. -/
theorem submitAll_spec {rs : List (LayerRequest Req)} (hb : w.Books s s.loadTasks) (hrs : ∀ r ∈ rs, r ∈ planned s.metadata)
    (hkeys : (rs.map LayerRequest.requestId).Nodup) (hlayer : layerId ∈ w.lay.layerIds)
    (hnot : ∀ r ∈ rs, r.requestId ∉ s.loadTasks.map LayerTask.requestId) (hof : ∀ t ∈ s.loadTasks, t.layerId = layerId)
    (hearly : layerId ∉ usedLayers s.log) (raises : List Req) :
    let s' := (rs.map w.dataOf).foldl (submitRequest layerId (layerId - w.lay.firstLayerId) raises) s
    w.Books s' s'.loadTasks ∧ Grows s s' ∧ (∀ t ∈ s'.loadTasks, t.layerId = layerId) ∧ s.loadTasks ⊆ s'.loadTasks ∧
      ∀ r ∈ rs, r.requestId ∈ s'.failureReqIds ∨ ∃ t ∈ s'.loadTasks, t.requestId = r.requestId := by
  induction rs generalizing s with
  | nil => exact ⟨hb, Grows.refl s, hof, List.Subset.refl _, nofun⟩
  | cons r rs ih =>
    rw [List.map_cons, List.nodup_cons] at hkeys
    simp only [List.map_cons, List.foldl_cons]
    obtain ⟨hb₁, hgrows₁, hnew₁, hsub₁, hdone₁⟩ :=
      submitRequest_spec hb (hrs r List.mem_cons_self) hlayer (hnot r List.mem_cons_self) hearly raises
    generalize submitRequest layerId (layerId - w.lay.firstLayerId) raises s (w.dataOf r) = s₁ at hb₁ hgrows₁ hnew₁ hsub₁ hdone₁ ⊢
    have hrs₁ : ∀ r ∈ rs, r ∈ planned s₁.metadata := by
      rw [hgrows₁.metadata]
      exact fun r' hr' => hrs r' (List.mem_cons_of_mem _ hr')
    have hnot₁ : ∀ r' ∈ rs, r'.requestId ∉ s₁.loadTasks.map LayerTask.requestId := by
      intro r' hr' hmem
      obtain ⟨t, ht, heq⟩ := List.mem_map.mp hmem
      rcases hnew₁ t ht with hold | ⟨_, hsame⟩
      · exact hnot r' (List.mem_cons_of_mem _ hr') (heq ▸ List.mem_map_of_mem hold)
      · rw [heq] at hsame
        exact hkeys.1 (hsame ▸ List.mem_map_of_mem hr')
    have hof₁ : ∀ t ∈ s₁.loadTasks, t.layerId = layerId := by
      intro t ht
      rcases hnew₁ t ht with hold | ⟨hsame, _⟩
      · exact hof t hold
      · exact hsame
    obtain ⟨hb₂, hgrows₂, hof₂, hsub₂, hdone₂⟩ := ih hb₁ hrs₁ hkeys.2 hnot₁ hof₁ (by rw [hgrows₁.used]; exact hearly)
    refine ⟨hb₂, hgrows₁.trans hgrows₂, hof₂, List.Subset.trans hsub₁ hsub₂, fun r' hr' => ?_⟩
    rcases List.mem_cons.mp hr' with rfl | hr'
    · rcases hdone₁ with hfailed | ⟨t, ht, heq⟩
      · exact .inl (hgrows₂.failures hfailed)
      · exact .inr ⟨t, hsub₂ ht, heq⟩
    · exact hdone₂ r' hr'

/-- The submits of a layer not used yet, when no task is open. -/
theorem submitLayer_spec (hb : w.Books s s.loadTasks) (hnone : s.loadTasks = []) (hlayer : layerId ∈ w.lay.layerIds)
    (hearly : layerId ∉ usedLayers s.log) (raises : List Req) :
    let s' := submitLayer layerId (layerId - w.lay.firstLayerId) raises s
    w.Books s' s'.loadTasks ∧ Grows s s' ∧ (∀ t ∈ s'.loadTasks, t.layerId = layerId) ∧
      ∀ r ∈ planned s.metadata, r.requestId ∈ s'.failureReqIds ∨ ∃ t ∈ s'.loadTasks, t.requestId = r.requestId := by
  have hkeys : ((planned s.metadata).map LayerRequest.requestId).Nodup :=
    (List.filter_sublist.map LayerRequest.requestId).nodup s.metadata.keys
  unfold submitLayer
  rw [hb.plan]
  have hno : ∀ {α : Type} {p : LayerTask Req → α}, s.loadTasks.map p = [] := by
    intro α p
    rw [hnone, List.map_nil]
  have hall : ∀ r ∈ planned s.metadata, r ∈ planned s.metadata := fun r hr => hr
  obtain ⟨hb', hgrows, hof, _, hdone⟩ := submitAll_spec hb hall hkeys hlayer
    (fun r hr hmem => by rw [hno] at hmem; cases hmem) (fun t ht => by rw [hnone] at ht; cases ht) hearly raises
  exact ⟨hb', hgrows, hof, hdone⟩

/-! ## Steps -/

/-- A layer's wait returns. -/
def use (layerId : Nat) (s : LayerLoads Req) : LayerLoads Req := { s with log := .used layerId :: s.log }

omit [DecidableEq Req] in
theorem Books.use (hb : w.Books s ts)
    (hloaded : ∀ r ∈ planned s.metadata, w.Loaded s.log r layerId ∨ r.requestId ∈ s.failureReqIds) :
    w.Books (use layerId s) ts := by
  have hsub : s.log ⊆ LoadEvent.used layerId :: s.log := List.subset_cons_self _ _
  have hmem : ∀ {t : LayerTask Req}, .submitted t ∈ LoadEvent.used layerId :: s.log → .submitted t ∈ s.log := by
    intro t ht
    simpa using ht
  refine ⟨hb.plan, fun t ht => hb.fresh t (hmem ht), fun id hid => ?_, fun t t' ht ht' => hb.ids t t' (hmem ht) (hmem ht'),
    fun t ht => ?_, fun t ht => ?_, hb.distinct, fun r' hr' hfailed => ?_, fun layerId' hused r' hr' => ?_, hb.early⟩
  · exact (waits_used id).trans (hb.unused id hid)
  · obtain ⟨hsubmitted, hwaits, hrest⟩ := hb.opened t ht
    exact ⟨hsub hsubmitted, (waits_used t.id).trans hwaits, hrest⟩
  · rcases hb.closed t (hmem ht) with hopen | hone
    · exact .inl hopen
    · exact .inr ((waits_used t.id).trans hone)
  · obtain ⟨hknown, hmarked, hinvalid⟩ := hb.failed r' hr' hfailed
    exact ⟨hknown, hmarked, hinvalid⟩
  · have hall : w.Loaded s.log r' layerId' ∨ r'.requestId ∈ s.failureReqIds := by
      rcases List.mem_cons.mp hused with rfl | hused
      · exact hloaded r' hr'
      · exact hb.loaded layerId' hused r' hr'
    rcases hall with hloaded' | hfailed
    · exact .inl (hloaded'.mono hsub)
    · exact .inr hfailed

/-- While a request lives, the first `k` layers have been used and the open tasks are those of the
    layer after them, one for each request that lives. -/
structure Place (w : LayerWorker) (s : LayerLoads Req) (k : Nat) : Prop where
  le : k ≤ w.lay.rows.length
  used : ∀ layerId, layerId ∈ usedLayers s.log ↔ w.lay.firstLayerId ≤ layerId ∧ layerId < w.lay.firstLayerId + k
  next : ∀ t ∈ s.loadTasks, t.layerId = w.lay.firstLayerId + k ∧ k < w.lay.rows.length
  each : k < w.lay.rows.length → ∀ r ∈ planned s.metadata,
    r.requestId ∈ s.failureReqIds ∨ ∃ t ∈ s.loadTasks, t.requestId = r.requestId

structure StepInv (w : LayerWorker) (s : LayerLoads Req) : Prop where
  books : w.Books s s.loadTasks
  need : s.needLoad = false → planned s.metadata = []
  place : NoneLive s ∨ ∃ k, w.Place s k
  saved : s.phase = .saved → s.loadTasks = []

omit [DecidableEq Req] in
theorem Books.noneLive_iff (hb : w.Books s ts) : NoneLive s ↔ ∀ r ∈ planned s.metadata, r.requestId ∈ s.failureReqIds := by
  unfold NoneLive
  rw [hb.plan, List.forall_mem_map]
  rfl

omit [DecidableEq Req] in
/-- Where no request lives no task is open. -/
theorem Books.none_open (hb : w.Books s ts) (hnone : NoneLive s) : ts = [] := by
  rw [hb.noneLive_iff] at hnone
  refine List.eq_nil_iff_forall_not_mem.mpr fun t ht => ?_
  obtain ⟨_, _, hlive, r, hr, hof⟩ := hb.opened t ht
  have hid : t.requestId = r.requestId := by rw [hof]; rfl
  exact hlive (hid ▸ hnone r hr)

omit [DecidableEq Req] in
theorem StepInv.right (hi : w.StepInv s) : w.StepRight s := by
  refine ⟨fun layerId hused r hr => ?_, hi.books.early, fun hsaved t ht => ?_⟩
  · rcases hi.books.loaded layerId hused r hr with hloaded | hfailed
    · exact .inl hloaded
    · exact .inr (hi.books.failed r hr hfailed)
  · rcases hi.books.closed t ht with hopen | hone
    · rw [hi.saved hsaved] at hopen
      cases hopen
    · exact hone

/-- The first layer is submitted. -/
theorem start_inv (md : LayerMetadata Req) (raises : List Req) (s : LayerLoads Req) : w.StepInv (w.startLoadKv md raises s) := by
  let s₀ : LayerLoads Req := { s with
    phase := .loading
    metadata := md
    loadTasks := []
    failureReqIds := []
    requestData := (planned md).map w.dataOf
    needLoad := !(planned md).isEmpty
    log := [] }
  have hb₀ : w.Books s₀ [] :=
    ⟨rfl, nofun, fun _ _ => rfl, nofun, nofun, nofun, List.nodup_nil, nofun, nofun, trivial⟩
  have hrun : w.startLoadKv md raises s = if s₀.needLoad then submitLayer w.lay.firstLayerId 0 raises s₀ else s₀ := rfl
  rw [hrun]
  have hlen : 0 < w.lay.rows.length := Nat.lt_of_lt_of_le w.lay.base_pos w.lay.base_le
  by_cases hneed : s₀.needLoad = true
  · rw [if_pos hneed]
    have hlayer : w.lay.firstLayerId ∈ w.lay.layerIds := mem_layerIds.mpr ⟨Nat.le_refl _, by omega⟩
    have hspec := submitLayer_spec (w := w) (s := s₀) hb₀ rfl hlayer List.not_mem_nil raises
    rw [Nat.sub_self] at hspec
    obtain ⟨hb, hgrows, hof, hdone⟩ := hspec
    refine ⟨hb, fun hno => ?_, .inr ⟨0, Nat.zero_le _, fun layerId => ?_, fun t ht => ⟨hof t ht, hlen⟩, fun _ r hr => ?_⟩,
      fun hsaved => ?_⟩
    · rw [hgrows.needLoad, hneed] at hno
      cases hno
    · rw [hgrows.used]
      refine ⟨fun h => absurd h List.not_mem_nil, fun h => ?_⟩
      omega
    · rw [hgrows.metadata] at hr
      exact hdone r hr
    · rw [hgrows.phase] at hsaved
      cases hsaved
  · have hempty : planned md = [] := by simpa [s₀] using hneed
    rw [if_neg hneed]
    refine ⟨hb₀, fun _ => hempty, .inl ?_, fun hsaved => by cases hsaved⟩
    rw [hb₀.noneLive_iff]
    intro r hr
    have hr' : r ∈ planned md := hr
    rw [hempty] at hr'
    cases hr'

/-- Where no request lives nothing is submitted. -/
theorem submitLayer_idle (hnone : NoneLive s) (layerId localRow : Nat) (raises : List Req) :
    submitLayer layerId localRow raises s = s := by
  have hall : ∀ ds : List (RequestData Req), (∀ d ∈ ds, d.requestId ∈ s.failureReqIds) →
      ds.foldl (submitRequest layerId localRow raises) s = s := by
    intro ds hds
    induction ds with
    | nil => rfl
    | cons d ds ih =>
      have hskip : submitRequest layerId localRow raises s d = s := by
        unfold submitRequest
        rw [if_pos (hds d List.mem_cons_self)]
      rw [List.foldl_cons, hskip]
      exact ih fun d' hd' => hds d' (List.mem_cons_of_mem _ hd')
  exact hall s.requestData hnone

/-- A wait with loads to do. -/
theorem wait_eq (hneed : s.needLoad = true) (waitRaises submitRaises : List Req) :
    w.waitForLayerLoad layerId waitRaises submitRaises s = use layerId (
      let s₂ := (s.loadTasks.filter (·.layerId = layerId)).foldl (waitTask waitRaises)
        { s with loadTasks := s.loadTasks.filter (·.layerId ≠ layerId) }
      if layerId + 1 ∈ w.lay.layerIds then submitLayer (layerId + 1) (layerId + 1 - w.lay.firstLayerId) submitRaises s₂
        else s₂) := by
  unfold waitForLayerLoad
  rw [if_neg (by simp [hneed])]
  rfl

/-- A wait with no task open. -/
theorem wait_none_open (hneed : s.needLoad = true) (hnone : s.loadTasks = []) (waitRaises submitRaises : List Req) :
    w.waitForLayerLoad layerId waitRaises submitRaises s =
      use layerId (if layerId + 1 ∈ w.lay.layerIds then
        submitLayer (layerId + 1) (layerId + 1 - w.lay.firstLayerId) submitRaises s else s) := by
  have hsame : ({ s with loadTasks := [] } : LayerLoads Req) = s := by
    rw [← hnone]
  rw [wait_eq hneed]
  simp only [hnone, List.filter_nil, List.foldl_nil]
  rw [hsame]

omit [DecidableEq Req] in
/-- A request with a plan is told by its id. -/
theorem planned_inj {md : LayerMetadata Req} {r r' : LayerRequest Req} (hr : r ∈ planned md) (hr' : r' ∈ planned md)
    (hid : r.requestId = r'.requestId) : r = r' :=
  List.inj_on_of_nodup_map md.keys (List.mem_filter.mp hr).1 (List.mem_filter.mp hr').1 hid

/-- A wait for the next layer. -/
theorem wait_next (hi : w.StepInv s) (hphase : s.phase = .loading) (hneed : s.needLoad = true) {k : Nat} (hp : w.Place s k)
    (hk : k < w.lay.rows.length) (waitRaises submitRaises : List Req) :
    w.StepInv (w.waitForLayerLoad (w.lay.firstLayerId + k) waitRaises submitRaises s) := by
  let s₁ : LayerLoads Req := { s with loadTasks := [] }
  have hrun : w.waitForLayerLoad (w.lay.firstLayerId + k) waitRaises submitRaises s =
      use (w.lay.firstLayerId + k) (
        let s₂ := s.loadTasks.foldl (waitTask waitRaises) s₁
        if w.lay.firstLayerId + k + 1 ∈ w.lay.layerIds then
          submitLayer (w.lay.firstLayerId + k + 1) (w.lay.firstLayerId + k + 1 - w.lay.firstLayerId) submitRaises s₂
        else s₂) := by
    have hall : s.loadTasks.filter (·.layerId = w.lay.firstLayerId + k) = s.loadTasks :=
      List.filter_eq_self.mpr fun t ht => by simpa using (hp.next t ht).1
    have hrest : s.loadTasks.filter (·.layerId ≠ w.lay.firstLayerId + k) = [] :=
      List.filter_eq_nil_iff.mpr fun t ht => by simpa using (hp.next t ht).1
    rw [wait_eq hneed, hall, hrest]
  have hb₁ : w.Books s₁ s.loadTasks :=
    ⟨hi.books.plan, hi.books.fresh, hi.books.unused, hi.books.ids, hi.books.opened, hi.books.closed, hi.books.distinct,
      fun r hr hfailed => ⟨hfailed, (hi.books.failed r hr hfailed).marked, (hi.books.failed r hr hfailed).invalid⟩,
      hi.books.loaded, hi.books.early⟩
  obtain ⟨hb₂, hgrows₂, hload₂, hdone₂⟩ := waitTasks_spec hb₁ waitRaises
  rw [hrun]
  simp only
  generalize s.loadTasks.foldl (waitTask waitRaises) s₁ = s₂ at hb₂ hgrows₂ hload₂ hdone₂ ⊢
  have hnone₂ : s₂.loadTasks = [] := hload₂
  have hused₂ : usedLayers s₂.log = usedLayers s.log := hgrows₂.used
  -- each request has the layer or has failed
  have hloaded : ∀ r ∈ planned s₂.metadata, w.Loaded s₂.log r (w.lay.firstLayerId + k) ∨ r.requestId ∈ s₂.failureReqIds := by
    intro r hr
    rw [hgrows₂.metadata] at hr
    rcases hp.each hk r hr with hfailed | ⟨t, ht, hid⟩
    · exact .inr (hgrows₂.failures hfailed)
    · rcases hdone₂ t ht with hfailed | hwaited
      · exact .inr (hid ▸ hfailed)
      · obtain ⟨hsubmitted, _, _, r', hr', hof⟩ := hi.books.opened t ht
        have hid' : t.requestId = r'.requestId := by rw [hof]; rfl
        obtain rfl : r' = r := planned_inj hr' hr (hid'.symm.trans hid)
        rw [(hp.next t ht).1] at hof
        rw [hof] at hsubmitted
        exact .inl ⟨t.id, hgrows₂.log hsubmitted, hwaited⟩
  have hb₂' : w.Books s₂ s₂.loadTasks := by
    rw [hnone₂]
    exact hb₂
  have husedNext : ∀ layerId, layerId ∈ (w.lay.firstLayerId + k) :: usedLayers s.log ↔
      w.lay.firstLayerId ≤ layerId ∧ layerId < w.lay.firstLayerId + (k + 1) := by
    intro layerId
    rw [List.mem_cons, hp.used]
    omega
  have hneed' : ∀ {s' : LayerLoads Req}, Grows s₂ s' → (use (w.lay.firstLayerId + k) s').needLoad = false →
      planned s'.metadata = [] := by
    intro s' hgrows hno
    have hsame : s'.needLoad = s.needLoad := hgrows.needLoad.trans hgrows₂.needLoad
    exact absurd (hneed.symm.trans (hsame.symm.trans hno)) nofun
  have hphase' : ∀ {s' : LayerLoads Req}, Grows s₂ s' → (use (w.lay.firstLayerId + k) s').phase ≠ .saved := by
    intro s' hgrows hsaved
    have hsame : s'.phase = s.phase := hgrows.phase.trans hgrows₂.phase
    exact absurd (hphase.symm.trans (hsame.symm.trans hsaved)) nofun
  by_cases hnext : w.lay.firstLayerId + k + 1 ∈ w.lay.layerIds
  · rw [if_pos hnext]
    have hlt := (mem_layerIds.mp hnext).2
    have hearly : w.lay.firstLayerId + k + 1 ∉ usedLayers s₂.log := by
      rw [hused₂, hp.used]
      omega
    obtain ⟨hb₃, hgrows₃, hof₃, hdone₃⟩ := submitLayer_spec hb₂' hnone₂ hnext hearly submitRaises
    generalize submitLayer (w.lay.firstLayerId + k + 1) (w.lay.firstLayerId + k + 1 - w.lay.firstLayerId) submitRaises s₂ = s₃
      at hb₃ hgrows₃ hof₃ hdone₃ ⊢
    have hloaded₃ : ∀ r ∈ planned s₃.metadata, w.Loaded s₃.log r (w.lay.firstLayerId + k) ∨ r.requestId ∈ s₃.failureReqIds := by
      intro r hr
      rw [hgrows₃.metadata] at hr
      rcases hloaded r hr with h | h
      · exact .inl (h.mono hgrows₃.log)
      · exact .inr (hgrows₃.failures h)
    refine ⟨hb₃.use hloaded₃, hneed' hgrows₃, .inr ⟨k + 1, by omega, fun layerId => ?_, fun t ht => ⟨hof₃ t ht, by omega⟩,
      fun _ r hr => ?_⟩, fun hsaved => absurd hsaved (hphase' hgrows₃)⟩
    · have hlog : usedLayers (use (w.lay.firstLayerId + k) s₃).log = (w.lay.firstLayerId + k) :: usedLayers s.log := by
        rw [← hused₂, ← hgrows₃.used]
        rfl
      rw [hlog]
      exact husedNext layerId
    · have hr' : r ∈ planned s₃.metadata := hr
      rw [hgrows₃.metadata] at hr'
      exact hdone₃ r hr'
  · rw [if_neg hnext]
    rw [mem_layerIds] at hnext
    refine ⟨hb₂'.use hloaded, hneed' (Grows.refl s₂), .inr ⟨k + 1, by omega, fun layerId => ?_, fun t ht => ?_, fun hlt => ?_⟩,
      fun hsaved => absurd hsaved (hphase' (Grows.refl s₂))⟩
    · have hlog : usedLayers (use (w.lay.firstLayerId + k) s₂).log = (w.lay.firstLayerId + k) :: usedLayers s.log := by
        rw [← hused₂]
        rfl
      rw [hlog]
      exact husedNext layerId
    · have ht' : t ∈ s₂.loadTasks := ht
      rw [hnone₂] at ht'
      cases ht'
    · omega

omit [DecidableEq Req] in
/-- Which layer may be waited for. -/
theorem next_or_last {k : Nat} (hp : w.Place s k) (hlayer : layerId ∈ w.lay.layerIds)
    (hbefore : ∀ k ∈ w.lay.layerIds, k < layerId → k ∈ usedLayers s.log)
    (hagain : layerId ∈ usedLayers s.log → ∀ k ∈ w.lay.layerIds, k ≤ layerId) :
    (k < w.lay.rows.length ∧ layerId = w.lay.firstLayerId + k) ∨ (k = w.lay.rows.length ∧ layerId + 1 ∉ w.lay.layerIds ∧
      layerId ∈ usedLayers s.log) := by
  have hle := hp.le
  obtain ⟨hlow, hhigh⟩ := mem_layerIds.mp hlayer
  by_cases hused : layerId ∈ usedLayers s.log
  · have hlast := hagain hused (w.lay.firstLayerId + w.lay.rows.length - 1) (mem_layerIds.mpr (by omega))
    have hin := (hp.used layerId).mp hused
    refine .inr ⟨by omega, fun hmem => ?_, hused⟩
    rw [mem_layerIds] at hmem
    omega
  · have hout : ¬ layerId < w.lay.firstLayerId + k := fun hlt => hused ((hp.used layerId).mpr ⟨hlow, hlt⟩)
    have heq : layerId = w.lay.firstLayerId + k := by
      by_contra hne
      have hin := (hp.used _).mp (hbefore (w.lay.firstLayerId + k) (mem_layerIds.mpr (by omega)) (by omega))
      omega
    exact .inl ⟨by omega, heq⟩

/-- A wait that meets the condition keeps the invariant. -/
theorem wait_inv (hi : w.StepInv s) (hphase : s.phase = .loading) (hlayer : layerId ∈ w.lay.layerIds)
    (hok : NoneLive s ∨ ((∀ k ∈ w.lay.layerIds, k < layerId → k ∈ usedLayers s.log) ∧
      (layerId ∈ usedLayers s.log → ∀ k ∈ w.lay.layerIds, k ≤ layerId)))
    (waitRaises submitRaises : List Req) : w.StepInv (w.waitForLayerLoad layerId waitRaises submitRaises s) := by
  have hnotsaved : s.phase ≠ .saved := by
    rw [hphase]
    exact nofun
  -- where no request lives only the use is noted
  have hidle : NoneLive s → w.StepInv (use layerId s) := by
    intro hnone
    refine ⟨hi.books.use fun r hr => .inr (hi.books.noneLive_iff.mp hnone r hr), hi.need, .inl hnone,
      fun hsaved => absurd hsaved hnotsaved⟩
  by_cases hneed : s.needLoad = true
  · by_cases hnone : NoneLive s
    · rw [wait_none_open hneed (hi.books.none_open hnone), submitLayer_idle hnone, ite_self]
      exact hidle hnone
    · obtain ⟨k, hp⟩ := hi.place.resolve_left hnone
      obtain ⟨hbefore, hagain⟩ := hok.resolve_left hnone
      rcases next_or_last hp hlayer hbefore hagain with ⟨hk, rfl⟩ | ⟨hk, hlast, hused⟩
      · exact wait_next hi hphase hneed hp hk waitRaises submitRaises
      · have hempty : s.loadTasks = [] := by
          refine List.eq_nil_iff_forall_not_mem.mpr fun t ht => ?_
          have hlt := (hp.next t ht).2
          omega
        rw [wait_none_open hneed hempty, if_neg hlast]
        refine ⟨hi.books.use (hi.books.loaded layerId hused), hi.need, .inr ⟨k, hp.le, fun layerId' => ?_, hp.next, hp.each⟩,
          fun hsaved => absurd hsaved hnotsaved⟩
        show layerId' ∈ layerId :: usedLayers s.log ↔ _
        rw [List.mem_cons, ← hp.used layerId']
        refine ⟨fun h => ?_, .inr⟩
        rcases h with rfl | h
        · exact hused
        · exact h
  · have hrun : w.waitForLayerLoad layerId waitRaises submitRaises s = use layerId s := by
      unfold waitForLayerLoad
      rw [if_pos (by simp [Bool.eq_false_iff.mpr hneed])]
      rfl
    rw [hrun]
    refine hidle (hi.books.noneLive_iff.mpr fun r hr => ?_)
    rw [hi.need (Bool.eq_false_iff.mpr hneed)] at hr
    cases hr

omit [DecidableEq Req] in
/-- The step ends with no task open. -/
theorem save_inv (hi : w.StepInv s) (hok : NoneLive s ∨ ∀ k ∈ w.lay.layerIds, k ∈ usedLayers s.log) :
    w.StepInv { s with phase := .saved } := by
  have hempty : s.loadTasks = [] := by
    by_cases hnone : NoneLive s
    · exact hi.books.none_open hnone
    · obtain ⟨k, hp⟩ := hi.place.resolve_left hnone
      refine List.eq_nil_iff_forall_not_mem.mpr fun t ht => ?_
      have hk := (hp.next t ht).2
      have hin := (hp.used _).mp (hok.resolve_left hnone (w.lay.firstLayerId + k) (mem_layerIds.mpr (by omega)))
      omega
  refine ⟨⟨hi.books.plan, hi.books.fresh, hi.books.unused, hi.books.ids, hi.books.opened, hi.books.closed, hi.books.distinct,
    fun r hr hfailed => ⟨hfailed, (hi.books.failed r hr hfailed).marked, (hi.books.failed r hr hfailed).invalid⟩,
    hi.books.loaded, hi.books.early⟩, hi.need, ?_, fun _ => hempty⟩
  rcases hi.place with hnone | ⟨k, hp⟩
  · exact .inl hnone
  · exact .inr ⟨k, hp.le, hp.used, hp.next, hp.each⟩

/-- In every run in which, while a request with a load plan has not failed, a layer is waited for
    when all before it have been, and again only the last, and the step ends when all have been:
    when a layer is used each request has it or has failed, no layer is submitted after its use, and
    when the step is saved every task has been waited once. -/
theorem layers_in_time (w : LayerWorker) (s : LayerLoads Req) (h : Reach (w.loadSys Req) w.InOrder s) (hphase : s.phase ≠ .idle) :
    w.StepRight s := by
  have hinv : s.phase = .idle ∨ w.StepInv s := by
    refine h.inv (I := fun s => s.phase = .idle ∨ w.StepInv s) ?_ fun s a s' hi hok hstep => ?_
    · intro s e
      subst e
      exact .inl rfl
    · have hloading : s.phase = .loading → w.StepInv s := fun hl => hi.resolve_left fun hidle => by rw [hl] at hidle; cases hidle
      cases a with
      | start md raises =>
        simp only [loadSys, loadStep, Option.ite_none_right_eq_some, Option.some.injEq] at hstep
        obtain ⟨_, rfl⟩ := hstep
        exact .inr (start_inv md raises s)
      | wait layerId waitRaises submitRaises =>
        simp only [loadSys, loadStep, Option.ite_none_right_eq_some, Option.some.injEq] at hstep
        obtain ⟨⟨hl, hlayer, _⟩, rfl⟩ := hstep
        exact .inr (wait_inv (hloading hl) hl hlayer hok waitRaises submitRaises)
      | save =>
        simp only [loadSys, loadStep, Option.ite_none_right_eq_some, Option.some.injEq] at hstep
        obtain ⟨⟨hl, _⟩, rfl⟩ := hstep
        exact .inr (save_inv (hloading hl) hok)
      | report =>
        simp only [loadSys, loadStep, Option.ite_none_right_eq_some, Option.some.injEq] at hstep
        obtain ⟨_, rfl⟩ := hstep
        exact .inl rfl
  exact (hinv.resolve_left hphase).right

/-! ## Runs -/

/-- Three layers, the last two of a speculative model. -/
def threeLayers : LayerWorker where
  lay := ⟨0, [[(16, 1000)], [(16, 2000)], [(16, 3000)]], 1, Nat.zero_lt_one, by decide⟩
  tpRank := 0
  tpSize := 1
  isMla := false
  requestHasher := id

/-- One request loads a block. -/
def oneLoad : LayerMetadata Nat := ⟨[⟨7, ([[1]], [5]), ([], [])⟩], by decide⟩

/-- Two layers in order, the last again, and the step's end; the load of the last layer fails. -/
def inOrderRun : List (LoadLabel Nat) :=
  [.start oneLoad [], .wait 0 [] [], .wait 1 [] [], .wait 2 [7] [], .wait 2 [] [], .save]

def inOrder (w : LayerWorker) (s : LayerLoads Nat) : LoadLabel Nat → Bool
  | .wait layerId _ _ => s.requestData.all (fun d => s.failureReqIds.contains d.requestId) ||
      ((w.lay.layerIds.all fun k => !decide (k < layerId) || (usedLayers s.log).contains k) &&
        (!(usedLayers s.log).contains layerId || w.lay.layerIds.all fun k => k ≤ layerId))
  | .save => s.requestData.all (fun d => s.failureReqIds.contains d.requestId) ||
      w.lay.layerIds.all fun k => (usedLayers s.log).contains k
  | _ => true

theorem inOrder_sound (w : LayerWorker) (s : LayerLoads Nat) (a : LoadLabel Nat) (h : inOrder w s a = true) : w.InOrder s a := by
  cases a with
  | wait layerId _ _ =>
    simp only [inOrder, Bool.or_eq_true, Bool.and_eq_true, List.all_eq_true, List.contains_iff_mem, Bool.not_eq_true',
      decide_eq_false_iff_not, decide_eq_true_eq] at h
    rcases h with hnone | ⟨hbefore, hagain⟩
    · exact .inl hnone
    · refine .inr ⟨fun k hk hlt => (hbefore k hk).resolve_left (not_not.mpr hlt), fun hused k hk => ?_⟩
      rcases hagain with hno | hall
      · rw [← List.contains_iff_mem] at hused
        rw [hused] at hno
        cases hno
      · exact hall k hk
  | save =>
    simp only [inOrder, Bool.or_eq_true, List.all_eq_true, List.contains_iff_mem] at h
    exact h
  | start | report => trivial

/-- Each layer is there in time, or the request has failed. -/
theorem layers_in_order : ∃ s, s.phase = .saved ∧ s.failureReqIds = [7] ∧ s.invalidBlockIds = [5] ∧ threeLayers.StepRight s := by
  obtain ⟨s, hreach, hs⟩ := exists_of_replayOk (S := threeLayers.loadSys Nat) (inOrder threeLayers) (inOrder_sound threeLayers)
    inOrderRun (s := .initial) (p := fun s => s.phase == .saved && s.failureReqIds == [7] && s.invalidBlockIds == [5])
    rfl (by decide)
  simp only [Bool.and_eq_true, beq_iff_eq] at hs
  obtain ⟨⟨hphase, hfailed⟩, hinvalid⟩ := hs
  exact ⟨s, hphase, hfailed, hinvalid, layers_in_time threeLayers s hreach (by rw [hphase]; exact nofun)⟩

instance decidableNoLate : (log : List (LoadEvent Nat)) → Decidable (NoLate log)
  | [] => isTrue trivial
  | .submitted t :: log =>
    haveI := decidableNoLate log
    inferInstanceAs (Decidable (t.layerId ∉ usedLayers log ∧ NoLate log))
  | .waited _ _ :: log => decidableNoLate log
  | .used _ :: log => decidableNoLate log

/-- The layers of the speculative model are not run: the first of them is submitted and not waited.
    They are run and the first again: the second is submitted after it was used. The first is passed
    over: the second has no loads. -/
theorem out_of_order :
    (∃ s, Reach (threeLayers.loadSys Nat) Any s ∧ s.phase = .saved ∧
      ∃ t, .submitted t ∈ s.log ∧ waits s.log t.id = 0) ∧
    (∃ s, Reach (threeLayers.loadSys Nat) Any s ∧ s.phase = .loading ∧ ¬ NoLate s.log) ∧
    (∃ s, Reach (threeLayers.loadSys Nat) Any s ∧ s.phase = .loading ∧ 2 ∈ usedLayers s.log ∧
      ∃ r ∈ planned s.metadata, r.requestId ∉ s.failureReqIds ∧ ¬ threeLayers.Loaded s.log r 2) := by
  refine ⟨?_, ?_, ?_⟩
  · obtain ⟨s, hreach, hs⟩ := exists_of_replay (S := threeLayers.loadSys Nat) [.start oneLoad [], .wait 0 [] [], .save]
      (s := .initial) (p := fun s => decide (s.phase = .saved ∧
        .submitted (threeLayers.taskOf 1 1 ⟨7, ([[1]], [5]), ([], [])⟩) ∈ s.log ∧ waits s.log 1 = 0)) rfl (by decide)
    obtain ⟨hphase, hsubmitted, hwaits⟩ := of_decide_eq_true hs
    exact ⟨s, hreach, hphase, _, hsubmitted, hwaits⟩
  · obtain ⟨s, hreach, hs⟩ := exists_of_replay (S := threeLayers.loadSys Nat)
      [.start oneLoad [], .wait 0 [] [], .wait 1 [] [], .wait 2 [] [], .wait 1 [] []]
      (s := .initial) (p := fun s => decide (s.phase = .loading ∧ ¬ NoLate s.log)) rfl (by decide)
    exact ⟨s, hreach, of_decide_eq_true hs⟩
  · obtain ⟨s, hreach, hs⟩ := exists_of_replay (S := threeLayers.loadSys Nat) [.start oneLoad [], .wait 0 [] [], .wait 2 [] []]
      (s := .initial) (p := fun s => decide (s.phase = .loading ∧ 2 ∈ usedLayers s.log ∧ s.failureReqIds = [] ∧
        (planned s.metadata).isEmpty = false ∧ s.log.all (fun | .submitted t => t.layerId != 2 | _ => true) = true))
        rfl (by decide)
    obtain ⟨hphase, hused, hnone, hplanned, hlog⟩ := of_decide_eq_true hs
    obtain ⟨r, hr⟩ := List.exists_mem_of_ne_nil _ (List.isEmpty_eq_false_iff.mp hplanned)
    refine ⟨s, hreach, hphase, hused, r, hr, ?_, ?_⟩
    · rw [hnone]
      exact List.not_mem_nil
    · rintro ⟨id, hsubmitted, _⟩
      have hother := List.all_eq_true.mp hlog _ hsubmitted
      cases hother

end LayerWorker

end UnifiedCache.Connector
