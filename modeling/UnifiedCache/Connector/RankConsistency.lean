/-
  UnifiedCache.Connector.RankConsistency — which blocks some rank has not got
  (ucm/integration/vllm/rank_consistency.py, `UCMWorkerMetadata` of
  ucm/integration/vllm/ucm_connector.py).

  Each rank's manager keeps which blocks its dump tasks covered and which of these failed, by
  request; when the request is finished, the blocks that none of its tasks failed to dump are
  reported with the rank's next metadata. In a step the metadata of all ranks is aggregated, in
  any order, and the scheduler clears its marks of what was dumped, then marks what is missing.

  A dict with a default is a function, a `dict` or a `set` that is iterated the list of its items.
  `id(task)` is a number that no live task has: a caller holds its task until it has waited for
  it. `set.pop` takes any element: `evict` lists those it took. A call that raises, other than
  through its store, leaves no state and is no step. Log messages are left out.

  `Rank.tasks` and `Rank.finished` are ghosts: what became of the dump tasks of each request
  since it was last finished, and those of the requests that are.
-/

import UnifiedCache.Base.Transition
import Mathlib.Data.Finset.Lattice.Union
import Mathlib.Data.List.Perm.Basic
import Mathlib.Data.List.TakeWhile
import Mathlib.Logic.Function.Basic

namespace UnifiedCache.Connector

open UnifiedCache.Base

variable {Block Req : Type} [DecidableEq Block] [DecidableEq Req]

/-! ## `RankConsistencyTracker` -/

/-- `_MAX_INCONSISTENT_BLOCKS`. -/
def maxInconsistentBlocks : Nat := 2000000

/-- `mark_missing`; the marks and how many were added. -/
def markMissing (inconsistent : Finset Block) : List Block → List Block → Option (Finset Block × Nat)
  | [], [] => some (inconsistent, 0)
  | [], _ :: _ => none
  | blockId :: rest, evict =>
    if blockId ∈ inconsistent then markMissing inconsistent rest evict
    else if maxInconsistentBlocks ≤ inconsistent.card then
      match evict with
      | e :: evict =>
        if e ∈ inconsistent then (markMissing (insert blockId (inconsistent.erase e)) rest evict).map fun (s, added) =>
          (s, added + 1)
        else none
      | [] => none
    else (markMissing (insert blockId inconsistent) rest evict).map fun (s, added) => (s, added + 1)

/-- `clear_dumped`; the marks and how many were cleared. -/
def clearDumped (inconsistent rank0BlockIds : Finset Block) : Finset Block × Nat :=
  (inconsistent \ rank0BlockIds, inconsistent.card - (inconsistent \ rank0BlockIds).card)

/-- `valid_prefix`. -/
def validPrefix (inconsistent : Finset Block) (blockIds : List Block) : List Block := blockIds.takeWhile (· ∉ inconsistent)

/-! ## `UCMWorkerMetadata` -/

structure WorkerMetadata (Block Req : Type) where
  isMla : Bool
  loadFailedReqs : Finset Req
  missingReqs : Finset Req
  missingBlocks : Finset Block
  dumpSucceededBlocks : Finset Block

namespace WorkerMetadata

def new (isMla : Bool) : WorkerMetadata Block Req := ⟨isMla, ∅, ∅, ∅, ∅⟩

variable (m : WorkerMetadata Block Req)

def markFailed (reqId : Req) : WorkerMetadata Block Req := { m with loadFailedReqs := insert reqId m.loadFailedReqs }

/-- `aggregate`, which asserts that both are of one kind of model. -/
def aggregate (other : WorkerMetadata Block Req) : Option (WorkerMetadata Block Req) :=
  if m.isMla = other.isMla then
    some { m with
      loadFailedReqs := m.loadFailedReqs ∪ other.loadFailedReqs
      missingReqs := m.missingReqs ∪ other.missingReqs
      missingBlocks := m.missingBlocks ∪ other.missingBlocks
      dumpSucceededBlocks :=
        if m.isMla then m.dumpSucceededBlocks ∪ other.dumpSucceededBlocks else m.dumpSucceededBlocks ∩ other.dumpSucceededBlocks }
  else none

end WorkerMetadata

/-! ## `RankConsistencyManager` -/

/-- A store's lookups. -/
structure StoreLookup (Block : Type) where
  lookup : List Block → List Bool
  lookupOnPrefix : List Block → Int

/-- What a call of a store raises. -/
inductive StoreFault where
  /-- `StoreNotFoundError`. -/
  | notFound
  | other
  deriving DecidableEq, Repr

structure Manager (Block Req : Type) where
  enabled : Bool
  /-- `_tracker`, on the scheduler. -/
  tracker : Option (Finset Block)
  missingReqs : Finset Req
  missingBlocks : Finset Block
  dumpSucceededBlocks : Finset Block
  loadTaskContexts : List (Nat × List (Req × List Block))
  dumpTaskContexts : List (Nat × List (Req × Finset Block))
  dumpBlocksByRequest : Req → Finset Block
  dumpFailedBlocksByRequest : Req → Finset Block

namespace Manager

def new (isScheduler useConsistencyManager : Bool) : Manager Block Req :=
  ⟨useConsistencyManager, if isScheduler && useConsistencyManager then some ∅ else none, ∅, ∅, ∅, [], [], fun _ => ∅, fun _ => ∅⟩

variable (m : Manager Block Req)

def lookupOnPrefix (store : StoreLookup Block) (blockIds : List Block) : Int :=
  if !m.enabled then store.lookupOnPrefix blockIds
  else
    let blockIds := match m.tracker with
      | some inconsistent => validPrefix inconsistent blockIds
      | none => blockIds
    if blockIds = [] then -1 else store.lookupOnPrefix blockIds

def lookupAll (store : StoreLookup Block) (blockIds : List Block) : List Bool :=
  let results := store.lookup blockIds
  match m.tracker with
  | none => results
  | some inconsistent => List.zipWith (fun blockId result => if blockId ∈ inconsistent then false else result) blockIds results

/-- The request context that is kept with a task. -/
def context {α : Type} (blockIdsByRequest : List α) : List α := if m.enabled then blockIdsByRequest else []

/-- `_mark_load_context_missing`. -/
def markLoadContextMissing (ctx : List (Req × List Block)) : Manager Block Req :=
  { m with
    missingReqs := m.missingReqs ∪ (ctx.map Prod.fst).toFinset
    missingBlocks := m.missingBlocks ∪ (ctx.flatMap Prod.snd).toFinset }

/-- The blocks of request `r` in a context. -/
def blocksOf (ctx : List (Req × Finset Block)) (r : Req) : Finset Block := (ctx.filter (·.1 = r)).foldr (fun x s => x.2 ∪ s) ∅

/-- `_record_dump_failure`. -/
def recordDumpFailure (ctx : List (Req × Finset Block)) : Manager Block Req :=
  { m with dumpFailedBlocksByRequest := fun r => m.dumpFailedBlocksByRequest r ∪ blocksOf ctx r }

/-- `submit_load`; `res`: the task that `load_data` returns, or what it raises. -/
def submitLoad (ctx : List (Req × List Block)) : Except StoreFault Nat → Manager Block Req
  | .ok task => { m with loadTaskContexts := (task, m.context ctx) :: m.loadTaskContexts }
  | .error e => if m.enabled && e = .notFound then m.markLoadContextMissing (m.context ctx) else m

/-- `wait_load`; `fault`: what the store's `wait` raises. -/
def waitLoad (task : Nat) (fault : Option StoreFault) : Option (Manager Block Req) :=
  (m.loadTaskContexts.lookup task).map fun ctx =>
    let m := { m with loadTaskContexts := m.loadTaskContexts.filter (·.1 ≠ task) }
    if m.enabled && fault = some .notFound then m.markLoadContextMissing ctx else m

/-- `submit_dump`. -/
def submitDump (blockIdsByRequest : List (Req × Finset Block)) (res : Except StoreFault Nat) : Manager Block Req :=
  let ctx := m.context blockIdsByRequest
  let m := { m with dumpBlocksByRequest := fun r => m.dumpBlocksByRequest r ∪ blocksOf ctx r }
  match res with
  | .ok task => { m with dumpTaskContexts := (task, ctx) :: m.dumpTaskContexts }
  | .error _ => m.recordDumpFailure ctx

/-- `wait_dump`. -/
def waitDump (task : Nat) (fault : Option StoreFault) : Option (Manager Block Req) :=
  (m.dumpTaskContexts.lookup task).map fun ctx =>
    let m := { m with dumpTaskContexts := m.dumpTaskContexts.filter (·.1 ≠ task) }
    if fault.isSome then m.recordDumpFailure ctx else m

/-- `finish_dump`, which raises while a task of the requests is pending. -/
def finishDump (requestIds : Finset Req) : Option (Manager Block Req) :=
  if !m.enabled then some m
  else if m.dumpTaskContexts.any fun x => x.2.any fun y => y.1 ∈ requestIds then none
  else
    some { m with
      dumpBlocksByRequest := fun r => if r ∈ requestIds then ∅ else m.dumpBlocksByRequest r
      dumpFailedBlocksByRequest := fun r => if r ∈ requestIds then ∅ else m.dumpFailedBlocksByRequest r
      dumpSucceededBlocks := m.dumpSucceededBlocks ∪ requestIds.biUnion fun r =>
        m.dumpBlocksByRequest r \ m.dumpFailedBlocksByRequest r }

/-- `update_worker_meta`. -/
def updateWorkerMeta (workerMeta : WorkerMetadata Block Req) : Manager Block Req × WorkerMetadata Block Req :=
  if !m.enabled then (m, workerMeta)
  else
    ({ m with missingReqs := ∅, missingBlocks := ∅, dumpSucceededBlocks := ∅ },
      { workerMeta with
        missingReqs := workerMeta.missingReqs ∪ m.missingReqs
        missingBlocks := workerMeta.missingBlocks ∪ m.missingBlocks
        dumpSucceededBlocks := workerMeta.dumpSucceededBlocks ∪ m.dumpSucceededBlocks })

/-- `apply_worker_meta`; `missing`: the order in which `missing_blocks` is iterated. -/
def applyWorkerMeta (workerMeta : WorkerMetadata Block Req) (missing evict : List Block) : Option (Manager Block Req) :=
  match m.tracker with
  | none => some m
  | some inconsistent =>
    if missing.Nodup ∧ missing.toFinset = workerMeta.missingBlocks then
      (markMissing (clearDumped inconsistent workerMeta.dumpSucceededBlocks).1 missing evict).map fun (s, _) =>
      { m with tracker := some s }
    else none

end Manager

/-! ## Ranks and scheduler -/

/-- What became of a dump task. -/
structure DumpTask (Block : Type) where
  /-- `none`: the store refused it. -/
  task : Option Nat
  blocks : Finset Block
  succeeded : Option Bool

structure Rank (Block Req : Type) where
  manager : Manager Block Req
  /-- `_connector_worker_meta`. -/
  workerMeta : WorkerMetadata Block Req
  tasks : Req → List (DumpTask Block)
  finished : List (Req × List (DumpTask Block))

namespace Rank

variable (k : Rank Block Req)

def submitDump (blockIdsByRequest : List (Req × Finset Block)) (res : Except StoreFault Nat) : Rank Block Req :=
  { k with
    manager := k.manager.submitDump blockIdsByRequest res
    tasks := fun r => k.tasks r ++ ((k.manager.context blockIdsByRequest).filter (·.1 = r)).map fun x =>
      match res with
      | .ok task => ⟨some task, x.2, none⟩
      | .error _ => ⟨none, x.2, some false⟩ }

def waitDump (task : Nat) (fault : Option StoreFault) : Option (Rank Block Req) :=
  (k.manager.waitDump task fault).map fun manager =>
    { k with
      manager
      tasks := fun r => (k.tasks r).map fun x =>
        if x.task = some task ∧ x.succeeded = none then { x with succeeded := some fault.isNone } else x }

/-- `requestIds` as the list of its elements. -/
def finishDump (requestIds : List Req) : Option (Rank Block Req) :=
  (k.manager.finishDump requestIds.toFinset).map fun manager =>
    { k with
      manager
      tasks := fun r => if r ∈ requestIds then [] else k.tasks r
      finished := k.finished ++ requestIds.map fun r => (r, k.tasks r) }

/-- `build_connector_worker_meta`. -/
def buildConnectorWorkerMeta : Option (WorkerMetadata Block Req) × Rank Block Req :=
  if !k.manager.enabled && k.workerMeta.loadFailedReqs = ∅ then (none, k)
  else
    let (manager, workerMeta) := k.manager.updateWorkerMeta k.workerMeta
    (some workerMeta, { k with manager, workerMeta := .new workerMeta.isMla })

end Rank

structure ClusterConfig where
  nRank : Nat
  isMla : Bool
  useConsistencyManager : Bool

structure Cluster (Block Req : Type) where
  rank : Nat → Rank Block Req
  scheduler : Manager Block Req

namespace Cluster

variable (s : Cluster Block Req)

def setRank (r : Nat) (k : Rank Block Req) : Cluster Block Req := { s with rank := Function.update s.rank r k }

/-- The scheduler's marks. -/
def marks : Finset Block := s.scheduler.tracker.getD ∅

/-- The metadata that rank `r` reports. -/
def reported (r : Nat) : Option (WorkerMetadata Block Req) := (s.rank r).buildConnectorWorkerMeta.1

/-- The metadata of a step, aggregated in the order of the ranks. -/
def aggregated (order : List Nat) : Option (Option (WorkerMetadata Block Req)) :=
  match order.filterMap s.reported with
  | [] => some none
  | m :: rest => (rest.foldlM WorkerMetadata.aggregate m).map some

/-- All ranks report, and the scheduler applies it. -/
def report (C : ClusterConfig) (order : List Nat) (missing evict : List Block) : Option (Cluster Block Req) :=
  (s.aggregated order).bind fun workerMeta =>
    (match workerMeta with
      | some workerMeta => s.scheduler.applyWorkerMeta workerMeta missing evict
      | none => some s.scheduler).map fun scheduler =>
        { scheduler, rank := fun r => if r < C.nRank then (s.rank r).buildConnectorWorkerMeta.2 else s.rank r }

end Cluster

inductive ClusterLabel (Block Req : Type) where
  | submitLoad (r : Nat) (ctx : List (Req × List Block)) (res : Except StoreFault Nat)
  | waitLoad (r task : Nat) (fault : Option StoreFault)
  | submitDump (r : Nat) (blockIdsByRequest : List (Req × Finset Block)) (res : Except StoreFault Nat)
  | waitDump (r task : Nat) (fault : Option StoreFault)
  | finishDump (r : Nat) (requestIds : List Req)
  | markFailed (r : Nat) (reqId : Req)
  | report (order : List Nat) (missing evict : List Block)

/-- A new task's number is no live task's. -/
def freshTask {α : Type} (contexts : List (Nat × α)) : Except StoreFault Nat → Bool
  | .ok task => (contexts.lookup task).isNone
  | .error _ => true

def clusterStep (C : ClusterConfig) (s : Cluster Block Req) : ClusterLabel Block Req → Option (Cluster Block Req)
  | .submitLoad r ctx res =>
    let k := s.rank r
    if freshTask k.manager.loadTaskContexts res
      then some (s.setRank r { k with manager := k.manager.submitLoad ctx res }) else none
  | .waitLoad r task fault => ((s.rank r).manager.waitLoad task fault).map fun manager => s.setRank r { s.rank r with manager }
  | .submitDump r blockIdsByRequest res =>
    if freshTask (s.rank r).manager.dumpTaskContexts res
      then some (s.setRank r ((s.rank r).submitDump blockIdsByRequest res)) else none
  | .waitDump r task fault => ((s.rank r).waitDump task fault).map (s.setRank r)
  | .finishDump r requestIds => ((s.rank r).finishDump requestIds).map (s.setRank r)
  | .markFailed r reqId =>
    some (s.setRank r { s.rank r with workerMeta := (s.rank r).workerMeta.markFailed reqId })
  | .report order missing evict => if order.Perm (List.range C.nRank) then s.report C order missing evict else none

/-- New connectors. -/
structure Cluster.IsInit (C : ClusterConfig) (s : Cluster Block Req) : Prop where
  rank : ∀ r, s.rank r = ⟨.new false C.useConsistencyManager, .new C.isMla, fun _ => [], []⟩
  scheduler : s.scheduler = .new true C.useConsistencyManager

def cluster (C : ClusterConfig) : System (Cluster Block Req) (ClusterLabel Block Req) where
  init := Cluster.IsInit C
  step := clusterStep C

/-! ## Marks -/

section Marks

variable {inconsistent s : Finset Block} {missing evict : List Block} {added : Nat} {b : Block}

/-- What `mark_missing` leaves. -/
structure Marked (inconsistent s : Finset Block) (missing evict : List Block) : Prop where
  le : s.card ≤ maxInconsistentBlocks
  grows : inconsistent.card ≤ s.card
  kept : ∀ b ∈ inconsistent, b ∈ s ∨ b ∈ evict
  marked : ∀ b ∈ missing, b ∈ s ∨ b ∈ evict
  only : ∀ b ∈ s, b ∈ inconsistent ∨ b ∈ missing
  full : evict ≠ [] → s.card = maxInconsistentBlocks

theorem markMissing_spec (hle : inconsistent.card ≤ maxInconsistentBlocks)
    (h : markMissing inconsistent missing evict = some (s, added)) :
    Marked inconsistent s missing evict := by
  induction missing generalizing inconsistent evict added with
  | nil =>
    cases evict with
    | nil =>
      obtain ⟨rfl, -⟩ := Prod.mk.inj (Option.some.inj h)
      exact ⟨hle, Nat.le_refl _, fun b hb => .inl hb, nofun, fun b hb => .inl hb, fun hne => absurd rfl hne⟩
    | cons e evict => cases h
  | cons blockId rest ih =>
    -- `inconsistent'`: the marks before the rest
    have hrest : ∀ {inconsistent' : Finset Block} {evict' : List Block} {added' : Nat},
        inconsistent'.card ≤ maxInconsistentBlocks →
        markMissing inconsistent' rest evict' = some (s, added') → blockId ∈ inconsistent' →
        (∀ b ∈ inconsistent, b ∈ inconsistent' ∨ b ∈ evict) → (∀ b ∈ evict', b ∈ evict) →
        (∀ b ∈ inconsistent', b ∈ inconsistent ∨ b = blockId) → inconsistent.card ≤ inconsistent'.card →
        (evict ≠ [] → evict' ≠ [] ∨ inconsistent'.card = maxInconsistentBlocks) →
        Marked inconsistent s (blockId :: rest) evict := by
      intro inconsistent' evict' added' hle' h' hin hkept hsub honly hgrows hfull
      have hm := ih hle' h'
      refine ⟨hm.le, Nat.le_trans hgrows hm.grows, fun b hb => ?_, fun b hb => ?_, fun b hb => ?_, fun hne => ?_⟩
      · rcases hkept b hb with hb | hb
        · exact (hm.kept b hb).imp id (hsub b)
        · exact .inr hb
      · rcases List.mem_cons.mp hb with rfl | hb
        · exact (hm.kept b hin).imp id (hsub b)
        · exact (hm.marked b hb).imp id (hsub b)
      · rcases hm.only b hb with hb | hb
        · rcases honly b hb with hb | rfl
          · exact .inl hb
          · exact .inr List.mem_cons_self
        · exact .inr (List.mem_cons_of_mem _ hb)
      · rcases hfull hne with hne | hcard
        · exact hm.full hne
        · exact Nat.le_antisymm hm.le (hcard ▸ hm.grows)
    unfold markMissing at h
    split at h
    · next hin =>
      exact hrest hle h hin (fun b hb => .inl hb) (fun b hb => hb) (fun b hb => .inl hb) (Nat.le_refl _) .inl
    · next hnot =>
      split at h
      · next hlimit =>
        have hcard : inconsistent.card = maxInconsistentBlocks := Nat.le_antisymm hle hlimit
        cases evict with
        | nil => cases h
        | cons e evict =>
          simp only [Option.ite_none_right_eq_some, Option.map_eq_some_iff, Prod.exists, Prod.mk.injEq] at h
          obtain ⟨he, s', added', h', rfl, -⟩ := h
          have hcard' : (insert blockId (inconsistent.erase e)).card = maxInconsistentBlocks := by
            rw [Finset.card_insert_of_notMem fun hb => hnot (Finset.mem_of_mem_erase hb), Finset.card_erase_of_mem he, hcard]
            rfl
          refine hrest (Nat.le_of_eq hcard') h' (Finset.mem_insert_self _ _) (fun b hb => ?_)
            (fun b hb => List.mem_cons_of_mem _ hb)
            (fun b hb => ?_) (by omega) fun _ => .inr hcard'
          · by_cases e' : b = e
            · exact .inr (e' ▸ List.mem_cons_self)
            · exact .inl (Finset.mem_insert_of_mem (Finset.mem_erase.mpr ⟨e', hb⟩))
          · rcases Finset.mem_insert.mp hb with hb | hb
            · exact .inr hb
            · exact .inl (Finset.mem_of_mem_erase hb)
      · next hlimit =>
        simp only [Option.map_eq_some_iff, Prod.exists, Prod.mk.injEq] at h
        obtain ⟨s', added', h', rfl, -⟩ := h
        have hcard' : (insert blockId inconsistent).card ≤ maxInconsistentBlocks := by
          rw [Finset.card_insert_of_notMem hnot]
          omega
        refine hrest hcard' h' (Finset.mem_insert_self _ _) (fun b hb => .inl (Finset.mem_insert_of_mem hb)) (fun b hb => hb)
          (fun b hb => ?_) (by rw [Finset.card_insert_of_notMem hnot]; omega) .inl
        rcases Finset.mem_insert.mp hb with hb | hb
        · exact .inr hb
        · exact .inl hb

end Marks

/-! ## Dump tasks -/

/-- Request `q`, finished, submitted the block, and none of its tasks that covered it failed. -/
def DumpedBy (q : Req × List (DumpTask Block)) (b : Block) : Prop :=
  (∃ x ∈ q.2, b ∈ x.blocks) ∧ ∀ x ∈ q.2, b ∈ x.blocks → x.succeeded = some true

/-- The manager's books and what became of the tasks. -/
structure RankInv (C : ClusterConfig) (k : Rank Block Req) : Prop where
  enabled : k.manager.enabled = C.useConsistencyManager
  isMla : k.workerMeta.isMla = C.isMla
  unreported : k.workerMeta.missingBlocks = ∅ ∧ k.workerMeta.dumpSucceededBlocks = ∅
  off : C.useConsistencyManager = false → ∀ r, k.manager.dumpBlocksByRequest r = ∅
  covered : ∀ r, ∀ b ∈ k.manager.dumpBlocksByRequest r, ∃ x ∈ k.tasks r, b ∈ x.blocks
  failed : ∀ r, ∀ x ∈ k.tasks r, x.succeeded = some false → x.blocks ⊆ k.manager.dumpFailedBlocksByRequest r
  pending : ∀ r, ∀ x ∈ k.tasks r, x.succeeded = none →
    ∃ task ctx, x.task = some task ∧ k.manager.dumpTaskContexts.lookup task = some ctx ∧ (r, x.blocks) ∈ ctx
  dumped : ∀ b ∈ k.manager.dumpSucceededBlocks, ∃ q ∈ k.finished, DumpedBy q b

section Ranks

variable {C : ClusterConfig} {k k' : Rank Block Req} {task : Nat} {b : Block} {r : Req}

theorem mem_blocksOf {ctx : List (Req × Finset Block)} : b ∈ Manager.blocksOf ctx r ↔ ∃ x ∈ ctx, x.1 = r ∧ b ∈ x.2 := by
  unfold Manager.blocksOf
  induction ctx with
  | nil => simp
  | cons y rest ih =>
    by_cases e : y.1 = r <;> simp [e, ih]

omit [DecidableEq Block] [DecidableEq Req] in
theorem lookup_filter_ne {α : Type} (l : List (Nat × α)) (t : Nat) :
    (l.filter (·.1 ≠ task)).lookup t = if t = task then none else l.lookup t := by
  induction l with
  | nil => simp
  | cons y rest ih =>
    obtain ⟨t', x⟩ := y
    by_cases e : t' = task
    · rw [List.filter_cons_of_neg (by simpa using e), ih, List.lookup_cons, e]
      by_cases e' : t = task
      · rw [if_pos e', if_pos e']
      · rw [if_neg e', if_neg e', beq_eq_false_iff_ne.mpr e']
    · rw [List.filter_cons_of_pos (by simpa using e), List.lookup_cons, List.lookup_cons, ih]
      by_cases e' : t = t'
      · subst e'
        simp [e]
      · rw [beq_eq_false_iff_ne.mpr e']

theorem RankInv.submitDump {blockIdsByRequest : List (Req × Finset Block)} {res : Except StoreFault Nat} (h : RankInv C k)
    (hfresh : freshTask k.manager.dumpTaskContexts res = true) : RankInv C (k.submitDump blockIdsByRequest res) := by
  have hblocks : ∀ r, (k.submitDump blockIdsByRequest res).manager.dumpBlocksByRequest r =
      k.manager.dumpBlocksByRequest r ∪ Manager.blocksOf (k.manager.context blockIdsByRequest) r := by
    intro r
    cases res <;> rfl
  have hsame : (k.submitDump blockIdsByRequest res).manager.enabled = k.manager.enabled ∧
      (k.submitDump blockIdsByRequest res).manager.dumpSucceededBlocks = k.manager.dumpSucceededBlocks := by
    cases res <;> exact ⟨rfl, rfl⟩
  have hfailed : ∀ r,
      k.manager.dumpFailedBlocksByRequest r ⊆ (k.submitDump blockIdsByRequest res).manager.dumpFailedBlocksByRequest r := by
    intro r
    cases res with
    | ok task => exact Finset.Subset.refl _
    | error e => exact Finset.subset_union_left
  refine ⟨hsame.1.trans h.enabled, h.isMla, h.unreported, fun hoff r => ?_, fun r b hb => ?_, fun r x hx hs => ?_,
    fun r x hx hs => ?_, fun b hb => ?_⟩
  · have hctx : k.manager.context blockIdsByRequest = [] := by simp [Manager.context, h.enabled, hoff]
    rw [hblocks, h.off hoff, hctx]
    rfl
  · rw [hblocks] at hb
    rcases Finset.mem_union.mp hb with hb | hb
    · obtain ⟨x, hx, hb⟩ := h.covered r b hb
      exact ⟨x, List.mem_append_left _ hx, hb⟩
    · obtain ⟨y, hy, rfl, hby⟩ := mem_blocksOf.mp hb
      refine ⟨_, List.mem_append_right _ (List.mem_map.mpr ⟨y, List.mem_filter.mpr ⟨hy, by simp⟩, rfl⟩), ?_⟩
      cases res <;> exact hby
  · rcases List.mem_append.mp hx with hx | hx
    · exact (h.failed r x hx hs).trans (hfailed r)
    · obtain ⟨y, hy, rfl⟩ := List.mem_map.mp hx
      obtain ⟨hy, e⟩ := List.mem_filter.mp hy
      cases res with
      | ok task => cases hs
      | error e' =>
        intro b hb
        exact Finset.mem_union_right _ (mem_blocksOf.mpr ⟨y, hy, of_decide_eq_true e, hb⟩)
  · rcases List.mem_append.mp hx with hx | hx
    · obtain ⟨t, ctx, ht, hl, hmem⟩ := h.pending r x hx hs
      refine ⟨t, ctx, ht, ?_, hmem⟩
      cases res with
      | error e => exact hl
      | ok task =>
        -- the new task has another number
        have hne : (t == task) = false := by
          rw [beq_eq_false_iff_ne]
          intro e
          subst e
          simp [freshTask, hl] at hfresh
        show List.lookup t (_ :: _) = _
        rw [List.lookup_cons, hne]
        exact hl
    · obtain ⟨y, hy, rfl⟩ := List.mem_map.mp hx
      obtain ⟨hctx, e⟩ := List.mem_filter.mp hy
      obtain rfl : y.1 = r := of_decide_eq_true e
      cases res with
      | ok task => exact ⟨task, k.manager.context blockIdsByRequest, rfl, by simp [Rank.submitDump, Manager.submitDump], hctx⟩
      | error e' => cases hs
  · rw [hsame.2] at hb
    exact h.dumped b hb

theorem RankInv.waitDump {fault : Option StoreFault} (h : RankInv C k) (hk : k.waitDump task fault = some k') : RankInv C k' := by
  unfold Rank.waitDump Manager.waitDump at hk
  simp only [Option.map_eq_some_iff] at hk
  obtain ⟨manager, ⟨ctx, hctx, rfl⟩, rfl⟩ := hk
  refine ⟨?_, h.isMla, h.unreported, fun hoff r => ?_, fun r b hb => ?_, fun r x hx hs => ?_, fun r x hx hs => ?_, fun b hb => ?_⟩
  · rw [← h.enabled]
    dsimp only
    split <;> rfl
  · rw [← h.off hoff r]
    dsimp only
    split <;> rfl
  · have hb : b ∈ k.manager.dumpBlocksByRequest r := by
      dsimp only at hb
      split at hb <;> exact hb
    obtain ⟨x, hx, hb⟩ := h.covered r b hb
    refine ⟨_, List.mem_map.mpr ⟨x, hx, rfl⟩, ?_⟩
    split <;> exact hb
  · obtain ⟨y, hy, rfl⟩ := List.mem_map.mp hx
    have hold : y.succeeded = some false → y.blocks ⊆ _ := fun e => h.failed r y hy e
    split at hs
    · next hat =>
      -- the task has just failed
      rw [if_pos hat]
      have hfault : fault.isSome = true := by cases fault <;> simp_all
      obtain ⟨t, ctx', ht, hl, hmem⟩ := h.pending r y hy hat.2
      obtain rfl := Option.some.inj (ht.symm.trans hat.1)
      obtain rfl := Option.some.inj (hl.symm.trans hctx)
      dsimp only
      rw [if_pos hfault]
      intro b hb
      exact Finset.mem_union_right _ (mem_blocksOf.mpr ⟨_, hmem, rfl, hb⟩)
    · next hat =>
      rw [if_neg hat]
      refine (hold hs).trans ?_
      dsimp only
      split
      · exact Finset.subset_union_left
      · exact Finset.Subset.refl _
  · obtain ⟨y, hy, rfl⟩ := List.mem_map.mp hx
    split at hs
    · cases hs
    · next hat =>
      rw [if_neg hat]
      obtain ⟨t, ctx', ht, hl, hmem⟩ := h.pending r y hy hs
      have hne : t ≠ task := fun e => hat ⟨e ▸ ht, hs⟩
      refine ⟨t, ctx', ht, ?_, hmem⟩
      have : (k.manager.dumpTaskContexts.filter (·.1 ≠ task)).lookup t = some ctx' := by
        rw [lookup_filter_ne, if_neg hne]
        exact hl
      dsimp only
      split <;> exact this
  · have hb : b ∈ k.manager.dumpSucceededBlocks := by
      dsimp only at hb
      split at hb <;> exact hb
    exact h.dumped b hb

theorem RankInv.finishDump {requestIds : List Req} (h : RankInv C k) (hk : k.finishDump requestIds = some k') : RankInv C k' := by
  unfold Rank.finishDump Manager.finishDump at hk
  simp only [Option.map_eq_some_iff] at hk
  obtain ⟨manager, hm, rfl⟩ := hk
  have hfinished : ∀ q ∈ k.finished, q ∈ k.finished ++ requestIds.map fun r => (r, k.tasks r) :=
      fun q hq => List.mem_append_left _ hq
  split at hm
  · next hoff =>
    obtain rfl := Option.some.inj hm
    have hoff : C.useConsistencyManager = false := by simpa [h.enabled] using hoff
    refine ⟨h.enabled, h.isMla, h.unreported, h.off, fun r b hb => ?_, fun r x hx hs => ?_, fun r x hx hs => ?_, fun b hb => ?_⟩
    · dsimp only at hb
      rw [h.off hoff r] at hb
      cases hb
    · dsimp only at hx
      split at hx
      · cases hx
      · exact h.failed r x hx hs
    · dsimp only at hx
      split at hx
      · cases hx
      · exact h.pending r x hx hs
    · obtain ⟨q, hq, hd⟩ := h.dumped b hb
      exact ⟨q, hfinished q hq, hd⟩
  · simp only [Option.ite_none_left_eq_some] at hm
    obtain ⟨hidle, hm⟩ := hm
    obtain rfl := Option.some.inj hm
    refine ⟨h.enabled, h.isMla, h.unreported, fun hoff r => ?_, fun r b hb => ?_, fun r x hx hs => ?_, fun r x hx hs => ?_,
      fun b hb => ?_⟩
    · dsimp only
      rw [h.off hoff r]
      split <;> rfl
    · simp only [List.mem_toFinset] at hb ⊢
      split at hb
      · cases hb
      · next hr =>
        rw [if_neg hr]
        exact h.covered r b hb
    · simp only [List.mem_toFinset] at hx ⊢
      split at hx
      · cases hx
      · next hr =>
        rw [if_neg hr]
        exact h.failed r x hx hs
    · dsimp only at hx
      split at hx
      · cases hx
      · exact h.pending r x hx hs
    · rcases Finset.mem_union.mp hb with hb | hb
      · obtain ⟨q, hq, hd⟩ := h.dumped b hb
        exact ⟨q, hfinished q hq, hd⟩
      · obtain ⟨r, hr, hb⟩ := Finset.mem_biUnion.mp hb
        obtain ⟨hsub, hnot⟩ := Finset.mem_sdiff.mp hb
        have hr : r ∈ requestIds := List.mem_toFinset.mp hr
        refine ⟨(r, k.tasks r), List.mem_append_right _ (List.mem_map.mpr ⟨r, hr, rfl⟩), h.covered r b hsub, fun x hx hbx => ?_⟩
        -- none of its tasks is pending, and none that covers the block has failed
        match hs : x.succeeded with
        | some true => rfl
        | some false => exact absurd (h.failed r x hx hs hbx) hnot
        | none =>
          obtain ⟨t, ctx, ht, hl, hmem⟩ := h.pending r x hx hs
          refine absurd ?_ hidle
          rw [List.any_eq_true]
          obtain ⟨l₁, l₂, e, -⟩ := List.lookup_eq_some_iff.mp hl
          exact ⟨(t, ctx), by rw [e]; simp, List.any_eq_true.mpr ⟨_, hmem, by simpa using hr⟩⟩

/-- `m'` keeps the dump tasks of `m`, and has no new block to report. -/
structure Manager.SameDumps (m m' : Manager Block Req) : Prop where
  enabled : m'.enabled = m.enabled
  tasks : m'.dumpTaskContexts = m.dumpTaskContexts
  blocks : m'.dumpBlocksByRequest = m.dumpBlocksByRequest
  failed : m'.dumpFailedBlocksByRequest = m.dumpFailedBlocksByRequest
  succeeded : m'.dumpSucceededBlocks ⊆ m.dumpSucceededBlocks

theorem Manager.submitLoad_sameDumps (m : Manager Block Req) (ctx : List (Req × List Block)) (res : Except StoreFault Nat) :
    m.SameDumps (m.submitLoad ctx res) := by
  cases res with
  | ok task => exact ⟨rfl, rfl, rfl, rfl, Finset.Subset.refl _⟩
  | error e =>
    show m.SameDumps (if m.enabled && e = .notFound then m.markLoadContextMissing (m.context ctx) else m)
    split <;> exact ⟨rfl, rfl, rfl, rfl, Finset.Subset.refl _⟩

theorem Manager.waitLoad_sameDumps {m m' : Manager Block Req} {fault : Option StoreFault} (h : m.waitLoad task fault = some m') :
    m.SameDumps m' := by
  simp only [Manager.waitLoad, Option.map_eq_some_iff] at h
  obtain ⟨ctx, -, rfl⟩ := h
  split <;> exact ⟨rfl, rfl, rfl, rfl, Finset.Subset.refl _⟩

theorem Manager.updateWorkerMeta_sameDumps (m : Manager Block Req) (workerMeta : WorkerMetadata Block Req) :
    m.SameDumps (m.updateWorkerMeta workerMeta).1 := by
  unfold Manager.updateWorkerMeta
  split
  · exact ⟨rfl, rfl, rfl, rfl, Finset.Subset.refl _⟩
  · exact ⟨rfl, rfl, rfl, rfl, Finset.empty_subset _⟩

omit [DecidableEq Block] [DecidableEq Req] in
/-- Neither loads nor reports touch what became of the tasks. -/
theorem RankInv.of_sameDumps {manager : Manager Block Req} {workerMeta : WorkerMetadata Block Req} (h : RankInv C k)
    (hm : k.manager.SameDumps manager) (hmla : workerMeta.isMla = C.isMla)
    (hmeta : workerMeta.missingBlocks = ∅ ∧ workerMeta.dumpSucceededBlocks = ∅) : RankInv C { k with manager, workerMeta } := by
  refine ⟨hm.enabled.trans h.enabled, hmla, hmeta, fun hoff r => ?_, fun r b hb => ?_, fun r x hx hs => ?_, fun r x hx hs => ?_,
    fun b hb => ?_⟩
  · show manager.dumpBlocksByRequest r = ∅
    rw [hm.blocks, h.off hoff r]
  · have hb : b ∈ k.manager.dumpBlocksByRequest r := hm.blocks ▸ hb
    exact h.covered r b hb
  · show x.blocks ⊆ manager.dumpFailedBlocksByRequest r
    rw [hm.failed]
    exact h.failed r x hx hs
  · show ∃ task ctx, x.task = some task ∧ manager.dumpTaskContexts.lookup task = some ctx ∧ (r, x.blocks) ∈ ctx
    rw [hm.tasks]
    exact h.pending r x hx hs
  · exact h.dumped b (hm.succeeded hb)

theorem RankInv.buildConnectorWorkerMeta (h : RankInv C k) : RankInv C k.buildConnectorWorkerMeta.2 := by
  unfold Rank.buildConnectorWorkerMeta
  split
  · exact h
  · refine h.of_sameDumps (k.manager.updateWorkerMeta_sameDumps k.workerMeta) ?_ ⟨rfl, rfl⟩
    show (k.manager.updateWorkerMeta k.workerMeta).2.isMla = C.isMla
    rw [← h.isMla]
    unfold Manager.updateWorkerMeta
    split <;> rfl

/-- What a rank reports. -/
structure Reported (C : ClusterConfig) (k : Rank Block Req) (m : WorkerMetadata Block Req) : Prop where
  isMla : m.isMla = C.isMla
  dumped : ∀ b ∈ m.dumpSucceededBlocks, b ∈ k.manager.dumpSucceededBlocks
  off : C.useConsistencyManager = false → m.missingBlocks = ∅ ∧ m.dumpSucceededBlocks = ∅

theorem RankInv.reported {m : WorkerMetadata Block Req} (h : RankInv C k) (hm : k.buildConnectorWorkerMeta.1 = some m) :
    Reported C k m := by
  obtain ⟨hmissing, hsucceeded⟩ := h.unreported
  unfold Rank.buildConnectorWorkerMeta at hm
  split at hm
  · cases hm
  · obtain rfl := Option.some.inj hm
    unfold Manager.updateWorkerMeta
    split
    · refine ⟨h.isMla, fun b hb => ?_, fun _ => h.unreported⟩
      rw [hsucceeded] at hb
      cases hb
    · next hon =>
      refine ⟨h.isMla, fun b hb => ?_, fun hoff => ?_⟩
      · rwa [hsucceeded, Finset.empty_union] at hb
      · rw [h.enabled, hoff] at hon
        exact absurd rfl hon

/-- A rank whose manager is enabled reports in every step. -/
theorem RankInv.reports (h : RankInv C k) (hon : C.useConsistencyManager = true) :
    ∃ m, k.buildConnectorWorkerMeta.1 = some m := by
  unfold Rank.buildConnectorWorkerMeta
  rw [h.enabled, hon]
  exact ⟨_, rfl⟩

end Ranks

/-! ## Aggregation -/

section Aggregate

variable {C : ClusterConfig} {s s' : Cluster Block Req} {b : Block}

/-- `m` is the aggregate of `l`. -/
structure Aggregated (mla : Bool) (l : List (WorkerMetadata Block Req)) (m : WorkerMetadata Block Req) : Prop where
  isMla : m.isMla = mla
  missing : ∀ b, b ∈ m.missingBlocks ↔ ∃ x ∈ l, b ∈ x.missingBlocks
  succeeded : ∀ b, b ∈ m.dumpSucceededBlocks → if mla then ∃ x ∈ l, b ∈ x.dumpSucceededBlocks else ∀ x ∈ l,
      b ∈ x.dumpSucceededBlocks

theorem Aggregated.aggregate {mla : Bool} {l : List (WorkerMetadata Block Req)} {m x m' : WorkerMetadata Block Req}
    (h : Aggregated mla l m) (hm : m.aggregate x = some m') : Aggregated mla (l ++ [x]) m' := by
  unfold WorkerMetadata.aggregate at hm
  split at hm
  · obtain rfl := Option.some.inj hm
    refine ⟨h.isMla, fun b => ?_, fun b hb => ?_⟩
    · show b ∈ m.missingBlocks ∪ x.missingBlocks ↔ _
      rw [Finset.mem_union, h.missing]
      constructor
      · rintro (⟨y, hy, hb⟩ | hb)
        · exact ⟨y, List.mem_append_left _ hy, hb⟩
        · exact ⟨x, List.mem_append_right _ List.mem_cons_self, hb⟩
      · rintro ⟨y, hy, hb⟩
        rcases List.mem_append.mp hy with hy | hy
        · exact .inl ⟨y, hy, hb⟩
        · exact .inr (List.mem_singleton.mp hy ▸ hb)
    · have hold := h.succeeded b
      rw [h.isMla] at hb
      cases mla with
      | true =>
        rw [if_pos rfl] at hb hold ⊢
        rcases Finset.mem_union.mp hb with hb | hb
        · obtain ⟨y, hy, hb⟩ := hold hb
          exact ⟨y, List.mem_append_left _ hy, hb⟩
        · exact ⟨x, List.mem_append_right _ List.mem_cons_self, hb⟩
      | false =>
        rw [if_neg Bool.false_ne_true] at hb hold ⊢
        obtain ⟨hb, hx⟩ := Finset.mem_inter.mp hb
        intro y hy
        rcases List.mem_append.mp hy with hy | hy
        · exact hold hb y hy
        · exact List.mem_singleton.mp hy ▸ hx
  · cases hm

theorem Aggregated.foldlM {mla : Bool} {l rest : List (WorkerMetadata Block Req)} {m m' : WorkerMetadata Block Req}
    (h : Aggregated mla l m) (hm : rest.foldlM WorkerMetadata.aggregate m = some m') : Aggregated mla (l ++ rest) m' := by
  induction rest generalizing l m with
  | nil =>
    obtain rfl := Option.some.inj hm
    rwa [List.append_nil]
  | cons x rest ih =>
    obtain ⟨m₁, h₁, hm⟩ := Option.bind_eq_some_iff.mp hm
    rw [List.append_cons]
    exact ih (h.aggregate h₁) hm

/-- Rank `r` reports the block dumped. -/
def Cluster.Reports (s : Cluster Block Req) (r : Nat) (b : Block) : Prop := ∃ m, s.reported r = some m ∧ b ∈ m.dumpSucceededBlocks

/-- Some rank reports the block missing. -/
def Cluster.Misses (C : ClusterConfig) (s : Cluster Block Req) (b : Block) : Prop :=
  ∃ r < C.nRank, ∃ m, s.reported r = some m ∧ b ∈ m.missingBlocks

/-- The ranks report the block dumped: all of them, or for an MLA model some. -/
def Cluster.Dumped (C : ClusterConfig) (s : Cluster Block Req) (b : Block) : Prop :=
  if C.isMla then ∃ r < C.nRank, s.Reports r b else ∀ r < C.nRank, s.Reports r b

structure ClusterInv (C : ClusterConfig) (s : Cluster Block Req) : Prop where
  rank : ∀ r, RankInv C (s.rank r)
  enabled : s.scheduler.enabled = C.useConsistencyManager
  tracker : s.scheduler.tracker.isSome = C.useConsistencyManager
  card : s.marks.card ≤ maxInconsistentBlocks

omit [DecidableEq Block] [DecidableEq Req] in
theorem ClusterInv.setRank {r : Nat} {k : Rank Block Req} (h : ClusterInv C s) (hk : RankInv C k) :
    ClusterInv C (s.setRank r k) := by
  refine ⟨fun r' => ?_, h.enabled, h.tracker, h.card⟩
  show RankInv C (Function.update s.rank r k r')
  by_cases e : r' = r
  · rw [e, Function.update_self]
    exact hk
  · rw [Function.update_of_ne e]
    exact h.rank r'

theorem ClusterInv.aggregated {order : List Nat} {workerMeta : WorkerMetadata Block Req} (h : ClusterInv C s)
    (hon : C.useConsistencyManager = true) (hp : order.Perm (List.range C.nRank))
    (hm : s.aggregated order = some (some workerMeta)) :
    (∀ b, b ∈ workerMeta.missingBlocks ↔ s.Misses C b) ∧ ∀ b ∈ workerMeta.dumpSucceededBlocks, s.Dumped C b := by
  have hr : ∀ r, r ∈ order ↔ r < C.nRank := fun r => hp.mem_iff.trans List.mem_range
  have hmem : ∀ m, m ∈ order.filterMap s.reported ↔ ∃ r < C.nRank, s.reported r = some m := by
    intro m
    rw [List.mem_filterMap]
    exact exists_congr fun r => and_congr_left fun _ => hr r
  have ha : Aggregated C.isMla (order.filterMap s.reported) workerMeta := by
    unfold Cluster.aggregated at hm
    generalize order.filterMap s.reported = l at hm hmem ⊢
    cases l with
    | nil => cases hm
    | cons m rest =>
      simp only [Option.map_eq_some_iff, Option.some.injEq, exists_eq_right] at hm
      obtain ⟨r, -, hm₀⟩ := (hmem m).mp List.mem_cons_self
      have hone : Aggregated C.isMla [m] m := by
        refine ⟨((h.rank r).reported hm₀).isMla, fun b => by simp, fun b hb => ?_⟩
        split
        · exact ⟨m, List.mem_cons_self, hb⟩
        · intro x hx
          exact List.mem_singleton.mp hx ▸ hb
      exact hone.foldlM hm
  constructor
  · intro b
    rw [ha.missing]
    constructor
    · rintro ⟨m, hm, hb⟩
      obtain ⟨r, hr, e⟩ := (hmem m).mp hm
      exact ⟨r, hr, m, e, hb⟩
    · rintro ⟨r, hr, m, e, hb⟩
      exact ⟨m, (hmem m).mpr ⟨r, hr, e⟩, hb⟩
  · intro b hb
    have hs := ha.succeeded b hb
    unfold Cluster.Dumped
    split at hs
    · next hmla =>
      rw [if_pos hmla]
      obtain ⟨m, hm, hb⟩ := hs
      obtain ⟨r, hr, e⟩ := (hmem m).mp hm
      exact ⟨r, hr, m, e, hb⟩
    · next hmla =>
      rw [if_neg hmla]
      intro r hr
      obtain ⟨m, e⟩ := (h.rank r).reports hon
      exact ⟨m, e, hs m ((hmem m).mpr ⟨r, hr, e⟩)⟩

/-- What a step in which the ranks report does to the marks. -/
structure Applied (C : ClusterConfig) (s s' : Cluster Block Req) (evict : List Block) : Prop where
  kept : ∀ b ∈ s.marks, b ∈ s'.marks ∨ s.Dumped C b ∨ (b ∈ evict ∧ s'.marks.card = maxInconsistentBlocks)
  marked : ∀ b, s.Misses C b → b ∈ s'.marks ∨ (b ∈ evict ∧ s'.marks.card = maxInconsistentBlocks)

theorem ClusterInv.report {order : List Nat} {missing evict : List Block} (h : ClusterInv C s)
    (hp : order.Perm (List.range C.nRank))
    (hs : s.report C order missing evict = some s') : ClusterInv C s' ∧ Applied C s s' evict := by
  simp only [Cluster.report, Option.bind_eq_some_iff, Option.map_eq_some_iff] at hs
  obtain ⟨workerMeta, hm, scheduler, hsch, rfl⟩ := hs
  have hranks : ∀ r, RankInv C (if r < C.nRank then (s.rank r).buildConnectorWorkerMeta.2 else s.rank r) := by
    intro r
    split
    · exact (h.rank r).buildConnectorWorkerMeta
    · exact h.rank r
  -- `after`: the state after, whatever the scheduler's manager is
  let after (scheduler : Manager Block Req) : Cluster Block Req :=
    ⟨fun r => if r < C.nRank then (s.rank r).buildConnectorWorkerMeta.2 else s.rank r, scheduler⟩
  have hkeep : (∀ b, ¬ s.Misses C b) → ClusterInv C (after s.scheduler) ∧ Applied C s (after s.scheduler) evict := by
    intro hno
    exact ⟨⟨hranks, h.enabled, h.tracker, h.card⟩, fun b hb => .inl hb, fun b hb => absurd hb (hno b)⟩
  cases workerMeta with
  | none =>
    obtain rfl := Option.some.inj hsch
    apply hkeep
    -- no rank reports
    rintro b ⟨r, hr, m, e, -⟩
    have hmem : m ∈ order.filterMap s.reported := List.mem_filterMap.mpr ⟨r, hp.mem_iff.mpr (List.mem_range.mpr hr), e⟩
    unfold Cluster.aggregated at hm
    cases hl : order.filterMap s.reported with
    | nil =>
      rw [hl] at hmem
      cases hmem
    | cons x rest => simp [hl] at hm
  | some workerMeta =>
    cases ht : s.scheduler.tracker with
    | none =>
      have hoff : C.useConsistencyManager = false := by
        rw [← h.tracker, ht]
        rfl
      obtain rfl : s.scheduler = scheduler := by simpa [Manager.applyWorkerMeta, ht] using hsch
      apply hkeep
      rintro b ⟨r, -, m, e, hb⟩
      rw [(((h.rank r).reported e).off hoff).1] at hb
      cases hb
    | some inconsistent =>
      have hon : C.useConsistencyManager = true := by
        rw [← h.tracker, ht]
        rfl
      have hmarks : s.marks = inconsistent := by
        unfold Cluster.marks
        rw [ht]
        rfl
      obtain ⟨hmissing, hdumped⟩ := h.aggregated hon hp hm
      simp only [Manager.applyWorkerMeta, ht, Option.ite_none_right_eq_some, Option.map_eq_some_iff, Prod.exists] at hsch
      obtain ⟨⟨-, hset⟩, s₁, added, hmark, rfl⟩ := hsch
      have hsub : inconsistent \ workerMeta.dumpSucceededBlocks ⊆ inconsistent := Finset.sdiff_subset
      have hle : (inconsistent \ workerMeta.dumpSucceededBlocks).card ≤ maxInconsistentBlocks :=
        (Finset.card_le_card hsub).trans (hmarks ▸ h.card)
      have hspec := markMissing_spec hle hmark
      have hfull : ∀ b ∈ evict, s₁.card = maxInconsistentBlocks := fun b hb => hspec.full (List.ne_nil_of_mem hb)
      refine ⟨⟨hranks, h.enabled, ?_, hspec.le⟩, fun b hb => ?_, fun b hb => ?_⟩
      · rw [hon]
        rfl
      · rw [hmarks] at hb
        by_cases hd : b ∈ workerMeta.dumpSucceededBlocks
        · exact .inr (.inl (hdumped b hd))
        · rcases hspec.kept b (Finset.mem_sdiff.mpr ⟨hb, hd⟩) with hb | hb
          · exact .inl hb
          · exact .inr (.inr ⟨hb, hfull b hb⟩)
      · have hb : b ∈ missing := List.mem_toFinset.mp (hset ▸ (hmissing b).mpr hb)
        exact (hspec.marked b hb).imp id fun hb => ⟨hb, hfull b hb⟩

/-- Every step but a report touches one rank, and keeps its books. -/
theorem ClusterInv.cases {a : ClusterLabel Block Req} (h : ClusterInv C s) (hs : clusterStep C s a = some s') :
    (∃ r k, s' = s.setRank r k ∧ RankInv C k) ∨
      ∃ order missing evict, a = .report order missing evict ∧ order.Perm (List.range C.nRank) ∧
      s.report C order missing evict = some s' := by
  cases a with
  | submitLoad r ctx res =>
    simp only [clusterStep, Option.ite_none_right_eq_some, Option.some.injEq] at hs
    obtain ⟨-, rfl⟩ := hs
    have hk := h.rank r
    exact .inl ⟨r, _, rfl, hk.of_sameDumps (Manager.submitLoad_sameDumps _ ctx res) hk.isMla hk.unreported⟩
  | waitLoad r task fault =>
    simp only [clusterStep, Option.map_eq_some_iff] at hs
    obtain ⟨manager, hm, rfl⟩ := hs
    have hk := h.rank r
    exact .inl ⟨r, _, rfl, hk.of_sameDumps (Manager.waitLoad_sameDumps hm) hk.isMla hk.unreported⟩
  | submitDump r blockIdsByRequest res =>
    simp only [clusterStep, Option.ite_none_right_eq_some, Option.some.injEq] at hs
    obtain ⟨hfresh, rfl⟩ := hs
    exact .inl ⟨r, _, rfl, (h.rank r).submitDump hfresh⟩
  | waitDump r task fault =>
    simp only [clusterStep, Option.map_eq_some_iff] at hs
    obtain ⟨k, hk, rfl⟩ := hs
    exact .inl ⟨r, k, rfl, (h.rank r).waitDump hk⟩
  | finishDump r requestIds =>
    simp only [clusterStep, Option.map_eq_some_iff] at hs
    obtain ⟨k, hk, rfl⟩ := hs
    exact .inl ⟨r, k, rfl, (h.rank r).finishDump hk⟩
  | markFailed r reqId =>
    obtain rfl := Option.some.inj hs
    have hk := h.rank r
    exact .inl ⟨r, _, rfl, hk.of_sameDumps ⟨rfl, rfl, rfl, rfl, Finset.Subset.refl _⟩ hk.isMla hk.unreported⟩
  | report order missing evict =>
    simp only [clusterStep, Option.ite_none_right_eq_some] at hs
    exact .inr ⟨order, missing, evict, rfl, hs.1, hs.2⟩

theorem ClusterInv.step {a : ClusterLabel Block Req} (h : ClusterInv C s) (hs : clusterStep C s a = some s') :
    ClusterInv C s' := by
  rcases h.cases hs with ⟨r, k, rfl, hk⟩ | ⟨order, missing, evict, rfl, hp, hs⟩
  · exact h.setRank hk
  · exact (h.report hp hs).1

theorem reach_clusterInv (h : Reach (cluster C) Any s) : ClusterInv C s := by
  refine h.inv (I := ClusterInv C) (fun s hi => ?_) fun s a s' hI _ hs => hI.step hs
  have hcard : s.marks.card = 0 := by
    unfold Cluster.marks
    rw [hi.scheduler]
    cases C.useConsistencyManager <;> rfl
  refine ⟨fun r => ?_, ?_, ?_, by omega⟩
  · rw [hi.rank]
    exact ⟨rfl, rfl, ⟨rfl, rfl⟩, fun _ _ => rfl, nofun, nofun, nofun, nofun⟩
  · rw [hi.scheduler]
    rfl
  · rw [hi.scheduler]
    cases C.useConsistencyManager <;> rfl

end Aggregate

/-! ## Lookups -/

section Lookups

variable {C : ClusterConfig} {s s' s'' : Cluster Block Req} {b : Block}

/-- The contract of a store's lookups: `has` is what it holds. -/
structure StoreLookup.Holds (store : StoreLookup Block) (has : Block → Bool) : Prop where
  lookup : ∀ blockIds, store.lookup blockIds = blockIds.map has
  lookupOnPrefix : ∀ blockIds, store.lookupOnPrefix blockIds = (blockIds.takeWhile has).length - 1

variable {store : StoreLookup Block} {has : Block → Bool}

/-- What a lookup may report. -/
def Cluster.valid (s : Cluster Block Req) (has : Block → Bool) (b : Block) : Bool := has b && decide (b ∉ s.marks)

omit [DecidableEq Req] in
theorem lookupAll_eq (hst : store.Holds has) (blockIds : List Block) :
    s.scheduler.lookupAll store blockIds = blockIds.map (s.valid has) := by
  unfold Manager.lookupAll Cluster.valid Cluster.marks
  rw [hst.lookup]
  cases s.scheduler.tracker with
  | none => simp
  | some inconsistent =>
    show List.zipWith _ blockIds (blockIds.map has) = _
    rw [List.zipWith_map_right, List.zipWith_self]
    apply List.map_congr_left
    intro b _
    by_cases hb : b ∈ inconsistent <;> simp [hb]

omit [DecidableEq Req] in
theorem lookupOnPrefix_eq (h : ClusterInv C s) (hst : store.Holds has) (blockIds : List Block) :
    s.scheduler.lookupOnPrefix store blockIds = (blockIds.takeWhile (s.valid has)).length - 1 := by
  unfold Manager.lookupOnPrefix
  rw [h.enabled, ← h.tracker]
  have hmarks : s.marks = s.scheduler.tracker.getD ∅ := rfl
  cases ht : s.scheduler.tracker with
  | none =>
    have hvalid : s.valid has = has := by
      funext b
      simp [Cluster.valid, hmarks, ht]
    rw [hvalid]
    exact hst.lookupOnPrefix blockIds
  | some inconsistent =>
    have hvalid : blockIds.takeWhile (s.valid has) = (validPrefix inconsistent blockIds).takeWhile has := by
      rw [validPrefix, List.takeWhile_takeWhile]
      congr 1
      funext b
      simp [Cluster.valid, hmarks, ht]
    rw [hvalid]
    show (if validPrefix inconsistent blockIds = [] then -1 else store.lookupOnPrefix (validPrefix inconsistent blockIds)) = _
    split
    · next hnil =>
      rw [hnil]
      rfl
    · exact hst.lookupOnPrefix _

/-- Block `b` need not be marked after the step. -/
def Cluster.Unmarks (C : ClusterConfig) (s : Cluster Block Req) (b : Block) : ClusterLabel Block Req → Prop
  | .report _ _ evict => b ∈ evict ∨ s.Dumped C b
  | _ => False

/-- A mark goes where the ranks report its block dumped, or where the limit is reached. -/
theorem ClusterInv.unmark {a : ClusterLabel Block Req} (h : ClusterInv C s) (hs : clusterStep C s a = some s') (hb : b ∈ s.marks)
    (hnot : b ∉ s'.marks) : s.Unmarks C b a ∧ (s.Dumped C b ∨ s'.marks.card = maxInconsistentBlocks) := by
  rcases h.cases hs with ⟨r, k, rfl, -⟩ | ⟨order, missing, evict, rfl, hp, hs⟩
  · exact absurd hb hnot
  · rcases (h.report hp hs).2.kept b hb with hb | hd | ⟨he, hfull⟩
    · exact absurd hb hnot
    · exact ⟨.inr hd, .inl hd⟩
    · exact ⟨.inl he, .inr hfull⟩

theorem marks_stay (h : Reach (cluster C) Any s) (hb : b ∈ s.marks)
    (hr : Reach ((cluster C).startAt s) (fun t a => ¬ t.Unmarks C b a) s'') : b ∈ s''.marks := by
  refine hr.inv_with (I := fun t => b ∈ t.marks) (J := ClusterInv C) (fun t ht => ?_)
    (fun t hi => ?_) fun t a t' hJ hI ha hs => ?_
  · exact reach_clusterInv (h.startAt ht)
  · obtain rfl : t = s := hi
    exact hb
  · by_contra hnot
    exact ha (hJ.unmark hs hI hnot).1

/-- A rank reports what the tasks of a finished request dumped; a mark is set where a rank misses
    the block and goes only with `Unmarks`; lookups find no marked block, and agree. -/
theorem rank_consistency (h : Reach (cluster C) Any s) :
    (∀ r m b, s.reported r = some m → b ∈ m.dumpSucceededBlocks → ∃ q ∈ (s.rank r).finished, DumpedBy q b) ∧
    (∀ a s' b, (cluster C).step s a = some s' → b ∈ s.marks → b ∉ s'.marks →
      s.Unmarks C b a ∧ (s.Dumped C b ∨ s'.marks.card = maxInconsistentBlocks)) ∧
    (∀ order missing evict s' b, (cluster C).step s (.report order missing evict) = some s' → s.Misses C b →
      b ∈ s'.marks ∨ (b ∈ evict ∧ s'.marks.card = maxInconsistentBlocks)) ∧
    (∀ b ∈ s.marks, ∀ s'', Reach ((cluster C).startAt s) (fun t a => ¬ t.Unmarks C b a) s'' → b ∈ s''.marks) ∧
    (∀ (store : StoreLookup Block) has, store.Holds has → ∀ blockIds,
      (∀ (i : Nat) b, blockIds[i]? = some b → b ∈ s.marks →
        (s.scheduler.lookupAll store blockIds)[i]? = some false ∧ s.scheduler.lookupOnPrefix store blockIds < i) ∧
      s.scheduler.lookupOnPrefix store blockIds = ((s.scheduler.lookupAll store blockIds).takeWhile id).length - 1) := by
  have hinv := reach_clusterInv h
  refine ⟨fun r m b hm hb => ?_, fun a s' b hs hb hnot => hinv.unmark hs hb hnot, fun order missing evict s' b hs hb => ?_,
    fun b hb s'' hr => marks_stay h hb hr, fun store has hst blockIds => ⟨fun i b hi hb => ⟨?_, ?_⟩, ?_⟩⟩
  · exact (hinv.rank r).dumped b (((hinv.rank r).reported hm).dumped b hb)
  · obtain ⟨hp, hs⟩ := Option.ite_none_right_eq_some.mp hs
    exact (hinv.report hp hs).2.marked b hb
  · rw [lookupAll_eq hst, List.getElem?_map, hi]
    simp [Cluster.valid, hb]
  · rw [lookupOnPrefix_eq hinv hst]
    -- the prefix ends before the marked block
    have hlt : (blockIds.takeWhile (s.valid has)).length ≤ i := by
      by_contra hlt
      have hlt := Nat.lt_of_not_le hlt
      have hvalid := List.mem_takeWhile_imp (List.getElem_mem hlt)
      obtain ⟨_, e⟩ := List.getElem?_eq_some_iff.mp hi
      rw [(List.takeWhile_prefix _).getElem hlt, e] at hvalid
      simp [Cluster.valid, hb] at hvalid
    omega
  · rw [lookupOnPrefix_eq hinv hst, lookupAll_eq hst, List.takeWhile_map, List.length_map, Function.id_comp]

/-- Rank 0 of two cannot find block 5: it stays marked. -/
theorem rank_consistency_missing : ∃ s : Cluster Nat Nat, Reach (cluster ⟨2, false, true⟩) Any s ∧ 5 ∈ s.marks ∧
    ∀ s'', Reach ((cluster ⟨2, false, true⟩).startAt s) (fun t a => ¬ t.Unmarks ⟨2, false, true⟩ 5 a) s'' → 5 ∈ s''.marks := by
  let s₀ : Cluster Nat Nat := ⟨fun _ => ⟨.new false true, .new false, fun _ => [], []⟩, .new true true⟩
  have hs : (cluster ⟨2, false, true⟩).init s₀ := ⟨fun _ => rfl, rfl⟩
  obtain ⟨s, hr, hb⟩ := exists_of_replay [.submitLoad 0 [(7, [5])] (.error .notFound), .report [1, 0] [5] []]
    (p := fun s : Cluster Nat Nat => decide (5 ∈ s.marks)) hs (by decide)
  have hb : 5 ∈ s.marks := of_decide_eq_true hb
  exact ⟨s, hr, hb, (rank_consistency hr).2.2.2.1 5 hb⟩

theorem clusterStep_report {order : List Nat} {missing evict : List Block} {workerMeta : WorkerMetadata Block Req}
    {inconsistent marks' : Finset Block} {n : Nat} (hp : order.Perm (List.range C.nRank))
    (ha : s.aggregated order = some (some workerMeta))
    (ht : s.scheduler.tracker = some inconsistent) (hmissing : missing.Nodup ∧ missing.toFinset = workerMeta.missingBlocks)
    (hm : markMissing (clearDumped inconsistent workerMeta.dumpSucceededBlocks).1 missing evict = some (marks', n)) :
    clusterStep C s (.report order missing evict) =
      some ⟨fun r => if r < C.nRank then (s.rank r).buildConnectorWorkerMeta.2 else s.rank r,
        { s.scheduler with tracker := some marks' }⟩ := by
  show (if order.Perm (List.range C.nRank) then s.report C order missing evict else none) = _
  rw [if_pos hp]
  unfold Cluster.report
  rw [ha, Option.bind_some]
  unfold Manager.applyWorkerMeta
  simp only [ht]
  rw [if_pos hmissing, hm]
  rfl

/-- One rank, nothing to report, the marks given. -/
def marked (marks : Finset Nat) : Cluster Nat Nat :=
  ⟨fun _ => ⟨.new false true, .new false, fun _ => [], []⟩, { Manager.new true true with tracker := some marks }⟩

/-- The rank cannot find the blocks `ids`, and reports them. -/
theorem marked_misses {marks : Finset Nat} {ids : List Nat} (hr : Reach (cluster ⟨1, false, true⟩) Any (marked marks))
    (hids : ids.Nodup) :
    ∃ s : Cluster Nat Nat, Reach (cluster ⟨1, false, true⟩) Any s ∧ s.marks = marks ∧ (∀ b, ¬ s.Reports 0 b) ∧
      ∀ evict marks' n, markMissing marks ids evict = some (marks', n) →
        (cluster ⟨1, false, true⟩).step s (.report [0] ids evict) = some (marked marks') := by
  refine ⟨_, .step (.submitLoad 0 [(0, ids)] (.error .notFound)) hr trivial rfl, rfl, ?_, fun evict marks' n hm => ?_⟩
  · rintro b ⟨m, hm, hb⟩
    obtain rfl := Option.some.inj hm
    simp [marked, Manager.new, Cluster.setRank, Manager.submitLoad, Manager.markLoadContextMissing, WorkerMetadata.new] at hb
  · have hids : ids.Nodup ∧ ids.toFinset = ∅ ∪ (∅ ∪ ([(0, ids)].flatMap Prod.snd).toFinset) := by simpa using hids
    have hmark : markMissing (clearDumped marks (∅ ∪ ∅)).1 ids evict = some (marks', n) := by simpa [clearDumped] using hm
    unfold cluster
    dsimp only
    apply Eq.trans
    · exact clusterStep_report (List.Perm.refl [0]) rfl rfl hids hmark
    refine congrArg some (congrArg₂ Cluster.mk (funext fun r => ?_) rfl)
    dsimp only
    split
    · next hr =>
      obtain rfl : r = 0 := Nat.lt_one_iff.mp hr
      rfl
    · next hr =>
      have hne : r ≠ 0 := by
        intro e
        subst e
        exact hr Nat.one_pos
      exact Function.update_of_ne hne _ _

theorem markMissing_fits {inconsistent : Finset Block} {missing : List Block} (hnew : ∀ b ∈ missing, b ∉ inconsistent)
    (hnd : missing.Nodup)
    (hfits : inconsistent.card + missing.length ≤ maxInconsistentBlocks) :
    markMissing inconsistent missing [] = some (inconsistent ∪ missing.toFinset, missing.length) := by
  induction missing generalizing inconsistent with
  | nil => simp [markMissing]
  | cons b rest ih =>
    obtain ⟨hb, hnd⟩ := List.nodup_cons.mp hnd
    rw [List.length_cons] at hfits
    have hnot := hnew b List.mem_cons_self
    have hcard : (insert b inconsistent).card = inconsistent.card + 1 := Finset.card_insert_of_notMem hnot
    have hrest : ∀ x ∈ rest, x ∉ insert b inconsistent := by
      intro x hx hmem
      rcases Finset.mem_insert.mp hmem with rfl | hmem
      · exact hb hx
      · exact hnew x (List.mem_cons_of_mem _ hx) hmem
    unfold markMissing
    rw [if_neg hnot, if_neg (by omega), ih hrest hnd (by omega)]
    simp [Finset.insert_union]

theorem mark_evicted_at {n : Nat} (hn : n = maxInconsistentBlocks) (hpos : 0 < n) : ∃ s s' : Cluster Nat Nat, ∃ a,
    Reach (cluster ⟨1, false, true⟩) Any s ∧ (cluster ⟨1, false, true⟩).step s a = some s' ∧ 0 ∈ s.marks ∧ 0 ∉ s'.marks ∧
      ¬ s.Reports 0 0 := by
  have h0 : Reach (cluster ⟨1, false, true⟩) Any (marked ∅) := .init ⟨fun _ => rfl, rfl⟩
  have hlen : (∅ : Finset Nat).card + (List.range n).length ≤ maxInconsistentBlocks := by
    rw [List.length_range, Finset.card_empty, hn, Nat.zero_add]
  have hfits := markMissing_fits (fun _ _ => Finset.notMem_empty _) List.nodup_range hlen
  generalize hmarks : ∅ ∪ (List.range n).toFinset = marks at hfits
  have hmem : ∀ b, b ∈ marks ↔ b < n := by
    intro b
    simp [← hmarks]
  have hcard : marks.card = maxInconsistentBlocks := by
    rw [← hmarks, Finset.empty_union, List.toFinset_card_of_nodup List.nodup_range, List.length_range, hn]
  obtain ⟨s₁, hr, -, -, hs⟩ := marked_misses h0 (List.nodup_range (n := n))
  have h1 := Reach.step _ hr trivial (hs [] _ _ hfits)
  obtain ⟨s₂, hr, hmarks₂, hno, hs⟩ := marked_misses h1 (List.nodup_singleton n)
  have hevict : markMissing marks [n] [0] = some (insert n (marks.erase 0), 1) := by
    unfold markMissing
    rw [if_neg fun hb => Nat.lt_irrefl n ((hmem n).mp hb), if_pos (Nat.le_of_eq hcard.symm)]
    dsimp only
    rw [if_pos ((hmem 0).mpr hpos)]
    rfl
  refine ⟨s₂, _, .report [0] [n] [0], hr, hs [0] _ _ hevict, hmarks₂ ▸ (hmem 0).mpr hpos, ?_, hno 0⟩
  show 0 ∉ insert n (marks.erase 0)
  simp [Nat.ne_of_lt hpos]

/-- At the limit the mark of block 0 goes for that of another, though no rank has dumped the block. -/
theorem mark_evicted : ∃ s s' : Cluster Nat Nat, ∃ a, Reach (cluster ⟨1, false, true⟩) Any s ∧
    (cluster ⟨1, false, true⟩).step s a = some s' ∧ 0 ∈ s.marks ∧ 0 ∉ s'.marks ∧ ¬ s.Reports 0 0 :=
  mark_evicted_at rfl (by decide)

end Lookups

end UnifiedCache.Connector
