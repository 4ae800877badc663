/-
  UnifiedCache.Metrics.Buffer — the writers' double buffers and their collection
  (ucm/shared/metrics/cc/domain/metrics.{h,cc}).

  Each writer thread has a `MetricBuffer` of its own: two inner buffers, the index that it writes to,
  and the index that it is using. `UpdateStats` publishes the index, checks it again and retries if it
  was switched (`BeginWrite`); `GetAllStatsAndClear` goes over the buffers that are registered, and for
  each of them switches the index, waits until the writer does not use the old one, reads it and clears
  it. Each atomic operation is a step, and so is each section of the registry's mutex, the update of an
  inner buffer, the loops that read one, and its `Clear`.

  The metrics have been created; each has a name of its own, and stands for it here. Values are of any
  type with a zero, an addition and an order. Calls are numbered, and an inner buffer, and a collection,
  keeps the numbers of the updates that are in it.
-/

import Mathlib.Algebra.Ring.Nat
import Mathlib.Data.List.Nodup
import UnifiedCache.Base.Transition

namespace UnifiedCache.Metrics

open UnifiedCache.Base

abbrev MetricId := Nat

def INVALID_METRIC_ID : MetricId := 2 ^ 32 - 1

inductive MetricType where
  | counter
  | gauge
  | histogram
  deriving DecidableEq

structure MetricInfo (V : Type) where
  type : MetricType
  /-- The upper bounds, the last of which is infinite. -/
  buckets : List V

structure HistogramStat (V : Type) where
  bucketCounts : List Nat
  sum : V

/-- `InnerBuffer`; a collection's totals are one, too. -/
@[ext]
structure InnerBuffer (V : Type) where
  counterStats : MetricId → Option V
  gaugeStats : MetricId → Option V
  histogramStats : MetricId → Option (HistogramStat V)

/-- One call of `UpdateStats`. -/
structure Update (V : Type) where
  id : MetricId
  value : V

section Values

variable {V : Type} [Zero V] [Add V] [LT V] [DecidableLT V]

/-- `Clear`. -/
def InnerBuffer.empty : InnerBuffer V := ⟨fun _ => none, fun _ => none, fun _ => none⟩

/-- `UpdateBuffer`. -/
def InnerBuffer.updateBuffer (metrics : List (MetricInfo V)) (buffer : InnerBuffer V) (u : Update V) : InnerBuffer V :=
  match metrics[u.id]? with
  | none => buffer
  | some m =>
    match m.type with
    | .counter => { buffer with
        counterStats := Function.update buffer.counterStats u.id (some ((buffer.counterStats u.id).getD 0 + u.value)) }
    | .gauge => { buffer with gaugeStats := Function.update buffer.gaugeStats u.id (some u.value) }
    | .histogram =>
      if m.buckets.isEmpty then buffer
      else
        let histogram := (buffer.histogramStats u.id).getD ⟨[], 0⟩
        let counts := if histogram.bucketCounts.isEmpty then List.replicate m.buckets.length 0 else histogram.bucketCounts
        -- `lower_bound`
        let bucketIndex := m.buckets.findIdx fun b => !decide (b < u.value)
        { buffer with
          histogramStats :=
            Function.update buffer.histogramStats u.id (some ⟨counts.modify bucketIndex (· + 1), histogram.sum + u.value⟩) }

/-- What a collection makes of an inner buffer that it reads. -/
def InnerBuffer.addRead (total read : InnerBuffer V) : InnerBuffer V where
  counterStats id :=
    match read.counterStats id with
    | some value => some ((total.counterStats id).getD 0 + value)
    | none => total.counterStats id
  gaugeStats id := (read.gaugeStats id).or (total.gaugeStats id)
  histogramStats id :=
    match read.histogramStats id with
    | some histogram =>
      let t := (total.histogramStats id).getD ⟨[], 0⟩
      let resized := t.bucketCounts ++ List.replicate (histogram.bucketCounts.length - t.bucketCounts.length) 0
      some ⟨resized.mapIdx fun i count => count + histogram.bucketCounts.getD i 0, t.sum + histogram.sum⟩
    | none => total.histogramStats id

/-- An inner buffer after some updates. -/
def InnerBuffer.of (metrics : List (MetricInfo V)) (l : List (Update V)) : InnerBuffer V :=
    l.foldl (InnerBuffer.updateBuffer metrics) .empty

/-- The totals of a collection that has read some inner buffers. -/
def InnerBuffer.total (metrics : List (MetricInfo V)) (l : List (List (Update V))) : InnerBuffer V :=
  l.foldl (fun total read => total.addRead (.of metrics read)) .empty

theorem of_concat (metrics : List (MetricInfo V)) (l : List (Update V)) (u : Update V) :
    InnerBuffer.of metrics (l ++ [u]) = (InnerBuffer.of metrics l).updateBuffer metrics u := List.foldl_append ..

theorem total_concat (metrics : List (MetricInfo V)) (l : List (List (Update V))) (read : List (Update V)) :
    InnerBuffer.total metrics (l ++ [read]) = (InnerBuffer.total metrics l).addRead (.of metrics read) := List.foldl_append ..

end Values

/-- Where a writer is in `UpdateStats`, with the number of the call. -/
inductive WriterPc where
  | idle
  /-- At the head of the loop of `BeginWrite`. -/
  | loading (u : Nat)
  | loaded (u : Nat) (idx : Bool)
  /-- The index has been published. -/
  | stored (u : Nat) (idx : Bool)
  /-- It was switched meanwhile. -/
  | retracting (u : Nat)
  /-- The guard is held. -/
  | writing (u : Nat) (idx : Bool)
  /-- The inner buffer has been updated. -/
  | ending (idx : Bool)
  deriving DecidableEq

structure MetricBuffer (V : Type) where
  innerBufs : Bool → InnerBuffer V
  writeIdx : Bool
  /-- None for `NO_ACTIVE_WRITER`. -/
  activeWriteIdx : Option Bool
  /-- The updates in each inner buffer. -/
  log : Bool → List Nat

/-- Where a call of `GetAllStatsAndClear` is. -/
inductive CollectorPc where
  | notCalled
  /-- At the head of its loop. -/
  | next
  /-- In `SwitchBuffer`, with the index that it has loaded. -/
  | switching (idx : Bool)
  /-- In `WaitNoActiveWriter`. -/
  | waiting (idx : Bool)
  | reading (idx : Bool)
  | clearing (idx : Bool)
  | returned
  deriving DecidableEq

structure Collector (V : Type) where
  pc : CollectorPc
  /-- The writers whose buffers are still to be read, the current one first. -/
  buffers : List Nat
  total : InnerBuffer V
  /-- The updates that were in the inner buffers it has read. -/
  seen : List (List Nat)

structure MetricsState (V : Type) where
  nUpdate : Nat
  update : Nat → Update V
  /-- `buffers_`, by their writers. -/
  buffers : List Nat
  writer : Nat → WriterPc
  buffer : Nat → MetricBuffer V
  nCollector : Nat
  collector : Nat → Collector V

inductive MetricsLabel (V : Type) where
  /-- `UpdateStats` of a metric that exists, up to `BeginWrite`. -/
  | update (w : Nat) (u : Update V)
  /-- The writer's next operation. -/
  | writer (w : Nat)
  /-- `GetAllStatsAndClear`, up to its loop. -/
  | collect
  /-- The collection's next operation. -/
  | collector (c : Nat)

section Steps

variable {V : Type} [Zero V] [Add V] [LT V] [DecidableLT V] (metrics : List (MetricInfo V)) (s : MetricsState V)

def MetricsState.setWriter (w : Nat) (pc : WriterPc) : MetricsState V := { s with writer := Function.update s.writer w pc }

def MetricsState.setBuffer (w : Nat) (b : MetricBuffer V) : MetricsState V := { s with buffer := Function.update s.buffer w b }

def MetricsState.setCollector (c : Nat) (x : Collector V) : MetricsState V :=
    { s with collector := Function.update s.collector c x }

/-- `BeginWrite`, `UpdateBuffer` and `EndWrite`. -/
def writerStep (w : Nat) : Option (MetricsState V) :=
  let b := s.buffer w
  match s.writer w with
  | .idle => none
  | .loading u => some (s.setWriter w (.loaded u b.writeIdx))
  | .loaded u idx => some ((s.setWriter w (.stored u idx)).setBuffer w { b with activeWriteIdx := some idx })
  | .stored u idx => some (s.setWriter w (if b.writeIdx = idx then .writing u idx else .retracting u))
  | .retracting u => some ((s.setWriter w (.loading u)).setBuffer w { b with activeWriteIdx := none })
  | .writing u idx =>
    some ((s.setWriter w (.ending idx)).setBuffer w
      { b with
        innerBufs := Function.update b.innerBufs idx ((b.innerBufs idx).updateBuffer metrics (s.update u))
        log := Function.update b.log idx (b.log idx ++ [u]) })
  | .ending _ => some ((s.setWriter w .idle).setBuffer w { b with activeWriteIdx := none })

/-- The loop of `GetAllStatsAndClear`. -/
def collectorStep (c : Nat) : Option (MetricsState V) :=
  let x := s.collector c
  match x.buffers with
  | [] => if x.pc = .next then some (s.setCollector c { x with pc := .returned }) else none
  | w :: rest =>
    let b := s.buffer w
    match x.pc with
    | .notCalled => none
    | .next => some (s.setCollector c { x with pc := .switching b.writeIdx })
    | .switching idx => some ((s.setCollector c { x with pc := .waiting b.writeIdx }).setBuffer w { b with writeIdx := !idx })
    | .waiting idx => if b.activeWriteIdx = some idx then none else some (s.setCollector c { x with pc := .reading idx })
    | .reading idx =>
      some (s.setCollector c { x with
          pc := .clearing idx, total := x.total.addRead (b.innerBufs idx), seen := x.seen ++ [b.log idx] })
    | .clearing idx =>
      some ((s.setCollector c { x with pc := .next, buffers := rest }).setBuffer w
        { b with innerBufs := Function.update b.innerBufs idx .empty, log := Function.update b.log idx [] })
    | .returned => none

def metricsStep : MetricsLabel V → Option (MetricsState V)
  | .update w u =>
    if s.writer w = .idle ∧ u.id ≠ INVALID_METRIC_ID ∧ u.id < metrics.length then
      some { s.setWriter w (.loading s.nUpdate) with
        nUpdate := s.nUpdate + 1
        update := Function.update s.update s.nUpdate u
        -- `RegisterCurrentThread`
        buffers := if w ∈ s.buffers then s.buffers else s.buffers ++ [w] }
    else none
  | .writer w => writerStep metrics s w
  | .collect => some { s.setCollector s.nCollector ⟨.next, s.buffers, .empty, []⟩ with nCollector := s.nCollector + 1 }
  | .collector c => collectorStep s c

end Steps

section Init

variable {V : Type} [Zero V] [Add V] [LT V] [DecidableLT V]

/-- `SetUp`, with no thread registered. -/
structure MetricsState.IsInit (s : MetricsState V) : Prop where
  nUpdate : s.nUpdate = 0
  buffers : s.buffers = []
  writer : ∀ w, s.writer w = .idle
  buffer : ∀ w, s.buffer w = ⟨fun _ => .empty, false, none, fun _ => []⟩
  nCollector : s.nCollector = 0
  collector : ∀ c, s.collector c = ⟨.notCalled, [], .empty, []⟩

def metricsSystem (metrics : List (MetricInfo V)) : System (MetricsState V) (MetricsLabel V) where
  init := MetricsState.IsInit
  step := metricsStep metrics

end Init

end UnifiedCache.Metrics
