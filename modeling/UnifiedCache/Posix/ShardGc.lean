/-
  UnifiedCache.Posix.ShardGc — the collector of a posix store's files
  (ucm/store/posix/cc/shard_gc.cc, with `SampleShards` and `CountFilesInShard` of space_layout.cc).

  A thread counts the files of some shards. Where the average is at the threshold or over it the thread
  runs rounds: in each, a task for every shard removes the oldest of its files. A round in which a
  shard gave as many as it may is followed by another one at once, any other by a new sample. Between
  two checks the thread waits.

  The tasks of a pool run beside each other, and beside stores that archive files and processes that
  remove some. A directory is read in one step, in any order, with what else is in it. `archived` are
  the files of the first backend, the one that is collected.

  - `shardOf_mem`, `shards_nodup`: each block has its shard among the collector's.
  - `countFilesInShard_eq`, `getOldestFiles_spec`: what a task counts, and what it picks.
-/

import Mathlib.Algebra.Order.BigOperators.Group.Finset
import UnifiedCache.Base.Transition
import UnifiedCache.Posix.OldestFiles

namespace UnifiedCache.Posix

open UnifiedCache.Base

/-! ## Shards -/

/-- `n` digits, the last one first. -/
def hexString : Nat → Nat → List UInt8
  | 0, _ => []
  | n + 1, temp => hexString n (temp / 16) ++ [hexChar (UInt8.ofNat (temp % 16))]

def generateHexStrings (n : Nat) : List (List UInt8) := if n = 0 then [] else (List.range (16 ^ n)).map (hexString n)

/-- `data`. -/
def dataRoot : List UInt8 := [100, 97, 116, 97]

abbrev ShardName := List UInt8

/-- The part of the configuration that the collector reads, as `CheckConfig` lets it through for a store with
    a device; with `device_id` -1 it returns before these checks, and such collectors are left out here. -/
structure GcConfig where
  dataDirShardBytes : Nat
  posixCapacityGb : Nat
  blockSize : Nat
  posixGcRecyclePercent : Percent
  posixGcTriggerThresholdRatio : Percent
  posixGcMaxRecycleCountPerShard : Nat
  posixGcShardSampleRatio : Percent
  dataDirShardBytes_le : dataDirShardBytes ≤ 5
  blockSize_pos : 0 < blockSize
  maxRecycle_pos : 0 < posixGcMaxRecycleCountPerShard

namespace GcConfig

variable (c : GcConfig)

/-- `shards_`, the relative roots. -/
def shards : List ShardName := if 0 < c.dataDirShardBytes then generateHexStrings c.dataDirShardBytes else [dataRoot]

/-- The shard in the path of a block's file. -/
def shardOf (blockId : BlockId) : ShardName := if 0 < c.dataDirShardBytes
    then (dataFileName blockId).take c.dataDirShardBytes else dataRoot

def maxFileCount : Nat := c.posixCapacityGb * 2 ^ 30 % 2 ^ 64 / c.blockSize

/-- `threshold` of `ShouldTrigger`. -/
def threshold : Nat := recycleShare (c.maxFileCount / c.shards.length) c.posixGcTriggerThresholdRatio

/-- What a shard at the threshold gives, by `ValidateAndInitCapacity`. -/
def recycleNum : Nat := recycleShare c.threshold c.posixGcRecyclePercent

/-- What `SampleShards(posixGcShardSampleRatio)` may return. -/
def Sample (l : List ShardName) : Prop :=
  if c.posixGcShardSampleRatio.m = 2 ^ c.posixGcShardSampleRatio.k then l = c.shards
  else l.Nodup ∧ (∀ shard ∈ l, shard ∈ c.shards) ∧ l.length = max 1 (recycleShare c.shards.length c.posixGcShardSampleRatio)

instance (shard : ShardName) : Decidable (shard ∈ c.shards) :=
  decidable_of_iff (c.shards.any fun s => s = shard) (by simp)

instance (l : List ShardName) : Decidable (c.Sample l) := by
  unfold Sample
  infer_instance

end GcConfig

/-- A collector that is set up. -/
structure Collector extends GcConfig where
  recycles : 0 < toGcConfig.recycleNum

/-! ## Files -/

/-- The files of blocks, with their times. -/
structure Archive where
  files : List FileInfo
  distinct : (files.map FileInfo.blockId).Nodup

namespace Archive

def empty : Archive := ⟨[], List.nodup_nil⟩

variable (a : Archive)

def blocks : List BlockId := a.files.map FileInfo.blockId

theorem put_distinct (blockId : BlockId) (mtime : Int) :
    ((if blockId ∈ a.blocks then a.files.map fun f => if f.blockId = blockId then ⟨blockId, mtime⟩ else f
      else a.files ++ [⟨blockId, mtime⟩]).map FileInfo.blockId).Nodup := by
  split
  · have hsame : (a.files.map fun f => if f.blockId = blockId then (⟨blockId, mtime⟩ : FileInfo) else f).map FileInfo.blockId =
        a.blocks := by
      rw [List.map_map]
      refine List.map_congr_left fun f _ => ?_
      dsimp only [Function.comp]
      split
      · rename_i heq
        exact heq.symm
      · rfl
    rw [hsame]
    exact a.distinct
  · rename_i hnew
    rw [List.map_append]
    exact a.distinct.append (List.nodup_singleton _) (List.disjoint_singleton.mpr hnew)

/-- A file is renamed to a block's name, where it may replace one. -/
def put (blockId : BlockId) (mtime : Int) : Archive := ⟨_, a.put_distinct blockId mtime⟩

def remove (blockId : BlockId) : Archive :=
    ⟨a.files.filter fun f => f.blockId ≠ blockId, a.distinct.sublist (List.filter_sublist.map _)⟩

/-- The files of a shard. -/
def inShard (c : GcConfig) (shard : ShardName) : List FileInfo := a.files.filter fun f => c.shardOf f.blockId = shard

/-- How a shard's directory may be read; it is `none` where `opendir` fails. -/
def Shows (c : GcConfig) (shard : ShardName) : Option Directory → Prop
  | none => True
  | some dir =>
    ((archivedFiles (some dir)).map fun f => (f.name, f.mtime)).Perm ((a.inShard c shard).map fun f =>
      (dataFileName f.blockId, f.mtime))

instance (c : GcConfig) (shard : ShardName) : ∀ dir, Decidable (a.Shows c shard dir)
  | none => isTrue trivial
  | some _ => List.decidablePerm _ _

end Archive

/-- `CountFilesInShard` does not look at what an entry is. -/
def DirEntry.counted (entry : DirEntry) : Bool := entry.dName 0 ≠ 46 && !decide (activatedFileExtension <:+: entry.name)

def countFilesInShard : Option Directory → Nat
  | none => 0
  | some dir => (dir.entries.filter DirEntry.counted).length

/-! ## The thread and its tasks -/

inductive GcPc where
  | queued
  /-- `filesToDelete`, and those of them that are not yet removed. -/
  | removing (filesToDelete left : List BlockId)
  | done
  deriving DecidableEq

structure GcTask where
  shard : ShardName
  pc : GcPc
  deriving DecidableEq

/-- Where `GCCheckLoop` is. -/
inductive CheckPc where
  | head
  /-- `ShouldTrigger` is called. -/
  | ask
  /-- Its tasks, with what they counted. -/
  | sampling (tasks : List (ShardName × Option Nat))
  /-- At the inner loop's head. -/
  | decided (trigger : Bool)
  | collecting (tasks : List GcTask) (gcLimited : Bool)
  | waiting
  | ended
  deriving DecidableEq

structure GcState where
  archived : Archive
  pc : CheckPc
  stop : Bool
  /-- Ghost: the rounds of all checks. -/
  rounds : Nat
  /-- Ghost: the files that were new, and those that were removed, by anyone. -/
  arrived : Nat
  departed : Nat
  /-- Ghost: `arrived` when a sample was last begun. -/
  sampledAt : Nat

inductive GcLabel where
  /-- A store commits a file. -/
  | archive (blockId : BlockId) (mtime : Int)
  /-- Another process removes one. -/
  | remove (blockId : BlockId)
  /-- The destructor. -/
  | stop
  /-- The thread goes on. -/
  | run
  | sample (shards : List ShardName)
  /-- Tasks of the pool; a new heap has some memory. -/
  | count (i : Nat) (dir : Option Directory)
  | scan (i : Nat) (memory : Nat → FileInfo) (dir : Option Directory)
  | unlink (i : Nat)
  | finish (i : Nat)

def GcState.start (archived : Archive) : GcState := ⟨archived, .head, false, 0, 0, 0, 0⟩

/-- A file is unlinked, if it is there. -/
def GcState.unlink (s : GcState) (blockId : BlockId) : GcState :=
  { s with archived := s.archived.remove blockId, departed := if blockId ∈ s.archived.blocks then s.departed + 1 else s.departed }

namespace Collector

variable (c : Collector)

/-- `sampledFiles`. -/
def sampledFiles (tasks : List (ShardName × Option Nat)) : Nat := (tasks.map fun t => t.2.getD 0).sum

/-- The thread of `GCCheckLoop`. -/
def run (s : GcState) : Option GcState :=
  match s.pc with
  | .head => some { s with pc := if s.stop then .ended else .ask }
  | .sampling tasks =>
    if tasks.all (·.2.isSome) then
      let avgFilesPerShard := sampledFiles tasks / tasks.length
      some { s with pc := .decided (avgFilesPerShard ≥ c.threshold) }
    else none
  | .decided trigger =>
    some { s with pc := if !s.stop && trigger then .collecting (c.shards.map fun shard => ⟨shard, .queued⟩) false else .waiting }
  | .collecting tasks gcLimited =>
    if tasks.all (·.pc = .done) then some { s with rounds := s.rounds + 1, pc := if gcLimited then .decided true
      else .ask } else none
  | .waiting => some { s with pc := if s.stop then .ended else .head }
  | .ask | .ended => none

def step (s : GcState) : GcLabel → Option GcState
  | .archive blockId mtime =>
    some { s with archived := s.archived.put blockId mtime, arrived := if blockId ∈ s.archived.blocks then s.arrived
      else s.arrived + 1 }
  | .remove blockId => some (s.unlink blockId)
  | .stop => some { s with stop := true }
  | .run => c.run s
  | .sample shards =>
    match s.pc with
    | .ask =>
      if c.Sample shards then some { s with pc := .sampling (shards.map fun shard => (shard, none)), sampledAt := s.arrived }
      else none
    | _ => none
  | .count i dir =>
    match s.pc with
    | .sampling tasks =>
      match tasks[i]? with
      | some (shard, none) =>
        if s.archived.Shows c.toGcConfig shard dir
          then some { s with pc := .sampling (tasks.set i (shard, some (countFilesInShard dir))) } else none
      | _ => none
    | _ => none
  | .scan i memory dir =>
    match s.pc with
    | .collecting tasks gcLimited =>
      match tasks[i]? with
      | some ⟨shard, .queued⟩ =>
        if s.archived.Shows c.toGcConfig shard dir then
          (getOldestFiles memory dir c.posixGcRecyclePercent.toDouble c.posixGcMaxRecycleCountPerShard).map fun filesToDelete =>
            { s with pc := .collecting (tasks.set i ⟨shard, .removing filesToDelete filesToDelete⟩) gcLimited }
        else none
      | _ => none
    | _ => none
  | .unlink i =>
    match s.pc with
    | .collecting tasks gcLimited =>
      match tasks[i]? with
      | some ⟨shard, .removing filesToDelete (blockId :: left)⟩ =>
        some { s.unlink blockId with pc := .collecting (tasks.set i ⟨shard, .removing filesToDelete left⟩) gcLimited }
      | _ => none
    | _ => none
  | .finish i =>
    match s.pc with
    | .collecting tasks gcLimited =>
      match tasks[i]? with
      | some ⟨shard, .removing filesToDelete []⟩ =>
        some
          { s with
            pc := .collecting (tasks.set i ⟨shard, .done⟩)
              (gcLimited || decide (filesToDelete.length ≥ c.posixGcMaxRecycleCountPerShard)) }
      | _ => none
    | _ => none

def sys (archived : Archive) : System GcState GcLabel := ⟨(· = .start archived), c.step⟩

/-- The directory opens, and holds no entry that is counted but is no file. -/
def Readable (dir : Option Directory) : Prop := dir.any fun dir => dir.entries.all fun f => !f.counted || f.archived

instance (dir : Option Directory) : Decidable (Readable dir) := by
  unfold Readable
  infer_instance

/-- The directories of shards are read so. -/
def Sound (_ : GcState) : GcLabel → Prop
  | .count _ dir => Readable dir
  | .scan _ _ dir => Readable dir
  | _ => True

instance (s : GcState) : ∀ a, Decidable (Sound s a)
  | .count _ dir => inferInstanceAs (Decidable (Readable dir))
  | .scan _ _ dir => inferInstanceAs (Decidable (Readable dir))
  | .archive .. | .remove _ | .stop | .run | .sample _ | .unlink _ | .finish _ => isTrue trivial

end Collector

/-! ## The names of shards -/

theorem hexString_length (n temp : Nat) : (hexString n temp).length = n := by
  induction n generalizing temp with
  | zero => rfl
  | succ n ih => rw [hexString, List.length_append, ih, List.length_singleton]

theorem hexChar_inj {m n : Nat} (hm : m < 16) (hn : n < 16) (h : hexChar (UInt8.ofNat m) = hexChar (UInt8.ofNat n)) : m = n := by
  have hall : ∀ i j : Fin 16, hexChar (UInt8.ofNat i) = hexChar (UInt8.ofNat j) → i = j := by decide
  exact congrArg Fin.val (hall ⟨m, hm⟩ ⟨n, hn⟩ h)

theorem hexString_inj {n i j : Nat} (hi : i < 16 ^ n) (hj : j < 16 ^ n) (h : hexString n i = hexString n j) : i = j := by
  induction n generalizing i j with
  | zero => rw [pow_zero] at hi hj; omega
  | succ n ih =>
    obtain ⟨hinit, hlast⟩ := List.append_inj h (by rw [hexString_length, hexString_length])
    have hrest := ih (Nat.div_lt_of_lt_mul (by rwa [pow_succ'] at hi)) (Nat.div_lt_of_lt_mul (by rwa [pow_succ'] at hj)) hinit
    have hdigit := hexChar_inj (Nat.mod_lt i (by decide)) (Nat.mod_lt j (by decide)) (List.singleton_inj.mp hlast)
    omega

/-- Digits are the string of some number. -/
theorem exists_hexString (l : List UInt8) (h : ∀ x ∈ l, ∃ d < 16, x = hexChar (UInt8.ofNat d)) : ∃ i < 16 ^ l.length,
    hexString l.length i = l := by
  induction l using List.reverseRecOn with
  | nil => exact ⟨0, Nat.one_pos, rfl⟩
  | append_singleton l x ih =>
    obtain ⟨i, hi, hl⟩ := ih fun y hy => h y (List.mem_append_left _ hy)
    obtain ⟨d, hd, rfl⟩ := h x (List.mem_append_right _ List.mem_cons_self)
    rw [List.length_append, List.length_singleton]
    refine ⟨i * 16 + d, ?_, ?_⟩
    · rw [pow_succ]
      omega
    · rw [hexString, (by omega : (i * 16 + d) / 16 = i), (by omega : (i * 16 + d) % 16 = d), hl]

theorem dataFileName_digits {blockId : BlockId} {x : UInt8} (h : x ∈ dataFileName blockId) : ∃ d < 16,
    x = hexChar (UInt8.ofNat d) := by
  obtain ⟨b, -, hx⟩ := List.mem_flatMap.mp h
  have hb := b.toNat_lt
  rcases List.mem_pair.mp hx with rfl | rfl
  · refine ⟨(b / 16).toNat, ?_, by rw [UInt8.ofNat_toNat]⟩
    rw [UInt8.toNat_div]
    exact Nat.div_lt_of_lt_mul hb
  · refine ⟨(b % 16).toNat, ?_, by rw [UInt8.ofNat_toNat]⟩
    rw [UInt8.toNat_mod]
    exact Nat.mod_lt _ (by decide)

theorem dataFileName_length (blockId : BlockId) : (dataFileName blockId).length = 32 := by
  rw [dataFileName, List.length_flatMap]
  simp

namespace GcConfig

variable (c : GcConfig)

theorem shards_nodup : c.shards.Nodup := by
  unfold shards generateHexStrings
  split
  · split
    · exact List.nodup_nil
    · exact List.nodup_range.map_on fun i hi j hj h => hexString_inj (List.mem_range.mp hi) (List.mem_range.mp hj) h
  · exact List.nodup_singleton _

theorem shardOf_mem (blockId : BlockId) : c.shardOf blockId ∈ c.shards := by
  unfold shards shardOf
  split
  · rename_i hpos
    have hbytes := c.dataDirShardBytes_le
    have hlength : ((dataFileName blockId).take c.dataDirShardBytes).length = c.dataDirShardBytes := by
      rw [List.length_take, dataFileName_length]
      omega
    obtain ⟨i, hi, hl⟩ := exists_hexString ((dataFileName blockId).take c.dataDirShardBytes) fun x hx =>
        dataFileName_digits (List.mem_of_mem_take hx)
    rw [hlength] at hi hl
    rw [generateHexStrings, if_neg (Nat.ne_of_gt hpos)]
    exact List.mem_map.mpr ⟨i, List.mem_range.mpr hi, hl⟩
  · exact List.mem_singleton_self _

theorem shards_pos : 0 < c.shards.length := List.length_pos_of_mem (c.shardOf_mem fun _ => 0)

end GcConfig

theorem GcConfig.Sample.mem {c : GcConfig} {l : List ShardName} (h : c.Sample l) {shard : ShardName} (hs : shard ∈ l) :
    shard ∈ c.shards := by
  unfold GcConfig.Sample at h
  split at h
  · exact h ▸ hs
  · exact h.2.1 shard hs

theorem GcConfig.Sample.length_pos {c : GcConfig} {l : List ShardName} (h : c.Sample l) : 0 < l.length := by
  unfold GcConfig.Sample at h
  split at h
  · exact h ▸ c.shards_pos
  · omega

/-! ## What the tasks read -/

theorem recycleShare_mono {m n : Nat} (h : m ≤ n) (p : Percent) : recycleShare m p ≤ recycleShare n p :=
  Nat.div_le_div_right (f64_mono (Nat.mul_le_mul_right _ (f64_mono h)))

section Reads

variable {c : Collector} {a : Archive} {shard : ShardName} {dir : Option Directory}

theorem countFilesInShard_eq (hshows : a.Shows c.toGcConfig shard dir) (hread : Collector.Readable dir) :
    countFilesInShard dir = (a.inShard c.toGcConfig shard).length := by
  cases dir with
  | none => exact absurd hread Bool.false_ne_true
  | some dir =>
    have hlength := List.Perm.length_eq hshows
    rw [List.length_map, List.length_map] at hlength
    rw [← hlength]
    refine congrArg List.length (List.filter_congr fun f hf => ?_)
    have hclean := List.all_eq_true.mp hread f hf
    -- an archived file is counted
    unfold DirEntry.archived DirEntry.counted at *
    revert hclean
    cases decide (f.dName 0 ≠ 46) && !decide (activatedFileExtension <:+: f.name) <;> simp

/-- A task picks files that are there, and some where there are as many as the threshold says. -/
theorem getOldestFiles_spec (hmax : c.posixGcMaxRecycleCountPerShard < 2 ^ 31) (hshows : a.Shows c.toGcConfig shard dir)
    (hread : Collector.Readable dir)
    {memory : Nat → FileInfo} {filesToDelete : List BlockId}
    (h : getOldestFiles memory dir c.posixGcRecyclePercent.toDouble c.posixGcMaxRecycleCountPerShard = some filesToDelete) :
    (∀ blockId ∈ filesToDelete, blockId ∈ a.blocks) ∧
    (c.threshold ≤ (a.inShard c.toGcConfig shard).length → filesToDelete ≠ []) := by
  have hfits := share_lt_of_result (floorShare_toDouble _ _) h
  have hpicks : PicksOldest memory dir c.posixGcRecyclePercent.toDouble c.posixGcMaxRecycleCountPerShard :=
    picks_of_trims (by omega) (trims_of_percent (by omega) hfits)
  obtain ⟨-, n, chosen, left, hwanted, hold, hpicked⟩ := hpicks
  rw [wanted, floorShare_toDouble, Option.map_some] at hwanted
  obtain rfl := Option.some.inj hwanted
  obtain rfl := Option.some.inj (h.symm.trans hpicked)
  cases dir with
  | none => exact absurd hread Bool.false_ne_true
  | some dir =>
    refine ⟨fun blockId hid => ?_, fun hle => ?_⟩
    · obtain ⟨f, hf, rfl⟩ := List.mem_map.mp hid
      have hmem := List.mem_map_of_mem (f := fun f => (f.name, f.mtime)) (hold.parts.mem_iff.mp (List.mem_append_left left hf))
      obtain ⟨g, hg, heq⟩ := List.mem_map.mp (hshows.mem_iff.mp hmem)
      rw [hold.named f hf g.blockId (congrArg Prod.fst heq).symm]
      exact List.mem_map_of_mem (List.mem_of_mem_filter hg)
    · have hlength := List.Perm.length_eq hshows
      rw [List.length_map, List.length_map] at hlength
      have hshare := Nat.le_trans c.recycles (recycleShare_mono hle c.posixGcRecyclePercent)
      rw [← hlength] at hshare
      have hcount : 0 < chosen.length := by
        rw [hold.count]
        exact Nat.lt_min.mpr ⟨hshare, c.maxRecycle_pos⟩
      exact fun hnil => absurd (List.map_eq_nil_iff.mp hnil) (List.ne_nil_of_length_pos hcount)

end Reads

end UnifiedCache.Posix
