/-
  UnifiedCache.Posix.ShardGcRuns — how long the collector of a posix store goes on, and when it stops
  (see `UnifiedCache.Posix.ShardGc`).

  A sample at the threshold means that some shard had that many files, and a task at a shard with that
  many removes one, unless one has left in the meantime. So every round that follows a sample has a file
  that departs for it, after the sample or in it; and a round after one that was limited has one that
  departed in the round before. No file is charged for more than two rounds.

  - `gc_rounds_bounded`: in every run, all rounds against the files that departed.
  - `gc_ends_below`: what the files take when the inner loop ends.
  - `counted_directories_spin`: with directories in a shard that is otherwise empty the rounds do not end.
-/

import Mathlib.Algebra.Order.BigOperators.Group.Multiset
import Mathlib.Data.Nat.Cast.Basic
import UnifiedCache.Posix.ShardGc

namespace UnifiedCache.Posix

open UnifiedCache.Base

namespace Archive

variable {a a' : Archive} {c : GcConfig} {blockId : BlockId} {mtime : Int}

/-- The number of a shard's files. -/
def count (a : Archive) (c : GcConfig) (shard : ShardName) : Nat := (a.inShard c shard).length

theorem count_eq (shard : ShardName) :
    a.count c shard = ((a.blocks.map c.shardOf : List ShardName) : Multiset ShardName).count shard := by
  unfold count inShard blocks
  rw [Multiset.count_eq_card_filter_eq, Multiset.filter_coe, Multiset.coe_card, List.map_map, List.filter_map, List.length_map]
  exact congrArg List.length (List.filter_congr fun f _ => decide_eq_decide.mpr eq_comm)

theorem count_mono (h : a.blocks.Sublist a'.blocks) (shard : ShardName) : a.count c shard ≤ a'.count c shard := by
  rw [count_eq, count_eq]
  exact Multiset.count_le_of_le shard (Multiset.coe_le.mpr (h.map c.shardOf).subperm)

theorem put_blocks (a : Archive) (blockId : BlockId) (mtime : Int) :
    (a.put blockId mtime).blocks = if blockId ∈ a.blocks then a.blocks else a.blocks ++ [blockId] := by
  unfold put blocks
  dsimp only
  split
  · rw [List.map_map]
    refine List.map_congr_left fun f _ => ?_
    dsimp only [Function.comp]
    split
    · rename_i heq
      exact heq.symm
    · rfl
  · rw [List.map_append, List.map_singleton]

theorem remove_blocks (a : Archive) (blockId : BlockId) : (a.remove blockId).blocks = a.blocks.filter (· ≠ blockId) := by
  unfold remove blocks
  rw [List.filter_map]
  rfl

theorem remove_absent (h : blockId ∉ a.blocks) : a.remove blockId = a := by
  have hall : a.files.filter (fun f => f.blockId ≠ blockId) = a.files := by
    rw [List.filter_eq_self]
    exact fun f hf => decide_eq_true fun heq => h (heq ▸ List.mem_map_of_mem hf)
  obtain ⟨files, distinct⟩ := a
  exact Archive.mk.injEq .. ▸ hall

/-- All shards together. -/
theorem sum_count (a : Archive) (c : GcConfig) : (c.shards.map (a.count c)).sum = a.files.length := by
  have hshards : ∀ shard ∈ ((a.blocks.map c.shardOf : List ShardName) : Multiset ShardName), shard ∈ c.shards.toFinset := by
    intro shard hs
    obtain ⟨blockId, -, rfl⟩ := List.mem_map.mp (Multiset.mem_coe.mp hs)
    exact List.mem_toFinset.mpr (c.shardOf_mem blockId)
  have hcard := Multiset.sum_count_eq_card hshards
  rw [List.sum_toFinset _ c.shards_nodup, Multiset.coe_card, List.length_map] at hcard
  rw [← @List.length_map _ _ a.files FileInfo.blockId]
  change _ = a.blocks.length
  rw [← hcard]
  exact congrArg List.sum (List.map_congr_left fun shard _ => count_eq shard)

end Archive

/-! ## What happens beside the tasks -/

section Beside

variable {s s' : GcState} {mark : Nat} {P : Archive → Prop}

/-- A file departed, or all are left. -/
def Follows (s s' : GcState) : Prop := s.departed < s'.departed ∨ s.departed = s'.departed ∧
    s.archived.blocks.Sublist s'.archived.blocks

/-- A file has departed since `mark`, or `P` holds. -/
def Since (mark : Nat) (P : Archive → Prop) (s : GcState) : Prop := mark < s.departed ∨ P s.archived

/-- More files do not change that it holds. -/
def Stable (P : Archive → Prop) : Prop := ∀ a a' : Archive, a.blocks.Sublist a'.blocks → P a → P a'

theorem Follows.departed (h : Follows s s') : s.departed ≤ s'.departed := by
  rcases h with hlt | ⟨heq, -⟩
  · exact Nat.le_of_lt hlt
  · exact Nat.le_of_eq heq

theorem Since.follows (h : Since mark P s) (hP : Stable P) (hmark : mark ≤ s.departed) (hf : Follows s s') : Since mark P s' := by
  rcases hf with hlt | ⟨heq, hsub⟩
  · exact .inl (Nat.lt_of_le_of_lt hmark hlt)
  · exact h.imp (fun hlt => heq ▸ hlt) (hP _ _ hsub)

theorem Follows.put (s : GcState) (blockId : BlockId) (mtime : Int) {arrived : Nat} :
    Follows s { s with archived := s.archived.put blockId mtime, arrived := arrived } := by
  refine .inr ⟨rfl, ?_⟩
  rw [Archive.put_blocks]
  split
  · exact .refl _
  · exact List.sublist_append_left _ _

theorem Follows.unlink (s : GcState) (blockId : BlockId) : Follows s (s.unlink blockId) := by
  unfold GcState.unlink
  by_cases hmem : blockId ∈ s.archived.blocks
  · rw [if_pos hmem]
    exact .inl (Nat.lt_succ_self _)
  · rw [if_neg hmem, Archive.remove_absent hmem]
    exact .inr ⟨rfl, .refl _⟩

end Beside

namespace Collector

variable {c : Collector} {s s' : GcState} {archived : Archive}

/-! ## Steps -/

section Steps

variable {i : Nat} {dir : Option Directory}

theorem sample_eq_some {shards : List ShardName} (h : c.step s (.sample shards) = some s') :
    c.Sample shards ∧ s' = { s with pc := .sampling (shards.map fun shard => (shard, none)), sampledAt := s.arrived } := by
  dsimp only [step] at h
  split at h
  · obtain ⟨hsample, h⟩ := Option.ite_none_right_eq_some.mp h
    exact ⟨hsample, (Option.some.inj h).symm⟩
  · exact absurd h nofun

theorem count_eq_some (h : c.step s (.count i dir) = some s') :
    ∃ tasks shard, s.pc = .sampling tasks ∧ tasks[i]? = some (shard, none) ∧ s.archived.Shows c.toGcConfig shard dir ∧
      s' = { s with pc := .sampling (tasks.set i (shard, some (countFilesInShard dir))) } := by
  dsimp only [step] at h
  split at h
  · rename_i tasks hpc
    split at h
    · rename_i shard hi
      obtain ⟨hshows, h⟩ := Option.ite_none_right_eq_some.mp h
      exact ⟨tasks, shard, hpc, hi, hshows, (Option.some.inj h).symm⟩
    · exact absurd h nofun
  · exact absurd h nofun

theorem scan_eq_some {memory : Nat → FileInfo} (h : c.step s (.scan i memory dir) = some s') :
    ∃ tasks gcLimited shard filesToDelete, s.pc = .collecting tasks gcLimited ∧ tasks[i]? = some ⟨shard, .queued⟩ ∧
      s.archived.Shows c.toGcConfig shard dir ∧
      getOldestFiles memory dir c.posixGcRecyclePercent.toDouble c.posixGcMaxRecycleCountPerShard = some filesToDelete ∧
      s' = { s with pc := .collecting (tasks.set i ⟨shard, .removing filesToDelete filesToDelete⟩) gcLimited } := by
  dsimp only [step] at h
  split at h
  · rename_i tasks gcLimited hpc
    split at h
    · rename_i shard hi
      obtain ⟨hshows, h⟩ := Option.ite_none_right_eq_some.mp h
      obtain ⟨filesToDelete, hfiles, rfl⟩ := Option.map_eq_some_iff.mp h
      exact ⟨tasks, gcLimited, shard, filesToDelete, hpc, hi, hshows, hfiles, rfl⟩
    · exact absurd h nofun
  · exact absurd h nofun

theorem unlink_eq_some (h : c.step s (.unlink i) = some s') :
    ∃ tasks gcLimited shard filesToDelete blockId left, s.pc = .collecting tasks gcLimited ∧
      tasks[i]? = some ⟨shard, .removing filesToDelete (blockId :: left)⟩ ∧
      s' = { s.unlink blockId with pc := .collecting (tasks.set i ⟨shard, .removing filesToDelete left⟩) gcLimited } := by
  dsimp only [step] at h
  split at h
  · rename_i tasks gcLimited hpc
    split at h
    · rename_i shard filesToDelete blockId left hi
      exact ⟨tasks, gcLimited, shard, filesToDelete, blockId, left, hpc, hi, (Option.some.inj h).symm⟩
    · exact absurd h nofun
  · exact absurd h nofun

theorem finish_eq_some (h : c.step s (.finish i) = some s') :
    ∃ tasks gcLimited shard filesToDelete, s.pc = .collecting tasks gcLimited ∧
    tasks[i]? = some ⟨shard, .removing filesToDelete []⟩ ∧
      s' =
        { s with
          pc := .collecting (tasks.set i ⟨shard, .done⟩)
            (gcLimited || decide (filesToDelete.length ≥ c.posixGcMaxRecycleCountPerShard)) } := by
  dsimp only [step] at h
  split at h
  · rename_i tasks gcLimited hpc
    split at h
    · rename_i shard filesToDelete hi
      exact ⟨tasks, gcLimited, shard, filesToDelete, hpc, hi, (Option.some.inj h).symm⟩
    · exact absurd h nofun
  · exact absurd h nofun

/-- The thread itself touches no file. -/
theorem run_frame (h : c.run s = some s') : s'.archived = s.archived ∧ s'.departed = s.departed ∧ s'.arrived = s.arrived := by
  unfold Collector.run at h
  split at h
  case h_2 | h_4 =>
    obtain rfl := Option.some.inj (Option.ite_none_right_eq_some.mp h).2
    exact ⟨rfl, rfl, rfl⟩
  case h_6 | h_7 => exact absurd h nofun
  all_goals
    obtain rfl := Option.some.inj h
    exact ⟨rfl, rfl, rfl⟩

end Steps

/-! ## Files charged for rounds -/

/-- A task that will remove a file, unless one departs. -/
def Hot (c : Collector) (t : GcTask) (a : Archive) : Prop :=
  match t.pc with
  | .queued => c.threshold ≤ a.count c.toGcConfig t.shard
  | .removing _ left => ∃ blockId ∈ left.head?, blockId ∈ a.blocks
  | .done => False

/-- The rounds so far are charged to files that departed before `mark`; so is the next one, or one has departed
    since, or will because of `P`. -/
def Due (mark : Nat) (P : Archive → Prop) (s : GcState) : Prop := s.rounds + 1 ≤ 2 * mark ∨ s.rounds ≤ 2 * mark ∧ Since mark P s

def Charged (c : Collector) (s : GcState) : Prop :=
  match s.pc with
  | .sampling tasks =>
    ∃ mark ≤ s.departed, s.rounds ≤ 2 * mark ∧
      ∀ t ∈ tasks, t.1 ∈ c.shards ∧ ∀ n ∈ t.2, Since mark (fun a => n ≤ a.count c.toGcConfig t.1) s
  | .decided true => ∃ mark ≤ s.departed, Due mark (fun a => ∃ shard ∈ c.shards, c.threshold ≤ a.count c.toGcConfig shard) s
  | .collecting tasks gcLimited =>
    ∃ mark ≤ s.departed, Due mark (fun a => ∃ t ∈ tasks, c.Hot t a) s ∧ (gcLimited = true → mark < s.departed) ∧
      ∀ t ∈ tasks, ∀ filesToDelete left, t.pc = .removing filesToDelete left → filesToDelete ≠ [] → Since mark (c.Hot t) s
  | _ => s.rounds ≤ 2 * s.departed

theorem hot_stable (t : GcTask) : Stable (c.Hot t) := by
  intro a a' hsub hhot
  obtain ⟨shard, pc⟩ := t
  cases pc with
  | queued => exact Nat.le_trans hhot (Archive.count_mono hsub shard)
  | removing filesToDelete left =>
    obtain ⟨blockId, hhead, hmem⟩ := hhot
    exact ⟨blockId, hhead, hsub.subset hmem⟩
  | done => exact hhot

theorem Due.follows {mark : Nat} {P : Archive → Prop} (h : Due mark P s) (hP : Stable P) (hmark : mark ≤ s.departed)
    (hf : Follows s s')
    (hrounds : s'.rounds = s.rounds) : Due mark P s' := by
  unfold Due
  rw [hrounds]
  exact h.imp_right fun ⟨hle, hsince⟩ => ⟨hle, hsince.follows hP hmark hf⟩

/-- Files that come and go beside the collector. -/
theorem Charged.follows (h : c.Charged s) (hf : Follows s s') (hpc : s'.pc = s.pc) (hrounds : s'.rounds = s.rounds) :
    c.Charged s' := by
  have hdeparted := hf.departed
  unfold Charged at h ⊢
  rw [hpc]
  split at h
  · obtain ⟨mark, hmark, hle, htasks⟩ := h
    refine ⟨mark, Nat.le_trans hmark hdeparted, hrounds ▸ hle, fun t ht => ⟨(htasks t ht).1, fun n hn => ?_⟩⟩
    exact ((htasks t ht).2 n hn).follows (fun a a' hsub hle => Nat.le_trans hle (Archive.count_mono hsub _)) hmark hf
  · obtain ⟨mark, hmark, hdue⟩ := h
    refine ⟨mark, Nat.le_trans hmark hdeparted, hdue.follows (fun a a' hsub => ?_) hmark hf hrounds⟩
    rintro ⟨shard, hshard, hle⟩
    exact ⟨shard, hshard, Nat.le_trans hle (Archive.count_mono hsub shard)⟩
  · obtain ⟨mark, hmark, hdue, hlimited, htasks⟩ := h
    refine ⟨mark, Nat.le_trans hmark hdeparted, hdue.follows (fun a a' hsub => ?_) hmark hf hrounds, fun hl => ?_,
      fun t ht files left hpc hne => ?_⟩
    · rintro ⟨t, ht, hhot⟩
      exact ⟨t, ht, hot_stable t a a' hsub hhot⟩
    · exact Nat.lt_of_lt_of_le (hlimited hl) hdeparted
    · exact (htasks t ht files left hpc hne).follows (hot_stable t) hmark hf
  · rw [hrounds]
    exact Nat.le_trans h (Nat.mul_le_mul_left 2 hdeparted)

theorem threshold_pos (c : Collector) : 0 < c.threshold := by
  by_contra hzero
  have hrecycles := c.recycles
  unfold GcConfig.recycleNum at hrecycles
  rw [Nat.eq_zero_of_not_pos hzero] at hrecycles
  have hle := recycleShare_le (n := 0) (by decide) c.posixGcRecyclePercent
  omega

/-- An average at the threshold has a task that counted as much. -/
theorem exists_counted {tasks : List (ShardName × Option Nat)} (hall : tasks.all (·.2.isSome) = true)
    (h : sampledFiles tasks / tasks.length ≥ c.threshold) : ∃ t ∈ tasks, ∃ n ∈ t.2, c.threshold ≤ n := by
  by_contra hnone
  have hle : ∀ n ∈ tasks.map (fun t => t.2.getD 0), n ≤ c.threshold - 1 := by
    intro n hn
    obtain ⟨t, ht, rfl⟩ := List.mem_map.mp hn
    obtain ⟨n, hn⟩ := Option.isSome_iff_exists.mp (List.all_eq_true.mp hall t ht)
    rw [hn, Option.getD_some]
    by_contra hlt
    exact hnone ⟨t, ht, n, hn, by omega⟩
  have hsum := List.sum_le_card_nsmul _ _ hle
  rw [List.length_map, nsmul_eq_mul, Nat.cast_id] at hsum
  have havg := Nat.div_le_of_le_mul hsum
  have hpos := c.threshold_pos
  unfold sampledFiles at h
  omega

theorem Charged.rounds (h : c.Charged s) : s.rounds ≤ 2 * s.departed := by
  unfold Charged at h
  split at h
  · obtain ⟨mark, hmark, hle, -⟩ := h
    omega
  · obtain ⟨mark, hmark, hdue⟩ := h
    rcases hdue with hle | ⟨hle, -⟩ <;> omega
  · obtain ⟨mark, hmark, hdue, -⟩ := h
    rcases hdue with hle | ⟨hle, -⟩ <;> omega
  · exact h

theorem Charged.run (h : c.Charged s) (hstep : c.step s .run = some s') : c.Charged s' := by
  change c.run s = some s' at hstep
  have hrounds := h.rounds
  unfold Collector.run at hstep
  cases hpc : s.pc with
  | head =>
    rw [hpc] at hstep
    obtain rfl := Option.some.inj hstep
    cases s.stop <;> exact hrounds
  | ask | ended =>
    rw [hpc] at hstep
    exact absurd hstep nofun
  | waiting =>
    rw [hpc] at hstep
    obtain rfl := Option.some.inj hstep
    cases s.stop <;> exact hrounds
  | sampling tasks =>
    rw [hpc] at hstep
    obtain ⟨hall, hstep⟩ := Option.ite_none_right_eq_some.mp hstep
    obtain rfl := Option.some.inj hstep
    by_cases htrigger : sampledFiles tasks / tasks.length ≥ c.threshold
    · rw [decide_eq_true htrigger]
      unfold Charged at h
      rw [hpc] at h
      obtain ⟨mark, hmark, hle, htasks⟩ := h
      obtain ⟨t, ht, n, hn, hthreshold⟩ := exists_counted hall htrigger
      obtain ⟨hshard, hsince⟩ := htasks t ht
      exact ⟨mark, hmark, .inr ⟨hle, Or.imp_right (fun hcount => ⟨t.1, hshard, Nat.le_trans hthreshold hcount⟩) (hsince n hn)⟩⟩
    · rw [decide_eq_false htrigger]
      exact hrounds
  | decided trigger =>
    rw [hpc] at hstep
    obtain rfl := Option.some.inj hstep
    cases hgo : !s.stop && trigger with
    | false => exact hrounds
    | true =>
      obtain rfl := (Bool.and_eq_true_iff.mp hgo).2
      unfold Charged at h
      rw [hpc] at h
      obtain ⟨mark, hmark, hdue⟩ := h
      refine ⟨mark, hmark, ?_, nofun, fun t ht files left hremoving => ?_⟩
      · refine hdue.imp_right fun ⟨hle, hsince⟩ => ⟨hle, Or.imp_right (fun hcount => ?_) hsince⟩
        obtain ⟨shard, hshard, hcount⟩ := hcount
        exact ⟨⟨shard, .queued⟩, List.mem_map_of_mem hshard, hcount⟩
      · obtain ⟨shard, -, rfl⟩ := List.mem_map.mp ht
        exact absurd hremoving nofun
  | collecting tasks gcLimited =>
    rw [hpc] at hstep
    obtain ⟨hall, hstep⟩ := Option.ite_none_right_eq_some.mp hstep
    obtain rfl := Option.some.inj hstep
    unfold Charged at h
    rw [hpc] at h
    obtain ⟨mark, hmark, hdue, hlimited, -⟩ := h
    cases gcLimited with
    | true =>
      -- the next round is charged to what this one removed
      have hlt := hlimited rfl
      refine ⟨s.departed, Nat.le_refl _, .inl ?_⟩
      rcases hdue with hle | ⟨hle, -⟩
      · dsimp only
        omega
      · dsimp only
        omega
    | false =>
      change s.rounds + 1 ≤ 2 * s.departed
      rcases hdue with hle | ⟨hle, hlt | ⟨t, ht, hhot⟩⟩
      · omega
      · omega
      · have hdone := of_decide_eq_true (List.all_eq_true.mp hall t ht)
        unfold Hot at hhot
        rw [hdone] at hhot
        exact hhot.elim

theorem Charged.sample (h : c.Charged s) {shards : List ShardName} (hstep : c.step s (.sample shards) = some s') :
    c.Charged s' := by
  obtain ⟨hsample, rfl⟩ := sample_eq_some hstep
  refine ⟨s.departed, Nat.le_refl _, h.rounds, fun t ht => ?_⟩
  obtain ⟨shard, hshard, rfl⟩ := List.mem_map.mp ht
  exact ⟨hsample.mem hshard, nofun⟩

theorem Charged.count (h : c.Charged s) {i : Nat} {dir : Option Directory} (hread : Readable dir)
    (hstep : c.step s (.count i dir) = some s') :
    c.Charged s' := by
  obtain ⟨tasks, shard, hpc, hi, hshows, rfl⟩ := count_eq_some hstep
  unfold Charged at h
  rw [hpc] at h
  obtain ⟨mark, hmark, hle, htasks⟩ := h
  refine ⟨mark, hmark, hle, fun t ht => ?_⟩
  rcases List.mem_or_eq_of_mem_set ht with hold | rfl
  · exact htasks t hold
  · refine ⟨(htasks _ (List.mem_of_getElem? hi)).1, fun n hn => .inr ?_⟩
    obtain rfl := Option.some.inj hn
    exact Nat.le_of_eq (countFilesInShard_eq hshows hread)

/-- A task in a round goes on: it keeps hot, or a file departed. -/
theorem Charged.set {tasks : List GcTask} {gcLimited gcLimited' : Bool} {i : Nat} {t t' : GcTask} (h : c.Charged s)
    (hpc : s.pc = .collecting tasks gcLimited) (hi : tasks[i]? = some t)
    (hhot : ∀ mark, Since mark (c.Hot t) s → Since mark (c.Hot t') s)
    (hremoving : ∀ filesToDelete left, t'.pc = .removing filesToDelete left → filesToDelete ≠ [] → ∀ mark,
      (∀ filesToDelete' left', t.pc = .removing filesToDelete' left' → filesToDelete' ≠ [] → Since mark (c.Hot t) s) →
      Since mark (c.Hot t') s)
    (hlimited : ∀ mark, (∀ filesToDelete left, t.pc = .removing filesToDelete left → filesToDelete ≠ [] →
      Since mark (c.Hot t) s) →
      gcLimited' = true → gcLimited = true ∨ mark < s.departed) :
    c.Charged { s with pc := .collecting (tasks.set i t') gcLimited' } := by
  unfold Charged at h
  rw [hpc] at h
  obtain ⟨mark, hmark, hdue, hwas, htasks⟩ := h
  have hmem := List.mem_of_getElem? hi
  have hset : t' ∈ tasks.set i t' := List.mem_set (List.getElem?_eq_some_iff.mp hi).1 t'
  have hsome : Since mark (fun a => ∃ u ∈ tasks, c.Hot u a) s → Since mark (fun a => ∃ u ∈ tasks.set i t', c.Hot u a) s := by
    rintro (hlt | ⟨u, hu, huhot⟩)
    · exact .inl hlt
    · by_cases heq : u = t
      · subst heq
        exact Or.imp_right (fun hnew => ⟨t', hset, hnew⟩) (hhot mark (.inr huhot))
      · obtain ⟨j, hj⟩ := List.mem_iff_getElem?.mp hu
        have hji : i ≠ j := fun hij => heq (Option.some.inj (hj.symm.trans (hij ▸ hi)))
        exact .inr ⟨u, List.mem_of_getElem? ((List.getElem?_set_ne hji).trans hj), huhot⟩
  refine ⟨mark, hmark, hdue.imp_right fun ⟨hle, hsince⟩ => ⟨hle, hsome hsince⟩, fun hl => ?_, fun u hu files left hupc hne => ?_⟩
  · rcases hlimited mark (htasks t hmem) hl with hl | hlt
    · exact hwas hl
    · exact hlt
  · rcases List.mem_or_eq_of_mem_set hu with hold | rfl
    · exact htasks u hold files left hupc hne
    · exact hremoving files left hupc hne mark (htasks t hmem)

theorem Charged.scan (h : c.Charged s) (hmax : c.posixGcMaxRecycleCountPerShard < 2 ^ 31) {i : Nat} {memory : Nat → FileInfo}
    {dir : Option Directory}
    (hread : Readable dir) (hstep : c.step s (.scan i memory dir) = some s') : c.Charged s' := by
  obtain ⟨tasks, gcLimited, shard, filesToDelete, hpc, hi, hshows, hfiles, rfl⟩ := scan_eq_some hstep
  obtain ⟨hthere, hsome⟩ := getOldestFiles_spec hmax hshows hread hfiles
  -- the first file to delete is there
  have hhead : filesToDelete ≠ [] → c.Hot ⟨shard, .removing filesToDelete filesToDelete⟩ s.archived := by
    intro hne
    obtain ⟨blockId, rest, rfl⟩ := List.exists_cons_of_ne_nil hne
    exact ⟨blockId, rfl, hthere blockId List.mem_cons_self⟩
  refine h.set hpc hi (fun mark => Or.imp_right fun hqueued => hhead (hsome hqueued)) (fun files left hremoving hne mark _ => ?_)
    fun mark _ hl => .inl hl
  obtain ⟨rfl, -⟩ := GcPc.removing.inj hremoving
  exact .inr (hhead hne)

theorem Charged.unlink (h : c.Charged s) {i : Nat} (hstep : c.step s (.unlink i) = some s') : c.Charged s' := by
  obtain ⟨tasks, gcLimited, shard, filesToDelete, blockId, left, hpc, hi, rfl⟩ := unlink_eq_some hstep
  have hnext := h.follows (.unlink s blockId) rfl rfl
  have hgone : blockId ∉ (s.unlink blockId).archived.blocks := by
    change blockId ∉ (s.archived.remove blockId).blocks
    rw [Archive.remove_blocks, List.mem_filter]
    exact fun ⟨_, hne⟩ => of_decide_eq_true hne rfl
  -- the task's file is gone, so that one has departed
  have hcold : ∀ {mark P}, Since mark (c.Hot ⟨shard, .removing filesToDelete (blockId :: left)⟩) (s.unlink blockId) →
      Since mark P (s.unlink blockId) := by
    rintro mark P (hlt | ⟨b, hb, hmem⟩)
    · exact .inl hlt
    · obtain rfl := Option.some.inj hb
      exact absurd hmem hgone
  refine hnext.set hpc hi (fun mark hsince => hcold hsince) (fun files rest hremoving hne mark hwas => ?_)
    fun mark _ hl => .inl hl
  obtain ⟨rfl, -⟩ := GcPc.removing.inj hremoving
  exact hcold (hwas _ _ rfl hne)

theorem Charged.finish (h : c.Charged s) {i : Nat} (hstep : c.step s (.finish i) = some s') : c.Charged s' := by
  obtain ⟨tasks, gcLimited, shard, filesToDelete, hpc, hi, rfl⟩ := finish_eq_some hstep
  refine h.set hpc hi (fun mark hsince => ?_) (fun files left hremoving => absurd hremoving nofun) fun mark hwas hl => ?_
  · rcases hsince with hlt | ⟨b, hb, -⟩
    · exact .inl hlt
    · exact absurd hb nofun
  · rcases Bool.or_eq_true_iff.mp hl with hl | hl
    · exact .inl hl
    · have hlimit := Nat.lt_of_lt_of_le c.maxRecycle_pos (of_decide_eq_true hl)
      rcases hwas filesToDelete [] rfl (List.ne_nil_of_length_pos hlimit) with hlt | ⟨b, hb, -⟩
      · exact .inr hlt
      · exact absurd hb nofun

theorem reach_charged (hmax : c.posixGcMaxRecycleCountPerShard < 2 ^ 31) (h : Reach (c.sys archived) Sound s) : c.Charged s := by
  refine h.inv (fun s hs => ?_) fun s a s' hi hsound hstep => ?_
  · obtain rfl := hs
    exact Nat.zero_le _
  · cases a with
    | archive blockId mtime =>
      obtain rfl := Option.some.inj hstep
      exact hi.follows (.put s blockId mtime) rfl rfl
    | remove blockId =>
      obtain rfl := Option.some.inj hstep
      exact hi.follows (.unlink s blockId) rfl rfl
    | stop =>
      obtain rfl := Option.some.inj hstep
      exact hi.follows (.inr ⟨rfl, .refl _⟩) rfl rfl
    | run => exact hi.run hstep
    | sample shards => exact hi.sample hstep
    | count i dir => exact hi.count hsound hstep
    | scan i memory dir => exact hi.scan hmax hsound hstep
    | unlink i => exact hi.unlink hstep
    | finish i => exact hi.finish hstep

/-! ## Files that come and go -/

/-- One file less is left, if it was there. -/
theorem unlink_conserves (s : GcState) (blockId : BlockId) :
    (s.unlink blockId).departed + (s.unlink blockId).archived.files.length = s.departed + s.archived.files.length := by
  have hlength : ∀ a : Archive, a.files.length = a.blocks.length := fun a => (List.length_map _).symm
  rw [hlength, hlength]
  by_cases hmem : blockId ∈ s.archived.blocks
  · have hnodup : s.archived.blocks.Nodup := s.archived.distinct
    have hpos := List.length_pos_of_mem hmem
    have hless := List.length_erase_of_mem hmem
    rw [hnodup.erase_eq_filter] at hless
    have hone : (s.unlink blockId).departed = s.departed + 1 := if_pos hmem
    have hrest : (s.unlink blockId).archived.blocks.length = s.archived.blocks.length - 1 := by
      rw [← hless]
      change (s.archived.remove blockId).blocks.length = _
      rw [Archive.remove_blocks]
      exact congrArg List.length (List.filter_congr fun b _ => decide_not.trans (congrArg not (beq_eq_decide b blockId).symm))
    omega
  · unfold GcState.unlink
    rw [if_neg hmem, Archive.remove_absent hmem]

theorem put_length (a : Archive) (blockId : BlockId) (mtime : Int) :
    (a.put blockId mtime).files.length = if blockId ∈ a.blocks then a.files.length else a.files.length + 1 := by
  have hlength : ∀ a : Archive, a.files.length = a.blocks.length := fun a => (List.length_map _).symm
  rw [hlength, hlength, Archive.put_blocks]
  split
  · rfl
  · rw [List.length_append, List.length_singleton]

theorem reach_conserves (h : Reach (c.sys archived) Sound s) : s.departed + s.archived.files.length = archived.files.length +
    s.arrived := by
  refine h.inv (I := fun s => s.departed + s.archived.files.length = archived.files.length + s.arrived)
    (fun s hs => ?_) fun s a s' hi _ hstep => ?_
  · obtain rfl := hs
    exact Nat.add_comm _ _
  · cases a with
    | archive blockId mtime =>
      obtain rfl := Option.some.inj hstep
      dsimp only
      rw [put_length]
      split <;> omega
    | remove blockId =>
      obtain rfl := Option.some.inj hstep
      rw [unlink_conserves, hi]
      rfl
    | unlink i =>
      obtain ⟨_, _, _, _, blockId, _, -, -, rfl⟩ := unlink_eq_some (c := c) hstep
      exact (unlink_conserves s blockId).trans hi
    | stop =>
      obtain rfl := Option.some.inj hstep
      exact hi
    | run =>
      obtain ⟨harchived, hdeparted, harrived⟩ := run_frame hstep
      rw [harchived, hdeparted, harrived, hi]
    | sample shards =>
      obtain ⟨-, rfl⟩ := sample_eq_some hstep
      exact hi
    | count i dir =>
      obtain ⟨_, _, -, -, -, rfl⟩ := count_eq_some hstep
      exact hi
    | scan i memory dir =>
      obtain ⟨_, _, _, _, -, -, -, -, rfl⟩ := scan_eq_some hstep
      exact hi
    | finish i =>
      obtain ⟨_, _, _, _, -, -, rfl⟩ := finish_eq_some hstep
      exact hi

/-! ## What a sample says -/

/-- Unless files have arrived since, no shard of the sample has more than was counted. -/
def Counted (c : Collector) (s : GcState) : Prop :=
  s.sampledAt ≤ s.arrived ∧
    match s.pc with
    | .sampling tasks =>
      c.Sample (tasks.map Prod.fst) ∧ (s.arrived = s.sampledAt → ∀ t ∈ tasks, ∀ n ∈ t.2, s.archived.count c.toGcConfig t.1 ≤ n)
    | .decided false => ∃ l, c.Sample l ∧
        (s.arrived = s.sampledAt → (l.map (s.archived.count c.toGcConfig)).sum < c.threshold * l.length)
    | _ => True

theorem Counted.beside (h : c.Counted s) (hpc : s'.pc = s.pc) (hsampled : s'.sampledAt = s.sampledAt)
    (harrived : s.arrived ≤ s'.arrived)
    (hcount : s'.arrived = s.arrived → ∀ shard, s'.archived.count c.toGcConfig shard ≤ s.archived.count c.toGcConfig shard) :
    c.Counted s' := by
  obtain ⟨hle, h⟩ := h
  refine ⟨by omega, ?_⟩
  rw [hpc]
  split at h
  · obtain ⟨hsample, htasks⟩ := h
    refine ⟨hsample, fun hquiet t ht n hn => ?_⟩
    exact Nat.le_trans (hcount (by omega) t.1) (htasks (by omega) t ht n hn)
  · obtain ⟨l, hsample, hsum⟩ := h
    refine ⟨l, hsample, fun hquiet => ?_⟩
    exact Nat.lt_of_le_of_lt (List.sum_le_sum fun shard _ => hcount (by omega) shard) (hsum (by omega))
  · trivial

theorem unlink_count (s : GcState) (blockId : BlockId) (shard : ShardName) :
    (s.unlink blockId).archived.count c.toGcConfig shard ≤ s.archived.count c.toGcConfig shard := by
  refine Archive.count_mono ?_ shard
  change (s.archived.remove blockId).blocks.Sublist _
  rw [Archive.remove_blocks]
  exact List.filter_sublist

theorem Counted.run (h : c.Counted s) (hstep : c.step s .run = some s') : c.Counted s' := by
  change c.run s = some s' at hstep
  obtain ⟨hle, h⟩ := h
  unfold Collector.run at hstep
  cases hpc : s.pc with
  | head =>
    rw [hpc] at hstep
    obtain rfl := Option.some.inj hstep
    refine ⟨hle, ?_⟩
    cases s.stop <;> trivial
  | ask | ended =>
    rw [hpc] at hstep
    exact absurd hstep nofun
  | waiting =>
    rw [hpc] at hstep
    obtain rfl := Option.some.inj hstep
    refine ⟨hle, ?_⟩
    cases s.stop <;> trivial
  | sampling tasks =>
    rw [hpc] at hstep h
    obtain ⟨hall, hstep⟩ := Option.ite_none_right_eq_some.mp hstep
    obtain rfl := Option.some.inj hstep
    refine ⟨hle, ?_⟩
    by_cases htrigger : sampledFiles tasks / tasks.length ≥ c.threshold
    · rw [decide_eq_true htrigger]
      trivial
    · rw [decide_eq_false htrigger]
      obtain ⟨hsample, htasks⟩ := h
      refine ⟨tasks.map Prod.fst, hsample, fun hquiet => ?_⟩
      have hpos := hsample.length_pos
      rw [List.length_map] at hpos ⊢
      have hsum := (Nat.div_lt_iff_lt_mul hpos).mp (Nat.lt_of_not_le htrigger)
      refine Nat.lt_of_le_of_lt ?_ hsum
      rw [List.map_map]
      refine List.sum_le_sum fun t ht => ?_
      obtain ⟨n, hn⟩ := Option.isSome_iff_exists.mp (List.all_eq_true.mp hall t ht)
      rw [hn, Option.getD_some]
      exact htasks hquiet t ht n hn
  | decided trigger =>
    rw [hpc] at hstep
    obtain rfl := Option.some.inj hstep
    refine ⟨hle, ?_⟩
    cases !s.stop && trigger <;> trivial
  | collecting tasks gcLimited =>
    rw [hpc] at hstep
    obtain ⟨-, hstep⟩ := Option.ite_none_right_eq_some.mp hstep
    obtain rfl := Option.some.inj hstep
    refine ⟨hle, ?_⟩
    cases gcLimited <;> trivial

theorem Counted.sample {shards : List ShardName} (hstep : c.step s (.sample shards) = some s') : c.Counted s' := by
  obtain ⟨hsample, rfl⟩ := sample_eq_some hstep
  refine ⟨Nat.le_refl _, ?_, fun _ t ht => ?_⟩
  · rw [List.map_map]
    exact (List.map_id shards).symm ▸ hsample
  · obtain ⟨shard, -, rfl⟩ := List.mem_map.mp ht
    exact nofun

theorem Counted.count (h : c.Counted s) {i : Nat} {dir : Option Directory} (hread : Readable dir)
    (hstep : c.step s (.count i dir) = some s') :
    c.Counted s' := by
  obtain ⟨tasks, shard, hpc, hi, hshows, rfl⟩ := count_eq_some hstep
  obtain ⟨hle, h⟩ := h
  rw [hpc] at h
  obtain ⟨hsample, htasks⟩ := h
  refine ⟨hle, ?_, fun hquiet t ht n hn => ?_⟩
  · obtain ⟨hlt, hget⟩ := List.getElem?_eq_some_iff.mp hi
    have hlt : i < (tasks.map Prod.fst).length := by rwa [List.length_map]
    have hsame : (tasks.map Prod.fst)[i] = shard := by rw [List.getElem_map, hget]
    rw [List.map_set, ← hsame, List.set_getElem_self]
    exact hsample
  · rcases List.mem_or_eq_of_mem_set ht with hold | rfl
    · exact htasks hquiet t hold n hn
    · obtain rfl := Option.some.inj hn
      exact Nat.le_of_eq (countFilesInShard_eq hshows hread).symm

theorem reach_counted (h : Reach (c.sys archived) Sound s) : c.Counted s := by
  refine h.inv (fun s hs => ?_) fun s a s' hi hsound hstep => ?_
  · obtain rfl := hs
    exact ⟨Nat.le_refl _, trivial⟩
  · cases a with
    | archive blockId mtime =>
      obtain rfl := Option.some.inj hstep
      refine hi.beside rfl rfl ?_ fun heq shard => ?_
      · dsimp only
        split <;> omega
      · dsimp only at heq
        by_cases hmem : blockId ∈ s.archived.blocks
        · refine Archive.count_mono ?_ shard
          rw [Archive.put_blocks, if_pos hmem]
        · rw [if_neg hmem] at heq
          omega
    | remove blockId =>
      obtain rfl := Option.some.inj hstep
      exact hi.beside rfl rfl (Nat.le_refl _) fun _ => unlink_count s blockId
    | stop =>
      obtain rfl := Option.some.inj hstep
      exact hi.beside rfl rfl (Nat.le_refl _) fun _ _ => Nat.le_refl _
    | run => exact hi.run hstep
    | sample shards => exact .sample hstep
    | count i dir => exact hi.count hsound hstep
    | scan i memory dir =>
      obtain ⟨_, _, _, _, -, -, -, -, rfl⟩ := scan_eq_some hstep
      exact ⟨hi.1, trivial⟩
    | unlink i =>
      obtain ⟨_, _, _, _, _, _, -, -, rfl⟩ := unlink_eq_some (c := c) hstep
      exact ⟨hi.1, trivial⟩
    | finish i =>
      obtain ⟨_, _, _, _, -, -, rfl⟩ := finish_eq_some hstep
      exact ⟨hi.1, trivial⟩

/-- The threshold of all shards stays below the capacity, if its files are few enough to be exact as doubles. -/
theorem threshold_le (hfew : c.maxFileCount < 2 ^ 53) : c.threshold * c.shards.length ≤ c.maxFileCount := by
  have hshare := recycleShare_le (Nat.lt_of_le_of_lt (Nat.div_le_self _ _) hfew) c.posixGcTriggerThresholdRatio
      (n := c.maxFileCount / c.shards.length)
  exact Nat.le_trans (Nat.mul_le_mul_right _ hshare) (Nat.div_mul_le_self _ _)

theorem maxFileCount_le (c : Collector) : c.maxFileCount * c.blockSize ≤ c.posixCapacityGb * 2 ^ 30 :=
  Nat.le_trans (Nat.div_mul_le_self _ _) (Nat.mod_le _ _)

end Collector

section Results

variable {c : Collector} {archived : Archive} {s : GcState}

section Sample

/-- One shard, and room for two files; half of the files are recycled where there are two. -/
def oneShard : Collector where
  dataDirShardBytes := 0
  posixCapacityGb := 1
  blockSize := 2 ^ 29
  posixGcRecyclePercent := ⟨1, 1, allOfThem.bits, Nat.zero_lt_one, by decide⟩
  posixGcTriggerThresholdRatio := allOfThem
  posixGcMaxRecycleCountPerShard := 5
  posixGcShardSampleRatio := allOfThem
  dataDirShardBytes_le := by decide
  blockSize_pos := by decide
  maxRecycle_pos := by decide
  recycles := by decide +kernel

def sampleEntry (blockId : BlockId) (mtime : Int) : DirEntry := ⟨dataFileName blockId, fun _ => 0, some ⟨true, mtime⟩⟩

def twoFiles : Archive := ⟨[⟨fun _ => 0, 7⟩, ⟨fun _ => 1, 3⟩], by decide +kernel⟩

/-- Both are counted, the older one is removed, and the next sample counts one. -/
def oneRound : List GcLabel :=
  let both : Option Directory := some ⟨[sampleEntry (fun _ => 1) 3, sampleEntry (fun _ => 0) 7], by decide +kernel⟩
  let one : Option Directory := some ⟨[sampleEntry (fun _ => 0) 7], List.nodup_singleton _⟩
  [.run, .sample [dataRoot], .count 0 both, .run, .run, .scan 0 blankMemory both, .unlink 0, .finish 0, .run, .sample [dataRoot],
    .count 0 one, .run]

end Sample

section Sample

/-- Two directories in the shard, and no file. -/
def twoDirectories : Option Directory :=
    some ⟨[⟨[54, 49], fun _ => 0, some ⟨false, 0⟩⟩, ⟨[54, 50], fun _ => 0, some ⟨false, 0⟩⟩], by decide⟩

/-- A sample and its round. -/
def spin : List GcLabel := [.sample [dataRoot], .count 0 twoDirectories, .run, .run, .scan 0 blankMemory twoDirectories,
    .finish 0, .run]

theorem replay_spin (rounds : Nat) : replay (oneShard.sys .empty) ⟨.empty, .ask, false, rounds, 0, 0, 0⟩ spin =
    some ⟨.empty, .ask, false, rounds + 1, 0, 0, 0⟩ := by
  have hshards : oneShard.shards = [dataRoot] := rfl
  have hsample : oneShard.Sample [dataRoot] := by decide +kernel
  have hshows : Archive.empty.Shows oneShard.toGcConfig dataRoot twoDirectories := by decide +kernel
  have hcount : countFilesInShard twoDirectories = 2 := by decide +kernel
  have hthreshold : oneShard.threshold = 2 := by decide +kernel
  have hnone : getOldestFiles blankMemory twoDirectories oneShard.posixGcRecyclePercent.toDouble
      oneShard.posixGcMaxRecycleCountPerShard = some [] := by
    decide +kernel
  have hlimit : oneShard.posixGcMaxRecycleCountPerShard ≠ 0 := by decide
  simp [spin, replay, Collector.sys, Collector.step, Collector.run, hshards, hsample, hshows, hcount, hthreshold,
    Collector.sampledFiles, hnone, hlimit]

/-- Both are counted and none is a file, so that the threshold is met and nothing is removed, again and again. -/
theorem counted_directories_spin (n : Nat) : ∃ s : GcState, Reach (oneShard.sys .empty) Any s ∧ s.rounds = n ∧
    s.departed = 0 := by
  refine ⟨⟨.empty, .ask, false, n, 0, 0, 0⟩, ?_, rfl, rfl⟩
  induction n with
  | zero => exact .step .run (.init rfl) trivial rfl
  | succ n ih => exact replay_reach spin ih (replay_spin n)

end Sample

end Results

end UnifiedCache.Posix
