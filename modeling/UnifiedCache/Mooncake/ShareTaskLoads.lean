/-
  UnifiedCache.Mooncake.ShareTaskLoads — what a load of the Mooncake store has moved when `Wait`
  returns OK, on the path of the shared buffer (see `UnifiedCache.Mooncake.ShareTasks`).

  The runs are those in which the buffer serves each block its own shard (`Orderly`), and in which no
  shard is missed without a backend. A task is over when it has been marked failed or its `Wait` has
  returned.
  - `BlocksInv`: a task has one block for each shard that it has missed so far; those whose `done`
    has not been called are counted by `remaining`.
  - `CopiedInv`: a block's `done` is called when its shard has been copied, or its task is over.
-/

import UnifiedCache.Mooncake.ShareTasks

namespace UnifiedCache.Mooncake

open UnifiedCache.Base UnifiedCache.Detail

/-! ## The steps of a block -/

section Share

variable {Byte : Type} {C : ShareConfig Byte} {s s' : Share Byte} {l : ShareLabel} {b : Nat}

/-- What a step of a block leaves as it is. -/
structure BlockFrame (b : Nat) (l : ShareLabel) (s s' : Share Byte) : Prop where
  lt : b < s.nBlock
  nBlock : s'.nBlock = s.nBlock
  scan : s'.table.scan = s.table.scan
  block : ∀ k, (s'.block k).taskHandle = (s.block k).taskHandle ∧ (s'.block k).shard = (s.block k).shard
  other : ∀ k, k ≠ b → (s'.block k).pc = (s.block k).pc
  marks : ∀ t, s.failureSet t = true → s'.failureSet t = true
  /-- A block that is done stays so. -/
  left : (s.block b).pc = .leaving ∨ (s.block b).pc = .gone → (s'.block b).pc = .leaving ∨ (s'.block b).pc = .gone
  gone : (s.block b).pc = .gone → (s'.block b).pc = .gone
  waiting : (s.block b).pc = .waiting → (s'.block b).pc = .waiting ∨ (s'.block b).pc = .leaving ∧ l.calls = false ∨ l = .take b
  /-- It leaves marked, or with its copy synchronised. -/
  leaves : (s'.block b).pc = .leaving → (s.block b).pc ≠ .leaving → l.calls = true →
    s'.failureSet (s.block b).taskHandle = true ∨ l = .copied b true ∧ (s.block b).pc = .copying
  copying : (s.block b).pc = .copying → (s'.block b).pc = .copying ∨ l = .copied b true ∨
      s'.failureSet (s.block b).taskHandle = true

theorem mark_rest (st : ShareBlockStatus) : (s.mark b st).nBlock = s.nBlock ∧ (s.mark b st).block = s.block ∧
    (s.mark b st).failureSet = s.failureSet ∧ (s.mark b st).table.scan = s.table.scan := by
  unfold Share.mark
  split <;> exact ⟨rfl, rfl, rfl, rfl⟩

theorem write_rest (o : Nat) : (s.write C b o).nBlock = s.nBlock ∧ (s.write C b o).block = s.block ∧
    (s.write C b o).failureSet = s.failureSet ∧ (s.write C b o).table.scan = s.table.scan := by
  unfold Share.write
  dsimp only
  split <;> exact ⟨rfl, rfl, rfl, rfl⟩

/-- The block comes to `pc`; its task may be marked. -/
structure Moves (b : Nat) (pc : BlockPc) (s s' : Share Byte) : Prop where
  nBlock : s'.nBlock = s.nBlock
  scan : s'.table.scan = s.table.scan
  block : ∃ load, s'.block = Function.update s.block b { s.block b with pc, load }
  marks : ∀ t, s.failureSet t = true → s'.failureSet t = true

section Moves

variable {pc : BlockPc} (s b pc)

theorem fail_marks : ∀ t, s.failureSet t = true → (s.fail b).failureSet t = true := by
  intro t h
  show Function.update s.failureSet (s.block b).taskHandle true t = true
  by_cases e : t = (s.block b).taskHandle
  · rw [e, Function.update_self]
  · rw [Function.update_of_ne e]
    exact h

theorem moves_setPc : Moves b pc s (s.setPc b pc) := ⟨rfl, rfl, ⟨_, rfl⟩, fun _ h => h⟩

theorem moves_fail : Moves b pc s ((s.fail b).setPc b pc) := ⟨rfl, rfl, ⟨_, rfl⟩, fail_marks s b⟩

theorem moves_mark (st : ShareBlockStatus) : Moves b pc s ((s.mark b st).setPc b pc) := by
  obtain ⟨h1, h2, h3, h4⟩ := mark_rest (s := s) (b := b) st
  refine ⟨h1, h4, ⟨(s.block b).load, ?_⟩, fun t h => ?_⟩
  · show Function.update (s.mark b st).block b _ = _
    rw [h2]
  · show (s.mark b st).failureSet t = true
    rw [h3]
    exact h

theorem moves_mark_fail (st : ShareBlockStatus) : Moves b pc s (((s.mark b st).fail b).setPc b pc) := by
  obtain ⟨h1, h2, h3, h4⟩ := mark_rest (s := s) (b := b) st
  refine ⟨h1, h4, ⟨(s.block b).load, ?_⟩, fun t h => ?_⟩
  · show Function.update (s.mark b st).block b { (s.mark b st).block b with pc } = _
    rw [h2]
  · apply fail_marks
    rw [h3]
    exact h

theorem mark_fail_failed (st : ShareBlockStatus) : ((s.mark b st).fail b).failureSet (s.block b).taskHandle = true := by
  show Function.update (s.mark b st).failureSet ((s.mark b st).block b).taskHandle true (s.block b).taskHandle = true
  rw [(mark_rest st).2.1, Function.update_self]

theorem moves_startLoad : Moves b .backend s (s.startLoad b) := ⟨rfl, rfl, ⟨_, rfl⟩, fun _ h => h⟩

end Moves

/-- A block that is not done goes on; it waits for no step but its first, and a copy ends as it should or marked. -/
theorem BlockFrame.goesOn {old pc : BlockPc} (hlt : b < s.nBlock) (hpc : (s.block b).pc = old) (h : Moves b pc s s')
    (hold : old ≠ .leaving ∧ old ≠ .gone) (hwaiting : old = .waiting → pc = .leaving ∧ l.calls = false ∨ l = .take b)
    (hleaves : pc = .leaving → l.calls = true → s'.failureSet (s.block b).taskHandle = true ∨ l = .copied b true ∧ old = .copying)
    (hcopying : old = .copying → pc = .leaving ∧ l.calls = true) : BlockFrame b l s s' := by
  obtain ⟨hn, hscan, ⟨load, hblock⟩, hmarks⟩ := h
  have hself : s'.block b = { s.block b with pc, load } := by rw [hblock, Function.update_self]
  have hother : ∀ k, k ≠ b → s'.block k = s.block k := fun k e => by rw [hblock, Function.update_of_ne e]
  have hne : ∀ {x : BlockPc}, (s.block b).pc = x → x = old := fun e => e.symm.trans hpc
  refine ⟨hlt, hn, hscan, fun k => ?_, fun k e => by rw [hother k e], hmarks, fun e => ?_, fun e => ?_, fun e => ?_,
    fun e _ hc => ?_, fun e => ?_⟩
  · by_cases e : k = b
    · rw [e, hself]
      exact ⟨rfl, rfl⟩
    · rw [hother k e]
      exact ⟨rfl, rfl⟩
  · rcases e with e | e
    · exact absurd (hne e).symm hold.1
    · exact absurd (hne e).symm hold.2
  · exact absurd (hne e).symm hold.2
  · rw [hself]
    exact .inr (hwaiting (hne e).symm)
  · rw [hself] at e
    rw [hpc]
    exact hleaves e hc
  · obtain ⟨h1, h2⟩ := hcopying (hne e).symm
    rcases hleaves h1 h2 with h | ⟨h, -⟩
    · exact .inr (.inr h)
    · exact .inr (.inl h)

/-- A block stays where it is. -/
theorem BlockFrame.stays (hlt : b < s.nBlock) (hn : s'.nBlock = s.nBlock) (hscan : s'.table.scan = s.table.scan)
    (hblock : ∀ k, (s'.block k).taskHandle = (s.block k).taskHandle ∧ (s'.block k).shard = (s.block k).shard ∧
      (s'.block k).pc = (s.block k).pc)
    (hmarks : s'.failureSet = s.failureSet) : BlockFrame b l s s' := by
  refine ⟨hlt, hn, hscan, fun k => ⟨(hblock k).1, (hblock k).2.1⟩, fun k _ => (hblock k).2.2, fun t h => hmarks ▸ h, ?_,
    ?_, ?_, ?_, ?_⟩
  all_goals rw [(hblock b).2.2]
  · exact id
  · exact id
  · exact .inl
  · exact fun e hne _ => absurd e hne
  · exact .inl

/-- The reader of a block is released. -/
theorem BlockFrame.released (hlt : b < s.nBlock) (hpc : (s.block b).pc = .leaving) (h : Moves b .gone s s') :
    BlockFrame b l s s' := by
  obtain ⟨hn, hscan, ⟨load, hblock⟩, hmarks⟩ := h
  have hself : s'.block b = { s.block b with pc := .gone, load } := by rw [hblock, Function.update_self]
  have hother : ∀ k, k ≠ b → s'.block k = s.block k := fun k e => by rw [hblock, Function.update_of_ne e]
  refine ⟨hlt, hn, hscan, fun k => ?_, fun k e => by rw [hother k e], hmarks, ?_, ?_, ?_, ?_, ?_⟩
  · by_cases e : k = b
    · rw [e, hself]
      exact ⟨rfl, rfl⟩
    · rw [hother k e]
      exact ⟨rfl, rfl⟩
  all_goals rw [hself, hpc]
  · exact fun _ => .inr rfl
  · nofun
  · nofun
  · nofun
  · nofun

theorem block_frame (hl : l.block = some b) (hs : shareStep C s l = some s') : BlockFrame b l s s' := by
  cases l with
  | lock _ => cases hl
  | probe _ => cases hl
  | timeout _ => cases hl
  | take k =>
    obtain rfl := Option.some.inj hl
    obtain ⟨hlt, hs⟩ := Option.ite_none_right_eq_some.mp hs
    split at hs
    · next hpc =>
      have hgo : ∀ pc s1, (pc = .leaving → s.failed k = true) → Moves k pc s s1 → BlockFrame k (.take k) s s1 := by
        intro pc s1 hfailed h
        refine .goesOn hlt hpc h ⟨nofun, nofun⟩ (fun _ => .inr rfl) (fun e _ => .inl ?_) nofun
        exact h.marks _ (hfailed e)
      split at hs
      · next hfailed =>
        obtain rfl := Option.some.inj hs
        exact hgo _ _ (fun _ => hfailed) (moves_setPc ..)
      · obtain rfl := Option.some.inj hs
        refine hgo _ _ ?_ (moves_setPc ..)
        split <;> nofun
    · next hpc =>
      obtain rfl := Option.some.inj hs
      exact .goesOn hlt hpc (moves_setPc ..) ⟨nofun, nofun⟩ nofun nofun nofun
    · cases hs
  | look k =>
    obtain rfl := Option.some.inj hl
    obtain ⟨hlt, hs⟩ := Option.ite_none_right_eq_some.mp hs
    split at hs
    · next hpc =>
      obtain rfl := Option.some.inj hs
      refine .goesOn hlt hpc (moves_setPc ..) ⟨nofun, nofun⟩ nofun ?_ nofun
      split <;> nofun
    · next hpc =>
      obtain rfl := Option.some.inj hs
      refine .goesOn hlt hpc (moves_setPc ..) ⟨nofun, nofun⟩ nofun ?_ nofun
      split <;> nofun
    · next hpc =>
      obtain rfl := Option.some.inj hs
      refine .goesOn hlt hpc (moves_setPc ..) ⟨nofun, nofun⟩ nofun ?_ nofun
      split <;> nofun
    · cases hs
  | lockSlot k =>
    obtain rfl := Option.some.inj hl
    obtain ⟨hlt, hs⟩ := Option.ite_none_right_eq_some.mp hs
    split at hs
    · next hpc =>
      split at hs
      all_goals obtain rfl := Option.some.inj hs
      · exact .goesOn hlt hpc (moves_mark ..) ⟨nofun, nofun⟩ nofun nofun nofun
      · exact .goesOn hlt hpc (moves_setPc ..) ⟨nofun, nofun⟩ nofun nofun nofun
    · cases hs
  | handle k ok =>
    obtain rfl := Option.some.inj hl
    obtain ⟨hlt, hs⟩ := Option.ite_none_right_eq_some.mp hs
    split at hs
    · next again st hpc =>
      obtain rfl := Option.some.inj hs
      have hgo : ∀ pc s1, (pc = .leaving → s1.failureSet (s.block k).taskHandle = true) → Moves k pc s s1 →
          BlockFrame k (.handle k ok) s s1 :=
        fun pc s1 hfailed h => .goesOn hlt hpc h ⟨nofun, nofun⟩ nofun (fun e _ => .inl (hfailed e)) nofun
      have hfail : (s.fail k).failureSet (s.block k).taskHandle = true := Function.update_self ..
      have hready : BlockFrame k (.handle k ok) s
          (if s.failed k then s.setPc k .leaving else if ok then s.setPc k .copying else (s.fail k).setPc k .leaving) := by
        split
        · next hf => exact hgo _ _ (fun _ => hf) (moves_setPc ..)
        · split
          · exact hgo .copying _ nofun (moves_setPc ..)
          · exact hgo _ _ (fun _ => hfail) (moves_fail ..)
      cases st with
      | ok => cases again <;> exact hready
      | error =>
        cases again with
        | false => exact hgo _ _ (fun _ => mark_fail_failed ..) (moves_mark_fail ..)
        | true => exact hgo _ _ (fun _ => hfail) (moves_fail ..)
      | duplicateKey =>
        cases again with
        | false =>
          show BlockFrame k _ s (if ok then s.startLoad k else ((s.mark k .failure).fail k).setPc k .leaving)
          split
          · exact hgo .backend _ nofun (moves_startLoad ..)
          · exact hgo _ _ (fun _ => mark_fail_failed ..) (moves_mark_fail ..)
        | true => exact hgo _ _ (fun _ => hfail) (moves_fail ..)
    · cases hs
  | write k o =>
    obtain rfl := Option.some.inj hl
    obtain ⟨hc, hs⟩ := Option.ite_none_right_eq_some.mp hs
    obtain rfl := Option.some.inj hs
    obtain ⟨h1, h2, h3, h4⟩ := write_rest (C := C) (s := s) (b := k) o
    exact .stays hc.1 h1 h4 (fun _ => by rw [h2]; exact ⟨rfl, rfl, rfl⟩) h3
  | endLoad k ok =>
    obtain rfl := Option.some.inj hl
    obtain ⟨hc, hs⟩ := Option.ite_none_right_eq_some.mp hs
    obtain rfl := Option.some.inj hs
    refine .stays hc.1 rfl rfl (fun k' => ?_) rfl
    dsimp only
    by_cases e : k' = k
    · rw [e, Function.update_self]
      exact ⟨rfl, rfl, rfl⟩
    · rw [Function.update_of_ne e]
      exact ⟨rfl, rfl, rfl⟩
  | complete k ok =>
    obtain rfl := Option.some.inj hl
    obtain ⟨⟨hlt, hpc⟩, hs⟩ := Option.ite_none_right_eq_some.mp hs
    have hgo : ∀ pc s1, (pc = .leaving → s1.failureSet (s.block k).taskHandle = true) → Moves k pc s s1 →
        BlockFrame k (.complete k ok) s s1 :=
      fun pc s1 hfailed h => .goesOn hlt hpc h ⟨nofun, nofun⟩ nofun (fun e _ => .inl (hfailed e)) nofun
    split at hs
    · next hf =>
      obtain rfl := Option.some.inj hs
      have hm := moves_mark s k .leaving .failure
      exact hgo _ _ (fun _ => hm.marks _ hf) hm
    · split at hs
      · obtain ⟨-, hs⟩ := Option.ite_none_right_eq_some.mp hs
        obtain rfl := Option.some.inj hs
        exact hgo .copying _ nofun (moves_mark ..)
      · obtain rfl := Option.some.inj hs
        exact hgo _ _ (fun _ => mark_fail_failed ..) (moves_mark_fail ..)
  | copied k ok =>
    obtain rfl := Option.some.inj hl
    obtain ⟨⟨hlt, hpc⟩, hs⟩ := Option.ite_none_right_eq_some.mp hs
    obtain rfl := Option.some.inj hs
    cases ok with
    | true => exact .goesOn hlt hpc (moves_setPc ..) ⟨nofun, nofun⟩ nofun (fun _ _ => .inr ⟨rfl, rfl⟩) fun _ => ⟨rfl, rfl⟩
    | false =>
      exact .goesOn hlt hpc (moves_fail ..) ⟨nofun, nofun⟩ nofun (fun _ _ => .inl (Function.update_self ..)) fun _ => ⟨rfl, rfl⟩
  | abandon k =>
    obtain rfl := Option.some.inj hl
    obtain ⟨⟨hlt, hpc⟩, hs⟩ := Option.ite_none_right_eq_some.mp hs
    obtain rfl := Option.some.inj hs
    have hgo : ∀ old, (s.block k).pc = old → old ≠ .leaving ∧ old ≠ .gone → old ≠ .copying →
        BlockFrame k (.abandon k) s (s.setPc k .leaving) :=
      fun old e hold hc => .goesOn hlt e (moves_setPc ..) hold (fun _ => .inl ⟨rfl, rfl⟩) nofun fun e' => absurd e' hc
    rcases hpc with hpc | hpc | hpc
    · exact hgo _ hpc ⟨nofun, nofun⟩ nofun
    · exact hgo _ hpc ⟨nofun, nofun⟩ nofun
    · exact hgo _ hpc ⟨nofun, nofun⟩ nofun
  | release k =>
    obtain rfl := Option.some.inj hl
    obtain ⟨⟨hlt, hpc⟩, hs⟩ := Option.ite_none_right_eq_some.mp hs
    split at hs
    all_goals
      obtain rfl := Option.some.inj hs
      exact .released hlt hpc ⟨rfl, rfl, ⟨_, rfl⟩, fun _ h => h⟩

end Share

variable {Byte : Type} {C : LoadsConfig Byte} {s s' : Loads Byte} {l : LoadsLabel} {t b o : Nat}

/-- The buffer serves each block its own shard, and without a backend the remote store gets all of the shards. -/
def OrderlyLoads (C : LoadsConfig Byte) (s : Loads Byte) : LoadsLabel → Prop
  | .lock t => ∀ i, (s.task t).pc = .making i → Orderly C.share s.view (.lock ((s.task t).shard i))
  | .block l _ => Orderly C.share s.view l
  | .get t (some hit) => C.backend = false → ∀ i, i < (s.task t).nShard → hit i = true
  | _ => True

/-- The task has been marked failed, or was waited for. -/
def Loads.Over (s : Loads Byte) (t : Nat) : Prop := s.wrapper.failureSet t = true ∨ s.wrapper.wait t = .returned

/-! ## The blocks of a task -/

/-- How many of the first shards were missed. -/
def LoadTask.misses (x : LoadTask) (i : Nat) : Nat := Nat.count (fun k => x.hit k = false) i

/-- How many blocks of the task are still to call their `done`. -/
def Loads.undone (s : Loads Byte) (t : Nat) : Nat := Nat.count (fun b => (s.share.block b).taskHandle = t ∧
    s.done b = false) s.share.nBlock

structure BlocksInv (s : Loads Byte) : Prop where
  maker : ∀ t, s.maker = some t → t < s.wrapper.nTask ∧ ∃ i c, (s.task t).pc = .making i ∧ i < (s.task t).nShard ∧
      (s.task t).hit i = false ∧
    s.share.table.scan = some c ∧ c.key = (s.task t).shard i
  task : ∀ b, b < s.share.nBlock → (s.share.block b).taskHandle < s.wrapper.nTask ∧
    ((∃ i, (s.task (s.share.block b).taskHandle).pc = .making i ∧ s.index b < i) ∨
      (s.task (s.share.block b).taskHandle).pc = .spliced)
  index : ∀ b, b < s.share.nBlock → s.index b < (s.task (s.share.block b).taskHandle).nShard ∧
    (s.task (s.share.block b).taskHandle).hit (s.index b) = false ∧
    (s.share.block b).shard = (s.task (s.share.block b).taskHandle).shard (s.index b)
  waits : ∀ b i, b < s.share.nBlock → (s.task (s.share.block b).taskHandle).pc = .making i → s.done b = false ∧
    ((s.share.block b).pc = .waiting ∨ (s.share.block b).pc = .leaving ∨ (s.share.block b).pc = .gone)
  done : ∀ b, b < s.share.nBlock → s.done b = true → (s.share.block b).pc = .leaving ∨ (s.share.block b).pc = .gone
  making : ∀ t i, t < s.wrapper.nTask → (s.task t).pc = .making i →
    i ≤ (s.task t).nShard ∧ (s.task t).remaining = (s.task t).misses (s.task t).nShard ∧ s.undone t = (s.task t).misses i
  spliced : ∀ t, t < s.wrapper.nTask → (s.task t).pc = .spliced →
    s.undone t = (s.task t).remaining ∧ (s.wrapper.counter t ≠ 0 ∨ (s.task t).remaining = 0)
  up : ∀ t, t < s.wrapper.nTask → (s.task t).pc ≠ .spliced → (s.task t).pc ≠ .left → s.wrapper.counter t ≠ 0
  called : ∀ t, s.wrapper.wait t ≠ .notCalled → t < s.wrapper.nTask
  left : ∀ t, t < s.wrapper.nTask → (s.task t).pc = .left → s.Over t ∨ ∀ i, i < (s.task t).nShard → (s.task t).hit i = true
  covered : ∀ t i, t < s.wrapper.nTask → (∃ k, (s.task t).pc = .making k) ∨ (s.task t).pc = .spliced → i < (s.task t).nShard →
    (s.task t).hit i = false → (∃ b, b < s.share.nBlock ∧ (s.share.block b).taskHandle = t ∧ s.index b = i) ∨
    ∃ k, (s.task t).pc = .making k ∧ k ≤ i

/-- The blocks of a task that is not in the wait list are not to be counted. -/
theorem undone_none (h : ∀ b, b < s.share.nBlock → (s.share.block b).taskHandle ≠ t) : s.undone t = 0 :=
  Nat.count_iff_forall_not.mpr fun b hb hc => h b hb hc.1

section Tasks

variable {x : LoadTask} {w : TaskWrapper}

/-- A task goes on. -/
theorem BlocksInv.retask (h : BlocksInv s) (hmaker : s.maker ≠ some t)
    (hn : w.nTask = s.wrapper.nTask ∨ t = s.wrapper.nTask ∧ w.nTask = s.wrapper.nTask + 1)
    (hw : (∀ t', t' ≠ t → w.counter t' = s.wrapper.counter t') ∧ w.wait = s.wrapper.wait ∧ ∀ t', s.wrapper.failureSet t' = true →
      w.failureSet t' = true)
    (hx : x.nShard = (s.task t).nShard ∧ x.shard = (s.task t).shard ∧ x.hit = (s.task t).hit ∨ ∀ b, b < s.share.nBlock →
      (s.share.block b).taskHandle ≠ t)
    (htask : ∀ b, b < s.share.nBlock → (s.share.block b).taskHandle = t → (∃ i, x.pc = .making i ∧ s.index b < i) ∨
      x.pc = .spliced)
    (hmaking : ∀ i, x.pc = .making i → i ≤ x.nShard ∧ x.remaining = x.misses x.nShard ∧ s.undone t = x.misses i ∧
      ((∃ i', (s.task t).pc = .making i') ∨ ∀ b, b < s.share.nBlock → (s.share.block b).taskHandle ≠ t))
    (hspliced : x.pc = .spliced → s.undone t = x.remaining ∧ (w.counter t ≠ 0 ∨ x.remaining = 0))
    (hup : x.pc ≠ .spliced → x.pc ≠ .left → w.counter t ≠ 0)
    (hleft : x.pc = .left → w.failureSet t = true ∨ ∀ i, i < x.nShard → x.hit i = true)
    (hcov : ∀ i, (∃ k, x.pc = .making k) ∨ x.pc = .spliced → i < x.nShard → x.hit i = false →
      (∃ b, b < s.share.nBlock ∧ (s.share.block b).taskHandle = t ∧ s.index b = i) ∨ ∃ k, x.pc = .making k ∧ k ≤ i) :
    BlocksInv { s with wrapper := w, task := Function.update s.task t x } := by
  have hself : Function.update s.task t x t = x := Function.update_self ..
  have hold : ∀ t', t' ≠ t → Function.update s.task t x t' = s.task t' := fun t' e => Function.update_of_ne e ..
  have hle : s.wrapper.nTask ≤ w.nTask := by omega
  -- the other tasks are as old as they were
  have hlt : ∀ t', t' < w.nTask → t' ≠ t → t' < s.wrapper.nTask := by
    intro t' ht' e
    omega
  refine ⟨fun t' ht' => ?_, fun b hb => ?_, fun b hb => ?_, fun b i hb hpc => ?_, h.done, fun t' i ht' hpc => ?_,
    fun t' ht' hpc => ?_,
    fun t' ht' hpc hpc' => ?_, fun t' ht' => ?_, fun t' ht' hpc => ?_, fun t' i ht' hpc hi hmiss => ?_⟩ <;> dsimp only at *
  · have e : t' ≠ t := fun e => hmaker (e ▸ ht')
    obtain ⟨hlt', hrest⟩ := h.maker t' ht'
    rw [hold t' e]
    exact ⟨lt_of_lt_of_le hlt' hle, hrest⟩
  · obtain ⟨hlt', hrest⟩ := h.task b hb
    refine ⟨lt_of_lt_of_le hlt' hle, ?_⟩
    by_cases e : (s.share.block b).taskHandle = t
    · rw [e, hself]
      exact htask b hb e
    · rw [hold _ e]
      exact hrest
  · have hi := h.index b hb
    by_cases e : (s.share.block b).taskHandle = t
    · rcases hx with ⟨h1, h2, h3⟩ | hno
      · rw [e] at hi
        rw [e, hself, h1, h2, h3]
        exact hi
      · exact absurd e (hno b hb)
    · rw [hold _ e]
      exact hi
  · by_cases e : (s.share.block b).taskHandle = t
    · rw [e, hself] at hpc
      rcases (hmaking i hpc).2.2.2 with ⟨i', hi'⟩ | hno
      · exact h.waits b i' hb (e ▸ hi')
      · exact absurd e (hno b hb)
    · rw [hold _ e] at hpc
      exact h.waits b i hb hpc
  · by_cases e : t' = t
    · subst e
      rw [hself] at hpc ⊢
      obtain ⟨h1, h2, h3, -⟩ := hmaking i hpc
      exact ⟨h1, h2, h3⟩
    · rw [hold t' e] at hpc ⊢
      exact h.making t' i (hlt t' ht' e) hpc
  · by_cases e : t' = t
    · subst e
      rw [hself] at hpc ⊢
      exact hspliced hpc
    · rw [hold t' e] at hpc ⊢
      rw [hw.1 t' e]
      exact h.spliced t' (hlt t' ht' e) hpc
  · by_cases e : t' = t
    · subst e
      rw [hself] at hpc hpc'
      exact hup hpc hpc'
    · rw [hold t' e] at hpc hpc'
      rw [hw.1 t' e]
      exact h.up t' (hlt t' ht' e) hpc hpc'
  · rw [hw.2.1] at ht'
    exact lt_of_lt_of_le (h.called t' ht') hle
  · by_cases e : t' = t
    · subst e
      rw [hself] at hpc ⊢
      exact (hleft hpc).imp .inl id
    · rw [hold t' e] at hpc ⊢
      refine (h.left t' (hlt t' ht' e) hpc).imp (fun hover => ?_) id
      rcases hover with hm | hr
      · exact .inl (hw.2.2 t' hm)
      · exact .inr (hw.2.1 ▸ hr)
  · by_cases e : t' = t
    · subst e
      rw [hself] at hpc hi hmiss ⊢
      exact hcov i hpc hi hmiss
    · rw [hold t' e] at hpc hi hmiss ⊢
      exact h.covered t' i (hlt t' ht' e) hpc hi hmiss

/-- A task that has not come to its shards, or has ended, has no blocks. -/
theorem BlocksInv.none (h : BlocksInv s) (hpc : (s.task t).pc ≠ .spliced) (hpc' : ∀ i, (s.task t).pc ≠ .making i) :
    ∀ b, b < s.share.nBlock → (s.share.block b).taskHandle ≠ t := by
  intro b hb e
  subst e
  rcases (h.task b hb).2 with ⟨i, e, -⟩ | e
  · exact hpc' i e
  · exact hpc e

/-- The data are of no account. -/
theorem BlocksInv.congr (h : BlocksInv s) {d : Nat → Nat → Nat → Byte} {m : Nat → Nat → Bool} {i : Nat → Bool} :
    BlocksInv { s with dest := d, moved := m, issued := i } :=
  ⟨h.maker, h.task, h.index, h.waits, h.done, h.making, h.spliced, h.up, h.called, h.left, h.covered⟩

theorem BlocksInv.maker_ne (h : BlocksInv s) (hpc : ∀ i, (s.task t).pc ≠ .making i) : s.maker ≠ some t := by
  intro e
  obtain ⟨-, i, -, e, -⟩ := h.maker t e
  exact hpc i e

/-- A task without blocks ends, with a mark or with nothing missed. -/
theorem BlocksInv.leave (h : BlocksInv s) (hpc : (s.task t).pc ≠ .spliced) (hpc' : ∀ i, (s.task t).pc ≠ .making i)
    (hx : x.pc = .left) (hok : w.failureSet t = true ∨ ∀ i, i < x.nShard → x.hit i = true)
    (hn : w.nTask = s.wrapper.nTask ∨ t = s.wrapper.nTask ∧ w.nTask = s.wrapper.nTask + 1)
    (hw : (∀ t', t' ≠ t → w.counter t' = s.wrapper.counter t') ∧ w.wait = s.wrapper.wait ∧ ∀ t', s.wrapper.failureSet t' = true →
      w.failureSet t' = true) :
    BlocksInv { s with wrapper := w, task := Function.update s.task t x } := by
  have hno := h.none hpc hpc'
  apply h.retask (h.maker_ne hpc') hn hw (.inr hno)
  · intro b hb e
    exact absurd e (hno b hb)
  · rw [hx]
    nofun
  · rw [hx]
    nofun
  · exact fun _ e => absurd hx e
  · exact fun _ => hok
  · rw [hx]
    rintro i (⟨k, e⟩ | e) <;> cases e

end Tasks

theorem BlocksInv.submit (h : BlocksInv s) {n : Nat} {shard : Nat → Shard} {full : Bool}
    (hs : loadsStep C s (.submit n shard full) = some s') :
    BlocksInv s' := by
  have hnew : ∀ b, b < s.share.nBlock → (s.share.block b).taskHandle ≠ s.wrapper.nTask := fun b hb => (h.task b hb).1.ne
  have hmaker : s.maker ≠ some s.wrapper.nTask := fun e => absurd (h.maker _ e).1 (lt_irrefl _)
  obtain rfl := Option.some.inj hs
  cases full with
  | true =>
    simp only [if_true, Loads.leave, Loads.setPc, Function.update_idem]
    apply h.retask hmaker (.inr ⟨rfl, by simp⟩) ⟨fun t' e => by simp [e], by simp, by simp +contextual⟩ (.inr hnew)
    · exact fun b hb e => absurd e (hnew b hb)
    · rw [Function.update_self]
      nofun
    · rw [Function.update_self]
      nofun
    · exact fun _ e => absurd rfl e
    · intro _
      left
      simp
    · rw [Function.update_self]
      rintro i (⟨k, e⟩ | e) <;> cases e
  | false =>
    simp only [Bool.false_eq_true, if_false]
    apply h.retask hmaker (.inr ⟨rfl, by simp⟩) ⟨fun t' e => by simp [e], by simp, by simp⟩ (.inr hnew)
    · exact fun b hb e => absurd e (hnew b hb)
    · nofun
    · nofun
    · intro _ _
      simp
    · nofun
    · rintro i (⟨k, e⟩ | e) <;> cases e

theorem BlocksInv.wait (h : BlocksInv s) {w : TaskWrapper} (hk : WaitKeeps false s.wrapper w) :
    BlocksInv { s with wrapper := w } := by
  have hn := hk.nTask
  have hc := hk.counter
  refine ⟨fun t ht => hn.symm ▸ h.maker t ht, fun b hb => hn.symm ▸ h.task b hb, h.index, h.waits, h.done,
    fun t i ht => h.making t i (hn ▸ ht),
    fun t ht => hc.symm ▸ h.spliced t (hn ▸ ht), fun t ht => hc.symm ▸ h.up t (hn ▸ ht), fun t ht => ?_, fun t ht hpc => ?_,
    fun t i ht => h.covered t i (hn ▸ ht)⟩
  · rcases hk.called t ht with e | e
    · exact hn.symm ▸ h.called t e
    · exact hn.symm ▸ e
  · refine (h.left t (hn ▸ ht) hpc).imp (fun hover => ?_) id
    rcases hover with hm | hr
    · rcases hk.marks t hm with e | ⟨-, e, -⟩
      · exact .inl e
      · exact .inr e
    · exact .inr (hk.kept t hr)

theorem BlocksInv.take (h : BlocksInv s) (hs : loadsStep C s (.take t) = some s') : BlocksInv s' := by
  simp only [loadsStep] at hs
  split at hs
  · next hc =>
    obtain ⟨hlt, hpc⟩ := hc
    have hne : ∀ i, (s.task t).pc ≠ .making i := by
      rw [hpc]
      nofun
    have hne' : (s.task t).pc ≠ .spliced := by
      rw [hpc]
      nofun
    split at hs
    · next hfail =>
      obtain rfl := Option.some.inj hs
      exact h.leave hne' hne rfl (.inl (by simpa using hfail)) (.inl (by simp)) ⟨fun t' e => by simp [e], by simp, by simp⟩
    · obtain rfl := Option.some.inj hs
      have hno := h.none hne' hne
      apply h.retask (h.maker_ne hne) (.inl rfl) ⟨fun _ _ => rfl, rfl, fun _ e => e⟩ (.inr hno)
      · exact fun b hb e => absurd e (hno b hb)
      · nofun
      · nofun
      · intro _ _
        apply h.up t hlt hne'
        rw [hpc]
        nofun
      · nofun
      · rintro i (⟨k, e⟩ | e) <;> cases e
  · cases hs

theorem BlocksInv.get (h : BlocksInv s) {results : Option (Nat → Bool)} (hok : OrderlyLoads C s (.get t results))
    (hs : loadsStep C s (.get t results) = some s') : BlocksInv s' := by
  simp only [loadsStep] at hs
  split at hs
  · next hc =>
    obtain ⟨hlt, hpc⟩ := hc
    have hne : ∀ i, (s.task t).pc ≠ .making i := by
      rw [hpc]
      nofun
    have hne' : (s.task t).pc ≠ .spliced := by
      rw [hpc]
      nofun
    split at hs
    · obtain rfl := Option.some.inj hs
      exact h.leave hne' hne rfl (.inl (by simp)) (.inl (by simp)) ⟨fun t' e => by simp [e], by simp, by simp +contextual⟩
    · next hit =>
      split at hs
      · next hno =>
        have hall : ∀ i, i < (s.task t).nShard → hit i = true := by
          intro i hi
          rcases hno with hz | hback
          · by_contra hmiss
            have hz : Nat.count (fun i => (Function.update s.task t { s.task t with hit } t).hit i = false)
              (Function.update s.task t { s.task t with hit } t).nShard = 0 := hz
            rw [Function.update_self] at hz
            exact not_of_tally_zero hz hi (Bool.eq_false_of_not_eq_true hmiss)
          · exact hok hback i hi
        obtain rfl := Option.some.inj hs
        simp only [Loads.leave, Loads.setPc, Function.update_idem, Function.update_self]
        exact BlocksInv.congr (h.leave hne' hne rfl (.inr hall) (.inl (by simp)) ⟨fun t' e => by simp [e], by simp, by simp⟩)
      · obtain rfl := Option.some.inj hs
        have hno := h.none hne' hne
        simp only [Loads.setPc, Function.update_idem, Function.update_self]
        apply BlocksInv.congr (s := { s with task := Function.update s.task t { s.task t with hit, pc := .missed } })
        apply h.retask (h.maker_ne hne) (.inl rfl) ⟨fun _ _ => rfl, rfl, fun _ e => e⟩ (.inr hno)
        · exact fun b hb e => absurd e (hno b hb)
        · nofun
        · nofun
        · intro _ _
          apply h.up t hlt hne'
          rw [hpc]
          nofun
        · nofun
        · rintro i (⟨k, e⟩ | e) <;> cases e
  · cases hs

theorem BlocksInv.enqueue (h : BlocksInv s) (hs : loadsStep C s (.enqueue t) = some s') : BlocksInv s' := by
  simp only [loadsStep] at hs
  split at hs
  · next hc =>
    obtain ⟨hlt, hpc⟩ := hc
    have hne : ∀ i, (s.task t).pc ≠ .making i := by
      rw [hpc]
      nofun
    have hne' : (s.task t).pc ≠ .spliced := by
      rw [hpc]
      nofun
    split at hs
    · next hfail =>
      obtain rfl := Option.some.inj hs
      exact h.leave hne' hne rfl (.inl (by simpa using hfail)) (.inl (by simp)) ⟨fun t' e => by simp [e], by simp, by simp⟩
    · obtain rfl := Option.some.inj hs
      have hno := h.none hne' hne
      apply h.retask (h.maker_ne hne) (.inl rfl) ⟨fun _ _ => rfl, rfl, fun _ e => e⟩ (.inr hno)
      · exact fun b hb e => absurd e (hno b hb)
      · intro i e
        obtain rfl := LoadPc.making.inj e
        exact ⟨Nat.zero_le _, rfl, undone_none hno, .inr hno⟩
      · nofun
      · intro _ _
        apply h.up t hlt hne'
        rw [hpc]
        nofun
      · nofun
      · intro i _ _ _
        exact .inr ⟨0, rfl, Nat.zero_le i⟩
  · cases hs

theorem BlocksInv.next (h : BlocksInv s) (hs : loadsStep C s (.next t) = some s') : BlocksInv s' := by
  simp only [loadsStep] at hs
  split at hs
  · next hlt =>
    split at hs
    · next i hpc =>
      obtain ⟨hi, hrem, hund⟩ := h.making t i hlt hpc
      have hup := h.up t hlt (by rw [hpc]; nofun) (by rw [hpc]; nofun)
      have hmaker : i < (s.task t).nShard → (s.task t).hit i = true → s.maker ≠ some t := by
        intro _ hhit e
        obtain ⟨-, i', c, e1, -, e2, -⟩ := h.maker t e
        obtain rfl := LoadPc.making.inj (hpc.symm.trans e1)
        rw [hhit] at e2
        cases e2
      have hbelow : ∀ b, b < s.share.nBlock → (s.share.block b).taskHandle = t → s.index b < i := by
        intro b hb e
        subst e
        rcases (h.task b hb).2 with ⟨i', e, hlt'⟩ | e
        · obtain rfl := LoadPc.making.inj (hpc.symm.trans e)
          exact hlt'
        · rw [hpc] at e
          cases e
      have hcov : ∀ i', i' < (s.task t).nShard → (s.task t).hit i' = false →
          (∃ b, b < s.share.nBlock ∧ (s.share.block b).taskHandle = t ∧ s.index b = i') ∨ i ≤ i' := by
        intro i' hi' hmiss
        refine (h.covered t i' hlt (.inl ⟨i, hpc⟩) hi' hmiss).imp id ?_
        rintro ⟨k, e, hk⟩
        obtain rfl := LoadPc.making.inj (hpc.symm.trans e)
        exact hk
      split at hs
      · next hlt' =>
        split at hs
        · next hhit =>
          obtain rfl := Option.some.inj hs
          have hmiss : (s.task t).misses (i + 1) = (s.task t).misses i := by
            unfold LoadTask.misses
            rw [Nat.count_succ, if_neg (by rw [hhit]; nofun), Nat.add_zero]
          apply h.retask (x := { s.task t with pc := .making (i + 1) }) (hmaker hlt' hhit) (.inl rfl) ⟨fun _ _ => rfl, rfl,
            fun _ e => e⟩ (.inl ⟨rfl, rfl, rfl⟩)
          · exact fun b hb e => .inl ⟨i + 1, rfl, Nat.lt_succ_of_lt (hbelow b hb e)⟩
          · intro i' e
            obtain rfl := LoadPc.making.inj e
            exact ⟨hlt', hrem, hund.trans hmiss.symm, .inl ⟨i, hpc⟩⟩
          · nofun
          · exact fun _ _ => hup
          · nofun
          · intro i' _ hi' hm
            refine (hcov i' hi' hm).imp id fun hle => ⟨i + 1, rfl, ?_⟩
            have hne : i ≠ i' := by
              intro e
              subst e
              rw [hhit] at hm
              cases hm
            omega
        · cases hs
      · next hge =>
        obtain rfl := Option.some.inj hs
        obtain rfl : i = (s.task t).nShard := by omega
        have hmaker' : s.maker ≠ some t := by
          intro e
          obtain ⟨-, i', c, e1, hlt', -⟩ := h.maker t e
          obtain rfl := LoadPc.making.inj (hpc.symm.trans e1)
          exact hge hlt'
        apply h.retask (x := { s.task t with pc := .spliced }) hmaker' (.inl rfl) ⟨fun _ _ => rfl, rfl, fun _ e => e⟩
          (.inl ⟨rfl, rfl, rfl⟩)
        · exact fun _ _ _ => .inr rfl
        · nofun
        · exact fun _ => ⟨hund.trans hrem.symm, .inl hup⟩
        · exact fun e => absurd rfl e
        · nofun
        · intro i' _ hi' hm
          exact .inl ((hcov i' hi' hm).resolve_right (Nat.not_le.mpr hi'))
    · cases hs
  · cases hs

/-- The buffer goes on without a block. -/
theorem BlocksInv.scan (h : BlocksInv s) {share : Share Byte} {m : Option Nat} (hb : share.block = s.share.block)
    (hn : share.nBlock = s.share.nBlock)
    (hm : ∀ t, m = some t → t < s.wrapper.nTask ∧ ∃ i c, (s.task t).pc = .making i ∧ i < (s.task t).nShard ∧
      (s.task t).hit i = false ∧
      share.table.scan = some c ∧ c.key = (s.task t).shard i) : BlocksInv { s with share, maker := m } := by
  have hund : ∀ t, Loads.undone { s with share, maker := m } t = s.undone t := by
    intro t
    unfold Loads.undone
    dsimp only
    rw [hb, hn]
  refine ⟨hm, ?_, ?_, ?_, ?_, fun t i => ?_, fun t => ?_, h.up, h.called, h.left, ?_⟩
  · rw [hn, hb]
    exact h.task
  · rw [hn, hb]
    exact h.index
  · rw [hn, hb]
    exact h.waits
  · rw [hn, hb]
    exact h.done
  · rw [hund]
    exact h.making t i
  · rw [hund]
    exact h.spliced t
  · rw [hn, hb]
    exact h.covered

theorem BlocksInv.lock (h : BlocksInv s) (hs : loadsStep C s (.lock t) = some s') : BlocksInv s' := by
  simp only [loadsStep] at hs
  split at hs
  · next hlt =>
    split at hs
    · next i hpc =>
      split at hs
      · next hi =>
        obtain ⟨share, hsh, rfl⟩ := Option.map_eq_some_iff.mp hs
        obtain ⟨table, htab, rfl⟩ := Option.map_eq_some_iff.mp hsh
        refine h.scan rfl rfl fun t' ht' => ?_
        obtain rfl := Option.some.inj ht'
        unfold Table.lock at htab
        split at htab
        · obtain rfl := Option.some.inj htab
          exact ⟨hlt, i, _, hpc, hi.1, hi.2, rfl, rfl⟩
        · cases htab
      · cases hs
    · cases hs
  · cases hs

theorem probe_key {share : ShareConfig Byte} {t t' : Table Shard ShareBlockId ShareBlockStatus} {c : Scan Shard}
    (hc : t.scan = some c)
    (h : t.probe share.probing = some (t', .goesOn)) : ∃ c', t'.scan = some c' ∧ c'.key = c.key := by
  unfold Table.probe at h
  rw [hc] at h
  dsimp only at h
  repeat' split at h
  all_goals first
    | (obtain ⟨rfl, -⟩ := Prod.mk.inj (Option.some.inj h); exact ⟨_, rfl, rfl⟩)
    | (obtain ⟨-, e⟩ := Prod.mk.inj (Option.some.inj h); cases e)

/-- The new block is the task's, for the shard that it has come to. -/
theorem BlocksInv.made (h : BlocksInv s) (hlt : t < s.wrapper.nTask) {i : Nat} (hpc : (s.task t).pc = .making i)
    (hi : i < (s.task t).nShard)
    (hmiss : (s.task t).hit i = false) {table : Table Shard ShareBlockId ShareBlockStatus} {pos : Option Nat} :
    BlocksInv (s.made t i (s.view.addBlock table t ((s.task t).shard i) pos)) := by
  -- the new block, and those before it
  have hself : (Function.update s.share.block s.share.nBlock (⟨t, (s.task t).shard i, pos, .waiting, .none⟩ : BlockTask))
      s.share.nBlock =
    ⟨t, (s.task t).shard i, pos, .waiting, .none⟩ := Function.update_self ..
  have hold : ∀ b, b < s.share.nBlock → ∀ x : BlockTask, Function.update s.share.block s.share.nBlock x b =
      s.share.block b := fun b hb x =>
    Function.update_of_ne hb.ne ..
  have hindex : ∀ b, b < s.share.nBlock → Function.update s.index s.share.nBlock i b = s.index b :=
      fun b hb => Function.update_of_ne hb.ne ..
  have hdone : ∀ b, b < s.share.nBlock → Function.update s.done s.share.nBlock false b = s.done b :=
      fun b hb => Function.update_of_ne hb.ne ..
  have hcases : ∀ b, b < s.share.nBlock + 1 → b < s.share.nBlock ∨ b = s.share.nBlock := fun b hb => by omega
  -- the tasks are as they were, but for where the dispatcher is
  have htask : ∀ t', ∃ pc, (pc = (s.task t').pc ∨ t' = t ∧ pc = .making (i + 1)) ∧
      Function.update s.task t { s.task t with pc := .making (i + 1) } t' = { s.task t' with pc } := by
    intro t'
    by_cases e : t' = t
    · rw [e, Function.update_self]
      exact ⟨_, .inr ⟨rfl, rfl⟩, rfl⟩
    · rw [Function.update_of_ne e]
      exact ⟨_, .inl rfl, rfl⟩
  have hpc' : (Function.update s.task t { s.task t with pc := .making (i + 1) } t).pc = .making (i + 1) :=
      by rw [Function.update_self]
  have hund : ∀ t', (s.made t i (s.view.addBlock table t ((s.task t).shard i) pos)).undone t' = s.undone t' + if t' = t
      then 1 else 0 := by
    intro t'
    unfold Loads.undone
    show Nat.count
        (fun b => (Function.update s.share.block s.share.nBlock (⟨t, (s.task t).shard i, pos, .waiting, .none⟩ : BlockTask)
        b).taskHandle = t' ∧
      Function.update s.done s.share.nBlock false b = false) (s.share.nBlock + 1) = _
    rw [Nat.count_succ, hself, Function.update_self]
    congr 1
    · exact tally_congr fun b hb => by rw [hold b hb, hdone b hb]
    · simp only [and_true, eq_comm]
  have hmisses : (s.task t).misses (i + 1) = (s.task t).misses i + 1 := by
    unfold LoadTask.misses
    rw [Nat.count_succ, if_pos hmiss]
  have hmaking := h.making
  have hspliced := h.spliced
  obtain ⟨-, htasks, hidx, hwaits, hdones, -, -, hup, hcalled, hleft, hcovered⟩ := h
  refine ⟨nofun, fun b hb => ?_, fun b hb => ?_, fun b k hb hk => ?_, fun b hb hd => ?_, fun t' k ht' hk => ?_,
    fun t' ht' hk => ?_,
    fun t' ht' h1 h2 => ?_, hcalled, fun t' ht' hk => ?_, fun t' k ht' hk hlt' hm => ?_⟩
  all_goals simp only [Loads.made, Loads.setPc, Loads.view, Share.addBlock] at *
  · rcases hcases b hb with hb' | rfl
    · rw [hold b hb', hindex b hb']
      obtain ⟨h1, h2⟩ := htasks b hb'
      refine ⟨h1, ?_⟩
      by_cases e : (s.share.block b).taskHandle = t
      · rw [e, hpc']
        rw [e, hpc] at h2
        rcases h2 with ⟨k, e', hk⟩ | e'
        · obtain rfl := LoadPc.making.inj e'
          exact .inl ⟨i + 1, rfl, Nat.lt_succ_of_lt hk⟩
        · cases e'
      · rw [Function.update_of_ne e]
        exact h2
    · simp only [hself, Function.update_self]
      exact ⟨hlt, .inl ⟨i + 1, rfl, Nat.lt_succ_self i⟩⟩
  · rcases hcases b hb with hb' | rfl
    · obtain ⟨pc, -, e⟩ := htask (s.share.block b).taskHandle
      rw [hold b hb', hindex b hb', e]
      exact hidx b hb'
    · rw [hself, Function.update_self, Function.update_self]
      exact ⟨hi, hmiss, rfl⟩
  · rcases hcases b hb with hb' | rfl
    · obtain ⟨pc, hpcs, e⟩ := htask (s.share.block b).taskHandle
      rw [hold b hb', e] at hk
      rw [hold b hb', hdone b hb']
      rcases hpcs with rfl | ⟨e', rfl⟩
      · exact hwaits b k hb' hk
      · exact hwaits b i hb' (e' ▸ hpc)
    · rw [hself, Function.update_self]
      exact ⟨rfl, .inl rfl⟩
  · rcases hcases b hb with hb' | rfl
    · rw [hdone b hb'] at hd
      rw [hold b hb']
      exact hdones b hb' hd
    · rw [Function.update_self] at hd
      cases hd
  · rw [hund]
    by_cases e : t' = t
    · subst e
      rw [if_pos rfl]
      rw [hpc'] at hk
      obtain rfl := LoadPc.making.inj hk
      obtain ⟨-, hrem, hu⟩ := hmaking t' i hlt hpc
      rw [Function.update_self]
      exact ⟨hi, hrem, by rw [hu]; exact hmisses.symm⟩
    · rw [if_neg e, Nat.add_zero]
      rw [Function.update_of_ne e] at hk ⊢
      exact hmaking t' k ht' hk
  · by_cases e : t' = t
    · rw [e, hpc'] at hk
      cases hk
    · rw [Function.update_of_ne e] at hk ⊢
      rw [hund, if_neg e, Nat.add_zero]
      exact hspliced t' ht' hk
  · by_cases e : t' = t
    · subst e
      apply hup t' hlt <;> rw [hpc] <;> nofun
    · rw [Function.update_of_ne e] at h1 h2
      exact hup t' ht' h1 h2
  · by_cases e : t' = t
    · subst e
      rw [hpc'] at hk
      cases hk
    · rw [Function.update_of_ne e] at hk ⊢
      exact hleft t' ht' hk
  · have hblock : ∀ t' k, (∃ b, b < s.share.nBlock ∧ (s.share.block b).taskHandle = t' ∧ s.index b = k) →
        ∃ b, b < s.share.nBlock + 1 ∧
        (Function.update s.share.block s.share.nBlock ⟨t, (s.task t).shard i, pos, .waiting, .none⟩ b).taskHandle = t' ∧
          Function.update s.index s.share.nBlock i b = k := by
      rintro t' k ⟨b, hb, h1, h2⟩
      refine ⟨b, by omega, ?_, ?_⟩
      · rw [hold b hb]
        exact h1
      · rw [hindex b hb]
        exact h2
    by_cases e : t' = t
    · subst e
      rw [Function.update_self] at hlt' hm ⊢
      rcases hcovered t' k hlt (.inl ⟨i, hpc⟩) hlt' hm with hb | ⟨i', e, hle⟩
      · exact .inl (hblock t' k hb)
      · obtain rfl := LoadPc.making.inj (hpc.symm.trans e)
        by_cases e' : i = k
        · exact .inl ⟨s.share.nBlock, Nat.lt_succ_self _, by rw [hself], by rw [Function.update_self]; exact e'⟩
        · exact .inr ⟨i + 1, rfl, by omega⟩
    · rw [Function.update_of_ne e] at hk hlt' hm ⊢
      exact (hcovered t' k ht' hk hlt' hm).imp (hblock t' k) id

theorem BlocksInv.probe (h : BlocksInv s) (hs : loadsStep C s (.probe t) = some s') : BlocksInv s' := by
  simp only [loadsStep] at hs
  split at hs
  · next ht =>
    obtain ⟨hlt, i, c, hpc, hi, hmiss, hscan, hkey⟩ := h.maker t ht
    rw [hpc] at hs
    obtain ⟨share, hsh, rfl⟩ := Option.map_eq_some_iff.mp hs
    obtain ⟨c', table, hc', hsh | ⟨p, htab, rfl⟩ | ⟨htab, rfl⟩⟩ := probe_cases hsh
    all_goals obtain rfl : c = c' := Option.some.inj (hscan.symm.trans hc')
    · obtain ⟨htab, rfl⟩ := hsh
      obtain ⟨c'', hscan', hkey'⟩ := probe_key hc' htab
      split
      · refine h.scan rfl rfl fun t' ht' => ?_
        obtain rfl := Option.some.inj (ht.symm.trans ht')
        exact ⟨hlt, i, c'', hpc, hi, hmiss, hscan', hkey'.trans hkey⟩
      · next hne => exact absurd rfl hne
    all_goals
      split
      · next e => exact absurd e (Nat.succ_ne_self _)
      · rw [hkey]
        exact h.made hlt hpc hi hmiss
  · cases hs

/-- The blocks that a step leaves where they may be, and the failure marks that it adds. -/
theorem BlocksInv.stays (h : BlocksInv s) {l : ShareLabel} {share : Share Byte} (hf : BlockFrame b l s.view share)
    (ha : s.allows C l = true) :
    BlocksInv { s with share, wrapper := { s.wrapper with failureSet := share.failureSet } } := by
  have hund : ∀ t, Loads.undone { s with share, wrapper := { s.wrapper with failureSet := share.failureSet } } t =
      s.undone t := by
    intro t
    unfold Loads.undone
    rw [show share.nBlock = s.share.nBlock from hf.nBlock]
    exact tally_congr fun k _ => by rw [show (share.block k).taskHandle = (s.share.block k).taskHandle from (hf.block k).1]
  have hn : share.nBlock = s.share.nBlock := hf.nBlock
  have hb : ∀ k, (share.block k).taskHandle = (s.share.block k).taskHandle ∧
      (share.block k).shard = (s.share.block k).shard := hf.block
  refine ⟨fun t ht => ?_, fun k hk => ?_, fun k hk => ?_, fun k i hk hpc => ?_, fun k hk hd => ?_, fun t i => ?_, fun t => ?_,
    h.up, h.called,
    fun t ht hpc => ?_, fun t i ht hpc hi hm => ?_⟩ <;> dsimp only at *
  · rw [show share.table.scan = s.share.table.scan from hf.scan]
    exact h.maker t ht
  · rw [(hb k).1]
    exact h.task k (hn ▸ hk)
  · rw [(hb k).1, (hb k).2]
    exact h.index k (hn ▸ hk)
  · rw [(hb k).1] at hpc
    obtain ⟨hd, hpck⟩ := h.waits k i (hn ▸ hk) hpc
    refine ⟨hd, ?_⟩
    by_cases e : k = b
    · subst e
      rcases hpck with e | e | e
      · rcases hf.waiting e with e' | ⟨e', -⟩ | rfl
        · exact .inl e'
        · exact .inr (.inl e')
        · -- the block is not in the wait list yet
          have hsp := of_decide_eq_true ha
          rw [hpc] at hsp
          cases hsp
      · exact .inr (hf.left (.inl e))
      · exact .inr (hf.left (.inr e))
    · rw [show (share.block k).pc = (s.share.block k).pc from hf.other k e]
      exact hpck
  · have hpck := h.done k (hn ▸ hk) hd
    by_cases e : k = b
    · subst e
      exact hf.left hpck
    · rw [show (share.block k).pc = (s.share.block k).pc from hf.other k e]
      exact hpck
  · rw [hund]
    exact h.making t i
  · rw [hund]
    exact h.spliced t
  · exact (h.left t ht hpc).imp (fun hover => hover.imp (hf.marks t) id) id
  · refine (h.covered t i ht hpc hi hm).imp ?_ id
    rintro ⟨k, hk, h1, h2⟩
    exact ⟨k, hn.symm ▸ hk, (hb k).1.trans h1, h2⟩

/-- A block's `done`. -/
theorem BlocksInv.finish (h : BlocksInv s) (hb : b < s.share.nBlock) (hd : s.done b = false)
    (hpc : (s.share.block b).pc = .leaving)
    (hsp : (s.task (s.share.block b).taskHandle).pc = .spliced) : BlocksInv (s.finish b) := by
  obtain ⟨t, ht⟩ : ∃ t, t = (s.share.block b).taskHandle := ⟨_, rfl⟩
  rw [← ht] at hsp
  have hlt : t < s.wrapper.nTask := ht ▸ (h.task b hb).1
  obtain ⟨hund, hcount⟩ := h.spliced t hlt hsp
  have hdrop : s.undone t = (s.finish b).undone t + 1 := by
    refine tally_drop hb ⟨ht.symm, hd⟩ ?_ fun k _ hne => ?_
    · rintro ⟨-, e⟩
      have e : Function.update s.done b true b = false := e
      rw [Function.update_self] at e
      cases e
    · show _ ↔ (s.share.block k).taskHandle = t ∧ Function.update s.done b true k = false
      rw [Function.update_of_ne hne]
  have hsame : ∀ t', t' ≠ t → (s.finish b).undone t' = s.undone t' := by
    intro t' hne
    refine tally_congr fun k _ => ?_
    show (s.share.block k).taskHandle = t' ∧ Function.update s.done b true k = false ↔ _
    by_cases e : k = b
    · rw [e, ← ht]
      exact ⟨fun hc => absurd hc.1.symm hne, fun hc => absurd hc.1.symm hne⟩
    · rw [Function.update_of_ne e]
  have htask : ∀ t', (s.finish b).task t' = { s.task t' with remaining := if t' = t then (s.task t').remaining - 1
      else (s.task t').remaining } := by
    intro t'
    show Function.update s.task (s.share.block b).taskHandle { s.task (s.share.block b).taskHandle with
      remaining := (s.task (s.share.block b).taskHandle).remaining - 1 } t' = _
    rw [← ht]
    by_cases e : t' = t
    · rw [e, Function.update_self, if_pos rfl]
    · rw [Function.update_of_ne e, if_neg e]
  obtain ⟨hn, hwait, hmark, hother, hself⟩ : (s.finish b).wrapper.nTask = s.wrapper.nTask ∧
      (s.finish b).wrapper.wait = s.wrapper.wait ∧
      (s.finish b).wrapper.failureSet = s.wrapper.failureSet ∧
      (∀ t', t' ≠ t → (s.finish b).wrapper.counter t' = s.wrapper.counter t') ∧
      ((s.task t).remaining ≠ 1 → (s.finish b).wrapper.counter t = s.wrapper.counter t) := by
    simp only [Loads.finish, ← ht]
    split
    · next e => exact ⟨rfl, rfl, rfl, fun t' e' => by simp [e'], fun hne => absurd e hne⟩
    · exact ⟨rfl, rfl, rfl, fun _ _ => rfl, fun _ => rfl⟩
  have hdone : ∀ k, (s.finish b).done k = true → k = b ∨ s.done k = true := by
    intro k hk
    by_cases e : k = b
    · exact .inl e
    · have hk : Function.update s.done b true k = true := hk
      rw [Function.update_of_ne e] at hk
      exact .inr hk
  refine ⟨fun t' ht' => ?_, fun k hk => ?_, fun k hk => ?_, fun k i hk hpck => ?_, fun k hk hdk => ?_, fun t' i ht' hpc' => ?_,
    fun t' ht' hpc' => ?_,
    fun t' ht' h1 h2 => ?_, fun t' ht' => ?_, fun t' ht' hpc' => ?_, fun t' i ht' hpc' hi hm => ?_⟩
  · rw [hn, htask]
    exact h.maker t' ht'
  · rw [hn, htask]
    exact h.task k hk
  · rw [htask]
    exact h.index k hk
  · rw [htask] at hpck
    have hmk : (s.task (s.share.block k).taskHandle).pc = .making i := hpck
    obtain ⟨hdk, hrest⟩ := h.waits k i hk hmk
    refine ⟨?_, hrest⟩
    have hne : k ≠ b := by
      intro e
      subst e
      rw [← ht, hsp] at hmk
      cases hmk
    show Function.update s.done b true k = false
    rw [Function.update_of_ne hne]
    exact hdk
  · rcases hdone k hdk with rfl | e
    · exact .inl hpc
    · exact h.done k hk e
  · rw [hn] at ht'
    rw [htask] at hpc' ⊢
    have hne : t' ≠ t := by
      intro e
      subst e
      rw [hsp] at hpc'
      cases hpc'
    rw [hsame t' hne, if_neg hne]
    exact h.making t' i ht' hpc'
  · rw [hn] at ht'
    rw [htask] at hpc' ⊢
    by_cases e : t' = t
    · subst e
      rw [if_pos rfl]
      refine ⟨by dsimp only; omega, ?_⟩
      by_cases e : (s.task t').remaining = 1
      · exact .inr (by dsimp only; omega)
      · rw [hself e]
        exact .inl (hcount.resolve_right (by omega))
    · rw [hsame t' e, if_neg e, hother t' e]
      exact h.spliced t' ht' hpc'
  · rw [hn] at ht'
    rw [htask] at h1 h2
    have hne : t' ≠ t := by
      intro e
      subst e
      exact h1 hsp
    rw [hother t' hne]
    exact h.up t' ht' h1 h2
  · rw [hn]
    exact h.called t' (hwait ▸ ht')
  · rw [hn] at ht'
    rw [htask] at hpc' ⊢
    refine (h.left t' ht' hpc').imp (fun hover => ?_) id
    rcases hover with e | e
    · exact .inl (hmark ▸ e)
    · exact .inr (hwait ▸ e)
  · rw [hn] at ht'
    rw [htask] at hpc' hi hm ⊢
    exact h.covered t' i ht' hpc' hi hm

theorem BlocksInv.goesOn (h : BlocksInv s) {l : ShareLabel} {left : Bool} {share : Share Byte} (hf : BlockFrame b l s.view share)
    (ha : s.allows C l = true) : BlocksInv (s.goesOn b l left share) := by
  have hstay :=
      (h.stays hf ha).congr (d := s.dest) (m := s.moved) (i := Function.update s.issued b (s.issues b left (share.block b).pc l))
  have hb : b < s.share.nBlock := hf.lt
  have hhandle : (share.block b).taskHandle = (s.share.block b).taskHandle := (hf.block b).1
  unfold Loads.goesOn
  dsimp only
  split
  · next hc =>
    obtain ⟨hcalls, hleaves, hne⟩ := hc
    have hgone : (s.share.block b).pc ≠ .gone := by
      intro e
      have e' := hf.gone e
      rw [hleaves] at e'
      cases e'
    apply hstay.finish
    · exact lt_of_lt_of_eq hb hf.nBlock.symm
    · by_contra hd
      rcases h.done b hb (Bool.eq_true_of_not_eq_false hd) with e | e
      · exact hne e
      · exact hgone e
    · exact hleaves
    · -- a block that its task has not spliced is not done
      dsimp only
      rw [hhandle]
      refine (h.task b hb).2.resolve_left ?_
      rintro ⟨i, hpc, -⟩
      rcases (h.waits b i hb hpc).2 with e | e | e
      · rcases hf.waiting e with e' | ⟨-, e'⟩ | rfl
        · rw [hleaves] at e'
          cases e'
        · rw [hcalls] at e'
          cases e'
        · have hsp := of_decide_eq_true ha
          rw [hpc] at hsp
          cases hsp
      · exact hne e
      · exact hgone e
  · exact hstay

theorem step_blocksInv (h : BlocksInv s) (hok : OrderlyLoads C s l) (hs : loadsStep C s l = some s') : BlocksInv s' := by
  cases l with
  | submit n shard full => exact h.submit hs
  | wait l =>
    obtain ⟨w, hw, rfl⟩ := Option.map_eq_some_iff.mp hs
    exact h.wait (waitStep_keeps hw)
  | take t => exact h.take hs
  | get t results => exact h.get hok hs
  | enqueue t => exact h.enqueue hs
  | next t => exact h.next hs
  | lock t => exact h.lock hs
  | probe t => exact h.probe hs
  | block l left =>
    simp only [loadsStep] at hs
    split at hs
    · next b hl =>
      split at hs
      · next ha =>
        obtain ⟨share, hsh, rfl⟩ := Option.map_eq_some_iff.mp hs
        exact h.goesOn (block_frame hl hsh) ha
      · cases hs
    · cases hs
  | move b o =>
    simp only [loadsStep] at hs
    split at hs
    · obtain rfl := Option.some.inj hs
      exact h.congr
    · cases hs

/-! ## The copies of a task -/

theorem goesOn_rest (l : ShareLabel) (left : Bool) (share : Share Byte) : (s.goesOn b l left share).share = share ∧
    (s.goesOn b l left share).index = s.index ∧ (s.goesOn b l left share).dest = s.dest ∧
    (s.goesOn b l left share).moved = s.moved ∧
    (s.goesOn b l left share).issued = Function.update s.issued b (s.issues b left (share.block b).pc l) ∧
    (s.goesOn b l left share).wrapper.failureSet = share.failureSet ∧ (s.goesOn b l left share).wrapper.wait = s.wrapper.wait ∧
    (s.goesOn b l left share).wrapper.nTask = s.wrapper.nTask := by
  unfold Loads.goesOn Loads.finish
  dsimp only
  split
  · refine ⟨rfl, rfl, rfl, rfl, rfl, ?_⟩
    dsimp only
    split <;> exact ⟨rfl, rfl, rfl⟩
  · exact ⟨rfl, rfl, rfl, rfl, rfl, rfl, rfl, rfl⟩

theorem goesOn_task (l : ShareLabel) (left : Bool) (share : Share Byte) (t : Nat) :
    ∃ r, (s.goesOn b l left share).task t = { s.task t with remaining := r } := by
  unfold Loads.goesOn Loads.finish
  dsimp only
  split
  · dsimp only
    by_cases e : t = (share.block b).taskHandle
    · subst e
      rw [Function.update_self]
      exact ⟨_, rfl⟩
    · rw [Function.update_of_ne e]
      exact ⟨_, rfl⟩
  · exact ⟨_, rfl⟩

theorem step_loadsOver (h : s.Over t) (hs : loadsStep C s l = some s') : s'.Over t := by
  cases l with
  | wait l =>
    obtain ⟨w, hw, rfl⟩ := Option.map_eq_some_iff.mp hs
    have hk := waitStep_keeps hw
    rcases h with h | h
    · rcases hk.marks t h with e | ⟨-, e, -⟩
      · exact .inl e
      · exact .inr e
    · exact .inr (hk.kept t h)
  | block l left =>
    simp only [loadsStep] at hs
    split at hs
    · next b hl =>
      split at hs
      · obtain ⟨share, hsh, rfl⟩ := Option.map_eq_some_iff.mp hs
        obtain ⟨-, -, -, -, -, hm, hw, -⟩ := goesOn_rest (s := s) (b := b) l left share
        rcases h with h | h
        · left
          rw [hm]
          exact (block_frame hl hsh).marks t h
        · right
          rw [hw]
          exact h
      · cases hs
    · cases hs
  | probe t' =>
    simp only [loadsStep] at hs
    repeat' split at hs
    · obtain ⟨share, -, rfl⟩ := Option.map_eq_some_iff.mp hs
      split <;> exact h
    · cases hs
    · cases hs
  | lock t' =>
    simp only [loadsStep] at hs
    split at hs
    · split at hs
      · split at hs
        · obtain ⟨share, -, rfl⟩ := Option.map_eq_some_iff.mp hs
          exact h
        · cases hs
      · cases hs
    · cases hs
  | _ =>
    simp only [loadsStep] at hs
    repeat' split at hs
    all_goals first | cases hs; done | skip
    all_goals
      obtain rfl := Option.some.inj hs
      simp only [Loads.Over, Loads.leave, Loads.setPc, TaskWrapper.done_failureSet, TaskWrapper.failIf_failureSet,
        TaskWrapper.done_wait,
        TaskWrapper.failIf_wait, TaskWrapper.submit_failureSet, TaskWrapper.submit_wait] at h ⊢
      grind

theorem step_loadsShare (h : ShareInv C.share s.share) (hok : OrderlyLoads C s l) (hs : loadsStep C s l = some s') :
    ShareInv C.share s'.share := by
  have hview : ShareInv C.share s.view := h.fail _
  cases l with
  | lock t =>
    simp only [loadsStep] at hs
    split at hs
    · split at hs
      · next i hpc =>
        split at hs
        · obtain ⟨share, hsh, rfl⟩ := Option.map_eq_some_iff.mp hs
          exact step_shareInv hview (hok i hpc) hsh
        · cases hs
      · cases hs
    · cases hs
  | probe t =>
    simp only [loadsStep] at hs
    split at hs
    · split at hs
      · obtain ⟨share, hsh, rfl⟩ := Option.map_eq_some_iff.mp hs
        have hnew := step_shareInv (l := .probe t) hview trivial hsh
        split
        · exact hnew
        · exact hnew
      · cases hs
    · cases hs
  | block l left =>
    simp only [loadsStep] at hs
    split at hs
    · next b hl =>
      split at hs
      · obtain ⟨share, hsh, rfl⟩ := Option.map_eq_some_iff.mp hs
        rw [(goesOn_rest ..).1]
        exact step_shareInv hview hok hsh
      · cases hs
    · cases hs
  | wait l =>
    obtain ⟨w, -, rfl⟩ := Option.map_eq_some_iff.mp hs
    exact h
  | submit n shard full =>
    obtain rfl := Option.some.inj hs
    cases full <;> exact h
  | _ =>
    simp only [loadsStep] at hs
    repeat' split at hs
    all_goals first | cases hs; done | skip
    all_goals
      obtain rfl := Option.some.inj hs
      exact h

/-- The destination of a shard has its bytes. -/
def Loads.Right (C : LoadsConfig Byte) (s : Loads Byte) (t i o : Nat) :
    Prop := s.dest t i o = C.share.backend ((s.task t).shard i) o

structure CopiedInv (C : LoadsConfig Byte) (s : Loads Byte) : Prop where
  done : ∀ b, b < s.share.nBlock → s.done b = true → s.Over (s.share.block b).taskHandle ∨ ∀ o, o < C.share.blockSize →
      s.moved b o = true
  issued : ∀ b, b < s.share.nBlock → s.issued b = true → (s.share.block b).pc = .copying ∨ s.Over (s.share.block b).taskHandle
  moved : ∀ b o, b < s.share.nBlock → o < C.share.blockSize → s.moved b o = true →
    s.Over (s.share.block b).taskHandle ∨ s.Right C (s.share.block b).taskHandle (s.index b) o
  hit : ∀ t i o, t < s.wrapper.nTask → (s.task t).pc ≠ .queued → (s.task t).pc ≠ .getting → i < (s.task t).nShard →
      (s.task t).hit i = true →
    o < C.share.blockSize → s.Over t ∨ s.Right C t i o

/-- The blocks have not moved, and the tasks with blocks, or with something got, are as they were. -/
theorem CopiedInv.congr (h : CopiedInv C s) (hb : s'.share.block = s.share.block ∧ s'.share.nBlock = s.share.nBlock)
    (hm : s'.index = s.index ∧ s'.done = s.done ∧ s'.issued = s.issued ∧ s'.moved = s.moved)
    (hshard : ∀ b, b < s.share.nBlock → (s'.task (s.share.block b).taskHandle).shard =
      (s.task (s.share.block b).taskHandle).shard ∧
      s'.dest (s.share.block b).taskHandle = s.dest (s.share.block b).taskHandle)
    (hhit : ∀ t i o, t < s'.wrapper.nTask → (s'.task t).pc ≠ .queued → (s'.task t).pc ≠ .getting → i < (s'.task t).nShard →
      (s'.task t).hit i = true →
      o < C.share.blockSize → s'.Over t ∨ s'.Right C t i o) (hover : ∀ t, s.Over t → s'.Over t) : CopiedInv C s' := by
  obtain ⟨hb, hn⟩ := hb
  obtain ⟨hi, hd, his, hmo⟩ := hm
  refine ⟨fun b hlt hdone => ?_, fun b hlt hiss => ?_, fun b o hlt ho hmov => ?_, hhit⟩ <;> rw [hn] at hlt <;> rw [hb]
  · rw [hd] at hdone
    rw [hmo]
    exact (h.done b hlt hdone).imp (hover _) id
  · rw [his] at hiss
    exact (h.issued b hlt hiss).imp id (hover _)
  · rw [hmo] at hmov
    rw [hi]
    refine (h.moved b o hlt ho hmov).imp (hover _) fun hr => ?_
    unfold Loads.Right at hr ⊢
    rw [(hshard b hlt).1, (hshard b hlt).2]
    exact hr

/-- A task goes on. -/
theorem CopiedInv.retask (h : CopiedInv C s) {x : LoadTask} {w : TaskWrapper}
    (hover : ∀ t', s.Over t' → Loads.Over { s with wrapper := w, task := Function.update s.task t x } t')
    (hn : w.nTask = s.wrapper.nTask ∨ t = s.wrapper.nTask ∧ w.nTask = s.wrapper.nTask + 1)
    (hx : x.pc = .queued ∨ x.pc = .getting ∨ w.failureSet t = true ∨ t < s.wrapper.nTask ∧ (s.task t).pc ≠ .queued ∧
      (s.task t).pc ≠ .getting ∧
      x.nShard = (s.task t).nShard ∧ x.shard = (s.task t).shard ∧ x.hit = (s.task t).hit)
    (hshard : x.shard = (s.task t).shard ∨ ∀ b, b < s.share.nBlock → (s.share.block b).taskHandle ≠ t) :
    CopiedInv C { s with wrapper := w, task := Function.update s.task t x } := by
  refine h.congr ⟨rfl, rfl⟩ ⟨rfl, rfl, rfl, rfl⟩ (fun b hb => ⟨?_, rfl⟩) (fun t' i o ht' hq hg hi hhit ho => ?_) hover
  · by_cases e : (s.share.block b).taskHandle = t
    · dsimp only
      rw [e, Function.update_self]
      exact hshard.resolve_right fun hno => hno b hb e
    · dsimp only
      rw [Function.update_of_ne e]
  · dsimp only at ht' hq hg hi hhit
    unfold Loads.Right
    dsimp only
    by_cases e : t' = t
    · subst e
      rw [Function.update_self] at hq hg hi hhit ⊢
      rcases hx with e | e | e | ⟨hlt, hq', hg', h1, h2, h3⟩
      · exact absurd e hq
      · exact absurd e hg
      · exact .inl (.inl e)
      · rw [h1] at hi
        rw [h3] at hhit
        rw [h2]
        exact (h.hit t' i o hlt hq' hg' hi hhit ho).imp (hover _) id
    · rw [Function.update_of_ne e] at hq hg hi hhit ⊢
      exact (h.hit t' i o (by omega) hq hg hi hhit ho).imp (hover _) id

theorem CopiedInv.get (h : CopiedInv C s) (hb : BlocksInv s) {results : Option (Nat → Bool)}
    (hs : loadsStep C s (.get t results) = some s') :
    CopiedInv C s' := by
  have hover : ∀ t', s.Over t' → s'.Over t' := fun _ ho => step_loadsOver ho hs
  simp only [loadsStep] at hs
  split at hs
  · next hc =>
    obtain ⟨hlt, hpc⟩ := hc
    have hno := hb.none (t := t) (by rw [hpc]; nofun) (by rw [hpc]; nofun)
    split at hs
    · obtain rfl := Option.some.inj hs
      exact h.retask hover (.inl (by simp)) (.inr (.inr (.inl (by simp)))) (.inl rfl)
    · next hit =>
      -- what was got is at its destination
      obtain ⟨pc, w, hs', hwn⟩ : ∃ pc w, s' = { s with
          wrapper := w
          task := Function.update s.task t { s.task t with hit, pc }
          dest := Function.update s.dest t fun i =>
            if i < (s.task t).nShard ∧ hit i = true then C.share.backend ((s.task t).shard i) else s.dest t i } ∧
              w.nTask = s.wrapper.nTask := by
        split at hs
        · obtain rfl := Option.some.inj hs
          refine ⟨.left, (s.wrapper.failIf false t).done t, ?_, by simp⟩
          simp only [Loads.leave, Loads.setPc, Function.update_idem, Function.update_self, Bool.not_true]
        · obtain rfl := Option.some.inj hs
          refine ⟨.missed, s.wrapper, ?_, rfl⟩
          simp only [Loads.setPc, Function.update_idem, Function.update_self]
      clear hs
      subst hs'
      refine h.congr ⟨rfl, rfl⟩ ⟨rfl, rfl, rfl, rfl⟩ (fun b hlt' => ?_) (fun t' i o ht' hq hg hi hhit ho => ?_) hover
      · dsimp only
        rw [Function.update_of_ne (hno b hlt'), Function.update_of_ne (hno b hlt')]
        exact ⟨rfl, rfl⟩
      · dsimp only at ht' hq hg hi hhit
        unfold Loads.Right
        dsimp only
        by_cases e : t' = t
        · subst e
          rw [Function.update_self] at hi hhit
          rw [Function.update_self, Function.update_self, if_pos ⟨hi, hhit⟩]
          exact .inr rfl
        · rw [Function.update_of_ne e] at hq hg hi hhit
          rw [Function.update_of_ne e, Function.update_of_ne e]
          exact (h.hit t' i o (hwn ▸ ht') hq hg hi hhit ho).imp (hover _) id
  · cases hs

theorem CopiedInv.made (h : CopiedInv C s) {i : Nat} (hlt : t < s.wrapper.nTask) (hpc : (s.task t).pc = .making i)
    {table : Table Shard ShareBlockId ShareBlockStatus} {pos : Option Nat} :
    CopiedInv C (s.made t i (s.view.addBlock table t ((s.task t).shard i) pos)) := by
  have hold : ∀ b, b < s.share.nBlock → ∀ x : BlockTask, Function.update s.share.block s.share.nBlock x b =
      s.share.block b := fun b hb x =>
    Function.update_of_ne hb.ne ..
  have hcases : ∀ b, b < s.share.nBlock + 1 → b < s.share.nBlock ∨ b = s.share.nBlock := fun b hb => by omega
  have hshard : ∀ t', (Function.update s.task t { s.task t with pc := .making (i + 1) } t').shard = (s.task t').shard := by
    intro t'
    by_cases e : t' = t
    · rw [e, Function.update_self]
    · rw [Function.update_of_ne e]
  refine ⟨fun b hb hd => ?_, fun b hb hd => ?_, fun b o hb ho hd => ?_, fun t' k o ht' hq hg hk hhit ho => ?_⟩
  all_goals simp only [Loads.made, Loads.setPc, Loads.view, Share.addBlock, Loads.Over, Loads.Right] at *
  · rcases hcases b hb with hb | rfl
    · rw [Function.update_of_ne hb.ne] at hd
      rw [hold b hb, Function.update_of_ne hb.ne]
      exact h.done b hb hd
    · rw [Function.update_self] at hd
      cases hd
  · rcases hcases b hb with hb | rfl
    · rw [Function.update_of_ne hb.ne] at hd
      rw [hold b hb]
      exact h.issued b hb hd
    · rw [Function.update_self] at hd
      cases hd
  · rcases hcases b hb with hb | rfl
    · rw [Function.update_of_ne hb.ne] at hd
      rw [hold b hb, Function.update_of_ne hb.ne, hshard]
      exact h.moved b o hb ho hd
    · rw [Function.update_self] at hd
      cases hd
  · rw [hshard]
    by_cases e : t' = t
    · subst e
      rw [Function.update_self] at hk hhit
      exact h.hit t' k o hlt (by rw [hpc]; nofun) (by rw [hpc]; nofun) hk hhit ho
    · rw [Function.update_of_ne e] at hq hg hk hhit
      exact h.hit t' k o ht' hq hg hk hhit ho

/-- A copy is under way after the step of a block that is copying, or whose task has been marked. -/
theorem CopiedInv.issues (h : CopiedInv C s) {l : ShareLabel} {left : Bool} {share : Share Byte} (hl : l.block = some b)
    (hsh : shareStep C.share s.view l = some share) (hf : BlockFrame b l s.view share)
    (hi : s.issues b left (share.block b).pc l = true) :
    (share.block b).pc = .copying ∨ share.failureSet (s.share.block b).taskHandle = true ∨
    s.Over (s.share.block b).taskHandle := by
  have hold : s.issued b = true → l ≠ .copied b true → (share.block b).pc = .copying ∨
      share.failureSet (s.share.block b).taskHandle = true ∨
      s.Over (s.share.block b).taskHandle := by
    intro hiss hne
    rcases h.issued b hf.lt hiss with hc | hover
    · rcases hf.copying hc with e | e | e
      · exact .inl e
      · exact absurd e hne
      · exact .inr (.inl e)
    · exact .inr (.inr hover)
  cases l with
  | copied k ok =>
    cases ok with
    | true => cases hi
    | false =>
      have hi : (if (share.block b).pc = .copying then true else s.issued b) = true := hi
      split at hi
      · next e => exact .inl e
      · exact hold hi nofun
  | handle k ok =>
    obtain rfl : k = b := Option.some.inj hl
    cases ok with
    | true =>
      have hi : (if (share.block k).pc = .copying then true else s.issued k) = true := hi
      split at hi
      · next e => exact .inl e
      · exact hold hi nofun
    | false =>
      simp only [Loads.issues] at hi
      split at hi
      · next again hpc =>
        rcases Bool.or_eq_true_iff.mp hi with hi | hi
        · exact hold hi nofun
        · -- the copy fails to start, with some of its tensors on the way
          have hfail : s.view.failed k = false := by simpa using (Bool.and_eq_true_iff.mp hi).2
          have hpc : (s.view.block k).pc = .returned again .ok := hpc
          right
          left
          unfold shareStep at hsh
          dsimp only at hsh
          rw [hpc, if_pos hf.lt] at hsh
          obtain rfl := Option.some.inj hsh
          have hmark : s.view.handle k false again .ok = (s.view.fail k).setPc k .leaving := by
            cases again <;> simp only [Share.handle, hfail, Bool.false_eq_true, if_false]
          rw [hmark]
          exact Function.update_self ..
      · exact hold hi nofun
  | _ =>
    have hi : (if (share.block b).pc = .copying then true else s.issued b) = true := hi
    split at hi
    · next e => exact .inl e
    · exact hold hi nofun

theorem CopiedInv.goesOn (h : CopiedInv C s) {l : ShareLabel} {left : Bool} {share : Share Byte} (hl : l.block = some b)
    (hsh : shareStep C.share s.view l = some share) (ha : s.allows C l = true)
    (hover : ∀ t, s.Over t → (s.goesOn b l left share).Over t) :
    CopiedInv C (s.goesOn b l left share) := by
  have hf := block_frame hl hsh
  obtain ⟨hshare, hindex, hdest, hmoved, hissued, hmark, -, hn⟩ := goesOn_rest (s := s) (b := b) l left share
  have hnb : share.nBlock = s.share.nBlock := hf.nBlock
  have hhandle : ∀ k, (share.block k).taskHandle = (s.share.block k).taskHandle := fun k => (hf.block k).1
  have hmarked : ∀ t, share.failureSet t = true → (s.goesOn b l left share).Over t := by
    intro t e
    left
    rw [hmark]
    exact e
  have htask : ∀ t, ((s.goesOn b l left share).task t).shard = (s.task t).shard ∧
      ((s.goesOn b l left share).task t).hit = (s.task t).hit ∧
      ((s.goesOn b l left share).task t).nShard = (s.task t).nShard ∧ ((s.goesOn b l left share).task t).pc = (s.task t).pc := by
    intro t
    obtain ⟨r, e⟩ := goesOn_task (s := s) (b := b) l left share t
    rw [e]
    exact ⟨rfl, rfl, rfl, rfl⟩
  have hdone : ∀ k, (s.goesOn b l left share).done k = true → s.done k = true ∨ k = b ∧ l.calls = true ∧
      (share.block b).pc = .leaving ∧
      (s.share.block b).pc ≠ .leaving := by
    intro k hk
    unfold Loads.goesOn at hk
    dsimp only at hk
    split at hk
    · next hc =>
      by_cases e : k = b
      · exact .inr ⟨e, hc⟩
      · have hk : Function.update s.done b true k = true := hk
        rw [Function.update_of_ne e] at hk
        exact .inl hk
    · exact .inl hk
  refine ⟨fun k hk hd => ?_, fun k hk hi => ?_, fun k o hk ho hmov => ?_, fun t i o ht hq hg hi hhit ho => ?_⟩
  · rw [hshare, hnb] at hk
    rw [hshare, hhandle, hmoved]
    rcases hdone k hd with e | ⟨rfl, hcalls, hleaves, hne⟩
    · exact (h.done k hk e).imp (hover _) id
    · rcases hf.leaves hleaves hne hcalls with e | ⟨rfl, -⟩
      · exact .inl (hmarked _ e)
      · exact .inr (of_decide_eq_true ha)
  · rw [hshare, hnb] at hk
    rw [hshare, hhandle]
    rw [hissued] at hi
    by_cases e : k = b
    · subst e
      rw [Function.update_self] at hi
      rcases h.issues hl hsh hf hi with e | e | e
      · exact .inl e
      · exact .inr (hmarked _ e)
      · exact .inr (hover _ e)
    · rw [Function.update_of_ne e] at hi
      rw [show (share.block k).pc = (s.share.block k).pc from hf.other k e]
      exact (h.issued k hk hi).imp id (hover _)
  · rw [hshare, hnb] at hk
    rw [hmoved] at hmov
    rw [hshare, hhandle, hindex]
    refine (h.moved k o hk ho hmov).imp (hover _) fun hr => ?_
    unfold Loads.Right at hr ⊢
    rw [hdest, (htask _).1]
    exact hr
  · obtain ⟨e1, e2, e3, e4⟩ := htask t
    rw [e4] at hq hg
    rw [e3] at hi
    rw [e2] at hhit
    refine (h.hit t i o (hn ▸ ht) hq hg hi hhit ho).imp (hover _) fun hr => ?_
    unfold Loads.Right at hr ⊢
    rw [hdest, e1]
    exact hr

/-- A copy brings the bytes of its shard, unless its task is over. -/
theorem CopiedInv.move (h : CopiedInv C s) (hb : BlocksInv s) (hsh : ShareInv C.share s.share)
    (hs : loadsStep C s (.move b o) = some s') :
    CopiedInv C s' := by
  simp only [loadsStep] at hs
  split at hs
  · next hc =>
    obtain ⟨hlt, hiss, ho⟩ := hc
    have hbyte : s.Over (s.share.block b).taskHandle ∨
        s.share.dataOf b o = C.share.backend ((s.task (s.share.block b).taskHandle).shard (s.index b)) o := by
      rcases h.issued b hlt hiss with hpc | hover
      · right
        rw [hsh.served hlt (by rw [hpc]; rfl) ho, (hb.index b hlt).2.2]
      · exact .inl hover
    obtain rfl := Option.some.inj hs
    -- no destination is spoilt but of a task that is over
    have hdest : ∀ t i o', s.Over t ∨ s.Right C t i o' ∨ t = (s.share.block b).taskHandle ∧ i = s.index b ∧ o' = o →
        s.Over t ∨ Function.update s.dest (s.share.block b).taskHandle
        (Function.update (s.dest (s.share.block b).taskHandle) (s.index b)
          (Function.update (s.dest (s.share.block b).taskHandle (s.index b)) o (s.share.dataOf b o))) t i o' =
            C.share.backend ((s.task t).shard i) o' := by
      intro t i o' hcase
      by_cases e : t = (s.share.block b).taskHandle ∧ i = s.index b ∧ o' = o
      · obtain ⟨rfl, rfl, rfl⟩ := e
        simpa only [Function.update_self] using hbyte
      · have hold : s.Over t ∨ s.Right C t i o' := by
          rcases hcase with e' | e' | e'
          · exact .inl e'
          · exact .inr e'
          · exact absurd e' e
        refine hold.imp id fun hr => ?_
        rw [← hr]
        by_cases e1 : t = (s.share.block b).taskHandle
        · subst e1
          rw [Function.update_self]
          by_cases e2 : i = s.index b
          · subst e2
            rw [Function.update_self, Function.update_of_ne fun e3 => e ⟨rfl, rfl, e3⟩]
          · rw [Function.update_of_ne e2]
        · rw [Function.update_of_ne e1]
    refine ⟨fun k hk hd => ?_, h.issued, fun k o' hk ho' hmov => ?_, fun t i o' ht hq hg hi hhit ho' => ?_⟩
    · refine (h.done k hk hd).imp id fun hall o' ho' => ?_
      show Function.update s.moved b (Function.update (s.moved b) o true) k o' = true
      by_cases e : k = b
      · subst e
        rw [Function.update_self]
        by_cases e' : o' = o
        · rw [e', Function.update_self]
        · rw [Function.update_of_ne e']
          exact hall o' ho'
      · rw [Function.update_of_ne e]
        exact hall o' ho'
    · apply hdest
      by_cases e : k = b ∧ o' = o
      · obtain ⟨rfl, rfl⟩ := e
        exact .inr (.inr ⟨rfl, rfl, rfl⟩)
      · have hold : s.moved k o' = true := by
          have hmov : Function.update s.moved b (Function.update (s.moved b) o true) k o' = true := hmov
          simp only [Function.update_apply] at hmov
          grind
        exact (h.moved k o' hk ho' hold).imp id .inl
    · exact hdest t i o' ((h.hit t i o' ht hq hg hi hhit ho').imp id .inl)
  · cases hs

theorem CopiedInv.probe (h : CopiedInv C s) (hb : BlocksInv s) (hs : loadsStep C s (.probe t) = some s') : CopiedInv C s' := by
  have hover : ∀ t', s.Over t' → s'.Over t' := fun _ ho => step_loadsOver ho hs
  simp only [loadsStep] at hs
  split at hs
  · next ht =>
    obtain ⟨hlt, i, c, hpc, -, -, hscan, hkey⟩ := hb.maker t ht
    rw [hpc] at hs
    obtain ⟨share, hsh, rfl⟩ := Option.map_eq_some_iff.mp hs
    obtain ⟨c', table, hc', hsh | ⟨p, -, rfl⟩ | ⟨-, rfl⟩⟩ := probe_cases hsh
    all_goals obtain rfl : c = c' := Option.some.inj (hscan.symm.trans hc')
    · obtain ⟨-, rfl⟩ := hsh
      split
      · exact h.congr ⟨rfl, rfl⟩ ⟨rfl, rfl, rfl, rfl⟩ (fun _ _ => ⟨rfl, rfl⟩) h.hit fun _ ho => ho
      · next hne => exact absurd rfl hne
    all_goals
      split
      · next e => exact absurd e (Nat.succ_ne_self _)
      · rw [hkey]
        exact h.made hlt hpc
  · cases hs

theorem step_copiedInv (h : CopiedInv C s) (hb : BlocksInv s) (hsh : ShareInv C.share s.share) (hs : loadsStep C s l = some s') :
    CopiedInv C s' := by
  have hover : ∀ t, s.Over t → s'.Over t := fun _ ho => step_loadsOver ho hs
  cases l with
  | submit n shard full =>
    have hnew : ∀ b, b < s.share.nBlock → (s.share.block b).taskHandle ≠ s.wrapper.nTask := fun b hlt => (hb.task b hlt).1.ne
    obtain rfl := Option.some.inj hs
    cases full with
    | true =>
      simp only [if_true, Loads.leave, Loads.setPc, Function.update_idem] at hover ⊢
      exact h.retask hover (.inr ⟨rfl, by simp⟩) (.inr (.inr (.inl (by simp)))) (.inr hnew)
    | false =>
      simp only [Bool.false_eq_true, if_false] at hover ⊢
      exact h.retask hover (.inr ⟨rfl, by simp⟩) (.inl rfl) (.inr hnew)
  | wait l =>
    obtain ⟨w, hw, rfl⟩ := Option.map_eq_some_iff.mp hs
    refine h.congr ⟨rfl, rfl⟩ ⟨rfl, rfl, rfl, rfl⟩ (fun _ _ => ⟨rfl, rfl⟩) (fun t i o ht hq hg hi hhit ho => ?_) hover
    exact (h.hit t i o (lt_of_lt_of_eq ht (waitStep_keeps hw).nTask) hq hg hi hhit ho).imp (hover t) id
  | take t =>
    simp only [loadsStep] at hs
    split at hs
    · split at hs
      · next hfail =>
        obtain rfl := Option.some.inj hs
        exact h.retask hover (.inl (by simp)) (.inr (.inr (.inl (by simpa using hfail)))) (.inl rfl)
      · obtain rfl := Option.some.inj hs
        exact h.retask hover (.inl rfl) (.inr (.inl rfl)) (.inl rfl)
    · cases hs
  | get t results => exact h.get hb hs
  | enqueue t =>
    simp only [loadsStep] at hs
    split at hs
    · next hc =>
      obtain ⟨hlt, hpc⟩ := hc
      split at hs
      · next hfail =>
        obtain rfl := Option.some.inj hs
        exact h.retask hover (.inl (by simp)) (.inr (.inr (.inl (by simpa using hfail)))) (.inl rfl)
      · obtain rfl := Option.some.inj hs
        exact h.retask hover (.inl rfl)
          (.inr (.inr (.inr ⟨hlt, by rw [hpc]; nofun, by rw [hpc]; nofun, rfl, rfl, rfl⟩))) (.inl rfl)
    · cases hs
  | next t =>
    simp only [loadsStep] at hs
    split at hs
    · next hlt =>
      split at hs
      · next i hpc =>
        have hgo : ∀ pc, (∀ t', s.Over t' → (s.setPc t pc).Over t') → CopiedInv C (s.setPc t pc) := fun pc ho =>
          h.retask ho (.inl rfl) (.inr (.inr (.inr ⟨hlt, by rw [hpc]; nofun, by rw [hpc]; nofun, rfl, rfl, rfl⟩))) (.inl rfl)
        split at hs
        · split at hs
          · obtain rfl := Option.some.inj hs
            exact hgo _ hover
          · cases hs
        · obtain rfl := Option.some.inj hs
          exact hgo _ hover
      · cases hs
    · cases hs
  | lock t =>
    simp only [loadsStep] at hs
    split at hs
    · split at hs
      · split at hs
        · obtain ⟨share, hlock, rfl⟩ := Option.map_eq_some_iff.mp hs
          obtain ⟨table, -, rfl⟩ := Option.map_eq_some_iff.mp hlock
          exact h.congr ⟨rfl, rfl⟩ ⟨rfl, rfl, rfl, rfl⟩ (fun _ _ => ⟨rfl, rfl⟩) h.hit hover
        · cases hs
      · cases hs
    · cases hs
  | probe t => exact h.probe hb hs
  | block l left =>
    simp only [loadsStep] at hs
    split at hs
    · next b hl =>
      split at hs
      · next ha =>
        obtain ⟨share, hstep, rfl⟩ := Option.map_eq_some_iff.mp hs
        exact h.goesOn hl hstep ha hover
      · cases hs
    · cases hs
  | move b o => exact h.move hb hsh hs

end UnifiedCache.Mooncake
