/-
  UnifiedCache.Cache.StoreTasks — the tasks of a process and who has them.

  - `WrapperMove`: what a step does to a process's `TaskWrapper`: a submission, a step of a
    `Wait`, a failure mark, and the three places that call `Done`.
  - `Typed`: each task is with one of the two queues, and has items of its kind only.
  - `Waits`: a `Wait` that has returned found the latch at zero, where it stays.
-/

import UnifiedCache.Cache.StoreItems

namespace UnifiedCache.Cache

open UnifiedCache.Base UnifiedCache.Detail

variable {Block : Type}

/-! ## The wrapper -/

/-- What a step can do to the wrapper of process `q`. -/
inductive WrapperMove (s : Store Block) (q : Nat) : StoreLabel Block → TaskWrapper → Prop
  | same (l : StoreLabel Block) : WrapperMove s q l (s.proc q).wrapper
  | submit (isLoad : Bool) (desc : List (Block × Nat)) :
      WrapperMove s q (.submit q isLoad desc false) ((s.proc q).wrapper.submit 1)
  | full (isLoad : Bool) (desc : List (Block × Nat)) :
      WrapperMove s q (.submit q isLoad desc true)
        ((((s.proc q).wrapper.submit 1).fail (s.proc q).wrapper.nTask).done (s.proc q).wrapper.nTask)
  | wait (l : WaitLabel) (w : TaskWrapper) (step : waitStep false (s.proc q).wrapper l = some w) : WrapperMove s q (.wait q l) w
  | fail (l : StoreLabel Block) (t : Nat) : WrapperMove s q l ((s.proc q).wrapper.fail t)
  | dispatchDone (t : Nat) (pc : (s.proc q).dispatcher = .done t) :
      WrapperMove s q (.dispatch q .done) ((s.proc q).wrapper.done t)
  | transferDone (u : Nat) (lt : u < s.nItem) (proc : (s.item u).proc = q) (stage : (s.item u).stage = .counting)
      (waiter : (s.item u).waiter = true) : WrapperMove s q (.transfer u .done) ((s.proc q).wrapper.done (s.item u).task)
  | dumpDone (t : Nat) (pc : (s.proc q).dumper = .done t) : WrapperMove s q (.dump q .done) ((s.proc q).wrapper.done t)

section Wrapper

variable {C : Config Block} {s s' : Store Block} {l : StoreLabel Block} {p q u t : Nat}

theorem DispatchCase.wrapper {dl : DispatchLabel} (h : DispatchCase C s q dl s') :
    WrapperMove s q (.dispatch q dl) (s'.proc q).wrapper := by
  cases h with
  | enqueue t j u ok backend pc submitted =>
    have hsame : ((s.enqueue C q t j u { s.item u with backend := backend }).proc q).wrapper = (s.proc q).wrapper := by
      unfold Store.enqueue
      simp only
      split <;> simp
    rw [hsame]
    exact .same _
  | push t u pc collected first => simpa [Store.pushItem] using WrapperMove.same (s := s) (q := q) _
  | fail t pc => simpa using WrapperMove.fail (s := s) (q := q) _ t
  | done t pc => simpa using WrapperMove.dispatchDone t pc
  | _ => simpa using WrapperMove.same (s := s) (q := q) _

theorem TransferCase.wrapper {tl : TransferLabel} (hu : u < s.nItem) (h : TransferCase C s u tl s') (q : Nat) :
    WrapperMove s q (.transfer u tl) (s'.proc q).wrapper := by
  have hsame : (s'.proc q).wrapper = (s.proc q).wrapper → WrapperMove s q (.transfer u tl) (s'.proc q).wrapper := fun e =>
    e ▸ .same _
  cases h with
  | wait ok stage ended => exact hsame (by cases ok <;> rfl)
  | flush ok part stage => exact hsame (by cases ok <;> rfl)
  | sync ok stage => exact hsame (by cases ok <;> rfl)
  | fail stage =>
    by_cases e : q = (s.item u).proc
    · subst e
      have hw : ((s.failTask C u).proc (s.item u).proc).wrapper = (s.proc (s.item u).proc).wrapper.fail (s.item u).task := by
        unfold Store.failTask
        simp only
        split <;> simp
      rw [hw]
      exact .fail _ _
    · refine hsame ?_
      unfold Store.failTask
      simp only
      split <;> simp [e, Store.clearHolder]
  | done stage =>
    unfold Store.countDown at hsame ⊢
    cases hw : (s.item u).waiter with
    | true =>
      by_cases e : q = (s.item u).proc
      · subst e
        simpa [hw] using WrapperMove.transferDone u hu rfl stage hw
      · exact hsame (by simp [hw, e])
    | false => exact hsame (by simp [hw])
  | _ => exact hsame rfl

theorem DumpCase.wrapper {dl : DumpLabel} (h : DumpCase C s q dl s') : WrapperMove s q (.dump q dl) (s'.proc q).wrapper := by
  have hsame : (s'.proc q).wrapper = (s.proc q).wrapper → WrapperMove s q (.dump q dl) (s'.proc q).wrapper := fun e => e ▸ .same _
  cases h with
  | fail t pc => simpa using WrapperMove.fail (s := s) (q := q) _ t
  | done t pc => simpa using WrapperMove.dumpDone t pc
  | refuse t j u part pc owner unready => exact hsame (by simp [Store.dropDump])
  | sync t ok pc => exact hsame (by cases ok <;> simp [Store.syncDump, Store.dropDump])
  | submit t ok pc marked => exact hsame (by cases ok <;> simp [Store.submitDump, Store.dropDump])
  | _ => exact hsame (by simp)

theorem StoreCase.wrapper (h : StoreCase C s l s') (q : Nat) : WrapperMove s q l (s'.proc q).wrapper := by
  have hsame : s'.proc q = s.proc q → WrapperMove s q l (s'.proc q).wrapper := fun e => e ▸ .same _
  cases h with
  | submit p isLoad desc full =>
    by_cases e : q = p
    · subst e
      cases full with
      | true => simpa [Store.submit] using WrapperMove.full (s := s) (q := q) isLoad desc
      | false => simpa [Store.submit] using WrapperMove.submit (s := s) (q := q) isLoad desc
    · exact hsame (by simp [Store.submit, e])
  | wait p l w step =>
    by_cases e : q = p
    · subst e
      simpa using WrapperMove.wait l w step
    · exact hsame (by simp [e])
  | dispatch p l _ step =>
    by_cases e : q = p
    · subst e
      exact step.wrapper
    · exact hsame (step.proc_ne e)
  | transfer u l _ lt step => exact step.wrapper lt q
  | dump p l _ step =>
    by_cases e : q = p
    · subst e
      exact step.wrapper
    · exact hsame (step.proc_ne e)
  | loadOver u lt isLoad running => exact .same _
  | dumpOver p t => exact .same _
  | release u lt dropping => exact .same _

theorem WrapperMove.nTask_le {w : TaskWrapper} (h : WrapperMove s q l w) : (s.proc q).wrapper.nTask ≤ w.nTask := by
  cases h with
  | wait l w step => exact Nat.le_of_eq (waitStep_keeps step).nTask.symm
  | submit isLoad desc => simp
  | full isLoad desc => simp
  | _ => exact Nat.le_refl _

/-- A latch of an old task is only counted down. -/
theorem WrapperMove.counter_le {w : TaskWrapper} (h : WrapperMove s q l w) (ht : t < (s.proc q).wrapper.nTask) :
    w.counter t ≤ (s.proc q).wrapper.counter t := by
  cases h with
  | same => exact Nat.le_refl _
  | submit isLoad desc => simp [Nat.ne_of_lt ht]
  | full isLoad desc => simp [Nat.ne_of_lt ht]
  | wait l w step => rw [(waitStep_keeps step).counter]
  | fail l t' => simp
  | dispatchDone t' pc =>
    rw [TaskWrapper.done_counter]
    split
    · next e => subst e; omega
    · exact Nat.le_refl _
  | transferDone u lt proc stage waiter =>
    rw [TaskWrapper.done_counter]
    split
    · next e => subst e; omega
    · exact Nat.le_refl _
  | dumpDone t' pc =>
    rw [TaskWrapper.done_counter]
    split
    · next e => subst e; omega
    · exact Nat.le_refl _

end Wrapper

/-! ## Waiting -/

/-- A `Wait` that has returned found its latch at zero. -/
structure Waits (s : Store Block) : Prop where
  called : ∀ p t, (s.proc p).wrapper.wait t ≠ .notCalled → t < (s.proc p).wrapper.nTask
  returned : ∀ p t, (s.proc p).wrapper.wait t = .returned → (s.proc p).wrapper.counter t = 0

theorem StoreCase.waits {C : Config Block} {s s' : Store Block} {l : StoreLabel Block} (hw : Waits s) (h : StoreCase C s l s') :
    Waits s' := by
  have hold : ∀ p t, (s'.proc p).wrapper.wait t ≠ .notCalled → t < (s.proc p).wrapper.nTask ∧
      ((s'.proc p).wrapper.wait t = .returned → (s.proc p).wrapper.counter t = 0) := by
    intro p t hne
    have hm := h.wrapper p
    generalize (s'.proc p).wrapper = w at hm hne
    cases hm with
    | wait wl w step =>
      have hk := waitStep_keeps step
      have hlt : t < (s.proc p).wrapper.nTask := by
        rcases hk.called t hne with hc | hlt
        · exact hw.called p t hc
        · exact hlt
      refine ⟨hlt, fun hr => ?_⟩
      rcases hk.returned t hr with hr | hz
      · exact hw.returned p t hr
      · exact hz
    | _ => exact ⟨hw.called p t hne, hw.returned p t⟩
  refine ⟨fun p t hne => ?_, fun p t hr => ?_⟩
  · exact Nat.lt_of_lt_of_le (hold p t hne).1 (h.wrapper p).nTask_le
  · obtain ⟨hlt, hz⟩ := hold p t (by rw [hr]; decide)
    exact Nat.le_zero.mp (hz hr ▸ (h.wrapper p).counter_le hlt)

/-- It stays returned. -/
theorem StoreCase.returned {C : Config Block} {s s' : Store Block} {l : StoreLabel Block} {p t : Nat} (h : StoreCase C s l s')
    (hr : (s.proc p).wrapper.wait t = .returned) : (s'.proc p).wrapper.wait t = .returned := by
  have hm := h.wrapper p
  generalize (s'.proc p).wrapper = w at hm
  cases hm with
  | wait wl w step => exact (waitStep_keeps step).kept t hr
  | _ => exact hr

/-! ## The tasks -/

/-- The task that a dispatcher has taken from `waiting_`. -/
@[simp] def DispatchPc.task : DispatchPc → Option Nat
  | .idle => none
  | .loop t _ | .got t _ _ | .failing t | .done t | .pushing t => some t

@[simp] def DumpPc.task : DumpPc → Option Nat
  | .idle => none
  | .loop t _ | .got t _ _ | .sync t | .mark t | .failed t | .done t => some t

/-- Task `t` has been submitted, as a load or as a dump. -/
def Proc.Task (pr : Proc Block) (isLoad : Bool) (t : Nat) : Prop := t < pr.wrapper.nTask ∧ (pr.task t).isLoad = isLoad

/-- Who has a task, has one of its kind. -/
structure Typed (s : Store Block) : Prop where
  waiting : ∀ p t, t ∈ (s.proc p).waiting → (s.proc p).Task true t
  dispatcher : ∀ p t, (s.proc p).dispatcher.task = some t → (s.proc p).Task true t
  dumpWaiting : ∀ p t, t ∈ (s.proc p).dumpWaiting → (s.proc p).Task false t
  dumper : ∀ p t, (s.proc p).dumper.task = some t → (s.proc p).Task false t
  item : ∀ v, v < s.nItem → (s.proc (s.item v).proc).Task (s.item v).isLoad (s.item v).task

section Tasks

variable {C : Config Block} {s s' : Store Block} {l : StoreLabel Block} {p q u v t : Nat} {isLoad : Bool}

/-- A submitted task is not changed. -/
theorem StoreCase.task_eq (h : StoreCase C s l s') (ht : t < (s.proc q).wrapper.nTask) :
    (s'.proc q).task t = (s.proc q).task t := by
  cases h with
  | submit p isLoad desc full =>
    simp only [Store.submit, setProc_proc]
    split
    · next e =>
      subst e
      exact Function.update_of_ne (Nat.ne_of_lt ht) _ _
    · rfl
  | wait p l w step =>
    simp only [setWrapper_proc]
    split
    · next e => rw [e]
    · rfl
  | dispatch p l _ step =>
    by_cases e : q = p
    · rw [e, step.proc_eq]
    · rw [step.proc_ne e]
  | transfer u l _ lt step => rw [step.proc_eq]
  | dump p l _ step =>
    by_cases e : q = p
    · rw [e, step.proc_eq]
    · rw [step.proc_ne e]
  | loadOver u lt isLoad running => rfl
  | dumpOver p t => rfl
  | release u lt dropping => rfl

theorem StoreCase.task (h : StoreCase C s l s') (ht : (s.proc q).Task isLoad t) : (s'.proc q).Task isLoad t :=
  ⟨Nat.lt_of_lt_of_le ht.1 (h.wrapper q).nTask_le, by rw [h.task_eq ht.1]; exact ht.2⟩

/-- A dispatcher's task is the one it had, or the first that was waiting. -/
theorem DispatchCase.task {dl : DispatchLabel} (h : DispatchCase C s q dl s') (ht : (s'.proc q).dispatcher.task = some t) :
    (s.proc q).dispatcher.task = some t ∨ ∃ rest, dl = .start ∧ (s.proc q).dispatcher = .idle ∧
    (s.proc q).waiting = t :: rest := by
  cases h with
  | start t' rest pc first =>
    simp only [setProc_proc, if_true] at ht
    have : t' = t := by split at ht <;> exact Option.some.inj ht
    exact .inr ⟨rest, rfl, pc, this ▸ first⟩
  | enqueue t' j u ok backend pc submitted =>
    unfold Store.enqueue at ht
    simp only at ht
    rw [pc]
    split at ht <;> exact .inl (by simpa using ht)
  | finish t' pc =>
    rw [pc]
    simp only [setDispatcher_proc, if_true] at ht
    split at ht
    · exact .inl ht
    · cases ht
  | push t' u pc collected first => exact .inl (by simpa [Store.pushItem] using ht)
  | get t' j blockId shardIdx i b owner pc shard spec =>
    rw [pc]
    exact .inl (by simpa using ht)
  | refuse t' j u pc owner unready =>
    rw [pc]
    exact .inl (by simpa using ht)
  | pushed t' pc none => simp at ht
  | fail t' pc =>
    rw [pc]
    exact .inl (by simpa using ht)
  | done t' pc => simp at ht

theorem DumpCase.task {dl : DumpLabel} (h : DumpCase C s q dl s') (ht : (s'.proc q).dumper.task = some t) :
    (s.proc q).dumper.task = some t ∨ t ∈ (s.proc q).dumpWaiting := by
  cases h with
  | start ok t' rest pc first =>
    simp only [setProc_proc, if_true] at ht
    have : t' = t := by
      cases hf : (s.proc q).wrapper.failureSet t' <;> cases ok <;> simpa [hf] using ht
    exact .inr (by rw [first, this]; exact List.mem_cons_self)
  | get t' j blockId shardIdx i b owner pc shard spec =>
    rw [pc]
    exact .inl (by simpa using ht)
  | skip t' j u ok part pc shared =>
    rw [pc]
    exact .inl (by simpa using ht)
  | found t' j u ok part pc owner ready =>
    rw [pc]
    exact .inl (by simpa using ht)
  | copy t' j u part pc owner unready =>
    rw [pc]
    exact .inl (by simpa using ht)
  | refuse t' j u part pc owner unready =>
    rw [pc]
    exact .inl (by simpa [Store.dropDump] using ht)
  | finish t' pc =>
    rw [pc]
    simp only [setDumper_proc, if_true] at ht
    left
    split at ht <;> exact ht
  | sync t' ok pc =>
    rw [pc]
    cases ok <;> exact .inl (by simpa [Store.syncDump, Store.dropDump] using ht)
  | mark t' u pc synced => exact .inl ht
  | submit t' ok pc marked =>
    rw [pc]
    cases ok <;> exact .inl (by simpa [Store.submitDump, Store.dropDump] using ht)
  | fail t' pc =>
    rw [pc]
    exact .inl (by simpa using ht)
  | done t' pc => simp at ht
  | waited t' rest ok first ended => exact .inl (by simpa using ht)

/-- The queues hold what was in them, and what has been submitted. -/
theorem StoreCase.queues (h : StoreCase C s l s') (q : Nat) :
    (∀ t, t ∈ (s'.proc q).waiting → t ∈ (s.proc q).waiting ∨ t = (s.proc q).wrapper.nTask ∧ (s'.proc q).Task true t) ∧
      ∀ t, t ∈ (s'.proc q).dumpWaiting → t ∈ (s.proc q).dumpWaiting ∨ t = (s.proc q).wrapper.nTask ∧
      (s'.proc q).Task false t := by
  have hsame : (s'.proc q).waiting = (s.proc q).waiting → (s'.proc q).dumpWaiting = (s.proc q).dumpWaiting →
      (∀ t, t ∈ (s'.proc q).waiting → t ∈ (s.proc q).waiting ∨ t = (s.proc q).wrapper.nTask ∧ (s'.proc q).Task true t) ∧
        ∀ t, t ∈ (s'.proc q).dumpWaiting → t ∈ (s.proc q).dumpWaiting ∨ t = (s.proc q).wrapper.nTask ∧ (s'.proc q).Task false t :=
    fun e1 e2 => ⟨fun t ht => .inl (e1 ▸ ht), fun t ht => .inl (e2 ▸ ht)⟩
  cases h with
  | submit p isLoad desc full =>
    by_cases e : q = p
    · subst e
      refine ⟨fun t ht => ?_, fun t ht => ?_⟩
      all_goals cases isLoad <;> cases full
      all_goals simp [Store.submit, Proc.Task] at ht ⊢
      all_goals first
        | exact .inl ht
        | exact ht.imp id fun h => ⟨h, by subst h; simp⟩
    · exact hsame (by simp [Store.submit, e]) (by simp [Store.submit, e])
  | wait p l w step =>
    refine hsame ?_ ?_ <;>
    · simp only [setWrapper_proc]
      split
      · next e => rw [e]
      · rfl
  | dispatch p l _ step =>
    by_cases e : q = p
    · subst e
      have hdump : (s'.proc q).dumpWaiting = (s.proc q).dumpWaiting := by rw [step.proc_eq]
      refine ⟨fun t ht => .inl ?_, fun t ht => .inl (hdump ▸ ht)⟩
      cases step with
      | start t' rest pc first =>
        rw [first]
        exact List.mem_cons_of_mem _ (by simpa using ht)
      | enqueue t' j u ok backend pc submitted =>
        unfold Store.enqueue at ht
        simp only at ht
        split at ht <;> simpa using ht
      | push t' u pc collected first => simpa [Store.pushItem] using ht
      | _ => simpa using ht
    · rw [step.proc_ne e]
      exact ⟨fun t ht => .inl ht, fun t ht => .inl ht⟩
  | transfer u l _ lt step => exact hsame (by rw [step.proc_eq]) (by rw [step.proc_eq])
  | dump p l _ step =>
    by_cases e : q = p
    · subst e
      have hload : (s'.proc q).waiting = (s.proc q).waiting := by rw [step.proc_eq]
      refine ⟨fun t ht => .inl (hload ▸ ht), fun t ht => .inl ?_⟩
      cases step with
      | start ok t' rest pc first =>
        rw [first]
        exact List.mem_cons_of_mem _ (by simpa using ht)
      | refuse t' j u part pc owner unready => simpa [Store.dropDump] using ht
      | sync t' ok pc => cases ok <;> simpa [Store.syncDump, Store.dropDump] using ht
      | submit t' ok pc marked => cases ok <;> simpa [Store.submitDump, Store.dropDump] using ht
      | _ => simpa using ht
    · rw [step.proc_ne e]
      exact ⟨fun t ht => .inl ht, fun t ht => .inl ht⟩
  | loadOver u lt isLoad running => exact hsame rfl rfl
  | dumpOver p t => exact hsame rfl rfl
  | release u lt dropping => exact hsame rfl rfl

theorem StoreCase.typed (hty : Typed s) (h : StoreCase C s l s') : Typed s' := by
  refine ⟨fun p t ht => ?_, fun p t ht => ?_, fun p t ht => ?_, fun p t ht => ?_, fun v hv => ?_⟩
  · rcases (h.queues p).1 t ht with ht | ⟨-, ht⟩
    · exact h.task (hty.waiting p t ht)
    · exact ht
  · refine h.task ?_
    by_cases hd : ∃ dl, l = .dispatch p dl
    · obtain ⟨dl, rfl⟩ := hd
      cases h with
      | dispatch _ _ _ step =>
        obtain ht | ⟨rest, -, -, hw⟩ := step.task ht
        · exact hty.dispatcher p t ht
        · exact hty.waiting p t (hw ▸ List.mem_cons_self)
    · rw [h.dispatcher_eq fun dl e => hd ⟨dl, e⟩] at ht
      exact hty.dispatcher p t ht
  · rcases (h.queues p).2 t ht with ht | ⟨-, ht⟩
    · exact h.task (hty.dumpWaiting p t ht)
    · exact ht
  · refine h.task ?_
    by_cases hd : ∃ dl, l = .dump p dl
    · obtain ⟨dl, rfl⟩ := hd
      cases h with
      | dump _ _ _ step =>
        rcases step.task ht with ht | ht
        · exact hty.dumper p t ht
        · exact hty.dumpWaiting p t ht
    · rw [h.dumper_eq fun dl e => hd ⟨dl, e⟩] at ht
      exact hty.dumper p t ht
  · rcases h.old_or_new hv with hv | ⟨rfl, hget⟩
    · have hf := h.kept.fixed hv
      rw [hf.proc, hf.isLoad, hf.task]
      exact h.task (hty.item v hv)
    · refine ?_
      cases hget with
      | load p t j blockId shardIdx i owner pc shard spec item got =>
        rw [item]
        exact h.task (hty.dispatcher p t (by rw [pc]; rfl))
      | dump p t j blockId shardIdx i owner pc shard spec item got =>
        rw [item]
        exact h.task (hty.dumper p t (by rw [pc]; rfl))

end Tasks

/-! ## The keys -/

/-- The key of an item: its shard in its task's `desc`. -/
def Store.key (s : Store Block) (v : Nat) : Option (Block × Nat) :=
  ((s.proc (s.item v).proc).task (s.item v).task).desc[(s.item v).shard]?

/-- A node in use carries the key of each of its handles. -/
def KeyInv (s : Store Block) : Prop :=
  ∀ v, v < s.nItem → ∃ blockId shardIdx, s.key v = some (blockId, shardIdx) ∧
    ((s.item v).handle ≠ .released → s.buf.Keyed (s.item v).pos blockId shardIdx)

section Keys

variable {C : Config Block} {s s' : Store Block} {l : StoreLabel Block} {u v : Nat}

theorem StoreCase.key_eq (hty : Typed s) (h : StoreCase C s l s') (hv : v < s.nItem) : s'.key v = s.key v := by
  have hf := h.kept.fixed hv
  rw [Store.key, Store.key, hf.proc, hf.task, hf.shard, h.task_eq (hty.item v hv).1]

theorem Gets.key (hty : Typed s) (hg : Gets C s s' l) (h : StoreCase C s l s') : ∃ blockId shardIdx i owner isLoad,
    s'.key s.nItem = some (blockId, shardIdx) ∧ (s'.item s.nItem).pos = i ∧ (s'.item s.nItem).owner = owner ∧
      (s'.item s.nItem).handle = .held ∧ GetSpec s.buf s'.buf ⟨blockId, shardIdx, isLoad, isLoad⟩ i owner := by
  cases hg with
  | load p t j blockId shardIdx i owner pc shard spec item got =>
    refine ⟨blockId, shardIdx, i, owner, true, ?_, by rw [item]; rfl, by rw [item]; rfl, by rw [item]; rfl, spec⟩
    have htask := h.task_eq (hty.dispatcher p t (by rw [pc]; rfl)).1
    rw [Store.key, item]
    simpa only [Item.start, htask] using shard
  | dump p t j blockId shardIdx i owner pc shard spec item got =>
    refine ⟨blockId, shardIdx, i, owner, false, ?_, by rw [item]; rfl, by rw [item]; rfl, by rw [item]; rfl, spec⟩
    have htask := h.task_eq (hty.dumper p t (by rw [pc]; rfl)).1
    rw [Store.key, item]
    simpa only [Item.start, htask] using shard

theorem StoreCase.keyInv (hty : Typed s) (hr : RefInv s) (hk : KeyInv s) (h : StoreCase C s l s') : KeyInv s' := by
  intro v hv
  rcases h.old_or_new hv with hv | ⟨rfl, hget⟩
  · obtain ⟨blockId, shardIdx, hkey, hnode⟩ := hk v hv
    refine ⟨blockId, shardIdx, (h.key_eq hty hv).trans hkey, fun hh => ?_⟩
    have hh : (s.item v).handle ≠ .released := fun e => hh (h.kept.released hv e)
    have hsame := (h.kept.live hr hv hh).2.2
    rw [(h.kept.fixed hv).pos]
    exact ⟨hsame.1.trans (hnode hh).1, hsame.2.trans (hnode hh).2⟩
  · obtain ⟨blockId, shardIdx, i, owner, isLoad, hkey, hpos, -, -, spec⟩ := hget.key hty h
    exact ⟨blockId, shardIdx, hkey, fun _ => hpos ▸ spec.keyed⟩

end Keys

/-! ## Every reachable state -/

section Reach

variable [DecidableEq Block] {C : Config Block} {ok : Store Block → StoreLabel Block → Prop} {s : Store Block}

theorem reach_waits (h : Reach (cacheStore C) ok s) : Waits s := by
  refine Reach.inv (I := Waits) (fun s hi => ⟨fun p t hne => ?_, fun p t hr => ?_⟩)
    (fun _ _ _ hw _ hst => (storeStep_case hst).waits hw) h
  · rw [hi.wrapper] at hne
    exact absurd rfl hne
  · rw [hi.wrapper] at hr
    cases hr

theorem reach_typed (h : Reach (cacheStore C) ok s) : Typed s := by
  refine Reach.inv (I := Typed) (fun s hi => ⟨fun p t ht => ?_, fun p t ht => ?_, fun p t ht => ?_, fun p t ht => ?_,
    fun v hv => ?_⟩)
    (fun _ _ _ hty _ hst => (storeStep_case hst).typed hty) h
  · rw [hi.waiting] at ht
    cases ht
  · rw [hi.dispatcher] at ht
    cases ht
  · rw [hi.dumpWaiting] at ht
    cases ht
  · rw [hi.dumper] at ht
    cases ht
  · rw [hi.nItem] at hv
    omega

theorem reach_keyInv (h : Reach (cacheStore C) ok s) : KeyInv s := by
  refine Reach.inv_with (I := KeyInv) (J := fun s => Typed s ∧ RefInv s) (fun _ hr => ⟨reach_typed hr, reach_refInv hr⟩)
    (fun s hi v hv => ?_) (fun _ _ _ hJ hI _ hst => (storeStep_case hst).keyInv hJ.1 hJ.2 hI) h
  rw [hi.nItem] at hv
  omega

end Reach

end UnifiedCache.Cache
