/-
  UnifiedCache.Cache.Completion — how often a load task's waiter is counted down
  (`LoadQueue::Submit`, `DispatchOneTask` and `TransferOneTask` of ucm/store/cache/cc/load_queue.cc,
  `TaskWrapper::Wait`).

  A task owes its count-down while it is in `waiting_`, while the dispatcher has it and has given
  the waiter to no shard, and while the shard that has the waiter is in `running_` or with the
  transfer thread (`Owes`). `countedStore` counts the calls of `Done` on each waiter. In every run
  a task that owes has none, and no task has two.

  Two ways out remain: a task without shards is dispatched, which no one counts down; and the
  dispatcher gives a task up while shards of it are in `running_`, which `Wait` does not wait for.
  `Completes` leaves out exactly these.
-/

import UnifiedCache.Cache.LoadWait

namespace UnifiedCache.Cache

open UnifiedCache.Base UnifiedCache.Detail

variable {Block : Type}

/-- The waiter that a step counts down: its process and task. -/
def Store.doneOf (s : Store Block) : StoreLabel Block → Option (Nat × Nat)
  | .submit p _ _ true => some (p, (s.proc p).wrapper.nTask)
  | .dispatch p .done =>
    match (s.proc p).dispatcher with
    | .done t => some (p, t)
    | _ => none
  | .transfer u .done => if (s.item u).waiter then some ((s.item u).proc, (s.item u).task) else none
  | .dump p .done =>
    match (s.proc p).dumper with
    | .done t => some (p, t)
    | _ => none
  | _ => none

def countDone (n : Nat → Nat → Nat) (s : Store Block) (l : StoreLabel Block) (p t : Nat) : Nat :=
  if s.doneOf l = some (p, t) then n p t + 1 else n p t

/-- The store, and how often the waiter of each process's tasks has been counted down. -/
def countedStore [DecidableEq Block] (C : Config Block) : System (Store Block × (Nat → Nat → Nat)) (StoreLabel Block) :=
  (cacheStore C).record (fun _ _ => 0) countDone

/-- Item `w` has the waiter of task `t`. -/
structure HasWaiter (s : Store Block) (p t w : Nat) : Prop where
  lt : w < s.nItem
  proc : (s.item w).proc = p
  task : (s.item w).task = t
  waiter : (s.item w).waiter = true

/-- The count-down of task `t` is still to come. -/
inductive Owes (s : Store Block) (p t : Nat) : Prop
  | waiting (mem : t ∈ (s.proc p).waiting)
  | dispatching (pc : (s.proc p).dispatcher.task = some t) (none : ∀ w, ¬ HasWaiter s p t w)
  | running (w : Nat) (has : HasWaiter s p t w) (queue : (s.item w).stage.inQueue = true)

/-- Every queue item of task `t` has been processed. -/
structure Processed (s : Store Block) (p t : Nat) : Prop where
  launched : Launched s p t
  items : ∀ v, v < s.nItem → (s.item v).proc = p → (s.item v).task = t → (s.item v).stage.inQueue = false

/-- Where the waiter is, or will be. -/
structure WaiterBook (C : Config Block) (s : Store Block) : Prop where
  unique : ∀ p t w w', HasWaiter s p t w → HasWaiter s p t w' → w = w'
  boundary : ∀ p t w, HasWaiter s p t w → C.taskLaunch p = true → (s.item w).launchBoundary = true
  collecting : ∀ p t j, C.taskLaunch p = true → 0 < j →
    (s.proc p).dispatcher = .loop t j ∨ (∃ u, (s.proc p).dispatcher = .got t j u) → ∃ v, s.At p .collected v
  pushed : ∀ p t, C.taskLaunch p = false → (s.proc p).dispatcher = .loop t ((s.proc p).task t).desc.length →
    ((s.proc p).task t).desc ≠ [] → ∃ w, HasWaiter s p t w
  pushing : ∀ p t, (s.proc p).dispatcher = .pushing t → ((s.proc p).task t).desc ≠ [] →
    (∃ v, s.At p .collected v) ∨ ∃ w, HasWaiter s p t w

/-- No task without shards is dispatched, unless it has failed by then; and none is given up with
    shards of it in `running_` or with the transfer thread. -/
def Completes (s : Store Block) : StoreLabel Block → Prop
  | .dispatch p .start => ∀ t, (s.proc p).waiting.head? = some t → (s.proc p).wrapper.failureSet t = true ∨
      ((s.proc p).task t).desc ≠ []
  | .dispatch p .done => ∀ t, (s.proc p).dispatcher = .done t → ∀ v, v < s.nItem → (s.item v).proc = p → (s.item v).task = t →
      (s.item v).stage.inQueue = false
  | _ => True

section Book

variable {C : Config Block} {s s' : Store Block} {b : Buf Block} {l : StoreLabel Block} {p q u v w t : Nat} {x : Item}

theorem Move.keepsWaiter (h : Move C s b v l x) (hgot : (s.item v).stage ≠ .got) (hcol : (s.item v).stage ≠ .collected)
    (hw : (s.item v).waiter = true) : x.waiter = true := by
  cases h with
  | queue p ok backend pc proc stage mode submitted => exact absurd stage hgot
  | push p t pc collected first => exact absurd collected.2.2 hcol
  | _ => exact hw

/-- The item that has the waiter is in the transfer thread's hands until it counts down. -/
theorem Move.running (h : Move C s b v l x) (hw : (s.item v).waiter = true)
    (hb : C.taskLaunch (s.item v).proc = true → (s.item v).launchBoundary = true) (hq : (s.item v).stage.inQueue = true) :
    x.stage.inQueue = true ∨ l = .transfer v .done := by
  have hno : ∀ {st : Stage}, (s.item v).stage = st → st.inQueue = true := fun e => e ▸ hq
  cases h with
  | done stage => exact .inr rfl
  | skip stage next failed waiter =>
    rw [hw] at waiter
    cases waiter
  | hold stage mode =>
    rw [hb mode]
    exact .inl rfl
  | copy ok part stage mode =>
    rw [hw]
    cases ok <;> exact .inl rfl
  | waited ok stage => cases ok <;> exact .inl rfl
  | sync ok h stage => cases ok <;> exact .inl rfl
  | check stage =>
    refine .inl ?_
    simp only
    split <;> rfl
  | look stage' stage backend outcome => obtain ⟨-, rfl⟩ | ⟨-, rfl⟩ | ⟨-, rfl⟩ := outcome <;> exact .inl rfl
  | same | flushed | synced | loadOver | release | dumpOver => exact .inl hq
  | syncDump p t pc proc isLoad =>
    refine .inl ?_
    simp only
    split
    · next e => exact absurd (hno e) nofun
    · exact hq
  | skipLast | take | flush | flushFails | fail => exact .inl rfl
  | giveUp p l proc why stage => exact stage.elim (fun e => absurd (hno e) nofun) fun e => absurd (hno e) nofun
  | abandon p t pc proc stage => exact stage.elim (fun e => absurd (hno e) nofun) fun e => absurd (hno e) nofun
  | push p t pc collected first => exact absurd (hno collected.2.2) nofun
  | collect p ok backend pc proc stage => exact absurd (hno stage) nofun
  | queue p ok backend pc proc stage => exact absurd (hno stage) nofun
  | cleared u l other proc why stage => exact absurd (hno stage) nofun
  | skipDump p ok part pc proc stage => exact absurd (hno stage) nofun
  | found p ok part pc proc stage => exact absurd (hno stage) nofun
  | copyDump p part pc proc stage => exact absurd (hno stage) nofun
  | refuseDump p part pc proc stage => exact absurd (hno stage) nofun
  | submitDump p t pc proc stage => exact absurd (hno stage) nofun
  | waitedDump p t rest ok first proc stage => exact absurd (hno stage) nofun

/-- An item that has the waiter keeps it. -/
theorem StoreCase.hasWaiter (hl : Linked s) (hline : Line C s) (hlast : WaiterLast s) (h : StoreCase C s l s')
    (hw : HasWaiter s p t w) :
    HasWaiter s' p t w := by
  obtain ⟨hlt, rfl, rfl, hwait⟩ := hw
  have hnone := (hlast.launched w hlt hwait).none_coming hl hline hlt rfl rfl
  have hf := h.kept.fixed hlt
  exact ⟨Nat.lt_of_lt_of_le hlt h.kept.nItem_le, hf.proc, hf.task, (h.move hl hlt).keepsWaiter hnone.1 hnone.2 hwait⟩

/-- An item that has it had it, or is just pushed as the last of its task. -/
theorem StoreCase.waiter_old (hl : Linked s) (h : StoreCase C s l s') (hw : HasWaiter s' p t w) :
    HasWaiter s p t w ∨ w < s.nItem ∧ (s.item w).proc = p ∧ (s.item w).task = t ∧ (s'.item w).stage = .queued ∧
      Pushed s l w (s'.item w) ∧
      (C.taskLaunch p = false ∧ (s.proc p).dispatcher = .got t (s.item w).shard w ∧
          (s.item w).shard + 1 = ((s.proc p).task t).desc.length ∨
        l = .dispatch p (.push w) ∧ ∀ v, v < s.nItem → s.At p .collected v → v = w) := by
  obtain ⟨hlt, hp, ht, hwait⟩ := hw
  rcases h.old_or_new hlt with hlt | ⟨rfl, hget⟩
  · have hf := h.kept.fixed hlt
    rw [hf.proc] at hp
    rw [hf.task] at ht
    subst hp ht
    obtain hwait | ⟨hst, hpush, hwhy⟩ := (h.move hl hlt).waiter hwait
    · exact .inl ⟨hlt, rfl, rfl, hwait⟩
    · exact .inr ⟨hlt, rfl, rfl, hst, hpush, hwhy⟩
  · cases hget with
    | load p' t' j blockId shardIdx i owner pc shard spec item got =>
      rw [item] at hwait
      cases hwait
    | dump p' t' j blockId shardIdx i owner pc shard spec item got =>
      rw [item] at hwait
      cases hwait

/-- What is pushed is of the dispatcher's task. -/
theorem Pushed.dispatching (hline : Line C s) (hp : Pushed s l v x) (hv : v < s.nItem) :
    (s.proc (s.item v).proc).dispatcher.task = some (s.item v).task := by
  obtain ⟨-, -, hpc⟩ | ⟨-, hst⟩ := hp.label
  · rw [hpc]
    rfl
  · exact (hline.collected v hv hst).2

/-- A task whose waiter an item has, has nothing that is about to be pushed. -/
theorem HasWaiter.not_pushed (hl : Linked s) (hline : Line C s) (hlast : WaiterLast s) (hw : HasWaiter s p t w) (hv : v < s.nItem)
    (hp : (s.item v).proc = p) (ht : (s.item v).task = t) : ¬ Pushed s l v x := by
  obtain ⟨hlt, rfl, rfl, hwait⟩ := hw
  have hnone := (hlast.launched w hlt hwait).none_coming hl hline hv hp ht
  intro hpush
  obtain ⟨-, hst, -⟩ | ⟨-, hst⟩ := hpush.label
  · exact hnone.1 hst
  · exact hnone.2 hst

theorem Move.keepsBoundary (h : Move C s b v l x) (hp : ¬ Pushed s l v x) (hb : (s.item v).launchBoundary = true) :
    x.launchBoundary = true := by
  cases h with
  | push p t pc collected first =>
    obtain ⟨-, rfl, hst⟩ := collected
    exact absurd ⟨.inr ⟨rfl, hst⟩, by simp [Store.pushItem]⟩ hp
  | _ => exact hb

/-- Only its dispatcher takes an item out of its vectors. -/
theorem StoreCase.collected_stays (hl : Linked s) (h : StoreCase C s l s') (hne : ∀ dl, l ≠ .dispatch p dl)
    (hv : s.At p .collected v) :
    s'.At p .collected v := by
  obtain ⟨hlt, rfl, hst⟩ := hv
  refine ⟨Nat.lt_of_lt_of_le hlt h.kept.nItem_le, (h.kept.fixed hlt).proc, ?_⟩
  exact ((h.move hl hlt).dispatching hne (.inr rfl)).mpr hst

theorem StoreCase.book_unique (hl : Linked s) (hline : Line C s) (hlast : WaiterLast s) (hb : WaiterBook C s)
    (h : StoreCase C s l s')
    (hw : HasWaiter s' p t w) (hv : HasWaiter s' p t v) : w = v := by
  obtain hw | ⟨hwlt, hwp, hwt, -, hwpush, -⟩ := h.waiter_old hl hw <;> obtain hv | ⟨hvlt, hvp, hvt, -, hvpush, -⟩ :=
      h.waiter_old hl hv
  · exact hb.unique p t w v hw hv
  · exact absurd hvpush (hw.not_pushed hl hline hlast hvlt hvp hvt)
  · exact absurd hwpush (hv.not_pushed hl hline hlast hwlt hwp hwt)
  · exact hwpush.unique hvpush (hwp.trans hvp.symm)

theorem StoreCase.book_boundary (hl : Linked s) (hline : Line C s) (hlast : WaiterLast s) (hb : WaiterBook C s)
    (h : StoreCase C s l s')
    (hw : HasWaiter s' p t w) (hmode : C.taskLaunch p = true) : (s'.item w).launchBoundary = true := by
  obtain hold | ⟨hlt, rfl, rfl, -, hpush, ⟨hmode', -⟩ | ⟨rfl, honly⟩⟩ := h.waiter_old hl hw
  · exact (h.move hl hold.lt).keepsBoundary (hold.not_pushed hl hline hlast hold.lt hold.proc hold.task)
      (hb.boundary p t w hold hmode)
  · rw [hmode] at hmode'
    cases hmode'
  · cases h with
    | dispatch _ _ _ step =>
      cases step with
      | push t u pc collected first =>
        suffices ∀ v, v < s.nItem → s.At (s.item w).proc .collected v → (s.item v).ready = (s.item w).ready → v = w by
          simpa [Store.pushItem] using this
        exact fun v hv hat _ => honly v hv hat

theorem StoreCase.book_collecting {j : Nat} (hl : Linked s) (hb : WaiterBook C s) (h : StoreCase C s l s')
    (hmode : C.taskLaunch p = true)
    (hj : 0 < j) (hpc : (s'.proc p).dispatcher = .loop t j ∨ ∃ u, (s'.proc p).dispatcher = .got t j u) : ∃ v,
    s'.At p .collected v := by
  by_cases hd : ∃ dl, l = .dispatch p dl
  · obtain ⟨dl, rfl⟩ := hd
    cases h with
    | dispatch _ _ _ step =>
      cases step with
      | start t' rest pc first =>
        simp only [setProc_proc, if_true] at hpc
        split at hpc <;> simp at hpc
        omega
      | get t' j' blockId shardIdx i b' owner pc shard spec =>
        simp only [setDispatcher_proc, if_true, DispatchPc.got.injEq, reduceCtorEq, false_or] at hpc
        obtain ⟨u', rfl, rfl, -⟩ := hpc
        obtain ⟨v, hv, hp, hst⟩ := hb.collecting p _ _ hmode hj (.inl pc)
        refine ⟨v, Nat.lt_succ_of_lt hv, ?_⟩
        simpa [Nat.ne_of_lt hv] using And.intro hp hst
      | enqueue t' j' u ok backend pc submitted =>
        obtain ⟨hu, hproc, -⟩ := hl.got _ _ _ _ pc
        exact ⟨u, by simp [Store.At, Store.enqueue, hmode, hu, hproc]⟩
      | refuse t' j' u pc owner unready => simp at hpc
      | finish t' pc =>
        simp only [setDispatcher_proc, if_true, hmode] at hpc
        simp at hpc
      | pushed t' pc none => simp at hpc
      | push t' u pc collected first => simp [Store.pushItem, pc] at hpc
      | fail t' pc => simp at hpc
      | done t' pc => simp at hpc
  · have hne := fun dl e => hd ⟨dl, e⟩
    rw [h.dispatcher_eq hne] at hpc
    obtain ⟨v, hv⟩ := hb.collecting p t j hmode hj hpc
    exact ⟨v, h.collected_stays hl hne hv⟩

theorem StoreCase.book_pushed (hl : Linked s) (hty : Typed s) (hline : Line C s) (hlast : WaiterLast s) (hb : WaiterBook C s)
    (h : StoreCase C s l s') (hmode : C.taskLaunch p = false)
    (hpc : (s'.proc p).dispatcher = .loop t ((s'.proc p).task t).desc.length)
    (hne : ((s'.proc p).task t).desc ≠ []) : ∃ w, HasWaiter s' p t w := by
  by_cases hd : ∃ dl, l = .dispatch p dl
  · obtain ⟨dl, rfl⟩ := hd
    cases h with
    | dispatch _ _ _ step =>
      have hlen : ((s'.proc p).task t).desc.length ≠ 0 := fun e => hne (List.eq_nil_of_length_eq_zero e)
      have htask : (s'.proc p).task = (s.proc p).task := by rw [step.proc_eq]
      rw [htask] at hpc hlen
      cases step with
      | start t' rest pc first =>
        simp only [setProc_proc, if_true] at hpc
        split at hpc <;> simp at hpc
        omega
      | get t' j' blockId shardIdx i b' owner pc shard spec => simp at hpc
      | enqueue t' j' u ok backend pc submitted =>
        obtain ⟨hu, hproc, htu, hshard, -⟩ := hl.got _ _ _ _ pc
        have hat : t' = t ∧ j' + 1 = ((s.proc p).task t).desc.length := by simpa [Store.enqueue, hmode] using hpc
        obtain ⟨rfl, hj⟩ := hat
        refine ⟨u, ?_, ?_, ?_, ?_⟩ <;> simp [Store.enqueue, hmode, hu, hproc, htu, hj]
      | refuse t' j' u pc owner unready => simp at hpc
      | finish t' pc => simp [hmode] at hpc
      | pushed t' pc none => simp at hpc
      | push t' u pc collected first => simp [Store.pushItem, pc] at hpc
      | fail t' pc => simp at hpc
      | done t' pc => simp at hpc
  · have hnd := fun dl e => hd ⟨dl, e⟩
    rw [h.dispatcher_eq hnd] at hpc
    have ht : t < (s.proc p).wrapper.nTask := (hty.dispatcher p t (by rw [hpc]; rfl)).1
    rw [h.task_eq ht] at hpc hne
    obtain ⟨w, hw⟩ := hb.pushed p t hmode hpc hne
    exact ⟨w, h.hasWaiter hl hline hlast hw⟩

theorem StoreCase.book_pushing (hl : Linked s) (hty : Typed s) (hline : Line C s) (hlast : WaiterLast s) (hb : WaiterBook C s)
    (h : StoreCase C s l s') (hpc : (s'.proc p).dispatcher = .pushing t) (hne : ((s'.proc p).task t).desc ≠ []) :
    (∃ v, s'.At p .collected v) ∨ ∃ w, HasWaiter s' p t w := by
  by_cases hd : ∃ dl, l = .dispatch p dl
  · obtain ⟨dl, rfl⟩ := hd
    have hold : ∀ w, HasWaiter s p t w → HasWaiter s' p t w := fun w hw => h.hasWaiter hl hline hlast hw
    cases h with
    | dispatch _ _ _ step =>
      have htask : (s'.proc p).task = (s.proc p).task := by rw [step.proc_eq]
      rw [htask] at hne
      cases step with
      | start t' rest pc first =>
        simp only [setProc_proc, if_true] at hpc
        split at hpc <;> simp at hpc
      | get t' j' blockId shardIdx i b' owner pc shard spec => simp at hpc
      | enqueue t' j' u ok backend pc submitted =>
        unfold Store.enqueue at hpc
        simp only at hpc
        split at hpc <;> simp at hpc
      | refuse t' j' u pc owner unready => simp at hpc
      | finish t' pc =>
        cases hmode : C.taskLaunch p with
        | false => simp [hmode] at hpc
        | true =>
          obtain rfl : t' = t := by simpa [hmode] using hpc
          exact .inl (hb.collecting p _ _ hmode (List.length_pos_iff.mpr hne) (.inl pc))
      | pushed t' pc none => simp at hpc
      | push t' u pc collected first =>
        obtain rfl : t' = t := by simpa [Store.pushItem, pc] using hpc
        have htu := (hline.collected u collected.1 collected.2.2).2
        rw [collected.2.1, pc] at htu
        by_cases hother : ∃ v, v < s.nItem ∧ s.At p .collected v ∧ v ≠ u
        · obtain ⟨v, hv, hat, hvu⟩ := hother
          refine .inl ⟨v, hv, ?_⟩
          simpa [Store.pushItem, hvu] using hat.2
        · refine .inr ⟨u, collected.1, ?_, ?_, ?_⟩
          · simpa [Store.pushItem] using collected.2.1
          · simpa [Store.pushItem] using (Option.some.inj htu).symm
          · suffices ∀ v, v < s.nItem → s.At p .collected v → v = u by simpa [Store.pushItem] using this
            intro v hv hat
            by_contra hvu
            exact hother ⟨v, hv, hat, hvu⟩
      | fail t' pc => simp at hpc
      | done t' pc => simp at hpc
  · have hnd := fun dl e => hd ⟨dl, e⟩
    rw [h.dispatcher_eq hnd] at hpc
    have ht : t < (s.proc p).wrapper.nTask := (hty.dispatcher p t (by rw [hpc]; rfl)).1
    rw [h.task_eq ht] at hne
    rcases hb.pushing p t hpc hne with ⟨v, hv⟩ | ⟨w, hw⟩
    · exact .inl ⟨v, h.collected_stays hl hnd hv⟩
    · exact .inr ⟨w, h.hasWaiter hl hline hlast hw⟩

theorem StoreCase.waiterBook (hl : Linked s) (hty : Typed s) (hline : Line C s) (hlast : WaiterLast s) (hb : WaiterBook C s)
    (h : StoreCase C s l s') : WaiterBook C s' where
  unique _ _ _ _ hw hv := h.book_unique hl hline hlast hb hw hv
  boundary _ _ _ hw hmode := h.book_boundary hl hline hlast hb hw hmode
  collecting _ _ _ hmode hj hpc := h.book_collecting hl hb hmode hj hpc
  pushed _ _ hmode hpc hne := h.book_pushed hl hty hline hlast hb hmode hpc hne
  pushing _ _ hpc hne := h.book_pushing hl hty hline hlast hb hpc hne

end Book

/-! ## What is owed -/

section Owed

variable {C : Config Block} {s s' : Store Block} {l : StoreLabel Block} {p q u v w t : Nat}

/-- Who counts down the waiter of a load that has been submitted. -/
theorem StoreCase.doneOf (hty : Typed s) (h : StoreCase C s l s') (hd : s.doneOf l = some (p, t)) (ht : (s.proc p).Task true t) :
    l = .dispatch p .done ∧ (s.proc p).dispatcher = .done t ∨
      ∃ u, l = .transfer u .done ∧ HasWaiter s p t u ∧ (s.item u).stage = .counting := by
  unfold Store.doneOf at hd
  split at hd
  · simp only [Option.some.injEq, Prod.mk.injEq] at hd
    obtain ⟨rfl, rfl⟩ := hd
    exact absurd ht.1 (Nat.lt_irrefl _)
  · split at hd
    · next pc =>
      simp only [Option.some.injEq, Prod.mk.injEq] at hd
      obtain ⟨rfl, rfl⟩ := hd
      exact .inl ⟨rfl, pc⟩
    · cases hd
  · split at hd
    · next u hw =>
      simp only [Option.some.injEq, Prod.mk.injEq] at hd
      obtain ⟨rfl, rfl⟩ := hd
      cases h with
      | transfer _ _ _ lt step =>
        cases step with
        | done stage => exact .inr ⟨u, rfl, ⟨lt, rfl, rfl, hw⟩, stage⟩
    · cases hd
  · split at hd
    · next pc =>
      simp only [Option.some.injEq, Prod.mk.injEq] at hd
      obtain ⟨rfl, rfl⟩ := hd
      have := (hty.dumper _ _ (by rw [pc]; rfl)).2
      rw [ht.2] at this
      cases this
    · cases hd
  · cases hd

theorem StoreCase.doneOf_lt (hty : Typed s) (h : StoreCase C s l s') (hd : s.doneOf l = some (p, t)) :
    t < (s'.proc p).wrapper.nTask := by
  have hle := fun q => (h.wrapper q).nTask_le
  unfold Store.doneOf at hd
  split at hd
  · simp only [Option.some.injEq, Prod.mk.injEq] at hd
    obtain ⟨rfl, rfl⟩ := hd
    cases h with
    | submit _ _ _ _ => simp [Store.submit]
  · split at hd
    · next pc =>
      simp only [Option.some.injEq, Prod.mk.injEq] at hd
      obtain ⟨rfl, rfl⟩ := hd
      exact Nat.lt_of_lt_of_le (hty.dispatcher _ _ (by rw [pc]; rfl)).1 (hle _)
    · cases hd
  · split at hd
    · next u hw =>
      simp only [Option.some.injEq, Prod.mk.injEq] at hd
      obtain ⟨rfl, rfl⟩ := hd
      cases h with
      | transfer _ _ _ lt step => exact Nat.lt_of_lt_of_le (hty.item u lt).1 (hle _)
    · cases hd
  · split at hd
    · next pc =>
      simp only [Option.some.injEq, Prod.mk.injEq] at hd
      obtain ⟨rfl, rfl⟩ := hd
      exact Nat.lt_of_lt_of_le (hty.dumper _ _ (by rw [pc]; rfl)).1 (hle _)
    · cases hd
  · cases hd

/-- A latch moves only with a `Done`. -/
theorem StoreCase.counter (hty : Typed s) (h : StoreCase C s l s') (ht : (s.proc p).Task true t) :
    (s'.proc p).wrapper.counter t = if s.doneOf l = some (p, t) then (s.proc p).wrapper.counter t - 1
    else (s.proc p).wrapper.counter t := by
  split
  · next hd =>
    obtain ⟨rfl, pc⟩ | ⟨u, rfl, ⟨-, rfl, rfl, hw⟩, -⟩ := h.doneOf hty hd ht
    · cases h with
      | dispatch _ _ _ step =>
        cases step with
        | done t' pc' =>
          obtain rfl := DispatchPc.done.inj (pc.symm.trans pc')
          simp
    · cases h with
      | transfer _ _ _ lt step =>
        cases step with
        | done stage => simp [Store.countDown, hw]
  · next hd =>
    have hlt := ht.1
    have hm := h.wrapper p
    generalize (s'.proc p).wrapper = w at hm
    cases hm with
    | same => rfl
    | submit isLoad desc => simp [Nat.ne_of_lt hlt]
    | full isLoad desc => simp [Nat.ne_of_lt hlt]
    | wait l w step => rw [(waitStep_keeps step).counter]
    | fail l t' => rfl
    | dispatchDone t' pc =>
      have : t ≠ t' := by
        intro e
        subst e
        exact hd (by simp [Store.doneOf, pc])
      simp [this]
    | transferDone u lt proc stage waiter =>
      have : t ≠ (s.item u).task := by
        intro e
        subst e
        exact hd (by simp [Store.doneOf, waiter, proc])
      simp [this]
    | dumpDone t' pc =>
      have : t ≠ t' := by
        intro e
        subst e
        exact hd (by simp [Store.doneOf, pc])
      simp [this]

/-- A `Done` is of a task that owes. -/
theorem StoreCase.done_owes (hty : Typed s) (hlast : WaiterLast s) (h : StoreCase C s l s')
    (hd : s.doneOf l = some (p, t)) (ht : (s.proc p).Task true t) : Owes s p t := by
  obtain ⟨rfl, pc⟩ | ⟨u, rfl, hw, hst⟩ := h.doneOf hty hd ht
  · refine .dispatching (by rw [pc]; rfl) fun w hw => ?_
    obtain ⟨hlt, rfl, rfl, hwait⟩ := hw
    obtain ⟨hat, -⟩ := (hlast.launched w hlt hwait).pushed (by rw [pc]; rfl)
    rw [pc] at hat
    rcases hat with hat | hat <;> cases hat
  · exact .running u hw (by rw [hst]; rfl)

/-- And it owes no more. -/
theorem StoreCase.done_paid (hl : Linked s) (hty : Typed s) (hline : Line C s) (hlast : WaiterLast s) (hb : WaiterBook C s)
    (h : StoreCase C s l s') (hd : s.doneOf l = some (p, t)) (ht : (s.proc p).Task true t) : ¬ Owes s' p t := by
  have hwaiting : t ∉ (s.proc p).waiting → t ∉ (s'.proc p).waiting := by
    intro hno hmem
    rcases (h.queues p).1 t hmem with hmem | ⟨e, -⟩
    · exact hno hmem
    · exact absurd ht.1 (by omega)
  obtain ⟨rfl, pc⟩ | ⟨u, rfl, hu, hst⟩ := h.doneOf hty hd ht
  · have hno : ∀ w, ¬ HasWaiter s p t w := by
      rintro w ⟨hlt, rfl, rfl, hwait⟩
      obtain ⟨hat, -⟩ := (hlast.launched w hlt hwait).pushed (by rw [pc]; rfl)
      rw [pc] at hat
      rcases hat with hat | hat <;> cases hat
    intro hO
    cases hO with
    | waiting hmem => exact hwaiting (hline.started p t (by rw [pc]; rfl)) hmem
    | dispatching pc' none =>
      cases h with
      | dispatch _ _ _ step =>
        cases step with
        | done t' pc'' => simp at pc'
    | running w hw hq =>
      obtain hw | ⟨-, -, -, -, hpush, -⟩ := h.waiter_old hl hw
      · exact hno w hw
      · obtain ⟨⟨ok, e⟩, -⟩ | ⟨e, -⟩ := hpush.label
        · injection e with _ e
          cases e
        · injection e with _ e
          cases e
  · have hu' := h.hasWaiter hl hline hlast hu
    intro hO
    cases hO with
    | waiting hmem =>
      obtain ⟨hlt, rfl, rfl, hwait⟩ := hu
      exact hwaiting (hlast.launched u hlt hwait).started hmem
    | dispatching pc none => exact none u hu'
    | running w hw hq =>
      obtain rfl := h.book_unique hl hline hlast hb hw hu'
      cases h with
      | transfer _ _ _ lt step =>
        cases step with
        | done stage =>
          cases hwait : (s.item w).waiter <;> simp [Store.countDown, hwait, Item.drop, Stage.inQueue] at hq <;> cases hq

/-- A waiting task stays, or the dispatcher takes it. -/
theorem StoreCase.waiting_next (h : StoreCase C s l s') (hmem : t ∈ (s.proc p).waiting) :
    t ∈ (s'.proc p).waiting ∨ (s'.proc p).dispatcher.task = some t := by
  have hsame : s'.proc p = s.proc p → t ∈ (s'.proc p).waiting ∨ (s'.proc p).dispatcher.task = some t := fun e => .inl (e ▸ hmem)
  cases h with
  | submit q isLoad desc full =>
    by_cases e : p = q
    · subst e
      refine .inl ?_
      simp only [Store.submit, setProc_proc, if_true]
      split
      · exact List.mem_append_left _ hmem
      · exact hmem
    · exact hsame (by simp [Store.submit, e])
  | wait q l w step =>
    by_cases e : p = q
    · subst e
      exact .inl (by simpa using hmem)
    · exact hsame (by simp [e])
  | dispatch q l _ step =>
    by_cases e : p = q
    · subst e
      cases step with
      | start t' rest pc first =>
        rw [first] at hmem
        simp only [setProc_proc, if_true]
        rcases List.mem_cons.mp hmem with rfl | hmem
        · refine .inr ?_
          split <;> rfl
        · exact .inl hmem
      | enqueue t' j u ok backend pc submitted =>
        refine .inl ?_
        unfold Store.enqueue
        simp only
        split <;> simpa using hmem
      | push t' u pc collected first => exact .inl (by simpa [Store.pushItem] using hmem)
      | _ => exact .inl (by simpa using hmem)
    · exact hsame (step.proc_ne e)
  | transfer u l _ lt step =>
    refine .inl ?_
    rw [step.proc_eq]
    exact hmem
  | dump q l _ step =>
    by_cases e : p = q
    · subst e
      refine .inl ?_
      rw [step.proc_eq]
      exact hmem
    · exact hsame (step.proc_ne e)
  | loadOver u lt isLoad running => exact .inl hmem
  | dumpOver q t => exact .inl hmem
  | release u lt dropping => exact .inl hmem

/-- An old task owes only what it owed. -/
theorem StoreCase.owes_old (hl : Linked s) (hline : Line C s) (hlast : WaiterLast s) (h : StoreCase C s l s')
    (ht : (s.proc p).Task true t) (hO : Owes s' p t) : Owes s p t := by
  have hkeep : (∀ w, ¬ HasWaiter s' p t w) → ∀ w, ¬ HasWaiter s p t w := fun hno w hw => hno w (h.hasWaiter hl hline hlast hw)
  cases hO with
  | waiting mem =>
    rcases (h.queues p).1 t mem with hmem | ⟨e, -⟩
    · exact .waiting hmem
    · exact absurd ht.1 (by omega)
  | dispatching pc none =>
    by_cases hd : ∃ dl, l = .dispatch p dl
    · obtain ⟨dl, rfl⟩ := hd
      cases h with
      | dispatch _ _ _ step =>
        obtain hold | ⟨rest, -, -, hw⟩ := step.task pc
        · exact .dispatching hold (hkeep none)
        · exact .waiting (hw ▸ List.mem_cons_self)
    · rw [h.dispatcher_eq fun dl e => hd ⟨dl, e⟩] at pc
      exact .dispatching pc (hkeep none)
  | running w hw hq =>
    obtain hold | ⟨hlt, rfl, rfl, -, hpush, -⟩ := h.waiter_old hl hw
    · obtain hq | hpush := (h.move hl hold.lt).inQueue hq
      · exact .running w hold hq
      · exact absurd hpush (hold.not_pushed hl hline hlast hold.lt hold.proc hold.task)
    · exact .dispatching (hpush.dispatching hline hlt) fun w' hw' => hw'.not_pushed hl hline hlast hlt rfl rfl hpush

/-- And it owes it until it is counted down, if the dispatcher takes no task without shards. -/
theorem StoreCase.owes_next (hl : Linked s) (hline : Line C s) (hlast : WaiterLast s) (hb : WaiterBook C s)
    (h : StoreCase C s l s')
    (hne : (s.proc p).dispatcher.task = some t → (s.proc p).dispatcher = .done t ∨ ((s.proc p).task t).desc ≠ [])
    (hO : Owes s p t) : Owes s' p t ∨ s.doneOf l = some (p, t) := by
  have hnew : (∃ w, HasWaiter s' p t w) → (∀ w, ¬ HasWaiter s p t w) → Owes s' p t := by
    rintro ⟨w, hw⟩ hno
    obtain hold | ⟨-, -, -, hst, -⟩ := h.waiter_old hl hw
    · exact absurd hold (hno w)
    · exact .running w hw (by rw [hst]; rfl)
  cases hO with
  | running w hw hq =>
    have hw' := h.hasWaiter hl hline hlast hw
    obtain ⟨hlt, rfl, rfl, hwait⟩ := hw
    obtain hq' | rfl := (h.move hl hlt).running hwait (hb.boundary _ _ w ⟨hlt, rfl, rfl, hwait⟩) hq
    · exact .inl (.running w hw' hq')
    · exact .inr (by simp [Store.doneOf, hwait])
  | waiting mem =>
    have hno : ∀ w, ¬ HasWaiter s p t w := by
      rintro w ⟨hlt, rfl, rfl, hwait⟩
      exact (hlast.launched w hlt hwait).started mem
    by_cases hsome : ∃ w, HasWaiter s' p t w
    · exact .inl (hnew hsome hno)
    · have hnone : ∀ w, ¬ HasWaiter s' p t w := fun w hw => hsome ⟨w, hw⟩
      refine .inl ?_
      rcases h.waiting_next mem with hmem | hpc
      · exact .waiting hmem
      · exact .dispatching hpc hnone
  | dispatching pc none =>
    by_cases hsome : ∃ w, HasWaiter s' p t w
    · exact .inl (hnew hsome none)
    · have hnone : ∀ w, ¬ HasWaiter s' p t w := fun w hw => hsome ⟨w, hw⟩
      by_cases hpc' : (s'.proc p).dispatcher.task = some t
      · exact .inl (.dispatching hpc' hnone)
      · refine .inr ?_
        by_cases hd : ∃ dl, l = .dispatch p dl
        · obtain ⟨dl, rfl⟩ := hd
          cases h with
          | dispatch _ _ _ step =>
            cases step with
            | start t' rest pc' first => simp [pc'] at pc
            | get t' j blockId shardIdx i b owner pc' shard spec => simp_all
            | enqueue t' j u ok backend pc' submitted =>
              refine absurd ?_ hpc'
              unfold Store.enqueue
              simp only
              split <;> simpa [pc'] using pc
            | refuse t' j u pc' owner unready => simp_all
            | finish t' pc' =>
              obtain rfl : t' = t := by simpa [pc'] using pc
              have hne := (hne pc).resolve_left (by simp [pc'])
              cases hmode : C.taskLaunch p with
              | true => simp [hmode] at hpc'
              | false =>
                obtain ⟨w, hw⟩ := hb.pushed p t' hmode pc' hne
                exact absurd hw (none w)
            | pushed t' pc' none' =>
              obtain rfl : t' = t := by simpa [pc'] using pc
              have hne := (hne pc).resolve_left (by simp [pc'])
              rcases hb.pushing p t' pc' hne with ⟨v, hv⟩ | ⟨w, hw⟩
              · exact absurd hv (none' v hv.1)
              · exact absurd hw (none w)
            | push t' u pc' collected first =>
              refine absurd ?_ hpc'
              simpa [Store.pushItem] using pc
            | fail t' pc' => simp_all
            | done t' pc' =>
              obtain rfl : t' = t := by simpa [pc'] using pc
              simp [Store.doneOf, pc']
        · rw [h.dispatcher_eq fun dl e => hd ⟨dl, e⟩] at hpc'
          exact absurd pc hpc'

/-- A new task is submitted by the step. -/
theorem StoreCase.new_task (h : StoreCase C s l s') (ht : (s'.proc p).Task true t) (hnew : ¬ t < (s.proc p).wrapper.nTask) :
    ∃ desc full, l = .submit p true desc full ∧ t = (s.proc p).wrapper.nTask := by
  obtain ⟨hlt, hload⟩ := ht
  have hm := h.wrapper p
  generalize hw : (s'.proc p).wrapper = w at hm hlt
  have hat : ∀ {isLoad desc full}, l = .submit p isLoad desc full → t < (s.proc p).wrapper.nTask + 1 →
      ∃ desc full, l = .submit p true desc full ∧ t = (s.proc p).wrapper.nTask := by
    rintro isLoad desc full rfl hlt
    obtain rfl : t = (s.proc p).wrapper.nTask := by omega
    cases h with
    | submit _ _ _ _ =>
      obtain rfl : isLoad = true := by simpa [Store.submit] using hload
      exact ⟨desc, full, rfl, rfl⟩
  cases hm with
  | submit isLoad desc => exact hat rfl (by simpa using hlt)
  | full isLoad desc => exact hat rfl (by simpa using hlt)
  | wait l w step =>
    rw [(waitStep_keeps step).nTask] at hlt
    exact absurd hlt hnew
  | same => exact absurd hlt hnew
  | fail l t' => exact absurd hlt hnew
  | dispatchDone t' pc => exact absurd hlt hnew
  | transferDone u lt proc stage waiter => exact absurd hlt hnew
  | dumpDone t' pc => exact absurd hlt hnew

/-- A task that `waiting_` did not take is with no one. -/
theorem submit_full (hty : Typed s) {desc : List (Block × Nat)} (h : StoreCase C s (.submit p true desc true) s') :
    ¬ Owes s' p (s.proc p).wrapper.nTask ∧ Processed s' p (s.proc p).wrapper.nTask := by
  cases h with
  | submit _ _ _ _ =>
    have hwaiting : (s.proc p).wrapper.nTask ∉ ((s.submit p true desc true).proc p).waiting := by
      intro hmem
      have := (hty.waiting p _ (by simpa [Store.submit] using hmem)).1
      omega
    have hpc : ((s.submit p true desc true).proc p).dispatcher.task ≠ some (s.proc p).wrapper.nTask := by
      intro hpc
      have := (hty.dispatcher p _ (by simpa [Store.submit] using hpc)).1
      omega
    have hitem : ∀ v, v < s.nItem → (s.item v).proc = p → (s.item v).task ≠ (s.proc p).wrapper.nTask := by
      intro v hv hp ht
      have := (hty.item v hv).1
      rw [hp, ht] at this
      omega
    refine ⟨fun hO => ?_, ⟨⟨hwaiting, fun hat => absurd hat hpc⟩, fun v hv hp ht => absurd ht (hitem v hv hp)⟩⟩
    cases hO with
    | waiting mem => exact hwaiting mem
    | dispatching pc none => exact hpc pc
    | running w hw hq => exact hitem w hw.lt hw.proc hw.task

/-- A processed task stays so. -/
theorem StoreCase.processed (hl : Linked s) (hty : Typed s) (hline : Line C s) (h : StoreCase C s l s')
    (ht : (s.proc p).Task true t)
    (hP : Processed s p t) : Processed s' p t := by
  refine ⟨h.launched hl ht.1 hP.launched, fun v hv hp htask => ?_⟩
  rcases h.old_or_new hv with hlt | ⟨rfl, hget⟩
  · have hf := h.kept.fixed hlt
    rw [hf.proc] at hp
    rw [hf.task] at htask
    by_contra hq
    obtain hq | hpush := (h.move hl hlt).inQueue (by simpa using hq)
    · rw [hP.items v hlt hp htask] at hq
      cases hq
    · have hnone := hP.launched.none_coming hl hline hlt hp htask
      obtain ⟨-, hst, -⟩ | ⟨-, hst⟩ := hpush.label
      · exact hnone.1 hst
      · exact hnone.2 hst
  · exact absurd (hget.not_launched hty hP.launched ht hp htask) not_false

/-- A task that a step counts down has nothing left in `running_`. -/
theorem StoreCase.done_processed (hl : Linked s) (hty : Typed s) (hline : Line C s) (hlast : WaiterLast s) (hok : Completes s l)
    (h : StoreCase C s l s') (hd : s.doneOf l = some (p, t)) (ht : (s.proc p).Task true t) : Processed s' p t := by
  have hold : ∀ v, v < s'.nItem → v < s.nItem := by
    intro v hv
    rcases h.old_or_new hv with hlt | ⟨rfl, hget⟩
    · exact hlt
    · obtain ⟨rfl, -⟩ | ⟨u, rfl, -⟩ := h.doneOf hty hd ht <;> cases hget
  obtain ⟨rfl, pc⟩ | ⟨u, rfl, hu, hst⟩ := h.doneOf hty hd ht
  · refine ⟨⟨fun hmem => ?_, fun hpc => ?_⟩, fun v hv hp htask => ?_⟩
    · rcases (h.queues p).1 t hmem with hmem | ⟨e, -⟩
      · exact hline.started p t (by rw [pc]; rfl) hmem
      · exact absurd ht.1 (by omega)
    · cases h with
      | dispatch _ _ _ step =>
        cases step with
        | done t' pc' => simp at hpc
    · have hlt := hold v hv
      rw [(h.kept.fixed hlt).proc] at hp
      rw [(h.kept.fixed hlt).task] at htask
      by_contra hq
      obtain hq | hpush := (h.move hl hlt).inQueue (by simpa using hq)
      · rw [hok t pc v hlt hp htask] at hq
        cases hq
      · obtain ⟨⟨ok, e⟩, -⟩ | ⟨e, -⟩ := hpush.label
        · injection e with _ e
          cases e
        · injection e with _ e
          cases e
  · have hwait := hu.waiter
    have hlaunched : Launched s p t := by
      obtain ⟨hlt, rfl, rfl, hwait⟩ := hu
      exact hlast.launched u hlt hwait
    refine ⟨h.launched hl ht.1 hlaunched, fun v hv hp htask => ?_⟩
    have hlt := hold v hv
    rw [(h.kept.fixed hlt).proc] at hp
    rw [(h.kept.fixed hlt).task] at htask
    by_cases e : v = u
    · subst e
      cases h with
      | transfer _ _ _ lt step =>
        cases step with
        | done stage => simp [Store.countDown, hwait, Item.drop, Stage.inQueue, Stage.transferring]
    · by_contra hq
      obtain hq | hpush := (h.move hl hlt).inQueue (by simpa using hq)
      · have hbehind := (hlast.behind u v hu.lt hlt hwait (hp.trans hu.proc.symm) (htask.trans hu.task.symm) e).2
            (by rw [hst]; decide)
        rw [hbehind] at hq
        cases hq
      · exact hu.not_pushed hl hline hlast hlt hp htask hpush

end Owed

/-! ## Runs -/

/-- What is counted, in every run. -/
structure CountInv (x : Store Block × (Nat → Nat → Nat)) : Prop where
  fresh : ∀ p t, (x.1.proc p).wrapper.nTask ≤ t → x.2 p t = 0
  counter : ∀ p t, (x.1.proc p).Task true t → (x.1.proc p).wrapper.counter t + x.2 p t = 1
  owes : ∀ p t, (x.1.proc p).Task true t → Owes x.1 p t → x.2 p t = 0

/-- What is counted, in those runs. -/
structure PaidInv (x : Store Block × (Nat → Nat → Nat)) : Prop where
  shards : ∀ p t, (x.1.proc p).dispatcher.task = some t → (x.1.proc p).dispatcher = .done t ∨ ((x.1.proc p).task t).desc ≠ []
  paid : ∀ p t, (x.1.proc p).Task true t → ¬ Owes x.1 p t → x.2 p t = 1
  processed : ∀ p t, (x.1.proc p).Task true t → x.2 p t = 1 → Processed x.1 p t

section Runs

variable [DecidableEq Block] {C : Config Block} {s s' : Store Block} {ok : Store Block → StoreLabel Block → Prop}
    {l : StoreLabel Block}
  {x : Store Block × (Nat → Nat → Nat)}

theorem reach_waiterBook (h : Reach (cacheStore C) ok s) : WaiterBook C s := by
  refine Reach.inv_with (I := WaiterBook C) (J := fun s => Linked s ∧ Typed s ∧ Line C s ∧ WaiterLast s)
    (fun _ hr => ⟨reach_linked hr, reach_typed hr, reach_line hr, reach_waiterLast hr⟩) (fun s hi => ?_)
    (fun _ _ _ hJ hI _ hst => (storeStep_case hst).waiterBook hJ.1 hJ.2.1 hJ.2.2.1 hJ.2.2.2 hI) h
  have hno : ∀ p t w, ¬ HasWaiter s p t w := by
    intro p t w hw
    have := hw.lt
    rw [hi.nItem] at this
    omega
  refine ⟨fun p t w w' hw => absurd hw (hno p t w), fun p t w hw => absurd hw (hno p t w), fun p t j _ _ hpc => ?_,
    fun p t _ hpc => ?_, fun p t hpc => ?_⟩
  · rw [hi.dispatcher] at hpc
    rcases hpc with hpc | ⟨u, hpc⟩ <;> cases hpc
  · rw [hi.dispatcher] at hpc
    cases hpc
  · rw [hi.dispatcher] at hpc
    cases hpc

omit [DecidableEq Block] in
theorem CountInv.step {n : Nat → Nat → Nat} (hl : Linked s) (hty : Typed s) (hline : Line C s) (hlast : WaiterLast s)
    (hb : WaiterBook C s)
    (hI : CountInv (s, n)) (h : StoreCase C s l s') : CountInv (s', countDone n s l) := by
  refine ⟨fun p t ht => ?_, fun p t ht => ?_, fun p t ht hO => ?_⟩
  · have hd : s.doneOf l ≠ some (p, t) := fun hd => absurd (h.doneOf_lt hty hd) (Nat.not_lt.mpr ht)
    show (if s.doneOf l = some (p, t) then _ else n p t) = 0
    rw [if_neg hd]
    exact hI.fresh p t (Nat.le_trans (h.wrapper p).nTask_le ht)
  · show (s'.proc p).wrapper.counter t + (if s.doneOf l = some (p, t) then n p t + 1 else n p t) = 1
    by_cases hold : t < (s.proc p).wrapper.nTask
    · have hold : (s.proc p).Task true t := ⟨hold, by rw [← h.task_eq hold]; exact ht.2⟩
      have hc := hI.counter p t hold
      rw [h.counter hty hold]
      split
      · next hd =>
        have := hI.owes p t hold (h.done_owes hty hlast hd hold)
        dsimp only at hc this
        omega
      · exact hc
    · obtain ⟨desc, full, rfl, rfl⟩ := h.new_task ht hold
      have hz := hI.fresh p _ (Nat.le_refl _)
      dsimp only at hz
      cases h with
      | submit _ _ _ _ => cases full <;> simp [Store.submit, Store.doneOf, hz]
  · show (if s.doneOf l = some (p, t) then n p t + 1 else n p t) = 0
    by_cases hold : t < (s.proc p).wrapper.nTask
    · have hold : (s.proc p).Task true t := ⟨hold, by rw [← h.task_eq hold]; exact ht.2⟩
      rw [if_neg fun hd => h.done_paid hl hty hline hlast hb hd hold hO]
      exact hI.owes p t hold (h.owes_old hl hline hlast hold hO)
    · obtain ⟨desc, full, rfl, rfl⟩ := h.new_task ht hold
      have hz := hI.fresh p _ (Nat.le_refl _)
      cases full with
      | true => exact absurd hO (submit_full hty h).1
      | false => simpa [Store.doneOf] using hz

omit [DecidableEq Block] in
theorem PaidInv.step {n : Nat → Nat → Nat} (hl : Linked s) (hty : Typed s) (hline : Line C s) (hlast : WaiterLast s)
    (hb : WaiterBook C s)
    (hC : CountInv (s, n)) (hI : PaidInv (s, n)) (hok : Completes s l) (h : StoreCase C s l s') :
    PaidInv (s', countDone n s l) := by
  refine ⟨fun p t hpc => ?_, fun p t ht hO => ?_, fun p t ht hn => ?_⟩
  · dsimp only at hpc ⊢
    by_cases hd : ∃ dl, l = .dispatch p dl
    · obtain ⟨dl, rfl⟩ := hd
      cases h with
      | dispatch _ _ _ step =>
        have htask : (s'.proc p).task = (s.proc p).task := by rw [step.proc_eq]
        rw [htask]
        obtain hold | ⟨rest, rfl, -, hw⟩ := step.task hpc
        · rcases hI.shards p t hold with hdone | hne
          · cases step with
            | done t' pc => simp at hpc
            | start t' rest pc first => simp [pc] at hold
            | _ => simp_all
          · exact .inr hne
        · cases step with
          | start t' rest' pc first =>
            obtain rfl : t' = t := (List.cons.inj (first.symm.trans hw)).1
            rcases hok t' (by rw [hw]; rfl) with hf | hne
            · exact .inl (by simp [hf])
            · exact .inr hne
    · have hnd := fun dl e => hd ⟨dl, e⟩
      rw [h.dispatcher_eq hnd] at hpc ⊢
      rw [h.task_eq (hty.dispatcher p t hpc).1]
      exact hI.shards p t hpc
  · show (if s.doneOf l = some (p, t) then n p t + 1 else n p t) = 1
    by_cases hold : t < (s.proc p).wrapper.nTask
    · have hold : (s.proc p).Task true t := ⟨hold, by rw [← h.task_eq hold]; exact ht.2⟩
      split
      · next hd =>
        have := hC.owes p t hold (h.done_owes hty hlast hd hold)
        dsimp only at this
        omega
      · next hd =>
        refine hI.paid p t hold fun hO' => ?_
        rcases h.owes_next hl hline hlast hb (hI.shards p t) hO' with hO' | hd'
        · exact hO hO'
        · exact hd hd'
    · obtain ⟨desc, full, rfl, rfl⟩ := h.new_task ht hold
      have hz := hC.fresh p _ (Nat.le_refl _)
      dsimp only at hz
      cases full with
      | true => simp [Store.doneOf, hz]
      | false =>
        refine absurd (.waiting ?_) hO
        cases h with
        | submit _ _ _ _ => simp [Store.submit]
  · by_cases hold : t < (s.proc p).wrapper.nTask
    · have hold : (s.proc p).Task true t := ⟨hold, by rw [← h.task_eq hold]; exact ht.2⟩
      by_cases hd : s.doneOf l = some (p, t)
      · exact h.done_processed hl hty hline hlast hok hd hold
      · have hn : n p t = 1 := by
          have hn : (if s.doneOf l = some (p, t) then n p t + 1 else n p t) = 1 := hn
          rwa [if_neg hd] at hn
        exact h.processed hl hty hline hold (hI.processed p t hold hn)
    · obtain ⟨desc, full, rfl, rfl⟩ := h.new_task ht hold
      have hz := hC.fresh p _ (Nat.le_refl _)
      dsimp only at hz
      cases full with
      | true => exact (submit_full hty h).2
      | false =>
        have hn : n p (s.proc p).wrapper.nTask = 1 := by simpa [countDone, Store.doneOf] using hn
        rw [hz] at hn
        cases hn

theorem reach_countInv {okx : Store Block × (Nat → Nat → Nat) → StoreLabel Block → Prop} (h : Reach (countedStore C) okx x) :
    CountInv x := by
  refine Reach.inv_with (I := CountInv) (J := fun x => Reach (cacheStore C) Any x.1)
    (fun _ hr => hr.of_record) (fun x hi => ?_) (fun x l x' hJ hI _ hst => ?_) h
  · have hno : ∀ p t, ¬ (x.1.proc p).Task true t := by
      intro p t ht
      have := ht.1
      rw [hi.1.wrapper] at this
      exact Nat.not_lt_zero _ this
    refine ⟨fun p t _ => ?_, fun p t ht => absurd ht (hno p t), fun p t ht => absurd ht (hno p t)⟩
    rw [hi.2]
  · obtain ⟨s, n⟩ := x
    obtain ⟨s', n'⟩ := x'
    obtain ⟨hst, hn⟩ := record_step hst
    obtain rfl : n' = countDone n s l := hn
    exact hI.step (reach_linked hJ) (reach_typed hJ) (reach_line hJ) (reach_waiterLast hJ) (reach_waiterBook hJ)
      (storeStep_case hst)

theorem reach_paidInv (h : Reach (countedStore C) (fun x l => Completes x.1 l) x) : PaidInv x := by
  refine Reach.inv_with (I := PaidInv) (J := fun x => CountInv x ∧ Reach (cacheStore C) Any x.1)
    (fun _ hr => ⟨reach_countInv hr, hr.of_record⟩) (fun x hi => ?_) (fun x l x' hJ hI hok hst => ?_) h
  · have hno : ∀ p t, ¬ (x.1.proc p).Task true t := by
      intro p t ht
      have := ht.1
      rw [hi.1.wrapper] at this
      exact Nat.not_lt_zero _ this
    refine ⟨fun p t hpc => ?_, fun p t ht => absurd ht (hno p t), fun p t ht => absurd ht (hno p t)⟩
    rw [hi.1.dispatcher] at hpc
    cases hpc
  · obtain ⟨s, n⟩ := x
    obtain ⟨s', n'⟩ := x'
    obtain ⟨hst, hn⟩ := record_step hst
    obtain rfl : n' = countDone n s l := hn
    obtain ⟨hC, hJ⟩ := hJ
    exact hI.step (reach_linked hJ) (reach_typed hJ) (reach_line hJ) (reach_waiterLast hJ) (reach_waiterBook hJ) hC hok
      (storeStep_case hst)

omit [DecidableEq Block] in
/-- A processed task with shards owes nothing. -/
theorem Processed.not_owes {p t : Nat} (hb : WaiterBook C s)
    (hne : (s.proc p).dispatcher.task = some t → (s.proc p).dispatcher = .done t ∨ ((s.proc p).task t).desc ≠ [])
    (hP : Processed s p t) : ¬ Owes s p t := by
  intro hO
  cases hO with
  | waiting mem => exact hP.launched.started mem
  | running w hw hq =>
    rw [hP.items w hw.lt hw.proc hw.task] at hq
    cases hq
  | dispatching pc none =>
    obtain ⟨hat, hcol⟩ := hP.launched.pushed pc
    have hnocol : ¬ ∃ v, s.At p .collected v := fun ⟨v, hv⟩ => hcol v hv.1 hv
    have hdesc : ((s.proc p).task t).desc ≠ [] := by
      refine (hne pc).resolve_left fun e => ?_
      rcases hat with hat | hat <;> rw [e] at hat <;> cases hat
    rcases hat with hat | hat
    · cases hmode : C.taskLaunch p with
      | true => exact hnocol (hb.collecting p t _ hmode (List.length_pos_iff.mpr hdesc) (.inl hat))
      | false =>
        obtain ⟨w, hw⟩ := hb.pushed p t hmode hat hdesc
        exact none w hw
    · rcases hb.pushing p t hat hdesc with hv | ⟨w, hw⟩
      · exact hnocol hv
      · exact none w hw

/-- The waiter of a load is never counted down twice; in a run within `Completes` it has been
    counted down once when every queue item of the task has been processed, so that `Wait` can
    return, and `Wait` does not return before. -/
theorem one_completion (h : Reach (countedStore C) (fun x l => Completes x.1 l) x) (p t : Nat) (ht : (x.1.proc p).Task true t) :
    x.2 p t ≤ 1 ∧ (Processed x.1 p t → x.2 p t = 1 ∧ (x.1.proc p).wrapper.counter t = 0) ∧
      ((x.1.proc p).wrapper.wait t = .returned → Processed x.1 p t) := by
  have hr : Reach (cacheStore C) Any x.1 := h.of_record
  have hsum := (reach_countInv h).counter p t ht
  have hpaid := reach_paidInv h
  refine ⟨by omega, fun hP => ?_, fun hw => ?_⟩
  · have hone := hpaid.paid p t ht (hP.not_owes (reach_waiterBook hr) (hpaid.shards p t))
    exact ⟨hone, by omega⟩
  · have hz := (reach_waits hr).returned p t hw
    exact hpaid.processed p t ht (by omega)

/-- What is not owed is never counted down. -/
theorem count_stays {x' : Store Block × (Nat → Nat → Nat)} {p t : Nat} (h : Reach (countedStore C) Any x)
    (ht : (x.1.proc p).Task true t)
    (hO : ¬ Owes x.1 p t) (hr : Reach ((countedStore C).startAt x) Any x') : x'.2 p t = x.2 p t := by
  have hall : (x'.1.proc p).Task true t ∧ ¬ Owes x'.1 p t ∧ x'.2 p t = x.2 p t := by
    refine hr.inv_with (I := fun y => (y.1.proc p).Task true t ∧ ¬ Owes y.1 p t ∧ y.2 p t = x.2 p t)
      (J := fun y => Reach (cacheStore C) Any y.1) (fun y hy => (h.startAt hy).of_record)
      (fun y hi => ?_) fun y l y' hJ hI _ hst => ?_
    · obtain rfl : y = x := hi
      exact ⟨ht, hO, rfl⟩
    · obtain ⟨hty, hno, hn⟩ := hI
      have hst : (countedStore C).step y l = some y' := hst
      obtain ⟨hst, hn'⟩ := record_step hst
      have hc := storeStep_case hst
      have hlast := reach_waiterLast hJ
      have hd : y.1.doneOf l ≠ some (p, t) := fun hd => hno (hc.done_owes (reach_typed hJ) hlast hd hty)
      refine ⟨hc.task hty, fun hO => hno (hc.owes_old (reach_linked hJ) (reach_line hJ) hlast hty hO), ?_⟩
      rw [hn', ← hn]
      exact if_neg hd
  exact hall.2.2

end Runs

/-- A check that implies `Completes`: no empty task is dispatched, and none given up. -/
def dispatchesShards (x : Store Nat × (Nat → Nat → Nat)) : StoreLabel Nat → Bool
  | .dispatch p .start => (x.1.proc p).waiting.head?.all fun t => decide (((x.1.proc p).task t).desc ≠ [])
  | .dispatch _ .done => false
  | _ => true

theorem dispatchesShards_ok (x : Store Nat × (Nat → Nat → Nat)) (l : StoreLabel Nat) (h : dispatchesShards x l = true) :
    Completes x.1 l := by
  unfold dispatchesShards at h
  unfold Completes
  split at h
  · intro t ht
    rw [ht] at h
    exact .inr (of_decide_eq_true h)
  · cases h
  · split <;> simp_all

/-- A load that goes through. -/
theorem one_completion_load : ∃ x : Store Nat × (Nat → Nat → Nat), Reach (countedStore oneNode) (fun x l => Completes x.1 l) x ∧
    (x.1.proc 0).wrapper.wait 0 = .returned ∧ Processed x.1 0 0 := by
  obtain ⟨x, hx, hp⟩ := exists_of_replayOk (S := countedStore oneNode) dispatchesShards dispatchesShards_ok
    (p := fun x => decide ((x.1.proc 0).wrapper.wait 0 = .returned ∧ 0 < (x.1.proc 0).wrapper.nTask ∧
      ((x.1.proc 0).task 0).isLoad = true))
    (s := (freshStore, fun _ _ => 0))
    (loadOne ++ [.loadOver 0, .transfer 0 .take, .transfer 0 (.wait true), .transfer 0 (.copy true false),
      .transfer 0 (.sync true),
      .transfer 0 .done, .wait 0 (.finished 0)]) ⟨freshStore_init, rfl⟩ (by decide)
  obtain ⟨hw, hn, hload⟩ := of_decide_eq_true hp
  exact ⟨x, hx, hw, (one_completion hx 0 0 ⟨hn, hload⟩).2.2 hw⟩

/-- A task without shards is processed and never counted down; and a task whose second shard the
    backend refuses is given up, so that `Wait` returns while its first is in `running_`. -/
theorem completion_lost :
    (∃ x : Store Nat × (Nat → Nat → Nat), Reach (countedStore oneNode) Any x ∧ (x.1.proc 0).Task true 0 ∧ Processed x.1 0 0 ∧
      ∀ x', Reach ((countedStore oneNode).startAt x) Any x' → x'.2 0 0 = 0) ∧
    ∃ x : Store Nat × (Nat → Nat → Nat), Reach (countedStore twoNodeStore) Any x ∧ (x.1.proc 0).Task true 0 ∧
      (x.1.proc 0).wrapper.wait 0 = .returned ∧ ¬ Processed x.1 0 0 := by
  constructor
  · obtain ⟨x, hx, hp⟩ := exists_of_replay (S := countedStore oneNode) (s := (freshStore, fun _ _ => 0))
      (p := fun x => decide (0 < (x.1.proc 0).wrapper.nTask ∧ ((x.1.proc 0).task 0).isLoad = true ∧ (x.1.proc 0).waiting = [] ∧
        (x.1.proc 0).dispatcher = .idle ∧ x.1.nItem = 0 ∧ x.2 0 0 = 0))
      [.submit 0 true [] false, .wait 0 (.call 0), .dispatch 0 .start, .dispatch 0 .finish] ⟨freshStore_init, rfl⟩ (by decide)
    obtain ⟨hn, hload, hwaiting, hpc, hitem, hz⟩ := of_decide_eq_true hp
    have hP : Processed x.1 0 0 := by
      refine ⟨⟨by simp [hwaiting], fun e => ?_⟩, fun v hv => ?_⟩
      · rw [hpc] at e
        cases e
      · rw [hitem] at hv
        exact absurd hv (Nat.not_lt_zero v)
    have hO : ¬ Owes x.1 0 0 := by
      refine hP.not_owes (reach_waiterBook hx.of_record) fun e => ?_
      rw [hpc] at e
      cases e
    exact ⟨x, hx, ⟨hn, hload⟩, hP, fun x' hr => (count_stays hx ⟨hn, hload⟩ hO hr).trans hz⟩
  · obtain ⟨x, hx, hp⟩ := exists_of_replay (S := countedStore twoNodeStore) (s := (freshStore, fun _ _ => 0))
      (p := fun x => decide ((x.1.proc 0).wrapper.wait 0 = .returned ∧ 0 < (x.1.proc 0).wrapper.nTask ∧
        ((x.1.proc 0).task 0).isLoad = true ∧ 0 < x.1.nItem ∧ (x.1.item 0).proc = 0 ∧ (x.1.item 0).task = 0 ∧
        (x.1.item 0).stage = .queued))
      [.submit 0 true [(7, 0), (7, 1)] false, .wait 0 (.call 0), .dispatch 0 .start, .dispatch 0 (.get 0),
        .dispatch 0 (.submit true),
        .dispatch 0 (.get 1), .dispatch 0 (.submit false), .dispatch 0 .fail, .dispatch 0 .done, .wait 0 (.finished 0)]
      ⟨freshStore_init, rfl⟩ (by decide)
    obtain ⟨hw, hn, hload, hitem, hproc, htask, hst⟩ := of_decide_eq_true hp
    refine ⟨x, hx, ⟨hn, hload⟩, hw, fun hP => ?_⟩
    have := hP.items 0 hitem hproc htask
    rw [hst] at this
    cases this

end UnifiedCache.Cache
