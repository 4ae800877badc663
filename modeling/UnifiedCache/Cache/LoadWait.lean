/-
  UnifiedCache.Cache.LoadWait — no copy into a task's device addresses after its `Wait`.

  A load task's latch is counted down by the item that has the waiter, or by the dispatcher when
  it gives the task up. The waiter is with the last item pushed (`Launched`, `Line`), `running_`
  is a FIFO (`Ordered`), and a synchronization covers what was copied before it, so that on the
  way through nothing of the task is left when the latch is at zero (`Quiet`).

  On the failure ways there may be: a dispatcher that gives up a task whose earlier shards are
  queued; a last shard that is skipped or fails with the earlier ones' copies outstanding.
  `NoEarlyDone` leaves out exactly these. In its runs a `Wait` that has returned leaves no copy
  (`no_copy_after_wait`); `copy_after_wait` is a run outside.
-/

import UnifiedCache.Cache.StoreTasks

namespace UnifiedCache.Cache

open UnifiedCache.Base UnifiedCache.Detail

variable {Block : Type}

/-- In `running_`, or with the transfer thread. -/
def Stage.inQueue : Stage → Bool
  | .queued => true
  | st => st.transferring

/-- No `Done` while a shard of the task is on its way or a copy of it outstanding. -/
def NoEarlyDone (C : Config Block) (s : Store Block) : StoreLabel Block → Prop
  | .dispatch p .done => ∀ t, (s.proc p).dispatcher = .done t → ∀ v, v < s.nItem → (s.item v).proc = p → (s.item v).task = t →
      (s.item v).copying = false ∧ (s.item v).stage.inQueue = false ∧ ((s.item v).stage = .holder → C.taskLaunch p = false)
  | .transfer u .take => s.failed u = true → (s.item u).waiter = true →
      ∀ v, v < s.nItem → (s.item v).proc = (s.item u).proc → (s.item v).task = (s.item u).task → (s.item v).copying = false
  | .transfer u .fail => (s.item u).waiter = true →
      ∀ v, v < s.nItem → (s.item v).proc = (s.item u).proc → (s.item v).task = (s.item u).task → (s.item v).copying = false
  | _ => True

/-- All of task `t`'s shards are past the dispatcher. -/
structure Launched (s : Store Block) (p t : Nat) : Prop where
  started : t ∉ (s.proc p).waiting
  pushed : (s.proc p).dispatcher.task = some t →
    ((s.proc p).dispatcher = .loop t ((s.proc p).task t).desc.length ∨ (s.proc p).dispatcher = .pushing t) ∧
      ∀ v, v < s.nItem → ¬ s.At p .collected v

/-- The dispatcher's vectors and `running_`. -/
structure Line (C : Config Block) (s : Store Block) : Prop where
  nodup : ∀ p, (s.proc p).waiting.Nodup
  started : ∀ p t, (s.proc p).dispatcher.task = some t → t ∉ (s.proc p).waiting
  collected : ∀ v, v < s.nItem → (s.item v).stage = .collected →
    C.taskLaunch (s.item v).proc = true ∧ (s.proc (s.item v).proc).dispatcher.task = some (s.item v).task
  ticket : ∀ v, v < s.nItem → (s.item v).stage = .queued → (s.item v).ticket < (s.proc (s.item v).proc).tickets
  flushing : ∀ v, v < s.nItem → (s.item v).stage = .flushing → C.taskLaunch (s.item v).proc = true

/-- The item that has its task's waiter is the last of them. -/
structure Ordered (C : Config Block) (s : Store Block) : Prop where
  isLoad : ∀ w, w < s.nItem → (s.item w).waiter = true → (s.item w).isLoad = true
  launched : ∀ w, w < s.nItem → (s.item w).waiter = true → Launched s (s.item w).proc (s.item w).task
  behind : ∀ w v, w < s.nItem → v < s.nItem → (s.item w).waiter = true → (s.item v).proc = (s.item w).proc →
    (s.item v).task = (s.item w).task → v ≠ w →
      ((s.item w).stage = .queued → (s.item v).stage = .queued → (s.item v).ticket < (s.item w).ticket) ∧
        ((s.item w).stage ≠ .queued → (s.item v).stage.inQueue = false)
  counting : ∀ w v, w < s.nItem → v < s.nItem → (s.item w).waiter = true → (s.item w).stage = .counting →
    (s.item v).proc = (s.item w).proc → (s.item v).task = (s.item w).task →
      (s.item v).copying = false ∧ ((s.item v).stage = .holder → C.taskLaunch (s.item v).proc = false)

/-- What of it holds in every run. -/
structure WaiterLast (s : Store Block) : Prop where
  isLoad : ∀ w, w < s.nItem → (s.item w).waiter = true → (s.item w).isLoad = true
  launched : ∀ w, w < s.nItem → (s.item w).waiter = true → Launched s (s.item w).proc (s.item w).task
  behind : ∀ w v, w < s.nItem → v < s.nItem → (s.item w).waiter = true → (s.item v).proc = (s.item w).proc →
    (s.item v).task = (s.item w).task → v ≠ w →
      ((s.item w).stage = .queued → (s.item v).stage = .queued → (s.item v).ticket < (s.item w).ticket) ∧
        ((s.item w).stage ≠ .queued → (s.item v).stage.inQueue = false)

theorem Ordered.waiterLast {C : Config Block} {s : Store Block} (h : Ordered C s) : WaiterLast s :=
    ⟨h.isLoad, h.launched, h.behind⟩

/-- A shard that nothing will be done with. -/
def Item.Still (C : Config Block) (x : Item) : Prop :=
  x.copying = false ∧ (x.stage = .ended ∨ x.stage = .holder ∧ C.taskLaunch x.proc = false)

/-- A task that nothing will be done for. -/
structure QuietTask (C : Config Block) (s : Store Block) (p t : Nat) : Prop where
  launched : Launched s p t
  still : ∀ v, v < s.nItem → (s.item v).proc = p → (s.item v).task = t → (s.item v).Still C

section Launched

variable {C : Config Block} {s s' : Store Block} {b : Buf Block} {l : StoreLabel Block} {p q u v t : Nat} {x : Item}

/-- Nothing more is dispatched of a launched task. -/
theorem Launched.none_coming (h : Launched s p t) (hl : Linked s) (hline : Line C s) (hv : v < s.nItem) (hp : (s.item v).proc = p)
    (ht : (s.item v).task = t) : (s.item v).stage ≠ .got ∧ (s.item v).stage ≠ .collected := by
  subst hp ht
  refine ⟨fun hst => ?_, fun hst => ?_⟩
  · have hpc := hl.gotOnly v hv hst
    have htask : (s.proc (s.item v).proc).dispatcher.task = some (s.item v).task := by
      obtain h | h | h := hpc <;> rw [h] <;> rfl
    obtain ⟨h1, -⟩ := h.pushed htask
    rcases h1 with h1 | h1 <;> rw [h1] at hpc <;> simp at hpc
  · exact (h.pushed (hline.collected v hv hst).2).2 v hv ⟨hv, rfl, hst⟩

theorem StoreCase.launched (hl : Linked s) (ht : t < (s.proc p).wrapper.nTask) (hL : Launched s p t) (h : StoreCase C s l s') :
    Launched s' p t := by
  have hcol : (∀ dl, l ≠ .dispatch p dl) → (∀ v, v < s.nItem → ¬ s.At p .collected v) → ∀ v, v < s'.nItem →
      ¬ s'.At p .collected v := by
    rintro hne hnone v hv ⟨-, hproc, hst⟩
    rcases h.old_or_new hv with hv | ⟨rfl, hget⟩
    · rw [(h.kept.fixed hv).proc] at hproc
      refine hnone v hv ⟨hv, hproc, ((h.move hl hv).dispatching (fun dl e => ?_) (.inr rfl)).mp hst⟩
      exact hne dl (hproc ▸ e)
    · cases hget with
      | load p t j blockId shardIdx i owner pc shard spec item got => rw [item] at hst; cases hst
      | dump p t j blockId shardIdx i owner pc shard spec item got => rw [item] at hst; cases hst
  refine ⟨fun hw => ?_, fun hpc => ?_⟩
  · rcases (h.queues p).1 t hw with hw | ⟨rfl, -⟩
    · exact hL.started hw
    · omega
  · by_cases hd : ∃ dl, l = .dispatch p dl
    · obtain ⟨dl, rfl⟩ := hd
      have hdesc := h.task_eq ht
      cases h with
      | dispatch _ _ _ step =>
        obtain hold | ⟨rest, -, -, hw⟩ := step.task hpc
        swap
        · exact absurd (hw ▸ List.mem_cons_self) hL.started
        obtain ⟨hat, hnone⟩ := hL.pushed hold
        rw [hdesc]
        cases step with
        | start t' rest pc first => simp [pc] at hat
        | get t' j blockId shardIdx i b owner pc shard spec =>
          rw [pc] at hat
          obtain h | h := hat <;> cases h
          rw [List.getElem?_eq_none (Nat.le_refl _)] at shard
          cases shard
        | enqueue t' j u ok backend pc submitted => simp [pc] at hat
        | refuse t' j u pc owner unready => simp [pc] at hat
        | finish t' pc =>
          simp only [setDispatcher_proc, if_true] at hpc ⊢
          split at hpc
          · next hmode =>
            obtain rfl := Option.some.inj hpc
            exact ⟨.inr (by simp [hmode]), hnone⟩
          · cases hpc
        | pushed t' pc none => simp at hpc
        | push t' u pc collected first => exact absurd collected (hnone u collected.1)
        | fail t' pc => simp [pc] at hat
        | done t' pc => simp [pc] at hat
    · have hne := fun dl e => hd ⟨dl, e⟩
      rw [h.dispatcher_eq hne] at hpc ⊢
      rw [h.task_eq ht]
      obtain ⟨hat, hnone⟩ := hL.pushed hpc
      exact ⟨hat, hcol hne hnone⟩

/-- A new item is not of a launched load. -/
theorem Gets.not_launched (h : Gets C s s' l) (hty : Typed s) (hL : Launched s p t) (ht : (s.proc p).Task true t)
    (hp : (s'.item s.nItem).proc = p) (htask : (s'.item s.nItem).task = t) : False := by
  cases h with
  | load p' t' j blockId shardIdx i owner pc shard spec item got =>
    rw [item] at hp htask
    obtain rfl : p' = p := hp
    obtain rfl : t' = t := htask
    obtain ⟨h | h, -⟩ := hL.pushed (by rw [pc]; rfl)
    · rw [pc] at h
      cases h
      rw [List.getElem?_eq_none (Nat.le_refl _)] at shard
      cases shard
    · rw [pc] at h
      cases h
  | dump p' t' j blockId shardIdx i owner pc shard spec item got =>
    rw [item] at hp htask
    obtain rfl : p' = p := hp
    obtain rfl : t' = t := htask
    have := (hty.dumper p' t' (by rw [pc]; rfl)).2
    rw [ht.2] at this
    cases this

end Launched

/-! ## The order of `running_` -/

/-- An item is pushed to `running_`. -/
structure Pushed (s : Store Block) (l : StoreLabel Block) (v : Nat) (x : Item) : Prop where
  label : (∃ ok, l = .dispatch (s.item v).proc (.submit ok)) ∧ (s.item v).stage = .got ∧
      (s.proc (s.item v).proc).dispatcher = .got (s.item v).task (s.item v).shard v ∨
    l = .dispatch (s.item v).proc (.push v) ∧ (s.item v).stage = .collected
  ticket : x.ticket = (s.proc (s.item v).proc).tickets

section Order

variable {C : Config Block} {s s' : Store Block} {b : Buf Block} {l : StoreLabel Block} {p q u v w t : Nat} {x y : Item}

theorem Pushed.unique (h : Pushed s l v x) (h' : Pushed s l w y) (hp : (s.item v).proc = (s.item w).proc) : v = w := by
  obtain ⟨⟨ok, e⟩, -, hpc⟩ | ⟨e, -⟩ := h.label <;> obtain ⟨⟨ok', e'⟩, -, hpc'⟩ | ⟨e', -⟩ := h'.label
  · rw [hp, hpc'] at hpc
    injection hpc with _ _ hpc
    exact hpc.symm
  · rw [e] at e'
    injection e' with _ e'
    cases e'
  · rw [e] at e'
    injection e' with _ e'
    cases e'
  · rw [e] at e'
    injection e' with _ e'
    injection e'

theorem Move.queued (h : Move C s b v l x) (hx : x.stage = .queued) :
    (s.item v).stage = .queued ∧ x.ticket = (s.item v).ticket ∨ Pushed s l v x := by
  cases h with
  | queue p ok backend pc proc stage mode submitted =>
    subst proc
    exact .inr ⟨.inl ⟨⟨ok, rfl⟩, stage, pc⟩, rfl⟩
  | push p t pc collected first =>
    obtain ⟨-, rfl, hst⟩ := collected
    exact .inr ⟨.inr ⟨rfl, hst⟩, by simp [Store.pushItem]⟩
  | same | flushed | synced | loadOver | release | dumpOver => exact .inl ⟨hx, rfl⟩
  | waited ok stage => cases ok <;> cases hx
  | check stage =>
    simp only at hx
    split at hx <;> cases hx
  | hold stage =>
    simp only at hx
    split at hx <;> cases hx
  | copy ok part stage => cases ok <;> cases hw : (s.item v).waiter <;> simp [hw] at hx
  | sync ok h stage => cases ok <;> cases hx
  | syncDump p t pc proc isLoad =>
    simp only at hx
    split at hx
    · cases hx
    · exact .inl ⟨hx, rfl⟩
  | look stage' stage backend outcome => obtain ⟨-, rfl⟩ | ⟨-, rfl⟩ | ⟨-, rfl⟩ := outcome <;> cases hx
  | _ => cases hx

theorem Move.inQueue (h : Move C s b v l x) (hx : x.stage.inQueue = true) : (s.item v).stage.inQueue = true ∨ Pushed s l v x := by
  cases hst : x.stage with
  | queued =>
    obtain ⟨h1, -⟩ | h1 := h.queued hst
    · exact .inl (by rw [h1]; rfl)
    · exact .inr h1
  | waiting | spinning | ready | flushing | syncing | failing | counting =>
    obtain h1 | ⟨-, h1⟩ := h.transferring (by rw [hst]; rfl)
    · refine .inl ?_
      cases hs : (s.item v).stage <;> first | rfl | (rw [hs] at h1; cases h1)
    · exact .inl (by rw [h1.1.2.2]; rfl)
  | _ => rw [hst] at hx; cases hx

/-- An item leaves `running_` by its turn. -/
theorem Move.leaves (h : Move C s b v l x) (hv : (s.item v).stage = .queued) (hx : x.stage ≠ .queued) :
    l = .transfer v .take ∧ s.Next v := by
  cases h with
  | skip stage next => exact ⟨rfl, next⟩
  | skipLast stage next => exact ⟨rfl, next⟩
  | take stage next => exact ⟨rfl, next⟩
  | push p t pc collected =>
    have hst := collected.2.2
    rw [hv] at hst
    cases hst
  | syncDump p t pc proc isLoad =>
    refine absurd ?_ hx
    simp only
    rw [if_neg (by rw [hv]; decide)]
    exact hv
  | same | flushed | synced | loadOver | release | dumpOver => exact absurd hv hx
  | _ => simp_all

/-- An item has the waiter from its push on, if it is the last of its task. -/
theorem Move.waiter (h : Move C s b v l x) (hx : x.waiter = true) :
    (s.item v).waiter = true ∨ x.stage = .queued ∧ Pushed s l v x ∧
      (C.taskLaunch (s.item v).proc = false ∧
          (s.proc (s.item v).proc).dispatcher = .got (s.item v).task ((s.item v).shard) v ∧
          (s.item v).shard + 1 = ((s.proc (s.item v).proc).task (s.item v).task).desc.length ∨
        l = .dispatch (s.item v).proc (.push v) ∧ ∀ w, w < s.nItem → s.At (s.item v).proc .collected w → w = v) := by
  cases h with
  | queue p ok backend pc proc stage mode submitted =>
    subst proc
    exact .inr ⟨rfl, ⟨.inl ⟨⟨ok, rfl⟩, stage, pc⟩, rfl⟩, .inl ⟨mode, pc, of_decide_eq_true hx⟩⟩
  | push p t pc collected first =>
    obtain ⟨-, rfl, hst⟩ := collected
    have hlast : ∀ w, w < s.nItem → s.At (s.item v).proc .collected w → w = v := by simpa [Store.pushItem] using hx
    exact .inr ⟨by simp [Store.pushItem], ⟨.inr ⟨rfl, hst⟩, by simp [Store.pushItem]⟩, .inr ⟨rfl, hlast⟩⟩
  | _ => exact .inl hx

theorem StoreCase.tickets_le (h : StoreCase C s l s') (q : Nat) : (s.proc q).tickets ≤ (s'.proc q).tickets := by
  have hsame : (s'.proc q).tickets = (s.proc q).tickets → (s.proc q).tickets ≤ (s'.proc q).tickets := fun e => Nat.le_of_eq e.symm
  cases h with
  | submit p isLoad desc full =>
    refine hsame ?_
    simp only [Store.submit, setProc_proc]
    split
    · next e => rw [e]
    · rfl
  | wait p l w step =>
    refine hsame ?_
    simp only [setWrapper_proc]
    split
    · next e => rw [e]
    · rfl
  | dispatch p l _ step =>
    by_cases e : q = p
    · subst e
      cases step with
      | enqueue t j u ok backend pc submitted =>
        unfold Store.enqueue
        simp only
        split <;> simp
      | push t u pc collected first => simp [Store.pushItem]
      | _ => simp
    · exact hsame (by rw [step.proc_ne e])
  | transfer u l _ lt step => exact hsame (by rw [step.proc_eq])
  | dump p l _ step =>
    by_cases e : q = p
    · exact hsame (by rw [e, step.proc_eq])
    · exact hsame (by rw [step.proc_ne e])
  | loadOver u lt isLoad running => exact Nat.le_refl _
  | dumpOver p t => exact Nat.le_refl _
  | release u lt dropping => exact Nat.le_refl _

/-- Each push takes a ticket. -/
theorem StoreCase.tickets_lt (h : StoreCase C s l s') (hp : Pushed s l v x) (hx : x = s'.item v) (hst : x.stage = .queued) :
    (s.proc (s.item v).proc).tickets < (s'.proc (s.item v).proc).tickets := by
  subst hx
  obtain ⟨⟨ok, rfl⟩, hgot, hpc⟩ | ⟨rfl, -⟩ := hp.label
  · cases h with
    | dispatch _ _ _ step =>
      cases step with
      | enqueue t j u ok backend pc submitted =>
        rw [hpc] at pc
        cases pc
        unfold Store.enqueue at hst ⊢
        simp only at hst ⊢
        split
        · next hmode => simp [hmode] at hst
        · simp
      | refuse t j u pc owner unready =>
        simp only [setDispatcher_item] at hst
        rw [hgot] at hst
        cases hst
  · cases h with
    | dispatch _ _ _ step =>
      cases step with
      | push t u pc collected first => simp [Store.pushItem]

theorem Move.flushing (h : Move C s b v l x) (hx : x.stage = .flushing) :
    (s.item v).stage = .flushing ∨ C.taskLaunch (s.item v).proc = true := by
  cases h with
  | hold stage mode => exact .inr mode
  | same | flushed | synced | loadOver | release | dumpOver => exact .inl hx
  | waited ok stage => cases ok <;> cases hx
  | check stage =>
    simp only at hx
    split at hx <;> cases hx
  | copy ok part stage => cases ok <;> cases hw : (s.item v).waiter <;> simp [hw] at hx
  | sync ok h stage => cases ok <;> cases hx
  | push p t pc collected => simp [Store.pushItem] at hx
  | syncDump p t pc proc isLoad =>
    simp only at hx
    split at hx
    · cases hx
    · exact .inl hx
  | look stage' stage backend outcome => obtain ⟨-, rfl⟩ | ⟨-, rfl⟩ | ⟨-, rfl⟩ := outcome <;> cases hx
  | _ => cases hx

/-- What is collected is of the dispatcher's task. -/
theorem DispatchCase.collected {dl : DispatchLabel} (hl : Linked s) (hline : Line C s)
    (h : DispatchCase C s (s.item v).proc dl s')
    (hv : v < s.nItem) (hst : (s'.item v).stage = .collected) :
    C.taskLaunch (s.item v).proc = true ∧ (s'.proc (s.item v).proc).dispatcher.task = some (s.item v).task := by
  have hm := h.move hl hv
  -- it has been collected, or is by this step
  have hold : (s.item v).stage = .collected ∨ ∃ ok, dl = .submit ok ∧ C.taskLaunch (s.item v).proc = true ∧
      (s.proc (s.item v).proc).dispatcher = .got (s.item v).task (s.item v).shard v := by
    generalize s'.item v = x at hm hst
    cases hm with
    | same l other => exact .inl hst
    | collect _ ok backend pc proc stage mode submitted => exact .inr ⟨ok, rfl, mode, pc⟩
    | push _ t pc collected => simp [Store.pushItem] at hst
    | queue => cases hst
    | abandon => cases hst
  obtain hold | ⟨ok, rfl, hmode, hpc⟩ := hold
  · obtain ⟨hmode, htask⟩ := hline.collected v hv hold
    refine ⟨hmode, ?_⟩
    cases h with
    | start t rest pc first => rw [pc] at htask; cases htask
    | get t j blockId shardIdx i b owner pc shard spec =>
      rw [pc] at htask
      simpa using htask
    | enqueue t j u ok backend pc submitted =>
      rw [pc] at htask
      unfold Store.enqueue
      simp only
      split <;> simpa using htask
    | refuse t j u pc owner unready =>
      rw [pc] at htask
      simpa using htask
    | finish t pc =>
      rw [pc] at htask
      simpa [hmode] using htask
    | pushed t pc none => exact absurd ⟨hv, rfl, hold⟩ (none v hv)
    | push t u pc collected first => simpa [Store.pushItem] using htask
    | fail t pc =>
      rw [pc] at htask
      simpa using htask
    | done t pc => simp [hold, Item.drop] at hst
  · refine ⟨hmode, ?_⟩
    cases h with
    | enqueue t j u ok backend pc submitted =>
      rw [hpc] at pc
      cases pc
      simp [Store.enqueue, hmode]
    | refuse t j u pc owner unready =>
      rw [hpc] at pc
      cases pc
      simp

theorem StoreCase.line (hl : Linked s) (hty : Typed s) (hline : Line C s) (h : StoreCase C s l s') : Line C s' := by
  refine ⟨fun p => ?_, fun p t ht => ?_, fun v hv hst => ?_, fun v hv hst => ?_, fun v hv hst => ?_⟩
  · have hn := hline.nodup p
    cases h with
    | submit q isLoad desc full =>
      by_cases e : p = q
      · subst e
        have hnew : (s.proc p).wrapper.nTask ∉ (s.proc p).waiting := fun hw => by
          have := (hty.waiting p _ hw).1
          omega
        cases isLoad <;> cases full
        all_goals simp [Store.submit, hn]
        exact List.nodup_append.mpr ⟨hn, List.nodup_singleton _, fun a ha b hb e => hnew (List.mem_singleton.mp hb ▸ e ▸ ha)⟩
      · simpa [Store.submit, e] using hn
    | dispatch q dl _ step =>
      by_cases e : p = q
      · subst e
        cases step with
        | start t rest pc first =>
          rw [first] at hn
          simpa using (List.nodup_cons.mp hn).2
        | enqueue t j u ok backend pc submitted =>
          unfold Store.enqueue
          simp only
          split <;> simpa using hn
        | push t u pc collected first => simpa [Store.pushItem] using hn
        | _ => simpa using hn
      · rwa [step.proc_ne e]
    | wait q wl w step =>
      simp only [setWrapper_proc]
      split
      · next e => subst e; exact hn
      · exact hn
    | transfer u tl _ lt step => rwa [step.proc_eq]
    | dump q dl _ step =>
      by_cases e : p = q
      · subst e
        rwa [step.proc_eq]
      · rwa [step.proc_ne e]
    | loadOver u lt isLoad running => exact hn
    | dumpOver q t => exact hn
    | release u lt dropping => exact hn
  · -- the dispatcher's task is no more in `waiting_`
    by_cases hd : ∃ dl, l = .dispatch p dl
    · obtain ⟨dl, rfl⟩ := hd
      cases h with
      | dispatch _ _ _ step =>
        obtain hold | ⟨rest, rfl, -, hw⟩ := step.task ht
        · intro hmem
          refine hline.started p t hold ?_
          rcases (StoreCase.dispatch (C := C) p dl s' step).queues p |>.1 t hmem with hmem | ⟨rfl, -⟩
          · exact hmem
          · have := (hty.dispatcher p _ hold).1
            omega
        · cases step with
          | start t' rest' pc first =>
            rw [hw] at first
            cases first
            have hn := hline.nodup p
            rw [hw] at hn
            simpa using (List.nodup_cons.mp hn).1
    · rw [h.dispatcher_eq fun dl e => hd ⟨dl, e⟩] at ht
      intro hmem
      rcases (h.queues p).1 t hmem with hmem | ⟨rfl, -⟩
      · exact hline.started p t ht hmem
      · have := (hty.dispatcher p _ ht).1
        omega
  · rcases h.old_or_new hv with hv | ⟨rfl, hget⟩
    swap
    · cases hget with
      | load p t j blockId shardIdx i owner pc shard spec item got => rw [item] at hst; cases hst
      | dump p t j blockId shardIdx i owner pc shard spec item got => rw [item] at hst; cases hst
    have hf := h.kept.fixed hv
    rw [hf.proc, hf.task]
    by_cases hd : ∃ dl, l = .dispatch (s.item v).proc dl
    · obtain ⟨dl, rfl⟩ := hd
      cases h with
      | dispatch _ _ _ step => exact step.collected hl hline hv hst
    · have hne := fun dl e => hd ⟨dl, e⟩
      rw [h.dispatcher_eq hne]
      exact hline.collected v hv (((h.move hl hv).dispatching hne (.inr rfl)).mp hst)
  · rcases h.old_or_new hv with hv | ⟨rfl, hget⟩
    swap
    · cases hget with
      | load p t j blockId shardIdx i owner pc shard spec item got => rw [item] at hst; cases hst
      | dump p t j blockId shardIdx i owner pc shard spec item got => rw [item] at hst; cases hst
    rw [(h.kept.fixed hv).proc]
    obtain ⟨hold, htk⟩ | hp := (h.move hl hv).queued hst
    · rw [htk]
      exact Nat.lt_of_lt_of_le (hline.ticket v hv hold) (h.tickets_le _)
    · rw [hp.ticket]
      exact h.tickets_lt hp rfl hst
  · rcases h.old_or_new hv with hv | ⟨rfl, hget⟩
    swap
    · cases hget with
      | load p t j blockId shardIdx i owner pc shard spec item got => rw [item] at hst; cases hst
      | dump p t j blockId shardIdx i owner pc shard spec item got => rw [item] at hst; cases hst
    rw [(h.kept.fixed hv).proc]
    obtain hold | hmode := (h.move hl hv).flushing hst
    · exact hline.flushing v hv hold
    · exact hmode

end Order

/-! ## The last item -/

section Last

variable {C : Config Block} {s s' : Store Block} {b : Buf Block} {l : StoreLabel Block} {p q u v w t : Nat} {x : Item}

/-- Without a copy in the thread's hands, none is issued. -/
theorem Move.calm (hl : Linked s) (hu : ∀ u, l.mover = some u → u < s.nItem) (hv : v < s.nItem) (hload : (s.item v).isLoad = true)
    (hcopy : (s.item v).copying = false)
    (hthread : ∀ u, u < s.nItem → (s.item u).proc = (s.item v).proc → (s.item u).stage ≠ .ready ∧ (s.item u).stage ≠ .flushing)
    (h : Move C s b v l x) : x.copying = false ∧ (x.stage = .holder → (s.item v).stage = .holder) := by
  have hdump : (s.item v).stage.ofDump = false := by
    by_contra hd
    have := hl.isDump v hv (by simpa using hd)
    rw [hload] at this
    cases this
  cases h with
  | same | loadOver | release | dumpOver => exact ⟨hcopy, id⟩
  | synced => exact ⟨rfl, id⟩
  | push p t pc collected => exact ⟨by simpa [Store.pushItem] using hcopy, by simp [Store.pushItem]⟩
  | waited ok stage => exact ⟨hcopy, by cases ok <;> simp⟩
  | look stage' stage backend outcome => exact ⟨hcopy, by obtain ⟨-, rfl⟩ | ⟨-, rfl⟩ | ⟨-, rfl⟩ := outcome <;> simp⟩
  | check stage => exact ⟨hcopy, by simp only; split <;> simp⟩
  | hold stage => exact absurd stage (hthread v hv rfl).1
  | copy ok part stage => exact absurd stage (hthread v hv rfl).1
  | flush part stage => exact absurd stage (hthread v hv rfl).2
  | flushFails part stage => exact absurd stage (hthread v hv rfl).2
  | sync ok h stage => exact ⟨by simp [hcopy], by cases ok <;> simp⟩
  | flushed u part other proc uStage stage => exact absurd uStage (hthread u (hu u rfl) proc.symm).2
  | cleared u l other proc why stage =>
    refine ⟨?_, by intros; contradiction⟩
    cases why with
    | flush part uStage => exact absurd uStage (hthread u (hu u rfl) proc.symm).2
    | take | fail => exact hcopy
    | sync ok => simp [holderCopying, hcopy]
  | copyDump p part pc proc stage | refuseDump p part pc proc stage =>
    rw [stage] at hdump
    cases hdump
  | syncDump p t pc proc isLoad =>
    rw [hload] at isLoad
    cases isLoad
  | submitDump p t pc proc stage | found p ok part pc proc stage =>
    rw [stage] at hdump
    cases hdump
  | _ => exact ⟨hcopy, by intros; contradiction⟩

theorem Move.counting (h : Move C s b v l x) (hx : x.stage = .counting) :
    (s.item v).stage = .counting ∨
      l = .transfer v .take ∧ (s.item v).stage = .queued ∧ s.Next v ∧ s.failed v = true ∨
      l = .transfer v (.sync true) ∧ (s.item v).stage = .syncing ∨ l = .transfer v .fail ∧ (s.item v).stage = .failing := by
  cases h with
  | skipLast stage next failed => exact .inr (.inl ⟨rfl, stage, next, failed⟩)
  | sync ok h stage =>
    cases ok with
    | true => exact .inr (.inr (.inl ⟨rfl, stage⟩))
    | false => cases hx
  | fail stage => exact .inr (.inr (.inr ⟨rfl, stage⟩))
  | same | flushed | synced | loadOver | release | dumpOver => exact .inl hx
  | waited ok stage => cases ok <;> cases hx
  | check stage =>
    simp only at hx
    split at hx <;> cases hx
  | hold stage =>
    simp only at hx
    split at hx <;> cases hx
  | copy ok part stage => cases ok <;> cases hw : (s.item v).waiter <;> simp [hw] at hx
  | push p t pc collected => simp [Store.pushItem] at hx
  | syncDump p t pc proc isLoad =>
    simp only at hx
    split at hx
    · cases hx
    · exact .inl hx
  | look stage' stage backend outcome => obtain ⟨-, rfl⟩ | ⟨-, rfl⟩ | ⟨-, rfl⟩ := outcome <;> cases hx
  | _ => cases hx

/-- A synchronization covers every copy of its thread. -/
theorem TransferCase.sync_covers (hl : Linked s) (hu : u < s.nItem) (h : TransferCase C s u (.sync true) s')
    (hp : (s.item v).proc = (s.item u).proc) (hload : (s.item v).isLoad = true) : (s'.item v).copying = false := by
  cases h with
  | sync _ stage =>
    have hloadu := hl.isLoad u hu (by rw [stage]; rfl)
    by_cases e : v = u
    · subst e
      cases hm : C.taskLaunch (s.item v).proc <;> simp [Store.syncStream, Store.clearHolder, hload, stage, hm, Item.letGo]
    · simp only [Store.syncStream, Store.clearHolder, if_true, setItem_item, e, if_false, dropAt_item, each_item, hp,
        hload, hloadu,
        and_self]
      split <;> rfl

/-- The task of an item that has the waiter is a load. -/
theorem WaiterLast.task (h : WaiterLast s) (hty : Typed s) (hw : w < s.nItem) (hwait : (s.item w).waiter = true) :
    (s.proc (s.item w).proc).Task true (s.item w).task := by
  have := hty.item w hw
  rwa [h.isLoad w hw hwait] at this

/-- So are all its items. -/
theorem Typed.isLoad_eq (hty : Typed s) (hv : v < s.nItem) (hp : (s.item v).proc = p) (ht : (s.item v).task = t)
    (h : (s.proc p).Task true t) : (s.item v).isLoad = true := by
  have := (hty.item v hv).2
  rw [hp, ht, h.2] at this
  exact this.symm

theorem StoreCase.ordered_launched (hl : Linked s) (hty : Typed s) (hline : Line C s) (hord : WaiterLast s)
    (h : StoreCase C s l s')
    (hw : w < s.nItem) (hwait : (s'.item w).waiter = true) : Launched s' (s.item w).proc (s.item w).task := by
  have hline' := h.line hl hty hline
  -- a pushed item's task is no more waiting
  have hstart : (s.proc (s.item w).proc).dispatcher.task = some (s.item w).task →
      (s.item w).task ∉ (s'.proc (s.item w).proc).waiting := by
    intro hpc hmem
    rcases (h.queues _).1 _ hmem with hmem | ⟨e, -⟩
    · exact hline.started _ _ hpc hmem
    · have := (hty.item w hw).1
      omega
  rcases (h.move hl hw).waiter hwait with hold | ⟨hst, hpush, ⟨hmode, hpc, hlen⟩ | ⟨rfl, hlast⟩⟩
  · exact h.launched hl (hty.item w hw).1 (hord.launched w hw hold)
  · refine ⟨hstart (by rw [hpc]; rfl), fun _ => ⟨.inl ?_, fun v hv hat => ?_⟩⟩
    · rw [h.task_eq (hty.item w hw).1, ← hlen]
      obtain ⟨⟨ok, rfl⟩, hgot, -⟩ | ⟨-, hst'⟩ := hpush.label
      · cases h with
        | dispatch _ _ _ step =>
          cases step with
          | enqueue t j u ok backend pc submitted =>
            rw [hpc] at pc
            cases pc
            simp [Store.enqueue, hmode]
          | refuse t j u pc owner unready =>
            simp only [setDispatcher_item] at hst
            rw [hgot] at hst
            cases hst
      · obtain ⟨-, -, -, -, hgot⟩ := hl.got _ _ _ _ hpc
        rw [hgot] at hst'
        cases hst'
    · have := (hline'.collected v hv hat.2.2).1
      rw [hat.2.1, hmode] at this
      cases this
  · cases h with
    | dispatch _ _ _ step =>
      cases step with
      | push t _ pc collected first =>
        have htask := (hline.collected w hw collected.2.2).2
        rw [pc] at htask
        refine ⟨hstart (by rw [pc]; exact htask), fun _ => ⟨.inr ?_, fun v hv hat => ?_⟩⟩
        · simpa [Store.pushItem, pc] using htask
        · by_cases e : v = w
          · subst e
            simp [Store.At, Store.pushItem] at hat
          · refine e (hlast v hv ⟨hv, ?_⟩)
            simpa [Store.At, Store.pushItem, e] using hat.2

/-- No new item is of the task of one that has the waiter. -/
theorem StoreCase.ordered_old (hl : Linked s) (hty : Typed s) (hord : WaiterLast s) (h : StoreCase C s l s') (hw : w < s'.nItem)
    (hwait : (s'.item w).waiter = true) (hv : v < s'.nItem) (hp : (s'.item v).proc = (s'.item w).proc)
    (ht : (s'.item v).task = (s'.item w).task) : w < s.nItem ∧ v < s.nItem := by
  have hw : w < s.nItem := by
    rcases h.old_or_new hw with hw | ⟨rfl, hget⟩
    · exact hw
    · cases hget with
      | load p t j blockId shardIdx i owner pc shard spec item got => rw [item] at hwait; cases hwait
      | dump p t j blockId shardIdx i owner pc shard spec item got => rw [item] at hwait; cases hwait
  refine ⟨hw, ?_⟩
  rcases h.old_or_new hv with hv | ⟨rfl, hget⟩
  · exact hv
  · exfalso
    have hf := h.kept.fixed hw
    rw [hf.proc] at hp
    rw [hf.task] at ht
    rcases (h.move hl hw).waiter hwait with hold | ⟨-, hpush, -⟩
    · exact hget.not_launched hty (hord.launched w hw hold) (hord.task hty hw hold) hp ht
    · obtain ⟨⟨ok, e⟩, -⟩ | ⟨e, -⟩ := hpush.label
      · rw [e] at hget
        cases hget
      · rw [e] at hget
        cases hget

theorem StoreCase.ordered_behind (hl : Linked s) (hline : Line C s) (hord : WaiterLast s) (h : StoreCase C s l s')
    (hw : w < s.nItem)
    (hv : v < s.nItem) (hwait : (s'.item w).waiter = true) (hp : (s.item v).proc = (s.item w).proc)
    (ht : (s.item v).task = (s.item w).task) (hne : v ≠ w) :
    ((s'.item w).stage = .queued → (s'.item v).stage = .queued → (s'.item v).ticket < (s'.item w).ticket) ∧
      ((s'.item w).stage ≠ .queued → (s'.item v).stage.inQueue = false) := by
  have hmw := h.move hl hw
  have hmv := h.move hl hv
  -- behind an item that has the waiter, none of its task is pushed
  have hlast : (s.item w).waiter = true → ∀ x, ¬ Pushed s l v x := by
    intro hwait x hpush
    have hnone := (hord.launched w hw hwait).none_coming hl hline hv hp ht
    obtain ⟨-, hst, -⟩ | ⟨-, hst⟩ := hpush.label
    · exact hnone.1 hst
    · exact hnone.2 hst
  refine ⟨fun hwq hvq => ?_, fun hwq => ?_⟩
  · obtain ⟨hvold, hvt⟩ | hvpush := hmv.queued hvq
    · rw [hvt]
      obtain ⟨hwold, hwt⟩ | hwpush := hmw.queued hwq
      · rw [hwt]
        obtain hwait | ⟨-, hwpush, -⟩ := hmw.waiter hwait
        · exact (hord.behind w v hw hv hwait hp ht hne).1 hwold hvold
        · obtain ⟨-, hst, -⟩ | ⟨-, hst⟩ := hwpush.label <;> rw [hwold] at hst <;> cases hst
      · rw [hwpush.ticket, ← hp]
        exact hline.ticket v hv hvold
    · obtain hwait | ⟨-, hwpush, -⟩ := hmw.waiter hwait
      · exact absurd hvpush (hlast hwait _)
      · exact absurd (hvpush.unique hwpush hp) hne
  · obtain hwait | ⟨hst, -⟩ := hmw.waiter hwait
    swap
    · exact absurd hst hwq
    by_contra hq
    obtain hvq | hvpush := hmv.inQueue (by simpa using hq)
    swap
    · exact hlast hwait _ hvpush
    by_cases hwold : (s.item w).stage = .queued
    · -- it is taken, and the other was before it
      obtain ⟨-, hnext⟩ := hmw.leaves hwold hwq
      cases hst : (s.item v).stage with
      | queued =>
        have h1 := (hord.behind w v hw hv hwait hp ht hne).1 hwold hst
        have h2 := hnext.2.1 v hv ⟨hv, hp, hst⟩
        omega
      | waiting | spinning | ready | flushing | syncing | failing | counting =>
        have := hnext.2.2 v hv hp
        rw [hst] at this
        cases this
      | _ =>
        rw [hst] at hvq
        cases hvq
    · rw [(hord.behind w v hw hv hwait hp ht hne).2 hwold] at hvq
      cases hvq

theorem StoreCase.ordered_counting (hl : Linked s) (hty : Typed s) (hord : Ordered C s) (hok : NoEarlyDone C s l)
    (h : StoreCase C s l s')
    (hw : w < s.nItem) (hv : v < s.nItem) (hwait : (s'.item w).waiter = true) (hst : (s'.item w).stage = .counting)
    (hp : (s.item v).proc = (s.item w).proc) (ht : (s.item v).task = (s.item w).task) :
    (s'.item v).copying = false ∧ ((s'.item v).stage = .holder → C.taskLaunch (s.item v).proc = false) := by
  have hwait : (s.item w).waiter = true := by
    obtain hwait | ⟨hq, -⟩ := (h.move hl hw).waiter hwait
    · exact hwait
    · rw [hq] at hst
      cases hst
  have hload := hty.isLoad_eq hv hp ht (hord.waiterLast.task hty hw hwait)
  have hmover := h.mover_lt
  -- the thread has item `w`, and that is not at a copy
  have hcalm : (s.item w).stage.transferring = true → (s.item w).stage ≠ .ready ∧ (s.item w).stage ≠ .flushing →
      (s.item v).copying = false →
      (s'.item v).copying = false ∧ ((s'.item v).stage = .holder → (s.item v).stage = .holder) := by
    intro htr hns hc
    refine (h.move hl hv).calm hl hmover hv hload hc fun u hu hup => ?_
    have hsame : (s.item u).stage.transferring = true → u = w := fun hut => hl.alone u w hu hw (hup.trans hp) hut htr
    refine ⟨fun e => ?_, fun e => ?_⟩
    · obtain rfl := hsame (by rw [e]; rfl)
      exact hns.1 e
    · obtain rfl := hsame (by rw [e]; rfl)
      exact hns.2 e
  -- a step that clears the holder leaves nothing in it
  have hclears : ∀ {tl}, l = .transfer w tl → Clears C s w tl → (s.item v).stage = .holder → (s'.item v).stage ≠ .holder := by
    intro tl hlab hc hold
    subst hlab
    cases h with
    | transfer _ _ _ lt step =>
      by_cases e : v = w
      · subst e
        rw [hst]
        decide
      · rw [step.clears hl lt hv hc e hp hold]
        decide
  obtain hold | ⟨hlab, hq, hnext, hfailed⟩ | ⟨hlab, hsync⟩ | ⟨hlab, hfail⟩ := (h.move hl hw).counting hst
  · obtain ⟨hc, hh⟩ := hord.counting w v hw hv hwait hold hp ht
    obtain ⟨h1, h2⟩ := hcalm (by rw [hold]; rfl) (by rw [hold]; exact ⟨nofun, nofun⟩) hc
    exact ⟨h1, fun e => hh (h2 e)⟩
  · have hc : (s.item v).copying = false := by
      subst hlab
      exact hok hfailed hwait v hv hp ht
    obtain ⟨h1, h2⟩ := (h.move hl hv).calm hl hmover hv hload hc fun u hu hup => by
      have := hnext.2.2 u hu (hup.trans hp)
      refine ⟨fun e => ?_, fun e => ?_⟩ <;> (rw [e] at this; cases this)
    exact ⟨h1, fun e => absurd e (hclears hlab (.take hq hnext hfailed hwait) (h2 e))⟩
  · subst hlab
    have hcov : (s'.item v).copying = false := by
      cases h with
      | transfer _ _ _ lt step => exact step.sync_covers hl lt hp hload
    refine ⟨hcov, fun e => ?_⟩
    by_cases hh : (s.item v).stage = .holder
    · exact absurd e (hclears rfl (.sync true hsync) hh)
    · -- only a thread that is not synchronizing moves an item to the holder
      have hm := h.move hl hv
      generalize s'.item v = x at hm e
      cases hm with
      | same => exact absurd e hh
      | synced => exact absurd e hh
      | sync => cases e
      | cleared => cases e
  · subst hlab
    have hc := hok hwait v hv hp ht
    obtain ⟨h1, h2⟩ := hcalm (by rw [hfail]; rfl) (by rw [hfail]; exact ⟨nofun, nofun⟩) hc
    refine ⟨h1, fun e => ?_⟩
    by_contra hmode
    exact hclears rfl (.fail hfail (by rw [← hp]; simpa using hmode)) (h2 e) e

theorem StoreCase.waiterLast (hl : Linked s) (hty : Typed s) (hline : Line C s) (hord : WaiterLast s) (h : StoreCase C s l s') :
    WaiterLast s' := by
  refine ⟨fun w hw hwait => ?_, fun w hw hwait => ?_, fun w v hw hv hwait hp ht hne => ?_⟩
  · obtain ⟨hw, -⟩ := h.ordered_old hl hty hord hw hwait hw rfl rfl
    rw [(h.kept.fixed hw).isLoad]
    obtain hwait | ⟨-, hpush, -⟩ := (h.move hl hw).waiter hwait
    · exact hord.isLoad w hw hwait
    · obtain ⟨-, hst, -⟩ | ⟨-, hst⟩ := hpush.label <;> exact hl.isLoad w hw (by rw [hst]; rfl)
  · obtain ⟨hw, -⟩ := h.ordered_old hl hty hord hw hwait hw rfl rfl
    rw [(h.kept.fixed hw).proc, (h.kept.fixed hw).task]
    exact h.ordered_launched hl hty hline hord hw hwait
  · obtain ⟨hw, hv⟩ := h.ordered_old hl hty hord hw hwait hv hp ht
    rw [(h.kept.fixed hw).proc, (h.kept.fixed hv).proc] at hp
    rw [(h.kept.fixed hw).task, (h.kept.fixed hv).task] at ht
    exact h.ordered_behind hl hline hord hw hv hwait hp ht hne

theorem StoreCase.ordered (hl : Linked s) (hty : Typed s) (hline : Line C s) (hord : Ordered C s) (hok : NoEarlyDone C s l)
    (h : StoreCase C s l s') : Ordered C s' := by
  have hin := h.waiterLast hl hty hline hord.waiterLast
  refine ⟨hin.isLoad, hin.launched, hin.behind, fun w v hw hv hwait hst hp ht => ?_⟩
  obtain ⟨hw, hv⟩ := h.ordered_old hl hty hord.waiterLast hw hwait hv hp ht
  rw [(h.kept.fixed hw).proc, (h.kept.fixed hv).proc] at hp
  rw [(h.kept.fixed hw).task, (h.kept.fixed hv).task] at ht
  rw [(h.kept.fixed hv).proc]
  exact h.ordered_counting hl hty hord hok hw hv hwait hst hp ht

end Last

/-! ## The latch at zero -/

/-- A load task whose latch is at zero is done with. -/
def QuietAtZero (C : Config Block) (s : Store Block) : Prop :=
  ∀ p t, (s.proc p).Task true t → (s.proc p).wrapper.counter t = 0 → QuietTask C s p t

section Quiet

variable {C : Config Block} {s s' : Store Block} {b : Buf Block} {l : StoreLabel Block} {p q u v w t : Nat} {x : Item}

theorem Move.still (hline : Line C s) (hu : ∀ u, l.mover = some u → u < s.nItem) (hload : (s.item v).isLoad = true)
    (hs : (s.item v).Still C) (h : Move C s b v l x) : x.Still C := by
  obtain ⟨hcopy, hst⟩ := hs
  cases h with
  | same | loadOver | release | dumpOver => exact ⟨hcopy, hst⟩
  | synced => exact ⟨rfl, hst⟩
  | flushed u part other proc uStage stage =>
    obtain hst | ⟨-, hmode⟩ := hst
    · rw [stage] at hst
      cases hst
    · rw [proc, hline.flushing u (hu u rfl) uStage] at hmode
      cases hmode
  | cleared u l other proc why stage =>
    refine ⟨?_, .inl rfl⟩
    cases why with
    | flush part uStage =>
      obtain hst | ⟨-, hmode⟩ := hst
      · rw [stage] at hst
        cases hst
      · rw [proc, hline.flushing u (hu u rfl) uStage] at hmode
        cases hmode
    | take | fail => exact hcopy
    | sync ok => simp [holderCopying, hcopy]
  | syncDump p t pc proc isLoad =>
    rw [hload] at isLoad
    cases isLoad
  | push p t pc collected =>
    have := collected.2.2
    rcases hst with hst | ⟨hst, -⟩ <;> rw [hst] at this <;> cases this
  | _ => rcases hst with hst | ⟨hst, -⟩ <;> simp_all

theorem StoreCase.quietTask (hl : Linked s) (hty : Typed s) (hline : Line C s) (ht : (s.proc p).Task true t)
    (hq : QuietTask C s p t)
    (h : StoreCase C s l s') : QuietTask C s' p t := by
  refine ⟨h.launched hl ht.1 hq.launched, fun v hv hp htask => ?_⟩
  rcases h.old_or_new hv with hv | ⟨rfl, hget⟩
  · have hf := h.kept.fixed hv
    rw [hf.proc] at hp
    rw [hf.task] at htask
    exact (h.move hl hv).still hline h.mover_lt (hty.isLoad_eq hv hp htask ht) (hq.still v hv hp htask)
  · exact (hget.not_launched hty hq.launched ht hp htask).elim

/-- The dispatcher gives a task up. -/
theorem StoreCase.quiet_dispatched (hl : Linked s) (hty : Typed s) (hline : Line C s) (hok : NoEarlyDone C s (.dispatch p .done))
    (hpc : (s.proc p).dispatcher = .done t) (h : StoreCase C s (.dispatch p .done) s') : QuietTask C s' p t := by
  have htask := hty.dispatcher p t (by rw [hpc]; rfl)
  refine ⟨⟨fun hmem => ?_, fun hpc' => ?_⟩, fun v hv hp ht => ?_⟩
  · rcases (h.queues p).1 t hmem with hmem | ⟨rfl, -⟩
    · exact hline.started p t (by rw [hpc]; rfl) hmem
    · exact absurd htask.1 (Nat.lt_irrefl _)
  · cases h with
    | dispatch _ _ _ step =>
      cases step with
      | done t' pc => simp at hpc'
  · rcases h.old_or_new hv with hv | ⟨rfl, hget⟩
    swap
    · cases hget
    have hf := h.kept.fixed hv
    rw [hf.proc] at hp
    rw [hf.task] at ht
    obtain ⟨hcopy, hq, hh⟩ := hok t hpc v hv hp ht
    have hload := hty.isLoad_eq hv hp ht htask
    cases h with
    | dispatch _ _ _ step =>
      cases step with
      | done t' pc =>
        simp only [Item.Still, dropAt_item, setDispatcher_item, setWrapper_item, Bool.or_eq_true]
        split
        · exact ⟨hcopy, .inl rfl⟩
        · next hno =>
          refine ⟨hcopy, ?_⟩
          -- past the dispatcher and not in the queue
          cases hst : (s.item v).stage with
          | ended => exact .inl rfl
          | holder => exact .inr ⟨rfl, hp ▸ hh hst⟩
          | got => exact absurd ⟨hp, .inl (decide_eq_true hst)⟩ hno
          | collected => exact absurd ⟨hp, .inr (decide_eq_true hst)⟩ hno
          | dumpGot | copied | synced | dumping =>
            have := hl.isDump v hv (by rw [hst]; rfl)
            rw [hload] at this
            cases this
          | _ =>
            rw [hst] at hq
            cases hq

/-- The last item of a task counts it down. -/
theorem StoreCase.quiet_transferred (hl : Linked s) (hty : Typed s) (hline : Line C s) (hord : Ordered C s) (hu : u < s.nItem)
    (hst : (s.item u).stage = .counting) (hwait : (s.item u).waiter = true) (h : StoreCase C s (.transfer u .done) s') :
    QuietTask C s' (s.item u).proc (s.item u).task := by
  have htask := hord.waiterLast.task hty hu hwait
  have hlaunched := hord.launched u hu hwait
  refine ⟨h.launched hl htask.1 hlaunched, fun v hv hp ht => ?_⟩
  rcases h.old_or_new hv with hv | ⟨rfl, hget⟩
  swap
  · cases hget
  have hf := h.kept.fixed hv
  rw [hf.proc] at hp
  rw [hf.task] at ht
  obtain ⟨hcopy, hh⟩ := hord.counting u v hu hv hwait hst hp ht
  have hload := hty.isLoad_eq hv hp ht htask
  by_cases e : v = u
  · subst e
    have hm := h.move hl hv
    generalize s'.item v = x at hm
    cases hm with
    | same l other => exact absurd rfl other
    | done stage => exact ⟨hcopy, .inl rfl⟩
    | cleared u l other => exact absurd rfl other
  · have hsame : s'.item v = s.item v := by
      cases h with
      | transfer _ _ _ lt step =>
        cases step with
        | done stage =>
          unfold Store.countDown
          simp only [setItem_item, e, if_false]
          split <;> rfl
    rw [hsame]
    refine ⟨hcopy, ?_⟩
    have hq := (hord.behind u v hu hv hwait hp ht e).2 (by rw [hst]; decide)
    have hnone := hlaunched.none_coming hl hline hv hp ht
    cases hs : (s.item v).stage with
    | ended => exact .inl rfl
    | holder => exact .inr ⟨rfl, hh hs⟩
    | got => exact absurd hs hnone.1
    | collected => exact absurd hs hnone.2
    | dumpGot | copied | synced | dumping =>
      have := hl.isDump v hv (by rw [hs]; rfl)
      rw [hload] at this
      cases this
    | _ =>
      rw [hs] at hq
      cases hq

/-- A task that was refused has no shards on their way. -/
theorem StoreCase.quiet_full (hty : Typed s) {isLoad : Bool} {desc : List (Block × Nat)}
    (h : StoreCase C s (.submit p isLoad desc true) s') :
    QuietTask C s' p (s.proc p).wrapper.nTask := by
  have hnew : ∀ t b, (s.proc p).Task b t → t ≠ (s.proc p).wrapper.nTask := fun t b ht => Nat.ne_of_lt ht.1
  refine ⟨⟨fun hmem => ?_, fun hpc => ?_⟩, fun v hv hp ht => ?_⟩
  · cases h with
    | submit =>
      simp only [Store.submit, Bool.not_true, Bool.and_false, setProc_proc, if_true] at hmem
      exact hnew _ _ (hty.waiting p _ hmem) rfl
  · rw [h.dispatcher_eq (by simp)] at hpc
    exact absurd rfl (hnew _ _ (hty.dispatcher p _ hpc))
  · rcases h.old_or_new hv with hv | ⟨rfl, hget⟩
    · have hf := h.kept.fixed hv
      rw [hf.proc] at hp
      rw [hf.task] at ht
      have := hty.item v hv
      rw [hp] at this
      exact absurd ht (hnew _ _ this)
    · cases hget

theorem StoreCase.quietAtZero (hl : Linked s) (hty : Typed s) (hline : Line C s) (hord : Ordered C s) (hok : NoEarlyDone C s l)
    (hq : QuietAtZero C s) (h : StoreCase C s l s') : QuietAtZero C s' := by
  intro p t ht hz
  by_cases hlt : t < (s.proc p).wrapper.nTask
  · have htask : (s.proc p).Task true t := ⟨hlt, by rw [← h.task_eq hlt]; exact ht.2⟩
    by_cases hz0 : (s.proc p).wrapper.counter t = 0
    · exact h.quietTask hl hty hline htask (hq p t htask hz0)
    · -- the latch is counted down by this step
      have hm := h.wrapper p
      generalize (s'.proc p).wrapper = w at hm hz
      cases hm with
      | same => exact absurd hz hz0
      | submit isLoad desc => exact absurd (by simpa [Nat.ne_of_lt hlt] using hz) hz0
      | full isLoad desc => exact absurd (by simpa [Nat.ne_of_lt hlt] using hz) hz0
      | wait wl w step => exact absurd ((waitStep_keeps step).counter ▸ hz) hz0
      | fail l t' => exact absurd hz hz0
      | dispatchDone t' pc =>
        rw [TaskWrapper.done_counter] at hz
        split at hz
        · next e =>
          subst e
          exact h.quiet_dispatched hl hty hline hok pc
        · exact absurd hz hz0
      | transferDone u lt proc stage waiter =>
        rw [TaskWrapper.done_counter] at hz
        split at hz
        · next e =>
          subst e proc
          exact h.quiet_transferred hl hty hline hord lt stage waiter
        · exact absurd hz hz0
      | dumpDone t' pc =>
        rw [TaskWrapper.done_counter] at hz
        split at hz
        · next e =>
          subst e
          have := (hty.dumper p t (by rw [pc]; rfl)).2
          rw [htask.2] at this
          cases this
        · exact absurd hz hz0
  · -- a new task
    have hm := h.wrapper p
    have hlt' := ht.1
    generalize (s'.proc p).wrapper = w at hm hz hlt'
    have hno : w.nTask = (s.proc p).wrapper.nTask → QuietTask C s' p t := fun e => absurd (e ▸ hlt') hlt
    cases hm with
    | same => exact hno rfl
    | submit isLoad desc =>
      simp only [TaskWrapper.submit_nTask] at hlt'
      obtain rfl : t = (s.proc p).wrapper.nTask := by omega
      simp at hz
    | full isLoad desc =>
      simp only [TaskWrapper.done_nTask, TaskWrapper.fail_nTask, TaskWrapper.submit_nTask] at hlt'
      obtain rfl : t = (s.proc p).wrapper.nTask := by omega
      exact h.quiet_full hty
    | wait wl w step => exact hno (waitStep_keeps step).nTask
    | fail l t' => exact hno rfl
    | dispatchDone t' pc => exact hno rfl
    | transferDone u lt proc stage waiter => exact hno rfl
    | dumpDone t' pc => exact hno rfl

end Quiet

/-! ## Every run -/

section Reach

variable [DecidableEq Block] {C : Config Block} {ok : Store Block → StoreLabel Block → Prop} {s : Store Block}

theorem reach_line (h : Reach (cacheStore C) ok s) : Line C s := by
  refine Reach.inv_with (I := Line C) (J := fun s => Linked s ∧ Typed s) (fun _ hr => ⟨reach_linked hr, reach_typed hr⟩)
    (fun s hi => ⟨fun p => ?_, fun p t ht => ?_, fun v hv => ?_, fun v hv => ?_, fun v hv => ?_⟩)
    (fun _ _ _ hJ hI _ hst => (storeStep_case hst).line hJ.1 hJ.2 hI) h
  · rw [hi.waiting]
    exact List.nodup_nil
  · rw [hi.dispatcher] at ht
    cases ht
  all_goals
    rw [hi.nItem] at hv
    omega

theorem reach_waiterLast (h : Reach (cacheStore C) ok s) : WaiterLast s := by
  refine Reach.inv_with (I := WaiterLast) (J := fun s => Linked s ∧ Typed s ∧ Line C s)
    (fun _ hr => ⟨reach_linked hr, reach_typed hr, reach_line hr⟩)
    (fun s hi => ⟨fun w hw => ?_, fun w hw => ?_, fun w v hw => ?_⟩)
    (fun _ _ _ hJ hI _ hst => (storeStep_case hst).waiterLast hJ.1 hJ.2.1 hJ.2.2 hI) h
  all_goals
    rw [hi.nItem] at hw
    omega

theorem reach_ordered (h : Reach (cacheStore C) (NoEarlyDone C) s) : Ordered C s := by
  refine Reach.inv_with (I := Ordered C) (J := fun s => Linked s ∧ Typed s ∧ Line C s)
    (fun _ hr => ⟨reach_linked hr, reach_typed hr, reach_line hr⟩)
    (fun s hi => ⟨fun w hw => ?_, fun w hw => ?_, fun w v hw => ?_, fun w v hw => ?_⟩)
    (fun _ _ _ hJ hI hok hst => (storeStep_case hst).ordered hJ.1 hJ.2.1 hJ.2.2 hI hok) h
  all_goals
    rw [hi.nItem] at hw
    omega

theorem reach_quietAtZero (h : Reach (cacheStore C) (NoEarlyDone C) s) : QuietAtZero C s := by
  refine Reach.inv_with (I := QuietAtZero C) (J := fun s => Linked s ∧ Typed s ∧ Line C s ∧ Ordered C s)
    (fun _ hr => ⟨reach_linked hr, reach_typed hr, reach_line hr, reach_ordered hr⟩) (fun s hi p t ht _ => ?_)
    (fun _ _ _ hJ hI hok hst => (storeStep_case hst).quietAtZero hJ.1 hJ.2.1 hJ.2.2.1 hJ.2.2.2 hok hI) h
  have := ht.1
  rw [hi.wrapper] at this
  exact absurd this (Nat.not_lt_zero _)

/-- No copy for a shard of the task is outstanding. -/
def NoCopy (s : Store Block) (p t : Nat) : Prop :=
  ∀ v, v < s.nItem → (s.item v).proc = p → (s.item v).task = t → (s.item v).isLoad = true → (s.item v).copying = false

theorem reach_noCopy (h : Reach (cacheStore C) (NoEarlyDone C) s) {p t : Nat} (hw : (s.proc p).wrapper.wait t = .returned) :
    NoCopy s p t := by
  intro v hv hp ht hload
  have htask : (s.proc p).Task true t := by
    have := (reach_typed h).item v hv
    rwa [hp, ht, hload] at this
  exact ((reach_quietAtZero h p t htask ((reach_waits h).returned p t hw)).still v hv hp ht).1

/-- In a run without an early `Done`, no copy for a shard of the task is outstanding when its
    `Wait` has returned, whatever it returned, and none is issued later. -/
theorem no_copy_after_wait (h : Reach (cacheStore C) (NoEarlyDone C) s) (p t : Nat) (hw : (s.proc p).wrapper.wait t = .returned) :
    NoCopy s p t ∧ ∀ s', Reach ((cacheStore C).startAt s) (NoEarlyDone C) s' → NoCopy s' p t := by
  refine ⟨reach_noCopy h hw, fun s' hr => ?_⟩
  have hlater : Reach (cacheStore C) (NoEarlyDone C) s' ∧ (s'.proc p).wrapper.wait t = .returned := by
    induction hr with
    | init hi =>
      obtain rfl : _ = s := hi
      exact ⟨h, hw⟩
    | step a _ hok hst ih => exact ⟨.step a ih.1 hok hst, (storeStep_case hst).returned ih.2⟩
  exact reach_noCopy hlater.1 hlater.2

end Reach

/-- A check that implies `NoEarlyDone`, for runs in which no task fails. -/
def noTaskFails (s : Store Nat) : StoreLabel Nat → Bool
  | .dispatch _ .done => false
  | .transfer _ .fail => false
  | .transfer u .take => !s.failed u
  | _ => true

theorem noTaskFails_ok (s : Store Nat) (l : StoreLabel Nat) (h : noTaskFails s l = true) : NoEarlyDone oneNode s l := by
  unfold noTaskFails at h
  unfold NoEarlyDone
  split at h <;> simp_all

/-- A load that goes through. -/
theorem no_copy_after_wait_load : ∃ s, Reach (cacheStore oneNode) (NoEarlyDone oneNode) s ∧
    (s.proc 0).wrapper.wait 0 = .returned ∧ 0 < s.nItem ∧ NoCopy s 0 0 := by
  obtain ⟨s, hs, hp⟩ := exists_of_replayOk (S := cacheStore oneNode) noTaskFails noTaskFails_ok
    (p := fun s => decide ((s.proc 0).wrapper.wait 0 = .returned ∧ 0 < s.nItem))
    (loadOne ++ [.loadOver 0, .transfer 0 .take, .transfer 0 (.wait true), .transfer 0 (.copy true false),
      .transfer 0 (.sync true),
      .transfer 0 .done, .wait 0 (.finished 0)]) freshStore_init (by decide)
  obtain ⟨hw, hn⟩ := of_decide_eq_true hp
  exact ⟨s, hs, hw, hn, (no_copy_after_wait hs 0 0 hw).1⟩

/-- The backend refuses the second shard, the dispatcher calls `Done`, `Wait` returns and erases
    the failure mark, and the first shard is copied. -/
theorem copy_after_wait : ∃ s, Reach (cacheStore twoNodeStore) Any s ∧ (s.proc 0).wrapper.wait 0 = .returned ∧
    ¬ NoCopy s 0 0 := by
  obtain ⟨s, hs, hp⟩ := exists_of_replay (S := cacheStore twoNodeStore)
    (p := fun s => decide ((s.proc 0).wrapper.wait 0 = .returned ∧ 0 < s.nItem ∧ (s.item 0).proc = 0 ∧ (s.item 0).task = 0 ∧
      (s.item 0).isLoad = true ∧ (s.item 0).copying = true))
    [.submit 0 true [(7, 0), (7, 1)] false, .wait 0 (.call 0), .dispatch 0 .start, .dispatch 0 (.get 0),
      .dispatch 0 (.submit true),
      .dispatch 0 (.get 1), .dispatch 0 (.submit false), .dispatch 0 .fail, .dispatch 0 .done, .wait 0 (.finished 0), .loadOver 0,
      .transfer 0 .take, .transfer 0 (.wait true), .transfer 0 (.copy true false)] freshStore_init (by decide)
  obtain ⟨hw, hn, hp0, ht0, hload, hcopy⟩ := of_decide_eq_true hp
  refine ⟨s, hs, hw, fun hno => ?_⟩
  have := hno 0 hn hp0 ht0 hload
  rw [hcopy] at this
  cases this

end UnifiedCache.Cache
