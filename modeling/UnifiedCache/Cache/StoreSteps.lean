/-
  UnifiedCache.Cache.StoreSteps — what a step of the cache store can do, once for all its
  invariants (see `UnifiedCache.Cache.Store`).

  - `StoreCase`: a step with its guards and its outcome, one constructor for each branch of the
    source; `storeStep_case` proves it of every step.
  - `StoreKept`: what no step changes of an item or a node, but for a `Get`, which adds an item,
    and a release.
  - `RefInv`: a node's reference count is the number of its handles that are not released.
-/

import UnifiedCache.Base.Tally
import UnifiedCache.Cache.Store

namespace UnifiedCache.Cache

open UnifiedCache.Base UnifiedCache.Detail

variable {Block : Type}

/-! ## The branches -/

inductive DispatchCase (C : Config Block) (s : Store Block) (p : Nat) : DispatchLabel → Store Block → Prop
  | start (t : Nat) (rest : List Nat) (pc : (s.proc p).dispatcher = .idle) (first : (s.proc p).waiting = t :: rest) :
      DispatchCase C s p .start (s.setProc p { s.proc p with
        waiting := rest
        dispatcher := if (s.proc p).wrapper.failureSet t then .done t else .loop t 0 })
  | get (t j : Nat) (blockId : Block) (shardIdx i : Nat) (b : Buf Block) (owner : Bool) (pc : (s.proc p).dispatcher = .loop t j)
      (shard : ((s.proc p).task t).desc[j]? = some (blockId, shardIdx))
      (spec : GetSpec s.buf b ⟨blockId, shardIdx, true, true⟩ i owner) :
      DispatchCase C s p (.get i)
        (({ s with buf := b }.addItem (.start p t j i owner true)).setDispatcher p (.got t j s.nItem))
  /-- With the backend's operation submitted where the owner has to. -/
  | enqueue (t j u : Nat) (ok : Bool) (backend : Op) (pc : (s.proc p).dispatcher = .got t j u)
      (submitted : backend = .running ∧ (s.item u).owner = true ∧ s.buf.getState (s.item u).pos ≠ .ready ∨
        backend = (s.item u).backend ∧ ((s.item u).owner = true → s.buf.getState (s.item u).pos = .ready)) :
      DispatchCase C s p (.submit ok) (s.enqueue C p t j u { s.item u with backend := backend })
  | refuse (t j u : Nat) (pc : (s.proc p).dispatcher = .got t j u) (owner : (s.item u).owner = true)
      (unready : s.buf.getState (s.item u).pos ≠ .ready) :
      DispatchCase C s p (.submit false)
      ({ s with buf := s.buf.markFailed (s.item u).pos statusError }.setDispatcher p (.failing t))
  | finish (t : Nat) (pc : (s.proc p).dispatcher = .loop t ((s.proc p).task t).desc.length) :
      DispatchCase C s p .finish (s.setDispatcher p (if C.taskLaunch p then .pushing t else .idle))
  | pushed (t : Nat) (pc : (s.proc p).dispatcher = .pushing t) (none : ∀ v, v < s.nItem → ¬ s.At p .collected v) :
      DispatchCase C s p .finish (s.setDispatcher p .idle)
  | push (t u : Nat) (pc : (s.proc p).dispatcher = .pushing t) (collected : s.At p .collected u)
      (first : ∀ v, v < s.nItem → s.At p .collected v → s.pushedBefore u v) : DispatchCase C s p (.push u) (s.pushItem p u)
  | fail (t : Nat) (pc : (s.proc p).dispatcher = .failing t) :
      DispatchCase C s p .fail ((s.setWrapper p ((s.proc p).wrapper.fail t)).setDispatcher p (.done t))
  | done (t : Nat) (pc : (s.proc p).dispatcher = .done t) :
      DispatchCase C s p .done
        (((s.setWrapper p ((s.proc p).wrapper.done t)).setDispatcher p .idle).dropAt p fun st => st = .got || st = .collected)

/-- A wait that returns has been for an operation. -/
theorem Op.asked {op : Op} {ok : Bool} (h : op = .ended ∨ ok = false ∧ op = .running) : op ≠ .none := by
  rcases h with rfl | ⟨-, rfl⟩ <;> decide

inductive TransferCase (C : Config Block) (s : Store Block) (u : Nat) : TransferLabel → Store Block → Prop
  | skip (stage : (s.item u).stage = .queued) (next : s.Next u) (failed : s.failed u = true)
      (waiter : (s.item u).waiter = false) :
      TransferCase C s u .take (s.setItem u (s.item u).drop)
  | skipLast (stage : (s.item u).stage = .queued) (next : s.Next u) (failed : s.failed u = true)
      (waiter : (s.item u).waiter = true) :
      TransferCase C s u .take ((s.clearHolder u).setStage u .counting)
  | take (stage : (s.item u).stage = .queued) (next : s.Next u) (fine : s.failed u = false) :
      TransferCase C s u .take (s.setStage u .waiting)
  | wait (ok : Bool) (stage : (s.item u).stage = .waiting)
      (ended : (s.item u).backend = .ended ∨ ok = false ∧ (s.item u).backend = .running) :
      TransferCase C s u (.wait ok) (s.waitBackend u ok)
  | look (stage : (s.item u).stage = .waiting) (backend : (s.item u).backend = .none) : TransferCase C s u .look (s.lookState u)
  | check (stage : (s.item u).stage = .spinning) :
      TransferCase C s u .check (s.setStage u (if s.failed u then .failing else .waiting))
  | hold (stage : (s.item u).stage = .ready) (mode : C.taskLaunch (s.item u).proc = true) :
      TransferCase C s u .hold (s.setStage u (if (s.item u).launchBoundary then .flushing else .holder))
  | copy (ok part : Bool) (stage : (s.item u).stage = .ready) (mode : C.taskLaunch (s.item u).proc = false) :
      TransferCase C s u (.copy ok part) (s.copyShard u ok part)
  | flush (ok part : Bool) (stage : (s.item u).stage = .flushing) : TransferCase C s u (.flush ok part) (s.flushHolder u ok part)
  | sync (ok : Bool) (stage : (s.item u).stage = .syncing) : TransferCase C s u (.sync ok) (s.syncStream C u ok)
  | fail (stage : (s.item u).stage = .failing) : TransferCase C s u .fail (s.failTask C u)
  | done (stage : (s.item u).stage = .counting) : TransferCase C s u .done (s.countDown u)

inductive DumpCase (C : Config Block) (s : Store Block) (p : Nat) : DumpLabel → Store Block → Prop
  | start (ok : Bool) (t : Nat) (rest : List Nat) (pc : (s.proc p).dumper = .idle) (first : (s.proc p).dumpWaiting = t :: rest) :
      DumpCase C s p (.start ok) (s.setProc p { s.proc p with
        dumpWaiting := rest
        dumper := if (s.proc p).wrapper.failureSet t then .done t else if ok then .loop t 0 else .failed t })
  | get (t j : Nat) (blockId : Block) (shardIdx i : Nat) (b : Buf Block) (owner : Bool) (pc : (s.proc p).dumper = .loop t j)
      (shard : ((s.proc p).task t).desc[j]? = some (blockId, shardIdx))
      (spec : GetSpec s.buf b ⟨blockId, shardIdx, false, false⟩ i owner) :
      DumpCase C s p (.get i) (({ s with buf := b }.addItem (.start p t j i owner false)).setDumper p (.got t j s.nItem))
  | skip (t j u : Nat) (ok part : Bool) (pc : (s.proc p).dumper = .got t j u) (shared : (s.item u).owner = false) :
      DumpCase C s p (.take ok part) ((s.setItem u (s.item u).drop).setDumper p (.loop t (j + 1)))
  | found (t j u : Nat) (ok part : Bool) (pc : (s.proc p).dumper = .got t j u) (owner : (s.item u).owner = true)
      (ready : s.buf.getState (s.item u).pos = .ready) :
      DumpCase C s p (.take ok part) ((s.setItem u { s.item u with stage := .copied }).setDumper p (.loop t (j + 1)))
  | copy (t j u : Nat) (part : Bool) (pc : (s.proc p).dumper = .got t j u) (owner : (s.item u).owner = true)
      (unready : s.buf.getState (s.item u).pos ≠ .ready) :
      DumpCase C s p (.take true part)
        ((s.setItem u { s.item u with stage := .copied, copying := true }).setDumper p (.loop t (j + 1)))
  | refuse (t j u : Nat) (part : Bool) (pc : (s.proc p).dumper = .got t j u) (owner : (s.item u).owner = true)
      (unready : s.buf.getState (s.item u).pos ≠ .ready) :
      DumpCase C s p (.take false part) (((s.setItem u { s.item u with copying := part }).dropDump p).setDumper p (.failed t))
  | finish (t : Nat) (pc : (s.proc p).dumper = .loop t ((s.proc p).task t).desc.length) :
      DumpCase C s p .finish (s.setDumper p (if ∃ u, u < s.nItem ∧ s.At p .copied u then .sync t else .done t))
  | sync (t : Nat) (ok : Bool) (pc : (s.proc p).dumper = .sync t) : DumpCase C s p (.sync ok) (s.syncDump p t ok)
  | mark (t u : Nat) (pc : (s.proc p).dumper = .mark t) (synced : s.At p .synced u) :
      DumpCase C s p (.mark u) { s with buf := s.buf.markReady (s.item u).pos }
  | submit (t : Nat) (ok : Bool) (pc : (s.proc p).dumper = .mark t)
      (marked : ∀ u, u < s.nItem → s.At p .synced u → s.buf.getState (s.item u).pos ≠ .loading) :
      DumpCase C s p (.submit ok) (s.submitDump p t ok)
  | fail (t : Nat) (pc : (s.proc p).dumper = .failed t) :
      DumpCase C s p .fail ((s.setWrapper p ((s.proc p).wrapper.fail t)).setDumper p (.done t))
  | done (t : Nat) (pc : (s.proc p).dumper = .done t) :
      DumpCase C s p .done ((s.setWrapper p ((s.proc p).wrapper.done t)).setDumper p .idle)
  | waited (t : Nat) (rest : List Nat) (ok : Bool) (first : (s.proc p).dumping = t :: rest)
      (ended : ok = true → ∀ u, u < s.nItem → s.InContext p t u → (s.item u).backend = .ended) :
      DumpCase C s p (.waited ok)
        ((s.each fun x => if x.proc = p ∧ x.stage = .dumping ∧ x.task = t then x.drop else x).setProc p
          { s.proc p with dumping := rest })

inductive StoreCase (C : Config Block) (s : Store Block) : StoreLabel Block → Store Block → Prop
  | submit (p : Nat) (isLoad : Bool) (desc : List (Block × Nat)) (full : Bool) :
      StoreCase C s (.submit p isLoad desc full) (s.submit p isLoad desc full)
  | wait (p : Nat) (l : WaitLabel) (w : TaskWrapper) (step : waitStep false (s.proc p).wrapper l = some w) :
      StoreCase C s (.wait p l) (s.setWrapper p w)
  | dispatch (p : Nat) (l : DispatchLabel) (s' : Store Block) (step : DispatchCase C s p l s') : StoreCase C s (.dispatch p l) s'
  | transfer (u : Nat) (l : TransferLabel) (s' : Store Block) (lt : u < s.nItem) (step : TransferCase C s u l s') :
      StoreCase C s (.transfer u l) s'
  | dump (p : Nat) (l : DumpLabel) (s' : Store Block) (step : DumpCase C s p l s') : StoreCase C s (.dump p l) s'
  | loadOver (u : Nat) (lt : u < s.nItem) (isLoad : (s.item u).isLoad = true) (running : (s.item u).backend = .running) :
      StoreCase C s (.loadOver u) (s.setItem u { s.item u with backend := .ended })
  | dumpOver (p t : Nat) :
      StoreCase C s (.dumpOver p t)
        (s.each fun x => if x.proc = p ∧ x.task = t ∧ x.isLoad = false ∧
          x.backend = .running then { x with backend := .ended } else x)
  | release (u : Nat) (lt : u < s.nItem) (dropping : (s.item u).handle = .dropping) : StoreCase C s (.release u) (s.release u)

section Cases

variable [DecidableEq Block] {C : Config Block} {s s' : Store Block}

theorem dispatchStep_case {p : Nat} {l : DispatchLabel} (h : dispatchStep C s p l = some s') : DispatchCase C s p l s' := by
  cases l with
  | start =>
    simp only [dispatchStep] at h
    split at h
    · next t rest hpc hw =>
      obtain rfl := Option.some.inj h
      exact .start t rest hpc hw
    · cases h
  | get i =>
    simp only [dispatchStep] at h
    split at h
    · next t j hpc =>
      split at h
      · next blockId shardIdx hd =>
        rw [Option.map_eq_some_iff] at h
        obtain ⟨⟨b, owner⟩, hg, rfl⟩ := h
        exact .get t j blockId shardIdx i b owner hpc hd (get_spec hg)
      · cases h
    · cases h
  | submit ok =>
    simp only [dispatchStep] at h
    split at h
    · next t j u hpc =>
      obtain rfl := Option.some.inj h
      unfold Store.submitLoad
      simp only
      split
      · next hneed =>
        simp only [Bool.and_eq_true, Bool.not_eq_true', Buf.ready, decide_eq_false_iff_not] at hneed
        cases ok with
        | true => exact .enqueue t j u true .running hpc (.inl ⟨rfl, hneed⟩)
        | false => exact .refuse t j u hpc hneed.1 hneed.2
      · next hneed =>
        simp only [Bool.and_eq_true, Bool.not_eq_true', Buf.ready, decide_eq_false_iff_not, not_and, not_not] at hneed
        exact .enqueue t j u ok _ hpc (.inr ⟨rfl, hneed⟩)
    · cases h
  | finish =>
    simp only [dispatchStep] at h
    split at h
    · next t j hpc =>
      simp only [Option.ite_none_right_eq_some, Option.some.injEq] at h
      obtain ⟨rfl, rfl⟩ := h
      exact .finish t hpc
    · next t hpc =>
      simp only [Option.ite_none_right_eq_some, Option.some.injEq] at h
      obtain ⟨hnone, rfl⟩ := h
      exact .pushed t hpc hnone
    · cases h
  | push u =>
    simp only [dispatchStep] at h
    split at h
    · next t hpc =>
      simp only [Option.ite_none_right_eq_some, Option.some.injEq] at h
      obtain ⟨⟨hat, hfirst⟩, rfl⟩ := h
      exact .push t u hpc hat hfirst
    · cases h
  | fail =>
    simp only [dispatchStep] at h
    split at h
    · next t hpc =>
      obtain rfl := Option.some.inj h
      exact .fail t hpc
    · cases h
  | done =>
    simp only [dispatchStep] at h
    split at h
    · next t hpc =>
      obtain rfl := Option.some.inj h
      exact .done t hpc
    · cases h

omit [DecidableEq Block] in
theorem transferStep_case {u : Nat} {l : TransferLabel} (h : transferStep C s u l = some s') :
    u < s.nItem ∧ TransferCase C s u l s' := by
  simp only [transferStep, Option.ite_none_right_eq_some] at h
  obtain ⟨hu, h⟩ := h
  refine ⟨hu, ?_⟩
  split at h
  · next hst =>
    simp only [Option.ite_none_right_eq_some, Option.some.injEq] at h
    obtain ⟨hnext, rfl⟩ := h
    unfold Store.take
    split
    · next hf =>
      split
      · next hw => exact .skipLast hst hnext hf hw
      · next hw => exact .skip hst hnext hf (by simpa using hw)
    · next hf => exact .take hst hnext (by simpa using hf)
  · next ok hst =>
    simp only [Option.ite_none_right_eq_some, Option.some.injEq] at h
    obtain ⟨hover, rfl⟩ := h
    exact .wait ok hst hover
  · next hst =>
    simp only [Option.ite_none_right_eq_some, Option.some.injEq] at h
    obtain ⟨hnone, rfl⟩ := h
    exact .look hst hnone
  · next hst =>
    obtain rfl := Option.some.inj h
    exact .check hst
  · next hst =>
    simp only [Option.ite_none_right_eq_some, Option.some.injEq] at h
    obtain ⟨hmode, rfl⟩ := h
    exact .hold hst hmode
  · next ok part hst =>
    simp only [Option.ite_none_left_eq_some, Bool.not_eq_true, Option.some.injEq] at h
    obtain ⟨hmode, rfl⟩ := h
    exact .copy ok part hst hmode
  · next ok part hst =>
    obtain rfl := Option.some.inj h
    exact .flush ok part hst
  · next ok hst =>
    obtain rfl := Option.some.inj h
    exact .sync ok hst
  · next hst =>
    obtain rfl := Option.some.inj h
    exact .fail hst
  · next hst =>
    obtain rfl := Option.some.inj h
    exact .done hst
  · cases h

theorem dumpStep_case {p : Nat} {l : DumpLabel} (h : dumpStep C s p l = some s') : DumpCase C s p l s' := by
  cases l with
  | start ok =>
    simp only [dumpStep] at h
    split at h
    · next t rest hpc hw =>
      obtain rfl := Option.some.inj h
      exact .start ok t rest hpc hw
    · cases h
  | get i =>
    simp only [dumpStep] at h
    split at h
    · next t j hpc =>
      split at h
      · next blockId shardIdx hd =>
        rw [Option.map_eq_some_iff] at h
        obtain ⟨⟨b, owner⟩, hg, rfl⟩ := h
        exact .get t j blockId shardIdx i b owner hpc hd (get_spec hg)
      · cases h
    · cases h
  | take ok part =>
    simp only [dumpStep] at h
    split at h
    · next t j u hpc =>
      obtain rfl := Option.some.inj h
      unfold Store.takeDump
      simp only
      split
      · next hown => exact .skip t j u ok part hpc (by simpa using hown)
      next hown =>
      have hown : (s.item u).owner = true := by simpa using hown
      split
      · next hrdy => exact .found t j u ok part hpc hown (of_decide_eq_true hrdy)
      next hrdy =>
      have hrdy : s.buf.getState (s.item u).pos ≠ .ready := fun e => hrdy (decide_eq_true e)
      cases ok with
      | true => exact .copy t j u part hpc hown hrdy
      | false => exact .refuse t j u part hpc hown hrdy
    · cases h
  | finish =>
    simp only [dumpStep] at h
    split at h
    · next t j hpc =>
      simp only [Option.ite_none_right_eq_some, Option.some.injEq] at h
      obtain ⟨rfl, rfl⟩ := h
      exact .finish t hpc
    · cases h
  | sync ok =>
    simp only [dumpStep] at h
    split at h
    · next t hpc =>
      obtain rfl := Option.some.inj h
      exact .sync t ok hpc
    · cases h
  | mark u =>
    simp only [dumpStep] at h
    split at h
    · next t hpc =>
      simp only [Option.ite_none_right_eq_some, Option.some.injEq] at h
      obtain ⟨hat, rfl⟩ := h
      exact .mark t u hpc hat
    · cases h
  | submit ok =>
    simp only [dumpStep] at h
    split at h
    · next t hpc =>
      simp only [Option.ite_none_right_eq_some, Option.some.injEq] at h
      obtain ⟨hmarked, rfl⟩ := h
      exact .submit t ok hpc hmarked
    · cases h
  | fail =>
    simp only [dumpStep] at h
    split at h
    · next t hpc =>
      obtain rfl := Option.some.inj h
      exact .fail t hpc
    · cases h
  | done =>
    simp only [dumpStep] at h
    split at h
    · next t hpc =>
      obtain rfl := Option.some.inj h
      exact .done t hpc
    · cases h
  | waited ok =>
    simp only [dumpStep] at h
    split at h
    · next t rest hfirst =>
      simp only [Option.ite_none_right_eq_some, Option.some.injEq] at h
      obtain ⟨hover, rfl⟩ := h
      exact .waited t rest ok hfirst hover
    · cases h

theorem storeStep_case {l : StoreLabel Block} (h : storeStep C s l = some s') : StoreCase C s l s' := by
  cases l with
  | submit p isLoad desc full =>
    obtain rfl := Option.some.inj h
    exact .submit p isLoad desc full
  | wait p l =>
    simp only [storeStep, Option.map_eq_some_iff] at h
    obtain ⟨w, hw, rfl⟩ := h
    exact .wait p l w hw
  | dispatch p l => exact .dispatch p l s' (dispatchStep_case h)
  | transfer u l =>
    obtain ⟨hu, hcase⟩ := transferStep_case h
    exact .transfer u l s' hu hcase
  | dump p l => exact .dump p l s' (dumpStep_case h)
  | loadOver u =>
    simp only [storeStep, Option.ite_none_right_eq_some, Option.some.injEq] at h
    obtain ⟨⟨hu, hload, hrun⟩, rfl⟩ := h
    exact .loadOver u hu hload hrun
  | dumpOver p t =>
    obtain rfl := Option.some.inj h
    exact .dumpOver p t
  | release u =>
    simp only [storeStep, Option.ite_none_right_eq_some, Option.some.injEq] at h
    obtain ⟨⟨hu, hdrop⟩, rfl⟩ := h
    exact .release u hu hdrop

end Cases

/-! ## Reading a store after an update -/

section Reading

variable (s : Store Block) (p q u v : Nat) (pr : Proc Block) (x : Item) (w : TaskWrapper) (dpc : DispatchPc) (pc : DumpPc)
  (f : Item → Item) (at_ : Stage → Bool) (st : Stage)

@[simp] theorem setProc_buf : (s.setProc p pr).buf = s.buf := rfl
@[simp] theorem setProc_nItem : (s.setProc p pr).nItem = s.nItem := rfl
@[simp] theorem setProc_item : (s.setProc p pr).item = s.item := rfl
@[simp] theorem setProc_proc : (s.setProc p pr).proc q = if q = p then pr else s.proc q := Function.update_apply ..

@[simp] theorem setItem_buf : (s.setItem u x).buf = s.buf := rfl
@[simp] theorem setItem_nItem : (s.setItem u x).nItem = s.nItem := rfl
@[simp] theorem setItem_item : (s.setItem u x).item v = if v = u then x else s.item v := Function.update_apply ..
@[simp] theorem setItem_proc : (s.setItem u x).proc = s.proc := rfl

@[simp] theorem addItem_buf : (s.addItem x).buf = s.buf := rfl
@[simp] theorem addItem_nItem : (s.addItem x).nItem = s.nItem + 1 := rfl
@[simp] theorem addItem_item : (s.addItem x).item v = if v = s.nItem then x else s.item v := Function.update_apply ..
@[simp] theorem addItem_proc : (s.addItem x).proc = s.proc := rfl

@[simp] theorem each_buf : (s.each f).buf = s.buf := rfl
@[simp] theorem each_nItem : (s.each f).nItem = s.nItem := rfl
@[simp] theorem each_item : (s.each f).item v = f (s.item v) := rfl
@[simp] theorem each_proc : (s.each f).proc = s.proc := rfl

@[simp] theorem dropAt_buf : (s.dropAt p at_).buf = s.buf := rfl
@[simp] theorem dropAt_nItem : (s.dropAt p at_).nItem = s.nItem := rfl
@[simp] theorem dropAt_item : (s.dropAt p at_).item v =
    if (s.item v).proc = p ∧ at_ (s.item v).stage = true then (s.item v).drop else s.item v := rfl
@[simp] theorem dropAt_proc : (s.dropAt p at_).proc = s.proc := rfl

@[simp] theorem setStage_buf : (s.setStage u st).buf = s.buf := rfl
@[simp] theorem setStage_nItem : (s.setStage u st).nItem = s.nItem := rfl
@[simp] theorem setStage_item : (s.setStage u st).item v = if v = u then { s.item u with stage := st } else s.item v :=
  Function.update_apply ..
@[simp] theorem setStage_proc : (s.setStage u st).proc = s.proc := rfl

@[simp] theorem setWrapper_buf : (s.setWrapper p w).buf = s.buf := rfl
@[simp] theorem setWrapper_nItem : (s.setWrapper p w).nItem = s.nItem := rfl
@[simp] theorem setWrapper_item : (s.setWrapper p w).item = s.item := rfl
@[simp] theorem setWrapper_proc : (s.setWrapper p w).proc q = if q = p then { s.proc p with wrapper := w } else s.proc q :=
  Function.update_apply ..

@[simp] theorem setDispatcher_buf : (s.setDispatcher p dpc).buf = s.buf := rfl
@[simp] theorem setDispatcher_nItem : (s.setDispatcher p dpc).nItem = s.nItem := rfl
@[simp] theorem setDispatcher_item : (s.setDispatcher p dpc).item = s.item := rfl
@[simp] theorem setDispatcher_proc : (s.setDispatcher p dpc).proc q = if q = p then { s.proc p with dispatcher := dpc }
    else s.proc q :=
  Function.update_apply ..

@[simp] theorem setDumper_buf : (s.setDumper p pc).buf = s.buf := rfl
@[simp] theorem setDumper_nItem : (s.setDumper p pc).nItem = s.nItem := rfl
@[simp] theorem setDumper_item : (s.setDumper p pc).item = s.item := rfl
@[simp] theorem setDumper_proc : (s.setDumper p pc).proc q = if q = p then { s.proc p with dumper := pc } else s.proc q :=
  Function.update_apply ..

end Reading

/-! ## What no step changes -/

/-- The item is the same handle of the same shard. -/
structure Item.Same (x x' : Item) : Prop where
  proc : x'.proc = x.proc
  task : x'.task = x.task
  shard : x'.shard = x.shard
  pos : x'.pos = x.pos
  owner : x'.owner = x.owner
  isLoad : x'.isLoad = x.isLoad
  released : x'.handle = .released ↔ x.handle = .released

namespace Item

theorem Same.refl (x : Item) : Item.Same x x := ⟨rfl, rfl, rfl, rfl, rfl, rfl, .rfl⟩

theorem Same.trans {x y z : Item} (h : Item.Same x y) (h' : Item.Same y z) : Item.Same x z :=
  ⟨h'.proc.trans h.proc, h'.task.trans h.task, h'.shard.trans h.shard, h'.pos.trans h.pos, h'.owner.trans h.owner,
    h'.isLoad.trans h.isLoad, h'.released.trans h.released⟩

theorem Same.symm {x y : Item} (h : Item.Same x y) : Item.Same y x :=
  ⟨h.proc.symm, h.task.symm, h.shard.symm, h.pos.symm, h.owner.symm, h.isLoad.symm, h.released.symm⟩

theorem letGo_released (x : Item) : x.letGo.handle = .released ↔ x.handle = .released := by
  unfold letGo
  simp only
  split
  · next h => simp [h]
  · rfl

theorem Same.stage {x y : Item} (h : Item.Same x y) (stage : Stage) : Item.Same x { y with stage } :=
  ⟨h.proc, h.task, h.shard, h.pos, h.owner, h.isLoad, h.released⟩

theorem same_letGo (x : Item) : Item.Same x x.letGo := ⟨rfl, rfl, rfl, rfl, rfl, rfl, x.letGo_released⟩

theorem same_drop (x : Item) : Item.Same x x.drop := ⟨rfl, rfl, rfl, rfl, rfl, rfl, x.letGo_released⟩

end Item

theorem same_dropAt (s : Store Block) (p : Nat) (at_ : Stage → Bool) (u : Nat) :
    Item.Same (s.item u) ((s.dropAt p at_).item u) := by
  unfold Store.dropAt Store.each
  simp only
  split
  · exact Item.same_drop _
  · exact .refl _

/-- The items and the nodes' counts and keys are the same; a state only leaves LOADING. -/
structure Kept (s s' : Store Block) : Prop where
  nItem : s'.nItem = s.nItem
  items : ∀ u, Item.Same (s.item u) (s'.item u)
  reference : ∀ i, (s'.buf.metaAt i).reference = (s.buf.metaAt i).reference
  key : ∀ i, SameKey i s.buf s'.buf
  settled : ∀ i, s.buf.getState i ≠ .loading → s'.buf.getState i = s.buf.getState i
  cleared : ∀ i, s'.buf.getState i = .loading → s.buf.getState i = .loading

namespace Kept

variable {s s' s'' : Store Block} {p u : Nat}

theorem refl (s : Store Block) : Kept s s :=
  ⟨rfl, fun _ => .refl _, fun _ => rfl, fun _ => ⟨rfl, rfl⟩, fun _ _ => rfl, fun _ h => h⟩

theorem trans (h : Kept s s') (h' : Kept s' s'') : Kept s s'' := by
  refine ⟨h'.nItem.trans h.nItem, fun u => (h.items u).trans (h'.items u), fun i => (h'.reference i).trans (h.reference i),
    fun i => ⟨(h'.key i).1.trans (h.key i).1, (h'.key i).2.trans (h.key i).2⟩, fun i hi => ?_,
    fun i hi => h.cleared i (h'.cleared i hi)⟩
  have e := h.settled i hi
  rw [h'.settled i (by rwa [e]), e]

theorem proc (h : Kept s s') (pr : Proc Block) : Kept s (s'.setProc p pr) :=
  ⟨h.nItem, h.items, h.reference, h.key, h.settled, h.cleared⟩

theorem item (h : Kept s s') {x : Item} (hx : Item.Same (s'.item u) x) : Kept s (s'.setItem u x) := by
  refine ⟨h.nItem, fun v => (h.items v).trans ?_, h.reference, h.key, h.settled, h.cleared⟩
  unfold Store.setItem
  simp only [Function.update_apply]
  split
  · next e => rw [e]; exact hx
  · exact .refl _

theorem each (h : Kept s s') {f : Item → Item} (hf : ∀ x, Item.Same x (f x)) : Kept s (s'.each f) :=
  ⟨h.nItem, fun v => (h.items v).trans (hf _), h.reference, h.key, h.settled, h.cleared⟩

theorem dropAt (h : Kept s s') (at_ : Stage → Bool) : Kept s (s'.dropAt p at_) := by
  refine h.each fun x => ?_
  split
  · exact x.same_drop
  · exact .refl x

theorem stage (h : Kept s s') (stage : Stage) : Kept s (s'.setStage u stage) := h.item ⟨rfl, rfl, rfl, rfl, rfl, rfl, .rfl⟩

/-- A node is marked. -/
theorem mark (h : Kept s s') {i : Nat} {m : BufferMetaNode Block} (hst : s'.buf.getState i = .loading)
    (href : m.reference = (s'.buf.metaAt i).reference) (hblock : m.block = (s'.buf.metaAt i).block)
    (hshard : m.shard = (s'.buf.metaAt i).shard) : Kept s { s' with buf := s'.buf.setMeta i m } := by
  refine h.trans ⟨rfl, fun _ => .refl _, fun j => ?_, fun j => ?_, fun j hj => ?_, fun j hj => ?_⟩
  all_goals by_cases e : j = i
  · subst e; simpa [Buf.setMeta] using href
  · simp [Buf.setMeta, e]
  · subst e; simpa [SameKey, Buf.setMeta] using ⟨hblock, hshard⟩
  · simp [SameKey, Buf.setMeta, e]
  · subst e; exact absurd hst hj
  · simp [Buf.getState, Buf.setMeta, e]
  · subst e; exact hst
  · simpa [Buf.getState, Buf.setMeta, e] using hj

theorem markReady (h : Kept s s') (i : Nat) : Kept s { s' with buf := s'.buf.markReady i } := by
  unfold Buf.markReady
  split
  · next hst => exact h.mark hst rfl rfl rfl
  · exact h

theorem markFailed (h : Kept s s') (i : Nat) (status : StatusCode) : Kept s { s' with buf := s'.buf.markFailed i status } := by
  unfold Buf.markFailed
  split
  · next hst => exact h.mark hst rfl rfl rfl
  · exact h

end Kept

theorem markReady_state (b : Buf Block) (i : Nat) : (b.markReady i).getState i ≠ .loading := by
  unfold Buf.markReady Buf.getState
  split
  · simp [Buf.setMeta]
  · next h => exact h

theorem markFailed_state (b : Buf Block) (i : Nat) (status : StatusCode) : (b.markFailed i status).getState i ≠ .loading := by
  unfold Buf.markFailed Buf.getState
  split
  · simp [Buf.setMeta]
  · next h => exact h

/-- A step keeps all items and nodes, gets a new handle, or releases one. -/
inductive StoreKept (s s' : Store Block) : Prop
  | kept (h : Kept s s')
  | get (p t j i : Nat) (owner isLoad : Bool) (c : GetArgs Block) (spec : GetSpec s.buf s'.buf c i owner)
      (nItem : s'.nItem = s.nItem + 1) (item : s'.item = Function.update s.item s.nItem (.start p t j i owner isLoad))
  | release (u : Nat) (lt : u < s.nItem) (dropping : (s.item u).handle = .dropping) (eq : s' = s.release u)

/-- An item stays the handle of its shard. -/
structure Item.Fixed (x x' : Item) : Prop where
  proc : x'.proc = x.proc
  task : x'.task = x.task
  shard : x'.shard = x.shard
  pos : x'.pos = x.pos
  owner : x'.owner = x.owner
  isLoad : x'.isLoad = x.isLoad

section Kept

variable {C : Config Block} {s s' : Store Block} {p u : Nat}

theorem StoreKept.fixed (h : StoreKept s s') (hu : u < s.nItem) : Item.Fixed (s.item u) (s'.item u) := by
  cases h with
  | kept h =>
    have hs := h.items u
    exact ⟨hs.proc, hs.task, hs.shard, hs.pos, hs.owner, hs.isLoad⟩
  | get p t j i owner isLoad c spec nItem item =>
    rw [item, Function.update_of_ne (Nat.ne_of_lt hu)]
    exact ⟨rfl, rfl, rfl, rfl, rfl, rfl⟩
  | release v lt dropping eq =>
    subst eq
    simp only [Store.release, setItem_item]
    split
    · next e => subst e; exact ⟨rfl, rfl, rfl, rfl, rfl, rfl⟩
    · exact ⟨rfl, rfl, rfl, rfl, rfl, rfl⟩

theorem StoreKept.nItem_le (h : StoreKept s s') : s.nItem ≤ s'.nItem := by
  cases h with
  | kept h => exact Nat.le_of_eq h.nItem.symm
  | get p t j i owner isLoad c spec nItem item => omega
  | release v lt dropping eq => exact Nat.le_of_eq (eq ▸ rfl)

theorem DispatchCase.kept {l : DispatchLabel} (h : DispatchCase C s p l s') : StoreKept s s' := by
  cases h with
  | start t rest pc first => exact .kept ((Kept.refl s).proc _)
  | get t j blockId shardIdx i b owner pc shard spec => exact .get p t j i owner true _ spec rfl rfl
  | enqueue t j u ok backend pc submitted =>
    refine .kept ?_
    unfold Store.enqueue
    simp only
    split
    all_goals
      refine Kept.proc (Kept.item (.refl s) ?_) _
      exact ⟨rfl, rfl, rfl, rfl, rfl, rfl, .rfl⟩
  | refuse t j u pc owner unready => exact .kept (((Kept.refl s).markFailed _ _).proc _)
  | finish t pc => exact .kept ((Kept.refl s).proc _)
  | pushed t pc none => exact .kept ((Kept.refl s).proc _)
  | push t u pc collected first =>
    refine .kept (Kept.proc (Kept.item (.refl s) ?_) _)
    exact ⟨rfl, rfl, rfl, rfl, rfl, rfl, .rfl⟩
  | fail t pc => exact .kept (((Kept.refl s).proc _).proc _)
  | done t pc => exact .kept ((((Kept.refl s).proc _).proc _).dropAt _)

theorem TransferCase.kept {l : TransferLabel} (h : TransferCase C s u l s') : Kept s s' := by
  have hs := Kept.refl s
  cases h with
  | skip stage next failed waiter => exact hs.item (Item.same_drop _)
  | skipLast stage next failed waiter => exact (hs.dropAt _).stage _
  | take stage next fine => exact hs.stage _
  | wait ok stage ended =>
    unfold Store.waitBackend
    split
    · exact (hs.markReady _).stage _
    · exact (hs.markFailed _ _).stage _
  | look stage backend => exact hs.stage _
  | check stage => exact hs.stage _
  | hold stage mode => exact hs.stage _
  | copy ok part stage mode => exact hs.item ⟨rfl, rfl, rfl, rfl, rfl, rfl, .rfl⟩
  | flush ok part stage =>
    have hcopy : ∀ x : Item, Item.Same x (if x.proc = (s.item u).proc ∧ (x.stage = .holder ∨ x.stage = .flushing) then
        { x with copying := ok || part } else x) := by
      intro x
      split
      · exact ⟨rfl, rfl, rfl, rfl, rfl, rfl, .rfl⟩
      · exact .refl x
    unfold Store.flushHolder
    simp only
    split
    · exact (hs.each hcopy).stage _
    · refine Kept.item ((hs.each hcopy).dropAt _) ?_
      exact (same_dropAt _ _ _ u).symm.trans ((Item.same_letGo _).stage _)
  | sync ok stage =>
    have hclear : ∀ x : Item, Item.Same x (if x.proc = (s.item u).proc ∧ x.isLoad then { x with copying := false } else x) := by
      intro x
      split
      · exact ⟨rfl, rfl, rfl, rfl, rfl, rfl, .rfl⟩
      · exact .refl x
    unfold Store.syncStream
    simp only
    split <;> refine Kept.item (Kept.dropAt ?_ _) ((same_dropAt _ _ _ u).symm.trans ?_)
    · exact hs.each hclear
    · split
      · exact (Item.same_letGo _).stage _
      · exact (Item.Same.refl _).stage _
    · exact hs
    · split
      · exact (Item.same_letGo _).stage _
      · exact (Item.Same.refl _).stage _
  | fail stage =>
    unfold Store.failTask
    simp only
    split
    · exact ((hs.dropAt _).proc _).stage _
    · exact (hs.proc _).stage _
  | done stage =>
    unfold Store.countDown
    simp only
    split
    · exact (hs.proc _).item (Item.same_drop _)
    · exact hs.item (Item.same_drop _)

theorem DumpCase.kept {l : DumpLabel} (h : DumpCase C s p l s') : StoreKept s s' := by
  have hs := Kept.refl s
  cases h with
  | start ok t rest pc first => exact .kept (hs.proc _)
  | get t j blockId shardIdx i b owner pc shard spec => exact .get p t j i owner false _ spec rfl rfl
  | skip t j u ok part pc shared => exact .kept ((hs.item (Item.same_drop _)).proc _)
  | found t j u ok part pc owner ready =>
    refine .kept (Kept.proc (Kept.item hs ?_) _)
    exact ⟨rfl, rfl, rfl, rfl, rfl, rfl, .rfl⟩
  | copy t j u part pc owner unready =>
    refine .kept (Kept.proc (Kept.item hs ?_) _)
    exact ⟨rfl, rfl, rfl, rfl, rfl, rfl, .rfl⟩
  | refuse t j u part pc owner unready =>
    refine .kept (Kept.proc (Kept.dropAt (Kept.item hs ?_) _) _)
    exact ⟨rfl, rfl, rfl, rfl, rfl, rfl, .rfl⟩
  | finish t pc => exact .kept (hs.proc _)
  | sync t ok pc =>
    refine .kept ?_
    unfold Store.syncDump
    split
    · refine Kept.proc (Kept.each hs fun x => ?_) _
      split
      · exact ⟨rfl, rfl, rfl, rfl, rfl, rfl, .rfl⟩
      · exact .refl x
    · exact (hs.dropAt _).proc _
  | mark t u pc synced => exact .kept (hs.markReady _)
  | submit t ok pc marked =>
    refine .kept ?_
    unfold Store.submitDump
    split
    · refine Kept.proc (Kept.each hs fun x => ?_) _
      split
      · exact ⟨rfl, rfl, rfl, rfl, rfl, rfl, .rfl⟩
      · exact .refl x
    · exact (hs.dropAt _).proc _
  | fail t pc => exact .kept ((hs.proc _).proc _)
  | done t pc => exact .kept ((hs.proc _).proc _)
  | waited t rest ok first ended =>
    refine .kept (Kept.proc (Kept.each hs fun x => ?_) _)
    split
    · exact Item.same_drop x
    · exact .refl x

theorem StoreCase.kept {l : StoreLabel Block} (h : StoreCase C s l s') : StoreKept s s' := by
  have hs := Kept.refl s
  cases h with
  | submit p isLoad desc full => exact .kept (hs.proc _)
  | wait p l w step => exact .kept (hs.proc _)
  | dispatch p l _ step => exact step.kept
  | transfer u l _ lt step => exact .kept step.kept
  | dump p l _ step => exact step.kept
  | loadOver u lt isLoad running =>
    refine .kept (Kept.item hs ?_)
    exact ⟨rfl, rfl, rfl, rfl, rfl, rfl, .rfl⟩
  | dumpOver p t =>
    refine .kept (Kept.each hs fun x => ?_)
    split
    · exact ⟨rfl, rfl, rfl, rfl, rfl, rfl, .rfl⟩
    · exact .refl x
  | release u lt dropping => exact .release u lt dropping rfl

end Kept

/-! ## Counting the handles -/

/-- A node's count is the number of its handles that are not released. -/
def RefInv (s : Store Block) : Prop :=
  ∀ i, (s.buf.metaAt i).reference = Nat.count (fun u => (s.item u).handle ≠ .released ∧ (s.item u).pos = i) s.nItem

theorem StoreKept.refInv {s s' : Store Block} (h : StoreKept s s') (hr : RefInv s) : RefInv s' := by
  intro i
  cases h with
  | kept h =>
    rw [h.reference, hr i, h.nItem]
    exact tally_congr fun u _ => by rw [(h.items u).pos, ne_eq, ne_eq, (h.items u).released]
  | get p t j k owner isLoad c spec nItem item =>
    have hold : ∀ u, u < s.nItem → s'.item u = s.item u := fun u hu => by
      rw [item, Function.update_of_ne (by omega)]
    have hnew : s'.item s.nItem = .start p t j k owner isLoad := by rw [item, Function.update_self]
    by_cases e : k = i
    · subst e
      rw [spec.reference, hr k, nItem]
      refine (tally_add (fun u hu => by rw [hold u hu]) fun u h1 h2 => ?_).symm
      obtain rfl : u = s.nItem := by omega
      rw [hnew]
      exact ⟨nofun, rfl⟩
    · rw [(spec.others i (Ne.symm e)).reference, hr i, nItem]
      refine (tally_skip (fun u hu => by rw [hold u hu]) fun u h1 h2 hc => ?_).symm
      obtain rfl : u = s.nItem := by omega
      rw [hnew] at hc
      exact e hc.2
  | release u lt dropping eq =>
    subst eq
    have hother : ∀ v, v ≠ u → (s.release u).item v = s.item v := fun v hv => Function.update_of_ne hv _ _
    have hself : (s.release u).item u = { s.item u with handle := .released } := Function.update_self ..
    have hn : (s.release u).nItem = s.nItem := rfl
    by_cases e : (s.item u).pos = i
    · subst e
      have href : ((s.release u).buf.metaAt (s.item u).pos).reference = (s.buf.metaAt (s.item u).pos).reference - 1 := by
        simp [Store.release, Store.setItem, Buf.release, Buf.setMeta]
      rw [href, hr, hn, tally_drop (q := fun v => ((s.release u).item v).handle ≠ .released ∧
        ((s.release u).item v).pos = (s.item u).pos) lt ⟨by rw [dropping]; decide, rfl⟩ (by rw [hself]; exact fun hc => hc.1 rfl)
        fun v _ hne => by rw [hother v hne], Nat.add_sub_cancel]
    · have href : ((s.release u).buf.metaAt i).reference = (s.buf.metaAt i).reference := by
        simp [Store.release, Store.setItem, Buf.release, Buf.setMeta, Ne.symm e]
      rw [href, hr, hn]
      refine tally_congr fun v _ => ?_
      by_cases ev : v = u
      · subst ev
        rw [hself]
        exact ⟨fun hc => absurd hc.2 e, fun hc => absurd hc.2 e⟩
      · rw [hother v ev]

/-- A node with an unreleased handle is in use, and the other way round. -/
theorem RefInv.pos_iff {s : Store Block} (h : RefInv s) (i : Nat) :
    0 < (s.buf.metaAt i).reference ↔ ∃ u, u < s.nItem ∧ (s.item u).handle ≠ .released ∧ (s.item u).pos = i := by
  refine ⟨fun hpos => ?_, fun ⟨u, hu, hx⟩ => ?_⟩
  · by_contra hno
    simp only [not_exists, not_and] at hno
    have hz : Nat.count (fun u => (s.item u).handle ≠ .released ∧ (s.item u).pos = i) s.nItem = 0 :=
      Nat.count_iff_forall_not.mpr fun u hu hx => hno u hu hx.1 hx.2
    rw [h i, hz] at hpos
    exact absurd hpos (by decide)
  · rw [h i]
    exact tally_pos hu hx

/-- A node in use keeps its key, and its state once it has left LOADING. -/
theorem StoreKept.live {s s' : Store Block} {u : Nat} (h : StoreKept s s') (hr : RefInv s) (hu : u < s.nItem)
    (hh : (s.item u).handle ≠ .released) :
    (s.buf.getState (s.item u).pos ≠ .loading → s'.buf.getState (s.item u).pos = s.buf.getState (s.item u).pos) ∧
      (s'.buf.getState (s.item u).pos = .loading → s.buf.getState (s.item u).pos = .loading) ∧
      SameKey (s.item u).pos s.buf s'.buf := by
  cases h with
  | kept h => exact ⟨h.settled _, h.cleared _, h.key _⟩
  | get p t j i owner isLoad c spec nItem item =>
    by_cases e : (s.item u).pos = i
    · have hpos : 0 < (s.buf.metaAt i).reference := (hr.pos_iff i).mpr ⟨u, hu, hh, e⟩
      obtain ⟨hst, hkey⟩ := spec.shared hpos
      rw [e]
      exact ⟨fun _ => hst, fun h => hst ▸ h, hkey⟩
    · have hsame := spec.others _ e
      have hst : s'.buf.getState (s.item u).pos = s.buf.getState (s.item u).pos := hsame.state
      exact ⟨fun _ => hst, fun h => hst ▸ h, hsame.block, hsame.shard⟩
  | release v lt dropping eq =>
    subst eq
    have : ∀ i, ((s.release v).buf.getState i) = s.buf.getState i ∧ SameKey i s.buf (s.release v).buf := by
      intro i
      by_cases e : i = (s.item v).pos <;> simp [Store.release, Buf.release, Buf.getState, SameKey, Buf.setMeta, e]
    exact ⟨fun _ => (this _).1, fun h => (this _).1 ▸ h, (this _).2⟩

/-- A handle that has been released stays released. -/
theorem StoreKept.released {s s' : Store Block} {v : Nat} (h : StoreKept s s') (hv : v < s.nItem)
    (hh : (s.item v).handle = .released) :
    (s'.item v).handle = .released := by
  cases h with
  | kept h => exact (h.items v).released.mpr hh
  | get p t j i owner isLoad c spec nItem item =>
    rw [item, Function.update_of_ne (Nat.ne_of_lt hv)]
    exact hh
  | release u lt dropping eq =>
    subst eq
    simp only [Store.release, setItem_item]
    split
    · rfl
    · exact hh

end UnifiedCache.Cache
