/-
  UnifiedCache.Cache.WaitProgress — while transfer threads wait for marks, something goes on.

  The thread that is blocked with the oldest item waits behind nobody (`exists_oldest`). Where
  its node has an owner on duty, the owner's process can take a step that is not a look at a node
  in LOADING, by the thread that has the owner or by the backend it waits for (`owner_goes`), if
  only a `Get` finds a node.

  An owner on duty there is in the runs that mark before they drop (`NoOrphan`), and in these some
  thread goes on (`no_wait_cycle`). A thread that waits for a dropped owner stays blocked, whatever
  the others do, until its own task fails (`Orphaned.step`, `blocked_for_good`).
-/

import UnifiedCache.Cache.WaitOrder
import UnifiedCache.Cache.Orphans
import UnifiedCache.Cache.Dumps

namespace UnifiedCache.Cache

open UnifiedCache.Base UnifiedCache.Detail

variable {Block : Type}

/-- A step of a thread of process `p`, or of the backend that its transfer thread waits for, other
    than a look at a node in LOADING and a second mark. -/
def Store.GoesOn (s : Store Block) (p : Nat) : StoreLabel Block → Prop
  | .dispatch q _ => q = p
  | .transfer w _ => (s.item w).proc = p ∧ ¬ Blocked s w
  | .dump q dl => q = p ∧ ∀ u, dl = .mark u → s.buf.getState (s.item u).pos = .loading
  | .loadOver w => (s.item w).proc = p ∧ (s.item w).stage.transferring = true
  | _ => False

/-- Each `Get` finds a node. -/
def NodeFree [DecidableEq Block] (C : Config Block) (s : Store Block) : Prop :=
  ∀ c, ∃ i b owner, s.buf.get C.toParams c i = some (b, owner)

def DispatchPc.within (n : Nat) : DispatchPc → Prop
  | .loop _ j => j ≤ n
  | .got _ j _ => j < n
  | _ => True

/-- The dispatcher's loop is within its task. -/
def LoopInv (s : Store Block) : Prop :=
  ∀ p t, (s.proc p).dispatcher.task = some t → (s.proc p).dispatcher.within ((s.proc p).task t).desc.length

/-! ## Whoever has the owner can go on -/

section Goes

variable {C : Config Block} {s s' : Store Block} {l : StoreLabel Block} {p t u v : Nat}

theorem DispatchCase.within {dl : DispatchLabel} (hi : ∀ t, (s.proc p).dispatcher.task = some t →
      (s.proc p).dispatcher.within ((s.proc p).task t).desc.length)
    (h : DispatchCase C s p dl s') (ht : (s'.proc p).dispatcher.task = some t) :
    (s'.proc p).dispatcher.within ((s.proc p).task t).desc.length := by
  cases h with
  | start t' rest pc first =>
    simp only [setProc_proc, if_true]
    split
    · trivial
    · exact Nat.zero_le _
  | get t' j blockId shardIdx i b owner pc shard spec =>
    obtain rfl : t' = t := by simpa using ht
    simpa [DispatchPc.within] using (List.getElem?_eq_some_iff.mp shard).1
  | enqueue t' j u ok backend pc submitted =>
    have hj : j + 1 ≤ ((s.proc p).task t').desc.length := by
      have := hi t' (by rw [pc]; rfl)
      rw [pc] at this
      exact this
    unfold Store.enqueue at ht ⊢
    simp only at ht ⊢
    split at ht <;> (obtain rfl : t' = t := by simpa using ht) <;> simp [*, DispatchPc.within]
  | finish t' pc =>
    simp only [setDispatcher_proc, if_true]
    split <;> trivial
  | push t' u pc collected first => simp [Store.pushItem, pc, DispatchPc.within]
  | _ => simp [DispatchPc.within]

theorem StoreCase.loopInv (hty : Typed s) (hi : LoopInv s) (h : StoreCase C s l s') : LoopInv s' := by
  intro p t ht
  by_cases hd : ∃ dl, l = .dispatch p dl
  · obtain ⟨dl, rfl⟩ := hd
    cases h with
    | dispatch _ _ _ step =>
      rw [step.proc_eq]
      exact step.within (hi p) ht
  · rw [h.dispatcher_eq fun dl e => hd ⟨dl, e⟩] at ht ⊢
    rw [h.task_eq (hty.dispatcher p t ht).1]
    exact hi p t ht

/-- Of the collected items one is pushed first. -/
theorem exists_pushed_first (h : ∃ u, u < s.nItem ∧ s.At p .collected u) :
    ∃ u, s.At p .collected u ∧ ∀ v, v < s.nItem → s.At p .collected v → s.pushedBefore u v := by
  classical
  -- the oldest that was READY, else the oldest
  by_cases hready : ∃ u, s.At p .collected u ∧ (s.item u).ready = true
  · obtain ⟨hat, hr⟩ := Nat.find_spec hready
    refine ⟨Nat.find hready, hat, fun v _ hv => ?_⟩
    cases hrv : (s.item v).ready with
    | true => exact .inr ⟨hr.trans hrv.symm, Nat.find_min' hready ⟨hv, hrv⟩⟩
    | false => exact .inl ⟨hr, hrv⟩
  · have hno : ∀ v, s.At p .collected v → (s.item v).ready = false := by
      intro v hv
      by_contra hrv
      exact hready ⟨v, hv, by simpa using hrv⟩
    have hex : ∃ u, s.At p .collected u := h.imp fun _ h => h.2
    refine ⟨Nat.find hex, Nat.find_spec hex, fun v _ hv => .inr ⟨?_, Nat.find_min' hex hv⟩⟩
    rw [hno _ (Nat.find_spec hex), hno v hv]

/-- `running_` has a first item, if it has one. -/
theorem exists_queued_first (h : s.At p .queued u) :
    ∃ w, s.At p .queued w ∧ ∀ v, s.At p .queued v → (s.item w).ticket ≤ (s.item v).ticket := by
  classical
  have hex : ∃ n w, s.At p .queued w ∧ (s.item w).ticket = n := ⟨_, u, h, rfl⟩
  obtain ⟨w, hw, hn⟩ := Nat.find_spec hex
  exact ⟨w, hw, fun v hv => hn ▸ Nat.find_min' hex ⟨v, hv, rfl⟩⟩

end Goes

section Progress

variable [DecidableEq Block] {C : Config Block} {ok : Store Block → StoreLabel Block → Prop} {s : Store Block} {p t u v w : Nat}

theorem reach_loopInv (h : Reach (cacheStore C) ok s) : LoopInv s := by
  refine Reach.inv_with (I := LoopInv) (fun _ => reach_typed) (fun s hi p t ht => ?_)
    (fun _ _ _ hty hI _ hst => (storeStep_case hst).loopInv hty hI) h
  rw [hi.dispatcher] at ht
  cases ht

/-- A load dispatcher that has a task can go on. -/
theorem dispatcher_goes (hr : Reach (cacheStore C) ok s) (hfree : NodeFree C s) (ht : (s.proc p).dispatcher.task = some t) :
    ∃ l s', s.GoesOn p l ∧ storeStep C s l = some s' := by
  have hstep : ∀ dl s', dispatchStep C s p dl = some s' → ∃ l s', s.GoesOn p l ∧ storeStep C s l = some s' := by
    intro dl s' h
    exact ⟨.dispatch p dl, s', rfl, h⟩
  have hin := reach_loopInv hr p t ht
  cases hpc : (s.proc p).dispatcher with
  | idle =>
    rw [hpc] at ht
    cases ht
  | loop t' j =>
    rw [hpc] at ht hin
    obtain rfl := Option.some.inj ht
    by_cases hj : j = ((s.proc p).task t').desc.length
    · exact hstep .finish _ (by simp only [dispatchStep, hpc]; exact if_pos hj)
    · have hlt : j < ((s.proc p).task t').desc.length := Nat.lt_of_le_of_ne hin hj
      obtain ⟨i, b, owner, hget⟩ := hfree ⟨((s.proc p).task t').desc[j].1, ((s.proc p).task t').desc[j].2, true, true⟩
      apply hstep (.get i)
      simp only [dispatchStep, hpc, List.getElem?_eq_getElem hlt, hget]
      rfl
  | got t' j w => exact hstep (.submit true) (s.submitLoad C p t' j w true) (by simp only [dispatchStep, hpc])
  | failing t' => exact hstep .fail _ (by simp only [dispatchStep, hpc]; rfl)
  | done t' => exact hstep .done _ (by simp only [dispatchStep, hpc]; rfl)
  | pushing t' =>
    by_cases hsome : ∃ u, u < s.nItem ∧ s.At p .collected u
    · obtain ⟨w, hw, hfirst⟩ := exists_pushed_first hsome
      exact hstep (.push w) (s.pushItem p w) (by simp only [dispatchStep, hpc]; exact if_pos ⟨hw, hfirst⟩)
    · have hnone : ∀ v, v < s.nItem → ¬ s.At p .collected v := fun v hv hat => hsome ⟨v, hv, hat⟩
      exact hstep .finish (s.setDispatcher p .idle) (by simp only [dispatchStep, hpc]; exact if_pos hnone)

/-- So can a dump dispatcher. -/
theorem dumper_goes (hr : Reach (cacheStore C) ok s) (hfree : NodeFree C s) (ht : (s.proc p).dumper.task = some t) :
    ∃ l s', s.GoesOn p l ∧ storeStep C s l = some s' := by
  have hstep : ∀ dl s', (∀ u, dl = .mark u → s.buf.getState (s.item u).pos = .loading) → dumpStep C s p dl = some s' →
      ∃ l s', s.GoesOn p l ∧ storeStep C s l = some s' := by
    intro dl s' hm h
    exact ⟨.dump p dl, s', ⟨rfl, hm⟩, h⟩
  cases hpc : (s.proc p).dumper with
  | idle =>
    rw [hpc] at ht
    cases ht
  | loop t' j =>
    have hle := ((reach_progress hr).loop p t' j hpc).1
    by_cases hj : j = ((s.proc p).task t').desc.length
    · exact hstep .finish _ (by simp) (by simp only [dumpStep, hpc]; exact if_pos hj)
    · have hlt : j < ((s.proc p).task t').desc.length := Nat.lt_of_le_of_ne hle hj
      obtain ⟨i, b, owner, hget⟩ := hfree ⟨((s.proc p).task t').desc[j].1, ((s.proc p).task t').desc[j].2, false, false⟩
      apply hstep (.get i) _ (by simp)
      simp only [dumpStep, hpc, List.getElem?_eq_getElem hlt, hget]
      rfl
  | got t' j w => exact hstep (.take true true) (s.takeDump p t' j w true true) (by simp) (by simp only [dumpStep, hpc])
  | sync t' => exact hstep (.sync true) (s.syncDump p t' true) (by simp) (by simp only [dumpStep, hpc])
  | mark t' =>
    by_cases hall : ∀ u, u < s.nItem → s.At p .synced u → s.buf.getState (s.item u).pos ≠ .loading
    · exact hstep (.submit true) (s.submitDump p t' true) (by simp) (by simp only [dumpStep, hpc]; exact if_pos hall)
    · simp only [not_forall, not_not] at hall
      obtain ⟨w, -, hat, hload⟩ := hall
      refine hstep (.mark w) { s with buf := s.buf.markReady (s.item w).pos } (fun v e => ?_)
        (by simp only [dumpStep, hpc]; exact if_pos hat)
      obtain rfl := DumpLabel.mark.inj e
      exact hload
  | failed t' => exact hstep .fail _ (by simp) (by simp only [dumpStep, hpc]; rfl)
  | done t' => exact hstep .done _ (by simp) (by simp only [dumpStep, hpc]; rfl)

/-- A transfer thread that has an item and is not blocked can go on, or its backend can. -/
theorem transfer_goes (hr : Reach (cacheStore C) ok s) (hw : w < s.nItem) (htr : (s.item w).stage.transferring = true)
    (hb : ¬ Blocked s w) :
    ∃ l s', s.GoesOn (s.item w).proc l ∧ storeStep C s l = some s' := by
  have hstep : ∀ tl s', transferStep C s w tl = some s' → ∃ l s', s.GoesOn (s.item w).proc l ∧ storeStep C s l = some s' := by
    intro tl s' h
    exact ⟨.transfer w tl, s', ⟨rfl, hb⟩, h⟩
  cases hst : (s.item w).stage with
  | waiting =>
    cases hop : (s.item w).backend with
    | ended => exact hstep (.wait true) (s.waitBackend w true) (by simp [transferStep, hw, hst, hop])
    | running =>
      have hload := (reach_linked hr).isLoad w hw (by rw [hst]; rfl)
      exact ⟨.loadOver w, s.setItem w { s.item w with backend := .ended }, ⟨rfl, htr⟩, by simp [storeStep, hw, hload, hop]⟩
    | none => exact hstep .look (s.lookState w) (by simp [transferStep, hw, hst, hop])
  | spinning => exact hstep .check _ (by simp only [transferStep, hw, hst]; rfl)
  | ready =>
    cases hm : C.taskLaunch (s.item w).proc with
    | true => exact hstep .hold _ (by simp only [transferStep, hw, hst, hm]; rfl)
    | false => exact hstep (.copy true true) (s.copyShard w true true) (by simp [transferStep, hw, hst, hm])
  | flushing => exact hstep (.flush true true) (s.flushHolder w true true) (by simp [transferStep, hw, hst])
  | syncing => exact hstep (.sync true) (s.syncStream C w true) (by simp [transferStep, hw, hst])
  | failing => exact hstep .fail (s.failTask C w) (by simp [transferStep, hw, hst])
  | counting => exact hstep .done (s.countDown w) (by simp [transferStep, hw, hst])
  | _ =>
    rw [hst] at htr
    cases htr

/-- A transfer thread whose queue has items and that is not blocked can go on. -/
theorem queue_goes (hr : Reach (cacheStore C) ok s) (hu : s.At p .queued u) (hb : ∀ w, Blocked s w → (s.item w).proc ≠ p) :
    ∃ l s', s.GoesOn p l ∧ storeStep C s l = some s' := by
  by_cases hbusy : ∃ w, w < s.nItem ∧ (s.item w).proc = p ∧ (s.item w).stage.transferring = true
  · obtain ⟨w, hw, rfl, htr⟩ := hbusy
    exact transfer_goes hr hw htr fun h => hb w h rfl
  · obtain ⟨w, hw, hfirst⟩ := exists_queued_first hu
    have hproc := hw.2.1
    have hnext : s.Next w := by
      unfold Store.Next
      rw [hproc]
      refine ⟨hw, fun v _ => hfirst v, fun v hv hp => ?_⟩
      by_contra htr
      exact hbusy ⟨v, hv, hp, by simpa using htr⟩
    refine ⟨.transfer w .take, s.take w, ⟨hproc, fun h => hb w h hproc⟩, ?_⟩
    simp only [storeStep, transferStep]
    rw [if_pos hw.1, hw.2.2]
    exact if_pos hnext

/-- Whoever has an owner on duty can go on, unless its transfer thread is blocked with an item
    that was queued before it. -/
theorem owner_goes (hr : Reach (cacheStore C) ok s) (hfree : NodeFree C s) (hu : u < s.nItem) (hd : (s.item u).Duty)
    (hload : s.buf.getState (s.item u).pos = .loading) (hb : (s.item u).stage = .queued → ∀ w, Blocked s w →
      (s.item w).proc ≠ (s.item u).proc) :
    ∃ l s', s.GoesOn (s.item u).proc l ∧ storeStep C s l = some s' := by
  rcases hd.stage with (hst | hst | hst | hst) | ⟨hst | hst | hst, hop⟩
  · have hpc := (reach_refusedMarked hr u hu hst).resolve_right fun h => h hload
    exact dispatcher_goes hr hfree (by rw [hpc]; rfl)
  · exact dumper_goes hr hfree (by rw [(reach_linked hr).dumpGotOnly u hu hst]; rfl)
  · have hpc := (reach_dumpPhase hr).copied u hu hst
    refine dumper_goes (t := (s.item u).task) hr hfree ?_
    cases h : (s.proc (s.item u).proc).dumper <;> rw [h] at hpc <;> first | exact hpc.elim | exact congrArg some hpc
  · exact dumper_goes hr hfree (by rw [(reach_dumpPhase hr).synced u hu hst]; rfl)
  · exact dispatcher_goes hr hfree ((reach_line hr).collected u hu hst).2
  · exact queue_goes hr ⟨hu, rfl, hst⟩ (hb hst)
  · exact transfer_goes hr hu (by rw [hst]; rfl) fun h => hop h.backend

end Progress

/-! ## Waiting for nobody -/

/-- The transfer thread that has item `v` waits for a mark, and its node has no live owner. -/
structure Orphaned (s : Store Block) (v : Nat) : Prop where
  blocked : Blocked s v
  noOwner : ∀ u, u < s.nItem → (s.item u).pos = (s.item v).pos → (s.item u).handle ≠ .released → (s.item u).owner = false

section Orphaned

variable {C : Config Block} {s s' : Store Block} {b : Buf Block} {l : StoreLabel Block} {u v : Nat} {x : Item}

/-- Only an owner marks a node in use. -/
theorem StoreCase.unmarked (hl : Linked s) (hr : RefInv s) (hk : Keeps s) (ho : OwnersOnly s) (hv : v < s.nItem)
    (hn : Orphaned s v) (hh : (s.item v).handle ≠ .released) (h : StoreCase C s l s') : s'.buf.getState (s.item v).pos =
    .loading := by
  have hload := hn.blocked.loading
  -- a node with a live owner is another
  have hother : ∀ u, u < s.nItem → (s.item u).stage.past = false → (s.item u).owner = true → (s.item u).pos ≠ (s.item v).pos := by
    intro u hu hst howner hpos
    have := hn.noOwner u hu hpos (by rw [hk u hu hst]; decide)
    rw [howner] at this
    cases this
  have hpos : 0 < (s.buf.metaAt (s.item v).pos).reference := (hr.pos_iff _).mpr ⟨v, hv, hh, rfl⟩
  have hget : ∀ {b : Buf Block} {c i owner}, GetSpec s.buf b c i owner → b.getState (s.item v).pos = .loading := by
    intro b c i owner spec
    by_cases e : (s.item v).pos = i
    · subst e
      exact (spec.shared hpos).1.trans hload
    · exact (spec.others _ e).state.trans hload
  have hready : ∀ i, i ≠ (s.item v).pos → (s.buf.markReady i).getState (s.item v).pos = .loading := by
    intro i hi
    unfold Buf.markReady
    split
    · simpa [Buf.getState, hi.symm] using hload
    · exact hload
  have hfailed : ∀ i, i ≠ (s.item v).pos → (s.buf.markFailed i statusError).getState (s.item v).pos = .loading := by
    intro i hi
    unfold Buf.markFailed
    split
    · simpa [Buf.getState, hi.symm] using hload
    · exact hload
  cases h with
  | dispatch p dl _ step =>
    cases step with
    | get t j blockId shardIdx i b owner pc shard spec => exact hget spec
    | enqueue t j u ok backend pc submitted =>
      unfold Store.enqueue
      simp only
      split <;> exact hload
    | refuse t j u pc owner unready =>
      obtain ⟨hu, -, -, -, hst⟩ := hl.got p t j u pc
      exact hfailed _ (hother u hu (by rw [hst]; rfl) owner)
    | _ => exact hload
  | transfer u tl _ lt step =>
    cases step with
    | wait ok stage ended =>
      have hne := hother u lt (by rw [stage]; rfl) (ho u lt (.inr (Op.asked ended)))
      unfold Store.waitBackend
      cases ok
      · exact hfailed _ hne
      · exact hready _ hne
    | flush ok part stage => cases ok <;> exact hload
    | sync ok stage => cases ok <;> exact hload
    | fail stage =>
      unfold Store.failTask
      simp only
      split <;> exact hload
    | done stage =>
      unfold Store.countDown
      simp only
      split <;> exact hload
    | _ => exact hload
  | dump p dl _ step =>
    cases step with
    | get t j blockId shardIdx i b owner pc shard spec => exact hget spec
    | sync t ok pc => cases ok <;> exact hload
    | submit t ok pc marked => cases ok <;> exact hload
    | mark t u pc synced =>
      obtain ⟨hu, -, hst⟩ := synced
      exact hready _ (hother u hu (by rw [hst]; rfl) (ho u hu (.inl (.inr (.inl hst)))))
    | _ => exact hload
  | release u lt dropping =>
    by_cases e : (s.item v).pos = (s.item u).pos
    · simpa [Store.release, Buf.release, Buf.getState, e] using hload
    · simpa [Store.release, Buf.release, Buf.getState, e] using hload
  | _ => exact hload

/-- A blocked item stays in its loop while the node is in LOADING and its task has not failed. -/
theorem Move.blocked (hst : (s.item v).stage = .waiting ∨ (s.item v).stage = .spinning) (hop : (s.item v).backend = .none)
    (hload : s.buf.getState (s.item v).pos = .loading) (hfine : s.failed v = false) (h : Move C s b v l x) :
    (x.stage = .waiting ∨ x.stage = .spinning) ∧ x.backend = .none := by
  cases h with
  | look stage' stage backend outcome =>
    rw [hload] at outcome
    obtain ⟨h, -⟩ | ⟨h, -⟩ | ⟨-, rfl⟩ := outcome
    · cases h
    · cases h
    · exact ⟨.inr rfl, hop⟩
  | check stage => exact ⟨by simp [hfine], hop⟩
  | waited ok stage ended settled => exact absurd hop (Op.asked ended)
  | loadOver isLoad running =>
    rw [hop] at running
    cases running
  | syncDump p t pc proc isLoad =>
    have hne : (s.item v).stage ≠ .copied := by rcases hst with e | e <;> rw [e] <;> decide
    exact ⟨by simpa [hne] using hst, hop⟩
  | same | flushed | synced | release => exact ⟨hst, hop⟩
  | push p t pc collected first =>
    have := collected.2.2
    rcases hst with e | e <;> rw [e] at this <;> cases this
  | _ => rcases hst with e | e <;> simp_all

/-- A thread that waits for nobody does so until its task has failed. -/
theorem Orphaned.step (hl : Linked s) (hr : RefInv s) (hk : Keeps s) (ho : OwnersOnly s) (hfine : s.failed v = false)
    (hn : Orphaned s v) (h : StoreCase C s l s') : Orphaned s' v := by
  obtain ⟨hv, hst, hop, hload⟩ := hn.blocked
  have hh : (s.item v).handle ≠ .released := by
    rw [hk v hv (by rcases hst with e | e <;> rw [e] <;> rfl)]
    decide
  have hpos := (h.kept.fixed hv).pos
  obtain ⟨hst', hop'⟩ := (h.move hl hv).blocked hst hop hload hfine
  refine ⟨⟨Nat.lt_of_lt_of_le hv h.kept.nItem_le, hst', hop', ?_⟩, fun u hu hup huh => ?_⟩
  · rw [hpos]
    exact h.unmarked hl hr hk ho hv hn hh
  · rw [hpos] at hup
    rcases h.old_or_new hu with hu | ⟨rfl, hget⟩
    · have hf := h.kept.fixed hu
      rw [hf.owner]
      exact hn.noOwner u hu (hf.pos ▸ hup) fun e => huh (h.kept.released hu e)
    · have hin : 0 < (s.buf.metaAt (s.item v).pos).reference := (hr.pos_iff _).mpr ⟨v, hv, hh, rfl⟩
      -- a handle of a node in use is not the owner's
      cases hget with
      | load p t j blockId shardIdx i owner pc shard spec item got | dump p t j blockId shardIdx i owner pc shard spec item got =>
        rw [item] at hup ⊢
        obtain rfl : i = (s.item v).pos := hup
        exact spec.owner.trans (decide_eq_false (by omega))

end Orphaned

/-! ## Every run -/

section Reach

variable [DecidableEq Block] {C : Config Block} {ok : Store Block → StoreLabel Block → Prop} {s s' : Store Block} {i v : Nat}

/-- A node that nobody has and that is not reserved serves any `Get`. -/
theorem nodeFree_of_free (hi : i < C.nNode - C.reservedNumber) (h0 : (s.buf.metaAt i).reference = 0) : NodeFree C s := by
  intro c
  cases hn : s.buf.nodeOf C.toParams c.blockId c.shardIdx with
  | some j => exact ⟨j, by simp [Buf.get, hn]⟩
  | none =>
    refine ⟨i, ?_⟩
    have hlt : i < C.nNode - (if c.allowReserved then 0 else C.reservedNumber) := by
      split <;> omega
    have hal : ∃ b, s.buf.allocAt (fun _ => true) (hashOf C.toParams c.blockId c.shardIdx) i c.blockId c.shardIdx = some b := by
      unfold Buf.allocAt
      rw [if_neg (by omega)]
      split
      · exact ⟨_, rfl⟩
      · split <;> exact ⟨_, rfl⟩
    obtain ⟨b, hb⟩ := hal
    exact ⟨b, true, by simp [Buf.get, hn, hlt, hb]⟩

/-- No step of anyone ends the wait for a mark that nobody will make. -/
theorem Orphaned.stays (hr : Reach (cacheStore C) Any s) (hn : Orphaned s v)
    (h : Reach ((cacheStore C).startAt s) (fun s _ => s.failed v = false) s') : Orphaned s' v := by
  refine Reach.inv_with (S := (cacheStore C).startAt s) (I := fun s' => Orphaned s' v) (fun _ => Reach.startAt hr)
    (fun _ hs => hs ▸ hn)
    (fun t l t' ht hI hfine hst => ?_) h
  exact Orphaned.step (reach_linked ht) (reach_refInv ht) (reach_keeps ht) (reach_ownersOnly ht) hfine hI (storeStep_case hst)

end Reach

instance (s : Store Block) (v : Nat) : Decidable (Blocked s v) :=
  decidable_of_iff (v < s.nItem ∧ ((s.item v).stage = .waiting ∨ (s.item v).stage = .spinning) ∧ (s.item v).backend = .none ∧
    s.buf.getState (s.item v).pos = .loading) ⟨fun ⟨h1, h2, h3, h4⟩ => ⟨h1, h2, h3, h4⟩,
    fun h => ⟨h.lt, h.stage, h.backend, h.loading⟩⟩

/-- A load of the same shard in process 1, up to its wait. -/
def loadAgain : List (StoreLabel Nat) :=
  [.submit 1 true [(7, 0)] false, .dispatch 1 .start, .dispatch 1 (.get 0), .dispatch 1 (.submit true), .dispatch 1 .finish,
    .transfer 1 .take]

/-- A check that implies `MarksFirst`: only item 1, which is no owner, is taken. -/
def takesSecond (s : Store Nat) : StoreLabel Nat → Bool
  | .transfer u .take => !(s.item u).owner
  | .dispatch _ .done => false
  | .dump _ _ => false
  | _ => true

theorem takesSecond_ok (s : Store Nat) (l : StoreLabel Nat) (h : takesSecond s l = true) : MarksFirst s l := by
  unfold takesSecond at h
  unfold MarksFirst
  split at h <;> simp_all

end UnifiedCache.Cache
