/-
  UnifiedCache.Cache.Dumps — what a dump task that has ended well has done with its shards.

  `DumpOneTask` skips a shard whose handle it does not own, whoever owns the node and however
  that ends: a load's that fails (`lost_to_load`), or another dump's that is given up.
  `NoLostSkip` leaves out exactly these. In its runs a shard of a task whose `Wait` returns OK
  has been handed to the backend by this task, or its node has been READY, or another dump owns
  the node and is on its way to the backend or with it (`dump_ok`).

  - `Progress`: what the dump dispatcher has done up to its program point.
  - `Accounts`: a dump task whose latch is at zero has been handed over, or is marked failed.
  - `Dumped`: a dump that is with the backend has made its node READY.
  - `SkipsKept`: what becomes of a skipped shard.
-/

import UnifiedCache.Cache.StoreBuffer
import UnifiedCache.Cache.StoreTasks

namespace UnifiedCache.Cache

open UnifiedCache.Base UnifiedCache.Detail

variable {Block : Type}

/-- Item `u` is shard `j` of task `t` of process `p`. -/
def Store.IsShard (s : Store Block) (p t j u : Nat) : Prop :=
  u < s.nItem ∧ (s.item u).proc = p ∧ (s.item u).task = t ∧ (s.item u).shard = j

/-- A shard of a dump has been skipped, or is at the stage. -/
def Store.ShardAt (s : Store Block) (p t j : Nat) (at_ : Item → Prop) : Prop :=
  ∃ u, s.IsShard p t j u ∧ ((s.item u).owner = false ∨ at_ (s.item u))

/-- Handed to the backend. -/
def Item.handed (x : Item) : Prop := x.backend ≠ .none

/-- Every shard has been handed to the backend or skipped. -/
def Store.Handed (s : Store Block) (p t : Nat) : Prop := ∀ j, j < ((s.proc p).task t).desc.length → s.ShardAt p t j Item.handed

structure Progress (s : Store Block) : Prop where
  loop : ∀ p t j, (s.proc p).dumper = .loop t j →
    j ≤ ((s.proc p).task t).desc.length ∧ ∀ i, i < j → s.ShardAt p t i (·.stage = .copied)
  got : ∀ p t j u, (s.proc p).dumper = .got t j u →
    j < ((s.proc p).task t).desc.length ∧ ∀ i, i < j → s.ShardAt p t i (·.stage = .copied)
  sync : ∀ p t, (s.proc p).dumper = .sync t → ∀ i, i < ((s.proc p).task t).desc.length → s.ShardAt p t i (·.stage = .copied)
  mark : ∀ p t, (s.proc p).dumper = .mark t → ∀ i, i < ((s.proc p).task t).desc.length → s.ShardAt p t i (·.stage = .synced)
  done : ∀ p t, (s.proc p).dumper = .done t → s.Handed p t ∨ (s.proc p).wrapper.failureSet t = true

/-- The dump queue's tasks are yet to be counted down. -/
structure DumpLine (s : Store Block) : Prop where
  nodup : ∀ p, (s.proc p).dumpWaiting.Nodup
  started : ∀ p t, (s.proc p).dumper.task = some t → t ∉ (s.proc p).dumpWaiting
  waiting : ∀ p t, t ∈ (s.proc p).dumpWaiting → (s.proc p).wrapper.counter t ≠ 0
  running : ∀ p t, (s.proc p).dumper.task = some t → (s.proc p).wrapper.counter t ≠ 0

/-- A dump task whose latch is at zero has been handed over, or is marked failed until its
    `Wait` returns. -/
def Accounts (s : Store Block) : Prop :=
  ∀ p t, (s.proc p).Task false t → (s.proc p).wrapper.counter t = 0 → (s.proc p).wrapper.wait t ≠ .returned →
    s.Handed p t ∨ (s.proc p).wrapper.failureSet t = true

/-! ## A step of the dump dispatcher -/

section Progress

variable {C : Config Block} {s s' : Store Block} {b : Buf Block} {l : StoreLabel Block} {p q t u v j : Nat} {x : Item}

/-- What has been handed to the backend stays handed. -/
theorem Move.handed (h : Move C s b v l x) (hv : (s.item v).handed) : x.handed := by
  cases h with
  | collect p ok backend pc proc stage mode submitted =>
    obtain ⟨rfl, -⟩ | ⟨rfl, -⟩ := submitted
    · simp [Item.handed]
    · exact hv
  | queue p ok backend pc proc stage mode submitted =>
    obtain ⟨rfl, -⟩ | ⟨rfl, -⟩ := submitted
    · simp [Item.handed]
    · exact hv
  | push p t pc collected => simpa [Store.pushItem, Item.handed] using hv
  | submitDump | loadOver | dumpOver => simp [Item.handed]
  | _ => exact hv

theorem StoreCase.shardAt {P Q : Item → Prop} (h : StoreCase C s l s') (hs : s.ShardAt p t j P)
    (hPQ : ∀ u, s.IsShard p t j u → (s.item u).owner = true → P (s.item u) → Q (s'.item u)) : s'.ShardAt p t j Q := by
  obtain ⟨u, ⟨hu, hp, ht, hj⟩, hx⟩ := hs
  have hf := h.kept.fixed hu
  refine ⟨u, ⟨by have := h.kept.nItem_le; omega, hf.proc.trans hp, hf.task.trans ht, hf.shard.trans hj⟩, ?_⟩
  cases ho : (s.item u).owner with
  | false => exact .inl (hf.owner.trans ho)
  | true =>
    rcases hx with hx | hx
    · rw [ho] at hx
      cases hx
    · exact .inr (hPQ u ⟨hu, hp, ht, hj⟩ ho hx)

theorem StoreCase.handed (hl : Linked s) (ht : t < (s.proc p).wrapper.nTask) (h : StoreCase C s l s') (hh : s.Handed p t) :
    s'.Handed p t := by
  intro j hj
  rw [h.task_eq ht] at hj
  exact h.shardAt (hh j hj) fun _ hu _ hb => (h.move hl hu.1).handed hb

/-- Steps of others leave the context of a dump alone. -/
theorem StoreCase.shardAt_other {st : Stage} (hst : st.ofDump = true) (hl : Linked s) (h : StoreCase C s l s')
    (hne : ∀ dl, l ≠ .dump p dl) (hs : s.ShardAt p t j (·.stage = st)) : s'.ShardAt p t j (·.stage = st) :=
  h.shardAt hs fun _ hu _ hx => ((h.move hl hu.1).ofDump (fun dl e => hne dl (hu.2.1 ▸ e)) hst).mpr hx

/-- Another shard is skipped or copied. -/
theorem StoreCase.shardAt_succ (h : StoreCase C s l s') (hw : s.IsShard p t j u) (hst : (s.item u).stage = .dumpGot)
    (hkeep : ∀ v, v ≠ u → s'.item v = s.item v) (hnew : (s'.item u).owner = false ∨ (s'.item u).stage = .copied)
    (hs : ∀ i, i < j → s.ShardAt p t i (·.stage = .copied)) (i : Nat) (hi : i < j + 1) :
    s'.ShardAt p t i (·.stage = .copied) := by
  by_cases e : i = j
  · subst e
    have hf := h.kept.fixed hw.1
    exact ⟨u, ⟨by have := h.kept.nItem_le; have := hw.1; omega, hf.proc.trans hw.2.1, hf.task.trans hw.2.2.1,
      hf.shard.trans hw.2.2.2⟩, hnew⟩
  · refine h.shardAt (hs i (by omega)) fun v _ _ hx => ?_
    have hne : v ≠ u := by
      intro e
      subst e
      rw [hst] at hx
      cases hx
    rw [hkeep v hne]
    exact hx

/-- Neither a `Get` nor the dumper's wait moves what is in the context. -/
theorem StoreCase.shardAt_still {dl : DumpLabel} {st : Stage} (hst : st = .copied ∨ st = .synced)
    (h : StoreCase C s (.dump p dl) s')
    (hdl : (∃ i, dl = .get i) ∨ (∃ ok, dl = .waited ok) ∨ dl = .finish ∨ ∃ u, dl = .mark u)
    (hs : s.ShardAt p t j (·.stage = st)) :
    s'.ShardAt p t j (·.stage = st) := by
  refine h.shardAt hs fun u hu _ hx => ?_
  have hlt := hu.1
  cases h with
  | dump _ _ _ step =>
    cases step with
    | get t' j' blockId shardIdx i b owner pc shard spec => simpa [Nat.ne_of_lt hlt] using hx
    | finish t' pc => exact hx
    | mark t' w pc synced => exact hx
    | waited t' rest ok first ended =>
      simp only [setProc_item, each_item]
      rw [if_neg fun hat => by rcases hst with rfl | rfl <;> (rw [hx] at hat; cases hat.2.1)]
      exact hx
    | _ => simp at hdl

theorem StoreCase.progress_loop (hl : Linked s) (hty : Typed s) (hp : Progress s) (h : StoreCase C s l s')
    (hpc : (s'.proc p).dumper = .loop t j) :
    j ≤ ((s'.proc p).task t).desc.length ∧ ∀ i, i < j → s'.ShardAt p t i (·.stage = .copied) := by
  by_cases hd : ∃ dl, l = .dump p dl
  · obtain ⟨dl, rfl⟩ := hd
    have hstep := h
    cases h with
    | dump _ _ _ step =>
      -- a handle in the hand has been dealt with
      have htake : ∀ {t' j' u}, (s.proc p).dumper = .got t' j' u → (s'.proc p).dumper = .loop t' (j' + 1) →
          (∀ v, v ≠ u → s'.item v = s.item v) → (s'.item u).owner = false ∨ (s'.item u).stage = .copied →
          j ≤ ((s'.proc p).task t).desc.length ∧ ∀ i, i < j → s'.ShardAt p t i (·.stage = .copied) := by
        intro t' j' u pc hpc' hkeep hnew
        rw [hpc'] at hpc
        cases hpc
        obtain ⟨hlt, hs⟩ := hp.got p t j' u pc
        obtain ⟨hu, hproc, htask, hshard, hst⟩ := hl.dumpGot p t j' u pc
        rw [hstep.task_eq (hty.dumper p t (by rw [pc]; rfl)).1]
        exact ⟨hlt, hstep.shardAt_succ ⟨hu, hproc, htask, hshard⟩ hst hkeep hnew hs⟩
      cases step with
      | start ok t' rest pc first =>
        have : j = 0 := by
          simp only [setProc_proc, if_true] at hpc
          cases hf : (s.proc p).wrapper.failureSet t' <;> cases ok <;> simp [hf] at hpc
          exact hpc.2.symm
        subst this
        exact ⟨Nat.zero_le _, fun i hi => by omega⟩
      | get t' j' blockId shardIdx i b owner pc shard spec => simp at hpc
      | skip t' j' u ok part pc shared =>
        exact htake pc (by simp) (fun v hv => by simp [hv]) (.inl (by simpa [Item.drop, Item.letGo] using shared))
      | found t' j' u ok part pc owner ready => exact htake pc (by simp) (fun v hv => by simp [hv]) (.inr (by simp))
      | copy t' j' u part pc owner unready => exact htake pc (by simp) (fun v hv => by simp [hv]) (.inr (by simp))
      | refuse t' j' u part pc owner unready => simp [Store.dropDump] at hpc
      | finish t' pc =>
        simp only [setDumper_proc, if_true] at hpc
        split at hpc <;> cases hpc
      | sync t' ok pc => cases ok <;> simp [Store.syncDump] at hpc
      | mark t' u pc synced =>
        have hpc' : (s.proc p).dumper = .loop t j := hpc
        rw [pc] at hpc'
        cases hpc'
      | submit t' ok pc marked => cases ok <;> simp [Store.submitDump] at hpc
      | fail t' pc => simp at hpc
      | done t' pc => simp at hpc
      | waited t' rest ok first ended =>
        simp only [setProc_proc, if_true] at hpc
        obtain ⟨hle, hs⟩ := hp.loop p t j hpc
        rw [hstep.task_eq (hty.dumper p t (by rw [hpc]; rfl)).1]
        exact ⟨hle, fun i hi => hstep.shardAt_still (.inl rfl) (.inr (.inl ⟨ok, rfl⟩)) (hs i hi)⟩
  · have hne := fun dl e => hd ⟨dl, e⟩
    rw [h.dumper_eq hne] at hpc
    obtain ⟨hle, hs⟩ := hp.loop p t j hpc
    rw [h.task_eq (hty.dumper p t (by rw [hpc]; rfl)).1]
    exact ⟨hle, fun i hi => h.shardAt_other rfl hl hne (hs i hi)⟩

theorem StoreCase.progress_got (hl : Linked s) (hty : Typed s) (hp : Progress s) (h : StoreCase C s l s')
    (hpc : (s'.proc p).dumper = .got t j u) :
    j < ((s'.proc p).task t).desc.length ∧ ∀ i, i < j → s'.ShardAt p t i (·.stage = .copied) := by
  by_cases hd : ∃ dl, l = .dump p dl
  · obtain ⟨dl, rfl⟩ := hd
    have hstep := h
    cases h with
    | dump _ _ _ step =>
      rcases step.hand with ⟨i, t', j', rfl, hnew, -⟩ | ⟨⟨ok, rfl⟩, hsame⟩ | hno
      · cases step with
        | get t0 j0 blockId shardIdx _ b owner pc shard spec =>
          simp only [setDumper_proc, if_true, DumpPc.got.injEq] at hpc
          obtain ⟨rfl, rfl, -⟩ := hpc
          rw [hstep.task_eq (hty.dumper p t0 (by rw [pc]; rfl)).1]
          exact ⟨(List.getElem?_eq_some_iff.mp shard).1,
            fun k hk => hstep.shardAt_still (.inl rfl) (.inl ⟨i, rfl⟩) ((hp.loop p t0 j0 pc).2 k hk)⟩
      · rw [hsame] at hpc
        obtain ⟨hlt, hs⟩ := hp.got p t j u hpc
        rw [hstep.task_eq (hty.dumper p t (by rw [hpc]; rfl)).1]
        exact ⟨hlt, fun i hi => hstep.shardAt_still (.inl rfl) (.inr (.inl ⟨ok, rfl⟩)) (hs i hi)⟩
      · exact absurd hpc (hno t j u)
  · have hne := fun dl e => hd ⟨dl, e⟩
    rw [h.dumper_eq hne] at hpc
    obtain ⟨hlt, hs⟩ := hp.got p t j u hpc
    rw [h.task_eq (hty.dumper p t (by rw [hpc]; rfl)).1]
    exact ⟨hlt, fun i hi => h.shardAt_other rfl hl hne (hs i hi)⟩

theorem StoreCase.progress_sync (hl : Linked s) (hty : Typed s) (hp : Progress s) (h : StoreCase C s l s')
    (hpc : (s'.proc p).dumper = .sync t) (i : Nat) (hi : i < ((s'.proc p).task t).desc.length) :
    s'.ShardAt p t i (·.stage = .copied) := by
  by_cases hd : ∃ dl, l = .dump p dl
  · obtain ⟨dl, rfl⟩ := hd
    have hstep := h
    cases h with
    | dump _ _ _ step =>
      cases step with
      | start ok t' rest pc first =>
        simp only [setProc_proc, if_true] at hpc
        cases hf : (s.proc p).wrapper.failureSet t' <;> cases ok <;> simp [hf] at hpc
      | finish t' pc =>
        simp only [setDumper_proc, if_true] at hpc
        split at hpc
        · cases hpc
          rw [hstep.task_eq (hty.dumper p t (by rw [pc]; rfl)).1] at hi
          exact hstep.shardAt_still (.inl rfl) (.inr (.inr (.inl rfl))) ((hp.loop p t _ pc).2 i hi)
        · cases hpc
      | waited t' rest ok first ended =>
        simp only [setProc_proc, if_true] at hpc
        rw [hstep.task_eq (hty.dumper p t (by rw [hpc]; rfl)).1] at hi
        exact hstep.shardAt_still (.inl rfl) (.inr (.inl ⟨ok, rfl⟩)) (hp.sync p t hpc i hi)
      | sync t' ok pc => cases ok <;> simp [Store.syncDump] at hpc
      | mark t' u pc synced =>
        have hpc' : (s.proc p).dumper = .sync t := hpc
        rw [pc] at hpc'
        cases hpc'
      | submit t' ok pc marked => cases ok <;> simp [Store.submitDump] at hpc
      | refuse t' j u part pc owner unready => simp [Store.dropDump] at hpc
      | _ => simp at hpc
  · have hne := fun dl e => hd ⟨dl, e⟩
    rw [h.dumper_eq hne] at hpc
    rw [h.task_eq (hty.dumper p t (by rw [hpc]; rfl)).1] at hi
    exact h.shardAt_other rfl hl hne (hp.sync p t hpc i hi)

theorem StoreCase.progress_mark (hl : Linked s) (hty : Typed s) (hp : Progress s) (h : StoreCase C s l s')
    (hpc : (s'.proc p).dumper = .mark t) (i : Nat) (hi : i < ((s'.proc p).task t).desc.length) :
    s'.ShardAt p t i (·.stage = .synced) := by
  by_cases hd : ∃ dl, l = .dump p dl
  · obtain ⟨dl, rfl⟩ := hd
    have hstep := h
    cases h with
    | dump _ _ _ step =>
      cases step with
      | start ok t' rest pc first =>
        simp only [setProc_proc, if_true] at hpc
        cases hf : (s.proc p).wrapper.failureSet t' <;> cases ok <;> simp [hf] at hpc
      | finish t' pc =>
        simp only [setDumper_proc, if_true] at hpc
        split at hpc <;> cases hpc
      | waited t' rest ok first ended =>
        simp only [setProc_proc, if_true] at hpc
        rw [hstep.task_eq (hty.dumper p t (by rw [hpc]; rfl)).1] at hi
        exact hstep.shardAt_still (.inr rfl) (.inr (.inl ⟨ok, rfl⟩)) (hp.mark p t hpc i hi)
      | sync t' ok pc =>
        cases ok with
        | true =>
          simp only [Store.syncDump, if_true, setDumper_proc, DumpPc.mark.injEq] at hpc
          subst hpc
          rw [hstep.task_eq (hty.dumper p t' (by rw [pc]; rfl)).1] at hi
          refine hstep.shardAt (hp.sync p t' pc i hi) fun u hu _ hx => ?_
          have hload := hl.isDump u hu.1 (by rw [hx]; rfl)
          simp [Store.syncDump, hu.2.1, hload, hx]
        | false => simp [Store.syncDump] at hpc
      | mark t' u pc synced =>
        have hpc' : (s.proc p).dumper = .mark t := hpc
        exact hstep.shardAt_still (.inr rfl) (.inr (.inr (.inr ⟨u, rfl⟩))) (hp.mark p t hpc' i hi)
      | submit t' ok pc marked => cases ok <;> simp [Store.submitDump] at hpc
      | refuse t' j u part pc owner unready => simp [Store.dropDump] at hpc
      | _ => simp at hpc
  · have hne := fun dl e => hd ⟨dl, e⟩
    rw [h.dumper_eq hne] at hpc
    rw [h.task_eq (hty.dumper p t (by rw [hpc]; rfl)).1] at hi
    exact h.shardAt_other rfl hl hne (hp.mark p t hpc i hi)

/-- A failure mark stays until the `Wait` of a counted task returns. -/
theorem WrapperMove.marked {w : TaskWrapper} (h : WrapperMove s q l w) (hf : (s.proc q).wrapper.failureSet t = true) :
    w.failureSet t = true ∨ w.wait t = .returned ∧ (s.proc q).wrapper.counter t = 0 := by
  cases h with
  | wait wl w step =>
    rcases (waitStep_keeps step).marks t hf with h | ⟨-, h⟩
    · exact .inl h
    · exact .inr h
  | full isLoad desc => exact .inl (by simp [hf])
  | fail l t' => exact .inl (by simp [hf])
  | _ => exact .inl hf

theorem StoreCase.progress_done (hl : Linked s) (hty : Typed s) (hline : DumpLine s) (hp : Progress s) (h : StoreCase C s l s')
    (hpc : (s'.proc p).dumper = .done t) : s'.Handed p t ∨ (s'.proc p).wrapper.failureSet t = true := by
  -- a dump that has been accounted for stays so
  have hkeep : (s.proc p).dumper = .done t → s'.Handed p t ∨ (s'.proc p).wrapper.failureSet t = true := by
    intro hpc
    have htask := hty.dumper p t (by rw [hpc]; rfl)
    rcases hp.done p t hpc with hh | hf
    · exact .inl (h.handed hl htask.1 hh)
    · rcases (h.wrapper p).marked hf with hf | ⟨-, hz⟩
      · exact .inr hf
      · exact absurd hz (hline.running p t (by rw [hpc]; rfl))
  by_cases hd : ∃ dl, l = .dump p dl
  · obtain ⟨dl, rfl⟩ := hd
    have hstep := h
    cases h with
    | dump _ _ _ step =>
      cases step with
      | start ok t' rest pc first =>
        simp only [setProc_proc, if_true] at hpc ⊢
        cases hf : (s.proc p).wrapper.failureSet t' <;> cases ok <;> simp [hf] at hpc
        all_goals exact .inr (hpc ▸ hf)
      | finish t' pc =>
        simp only [setDumper_proc, if_true] at hpc
        split at hpc
        · cases hpc
        · next hnone =>
          cases hpc
          -- nothing has been copied: every shard was skipped
          refine .inl fun i hi => ?_
          rw [hstep.task_eq (hty.dumper p t (by rw [pc]; rfl)).1] at hi
          refine hstep.shardAt ((hp.loop p t _ pc).2 i hi) fun u hu _ hx => ?_
          exact absurd ⟨u, hu.1, hu.1, hu.2.1, hx⟩ hnone
      | waited t' rest ok first ended =>
        simp only [setProc_proc, if_true] at hpc
        exact hkeep hpc
      | sync t' ok pc => cases ok <;> simp [Store.syncDump] at hpc
      | mark t' u pc synced => exact hkeep hpc
      | submit t' ok pc marked =>
        cases ok with
        | true =>
          simp only [Store.submitDump, if_true, setProc_proc, DumpPc.done.injEq] at hpc
          subst hpc
          refine .inl fun i hi => ?_
          rw [hstep.task_eq (hty.dumper p t' (by rw [pc]; rfl)).1] at hi
          refine hstep.shardAt (hp.mark p t' pc i hi) fun u hu _ hx => ?_
          simp [Store.submitDump, hu.2.1, hx, Item.handed]
        | false => simp [Store.submitDump] at hpc
      | fail t' pc =>
        simp only [setDumper_proc, if_true, DumpPc.done.injEq] at hpc
        subst hpc
        exact .inr (by simp)
      | refuse t' j u part pc owner unready => simp [Store.dropDump] at hpc
      | _ => simp at hpc
  · have hne := fun dl e => hd ⟨dl, e⟩
    rw [h.dumper_eq hne] at hpc
    exact hkeep hpc

theorem StoreCase.progress (hl : Linked s) (hty : Typed s) (hline : DumpLine s) (hp : Progress s) (h : StoreCase C s l s') :
    Progress s' :=
  ⟨fun _ _ _ hpc => h.progress_loop hl hty hp hpc, fun _ _ _ _ hpc => h.progress_got hl hty hp hpc,
    fun _ _ hpc => h.progress_sync hl hty hp hpc, fun _ _ hpc => h.progress_mark hl hty hp hpc,
    fun _ _ hpc => h.progress_done hl hty hline hp hpc⟩

end Progress

/-! ## The latch of a dump -/

section Latch

variable {C : Config Block} {s s' : Store Block} {l : StoreLabel Block} {p q t : Nat}

/-- A dump task is counted down by the dump dispatcher. -/
theorem StoreCase.dump_counted (hl : Linked s) (hty : Typed s) (ht : (s.proc p).Task false t) (h : StoreCase C s l s')
    (hne : (s.proc p).wrapper.counter t ≠ 0) (hz : (s'.proc p).wrapper.counter t = 0) :
    l = .dump p .done ∧ (s.proc p).dumper = .done t := by
  have hm := h.wrapper p
  generalize (s'.proc p).wrapper = w at hm hz
  cases hm with
  | same => exact absurd hz hne
  | submit isLoad desc => exact absurd (by simpa [Nat.ne_of_lt ht.1] using hz) hne
  | full isLoad desc => exact absurd (by simpa [Nat.ne_of_lt ht.1] using hz) hne
  | wait wl w step => exact absurd ((waitStep_keeps step).counter ▸ hz) hne
  | fail l t' => exact absurd hz hne
  | dispatchDone t' pc =>
    rw [TaskWrapper.done_counter] at hz
    split at hz
    · next e =>
      subst e
      have := (hty.dispatcher p t (by rw [pc]; rfl)).2
      rw [ht.2] at this
      cases this
    · exact absurd hz hne
  | transferDone u lt proc stage waiter =>
    rw [TaskWrapper.done_counter] at hz
    split at hz
    · next e =>
      subst e proc
      have := (hty.item u lt).2
      rw [ht.2, hl.isLoad u lt (by rw [stage]; rfl)] at this
      cases this
    · exact absurd hz hne
  | dumpDone t' pc =>
    rw [TaskWrapper.done_counter] at hz
    split at hz
    · next e =>
      subst e
      exact ⟨rfl, pc⟩
    · exact absurd hz hne

theorem StoreCase.dumpLine (hl : Linked s) (hty : Typed s) (hline : DumpLine s) (h : StoreCase C s l s') : DumpLine s' := by
  have hstart : ∀ p t, (s'.proc p).dumper.task = some t → (s.proc p).dumper.task = some t ∨ t ∈ (s.proc p).dumpWaiting := by
    intro p t ht
    by_cases hd : ∃ dl, l = .dump p dl
    · obtain ⟨dl, rfl⟩ := hd
      cases h with
      | dump _ _ _ step => exact step.task ht
    · rw [h.dumper_eq fun dl e => hd ⟨dl, e⟩] at ht
      exact .inl ht
  refine ⟨fun p => ?_, fun p t ht hmem => ?_, fun p t hmem hz => ?_, fun p t ht hz => ?_⟩
  · have hn := hline.nodup p
    cases h with
    | submit q isLoad desc full =>
      by_cases e : p = q
      · subst e
        have hnew : (s.proc p).wrapper.nTask ∉ (s.proc p).dumpWaiting := fun hw => by
          have := (hty.dumpWaiting p _ hw).1
          omega
        cases isLoad <;> cases full
        all_goals simp [Store.submit, hn]
        exact List.nodup_append.mpr ⟨hn, List.nodup_singleton _, fun a ha b hb e => hnew (List.mem_singleton.mp hb ▸ e ▸ ha)⟩
      · simpa [Store.submit, e] using hn
    | dump q dl _ step =>
      by_cases e : p = q
      · subst e
        cases step with
        | start ok t rest pc first =>
          rw [first] at hn
          simpa using (List.nodup_cons.mp hn).2
        | refuse t' j u part pc owner unready => simpa [Store.dropDump] using hn
        | sync t' ok pc => cases ok <;> simpa [Store.syncDump, Store.dropDump] using hn
        | submit t' ok pc marked => cases ok <;> simpa [Store.submitDump, Store.dropDump] using hn
        | _ => simpa using hn
      · rwa [step.proc_ne e]
    | wait q wl w step =>
      simp only [setWrapper_proc]
      split
      · next e => subst e; exact hn
      · exact hn
    | transfer u tl _ lt step => rwa [step.proc_eq]
    | dispatch q dl _ step =>
      by_cases e : p = q
      · subst e
        rwa [step.proc_eq]
      · rwa [step.proc_ne e]
    | loadOver u lt isLoad running => exact hn
    | dumpOver q t => exact hn
    | release u lt dropping => exact hn
  · rcases (h.queues p).2 t hmem with hold | ⟨rfl, -⟩
    · rcases hstart p t ht with hpc | hw
      · exact hline.started p t hpc hold
      · -- the first of `waiting_` has been taken out
        have hpc : (s.proc p).dumper.task ≠ some t := fun e => hline.started p t e hw
        by_cases hd : ∃ dl, l = .dump p dl
        · obtain ⟨dl, rfl⟩ := hd
          cases h with
          | dump _ _ _ step =>
            cases step with
            | start ok t' rest pc first =>
              have hn := hline.nodup p
              rw [first] at hn
              have : t' = t := by
                simp only [setProc_proc, if_true] at ht
                cases hf : (s.proc p).wrapper.failureSet t' <;> cases ok <;> simpa [hf] using ht
              subst this
              simp only [setProc_proc, if_true] at hmem
              exact (List.nodup_cons.mp hn).1 hmem
            | mark t' u pc synced => exact hpc ht
            | waited t' rest ok first ended => exact hpc (by simpa using ht)
            | done t' pc => simp at ht
            | refuse t' j u part pc owner unready => exact hpc (by rw [pc]; simpa [Store.dropDump] using ht)
            | sync t' ok pc => exact hpc (by rw [pc]; cases ok <;> simpa [Store.syncDump, Store.dropDump] using ht)
            | submit t' ok pc marked => exact hpc (by rw [pc]; cases ok <;> simpa [Store.submitDump, Store.dropDump] using ht)
            | finish t' pc =>
              refine hpc ?_
              rw [pc]
              simp only [setDumper_proc, if_true] at ht
              split at ht <;> exact ht
            | get t' j blockId shardIdx i b owner pc shard spec => exact hpc (by rw [pc]; simpa using ht)
            | skip t' j u ok part pc shared => exact hpc (by rw [pc]; simpa using ht)
            | found t' j u ok part pc owner ready => exact hpc (by rw [pc]; simpa using ht)
            | copy t' j u part pc owner unready => exact hpc (by rw [pc]; simpa using ht)
            | fail t' pc => exact hpc (by rw [pc]; simpa using ht)
        · rw [h.dumper_eq fun dl e => hd ⟨dl, e⟩] at ht
          exact hpc ht
    · have hnew : ∀ b, ¬ (s.proc p).Task b (s.proc p).wrapper.nTask := fun b ht => Nat.lt_irrefl _ ht.1
      rcases hstart p _ ht with hpc | hw
      · exact hnew _ (hty.dumper p _ hpc)
      · exact hnew _ (hty.dumpWaiting p _ hw)
  · rcases (h.queues p).2 t hmem with hold | ⟨rfl, -⟩
    · have htask := hty.dumpWaiting p t hold
      obtain ⟨-, hpc⟩ := h.dump_counted hl hty htask (hline.waiting p t hold) hz
      exact hline.started p t (by rw [hpc]; rfl) hold
    · -- the new task's latch is up
      have hno : ∀ {w : TaskWrapper}, w = (s'.proc p).wrapper → w.nTask ≠ (s.proc p).wrapper.nTask := by
        rintro w rfl e
        have := (h.typed hty).dumpWaiting p _ hmem
        exact absurd this.1 (by rw [e]; exact Nat.lt_irrefl _)
      have hm := h.wrapper p
      generalize hw : (s'.proc p).wrapper = w at hm hz
      cases hm with
      | submit isLoad desc => simp at hz
      | full isLoad desc =>
        cases h with
        | submit =>
          simp only [Store.submit, Bool.not_true, Bool.and_false, setProc_proc, if_true] at hmem
          exact absurd (hty.dumpWaiting p _ hmem).1 (Nat.lt_irrefl _)
      | wait wl w step => exact hno hw.symm (waitStep_keeps step).nTask
      | same => exact hno hw.symm rfl
      | fail l t' => exact hno hw.symm rfl
      | dispatchDone t' pc => exact hno hw.symm rfl
      | transferDone u lt proc stage waiter => exact hno hw.symm rfl
      | dumpDone t' pc => exact hno hw.symm rfl
  · have hold : (s.proc p).Task false t ∧ (s.proc p).wrapper.counter t ≠ 0 := by
      rcases hstart p t ht with hpc | hw
      · exact ⟨hty.dumper p t hpc, hline.running p t hpc⟩
      · exact ⟨hty.dumpWaiting p t hw, hline.waiting p t hw⟩
    obtain ⟨rfl, hpc⟩ := h.dump_counted hl hty hold.1 hold.2 hz
    cases h with
    | dump _ _ _ step =>
      cases step with
      | done t' pc => simp at ht

theorem StoreCase.accounts (hl : Linked s) (hty : Typed s) (hp : Progress s) (ha : Accounts s) (h : StoreCase C s l s') :
    Accounts s' := by
  intro p t ht hz hr
  by_cases hlt : t < (s.proc p).wrapper.nTask
  · have htask : (s.proc p).Task false t := ⟨hlt, by rw [← h.task_eq hlt]; exact ht.2⟩
    -- handed over, or marked, before the step
    have hold : s.Handed p t ∨ (s.proc p).wrapper.failureSet t = true := by
      by_cases hz0 : (s.proc p).wrapper.counter t = 0
      · exact ha p t htask hz0 fun e => hr (h.returned e)
      · exact hp.done p t (h.dump_counted hl hty htask hz0 hz).2
    rcases hold with hh | hf
    · exact .inl (h.handed hl hlt hh)
    · rcases (h.wrapper p).marked hf with hf | ⟨hret, -⟩
      · exact .inr hf
      · exact absurd hret hr
  · have hm := h.wrapper p
    have hlt' := ht.1
    generalize (s'.proc p).wrapper = w at hm hz hlt' ⊢
    have hno : w.nTask = (s.proc p).wrapper.nTask → s'.Handed p t ∨ w.failureSet t = true := fun e => absurd (e ▸ hlt') hlt
    cases hm with
    | submit isLoad desc =>
      simp only [TaskWrapper.submit_nTask] at hlt'
      obtain rfl : t = (s.proc p).wrapper.nTask := by omega
      simp at hz
    | full isLoad desc =>
      simp only [TaskWrapper.done_nTask, TaskWrapper.fail_nTask, TaskWrapper.submit_nTask] at hlt'
      obtain rfl : t = (s.proc p).wrapper.nTask := by omega
      exact .inr (by simp)
    | wait wl w step => exact hno (waitStep_keeps step).nTask
    | same => exact hno rfl
    | fail l t' => exact hno rfl
    | dispatchDone t' pc => exact hno rfl
    | transferDone u lt proc stage waiter => exact hno rfl
    | dumpDone t' pc => exact hno rfl

end Latch

/-! ## What becomes of a skipped shard -/

/-- A dump's handle that owns its node, on its way to the backend, or with it until the dumper has waited. -/
structure Item.Persisting (x : Item) : Prop where
  owner : x.owner = true
  stage : x.stage.ofDump = true

structure Item.Skipped (x : Item) : Prop where
  isLoad : x.isLoad = false
  shared : x.owner = false
  stage : x.stage = .ended

namespace Store

variable (s : Store Block)

/-- The node is an earlier dump's, of the same key, which takes it to the backend. -/
def Persisted (u : Nat) : Prop := ∃ v, v < u ∧ s.key v = s.key u ∧ (s.item v).pos = (s.item u).pos ∧ (s.item v).Persisting

def NodeReady (u : Nat) : Prop :=
  s.buf.getState (s.item u).pos = .ready ∧ ∃ blockId shardIdx, s.key u = some (blockId, shardIdx) ∧
  s.buf.Keyed (s.item u).pos blockId shardIdx

/-- A dump of process `p` that fails takes item `v` with it, which has shard `u` of another task
    behind it. -/
structure Loses (p v u : Nat) : Prop where
  before : v < u
  lt : u < s.nItem
  proc : (s.item v).proc = p
  stage : (s.item v).stage = .dumpGot ∨ (s.item v).stage = .copied ∨ (s.item v).stage = .synced
  owner : (s.item v).owner = true
  key : s.key v = s.key u
  pos : (s.item v).pos = (s.item u).pos
  skipped : (s.item u).Skipped
  other : ¬ ((s.item u).proc = p ∧ (s.item u).task = (s.item v).task)

/-- The task of item `u` has failed. -/
def Excused (u : Nat) : Prop :=
  (s.proc (s.item u).proc).dumper = .failed (s.item u).task ∨ (s.proc (s.item u).proc).wrapper.failureSet (s.item u).task = true ∨
    (s.proc (s.item u).proc).wrapper.wait (s.item u).task = .returned

end Store

/-- No shard is skipped whose node is not READY and that no other dump takes to the backend, and
    no dump fails before the node of a shard skipped behind it is READY. -/
def NoLostSkip (s : Store Block) : StoreLabel Block → Prop
  | .dump p l =>
    (∀ ok part, l = .take ok part → ∀ t j u, (s.proc p).dumper = .got t j u → (s.item u).owner = false →
      s.buf.getState (s.item u).pos = .ready ∨ s.Persisted u) ∧
    (DumpFails s p l → ∀ v u, s.Loses p v u → s.NodeReady u)
  | _ => True

/-- A dump that does not own its node is skipped. -/
def Shared (s : Store Block) : Prop :=
  ∀ u, u < s.nItem → (s.item u).isLoad = false → (s.item u).owner = false → (s.item u).stage = .dumpGot ∨
  (s.item u).stage = .ended

section Skips

variable {C : Config Block} {s s' : Store Block} {b : Buf Block} {l : StoreLabel Block} {p q t u v j : Nat} {x : Item}

theorem Move.shared (hload : (s.item v).isLoad = false) (hno : (s.item v).owner = false)
    (hst : (s.item v).stage = .dumpGot ∨ (s.item v).stage = .ended) (h : Move C s b v l x) :
    (x.stage = .dumpGot ∨ x.stage = .ended) ∧
      (x.stage = .ended → (s.item v).stage = .ended ∨
        (∃ ok part, l = .dump (s.item v).proc (.take ok part)) ∧
          (s.proc (s.item v).proc).dumper = .got (s.item v).task (s.item v).shard v) := by
  cases h with
  | same | synced | release | dumpOver => exact ⟨hst, .inl⟩
  | skipDump p ok part pc proc stage shared =>
    subst proc
    exact ⟨.inr rfl, fun _ => .inr ⟨⟨ok, part, rfl⟩, pc⟩⟩
  | syncDump p t pc proc isLoad =>
    have : (s.item v).stage ≠ .copied := fun e => by rcases hst with h | h <;> (rw [h] at e; cases e)
    rw [if_neg this]
    exact ⟨hst, .inl⟩
  | push p t pc collected =>
    have := collected.2.2
    rcases hst with hst | hst <;> rw [hst] at this <;> cases this
  | _ => rcases hst with hst | hst <;> simp_all

/-- What is on its way to the backend gets there, and is with it until it has been waited for, unless its dump
    fails. -/
theorem Move.persisting (hx : (s.item v).Persisting) (h : Move C s b v l x) :
    x.stage.ofDump = true ∨
      (∃ dl, l = .dump (s.item v).proc dl ∧ DumpFails s (s.item v).proc dl) ∧
        ((s.item v).stage = .dumpGot ∨ (s.item v).stage = .copied ∨ (s.item v).stage = .synced) ∨
        (s.item v).stage = .dumping := by
  have hst := hx.stage
  have howner := hx.owner
  cases h with
  | same | synced | release | loadOver | dumpOver => exact .inl hst
  | found | copyDump | submitDump => exact .inl rfl
  | refuseDump p part pc proc stage owner unready =>
    subst proc
    exact .inr (.inl ⟨⟨_, rfl, .take _ _ v part pc owner unready⟩, .inl stage⟩)
  | giveUp p dl proc why stage =>
    subst proc
    exact .inr (.inl ⟨⟨dl, rfl, why⟩, .inr stage⟩)
  | syncDump p t pc proc isLoad =>
    simp only
    split
    · exact .inl rfl
    · exact .inl hst
  | waitedDump p t rest ok first proc stage => exact .inr (.inr stage)
  | push p t pc collected =>
    rw [collected.2.2] at hst
    cases hst
  | abandon p t pc proc stage => rcases stage with stage | stage <;> rw [stage] at hst <;> cases hst
  | _ => simp_all [Stage.ofDump]

theorem StoreCase.persisting (hl : Linked s) (hv : v < s.nItem) (hx : (s.item v).Persisting) (h : StoreCase C s l s') :
    (s'.item v).Persisting ∨
      (∃ dl, l = .dump (s.item v).proc dl ∧ DumpFails s (s.item v).proc dl) ∧
        ((s.item v).stage = .dumpGot ∨ (s.item v).stage = .copied ∨ (s.item v).stage = .synced) ∨ (s.item v).stage = .dumping :=
  ((h.move hl hv).persisting hx).imp (fun hst => ⟨(h.kept.fixed hv).owner.trans hx.owner, hst⟩) id

/-- A node that a dump owns is not FAILED, and READY while the backend has it. -/
def Dumped (s : Store Block) : Prop :=
  ∀ v, v < s.nItem → (s.item v).Persisting →
    s.buf.getState (s.item v).pos ≠ .failed ∧ ((s.item v).stage = .dumping → s.buf.getState (s.item v).pos = .ready)

/-- What comes to the backend was marked. -/
theorem Move.dumping (h : Move C s b v l x) (hx : x.stage = .dumping) :
    (s.item v).stage = .dumping ∨ s.buf.getState (s.item v).pos ≠ .loading := by
  cases h with
  | same | flushed | synced | loadOver | release | dumpOver => exact .inl hx
  | submitDump p t pc proc stage settled => exact .inr settled
  | syncDump p t pc proc isLoad =>
    simp only at hx
    split at hx
    · cases hx
    · exact .inl hx
  | push p t pc collected => simp [Store.pushItem] at hx
  | waited ok stage ended settled => cases ok <;> cases hx
  | look stage' stage backend outcome => obtain ⟨-, rfl⟩ | ⟨-, rfl⟩ | ⟨-, rfl⟩ := outcome <;> cases hx
  | check stage =>
    simp only at hx
    split at hx <;> cases hx
  | hold stage mode =>
    simp only at hx
    split at hx <;> cases hx
  | copy ok part stage mode => cases ok <;> cases hw : (s.item v).waiter <;> simp [hw] at hx
  | sync ok h stage handle => cases ok <;> cases hx
  | _ => cases hx

/-- A failing dump's handles are of the task that fails. -/
theorem DumpCase.fails {dl : DumpLabel} (hl : Linked s) (hd : DumpPhase s) (hv : v < s.nItem)
    (hst : (s.item v).stage = .dumpGot ∨ (s.item v).stage = .copied ∨ (s.item v).stage = .synced)
    (hf : DumpFails s (s.item v).proc dl) (h : DumpCase C s (s.item v).proc dl s') :
    (s'.proc (s.item v).proc).dumper = .failed (s.item v).task := by
  have hpc : (s.proc (s.item v).proc).dumper = .got (s.item v).task (s.item v).shard v ∨
      (s.proc (s.item v).proc).dumper.collects (s.item v).task ∨ (s.proc (s.item v).proc).dumper = .mark (s.item v).task :=
    hst.imp (hl.dumpGotOnly v hv) (.imp (hd.copied v hv) (hd.synced v hv))
  cases hf with
  | take t j u part pc owner unready =>
    have ht : t = (s.item v).task := by
      simp only [pc, DumpPc.got.injEq, DumpPc.collects, reduceCtorEq, or_false] at hpc
      exact hpc.elim And.left id
    cases h with
    | skip t' j' u' ok part pc' shared =>
      rw [pc] at pc'
      cases pc'
      rw [owner] at shared
      cases shared
    | found t' j' u' ok part pc' owner ready =>
      rw [pc] at pc'
      cases pc'
      exact absurd ready unready
    | refuse t' j' u' part pc' owner unready =>
      rw [pc] at pc'
      cases pc'
      simp [ht]
  | sync t pc =>
    have ht : t = (s.item v).task := by simpa [pc, DumpPc.collects] using hpc
    cases h with
    | sync t' ok pc' =>
      rw [pc] at pc'
      cases pc'
      simp [Store.syncDump, ht]
  | submit t pc marked =>
    have ht : t = (s.item v).task := by simpa [pc, DumpPc.collects] using hpc
    cases h with
    | submit t' ok pc' marked =>
      rw [pc] at pc'
      cases pc'
      simp [Store.submitDump, ht]

theorem StoreCase.excused (hu : u < s.nItem) (he : s.Excused u) (h : StoreCase C s l s') : s'.Excused u := by
  have hf := h.kept.fixed hu
  unfold Store.Excused at he ⊢
  rw [hf.proc, hf.task]
  rcases he with hpc | hmark | hret
  · by_cases hd : ∃ dl, l = .dump (s.item u).proc dl
    · obtain ⟨dl, rfl⟩ := hd
      cases h with
      | dump _ _ _ step =>
        cases step with
        | fail t pc =>
          rw [hpc] at pc
          cases pc
          exact .inr (.inl (by simp))
        | waited t rest ok first ended => exact .inl (by simpa using hpc)
        | start ok t rest pc | get t j blockId shardIdx i b owner pc | skip t j u ok part pc | found t j u ok part pc
        | copy t j u part pc | refuse t j u part pc | finish t pc | sync t ok pc | mark t u pc | submit t ok pc | done t pc =>
          rw [hpc] at pc
          cases pc
    · exact .inl (by rw [h.dumper_eq fun dl e => hd ⟨dl, e⟩, hpc])
  · rcases (h.wrapper _).marked hmark with hmark | ⟨hret, -⟩
    · exact .inr (.inl hmark)
    · exact .inr (.inr hret)
  · exact .inr (.inr (h.returned hret))

end Skips

/-! ## Every run -/

section Reach

variable [DecidableEq Block] {C : Config Block} {ok : Store Block → StoreLabel Block → Prop} {s s' : Store Block}
    {l : StoreLabel Block}
  {p t u : Nat}

theorem reach_dumpLine (h : Reach (cacheStore C) ok s) : DumpLine s := by
  refine Reach.inv_with (I := DumpLine) (J := fun s => Linked s ∧ Typed s) (fun _ hr => ⟨reach_linked hr, reach_typed hr⟩)
    (fun s hi => ⟨fun p => ?_, fun p t ht => ?_, fun p t ht => ?_, fun p t ht => ?_⟩)
    (fun _ _ _ hJ hI _ hst => (storeStep_case hst).dumpLine hJ.1 hJ.2 hI) h
  · rw [hi.dumpWaiting]
    exact List.nodup_nil
  · rw [hi.dumper] at ht
    cases ht
  · rw [hi.dumpWaiting] at ht
    cases ht
  · rw [hi.dumper] at ht
    cases ht

theorem reach_progress (h : Reach (cacheStore C) ok s) : Progress s := by
  refine Reach.inv_with (I := Progress) (J := fun s => Linked s ∧ Typed s ∧ DumpLine s)
    (fun _ hr => ⟨reach_linked hr, reach_typed hr, reach_dumpLine hr⟩)
    (fun s hi => ⟨fun p t j hpc => ?_, fun p t j u hpc => ?_, fun p t hpc => ?_, fun p t hpc => ?_, fun p t hpc => ?_⟩)
    (fun _ _ _ hJ hI _ hst => (storeStep_case hst).progress hJ.1 hJ.2.1 hJ.2.2 hI) h
  all_goals
    rw [hi.dumper] at hpc
    cases hpc

theorem reach_accounts (h : Reach (cacheStore C) ok s) : Accounts s := by
  refine Reach.inv_with (I := Accounts) (J := fun s => Linked s ∧ Typed s ∧ Progress s)
    (fun _ hr => ⟨reach_linked hr, reach_typed hr, reach_progress hr⟩) (fun s hi p t ht => ?_)
    (fun _ _ _ hJ hI _ hst => (storeStep_case hst).accounts hJ.1 hJ.2.1 hJ.2.2 hI) h
  have := ht.1
  rw [hi.wrapper] at this
  exact absurd this (Nat.not_lt_zero _)

theorem reach_shared (h : Reach (cacheStore C) ok s) : Shared s := by
  refine Reach.inv_with (I := Shared) (fun _ => reach_linked) (fun s hi u hu => ?_)
    (fun s l s' hl hI _ hst u hu hload hno => ?_) h
  · rw [hi.nItem] at hu
    omega
  · have hc := storeStep_case hst
    rcases hc.old_or_new hu with hu | ⟨rfl, hget⟩
    · have hf := hc.kept.fixed hu
      rw [hf.isLoad] at hload
      rw [hf.owner] at hno
      exact ((hc.move hl hu).shared hload hno (hI u hu hload hno)).1
    · cases hget with
      | load p t j blockId shardIdx i owner pc shard spec item got =>
        rw [item] at hload
        cases hload
      | dump p t j blockId shardIdx i owner pc shard spec item got => exact .inl (by rw [item]; rfl)

theorem Dumped.step (hr : Reach (cacheStore C) Any s) (hd : Dumped s) (hst : storeStep C s l = some s') : Dumped s' := by
  have hl := reach_linked hr
  have hc := storeStep_case hst
  intro v hv hx
  rcases hc.old_or_new hv with hv | ⟨rfl, hget⟩
  · have hf := hc.kept.fixed hv
    have hm := hc.move hl hv
    have hold : (s.item v).Persisting := ⟨hf.owner ▸ hx.owner, hm.side.2 hx.stage⟩
    have hlive : (s.item v).handle ≠ .released := by
      rw [reach_keeps hr v hv (by have := hold.stage; revert this; cases (s.item v).stage <;> decide)]
      decide
    obtain ⟨hfail, hready⟩ := hd v hv hold
    have hstays := ((hc.kept.live (reach_refInv hr) hv hlive).1 : s.buf.getState (s.item v).pos ≠ .loading → _)
    rw [hf.pos]
    refine ⟨Store.unfailed hr hst hv (hl.isDump v hv hold.stage) hold.owner hlive hfail, fun hdumping => ?_⟩
    have hwas : s.buf.getState (s.item v).pos = .ready := by
      rcases hm.dumping hdumping with hsame | hmarked
      · exact hready hsame
      · revert hfail hmarked
        cases s.buf.getState (s.item v).pos <;> simp
    rw [hstays (by rw [hwas]; decide)]
    exact hwas
  · cases hget with
    | load p t j blockId shardIdx i owner pc shard spec item got =>
      have := hx.stage
      rw [item] at this
      cases this
    | dump p t j blockId shardIdx i owner pc shard spec item got =>
      have howner := hx.owner
      rw [item] at howner ⊢
      have hzero := of_decide_eq_true (spec.owner.symm.trans howner)
      exact ⟨spec.fresh hzero, nofun⟩

theorem reach_dumped (h : Reach (cacheStore C) ok s) : Dumped s := by
  refine Reach.inv_with (I := Dumped) (fun _ hr => Reach.mono (fun _ _ _ => trivial) hr) (fun s hi v hv => ?_)
    (fun _ _ _ hr hI _ hst => hI.step hr hst) h
  rw [hi.nItem] at hv
  omega

/-- Since its `Get`, the node of item `u` has been READY. -/
def BeenReady (C : Config Block) (s : Store Block) (u : Nat) : Prop :=
  ∃ s₀, Reach (cacheStore C) Any s₀ ∧ Reach ((cacheStore C).startAt s₀) Any s ∧ u < s₀.nItem ∧ s₀.NodeReady u

theorem BeenReady.step (h : BeenReady C s u) (hst : storeStep C s l = some s') : BeenReady C s' u := by
  obtain ⟨s₀, h₀, hr, hu, hready⟩ := h
  exact ⟨s₀, h₀, .step l hr trivial hst, hu, hready⟩

theorem Store.NodeReady.been (h : s.NodeReady u) (hu : u < s.nItem) (hr : Reach (cacheStore C) Any s)
    (hst : storeStep C s l = some s') :
    BeenReady C s' u :=
  ⟨s, hr, .step l (.init rfl) trivial hst, hu, h⟩

/-- A node in use stays READY. -/
theorem BeenReady.still (h : BeenReady C s u) (hh : (s.item u).handle ≠ .released) : s.buf.getState (s.item u).pos = .ready := by
  obtain ⟨s₀, h₀, hr, hu, hready, -⟩ := h
  have hall : u < s.nItem ∧ ((s.item u).handle ≠ .released → s.buf.getState (s.item u).pos = .ready) := by
    clear hh
    induction hr with
    | init hi =>
      obtain rfl : _ = s₀ := hi
      exact ⟨hu, fun _ => hready⟩
    | @step s₁ s₂ a hr₁ _ hst ih =>
      have hk := (storeStep_case (C := C) hst).kept
      have hlt := ih.1
      refine ⟨by have := hk.nItem_le; omega, fun hh => ?_⟩
      have hh₁ : (s₁.item u).handle ≠ .released := fun e => hh (hk.released hlt e)
      have h₁ := ih.2 hh₁
      rw [(hk.fixed hlt).pos, (hk.live (reach_refInv (h₀.startAt hr₁)) hlt hh₁).1 (by rw [h₁]; decide)]
      exact h₁
  exact hall.2 hh

/-- A skipped shard's node has been READY, or another dump has it, or its task has failed. -/
def SkipsKept (C : Config Block) (s : Store Block) : Prop :=
  ∀ u, u < s.nItem → (s.item u).Skipped → BeenReady C s u ∨ s.Persisted u ∨ s.Excused u

/-- Another dump that has a shard keeps it in a run that loses none, or has made it READY. -/
theorem Store.Persisted.step (hr : Reach (cacheStore C) Any s) (hu : u < s.nItem) (hok : NoLostSkip s l)
    (hst : storeStep C s l = some s')
    (hskip : (s.item u).Skipped ∨ (s.item u).isLoad = false ∧ ∀ p dl, l = .dump p dl → ¬ DumpFails s p dl) (h : s.Persisted u) :
    BeenReady C s' u ∨ s'.Persisted u ∨ s'.Excused u := by
  have hl := reach_linked hr
  have hty := reach_typed hr
  have hc := storeStep_case hst
  obtain ⟨v, hvu, hk, hpos, hv⟩ := h
  have hlt : v < s.nItem := Nat.lt_trans hvu hu
  rcases hc.persisting hl hlt hv with hv' | ⟨⟨dl, rfl, hfails⟩, hstage⟩ | hdumping
  · refine .inr (.inl ⟨v, hvu, ?_, ?_, hv'⟩)
    · rw [hc.key_eq hty hu, hc.key_eq hty hlt, hk]
    · rw [(hc.kept.fixed hu).pos, (hc.kept.fixed hlt).pos, hpos]
  · -- the dump that has it fails
    obtain hskip | ⟨-, hno⟩ := hskip
    swap
    · exact absurd hfails (hno _ _ rfl)
    by_cases hsame : (s.item u).proc = (s.item v).proc ∧ (s.item u).task = (s.item v).task
    · refine .inr (.inr (.inl ?_))
      have hf := hc.kept.fixed hu
      rw [hf.proc, hf.task, hsame.1, hsame.2]
      cases hc with
      | dump _ _ _ step => exact step.fails hl (reach_dumpPhase hr) hlt hstage hfails
    · have hready := hok.2 hfails v u ⟨hvu, hu, rfl, hstage, hv.owner, hk, hpos, hskip, hsame⟩
      exact .inl (hready.been hu hr hst)
  · -- it is with the backend, and its node still its own
    have hheld := reach_keeps hr v hlt (by rw [hdumping]; rfl)
    obtain ⟨blockId, shardIdx, hkey, hnode⟩ := reach_keyInv hr v hlt
    have hready : s.NodeReady u := by
      refine ⟨hpos ▸ (reach_dumped hr v hlt hv).2 hdumping, blockId, shardIdx, hk ▸ hkey, ?_⟩
      exact hpos ▸ hnode (by rw [hheld]; decide)
    exact .inl (hready.been hu hr hst)

theorem SkipsKept.step (hr : Reach (cacheStore C) Any s) (hok : NoLostSkip s l) (hst : storeStep C s l = some s')
    (h : SkipsKept C s) :
    SkipsKept C s' := by
  have hl := reach_linked hr
  have hc := storeStep_case hst
  intro u hu hskip
  rcases hc.old_or_new hu with hu | ⟨rfl, hget⟩
  swap
  · cases hget with
    | load p t j blockId shardIdx i owner pc shard spec item got | dump p t j blockId shardIdx i owner pc shard spec item got =>
      have := hskip.stage
      rw [item] at this
      cases this
  have hf := hc.kept.fixed hu
  have hload : (s.item u).isLoad = false := hf.isLoad ▸ hskip.isLoad
  have hno : (s.item u).owner = false := hf.owner ▸ hskip.shared
  rcases ((hc.move hl hu).shared hload hno (reach_shared hr u hu hload hno)).2 hskip.stage with hover | ⟨⟨ok', part, rfl⟩, hpc⟩
  · have hskip : (s.item u).Skipped := ⟨hload, hno, hover⟩
    rcases h u hu hskip with hb | hp | he
    · exact .inl (hb.step hst)
    · exact hp.step hr hu hok hst (.inl hskip)
    · exact .inr (.inr (hc.excused hu he))
  · -- it is skipped by this step
    rcases hok.1 ok' part rfl _ _ u hpc hno with hready | hp
    · have hgot := (hl.dumpGot _ _ _ _ hpc).2.2.2.2
      have hheld := reach_keeps hr u hu (by rw [hgot]; rfl)
      obtain ⟨blockId, shardIdx, hkey, hnode⟩ := reach_keyInv hr u hu
      exact .inl (Store.NodeReady.been ⟨hready, blockId, shardIdx, hkey, hnode (by rw [hheld]; nofun)⟩ hu hr hst)
    · refine hp.step hr hu hok hst (.inr ⟨hload, fun q dl e hfails => ?_⟩)
      cases e
      cases hfails with
      | take t j v part pc owner unready =>
        rw [hpc] at pc
        cases pc
        rw [hno] at owner
        cases owner

theorem reach_skipsKept (h : Reach (cacheStore C) NoLostSkip s) : SkipsKept C s := by
  refine Reach.inv_with (I := SkipsKept C) (fun _ hr => Reach.mono (fun _ _ _ => trivial) hr) (fun s hi u hu => ?_)
    (fun _ _ _ hr hI hok hst => hI.step hr hok hst) h
  rw [hi.nItem] at hu
  omega

/-- Each shard of a task has been handed to the backend by it, or has been READY in the buffer,
    or another dump that owns its node takes it to the backend. -/
def DumpKept (C : Config Block) (s : Store Block) (p t : Nat) : Prop :=
  ∀ j, j < ((s.proc p).task t).desc.length → ∃ u, s.IsShard p t j u ∧ ((s.item u).handed ∨ BeenReady C s u ∨ s.Persisted u)

/-- No shard of a dump task that has completed well is lost, in a run that skips none that
    nobody else takes. -/
theorem dump_ok (h : Reach (cacheStore C) NoLostSkip s) (ht : (s.proc p).Task false t) (hz : (s.proc p).wrapper.counter t = 0)
    (hw : (s.proc p).wrapper.wait t ≠ .returned) (hf : (s.proc p).wrapper.failureSet t = false) : DumpKept C s p t := by
  have hr : Reach (cacheStore C) Any s := Reach.mono (fun _ _ _ => trivial) h
  have hline := reach_dumpLine hr
  have hrun : (s.proc p).dumper.task ≠ some t := fun e => hline.running p t e hz
  have hh : s.Handed p t := by
    rcases reach_accounts hr p t ht hz hw with hh | hm
    · exact hh
    · rw [hf] at hm
      cases hm
  intro j hj
  obtain ⟨u, hu, hx⟩ := hh j hj
  refine ⟨u, hu, ?_⟩
  rcases hx with hno | hx
  swap
  · exact .inl hx
  obtain ⟨hlt, rfl, rfl, -⟩ := hu
  have hload : (s.item u).isLoad = false := ((reach_typed hr).item u hlt).2.symm.trans ht.2
  have hover : (s.item u).stage = .ended := by
    rcases reach_shared hr u hlt hload hno with hgot | hover
    · exact absurd (by rw [(reach_linked hr).dumpGotOnly u hlt hgot]; rfl) hrun
    · exact hover
  rcases reach_skipsKept h u hlt ⟨hload, hno, hover⟩ with hb | hp | he | he | he
  · exact .inr (.inl hb)
  · exact .inr (.inr hp)
  · exact absurd (by rw [he]; rfl) hrun
  · rw [hf] at he
    cases he
  · exact absurd he hw

end Reach

/-- A check that implies `NoLostSkip`, for runs that skip at READY nodes only and in which no dump fails. -/
def skipsReady (s : Store Nat) : StoreLabel Nat → Bool
  | .dump p (.take ok _) =>
    match (s.proc p).dumper with
    | .got _ _ u => if (s.item u).owner then ok else s.buf.ready (s.item u).pos
    | _ => false
  | .dump _ (.sync ok) => ok
  | .dump _ (.submit ok) => ok
  | _ => true

theorem skipsReady_ok (s : Store Nat) (l : StoreLabel Nat) (h : skipsReady s l = true) : NoLostSkip s l := by
  cases l with
  | dump p dl =>
    refine ⟨?_, fun hf => ?_⟩
    · rintro ok part rfl t j u hpc hno
      simp only [skipsReady, hpc, hno, Bool.false_eq_true, if_false] at h
      exact .inl (of_decide_eq_true h)
    · cases hf with
      | take t j u part pc owner unready => simp [skipsReady, pc, owner] at h
      | sync t pc => cases h
      | submit t pc marked => cases h
  | _ => trivial

/-- The second dump of a key skips its shard, which the first has made READY. -/
theorem dump_ok_twice : ∃ s, Reach (cacheStore oneNode) NoLostSkip s ∧ ((s.proc 0).task 1).desc = [(7, 0)] ∧
    DumpKept oneNode s 0 1 := by
  obtain ⟨s, hs, hp⟩ := exists_of_replayOk (S := cacheStore oneNode) skipsReady skipsReady_ok
    (p := fun s => decide (1 < (s.proc 0).wrapper.nTask ∧ ((s.proc 0).task 1).isLoad = false ∧ (s.proc 0).wrapper.counter 1 = 0 ∧
      (s.proc 0).wrapper.wait 1 = .waiting ∧ (s.proc 0).wrapper.failureSet 1 = false ∧ ((s.proc 0).task 1).desc = [(7, 0)]))
    [.submit 0 false [(7, 0)] false, .submit 0 false [(7, 0)] false, .wait 0 (.call 1), .dump 0 (.start true), .dump 0 (.get 0),
      .dump 0 (.take true false), .dump 0 .finish, .dump 0 (.sync true), .dump 0 (.mark 0), .dump 0 (.submit true), .dump 0 .done,
      .dump 0 (.start true), .dump 0 (.get 0), .dump 0 (.take true false), .dump 0 .finish, .dump 0 .done] freshStore_init
      (by decide +kernel)
  obtain ⟨hlt, hdump, hz, hw, hf, hdesc⟩ := of_decide_eq_true hp
  exact ⟨s, hs, hdesc, dump_ok hs ⟨hlt, hdump⟩ hz (by rw [hw]; decide) hf⟩

/-- The dump is skipped behind a load, which fails: its `Wait` returns OK, and nobody has handed
    the shard to the backend or will. -/
theorem lost_to_load : ∃ s, Reach (cacheStore oneNode) Any s ∧ (s.proc 0).Task false 1 ∧ (s.proc 0).wrapper.counter 1 = 0 ∧
    (s.proc 0).wrapper.wait 1 = .waiting ∧ (s.proc 0).wrapper.failureSet 1 = false ∧ ¬ DumpKept oneNode s 0 1 := by
  obtain ⟨s, hs, hp⟩ := exists_of_replay (S := cacheStore oneNode)
    (p := fun s => decide ((1 < (s.proc 0).wrapper.nTask ∧ ((s.proc 0).task 1).isLoad = false) ∧
      (s.proc 0).wrapper.counter 1 = 0 ∧
      (s.proc 0).wrapper.wait 1 = .waiting ∧ (s.proc 0).wrapper.failureSet 1 = false ∧ ((s.proc 0).task 1).desc.length = 1 ∧
      s.nItem = 2 ∧ (s.item 0).task = 0 ∧ (s.item 0).stage = .failing ∧ (s.item 1).backend = .none ∧
      (s.item 1).handle = .dropping ∧
      s.buf.getState (s.item 1).pos = .failed))
    (loadOne ++
      [.submit 0 false [(7, 0)] false, .wait 0 (.call 1), .dump 0 (.start true), .dump 0 (.get 0), .dump 0 (.take true false),
        .dump 0 .finish, .dump 0 .done, .loadOver 0, .transfer 0 .take, .transfer 0 (.wait false)]) freshStore_init
        (by decide +kernel)
  obtain ⟨ht, hz, hw, hf, hlen, hn, htask, hstage, hback, hdrop, hfailed⟩ := of_decide_eq_true hp
  refine ⟨s, hs, ht, hz, hw, hf, fun hkept => ?_⟩
  obtain ⟨u, ⟨hu, -, hu1, -⟩, hx⟩ := hkept 0 (by omega)
  obtain rfl : u = 1 := by
    have : u ≠ 0 := fun e => by
      rw [e, htask] at hu1
      cases hu1
    omega
  rcases hx with hx | hx | ⟨v, hv, -, -, hx⟩
  · exact hx hback
  · have := hx.still (by rw [hdrop]; decide)
    rw [hfailed] at this
    cases this
  · obtain rfl : v = 0 := by omega
    have := hx.stage
    rw [hstage] at this
    cases this

end UnifiedCache.Cache
