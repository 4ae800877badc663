/-
  UnifiedCache.Cache.Orphans — every node in LOADING has an owner that will mark it.

  `Item.Duty`: a live owner's item at a stage from which the source goes on to a mark. A step
  takes an item off duty by marking its node, or, on some failure paths, by just dropping it: a
  queued load item of a failed task, a collected one of a task whose dispatch failed, the
  handles of a dump that failed to copy. The siblings of these paths mark first (`MarkFailed`
  after a refused `Load` and after a failed `Wait`).

  `MarksFirst` leaves out exactly these steps; in its runs a node in LOADING that is in use has
  an owner on duty (`loading_has_owner`). In `orphaned_reader` a load waits for nobody.
-/

import UnifiedCache.Cache.StoreItems

namespace UnifiedCache.Cache

open UnifiedCache.Base UnifiedCache.Detail

variable {Block : Type}

/-- A live owner that has yet to mark its node. -/
structure Item.Duty (x : Item) : Prop where
  owner : x.owner = true
  held : x.handle = .held
  stage : (x.stage = .got ∨ x.stage = .dumpGot ∨ x.stage = .copied ∨ x.stage = .synced) ∨
    (x.stage = .collected ∨ x.stage = .queued ∨ x.stage = .waiting) ∧ x.backend ≠ .none

/-- No owner's handle is dropped before its node is marked. -/
def MarksFirst (s : Store Block) : StoreLabel Block → Prop
  | .dispatch p .done => ∀ v, v < s.nItem → s.At p .collected v → (s.item v).owner = true →
      s.buf.getState (s.item v).pos ≠ .loading
  | .transfer u .take => s.failed u = true → (s.item u).owner = true → s.buf.getState (s.item u).pos ≠ .loading
  | .dump p (.take ok _) => ok = true ∨
      ∀ t j u, (s.proc p).dumper = .got t j u → (s.item u).owner = true → s.buf.getState (s.item u).pos = .ready
  | .dump p (.sync ok) => ok = true ∨ ∀ v, v < s.nItem → s.At p .copied v → s.buf.getState (s.item v).pos ≠ .loading
  | _ => True

/-- A step drops item `v` before its transfer is through. -/
def Store.Drops (s : Store Block) (v : Nat) : StoreLabel Block → Prop
  | .dispatch p .done => s.At p .collected v
  | .transfer u .take => u = v ∧ s.failed v = true
  | .dump p l => DumpFails s p l ∧ (s.item v).proc = p ∧
      ((s.item v).stage = .dumpGot ∨ (s.item v).stage = .copied ∨ (s.item v).stage = .synced)
  | _ => False

/-- The node of a load whose submission the backend refused has been marked. -/
def RefusedMarked (s : Store Block) : Prop :=
  ∀ u, u < s.nItem → (s.item u).stage = .got →
    (s.proc (s.item u).proc).dispatcher = .got (s.item u).task (s.item u).shard u ∨ s.buf.getState (s.item u).pos ≠ .loading

/-- A node in LOADING that is in use has an owner on duty. -/
def NoOrphan (s : Store Block) : Prop :=
  ∀ v, v < s.nItem → (s.item v).handle ≠ .released → s.buf.getState (s.item v).pos = .loading →
    ∃ u, u < s.nItem ∧ (s.item u).pos = (s.item v).pos ∧ (s.item u).Duty

section Orphans

variable {C : Config Block} {s s' : Store Block} {b : Buf Block} {l : StoreLabel Block} {p u v : Nat} {x : Item}

/-- An owner leaves its duty by marking the node, when it has been marked, or by being dropped. -/
theorem Move.duty (hrm : RefusedMarked s) (hv : v < s.nItem) (hd : (s.item v).Duty) (h : Move C s b v l x) :
    x.Duty ∨ (b.getState (s.item v).pos ≠ .loading ∨ s.buf.getState (s.item v).pos ≠ .loading) ∨ s.Drops v l := by
  obtain ⟨howner, hheld, hstage⟩ := hd
  cases h with
  | same l other => exact .inl ⟨howner, hheld, hstage⟩
  | collect p ok backend pc proc stage mode submitted =>
    obtain ⟨rfl, -⟩ | ⟨-, hready⟩ := submitted
    · exact .inl ⟨howner, hheld, .inr ⟨.inl rfl, by simp⟩⟩
    · exact .inr (.inl (.inr (by rw [hready howner]; decide)))
  | queue p ok backend pc proc stage mode submitted =>
    obtain ⟨rfl, -⟩ | ⟨-, hready⟩ := submitted
    · exact .inl ⟨howner, hheld, .inr ⟨.inr (.inl rfl), by simp⟩⟩
    · exact .inr (.inl (.inr (by rw [hready howner]; decide)))
  | push p t pc collected first =>
    have hb : (s.item v).backend ≠ .none := by simpa [collected.2.2] using hstage
    exact .inl ⟨by simpa [Store.pushItem] using howner, by simpa [Store.pushItem] using hheld,
      .inr ⟨.inr (.inl (by simp [Store.pushItem])), by simpa [Store.pushItem] using hb⟩⟩
  | abandon p t pc proc stage =>
    refine .inr ?_
    rcases stage with stage | stage
    · refine .inl (.inr ((hrm v hv stage).resolve_left fun e => ?_))
      rw [proc, pc] at e
      cases e
    · exact .inr ⟨hv, proc, stage⟩
  | skip stage next failed waiter => exact .inr (.inr ⟨rfl, failed⟩)
  | skipLast stage next failed waiter => exact .inr (.inr ⟨rfl, failed⟩)
  | take stage next fine =>
    have hb : (s.item v).backend ≠ .none := by simpa [stage] using hstage
    exact .inl ⟨howner, hheld, .inr ⟨.inr (.inr rfl), hb⟩⟩
  | waited ok stage ended settled => exact .inr (.inl (.inl settled))
  | look stage' stage backend outcome => simp [stage, backend] at hstage
  | skipDump p ok part pc proc stage shared =>
    rw [howner] at shared
    cases shared
  | found p ok part pc proc stage owner ready => exact .inl ⟨howner, hheld, .inl (.inr (.inr (.inl rfl)))⟩
  | copyDump p part pc proc stage owner unready => exact .inl ⟨howner, hheld, .inl (.inr (.inr (.inl rfl)))⟩
  | refuseDump p part pc proc stage owner unready => exact .inr (.inr ⟨.take _ _ v part pc owner unready, proc, .inl stage⟩)
  | giveUp p l proc why stage => exact .inr (.inr ⟨why, proc, .inr stage⟩)
  | syncDump p t pc proc isLoad =>
    refine .inl ⟨howner, hheld, ?_⟩
    simp only
    split
    · exact .inl (.inr (.inr (.inr rfl)))
    · exact hstage
  | submitDump p t pc proc stage settled => exact .inr (.inl (.inr settled))
  | loadOver | dumpOver => exact .inl ⟨howner, hheld, hstage.imp id fun h => ⟨h.1, by simp⟩⟩
  | synced u other proc uStage stage isLoad => exact .inl ⟨howner, hheld, hstage⟩
  | release dropping =>
    rw [hheld] at dropping
    cases dropping
  | _ => simp_all

/-- What `MarksFirst` lets a step drop has been marked. -/
theorem MarksFirst.drops (hl : Linked s) (hp : DumpPhase s) (hok : MarksFirst s l) (hv : v < s.nItem)
    (ho : (s.item v).owner = true) (h : s.Drops v l) :
    s.buf.getState (s.item v).pos ≠ .loading := by
  cases l with
  | dispatch p dl =>
    cases dl with
    | done => exact hok v hv h ho
    | _ => cases h
  | transfer u tl =>
    cases tl with
    | take =>
      obtain ⟨rfl, hf⟩ := h
      exact hok hf ho
    | _ => cases h
  | dump p dl =>
    obtain ⟨hfails, hproc, hst⟩ := h
    -- the handles at each stage are those of the dispatcher's program point
    have hcopied : (s.item v).stage = .copied → (s.proc p).dumper.collects (s.item v).task := fun e => hproc ▸ hp.copied v hv e
    have hsynced : (s.item v).stage = .synced → (s.proc p).dumper = .mark (s.item v).task := fun e => hproc ▸ hp.synced v hv e
    have hgot : (s.item v).stage = .dumpGot → (s.proc p).dumper = .got (s.item v).task (s.item v).shard v := fun e =>
      hproc ▸ hl.dumpGotOnly v hv e
    cases hfails with
    | take t j u part pc owner unready => exact absurd (hok.resolve_left nofun _ _ _ pc owner) unready
    | sync t pc =>
      rcases hst with hst | hst | hst
      · have := hgot hst
        rw [pc] at this
        cases this
      · exact hok.resolve_left nofun v hv ⟨hv, hproc, hst⟩
      · have := hsynced hst
        rw [pc] at this
        cases this
    | submit t pc marked =>
      rcases hst with hst | hst | hst
      · have := hgot hst
        rw [pc] at this
        cases this
      · have := hcopied hst
        rw [pc] at this
        exact this.elim
      · exact marked v hv ⟨hv, hproc, hst⟩
  | _ => cases h

theorem StoreCase.refusedMarked (hl : Linked s) (hr : RefInv s) (hk : Keeps s) (hrm : RefusedMarked s) (h : StoreCase C s l s') :
    RefusedMarked s' := by
  intro u hu hg
  rcases h.old_or_new hu with hu | ⟨rfl, hget⟩
  · have hf := h.kept.fixed hu
    -- a refused handle is still live, so that its node keeps the mark
    have hmark : (s.item u).stage = .got → s.buf.getState (s.item u).pos ≠ .loading →
        s'.buf.getState (s.item u).pos ≠ .loading := by
      intro hst hne
      have hlive := h.kept.live hr hu (by rw [hk u hu (by rw [hst]; rfl)]; decide)
      rwa [hlive.1 hne]
    rw [hf.proc, hf.task, hf.shard, hf.pos]
    by_cases hd : ∃ dl, l = .dispatch (s.item u).proc dl
    · obtain ⟨dl, rfl⟩ := hd
      cases h with
      | dispatch _ _ _ step =>
        obtain ⟨-, hne⟩ | ⟨-, hpc, hst, -⟩ := step.gotOnly hl hu hg
        · exact .inr hne
        · refine .inr (hmark hst ((hrm u hu hst).resolve_left fun e => ?_))
          rw [hpc] at e
          cases e
    · have hne := fun dl e => hd ⟨dl, e⟩
      have hst := ((h.move hl hu).dispatching hne (.inl rfl)).mp hg
      rw [h.dispatcher_eq hne]
      exact (hrm u hu hst).imp id (hmark hst)
  · cases hget with
    | load p t j blockId shardIdx i owner pc shard spec item got =>
      rw [item]
      exact .inl got
    | dump p t j blockId shardIdx i owner pc shard spec item got =>
      rw [item] at hg
      cases hg

/-- After a step, an owner is on duty, or its node has been marked, or it has been dropped. -/
theorem StoreCase.duty (hl : Linked s) (hr : RefInv s) (hrm : RefusedMarked s) (hu : u < s.nItem) (hd : (s.item u).Duty)
    (h : StoreCase C s l s') : (s'.item u).Duty ∨ s'.buf.getState (s.item u).pos ≠ .loading ∨ s.Drops u l := by
  refine ((h.move hl hu).duty hrm hu hd).imp id (.imp (fun hmarked => ?_) id)
  rcases hmarked with hm | hm
  · exact hm
  · rwa [(h.kept.live hr hu (by rw [hd.held]; decide)).1 hm]

theorem StoreCase.duty_marked (hl : Linked s) (hp : DumpPhase s) (hr : RefInv s) (hrm : RefusedMarked s) (hok : MarksFirst s l)
    (hu : u < s.nItem)
    (hd : (s.item u).Duty) (h : StoreCase C s l s') : (s'.item u).Duty ∨ s'.buf.getState (s.item u).pos ≠ .loading := by
  refine (h.duty hl hr hrm hu hd).imp id fun hout => ?_
  rcases hout with hm | hdrop
  · exact hm
  · rw [(h.kept.live hr hu (by rw [hd.held]; decide)).1 (hok.drops hl hp hu hd.owner hdrop)]
    exact hok.drops hl hp hu hd.owner hdrop

theorem StoreCase.noOrphan (hl : Linked s) (hp : DumpPhase s) (hr : RefInv s) (hrm : RefusedMarked s) (hok : MarksFirst s l)
    (hn : NoOrphan s) (h : StoreCase C s l s') : NoOrphan s' := by
  have hle := h.kept.nItem_le
  -- the node of an item that was live has its owner, or has been marked
  have hold : ∀ v, v < s.nItem → (s.item v).handle ≠ .released → s'.buf.getState (s.item v).pos = .loading →
      ∃ u, u < s'.nItem ∧ (s'.item u).pos = (s.item v).pos ∧ (s'.item u).Duty := by
    intro v hv hh hload
    obtain ⟨u, hu, hpos, hd⟩ := hn v hv hh ((h.kept.live hr hv hh).2.1 hload)
    refine ⟨u, by omega, (h.kept.fixed hu).pos.trans hpos, (h.duty_marked hl hp hr hrm hok hu hd).resolve_right fun hne => hne ?_⟩
    rw [hpos]
    exact hload
  -- a new handle is the owner's, or finds one that is live
  have hnew : ∀ i c owner, GetSpec s.buf s'.buf c i owner → s'.buf.getState i = .loading → owner = false →
      ∃ u, u < s'.nItem ∧ (s'.item u).pos = i ∧ (s'.item u).Duty := by
    intro i c owner spec hload hfalse
    have hpos : 0 < (s.buf.metaAt i).reference := by
      have := spec.owner
      rw [hfalse, eq_comm, decide_eq_false_iff_not] at this
      omega
    obtain ⟨w, hw, hh, rfl⟩ := (hr.pos_iff i).mp hpos
    exact hold w hw hh hload
  intro v hv hh hload
  rcases h.old_or_new hv with hv | ⟨rfl, hget⟩
  · have hf := h.kept.fixed hv
    rw [hf.pos] at hload ⊢
    exact hold v hv (fun e => hh (h.kept.released hv e)) hload
  · cases hget with
    | load p t j blockId shardIdx i owner pc shard spec item got =>
      rw [item] at hload ⊢
      cases owner with
      | true => exact ⟨s.nItem, hv, by rw [item], by rw [item]; exact ⟨rfl, rfl, .inl (.inl rfl)⟩⟩
      | false => exact hnew i _ _ spec hload rfl
    | dump p t j blockId shardIdx i owner pc shard spec item got =>
      rw [item] at hload ⊢
      cases owner with
      | true => exact ⟨s.nItem, hv, by rw [item], by rw [item]; exact ⟨rfl, rfl, .inl (.inr (.inl rfl))⟩⟩
      | false => exact hnew i _ _ spec hload rfl

end Orphans

/-! ## Every run -/

section Reach

variable [DecidableEq Block] {C : Config Block} {ok : Store Block → StoreLabel Block → Prop} {s : Store Block}

theorem reach_refusedMarked (h : Reach (cacheStore C) ok s) : RefusedMarked s := by
  refine Reach.inv_with (I := RefusedMarked) (J := fun s => Linked s ∧ RefInv s ∧ Keeps s)
    (fun _ hr => ⟨reach_linked hr, reach_refInv hr, reach_keeps hr⟩) (fun s hi u hu => ?_)
    (fun _ _ _ hJ hI _ hst => (storeStep_case hst).refusedMarked hJ.1 hJ.2.1 hJ.2.2 hI) h
  rw [hi.nItem] at hu
  omega

theorem reach_noOrphan (h : Reach (cacheStore C) MarksFirst s) : NoOrphan s := by
  refine Reach.inv_with (I := NoOrphan) (J := fun s => Linked s ∧ DumpPhase s ∧ RefInv s ∧ RefusedMarked s)
    (fun _ hr => ⟨reach_linked hr, reach_dumpPhase hr, reach_refInv hr, reach_refusedMarked hr⟩) (fun s hi v hv => ?_)
    (fun _ _ _ hJ hI hok hst => (storeStep_case hst).noOrphan hJ.1 hJ.2.1 hJ.2.2.1 hJ.2.2.2 hok hI) h
  rw [hi.nItem] at hv
  omega

/-- In a run that marks before it drops, a node in LOADING that is in use has an owner on duty;
    an owner leaves its duty only when the node has been marked; and a load that waits for
    another's mark waits for such an owner. -/
theorem loading_has_owner (h : Reach (cacheStore C) MarksFirst s) (i : Nat) (hload : s.buf.getState i = .loading)
    (hpos : 0 < (s.buf.metaAt i).reference) :
    (∃ u, u < s.nItem ∧ (s.item u).pos = i ∧ (s.item u).Duty ∧
      ∀ v, v < s.nItem → (s.item v).pos = i → (s.item v).stage = .waiting ∨ (s.item v).stage = .spinning →
      (s.item v).backend = .none →
        u ≠ v) ∧
      ∀ u l s', u < s.nItem → (s.item u).pos = i → (s.item u).Duty → MarksFirst s l → storeStep C s l = some s' →
        (s'.item u).Duty ∨ s'.buf.getState i ≠ .loading := by
  refine ⟨?_, fun u l s' hu hi hd hok hst => ?_⟩
  · obtain ⟨w, hw, hh, rfl⟩ := ((reach_refInv h).pos_iff i).mp hpos
    obtain ⟨u, hu, hup, hd⟩ := reach_noOrphan h w hw hh hload
    refine ⟨u, hu, hup, hd, fun v hv _ hwait hnone => ?_⟩
    intro e
    subst e
    have hstage := hd.stage
    rcases hwait with hwait | hwait <;> simp [hwait, hnone] at hstage
  · rw [← hi]
    exact (storeStep_case hst).duty_marked (reach_linked h) (reach_dumpPhase h) (reach_refInv h) (reach_refusedMarked h) hok hu hd

end Reach

/-- A check that implies `MarksFirst`, for runs that take no step it looks at. -/
def beforeTransfer (_ : Store Nat) : StoreLabel Nat → Bool
  | .dispatch _ .done => false
  | .transfer _ .take => false
  | .dump _ (.take _ _) => false
  | .dump _ (.sync _) => false
  | _ => true

theorem beforeTransfer_ok (s : Store Nat) (l : StoreLabel Nat) (h : beforeTransfer s l = true) : MarksFirst s l := by
  unfold beforeTransfer at h
  unfold MarksFirst
  split at h <;> simp_all

/-- A queued owner is on duty. -/
theorem loading_has_owner_queued : ∃ s, Reach (cacheStore oneNode) MarksFirst s ∧ s.buf.getState 0 = .loading ∧
    0 < (s.buf.metaAt 0).reference ∧ ∃ u, u < s.nItem ∧ (s.item u).pos = 0 ∧ (s.item u).Duty := by
  obtain ⟨s, hs, hp⟩ := exists_of_replayOk (S := cacheStore oneNode) beforeTransfer beforeTransfer_ok
    (p := fun s => decide (s.buf.getState 0 = .loading ∧ 0 < (s.buf.metaAt 0).reference)) loadOne freshStore_init (by decide)
  obtain ⟨hload, hpos⟩ := of_decide_eq_true hp
  obtain ⟨⟨u, hu, hup, hd, -⟩, -⟩ := loading_has_owner hs 0 hload hpos
  exact ⟨s, hs, hload, hpos, u, hu, hup, hd⟩

/-- The transfer thread of process 0 skips the owner's shard: the load of process 1 waits for
    nobody. -/
theorem orphaned_reader : ∃ s, Reach (cacheStore oneNode) Any s ∧ s.buf.getState 0 = .loading ∧ 0 < (s.buf.metaAt 0).reference ∧
    (s.item 1).stage = .waiting ∧ (s.item 1).pos = 0 ∧ (s.item 1).backend = .none ∧
    ∀ u, u < s.nItem → (s.item u).pos = 0 → ¬ (s.item u).Duty := by
  obtain ⟨s, hs, hp⟩ := exists_of_replay (S := cacheStore oneNode)
    (p := fun s => decide (s.buf.getState 0 = .loading ∧ 0 < (s.buf.metaAt 0).reference ∧ (s.item 1).stage = .waiting ∧
      (s.item 1).pos = 0 ∧ (s.item 1).backend = .none ∧
      ∀ u, u < s.nItem → (s.item u).owner = false ∨ (s.item u).handle = .released))
    (loadOne ++
      [.submit 1 true [(7, 0)] false, .dispatch 1 .start, .dispatch 1 (.get 0), .dispatch 1 (.submit true), .dispatch 1 .finish,
        .transfer 1 .take, .wait 0 (.timeout 0), .transfer 0 .take, .transfer 0 .done, .release 0]) freshStore_init (by decide)
  obtain ⟨hload, hpos, hst, hp0, hnone, hall⟩ := of_decide_eq_true hp
  refine ⟨s, hs, hload, hpos, hst, hp0, hnone, fun u hu _ hd => ?_⟩
  rcases hall u hu with h | h
  · rw [hd.owner] at h
    cases h
  · rw [hd.held] at h
    cases h

end UnifiedCache.Cache
