/-
  UnifiedCache.Cache.Reuse — a buffer node is not reused under an operation on its bytes.

  A node whose count is zero may be handed to another key by `Alloc`. Its items have all been
  released then (`RefInv`), so what is asked of a handle is that it is not let go while the
  backend or a copy engine is at work on the node: `Item.Sane`, a table of the stages.

  The queues do not keep it on their failure paths: a queued load item of a failed task is
  dropped with its backend load outstanding, and so are the collected ones of a task whose
  dispatch failed; a failed copy or synchronization drops handles under copies that were issued, and
  a backend's wait that fails under its operation leaves that running.
  `QuietDrops` leaves out exactly these steps; in its runs a node at zero is quiet
  (`quiet_at_zero`). `reused_under_load` is a run that is not.
-/

import UnifiedCache.Cache.StoreItems

namespace UnifiedCache.Cache

open UnifiedCache.Base UnifiedCache.Detail

variable {Block : Type}

/-- Neither the backend nor a copy engine is at work on the node for the item. -/
def Item.Quiet (x : Item) : Prop := x.backend ≠ .running ∧ x.copying = false

/-- May the backend be at work for an item at the stage? -/
def Stage.mayRun : Stage → Bool
  | .collected | .queued | .waiting | .dumping => true
  | _ => false

/-- May a copy be outstanding? -/
def Stage.mayCopy : Stage → Bool
  | .syncing | .holder | .copied => true
  | _ => false

/-- Before the backend is asked. -/
def Stage.early : Stage → Bool
  | .got | .dumpGot | .copied | .synced => true
  | _ => false

structure Item.Sane (x : Item) : Prop where
  runs : x.backend = .running → x.stage.mayRun = true
  copies : x.copying = true → x.stage.mayCopy = true
  early : x.stage.early = true → x.backend = .none

/-- Each handle is let go when the operations on its node are over. -/
def QuietDrops (s : Store Block) : StoreLabel Block → Prop
  | .dispatch p .done => ∀ v, v < s.nItem → s.At p .collected v → (s.item v).backend ≠ .running
  | .transfer u .take => s.failed u = true → (s.item u).backend ≠ .running ∧
      ((s.item u).waiter = true → ∀ v, v < s.nItem → s.At (s.item u).proc .holder v → (s.item v).copying = false)
  | .transfer u (.wait ok) => ok = true ∨ (s.item u).backend ≠ .running
  | .transfer _ (.copy ok part) => ok = true ∨ part = false
  | .transfer _ (.flush ok part) => ok = true ∨ part = false
  | .transfer u (.sync ok) => ok = true ∨ (s.item u).copying = false ∧
      ∀ v, v < s.nItem → s.At (s.item u).proc .holder v → (s.item v).copying = false
  | .dump p (.take ok part) => ok = true ∨ ∀ t j u, (s.proc p).dumper = .got t j u → (s.item u).owner = true →
      s.buf.getState (s.item u).pos ≠ .ready →
        part = false ∧ ∀ v, v < s.nItem → s.At p .copied v → (s.item v).copying = false
  | .dump p (.sync ok) => ok = true ∨ ∀ v, v < s.nItem → s.At p .copied v → (s.item v).copying = false
  | .dump p (.waited ok) => ok = true ∨ ∀ t rest, (s.proc p).dumping = t :: rest →
      ∀ v, v < s.nItem → s.InContext p t v → (s.item v).backend ≠ .running
  | _ => True

/-- In task-launch mode the holder's items are copied by the flush that is being synchronized. -/
def HolderDry (C : Config Block) (s : Store Block) : Prop :=
  ∀ v, v < s.nItem → C.taskLaunch (s.item v).proc = true → (s.item v).stage = .holder → (s.item v).copying = true →
    ∃ u, u < s.nItem ∧ (s.item u).proc = (s.item v).proc ∧ (s.item u).stage = .syncing

section Sane

variable {C : Config Block} {s s' : Store Block} {b : Buf Block} {l : StoreLabel Block} {v : Nat} {x : Item}

namespace Item

theorem sane_start (p t j i : Nat) (owner isLoad : Bool) : (start p t j i owner isLoad).Sane := ⟨nofun, nofun, fun _ => rfl⟩

theorem Sane.noRun (h : x.Sane) (hs : x.stage.mayRun = false) : x.backend ≠ .running := fun e => by
  have := h.runs e
  rw [hs] at this
  cases this

theorem Sane.noCopy (h : x.Sane) (hs : x.stage.mayCopy = false) : x.copying = false := by
  by_contra e
  have := h.copies (by simpa using e)
  rw [hs] at this
  cases this

theorem Quiet.sane (h : x.Quiet) (hs : x.stage.early = false) : x.Sane := by
  refine ⟨fun e => absurd e h.1, fun e => ?_, fun e => ?_⟩
  · rw [h.2] at e
    cases e
  · rw [hs] at e
    cases e

theorem Quiet.sane_drop (h : x.Quiet) : x.drop.Sane := Quiet.sane (x := x.drop) h rfl

end Item

/-- In task-launch mode a failing transfer thread's holder has no copies outstanding. -/
theorem HolderDry.failing (hdry : HolderDry C s) (hl : Linked s) {u : Nat} (hu : u < s.nItem) (hv : v < s.nItem)
    (hproc : (s.item v).proc = (s.item u).proc) (hfail : (s.item u).stage = .failing)
    (hmode : C.taskLaunch (s.item u).proc = true)
    (hholder : (s.item v).stage = .holder) : (s.item v).copying = false := by
  by_contra hc
  obtain ⟨w, hw, hwp, hws⟩ := hdry v hv (hproc ▸ hmode) hholder (by simpa using hc)
  have : u = w := hl.alone u w hu hw (hproc ▸ hwp).symm (hfail ▸ rfl) (hws ▸ rfl)
  rw [this, hws] at hfail
  cases hfail

/-- A step that drops no handle too early keeps the table. -/
theorem Move.sane (hl : Linked s) (hp : DumpPhase s) (hdry : HolderDry C s) (hu : ∀ u, l.mover = some u → u < s.nItem)
    (hv : v < s.nItem)
    (hok : QuietDrops s l) (hx : (s.item v).Sane) (h : Move C s b v l x) : x.Sane := by
  cases h with
  | same l other => exact hx
  | collect p ok backend pc proc stage mode submitted =>
    have hcopy := hx.noCopy (by rw [stage]; rfl)
    exact ⟨fun _ => rfl, fun e => (by rw [hcopy] at e; cases e), by intros; contradiction⟩
  | queue p ok backend pc proc stage mode submitted =>
    have hcopy := hx.noCopy (by rw [stage]; rfl)
    exact ⟨fun _ => rfl, fun e => (by rw [hcopy] at e; cases e), by intros; contradiction⟩
  | push p t pc collected first =>
    have hcopy := hx.noCopy (by rw [collected.2.2]; rfl)
    refine ⟨fun _ => ?_, fun e => ?_, fun e => ?_⟩
    · simp [Store.pushItem, Stage.mayRun]
    · simp [Store.pushItem, hcopy] at e
    · simp [Store.pushItem, Stage.early] at e
  | abandon p t pc proc stage =>
    have hcopy : (s.item v).copying = false := by rcases stage with stage | stage <;> exact hx.noCopy (by rw [stage]; rfl)
    refine Item.Quiet.sane_drop ⟨?_, hcopy⟩
    rcases stage with stage | stage
    · exact hx.noRun (by rw [stage]; rfl)
    · exact hok v hv ⟨hv, proc, stage⟩
  | skip stage next failed waiter => exact Item.Quiet.sane_drop ⟨(hok failed).1, hx.noCopy (by rw [stage]; rfl)⟩
  | skipLast stage next failed waiter =>
    have hq : (s.item v).Quiet := ⟨(hok failed).1, hx.noCopy (by rw [stage]; rfl)⟩
    exact Item.Quiet.sane hq rfl
  | take stage next fine =>
    have hcopy := hx.noCopy (by rw [stage]; rfl)
    exact ⟨fun _ => rfl, fun e => (by rw [hcopy] at e; cases e), by intros; contradiction⟩
  | waited ok stage ended settled =>
    have hrun : (s.item v).backend ≠ .running := by
      rcases ended with ended | ⟨rfl, running⟩
      · rw [ended]
        decide
      · exact hok.resolve_left Bool.false_ne_true
    have hq : (s.item v).Quiet := ⟨hrun, hx.noCopy (by rw [stage]; rfl)⟩
    exact Item.Quiet.sane hq (by cases ok <;> rfl)
  | look stage' stage backend outcome =>
    have hq : (s.item v).Quiet := ⟨by rw [backend]; decide, hx.noCopy (by rw [stage]; rfl)⟩
    refine Item.Quiet.sane hq ?_
    obtain ⟨-, rfl⟩ | ⟨-, rfl⟩ | ⟨-, rfl⟩ := outcome <;> rfl
  | check stage =>
    have hq : (s.item v).Quiet := ⟨hx.noRun (by rw [stage]; rfl), hx.noCopy (by rw [stage]; rfl)⟩
    exact Item.Quiet.sane hq (by cases s.failed v <;> rfl)
  | hold stage mode =>
    have hq : (s.item v).Quiet := ⟨hx.noRun (by rw [stage]; rfl), hx.noCopy (by rw [stage]; rfl)⟩
    exact Item.Quiet.sane hq (by cases (s.item v).launchBoundary <;> rfl)
  | copy ok part stage mode =>
    have hrun := hx.noRun (by rw [stage]; rfl)
    cases ok with
    | true =>
      refine ⟨fun e => absurd e hrun, fun _ => ?_, fun e => ?_⟩ <;> cases hw : (s.item v).waiter
      all_goals simp_all [Stage.mayCopy, Stage.early]
    | false =>
      have hpart := hok.resolve_left (by simp)
      exact Item.Quiet.sane ⟨hrun, hpart⟩ rfl
  | flush part stage => exact ⟨fun e => absurd e (hx.noRun (by rw [stage]; rfl)), fun _ => rfl, by intros; contradiction⟩
  | flushFails part stage =>
    have hpart := hok.resolve_left (by simp)
    exact Item.Quiet.sane ⟨hx.noRun (by rw [stage]; rfl), hpart⟩ rfl
  | sync ok h stage handle =>
    have hrun := hx.noRun (by rw [stage]; rfl)
    cases ok with
    | true => exact Item.Quiet.sane ⟨hrun, by simp⟩ rfl
    | false => exact Item.Quiet.sane ⟨hrun, by simp [(hok.resolve_left (by simp)).1]⟩ rfl
  | fail stage =>
    have hq : (s.item v).Quiet := ⟨hx.noRun (by rw [stage]; rfl), hx.noCopy (by rw [stage]; rfl)⟩
    exact Item.Quiet.sane hq rfl
  | done stage => exact Item.Quiet.sane_drop ⟨hx.noRun (by rw [stage]; rfl), hx.noCopy (by rw [stage]; rfl)⟩
  | flushed u part other proc uStage stage =>
    refine ⟨fun e => absurd e (hx.noRun (by rw [stage]; rfl)), fun _ => ?_, fun e => ?_⟩
    · simp [stage, Stage.mayCopy]
    · simp [stage, Stage.early] at e
  | cleared u l other proc why stage =>
    have hrun := hx.noRun (by rw [stage]; rfl)
    have hcopy : holderCopying (s.item v) l = false := by
      cases why with
      | take uStage next failed waiter => exact (hok failed).2 waiter v hv ⟨hv, proc, stage⟩
      | flush part uStage => exact hok.resolve_left (by simp)
      | sync ok uStage =>
        cases ok with
        | true => simp [holderCopying, hl.isLoad v hv (by rw [stage]; rfl)]
        | false => simp [holderCopying, (hok.resolve_left (by simp)).2 v hv ⟨hv, proc, stage⟩]
      | fail uStage mode => exact hdry.failing hl (hu u rfl) hv proc uStage mode stage
    exact Item.Quiet.sane ⟨hrun, hcopy⟩ rfl
  | synced u other proc uStage stage isLoad => exact ⟨hx.runs, by simp, hx.early⟩
  | skipDump p ok part pc proc stage shared =>
    exact Item.Quiet.sane_drop ⟨hx.noRun (by rw [stage]; rfl), hx.noCopy (by rw [stage]; rfl)⟩
  | found p ok part pc proc stage owner ready =>
    have hcopy := hx.noCopy (by rw [stage]; rfl)
    exact ⟨fun e => absurd e (hx.noRun (by rw [stage]; rfl)), fun _ => rfl, fun _ => hx.early (by rw [stage]; rfl)⟩
  | copyDump p part pc proc stage owner unready =>
    exact ⟨fun e => absurd e (hx.noRun (by rw [stage]; rfl)), fun _ => rfl, fun _ => hx.early (by rw [stage]; rfl)⟩
  | refuseDump p part pc proc stage owner unready =>
    have hpart := (hok.resolve_left (by simp) _ _ _ pc owner unready).1
    exact Item.Quiet.sane ⟨hx.noRun (by rw [stage]; rfl), hpart⟩ rfl
  | giveUp p l proc why stage =>
    have hrun : (s.item v).backend ≠ .running := by rcases stage with stage | stage <;> exact hx.noRun (by rw [stage]; rfl)
    refine Item.Quiet.sane_drop ⟨hrun, ?_⟩
    rcases stage with stage | stage
    · cases why with
      | take t j u part pc owner unready => exact (hok.resolve_left (by simp) _ _ _ pc owner unready).2 v hv ⟨hv, proc, stage⟩
      | sync t pc => exact hok.resolve_left (by simp) v hv ⟨hv, proc, stage⟩
      | submit t pc marked =>
        -- all of the context has been synchronized
        have := hp.copied v hv stage
        rw [proc, pc] at this
        exact this.elim
    · exact hx.noCopy (by rw [stage]; rfl)
  | syncDump p t pc proc isLoad =>
    refine ⟨fun e => ?_, by simp, fun e => ?_⟩ <;> simp only at e ⊢
    · rw [if_neg fun h => absurd e (hx.noRun (by rw [h]; rfl))]
      exact hx.runs e
    · split at e
      · next h => exact hx.early (by rw [h]; rfl)
      · exact hx.early e
  | submitDump p t pc proc stage settled =>
    have hcopy := hx.noCopy (by rw [stage]; rfl)
    exact ⟨fun _ => rfl, fun e => (by rw [hcopy] at e; cases e), by intros; contradiction⟩
  | waitedDump p t rest ok first proc stage task ended =>
    refine Item.Quiet.sane_drop ⟨?_, hx.noCopy (by rw [stage]; rfl)⟩
    rcases hok with hok | hok
    · rw [ended hok]
      decide
    · exact hok t rest first v hv ⟨⟨hv, proc, stage⟩, task⟩
  | loadOver isLoad running =>
    refine ⟨by simp, hx.copies, fun e => ?_⟩
    have := hx.early e
    rw [running] at this
    cases this
  | dumpOver p t proc task isLoad running =>
    refine ⟨by simp, hx.copies, fun e => ?_⟩
    have := hx.early e
    rw [running] at this
    cases this
  | release dropping => exact ⟨hx.runs, hx.copies, hx.early⟩

theorem StoreCase.holderDry (hl : Linked s) (hs : ∀ v, v < s.nItem → (s.item v).Sane) (hdry : HolderDry C s)
    (h : StoreCase C s l s') :
    HolderDry C s' := by
  intro v hv hmode hholder hcopy
  rcases h.old_or_new hv with hv | ⟨rfl, hget⟩
  swap
  · cases hget with
    | load p t j blockId shardIdx i owner pc shard spec item got => rw [item] at hholder; cases hholder
    | dump p t j blockId shardIdx i owner pc shard spec item got => rw [item] at hholder; cases hholder
  have hle := h.kept.nItem_le
  rw [(h.kept.fixed hv).proc] at hmode ⊢
  -- the synchronization goes on, since its end would have cleared the holder
  have hkept : (s.item v).stage = .holder → (s.item v).copying = true →
      ∃ u, u < s'.nItem ∧ (s'.item u).proc = (s.item v).proc ∧ (s'.item u).stage = .syncing := by
    intro hst hc
    obtain ⟨u, hu, hproc, hsync⟩ := hdry v hv hmode hst hc
    refine ⟨u, by omega, (h.kept.fixed hu).proc.trans hproc, ?_⟩
    obtain hu' | ⟨ok, rfl⟩ := (h.move hl hu).syncing hsync
    · exact hu'
    · cases h with
      | transfer _ _ _ lt step =>
        have hne : v ≠ u := by
          intro e
          subst e
          rw [hst] at hsync
          cases hsync
        have := step.clears hl lt hv (.sync ok hsync) hne hproc.symm hst
        rw [this] at hholder
        cases hholder
  have hm := h.move hl hv
  generalize hx : s'.item v = x at hm hholder hcopy
  cases hm with
  | same l other => exact hkept hholder hcopy
  | loadOver isLoad running => exact hkept hholder hcopy
  | dumpOver p t proc task isLoad running => exact hkept hholder hcopy
  | release dropping => exact hkept hholder hcopy
  | hold stage mode =>
    have := (hs v hv).noCopy (by rw [stage]; rfl)
    rw [this] at hcopy
    cases hcopy
  | copy ok part stage mode =>
    rw [hmode] at mode
    cases mode
  | flushed u part other proc uStage stage =>
    cases h with
    | transfer _ _ _ lt step =>
      refine ⟨u, hle.trans_lt' lt, ?_, ?_⟩
      · rw [(step.kept.items u).proc, proc]
      · cases step with
        | flush => simp [Store.flushHolder]
  | syncDump p t pc proc isLoad => simp at hcopy
  | push p t pc collected first => simp [Store.pushItem] at hholder
  | waited ok stage ended settled => cases ok <;> cases hholder
  | check stage =>
    simp only at hholder
    split at hholder <;> cases hholder
  | _ => simp_all [Item.drop]

end Sane

/-! ## Every run -/

section Reach

variable [DecidableEq Block] {C : Config Block} {s : Store Block}

theorem reach_sane (h : Reach (cacheStore C) QuietDrops s) : (∀ v, v < s.nItem → (s.item v).Sane) ∧ HolderDry C s := by
  refine Reach.inv_with (I := fun s => (∀ v, v < s.nItem → (s.item v).Sane) ∧ HolderDry C s)
    (J := fun s => Linked s ∧ DumpPhase s) (fun _ hr => ⟨reach_linked hr, reach_dumpPhase hr⟩) (fun s hi => ?_)
    (fun s l s' hJ hI hok hst => ?_) h
  · have hn : ∀ v, ¬ v < s.nItem := fun v hv => by rw [hi.nItem] at hv; omega
    exact ⟨fun v hv => absurd hv (hn v), fun v hv => absurd hv (hn v)⟩
  · obtain ⟨hl, hp⟩ := hJ
    obtain ⟨hs, hdry⟩ := hI
    have hc := storeStep_case hst
    refine ⟨fun v hv => ?_, hc.holderDry hl hs hdry⟩
    rcases hc.old_or_new hv with hv | ⟨rfl, hget⟩
    · exact (hc.move hl hv).sane hl hp hdry hc.mover_lt hv hok (hs v hv)
    · cases hget with
      | load p t j blockId shardIdx i owner pc shard spec item got => rw [item]; exact Item.sane_start ..
      | dump p t j blockId shardIdx i owner pc shard spec item got => rw [item]; exact Item.sane_start ..

/-- What is let go is quiet. -/
theorem reach_quiet (h : Reach (cacheStore C) QuietDrops s) {v : Nat} (hv : v < s.nItem) (hh : (s.item v).handle ≠ .held) :
    (s.item v).Quiet := by
  have hs := (reach_sane h).1 v hv
  have hpast : (s.item v).stage.past = true := by
    by_contra hp
    exact hh (reach_keeps h v hv (by simpa using hp))
  refine ⟨hs.noRun ?_, hs.noCopy ?_⟩
  all_goals
    cases hst : (s.item v).stage
    all_goals first | rfl | (rw [hst] at hpast; cases hpast)

/-- In a run that lets go of handles when the operations are over, a node at zero has none, and
    a `Get` that takes it finds none. -/
theorem quiet_at_zero (h : Reach (cacheStore C) QuietDrops s) (i : Nat) :
    ((s.buf.metaAt i).reference = 0 → ∀ v, v < s.nItem → (s.item v).pos = i → (s.item v).Quiet) ∧
      ∀ c b, s.buf.get C.toParams c i = some (b, true) → ∀ v, v < s.nItem → (s.item v).pos = i → (s.item v).Quiet := by
  have hzero : (s.buf.metaAt i).reference = 0 → ∀ v, v < s.nItem → (s.item v).pos = i → (s.item v).Quiet := by
    intro h0 v hv hpos
    refine reach_quiet h hv fun hheld => ?_
    have := ((reach_refInv h).pos_iff i).mpr ⟨v, hv, by rw [hheld]; decide, hpos⟩
    omega
  refine ⟨hzero, fun c b hg => hzero ?_⟩
  have := (get_spec hg).owner
  simpa using this

end Reach

/-! ## Runs on one node -/

/-- `Wait` times out and marks the task, the transfer thread skips the shard: the node is at zero
    and the backend is loading into it, when another key may take it. -/
theorem reused_under_load : ∃ s, Reach (cacheStore oneNode) Any s ∧ (s.buf.metaAt 0).reference = 0 ∧
    (∃ v, v < s.nItem ∧ (s.item v).pos = 0 ∧ ¬ (s.item v).Quiet) ∧
    ∃ b, s.buf.get oneNode.toParams ⟨8, 0, true, true⟩ 0 = some (b, true) := by
  obtain ⟨s, hs, hp⟩ := exists_of_replay (S := cacheStore oneNode)
    (p := fun s => decide ((s.buf.metaAt 0).reference = 0 ∧ 0 < s.nItem ∧ (s.item 0).pos = 0 ∧ (s.item 0).backend = .running ∧
      (s.buf.get oneNode.toParams ⟨8, 0, true, true⟩ 0).map Prod.snd = some true))
    (loadOne ++ [.wait 0 (.timeout 0), .transfer 0 .take, .transfer 0 .done, .release 0]) freshStore_init (by decide)
  obtain ⟨h0, hn, hpos, hrun, hget⟩ := of_decide_eq_true hp
  obtain ⟨⟨b, owner⟩, hget, rfl⟩ := Option.map_eq_some_iff.mp hget
  exact ⟨s, hs, h0, ⟨0, hn, hpos, fun hq => hq.1 hrun⟩, b, hget⟩

/-- The backend's `Wait` times out under its load, and the shard is dropped. -/
theorem reused_under_timed_out_load : ∃ s, Reach (cacheStore oneNode) Any s ∧ (s.buf.metaAt 0).reference = 0 ∧
    ∃ v, v < s.nItem ∧ (s.item v).pos = 0 ∧ ¬ (s.item v).Quiet := by
  obtain ⟨s, hs, hp⟩ := exists_of_replay (S := cacheStore oneNode)
    (p := fun s => decide ((s.buf.metaAt 0).reference = 0 ∧ 0 < s.nItem ∧ (s.item 0).pos = 0 ∧ (s.item 0).backend = .running))
    (loadOne ++ [.transfer 0 .take, .transfer 0 (.wait false), .transfer 0 .fail, .transfer 0 .done, .release 0])
    freshStore_init (by decide)
  obtain ⟨h0, hn, hpos, hrun⟩ := of_decide_eq_true hp
  exact ⟨s, hs, h0, 0, hn, hpos, fun hq => hq.1 hrun⟩

/-- A check that implies `QuietDrops`, for runs in which nothing fails. -/
def nothingFails (s : Store Nat) : StoreLabel Nat → Bool
  | .dispatch _ .done => false
  | .transfer u .take => !s.failed u
  | .transfer _ (.wait ok) => ok
  | .transfer _ (.copy ok _) => ok
  | .transfer _ (.flush ok _) => ok
  | .transfer _ (.sync ok) => ok
  | .dump _ (.take ok _) => ok
  | .dump _ (.sync ok) => ok
  | .dump _ (.waited ok) => ok
  | _ => true

theorem nothingFails_quiet (s : Store Nat) (l : StoreLabel Nat) (h : nothingFails s l = true) : QuietDrops s l := by
  unfold nothingFails at h
  unfold QuietDrops
  split at h <;> simp_all

/-- The load is copied to the device, and its node let go. -/
theorem quiet_at_zero_load : ∃ s, Reach (cacheStore oneNode) QuietDrops s ∧ (s.buf.metaAt 0).reference = 0 ∧ 0 < s.nItem ∧
    (s.item 0).pos = 0 ∧ (s.item 0).Quiet := by
  obtain ⟨s, hs, hp⟩ := exists_of_replayOk (S := cacheStore oneNode) nothingFails nothingFails_quiet
    (p := fun s => decide ((s.buf.metaAt 0).reference = 0 ∧ 0 < s.nItem ∧ (s.item 0).pos = 0))
    (loadOne ++ [.loadOver 0, .transfer 0 .take, .transfer 0 (.wait true), .transfer 0 (.copy true false),
      .transfer 0 (.sync true),
      .transfer 0 .done, .release 0]) freshStore_init (by decide)
  obtain ⟨h0, hn, hpos⟩ := of_decide_eq_true hp
  exact ⟨s, hs, h0, hn, hpos, (quiet_at_zero hs 0).1 h0 0 hn hpos⟩

end UnifiedCache.Cache
