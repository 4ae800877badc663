/-
  UnifiedCache.Gdr.Synchronized — what `Synchronized` of a GDR stream tells its caller
  (see `UnifiedCache.Gdr.Stream`).

  `OK` is right in every run: each operation up to the frontier that failed is still in
  `failedOperations_`, or has been covered (`SyncInv`). Two answers can be wrong.
  - A call that returns an error takes one failed operation out of `failedOperations_`. Where two
    operations have failed, the other one is what a later call returns, whatever its own operations did.
  - A fatal error stops both threads at once. The copies that are posted are not waited for, and the
    scheduler may still post the one it has in hand.
  Without these (`Calm`) the answers are right (`synchronized_truthful`).
-/

import UnifiedCache.Gdr.Order

namespace UnifiedCache.Gdr

open UnifiedCache.Base

variable {s s' : Stream} {l : StreamLabel} {m : Nat}

/-! ## The steps of the two threads and of the NIC -/

/-- What the submitting thread alone changes. -/
structure SubmitterKept (s s' : Stream) : Prop where
  submitter : s'.submitter = s.submitter
  nextOperationId : s'.nextOperationId = s.nextOperationId
  covered : s'.covered = s.covered

/-- What a step does to the failed operations. -/
inductive FailureStep (l : StreamLabel) (s s' : Stream) : Prop where
  | stays (operations : s'.failedOperations = s.failedOperations) (failed : s'.failed = s.failed)
      (error : s'.asyncErrorSet = s.asyncErrorSet)
  | fails (id : Nat) (mem : id ∈ s.pendingIds) (operations : s'.failedOperations = s.failedOperations.orderedInsert (· ≤ ·) id)
      (failed : s'.failed = Function.update s.failed id true) (finished : s'.finished id = true)
      (error : s'.asyncErrorSet = s.asyncErrorSet)
  | stops (operations : s'.failedOperations = []) (failed : s'.failed = s.failed) (error : s'.asyncErrorSet = true)
      (thread : l = .scheduler .step ∧ s.scheduler = .stopping .locking ∨ l = .completion .step ∧
        s.completion = .stopping .locking)

theorem schedulerStep_failure {l : SchedulerLabel} (hs : schedulerStep s m l = some s') : FailureStep (.scheduler l) s s' ∧
    SubmitterKept s s' := by
  cases l with
  | mark spurious =>
    simp only [schedulerStep] at hs
    split at hs
    · obtain ⟨s1, hm, rfl⟩ := Option.map_eq_some_iff.mp hs
      obtain ⟨f, p, -, rfl⟩ := markStep_cases hm
      dsimp only
      split <;> exact ⟨.stays rfl rfl rfl, rfl, rfl, rfl⟩
    · cases hs
  | post r =>
    simp only [schedulerStep] at hs
    (repeat' split at hs)
    all_goals first | cases hs; done | skip
    all_goals
      obtain rfl := Option.some.inj hs
      exact ⟨.stays rfl rfl rfl, rfl, rfl, rfl⟩
  | setDevice ok =>
    simp only [schedulerStep] at hs
    split at hs
    · obtain rfl := Option.some.inj hs
      exact ⟨.stays rfl rfl rfl, rfl, rfl, rfl⟩
    · cases hs
  | event ok =>
    simp only [schedulerStep] at hs
    split at hs
    · obtain rfl := Option.some.inj hs
      cases ok <;> exact ⟨.stays rfl rfl rfl, rfl, rfl, rfl⟩
    · cases hs
  | step =>
    cases hpc : s.scheduler with
    | failing op batch =>
      simp only [schedulerStep, hpc] at hs
      obtain rfl := Option.some.inj hs
      refine ⟨.fails op.operationId ?_ rfl rfl (Function.update_self ..) rfl, rfl, rfl, rfl⟩
      unfold Stream.pendingIds
      rw [hpc]
      exact List.mem_append_left _ (List.mem_append_right _ List.mem_cons_self)
    | stopping stage =>
      simp only [schedulerStep, hpc] at hs
      obtain rfl := Option.some.inj hs
      cases stage with
      | locking => exact ⟨.stops rfl rfl rfl (.inl ⟨rfl, hpc⟩), rfl, rfl, rfl⟩
      | resetting => exact ⟨.stays rfl rfl rfl, rfl, rfl, rfl⟩
      | requesting => exact ⟨.stays rfl rfl rfl, rfl, rfl, rfl⟩
    | _ =>
      simp only [schedulerStep] at hs
      (repeat' split at hs)
      all_goals first | cases hs; done | skip
      all_goals first | (obtain rfl := Option.some.inj hs; exact ⟨.stays rfl rfl rfl, rfl, rfl, rfl⟩) | grind

theorem completionStep_failure {l : CompletionLabel} (hs : completionStep s l = some s') : FailureStep (.completion l) s s' ∧
    SubmitterKept s s' := by
  cases l with
  | mark spurious =>
    simp only [completionStep] at hs
    split at hs
    · obtain ⟨s1, hm, rfl⟩ := Option.map_eq_some_iff.mp hs
      obtain ⟨f, p, -, rfl⟩ := markStep_cases hm
      dsimp only
      split <;> exact ⟨.stays rfl rfl rfl, rfl, rfl, rfl⟩
    · cases hs
  | notify ok =>
    simp only [completionStep] at hs
    split at hs
    · obtain rfl := Option.some.inj hs
      exact ⟨.stays rfl rfl rfl, rfl, rfl, rfl⟩
    · cases hs
  | pollFails =>
    simp only [completionStep] at hs
    split at hs
    · obtain rfl := Option.some.inj hs
      exact ⟨.stays rfl rfl rfl, rfl, rfl, rfl⟩
    · cases hs
  | wait r =>
    simp only [completionStep] at hs
    split at hs
    · cases r
      all_goals
        obtain rfl := Option.some.inj hs
        exact ⟨.stays rfl rfl rfl, rfl, rfl, rfl⟩
    · cases hs
  | step =>
    cases hpc : s.completion with
    | completed reqId =>
      simp only [completionStep, hpc] at hs
      obtain rfl := Option.some.inj hs
      split <;> exact ⟨.stays rfl rfl rfl, rfl, rfl, rfl⟩
    | stopping stage =>
      simp only [completionStep, hpc] at hs
      obtain rfl := Option.some.inj hs
      cases stage with
      | locking => exact ⟨.stops rfl rfl rfl (.inr ⟨rfl, hpc⟩), rfl, rfl, rfl⟩
      | resetting => exact ⟨.stays rfl rfl rfl, rfl, rfl, rfl⟩
      | requesting => exact ⟨.stays rfl rfl rfl, rfl, rfl, rfl⟩
    | _ =>
      simp only [completionStep] at hs
      (repeat' split at hs)
      all_goals first | cases hs; done | skip
      all_goals first | (obtain rfl := Option.some.inj hs; exact ⟨.stays rfl rfl rfl, rfl, rfl, rfl⟩) | grind

theorem FrontierStep.mono (h : FrontierStep l s s') : s.frontier.last ≤ s'.frontier.last ∧ ∀ id, s.finished id = true →
    s'.finished id = true := by
  cases h with
  | stays hfr hmark hfin =>
    rw [hfr, hfin]
    exact ⟨Nat.le_refl _, fun _ h => h⟩
  | called t id hmem hidle hfr hmark hfin =>
    rw [hfr, hfin]
    refine ⟨Nat.le_refl _, fun i hi => ?_⟩
    by_cases e : i = id
    · rw [e, Function.update_self]
    · rw [Function.update_of_ne e]
      exact hi
  | marked t spurious p hl hstep hmark hfin =>
    rw [hfin]
    refine ⟨?_, fun _ h => h⟩
    cases hpc : s.mark t with
    | none =>
      rw [hpc] at hstep
      cases hstep
    | cas current =>
      rw [hpc] at hstep
      simp only [markStep] at hstep
      split at hstep
      · next hc =>
        rw [← (Prod.mk.inj (Option.some.inj hstep)).1, hc.2]
        exact Nat.le_succ current
      · rw [← (Prod.mk.inj (Option.some.inj hstep)).1]
    | _ =>
      rw [hpc] at hstep
      rw [← (Prod.mk.inj (Option.some.inj hstep)).1]

/-! ## What `Synchronized` goes by -/

/-- The failed operations that no call has covered are in `failedOperations_`. -/
structure FailureInv (s : Stream) : Prop where
  failed : ∀ id, s.failed id = true → s.finished id = true
  entries : ∀ id, id ∈ s.failedOperations → s.failed id = true
  sorted : s.failedOperations.Pairwise (· ≤ ·)
  recorded : s.asyncErrorSet = false → ∀ id, s.failed id = true → s.covered < id → id ∈ s.failedOperations

structure SyncInv (s : Stream) : Prop where
  failures : FailureInv s
  covered : s.covered < s.nextOperationId
  reached : s.asyncErrorSet = false → s.covered ≤ s.frontier.last
  target : ∀ target, s.submitter = .syncing target ∨ s.submitter = .locking target → target + 1 = s.nextOperationId
  locked : ∀ target, s.submitter = .locking target → s.asyncErrorSet = true ∨ target ≤ s.frontier.last

theorem FailureStep.error (h : FailureStep l s s') (he : s'.asyncErrorSet = false) : s.asyncErrorSet = false := by
  cases h with
  | stays hops hfailed herr => exact herr ▸ he
  | fails id hmem hops hfailed hfin herr => exact herr ▸ he
  | stops hops hfailed herr hthread =>
    rw [herr] at he
    cases he

theorem FailureInv.thread (h : FailureInv s) (hstep : FailureStep l s s')
    (hfin : ∀ id, s.finished id = true → s'.finished id = true)
    (hcov : s'.covered = s.covered) : FailureInv s' := by
  cases hstep with
  | stays hops hfailed herr =>
    constructor
    · intro id hid
      rw [hfailed] at hid
      exact hfin id (h.failed id hid)
    · rw [hops, hfailed]
      exact h.entries
    · rw [hops]
      exact h.sorted
    · rw [hops, hfailed, herr, hcov]
      exact h.recorded
  | fails id hmem hops hfailed hfinished herr =>
    constructor
    · intro x hx
      by_cases e : x = id
      · rw [e]
        exact hfinished
      · rw [hfailed, Function.update_of_ne e] at hx
        exact hfin x (h.failed x hx)
    · intro x hx
      rw [hops, List.mem_orderedInsert] at hx
      rw [hfailed]
      by_cases e : x = id
      · rw [e, Function.update_self]
      · rw [Function.update_of_ne e]
        exact h.entries x (hx.resolve_left e)
    · rw [hops]
      exact h.sorted.orderedInsert ..
    · intro he x hx hlt
      rw [hops, List.mem_orderedInsert]
      by_cases e : x = id
      · exact .inl e
      · rw [hfailed, Function.update_of_ne e] at hx
        rw [hcov] at hlt
        exact .inr (h.recorded (herr ▸ he) x hx hlt)
  | stops hops hfailed herr hthread =>
    constructor
    · intro id hid
      rw [hfailed] at hid
      exact hfin id (h.failed id hid)
    · intro id hid
      rw [hops] at hid
      cases hid
    · rw [hops]
      exact List.Pairwise.nil
    · intro he
      rw [herr] at he
      cases he

theorem SyncInv.thread (h : SyncInv s) (hf : FrontierStep l s s') (hstep : FailureStep l s s') (hk : SubmitterKept s s') :
    SyncInv s' := by
  obtain ⟨hlast, hfin⟩ := hf.mono
  obtain ⟨hsub, hnext, hcov⟩ := hk
  constructor
  · exact h.failures.thread hstep hfin hcov
  · rw [hcov, hnext]
    exact h.covered
  · intro he
    rw [hcov]
    exact (h.reached (hstep.error he)).trans hlast
  · rw [hsub, hnext]
    exact h.target
  · intro target ht
    rw [hsub] at ht
    rcases h.locked target ht with he | hle
    · left
      by_contra hne
      rw [hstep.error (Bool.eq_false_of_not_eq_true hne)] at he
      cases he
    · exact .inr (hle.trans hlast)

/-- A call returns: whatever has been submitted is covered. -/
theorem SyncInv.return {target : Nat} {operations : List Nat} (h : SyncInv s) (ho : OrderInv s)
    (hpc : s.submitter = .locking target)
    (hsub : operations.Sublist s.failedOperations) :
    SyncInv { s with submitter := .idle, covered := max s.covered target, failedOperations := operations } := by
  have htarget := h.target target (.inr hpc)
  have hcov := h.covered
  have hbound : s.bound = s.nextOperationId := by
    unfold Stream.bound
    rw [hpc]
    rfl
  constructor
  · constructor
    · exact h.failures.failed
    · exact fun id hid => h.failures.entries id (hsub.subset hid)
    · exact h.failures.sorted.sublist hsub
    · intro _ id hid hlt
      have hlt : max s.covered target < id := hlt
      have hle := ho.finished id (h.failures.failed id hid)
      omega
  · show max s.covered target < s.nextOperationId
    omega
  · intro he
    have he : s.asyncErrorSet = false := he
    apply max_le (h.reached he)
    apply (h.locked target hpc).resolve_left
    rw [he]
    nofun
  · intro target' ht
    rcases ht with ht | ht <;> cases ht
  · intro target' ht
    cases ht

/-- What `Synchronized` leaves in `failedOperations_`. -/
theorem return_cases (hs : streamStep s m (.submitter .return) = some s') :
    ∃ target operations, s.submitter = .locking target ∧ operations.Sublist s.failedOperations ∧
      s' = { s with submitter := .idle, covered := max s.covered target, failedOperations := operations } ∧
      (s.asyncErrorSet = false → operations = s.failedOperations ∧ syncStatus s = .ok ∨
        ∃ id, s.failedOperations = id :: operations ∧ id ≤ s.frontier.last ∧ syncStatus s = .operation id) := by
  simp only [streamStep, submitterStep] at hs
  split at hs
  · next target hpc =>
    obtain rfl := Option.some.inj hs
    cases he : s.asyncErrorSet with
    | true =>
      refine ⟨target, s.failedOperations, hpc, List.Sublist.refl _, ?_, by simp⟩
      rw [if_pos rfl]
    | false =>
      cases hops : s.failedOperations with
      | nil =>
        refine ⟨target, [], hpc, List.Sublist.refl _, ?_, fun _ => .inl ⟨rfl, ?_⟩⟩
        · rfl
        · unfold syncStatus
          rw [he, hops]
          rfl
      | cons id rest =>
        by_cases hlt : s.frontier.last < id
        · refine ⟨target, id :: rest, hpc, List.Sublist.refl _, ?_, fun _ => .inl ⟨rfl, ?_⟩⟩
          · exact if_pos hlt
          · unfold syncStatus
            rw [he, hops]
            exact if_pos hlt
        · refine ⟨target, rest, hpc, List.sublist_cons_self .., ?_, fun _ => .inr ⟨id, rfl, Nat.le_of_not_lt hlt, ?_⟩⟩
          · exact if_neg hlt
          · unfold syncStatus
            rw [he, hops]
            exact if_neg hlt
  · cases hs

theorem SyncInv.submitter {l : SubmitterLabel} (h : SyncInv s) (ho : OrderInv s) (hs : submitterStep s l = some s') :
    SyncInv s' := by
  have hpos := ho.pos
  cases l with
  | «return» =>
    obtain ⟨target, operations, hpc, hsub, rfl, -⟩ := return_cases (m := 1) hs
    exact h.return ho hpc hsub
  | synchronized =>
    simp only [submitterStep] at hs
    split at hs
    · obtain rfl := Option.some.inj hs
      refine ⟨⟨h.failures.failed, h.failures.entries, h.failures.sorted, h.failures.recorded⟩, h.covered, h.reached, ?_, by simp⟩
      intro target ht
      rcases ht with ht | ht <;> cases ht
      show s.nextOperationId - 1 + 1 = s.nextOperationId
      omega
    · cases hs
  | poll =>
    simp only [submitterStep] at hs
    split at hs
    · next target hpc =>
      split at hs
      · next hor =>
        obtain rfl := Option.some.inj hs
        refine ⟨⟨h.failures.failed, h.failures.entries, h.failures.sorted, h.failures.recorded⟩, h.covered, h.reached, ?_, ?_⟩
        · intro target' ht
          rcases ht with ht | ht <;> cases ht
          exact h.target target (.inl hpc)
        · intro target' ht
          cases ht
          exact hor
      · cases hs
    · cases hs
  | publish =>
    simp only [submitterStep] at hs
    split at hs
    · obtain rfl := Option.some.inj hs
      refine ⟨⟨h.failures.failed, h.failures.entries, h.failures.sorted, h.failures.recorded⟩, Nat.lt_succ_of_lt h.covered,
        h.reached, ?_, by simp⟩
      intro target ht
      rcases ht with ht | ht <;> cases ht
    · cases hs
  | _ =>
    simp only [submitterStep] at hs
    (repeat' split at hs)
    all_goals first | cases hs; done | skip
    all_goals
      obtain rfl := Option.some.inj hs
      refine ⟨⟨h.failures.failed, h.failures.entries, h.failures.sorted, h.failures.recorded⟩, h.covered, h.reached, ?_, by simp⟩
      intro target ht
      rcases ht with ht | ht <;> cases ht

theorem thread_step (hs : streamStep s m l = some s') :
    (∃ l', l = .submitter l' ∧ submitterStep s l' = some s') ∨ FailureStep l s s' ∧ SubmitterKept s s' := by
  cases l with
  | submitter l => exact .inl ⟨l, rfl, hs⟩
  | scheduler l => exact .inr (schedulerStep_failure hs)
  | completion l => exact .inr (completionStep_failure hs)
  | nic ok =>
    simp only [streamStep] at hs
    split at hs
    · cases hs
    · obtain rfl := Option.some.inj hs
      exact .inr ⟨.stays rfl rfl rfl, rfl, rfl, rfl⟩

theorem submitter_error {l : SubmitterLabel} (hs : submitterStep s l = some s') : s'.asyncErrorSet = s.asyncErrorSet := by
  cases l <;> simp only [submitterStep] at hs <;> (repeat' split at hs) <;> first | cases hs; done | skip
  all_goals
    obtain rfl := Option.some.inj hs
    rfl

theorem error_stays (hs : streamStep s m l = some s') (he : s.asyncErrorSet = true) : s'.asyncErrorSet = true := by
  rcases thread_step hs with ⟨l', -, hs'⟩ | ⟨hstep, -⟩
  · rw [submitter_error hs']
    exact he
  · by_contra hne
    rw [hstep.error (Bool.eq_false_of_not_eq_true hne)] at he
    cases he

theorem step_syncInv (h : SyncInv s) (ho : OrderInv s) (hs : streamStep s m l = some s') : SyncInv s' := by
  rcases thread_step hs with ⟨l', -, hs'⟩ | ⟨hstep, hk⟩
  · exact h.submitter ho hs'
  · exact h.thread (step_orderInv ho hs).2 hstep hk

theorem init_syncInv (h : s.IsInit) : SyncInv s := by
  constructor
  · constructor
    · intro id hid
      rw [h.failed] at hid
      cases hid
    · intro id hid
      rw [h.failedOperations] at hid
      cases hid
    · rw [h.failedOperations]
      exact List.Pairwise.nil
    · intro _ id hid
      rw [h.failed] at hid
      cases hid
  · rw [h.covered, h.nextOperationId]
    exact Nat.one_pos
  · intro _
    rw [h.covered]
    exact Nat.zero_le _
  · intro target ht
    rw [h.submitter] at ht
    rcases ht with ht | ht <;> cases ht
  · intro target ht
    rw [h.submitter] at ht
    cases ht

theorem reach_syncInv {ok : Stream → StreamLabel → Prop} (h : Reach (gdrStream m) ok s) : SyncInv s :=
  h.inv_with (I := SyncInv) (J := OrderInv) (fun _ => reach_orderInv) (fun _ => init_syncInv) fun _ _ _ hj hi _ hs =>
  step_syncInv hi hj hs

theorem syncStatus_ok (h : SyncInv s) (hst : syncStatus s = .ok) : s.asyncErrorSet = false ∧ ∀ id, id ∈ s.failedOperations →
    s.frontier.last < id := by
  unfold syncStatus at hst
  split at hst
  · cases hst
  · next he =>
    refine ⟨Bool.eq_false_of_not_eq_true he, ?_⟩
    have hsorted := h.failures.sorted
    split at hst
    · next hops =>
      intro id hid
      rw [hops] at hid
      cases hid
    · next first rest hops =>
      split at hst
      · next hlt =>
        intro id hid
        rw [hops] at hid hsorted
        rcases List.mem_cons.mp hid with rfl | hid
        · exact hlt
        · exact Nat.lt_of_lt_of_le hlt ((List.pairwise_cons.mp hsorted).1 id hid)
      · cases hst

/-! ## What makes the answers wrong -/

/-- No copy is posted, and none is about to be. -/
def Drained (s : Stream) : Prop := s.posted = [] ∧ ∀ op batch, s.scheduler ≠ .posting op batch

/-- A call returns with at most one failed operation, and a fatal error comes when no copy is posted. -/
def Calm (s : Stream) : StreamLabel → Prop
  | .submitter .return => s.asyncErrorSet = true ∨ s.failedOperations.length ≤ 1
  | .scheduler .step => s.scheduler = .stopping .locking → Drained s
  | .completion .step => s.completion = .stopping .locking → Drained s
  | _ => True

structure CalmInv (s : Stream) : Prop where
  uncovered : s.asyncErrorSet = false → ∀ id, id ∈ s.failedOperations → s.covered < id
  drained : s.asyncErrorSet = true → Drained s

/-- After a fatal error no copy is posted. -/
theorem Drained.step (h : Drained s) (hs : streamStep s m l = some s') (he : s'.asyncErrorSet = true) : Drained s' := by
  obtain ⟨hposted, hsch⟩ := h
  cases l with
  | submitter l =>
    have hkeep : s'.posted = s.posted ∧ s'.scheduler = s.scheduler := by
      cases l <;> simp only [streamStep, submitterStep] at hs <;> (repeat' split at hs) <;> first | cases hs; done | skip
      all_goals
        obtain rfl := Option.some.inj hs
        exact ⟨rfl, rfl⟩
    unfold Drained
    rw [hkeep.1, hkeep.2]
    exact ⟨hposted, hsch⟩
  | scheduler l =>
    cases l with
    | mark spurious =>
      simp only [streamStep, schedulerStep] at hs
      split at hs
      · next batch hpc =>
        obtain ⟨s1, hm, rfl⟩ := Option.map_eq_some_iff.mp hs
        obtain ⟨f, p, -, rfl⟩ := markStep_cases hm
        dsimp only
        split
        · exact ⟨hposted, by intro _ _ h; cases h⟩
        · exact ⟨hposted, hsch⟩
      · cases hs
    | post r =>
      simp only [streamStep, schedulerStep] at hs
      cases hs
    | setDevice ok =>
      simp only [streamStep, schedulerStep] at hs
      split at hs
      · obtain rfl := Option.some.inj hs
        cases ok <;> exact ⟨hposted, by intro _ _ h; cases h⟩
      · cases hs
    | event ok =>
      simp only [streamStep, schedulerStep] at hs
      split at hs
      · obtain rfl := Option.some.inj hs
        cases ok <;> exact ⟨hposted, by intro _ _ h; cases h⟩
      · cases hs
    | step =>
      cases hpc : s.scheduler with
      | submitting op batch =>
        simp only [streamStep, schedulerStep, hpc] at hs
        split at hs
        · obtain rfl := Option.some.inj hs
          exact ⟨hposted, by intro _ _ h; cases h⟩
        · next hstops =>
          -- the thread has just looked at the error
          split at hs
          · obtain rfl := Option.some.inj hs
            exact ⟨hposted, by intro _ _ h; cases h⟩
          · obtain rfl := Option.some.inj hs
            have he : s.asyncErrorSet = true := he
            unfold Stream.stops at hstops
            rw [he] at hstops
            exact absurd rfl hstops
      | stopping stage =>
        simp only [streamStep, schedulerStep, hpc] at hs
        obtain rfl := Option.some.inj hs
        cases stage <;> exact ⟨hposted, by intro _ _ h; cases h⟩
      | next batch =>
        cases batch with
        | nil =>
          simp only [streamStep, schedulerStep, hpc] at hs
          obtain rfl := Option.some.inj hs
          exact ⟨hposted, by intro _ _ h; cases h⟩
        | cons op batch =>
          simp only [streamStep, schedulerStep, hpc] at hs
          obtain rfl := Option.some.inj hs
          refine ⟨hposted, fun op' batch' => ?_⟩
          dsimp only [Stream.setScheduler]
          (repeat' split) <;> simp
      | _ =>
        simp only [streamStep, schedulerStep, hpc] at hs
        first | cases hs; done | skip
        all_goals
          obtain rfl := Option.some.inj hs
          refine ⟨hposted, fun op' batch' => ?_⟩
          dsimp only [Stream.setScheduler]
          (repeat' split) <;> simp
  | completion l =>
    have hkeep : s'.posted = s.posted ∧ s'.scheduler = s.scheduler := by
      cases l with
      | mark spurious =>
        simp only [streamStep, completionStep] at hs
        split at hs
        · obtain ⟨s1, hm, rfl⟩ := Option.map_eq_some_iff.mp hs
          obtain ⟨f, p, -, rfl⟩ := markStep_cases hm
          dsimp only
          split <;> exact ⟨rfl, rfl⟩
        · cases hs
      | step =>
        cases hpc : s.completion with
        | completed reqId =>
          simp only [streamStep, completionStep, hpc] at hs
          obtain rfl := Option.some.inj hs
          split <;> exact ⟨rfl, rfl⟩
        | stopping stage =>
          simp only [streamStep, completionStep, hpc] at hs
          obtain rfl := Option.some.inj hs
          cases stage <;> exact ⟨rfl, rfl⟩
        | _ =>
          simp only [streamStep, completionStep, hpc] at hs
          (repeat' split at hs)
          all_goals first | cases hs; done | skip
          all_goals
            obtain rfl := Option.some.inj hs
            exact ⟨rfl, rfl⟩
      | _ =>
        simp only [streamStep, completionStep] at hs
        (repeat' split at hs)
        all_goals first | cases hs; done | skip
        all_goals
          obtain rfl := Option.some.inj hs
          exact ⟨rfl, rfl⟩
    unfold Drained
    rw [hkeep.1, hkeep.2]
    exact ⟨hposted, hsch⟩
  | nic ok =>
    simp only [streamStep, hposted] at hs
    cases hs

theorem step_calmInv (h : CalmInv s) (ho : OrderInv s) (hf : s.FrontierInv) (hi : SyncInv s) (hok : Calm s l)
    (hs : streamStep s m l = some s') : CalmInv s' := by
  rcases thread_step hs with ⟨l', rfl, hs'⟩ | ⟨hstep, hk⟩
  · refine ⟨?_, fun he => Drained.step (h.drained ?_) hs he⟩
    · cases l' with
      | «return» =>
        obtain ⟨target, operations, hpc, hsub, rfl, hst⟩ := return_cases hs
        intro he id hid
        have he : s.asyncErrorSet = false := he
        have hid : id ∈ operations := hid
        exfalso
        rcases hst he with ⟨rfl, hok'⟩ | ⟨first, hops, -, -⟩
        · -- what is left has not been passed by the frontier, so it has not been submitted
          have hlast := (syncStatus_ok hi hok').2 id hid
          have hbound := ho.finished id (hi.failures.failed id (hi.failures.entries id hid))
          have htarget := hi.target target (.inr hpc)
          have hle : target ≤ s.frontier.last := by
            apply (hi.locked target hpc).resolve_left
            rw [he]
            nofun
          unfold Stream.bound at hbound
          rw [hpc, if_neg (by nofun)] at hbound
          omega
        · have hlen : s.failedOperations.length ≤ 1 := by
            apply hok.resolve_left
            rw [he]
            nofun
          rw [hops, List.length_cons] at hlen
          have hlen : operations.length = 0 := by omega
          rw [List.length_eq_zero_iff.mp hlen] at hid
          cases hid
      | _ =>
        simp only [submitterStep] at hs'
        (repeat' split at hs')
        all_goals first | cases hs'; done | skip
        all_goals
          obtain rfl := Option.some.inj hs'
          exact h.uncovered
    · rw [← submitter_error hs']
      exact he
  · constructor
    · intro he id hid
      have he' := hstep.error he
      rw [hk.covered]
      cases hstep with
      | stays hops hfailed herr =>
        rw [hops] at hid
        exact h.uncovered he' id hid
      | fails failed hmem hops hfailed hfin herr =>
        rw [hops, List.mem_orderedInsert] at hid
        rcases hid with rfl | hid
        · -- an operation that a call has covered has finished
          obtain ⟨h1, -, hnot⟩ := ho.pending id hmem
          by_contra hle
          have hreached := hi.reached he'
          rw [hf.done id h1 (by omega)] at hnot
          cases hnot
        · exact h.uncovered he' id hid
      | stops hops hfailed herr hthread =>
        rw [herr] at he
        cases he
    · intro he
      apply Drained.step ?_ hs he
      cases hstep with
      | stays hops hfailed herr => exact h.drained (herr ▸ he)
      | fails failed hmem hops hfailed hfin herr => exact h.drained (herr ▸ he)
      | stops hops hfailed herr hthread =>
        rcases hthread with ⟨rfl, hpc⟩ | ⟨rfl, hpc⟩
        · exact hok hpc
        · exact hok hpc

theorem init_calmInv (h : s.IsInit) : CalmInv s := by
  constructor
  · intro _ id hid
    rw [h.failedOperations] at hid
    cases hid
  · intro he
    rw [h.asyncErrorSet] at he
    cases he

theorem reach_calmInv (h : Reach (gdrStream m) Calm s) : CalmInv s :=
  h.inv_with (I := CalmInv) (J := fun s => OrderInv s ∧ s.FrontierInv ∧ SyncInv s)
    (fun _ h => ⟨reach_orderInv h, reach_frontierInv h, reach_syncInv h⟩) (fun _ => init_calmInv) fun _ _ _ hj hi hok hs =>
    step_calmInv hi hj.1 hj.2.1 hj.2.2 hok hs

/-! ## After a call -/

/-- After a fatal error nothing is posted any more. -/
theorem drained_after (h : Drained s) (he : s.asyncErrorSet = true) (hr : Reach ((gdrStream m).startAt s) Any s') :
    Drained s' := by
  have hboth : Drained s' ∧ s'.asyncErrorSet = true := by
    refine hr.inv (I := fun s => Drained s ∧ s.asyncErrorSet = true) ?_ ?_
    · intro _ e
      subst e
      exact ⟨h, he⟩
    · intro t l t' ht _ hs
      have he' := error_stays hs ht.2
      exact ⟨ht.1.step hs he', he'⟩
  exact hboth.1

/-- An operation that has finished is not posted again. -/
theorem finished_after {n : Nat} (h : Reach (gdrStream m) Any s) (hfin : ∀ id, 1 ≤ id → id < n → s.finished id = true)
    (hr : Reach ((gdrStream m).startAt s) Any s') : ∀ id, id ∈ s'.posted → n ≤ id := by
  have hfin' : ∀ id, 1 ≤ id → id < n → s'.finished id = true := by
    refine hr.inv_with (I := fun s => ∀ id, 1 ≤ id → id < n → s.finished id = true) (J := OrderInv) ?_ ?_ ?_
    · intro t ht
      exact reach_orderInv (h.startAt ht)
    · intro _ e
      subst e
      exact hfin
    · intro t l t' ho ht _ hs id h1 hlt
      exact (step_orderInv ho hs).2.mono.2 id (ht id h1 hlt)
  intro id hid
  obtain ⟨h1, -, hnot⟩ := (reach_orderInv (h.startAt hr)).pending id (by
    unfold Stream.pendingIds Stream.postedIds
    exact List.mem_append_left _ (List.mem_append_left _ (List.mem_append_right _ hid)))
  by_contra hlt
  rw [hfin' id h1 (by omega)] at hnot
  cases hnot

/-- `OK` means that all has succeeded; an error that something has failed; and then no copy is on its way. -/
theorem synchronized_truthful (hs : streamStep s m (.submitter .return) = some s') :
    (Reach (gdrStream m) Any s → syncStatus s = .ok →
      ∀ id, s.covered < id → id < s.nextOperationId → s.finished id = true ∧ s.failed id = false) ∧
    (Reach (gdrStream m) Calm s → syncStatus s ≠ .ok →
      s.asyncErrorSet = true ∨ ∃ id, s.covered < id ∧ id < s.nextOperationId ∧ s.failed id = true) ∧
    (Reach (gdrStream m) Calm s → ∀ t, Reach ((gdrStream m).startAt s') Any t → ∀ id, id ∈ t.posted →
      s.nextOperationId ≤ id) := by
  obtain ⟨target, operations, hpc, -, hs', hst⟩ := return_cases hs
  -- the operations that have been submitted have finished
  have hdone : ∀ {ok : Stream → StreamLabel → Prop}, Reach (gdrStream m) ok s → s.asyncErrorSet = false →
      ∀ id, 1 ≤ id → id < s.nextOperationId → s.finished id = true ∧ id ≤ s.frontier.last := by
    intro ok h he id h1 hlt
    have hi := reach_syncInv h
    have htarget := hi.target target (.inr hpc)
    have hle : target ≤ s.frontier.last := by
      apply (hi.locked target hpc).resolve_left
      rw [he]
      nofun
    have hid : id ≤ s.frontier.last := by omega
    exact ⟨(reach_frontierInv h).done id h1 hid, hid⟩
  refine ⟨?_, ?_, ?_⟩
  · intro h hok id hcov hlt
    have hi := reach_syncInv h
    obtain ⟨he, hlast⟩ := syncStatus_ok hi hok
    obtain ⟨hfin, hle⟩ := hdone h he id (Nat.succ_le_of_lt (Nat.zero_lt_of_lt hcov)) hlt
    refine ⟨hfin, Bool.eq_false_of_not_eq_true fun hfailed => ?_⟩
    have hlast := hlast id (hi.failures.recorded he id hfailed hcov)
    omega
  · intro h hne
    cases he : s.asyncErrorSet with
    | true => exact .inl rfl
    | false =>
      right
      rcases hst he with ⟨-, hok⟩ | ⟨id, hops, hle, -⟩
      · exact absurd hok hne
      · have hi := reach_syncInv h
        have hmem : id ∈ s.failedOperations := by
          rw [hops]
          exact List.mem_cons_self
        have hfailed := hi.failures.entries id hmem
        have hbound := (reach_orderInv h).finished id (hi.failures.failed id hfailed)
        unfold Stream.bound at hbound
        rw [hpc, if_neg (by nofun)] at hbound
        exact ⟨id, (reach_calmInv h).uncovered he id hmem, hbound, hfailed⟩
  · intro h t ht id hid
    have hany : Reach (gdrStream m) Any s' := .step (.submitter .return) (h.mono fun _ _ _ => trivial) trivial hs
    cases he : s.asyncErrorSet with
    | true =>
      have hdrained : Drained s' := Drained.step ((reach_calmInv h).drained he) hs (error_stays hs he)
      rw [(drained_after hdrained (error_stays hs he) ht).1] at hid
      cases hid
    | false =>
      refine finished_after hany ?_ ht id hid
      intro x h1 hlt
      rw [hs']
      exact (hdone h he x h1 hlt).1

/-! ## Runs -/

def calm (s : Stream) : StreamLabel → Bool
  | .submitter .return => s.asyncErrorSet || decide (s.failedOperations.length ≤ 1)
  | .scheduler .step => decide (s.scheduler ≠ .stopping .locking)
  | .completion .step => decide (s.completion ≠ .stopping .locking)
  | _ => true

theorem calm_ok (h : calm s l = true) : Calm s l := by
  unfold calm at h
  unfold Calm
  split at h
  · rcases (Bool.or_eq_true ..).mp h with h | h
    · exact .inl h
    · exact .inr (of_decide_eq_true h)
  · exact fun hpc => absurd hpc (of_decide_eq_true h)
  · exact fun hpc => absurd hpc (of_decide_eq_true h)
  · trivial

/-- A copy of `size` bytes is submitted. -/
def submitCopy (size : Nat) : List StreamLabel := [.submitter (.submit .copy size), .submitter .check, .submitter .push,
    .submitter .publish]

/-- `MarkOperationCompleted` of the next operation. -/
def marked : List StreamLabel := List.replicate 8 (.scheduler (.mark false))

/-- The copy that is next cannot be posted. -/
def postFails : List StreamLabel := [.scheduler .step, .scheduler .step, .scheduler (.post .error), .scheduler .step] ++ marked

/-- The next batch is an empty copy. -/
def emptyBatch : List StreamLabel := [.scheduler .step, .scheduler .step, .scheduler .step, .scheduler .step,
    .scheduler .step] ++ marked

def synchronize : List StreamLabel := [.submitter .synchronized, .submitter .poll]

theorem synchronized_truthful_failure :
    ∃ s s', streamStep s 1 (.submitter .return) = some s' ∧ syncStatus s = .ok ∧ s.covered = 1 ∧ s.nextOperationId = 3 ∧
      (∀ id, s.covered < id → id < s.nextOperationId → s.finished id = true ∧ s.failed id = false) ∧
      ∀ t, Reach ((gdrStream 1).startAt s') Any t → ∀ id, id ∈ t.posted → s.nextOperationId ≤ id := by
  obtain ⟨s, hr, hs⟩ := exists_of_replayOk (S := gdrStream 1) calm (fun _ _ => calm_ok)
    (submitCopy 1 ++ [.scheduler (.setDevice true), .scheduler .step, .scheduler .step] ++ postFails ++ synchronize ++
      [.submitter .return] ++
      submitCopy 0 ++ emptyBatch ++ synchronize)
    (s := freshStream)
    (p := fun s => decide (s.submitter = .locking 2) && decide (syncStatus s = .ok) && decide (s.covered = 1) &&
      decide (s.nextOperationId = 3))
    freshStream_isInit (by decide)
  obtain ⟨⟨⟨hpc, hok⟩, hcov⟩, hnext⟩ : ((s.submitter = .locking 2 ∧ syncStatus s = .ok) ∧ s.covered = 1) ∧
      s.nextOperationId = 3 := by
    simpa using hs
  cases hst : streamStep s 1 (.submitter .return) with
  | none => simp [streamStep, submitterStep, hpc] at hst
  | some s' =>
    obtain ⟨h1, -, h3⟩ := synchronized_truthful hst
    exact ⟨s, s', hst, hok, hcov, hnext, h1 (hr.mono fun _ _ _ => trivial) hok, h3 hr⟩

/-- Two copies fail, and the call after the next copy returns the error of the second; an event wait fails while
    a copy is posted, and the call
returns. -/
theorem stale_failure_and_posted :
    (∃ s s', Reach (gdrStream 1) Any s ∧ streamStep s 1 (.submitter .return) = some s' ∧ syncStatus s ≠ .ok ∧
      s.asyncErrorSet = false ∧
      ∀ id, s.covered < id → id < s.nextOperationId → s.finished id = true ∧ s.failed id = false) ∧
    ∃ s s', Reach (gdrStream 1) Any s ∧ streamStep s 1 (.submitter .return) = some s' ∧ 1 ∈ s'.posted ∧
    1 < s.nextOperationId := by
  constructor
  · obtain ⟨s, hr, hs⟩ := exists_of_replay (S := gdrStream 1)
      (submitCopy 1 ++ submitCopy 1 ++ [.scheduler (.setDevice true), .scheduler .step, .scheduler .step] ++ postFails ++
        postFails ++ synchronize ++
        [.submitter .return] ++ submitCopy 0 ++ emptyBatch ++ synchronize)
      (s := freshStream)
      (p := fun s => decide (s.submitter = .locking 3) && decide (syncStatus s = .operation 2) &&
        decide (s.asyncErrorSet = false) &&
        decide (s.covered = 2) && decide (s.nextOperationId = 4) && s.finished 3 && decide (s.failed 3 = false))
      freshStream_isInit (by decide)
    obtain ⟨⟨⟨⟨⟨⟨hpc, hst⟩, he⟩, hcov⟩, hnext⟩, hfin⟩, hfailed⟩ : (((((s.submitter = .locking 3 ∧ syncStatus s = .operation 2) ∧
        s.asyncErrorSet = false) ∧ s.covered = 2) ∧ s.nextOperationId = 4) ∧ s.finished 3 = true) ∧ s.failed 3 = false := by
      simpa using hs
    cases hs' : streamStep s 1 (.submitter .return) with
    | none => simp [streamStep, submitterStep, hpc] at hs'
    | some s' =>
      refine ⟨s, s', hr, hs', by rw [hst]; simp, he, fun id h1 h2 => ?_⟩
      obtain rfl : id = 3 := by omega
      exact ⟨hfin, hfailed⟩
  · obtain ⟨s, hr, hs⟩ := exists_of_replay (S := gdrStream 1)
      (submitCopy 1 ++ [.submitter (.submit .wait 0), .submitter .check, .submitter .push, .submitter .publish,
        .scheduler (.setDevice true),
        .scheduler .step, .scheduler .step, .scheduler .step, .scheduler .step, .scheduler (.post .posted), .scheduler .step,
        .scheduler (.event false),
        .scheduler .step] ++ synchronize)
      (s := freshStream)
      (p := fun s => decide (s.submitter = .locking 2) && decide (s.posted = [1]) && decide (s.nextOperationId = 3) &&
        s.asyncErrorSet)
      freshStream_isInit (by decide)
    obtain ⟨⟨⟨hpc, hposted⟩, hnext⟩, he⟩ : ((s.submitter = .locking 2 ∧ s.posted = [1]) ∧ s.nextOperationId = 3) ∧
        s.asyncErrorSet = true := by
      simpa using hs
    cases hs' : streamStep s 1 (.submitter .return) with
    | none => simp [streamStep, submitterStep, hpc] at hs'
    | some s' =>
      refine ⟨s, s', hr, hs', ?_, by omega⟩
      simp only [streamStep, submitterStep, hpc, he] at hs'
      obtain rfl := Option.some.inj hs'
      show 1 ∈ s.posted
      rw [hposted]
      exact List.mem_singleton_self 1

end UnifiedCache.Gdr
