/-
  UnifiedCache.Gdr.Order — the operations of a GDR stream are handled in order, each once
  (see `UnifiedCache.Gdr.Stream`).

  The operations that are not finished stand in one line: the request that was polled last, the
  completions, the copies that are posted, the scheduler's batch, and the ring (`pendingIds`). A step
  takes an operation out of it, adds a new one at its end, or leaves it (`OrderInv`).

  So the frontier never passes an operation that is not finished, and it is at the end of those that
  have all finished whenever no thread is in `MarkOperationCompleted`, in the runs in which no slot is
  taken by another operation (`frontier_exact`). Event waits and copies that are empty or fail do not
  wait for the copies that are in flight: 8192 of them later, one comes into the slot of an operation
  that is waiting for the frontier, and that one is lost (`slot_overwritten`).
-/

import UnifiedCache.Gdr.Stream

namespace UnifiedCache.Gdr

open UnifiedCache.Base

variable {s s' : Stream} {l : StreamLabel} {m : Nat}

/-- The operations that the scheduler has taken from the ring. -/
def SchedulerPc.ids : SchedulerPc → List Nat
  | .next batch | .marking batch => batch.map (·.operationId)
  | .waiting op batch | .submitting op batch | .posting op batch | .retrying op batch | .failing op batch =>
      op.operationId :: batch.map (·.operationId)
  | _ => []

/-- The request that the completion thread has polled. -/
def CompletionPc.ids : CompletionPc → List Nat
  | .completed reqId => [reqId]
  | _ => []

namespace Stream

variable (s : Stream)

/-- The copies that have been posted and not marked. -/
def postedIds : List Nat := s.completion.ids ++ s.cq.map (·.1) ++ s.posted

/-- The operations that are not finished, the oldest first. -/
def pendingIds : List Nat := s.postedIds ++ s.scheduler.ids ++ s.ring.map (·.operationId)

/-- The id of the next operation that comes into the ring. -/
def bound : Nat := if s.submitter = .publishing then s.nextOperationId + 1 else s.nextOperationId

end Stream

structure OrderInv (s : Stream) : Prop where
  sorted : s.pendingIds.Pairwise (· < ·)
  pending : ∀ id, id ∈ s.pendingIds → 1 ≤ id ∧ id < s.bound ∧ s.finished id = false
  finished : ∀ id, s.finished id = true → id < s.bound
  pos : 1 ≤ s.nextOperationId
  submitting : ∀ op, s.submitter = .pushing op ∨ s.submitter = .trying op → op.operationId = s.nextOperationId
  scheduler : (∀ batch, s.scheduler ≠ .marking batch) → s.mark .scheduler = .none
  completion : s.completion ≠ .marking → s.mark .completion = .none

/-- Whose step of `MarkOperationCompleted` a step is. -/
def StreamLabel.marks : StreamLabel → Option StreamThread
  | .scheduler (.mark _) => some .scheduler
  | .completion (.mark _) => some .completion
  | _ => none

/-- What a step does to the frontier. -/
inductive FrontierStep (l : StreamLabel) (s s' : Stream) : Prop where
  | stays (frontier : s'.frontier = s.frontier) (mark : s'.mark = s.mark) (finished : s'.finished = s.finished)
  | called (t : StreamThread) (id : Nat) (mem : id ∈ s.pendingIds) (idle : s.mark t = .none) (frontier : s'.frontier = s.frontier)
      (mark : s'.mark = Function.update s.mark t (.called id)) (finished : s'.finished = Function.update s.finished id true)
  | marked (t : StreamThread) (spurious : Bool) (p : MarkPc) (label : l.marks = some t)
      (step : markStep kCompletionRingCapacity s.frontier spurious (s.mark t) = some (s'.frontier, p))
      (mark : s'.mark = Function.update s.mark t p) (finished : s'.finished = s.finished)

/-- The line goes on, without the operations that were left when a thread stopped. -/
theorem OrderInv.stays (h : OrderInv s) (hsub : s'.pendingIds.Sublist s.pendingIds) (hfin : s'.finished = s.finished)
    (hbound : s'.bound = s.bound)
    (hpos : s.nextOperationId ≤ s'.nextOperationId)
    (hsubmitting : ∀ op, s'.submitter = .pushing op ∨ s'.submitter = .trying op → op.operationId = s'.nextOperationId)
    (hscheduler : (∀ batch, s'.scheduler ≠ .marking batch) → s'.mark .scheduler = .none)
    (hcompletion : s'.completion ≠ .marking → s'.mark .completion = .none) : OrderInv s' := by
  refine ⟨h.sorted.sublist hsub, fun id hid => ?_, fun id hid => ?_, h.pos.trans hpos, hsubmitting, hscheduler, hcompletion⟩
  · rw [hbound, hfin]
    exact h.pending id (hsub.subset hid)
  · rw [hfin] at hid
    rw [hbound]
    exact h.finished id hid

theorem not_mem_of_sorted {A B : List Nat} {x : Nat} (h : (A ++ x :: B).Pairwise (· < ·)) : x ∉ A ++ B := by
  obtain ⟨-, hB, hAB⟩ := List.pairwise_append.mp h
  intro hx
  rcases List.mem_append.mp hx with hx | hx
  · exact Nat.lt_irrefl x (hAB x hx x List.mem_cons_self)
  · exact Nat.lt_irrefl x ((List.pairwise_cons.mp hB).1 x hx)

/-- An operation finishes. -/
theorem OrderInv.leaves {A B : List Nat} {id : Nat} (h : OrderInv s) (hids : s.pendingIds = A ++ id :: B)
    (hids' : s'.pendingIds = A ++ B)
    (hfin : s'.finished = Function.update s.finished id true) (hn : s'.nextOperationId = s.nextOperationId ∧
      s'.submitter = s.submitter)
    (hscheduler : (∀ batch, s'.scheduler ≠ .marking batch) → s'.mark .scheduler = .none)
    (hcompletion : s'.completion ≠ .marking → s'.mark .completion = .none) : OrderInv s' := by
  have hbound : s'.bound = s.bound := by
    unfold Stream.bound
    rw [hn.1, hn.2]
  have hsub : s'.pendingIds.Sublist s.pendingIds := by
    rw [hids, hids']
    exact List.Sublist.append_left (List.sublist_cons_self id B) A
  have hnot : id ∉ s'.pendingIds := by
    rw [hids']
    exact not_mem_of_sorted (hids ▸ h.sorted)
  have hmem : id ∈ s.pendingIds := by
    rw [hids]
    exact List.mem_append_right A List.mem_cons_self
  refine ⟨h.sorted.sublist hsub, fun x hx => ?_, fun x hx => ?_, ?_, ?_, hscheduler, hcompletion⟩
  · have hne : x ≠ id := fun e => hnot (e ▸ hx)
    rw [hbound, hfin, Function.update_of_ne hne]
    exact h.pending x (hsub.subset hx)
  · rw [hbound]
    by_cases e : x = id
    · rw [e]
      exact (h.pending id hmem).2.1
    · rw [hfin, Function.update_of_ne e] at hx
      exact h.finished x hx
  · rw [hn.1]
    exact h.pos
  · rw [hn.1, hn.2]
    exact h.submitting

theorem OrderInv.submitter {l : SubmitterLabel} (h : OrderInv s) (hs : submitterStep s l = some s') : OrderInv s' ∧
    FrontierStep (.submitter l) s s' := by
  have hkeep : s'.scheduler = s.scheduler ∧ s'.completion = s.completion ∧ s'.mark = s.mark ∧ s'.finished = s.finished ∧
      s'.frontier = s.frontier ∧
      s'.postedIds = s.postedIds := by
    cases l <;> simp only [submitterStep] at hs <;> (repeat' split at hs) <;> first | cases hs; done | skip
    all_goals
      obtain rfl := Option.some.inj hs
      exact ⟨rfl, rfl, rfl, rfl, rfl, rfl⟩
  obtain ⟨hsch, hcomp, hmark, hfin, hfr, hposted⟩ := hkeep
  refine ⟨?_, .stays hfr hmark hfin⟩
  have hscheduler : (∀ batch, s'.scheduler ≠ .marking batch) → s'.mark .scheduler = .none := by
    rw [hsch, hmark]
    exact h.scheduler
  have hcompletion : s'.completion ≠ .marking → s'.mark .completion = .none := by
    rw [hcomp, hmark]
    exact h.completion
  have hsame : s'.ring = s.ring → s'.pendingIds.Sublist s.pendingIds := by
    intro hr
    unfold Stream.pendingIds
    rw [hposted, hsch, hr]
  have hsubmitting := h.submitting
  cases l with
  | push =>
    simp only [submitterStep] at hs
    split at hs
    · next op hpc =>
      have hop := h.submitting op (.inr hpc)
      have hb : s.bound = s.nextOperationId := by
        unfold Stream.bound
        rw [hpc]
        rfl
      split at hs
      · obtain rfl := Option.some.inj hs
        have hids : Stream.pendingIds { s with ring := s.ring ++ [op], submitter := .publishing } =
            s.pendingIds ++ [s.nextOperationId] := by
          unfold Stream.pendingIds
          rw [← hop, List.map_append, ← List.append_assoc]
          rfl
        constructor
        · rw [hids]
          refine List.pairwise_append.mpr ⟨h.sorted, List.pairwise_singleton .., fun a ha b hb' => ?_⟩
          rw [List.mem_singleton.mp hb', ← hb]
          exact (h.pending a ha).2.1
        · intro id hid
          rw [hids] at hid
          show 1 ≤ id ∧ id < s.nextOperationId + 1 ∧ s.finished id = false
          rcases List.mem_append.mp hid with hid | hid
          · obtain ⟨h1, h2, h3⟩ := h.pending id hid
            exact ⟨h1, by omega, h3⟩
          · rw [List.mem_singleton.mp hid]
            refine ⟨h.pos, Nat.lt_succ_self _, ?_⟩
            by_contra hf
            have hlt := h.finished _ (Bool.eq_true_of_not_eq_false hf)
            omega
        · intro id hid
          have hlt := h.finished id hid
          show id < s.nextOperationId + 1
          omega
        · exact h.pos
        · rintro op' (e | e) <;> cases e
        · exact hscheduler
        · exact hcompletion
      · obtain rfl := Option.some.inj hs
        refine h.stays (hsame rfl) rfl (hb ▸ rfl) (Nat.le_refl _) (fun op' e => ?_) hscheduler hcompletion
        rcases e with e | e <;> cases e
        exact hop
    · cases hs
  | publish =>
    simp only [submitterStep] at hs
    split at hs
    · next hpc =>
      obtain rfl := Option.some.inj hs
      refine h.stays (hsame rfl) rfl ?_ (Nat.le_succ _) (fun op' e => ?_) hscheduler hcompletion
      · unfold Stream.bound
        rw [hpc]
        rfl
      · rcases e with e | e <;> cases e
    · cases hs
  | «return» =>
    simp only [submitterStep] at hs
    split at hs
    · next target hpc =>
      obtain rfl := Option.some.inj hs
      have hrest : ∀ x : List Nat,
          OrderInv { s with submitter := .idle, covered := max s.covered target, failedOperations := x } := by
        intro x
        refine h.stays (List.Sublist.refl _) rfl ?_ (Nat.le_refl _) (fun op' e => ?_) h.scheduler h.completion
        · unfold Stream.bound
          rw [hpc]
          rfl
        · rcases e with e | e <;> cases e
      (repeat' split)
      all_goals exact hrest _
    · cases hs
  | _ =>
    simp only [submitterStep] at hs
    (repeat' split at hs)
    all_goals first | cases hs; done | skip
    all_goals
      next hpc =>
      obtain rfl := Option.some.inj hs
      refine h.stays (hsame rfl) rfl ?_ (Nat.le_refl _) (fun op' e => ?_) hscheduler hcompletion
      · unfold Stream.bound
        grind
      · grind

/-- What a thread's step that calls nothing leaves as it is. -/
structure ThreadKeeps (s s' : Stream) : Prop where
  frontier : s'.frontier = s.frontier
  mark : s'.mark = s.mark
  finished : s'.finished = s.finished
  next : s'.nextOperationId = s.nextOperationId ∧ s'.submitter = s.submitter

theorem OrderInv.keeps (h : OrderInv s) (hk : ThreadKeeps s s') (hsub : s'.pendingIds.Sublist s.pendingIds)
    (hscheduler : (∀ batch, s'.scheduler ≠ .marking batch) → (∀ batch, s.scheduler ≠ .marking batch) ∨ s.mark .scheduler = .none)
    (hcompletion : s'.completion ≠ .marking → s.completion ≠ .marking ∨ s.mark .completion = .none) : OrderInv s' ∧
    FrontierStep l s s' := by
  obtain ⟨hfr, hmark, hfin, hn, hsubm⟩ := hk
  refine ⟨h.stays hsub hfin ?_ (Nat.le_of_eq hn.symm) ?_ (fun e => ?_) fun e => ?_, .stays hfr hmark hfin⟩
  · unfold Stream.bound
    rw [hn, hsubm]
  · rw [hn, hsubm]
    exact h.submitting
  · rw [hmark]
    rcases hscheduler e with e' | e'
    · exact h.scheduler e'
    · exact e'
  · rw [hmark]
    rcases hcompletion e with e' | e'
    · exact h.completion e'
    · exact e'

/-- The step of `MarkOperationCompleted` that a thread makes. -/
theorem markStep_cases {t : StreamThread} {spurious : Bool} (h : s.markStep t spurious = some s') :
    ∃ f p, markStep kCompletionRingCapacity s.frontier spurious (s.mark t) = some (f, p) ∧
      s' = { s with frontier := f, mark := Function.update s.mark t p } := by
  obtain ⟨⟨f, p⟩, hm, rfl⟩ := Option.map_eq_some_iff.mp h
  exact ⟨f, p, hm, rfl⟩

theorem pendingIds_head {op : Operation} {batch : List Nat} (e : s.scheduler.ids = op.operationId :: batch) :
    s.pendingIds = s.postedIds ++ op.operationId :: (batch ++ s.ring.map (·.operationId)) := by
  unfold Stream.pendingIds
  rw [e, List.append_assoc, List.cons_append]

/-- The scheduler is done with the operation at the head of its batch, and marks it. -/
theorem OrderInv.schedulerCalls {l : SchedulerLabel} {op : Operation} {batch : List Operation} (h : OrderInv s)
    (e : s.scheduler.ids = op.operationId :: batch.map (·.operationId)) (hne : ∀ b, s.scheduler ≠ .marking b)
    (hkept : s'.postedIds = s.postedIds ∧ s'.ring = s.ring ∧ s'.nextOperationId = s.nextOperationId ∧ s'.submitter = s.submitter ∧
      s'.completion = s.completion ∧ s'.frontier = s.frontier)
    (hsch : s'.scheduler = .marking batch) (hmark : s'.mark = Function.update s.mark .scheduler (.called op.operationId))
    (hfin : s'.finished = Function.update s.finished op.operationId true) : OrderInv s' ∧ FrontierStep (.scheduler l) s s' := by
  obtain ⟨hposted, hring, hn, hsubm, hcomp, hfr⟩ := hkept
  constructor
  · apply h.leaves (pendingIds_head e) _ hfin ⟨hn, hsubm⟩
    · exact fun e => absurd hsch (e batch)
    · rw [hcomp, hmark]
      intro e
      rw [Function.update_of_ne (by nofun)]
      exact h.completion e
    · unfold Stream.pendingIds
      rw [hposted, hsch, hring, List.append_assoc]
      rfl
  · refine .called .scheduler op.operationId ?_ (h.scheduler hne) hfr hmark hfin
    rw [pendingIds_head e]
    exact List.mem_append_right _ List.mem_cons_self

theorem OrderInv.setScheduler {l : SchedulerLabel} {pc : SchedulerPc} (h : OrderInv s) (hsub : pc.ids.Sublist s.scheduler.ids)
    (hne : ∀ b, s.scheduler ≠ .marking b) : OrderInv (s.setScheduler pc) ∧ FrontierStep (.scheduler l) s (s.setScheduler pc) := by
  refine h.keeps ⟨rfl, rfl, rfl, rfl, rfl⟩ ?_ ?_ ?_
  · exact (hsub.append_left _).append_right _
  · exact fun _ => .inl hne
  · exact .inl

theorem OrderInv.post {r : PostResult} (h : OrderInv s) (hs : Gdr.schedulerStep s m (.post r) = some s') :
    OrderInv s' ∧ FrontierStep (.scheduler (.post r)) s s' := by
  simp only [Gdr.schedulerStep] at hs
  split at hs
  · next op batch hpc =>
    have hne : ∀ b, s.scheduler ≠ .marking b := by
      rw [hpc]
      nofun
    split at hs
    · split at hs
      · obtain rfl := Option.some.inj hs
        have e : s.scheduler.ids = op.operationId :: batch.map (·.operationId) := by
          rw [hpc]
          rfl
        refine h.keeps ⟨rfl, rfl, rfl, rfl, rfl⟩ ?_ (fun _ => .inl hne) .inl
        rw [pendingIds_head e]
        unfold Stream.pendingIds Stream.postedIds
        simp only [SchedulerPc.ids, List.append_assoc, List.cons_append, List.nil_append]
        exact List.Sublist.refl _
      · cases hs
    · split at hs
      · cases hs
      · obtain rfl := Option.some.inj hs
        exact h.setScheduler (by rw [hpc]; exact List.Sublist.refl _) hne
    · obtain rfl := Option.some.inj hs
      exact h.setScheduler (by rw [hpc]; exact List.Sublist.refl _) hne
  · cases hs

theorem OrderInv.schedulerMarks {spurious : Bool} (h : OrderInv s) (hs : Gdr.schedulerStep s m (.mark spurious) = some s') :
    OrderInv s' ∧ FrontierStep (.scheduler (.mark spurious)) s s' := by
  simp only [Gdr.schedulerStep] at hs
  split at hs
  · next batch hpc =>
    obtain ⟨s1, hm, hs⟩ := Option.map_eq_some_iff.mp hs
    obtain ⟨f, p, hstep, rfl⟩ := markStep_cases hm
    have hids : s'.pendingIds = s.pendingIds ∧ s'.frontier = f ∧ s'.mark = Function.update s.mark .scheduler p ∧
        s'.finished = s.finished ∧
        s'.nextOperationId = s.nextOperationId ∧ s'.submitter = s.submitter ∧ s'.completion = s.completion ∧
        ((∀ b, s'.scheduler ≠ .marking b) → p = .none) := by
      subst hs
      dsimp only
      split
      · next hp =>
        rw [Function.update_self] at hp
        refine ⟨?_, rfl, rfl, rfl, rfl, rfl, rfl, fun _ => hp⟩
        unfold Stream.pendingIds
        rw [hpc]
        rfl
      · refine ⟨rfl, rfl, rfl, rfl, rfl, rfl, rfl, fun e => ?_⟩
        exact absurd hpc (e batch)
    obtain ⟨hids, hfr, hmark, hfin, hn, hsubm, hcomp, hnone⟩ := hids
    constructor
    · refine h.stays (hids ▸ List.Sublist.refl _) hfin ?_ (Nat.le_of_eq hn.symm) ?_ (fun e => ?_) fun e => ?_
      · unfold Stream.bound
        rw [hn, hsubm]
      · rw [hn, hsubm]
        exact h.submitting
      · rw [hmark, Function.update_self]
        exact hnone e
      · rw [hmark, Function.update_of_ne (by nofun)]
        exact h.completion (hcomp ▸ e)
    · exact .marked .scheduler spurious p rfl (hfr ▸ hstep) hmark hfin
  · cases hs

/-- The batch is taken from the head of the ring. -/
theorem OrderInv.pops {l : SchedulerLabel} (h : OrderInv s) (hpc : s.scheduler = .popping)
    (hs' : s' = { s with
      ring := s.ring.drop kSchedulerBatchSize
      scheduler := if s.ring.take kSchedulerBatchSize = [] then .polling else .next (s.ring.take kSchedulerBatchSize) }) :
    OrderInv s' ∧ FrontierStep (.scheduler l) s s' := by
  subst hs'
  refine h.keeps ⟨rfl, rfl, rfl, rfl, rfl⟩ ?_ ?_ ?_
  · have hids : ∀ pc : SchedulerPc, pc.ids = (s.ring.take kSchedulerBatchSize).map (·.operationId) →
        s.postedIds ++ pc.ids ++ (s.ring.drop kSchedulerBatchSize).map (·.operationId) = s.pendingIds := by
      intro pc e
      unfold Stream.pendingIds
      rw [e, hpc, List.append_assoc, ← List.map_append, List.take_append_drop, List.append_assoc]
      rfl
    refine (?_ : _ = s.pendingIds) ▸ List.Sublist.refl _
    apply hids
    split
    · next e =>
      rw [e]
      rfl
    · rfl
  · refine fun _ => .inl ?_
    rw [hpc]
    nofun
  · exact .inl

theorem OrderInv.schedulerMoves (h : OrderInv s) (hs : Gdr.schedulerStep s m .step = some s') :
    OrderInv s' ∧ FrontierStep (.scheduler .step) s s' := by
  simp only [Gdr.schedulerStep] at hs
  split at hs
  · next hpc =>
    obtain rfl := Option.some.inj hs
    apply h.setScheduler
    · split <;> exact List.nil_sublist _
    · rw [hpc]
      nofun
  · next hpc => exact h.pops hpc (Option.some.inj hs).symm
  · next hpc =>
    obtain rfl := Option.some.inj hs
    exact h.setScheduler (List.nil_sublist _) (by rw [hpc]; nofun)
  · next op batch hpc =>
    obtain rfl := Option.some.inj hs
    apply h.setScheduler
    · rw [hpc]
      split
      · exact List.nil_sublist _
      · split <;> exact List.Sublist.refl _
    · rw [hpc]
      nofun
  · next op batch hpc =>
    have hne : ∀ b, s.scheduler ≠ .marking b := by
      rw [hpc]
      nofun
    split at hs
    · obtain rfl := Option.some.inj hs
      exact h.setScheduler (List.nil_sublist _) hne
    · split at hs
      · obtain rfl := Option.some.inj hs
        have e : s.scheduler.ids = op.operationId :: batch.map (·.operationId) := by
          rw [hpc]
          rfl
        exact h.schedulerCalls e hne ⟨rfl, rfl, rfl, rfl, rfl, rfl⟩ rfl rfl rfl
      · obtain rfl := Option.some.inj hs
        exact h.setScheduler (by rw [hpc]; exact List.Sublist.refl _) hne
  · next op batch hpc =>
    obtain rfl := Option.some.inj hs
    apply h.setScheduler
    · rw [hpc]
      split
      · exact List.nil_sublist _
      · exact List.Sublist.refl _
    · rw [hpc]
      nofun
  · next op batch hpc =>
    obtain rfl := Option.some.inj hs
    have e : s.scheduler.ids = op.operationId :: batch.map (·.operationId) := by
      rw [hpc]
      rfl
    exact h.schedulerCalls e (by rw [hpc]; nofun) ⟨rfl, rfl, rfl, rfl, rfl, rfl⟩ rfl rfl rfl
  · next stage hpc =>
    obtain rfl := Option.some.inj hs
    refine h.keeps ?_ ?_ ?_ ?_
    · cases stage <;> exact ⟨rfl, rfl, rfl, rfl, rfl⟩
    · unfold Stream.pendingIds
      rw [hpc]
      cases stage
      · exact List.Sublist.refl _
      · exact List.Sublist.append_left (List.nil_sublist _) _
      · exact List.Sublist.refl _
    · refine fun _ => .inl ?_
      rw [hpc]
      nofun
    · cases stage <;> exact .inl
  · cases hs

theorem OrderInv.schedulerStep {l : SchedulerLabel} (h : OrderInv s) (hs : schedulerStep s m l = some s') :
    OrderInv s' ∧ FrontierStep (.scheduler l) s s' := by
  cases l with
  | setDevice ok =>
    simp only [Gdr.schedulerStep] at hs
    split at hs
    · next hpc =>
      obtain rfl := Option.some.inj hs
      apply h.setScheduler
      · cases ok <;> exact List.nil_sublist _
      · rw [hpc]
        nofun
    · cases hs
  | event ok =>
    simp only [Gdr.schedulerStep] at hs
    split at hs
    · next op batch hpc =>
      obtain rfl := Option.some.inj hs
      have e : s.scheduler.ids = op.operationId :: batch.map (·.operationId) := by
        rw [hpc]
        rfl
      cases ok with
      | true => exact h.schedulerCalls e (by rw [hpc]; nofun) ⟨rfl, rfl, rfl, rfl, rfl, rfl⟩ rfl rfl rfl
      | false => exact h.setScheduler (List.nil_sublist _) (by rw [hpc]; nofun)
    · cases hs
  | post r => exact h.post hs
  | mark spurious => exact h.schedulerMarks hs
  | step => exact h.schedulerMoves hs

theorem OrderInv.completionKeeps {l : CompletionLabel} (h : OrderInv s) (hk : ThreadKeeps s s')
    (hsub : s'.pendingIds.Sublist s.pendingIds)
    (hsch : s'.scheduler = s.scheduler) (hne : s.completion ≠ .marking) : OrderInv s' ∧ FrontierStep (.completion l) s s' := by
  apply h.keeps hk hsub
  · rw [hsch]
    exact .inl
  · exact fun _ => .inl hne

theorem OrderInv.setCompletion {l : CompletionLabel} {pc : CompletionPc} (h : OrderInv s) (e : pc.ids = [])
    (hne : s.completion ≠ .marking) :
    OrderInv (s.setCompletion pc) ∧ FrontierStep (.completion l) s (s.setCompletion pc) := by
  refine h.completionKeeps ⟨rfl, rfl, rfl, rfl, rfl⟩ ?_ rfl hne
  unfold Stream.pendingIds Stream.postedIds Stream.setCompletion
  dsimp only
  rw [e]
  exact ((((List.nil_sublist _).append_right _).append_right _).append_right _).append_right _

theorem OrderInv.completionMarks {spurious : Bool} (h : OrderInv s) (hs : Gdr.completionStep s (.mark spurious) = some s') :
    OrderInv s' ∧ FrontierStep (.completion (.mark spurious)) s s' := by
  simp only [Gdr.completionStep] at hs
  split at hs
  · next hpc =>
    obtain ⟨s1, hm, hs⟩ := Option.map_eq_some_iff.mp hs
    obtain ⟨f, p, hstep, rfl⟩ := markStep_cases hm
    have hids : s'.pendingIds = s.pendingIds ∧ s'.frontier = f ∧ s'.mark = Function.update s.mark .completion p ∧
        s'.finished = s.finished ∧
        s'.nextOperationId = s.nextOperationId ∧ s'.submitter = s.submitter ∧ s'.scheduler = s.scheduler ∧
        (s'.completion ≠ .marking → p = .none) := by
      subst hs
      dsimp only
      split
      · next hp =>
        rw [Function.update_self] at hp
        refine ⟨?_, rfl, rfl, rfl, rfl, rfl, rfl, fun _ => hp⟩
        unfold Stream.pendingIds Stream.postedIds
        rw [hpc]
        rfl
      · exact ⟨rfl, rfl, rfl, rfl, rfl, rfl, rfl, fun e => absurd hpc e⟩
    obtain ⟨hids, hfr, hmark, hfin, hn, hsubm, hsch, hnone⟩ := hids
    constructor
    · refine h.stays (hids ▸ List.Sublist.refl _) hfin ?_ (Nat.le_of_eq hn.symm) ?_ (fun e => ?_) fun e => ?_
      · unfold Stream.bound
        rw [hn, hsubm]
      · rw [hn, hsubm]
        exact h.submitting
      · rw [hmark, Function.update_of_ne (by nofun)]
        exact h.scheduler (hsch ▸ e)
      · rw [hmark, Function.update_self]
        exact hnone e
    · exact .marked .completion spurious p rfl (hfr ▸ hstep) hmark hfin
  · cases hs

theorem OrderInv.completionMoves (h : OrderInv s) (hs : Gdr.completionStep s .step = some s') :
    OrderInv s' ∧ FrontierStep (.completion .step) s s' := by
  simp only [Gdr.completionStep] at hs
  split at hs
  · next hpc =>
    have hne : s.completion ≠ .marking := by
      rw [hpc]
      nofun
    split at hs
    · obtain rfl := Option.some.inj hs
      exact h.setCompletion rfl hne
    · next reqId ok cq hcq =>
      have hids : s.pendingIds = reqId :: (cq.map (·.1) ++ s.posted ++ s.scheduler.ids ++ s.ring.map (·.operationId)) := by
        unfold Stream.pendingIds Stream.postedIds
        rw [hpc, hcq]
        rfl
      have hstop : OrderInv { s with cq, completion := .stopping .locking } ∧
          FrontierStep (.completion .step) s { s with cq, completion := .stopping .locking } := by
        refine h.completionKeeps ⟨rfl, rfl, rfl, rfl, rfl⟩ ?_ rfl hne
        rw [hids]
        exact List.sublist_cons_self _ _
      split at hs
      · split at hs
        · obtain rfl := Option.some.inj hs
          refine h.completionKeeps ⟨rfl, rfl, rfl, rfl, rfl⟩ ?_ rfl hne
          rw [hids]
          exact List.Sublist.refl _
        · obtain rfl := Option.some.inj hs
          exact hstop
      · obtain rfl := Option.some.inj hs
        exact hstop
  · next reqId hpc =>
    have hne : s.completion ≠ .marking := by
      rw [hpc]
      nofun
    obtain rfl := Option.some.inj hs
    split
    · exact h.setCompletion rfl hne
    · have hids : s.pendingIds = [] ++ reqId :: (s.cq.map (·.1) ++ s.posted ++ s.scheduler.ids ++ s.ring.map (·.operationId)) :=
          by
        unfold Stream.pendingIds Stream.postedIds
        rw [hpc]
        rfl
      constructor
      · refine h.leaves hids rfl rfl ⟨rfl, rfl⟩ ?_ ?_
        · intro e
          show Function.update s.mark .completion (.called reqId) .scheduler = _
          rw [Function.update_of_ne (by nofun)]
          exact h.scheduler e
        · exact fun e => absurd rfl e
      · refine .called .completion reqId ?_ (h.completion hne) rfl rfl rfl
        rw [hids]
        exact List.mem_cons_self
  · next hpc =>
    obtain rfl := Option.some.inj hs
    apply h.setCompletion
    · split <;> rfl
    · rw [hpc]
      nofun
  · next hpc =>
    obtain rfl := Option.some.inj hs
    apply h.setCompletion
    · split <;> rfl
    · rw [hpc]
      nofun
  · next stage hpc =>
    obtain rfl := Option.some.inj hs
    have hne : s.completion ≠ .marking := by
      rw [hpc]
      nofun
    refine h.completionKeeps ?_ ?_ ?_ hne
    · cases stage <;> exact ⟨rfl, rfl, rfl, rfl, rfl⟩
    · unfold Stream.pendingIds Stream.postedIds
      rw [hpc]
      cases stage
      · exact List.Sublist.refl _
      · exact List.Sublist.append_left (List.nil_sublist _) _
      · exact List.Sublist.refl _
    · cases stage <;> rfl
  · cases hs

theorem OrderInv.completionStep {l : CompletionLabel} (h : OrderInv s) (hs : completionStep s l = some s') :
    OrderInv s' ∧ FrontierStep (.completion l) s s' := by
  cases l with
  | notify ok =>
    simp only [Gdr.completionStep] at hs
    split at hs
    · next hpc =>
      obtain rfl := Option.some.inj hs
      cases ok <;> exact h.setCompletion rfl (by rw [hpc]; nofun)
    · cases hs
  | pollFails =>
    simp only [Gdr.completionStep] at hs
    split at hs
    · next hpc =>
      obtain rfl := Option.some.inj hs
      exact h.setCompletion rfl (by rw [hpc]; nofun)
    · cases hs
  | wait r =>
    simp only [Gdr.completionStep] at hs
    split at hs
    · next hpc =>
      split at hs
      all_goals
        obtain rfl := Option.some.inj hs
        exact h.setCompletion rfl (by rw [hpc]; nofun)
    · cases hs
  | mark spurious => exact h.completionMarks hs
  | step => exact h.completionMoves hs

theorem step_orderInv (h : OrderInv s) (hs : streamStep s m l = some s') : OrderInv s' ∧ FrontierStep l s s' := by
  cases l with
  | submitter l => exact h.submitter hs
  | scheduler l => exact h.schedulerStep hs
  | completion l => exact h.completionStep hs
  | nic ok =>
    simp only [streamStep] at hs
    split at hs
    · cases hs
    · next reqId posted hposted =>
      obtain rfl := Option.some.inj hs
      refine h.keeps ⟨rfl, rfl, rfl, rfl, rfl⟩ ?_ ?_ ?_
      · unfold Stream.pendingIds Stream.postedIds
        rw [hposted]
        simp only [List.map_append, List.map_cons, List.map_nil, List.append_assoc, List.cons_append, List.nil_append]
        exact List.Sublist.refl _
      · exact .inl
      · exact .inl

theorem init_orderInv (h : s.IsInit) : OrderInv s := by
  have hids : s.pendingIds = [] := by
    unfold Stream.pendingIds Stream.postedIds
    rw [h.completion, h.cq, h.posted, h.scheduler, h.ring]
    rfl
  constructor
  · rw [hids]
    exact List.Pairwise.nil
  · intro id hid
    rw [hids] at hid
    cases hid
  · intro id hid
    rw [h.finished] at hid
    cases hid
  · rw [h.nextOperationId]
  · rintro op (e | e)
    all_goals
      rw [h.submitter] at e
      cases e
  · exact fun _ => h.mark _
  · exact fun _ => h.mark _

theorem reach_orderInv {ok : Stream → StreamLabel → Prop} (h : Reach (gdrStream m) ok s) : OrderInv s :=
  h.inv (I := OrderInv) (fun _ => init_orderInv) fun _ _ _ hi _ hs => (step_orderInv hi hs).1

/-! ## The frontier -/

/-- No slot is taken by another operation. -/
def FreeSlots (s : Stream) (l : StreamLabel) : Prop := ∀ t, l.marks = some t → Frees kCompletionRingCapacity s.frontier (s.mark t)

def Stream.FrontierInv (s : Stream) : Prop := Gdr.FrontierInv kCompletionRingCapacity s.frontier s.mark s.finished

def Stream.ParkedInv (s : Stream) : Prop := Gdr.ParkedInv kCompletionRingCapacity s.frontier s.mark s.finished

theorem init_frontierInv (h : s.IsInit) : s.FrontierInv := by
  have hmark := h.mark
  have hfr := h.frontier
  constructor
  · intro i h1 hle
    rw [hfr] at hle
    have hle : i ≤ 0 := hle
    omega
  · intro t id hu
    rw [hmark] at hu
    cases hu
  · intro t t' id hu
    rw [hmark] at hu
    cases hu
  · intro q hq
    rw [hfr] at hq
    exact absurd rfl hq
  all_goals
    intro t n e
    rw [hmark] at e
    cases e

theorem init_parkedInv (h : s.IsInit) : s.ParkedInv := by
  constructor
  · intro id _ hfin
    rw [h.finished] at hfin
    cases hfin
  · intro t n e
    rw [h.mark] at e
    cases e
  · intro t t' n e
    rw [h.mark] at e
    cases e
  · intro e
    rw [h.frontier] at e
    cases e

theorem step_frontierInv (h : s.FrontierInv) (ho : OrderInv s) (hs : streamStep s m l = some s') : s'.FrontierInv := by
  unfold Stream.FrontierInv at h ⊢
  cases (step_orderInv ho hs).2 with
  | stays hfr hmark hfin =>
    rw [hfr, hmark, hfin]
    exact h
  | called t id hmem hidle hfr hmark hfin =>
    obtain ⟨hid, -, hnot⟩ := ho.pending id hmem
    rw [hfr, hmark, hfin]
    exact h.call hid hnot
  | marked t spurious p hl hstep hmark hfin =>
    rw [hmark, hfin]
    exact h.step hstep

theorem step_parkedInv (h : s.ParkedInv) (hf : s.FrontierInv) (ho : OrderInv s) (hok : FreeSlots s l)
    (hs : streamStep s m l = some s') :
    s'.ParkedInv := by
  unfold Stream.ParkedInv at h ⊢
  cases (step_orderInv ho hs).2 with
  | stays hfr hmark hfin =>
    rw [hfr, hmark, hfin]
    exact h
  | called t id hmem hidle hfr hmark hfin =>
    rw [hfr, hmark, hfin]
    exact h.call hidle
  | marked t spurious p hl hstep hmark hfin =>
    rw [hmark, hfin]
    exact h.step hf (hok t hl) hstep

theorem reach_frontierInv {ok : Stream → StreamLabel → Prop} (h : Reach (gdrStream m) ok s) : s.FrontierInv :=
  h.inv_with (I := Stream.FrontierInv) (J := OrderInv) (fun _ => reach_orderInv)
  (fun _ => init_frontierInv) fun _ _ _ hj hi _ hs =>
    step_frontierInv hi hj hs

theorem reach_parkedInv (h : Reach (gdrStream m) FreeSlots s) : s.ParkedInv :=
  h.inv_with (I := Stream.ParkedInv) (J := fun s => OrderInv s ∧ s.FrontierInv)
  (fun _ h => ⟨reach_orderInv h, reach_frontierInv h⟩)
    (fun _ => init_parkedInv) fun _ _ _ hj hi hok hs => step_parkedInv hi hj.2 hj.1 hok hs

/-- The number of the operations that have all finished is never exceeded, and is reached when no thread is marking. -/
theorem frontier_exact :
    (Reach (gdrStream m) Any s → ∀ i, 1 ≤ i → i ≤ s.frontier.last → s.finished i = true) ∧
    (Reach (gdrStream m) FreeSlots s → (∀ t, s.mark t = .none) →
      IsGreatest {n | ∀ i, 1 ≤ i → i ≤ n → s.finished i = true} s.frontier.last) := by
  constructor
  · intro h
    exact (reach_frontierInv h).done
  · intro h hquiet
    exact (reach_parkedInv h).quiet (reach_frontierInv h) hquiet

/-- A stream after `Setup`. -/
def freshStream : Stream :=
  ⟨[], ⟨0, fun _ => 0⟩, [], false, false, 1, fun _ => .none, .idle, .setup, .notifying, fun _ => 0, 0, [], [], fun _ => false,
    fun _ => false, 0⟩

theorem freshStream_isInit : freshStream.IsInit := ⟨rfl, rfl, rfl, rfl, rfl, rfl, fun _ => rfl, rfl, rfl, rfl, fun _ => rfl, rfl,
    rfl, rfl, fun _ => rfl, fun _ => rfl, rfl⟩

def freeSlot (s : Stream) (t : StreamThread) : Bool :=
  match s.mark t with
  | .store id => decide (s.frontier.slot (id % kCompletionRingCapacity) = 0)
  | _ => true

def freeSlots (s : Stream) (_ : StreamLabel) : Bool := freeSlot s .scheduler && freeSlot s .completion

theorem freeSlots_ok {l : StreamLabel} (h : freeSlots s l = true) : FreeSlots s l := by
  obtain ⟨h1, h2⟩ := (Bool.and_eq_true ..).mp h
  intro t _
  have ht : freeSlot s t = true := by
    cases t
    · exact h1
    · exact h2
  unfold freeSlot at ht
  cases hm : s.mark t with
  | store id =>
    rw [hm] at ht
    show s.frontier.slot (id % kCompletionRingCapacity) = 0
    exact of_decide_eq_true ht
  | _ => trivial

/-- The threads are started, and the first copy is posted. -/
def firstCopy : List StreamLabel :=
  [.submitter (.submit .copy 1), .submitter .check, .submitter .push, .submitter .publish, .scheduler (.setDevice true),
    .scheduler .step,
    .scheduler .step, .scheduler .step, .scheduler .step, .scheduler (.post .posted), .scheduler .step,
    .completion (.notify true)]

/-- The NIC completes the first copy, which is marked. -/
def firstCompleted : List StreamLabel :=
  [.nic true, .completion .step, .completion .step, .completion (.mark false), .completion (.mark false),
    .completion (.mark false),
    .completion (.mark false), .completion (.mark false), .completion (.mark false), .completion (.mark false),
    .completion (.mark false)]

/-- An empty copy is submitted, and marked at once. -/
def emptyCopy : List StreamLabel :=
  [.submitter (.submit .copy 0), .submitter .check, .submitter .push, .submitter .publish, .scheduler .step, .scheduler .step,
    .scheduler .step,
    .scheduler .step, .scheduler (.mark false), .scheduler (.mark false), .scheduler (.mark false), .scheduler (.mark false),
    .scheduler .step]

/-- The second copy is empty, and is marked while the first is in flight. -/
theorem frontier_exact_out_of_order :
    (∃ s : Stream, Reach (gdrStream 1) Any s ∧ s.finished 2 = true ∧ s.finished 1 = false ∧ s.frontier.last = 0) ∧
    ∃ s : Stream, s.frontier.last = 2 ∧ IsGreatest {n | ∀ i, 1 ≤ i → i ≤ n → s.finished i = true} s.frontier.last := by
  constructor
  · obtain ⟨s, hr, hs⟩ := exists_of_replay (S := gdrStream 1) (firstCopy ++ emptyCopy) (s := freshStream)
      (p := fun s => s.finished 2 && !s.finished 1 && s.frontier.last == 0) freshStream_isInit (by decide)
    obtain ⟨⟨htwo, hone⟩, hlast⟩ : (s.finished 2 = true ∧ s.finished 1 = false) ∧ s.frontier.last = 0 := by
      simpa using hs
    exact ⟨s, hr, htwo, hone, hlast⟩
  · obtain ⟨s, hr, hs⟩ := exists_of_replayOk (S := gdrStream 1) freeSlots (fun _ _ => freeSlots_ok)
      (firstCopy ++ emptyCopy ++ firstCompleted ++ List.replicate 4 (.completion (.mark false))) (s := freshStream)
      (p := fun s => s.frontier.last == 2 && decide (s.mark .scheduler = .none) && decide (s.mark .completion = .none))
      freshStream_isInit (by decide)
    obtain ⟨⟨hlast, h1⟩, h2⟩ : (s.frontier.last = 2 ∧ s.mark .scheduler = .none) ∧ s.mark .completion = .none := by
      simpa using hs
    refine ⟨s, hlast, frontier_exact.2 hr fun t => ?_⟩
    cases t
    · exact h1
    · exact h2

/-! ## A lost operation -/

/-- The first copy is in flight, and the empty copies up to `k` have been marked. -/
structure Behind (k : Nat) (s : Stream) : Prop where
  ring : s.ring = []
  last : s.frontier.last = 0
  first : s.frontier.slot 1 ≠ 1
  slot : 2 ≤ k → s.frontier.slot (k % kCompletionRingCapacity) = k
  running : s.asyncErrorSet = false ∧ s.stopRequested = false
  next : s.nextOperationId = k + 1
  mark : ∀ t, s.mark t = .none
  submitter : s.submitter = .idle
  scheduler : s.scheduler = .polling
  completion : s.completion = .polling
  inflight : s.inflight 1 = 1
  posted : s.posted = [1] ∧ s.cq = []
  finished : 2 ≤ k → s.finished 2 = true

theorem Behind.more {k : Nat} (h : Behind k s) (hk : 1 ≤ k) : ∃ s', replay (gdrStream m) s emptyCopy = some s' ∧
    Behind (k + 1) s' := by
  obtain ⟨hring, hlast, hfirst, hslot, ⟨herr, hstop⟩, hnext, hmark, hsub, hsch, hcomp, hinf, ⟨hposted, hcq⟩, hfin⟩ := h
  obtain ⟨ring, ⟨last, slot⟩, failedOps, err, stop, next, mark, sub, sch, comp, inflight, wr, posted, cq, finished,
      failed, covered⟩ := s
  dsimp only at *
  subst hring hlast herr hstop hnext hsub hsch hcomp hposted hcq
  obtain rfl : mark = fun _ => .none := funext hmark
  -- the slot of the first copy is taken by none of them
  have hone : Function.update slot ((k + 1) % kCompletionRingCapacity) (k + 1) (1 % kCompletionRingCapacity) ≠ 1 := by
    by_cases e : 1 % kCompletionRingCapacity = (k + 1) % kCompletionRingCapacity
    · rw [e, Function.update_self]
      omega
    · rw [Function.update_of_ne e]
      exact hfirst
  -- it is pushed into the ring, and its id is published
  have hpushed : replay (gdrStream m)
      ⟨[], ⟨0, slot⟩, failedOps, false, false, k + 1, fun _ => .none, .idle, .polling, .polling, inflight, wr, [1], [], finished,
        failed, covered⟩
      [.submitter (.submit .copy 0), .submitter .check, .submitter .push, .submitter .publish] =
    some ⟨[⟨.copy, k + 1, 0⟩], ⟨0, slot⟩, failedOps, false, false, k + 2, fun _ => .none, .idle, .polling, .polling, inflight,
      wr, [1], [], finished,
      failed, covered⟩ := rfl
  -- the scheduler takes it from the ring, and calls `MarkOperationCompleted`
  have hcalled : replay (gdrStream m)
      ⟨[⟨.copy, k + 1, 0⟩], ⟨0, slot⟩, failedOps, false, false, k + 2, fun _ => .none, .idle, .polling, .polling, inflight, wr,
        [1], [], finished,
        failed, covered⟩
      [.scheduler .step, .scheduler .step, .scheduler .step, .scheduler .step] =
    some ⟨[], ⟨0, slot⟩, failedOps, false, false, k + 2, Function.update (fun _ => .none) .scheduler (.called (k + 1)), .idle,
      .marking [], .polling,
      inflight, wr, [1], [], Function.update finished (k + 1) true, failed, covered⟩ := rfl
  -- the frontier stays where it is
  have hmarked : replay (gdrStream m)
      ⟨[], ⟨0, slot⟩, failedOps, false, false, k + 2, Function.update (fun _ => .none) .scheduler (.called (k + 1)), .idle,
        .marking [], .polling,
        inflight, wr, [1], [], Function.update finished (k + 1) true, failed, covered⟩
      [.scheduler (.mark false), .scheduler (.mark false), .scheduler (.mark false), .scheduler (.mark false), .scheduler .step] =
    some ⟨[], ⟨0, Function.update slot ((k + 1) % kCompletionRingCapacity) (k + 1)⟩, failedOps, false, false, k + 2,
      Function.update (fun _ => .none) .scheduler .none, .idle, .polling, .polling, inflight, wr, [1], [],
      Function.update finished (k + 1) true, failed,
      covered⟩ := by
    simp [replay, gdrStream, streamStep, schedulerStep, Stream.setScheduler, Stream.markStep, markStep, hone]
  refine ⟨_, replay_trans (replay_trans hpushed hcalled) hmarked, ?_⟩
  constructor
  · rfl
  · rfl
  · exact hone
  · exact fun _ => Function.update_self ..
  · exact ⟨rfl, rfl⟩
  · rfl
  · intro t
    cases t <;> rfl
  · rfl
  · rfl
  · rfl
  · exact hinf
  · exact ⟨rfl, rfl⟩
  · intro hle
    show Function.update finished (k + 1) true 2 = true
    by_cases e : 2 = k + 1
    · rw [e, Function.update_self]
    · rw [Function.update_of_ne e]
      exact hfin (by omega)

theorem firstCopy_behind : ∃ s, replay (gdrStream 1) freshStream firstCopy = some s ∧ Behind 1 s := by
  refine ⟨⟨[], ⟨0, fun _ => 0⟩, [], false, false, 2, fun _ => .none, .idle, .polling, .polling,
    Function.update (fun _ => 0) 1 1, 1, [1], [],
    fun _ => false, fun _ => false, 0⟩, rfl, ?_⟩
  constructor
  · rfl
  · rfl
  · exact Nat.zero_ne_one
  · exact fun hle => absurd hle (by decide)
  · exact ⟨rfl, rfl⟩
  · rfl
  · exact fun _ => rfl
  · rfl
  · rfl
  · rfl
  · rfl
  · exact ⟨rfl, rfl⟩
  · exact fun hle => absurd hle (by decide)

theorem exists_behind (k : Nat) (hk : 1 ≤ k) : ∃ s, Reach (gdrStream 1) Any s ∧ Behind k s := by
  induction k, hk using Nat.le_induction with
  | base =>
    obtain ⟨s, hs, h⟩ := firstCopy_behind
    exact ⟨s, replay_reach _ (.init freshStream_isInit) hs, h⟩
  | succ k hk ih =>
    obtain ⟨s, hreach, hs⟩ := ih
    obtain ⟨s', hs', h⟩ := hs.more hk
    exact ⟨s', replay_reach _ hreach hs', h⟩

/-- One copy that stays in flight while 8193 empty copies finish: the last of them takes the slot of the first,
    and the frontier stops before it. -/
theorem slot_overwritten :
    ∃ s, Reach (gdrStream 1) Any s ∧ (∀ t, s.mark t = .none) ∧ s.asyncErrorSet = false ∧
      ¬ IsGreatest {n | ∀ i, 1 ≤ i → i ≤ n → s.finished i = true} s.frontier.last := by
  obtain ⟨s, hreach, hring, hlast, hfirst, hslot, ⟨herr, hstop⟩, hnext, hmark, hsub, hsch, hcomp, hinf, ⟨hposted, hcq⟩, hfin⟩ :=
    exists_behind 8194 (by decide)
  obtain ⟨ring, ⟨last, slot⟩, failedOps, err, stop, next, mark, sub, sch, comp, inflight, wr, posted, cq, finished,
      failed, covered⟩ := s
  dsimp only at *
  subst hring hlast herr hstop hnext hsub hsch hcomp hposted hcq
  obtain rfl : mark = fun _ => .none := funext hmark
  have htwo : slot 2 = 8194 := hslot (by decide)
  have hfin : finished 2 = true := hfin (by decide)
  have hcalled : replay (gdrStream 1)
      ⟨[], ⟨0, slot⟩, failedOps, false, false, 8195, fun _ => .none, .idle, .polling, .polling, inflight, wr, [1], [], finished,
        failed, covered⟩
      [.nic true, .completion .step, .completion .step] =
    some ⟨[], ⟨0, slot⟩, failedOps, false, false, 8195, Function.update (fun _ => .none) .completion (.called 1), .idle,
      .polling, .marking,
      Function.update inflight 1 0, wr - 1, [], [], Function.update finished 1 true, failed, covered⟩ := by
    simp [replay, gdrStream, streamStep, completionStep, Stream.setCompletion, Stream.call, kInflightRingCapacity, hinf]
  -- the frontier passes the first operation
  have hpassed : replay (gdrStream 1)
      ⟨[], ⟨0, slot⟩, failedOps, false, false, 8195, Function.update (fun _ => .none) .completion (.called 1), .idle,
        .polling, .marking,
        Function.update inflight 1 0, wr - 1, [], [], Function.update finished 1 true, failed, covered⟩
      [.completion (.mark false), .completion (.mark false), .completion (.mark false), .completion (.mark false),
        .completion (.mark false)] =
    some ⟨[], ⟨1, Function.update slot 1 1⟩, failedOps, false, false, 8195,
      Function.update (fun _ => .none) .completion (.clear 1), .idle, .polling,
      .marking, Function.update inflight 1 0, wr - 1, [], [], Function.update finished 1 true, failed, covered⟩ := by
    simp [replay, gdrStream, streamStep, completionStep, Stream.markStep, markStep, kCompletionRingCapacity]
  -- the second is not in its slot
  have hstopped : replay (gdrStream 1)
      ⟨[], ⟨1, Function.update slot 1 1⟩, failedOps, false, false, 8195, Function.update (fun _ => .none) .completion (.clear 1),
        .idle, .polling,
        .marking, Function.update inflight 1 0, wr - 1, [], [], Function.update finished 1 true, failed, covered⟩
      [.completion (.mark false), .completion (.mark false), .completion (.mark false)] =
    some ⟨[], ⟨1, Function.update (Function.update slot 1 1) 1 0⟩, failedOps, false, false, 8195,
      Function.update (fun _ => .none) .completion .none,
      .idle, .polling, .polling, Function.update inflight 1 0, wr - 1, [], [], Function.update finished 1 true, failed,
      covered⟩ := by
    simp [replay, gdrStream, streamStep, completionStep, Stream.setCompletion, Stream.markStep, markStep,
      kCompletionRingCapacity, htwo]
  refine ⟨_, replay_reach firstCompleted hreach (replay_trans (replay_trans hcalled hpassed) hstopped), ?_, rfl, ?_⟩
  · intro t
    cases t <;> rfl
  · intro hgreatest
    -- the first two operations have finished
    have hmem : (2 : Nat) ∈ {n | ∀ i, 1 ≤ i → i ≤ n → Function.update finished 1 true i = true} := by
      intro i h1 h2
      by_cases e : i = 1
      · rw [e, Function.update_self]
      · obtain rfl : i = 2 := by omega
        rw [Function.update_of_ne e]
        exact hfin
    have hle : 2 ≤ 1 := hgreatest.2 hmem
    omega

end UnifiedCache.Gdr
