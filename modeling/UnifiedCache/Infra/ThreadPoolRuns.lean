/-
  UnifiedCache.Infra.ThreadPoolRuns — no task is lost or run twice, whatever goes through the queue
  (see `UnifiedCache.Infra.ThreadPool`).

  At any time at most one call has the queue (`Held`): the one that set `drain_`. Then what waits is
  what it has put back, its snapshot and what was pushed meanwhile, in this order; otherwise it is
  the queue (`Idle`).

  - `step_effect`: what a step does to the tasks that wait, and to who has the queue.
  - `accounted_inv`: each task is in one place, in its order.
-/

import Mathlib.Data.List.Flatten
import Mathlib.Data.List.Perm.Subperm
import UnifiedCache.Infra.ThreadPool

namespace UnifiedCache.Infra.ThreadPool

open UnifiedCache.Base

variable {nWorker : Nat} {s s' : State}

/-! ## Who has the queue -/

/-- The call has a snapshot. -/
def Traversal.active : Traversal → Bool
  | .walk .. | .batch .. | .merge _ => true
  | .begin | .done => false

theorem Traversal.snapshot_of_inactive {tr : Traversal} (h : tr.active = false) : tr.snapshot = [] := by
  cases tr with
  | begin | done => rfl
  | walk | batch | merge => cases h

/-- Nobody has it. -/
structure Idle (s : State) : Prop where
  drain : s.drain = false
  pending : s.taskPending = []
  inactive : ∀ (j : Nat) (y : Traversal), s.traversals[j]? = some y → y.active = false

/-- Call `i` has it, and no other. -/
structure Held (s : State) (i : Nat) (tr : Traversal) : Prop where
  drain : s.drain = true
  at_ : s.traversals[i]? = some tr
  active : tr.active = true
  inactive : ∀ (j : Nat) (y : Traversal), j ≠ i → s.traversals[j]? = some y → y.active = false

def Phase (s : State) : Prop := Idle s ∨ ∃ i tr, Held s i tr

theorem flatMap_nil {α β : Type} {f : α → List β} {l : List α} (h : ∀ (j : Nat) (y : α), l[j]? = some y → f y = []) :
    l.flatMap f = [] := by
  refine List.flatMap_eq_nil_iff.mpr fun y hy => ?_
  obtain ⟨j, hj⟩ := List.mem_iff_getElem?.mp hy
  exact h j y hj

theorem flatMap_alone {α β : Type} {f : α → List β} {l : List α} {i : Nat} {x : α} (hat : l[i]? = some x)
    (hothers : ∀ (j : Nat) (y : α), j ≠ i → l[j]? = some y → f y = []) : l.flatMap f = f x := by
  induction l generalizing i with
  | nil => simp at hat
  | cons a l ih =>
    rw [List.flatMap_cons]
    cases i with
    | zero =>
      obtain rfl : a = x := by simpa using hat
      rw [flatMap_nil fun j y hj => hothers (j + 1) y (by omega) (by simpa using hj), List.append_nil]
    | succ i =>
      rw [hothers 0 a (by omega) rfl, List.nil_append]
      exact ih (by simpa using hat) fun j y hne hj => hothers (j + 1) y (by omega) (by simpa using hj)

theorem Idle.waiting (h : Idle s) : s.waiting = s.taskQ := by
  unfold State.waiting
  rw [h.pending, List.append_nil, flatMap_nil fun j y hj => Traversal.snapshot_of_inactive (h.inactive j y hj), List.append_nil]

theorem Held.waiting {i : Nat} {tr : Traversal} (h : Held s i tr) : s.waiting = s.taskQ ++ tr.snapshot ++ s.taskPending := by
  unfold State.waiting
  rw [flatMap_alone h.at_ fun j y hne hj => Traversal.snapshot_of_inactive (h.inactive j y hne hj)]

/-- A call with a snapshot is the one that has the queue. -/
theorem Phase.held (hp : Phase s) {i : Nat} {tr : Traversal} (hat : s.traversals[i]? = some tr) (hactive : tr.active = true) :
    Held s i tr := by
  rcases hp with hidle | ⟨j, tr', hheld⟩
  · rw [hidle.inactive i tr hat] at hactive
    cases hactive
  · by_cases hij : i = j
    · subst hij
      obtain rfl : tr' = tr := by
        have hat' := hheld.at_
        rw [hat] at hat'
        exact (Option.some.inj hat').symm
      exact hheld
    · rw [hheld.inactive i tr hij hat] at hactive
      cases hactive

theorem Phase.idle (hp : Phase s) (hdrain : s.drain = false) : Idle s := by
  rcases hp with hidle | ⟨j, tr', hheld⟩
  · exact hidle
  · rw [hheld.drain] at hdrain
    cases hdrain

theorem getElem?_set_cases {α : Type} {l : List α} {i j : Nat} {x y : α} (h : (l.set i x)[j]? = some y) :
    (j = i ∧ y = x) ∨ (j ≠ i ∧ l[j]? = some y) := by
  by_cases hij : j = i
  · subst hij
    rw [List.getElem?_set_self'] at h
    obtain ⟨_, _, hxy⟩ := Option.map_eq_some_iff.mp h
    exact .inl ⟨rfl, hxy.symm⟩
  · rw [List.getElem?_set_ne (Ne.symm hij)] at h
    exact .inr ⟨hij, h⟩

theorem getElem?_set_at {α : Type} {l : List α} {i : Nat} {x : α} (y : α) (h : l[i]? = some x) : (l.set i y)[i]? = some y := by
  rw [List.getElem?_set_self', h]
  rfl

/-- The holder goes on. -/
theorem Held.next {i : Nat} {tr tr' : Traversal} (h : Held s i tr) (hactive : tr'.active = true)
    (hset : s'.traversals = s.traversals.set i tr') (hdrain : s'.drain = true) : Held s' i tr' := by
  refine ⟨hdrain, ?_, hactive, fun j y hne hj => ?_⟩
  · rw [hset]
    exact getElem?_set_at tr' h.at_
  · rw [hset, List.getElem?_set_ne (Ne.symm hne)] at hj
    exact h.inactive j y hne hj

/-! ## What a step does to the tasks -/

/-- Nothing, or tasks come in at the end, or the first is popped, or one is taken. -/
inductive Effect (s s' : State) : Prop where
  | same : s'.waiting = s.waiting → s'.executed = s.executed → s'.taken = s.taken → s'.pushed = s.pushed → Effect s s'
  | pushed (k : Nat) : s'.waiting = s.waiting ++ List.range' s.pushed k → s'.executed = s.executed → s'.taken = s.taken →
      s'.pushed = s.pushed + k → Effect s s'
  | popped (w task : Nat) : s.waiting = task :: s'.waiting → s'.executed = s.executed ++ [(w, task)] → s'.taken = s.taken →
      s'.pushed = s.pushed → Effect s s'
  | taken (i task : Nat) (before after : List Nat) : s.waiting = before ++ task :: after → s'.waiting = before ++ after →
      s'.executed = s.executed → s'.taken = s.taken ++ [(i, task)] → s'.pushed = s.pushed → Effect s s'

/-- Who has the queue depends on the calls, and on what is pushed meanwhile. -/
theorem Phase.frame (hp : Phase s) (hdrain : s'.drain = s.drain) (hcalls : s'.traversals = s.traversals)
    (hpending : s.drain = false → s'.taskPending = s.taskPending) : Phase s' := by
  rcases hp with hidle | ⟨i, tr, hheld⟩
  · refine .inl ⟨hdrain.trans hidle.drain, (hpending hidle.drain).trans hidle.pending, ?_⟩
    rw [hcalls]
    exact hidle.inactive
  · refine .inr ⟨i, tr, hdrain.trans hheld.drain, ?_, hheld.active, ?_⟩
    · rw [hcalls]
      exact hheld.at_
    · rw [hcalls]
      exact hheld.inactive

/-- Tasks that are pushed: pending beside a traversal, queued without one. -/
theorem pushed_effect (hp : Phase s) (k : Nat) (hexecuted : s'.executed = s.executed) (htaken : s'.taken = s.taken)
    (hcount : s'.pushed = s.pushed + k) (hdrain : s'.drain = s.drain) (hcalls : s'.traversals = s.traversals)
    (hput : (s.drain = true ∧ s'.taskQ = s.taskQ ∧ s'.taskPending = s.taskPending ++ List.range' s.pushed k) ∨
      (s.drain = false ∧ s'.taskQ = s.taskQ ++ List.range' s.pushed k ∧ s'.taskPending = s.taskPending)) :
    Effect s s' ∧ Phase s' := by
  rcases hput with ⟨hdraining, hqueue, hpending⟩ | ⟨hfree, hqueue, hpending⟩
  · refine ⟨.pushed k ?_ hexecuted htaken hcount, hp.frame hdrain hcalls fun hfree => ?_⟩
    · unfold State.waiting
      rw [hqueue, hcalls, hpending, ← List.append_assoc]
    · rw [hdraining] at hfree
      cases hfree
  · have hp' : Phase s' := hp.frame hdrain hcalls fun _ => hpending
    refine ⟨.pushed k ?_ hexecuted htaken hcount, hp'⟩
    rw [(hp'.idle (hdrain.trans hfree)).waiting, (hp.idle hfree).waiting, hqueue]

theorem push_effect (hp : Phase s) {waiter : Option Nat} (h : push s waiter = some s') : Effect s s' ∧ Phase s' := by
  unfold push at h
  by_cases hdrain : s.drain = true
  · rw [if_pos hdrain] at h
    obtain rfl := Option.some.inj h
    exact pushed_effect hp 1 rfl rfl rfl rfl rfl (.inl ⟨hdrain, rfl, rfl⟩)
  · rw [if_neg hdrain] at h
    obtain ⟨workers, _, rfl⟩ := Option.map_eq_some_iff.mp h
    exact pushed_effect hp 1 rfl rfl rfl rfl rfl (.inr ⟨by simpa using hdrain, rfl, rfl⟩)

theorem pushList_effect (hp : Phase s) (k : Nat) : Effect s (pushList s k) ∧ Phase (pushList s k) := by
  unfold pushList
  by_cases hdrain : s.drain = true
  · rw [if_pos hdrain]
    exact pushed_effect hp k rfl rfl rfl rfl rfl (.inl ⟨hdrain, rfl, rfl⟩)
  · rw [if_neg hdrain]
    exact pushed_effect hp k rfl rfl rfl rfl rfl (.inr ⟨by simpa using hdrain, rfl, rfl⟩)

/-- The steps of a worker. -/
inductive Works (s : State) (w : Nat) (worker : Worker) : WorkerAct → State → Prop where
  | pop (task : Nat) (taskQ : List Nat) : s.taskQ = task :: taskQ → worker.pc = .ready → worker.stopRequested = false →
      Works s w worker .pop { s with taskQ := taskQ, executed := s.executed ++ [(w, task)],
                                     workers := s.workers.set w { worker with pc := .running task } }
  | wait : worker.pc = .ready → s.taskQ = [] →
      Works s w worker .wait { s with workers := s.workers.set w { worker with pc := .asleep } }
  | wake : worker.pc = .asleep → Works s w worker .wake { s with workers := s.workers.set w { worker with pc := .ready } }
  | exit : worker.pc = .ready → s.stop = true ∨ worker.stopRequested = true →
      Works s w worker .exit { s with workers := s.workers.set w { worker with pc := .ended } }
  | complete (task : Nat) : worker.pc = .running task →
      Works s w worker .complete { s with workers := s.workers.set w { worker with pc := if worker.stopRequested then .ended
        else .ready } }

theorem workerStep_works {w : Nat} {worker : Worker} {act : WorkerAct} (h : workerStep s w worker act = some s') :
    Works s w worker act s' := by
  cases act with
  | pop =>
    unfold workerStep at h
    dsimp only at h
    split at h
    · rename_i task taskQ hqueue
      obtain ⟨⟨hready, _, hstop⟩, rfl⟩ := by simpa only [Option.ite_none_right_eq_some, Option.some.injEq] using h
      exact .pop task taskQ hqueue hready hstop
    · cases h
  | wait =>
    obtain ⟨⟨hready, _, _, hnil⟩, rfl⟩ := by
      simpa only [workerStep, Option.ite_none_right_eq_some, Option.some.injEq] using h
    exact .wait hready hnil
  | wake =>
    obtain ⟨hasleep, rfl⟩ := by simpa only [workerStep, Option.ite_none_right_eq_some, Option.some.injEq] using h
    exact .wake hasleep
  | exit =>
    obtain ⟨⟨hready, hstop⟩, rfl⟩ := by simpa only [workerStep, Option.ite_none_right_eq_some, Option.some.injEq] using h
    exact .exit hready hstop
  | complete =>
    unfold workerStep at h
    dsimp only at h
    split at h
    · rename_i task hrunning
      obtain rfl := Option.some.inj h
      exact .complete task hrunning
    · cases h

theorem workerStep_effect (hp : Phase s) {w : Nat} {worker : Worker} {act : WorkerAct} (h : workerStep s w worker act = some s') :
    Effect s s' ∧ Phase s' := by
  cases workerStep_works h with
  | pop task taskQ hqueue _ _ =>
    refine ⟨.popped w task ?_ rfl rfl rfl, hp.frame rfl rfl fun _ => rfl⟩
    unfold State.waiting
    rw [hqueue]
    rfl
  | wait | wake | exit | complete => exact ⟨.same rfl rfl rfl rfl, hp.frame rfl rfl fun _ => rfl⟩

/-- A call that comes, or that finds the queue in another's hands. -/
theorem inactive_effect (hp : Phase s) {traversals : List Traversal} (hold : ∀ (i : Nat) (tr : Traversal), tr.active = true →
      s.traversals[i]? = some tr → traversals[i]? = some tr)
    (hnew : ∀ (j : Nat) (y : Traversal), traversals[j]? = some y → y.active = true → s.traversals[j]? = some y) :
    Effect s { s with traversals := traversals } ∧ Phase { s with traversals := traversals } := by
  have hinactive : ∀ (j : Nat) (y : Traversal), traversals[j]? = some y → (∀ y', s.traversals[j]? = some y' → y'.active = false) →
      y.active = false := by
    intro j y hj hwas
    by_contra hactive
    rw [Bool.not_eq_false] at hactive
    rw [hwas y (hnew j y hj hactive)] at hactive
    cases hactive
  rcases hp with hidle | ⟨i, tr, hheld⟩
  · have hidle' : Idle { s with traversals := traversals } :=
      ⟨hidle.drain, hidle.pending, fun j y hj => hinactive j y hj (hidle.inactive j)⟩
    refine ⟨.same ?_ rfl rfl rfl, .inl hidle'⟩
    rw [hidle'.waiting, hidle.waiting]
  · have hheld' : Held { s with traversals := traversals } i tr :=
      ⟨hheld.drain, hold i tr hheld.active hheld.at_, hheld.active, fun j y hne hj => hinactive j y hj fun y' =>
        hheld.inactive j y' hne⟩
    refine ⟨.same ?_ rfl rfl rfl, .inr ⟨i, tr, hheld'⟩⟩
    rw [hheld'.waiting, hheld.waiting]

/-- What a round of the walk leaves of the snapshot, and that the call still has it. -/
theorem visit_snapshot (nWorker : Nat) (kept : List Nat) (task : Nat) (rest : List Nat) (processed : Nat) (d : Decision) :
    (visit nWorker kept task rest processed d).1.active = true ∧
      (((visit nWorker kept task rest processed d).1.snapshot = kept ++ task :: rest ∧
        (visit nWorker kept task rest processed d).2 = []) ∨
        ((visit nWorker kept task rest processed d).1.snapshot = kept ++ rest ∧ (visit nWorker kept task rest processed d).2 =
          [task])) := by
  cases d with
  | stop => exact ⟨rfl, .inl ⟨rfl, rfl⟩⟩
  | take => exact ⟨rfl, .inr ⟨rfl, rfl⟩⟩
  | keep =>
    unfold visit
    dsimp only
    split <;> exact ⟨rfl, .inl ⟨List.append_assoc kept [task] rest, rfl⟩⟩

theorem traverseStep_effect (hp : Phase s) {i : Nat} {d : Decision} {tr : Traversal} (hat : s.traversals[i]? = some tr)
    (h : traverseStep nWorker s i d tr = some s') : Effect s s' ∧ Phase s' := by
  cases tr with
  | begin =>
    unfold traverseStep at h
    by_cases hdrain : s.drain = true
    · rw [if_pos hdrain] at h
      obtain rfl := Option.some.inj h
      refine inactive_effect hp (fun j y hactive hj => ?_) fun j y hj hactive => ?_
      · have hne : i ≠ j := by
          intro e
          subst e
          rw [hat] at hj
          obtain rfl := Option.some.inj hj
          cases hactive
        rw [List.getElem?_set_ne hne]
        exact hj
      · rcases getElem?_set_cases hj with ⟨_, rfl⟩ | ⟨_, hj'⟩
        · cases hactive
        · exact hj'
    · rw [if_neg hdrain] at h
      obtain rfl := Option.some.inj h
      have hidle := hp.idle (by simpa using hdrain)
      have hheld : Held { s with drain := true, taskQ := [], traversals := s.traversals.set i (.walk [] s.taskQ 0) } i
          (.walk [] s.taskQ 0) := by
        refine ⟨rfl, getElem?_set_at _ hat, rfl, fun j y hne hj => ?_⟩
        rw [List.getElem?_set_ne (Ne.symm hne)] at hj
        exact hidle.inactive j y hj
      refine ⟨.same ?_ rfl rfl rfl, .inr ⟨i, _, hheld⟩⟩
      rw [hheld.waiting, hidle.waiting]
      show [] ++ ([] ++ s.taskQ) ++ s.taskPending = s.taskQ
      rw [hidle.pending, List.nil_append, List.nil_append, List.append_nil]
  | walk kept rest processed =>
    have hheld := hp.held hat rfl
    cases rest with
    | nil =>
      obtain rfl := Option.some.inj h
      have hheld' : Held { s with traversals := s.traversals.set i (.merge kept) } i (.merge kept) :=
          hheld.next rfl rfl hheld.drain
      refine ⟨.same ?_ rfl rfl rfl, .inr ⟨i, _, hheld'⟩⟩
      rw [hheld'.waiting, hheld.waiting]
      show s.taskQ ++ kept ++ s.taskPending = s.taskQ ++ (kept ++ []) ++ s.taskPending
      rw [List.append_nil]
    | cons task rest =>
      obtain ⟨hactive, hsnapshot⟩ := visit_snapshot nWorker kept task rest processed d
      have hs' : s' = { s with traversals := s.traversals.set i (visit nWorker kept task rest processed d).1,
                               taken := s.taken ++ (visit nWorker kept task rest processed d).2.map fun task => (i, task) } :=
        (Option.some.inj h).symm
      generalize visit nWorker kept task rest processed d = next at hactive hsnapshot hs'
      subst hs'
      have hheld' : Held { s with traversals := s.traversals.set i next.1, taken := s.taken ++ next.2.map fun task =>
          (i, task) } i next.1 :=
        hheld.next hactive rfl hheld.drain
      refine ⟨?_, .inr ⟨i, _, hheld'⟩⟩
      have hbefore : s.waiting = s.taskQ ++ (kept ++ task :: rest) ++ s.taskPending := hheld.waiting
      rcases hsnapshot with ⟨hsnapshot, hvisited⟩ | ⟨hsnapshot, hvisited⟩
      · refine .same ?_ rfl ?_ rfl
        · rw [hheld'.waiting, hbefore, hsnapshot]
        · show s.taken ++ next.2.map _ = s.taken
          rw [hvisited, List.map_nil, List.append_nil]
      · refine .taken i task (s.taskQ ++ kept) (rest ++ s.taskPending) ?_ ?_ rfl ?_ rfl
        · rw [hbefore]
          simp only [List.append_assoc, List.cons_append]
        · rw [hheld'.waiting, hsnapshot]
          simp only [List.append_assoc]
        · show s.taken ++ next.2.map _ = s.taken ++ [(i, task)]
          rw [hvisited]
          rfl
  | batch kept rest =>
    have hheld := hp.held hat rfl
    obtain rfl := Option.some.inj h
    have hheld' : Held { s with taskQ := s.taskQ ++ kept, traversals := s.traversals.set i (.walk [] rest 0),
                                workers := s.workers.map notify } i (.walk [] rest 0) := hheld.next rfl rfl hheld.drain
    refine ⟨.same ?_ rfl rfl rfl, .inr ⟨i, _, hheld'⟩⟩
    rw [hheld'.waiting, hheld.waiting]
    show s.taskQ ++ kept ++ ([] ++ rest) ++ s.taskPending = s.taskQ ++ (kept ++ rest) ++ s.taskPending
    rw [List.nil_append, List.append_assoc s.taskQ]
  | merge snapshot =>
    have hheld := hp.held hat rfl
    obtain rfl := Option.some.inj h
    have hidle : Idle { s with taskQ := s.taskQ ++ snapshot ++ s.taskPending, taskPending := [], drain := false,
                               traversals := s.traversals.set i .done, workers := s.workers.map notify } := by
      refine ⟨rfl, rfl, fun j y hj => ?_⟩
      rcases getElem?_set_cases hj with ⟨_, rfl⟩ | ⟨hne, hj'⟩
      · rfl
      · exact hheld.inactive j y hne hj'
    refine ⟨.same ?_ rfl rfl rfl, .inl hidle⟩
    rw [hidle.waiting, hheld.waiting]
    rfl
  | done => cases h

theorem step_effect (hp : Phase s) {a : Label} (h : step nWorker s a = some s') : Effect s s' ∧ Phase s' := by
  cases a with
  | pushList k =>
    obtain rfl := Option.some.inj h
    exact pushList_effect hp k
  | push waiter => exact push_effect hp h
  | worker w act =>
    obtain ⟨worker, _, h⟩ := Option.bind_eq_some_iff.mp h
    exact workerStep_effect hp h
  | call =>
    obtain rfl := Option.some.inj h
    refine inactive_effect hp (fun i tr _ hi => ?_) fun j y hj hactive => ?_
    · rw [List.getElem?_append_left (List.getElem?_eq_some_iff.mp hi).1]
      exact hi
    · rw [List.getElem?_append] at hj
      split at hj
      · exact hj
      · have hbegin := List.mem_of_getElem? hj
        obtain rfl := List.mem_singleton.mp hbegin
        cases hactive
  | traverse i d =>
    obtain ⟨tr, hat, h⟩ := Option.bind_eq_some_iff.mp h
    exact traverseStep_effect hp hat h
  | requestStop w =>
    obtain ⟨worker, _, rfl⟩ := Option.map_eq_some_iff.mp h
    exact ⟨.same rfl rfl rfl rfl, hp.frame rfl rfl fun _ => rfl⟩
  | addWorker | destroy =>
    obtain rfl := Option.some.inj h
    exact ⟨.same rfl rfl rfl rfl, hp.frame rfl rfl fun _ => rfl⟩

/-! ## Every task in its place -/

theorem Accounted.lt (ha : Accounted s) {task : Nat} (h : task ∈ s.executed.map Prod.snd ++ s.waiting) : task < s.pushed := by
  rw [← List.mem_range, ← ha.once.mem_iff]
  rcases List.mem_append.mp h with hexecuted | hwaiting
  · exact List.mem_append_left _ (List.mem_append_left _ hexecuted)
  · exact List.mem_append_right _ hwaiting

theorem Accounted.kept (ha : Accounted s) (he : Effect s s') : Accounted s' := by
  have honce := ha.once
  have hordered := ha.ordered
  cases he with
  | same hwaiting hexecuted htaken hpushed =>
    refine ⟨?_, ?_⟩
    · rw [hwaiting, hexecuted, htaken, hpushed]
      exact honce
    · rw [hwaiting, hexecuted]
      exact hordered
  | pushed k hwaiting hexecuted htaken hpushed =>
    refine ⟨?_, ?_⟩
    · have hrange : List.range (s.pushed + k) = List.range s.pushed ++ List.range' s.pushed k := by
        rw [List.range_eq_range', List.range_eq_range', ← List.range'_append_1, Nat.zero_add]
      rw [hwaiting, hexecuted, htaken, hpushed, ← List.append_assoc, hrange]
      exact honce.append_right _
    · rw [hwaiting, hexecuted, ← List.append_assoc, List.pairwise_append]
      refine ⟨hordered, List.pairwise_lt_range', fun a ha' b hb => ?_⟩
      have hlt := ha.lt ha'
      rw [List.mem_range'_1] at hb
      omega
  | popped w task hwaiting hexecuted htaken hpushed =>
    rw [hwaiting] at honce hordered
    refine ⟨?_, ?_⟩
    · rw [hexecuted, htaken, hpushed, List.map_append, List.map_singleton, List.append_assoc, List.append_assoc]
      refine List.Perm.trans ?_ honce
      rw [List.append_assoc]
      refine List.Perm.append_left _ ?_
      rw [List.singleton_append]
      exact List.perm_middle.symm
    · rw [hexecuted, List.map_append, List.map_singleton, List.append_assoc]
      exact hordered
  | taken i task before after hwaiting hwaiting' hexecuted htaken hpushed =>
    rw [hwaiting] at honce hordered
    refine ⟨?_, ?_⟩
    · rw [hwaiting', hexecuted, htaken, hpushed, List.map_append, List.map_singleton]
      refine List.Perm.trans ?_ honce
      rw [List.append_assoc, List.append_assoc, List.append_assoc]
      refine List.Perm.append_left _ (List.Perm.append_left _ ?_)
      rw [List.singleton_append]
      exact List.perm_middle.symm
    · rw [hwaiting', hexecuted]
      exact hordered.sublist ((List.Sublist.refl _).append ((List.Sublist.refl _).append (List.sublist_cons_self task after)))

theorem accounted_inv {ok : State → Label → Prop} (h : Reach (sys nWorker) ok s) : Accounted s ∧ Phase s := by
  refine h.inv (I := fun s => Accounted s ∧ Phase s) ?_ fun s a s' hi _ hstep => ?_
  · intro s e
    subst e
    exact ⟨⟨List.Perm.refl [], List.Pairwise.nil⟩, .inl ⟨rfl, rfl, fun j y hj => by simp [initial] at hj⟩⟩
  · obtain ⟨heffect, hphase⟩ := step_effect hi.2 hstep
    exact ⟨hi.1.kept heffect, hphase⟩

/-- What is neither popped nor taken waits. -/
theorem Accounted.waits (ha : Accounted s) {task : Nat} (hlt : task < s.pushed) (hnot : ¬ Finished s task) :
    task ∈ s.waiting := by
  have hmem := ha.once.mem_iff.mpr (List.mem_range.mpr hlt)
  rw [List.mem_append, List.mem_append, List.mem_map, List.mem_map] at hmem
  rcases hmem with (⟨⟨w, _⟩, hw, rfl⟩ | ⟨⟨i, _⟩, hi, rfl⟩) | hwaiting
  · exact absurd (.inl ⟨w, hw⟩) hnot
  · exact absurd (.inr ⟨i, hi⟩) hnot
  · exact hwaiting

theorem Finished.kept {task : Nat} (h : Finished s task) (he : Effect s s') : Finished s' task := by
  unfold Finished at h ⊢
  cases he with
  | same _ hexecuted htaken _ | pushed _ _ hexecuted htaken _ =>
    rw [hexecuted, htaken]
    exact h
  | popped w t _ hexecuted htaken _ =>
    rw [hexecuted, htaken]
    exact h.imp_left fun ⟨w, hw⟩ => ⟨w, List.mem_append_left _ hw⟩
  | taken i t _ _ _ _ hexecuted htaken _ =>
    rw [hexecuted, htaken]
    exact h.imp_right fun ⟨i, hi⟩ => ⟨i, List.mem_append_left _ hi⟩

/-- Before a task is popped or taken, only earlier ones are popped. -/
theorem Accounted.count_le (ha : Accounted s) {task : Nat} (hnot : ¬ Finished s task) : s.executed.length ≤ task := by
  have hsorted := (List.pairwise_append.mp ha.ordered).1
  have hbelow : ∀ t ∈ s.executed.map Prod.snd, t < task := by
    intro t ht
    by_cases hlt : task < s.pushed
    · exact (List.pairwise_append.mp ha.ordered).2.2 t ht task (ha.waits hlt hnot)
    · have hpushed := ha.lt (List.mem_append_left _ ht)
      omega
  have hsubset : s.executed.map Prod.snd ⊆ List.range task := fun t ht => List.mem_range.mpr (hbelow t ht)
  have hle := (List.subperm_of_subset (hsorted.imp Nat.ne_of_lt) hsubset).length_le
  rw [List.length_map, List.length_range] at hle
  exact hle

end UnifiedCache.Infra.ThreadPool
