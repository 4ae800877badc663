/-
  UnifiedCache.Infra.ThreadPoolProgress — every task is popped or taken in the end
  (see `UnifiedCache.Infra.ThreadPool`, `UnifiedCache.Infra.ThreadPoolRuns`).

  Who must go on, in a run where nobody is stopped (`FairPool`): a worker comes to the end of a task,
  a call goes on with its walk, and the workers are not for ever passed by where again and again one
  of them could pop. Pushes and calls may go on for ever.

  - `awake_inv`: beside a queue that is not empty some worker is awake.
  - `RunsAt.step`, `RestsAt.step`, `Held.own`: what a step makes of a worker and of a call.
  - `Stuck.absurd`: no task waits for ever.
  - `loses_nothing`: with what `UnifiedCache.Infra.ThreadPoolRuns` says of any state.
-/

import UnifiedCache.Base.Fair
import UnifiedCache.Infra.ThreadPoolRuns

namespace UnifiedCache.Infra.ThreadPool

open UnifiedCache.Base

variable {nWorker : Nat} {s s' : State}

/-! ## Who is awake -/

theorem notify_awake (worker : Worker) : (notify worker).pc ≠ .asleep := by
  unfold notify
  split
  · exact nofun
  · assumption

theorem notify_kept (worker : Worker) : (notify worker).stopRequested = worker.stopRequested ∧
    ((notify worker).pc = worker.pc ∨ (notify worker).pc = .ready) := by
  unfold notify
  split
  · exact ⟨rfl, .inr rfl⟩
  · exact ⟨rfl, .inl rfl⟩

/-- The worker goes on. -/
def Worker.Alive (worker : Worker) : Prop := worker.stopRequested = false ∧ worker.pc ≠ .ended

theorem Worker.Alive.notify {worker : Worker} (h : worker.Alive) : (ThreadPool.notify worker).Alive := by
  obtain ⟨hstop, hpc⟩ := notify_kept worker
  refine ⟨hstop.trans h.1, ?_⟩
  rcases hpc with hpc | hpc
  · rw [hpc]
    exact h.2
  · rw [hpc]
    exact nofun

structure Awake (s : State) : Prop where
  running : s.stop = false
  alive : ∀ (w : Nat) (worker : Worker), s.workers[w]? = some worker → worker.Alive
  workers : 0 < s.workers.length
  awake : s.taskQ ≠ [] → ∃ (w : Nat) (worker : Worker), s.workers[w]? = some worker ∧ worker.pc ≠ .asleep

/-- What becomes of the workers when nobody is stopped: nothing, or one is added, or notified, or all
    are, or one takes a step. -/
inductive Workers (s s' : State) : Label → Prop where
  | same (a : Label) : s'.workers = s.workers → s'.taskQ = s.taskQ ∨ s'.taskQ = [] ∨
      (∀ worker : Worker, worker ∈ s.workers → worker.pc ≠ .asleep) →
      (∀ w act, a ≠ .worker w act) → Workers s s' a
  | added : s'.workers = s.workers ++ [newWorker] → s'.taskQ = s.taskQ → Workers s s' .addWorker
  | one (w : Nat) (worker : Worker) (a : Label) : s.workers[w]? = some worker → s'.workers = s.workers.set w (notify worker) →
      (∀ w act, a ≠ .worker w act) → Workers s s' a
  | all (a : Label) : s'.workers = s.workers.map notify → (∀ w act, a ≠ .worker w act) → Workers s s' a
  | worker (w : Nat) (worker : Worker) (act : WorkerAct) : s.workers[w]? = some worker → Works s w worker act s' →
      Workers s s' (.worker w act)

theorem push_workers {waiter : Option Nat} (h : push s waiter = some s') : Workers s s' (.push waiter) ∧ s'.stop = s.stop := by
  unfold push at h
  by_cases hdrain : s.drain = true
  · rw [if_pos hdrain] at h
    obtain rfl := Option.some.inj h
    exact ⟨.same _ rfl (.inl rfl) nofun, rfl⟩
  · rw [if_neg hdrain] at h
    obtain ⟨workers, hnotify, rfl⟩ := Option.map_eq_some_iff.mp h
    cases waiter with
    | none =>
      unfold notifyOne at hnotify
      obtain ⟨hnone, rfl⟩ := by simpa only [Option.ite_none_right_eq_some, Option.some.injEq] using hnotify
      exact ⟨.same _ rfl (.inr (.inr hnone)) nofun, rfl⟩
    | some w =>
      unfold notifyOne at hnotify
      dsimp only at hnotify
      split at hnotify
      · rename_i worker hat
        obtain ⟨_, rfl⟩ := by simpa only [Option.ite_none_right_eq_some, Option.some.injEq] using hnotify
        exact ⟨.one w worker _ hat rfl nofun, rfl⟩
      · cases hnotify

theorem traverse_workers {i : Nat} {d : Decision} {tr : Traversal} (h : traverseStep nWorker s i d tr = some s') :
    Workers s s' (.traverse i d) ∧ s'.stop = s.stop := by
  cases tr with
  | begin =>
    unfold traverseStep at h
    by_cases hdrain : s.drain = true
    · rw [if_pos hdrain] at h
      obtain rfl := Option.some.inj h
      exact ⟨.same _ rfl (.inl rfl) nofun, rfl⟩
    · rw [if_neg hdrain] at h
      obtain rfl := Option.some.inj h
      exact ⟨.same _ rfl (.inr (.inl rfl)) nofun, rfl⟩
  | walk kept rest processed =>
    cases rest with
    | nil | cons =>
      obtain rfl := Option.some.inj h
      exact ⟨.same _ rfl (.inl rfl) nofun, rfl⟩
  | batch | merge =>
    obtain rfl := Option.some.inj h
    exact ⟨.all _ rfl nofun, rfl⟩
  | done => cases h

theorem step_workers {a : Label} (hok : Undisturbed s a) (h : step nWorker s a = some s') :
    Workers s s' a ∧ s'.stop = s.stop := by
  cases a with
  | pushList k =>
    obtain rfl := Option.some.inj h
    unfold pushList
    split
    · exact ⟨.same _ rfl (.inl rfl) nofun, rfl⟩
    · exact ⟨.all _ rfl nofun, rfl⟩
  | push waiter => exact push_workers h
  | worker w act =>
    obtain ⟨worker, hat, h⟩ := Option.bind_eq_some_iff.mp h
    have hworks := workerStep_works h
    exact ⟨.worker w worker act hat hworks, by cases hworks <;> rfl⟩
  | call =>
    obtain rfl := Option.some.inj h
    exact ⟨.same _ rfl (.inl rfl) nofun, rfl⟩
  | traverse i d =>
    obtain ⟨tr, _, h⟩ := Option.bind_eq_some_iff.mp h
    exact traverse_workers h
  | addWorker =>
    obtain rfl := Option.some.inj h
    exact ⟨.added rfl rfl, rfl⟩
  | requestStop | destroy => cases hok

theorem awake_of_notified {workers : List Worker} (hworkers : 0 < workers.length) :
    ∃ (w : Nat) (worker : Worker), (workers.map notify)[w]? = some worker ∧ worker.pc ≠ .asleep := by
  refine ⟨0, notify workers[0], ?_, notify_awake _⟩
  rw [List.getElem?_map, List.getElem?_eq_getElem hworkers]
  rfl

theorem Awake.kept {a : Label} (hi : Awake s) (hok : Undisturbed s a) (h : step nWorker s a = some s') : Awake s' := by
  obtain ⟨hrunning, halive, hworkers, hawake⟩ := hi
  obtain ⟨hkept, hstep⟩ := step_workers hok h
  have hstop : s'.stop = false := hstep.trans hrunning
  have hset : ∀ {w : Nat} {worker : Worker} (worker' : Worker), s.workers[w]? = some worker → worker'.Alive →
      s'.workers = s.workers.set w worker' → (∀ (j : Nat) (y : Worker), s'.workers[j]? = some y → y.Alive) ∧
      0 < s'.workers.length := by
    intro w worker worker' hat hok hs'
    rw [hs']
    refine ⟨fun j y hj => ?_, by rw [List.length_set]; exact hworkers⟩
    rcases getElem?_set_cases hj with ⟨_, rfl⟩ | ⟨_, hj'⟩
    · exact hok
    · exact halive j y hj'
  cases hkept with
  | same _ hs' hqueue _ =>
    refine ⟨hstop, by rw [hs']; exact halive, by rw [hs']; exact hworkers, fun hne => ?_⟩
    rw [hs']
    rcases hqueue with hqueue | hqueue | hqueue
    · exact hawake (hqueue ▸ hne)
    · exact absurd hqueue hne
    · exact ⟨0, s.workers[0], List.getElem?_eq_getElem hworkers, hqueue _ (List.getElem_mem hworkers)⟩
  | added hs' hqueue =>
    refine ⟨hstop, fun j y hj => ?_, by rw [hs', List.length_append]; omega, fun _ => ⟨s.workers.length, newWorker, ?_, nofun⟩⟩
    · rw [hs', List.getElem?_append] at hj
      split at hj
      · exact halive j y hj
      · have hnew := List.mem_of_getElem? hj
        obtain rfl := List.mem_singleton.mp hnew
        exact ⟨rfl, nofun⟩
    · rw [hs', List.getElem?_concat_length]
  | one w worker _ hat hs' _ =>
    obtain ⟨halive', hworkers'⟩ := hset (notify worker) hat (halive w worker hat).notify hs'
    refine ⟨hstop, halive', hworkers', fun _ => ⟨w, notify worker, ?_, notify_awake worker⟩⟩
    rw [hs']
    exact getElem?_set_at _ hat
  | all _ hs' _ =>
    rw [← List.length_map (f := notify), ← hs'] at hworkers
    refine ⟨hstop, fun j y hj => ?_, hworkers, fun _ => ?_⟩
    · rw [hs', List.getElem?_map] at hj
      obtain ⟨worker, hat, rfl⟩ := Option.map_eq_some_iff.mp hj
      exact (halive j worker hat).notify
    · rw [hs', List.length_map] at hworkers
      rw [hs']
      exact awake_of_notified hworkers
  | worker w worker act hat hworks =>
    obtain ⟨hnostop, hnotended⟩ := halive w worker hat
    cases hworks with
    | pop task taskQ _ _ _ =>
      obtain ⟨halive', hworkers'⟩ := hset { worker with pc := .running task } hat ⟨hnostop, nofun⟩ rfl
      exact ⟨hstop, halive', hworkers', fun _ => ⟨w, _, getElem?_set_at _ hat, nofun⟩⟩
    | wait _ hnil =>
      obtain ⟨halive', hworkers'⟩ := hset { worker with pc := .asleep } hat ⟨hnostop, nofun⟩ rfl
      exact ⟨hstop, halive', hworkers', fun hne => absurd hnil hne⟩
    | wake _ =>
      obtain ⟨halive', hworkers'⟩ := hset { worker with pc := .ready } hat ⟨hnostop, nofun⟩ rfl
      exact ⟨hstop, halive', hworkers', fun _ => ⟨w, _, getElem?_set_at _ hat, nofun⟩⟩
    | exit _ hstopped =>
      rcases hstopped with hstopped | hstopped
      · rw [hrunning] at hstopped
        cases hstopped
      · rw [hnostop] at hstopped
        cases hstopped
    | complete task _ =>
      obtain ⟨halive', hworkers'⟩ := hset { worker with pc := if worker.stopRequested then .ended else .ready } hat
        ⟨hnostop, by simp [hnostop]⟩ rfl
      exact ⟨hstop, halive', hworkers', fun _ => ⟨w, _, getElem?_set_at _ hat, by simp [hnostop]⟩⟩

theorem awake_inv (hpos : 0 < nWorker) (h : Reach (sys nWorker) Undisturbed s) : Awake s := by
  refine h.inv (I := Awake) ?_ fun s a s' hi hok hstep => hi.kept hok hstep
  intro s e
  subst e
  refine ⟨rfl, fun w worker hat => ?_, by rw [initial, List.length_replicate]; exact hpos, fun hne => absurd rfl hne⟩
  obtain rfl := List.eq_of_mem_replicate (List.mem_of_getElem? hat)
  exact ⟨rfl, fun hended => by cases hended⟩

/-! ## What becomes of a worker -/

def ReadyAt (s : State) (w : Nat) : Prop := ∃ worker, s.workers[w]? = some worker ∧ worker.pc = .ready

def RunsAt (s : State) (w : Nat) : Prop := ∃ worker, s.workers[w]? = some worker ∧ ∃ task, worker.pc = .running task

/-- It waits for a task, awake or not. -/
def RestsAt (s : State) (w : Nat) : Prop := ∃ worker, s.workers[w]? = some worker ∧ (worker.pc = .ready ∨ worker.pc = .asleep)

theorem ReadyAt.rests {w : Nat} (h : ReadyAt s w) : RestsAt s w := by
  obtain ⟨worker, hat, hready⟩ := h
  exact ⟨worker, hat, .inl hready⟩

theorem Awake.rests_or_runs (hi : Awake s) {w : Nat} {worker : Worker} (hat : s.workers[w]? = some worker) : RestsAt s w ∨
    RunsAt s w := by
  have hnotended := (hi.alive w worker hat).2
  cases hpc : worker.pc with
  | ready => exact .inl ⟨worker, hat, .inl hpc⟩
  | asleep => exact .inl ⟨worker, hat, .inr hpc⟩
  | running task => exact .inr ⟨worker, hat, task, hpc⟩
  | ended => exact absurd hpc hnotended

/-- It changes by its own steps, or is notified. -/
theorem Workers.at_ {a : Label} (h : Workers s s' a) {w : Nat} {worker : Worker} (hat : s.workers[w]? = some worker) :
    ((s'.workers[w]? = some worker ∨ s'.workers[w]? = some (notify worker)) ∧ ∀ act, a ≠ .worker w act) ∨
      ∃ act, a = .worker w act ∧ Works s w worker act s' := by
  cases h with
  | same _ hs' _ hother => exact .inl ⟨.inl (by rw [hs']; exact hat), hother w⟩
  | added hs' _ =>
    refine .inl ⟨.inl ?_, nofun⟩
    rw [hs', List.getElem?_append_left (List.getElem?_eq_some_iff.mp hat).1]
    exact hat
  | one w' worker' _ hat' hs' hother =>
    refine .inl ⟨?_, hother w⟩
    rw [hs']
    by_cases heq : w' = w
    · subst heq
      obtain rfl : worker' = worker := Option.some.inj (hat'.symm.trans hat)
      exact .inr (getElem?_set_at _ hat)
    · rw [List.getElem?_set_ne heq]
      exact .inl hat
  | all _ hs' hother =>
    refine .inl ⟨.inr ?_, hother w⟩
    rw [hs', List.getElem?_map, hat]
    rfl
  | worker w' worker' act hat' hworks =>
    by_cases heq : w' = w
    · subst heq
      obtain rfl : worker' = worker := Option.some.inj (hat'.symm.trans hat)
      exact .inr ⟨act, rfl, hworks⟩
    · refine .inl ⟨.inl ?_, fun act' hact => heq (by cases hact; rfl)⟩
      cases hworks <;> exact (List.getElem?_set_ne heq).trans hat

theorem RunsAt.step {a : Label} {w : Nat} (h : RunsAt s w) (hi : Awake s) (hok : Undisturbed s a)
    (hstep : step nWorker s a = some s') :
    (a = .worker w .complete ∧ ReadyAt s' w) ∨ (a ≠ .worker w .complete ∧ RunsAt s' w) := by
  obtain ⟨worker, hat, task, hpc⟩ := h
  have hnostop := (hi.alive w worker hat).1
  rcases (step_workers hok hstep).1.at_ hat with ⟨hkept, hother⟩ | ⟨act, rfl, hworks⟩
  · refine .inr ⟨hother .complete, worker, ?_, task, hpc⟩
    rcases hkept with hkept | hkept
    · exact hkept
    · rw [hkept, notify, if_neg (by rw [hpc]; exact nofun)]
  · cases hworks with
    | pop _ _ _ hready _ | wait hready _ | exit hready _ =>
      rw [hpc] at hready
      cases hready
    | wake hasleep =>
      rw [hpc] at hasleep
      cases hasleep
    | complete _ _ => exact .inl ⟨rfl, _, getElem?_set_at _ hat, by simp [hnostop]⟩

theorem RestsAt.step {a : Label} {w : Nat} (h : RestsAt s w) (hi : Awake s) (hok : Undisturbed s a)
    (hstep : step nWorker s a = some s')
    (hnopop : ¬ ∃ w, a = .worker w .pop) : RestsAt s' w := by
  obtain ⟨worker, hat, hpc⟩ := h
  obtain ⟨hnostop, _⟩ := hi.alive w worker hat
  rcases (step_workers hok hstep).1.at_ hat with ⟨hkept | hkept, _⟩ | ⟨act, rfl, hworks⟩
  · exact ⟨worker, hkept, hpc⟩
  · refine ⟨_, hkept, ?_⟩
    rcases (notify_kept worker).2 with hsame | hready
    · rw [hsame]
      exact hpc
    · exact .inl hready
  · cases hworks with
    | pop => exact absurd ⟨w, rfl⟩ hnopop
    | wait _ _ => exact ⟨_, getElem?_set_at _ hat, .inr rfl⟩
    | wake _ => exact ⟨_, getElem?_set_at _ hat, .inl rfl⟩
    | exit _ hstopped =>
      rw [hi.running, hnostop] at hstopped
      rcases hstopped with hstopped | hstopped <;> cases hstopped
    | complete _ hrunning =>
      rw [hrunning] at hpc
      rcases hpc with hpc | hpc <;> cases hpc

/-- All are notified. -/
theorem RestsAt.notified {w : Nat} (h : RestsAt s w) (hs' : s'.workers = s.workers.map notify) : ReadyAt s' w := by
  obtain ⟨worker, hat, hpc⟩ := h
  refine ⟨notify worker, ?_, ?_⟩
  · rw [hs', List.getElem?_map, hat]
    rfl
  · rcases hpc with hpc | hpc
    · rw [notify, if_neg (by rw [hpc]; exact nofun)]
      exact hpc
    · rw [notify, if_pos hpc]

theorem Awake.pop_enabled (hi : Awake s) {w : Nat} (hready : ReadyAt s w) (hne : s.taskQ ≠ []) :
    step nWorker s (.worker w .pop) ≠ none := by
  obtain ⟨worker, hat, hpc⟩ := hready
  obtain ⟨task, taskQ, hqueue⟩ := List.exists_cons_of_ne_nil hne
  simp [step, hat, workerStep, hqueue, hpc, hi.running, (hi.alive w worker hat).1]

/-! ## What becomes of a call -/

/-- How many steps the call has left, at most. -/
def Traversal.left : Traversal → Nat
  | .walk _ rest _ => 2 * rest.length + 2
  | .batch _ rest => 2 * rest.length + 3
  | .merge _ => 1
  | .begin | .done => 0

theorem visit_left (nWorker : Nat) (kept : List Nat) (task : Nat) (rest : List Nat) (processed : Nat) (d : Decision) :
    (visit nWorker kept task rest processed d).1.left < 2 * (rest.length + 1) + 2 := by
  cases d with
  | stop | take =>
    simp only [visit, Traversal.left]
    omega
  | keep =>
    unfold visit
    dsimp only
    split <;> simp only [Traversal.left] <;> omega

/-- A step of the holder brings it nearer to its end, or is its end. -/
theorem Held.own {i : Nat} {d : Decision} {tr : Traversal} (hh : Held s i tr) (hp' : Phase s')
    (h : traverseStep nWorker s i d tr = some s') :
    (∃ tr', Held s' i tr' ∧ tr'.left < tr.left) ∨ (Idle s' ∧ s'.workers = s.workers.map notify) := by
  have hactive := hh.active
  cases tr with
  | begin | done => cases hactive
  | walk kept rest processed =>
    cases rest with
    | nil =>
      obtain rfl := Option.some.inj h
      exact .inl ⟨_, hp'.held (getElem?_set_at _ hh.at_) rfl, by simp [Traversal.left]⟩
    | cons task rest =>
      have hnext := (visit_snapshot nWorker kept task rest processed d).1
      have hleft := visit_left nWorker kept task rest processed d
      have hset : s'.traversals = s.traversals.set i (visit nWorker kept task rest processed d).1 :=
        (congrArg State.traversals (Option.some.inj h)).symm
      have hat : s'.traversals[i]? = some (visit nWorker kept task rest processed d).1 := by
        rw [hset]
        exact getElem?_set_at _ hh.at_
      exact .inl ⟨_, hp'.held hat hnext, hleft⟩
  | batch kept rest =>
    obtain rfl := Option.some.inj h
    exact .inl ⟨_, hp'.held (getElem?_set_at _ hh.at_) rfl, by simp [Traversal.left]⟩
  | merge snapshot =>
    obtain rfl := Option.some.inj h
    exact .inr ⟨hp'.idle rfl, rfl⟩

theorem Held.enabled {i : Nat} {tr : Traversal} (hh : Held s i tr) : step nWorker s (.traverse i .keep) ≠ none := by
  have hactive := hh.active
  cases tr with
  | begin | done => cases hactive
  | walk kept rest processed =>
    cases rest with
    | nil | cons => simp [step, hh.at_, traverseStep]
  | batch | merge => simp [step, hh.at_, traverseStep]

theorem traverseStep_set {i : Nat} {d : Decision} {tr : Traversal} (h : traverseStep nWorker s i d tr = some s') :
    ∃ y, s'.traversals = s.traversals.set i y := by
  cases tr with
  | begin =>
    unfold traverseStep at h
    by_cases hdrain : s.drain = true
    · rw [if_pos hdrain] at h
      obtain rfl := Option.some.inj h
      exact ⟨_, rfl⟩
    · rw [if_neg hdrain] at h
      obtain rfl := Option.some.inj h
      exact ⟨_, rfl⟩
  | walk kept rest processed =>
    cases rest with
    | nil | cons =>
      obtain rfl := Option.some.inj h
      exact ⟨_, rfl⟩
  | batch | merge =>
    obtain rfl := Option.some.inj h
    exact ⟨_, rfl⟩
  | done => cases h

/-- Other steps leave a call where it is. -/
theorem step_call {a : Label} {i : Nat} {tr : Traversal} (hat : s.traversals[i]? = some tr) (hother : ¬ ∃ d, a = .traverse i d)
    (h : step nWorker s a = some s') : s'.traversals[i]? = some tr := by
  cases a with
  | pushList k =>
    obtain rfl := Option.some.inj h
    unfold pushList
    split <;> exact hat
  | push waiter =>
    have hpush : push s waiter = some s' := h
    unfold push at hpush
    split at hpush
    · obtain rfl := Option.some.inj hpush
      exact hat
    · obtain ⟨workers, _, rfl⟩ := Option.map_eq_some_iff.mp hpush
      exact hat
  | worker w act =>
    obtain ⟨worker, _, h⟩ := Option.bind_eq_some_iff.mp h
    cases workerStep_works h <;> exact hat
  | call =>
    obtain rfl := Option.some.inj h
    exact (List.getElem?_append_left (List.getElem?_eq_some_iff.mp hat).1).trans hat
  | traverse j d =>
    obtain ⟨tr', _, h⟩ := Option.bind_eq_some_iff.mp h
    have hne : j ≠ i := by
      intro e
      subst e
      exact hother ⟨d, rfl⟩
    obtain ⟨y, hset⟩ := traverseStep_set h
    rw [hset, List.getElem?_set_ne hne]
    exact hat
  | requestStop w =>
    obtain ⟨worker, _, rfl⟩ := Option.map_eq_some_iff.mp h
    exact hat
  | addWorker | destroy =>
    obtain rfl := Option.some.inj h
    exact hat

/-! ## Fair runs -/

section Progress

variable {r : Run (sys nWorker) Undisturbed} {N task : Nat}

structure FairPool (r : Run (sys nWorker) Undisturbed) : Prop where
  pops : r.StronglyFair fun a => ∃ w, a = .worker w .pop
  completes : ∀ w, r.Fair fun a => a = .worker w .complete
  walks : ∀ i, r.Fair fun a => ∃ d, a = .traverse i d

/-- From time `N` on the task waits, nobody pops and nobody can. -/
structure Stuck (r : Run (sys nWorker) Undisturbed) (N task : Nat) : Prop where
  waits : ∀ m, N ≤ m → task ∈ (r.state m).waiting
  noPop : ∀ m, N ≤ m → ∀ a, r.label m = some a → ¬ ∃ w, a = .worker w .pop
  busy : ∀ m, N ≤ m → ∀ w, ReadyAt (r.state m) w → (r.state m).taskQ = []

/-- A task that runs ends. -/
theorem ready_of_runs (hpos : 0 < nWorker) (hfair : FairPool r) {w n : Nat} (h : RunsAt (r.state n) w) :
    ∃ m, n < m ∧ ReadyAt (r.state m) w := by
  refine Run.leads (hfair.completes w) (P := fun m => RunsAt (r.state m) w) (Q := fun m => ReadyAt (r.state m) w) (fun _ => 0)
    (fun m hm => ?_) (fun m hm hother => ?_) (fun m a hm hlabel hmover => ?_) h
  · obtain ⟨worker, hat, task, hpc⟩ := hm
    refine ⟨_, rfl, ?_⟩
    simp [sys, step, hat, workerStep, hpc]
  · rcases r.next m with ⟨_, hsame⟩ | ⟨a, hlabel, hok, hstep⟩
    · rw [hsame]
      exact .inr ⟨hm, Nat.le_refl 0⟩
    · rcases hm.step (awake_inv hpos (r.reach m)) hok hstep with ⟨hmover, _⟩ | ⟨_, hruns⟩
      · exact absurd hmover (hother a hlabel)
      · exact .inr ⟨hruns, Nat.le_refl 0⟩
  · obtain ⟨hok, hstep⟩ := r.taken hlabel
    rcases hm.step (awake_inv hpos (r.reach m)) hok hstep with ⟨_, hready⟩ | ⟨hnot, _⟩
    · exact .inl hready
    · exact absurd hmover hnot

/-- Without pops a worker comes to rest and stays there. -/
theorem Stuck.rests (hstuck : Stuck r N task) (hpos : 0 < nWorker) (hfair : FairPool r) :
    ∃ w M, N ≤ M ∧ ∀ m, M ≤ m → RestsAt (r.state m) w := by
  have hi := awake_inv hpos (r.reach N)
  obtain ⟨M, hM, hrests⟩ : ∃ M, N ≤ M ∧ RestsAt (r.state M) 0 := by
    rcases hi.rests_or_runs (List.getElem?_eq_getElem hi.workers) with hrests | hruns
    · exact ⟨N, Nat.le_refl N, hrests⟩
    · obtain ⟨M, hM, hready⟩ := ready_of_runs hpos hfair hruns
      exact ⟨M, hM.le, hready.rests⟩
  refine ⟨0, M, hM, fun m hm => ?_⟩
  induction m, hm using Nat.le_induction with
  | base => exact hrests
  | succ m hm ih =>
    rcases r.next m with ⟨_, hsame⟩ | ⟨a, hlabel, hok, hstep⟩
    · rw [hsame]
      exact ih
    · exact ih.step (awake_inv hpos (r.reach m)) hok hstep (hstuck.noPop m (by omega) a hlabel)

/-- Nobody has the queue in his hands: he would put it back, and wake a worker that can pop. -/
theorem Stuck.free (hstuck : Stuck r N task) (hfair : FairPool r) {w M : Nat} (hM : N ≤ M)
    (hrests : ∀ m, M ≤ m → RestsAt (r.state m) w)
    {n : Nat} (hn : M ≤ n) : Idle (r.state n) := by
  rcases (accounted_inv (r.reach n)).2 with hidle | ⟨i, tr, hheld⟩
  · exact hidle
  suffices hleads : ∃ m, n < m ∧ False by
    obtain ⟨_, _, hfalse⟩ := hleads
    exact hfalse.elim
  refine Run.leads (hfair.walks i) (P := fun m => M ≤ m ∧ ∃ tr, Held (r.state m) i tr) (Q := fun _ => False)
    (fun m => (((r.state m).traversals[i]?).map Traversal.left).getD 0)
    (fun m hm => ?_) (fun m hm hother => ?_) (fun m a hm hlabel hmover => ?_) ⟨hn, tr, hheld⟩
  · obtain ⟨_, tr, hheld⟩ := hm
    exact ⟨_, ⟨.keep, rfl⟩, hheld.enabled⟩
  · obtain ⟨hle, tr, hheld⟩ := hm
    rcases r.next m with ⟨_, hsame⟩ | ⟨a, hlabel, hok, hstep⟩
    · rw [hsame]
      exact .inr ⟨⟨by omega, tr, hheld⟩, Nat.le_refl _⟩
    · have hat' := step_call hheld.at_ (hother a hlabel) hstep
      refine .inr ⟨⟨by omega, tr, (accounted_inv (r.reach (m + 1))).2.held hat' hheld.active⟩, ?_⟩
      rw [hat', hheld.at_]
  · obtain ⟨hle, tr, hheld⟩ := hm
    obtain ⟨d, rfl⟩ := hmover
    obtain ⟨_, hstep⟩ := r.taken hlabel
    obtain ⟨tr', hat', hstep⟩ := Option.bind_eq_some_iff.mp hstep
    obtain rfl : tr' = tr := Option.some.inj (hat'.symm.trans hheld.at_)
    rcases hheld.own (accounted_inv (r.reach (m + 1))).2 hstep with ⟨tr₁, hheld₁, hless⟩ | ⟨hidle, hall⟩
    · refine .inr ⟨⟨by omega, tr₁, hheld₁⟩, ?_⟩
      rw [hheld₁.at_, hheld.at_]
      exact hless
    · have hwaits := hstuck.waits (m + 1) (by omega)
      rw [hidle.waiting, hstuck.busy (m + 1) (by omega) w ((hrests m hle).notified hall)] at hwaits
      cases hwaits

/-- A worker that is awake comes to the queue. -/
theorem Stuck.absurd (hstuck : Stuck r N task) (hpos : 0 < nWorker) (hfair : FairPool r) : False := by
  obtain ⟨w, M, hM, hrests⟩ := hstuck.rests hpos hfair
  have hqueue : ∀ m, M ≤ m → (r.state m).taskQ ≠ [] := by
    intro m hm hnil
    have hwaits := hstuck.waits m (by omega)
    rw [(hstuck.free hfair hM hrests hm).waiting, hnil] at hwaits
    cases hwaits
  have hi := awake_inv hpos (r.reach M)
  obtain ⟨w', worker, hat, hawake⟩ := hi.awake (hqueue M (Nat.le_refl M))
  have hnotready : ∀ m, M ≤ m → ¬ ReadyAt (r.state m) w' := fun m hm hready => hqueue m hm (hstuck.busy m (by omega) w' hready)
  rcases hi.rests_or_runs hat with hrests' | hruns
  · obtain ⟨worker', hat', hpc⟩ := hrests'
    obtain rfl : worker' = worker := Option.some.inj (hat'.symm.trans hat)
    exact hnotready M (Nat.le_refl M) ⟨worker', hat', hpc.resolve_right hawake⟩
  · obtain ⟨m, hm, hready⟩ := ready_of_runs hpos hfair hruns
    exact hnotready m hm.le hready

/-- From its push on, each step keeps a task pushed. -/
theorem pushed_le {n m : Nat} (hnm : n ≤ m) : (r.state n).pushed ≤ (r.state m).pushed := by
  induction m, hnm using Nat.le_induction with
  | base => exact Nat.le_refl _
  | succ m _ ih =>
    rcases r.next m with ⟨_, hsame⟩ | ⟨a, _, _, hstep⟩
    · rw [hsame]
      exact ih
    · refine ih.trans ?_
      cases (step_effect (accounted_inv (r.reach m)).2 hstep).1 with
      | same _ _ _ hpushed | popped _ _ _ _ _ hpushed | taken _ _ _ _ _ _ _ _ hpushed => exact hpushed.ge
      | pushed k _ _ _ hpushed =>
        rw [hpushed]
        exact Nat.le_add_right _ _

/-- No step takes back a pop, and each pop adds one. -/
theorem executed_le (m : Nat) : (r.state m).executed.length ≤ (r.state (m + 1)).executed.length := by
  rcases r.next m with ⟨_, hsame⟩ | ⟨a, _, _, hstep⟩
  · rw [hsame]
  · cases (step_effect (accounted_inv (r.reach m)).2 hstep).1 with
    | same _ hexecuted _ _ | pushed _ _ hexecuted _ _ | taken _ _ _ _ _ _ hexecuted _ _ => rw [hexecuted]
    | popped w task _ hexecuted _ _ =>
      rw [hexecuted, List.length_append]
      exact Nat.le_add_right _ _

theorem executed_pop {m w : Nat} (hlabel : r.label m = some (.worker w .pop)) :
    (r.state (m + 1)).executed.length = (r.state m).executed.length + 1 := by
  obtain ⟨_, hstep⟩ := r.taken hlabel
  obtain ⟨worker, _, hstep⟩ := Option.bind_eq_some_iff.mp hstep
  have hworks := workerStep_works hstep
  generalize r.state (m + 1) = s' at hworks ⊢
  cases hworks with
  | pop task taskQ _ _ _ => exact List.length_append

theorem finished_later {n m : Nat} (h : Finished (r.state n) task) (hnm : n ≤ m) : Finished (r.state m) task := by
  induction m, hnm using Nat.le_induction with
  | base => exact h
  | succ m _ ih =>
    rcases r.next m with ⟨_, hsame⟩ | ⟨a, _, _, hstep⟩
    · rw [hsame]
      exact ih
    · exact ih.kept (step_effect (accounted_inv (r.reach m)).2 hstep).1

theorem task_finished (hpos : 0 < nWorker) (hfair : FairPool r) {n : Nat} (hpushed : task < (r.state n).pushed) :
    ∃ m, n ≤ m ∧ Finished (r.state m) task := by
  by_contra hnot
  have hnever : ∀ m, ¬ Finished (r.state m) task := by
    intro m hfinished
    by_cases hm : n ≤ m
    · exact hnot ⟨m, hm, hfinished⟩
    · exact hnot ⟨n, Nat.le_refl n, finished_later hfinished (by omega)⟩
  have hbound : ∀ m, (r.state m).executed.length ≤ task := fun m => (accounted_inv (r.reach m)).1.count_le (hnever m)
  have hpop : ∀ m a, r.label m = some a → (∃ w, a = .worker w .pop) →
      task - (r.state (m + 1)).executed.length < task - (r.state m).executed.length := by
    rintro m a hlabel ⟨w, rfl⟩
    have hnext := executed_pop hlabel
    have hle := hbound (m + 1)
    omega
  obtain ⟨N, hN, hnoPop, hdisabled⟩ := Run.rarely hfair.pops (fun m => task - (r.state m).executed.length)
    (fun m => Nat.sub_le_sub_left (executed_le m) task) hpop n
  have hstuck : Stuck r N task := by
    refine ⟨fun m hm => ?_, hnoPop, fun m hm w hready => ?_⟩
    · exact (accounted_inv (r.reach m)).1.waits (hpushed.trans_le (pushed_le (hN.trans hm))) (hnever m)
    · by_contra hne
      have hnone : step nWorker (r.state m) (.worker w .pop) = none := hdisabled m hm _ ⟨w, rfl⟩
      exact (awake_inv hpos (r.reach m)).pop_enabled hready hne hnone
  exact hstuck.absurd hpos hfair

end Progress

/-- In any state every task pushed was popped by one worker, was taken by one call, or waits, once and
    in its order; and in a fair run it does not wait for ever. -/
theorem loses_nothing (nWorker : Nat) :
    (∀ s, Reach (sys nWorker) Any s → Accounted s) ∧
      (0 < nWorker → ∀ r : Run (sys nWorker) Undisturbed, FairPool r → ∀ n task, task < (r.state n).pushed →
        ∃ m, n ≤ m ∧ Finished (r.state m) task) :=
  ⟨fun _ h => (accounted_inv h).1, fun hpos _ hfair _ _ hpushed => task_finished hpos hfair hpushed⟩

/-! ## A run -/

def undisturbed (_ : State) : Label → Bool
  | .requestStop _ | .destroy => false
  | _ => true

theorem undisturbed_ok (s : State) (a : Label) (h : undisturbed s a = true) : Undisturbed s a := by
  cases a with
  | requestStop | destroy => cases h
  | pushList | push | worker | call | traverse | addWorker => trivial

/-- One worker, three tasks; a call keeps the first, takes the second and keeps the third, and beside
    it a fourth task is pushed, the first is popped, and another call comes in vain. -/
def oneTaken : List Label :=
  [.pushList 3, .call, .traverse 0 .keep, .traverse 0 .keep, .traverse 0 .keep, .push none, .worker 0 .pop, .call,
    .traverse 1 .keep,
    .traverse 0 .take, .worker 0 .complete, .traverse 0 .keep, .traverse 0 .keep, .worker 0 .pop, .traverse 0 .keep,
    .traverse 0 .keep,
    .worker 0 .complete, .worker 0 .pop, .worker 0 .complete, .worker 0 .wait]

def afterOneTaken : State :=
  { taskQ := [], taskPending := [], drain := false, stop := false, workers := [⟨.asleep, false⟩], traversals := [.done, .done],
    pushed := 4, executed := [(0, 0), (0, 2), (0, 3)], taken := [(0, 1)] }

theorem oneTaken_runs : replayOk undisturbed (sys 1) (initial 1) oneTaken = some afterOneTaken := by decide

theorem loses_nothing_one_taken : Accounted afterOneTaken ∧ ∃ m, 1 ≤ m ∧
    Finished ((Run.ofReplay undisturbed undisturbed_ok rfl oneTaken oneTaken_runs).state m) 1 := by
  have hworker : ∀ w act, act = .pop ∨ act = .complete → step 1 afterOneTaken (.worker w act) = none := by
    rintro w act (rfl | rfl) <;> rcases w with _ | w <;> rfl
  have hcall : ∀ i d, step 1 afterOneTaken (.traverse i d) = none := by
    intro i d
    rcases i with _ | _ | i <;> rfl
  have hreach : Reach (sys 1) Any afterOneTaken := replay_reach oneTaken (.init rfl) (by decide)
  refine ⟨(loses_nothing 1).1 _ hreach, (loses_nothing 1).2 (by decide) _ ⟨?_, fun w => ?_, fun i => ?_⟩ 1 1 (by decide)⟩
  · refine Run.ofReplay_stronglyFair ?_
    rintro a ⟨w, rfl⟩
    exact hworker w .pop (.inl rfl)
  · refine Run.ofReplay_fair ?_
    intro a e
    subst e
    exact hworker w .complete (.inr rfl)
  · refine Run.ofReplay_fair ?_
    rintro a ⟨d, rfl⟩
    exact hcall i d

end UnifiedCache.Infra.ThreadPool
