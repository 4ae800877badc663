/-
  UnifiedCache.Mooncake.HostTasks — invariants of every run of the Mooncake store's queues
  (see `UnifiedCache.Mooncake.HostQueues`).

  - `LoaderFrame`, `TransferFrame`, `DumperFrame`: what a step of a thread leaves as it is.
  - `JobsInv`: each `ShardTask` has its buffer until it is dropped, and where it is says how far its
    load and its copy have come.
  - `TasksInv`: the shards of a task are pushed one after the other, the last of them with the
    waiter; a task's latch is up while one is still to come.
-/

import UnifiedCache.Mooncake.HostQueues

namespace UnifiedCache.Mooncake

open UnifiedCache.Base UnifiedCache.Detail

variable {Byte : Type} {C : QueueConfig Byte} {s s' : Queues Byte} {l : QueueLabel Byte}

/-! ## The dispatchers -/

/-- It is the load dispatcher's. -/
def TaskPc.loads : TaskPc → Bool
  | .getting | .submitting .. | .acquired .. => true
  | _ => false

/-- It is the dump dispatcher's. -/
def TaskPc.dumps : TaskPc → Bool
  | .checking | .waitingEvent _ | .preparing .. | .gathering .. | .putting _ | .synchronizing | .dumping | .leaving _ => true
  | _ => false

/-- It is the transfer thread's. -/
def JobPc.current : JobPc → Bool
  | .waiting | .copying | .syncing | .finishing _ => true
  | _ => false

/-- Its copy is still to come. -/
def JobPc.uncopied : JobPc → Bool
  | .queued | .waiting | .copying => true
  | _ => false

/-- What a step of the load dispatcher leaves as it is, apart from its task `t`. -/
structure LoaderFrame (t : Nat) (s s' : Queues Byte) : Prop where
  task : ∀ t', t' ≠ t → s'.task t' = s.task t'
  type : (s'.task t).type = (s.task t).type ∧ (s'.task t).nShard = (s.task t).nShard
  pc : s'.loader = some t ∧ (s'.task t).pc.loads = true ∨ s'.loader = none
  wrapper : s'.wrapper.nTask = s.wrapper.nTask ∧ s'.wrapper.wait = s.wrapper.wait
  job : s.nJob ≤ s'.nJob ∧ ∀ j, j < s.nJob → s'.job j = s.job j
  pushed : ∀ j, s.nJob ≤ j → j < s'.nJob → ∃ i p b, (s.task t).pc = .acquired i p b ∧
    s'.job j = ⟨t, i, b, decide (p + 1 = s.missCount t), .queued, .running, .none⟩ ∧ ∀ o, s'.got j o = false ∧
    s'.moved j o = false
  data : ∀ j, j < s.nJob → s'.got j = s.got j ∧ s'.moved j = s.moved j
  dest : s'.dest = s.dest ∨ (s.task t).pc = .getting ∧ ∀ t', t' ≠ t → s'.dest t' = s.dest t'
  owner : ∀ b o, s.owner b = o → o ≠ .free → o ≠ .loader → s'.owner b = o
  rest : s'.head = s.head ∧ s'.transfer = s.transfer ∧ s'.dumper = s.dumper ∧ s'.dumpOp = s.dumpOp ∧ s'.reads = s.reads ∧
    s'.gather = s.gather ∧ s'.host = s.host

theorem loader_frame {t : Nat} {l : LoaderLabel} (ht : s.loader = some t) (hb : ∀ i p b, (s.task t).pc = .acquired i p b →
    s.owner b = .loader)
    (hs : loaderStep C s t l = some s') : LoaderFrame t s s' := by
  cases l <;> simp only [loaderStep] at hs <;> (repeat' split at hs) <;> first | cases hs; done | skip
  all_goals
    obtain rfl := Option.some.inj hs
    constructor <;> simp only [Queues.endTask, Queues.leaveLoader, Queues.setPc, Queues.done, Queues.failUnless, Queues.setOwner,
      TaskWrapper.done_nTask, TaskWrapper.done_wait, TaskWrapper.failIf_nTask, TaskWrapper.failIf_wait] <;> grind [TaskPc.loads]

/-- What a step of the transfer thread leaves as it is, its job being `j`. -/
structure TransferFrame (j : Nat) (s s' : Queues Byte) : Prop where
  wrapper : s'.wrapper.nTask = s.wrapper.nTask ∧ s'.wrapper.wait = s.wrapper.wait
  counter : ∀ t, s'.wrapper.counter t = s.wrapper.counter t ∨ (s.job j).last = true ∧ t = (s.job j).task ∧
      (s.job j).pc.uncopied = false ∧
    s'.wrapper.counter t = s.wrapper.counter t - 1
  owner : ∀ b, s'.owner b = s.owner b ∨ ∃ j, s.owner b = .job j ∧ s'.owner b = .free
  job : ∀ j, (s'.job j).task = (s.job j).task ∧ (s'.job j).shard = (s.job j).shard ∧ (s'.job j).buf = (s.job j).buf ∧
    (s'.job j).last = (s.job j).last ∧ (s'.job j).load = (s.job j).load
  other : ∀ k, k ≠ j → ((s'.job k).pc = (s.job k).pc ∨ (s.job k).pc = .held ∧ (s'.job k).pc = .dropped) ∧
    ((s'.job k).copy = (s.job k).copy ∨ ∃ whole, (s.job k).copy = .issued whole ∧ (s'.job k).copy = .synced whole)
  rest : s'.task = s.task ∧ s'.loader = s.loader ∧ s'.dumper = s.dumper ∧ s'.nJob = s.nJob ∧ s'.head = s.head ∧
      s'.dumpOp = s.dumpOp ∧
    s'.reads = s.reads ∧ s'.gather = s.gather
  data : s'.host = s.host ∧ s'.dest = s.dest ∧ s'.got = s.got ∧ s'.moved = s.moved

theorem transfer_frame {j : Nat} {l : TransferLabel} (hb : s.owner (s.job j).buf = .job j) (hs : transferStep C s j l = some s') :
    TransferFrame j s s' := by
  cases l <;> simp only [transferStep] at hs <;> (repeat' split at hs) <;> first | cases hs; done | skip
  all_goals
    obtain rfl := Option.some.inj hs
    constructor <;> simp only [Queues.failUnless, Queues.done, Queues.clearHolder, Queues.syncCopies, Queues.dropJob,
      Queues.setJob,
      Queues.setOwner, TaskWrapper.done_nTask, TaskWrapper.done_wait, TaskWrapper.failIf_nTask, TaskWrapper.failIf_wait,
      TaskWrapper.done_counter,
      TaskWrapper.failIf_counter, and_self] <;> grind [JobPc.uncopied]

/-- What a step of the dump dispatcher leaves as it is, apart from its task `t`. -/
structure DumperFrame (t : Nat) (s s' : Queues Byte) : Prop where
  task : ∀ t', t' ≠ t → s'.task t' = s.task t'
  type : (s'.task t).type = (s.task t).type ∧ (s'.task t).pc ≠ .queued ∧ (s'.task t).pc ≠ .getting
  pc : s'.dumper = some t ∧ (s'.task t).pc.dumps = true ∨ s'.dumper = none
  wrapper : s'.wrapper.nTask = s.wrapper.nTask ∧ s'.wrapper.wait = s.wrapper.wait
  counter : s'.wrapper.counter t ≤ s.wrapper.counter t ∧
    ∀ t', t' ≠ t → s'.wrapper.counter t' = s.wrapper.counter t' ∧ s'.wrapper.failureSet t' = s.wrapper.failureSet t'
  owner : ∀ b, s'.owner b = s.owner b ∨ s.owner b = .free ∧ s'.owner b = .ctx t ∨ s.owner b = .ctx t ∧ s'.owner b = .free
  rest : s'.loader = s.loader ∧ s'.nJob = s.nJob ∧ s'.job = s.job ∧ s'.head = s.head ∧ s'.transfer = s.transfer
  data : s'.host = s.host ∧ s'.dest = s.dest ∧ s'.got = s.got ∧ s'.moved = s.moved

theorem dumper_frame {t : Nat} {l : DumperLabel} (ht : s.dumper = some t) (hs : dumperStep C s t l = some s') :
    DumperFrame t s s' := by
  cases l <;> simp only [dumperStep] at hs <;> (repeat' split at hs) <;> first | cases hs; done | skip
  all_goals
    obtain rfl := Option.some.inj hs
    constructor <;> simp only [Queues.dumpFails, Queues.dropCtx, Queues.setPc, Queues.done, Queues.failUnless, Queues.setOwner,
      TaskWrapper.done_nTask, TaskWrapper.done_wait, TaskWrapper.failIf_nTask, TaskWrapper.failIf_wait, TaskWrapper.done_counter,
      TaskWrapper.done_failureSet, TaskWrapper.failIf_counter, TaskWrapper.failIf_failureSet, and_self] <;> grind [TaskPc.dumps]

structure DispatchInv (s : Queues Byte) : Prop where
  loader : ∀ t, s.loader = some t → t < s.wrapper.nTask ∧ (s.task t).type = .load ∧ (s.task t).pc.loads = true
  dumper : ∀ t, s.dumper = some t → t < s.wrapper.nTask ∧ (s.task t).type = .dump ∧ (s.task t).pc.dumps = true

theorem DispatchInv.ne (h : DispatchInv s) {t t' : Nat} (ht : s.loader = some t) (ht' : s.dumper = some t') : t ≠ t' := by
  intro e
  subst e
  have h1 := (h.loader t ht).2.1
  rw [(h.dumper t ht').2.1] at h1
  cases h1

/-! ## The jobs -/

theorem clearHolder_job (k : Nat) : (s.clearHolder.job k).task = (s.job k).task ∧ (s.clearHolder.job k).last = (s.job k).last ∧
    (s.clearHolder.job k).copy = (s.job k).copy ∧ (s.clearHolder.job k).pc = if (s.job k).pc = .held then .dropped
    else (s.job k).pc := by
  show (if (s.job k).pc = .held then { s.job k with pc := .dropped } else s.job k : Job).task = _ ∧ _
  dsimp only [Queues.clearHolder]
  split <;> exact ⟨rfl, rfl, rfl, rfl⟩

theorem syncCopies_job (k : Nat) : (s.syncCopies.job k).task = (s.job k).task ∧ (s.syncCopies.job k).last = (s.job k).last ∧
    (s.syncCopies.job k).pc = (s.job k).pc ∧
    (∀ whole, (s.job k).copy = .issued whole ∨ (s.job k).copy = .synced whole → (s.syncCopies.job k).copy = .synced whole) := by
  dsimp only [Queues.syncCopies]
  split
  · next whole e =>
    refine ⟨rfl, rfl, rfl, fun w hw => ?_⟩
    rw [e] at hw
    rcases hw with hw | hw
    · exact congrArg CopyState.synced (CopyState.issued.inj hw)
    · cases hw
  · next hno => exact ⟨rfl, rfl, rfl, fun w hw => hw.resolve_left (hno w)⟩

/-- What a job's place says of its load and its copy. -/
def Job.Ok (x : Job) : Prop :=
  match x.pc with
  | .queued | .waiting => x.copy = .none
  | .copying => x.copy = .none ∧ x.load = .ended true
  | .held => x.copy = .issued true ∧ x.load = .ended true
  | .syncing => x.copy = .issued true ∧ x.load = .ended true ∧ x.last = true
  | .finishing ok => ok = true → x.copy = .synced true ∧ x.load = .ended true ∧ x.last = true
  | .dropped => True

structure JobsInv (s : Queues Byte) : Prop where
  head_le : s.head ≤ s.nJob
  queued : ∀ j, j < s.nJob → ((s.job j).pc = .queued ↔ s.head ≤ j)
  current : ∀ j, j < s.nJob → ((s.job j).pc.current = true ↔ s.transfer = some j)
  transfer_lt : ∀ j, s.transfer = some j → j < s.nJob
  owner : ∀ j, j < s.nJob → (s.job j).pc ≠ .dropped → s.owner (s.job j).buf = .job j
  acquired : ∀ t i p b, s.loader = some t → (s.task t).pc = .acquired i p b → s.owner b = .loader
  ok : ∀ j, j < s.nJob → (s.job j).Ok

/-- The jobs are as before, and keep their buffers. -/
theorem JobsInv.congr (h : JobsInv s) (hjob : s'.job = s.job) (hn : s'.nJob = s.nJob) (hhead : s'.head = s.head)
    (htr : s'.transfer = s.transfer) (ho : ∀ b j, s.owner b = .job j → s'.owner b = .job j)
    (ha : ∀ t i p b, s'.loader = some t → (s'.task t).pc = .acquired i p b → s'.owner b = .loader) : JobsInv s' := by
  refine ⟨?_, ?_, ?_, ?_, ?_, ha, ?_⟩
  · rw [hhead, hn]
    exact h.head_le
  · rw [hjob, hn, hhead]
    exact h.queued
  · rw [hjob, hn, htr]
    exact h.current
  · rw [htr, hn]
    exact h.transfer_lt
  · rw [hjob, hn]
    intro j hj hpc
    exact ho _ _ (h.owner j hj hpc)
  · rw [hjob, hn]
    exact h.ok

section Jobs

variable {t j : Nat}

theorem JobsInv.endTask (h : JobsInv s) (ok : Bool) : JobsInv (s.endTask ok t) :=
  h.congr rfl rfl rfl rfl (fun _ _ e => e) fun _ _ _ _ => nofun

theorem JobsInv.loaderStep {l : LoaderLabel} (h : JobsInv s) (ht : s.loader = some t) (hs : loaderStep C s t l = some s') :
    JobsInv s' := by
  cases l with
  | get results =>
    simp only [Mooncake.loaderStep] at hs
    split at hs
    · split at hs
      · obtain rfl := Option.some.inj hs
        exact h.endTask false
      · split at hs
        · obtain rfl := Option.some.inj hs
          exact h.congr rfl rfl rfl rfl (fun _ _ e => e) fun _ _ _ _ => nofun
        · obtain rfl := Option.some.inj hs
          refine h.congr rfl rfl rfl rfl (fun _ _ e => e) fun t' i p b ht' hpc => ?_
          simp only [Queues.setPc] at ht' hpc
          grind
    · cases hs
  | next =>
    simp only [Mooncake.loaderStep] at hs
    split at hs
    · split at hs
      · split at hs
        · obtain rfl := Option.some.inj hs
          refine h.congr rfl rfl rfl rfl (fun _ _ e => e) fun t' i p b ht' hpc => ?_
          simp only [Queues.setPc] at ht' hpc
          grind
        · cases hs
      · obtain rfl := Option.some.inj hs
        exact h.congr rfl rfl rfl rfl (fun _ _ e => e) fun _ _ _ _ => nofun
    · cases hs
  | acquire b =>
    simp only [Mooncake.loaderStep] at hs
    split at hs
    · split at hs
      · split at hs
        · split at hs
          · next hfree =>
            obtain rfl := Option.some.inj hs
            refine h.congr rfl rfl rfl rfl (fun b' j hj => ?_) fun t' i p b' ht' hpc => ?_
            · simp only [Queues.setPc, Queues.setOwner]
              grind
            · simp only [Queues.setPc, Queues.setOwner] at ht' hpc ⊢
              grind
          · cases hs
        · obtain rfl := Option.some.inj hs
          exact h.endTask false
      · cases hs
    · cases hs
  | load ok =>
    simp only [Mooncake.loaderStep] at hs
    split at hs
    · next i p b hpc =>
      have hb := h.acquired t i p b ht hpc
      split at hs
      · -- the new job has the dispatcher's buffer, and is behind the others
        obtain rfl := Option.some.inj hs
        obtain ⟨hhead, hqueued, hcurrent, hlt, howner, -, hok⟩ := h
        constructor <;> simp only [Queues.setPc, Queues.setOwner] <;> grind [Job.Ok, JobPc.current]
      · obtain rfl := Option.some.inj hs
        refine h.congr rfl rfl rfl rfl (fun b' j hj => ?_) fun _ _ _ _ => nofun
        simp only [Queues.endTask, Queues.leaveLoader, Queues.setPc, Queues.done, Queues.failUnless, Queues.setOwner]
        grind
    · cases hs

/-- One job goes on, and the others keep their places and their buffers. -/
theorem JobsInv.one (h : JobsInv s) {x : Job} (hj : j < s.nJob) (hjob : s'.job = Function.update s.job j x)
    (hn : s'.nJob = s.nJob)
    (hhead : s'.head ≤ s.nJob ∧ ∀ k, k ≠ j → (s'.head ≤ k ↔ s.head ≤ k)) (hq : x.pc = .queued ↔ s'.head ≤ j)
    (htr : ∀ k, k ≠ j → (s'.transfer = some k ↔ s.transfer = some k)) (hc : x.pc.current = true ↔ s'.transfer = some j)
    (ho : ∀ b o, s.owner b = o → o ≠ .job j → s'.owner b = o) (hbuf : x.pc ≠ .dropped → s'.owner x.buf = .job j)
    (hload : s'.loader = s.loader ∧ s'.task = s.task) (hok : x.Ok) : JobsInv s' := by
  have hself : s'.job j = x := by rw [hjob, Function.update_self]
  have hother : ∀ k, k ≠ j → s'.job k = s.job k := fun k e => by rw [hjob, Function.update_of_ne e]
  refine ⟨hn ▸ hhead.1, fun k hk => ?_, fun k hk => ?_, fun k ht => ?_, fun k hk hpc => ?_, fun t i p b ht hpc => ?_,
    fun k hk => ?_⟩
  · rw [hn] at hk
    by_cases e : k = j
    · rw [e, hself]
      exact hq
    · rw [hother k e, hhead.2 k e]
      exact h.queued k hk
  · rw [hn] at hk
    by_cases e : k = j
    · rw [e, hself]
      exact hc
    · rw [hother k e, htr k e]
      exact h.current k hk
  · rw [hn]
    by_cases e : k = j
    · rw [e]
      exact hj
    · exact h.transfer_lt k ((htr k e).mp ht)
  · rw [hn] at hk
    by_cases e : k = j
    · rw [e, hself] at hpc ⊢
      exact hbuf hpc
    · rw [hother k e] at hpc ⊢
      exact ho _ _ (h.owner k hk hpc) fun he => e (Owner.job.inj he)
  · rw [hload.1] at ht
    rw [hload.2] at hpc
    exact ho b _ (h.acquired t i p b ht hpc) nofun
  · rw [hn] at hk
    by_cases e : k = j
    · rw [e, hself]
      exact hok
    · rw [hother k e]
      exact h.ok k hk

/-- A job goes on in its place, and the buffers stay. -/
theorem JobsInv.setJob (h : JobsInv s) {x : Job} (hj : j < s.nJob) (hx : x.buf = (s.job j).buf)
    (hq : (s.job j).pc ≠ .queued ∧ x.pc ≠ .queued)
    (hc : x.pc.current = (s.job j).pc.current) (hd : (s.job j).pc ≠ .dropped) (hok : x.Ok) : JobsInv (s.setJob j x) := by
  refine h.one hj rfl rfl ⟨h.head_le, fun _ _ => Iff.rfl⟩ ?_ (fun _ _ => Iff.rfl) ?_ (fun _ _ e _ => e) (fun _ => ?_)
    ⟨rfl, rfl⟩ hok
  · exact iff_of_false hq.2 ((h.queued j hj).not.mp hq.1)
  · rw [hc]
    exact h.current j hj
  · rw [hx]
    exact h.owner j hj hd

/-- A job is dropped, and its buffer is free. -/
theorem JobsInv.dropped (h : JobsInv s) (hj : j < s.nJob) (hd : (s.job j).pc ≠ .dropped)
    (hjob : s'.job = Function.update s.job j { s.job j with pc := .dropped })
    (hn : s'.nJob = s.nJob) (hhead : s'.head ≤ s.nJob ∧ ∀ k, k ≠ j → (s'.head ≤ k ↔ s.head ≤ k)) (hlt : j < s'.head)
    (htr : ∀ k, k ≠ j → (s'.transfer = some k ↔ s.transfer = some k)) (hc : s'.transfer ≠ some j)
    (ho : s'.owner = Function.update s.owner (s.job j).buf .free) (hload : s'.loader = s.loader ∧ s'.task = s.task) :
    JobsInv s' := by
  refine h.one hj hjob hn hhead ?_ htr ?_ (fun b o e hne => ?_) (fun e => absurd rfl e) hload trivial
  · exact iff_of_false nofun (Nat.not_le_of_lt hlt)
  · exact iff_of_false nofun hc
  · rw [ho, Function.update_of_ne, e]
    rintro rfl
    exact hne (e.symm.trans (h.owner j hj hd))

theorem JobsInv.clearHolder (h : JobsInv s) : JobsInv s.clearHolder := by
  obtain ⟨hhead, hqueued, hcurrent, hlt, howner, hacq, hok⟩ := h
  constructor <;> simp only [Queues.clearHolder] <;> grind [Job.Ok, JobPc.current]

theorem JobsInv.dropJob (h : JobsInv s) (ht : s.transfer = some j) : JobsInv { s.dropJob j with transfer := none } := by
  have hj := h.transfer_lt j ht
  have hcur := (h.current j hj).mpr ht
  refine h.dropped hj (fun e => ?_) rfl rfl ⟨h.head_le, fun _ _ => Iff.rfl⟩ ?_ (fun k e => ?_) nofun rfl ⟨rfl, rfl⟩
  · rw [e] at hcur
    cases hcur
  · show j < s.head
    by_contra hle
    rw [(h.queued j hj).mpr (Nat.le_of_not_lt hle)] at hcur
    cases hcur
  · exact iff_of_false nofun fun e' => e (Option.some.inj (e'.symm.trans ht))

/-- The copies have ended, and those who waited for them are dropped or finish. -/
theorem JobsInv.synced (h : JobsInv s) (hj : j < s.nJob) (hpc : (s.job j).pc = .syncing) :
    JobsInv ((s.setJob j { s.job j with pc := .finishing true }).syncCopies.clearHolder) := by
  have hx := h.ok j hj
  obtain ⟨hhead, hqueued, hcurrent, hlt, howner, hacq, hok⟩ := h
  constructor <;> simp only [Queues.clearHolder, Queues.syncCopies, Queues.setJob] <;> grind [Job.Ok, JobPc.current]

theorem JobsInv.transferStep {l : TransferLabel} (h : JobsInv s) (ht : s.transfer = some j)
    (hs : transferStep C s j l = some s') :
    JobsInv s' := by
  have hj := h.transfer_lt j ht
  have hx := h.ok j hj
  unfold Job.Ok at hx
  have hcur := (h.current j hj).mpr ht
  have hidle : (s.job j).pc ≠ .queued ∧ (s.job j).pc ≠ .dropped := by
    constructor
    all_goals
      intro e
      rw [e] at hcur
      cases hcur
  -- the thread keeps its job
  have hgo : ∀ x : Job, x.buf = (s.job j).buf → x.pc ≠ .queued → x.pc.current = true → x.Ok → JobsInv (s.setJob j x) :=
      fun x hb hq hc hok =>
    h.setJob hj hb ⟨hidle.1, hq⟩ (hc.trans hcur.symm) hidle.2 hok
  cases l with
  | backendWait =>
    simp only [Mooncake.transferStep] at hs
    split at hs
    · next ok hpc hload =>
      obtain rfl := Option.some.inj hs
      rw [hpc] at hx
      cases ok with
      | true => exact hgo _ rfl nofun rfl ⟨hx, hload⟩
      | false => exact hgo _ rfl nofun rfl nofun
    · cases hs
  | backendTimeout =>
    simp only [Mooncake.transferStep] at hs
    split at hs
    · obtain rfl := Option.some.inj hs
      exact hgo _ rfl nofun rfl nofun
    · cases hs
  | copy ok left =>
    simp only [Mooncake.transferStep] at hs
    split at hs
    · next hpc =>
      rw [hpc] at hx
      split at hs
      · split at hs
        · next hlast =>
          obtain rfl := Option.some.inj hs
          exact hgo _ rfl nofun rfl ⟨rfl, hx.2, hlast⟩
        · obtain rfl := Option.some.inj hs
          refine h.one hj rfl rfl ⟨h.head_le, fun _ _ => Iff.rfl⟩ ?_ (fun k e => ?_) ?_ (fun _ _ e _ => e)
            (fun _ => h.owner j hj hidle.2) ⟨rfl, rfl⟩
            ⟨rfl, hx.2⟩
          · exact iff_of_false nofun ((h.queued j hj).not.mp hidle.1)
          · exact iff_of_false nofun fun e' => e (Option.some.inj (e'.symm.trans ht))
          · exact iff_of_false nofun nofun
      · obtain rfl := Option.some.inj hs
        exact hgo _ rfl nofun rfl nofun
    · cases hs
  | sync ok =>
    simp only [Mooncake.transferStep] at hs
    split at hs
    · next hpc =>
      split at hs
      · split at hs
        · obtain rfl := Option.some.inj hs
          exact h.synced hj hpc
        · cases hs
      · obtain rfl := Option.some.inj hs
        exact JobsInv.clearHolder (hgo _ rfl nofun rfl nofun)
    · cases hs
  | finish =>
    simp only [Mooncake.transferStep] at hs
    split at hs
    · next ok hpc =>
      obtain rfl := Option.some.inj hs
      have hmark : JobsInv (s.failUnless ok (s.job j).task) := h.congr rfl rfl rfl rfl (fun _ _ e => e) h.acquired
      split
      · have hdone : JobsInv ((s.failUnless ok (s.job j).task).clearHolder.done (s.job j).task) :=
          (hmark.clearHolder).congr rfl rfl rfl rfl (fun _ _ e => e) hmark.clearHolder.acquired
        exact hdone.dropJob ht
      · exact hmark.dropJob ht
    · cases hs

/-- The dump queue takes free buffers and gives its own back. -/
theorem JobsInv.dumperStep {l : DumperLabel} (h : JobsInv s) (hload : ∀ t', s.loader = some t' → t' ≠ t)
    (hs : dumperStep C s t l = some s') :
    JobsInv s' := by
  have hpc : ∀ pc t' i p b, s.loader = some t' → (Function.update s.task t { s.task t with pc } t').pc = .acquired i p b →
      s.owner b = .loader := by
    intro pc t' i p b ht' he
    rw [Function.update_of_ne (hload t' ht')] at he
    exact h.acquired t' i p b ht' he
  have hset : ∀ pc, JobsInv (s.setPc t pc) := fun pc => h.congr rfl rfl rfl rfl (fun _ _ e => e) (hpc pc)
  have hdrop : JobsInv (s.dumpFails t) := by
    refine h.congr rfl rfl rfl rfl (fun b j hj => ?_) fun t' i p b ht' he => ?_
    · show (if s.owner b = .ctx t then _ else s.owner b) = _
      rw [hj]
      rfl
    · show (if s.owner b = .ctx t then _ else s.owner b) = _
      rw [hpc _ t' i p b ht' he]
      rfl
  cases l <;> simp only [Mooncake.dumperStep] at hs
  case check => split at hs <;> grind
  case event => split at hs <;> grind
  case prepared => grind
  case put =>
    split at hs
    · split at hs
      · obtain rfl := Option.some.inj hs
        exact hdrop
      · split at hs
        · obtain rfl := Option.some.inj hs
          exact hset _
        · obtain rfl := Option.some.inj hs
          exact hset _
    · cases hs
  case acquire b =>
    split at hs
    · split at hs
      · split at hs
        · split at hs
          · next b hb =>
            obtain rfl := Option.some.inj hs
            have hne : ∀ b' o, o ≠ .free → s.owner b' = o → (s.setOwner b (.ctx t)).owner b' = o := by
              intro b' o ho e
              show Function.update s.owner b _ b' = o
              rw [Function.update_of_ne, e]
              intro e
              subst e
              exact ho (e.symm.trans hb.2)
            refine h.congr rfl rfl rfl rfl (fun b' j e => hne b' _ nofun e) fun t' i p b' ht' he => ?_
            exact hne b' _ nofun (hpc _ t' i p b' ht' he)
          · cases hs
        · obtain rfl := Option.some.inj hs
          exact hset _
      · cases hs
    · cases hs
  case gather ok left =>
    split at hs
    · split at hs
      · obtain rfl := Option.some.inj hs
        exact h.congr rfl rfl rfl rfl (fun _ _ e => e) (hpc _)
      · obtain rfl := Option.some.inj hs
        exact hdrop.congr rfl rfl rfl rfl (fun _ _ e => e) hdrop.acquired
    · cases hs
  case sync ok =>
    split at hs
    · split at hs
      · obtain rfl := Option.some.inj hs
        exact h.congr rfl rfl rfl rfl (fun _ _ e => e) (hpc _)
      · obtain rfl := Option.some.inj hs
        exact hdrop
    · cases hs
  case dump ok =>
    split at hs
    · split at hs
      · obtain rfl := Option.some.inj hs
        exact h.congr rfl rfl rfl rfl (fun _ _ e => e) (hpc _)
      · obtain rfl := Option.some.inj hs
        exact hdrop
    · cases hs
  case leave =>
    split at hs
    · obtain rfl := Option.some.inj hs
      exact (hset .left).congr rfl rfl rfl rfl (fun _ _ e => e) (hset .left).acquired
    · cases hs

end Jobs

/-- The dispatchers' tasks, and the jobs. -/
structure QueuesInv (s : Queues Byte) : Prop where
  dispatch : DispatchInv s
  jobs : JobsInv s

section Frames

variable {t j : Nat}

theorem QueuesInv.loader_frame {l : LoaderLabel} (h : QueuesInv s) (ht : s.loader = some t) (hs : loaderStep C s t l = some s') :
    LoaderFrame t s s' := Mooncake.loader_frame ht (fun i p b => h.jobs.acquired t i p b ht) hs

/-- The transfer thread's job has its buffer. -/
theorem JobsInv.transfer_owner (h : JobsInv s) (ht : s.transfer = some j) : s.owner (s.job j).buf = .job j := by
  have hj := h.transfer_lt j ht
  have hpc := (h.current j hj).mpr ht
  refine h.owner j hj fun e => ?_
  rw [e] at hpc
  cases hpc

theorem QueuesInv.transfer_frame {l : TransferLabel} (h : QueuesInv s) (ht : s.transfer = some j)
    (hs : transferStep C s j l = some s') :
    TransferFrame j s s' := Mooncake.transfer_frame (h.jobs.transfer_owner ht) hs

end Frames

/-- The dispatchers keep their tasks, or have taken others. -/
theorem DispatchInv.moves (h : DispatchInv s) (hn : s.wrapper.nTask ≤ s'.wrapper.nTask)
    (hl : ∀ t, s'.loader = some t → s.loader = some t ∧ s'.task t = s.task t ∨
      t < s'.wrapper.nTask ∧ (s'.task t).type = .load ∧ (s'.task t).pc.loads = true)
    (hd : ∀ t, s'.dumper = some t → s.dumper = some t ∧ s'.task t = s.task t ∨
      t < s'.wrapper.nTask ∧ (s'.task t).type = .dump ∧ (s'.task t).pc.dumps = true) : DispatchInv s' := by
  refine ⟨fun t ht => ?_, fun t ht => ?_⟩
  · rcases hl t ht with ⟨ht, e⟩ | hnew
    · rw [e]
      exact ⟨lt_of_lt_of_le (h.loader t ht).1 hn, (h.loader t ht).2⟩
    · exact hnew
  · rcases hd t ht with ⟨ht, e⟩ | hnew
    · rw [e]
      exact ⟨lt_of_lt_of_le (h.dumper t ht).1 hn, (h.dumper t ht).2⟩
    · exact hnew

theorem step_dispatchInv (h : QueuesInv s) (hs : queueStep C s l = some s') : DispatchInv s' := by
  have hload := h.dispatch.loader
  have hdump := h.dispatch.dumper
  have hne : ∀ t t', s.loader = some t → s.dumper = some t' → t ≠ t' := fun _ _ ht ht' => h.dispatch.ne ht ht'
  cases l with
  | wait l =>
    obtain ⟨w, hw, rfl⟩ := Option.map_eq_some_iff.mp hs
    have hk := (waitStep_keeps hw).nTask
    exact ⟨fun t ht => hk.symm ▸ hload t ht, fun t ht => hk.symm ▸ hdump t ht⟩
  | loader l =>
    simp only [queueStep] at hs
    split at hs
    · next t ht =>
      have hf := h.loader_frame ht hs
      refine ⟨fun t' ht' => ?_, fun t' ht' => ?_⟩
      · rcases hf.pc with ⟨he, hpc⟩ | hn
        · obtain rfl : t = t' := Option.some.inj (he.symm.trans ht')
          rw [hf.wrapper.1, hf.type.1]
          exact ⟨(hload t ht).1, (hload t ht).2.1, hpc⟩
        · rw [hn] at ht'
          cases ht'
      · rw [hf.rest.2.2.1] at ht'
        rw [hf.wrapper.1, hf.task t' (hne t t' ht ht').symm]
        exact hdump t' ht'
    · cases hs
  | dumper l =>
    simp only [queueStep] at hs
    split at hs
    · next t ht =>
      have hf := dumper_frame ht hs
      refine ⟨fun t' ht' => ?_, fun t' ht' => ?_⟩
      · rw [hf.rest.1] at ht'
        rw [hf.wrapper.1, hf.task t' (hne t' t ht' ht)]
        exact hload t' ht'
      · rcases hf.pc with ⟨he, hpc⟩ | hn
        · obtain rfl : t = t' := Option.some.inj (he.symm.trans ht')
          rw [hf.wrapper.1, hf.type.1]
          exact ⟨(hdump t ht).1, (hdump t ht).2.1, hpc⟩
        · rw [hn] at ht'
          cases ht'
    · cases hs
  | transfer l =>
    simp only [queueStep] at hs
    split at hs
    · next j hj =>
      have hf := h.transfer_frame hj hs
      obtain ⟨htask, hl, hd, -⟩ := hf.rest
      refine ⟨?_, ?_⟩
      · rw [htask, hl, hf.wrapper.1]
        exact hload
      · rw [htask, hd, hf.wrapper.1]
        exact hdump
    · cases hs
  | submit type n full =>
    obtain rfl := Option.some.inj hs
    have hold : ∀ x t, t < s.wrapper.nTask → Function.update s.task s.wrapper.nTask x t = s.task t :=
        fun x t e => Function.update_of_ne e.ne ..
    split
    · refine h.dispatch.moves (by simp [Queues.setPc, Queues.done, Queues.failUnless])
        (fun t ht => .inl ⟨ht, ?_⟩) fun t ht => .inl ⟨ht, ?_⟩
      · exact (Function.update_of_ne (hload t ht).1.ne ..).trans (hold _ t (hload t ht).1)
      · exact (Function.update_of_ne (hdump t ht).1.ne ..).trans (hold _ t (hdump t ht).1)
    · refine h.dispatch.moves (Nat.le_succ _) (fun t ht => .inl ⟨ht, ?_⟩) fun t ht => .inl ⟨ht, ?_⟩
      · exact hold _ t (hload t ht).1
      · exact hold _ t (hdump t ht).1
  | takeLoad t =>
    simp only [queueStep] at hs
    split at hs
    · next hc =>
      have hother : ∀ x t', s.dumper = some t' → Function.update s.task t x t' = s.task t' := by
        refine fun x t' ht' => Function.update_of_ne (fun e => ?_) ..
        have htype := (hdump t' ht').2.1
        rw [e, hc.2.1] at htype
        cases htype
      split at hs
      · obtain rfl := Option.some.inj hs
        refine h.dispatch.moves le_rfl (fun t' ht' => ?_) fun t' ht' => .inl ⟨ht', hother _ t' ht'⟩
        have ht' : s.loader = some t' := ht'
        rw [hc.2.2.2] at ht'
        cases ht'
      · obtain rfl := Option.some.inj hs
        refine h.dispatch.moves le_rfl (fun t' ht' => .inr ?_) fun t' ht' => .inl ⟨ht', hother _ t' ht'⟩
        obtain rfl := Option.some.inj ht'
        simp only [Queues.setPc, Function.update_self]
        exact ⟨hc.1, hc.2.1, rfl⟩
    · cases hs
  | takeDump t =>
    simp only [queueStep] at hs
    split at hs
    · next hc =>
      obtain rfl := Option.some.inj hs
      refine h.dispatch.moves le_rfl (fun t' ht' => .inl ⟨ht', Function.update_of_ne (fun e => ?_) ..⟩) fun t' ht' => .inr ?_
      · have htype := (hload t' ht').2.1
        rw [e, hc.2.1] at htype
        cases htype
      · obtain rfl := Option.some.inj ht'
        simp only [Queues.setPc, Function.update_self]
        refine ⟨hc.1, hc.2.1, ?_⟩
        split <;> rfl
    · cases hs
  | take =>
    simp only [queueStep] at hs
    split at hs
    · split at hs
      · obtain rfl := Option.some.inj hs
        split <;> exact h.dispatch.moves le_rfl (fun t ht => .inl ⟨ht, rfl⟩) fun t ht => .inl ⟨ht, rfl⟩
      · obtain rfl := Option.some.inj hs
        exact h.dispatch.moves le_rfl (fun t ht => .inl ⟨ht, rfl⟩) fun t ht => .inl ⟨ht, rfl⟩
    · cases hs
  | _ =>
    simp only [queueStep] at hs
    split at hs
    · obtain rfl := Option.some.inj hs
      exact h.dispatch.moves le_rfl (fun t ht => .inl ⟨ht, rfl⟩) fun t ht => .inl ⟨ht, rfl⟩
    · cases hs

theorem step_jobsInv (h : QueuesInv s) (hs : queueStep C s l = some s') : JobsInv s' := by
  have hj := h.jobs
  have hload := h.dispatch.loader
  cases l with
  | loader l =>
    simp only [queueStep] at hs
    split at hs
    · next t ht => exact hj.loaderStep ht hs
    · cases hs
  | transfer l =>
    simp only [queueStep] at hs
    split at hs
    · next j ht => exact hj.transferStep ht hs
    · cases hs
  | dumper l =>
    simp only [queueStep] at hs
    split at hs
    · next t ht => exact hj.dumperStep (fun t' ht' => h.dispatch.ne ht' ht) hs
    · cases hs
  | submit type n full =>
    obtain rfl := Option.some.inj hs
    have hold : ∀ t, s.loader = some t → t ≠ s.wrapper.nTask := fun t ht => (hload t ht).1.ne
    split
    all_goals
      refine hj.congr rfl rfl rfl rfl (fun _ _ e => e) fun t i p b ht hpc => hj.acquired t i p b ht ?_
      simp only [Queues.setPc, Queues.done, Queues.failUnless, Function.update_of_ne (hold t ht)] at hpc
      exact hpc
  | wait l =>
    obtain ⟨w, -, rfl⟩ := Option.map_eq_some_iff.mp hs
    exact hj.congr rfl rfl rfl rfl (fun _ _ e => e) hj.acquired
  | takeLoad t =>
    simp only [queueStep] at hs
    split at hs
    · next hc =>
      split at hs
      · obtain rfl := Option.some.inj hs
        refine hj.congr rfl rfl rfl rfl (fun _ _ e => e) fun t' i p b ht hpc => ?_
        have ht : s.loader = some t' := ht
        rw [hc.2.2.2] at ht
        cases ht
      · obtain rfl := Option.some.inj hs
        refine hj.congr rfl rfl rfl rfl (fun _ _ e => e) fun t' i p b ht hpc => ?_
        simp only [Queues.setPc] at ht hpc
        grind
    · cases hs
  | takeDump t =>
    simp only [queueStep] at hs
    split at hs
    · next hc =>
      obtain rfl := Option.some.inj hs
      refine hj.congr rfl rfl rfl rfl (fun _ _ e => e) fun t' i p b ht hpc => ?_
      have hne : t' ≠ t := by
        intro e
        subst e
        have htype := (hload t' ht).2.1
        rw [hc.2.1] at htype
        cases htype
      refine hj.acquired t' i p b ht ?_
      rw [← hpc]
      exact congrArg QueueTask.pc (Function.update_of_ne hne ..).symm
    · cases hs
  | dumped t | dumpTimeout t =>
    simp only [queueStep] at hs
    split at hs
    · obtain rfl := Option.some.inj hs
      refine hj.congr rfl rfl rfl rfl (fun b j e => ?_) fun t' i p b ht hpc => ?_
      · show (if s.owner b = .ctx t then _ else s.owner b) = _
        rw [e]
        rfl
      · show (if s.owner b = .ctx t then _ else s.owner b) = _
        rw [hj.acquired t' i p b ht hpc]
        rfl
    · cases hs
  | take =>
    simp only [queueStep] at hs
    split at hs
    · next hc =>
      have hpc := (hj.queued s.head hc.1).mpr le_rfl
      have hne : (s.job s.head).pc ≠ .dropped := by
        rw [hpc]
        nofun
      have hcopy : (s.job s.head).copy = .none := by
        have hok := hj.ok s.head hc.1
        rw [Job.Ok, hpc] at hok
        exact hok
      -- the job at the head is the only one that leaves the queue
      have hhead : s.head + 1 ≤ s.nJob ∧ ∀ k, k ≠ s.head → (s.head + 1 ≤ k ↔ s.head ≤ k) := ⟨hc.1, fun k e => by omega⟩
      split at hs
      · obtain rfl := Option.some.inj hs
        have hidle : s.transfer ≠ some s.head := by
          rw [hc.2]
          nofun
        split
        · exact hj.dropped hc.1 hne rfl rfl hhead (Nat.lt_succ_self _) (fun _ _ => Iff.rfl) hidle rfl ⟨rfl, rfl⟩
        · exact hj.dropped hc.1 hne rfl rfl hhead (Nat.lt_succ_self _) (fun _ _ => Iff.rfl) hidle rfl ⟨rfl, rfl⟩
      · obtain rfl := Option.some.inj hs
        refine hj.one hc.1 rfl rfl hhead ?_ (fun k e => ?_) (iff_of_true rfl rfl) (fun _ _ e _ => e)
          (fun _ => hj.owner _ hc.1 hne) ⟨rfl, rfl⟩ hcopy
        · exact iff_of_false nofun (Nat.not_succ_le_self _)
        · rw [hc.2]
          exact iff_of_false (fun e' => e (Option.some.inj e').symm) nofun
    · cases hs
  | endLoad j ok =>
    simp only [queueStep] at hs
    split at hs
    · next hc =>
      obtain rfl := Option.some.inj hs
      refine hj.one hc.1 rfl rfl ⟨hj.head_le, fun _ _ => Iff.rfl⟩ (hj.queued j hc.1) (fun _ _ => Iff.rfl) (hj.current j hc.1)
        (fun _ _ e _ => e)
        (hj.owner j hc.1) ⟨rfl, rfl⟩ ?_
      -- no job whose load is running has been seen to be loaded
      have hx := hj.ok j hc.1
      have hload : ∀ {ok}, (s.job j).load ≠ .ended ok := by
        rw [hc.2.1]
        nofun
      unfold Job.Ok at hx ⊢
      dsimp only
      cases hpc : (s.job j).pc <;> rw [hpc] at hx
      case queued => exact hx
      case waiting => exact hx
      case dropped => trivial
      case finishing => exact fun e => absurd (hx e).2.1 hload
      case syncing => exact absurd hx.2.1 hload
      all_goals exact absurd hx.2 hload
    · cases hs
  | _ =>
    simp only [queueStep] at hs
    split at hs
    · obtain rfl := Option.some.inj hs
      exact hj.congr rfl rfl rfl rfl (fun _ _ e => e) hj.acquired
    · cases hs

theorem init_queuesInv (h : s.IsInit) : QueuesInv s := by
  have hjob : ∀ j, ¬j < s.nJob := by
    rw [h.nJob]
    exact fun j => Nat.not_lt_zero j
  refine ⟨⟨fun t ht => ?_, fun t ht => ?_⟩, ⟨?_, fun j hj => absurd hj (hjob j), fun j hj => absurd hj (hjob j), fun j ht => ?_,
    fun j hj => absurd hj (hjob j), fun t i p b ht => ?_, fun j hj => absurd hj (hjob j)⟩⟩
  · rw [h.loader] at ht
    cases ht
  · rw [h.dumper] at ht
    cases ht
  · rw [h.head]
    exact Nat.zero_le _
  · rw [h.transfer] at ht
    cases ht
  · rw [h.loader] at ht
    cases ht

theorem step_queuesInv (h : QueuesInv s) (hs : queueStep C s l = some s') : QueuesInv s' :=
    ⟨step_dispatchInv h hs, step_jobsInv h hs⟩

/-! ## The tasks -/

/-- How many of the first shards were missed. -/
def QueueTask.misses (x : QueueTask) (i : Nat) : Nat := Nat.count (fun k => x.hit k = false) i

theorem QueueTask.misses_succ (x : QueueTask) {i : Nat} (hi : x.hit i = false) : x.misses (i + 1) = x.misses i + 1 := by
  unfold QueueTask.misses
  rw [Nat.count_succ, if_pos hi]

theorem QueueTask.misses_lt (x : QueueTask) {i : Nat} (hlt : i < x.nShard) (hi : x.hit i = false) :
    x.misses i < x.misses x.nShard := by
  have hmono : x.misses (i + 1) ≤ x.misses x.nShard := Nat.count_monotone _ (Nat.succ_le_of_lt hlt)
  have hsucc := x.misses_succ hi
  omega

structure TasksInv (s : Queues Byte) : Prop where
  job : ∀ j, j < s.nJob → (s.job j).task < s.wrapper.nTask ∧ (s.task (s.job j).task).type = .load ∧
    (s.task (s.job j).task).pc ≠ .queued ∧ (s.task (s.job j).task).pc ≠ .getting
  shard : ∀ j, j < s.nJob → (s.job j).shard < (s.task (s.job j).task).nShard ∧ (s.task (s.job j).task).hit (s.job j).shard = false
  /-- The shards missed so far have been pushed, and with the last of them the waiter. -/
  pushed : ∀ t i p, s.loader = some t → ((s.task t).pc = .submitting i p ∨ ∃ b, (s.task t).pc = .acquired i p b) →
    p = (s.task t).misses i ∧ ∀ j, j < s.nJob → (s.job j).task = t → (s.job j).last = true → p = s.missCount t
  acquired : ∀ t i p b, s.loader = some t → (s.task t).pc = .acquired i p b → i < (s.task t).nShard ∧ (s.task t).hit i = false
  /-- The job with the waiter is the last of its task. -/
  last : ∀ j j', j < j' → j' < s.nJob → (s.job j).last = true → (s.job j').task ≠ (s.job j).task
  up_queued : ∀ t, t < s.wrapper.nTask → (s.task t).pc = .queued → s.wrapper.counter t ≠ 0
  up_getting : ∀ t, s.loader = some t → (s.task t).pc = .getting → s.wrapper.counter t ≠ 0
  up_pushing : ∀ t i p, s.loader = some t → ((s.task t).pc = .submitting i p ∨ ∃ b, (s.task t).pc = .acquired i p b) →
    p < s.missCount t → s.wrapper.counter t ≠ 0
  returned : ∀ t, s.wrapper.wait t = .returned → s.wrapper.counter t = 0
  called : ∀ t, s.wrapper.wait t ≠ .notCalled → t < s.wrapper.nTask

/-- A job that has the waiter counts its task down; nothing of the task is to come. -/
theorem TasksInv.doneLast (h : TasksInv s) {j : Nat} (hj : j < s.nJob) (hlast : (s.job j).last = true) {w : TaskWrapper}
    (hn : w.nTask = s.wrapper.nTask) (hw : w.wait = s.wrapper.wait)
    (hc : ∀ t, w.counter t = s.wrapper.counter t ∨ t = (s.job j).task ∧ w.counter t = s.wrapper.counter t - 1) :
    TasksInv { s with wrapper := w } := by
  obtain ⟨-, -, hq, hg⟩ := h.job j hj
  refine ⟨hn.symm ▸ h.job, h.shard, h.pushed, h.acquired, h.last, fun t ht hpc => ?_, fun t ht hpc => ?_,
    fun t i p ht hpc hlt => ?_,
    fun t ht => ?_, fun t ht => ?_⟩
  · rcases hc t with e | ⟨rfl, -⟩
    · dsimp only
      rw [e]
      exact h.up_queued t (hn ▸ ht) hpc
    · exact absurd hpc hq
  · rcases hc t with e | ⟨rfl, -⟩
    · dsimp only
      rw [e]
      exact h.up_getting t ht hpc
    · exact absurd hpc hg
  · rcases hc t with e | ⟨rfl, -⟩
    · dsimp only
      rw [e]
      exact h.up_pushing t i p ht hpc hlt
    · have hp := (h.pushed _ i p ht hpc).2 j hj rfl hlast
      exact absurd hp hlt.ne
  · have hz := h.returned t (hw ▸ ht)
    rcases hc t with e | ⟨-, e⟩
    · exact e.trans hz
    · dsimp only
      omega
  · dsimp only
    rw [hn]
    exact h.called t (hw ▸ ht)

/-- The jobs' shards, the tasks and the latches are as before. -/
theorem TasksInv.congr (h : TasksInv s) (htask : s'.task = s.task) (hl : s'.loader = s.loader) (hn : s'.nJob = s.nJob)
    (hjob : ∀ j, (s'.job j).task = (s.job j).task ∧ (s'.job j).shard = (s.job j).shard ∧ (s'.job j).last = (s.job j).last)
    (hw : s'.wrapper.nTask = s.wrapper.nTask ∧ s'.wrapper.wait = s.wrapper.wait ∧ s'.wrapper.counter = s.wrapper.counter) :
    TasksInv s' := by
  obtain ⟨hn', hw', hc⟩ := hw
  have hmiss : s'.missCount = s.missCount := by
    funext t
    unfold Queues.missCount
    rw [htask]
  obtain ⟨h1, h2, h3, h4, h5, h6, h7, h8, h9, h10⟩ := h
  constructor <;> simp only [htask, hl, hn, hn', hw', hc, hmiss, hjob] <;> assumption

section Tasks

variable {t j n : Nat} {x : QueueTask} {w : TaskWrapper} {d : Option Nat} {type : TaskType} {full : Bool}

/-- The load dispatcher's task goes on. -/
theorem TasksInv.retask (h : TasksInv s) (ht : s.loader = some t)
    (hx : x.type = (s.task t).type ∧ x.nShard = (s.task t).nShard) (hpc : x.pc ≠ .queued ∧ x.pc ≠ .getting)
    (hhit : x.hit = (s.task t).hit ∨ ∀ j, j < s.nJob → (s.job j).task ≠ t) (hlo : d = some t ∨ d = none)
    (hw : w.nTask = s.wrapper.nTask ∧ w.wait = s.wrapper.wait) (hc : ∀ t', t' ≠ t → w.counter t' = s.wrapper.counter t')
    (hct : w.counter t ≤ s.wrapper.counter t)
    (hpush : d = some t → ∀ i p, (x.pc = .submitting i p ∨ ∃ b, x.pc = .acquired i p b) → p = x.misses i ∧
      (∀ j, j < s.nJob → (s.job j).task = t → (s.job j).last = true → p = x.misses x.nShard) ∧
      (p < x.misses x.nShard → w.counter t ≠ 0))
    (hacq : d = some t → ∀ i p b, x.pc = .acquired i p b → i < x.nShard ∧ x.hit i = false) :
    TasksInv { s with wrapper := w, task := Function.update s.task t x, loader := d } := by
  have hself : Function.update s.task t x t = x := Function.update_self ..
  have hold : ∀ t', t' ≠ t → Function.update s.task t x t' = s.task t' := fun t' e => Function.update_of_ne e ..
  have hcur : ∀ t', d = some t' → t' = t ∧ d = some t := by
    intro t' e
    rcases hlo with hlo | hlo
    · exact ⟨Option.some.inj (e.symm.trans hlo), hlo⟩
    · rw [hlo] at e
      cases e
  refine ⟨fun j hj => ?_, fun j hj => ?_, fun t' i p ht' hp => ?_, fun t' i p b ht' hp => ?_, h.last, fun t' ht' hq => ?_,
    fun t' ht' hq => ?_,
    fun t' i p ht' hp hlt => ?_, fun t' hr => ?_, fun t' hr => ?_⟩
  · obtain ⟨hlt, htype, hq, hg⟩ := h.job j hj
    dsimp only
    rw [hw.1]
    by_cases e : (s.job j).task = t
    · rw [e, hself, hx.1]
      rw [e] at hlt htype
      exact ⟨hlt, htype, hpc⟩
    · rw [hold _ e]
      exact ⟨hlt, htype, hq, hg⟩
  · dsimp only
    by_cases e : (s.job j).task = t
    · have hs := h.shard j hj
      rw [e] at hs
      rw [e, hself, hx.2, hhit.resolve_right fun hno => hno j hj e]
      exact hs
    · rw [hold _ e]
      exact h.shard j hj
  · obtain ⟨rfl, hd'⟩ := hcur t' ht'
    have hm : Queues.missCount { s with wrapper := w, task := Function.update s.task t' x, loader := d } t' = x.misses x.nShard :=
      congrArg (fun y : QueueTask => y.misses y.nShard) hself
    dsimp only at hp ⊢
    rw [hself] at hp
    rw [hself, hm]
    exact ⟨(hpush hd' i p hp).1, (hpush hd' i p hp).2.1⟩
  · obtain ⟨rfl, hd'⟩ := hcur t' ht'
    dsimp only at hp ⊢
    rw [hself] at hp ⊢
    exact hacq hd' i p b hp
  · dsimp only at hq ⊢
    by_cases e : t' = t
    · rw [e, hself] at hq
      exact absurd hq hpc.1
    · rw [hold _ e] at hq
      rw [hc t' e]
      exact h.up_queued t' (hw.1 ▸ ht') hq
  · obtain ⟨rfl, -⟩ := hcur t' ht'
    dsimp only at hq
    rw [hself] at hq
    exact absurd hq hpc.2
  · obtain ⟨rfl, hd'⟩ := hcur t' ht'
    have hm : Queues.missCount { s with wrapper := w, task := Function.update s.task t' x, loader := d } t' = x.misses x.nShard :=
      congrArg (fun y : QueueTask => y.misses y.nShard) hself
    dsimp only at hp
    rw [hself] at hp
    rw [hm] at hlt
    exact (hpush hd' i p hp).2.2 hlt
  · have hz := h.returned t' (hw.2 ▸ hr)
    by_cases e : t' = t
    · subst e
      dsimp only
      omega
    · dsimp only
      rw [hc t' e]
      exact hz
  · dsimp only at hr ⊢
    rw [hw.1]
    exact h.called t' (hw.2 ▸ hr)

/-- A load leaves the dispatcher before the transfer thread has all of it. -/
theorem TasksInv.endTask (h : TasksInv s) (ht : s.loader = some t) (ok : Bool) : TasksInv (s.endTask ok t) := by
  refine h.retask (x := { s.task t with pc := .left }) (w := (s.wrapper.failIf (!ok) t).done t) (d := none) ht ⟨rfl, rfl⟩
    ⟨nofun, nofun⟩
    (.inl rfl) (.inr rfl) ⟨by simp, by simp⟩ (fun t' e => by simp [e]) (by simp) nofun nofun

/-- A shard is pushed. -/
theorem TasksInv.push (h : TasksInv s) (hd : DispatchInv s) (ht : s.loader = some t) {i p b : Nat}
    (hpc : (s.task t).pc = .acquired i p b)
    {o : Nat → Owner} {got moved : Nat → Nat → Bool} :
    TasksInv { s.setPc t (.submitting (i + 1) (p + 1)) with
      owner := o
      nJob := s.nJob + 1
      job := Function.update s.job s.nJob ⟨t, i, b, decide (p + 1 = s.missCount t), .queued, .running, .none⟩
      got
      moved } := by
  obtain ⟨hp, hlast⟩ := h.pushed t i p ht (.inr ⟨b, hpc⟩)
  have hup := h.up_pushing t i p ht (.inr ⟨b, hpc⟩)
  obtain ⟨hlt, hmiss⟩ := h.acquired t i p b ht hpc
  have hsucc := (s.task t).misses_succ hmiss
  have hless : p < s.missCount t := hp ▸ (s.task t).misses_lt hlt hmiss
  -- the job with the waiter would have been the last
  have hnone : ∀ j, j < s.nJob → (s.job j).task = t → (s.job j).last ≠ true := fun j hj e hl => hless.ne (hlast j hj e hl)
  have hload := hd.loader t ht
  have hself : ∀ pc, Function.update s.task t { s.task t with pc } t = { s.task t with pc } := fun pc => Function.update_self ..
  have hold : ∀ pc t', t' ≠ t → Function.update s.task t { s.task t with pc } t' = s.task t' :=
      fun pc t' e => Function.update_of_ne e ..
  have hfix : ∀ pc t', (Function.update s.task t { s.task t with pc } t').type = (s.task t').type ∧
      (Function.update s.task t { s.task t with pc } t').nShard = (s.task t').nShard ∧
      (Function.update s.task t { s.task t with pc } t').hit = (s.task t').hit := by
    intro pc t'
    by_cases e : t' = t
    · rw [e, hself]
      exact ⟨rfl, rfl, rfl⟩
    · rw [hold pc t' e]
      exact ⟨rfl, rfl, rfl⟩
  have hmc : ∀ pc t', (s.setPc t pc).missCount t' = s.missCount t' := by
    intro pc t'
    unfold Queues.missCount Queues.setPc
    dsimp only
    rw [(hfix pc t').2.1, (hfix pc t').2.2]
  let y : Job := ⟨t, i, b, decide (p + 1 = s.missCount t), .queued, .running, .none⟩
  have hcases : ∀ j, j < s.nJob + 1 → j < s.nJob ∧ Function.update s.job s.nJob y j = s.job j ∨ j = s.nJob ∧
      Function.update s.job s.nJob y j = y := by
    intro j hj
    rcases Nat.lt_succ_iff_lt_or_eq.mp hj with hj | rfl
    · exact .inl ⟨hj, Function.update_of_ne (by omega) ..⟩
    · exact .inr ⟨rfl, Function.update_self ..⟩
  refine ⟨fun j hj => ?_, fun j hj => ?_, fun t' i' p' ht' hpc' => ?_, fun t' i' p' b' ht' hpc' => ?_, fun j j' hlt' hj' hl => ?_,
    fun t' ht' hq => ?_, fun t' ht' hq => ?_, fun t' i' p' ht' hpc' hlt' => ?_, h.returned, h.called⟩
  · show (Function.update s.job s.nJob y j).task < _ ∧
        (Function.update s.task t _ (Function.update s.job s.nJob y j).task).type = _ ∧
      (Function.update s.task t _ (Function.update s.job s.nJob y j).task).pc ≠ _ ∧
      (Function.update s.task t _ (Function.update s.job s.nJob y j).task).pc ≠ _
    rw [(hfix _ _).1]
    rcases hcases j hj with ⟨hj, e⟩ | ⟨-, e⟩
    · rw [e]
      obtain ⟨h1, h2, h3, h4⟩ := h.job j hj
      refine ⟨h1, h2, ?_⟩
      by_cases et : (s.job j).task = t
      · rw [et, hself]
        exact ⟨nofun, nofun⟩
      · rw [hold _ _ et]
        exact ⟨h3, h4⟩
    · rw [e]
      refine ⟨hload.1, hload.2.1, ?_⟩
      rw [hself]
      exact ⟨nofun, nofun⟩
  · show (Function.update s.job s.nJob y j).shard < (Function.update s.task t _ (Function.update s.job s.nJob y j).task).nShard ∧
      (Function.update s.task t _ (Function.update s.job s.nJob y j).task).hit (Function.update s.job s.nJob y j).shard = false
    rw [(hfix _ _).2.1, (hfix _ _).2.2]
    rcases hcases j hj with ⟨hj, e⟩ | ⟨-, e⟩
    · rw [e]
      exact h.shard j hj
    · rw [e]
      exact ⟨hlt, hmiss⟩
  · obtain rfl : t = t' := Option.some.inj (ht.symm.trans ht')
    have hpc' : (Function.update s.task t { s.task t with pc := .submitting (i + 1) (p + 1) } t).pc = .submitting i' p' ∨
        ∃ b, (Function.update s.task t { s.task t with pc := .submitting (i + 1) (p + 1) } t).pc = .acquired i' p' b := hpc'
    rw [hself] at hpc'
    obtain ⟨rfl, rfl⟩ : i + 1 = i' ∧ p + 1 = p' := by simpa using hpc'
    refine ⟨?_, fun j hj e hl => ?_⟩
    · show p + 1 = (Function.update s.task t _ t).misses (i + 1)
      rw [hself]
      show p + 1 = (s.task t).misses (i + 1)
      omega
    · show p + 1 = (s.setPc t _).missCount t
      rw [hmc]
      dsimp only at e hl
      rcases hcases j hj with ⟨hj, e'⟩ | ⟨-, e'⟩
      · rw [e'] at e hl
        exact absurd hl (hnone j hj e)
      · rw [e'] at hl
        exact of_decide_eq_true hl
  · obtain rfl : t = t' := Option.some.inj (ht.symm.trans ht')
    have hpc' : (Function.update s.task t { s.task t with pc := .submitting (i + 1) (p + 1) } t).pc = .acquired i' p' b' := hpc'
    rw [hself] at hpc'
    cases hpc'
  · have hj : j < s.nJob := by
      dsimp only at hj'
      omega
    dsimp only at hl ⊢
    rcases hcases j (by omega) with ⟨-, e⟩ | ⟨e, -⟩
    · rw [e] at hl ⊢
      rcases hcases j' hj' with ⟨hj', e'⟩ | ⟨-, e'⟩
      · rw [e']
        exact h.last j j' hlt' hj' hl
      · rw [e']
        exact fun et => hnone j hj et.symm hl
    · omega
  · by_cases e : t' = t
    · subst e
      have hq : (Function.update s.task t' { s.task t' with pc := .submitting (i + 1) (p + 1) } t').pc = .queued := hq
      rw [hself] at hq
      cases hq
    · have hq : (Function.update s.task t { s.task t with pc := .submitting (i + 1) (p + 1) } t').pc = .queued := hq
      rw [hold _ _ e] at hq
      exact h.up_queued t' ht' hq
  · obtain rfl : t = t' := Option.some.inj (ht.symm.trans ht')
    have hq : (Function.update s.task t { s.task t with pc := .submitting (i + 1) (p + 1) } t).pc = .getting := hq
    rw [hself] at hq
    cases hq
  · obtain rfl : t = t' := Option.some.inj (ht.symm.trans ht')
    exact hup hless

theorem TasksInv.loaderStep {l : LoaderLabel} (h : TasksInv s) (hd : DispatchInv s) (ht : s.loader = some t)
    (hs : loaderStep C s t l = some s') :
    TasksInv s' := by
  have hw : s.wrapper.nTask = s.wrapper.nTask ∧ s.wrapper.wait = s.wrapper.wait := ⟨rfl, rfl⟩
  cases l with
  | get results =>
    simp only [Mooncake.loaderStep] at hs
    split at hs
    · next hpc =>
      split at hs
      · obtain rfl := Option.some.inj hs
        exact h.endTask ht false
      · next hit =>
        -- no shard of the task has been pushed, whatever was hit
        have hjob : ∀ j, j < s.nJob → (s.job j).task ≠ t := by
          intro j hj e
          subst e
          exact (h.job j hj).2.2.2 hpc
        have hup := h.up_getting t ht hpc
        split at hs
        · obtain rfl := Option.some.inj hs
          have hkeep := h.retask (x := { s.task t with hit, pc := .left }) (w := (s.wrapper.failIf false t).done t)
              (d := none) ht ⟨rfl, rfl⟩
            ⟨nofun, nofun⟩ (.inr hjob) (.inr rfl) ⟨by simp, by simp⟩ (fun t' e => by simp [e]) (by simp) nofun nofun
          refine hkeep.congr ?_ rfl rfl (fun _ => ⟨rfl, rfl, rfl⟩) ⟨rfl, rfl, rfl⟩
          simp [Queues.endTask, Queues.leaveLoader, Queues.setPc, Queues.done, Queues.failUnless]
        · obtain rfl := Option.some.inj hs
          have hkeep := h.retask (x := { s.task t with hit, pc := .submitting 0 0 }) (w := s.wrapper) (d := some t) ht ⟨rfl, rfl⟩
              ⟨nofun, nofun⟩
            (.inr hjob) (.inl rfl) hw (fun _ _ => rfl) le_rfl (fun _ i p hp => ?_) (fun _ i p b hp => ?_)
          · refine hkeep.congr ?_ ht rfl (fun _ => ⟨rfl, rfl, rfl⟩) ⟨rfl, rfl, rfl⟩
            simp [Queues.setPc]
          · obtain ⟨rfl, rfl⟩ : 0 = i ∧ 0 = p := by simpa using hp
            exact ⟨(Nat.count_zero fun k => hit k = false).symm, fun j hj e => absurd e (hjob j hj), fun _ => hup⟩
          · cases hp
    · cases hs
  | next =>
    simp only [Mooncake.loaderStep] at hs
    split at hs
    · next i p hpc =>
      obtain ⟨hp, hlast⟩ := h.pushed t i p ht (.inl hpc)
      have hup := h.up_pushing t i p ht (.inl hpc)
      split at hs
      · split at hs
        · next hhit =>
          obtain rfl := Option.some.inj hs
          have hnext : (s.task t).misses (i + 1) = (s.task t).misses i := by
            unfold QueueTask.misses
            rw [Nat.count_succ, if_neg (by rw [hhit]; nofun), Nat.add_zero]
          refine (h.retask (x := { s.task t with pc := .submitting (i + 1) p }) (w := s.wrapper) (d := s.loader) ht ⟨rfl, rfl⟩
            ⟨nofun, nofun⟩
            (.inl rfl) (.inl ht) hw (fun _ _ => rfl) le_rfl (fun _ i' p' hp' => ?_) (fun _ i' p' b hp' => ?_))
          · obtain ⟨rfl, rfl⟩ : i + 1 = i' ∧ p = p' := by simpa using hp'
            exact ⟨hp.trans hnext.symm, hlast, hup⟩
          · cases hp'
        · cases hs
      · obtain rfl := Option.some.inj hs
        exact h.retask (x := { s.task t with pc := .left }) (w := s.wrapper) (d := none) ht ⟨rfl, rfl⟩ ⟨nofun, nofun⟩
          (.inl rfl) (.inr rfl) hw
          (fun _ _ => rfl) le_rfl nofun nofun
    · cases hs
  | acquire b =>
    simp only [Mooncake.loaderStep] at hs
    split at hs
    · next i p hpc =>
      obtain ⟨hp, hlast⟩ := h.pushed t i p ht (.inl hpc)
      have hup := h.up_pushing t i p ht (.inl hpc)
      split at hs
      · next hmiss =>
        split at hs
        · next b =>
          split at hs
          · obtain rfl := Option.some.inj hs
            have hkeep := h.retask (x := { s.task t with pc := .acquired i p b }) (w := s.wrapper) (d := s.loader) ht ⟨rfl, rfl⟩
                ⟨nofun, nofun⟩
              (.inl rfl) (.inl ht) hw (fun _ _ => rfl) le_rfl (fun _ i' p' hp' => ?_) (fun _ i' p' b' hp' => ?_)
            · exact hkeep.congr rfl rfl rfl (fun _ => ⟨rfl, rfl, rfl⟩) ⟨rfl, rfl, rfl⟩
            · obtain ⟨rfl, rfl⟩ : i = i' ∧ p = p' := by simpa using hp'
              exact ⟨hp, hlast, hup⟩
            · obtain ⟨rfl, -, -⟩ := TaskPc.acquired.inj hp'
              exact hmiss
          · cases hs
        · obtain rfl := Option.some.inj hs
          exact h.endTask ht false
      · cases hs
    · cases hs
  | load ok =>
    simp only [Mooncake.loaderStep] at hs
    split at hs
    · next i p b hpc =>
      split at hs
      · obtain rfl := Option.some.inj hs
        exact h.push hd ht hpc
      · obtain rfl := Option.some.inj hs
        exact (h.endTask ht false).congr rfl rfl rfl (fun _ => ⟨rfl, rfl, rfl⟩) ⟨rfl, rfl, rfl⟩
    · cases hs

theorem TasksInv.transferStep (h : TasksInv s) (hf : TransferFrame j s s') (hj : j < s.nJob) : TasksInv s' := by
  have hkeep : TasksInv { s with wrapper := s'.wrapper } := by
    by_cases hlast : (s.job j).last = true
    · exact h.doneLast hj hlast hf.wrapper.1 hf.wrapper.2 fun t => (hf.counter t).imp_right fun hc => ⟨hc.2.1, hc.2.2.2⟩
    · refine h.congr rfl rfl rfl (fun _ => ⟨rfl, rfl, rfl⟩) ⟨hf.wrapper.1, hf.wrapper.2, funext fun t => ?_⟩
      exact (hf.counter t).resolve_right fun hc => hlast hc.1
  obtain ⟨htask, hl, -, hn, -⟩ := hf.rest
  exact hkeep.congr htask hl hn (fun k => ⟨(hf.job k).1, (hf.job k).2.1, (hf.job k).2.2.2.1⟩) ⟨rfl, rfl, rfl⟩

/-- A task that is not a load, and not in its ring any more, has nothing to do with the loads. -/
theorem TasksInv.other (h : TasksInv s) (hd : DispatchInv s) (htype : (s.task t).type = .dump ∧ (s'.task t).type = .dump)
    (hq : (s'.task t).pc ≠ .queued)
    (htask : ∀ t', t' ≠ t → s'.task t' = s.task t') (hl : s'.loader = s.loader) (hn : s'.nJob = s.nJob) (hj : s'.job = s.job)
    (hw : s'.wrapper.nTask = s.wrapper.nTask ∧ s'.wrapper.wait = s.wrapper.wait)
    (hc : ∀ t', t' ≠ t → s'.wrapper.counter t' = s.wrapper.counter t') (hct : s'.wrapper.counter t ≤ s.wrapper.counter t) :
    TasksInv s' := by
  have hjob : ∀ j, j < s.nJob → (s.job j).task ≠ t := by
    intro j hj e
    subst e
    have he := (h.job j hj).2.1
    rw [htype.1] at he
    cases he
  have hload : ∀ t', s.loader = some t' → t' ≠ t := by
    intro t' ht' e
    subst e
    have he := (hd.loader t' ht').2.1
    rw [htype.1] at he
    cases he
  have hmc : ∀ t', t' ≠ t → s'.missCount t' = s.missCount t' := by
    intro t' e
    unfold Queues.missCount
    rw [htask t' e]
  refine ⟨fun j hj' => ?_, fun j hj' => ?_, fun t' i p ht' => ?_, fun t' i p b ht' => ?_, ?_, fun t' ht' hp => ?_,
    fun t' ht' => ?_,
    fun t' i p ht' => ?_, fun t' hr => ?_, fun t' hr => ?_⟩
  · rw [hn] at hj'
    rw [hj, hw.1, htask _ (hjob j hj')]
    exact h.job j hj'
  · rw [hn] at hj'
    rw [hj, htask _ (hjob j hj')]
    exact h.shard j hj'
  · rw [hl] at ht'
    have e := hload t' ht'
    rw [htask t' e, hmc t' e, hn, hj]
    exact h.pushed t' i p ht'
  · rw [hl] at ht'
    rw [htask t' (hload t' ht')]
    exact h.acquired t' i p b ht'
  · rw [hn, hj]
    exact h.last
  · have e : t' ≠ t := by
      intro e
      subst e
      exact hq hp
    rw [htask t' e] at hp
    rw [hc t' e]
    exact h.up_queued t' (hw.1 ▸ ht') hp
  · rw [hl] at ht'
    have e := hload t' ht'
    rw [htask t' e, hc t' e]
    exact h.up_getting t' ht'
  · rw [hl] at ht'
    have e := hload t' ht'
    rw [htask t' e, hmc t' e, hc t' e]
    exact h.up_pushing t' i p ht'
  · have hz := h.returned t' (hw.2 ▸ hr)
    by_cases e : t' = t
    · subst e
      omega
    · rw [hc t' e]
      exact hz
  · rw [hw.1]
    exact h.called t' (hw.2 ▸ hr)

theorem TasksInv.submit (h : TasksInv s) (hd : DispatchInv s) (hs : queueStep C s (.submit type n full) = some s') :
    TasksInv s' := by
  obtain rfl := Option.some.inj hs
  have hold : ∀ x t', t' < s.wrapper.nTask → Function.update s.task s.wrapper.nTask x t' = s.task t' :=
      fun x t' e => Function.update_of_ne e.ne ..
  have hload : ∀ t', s.loader = some t' → t' < s.wrapper.nTask := fun t' e => (hd.loader t' e).1
  have hwait : s.wrapper.wait s.wrapper.nTask = .notCalled := by
    by_contra hc
    exact absurd (h.called _ hc) (lt_irrefl _)
  -- the new task is not the dispatcher's, and has no job
  have hnew : ∀ x (w : TaskWrapper), w.nTask = s.wrapper.nTask + 1 → w.wait = s.wrapper.wait →
      (∀ t', t' < s.wrapper.nTask → w.counter t' = s.wrapper.counter t') → (x.pc = .queued → w.counter s.wrapper.nTask ≠ 0) →
      TasksInv { s with wrapper := w, task := Function.update s.task s.wrapper.nTask x } := by
    intro x w hn hw hc hx
    have hmc : ∀ t', t' < s.wrapper.nTask →
        Queues.missCount { s with wrapper := w, task := Function.update s.task s.wrapper.nTask x } t' = s.missCount t' := by
      intro t' e
      exact congrArg (fun y : QueueTask => y.misses y.nShard) (hold x t' e)
    refine ⟨fun j hj => ?_, fun j hj => ?_, fun t' i p ht' => ?_, fun t' i p b ht' => ?_, h.last, fun t' ht' hp => ?_,
      fun t' ht' => ?_,
      fun t' i p ht' => ?_, fun t' hr => ?_, fun t' hr => ?_⟩
    · dsimp only
      rw [hold x _ (h.job j hj).1, hn]
      exact ⟨Nat.lt_succ_of_lt (h.job j hj).1, (h.job j hj).2⟩
    · dsimp only
      rw [hold x _ (h.job j hj).1]
      exact h.shard j hj
    · have e := hload t' ht'
      rw [hmc t' e]
      dsimp only
      rw [hold x t' e]
      exact h.pushed t' i p ht'
    · dsimp only
      rw [hold x t' (hload t' ht')]
      exact h.acquired t' i p b ht'
    · dsimp only at ht' hp ⊢
      rw [hn] at ht'
      rcases Nat.lt_succ_iff_lt_or_eq.mp ht' with e | rfl
      · rw [hold x t' e] at hp
        rw [hc t' e]
        exact h.up_queued t' e hp
      · rw [Function.update_self] at hp
        exact hx hp
    · have e := hload t' ht'
      dsimp only
      rw [hold x t' e, hc t' e]
      exact h.up_getting t' ht'
    · have e := hload t' ht'
      rw [hmc t' e]
      dsimp only
      rw [hold x t' e, hc t' e]
      exact h.up_pushing t' i p ht'
    · dsimp only at hr ⊢
      rw [hw] at hr
      have e := h.called t' (by rw [hr]; nofun)
      rw [hc t' e]
      exact h.returned t' hr
    · dsimp only at hr ⊢
      rw [hw] at hr
      rw [hn]
      exact Nat.lt_succ_of_lt (h.called t' hr)
  split
  · have hkeep := hnew ⟨type, n, fun _ => false, .left⟩ (((s.wrapper.submit 1).failIf true s.wrapper.nTask).done s.wrapper.nTask)
        (by simp) (by simp)
      (fun t' e => by simp [e.ne]) nofun
    refine hkeep.congr ?_ rfl rfl (fun _ => ⟨rfl, rfl, rfl⟩) ⟨rfl, rfl, rfl⟩
    simp [Queues.setPc, Queues.done, Queues.failUnless]
  · exact hnew _ (s.wrapper.submit 1) (by simp) (by simp) (fun t' e => by simp [e.ne]) fun _ => by simp

theorem TasksInv.wait (h : TasksInv s) {w : TaskWrapper} (hk : WaitKeeps false s.wrapper w) :
    TasksInv { s with wrapper := w } := by
  refine ⟨hk.nTask.symm ▸ h.job, h.shard, h.pushed, h.acquired, h.last, ?_, ?_, ?_, fun t ht => ?_, fun t ht => ?_⟩
  · dsimp only
    rw [hk.nTask, hk.counter]
    exact h.up_queued
  · dsimp only
    rw [hk.counter]
    exact h.up_getting
  · dsimp only
    rw [hk.counter]
    exact h.up_pushing
  · dsimp only
    rw [hk.counter]
    rcases hk.returned t ht with hr | hz
    · exact h.returned t hr
    · exact hz
  · dsimp only
    rw [hk.nTask]
    rcases hk.called t ht with hc | hlt
    · exact h.called t hc
    · exact hlt

theorem TasksInv.takeLoad (h : TasksInv s) (hs : queueStep C s (.takeLoad t) = some s') : TasksInv s' := by
  simp only [queueStep] at hs
  split at hs
  · next hc =>
    obtain ⟨hlt, htype, hpc, hl⟩ := hc
    have hjob : ∀ j, j < s.nJob → (s.job j).task ≠ t := by
      intro j hj e
      subst e
      exact (h.job j hj).2.2.1 hpc
    have hup := h.up_queued t hlt hpc
    -- the task has no job yet, and is the dispatcher's only one
    have hgo : ∀ (w : TaskWrapper) (pc : TaskPc) (loader : Option Nat), w.nTask = s.wrapper.nTask ∧ w.wait = s.wrapper.wait →
        (∀ t', t' ≠ t → w.counter t' = s.wrapper.counter t') ∧ w.counter t ≤ s.wrapper.counter t → pc ≠ .queued →
        (∀ t', loader = some t' → t' = t ∧ pc = .getting ∧ w.counter t ≠ 0) →
        TasksInv { s.setPc t pc with wrapper := w, loader } := by
      intro w pc loader hw hcount hq hload
      have hother : ∀ x t', t' ≠ t → Function.update s.task t x t' = s.task t' := fun x t' e => Function.update_of_ne e ..
      have hself : (Function.update s.task t { s.task t with pc } t).pc = pc := by rw [Function.update_self]
      have hno : ∀ t' i p, loader = some t' → ¬((Function.update s.task t { s.task t with pc } t').pc = .submitting i p ∨
          ∃ b, (Function.update s.task t { s.task t with pc } t').pc = .acquired i p b) := by
        intro t' i p ht' hp
        obtain ⟨rfl, hget, -⟩ := hload t' ht'
        rw [hself, hget] at hp
        rcases hp with e | ⟨b, e⟩ <;> cases e
      refine ⟨fun j hj => ?_, fun j hj => ?_, fun t' i p ht' hp => absurd hp (hno t' i p ht'), fun t' i p b ht' hp => ?_, h.last,
        fun t' ht' hp => ?_, fun t' ht' hp => ?_, fun t' i p ht' hp => absurd hp (hno t' i p ht'), fun t' hr => ?_,
        fun t' hr => ?_⟩
      · dsimp only [Queues.setPc]
        rw [hother _ _ (hjob j hj), hw.1]
        exact h.job j hj
      · dsimp only [Queues.setPc]
        rw [hother _ _ (hjob j hj)]
        exact h.shard j hj
      · exact absurd (.inr ⟨b, hp⟩) (hno t' i p ht')
      · have e : t' ≠ t := by
          intro e
          subst e
          exact hq (hself.symm.trans hp)
        dsimp only [Queues.setPc] at ht' hp ⊢
        rw [hother _ _ e] at hp
        rw [hcount.1 t' e]
        exact h.up_queued t' (hw.1 ▸ ht') hp
      · obtain ⟨rfl, -, hup⟩ := hload t' ht'
        exact hup
      · dsimp only at hr ⊢
        have hz := h.returned t' (hw.2 ▸ hr)
        by_cases e : t' = t
        · rw [e] at hz ⊢
          omega
        · rw [hcount.1 t' e]
          exact hz
      · dsimp only at hr ⊢
        rw [hw.1]
        exact h.called t' (hw.2 ▸ hr)
    split at hs
    · obtain rfl := Option.some.inj hs
      refine hgo (s.wrapper.done t) .left s.loader ⟨by simp, by simp⟩ ⟨fun t' e => by simp [e], by simp⟩ nofun fun t' ht' => ?_
      rw [hl] at ht'
      cases ht'
    · obtain rfl := Option.some.inj hs
      refine hgo s.wrapper .getting (some t) ⟨rfl, rfl⟩ ⟨fun _ _ => rfl, le_rfl⟩ nofun fun t' ht' => ?_
      exact ⟨(Option.some.inj ht').symm, rfl, hup⟩
  · cases hs

end Tasks

theorem step_tasksInv (h : TasksInv s) (hq : QueuesInv s) (hs : queueStep C s l = some s') : TasksInv s' := by
  cases l with
  | submit type n full => exact h.submit hq.dispatch hs
  | wait l =>
    obtain ⟨w, hw, rfl⟩ := Option.map_eq_some_iff.mp hs
    exact h.wait (waitStep_keeps hw)
  | takeLoad t => exact h.takeLoad hs
  | loader l =>
    simp only [queueStep] at hs
    split at hs
    · next t ht => exact h.loaderStep hq.dispatch ht hs
    · cases hs
  | transfer l =>
    simp only [queueStep] at hs
    split at hs
    · next j ht => exact h.transferStep (hq.transfer_frame ht hs) (hq.jobs.transfer_lt j ht)
    · cases hs
  | dumper l =>
    simp only [queueStep] at hs
    split at hs
    · next t ht =>
      have hf := dumper_frame ht hs
      have htype := (hq.dispatch.dumper t ht).2.1
      exact h.other hq.dispatch ⟨htype, hf.type.1.trans htype⟩ hf.type.2.1 hf.task hf.rest.1 hf.rest.2.1 hf.rest.2.2.1 hf.wrapper
        (fun t' e => (hf.counter.2 t' e).1) hf.counter.1
    · cases hs
  | takeDump t =>
    simp only [queueStep] at hs
    split at hs
    · next hc =>
      obtain rfl := Option.some.inj hs
      have hself : ∀ pc, (s.setPc t pc).task t = { s.task t with pc } := fun pc => Function.update_self ..
      refine h.other (t := t) hq.dispatch ⟨hc.2.1, ?_⟩ ?_ (fun t' e => Function.update_of_ne e ..) rfl rfl rfl ⟨rfl, rfl⟩
        (fun _ _ => rfl) le_rfl
      · dsimp only
        rw [hself]
        exact hc.2.1
      · dsimp only
        rw [hself]
        dsimp only
        split <;> nofun
    · cases hs
  | take =>
    simp only [queueStep] at hs
    split at hs
    · next hc =>
      split at hs
      · obtain rfl := Option.some.inj hs
        have hjob : ∀ j x, x.task = (s.job j).task → x.shard = (s.job j).shard → x.last = (s.job j).last → ∀ k,
            (Function.update s.job j x k).task = (s.job k).task ∧ (Function.update s.job j x k).shard = (s.job k).shard ∧
              (Function.update s.job j x k).last = (s.job k).last := by
          intro j x h1 h2 h3 k
          by_cases e : k = j
          · rw [e, Function.update_self]
            exact ⟨h1, h2, h3⟩
          · rw [Function.update_of_ne e]
            exact ⟨rfl, rfl, rfl⟩
        split
        · next hlast =>
          have hdone := h.doneLast (w := s.wrapper.done (s.job s.head).task) hc.1 hlast (by simp) (by simp) fun t => by
            by_cases e : t = (s.job s.head).task
            · exact .inr ⟨e, by simp [e]⟩
            · exact .inl (by simp [e])
          exact hdone.congr rfl rfl rfl (hjob _ _ rfl rfl rfl) ⟨rfl, rfl, rfl⟩
        · exact h.congr rfl rfl rfl (hjob _ _ rfl rfl rfl) ⟨rfl, rfl, rfl⟩
      · obtain rfl := Option.some.inj hs
        refine h.congr rfl rfl rfl (fun k => ?_) ⟨rfl, rfl, rfl⟩
        simp only [Queues.setJob]
        grind
    · cases hs
  | endLoad j ok =>
    simp only [queueStep] at hs
    split at hs
    · obtain rfl := Option.some.inj hs
      refine h.congr rfl rfl rfl (fun k => ?_) ⟨rfl, rfl, rfl⟩
      simp only [Queues.setJob]
      grind
    · cases hs
  | _ =>
    simp only [queueStep] at hs
    split at hs
    · obtain rfl := Option.some.inj hs
      exact h.congr rfl rfl rfl (fun _ => ⟨rfl, rfl, rfl⟩) ⟨rfl, rfl, rfl⟩
    · cases hs

theorem init_tasksInv (h : s.IsInit) : TasksInv s := by
  obtain ⟨hw, -, hl, hn, -⟩ := h
  have hno : ∀ j, ¬ j < s.nJob := fun j hj => by rw [hn] at hj; cases hj
  have hnt : ∀ t, ¬ t < s.wrapper.nTask := fun t ht => by rw [hw] at ht; cases ht
  refine ⟨fun j hj => absurd hj (hno j), fun j hj => absurd hj (hno j), fun t i p ht => ?_, fun t i p b ht => ?_,
    fun j j' _ hj' => absurd hj' (hno j'), fun t ht => absurd ht (hnt t), fun t ht => ?_, fun t i p ht => ?_, fun t ht => ?_,
    fun t ht => ?_⟩
  · rw [hl] at ht
    cases ht
  · rw [hl] at ht
    cases ht
  · rw [hl] at ht
    cases ht
  · rw [hl] at ht
    cases ht
  · rw [hw] at ht
    cases ht
  · rw [hw] at ht
    exact absurd rfl ht

/-- The load dispatcher counts its task down when nothing of it has been pushed, or when it has marked it. -/
theorem loader_down {t : Nat} {l : LoaderLabel} (hta : TasksInv s) (hs : loaderStep C s t l = some s') (t' : Nat) :
    s'.wrapper.counter t' = s.wrapper.counter t' ∨ t' = t ∧ s'.nJob = s.nJob ∧
      ((∀ j, j < s.nJob → (s.job j).task ≠ t) ∨ (l = .acquire none ∨ l = .load false) ∧ s'.wrapper.failureSet t = true) := by
  by_cases e : t' = t
  · subst e
    cases l with
    | get results =>
      simp only [loaderStep] at hs
      split at hs
      · next hpc =>
        have hno : ∀ j, j < s.nJob → (s.job j).task ≠ t' := by
          intro j hj e
          subst e
          exact (hta.job j hj).2.2.2 hpc
        split at hs
        · obtain rfl := Option.some.inj hs
          exact .inr ⟨rfl, rfl, .inl hno⟩
        · split at hs
          · obtain rfl := Option.some.inj hs
            exact .inr ⟨rfl, rfl, .inl hno⟩
          · obtain rfl := Option.some.inj hs
            exact .inl rfl
      · cases hs
    | next =>
      simp only [loaderStep] at hs
      split at hs
      · split at hs
        · split at hs
          · obtain rfl := Option.some.inj hs
            exact .inl rfl
          · cases hs
        · obtain rfl := Option.some.inj hs
          exact .inl rfl
      · cases hs
    | acquire b =>
      simp only [loaderStep] at hs
      split at hs
      · split at hs
        · split at hs
          · split at hs
            · obtain rfl := Option.some.inj hs
              exact .inl rfl
            · cases hs
          · obtain rfl := Option.some.inj hs
            refine .inr ⟨rfl, rfl, .inr ⟨.inl rfl, ?_⟩⟩
            simp [Queues.endTask, Queues.leaveLoader, Queues.setPc, Queues.done, Queues.failUnless]
        · cases hs
      · cases hs
    | load ok =>
      simp only [loaderStep] at hs
      split at hs
      · split at hs
        · obtain rfl := Option.some.inj hs
          exact .inl rfl
        · next hok =>
          obtain rfl := Option.some.inj hs
          obtain rfl := Bool.eq_false_of_not_eq_true hok
          refine .inr ⟨rfl, rfl, .inr ⟨.inr rfl, ?_⟩⟩
          simp [Queues.endTask, Queues.leaveLoader, Queues.setPc, Queues.done, Queues.failUnless, Queues.setOwner]
      · cases hs
  · left
    cases l <;> simp only [loaderStep] at hs <;> (repeat' split at hs) <;> first | cases hs; done | skip
    all_goals
      obtain rfl := Option.some.inj hs
      simp [Queues.endTask, Queues.leaveLoader, Queues.setPc, Queues.done, Queues.failUnless, Queues.setOwner, e]

/-- The latch of a shard that is pushed is up. -/
theorem TasksInv.pushed_up (h : TasksInv s) {t i p b : Nat} (ht : s.loader = some t) (hpc : (s.task t).pc = .acquired i p b) :
    s.wrapper.counter t ≠ 0 := by
  obtain ⟨hi, hmiss⟩ := h.acquired t i p b ht hpc
  apply h.up_pushing t i p ht (.inr ⟨b, hpc⟩)
  rw [(h.pushed t i p ht (.inr ⟨b, hpc⟩)).1]
  exact (s.task t).misses_lt hi hmiss

/-- The jobs before the one that is taken, or about to be, have been copied or given up. -/
theorem JobsInv.passed (h : JobsInv s) {j k : Nat} (hj : j ≤ s.head) (hlt : k < j) (hk : k < s.nJob)
    (htr : s.transfer = none ∨ s.transfer = some j) :
    (s.job k).pc.uncopied = false := by
  have hqueued : (s.job k).pc ≠ .queued := by
    intro e
    have hle := (h.queued k hk).mp e
    omega
  have hcurrent : (s.job k).pc.current = false := by
    by_contra hc
    have e := (h.current k hk).mp (Bool.eq_true_of_not_eq_false hc)
    rcases htr with htr | htr <;> rw [htr] at e
    · cases e
    · obtain rfl := Option.some.inj e
      omega
  revert hqueued hcurrent
  cases (s.job k).pc <;> simp [JobPc.current, JobPc.uncopied]

/-- With the job that has the waiter, nothing of its task is left to copy. -/
theorem TasksInv.settled (h : TasksInv s) (hq : JobsInv s) {j k : Nat} (hhead : j ≤ s.head)
    (htr : s.transfer = none ∨ s.transfer = some j) (hlast : (s.job j).last = true) (hk : k < s.nJob) (hne : k ≠ j)
    (htask : (s.job k).task = (s.job j).task) : (s.job k).pc.uncopied = false := by
  rcases Nat.lt_or_gt_of_ne hne with hlt | hlt
  · exact hq.passed hhead hlt hk htr
  · exact absurd htask (h.last j k hlt hk hlast)

end UnifiedCache.Mooncake
