/-
  UnifiedCache.Mooncake.HostLoads — what a load of the Mooncake store has moved when `Wait` returns OK,
  on the path of the host buffers (see `UnifiedCache.Mooncake.HostQueues`).

  In the runs that give no buffer back while something writes to it (`WritesEnd`), and in which no
  shard is missed without a backend (`Backed`):
  - `DataInv`: the buffer of a job has the bytes that its load has moved; a copy whose job is not of a
    doomed task has brought the shard's bytes to their destination;
  - `CoverInv`: each shard of a task that is not doomed was got, has a job, or is still to come.
-/

import UnifiedCache.Mooncake.HostBuffers
import UnifiedCache.Mooncake.HostHolder

namespace UnifiedCache.Mooncake

open UnifiedCache.Base UnifiedCache.Detail

variable {Byte : Type} {C : QueueConfig Byte} {s s' : Queues Byte} {l : QueueLabel Byte} {j o t : Nat}

/-- Without a backend, the remote store gets all of the shards. -/
def Backed (C : QueueConfig Byte) (s : Queues Byte) : QueueLabel Byte → Prop
  | .loader (.get (some hit)) => C.backend = false → ∀ t, s.loader = some t → ∀ i, i < (s.task t).nShard → hit i = true
  | _ => True

def Served (C : QueueConfig Byte) (s : Queues Byte) (l : QueueLabel Byte) : Prop := WritesEnd C s l ∧ Backed C s l

/-! ## The data -/

structure DataInv (C : QueueConfig Byte) (s : Queues Byte) : Prop where
  got : ∀ j, j < s.nJob → (s.job j).pc ≠ .dropped → ∀ o, s.got j o = true →
      s.host (s.job j).buf o = C.file (s.job j).task (s.job j).shard o
  all : ∀ j, j < s.nJob → (s.job j).load = .ended true → ∀ o, o < C.length → s.got j o = true
  issued : ∀ j, j < s.nJob → (s.job j).copy ≠ .none → (s.job j).load = .ended true
  synced : ∀ j, j < s.nJob → (s.job j).copy = .synced true → ∀ o, o < C.length → s.moved j o = true
  moved : ∀ j, j < s.nJob → ∀ o, o < C.length → s.moved j o = true → s.Doomed (s.job j).task ∨
    s.dest (s.job j).task (s.job j).shard o = C.file (s.job j).task (s.job j).shard o

/-- The jobs go on without touching the data. -/
theorem DataInv.congr (h : DataInv C s) (hn : s'.nJob = s.nJob)
    (hjob : ∀ j, (s'.job j).task = (s.job j).task ∧ (s'.job j).shard = (s.job j).shard ∧ (s'.job j).buf = (s.job j).buf)
    (hload : ∀ j, j < s.nJob → (s.job j).load = .ended true → (s'.job j).load = .ended true)
    (hload' : ∀ j, j < s.nJob → (s'.job j).load = .ended true → (s.job j).load = .ended true ∨ ∀ o, o < C.length →
      s.got j o = true)
    (hpc : ∀ j, j < s.nJob → (s'.job j).pc ≠ .dropped → (s.job j).pc ≠ .dropped)
    (hissued : ∀ j, j < s.nJob → (s'.job j).copy ≠ .none → (s.job j).copy ≠ .none ∨ (s.job j).load = .ended true)
    (hsynced : ∀ j, j < s.nJob → (s'.job j).copy = .synced true → (s.job j).copy = .synced true ∨ ∀ o, o < C.length →
      s.moved j o = true)
    (hdata : s'.host = s.host ∧ s'.dest = s.dest ∧ s'.got = s.got ∧ s'.moved = s.moved) (hd : ∀ t, s.Doomed t → s'.Doomed t) :
    DataInv C s' := by
  obtain ⟨hhost, hdest, hgot, hmoved⟩ := hdata
  refine ⟨fun j hj hne o ho => ?_, fun j hj hend o ho => ?_, fun j hj hcopy => ?_, fun j hj hsync o ho => ?_,
    fun j hj o ho hmov => ?_⟩
  all_goals rw [hn] at hj
  · rw [hgot] at ho
    rw [hhost, (hjob j).1, (hjob j).2.1, (hjob j).2.2]
    exact h.got j hj (hpc j hj hne) o ho
  · rw [hgot]
    rcases hload' j hj hend with e | e
    · exact h.all j hj e o ho
    · exact e o ho
  · apply hload j hj
    rcases hissued j hj hcopy with e | e
    · exact h.issued j hj e
    · exact e
  · rw [hmoved]
    rcases hsynced j hj hsync with e | e
    · exact h.synced j hj e o ho
    · exact e o ho
  · rw [hmoved] at hmov
    rw [hdest, (hjob j).1, (hjob j).2.1]
    exact (h.moved j hj o ho hmov).imp (hd _) id

theorem DataInv.loaderStep {t : Nat} {l : LoaderLabel} (h : DataInv C s) (hq : QueuesInv s) (hta : TasksInv s)
    (ht : s.loader = some t)
    (hs : loaderStep C s t l = some s') : DataInv C s' := by
  have hf := hq.loader_frame ht hs
  have hd : ∀ t', s.Doomed t' →
      s'.Doomed t' := fun t' hdoom => step_doomed (l := .loader l) hdoom hq hta (by simpa only [queueStep, ht] using hs)
  obtain ⟨-, -, -, -, -, -, hhost⟩ := hf.rest
  have hold := hf.job.2
  -- a new job has nothing yet
  have hnew : ∀ j, s.nJob ≤ j → j < s'.nJob → (s'.job j).load = .running ∧ (s'.job j).copy = .none ∧ ∀ o, s'.got j o = false ∧
      s'.moved j o = false := by
    intro j hle hj
    obtain ⟨i, p, b, -, e, hz⟩ := hf.pushed j hle hj
    rw [e]
    exact ⟨rfl, rfl, hz⟩
  refine ⟨fun j hj hne o ho => ?_, fun j hj hend o ho => ?_, fun j hj hcopy => ?_, fun j hj hsync o ho => ?_,
    fun j hj o ho hmov => ?_⟩
  all_goals by_cases hlt : j < s.nJob
  · rw [(hf.data j hlt).1] at ho
    rw [hold j hlt] at hne ⊢
    rw [hhost]
    exact h.got j hlt hne o ho
  · rw [((hnew j (Nat.le_of_not_lt hlt) hj).2.2 o).1] at ho
    cases ho
  · rw [hold j hlt] at hend
    rw [(hf.data j hlt).1]
    exact h.all j hlt hend o ho
  · rw [(hnew j (Nat.le_of_not_lt hlt) hj).1] at hend
    cases hend
  · rw [hold j hlt] at hcopy ⊢
    exact h.issued j hlt hcopy
  · exact absurd (hnew j (Nat.le_of_not_lt hlt) hj).2.1 hcopy
  · rw [hold j hlt] at hsync
    rw [(hf.data j hlt).2]
    exact h.synced j hlt hsync o ho
  · rw [(hnew j (Nat.le_of_not_lt hlt) hj).2.1] at hsync
    cases hsync
  · rw [(hf.data j hlt).2] at hmov
    rw [hold j hlt]
    have hdest : s'.dest (s.job j).task = s.dest (s.job j).task := by
      rcases hf.dest with e | ⟨hpc, e⟩
      · rw [e]
      · apply e
        intro e
        subst e
        exact (hta.job j hlt).2.2.2 hpc
    rw [hdest]
    exact (h.moved j hlt o ho hmov).imp (hd _) id
  · rw [((hnew j (Nat.le_of_not_lt hlt) hj).2.2 o).2] at hmov
    cases hmov

theorem DataInv.transferStep {j : Nat} {l : TransferLabel} (h : DataInv C s) (hq : QueuesInv s) (hta : TasksInv s)
    (ht : s.transfer = some j)
    (hs : transferStep C s j l = some s') : DataInv C s' := by
  have hf := hq.transfer_frame ht hs
  have hd : ∀ t, s.Doomed t →
      s'.Doomed t := fun t hdoom => step_doomed (l := .transfer l) hdoom hq hta (by simpa only [queueStep, ht] using hs)
  have hj := hq.jobs.transfer_lt j ht
  have hx := hq.jobs.ok j hj
  obtain ⟨-, -, -, hn, -⟩ := hf.rest
  have hcurrent : (s.job j).pc ≠ .dropped := by
    have hc := (hq.jobs.current j hj).mpr ht
    intro e
    rw [e] at hc
    cases hc
  refine h.congr hn (fun k => ⟨(hf.job k).1, (hf.job k).2.1, (hf.job k).2.2.1⟩) (fun k _ e => (hf.job k).2.2.2.2.trans e)
    (fun k _ e => .inl ((hf.job k).2.2.2.2.symm.trans e)) (fun k hk hne => ?_) (fun k hk hcopy => ?_)
    (fun k hk hsync => ?_) hf.data hd
  · by_cases e : k = j
    · rw [e]
      exact hcurrent
    · rcases (hf.other k e).1 with e' | ⟨e', -⟩
      · rw [← e']
        exact hne
      · rw [e']
        simp
  · -- a copy is issued after its load, and otherwise only ended
    by_cases e : k = j
    · subst e
      cases l <;> simp only [Mooncake.transferStep] at hs <;> (repeat' split at hs) <;> first | cases hs; done | skip
      all_goals
        obtain rfl := Option.some.inj hs
        simp only [Queues.failUnless, Queues.done, Queues.clearHolder, Queues.syncCopies, Queues.dropJob, Queues.setJob,
          Queues.setOwner] at hcopy
        grind [Job.Ok]
    · rcases (hf.other k e).2 with e' | ⟨whole, e', -⟩
      · rw [e'] at hcopy
        exact .inl hcopy
      · left
        rw [e']
        simp
  · cases l <;> simp only [Mooncake.transferStep] at hs <;> (repeat' split at hs) <;> first | cases hs; done | skip
    all_goals
      obtain rfl := Option.some.inj hs
      simp only [Queues.failUnless, Queues.done, Queues.clearHolder, Queues.syncCopies, Queues.dropJob, Queues.setJob,
        Queues.setOwner] at hsync
      grind [Job.Ok]

/-- The bytes that come to a buffer are of the shard whose job has it. -/
theorem DataInv.write (h : DataInv C s) (hq : JobsInv s) (hl : LoadsInv s) (hs : queueStep C s (.write j o) = some s')
    (hd : ∀ t, s.Doomed t → s'.Doomed t) : DataInv C s' := by
  simp only [queueStep] at hs
  split at hs
  · next hc =>
    obtain ⟨hj, hrun, -⟩ := hc
    have hpc : (s.job j).pc ≠ .dropped := by
      rcases hl j hj hrun with e | e <;> rw [e] <;> simp
    have hown := hq.owner j hj hpc
    obtain rfl := Option.some.inj hs
    refine ⟨fun k hk hne o' ho' => ?_, fun k hk hend o' ho' => ?_, h.issued, h.synced,
      fun k hk o' ho' hmov => (h.moved k hk o' ho' hmov).imp (hd _) id⟩
    · have ho' : Function.update s.got j (Function.update (s.got j) o true) k o' = true := ho'
      show Function.update s.host (s.job j).buf
          (Function.update (s.host (s.job j).buf) o (C.file (s.job j).task (s.job j).shard o)) (s.job k).buf o' = _
      by_cases e : k = j
      · subst e
        rw [Function.update_self] at ho' ⊢
        by_cases e' : o' = o
        · rw [e', Function.update_self]
        · rw [Function.update_of_ne e'] at ho' ⊢
          exact h.got k hk hne o' ho'
      · rw [Function.update_of_ne e] at ho'
        have hbuf : (s.job k).buf ≠ (s.job j).buf := by
          intro e'
          have hown' := hq.owner k hk hne
          rw [e', hown] at hown'
          exact e (Owner.job.inj hown').symm
        rw [Function.update_of_ne hbuf]
        exact h.got k hk hne o' ho'
    · show Function.update s.got j (Function.update (s.got j) o true) k o' = true
      have hold := h.all k hk hend o' ho'
      by_cases e : k = j
      · subst e
        rw [Function.update_self]
        by_cases e' : o' = o
        · rw [e', Function.update_self]
        · rw [Function.update_of_ne e']
          exact hold
      · rw [Function.update_of_ne e]
        exact hold
  · cases hs

/-- A copy from the device goes to a buffer of its own task. -/
theorem DataInv.gatherMove (h : DataInv C s) (hq : JobsInv s) (hg : GatherInv C s) {b : Nat} {v : Byte} (hb : s.gather b = true)
    : DataInv C { s with host := Function.update s.host b (Function.update (s.host b) o v) } := by
  obtain ⟨-, t, -, hown, -⟩ := hg.gather b hb
  refine ⟨fun k hk hne o' ho' => ?_, h.all, h.issued, h.synced, h.moved⟩
  have hbuf : (s.job k).buf ≠ b := by
    intro e
    subst e
    rw [hq.owner k hk hne] at hown
    cases hown
  show Function.update s.host b _ (s.job k).buf o' = _
  rw [Function.update_of_ne hbuf]
  exact h.got k hk hne o' ho'

/-- What a copy moves: the bytes of its shard, unless its task is doomed. -/
theorem DataInv.served (h : DataInv C s) (hq : JobsInv s) (hh : HolderInv s) (hj : j < s.nJob)
    (hcopy : (s.job j).copy = .issued true ∨ (s.job j).copy = .issued false) (ho : o < C.length) :
    s.Doomed (s.job j).task ∨ s.host (s.job j).buf o = C.file (s.job j).task (s.job j).shard o := by
  have hx := hq.ok j hj
  have hne : (s.job j).copy ≠ .none := by
    rcases hcopy with e | e <;> rw [e] <;> nofun
  have hdata : (s.job j).pc ≠ .dropped → s.host (s.job j).buf o = C.file (s.job j).task (s.job j).shard o := fun hpc =>
    h.got j hj hpc o (h.all j hj (h.issued j hj hne) o ho)
  by_cases hpc : (s.job j).pc = .dropped
  · left
    rcases hh.dropped j hj hpc with e | hdoom
    · rw [e] at hcopy
      rcases hcopy with e' | e' <;> cases e'
    · exact hdoom
  · exact .inr (hdata hpc)

/-- A copy spoils no destination but of a doomed task. -/
theorem DataInv.dest (h : DataInv C s) (hq : JobsInv s) (hh : HolderInv s) (hs : queueStep C s (.move j o) = some s')
    {t i o' : Nat}
    (ho : s.Doomed t ∨ s.dest t i o' = C.file t i o' ∨ t = (s.job j).task ∧ i = (s.job j).shard ∧ o' = o) :
    s.Doomed t ∨ s'.dest t i o' = C.file t i o' := by
  simp only [queueStep] at hs
  split at hs
  · next hc =>
    obtain ⟨hj, hcopy, hlt⟩ := hc
    have hbyte := h.served hq hh hj hcopy hlt
    obtain rfl := Option.some.inj hs
    by_cases e : t = (s.job j).task ∧ i = (s.job j).shard ∧ o' = o
    · obtain ⟨rfl, rfl, rfl⟩ := e
      simpa only [Function.update_self] using hbyte
    · have hsame : Function.update s.dest (s.job j).task (Function.update (s.dest (s.job j).task) (s.job j).shard
          (Function.update (s.dest (s.job j).task (s.job j).shard) o (s.host (s.job j).buf o))) t i o' = s.dest t i o' := by
        by_cases e1 : t = (s.job j).task
        · subst e1
          rw [Function.update_self]
          by_cases e2 : i = (s.job j).shard
          · subst e2
            rw [Function.update_self, Function.update_of_ne fun e3 => e ⟨rfl, rfl, e3⟩]
          · rw [Function.update_of_ne e2]
        · rw [Function.update_of_ne e1]
      show s.Doomed t ∨ Function.update s.dest _ _ t i o' = _
      rw [hsame]
      rcases ho with ho | ho | ho
      · exact .inl ho
      · exact .inr ho
      · exact absurd ho e
  · cases hs

theorem DataInv.move (h : DataInv C s) (hq : JobsInv s) (hh : HolderInv s) (hs : queueStep C s (.move j o) = some s')
    (hd : ∀ t, s.Doomed t → s'.Doomed t) : DataInv C s' := by
  have hdest : ∀ k o', s.Doomed (s.job k).task ∨
      s.dest (s.job k).task (s.job k).shard o' = C.file (s.job k).task (s.job k).shard o' ∨
      (s.job k).task = (s.job j).task ∧ (s.job k).shard = (s.job j).shard ∧ o' = o →
      s'.Doomed (s.job k).task ∨ s'.dest (s.job k).task (s.job k).shard o' = C.file (s.job k).task (s.job k).shard o' :=
    fun k o' hk => (h.dest hq hh hs hk).imp (hd _) id
  simp only [queueStep] at hs
  split at hs
  · obtain rfl := Option.some.inj hs
    refine ⟨h.got, h.all, h.issued, fun k hk hsync o' ho' => ?_, fun k hk o' ho' hmov => ?_⟩
    · have hold := h.synced k hk hsync o' ho'
      show Function.update s.moved j (Function.update (s.moved j) o true) k o' = true
      by_cases e : k = j
      · subst e
        rw [Function.update_self]
        by_cases e' : o' = o
        · rw [e', Function.update_self]
        · rw [Function.update_of_ne e']
          exact hold
      · rw [Function.update_of_ne e]
        exact hold
    · apply hdest k o'
      by_cases e : k = j ∧ o' = o
      · obtain ⟨rfl, rfl⟩ := e
        exact .inr (.inr ⟨rfl, rfl, rfl⟩)
      · have hold : s.moved k o' = true := by
          have hmov : Function.update s.moved j (Function.update (s.moved j) o true) k o' = true := hmov
          simp only [Function.update_apply] at hmov
          grind
        exact (h.moved k hk o' ho' hold).imp id .inl
  · cases hs

theorem step_dataInv (h : DataInv C s) (hq : QueuesInv s) (hta : TasksInv s) (hg : GatherInv C s) (hl : LoadsInv s)
    (hh : HolderInv s)
    (hs : queueStep C s l = some s') : DataInv C s' := by
  have hd : ∀ t, s.Doomed t → s'.Doomed t := fun _ hdoom => step_doomed hdoom hq hta hs
  cases l with
  | loader l =>
    simp only [queueStep] at hs
    split at hs
    · next t ht => exact h.loaderStep hq hta ht hs
    · cases hs
  | transfer l =>
    simp only [queueStep] at hs
    split at hs
    · next j ht => exact h.transferStep hq hta ht hs
    · cases hs
  | dumper l =>
    simp only [queueStep] at hs
    split at hs
    · next t ht =>
      have hf := dumper_frame ht hs
      obtain ⟨-, hn, hj, -⟩ := hf.rest
      refine h.congr hn (fun k => ?_) (fun k _ e => ?_) (fun k _ e => ?_) (fun k _ e => ?_) (fun k _ e => ?_)
        (fun k _ e => ?_) hf.data hd
      all_goals rw [hj] at *
      · exact ⟨rfl, rfl, rfl⟩
      · exact e
      · exact .inl e
      · exact e
      · exact .inl e
      · exact .inl e
    · cases hs
  | write j o => exact h.write hq.jobs hl hs hd
  | move j o => exact h.move hq.jobs hh hs hd
  | gatherMove b o v =>
    simp only [queueStep] at hs
    split at hs
    · next hb =>
      obtain rfl := Option.some.inj hs
      exact h.gatherMove hq.jobs hg hb
    · cases hs
  | endLoad j ok =>
    simp only [queueStep] at hs
    split at hs
    · next hc =>
      obtain ⟨hj, hrun, hall⟩ := hc
      obtain rfl := Option.some.inj hs
      have hjob : ∀ k, (Function.update s.job j { s.job j with load := .ended ok } k) =
          { s.job k with load := if k = j then .ended ok else (s.job k).load } := by
        intro k
        by_cases e : k = j
        · rw [e, Function.update_self, if_pos rfl]
        · rw [Function.update_of_ne e, if_neg e]
      refine h.congr rfl (fun k => ?_) (fun k _ e => ?_) (fun k _ e => ?_) (fun k _ e => ?_) (fun k _ e => ?_) (fun k _ e => ?_)
        ⟨rfl, rfl, rfl, rfl⟩ hd
      · show (Function.update s.job j { s.job j with load := .ended ok } k).task = _ ∧ _
        simp only [Queues.setJob, hjob, and_self]
      all_goals simp only [Queues.setJob, hjob] at *
      · by_cases e' : k = j
        · rw [e', hrun] at e
          cases e
        · rw [if_neg e']
          exact e
      · by_cases e' : k = j
        · rw [if_pos e'] at e
          rw [e']
          exact .inr (hall (BackendLoad.ended.inj e))
        · rw [if_neg e'] at e
          exact .inl e
      · exact e
      · exact .inl e
      · exact .inl e
    · cases hs
  | take =>
    simp only [queueStep] at hs
    split at hs
    · next hc =>
      have hpc := (hq.jobs.queued s.head hc.1).mpr le_rfl
      have hjob : ∀ pc k, (Function.update s.job s.head { s.job s.head with pc } k) =
          { s.job k with pc := if k = s.head then pc else (s.job k).pc } := by
        intro pc k
        by_cases e : k = s.head
        · rw [e, Function.update_self, if_pos rfl]
        · rw [Function.update_of_ne e, if_neg e]
      obtain ⟨pc, hpc', hn, hdata⟩ : ∃ pc, s'.job = Function.update s.job s.head { s.job s.head with pc } ∧ s'.nJob = s.nJob ∧
          s'.host = s.host ∧ s'.dest = s.dest ∧ s'.got = s.got ∧ s'.moved = s.moved := by
        split at hs
        · obtain rfl := Option.some.inj hs
          refine ⟨.dropped, ?_⟩
          split <;> exact ⟨rfl, rfl, rfl, rfl, rfl, rfl⟩
        · obtain rfl := Option.some.inj hs
          exact ⟨.waiting, rfl, rfl, rfl, rfl, rfl, rfl⟩
      refine h.congr hn (fun k => ?_) (fun k _ e => ?_) (fun k _ e => ?_) (fun k _ e => ?_) (fun k _ e => ?_)
        (fun k _ e => ?_) hdata hd
      all_goals rw [hpc', hjob] at *
      · exact ⟨rfl, rfl, rfl⟩
      · exact e
      · exact .inl e
      · by_cases e' : k = s.head
        · rw [e', hpc]
          simp
        · simp only [if_neg e'] at e
          exact e
      · exact .inl e
      · exact .inl e
    · cases hs
  | wait l =>
    obtain ⟨w, -, rfl⟩ := Option.map_eq_some_iff.mp hs
    exact h.congr rfl (fun _ => ⟨rfl, rfl, rfl⟩) (fun _ _ e => e) (fun _ _ e => .inl e) (fun _ _ e => e) (fun _ _ e => .inl e)
      (fun _ _ e => .inl e)
      ⟨rfl, rfl, rfl, rfl⟩ hd
  | _ =>
    simp only [queueStep] at hs
    repeat' split at hs
    all_goals first | cases hs; done | skip
    all_goals
      obtain rfl := Option.some.inj hs
      exact h.congr rfl (fun _ => ⟨rfl, rfl, rfl⟩) (fun _ _ e => e) (fun _ _ e => .inl e) (fun _ _ e => e) (fun _ _ e => .inl e)
        (fun _ _ e => .inl e)
        ⟨rfl, rfl, rfl, rfl⟩ hd

/-! ## The shards of a task -/

/-- The dispatcher has not come to the shard. -/
def TaskPc.before (i : Nat) : TaskPc → Bool
  | .submitting k _ | .acquired k _ _ => decide (k ≤ i)
  | _ => false

structure CoverInv (C : QueueConfig Byte) (s : Queues Byte) : Prop where
  getting : ∀ t, t < s.wrapper.nTask → (s.task t).pc = .getting → s.loader = some t
  hit : ∀ t, t < s.wrapper.nTask → (s.task t).type = .load → (s.task t).pc ≠ .queued → (s.task t).pc ≠ .getting →
    ∀ i, i < (s.task t).nShard → (s.task t).hit i = true → ∀ o, o < C.length → s.Doomed t ∨ s.dest t i o = C.file t i o
  covered : ∀ t, t < s.wrapper.nTask → (s.task t).type = .load → (s.task t).pc ≠ .queued → (s.task t).pc ≠ .getting →
    ∀ i, i < (s.task t).nShard → (s.task t).hit i = false → s.Doomed t ∨
    (∃ j, j < s.nJob ∧ (s.job j).task = t ∧ (s.job j).shard = i) ∨
      s.loader = some t ∧ (s.task t).pc.before i = true

/-- The tasks that are still of interest have not moved. -/
theorem CoverInv.congr (h : CoverInv C s) (hget : ∀ t, t < s'.wrapper.nTask → (s'.task t).pc = .getting → s'.loader = some t)
    (htask : ∀ t, t < s'.wrapper.nTask → (s'.task t).type = .load → (s'.task t).pc ≠ .queued → (s'.task t).pc ≠ .getting →
      s'.Doomed t ∨ t < s.wrapper.nTask ∧ s'.task t = s.task t ∧ (s.loader = some t → s'.loader = some t))
    (hjob : ∀ j, j < s.nJob → j < s'.nJob ∧ (s'.job j).task = (s.job j).task ∧ (s'.job j).shard = (s.job j).shard)
    (hdest : ∀ t i o, s.Doomed t ∨ s.dest t i o = C.file t i o → s'.Doomed t ∨ s'.dest t i o = C.file t i o)
    (hd : ∀ t, s.Doomed t → s'.Doomed t) : CoverInv C s' := by
  refine ⟨hget, fun t ht htype hpc hpc' i hi hhit o ho => ?_, fun t ht htype hpc hpc' i hi hmiss => ?_⟩
  all_goals rcases htask t ht htype hpc hpc' with hdoom | ⟨ht', e, hl⟩
  · exact .inl hdoom
  · rw [e] at htype hpc hpc' hi hhit
    exact hdest t i o (h.hit t ht' htype hpc hpc' i hi hhit o ho)
  · exact .inl hdoom
  · rw [e] at htype hpc hpc' hi hmiss ⊢
    rcases h.covered t ht' htype hpc hpc' i hi hmiss with hdoom | ⟨j, hj, h1, h2⟩ | ⟨hload, hb⟩
    · exact .inl (hd t hdoom)
    · obtain ⟨hj', e1, e2⟩ := hjob j hj
      exact .inr (.inl ⟨j, hj', e1.trans h1, e2.trans h2⟩)
    · exact .inr (.inr ⟨hl hload, hb⟩)

/-- The load dispatcher's task goes on. -/
theorem CoverInv.retask (h : CoverInv C s) (hf : LoaderFrame t s s') (ht : s.loader = some t) (hd : ∀ t, s.Doomed t → s'.Doomed t)
    (hget : (s'.task t).pc ≠ .getting)
    (hhit : ∀ i, i < (s'.task t).nShard → (s'.task t).hit i = true → ∀ o, o < C.length → s'.Doomed t ∨
      s'.dest t i o = C.file t i o)
    (hcov : ∀ i, i < (s'.task t).nShard → (s'.task t).hit i = false → s'.Doomed t ∨
      (∃ j, j < s'.nJob ∧ (s'.job j).task = t ∧ (s'.job j).shard = i) ∨ s'.loader = some t ∧
      (s'.task t).pc.before i = true) : CoverInv C s' := by
  have hdest : ∀ t', t' ≠ t → s'.dest t' = s.dest t' := by
    intro t' hne
    rcases hf.dest with e | ⟨-, e⟩
    · rw [e]
    · exact e t' hne
  refine ⟨fun t' ht' hpc => ?_, fun t' ht' htype hpc hpc' i hi hhit' o ho => ?_, fun t' ht' htype hpc hpc' i hi hmiss => ?_⟩
  all_goals
    rw [hf.wrapper.1] at ht'
    by_cases e : t' = t
  · rw [e] at hpc
    exact absurd hpc hget
  · rw [hf.task t' e] at hpc
    have hl := h.getting t' ht' hpc
    rw [ht] at hl
    exact absurd (Option.some.inj hl).symm e
  · subst e
    exact hhit i hi hhit' o ho
  · rw [hf.task t' e] at htype hpc hpc' hi hhit'
    rw [hdest t' e]
    exact (h.hit t' ht' htype hpc hpc' i hi hhit' o ho).imp (hd _) id
  · subst e
    exact hcov i hi hmiss
  · rw [hf.task t' e] at htype hpc hpc' hi hmiss
    rcases h.covered t' ht' htype hpc hpc' i hi hmiss with hdoom | ⟨j, hj, h1, h2⟩ | ⟨hl, -⟩
    · exact .inl (hd _ hdoom)
    · refine .inr (.inl ⟨j, lt_of_lt_of_le hj hf.job.1, ?_⟩)
      rw [hf.job.2 j hj]
      exact ⟨h1, h2⟩
    · rw [ht] at hl
      exact absurd (Option.some.inj hl).symm e

theorem CoverInv.loaderStep {l : LoaderLabel} (h : CoverInv C s) (hq : QueuesInv s) (hta : TasksInv s) (ht : s.loader = some t)
    (hb : Backed C s (.loader l)) (hs : loaderStep C s t l = some s') : CoverInv C s' := by
  have hf := hq.loader_frame ht hs
  have hd : ∀ t', s.Doomed t' →
      s'.Doomed t' := fun t' hdoom => step_doomed (l := .loader l) hdoom hq hta (by simpa only [queueStep, ht] using hs)
  obtain ⟨hlt, htype, hloads⟩ := hq.dispatch.loader t ht
  -- once the shards have been got, the dispatcher only goes through the missed ones
  have hhit : (s.task t).pc ≠ .getting → ∀ i, i < (s.task t).nShard → (s.task t).hit i = true → ∀ o, o < C.length →
      s.Doomed t ∨ s.dest t i o = C.file t i o := fun hpc =>
    h.hit t hlt htype (by intro e; rw [e] at hloads; cases hloads) hpc
  have hcov : (s.task t).pc ≠ .getting → ∀ i, i < (s.task t).nShard → (s.task t).hit i = false → s.Doomed t ∨
      (∃ j, j < s.nJob ∧ (s.job j).task = t ∧ (s.job j).shard = i) ∨ s.loader = some t ∧
      (s.task t).pc.before i = true := fun hpc =>
    h.covered t hlt htype (by intro e; rw [e] at hloads; cases hloads) hpc
  have hmarked : s'.wrapper.failureSet t = true → (s'.task t).pc ≠ .getting → CoverInv C s' := by
    intro hm hpc
    have hdoom : s'.Doomed t := .inl (.inl hm)
    exact h.retask hf ht hd hpc (fun _ _ _ _ _ => .inl hdoom) fun _ _ _ => .inl hdoom
  cases l with
  | get results =>
    simp only [Mooncake.loaderStep] at hs
    split at hs
    · next hpc =>
      split at hs
      · obtain rfl := Option.some.inj hs
        apply hmarked <;> simp [Queues.endTask, Queues.leaveLoader, Queues.setPc, Queues.done, Queues.failUnless]
      · next hit =>
        split at hs
        · -- without a miss, or without a backend
          next hno =>
          have hall : ∀ i, i < (s.task t).nShard → hit i = true := by
            intro i hi
            rcases hno with hz | hback
            · by_contra hmiss
              have hpos := QueueTask.misses_lt { s.task t with hit } hi (Bool.eq_false_of_not_eq_true hmiss)
              have hz : (Function.update s.task t { s.task t with hit } t).misses
                  (Function.update s.task t { s.task t with hit } t).nShard = 0 := hz
              rw [Function.update_self] at hz
              rw [hz] at hpos
              exact absurd hpos (Nat.not_lt_zero _)
            · exact hb hback t ht i hi
          obtain rfl := Option.some.inj hs
          simp only [Queues.endTask, Queues.leaveLoader, Queues.setPc, Queues.done, Queues.failUnless] at hf hd ⊢
          refine h.retask hf ht hd ?_ (fun i hi hh o ho => .inr ?_) fun i hi hmiss => ?_
          all_goals simp only [Function.update_self] at *
          · simp
          · rw [if_pos ⟨hi, hh⟩]
          · rw [hall i hi] at hmiss
            cases hmiss
        · obtain rfl := Option.some.inj hs
          simp only [Queues.setPc] at hf hd ⊢
          refine h.retask hf ht hd ?_ (fun i hi hh o ho => .inr ?_) fun i hi hmiss => .inr (.inr ⟨ht, ?_⟩)
          all_goals simp only [Function.update_self] at *
          · simp
          · rw [if_pos ⟨hi, hh⟩]
          · exact decide_eq_true (Nat.zero_le i)
    · cases hs
  | next =>
    simp only [Mooncake.loaderStep] at hs
    split at hs
    · next k p hpc =>
      have hhit := hhit (by rw [hpc]; simp)
      have hcov := hcov (by rw [hpc]; simp)
      split at hs
      · split at hs
        · next hk =>
          obtain rfl := Option.some.inj hs
          simp only [Queues.setPc] at hf hd ⊢
          refine h.retask hf ht hd ?_ (fun i hi hh o ho => ?_) fun i hi hmiss => ?_
          all_goals simp only [Function.update_self] at *
          · simp
          · exact (hhit i hi hh o ho).imp (hd _) id
          · refine (hcov i hi hmiss).imp (hd _) (Or.imp id fun hbefore => ⟨hbefore.1, ?_⟩)
            have hle := hbefore.2
            rw [hpc] at hle
            have hle : k ≤ i := of_decide_eq_true hle
            have hne : k ≠ i := by
              intro e
              subst e
              rw [hk] at hmiss
              cases hmiss
            exact decide_eq_true (by omega)
        · cases hs
      · next hk =>
        obtain rfl := Option.some.inj hs
        simp only [Queues.leaveLoader, Queues.setPc] at hf hd ⊢
        refine h.retask hf ht hd ?_ (fun i hi hh o ho => ?_) fun i hi hmiss => ?_
        all_goals simp only [Function.update_self] at *
        · simp
        · exact (hhit i hi hh o ho).imp (hd _) id
        · refine (hcov i hi hmiss).imp (hd _) fun hrest => .inl (hrest.resolve_right fun hbefore => ?_)
          have hle := hbefore.2
          rw [hpc] at hle
          have hle : k ≤ i := of_decide_eq_true hle
          omega
    · cases hs
  | acquire b =>
    simp only [Mooncake.loaderStep] at hs
    split at hs
    · next k p hpc =>
      split at hs
      · split at hs
        · split at hs
          · have hhit := hhit (by rw [hpc]; simp)
            have hcov := hcov (by rw [hpc]; simp)
            obtain rfl := Option.some.inj hs
            simp only [Queues.setPc, Queues.setOwner] at hf hd ⊢
            refine h.retask hf ht hd ?_ (fun i hi hh o ho => ?_) fun i hi hmiss => ?_
            all_goals simp only [Function.update_self] at *
            · simp
            · exact (hhit i hi hh o ho).imp (hd _) id
            · refine (hcov i hi hmiss).imp (hd _) (Or.imp id fun hbefore => ⟨hbefore.1, ?_⟩)
              have hle := hbefore.2
              rw [hpc] at hle
              exact hle
          · cases hs
        · obtain rfl := Option.some.inj hs
          apply hmarked <;> simp [Queues.endTask, Queues.leaveLoader, Queues.setPc, Queues.done, Queues.failUnless]
      · cases hs
    · cases hs
  | load ok =>
    simp only [Mooncake.loaderStep] at hs
    split at hs
    · next k p b hpc =>
      split at hs
      · have hhit := hhit (by rw [hpc]; simp)
        have hcov := hcov (by rw [hpc]; simp)
        have hold := hf.job.2
        obtain rfl := Option.some.inj hs
        simp only [Queues.setPc, Queues.setOwner] at hf hd hold ⊢
        refine h.retask hf ht hd ?_ (fun i hi hh o ho => ?_) fun i hi hmiss => ?_
        all_goals simp only [Function.update_self] at *
        · simp
        · exact (hhit i hi hh o ho).imp (hd _) id
        · rcases hcov i hi hmiss with hdoom | ⟨j, hj, h1, h2⟩ | ⟨hl, hle⟩
          · exact .inl (hd _ hdoom)
          · refine .inr (.inl ⟨j, by omega, ?_⟩)
            rw [hold j hj]
            exact ⟨h1, h2⟩
          · rw [hpc] at hle
            have hle : k ≤ i := of_decide_eq_true hle
            by_cases e : k = i
            · -- the shard has its job now
              refine .inr (.inl ⟨s.nJob, Nat.lt_succ_self _, ?_⟩)
              rw [Function.update_self]
              exact ⟨rfl, e⟩
            · exact .inr (.inr ⟨hl, decide_eq_true (by omega)⟩)
      · next hok =>
        obtain rfl := Option.some.inj hs
        apply hmarked <;> simp [Queues.endTask, Queues.leaveLoader, Queues.setPc, Queues.done, Queues.failUnless, Queues.setOwner]
    · cases hs

/-- Outside the load queue a load only enters: it is submitted, taken, or marked. -/
theorem rest_task (hq : QueuesInv s) (hl : l.ofLoadQueue = false) (hs : queueStep C s l = some s') (t : Nat)
    (ht : t < s'.wrapper.nTask) :
    (s'.task t).type = .dump ∧ (s'.task t).pc ≠ .getting ∨ (s'.task t).pc = .queued ∨ (s'.task t).pc = .getting ∧
    s'.loader = some t ∨
      s'.Over t ∧ (s'.task t).pc ≠ .getting ∨ t < s.wrapper.nTask ∧ s'.task t = s.task t := by
  cases l with
  | loader l => cases hl
  | transfer l => cases hl
  | take => cases hl
  | dumper l =>
    simp only [queueStep] at hs
    split at hs
    · next d hd =>
      have hf := dumper_frame hd hs
      rw [hf.wrapper.1] at ht
      by_cases e : t = d
      · left
        rw [e, hf.type.1]
        exact ⟨(hq.dispatch.dumper d hd).2.1, hf.type.2.2⟩
      · exact .inr (.inr (.inr (.inr ⟨ht, hf.task t e⟩)))
    · cases hs
  | submit type n full =>
    cases full with
    | true =>
      obtain rfl := Option.some.inj hs
      simp only [if_true, Queues.setPc, Queues.done, Queues.failUnless, Function.update_idem, TaskWrapper.done_nTask,
        TaskWrapper.failIf_nTask,
        TaskWrapper.submit_nTask] at ht ⊢
      by_cases e : t = s.wrapper.nTask
      · refine .inr (.inr (.inr (.inl ⟨.inl ?_, ?_⟩)))
        · simp [e]
        · rw [e, Function.update_self]
          simp
      · exact .inr (.inr (.inr (.inr ⟨by omega, Function.update_of_ne e ..⟩)))
    | false =>
      obtain rfl := Option.some.inj hs
      simp only [Bool.false_eq_true, if_false, TaskWrapper.submit_nTask] at ht ⊢
      by_cases e : t = s.wrapper.nTask
      · right
        left
        rw [e, Function.update_self]
      · exact .inr (.inr (.inr (.inr ⟨by omega, Function.update_of_ne e ..⟩)))
  | wait l =>
    obtain ⟨w, hw, rfl⟩ := Option.map_eq_some_iff.mp hs
    have hn := (waitStep_keeps hw).nTask
    exact .inr (.inr (.inr (.inr ⟨hn ▸ ht, rfl⟩)))
  | takeLoad d =>
    simp only [queueStep] at hs
    split at hs
    · split at hs
      · next hfail =>
        obtain rfl := Option.some.inj hs
        simp only [Queues.setPc, Queues.done] at ht ⊢
        by_cases e : t = d
        · refine .inr (.inr (.inr (.inl ⟨.inl (e ▸ hfail), ?_⟩)))
          rw [e, Function.update_self]
          simp
        · exact .inr (.inr (.inr (.inr ⟨ht, Function.update_of_ne e ..⟩)))
      · obtain rfl := Option.some.inj hs
        simp only [Queues.setPc] at ht ⊢
        by_cases e : t = d
        · right
          right
          left
          rw [e, Function.update_self]
          exact ⟨rfl, rfl⟩
        · exact .inr (.inr (.inr (.inr ⟨ht, Function.update_of_ne e ..⟩)))
    · cases hs
  | takeDump d =>
    simp only [queueStep] at hs
    split at hs
    · next hc =>
      obtain rfl := Option.some.inj hs
      simp only [Queues.setPc] at ht ⊢
      by_cases e : t = d
      · left
        rw [e, Function.update_self]
        refine ⟨hc.2.1, ?_⟩
        dsimp only
        split <;> simp
      · exact .inr (.inr (.inr (.inr ⟨ht, Function.update_of_ne e ..⟩)))
    · cases hs
  | _ =>
    simp only [queueStep] at hs
    split at hs
    · obtain rfl := Option.some.inj hs
      exact .inr (.inr (.inr (.inr ⟨ht, rfl⟩)))
    · cases hs

/-- Outside the load queue only copies write to a destination. -/
theorem rest_dest (hl : l.ofLoadQueue = false) (hmove : ∀ j o, l ≠ .move j o) (hs : queueStep C s l = some s') :
    s'.dest = s.dest := by
  cases l with
  | loader l => cases hl
  | transfer l => cases hl
  | take => cases hl
  | dumper l =>
    simp only [queueStep] at hs
    split at hs
    · next t ht => exact (dumper_frame ht hs).data.2.1
    · cases hs
  | move j o => exact absurd rfl (hmove j o)
  | wait l =>
    obtain ⟨w, -, rfl⟩ := Option.map_eq_some_iff.mp hs
    rfl
  | _ =>
    simp only [queueStep] at hs
    repeat' split at hs
    all_goals first | cases hs; done | skip
    all_goals
      obtain rfl := Option.some.inj hs
      rfl

theorem step_coverInv (h : CoverInv C s) (hq : QueuesInv s) (hta : TasksInv s) (hh : HolderInv s) (hdata : DataInv C s)
    (hb : Backed C s l)
    (hs : queueStep C s l = some s') : CoverInv C s' := by
  have hd : ∀ t, s.Doomed t → s'.Doomed t := fun _ hdoom => step_doomed hdoom hq hta hs
  by_cases hl : l.ofLoadQueue = true
  · cases l with
    | loader l =>
      simp only [queueStep] at hs
      split at hs
      · next t ht => exact h.loaderStep hq hta ht hb hs
      · cases hs
    | transfer l =>
      simp only [queueStep] at hs
      split at hs
      · next j ht =>
        have hf := hq.transfer_frame ht hs
        obtain ⟨htask, hloader, -, hn, -⟩ := hf.rest
        refine h.congr (fun t ht' hpc => ?_) (fun t ht' _ _ _ => ?_) (fun k hk => ?_) (fun t i o => ?_) hd
        · rw [htask] at hpc
          rw [hloader]
          exact h.getting t (hf.wrapper.1 ▸ ht') hpc
        · exact .inr ⟨hf.wrapper.1 ▸ ht', congrFun htask t, fun e => hloader.trans e⟩
        · rw [hn]
          exact ⟨hk, (hf.job k).1, (hf.job k).2.1⟩
        · rw [hf.data.2.1]
          exact Or.imp (hd t) id
      · cases hs
    | take =>
      simp only [queueStep] at hs
      split at hs
      · obtain ⟨pc, hjob, hn, hw, htask, hloader, hdest⟩ : ∃ pc, s'.job = Function.update s.job s.head { s.job s.head with pc } ∧
            s'.nJob = s.nJob ∧ s'.wrapper.nTask = s.wrapper.nTask ∧ s'.task = s.task ∧ s'.loader = s.loader ∧
            s'.dest = s.dest := by
          split at hs
          · obtain rfl := Option.some.inj hs
            refine ⟨.dropped, ?_⟩
            split <;> exact ⟨rfl, rfl, rfl, rfl, rfl, rfl⟩
          · obtain rfl := Option.some.inj hs
            exact ⟨.waiting, rfl, rfl, rfl, rfl, rfl, rfl⟩
        refine h.congr (fun t ht' hpc => ?_) (fun t ht' _ _ _ => ?_) (fun k hk => ?_) (fun t i o => ?_) hd
        · rw [htask] at hpc
          rw [hloader]
          exact h.getting t (hw ▸ ht') hpc
        · exact .inr ⟨hw ▸ ht', congrFun htask t, fun e => hloader.trans e⟩
        · rw [hn, hjob]
          by_cases e : k = s.head
          · rw [e, Function.update_self]
            exact ⟨e ▸ hk, rfl, rfl⟩
          · rw [Function.update_of_ne e]
            exact ⟨hk, rfl, rfl⟩
        · rw [hdest]
          exact Or.imp (hd t) id
      · cases hs
    | _ => cases hl
  · have hl := Bool.eq_false_of_not_eq_true hl
    have hf := rest_frame hq hta hl hs
    refine h.congr (fun t ht hpc => ?_) (fun t ht htype hpc hpc' => ?_) (fun k hk => ?_) (fun t i o ho => ?_) hd
    · rcases rest_task hq hl hs t ht with e | e | e | e | ⟨ht', e⟩
      · exact absurd hpc e.2
      · rw [e] at hpc
        cases hpc
      · exact e.2
      · exact absurd hpc e.2
      · rw [e] at hpc
        exact (hf.loading t (h.getting t ht' hpc)).1
    · rcases rest_task hq hl hs t ht with e | e | e | e | ⟨ht', e⟩
      · rw [e.1] at htype
        cases htype
      · exact absurd e hpc
      · exact absurd e.1 hpc'
      · exact .inl (.inl e.1)
      · exact .inr ⟨ht', e, fun e' => (hf.loading t e').1⟩
    · rw [hf.jobs.1]
      exact ⟨hk, (hf.job k).1, (hf.job k).2.1⟩
    · by_cases hmove : ∃ j o, l = .move j o
      · obtain ⟨j, o, rfl⟩ := hmove
        exact (hdata.dest hq.jobs hh hs (ho.imp id .inl)).imp (hd t) id
      · rw [rest_dest hl (fun j o e => hmove ⟨j, o, e⟩) hs]
        exact ho.imp (hd t) id

/-! ## Loads that returned OK -/

/-- The shard was got from the remote store, or its copy was synchronised after a load that succeeded; its bytes
    are at their destination. -/
structure Loaded (C : QueueConfig Byte) (s : Queues Byte) (t i : Nat) : Prop where
  dest : ∀ o, o < C.length → s.dest t i o = C.file t i o
  source : (s.task t).hit i = true ∨
    ∃ j, j < s.nJob ∧ (s.job j).task = t ∧ (s.job j).shard = i ∧ (s.job j).copy = .synced true ∧ (s.job j).load = .ended true

/-- Whenever the `Wait` of a load returns OK, all of its shards are loaded. -/
def OkLoaded (C : QueueConfig Byte) (s : Queues Byte) : Prop :=
  ∀ t l s', (s.task t).type = .load → queueStep C s (.wait l) = some s' → waitStatus s.wrapper l = some (t, .ok) →
    ∀ i, i < (s.task t).nShard → Loaded C s t i

structure ServedInv (C : QueueConfig Byte) (s : Queues Byte) : Prop where
  queues : QueuesInv s
  tasks : TasksInv s
  dumps : DumpsInv s
  gather : GatherInv C s
  loads : LoadsInv s
  order : OrderInv s
  holder : HolderInv s
  data : DataInv C s
  cover : CoverInv C s

theorem init_servedInv (h : s.IsInit) : ServedInv C s := by
  have hw := init_carefulInv (C := C) h
  obtain ⟨hwr, -, hl, hn, hh, htr, -⟩ := h
  have hno : ∀ j, ¬ j < s.nJob := fun j hj => by rw [hn] at hj; cases hj
  have hnt : ∀ t, ¬ t < s.wrapper.nTask := fun t ht => by rw [hwr] at ht; cases ht
  have hnl : ∀ t, s.loader ≠ some t := fun t ht => by rw [hl] at ht; cases ht
  have hntr : ∀ j, s.transfer ≠ some j := fun j ht => by rw [htr] at ht; cases ht
  refine ⟨hw.queues, hw.tasks, hw.dumps, hw.gather, hw.loads, ⟨fun j ht => absurd ht (hntr j), fun t _ _ ht => absurd ht (hnl t),
    fun j hj => absurd hj (hno j), fun _ k _ hk => absurd hk (hno k)⟩, ⟨fun _ m _ hm => ?_, fun j ht => absurd ht (hntr j),
    fun j hj => absurd hj (hno j), fun j hj => absurd hj (hno j)⟩, ⟨fun j hj => absurd hj (hno j), fun j hj => absurd hj (hno j),
    fun j hj => absurd hj (hno j), fun j hj => absurd hj (hno j), fun j hj => absurd hj (hno j)⟩, ⟨fun t ht => absurd ht (hnt t),
    fun t ht => absurd ht (hnt t), fun t ht => absurd ht (hnt t)⟩⟩
  rw [hh] at hm
  cases hm

theorem step_servedInv (h : ServedInv C s) (hok : Served C s l) (hs : queueStep C s l = some s') : ServedInv C s' := by
  obtain ⟨hq, hta, hdu, hg, hl, ho, hh, hda, hc⟩ := h
  obtain ⟨hwrites, hback⟩ := hok
  exact ⟨step_queuesInv hq hs, step_tasksInv hta hq hs, step_dumpsInv hdu hq hwrites hs, step_gatherInv hg hq hdu hwrites hs,
    step_loadsInv hl hq hwrites hs,
    step_orderInv ho hq hta hs, step_holderInv hh hq hta ho hs, step_dataInv hda hq hta hg hl hh hs,
    step_coverInv hc hq hta hh hda hback hs⟩

/-- What the answer says of the task. -/
theorem ok_cases {w w' : TaskWrapper} {l : WaitLabel} {t : Nat} (hs : waitStep false w l = some w')
    (hok : waitStatus w l = some (t, .ok)) :
    w.wait t = .waiting ∧ w.counter t = 0 ∧ w.failureSet t = false := by
  cases l with
  | finished t' =>
    simp only [waitStep, Option.ite_none_right_eq_some] at hs
    simp only [waitStatus, Option.some.injEq, Prod.mk.injEq] at hok
    obtain ⟨rfl, hok⟩ := hok
    split at hok
    · cases hok
    · next hno => exact ⟨hs.1.1, hs.1.2, Bool.eq_false_of_not_eq_true hno⟩
  | drained t' =>
    simp only [waitStatus, Option.some.injEq, Prod.mk.injEq] at hok
    cases hok.2
  | _ => cases hok

theorem ServedInv.loaded (h : ServedInv C s) : OkLoaded C s := by
  obtain ⟨hq, hta, -, -, -, -, hh, hda, hc⟩ := h
  intro t l s' htype hs hok i hi
  obtain ⟨w, hw, -⟩ := Option.map_eq_some_iff.mp hs
  obtain ⟨hwait, hz, hmark⟩ := ok_cases hw hok
  have hlt := hta.called t (by rw [hwait]; nofun)
  have hover : ¬ s.Over t := by
    rintro (e | e)
    · rw [hmark] at e
      cases e
    · rw [hwait] at e
      cases e
  -- at a latch of zero, the jobs of the task have been dropped
  have hdropped : ∀ j, j < s.nJob → (s.job j).task = t → (s.job j).pc = .dropped := by
    intro j hj htask
    by_contra hpc
    rcases hh.counted j hj hpc with e | e <;> rw [htask] at e
    · exact e hz
    · exact hover e
  have hdoom : ¬ s.Doomed t := by
    rintro (e | ⟨j, htr, htask, hpc⟩)
    · exact hover e
    · rw [hdropped j (hq.jobs.transfer_lt j htr) htask] at hpc
      cases hpc
  have hqueued : (s.task t).pc ≠ .queued := fun e => hta.up_queued t hlt e hz
  have hgetting : (s.task t).pc ≠ .getting := fun e => hta.up_getting t (hc.getting t hlt e) e hz
  cases hhit : (s.task t).hit i with
  | true => exact ⟨fun o ho => (hc.hit t hlt htype hqueued hgetting i hi hhit o ho).resolve_left hdoom, .inl hhit⟩
  | false =>
    rcases hc.covered t hlt htype hqueued hgetting i hi hhit with e | ⟨j, hj, htask, hshard⟩ | ⟨hl, hbefore⟩
    · exact absurd e hdoom
    · have hsync : (s.job j).copy = .synced true := by
        refine (hh.dropped j hj (hdropped j hj htask)).resolve_right fun e => hdoom ?_
        rw [htask] at e
        exact e
      refine ⟨fun o ho => ?_, .inr ⟨j, hj, htask, hshard, hsync, hda.issued j hj (by rw [hsync]; nofun)⟩⟩
      have hdest := (hda.moved j hj o ho (hda.synced j hj hsync o ho)).resolve_left (by rw [htask]; exact hdoom)
      rw [htask, hshard] at hdest
      exact hdest
    · -- the dispatcher is still to push the shard, and the latch is up
      exfalso
      obtain ⟨k, p, hpc, hle⟩ : ∃ k p, ((s.task t).pc = .submitting k p ∨ ∃ b, (s.task t).pc = .acquired k p b) ∧ k ≤ i := by
        cases hpc : (s.task t).pc with
        | submitting k p =>
          rw [hpc] at hbefore
          exact ⟨k, p, .inl rfl, of_decide_eq_true hbefore⟩
        | acquired k p b =>
          rw [hpc] at hbefore
          exact ⟨k, p, .inr ⟨b, rfl⟩, of_decide_eq_true hbefore⟩
        | _ =>
          rw [hpc] at hbefore
          cases hbefore
      refine hta.up_pushing t k p hl hpc ?_ hz
      rw [(hta.pushed t k p hl hpc).1]
      calc (s.task t).misses k ≤ (s.task t).misses i := Nat.count_monotone _ hle
        _ < (s.task t).misses (s.task t).nShard := (s.task t).misses_lt hi hhit

theorem reach_loaded (h : Reach (hostQueues C) (Served C) s) : OkLoaded C s := by
  apply ServedInv.loaded
  exact h.inv (I := ServedInv C) (fun _ => init_servedInv) fun _ _ _ hi hok hs => step_servedInv hi hok hs

end UnifiedCache.Mooncake
