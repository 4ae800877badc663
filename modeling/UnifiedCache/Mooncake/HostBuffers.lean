/-
  UnifiedCache.Mooncake.HostBuffers — the host buffers of the Mooncake store are free only when idle
  (see `UnifiedCache.Mooncake.HostQueues`).

  In the runs that avoid the failing branches below (`Careful`), a buffer with a load, a dump or a
  copy under way is not free, and no copy is issued for a task whose `Wait` has returned
  (`buffers_idle`). The branches, of which the first and the third leave writers behind
  (`WritesEnd`), the others readers or copies (`ReadsEnd`):
  - a shard of a task that has been marked failed is skipped while its load is running, or a `Wait` of
    the backend fails under its load or dump;
  - the last shard of a task fails while copies of earlier ones are not synchronised, a copy is
    issued in part, or a synchronisation fails;
  - a dump fails between its first copy to the host and the end of its synchronisation;
  - a load ends early, and shards of it that have been pushed are still to be copied.

  Each of them is a run of its own at the end.
-/

import UnifiedCache.Mooncake.HostTasks

namespace UnifiedCache.Mooncake

open UnifiedCache.Base UnifiedCache.Detail

variable {Byte : Type} {C : QueueConfig Byte} {s s' : Queues Byte} {l : QueueLabel Byte}

/-- No buffer is given back while something writes to it. -/
def WritesEnd (C : QueueConfig Byte) (s : Queues Byte) : QueueLabel Byte → Prop
  | .take => s.head < s.nJob → s.wrapper.failureSet (s.job s.head).task = true → (s.job s.head).load ≠ .running
  | .dumper (.gather ok left) => ok = false → left = false ∧ ∀ t i b m, s.dumper = some t →
      (s.task t).pc = .gathering i b m → i = 0
  | .dumper (.put ok) => ok = false → ∀ t, s.dumper = some t → (s.task t).pc = .putting true → ∀ b, b < C.count →
      s.owner b ≠ .ctx t
  | .dumper (.sync ok) => ok = true
  | .transfer .backendTimeout | .dumpTimeout _ => False
  | _ => True

/-- No buffer is given back while something reads it, and no load ends early. -/
def ReadsEnd (s : Queues Byte) : QueueLabel Byte → Prop
  | .transfer .backendWait => ∀ j, s.transfer = some j → (s.job j).last = true → (s.job j).load = .ended false →
      ∀ k, k < s.nJob → (s.job k).pc ≠ .held
  | .transfer (.copy ok left) => ok = false → left = false ∧ ∀ j, s.transfer = some j → (s.job j).last = true → ∀ k, k < s.nJob →
      (s.job k).pc ≠ .held
  | .transfer (.sync ok) => ok = true
  | .loader (.acquire none) | .loader (.load false) => ∀ t, s.loader = some t → ∀ j, j < s.nJob → (s.job j).task = t →
      (s.job j).pc.uncopied = false
  | _ => True

def Careful (C : QueueConfig Byte) (s : Queues Byte) (l : QueueLabel Byte) : Prop := WritesEnd C s l ∧ ReadsEnd s l

/-! ## Dumps -/

structure DumpsInv (s : Queues Byte) : Prop where
  op : ∀ t, s.dumpOp t ≠ .none → (s.task t).type = .dump ∧ t < s.wrapper.nTask ∧
      ((s.task t).pc = .leaving true ∨ (s.task t).pc = .left)
  reads : ∀ t, s.dumpOp t = .running → ∀ b, s.reads t b = true → s.owner b = .ctx t

/-- Nothing that the dumps have to do with has changed. -/
theorem DumpsInv.congr (h : DumpsInv s) (hop : s'.dumpOp = s.dumpOp) (hr : s'.reads = s.reads)
    (ho : ∀ b t, s.owner b = .ctx t → s'.owner b = .ctx t)
    (htask : ∀ t, s.dumpOp t ≠ .none → s'.task t = s.task t) (hn : s.wrapper.nTask ≤ s'.wrapper.nTask) : DumpsInv s' := by
  refine ⟨fun t ht => ?_, fun t ht b hb => ?_⟩
  · rw [hop] at ht
    rw [htask t ht]
    obtain ⟨htype, hlt, hpc⟩ := h.op t ht
    exact ⟨htype, lt_of_lt_of_le hlt hn, hpc⟩
  · rw [hop] at ht
    rw [hr] at hb
    exact ho b t (h.reads t ht b hb)

theorem DumpsInv.dumperStep {t : Nat} {l : DumperLabel} (h : DumpsInv s) (hq : QueuesInv s) (ht : s.dumper = some t)
    (hs : dumperStep C s t l = some s') : DumpsInv s' := by
  have hf := dumper_frame ht hs
  have hdump := hq.dispatch.dumper t ht
  have hother : ∀ b t', t' ≠ t → s.owner b = .ctx t' → s'.owner b = .ctx t' := by
    intro b t' hne e
    rcases hf.owner b with e' | ⟨e', -⟩ | ⟨e', -⟩
    · exact e'.trans e
    · rw [e] at e'
      cases e'
    · rw [e] at e'
      exact absurd (Owner.ctx.inj e') hne
  -- the dumps of the others are as they were
  have hgo : (∀ t', t' ≠ t → s'.dumpOp t' = s.dumpOp t' ∧ s'.reads t' = s.reads t') →
      (s'.dumpOp t ≠ .none → (s'.task t).pc = .leaving true ∨ (s'.task t).pc = .left) →
      (s'.dumpOp t = .running → ∀ b, s'.reads t b = true → s'.owner b = .ctx t) → DumpsInv s' := by
    intro hkept hpc hreads
    refine ⟨fun t' ht' => ?_, fun t' ht' b hb => ?_⟩
    · rw [hf.wrapper.1]
      by_cases e : t' = t
      · rw [e] at ht' ⊢
        exact ⟨hf.type.1.trans hdump.2.1, hdump.1, hpc ht'⟩
      · rw [(hkept t' e).1] at ht'
        rw [hf.task t' e]
        exact h.op t' ht'
    · by_cases e : t' = t
      · rw [e] at ht' hb ⊢
        exact hreads ht' b hb
      · rw [(hkept t' e).1] at ht'
        rw [(hkept t' e).2] at hb
        exact hother b t' e (h.reads t' ht' b hb)
  cases l with
  | dump ok =>
    simp only [Mooncake.dumperStep] at hs
    split at hs
    · next hpc =>
      split at hs
      · obtain rfl := Option.some.inj hs
        refine hgo (fun t' e => ⟨Function.update_of_ne e .., Function.update_of_ne e ..⟩) (fun _ => .inl ?_) fun _ b hb => ?_
        · simp only [Queues.setPc, Function.update_self]
        · have hb : Function.update s.reads t (fun b => decide (s.owner b = .ctx t)) t b = true := hb
          rw [Function.update_self] at hb
          exact of_decide_eq_true hb
      · obtain rfl := Option.some.inj hs
        have hz : s.dumpOp t = .none := by
          by_contra hne
          rcases (h.op t hne).2.2 with e | e <;> rw [hpc] at e <;> cases e
        exact hgo (fun _ _ => ⟨rfl, rfl⟩) (fun hne => absurd hz hne) fun hrun => by cases hz.symm.trans hrun
    · cases hs
  | leave =>
    simp only [Mooncake.dumperStep] at hs
    split at hs
    · obtain rfl := Option.some.inj hs
      refine hgo (fun _ _ => ⟨rfl, rfl⟩) (fun _ => .inr ?_) fun hrun b hb => h.reads t hrun b hb
      simp only [Queues.setPc, Function.update_self]
    · cases hs
  | _ =>
    -- the task has no dump yet
    have hz : s.dumpOp t = .none := by
      by_contra hne
      rcases (h.op t hne).2.2 with e | e <;> simp [Mooncake.dumperStep, e] at hs
    have hsame : s'.dumpOp = s.dumpOp ∧ s'.reads = s.reads := by
      simp only [Mooncake.dumperStep] at hs
      repeat' split at hs
      all_goals first | cases hs; done | skip
      all_goals
        obtain rfl := Option.some.inj hs
        exact ⟨rfl, rfl⟩
    refine hgo (fun t' _ => ⟨congrFun hsame.1 t', congrFun hsame.2 t'⟩) (fun hne => absurd ?_ hne) fun hrun => ?_
    · rw [hsame.1]
      exact hz
    · rw [hsame.1, hz] at hrun
      cases hrun

theorem step_dumpsInv (h : DumpsInv s) (hq : QueuesInv s) (hw : WritesEnd C s l) (hs : queueStep C s l = some s') :
    DumpsInv s' := by
  -- a task of the load dispatcher, or of a ring, has no dump
  have hno : ∀ t, (s.task t).pc.loads = true ∨ (s.task t).pc = .queued → s.dumpOp t = .none := by
    intro t hpc
    by_contra hne
    rcases (h.op t hne).2.2 with e | e <;> rw [e] at hpc <;> rcases hpc with hpc | hpc <;> cases hpc
  have hne : ∀ t, s.dumpOp t = .none → ∀ x t', s.dumpOp t' ≠ .none → Function.update s.task t x t' = s.task t' := by
    intro t hz x t' ht'
    refine Function.update_of_ne ?_ ..
    intro e
    subst e
    exact ht' hz
  cases l with
  | dumper l =>
    simp only [queueStep] at hs
    split at hs
    · next t ht => exact h.dumperStep hq ht hs
    · cases hs
  | loader l =>
    simp only [queueStep] at hs
    split at hs
    · next t ht =>
      have hf := hq.loader_frame ht hs
      have hz := hno t (.inl (hq.dispatch.loader t ht).2.2)
      refine h.congr hf.rest.2.2.2.1 hf.rest.2.2.2.2.1 (fun b t' e => hf.owner b _ e (by simp) (by simp))
        (fun t' ht' => hf.task t' ?_) hf.wrapper.1.ge
      intro e
      subst e
      exact ht' hz
    · cases hs
  | transfer l =>
    simp only [queueStep] at hs
    split at hs
    · next j ht =>
      have hf := hq.transfer_frame ht hs
      obtain ⟨htask, -, -, -, -, hop, hr, -⟩ := hf.rest
      refine h.congr hop hr (fun b t e => ?_) (fun t _ => congrFun htask t) hf.wrapper.1.ge
      rcases hf.owner b with e' | ⟨j', e', -⟩
      · exact e'.trans e
      · rw [e] at e'
        cases e'
    · cases hs
  | submit type n full =>
    obtain rfl := Option.some.inj hs
    have hold : ∀ x t', s.dumpOp t' ≠ .none → Function.update s.task s.wrapper.nTask x t' = s.task t' := fun x t' ht' =>
      Function.update_of_ne (h.op t' ht').2.1.ne ..
    split
    · refine h.congr rfl rfl (fun _ _ e => e) (fun t' ht' => ?_) ?_
      · simp only [Queues.setPc, Queues.done, Queues.failUnless, Function.update_idem]
        exact hold _ t' ht'
      · show _ ≤ (((s.wrapper.submit 1).failIf true _).done _).nTask
        simp
    · refine h.congr rfl rfl (fun _ _ e => e) (hold _) ?_
      show _ ≤ (s.wrapper.submit 1).nTask
      simp
  | wait l =>
    obtain ⟨w, hw, rfl⟩ := Option.map_eq_some_iff.mp hs
    exact h.congr rfl rfl (fun _ _ e => e) (fun _ _ => rfl) (waitStep_keeps hw).nTask.ge
  | takeLoad t =>
    simp only [queueStep] at hs
    split at hs
    · next hc =>
      have hz := hno t (.inr hc.2.2.1)
      split at hs
      · obtain rfl := Option.some.inj hs
        exact h.congr rfl rfl (fun _ _ e => e) (hne t hz _) le_rfl
      · obtain rfl := Option.some.inj hs
        exact h.congr rfl rfl (fun _ _ e => e) (hne t hz _) le_rfl
    · cases hs
  | takeDump t =>
    simp only [queueStep] at hs
    split at hs
    · next hc =>
      obtain rfl := Option.some.inj hs
      exact h.congr rfl rfl (fun _ _ e => e) (hne t (hno t (.inr hc.2.2.1)) _) le_rfl
    · cases hs
  | take =>
    simp only [queueStep] at hs
    split at hs
    · next hc =>
      have hb := hq.jobs.owner s.head hc.1 (by rw [(hq.jobs.queued s.head hc.1).mpr le_rfl]; simp)
      have ho : ∀ b t, s.owner b = .ctx t → Function.update s.owner (s.job s.head).buf .free b = .ctx t := by
        intro b t e
        rw [Function.update_of_ne, e]
        intro e
        subst e
        rw [hb] at e
        cases e
      split at hs
      · obtain rfl := Option.some.inj hs
        split
        · exact h.congr rfl rfl ho (fun _ _ => rfl) le_rfl
        · exact h.congr rfl rfl ho (fun _ _ => rfl) le_rfl
      · obtain rfl := Option.some.inj hs
        exact h.congr rfl rfl (fun _ _ e => e) (fun _ _ => rfl) le_rfl
    · cases hs
  | dumped t =>
    simp only [queueStep] at hs
    split at hs
    · next hend =>
      obtain rfl := Option.some.inj hs
      refine ⟨h.op, fun t' ht' b hb => ?_⟩
      have hown := h.reads t' ht' b hb
      show (if s.owner b = .ctx t then _ else s.owner b) = _
      rw [if_neg, hown]
      rw [hown]
      intro e
      obtain rfl := Owner.ctx.inj e
      rw [show s.dumpOp t' = .running from ht'] at hend
      cases hend
    · cases hs
  | dumpTimeout t => exact hw.elim
  | endDump t =>
    simp only [queueStep] at hs
    split at hs
    · next hrun =>
      obtain rfl := Option.some.inj hs
      obtain ⟨h1, h2⟩ := h
      constructor <;> dsimp only <;> grind
    · cases hs
  | _ =>
    simp only [queueStep] at hs
    split at hs
    · obtain rfl := Option.some.inj hs
      exact h.congr rfl rfl (fun _ _ e => e) (fun _ _ => rfl) le_rfl
    · cases hs

/-! ## Copies to the host -/

/-- Copies of the task's dump may be under way. -/
def TaskPc.gathers : TaskPc → Bool
  | .preparing i _ | .gathering i _ _ => decide (0 < i)
  | .putting _ | .synchronizing => true
  | _ => false

structure GatherInv (C : QueueConfig Byte) (s : Queues Byte) : Prop where
  gathering : ∀ t i b missing, s.dumper = some t → (s.task t).pc = .gathering i b missing → b < C.count ∧ s.owner b = .ctx t
  gather : ∀ b, s.gather b = true → b < C.count ∧ ∃ t, s.dumper = some t ∧ s.owner b = .ctx t ∧ (s.task t).pc.gathers = true

/-- The dump dispatcher has not moved, and no context has gone. -/
theorem GatherInv.congr (h : GatherInv C s) (hd : s'.dumper = s.dumper) (hg : s'.gather = s.gather)
    (htask : ∀ t, s.dumper = some t → s'.task t = s.task t)
    (ho : ∀ b t, s.dumper = some t → s.owner b = .ctx t → (∃ i missing, (s.task t).pc = .gathering i b missing) ∨
      (s.task t).pc.gathers = true →
      s'.owner b = .ctx t) : GatherInv C s' := by
  constructor
  · intro t i b missing ht hpc
    rw [hd] at ht
    rw [htask t ht] at hpc
    obtain ⟨hb, hown⟩ := h.gathering t i b missing ht hpc
    exact ⟨hb, ho b t ht hown (.inl ⟨i, missing, hpc⟩)⟩
  · intro b hb
    rw [hg] at hb
    obtain ⟨hlt, t, ht, hown, hpc⟩ := h.gather b hb
    refine ⟨hlt, t, hd.trans ht, ho b t ht hown (.inr hpc), ?_⟩
    rw [htask t ht]
    exact hpc

/-- The dump dispatcher gathers only with copies under way, or has none. -/
theorem GatherInv.idle (h : GatherInv C s) {t : Nat} (ht : s.dumper = some t) (hpc : (s.task t).pc.gathers = false) (b : Nat) :
    s.gather b = false := by
  by_contra hb
  obtain ⟨-, t', ht', -, hpc'⟩ := h.gather b (Bool.eq_true_of_not_eq_false hb)
  obtain rfl := Option.some.inj (ht.symm.trans ht')
  rw [hpc] at hpc'
  cases hpc'

@[simp] theorem setPc_pc (t : Nat) (pc : TaskPc) : ((s.setPc t pc).task t).pc = pc := by
  show (Function.update s.task t _ t).pc = pc
  rw [Function.update_self]

/-- With no copy under way, none is to be looked after. -/
theorem GatherInv.none {t : Nat} {pc : TaskPc} (hg : ∀ b, s.gather b = false) (hd : s.dumper = some t ∨ s.dumper = none)
    (hpc : (s.task t).pc = pc)
    (hng : ∀ i b missing, pc ≠ .gathering i b missing) : GatherInv C s := by
  constructor
  · intro t' i b missing ht' hpc'
    rcases hd with e | e <;> rw [e] at ht'
    · obtain rfl := Option.some.inj ht'
      exact absurd (hpc.symm.trans hpc') (hng i b missing)
    · cases ht'
  · intro b hb
    rw [hg b] at hb
    cases hb

/-- The task goes on to a place that gathers if this one does. -/
theorem GatherInv.setPc {t : Nat} {pc : TaskPc} (h : GatherInv C s) (ht : s.dumper = some t)
    (hpc : pc.gathers = true ∨ (s.task t).pc.gathers = false)
    (hng : ∀ i b missing, pc ≠ .gathering i b missing) : GatherInv C (s.setPc t pc) := by
  constructor
  · intro t' i b missing ht' hpc'
    obtain rfl := Option.some.inj (ht.symm.trans ht')
    rw [setPc_pc] at hpc'
    exact absurd hpc' (hng i b missing)
  · intro b hb
    obtain ⟨hlt, t', ht', hown, hpc'⟩ := h.gather b hb
    obtain rfl := Option.some.inj (ht.symm.trans ht')
    refine ⟨hlt, t, ht, hown, ?_⟩
    rw [setPc_pc]
    rcases hpc with hpc | hpc
    · exact hpc
    · rw [hpc] at hpc'
      cases hpc'

/-- A dump without buffers has no copy under way. -/
theorem GatherInv.unbuffered {t : Nat} (h : GatherInv C s) (ht : s.dumper = some t)
    (hno : ∀ b, b < C.count → s.owner b ≠ .ctx t) (b : Nat) :
    s.gather b = false := by
  by_contra hb
  obtain ⟨hlt, t', ht', hown, -⟩ := h.gather b (Bool.eq_true_of_not_eq_false hb)
  obtain rfl := Option.some.inj (ht.symm.trans ht')
  exact hno b hlt hown

theorem GatherInv.acquire {t : Nat} {b : Option Nat} (h : GatherInv C s) (ht : s.dumper = some t)
    (hs : dumperStep C s t (.acquire b) = some s') :
    GatherInv C s' := by
  simp only [dumperStep] at hs
  split at hs
  · next i missing hpc =>
    split at hs
    · split at hs
      · next b =>
        split at hs
        · next hfree =>
          obtain rfl := Option.some.inj hs
          constructor
          · intro t' i' b' missing' ht' hpc'
            obtain rfl := Option.some.inj (ht.symm.trans ht')
            rw [setPc_pc] at hpc'
            obtain ⟨rfl, rfl, rfl⟩ := TaskPc.gathering.inj hpc'
            exact ⟨hfree.1, Function.update_self ..⟩
          · intro b' hb'
            obtain ⟨hlt, t', ht', hown, hpc'⟩ := h.gather b' hb'
            obtain rfl := Option.some.inj (ht.symm.trans ht')
            refine ⟨hlt, t, ht, ?_, ?_⟩
            · show Function.update s.owner b (.ctx t) b' = .ctx t
              rw [Function.update_of_ne, hown]
              intro e
              subst e
              rw [hfree.2] at hown
              cases hown
            · rw [setPc_pc]
              rw [hpc] at hpc'
              exact hpc'
        · cases hs
      · obtain rfl := Option.some.inj hs
        exact h.setPc ht (.inl rfl) (by simp)
    · cases hs
  · cases hs

theorem GatherInv.issue {t : Nat} {ok left : Bool} (h : GatherInv C s) (ht : s.dumper = some t)
    (hw : WritesEnd C s (.dumper (.gather ok left)))
    (hs : dumperStep C s t (.gather ok left) = some s') : GatherInv C s' := by
  simp only [dumperStep] at hs
  split at hs
  · next i b missing hpc =>
    obtain ⟨hlt, hown⟩ := h.gathering t i b missing ht hpc
    split at hs
    · obtain rfl := Option.some.inj hs
      constructor
      · intro t' i' b' missing' ht' hpc'
        obtain rfl := Option.some.inj (ht.symm.trans ht')
        have hpc' : ((s.setPc t (.preparing (i + 1) missing)).task t).pc = .gathering i' b' missing' := hpc'
        rw [setPc_pc] at hpc'
        cases hpc'
      · intro b' hb'
        have hin : b' < C.count ∧ s.owner b' = .ctx t := by
          by_cases e : b' = b
          · rw [e]
            exact ⟨hlt, hown⟩
          · have hb' : Function.update s.gather b true b' = true := hb'
            rw [Function.update_of_ne e] at hb'
            obtain ⟨hlt', t', ht', hown', -⟩ := h.gather b' hb'
            obtain rfl := Option.some.inj (ht.symm.trans ht')
            exact ⟨hlt', hown'⟩
        refine ⟨hin.1, t, ht, hin.2, ?_⟩
        show ((s.setPc t (.preparing (i + 1) missing)).task t).pc.gathers = true
        rw [setPc_pc]
        exact decide_eq_true (Nat.succ_pos i)
    · -- it fails with nothing issued, and no copy before it
      next hok =>
      obtain rfl := Option.some.inj hs
      obtain ⟨rfl, hzero⟩ := hw (Bool.eq_false_of_not_eq_true hok)
      obtain rfl := hzero t i b missing ht hpc
      refine GatherInv.none (fun b' => ?_) (.inl ht) (setPc_pc (s := s.dropCtx t) t _) (by simp)
      show Function.update s.gather b false b' = false
      by_cases e : b' = b
      · rw [e, Function.update_self]
      · rw [Function.update_of_ne e]
        exact h.idle ht (by rw [hpc]; rfl) b'
  · cases hs

theorem GatherInv.put {t : Nat} {ok : Bool} (h : GatherInv C s) (ht : s.dumper = some t) (hw : WritesEnd C s (.dumper (.put ok)))
    (hs : dumperStep C s t (.put ok) = some s') : GatherInv C s' := by
  simp only [dumperStep] at hs
  split at hs
  · next missing hpc =>
    split at hs
    · -- it fails with no buffer
      next hfail =>
      obtain rfl := Option.some.inj hs
      obtain ⟨rfl, hok⟩ := hfail
      exact GatherInv.none (h.unbuffered ht (hw hok t ht hpc)) (.inl ht) (setPc_pc (s := s.dropCtx t) t _) (by simp)
    · split at hs
      · obtain rfl := Option.some.inj hs
        exact h.setPc ht (.inl rfl) (by simp)
      · next hno =>
        obtain rfl := Option.some.inj hs
        exact GatherInv.none (h.unbuffered ht fun b hlt hown => hno ⟨b, hlt, hown⟩) (.inl ht) (setPc_pc t _) (by simp)
  · cases hs

theorem GatherInv.submit {t : Nat} {ok : Bool} (h : GatherInv C s) (ht : s.dumper = some t)
    (hs : dumperStep C s t (.dump ok) = some s') :
    GatherInv C s' := by
  simp only [dumperStep] at hs
  split at hs
  · next hpc =>
    have hg := h.idle ht (by rw [hpc]; rfl)
    split at hs
    · obtain rfl := Option.some.inj hs
      exact GatherInv.none hg (.inl ht) (setPc_pc t _) (by simp)
    · obtain rfl := Option.some.inj hs
      exact GatherInv.none hg (.inl ht) (setPc_pc (s := s.dropCtx t) t _) (by simp)
  · cases hs

theorem GatherInv.dumperStep {t : Nat} {l : DumperLabel} (h : GatherInv C s) (ht : s.dumper = some t)
    (hw : WritesEnd C s (.dumper l))
    (hs : dumperStep C s t l = some s') : GatherInv C s' := by
  cases l with
  | acquire b => exact h.acquire ht hs
  | gather ok left => exact h.issue ht hw hs
  | put ok => exact h.put ht hw hs
  | dump ok => exact h.submit ht hs
  | check missing =>
    simp only [Mooncake.dumperStep] at hs
    split at hs
    · next hpc =>
      obtain rfl := Option.some.inj hs
      refine h.setPc ht (.inr (by rw [hpc]; rfl)) fun i b missing' => ?_
      split <;> simp
    · cases hs
  | event ok =>
    simp only [Mooncake.dumperStep] at hs
    split at hs
    · next missing hpc =>
      obtain rfl := Option.some.inj hs
      refine h.setPc ht (.inr (by rw [hpc]; rfl)) fun i b missing' => ?_
      split <;> simp
    · cases hs
  | prepared =>
    simp only [Mooncake.dumperStep] at hs
    split at hs
    · split at hs
      · cases hs
      · obtain rfl := Option.some.inj hs
        exact h.setPc ht (.inl rfl) (by simp)
    · cases hs
  | sync ok =>
    simp only [Mooncake.dumperStep] at hs
    obtain rfl : ok = true := hw
    split at hs
    · obtain rfl := Option.some.inj hs
      exact GatherInv.none (fun _ => rfl) (.inl ht) (setPc_pc t .dumping) (by simp)
    · cases hs
  | leave =>
    simp only [Mooncake.dumperStep] at hs
    split at hs
    · next ok hpc =>
      obtain rfl := Option.some.inj hs
      exact GatherInv.none (h.idle ht (by rw [hpc]; rfl)) (.inr rfl)
        (setPc_pc (s := (s.failUnless ok t).done t) t .left) (by simp)
    · cases hs

theorem step_gatherInv (h : GatherInv C s) (hq : QueuesInv s) (hd : DumpsInv s) (hw : WritesEnd C s l)
    (hs : queueStep C s l = some s') :
    GatherInv C s' := by
  -- a task that the dump dispatcher has not taken is not its task
  have hne : ∀ t x, (s.task t).type = .load ∨ (s.task t).pc = .queued ∨ s.dumper = none → ∀ t', s.dumper = some t' →
      Function.update s.task t x t' = s.task t' := by
    intro t x ht t' ht'
    obtain ⟨-, htype, hpc⟩ := hq.dispatch.dumper t' ht'
    apply Function.update_of_ne
    intro e
    subst e
    rcases ht with e | e | e
    · rw [htype] at e
      cases e
    · rw [e] at hpc
      cases hpc
    · rw [ht'] at e
      cases e
  cases l with
  | dumper l =>
    simp only [queueStep] at hs
    split at hs
    · next t ht => exact h.dumperStep ht hw hs
    · cases hs
  | loader l =>
    simp only [queueStep] at hs
    split at hs
    · next t ht =>
      have hf := hq.loader_frame ht hs
      obtain ⟨-, -, hdump, -, -, hg, -⟩ := hf.rest
      refine h.congr hdump hg (fun t' ht' => ?_) fun b t' _ e _ => hf.owner b _ e (by simp) (by simp)
      exact hf.task t' (hq.dispatch.ne ht ht').symm
    · cases hs
  | transfer l =>
    simp only [queueStep] at hs
    split at hs
    · next j ht =>
      have hf := hq.transfer_frame ht hs
      obtain ⟨htask, -, hdump, -, -, -, -, hg⟩ := hf.rest
      refine h.congr hdump hg (fun t _ => congrFun htask t) fun b t _ e _ => ?_
      rcases hf.owner b with e' | ⟨j', e', -⟩
      · exact e'.trans e
      · rw [e] at e'
        cases e'
    · cases hs
  | submit type n full =>
    obtain rfl := Option.some.inj hs
    have hnew : ∀ x t, s.dumper = some t → Function.update s.task s.wrapper.nTask x t = s.task t := fun x t ht =>
      Function.update_of_ne (hq.dispatch.dumper t ht).1.ne ..
    split
    · refine h.congr rfl rfl (fun t ht => ?_) fun _ _ _ e _ => e
      simp only [Queues.setPc, Queues.done, Queues.failUnless, Function.update_idem]
      exact hnew _ t ht
    · exact h.congr rfl rfl (hnew _) fun _ _ _ e _ => e
  | wait l =>
    obtain ⟨w, -, rfl⟩ := Option.map_eq_some_iff.mp hs
    exact h.congr rfl rfl (fun _ _ => rfl) fun _ _ _ e _ => e
  | takeLoad t =>
    simp only [queueStep] at hs
    split at hs
    · next hc =>
      split at hs
      · obtain rfl := Option.some.inj hs
        exact h.congr rfl rfl (hne t _ (.inl hc.2.1)) fun _ _ _ e _ => e
      · obtain rfl := Option.some.inj hs
        exact h.congr rfl rfl (hne t _ (.inl hc.2.1)) fun _ _ _ e _ => e
    · cases hs
  | takeDump t =>
    simp only [queueStep] at hs
    split at hs
    · next hc =>
      obtain rfl := Option.some.inj hs
      -- no copy is under way before the task is taken
      constructor
      · intro t' i b missing ht' hpc
        obtain rfl := Option.some.inj ht'
        have hpc : (Function.update s.task t { s.task t with pc := if s.wrapper.failureSet t then .leaving true
            else .checking } t).pc = _ := hpc
        rw [Function.update_self] at hpc
        dsimp only at hpc
        split at hpc <;> cases hpc
      · intro b hb
        obtain ⟨-, t', ht', -⟩ := h.gather b hb
        rw [hc.2.2.2] at ht'
        cases ht'
    · cases hs
  | take =>
    simp only [queueStep] at hs
    split at hs
    · next hc =>
      have hb := hq.jobs.owner s.head hc.1 (by rw [(hq.jobs.queued s.head hc.1).mpr le_rfl]; simp)
      have ho : ∀ b t, s.owner b = .ctx t → Function.update s.owner (s.job s.head).buf .free b = .ctx t := by
        intro b t e
        rw [Function.update_of_ne, e]
        intro e
        subst e
        rw [hb] at e
        cases e
      split at hs
      · obtain rfl := Option.some.inj hs
        split
        · exact h.congr rfl rfl (fun _ _ => rfl) fun b t _ e _ => ho b t e
        · exact h.congr rfl rfl (fun _ _ => rfl) fun b t _ e _ => ho b t e
      · obtain rfl := Option.some.inj hs
        exact h.congr rfl rfl (fun _ _ => rfl) fun _ _ _ e _ => e
    · cases hs
  | dumpTimeout t => exact hw.elim
  | dumped t =>
    simp only [queueStep] at hs
    split at hs
    · next hend =>
      obtain rfl := Option.some.inj hs
      refine h.congr rfl rfl (fun _ _ => rfl) fun b t' ht' e hpc => ?_
      show (if s.owner b = .ctx t then _ else s.owner b) = _
      rw [if_neg, e]
      rw [e]
      intro e'
      -- the dispatcher has left this task's context to the backend stage
      obtain rfl := Owner.ctx.inj e'
      rcases (hd.op t' (by rw [hend]; simp)).2.2 with e'' | e'' <;> rcases hpc with ⟨i, missing, hpc⟩ | hpc <;> rw
        [e''] at hpc <;> cases hpc
    · cases hs
  | _ =>
    simp only [queueStep] at hs
    split at hs
    · obtain rfl := Option.some.inj hs
      exact h.congr rfl rfl (fun _ _ => rfl) fun _ _ _ e _ => e
    · cases hs

/-! ## Loads -/

/-- A load is under way only for a job that is still to wait for it. -/
def LoadsInv (s : Queues Byte) : Prop :=
  ∀ j, j < s.nJob → (s.job j).load = .running → (s.job j).pc = .queued ∨ (s.job j).pc = .waiting

theorem LoadsInv.transferStep {j : Nat} {l : TransferLabel} (h : LoadsInv s) (hf : TransferFrame j s s')
    (hw : WritesEnd C s (.transfer l))
    (hs : transferStep C s j l = some s') : LoadsInv s' := by
  obtain ⟨-, -, -, hn, -⟩ := hf.rest
  intro k hk hrun
  rw [hn] at hk
  rw [(hf.job k).2.2.2.2] at hrun
  have hpc := h k hk hrun
  by_cases e : k = j
  · -- the transfer thread waits for the load before it goes on
    subst e
    exfalso
    cases l with
    | backendTimeout => exact hw
    | _ =>
      simp only [Mooncake.transferStep] at hs
      repeat' split at hs
      all_goals grind
  · rcases (hf.other k e).1 with e' | ⟨e', -⟩
    · rw [e']
      exact hpc
    · rw [e'] at hpc
      rcases hpc with hpc | hpc <;> cases hpc

theorem step_loadsInv (h : LoadsInv s) (hq : QueuesInv s) (hw : WritesEnd C s l) (hs : queueStep C s l = some s') :
    LoadsInv s' := by
  cases l with
  | transfer l =>
    simp only [queueStep] at hs
    split at hs
    · next j ht => exact h.transferStep (hq.transfer_frame ht hs) hw hs
    · cases hs
  | loader l =>
    simp only [queueStep] at hs
    split at hs
    · next t ht =>
      have hf := hq.loader_frame ht hs
      intro j hj hrun
      by_cases hlt : j < s.nJob
      · rw [hf.job.2 j hlt] at hrun ⊢
        exact h j hlt hrun
      · obtain ⟨i, p, b, -, e, -⟩ := hf.pushed j (Nat.le_of_not_lt hlt) hj
        rw [e]
        exact .inl rfl
    · cases hs
  | dumper l =>
    simp only [queueStep] at hs
    split at hs
    · next t ht =>
      obtain ⟨-, hn, hj, -⟩ := (dumper_frame ht hs).rest
      unfold LoadsInv at h ⊢
      rw [hn, hj]
      exact h
    · cases hs
  | take =>
    simp only [queueStep] at hs
    split at hs
    · next hc =>
      unfold LoadsInv at h ⊢
      split at hs
      · next hfail =>
        have hend := hw hc.1 hfail
        obtain rfl := Option.some.inj hs
        intro k hk hrun
        split at hk <;> split at hrun <;> simp only [Queues.dropJob, Queues.setJob, Queues.setOwner, Queues.done] at * <;> grind
      · obtain rfl := Option.some.inj hs
        simp only [Queues.setJob]
        grind
    · cases hs
  | endLoad j ok =>
    simp only [queueStep] at hs
    split at hs
    · obtain rfl := Option.some.inj hs
      unfold LoadsInv at h ⊢
      simp only [Queues.setJob]
      grind
    · cases hs
  | submit type n full =>
    obtain rfl := Option.some.inj hs
    split
    · exact h
    · exact h
  | wait l =>
    obtain ⟨w, -, rfl⟩ := Option.map_eq_some_iff.mp hs
    exact h
  | takeLoad t =>
    simp only [queueStep] at hs
    split at hs
    · split at hs
      · obtain rfl := Option.some.inj hs
        exact h
      · obtain rfl := Option.some.inj hs
        exact h
    · cases hs
  | _ =>
    simp only [queueStep] at hs
    split at hs
    · obtain rfl := Option.some.inj hs
      exact h
    · cases hs

/-! ## Copies to the device -/

structure CopiesInv (s : Queues Byte) : Prop where
  issued : ∀ j whole, j < s.nJob → (s.job j).copy = .issued whole → (s.job j).pc = .held ∨ (s.job j).pc = .syncing
  /-- The job with the waiter finds the holder empty at its end. -/
  holder : ∀ j ok, j < s.nJob → (s.job j).pc = .finishing ok → (s.job j).last = true → ∀ k, k < s.nJob → (s.job k).pc ≠ .held

theorem CopiesInv.congr (h : CopiesInv s) (hjob : s'.job = s.job) (hn : s'.nJob = s.nJob) : CopiesInv s' := by
  constructor
  · rw [hjob, hn]
    exact h.issued
  · rw [hjob, hn]
    exact h.holder

/-- One job goes on. -/
theorem CopiesInv.one (h : CopiesInv s) {j : Nat} (hn : s'.nJob = s.nJob) (hother : ∀ k, k < s.nJob → k ≠ j → s'.job k = s.job k)
    (hissued : ∀ whole, (s'.job j).copy = .issued whole → (s'.job j).pc = .held ∨ (s'.job j).pc = .syncing)
    (hfinishing : ∀ ok, (s'.job j).pc = .finishing ok → (s'.job j).last = true → ∀ k, k < s.nJob → (s.job k).pc = .held → k = j)
    (hheld : (s'.job j).pc = .held → ∀ k ok, k < s.nJob → (s.job k).pc = .finishing ok → (s.job k).last = true → k = j) :
    CopiesInv s' := by
  refine ⟨fun k whole hk hcopy => ?_, fun k ok hk hpc hlast i hi hheld' => ?_⟩
  · rw [hn] at hk
    by_cases e : k = j
    · rw [e] at hcopy ⊢
      exact hissued whole hcopy
    · rw [hother k hk e] at hcopy ⊢
      exact h.issued k whole hk hcopy
  · rw [hn] at hk hi
    by_cases e : k = j
    · rw [e] at hpc hlast
      by_cases e' : i = j
      · rw [e', hpc] at hheld'
        cases hheld'
      · rw [hother i hi e'] at hheld'
        exact e' (hfinishing ok hpc hlast i hi hheld')
    · rw [hother k hk e] at hpc hlast
      by_cases e' : i = j
      · rw [e'] at hheld'
        exact e (hheld hheld' k ok hk hpc hlast)
      · rw [hother i hi e'] at hheld'
        exact h.holder k ok hk hpc hlast i hi hheld'

theorem CopiesInv.setJob (h : CopiesInv s) {j : Nat} {x : Job} (hx : ∀ whole, x.copy = .issued whole → x.pc = .held ∨
    x.pc = .syncing)
    (hfinishing : ∀ ok, x.pc = .finishing ok → x.last = true → ∀ k, k < s.nJob → (s.job k).pc = .held → k = j)
    (hheld : x.pc = .held → ∀ k ok, k < s.nJob → (s.job k).pc = .finishing ok → (s.job k).last = true → k = j) :
    CopiesInv (s.setJob j x) := by
  have hself : (s.setJob j x).job j = x := Function.update_self ..
  refine h.one rfl (fun k _ e => Function.update_of_ne e ..) ?_ ?_ ?_ <;> rw [hself]
  · exact hx
  · exact hfinishing
  · exact hheld

theorem CopiesInv.transferStep {j : Nat} {l : TransferLabel} (h : CopiesInv s) (hq : JobsInv s) (ht : s.transfer = some j)
    (hw : WritesEnd C s (.transfer l)) (hr : ReadsEnd s (.transfer l)) (hs : transferStep C s j l = some s') : CopiesInv s' := by
  have hj := hq.transfer_lt j ht
  have hx := hq.ok j hj
  unfold Job.Ok at hx
  -- no other job is with the transfer thread
  have hother : ∀ k ok, k < s.nJob → (s.job k).pc = .finishing ok → k = j := by
    intro k ok hk hpc
    exact (Option.some.inj (ht.symm.trans ((hq.current k hk).mp (by rw [hpc]; rfl)))).symm
  cases l with
  | backendWait =>
    simp only [Mooncake.transferStep] at hs
    split at hs
    · next ok hpc hload =>
      obtain rfl := Option.some.inj hs
      rw [hpc] at hx
      refine h.setJob (fun whole e => ?_) (fun ok' e hlast k hk hheld => ?_) (fun e => ?_)
      · cases hx.symm.trans e
      · cases ok with
        | true => cases e
        | false => exact absurd hheld (hr j ht hlast hload k hk)
      · cases ok <;> cases e
    · cases hs
  | backendTimeout => exact hw.elim
  | copy ok left =>
    simp only [Mooncake.transferStep] at hs
    split at hs
    · next hpc =>
      split at hs
      · split at hs
        · obtain rfl := Option.some.inj hs
          exact h.setJob (fun _ _ => .inr rfl) (fun _ e => by cases e) fun e => by cases e
        · obtain rfl := Option.some.inj hs
          have hheld : CopiesInv (s.setJob j { s.job j with pc := .held, copy := .issued true }) :=
            h.setJob (fun _ _ => .inl rfl) (fun _ e => by cases e) fun _ k ok hk hpc _ => hother k ok hk hpc
          exact hheld.congr rfl rfl
      · next hok =>
        obtain rfl := Option.some.inj hs
        obtain ⟨rfl, hempty⟩ := hr (Bool.eq_false_of_not_eq_true hok)
        exact h.setJob (fun _ e => by simp at e) (fun _ _ hlast k hk hheld => absurd hheld (hempty j ht hlast k hk))
          fun e => by cases e
    · cases hs
  | sync ok =>
    simp only [Mooncake.transferStep] at hs
    obtain rfl : ok = true := hr
    split at hs
    · next hpc =>
      split at hs
      · split at hs
        · obtain rfl := Option.some.inj hs
          -- every copy has ended, and the holder is empty
          refine ⟨fun k whole hk e => ?_, fun k ok hk hpc hlast i hi e => ?_⟩
          · rw [(clearHolder_job k).2.2.1] at e
            simp only [Queues.syncCopies] at e
            split at e
            · cases e
            · next hno => exact absurd e (hno whole)
          · rw [(clearHolder_job i).2.2.2] at e
            split at e
            · cases e
            · next hno => exact hno e
        · cases hs
      · next hok => exact absurd rfl hok
    · cases hs
  | finish =>
    simp only [Mooncake.transferStep] at hs
    split at hs
    · next ok hpc =>
      obtain rfl := Option.some.inj hs
      have hempty := h.holder j ok hj hpc
      have hself : ∀ whole, (s.job j).copy ≠ .issued whole := by
        intro whole e
        rcases h.issued j whole hj e with e' | e' <;> rw [hpc] at e' <;> cases e'
      split
      · next hlast =>
        have hcleared : ∀ k, k < s.nJob → s.clearHolder.job k = s.job k := fun k hk => if_neg (hempty hlast k hk)
        have hdropped : (Function.update s.clearHolder.job j { s.clearHolder.job j with pc := .dropped } j) =
            { s.job j with pc := .dropped } := by
          rw [Function.update_self, hcleared j hj]
        refine h.one (j := j) rfl (fun k hk e => (Function.update_of_ne e ..).trans (hcleared k hk)) (fun whole e => ?_)
          (fun ok e => ?_) fun e => ?_
        · have e : (Function.update s.clearHolder.job j { s.clearHolder.job j with pc := .dropped } j).copy = .issued whole := e
          rw [hdropped] at e
          exact absurd e (hself whole)
        · have e : (Function.update s.clearHolder.job j { s.clearHolder.job j with pc := .dropped } j).pc = .finishing ok := e
          rw [hdropped] at e
          cases e
        · have e : (Function.update s.clearHolder.job j { s.clearHolder.job j with pc := .dropped } j).pc = .held := e
          rw [hdropped] at e
          cases e
      · have hdropped : CopiesInv (s.setJob j { s.job j with pc := .dropped }) :=
          h.setJob (fun whole e => absurd e (hself whole)) (fun _ e => by cases e) fun e => by cases e
        exact hdropped.congr rfl rfl
    · cases hs

theorem step_copiesInv (h : CopiesInv s) (hq : QueuesInv s) (hw : WritesEnd C s l) (hr : ReadsEnd s l)
    (hs : queueStep C s l = some s') :
    CopiesInv s' := by
  cases l with
  | transfer l =>
    simp only [queueStep] at hs
    split at hs
    · next j ht => exact h.transferStep hq.jobs ht hw hr hs
    · cases hs
  | loader l =>
    simp only [queueStep] at hs
    split at hs
    · next t ht =>
      have hf := hq.loader_frame ht hs
      have hold := hf.job.2
      have hnew : ∀ j, s.nJob ≤ j → j < s'.nJob → (s'.job j).copy = .none ∧ (s'.job j).pc = .queued := by
        intro j hle hlt
        obtain ⟨i, p, b, -, e, -⟩ := hf.pushed j hle hlt
        rw [e]
        exact ⟨rfl, rfl⟩
      have hcases : ∀ j, j < s'.nJob → j < s.nJob ∨ (s'.job j).copy = .none ∧ (s'.job j).pc = .queued := fun j hj =>
        (Nat.lt_or_ge j s.nJob).imp id fun hle => hnew j hle hj
      refine ⟨fun j whole hj e => ?_, fun j ok hj hpc hlast k hk e => ?_⟩
      · rcases hcases j hj with hlt | ⟨hnone, -⟩
        · rw [hold j hlt] at e ⊢
          exact h.issued j whole hlt e
        · cases hnone.symm.trans e
      · rcases hcases j hj with hlt | ⟨-, hqueued⟩
        · rcases hcases k hk with hlt' | ⟨-, hqueued⟩
          · rw [hold j hlt] at hpc hlast
            rw [hold k hlt'] at e
            exact h.holder j ok hlt hpc hlast k hlt' e
          · cases hqueued.symm.trans e
        · cases hqueued.symm.trans hpc
    · cases hs
  | dumper l =>
    simp only [queueStep] at hs
    split at hs
    · next t ht =>
      obtain ⟨-, hn, hj, -⟩ := (dumper_frame ht hs).rest
      exact h.congr hj hn
    · cases hs
  | take =>
    simp only [queueStep] at hs
    split at hs
    · next hc =>
      have hpc := (hq.jobs.queued s.head hc.1).mpr le_rfl
      have hcopy : (s.job s.head).copy = .none := by
        have hx := hq.jobs.ok s.head hc.1
        simp only [Job.Ok, hpc] at hx
        exact hx
      have hgo : ∀ x : Job, x.copy = .none → x.pc = .dropped ∨ x.pc = .waiting → CopiesInv (s.setJob s.head x) := by
        intro x hx hpc'
        refine h.setJob (fun whole e => ?_) (fun ok e => ?_) fun e => ?_
        · cases hx.symm.trans e
        · rcases hpc' with e' | e' <;> cases e'.symm.trans e
        · rcases hpc' with e' | e' <;> cases e'.symm.trans e
      split at hs
      · obtain rfl := Option.some.inj hs
        split <;> exact (hgo { s.job s.head with pc := .dropped } hcopy (.inl rfl)).congr rfl rfl
      · obtain rfl := Option.some.inj hs
        exact (hgo { s.job s.head with pc := .waiting } hcopy (.inr rfl)).congr rfl rfl
    · cases hs
  | endLoad j ok =>
    simp only [queueStep] at hs
    split at hs
    · next hc =>
      obtain rfl := Option.some.inj hs
      refine h.setJob (fun whole e => h.issued j whole hc.1 e) (fun ok e hlast k hk hheld => ?_) fun e k ok hk hpc hlast => ?_
      · exact absurd hheld (h.holder j ok hc.1 e hlast k hk)
      · exact absurd e (h.holder k ok hk hpc hlast j hc.1)
    · cases hs
  | submit type n full =>
    obtain rfl := Option.some.inj hs
    split
    · exact h.congr rfl rfl
    · exact h.congr rfl rfl
  | wait l =>
    obtain ⟨w, -, rfl⟩ := Option.map_eq_some_iff.mp hs
    exact h.congr rfl rfl
  | takeLoad t =>
    simp only [queueStep] at hs
    split at hs
    · split at hs
      · obtain rfl := Option.some.inj hs
        exact h.congr rfl rfl
      · obtain rfl := Option.some.inj hs
        exact h.congr rfl rfl
    · cases hs
  | _ =>
    simp only [queueStep] at hs
    split at hs
    · obtain rfl := Option.some.inj hs
      exact h.congr rfl rfl
    · cases hs

/-! ## Tasks whose copies are to come -/

/-- A task of which a shard is to be copied is still waited for. -/
def OpenInv (s : Queues Byte) : Prop :=
  ∀ j, j < s.nJob → (s.job j).pc.uncopied = true → s.wrapper.counter (s.job j).task ≠ 0

theorem OpenInv.transferStep {j : Nat} {l : TransferLabel} (h : OpenInv s) (hq : QueuesInv s) (hta : TasksInv s)
    (ht : s.transfer = some j)
    (hs : transferStep C s j l = some s') : OpenInv s' := by
  have hf := hq.transfer_frame ht hs
  have hj := hq.jobs.transfer_lt j ht
  obtain ⟨-, -, -, hn, -⟩ := hf.rest
  -- its copy is to come only if it was
  have hself : (s'.job j).pc.uncopied = true → (s.job j).pc.uncopied = true := by
    cases l <;> simp only [Mooncake.transferStep] at hs <;> (repeat' split at hs) <;> first | cases hs; done | skip
    all_goals
      obtain rfl := Option.some.inj hs
      simp only [Queues.failUnless, Queues.done, Queues.clearHolder, Queues.syncCopies, Queues.dropJob, Queues.setJob,
        Queues.setOwner]
      grind [JobPc.uncopied]
  intro k hk hpc
  rw [hn] at hk
  have hpck : (s.job k).pc.uncopied = true := by
    by_cases e : k = j
    · subst e
      exact hself hpc
    · rcases (hf.other k e).1 with e' | ⟨-, e'⟩
      · rw [e'] at hpc
        exact hpc
      · rw [e'] at hpc
        cases hpc
  rw [(hf.job k).1]
  rcases hf.counter (s.job k).task with e | ⟨hlast, htask, hcop, -⟩
  · rw [e]
    exact h k hk hpck
  · exfalso
    have hne : k ≠ j := by
      intro e
      subst e
      rw [hpck] at hcop
      cases hcop
    have hhead : j ≤ s.head := by
      by_contra hlt
      have e := (hq.jobs.queued j hj).mpr (by omega)
      rw [e] at hcop
      cases hcop
    rw [hta.settled hq.jobs hhead (.inr ht) hlast hk hne htask] at hpck
    cases hpck

theorem OpenInv.loaderStep {t : Nat} {l : LoaderLabel} (h : OpenInv s) (hq : QueuesInv s) (hta : TasksInv s)
    (ht : s.loader = some t)
    (hr : ReadsEnd s (.loader l)) (hs : loaderStep C s t l = some s') : OpenInv s' := by
  have hf := hq.loader_frame ht hs
  -- the task is counted down only with no shard of it to be copied
  have hdown : ∀ t', s'.wrapper.counter t' = s.wrapper.counter t' ∨
      t' = t ∧ s'.nJob = s.nJob ∧ ∀ j, j < s.nJob → (s.job j).task = t → (s.job j).pc.uncopied = false := by
    intro t'
    rcases loader_down hta hs t' with e | ⟨e, hn, hno | ⟨rfl | rfl, -⟩⟩
    · exact .inl e
    · exact .inr ⟨e, hn, fun j hj htask => absurd htask (hno j hj)⟩
    · exact .inr ⟨e, hn, hr t ht⟩
    · exact .inr ⟨e, hn, hr t ht⟩
  intro j hj hpc
  by_cases hlt : j < s.nJob
  · rw [hf.job.2 j hlt] at hpc ⊢
    rcases hdown (s.job j).task with e | ⟨e, -, hno⟩
    · rw [e]
      exact h j hlt hpc
    · rw [hno j hlt e] at hpc
      cases hpc
  · -- the shard that is pushed is one that the waiter waits for
    obtain ⟨i, p, b, hacq, e, -⟩ := hf.pushed j (Nat.le_of_not_lt hlt) hj
    rw [e]
    dsimp only
    rcases hdown t with e' | ⟨-, e', -⟩
    · rw [e']
      exact hta.pushed_up ht hacq
    · rw [e'] at hj
      exact absurd hj hlt

theorem OpenInv.congr (h : OpenInv s) (hjob : s'.job = s.job) (hn : s'.nJob = s.nJob)
    (hc : ∀ t, s'.wrapper.counter t = s.wrapper.counter t ∨ ∀ j, j < s.nJob → (s.job j).task ≠ t) : OpenInv s' := by
  intro j hj hpc
  rw [hn] at hj
  rw [hjob] at hpc ⊢
  rcases hc (s.job j).task with e | hno
  · rw [e]
    exact h j hj hpc
  · exact absurd rfl (hno j hj)

theorem step_openInv (h : OpenInv s) (hq : QueuesInv s) (hta : TasksInv s) (hr : ReadsEnd s l) (hs : queueStep C s l = some s') :
    OpenInv s' := by
  cases l with
  | transfer l =>
    simp only [queueStep] at hs
    split at hs
    · next j ht => exact h.transferStep hq hta ht hs
    · cases hs
  | loader l =>
    simp only [queueStep] at hs
    split at hs
    · next t ht => exact h.loaderStep hq hta ht hr hs
    · cases hs
  | dumper l =>
    simp only [queueStep] at hs
    split at hs
    · next t ht =>
      have hf := dumper_frame ht hs
      obtain ⟨-, hn, hj, -⟩ := hf.rest
      refine h.congr hj hn fun t' => ?_
      by_cases e : t' = t
      · right
        intro j hlt e
        subst e
        have htype := (hta.job j hlt).2.1
        rw [e, (hq.dispatch.dumper t ht).2.1] at htype
        cases htype
      · exact .inl (hf.counter.2 t' e).1
    · cases hs
  | submit type n full =>
    obtain rfl := Option.some.inj hs
    have hnew : ∀ j, j < s.nJob → (s.job j).task ≠ s.wrapper.nTask := fun j hj => (hta.job j hj).1.ne
    split
    · refine h.congr rfl rfl fun t => ?_
      by_cases e : t = s.wrapper.nTask
      · rw [e]
        exact .inr hnew
      · left
        simp [Queues.setPc, Queues.done, Queues.failUnless, e]
    · refine h.congr rfl rfl fun t => ?_
      by_cases e : t = s.wrapper.nTask
      · rw [e]
        exact .inr hnew
      · left
        simp [e]
  | wait l =>
    obtain ⟨w, hw, rfl⟩ := Option.map_eq_some_iff.mp hs
    exact h.congr rfl rfl fun t => .inl (congrFun (waitStep_keeps hw).counter t)
  | takeLoad t =>
    simp only [queueStep] at hs
    split at hs
    · next hc =>
      split at hs
      · obtain rfl := Option.some.inj hs
        refine h.congr rfl rfl fun t' => ?_
        by_cases e : t' = t
        · right
          intro j hj htask
          rw [e] at htask
          exact (hta.job j hj).2.2.1 (htask ▸ hc.2.2.1)
        · left
          simp [Queues.setPc, Queues.done, e]
      · obtain rfl := Option.some.inj hs
        exact h.congr rfl rfl fun _ => .inl rfl
    · cases hs
  | take =>
    simp only [queueStep] at hs
    split at hs
    · next hc =>
      split at hs
      · obtain rfl := Option.some.inj hs
        intro k hk hpc
        by_cases e : k = s.head
        · exfalso
          subst e
          split at hpc <;> simp [Queues.dropJob, Queues.setJob, JobPc.uncopied] at hpc
        · have hjob : ∀ x, Function.update s.job s.head x k = s.job k := fun x => Function.update_of_ne e ..
          split
          · next hlast =>
            rw [if_pos hlast] at hk hpc
            have hpc : (Function.update s.job s.head _ k).pc.uncopied = true := hpc
            show (s.wrapper.done _).counter (Function.update s.job s.head _ k).task ≠ 0
            rw [hjob] at hpc ⊢
            rw [TaskWrapper.done_counter, if_neg]
            · exact h k hk hpc
            · intro htask
              rw [hta.settled hq.jobs le_rfl (.inl hc.2) hlast hk e htask] at hpc
              cases hpc
          · next hlast =>
            rw [if_neg hlast] at hk hpc
            have hpc : (Function.update s.job s.head _ k).pc.uncopied = true := hpc
            show s.wrapper.counter (Function.update s.job s.head _ k).task ≠ 0
            rw [hjob] at hpc ⊢
            exact h k hk hpc
      · obtain rfl := Option.some.inj hs
        have hpc := (hq.jobs.queued s.head hc.1).mpr le_rfl
        unfold OpenInv at h ⊢
        simp only [Queues.setJob]
        grind [JobPc.uncopied]
    · cases hs
  | endLoad j ok =>
    simp only [queueStep] at hs
    split at hs
    · obtain rfl := Option.some.inj hs
      unfold OpenInv at h ⊢
      simp only [Queues.setJob]
      grind
    · cases hs
  | _ =>
    simp only [queueStep] at hs
    split at hs
    · obtain rfl := Option.some.inj hs
      exact h.congr rfl rfl fun _ => .inl rfl
    · cases hs

/-! ## The buffers -/

/-- The step issues a copy into a destination of the task. -/
def Copies (s : Queues Byte) (t : Nat) : QueueLabel Byte → Prop
  | .loader (.get _) => s.loader = some t
  | .transfer (.copy ok left) => (ok = true ∨ left = true) ∧ ∃ j, s.transfer = some j ∧ (s.job j).task = t
  | _ => False

/-- Nothing writes to a free buffer or reads one, and a task that was waited for is left alone. -/
structure BuffersIdle (C : QueueConfig Byte) (s : Queues Byte) : Prop where
  load : ∀ j, j < s.nJob → (s.job j).load = .running → s.owner (s.job j).buf ≠ .free
  copy : ∀ j whole, j < s.nJob → (s.job j).copy = .issued whole → s.owner (s.job j).buf ≠ .free
  gather : ∀ b, s.gather b = true → s.owner b ≠ .free
  dump : ∀ t b, s.dumpOp t = .running → s.reads t b = true → s.owner b ≠ .free
  quiet : ∀ t l s', s.wrapper.wait t = .returned → queueStep C s l = some s' → ¬ Copies s t l

/-- What the runs that avoid the failing branches keep. -/
structure CarefulInv (C : QueueConfig Byte) (s : Queues Byte) : Prop where
  queues : QueuesInv s
  tasks : TasksInv s
  dumps : DumpsInv s
  gather : GatherInv C s
  loads : LoadsInv s
  copies : CopiesInv s
  waiter : OpenInv s

theorem init_carefulInv (h : s.IsInit) : CarefulInv C s := by
  have hq := init_queuesInv h
  have hta := init_tasksInv h
  obtain ⟨-, -, -, hn, -, -, hdump, hop, hg⟩ := h
  have hno : ∀ j, ¬ j < s.nJob := fun j hj => by rw [hn] at hj; cases hj
  refine ⟨hq, hta, ⟨fun t ht => absurd (hop t) ht, fun t ht => ?_⟩, ⟨fun t i b missing ht => ?_, fun b hb => ?_⟩,
    fun j hj => absurd hj (hno j), ⟨fun j _ hj => absurd hj (hno j), fun j _ hj => absurd hj (hno j)⟩,
    fun j hj => absurd hj (hno j)⟩
  · rw [hop t] at ht
    cases ht
  · rw [hdump] at ht
    cases ht
  · rw [hg b] at hb
    cases hb

theorem step_carefulInv (h : CarefulInv C s) (hok : Careful C s l) (hs : queueStep C s l = some s') : CarefulInv C s' := by
  obtain ⟨hq, hta, hd, hg, hl, hc, hw⟩ := h
  obtain ⟨hwrites, hreads⟩ := hok
  exact ⟨step_queuesInv hq hs, step_tasksInv hta hq hs, step_dumpsInv hd hq hwrites hs, step_gatherInv hg hq hd hwrites hs,
    step_loadsInv hl hq hwrites hs,
    step_copiesInv hc hq hwrites hreads hs, step_openInv hw hq hta hreads hs⟩

theorem CarefulInv.idle (h : CarefulInv C s) : BuffersIdle C s := by
  obtain ⟨hq, hta, hd, hg, hl, hc, hw⟩ := h
  -- a job that is still somewhere has its buffer
  have hhas : ∀ j, j < s.nJob → (s.job j).pc ≠ .dropped → s.owner (s.job j).buf ≠ .free := by
    intro j hj hpc
    rw [hq.jobs.owner j hj hpc]
    nofun
  refine ⟨fun j hj hrun => ?_, fun j whole hj hcopy => ?_, fun b hb => ?_, fun t b ht hb => ?_, fun t l s' ht hs hcop => ?_⟩
  · apply hhas j hj
    rcases hl j hj hrun with e | e <;> rw [e] <;> nofun
  · apply hhas j hj
    rcases hc.issued j whole hj hcopy with e | e <;> rw [e] <;> nofun
  · obtain ⟨-, t, -, e, -⟩ := hg.gather b hb
    rw [e]
    nofun
  · rw [hd.reads t ht b hb]
    nofun
  · have hz := hta.returned t ht
    cases l with
    | loader l =>
      cases l with
      | get results =>
        have hload : s.loader = some t := hcop
        simp only [queueStep, hload, loaderStep] at hs
        split at hs
        · next hpc => exact hta.up_getting t hload hpc hz
        · cases hs
      | _ => exact hcop
    | transfer l =>
      cases l with
      | copy ok left =>
        obtain ⟨-, j, hj, rfl⟩ := hcop
        simp only [queueStep, hj, transferStep] at hs
        split at hs
        · next hpc =>
          apply hw j (hq.jobs.transfer_lt j hj) _ hz
          rw [hpc]
          rfl
        · cases hs
      | _ => exact hcop
    | _ => exact hcop

theorem buffers_idle (h : Reach (hostQueues C) (Careful C) s) : BuffersIdle C s := by
  apply CarefulInv.idle
  exact h.inv (I := CarefulInv C) (fun _ => init_carefulInv) fun _ _ _ hi hok hs => step_carefulInv hi hok hs

/-! ## Runs -/

/-- A pool beside a backend, and shards of one byte. -/
def ofBuffers (count : Nat) : QueueConfig Bool := ⟨count, true, 1, fun _ _ _ => true⟩

def noTasks : Queues Bool where
  wrapper := .init
  task _ := ⟨.load, 0, fun _ => false, .left⟩
  owner _ := .free
  loader := none
  nJob := 0
  job _ := ⟨0, 0, 0, false, .dropped, .ended false, .none⟩
  head := 0
  transfer := none
  dumper := none
  dumpOp _ := .none
  reads _ _ := false
  gather _ := false
  host _ _ := false
  dest _ _ _ := false
  got _ _ := false
  moved _ _ := false

theorem noTasks_isInit : noTasks.IsInit := ⟨rfl, fun _ => rfl, rfl, rfl, rfl, rfl, rfl, fun _ => rfl, fun _ => rfl⟩

/-- Nothing fails before the step, or with it. -/
def succeeds (s : Queues Bool) : QueueLabel Bool → Bool
  | .take => !s.wrapper.failureSet (s.job s.head).task
  | .transfer .backendWait => s.transfer.all fun j => (s.job j).load != .ended false
  | .transfer (.copy ok _) | .transfer (.sync ok) | .loader (.load ok) | .dumper (.gather ok _) | .dumper (.put ok) | .dumper
      (.sync ok) => ok
  | .loader (.acquire b) => b.isSome
  | .transfer .backendTimeout | .dumpTimeout _ => false
  | _ => true

theorem succeeds_ok {C : QueueConfig Bool} {s : Queues Bool} {l : QueueLabel Bool} (h : succeeds s l = true) : Careful C s l := by
  constructor
  · cases l with
    | take =>
      intro _ hfail
      simp [succeeds, hfail] at h
    | dumper l => cases l <;> simp_all [succeeds, WritesEnd]
    | transfer l => cases l <;> simp_all [succeeds, WritesEnd]
    | dumpTimeout t => cases h
    | _ => trivial
  · cases l with
    | transfer l =>
      cases l with
      | backendWait =>
        intro j hj _ hload
        simp [succeeds, hj, hload] at h
      | _ => simp_all [succeeds, ReadsEnd]
    | loader l =>
      cases l with
      | acquire b => cases b <;> simp_all [succeeds, ReadsEnd]
      | load ok => cases ok <;> simp_all [succeeds, ReadsEnd]
      | _ => trivial
    | _ => trivial

/-- A shard that is copied, another that is loaded, and a dump that reads a buffer. -/
def busy : List (QueueLabel Bool) :=
  [.submit .load 2 false, .submit .dump 1 false, .takeDump 1, .dumper (.check true), .dumper (.event true),
    .dumper (.acquire (some 0)),
    .dumper (.gather true false), .gatherMove 0 0 true, .dumper .prepared, .dumper (.put true), .dumper (.sync true),
    .dumper (.dump true),
    .takeLoad 0, .loader (.get (some fun _ => false)), .loader (.acquire (some 1)), .loader (.load true),
    .loader (.acquire (some 2)),
    .loader (.load true), .take, .write 0 0, .endLoad 0 true, .transfer .backendWait, .transfer (.copy true false), .take]

theorem buffers_idle_busy :
    ∃ s : Queues Bool, ((s.job 0).copy = .issued true ∧ (s.job 1).load = .running ∧ s.dumpOp 1 = .running ∧ s.reads 1 0 = true) ∧
      BuffersIdle (ofBuffers 3) s := by
  have hrun := exists_of_replayOk (S := hostQueues (ofBuffers 3)) succeeds (fun _ _ => succeeds_ok (C := ofBuffers 3)) busy
      (s := noTasks)
    (p := fun s => decide ((s.job 0).copy = .issued true ∧ (s.job 1).load = .running ∧ s.dumpOp 1 = .running ∧
      s.reads 1 0 = true))
    noTasks_isInit (by decide)
  obtain ⟨s, hr, hp⟩ := hrun
  exact ⟨s, of_decide_eq_true hp, buffers_idle hr⟩

/-- The `Wait` of a task times out before its shard is taken: the buffer that its load writes to is given back. -/
def skipped : List (QueueLabel Bool) :=
  [.submit .load 1 false, .takeLoad 0, .loader (.get (some fun _ => false)), .loader (.acquire (some 0)), .loader (.load true),
    .wait (.call 0), .wait (.timeout 0), .take]

theorem skipped_load_writes : ∃ s, Reach (hostQueues (ofBuffers 2)) Any s ∧ ¬ BuffersIdle (ofBuffers 2) s := by
  obtain ⟨s, hr, hp⟩ := exists_of_replay (S := hostQueues (ofBuffers 2)) skipped (s := noTasks)
    (p := fun s => decide (0 < s.nJob ∧ (s.job 0).load = .running ∧ s.owner (s.job 0).buf = .free)) noTasks_isInit (by decide)
  obtain ⟨hj, hload, hfree⟩ := of_decide_eq_true hp
  exact ⟨s, hr, fun h => h.load 0 hj hload hfree⟩

/-- The backend's `Wait` times out for a load, and for a dump: the buffers are given back under them. -/
def timedOut : List (QueueLabel Bool) :=
  [.submit .load 1 false, .submit .dump 1 false, .takeLoad 0, .loader (.get (some fun _ => false)), .loader (.acquire (some 0)),
    .loader (.load true),
    .take, .transfer .backendTimeout, .transfer .finish, .takeDump 1, .dumper (.check true), .dumper (.event true),
    .dumper (.acquire (some 1)),
    .dumper (.gather true false), .dumper .prepared, .dumper (.put true), .dumper (.sync true), .dumper (.dump true),
    .dumpTimeout 1]

theorem timed_out_load_writes : ∃ s, Reach (hostQueues (ofBuffers 2)) Any s ∧
    (0 < s.nJob ∧ (s.job 0).load = .running ∧ s.owner (s.job 0).buf = .free) ∧ s.dumpOp 1 = .running ∧ s.reads 1 1 = true ∧
    s.owner 1 = .free := by
  obtain ⟨s, hr, hp⟩ := exists_of_replay (S := hostQueues (ofBuffers 2)) timedOut (s := noTasks)
    (p := fun s => decide ((0 < s.nJob ∧ (s.job 0).load = .running ∧ s.owner (s.job 0).buf = .free) ∧ s.dumpOp 1 = .running ∧
      s.reads 1 1 = true ∧
      s.owner 1 = .free)) noTasks_isInit (by decide)
  exact ⟨s, hr, of_decide_eq_true hp⟩

/-- The last shard fails, and the holder is cleared with the copy of the first under way. -/
def cleared : List (QueueLabel Bool) :=
  [.submit .load 2 false, .takeLoad 0, .loader (.get (some fun _ => false)), .loader (.acquire (some 0)), .loader (.load true),
    .loader (.acquire (some 1)), .loader (.load true), .take, .write 0 0, .endLoad 0 true, .transfer .backendWait,
    .transfer (.copy true false),
    .take, .endLoad 1 false, .transfer .backendWait, .transfer .finish]

theorem cleared_copy_reads : ∃ s, Reach (hostQueues (ofBuffers 2)) Any s ∧ ∃ j whole, j < s.nJob ∧
    (s.job j).copy = .issued whole ∧
    s.owner (s.job j).buf = .free := by
  obtain ⟨s, hr, hp⟩ := exists_of_replay (S := hostQueues (ofBuffers 2)) cleared (s := noTasks)
    (p := fun s => decide (0 < s.nJob ∧ (s.job 0).copy = .issued true ∧ s.owner (s.job 0).buf = .free)) noTasks_isInit (by decide)
  obtain ⟨hj, hcopy, hfree⟩ := of_decide_eq_true hp
  exact ⟨s, hr, 0, true, hj, hcopy, hfree⟩

/-- The put fails, and the buffer goes before the copy to it is synchronised. -/
def unsynchronised : List (QueueLabel Bool) :=
  [.submit .dump 1 false, .takeDump 0, .dumper (.check true), .dumper (.event true), .dumper (.acquire (some 0)),
    .dumper (.gather true false),
    .dumper .prepared, .dumper (.put false)]

theorem failed_dump_writes : ∃ s, Reach (hostQueues (ofBuffers 2)) Any s ∧ ∃ b, s.gather b = true ∧ s.owner b = .free := by
  obtain ⟨s, hr, hp⟩ := exists_of_replay (S := hostQueues (ofBuffers 2)) unsynchronised (s := noTasks)
    (p := fun s => decide (s.gather 0 = true ∧ s.owner 0 = .free)) noTasks_isInit (by decide)
  exact ⟨s, hr, 0, of_decide_eq_true hp⟩

/-- No buffer is left for the second shard: `Wait` returns, and then the first is copied. -/
def ended : List (QueueLabel Bool) :=
  [.submit .load 2 false, .takeLoad 0, .loader (.get (some fun _ => false)), .loader (.acquire (some 0)), .loader (.load true),
    .loader (.acquire none), .wait (.call 0), .wait (.finished 0), .take, .write 0 0, .endLoad 0 true, .transfer .backendWait]

theorem ended_task_copied : ∃ s, Reach (hostQueues (ofBuffers 2)) Any s ∧ ∃ t l s', s.wrapper.wait t = .returned ∧
    queueStep (ofBuffers 2) s l = some s' ∧ Copies s t l := by
  obtain ⟨s, hr, hp⟩ := exists_of_replay (S := hostQueues (ofBuffers 2)) ended (s := noTasks)
    (p := fun s => decide (s.wrapper.wait 0 = .returned ∧ s.transfer = some 0 ∧ (s.job 0).pc = .copying ∧ (s.job 0).task = 0 ∧
      (s.job 0).last = false))
    noTasks_isInit (by decide)
  obtain ⟨hw, ht, hpc, htask, hlast⟩ := of_decide_eq_true hp
  have hs : queueStep (ofBuffers 2) s (.transfer (.copy true false)) =
      some { s.setJob 0 { s.job 0 with pc := .held, copy := .issued true } with transfer := none } := by
    simp only [queueStep, ht, transferStep, hpc, hlast]
    rfl
  exact ⟨s, hr, 0, _, _, hw, hs, .inl rfl, 0, ht, htask⟩

end UnifiedCache.Mooncake
