/-
  UnifiedCache.PcStore.TransRuns — the completion of the PcStore's tasks
  (see `UnifiedCache.PcStore.TransQueue`).

  In the runs within `CountsOnce` each block counts its waiter down once (`reach_runInv`), the
  queue's own threads can always go on while a waiter is above zero and stop some time
  (`own_step_shrinks`), so that `Wait` returns, and no copy of a load is running once it has
  (`task_completion`).

  `CountsOnce` leaves out three things: a dump of several blocks whose copies fail, which counts
  one of them; a block that the monitor counts for and whose file worker comes back, or had
  counted; a device copy that fails with some of its addresses still being copied.
-/

import UnifiedCache.PcStore.TransQueue
import Mathlib.Algebra.BigOperators.Group.Finset.Basic
import Mathlib.Algebra.Order.BigOperators.Group.Finset

namespace UnifiedCache.PcStore

open UnifiedCache.Base UnifiedCache.Detail

variable {shared : Bool} {s s' : Trans} {l : TransLabel}

/-- The task has one block at most. -/
def Trans.Single (s : Trans) (t : Nat) : Prop :=
  ∀ u v, u < s.nBlock → v < s.nBlock → (s.block u).task = t → (s.block v).task = t → u = v

/-- The runs in which a block is counted once, and a copy that failed has left nothing. -/
def CountsOnce (s : Trans) : TransLabel → Prop
  | .sync t false => s.Single t
  | .block u .look => (s.block u).phase = .devHeld → (s.block u).timed = .ended → s.marked u = true
  | .block u .done => (s.block u).timed = .ended → s.wrapper.counter (s.block u).task = 0
  | .block u .timeoutDone =>
    (s.block u).kind ≠ .dump → (s.block u).phase ≠ .copying ∧
    ((s.block u).phase = .ended → s.wrapper.counter (s.block u).task = 0)
  | .block _ (.copy _ left) => left = false
  | _ => True

/-! ## The invariant -/

/-- No file worker has had the block. -/
def Phase.unheld : Phase → Bool
  | .undispatched | .queued | .waiting | .taken | .asking | .loading | .ready _ => true
  | _ => false

/-- What holds of a block, `d` being where the dispatch of its task is. -/
structure BlockInv (d : DispatchPc) (x : Block) : Prop where
  timed : x.kind ≠ .dump → x.timed = .ended → x.counted = 1
  ended : x.kind ≠ .dump → x.phase = .ended → x.counted = 1
  pending : x.kind ≠ .dump → x.timed ≠ .ended → x.phase ≠ .ended → x.counted = 0
  copying : x.phase = .copying → x.timed ≠ .ended
  unheld : x.phase.unheld = true → x.current = false ∧ x.timed = .no
  left : x.left = false
  told : x.kind = .dump → x.counted = if x.told then 1 else 0
  dump : x.kind = .dump → x.phase = .undispatched ∨ x.phase = .queued ∨ x.phase = .held ∨ x.phase = .passed ∨ x.phase = .ended
  unsynced : x.kind = .dump → d ≠ .synced → x.phase = .undispatched
  untold : x.kind = .dump → (x.phase = .undispatched ∧ d ≠ .returned → x.told = false) ∧
      (d = .returned → x.told = true) ∧ d ≠ .loops

def Acc (s : Trans) : Prop :=
  Accounted s.wrapper s.nBlock (fun u => (s.block u).task) (fun u => decide ((s.block u).counted = 0)) (fun _ => false)
    fun u => (s.block u).counted

structure RunInv (s : Trans) : Prop where
  acc : Acc s
  block : ∀ u, u < s.nBlock → BlockInv (s.dispatch (s.block u).task) (s.block u)
  single : ∀ t, s.dispatch t = .failed ∨ s.dispatch t = .returned → s.Single t

namespace Trans

@[simp] theorem setBlock_self (u : Nat) (x : Block) : (s.setBlock u x).block u = x := Function.update_self ..

@[simp] theorem setBlock_of_ne {u v : Nat} (x : Block) (h : v ≠ u) : (s.setBlock u x).block v = s.block v :=
  Function.update_of_ne h ..

end Trans

section Moves

variable {u : Nat} {x : Block} {w : TaskWrapper}

/-- The tasks of the blocks are the same. -/
theorem single_setBlock (ht : x.task = (s.block u).task) {t : Nat} (h : s.Single t) : (s.setBlock u x).Single t := by
  have hsame : ∀ v, ((s.setBlock u x).block v).task = (s.block v).task := by
    intro v
    by_cases e : v = u
    · subst e
      rw [Trans.setBlock_self, ht]
    · rw [Trans.setBlock_of_ne x e]
  intro v v' hv hv' h1 h2
  exact h v v' hv hv' ((hsame v).symm.trans h1) ((hsame v').symm.trans h2)

/-- A block changes and does not count; marks may change. -/
theorem RunInv.setBlock (h : RunInv s) (ht : x.task = (s.block u).task) (hc : x.counted = (s.block u).counted)
    (hn : w.nTask = s.wrapper.nTask) (hw : w.counter = s.wrapper.counter) (hp : w.wait = s.wrapper.wait)
    (hx : u < s.nBlock → BlockInv (s.dispatch x.task) x) : RunInv { s.setBlock u x with wrapper := w } := by
  refine ⟨?_, fun v hv => ?_, fun t hd => single_setBlock ht (h.single t hd)⟩
  · refine h.acc.congr hn hw hp (fun v _ => ?_) (fun v _ => ?_) (fun _ _ => rfl) fun v _ => ?_
    all_goals by_cases e : v = u
    · subst e
      show ((s.setBlock v x).block v).task = _
      rw [Trans.setBlock_self, ht]
    · show ((s.setBlock u x).block v).task = _
      rw [Trans.setBlock_of_ne x e]
    · subst e
      show decide (((s.setBlock v x).block v).counted = 0) = _
      rw [Trans.setBlock_self, hc]
    · show decide (((s.setBlock u x).block v).counted = 0) = _
      rw [Trans.setBlock_of_ne x e]
    · subst e
      show ((s.setBlock v x).block v).counted = _
      rw [Trans.setBlock_self, hc]
    · show ((s.setBlock u x).block v).counted = _
      rw [Trans.setBlock_of_ne x e]
  · by_cases e : v = u
    · subst e
      show BlockInv (s.dispatch ((s.setBlock v x).block v).task) ((s.setBlock v x).block v)
      rw [Trans.setBlock_self]
      exact hx hv
    · show BlockInv (s.dispatch ((s.setBlock u x).block v).task) ((s.setBlock u x).block v)
      rw [Trans.setBlock_of_ne x e]
      exact h.block v hv

/-- A block calls `Done`, for the first time or on a waiter at zero. -/
theorem Acc.countDown (h : Acc s) (hu : u < s.nBlock) (ht : x.task = (s.block u).task) (hc : x.counted = (s.block u).counted)
    (hone : (s.block u).counted = 0 ∨ s.wrapper.counter (s.block u).task = 0) : Acc (s.countDown u x) := by
  have hself : (s.countDown u x).block u = { x with counted := x.counted + if 0 < s.wrapper.counter x.task then 1 else 0 } :=
    Function.update_self ..
  have hne : ∀ v, v ≠ u → (s.countDown u x).block v = s.block v := fun v hv => Function.update_of_ne hv ..
  have htask : ∀ v, v < s.nBlock → ((s.countDown u x).block v).task = (s.block v).task := by
    intro v _
    by_cases e : v = u
    · rw [e, hself, ht]
    · rw [hne v e]
  have hw : (s.countDown u x).wrapper = s.wrapper.done (s.block u).task := by
    rw [← ht]
    rfl
  by_cases hz : (s.block u).counted = 0
  · have hpos := Accounted.counter_pos h hu (decide_eq_true hz)
    have hone : ((s.countDown u x).block u).counted = 1 := by
      rw [hself, hc, hz, ht, if_pos hpos]
    refine Accounted.done h hu (decide_eq_true hz) rfl (by rw [hw]; rfl) (by rw [hw]) (by rw [hw]; rfl) htask ?_ (fun v _ e => ?_)
      (fun _ _ => rfl) hone fun v _ e => ?_
    · rw [hone]
      rfl
    · rw [hne v e]
    · rw [hne v e]
  · have hzero := hone.resolve_left hz
    have hcount : ∀ v, v < s.nBlock → ((s.countDown u x).block v).counted = (s.block v).counted := by
      intro v _
      by_cases e : v = u
      · rw [e, hself, hc, ht, hzero, if_neg (lt_irrefl 0), Nat.add_zero]
      · rw [hne v e]
    refine Accounted.congr h (by rw [hw]; rfl) ?_ (by rw [hw]; rfl) htask (fun v hv => by rw [hcount v hv])
      (fun _ _ => rfl) hcount
    funext t
    rw [hw, TaskWrapper.done_counter]
    split
    · next e => rw [e, hzero]
    · rfl

/-- A block that has counted is `counted` once. -/
theorem RunInv.counted_le (h : RunInv s) (hu : u < s.nBlock) : (s.block u).counted ≤ 1 := by
  rw [h.acc.counted u hu]
  split <;> omega

theorem RunInv.countDown (h : RunInv s) (hu : u < s.nBlock) (ht : x.task = (s.block u).task)
    (hc : x.counted = (s.block u).counted)
    (hone : (s.block u).counted = 0 ∨ s.wrapper.counter (s.block u).task = 0)
    (hx : BlockInv (s.dispatch x.task) { x with counted := 1 }) : RunInv (s.countDown u x) := by
  have hself : (s.countDown u x).block u = { x with counted := 1 } := by
    refine (Function.update_self ..).trans ?_
    rcases Nat.eq_zero_or_pos (s.block u).counted with hz | hpos
    · have hpos := Accounted.counter_pos h.acc hu (decide_eq_true hz)
      rw [hc, hz, ht, if_pos hpos]
    · have hzero := hone.resolve_left (by omega)
      have := h.counted_le hu
      rw [hc, ht, hzero, if_neg (lt_irrefl 0), Nat.add_zero, show (s.block u).counted = 1 by omega]
  have htask : ∀ v, ((s.countDown u x).block v).task = (s.block v).task := by
    intro v
    by_cases e : v = u
    · rw [e, hself, ht]
    · exact congrArg Block.task (Function.update_of_ne e ..)
  refine ⟨h.acc.countDown hu ht hc hone, fun v hv => ?_, fun t hd v v' hv hv' h1 h2 => ?_⟩
  · show BlockInv (s.dispatch ((s.countDown u x).block v).task) ((s.countDown u x).block v)
    by_cases e : v = u
    · rw [e, hself]
      exact hx
    · rw [show (s.countDown u x).block v = s.block v from Function.update_of_ne e ..]
      exact h.block v hv
  · exact h.single t hd v v' hv hv' ((htask v).symm.trans h1) ((htask v').symm.trans h2)

/-- A block moves on in the queues. -/
theorem RunInv.setPhase (h : RunInv s) {p : Phase} (hold : (s.block u).phase ≠ .ended)
    (hp : p ≠ .ended ∨ (s.block u).kind = .dump)
    (hcopy : p = .copying → (s.block u).timed ≠ .ended) (hunheld : p.unheld = true → (s.block u).phase.unheld = true)
    (hdump : (s.block u).kind = .dump → p = .queued ∨ p = .held ∨ p = .passed ∨ p = .ended)
    (hsync : (s.block u).kind = .dump → s.dispatch (s.block u).task = .synced ∨ (s.block u).phase ≠ .undispatched) :
    RunInv (s.setPhase u p) := by
  refine h.setBlock (x := { s.block u with phase := p }) rfl rfl rfl rfl rfl fun hu => ?_
  have hb := h.block u hu
  -- a dump's block is past the dispatch
  have hpast : (s.block u).kind = .dump → p ≠ .undispatched := by
    intro hk e
    rcases hdump hk with e' | e' | e' | e' <;> rw [e] at e' <;> cases e'
  refine ⟨hb.timed, fun hk e => ?_, fun hk ht _ => hb.pending hk ht hold, hcopy, fun e => hb.unheld (hunheld e), hb.left, hb.told,
    fun hk => .inr (hdump hk), fun hk hd => ?_, fun hk => ⟨fun e => absurd e.1 (hpast hk), (hb.untold hk).2⟩⟩
  · rcases hp with hp | hp
    · exact absurd e hp
    · exact absurd hp hk
  · rcases hsync hk with e | e
    · exact absurd e hd
    · exact absurd (hb.unsynced hk hd) e

/-- A load moves on in the queues. -/
theorem RunInv.setLoad (h : RunInv s) {p : Phase} (hk : (s.block u).kind ≠ .dump) (hold : (s.block u).phase ≠ .ended)
    (hp : p ≠ .ended)
    (hcopy : p = .copying → (s.block u).timed ≠ .ended) (hunheld : p.unheld = true → (s.block u).phase.unheld = true) :
    RunInv (s.setPhase u p) :=
  h.setPhase hold (.inl hp) hcopy hunheld (fun hd => absurd hd hk) fun hd => absurd hd hk

end Moves

/-! ## The steps -/

section Steps

variable {u : Nat}

/-- A block past its queue is a load's but in the hands of a file worker. -/
theorem BlockInv.load {d : DispatchPc} {x : Block} (h : BlockInv d x)
    (hp : x.phase ≠ .undispatched ∧ x.phase ≠ .queued ∧ x.phase ≠ .held ∧ x.phase ≠ .passed ∧ x.phase ≠ .ended) :
    x.kind ≠ .dump := by
  intro hk
  have := h.dump hk
  grind

theorem RunInv.look (h : RunInv s) (hu : u < s.nBlock) (hst : s.look u = some s') (hok : CountsOnce s (.block u .look)) :
    RunInv s' := by
  have hb := h.block u hu
  unfold Trans.look at hst
  split at hst
  · next hp =>
    split at hst
    · obtain rfl := Option.some.inj hst
      by_cases hk : (s.block u).kind = .dump
      · rw [if_pos hk]
        exact h.setPhase (by simp [hp]) (.inr hk) nofun nofun (fun _ => .inr (.inr (.inr rfl))) fun _ => .inr (by simp [hp])
      · rw [if_neg hk]
        exact h.setLoad hk (by simp [hp]) nofun nofun nofun
    · obtain rfl := Option.some.inj hst
      exact h.setPhase (by simp [hp]) (.inl nofun) nofun nofun (fun _ => .inr (.inr (.inl rfl))) fun _ => .inr (by simp [hp])
  · next hp =>
    obtain rfl := Option.some.inj hst
    have hk := hb.load (by simp [hp])
    cases hm : s.marked u with
    | true => exact h.setLoad hk (by simp [hp]) nofun nofun nofun
    | false =>
      refine h.setLoad hk (by simp [hp]) nofun (fun _ ht => ?_) nofun
      rw [hok hp ht] at hm
      cases hm
  · next hp =>
    obtain rfl := Option.some.inj hst
    have hk := hb.load (by simp [hp])
    cases s.marked u with
    | true => exact h.setLoad hk (by simp [hp]) nofun nofun nofun
    | false => exact h.setLoad hk (by simp [hp]) nofun nofun fun _ => by rw [hp]; rfl
  · next ok hp =>
    obtain rfl := Option.some.inj hst
    have hk := hb.load (by simp [hp])
    have hno := (hb.unheld (by rw [hp]; rfl)).2
    cases s.marked u <;> cases ok
    · exact h.setLoad hk (by simp [hp]) nofun nofun nofun
    · exact h.setLoad hk (by simp [hp]) nofun (fun _ => by rw [hno]; nofun) nofun
    · exact h.setLoad hk (by simp [hp]) nofun nofun nofun
    · exact h.setLoad hk (by simp [hp]) nofun nofun nofun
  · cases hst

theorem RunInv.dispatched (h : RunInv s) (hst : s.blockStep u .dispatch = some s') : RunInv s' := by
  simp only [Trans.blockStep] at hst
  split at hst
  · next hp hk =>
    obtain rfl := Option.some.inj hst
    exact h.setLoad (by simp [hk]) (by simp [hp]) nofun nofun fun _ => by rw [hp]; rfl
  · next hp hk =>
    obtain rfl := Option.some.inj hst
    exact h.setLoad (by simp [hk]) (by simp [hp]) nofun nofun fun _ => by rw [hp]; rfl
  · next hp hk =>
    simp only [Option.ite_none_right_eq_some, Option.some.injEq] at hst
    obtain ⟨hd, rfl⟩ := hst
    exact h.setPhase (by simp [hp]) (.inr hk) nofun (fun _ => by rw [hp]; rfl) (fun _ => .inl rfl) fun _ => .inl hd
  · cases hst

/-- A dump's block counts when it is told of, and is of no task that is still being dispatched. -/
theorem BlockInv.tells {d d' : DispatchPc} {x : Block} (h : BlockInv d x) (hk : x.kind = .dump) (hd : d' ≠ .loops)
    (hp : x.phase ≠ .undispatched ∨ d' = .returned) (hsync : d' ≠ .synced → x.phase = .undispatched) :
    BlockInv d' { x with told := true, counted := 1 } := by
  refine ⟨fun hne => absurd hk hne, fun hne => absurd hk hne, fun hne => absurd hk hne, h.copying, h.unheld, h.left,
    fun _ => rfl, h.dump,
    fun _ => hsync, fun _ => ⟨fun ⟨e, hno⟩ => ?_, fun _ => rfl, hd⟩⟩
  rcases hp with hp | hp
  · exact absurd e hp
  · exact absurd hp hno

/-- The dispatch counts a block of a dump. -/
theorem RunInv.toldOk (h : RunInv s) (hu : u < s.nBlock) (hst : s.blockStep u .told = some s') : RunInv s' := by
  simp only [Trans.blockStep, Option.ite_none_right_eq_some, Option.some.injEq] at hst
  obtain ⟨⟨hk, hp, ht⟩, rfl⟩ := hst
  have hb := h.block u hu
  have hz : (s.block u).counted = 0 := by
    rw [hb.told hk, ht]
    rfl
  refine h.countDown (x := { s.block u with told := true }) hu rfl rfl (.inl hz) ?_
  exact hb.tells hk (hb.untold hk).2.2 (.inl hp) (hb.unsynced hk)

/-- The copies of a dump have failed: one of its blocks is counted, which is to be the only one. -/
theorem RunInv.toldFailed (h : RunInv s) (hu : u < s.nBlock) (hst : s.blockStep u .toldFailed = some s') : RunInv s' := by
  simp only [Trans.blockStep, Option.ite_none_right_eq_some, Option.some.injEq] at hst
  obtain ⟨⟨hk, hd⟩, rfl⟩ := hst
  have hb := h.block u hu
  have hsingle := h.single (s.block u).task (.inl hd)
  have hp := hb.unsynced hk (by simp [hd])
  have hz : (s.block u).counted = 0 := by
    rw [hb.told hk, (hb.untold hk).1 ⟨hp, by simp [hd]⟩]
    rfl
  have hblock : ∀ v, v ≠ u → (s.countDown u { s.block u with told := true }).block v = s.block v :=
      fun v e => Function.update_of_ne e ..
  have hself : (s.countDown u { s.block u with told := true }).block u = { s.block u with told := true, counted := 1 } := by
    refine (Function.update_self ..).trans ?_
    dsimp only
    rw [hz, if_pos (Accounted.counter_pos h.acc hu (decide_eq_true hz))]
  have htask : ∀ v, ((s.countDown u { s.block u with told := true }).block v).task = (s.block v).task := by
    intro v
    by_cases e : v = u
    · rw [e, hself]
    · rw [hblock v e]
  refine ⟨h.acc.countDown hu rfl rfl (.inl hz), fun v hv => ?_, fun t hd' v v' hv hv' h1 h2 => ?_⟩
  · show BlockInv
        (Function.update s.dispatch (s.block u).task .returned ((s.countDown u { s.block u with told := true }).block v).task)
      ((s.countDown u { s.block u with told := true }).block v)
    rw [htask]
    by_cases e : v = u
    · rw [e, hself, Function.update_self]
      exact hb.tells hk nofun (.inr rfl) fun _ => hp
    · have hne : (s.block v).task ≠ (s.block u).task := fun ht => e (hsingle v u hv hu ht rfl)
      rw [hblock v e, Function.update_of_ne hne]
      exact h.block v hv
  · have h1 : (s.block v).task = t := (htask v).symm.trans h1
    have h2 : (s.block v').task = t := (htask v').symm.trans h2
    by_cases e : t = (s.block u).task
    · exact hsingle v v' hv hv' (h1.trans e) (h2.trans e)
    · have hd' : Function.update s.dispatch (s.block u).task .returned t = .failed ∨
          Function.update s.dispatch (s.block u).task .returned t = .returned := hd'
      rw [Function.update_of_ne e] at hd'
      exact h.single t hd' v v' hv hv' h1 h2

/-- A block is changed in place. -/
theorem RunInv.edit (h : RunInv s) {x : Block} (ht : x.task = (s.block u).task) (hc : x.counted = (s.block u).counted)
    (hx : u < s.nBlock → BlockInv (s.dispatch x.task) x) : RunInv (s.setBlock u x) :=
  h.setBlock ht hc rfl rfl rfl hx

/-- What is known of a load does not speak of the dispatch. -/
theorem BlockInv.ofLoad {d : DispatchPc} {y : Block} (hk : y.kind ≠ .dump) (timed : y.timed = .ended → y.counted = 1)
    (ended : y.phase = .ended → y.counted = 1) (pending : y.timed ≠ .ended → y.phase ≠ .ended → y.counted = 0)
    (copying : y.phase = .copying → y.timed ≠ .ended) (unheld : y.phase.unheld = true → y.current = false ∧ y.timed = .no)
    (left : y.left = false) : BlockInv d y :=
  ⟨fun _ => timed, fun _ => ended, fun _ => pending, copying, unheld, left, fun hd => absurd hd hk, fun hd => absurd hd hk,
    fun hd => absurd hd hk, fun hd => absurd hd hk⟩

/-- A file worker takes a block. -/
theorem RunInv.taken (h : RunInv s) (hu : u < s.nBlock) (hst : s.blockStep u .take = some s') : RunInv s' := by
  have hb := h.block u hu
  simp only [Trans.blockStep, Option.ite_none_right_eq_some, Option.some.injEq] at hst
  obtain ⟨hp, rfl⟩ := hst
  refine h.edit rfl rfl fun _ => ?_
  refine ⟨hb.timed, nofun, fun hk ht _ => hb.pending hk ht (by simp [hp]), nofun, nofun, hb.left, hb.told,
    fun _ => .inr (.inr (.inl rfl)), fun hk hd => ?_, fun hk => ⟨fun hno => absurd hno.1 nofun, (hb.untold hk).2⟩⟩
  have hbad := hb.unsynced hk hd
  rw [hp] at hbad
  cases hbad

/-- The end of a load's copy, its mark and its `Done`. -/
theorem RunInv.copied (h : RunInv s) (hu : u < s.nBlock) {ok left : Bool} (hst : s.blockStep u (.copy ok left) = some s')
    (hok : CountsOnce s (.block u (.copy ok left))) : RunInv s' := by
  have hb := h.block u hu
  simp only [Trans.blockStep, Option.ite_none_right_eq_some, Option.some.injEq] at hst
  obtain ⟨⟨hp, -⟩, rfl⟩ := hst
  have hleft : left = false := hok
  have hk := hb.load (by simp [hp])
  refine h.edit rfl rfl fun _ => .ofLoad hk (hb.timed hk) ?_ (fun ht _ => hb.pending hk ht (by simp [hp])) ?_ ?_ hleft
  all_goals cases ok <;> exact nofun

theorem RunInv.markedFailed (h : RunInv s) (hu : u < s.nBlock) (hst : s.blockStep u .mark = some s') : RunInv s' := by
  have hb := h.block u hu
  simp only [Trans.blockStep] at hst
  split at hst
  · next file hp =>
    obtain rfl := Option.some.inj hst
    have hk := hb.load (by simp [hp])
    refine h.setBlock (x := { s.block u with phase := .ending file }) rfl rfl rfl rfl rfl fun _ => ?_
    exact .ofLoad hk (hb.timed hk) nofun (fun ht _ => hb.pending hk ht (by simp [hp])) nofun nofun hb.left
  · cases hst

theorem RunInv.doneOnce (h : RunInv s) (hu : u < s.nBlock) (hst : s.blockStep u .done = some s')
    (hok : CountsOnce s (.block u .done)) : RunInv s' := by
  have hb := h.block u hu
  simp only [Trans.blockStep] at hst
  split at hst
  · next file hp =>
    obtain rfl := Option.some.inj hst
    have hk := hb.load (by simp [hp])
    refine h.countDown (x := { s.block u with phase := .ended }) hu rfl rfl ?_ ?_
    · by_cases ht : (s.block u).timed = .ended
      · exact .inr (hok ht)
      · exact .inl (hb.pending hk ht (by simp [hp]))
    · exact .ofLoad hk (fun _ => rfl) (fun _ => rfl) (fun _ hno => absurd rfl hno) nofun nofun hb.left
  · cases hst

/-- The file worker lets go, and the monitor finds and marks what it holds. -/
theorem RunInv.letGo (h : RunInv s) (hu : u < s.nBlock) (hst : s.blockStep u .letGo = some s') : RunInv s' := by
  have hb := h.block u hu
  simp only [Trans.blockStep] at hst
  split at hst
  case h_5 =>
    simp only [Option.ite_none_right_eq_some, Option.some.injEq] at hst
    obtain ⟨hc, rfl⟩ := hst
    refine h.edit rfl rfl fun _ => ?_
    exact ⟨hb.timed, hb.ended, hb.pending, hb.copying, fun hno => ⟨rfl, (hb.unheld hno).2⟩, hb.left, hb.told,
      hb.dump, hb.unsynced,
      hb.untold⟩
  all_goals cases hst

theorem RunInv.found (h : RunInv s) (hu : u < s.nBlock) (hst : s.blockStep u .timeout = some s') : RunInv s' := by
  have hb := h.block u hu
  simp only [Trans.blockStep, Option.ite_none_right_eq_some, Option.some.injEq] at hst
  obtain ⟨⟨hc, ht⟩, rfl⟩ := hst
  refine h.edit rfl rfl fun _ => ?_
  refine ⟨fun _ => nofun, hb.ended, fun hk _ => hb.pending hk (by simp [ht]), fun _ => nofun, fun hno => ?_, hb.left, hb.told,
    hb.dump, hb.unsynced, hb.untold⟩
  have hbad := (hb.unheld hno).1
  rw [hc] at hbad
  cases hbad

theorem RunInv.foundMarked (h : RunInv s) (hu : u < s.nBlock) (hst : s.blockStep u .timeoutMark = some s') : RunInv s' := by
  have hb := h.block u hu
  simp only [Trans.blockStep, Option.ite_none_right_eq_some, Option.some.injEq] at hst
  obtain ⟨ht, rfl⟩ := hst
  refine h.setBlock (x := { s.block u with timed := .marked }) rfl rfl (TaskWrapper.failIf_nTask ..)
    (TaskWrapper.failIf_counter ..)
    (TaskWrapper.failIf_wait ..) fun _ => ?_
  refine ⟨fun _ => nofun, hb.ended, fun hk _ => hb.pending hk (by simp [ht]), fun _ => nofun, fun hno => ?_, hb.left, hb.told,
    hb.dump, hb.unsynced, hb.untold⟩
  have hbad := (hb.unheld hno).2
  rw [ht] at hbad
  cases hbad

theorem RunInv.timedOut (h : RunInv s) (hu : u < s.nBlock) (hst : s.blockStep u .timeoutDone = some s')
    (hok : CountsOnce s (.block u .timeoutDone)) : RunInv s' := by
  have hb := h.block u hu
  simp only [Trans.blockStep, Option.ite_none_right_eq_some] at hst
  obtain ⟨ht, hst⟩ := hst
  have hheld : ¬ (s.block u).phase.unheld = true := by
    intro hno
    have hbad := (hb.unheld hno).2
    rw [ht] at hbad
    cases hbad
  split at hst
  · next hk =>
    obtain rfl := Option.some.inj hst
    refine h.edit rfl rfl fun _ => ?_
    refine ⟨fun hno => absurd hk hno, fun hno => absurd hk hno, fun hno => absurd hk hno, fun hcopy => ?_,
      fun hno => absurd hno hheld, hb.left, hb.told, hb.dump, hb.unsynced, hb.untold⟩
    have hbad := hb.dump hk
    have hcopy : (s.block u).phase = .copying := hcopy
    simp [hcopy] at hbad
  · next hk =>
    obtain rfl := Option.some.inj hst
    obtain ⟨hcopy, hended⟩ := hok hk
    refine h.countDown (x := { s.block u with timed := .ended }) hu rfl rfl ?_ ?_
    · by_cases hp : (s.block u).phase = .ended
      · exact .inr (hended hp)
      · exact .inl (hb.pending hk (by simp [ht]) hp)
    · exact .ofLoad hk (fun _ => rfl) (fun _ => rfl) (fun hno _ => absurd rfl hno) (fun hc => absurd hc hcopy)
        (fun hno => absurd hno hheld) hb.left

theorem RunInv.blockStep (h : RunInv s) {l : BlockLabel} (hu : u < s.nBlock) (hst : s.blockStep u l = some s')
    (hok : CountsOnce s (.block u l)) : RunInv s' := by
  have hb := h.block u hu
  cases l with
  | dispatch => exact h.dispatched hst
  | told => exact h.toldOk hu hst
  | toldFailed => exact h.toldFailed hu hst
  | look => exact h.look hu hst hok
  | take => exact h.taken hu hst
  | file ok =>
    simp only [Trans.blockStep, Option.ite_none_right_eq_some, Option.some.injEq] at hst
    obtain ⟨hp, rfl⟩ := hst
    by_cases hk : (s.block u).kind = .dump
    · rw [if_pos hk]
      exact h.setPhase (by simp [hp]) (.inr hk) nofun nofun (fun _ => .inr (.inr (.inr rfl))) fun _ => .inr (by simp [hp])
    · rw [if_neg hk]
      cases ok <;> exact h.setLoad hk (by simp [hp]) nofun nofun nofun
  | takeDevice =>
    simp only [Trans.blockStep, Option.ite_none_right_eq_some, Option.some.injEq] at hst
    obtain ⟨hp, rfl⟩ := hst
    exact h.setLoad (hb.load (by simp [hp])) (by simp [hp]) nofun nofun nofun
  | takeShare =>
    simp only [Trans.blockStep, Option.ite_none_right_eq_some, Option.some.injEq] at hst
    obtain ⟨hp, rfl⟩ := hst
    exact h.setLoad (hb.load (by simp [hp])) (by simp [hp]) nofun nofun fun _ => by rw [hp]; rfl
  | ask status =>
    simp only [Trans.blockStep] at hst
    split at hst
    case h_4 => cases hst
    all_goals
      next hp =>
      obtain rfl := Option.some.inj hst
      exact h.setLoad (hb.load (by simp [hp])) (by simp [hp]) nofun nofun fun _ => by rw [hp]; rfl
  | copy ok left => exact h.copied hu hst hok
  | mark => exact h.markedFailed hu hst
  | done => exact h.doneOnce hu hst hok
  | letGo => exact h.letGo hu hst
  | timeout => exact h.found hu hst
  | timeoutMark => exact h.foundMarked hu hst
  | timeoutDone => exact h.timedOut hu hst hok
  | copyEnds =>
    simp only [Trans.blockStep, Option.ite_none_right_eq_some, Option.some.injEq] at hst
    obtain ⟨hl, rfl⟩ := hst
    rw [hb.left] at hl
    cases hl

theorem RunInv.submit (h : RunInv s) (shared isLoad : Bool) (n : Nat) : RunInv (s.submit shared isLoad n) := by
  have hold : ∀ u, u < s.nBlock → (s.submit shared isLoad n).block u = s.block u := fun u hu => if_neg (by omega)
  have hnew : ∀ u, s.nBlock ≤ u → (s.submit shared isLoad n).block u =
      ⟨s.wrapper.nTask, if isLoad then if shared then .shareLoad else .load else .dump, .undispatched, false, .no,
        false, false, 0⟩ :=
    fun u hu => if_pos hu
  have htask : ∀ u, u < s.nBlock → (s.block u).task ≠ s.wrapper.nTask := fun u hu => (h.acc.task_lt u hu).ne
  refine ⟨?_, fun u hu => ?_, fun t hd u v hu hv h1 h2 => ?_⟩
  · refine Accounted.submit h.acc n (fun u hu => by rw [hold u hu]) (fun u hu => by rw [hold u hu]) (fun _ _ => rfl)
      (fun u hu => by rw [hold u hu]) fun u h1 _ => ?_
    rw [hnew u h1]
    exact ⟨rfl, rfl, rfl⟩
  · show BlockInv (Function.update s.dispatch s.wrapper.nTask (if isLoad then .loops else .copying)
      ((s.submit shared isLoad n).block u).task) ((s.submit shared isLoad n).block u)
    by_cases hlt : u < s.nBlock
    · rw [hold u hlt, Function.update_of_ne (htask u hlt)]
      exact h.block u hlt
    · rw [hnew u (by omega), Function.update_self]
      cases isLoad <;> cases shared <;> constructor <;> simp [Phase.unheld]
  · have hne : t ≠ s.wrapper.nTask := by
      intro e
      subst e
      have hd : Function.update s.dispatch s.wrapper.nTask (if isLoad then DispatchPc.loops
          else .copying) s.wrapper.nTask = .failed ∨
        Function.update s.dispatch s.wrapper.nTask (if isLoad then DispatchPc.loops else .copying) s.wrapper.nTask =
        .returned := hd
      rw [Function.update_self] at hd
      cases isLoad <;> rcases hd with hd | hd <;> cases hd
    have hd : Function.update s.dispatch s.wrapper.nTask (if isLoad then DispatchPc.loops else .copying) t = .failed ∨
      Function.update s.dispatch s.wrapper.nTask (if isLoad then DispatchPc.loops else .copying) t = .returned := hd
    rw [Function.update_of_ne hne] at hd
    have hlt : ∀ w, ((s.submit shared isLoad n).block w).task = t → w < s.nBlock := by
      intro w hw
      by_contra hge
      rw [hnew w (by omega)] at hw
      exact hne hw.symm
    have hu' := hlt u h1
    have hv' := hlt v h2
    rw [hold u hu'] at h1
    rw [hold v hv'] at h2
    exact h.single t hd u v hu' hv' h1 h2

theorem RunInv.sync (h : RunInv s) {t : Nat} {ok : Bool} (hst : transStep shared s (.sync t ok) = some s')
    (hok : CountsOnce s (.sync t ok)) : RunInv s' := by
  simp only [transStep, Option.ite_none_right_eq_some, Option.some.injEq] at hst
  obtain ⟨⟨-, hd⟩, rfl⟩ := hst
  refine ⟨?_, fun u hu => ?_, fun t' hd' => ?_⟩
  · exact h.acc.congr (TaskWrapper.failIf_nTask ..) (TaskWrapper.failIf_counter ..) (TaskWrapper.failIf_wait ..) (fun _ _ => rfl)
      (fun _ _ => rfl) (fun _ _ => rfl) fun _ _ => rfl
  · have hb := h.block u hu
    show BlockInv (Function.update s.dispatch t (if ok then .synced else .failed) (s.block u).task) (s.block u)
    by_cases e : (s.block u).task = t
    · rw [e, Function.update_self]
      rw [e, hd] at hb
      refine ⟨hb.timed, hb.ended, hb.pending, hb.copying, hb.unheld, hb.left, hb.told, hb.dump,
        fun hk _ => hb.unsynced hk nofun, fun hk => ?_⟩
      refine ⟨fun hp => (hb.untold hk).1 ⟨hp.1, nofun⟩, fun e => ?_, fun e => ?_⟩
      · cases ok <;> cases e
      · cases ok <;> cases e
    · rw [Function.update_of_ne e]
      exact hb
  · have hd' : Function.update s.dispatch t (if ok then DispatchPc.synced else .failed) t' = .failed ∨
      Function.update s.dispatch t (if ok then DispatchPc.synced else .failed) t' = .returned := hd'
    by_cases e : t' = t
    · subst e
      rw [Function.update_self] at hd'
      cases ok with
      | true => rcases hd' with hd' | hd' <;> cases hd'
      | false => exact hok
    · rw [Function.update_of_ne e] at hd'
      exact h.single t' hd'

end Steps

theorem step_runInv (h : RunInv s) (hst : transStep shared s l = some s') (hok : CountsOnce s l) : RunInv s' := by
  cases l with
  | submit isLoad n =>
    obtain rfl := Option.some.inj hst
    exact h.submit shared isLoad n
  | wait l =>
    simp only [transStep, Option.map_eq_some_iff] at hst
    obtain ⟨w, hw, rfl⟩ := hst
    exact ⟨h.acc.wait (managerWait_keeps hw), h.block, h.single⟩
  | sync t ok => exact h.sync hst hok
  | block u l =>
    simp only [transStep, Option.ite_none_right_eq_some] at hst
    exact h.blockStep hst.1 hst.2 hok

theorem reach_runInv (h : Reach (transQueue shared) CountsOnce s) : RunInv s := by
  refine h.inv (I := RunInv) (fun s hs => ?_) fun s l s' hi hok hst => step_runInv hi hst hok
  rw [show s = .init from hs]
  exact ⟨.init, fun u hu => absurd hu (Nat.not_lt_zero u), fun t hd => by rcases hd with hd | hd <;> cases hd⟩

/-! ## Going on -/

/-- A step of the queue's own threads. -/
def TransLabel.own : TransLabel → Bool
  | .sync _ _ | .block _ _ => true
  | .submit _ _ | .wait _ => false

def Phase.rank : Phase → Nat
  | .undispatched => 20
  | .queued | .waiting => 18
  | .taken => 17
  | .asking => 16
  | .held | .loading => 15
  | .passed | .ready _ => 14
  | .devQueued => 12
  | .devHeld => 11
  | .copying => 8
  | .failing _ => 4
  | .ending _ => 2
  | .ended => 0

def Timed.rank : Timed → Nat
  | .no => 3
  | .found => 2
  | .marked => 1
  | .ended => 0

/-- How much is left to do about a block. -/
def Block.rank (x : Block) : Nat :=
  x.phase.rank + x.timed.rank + (if x.current then 1 else 0) + (if x.told then 0 else 1) + if x.left then 1 else 0

def DispatchPc.rank : DispatchPc → Nat
  | .copying => 2
  | .synced | .failed => 1
  | .loops | .returned => 0

def Trans.work (s : Trans) : Nat :=
  ∑ u ∈ Finset.range s.nBlock, (s.block u).rank + ∑ t ∈ Finset.range s.wrapper.nTask, (s.dispatch t).rank

section Progress

variable {u : Nat} {x : Block}

theorem sum_update_lt {α : Type} {f : Nat → α} {rank : α → Nat} {n u : Nat} {x : α} (hu : u < n) (h : rank x < rank (f u)) :
    ∑ v ∈ Finset.range n, rank (Function.update f u x v) < ∑ v ∈ Finset.range n, rank (f v) := by
  refine Finset.sum_lt_sum (fun v _ => ?_) ⟨u, Finset.mem_range.mpr hu, by rwa [Function.update_self]⟩
  by_cases e : v = u
  · rw [e, Function.update_self]
    exact h.le
  · rw [Function.update_of_ne e]

theorem work_block {w : TaskWrapper} (hu : u < s.nBlock) (hw : w.nTask = s.wrapper.nTask) (h : x.rank < (s.block u).rank) :
    Trans.work { s.setBlock u x with wrapper := w } < s.work := by
  unfold Trans.work
  show ∑ v ∈ Finset.range s.nBlock, (Function.update s.block u x v).rank + ∑ t ∈ Finset.range w.nTask, (s.dispatch t).rank < _
  rw [hw]
  exact Nat.add_lt_add_right (sum_update_lt hu h) _

theorem work_countDown (hu : u < s.nBlock) (h : x.rank < (s.block u).rank) : (s.countDown u x).work < s.work := by
  refine work_block (x := { x with counted := x.counted + if 0 < s.wrapper.counter x.task then 1 else 0 }) hu rfl ?_
  exact h

/-- A later phase, and nothing else. -/
theorem work_setPhase {p : Phase} (hu : u < s.nBlock) (h : p.rank < (s.block u).phase.rank) : (s.setPhase u p).work < s.work := by
  refine work_block (x := { s.block u with phase := p }) hu rfl ?_
  unfold Block.rank
  dsimp only
  omega

theorem own_block_shrinks (h : RunInv s) {l : BlockLabel} (hu : u < s.nBlock) (hst : s.blockStep u l = some s') :
    s'.work < s.work := by
  cases l with
  | dispatch =>
    simp only [Trans.blockStep] at hst
    split at hst
    case h_3 hp _ =>
      simp only [Option.ite_none_right_eq_some, Option.some.injEq] at hst
      obtain ⟨-, rfl⟩ := hst
      exact work_setPhase hu (by rw [hp]; decide)
    case h_4 => cases hst
    all_goals
      next hp _ =>
      obtain rfl := Option.some.inj hst
      exact work_setPhase hu (by rw [hp]; decide)
  | told =>
    simp only [Trans.blockStep, Option.ite_none_right_eq_some, Option.some.injEq] at hst
    obtain ⟨⟨-, -, ht⟩, rfl⟩ := hst
    exact work_countDown hu (by simp [Block.rank, ht])
  | toldFailed =>
    simp only [Trans.blockStep, Option.ite_none_right_eq_some, Option.some.injEq] at hst
    obtain ⟨⟨hk, hd⟩, rfl⟩ := hst
    have hb := h.block u hu
    have ht := (hb.untold hk).1 ⟨hb.unsynced hk (by simp [hd]), by simp [hd]⟩
    have hlt : (s.block u).task < s.wrapper.nTask := h.acc.task_lt u hu
    have h1 : (s.countDown u { s.block u with told := true }).work < s.work := work_countDown hu (by simp [Block.rank, ht])
    refine lt_trans (Nat.add_lt_add_left ?_ _) h1
    exact sum_update_lt hlt (by rw [hd]; decide)
  | take =>
    simp only [Trans.blockStep, Option.ite_none_right_eq_some, Option.some.injEq] at hst
    obtain ⟨hp, rfl⟩ := hst
    refine work_block (w := s.wrapper) hu rfl ?_
    simp only [Block.rank, hp, Phase.rank]
    split <;> omega
  | look =>
    simp only [Trans.blockStep, Trans.look] at hst
    split at hst
    · next hp =>
      split at hst <;> obtain rfl := Option.some.inj hst <;> refine work_setPhase hu ?_ <;> rw [hp]
      · split <;> decide
      · decide
    · next hp =>
      obtain rfl := Option.some.inj hst
      exact work_setPhase hu (by rw [hp]; split <;> decide)
    · next hp =>
      obtain rfl := Option.some.inj hst
      exact work_setPhase hu (by rw [hp]; split <;> decide)
    · next ok hp =>
      obtain rfl := Option.some.inj hst
      exact work_setPhase hu (by rw [hp]; cases s.marked u <;> cases ok <;> decide)
    · cases hst
  | file ok =>
    simp only [Trans.blockStep, Option.ite_none_right_eq_some, Option.some.injEq] at hst
    obtain ⟨hp, rfl⟩ := hst
    refine work_setPhase hu ?_
    rw [hp]
    split
    · decide
    · cases ok <;> decide
  | takeDevice | takeShare =>
    simp only [Trans.blockStep, Option.ite_none_right_eq_some, Option.some.injEq] at hst
    obtain ⟨hp, rfl⟩ := hst
    exact work_setPhase hu (by rw [hp]; decide)
  | ask status =>
    simp only [Trans.blockStep] at hst
    split at hst
    case h_4 => cases hst
    all_goals
      next hp =>
      obtain rfl := Option.some.inj hst
      exact work_setPhase hu (by simp [hp, Phase.rank])
  | copy ok left =>
    simp only [Trans.blockStep, Option.ite_none_right_eq_some, Option.some.injEq] at hst
    obtain ⟨⟨hp, -⟩, rfl⟩ := hst
    refine work_block (w := s.wrapper) hu rfl ?_
    cases ok <;> cases left <;> simp only [Block.rank, hp, Bool.false_eq_true, ↓reduceIte, Phase.rank] <;> omega
  | mark =>
    simp only [Trans.blockStep] at hst
    split at hst
    · next file hp =>
      obtain rfl := Option.some.inj hst
      refine work_block (x := { s.block u with phase := .ending file }) hu rfl ?_
      simp only [Block.rank, hp, Phase.rank]
      omega
    · cases hst
  | done =>
    simp only [Trans.blockStep] at hst
    split at hst
    · next file hp =>
      obtain rfl := Option.some.inj hst
      refine work_countDown hu ?_
      simp only [Block.rank, hp, Phase.rank]
      omega
    · cases hst
  | letGo =>
    simp only [Trans.blockStep] at hst
    split at hst
    case h_5 =>
      simp only [Option.ite_none_right_eq_some, Option.some.injEq] at hst
      obtain ⟨hc, rfl⟩ := hst
      exact work_block (w := s.wrapper) hu rfl (by simp [Block.rank, hc])
    all_goals cases hst
  | timeout =>
    simp only [Trans.blockStep, Option.ite_none_right_eq_some, Option.some.injEq] at hst
    obtain ⟨⟨-, ht⟩, rfl⟩ := hst
    exact work_block (w := s.wrapper) hu rfl (by simp [Block.rank, ht, Timed.rank])
  | timeoutMark =>
    simp only [Trans.blockStep, Option.ite_none_right_eq_some, Option.some.injEq] at hst
    obtain ⟨ht, rfl⟩ := hst
    exact work_block (x := { s.block u with timed := .marked }) hu (TaskWrapper.failIf_nTask ..)
      (by simp [Block.rank, ht, Timed.rank])
  | timeoutDone =>
    simp only [Trans.blockStep, Option.ite_none_right_eq_some] at hst
    obtain ⟨ht, hst⟩ := hst
    split at hst
    · obtain rfl := Option.some.inj hst
      exact work_block (w := s.wrapper) hu rfl (by simp [Block.rank, ht, Timed.rank])
    · obtain rfl := Option.some.inj hst
      exact work_countDown hu (by simp [Block.rank, ht, Timed.rank])
  | copyEnds =>
    simp only [Trans.blockStep, Option.ite_none_right_eq_some, Option.some.injEq] at hst
    obtain ⟨hl, rfl⟩ := hst
    exact work_block (w := s.wrapper) hu rfl (by simp [Block.rank, hl])

theorem own_step_shrinks (h : RunInv s) (hown : l.own = true) (hst : transStep shared s l = some s') : s'.work < s.work := by
  cases l with
  | submit => cases hown
  | wait => cases hown
  | sync t ok =>
    simp only [transStep, Option.ite_none_right_eq_some, Option.some.injEq] at hst
    obtain ⟨⟨hlt, hd⟩, rfl⟩ := hst
    refine Nat.add_lt_add_left ?_ _
    show ∑ t' ∈ Finset.range (s.wrapper.failIf (!ok) t).nTask,
        (Function.update s.dispatch t (if ok then .synced else .failed) t').rank < _
    rw [TaskWrapper.failIf_nTask]
    exact sum_update_lt hlt (by rw [hd]; cases ok <;> decide)
  | block u l =>
    simp only [transStep, Option.ite_none_right_eq_some] at hst
    exact own_block_shrinks h hst.1 hst.2

/-- A block that has not counted has a step, within the condition. -/
theorem RunInv.goes (h : RunInv s) (hu : u < s.nBlock) (hz : (s.block u).counted = 0) :
    ∃ l s', l.own = true ∧ CountsOnce s l ∧ transStep shared s l = some s' := by
  have hb := h.block u hu
  have hblock : ∀ l, CountsOnce s (.block u l) → (∃ s', s.blockStep u l = some s') →
      ∃ l s', l.own = true ∧ CountsOnce s l ∧ transStep shared s l = some s' := by
    rintro l hok ⟨s', hs'⟩
    exact ⟨.block u l, s', rfl, hok, by rw [transStep, if_pos hu, hs']⟩
  by_cases hk : (s.block u).kind = .dump
  · have ht : (s.block u).told = false := by
      have := hb.told hk
      by_contra hne
      rw [Bool.not_eq_false] at hne
      rw [hz, hne] at this
      cases this
    -- by where the dispatch is
    cases hd : s.dispatch (s.block u).task with
    | loops => exact absurd hd (hb.untold hk).2.2
    | copying =>
      exact ⟨.sync (s.block u).task true, _, rfl, trivial, by rw [transStep, if_pos ⟨h.acc.task_lt u hu, hd⟩]⟩
    | synced =>
      by_cases hp : (s.block u).phase = .undispatched
      · refine hblock .dispatch trivial ⟨s.setPhase u .queued, ?_⟩
        simp only [Trans.blockStep, hp, hk, hd, ↓reduceIte]
      · exact hblock .told trivial ⟨_, if_pos ⟨hk, hp, ht⟩⟩
    | failed => exact hblock .toldFailed trivial ⟨_, if_pos ⟨hk, hd⟩⟩
    | returned =>
      have := (hb.untold hk).2.1 hd
      rw [ht] at this
      cases this
  · have hno : (s.block u).timed ≠ .ended := fun ht => by rw [hb.timed hk ht] at hz; cases hz
    -- by where the block is
    cases hp : (s.block u).phase with
    | undispatched =>
      cases hk' : (s.block u).kind with
      | load => exact hblock .dispatch trivial ⟨s.setPhase u .queued, by simp only [Trans.blockStep, hp, hk']⟩
      | shareLoad => exact hblock .dispatch trivial ⟨s.setPhase u .waiting, by simp only [Trans.blockStep, hp, hk']⟩
      | dump => exact absurd hk' hk
    | queued => exact hblock .take trivial ⟨_, if_pos hp⟩
    | held =>
      refine hblock .look (fun hd => by rw [hp] at hd; cases hd) ?_
      simp only [Trans.blockStep, Trans.look, hp]
      split <;> exact ⟨_, rfl⟩
    | passed => exact hblock (.file true) trivial ⟨_, if_pos hp⟩
    | devQueued => exact hblock .takeDevice trivial ⟨_, if_pos hp⟩
    | devHeld => exact hblock .look (fun _ ht => absurd ht hno) ⟨_, by simp only [Trans.blockStep, Trans.look, hp]; rfl⟩
    | waiting => exact hblock .takeShare trivial ⟨_, if_pos hp⟩
    | taken =>
      exact hblock .look (fun hd => by rw [hp] at hd; cases hd) ⟨_, by simp only [Trans.blockStep, Trans.look, hp]; rfl⟩
    | asking | loading => exact hblock (.ask (some true)) trivial ⟨_, by simp only [Trans.blockStep, hp]; rfl⟩
    | ready ok =>
      exact hblock .look (fun hd => by rw [hp] at hd; cases hd) ⟨_, by simp only [Trans.blockStep, Trans.look, hp]; rfl⟩
    | copying => exact hblock (.copy true false) rfl ⟨_, if_pos ⟨hp, fun _ => rfl⟩⟩
    | failing file => exact hblock .mark trivial ⟨_, by simp only [Trans.blockStep, hp]; rfl⟩
    | ending file => exact hblock .done (fun ht => absurd ht hno) ⟨_, by simp only [Trans.blockStep, hp]; rfl⟩
    | ended =>
      rw [hb.ended hk hp] at hz
      cases hz

end Progress

/-! ## Completion -/

/-- A copy to the device addresses of the block may be running. -/
def Block.running (x : Block) : Prop := x.phase = .copying ∨ x.left = true

structure Completes (shared : Bool) (ok : Trans → TransLabel → Prop) (s : Trans) : Prop where
  /-- A block counts at most once, and the waiter has one count for each block that has not. -/
  once : ∀ u, u < s.nBlock → (s.block u).counted ≤ 1
  counter : ∀ t, s.wrapper.counter t = Nat.count (fun u => (s.block u).task = t ∧ (s.block u).counted = 0) s.nBlock
  /-- While a waiter is above zero the queue's threads go on; they do so for finitely many steps. -/
  goesOn : ∀ t, s.wrapper.counter t ≠ 0 → ∃ l s', l.own = true ∧ ok s l ∧ transStep shared s l = some s'
  shrinks : ∀ l s', l.own = true → transStep shared s l = some s' → s'.work < s.work
  /-- Once the `Wait` of a load has returned, no copy to its device addresses is running. -/
  quiet : ∀ u, u < s.nBlock → (s.block u).kind ≠ .dump → s.wrapper.wait (s.block u).task = .returned → ¬(s.block u).running

theorem task_completion (h : Reach (transQueue shared) CountsOnce s) : Completes shared CountsOnce s := by
  have hi := reach_runInv h
  refine ⟨fun u hu => hi.counted_le hu, fun t => ?_, fun t ht => ?_, fun l s' hown hst => own_step_shrinks hi hown hst,
    fun u hu hk hw hr => ?_⟩
  · refine (hi.acc.counter t).trans (tally_congr fun u _ => ?_)
    rw [decide_eq_true_iff]
  · have hpos : 0 < Nat.count (fun u => (s.block u).task = t ∧ decide ((s.block u).counted = 0) = true) s.nBlock := by
      rw [← hi.acc.counter t]
      exact Nat.pos_of_ne_zero ht
    obtain ⟨u, hu, -, hz⟩ := exists_of_tally_pos hpos
    exact hi.goes hu (of_decide_eq_true hz)
  · have hb := hi.block u hu
    have hcounted : (s.block u).counted ≠ 0 := of_decide_eq_false (hi.acc.settled hu hw)
    rcases hr with hp | hl
    · exact hcounted (hb.pending hk (hb.copying hp) (by simp [hp]))
    · rw [hb.left] at hl
      cases hl

/-! ## Runs -/

/-- Checks `CountsOnce`. -/
def countsOnceCheck (s : Trans) : TransLabel → Bool
  | .sync t false =>
    decide (∀ u, u < s.nBlock → ∀ v, v < s.nBlock → (s.block u).task = t → (s.block v).task = t → u = v)
  | .block u .look => decide ((s.block u).phase = .devHeld → (s.block u).timed = .ended → s.marked u = true)
  | .block u .done => decide ((s.block u).timed = .ended → s.wrapper.counter (s.block u).task = 0)
  | .block u .timeoutDone =>
    decide ((s.block u).kind ≠ .dump →
      (s.block u).phase ≠ .copying ∧ ((s.block u).phase = .ended → s.wrapper.counter (s.block u).task = 0))
  | .block _ (.copy _ left) => !left
  | _ => true

theorem countsOnceCheck_ok (h : countsOnceCheck s l = true) : CountsOnce s l := by
  cases l with
  | submit | wait => trivial
  | sync t ok =>
    cases ok with
    | true => trivial
    | false => exact fun u v hu hv => of_decide_eq_true h u hu v hv
  | block u l =>
    cases l with
    | look | done | timeoutDone =>
      simp only [countsOnceCheck, decide_eq_true_eq] at h
      exact h
    | copy ok left =>
      show left = false
      simpa [countsOnceCheck] using h
    | _ => trivial

/-- A load of two blocks; one is timed out and read no more, the other is copied. -/
def stuckReadTrace : List TransLabel :=
  [.submit true 2, .block 0 .dispatch, .block 1 .dispatch, .block 0 .take, .block 1 .take, .block 0 .look, .block 1 .look,
    .block 1 (.file true), .block 1 .takeDevice, .block 1 .look, .block 1 (.copy true false), .block 1 .done, .wait (.call 0),
    .block 0 .timeout, .block 0 .timeoutMark, .block 0 .timeoutDone, .wait (.finished 0)]

theorem task_completion_timeout : ∃ s, s.wrapper.wait 0 = .returned ∧ (s.block 0).counted = 1 ∧ Completes false CountsOnce s := by
  obtain ⟨s, hr, hs⟩ := exists_of_replayOk (S := transQueue false) countsOnceCheck (fun _ _ => countsOnceCheck_ok) stuckReadTrace
    (s := .init) (p := fun s => decide (s.wrapper.wait 0 = .returned ∧ (s.block 0).counted = 1)) rfl (by decide)
  obtain ⟨hw, hc⟩ := of_decide_eq_true hs
  exact ⟨s, hw, hc, task_completion hr⟩

/-! ## The failing runs -/

/-- The copies of a dump of two blocks fail. -/
def failedDumpTrace : List TransLabel := [.submit false 2, .wait (.call 0), .sync 0 false, .block 0 .toldFailed,
    .wait (.timeout 0)]

/-- The first read returns after its timeout, and fails; the second block's copy is running. -/
def countedTwiceTrace : List TransLabel :=
  [.submit true 2, .wait (.call 0), .block 0 .dispatch, .block 1 .dispatch, .block 0 .take, .block 1 .take, .block 0 .look,
    .block 1 .look,
    .block 1 (.file true), .block 1 .takeDevice, .block 1 .look, .block 0 .timeout, .block 0 .timeoutMark, .block 0 .timeoutDone,
    .block 0 (.file false), .block 0 .mark, .block 0 .done, .wait (.finished 0)]

/-- The read returns after its timeout and after `Wait`. -/
def lateCopyTrace : List TransLabel :=
  [.submit true 1, .wait (.call 0), .block 0 .dispatch, .block 0 .take, .block 0 .look, .block 0 .timeout, .block 0 .timeoutMark,
    .block 0 .timeoutDone, .wait (.finished 0), .block 0 (.file true), .block 0 .takeDevice, .block 0 .look]

/-- A copy of several addresses fails half-way. -/
def leftCopyTrace : List TransLabel :=
  [.submit true 1, .wait (.call 0), .block 0 .dispatch, .block 0 .take, .block 0 .look, .block 0 (.file true),
    .block 0 .takeDevice,
    .block 0 .look, .block 0 (.copy false true), .block 0 .mark, .block 0 .done, .wait (.finished 0)]

/-- Neither block is dispatched, or going to be. -/
theorem no_own_step {t1 t2 : Bool} {c1 c2 : Nat} (hn : s.nBlock = 2) (ht : s.wrapper.nTask = 1) (hd : s.dispatch 0 = .returned)
    (h0 : s.block 0 = ⟨0, .dump, .undispatched, false, .no, t1, false, c1⟩)
    (h1 : s.block 1 = ⟨0, .dump, .undispatched, false, .no, t2, false, c2⟩) (hown : l.own = true) :
    transStep shared s l = none := by
  cases l with
  | submit | wait => cases hown
  | sync t ok =>
    refine if_neg ?_
    rintro ⟨hlt, hc⟩
    rw [ht, Nat.lt_one_iff] at hlt
    rw [hlt, hd] at hc
    cases hc
  | block u l =>
    by_cases hu : u < s.nBlock
    · have hu' : u = 0 ∨ u = 1 := by omega
      rcases hu' with rfl | rfl <;> cases l <;>
        simp [transStep, hn, Trans.blockStep, Trans.look, h0, h1, hd]
    · exact if_neg hu

theorem task_uncompleted :
    (∃ s, Reach (transQueue false) Any s ∧ (s.wrapper.wait 0 = .draining ∧ s.wrapper.counter 0 = 1) ∧ ¬Completes false Any s) ∧
    (∃ s, Reach (transQueue false) Any s ∧
      ((s.block 0).counted = 2 ∧ s.wrapper.wait 0 = .returned ∧ (s.block 1).phase = .copying) ∧
      ¬Completes false Any s) ∧
    (∃ s, Reach (transQueue false) Any s ∧ (s.wrapper.wait 0 = .returned ∧ (s.block 0).phase = .copying) ∧
      ¬Completes false Any s) ∧
    (∃ s, Reach (transQueue false) Any s ∧ (s.wrapper.wait 0 = .returned ∧ (s.block 0).left = true) ∧
      ¬Completes false Any s) := by
  refine ⟨?_, ?_, ?_, ?_⟩
  · obtain ⟨s, hr, hs⟩ := exists_of_replay (S := transQueue false) failedDumpTrace (s := .init)
      (p := fun s => decide ((s.wrapper.wait 0 = .draining ∧ s.wrapper.counter 0 = 1) ∧ s.nBlock = 2 ∧ s.wrapper.nTask = 1 ∧
        s.dispatch 0 = .returned ∧ s.block 0 = ⟨0, .dump, .undispatched, false, .no, true, false, 1⟩ ∧
        s.block 1 = ⟨0, .dump, .undispatched, false, .no, false, false, 0⟩)) rfl (by decide)
    obtain ⟨hw, hn, ht, hd, h0, h1⟩ := of_decide_eq_true hs
    refine ⟨s, hr, hw, fun h => ?_⟩
    obtain ⟨l, s', hown, -, hst⟩ := h.goesOn 0 (by rw [hw.2]; decide)
    rw [no_own_step hn ht hd h0 h1 hown] at hst
    cases hst
  · obtain ⟨s, hr, hs⟩ := exists_of_replay (S := transQueue false) countedTwiceTrace (s := .init)
      (p := fun s => decide (((s.block 0).counted = 2 ∧ s.wrapper.wait 0 = .returned ∧ (s.block 1).phase = .copying) ∧
        0 < s.nBlock))
      rfl (by decide)
    obtain ⟨hf, hn⟩ := of_decide_eq_true hs
    refine ⟨s, hr, hf, fun h => ?_⟩
    have := h.once 0 hn
    omega
  · obtain ⟨s, hr, hs⟩ := exists_of_replay (S := transQueue false) lateCopyTrace (s := .init)
      (p := fun s => decide ((s.wrapper.wait 0 = .returned ∧ (s.block 0).phase = .copying) ∧ 0 < s.nBlock ∧
        (s.block 0).kind ≠ .dump ∧ (s.block 0).task = 0)) rfl (by decide)
    obtain ⟨hf, hn, hk, ht⟩ := of_decide_eq_true hs
    exact ⟨s, hr, hf, fun h => h.quiet 0 hn hk (by rw [ht]; exact hf.1) (.inl hf.2)⟩
  · obtain ⟨s, hr, hs⟩ := exists_of_replay (S := transQueue false) leftCopyTrace (s := .init)
      (p := fun s => decide ((s.wrapper.wait 0 = .returned ∧ (s.block 0).left = true) ∧ 0 < s.nBlock ∧
        (s.block 0).kind ≠ .dump ∧ (s.block 0).task = 0)) rfl (by decide)
    obtain ⟨hf, hn, hk, ht⟩ := of_decide_eq_true hs
    exact ⟨s, hr, hf, fun h => h.quiet 0 hn hk (by rw [ht]; exact hf.1) (.inr hf.2)⟩

end UnifiedCache.PcStore
