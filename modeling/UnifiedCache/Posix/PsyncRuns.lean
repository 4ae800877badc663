/-
  UnifiedCache.Posix.PsyncRuns — what holds in the runs of the psync engine
  (see `UnifiedCache.Posix.Psync`).

  - Counting (`psync_accounted`): in runs in which the monitor times out only units that are
    stuck (`StuckOnly`: their worker has not counted them down, and comes back to it only when the
    counter is at zero), each unit counts its waiter down once, and when `Wait` has returned a
    worker holds no unit of the task but timed out ones.
  - Visibility (`psync_visible`): in runs in which the last shard of a block is written last
    (`LastShardLast`), an archived file has all its shards.
-/

import UnifiedCache.Posix.Psync

namespace UnifiedCache.Posix

open UnifiedCache.Base UnifiedCache.Detail

/-! ## Counting -/

/-- The unit has yet to count its waiter down. -/
def PsyncUnit.pend (x : PsyncUnit) : Bool := !x.phase.over && !x.abandoned

/-- The monitor times out only stuck units: what would count a second time finds the counter at zero. -/
def StuckOnly (s : PsyncState) : PsyncLabel → Prop
  | .monitor u => (s.unit u).phase.over = false ∨ s.wrapper.counter (s.unit u).task = 0
  | .check u =>
    s.wrapper.failureSet (s.unit u).task = true → (s.unit u).abandoned = false ∨ s.wrapper.counter (s.unit u).task = 0
  | .finish u => (s.unit u).abandoned = false ∨ s.wrapper.counter (s.unit u).task = 0
  | _ => True

structure PsyncAcc (w : TaskWrapper) (nUnit : Nat) (unit : Nat → PsyncUnit) : Prop where
  acc : Accounted w nUnit (fun u => (unit u).task) (fun u => (unit u).pend) (fun _ => false) fun u => (unit u).counted
  queued : ∀ u, u < nUnit → (unit u).phase = .queued → (unit u).abandoned = false

namespace PsyncAcc

variable {w w' : TaskWrapper} {nUnit : Nat} {unit : Nat → PsyncUnit}

/-- A unit moves on without counting. -/
theorem move (h : PsyncAcc w nUnit unit) {u : Nat} (x : PsyncUnit) (htask : x.task = (unit u).task)
    (hcounted : x.counted = (unit u).counted) (hpend : x.pend = (unit u).pend) (hq : x.phase ≠ .queued) :
    PsyncAcc w nUnit (Function.update unit u x) := by
  refine ⟨h.acc.congr rfl rfl rfl (fun v _ => ?_) (fun v _ => ?_) (fun _ _ => rfl) (fun v _ => ?_), fun v hv hvq => ?_⟩
  all_goals by_cases e : v = u
  · subst e; simp [htask]
  · simp [e]
  · subst e; simp [hpend]
  · simp [e]
  · subst e; simp [hcounted]
  · simp [e]
  · subst e; simp only [Function.update_self] at hvq; exact absurd hvq hq
  · simp only [ne_eq, e, not_false_eq_true, Function.update_of_ne] at hvq ⊢; exact h.queued v hv hvq

/-- A pending unit counts. -/
theorem count (h : PsyncAcc w nUnit unit) {u : Nat} (hu : u < nUnit) (hp : (unit u).pend = true) (x : PsyncUnit)
    (htask : x.task = (unit u).task) (hcounted : x.counted = (unit u).counted) (hpend : x.pend = false)
    (hq : x.phase ≠ .queued) (hn : w'.nTask = w.nTask) (hc : w'.counter = w.counter) (hw : w'.wait = w.wait) :
    PsyncAcc (w'.done x.task) nUnit
      (Function.update unit u { x with counted := x.counted + if 0 < w'.counter x.task then 1 else 0 }) := by
  have hpos : 0 < w'.counter x.task := by
    rw [hc, htask]
    exact h.acc.counter_pos hu hp
  have hzero : (unit u).counted = 0 := by
    have := h.acc.counted u hu
    simpa [hp] using this
  refine ⟨h.acc.done hu hp rfl (by simpa using hn) ?_ (by simpa using hw) (fun v _ => ?_) ?_ (fun v _ hne => ?_)
    (fun _ _ => rfl) ?_ (fun v _ hne => ?_), fun v hv hvq => ?_⟩
  · funext t
    simp [htask, hc]
  · by_cases e : v = u
    · subst e; simp [htask]
    · simp [e]
  · simpa [PsyncUnit.pend] using hpend
  · simp [hne]
  · simp only [Function.update_self, hpos, ↓reduceIte, hcounted, hzero]
  · simp [hne]
  · by_cases e : v = u
    · subst e; simp only [Function.update_self] at hvq; exact absurd hvq hq
    · simp only [ne_eq, e, not_false_eq_true, Function.update_of_ne] at hvq ⊢; exact h.queued v hv hvq

/-- A unit that finds the counter at zero; it has counted before. -/
theorem late (h : PsyncAcc w nUnit unit) {u : Nat} (hu : u < nUnit) (hzero : w.counter (unit u).task = 0) (x : PsyncUnit)
    (htask : x.task = (unit u).task) (hcounted : x.counted = (unit u).counted) (hpend : x.pend = false)
    (hq : x.phase ≠ .queued) (hn : w'.nTask = w.nTask) (hc : w'.counter = w.counter) (hw : w'.wait = w.wait) :
    PsyncAcc (w'.done x.task) nUnit
      (Function.update unit u { x with counted := x.counted + if 0 < w'.counter x.task then 1 else 0 }) := by
  have hz : w'.counter x.task = 0 := by
    rw [hc, htask]
    exact hzero
  have hnot : (unit u).pend = false := by
    cases hp : (unit u).pend with
    | false => rfl
    | true =>
      have := h.acc.counter_pos hu hp
      omega
  have hstill : (w'.done x.task).counter = w.counter := by
    rw [← hc]
    exact Function.update_eq_self_iff.mpr (by rw [hz])
  have hmoved := h.move (u := u) x htask hcounted (hpend.trans hnot.symm) hq
  rw [if_neg (by omega), Nat.add_zero]
  exact ⟨hmoved.acc.congr hn hstill hw (fun _ _ => rfl) (fun _ _ => rfl) (fun _ _ => rfl) fun _ _ => rfl, hmoved.queued⟩

theorem submit {s : PsyncState} (h : PsyncAcc s.wrapper s.nUnit s.unit) (type : TaskType) (shards : List Shard) :
    PsyncAcc (s.submit type shards).wrapper (s.submit type shards).nUnit (s.submit type shards).unit := by
  have hold : ∀ v, v < s.nUnit → (s.submit type shards).unit v = s.unit v := fun v hv => by
    simp only [PsyncState.submit]
    rw [if_neg (by omega)]
  have hnew : ∀ v, s.nUnit ≤ v → v < s.nUnit + shards.length → (s.submit type shards).unit v =
      ⟨s.wrapper.nTask, type, (shards[v - s.nUnit]?).getD ⟨0, 0⟩, .queued, false, 0⟩ := fun v h1 h2 => by
    simp only [PsyncState.submit]
    rw [if_pos ⟨h1, h2⟩]
  refine ⟨h.acc.submit shards.length (fun v hv => by rw [hold v hv]) (fun v hv => by rw [hold v hv]) (fun _ _ => rfl)
    (fun v hv => by rw [hold v hv]) fun v h1 h2 => by rw [hnew v h1 h2]; exact ⟨rfl, rfl, rfl⟩, fun v hv hq => ?_⟩
  by_cases hlt : v < s.nUnit
  · rw [hold v hlt] at hq ⊢
    exact h.queued v hlt hq
  · rw [hnew v (by omega) hv]

end PsyncAcc

section Accounted

variable {n : Nat} {s s' : PsyncState}

theorem step_psyncAcc {l : PsyncLabel} (h : psyncStep n s l = some s') (hok : StuckOnly s l)
    (ha : PsyncAcc s.wrapper s.nUnit s.unit) : PsyncAcc s'.wrapper s'.nUnit s'.unit := by
  cases l with
  | submit type shards =>
    obtain rfl := Option.some.inj h
    exact ha.submit type shards
  | wait l =>
    simp only [psyncStep, Option.map_eq_some_iff] at h
    obtain ⟨w, hw, rfl⟩ := h
    exact ⟨ha.acc.wait (waitStep_keeps hw), ha.queued⟩
  | take u =>
    simp only [psyncStep, Option.ite_none_right_eq_some, Option.some.injEq] at h
    obtain ⟨⟨-, hpc⟩, rfl⟩ := h
    exact ha.move _ rfl rfl (by simp [PsyncUnit.pend, PsyncPhase.over, hpc]) nofun
  | check u =>
    simp only [psyncStep, Option.ite_none_right_eq_some, Option.some.injEq] at h
    obtain ⟨⟨hu, hpc⟩, rfl⟩ := h
    unfold PsyncState.check
    simp only
    split
    · next hfail =>
      rcases hok hfail with hab | hzero
      · exact ha.count hu (by simp [PsyncUnit.pend, PsyncPhase.over, hpc, hab]) { s.unit u with phase := .done } rfl rfl rfl
          nofun rfl rfl rfl
      · exact ha.late hu hzero { s.unit u with phase := .done } rfl rfl rfl nofun rfl rfl rfl
    · exact ha.move _ rfl rfl (by simp [PsyncUnit.pend, PsyncPhase.over, hpc]) nofun
  | openFile u ok =>
    simp only [psyncStep, Option.ite_none_right_eq_some] at h
    obtain ⟨⟨-, hpc⟩, h⟩ := h
    cases ok with
    | false =>
      obtain rfl := Option.some.inj h
      exact ha.move _ rfl rfl (by simp [PsyncUnit.pend, PsyncPhase.over, hpc]) nofun
    | true =>
      simp only [↓reduceIte, PsyncState.openOk] at h
      split at h
      · obtain rfl := Option.some.inj h
        exact ha.move _ rfl rfl (by simp [PsyncUnit.pend, PsyncPhase.over, hpc]) nofun
      · rw [Option.map_eq_some_iff] at h
        obtain ⟨ino, -, rfl⟩ := h
        exact ha.move _ rfl rfl (by simp [PsyncUnit.pend, PsyncPhase.over, hpc]) nofun
  | transfer u ok =>
    simp only [psyncStep] at h
    split at h
    · next ino hpc =>
      simp only [Option.ite_none_right_eq_some, Option.some.injEq] at h
      obtain ⟨-, rfl⟩ := h
      exact ha.move _ rfl rfl (by simp [PsyncUnit.pend, PsyncPhase.over, hpc]) nofun
    · cases h
  | commit u renamed =>
    simp only [psyncStep] at h
    split at h
    case h_3 => cases h
    all_goals
      next hpc =>
      simp only [Option.ite_none_right_eq_some, Option.some.injEq] at h
      obtain ⟨-, rfl⟩ := h
      exact ha.move _ rfl rfl (by simp [PsyncUnit.pend, PsyncPhase.over, hpc]) nofun
  | finish u =>
    simp only [psyncStep] at h
    split at h
    · next ok hpc =>
      simp only [Option.ite_none_right_eq_some, Option.some.injEq] at h
      obtain ⟨hu, rfl⟩ := h
      rcases hok with hab | hzero
      · exact ha.count hu (by simp [PsyncUnit.pend, PsyncPhase.over, hpc, hab]) { s.unit u with phase := .done } rfl rfl rfl
          nofun (TaskWrapper.failIf_nTask ..) (TaskWrapper.failIf_counter ..) (TaskWrapper.failIf_wait ..)
      · exact ha.late hu hzero { s.unit u with phase := .done } rfl rfl rfl nofun (TaskWrapper.failIf_nTask ..)
          (TaskWrapper.failIf_counter ..) (TaskWrapper.failIf_wait ..)
    · cases h
  | release u =>
    simp only [psyncStep, Option.ite_none_right_eq_some, Option.some.injEq] at h
    obtain ⟨⟨-, hpc⟩, rfl⟩ := h
    exact ha.move _ rfl rfl (by simp [PsyncUnit.pend, PsyncPhase.over, hpc]) nofun
  | monitor u =>
    simp only [psyncStep, Option.ite_none_right_eq_some, Option.some.injEq] at h
    obtain ⟨⟨hu, hheld, hab⟩, rfl⟩ := h
    have hq : (s.unit u).phase ≠ .queued := fun hq => by rw [hq] at hheld; cases hheld
    rcases hok with hover | hzero
    · exact ha.count hu (by simp [PsyncUnit.pend, hover, hab]) { s.unit u with abandoned := true } rfl rfl
        (by simp [PsyncUnit.pend]) hq rfl rfl rfl
    · exact ha.late hu hzero { s.unit u with abandoned := true } rfl rfl (by simp [PsyncUnit.pend]) hq rfl rfl rfl
  | cancel t u =>
    simp only [psyncStep, Option.ite_none_right_eq_some, Option.some.injEq] at h
    obtain ⟨⟨hu, hpc, -⟩, rfl⟩ := h
    have hab := ha.queued u hu hpc
    exact ha.count hu (by simp [PsyncUnit.pend, PsyncPhase.over, hpc, hab]) { s.unit u with phase := .cancelled } rfl rfl rfl
      nofun rfl rfl rfl
  | gc b =>
    obtain rfl := Option.some.inj h
    exact ha

/-- What a unit may still do after the `Wait` of its task has returned. -/
structure PsyncSettled (s : PsyncState) (u : Nat) : Prop where
  atMostOnce : (s.unit u).counted ≤ 1
  once : s.wrapper.wait (s.unit u).task = .returned → (s.unit u).counted = 1
  quiet : s.wrapper.wait (s.unit u).task = .returned → (s.unit u).phase.over = true ∨ (s.unit u).abandoned = true

theorem psync_accounted (h : Reach (psync n) StuckOnly s) {u : Nat} (hu : u < s.nUnit) : PsyncSettled s u := by
  have ha : PsyncAcc s.wrapper s.nUnit s.unit := by
    refine h.inv (I := fun s => PsyncAcc s.wrapper s.nUnit s.unit) (fun s hs => ?_) fun _ _ _ ha hok hst =>
      step_psyncAcc hst hok ha
    rw [show s = .init from hs]
    exact ⟨.init, fun u hu => by cases hu⟩
  have hc := ha.acc.counted u hu
  refine ⟨?_, fun hr => ?_, fun hr => ?_⟩
  · rw [hc]
    split <;> decide
  · have hp := ha.acc.settled hu hr
    simp only [hp] at hc
    simpa using hc
  · have hp := ha.acc.settled hu hr
    unfold PsyncUnit.pend at hp
    cases ho : (s.unit u).phase.over with
    | true => exact .inl rfl
    | false => simpa [ho] using hp

end Accounted

/-! ## Visibility -/

/-- A writer of a block's last shard between its open and its commit. -/
def PsyncUnit.Holds (n : Nat) (x : PsyncUnit) (b ino : Nat) (wrote : Bool) : Prop :=
  x.type = .dump ∧ x.shard.owner = b ∧ isLast n x.shard.index = true ∧
    (x.phase = .opened ino ∧ wrote = false ∨ x.phase = .transferred ino true ∧ wrote = true)

def PsyncState.holders (n : Nat) (s : PsyncState) (b ino : Nat) (wrote : Bool) : Prop :=
  ∃ u, u < s.nUnit ∧ (s.unit u).Holds n b ino wrote

/-- The last shard of a block is written after the others, and its activated file is not created
    anew beside a writer of the last shard. -/
def LastShardLast (n : Nat) (s : PsyncState) : PsyncLabel → Prop
  | .openFile u true => (s.unit u).type = .dump →
      CreatesAlone s.files (s.holders n) (fun _ => False) (s.unit u).shard.owner
  | .transfer u true => (s.unit u).type = .dump → isLast n (s.unit u).shard.index = true →
      ∀ ino, (s.unit u).phase = .opened ino → OthersWritten n s.files ino
  | _ => True

section Visible

variable {n : Nat} {s s' : PsyncState}

/-- When unit `u` becomes `x`, there is no new writer but `x`. -/
theorem holders_update {b ino : Nat} {wrote : Bool} (h : s'.holders n b ino wrote) {u : Nat} {x : PsyncUnit}
    (hunit : s'.unit = Function.update s.unit u x) (hn : s'.nUnit = s.nUnit) :
    s.holders n b ino wrote ∨ x.Holds n b ino wrote := by
  obtain ⟨v, hv, hx⟩ := h
  rw [hunit] at hx
  by_cases e : v = u
  · subst e
    rw [Function.update_self] at hx
    exact .inr hx
  · rw [Function.update_of_ne e] at hx
    exact .inl ⟨v, hn ▸ hv, hx⟩

/-- A unit that changes into one that is not a writer. -/
theorem Safe.unit {f : Files} {C : Nat → Prop} (h : Safe n f (s.holders n) C) {u : Nat} {x : PsyncUnit}
    (hunit : s'.unit = Function.update s.unit u x) (hn : s'.nUnit = s.nUnit)
    (hx : ∀ ino, x.phase ≠ .opened ino ∧ x.phase ≠ .transferred ino true) : Safe n f (s'.holders n) fun _ => False := by
  refine h.mono (fun b ino wrote hH => ?_) nofun
  rcases holders_update hH hunit hn with hH | ⟨-, -, -, ⟨hp, -⟩ | ⟨hp, -⟩⟩
  · exact hH
  · exact absurd hp (hx ino).1
  · exact absurd hp (hx ino).2

theorem step_safe {l : PsyncLabel} (h : psyncStep n s l = some s') (hok : LastShardLast n s l)
    (hs : Safe n s.files (s.holders n) fun _ => False) : Safe n s'.files (s'.holders n) fun _ => False := by
  cases l with
  | submit type shards =>
    obtain rfl := Option.some.inj h
    refine hs.mono (fun b ino wrote hH => ?_) nofun
    obtain ⟨v, hv, hx⟩ := hH
    by_cases hlt : v < s.nUnit
    · simp only [PsyncState.submit] at hx
      rw [if_neg (by omega)] at hx
      exact ⟨v, hlt, hx⟩
    · -- the new units are queued
      simp only [PsyncState.submit] at hx hv
      rw [if_pos ⟨by omega, hv⟩] at hx
      obtain ⟨-, -, -, ⟨hp, -⟩ | ⟨hp, -⟩⟩ := hx <;> cases hp
  | wait l =>
    simp only [psyncStep, Option.map_eq_some_iff] at h
    obtain ⟨w, hw, rfl⟩ := h
    exact hs
  | take u =>
    simp only [psyncStep, Option.ite_none_right_eq_some, Option.some.injEq] at h
    obtain ⟨-, rfl⟩ := h
    exact hs.unit rfl rfl fun _ => ⟨nofun, nofun⟩
  | check u =>
    simp only [psyncStep, Option.ite_none_right_eq_some, Option.some.injEq] at h
    obtain ⟨-, rfl⟩ := h
    unfold PsyncState.check
    simp only
    split <;> exact hs.unit rfl rfl fun _ => ⟨nofun, nofun⟩
  | openFile u ok =>
    simp only [psyncStep, Option.ite_none_right_eq_some] at h
    obtain ⟨⟨hu, hpc⟩, h⟩ := h
    cases ok with
    | false =>
      obtain rfl := Option.some.inj h
      exact hs.unit rfl rfl fun _ => ⟨nofun, nofun⟩
    | true =>
      simp only [↓reduceIte, PsyncState.openOk] at h
      split at h
      · next htype =>
        obtain rfl := Option.some.inj h
        have hopen := hok htype
        cases hlast : isLast n (s.unit u).shard.index with
        | true =>
          refine (hs.openLast hopen).mono (fun b ino wrote hH => ?_) nofun
          rcases holders_update (s := s) hH rfl rfl with hH | ⟨-, rfl, -, ⟨hp, rfl⟩ | ⟨hp, -⟩⟩
          · exact .inl hH
          · exact .inr ⟨rfl, (PsyncPhase.opened.inj hp).symm, rfl⟩
          · cases hp
        | false =>
          refine (hs.openActivated hopen).mono (fun b ino wrote hH => ?_) nofun
          rcases holders_update (s := s) hH rfl rfl with hH | ⟨-, -, hl, -⟩
          · exact hH
          · rw [hlast] at hl
            cases hl
      · next htype =>
        rw [Option.map_eq_some_iff] at h
        obtain ⟨ino, -, rfl⟩ := h
        refine hs.mono (fun b ino wrote hH => ?_) nofun
        rcases holders_update (s := s) hH rfl rfl with hH | ⟨ht, -⟩
        · exact hH
        · rw [htype] at ht
          cases ht
  | transfer u ok =>
    simp only [psyncStep] at h
    split at h
    · next ino hpc =>
      simp only [Option.ite_none_right_eq_some, Option.some.injEq] at h
      obtain ⟨hu, rfl⟩ := h
      unfold PsyncState.transfer
      simp only
      split
      · next hdump =>
        cases hlast : isLast n (s.unit u).shard.index with
        | true =>
          have hH : s.holders n (s.unit u).shard.owner ino false := ⟨u, hu, hdump.1, rfl, hlast, .inl ⟨hpc, rfl⟩⟩
          obtain rfl : ok = true := hdump.2
          refine (hs.writeLast hH hlast (hok hdump.1 hlast ino hpc)).mono (fun b ino' wrote hH => ?_) nofun
          rcases holders_update (s := s) hH rfl rfl with hH | ⟨-, rfl, -, ⟨hp, -⟩ | ⟨hp, rfl⟩⟩
          · exact .inl hH
          · cases hp
          · exact .inr ⟨rfl, (PsyncPhase.transferred.inj hp).1.symm, rfl⟩
        | false =>
          refine (hs.writeShard ino _).mono (fun b ino' wrote hH => ?_) nofun
          rcases holders_update (s := s) hH rfl rfl with hH | ⟨-, -, hl, -⟩
          · exact hH
          · rw [hlast] at hl
            cases hl
      · next hno =>
        refine hs.mono (fun b ino' wrote hH => ?_) nofun
        rcases holders_update (s := s) hH rfl rfl with hH | ⟨ht, -, -, ⟨hp, -⟩ | ⟨hp, -⟩⟩
        · exact hH
        · cases hp
        · exact absurd ⟨ht, (PsyncPhase.transferred.inj hp).2⟩ hno
    · cases h
  | commit u renamed =>
    simp only [psyncStep] at h
    split at h
    · simp only [Option.ite_none_right_eq_some, Option.some.injEq] at h
      obtain ⟨hu, rfl⟩ := h
      unfold PsyncState.commit
      simp only
      split
      · exact Safe.unit (hs.commitFile renamed nofun) rfl rfl fun _ => ⟨nofun, nofun⟩
      · exact hs.unit rfl rfl fun _ => ⟨nofun, nofun⟩
    · next ino ok hpc =>
      simp only [Option.ite_none_right_eq_some, Option.some.injEq] at h
      obtain ⟨hu, rfl⟩ := h
      unfold PsyncState.commit
      simp only
      split
      · next hdump =>
        cases ok with
        | false => exact Safe.unit (hs.commitFile renamed nofun) rfl rfl fun _ => ⟨nofun, nofun⟩
        | true =>
          -- the commit of a writer that has written
          have hH : s.holders n (s.unit u).shard.owner ino true := ⟨u, hu, hdump.1, rfl, hdump.2, .inr ⟨hpc, rfl⟩⟩
          exact Safe.unit ((hs.submit hH).commitFile renamed fun _ => .inr rfl) rfl rfl fun _ => ⟨nofun, nofun⟩
      · exact hs.unit rfl rfl fun _ => ⟨nofun, nofun⟩
    · cases h
  | finish u =>
    simp only [psyncStep] at h
    split at h
    · simp only [Option.ite_none_right_eq_some, Option.some.injEq] at h
      obtain ⟨-, rfl⟩ := h
      exact hs.unit rfl rfl fun _ => ⟨nofun, nofun⟩
    · cases h
  | release u =>
    simp only [psyncStep, Option.ite_none_right_eq_some, Option.some.injEq] at h
    obtain ⟨-, rfl⟩ := h
    exact hs.unit rfl rfl fun _ => ⟨nofun, nofun⟩
  | monitor u =>
    -- a timed out writer goes on
    simp only [psyncStep, Option.ite_none_right_eq_some, Option.some.injEq] at h
    obtain ⟨⟨hu, -⟩, rfl⟩ := h
    refine hs.mono (fun b ino wrote hH => ?_) nofun
    rcases holders_update (s := s) hH rfl rfl with hH | hx
    · exact hH
    · exact ⟨u, hu, hx⟩
  | cancel t u =>
    simp only [psyncStep, Option.ite_none_right_eq_some, Option.some.injEq] at h
    obtain ⟨-, rfl⟩ := h
    exact hs.unit rfl rfl fun _ => ⟨nofun, nofun⟩
  | gc b =>
    obtain rfl := Option.some.inj h
    exact hs.removeFile b

theorem psync_visible (h : Reach (psync n) (LastShardLast n) s) : VisibleComplete n s.files := by
  have hs : Safe n s.files (s.holders n) fun _ => False := by
    refine h.inv (I := fun s => Safe n s.files (s.holders n) fun _ => False) (fun s hs => ?_) fun _ _ _ hs hok hst =>
      step_safe hst hok hs
    rw [show s = .init from hs]
    refine ⟨nofun, fun b ino wrote hH => ?_, nofun⟩
    obtain ⟨u, hu, -⟩ := hH
    cases hu
  exact hs.visible

end Visible

end UnifiedCache.Posix
