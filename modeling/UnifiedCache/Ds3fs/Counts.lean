/-
  UnifiedCache.Ds3fs.Counts — the turns of the units and the counts of their waiters
  (see `UnifiedCache.Ds3fs.Worker`).

  A unit is pending from `Submit` until the worker has counted its waiter down, so that a task
  whose waiter is at zero has no unit left. A unit that is over and did not succeed has left its
  task's mark in the failure set, which only the return of `Wait` takes away (`reach_countInv`).
-/

import UnifiedCache.Ds3fs.Worker

namespace UnifiedCache.Ds3fs

open UnifiedCache.Base UnifiedCache.Detail

variable {Byte : Type} {C : Config} {s s' : Worker Byte} {l : WorkerLabel Byte}

/-- The queue, the unit that the worker has, and the waiters. -/
structure Counts (w : TaskWrapper) (nUnit : Nat) (unit : Nat → IoUnit Byte) (queue : List Nat) (pc : Pc)
    (outcome : Nat → Option Bool) (counted : Nat → Nat) : Prop where
  acc : Accounted w nUnit (fun u => (unit u).owner) (fun u => decide (u ∈ queue ∨ pc.unit = some u)) (fun _ => false) counted
  queue_lt : ∀ u ∈ queue, u < nUnit
  pc_lt : ∀ u, pc.unit = some u → u < nUnit
  nodup : queue.Nodup
  untaken : ∀ u ∈ queue, outcome u = none ∧ pc.unit ≠ some u
  new : ∀ u, nUnit ≤ u → outcome u = none ∧ counted u = 0
  working : ∀ u, pc.working = some u → outcome u = none
  ended : ∀ u ok, pc = .ended u ok ∨ pc = .closing u ok → outcome u = some ok
  marks : ∀ u, u < nUnit → u ∉ queue → (pc.unit = some u → pc = .counting u) →
    outcome u = some true ∨ w.failureSet (unit u).owner = true ∨ w.wait (unit u).owner = .returned

theorem Pc.unit_of_working {pc : Pc} {u : Nat} (h : pc.working = some u) : pc.unit = some u := by
  cases pc <;> first | exact h | cases h

theorem Pc.not_counting {pc : Pc} {u : Nat} (h : pc.working = some u) : pc ≠ .counting u := by
  intro e
  subst e
  cases h

namespace Counts

variable {w w' : TaskWrapper} {nUnit : Nat} {unit : Nat → IoUnit Byte} {queue : List Nat} {pc pc' : Pc} {u : Nat}
  {outcome outcome' : Nat → Option Bool} {counted : Nat → Nat}

/-- The worker goes on with its unit, which is not past its end. -/
theorem advance (h : Counts w nUnit unit queue pc outcome counted) (hw : pc.working = some u) (hw' : pc'.working = some u) :
    Counts w nUnit unit queue pc' outcome counted := by
  have hu := Pc.unit_of_working hw
  have hu' := Pc.unit_of_working hw'
  refine ⟨?_, h.queue_lt, fun v hv => ?_, h.nodup, fun v hv => ⟨(h.untaken v hv).1, ?_⟩, h.new, fun v hv => ?_, fun v ok hv => ?_,
    fun v hv hq hc => ?_⟩
  · rw [hu']
    exact hu ▸ h.acc
  · exact h.pc_lt v (hu.trans (hu'.symm.trans hv))
  · rw [hu']
    exact hu ▸ (h.untaken v hv).2
  · exact h.working v (hw.trans (hw'.symm.trans hv))
  · rcases hv with rfl | rfl <;> cases hw'
  · refine h.marks v hv hq fun hv => ?_
    obtain rfl := Option.some.inj (hu.symm.trans hv)
    exact absurd (hc hu') (Pc.not_counting hw')

/-- `H2S` or `S2H` returns. -/
theorem ret (h : Counts w nUnit unit queue pc outcome counted) (hw : pc.working = some u) (ok : Bool) :
    Counts w nUnit unit queue (.ended u ok) (Function.update outcome u (some ok)) counted := by
  have hu := Pc.unit_of_working hw
  have hne : ∀ v ∈ queue, v ≠ u := by
    intro v hv e
    subst e
    exact (h.untaken v hv).2 hu
  refine ⟨?_, h.queue_lt, fun v hv => h.pc_lt v (hu.trans hv), h.nodup, fun v hv => ⟨?_, ?_⟩, fun v hv => ?_, nofun,
    fun v ok' hv => ?_, fun v hv hq hc => ?_⟩
  · have ha := h.acc
    rw [hu] at ha
    exact ha
  · rw [Function.update_of_ne (hne v hv)]
    exact (h.untaken v hv).1
  · exact fun e => (h.untaken v hv).2 (hu.trans e)
  · have := h.pc_lt u hu
    rw [Function.update_of_ne (by omega)]
    exact h.new v hv
  · rcases hv with e | e <;> cases e
    exact Function.update_self ..
  · have hvu : v ≠ u := by
      intro e
      subst e
      cases hc rfl
    rw [Function.update_of_ne hvu]
    exact h.marks v hv hq fun hv => absurd (Option.some.inj (hu.symm.trans hv)).symm hvu

/-- The next unit is taken. -/
theorem take {rest : List Nat} (h : Counts w nUnit unit (u :: rest) .idle outcome counted) (hpc : pc' = .passed u ∨
    pc' = .counting u ∧ w.failureSet (unit u).owner = true) : Counts w nUnit unit rest pc' outcome counted := by
  have hu' : pc'.unit = some u := by
    rcases hpc with rfl | ⟨rfl, -⟩ <;> rfl
  obtain ⟨hnotin, hnodup⟩ := List.nodup_cons.mp h.nodup
  refine ⟨?_, fun v hv => h.queue_lt v (.tail _ hv), fun v hv => ?_, hnodup,
    fun v hv => ⟨(h.untaken v (.tail _ hv)).1, ?_⟩, h.new,
    fun v hv => ?_, fun v ok hv => ?_, fun v hv hq hc => ?_⟩
  · refine h.acc.congr rfl rfl rfl (fun _ _ => rfl) (fun v _ => ?_) (fun _ _ => rfl) fun _ _ => rfl
    rw [hu']
    simp [Pc.unit, or_comm, eq_comm]
  · rw [hu', Option.some.injEq] at hv
    exact h.queue_lt v (hv ▸ List.mem_cons_self)
  · rw [hu', ne_eq, Option.some.injEq]
    intro e
    subst e
    exact hnotin hv
  · refine (h.untaken v ?_).1
    rcases hpc with rfl | ⟨rfl, -⟩
    · obtain rfl := Option.some.inj hv
      exact List.mem_cons_self
    · cases hv
  · rcases hpc with rfl | ⟨rfl, -⟩ <;> rcases hv with e | e <;> cases e
  · by_cases e : v = u
    · subst e
      rcases hpc with rfl | ⟨-, hf⟩
      · cases hc rfl
      · exact .inr (.inl hf)
    · exact h.marks v hv (by simp [e, hq]) nofun

/-- The worker's function returns, its unit counted down. -/
theorem count (h : Counts w nUnit unit queue (.counting u) outcome counted) :
    Counts (w.done (unit u).owner) nUnit unit queue .idle outcome (Function.update counted u (counted u + 1)) := by
  have hu := h.pc_lt u rfl
  have hnotin : u ∉ queue := fun hq => (h.untaken u hq).2 rfl
  have hzero : counted u = 0 := by
    have := h.acc.counted u hu
    simpa [Pc.unit] using this
  refine ⟨?_, h.queue_lt, nofun, h.nodup, fun v hv => ⟨(h.untaken v hv).1, nofun⟩, fun v hv => ⟨(h.new v hv).1, ?_⟩, nofun,
    fun v ok hv => ?_, fun v hv hq _ => ?_⟩
  · refine h.acc.done hu (by simp [Pc.unit]) rfl rfl rfl rfl (fun _ _ => rfl) (by simp [Pc.unit, hnotin]) (fun v _ hne => ?_)
      (fun _ _ => rfl) (by simp [hzero]) fun v _ hne => Function.update_of_ne hne ..
    simp [Pc.unit, hne.symm]
  · rw [Function.update_of_ne (by omega)]
    exact (h.new v hv).2
  · rcases hv with e | e <;> cases e
  · exact h.marks v hv hq fun e => by rw [Option.some.inj e]

/-- The worker goes on after the end of the transfer. -/
theorem close {ok : Bool} (h : Counts w nUnit unit queue (.ended u ok) outcome counted) :
    Counts w nUnit unit queue (.closing u ok) outcome counted := by
  refine ⟨h.acc, h.queue_lt, h.pc_lt, h.nodup, h.untaken, h.new, nofun, fun v ok' hv => h.ended v ok' ?_, fun v hv hq hc => ?_⟩
  · rcases hv with e | e <;> cases e
    exact .inl rfl
  · refine h.marks v hv hq fun e => ?_
    cases hc e

theorem finish {ok : Bool} (h : Counts w nUnit unit queue pc outcome counted) (hpc : pc = .ended u ok ∨ pc = .closing u ok) :
    Counts (w.failIf (!ok) (unit u).owner) nUnit unit queue (.counting u) outcome counted := by
  have hu : pc.unit = some u := by
    rcases hpc with rfl | rfl <;> rfl
  have hout := h.ended u ok hpc
  refine ⟨?_, h.queue_lt, fun v hv => h.pc_lt v (hu.trans hv), h.nodup, fun v hv => ⟨(h.untaken v hv).1, ?_⟩, h.new, nofun,
    fun v ok hv => ?_, fun v hv hq hc => ?_⟩
  · refine h.acc.congr (by simp) (by simp) (by simp) (fun _ _ => rfl) (fun v _ => ?_) (fun _ _ => rfl) fun _ _ => rfl
    rw [hu]
    rfl
  · exact fun e => (h.untaken v hv).2 (hu.trans e)
  · rcases hv with e | e <;> cases e
  · rw [TaskWrapper.failIf_failureSet, TaskWrapper.failIf_wait]
    by_cases e : v = u
    · subst e
      cases ok with
      | true => exact .inl hout
      | false => simp
    · have := h.marks v hv hq fun hv => absurd (Option.some.inj (hu.symm.trans hv)).symm e
      grind

theorem wait {wl : WaitLabel} (h : Counts w nUnit unit queue pc outcome counted) (hw : waitStep false w wl = some w') :
    Counts w' nUnit unit queue pc outcome counted := by
  have hk := waitStep_keeps hw
  refine { h with acc := h.acc.wait hk, marks := fun v hv hq hc => ?_ }
  rcases h.marks v hv hq hc with ht | hf | hr
  · exact .inl ht
  · rcases hk.marks _ hf with hf | ⟨-, hr, -⟩
    · exact .inr (.inl hf)
    · exact .inr (.inr hr)
  · exact .inr (.inr (hk.kept _ hr))

end Counts

/-! ## The worker's steps -/

namespace Worker

variable (isLoad : Bool) (shards : List (Nat × Nat × (Nat → Nat → Byte)))

theorem submit_unit_old {u : Nat} (hu : u < s.nUnit) : (s.submit isLoad shards).unit u = s.unit u := by
  simp only [submit]
  split
  · rw [if_neg (by omega)]
  · rfl

theorem submit_unit_owner {u : Nat} (h1 : s.nUnit ≤ u) (h2 : u < s.nUnit + shards.length) :
    ((s.submit isLoad shards).unit u).owner = s.wrapper.nTask := by
  simp only [submit, List.getElem?_eq_getElem (show u - s.nUnit < shards.length by omega), if_pos h1]

theorem mem_submit_queue {u : Nat} :
    u ∈ (s.submit isLoad shards).queue ↔ u ∈ s.queue ∨ s.nUnit ≤ u ∧ u < s.nUnit + shards.length := by
  simp only [submit, List.mem_append, List.mem_map, List.mem_range]
  constructor
  · rintro (h | ⟨i, hi, rfl⟩)
    · exact .inl h
    · exact .inr ⟨by omega, by omega⟩
  · rintro (h | ⟨h1, h2⟩)
    · exact .inl h
    · exact .inr ⟨u - s.nUnit, by omega, by omega⟩

end Worker

def Worker.CountInv (s : Worker Byte) : Prop := Counts s.wrapper s.nUnit s.unit s.queue s.pc s.outcome s.counted

theorem Worker.CountInv.submit (h : s.CountInv) (isLoad : Bool) (shards : List (Nat × Nat × (Nat → Nat → Byte))) :
    (s.submit isLoad shards).CountInv := by
  have hnew : ∀ u, s.nUnit ≤ u → u ∉ s.queue ∧ s.pc.unit ≠ some u := fun u hu =>
    ⟨fun hq => absurd (h.queue_lt u hq) (by omega), fun hq => absurd (h.pc_lt u hq) (by omega)⟩
  refine ⟨?_, fun u hu => ?_, fun u hu => ?_, ?_, fun u hu => ?_, fun u hu => h.new u ?_, h.working, h.ended,
    fun u hu hq hc => ?_⟩
  · refine h.acc.submit shards.length (fun u hu => ?_) (fun u hu => ?_) (fun _ _ => rfl)
      (fun _ _ => rfl) fun u h1 h2 => ⟨?_, ?_, ?_⟩
    · rw [Worker.submit_unit_old isLoad shards hu]
    · rw [decide_eq_decide, Worker.mem_submit_queue]
      exact or_congr_left (or_iff_left (by omega))
    · exact Worker.submit_unit_owner isLoad shards h1 h2
    · exact decide_eq_true (.inl ((Worker.mem_submit_queue isLoad shards).mpr (.inr ⟨h1, h2⟩)))
    · exact (h.new u h1).2
  · show u < s.nUnit + shards.length
    rcases (Worker.mem_submit_queue isLoad shards).mp hu with hu | ⟨-, hu⟩
    · exact Nat.lt_add_right _ (h.queue_lt u hu)
    · exact hu
  · exact Nat.lt_add_right _ (h.pc_lt u hu)
  · refine List.Nodup.append h.nodup (List.Nodup.map (fun i j (e : s.nUnit + i = s.nUnit + j) => by omega) List.nodup_range) ?_
    intro u hu hu'
    obtain ⟨i, -, rfl⟩ := List.mem_map.mp hu'
    exact absurd (h.queue_lt _ hu) (by omega)
  · rcases (Worker.mem_submit_queue isLoad shards).mp hu with hu | ⟨hu, -⟩
    · exact h.untaken u hu
    · exact ⟨(h.new u hu).1, (hnew u hu).2⟩
  · exact le_trans (Nat.le_add_right ..) hu
  · rw [Worker.mem_submit_queue, not_or] at hq
    have hlt : u < s.nUnit := by
      by_contra hge
      exact hq.2 ⟨by omega, hu⟩
    rw [Worker.submit_unit_old isLoad shards hlt]
    exact h.marks u hlt hq.1 hc

theorem WorkerCase.countInv (h : WorkerCase C s l s') (hi : s.CountInv) : s'.CountInv := by
  cases h with
  | submit => exact hi.submit _ _
  | wait hw => exact hi.wait hw
  | skip hpc hq hf =>
    unfold Worker.CountInv at hi
    rw [hpc, hq] at hi
    exact hi.take (.inr ⟨rfl, hf⟩)
  | start hpc hq =>
    unfold Worker.CountInv at hi
    rw [hpc, hq] at hi
    exact hi.take (.inl rfl)
  | openRead hpc | openWrite hpc | register hpc | fill hpc | prepRead hpc | prepWrite hpc | submitIos hpc | waitForIos hpc
  | checkRead hpc => exact hi.advance (by rw [hpc]; rfl) rfl
  | checkWrite hpc | copyOut hpc | submitFail hpc => exact hi.ret (by rw [hpc]; rfl) _
  | fail hpc => exact hi.ret hpc _
  | commit hpc =>
    unfold Worker.CountInv at hi
    rw [hpc] at hi
    exact hi.close
  | finish hpc => exact hi.finish hpc
  | count hpc =>
    unfold Worker.CountInv at hi
    rw [hpc] at hi
    exact hi.count
  | @complete read io rest moved result =>
    unfold Worker.complete Worker.move
    split <;> exact hi

theorem reach_countInv {ok : Worker Byte → WorkerLabel Byte → Prop} (h : Reach (worker C) ok s) : s.CountInv := by
  refine h.inv (I := Worker.CountInv) (fun s hs => ?_) fun s l s' hi _ hst => (workerStep_case hst).countInv hi
  have hs : s.IsInit C := hs
  unfold Worker.CountInv
  rw [hs.wrapper, hs.nUnit, hs.queue, hs.pc]
  exact ⟨.init, nofun, nofun, .nil, nofun, fun u _ => ⟨hs.outcome u, hs.counted u⟩, nofun, nofun, fun u hu => by omega⟩

end UnifiedCache.Ds3fs
