/-
  UnifiedCache.Detail.Accounting — a latch against the units of work behind it.

  An engine splits a task into units, each of which is to count the task's latch down. A unit is
  `pend` while it still has to, `lost` when an `Abort` took its count; `counted` is how often it
  has moved the counter.

  `Accounted`: the counter is the number of units that are pending, each other unit has counted
  once or was lost, and a task whose `Wait` has returned has nothing pending (`settled`). One
  lemma for each way the parts move together.
-/

import UnifiedCache.Base.Tally
import UnifiedCache.Detail.TaskWrapper

namespace UnifiedCache.Detail

open UnifiedCache.Base

structure Accounted (w : TaskWrapper) (n : Nat) (task : Nat → Nat) (pend lost : Nat → Bool) (counted : Nat → Nat) : Prop where
  task_lt : ∀ u, u < n → task u < w.nTask
  counter : ∀ t, w.counter t = Nat.count (fun u => task u = t ∧ pend u = true) n
  counted : ∀ u, u < n → counted u = if pend u = true ∨ lost u = true then 0 else 1
  returned : ∀ t, w.wait t = .returned → w.counter t = 0
  fresh : ∀ t, w.wait t ≠ .notCalled → t < w.nTask

namespace Accounted

variable {w w' : TaskWrapper} {n : Nat} {task task' : Nat → Nat} {pend pend' lost lost' : Nat → Bool}
  {counted counted' : Nat → Nat}

theorem init : Accounted .init 0 task pend lost counted :=
  ⟨fun u hu => by omega, fun _ => rfl, fun u hu => by omega, fun _ _ => rfl, fun _ h => absurd rfl h⟩

/-- Once `Wait` has returned, nothing is pending. -/
theorem settled (h : Accounted w n task pend lost counted) {u : Nat} (hu : u < n) (hw : w.wait (task u) = .returned) :
    pend u = false := by
  have hz := h.counter (task u)
  rw [h.returned _ hw] at hz
  have := not_of_tally_zero hz.symm hu
  simpa using this

theorem counter_pos (h : Accounted w n task pend lost counted) {u : Nat} (hu : u < n) (hp : pend u = true) :
    0 < w.counter (task u) := by
  rw [h.counter]
  exact tally_pos hu ⟨rfl, hp⟩

/-- Nothing that is counted has changed, and the latches are the same. -/
theorem congr (h : Accounted w n task pend lost counted) (hn : w'.nTask = w.nTask) (hc : w'.counter = w.counter)
    (hw : w'.wait = w.wait) (ht : ∀ u, u < n → task' u = task u) (hp : ∀ u, u < n → pend' u = pend u)
    (hl : ∀ u, u < n → lost' u = lost u) (hk : ∀ u, u < n → counted' u = counted u) :
    Accounted w' n task' pend' lost' counted' := by
  refine ⟨fun u hu => ?_, fun t => ?_, fun u hu => ?_, fun t ht' => ?_, fun t ht' => ?_⟩
  · rw [ht u hu, hn]
    exact h.task_lt u hu
  · rw [hc, h.counter]
    exact tally_congr fun u hu => by rw [ht u hu, hp u hu]
  · rw [hk u hu, hp u hu, hl u hu]
    exact h.counted u hu
  · rw [hc]
    exact h.returned t (hw ▸ ht')
  · rw [hn]
    exact h.fresh t (hw ▸ ht')

/-- `Wait` takes a step. -/
theorem wait {isAio : Bool} (h : Accounted w n task pend lost counted) (hk : WaitKeeps isAio w w') :
    Accounted w' n task pend lost counted := by
  refine ⟨fun u hu => ?_, fun t => ?_, h.counted, fun t ht => ?_, fun t ht => ?_⟩
  · rw [hk.nTask]
    exact h.task_lt u hu
  · rw [hk.counter]
    exact h.counter t
  · rw [hk.counter]
    rcases hk.returned t ht with hr | hz
    · exact h.returned t hr
    · exact hz
  · rw [hk.nTask]
    rcases hk.called t ht with hc | hlt
    · exact h.fresh t hc
    · exact hlt

/-- A task of `k` units is submitted. -/
theorem submit (h : Accounted w n task pend lost counted) (k : Nat) (ht : ∀ u, u < n → task' u = task u)
    (hp : ∀ u, u < n → pend' u = pend u) (hl : ∀ u, u < n → lost' u = lost u) (hk : ∀ u, u < n → counted' u = counted u)
    (hnew : ∀ u, n ≤ u → u < n + k → task' u = w.nTask ∧ pend' u = true ∧ counted' u = 0) :
    Accounted (w.submit k) (n + k) task' pend' lost' counted' := by
  refine ⟨fun u hu => ?_, fun t => ?_, fun u hu => ?_, fun t hr => ?_, fun t hr => ?_⟩
  · rw [TaskWrapper.submit_nTask]
    by_cases hlt : u < n
    · have := h.task_lt u hlt
      rw [ht u hlt]
      omega
    · rw [(hnew u (by omega) hu).1]
      omega
  · rw [TaskWrapper.submit_counter]
    split
    · next e =>
      -- the new task's units are exactly the new ones
      subst e
      rw [tally_add (p := fun u => task u = w.nTask ∧ pend u = true) (fun u hu => by rw [ht u hu, hp u hu])
        fun u h1 h2 => ⟨(hnew u h1 h2).1, (hnew u h1 h2).2.1⟩]
      have hz : Nat.count (fun u => task u = w.nTask ∧ pend u = true) n = 0 := by
        refine Nat.count_iff_forall_not.mpr fun u hu hc => ?_
        have := h.task_lt u hu
        omega
      rw [hz, Nat.zero_add]
    · next hne =>
      rw [h.counter]
      refine (tally_skip (fun u hu => by rw [ht u hu, hp u hu]) fun u h1 h2 hc => ?_).symm
      rw [(hnew u h1 h2).1] at hc
      exact hne hc.1.symm
  · by_cases hlt : u < n
    · rw [hk u hlt, hp u hlt, hl u hlt]
      exact h.counted u hlt
    · obtain ⟨-, h2, h3⟩ := hnew u (by omega) hu
      rw [h2, h3, if_pos (.inl rfl)]
  · rw [TaskWrapper.submit_wait] at hr
    have hlt := h.fresh t (by rw [hr]; decide)
    rw [TaskWrapper.submit_counter, if_neg (by omega)]
    exact h.returned t hr
  · have hlt := h.fresh t hr
    rw [TaskWrapper.submit_nTask]
    omega

/-- A pending unit counts down. -/
theorem done (h : Accounted w n task pend lost counted) {k : Nat} (hk : k < n) (hp : pend k = true) (hl : lost k = false)
    (hn : w'.nTask = w.nTask) (hc : w'.counter = (w.done (task k)).counter) (hw : w'.wait = w.wait)
    (ht : ∀ u, u < n → task' u = task u) (hpk : pend' k = false) (hp' : ∀ u, u < n → u ≠ k → pend' u = pend u)
    (hl' : ∀ u, u < n → lost' u = lost u) (hck : counted' k = 1) (hc' : ∀ u, u < n → u ≠ k → counted' u = counted u) :
    Accounted w' n task' pend' lost' counted' := by
  refine ⟨fun u hu => ?_, fun t => ?_, fun u hu => ?_, fun t hr => ?_, fun t hr => ?_⟩
  · rw [ht u hu, hn]
    exact h.task_lt u hu
  · rw [hc, TaskWrapper.done_counter]
    split
    · next e =>
      subst e
      rw [h.counter, tally_drop (q := fun u => task' u = task k ∧ pend' u = true) hk ⟨rfl, hp⟩ (by simp [hpk])
        fun u hu hne => by rw [ht u hu, hp' u hu hne], Nat.add_sub_cancel]
    · next hne =>
      rw [h.counter]
      refine tally_congr fun u hu => ?_
      rw [ht u hu]
      by_cases huk : u = k
      · subst huk
        exact ⟨fun hx => absurd hx.1.symm hne, fun hx => absurd hx.1.symm hne⟩
      · rw [hp' u hu huk]
  · by_cases huk : u = k
    · subst huk
      rw [hck, hpk, hl' u hu, hl]
      simp
    · rw [hc' u hu huk, hp' u hu huk, hl' u hu]
      exact h.counted u hu
  · have hz := h.returned t (hw ▸ hr)
    rw [hc, TaskWrapper.done_counter]
    split
    · next e => rw [← e, hz]
    · exact hz
  · rw [hn]
    exact h.fresh t (hw ▸ hr)

/-- A latch is aborted: its pending units are lost. -/
theorem abort (h : Accounted w n task pend lost counted) (t : Nat)
    (hp' : ∀ u, u < n → pend' u = if task u = t then false else pend u)
    (hl' : ∀ u, u < n → lost' u = if task u = t ∧ pend u = true then true else lost u) :
    Accounted (w.abort t) n task pend' lost' counted := by
  refine ⟨h.task_lt, fun t' => ?_, fun u hu => ?_, fun t' hr => ?_, h.fresh⟩
  · rw [TaskWrapper.abort_counter]
    split
    · next e =>
      subst e
      refine (Nat.count_iff_forall_not.mpr fun u hu hc => ?_).symm
      rw [hp' u hu, if_pos hc.1] at hc
      cases hc.2
    · next hne =>
      rw [h.counter]
      refine tally_congr fun u hu => ?_
      rw [hp' u hu]
      split
      · next e => exact ⟨fun hx => absurd (hx.1.symm.trans e) hne, fun hx => by cases hx.2⟩
      · rfl
  · rw [h.counted u hu, hp' u hu, hl' u hu]
    by_cases e : task u = t
    · by_cases hpu : pend u = true <;> simp [e, hpu]
    · simp [e]
  · rw [TaskWrapper.abort_counter]
    split
    · rfl
    · exact h.returned t' hr

end Accounted

end UnifiedCache.Detail
