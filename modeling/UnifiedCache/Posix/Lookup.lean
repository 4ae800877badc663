/-
  UnifiedCache.Posix.Lookup — the parallel prefix lookup of the Posix store
  (ucm/store/posix/cc/space_manager.cc over ucm/shared/infra/thread/thread_pool.h and latch.h).

  Actors: the caller of `LookupOnPrefix`, one task for each worker (the blocks of one residue), and the
  pool's monitor, which reports a task that takes too long. A step is one access to what they share:
  `status`, `firstFail`, the latch, or the files of a block. Both compare-exchanges are weak: they may
  fail although the value is the expected one.

  The worker tries again until `firstFail` is low enough. The report does not: where its
  compare-exchange fails, `status` is still OK, and it counts the latch down for a task that is not done
  (`missed_stripe`). Without such a report an answer is the prefix (`lookup_on_prefix_exact`).

  The store is static; `present i` is what `Access` says of block `i`. `checked` is a ghost.
-/

import UnifiedCache.Base.Tally
import UnifiedCache.Base.Transition

namespace UnifiedCache.Posix

open UnifiedCache.Base

inductive LookupStatus where
  | ok
  | timeout
  deriving DecidableEq

inductive LookupPc where
  | unpushed
  | queued
  /-- At index `i`, before `status` is read. -/
  | status (i : Nat)
  /-- Before `firstFail` is read. -/
  | firstFail (i : Nat)
  | lookup (i : Nat)
  /-- The block is not there. -/
  | missed (i : Nat)
  | exchange (i cur : Nat)
  /-- Before `Done`. -/
  | leaving
  | done
  deriving DecidableEq

inductive ReportPc where
  | none
  /-- Before `Done`. -/
  | reported
  | done
  deriving DecidableEq

inductive LookupCaller where
  | pushing (begin : Nat)
  | waiting
  | woken
  /-- `status` was OK. -/
  | fine
  | returned (result : Except LookupStatus Int)

structure PrefixLookup where
  caller : LookupCaller
  worker : Nat → LookupPc
  report : Nat → ReportPc
  firstFail : Nat
  status : LookupStatus
  /-- Of the latch. -/
  counter : Nat
  checked : Nat → Bool

inductive LookupLabel where
  | push
  | take (w : Nat)
  /-- With whether a compare-exchange fails for nothing. -/
  | run (w : Nat) (spurious : Bool)
  | report (w : Nat) (spurious : Bool)
  | reportDone (w : Nat)
  /-- The caller's next step. -/
  | call
  deriving DecidableEq

section Steps

variable (nWorker num : Nat) (present : Nat → Bool) (s : PrefixLookup)

def PrefixLookup.setWorker (w : Nat) (pc : LookupPc) : PrefixLookup := { s with worker := Function.update s.worker w pc }

def PrefixLookup.setReport (w : Nat) (pc : ReportPc) : PrefixLookup := { s with report := Function.update s.report w pc }

/-- The head of the loop. -/
def loopAt (i : Nat) : LookupPc := if i < num then .status i else .leaving

/-- `OnLookupPrefix`. -/
def onLookupPrefix (w : Nat) (spurious : Bool) : Option PrefixLookup :=
  match s.worker w with
  | .status i => if s.status = .ok then some (s.setWorker w (.firstFail i)) else some (s.setWorker w .leaving)
  | .firstFail i => if s.firstFail < i then some (s.setWorker w .leaving) else some (s.setWorker w (.lookup i))
  | .lookup i =>
    if present i = true then some ({ s with checked := Function.update s.checked i true }.setWorker w (loopAt num (i + nWorker)))
    else some ({ s with checked := Function.update s.checked i true }.setWorker w (.missed i))
  | .missed i => some (s.setWorker w (.exchange i s.firstFail))
  | .exchange i cur =>
    if i < cur then
      if s.firstFail = cur ∧ spurious = false then some ({ s with firstFail := i }.setWorker w .leaving)
      else some (s.setWorker w (.exchange i s.firstFail))
    else some (s.setWorker w .leaving)
  | .leaving => some ({ s with counter := s.counter - 1 }.setWorker w .done)
  | _ => none

/-- The caller of `LookupOnPrefix`. -/
def callerStep : Option PrefixLookup :=
  match s.caller with
  | .waiting => if s.counter = 0 then some { s with caller := .woken } else none
  | .woken =>
    if s.status = .ok then some { s with caller := .fine } else some { s with caller := .returned (.error s.status) }
  | .fine => some { s with caller := .returned (Except.ok ((s.firstFail : Int) - 1)) }
  | _ => none

def lookupStep : LookupLabel → Option PrefixLookup
  | .push =>
    match s.caller with
    | .pushing w =>
      if w < nWorker then some ({ s with caller := .pushing (w + 1) }.setWorker w .queued) else some { s with caller := .waiting }
    | _ => none
  | .take w => if s.worker w = .queued then some (s.setWorker w (loopAt num w)) else none
  | .run w spurious => onLookupPrefix nWorker num present s w spurious
  | .report w spurious =>
    if s.report w = .none ∧ s.worker w ≠ .unpushed ∧ s.worker w ≠ .queued then
      some ({ s with status := if s.status = LookupStatus.ok ∧ spurious = false then .timeout
        else s.status }.setReport w .reported)
    else none
  | .reportDone w => if s.report w = .reported then some ({ s with counter := s.counter - 1 }.setReport w .done) else none
  | .call => callerStep s

end Steps

structure PrefixLookup.IsInit (nWorker num : Nat) (s : PrefixLookup) : Prop where
  caller : s.caller = if num = 0 then .returned (Except.ok (-1)) else .pushing 0
  worker : ∀ w, s.worker w = .unpushed
  report : ∀ w, s.report w = .none
  firstFail : s.firstFail = num
  status : s.status = .ok
  counter : s.counter = nWorker

def prefixLookup (nWorker num : Nat) (present : Nat → Bool) : System PrefixLookup LookupLabel where
  init := PrefixLookup.IsInit nWorker num
  step := lookupStep nWorker num present

/-- No report's compare-exchange fails for nothing. -/
def Reported (s : PrefixLookup) : LookupLabel → Prop
  | .report _ spurious => s.status = .ok → spurious = false
  | _ => True

instance (s : PrefixLookup) : DecidablePred (Reported s)
  | .report _ spurious => inferInstanceAs (Decidable (s.status = .ok → spurious = false))
  | .push | .take _ | .run _ _ | .reportDone _ | .call => inferInstanceAs (Decidable True)

/-! ## What a worker has found -/

variable {nWorker num : Nat} {present : Nat → Bool} {s s' : PrefixLookup}

/-- The worker's blocks before `i` have been checked, and are there. -/
def Stripe (nWorker : Nat) (present checked : Nat → Bool) (w i : Nat) : Prop :=
  ∀ j, j < i → j % nWorker = w → present j = true ∧ checked j = true

/-- What is known of a worker at a point. -/
def LookupPc.Found (nWorker num : Nat) (present : Nat → Bool) (s : PrefixLookup) (w : Nat) : LookupPc → Prop
  | .unpushed | .queued => True
  | .status i | .firstFail i | .lookup i => i < num ∧ i % nWorker = w ∧ Stripe nWorker present s.checked w i
  | .missed i => i < num ∧ i % nWorker = w ∧ Stripe nWorker present s.checked w i ∧ present i = false
  | .exchange i cur => i < num ∧ i % nWorker = w ∧ Stripe nWorker present s.checked w i ∧ present i = false ∧ s.firstFail ≤ cur
  | .leaving | .done => s.status ≠ .ok ∨ Stripe nWorker present s.checked w (min num s.firstFail)

theorem Stripe.mono {checked checked' : Nat → Bool} {w i i' : Nat} (h : Stripe nWorker present checked w i) (hle : i' ≤ i)
    (hc : ∀ j, checked j = true → checked' j = true) : Stripe nWorker present checked' w i' := by
  intro j hj hm
  obtain ⟨hp, hch⟩ := h j (Nat.lt_of_lt_of_le hj hle) hm
  exact ⟨hp, hc j hch⟩

/-- The shared state only goes on. -/
theorem LookupPc.Found.mono {w : Nat} {pc : LookupPc} (h : pc.Found nWorker num present s w) (hf : s'.firstFail ≤ s.firstFail)
    (hst : s.status ≠ .ok → s'.status ≠ .ok) (hc : ∀ j, s.checked j = true → s'.checked j = true) :
    pc.Found nWorker num present s' w := by
  cases pc with
  | unpushed => trivial
  | queued => trivial
  | status i => exact ⟨h.1, h.2.1, h.2.2.mono (Nat.le_refl _) hc⟩
  | firstFail i => exact ⟨h.1, h.2.1, h.2.2.mono (Nat.le_refl _) hc⟩
  | lookup i => exact ⟨h.1, h.2.1, h.2.2.mono (Nat.le_refl _) hc⟩
  | missed i => exact ⟨h.1, h.2.1, h.2.2.1.mono (Nat.le_refl _) hc, h.2.2.2⟩
  | exchange i cur => exact ⟨h.1, h.2.1, h.2.2.1.mono (Nat.le_refl _) hc, h.2.2.2.1, Nat.le_trans hf h.2.2.2.2⟩
  | leaving => exact h.imp hst fun hs => hs.mono (by omega) hc
  | done => exact h.imp hst fun hs => hs.mono (by omega) hc

/-- A stripe that is done up to `i` has no block between `i` and the next one. -/
theorem Stripe.next {checked : Nat → Bool} {w i : Nat} (h : Stripe nWorker present checked w i) (hi : i % nWorker = w)
    (hp : present i = true)
    (hc : checked i = true) : Stripe nWorker present checked w (i + nWorker) := by
  intro j hj hm
  rcases Nat.lt_trichotomy j i with hlt | rfl | hgt
  · exact h j hlt hm
  · exact ⟨hp, hc⟩
  · have hmod : (j - i) % nWorker = 0 := by
      rw [← hi] at hm
      exact Nat.sub_mod_eq_zero_of_mod_eq hm
    have hsmall : j - i < nWorker := by omega
    rw [Nat.mod_eq_of_lt hsmall] at hmod
    omega

theorem Stripe.first {checked : Nat → Bool} {w : Nat} (hw : w < nWorker) : Stripe nWorker present checked w w := by
  intro j hj hm
  rw [Nat.mod_eq_of_lt (Nat.lt_trans hj hw)] at hm
  omega

theorem found_loopAt {w i : Nat} (hi : i % nWorker = w) (h : Stripe nWorker present s.checked w i) :
    (loopAt num i).Found nWorker num present s w := by
  unfold loopAt
  split
  · next hlt => exact ⟨hlt, hi, h⟩
  · exact .inr (h.mono (by omega) fun _ hc => hc)

/-! ## The runs -/

structure PrefixInv (nWorker num : Nat) (present : Nat → Bool) (s : PrefixLookup) : Prop where
  found : ∀ w, w < nWorker → (s.worker w).Found nWorker num present s w
  pushed : ∀ w, s.worker w ≠ .unpushed → w < nWorker
  unpushed : ∀ k, s.caller = .pushing k → ∀ w, k ≤ w → s.worker w = .unpushed
  firstFail : s.firstFail ≤ num ∧ (s.firstFail < num → present s.firstFail = false)
  /-- While no task has been reported, the latch counts the tasks that are not done. -/
  latch : s.status = .ok → (∀ w, s.report w = .none) ∧ s.counter = Nat.count (fun w => s.worker w ≠ .done) nWorker
  woken : s.caller = .woken → s.status = .ok → ∀ w, w < nWorker → s.worker w = .done
  fine : s.caller = .fine → (∀ w, w < nWorker → s.worker w = .done) ∧
    ∀ i, i < s.firstFail → present i = true ∧ s.checked i = true
  returned : ∀ r, s.caller = .returned (.ok r) → num = 0 ∧ r = -1 ∨ ∃ f : Nat, r = f - 1 ∧ f ≤ num ∧
      (f < num → present f = false) ∧
    ∀ i, i < f → present i = true ∧ s.checked i = true

theorem PrefixInv.below (h : PrefixInv nWorker num present s) {w : Nat} (hw : s.worker w ≠ .unpushed) (k : Nat)
    (hk : s.caller = .pushing k) : w < k :=
  Nat.lt_of_not_le fun hle => hw (h.unpushed k hk w hle)

/-- A worker moves, and what it shares only goes on. -/
theorem PrefixInv.work (h : PrefixInv nWorker num present s) {w : Nat} {pc : LookupPc} (hw : w < nWorker)
    (hold : s.worker w ≠ .done)
    (hbelow : ∀ k, s.caller = .pushing k → w < k) (hworker : s'.worker = Function.update s.worker w pc)
    (hreport : s'.report = s.report) (hcaller : s'.caller = s.caller)
    (hstatus : s'.status = s.status) (hff : s'.firstFail = s.firstFail ∨ s'.firstFail < s.firstFail ∧
      present s'.firstFail = false)
    (hchecked : ∀ j, s.checked j = true → s'.checked j = true) (hfound : pc.Found nWorker num present s' w)
    (hcounter : s'.counter = if pc = .done then s.counter - 1 else s.counter) : PrefixInv nWorker num present s' := by
  have hle : s'.firstFail ≤ s.firstFail := by
    rcases hff with e | ⟨hlt, -⟩
    · exact Nat.le_of_eq e
    · exact Nat.le_of_lt hlt
  refine ⟨?_, ?_, ?_, ?_, ?_, ?_, ?_, ?_⟩
  · intro w' hw'
    rw [hworker]
    by_cases e : w' = w
    · rw [e, Function.update_self]
      exact hfound
    · rw [Function.update_of_ne e]
      exact (h.found w' hw').mono hle (by rw [hstatus]; exact id) hchecked
  · intro w' hw'
    by_cases e : w' = w
    · rw [e]
      exact hw
    · rw [hworker, Function.update_of_ne e] at hw'
      exact h.pushed w' hw'
  · intro k hk w' hle
    rw [hcaller] at hk
    have hne : w' ≠ w := Nat.ne_of_gt (Nat.lt_of_lt_of_le (hbelow k hk) hle)
    rw [hworker, Function.update_of_ne hne]
    exact h.unpushed k hk w' hle
  · rcases hff with e | ⟨hlt, hp⟩
    · rw [e]
      exact h.firstFail
    · exact ⟨Nat.le_trans hle h.firstFail.1, fun _ => hp⟩
  · intro hok
    rw [hstatus] at hok
    obtain ⟨hnone, hc⟩ := h.latch hok
    rw [hreport, hworker, hcounter, hc]
    refine ⟨hnone, ?_⟩
    by_cases hd : pc = .done
    · rw [if_pos hd]
      have hdrop : Nat.count (fun w => s.worker w ≠ .done) nWorker =
          Nat.count (fun w' => Function.update s.worker w pc w' ≠ .done) nWorker + 1 := by
        refine tally_drop hw hold ?_ ?_
        · rw [Function.update_self, hd]
          exact fun hne => hne rfl
        · intro w' _ hne
          rw [Function.update_of_ne hne]
      omega
    · rw [if_neg hd]
      refine tally_congr fun w' _ => ?_
      by_cases e : w' = w
      · subst e
        rw [Function.update_self]
        exact ⟨fun _ => hd, fun _ => hold⟩
      · rw [Function.update_of_ne e]
  · intro hc hok
    rw [hcaller] at hc
    rw [hstatus] at hok
    exact absurd (h.woken hc hok w hw) hold
  · intro hc
    rw [hcaller] at hc
    exact absurd ((h.fine hc).1 w hw) hold
  · intro r hc
    rw [hcaller] at hc
    rcases h.returned r hc with hz | ⟨f, hr, hf, hlt, hall⟩
    · exact .inl hz
    · exact .inr ⟨f, hr, hf, hlt, fun i hi => ⟨(hall i hi).1, hchecked i (hall i hi).2⟩⟩

theorem PrefixInv.run (h : PrefixInv nWorker num present s) {w : Nat} {spurious : Bool}
    (hs : onLookupPrefix nWorker num present s w spurious = some s') : PrefixInv nWorker num present s' := by
  have hw : s.worker w ≠ .unpushed → w < nWorker := h.pushed w
  cases hpc : s.worker w with
  | status i =>
    simp only [onLookupPrefix, hpc] at hs
    have hfound := h.found w (hw (by simp [hpc]))
    rw [hpc] at hfound
    split at hs
    · obtain rfl := Option.some.inj hs
      exact h.work (hw (by simp [hpc])) (by simp [hpc]) (h.below (by simp [hpc])) rfl rfl rfl rfl (.inl rfl)
        (fun _ hc => hc) hfound rfl
    · next hbad =>
      obtain rfl := Option.some.inj hs
      exact h.work (hw (by simp [hpc])) (by simp [hpc]) (h.below (by simp [hpc])) rfl rfl rfl rfl (.inl rfl) (fun _ hc => hc)
        (.inl hbad) rfl
  | firstFail i =>
    simp only [onLookupPrefix, hpc] at hs
    have hfound := h.found w (hw (by simp [hpc]))
    rw [hpc] at hfound
    split at hs
    · next hlt =>
      -- the rest of the stripe is beyond a block that is not there
      obtain rfl := Option.some.inj hs
      refine h.work (hw (by simp [hpc])) (by simp [hpc]) (h.below (by simp [hpc])) rfl rfl rfl rfl (.inl rfl)
        (fun _ hc => hc) (.inr ?_) rfl
      exact hfound.2.2.mono (Nat.le_trans (Nat.min_le_right ..) (Nat.le_of_lt hlt)) fun _ hc => hc
    · obtain rfl := Option.some.inj hs
      exact h.work (hw (by simp [hpc])) (by simp [hpc]) (h.below (by simp [hpc])) rfl rfl rfl rfl (.inl rfl)
        (fun _ hc => hc) hfound rfl
  | lookup i =>
    simp only [onLookupPrefix, hpc] at hs
    have hfound := h.found w (hw (by simp [hpc]))
    rw [hpc] at hfound
    obtain ⟨hi, hmod, hstripe⟩ := hfound
    have hmono : ∀ j, s.checked j = true → Function.update s.checked i true j = true := by
      intro j hj
      by_cases e : j = i
      · rw [e, Function.update_self]
      · rw [Function.update_of_ne e]
        exact hj
    have hstripe' := hstripe.mono (Nat.le_refl _) hmono
    split at hs
    · next hp =>
      obtain rfl := Option.some.inj hs
      refine h.work (hw (by simp [hpc])) (by simp [hpc]) (h.below (by simp [hpc])) rfl rfl rfl rfl (.inl rfl) hmono ?_ ?_
      · exact found_loopAt (by rw [Nat.add_mod_right, hmod]) (hstripe'.next hmod hp (Function.update_self ..))
      · unfold loopAt
        split <;> rfl
    · next hp =>
      obtain rfl := Option.some.inj hs
      exact h.work (hw (by simp [hpc])) (by simp [hpc]) (h.below (by simp [hpc])) rfl rfl rfl rfl (.inl rfl) hmono ⟨hi, hmod,
        hstripe', Bool.eq_false_of_not_eq_true hp⟩ rfl
  | missed i =>
    simp only [onLookupPrefix, hpc] at hs
    have hfound := h.found w (hw (by simp [hpc]))
    rw [hpc] at hfound
    obtain rfl := Option.some.inj hs
    exact h.work (hw (by simp [hpc])) (by simp [hpc]) (h.below (by simp [hpc])) rfl rfl rfl rfl (.inl rfl) (fun _ hc => hc)
      ⟨hfound.1, hfound.2.1, hfound.2.2.1, hfound.2.2.2, Nat.le_refl _⟩ rfl
  | exchange i cur =>
    simp only [onLookupPrefix, hpc] at hs
    have hfound := h.found w (hw (by simp [hpc]))
    rw [hpc] at hfound
    obtain ⟨hi, hmod, hstripe, hp, hcur⟩ := hfound
    split at hs
    · next hlt =>
      split at hs
      · next hcas =>
        obtain rfl := Option.some.inj hs
        refine h.work (hw (by simp [hpc])) (by simp [hpc]) (h.below (by simp [hpc])) rfl rfl rfl rfl (.inr ⟨?_, hp⟩)
          (fun _ hc => hc) (.inr ?_) rfl
        · change i < s.firstFail
          rw [hcas.1]
          exact hlt
        · exact hstripe.mono (Nat.min_le_right ..) fun _ hc => hc
      · obtain rfl := Option.some.inj hs
        exact h.work (hw (by simp [hpc])) (by simp [hpc]) (h.below (by simp [hpc])) rfl rfl rfl rfl (.inl rfl) (fun _ hc => hc)
          ⟨hi, hmod, hstripe, hp, Nat.le_refl _⟩ rfl
    · next hge =>
      obtain rfl := Option.some.inj hs
      refine h.work (hw (by simp [hpc])) (by simp [hpc]) (h.below (by simp [hpc])) rfl rfl rfl rfl (.inl rfl)
        (fun _ hc => hc) (.inr ?_) rfl
      refine hstripe.mono ?_ fun _ hc => hc
      change min num s.firstFail ≤ i
      omega
  | leaving =>
    simp only [onLookupPrefix, hpc] at hs
    have hfound := h.found w (hw (by simp [hpc]))
    rw [hpc] at hfound
    obtain rfl := Option.some.inj hs
    exact h.work (hw (by simp [hpc])) (by simp [hpc]) (h.below (by simp [hpc])) rfl rfl rfl rfl (.inl rfl)
      (fun _ hc => hc) hfound rfl
  | _ =>
    simp only [onLookupPrefix, hpc] at hs
    cases hs

/-- All the stripes together are the whole list. -/
theorem stripes_all (hn : 0 < nWorker) {checked : Nat → Bool} {n : Nat}
    (h : ∀ w, w < nWorker → Stripe nWorker present checked w n) (i : Nat) (hi : i < n) :
    present i = true ∧ checked i = true :=
  h (i % nWorker) (Nat.mod_lt _ hn) i hi rfl

theorem PrefixInv.call (hn : 0 < nWorker) (h : PrefixInv nWorker num present s) (hs : callerStep s = some s') :
    PrefixInv nWorker num present s' := by
  cases hc : s.caller with
  | waiting =>
    simp only [callerStep, hc] at hs
    split at hs
    · next hz =>
      obtain rfl := Option.some.inj hs
      refine ⟨h.found, h.pushed, nofun, h.firstFail, h.latch, ?_, nofun, nofun⟩
      intro _ hok w hw
      have hcount := (h.latch hok).2
      rw [hz] at hcount
      exact Decidable.not_not.mp (not_of_tally_zero hcount.symm hw)
    · cases hs
  | woken =>
    simp only [callerStep, hc] at hs
    split at hs
    · next hok =>
      obtain rfl := Option.some.inj hs
      refine ⟨h.found, h.pushed, nofun, h.firstFail, h.latch, nofun, ?_, nofun⟩
      intro _
      have hdone := h.woken hc hok
      refine ⟨hdone, stripes_all hn fun w hw => ?_⟩
      have hfound := h.found w hw
      rw [hdone w hw] at hfound
      have hstripe := hfound.resolve_left fun hne => hne hok
      rwa [Nat.min_eq_right h.firstFail.1] at hstripe
    · obtain rfl := Option.some.inj hs
      exact ⟨h.found, h.pushed, nofun, h.firstFail, h.latch, nofun, nofun, nofun⟩
  | fine =>
    simp only [callerStep, hc] at hs
    obtain rfl := Option.some.inj hs
    refine ⟨h.found, h.pushed, nofun, h.firstFail, h.latch, nofun, nofun, ?_⟩
    intro r hr
    simp only [LookupCaller.returned.injEq, Except.ok.injEq] at hr
    exact .inr ⟨s.firstFail, hr.symm, h.firstFail.1, h.firstFail.2, (h.fine hc).2⟩
  | _ =>
    simp only [callerStep, hc] at hs
    cases hs

/-- A task changes its place in the pool. -/
theorem PrefixInv.place (h : PrefixInv nWorker num present s) {w : Nat} {pc : LookupPc}
    (hold : s.worker w = .unpushed ∨ s.worker w = .queued)
    (hw : w < nWorker) (hbelow : ∀ k, s.caller = .pushing k → w < k) (hpc : pc ≠ .done)
    (hfound : pc.Found nWorker num present s w) : PrefixInv nWorker num present (s.setWorker w pc) := by
  refine h.work hw ?_ hbelow rfl rfl rfl rfl (.inl rfl) (fun _ hc => hc) ?_ (if_neg hpc).symm
  · rcases hold with e | e
    · rw [e]
      nofun
    · rw [e]
      nofun
  · exact hfound.mono (Nat.le_refl _) id fun _ hc => hc

theorem PrefixInv.step (hn : 0 < nWorker) (h : PrefixInv nWorker num present s) {l : LookupLabel} (hok : Reported s l)
    (hs : lookupStep nWorker num present s l = some s') : PrefixInv nWorker num present s' := by
  cases l with
  | push =>
    cases hc : s.caller with
    | pushing k =>
      simp only [lookupStep, hc] at hs
      split at hs
      · next hk =>
        obtain rfl := Option.some.inj hs
        have hnext : PrefixInv nWorker num present { s with caller := .pushing (k + 1) } := by
          refine ⟨fun w hw => (h.found w hw).mono (Nat.le_refl _) id fun _ hc => hc, h.pushed, ?_, h.firstFail, h.latch,
            nofun, nofun, nofun⟩
          intro k' hk' w hle
          obtain rfl := LookupCaller.pushing.inj hk'
          exact h.unpushed k hc w (Nat.le_of_succ_le hle)
        refine hnext.place (.inl (h.unpushed k hc k (Nat.le_refl _))) hk ?_ nofun trivial
        intro k' hk'
        obtain rfl := LookupCaller.pushing.inj hk'
        exact Nat.lt_succ_self k
      · obtain rfl := Option.some.inj hs
        exact ⟨fun w hw => (h.found w hw).mono (Nat.le_refl _) id fun _ hc => hc, h.pushed, nofun, h.firstFail, h.latch,
          nofun, nofun, nofun⟩
    | _ =>
      simp only [lookupStep, hc] at hs
      cases hs
  | take w =>
    simp only [lookupStep] at hs
    split at hs
    · next hq =>
      obtain rfl := Option.some.inj hs
      have hw := h.pushed w (by simp [hq])
      refine h.place (.inr hq) hw (h.below (by simp [hq])) ?_ (found_loopAt (Nat.mod_eq_of_lt hw) (Stripe.first hw))
      unfold loopAt
      split <;> nofun
    · cases hs
  | run w spurious => exact h.run hs
  | report w spurious =>
    simp only [lookupStep] at hs
    split at hs
    · obtain rfl := Option.some.inj hs
      have hbad : (if s.status = LookupStatus.ok ∧ spurious = false then LookupStatus.timeout else s.status) ≠
          LookupStatus.ok := by
        by_cases hst : s.status = .ok
        · rw [if_pos ⟨hst, hok hst⟩]
          nofun
        · rw [if_neg fun e => hst e.1]
          exact hst
      refine ⟨?_, h.pushed, h.unpushed, h.firstFail, fun hst => absurd hst hbad, fun _ hst => absurd hst hbad, h.fine, h.returned⟩
      intro w' hw'
      exact (h.found w' hw').mono (Nat.le_refl _) (fun _ => hbad) fun _ hc => hc
    · cases hs
  | reportDone w =>
    simp only [lookupStep] at hs
    split at hs
    · next hr =>
      obtain rfl := Option.some.inj hs
      have hbad : s.status ≠ .ok := by
        intro hst
        rw [(h.latch hst).1 w] at hr
        cases hr
      exact ⟨fun w' hw' => (h.found w' hw').mono (Nat.le_refl _) id fun _ hc => hc, h.pushed, h.unpushed, h.firstFail,
        fun hst => absurd hst hbad,
        fun _ hst => absurd hst hbad, h.fine, h.returned⟩
    · cases hs
  | call => exact h.call hn hs

theorem prefixInv (hn : 0 < nWorker) (h : Reach (prefixLookup nWorker num present) Reported s) :
    PrefixInv nWorker num present s := by
  refine h.inv (I := PrefixInv nWorker num present) ?_ ?_
  · intro s hs
    have hcaller := hs.caller
    refine ⟨?_, ?_, ?_, ?_, ?_, ?_, ?_, ?_⟩
    · intro w _
      rw [hs.worker]
      trivial
    · intro w hw
      exact absurd (hs.worker w) hw
    · intro k _ w _
      exact hs.worker w
    · rw [hs.firstFail]
      exact ⟨Nat.le_refl _, fun hlt => absurd hlt (Nat.lt_irrefl _)⟩
    · intro _
      refine ⟨hs.report, ?_⟩
      rw [hs.counter]
      refine (Nat.count_iff_forall.mpr fun w _ => ?_).symm
      rw [hs.worker]
      nofun
    · intro hw
      rw [hw] at hcaller
      split at hcaller <;> cases hcaller
    · intro hw
      rw [hw] at hcaller
      split at hcaller <;> cases hcaller
    · intro r hr
      rw [hr] at hcaller
      split at hcaller
      · next hz =>
        simp only [LookupCaller.returned.injEq, Except.ok.injEq] at hcaller
        exact .inl ⟨hz, hcaller⟩
      · cases hcaller
  · intro s l s' hi hok hs
    exact hi.step hn hok hs

/-- An answer is the prefix: the blocks up to it have been checked and are there, and the next one is not. -/
theorem lookup_on_prefix_exact (hn : 0 < nWorker) (h : Reach (prefixLookup nWorker num present) Reported s) {r : Int}
    (hr : s.caller = .returned (.ok r)) :
    -1 ≤ r ∧ r < num ∧ (∀ i : Nat, (i : Int) ≤ r → s.checked i = true ∧ present i = true) ∧ ∀ i : Nat, (i : Int) = r + 1 →
    i < num → present i = false := by
  rcases (prefixInv hn h).returned r hr with ⟨hz, rfl⟩ | ⟨f, rfl, hf, hnext, hall⟩
  · refine ⟨by omega, by omega, ?_, ?_⟩
    · intro i hi
      omega
    · intro i hi hlt
      omega
  · refine ⟨by omega, by omega, ?_, ?_⟩
    · intro i hi
      have := hall i (by omega)
      exact ⟨this.2, this.1⟩
    · intro i hi hlt
      obtain rfl : i = f := by omega
      exact hnext hlt

/-- Two workers and three blocks of which the second is absent; the first worker stops before the third. -/
theorem lookup_on_prefix_exact_two : ∃ s, Reach (prefixLookup 2 3 fun i => i ≠ 1) Reported s ∧ s.caller = .returned (.ok 0) ∧
    s.checked 2 = false ∧ (∀ i : Nat, (i : Int) ≤ 0 → s.checked i = true ∧ decide (i ≠ 1) = true) ∧
      ∀ i : Nat, (i : Int) = 0 + 1 → i < 3 → decide (i ≠ 1) = false := by
  obtain ⟨s, hs, hp⟩ := exists_of_replayOk (S := prefixLookup 2 3 fun i => i ≠ 1) (fun s l => decide (Reported s l))
    (fun _ _ => of_decide_eq_true)
    [.push, .push, .push, .take 0, .take 1, .run 0 false, .run 0 false, .run 0 false, .run 0 false, .run 1 false, .run 1 false,
      .run 1 false, .run 1 false, .run 1 true, .run 1 false, .run 0 false, .run 0 false, .run 1 false, .call, .call, .call]
    (s := ⟨.pushing 0, fun _ => .unpushed, fun _ => .none, 3, .ok, 2, fun _ => false⟩)
    (p := fun s => (match s.caller with | .returned (.ok r) => decide (r = 0) | _ => false) && !s.checked 2)
    ⟨rfl, fun _ => rfl, fun _ => rfl, rfl, rfl, rfl⟩ (by decide)
  rw [Bool.and_eq_true, Bool.not_eq_true'] at hp
  have hcaller := hp.1
  have hr : s.caller = .returned (.ok 0) := by
    split at hcaller
    · next r he => rw [he, of_decide_eq_true hcaller]
    · cases hcaller
  obtain ⟨-, -, hbelow, habsent⟩ := lookup_on_prefix_exact (by decide) hs hr
  exact ⟨s, hs, hr, hp.2, hbelow, habsent⟩

/-- The report of the second task fails to set `status`, and counts for it: the block of that task is never checked. -/
theorem missed_stripe : ∃ s, Reach (prefixLookup 2 2 fun i => i = 0) Any s ∧ s.caller = .returned (.ok 1) ∧
    s.checked 1 = false := by
  obtain ⟨s, hs, hp⟩ := exists_of_replay (S := prefixLookup 2 2 fun i => i = 0)
    [.push, .push, .push, .take 0, .take 1, .report 1 true, .reportDone 1, .run 0 false, .run 0 false, .run 0 false,
      .run 0 false, .call, .call, .call]
    (s := ⟨.pushing 0, fun _ => .unpushed, fun _ => .none, 2, .ok, 2, fun _ => false⟩)
    (p := fun s => (match s.caller with | .returned (.ok r) => decide (r = 1) | _ => false) && !s.checked 1)
    ⟨rfl, fun _ => rfl, fun _ => rfl, rfl, rfl, rfl⟩ (by decide)
  rw [Bool.and_eq_true, Bool.not_eq_true'] at hp
  refine ⟨s, hs, ?_, hp.2⟩
  have hcaller := hp.1
  split at hcaller
  · next r he => rw [he, of_decide_eq_true hcaller]
  · cases hcaller

end UnifiedCache.Posix
