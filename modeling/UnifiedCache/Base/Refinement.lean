/-
  UnifiedCache.Base.Refinement — what is seen of a run, and systems that show no more than others.

  A step is seen as an event, or not seen. A simulation relates the states of a system to those of a
  more abstract one, so that what is seen of a step is seen of some steps of the abstract system.

  - `Simulation.run`: what is seen of any run is seen of a run of the abstract system, which ends in a
    related state.
  - `System.within`: a system that takes only steps which meet a condition.
-/

import UnifiedCache.Base.Transition

namespace UnifiedCache.Base

variable {σ α τ β ε : Type*}

/-- The steps of a system that meet a condition. -/
def System.within (S : System σ α) (ok : σ → α → Prop) [∀ s a, Decidable (ok s a)] : System σ α where
  init := S.init
  step s a := if ok s a then S.step s a else none

section Within

variable {S : System σ α} {ok : σ → α → Prop} [∀ s a, Decidable (ok s a)] {s s' : σ} {a : α}

theorem within_step : (S.within ok).step s a = some s' ↔ ok s a ∧ S.step s a = some s' := Option.ite_none_right_eq_some

end Within

/-- What is seen of a replayed list. -/
def trace (S : System σ α) (see : σ → α → Option ε) (s : σ) (l : List α) : List ε :=
  (steps S s l).filterMap fun x => see x.1 x.2.1

section Trace

variable {S : System σ α} {see : σ → α → Option ε} {s s' : σ} {a : α}

theorem trace_nil : trace S see s [] = [] := rfl

theorem trace_cons (h : S.step s a = some s') (l : List α) :
    trace S see s (a :: l) = (see s a).toList ++ trace S see s' l := by
  unfold trace
  rw [steps_cons h, List.filterMap_cons]
  cases see s a <;> rfl

theorem trace_append {l₁ l₂ : List α} (h : replay S s l₁ = some s') :
    trace S see s (l₁ ++ l₂) = trace S see s l₁ ++ trace S see s' l₂ := by
  unfold trace
  rw [steps_append h, List.filterMap_append]

theorem trace_single (h : S.step s a = some s') : trace S see s [a] = (see s a).toList := by
  rw [trace_cons h, trace_nil, List.append_nil]

end Trace

/-- `A` can follow each step of `C`, in steps that show the same. -/
structure Simulation (C : System σ α) (seeC : σ → α → Option ε) (A : System τ β) (seeA : τ → β → Option ε)
    (R : σ → τ → Prop) : Prop where
  init : ∀ s, C.init s → ∃ t, A.init t ∧ R s t
  step : ∀ s t a s', R s t → C.step s a = some s' →
    ∃ l t', replay A t l = some t' ∧ trace A seeA t l = (seeC s a).toList ∧ R s' t'

variable {C : System σ α} {seeC : σ → α → Option ε} {A : System τ β} {seeA : τ → β → Option ε} {R : σ → τ → Prop}

theorem Simulation.run_from (h : Simulation C seeC A seeA R) {l : List α} {s s' : σ} {t : τ} (hR : R s t)
    (hrun : replay C s l = some s') : ∃ l' t', replay A t l' = some t' ∧ trace A seeA t l' = trace C seeC s l ∧ R s' t' := by
  induction l generalizing s t with
  | nil =>
    obtain rfl := Option.some.inj hrun
    exact ⟨[], t, rfl, rfl, hR⟩
  | cons a l ih =>
    obtain ⟨s₁, hstep, hrest⟩ := replay_cons hrun
    obtain ⟨l₁, t₁, hrun₁, htrace₁, hR₁⟩ := h.step s t a s₁ hR hstep
    obtain ⟨l₂, t', hrun₂, htrace₂, hR'⟩ := ih hR₁ hrest
    refine ⟨l₁ ++ l₂, t', replay_trans hrun₁ hrun₂, ?_, hR'⟩
    rw [trace_append hrun₁, htrace₁, htrace₂, trace_cons hstep]

theorem Simulation.run (h : Simulation C seeC A seeA R) {l : List α} {s s' : σ} (hs : C.init s)
    (hrun : replay C s l = some s') :
    ∃ t l' t', A.init t ∧ replay A t l' = some t' ∧ trace A seeA t l' = trace C seeC s l ∧ R s' t' := by
  obtain ⟨t, ht, hR⟩ := h.init s hs
  obtain ⟨l', t', hrun', htrace, hR'⟩ := h.run_from hR hrun
  exact ⟨t, l', t', ht, hrun', htrace, hR'⟩

end UnifiedCache.Base
