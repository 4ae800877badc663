/-
  UnifiedCache.Base.Transition — labelled transition systems with an executable step.

  A system is a set of initial states and a partial step function on labels (`none`: the
  label is not enabled). `Reach S ok` are the states of the runs every step of which meets
  `ok`, a condition on the state before the step and its label; `Any` is no condition.

  - `Reach.inv`: what holds initially and is kept by every allowed step holds of every
    reachable state; `Reach.inv_with` lets the step lemma use an invariant already proved.
  - `System.record`: the system with a record of its steps beside the state.
  - `Reach.startAt`: a run from a reachable state stays in reachable states.
  - `replay_reach`: a list of labels that replays from an initial state, each allowed,
    ends in a reachable state; `replayOk` also runs a check that implies the condition.
  - `steps`: what happened in a replayed run, step by step.
-/

import Mathlib.Logic.Function.Basic
import Mathlib.Data.List.Basic

namespace UnifiedCache.Base

structure System (σ : Type*) (α : Type*) where
  init : σ → Prop
  step : σ → α → Option σ

variable {σ α : Type*}

/-- No condition on a run's steps. -/
def Any : σ → α → Prop := fun _ _ => True

inductive Reach (S : System σ α) (ok : σ → α → Prop) : σ → Prop
  | init {s : σ} : S.init s → Reach S ok s
  | step {s s' : σ} (a : α) : Reach S ok s → ok s a → S.step s a = some s' → Reach S ok s'

variable {S : System σ α} {ok : σ → α → Prop}

theorem Reach.inv {I : σ → Prop} (h0 : ∀ s, S.init s → I s)
    (hs : ∀ s a s', I s → ok s a → S.step s a = some s' → I s') {s : σ} (h : Reach S ok s) : I s := by
  induction h with
  | init hi => exact h0 _ hi
  | step a _ ha hst ih => exact hs _ a _ ih ha hst

theorem Reach.inv_with {I J : σ → Prop} (hJ : ∀ s, Reach S ok s → J s) (h0 : ∀ s, S.init s → I s)
    (hs : ∀ s a s', J s → I s → ok s a → S.step s a = some s' → I s') {s : σ} (h : Reach S ok s) : I s := by
  induction h with
  | init hi => exact h0 _ hi
  | step a hr ha hst ih => exact hs _ a _ (hJ _ hr) ih ha hst

theorem Reach.mono {ok' : σ → α → Prop} (hle : ∀ s a, ok s a → ok' s a) {s : σ} (h : Reach S ok s) :
    Reach S ok' s := by
  induction h with
  | init hi => exact .init hi
  | step a _ ha hst ih => exact .step a ih (hle _ _ ha) hst

/-- The same steps, started at `s₀`. -/
def System.startAt (S : System σ α) (s₀ : σ) : System σ α := { S with init := (· = s₀) }

theorem Reach.startAt {s₀ s : σ} (h₀ : Reach S Any s₀) (h : Reach (S.startAt s₀) ok s) : Reach S Any s := by
  induction h with
  | init hi => exact hi ▸ h₀
  | step a _ _ hst ih => exact .step a ih trivial hst

/-- The system with a record of its steps. -/
def System.record {η : Type*} (S : System σ α) (h₀ : η) (f : η → σ → α → η) : System (σ × η) α where
  init x := S.init x.1 ∧ x.2 = h₀
  step x a := (S.step x.1 a).map fun s' => (s', f x.2 x.1 a)

section Record

variable {η : Type*} {h₀ : η} {f : η → σ → α → η} {x x' : σ × η} {a : α}

theorem record_step (h : (S.record h₀ f).step x a = some x') : S.step x.1 a = some x'.1 ∧ x'.2 = f x.2 x.1 a := by
  obtain ⟨s', hs, rfl⟩ := Option.map_eq_some_iff.mp h
  exact ⟨hs, rfl⟩

theorem Reach.of_record {ok : σ × η → α → Prop} (h : Reach (S.record h₀ f) ok x) : Reach S Any x.1 := by
  induction h with
  | init hi => exact .init hi.1
  | step a _ _ hst ih => exact .step a ih trivial (record_step hst).1

end Record

/-! ## Replaying a list of labels -/

def replay (S : System σ α) : σ → List α → Option σ
  | s, [] => some s
  | s, a :: l => (S.step s a).bind fun s' => replay S s' l

theorem replay_reach (l : List α) {s s' : σ} (hs : Reach S Any s) (h : replay S s l = some s') : Reach S Any s' := by
  induction l generalizing s with
  | nil => simp only [replay, Option.some.injEq] at h; exact h ▸ hs
  | cons a l ih =>
    simp only [replay, Option.bind_eq_some_iff] at h
    obtain ⟨t, ht, h⟩ := h
    exact ih (.step a hs trivial ht) h

/-- A replayed trace that ends where `p` holds: some reachable state satisfies `p`. -/
theorem exists_of_replay (l : List α) {s : σ} {p : σ → Bool} (hs : S.init s)
    (h : ((replay S s l).map p).getD false = true) : ∃ s', Reach S Any s' ∧ p s' = true := by
  cases hr : replay S s l with
  | none => simp [hr] at h
  | some s' => exact ⟨s', replay_reach l (.init hs) hr, by simpa [hr] using h⟩

/-! ## The steps of a run -/

/-- The steps of a replayed list: the state before, the label, the state after. -/
def steps (S : System σ α) : σ → List α → List (σ × α × σ)
  | _, [] => []
  | s, a :: l =>
    match S.step s a with
    | some s' => (s, a, s') :: steps S s' l
    | none => []

theorem steps_cons {s s' : σ} {a : α} {l : List α} (h : S.step s a = some s') :
    steps S s (a :: l) = (s, a, s') :: steps S s' l := by
  simp only [steps, h]

theorem replay_cons {s s' : σ} {a : α} {l : List α} (h : replay S s (a :: l) = some s') :
    ∃ t, S.step s a = some t ∧ replay S t l = some s' := by
  simpa only [replay, Option.bind_eq_some_iff] using h

theorem replay_append {s s' : σ} {l₁ l₂ : List α} (h : replay S s (l₁ ++ l₂) = some s') :
    ∃ t, replay S s l₁ = some t ∧ replay S t l₂ = some s' := by
  induction l₁ generalizing s with
  | nil => exact ⟨s, rfl, h⟩
  | cons a l ih =>
    obtain ⟨t, ht, h⟩ := replay_cons h
    obtain ⟨t', h1, h2⟩ := ih h
    refine ⟨t', ?_, h2⟩
    simp only [replay, ht, Option.bind_some, h1]

theorem replay_single {s s' : σ} {a : α} (h : S.step s a = some s') : replay S s [a] = some s' := by
  simp only [replay, h, Option.bind_some]

theorem replay_trans {s s' s'' : σ} {l₁ l₂ : List α} (h₁ : replay S s l₁ = some s') (h₂ : replay S s' l₂ = some s'') :
    replay S s (l₁ ++ l₂) = some s'' := by
  induction l₁ generalizing s with
  | nil =>
    obtain rfl := Option.some.inj h₁
    exact h₂
  | cons a l ih =>
    obtain ⟨t, ht, h⟩ := replay_cons h₁
    simp only [List.cons_append, replay, ht, Option.bind_some]
    exact ih h

theorem steps_append {s t : σ} {l₁ l₂ : List α} (h : replay S s l₁ = some t) :
    steps S s (l₁ ++ l₂) = steps S s l₁ ++ steps S t l₂ := by
  induction l₁ generalizing s with
  | nil =>
    obtain rfl := Option.some.inj h
    rfl
  | cons a l ih =>
    obtain ⟨t', ht, h⟩ := replay_cons h
    rw [List.cons_append, steps_cons ht, steps_cons ht, ih h, List.cons_append]

/-! ## Replaying within a condition -/

section Ok

/-- Replays while `check` holds before each step. -/
def replayOk (check : σ → α → Bool) (S : System σ α) : σ → List α → Option σ
  | s, [] => some s
  | s, a :: l => if check s a = true then (S.step s a).bind fun s' => replayOk check S s' l else none

variable {check : σ → α → Bool}

theorem replayOk_reach (hok : ∀ s a, check s a = true → ok s a) (l : List α) {s s' : σ} (hs : Reach S ok s)
    (h : replayOk check S s l = some s') : Reach S ok s' := by
  induction l generalizing s with
  | nil => simp only [replayOk, Option.some.injEq] at h; exact h ▸ hs
  | cons a l ih =>
    simp only [replayOk, Option.ite_none_right_eq_some, Option.bind_eq_some_iff] at h
    obtain ⟨hc, t, ht, h⟩ := h
    exact ih (.step a hs (hok s a hc) ht) h

theorem exists_of_replayOk (check : σ → α → Bool) (hok : ∀ s a, check s a = true → ok s a) (l : List α) {s : σ}
    {p : σ → Bool} (hs : S.init s) (h : ((replayOk check S s l).map p).getD false = true) : ∃ s', Reach S ok s' ∧
    p s' = true := by
  cases hr : replayOk check S s l with
  | none => simp [hr] at h
  | some s' => exact ⟨s', replayOk_reach hok l (.init hs) hr, by simpa [hr] using h⟩

end Ok

end UnifiedCache.Base
