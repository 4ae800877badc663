/-
  UnifiedCache.Base.Fair — runs that go on for ever, and what must happen in them.

  At each time of a run a step is taken, or nothing happens. A run is fair to some labels if,
  again and again, one of them is taken or none of them can be; it is strongly fair to them if they
  are not put off for ever where, again and again, one of them can be.

  - `Run.reach`: a run stays within the reachable states.
  - `Run.leads`: what holds until something happens, keeps a fair label enabled and comes nearer
    with each such label taken makes it happen.
  - `Run.rarely`: labels that cannot be taken for ever are, in a strongly fair run, not enabled for ever.
  - `Run.ofReplay`: the run of a list of labels, after which nothing happens.
-/

import Mathlib.Order.WellFounded
import UnifiedCache.Base.Transition

namespace UnifiedCache.Base

variable {σ α : Type*}

structure Run (S : System σ α) (ok : σ → α → Prop) where
  state : Nat → σ
  label : Nat → Option α
  init : S.init (state 0)
  next : ∀ n, (label n = none ∧ state (n + 1) = state n) ∨
    ∃ a, label n = some a ∧ ok (state n) a ∧ S.step (state n) a = some (state (n + 1))

namespace Run

variable {S : System σ α} {ok : σ → α → Prop} (r : Run S ok)

theorem reach (n : Nat) : Reach S ok (r.state n) := by
  induction n with
  | zero => exact .init r.init
  | succ n ih =>
    rcases r.next n with ⟨_, hsame⟩ | ⟨a, _, hok, hstep⟩
    · rw [hsame]
      exact ih
    · exact .step a ih hok hstep

/-- What a label taken is. -/
theorem taken {n : Nat} {a : α} (h : r.label n = some a) : ok (r.state n) a ∧ S.step (r.state n) a = some (r.state (n + 1)) := by
  rcases r.next n with ⟨hnone, _⟩ | ⟨b, hb, hok, hstep⟩
  · rw [h] at hnone
    cases hnone
  · rw [h] at hb
    obtain rfl := Option.some.inj hb
    exact ⟨hok, hstep⟩

def Fair (mover : α → Prop) : Prop :=
  ∀ n, ∃ m, n ≤ m ∧ ((∃ a, r.label m = some a ∧ mover a) ∨ ∀ a, mover a → S.step (r.state m) a = none)

variable {r} {mover : α → Prop} {W : Type*} [Preorder W] [WellFoundedLT W]

/-- From a time at which `P` holds, `Q` comes true: until then `P` stays and a mover is enabled, each
    mover taken brings it nearer, and no other step takes it further away. By induction on how far
    it is, and from there to the mover's next step. -/
theorem leads (hfair : r.Fair mover) {P Q : Nat → Prop} (far : Nat → W)
    (henabled : ∀ m, P m → ∃ a, mover a ∧ S.step (r.state m) a ≠ none)
    (hother : ∀ m, P m → (∀ a, r.label m = some a → ¬ mover a) → Q (m + 1) ∨ P (m + 1) ∧ far (m + 1) ≤ far m)
    (hmover : ∀ m a, P m → r.label m = some a → mover a → Q (m + 1) ∨ P (m + 1) ∧ far (m + 1) < far m)
    {n : Nat} (hP : P n) : ∃ m, n < m ∧ Q m := by
  -- up to any time no later than a mover's step, `Q` comes true or `P` stays
  have hwalk : ∀ n d, P n → (∃ m, n < m ∧ Q m) ∨ (∃ m, n < m ∧ P m ∧ far m < far n) ∨ P (n + d) ∧ far (n + d) ≤ far n := by
    intro n d hP
    induction d with
    | zero => exact .inr (.inr ⟨hP, le_refl _⟩)
    | succ d ih =>
      rcases ih with hQ | hnear | ⟨hPd, hle⟩
      · exact .inl hQ
      · exact .inr (.inl hnear)
      · by_cases htaken : ∃ a, r.label (n + d) = some a ∧ mover a
        · obtain ⟨a, hlabel, ha⟩ := htaken
          rcases hmover (n + d) a hPd hlabel ha with hQ | ⟨hP', hlt⟩
          · exact .inl ⟨n + d + 1, by omega, hQ⟩
          · exact .inr (.inl ⟨n + d + 1, by omega, hP', lt_of_lt_of_le hlt hle⟩)
        · have hnot : ∀ a, r.label (n + d) = some a → ¬ mover a := fun a hlabel ha => htaken ⟨a, hlabel, ha⟩
          rcases hother (n + d) hPd hnot with hQ | ⟨hP', hle'⟩
          · exact .inl ⟨n + d + 1, by omega, hQ⟩
          · exact .inr (.inr ⟨hP', le_trans hle' hle⟩)
  induction hw : far n using WellFoundedLT.induction generalizing n with
  | ind w ih =>
    obtain rfl := hw
    have hnearer : ∀ m, n < m → P m → far m < far n → ∃ m, n < m ∧ Q m := by
      intro m hm hPm hlt
      obtain ⟨m', hm', hQ⟩ := ih (far m) hlt hPm rfl
      exact ⟨m', by omega, hQ⟩
    obtain ⟨m, hm, hfairm⟩ := hfair n
    obtain ⟨d, rfl⟩ := Nat.exists_eq_add_of_le hm
    rcases hwalk n d hP with hQ | ⟨m', hm', hP', hlt⟩ | ⟨hPd, hle⟩
    · exact hQ
    · exact hnearer m' hm' hP' hlt
    · rcases hfairm with ⟨a, hlabel, ha⟩ | hnone
      · rcases hmover (n + d) a hPd hlabel ha with hQ | ⟨hP', hlt⟩
        · exact ⟨n + d + 1, by omega, hQ⟩
        · exact hnearer (n + d + 1) (by omega) hP' (lt_of_lt_of_le hlt hle)
      · obtain ⟨a, ha, hsome⟩ := henabled (n + d) hPd
        exact absurd (hnone a ha) hsome

/-- From a time on at which none of them is taken any more, none of them can be. -/
def StronglyFair (r : Run S ok) (mover : α → Prop) : Prop :=
  ∀ n, (∀ m, n ≤ m → ∀ a, r.label m = some a → ¬ mover a) → ∃ N, n ≤ N ∧ ∀ m, N ≤ m → ∀ a, mover a → S.step (r.state m) a = none

/-- Where movers only ever lower a rank that nothing raises, they come to an end. By induction on the
    rank, from one mover's step to the next. -/
theorem stops (far : Nat → W) (hother : ∀ m, far (m + 1) ≤ far m)
    (hmover : ∀ m a, r.label m = some a → mover a → far (m + 1) < far m) (n : Nat) :
    ∃ N, n ≤ N ∧ ∀ m, N ≤ m → ∀ a, r.label m = some a → ¬ mover a := by
  have hlater : ∀ n d, far (n + d) ≤ far n := by
    intro n d
    induction d with
    | zero => exact le_refl _
    | succ d ih => exact le_trans (hother (n + d)) ih
  induction hw : far n using WellFoundedLT.induction generalizing n with
  | ind w ih =>
    obtain rfl := hw
    by_cases htaken : ∃ d a, r.label (n + d) = some a ∧ mover a
    · obtain ⟨d, a, hlabel, ha⟩ := htaken
      have hlt : far (n + d + 1) < far n := lt_of_lt_of_le (hmover (n + d) a hlabel ha) (hlater n d)
      obtain ⟨N, hN, hrest⟩ := ih _ hlt (n + d + 1) rfl
      exact ⟨N, by omega, hrest⟩
    · refine ⟨n, Nat.le_refl n, fun m hm a hlabel ha => htaken ?_⟩
      obtain ⟨d, rfl⟩ := Nat.exists_eq_add_of_le hm
      exact ⟨d, a, hlabel, ha⟩

theorem rarely (hfair : r.StronglyFair mover) (far : Nat → W) (hother : ∀ m, far (m + 1) ≤ far m)
    (hmover : ∀ m a, r.label m = some a → mover a → far (m + 1) < far m) (n : Nat) :
    ∃ N, n ≤ N ∧ (∀ m, N ≤ m → ∀ a, r.label m = some a → ¬ mover a) ∧ ∀ m, N ≤ m → ∀ a, mover a →
    S.step (r.state m) a = none := by
  obtain ⟨N, hN, hstopped⟩ := stops far hother hmover n
  obtain ⟨N', hN', hdisabled⟩ := hfair N hstopped
  exact ⟨N', by omega, fun m hm => hstopped m (by omega), hdisabled⟩

end Run

/-! ## The run of a list -/

section OfReplay

variable {S : System σ α} {ok : σ → α → Prop} {check : σ → α → Bool}

/-- The state after `n` of the labels. -/
def stateAt (S : System σ α) : σ → List α → Nat → σ
  | s, [], _ => s
  | s, _, 0 => s
  | s, a :: l, n + 1 =>
    match S.step s a with
    | some s' => stateAt S s' l n
    | none => s

theorem stateAt_zero (s : σ) (l : List α) : stateAt S s l 0 = s := by
  cases l <;> rfl

theorem stateAt_next (hok : ∀ s a, check s a = true → ok s a) {s s' : σ} {l : List α} (h : replayOk check S s l = some s')
    (n : Nat) : (l[n]? = none ∧ stateAt S s l (n + 1) = stateAt S s l n) ∨
      ∃ a, l[n]? = some a ∧ ok (stateAt S s l n) a ∧ S.step (stateAt S s l n) a = some (stateAt S s l (n + 1)) := by
  induction l generalizing s n with
  | nil => exact .inl ⟨rfl, rfl⟩
  | cons a l ih =>
    simp only [replayOk, Option.ite_none_right_eq_some, Option.bind_eq_some_iff] at h
    obtain ⟨hc, t, ht, h⟩ := h
    cases n with
    | zero =>
      refine .inr ⟨a, rfl, hok s a hc, ?_⟩
      simp only [stateAt, ht, stateAt_zero]
    | succ n =>
      simp only [stateAt, ht, List.getElem?_cons_succ]
      exact ih h n

theorem stateAt_end {s s' : σ} {l : List α} (h : replayOk check S s l = some s') {n : Nat} (hn : l.length ≤ n) :
    stateAt S s l n = s' := by
  induction l generalizing s n with
  | nil => exact Option.some.inj h
  | cons a l ih =>
    simp only [replayOk, Option.ite_none_right_eq_some, Option.bind_eq_some_iff] at h
    obtain ⟨hc, t, ht, h⟩ := h
    obtain ⟨k, rfl⟩ : ∃ k, n = k + 1 := ⟨n - 1, by rw [List.length_cons] at hn; omega⟩
    simp only [stateAt, ht]
    exact ih h (by rw [List.length_cons] at hn; omega)

def Run.ofReplay (check : σ → α → Bool) (hok : ∀ s a, check s a = true → ok s a) {s s' : σ} (hs : S.init s) (l : List α)
    (h : replayOk check S s l = some s') : Run S ok where
  state := stateAt S s l
  label := fun n => l[n]?
  init := by rw [stateAt_zero]; exact hs
  next := stateAt_next hok h

/-- It is fair to labels that cannot be taken at its end. -/
theorem Run.ofReplay_fair {hok : ∀ s a, check s a = true → ok s a} {s s' : σ} {hs : S.init s} {l : List α}
    {h : replayOk check S s l = some s'} {mover : α → Prop} (hend : ∀ a, mover a → S.step s' a = none) :
    (Run.ofReplay check hok hs l h).Fair mover := by
  intro n
  refine ⟨max n l.length, Nat.le_max_left _ _, .inr fun a ha => ?_⟩
  show S.step (stateAt S s l (max n l.length)) a = none
  rw [stateAt_end h (Nat.le_max_right _ _)]
  exact hend a ha

theorem Run.ofReplay_stronglyFair {hok : ∀ s a, check s a = true → ok s a} {s s' : σ} {hs : S.init s} {l : List α}
    {h : replayOk check S s l = some s'} {mover : α → Prop} (hend : ∀ a, mover a → S.step s' a = none) :
    (Run.ofReplay check hok hs l h).StronglyFair mover := by
  intro n _
  refine ⟨max n l.length, Nat.le_max_left _ _, fun m hm a ha => ?_⟩
  show S.step (stateAt S s l m) a = none
  rw [stateAt_end h (by omega)]
  exact hend a ha

end OfReplay

end UnifiedCache.Base
