/-
  UnifiedCache.Gdr.Frontier — the completion frontier of a GDR stream
  (ucm/shared/trans/cuda/gdr/gdr_stream.cc: `MarkOperationCompleted`, `AdvanceCompletedOperations`).

  Operations finish in any order; each is put into the slot of a ring that its id has, and any thread
  that has put one there moves `lastCompletedOperationId_` on while the next slot has the next id.
  Each atomic operation is a step; a weak exchange may fail at any time.

  The threads are of any type. An operation is finished once `MarkOperationCompleted` has been called
  for it, and that is once.
  - `FrontierInv`: the frontier does not pass an operation that is not finished.
  - `ParkedInv`: where each operation is put into a free slot, none is lost, and a thread that is to
    move the frontier on is there whenever it can be moved.
-/

import Mathlib.Logic.Function.Basic
import Mathlib.Order.Bounds.Defs

namespace UnifiedCache.Gdr

/-- Where a thread is in `MarkOperationCompleted`. -/
inductive MarkPc where
  | none
  | called (operationId : Nat)
  /-- Before the store into the slot. -/
  | store (operationId : Nat)
  /-- At the head of the loop of `AdvanceCompletedOperations`. -/
  | load
  | look (current : Nat)
  | cas (current : Nat)
  /-- The exchange has succeeded. -/
  | clear (next : Nat)
  deriving DecidableEq

structure Frontier where
  /-- `lastCompletedOperationId_`. -/
  last : Nat
  /-- `completionSlots_`. -/
  slot : Nat → Nat

/-- The next step of a thread; `spurious` if a weak exchange fails by itself. -/
def markStep (capacity : Nat) (f : Frontier) (spurious : Bool) : MarkPc → Option (Frontier × MarkPc)
  | .none => Option.none
  | .called id => some (f, if id = 0 ∨ id ≤ f.last then .none else .store id)
  | .store id => some ({ f with slot := Function.update f.slot (id % capacity) id }, .load)
  | .load => some (f, .look f.last)
  | .look current => some (f, if f.slot ((current + 1) % capacity) = current + 1 then .cas current else .none)
  | .cas current =>
    if spurious = false ∧ f.last = current then some ({ f with last := current + 1 }, .clear (current + 1)) else some (f, .load)
  | .clear next => some ({ f with slot := Function.update f.slot (next % capacity) 0 }, .load)

/-- The operation that a thread has not put into its slot yet. -/
def MarkPc.unstored : MarkPc → Option Nat
  | .called id | .store id => some id
  | _ => Option.none

/-- The thread will look at the slot after the frontier. -/
def MarkPc.attends (last : Nat) : MarkPc → Bool
  | .load | .clear _ => true
  | .look current | .cas current => current = last
  | _ => false

variable {ι : Type} [DecidableEq ι] {capacity : Nat} {f f' : Frontier} {pc : ι → MarkPc} {finished : Nat → Bool} {t : ι}
    {spurious : Bool} {p : MarkPc}

structure FrontierInv (capacity : Nat) (f : Frontier) (pc : ι → MarkPc) (finished : Nat → Bool) : Prop where
  done : ∀ i, 1 ≤ i → i ≤ f.last → finished i = true
  unstored : ∀ t id, (pc t).unstored = some id → finished id = true ∧ f.last < id
  unstored_one : ∀ t t' id, (pc t).unstored = some id → (pc t').unstored = some id → t = t'
  slot : ∀ q, f.slot q ≠ 0 → finished (f.slot q) = true ∧ ∀ t, (pc t).unstored ≠ some (f.slot q)
  look : ∀ t current, pc t = .look current → current ≤ f.last
  cas : ∀ t current, pc t = .cas current → current ≤ f.last ∧ finished (current + 1) = true ∧
      ∀ t', (pc t').unstored ≠ some (current + 1)
  clear : ∀ t next, pc t = .clear next → 0 < next ∧ next ≤ f.last

/-- No operation is put into a slot that is taken. -/
def Frees (capacity : Nat) (f : Frontier) : MarkPc → Prop
  | .store id => f.slot (id % capacity) = 0
  | _ => True

structure ParkedInv (capacity : Nat) (f : Frontier) (pc : ι → MarkPc) (finished : Nat → Bool) : Prop where
  parked : ∀ id, f.last < id → finished id = true → (∀ t, (pc t).unstored ≠ some id) → f.slot (id % capacity) = id
  clear : ∀ t next, pc t = .clear next → f.slot (next % capacity) = next
  clear_one : ∀ t t' next, pc t = .clear next → pc t' = .clear next → t = t'
  attended : f.slot ((f.last + 1) % capacity) = f.last + 1 → ∃ t, (pc t).attends f.last = true

/-- An operation finishes. -/
theorem FrontierInv.call {id : Nat} (h : FrontierInv capacity f pc finished) (hid : 1 ≤ id) (hnot : finished id = false) :
    FrontierInv capacity f (Function.update pc t (.called id)) (Function.update finished id true) := by
  obtain ⟨hdone, hun, hone, hslot, hlook, hcas, hclear⟩ := h
  have hlast : f.last < id := by
    by_contra hle
    rw [hdone id hid (by omega)] at hnot
    cases hnot
  constructor <;> grind [MarkPc.unstored]

/-- A thread goes on: it passes operations that are in no thread's hand, and puts none but its own into a slot. -/
theorem FrontierInv.move (h : FrontierInv capacity f pc finished) (hle : f.last ≤ f'.last)
    (hpassed : ∀ i, f.last < i → i ≤ f'.last → finished i = true ∧ ∀ t', (pc t').unstored ≠ some i)
    (hsub : ∀ id, p.unstored = some id → (pc t).unstored = some id)
    (hslot : ∀ q, f'.slot q ≠ 0 → f'.slot q = f.slot q ∨ (pc t).unstored = some (f'.slot q) ∧ p.unstored = none)
    (hlook : ∀ current, p = .look current → current ≤ f'.last)
    (hcas : ∀ current, p = .cas current → current ≤ f'.last ∧ finished (current + 1) = true ∧
      ∀ t', (pc t').unstored ≠ some (current + 1))
    (hclear : ∀ next, p = .clear next → 0 < next ∧ next ≤ f'.last) :
    FrontierInv capacity f' (Function.update pc t p) finished := by
  have hother : ∀ t', t' ≠ t → Function.update pc t p t' = pc t' := fun t' e => Function.update_of_ne e ..
  have hself : Function.update pc t p t = p := Function.update_self ..
  have hun : ∀ t' id, (Function.update pc t p t').unstored = some id → (pc t').unstored = some id := by
    intro t' id hid
    by_cases e : t' = t
    · rw [e, hself] at hid
      rw [e]
      exact hsub id hid
    · rw [hother t' e] at hid
      exact hid
  constructor
  · intro i h1 hi
    by_cases e : i ≤ f.last
    · exact h.done i h1 e
    · exact (hpassed i (Nat.lt_of_not_le e) hi).1
  · intro t' id hid
    obtain ⟨hfin, hlt⟩ := h.unstored t' id (hun t' id hid)
    refine ⟨hfin, ?_⟩
    by_contra hge
    exact (hpassed id hlt (Nat.le_of_not_lt hge)).2 t' (hun t' id hid)
  · exact fun t1 t2 id h1 h2 => h.unstored_one t1 t2 id (hun t1 id h1) (hun t2 id h2)
  · intro q hq
    rcases hslot q hq with e | ⟨hid, hp⟩
    · rw [e] at hq ⊢
      obtain ⟨hfin, hno⟩ := h.slot q hq
      exact ⟨hfin, fun t' hid => hno t' (hun t' _ hid)⟩
    · refine ⟨(h.unstored t _ hid).1, fun t' hid' => ?_⟩
      obtain rfl := h.unstored_one t t' _ hid (hun t' _ hid')
      rw [hself, hp] at hid'
      cases hid'
  · intro t' current hpc
    by_cases e : t' = t
    · rw [e, hself] at hpc
      exact hlook current hpc
    · rw [hother t' e] at hpc
      exact Nat.le_trans (h.look t' current hpc) hle
  · intro t' current hpc
    have hold : current ≤ f'.last ∧ finished (current + 1) = true ∧ ∀ t', (pc t').unstored ≠ some (current + 1) := by
      by_cases e : t' = t
      · rw [e, hself] at hpc
        exact hcas current hpc
      · rw [hother t' e] at hpc
        obtain ⟨h1, h2⟩ := h.cas t' current hpc
        exact ⟨Nat.le_trans h1 hle, h2⟩
    exact ⟨hold.1, hold.2.1, fun t'' hid => hold.2.2 t'' (hun t'' _ hid)⟩
  · intro t' next hpc
    by_cases e : t' = t
    · rw [e, hself] at hpc
      exact hclear next hpc
    · rw [hother t' e] at hpc
      obtain ⟨h1, h2⟩ := h.clear t' next hpc
      exact ⟨h1, Nat.le_trans h2 hle⟩

theorem FrontierInv.step (h : FrontierInv capacity f pc finished) (hs : markStep capacity f spurious (pc t) = some (f', p)) :
    FrontierInv capacity f' (Function.update pc t p) finished := by
  have hstays : ∀ i, f.last < i → i ≤ f.last → finished i = true ∧ ∀ t', (pc t').unstored ≠ some i :=
    fun i hlt hle => absurd hle (Nat.not_le_of_lt hlt)
  cases hpc : pc t with
  | none =>
    rw [hpc] at hs
    cases hs
  | called id =>
    rw [hpc] at hs
    obtain ⟨rfl, rfl⟩ := Prod.mk.inj (Option.some.inj hs)
    apply h.move
    · exact Nat.le_refl _
    · exact hstays
    · intro id' hid
      rw [hpc]
      split at hid
      · cases hid
      · exact hid
    · exact fun _ _ => .inl rfl
    all_goals
      intro _ e
      split at e <;> cases e
  | store id =>
    rw [hpc] at hs
    obtain ⟨rfl, rfl⟩ := Prod.mk.inj (Option.some.inj hs)
    apply h.move
    · exact Nat.le_refl _
    · exact hstays
    · nofun
    · intro q _
      by_cases e : q = id % capacity
      · right
        refine ⟨?_, rfl⟩
        show (pc t).unstored = some (Function.update f.slot (id % capacity) id q)
        rw [e, hpc, Function.update_self]
        rfl
      · exact .inl (Function.update_of_ne e ..)
    all_goals nofun
  | load =>
    rw [hpc] at hs
    obtain ⟨rfl, rfl⟩ := Prod.mk.inj (Option.some.inj hs)
    apply h.move
    · exact Nat.le_refl _
    · exact hstays
    · nofun
    · exact fun _ _ => .inl rfl
    · rintro current ⟨⟩
      exact Nat.le_refl _
    all_goals nofun
  | look current =>
    rw [hpc] at hs
    obtain ⟨rfl, rfl⟩ := Prod.mk.inj (Option.some.inj hs)
    apply h.move
    · exact Nat.le_refl _
    · exact hstays
    · intro id hid
      split at hid <;> cases hid
    · exact fun _ _ => .inl rfl
    · intro _ e
      split at e <;> cases e
    · intro current' e
      split at e
      · next hslot =>
        obtain rfl := MarkPc.cas.inj e
        obtain ⟨hfin, hno⟩ := h.slot ((current + 1) % capacity) (by rw [hslot]; exact Nat.succ_ne_zero _)
        rw [hslot] at hfin hno
        exact ⟨h.look t current hpc, hfin, hno⟩
      · cases e
    · intro _ e
      split at e <;> cases e
  | cas current =>
    rw [hpc] at hs
    obtain ⟨-, hfin, hno⟩ := h.cas t current hpc
    simp only [markStep] at hs
    split at hs
    · next hlast =>
      obtain ⟨rfl, rfl⟩ := Prod.mk.inj (Option.some.inj hs)
      apply h.move
      · exact hlast.2 ▸ Nat.le_succ _
      · intro i hlt hi
        obtain rfl : i = current + 1 := by
          have hlt := hlast.2 ▸ hlt
          exact Nat.le_antisymm hi hlt
        exact ⟨hfin, hno⟩
      · nofun
      · exact fun _ _ => .inl rfl
      · nofun
      · nofun
      · rintro next ⟨⟩
        exact ⟨Nat.succ_pos _, Nat.le_refl _⟩
    · obtain ⟨rfl, rfl⟩ := Prod.mk.inj (Option.some.inj hs)
      apply h.move
      · exact Nat.le_refl _
      · exact hstays
      · nofun
      · exact fun _ _ => .inl rfl
      all_goals nofun
  | clear next =>
    rw [hpc] at hs
    obtain ⟨rfl, rfl⟩ := Prod.mk.inj (Option.some.inj hs)
    apply h.move
    · exact Nat.le_refl _
    · exact hstays
    · nofun
    · intro q hq
      by_cases e : q = next % capacity
      · exact absurd (e ▸ Function.update_self ..) hq
      · exact .inl (Function.update_of_ne e ..)
    all_goals nofun

/-- A thread goes on without a change of the frontier. -/
theorem ParkedInv.move (h : ParkedInv capacity f pc finished) {finished' : Nat → Bool} (hclear : ∀ next, p ≠ .clear next)
    (hold : ∀ id, f.last < id → finished' id = true → p.unstored ≠ some id → finished id = true ∧ (pc t).unstored ≠ some id)
    (hatt : f.slot ((f.last + 1) % capacity) = f.last + 1 → (pc t).attends f.last = true → p.attends f.last = true) :
    ParkedInv capacity f (Function.update pc t p) finished' := by
  have hother : ∀ t', t' ≠ t → Function.update pc t p t' = pc t' := fun t' e => Function.update_of_ne e ..
  have hself : Function.update pc t p t = p := Function.update_self ..
  constructor
  · intro id hlt hfin hun
    have hp := hun t
    rw [hself] at hp
    obtain ⟨hfin, ht⟩ := hold id hlt hfin hp
    apply h.parked id hlt hfin
    intro t'
    by_cases e : t' = t
    · rw [e]
      exact ht
    · rw [← hother t' e]
      exact hun t'
  · intro t' next hpc
    by_cases e : t' = t
    · rw [e, hself] at hpc
      exact absurd hpc (hclear next)
    · rw [hother t' e] at hpc
      exact h.clear t' next hpc
  · intro t1 t2 next h1 h2
    by_cases e1 : t1 = t
    · rw [e1, hself] at h1
      exact absurd h1 (hclear next)
    · by_cases e2 : t2 = t
      · rw [e2, hself] at h2
        exact absurd h2 (hclear next)
      · rw [hother t1 e1] at h1
        rw [hother t2 e2] at h2
        exact h.clear_one t1 t2 next h1 h2
  · intro hs
    obtain ⟨t', ht'⟩ := h.attended hs
    by_cases e : t' = t
    · rw [e] at ht'
      exact ⟨t, by rw [hself]; exact hatt hs ht'⟩
    · exact ⟨t', by rw [hother t' e]; exact ht'⟩

theorem ParkedInv.call {id : Nat} (h : ParkedInv capacity f pc finished) (hpc : pc t = .none) :
    ParkedInv capacity f (Function.update pc t (.called id)) (Function.update finished id true) := by
  apply h.move
  · nofun
  · intro id' _ hfin hne
    have e : id' ≠ id := by
      intro e
      subst e
      exact hne rfl
    rw [Function.update_of_ne e] at hfin
    refine ⟨hfin, ?_⟩
    rw [hpc]
    nofun
  · intro _ hatt
    rw [hpc] at hatt
    cases hatt

/-- An operation comes into a free slot. -/
theorem ParkedInv.store {id : Nat} (h : ParkedInv capacity f pc finished) (hf : FrontierInv capacity f pc finished)
    (hpc : pc t = .store id)
    (hfree : f.slot (id % capacity) = 0) :
    ParkedInv capacity { f with slot := Function.update f.slot (id % capacity) id } (Function.update pc t .load) finished := by
  have hother : ∀ t', t' ≠ t → Function.update pc t .load t' = pc t' := fun t' e => Function.update_of_ne e ..
  have hself : Function.update pc t .load t = .load := Function.update_self ..
  -- the slots that are taken are others
  have hkept : ∀ x, x ≠ 0 → f.slot (x % capacity) = x → Function.update f.slot (id % capacity) id (x % capacity) = x := by
    intro x hx hslot
    rw [Function.update_of_ne]
    · exact hslot
    · intro e
      rw [e, hfree] at hslot
      exact hx hslot.symm
  constructor
  · intro x hlt hfin hun
    by_cases e : x = id
    · rw [e]
      exact Function.update_self ..
    · apply hkept x (Nat.ne_of_gt (Nat.zero_lt_of_lt hlt))
      apply h.parked x hlt hfin
      intro t'
      by_cases e' : t' = t
      · rw [e', hpc]
        exact fun hx => e (Option.some.inj hx).symm
      · rw [← hother t' e']
        exact hun t'
  · intro t' next hnext
    by_cases e : t' = t
    · rw [e, hself] at hnext
      cases hnext
    · rw [hother t' e] at hnext
      exact hkept next (Nat.ne_of_gt (hf.clear t' next hnext).1) (h.clear t' next hnext)
  · intro t1 t2 next h1 h2
    by_cases e1 : t1 = t
    · rw [e1, hself] at h1
      cases h1
    · by_cases e2 : t2 = t
      · rw [e2, hself] at h2
        cases h2
      · rw [hother t1 e1] at h1
        rw [hother t2 e2] at h2
        exact h.clear_one t1 t2 next h1 h2
  · intro _
    exact ⟨t, by rw [hself]; rfl⟩

/-- The frontier moves on, to an operation that is in its slot. -/
theorem ParkedInv.advance (h : ParkedInv capacity f pc finished) (hf : FrontierInv capacity f pc finished)
    (hpc : pc t = .cas f.last) :
    ParkedInv capacity { f with last := f.last + 1 } (Function.update pc t (.clear (f.last + 1))) finished := by
  obtain ⟨-, hfin, hstored⟩ := hf.cas t _ hpc
  have hother : ∀ t', t' ≠ t → Function.update pc t (.clear (f.last + 1)) t' = pc t' := fun t' e => Function.update_of_ne e ..
  have hself : Function.update pc t (.clear (f.last + 1)) t = .clear (f.last + 1) := Function.update_self ..
  have hnext : ∀ t' next, Function.update pc t (.clear (f.last + 1)) t' = .clear next → t' = t ∧ next = f.last + 1 ∨
      pc t' = .clear next ∧ next ≤ f.last := by
    intro t' next hn
    by_cases e : t' = t
    · rw [e, hself] at hn
      exact .inl ⟨e, (MarkPc.clear.inj hn).symm⟩
    · rw [hother t' e] at hn
      exact .inr ⟨hn, (hf.clear t' next hn).2⟩
  constructor
  · intro x hlt hfin' hun
    have hlt : f.last + 1 < x := hlt
    apply h.parked x (by omega) hfin'
    intro t'
    by_cases e : t' = t
    · rw [e, hpc]
      nofun
    · rw [← hother t' e]
      exact hun t'
  · intro t' next hn
    rcases hnext t' next hn with ⟨-, rfl⟩ | ⟨hn, -⟩
    · exact h.parked _ (Nat.lt_succ_self _) hfin hstored
    · exact h.clear t' next hn
  · intro t1 t2 next h1 h2
    rcases hnext t1 next h1 with ⟨e1, e⟩ | ⟨h1, hle⟩ <;> rcases hnext t2 next h2 with ⟨e2, e'⟩ | ⟨h2, hle'⟩
    · exact e1.trans e2.symm
    · omega
    · omega
    · exact h.clear_one t1 t2 next h1 h2
  · intro _
    exact ⟨t, by rw [hself]; rfl⟩

/-- The slot of an operation that the frontier has passed is freed. -/
theorem ParkedInv.free {next : Nat} (h : ParkedInv capacity f pc finished) (hf : FrontierInv capacity f pc finished)
    (hpc : pc t = .clear next) :
    ParkedInv capacity { f with slot := Function.update f.slot (next % capacity) 0 } (Function.update pc t .load) finished := by
  have hother : ∀ t', t' ≠ t → Function.update pc t .load t' = pc t' := fun t' e => Function.update_of_ne e ..
  have hself : Function.update pc t .load t = .load := Function.update_self ..
  have hslot := h.clear t next hpc
  have hkept : ∀ x, x ≠ next → f.slot (x % capacity) = x → Function.update f.slot (next % capacity) 0 (x % capacity) = x := by
    intro x hne hx
    rw [Function.update_of_ne]
    · exact hx
    · intro e
      rw [e, hslot] at hx
      exact hne hx.symm
  constructor
  · intro x hlt hfin hun
    have hle := (hf.clear t next hpc).2
    have hlt : f.last < x := hlt
    apply hkept x (by omega)
    apply h.parked x hlt hfin
    intro t'
    by_cases e : t' = t
    · rw [e, hpc]
      nofun
    · rw [← hother t' e]
      exact hun t'
  · intro t' n hn
    by_cases e : t' = t
    · rw [e, hself] at hn
      cases hn
    · rw [hother t' e] at hn
      refine hkept n ?_ (h.clear t' n hn)
      intro e
      subst e
      exact e (h.clear_one t' t n hn hpc)
  · intro t1 t2 n h1 h2
    by_cases e1 : t1 = t
    · rw [e1, hself] at h1
      cases h1
    · by_cases e2 : t2 = t
      · rw [e2, hself] at h2
        cases h2
      · rw [hother t1 e1] at h1
        rw [hother t2 e2] at h2
        exact h.clear_one t1 t2 n h1 h2
  · intro _
    exact ⟨t, by rw [hself]; rfl⟩

theorem ParkedInv.step (h : ParkedInv capacity f pc finished) (hf : FrontierInv capacity f pc finished)
    (hok : Frees capacity f (pc t))
    (hs : markStep capacity f spurious (pc t) = some (f', p)) : ParkedInv capacity f' (Function.update pc t p) finished := by
  cases hpc : pc t with
  | none =>
    rw [hpc] at hs
    cases hs
  | called id =>
    rw [hpc] at hs
    obtain ⟨rfl, rfl⟩ := Prod.mk.inj (Option.some.inj hs)
    have hlt := (hf.unstored t id (by rw [hpc]; rfl)).2
    rw [if_neg (by omega)]
    apply h.move
    · nofun
    · intro x _ hfin hne
      rw [hpc]
      exact ⟨hfin, hne⟩
    · intro _ hatt
      rw [hpc] at hatt
      cases hatt
  | store id =>
    rw [hpc] at hs hok
    obtain ⟨rfl, rfl⟩ := Prod.mk.inj (Option.some.inj hs)
    exact h.store hf hpc hok
  | load =>
    rw [hpc] at hs
    obtain ⟨rfl, rfl⟩ := Prod.mk.inj (Option.some.inj hs)
    apply h.move
    · nofun
    · intro x _ hfin _
      rw [hpc]
      exact ⟨hfin, nofun⟩
    · intro _ _
      exact decide_eq_true rfl
  | look current =>
    rw [hpc] at hs
    obtain ⟨rfl, rfl⟩ := Prod.mk.inj (Option.some.inj hs)
    apply h.move
    · split <;> nofun
    · intro x _ hfin _
      rw [hpc]
      exact ⟨hfin, nofun⟩
    · intro hslot hatt
      rw [hpc] at hatt
      have e : current = f.last := of_decide_eq_true hatt
      rw [e, if_pos hslot]
      exact decide_eq_true rfl
  | cas current =>
    rw [hpc] at hs
    simp only [markStep] at hs
    split at hs
    · next hc =>
      obtain ⟨rfl, rfl⟩ := Prod.mk.inj (Option.some.inj hs)
      rw [← hc.2]
      exact h.advance hf (by rw [hc.2]; exact hpc)
    · obtain ⟨rfl, rfl⟩ := Prod.mk.inj (Option.some.inj hs)
      apply h.move
      · nofun
      · intro x _ hfin _
        rw [hpc]
        exact ⟨hfin, nofun⟩
      · exact fun _ _ => rfl
  | clear next =>
    rw [hpc] at hs
    obtain ⟨rfl, rfl⟩ := Prod.mk.inj (Option.some.inj hs)
    exact h.free hf hpc

omit [DecidableEq ι] in
/-- With no thread inside, the frontier is where the operations that have all finished end. -/
theorem ParkedInv.quiet (h : ParkedInv capacity f pc finished) (hf : FrontierInv capacity f pc finished)
    (hpc : ∀ t, pc t = .none) :
    IsGreatest {n | ∀ i, 1 ≤ i → i ≤ n → finished i = true} f.last := by
  constructor
  · exact hf.done
  · intro n hn
    by_contra hlt
    have hfin := hn (f.last + 1) (by omega) (by omega)
    obtain ⟨t, ht⟩ := h.attended (h.parked _ (Nat.lt_succ_self _) hfin fun t => by rw [hpc]; nofun)
    rw [hpc] at ht
    cases ht

end UnifiedCache.Gdr
