/-
  UnifiedCache.Base.BinaryHeap — the order of an array heap while a place of it is sifted.

  The order is strict and weak, with the least item at the root. `UpOrder` and `DownOrder` are what
  a heap keeps while the item at `hole` is on its way up or down: every pair off the hole is in
  order, and so are the hole's children and its parent. A swap in the right direction moves the
  hole (`move`), and where none is due the heap is in order (`finish`).

  `items n a` are the first `n` items, of which sifting is a permutation (`items_perm`).
-/

import Mathlib.Data.Multiset.Range
import Mathlib.Logic.Equiv.Basic
import Mathlib.Order.Defs.Unbundled

namespace UnifiedCache.Base.Heap

variable {X : Type} {lt : X → X → Prop} {n : Nat} {a b : Nat → X}

/-! ## Items -/

def items (n : Nat) (a : Nat → X) : Multiset X := (Multiset.range n).map a

theorem items_zero : items 0 a = 0 := rfl

theorem items_succ : items (n + 1) a = a n ::ₘ items n a := by
  unfold items
  rw [Multiset.range_succ, Multiset.map_cons]

theorem items_congr (h : ∀ i < n, a i = b i) : items n a = items n b :=
  Multiset.map_congr rfl fun i hi => h i (Multiset.mem_range.mp hi)

theorem mem_items {x : X} : x ∈ items n a ↔ ∃ i < n, a i = x := by
  unfold items
  simp only [Multiset.mem_map, Multiset.mem_range]

theorem card_items : (items n a).card = n := by
  unfold items
  rw [Multiset.card_map, Multiset.card_range]

/-- A permutation of the first `n` places. -/
def Within (n : Nat) (σ : Equiv.Perm Nat) : Prop := ∀ i, σ i < n ↔ i < n

theorem within_swap {i j : Nat} (hi : i < n) (hj : j < n) : Within n (Equiv.swap i j) := by
  intro k
  by_cases hki : k = i
  · rw [hki, Equiv.swap_apply_left]
    exact iff_of_true hj hi
  · by_cases hkj : k = j
    · rw [hkj, Equiv.swap_apply_right]
      exact iff_of_true hi hj
    · rw [Equiv.swap_apply_of_ne_of_ne hki hkj]

theorem Within.trans {σ τ : Equiv.Perm Nat} (hσ : Within n σ) (hτ : Within n τ) : Within n (σ.trans τ) := by
  intro i
  rw [Equiv.trans_apply, hτ, hσ]

theorem items_perm {σ : Equiv.Perm Nat} (hσ : Within n σ) : items n (a ∘ σ) = items n a := by
  unfold items
  rw [← Multiset.map_map]
  congr 1
  refine (Multiset.Nodup.ext ?_ (Multiset.nodup_range n)).mpr fun i => ?_
  · exact (Multiset.nodup_range n).map σ.injective
  · rw [Multiset.mem_map, Multiset.mem_range]
    constructor
    · rintro ⟨j, hj, rfl⟩
      exact (hσ j).mpr (Multiset.mem_range.mp hj)
    · intro hi
      refine ⟨σ.symm i, Multiset.mem_range.mpr ?_, σ.apply_symm_apply i⟩
      rw [← hσ, σ.apply_symm_apply]
      exact hi

theorem items_update {i : Nat} (hi : i < n) (x : X) : a i ::ₘ items n (Function.update a i x) = x ::ₘ items n a := by
  have hsplit : Multiset.range n = i ::ₘ (Multiset.range n).erase i :=
    (Multiset.cons_erase (Multiset.mem_range.mpr hi)).symm
  have hrest : ((Multiset.range n).erase i).map (Function.update a i x) = ((Multiset.range n).erase i).map a := by
    refine Multiset.map_congr rfl fun j hj => ?_
    have hne : j ≠ i := ((Multiset.nodup_range n).mem_erase_iff.mp hj).1
    rw [Function.update_of_ne hne]
  unfold items
  rw [hsplit, Multiset.map_cons, Multiset.map_cons, Function.update_self, hrest, Multiset.cons_swap]

/-! ## Order -/

def parent (i : Nat) : Nat := (i - 1) / 2

/-- Place 0 is no place's child. -/
def IsChild (c p : Nat) : Prop := 0 < c ∧ parent c = p

theorem isChild_iff {c p : Nat} : IsChild c p ↔ c = 2 * p + 1 ∨ c = 2 * p + 2 := by
  unfold IsChild parent
  omega

theorem parent_lt {i : Nat} (hi : 0 < i) : parent i < i := by
  unfold parent
  omega

def Ordered (lt : X → X → Prop) (n : Nat) (a : Nat → X) : Prop := ∀ i, 0 < i → i < n → ¬ lt (a i) (a (parent i))

/-- An item with none before it. -/
def FirstOf (lt : X → X → Prop) (x : X) (A : Multiset X) : Prop := x ∈ A ∧ ∀ y ∈ A, ¬ lt y x

structure UpOrder (lt : X → X → Prop) (n : Nat) (a : Nat → X) (hole : Nat) : Prop where
  except : ∀ i, 0 < i → i < n → i ≠ hole → ¬ lt (a i) (a (parent i))
  grand : 0 < hole → ∀ c, IsChild c hole → c < n → ¬ lt (a c) (a (parent hole))

structure DownOrder (lt : X → X → Prop) (n : Nat) (a : Nat → X) (hole : Nat) : Prop where
  except : ∀ i, 0 < i → i < n → parent i ≠ hole → ¬ lt (a i) (a (parent i))
  grand : 0 < hole → ∀ c, IsChild c hole → c < n → ¬ lt (a c) (a (parent hole))

section Weak

variable [IsStrictWeakOrder X lt]

theorem not_lt_trans' {x y z : X} (hxy : ¬ lt y x) (hyz : ¬ lt z y) : ¬ lt z x := by
  intro hzx
  have hnxy : ¬ lt x y := fun h => hyz (IsTrans.trans z x y hzx h)
  have hnyz : ¬ lt y z := fun h => hxy (IsTrans.trans y z x h hzx)
  exact (IsStrictWeakOrder.incomp_trans x y z ⟨hnxy, hxy⟩ ⟨hnyz, hyz⟩).2 hzx

theorem not_lt_of_lt {x y : X} (h : lt x y) : ¬ lt y x := fun h' => irrefl_of lt x (IsTrans.trans x y x h h')

theorem Ordered.root (h : Ordered lt n a) {i : Nat} (hi : i < n) : ¬ lt (a i) (a 0) := by
  induction i using Nat.strong_induction_on with
  | _ i ih =>
    by_cases hzero : i = 0
    · rw [hzero]
      exact irrefl_of lt _
    · have hpos : 0 < i := Nat.pos_of_ne_zero hzero
      have hup := parent_lt hpos
      exact not_lt_trans' (ih (parent i) hup (by omega)) (h i hpos hi)

theorem UpOrder.move {hole : Nat} (h : UpOrder lt n a hole) (hpos : 0 < hole) (hlt : hole < n)
    (hup : lt (a hole) (a (parent hole))) : UpOrder lt n (a ∘ Equiv.swap hole (parent hole)) (parent hole) := by
  have hp := parent_lt hpos
  have hhole : (a ∘ Equiv.swap hole (parent hole)) hole = a (parent hole) := by
    rw [Function.comp_apply, Equiv.swap_apply_left]
  have hparent : (a ∘ Equiv.swap hole (parent hole)) (parent hole) = a hole := by
    rw [Function.comp_apply, Equiv.swap_apply_right]
  have hother : ∀ i, i ≠ hole → i ≠ parent hole → (a ∘ Equiv.swap hole (parent hole)) i = a i := by
    intro i h1 h2
    rw [Function.comp_apply, Equiv.swap_apply_of_ne_of_ne h1 h2]
  constructor
  · intro i hi0 hi hne
    by_cases hih : i = hole
    · rw [hih, hhole, hparent]
      exact not_lt_of_lt hup
    · rw [hother i hih hne]
      by_cases hph : parent i = hole
      · rw [hph, hhole]
        exact h.grand hpos i ⟨hi0, hph⟩ hi
      · by_cases hpp : parent i = parent hole
        · rw [hpp, hparent]
          have hold := h.except i hi0 hi hih
          rw [hpp] at hold
          exact fun hlt' => hold (IsTrans.trans _ _ _ hlt' hup)
        · rw [hother (parent i) hph hpp]
          exact h.except i hi0 hi hih
  · intro hp0 c hc hcn
    have hpp := parent_lt hp0
    have hcp : parent hole < c := by
      have hlt' := parent_lt hc.1
      rwa [hc.2] at hlt'
    rw [hother (parent (parent hole)) (by omega) (by omega)]
    have hgrand := h.except (parent hole) hp0 (by omega) (by omega)
    by_cases hch : c = hole
    · rw [hch, hhole]
      exact hgrand
    · rw [hother c hch (by omega)]
      have hchild := h.except c hc.1 hcn hch
      rw [hc.2] at hchild
      exact not_lt_trans' hgrand hchild

omit [IsStrictWeakOrder X lt] in
theorem UpOrder.finish {hole : Nat} (h : UpOrder lt n a hole) (hstop : 0 < hole → ¬ lt (a hole) (a (parent hole))) :
    Ordered lt n a := by
  intro i hi0 hi
  by_cases hih : i = hole
  · rw [hih] at hi0 ⊢
    exact hstop hi0
  · exact h.except i hi0 hi hih

theorem DownOrder.move {hole best : Nat} (h : DownOrder lt n a hole) (hchild : IsChild best hole) (hlt : best < n)
    (hdown : lt (a best) (a hole)) (hbest : ∀ c, IsChild c hole → c < n → ¬ lt (a c) (a best)) :
    DownOrder lt n (a ∘ Equiv.swap hole best) best := by
  have hb := parent_lt hchild.1
  rw [hchild.2] at hb
  have hhole : (a ∘ Equiv.swap hole best) hole = a best := by
    rw [Function.comp_apply, Equiv.swap_apply_left]
  have hbestAt : (a ∘ Equiv.swap hole best) best = a hole := by
    rw [Function.comp_apply, Equiv.swap_apply_right]
  have hother : ∀ i, i ≠ hole → i ≠ best → (a ∘ Equiv.swap hole best) i = a i := by
    intro i h1 h2
    rw [Function.comp_apply, Equiv.swap_apply_of_ne_of_ne h1 h2]
  constructor
  · intro i hi0 hi hpb
    by_cases hih : i = hole
    · -- the hole's new item was a child of it
      have hpos : 0 < hole := by omega
      have hp := parent_lt hpos
      rw [hih, hhole, hother (parent hole) (by omega) (by omega)]
      exact h.grand hpos best hchild hlt
    · by_cases hph : parent i = hole
      · rw [hph, hhole]
        by_cases hib : i = best
        · rw [hib, hbestAt]
          exact not_lt_of_lt hdown
        · rw [hother i hih hib]
          exact hbest i ⟨hi0, hph⟩ hi
      · have hib : i ≠ best := by
          intro e
          subst e
          exact hph hchild.2
        rw [hother i hih hib, hother (parent i) hph hpb]
        exact h.except i hi0 hi hph
  · intro _ c hc hcn
    have hbc := parent_lt hc.1
    rw [hc.2] at hbc
    rw [hchild.2, hhole, hother c (by omega) (by omega)]
    have hold := h.except c hc.1 hcn (by rw [hc.2]; omega)
    rwa [hc.2] at hold

omit [IsStrictWeakOrder X lt] in
theorem DownOrder.finish {hole : Nat} (h : DownOrder lt n a hole) (hstop : ∀ c, IsChild c hole → c < n → ¬ lt (a c) (a hole)) :
    Ordered lt n a := by
  intro i hi0 hi
  by_cases hph : parent i = hole
  · rw [hph]
    exact hstop i ⟨hi0, hph⟩ hi
  · exact h.except i hi0 hi hph

theorem Ordered.firstOf (h : Ordered lt n a) (hn : 0 < n) : FirstOf lt (a 0) (items n a) := by
  refine ⟨mem_items.mpr ⟨0, hn, rfl⟩, fun x hx => ?_⟩
  obtain ⟨i, hi, rfl⟩ := mem_items.mp hx
  exact h.root hi

end Weak

/-- A heap whose root is replaced. -/
theorem Ordered.replaceRoot (h : Ordered lt n a) {m : Nat} (hm : m ≤ n) (hsame : ∀ i, 0 < i → i < m → b i = a i) :
    DownOrder lt m b 0 := by
  refine ⟨fun i hi0 hi hp => ?_, nofun⟩
  have hup := parent_lt hi0
  rw [hsame i hi0 hi, hsame (parent i) (by omega) (by omega)]
  exact h i hi0 (by omega)

/-- A heap with one more item at its end. -/
theorem Ordered.append (h : Ordered lt n a) (hsame : ∀ i < n, b i = a i) : UpOrder lt (n + 1) b n := by
  refine ⟨fun i hi0 hi hne => ?_, fun hn c hc hcn => ?_⟩
  · have hup := parent_lt hi0
    rw [hsame i (by omega), hsame (parent i) (by omega)]
    exact h i hi0 (by omega)
  · have hlt := parent_lt hc.1
    rw [hc.2] at hlt
    omega

end UnifiedCache.Base.Heap
