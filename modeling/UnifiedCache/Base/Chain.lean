/-
  UnifiedCache.Base.Chain — keys that are chained through their parent.

  The key of each item of a list is made of the key before it and the item; the first of a seed.
  Where two keys that are made of different pairs are different, and none is the seed, a key
  stands for the items up to it (`chain_eq_iff`).
-/

import Mathlib.Data.List.Induction

namespace UnifiedCache.Base

variable {κ β : Type*} {f : κ → β → κ} {seed : κ}

def chain (f : κ → β → κ) : κ → List β → List κ
  | _, [] => []
  | parent, b :: l => f parent b :: chain f (f parent b) l

@[simp] theorem chain_length (l : List β) : (chain f seed l).length = l.length := by
  induction l generalizing seed with
  | nil => rfl
  | cons b l ih => simp only [chain, List.length_cons, ih]

theorem chain_take (l : List β) (n : Nat) : chain f seed (l.take n) = (chain f seed l).take n := by
  induction l generalizing seed n with
  | nil => rw [List.take_nil, chain, List.take_nil]
  | cons b l ih =>
    cases n with
    | zero => rfl
    | succ n => rw [List.take_succ_cons, chain, chain, List.take_succ_cons, ih]

/-- A key is made of the items up to it. -/
theorem chain_getElem (l : List β) (i : Nat) (h : i < (chain f seed l).length) :
    (chain f seed l)[i] = (l.take (i + 1)).foldl f seed := by
  induction l generalizing seed i with
  | nil => exact absurd h (Nat.not_lt_zero i)
  | cons b l ih =>
    cases i with
    | zero => rfl
    | succ i =>
      rw [List.take_succ_cons, List.foldl_cons]
      exact ih i _

/-- The pairs that the keys of a list are made of. -/
def chainPairs (f : κ → β → κ) : κ → List β → List (κ × β)
  | _, [] => []
  | parent, b :: l => (parent, b) :: chainPairs f (f parent b) l

theorem chain_eq_map (l : List β) : chain f seed l = (chainPairs f seed l).map fun x => f x.1 x.2 := by
  induction l generalizing seed with
  | nil => rfl
  | cons b l ih => rw [chain, chainPairs, ih, List.map_cons]

theorem chainPairs_append (l l' : List β) : chainPairs f seed (l ++ l') = chainPairs f seed l ++
    chainPairs f (l.foldl f seed) l' := by
  induction l generalizing seed with
  | nil => rfl
  | cons b l ih => rw [List.cons_append, chainPairs, chainPairs, ih, List.cons_append, List.foldl_cons]

theorem chainPairs_take_subset (l : List β) (n : Nat) : chainPairs f seed (l.take n) ⊆ chainPairs f seed l := by
  conv_rhs => rw [← List.take_append_drop n l, chainPairs_append]
  exact List.subset_append_left _ _

/-- Different lists have different keys. -/
theorem foldl_inj {l l' : List β}
    (hinj : ∀ x, x ∈ chainPairs f seed l → ∀ y, y ∈ chainPairs f seed l' → f x.1 x.2 = f y.1 y.2 → x = y)
    (hseed : ∀ x, x ∈ chainPairs f seed l ∨ x ∈ chainPairs f seed l' → f x.1 x.2 ≠ seed)
    (h : l.foldl f seed = l'.foldl f seed) : l = l' := by
  have hlast : ∀ (l : List β) (b : β), (l.foldl f seed, b) ∈ chainPairs f seed (l ++ [b]) := by
    intro l b
    rw [chainPairs_append]
    exact List.mem_append_right _ List.mem_cons_self
  induction l using List.reverseRecOn generalizing l' with
  | nil =>
    rcases List.eq_nil_or_concat l' with rfl | ⟨l', b, rfl⟩
    · rfl
    · rw [List.concat_eq_append] at h hseed
      rw [List.foldl_append] at h
      exact absurd h.symm (hseed _ (.inr (hlast l' b)))
  | append_singleton l a ih =>
    rcases List.eq_nil_or_concat l' with rfl | ⟨l', b, rfl⟩
    · rw [List.foldl_append] at h
      exact absurd h (hseed _ (.inl (hlast l a)))
    · rw [List.concat_eq_append] at h hseed hinj ⊢
      rw [List.foldl_append, List.foldl_append] at h
      obtain ⟨he, rfl⟩ := Prod.mk.inj (hinj _ (hlast l a) _ (hlast l' b) h)
      rw [chainPairs_append, chainPairs_append] at hinj
      rw [chainPairs_append, chainPairs_append] at hseed
      rw [ih ?_ ?_ he]
      · intro x hx y hy
        exact hinj x (List.mem_append_left _ hx) y (List.mem_append_left _ hy)
      · intro x hx
        exact hseed x (hx.imp (List.mem_append_left _) (List.mem_append_left _))

/-- The keys of two lists are the same where the lists agree up to them. -/
theorem chain_eq_iff {l l' : List β}
    (hinj : ∀ x, x ∈ chainPairs f seed l → ∀ y, y ∈ chainPairs f seed l' → f x.1 x.2 = f y.1 y.2 → x = y)
    (hseed : ∀ x, x ∈ chainPairs f seed l ∨ x ∈ chainPairs f seed l' → f x.1 x.2 ≠ seed) (i j : Nat)
    (hi : i < (chain f seed l).length)
    (hj : j < (chain f seed l').length) : (chain f seed l)[i] = (chain f seed l')[j] ↔ l.take (i + 1) = l'.take (j + 1) := by
  rw [chain_getElem, chain_getElem]
  constructor
  · apply foldl_inj
    · intro x hx y hy
      exact hinj x (chainPairs_take_subset l _ hx) y (chainPairs_take_subset l' _ hy)
    · intro x hx
      exact hseed x (hx.imp (fun h => chainPairs_take_subset l _ h) fun h => chainPairs_take_subset l' _ h)
  · intro h
    rw [h]

end UnifiedCache.Base
