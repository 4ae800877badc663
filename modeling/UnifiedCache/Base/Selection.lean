/-
  UnifiedCache.Base.Selection — the best `k` of `n` numbered items.

  `IsTop`: a set of `k` items with no better one left out; with ties there are several. `IsFirst`: the
  one that takes the lower number first. `NthElement` and `PartialSort` are what the algorithms of that
  name may leave, for any order.

  A heap of the best items so far that gives up its worst item, the lowest number first, for a better
  one (`heapSelect`) ends with a best set (`heapSelect_isTop`). That is the first one just where no item
  that is better than the `k`-th best comes after `k` that are no worse than it (`heapSelect_isFirst_iff`).
-/

import Mathlib.Data.Finset.Card
import Mathlib.Data.List.Sort
import Mathlib.Data.Prod.Lex
import Mathlib.Order.Basic

namespace UnifiedCache.Base

section Algorithms

variable {β : Type*} (lt : β → β → Prop) (l l' : List β) (n : Nat)

/-- What `nth_element` makes of `l`, with the element that comes into place `n`. -/
structure NthElement : Prop where
  perm : l'.Perm l
  left : ∀ x, x ∈ l'.take n → ∀ y, y ∈ l'[n]? → ¬ lt y x
  right : ∀ y, y ∈ l'[n]? → ∀ z, z ∈ l'.drop (n + 1) → ¬ lt z y

/-- What `partial_sort` makes of `l`, with `n` places sorted. -/
structure PartialSort : Prop where
  perm : l'.Perm l
  sorted : (l'.take n).Pairwise fun x y => ¬ lt y x
  rest : ∀ x, x ∈ l'.take n → ∀ y, y ∈ l'.drop n → ¬ lt y x

variable [DecidableEq β] [DecidableRel lt]

instance : Decidable (NthElement lt l l' n) :=
  decidable_of_iff (l'.Perm l ∧ (∀ x, x ∈ l'.take n → ∀ y, y ∈ l'[n]? → ¬ lt y x) ∧ ∀ y, y ∈ l'[n]? →
    ∀ z, z ∈ l'.drop (n + 1) → ¬ lt z y)
    ⟨fun h => ⟨h.1, h.2.1, h.2.2⟩, fun h => ⟨h.perm, h.left, h.right⟩⟩

instance : Decidable (PartialSort lt l l' n) :=
  decidable_of_iff (l'.Perm l ∧ (l'.take n).Pairwise (fun x y => ¬ lt y x) ∧ ∀ x, x ∈ l'.take n → ∀ y, y ∈ l'.drop n → ¬ lt y x)
    ⟨fun h => ⟨h.1, h.2.1, h.2.2⟩, fun h => ⟨h.perm, h.sorted, h.rest⟩⟩

end Algorithms

section Keys

variable {α β : Type*} [LinearOrder α] (key : β → α) {l l' : List β} {n : Nat}

/-- A list that is sorted by a key. -/
theorem PartialSort.of_sorted {key : β → α} (hperm : l'.Perm l) (h : l'.Pairwise fun x y => key x ≤ key y) (n : Nat) :
    PartialSort (fun x y => key x < key y) l l' n := by
  have hcut : (l'.take n ++ l'.drop n).Pairwise fun x y => key x ≤ key y := by
    rw [List.take_append_drop]
    exact h
  refine ⟨hperm, ?_, fun x hx y hy => not_lt_of_ge ((List.pairwise_append.mp hcut).2.2 x hx y hy)⟩
  exact (List.pairwise_append.mp hcut).1.imp fun hle => not_lt_of_ge hle

theorem exists_sorted (l : List β) : ∃ l' : List β, l'.Perm l ∧ l'.Pairwise fun x y => key x ≤ key y := by
  have : Std.Total fun x y => key x ≤ key y := ⟨fun x y => le_total _ _⟩
  have : IsTrans β fun x y => key x ≤ key y := ⟨fun x y z => le_trans⟩
  exact ⟨l.insertionSort fun x y => key x ≤ key y, List.perm_insertionSort _ l, List.pairwise_insertionSort _ l⟩

theorem exists_partialSort (l : List β) (n : Nat) : ∃ l', PartialSort (fun x y => key x < key y) l l' n := by
  obtain ⟨l', hperm, h⟩ := exists_sorted key l
  exact ⟨l', .of_sorted hperm h n⟩

/-- A partial sort can bring any of the elements to the front that has less than `n` before it. -/
theorem exists_partialSort_front [DecidableEq β] {e : β} (he : e ∈ l) (hn : l.countP (fun x => key x < key e) < n) :
    ∃ l', PartialSort (fun x y => key x < key y) l l' n ∧ e ∈ l'.take n := by
  obtain ⟨l', hperm, h⟩ := exists_sorted (fun x => toLex (key x, decide (x ≠ e))) l
  refine ⟨l', .of_sorted hperm (h.imp fun hle => ?_) n, ?_⟩
  · rcases Prod.Lex.le_iff.mp hle with hlt | ⟨heq, -⟩
    · exact le_of_lt hlt
    · exact le_of_eq heq
  by_contra hnot
  have he' : e ∈ l'.drop n := by
    have hall := hperm.mem_iff.mpr he
    rw [← List.take_append_drop n l'] at hall
    exact (List.mem_append.mp hall).resolve_left hnot
  -- whatever is in front comes before the element
  have hfront : ∀ x, x ∈ l'.take n → key x < key e := by
    intro x hx
    have hcut := List.take_append_drop n l' ▸ h
    rcases Prod.Lex.le_iff.mp ((List.pairwise_append.mp hcut).2.2 x hx e he') with hlt | ⟨-, hle⟩
    · exact hlt
    · have hxe : x = e := by
        by_contra hne
        exact absurd (hle (decide_eq_true hne)) (by simp)
      exact absurd (hxe ▸ hx) hnot
  have hlen : (l'.take n).length = n := by
    have := List.length_pos_of_mem he'
    rw [List.length_drop] at this
    rw [List.length_take]
    omega
  have hcount : (l'.take n).countP (fun x => key x < key e) = n := by
    exact (List.countP_eq_length.mpr fun x hx => decide_eq_true (hfront x hx)).trans hlen
  have hle := (List.take_sublist n l').countP_le (p := fun x => decide (key x < key e))
  rw [hperm.countP_eq, hcount] at hle
  omega

end Keys

variable {α : Type*} [LinearOrder α] (score : Nat → α) {n k m : Nat} {s t : Finset Nat}

structure IsTop (n k : Nat) (s : Finset Nat) : Prop where
  valid : ∀ i, i ∈ s → i < n
  card : s.card = min k n
  best : ∀ i, i ∈ s → ∀ j, j < n → j ∉ s → score j ≤ score i

/-- The better item, or the lower number. -/
def Before (i j : Nat) : Prop := score j < score i ∨ score i = score j ∧ i < j

instance : DecidableRel (Before score) := fun i j => inferInstanceAs (Decidable (score j < score i ∨ score i = score j ∧ i < j))

structure IsFirst (n k : Nat) (s : Finset Nat) : Prop where
  valid : ∀ i, i ∈ s → i < n
  card : s.card = min k n
  first : ∀ i, i ∈ s → ∀ j, j < n → j ∉ s → Before score i j

variable {score}

theorem Before.trans {a b c : Nat} (h : Before score a b) (h' : Before score b c) : Before score a c := by
  rcases h with h | ⟨h, hlt⟩ <;> rcases h' with h' | ⟨h', hlt'⟩
  · exact .inl (h'.trans h)
  · exact .inl (h' ▸ h)
  · exact .inl (h ▸ h')
  · exact .inr ⟨h.trans h', hlt.trans hlt'⟩

theorem Before.asymm {a b : Nat} (h : Before score a b) : ¬ Before score b a := by
  intro h'
  rcases h.trans h' with h | ⟨-, h⟩
  · exact lt_irrefl _ h
  · exact lt_irrefl _ h

theorem before_of_ne {a b : Nat} (hne : a ≠ b) (h : ¬ Before score b a) : Before score a b := by
  rcases lt_trichotomy (score a) (score b) with hlt | heq | hlt
  · exact absurd (.inl hlt) h
  · rcases Nat.lt_or_gt_of_ne hne with hlt | hlt
    · exact .inr ⟨heq, hlt⟩
    · exact absurd (.inr ⟨heq.symm, hlt⟩) h
  · exact .inl hlt

theorem IsFirst.isTop (h : IsFirst score n k s) : IsTop score n k s := by
  refine ⟨h.valid, h.card, fun i hi j hj hnot => ?_⟩
  rcases h.first i hi j hj hnot with hlt | ⟨heq, -⟩
  · exact le_of_lt hlt
  · exact le_of_eq heq.symm

theorem IsFirst.unique (hs : IsFirst score n k s) (ht : IsFirst score n k t) : s = t := by
  by_contra hne
  have hcard : s.card = t.card := hs.card.trans ht.card.symm
  have hsub : ¬ s ⊆ t := fun h => hne (Finset.eq_of_subset_of_card_le h (le_of_eq hcard.symm))
  have hsub' : ¬ t ⊆ s := fun h => hne (Finset.eq_of_subset_of_card_le h (le_of_eq hcard)).symm
  obtain ⟨i, hi, hi'⟩ := Finset.not_subset.mp hsub
  obtain ⟨j, hj, hj'⟩ := Finset.not_subset.mp hsub'
  exact (hs.first i hi j (ht.valid j hj) hj').asymm (ht.first j hj i (hs.valid i hi) hi')

/-- The first places that `nth_element` leaves. -/
theorem NthElement.isFirst {order : List Nat} (h : NthElement (Before score) (List.range n) order (k - 1)) (hk : 1 ≤ k)
    (hkn : k ≤ n) :
    (order.take k).Nodup ∧ IsFirst score n k (order.take k).toFinset := by
  have hnodup : order.Nodup := h.perm.nodup_iff.mpr List.nodup_range
  have hmem : ∀ i, i ∈ order ↔ i < n := fun i => (h.perm.mem_iff).trans List.mem_range
  have hlen : order.length = n := h.perm.length_eq.trans List.length_range
  have hlt : k - 1 < order.length := by omega
  have hx : order[k - 1]? = some order[k - 1] := List.getElem?_eq_getElem hlt
  -- what is in front is before the element in place, and that is before what follows
  have hleft : ∀ i, i ∈ order.take k → i = order[k - 1] ∨ Before score i order[k - 1] := by
    intro i hi
    rw [show k = k - 1 + 1 by omega, List.take_add_one, hx] at hi
    rcases List.mem_append.mp hi with hi | hi
    · by_cases e : i = order[k - 1]
      · exact .inl e
      · exact .inr (before_of_ne e (h.left i hi _ hx))
    · exact .inl (List.mem_singleton.mp hi)
  have hright : ∀ j, j ∈ order.drop k → Before score order[k - 1] j := by
    intro j hj
    have hj' : j ∈ order.drop (k - 1 + 1) := by
      rw [show k - 1 + 1 = k by omega]
      exact hj
    refine before_of_ne ?_ (h.right _ hx j hj')
    intro e
    rw [List.drop_eq_getElem_cons hlt |> fun e => (List.take_append_drop (k - 1) order).symm.trans (congrArg _ e)] at hnodup
    exact (List.nodup_cons.mp (List.nodup_append.mp hnodup).2.1).1 (e ▸ hj')
  refine ⟨hnodup.sublist (List.take_sublist k order), fun i hi => ?_, ?_, fun i hi j hj hnot => ?_⟩
  · exact (hmem i).mp (List.mem_of_mem_take (List.mem_toFinset.mp hi))
  · rw [List.toFinset_card_of_nodup (hnodup.sublist (List.take_sublist k order)), List.length_take, hlen]
  · have hj' : j ∈ order.drop k := by
      have hall := (hmem j).mpr hj
      rw [← List.take_append_drop k order] at hall
      exact (List.mem_append.mp hall).resolve_left fun e => hnot (List.mem_toFinset.mpr e)
    rcases hleft i (List.mem_toFinset.mp hi) with rfl | hb
    · exact hright j hj'
    · exact hb.trans (hright j hj')

/-- `nth_element` can leave the items in order. -/
theorem exists_nthElement (score : Nat → α) (n i : Nat) : ∃ order, NthElement (Before score) (List.range n) order i := by
  let r : Nat → Nat → Prop := fun i j => ¬ Before score j i
  have hself : ∀ a, ¬ Before score a a := fun a h => h.asymm h
  have : Std.Total r := ⟨fun a b => by
    by_cases h : Before score b a
    · exact .inr h.asymm
    · exact .inl h⟩
  have : IsTrans Nat r := ⟨fun a b c hab hbc hca => by
    by_cases e : a = b
    · exact hbc (e ▸ hca)
    · exact hbc (hca.trans (before_of_ne e hab))⟩
  have hsorted := List.pairwise_insertionSort r (List.range n)
  have hsplit : ∀ (l : List Nat) y, l[i]? = some y → l = l.take i ++ y :: l.drop (i + 1) := by
    intro l y hy
    obtain ⟨hlt, rfl⟩ := List.getElem?_eq_some_iff.mp hy
    rw [← List.drop_eq_getElem_cons hlt, List.take_append_drop]
  refine ⟨(List.range n).insertionSort r, List.perm_insertionSort .., fun x hx y hy => ?_, fun y hy z hz => ?_⟩
  · rw [hsplit _ y hy] at hsorted
    exact (List.pairwise_append.mp hsorted).2.2 x hx y List.mem_cons_self
  · rw [hsplit _ y hy] at hsorted
    exact (List.pairwise_cons.mp (List.pairwise_append.mp hsorted).2.1).1 z hz

/-! ## A heap of the best so far -/

section Heap

variable (score)

/-- The order of the pairs of a score and a number. -/
def Weaker (i j : Nat) : Prop := score i < score j ∨ score i = score j ∧ i ≤ j

instance : DecidableRel (Weaker score) := fun i j => inferInstanceAs (Decidable (score i < score j ∨ score i = score j ∧ i ≤ j))

instance : Std.Total (Weaker score) where
  total i j := by
    rcases lt_trichotomy (score i) (score j) with h | h | h
    · exact .inl (.inl h)
    · rcases Nat.le_total i j with hle | hle
      · exact .inl (.inr ⟨h, hle⟩)
      · exact .inr (.inr ⟨h.symm, hle⟩)
    · exact .inr (.inl h)

instance : IsTrans Nat (Weaker score) where
  trans i j l h h' := by
    rcases h with h | ⟨h, hle⟩ <;> rcases h' with h' | ⟨h', hle'⟩
    · exact .inl (h.trans h')
    · exact .inl (h' ▸ h)
    · exact .inl (h ▸ h')
    · exact .inr ⟨h.trans h', hle.trans hle'⟩

/-- An item comes to the heap, the weakest first; `none` if the top of an empty heap is read. -/
def heapStep (k : Nat) (heap : List Nat) (n : Nat) : Option (List Nat) :=
  if heap.length < k then some (heap.orderedInsert (Weaker score) n)
  else
    match heap with
    | [] => none
    | top :: rest => some (if score top < score n then rest.orderedInsert (Weaker score) n else heap)

/-- The heap after the first `n` items. -/
def heapSelect (k n : Nat) : Option (List Nat) := (List.range n).foldlM (heapStep score k) []

end Heap

theorem heapSelect_succ (k n : Nat) : heapSelect score k (n + 1) = (heapSelect score k n).bind fun heap =>
    heapStep score k heap n := by
  unfold heapSelect
  rw [List.range_succ, List.foldlM_append]
  cases (List.range n).foldlM (heapStep score k) [] with
  | none => rfl
  | some heap =>
    show List.foldlM (heapStep score k) heap [n] = _
    simp

structure HeapInv (score : Nat → α) (k m : Nat) (heap : List Nat) : Prop where
  sorted : heap.Pairwise (Weaker score)
  nodup : heap.Nodup
  valid : ∀ i, i ∈ heap → i < m
  length : heap.length = min k m
  best : ∀ i, i ∈ heap → ∀ j, j < m → j ∉ heap → score j ≤ score i

theorem Weaker.le {i j : Nat} (h : Weaker score i j) : score i ≤ score j := by
  rcases h with h | ⟨h, -⟩
  · exact le_of_lt h
  · exact le_of_eq h

/-- A heap with a place left holds all items. -/
theorem HeapInv.all {heap : List Nat} (h : HeapInv score k m heap) (hlt : heap.length < k) : ∀ j, j < m → j ∈ heap := by
  intro j hj
  have hlen := h.length
  have hsub : heap.toFinset ⊆ Finset.range m := by
    intro i hi
    exact Finset.mem_range.mpr (h.valid i (List.mem_toFinset.mp hi))
  have heq : heap.toFinset = Finset.range m := by
    apply Finset.eq_of_subset_of_card_le hsub
    rw [Finset.card_range, List.toFinset_card_of_nodup h.nodup]
    omega
  exact List.mem_toFinset.mp (heq ▸ Finset.mem_range.mpr hj)

/-- An item comes to a heap with a place left. -/
theorem HeapInv.push {heap : List Nat} (h : HeapInv score k m heap) (hlt : heap.length < k) :
    HeapInv score k (m + 1) (heap.orderedInsert (Weaker score) m) := by
  have hlen := h.length
  constructor
  · exact h.sorted.orderedInsert ..
  · rw [(List.perm_orderedInsert (Weaker score) m heap).nodup_iff, List.nodup_cons]
    exact ⟨fun hm => Nat.lt_irrefl m (h.valid m hm), h.nodup⟩
  · intro i hi
    rcases (List.mem_orderedInsert (Weaker score)).mp hi with rfl | hi
    · exact Nat.lt_succ_self _
    · exact Nat.lt_succ_of_lt (h.valid i hi)
  · rw [List.orderedInsert_length]
    omega
  · intro i _ j hj hnot
    rw [List.mem_orderedInsert, not_or] at hnot
    exact absurd (h.all hlt j (by omega)) hnot.2

/-- A better item takes the place of the weakest one. -/
theorem HeapInv.replace {top : Nat} {rest : List Nat} (h : HeapInv score k m (top :: rest)) (hk : k ≤ (top :: rest).length)
    (hlt : score top < score m) : HeapInv score k (m + 1) (rest.orderedInsert (Weaker score) m) := by
  have hlen := h.length
  obtain ⟨htop, hsorted⟩ := List.pairwise_cons.mp h.sorted
  obtain ⟨hnot, hnodup⟩ := List.nodup_cons.mp h.nodup
  constructor
  · exact hsorted.orderedInsert ..
  · rw [(List.perm_orderedInsert (Weaker score) m rest).nodup_iff, List.nodup_cons]
    exact ⟨fun hm => Nat.lt_irrefl m (h.valid m (List.mem_cons_of_mem _ hm)), hnodup⟩
  · intro i hi
    rcases (List.mem_orderedInsert (Weaker score)).mp hi with rfl | hi
    · exact Nat.lt_succ_self _
    · exact Nat.lt_succ_of_lt (h.valid i (List.mem_cons_of_mem _ hi))
  · rw [List.orderedInsert_length]
    rw [List.length_cons] at hlen hk
    omega
  · intro i hi j hj hj'
    rw [List.mem_orderedInsert, not_or] at hj'
    have htopi : score top ≤ score i := by
      rcases (List.mem_orderedInsert (Weaker score)).mp hi with rfl | hi
      · exact le_of_lt hlt
      · exact (htop i hi).le
    by_cases e : j = top
    · rw [e]
      exact htopi
    · have hout : j ∉ top :: rest := by
        rw [List.mem_cons, not_or]
        exact ⟨e, hj'.2⟩
      exact (h.best top List.mem_cons_self j (by omega) hout).trans htopi

/-- An item that is no better than the weakest one is left out. -/
theorem HeapInv.skip {top : Nat} {rest : List Nat} (h : HeapInv score k m (top :: rest)) (hk : k ≤ (top :: rest).length)
    (hle : score m ≤ score top) : HeapInv score k (m + 1) (top :: rest) := by
  have hlen := h.length
  obtain ⟨htop, -⟩ := List.pairwise_cons.mp h.sorted
  refine ⟨h.sorted, h.nodup, fun i hi => Nat.lt_succ_of_lt (h.valid i hi), by omega, fun i hi j hj hnot => ?_⟩
  by_cases e : j = m
  · rw [e]
    rcases List.mem_cons.mp hi with rfl | hi
    · exact hle
    · exact hle.trans (htop i hi).le
  · exact h.best i hi j (by omega) hnot

/-- What an item does to a heap. -/
inductive HeapStep (score : Nat → α) (k m : Nat) (heap heap' : List Nat) : Prop
  | push (place : heap.length < k) (mem : ∀ i, i ∈ heap' ↔ i = m ∨ i ∈ heap)
  | replace (top : Nat) (full : heap.length = k) (mem_top : top ∈ heap) (weakest : ∀ i, i ∈ heap → Weaker score top i)
      (better : score top < score m)
      (mem : ∀ i, i ∈ heap' ↔ i = m ∨ i ∈ heap ∧ i ≠ top)
  | skip (top : Nat) (full : heap.length = k) (mem_top : top ∈ heap) (weakest : ∀ i, i ∈ heap → Weaker score top i)
      (worse : score m ≤ score top)
      (same : heap' = heap)

theorem HeapInv.step {heap : List Nat} (h : HeapInv score k m heap) (hk : 1 ≤ k) :
    ∃ heap', heapStep score k heap m = some heap' ∧ HeapInv score k (m + 1) heap' ∧ HeapStep score k m heap heap' := by
  have hlen := h.length
  unfold heapStep
  by_cases hlt : heap.length < k
  · rw [if_pos hlt]
    exact ⟨_, rfl, h.push hlt, .push hlt fun i => List.mem_orderedInsert _⟩
  · rw [if_neg hlt]
    cases heap with
    | nil => exact absurd hk hlt
    | cons top rest =>
      have hfull : (top :: rest).length = k := by omega
      obtain ⟨htop, -⟩ := List.pairwise_cons.mp h.sorted
      have hweakest : ∀ i, i ∈ top :: rest → Weaker score top i := by
        intro i hi
        rcases List.mem_cons.mp hi with rfl | hi
        · exact .inr ⟨rfl, Nat.le_refl _⟩
        · exact htop i hi
      by_cases hbetter : score top < score m
      · refine ⟨_, rfl, ?_, ?_⟩
        · rw [if_pos hbetter]
          exact h.replace (le_of_eq hfull.symm) hbetter
        · rw [if_pos hbetter]
          refine .replace top hfull List.mem_cons_self hweakest hbetter fun i => ?_
          have hnot := (List.nodup_cons.mp h.nodup).1
          rw [List.mem_orderedInsert, List.mem_cons]
          constructor
          · intro hi
            exact hi.imp_right fun hi => ⟨.inr hi, fun e => hnot (e ▸ hi)⟩
          · intro hi
            exact hi.imp_right fun hi => hi.1.resolve_left hi.2
      · refine ⟨_, rfl, ?_, ?_⟩
        · rw [if_neg hbetter]
          exact h.skip (le_of_eq hfull.symm) (not_lt.mp hbetter)
        · rw [if_neg hbetter]
          exact .skip top hfull List.mem_cons_self hweakest (not_lt.mp hbetter) rfl

theorem heapSelect_inv (score : Nat → α) (hk : 1 ≤ k) (n : Nat) : ∃ heap, heapSelect score k n = some heap ∧
    HeapInv score k n heap := by
  induction n with
  | zero =>
    refine ⟨[], rfl, List.Pairwise.nil, List.nodup_nil, nofun, ?_, nofun⟩
    rw [Nat.min_zero]
    rfl
  | succ n ih =>
    obtain ⟨heap, hsel, hinv⟩ := ih
    obtain ⟨heap', hstep, hinv', -⟩ := hinv.step hk
    refine ⟨heap', ?_, hinv'⟩
    rw [heapSelect_succ, hsel]
    exact hstep

theorem HeapInv.isTop {heap : List Nat} (h : HeapInv score k n heap) : IsTop score n k heap.toFinset := by
  refine ⟨fun i hi => h.valid i (List.mem_toFinset.mp hi), ?_, fun i hi j hj hnot => ?_⟩
  · rw [List.toFinset_card_of_nodup h.nodup, h.length]
  · exact h.best i (List.mem_toFinset.mp hi) j hj fun e => hnot (List.mem_toFinset.mpr e)

/-! ## Ties -/

/-- The `k`-th best score. -/
structure IsKth (score : Nat → α) (n k : Nat) (v : α) : Prop where
  better : (List.range n).countP (fun i => decide (v < score i)) < k
  reached : k ≤ (List.range n).countP fun i => decide (v ≤ score i)

/-- The items that are no worse than `v`, in their order. -/
def noWorse (score : Nat → α) (v : α) (n : Nat) : List Nat := (List.range n).filter fun i => decide (v ≤ score i)

/-- No item that is better than the `k`-th best comes after `k` that are no worse than it. -/
def Settled (score : Nat → α) (n k : Nat) : Prop := ∀ v, IsKth score n k v → ∀ x, x < n → v < score x →
    (noWorse score v x).length < k

variable {v : α}

theorem mem_noWorse {i : Nat} : i ∈ noWorse score v n ↔ i < n ∧ v ≤ score i := by
  unfold noWorse
  rw [List.mem_filter, List.mem_range, decide_eq_true_eq]

theorem noWorse_sorted : (noWorse score v n).Pairwise (· < ·) := List.pairwise_lt_range.filter _

theorem noWorse_succ (v : α) (n : Nat) : noWorse score v (n + 1) = noWorse score v n ++ if v ≤ score n then [n] else [] := by
  unfold noWorse
  rw [List.range_succ, List.filter_append]
  by_cases h : v ≤ score n
  · rw [if_pos h, List.filter_cons_of_pos (by simpa using h)]
    rfl
  · rw [if_neg h, List.filter_cons_of_neg (by simpa using h)]
    rfl

/-- The first items of `noWorse` come before the others. -/
theorem mem_take_of_lt {l : List Nat} (hl : l.Pairwise (· < ·)) {i j : Nat} (hi : i ∈ l) (hj : j ∈ l.take k) (hij : i < j) :
    i ∈ l.take k := by
  rw [← List.take_append_drop k l] at hi hl
  rcases List.mem_append.mp hi with hi | hi
  · exact hi
  · have hlt := (List.pairwise_append.mp hl).2.2 j hj i hi
    omega

/-- While no item is settled, the heap has the first items that are no worse than `v`. -/
theorem heapSelect_take (hk : 1 ≤ k) (m : Nat) (hset : ∀ x, x < m → v < score x → (noWorse score v x).length < k)
    {heap : List Nat}
    (h : heapSelect score k m = some heap) : ∀ i, i ∈ heap ∧ v ≤ score i ↔ i ∈ (noWorse score v m).take k := by
  induction m generalizing heap with
  | zero =>
    obtain rfl := Option.some.inj h
    intro i
    constructor
    · rintro ⟨hi, -⟩
      cases hi
    · intro hi
      cases List.mem_of_mem_take hi
  | succ m ih =>
    obtain ⟨heap₀, hsel, hinv⟩ := heapSelect_inv score hk m
    have ih := ih (fun x hx => hset x (by omega)) hsel
    obtain ⟨heap', hstep, hinv', hcase⟩ := hinv.step hk
    rw [heapSelect_succ, hsel] at h
    obtain rfl : heap' = heap := Option.some.inj (hstep.symm.trans h)
    intro i
    rw [noWorse_succ]
    by_cases hv : v ≤ score m
    · rw [if_pos hv]
      by_cases hlen : (noWorse score v m).length < k
      · -- the item is among the first ones, and it comes to a heap that has no other `k`
        rw [List.take_of_length_le (by omega)] at ih
        rw [List.take_of_length_le (by rw [List.length_append, List.length_singleton]; omega), List.mem_append,
          List.mem_singleton, ← ih]
        have hlow : ∀ top, heap₀.length = k → (∀ i, i ∈ heap₀ → Weaker score top i) → ¬ v ≤ score top := by
          intro top hfull hweakest hle
          have hsub : heap₀ ⊆ noWorse score v m := fun i hi => (ih i).mp ⟨hi, hle.trans (hweakest i hi).le⟩
          have hle := (List.subperm_of_subset hinv.nodup hsub).length_le
          omega
        cases hcase with
        | push place mem =>
          rw [mem]
          constructor
          · rintro ⟨rfl | hi, hvi⟩
            · exact .inr rfl
            · exact .inl ⟨hi, hvi⟩
          · rintro (⟨hi, hvi⟩ | rfl)
            · exact ⟨.inr hi, hvi⟩
            · exact ⟨.inl rfl, hv⟩
        | replace top full mem_top weakest better mem =>
          rw [mem]
          constructor
          · rintro ⟨rfl | ⟨hi, -⟩, hvi⟩
            · exact .inr rfl
            · exact .inl ⟨hi, hvi⟩
          · rintro (⟨hi, hvi⟩ | rfl)
            · exact ⟨.inr ⟨hi, fun e => hlow top full weakest (e ▸ hvi)⟩, hvi⟩
            · exact ⟨.inl rfl, hv⟩
        | skip top full mem_top weakest worse same => exact absurd (hv.trans worse) (hlow top full weakest)
      · -- the heap is full of items that are no worse, and the item is no better than them
        have hlen : k ≤ (noWorse score v m).length := not_lt.mp hlen
        have hle : score m ≤ v := not_lt.mp fun hlt => not_lt.mpr hlen (hset m (Nat.lt_succ_self m) hlt)
        have hsub : (noWorse score v m).take k ⊆ heap₀ := fun i hi => ((ih i).mpr hi).1
        have hnodup : ((noWorse score v m).take k).Nodup := (noWorse_sorted.imp Nat.ne_of_lt).sublist (List.take_sublist ..)
        have htake : ((noWorse score v m).take k).length = k := by
          rw [List.length_take]
          omega
        have hfull : k ≤ heap₀.length := by
          rw [← htake]
          exact (List.subperm_of_subset hnodup hsub).length_le
        rw [List.take_append_of_le_length hlen, ← ih]
        cases hcase with
        | push place mem => omega
        | replace top full mem_top weakest better mem =>
          exfalso
          have hnot : top ∉ (noWorse score v m).take k :=
              fun e => absurd (mem_noWorse.mp (List.mem_of_mem_take e)).2 (not_le.mpr (better.trans_le hle))
          have hlt :=
              (List.subperm_of_subset (List.nodup_cons.mpr ⟨hnot, hnodup⟩) (List.cons_subset.mpr ⟨mem_top, hsub⟩)).length_le
          rw [List.length_cons, htake] at hlt
          omega
        | skip top full mem_top weakest worse same => rw [same]
    · rw [if_neg hv, List.append_nil, ← ih]
      have hlt : score m < v := not_le.mp hv
      cases hcase with
      | push place mem =>
        rw [mem]
        constructor
        · rintro ⟨rfl | hi, hvi⟩
          · exact absurd hvi hv
          · exact ⟨hi, hvi⟩
        · exact fun hi => ⟨.inr hi.1, hi.2⟩
      | replace top full mem_top weakest better mem =>
        rw [mem]
        constructor
        · rintro ⟨rfl | hi, hvi⟩
          · exact absurd hvi hv
          · exact ⟨hi.1, hvi⟩
        · intro hi
          exact ⟨.inr ⟨hi.1, fun e => absurd (better.trans hlt) (not_lt.mpr (e ▸ hi.2))⟩, hi.2⟩
      | skip top full mem_top weakest worse same => rw [same]

theorem HeapInv.length_eq {heap : List Nat} (h : HeapInv score k n heap) (hkn : k ≤ n) : heap.length = k := by
  rw [h.length, Nat.min_eq_left hkn]

/-- The weakest item of a full heap has the `k`-th best score. -/
theorem HeapInv.isKth {heap : List Nat} {top : Nat} (h : HeapInv score k n heap) (hkn : k ≤ n) (htop : top ∈ heap)
    (hweakest : ∀ i, i ∈ heap → Weaker score top i) : IsKth score n k (score top) := by
  have hlen := h.length_eq hkn
  constructor
  · rw [List.countP_eq_length_filter]
    have hmem : ∀ i, i ∈ (List.range n).filter (fun i => decide (score top < score i)) ↔ i < n ∧ score top < score i := by
      intro i
      rw [List.mem_filter, List.mem_range, decide_eq_true_eq]
    have hnot : top ∉ (List.range n).filter (fun i => decide (score top < score i)) := fun e => lt_irrefl _ ((hmem top).mp e).2
    have hsub : top :: (List.range n).filter (fun i => decide (score top < score i)) ⊆ heap := by
      refine List.cons_subset.mpr ⟨htop, fun j hj => ?_⟩
      obtain ⟨hj, hlt⟩ := (hmem j).mp hj
      by_contra hout
      exact not_lt.mpr (h.best top htop j hj hout) hlt
    have hle := (List.subperm_of_subset (List.nodup_cons.mpr ⟨hnot, List.nodup_range.filter _⟩) hsub).length_le
    rw [List.length_cons] at hle
    omega
  · rw [List.countP_eq_length_filter, ← hlen]
    apply (List.subperm_of_subset h.nodup _).length_le
    intro i hi
    exact mem_noWorse.mpr ⟨h.valid i hi, (hweakest i hi).le⟩

/-- An item that has left the heap does not come back. -/
theorem heapSelect_gone (hk : 1 ≤ k) {x p : Nat} (hp : p < x) (hgone : ∀ heap, heapSelect score k x = some heap → p ∉ heap)
    {n : Nat} (hn : x ≤ n) :
    ∀ heap, heapSelect score k n = some heap → p ∉ heap := by
  induction n, hn using Nat.le_induction with
  | base => exact hgone
  | succ n hn ih =>
    intro heap hsel hmem
    obtain ⟨heap₀, hsel₀, hinv⟩ := heapSelect_inv score hk n
    obtain ⟨heap', hstep, -, hcase⟩ := hinv.step hk
    rw [heapSelect_succ, hsel₀] at hsel
    obtain rfl : heap' = heap := Option.some.inj (hstep.symm.trans hsel)
    apply ih heap₀ hsel₀
    cases hcase with
    | push place mem => exact ((mem p).mp hmem).resolve_left (by omega)
    | replace top full mem_top weakest better mem => exact (((mem p).mp hmem).resolve_left (by omega)).1
    | skip top full mem_top weakest worse same => exact same ▸ hmem

theorem mem_take_noWorse {j : Nat} (hj : j < n) (hv : v ≤ score j) (hlen : (noWorse score v j).length < k) :
    j ∈ (noWorse score v n).take k := by
  have hprefix : noWorse score v (j + 1) <+: noWorse score v n := by
    unfold noWorse
    rw [← Nat.min_eq_left (show j + 1 ≤ n from hj), ← List.take_range]
    exact (List.take_prefix ..).filter _
  rw [noWorse_succ, if_pos hv] at hprefix
  obtain ⟨rest, hrest⟩ := hprefix
  rw [← hrest, List.append_assoc, List.take_append]
  apply List.mem_append_right
  obtain ⟨d, hd⟩ : ∃ d, k - (noWorse score v j).length = d + 1 := ⟨k - (noWorse score v j).length - 1, by omega⟩
  rw [hd]
  exact List.mem_cons_self

theorem heapSelect_isFirst_iff (hk : 1 ≤ k) (hkn : k ≤ n) {heap : List Nat} (h : heapSelect score k n = some heap) :
    IsFirst score n k heap.toFinset ↔ Settled score n k := by
  obtain ⟨heap', hsel, hinv⟩ := heapSelect_inv score hk n
  obtain rfl : heap' = heap := Option.some.inj (hsel.symm.trans h)
  have hlen := hinv.length_eq hkn
  constructor
  · intro hfirst v hkth x
    induction x using Nat.strongRecOn with
    | ind x ih =>
      intro hx hvx
      by_contra hge
      -- so the heap is full of items that are no worse than `v`, and the weakest of them leaves it
      obtain ⟨heap₀, hsel₀, hinv₀⟩ := heapSelect_inv score hk x
      have htake := heapSelect_take hk x (fun y hy => ih y hy (by omega)) hsel₀
      have hsub : (noWorse score v x).take k ⊆ heap₀ := fun i hi => ((htake i).mpr hi).1
      have hnodup : ((noWorse score v x).take k).Nodup := (noWorse_sorted.imp Nat.ne_of_lt).sublist (List.take_sublist ..)
      have hlen₀ : ((noWorse score v x).take k).length = k := by
        rw [List.length_take]
        omega
      have hle₀ : heap₀.length ≤ k := by
        rw [hinv₀.length]
        exact Nat.min_le_left ..
      have hall : ∀ i, i ∈ heap₀ → i ∈ (noWorse score v x).take k := by
        have hperm := (List.subperm_of_subset hnodup hsub).perm_of_length_le (by omega)
        exact fun i hi => hperm.mem_iff.mpr hi
      have hfew : ∀ l : List Nat, l.Nodup → l.length = k → (∀ i, i ∈ l → i < n) → ∃ i, i ∈ l ∧ score i ≤ v := by
        intro l hl hlk hvalid
        by_contra hnone
        have hmem : l ⊆ (List.range n).filter fun i => decide (v < score i) := by
          intro i hi
          rw [List.mem_filter, List.mem_range, decide_eq_true_eq]
          exact ⟨hvalid i hi, not_le.mp fun hle => hnone ⟨i, hi, hle⟩⟩
        have hle := (List.subperm_of_subset hl hmem).length_le
        have hbetter := hkth.better
        rw [List.countP_eq_length_filter] at hbetter
        omega
      obtain ⟨heap₁, hstep, -, hcase⟩ := hinv₀.step hk
      have hsel₁ : heapSelect score k (x + 1) = some heap₁ := by
        rw [heapSelect_succ, hsel₀]
        exact hstep
      have hfull : k ≤ heap₀.length := by
        rw [← hlen₀]
        exact (List.subperm_of_subset hnodup hsub).length_le
      obtain ⟨w, hw, hwv⟩ := hfew heap₀ hinv₀.nodup (by omega) fun i hi => (hinv₀.valid i hi).trans hx
      cases hcase with
      | push place mem => omega
      | skip top full mem_top weakest worse same =>
        have hle := worse.trans ((weakest w hw).le.trans hwv)
        exact not_lt.mpr hle hvx
      | replace top full mem_top weakest better mem =>
        have htop := hall top mem_top
        obtain ⟨htopx, hvtop⟩ := mem_noWorse.mp (List.mem_of_mem_take htop)
        have hgone : top ∉ heap' := by
          refine heapSelect_gone hk (Nat.lt_succ_of_lt htopx) ?_ hx heap' hsel
          intro heap hsel' hmem
          obtain rfl : heap = heap₁ := Option.some.inj (hsel'.symm.trans hsel₁)
          rcases (mem top).mp hmem with e | ⟨-, e⟩
          · omega
          · exact e rfl
        obtain ⟨i, hi, hiv⟩ := hfew heap' hinv.nodup hlen hinv.valid
        rcases hfirst.first i (List.mem_toFinset.mpr hi) top (htopx.trans hx) (fun e => hgone (List.mem_toFinset.mp e)) with
          hlt | ⟨heq, hlt⟩
        · exact not_lt.mpr hiv (hvtop.trans_lt hlt)
        · have hmem := mem_take_of_lt noWorse_sorted (mem_noWorse.mpr ⟨hlt.trans htopx, heq ▸ hvtop⟩) htop hlt
          rcases weakest i (hsub hmem) with hw | ⟨-, hle⟩
          · exact lt_irrefl _ (heq ▸ hw)
          · omega
  · intro hset
    cases heap' with
    | nil =>
      rw [List.length_nil] at hlen
      omega
    | cons top rest =>
      have hweakest : ∀ i, i ∈ top :: rest → Weaker score top i := by
        intro i hi
        rcases List.mem_cons.mp hi with rfl | hi
        · exact .inr ⟨rfl, Nat.le_refl _⟩
        · exact (List.pairwise_cons.mp hinv.sorted).1 i hi
      have hkth := hinv.isKth hkn List.mem_cons_self hweakest
      have htake := heapSelect_take hk n (hset _ hkth) hsel
      refine ⟨hinv.isTop.valid, hinv.isTop.card, fun i hi j hj hnot => ?_⟩
      have hi' := List.mem_toFinset.mp hi
      have hnot' : j ∉ top :: rest := fun e => hnot (List.mem_toFinset.mpr e)
      have hvi := (hweakest i hi').le
      have htakei := (htake i).mp ⟨hi', hvi⟩
      by_cases hvj : score top ≤ score j
      · -- the item that is left out is as good as the weakest one, and comes later
        have hle : score j ≤ score top := by
          by_contra hlt
          exact hnot' ((htake j).mpr (mem_take_noWorse hj hvj (hset _ hkth j hj (not_le.mp hlt)))).1
        rcases lt_or_eq_of_le hvi with hlt | heq
        · exact .inl (hle.trans_lt hlt)
        · refine .inr ⟨heq.symm.trans (le_antisymm hvj hle), ?_⟩
          by_contra hge
          have hji : j < i := by
            refine Nat.lt_of_le_of_ne (not_lt.mp hge) fun e => hnot' (e ▸ hi')
          exact hnot' ((htake j).mpr (mem_take_of_lt noWorse_sorted (mem_noWorse.mpr ⟨hj, hvj⟩) htakei hji)).1
      · exact .inl ((not_le.mp hvj).trans_le hvi)

/-- Of the items that are no worse than `v`, one at most is not better, where no two have the same score. -/
theorem countP_noWorse_le (hne : ∀ i j, i < n → j < n → score i = score j → i = j) (v : α) (m : Nat) (hm : m ≤ n) :
    (List.range m).countP (fun i => decide (v ≤ score i)) ≤ (List.range m).countP (fun i => decide (v < score i)) + 1 ∧
      ((∀ i, i < m → score i ≠ v) →
        (List.range m).countP (fun i => decide (v ≤ score i)) = (List.range m).countP fun i => decide (v < score i)) := by
  induction m with
  | zero => exact ⟨Nat.zero_le _, fun _ => rfl⟩
  | succ m ih =>
    obtain ⟨hle, heq⟩ := ih (by omega)
    simp only [List.range_succ, List.countP_append, List.countP_singleton, decide_eq_true_eq]
    rcases lt_trichotomy v (score m) with hlt | hv | hgt
    · rw [if_pos hlt.le, if_pos hlt]
      exact ⟨by omega, fun hno => by rw [heq fun i hi => hno i (by omega)]⟩
    · -- no other item has this score
      have hno : ∀ i, i < m → score i ≠ v := fun i hi e => by
        have := hne i m (by omega) (by omega) (e.trans hv)
        omega
      rw [if_pos hv.le, if_neg (by rw [hv]; exact lt_irrefl _)]
      exact ⟨by rw [heq hno], fun hno' => absurd hv.symm (hno' m (Nat.lt_succ_self m))⟩
    · rw [if_neg (not_le.mpr hgt), if_neg (lt_asymm hgt)]
      exact ⟨hle, fun hno => heq fun i hi => hno i (by omega)⟩

/-- Where no two items have the same score, they are settled. -/
theorem settled_of_distinct (hne : ∀ i j, i < n → j < n → score i = score j → i = j) : Settled score n k := by
  intro v hv x hx hlt
  have hle := (countP_noWorse_le hne v x hx.le).1
  have hsucc : (List.range (x + 1)).countP (fun i => decide (v < score i)) =
      (List.range x).countP (fun i => decide (v < score i)) + 1 := by
    rw [List.range_succ, List.countP_append, List.countP_singleton, if_pos (decide_eq_true hlt)]
  have hsub : (List.range (x + 1)).countP (fun i => decide (v < score i)) ≤ (List.range n).countP fun i => decide (v < score i) :=
    (List.range_sublist.mpr hx).countP_le
  have hbetter := hv.better
  unfold noWorse
  rw [← List.countP_eq_length_filter]
  omega

end UnifiedCache.Base
