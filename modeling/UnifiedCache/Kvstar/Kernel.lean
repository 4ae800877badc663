/-
  UnifiedCache.Kvstar.Kernel — the kernels that choose the blocks of a retrieval task
  (ucm/sparse/kvstar/retrieve/core/domain/retrieve_task/simd_compute_kernel.cpp: `execute_impl` of the
  vector kernels and of the scalar one).

  A kernel checks the shapes, computes a score for each block, and chooses `topK` blocks: the vector
  kernels by `nth_element`, the scalar one with a heap. The scores are values of any linear order; what
  they are computed from is left out, and the sizes of a shape are not negative.

  Both choose best blocks, and the same ones, for the tasks that are `Served` and no others
  (`kernelsRight_iff`): the vector kernels read past the blocks where `topK` is larger than their
  number, neither can choose none, and where blocks that are as good as the last one chosen are met
  before a better one, the heap gives up the first of them and `nth_element` keeps it.
-/

import Mathlib.Algebra.Ring.Int.Defs
import UnifiedCache.Base.Selection

namespace UnifiedCache.Kvstar

open UnifiedCache.Base

structure RetrieveTask (α : Type) where
  /-- `(x, H, d)`. -/
  queryShape : List Nat
  /-- `(n, M, h, d)`. -/
  blkRepreShape : List Nat
  dPrunedIndexShape : Option (List Nat)
  topK : Int32
  /-- The score of a block. -/
  score : Nat → α

/-- How a computation ends. -/
inductive Computed where
  | threw (what : String)
  /-- The behaviour is undefined. -/
  | undefined
  | topkIndices (l : List Nat)
  deriving DecidableEq

/-- Which kernel is built in. -/
inductive Kernel where
  | vector
  | scalar
  deriving DecidableEq

variable {α : Type} [LinearOrder α]

/-- `execute_impl`, up to the choice of the blocks. -/
def executeImpl (task : RetrieveTask α) (select : Nat → Computed) : Computed :=
  match task.queryShape with
  | [_, numQHeads, dOrig] =>
    match task.blkRepreShape with
    | [numBlocks, _, numKvHeads, dPruned] =>
      -- the remainder by zero
      if numKvHeads = 0 then .undefined
      else if numQHeads % numKvHeads ≠ 0 then .threw "Num_q_heads must be a divisible by num_kv_heads."
      else
        match task.dPrunedIndexShape with
        | some prunedSpec =>
          if prunedSpec ≠ [numKvHeads, dPruned] then .threw "dPrunedIndex shape is inconsistent with K's shape."
            else select numBlocks
        | none =>
          if dOrig ≠ dPruned then .threw "Dimension mismatch: No dPrunedIndex, but Q and K head dims differ."
            else select numBlocks
    | _ => .threw "BlockRep shape must be 4D (n, M, h, d)."
  | _ => .threw "Query shape must be 3D (x, H, d)."

/-- The first `topK` of the blocks, in the order that `nth_element` has left. -/
def vectorSelect (task : RetrieveTask α) (order : List Nat) (numBlocks : Nat) : Computed :=
  if 1 ≤ task.topK.toInt ∧ task.topK.toInt ≤ numBlocks then .topkIndices (order.take task.topK.toInt.toNat) else .undefined

/-- The heap, the best block first; `topK` is compared as an unsigned number. -/
def scalarSelect (task : RetrieveTask α) (numBlocks : Nat) : Computed :=
  match heapSelect task.score (task.topK.toInt % 2 ^ 64).toNat numBlocks with
  | some heap => .topkIndices heap.reverse
  | none => .undefined

def execute (kernel : Kernel) (task : RetrieveTask α) (order : List Nat) : Computed :=
  match kernel with
  | .vector => executeImpl task (vectorSelect task order)
  | .scalar => executeImpl task (scalarSelect task)

/-- `nth_element` can leave the blocks in this order. -/
def LeftBy (task : RetrieveTask α) (order : List Nat) : Prop :=
  NthElement (Before task.score) (List.range (task.blkRepreShape.headD 0)) order (task.topK.toInt - 1).toNat

instance (task : RetrieveTask α) (order : List Nat) : Decidable (LeftBy task order) :=
  inferInstanceAs (Decidable (NthElement _ _ _ _))

/-! ## What the kernels choose -/

/-- The kernels accept the shapes. -/
def Accepted (task : RetrieveTask α) : Prop := ∀ select, executeImpl task select = select (task.blkRepreShape.headD 0)

/-- `topK` is not larger than the number of blocks, and no better block comes after ties. -/
structure Served (task : RetrieveTask α) : Prop where
  accepted : Accepted task
  pos : 1 ≤ task.topK.toInt
  le : task.topK.toInt ≤ task.blkRepreShape.headD 0
  settled : Settled task.score (task.blkRepreShape.headD 0) task.topK.toInt.toNat

/-- Blocks that are chosen right. -/
structure Chosen (task : RetrieveTask α) (l : List Nat) : Prop where
  nodup : l.Nodup
  top : IsTop task.score (task.blkRepreShape.headD 0) task.topK.toInt.toNat l.toFinset

/-- Both kernels choose right, and the same blocks. -/
def KernelsRight (task : RetrieveTask α) : Prop :=
  ∀ order, LeftBy task order → ∃ l l', execute .vector task order = .topkIndices l ∧
  execute .scalar task order = .topkIndices l' ∧
    Chosen task l ∧ Chosen task l' ∧ l.toFinset = l'.toFinset

variable {task : RetrieveTask α} {order : List Nat}

omit [LinearOrder α] in
/-- The shapes alone decide whether a kernel comes to the choice. -/
theorem executeImpl_cases (task : RetrieveTask α) :
    Accepted task ∨ (∀ select, executeImpl task select = .undefined) ∨ ∃ what, ∀ select,
    executeImpl task select = .threw what := by
  unfold Accepted executeImpl
  split
  · split
    · next hk =>
      split
      · exact .inr (.inl fun _ => rfl)
      · split
        · exact .inr (.inr ⟨_, fun _ => rfl⟩)
        · split
          · split
            · exact .inr (.inr ⟨_, fun _ => rfl⟩)
            · refine .inl fun select => ?_
              rw [hk]
              rfl
          · split
            · exact .inr (.inr ⟨_, fun _ => rfl⟩)
            · refine .inl fun select => ?_
              rw [hk]
              rfl
    · exact .inr (.inr ⟨_, fun _ => rfl⟩)
  · exact .inr (.inr ⟨_, fun _ => rfl⟩)

omit [LinearOrder α] in
theorem accepted_of_indices {select : Nat → Computed} {l : List Nat} (h : executeImpl task select = .topkIndices l) :
    Accepted task := by
  rcases executeImpl_cases task with hacc | hundef | ⟨what, hthrew⟩
  · exact hacc
  · rw [hundef] at h
    cases h
  · rw [hthrew] at h
    cases h

omit [LinearOrder α] in
theorem unsigned_topK (h : 1 ≤ task.topK.toInt) : (task.topK.toInt % 2 ^ 64).toNat = task.topK.toInt.toNat := by
  have hlt := task.topK.toInt_lt
  rw [Int.emod_eq_of_lt (by omega) (by omega)]

/-- Where `topK` is in range, `nth_element` leaves the first best blocks in front. -/
theorem vector_isFirst (hpos : 1 ≤ task.topK.toInt) (hle : task.topK.toInt ≤ task.blkRepreShape.headD 0) (h : LeftBy task order) :
    (order.take task.topK.toInt.toNat).Nodup ∧
      IsFirst task.score (task.blkRepreShape.headD 0) task.topK.toInt.toNat (order.take task.topK.toInt.toNat).toFinset := by
  unfold LeftBy at h
  rw [show (task.topK.toInt - 1).toNat = task.topK.toInt.toNat - 1 by omega] at h
  exact h.isFirst (by omega) (by omega)

theorem kernelsRight_iff (task : RetrieveTask α) : KernelsRight task ↔ Served task := by
  constructor
  · intro h
    obtain ⟨order, horder⟩ := exists_nthElement task.score (task.blkRepreShape.headD 0) (task.topK.toInt - 1).toNat
    obtain ⟨l, l', hl, hl', -, -, heq⟩ := h order horder
    have hacc : Accepted task := accepted_of_indices hl
    have hl : vectorSelect task order (task.blkRepreShape.headD 0) = .topkIndices l := (hacc _).symm.trans hl
    have hl' : scalarSelect task (task.blkRepreShape.headD 0) = .topkIndices l' := (hacc _).symm.trans hl'
    unfold vectorSelect at hl
    split at hl
    · next hin =>
      obtain rfl := Computed.topkIndices.inj hl
      have hfirst := (vector_isFirst hin.1 hin.2 horder).2
      unfold scalarSelect at hl'
      rw [unsigned_topK hin.1] at hl'
      cases hheap : heapSelect task.score task.topK.toInt.toNat (task.blkRepreShape.headD 0) with
      | none =>
        rw [hheap] at hl'
        cases hl'
      | some heap =>
        rw [hheap] at hl'
        obtain rfl := Computed.topkIndices.inj hl'
        rw [List.toFinset_reverse] at heq
        exact ⟨hacc, hin.1, hin.2, (heapSelect_isFirst_iff (by omega) (by omega) hheap).mp (heq ▸ hfirst)⟩
    · cases hl
  · intro h order horder
    obtain ⟨hnodup, hfirst⟩ := vector_isFirst h.pos h.le horder
    obtain ⟨heap, hheap, hinv⟩ := heapSelect_inv task.score (k := task.topK.toInt.toNat) (by have := h.pos; omega)
        (task.blkRepreShape.headD 0)
    have hscalar := (heapSelect_isFirst_iff (by have := h.pos; omega) (by have := h.le; omega) hheap).mpr h.settled
    refine ⟨order.take task.topK.toInt.toNat, heap.reverse, ?_, ?_, ⟨hnodup, hfirst.isTop⟩,
      ⟨List.nodup_reverse.mpr hinv.nodup, ?_⟩, ?_⟩
    · exact (h.accepted _).trans (if_pos ⟨h.pos, h.le⟩)
    · refine (h.accepted _).trans ?_
      unfold scalarSelect
      rw [unsigned_topK h.pos, hheap]
    · rw [List.toFinset_reverse]
      exact hscalar.isTop
    · rw [List.toFinset_reverse]
      exact hfirst.unique hscalar

end UnifiedCache.Kvstar
