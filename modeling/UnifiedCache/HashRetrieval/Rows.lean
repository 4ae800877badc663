/-
  UnifiedCache.HashRetrieval.Rows — the rows of a request, and the arrays they are packed into
  (hash_retrieval_backend.cpp: `worker_loop` after a request is taken, and `get_result`).

  For each query the allowed blocks are scored, partly sorted by their scores, and the first
  `min(topk, allowed)` kept. `get_result` packs the rows into arrays that are as wide as the first row: it
  reads past a row that is shorter, and cuts one that is longer.

  So the rows of a request come out right, whatever `partial_sort` does with ties, just where it `Fits`
  (`served_iff`): all rows keep equally many blocks; and in each row there are as many blocks as are kept
  with less than `UINT16_MAX`, or no block has more than that. A table knows its size, and a request the
  size of its query.
-/

import Mathlib.Data.List.Count
import UnifiedCache.Base.Lists
import UnifiedCache.Base.Selection
import UnifiedCache.HashRetrieval.Distance

namespace UnifiedCache.HashRetrieval

open UnifiedCache.Base

/-- The table of keys, a C-contiguous array. -/
structure KeyTable where
  numBlocks : Nat
  blockSize : Nat
  dim : Nat
  data : List UInt8
  size : data.length = numBlocks * blockSize * dim

/-- The keys from `data_ + idx * block_size_ * dim_` on; a number that is not in range is not in the table. -/
def KeyTable.block (T : KeyTable) (idx : Int) : Option (List (List UInt8)) :=
  if 0 ≤ idx ∧ idx < T.numBlocks then
    some ((List.range T.blockSize).map fun t => (T.data.drop ((idx.toNat * T.blockSize + t) * T.dim)).take T.dim)
  else none

structure Request (dim : Nat) where
  reqId : Int32
  /-- Flattened. -/
  query : List UInt8
  topk : Nat
  /-- The numbers that are allowed, for each row. -/
  indexes : List (List Int)
  size : query.length = indexes.length * dim

/-- The query of each row, and what is allowed for it. -/
def Request.rows {dim : Nat} (req : Request dim) : List (List UInt8 × List Int) :=
  req.indexes.zipIdx.map fun row => ((req.query.drop (row.2 * dim)).take dim, row.1)

structure Result where
  indices : List (List Int)
  scores : List (List Nat)
  deriving DecidableEq

/-- The first `curr_topk` entries of a heap. -/
def kept (topk : Nat) (order : List (Nat × Int)) : List (Nat × Int) := order.take (min order.length topk)

section Worker

variable (arch : Arch) (T : KeyTable)

/-- The blocks that are allowed, with their scores. -/
def rowHeap (row : List UInt8 × List Int) : Option (List (Nat × Int)) :=
  row.2.mapM fun idx => (T.block idx).bind fun keys => (blockScore arch T.dim row.1 uint16Max keys).map fun score => (score, idx)

/-- `std::partial_sort` can leave the heap in this order; its length fits `int`. -/
def SortedBy (topk : Nat) (heap order : List (Nat × Int)) : Prop :=
  PartialSort (fun a b => a.1 < b.1) heap order (min heap.length topk)

/-- The rows of a request, in the orders that `partial_sort` has left. -/
def rowsResult (topk : Nat) (orders : List (List (Nat × Int))) : Result :=
  ⟨orders.map fun order => (kept topk order).map (·.2), orders.map fun order => (kept topk order).map (·.1)⟩

/-- The heap of a row can be left in this order. -/
def RowOrder (topk : Nat) (row : List UInt8 × List Int) (order : List (Nat × Int)) : Prop :=
  ∃ heap, heap ∈ rowHeap arch T row ∧ SortedBy topk heap order

instance (topk : Nat) (heap order : List (Nat × Int)) : Decidable (SortedBy topk heap order) :=
  inferInstanceAs (Decidable (PartialSort (fun a b : Nat × Int => a.1 < b.1) heap order (min heap.length topk)))

instance (topk : Nat) (row : List UInt8 × List Int) (order : List (Nat × Int)) : Decidable (RowOrder arch T topk row order) :=
  inferInstanceAs (Decidable (∃ heap, heap ∈ rowHeap arch T row ∧ SortedBy topk heap order))

/-- What the worker can make of a request. -/
def Computes (req : Request T.dim) (res : Result) : Prop :=
  ∃ orders, List.Forall₂ (RowOrder arch T req.topk) req.rows orders ∧ res = rowsResult req.topk orders

end Worker

/-- `memcpy` of `topk` entries from each row. -/
def packRows {β : Type} (topk : Nat) (rows : List (List β)) : Option (List (List β)) :=
  if ∀ row, row ∈ rows → topk ≤ row.length then some (rows.map fun row => row.take topk) else none

/-- `get_result`, where the first row gives the width. -/
def pack (res : Result) : Option Result :=
  let topk := (res.indices.headD []).length
  (packRows topk res.indices).bind fun indices => (packRows topk res.scores).map fun scores => ⟨indices, scores⟩

/-! ## What is right -/

section Right

variable (T : KeyTable)

/-- The least distance to a key of the block. -/
def leastOf (q : List UInt8) (idx : Int) : WithTop Nat := leastDistance q ((T.block idx).getD [])

/-- A row: the best blocks, in order, with their distances. -/
structure RightRow (q : List UInt8) (allowed : List Int) (topk : Nat) (indices : List Int) (scores : List Nat) : Prop where
  length : indices.length = min topk allowed.length
  scores : scores.map (fun score : Nat => (score : WithTop Nat)) = indices.map (leastOf T q)
  sorted : (indices.map (leastOf T q)).Pairwise (· ≤ ·)
  best : ∃ rest, (indices ++ rest).Perm allowed ∧ ∀ x, x ∈ indices → ∀ y, y ∈ rest → leastOf T q x ≤ leastOf T q y

structure RightRows {dim : Nat} (req : Request dim) (res : Result) : Prop where
  indices : res.indices.length = req.rows.length
  scores : res.scores.length = req.rows.length
  row : ∀ (b : Nat) q allowed, req.rows[b]? = some (q, allowed) →
      RightRow T q allowed req.topk (res.indices[b]?.getD []) (res.scores[b]?.getD [])

/-- The entries of the index matrix are in range, up to the padding. -/
def InRange {dim : Nat} (req : Request dim) : Prop := ∀ q allowed, (q, allowed) ∈ req.rows → ∀ idx, idx ∈ allowed → 0 ≤ idx ∧
    idx < T.numBlocks

/-- Enough blocks have less than `UINT16_MAX`, or none has more. -/
def Unsaturated (row : List UInt8 × List Int) (topk : Nat) : Prop :=
  min topk row.2.length ≤ row.2.countP (fun idx => decide (leastOf T row.1 idx < uint16Max)) ∨ ∀ idx, idx ∈ row.2 →
  leastOf T row.1 idx ≤ uint16Max

structure Fits {dim : Nat} (req : Request dim) : Prop where
  level : ∀ row row', row ∈ req.rows → row' ∈ req.rows → min req.topk row.2.length = min req.topk row'.2.length
  counted : ∀ row, row ∈ req.rows → ∀ idx, idx ∈ row.2 → Counted row.1 ((T.block idx).getD [])
  unsaturated : ∀ row, row ∈ req.rows → Unsaturated T row req.topk

/-- The rows are computed and packed, and right, whatever the orders are. -/
def Served (arch : Arch) (req : Request T.dim) : Prop :=
  (req.rows.mapM (rowHeap arch T)).isSome ∧ ∀ res, Computes arch T req res → ∃ out, pack res = some out ∧ RightRows T req out

end Right

/-! ## The heap of a row -/

section Rows

variable {arch : Arch} {T : KeyTable} {q : List UInt8} {allowed : List Int} {heap order : List (Nat × Int)} {topk : Nat}

theorem KeyTable.length_key {idx : Int} {keys : List (List UInt8)} (h : T.block idx = some keys) : ∀ k, k ∈ keys →
    k.length = T.dim := by
  intro k hk
  unfold KeyTable.block at h
  split at h
  · next hin =>
    obtain rfl := Option.some.inj h
    obtain ⟨t, ht, rfl⟩ := List.mem_map.mp hk
    have ht := List.mem_range.mp ht
    -- the key ends before the table does
    have hend : (idx.toNat * T.blockSize + t) * T.dim + T.dim ≤ T.data.length := by
      have hidx : idx.toNat + 1 ≤ T.numBlocks := by omega
      calc (idx.toNat * T.blockSize + t) * T.dim + T.dim = (idx.toNat * T.blockSize + (t + 1)) * T.dim := (Nat.succ_mul _ _).symm
        _ ≤ (idx.toNat * T.blockSize + T.blockSize) * T.dim := Nat.mul_le_mul_right _ (by omega)
        _ = (idx.toNat + 1) * T.blockSize * T.dim := by rw [Nat.succ_mul]
        _ ≤ T.numBlocks * T.blockSize * T.dim := Nat.mul_le_mul_right _ (Nat.mul_le_mul_right _ hidx)
        _ = T.data.length := T.size.symm
    rw [List.length_take, List.length_drop]
    omega
  · cases h

theorem Request.length_query {dim : Nat} (req : Request dim) (h : (q, allowed) ∈ req.rows) : q.length = dim := by
  obtain ⟨⟨row, b⟩, hrow, he⟩ := List.mem_map.mp h
  obtain ⟨rfl, rfl⟩ := Prod.mk.inj he
  have hb : b < req.indexes.length := by
    have := List.snd_lt_add_of_mem_zipIdx hrow
    omega
  have hend : b * dim + dim ≤ req.query.length := by
    rw [req.size, ← Nat.succ_mul]
    exact Nat.mul_le_mul_right _ hb
  dsimp only
  rw [List.length_take, List.length_drop]
  omega

/-- The heap has an entry for each block that is allowed. -/
theorem rowHeap_entries (hq : q.length = T.dim) (h : rowHeap arch T (q, allowed) = some heap) :
    heap.map (·.2) = allowed ∧ ∀ e, e ∈ heap → (e.1 : WithTop Nat) = min (uint16Max : WithTop Nat) (leastOf T q e.2) := by
  have hall := mapM_some_iff.mp h
  clear h
  dsimp only at hall
  induction hall with
  | nil => exact ⟨rfl, fun e he => absurd he List.not_mem_nil⟩
  | @cons idx e allowed heap he hall ih =>
    obtain ⟨keys, hkeys, he⟩ := Option.bind_eq_some_iff.mp he
    obtain ⟨score, hscore, rfl⟩ := Option.map_eq_some_iff.mp he
    refine ⟨by rw [List.map_cons, ih.1], fun e he => ?_⟩
    rcases List.mem_cons.mp he with rfl | he
    · have hcounted := (blockScore_isSome arch hq (KeyTable.length_key hkeys)).mp (by rw [hscore]; rfl)
      obtain ⟨r, hr, hmin⟩ := blockScore_eq arch hq (KeyTable.length_key hkeys) hcounted
      obtain rfl : score = r := Option.some.inj (hscore.symm.trans hr)
      unfold leastOf
      rw [hkeys]
      exact hmin
    · exact ih.2 e he

/-- A row is computed just where no distance overflows. -/
theorem rowHeap_isSome (hq : q.length = T.dim) (hrange : ∀ idx, idx ∈ allowed → 0 ≤ idx ∧ idx < T.numBlocks) :
    (rowHeap arch T (q, allowed)).isSome ↔ ∀ idx, idx ∈ allowed → Counted q ((T.block idx).getD []) := by
  unfold rowHeap
  rw [mapM_isSome_iff]
  refine forall₂_congr fun idx hidx => ?_
  have hblock : T.block idx = some ((T.block idx).getD []) := by
    unfold KeyTable.block
    rw [if_pos (hrange idx hidx)]
    rfl
  generalize hkeys : (T.block idx).getD [] = keys at hblock
  rw [hblock, Option.bind_some, Option.isSome_map]
  exact blockScore_isSome arch hq (KeyTable.length_key hblock)

/-! ## A row that is right -/

theorem length_kept (topk : Nat) (order : List (Nat × Int)) : (kept topk order).length = min topk order.length := by
  unfold kept
  rw [List.length_take]
  omega

/-- A row is right just where the scores of the blocks it keeps are their distances. -/
theorem rightRow_iff (hq : q.length = T.dim) (hheap : rowHeap arch T (q, allowed) = some heap) (hs : SortedBy topk heap order) :
    RightRow T q allowed topk ((kept topk order).map (·.2)) ((kept topk order).map (·.1)) ↔
      ∀ e, e ∈ kept topk order → (e.1 : WithTop Nat) = leastOf T q e.2 := by
  obtain ⟨hallowed, hentries⟩ := rowHeap_entries hq hheap
  have hlen : order.length = allowed.length := by rw [hs.perm.length_eq, ← hallowed, List.length_map]
  have hcut : min heap.length topk = min order.length topk := by rw [hs.perm.length_eq]
  have hscores : (kept topk order).map (fun e => (e.1 : WithTop Nat)) = (kept topk order).map (fun e => leastOf T q e.2) ↔
      ∀ e, e ∈ kept topk order → (e.1 : WithTop Nat) = leastOf T q e.2 := List.map_inj_left
  constructor
  · intro h
    have hsame := h.scores
    rw [List.map_map, List.map_map] at hsame
    exact hscores.mp hsame
  · intro h
    have hsorted : (kept topk order).Pairwise fun x y => leastOf T q x.2 ≤ leastOf T q y.2 := by
      have hpair := hs.sorted
      rw [hcut] at hpair
      refine List.Pairwise.imp_of_mem (fun hx hy hlt => ?_) hpair
      rw [← h _ hx, ← h _ hy]
      exact_mod_cast Nat.le_of_not_lt hlt
    refine ⟨?_, ?_, ?_, (order.drop (min order.length topk)).map (·.2), ?_, ?_⟩
    · rw [List.length_map, length_kept, hlen]
    · rw [List.map_map, List.map_map]
      exact hscores.mpr h
    · rw [List.map_map]
      exact List.pairwise_map.mpr hsorted
    · unfold kept
      rw [← List.map_append, List.take_append_drop, ← hallowed]
      exact hs.perm.map _
    · intro x hx y hy
      obtain ⟨e, he, rfl⟩ := List.mem_map.mp hx
      obtain ⟨e', he', rfl⟩ := List.mem_map.mp hy
      have hle : e.1 ≤ e'.1 := by
        refine Nat.le_of_not_lt (hs.rest e ?_ e' ?_)
        · rw [hcut]
          exact he
        · rw [hcut]
          exact he'
      have hmem : e' ∈ heap := hs.perm.mem_iff.mp (List.mem_of_mem_drop he')
      calc leastOf T q e.2 = (e.1 : WithTop Nat) := (h e he).symm
        _ ≤ (e'.1 : WithTop Nat) := by exact_mod_cast hle
        _ = min (uint16Max : WithTop Nat) (leastOf T q e'.2) := hentries e' hmem
        _ ≤ leastOf T q e'.2 := min_le_right _ _

/-- The scores below `UINT16_MAX` are the distances below it. -/
theorem countP_below (hq : q.length = T.dim) (hheap : rowHeap arch T (q, allowed) = some heap) :
    heap.countP (fun e => decide (e.1 < uint16Max)) = allowed.countP (fun idx => decide (leastOf T q idx < uint16Max)) := by
  obtain ⟨hallowed, hentries⟩ := rowHeap_entries hq hheap
  rw [← hallowed, List.countP_map]
  refine List.countP_congr fun e he => ?_
  have hmin := hentries e he
  rw [decide_eq_true_iff, Function.comp_apply, decide_eq_true_iff]
  constructor
  · intro hlt
    have hlt' : (e.1 : WithTop Nat) < (uint16Max : WithTop Nat) := by exact_mod_cast hlt
    rw [hmin] at hlt'
    exact (min_lt_iff.mp hlt').resolve_left (lt_irrefl _)
  · intro hlt
    rw [min_eq_right (le_of_lt hlt)] at hmin
    rw [← hmin] at hlt
    exact_mod_cast hlt

/-- Where no score that is kept is saturated, the scores are the distances. -/
theorem Unsaturated.kept_scores (hu : Unsaturated T (q, allowed) topk) (hq : q.length = T.dim)
    (hheap : rowHeap arch T (q, allowed) = some heap)
    (hs : SortedBy topk heap order) : ∀ e, e ∈ kept topk order → (e.1 : WithTop Nat) = leastOf T q e.2 := by
  obtain ⟨hallowed, hentries⟩ := rowHeap_entries hq hheap
  intro e he
  have hmem : e ∈ heap := hs.perm.mem_iff.mp (List.mem_of_mem_take he)
  have hmin := hentries e hmem
  rcases hu with hcount | hle
  · -- a block that is kept has less than the bound: those that have less are not left out
    have hlt : e.1 < uint16Max := by
      by_contra hge
      have hcut : min heap.length topk = min order.length topk := by rw [hs.perm.length_eq]
      have hrest : (order.drop (min order.length topk)).countP (fun e => decide (e.1 < uint16Max)) = 0 := by
        refine List.countP_eq_zero.mpr fun x hx hlt => ?_
        have hnot := hs.rest e (hcut ▸ he) x (hcut ▸ hx)
        have hlt := of_decide_eq_true hlt
        omega
      have hfront : (kept topk order).countP (fun e => decide (e.1 < uint16Max)) < (kept topk order).length :=
        List.countP_lt_length_iff.mpr ⟨e, he, decide_eq_false hge⟩
      have hsplit := hs.perm.countP_eq (fun e => decide (e.1 < uint16Max))
      rw [← List.take_append_drop (min order.length topk) order, List.countP_append, hrest, countP_below hq hheap] at hsplit
      rw [length_kept, hs.perm.length_eq, ← List.length_map (fun e : Nat × Int => e.2), hallowed] at hfront
      have hfront : (order.take (min order.length topk)).countP (fun e => decide (e.1 < uint16Max)) <
          min topk allowed.length := hfront
      have hcount : min topk allowed.length ≤ allowed.countP (fun idx => decide (leastOf T q idx < uint16Max)) := hcount
      omega
    have hlt : (e.1 : WithTop Nat) < (uint16Max : WithTop Nat) := by exact_mod_cast hlt
    rw [hmin] at hlt
    rw [hmin]
    exact min_eq_right (le_of_lt ((min_lt_iff.mp hlt).resolve_left (lt_irrefl _)))
  · rw [hmin]
    refine min_eq_right (hle e.2 ?_)
    rw [← hallowed]
    exact List.mem_map_of_mem hmem

/-- Otherwise `partial_sort` can keep a block that has more than its score. -/
theorem exists_untrue (hu : ¬ Unsaturated T (q, allowed) topk) (hq : q.length = T.dim)
    (hheap : rowHeap arch T (q, allowed) = some heap) :
    ∃ order, SortedBy topk heap order ∧ ∃ e, e ∈ kept topk order ∧ (e.1 : WithTop Nat) ≠ leastOf T q e.2 := by
  obtain ⟨hallowed, hentries⟩ := rowHeap_entries hq hheap
  obtain ⟨hcount, hmore⟩ := not_or.mp hu
  have hcount := Nat.lt_of_not_le hcount
  obtain ⟨idx, hmore⟩ := not_forall.mp hmore
  obtain ⟨hidx, hmore⟩ := Classical.not_imp.mp hmore
  have hlt := lt_of_not_ge hmore
  have hidx : idx ∈ heap.map (·.2) := by
    rw [hallowed]
    exact hidx
  obtain ⟨e, he, rfl⟩ := List.mem_map.mp hidx
  have hmin := hentries e he
  rw [min_eq_left (le_of_lt hlt)] at hmin
  have hmax : e.1 = uint16Max := by exact_mod_cast hmin
  have hlen : heap.length = allowed.length := by rw [← hallowed, List.length_map]
  obtain ⟨order, hs, hfront⟩ := exists_partialSort_front (fun x : Nat × Int => x.1) he (n := min heap.length topk) (by
    rw [hmax, countP_below hq hheap, hlen, Nat.min_comm]
    exact hcount)
  refine ⟨order, hs, e, ?_, ?_⟩
  · unfold kept
    rw [hs.perm.length_eq]
    exact hfront
  · rw [hmax]
    exact ne_of_lt hlt

/-! ## Packing -/

variable {topk : Nat} {orders : List (List (Nat × Int))} {req : Request T.dim}

theorem packRows_eq {β : Type} {w : Nat} {rows : List (List β)} (h : ∀ row, row ∈ rows → row.length = w) :
    packRows w rows = some rows := by
  unfold packRows
  rw [if_pos fun row hrow => (h row hrow).ge]
  refine congrArg some ?_
  conv_rhs => rw [← List.map_id rows]
  exact List.map_congr_left fun row hrow => List.take_of_length_le (h row hrow).le

theorem packRows_width {β : Type} {w : Nat} {rows rows' : List (List β)} (h : packRows w rows = some rows') : ∀ row,
    row ∈ rows' → row.length = w := by
  intro row hrow
  unfold packRows at h
  split at h
  · next hle =>
    obtain rfl := Option.some.inj h
    obtain ⟨row', hrow', rfl⟩ := List.mem_map.mp hrow
    rw [List.length_take, Nat.min_eq_left (hle row' hrow')]
  · cases h

/-- Rows that are equally long are packed as they are. -/
theorem pack_level (h : ∀ order order', order ∈ orders → order' ∈ orders → (kept topk order).length = (kept topk order').length) :
    pack (rowsResult topk orders) = some (rowsResult topk orders) := by
  have hwidth : ∀ order, order ∈ orders → (kept topk order).length = ((rowsResult topk orders).indices.headD []).length := by
    intro order horder
    cases orders with
    | nil => exact absurd horder List.not_mem_nil
    | cons first rest =>
      refine (h order first horder List.mem_cons_self).trans ?_
      exact (List.length_map _).symm
  simp only [pack]
  rw [packRows_eq, packRows_eq]
  · rfl
  · intro row hrow
    obtain ⟨order, horder, rfl⟩ := List.mem_map.mp hrow
    rw [List.length_map]
    exact hwidth order horder
  · intro row hrow
    obtain ⟨order, horder, rfl⟩ := List.mem_map.mp hrow
    rw [List.length_map]
    exact hwidth order horder

theorem pack_width {res out : Result} (h : pack res = some out) : ∀ row, row ∈ out.indices →
    row.length = (res.indices.headD []).length := by
  obtain ⟨indices, hindices, h⟩ := Option.bind_eq_some_iff.mp h
  obtain ⟨scores, -, rfl⟩ := Option.map_eq_some_iff.mp h
  exact packRows_width hindices

theorem RowOrder.length {row : List UInt8 × List Int} (h : RowOrder arch T topk row order) : order.length = row.2.length := by
  obtain ⟨heap, hheap, hs⟩ := h
  rw [hs.perm.length_eq, ← (mapM_some_iff.mp hheap).length_eq]

/-- The rows of a request that fits are packed as they are. -/
theorem pack_rows (hlevel : ∀ row row', row ∈ req.rows → row' ∈ req.rows → min req.topk row.2.length = min req.topk row'.2.length)
    (horders : List.Forall₂ (RowOrder arch T req.topk) req.rows orders) :
    pack (rowsResult req.topk orders) = some (rowsResult req.topk orders) := by
  have hback : ∀ order, order ∈ orders → ∃ row, row ∈ req.rows ∧ RowOrder arch T req.topk row order := by
    intro order horder
    obtain ⟨b, hb⟩ := List.mem_iff_getElem?.mp horder
    obtain ⟨row, hrow, hr⟩ := forall₂_at (R := fun order row => RowOrder arch T req.topk row order) (List.Forall₂.flip horders) hb
    exact ⟨row, List.mem_of_getElem? hrow, hr⟩
  apply pack_level
  intro order order' h h'
  obtain ⟨row, hrow, hr⟩ := hback order h
  obtain ⟨row', hrow', hr'⟩ := hback order' h'
  rw [length_kept, length_kept, hr.length, hr'.length]
  exact hlevel row row' hrow hrow'

theorem rowsResult_at {b : Nat} {order : List (Nat × Int)} (h : orders[b]? = some order) :
    (rowsResult topk orders).indices[b]?.getD [] = (kept topk order).map (·.2) ∧
      (rowsResult topk orders).scores[b]?.getD [] = (kept topk order).map (·.1) := by
  unfold rowsResult
  simp only [List.getElem?_map, h, Option.map_some, Option.getD_some, and_self]

theorem Fits.rightRows (h : Fits T req) (horders : List.Forall₂ (RowOrder arch T req.topk) req.rows orders) :
    RightRows T req (rowsResult req.topk orders) := by
  refine ⟨?_, ?_, fun b q allowed hrow => ?_⟩
  · exact (List.length_map _).trans horders.length_eq.symm
  · exact (List.length_map _).trans horders.length_eq.symm
  · obtain ⟨order, horder, heap, hheap, hs⟩ := forall₂_at horders hrow
    have hmem := List.mem_of_getElem? hrow
    have hq := req.length_query hmem
    obtain ⟨hi, hsc⟩ := rowsResult_at horder
    rw [hi, hsc]
    exact (rightRow_iff hq hheap hs).mpr ((h.unsaturated _ hmem).kept_scores hq hheap hs)

/-- The rows come out right, whatever `partial_sort` does with ties, just where the request fits. -/
theorem served_iff (arch : Arch) (hrange : InRange T req) : Served T arch req ↔ Fits T req := by
  constructor
  · intro ⟨hsome, hout⟩
    have hheaps : ∀ row, row ∈ req.rows → ∃ heap, rowHeap arch T row = some heap := fun row hrow =>
      Option.isSome_iff_exists.mp (mapM_isSome_iff.mp hsome row hrow)
    -- each row keeps a block that has more than its score, if it can
    obtain ⟨orders, horders⟩ := exists_forall₂ (l := req.rows)
      (R := fun row order => RowOrder arch T req.topk row order ∧
        (Unsaturated T row req.topk ∨ ∃ e, e ∈ kept req.topk order ∧ (e.1 : WithTop Nat) ≠ leastOf T row.1 e.2)) (by
      intro row hrow
      obtain ⟨heap, hheap⟩ := hheaps row hrow
      by_cases hu : Unsaturated T row req.topk
      · obtain ⟨order, hs⟩ := exists_partialSort (fun x : Nat × Int => x.1) heap (min heap.length req.topk)
        exact ⟨order, ⟨heap, hheap, hs⟩, .inl hu⟩
      · obtain ⟨order, hs, he⟩ := exists_untrue hu (req.length_query hrow) hheap
        exact ⟨order, ⟨heap, hheap, hs⟩, .inr he⟩)
    have horders' := horders.imp fun _ _ h => h.1
    obtain ⟨out, hpack, hright⟩ := hout _ ⟨orders, horders', rfl⟩
    have hlevel : ∀ row, row ∈ req.rows → min req.topk row.2.length = ((rowsResult req.topk orders).indices.headD []).length := by
      intro row hrow
      obtain ⟨b, hb⟩ := List.mem_iff_getElem?.mp hrow
      have hblt : b < out.indices.length := hright.indices ▸ (List.getElem?_eq_some_iff.mp hb).1
      have hlen := (hright.row b row.1 row.2 hb).length
      rw [List.getElem?_eq_getElem hblt, Option.getD_some] at hlen
      rw [← hlen]
      exact pack_width hpack _ (List.getElem_mem hblt)
    have hlevel : ∀ row row', row ∈ req.rows → row' ∈ req.rows → min req.topk row.2.length = min req.topk row'.2.length :=
      fun row row' h h' => (hlevel row h).trans (hlevel row' h').symm
    obtain rfl := Option.some.inj (hpack.symm.trans (pack_rows hlevel horders'))
    refine ⟨hlevel, fun row hrow => ?_, fun row hrow => ?_⟩
    · obtain ⟨heap, hheap⟩ := hheaps row hrow
      exact (rowHeap_isSome (req.length_query hrow) (hrange row.1 row.2 hrow)).mp (Option.isSome_iff_exists.mpr ⟨heap, hheap⟩)
    · obtain ⟨b, hb⟩ := List.mem_iff_getElem?.mp hrow
      obtain ⟨order, horder, ⟨heap, hheap, hs⟩, hu⟩ := forall₂_at horders hb
      refine hu.resolve_right fun hwrong => ?_
      obtain ⟨e, he, hne⟩ := hwrong
      have hrow := hright.row b row.1 row.2 hb
      obtain ⟨hi, hsc⟩ := rowsResult_at horder
      rw [hi, hsc] at hrow
      exact hne ((rightRow_iff (req.length_query (List.mem_of_getElem? hb)) hheap hs).mp hrow e he)
  · intro h
    refine ⟨mapM_isSome_iff.mpr fun row hrow => ?_, fun res hres => ?_⟩
    · exact (rowHeap_isSome (req.length_query hrow) (hrange row.1 row.2 hrow)).mpr (h.counted row hrow)
    · obtain ⟨orders, horders, hres⟩ := hres
      exact ⟨res, hres ▸ pack_rows h.level horders, hres ▸ h.rightRows horders⟩

end Rows

end UnifiedCache.HashRetrieval
