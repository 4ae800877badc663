/-
  UnifiedCache.Infra.TopNHeap — the heap of the best N values
  (ucm/shared/infra/template/topn_heap.h).

  `cmp_(a, b)` says that `a` is worse than `b`; the root is a worst of the values kept, and a full
  heap replaces it by a better value. The values stand still in `val_`; what is heapified are
  their indices, `idx_[0 .. size_)`.

  `Pop` drops an index and leaves the others as they are, so the live slots need not be the first
  `size_` ones. A `Push` below the capacity takes slot `size_` all the same: if that slot is
  live, its value is lost and the new one is in the heap twice.

  Places are `uint32_t`s: the children of place `2 ^ 31 - 1` wrap around. `Pop` of an empty heap
  reads outside `idx_` and is `none` here, as is a sift that does not end in as many rounds as
  there are places. Slots from `val_.size()` on are not constructed; what they read is arbitrary.
-/

import Mathlib.Algebra.Ring.Nat
import UnifiedCache.Base.BinaryHeap

namespace UnifiedCache.Infra

variable {T : Type}

structure TopNHeap (T : Type) where
  val : Nat → T
  valSize : Nat
  idx : Nat → Nat
  capacity : Nat
  size : Nat

/-! ## Sifting -/

def heapParent (i : Nat) : Nat := (i - 1) / 2

def left (i : Nat) : Nat := (2 * i + 1) % 2 ^ 32

def right (i : Nat) : Nat := (2 * i + 2) % 2 ^ 32

/-- The loop of `SiftUp`; `worse` compares the values of two slots. -/
def siftUpFrom (worse : Nat → Nat → Bool) : Nat → Nat → (Nat → Nat) → Option (Nat → Nat)
  | 0, _, _ => none
  | fuel + 1, pos, idx =>
    if pos > 0 then
      let p := heapParent pos
      if !worse (idx pos) (idx p) then some idx
      else siftUpFrom worse fuel p (idx ∘ Equiv.swap pos p)
    else some idx

/-- Which of a place and its children goes to the place. -/
def bestOf (worse : Nat → Nat → Bool) (size pos : Nat) (idx : Nat → Nat) : Nat :=
  let l := left pos
  let r := right pos
  let best := if l < size && worse (idx l) (idx pos) then l else pos
  if r < size && worse (idx r) (idx best) then r else best

/-- The loop of `SiftDown`. -/
def siftDownFrom (worse : Nat → Nat → Bool) (size : Nat) : Nat → Nat → (Nat → Nat) → Option (Nat → Nat)
  | 0, _, _ => none
  | fuel + 1, pos, idx =>
    let best := bestOf worse size pos idx
    if best = pos then some idx
    else siftDownFrom worse size fuel best (idx ∘ Equiv.swap pos best)

namespace TopNHeap

variable (cmp : T → T → Bool)

/-- A heap before its first use, over any memory. -/
def make (capacity : Nat) (memory : Nat → T) : TopNHeap T where
  val := memory
  valSize := 0
  idx := fun _ => 0
  capacity := capacity
  size := 0

def siftUp (h : TopNHeap T) (i : Nat) : Option (TopNHeap T) :=
  (siftUpFrom (fun s s' => cmp (h.val s) (h.val s')) (i + 1) i h.idx).map fun idx => { h with idx := idx }

def siftDown (h : TopNHeap T) (i : Nat) : Option (TopNHeap T) :=
  (siftDownFrom (fun s s' => cmp (h.val s) (h.val s')) h.size h.size i h.idx).map fun idx => { h with idx := idx }

/-- `val_[size_] = value`, or `emplace_back`. -/
def store (h : TopNHeap T) (value : T) : TopNHeap T :=
  if h.size < h.valSize then { h with val := Function.update h.val h.size value }
  else { h with val := Function.update h.val h.valSize value, valSize := h.valSize + 1 }

/-- `PushImpl`. -/
def push (h : TopNHeap T) (value : T) : Option (TopNHeap T) :=
  if h.capacity = 0 then some h
  else if h.size < h.capacity then
    let h := h.store value
    let h := { h with idx := Function.update h.idx h.size h.size }
    (h.siftUp cmp h.size).map fun h => { h with size := h.size + 1 }
  else if cmp (h.val (h.idx 0)) value then
    { h with val := Function.update h.val (h.idx 0) value }.siftDown cmp 0
  else some h

def pop (h : TopNHeap T) : Option (TopNHeap T) :=
  if h.size = 0 then none
  else
    let h := { h with idx := Function.update h.idx 0 (h.idx (h.size - 1)), size := h.size - 1 }
    if h.size ≠ 0 then h.siftDown cmp 0 else some h

def clear (h : TopNHeap T) : TopNHeap T := { h with size := 0 }

/-- `Top`, of a heap that is not empty. -/
def top (h : TopNHeap T) : T := h.val (h.idx 0)

end TopNHeap

/-! ## Calls -/

inductive HeapOp (T : Type) where
  | push (value : T)
  | pop
  | clear
  deriving DecidableEq, Repr

namespace TopNHeap

variable (cmp : T → T → Bool)

def call (h : TopNHeap T) : HeapOp T → Option (TopNHeap T)
  | .push value => h.push cmp value
  | .pop => h.pop cmp
  | .clear => some h.clear

/-- A sequence of calls. -/
def calls : List (HeapOp T) → TopNHeap T → Option (TopNHeap T)
  | [], h => some h
  | op :: ops, h => (h.call cmp op).bind (calls ops)

end TopNHeap

end UnifiedCache.Infra
