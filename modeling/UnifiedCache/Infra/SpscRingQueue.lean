/-
  UnifiedCache.Infra.SpscRingQueue — the ring between one producer and one consumer
  (ucm/shared/infra/template/spsc_ring_queue.h).

  Actors. The producer calls `Push` or `TryPush`, the consumer `TryPop`, each one call after another.
  A step is a load or a store of `head_` or `tail_`, or a move into or out of the buffer, with what is
  computed from it; a call that is made or returns is a step too. Steps of the two come in any order.
  What a thread has loaded it keeps, whatever the other does meanwhile.

  `size_t` is `UInt64`. The elements are of any type: `left x` is what is left of `x` where it has
  been moved from, and `blank` what `make_unique` fills the buffer with.
-/

import UnifiedCache.Base.Transition

namespace UnifiedCache.Infra.Spsc

open UnifiedCache.Base

/-- What `Setup` leaves besides the buffer. -/
structure SpscRingQueue where
  pow2 : Bool
  mask : UInt64
  capacity : UInt64

/-- `Setup`. -/
def setup (capacity : UInt64) : SpscRingQueue :=
  let mask := capacity - 1
  ⟨capacity &&& mask = 0, mask, capacity⟩

/-- `Mod`. -/
def SpscRingQueue.mod (queue : SpscRingQueue) (n : UInt64) : UInt64 :=
  if queue.pow2 then n &&& queue.mask else n % queue.capacity

/-- Where the producer is; `waits` is a `Push`, and `value` the object it was given. -/
inductive ProducerPc (α : Type) where
  | idle
  /-- Before the load of `head_`. -/
  | called (waits : Bool) (value : α)
  /-- Before the load of `tail_`. -/
  | headLoaded (waits : Bool) (value : α) (currentHead nextHead : UInt64)
  /-- Before the move into the buffer. -/
  | room (waits : Bool) (value : α) (currentHead nextHead : UInt64)
  /-- Before the store of `head_`. -/
  | moved (waits : Bool) (value : α) (nextHead : UInt64)
  | done (ok : Bool) (value : α)

/-- Where the consumer is; `value` is the object that `TryPop` assigns to. -/
inductive ConsumerPc (α : Type) where
  | idle
  /-- Before the load of `head_`. -/
  | called (value : α)
  /-- Before the load of `tail_`. -/
  | headLoaded (value : α) (currentHead : UInt64)
  /-- Before the move out of the buffer. -/
  | ready (currentTail : UInt64)
  /-- Before the store of `tail_`. -/
  | taken (value : α) (currentTail : UInt64)
  | done (ok : Bool) (value : α)

structure State (α : Type) where
  head : UInt64
  tail : UInt64
  buffer : UInt64 → α
  producer : ProducerPc α
  consumer : ConsumerPc α
  /-- Ghost: the values pushed, as their stores of `head_` come. -/
  pushed : List α
  /-- Ghost: the values popped, as their stores of `tail_` come. -/
  popped : List α
  /-- Ghost: how many elements were held when `TryPop` last loaded `head_`. -/
  visible : Nat

inductive Label (α : Type) where
  | push (value : α)
  | tryPush (value : α)
  | producer
  | tryPop (value : α)
  | consumer

variable {α : Type}

/-- The elements pushed and not popped. -/
def State.held (s : State α) : List α := s.pushed.drop s.popped.length

/-! ## Steps -/

/-- A call, if the producer is in none. -/
def callPush (s : State α) (waits : Bool) (value : α) : Option (State α) :=
  match s.producer with
  | .idle => some { s with producer := .called waits value }
  | _ => none

/-- `Push` and `TryPush`. -/
def producerStep (queue : SpscRingQueue) (left : α → α) (s : State α) : Option (State α) :=
  match s.producer with
  | .idle => none
  | .called waits value =>
    let currentHead := s.head
    some { s with producer := .headLoaded waits value currentHead (queue.mod (currentHead + 1)) }
  | .headLoaded waits value currentHead nextHead =>
    if nextHead = s.tail then
      -- `Push` yields and begins again
      some { s with producer := if waits then .called waits value else .done false value }
    else some { s with producer := .room waits value currentHead nextHead }
  | .room waits value currentHead nextHead =>
    some { s with buffer := Function.update s.buffer currentHead value, producer := .moved waits value nextHead }
  | .moved _ value nextHead =>
    some { s with head := nextHead, producer := .done true (left value), pushed := s.pushed ++ [value] }
  | .done _ _ => some { s with producer := .idle }

/-- A call, if the consumer is in none. -/
def callPop (s : State α) (value : α) : Option (State α) :=
  match s.consumer with
  | .idle => some { s with consumer := .called value }
  | _ => none

/-- `TryPop`. -/
def consumerStep (queue : SpscRingQueue) (left : α → α) (s : State α) : Option (State α) :=
  match s.consumer with
  | .idle => none
  | .called value => some { s with consumer := .headLoaded value s.head, visible := s.held.length }
  | .headLoaded value currentHead =>
    let currentTail := s.tail
    if currentTail = currentHead then some { s with consumer := .done false value }
    else some { s with consumer := .ready currentTail }
  | .ready currentTail =>
    let value := s.buffer currentTail
    some { s with buffer := Function.update s.buffer currentTail (left value), consumer := .taken value currentTail }
  | .taken value currentTail =>
    some { s with tail := queue.mod (currentTail + 1), consumer := .done true value, popped := s.popped ++ [value] }
  | .done _ _ => some { s with consumer := .idle }

def step (queue : SpscRingQueue) (left : α → α) (s : State α) : Label α → Option (State α)
  | .push value => callPush s true value
  | .tryPush value => callPush s false value
  | .producer => producerStep queue left s
  | .tryPop value => callPop s value
  | .consumer => consumerStep queue left s

/-- After `Setup`. -/
def initial (blank : α) : State α := ⟨0, 0, fun _ => blank, .idle, .idle, [], [], 0⟩

def sys (capacity : UInt64) (blank : α) (left : α → α) : System (State α) (Label α) :=
  ⟨(· = initial blank), step (setup capacity) left⟩

end UnifiedCache.Infra.Spsc
