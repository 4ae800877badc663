/-
  UnifiedCache.Infra.SpscRingQueueFifo — the ring refines a bounded first-in first-out queue (see
  `UnifiedCache.Infra.SpscRingQueue` and `UnifiedCache.Base.Fifo`).

  The elements held lie in the ring from `tail_` to before `head_` (`Inv`). A push takes effect with
  its store of `head_`, a pop with its store of `tail_`; a `TryPush` is refused at its load of `tail_`,
  a `TryPop` at its load of `head_`, although it goes on to load `tail_`. In between, what a thread has
  loaded stays good: only the producer makes the ring fuller, only the consumer emptier.

  Proved, for every capacity from 2 on and every order of the steps:
  (1) `simulation`: calls and returns are those of a queue of `capacity - 1` elements.
  (2) `refines_fifo`: with that, what is popped is a prefix of what is pushed, at most `capacity - 1` are
      held, a `TryPush` fails only with as many held, a `TryPop` only if none was when it loaded `head_`.
  (3) `slots_apart`: the two never move into and out of the same slot at once.
-/

import Mathlib.Data.List.Infix
import UnifiedCache.Base.Fifo
import UnifiedCache.Base.Refinement
import UnifiedCache.Base.Ring
import UnifiedCache.Infra.SpscRingQueue

namespace UnifiedCache.Infra.Spsc

open UnifiedCache.Base

variable {α : Type} {capacity : UInt64} {blank : α} {left : α → α} {s s' : State α}

/-! ## Indices -/

/-- Both branches of `Mod` are the remainder. -/
theorem mod_toNat (hcap : 2 ≤ capacity) (n : UInt64) : ((setup capacity).mod n).toNat = n.toNat % capacity.toNat := by
  have hcap' : 2 ≤ capacity.toNat := UInt64.le_iff_toNat_le.mp hcap
  unfold setup SpscRingQueue.mod
  by_cases hpow : capacity &&& (capacity - 1) = 0
  · have hone : (1 : UInt64) ≤ capacity := by
      rw [UInt64.le_iff_toNat_le, UInt64.toNat_one]
      omega
    have hmask : (capacity - 1).toNat = capacity.toNat - 1 := by
      rw [UInt64.toNat_sub_of_le _ _ hone, UInt64.toNat_one]
    have hand : capacity.toNat &&& (capacity.toNat - 1) = 0 := by
      rw [← hmask, ← UInt64.toNat_and, hpow]
      rfl
    obtain ⟨k, hk⟩ := (Nat.and_sub_one_eq_zero_iff_isPowerOfTwo (by omega)).mp hand
    simp only [hpow, decide_true, if_true]
    rw [UInt64.toNat_and, hmask, hk, Nat.and_two_pow_sub_one_eq_mod]
  · simp only [hpow, decide_false, Bool.false_eq_true, if_false]
    exact UInt64.toNat_mod _ _

/-- The index after one in the ring. -/
theorem mod_succ (hcap : 2 ≤ capacity) {i : UInt64} {home m : Nat} (hi : i.toNat = around capacity.toNat home m) :
    ((setup capacity).mod (i + 1)).toNat = around capacity.toNat home (m + 1) := by
  have hcap' : 2 ≤ capacity.toNat := UInt64.le_iff_toNat_le.mp hcap
  have hlt : i.toNat < capacity.toNat := hi ▸ around_lt (by omega) m
  have hbound := capacity.toNat_lt
  have hsucc : (i + 1).toNat = i.toNat + 1 := by
    rw [UInt64.toNat_add]
    exact Nat.mod_eq_of_lt (by simp only [UInt64.toNat_one]; omega)
  rw [mod_toNat hcap, hsucc, hi, around_succ]

theorem around_home_succ {n home k : Nat} : around n (home + 1) k = around n home (k + 1) := by
  unfold around
  rw [show home + 1 + k = home + (k + 1) by omega]

/-! ## The invariant -/

/-- What the producer knows: its copy of `head_` is good, and room it has seen stays. -/
def ProducerAt (queue : SpscRingQueue) (head : UInt64) (size : Nat) (buffer : UInt64 → α) : ProducerPc α → Prop
  | .headLoaded _ _ currentHead nextHead => currentHead = head ∧ nextHead = queue.mod (head + 1)
  | .room _ _ currentHead nextHead =>
    currentHead = head ∧ nextHead = queue.mod (head + 1) ∧ size + 1 < queue.capacity.toNat
  | .moved _ value nextHead => nextHead = queue.mod (head + 1) ∧ size + 1 < queue.capacity.toNat ∧ buffer head = value
  | .idle | .called _ _ | .done _ _ => True

/-- What the consumer knows: an element it has seen stays the oldest. -/
def ConsumerAt (tail : UInt64) (visible : Nat) (held : List α) : ConsumerPc α → Prop
  | .headLoaded _ currentHead => (tail = currentHead → visible = 0) ∧ (tail ≠ currentHead → held ≠ [])
  | .ready currentTail => currentTail = tail ∧ held ≠ []
  | .taken value currentTail => currentTail = tail ∧ held.head? = some value
  | .idle | .called _ | .done _ _ => True

/-- What the consumer knows stays when an element is added. -/
theorem ConsumerAt.append {tail : UInt64} {visible : Nat} {held : List α} {pc : ConsumerPc α}
    (h : ConsumerAt tail visible held pc)
    (value : α) : ConsumerAt tail visible (held ++ [value]) pc := by
  have hne : held ++ [value] ≠ [] := List.append_ne_nil_of_right_ne_nil _ (List.cons_ne_nil _ _)
  cases pc with
  | headLoaded x currentHead => exact ⟨h.1, fun _ => hne⟩
  | ready currentTail => exact ⟨h.1, hne⟩
  | taken x currentTail =>
    refine ⟨h.1, ?_⟩
    rw [List.head?_append, h.2]
    rfl
  | _ => trivial

/-- What the producer knows stays when elements go. -/
theorem ProducerAt.mono {queue : SpscRingQueue} {head : UInt64} {size size' : Nat} {buffer : UInt64 → α} {pc : ProducerPc α}
    (h : ProducerAt queue head size buffer pc) (hle : size' ≤ size) : ProducerAt queue head size' buffer pc := by
  cases pc with
  | headLoaded => exact h
  | room => exact ⟨h.1, h.2.1, by have := h.2.2; omega⟩
  | moved => exact ⟨h.1, by have := h.2.1; omega, h.2.2⟩
  | _ => trivial

/-- How many of the elements held have been moved out already. -/
def ConsumerPc.moving : ConsumerPc α → Nat
  | .taken _ _ => 1
  | _ => 0

/-- The elements `held` lie in the ring from `tail_` to before `head_`. -/
structure Inv (capacity : UInt64) (s : State α) (held : List α) : Prop where
  order : s.popped ++ held = s.pushed
  size : held.length < capacity.toNat
  head : s.head.toNat = around capacity.toNat s.popped.length held.length
  tail : s.tail.toNat = around capacity.toNat s.popped.length 0
  cells : ∀ (k : Nat) (value : α) (i : UInt64), held[k]? = some value → s.consumer.moving ≤ k →
    i.toNat = around capacity.toNat s.popped.length k → s.buffer i = value
  producer : ProducerAt (setup capacity) s.head held.length s.buffer s.producer
  consumer : ConsumerAt s.tail s.visible held s.consumer

theorem initial_inv (hcap : 2 ≤ capacity) : Inv capacity (initial blank) [] := by
  have hcap' : 2 ≤ capacity.toNat := UInt64.le_iff_toNat_le.mp hcap
  have hzero : 0 < capacity.toNat := by omega
  exact ⟨rfl, hzero, (around_zero hzero).symm, (around_zero hzero).symm, fun k value i hk => by simp at hk, trivial, trivial⟩

namespace Inv

variable {held : List α}

theorem held_eq (h : Inv capacity s held) : s.held = held := by
  unfold State.held
  rw [← h.order, List.drop_left]

theorem full_iff (h : Inv capacity s held) (hcap : 2 ≤ capacity) :
    (setup capacity).mod (s.head + 1) = s.tail ↔ held.length + 1 = capacity.toNat := by
  have hsize := h.size
  have hnext := mod_succ hcap h.head
  rw [← UInt64.toNat_inj, hnext, h.tail]
  constructor
  · intro heq
    by_contra hne
    have := around_inj (by omega) (by omega) heq
    omega
  · intro heq
    rw [heq]
    unfold around
    rw [Nat.add_mod_right, Nat.add_zero]

theorem empty_iff (h : Inv capacity s held) : s.tail = s.head ↔ held = [] := by
  have hsize := h.size
  rw [← UInt64.toNat_inj, h.head, h.tail, ← List.length_eq_zero_iff]
  constructor
  · intro heq
    exact (around_inj (by omega) hsize heq).symm
  · intro heq
    rw [heq]

/-- The producer's slot is none of those held. -/
theorem head_ne (h : Inv capacity s held) {k : Nat} {i : UInt64} (hk : k < held.length)
    (hi : i.toNat = around capacity.toNat s.popped.length k) : i ≠ s.head := by
  intro heq
  have hsize := h.size
  rw [heq, h.head] at hi
  have := around_inj hsize (by omega) hi
  omega

/-! ### Steps of the producer -/

/-- A step that changes where the producer is, and nothing else. -/
theorem setProducer (h : Inv capacity s held) {pc : ProducerPc α}
    (hpc : ProducerAt (setup capacity) s.head held.length s.buffer pc) : Inv capacity { s with producer := pc } held :=
  ⟨h.order, h.size, h.head, h.tail, h.cells, hpc, h.consumer⟩

/-- The load of `head_` by the producer. -/
theorem producerLoadsHead (h : Inv capacity s held) (waits : Bool) (value : α) :
    Inv capacity { s with producer := .headLoaded waits value s.head ((setup capacity).mod (s.head + 1)) } held :=
  h.setProducer ⟨rfl, rfl⟩

/-- The load of `tail_` by the producer. -/
theorem producerLoadsTail (h : Inv capacity s held) (hcap : 2 ≤ capacity) {waits : Bool} {value : α}
    {currentHead nextHead : UInt64}
    (hpc : s.producer = .headLoaded waits value currentHead nextHead) :
    if nextHead = s.tail then held.length + 1 = capacity.toNat
    else Inv capacity { s with producer := .room waits value currentHead nextHead } held := by
  have hat := h.producer
  rw [hpc] at hat
  obtain ⟨hhead, hnext⟩ := hat
  have hfull := h.full_iff hcap
  have hsize := h.size
  by_cases heq : nextHead = s.tail
  · rw [if_pos heq]
    exact hfull.mp (hnext ▸ heq)
  · rw [if_neg heq]
    refine h.setProducer ⟨hhead, hnext, ?_⟩
    have hne : held.length + 1 ≠ capacity.toNat := fun hf => heq (hnext ▸ hfull.mpr hf)
    exact lt_of_le_of_ne hsize hne

/-- The move into the buffer. -/
theorem movesIn (h : Inv capacity s held) {waits : Bool} {value : α} {currentHead nextHead : UInt64}
    (hpc : s.producer = .room waits value currentHead nextHead) :
    Inv capacity { s with
      buffer := Function.update s.buffer currentHead value, producer := .moved waits value nextHead } held := by
  have hat := h.producer
  rw [hpc] at hat
  obtain ⟨hhead, hnext, hroom⟩ := hat
  refine ⟨h.order, h.size, h.head, h.tail, fun k x i hk hle hi => ?_, ⟨hnext, hroom, ?_⟩, h.consumer⟩
  · have hlt : k < held.length := (List.getElem?_eq_some_iff.mp hk).1
    have hne : i ≠ currentHead := hhead ▸ h.head_ne hlt hi
    exact (Function.update_of_ne hne _ _).trans (h.cells k x i hk hle hi)
  · rw [hhead]
    exact Function.update_self _ _ _

/-- The store of `head_`. -/
theorem storesHead (h : Inv capacity s held) (hcap : 2 ≤ capacity) {waits : Bool} {value : α} {nextHead : UInt64}
    (hpc : s.producer = .moved waits value nextHead) (ok : Bool) (gone : α) :
    Inv capacity { s with head := nextHead, producer := .done ok gone, pushed := s.pushed ++ [value] } (held ++ [value]) := by
  have hat := h.producer
  rw [hpc] at hat
  obtain ⟨hnext, hroom, hvalue⟩ := hat
  have hlen : (held ++ [value]).length = held.length + 1 := by rw [List.length_append, List.length_singleton]
  refine ⟨?_, ?_, ?_, h.tail, fun k x i hk hle hi => ?_, trivial, h.consumer.append value⟩
  · rw [← List.append_assoc, h.order]
  · rw [hlen]
    exact hroom
  · rw [hlen, hnext]
    exact mod_succ hcap h.head
  · by_cases hlt : k < held.length
    · rw [List.getElem?_append_left hlt] at hk
      exact h.cells k x i hk hle hi
    · -- the new element is in the slot that `head_` was at
      have hk' : k = held.length := by
        have := (List.getElem?_eq_some_iff.mp hk).1
        omega
      have hx : x = value := by
        rw [hk', List.getElem?_append_right (Nat.le_refl _), Nat.sub_self] at hk
        exact (Option.some.inj hk).symm
      have hslot : i = s.head := by
        rw [← UInt64.toNat_inj, hi, hk', h.head]
      rw [hx, hslot]
      exact hvalue

/-! ### Steps of the consumer -/

/-- A step that changes where the consumer is, and nothing else. -/
theorem setConsumer (h : Inv capacity s held) {pc : ConsumerPc α} {visible : Nat} (hpc : ConsumerAt s.tail visible held pc)
    (hmoving : s.consumer.moving ≤ pc.moving) : Inv capacity { s with consumer := pc, visible := visible } held :=
  ⟨h.order, h.size, h.head, h.tail, fun k value i hk hle => h.cells k value i hk (hmoving.trans hle), h.producer, hpc⟩

/-- The load of `head_` by the consumer. -/
theorem consumerLoadsHead (h : Inv capacity s held) {value : α} (hpc : s.consumer = .called value) :
    Inv capacity { s with consumer := .headLoaded value s.head, visible := s.held.length } held := by
  refine h.setConsumer ⟨fun heq => ?_, fun hne hnil => hne (h.empty_iff.mpr hnil)⟩ (by rw [hpc]; exact Nat.le_refl _)
  rw [h.held_eq, h.empty_iff.mp heq]
  rfl

/-- The load of `tail_` by the consumer. -/
theorem consumerLoadsTail (h : Inv capacity s held) {value : α} {currentHead : UInt64}
    (hpc : s.consumer = .headLoaded value currentHead) :
    if s.tail = currentHead then s.visible = 0 else Inv capacity { s with consumer := .ready s.tail } held := by
  have hat := h.consumer
  rw [hpc] at hat
  split
  · next heq => exact hat.1 heq
  · next hne => exact h.setConsumer ⟨rfl, hat.2 hne⟩ (by rw [hpc]; exact Nat.le_refl _)

/-- The move out of the buffer. -/
theorem movesOut (h : Inv capacity s held) {currentTail : UInt64} (hpc : s.consumer = .ready currentTail) :
    Inv capacity { s with buffer := Function.update s.buffer currentTail (left (s.buffer currentTail)),
                          consumer := .taken (s.buffer currentTail) currentTail } held := by
  have hat := h.consumer
  rw [hpc] at hat
  obtain ⟨rfl, hne⟩ := hat
  have hsize := h.size
  have hlen : 0 < held.length := List.length_pos_iff.mpr hne
  refine ⟨h.order, h.size, h.head, h.tail, fun k x i hk hle hi => ?_, ?_, rfl, ?_⟩
  · have hlt : k < held.length := (List.getElem?_eq_some_iff.mp hk).1
    have hpos : 1 ≤ k := hle
    have hslot : i ≠ s.tail := by
      intro heq
      rw [heq, h.tail] at hi
      have := around_inj (by omega) (by omega) hi
      omega
    refine (Function.update_of_ne hslot _ _).trans (h.cells k x i hk ?_ hi)
    rw [hpc]
    exact Nat.zero_le _
  · have hslot : s.head ≠ s.tail := (h.head_ne hlen h.tail).symm
    have hprod := h.producer
    cases hp : s.producer with
    | moved waits value nextHead =>
      rw [hp] at hprod
      exact ⟨hprod.1, hprod.2.1, (Function.update_of_ne hslot _ _).trans hprod.2.2⟩
    | _ =>
      rw [hp] at hprod
      exact hprod
  · obtain ⟨x, rest, rfl⟩ := List.exists_cons_of_ne_nil hne
    rw [List.head?_cons, h.cells 0 x s.tail rfl (by rw [hpc]; exact Nat.le_refl _) h.tail]

/-- The store of `tail_`. -/
theorem storesTail (h : Inv capacity s held) (hcap : 2 ≤ capacity) {value : α} {currentTail : UInt64}
    (hpc : s.consumer = .taken value currentTail) (ok : Bool) :
    ∃ rest, held = value :: rest ∧
      Inv capacity { s with tail := (setup capacity).mod (currentTail + 1), consumer := .done ok value,
                            popped := s.popped ++ [value] } rest := by
  have hat := h.consumer
  rw [hpc] at hat
  obtain ⟨rfl, hfirst⟩ := hat
  obtain ⟨rest, rfl⟩ := List.head?_eq_some_iff.mp hfirst
  have hsize := h.size
  rw [List.length_cons] at hsize
  have hpop : (s.popped ++ [value]).length = s.popped.length + 1 := by rw [List.length_append, List.length_singleton]
  refine ⟨rest, rfl, ?_, by omega, ?_, ?_, fun k x i hk _ hi => ?_, h.producer.mono (Nat.le_succ _), trivial⟩
  · rw [List.append_assoc]
    exact h.order
  · rw [hpop, around_home_succ]
    exact h.head
  · rw [hpop, around_home_succ]
    exact mod_succ hcap h.tail
  · rw [hpop, around_home_succ] at hi
    exact h.cells (k + 1) x i hk (by rw [hpc]; exact Nat.succ_le_succ (Nat.zero_le k)) hi

end Inv

/-! ## The queue it is -/

/-- Calls and returns. -/
def see (s : State α) : Label α → Option (Fifo.Event α)
  | .push value => some (.push true value)
  | .tryPush value => some (.push false value)
  | .producer =>
    match s.producer with
    | .done ok _ => some (.pushed ok)
    | _ => none
  | .tryPop _ => some .pop
  | .consumer =>
    match s.consumer with
    | .done ok value => some (.popped (if ok then some value else none))
    | _ => none

def ProducerPc.offer : ProducerPc α → Fifo.Offer α
  | .idle => .idle
  | .called waits value | .headLoaded waits value _ _ | .room waits value _ _ | .moved waits value _ => .calling waits value
  | .done ok _ => .answered ok

/-- A `TryPop` that has seen no element will fail, whatever is pushed meanwhile. -/
def ConsumerPc.demand (tail : UInt64) : ConsumerPc α → Fifo.Demand α
  | .idle => .idle
  | .called _ | .ready _ | .taken _ _ => .calling
  | .headLoaded _ currentHead => if tail = currentHead then .answered none else .calling
  | .done ok value => .answered (if ok then some value else none)

def State.fifo (s : State α) (held : List α) : Fifo.State α := ⟨held, s.producer.offer, s.consumer.demand s.tail⟩

/-- The queue follows a step, in at most one step of its own. -/
def Follows (capacity : UInt64) (s : State α) (held : List α) (a : Label α) (s' : State α) : Prop :=
  ∃ l held', Inv capacity s' held' ∧ replay (Fifo.sys α (capacity.toNat - 1)) (s.fifo held) l = some (s'.fifo held') ∧
    trace (Fifo.sys α (capacity.toNat - 1)) Fifo.see (s.fifo held) l = (see s a).toList

section Follows

variable {held held' : List α} {a : Label α}

theorem follows_silent (h : Inv capacity s' held) (hsame : s'.fifo held = s.fifo held) (hsee : see s a = none) :
    Follows capacity s held a s' := by
  refine ⟨[], held, h, ?_, ?_⟩
  · rw [hsame]
    rfl
  · rw [hsee]
    rfl

theorem follows_step (b : Fifo.Label α) (h : Inv capacity s' held')
    (hstep : Fifo.step (capacity.toNat - 1) (s.fifo held) b = some (s'.fifo held')) (hsee : Fifo.see (s.fifo held) b = see s a) :
    Follows capacity s held a s' := by
  refine ⟨[b], held', h, replay_single hstep, ?_⟩
  rw [trace_single hstep, hsee]

theorem producer_follows (hcap : 2 ≤ capacity) (h : Inv capacity s held)
    (hstep : producerStep (setup capacity) left s = some s') :
    Follows capacity s held .producer s' := by
  have hsize := h.size
  unfold producerStep at hstep
  cases hpc : s.producer with
  | idle =>
    rw [hpc] at hstep
    cases hstep
  | called waits value =>
    rw [hpc] at hstep
    obtain rfl := Option.some.inj hstep
    exact follows_silent (h.producerLoadsHead waits value) (by simp only [State.fifo, hpc, ProducerPc.offer])
      (by simp only [see, hpc])
  | headLoaded waits value currentHead nextHead =>
    rw [hpc] at hstep
    have hload := h.producerLoadsTail hcap hpc
    by_cases heq : nextHead = s.tail
    · rw [if_pos heq] at hload
      simp only [heq, if_true] at hstep
      obtain rfl := Option.some.inj hstep
      cases waits with
      | true =>
        exact follows_silent (h.setProducer trivial) (by simp only [State.fifo, hpc, ProducerPc.offer, if_true])
          (by simp only [see, hpc])
      | false =>
        refine follows_step .refuse (h.setProducer trivial) ?_ (by simp only [see, hpc, Fifo.see])
        have hfull : held.length = capacity.toNat - 1 := by omega
        simp [Fifo.step, State.fifo, hpc, ProducerPc.offer, hfull]
    · rw [if_neg heq] at hload
      simp only [heq, if_false] at hstep
      obtain rfl := Option.some.inj hstep
      exact follows_silent hload (by simp only [State.fifo, hpc, ProducerPc.offer]) (by simp only [see, hpc])
  | room waits value currentHead nextHead =>
    rw [hpc] at hstep
    obtain rfl := Option.some.inj hstep
    exact follows_silent (h.movesIn hpc) (by simp only [State.fifo, hpc, ProducerPc.offer]) (by simp only [see, hpc])
  | moved waits value nextHead =>
    rw [hpc] at hstep
    obtain rfl := Option.some.inj hstep
    have hat := h.producer
    rw [hpc] at hat
    have hroom : held.length < capacity.toNat - 1 := by
      have := hat.2.1
      simp only [setup] at this
      omega
    refine follows_step .accept (h.storesHead hcap hpc true (left value)) ?_ (by simp only [see, hpc, Fifo.see])
    simp only [Fifo.step, State.fifo, hpc, ProducerPc.offer, hroom, if_true]
  | done ok value =>
    rw [hpc] at hstep
    obtain rfl := Option.some.inj hstep
    exact follows_step .pushed (h.setProducer trivial) (by simp only [Fifo.step, State.fifo, hpc, ProducerPc.offer])
      (by simp only [see, hpc, Fifo.see, State.fifo, ProducerPc.offer])

theorem consumer_follows (hcap : 2 ≤ capacity) (h : Inv capacity s held)
    (hstep : consumerStep (setup capacity) left s = some s') :
    Follows capacity s held .consumer s' := by
  unfold consumerStep at hstep
  cases hpc : s.consumer with
  | idle =>
    rw [hpc] at hstep
    cases hstep
  | called value =>
    rw [hpc] at hstep
    obtain rfl := Option.some.inj hstep
    have hinv := h.consumerLoadsHead hpc
    by_cases heq : s.tail = s.head
    · -- nothing is held: the call has failed here
      obtain rfl := h.empty_iff.mp heq
      refine follows_step .deny hinv ?_ (by simp only [see, hpc, Fifo.see])
      simp only [Fifo.step, State.fifo, hpc, ConsumerPc.demand, heq, if_true]
    · exact follows_silent hinv (by simp only [State.fifo, hpc, ConsumerPc.demand, heq, if_false]) (by simp only [see, hpc])
  | headLoaded value currentHead =>
    rw [hpc] at hstep
    have hload := h.consumerLoadsTail hpc
    by_cases heq : s.tail = currentHead
    · simp only [if_pos heq] at hstep
      obtain rfl := Option.some.inj hstep
      have hinv : Inv capacity { s with consumer := .done false value } held :=
        h.setConsumer trivial (by rw [hpc]; exact Nat.le_refl _)
      refine follows_silent hinv ?_ (by simp only [see, hpc])
      simp [State.fifo, hpc, ConsumerPc.demand, heq]
    · rw [if_neg heq] at hload
      simp only [heq, if_false] at hstep
      obtain rfl := Option.some.inj hstep
      exact follows_silent hload (by simp only [State.fifo, hpc, ConsumerPc.demand, heq, if_false]) (by simp only [see, hpc])
  | ready currentTail =>
    rw [hpc] at hstep
    obtain rfl := Option.some.inj hstep
    exact follows_silent (h.movesOut hpc) (by simp only [State.fifo, hpc, ConsumerPc.demand]) (by simp only [see, hpc])
  | taken value currentTail =>
    rw [hpc] at hstep
    obtain rfl := Option.some.inj hstep
    obtain ⟨rest, rfl, hinv⟩ := h.storesTail hcap hpc true
    exact follows_step .serve hinv (by simp only [Fifo.step, State.fifo, hpc, ConsumerPc.demand, if_true])
      (by simp only [see, hpc, Fifo.see])
  | done ok value =>
    rw [hpc] at hstep
    obtain rfl := Option.some.inj hstep
    exact follows_step .popped (h.setConsumer trivial (by rw [hpc]; exact Nat.le_refl _))
      (by simp only [Fifo.step, State.fifo, hpc, ConsumerPc.demand])
      (by simp only [see, hpc, Fifo.see, State.fifo, ConsumerPc.demand])

theorem callPush_follows (h : Inv capacity s held) {waits : Bool} {value : α} (hcall : callPush s waits value = some s') :
    Inv capacity s' held ∧ Fifo.step (capacity.toNat - 1) (s.fifo held) (.push waits value) = some (s'.fifo held) := by
  unfold callPush at hcall
  cases hpc : s.producer with
  | idle =>
    rw [hpc] at hcall
    obtain rfl := Option.some.inj hcall
    exact ⟨h.setProducer trivial, by simp only [Fifo.step, State.fifo, hpc, ProducerPc.offer]⟩
  | _ =>
    rw [hpc] at hcall
    cases hcall

theorem callPop_follows (h : Inv capacity s held) {value : α} (hcall : callPop s value = some s') :
    Inv capacity s' held ∧ Fifo.step (capacity.toNat - 1) (s.fifo held) .pop = some (s'.fifo held) := by
  unfold callPop at hcall
  cases hpc : s.consumer with
  | idle =>
    rw [hpc] at hcall
    obtain rfl := Option.some.inj hcall
    refine ⟨h.setConsumer trivial ?_, by simp only [Fifo.step, State.fifo, hpc, ConsumerPc.demand]⟩
    rw [hpc]
    exact Nat.le_refl _
  | _ =>
    rw [hpc] at hcall
    cases hcall

theorem step_follows (hcap : 2 ≤ capacity) (h : Inv capacity s held) (hstep : step (setup capacity) left s a = some s') :
    Follows capacity s held a s' := by
  cases a with
  | push value =>
    obtain ⟨hinv, hcall⟩ := callPush_follows h hstep
    exact follows_step (.push true value) hinv hcall rfl
  | tryPush value =>
    obtain ⟨hinv, hcall⟩ := callPush_follows h hstep
    exact follows_step (.push false value) hinv hcall rfl
  | producer => exact producer_follows hcap h hstep
  | tryPop value =>
    obtain ⟨hinv, hcall⟩ := callPop_follows h hstep
    exact follows_step .pop hinv hcall rfl
  | consumer => exact consumer_follows hcap h hstep

end Follows

theorem simulation (hcap : 2 ≤ capacity) :
    Simulation (sys capacity blank left) see (Fifo.sys α (capacity.toNat - 1)) Fifo.see
      (fun s t => ∃ held, Inv capacity s held ∧ t = s.fifo held) where
  init s hs := by
    obtain rfl : s = initial blank := hs
    exact ⟨Fifo.empty, rfl, [], initial_inv hcap, rfl⟩
  step s t a s' hR hstep := by
    obtain ⟨held, h, rfl⟩ := hR
    obtain ⟨l, held', hinv, hrun, htrace⟩ := step_follows hcap h hstep
    exact ⟨l, s'.fifo held', hrun, htrace, held', hinv, rfl⟩

theorem reach_inv (hcap : 2 ≤ capacity) (h : Reach (sys capacity blank left) Any s) : ∃ held, Inv capacity s held := by
  refine Reach.inv (I := fun s => ∃ held, Inv capacity s held) (fun s hs => ⟨[], ?_⟩) (fun s a s' hinv _ hstep => ?_) h
  · obtain rfl : s = initial blank := hs
    exact initial_inv hcap
  · obtain ⟨held, hinv⟩ := hinv
    obtain ⟨_, held', hinv', -⟩ := step_follows hcap hinv hstep
    exact ⟨held', hinv'⟩

/-! ## What follows -/

/-- While an element is moved in and one is moved out, they are in different slots. -/
theorem slots_apart (hcap : 2 ≤ capacity) (h : Reach (sys capacity blank left) Any s) {waits : Bool} {value : α}
    {currentHead nextHead currentTail : UInt64} (hin : s.producer = .room waits value currentHead nextHead)
    (hout : s.consumer = .ready currentTail) : currentHead ≠ currentTail := by
  obtain ⟨held, hinv⟩ := reach_inv hcap h
  have hprod := hinv.producer
  have hcons := hinv.consumer
  rw [hin] at hprod
  rw [hout] at hcons
  rw [hprod.1, hcons.1]
  exact (hinv.head_ne (List.length_pos_iff.mpr hcons.2) hinv.tail).symm

/-- In a state: the order of the elements, how many are held, and when a call fails. -/
structure Bounded (capacity : UInt64) (left : α → α) (s : State α) : Prop where
  order : s.popped <+: s.pushed
  size : s.held.length ≤ capacity.toNat - 1
  /-- A step with which a `TryPush` has failed. -/
  tryPush : ∀ s' value, producerStep (setup capacity) left s = some s' → s'.producer = .done false value →
    s.held.length = capacity.toNat - 1
  /-- A step with which a `TryPop` has failed. -/
  tryPop : ∀ s' value, consumerStep (setup capacity) left s = some s' → s'.consumer = .done false value → s.visible = 0

theorem Inv.bounded {held : List α} (h : Inv capacity s held) (hcap : 2 ≤ capacity) : Bounded capacity left s := by
  have hheld := h.held_eq
  have hsize := h.size
  refine ⟨⟨held, h.order⟩, by rw [hheld]; omega, fun s' value hstep hfail => ?_, fun s' value hstep hfail => ?_⟩
  · rw [hheld]
    unfold producerStep at hstep
    cases hpc : s.producer with
    | headLoaded waits x currentHead nextHead =>
      have hload := h.producerLoadsTail hcap hpc
      rw [hpc] at hstep
      by_cases heq : nextHead = s.tail
      · rw [if_pos heq] at hload
        omega
      · simp only [heq, if_false] at hstep
        obtain rfl := Option.some.inj hstep
        cases hfail
    | idle =>
      rw [hpc] at hstep
      cases hstep
    | _ =>
      rw [hpc] at hstep
      obtain rfl := Option.some.inj hstep
      cases hfail
  · unfold consumerStep at hstep
    cases hpc : s.consumer with
    | headLoaded x currentHead =>
      have hload := h.consumerLoadsTail hpc
      rw [hpc] at hstep
      by_cases heq : s.tail = currentHead
      · rwa [if_pos heq] at hload
      · simp only [heq, if_false] at hstep
        obtain rfl := Option.some.inj hstep
        cases hfail
    | idle =>
      rw [hpc] at hstep
      cases hstep
    | _ =>
      rw [hpc] at hstep
      obtain rfl := Option.some.inj hstep
      cases hfail

/-- The ring is a first-in first-out queue of `capacity - 1` elements: calls and returns are those of
    such a queue, which holds what the ring holds. -/
theorem refines_fifo (α : Type) (capacity : UInt64) (hcap : 2 ≤ capacity) (blank : α) (left : α → α) :
    (∀ l s, replay (sys capacity blank left) (initial blank) l = some s →
      ∃ l' t, replay (Fifo.sys α (capacity.toNat - 1)) Fifo.empty l' = some t ∧ t.held = s.held ∧
        trace (Fifo.sys α (capacity.toNat - 1)) Fifo.see Fifo.empty l' =
          trace (sys capacity blank left) see (initial blank) l) ∧
      ∀ s, Reach (sys capacity blank left) Any s → Bounded capacity left s := by
  refine ⟨fun l s hrun => ?_, fun s hreach => ?_⟩
  · obtain ⟨t₀, l', t, rfl, hrun', htrace, held, hinv, rfl⟩ := (simulation hcap).run rfl hrun
    exact ⟨l', s.fifo held, hrun', hinv.held_eq.symm, htrace⟩
  · obtain ⟨held, hinv⟩ := reach_inv hcap hreach
    exact hinv.bounded hcap

theorem refines_fifo_three : (∀ l s, replay (sys 3 0 fun _ => 0) (initial 0) l = some s →
      ∃ l' t, replay (Fifo.sys Nat 2) Fifo.empty l' = some t ∧ t.held = s.held ∧
        trace (Fifo.sys Nat 2) Fifo.see Fifo.empty l' = trace (sys 3 0 fun _ => 0) see (initial 0) l) ∧
      ∀ s, Reach (sys 3 0 fun _ => 0) Any s → Bounded 3 (fun _ : Nat => 0) s :=
  refines_fifo Nat 3 (by decide) 0 fun _ => 0

/-- One element fills a ring of two slots: the second `TryPush` fails. -/
example : (replay (sys 2 0 fun _ => 0) (initial 0)
    (.tryPush 7 :: List.replicate 5 .producer ++ .tryPush 8 :: List.replicate 3 .producer ++ .tryPop 0 ::
      List.replicate 5 .consumer)).map (fun s => (s.pushed, s.popped, s.head, s.tail)) = some ([7], [7], 1, 1) := by decide

end UnifiedCache.Infra.Spsc
