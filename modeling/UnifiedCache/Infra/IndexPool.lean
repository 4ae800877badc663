/-
  UnifiedCache.Infra.IndexPool — indices handed out without a lock (ucm/shared/infra/thread/index_pool.h,
  ucm/shared/trans/detail/indexer.h), and the buffers that are handed out by them
  (ucm/shared/trans/detail/reserved_buffer.h).

  Free slots are linked from `pointer_` on, which also counts its own changes, modulo 2^32. `Acquire`
  takes the first slot, `Release` puts one in front; either loads `pointer_`, reads or writes the link
  of one node, and then changes `pointer_` if it still is what was loaded. The two classes differ in
  where they read what a slot is handed out as: `IndexPool` counts from the slot, `Indexer` from the
  node.

  A step is one load or store of `pointer_` or of a link. Steps of the threads come in any order, and
  `compare_exchange_weak` may fail for no reason.

  Slots and indices are numbers below 2^32: a pool has at least one slot, and its last one has a
  successor in 32 bits.
-/

import Mathlib.Algebra.Ring.Nat
import UnifiedCache.Base.Refinement

namespace UnifiedCache.Infra.IndexPool

open UnifiedCache.Base

structure Config where
  capacity : Nat
  capacity_pos : 0 < capacity
  capacity_lt : capacity + 1 < 2 ^ 32

/-- `Pointer`. -/
structure Pointer where
  slot : Nat
  ver : UInt32
  deriving DecidableEq

/-- What `Setup` leaves in `nodes_[slot].next`. -/
def setupNext (capacity slot : Nat) : Nat := if 0 < slot ∧ slot < capacity then slot + 1 else 0

/-- What `Indexer::Setup` leaves in `nodes_[slot].idx`. -/
def setupIdx (capacity slot : Nat) : Nat := if 0 < slot ∧ slot ≤ capacity then slot - 1 else 0

/-- The two classes. -/
inductive Kind where
  | indexPool
  | indexer

/-- What `Acquire` returns for a slot. -/
def Kind.idx (capacity : Nat) : Kind → Nat → Nat
  | .indexPool, slot => slot - 1
  | .indexer, slot => setupIdx capacity slot

/-- Where a thread is; `stamp` is how often `pointer_` had changed when the thread loaded it. -/
inductive Pc where
  | idle
  /-- `Acquire`, before the load of `pointer_`. -/
  | acquiring
  /-- Before the read of the slot's link. -/
  | loaded (ptr : Pointer) (stamp : Nat)
  /-- Before the exchange. -/
  | linked (ptr : Pointer) (next : Nat) (stamp : Nat)
  /-- `none`: `npos`. -/
  | acquired (got : Option Nat)
  /-- `Release`, before the load of `pointer_`. -/
  | releasing (slot : Nat)
  /-- Before the write of the slot's link. -/
  | aimed (slot : Nat) (ptr : Pointer) (stamp : Nat)
  /-- Before the exchange. -/
  | stored (slot : Nat) (ptr : Pointer) (stamp : Nat)
  /-- `Release` of what is no index of the pool. -/
  | refused (idx : Nat)
  | released
  deriving DecidableEq

structure State (T : Type) where
  next : Nat → Nat
  pointer : Pointer
  pc : T → Pc
  /-- Ghost: how often `pointer_` has changed. -/
  updates : Nat
  /-- Ghost: the indices that have been acquired and not been given back. -/
  taken : Nat → Bool

inductive Label (T : Type) where
  | acquire (t : T)
  | release (t : T) (idx : Nat)
  /-- `weak`: an exchange fails for no reason. -/
  | step (t : T) (weak : Bool)

variable {T : Type} [DecidableEq T]

namespace State

variable (s : State T)

def setPc (t : T) (pc : Pc) : State T := { s with pc := Function.update s.pc t pc }

@[simp] theorem setPc_self (t : T) (pc : Pc) : (s.setPc t pc).pc t = pc := by
  unfold setPc
  exact Function.update_self ..

theorem setPc_of_ne {t u : T} (h : u ≠ t) (pc : Pc) : (s.setPc t pc).pc u = s.pc u := by
  unfold setPc
  exact Function.update_of_ne h ..

end State

/-- A call of `Acquire`. -/
def callAcquire (s : State T) (t : T) : Option (State T) :=
  match s.pc t with
  | .idle => some (s.setPc t .acquiring)
  | _ => none

/-- A call of `Release`. -/
def callRelease (cfg : Config) (s : State T) (t : T) (idx : Nat) : Option (State T) :=
  match s.pc t with
  | .idle =>
    if cfg.capacity ≤ idx then some (s.setPc t (.refused idx))
    else some ({ s with taken := Function.update s.taken idx false }.setPc t (.releasing (idx + 1)))
  | _ => none

/-- `Acquire` and `Release`. -/
def threadStep (cfg : Config) (kind : Kind) (s : State T) (t : T) (weak : Bool) : Option (State T) :=
  match s.pc t with
  | .idle => none
  | .acquiring =>
    let ptr := s.pointer
    some (s.setPc t (if ptr.slot = 0 then .acquired none else .loaded ptr s.updates))
  | .loaded ptr stamp => some (s.setPc t (.linked ptr (s.next ptr.slot) stamp))
  | .linked ptr next _ =>
    if ptr = s.pointer ∧ weak = false then
      let idx := kind.idx cfg.capacity ptr.slot
      some ({ s with pointer := ⟨next, ptr.ver + 1⟩, updates := s.updates + 1, taken := Function.update s.taken idx true }.setPc
        t (.acquired (some idx)))
    else some (s.setPc t .acquiring)
  | .acquired _ => some (s.setPc t .idle)
  | .releasing slot => some (s.setPc t (.aimed slot s.pointer s.updates))
  | .aimed slot ptr stamp => some ({ s with next := Function.update s.next slot ptr.slot }.setPc t (.stored slot ptr stamp))
  | .stored slot ptr _ =>
    if ptr = s.pointer ∧ weak = false then
      some ({ s with pointer := ⟨slot, ptr.ver + 1⟩, updates := s.updates + 1 }.setPc t .released)
    else some (s.setPc t (.releasing slot))
  | .refused _ => some (s.setPc t .released)
  | .released => some (s.setPc t .idle)

def step (cfg : Config) (kind : Kind) (s : State T) : Label T → Option (State T)
  | .acquire t => callAcquire s t
  | .release t idx => callRelease cfg s t idx
  | .step t weak => threadStep cfg kind s t weak

/-- After `Setup`. -/
def initial (T : Type) (cfg : Config) : State T := ⟨setupNext cfg.capacity, ⟨1, 0⟩, fun _ => .idle, 0, fun _ => false⟩

def sys (T : Type) [DecidableEq T] (cfg : Config) (kind : Kind) : System (State T) (Label T) :=
    ⟨(· = initial T cfg), step cfg kind⟩

/-- When an exchange was prepared, where a thread is before one. -/
def Pc.stamp? : Pc → Option Nat
  | .linked _ _ stamp | .stored _ _ stamp => some stamp
  | _ => none

/-- Only what has been acquired is given back, and `pointer_` does not change 2^32 times between a
    thread's load of it and the exchange. -/
def Fair (cfg : Config) (s : State T) : Label T → Prop
  | .acquire _ => True
  | .release _ idx => idx < cfg.capacity → s.taken idx = true
  | .step t _ => ∀ stamp ∈ (s.pc t).stamp?, s.updates < stamp + 2 ^ 32

instance (cfg : Config) (s : State T) : ∀ a, Decidable (Fair cfg s a)
  | .acquire _ => isTrue trivial
  | .release _ idx => inferInstanceAs (Decidable (idx < cfg.capacity → s.taken idx = true))
  | .step t _ => inferInstanceAs (Decidable (∀ stamp ∈ (s.pc t).stamp?, s.updates < stamp + 2 ^ 32))

/-! ## Buffers by index -/

/-- A range of bytes. -/
structure Range where
  addr : Nat
  size : Nat

/-- The buffers of one side: `number` of `size` bytes each, from `buffers` on. -/
structure Buffers where
  buffers : Nat
  size : Nat

/-- What `GetBufferFrom` hands out for a place. -/
def Buffers.at (b : Buffers) (pos : Nat) : Range := ⟨b.buffers + b.size * pos, b.size⟩

end UnifiedCache.Infra.IndexPool
