/-
  UnifiedCache.Base.Fifo — a bounded first-in first-out queue between one producer and one consumer.

  A call is made, takes effect at one moment, and returns. An offered value is accepted while fewer
  than `bound` are held; where as many are held, a producer that does not wait is refused. A consumer
  is given the oldest value held, or nothing where none is. Only calls and returns are seen.
-/

import UnifiedCache.Base.Transition

namespace UnifiedCache.Base.Fifo

/-- Calls and returns. -/
inductive Event (α : Type*) where
  | push (waits : Bool) (value : α)
  | pushed (accepted : Bool)
  | pop
  | popped (got : Option α)

inductive Offer (α : Type*) where
  | idle
  | calling (waits : Bool) (value : α)
  | answered (accepted : Bool)

inductive Demand (α : Type*) where
  | idle
  | calling
  | answered (got : Option α)

structure State (α : Type*) where
  held : List α
  offer : Offer α
  demand : Demand α

inductive Label (α : Type*) where
  | push (waits : Bool) (value : α)
  | accept
  | refuse
  | pushed
  | pop
  | serve
  | deny
  | popped

variable {α : Type*}

def step (bound : Nat) (t : State α) : Label α → Option (State α)
  | .push waits value =>
    match t.offer with
    | .idle => some { t with offer := .calling waits value }
    | _ => none
  | .accept =>
    match t.offer with
    | .calling _ value => if t.held.length < bound
        then some { t with held := t.held ++ [value], offer := .answered true } else none
    | _ => none
  | .refuse =>
    match t.offer with
    | .calling false _ => if t.held.length = bound then some { t with offer := .answered false } else none
    | _ => none
  | .pushed =>
    match t.offer with
    | .answered _ => some { t with offer := .idle }
    | _ => none
  | .pop =>
    match t.demand with
    | .idle => some { t with demand := .calling }
    | _ => none
  | .serve =>
    match t.demand, t.held with
    | .calling, value :: held => some { t with held := held, demand := .answered (some value) }
    | _, _ => none
  | .deny =>
    match t.demand, t.held with
    | .calling, [] => some { t with demand := .answered none }
    | _, _ => none
  | .popped =>
    match t.demand with
    | .answered _ => some { t with demand := .idle }
    | _ => none

def empty : State α := ⟨[], .idle, .idle⟩

def sys (α : Type*) (bound : Nat) : System (State α) (Label α) := ⟨(· = empty), step bound⟩

def see (t : State α) : Label α → Option (Event α)
  | .push waits value => some (.push waits value)
  | .pushed =>
    match t.offer with
    | .answered accepted => some (.pushed accepted)
    | _ => none
  | .pop => some .pop
  | .popped =>
    match t.demand with
    | .answered got => some (.popped got)
    | _ => none
  | _ => none

end UnifiedCache.Base.Fifo
