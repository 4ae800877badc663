/-
  UnifiedCache.Base.Pool — a pool that any number of threads take things from and give them back to.

  A call is made, takes effect at one moment, and returns. What was given back last is taken first; a
  call that finds nothing free is told so. A thing that is not one of the pool's is not taken back. Only
  calls and returns are seen.

  - `Chained`: the free things, linked from one to the next.
-/

import Mathlib.Data.List.Nodup
import UnifiedCache.Base.Transition

namespace UnifiedCache.Base.Pool

/-- Calls and returns. -/
inductive Event (T ι : Type*) where
  | take (t : T)
  | took (t : T) (got : Option ι)
  | give (t : T) (i : ι)
  | gave (t : T)

inductive Call (ι : Type*) where
  | idle
  | taking
  | took (got : Option ι)
  | giving (i : ι)
  | gave
  deriving DecidableEq

structure State (T ι : Type*) where
  free : List ι
  call : T → Call ι

inductive Label (T ι : Type*) where
  | take (t : T)
  | serve (t : T)
  | deny (t : T)
  | took (t : T)
  | give (t : T) (i : ι)
  | accept (t : T)
  | ignore (t : T)
  | gave (t : T)

variable {T ι : Type*} [DecidableEq T]

/-- The pool's things are those in `mine`. -/
def step (mine : ι → Bool) (p : State T ι) : Label T ι → Option (State T ι)
  | .take t =>
    match p.call t with
    | .idle => some { p with call := Function.update p.call t .taking }
    | _ => none
  | .serve t =>
    match p.call t, p.free with
    | .taking, i :: free => some ⟨free, Function.update p.call t (.took (some i))⟩
    | _, _ => none
  | .deny t =>
    match p.call t, p.free with
    | .taking, [] => some { p with call := Function.update p.call t (.took none) }
    | _, _ => none
  | .took t =>
    match p.call t with
    | .took _ => some { p with call := Function.update p.call t .idle }
    | _ => none
  | .give t i =>
    match p.call t with
    | .idle => some { p with call := Function.update p.call t (.giving i) }
    | _ => none
  | .accept t =>
    match p.call t with
    | .giving i => if mine i then some ⟨i :: p.free, Function.update p.call t .gave⟩ else none
    | _ => none
  | .ignore t =>
    match p.call t with
    | .giving i => if mine i then none else some { p with call := Function.update p.call t .gave }
    | _ => none
  | .gave t =>
    match p.call t with
    | .gave => some { p with call := Function.update p.call t .idle }
    | _ => none

/-- All of `free` is free, and no thread is in a call. -/
def full (T : Type*) (free : List ι) : State T ι := ⟨free, fun _ => .idle⟩

def sys (T : Type*) [DecidableEq T] (mine : ι → Bool) (free : List ι) : System (State T ι) (Label T ι) :=
  ⟨(· = full T free), step mine⟩

def see (p : State T ι) : Label T ι → Option (Event T ι)
  | .take t => some (.take t)
  | .took t =>
    match p.call t with
    | .took got => some (.took t got)
    | _ => none
  | .give t i => some (.give t i)
  | .gave t => some (.gave t)
  | _ => none

/-! ## A linked list of what is free -/

/-- From `i` on, the links lead through `l` to the end. -/
def Chained (next : ι → ι) (last : ι) : ι → List ι → Prop
  | i, [] => i = last
  | i, j :: l => i = j ∧ j ≠ last ∧ Chained next last (next j) l

variable {next next' : ι → ι} {last i j : ι} {l : List ι}

theorem Chained.nil_iff (h : Chained next last i l) : l = [] ↔ i = last := by
  cases l with
  | nil => exact ⟨fun _ => h, fun _ => rfl⟩
  | cons j l => exact ⟨nofun, fun heq => absurd (h.1 ▸ heq) h.2.1⟩

/-- The first one, where there is one. -/
theorem Chained.cons (h : Chained next last i l) (hne : i ≠ last) : ∃ rest, l = i :: rest ∧ Chained next last (next i) rest := by
  cases l with
  | nil => exact absurd h hne
  | cons j rest =>
    obtain ⟨rfl, _, hrest⟩ := h
    exact ⟨rest, rfl, hrest⟩

/-- Links of other things do not matter. -/
theorem Chained.congr (h : Chained next last i l) (hsame : ∀ j ∈ l, next' j = next j) : Chained next' last i l := by
  induction l generalizing i with
  | nil => exact h
  | cons j l ih =>
    obtain ⟨heq, hne, hrest⟩ := h
    refine ⟨heq, hne, ?_⟩
    rw [hsame j List.mem_cons_self]
    exact ih hrest fun k hk => hsame k (List.mem_cons_of_mem _ hk)

theorem Chained.push (h : Chained next last (next j) l) (hne : j ≠ last) : Chained next last j (j :: l) := ⟨rfl, hne, h⟩

end UnifiedCache.Base.Pool
