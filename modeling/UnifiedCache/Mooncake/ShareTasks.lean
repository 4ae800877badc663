/-
  UnifiedCache.Mooncake.ShareTasks — the load tasks of the Mooncake store over its shared buffer
  (ucm/store/mooncakestore/cc/{load_queue,share_load_queue}.cc; see `UnifiedCache.Mooncake.ShareBuffer`).

  The tasks of all processes are numbered together, and so are their latches and failure marks. A
  dispatcher gets what it can from the remote store (`DispatchOneTask`), and makes a reader for each
  shard that was missed (`ShareLoadQueue::Submit`); the blocks enter the wait list together, and the
  last of them to call its `done` calls the waiter's.

  A copy to the device moves any bytes until it is synchronised. Where one fails to be issued, some
  of its tensors may have been (`left`); where its synchronisation fails, it is still under way.
-/

import UnifiedCache.Detail.TaskWrapper
import UnifiedCache.Mooncake.ShareLoads

namespace UnifiedCache.Mooncake

open UnifiedCache.Base UnifiedCache.Detail

structure LoadsConfig (Byte : Type) where
  share : ShareConfig Byte
  backend : Bool

/-- Where a load task is. -/
inductive LoadPc where
  | queued
  /-- In `TryMooncakeLoad`. -/
  | getting
  /-- Before `ShareLoadQueue::Submit`. -/
  | missed
  /-- In its loop, before a shard. -/
  | making (i : Nat)
  /-- Its blocks have been spliced into the wait list. -/
  | spliced
  /-- It ended before that. -/
  | left
  deriving DecidableEq

structure LoadTask where
  nShard : Nat
  shard : Nat → Shard
  hit : Nat → Bool
  pc : LoadPc
  remaining : Nat

structure Loads (Byte : Type) where
  wrapper : TaskWrapper
  task : Nat → LoadTask
  share : Share Byte
  /-- Whose `MakeReader` has the buffer's lock. -/
  maker : Option Nat
  /-- Which shard of its task a block is. -/
  index : Nat → Nat
  /-- `done` has been called. -/
  done : Nat → Bool
  /-- Copies of the block are under way. -/
  issued : Nat → Bool
  dest : Nat → Nat → Nat → Byte
  moved : Nat → Nat → Bool

inductive LoadsLabel where
  | submit (n : Nat) (shard : Nat → Shard) (full : Bool)
  | wait (l : WaitLabel)
  | take (t : Nat)
  /-- `batch_get_into_multi_buffers` returns the shards it has got, or a wrong number of results. -/
  | get (t : Nat) (results : Option (Nat → Bool))
  | enqueue (t : Nat)
  /-- The loop goes on to the next shard, or ends. -/
  | next (t : Nat)
  | lock (t : Nat)
  | probe (t : Nat)
  /-- A block goes on. -/
  | block (l : ShareLabel) (left : Bool)
  /-- A copy to the device. -/
  | move (b o : Nat)

/-- The block that a step is of. -/
def ShareLabel.block : ShareLabel → Option Nat
  | .take b | .look b | .lockSlot b | .handle b _ | .write b _ | .endLoad b _ | .complete b _ | .copied b _ | .abandon
      b | .release b => some b
  | .lock _ | .probe _ | .timeout _ => none

/-- The block does not go without its `done`. -/
def ShareLabel.calls : ShareLabel → Bool
  | .abandon _ => false
  | _ => true

namespace Loads

variable {Byte : Type} (s : Loads Byte)

/-- The buffer, and the failure marks. -/
def view : Share Byte := { s.share with failureSet := s.wrapper.failureSet }

def setPc (t : Nat) (pc : LoadPc) : Loads Byte := { s with task := Function.update s.task t { s.task t with pc } }

/-- The dispatcher completes the task, marked failed unless `ok`. -/
def leave (ok : Bool) (t : Nat) : Loads Byte := { s.setPc t .left with wrapper := (s.wrapper.failIf (!ok) t).done t }

def missCount (t : Nat) : Nat := Nat.count (fun i => (s.task t).hit i = false) (s.task t).nShard

/-- The block's `done`. -/
def finish (b : Nat) : Loads Byte :=
  let t := (s.share.block b).taskHandle
  { s with
    done := Function.update s.done b true
    task := Function.update s.task t { s.task t with remaining := (s.task t).remaining - 1 }
    wrapper := if (s.task t).remaining = 1 then s.wrapper.done t else s.wrapper }

/-- Whether a copy of the block is under way after the step, which leaves it at `pc`. -/
def issues (b : Nat) (left : Bool) (pc : BlockPc) : ShareLabel → Bool
  | .copied _ true => false
  | .handle _ false =>
    match (s.share.block b).pc with
    | .returned _ .ok => s.issued b || left && !s.view.failed b
    | _ => s.issued b
  | _ => if pc = .copying then true else s.issued b

/-- A block has gone on with a step of the buffer. -/
def goesOn (b : Nat) (l : ShareLabel) (left : Bool) (share : Share Byte) : Loads Byte :=
  let s' := { s with
    share
    wrapper := { s.wrapper with failureSet := share.failureSet }
    issued := Function.update s.issued b (s.issues b left (share.block b).pc l) }
  if l.calls = true ∧ (share.block b).pc = .leaving ∧ (s.share.block b).pc ≠ .leaving then s'.finish b else s'

/-- A block is taken once its task has been spliced, and a synchronisation succeeds with all of the copy. -/
def allows (C : LoadsConfig Byte) : ShareLabel → Bool
  | .take b => decide ((s.task (s.share.block b).taskHandle).pc = .spliced)
  | .copied b true => decide (∀ o, o < C.share.blockSize → s.moved b o = true)
  | _ => true

/-- `MakeReader` returns with a block for the shard `i` of the task. -/
def made (t i : Nat) (share : Share Byte) : Loads Byte :=
  { s.setPc t (.making (i + 1)) with
    share
    maker := none
    index := Function.update s.index s.share.nBlock i
    done := Function.update s.done s.share.nBlock false
    issued := Function.update s.issued s.share.nBlock false
    moved := Function.update s.moved s.share.nBlock fun _ => false }

end Loads

def loadsStep {Byte : Type} (C : LoadsConfig Byte) (s : Loads Byte) : LoadsLabel → Option (Loads Byte)
  | .submit n shard full =>
    let t := s.wrapper.nTask
    let s' := { s with wrapper := s.wrapper.submit 1, task := Function.update s.task t ⟨n, shard, fun _ => false, .queued, 0⟩ }
    some (if full then s'.leave false t else s')
  | .wait l => (waitStep false s.wrapper l).map fun w => { s with wrapper := w }
  | .take t =>
    if t < s.wrapper.nTask ∧ (s.task t).pc = .queued then
      if s.wrapper.failureSet t then some (s.leave true t) else some (s.setPc t .getting)
    else none
  | .get t results =>
    if t < s.wrapper.nTask ∧ (s.task t).pc = .getting then
      match results with
      | none => some (s.leave false t)
      | some hit =>
        let s' := { s with
          task := Function.update s.task t { s.task t with hit }
          dest := Function.update s.dest t fun i =>
            if i < (s.task t).nShard ∧ hit i = true then C.share.backend ((s.task t).shard i) else s.dest t i }
        if s'.missCount t = 0 ∨ C.backend = false then some (s'.leave true t) else some (s'.setPc t .missed)
    else none
  | .enqueue t =>
    if t < s.wrapper.nTask ∧ (s.task t).pc = .missed then
      if s.wrapper.failureSet t then some (s.leave true t)
      else some { s with task := Function.update s.task t { s.task t with pc := .making 0, remaining := s.missCount t } }
    else none
  | .next t =>
    if t < s.wrapper.nTask then
      match (s.task t).pc with
      | .making i =>
        if i < (s.task t).nShard then if (s.task t).hit i = true then some (s.setPc t (.making (i + 1))) else none
        else some (s.setPc t .spliced)
      | _ => none
    else none
  | .lock t =>
    if t < s.wrapper.nTask then
      match (s.task t).pc with
      | .making i =>
        if i < (s.task t).nShard ∧ (s.task t).hit i = false then
          (shareStep C.share s.view (.lock ((s.task t).shard i))).map fun share => { s with share, maker := some t }
        else none
      | _ => none
    else none
  | .probe t =>
    if s.maker = some t then
      match (s.task t).pc with
      | .making i =>
        (shareStep C.share s.view (.probe t)).map fun share => if share.nBlock = s.share.nBlock then { s with share }
        else s.made t i share
      | _ => none
    else none
  | .block l left =>
    match l.block with
    | some b => if s.allows C l = true then (shareStep C.share s.view l).map fun share => s.goesOn b l left share else none
    | none => none
  | .move b o =>
    if b < s.share.nBlock ∧ s.issued b = true ∧ o < C.share.blockSize then
      let t := (s.share.block b).taskHandle
      some { s with
        dest := Function.update s.dest t
          (Function.update (s.dest t) (s.index b) (Function.update (s.dest t (s.index b)) o (s.share.dataOf b o)))
        moved := Function.update s.moved b (Function.update (s.moved b) o true) }
    else none

/-- `TransManager::Setup`, for all of the processes. -/
structure Loads.IsInit {Byte : Type} (s : Loads Byte) : Prop where
  wrapper : s.wrapper = .init
  share : s.share.IsInit
  maker : s.maker = none

def sharedLoads {Byte : Type} (C : LoadsConfig Byte) : System (Loads Byte) LoadsLabel where
  init := Loads.IsInit
  step := loadsStep C

end UnifiedCache.Mooncake
