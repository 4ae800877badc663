/-
  UnifiedCache.NfsStore.Recycle — the recycler of the NFS store
  (ucm/store/nfsstore/cc/domain/space/space_recycle.cc, the walk of space_shard_layout.cc).

  `Trigger` starts the recycler thread if the thread does not say that it is running, and asks for
  a pass if none is asked for. The thread waits for a request or the destructor, goes over the data
  files of the first backend, keeps the `recycleNum` oldest in a top-N heap, removes them, and takes
  the request back.

  A call of `Trigger` looks at the flag, makes a thread and gives it to `worker_` in steps of their
  own; giving it to a `worker_` that holds a thread ends the process. The destructor runs when no
  call is under way, and none follows it. What a pass finds on disk is the label's: which
  directories open, what they list, and what `stat` says. Ages are in seconds, as the code has them.
-/

import Mathlib.Algebra.Group.Int.Defs
import UnifiedCache.Base.Transition
import UnifiedCache.Infra.TopNHeap

namespace UnifiedCache.NfsStore

open UnifiedCache.Base UnifiedCache.Infra

/-! ## The files of a backend -/

/-- A file that the walk gives out. -/
structure DataFile where
  path : String
  /-- `st_mtim.tv_sec`, or `none` if the file cannot be opened. -/
  mtime : Option Int
  deriving DecidableEq, Repr

/-- A directory under the data root and its entries, or `none` if it cannot be opened. -/
structure ShardDir where
  name : String
  entries : Option (List (String × Option Int))

/-- What is under the data root, or `none` if that cannot be opened. -/
abbrev DataRoot := Option (List ShardDir)

def isActivatedFile (name : String) : Bool := name.toList.reverse.take 3 == ['t', 'c', 'a']

/-- The entries that `Next` does not pass over. -/
def visible (name : String) : Bool := name.toList.head? != some '.' && !isActivatedFile name

def shardFiles (dataRoot shard : String) (entries : List (String × Option Int)) : List DataFile :=
  (entries.filter fun e => visible e.1).map fun e => ⟨dataRoot ++ "/" ++ shard ++ "/" ++ e.1, e.2⟩

/-- The files that `NextDataFilePath` gives, one after the other: none after a directory that
    cannot be opened. -/
def walkShards (dataRoot : String) : List ShardDir → List DataFile
  | [] => []
  | dir :: dirs =>
    if visible dir.name then
      match dir.entries with
      | none => []
      | some entries => shardFiles dataRoot dir.name entries ++ walkShards dataRoot dirs
    else walkShards dataRoot dirs

def walk (dataRoot : String) : DataRoot → List DataFile
  | none => []
  | some dirs => walkShards dataRoot dirs

/-- All data files of the backend that are in directories that open. -/
def dataFiles (dataRoot : String) (root : DataRoot) : List DataFile :=
  (root.getD []).flatMap fun dir => if visible dir.name then shardFiles dataRoot dir.name (dir.entries.getD []) else []

/-- `GetFileTimestamp`, a `size_t`. -/
def getFileTimestamp (f : DataFile) : Nat :=
  match f.mtime with
  | none => 0
  | some sec => (sec % 2 ^ 64).toNat

structure BlockInfo where
  path : String
  timestamp : Nat
  deriving DecidableEq, Repr

/-- `CmpTimestamp`. -/
def cmpTimestamp (lhs rhs : BlockInfo) : Bool := lhs.timestamp > rhs.timestamp

def maxRecycleNum : Nat := 10240

/-- `recycleNum_` as `Setup` makes it of a tenth of the total number. -/
def recycleNumOf (tenth : Nat) : Nat :=
  let recycleNum := if tenth = 0 then 1 else tenth
  if recycleNum > maxRecycleNum then maxRecycleNum else recycleNum

/-! ## States -/

/-- Where a call of `Trigger` is. -/
inductive Call where
  | create
  | assign
  | request
  | done
  deriving DecidableEq, Repr

/-- Where the recycler thread is; `begin` to `clear` is a pass. -/
inductive Pc where
  | start
  | wait
  | asleep
  | begin
  | scan
  | remove
  | clear
  | ended
  deriving DecidableEq, Repr

def Pc.inPass : Pc → Bool
  | .begin | .scan | .remove | .clear => true
  | _ => false

structure Recycler where
  pc : Pc
  /-- What the pass goes over, and the files of it that are left. -/
  root : DataRoot
  left : List DataFile
  earliestHeap : TopNHeap BlockInfo
  removed : List BlockInfo

structure Pass where
  root : DataRoot
  removed : List BlockInfo

structure State where
  stop : Bool
  recycling : Bool
  serviceRunning : Bool
  /-- Whether `worker_` holds a thread. -/
  joinable : Bool
  terminated : Bool
  calls : List Call
  /-- The threads ever made. -/
  threads : List Recycler
  /-- The passes that have ended. -/
  passes : List Pass

inductive Act where
  /-- The thread's next step. -/
  | run
  /-- The walk begins, over what is on disk. -/
  | open_ (root : DataRoot)
  /-- The thread wakes up for no reason. -/
  | wake

inductive Label where
  /-- A new call looks at `serviceRunning_`. -/
  | trigger
  | create (c : Nat)
  | assign (c : Nat)
  | request (c : Nat)
  | recycler (t : Nat) (act : Act)
  | destroy
  | join

/-! ## Steps -/

def emptyHeap (recycleNum : Nat) : TopNHeap BlockInfo := TopNHeap.make recycleNum fun _ => ⟨"", 0⟩

def newThread : Recycler := ⟨.start, none, [], emptyHeap 0, []⟩

/-- `notify_all`. -/
def notify (th : Recycler) : Recycler := if th.pc = .asleep then { th with pc := .wait } else th

/-- The body of `Recycler`, a step of it. -/
def recyclerStep (dataRoot : String) (recycleNum : Nat) (s : State) (th : Recycler) : Act → Option (State × Recycler)
  | .run =>
    match th.pc with
    | .start => some ({ s with serviceRunning := true }, { th with pc := .wait })
    | .wait =>
      if !(s.stop || s.recycling) then some (s, { th with pc := .asleep })
      else if s.stop then some (s, { th with pc := .ended })
      else some (s, { th with pc := .begin })
    | .scan =>
      match th.left with
      | [] => some (s, { th with pc := .remove })
      | f :: left =>
        let timestamp := getFileTimestamp f
        if timestamp = 0 then some (s, { th with left := left })
        else (th.earliestHeap.push cmpTimestamp ⟨f.path, timestamp⟩).map fun heap =>
          (s, { th with left := left, earliestHeap := heap })
    | .remove =>
      if th.earliestHeap.size = 0 then some (s, { th with pc := .clear })
      else
        (th.earliestHeap.pop cmpTimestamp).map fun heap =>
          (s, { th with removed := th.removed ++ [th.earliestHeap.top], earliestHeap := heap })
    | .clear => some ({ s with recycling := false, passes := s.passes ++ [⟨th.root, th.removed⟩] }, { th with pc := .wait })
    | _ => none
  | .open_ root =>
    if th.pc = .begin then
      some (s, { pc := .scan, root := root, left := walk dataRoot root, earliestHeap := emptyHeap recycleNum, removed := [] })
    else none
  | .wake => if th.pc = .asleep then some (s, { th with pc := .wait }) else none

def step (dataRoot : String) (recycleNum : Nat) (s : State) (a : Label) : Option State :=
  if s.terminated then none
  else
    match a with
    | .trigger =>
      if s.stop then none
      else some { s with calls := s.calls ++ [if !s.serviceRunning then .create else .request] }
    | .create c =>
      if s.calls[c]? = some .create then some { s with calls := s.calls.set c .assign, threads := s.threads ++ [newThread] }
      else none
    | .assign c =>
      if s.calls[c]? = some .assign then
        if s.joinable then some { s with terminated := true }
        else some { s with calls := s.calls.set c .request, joinable := true }
      else none
    | .request c =>
      if s.calls[c]? = some .request then
        if !s.recycling then
          some { s with calls := s.calls.set c .done, recycling := true, threads := s.threads.map notify }
        else some { s with calls := s.calls.set c .done }
      else none
    | .recycler t act =>
      match s.threads[t]? with
      | none => none
      | some th =>
        (recyclerStep dataRoot recycleNum s th act).map fun x => { x.1 with threads := x.1.threads.set t x.2 }
    | .destroy =>
      if !s.stop && s.calls.all (· = .done) then some { s with stop := true, threads := s.threads.map notify } else none
    | .join =>
      if s.stop && s.joinable && s.threads.all (·.pc = .ended) then some { s with joinable := false } else none

/-- Before the first call. -/
def State.initial : State := ⟨false, false, false, false, false, [], [], []⟩

/-- The recycler over a backend, after `Setup`. -/
def sys (dataRoot : String) (tenth : Nat) : System State Label where
  init s := s = State.initial
  step := step dataRoot (recycleNumOf tenth)

end UnifiedCache.NfsStore
