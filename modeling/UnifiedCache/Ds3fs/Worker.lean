/-
  UnifiedCache.Ds3fs.Worker — one worker of the DS3FS store
  (ucm/store/ds3fs/cc/{trans_queue.cc,trans_queue.h,space_layout.cc,ds3fs_store.cc} over
  ucm/store/detail/template/task_wrapper.h).

  Actors: callers of `Submit` and `Wait`, the worker, which takes the units of the tasks in their
  order, and the USRBIO library. A worker has one bounce buffer (`iov`) and one ring for each
  direction. A ring holds the I/Os that are prepared, those submitted, which complete in their
  order and at any time, and the completions that no one has taken yet. A completion moves bytes
  between the file and the bounce buffer as these are at that moment; where the result is not an
  error, it is the number of bytes moved.

  An open file keeps its inode when its name goes away, and so does an I/O on it. What `addrs[j]`
  of a load has received is `mem`; the bytes there of a dump are `data`. A task has a shard
  (`ios.front()`). Left out: closing the descriptors, `hf3fs_dereg_fd`, logs.

  Ghosts: the inode that a unit has opened (`target`), what `H2S` or `S2H` returned for it
  (`outcome`), whether an I/O of its own for an address has completed in full (`full`), how often
  it has counted its waiter down, what block a file was made for, and what the files had before the
  worker was made (`old`).
-/

import UnifiedCache.Base.Transition
import UnifiedCache.Detail.Accounting

namespace UnifiedCache.Ds3fs

open UnifiedCache.Base UnifiedCache.Detail

/-! ## Configuration -/

/-- What `CheckConfig` lets through of the sizes of a worker. -/
structure Config where
  tensorSize : Nat
  shardSize : Nat
  blockSize : Nat
  tensor_pos : tensorSize ≠ 0
  tensor_le : tensorSize ≤ shardSize
  shard_le : shardSize ≤ blockSize
  tensor_dvd : shardSize % tensorSize = 0
  shard_dvd : blockSize % shardSize = 0

namespace Config

variable (C : Config)

def nShardPerBlock : Nat := C.blockSize / C.shardSize

/-- How many addresses a shard has, each of the tensor size. -/
def nTensor : Nat := C.shardSize / C.tensorSize

/-- `ios.shard.index + 1 == nShardPerBlock_`. -/
def isLast (index : Nat) : Bool := index + 1 = C.nShardPerBlock

end Config

/-! ## Files -/

structure Files (Byte : Type) where
  nextIno : Nat
  activated : Nat → Option Nat
  archived : Nat → Option Nat
  content : Nat → Nat → Option Byte
  /-- The block that a file was made for. -/
  block : Nat → Nat

namespace Files

variable {Byte : Type} (f : Files Byte)

/-- `Open(CREATE | WRITE_ONLY)` of the activated file. -/
def openActivated (b : Nat) : Files Byte × Nat :=
  match f.activated b with
  | some ino => (f, ino)
  | none =>
    ({ f with
      nextIno := f.nextIno + 1
      activated := Function.update f.activated b (some f.nextIno)
      block := Function.update f.block f.nextIno b }, f.nextIno)

/-- `CommitFile`; `renamed`: the outcome of `MkDir` and `Rename` where the activated file exists. -/
def commitFile (b : Nat) (success renamed : Bool) : Files Byte :=
  match f.activated b with
  | none => f
  | some ino =>
    let f := { f with activated := Function.update f.activated b none }
    if success && renamed then { f with archived := Function.update f.archived b (some ino) } else f

/-- A write of `n` bytes of `src`. -/
def write (ino offset n : Nat) (src : Nat → Byte) : Files Byte :=
  { f with
    content := Function.update f.content ino fun o => if offset ≤ o ∧ o < offset + n then some (src (o - offset))
      else f.content ino o }

end Files

/-! ## Rings -/

/-- An I/O of a unit for the address `addrs[addr]`. -/
structure Io where
  unit : Nat
  addr : Nat
  ino : Nat
  offset : Nat
  deriving DecidableEq

structure Ring where
  prepared : List Io
  inflight : List Io
  /-- With the result, `none` being an error. -/
  cqes : List (Io × Option Nat)
  deriving DecidableEq

namespace Ring

def new : Ring := ⟨[], [], []⟩

variable (r : Ring)

/-- `hf3fs_prep_io`. -/
def prepIo (io : Io) : Ring := { r with prepared := r.prepared ++ [io] }

/-- `hf3fs_submit_ios`. -/
def submitIos : Ring := { r with prepared := [], inflight := r.inflight ++ r.prepared }

end Ring

/-! ## The worker -/

structure IoUnit (Byte : Type) where
  owner : Nat
  isLoad : Bool
  block : Nat
  index : Nat
  data : Nat → Nat → Byte

inductive Pc where
  | idle
  /-- Past the look at the failure set. -/
  | passed (u : Nat)
  | opened (u ino : Nat)
  | registered (u ino : Nat)
  /-- A dump's data is in the bounce buffer. -/
  | filled (u ino : Nat)
  | prepared (u ino : Nat)
  | submitted (u ino : Nat)
  /-- With the completion it has taken. -/
  | completed (u ino : Nat) (cqe : Io × Option Nat)
  /-- A load past `CheckIoResult`. -/
  | checked (u ino : Nat)
  /-- `H2S` or `S2H` has returned. -/
  | ended (u : Nat) (ok : Bool)
  /-- Past the commit. -/
  | closing (u : Nat) (ok : Bool)
  /-- About to call `Done`. -/
  | counting (u : Nat)
  deriving DecidableEq

/-- The unit that the worker has. -/
def Pc.unit : Pc → Option Nat
  | .idle => none
  | .passed u | .opened u _ | .registered u _ | .filled u _ | .prepared u _ | .submitted u _ | .completed u _ _ | .checked u _
  | .ended u _ | .closing u _ | .counting u => some u

structure Worker (Byte : Type) where
  wrapper : TaskWrapper
  nUnit : Nat
  unit : Nat → IoUnit Byte
  queue : List Nat
  pc : Pc
  ior : Bool → Ring
  iov : Nat → Byte
  mem : Nat → Nat → Nat → Option Byte
  files : Files Byte
  target : Nat → Option Nat
  outcome : Nat → Option Bool
  full : Nat → Nat → Bool
  counted : Nat → Nat
  old : Nat → Nat → Option Byte

namespace Worker

variable {Byte : Type} (C : Config) (s : Worker Byte)

/-- `Submit`, and `Push` of a unit for each shard. -/
def submit (isLoad : Bool) (shards : List (Nat × Nat × (Nat → Nat → Byte))) : Worker Byte :=
  { s with
    wrapper := s.wrapper.submit shards.length
    nUnit := s.nUnit + shards.length
    unit := fun u =>
      match shards[u - s.nUnit]? with
      | some (block, index, data) => if s.nUnit ≤ u then ⟨s.wrapper.nTask, isLoad, block, index, data⟩ else s.unit u
      | none => s.unit u
    queue := s.queue ++ (List.range shards.length).map (s.nUnit + ·) }

/-- `shardSize_ * ios.shard.index`. -/
def offset (u : Nat) : Nat := C.shardSize * (s.unit u).index

def setRing (read : Bool) (r : Ring) : Worker Byte := { s with ior := Function.update s.ior read r }

/-- `H2S` or `S2H` returns. -/
def ret (u : Nat) (ok : Bool) : Worker Byte := { s with pc := .ended u ok, outcome := Function.update s.outcome u (some ok) }

def open_ (u : Nat) : Option (Worker Byte) :=
  let x := s.unit u
  if x.isLoad then
    (s.files.archived x.block).map fun ino => { s with pc := .opened u ino, target := Function.update s.target u (some ino) }
  else
    let (files, ino) := s.files.openActivated x.block
    some { s with pc := .opened u ino, target := Function.update s.target u (some ino), files }

/-- `memcpy` of `ioSize_` bytes to the bounce buffer. -/
def fill (u ino : Nat) : Worker Byte :=
  { s with
    pc := .filled u ino
    iov := fun k => if k < C.tensorSize then (s.unit u).data 0 k else s.iov k }

def prepIo (u ino : Nat) : Worker Byte :=
  let read := (s.unit u).isLoad
  { s.setRing read ((s.ior read).prepIo ⟨u, 0, ino, s.offset C u⟩) with pc := .prepared u ino }

/-- The bytes that a completion moves. -/
def move (read : Bool) (io : Io) (moved : Nat) : Worker Byte :=
  if read then { s with iov := fun k => if k < moved then (s.files.content io.ino (io.offset + k)).getD (s.iov k) else s.iov k }
  else { s with files := s.files.write io.ino io.offset moved s.iov }

/-- The first of the submitted I/Os completes. -/
def complete (read : Bool) (io : Io) (rest : List Io) (moved : Nat) (result : Option Nat) : Worker Byte :=
  let s := s.move read io moved
  { s.setRing read { s.ior read with inflight := rest, cqes := (s.ior read).cqes ++ [(io, result)] } with
    full := if result = some C.tensorSize
      then Function.update s.full io.unit (Function.update (s.full io.unit) io.addr true) else s.full }

/-- `memcpy` of `ioSize_` bytes to the shard's first address. -/
def copyOut (u : Nat) : Worker Byte :=
  { s with
    mem := Function.update s.mem u (Function.update (s.mem u) 0 fun k => if k < C.tensorSize then some (s.iov k)
      else s.mem u 0 k) }

/-- The worker's function returns, its unit counted down. -/
def count (u : Nat) : Worker Byte :=
  { s with
    wrapper := s.wrapper.done (s.unit u).owner
    pc := .idle
    counted := Function.update s.counted u (s.counted u + 1) }

end Worker

inductive WorkerLabel (Byte : Type) where
  | submit (isLoad : Bool) (shards : List (Nat × Nat × (Nat → Nat → Byte)))
  | wait (l : WaitLabel)
  /-- The next unit is taken, and the failure set looked at. -/
  | start
  | open_ (ok : Bool)
  /-- `hf3fs_reg_fd`. -/
  | register (ok : Bool)
  | fill
  | prepIo (ok : Bool)
  /-- `hf3fs_submit_ios`; the I/Os may be taken where it fails. -/
  | submitIos (ok taken : Bool)
  /-- `hf3fs_wait_for_ios`. -/
  | waitForIos (ok : Bool)
  /-- `CheckIoResult`. -/
  | check
  | copyOut
  | commit (renamed : Bool)
  | finish
  | count
  /-- An I/O completes, `moved` bytes having been moved. -/
  | complete (read : Bool) (moved : Nat) (result : Option Nat)

def workerStep {Byte : Type} (C : Config) (s : Worker Byte) : WorkerLabel Byte → Option (Worker Byte)
  | .submit isLoad shards => if shards = [] then none else some (s.submit isLoad shards)
  | .wait l => (waitStep false s.wrapper l).map fun w => { s with wrapper := w }
  | .start =>
    match s.pc, s.queue with
    | .idle, u :: rest =>
      some { s with queue := rest, pc := if s.wrapper.failureSet (s.unit u).owner then .counting u else .passed u }
    | _, _ => none
  | .open_ ok =>
    match s.pc with
    | .passed u => if ok then s.open_ u else some (s.ret u false)
    | _ => none
  | .register ok =>
    match s.pc with
    | .opened u ino => if ok then some { s with pc := .registered u ino } else some (s.ret u false)
    | _ => none
  | .fill =>
    match s.pc with
    | .registered u ino => if (s.unit u).isLoad then none else some (s.fill C u ino)
    | _ => none
  | .prepIo ok =>
    match s.pc with
    | .registered u ino =>
      if (s.unit u).isLoad then if ok then some (s.prepIo C u ino) else some (s.ret u false)
      else none
    | .filled u ino => if ok then some (s.prepIo C u ino) else some (s.ret u false)
    | _ => none
  | .submitIos ok taken =>
    match s.pc with
    | .prepared u ino =>
      let read := (s.unit u).isLoad
      let s' := if taken then s.setRing read (s.ior read).submitIos else s
      if ok then if taken then some { s' with pc := .submitted u ino } else none
      else some (s'.ret u false)
    | _ => none
  | .waitForIos ok =>
    match s.pc with
    | .submitted u ino =>
      let read := (s.unit u).isLoad
      if ok then
        match (s.ior read).cqes with
        | cqe :: rest => some { s.setRing read { s.ior read with cqes := rest } with pc := .completed u ino cqe }
        | [] => none
      else some (s.ret u false)
    | _ => none
  | .check =>
    match s.pc with
    | .completed u ino (_, result) =>
      if result.isNone then some (s.ret u false)
      else if (s.unit u).isLoad then some { s with pc := .checked u ino }
      else some (s.ret u true)
    | _ => none
  | .copyOut =>
    match s.pc with
    | .checked u _ => some ((s.copyOut C u).ret u true)
    | _ => none
  | .commit renamed =>
    match s.pc with
    | .ended u ok =>
      if !(s.unit u).isLoad && C.isLast (s.unit u).index then
        some { s with pc := .closing u ok, files := s.files.commitFile (s.unit u).block ok renamed }
      else none
    | _ => none
  | .finish =>
    match s.pc with
    | .ended u ok =>
      if !(s.unit u).isLoad && C.isLast (s.unit u).index then none
      else some { s with pc := .counting u, wrapper := s.wrapper.failIf (!ok) (s.unit u).owner }
    | .closing u ok => some { s with pc := .counting u, wrapper := s.wrapper.failIf (!ok) (s.unit u).owner }
    | _ => none
  | .count =>
    match s.pc with
    | .counting u => some (s.count u)
    | _ => none
  | .complete read moved result =>
    match (s.ior read).inflight with
    | io :: rest =>
      if moved ≤ C.tensorSize ∧ (result = none ∨ result = some moved) ∧
          (read = true → ∀ k, k < moved → (s.files.content io.ino (io.offset + k)).isSome = true) then
        some (s.complete C read io rest moved result)
      else none
    | [] => none

/-- The file has all bytes of the block. -/
def HasBlock {Byte : Type} (C : Config) (f : Files Byte) (ino : Nat) : Prop :=
  ∀ o, o < C.blockSize → (f.content ino o).isSome = true

/-- A new worker, on files of earlier runs: those that are archived are complete. -/
structure Worker.IsInit {Byte : Type} (C : Config) (s : Worker Byte) : Prop where
  wrapper : s.wrapper = .init
  nUnit : s.nUnit = 0
  queue : s.queue = []
  pc : s.pc = .idle
  ior : ∀ read, s.ior read = .new
  archived : ∀ b ino, s.files.archived b = some ino →
    ino < s.files.nextIno ∧ s.files.block ino = b ∧ HasBlock C s.files ino ∧ ∀ b', s.files.activated b' ≠ some ino
  activated : ∀ b ino, s.files.activated b = some ino → ino < s.files.nextIno ∧ s.files.block ino = b
  outcome : ∀ u, s.outcome u = none
  counted : ∀ u, s.counted u = 0
  old : s.old = s.files.content

def worker {Byte : Type} (C : Config) : System (Worker Byte) (WorkerLabel Byte) where
  init := Worker.IsInit C
  step := workerStep C

/-! ## What a step does -/

/-- The unit whose transfer has not ended. -/
def Pc.working : Pc → Option Nat
  | .passed u | .opened u _ | .registered u _ | .filled u _ | .prepared u _ | .submitted u _ | .completed u _
      _ | .checked u _ => some u
  | .idle | .ended _ _ | .closing _ _ | .counting _ => none

/-- The steps, by what they do. -/
inductive WorkerCase {Byte : Type} (C : Config) (s : Worker Byte) : WorkerLabel Byte → Worker Byte → Prop
  | submit {isLoad : Bool} {shards : List (Nat × Nat × (Nat → Nat → Byte))} (hne : shards ≠ []) :
    WorkerCase C s (.submit isLoad shards) (s.submit isLoad shards)
  | wait {l : WaitLabel} {w : TaskWrapper} (hw : waitStep false s.wrapper l = some w) :
      WorkerCase C s (.wait l) { s with wrapper := w }
  | skip {u : Nat} {rest : List Nat} (hpc : s.pc = .idle) (hq : s.queue = u :: rest)
    (hf : s.wrapper.failureSet (s.unit u).owner = true) : WorkerCase C s .start { s with queue := rest, pc := .counting u }
  | start {u : Nat} {rest : List Nat} (hpc : s.pc = .idle) (hq : s.queue = u :: rest) :
    WorkerCase C s .start { s with queue := rest, pc := .passed u }
  | openRead {u ino : Nat} (hpc : s.pc = .passed u) (hl : (s.unit u).isLoad = true)
      (ha : s.files.archived (s.unit u).block = some ino) :
    WorkerCase C s (.open_ true) { s with pc := .opened u ino, target := Function.update s.target u (some ino) }
  | openWrite {u ino : Nat} {f : Files Byte} (hpc : s.pc = .passed u) (hl : (s.unit u).isLoad = false)
    (ho : s.files.openActivated (s.unit u).block = (f, ino)) :
    WorkerCase C s (.open_ true) { s with pc := .opened u ino, target := Function.update s.target u (some ino), files := f }
  | register {u ino : Nat} (hpc : s.pc = .opened u ino) : WorkerCase C s (.register true) { s with pc := .registered u ino }
  | fill {u ino : Nat} (hpc : s.pc = .registered u ino) (hl : (s.unit u).isLoad = false) : WorkerCase C s .fill (s.fill C u ino)
  | prepRead {u ino : Nat} (hpc : s.pc = .registered u ino) (hl : (s.unit u).isLoad = true) :
    WorkerCase C s (.prepIo true) (s.prepIo C u ino)
  | prepWrite {u ino : Nat} (hpc : s.pc = .filled u ino) : WorkerCase C s (.prepIo true) (s.prepIo C u ino)
  | submitIos {u ino : Nat} (hpc : s.pc = .prepared u ino) : WorkerCase C s (.submitIos true true)
    { s.setRing (s.unit u).isLoad (s.ior (s.unit u).isLoad).submitIos with pc := .submitted u ino }
  | waitForIos {u ino : Nat} {cqe : Io × Option Nat} {rest : List (Io × Option Nat)} (hpc : s.pc = .submitted u ino)
    (hc : (s.ior (s.unit u).isLoad).cqes = cqe :: rest) : WorkerCase C s (.waitForIos true)
    { s.setRing (s.unit u).isLoad { s.ior (s.unit u).isLoad with cqes := rest } with pc := .completed u ino cqe }
  | checkRead {u ino : Nat} {cqe : Io × Option Nat} (hpc : s.pc = .completed u ino cqe) (hr : cqe.2 ≠ none)
    (hl : (s.unit u).isLoad = true) : WorkerCase C s .check { s with pc := .checked u ino }
  | checkWrite {u ino : Nat} {cqe : Io × Option Nat} (hpc : s.pc = .completed u ino cqe) (hr : cqe.2 ≠ none)
    (hl : (s.unit u).isLoad = false) : WorkerCase C s .check (s.ret u true)
  | copyOut {u ino : Nat} (hpc : s.pc = .checked u ino) : WorkerCase C s .copyOut ((s.copyOut C u).ret u true)
  | fail {l : WorkerLabel Byte} {u : Nat} (hpc : s.pc.working = some u) : WorkerCase C s l (s.ret u false)
  | submitFail {u ino : Nat} (hpc : s.pc = .prepared u ino) : WorkerCase C s (.submitIos false true)
    ((s.setRing (s.unit u).isLoad (s.ior (s.unit u).isLoad).submitIos).ret u false)
  | commit {u : Nat} {ok renamed : Bool} (hpc : s.pc = .ended u ok) (hl : (s.unit u).isLoad = false)
    (hlast : C.isLast (s.unit u).index = true) :
    WorkerCase C s (.commit renamed) { s with pc := .closing u ok, files := s.files.commitFile (s.unit u).block ok renamed }
  | finish {u : Nat} {ok : Bool} (hpc : s.pc = .ended u ok ∨ s.pc = .closing u ok) :
    WorkerCase C s .finish { s with pc := .counting u, wrapper := s.wrapper.failIf (!ok) (s.unit u).owner }
  | count {u : Nat} (hpc : s.pc = .counting u) : WorkerCase C s .count (s.count u)
  | complete {read : Bool} {io : Io} {rest : List Io} {moved : Nat} {result : Option Nat}
      (hi : (s.ior read).inflight = io :: rest)
    (hmoved : moved ≤ C.tensorSize) (hres : result = none ∨ result = some moved)
    (hread : read = true → ∀ k, k < moved → (s.files.content io.ino (io.offset + k)).isSome = true) :
    WorkerCase C s (.complete read moved result) (s.complete C read io rest moved result)

theorem workerStep_case {Byte : Type} {C : Config} {s s' : Worker Byte} {l : WorkerLabel Byte} (h : workerStep C s l = some s') :
    WorkerCase C s l s' := by
  cases l with
  | submit isLoad shards =>
    simp only [workerStep, Option.ite_none_left_eq_some, Option.some.injEq] at h
    obtain ⟨hne, rfl⟩ := h
    exact .submit hne
  | wait l =>
    simp only [workerStep, Option.map_eq_some_iff] at h
    obtain ⟨w, hw, rfl⟩ := h
    exact .wait hw
  | start =>
    simp only [workerStep] at h
    split at h
    · next u rest hpc hq =>
      obtain rfl := Option.some.inj h
      split
      · next hf => exact .skip hpc hq hf
      · exact .start hpc hq
    · cases h
  | open_ ok =>
    simp only [workerStep] at h
    split at h
    · next u hpc =>
      cases ok with
      | false =>
        obtain rfl := Option.some.inj h
        exact .fail (by rw [hpc]; rfl)
      | true =>
        simp only [↓reduceIte, Worker.open_] at h
        split at h
        · next hl =>
          obtain ⟨ino, ha, rfl⟩ := Option.map_eq_some_iff.mp h
          exact .openRead hpc hl ha
        · next hl =>
          obtain rfl := Option.some.inj h
          exact .openWrite hpc (by simpa using hl) rfl
    · cases h
  | register ok =>
    simp only [workerStep] at h
    split at h
    · next u ino hpc =>
      split at h
      · next hok =>
        subst hok
        obtain rfl := Option.some.inj h
        exact .register hpc
      · obtain rfl := Option.some.inj h
        exact .fail (by rw [hpc]; rfl)
    · cases h
  | fill =>
    simp only [workerStep] at h
    split at h
    · next u ino hpc =>
      simp only [Option.ite_none_left_eq_some, Option.some.injEq] at h
      obtain ⟨hl, rfl⟩ := h
      exact .fill hpc (by simpa using hl)
    · cases h
  | prepIo ok =>
    simp only [workerStep] at h
    split at h
    · next u ino hpc =>
      split at h
      · next hl =>
        split at h
        · next hok =>
          subst hok
          obtain rfl := Option.some.inj h
          exact .prepRead hpc hl
        · obtain rfl := Option.some.inj h
          exact .fail (by rw [hpc]; rfl)
      · cases h
    · next u ino hpc =>
      split at h
      · next hok =>
        subst hok
        obtain rfl := Option.some.inj h
        exact .prepWrite hpc
      · obtain rfl := Option.some.inj h
        exact .fail (by rw [hpc]; rfl)
    · cases h
  | submitIos ok taken =>
    simp only [workerStep] at h
    split at h
    · next u ino hpc =>
      cases ok <;> cases taken <;> simp only [Bool.false_eq_true, ↓reduceIte, Option.some.injEq, reduceCtorEq] at h
      · subst h
        exact .fail (by rw [hpc]; rfl)
      · subst h
        exact .submitFail hpc
      · subst h
        exact .submitIos hpc
    · cases h
  | waitForIos ok =>
    simp only [workerStep] at h
    split at h
    · next u ino hpc =>
      split at h
      · next hok =>
        subst hok
        split at h
        · next cqe rest hc =>
          obtain rfl := Option.some.inj h
          exact .waitForIos hpc hc
        · cases h
      · obtain rfl := Option.some.inj h
        exact .fail (by rw [hpc]; rfl)
    · cases h
  | check =>
    simp only [workerStep] at h
    split at h
    · next u ino io result hpc =>
      split at h
      · obtain rfl := Option.some.inj h
        exact .fail (by rw [hpc]; rfl)
      · next hr =>
        have hr : result ≠ none := fun e => hr (by rw [e]; rfl)
        split at h
        · next hl =>
          obtain rfl := Option.some.inj h
          exact .checkRead hpc hr hl
        · next hl =>
          obtain rfl := Option.some.inj h
          exact .checkWrite hpc hr (by simpa using hl)
    · cases h
  | copyOut =>
    simp only [workerStep] at h
    split at h
    · next u ino hpc =>
      obtain rfl := Option.some.inj h
      exact .copyOut hpc
    · cases h
  | commit renamed =>
    simp only [workerStep] at h
    split at h
    · next u ok hpc =>
      simp only [Option.ite_none_right_eq_some, Option.some.injEq, Bool.and_eq_true, Bool.not_eq_true'] at h
      obtain ⟨⟨hl, hlast⟩, rfl⟩ := h
      exact .commit hpc hl hlast
    · cases h
  | finish =>
    simp only [workerStep] at h
    split at h
    · next u ok hpc =>
      simp only [Option.ite_none_left_eq_some, Option.some.injEq] at h
      obtain ⟨-, rfl⟩ := h
      exact .finish (.inl hpc)
    · next u ok hpc =>
      obtain rfl := Option.some.inj h
      exact .finish (.inr hpc)
    · cases h
  | count =>
    simp only [workerStep] at h
    split at h
    · next u hpc =>
      obtain rfl := Option.some.inj h
      exact .count hpc
    · cases h
  | complete read moved result =>
    simp only [workerStep] at h
    split at h
    · next io rest hi =>
      simp only [Option.ite_none_right_eq_some, Option.some.injEq] at h
      obtain ⟨⟨hmoved, hres, hread⟩, rfl⟩ := h
      exact .complete hi hmoved hres hread
    · cases h

end UnifiedCache.Ds3fs
