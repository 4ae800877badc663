/-
  UnifiedCache.PcStore.ShareBuffer — the read buffer that the processes of a node share
  (ucm/store/pcstore/cc/domain/trans/share_buffer.{cc,h}).

  Actors: any number of threads of any number of processes. `MakeReader` goes through the slots
  under the buffer's lock, one slot a step (`UnifiedCache.Base.Probing`); releases and
  `Ready4Read` calls go on meanwhile. A call looks at the status three times without the slot's
  lock, each look a step. `File::Read` moves any bytes in any order and succeeds only with all of
  them. A reader is released when no call of it is under way; one that could not be allocated is
  one that is released at once. Memory is sequentially consistent.

  A block id is its 16 bytes read as two words, which is what `ShareBlockId` keeps of it. A block's
  file does not change.

  Ghosts: the key of a slot and the references at the start of a lookup (see there), how often a
  slot's file has been read in a round, and the bytes that a call's read has moved.
-/

import UnifiedCache.Base.Transition
import UnifiedCache.Base.Tally
import UnifiedCache.Base.Probing

namespace UnifiedCache.PcStore

open UnifiedCache.Base

structure ShareBlockId where
  lo : BitVec 64
  hi : BitVec 64
  deriving DecidableEq

inductive ShareBlockStatus where
  | init
  | loading
  | loaded
  | failure
  deriving DecidableEq

structure Round where
  status : ShareBlockStatus
  /-- How many reads of the file it has seen. -/
  reads : Nat
  deriving DecidableEq

structure ShareConfig (Byte : Type) where
  blockNumber : Nat
  blockNumber_pos : 0 < blockNumber
  hasher : ShareBlockId → Nat
  /-- `length_`. -/
  length : Nat
  file : ShareBlockId → Nat → Byte

/-- `ShareBlockId::Used`, `Refer` and `Occupy`. -/
def ShareConfig.probing {Byte : Type} (C : ShareConfig Byte) : Probing ShareBlockId ShareBlockId Round where
  n := C.blockNumber
  n_pos := C.blockNumber_pos
  home := C.hasher
  digest k := k
  unused := ⟨0, 0⟩
  fresh := ⟨.init, 0⟩
  revive r := if r.status = .loaded then r else ⟨.init, 0⟩

structure Reader where
  key : ShareBlockId
  /-- The slot, or none for a private buffer. -/
  pos : Option Nat
  alive : Bool

/-- What `Ready4Read` returns. -/
inductive ReadStatus where
  | ok
  | error
  | retry
  deriving DecidableEq

/-- Where a call of `Ready4Read` is. -/
inductive CallPc where
  | checkLoaded
  | checkFailure
  | checkLoading
  | locking
  | reading
  /-- The read has returned. -/
  | read (ok : Bool)
  | returned (s : ReadStatus)
  deriving DecidableEq

/-- The call reads the file. -/
def CallPc.loads : CallPc → Bool
  | .reading | .read _ => true
  | _ => false

def CallPc.over : CallPc → Bool
  | .returned _ => true
  | _ => false

structure Call where
  reader : Nat
  pc : CallPc

structure Share (Byte : Type) where
  table : Table ShareBlockId ShareBlockId Round
  nReader : Nat
  reader : Nat → Reader
  nCall : Nat
  call : Nat → Call
  /-- The data of the slots. -/
  data : Nat → Nat → Byte
  /-- The private buffers. -/
  priv : Nat → Nat → Byte
  got : Nat → Nat → Bool

inductive ShareLabel where
  /-- `MakeReader` gets the buffer's lock. -/
  | lock (k : ShareBlockId)
  /-- The next slot. -/
  | probe
  | release (r : Nat)
  | call (r : Nat)
  /-- The next look at the status. -/
  | check (c : Nat)
  /-- The slot's lock section. -/
  | lockSlot (c : Nat)
  /-- The read moves a byte. -/
  | copy (c o : Nat)
  | readEnd (c : Nat) (ok : Bool)
  /-- The status is set, and the call returns. -/
  | settle (c : Nat)

namespace Share

variable {Byte : Type} (C : ShareConfig Byte) (s : Share Byte)

/-- The reader of a call. -/
def of (c : Nat) : Reader := s.reader (s.call c).reader

def status (p : Nat) : ShareBlockStatus := (s.table.slot p).status.status

def addReader (t : Table ShareBlockId ShareBlockId Round) (k : ShareBlockId) (pos : Option Nat) : Share Byte :=
  { s with table := t, nReader := s.nReader + 1, reader := Function.update s.reader s.nReader ⟨k, pos, true⟩ }

def setPc (c : Nat) (pc : CallPc) : Share Byte := { s with call := Function.update s.call c { s.call c with pc } }

/-- The read of the file begins. -/
def startRead (c : Nat) : Share Byte := { s.setPc c .reading with got := Function.update s.got c fun _ => false }

def setStatus (p : Nat) (r : Round) : Share Byte := { s with table := s.table.setStatus p r }

/-- The next step of `AcquireBlock`, and what `MakeReader` makes of it. -/
def probe : Option (Share Byte) :=
  match s.table.scan, s.table.probe C.probing with
  | some _, some (t, .goesOn) => some { s with table := t }
  | some c, some (t, .found p) => some (s.addReader t c.key (some p))
  | some c, some (t, .full) => some (s.addReader t c.key none)
  | _, _ => none

/-- The bytes at `GetData()`. -/
def dataOf (r : Nat) : Nat → Byte :=
  match (s.reader r).pos with
  | some p => s.data p
  | none => s.priv r

/-- A byte of the file comes to the buffer. -/
def copy (c o : Nat) : Share Byte :=
  let r := (s.call c).reader
  let byte := C.file (s.of c).key o
  let s := { s with got := Function.update s.got c (Function.update (s.got c) o true) }
  match (s.of c).pos with
  | some p => { s with data := Function.update s.data p (Function.update (s.data p) o byte) }
  | none => { s with priv := Function.update s.priv r (Function.update (s.priv r) o byte) }

end Share

def shareStep {Byte : Type} (C : ShareConfig Byte) (s : Share Byte) : ShareLabel → Option (Share Byte)
  | .lock k => (s.table.lock C.probing k).map fun t => { s with table := t }
  | .probe => s.probe C
  | .release r =>
    if r < s.nReader ∧ (s.reader r).alive = true ∧ ∀ c, c < s.nCall → (s.call c).reader = r → (s.call c).pc.over = true then
      let s' := { s with reader := Function.update s.reader r { s.reader r with alive := false } }
      match (s.reader r).pos with
      | some p => some { s' with table := s.table.release p }
      | none => some s'
    else none
  | .call r =>
    if r < s.nReader ∧ (s.reader r).alive = true then
      some { s with
        nCall := s.nCall + 1
        call := Function.update s.call s.nCall ⟨r, if (s.reader r).pos = none then .reading else .checkLoaded⟩
        got := Function.update s.got s.nCall fun _ => false }
    else none
  | .check c =>
    if c < s.nCall then
      match (s.of c).pos, (s.call c).pc with
      | some p, .checkLoaded => some (s.setPc c (if s.status p = .loaded then .returned .ok else .checkFailure))
      | some p, .checkFailure => some (s.setPc c (if s.status p = .failure then .returned .error else .checkLoading))
      | some p, .checkLoading => some (s.setPc c (if s.status p = .loading then .returned .retry else .locking))
      | _, _ => none
    else none
  | .lockSlot c =>
    if c < s.nCall then
      match (s.of c).pos, (s.call c).pc with
      | some p, .locking =>
        if s.status p = .init then some ((s.setStatus p ⟨.loading, (s.table.slot p).status.reads + 1⟩).startRead c)
        else some (s.setPc c (.returned .retry))
      | _, _ => none
    else none
  | .copy c o => if c < s.nCall ∧ (s.call c).pc = .reading ∧ o < C.length then some (s.copy C c o) else none
  | .readEnd c ok =>
    if c < s.nCall ∧ (s.call c).pc = .reading ∧ (ok = true → ∀ o, o < C.length → s.got c o = true)
      then some (s.setPc c (.read ok))
    else none
  | .settle c =>
    if c < s.nCall then
      match (s.call c).pc with
      | .read ok =>
        let s' := s.setPc c (.returned (if ok then .ok else .error))
        match (s.of c).pos with
        | some p => some (s'.setStatus p ⟨if ok then .loaded else .failure, (s.table.slot p).status.reads⟩)
        | none => some s'
      | _ => none
    else none

/-- `InitShmBuffer`. -/
structure Share.IsInit {Byte : Type} (s : Share Byte) : Prop where
  slot : ∀ p, s.table.slot p = ⟨⟨0, 0⟩, 0, ⟨.init, 0⟩, none⟩
  scan : s.table.scan = none
  nReader : s.nReader = 0
  nCall : s.nCall = 0

def shareBuffer {Byte : Type} (C : ShareConfig Byte) : System (Share Byte) ShareLabel where
  init := Share.IsInit
  step := shareStep C

end UnifiedCache.PcStore
