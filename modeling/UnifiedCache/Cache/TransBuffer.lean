/-
  UnifiedCache.Cache.TransBuffer — the host buffer of the cache store
  (ucm/store/cache/cc/trans_buffer.{h,cc}).

  A buffer is an array of nodes, each caching one shard of a block, indexed by a hash table
  whose buckets are doubly linked chains of nodes. `invalidIndex` (and `npos`) is `none`.
  The data bytes are not part of this model: what may touch them is the subject of
  `UnifiedCache.Cache.Store`.

  Locking. `Get` and `Exist` run under the lock of their key's bucket; every visit of a node
  is a section under that node's lock. Here a node-lock section is one atomic step (a
  function `Buf → …` below), and so is `FetchNode` (under the header's lock in the shared
  strategy). The steps of different calls interleave freely as far as the bucket locks allow:
  `step` runs any number of threads (of any number of processes), each at a program point `Pc`
  of `Get` or `Exist`. `Alloc` nests `BucketTryLock` of the node's old bucket in its node-lock
  section, so that the try-lock, `Remove`, its unlock and `MoveTo` belong to one section.

  Live handles are a bag: a copy acquires, a release drops, a move changes nothing.
-/

import Mathlib.Algebra.Ring.Nat
import UnifiedCache.Base.Transition

namespace UnifiedCache.Cache

open UnifiedCache.Base

/-- `Status::Underlying()`; `0` is `Status::OK()`. -/
abbrev StatusCode := Int

def statusOK : StatusCode := 0

/-- `Status::Error()`. -/
def statusError : StatusCode := -1

inductive State where
  | loading
  | ready
  | failed
  deriving DecidableEq, Repr

structure BufferMetaNode (Block : Type) where
  block : Block
  shard : Nat
  reference : Nat
  hash : Option Nat
  prev : Option Nat
  next : Option Nat
  state : State
  errorCode : StatusCode
  deriving DecidableEq, Repr

/-- What a `TransBuffer` is set up with. The two hashers are the C++ library's `std::hash`. -/
structure Params (Block : Type) where
  blockIdHasher : Block → UInt64
  shardHasher : Nat → UInt64
  nNode : Nat
  reservedNumber : Nat
  bypassHitOnLoad : Bool

/-- `size_t` subtraction (of values below `2 ^ 64`). -/
def sizeSub (a b : Nat) : Nat := if b ≤ a then a - b else a + 2 ^ 64 - b

/-- Where the cursor of a caller wraps. -/
def Params.limit {Block : Type} (P : Params Block) (allowReserved : Bool) : Nat :=
  sizeSub P.nNode (if allowReserved then 0 else P.reservedNumber)

def nHashTableBucket : Nat := 16411

def goldenSection : UInt64 := 0x9e3779b97f4a7c15

structure Buf (Block : Type) where
  buckets : Nat → Option Nat
  freeHead : Nat
  metaAt : Nat → BufferMetaNode Block

variable {Block : Type} (P : Params Block)

/-- `Hash`. -/
def hashOf (blockId : Block) (shard : Nat) : Nat :=
  let h1 := P.blockIdHasher blockId
  let h2 := P.shardHasher shard
  (h1 ^^^ (h2 + goldenSection + (h1 <<< 6) + (h1 >>> 2))).toNat % nHashTableBucket

/-- The state after `Setup`: empty buckets, every node as `BufferMetaNode::Init` leaves it
    (which does not write the key). -/
structure Buf.IsInit (b : Buf Block) : Prop where
  buckets : ∀ k, b.buckets k = none
  freeHead : b.freeHead = 0
  reference : ∀ i, (b.metaAt i).reference = 0
  hash : ∀ i, (b.metaAt i).hash = none
  prev : ∀ i, (b.metaAt i).prev = none
  next : ∀ i, (b.metaAt i).next = none
  state : ∀ i, (b.metaAt i).state = .loading
  errorCode : ∀ i, (b.metaAt i).errorCode = statusOK

/-! ## Node-lock sections -/

namespace Buf

def setMeta (b : Buf Block) (i : Nat) (m : BufferMetaNode Block) : Buf Block :=
  { b with metaAt := Function.update b.metaAt i m }

def setFirst (b : Buf Block) (k : Nat) (o : Option Nat) : Buf Block :=
  { b with buckets := Function.update b.buckets k o }

/-- Write the `next` of a node, if there is one (`if (p != invalidIndex)`). -/
def setNext (b : Buf Block) (p o : Option Nat) : Buf Block :=
  match p with
  | some p => b.setMeta p { b.metaAt p with next := o }
  | none => b

/-- Write the `prev` of a node, if there is one. -/
def setPrev (b : Buf Block) (n o : Option Nat) : Buf Block :=
  match n with
  | some n => b.setMeta n { b.metaAt n with prev := o }
  | none => b

/-- A node that carries the key. -/
def carries [DecidableEq Block] (b : Buf Block) (i : Nat) (blockId : Block) (shardIdx : Nat) : Bool :=
  (b.metaAt i).block = blockId && (b.metaAt i).shard = shardIdx

/-- The section of `FindAt` at a node that carries the key: `owner` and the node acquired. -/
def findHit (b : Buf Block) (i : Nat) : Buf Block × Bool :=
  let m := b.metaAt i
  let owner : Bool := m.reference = 0
  let m := if owner ∧ m.state = .failed then { m with state := .loading, errorCode := statusOK } else m
  (b.setMeta i { m with reference := m.reference + 1 }, owner)

/-- `FetchNode`: the cursor's node, wrapping at the limit. -/
def fetchNode (b : Buf Block) (allowReserved : Bool) : Buf Block × Nat :=
  let head := if b.freeHead ≥ P.limit allowReserved then 0 else b.freeHead
  ({ b with freeHead := head + 1 }, head)

def moveTo (b : Buf Block) (iBucket iNode : Nat) : Buf Block :=
  let n := b.buckets iBucket
  let b := b.setNext (some iNode) n
  let b := b.setPrev n (some iNode)
  let b := b.setMeta iNode { b.metaAt iNode with hash := some iBucket }
  b.setFirst iBucket (some iNode)

def remove (b : Buf Block) (iBucket iNode : Nat) : Buf Block :=
  let b := b.setNext (b.metaAt iNode).prev (b.metaAt iNode).next
  let n := (b.metaAt iNode).next
  let b := b.setPrev n (b.metaAt iNode).prev
  let b := if b.buckets iBucket = some iNode then b.setFirst iBucket n else b
  b.setMeta iNode { b.metaAt iNode with prev := none, next := none, hash := none }

/-- The new owner's fields. -/
def claim (b : Buf Block) (iNode : Nat) (blockId : Block) (shardIdx : Nat) : Buf Block :=
  let m := b.metaAt iNode
  b.setMeta iNode { m with
    reference := m.reference + 1, block := blockId, shard := shardIdx, state := .loading, errorCode := statusOK }

/-- The node-lock section of `Alloc`; `none` is a `continue`. `tryLock` tells whether a
    bucket's try-lock succeeds. -/
def allocAt (b : Buf Block) (tryLock : Nat → Bool) (iBucket iNode : Nat) (blockId : Block) (shardIdx : Nat) :
    Option (Buf Block) :=
  if (b.metaAt iNode).reference > 0 then none
  else if (b.metaAt iNode).hash = some iBucket then some (b.claim iNode blockId shardIdx)
  else
    match (b.metaAt iNode).hash with
    | none => some ((b.moveTo iBucket iNode).claim iNode blockId shardIdx)
    | some oldBucket =>
      if tryLock oldBucket then some (((b.remove oldBucket iNode).moveTo iBucket iNode).claim iNode blockId shardIdx)
      else none

def acquire (b : Buf Block) (pos : Nat) : Buf Block :=
  b.setMeta pos { b.metaAt pos with reference := (b.metaAt pos).reference + 1 }

def release (b : Buf Block) (pos : Nat) : Buf Block :=
  b.setMeta pos { b.metaAt pos with reference := (b.metaAt pos).reference - 1 }

def getState (b : Buf Block) (pos : Nat) : State := (b.metaAt pos).state

def ready (b : Buf Block) (pos : Nat) : Bool := b.getState pos = .ready

def failureStatus (b : Buf Block) (pos : Nat) : StatusCode :=
  if (b.metaAt pos).errorCode = statusOK then statusError else (b.metaAt pos).errorCode

def markReady (b : Buf Block) (pos : Nat) : Buf Block :=
  if (b.metaAt pos).state = .loading then b.setMeta pos { b.metaAt pos with state := .ready, errorCode := statusOK } else b

def markFailed (b : Buf Block) (pos : Nat) (status : StatusCode) : Buf Block :=
  if (b.metaAt pos).state = .loading then b.setMeta pos { b.metaAt pos with state := .failed, errorCode := status } else b

def markNotReady (b : Buf Block) (pos : Nat) : Buf Block :=
  b.setMeta pos { b.metaAt pos with state := .loading, errorCode := statusOK }

end Buf

/-! ## Threads -/

structure Handle where
  pos : Nat
  owner : Bool
  deriving DecidableEq, Repr

/-- The arguments of a `Get`. -/
structure GetArgs (Block : Type) where
  blockId : Block
  shardIdx : Nat
  allowReserved : Bool
  isLoad : Bool
  deriving DecidableEq

/-- Where a thread is in `Get` or `Exist`; every point but `idle` is inside the bucket lock. -/
inductive Pc (Block : Type) where
  | idle
  /-- `FindAt`, about to visit a node (`none`: past the chain's end). -/
  | find (c : GetArgs Block) (iNode : Option Nat)
  /-- Found, about to evaluate `Ready(iNode)` for the hit bypass. -/
  | hit (c : GetArgs Block) (iNode : Nat) (owner : Bool)
  /-- About to run `MarkNotReady(iNode)`. -/
  | notReady (c : GetArgs Block) (iNode : Nat) (owner : Bool)
  /-- `Alloc`, about to fetch a node. -/
  | alloc (c : GetArgs Block)
  /-- `Alloc`, about to lock the fetched node. -/
  | fetched (c : GetArgs Block) (iNode : Nat)
  /-- About to unlock the bucket and return the handle. -/
  | leave (c : GetArgs Block) (iNode : Nat) (owner : Bool)
  | exist (blockId : Block) (shardIdx : Nat) (iNode : Option Nat)
  | existLeave (blockId : Block) (shardIdx : Nat) (exist : Bool)
  deriving DecidableEq

structure Sys (Block : Type) where
  buf : Buf Block
  /-- Which thread holds a bucket's lock. -/
  bucketLocks : Nat → Option Nat
  pc : Nat → Pc Block
  handles : List Handle

inductive Act (Block : Type) where
  /-- Thread `t` enters `Get`: the bucket is locked and the chain's head read. -/
  | get (t : Nat) (c : GetArgs Block)
  | callExist (t : Nat) (blockId : Block) (shardIdx : Nat)
  /-- Thread `t` takes its next step. -/
  | run (t : Nat)
  | copy (h : Handle)
  | drop (h : Handle)
  | markReady (h : Handle)
  | markFailed (h : Handle) (status : StatusCode)

namespace Sys

def at_ (s : Sys Block) (t : Nat) (pc : Pc Block) : Sys Block := { s with pc := Function.update s.pc t pc }

def lock (s : Sys Block) (t k : Nat) : Sys Block := { s with bucketLocks := Function.update s.bucketLocks k (some t) }

def unlock (s : Sys Block) (k : Nat) : Sys Block := { s with bucketLocks := Function.update s.bucketLocks k none }

def bucketTryLock (s : Sys Block) (k : Nat) : Bool := s.bucketLocks k = none

variable [DecidableEq Block]

/-- One step of a thread inside `Get` or `Exist`. -/
def runPc (s : Sys Block) (t : Nat) : Option (Sys Block) :=
  match s.pc t with
  | .idle => none
  | .find c none => some (s.at_ t (.alloc c))
  | .find c (some i) =>
    if s.buf.carries i c.blockId c.shardIdx then
      let (b, owner) := s.buf.findHit i
      let s := { s with buf := b }
      some (s.at_ t (if P.bypassHitOnLoad && c.isLoad && owner then .hit c i owner else .leave c i owner))
    else some (s.at_ t (.find c (s.buf.metaAt i).next))
  | .hit c i owner => some (s.at_ t (if s.buf.ready i then .notReady c i owner else .leave c i owner))
  | .notReady c i owner => some ({ s with buf := s.buf.markNotReady i }.at_ t (.leave c i owner))
  | .alloc c =>
    let (b, i) := s.buf.fetchNode P c.allowReserved
    some ({ s with buf := b }.at_ t (.fetched c i))
  | .fetched c i =>
    match s.buf.allocAt s.bucketTryLock (hashOf P c.blockId c.shardIdx) i c.blockId c.shardIdx with
    | some b => some ({ s with buf := b }.at_ t (.leave c i true))
    | none => some (s.at_ t (.alloc c))
  | .leave c i owner =>
    let s := (s.unlock (hashOf P c.blockId c.shardIdx)).at_ t .idle
    some { s with handles := ⟨i, owner⟩ :: s.handles }
  | .exist blockId shardIdx none => some (s.at_ t (.existLeave blockId shardIdx false))
  | .exist blockId shardIdx (some i) =>
    if s.buf.carries i blockId shardIdx then some (s.at_ t (.existLeave blockId shardIdx true))
    else some (s.at_ t (.exist blockId shardIdx (s.buf.metaAt i).next))
  | .existLeave blockId shardIdx _ => some ((s.unlock (hashOf P blockId shardIdx)).at_ t .idle)

def isIdle (s : Sys Block) (t : Nat) : Bool :=
  match s.pc t with
  | .idle => true
  | _ => false

def step (s : Sys Block) : Act Block → Option (Sys Block)
  | .get t c =>
    let k := hashOf P c.blockId c.shardIdx
    if s.isIdle t ∧ s.bucketLocks k = none then some ((s.lock t k).at_ t (.find c (s.buf.buckets k))) else none
  | .callExist t blockId shardIdx =>
    let k := hashOf P blockId shardIdx
    if s.isIdle t ∧ s.bucketLocks k = none then some ((s.lock t k).at_ t (.exist blockId shardIdx (s.buf.buckets k)))
    else none
  | .run t => s.runPc P t
  | .copy h => if h ∈ s.handles then some { s with buf := s.buf.acquire h.pos, handles := h :: s.handles } else none
  | .drop h => if h ∈ s.handles then some { s with buf := s.buf.release h.pos, handles := s.handles.erase h } else none
  | .markReady h => if h ∈ s.handles then some { s with buf := s.buf.markReady h.pos } else none
  | .markFailed h status => if h ∈ s.handles then some { s with buf := s.buf.markFailed h.pos status } else none

structure IsInit (s : Sys Block) : Prop where
  buf : s.buf.IsInit
  bucketLocks : ∀ k, s.bucketLocks k = none
  pc : ∀ t, s.pc t = .idle
  handles : s.handles = []

end Sys

/-- The buffer shared by its threads. -/
def transBuffer [DecidableEq Block] : System (Sys Block) (Act Block) where
  init := Sys.IsInit
  step := Sys.step P

end UnifiedCache.Cache
