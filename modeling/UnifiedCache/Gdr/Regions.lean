/-
  UnifiedCache.Gdr.Regions — registered buffers, and the memory regions of the channels
  (ucm/shared/trans/cuda/gdr/gdr_mr_buffer.cc: the registries; gdr_copy.cc: the regions of a
  `GdrCopyChannelImpl`, its copies, and `GdrCopyLib`).

  The registry of a side keeps one size for an address. A channel keeps a list of regions, each for an
  address and a length; a release looks for both, a copy for a region that contains its range.

  Actors: threads that register, unregister, open, close and copy. Each locked section is one step: an
  operation of a registry; a pass over the live channels; an operation of one channel; a slow copy. A
  fast copy takes no lock: it looks for its two regions, one after the other, and then posts. A channel
  that is being opened is not in the passes.

  A registration is in force from the time its buffer comes to the registry until its entry is erased,
  or is given another size; registering it again with the same size changes nothing. Registrations are
  numbered; `reg` and `gone` are ghosts.
-/

import Mathlib.Algebra.Ring.Nat
import Mathlib.Data.List.MinMax
import Mathlib.Data.List.Sort
import Mathlib.Data.Fintype.Basic
import UnifiedCache.Base.Transition

namespace UnifiedCache.Gdr

open UnifiedCache.Base

inductive Side where
  | host
  | device
  deriving DecidableEq

/-- An entry of a registry. -/
structure BufferInfo where
  addr : Nat
  size : Nat
  reg : Nat
  deriving DecidableEq

/-- `RegisteredMrRange`, with the registration that it was made for. -/
structure RegisteredMrRange where
  addr : Nat
  len : Nat
  reg : Nat
  deriving DecidableEq

def rangeContains (base totalSize addr len : Nat) :
    Bool := decide (base ≤ addr ∧ addr - base ≤ totalSize ∧ len ≤ totalSize - (addr - base))

section Registry

variable (buffers : List BufferInfo) (addr size : Nat)

def lookupBuffer : Option BufferInfo := buffers.find? fun b => b.addr = addr

def unregister : List BufferInfo := buffers.filter fun b => b.addr ≠ addr

def register (reg : Nat) : List BufferInfo :=
  if addr = 0 ∨ size = 0 then buffers
  else
    match lookupBuffer buffers addr with
    | some b => if b.size = size then buffers else ⟨addr, size, reg⟩ :: unregister buffers addr
    | none => ⟨addr, size, reg⟩ :: unregister buffers addr

/-- The buffer with the highest address that is not above the range, if it contains it. -/
def resolve : Option BufferInfo :=
  match (buffers.filter fun b => b.addr ≤ addr).argmax (·.addr) with
  | some b => if rangeContains b.addr b.size addr size = true then some b else none
  | none => none

/-- In the order of the addresses. -/
def snapshot : List BufferInfo := buffers.insertionSort fun a b => a.addr ≤ b.addr

end Registry

section Ranges

variable (ranges : List RegisteredMrRange) (addr len : Nat)

def findRegisteredMrRange : Option RegisteredMrRange := ranges.find? fun r => rangeContains r.addr r.len addr len

def findRegisteredMrExact : Option RegisteredMrRange := ranges.find? fun r => r.addr = addr && r.len = len

def releaseRegisteredMrExact : List RegisteredMrRange := ranges.eraseP fun r => r.addr = addr && r.len = len

/-- The registration that a region is made for: the one in force for its range, or the one that was read (`reg`). -/
def madeFor (buffers : List BufferInfo) (reg : Nat) : Nat :=
  match lookupBuffer buffers addr with
  | some b => if b.size = len then b.reg else reg
  | none => reg

/-- `RegisterHostBufferLocked` and `RegisterDeviceBufferLocked`; `ok` is what `ibv_reg_mr` does. The flag is
    false where they throw. -/
def registerBufferLocked (buffers : List BufferInfo) (reg : Nat) (ok : Bool) : List RegisteredMrRange × Bool :=
  if (findRegisteredMrExact ranges addr len).isSome then (ranges, true)
  else if ok then (ranges ++ [⟨addr, len, madeFor addr len buffers reg⟩], true)
  else (ranges, false)

end Ranges

/-- `MrRef`: a region of the channel, or one for the transfer alone. -/
inductive MrRef where
  | mr (r : RegisteredMrRange)
  | owned
  deriving DecidableEq

/-- `GetGpuMr` and `GetHostMr`; the outcomes are of `ibv_reg_mr` for the buffer, and for the transfer. -/
def getMr (buffers : List BufferInfo) (ranges : List RegisteredMrRange) (addr len : Nat) (ok : Bool) :
    List RegisteredMrRange × Option MrRef :=
  match resolve buffers addr len with
  | some b =>
    let (ranges, made) := registerBufferLocked ranges b.addr b.size buffers b.reg ok
    (ranges, if made then (findRegisteredMrExact ranges b.addr b.size).map .mr else none)
  | none => (ranges, if ok then some .owned else none)

inductive GdrCopyKind where
  | hostToDevice
  | deviceToHost
  deriving DecidableEq

/-- A copy on a channel. -/
structure CopyCall where
  channel : Nat
  dst : Nat
  src : Nat
  bytes : Nat
  kind : GdrCopyKind
  deriving DecidableEq

def CopyCall.dstSide (call : CopyCall) : Side :=
  match call.kind with
  | .hostToDevice => .device
  | .deviceToHost => .host

def CopyCall.srcSide (call : CopyCall) : Side :=
  match call.kind with
  | .hostToDevice => .host
  | .deviceToHost => .device

inductive LibPc where
  | idle
  /-- Before the pass of `RegisterHostBuffer` or `RegisterDeviceBuffer`. -/
  | registering (side : Side) (addr size reg : Nat)
  /-- A device registration has failed: the channels that have made a region. -/
  | rolling (addr size : Nat) (registeredChannels : List Nat)
  /-- `Unregister` has found the buffer, and is before its pass. -/
  | found (side : Side) (addr size : Nat)
  /-- `Unregister` is before the entry is erased. -/
  | erasing (side : Side) (addr : Nat)
  | openHost (channel : Nat) (buffers : List BufferInfo)
  | openSnapshot (channel : Nat)
  | openDevice (channel : Nat) (buffers invalidGpuBuffers : List BufferInfo)
  | openErase (channel : Nat) (invalidGpuBuffers : List BufferInfo)
  | openPublish (channel : Nat)
  | copying (call : CopyCall)
  | foundOne (call : CopyCall) (dst : RegisteredMrRange)
  | foundBoth (call : CopyCall) (dst src : RegisteredMrRange)
  | slow (call : CopyCall)
  | posted (call : CopyCall) (dst src : MrRef)
  deriving DecidableEq

def LibPc.resting : LibPc → Bool
  | .idle | .posted _ _ _ => true
  | _ => false

structure CopyLib (ι : Type) where
  buffers : Side → List BufferInfo
  /-- How many channels and how many registrations there have been. -/
  channels : Nat
  registrations : Nat
  /-- The live channels. -/
  gChannels : List Nat
  ranges : Nat → Side → List RegisteredMrRange
  pc : ι → LibPc
  /-- How many registrations there were when `Unregister` last returned for an address. -/
  gone : Side → Nat → Nat

inductive LibLabel (ι : Type) where
  | register (t : ι) (side : Side) (addr size : Nat)
  | unregister (t : ι) (side : Side) (addr : Nat)
  | open (t : ι)
  | close (channel : Nat)
  | copy (t : ι) (call : CopyCall)
  /-- With what `ibv_reg_mr` does on each channel. -/
  | pass (t : ι) (ok : Nat → Bool)
  /-- With what `ibv_reg_mr` does for the destination and the source. -/
  | step (t : ι) (ok ok' : Bool)
  /-- The constructor of a channel throws. -/
  | fail (t : ι)

section Steps

variable {ι : Type} [DecidableEq ι] (s : CopyLib ι)

def CopyLib.goto (t : ι) (pc : LibPc) : CopyLib ι := { s with pc := Function.update s.pc t pc }

def CopyLib.setRanges (channel : Nat) (side : Side) (ranges : List RegisteredMrRange) : CopyLib ι :=
  { s with ranges := Function.update s.ranges channel (Function.update (s.ranges channel) side ranges) }

def CopyLib.setBuffers (side : Side) (buffers : List BufferInfo) : CopyLib ι :=
    { s with buffers := Function.update s.buffers side buffers }

/-- The channel's `Cleanup`. -/
def CopyLib.cleanup (channel : Nat) : CopyLib ι :=
  { s with gChannels := s.gChannels.filter (· ≠ channel), ranges := Function.update s.ranges channel fun _ => [] }

/-- `RegisterHostBuffer` or `RegisterDeviceBuffer` of a channel. -/
def channelRegister (channel : Nat) (side : Side) (addr size reg : Nat) (ok : Bool) : CopyLib ι :=
  s.setRanges channel side (registerBufferLocked (s.ranges channel side) addr size (s.buffers side) reg ok).1

/-- A channel has a region of the buffer, or can make one. -/
def registers (channel : Nat) (side : Side) (addr size : Nat) (ok : Bool) : Bool :=
  (registerBufferLocked (s.ranges channel side) addr size (s.buffers side) 0 ok).2

/-- The pass of a registration. -/
def registerPass (t : ι) (side : Side) (addr size reg : Nat) (ok : Nat → Bool) : CopyLib ι :=
  let s' := { s with
    ranges := fun c => if c ∈ s.gChannels then (channelRegister s c side addr size reg (ok c)).ranges c else s.ranges c }
  match side with
  | .host => s'.goto t .idle
  | .device =>
    if s.gChannels.all (fun c => registers s c side addr size (ok c)) = true then s'.goto t .idle
    else s'.goto t (.rolling addr size (s.gChannels.filter fun c => registers s c side addr size (ok c)))

/-- `UnregisterHostBuffer` or `UnregisterDeviceBuffer` of a channel. -/
def channelUnregister (channel : Nat) (side : Side) (addr size : Nat) : CopyLib ι :=
  s.setRanges channel side (releaseRegisteredMrExact (s.ranges channel side) addr size)

/-- The pass of `Unregister`. -/
def unregisterPass (t : ι) (side : Side) (addr size : Nat) : CopyLib ι :=
  { s with ranges := fun c => if c ∈ s.gChannels then (channelUnregister s c side addr size).ranges c else s.ranges c }.goto t
  (.erasing side addr)

/-- The region of the destination, and of the source. -/
def dstMr (call : CopyCall) (ok : Bool) : List RegisteredMrRange × Option MrRef :=
  getMr (s.buffers call.dstSide) (s.ranges call.channel call.dstSide) call.dst call.bytes ok

def srcMr (call : CopyCall) (ok : Bool) : List RegisteredMrRange × Option MrRef :=
  getMr (s.buffers call.srcSide) (s.ranges call.channel call.srcSide) call.src call.bytes ok

/-- The locked part of a copy. -/
def slowCopy (t : ι) (call : CopyCall) (ok ok' : Bool) : CopyLib ι :=
  let s1 := s.setRanges call.channel call.dstSide (dstMr s call ok).1
  match (dstMr s call ok).2 with
  | none => s1.goto t .idle
  | some dst =>
    let s2 := s1.setRanges call.channel call.srcSide (srcMr s1 call ok').1
    match (srcMr s1 call ok').2 with
    | none => s2.goto t .idle
    | some src => s2.goto t (.posted call dst src)

/-- The channels that a call keeps alive. -/
def LibPc.holds : LibPc → List Nat
  | .copying call | .foundOne call _ | .foundBoth call _ _ | .slow call => [call.channel]
  | .rolling _ _ registeredChannels => registeredChannels
  | _ => []

/-- A step of a thread that is in a call. -/
def callStep (t : ι) (ok ok' : Bool) : Option (CopyLib ι) :=
  match s.pc t with
  | .rolling addr _ [] => some ((s.setBuffers .device (unregister (s.buffers .device) addr)).goto t .idle)
  | .rolling addr size (c :: rest) => some ((channelUnregister s c .device addr size).goto t (.rolling addr size rest))
  | .erasing side addr =>
    some { (s.setBuffers side (unregister (s.buffers side) addr)).goto t .idle with
      gone := Function.update s.gone side (Function.update (s.gone side) addr s.registrations) }
  | .openHost c [] => some (s.goto t (.openSnapshot c))
  | .openHost c (b :: rest) =>
    if registers s c .host b.addr b.size ok = true
      then some ((channelRegister s c .host b.addr b.size b.reg ok).goto t (.openHost c rest))
    else some ((s.cleanup c).goto t .idle)
  | .openSnapshot c => some (s.goto t (.openDevice c (snapshot (s.buffers .device)) []))
  | .openDevice c [] invalid => some (s.goto t (.openErase c invalid))
  | .openDevice c (b :: rest) invalid =>
    some ((channelRegister s c .device b.addr b.size b.reg ok).goto t
      (.openDevice c rest (if registers s c .device b.addr b.size ok = true then invalid else invalid ++ [b])))
  | .openErase c [] => some (s.goto t (.openPublish c))
  | .openErase c (b :: rest) => some ((s.setBuffers .device (unregister (s.buffers .device) b.addr)).goto t (.openErase c rest))
  | .openPublish c => some ({ s with gChannels := s.gChannels ++ [c] }.goto t .idle)
  | .copying call =>
    match findRegisteredMrRange (s.ranges call.channel call.dstSide) call.dst call.bytes with
    | some dst => some (s.goto t (.foundOne call dst))
    | none => some (s.goto t (.slow call))
  | .foundOne call dst =>
    match findRegisteredMrRange (s.ranges call.channel call.srcSide) call.src call.bytes with
    | some src => some (s.goto t (.foundBoth call dst src))
    | none => some (s.goto t (.slow call))
  | .foundBoth call dst src => some (s.goto t (.posted call (.mr dst) (.mr src)))
  | .slow call => some (slowCopy s t call ok ok')
  | _ => none

def libStep [Fintype ι] : LibLabel ι → Option (CopyLib ι)
  | .register t side addr size =>
    if (s.pc t).resting = true then
      if side = .device ∧ (addr = 0 ∨ size = 0) then some (s.goto t .idle)
      else
        some { (s.setBuffers side (register (s.buffers side) addr size s.registrations)).goto t
          (.registering side addr size s.registrations) with
          registrations := s.registrations + 1 }
    else none
  | .unregister t side addr =>
    if (s.pc t).resting = true then
      match lookupBuffer (s.buffers side) addr with
      | some b => some (s.goto t (.found side b.addr b.size))
      | none => some (s.goto t (.erasing side addr))
    else none
  | .open t =>
    if (s.pc t).resting = true then
      some ({ s with channels := s.channels + 1 }.goto t (.openHost s.channels (snapshot (s.buffers .host))))
    else none
  | .close c =>
    if c ∈ s.gChannels ∧ ∀ t, c ∉ (s.pc t).holds then some (s.cleanup c) else none
  | .copy t call =>
    if (s.pc t).resting = true ∧ call.channel ∈ s.gChannels ∧ call.dst ≠ 0 ∧ call.src ≠ 0 ∧ 0 < call.bytes ∧
      call.bytes < 2 ^ 32 then
      some (s.goto t (.copying call))
    else none
  | .pass t ok =>
    match s.pc t with
    | .registering side addr size reg => some (registerPass s t side addr size reg ok)
    | .found side addr size => some (unregisterPass s t side addr size)
    | _ => none
  | .step t ok ok' => callStep s t ok ok'
  | .fail t =>
    match s.pc t with
    | .openErase c [] => some ((s.cleanup c).goto t .idle)
    | _ => none

end Steps

structure CopyLib.IsInit {ι : Type} (s : CopyLib ι) : Prop where
  buffers : ∀ side, s.buffers side = []
  gChannels : s.gChannels = []
  ranges : ∀ c side, s.ranges c side = []
  pc : ∀ t, s.pc t = .idle
  gone : ∀ side addr, s.gone side addr = 0

def copyLib (ι : Type) [DecidableEq ι] [Fintype ι] : System (CopyLib ι) (LibLabel ι) where
  init := CopyLib.IsInit
  step s := libStep s

end UnifiedCache.Gdr
