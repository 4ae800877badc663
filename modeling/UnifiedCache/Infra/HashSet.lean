/-
  UnifiedCache.Infra.HashSet — the sharded hash set (ucm/shared/infra/template/hashset.h).

  The low `ShardBits` bits of a key's hash choose the shard, the others its home in the shard's
  vector of slots, whose size is zero or a power of two. Collisions go to the next slot; a removed
  key leaves a tombstone (`Deleted`), which an insertion may reuse. A shard whose slots are three
  quarters used or tombstones is rehashed into a vector twice as long before an insertion.

  A read outside the vector, or a probe loop that has not ended after as many slots as there are,
  is `none` here; `hashSet_refines` proves that neither happens. The operations lock the key's
  shard, so those of one set are a sequence. The hash is any function; the vector's size is bounded
  by memory, far below where a product with it would wrap.
-/

import Mathlib.Data.Finset.Card
import UnifiedCache.Base.OpenAddressing

namespace UnifiedCache.Infra

open UnifiedCache.Base

inductive SlotState where
  | empty
  | occupied
  | deleted
  deriving DecidableEq, Repr

structure Slot (Key : Type) where
  key : Option Key := none
  state : SlotState := .empty
  deriving DecidableEq, Repr

structure Shard (Key : Type) where
  keys : List (Slot Key) := []
  used : Nat := 0
  tombstones : Nat := 0
  deriving DecidableEq, Repr

/-- The set; only the shards below `2 ^ ShardBits` are used. -/
structure HashSet (Key : Type) where
  shards : Nat → Shard Key := fun _ => {}
  size : Nat := 0

variable {Key : Type}

namespace Slot

def isEmpty (slot : Slot Key) : Bool := slot.state = .empty

def isOccupied (slot : Slot Key) : Bool := slot.state = .occupied

def isDeleted (slot : Slot Key) : Bool := slot.state = .deleted

/-- The slot a key is written to (`key.emplace`, `state = Occupied`). -/
def written (key : Key) : Slot Key := ⟨some key, .occupied⟩

/-- The slot a key is removed from (`key.reset`, `state = Deleted`). -/
def removed : Slot Key := ⟨none, .deleted⟩

end Slot

/-- `Probe`. -/
def probe (idx cap : Nat) : Nat := (idx + 1) &&& (cap - 1)

/-- How the loop of `Insert` ends. -/
inductive Probed where
  /-- The key is there. -/
  | present
  /-- An empty slot was met; the key goes to `target`. -/
  | free (target : Nat)
  /-- All the way around; `firstDeleted` is the vector's size if there was no tombstone. -/
  | around (firstDeleted : Nat)
  deriving DecidableEq, Repr

section Loops

variable [DecidableEq Key]

/-- `IsOccupied(slot) && *slot.key == key`. -/
def Slot.holds (slot : Slot Key) (key : Key) : Bool := slot.isOccupied && slot.key = some key

/-- The loop of `Contains` and `Remove`: the slot of the key. -/
def findFrom (keys : List (Slot Key)) (key : Key) (start : Nat) : Nat → Nat → Option (Option Nat)
  | 0, _ => none
  | fuel + 1, idx =>
    match keys[idx]? with
    | none => none
    | some slot =>
      if slot.isEmpty then some none
      else if slot.holds key then some (some idx)
      else if probe idx keys.length = start then some none
      else findFrom keys key start fuel (probe idx keys.length)

/-- The loop of `Insert`. -/
def insertFrom (keys : List (Slot Key)) (key : Key) (start : Nat) : Nat → Nat → Nat → Option Probed
  | 0, _, _ => none
  | fuel + 1, idx, firstDeleted =>
    match keys[idx]? with
    | none => none
    | some slot =>
      if slot.holds key then some .present
      else
        let firstDeleted := if slot.isDeleted && firstDeleted = keys.length then idx else firstDeleted
        if slot.isEmpty then some (.free (if firstDeleted ≠ keys.length then firstDeleted else idx))
        else if probe idx keys.length = start then some (.around firstDeleted)
        else insertFrom keys key start fuel (probe idx keys.length) firstDeleted

end Loops

/-- The loop to the next empty slot. -/
def emptyFrom (keys : List (Slot Key)) : Nat → Nat → Option Nat
  | 0, _ => none
  | fuel + 1, idx =>
    match keys[idx]? with
    | none => none
    | some slot => if !slot.isEmpty then emptyFrom keys fuel (probe idx keys.length) else some idx

section Operations

variable (hash : Key → UInt64) (shardBits : Nat)

/-- `ShardIndex` of a key's hash. -/
def shardIndex (key : Key) : Nat := (hash key).toNat &&& (2 ^ shardBits - 1)

/-- The slot a key's probe starts at. -/
def homeIn (cap : Nat) (key : Key) : Nat := ((hash key).toNat >>> shardBits) &&& (cap - 1)

namespace Shard

/-- A key is written to an empty slot. -/
def place (s : Shard Key) (key : Key) : Option (Shard Key) :=
  match emptyFrom s.keys s.keys.length (homeIn hash shardBits s.keys.length key) with
  | none => none
  | some idx => some { s with keys := s.keys.set idx (.written key), used := s.used + 1 }

/-- The loop of `RehashShard` over the old slots. -/
def placeAll : List (Slot Key) → Shard Key → Option (Shard Key)
  | [], s => some s
  | slot :: old, s =>
    if !slot.isOccupied then placeAll old s
    else
      match slot.key with
      | none => none
      | some k =>
        match s.place hash shardBits k with
        | none => none
        | some s => placeAll old s

/-- `RehashShard`. -/
def rehash (s : Shard Key) : Option (Shard Key) :=
  let newCap := if s.keys.isEmpty then 8 else s.keys.length * 2
  placeAll hash shardBits s.keys { keys := List.replicate newCap {} }

/-- The key goes to slot `target`, empty or a tombstone. -/
def write (s : Shard Key) (key : Key) (target : Nat) : Shard Key where
  keys := s.keys.set target (.written key)
  used := s.used + 1
  tombstones := if (s.keys[target]?.map Slot.isDeleted).getD false then s.tombstones - 1 else s.tombstones

variable [DecidableEq Key]

/-- `Insert` from its probe on; and whether the key was added. -/
def insertProbed (s : Shard Key) (key : Key) : Option (Shard Key × Bool) :=
  let idx := homeIn hash shardBits s.keys.length key
  match insertFrom s.keys key idx s.keys.length idx s.keys.length with
  | none => none
  | some .present => some (s, false)
  | some (.free target) => some (s.write key target, true)
  | some (.around firstDeleted) =>
    if firstDeleted ≠ s.keys.length then some (s.write key firstDeleted, true)
    else ((s.rehash hash shardBits).bind fun s => s.place hash shardBits key).map fun s => (s, true)

/-- `Insert` on the key's shard. -/
def insert (s : Shard Key) (key : Key) : Option (Shard Key × Bool) :=
  (if (s.used + s.tombstones) * 4 ≥ s.keys.length * 3 then s.rehash hash shardBits else some s).bind fun s =>
    (if s.keys.length = 0 then s.rehash hash shardBits else some s).bind fun s =>
      s.insertProbed hash shardBits key

/-- The probe of `Contains` and `Remove`. -/
def find (s : Shard Key) (key : Key) : Option (Option Nat) :=
  if s.keys.length = 0 then some none
  else
    let idx := homeIn hash shardBits s.keys.length key
    findFrom s.keys key idx s.keys.length idx

/-- `Remove` on the key's shard; and whether the key was there. -/
def remove (s : Shard Key) (key : Key) : Option (Shard Key × Bool) :=
  (s.find hash shardBits key).map fun found =>
    match found with
    | none => (s, false)
    | some idx => ({ keys := s.keys.set idx .removed, used := s.used - 1, tombstones := s.tombstones + 1 }, true)

end Shard

namespace HashSet

variable [DecidableEq Key]

def setShard (s : HashSet Key) (i : Nat) (shard : Shard Key) (size : Nat) : HashSet Key where
  shards := Function.update s.shards i shard
  size := size

def insert (s : HashSet Key) (key : Key) : Option (HashSet Key) :=
  let i := shardIndex hash shardBits key
  ((s.shards i).insert hash shardBits key).map fun (shard, added) =>
    s.setShard i shard (if added then s.size + 1 else s.size)

def contains (s : HashSet Key) (key : Key) : Option Bool :=
  ((s.shards (shardIndex hash shardBits key)).find hash shardBits key).map Option.isSome

def remove (s : HashSet Key) (key : Key) : Option (HashSet Key) :=
  let i := shardIndex hash shardBits key
  ((s.shards i).remove hash shardBits key).map fun (shard, removed) =>
    s.setShard i shard (if removed then s.size - 1 else s.size)

end HashSet

/-- A call. -/
inductive Op (Key : Type) where
  | insert (key : Key)
  | remove (key : Key)
  | contains (key : Key)
  deriving DecidableEq, Repr

def Op.key : Op Key → Key
  | .insert key => key
  | .remove key => key
  | .contains key => key

variable [DecidableEq Key]

def HashSet.call (s : HashSet Key) : Op Key → Option (HashSet Key)
  | .insert key => s.insert hash shardBits key
  | .remove key => s.remove hash shardBits key
  | .contains key => (s.contains hash shardBits key).map fun _ => s

/-- A sequence of calls. -/
def HashSet.calls : List (Op Key) → HashSet Key → Option (HashSet Key)
  | [], s => some s
  | op :: ops, s => (s.call hash shardBits op).bind (HashSet.calls ops)

end Operations

end UnifiedCache.Infra
