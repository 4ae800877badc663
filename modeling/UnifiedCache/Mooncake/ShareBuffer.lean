/-
  UnifiedCache.Mooncake.ShareBuffer — the shared load path of the Mooncake store
  (ucm/store/mooncakestore/cc/{share_buffer,share_load_queue,mooncake_store}.cc).

  Actors: the block tasks of any number of processes, and their backends. A block task is a reader
  that `Submit` made, with its shard. `MakeReader` goes through the slots under the buffer's lock
  (`UnifiedCache.Base.Probing`). A worker takes the block from the wait list or the load list and
  calls `Ready4Read`: three looks at the status without the slot's lock, then the lock section.
  The owner of a slot hands its data to the backend's `Load` and comes back for `Wait`.

  The backend moves any bytes of the shard in any order, whatever became of the block, and a load
  succeeds only with all of them. `Wait` returns OK only for a load that has succeeded; it fails at
  any time. A task is marked failed at any time (by its waiter's timeout). A block in a list is
  abandoned when the queue is destroyed. Memory is sequentially consistent.

  Keys are ASCII. Ghosts: see `Base.Probing`, and the bytes that a load has moved.
-/

import Mathlib.Data.BitVec
import UnifiedCache.Base.Transition
import UnifiedCache.Base.Probing
import Mathlib.Data.List.OfFn

namespace UnifiedCache.Mooncake

open UnifiedCache.Base

abbrev BlockId := Fin 16 → BitVec 8

@[ext]
structure Shard where
  owner : BlockId
  index : Nat

def kHexTable : List Char := ['0', '1', '2', '3', '4', '5', '6', '7', '8', '9', 'a', 'b', 'c', 'd', 'e', 'f']

def hexOf (b : BitVec 8) : List Char := [kHexTable.getD (b >>> 4).toNat '0', kHexTable.getD (b &&& 0x0F).toNat '0']

def blockIdToKey (block : BlockId) : List Char := (List.ofFn block).flatMap hexOf

/-- The key that `BuildShards` gives a shard. -/
def Shard.key (shard : Shard) : List Char := blockIdToKey shard.owner ++ ['_'] ++ Nat.toDigits 10 shard.index

structure ShareBlockId where
  lo : BitVec 64
  hi : BitVec 64
  deriving DecidableEq

/-- The `uint64_t` at the front of a string. -/
def word (s : List Char) : Nat := (s.take 8).foldr (fun c n => c.toNat + 256 * n) 0

def ShareBlockId.set (hasher : List Char → BitVec 64) (block : List Char) : ShareBlockId :=
  if 16 ≤ block.length then ⟨BitVec.ofNat 64 (word block), BitVec.ofNat 64 (word (block.drop 8))⟩ else ⟨hasher block, 0⟩

inductive ShareBlockStatus where
  | init
  | loading
  | loaded
  | failure
  deriving DecidableEq

structure ShareConfig (Byte : Type) where
  blockNumber : Nat
  blockNumber_pos : 0 < blockNumber
  hasher : List Char → BitVec 64
  blockSize : Nat
  /-- What the backend has for a shard. -/
  backend : Shard → Nat → Byte

/-- `ShareBlockId::Used`, `Refer` and `Occupy`. -/
def ShareConfig.probing {Byte : Type} (C : ShareConfig Byte) : Probing Shard ShareBlockId ShareBlockStatus where
  n := C.blockNumber
  n_pos := C.blockNumber_pos
  home k := (C.hasher k.key).toNat
  digest k := ShareBlockId.set C.hasher k.key
  unused := ⟨0, 0⟩
  fresh := .init
  revive st := if st = .loaded then .loaded else .init

/-- Where `Ready4Read` is. -/
inductive Look where
  | loaded
  | failure
  | loading
  | locking
  deriving DecidableEq

/-- What `Ready4Read` returns, `Retry` apart. -/
inductive ReadStatus where
  | ok
  | error
  | duplicateKey
  deriving DecidableEq

/-- Where a block task is; `again` if a worker took it from the load list. -/
inductive BlockPc where
  /-- In the wait list. -/
  | waiting
  | look (again : Bool) (next : Look)
  /-- In the load list, after `Retry`. -/
  | retry
  | returned (again : Bool) (s : ReadStatus)
  /-- In the load list, with a load of the backend. -/
  | backend
  /-- The copy to the device. -/
  | copying
  /-- `done` was called; the reader is still to be released. -/
  | leaving
  | gone
  deriving DecidableEq

inductive BackendLoad where
  | none
  | running
  | ended (ok : Bool)
  deriving DecidableEq

structure BlockTask where
  taskHandle : Nat
  shard : Shard
  /-- The reader's slot, or none for a private buffer. -/
  pos : Option Nat
  pc : BlockPc
  load : BackendLoad

structure Share (Byte : Type) where
  table : Table Shard ShareBlockId ShareBlockStatus
  failureSet : Nat → Bool
  nBlock : Nat
  block : Nat → BlockTask
  /-- The data of the slots. -/
  data : Nat → Nat → Byte
  /-- The private buffers. -/
  priv : Nat → Nat → Byte
  got : Nat → Nat → Bool

inductive ShareLabel where
  /-- `MakeReader` gets the buffer's lock. -/
  | lock (k : Shard)
  /-- The next slot; a reader that comes of it is for a block of the task. -/
  | probe (taskHandle : Nat)
  | timeout (taskHandle : Nat)
  /-- A worker takes the block from its list. -/
  | take (b : Nat)
  /-- The next look at the status. -/
  | look (b : Nat)
  /-- The slot's lock section. -/
  | lockSlot (b : Nat)
  /-- The rest of `HandleLoadTask` or `HandleReadyTask`; `ok` is the answer of the backend's `Load`, or of the copy's start. -/
  | handle (b : Nat) (ok : Bool)
  /-- The backend moves a byte. -/
  | write (b o : Nat)
  | endLoad (b : Nat) (ok : Bool)
  /-- `HandleBackendComplete`; `ok` is the answer of the backend's `Wait`. -/
  | complete (b : Nat) (ok : Bool)
  | copied (b : Nat) (ok : Bool)
  | abandon (b : Nat)
  | release (b : Nat)

namespace Share

variable {Byte : Type} (C : ShareConfig Byte) (s : Share Byte)

def status (p : Nat) : ShareBlockStatus := (s.table.slot p).status

def addBlock (t : Table Shard ShareBlockId ShareBlockStatus) (task : Nat) (k : Shard) (pos : Option Nat) : Share Byte :=
  { s with table := t, nBlock := s.nBlock + 1, block := Function.update s.block s.nBlock ⟨task, k, pos, .waiting, .none⟩ }

def setPc (b : Nat) (pc : BlockPc) : Share Byte := { s with block := Function.update s.block b { s.block b with pc } }

/-- `MarkLoaded` and `MarkFailed`. -/
def mark (b : Nat) (st : ShareBlockStatus) : Share Byte :=
  match (s.block b).pos with
  | some p => { s with table := s.table.setStatus p st }
  | none => s

def fail (b : Nat) : Share Byte := { s with failureSet := Function.update s.failureSet (s.block b).taskHandle true }

def failed (b : Nat) : Bool := s.failureSet (s.block b).taskHandle

/-- The backend accepts the load. -/
def startLoad (b : Nat) : Share Byte :=
  { s with
    block := Function.update s.block b { s.block b with pc := .backend, load := .running }
    got := Function.update s.got b fun _ => false }

/-- The next step of `AcquireBlock`, and what `MakeReader` makes of it. -/
def probe (task : Nat) : Option (Share Byte) :=
  match s.table.scan, s.table.probe C.probing with
  | some _, some (t, .goesOn) => some { s with table := t }
  | some c, some (t, .found p) => some (s.addBlock t task c.key (some p))
  | some c, some (t, .full) => some (s.addBlock t task c.key none)
  | _, _ => none

/-- The bytes at `GetData()`. -/
def dataOf (b : Nat) : Nat → Byte :=
  match (s.block b).pos with
  | some p => s.data p
  | none => s.priv b

/-- A byte of the shard comes to `GetData()`. -/
def write (b o : Nat) : Share Byte :=
  let byte := C.backend (s.block b).shard o
  let got := Function.update s.got b (Function.update (s.got b) o true)
  match (s.block b).pos with
  | some p => { s with got, data := Function.update s.data p (Function.update (s.data p) o byte) }
  | none => { s with got, priv := Function.update s.priv b (Function.update (s.priv b) o byte) }

/-- What is made of what `Ready4Read` returned. -/
def handle (b : Nat) (ok : Bool) : Bool → ReadStatus → Share Byte
  | false, .duplicateKey => if ok then s.startLoad b else ((s.mark b .failure).fail b).setPc b .leaving
  | false, .error => ((s.mark b .failure).fail b).setPc b .leaving
  | _, .ok => if s.failed b then s.setPc b .leaving else if ok then s.setPc b .copying else (s.fail b).setPc b .leaving
  | true, _ => (s.fail b).setPc b .leaving

end Share

def shareStep {Byte : Type} (C : ShareConfig Byte) (s : Share Byte) : ShareLabel → Option (Share Byte)
  | .lock k => (s.table.lock C.probing k).map fun t => { s with table := t }
  | .probe task => s.probe C task
  | .timeout task => some { s with failureSet := Function.update s.failureSet task true }
  | .take b =>
    if b < s.nBlock then
      match (s.block b).pc with
      | .waiting =>
        if s.failed b then some (s.setPc b .leaving)
        else some (s.setPc b (if (s.block b).pos = none then .returned false .duplicateKey else .look false .loaded))
      | .retry => some (s.setPc b (.look true .loaded))
      | _ => none
    else none
  | .look b =>
    if b < s.nBlock then
      match (s.block b).pos, (s.block b).pc with
      | some p, .look again .loaded =>
          some (s.setPc b (if s.status p = .loaded then .returned again .ok else .look again .failure))
      | some p, .look again .failure =>
          some (s.setPc b (if s.status p = .failure then .returned again .error else .look again .loading))
      | some p, .look again .loading => some (s.setPc b (if s.status p = .loading then .retry else .look again .locking))
      | _, _ => none
    else none
  | .lockSlot b =>
    if b < s.nBlock then
      match (s.block b).pos, (s.block b).pc with
      | some p, .look again .locking =>
        if s.status p = .init then some ((s.mark b .loading).setPc b (.returned again .duplicateKey)) else some (s.setPc b .retry)
      | _, _ => none
    else none
  | .handle b ok =>
    if b < s.nBlock then
      match (s.block b).pc with
      | .returned again st => some (s.handle b ok again st)
      | _ => none
    else none
  | .write b o => if b < s.nBlock ∧ (s.block b).load = .running ∧ o < C.blockSize then some (s.write C b o) else none
  | .endLoad b ok =>
    if b < s.nBlock ∧ (s.block b).load = .running ∧ (ok = true → ∀ o, o < C.blockSize → s.got b o = true) then
      some { s with block := Function.update s.block b { s.block b with load := .ended ok } }
    else none
  | .complete b ok =>
    if b < s.nBlock ∧ (s.block b).pc = .backend then
      if s.failed b then some ((s.mark b .failure).setPc b .leaving)
      else if ok then
        if (s.block b).load = .ended true then some ((s.mark b .loaded).setPc b .copying) else none
      else some (((s.mark b .failure).fail b).setPc b .leaving)
    else none
  | .copied b ok => if b < s.nBlock ∧
      (s.block b).pc = .copying then some ((if ok then s else s.fail b).setPc b .leaving) else none
  | .abandon b =>
    if b < s.nBlock ∧ ((s.block b).pc = .waiting ∨ (s.block b).pc = .retry ∨ (s.block b).pc = .backend)
      then some (s.setPc b .leaving)
    else none
  | .release b =>
    if b < s.nBlock ∧ (s.block b).pc = .leaving then
      match (s.block b).pos with
      | some p => some { s.setPc b .gone with table := s.table.release p }
      | none => some (s.setPc b .gone)
    else none

/-- `InitShmBuffer`. -/
structure Share.IsInit {Byte : Type} (s : Share Byte) : Prop where
  slot : ∀ p, s.table.slot p = ⟨⟨0, 0⟩, 0, .init, none⟩
  scan : s.table.scan = none
  nBlock : s.nBlock = 0

def shareLoads {Byte : Type} (C : ShareConfig Byte) : System (Share Byte) ShareLabel where
  init := Share.IsInit
  step := shareStep C

/-! ## The keys of the store -/

theorem kHexTable_pos {c : Char} (h : c ∈ kHexTable) : 0 < c.toNat ∧ c.toNat < 256 := by
  have hall : kHexTable.all (fun c => 0 < c.toNat && c.toNat < 256) = true := by decide
  simpa using List.all_eq_true.mp hall c h

theorem mem_hexOf {b : BitVec 8} {c : Char} (h : c ∈ hexOf b) : c ∈ kHexTable := by
  have hget : ∀ i : Nat, kHexTable.getD i '0' ∈ kHexTable := by
    intro i
    rw [List.getD_eq_getElem?_getD]
    by_cases hi : i < kHexTable.length
    · rw [List.getElem?_eq_getElem hi]
      exact List.getElem_mem hi
    · rw [List.getElem?_eq_none (by omega)]
      decide
  rcases List.mem_cons.mp h with rfl | h
  · exact hget _
  · rcases List.mem_cons.mp h with rfl | h
    · exact hget _
    · cases h

theorem length_blockIdToKey (block : BlockId) : (blockIdToKey block).length = 32 := by
  have hlen : ∀ l : List (BitVec 8), (l.flatMap hexOf).length = 2 * l.length := by
    intro l
    induction l with
    | nil => rfl
    | cons b l ih =>
      rw [List.flatMap_cons, List.length_append, ih, List.length_cons]
      show 2 + _ = _
      omega
  unfold blockIdToKey
  rw [hlen, List.length_ofFn]

theorem word_lt {s : List Char} (h : ∀ c, c ∈ s → c.toNat < 256) : word s < 2 ^ 64 := by
  have hlt : ∀ l : List Char, (∀ c, c ∈ l → c.toNat < 256) → l.foldr (fun c n => c.toNat + 256 * n) 0 < 256 ^ l.length := by
    intro l
    induction l with
    | nil => exact fun _ => Nat.one_pos
    | cons c l ih =>
      intro hl
      have h1 := ih fun c' hc' => hl c' (List.mem_cons_of_mem _ hc')
      have h2 := hl c List.mem_cons_self
      rw [List.length_cons, Nat.pow_succ, List.foldr_cons]
      omega
  refine lt_of_lt_of_le (hlt _ fun c hc => h c (List.mem_of_mem_take hc)) ?_
  calc 256 ^ (s.take 8).length ≤ 256 ^ 8 := Nat.pow_le_pow_right (by decide) (List.length_take_le ..)
    _ = 2 ^ 64 := by decide

/-- The key of a shard begins with a digit, so that its id is not the unused one. -/
theorem shard_used (hasher : List Char → BitVec 64) (k : Shard) : ShareBlockId.set hasher k.key ≠ ⟨0, 0⟩ := by
  have hhex : ∀ c, c ∈ blockIdToKey k.owner → c ∈ kHexTable := by
    intro c hc
    obtain ⟨b, -, hb⟩ := List.mem_flatMap.mp hc
    exact mem_hexOf hb
  have hlen := length_blockIdToKey k.owner
  have hlong : 16 ≤ k.key.length := by
    unfold Shard.key
    rw [List.length_append, List.length_append, hlen]
    omega
  have hword : word k.key = word (blockIdToKey k.owner) := by
    unfold word Shard.key
    rw [List.append_assoc, List.take_append_of_le_length (by omega)]
  have hlt : word k.key < 2 ^ 64 := by
    rw [hword]
    exact word_lt fun c hc => (kHexTable_pos (hhex c hc)).2
  have hpos : 0 < word k.key := by
    rw [hword]
    cases hkey : blockIdToKey k.owner with
    | nil =>
      rw [hkey] at hlen
      cases hlen
    | cons c l =>
      have hc := (kHexTable_pos (hhex c (by rw [hkey]; exact List.mem_cons_self))).1
      show 0 < c.toNat + 256 * _
      omega
  intro he
  unfold ShareBlockId.set at he
  rw [if_pos hlong] at he
  have hlo := congrArg BitVec.toNat (congrArg ShareBlockId.lo he)
  rw [BitVec.toNat_ofNat, Nat.mod_eq_of_lt hlt] at hlo
  have hzero : word k.key = 0 := hlo
  omega

theorem hexOf_injective : Function.Injective hexOf := by
  have hnodup : ∀ i, i < 16 → ∀ j, j < 16 → kHexTable.getD i '0' = kHexTable.getD j '0' → i = j := by decide
  have hlow : ∀ b : BitVec 8, (b &&& 0x0F).toNat < 16 := by
    intro b
    rw [BitVec.toNat_and]
    exact lt_of_le_of_lt Nat.and_le_right (by decide)
  have hhigh : ∀ b : BitVec 8, (b >>> 4).toNat < 16 := by
    intro b
    rw [BitVec.toNat_ushiftRight, Nat.shiftRight_eq_div_pow]
    have := b.isLt
    omega
  intro a b h
  obtain ⟨h1, h2⟩ := List.cons.inj h
  have e1 := hnodup _ (hhigh a) _ (hhigh b) h1
  have e2 := hnodup _ (hlow a) _ (hlow b) (List.cons.inj h2).1
  rw [BitVec.toNat_ushiftRight, BitVec.toNat_ushiftRight, Nat.shiftRight_eq_div_pow, Nat.shiftRight_eq_div_pow] at e1
  rw [BitVec.toNat_and, BitVec.toNat_and] at e2
  have hmask : ∀ n : Nat, n &&& (0x0F : BitVec 8).toNat = n % 2 ^ 4 := fun n => Nat.and_two_pow_sub_one_eq_mod n 4
  rw [hmask, hmask] at e2
  apply BitVec.eq_of_toNat_eq
  omega

theorem blockIdToKey_injective : Function.Injective blockIdToKey := by
  have hflat : ∀ l l' : List (BitVec 8), l.flatMap hexOf = l'.flatMap hexOf → l = l' := by
    intro l
    induction l with
    | nil =>
      intro l' h
      cases l' with
      | nil => rfl
      | cons b l' => cases h
    | cons a l ih =>
      intro l' h
      cases l' with
      | nil => cases h
      | cons b l' =>
        rw [List.flatMap_cons, List.flatMap_cons] at h
        obtain ⟨hab, hl⟩ := List.append_inj h rfl
        rw [hexOf_injective hab, ih l' hl]
  intro a b h
  exact List.ofFn_injective (hflat _ _ h)

/-- Two shards have two keys. -/
theorem key_injective : Function.Injective Shard.key := by
  intro a b h
  unfold Shard.key at h
  rw [List.append_assoc, List.append_assoc] at h
  obtain ⟨howner, hindex⟩ := List.append_inj h (by rw [length_blockIdToKey, length_blockIdToKey])
  have hi : a.index = b.index := by
    have hd := congrArg (Nat.ofDigitChars 10 · 0) (List.append_cancel_left hindex)
    simpa using hd
  obtain ⟨owner, index⟩ := a
  rw [show owner = b.owner from blockIdToKey_injective howner, show index = b.index from hi]

end UnifiedCache.Mooncake
