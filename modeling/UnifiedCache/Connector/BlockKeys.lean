/-
  UnifiedCache.Connector.BlockKeys — the keys under which a rank stores the blocks of a request
  (ucm/integration/vllm/ucm_connector.py: `RequestHasher`, `generate_hash`, and the key that
  `start_load_kv` of `UCMDirectConnector` uses).

  The scheduler chains the hashes of a request's full blocks, with the hasher of rank 0. Rank 0 stores
  a block under its hash, another rank under the hash of it that its own hasher makes; a model with
  MLA has the same cache on every rank, and every rank uses the hash itself.

  What a hasher hashes begins with its rank and the configuration, as text. The rank ends at a colon,
  so the texts of two ranks differ before what follows them (`metaBytes_inj`), and a key stands for
  the rank and for all tokens up to the block (`store_keys_identify`), as far as MD5 has no collision.

  `md5` and `pickle` are any functions; `pickle` stands for `pickle.dumps` at the highest protocol.
-/

import Mathlib.Tactic.Common
import UnifiedCache.Base.Chain
import UnifiedCache.Base.Md5

namespace UnifiedCache.Connector

open UnifiedCache.Base

abbrev Bytes := List UInt8

/-- `str.encode("utf-8")`. -/
def encodeUtf8 (s : String) : Bytes := s.toList.flatMap String.utf8EncodeChar

/-- What a `RequestHasher` and the connector read of the configuration. -/
structure VllmConfig where
  model : String
  tensorParallelSize : Nat
  dtype : String
  /-- `method` and `num_speculative_tokens`. -/
  speculativeConfig : Option (String × Int)
  enableSparseSfaC8 : Bool
  enableSparseLiC8 : Bool
  isDeepseekMla : Bool

/-- What is pickled. -/
inductive PyObject where
  | str (s : String)
  /-- A pair of bytes and a tuple. -/
  | block (parentBlockHashValue : Bytes) (blockTokenIds : List Int)
  deriving DecidableEq

/-- What a hasher is called with. -/
inductive HashInput where
  | bytes (b : Bytes)
  | object (o : PyObject)

namespace VllmConfig

variable (c : VllmConfig)

def specInfo : String :=
  match c.speculativeConfig with
  | some (specMethod, specTokens) => ":" ++ specMethod ++ ":" ++ toString specTokens
  | none => ""

def sparseC8Info : String := ":sfa_c8=" ++ toString c.enableSparseSfaC8.toNat ++ ":li_c8=" ++ toString c.enableSparseLiC8.toNat

/-- What comes before the rank. -/
def metaHead : String := c.model ++ ":" ++ toString c.tensorParallelSize ++ ":" ++ c.dtype ++ ":"

def metaBytes (rankId : Nat) : Bytes := encodeUtf8 (c.metaHead ++ toString rankId ++ c.specInfo ++ c.sparseC8Info)

end VllmConfig

variable (md5 : Bytes → Bytes) (pickle : PyObject → Bytes) (c : VllmConfig)

/-- What `RequestHasher.__call__` hashes. -/
def hashedBytes (rankId : Nat) : HashInput → Bytes
  | .bytes b => c.metaBytes rankId ++ b
  | .object o => c.metaBytes rankId ++ pickle o

def requestHasher (rankId : Nat) (inputData : HashInput) : Bytes := md5 (hashedBytes pickle c rankId inputData)

def seed : Bytes := requestHasher md5 pickle c 0 (.object (.str "UCM_HASH_SEED"))

section GenerateHash

variable (hasher : HashInput → Bytes) (blockSize : Nat) (tokenIds : List Int)

/-- `token_ids[start : start + block_size]`. -/
def blockTokens (start : Nat) : List Int := (tokenIds.drop start).take blockSize

/-- The loop of `generate_hash`, from the starts that are left. -/
def hashLoop : List Nat → Bytes → List Bytes
  | [], _ => []
  | start :: starts, parentBlockHashValue =>
    if (blockTokens blockSize tokenIds start).length < blockSize then []
    else
      let hashValue := hasher (.object (.block parentBlockHashValue (blockTokens blockSize tokenIds start)))
      hashValue :: hashLoop starts hashValue

/-- `range(0, len(token_ids), block_size)`. -/
def blockStarts : List Nat := List.range' 0 ((tokenIds.length + blockSize - 1) / blockSize) blockSize

def generateHash (parentBlockHashValue : Bytes) : List Bytes :=
    hashLoop hasher blockSize tokenIds (blockStarts blockSize tokenIds) parentBlockHashValue

end GenerateHash

/-- The scheduler's keys of a request. -/
def ucmBlockIds (hashBlockSize : Nat) (tokenIds : List Int) : List Bytes :=
  generateHash (requestHasher md5 pickle c 0) hashBlockSize tokenIds (seed md5 pickle c)

/-- The key of a block on the worker of rank `tpRank`. -/
def storeBlockId (tpRank : Nat) (ucmBlockId : Bytes) : Bytes :=
  if tpRank ≠ 0 ∧ c.isDeepseekMla = false then requestHasher md5 pickle c (tpRank % c.tensorParallelSize) (.bytes ucmBlockId)
    else ucmBlockId

/-! ## The text of a rank -/

theorem encodeUtf8_append (s t : String) : encodeUtf8 (s ++ t) = encodeUtf8 s ++ encodeUtf8 t := by
  unfold encodeUtf8
  rw [String.toList_append, List.flatMap_append]

theorem encodeUtf8_inj {s t : String} (h : encodeUtf8 s = encodeUtf8 t) : s = t := by
  rw [← String.ofList_toList (s := s), ← String.ofList_toList (s := t), ← String.toByteArray_inj]
  exact congrArg List.toByteArray h

theorem toDigits_inj {m n : Nat} (h : Nat.toDigits 10 m = Nat.toDigits 10 n) : m = n := by
  have hdigit : ∀ {i j : Nat}, i < 10 → j < 10 → Nat.digitChar i = Nat.digitChar j → i = j := by
    intro i j hi hj e
    have e := congrArg Char.toNat e
    rw [Nat.toNat_digitChar_of_lt_ten hi, Nat.toNat_digitChar_of_lt_ten hj] at e
    omega
  induction m using Nat.strongRecOn generalizing n with
  | ind m ih =>
    rw [Nat.toDigits_eq_if (by decide), Nat.toDigits_eq_if (b := 10) (n := n) (by decide)] at h
    split at h <;> split at h
    · next hm hn => exact hdigit hm hn (List.cons.inj h).1
    · next hm hn =>
      have hlen := congrArg List.length h
      have hpos := Nat.length_toDigits_pos (b := 10) (n := n / 10)
      rw [List.length_append, List.length_singleton, List.length_singleton] at hlen
      omega
    · next hm hn =>
      have hlen := congrArg List.length h
      have hpos := Nat.length_toDigits_pos (b := 10) (n := m / 10)
      rw [List.length_append, List.length_singleton, List.length_singleton] at hlen
      omega
    · next hm hn =>
      obtain ⟨h1, h2⟩ := List.append_inj' h rfl
      have hdiv := ih (m / 10) (by omega) h1
      have hmod := hdigit (Nat.mod_lt _ (by decide)) (Nat.mod_lt _ (by decide)) (List.cons.inj h2).1
      omega

theorem toString_inj {m n : Nat} (h : toString m = toString n) : m = n := by
  have h := congrArg String.toList h
  rw [Nat.toString_eq_repr, Nat.toString_eq_repr, Nat.toList_repr, Nat.toList_repr] at h
  exact toDigits_inj h

/-- A decimal number has no colon. -/
theorem colon_not_mem (n : Nat) : (0x3a : UInt8) ∉ encodeUtf8 (toString n) := by
  intro h
  obtain ⟨ch, hch, hmem⟩ := List.mem_flatMap.mp h
  rw [Nat.toString_eq_repr, Nat.toList_repr] at hch
  have hdigit := Nat.isDigit_of_mem_toDigits (by decide) (by decide) hch
  simp only [Char.isDigit, Bool.and_eq_true, decide_eq_true_eq, UInt32.le_iff_toNat_le, ge_iff_le] at hdigit
  have hlow : 48 ≤ ch.val.toNat := hdigit.1
  have hhigh : ch.val.toNat ≤ 57 := hdigit.2
  unfold String.utf8EncodeChar at hmem
  dsimp only at hmem
  rw [if_pos (by omega), List.mem_singleton] at hmem
  have hnat := congrArg UInt8.toNat hmem
  rw [UInt8.toNat_ofNat'] at hnat
  have hnat : 58 = ch.val.toNat % 256 := hnat
  omega

/-- Two texts up to the first separator. -/
theorem append_separator_inj {α : Type} {sep : α} {u v x y : List α} (hu : sep ∉ u) (hv : sep ∉ v)
    (h : u ++ sep :: x = v ++ sep :: y) :
    u = v ∧ x = y := by
  induction u generalizing v with
  | nil =>
    cases v with
    | nil => exact ⟨rfl, (List.cons.inj h).2⟩
    | cons b v =>
      obtain ⟨rfl, -⟩ := List.cons.inj h
      exact absurd List.mem_cons_self hv
  | cons a u ih =>
    cases v with
    | nil =>
      obtain ⟨rfl, -⟩ := List.cons.inj h
      exact absurd List.mem_cons_self hu
    | cons b v =>
      obtain ⟨rfl, h'⟩ := List.cons.inj h
      obtain ⟨rfl, rfl⟩ := ih (fun e => hu (List.mem_cons_of_mem _ e)) (fun e => hv (List.mem_cons_of_mem _ e)) h'
      exact ⟨rfl, rfl⟩

/-- What comes after the rank begins with a colon. -/
theorem specInfo_sparseC8Info_cons : ∃ x, encodeUtf8 c.specInfo ++ encodeUtf8 c.sparseC8Info = 0x3a :: x := by
  have hcolon : ∀ s, ∃ x, encodeUtf8 (":" ++ s) = 0x3a :: x := by
    intro s
    exact ⟨encodeUtf8 s, by rw [encodeUtf8_append]; rfl⟩
  unfold VllmConfig.specInfo
  split
  · next specMethod specTokens _ =>
    rw [String.append_assoc, String.append_assoc]
    obtain ⟨x, hx⟩ := hcolon (specMethod ++ (":" ++ toString specTokens))
    rw [hx]
    exact ⟨_, rfl⟩
  · unfold VllmConfig.sparseC8Info
    rw [encodeUtf8_append, encodeUtf8_append, encodeUtf8_append]
    exact ⟨_, rfl⟩

theorem metaBytes_inj {r r' : Nat} {x y : Bytes} (h : c.metaBytes r ++ x = c.metaBytes r' ++ y) : r = r' ∧ x = y := by
  unfold VllmConfig.metaBytes at h
  obtain ⟨z, hz⟩ := specInfo_sparseC8Info_cons c
  simp only [encodeUtf8_append, List.append_assoc] at h
  have h := List.append_cancel_left h
  have hrest : ∀ p, encodeUtf8 c.specInfo ++ (encodeUtf8 c.sparseC8Info ++ p) = 0x3a :: (z ++ p) := by
    intro p
    rw [← List.append_assoc, hz, List.cons_append]
  rw [hrest, hrest] at h
  obtain ⟨hr, hzz⟩ := append_separator_inj (colon_not_mem r) (colon_not_mem r') h
  exact ⟨toString_inj (encodeUtf8_inj hr), List.append_cancel_left hzz⟩

/-! ## The blocks of a request -/

/-- The full blocks of a request. -/
def fullBlocks (blockSize : Nat) (tokenIds : List Int) : List (List Int) :=
  (List.range (tokenIds.length / blockSize)).map fun k => blockTokens blockSize tokenIds (k * blockSize)

theorem blockTokens_length (blockSize : Nat) (tokenIds : List Int) (start : Nat) :
    (blockTokens blockSize tokenIds start).length = min blockSize (tokenIds.length - start) := by
  unfold blockTokens
  rw [List.length_take, List.length_drop]

theorem full_iff {blockSize : Nat} (hB : 0 < blockSize) (tokenIds : List Int) (k : Nat) :
    ¬ (blockTokens blockSize tokenIds (k * blockSize)).length < blockSize ↔ k < tokenIds.length / blockSize := by
  have hk : k < tokenIds.length / blockSize ↔ (k + 1) * blockSize ≤ tokenIds.length := Nat.le_div_iff_mul_le hB
  rw [blockTokens_length, hk, Nat.add_mul]
  omega

theorem hashLoop_eq (hasher : HashInput → Bytes) {blockSize : Nat} (hB : 0 < blockSize) (tokenIds : List Int) (n k : Nat)
    (parent : Bytes) :
    hashLoop hasher blockSize tokenIds (List.range' (k * blockSize) n blockSize) parent =
      chain (fun parent block => hasher (.object (.block parent block))) parent
        ((List.range' k (min n (tokenIds.length / blockSize - k))).map fun k =>
          blockTokens blockSize tokenIds (k * blockSize)) := by
  induction n generalizing k parent with
  | zero => rw [Nat.zero_min]; rfl
  | succ n ih =>
    have hfull := full_iff hB tokenIds k
    rw [List.range'_succ, hashLoop]
    by_cases hk : k < tokenIds.length / blockSize
    · have hmin : min (n + 1) (tokenIds.length / blockSize - k) = min n (tokenIds.length / blockSize - (k + 1)) + 1 := by omega
      rw [if_neg (hfull.mpr hk), hmin, List.range'_succ, List.map_cons, chain, ← ih (k + 1), Nat.add_mul, Nat.one_mul]
    · have hmin : min (n + 1) (tokenIds.length / blockSize - k) = 0 := by omega
      rw [if_pos (Decidable.of_not_not fun e => hk (hfull.mp e)), hmin]
      rfl

theorem generateHash_eq (hasher : HashInput → Bytes) {blockSize : Nat} (hB : 0 < blockSize) (tokenIds : List Int)
    (parent : Bytes) :
    generateHash hasher blockSize tokenIds parent = chain (fun parent block => hasher (.object (.block parent block))) parent
    (fullBlocks blockSize tokenIds) := by
  have hstarts : tokenIds.length / blockSize ≤ (tokenIds.length + blockSize - 1) / blockSize := Nat.div_le_div_right (by omega)
  unfold generateHash blockStarts fullBlocks
  have h := hashLoop_eq hasher hB tokenIds ((tokenIds.length + blockSize - 1) / blockSize) 0 parent
  rw [Nat.zero_mul, Nat.sub_zero, Nat.min_eq_right hstarts, ← List.range_eq_range'] at h
  exact h

theorem generateHash_length (hasher : HashInput → Bytes) {blockSize : Nat} (hB : 0 < blockSize) (tokenIds : List Int)
    (parent : Bytes) :
    (generateHash hasher blockSize tokenIds parent).length = tokenIds.length / blockSize := by
  rw [generateHash_eq hasher hB, chain_length]
  unfold fullBlocks
  rw [List.length_map, List.length_range]

theorem fullBlocks_take (blockSize : Nat) (tokenIds : List Int) {n : Nat} (hn : n ≤ tokenIds.length / blockSize) :
    (fullBlocks blockSize tokenIds).take n = (List.range n).map fun k => blockTokens blockSize tokenIds (k * blockSize) := by
  unfold fullBlocks
  rw [← List.map_take, List.take_range, Nat.min_eq_left hn]

/-- Blocks that follow one another make up the tokens. -/
theorem flatten_blocks (blockSize : Nat) (tokenIds : List Int) (n : Nat) :
    ((List.range n).map fun k => blockTokens blockSize tokenIds (k * blockSize)).flatten = tokenIds.take (n * blockSize) := by
  induction n with
  | zero => rw [Nat.zero_mul]; rfl
  | succ n ih =>
    rw [List.range_succ, List.map_append, List.flatten_append, ih, Nat.add_mul, Nat.one_mul, List.take_add]
    simp only [List.map_cons, List.map_nil, List.flatten_cons, List.flatten_nil, List.append_nil]
    rfl

theorem blockTokens_take {blockSize n k : Nat} (tokenIds : List Int) (hk : k < n) :
    blockTokens blockSize (tokenIds.take (n * blockSize)) (k * blockSize) = blockTokens blockSize tokenIds (k * blockSize) := by
  have hle : (k + 1) * blockSize ≤ n * blockSize := Nat.mul_le_mul_right _ hk
  rw [Nat.add_mul] at hle
  unfold blockTokens
  rw [List.drop_take, List.take_take, Nat.min_eq_left (by omega)]

/-- Two requests have the same blocks up to one where they have the same tokens. -/
theorem fullBlocks_take_eq_iff {blockSize : Nat} {tokenIds tokenIds' : List Int} {i j : Nat}
    (hi : i < tokenIds.length / blockSize) (hj : j < tokenIds'.length / blockSize) :
    (fullBlocks blockSize tokenIds).take (i + 1) = (fullBlocks blockSize tokenIds').take (j + 1) ↔
      i = j ∧ tokenIds.take ((i + 1) * blockSize) = tokenIds'.take ((i + 1) * blockSize) := by
  rw [fullBlocks_take _ _ hi, fullBlocks_take _ _ hj]
  constructor
  · intro h
    have hlen := congrArg List.length h
    rw [List.length_map, List.length_map, List.length_range, List.length_range] at hlen
    obtain rfl : i = j := by omega
    have hflat := congrArg List.flatten h
    rw [flatten_blocks, flatten_blocks] at hflat
    exact ⟨rfl, hflat⟩
  · intro h
    obtain ⟨rfl, h⟩ := h
    apply List.map_congr_left
    intro k hk
    rw [← blockTokens_take tokenIds (List.mem_range.mp hk), h, blockTokens_take tokenIds' (List.mem_range.mp hk)]

/-! ## Keys -/

section Keys

variable (hashBlockSize : Nat) (tokenIds : List Int) (tpRank : Nat)

/-- The hash of a block after its parent's. -/
def blockHash (parent : Bytes) (block : List Int) : Bytes := requestHasher md5 pickle c 0 (.object (.block parent block))

/-- What is pickled for a request. -/
def pickledObjects : List PyObject :=
  .str "UCM_HASH_SEED" ::
    (chainPairs (blockHash md5 pickle c) (seed md5 pickle c) (fullBlocks hashBlockSize tokenIds)).map fun x => .block x.1 x.2

/-- What MD5 is called with for a request on a rank. -/
def hashedInputs : List Bytes :=
  (pickledObjects md5 pickle c hashBlockSize tokenIds).map (fun o => hashedBytes pickle c 0 (.object o)) ++
    if tpRank ≠ 0 ∧ c.isDeepseekMla = false then
      (ucmBlockIds md5 pickle c hashBlockSize tokenIds).map fun id =>
      hashedBytes pickle c (tpRank % c.tensorParallelSize) (.bytes id)
    else []

end Keys

/-- `f` has no collision on these inputs. -/
def Collisionless {α β : Type} (f : α → β) (inputs : List α) : Prop := ∀ x, x ∈ inputs → ∀ y, y ∈ inputs → f x = f y → x = y

section Proofs

variable {md5 pickle c} {hashBlockSize : Nat} {tokenIds tokenIds' : List Int} {r r' : Nat}

theorem ucmBlockIds_eq (hB : 0 < hashBlockSize) (tokenIds : List Int) :
    ucmBlockIds md5 pickle c hashBlockSize tokenIds = chain (blockHash md5 pickle c) (seed md5 pickle c)
    (fullBlocks hashBlockSize tokenIds) :=
  generateHash_eq _ hB ..

theorem hashedBytes_mem {o : PyObject} (h : o ∈ pickledObjects md5 pickle c hashBlockSize tokenIds) :
    hashedBytes pickle c 0 (.object o) ∈ hashedInputs md5 pickle c hashBlockSize tokenIds r :=
  List.mem_append_left _ (List.mem_map_of_mem h)

theorem rankBytes_mem {id : Bytes} (hr : r ≠ 0) (hmla : c.isDeepseekMla = false)
    (h : id ∈ ucmBlockIds md5 pickle c hashBlockSize tokenIds) :
    hashedBytes pickle c (r % c.tensorParallelSize) (.bytes id) ∈ hashedInputs md5 pickle c hashBlockSize tokenIds r := by
  unfold hashedInputs
  rw [if_pos ⟨hr, hmla⟩]
  exact List.mem_append_right _ (List.mem_map_of_mem h)

/-- A hash of an object stands for the object. -/
theorem object_inj
    (hpickle : Collisionless pickle (pickledObjects md5 pickle c hashBlockSize tokenIds ++
      pickledObjects md5 pickle c hashBlockSize tokenIds'))
    (hmd5 : Collisionless md5 (hashedInputs md5 pickle c hashBlockSize tokenIds r ++
      hashedInputs md5 pickle c hashBlockSize tokenIds' r')) {o o' : PyObject}
    (ho : o ∈ pickledObjects md5 pickle c hashBlockSize tokenIds ++ pickledObjects md5 pickle c hashBlockSize tokenIds')
    (ho' : o' ∈ pickledObjects md5 pickle c hashBlockSize tokenIds ++ pickledObjects md5 pickle c hashBlockSize tokenIds')
    (h : requestHasher md5 pickle c 0 (.object o) = requestHasher md5 pickle c 0 (.object o')) : o = o' := by
  have hmem : ∀ {o : PyObject}, o ∈ pickledObjects md5 pickle c hashBlockSize tokenIds ++
      pickledObjects md5 pickle c hashBlockSize tokenIds' →
      hashedBytes pickle c 0 (.object o) ∈ hashedInputs md5 pickle c hashBlockSize tokenIds r ++
      hashedInputs md5 pickle c hashBlockSize tokenIds' r' := by
    intro o ho
    rcases List.mem_append.mp ho with ho | ho
    · exact List.mem_append_left _ (hashedBytes_mem ho)
    · exact List.mem_append_right _ (hashedBytes_mem ho)
  have hbytes := hmd5 _ (hmem ho) _ (hmem ho') h
  exact hpickle _ ho _ ho' (metaBytes_inj c hbytes).2

/-- The hashes of blocks stand for the blocks up to them. -/
theorem ucmBlockIds_eq_iff (hB : 0 < hashBlockSize)
    (hpickle : Collisionless pickle (pickledObjects md5 pickle c hashBlockSize tokenIds ++
      pickledObjects md5 pickle c hashBlockSize tokenIds'))
    (hmd5 : Collisionless md5 (hashedInputs md5 pickle c hashBlockSize tokenIds r ++
      hashedInputs md5 pickle c hashBlockSize tokenIds' r'))
    (i j : Nat) (hi : i < (ucmBlockIds md5 pickle c hashBlockSize tokenIds).length)
    (hj : j < (ucmBlockIds md5 pickle c hashBlockSize tokenIds').length) :
    (ucmBlockIds md5 pickle c hashBlockSize tokenIds)[i] = (ucmBlockIds md5 pickle c hashBlockSize tokenIds')[j] ↔
      i = j ∧ tokenIds.take ((i + 1) * hashBlockSize) = tokenIds'.take ((i + 1) * hashBlockSize) := by
  have hlen : ∀ tokenIds, (ucmBlockIds md5 pickle c hashBlockSize tokenIds).length = tokenIds.length / hashBlockSize :=
    fun tokenIds => generateHash_length _ hB ..
  rw [← fullBlocks_take_eq_iff (hlen tokenIds ▸ hi) (hlen tokenIds' ▸ hj)]
  simp only [ucmBlockIds_eq hB]
  have hblock : ∀ {x : Bytes × List Int} {tokenIds : List Int},
      x ∈ chainPairs (blockHash md5 pickle c) (seed md5 pickle c) (fullBlocks hashBlockSize tokenIds) →
      .block x.1 x.2 ∈ pickledObjects md5 pickle c hashBlockSize tokenIds :=
    fun hx => List.mem_cons_of_mem _ (List.mem_map_of_mem hx)
  apply chain_eq_iff
  · intro x hx y hy h
    obtain ⟨h1, h2⟩ := PyObject.block.inj
      (object_inj hpickle hmd5 (List.mem_append_left _ (hblock hx)) (List.mem_append_right _ (hblock hy)) h)
    exact Prod.ext h1 h2
  · intro x hx h
    have hmem : .block x.1 x.2 ∈ pickledObjects md5 pickle c hashBlockSize tokenIds ++
        pickledObjects md5 pickle c hashBlockSize tokenIds' :=
      hx.elim (fun hx => List.mem_append_left _ (hblock hx)) fun hx => List.mem_append_right _ (hblock hx)
    cases object_inj hpickle hmd5 hmem (List.mem_append_left _ List.mem_cons_self) h

/-- A hash of a block begins with rank 0. -/
theorem exists_object (hB : 0 < hashBlockSize) {id : Bytes} (h : id ∈ ucmBlockIds md5 pickle c hashBlockSize tokenIds) :
    ∃ o, o ∈ pickledObjects md5 pickle c hashBlockSize tokenIds ∧ id = md5 (hashedBytes pickle c 0 (.object o)) := by
  rw [ucmBlockIds_eq hB, chain_eq_map] at h
  obtain ⟨x, hx, rfl⟩ := List.mem_map.mp h
  exact ⟨.block x.1 x.2, List.mem_cons_of_mem _ (List.mem_map_of_mem hx), rfl⟩

end Proofs

/-- Two keys are the same just where they are of the same rank, at the same place, and after the same tokens. -/
theorem store_keys_identify {hashBlockSize : Nat} (hB : 0 < hashBlockSize) (tokenIds tokenIds' : List Int) {r r' : Nat}
    (hr : r < c.tensorParallelSize) (hr' : r' < c.tensorParallelSize)
    (hpickle : Collisionless pickle (pickledObjects md5 pickle c hashBlockSize tokenIds ++
      pickledObjects md5 pickle c hashBlockSize tokenIds'))
    (hmd5 : Collisionless md5 (hashedInputs md5 pickle c hashBlockSize tokenIds r ++
      hashedInputs md5 pickle c hashBlockSize tokenIds' r')) :
    (ucmBlockIds md5 pickle c hashBlockSize tokenIds).length = tokenIds.length / hashBlockSize ∧
    ∀ (i j : Nat) (hi : i < (ucmBlockIds md5 pickle c hashBlockSize tokenIds).length)
      (hj : j < (ucmBlockIds md5 pickle c hashBlockSize tokenIds').length),
      storeBlockId md5 pickle c r (ucmBlockIds md5 pickle c hashBlockSize tokenIds)[i] =
          storeBlockId md5 pickle c r' (ucmBlockIds md5 pickle c hashBlockSize tokenIds')[j] ↔
        (c.isDeepseekMla = true ∨ r = r') ∧ i = j ∧
        tokenIds.take ((i + 1) * hashBlockSize) = tokenIds'.take ((i + 1) * hashBlockSize) := by
  refine ⟨generateHash_length _ hB .., fun i j hi hj => ?_⟩
  have hchain := ucmBlockIds_eq_iff hB hpickle hmd5 i j hi hj
  have hmem := List.getElem_mem hi
  have hmem' := List.getElem_mem hj
  rw [← hchain]
  generalize (ucmBlockIds md5 pickle c hashBlockSize tokenIds)[i] = id at *
  generalize (ucmBlockIds md5 pickle c hashBlockSize tokenIds')[j] = id' at *
  unfold storeBlockId
  cases hmla : c.isDeepseekMla with
  | true =>
    rw [if_neg (by simp), if_neg (by simp)]
    simp
  | false =>
    by_cases h0 : r = 0 <;> by_cases h0' : r' = 0
    · rw [if_neg (by simp [h0]), if_neg (by simp [h0'])]
      simp [h0, h0']
    · rw [if_neg (by simp [h0]), if_pos ⟨h0', rfl⟩]
      refine ⟨fun h => ?_, fun h => absurd (h.1.resolve_left nofun) fun e => h0' (e ▸ h0)⟩
      obtain ⟨o, ho, rfl⟩ := exists_object hB hmem
      have hbytes :=
          hmd5 _ (List.mem_append_left _ (hashedBytes_mem ho)) _ (List.mem_append_right _ (rankBytes_mem h0' hmla hmem')) h
      have hrank := (metaBytes_inj c hbytes).1
      rw [Nat.mod_eq_of_lt hr'] at hrank
      exact absurd hrank.symm h0'
    · rw [if_pos ⟨h0, rfl⟩, if_neg (by simp [h0'])]
      refine ⟨fun h => ?_, fun h => absurd (h.1.resolve_left nofun) fun e => h0 (e ▸ h0')⟩
      obtain ⟨o, ho, rfl⟩ := exists_object hB hmem'
      have hbytes := hmd5 _ (List.mem_append_left _ (rankBytes_mem h0 hmla hmem)) _
          (List.mem_append_right _ (hashedBytes_mem ho)) h
      have hrank := (metaBytes_inj c hbytes).1
      rw [Nat.mod_eq_of_lt hr] at hrank
      exact absurd hrank h0
    · rw [if_pos ⟨h0, rfl⟩, if_pos ⟨h0', rfl⟩]
      constructor
      · intro h
        have hbytes := hmd5 _ (List.mem_append_left _ (rankBytes_mem h0 hmla hmem)) _
            (List.mem_append_right _ (rankBytes_mem h0' hmla hmem')) h
        obtain ⟨hrank, hid⟩ := metaBytes_inj c hbytes
        rw [Nat.mod_eq_of_lt hr, Nat.mod_eq_of_lt hr'] at hrank
        exact ⟨.inr hrank, hid⟩
      · intro h
        rw [h.1.resolve_left nofun, h.2]

/-! ## A model on two ranks -/

instance {α β : Type} [DecidableEq α] [DecidableEq β] (f : α → β) (inputs : List α) : Decidable (Collisionless f inputs) :=
  inferInstanceAs (Decidable (∀ x, x ∈ inputs → ∀ y, y ∈ inputs → f x = f y → x = y))

/-- `pickle` writes a small integer in as few bytes as it can. -/
def pickleInt (n : Int) : Bytes :=
  if 0 ≤ n ∧ n < 256 then 0x4b :: Md5.littleEndian 1 n.toNat
  else if 0 ≤ n ∧ n < 65536 then 0x4d :: Md5.littleEndian 2 n.toNat
  else 0x4a :: Md5.littleEndian 4 (n % 4294967296).toNat

def pickleTuple (tuple : List Int) : Bytes :=
  match tuple.length with
  | 0 => [0x29]
  | 1 => tuple.flatMap pickleInt ++ [0x85, 0x94]
  | 2 => tuple.flatMap pickleInt ++ [0x86, 0x94]
  | 3 => tuple.flatMap pickleInt ++ [0x87, 0x94]
  | _ => 0x28 :: tuple.flatMap pickleInt ++ [0x74, 0x94]

/-- `pickle.dumps` of short strings and bytes, and of tuples of small integers, by protocol 5. -/
def pickleDumps (o : PyObject) : Bytes :=
  let body :=
    match o with
    | .str s => 0x8c :: Md5.littleEndian 1 (encodeUtf8 s).length ++ encodeUtf8 s ++ [0x94, 0x2e]
    | .block b tuple => 0x43 :: Md5.littleEndian 1 b.length ++ b ++ [0x94] ++ pickleTuple tuple ++ [0x86, 0x94, 0x2e]
  [0x80, 0x05, 0x95] ++ Md5.littleEndian 8 body.length ++ body

/-- A hash that counts the blocks up to its own. -/
def countingHasher : HashInput → Bytes
  | .object (.block parent _) => 0 :: parent
  | _ => []

/-- A model on two ranks, without MLA. -/
def twoRanks : VllmConfig := ⟨"m", 2, "torch.bfloat16", none, false, false, false⟩

def longPrompt : List Int := [1, 2, 3, 4, 5]

def shortPrompt : List Int := [1, 2, 7]

theorem store_keys_identify_two :
    (ucmBlockIds Md5.md5 pickleDumps twoRanks 2 longPrompt).length = 2 ∧
    ∀ (i j : Nat) (hi : i < (ucmBlockIds Md5.md5 pickleDumps twoRanks 2 longPrompt).length)
      (hj : j < (ucmBlockIds Md5.md5 pickleDumps twoRanks 2 shortPrompt).length),
      storeBlockId Md5.md5 pickleDumps twoRanks 1 (ucmBlockIds Md5.md5 pickleDumps twoRanks 2 longPrompt)[i] =
          storeBlockId Md5.md5 pickleDumps twoRanks 1 (ucmBlockIds Md5.md5 pickleDumps twoRanks 2 shortPrompt)[j] ↔
        (twoRanks.isDeepseekMla = true ∨ 1 = 1) ∧ i = j ∧ longPrompt.take ((i + 1) * 2) = shortPrompt.take ((i + 1) * 2) :=
  store_keys_identify Md5.md5 pickleDumps twoRanks (show 0 < 2 by decide) longPrompt shortPrompt
  (show 1 < twoRanks.tensorParallelSize by decide)
    (show 1 < twoRanks.tensorParallelSize by decide) (by decide +kernel) (by decide +kernel)

/-- With MLA every rank has the same key. -/
theorem mla_keys_shared :
    let c : VllmConfig := { twoRanks with isDeepseekMla := true }
    (ucmBlockIds Md5.md5 pickleDumps c 2 [1, 2]).map (storeBlockId Md5.md5 pickleDumps c 0) =
      (ucmBlockIds Md5.md5 pickleDumps c 2 [1, 2]).map (storeBlockId Md5.md5 pickleDumps c 1) ∧
    (ucmBlockIds Md5.md5 pickleDumps c 2 [1, 2]).length = 1 := by
  decide +kernel

end UnifiedCache.Connector
