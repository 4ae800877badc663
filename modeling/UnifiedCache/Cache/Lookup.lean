/-
  UnifiedCache.Cache.Lookup — `Lookup` and `LookupOnPrefix` of the cache store
  (ucm/store/cache/cc/buffer_manager.h).

  Both ask the buffer for shard 0 of each block (`Exist`), and the backend for the blocks the
  buffer does not have. `Exist` looks at the chains alone: a node of a load that failed or was
  abandoned is a hit (`false_hit`), and so is a block of which only shard 0 is there.
  `NoFalseHit` leaves out the steps that make such a node. In its runs a block is reported only
  if the backend has it or all of its shards are READY or being fetched or dumped
  (`lookup_sound`).

  The calls of `Exist` are atomic (see `UnifiedCache.Cache.Get`), each in a state of its own.
-/

import UnifiedCache.Cache.Orphans
import UnifiedCache.Cache.StoreBuffer
import UnifiedCache.Cache.StoreTasks

namespace UnifiedCache.Cache

open UnifiedCache.Base UnifiedCache.Detail

variable {Block : Type}

/-- The store behind the cache. -/
structure Backend (Block : Type) where
  lookup : List Block → Except StatusCode (List Bool)
  lookupOnPrefix : List Block → Except StatusCode Int

/-- `Lookup` in the buffer, from index `i` on: `results`, `missBlk` and `missIdx`. The `i`-th call
    of `Exist` has its own state. -/
def lookupBuffer (exist : Nat → Block → Bool) : Nat → List Block → List Bool × List Block × List Nat
  | _, [] => ([], [], [])
  | i, block :: blocks =>
    let (results, missBlk, missIdx) := lookupBuffer exist (i + 1) blocks
    if exist i block then (true :: results, missBlk, missIdx) else (false :: results, block :: missBlk, i :: missIdx)

/-- `results[missIdx[i]] = backendVec[i]` for each `i`. -/
def fillResults : List Nat → List Bool → List Bool → List Bool
  | i :: missIdx, hit :: backendVec, results => fillResults missIdx backendVec (results.set i hit)
  | _, _, results => results

def lookupFast (backend : Backend Block) (exist : Nat → Block → Bool) (blocks : List Block) : Except StatusCode (List Bool) :=
  let (results, missBlk, missIdx) := lookupBuffer exist 0 blocks
  if missBlk.isEmpty then .ok results
  else
    match backend.lookup missBlk with
    | .error e => .error e
    | .ok backendVec => .ok (fillResults missIdx backendVec results)

def lookupOnPrefixFast (backend : Backend Block) (exist : Nat → Block → Bool) (blocks : List Block) : Except StatusCode Int :=
  let (_, missBlk, missIdx) := lookupBuffer exist 0 blocks
  if missBlk.isEmpty then .ok ((blocks.length : Int) - 1)
  else
    match backend.lookupOnPrefix missBlk with
    | .error e => .error e
    | .ok result =>
      if (result + 1).toNat = missIdx.length then .ok ((blocks.length : Int) - 1)
      else .ok ((missIdx.getD (result + 1).toNat 0 : Nat) - 1)

/-- `Lookup`; `through`: there is no buffer, or `loadBackendOnly_`. -/
def lookup (through : Bool) (backend : Backend Block) (exist : Nat → Block → Bool) (blocks : List Block) :
    Except StatusCode (List Bool) :=
  if through then backend.lookup blocks else lookupFast backend exist blocks

def lookupOnPrefix (through : Bool) (backend : Backend Block) (exist : Nat → Block → Bool) (blocks : List Block) :
    Except StatusCode Int :=
  if through then backend.lookupOnPrefix blocks else lookupOnPrefixFast backend exist blocks

/-- The backend reports blocks it has: one answer for each block, or the last index of a prefix
    of them, -1 with none. -/
structure Backend.Reports (backend : Backend Block) (has : Block → Prop) : Prop where
  lookup : ∀ blocks vec, backend.lookup blocks = .ok vec → vec.length = blocks.length ∧
    ∀ (i : Nat) (block : Block), blocks[i]? = some block → vec[i]? = some true → has block
  lookupOnPrefix : ∀ blocks r, backend.lookupOnPrefix blocks = .ok r → -1 ≤ r ∧ r < blocks.length ∧
    ∀ (i : Nat) (block : Block), blocks[i]? = some block → (i : Int) ≤ r → has block

/-! ## Where the misses are -/

section Lists

variable {exist : Nat → Block → Bool} {i n : Nat} {block : Block} {blocks : List Block}

structure LookupSpec (exist : Nat → Block → Bool) (i : Nat) (blocks : List Block)
    (r : List Bool × List Block × List Nat) : Prop where
  length : r.1.length = blocks.length
  hits : ∀ (n : Nat) (block : Block), blocks[n]? = some block → r.1[n]? = some (exist (i + n) block)
  misses : r.2.2.length = r.2.1.length
  missed : ∀ (n : Nat) (block : Block), blocks[n]? = some block → exist (i + n) block = false →
    ∃ k : Nat, r.2.2[k]? = some (i + n) ∧ r.2.1[k]? = some block
  miss : ∀ k m : Nat, r.2.2[k]? = some m → ∃ (n : Nat) (block : Block), m = i + n ∧ blocks[n]? = some block ∧
      r.2.1[k]? = some block
  increasing : r.2.2.Pairwise (· < ·)
  above : ∀ m ∈ r.2.2, i ≤ m

theorem lookupBuffer_spec (exist : Nat → Block → Bool) (blocks : List Block) (i : Nat) :
    LookupSpec exist i blocks (lookupBuffer exist i blocks) := by
  induction blocks generalizing i with
  | nil =>
    show LookupSpec exist i [] ([], [], [])
    exact ⟨rfl, nofun, rfl, nofun, nofun, .nil, nofun⟩
  | cons block blocks ih =>
    have h := ih (i + 1)
    have hat : ∀ n, i + 1 + n = i + (n + 1) := fun n => by omega
    unfold lookupBuffer
    generalize lookupBuffer exist (i + 1) blocks = r at h ⊢
    obtain ⟨results, missBlk, missIdx⟩ := r
    -- the tail's answers are one further on
    have hhits : ∀ (n : Nat) (b : Block), blocks[n]? = some b → results[n]? = some (exist (i + (n + 1)) b) :=
        fun n b hb => hat n ▸ h.hits n b hb
    have habove : ∀ m ∈ missIdx, i + 1 ≤ m := h.above
    cases hit : exist i block with
    | true =>
      refine ⟨by simp [h.length], fun n b hb => ?_, h.misses, fun n b hb hm => ?_, fun k m hk => ?_, h.increasing, fun m hm => ?_⟩
      · cases n with
        | zero =>
          obtain rfl : block = b := by simpa using hb
          simp [hit]
        | succ n => exact hhits n b hb
      · cases n with
        | zero =>
          obtain rfl : block = b := by simpa using hb
          rw [Nat.add_zero, hit] at hm
          cases hm
        | succ n => exact hat n ▸ h.missed n b hb (hat n ▸ hm)
      · obtain ⟨n, b, rfl, hb⟩ := h.miss k m hk
        exact ⟨n + 1, b, hat n, hb⟩
      · have := habove m hm
        omega
    | false =>
      refine ⟨by simp [h.length], fun n b hb => ?_, by simp [h.misses], fun n b hb hm => ?_, fun k m hk => ?_, ?_, fun m hm => ?_⟩
      · cases n with
        | zero =>
          obtain rfl : block = b := by simpa using hb
          simp [hit]
        | succ n => exact hhits n b hb
      · cases n with
        | zero =>
          obtain rfl : block = b := by simpa using hb
          exact ⟨0, rfl, rfl⟩
        | succ n =>
          obtain ⟨k, hk, hkb⟩ := h.missed n b hb (hat n ▸ hm)
          exact ⟨k + 1, hat n ▸ hk, hkb⟩
      · cases k with
        | zero =>
          obtain rfl : i = m := by simpa using hk
          exact ⟨0, block, rfl, rfl, rfl⟩
        | succ k =>
          obtain ⟨n, b, rfl, hb⟩ := h.miss k m hk
          exact ⟨n + 1, b, hat n, hb⟩
      · exact List.pairwise_cons.mpr ⟨fun m hm => habove m hm, h.increasing⟩
      · rcases List.mem_cons.mp hm with rfl | hm
        · exact Nat.le_refl _
        · have := habove m hm
          omega

theorem fillResults_spec (missIdx : List Nat) (backendVec results : List Bool) :
    (fillResults missIdx backendVec results).length = results.length ∧
      ((fillResults missIdx backendVec results)[n]? = some true →
        results[n]? = some true ∨ ∃ k : Nat, missIdx[k]? = some n ∧ backendVec[k]? = some true) := by
  induction missIdx generalizing backendVec results with
  | nil => exact ⟨rfl, .inl⟩
  | cons m missIdx ih =>
    cases backendVec with
    | nil => exact ⟨rfl, .inl⟩
    | cons hit backendVec =>
      obtain ⟨hlen, htrue⟩ := ih backendVec (results.set m hit)
      refine ⟨hlen.trans (List.length_set ..), fun ht => ?_⟩
      rcases htrue ht with h | ⟨k, hk, hv⟩
      · rw [List.getElem?_set] at h
        split at h
        · next e =>
          subst e
          simp only [Option.ite_none_right_eq_some] at h
          exact .inr ⟨0, rfl, h.2⟩
        · exact .inl h
      · exact .inr ⟨k + 1, hk, hv⟩

/-- What `Lookup` reports is in the buffer or with the backend. -/
theorem lookupFast_reports {backend : Backend Block} {has : Block → Prop} (hB : backend.Reports has) {results : List Bool}
    (h : lookupFast backend exist blocks = .ok results) :
    results.length = blocks.length ∧ ∀ (n : Nat) (block : Block), blocks[n]? = some block → results[n]? = some true →
    exist n block = true ∨ has block := by
  have hs := lookupBuffer_spec exist blocks 0
  unfold lookupFast at h
  generalize lookupBuffer exist 0 blocks = r at h hs
  obtain ⟨hits, missBlk, missIdx⟩ := r
  have hexist : ∀ (n : Nat) (block : Block), blocks[n]? = some block → hits[n]? = some true → exist n block = true := by
    intro n block hb ht
    have := hs.hits n block hb
    rw [Nat.zero_add] at this
    exact Option.some.inj (this.symm.trans ht)
  simp only at h
  split at h
  · obtain rfl := Except.ok.inj h
    exact ⟨hs.length, fun n block hb ht => .inl (hexist n block hb ht)⟩
  · split at h
    · cases h
    · next vec hvec =>
      obtain rfl := Except.ok.inj h
      refine ⟨(fillResults_spec (n := 0) _ _ _).1.trans hs.length, fun n block hb ht => ?_⟩
      rcases (fillResults_spec _ _ _).2 ht with ht | ⟨k, hk, hv⟩
      · exact .inl (hexist n block hb ht)
      · obtain ⟨n', block', e, hb', hkb⟩ := hs.miss k n hk
        obtain rfl : n = n' := by omega
        obtain rfl : block' = block := Option.some.inj (hb'.symm.trans hb)
        exact .inr ((hB.lookup _ _ hvec).2 k block' hkb hv)

/-- So is what `LookupOnPrefix` counts. -/
theorem lookupOnPrefixFast_reports {backend : Backend Block} {has : Block → Prop} (hB : backend.Reports has) {r : Int}
    (h : lookupOnPrefixFast backend exist blocks = .ok r) (hb : blocks[n]? = some block) (hn : (n : Int) ≤ r) :
    exist n block = true ∨ has block := by
  have hs := lookupBuffer_spec exist blocks 0
  unfold lookupOnPrefixFast at h
  generalize lookupBuffer exist 0 blocks = t at h hs
  obtain ⟨hits, missBlk, missIdx⟩ := t
  cases hex : exist n block with
  | true => exact .inl rfl
  | false =>
    obtain ⟨k, hk, hkb⟩ := hs.missed n block hb (by rwa [Nat.zero_add])
    rw [Nat.zero_add] at hk
    have hklt : k < missIdx.length := (List.getElem?_eq_some_iff.mp hk).1
    have hmisses : missIdx.length = missBlk.length := hs.misses
    simp only at h
    split at h
    · next hnone =>
      rw [List.isEmpty_iff.mp hnone, List.length_nil] at hmisses
      omega
    · split at h
      · cases h
      · next result hres =>
        obtain ⟨hlow, hhigh, hhas⟩ := hB.lookupOnPrefix _ _ hres
        -- it is among the misses that the backend counts
        refine .inr (hhas k block hkb ?_)
        split at h
        · next hall => omega
        · next hnot =>
          obtain rfl := Except.ok.inj h
          have hlt : (result + 1).toNat < missIdx.length := by omega
          rw [← List.getElem_eq_getD (h := hlt)] at hn
          by_contra hgt
          have hle : (result + 1).toNat ≤ k := by omega
          have : missIdx[(result + 1).toNat] ≤ n := by
            obtain ⟨-, rfl⟩ := List.getElem?_eq_some_iff.mp hk
            rcases Nat.lt_or_eq_of_le hle with hlt' | e
            · exact Nat.le_of_lt (List.pairwise_iff_getElem.mp hs.increasing _ _ hlt hklt hlt')
            · simp [e]
          omega

end Lists

/-! ## The chains -/

section Chains

variable [DecidableEq Block] {P : Params Block} {b b' : Buf Block} {c : GetArgs Block} {blockId : Block} {shardIdx i j k : Nat}
    {owner : Bool}

theorem nodeOf_none (h : b.nodeOf P blockId shardIdx = none) (hi : i < P.nNode) : ¬ ChainedAt P b blockId shardIdx i := by
  intro hc
  have := List.find?_eq_none.mp h i (List.mem_range.mpr hi)
  rw [decide_eq_true hc.1, Buf.carries_iff.mpr hc.2] at this
  exact this rfl

theorem exist_iff : b.exist P blockId shardIdx = true ↔ ∃ i, i < P.nNode ∧ ChainedAt P b blockId shardIdx i := by
  unfold Buf.exist
  refine ⟨fun h => ?_, fun ⟨i, hi, hc⟩ => ?_⟩
  · obtain ⟨i, hi⟩ := Option.isSome_iff_exists.mp h
    exact ⟨i, List.mem_range.mp (List.mem_of_find?_eq_some hi), nodeOf_some hi⟩
  · cases hn : b.nodeOf P blockId shardIdx with
    | none => exact absurd hc (nodeOf_none hn hi)
    | some j => rfl

omit [DecidableEq Block] in
theorem SameIndex.chainedAt (h : SameIndex b b') : ChainedAt P b' blockId shardIdx i ↔ ChainedAt P b blockId shardIdx i := by
  unfold ChainedAt
  rw [h.hash, h.keyed]

omit [DecidableEq Block] in
theorem allocAt_hash {tryLock : Nat → Bool} (he : b.allocAt tryLock k i blockId shardIdx = some b') :
    b'.hashAt i = some k ∧ ∀ j, j ≠ i → b'.hashAt j = b.hashAt j := by
  have hclaim : ∀ b₀ : Buf Block, (b₀.claim i blockId shardIdx).hashAt i = b₀.hashAt i ∧
      ∀ j, j ≠ i → (b₀.claim i blockId shardIdx).hashAt j = b₀.hashAt j := fun b₀ =>
    ⟨by simp [Buf.hashAt, claim_metaAt], fun j hj => by simp [Buf.hashAt, claim_metaAt, hj]⟩
  have hmove : ∀ b₀ : Buf Block, (b₀.moveTo k i).hashAt i = some k ∧ ∀ j, j ≠ i →
      (b₀.moveTo k i).hashAt j = b₀.hashAt j := fun b₀ =>
    ⟨by simp [Buf.hashAt, Buf.moveTo], fun j hj => by simp [Buf.hashAt, Buf.moveTo, hj]⟩
  have hremove : ∀ k₀ j, j ≠ i → (b.remove k₀ i).hashAt j = b.hashAt j := by
    intro k₀ j hj
    simp only [Buf.hashAt, Buf.remove, setMeta_metaAt, hj, if_false]
    split <;> simp
  unfold Buf.allocAt at he
  split at he
  · cases he
  · split at he
    · next hsame =>
      obtain rfl := Option.some.inj he
      exact ⟨(hclaim b).1.trans hsame, (hclaim b).2⟩
    · split at he
      · obtain rfl := Option.some.inj he
        exact ⟨(hclaim _).1.trans (hmove b).1, fun j hj => ((hclaim _).2 j hj).trans ((hmove b).2 j hj)⟩
      · next k₀ _ =>
        split at he
        · obtain rfl := Option.some.inj he
          exact ⟨(hclaim _).1.trans (hmove _).1,
            fun j hj => (((hclaim _).2 j hj).trans ((hmove _).2 j hj)).trans (hremove k₀ j hj)⟩
        · cases he

/-- What a `Get` does to the chains. -/
inductive GetChain (P : Params Block) (b b' : Buf Block) (blockId : Block) (shardIdx i : Nat) : Prop
  | hit (same : SameIndex b b') (at_ : ChainedAt P b blockId shardIdx i)
  | alloc (free : b.exist P blockId shardIdx = false) (unused : (b.metaAt i).reference = 0)
      (new : ChainedAt P b' blockId shardIdx i)
      (others : ∀ j, j ≠ i → ∀ blockId shardIdx, ChainedAt P b' blockId shardIdx j ↔ ChainedAt P b blockId shardIdx j)

theorem get_chain (h : b.get P c i = some (b', owner)) : i < P.nNode ∧ GetChain P b b' c.blockId c.shardIdx i := by
  unfold Buf.get at h
  split at h
  · next j hj =>
    simp only [Option.ite_none_right_eq_some, Option.some.injEq, Prod.mk.injEq] at h
    obtain ⟨rfl, rfl, rfl⟩ := h
    refine ⟨List.mem_range.mp (List.mem_of_find?_eq_some hj), .hit ?_ (nodeOf_some hj)⟩
    have hfind := sameIndex_findHit b i
    split
    · have hmark := sameIndex_markNotReady (b.findHit i).1 i
      exact ⟨hmark.buckets.trans hfind.buckets, fun j => (hmark.block j).trans (hfind.block j),
        fun j => (hmark.shard j).trans (hfind.shard j),
        fun j => (hmark.hash j).trans (hfind.hash j), fun j => (hmark.prev j).trans (hfind.prev j),
        fun j => (hmark.next j).trans (hfind.next j)⟩
    · exact hfind
  · next hnone =>
    simp only [Option.ite_none_right_eq_some, Option.map_eq_some_iff, Prod.mk.injEq] at h
    obtain ⟨hi, b'', hal, rfl, rfl⟩ := h
    obtain ⟨h0, ⟨-, -, hkeyed⟩, hne⟩ := allocAt_node hal
    obtain ⟨hhash, hothers⟩ := allocAt_hash hal
    refine ⟨by omega, .alloc (by simp [Buf.exist, hnone]) h0 ⟨hhash, hkeyed⟩ fun j hj blockId shardIdx => ?_⟩
    have hn := hne j hj
    unfold ChainedAt Buf.Keyed
    rw [hothers j hj, hn.block, hn.shard]

end Chains

/-! ## Whole blocks -/

/-- Node `i` has the shard, READY or with an owner that is fetching or dumping it. -/
structure Served (C : Config Block) (s : Store Block) (blockId : Block) (shardIdx i : Nat) : Prop where
  lt : i < C.nNode
  chained : ChainedAt C.toParams s.buf blockId shardIdx i
  state : s.buf.getState i = .ready ∨ s.buf.getState i = .loading ∧ ∃ u, u < s.nItem ∧ (s.item u).pos = i ∧ (s.item u).Duty

def BlockServed (C : Config Block) (nShard : Nat) (s : Store Block) (blockId : Block) : Prop :=
  ∀ k, k < nShard → ∃ i, Served C s blockId k i

/-- No two nodes of a buffer have one key. -/
def UniqueKey (P : Params Block) (b : Buf Block) : Prop :=
  ∀ blockId shardIdx i j, i < P.nNode → j < P.nNode → ChainedAt P b blockId shardIdx i → ChainedAt P b blockId shardIdx j → i = j

/-- Of a block that the backend does not have (`has`) and whose shard 0 is in the buffer: no
    shard's load fails, no owner is dropped with its shard, and no other shard's node is taken;
    and shard 0 is last to come to the buffer. -/
structure NoFalseHit [DecidableEq Block] (C : Config Block) (nShard : Nat) (has : Block → Prop) (s : Store Block)
    (l : StoreLabel Block) : Prop where
  spoils : ∀ v, v < s.nItem → s.Drops v l ∧ (s.item v).owner = true ∨ s.Fails v l → s.buf.getState (s.item v).pos = .loading →
    ∀ blockId shardIdx, s.key v = some (blockId, shardIdx) → has blockId ∨ nShard ≤ shardIdx ∨
    s.buf.exist C.toParams blockId 0 = false
  evicts : ∀ blockId shardIdx i, s.asks l = some ((blockId, shardIdx), i) → s.buf.exist C.toParams blockId shardIdx = false →
    ∀ blockId' shardIdx', ChainedAt C.toParams s.buf blockId' shardIdx' i →
      has blockId' ∨ shardIdx' = 0 ∨ nShard ≤ shardIdx' ∨ s.buf.exist C.toParams blockId' 0 = false
  first : ∀ blockId i, s.asks l = some ((blockId, 0), i) → s.buf.exist C.toParams blockId 0 = false →
    has blockId ∨ ∀ k, 0 < k → k < nShard → ∃ j, j ≠ i ∧ Served C s blockId k j

/-- What the backend does not have and the buffer has shard 0 of is there as a whole. -/
def Hits [DecidableEq Block] (C : Config Block) (nShard : Nat) (has : Block → Prop) (s : Store Block) : Prop :=
  ∀ blockId, has blockId ∨ s.buf.exist C.toParams blockId 0 = false ∨ BlockServed C nShard s blockId

section Asked

variable {C : Config Block} {s s' : Store Block} {b : Buf Block} {l : StoreLabel Block} {blockId : Block} {shardIdx i v : Nat}

theorem ChainedAt.key {P : Params Block} {blockId' : Block} {shardIdx' : Nat} (h : ChainedAt P b blockId shardIdx i)
    (h' : ChainedAt P b blockId' shardIdx' i) : blockId = blockId' ∧ shardIdx = shardIdx' :=
  ⟨h.2.1.symm.trans h'.2.1, h.2.2.symm.trans h'.2.2⟩

/-- A `Get`'s handle. -/
theorem StoreCase.asked (ha : s.asks l = some ((blockId, shardIdx), i)) (h : StoreCase C s l s') :
    ∃ owner c, GetSpec s.buf s'.buf c i owner ∧ s.nItem < s'.nItem ∧ (s'.item s.nItem).pos = i ∧
    (owner = true → (s'.item s.nItem).Duty) := by
  cases h with
  | dispatch p dl _ step =>
    cases step with
    | get t j blockId' shardIdx' i' b owner pc shard spec =>
      obtain ⟨-, rfl⟩ : (blockId' = blockId ∧ shardIdx' = shardIdx) ∧ i' = i := by simpa [Store.asks, pc, shard] using ha
      refine ⟨owner, _, spec, Nat.lt_succ_self _, by simp [Item.start], fun ho => ?_⟩
      subst ho
      simpa using ⟨rfl, rfl, .inl (.inl rfl)⟩
    | _ => cases ha
  | dump p dl _ step =>
    cases step with
    | get t j blockId' shardIdx' i' b owner pc shard spec =>
      obtain ⟨-, rfl⟩ : (blockId' = blockId ∧ shardIdx' = shardIdx) ∧ i' = i := by simpa [Store.asks, pc, shard] using ha
      refine ⟨owner, _, spec, Nat.lt_succ_self _, by simp [Item.start], fun ho => ?_⟩
      subst ho
      simpa using ⟨rfl, rfl, .inl (.inr (.inl rfl))⟩
    | _ => cases ha
  | _ => cases ha

/-- A `Get` drops nothing. -/
theorem Store.asks_calm {x : (Block × Nat) × Nat} (h : s.asks l = some x) : ¬ s.Drops v l ∧ ¬ s.Fails v l := by
  cases l with
  | dispatch p dl =>
    cases dl with
    | get i => exact ⟨id, id⟩
    | _ => cases h
  | dump p dl =>
    cases dl with
    | get i => exact ⟨fun hd => (nomatch hd.1), id⟩
    | _ => cases h
  | _ => cases h

end Asked

section Hits

variable [DecidableEq Block] {C : Config Block} {nShard : Nat} {has : Block → Prop} {s s' : Store Block} {b : Buf Block}
    {l : StoreLabel Block}
  {blockId : Block} {shardIdx i v : Nat}

theorem BufStep.uniqueKey (hu : UniqueKey C.toParams s.buf) (h : BufStep C s l b) : UniqueKey C.toParams b := by
  have hsame : SameIndex s.buf b → UniqueKey C.toParams b := fun hi blockId shardIdx i j hlt hlt' hc hc' =>
    hu blockId shardIdx i j hlt hlt' (hi.chainedAt.mp hc) (hi.chainedAt.mp hc')
  cases h with
  | quiet only => exact hsame only.index
  | failed u fails index others stays => exact hsame index
  | get blockId shardIdx i owner isLoad asks got =>
    obtain ⟨hi, hchain⟩ := get_chain got
    cases hchain with
    | hit same at_ => exact hsame same
    | alloc free unused new others =>
      -- the new node is the only one with its key
      have halone : ∀ j, j < C.nNode → ∀ blockId' shardIdx', ChainedAt C.toParams b blockId' shardIdx' i →
          ChainedAt C.toParams b blockId' shardIdx' j → j = i := by
        intro j hj blockId' shardIdx' hci hcj
        by_contra hne
        obtain ⟨rfl, rfl⟩ := new.key hci
        have := exist_iff.mpr ⟨j, hj, (others j hne _ _).mp hcj⟩
        rw [free] at this
        cases this
      intro blockId' shardIdx' j k hj hk hcj hck
      by_cases ej : j = i
      · subst ej
        exact (halone k hk _ _ hcj hck).symm
      · by_cases ek : k = i
        · subst ek
          exact halone j hj _ _ hck hcj
        · exact hu _ _ j k hj hk ((others j ej _ _).mp hcj) ((others k ek _ _).mp hck)

/-- A served shard stays so while its node has its key, unless its load fails or is dropped. -/
theorem Served.step (hr : Reach (cacheStore C) Any s) (hst : storeStep C s l = some s')
    (hkeep : ∀ v, v < s.nItem → s.Drops v l ∧ (s.item v).owner = true ∨ s.Fails v l → s.buf.getState (s.item v).pos = .loading →
      s.key v ≠ some (blockId, shardIdx))
    (hc' : ChainedAt C.toParams s'.buf blockId shardIdx i) (h : Served C s blockId shardIdx i) :
    Served C s' blockId shardIdx i := by
  obtain ⟨hlt, hc, hstate⟩ := h
  have hl := reach_linked hr
  have hcase := storeStep_case hst
  -- a live handle of the node has its key
  have hkey : ∀ v, v < s.nItem → (s.item v).handle ≠ .released → (s.item v).pos = i → s.key v = some (blockId, shardIdx) := by
    intro v hv hh hpos
    obtain ⟨b', k', hk, hnode⟩ := reach_keyInv hr v hv
    have hn := hpos ▸ hnode hh
    rw [hk, ← hn.1, ← hn.2, hc.2.1, hc.2.2]
  -- its state stays or becomes READY, or the node gets a new owner
  have hmain : (s'.buf.getState i = s.buf.getState i ∨ s'.buf.getState i = .ready) ∨
      s'.buf.getState i ≠ .failed ∧ ∃ u, u < s'.nItem ∧ (s'.item u).pos = i ∧ (s'.item u).Duty := by
    cases storeStep_buf hst with
    | quiet only => exact .inl (only.state i)
    | failed u fails index others stays =>
      left
      by_cases hpos : (s.item u).pos = i
      · subst hpos
        refine .inl (stays fun hload => ?_)
        have hu := fails.lt hl hcase
        exact hkeep u hu (.inr fails) hload (hkey u hu (fails.live hl (reach_keeps hr) hu) rfl)
      · exact .inl (others i (Ne.symm hpos))
    | get b' k' j owner isLoad asks got =>
      obtain ⟨owner', c, spec, hn, hpos, hduty⟩ := hcase.asked asks
      by_cases e : i = j
      · subst e
        rcases Nat.eq_zero_or_pos (s.buf.metaAt i).reference with h0 | h0
        · exact .inr ⟨spec.fresh h0, s.nItem, hn, hpos, hduty (by rw [spec.owner, h0]; rfl)⟩
        · exact .inl (.inl (spec.shared h0).1)
      · exact .inl (.inl (spec.others i e).state)
  refine ⟨hlt, hc', ?_⟩
  rcases hmain with (hsame | hready) | ⟨hnf, howner⟩
  · rw [hsame]
    rcases hstate with hready | ⟨hload, u, hu, hpos, hd⟩
    · exact .inl hready
    · refine .inr ⟨hload, u, Nat.lt_of_lt_of_le hu hcase.kept.nItem_le, (hcase.kept.fixed hu).pos.trans hpos, ?_⟩
      rcases hcase.duty hl (reach_refInv hr) (reach_refusedMarked hr) hu hd with hd | hne | hdrop
      · exact hd
      · rw [hpos, hsame] at hne
        exact absurd hload hne
      · refine absurd (hkey u hu (by rw [hd.held]; decide) hpos) (hkeep u hu (.inl ⟨hdrop, hd.owner⟩) ?_)
        rw [hpos]
        exact hload
  · exact .inl hready
  · cases hst' : s'.buf.getState i with
    | ready => exact .inl rfl
    | loading => exact .inr ⟨rfl, howner⟩
    | failed => exact absurd hst' hnf

theorem Hits.step (hr : Reach (cacheStore C) Any s) (huniq : UniqueKey C.toParams s.buf) (hok : NoFalseHit C nShard has s l)
    (hst : storeStep C s l = some s') (h : Hits C nShard has s) : Hits C nShard has s' := by
  intro blockId
  by_cases hhas : has blockId
  · exact .inl hhas
  cases hex' : s'.buf.exist C.toParams blockId 0 with
  | false => exact .inr (.inl rfl)
  | true =>
    refine .inr (.inr fun k hk => ?_)
    -- what is there before the step is there after it
    have hstep : s.buf.exist C.toParams blockId 0 = true → ∀ k i, k < nShard → Served C s blockId k i →
        ChainedAt C.toParams s'.buf blockId k i → Served C s' blockId k i := by
      intro hex k i hk hs hc'
      refine hs.step hr hst (fun v hv hspoil hload hkey => ?_) hc'
      rcases hok.spoils v hv hspoil hload _ _ hkey with h | h | h
      · exact hhas h
      · omega
      · rw [hex] at h
        cases h
    have hsame : SameIndex s.buf s'.buf → ∃ i, Served C s' blockId k i := by
      intro hi
      have hex : s.buf.exist C.toParams blockId 0 = true := by
        obtain ⟨i, hlt, hc⟩ := exist_iff.mp hex'
        exact exist_iff.mpr ⟨i, hlt, hi.chainedAt.mp hc⟩
      obtain ⟨i, hs⟩ := ((h blockId).resolve_left hhas).resolve_left (by rw [hex]; decide) k hk
      exact ⟨i, hstep hex k i hk hs (hi.chainedAt.mpr hs.chained)⟩
    cases storeStep_buf hst with
    | quiet only => exact hsame only.index
    | failed u fails index others stays => exact hsame index
    | get blockId₁ shardIdx₁ i₁ owner isLoad asks got =>
      obtain ⟨hi₁, hchain⟩ := get_chain got
      cases hchain with
      | hit same at_ => exact hsame same
      | alloc free unused new others =>
        cases hex : s.buf.exist C.toParams blockId 0 with
        | true =>
          obtain ⟨i, hs⟩ := ((h blockId).resolve_left hhas).resolve_left (by rw [hex]; decide) k hk
          refine ⟨i, hstep hex k i hk hs ?_⟩
          by_cases e : i = i₁
          swap
          · exact (others i e _ _).mpr hs.chained
          -- of the block, only shard 0's node may be taken, and then the block is no hit
          subst e
          have hk0 : k = 0 := by
            rcases hok.evicts _ _ i asks free _ _ hs.chained with h | h | h | h
            · exact absurd h hhas
            · exact h
            · omega
            · rw [hex] at h
              cases h
          subst hk0
          obtain ⟨j, hj, hc⟩ := exist_iff.mp hex'
          by_cases ej : j = i
          · exact ej ▸ hc
          · exact absurd (huniq _ _ j i hj hs.lt ((others j ej _ _).mp hc) hs.chained) ej
        | false =>
          -- shard 0 has come to the buffer
          obtain ⟨j, hj, hc⟩ := exist_iff.mp hex'
          have hji : j = i₁ := by
            by_contra e
            have := exist_iff.mpr ⟨j, hj, (others j e _ _).mp hc⟩
            rw [hex] at this
            cases this
          subst hji
          obtain ⟨rfl, rfl⟩ := new.key hc
          rcases Nat.eq_zero_or_pos k with rfl | hpos
          · obtain ⟨owner', c, spec, hn, hpos, hduty⟩ := (storeStep_case hst).asked asks
            have hd := hduty (by rw [spec.owner, unused]; rfl)
            refine ⟨j, hj, hc, ?_⟩
            cases hst' : s'.buf.getState j with
            | ready => exact .inl rfl
            | loading => exact .inr ⟨rfl, s.nItem, hn, hpos, hd⟩
            | failed => exact absurd hst' (spec.fresh unused)
          · obtain ⟨i, hne, hs⟩ := (hok.first _ j asks free).resolve_left hhas k hpos hk
            refine ⟨i, hs.step hr hst (fun v hv hspoil => ?_) ((others i hne _ _).mpr hs.chained)⟩
            obtain ⟨hd, hf⟩ := Store.asks_calm (v := v) asks
            exact absurd hspoil (by tauto)

end Hits

/-! ## Every run -/

section Reach

variable [DecidableEq Block] {C : Config Block} {nShard : Nat} {has : Block → Prop} {ok : Store Block → StoreLabel Block → Prop}
    {s : Store Block} {σ : Nat → Store Block}

theorem reach_uniqueKey (h : Reach (cacheStore C) ok s) : UniqueKey C.toParams s.buf := by
  refine Reach.inv (I := fun s => UniqueKey C.toParams s.buf) (fun s hi blockId shardIdx i j _ _ hc _ => ?_)
    (fun _ _ _ hu _ hst => (storeStep_buf hst).uniqueKey hu) h
  have := hc.1
  rw [Buf.hashAt, hi.buf.hash] at this
  cases this

theorem reach_hits (h : Reach (cacheStore C) (NoFalseHit C nShard has) s) : Hits C nShard has s := by
  refine Reach.inv_with (I := Hits C nShard has) (fun _ hr => Reach.mono (fun _ _ _ => trivial) hr) (fun s hi blockId => ?_)
    (fun _ _ _ hr hI hok hst => hI.step hr (reach_uniqueKey hr) hok hst) h
  right
  left
  by_contra hex
  obtain ⟨i, -, hc⟩ := exist_iff.mp (by simpa using hex)
  have := hc.1
  rw [Buf.hashAt, hi.buf.hash] at this
  cases this

/-- What `Lookup` reports, and what `LookupOnPrefix` counts, is with the backend or as a whole in
    the buffer, READY or with an owner that fetches or dumps it, in a run that makes no false
    hit; `σ i` is the state that the `i`-th `Exist` reads. -/
theorem lookup_sound (h : ∀ i, Reach (cacheStore C) (NoFalseHit C nShard has) (σ i)) {backend : Backend Block}
    (hB : backend.Reports has)
    (through : Bool) (blocks : List Block) :
    (∀ results, lookup through backend (fun i block => (σ i).buf.exist C.toParams block 0) blocks = .ok results →
      results.length = blocks.length ∧ ∀ (i : Nat) (block : Block), blocks[i]? = some block → results[i]? = some true →
        has block ∨ BlockServed C nShard (σ i) block) ∧
    ∀ r, lookupOnPrefix through backend (fun i block => (σ i).buf.exist C.toParams block 0) blocks = .ok r →
      ∀ (i : Nat) (block : Block), blocks[i]? = some block → (i : Int) ≤ r → has block ∨ BlockServed C nShard (σ i) block := by
  have hhit : ∀ i block, (σ i).buf.exist C.toParams block 0 = true ∨ has block → has block ∨
      BlockServed C nShard (σ i) block := by
    intro i block hor
    rcases hor with hex | hhas
    · exact (reach_hits (h i) block).imp id fun hr => hr.resolve_left (by rw [hex]; decide)
    · exact .inl hhas
  refine ⟨fun results hres => ?_, fun r hres i block hb hi => ?_⟩
  · unfold lookup at hres
    split at hres
    · obtain ⟨hlen, hhas⟩ := hB.lookup _ _ hres
      exact ⟨hlen, fun i block hb ht => .inl (hhas i block hb ht)⟩
    · obtain ⟨hlen, hall⟩ := lookupFast_reports hB hres
      exact ⟨hlen, fun i block hb ht => hhit i block (hall i block hb ht)⟩
  · unfold lookupOnPrefix at hres
    split at hres
    · exact .inl ((hB.lookupOnPrefix _ _ hres).2.2 i block hb hi)
    · exact hhit i block (lookupOnPrefixFast_reports hB hres hb hi)

end Reach

/-! ## A backend that has nothing -/

def emptyBackend : Backend Nat where
  lookup := fun blocks => .ok (blocks.map fun _ => false)
  lookupOnPrefix := fun _ => .ok (-1)

theorem emptyBackend_reports : emptyBackend.Reports fun _ => False := by
  refine ⟨fun blocks vec h => ?_, fun blocks r h => ?_⟩
  · obtain rfl := Except.ok.inj h
    refine ⟨List.length_map .., fun i block _ ht => ?_⟩
    rw [List.getElem?_map] at ht
    obtain ⟨_, _, hf⟩ := Option.map_eq_some_iff.mp ht
    cases hf
  · obtain rfl := Except.ok.inj h
    exact ⟨Int.le_refl _, by omega, fun i block _ hi => by omega⟩

/-- A shard of the block whose load is over is in a node other than `i`. -/
def otherReady (s : Store Nat) (blockId shardIdx i : Nat) : Bool :=
  (List.range 2).any fun j => decide (j ≠ i) && decide (s.buf.hashAt j = some (hashOf twoNodes blockId shardIdx)) &&
    s.buf.carries j blockId shardIdx && decide (s.buf.getState j = .ready)

/-- A check that implies `NoFalseHit` for blocks of two shards, for runs in which no load fails, free nodes are taken, and
    shard 1 is READY before shard 0 is asked for. -/
def loadsFine (s : Store Nat) (l : StoreLabel Nat) : Bool :=
  (match s.asks l with
    | some ((blockId, shardIdx), i) => decide (s.buf.hashAt i = none) && (decide (shardIdx ≠ 0) || otherReady s blockId 1 i)
    | none => true) &&
  match l with
  | .transfer _ (.wait ok) => ok
  | .transfer u .take => !s.failed u
  | .dispatch _ (.submit ok) => ok
  | .dispatch _ .done => false
  | .dump _ _ => false
  | _ => true

theorem served_of_otherReady {s : Store Nat} {blockId shardIdx i : Nat} (h : otherReady s blockId shardIdx i = true) :
    ∃ j, j ≠ i ∧ Served twoNodeStore s blockId shardIdx j := by
  obtain ⟨j, hj, hall⟩ := List.any_eq_true.mp h
  simp only [Bool.and_eq_true, decide_eq_true_eq] at hall
  obtain ⟨⟨⟨hne, hhash⟩, hkeyed⟩, hready⟩ := hall
  exact ⟨j, hne, List.mem_range.mp hj, ⟨hhash, Buf.carries_iff.mp hkeyed⟩, .inl hready⟩

theorem loadsFine_ok (s : Store Nat) (l : StoreLabel Nat) (h : loadsFine s l = true) :
    NoFalseHit twoNodeStore 2 (fun _ => False) s l := by
  obtain ⟨hask, h⟩ := (Bool.and_eq_true ..).mp h
  refine ⟨fun v hv hspoil => ?_, fun blockId shardIdx i hasks _ blockId' shardIdx' hchained => ?_, fun blockId i hasks _ => ?_⟩
  · rcases hspoil with ⟨hd, -⟩ | hf
    · cases l with
      | dispatch p dl =>
        cases dl with
        | done => cases h
        | _ => cases hd
      | transfer u tl =>
        cases tl with
        | take =>
          obtain ⟨rfl, hfailed⟩ := hd
          simp [hfailed] at h
        | _ => cases hd
      | dump p dl => cases h
      | _ => cases hd
    · cases l with
      | dispatch p dl =>
        cases dl with
        | submit ok =>
          obtain ⟨rfl, -⟩ := hf
          cases h
        | _ => cases hf
      | transfer u tl =>
        cases tl with
        | wait ok =>
          obtain ⟨-, rfl, -⟩ := hf
          cases h
        | _ => cases hf
      | _ => cases hf
  · -- the node that is taken is in no chain
    rw [hasks] at hask
    have hnone : s.buf.hashAt i = none := of_decide_eq_true ((Bool.and_eq_true ..).mp hask).1
    have hhash := hchained.1
    rw [hnone] at hhash
    cases hhash
  · rw [hasks] at hask
    have hready : otherReady s blockId 1 i = true := ((Bool.and_eq_true ..).mp hask).2
    refine .inr fun k h0 h1 => ?_
    obtain rfl : k = 1 := by omega
    exact served_of_otherReady hready

/-- A load of shard 1 of block 7, and then one of shard 0, which is with the backend. -/
def loadTwoShards : List (StoreLabel Nat) :=
  [.submit 0 true [(7, 1)] false, .wait 0 (.call 0), .dispatch 0 .start, .dispatch 0 (.get 0), .dispatch 0 (.submit true),
    .dispatch 0 .finish,
    .loadOver 0, .transfer 0 .take, .transfer 0 (.wait true), .submit 0 true [(7, 0)] false, .wait 0 (.call 1),
    .dispatch 0 .start,
    .dispatch 0 (.get 1), .dispatch 0 (.submit true), .dispatch 0 .finish]

/-- A block of two shards is reported when the load of one has come through and that of the other is on its way. -/
theorem lookup_sound_two_shards : ∃ s, Reach (cacheStore twoNodeStore) (NoFalseHit twoNodeStore 2 fun _ => False) s ∧
    s.buf.getState 0 = .ready ∧ s.buf.getState 1 = .loading ∧
    lookup false emptyBackend (fun _ block => s.buf.exist twoNodeStore.toParams block 0) [7, 8] = .ok [true, false] ∧
    BlockServed twoNodeStore 2 s 7 := by
  obtain ⟨s, hs, hp⟩ := exists_of_replayOk (S := cacheStore twoNodeStore) loadsFine loadsFine_ok
    (p := fun s => s.buf.exist twoNodeStore.toParams 7 0 && !s.buf.exist twoNodeStore.toParams 8 0 &&
      decide (s.buf.getState 0 = .ready) &&
      decide (s.buf.getState 1 = .loading)) loadTwoShards freshStore_init (by decide)
  obtain ⟨⟨⟨hseven, height⟩, hready⟩, hloading⟩ :
      ((s.buf.exist twoNodeStore.toParams 7 0 = true ∧ s.buf.exist twoNodeStore.toParams 8 0 = false) ∧
      s.buf.getState 0 = .ready) ∧ s.buf.getState 1 = .loading := by
    simpa using hp
  have hres : lookup false emptyBackend (fun _ block => s.buf.exist twoNodeStore.toParams block 0) [7, 8] = .ok
      [true, false] := by
    simp [lookup, lookupFast, lookupBuffer, fillResults, emptyBackend, hseven, height]
  exact ⟨s, hs, hready, hloading, hres,
    (((lookup_sound (fun _ => hs) emptyBackend_reports false [7, 8]).1 _ hres).2 0 7 rfl rfl).resolve_left id⟩

/-- The backend's load of block 7 fails, and the block is reported. -/
theorem false_hit : ∃ s, Reach (cacheStore oneNode) Any s ∧ s.buf.getState 0 = .failed ∧
    lookup false emptyBackend (fun _ block => s.buf.exist oneNode.toParams block 0) [7] = .ok [true] ∧
    lookupOnPrefix false emptyBackend (fun _ block => s.buf.exist oneNode.toParams block 0) [7] = .ok 0 ∧
    ¬ BlockServed oneNode 1 s 7 := by
  obtain ⟨s, hs, hp⟩ := exists_of_replay (S := cacheStore oneNode)
    (p := fun s => decide (s.buf.getState 0 = .failed ∧ s.buf.exist oneNode.toParams 7 0 = true))
    (loadOne ++ [.loadOver 0, .transfer 0 .take, .transfer 0 (.wait false)]) freshStore_init (by decide)
  obtain ⟨hfailed, hex⟩ := of_decide_eq_true hp
  refine ⟨s, hs, hfailed, by simp [lookup, lookupFast, lookupBuffer, hex],
    by simp [lookupOnPrefix, lookupOnPrefixFast, lookupBuffer, hex], fun hserved => ?_⟩
  obtain ⟨i, hlt, -, hst⟩ := hserved 0 (by decide)
  obtain rfl : i = 0 := by
    have : i < 1 := hlt
    omega
  rw [hfailed] at hst
  rcases hst with hst | ⟨hst, -⟩ <;> cases hst

end UnifiedCache.Cache
