/-
  UnifiedCache.Cache.BufferIndex — the hash index of the host buffer, section by section
  (see `UnifiedCache.Cache.TransBuffer`).

  `Rep`: each bucket's chain is a finite doubly linked list of distinct nodes, the nodes
  whose recorded hash is that bucket; a chained node's key hashes to its chain; no two
  chained nodes carry one key. Proved:
  - `allocAt_spec`: a successful section of `Alloc` keeps `Rep`, whichever of the three cases
    the node is in (same bucket, no bucket, stolen from another bucket), and touches only the
    key's bucket and a bucket whose try-lock succeeded.
  - `Scanned.next`, `Scanned.done`: a search that reaches the end has proved the key absent.
  - Every other section leaves the index alone (`SameIndex`).

  `FrameAt k` is what a step that does not touch bucket `k` keeps of it.
-/

import UnifiedCache.Base.DoublyLinked
import UnifiedCache.Cache.TransBuffer

namespace UnifiedCache.Cache

open UnifiedCache.Base

variable {Block : Type} (P : Params Block)

namespace Buf

abbrev nextOf (b : Buf Block) (i : Nat) : Option Nat := (b.metaAt i).next

abbrev prevOf (b : Buf Block) (i : Nat) : Option Nat := (b.metaAt i).prev

abbrev hashAt (b : Buf Block) (i : Nat) : Option Nat := (b.metaAt i).hash

/-- The chain of bucket `k` is `l`. -/
def Chain (b : Buf Block) (k : Nat) (l : List Nat) : Prop := IsList b.nextOf b.prevOf (b.buckets k) l

/-- Node `i` caches the shard. -/
def Keyed (b : Buf Block) (i : Nat) (blockId : Block) (shardIdx : Nat) : Prop :=
  (b.metaAt i).block = blockId ∧ (b.metaAt i).shard = shardIdx

theorem carries_iff [DecidableEq Block] {b : Buf Block} {i : Nat} {blockId : Block} {shardIdx : Nat} :
    b.carries i blockId shardIdx = true ↔ b.Keyed i blockId shardIdx := by
  simp [carries, Keyed]

end Buf

structure Rep (b : Buf Block) : Prop where
  chain : ∀ k, ∃ l, b.Chain k l ∧ ∀ i, i ∈ l ↔ b.hashAt i = some k
  detached : ∀ i, b.hashAt i = none → b.prevOf i = none
  keyed : ∀ i k, b.hashAt i = some k → hashOf P (b.metaAt i).block (b.metaAt i).shard = k
  uniq : ∀ i j k blockId shardIdx, b.hashAt i = some k → b.hashAt j = some k →
    b.Keyed i blockId shardIdx → b.Keyed j blockId shardIdx → i = j

/-- No node of the key's bucket carries it. -/
def NotChained (b : Buf Block) (blockId : Block) (shardIdx : Nat) : Prop :=
  ∀ i, b.hashAt i = some (hashOf P blockId shardIdx) → ¬ b.Keyed i blockId shardIdx

/-- A search of bucket `k` for the key has passed nodes that do not carry it and stands at `cur`. -/
def Scanned (b : Buf Block) (k : Nat) (blockId : Block) (shardIdx : Nat) (cur : Option Nat) : Prop :=
  ∃ a r, b.Chain k (a ++ r) ∧ (∀ i, i ∈ a ++ r ↔ b.hashAt i = some k) ∧ cur = r.head? ∧
    ∀ j ∈ a, ¬ b.Keyed j blockId shardIdx

variable {P}

theorem Rep.hash_of_keyed {b : Buf Block} (h : Rep P b) {i k : Nat} {blockId : Block} {shardIdx : Nat}
    (hi : b.hashAt i = some k) (hc : b.Keyed i blockId shardIdx) : k = hashOf P blockId shardIdx := by
  rw [← hc.1, ← hc.2, h.keyed i k hi]

/-! ## Searching a chain -/

theorem Rep.scan_start {b : Buf Block} (h : Rep P b) (k : Nat) (blockId : Block) (shardIdx : Nat) :
    Scanned b k blockId shardIdx (b.buckets k) := by
  obtain ⟨l, hl, hm⟩ := h.chain k
  exact ⟨[], l, hl, hm, hl.head_eq, by simp⟩

theorem Scanned.mem {b : Buf Block} {k i : Nat} {blockId : Block} {shardIdx : Nat}
    (h : Scanned b k blockId shardIdx (some i)) : b.hashAt i = some k := by
  obtain ⟨a, r, _, hm, hc, _⟩ := h
  exact (hm i).mp (List.mem_append_right _ (List.mem_of_mem_head? hc.symm))

theorem Scanned.next {b : Buf Block} {k i : Nat} {blockId : Block} {shardIdx : Nat}
    (h : Scanned b k blockId shardIdx (some i)) (hn : ¬ b.Keyed i blockId shardIdx) :
    Scanned b k blockId shardIdx (b.nextOf i) := by
  obtain ⟨a, r, hl, hm, hc, ha⟩ := h
  cases r with
  | nil => simp at hc
  | cons j r =>
    obtain rfl : i = j := by simpa using hc
    refine ⟨a ++ [i], r, by simpa using hl, by simpa using hm, hl.split.2.2.1, fun j hj => ?_⟩
    rcases List.mem_append.mp hj with hj | hj
    · exact ha j hj
    · rw [List.mem_singleton.mp hj]; exact hn

theorem Scanned.done {b : Buf Block} {blockId : Block} {shardIdx : Nat}
    (h : Scanned b (hashOf P blockId shardIdx) blockId shardIdx none) : NotChained P b blockId shardIdx := by
  obtain ⟨a, r, _, hm, hc, ha⟩ := h
  intro i hi
  obtain rfl : r = [] := List.head?_eq_none_iff.mp hc.symm
  exact ha i (by simpa using (hm i).mpr hi)

/-! ## Steps that leave the index alone -/

/-- `b'` has the index of `b`: only reference counts, states and the cursor may differ. -/
structure SameIndex (b b' : Buf Block) : Prop where
  buckets : b'.buckets = b.buckets
  block : ∀ i, (b'.metaAt i).block = (b.metaAt i).block
  shard : ∀ i, (b'.metaAt i).shard = (b.metaAt i).shard
  hash : ∀ i, b'.hashAt i = b.hashAt i
  prev : ∀ i, b'.prevOf i = b.prevOf i
  next : ∀ i, b'.nextOf i = b.nextOf i

theorem SameIndex.refl (b : Buf Block) : SameIndex b b :=
  ⟨rfl, fun _ => rfl, fun _ => rfl, fun _ => rfl, fun _ => rfl, fun _ => rfl⟩

theorem SameIndex.keyed {b b' : Buf Block} (h : SameIndex b b') {i : Nat} {blockId : Block} {shardIdx : Nat} :
    b'.Keyed i blockId shardIdx ↔ b.Keyed i blockId shardIdx := by
  simp only [Buf.Keyed, h.block i, h.shard i]

theorem SameIndex.rep {b b' : Buf Block} (h : SameIndex b b') (hr : Rep P b) : Rep P b' := by
  refine ⟨fun k => ?_, fun i hi => ?_, fun i k hi => ?_, fun i j k blockId shardIdx hi hj hci hcj => ?_⟩
  · obtain ⟨l, hl, hm⟩ := hr.chain k
    refine ⟨l, hl.congr (fun i _ => h.next i) (fun i _ => h.prev i) (by rw [h.buckets]), fun i => ?_⟩
    rw [hm i, h.hash i]
  · rw [h.prev i]; exact hr.detached i (h.hash i ▸ hi)
  · rw [h.block i, h.shard i]; exact hr.keyed i k (h.hash i ▸ hi)
  · rw [h.hash] at hi hj
    exact hr.uniq i j k blockId shardIdx hi hj (h.keyed.mp hci) (h.keyed.mp hcj)

/-- A node's update that keeps its key and links. -/
theorem sameIndex_setMeta (b : Buf Block) (i : Nat) (m : BufferMetaNode Block) (hb : m.block = (b.metaAt i).block)
    (hs : m.shard = (b.metaAt i).shard) (hh : m.hash = (b.metaAt i).hash) (hp : m.prev = (b.metaAt i).prev)
    (hn : m.next = (b.metaAt i).next) : SameIndex b (b.setMeta i m) := by
  have key : ∀ {α : Type} (f : BufferMetaNode Block → α), f m = f (b.metaAt i) →
      ∀ j, f ((b.setMeta i m).metaAt j) = f (b.metaAt j) := by
    intro α f hf j
    by_cases e : j = i
    · subst e; simpa [Buf.setMeta] using hf
    · simp [Buf.setMeta, Function.update_of_ne e]
  exact ⟨rfl, key _ hb, key _ hs, key _ hh, key _ hp, key _ hn⟩

theorem sameIndex_findHit (b : Buf Block) (i : Nat) : SameIndex b (b.findHit i).1 := by
  unfold Buf.findHit
  simp only
  split <;> exact sameIndex_setMeta b i _ rfl rfl rfl rfl rfl

theorem sameIndex_fetchNode (b : Buf Block) (r : Bool) : SameIndex b (b.fetchNode P r).1 :=
  ⟨rfl, fun _ => rfl, fun _ => rfl, fun _ => rfl, fun _ => rfl, fun _ => rfl⟩

theorem sameIndex_acquire (b : Buf Block) (i : Nat) : SameIndex b (b.acquire i) :=
  sameIndex_setMeta b i _ rfl rfl rfl rfl rfl

theorem sameIndex_release (b : Buf Block) (i : Nat) : SameIndex b (b.release i) :=
  sameIndex_setMeta b i _ rfl rfl rfl rfl rfl

theorem sameIndex_markReady (b : Buf Block) (i : Nat) : SameIndex b (b.markReady i) := by
  unfold Buf.markReady
  split
  · exact sameIndex_setMeta b i _ rfl rfl rfl rfl rfl
  · exact .refl b

theorem sameIndex_markFailed (b : Buf Block) (i : Nat) (st : StatusCode) : SameIndex b (b.markFailed i st) := by
  unfold Buf.markFailed
  split
  · exact sameIndex_setMeta b i _ rfl rfl rfl rfl rfl
  · exact .refl b

theorem sameIndex_markNotReady (b : Buf Block) (i : Nat) : SameIndex b (b.markNotReady i) :=
  sameIndex_setMeta b i _ rfl rfl rfl rfl rfl

/-! ## What the steps of `Alloc` do to each node -/

@[simp] theorem setMeta_metaAt (b : Buf Block) (i j : Nat) (m : BufferMetaNode Block) :
    (b.setMeta i m).metaAt j = if j = i then m else b.metaAt j := by
  simp [Buf.setMeta, Function.update_apply]

@[simp] theorem setNext_metaAt (b : Buf Block) (p o : Option Nat) (j : Nat) :
    (b.setNext p o).metaAt j = { b.metaAt j with next := if p = some j then o else (b.metaAt j).next } := by
  cases p with
  | none => simp [Buf.setNext]
  | some p =>
    by_cases e : j = p
    · subst e; simp [Buf.setNext]
    · simp [Buf.setNext, e, Ne.symm e]

@[simp] theorem setPrev_metaAt (b : Buf Block) (n o : Option Nat) (j : Nat) :
    (b.setPrev n o).metaAt j = { b.metaAt j with prev := if n = some j then o else (b.metaAt j).prev } := by
  cases n with
  | none => simp [Buf.setPrev]
  | some n =>
    by_cases e : j = n
    · subst e; simp [Buf.setPrev]
    · simp [Buf.setPrev, e, Ne.symm e]

@[simp] theorem setMeta_buckets (b : Buf Block) (i : Nat) (m : BufferMetaNode Block) :
    (b.setMeta i m).buckets = b.buckets := rfl

@[simp] theorem setNext_buckets (b : Buf Block) (p o : Option Nat) : (b.setNext p o).buckets = b.buckets := by
  cases p <;> rfl

@[simp] theorem setPrev_buckets (b : Buf Block) (n o : Option Nat) : (b.setPrev n o).buckets = b.buckets := by
  cases n <;> rfl

@[simp] theorem setFirst_metaAt (b : Buf Block) (k : Nat) (o : Option Nat) : (b.setFirst k o).metaAt = b.metaAt := rfl

theorem moveTo_metaAt (b : Buf Block) (k i j : Nat) (hne : b.buckets k ≠ some i) :
    (b.moveTo k i).metaAt j =
      if j = i then { b.metaAt i with next := b.buckets k, hash := some k }
      else { b.metaAt j with prev := if b.buckets k = some j then some i else (b.metaAt j).prev } := by
  simp only [Buf.moveTo, setFirst_metaAt, setMeta_metaAt, setPrev_metaAt, setNext_metaAt]
  by_cases e : j = i
  · subst e; simp [hne]
  · simp [e, Ne.symm e]

@[simp] theorem moveTo_buckets (b : Buf Block) (k i : Nat) :
    (b.moveTo k i).buckets = Function.update b.buckets k (some i) := by
  simp [Buf.moveTo, Buf.setFirst]

theorem remove_metaAt (b : Buf Block) (k i j : Nat) (hp : b.prevOf i ≠ some i) (hn : b.nextOf i ≠ some i) :
    (b.remove k i).metaAt j =
      if j = i then { b.metaAt i with prev := none, next := none, hash := none }
      else { b.metaAt j with
        next := if b.prevOf i = some j then b.nextOf i else b.nextOf j
        prev := if b.nextOf i = some j then b.prevOf i else b.prevOf j } := by
  have h1 : ∀ (b : Buf Block) (c : Prop) [Decidable c] (o : Option Nat),
      (if c then b.setFirst k o else b).metaAt = b.metaAt := by
    intro b c _ o
    split <;> rfl
  simp only [Buf.remove, setMeta_metaAt, h1, setPrev_metaAt, setNext_metaAt]
  by_cases e : j = i
  · subst e; simp
  · simp [e, hp]

theorem remove_buckets (b : Buf Block) (k i j : Nat) (hp : b.prevOf i ≠ some i) :
    (b.remove k i).buckets j = if j = k ∧ b.buckets k = some i then b.nextOf i else b.buckets j := by
  simp only [Buf.remove, setMeta_buckets, setPrev_buckets, setNext_buckets, setNext_metaAt]
  by_cases h : b.buckets k = some i
  · by_cases e : j = k <;> simp [h, e, Buf.setFirst, hp]
  · simp [h]

@[simp] theorem claim_buckets (b : Buf Block) (i : Nat) (blockId : Block) (shardIdx : Nat) :
    (b.claim i blockId shardIdx).buckets = b.buckets := rfl

theorem claim_metaAt (b : Buf Block) (i j : Nat) (blockId : Block) (shardIdx : Nat) :
    (b.claim i blockId shardIdx).metaAt j =
      if j = i then { b.metaAt i with
        reference := (b.metaAt i).reference + 1, block := blockId, shard := shardIdx, state := .loading
        errorCode := statusOK }
      else b.metaAt j := by
  simp [Buf.claim]

/-! ## Steps that leave one bucket alone -/

/-- Bucket `k` has the same chain of the same nodes and keys in `b'` as in `b`. -/
structure FrameAt (k : Nat) (b b' : Buf Block) : Prop where
  first : b'.buckets k = b.buckets k
  hash : ∀ i, b'.hashAt i = some k ↔ b.hashAt i = some k
  block : ∀ i, b.hashAt i = some k → (b'.metaAt i).block = (b.metaAt i).block
  shard : ∀ i, b.hashAt i = some k → (b'.metaAt i).shard = (b.metaAt i).shard
  prev : ∀ i, b.hashAt i = some k → b'.prevOf i = b.prevOf i
  next : ∀ i, b.hashAt i = some k → b'.nextOf i = b.nextOf i

theorem SameIndex.frame {b b' : Buf Block} (h : SameIndex b b') (k : Nat) : FrameAt k b b' :=
  ⟨by rw [h.buckets], fun i => by rw [h.hash], fun i _ => h.block i, fun i _ => h.shard i, fun i _ => h.prev i,
    fun i _ => h.next i⟩

theorem FrameAt.trans {k : Nat} {b b' b'' : Buf Block} (h : FrameAt k b b') (h' : FrameAt k b' b'') :
    FrameAt k b b'' := by
  have hk : ∀ i, b.hashAt i = some k → b'.hashAt i = some k := fun i hi => (h.hash i).mpr hi
  exact ⟨h'.first.trans h.first, fun i => (h'.hash i).trans (h.hash i),
    fun i hi => (h'.block i (hk i hi)).trans (h.block i hi), fun i hi => (h'.shard i (hk i hi)).trans (h.shard i hi),
    fun i hi => (h'.prev i (hk i hi)).trans (h.prev i hi), fun i hi => (h'.next i (hk i hi)).trans (h.next i hi)⟩

theorem FrameAt.chain {k : Nat} {b b' : Buf Block} (h : FrameAt k b b') {l : List Nat} (hl : b.Chain k l)
    (hm : ∀ i, i ∈ l ↔ b.hashAt i = some k) : b'.Chain k l ∧ ∀ i, i ∈ l ↔ b'.hashAt i = some k :=
  ⟨hl.congr (fun i hi => h.next i ((hm i).mp hi)) (fun i hi => h.prev i ((hm i).mp hi)) h.first,
    fun i => (hm i).trans (h.hash i).symm⟩

theorem FrameAt.keyed {k : Nat} {b b' : Buf Block} (h : FrameAt k b b') {i : Nat} (hi : b.hashAt i = some k)
    {blockId : Block} {shardIdx : Nat} : b'.Keyed i blockId shardIdx ↔ b.Keyed i blockId shardIdx := by
  simp only [Buf.Keyed, h.block i hi, h.shard i hi]

/-! ## The representation through `Alloc` -/

/-- Unlinking a chained node leaves it detached and the other buckets alone. -/
theorem Rep.remove {b : Buf Block} (h : Rep P b) {i k : Nat} (hi : b.hashAt i = some k) :
    Rep P (b.remove k i) ∧ (b.remove k i).hashAt i = none ∧ ∀ k', k' ≠ k → FrameAt k' b (b.remove k i) := by
  obtain ⟨l, hl, hm⟩ := h.chain k
  have hil : i ∈ l := (hm i).mpr hi
  have hp := hl.prev_ne hil
  have hn := hl.next_ne hil
  have hmeta := fun j => remove_metaAt b k i j hp hn
  have hkey : ∀ j, ((b.remove k i).metaAt j).block = (b.metaAt j).block ∧
      ((b.remove k i).metaAt j).shard = (b.metaAt j).shard := by
    intro j
    rw [hmeta j]
    split
    · next e => subst e; exact ⟨rfl, rfl⟩
    · exact ⟨rfl, rfl⟩
  have hhash : ∀ j, (b.remove k i).hashAt j = if j = i then none else b.hashAt j := by
    intro j
    rw [Buf.hashAt, hmeta j]
    split <;> rfl
  have hchain : (b.remove k i).Chain k (l.erase i) := by
    refine hl.unlink hil (fun j _ hji => ?_) (fun j _ hji => ?_) ?_
    · simp [Buf.nextOf, hmeta j, hji]
    · simp [Buf.prevOf, hmeta j, hji]
    · rw [remove_buckets b k i k hp]; simp
  have hframe : ∀ k', k' ≠ k → FrameAt k' b (b.remove k i) := by
    intro k' hk
    have hne : ∀ j, b.hashAt j = some k' → j ≠ i := by
      intro j hj e
      subst e
      exact hk (by rw [hi] at hj; simpa using hj.symm)
    have hnl : ∀ j, b.hashAt j = some k' → b.prevOf i ≠ some j ∧ b.nextOf i ≠ some j := by
      intro j hj
      have hjl : j ∉ l := fun hjl => hk (by rw [(hm j).mp hjl] at hj; simpa using hj.symm)
      exact ⟨fun e => hjl (hl.prev_mem hil e).1, fun e => hjl (hl.next_mem hil e).1⟩
    refine ⟨by rw [remove_buckets b k i k' hp]; simp [hk], fun j => ?_, fun j _ => (hkey j).1, fun j _ => (hkey j).2,
      fun j hj => ?_, fun j hj => ?_⟩
    · rw [hhash j]
      constructor
      · intro hj; split at hj
        · cases hj
        · exact hj
      · intro hj; rw [if_neg (hne j hj)]; exact hj
    · simp [Buf.prevOf, hmeta j, hne j hj, (hnl j hj).2]
    · simp [Buf.nextOf, hmeta j, hne j hj, (hnl j hj).1]
  refine ⟨⟨fun k' => ?_, fun j hj => ?_, fun j k' hj => ?_, fun j j' k' blockId shardIdx hj hj' hc hc' => ?_⟩,
    by rw [hhash i, if_pos rfl], hframe⟩
  · by_cases e : k' = k
    · subst e
      refine ⟨l.erase i, hchain, fun j => ?_⟩
      rw [hl.nodup.mem_erase_iff, hhash j, hm j]
      by_cases e : j = i <;> simp [e]
    · obtain ⟨l', hl', hm'⟩ := h.chain k'
      exact ⟨l', (hframe k' e).chain hl' hm'⟩
  · by_cases e : j = i
    · subst e; simp [Buf.prevOf, hmeta]
    · rw [hhash j, if_neg e] at hj
      have hne : b.nextOf i ≠ some j := by
        intro en
        have hj' := (hm j).mp (hl.next_mem hil en).1
        rw [hj] at hj'; cases hj'
      simpa [Buf.prevOf, hmeta j, e, hne] using h.detached j hj
  · rw [hhash j] at hj
    split at hj
    · cases hj
    · rw [(hkey j).1, (hkey j).2]; exact h.keyed j k' hj
  · rw [hhash j] at hj
    rw [hhash j'] at hj'
    split at hj <;> split at hj' <;> try cases hj
    · cases hj'
    · refine h.uniq j j' k' blockId shardIdx hj hj' ?_ ?_
      · simpa only [Buf.Keyed, hkey] using hc
      · simpa only [Buf.Keyed, hkey] using hc'

/-- The index but for node `i`'s key, which is about to be rewritten. -/
structure RepBut (P : Params Block) (i : Nat) (b : Buf Block) : Prop where
  chain : ∀ k, ∃ l, b.Chain k l ∧ ∀ j, j ∈ l ↔ b.hashAt j = some k
  detached : ∀ j, b.hashAt j = none → b.prevOf j = none
  keyed : ∀ j k, j ≠ i → b.hashAt j = some k → hashOf P (b.metaAt j).block (b.metaAt j).shard = k
  uniq : ∀ j j' k blockId shardIdx, j ≠ i → j' ≠ i → b.hashAt j = some k → b.hashAt j' = some k →
    b.Keyed j blockId shardIdx → b.Keyed j' blockId shardIdx → j = j'

theorem Rep.but {b : Buf Block} (h : Rep P b) (i : Nat) : RepBut P i b :=
  ⟨h.chain, h.detached, fun j k _ => h.keyed j k, fun j j' k blockId shardIdx _ _ => h.uniq j j' k blockId shardIdx⟩

theorem NotChained.frame {b b' : Buf Block} {blockId : Block} {shardIdx : Nat}
    (h : NotChained P b blockId shardIdx) (hf : FrameAt (hashOf P blockId shardIdx) b b') :
    NotChained P b' blockId shardIdx := by
  intro i hi hk
  have hi' := (hf.hash i).mp hi
  exact h i hi' ((hf.keyed hi').mp hk)

/-- Pushing a detached node to the front of bucket `k`. -/
theorem Rep.moveTo {b : Buf Block} (h : Rep P b) {i k : Nat} (hi : b.hashAt i = none) :
    RepBut P i (b.moveTo k i) ∧ (b.moveTo k i).hashAt i = some k ∧
      (∀ j, j ≠ i → (b.moveTo k i).hashAt j = b.hashAt j ∧ ((b.moveTo k i).metaAt j).block = (b.metaAt j).block ∧
        ((b.moveTo k i).metaAt j).shard = (b.metaAt j).shard) ∧
      ∀ k', k' ≠ k → FrameAt k' b (b.moveTo k i) := by
  obtain ⟨l, hl, hm⟩ := h.chain k
  have hil : i ∉ l := fun hil => by rw [(hm i).mp hil] at hi; cases hi
  have hhead : b.buckets k ≠ some i := fun e => hil (List.mem_of_mem_head? (hl.head_eq ▸ e))
  have hmeta := fun j => moveTo_metaAt b k i j hhead
  have hself : (b.moveTo k i).hashAt i = some k := by simp [Buf.hashAt, hmeta]
  have hother : ∀ j, j ≠ i → (b.moveTo k i).hashAt j = b.hashAt j ∧
      ((b.moveTo k i).metaAt j).block = (b.metaAt j).block ∧ ((b.moveTo k i).metaAt j).shard = (b.metaAt j).shard := by
    intro j hj
    simp [Buf.hashAt, hmeta j, hj]
  have hchain : (b.moveTo k i).Chain k (i :: l) := by
    unfold Buf.Chain
    rw [moveTo_buckets, Function.update_self]
    have hne : ∀ j ∈ l, j ≠ i := fun j hj e => hil (e ▸ hj)
    refine hl.push_front hil ?_ ?_ (fun j hj => ?_) (fun j hj => ?_)
    · simp [Buf.nextOf, hmeta]
    · simpa [Buf.prevOf, hmeta] using h.detached i hi
    · simp [Buf.nextOf, hmeta j, hne j hj]
    · simp [Buf.prevOf, hmeta j, hne j hj]
  have hframe : ∀ k', k' ≠ k → FrameAt k' b (b.moveTo k i) := by
    intro k' hk
    have hne : ∀ j, b.hashAt j = some k' → j ≠ i := by
      intro j hj e
      subst e
      rw [hi] at hj; cases hj
    refine ⟨by rw [moveTo_buckets, Function.update_of_ne hk], fun j => ?_, fun j hj => (hother j (hne j hj)).2.1,
      fun j hj => (hother j (hne j hj)).2.2, fun j hj => ?_, fun j hj => ?_⟩
    · by_cases e : j = i
      · subst e
        simp [hself, hi, Ne.symm hk]
      · rw [(hother j e).1]
    · have hnh : b.buckets k ≠ some j := by
        intro e
        have hj' := (hm j).mp (List.mem_of_mem_head? (hl.head_eq ▸ e))
        rw [hj] at hj'
        exact hk (by simpa using hj')
      simp [Buf.prevOf, hmeta j, hne j hj, hnh]
    · simp [Buf.nextOf, hmeta j, hne j hj]
  refine ⟨⟨fun k' => ?_, fun j hj => ?_, fun j k' hji hj => ?_, fun j j' k' blockId shardIdx hji hji' hj hj' hk hk' => ?_⟩,
    hself, hother, hframe⟩
  · by_cases e : k' = k
    · subst e
      refine ⟨i :: l, hchain, fun j => ?_⟩
      by_cases e : j = i
      · subst e; simp [hself]
      · simp [e, hm j, (hother j e).1]
    · obtain ⟨l', hl', hm'⟩ := h.chain k'
      exact ⟨l', (hframe k' e).chain hl' hm'⟩
  · have hji : j ≠ i := fun e => by subst e; rw [hself] at hj; cases hj
    rw [(hother j hji).1] at hj
    have hnh : b.buckets k ≠ some j := by
      intro e
      have hj' := (hm j).mp (List.mem_of_mem_head? (hl.head_eq ▸ e))
      rw [hj] at hj'; cases hj'
    simpa [Buf.prevOf, hmeta j, hji, hnh] using h.detached j hj
  · obtain ⟨h1, h2, h3⟩ := hother j hji
    rw [h2, h3]
    exact h.keyed j k' (h1 ▸ hj)
  · obtain ⟨h1, h2, h3⟩ := hother j hji
    obtain ⟨h1', h2', h3'⟩ := hother j' hji'
    refine h.uniq j j' k' blockId shardIdx (h1 ▸ hj) (h1' ▸ hj') ?_ ?_
    · simpa only [Buf.Keyed, h2, h3] using hk
    · simpa only [Buf.Keyed, h2', h3'] using hk'

/-- Giving a node of the key's bucket that key, which no other node of the bucket has. -/
theorem RepBut.claim {b : Buf Block} {i : Nat} {blockId : Block} {shardIdx : Nat} (h : RepBut P i b)
    (hi : b.hashAt i = some (hashOf P blockId shardIdx))
    (hc : ∀ j, j ≠ i → b.hashAt j = some (hashOf P blockId shardIdx) → ¬ b.Keyed j blockId shardIdx) :
    Rep P (b.claim i blockId shardIdx) ∧ (b.claim i blockId shardIdx).hashAt i = some (hashOf P blockId shardIdx) ∧
      (b.claim i blockId shardIdx).Keyed i blockId shardIdx ∧
      ∀ k, k ≠ hashOf P blockId shardIdx → FrameAt k b (b.claim i blockId shardIdx) := by
  have hmeta := fun j => claim_metaAt b i j blockId shardIdx
  have hhash : ∀ j, (b.claim i blockId shardIdx).hashAt j = b.hashAt j := by
    intro j
    rw [Buf.hashAt, hmeta j]
    split
    · next e => subst e; rfl
    · rfl
  have hlinks : ∀ j, (b.claim i blockId shardIdx).prevOf j = b.prevOf j ∧
      (b.claim i blockId shardIdx).nextOf j = b.nextOf j := by
    intro j
    rw [Buf.prevOf, Buf.nextOf, hmeta j]
    split
    · next e => subst e; exact ⟨rfl, rfl⟩
    · exact ⟨rfl, rfl⟩
  have hkeyed : (b.claim i blockId shardIdx).Keyed i blockId shardIdx := by
    simp [Buf.Keyed, hmeta]
  have hother : ∀ j, j ≠ i → (b.claim i blockId shardIdx).metaAt j = b.metaAt j := by
    intro j hj
    rw [hmeta j, if_neg hj]
  refine ⟨⟨fun k => ?_, fun j hj => ?_, fun j k hj => ?_, fun j j' k blockId' shardIdx' hj hj' hjk hjk' => ?_⟩,
    by rw [hhash, hi], hkeyed, fun k hk => ?_⟩
  · obtain ⟨l, hl, hm⟩ := h.chain k
    refine ⟨l, hl.congr (fun j _ => (hlinks j).2) (fun j _ => (hlinks j).1) rfl, fun j => ?_⟩
    rw [hm j, hhash j]
  · rw [(hlinks j).1]; exact h.detached j (hhash j ▸ hj)
  · rw [hhash j] at hj
    by_cases e : j = i
    · subst e
      rw [hkeyed.1, hkeyed.2]
      simpa [hi] using hj
    · rw [hother j e]; exact h.keyed j k e hj
  · rw [hhash] at hj hj'
    have hnew : ∀ j, j ≠ i → b.hashAt j = some k → (b.claim i blockId shardIdx).Keyed j blockId' shardIdx' →
        b.hashAt i = some k → (b.claim i blockId shardIdx).Keyed i blockId' shardIdx' → False := by
      intro j hji hj hk hik hki
      have hk' : b.Keyed j blockId' shardIdx' := by simpa only [Buf.Keyed, hother j hji] using hk
      obtain rfl : blockId = blockId' := hkeyed.1.symm.trans hki.1
      obtain rfl : shardIdx = shardIdx' := hkeyed.2.symm.trans hki.2
      exact hc j hji (hj.trans (hik.symm.trans hi)) hk'
    by_cases e : j = i
    · by_cases e' : j' = i
      · rw [e, e']
      · subst e; exact (hnew j' e' hj' hjk' hj hjk).elim
    · by_cases e' : j' = i
      · subst e'; exact (hnew j e hj hjk hj' hjk').elim
      · refine h.uniq j j' k blockId' shardIdx' e e' hj hj' ?_ ?_
        · simpa only [Buf.Keyed, hother j e] using hjk
        · simpa only [Buf.Keyed, hother j' e'] using hjk'
  · have hne : ∀ j, b.hashAt j = some k → j ≠ i := by
      intro j hj e
      subst e
      exact hk (by rw [hi] at hj; simpa using hj.symm)
    exact ⟨rfl, fun j => by rw [hhash j], fun j hj => by rw [hother j (hne j hj)],
      fun j hj => by rw [hother j (hne j hj)], fun j _ => (hlinks j).1, fun j _ => (hlinks j).2⟩

/-- `MoveTo` and the new owner's fields, for a node in no bucket. -/
theorem Rep.insert {b : Buf Block} (h : Rep P b) {i : Nat} {blockId : Block} {shardIdx : Nat} (hi : b.hashAt i = none)
    (hc : NotChained P b blockId shardIdx) :
    let b' := (b.moveTo (hashOf P blockId shardIdx) i).claim i blockId shardIdx
    Rep P b' ∧ b'.hashAt i = some (hashOf P blockId shardIdx) ∧ b'.Keyed i blockId shardIdx ∧
      ∀ k, k ≠ hashOf P blockId shardIdx → FrameAt k b b' := by
  obtain ⟨hbut, hself, hother, hframe⟩ := h.moveTo (k := hashOf P blockId shardIdx) hi
  obtain ⟨h1, h2, h3, h4⟩ := hbut.claim hself (fun j hji hj hk => by
    obtain ⟨e1, e2, e3⟩ := hother j hji
    exact hc j (e1 ▸ hj) (by simpa only [Buf.Keyed, e2, e3] using hk))
  exact ⟨h1, h2, h3, fun k hk => (hframe k hk).trans (h4 k hk)⟩

/-- The whole section of `Alloc` at a node: it keeps the index, chains the node under the new
    key, and touches only the key's bucket and one whose try-lock succeeded. -/
theorem allocAt_spec {b b' : Buf Block} (h : Rep P b) {tryLock : Nat → Bool} {i : Nat} {blockId : Block} {shardIdx : Nat}
    (hc : NotChained P b blockId shardIdx)
    (he : b.allocAt tryLock (hashOf P blockId shardIdx) i blockId shardIdx = some b') :
    Rep P b' ∧ b'.hashAt i = some (hashOf P blockId shardIdx) ∧ b'.Keyed i blockId shardIdx ∧
      ∀ k, k ≠ hashOf P blockId shardIdx → tryLock k = false → FrameAt k b b' := by
  unfold Buf.allocAt at he
  by_cases href : (b.metaAt i).reference > 0
  · simp [href] at he
  rw [if_neg href] at he
  by_cases hsame : (b.metaAt i).hash = some (hashOf P blockId shardIdx)
  · rw [if_pos hsame] at he
    obtain rfl := Option.some.inj he
    obtain ⟨h1, h2, h3, h4⟩ := (h.but i).claim hsame (fun j _ hj => hc j hj)
    exact ⟨h1, h2, h3, fun k hk _ => h4 k hk⟩
  rw [if_neg hsame] at he
  cases hold : (b.metaAt i).hash with
  | none =>
    simp only [hold] at he
    obtain rfl := Option.some.inj he
    obtain ⟨h1, h2, h3, h4⟩ := h.insert hold hc
    exact ⟨h1, h2, h3, fun k hk _ => h4 k hk⟩
  | some oldBucket =>
    simp only [hold] at he
    split at he
    · next htry =>
      obtain rfl := Option.some.inj he
      obtain ⟨hr, hnone, hfr⟩ := h.remove hold
      have hne : hashOf P blockId shardIdx ≠ oldBucket := fun e => hsame (by rw [hold, e])
      obtain ⟨h1, h2, h3, h4⟩ := hr.insert hnone (hc.frame (hfr _ hne))
      refine ⟨h1, h2, h3, fun k hk hlock => ?_⟩
      have hko : k ≠ oldBucket := fun e => by rw [e, htry] at hlock; cases hlock
      exact (hfr k hko).trans (h4 k hk)
    · cases he

end UnifiedCache.Cache
