/-
  UnifiedCache.Connector.HybridLookup — the two-stage lookup of hybrid models
  (ucm/integration/vllm/hla_connector.py: `KVCacheGroupManager`).

  Full-attention groups have a hash for each full block of tokens, in units of their own block
  size. A mamba-align group has one state for a whole prefix, which a request can resume from only
  at a multiple of the least common multiple `L` of all block sizes; its hash is made from the
  prefix's last hash in the first full-attention group.

  Stage 1 takes the shortest of the groups' prefixes beyond what is computed already, down to a
  multiple of `L`; stage 2 goes back from there to the first boundary where every state is present.

  A lookup may raise (`none`); each has the place it is made at as an argument, so that any of
  them may. One that answers is right about a store that does not change (`Truthful`).
  - `external_le_iff`: what stage 1 finds, in terms of the blocks present.
  - `scan_spec`: where stage 2 stops.
  - `lookup_sound_maximal`: the tokens found are a hit, and if nothing raises the longest.
-/

import Mathlib.Data.List.MinMax
import UnifiedCache.Connector.BlockKeys

namespace UnifiedCache.Connector

/-- An item of a tuple that is hashed. -/
inductive TupleItem where
  | bytes (b : Bytes)
  | int (n : Int)
  | ints (ns : List Int)
  deriving DecidableEq

structure GroupInfo where
  groupId : Nat
  blockSize : Nat
  seed : Bytes
  isMambaAlign : Bool

def GroupInfo.isFullAttention (g : GroupInfo) : Bool := !g.isMambaAlign

/-- A group's spec: its block size and `is_mamba_align_kv_cache_spec`. -/
structure KVCacheSpec where
  blockSize : Nat
  isMambaAlign : Bool

/-- The manager of at least one full-attention group, of groups numbered from 0. -/
structure KVCacheGroupManager where
  requestHasher : List TupleItem → Bytes
  groupsById : List GroupInfo
  numbered : ∀ (i : Nat) (g : GroupInfo), groupsById[i]? = some g → g.groupId = i
  blockSize_pos : ∀ g ∈ groupsById, 0 < g.blockSize
  hasFull : groupsById.filter GroupInfo.isFullAttention ≠ []

/-- `__init__`, for specs of positive block sizes; `none` if no group is full-attention. -/
def KVCacheGroupManager.init (requestHasher : List TupleItem → Bytes) (baseSeed : Bytes) (specs : List KVCacheSpec)
    (hpos : ∀ spec ∈ specs, 0 < spec.blockSize) : Option KVCacheGroupManager :=
  let groups := specs.mapIdx fun groupId spec =>
    (⟨groupId, spec.blockSize, requestHasher [.bytes (encodeUtf8 "UCM_GROUP_SEED"), .bytes baseSeed, .int groupId],
      spec.isMambaAlign⟩ : GroupInfo)
  if hasFull : groups.filter GroupInfo.isFullAttention ≠ [] then
    some
      { requestHasher := requestHasher
        groupsById := groups
        numbered := by
          intro i g hg
          obtain ⟨spec, _, rfl⟩ := by simpa [groups] using hg
          rfl
        blockSize_pos := by
          intro g hg
          obtain ⟨i, hi, rfl⟩ := List.mem_mapIdx.mp hg
          exact hpos _ (List.getElem_mem hi)
        hasFull := hasFull }
  else none

namespace KVCacheGroupManager

variable (m : KVCacheGroupManager)

def numGroups : Nat := m.groupsById.length

def fullAttnGroups : List GroupInfo := m.groupsById.filter GroupInfo.isFullAttention

def stateGroups : List GroupInfo := m.groupsById.filter GroupInfo.isMambaAlign

/-- `math.lcm` of all block sizes. -/
def lcmBlockSize : Nat := (m.groupsById.map GroupInfo.blockSize).foldr Nat.lcm 1

/-- `self.full_attn_groups[0]`. -/
def primary : GroupInfo := m.fullAttnGroups.head m.hasFull

/-- The loop of `compute_block_hashes`. -/
def blockHashLoop (blockSize : Nat) (tokenIds : List Int) : List Nat → Bytes → List Bytes
  | [], _ => []
  | start :: starts, parent =>
    let blockTokenIds := (tokenIds.drop start).take blockSize
    if blockTokenIds.length < blockSize then []
    else
      let hashValue := m.requestHasher [.bytes parent, .ints blockTokenIds]
      hashValue :: blockHashLoop blockSize tokenIds starts hashValue

def computeBlockHashes (group : GroupInfo) (tokenIds : List Int) : List Bytes :=
  if group.isMambaAlign then List.replicate (tokenIds.length / group.blockSize) []
  else
    m.blockHashLoop group.blockSize tokenIds
      (List.range' 0 ((tokenIds.length + group.blockSize - 1) / group.blockSize) group.blockSize) group.seed

def computeAllGroupBlockIds (tokenIds : List Int) : List (List Bytes) :=
  m.groupsById.map fun g => m.computeBlockHashes g tokenIds

/-- A group's list of hashes. -/
def idsOf (groupBlockIds : List (List Bytes)) (g : GroupInfo) : List Bytes := (groupBlockIds[g.groupId]?).getD []

def computeMambaAlignStateHash (group : GroupInfo) (seqLen : Nat) (groupBlockIds : List (List Bytes)) : Option Bytes :=
  if seqLen = 0 ∨ seqLen % m.lcmBlockSize ≠ 0 then none
  else if seqLen / m.primary.blockSize = 0 then none
  else
    match (idsOf groupBlockIds m.primary)[seqLen / m.primary.blockSize - 1]? with
    | none => none
    | some prefixHash =>
      if prefixHash = [] then none
      else
        some (m.requestHasher
          [.bytes group.seed, .bytes (encodeUtf8 "UCM_MAMBA_ALIGN_STATE"), .int seqLen, .bytes prefixHash])

section Lookup

variable (groupBlockIds : List (List Bytes)) (lookupOnPrefix : Nat → List Bytes → Option Int)
  (lookupAll : Nat → List Bytes → Option (List Bool))

/-- A group's candidate in stage 1, in tokens. -/
def candidate (numComputedTokens : Nat) (fa : GroupInfo) : Nat :=
  let faExternal := (idsOf groupBlockIds fa).drop (numComputedTokens / fa.blockSize)
  if faExternal = [] then 0
  else
    match lookupOnPrefix fa.groupId faExternal with
    | none => 0
    | some hit => (max (hit + 1) 0).toNat * fa.blockSize

/-- The result of stage 1, in tokens. -/
def externalCandidate (numComputedTokens : Nat) : Nat :=
  let minExternalHitTokens := ((m.fullAttnGroups.map (candidate groupBlockIds lookupOnPrefix numComputedTokens)).min?).getD 0
  minExternalHitTokens / m.lcmBlockSize * m.lcmBlockSize

/-- What is looked up at a boundary. -/
def posHashes (pos : Nat) : List Bytes :=
  m.stateGroups.map fun sg => (m.computeMambaAlignStateHash sg pos groupBlockIds).getD []

/-- `range(total, total - n * lcm_block_size, -lcm_block_size)`. -/
def positions (total n : Nat) : List Nat := (List.range n).map fun i => total - i * m.lcmBlockSize

/-- The loop of stage 2; `none` if a lookup raises. -/
def scan (numComputedTokens : Nat) : List Nat → Option Nat
  | [] => some numComputedTokens
  | pos :: rest =>
    match lookupAll pos (m.posHashes groupBlockIds pos) with
    | none => none
    | some results => if results.all id then some pos else scan numComputedTokens rest

/-- The state hashes at every boundary up to `bestPos`. -/
def mambaPrefetchHashes (bestPos : Nat) : List Bytes :=
  (List.range' m.lcmBlockSize (bestPos / m.lcmBlockSize) m.lcmBlockSize).flatMap fun pos =>
    m.stateGroups.filterMap fun sg => m.computeMambaAlignStateHash sg pos groupBlockIds

/-- `lookup_external_hit_tokens`; `none` if an assertion fails. -/
def lookupExternalHitTokens (numComputedTokens : Nat) : Option (Nat × Nat × List Bytes) :=
  if groupBlockIds.length ≠ m.numGroups then none
  else if numComputedTokens % m.lcmBlockSize ≠ 0 then none
  else
    let externalHitTokens := m.externalCandidate groupBlockIds lookupOnPrefix numComputedTokens
    if externalHitTokens = 0 then some (0, 0, [])
    else if m.stateGroups = [] then some (externalHitTokens, externalHitTokens / m.lcmBlockSize, [])
    else
      let total := numComputedTokens + externalHitTokens
      match m.scan groupBlockIds lookupAll numComputedTokens (m.positions total (externalHitTokens / m.lcmBlockSize)) with
      | none => some (0, 0, [])
      | some bestPos =>
        let externalHitTokens := bestPos - numComputedTokens
        if externalHitTokens = 0 then some (0, 0, [])
        else some (externalHitTokens, externalHitTokens / m.lcmBlockSize, m.mambaPrefetchHashes groupBlockIds bestPos)

end Lookup

/-! ## What a hit is -/

/-- The store's answers, of the blocks present; those that are given are right. -/
structure Truthful (present : Bytes → Bool) (lookupOnPrefix : Nat → List Bytes → Option Int)
    (lookupAll : Nat → List Bytes → Option (List Bool)) : Prop where
  onPrefix : ∀ g ids hit, lookupOnPrefix g ids = some hit → hit = (ids.findIdx fun h => !present h : Nat) - (1 : Int)
  onAll : ∀ pos ids results, lookupAll pos ids = some results → results = ids.map present

/-- A request can go on from `e` tokens beyond those computed. -/
structure Hit (present : Bytes → Bool) (groupBlockIds : List (List Bytes)) (numComputedTokens e : Nat) : Prop where
  multiple : m.lcmBlockSize ∣ e
  /-- Every full-attention group has its blocks of the tokens. -/
  blocks : ∀ fa ∈ m.fullAttnGroups, ∀ j, numComputedTokens / fa.blockSize ≤ j → j < (numComputedTokens + e) / fa.blockSize →
    ∃ h, (idsOf groupBlockIds fa)[j]? = some h ∧ present h = true
  /-- Every state group has its state at the end of them. -/
  states : 0 < e → ∀ sg ∈ m.stateGroups,
    ∃ h, m.computeMambaAlignStateHash sg (numComputedTokens + e) groupBlockIds = some h ∧ present h = true

section Lcm

variable {m} {g : GroupInfo}

theorem blockSize_dvd (hg : g ∈ m.groupsById) : g.blockSize ∣ m.lcmBlockSize := by
  have hmem : g.blockSize ∈ m.groupsById.map GroupInfo.blockSize := List.mem_map_of_mem hg
  unfold lcmBlockSize
  generalize m.groupsById.map GroupInfo.blockSize = sizes at hmem ⊢
  induction sizes with
  | nil => cases hmem
  | cons n ns ih =>
    rcases List.mem_cons.mp hmem with heq | hmem
    · rw [heq]
      exact Nat.dvd_lcm_left n _
    · exact Nat.dvd_trans (ih hmem) (Nat.dvd_lcm_right n _)

theorem lcmBlockSize_pos : 0 < m.lcmBlockSize := by
  have hpos : ∀ n ∈ m.groupsById.map GroupInfo.blockSize, 0 < n := by
    intro n hn
    obtain ⟨g, hg, rfl⟩ := List.mem_map.mp hn
    exact m.blockSize_pos g hg
  unfold lcmBlockSize
  generalize m.groupsById.map GroupInfo.blockSize = sizes at hpos ⊢
  induction sizes with
  | nil => exact Nat.one_pos
  | cons n ns ih =>
    exact Nat.lcm_pos (hpos n List.mem_cons_self) (ih fun k hk => hpos k (List.mem_cons_of_mem _ hk))

theorem mem_of_full (hg : g ∈ m.fullAttnGroups) : g ∈ m.groupsById := (List.mem_filter.mp hg).1

theorem primary_full : m.primary ∈ m.fullAttnGroups := List.head_mem m.hasFull

end Lcm

/-! ## Stage 1 -/

section Stages

variable {m} {present : Bytes → Bool} {groupBlockIds : List (List Bytes)} {lookupOnPrefix : Nat → List Bytes → Option Int}
  {lookupAll : Nat → List Bytes → Option (List Bool)} {nc e : Nat} {fa : GroupInfo}

/-- The blocks a group has present in a row beyond those computed. -/
def hitBlocks (present : Bytes → Bool) (groupBlockIds : List (List Bytes)) (nc : Nat) (fa : GroupInfo) : Nat :=
  ((idsOf groupBlockIds fa).drop (nc / fa.blockSize)).findIdx fun h => !present h

theorem le_findIdx_iff (ids : List Bytes) (k : Nat) : k ≤ ids.findIdx (fun h => !present h) ↔
    ∀ i < k, ∃ h, ids[i]? = some h ∧ present h = true := by
  constructor
  · intro hk i hi
    have hlt : i < ids.findIdx fun h => !present h := by omega
    have hlen : i < ids.length := Nat.lt_of_lt_of_le hlt List.findIdx_le_length
    refine ⟨ids[i], List.getElem?_eq_getElem hlen, ?_⟩
    simpa using List.not_of_lt_findIdx hlt
  · intro h
    by_contra hlt
    obtain ⟨x, hx, hpresent⟩ := h (ids.findIdx fun h => !present h) (by omega)
    obtain ⟨hlen, rfl⟩ := List.getElem?_eq_some_iff.mp hx
    have habsent := List.findIdx_getElem (w := hlen)
    rw [hpresent] at habsent
    cases habsent

/-- A group has the blocks of `e` more tokens iff it has that many in a row. -/
theorem blocks_iff (hfa : 0 < fa.blockSize) (he : fa.blockSize ∣ e) :
    (∀ j, nc / fa.blockSize ≤ j → j < (nc + e) / fa.blockSize →
      ∃ h, (idsOf groupBlockIds fa)[j]? = some h ∧ present h = true) ↔
    e ≤ hitBlocks present groupBlockIds nc fa * fa.blockSize := by
  obtain ⟨k, rfl⟩ := he
  have hdiv : (nc + fa.blockSize * k) / fa.blockSize = nc / fa.blockSize + k := Nat.add_mul_div_left nc k hfa
  rw [hdiv, Nat.mul_comm, Nat.mul_le_mul_right_iff hfa, hitBlocks, le_findIdx_iff]
  constructor
  · intro h i hi
    rw [List.getElem?_drop]
    exact h _ (Nat.le_add_right _ _) (by omega)
  · intro h j hj hjk
    obtain ⟨x, hx, hpresent⟩ := h (j - nc / fa.blockSize) (by omega)
    rw [List.getElem?_drop, Nat.add_sub_cancel' hj] at hx
    exact ⟨x, hx, hpresent⟩

theorem candidate_le (ht : Truthful present lookupOnPrefix lookupAll) :
    candidate groupBlockIds lookupOnPrefix nc fa ≤ hitBlocks present groupBlockIds nc fa * fa.blockSize := by
  simp only [candidate]
  split
  · exact Nat.zero_le _
  · split
    · exact Nat.zero_le _
    · rename_i hit hhit
      rw [ht.onPrefix _ _ _ hhit]
      refine Nat.mul_le_mul_right _ ?_
      unfold hitBlocks
      omega

/-- A lookup that does not raise counts them all. -/
theorem candidate_eq (ht : Truthful present lookupOnPrefix lookupAll) (hno : ∀ g ids, lookupOnPrefix g ids ≠ none) :
    candidate groupBlockIds lookupOnPrefix nc fa = hitBlocks present groupBlockIds nc fa * fa.blockSize := by
  simp only [candidate]
  split
  · rename_i hnil
    unfold hitBlocks
    rw [hnil, List.findIdx_nil, Nat.zero_mul]
  · split
    · rename_i hnone
      exact absurd hnone (hno _ _)
    · rename_i hit hhit
      rw [ht.onPrefix _ _ _ hhit]
      congr 1
      unfold hitBlocks
      omega

/-- Stage 1 finds a multiple of `L`, within every group's candidate, and no less than any multiple
    that is. -/
theorem externalCandidate_spec (groupBlockIds : List (List Bytes)) (lookupOnPrefix : Nat → List Bytes → Option Int) (nc : Nat) :
    m.lcmBlockSize ∣ m.externalCandidate groupBlockIds lookupOnPrefix nc ∧
    (∀ fa ∈ m.fullAttnGroups,
      m.externalCandidate groupBlockIds lookupOnPrefix nc ≤ candidate groupBlockIds lookupOnPrefix nc fa) ∧
    ∀ e, m.lcmBlockSize ∣ e → (∀ fa ∈ m.fullAttnGroups, e ≤ candidate groupBlockIds lookupOnPrefix nc fa) →
      e ≤ m.externalCandidate groupBlockIds lookupOnPrefix nc := by
  simp only [externalCandidate]
  cases hmin : (m.fullAttnGroups.map (candidate groupBlockIds lookupOnPrefix nc)).min? with
  | none =>
    rw [List.min?_eq_none_iff, List.map_eq_nil_iff] at hmin
    exact absurd hmin m.hasFull
  | some least =>
    obtain ⟨hmem, hleast⟩ := List.min?_eq_some_iff.mp hmin
    rw [Option.getD_some]
    refine ⟨Nat.dvd_mul_left _ _, fun fa hfa => ?_, fun e he hall => ?_⟩
    · have hle : least ≤ candidate groupBlockIds lookupOnPrefix nc fa := hleast _ (List.mem_map_of_mem hfa)
      exact (Nat.div_mul_le_self _ _).trans hle
    · obtain ⟨fa, hfa, rfl⟩ := List.mem_map.mp hmem
      obtain ⟨k, rfl⟩ := he
      have hk : k ≤ candidate groupBlockIds lookupOnPrefix nc fa / m.lcmBlockSize := by
        rw [Nat.le_div_iff_mul_le lcmBlockSize_pos, Nat.mul_comm]
        exact hall fa hfa
      rw [Nat.mul_comm]
      exact Nat.mul_le_mul_right _ hk

/-! ## Stage 2 -/

/-- Everything looked up at a boundary is present. -/
def AllThere (m : KVCacheGroupManager) (present : Bytes → Bool) (groupBlockIds : List (List Bytes)) (pos : Nat) : Prop :=
  ∀ h ∈ m.posHashes groupBlockIds pos, present h = true

/-- Stage 2 stops at a boundary where everything is present, or at its start, and at every later
    boundary something is missing. By induction on the boundaries left, which go down. -/
theorem scan_spec (ht : Truthful present lookupOnPrefix lookupAll) {positions : List Nat} {best : Nat}
    (hdown : positions.Pairwise (· > ·)) (hnc : ∀ pos ∈ positions, nc < pos)
    (h : m.scan groupBlockIds lookupAll nc positions = some best) :
    (best = nc ∨ best ∈ positions ∧ m.AllThere present groupBlockIds best) ∧
    ∀ pos ∈ positions, best < pos → ¬ m.AllThere present groupBlockIds pos := by
  induction positions with
  | nil => exact ⟨.inl (Option.some.inj h).symm, nofun⟩
  | cons pos rest ih =>
    rw [List.pairwise_cons] at hdown
    rw [scan] at h
    cases hres : lookupAll pos (m.posHashes groupBlockIds pos) with
    | none =>
      rw [hres] at h
      cases h
    | some results =>
      rw [hres] at h
      simp only at h
      have hall : results.all id = true ↔ m.AllThere present groupBlockIds pos := by
        rw [ht.onAll _ _ _ hres, List.all_map, List.all_eq_true]
        rfl
      by_cases hthere : results.all id = true
      · rw [if_pos hthere] at h
        obtain rfl := Option.some.inj h
        refine ⟨.inr ⟨List.mem_cons_self, hall.mp hthere⟩, fun p hp hlt => ?_⟩
        rcases List.mem_cons.mp hp with rfl | hp
        · exact absurd hlt (Nat.lt_irrefl _)
        · exact absurd hlt (Nat.lt_asymm (hdown.1 p hp))
      · rw [if_neg hthere] at h
        obtain ⟨hbest, hlater⟩ := ih hdown.2 (fun p hp => hnc p (List.mem_cons_of_mem _ hp)) h
        refine ⟨?_, fun p hp hlt => ?_⟩
        · rcases hbest with hstart | ⟨hmem, hok⟩
          · exact .inl hstart
          · exact .inr ⟨List.mem_cons_of_mem _ hmem, hok⟩
        · rcases List.mem_cons.mp hp with rfl | hp
          · exact fun hok => hthere (hall.mpr hok)
          · exact hlater p hp hlt

/-- The boundaries: each multiple of `L` from `nc + L` to `nc + n * L`, downwards. -/
theorem mem_positions {n pos : Nat} : pos ∈ m.positions (nc + n * m.lcmBlockSize) n ↔
    ∃ k, 0 < k ∧ k ≤ n ∧ pos = nc + k * m.lcmBlockSize := by
  unfold positions
  rw [List.mem_map]
  constructor
  · rintro ⟨i, hi, rfl⟩
    rw [List.mem_range] at hi
    refine ⟨n - i, by omega, by omega, ?_⟩
    have hle : i * m.lcmBlockSize ≤ n * m.lcmBlockSize := Nat.mul_le_mul_right _ hi.le
    rw [Nat.sub_mul]
    omega
  · rintro ⟨k, hk, hkn, rfl⟩
    refine ⟨n - k, List.mem_range.mpr (by omega), ?_⟩
    have hle : k * m.lcmBlockSize ≤ n * m.lcmBlockSize := Nat.mul_le_mul_right _ hkn
    rw [Nat.sub_mul]
    omega

theorem positions_down {n : Nat} : (m.positions (nc + n * m.lcmBlockSize) n).Pairwise (· > ·) := by
  unfold positions
  rw [List.pairwise_map]
  refine (List.pairwise_lt_range (n := n)).imp_of_mem fun {i j} hi hj hlt => ?_
  rw [List.mem_range] at hi hj
  have hstep : (i + 1) * m.lcmBlockSize ≤ j * m.lcmBlockSize := Nat.mul_le_mul_right _ hlt
  have hle : j * m.lcmBlockSize ≤ n * m.lcmBlockSize := Nat.mul_le_mul_right _ hj.le
  have hpos : 0 < m.lcmBlockSize := lcmBlockSize_pos
  rw [Nat.add_mul, Nat.one_mul] at hstep
  show nc + n * m.lcmBlockSize - j * m.lcmBlockSize < nc + n * m.lcmBlockSize - i * m.lcmBlockSize
  omega

/-- The empty hash, which stands for none, is not that of a full-attention block present. -/
def BlocksNonempty (m : KVCacheGroupManager) (present : Bytes → Bool) (groupBlockIds : List (List Bytes)) : Prop :=
  ∀ fa ∈ m.fullAttnGroups, [] ∈ idsOf groupBlockIds fa → present [] = false

/-- The hashes of a loop of a hasher that gives digests are not empty. -/
theorem blockHashLoop_nonempty (hasher : ∀ t, m.requestHasher t ≠ []) (blockSize : Nat) (tokenIds : List Int) (starts : List Nat)
    (parent : Bytes) : [] ∉ m.blockHashLoop blockSize tokenIds starts parent := by
  induction starts generalizing parent with
  | nil => exact List.not_mem_nil
  | cons start starts ih =>
    simp only [blockHashLoop]
    split
    · exact List.not_mem_nil
    · intro hmem
      rcases List.mem_cons.mp hmem with heq | hmem
      · exact hasher _ heq.symm
      · exact ih _ hmem

/-- The hashes computed for a request meet this whatever is present, also where they are cut. -/
theorem nonempty_computed (hasher : ∀ t, m.requestHasher t ≠ []) (tokenIds : List Int) (cut : GroupInfo → Nat) :
    m.BlocksNonempty present (m.groupsById.map fun g => (m.computeBlockHashes g tokenIds).take (cut g)) := by
  intro fa hfa hmem
  obtain ⟨i, hi, rfl⟩ := List.mem_iff_getElem.mp (mem_of_full hfa)
  have hfull : m.groupsById[i].isMambaAlign = false := by simpa [GroupInfo.isFullAttention] using (List.mem_filter.mp hfa).2
  have hid : m.groupsById[i].groupId = i := m.numbered i _ (List.getElem?_eq_getElem hi)
  rw [idsOf, hid, List.getElem?_map, List.getElem?_eq_getElem hi] at hmem
  simp only [Option.map_some, Option.getD_some, computeBlockHashes, hfull, Bool.false_eq_true, if_false] at hmem
  exact absurd (List.mem_of_mem_take hmem) (blockHashLoop_nonempty hasher _ _ _ _)

/-- Where the first group has the blocks, each state group has a state hash. -/
theorem stateHash_some (hd : m.BlocksNonempty present groupBlockIds) {pos : Nat} (hL : m.lcmBlockSize ∣ pos) (hpos : 0 < pos)
    (hblock : ∃ h, (idsOf groupBlockIds m.primary)[pos / m.primary.blockSize - 1]? = some h ∧ present h = true)
    (sg : GroupInfo) : ∃ h, m.computeMambaAlignStateHash sg pos groupBlockIds = some h := by
  obtain ⟨prefixHash, hprefix, hpresent⟩ := hblock
  have hbs := m.blockSize_pos m.primary (mem_of_full primary_full)
  have hle : m.primary.blockSize ≤ pos :=
    Nat.le_of_dvd hpos (Nat.dvd_trans (blockSize_dvd (mem_of_full primary_full)) hL)
  have hnonempty : prefixHash ≠ [] := by
    intro e
    subst e
    rw [hd m.primary primary_full (List.mem_of_getElem? hprefix)] at hpresent
    cases hpresent
  unfold computeMambaAlignStateHash
  rw [if_neg, if_neg, hprefix]
  · simp only [if_neg hnonempty]
    exact ⟨_, rfl⟩
  · have hdiv := Nat.div_pos hle hbs
    omega
  · rintro (hzero | hmod)
    · omega
    · exact hmod (Nat.mod_eq_zero_of_dvd hL)

/-- At a boundary that the first group's blocks reach, what is looked up is the states. -/
theorem allThere_iff (hd : m.BlocksNonempty present groupBlockIds) {pos : Nat} (hL : m.lcmBlockSize ∣ pos) (hpos : 0 < pos)
    (hblock : ∃ h, (idsOf groupBlockIds m.primary)[pos / m.primary.blockSize - 1]? = some h ∧ present h = true) :
    m.AllThere present groupBlockIds pos ↔
      ∀ sg ∈ m.stateGroups, ∃ h, m.computeMambaAlignStateHash sg pos groupBlockIds = some h ∧ present h = true := by
  unfold AllThere posHashes
  rw [List.forall_mem_map]
  refine forall₂_congr fun sg _ => ?_
  obtain ⟨h, hh⟩ := stateHash_some hd hL hpos hblock sg
  rw [hh, Option.getD_some]
  constructor
  · exact fun hp => ⟨h, rfl, hp⟩
  · rintro ⟨h', heq, hp⟩
    rw [Option.some.inj heq]
    exact hp

/-! ## The lookup -/

theorem hit_zero : m.Hit present groupBlockIds nc 0 := by
  refine ⟨Nat.dvd_zero _, fun fa _ j hj hlt => ?_, fun h => absurd h (Nat.lt_irrefl 0)⟩
  rw [Nat.add_zero] at hlt
  omega

/-- The blocks part of a hit, in terms of the groups' blocks in a row. -/
theorem blocks_le_iff {e : Nat} (he : m.lcmBlockSize ∣ e) :
    (∀ fa ∈ m.fullAttnGroups, ∀ j, nc / fa.blockSize ≤ j → j < (nc + e) / fa.blockSize →
      ∃ h, (idsOf groupBlockIds fa)[j]? = some h ∧ present h = true) ↔
    ∀ fa ∈ m.fullAttnGroups, e ≤ hitBlocks present groupBlockIds nc fa * fa.blockSize := by
  refine forall₂_congr fun fa hfa => ?_
  exact blocks_iff (m.blockSize_pos fa (mem_of_full hfa)) (Nat.dvd_trans (blockSize_dvd (mem_of_full hfa)) he)

/-- Within the blocks found, the first group has the block before a boundary. -/
theorem block_before {e : Nat} (he : m.lcmBlockSize ∣ e) (hpos : 0 < e) {ext : Nat} (hle : e ≤ ext)
    (hblocks : ∀ j, nc / m.primary.blockSize ≤ j → j < (nc + ext) / m.primary.blockSize →
      ∃ h, (idsOf groupBlockIds m.primary)[j]? = some h ∧ present h = true) :
    ∃ h, (idsOf groupBlockIds m.primary)[(nc + e) / m.primary.blockSize - 1]? = some h ∧ present h = true := by
  have hprimary := mem_of_full (m := m) primary_full
  have hbs := m.blockSize_pos m.primary hprimary
  obtain ⟨k, hk⟩ := Nat.dvd_trans (blockSize_dvd hprimary) he
  have hkpos : 0 < k := by
    rcases Nat.eq_zero_or_pos k with rfl | hk'
    · rw [Nat.mul_zero] at hk
      omega
    · exact hk'
  have hdiv : (nc + e) / m.primary.blockSize = nc / m.primary.blockSize + k := by
    rw [hk]
    exact Nat.add_mul_div_left nc k hbs
  have hmono : (nc + e) / m.primary.blockSize ≤ (nc + ext) / m.primary.blockSize := Nat.div_le_div_right (by omega)
  rw [hdiv] at hmono ⊢
  generalize nc / m.primary.blockSize = first at hblocks hmono ⊢
  generalize (nc + ext) / m.primary.blockSize = last at hblocks hmono
  exact hblocks (first + k - 1) (by omega) (by omega)

/-- Stage 2 gives up only where a lookup raises. -/
theorem scan_some (hno : ∀ pos ids, lookupAll pos ids ≠ none) (positions : List Nat) :
    ∃ best, m.scan groupBlockIds lookupAll nc positions = some best := by
  induction positions with
  | nil => exact ⟨nc, rfl⟩
  | cons pos rest ih =>
    rw [scan]
    cases hres : lookupAll pos (m.posHashes groupBlockIds pos) with
    | none => exact absurd hres (hno _ _)
    | some results =>
      simp only
      split
      · exact ⟨pos, rfl⟩
      · exact ih

/-- For any groups, any hashes and any blocks present, the tokens found beyond those computed are
    a hit, and if no lookup raises no more tokens are. -/
theorem lookup_sound_maximal (m : KVCacheGroupManager) (present : Bytes → Bool) (groupBlockIds : List (List Bytes))
    (lookupOnPrefix : Nat → List Bytes → Option Int) (lookupAll : Nat → List Bytes → Option (List Bool)) (nc : Nat)
    (hlen : groupBlockIds.length = m.numGroups) (hnc : m.lcmBlockSize ∣ nc) (hd : m.BlocksNonempty present groupBlockIds)
    (ht : Truthful present lookupOnPrefix lookupAll) :
    ∃ e hashes, m.lookupExternalHitTokens groupBlockIds lookupOnPrefix lookupAll nc = some (e, e / m.lcmBlockSize, hashes) ∧
      m.Hit present groupBlockIds nc e ∧
      ((∀ g ids, lookupOnPrefix g ids ≠ none) → (∀ pos ids, lookupAll pos ids ≠ none) →
        ∀ e', m.Hit present groupBlockIds nc e' → e' ≤ e) := by
  obtain ⟨hmul, hcand, hmost⟩ := m.externalCandidate_spec groupBlockIds lookupOnPrefix nc
  simp only [lookupExternalHitTokens]
  rw [if_neg (not_not.mpr hlen), if_neg (not_not.mpr (Nat.mod_eq_zero_of_dvd hnc))]
  generalize m.externalCandidate groupBlockIds lookupOnPrefix nc = ext at hmul hcand hmost ⊢
  have hfound : ∀ fa ∈ m.fullAttnGroups, ext ≤ hitBlocks present groupBlockIds nc fa * fa.blockSize :=
    fun fa hfa => (hcand fa hfa).trans (candidate_le ht)
  -- no hit is longer than what stage 1 finds
  have hlongest : (∀ g ids, lookupOnPrefix g ids ≠ none) → ∀ e', m.Hit present groupBlockIds nc e' → e' ≤ ext := by
    intro hno e' hit
    refine hmost e' hit.multiple fun fa hfa => ?_
    rw [candidate_eq ht hno]
    exact (blocks_le_iff hit.multiple).mp hit.blocks fa hfa
  have hzero : ∀ hashes : List Bytes, some (0, 0, hashes) = some (0, 0 / m.lcmBlockSize, hashes) := by
    intro hashes
    rw [Nat.zero_div]
  by_cases hext : ext = 0
  · rw [if_pos hext]
    refine ⟨0, [], hzero [], hit_zero, fun hno _ e' hit => ?_⟩
    have hle := hlongest hno e' hit
    omega
  rw [if_neg hext]
  by_cases hstate : m.stateGroups = []
  · rw [if_pos hstate]
    refine ⟨ext, [], rfl, ⟨hmul, (blocks_le_iff hmul).mpr hfound, fun _ sg hsg => ?_⟩, fun hno _ => hlongest hno⟩
    rw [hstate] at hsg
    cases hsg
  rw [if_neg hstate]
  obtain ⟨n, hn⟩ := hmul
  rw [Nat.mul_comm] at hn
  have hdiv : ext / m.lcmBlockSize = n := by
    rw [hn]
    exact Nat.mul_div_cancel n lcmBlockSize_pos
  rw [hdiv, hn]
  -- at the boundaries of stage 2 the states are what is looked up
  have hstates : ∀ k, 0 < k → k ≤ n → (m.AllThere present groupBlockIds (nc + k * m.lcmBlockSize) ↔
      ∀ sg ∈ m.stateGroups, ∃ h, m.computeMambaAlignStateHash sg (nc + k * m.lcmBlockSize) groupBlockIds = some h ∧
        present h = true) := by
    intro k hk hkn
    have hkpos : 0 < k * m.lcmBlockSize := Nat.mul_pos hk lcmBlockSize_pos
    have hkle : k * m.lcmBlockSize ≤ n * m.lcmBlockSize := Nat.mul_le_mul_right _ hkn
    refine allThere_iff hd (Nat.dvd_add hnc (Nat.dvd_mul_left _ _)) (by omega) ?_
    refine block_before (Nat.dvd_mul_left _ _) hkpos hkle ?_
    rw [← hn]
    exact (blocks_le_iff (hn ▸ Nat.dvd_mul_left _ _)).mpr hfound m.primary primary_full
  cases hscan : m.scan groupBlockIds lookupAll nc (m.positions (nc + n * m.lcmBlockSize) n) with
  | none =>
    refine ⟨0, [], hzero [], hit_zero, fun _ hno => ?_⟩
    have hsome : ∃ best, m.scan groupBlockIds lookupAll nc (m.positions (nc + n * m.lcmBlockSize) n) = some best :=
      scan_some hno _
    rw [hscan] at hsome
    cases hsome with
    | intro _ h => cases h
  | some best =>
    simp only
    obtain ⟨hbest, hlater⟩ := scan_spec ht positions_down (fun pos hp => by
      obtain ⟨k, hk, _, rfl⟩ := mem_positions.mp hp
      exact Nat.lt_add_of_pos_right (Nat.mul_pos hk lcmBlockSize_pos)) hscan
    -- a hit has its states at a boundary that the scan has passed, if it is longer
    have hmax : (∀ g ids, lookupOnPrefix g ids ≠ none) → ∀ e', m.Hit present groupBlockIds nc e' → nc + e' ≤ max nc best := by
      intro hno e' hit
      by_contra hlong
      obtain ⟨k, rfl⟩ := hit.multiple
      rw [Nat.mul_comm] at hit hlong
      have hle := hlongest hno _ hit
      rw [hn] at hle
      have hkn : k ≤ n := Nat.le_of_mul_le_mul_right hle lcmBlockSize_pos
      have hk : 0 < k := by
        rcases Nat.eq_zero_or_pos k with rfl | hk'
        · rw [Nat.zero_mul] at hlong
          omega
        · exact hk'
      refine hlater _ (mem_positions.mpr ⟨k, hk, hkn, rfl⟩) (by omega) ?_
      exact (hstates k hk hkn).mpr (hit.states (Nat.mul_pos hk lcmBlockSize_pos))
    rcases hbest with rfl | ⟨hmem, hthere⟩
    · rw [if_pos (Nat.sub_self _)]
      refine ⟨0, [], hzero [], hit_zero, fun hno _ e' hit => ?_⟩
      have hle := hmax hno e' hit
      omega
    · obtain ⟨k, hk, hkn, rfl⟩ := mem_positions.mp hmem
      have hkpos : 0 < k * m.lcmBlockSize := Nat.mul_pos hk lcmBlockSize_pos
      rw [Nat.add_sub_cancel_left, if_neg (by omega)]
      refine ⟨k * m.lcmBlockSize, _, rfl, ⟨Nat.dvd_mul_left _ _, ?_, fun _ => (hstates k hk hkn).mp hthere⟩, ?_⟩
      · refine (blocks_le_iff (Nat.dvd_mul_left _ _)).mpr fun fa hfa => ?_
        have hle := hfound fa hfa
        rw [hn] at hle
        exact (Nat.mul_le_mul_right _ hkn).trans hle
      · intro hno _ e' hit
        have hle := hmax hno e' hit
        omega

end Stages

/-- Groups of block sizes 2 and 4, and a state of block size 4. -/
def hybrid : KVCacheGroupManager where
  requestHasher := fun
    | [.bytes parent, .ints ns] => parent ++ ns.map fun n => UInt8.ofNat n.toNat
    | [.bytes seed, _, .int n, .bytes prefixHash] => seed ++ UInt8.ofNat n.toNat :: prefixHash
    | _ => [0]
  groupsById := [⟨0, 2, [1], false⟩, ⟨1, 4, [2], false⟩, ⟨2, 4, [3], true⟩]
  numbered := by
    intro i g hg
    match i with
    | 0 | 1 | 2 =>
      obtain rfl := Option.some.inj hg
      rfl
    | _ + 3 => cases hg
  blockSize_pos := by decide
  hasFull := by decide

/-- The hashes of 14 tokens, 7 and 3 blocks. -/
def hybridIds : List (List Bytes) := hybrid.computeAllGroupBlockIds [1, 2, 3, 4, 5, 6, 7, 8, 9, 10, 11, 12, 13, 14]

/-- All blocks are present and, of the states, that of 8 tokens only. -/
def hybridPresent (h : Bytes) : Bool := h.head? == some 1 || h.head? == some 2 || h.take 2 == [3, 8]

/-- Beyond 4 tokens 8 are found in stage 1 and, for the state of 12 is missing, 4 in stage 2. -/
theorem hybrid_lookup :
    (hybrid.lookupExternalHitTokens hybridIds (fun _ ids => some ((ids.findIdx fun h => !hybridPresent h : Nat) - (1 : Int)))
      (fun _ ids => some (ids.map hybridPresent)) 4).map (fun r => (r.1, r.2.1)) = some (4, 1) ∧
    ∃ e hashes, hybrid.lookupExternalHitTokens hybridIds
        (fun _ ids => some ((ids.findIdx fun h => !hybridPresent h : Nat) - (1 : Int)))
        (fun _ ids => some (ids.map hybridPresent)) 4 = some (e, e / hybrid.lcmBlockSize, hashes) ∧
      hybrid.Hit hybridPresent hybridIds 4 e ∧ ∀ e', hybrid.Hit hybridPresent hybridIds 4 e' → e' ≤ e := by
  refine ⟨by decide, ?_⟩
  obtain ⟨e, hashes, hresult, hhit, hmax⟩ := lookup_sound_maximal hybrid hybridPresent hybridIds
    (fun _ ids => some ((ids.findIdx fun h => !hybridPresent h : Nat) - (1 : Int)))
    (fun _ ids => some (ids.map hybridPresent)) 4 (by decide) ⟨1, by decide⟩ (fun _ _ _ => by decide)
    ⟨fun _ _ _ h => (Option.some.inj h).symm, fun _ _ _ h => (Option.some.inj h).symm⟩
  exact ⟨e, hashes, hresult, hhit, hmax nofun nofun⟩

end KVCacheGroupManager

end UnifiedCache.Connector
