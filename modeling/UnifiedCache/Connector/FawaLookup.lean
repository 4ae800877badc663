/-
  UnifiedCache.Connector.FawaLookup — what a FAWA connector finds of a request outside
  (ucm/integration/vllm/hma_connector.py: `_lookup_external_hit_blocks` and
  `get_num_new_matched_tokens` of `UCMFAWAConnector`).

  The full-attention store has a row for every hash block of a prefix; the window store has a row for
  the state at the end of a block. A request goes on from the last block boundary that the
  full-attention rows reach and that has a window row.

  Both stores are asked through the scheduler's rank consistency manager, which takes a block that
  some rank is known not to have for absent. A lookup may raise (`none`); the connector then goes on
  as if nothing were found.

  - `scanBack_spec`: where the loop over the boundaries stops.
  - `reportedTokens`: the tokens reported for a hit, with what the thresholds and a whole hit take off.
  - `matched_tokens_spec`: the hit is the last boundary, and the tokens are those up to it.
-/

import UnifiedCache.Base.PyIndex
import UnifiedCache.Connector.BlockKeys
import UnifiedCache.Connector.RankConsistency

namespace UnifiedCache.Connector

open UnifiedCache.Base

structure FAWARequestMeta where
  ucmBlockIds : List Bytes
  hbmHitBlockNum : Nat
  totalHitBlockNum : Nat
  numTokenIds : Nat
  /-- The block ids of each group. -/
  vllmBlockIds : List (List Nat)
  tokenProcessed : Nat
  deriving DecidableEq, Repr

namespace Fawa

section Lookup

variable (lookupOnPrefix : List Bytes → Option Int) (lookupAll : Nat → List Bytes → Option (List Bool))

/-- The loop over `hit_blocks`; `none` if a lookup or an index raises. -/
def scanBack (externalKeys : List Bytes) : List Nat → Option Nat
  | [] => some 0
  | hitBlocks :: rest =>
    match pyGet externalKeys ((hitBlocks : Int) - 1) with
    | none => none
    | some key =>
      match lookupAll hitBlocks [key] with
      | none => none
      | some results =>
        match results[0]? with
        | none => none
        | some present => if present then some hitBlocks else scanBack externalKeys rest

/-- `_lookup_external_hit_blocks`. -/
def lookupExternalHitBlocks (externalKeys : List Bytes) : Option Nat :=
  match lookupOnPrefix externalKeys with
  | none => none
  | some last =>
    let faHitBlocks := last + 1
    if faHitBlocks ≤ 0 then some 0
    else scanBack lookupAll externalKeys (List.range (faHitBlocks.toNat + 1)).reverse

end Lookup

/-- What the connector reads of its configuration. -/
structure Config where
  hashBlockSize : Nat
  hashBlockSize_pos : 0 < hashBlockSize
  persistTokenThreshold : Int
  loadTokensThreshold : Int
  hasher : HashInput → Bytes
  seed : Bytes

variable (cfg : Config)

def canonicalHashes (allTokenIds : List Int) : List Bytes := generateHash cfg.hasher cfg.hashBlockSize allTokenIds cfg.seed

/-- `get_num_new_matched_tokens`, with the lookup of `_lookup_external_hit_blocks`; the tokens and what
    is kept of the request. -/
def getNumNewMatchedTokens (lookup : List Bytes → Option Nat) (allTokenIds : List Int) (numComputedTokens : Nat) :
    Int × Option FAWARequestMeta :=
  let numTokens := allTokenIds.length
  let waHbmHitBlockNum := numComputedTokens / cfg.hashBlockSize
  let waComputedTokens := waHbmHitBlockNum * cfg.hashBlockSize
  if numTokens ≤ cfg.persistTokenThreshold ∨ numTokens ≤ waComputedTokens + cfg.loadTokensThreshold then (0, none)
  else
    let canonicalHashes := canonicalHashes cfg allTokenIds
    let externalKeys := canonicalHashes.drop waHbmHitBlockNum
    if externalKeys = [] then (0, none)
    else
      let externalHitBlocks := (lookup externalKeys).getD 0
      let totalHitBlockNum := waHbmHitBlockNum + externalHitBlocks
      let numTotalHitTokens := externalHitBlocks * cfg.hashBlockSize + waComputedTokens
      let externalHitTokens : Int := numTotalHitTokens - numComputedTokens
      let externalHitTokens := if numTotalHitTokens = numTokens then externalHitTokens - 1 else externalHitTokens
      if (externalHitBlocks * cfg.hashBlockSize : Nat) ≤ cfg.loadTokensThreshold then
        (0, some ⟨canonicalHashes, waHbmHitBlockNum + externalHitBlocks, totalHitBlockNum, numTokens, [], numComputedTokens⟩)
      else (externalHitTokens, some ⟨canonicalHashes, waHbmHitBlockNum, totalHitBlockNum, numTokens, [], numTotalHitTokens⟩)

/-! ## What a hit is -/

/-- The boundary after `h` blocks has a window row. -/
def Boundary (wa : Bytes → Bool) (keys : List Bytes) (h : Nat) : Prop := ∃ key, keys[h - 1]? = some key ∧ wa key = true

/-- The last boundary with a window row that the leading full-attention rows reach, or none. -/
structure ExternalHit (fa wa : Bytes → Bool) (keys : List Bytes) (h : Nat) : Prop where
  reached : h ≤ (keys.takeWhile fa).length
  boundary : 0 < h → Boundary wa keys h
  last : ∀ h', 0 < h' → h' ≤ (keys.takeWhile fa).length → Boundary wa keys h' → h' ≤ h

/-- The tokens reported for a hit of `h` blocks: those from the local hit to the boundary, one less
    where that is the request's end; none for a request that is not looked up or a hit too short. -/
def reportedTokens (numTokens numComputedTokens h : Nat) : Int :=
  let boundary := numComputedTokens / cfg.hashBlockSize * cfg.hashBlockSize + h * cfg.hashBlockSize
  if numTokens ≤ cfg.persistTokenThreshold ∨
      numTokens ≤ (numComputedTokens / cfg.hashBlockSize * cfg.hashBlockSize : Nat) + cfg.loadTokensThreshold ∨
      numTokens / cfg.hashBlockSize ≤ numComputedTokens / cfg.hashBlockSize then 0
  else if (h * cfg.hashBlockSize : Nat) ≤ cfg.loadTokensThreshold then 0
  else if boundary = numTokens then (boundary : Int) - numComputedTokens - 1
  else (boundary : Int) - numComputedTokens

/-! ## The loop -/

section Scan

variable {lookupOnPrefix : List Bytes → Option Int} {lookupAll : Nat → List Bytes → Option (List Bool)} {keys : List Bytes}
  {wa : Bytes → Bool}

/-- A boundary that the loop looks at, not the wrapped one. -/
theorem scanBack_cons {n : Nat} (rest : List Nat) (hwa : ∀ pos ids results, lookupAll pos ids = some results →
    results = ids.map wa)
    (hn : n < keys.length) :
    scanBack lookupAll keys ((n + 1) :: rest) =
      (lookupAll (n + 1) [keys[n]]).bind fun _ => if wa keys[n] = true then some (n + 1) else scanBack lookupAll keys rest := by
  have hkey : pyGet keys (((n + 1 : Nat) : Int) - 1) = some keys[n] := by
    rw [show ((n + 1 : Nat) : Int) - 1 = (n : Nat) by omega, pyGet_natCast, List.getElem?_eq_getElem hn]
  rw [scanBack, hkey]
  cases hres : lookupAll (n + 1) [keys[n]] with
  | none => simp only [hres, Option.bind_none]
  | some results =>
    obtain rfl := hwa _ _ _ hres
    simp only [hres, List.map_cons, List.map_nil, List.getElem?_cons_zero, Option.bind_some]

/-- At the end the index wraps to the last block; whatever that has, nothing is found. -/
theorem scanBack_zero (hwa : ∀ pos ids results, lookupAll pos ids = some results → results = ids.map wa) (hkeys : keys ≠ []) :
    scanBack lookupAll keys [0] = (lookupAll 0 [keys.getLast hkeys]).map fun _ => 0 := by
  have hpos : 0 < keys.length := List.length_pos_iff.mpr hkeys
  have hkey : pyGet keys (((0 : Nat) : Int) - 1) = some (keys.getLast hkeys) := by
    rw [show ((0 : Nat) : Int) - 1 = -((1 : Nat) : Int) by omega, pyGet_neg keys Nat.one_pos hpos, List.getLast_eq_getElem,
      List.getElem?_eq_getElem]
  rw [scanBack, hkey]
  cases hres : lookupAll 0 [keys.getLast hkeys] with
  | none => simp only [hres, Option.map_none]
  | some results =>
    obtain rfl := hwa _ _ _ hres
    simp only [hres, List.map_cons, List.map_nil, List.getElem?_cons_zero, Option.map_some]
    split <;> rfl

/-- By induction on where the loop begins. -/
theorem scanBack_spec (hwa : ∀ pos ids results, lookupAll pos ids = some results → results = ids.map wa) {n : Nat}
    (hn : n ≤ keys.length)
    (hkeys : keys ≠ []) {h : Nat} (hscan : scanBack lookupAll keys (List.range (n + 1)).reverse = some h) :
    h ≤ n ∧ (0 < h → Boundary wa keys h) ∧ ∀ h', 0 < h' → h' ≤ n → Boundary wa keys h' → h' ≤ h := by
  induction n with
  | zero =>
    rw [show (List.range (0 + 1)).reverse = [0] from rfl, scanBack_zero hwa hkeys, Option.map_eq_some_iff] at hscan
    obtain ⟨_, _, rfl⟩ := hscan
    exact ⟨Nat.le_refl 0, fun hpos => absurd hpos (Nat.lt_irrefl 0), fun h' hpos hle _ => hle⟩
  | succ n ih =>
    rw [List.range_succ, List.reverse_append, List.reverse_singleton, List.singleton_append, scanBack_cons _ hwa hn,
      Option.bind_eq_some_iff] at hscan
    obtain ⟨_, _, hscan⟩ := hscan
    by_cases hpresent : wa keys[n] = true
    · rw [if_pos hpresent] at hscan
      obtain rfl := Option.some.inj hscan
      exact ⟨Nat.le_refl _, fun _ => ⟨keys[n], List.getElem?_eq_getElem hn, hpresent⟩, fun h' _ hle _ => hle⟩
    · rw [if_neg hpresent] at hscan
      obtain ⟨hle, hboundary, hlast⟩ := ih (by omega) hscan
      refine ⟨by omega, hboundary, fun h' hpos hle' hb => ?_⟩
      by_cases heq : h' = n + 1
      · subst heq
        obtain ⟨key, hkey, hwakey⟩ := hb
        rw [Nat.add_sub_cancel, List.getElem?_eq_getElem hn] at hkey
        obtain rfl := Option.some.inj hkey
        exact absurd hwakey hpresent
      · exact hlast h' hpos (by omega) hb

theorem scanBack_ne_none (hwa : ∀ pos ids results, lookupAll pos ids = some results → results = ids.map wa)
    (hno : ∀ pos ids, lookupAll pos ids ≠ none) {n : Nat} (hn : n ≤ keys.length) (hkeys : keys ≠ []) :
    scanBack lookupAll keys (List.range (n + 1)).reverse ≠ none := by
  induction n with
  | zero =>
    rw [show (List.range (0 + 1)).reverse = [0] from rfl, scanBack_zero hwa hkeys]
    exact fun h => hno _ _ (Option.map_eq_none_iff.mp h)
  | succ n ih =>
    rw [List.range_succ, List.reverse_append, List.reverse_singleton, List.singleton_append, scanBack_cons _ hwa hn]
    obtain ⟨results, hres⟩ := Option.ne_none_iff_exists'.mp (hno (n + 1) [keys[n]])
    rw [hres, Option.bind_some]
    split
    · simp
    · exact ih (by omega)

/-- What the lookup finds, where none that it makes raises. -/
theorem lookupExternalHitBlocks_spec {fa : Bytes → Bool}
    (hfa : ∀ last, lookupOnPrefix keys = some last → last = (keys.takeWhile fa).length - (1 : Int))
    (hwa : ∀ pos ids results, lookupAll pos ids = some results → results = ids.map wa) {h : Nat}
    (hlookup : lookupExternalHitBlocks lookupOnPrefix lookupAll keys = some h) : ExternalHit fa wa keys h := by
  unfold lookupExternalHitBlocks at hlookup
  cases hlast : lookupOnPrefix keys with
  | none =>
    rw [hlast] at hlookup
    cases hlookup
  | some last =>
    obtain rfl := hfa last hlast
    rw [hlast] at hlookup
    dsimp only at hlookup
    have hreach : (keys.takeWhile fa).length ≤ keys.length := (List.takeWhile_prefix fa).length_le
    by_cases hnone : (keys.takeWhile fa).length = 0
    · rw [if_pos (by omega)] at hlookup
      obtain rfl := Option.some.inj hlookup
      exact ⟨Nat.zero_le _, fun hpos => absurd hpos (Nat.lt_irrefl 0), fun h' hpos hle _ => by omega⟩
    · rw [if_neg (by omega), show ((keys.takeWhile fa).length - (1 : Int) + 1).toNat =
        (keys.takeWhile fa).length by omega] at hlookup
      have hkeys : keys ≠ [] := List.length_pos_iff.mp (by omega)
      obtain ⟨hle, hboundary, hlast⟩ := scanBack_spec hwa hreach hkeys hlookup
      exact ⟨hle, hboundary, hlast⟩

theorem lookupExternalHitBlocks_ne_none (fa : Bytes → Bool)
    (hno : lookupOnPrefix keys = some ((keys.takeWhile fa).length - (1 : Int)))
    (hwa : ∀ pos ids results, lookupAll pos ids = some results → results = ids.map wa)
    (hall : ∀ pos ids, lookupAll pos ids ≠ none) :
    lookupExternalHitBlocks lookupOnPrefix lookupAll keys ≠ none := by
  have hreach : (keys.takeWhile fa).length ≤ keys.length := (List.takeWhile_prefix fa).length_le
  unfold lookupExternalHitBlocks
  rw [hno]
  dsimp only
  split
  · simp
  · next hpos =>
    rw [show ((keys.takeWhile fa).length - (1 : Int) + 1).toNat = (keys.takeWhile fa).length by omega]
    exact scanBack_ne_none hwa hall hreach (List.length_pos_iff.mp (by omega))

end Scan

/-! ## The tokens -/

section Tokens

variable {cfg : Config} {allTokenIds : List Int} {nc h : Nat}

theorem local_le (cfg : Config) (nc : Nat) :
    nc / cfg.hashBlockSize * cfg.hashBlockSize ≤ nc ∧ nc < nc / cfg.hashBlockSize * cfg.hashBlockSize + cfg.hashBlockSize := by
  have hdiv := Nat.div_add_mod' nc cfg.hashBlockSize
  have hmod := Nat.mod_lt nc cfg.hashBlockSize_pos
  omega

/-- Nothing beyond the blocks that are computed: the request has no block there. -/
theorem externalKeys_eq_nil_iff :
    (canonicalHashes cfg allTokenIds).drop (nc / cfg.hashBlockSize) = [] ↔
    allTokenIds.length / cfg.hashBlockSize ≤ nc / cfg.hashBlockSize := by
  rw [List.drop_eq_nil_iff, canonicalHashes, generateHash_length _ cfg.hashBlockSize_pos]

theorem getNumNewMatchedTokens_eq (lookup : List Bytes → Option Nat) :
    (getNumNewMatchedTokens cfg lookup allTokenIds nc).1 =
      reportedTokens cfg allTokenIds.length nc
      ((lookup ((canonicalHashes cfg allTokenIds).drop (nc / cfg.hashBlockSize))).getD 0) := by
  simp only [getNumNewMatchedTokens, reportedTokens, externalKeys_eq_nil_iff]
  generalize (lookup ((canonicalHashes cfg allTokenIds).drop (nc / cfg.hashBlockSize))).getD 0 = h
  by_cases hskip : (allTokenIds.length : Int) ≤ cfg.persistTokenThreshold ∨
      (allTokenIds.length : Int) ≤ (nc / cfg.hashBlockSize * cfg.hashBlockSize : Nat) + cfg.loadTokensThreshold
  · rw [if_pos hskip, if_pos (by rcases hskip with hp | hl; exacts [.inl hp, .inr (.inl hl)])]
  · rw [if_neg hskip]
    by_cases hnil : allTokenIds.length / cfg.hashBlockSize ≤ nc / cfg.hashBlockSize
    · rw [if_pos hnil, if_pos (.inr (.inr hnil))]
    · have hasked : ¬ ((allTokenIds.length : Int) ≤ cfg.persistTokenThreshold ∨
          (allTokenIds.length : Int) ≤ (nc / cfg.hashBlockSize * cfg.hashBlockSize : Nat) + cfg.loadTokensThreshold ∨
          allTokenIds.length / cfg.hashBlockSize ≤ nc / cfg.hashBlockSize) := by
        rw [← or_assoc]
        exact fun hor => hor.elim hskip hnil
      rw [if_neg hnil, if_neg hasked, Nat.add_comm (h * cfg.hashBlockSize)]
      split <;> rfl

/-- A hit longer than a threshold has a block, which ends beyond what is computed. -/
theorem reportedTokens_nonneg (hload : 0 ≤ cfg.loadTokensThreshold) (numTokens : Nat) :
    0 ≤ reportedTokens cfg numTokens nc h := by
  have hlocal := local_le cfg nc
  have hblock : ¬ ((h * cfg.hashBlockSize : Nat) : Int) ≤ cfg.loadTokensThreshold →
      cfg.hashBlockSize ≤ h * cfg.hashBlockSize := by
    intro hlong
    have hpos : h ≠ 0 := by
      intro h0
      rw [h0, Nat.zero_mul] at hlong
      omega
    exact Nat.le_mul_of_pos_left _ (Nat.pos_of_ne_zero hpos)
  unfold reportedTokens
  dsimp only
  split
  · exact Int.le_refl 0
  · split
    · exact Int.le_refl 0
    · next hlong =>
      have hle := hblock hlong
      split <;> omega

end Tokens

/-! ## The stores of a cluster -/

section Stores

variable {Req : Type} [DecidableEq Req] {C : ClusterConfig} (s : Cluster Bytes Req) (faStore waStore : StoreLookup Bytes)
  (faRaises : Bool) (waRaises : Nat → Bool)

def faLookup (keys : List Bytes) : Option Int := if faRaises then none else some (s.scheduler.lookupOnPrefix faStore keys)

def waLookup (pos : Nat) (keys : List Bytes) : Option (List Bool) := if waRaises pos then none
    else some (s.scheduler.lookupAll waStore keys)

def lookup (keys : List Bytes) : Option Nat :=
    lookupExternalHitBlocks (faLookup s faStore faRaises) (waLookup s waStore waRaises) keys

variable {s faStore waStore} {faHas waHas : Bytes → Bool}

/-- For stores that hold any rows, in any state of the ranks: what is found is the last boundary, a
    lookup that raises finds none, and the tokens reported are those up to the boundary. -/
theorem matched_tokens_spec (hs : Reach (cluster C) Any s) (hfa : faStore.Holds faHas) (hwa : waStore.Holds waHas) (cfg : Config)
    (allTokenIds : List Int) (nc : Nat) (faRaises : Bool) (waRaises : Nat → Bool) :
    (∀ h, lookup s faStore waStore faRaises waRaises ((canonicalHashes cfg allTokenIds).drop (nc / cfg.hashBlockSize)) = some h →
      ExternalHit (s.valid faHas) (s.valid waHas) ((canonicalHashes cfg allTokenIds).drop (nc / cfg.hashBlockSize)) h) ∧
    (faRaises = false → (∀ pos, waRaises pos = false) →
      lookup s faStore waStore faRaises waRaises ((canonicalHashes cfg allTokenIds).drop (nc / cfg.hashBlockSize)) ≠ none) ∧
    (getNumNewMatchedTokens cfg (lookup s faStore waStore faRaises waRaises) allTokenIds nc).1 =
      reportedTokens cfg allTokenIds.length nc
        ((lookup s faStore waStore faRaises waRaises ((canonicalHashes cfg allTokenIds).drop (nc / cfg.hashBlockSize))).getD 0) ∧
    (0 ≤ cfg.loadTokensThreshold →
      0 ≤ (getNumNewMatchedTokens cfg (lookup s faStore waStore faRaises waRaises) allTokenIds nc).1) := by
  have hinv := reach_clusterInv hs
  have hruns : ∀ keys last, faLookup s faStore faRaises keys = some last → last = (keys.takeWhile (s.valid faHas)).length -
      (1 : Int) := by
    intro keys last hlast
    unfold faLookup at hlast
    split at hlast
    · cases hlast
    · rw [← Option.some.inj hlast, lookupOnPrefix_eq hinv hfa]
  have hall : ∀ pos ids results, waLookup s waStore waRaises pos ids = some results → results = ids.map (s.valid waHas) := by
    intro pos ids results hres
    unfold waLookup at hres
    split at hres
    · cases hres
    · rw [← Option.some.inj hres, lookupAll_eq hwa]
  refine ⟨fun h hh => lookupExternalHitBlocks_spec (hruns _) hall hh, fun hf hw => ?_, getNumNewMatchedTokens_eq _,
    fun hload => ?_⟩
  · refine lookupExternalHitBlocks_ne_none (s.valid faHas) ?_ hall ?_
    · simp only [faLookup, hf, Bool.false_eq_true, if_false, lookupOnPrefix_eq hinv hfa]
    · intro pos ids
      simp only [waLookup, hw pos, Bool.false_eq_true, if_false]
      exact Option.some_ne_none _
  · rw [getNumNewMatchedTokens_eq]
    exact reportedTokens_nonneg hload _

end Stores

/-! ## A request whose blocks are all found -/

section WholeHit

/-- The cluster of one rank, as it starts. -/
def oneRank : ClusterConfig := ⟨1, false, true⟩

def started : Cluster Bytes Nat := ⟨fun _ => ⟨.new false true, .new false, fun _ => [], []⟩, .new true true⟩

theorem started_reach : Reach (cluster oneRank) Any started := .init ⟨fun _ => rfl, rfl⟩

def oneBlockRequest : List Int := List.replicate 256 7

def plainConfig : Config := ⟨256, by decide, 0, 0, fun _ => [1], []⟩

/-- A store with the row of that block. -/
def oneRow : StoreLookup Bytes := ⟨fun ids => ids.map (· == [1]), fun ids => (ids.takeWhile (· == [1])).length - 1⟩

theorem canonicalHashes_oneBlock : canonicalHashes plainConfig oneBlockRequest = [[1]] := by
  decide +kernel

/-- The hit is the whole block of 256 tokens, and 255 are reported. -/
theorem whole_hit_reports_one_less :
    ∃ h, ExternalHit (started.valid (· == [1])) (started.valid (· == [1])) (canonicalHashes plainConfig oneBlockRequest) h ∧
      (getNumNewMatchedTokens plainConfig (lookup started oneRow oneRow false fun _ => false) oneBlockRequest 0).1 ≠
        ((h * plainConfig.hashBlockSize : Nat) : Int) - 0 := by
  have hreach : ((canonicalHashes plainConfig oneBlockRequest).takeWhile (started.valid (· == [1]))).length = 1 := by
    rw [canonicalHashes_oneBlock]
    rfl
  refine ⟨1, ⟨by rw [hreach], fun _ => ⟨[1], ?_, rfl⟩, fun h' _ hle _ => by omega⟩, by decide +kernel⟩
  rw [canonicalHashes_oneBlock]
  rfl

end WholeHit

section Gap

/-- Blocks of four tokens; the hash of a block counts the blocks up to it. -/
def countingConfig : Config where
  hashBlockSize := 4
  hashBlockSize_pos := Nat.succ_pos 3
  persistTokenThreshold := 0
  loadTokensThreshold := 0
  hasher := countingHasher
  seed := []

/-- A store with these rows. -/
def rowsOf (has : Bytes → Bool) : StoreLookup Bytes := ⟨fun ids => ids.map has, fun ids => (ids.takeWhile has).length - 1⟩

theorem rowsOf_holds (has : Bytes → Bool) : (rowsOf has).Holds has := ⟨fun _ => rfl, fun _ => rfl⟩

/-- The first four of five blocks. -/
def leadingFour (key : Bytes) : Bool := decide (key.length ≤ 4)

/-- The first and the third. -/
def firstAndThird (key : Bytes) : Bool := decide (key.length = 1 ∨ key.length = 3)

/-- The fourth boundary has no window row and the second is passed over: the hit is three blocks. -/
theorem matched_tokens_spec_gap :
    ExternalHit (started.valid leadingFour) (started.valid firstAndThird)
    (canonicalHashes countingConfig (List.replicate 20 7)) 3 ∧
      (getNumNewMatchedTokens countingConfig (lookup started (rowsOf leadingFour) (rowsOf firstAndThird) false fun _ => false)
        (List.replicate 20 7) 0).1 = 12 := by
  obtain ⟨hhit, -, htokens, -⟩ := matched_tokens_spec started_reach (rowsOf_holds leadingFour) (rowsOf_holds firstAndThird)
    countingConfig (List.replicate 20 7) 0 false fun _ => false
  exact ⟨hhit 3 (by decide +kernel), htokens.trans (by decide +kernel)⟩

end Gap

end Fawa

end UnifiedCache.Connector
