/-
  UnifiedCache.Cache.Alloc — which node `TransBuffer::Alloc` takes, and that it takes one.

  Callers with and without access to the reserved nodes advance one cursor (`freeHead`), each
  wrapping it at its own limit, so a call may find the cursor beyond its range. From its first
  fetch on, a call alone visits the nodes of its range in turn (`alloc_isSome_iff`), all of them
  within one round (`exists_around`).

  Proved, for every setup `CheckConfig` accepts (`alloc_within_reservation`): a call alone ends
  iff an eligible node is unreferenced, then within one round, and takes such a node; and in
  every reachable state of the shared buffer a fetched node is eligible for its caller, as it is
  in the local one where no thread moves the cursor to the limit of one that is about to read it
  (`UnifiedCache.Cache.LocalBuffer`). This holds with access to the reserved nodes, and without
  it iff fewer nodes are reserved than there are.

  `CheckConfig` means to reject a larger reservation, but its `loadExclusiveBufferNumber * 2` is
  a product of `size_t`, which is small again from `2 ^ 63` on (a negative number in the
  configuration): then the calls of dumps take reserved nodes (`reservation_wraps`).
-/

import UnifiedCache.Base.Ring
import UnifiedCache.Cache.LocalBuffer

namespace UnifiedCache.Cache

open UnifiedCache.Base

variable {Block : Type} (P : Params Block)

/-! ## The setup -/

/-- What `CheckConfig` and `TransBuffer::Setup` read of the store's configuration (`size_t`s). -/
structure BufferConfig where
  shardSize : UInt64
  bufferCapacity : UInt64
  loadExclusiveBufferNumber : UInt64
  deriving DecidableEq, Repr

namespace BufferConfig

def bufferNumber (c : BufferConfig) : UInt64 := c.bufferCapacity / c.shardSize

/-- The checks of `CheckConfig` on these fields. -/
def accepted (c : BufferConfig) : Bool :=
  c.shardSize != 0 && !(c.bufferNumber < 1024 || c.bufferNumber < c.loadExclusiveBufferNumber * 2)

/-- `Setup`: as many nodes as shards fit. -/
def params (c : BufferConfig) (blockIdHasher : Block → UInt64) (shardHasher : Nat → UInt64) (bypassHitOnLoad : Bool) :
    Params Block where
  blockIdHasher := blockIdHasher
  shardHasher := shardHasher
  nNode := c.bufferNumber.toNat
  reservedNumber := c.loadExclusiveBufferNumber.toNat
  bypassHitOnLoad := bypassHitOnLoad

end BufferConfig

/-- The nodes a caller may take. -/
def Params.Eligible (allowReserved : Bool) (i : Nat) : Prop :=
  i < P.nNode ∧ (allowReserved = false → i + P.reservedNumber < P.nNode)

/-! ## A call alone -/

namespace Buf

/-- `Alloc`, running alone: the only locked bucket is the caller's. At most `fuel` nodes are
    fetched. -/
def alloc (allowReserved : Bool) (iBucket : Nat) (blockId : Block) (shardIdx : Nat) :
    Nat → Buf Block → Option (Buf Block × Nat)
  | 0, _ => none
  | fuel + 1, b =>
    let (b, iNode) := b.fetchNode P allowReserved
    match b.allocAt (fun k => k ≠ iBucket) iBucket iNode blockId shardIdx with
    | some b => some (b, iNode)
    | none => alloc allowReserved iBucket blockId shardIdx fuel b

end Buf

variable {P} {b b' : Buf Block} {allowReserved : Bool} {iBucket iNode shardIdx fuel i : Nat} {blockId : Block}

theorem turn_lt {limit : Nat} (hlimit : 0 < limit) : b.turn limit < limit := by
  unfold Buf.turn
  split
  · exact hlimit
  · omega

/-- The turn moves on by one around the range. -/
theorem turn_next {limit : Nat} (hlimit : 0 < limit) :
    (b.setFreeHead (b.turn limit + 1)).turn limit = (b.turn limit + 1) % limit := by
  have hlt : b.turn limit < limit := turn_lt hlimit
  show (if b.turn limit + 1 ≥ limit then 0 else b.turn limit + 1) = _
  split
  · rename_i hge
    have heq : b.turn limit + 1 = limit := by omega
    rw [heq, Nat.mod_self]
  · rename_i hnot
    rw [Nat.mod_eq_of_lt (by omega)]

/-- A node is passed over only while it is referenced: no other call holds a lock. -/
theorem allocAt_alone : b.allocAt (fun k => k ≠ iBucket) iBucket iNode blockId shardIdx = none ↔
    0 < (b.metaAt iNode).reference := by
  unfold Buf.allocAt
  by_cases href : (b.metaAt iNode).reference > 0
  · simp [href]
  · rw [if_neg href]
    by_cases hown : (b.metaAt iNode).hash = some iBucket
    · simp [hown, href]
    · rw [if_neg hown]
      cases hold : (b.metaAt iNode).hash with
      | none => simp [href]
      | some oldBucket =>
        have hne : oldBucket ≠ iBucket := fun e => hown (by rw [hold, e])
        simp [hne, href]

theorem alloc_succ : b.alloc P allowReserved iBucket blockId shardIdx (fuel + 1) =
    match (b.setFreeHead (b.turn (P.limit allowReserved) + 1)).allocAt (fun k => k ≠ iBucket) iBucket
      (b.turn (P.limit allowReserved)) blockId shardIdx with
    | some b' => some (b', b.turn (P.limit allowReserved))
    | none => (b.setFreeHead (b.turn (P.limit allowReserved) + 1)).alloc P allowReserved iBucket blockId shardIdx fuel := rfl

/-- The first node is passed over iff it is referenced. -/
theorem first_passed (b : Buf Block) (allowReserved : Bool) (iBucket : Nat) (blockId : Block) (shardIdx : Nat) :
    (b.setFreeHead (b.turn (P.limit allowReserved) + 1)).allocAt (fun k => k ≠ iBucket) iBucket
      (b.turn (P.limit allowReserved)) blockId shardIdx = none ↔
        0 < (b.metaAt (b.turn (P.limit allowReserved))).reference := by
  rw [allocAt_alone, setFreeHead_metaAt]

/-- The nodes visited, by induction on the number of fetches: the `n`-th is `n` places on around
    the range, and the first unreferenced one ends the loop. -/
theorem alloc_isSome_iff (hlimit : 0 < P.limit allowReserved) :
    (b.alloc P allowReserved iBucket blockId shardIdx fuel).isSome ↔
      ∃ n < fuel, (b.metaAt ((b.turn (P.limit allowReserved) + n) % P.limit allowReserved)).reference = 0 := by
  induction fuel generalizing b with
  | zero => simp [Buf.alloc]
  | succ fuel ih =>
    have hlt : b.turn (P.limit allowReserved) < P.limit allowReserved := turn_lt hlimit
    have hfirst : (b.turn (P.limit allowReserved) + 0) % P.limit allowReserved = b.turn (P.limit allowReserved) := by
      rw [Nat.add_zero, Nat.mod_eq_of_lt hlt]
    have hpassed := first_passed (P := P) b allowReserved iBucket blockId shardIdx
    rw [alloc_succ]
    cases hat : (b.setFreeHead (b.turn (P.limit allowReserved) + 1)).allocAt (fun k => k ≠ iBucket) iBucket
        (b.turn (P.limit allowReserved)) blockId shardIdx with
    | some b' =>
      have hfree : ¬ 0 < (b.metaAt (b.turn (P.limit allowReserved))).reference := by
        intro href
        have hnone := hpassed.mpr href
        rw [hat] at hnone
        cases hnone
      refine ⟨fun _ => ⟨0, by omega, ?_⟩, fun _ => rfl⟩
      rw [hfirst]
      omega
    | none =>
      have href : 0 < (b.metaAt (b.turn (P.limit allowReserved))).reference := hpassed.mp hat
      have hshift : ∀ n, ((b.setFreeHead (b.turn (P.limit allowReserved) + 1)).turn (P.limit allowReserved) + n) %
          P.limit allowReserved = (b.turn (P.limit allowReserved) + (n + 1)) % P.limit allowReserved := by
        intro n
        rw [turn_next hlimit, Nat.mod_add_mod]
        congr 1
        omega
      simp only
      rw [ih]
      simp only [hshift, setFreeHead_metaAt]
      constructor
      · rintro ⟨n, hn, hzero⟩
        exact ⟨n + 1, by omega, hzero⟩
      · rintro ⟨n, hn, hzero⟩
        cases n with
        | zero =>
          rw [hfirst] at hzero
          omega
        | succ n => exact ⟨n, by omega, hzero⟩

/-- The node taken is below the limit and was unreferenced. -/
theorem alloc_takes (hlimit : 0 < P.limit allowReserved)
    (h : b.alloc P allowReserved iBucket blockId shardIdx fuel = some (b', i)) :
    i < P.limit allowReserved ∧ (b.metaAt i).reference = 0 := by
  induction fuel generalizing b with
  | zero => cases h
  | succ fuel ih =>
    have hpassed := first_passed (P := P) b allowReserved iBucket blockId shardIdx
    rw [alloc_succ] at h
    cases hat : (b.setFreeHead (b.turn (P.limit allowReserved) + 1)).allocAt (fun k => k ≠ iBucket) iBucket
        (b.turn (P.limit allowReserved)) blockId shardIdx with
    | some b'' =>
      rw [hat] at h
      obtain ⟨rfl, rfl⟩ := Prod.mk.inj (Option.some.inj h)
      refine ⟨turn_lt hlimit, ?_⟩
      by_contra hne
      have hnone := hpassed.mpr (Nat.pos_of_ne_zero hne)
      rw [hat] at hnone
      cases hnone
    | none =>
      rw [hat] at h
      exact ih (b := b.setFreeHead (b.turn (P.limit allowReserved) + 1)) h

/-- A call alone ends iff an unreferenced node lies below its limit, and then within a round. -/
theorem alloc_ends_iff (hlimit : 0 < P.limit allowReserved) :
    (b.alloc P allowReserved iBucket blockId shardIdx (P.limit allowReserved)).isSome ↔
      ∃ i, i < P.limit allowReserved ∧ (b.metaAt i).reference = 0 := by
  rw [alloc_isSome_iff hlimit]
  constructor
  · rintro ⟨n, _, hzero⟩
    exact ⟨_, Nat.mod_lt _ hlimit, hzero⟩
  · rintro ⟨i, hi, hzero⟩
    obtain ⟨n, hn, heq⟩ := exists_around (b.turn (P.limit allowReserved)) hi
    unfold around at heq
    exact ⟨n, hn, by rw [heq]; exact hzero⟩

theorem alloc_round (hlimit : 0 < P.limit allowReserved)
    (h : (b.alloc P allowReserved iBucket blockId shardIdx fuel).isSome) :
    (b.alloc P allowReserved iBucket blockId shardIdx (P.limit allowReserved)).isSome := by
  obtain ⟨n, _, hzero⟩ := (alloc_isSome_iff hlimit).mp h
  exact (alloc_ends_iff hlimit).mpr ⟨_, Nat.mod_lt _ hlimit, hzero⟩

/-- Only the buckets other than the caller's are tried. -/
theorem allocAt_congr {tryLock tryLock' : Nat → Bool} (h : ∀ k, k ≠ iBucket → tryLock k = tryLock' k) :
    b.allocAt tryLock iBucket iNode blockId shardIdx = b.allocAt tryLock' iBucket iNode blockId shardIdx := by
  unfold Buf.allocAt
  by_cases hown : (b.metaAt iNode).hash = some iBucket
  · rw [if_pos hown, if_pos hown]
  · cases hold : (b.metaAt iNode).hash with
    | none => rfl
    | some oldBucket =>
      have hne : oldBucket ≠ iBucket := fun e => hown (by rw [hold, e])
      simp only [h oldBucket hne]

/-! ## The steps of a thread alone -/

section Alone

variable [DecidableEq Block] {s s' : Sys Block} {t n : Nat} {c : GetArgs Block}

/-- A thread in `Alloc` whose bucket alone is locked goes through the loop of `Buf.alloc`, in two
    steps a node. -/
theorem alloc_runs (hpc : s.pc t = .alloc c) (halone : ∀ k, k ≠ hashOf P c.blockId c.shardIdx → s.bucketLocks k = none) :
    match s.buf.alloc P c.allowReserved (hashOf P c.blockId c.shardIdx) c.blockId c.shardIdx fuel with
    | some (b', i) => ∃ n ≤ 2 * fuel, ∃ s', runs P s t n = some s' ∧ s'.buf = b' ∧ s'.pc t = .leave c i true
    | none => ∃ s', runs P s t (2 * fuel) = some s' ∧ s'.pc t = .alloc c := by
  induction fuel generalizing s with
  | zero => exact ⟨s, runs_zero, hpc⟩
  | succ fuel ih =>
    let s₁ : Sys Block := { s with buf := s.buf.setFreeHead (s.buf.turn (P.limit c.allowReserved) + 1) }.at_ t
      (.fetched c (s.buf.turn (P.limit c.allowReserved)))
    have hfetch : s.runPc P t = some s₁ := by
      unfold Sys.runPc
      rw [hpc]
      rfl
    have hpc₁ : s₁.pc t = .fetched c (s.buf.turn (P.limit c.allowReserved)) := by simp [s₁, Sys.at_]
    have hat : s₁.buf.allocAt s₁.bucketTryLock (hashOf P c.blockId c.shardIdx) (s.buf.turn (P.limit c.allowReserved))
        c.blockId c.shardIdx = (s.buf.setFreeHead (s.buf.turn (P.limit c.allowReserved) + 1)).allocAt
          (fun k => k ≠ hashOf P c.blockId c.shardIdx) (hashOf P c.blockId c.shardIdx)
          (s.buf.turn (P.limit c.allowReserved)) c.blockId c.shardIdx := by
      refine allocAt_congr fun k hk => ?_
      simp only [Sys.bucketTryLock, hk, ne_eq, not_false_eq_true, decide_true, decide_eq_true_eq]
      exact halone k hk
    rw [alloc_succ, ← hat]
    cases hres : s₁.buf.allocAt s₁.bucketTryLock (hashOf P c.blockId c.shardIdx) (s.buf.turn (P.limit c.allowReserved))
        c.blockId c.shardIdx with
    | some b' =>
      have hrun : s₁.runPc P t = some ({ s₁ with buf := b' }.at_ t (.leave c (s.buf.turn (P.limit c.allowReserved)) true)) := by
        unfold Sys.runPc
        rw [hpc₁]
        simp only [hres]
      refine ⟨2, by omega, _, (runs_succ hfetch).trans ((runs_succ hrun).trans runs_zero), rfl, ?_⟩
      simp [Sys.at_]
    | none =>
      have hrun : s₁.runPc P t = some (s₁.at_ t (.alloc c)) := by
        unfold Sys.runPc
        rw [hpc₁]
        simp only [hres]
      have hnext := ih (s := s₁.at_ t (.alloc c)) (by simp [Sys.at_]) halone
      have htwo : ∀ n, runs P s t (n + 2) = runs P (s₁.at_ t (.alloc c)) t n := fun n =>
        (runs_succ hfetch).trans (runs_succ hrun)
      show (match (s₁.at_ t (.alloc c)).buf.alloc P c.allowReserved (hashOf P c.blockId c.shardIdx) c.blockId c.shardIdx
        fuel with | some (b', i) => _ | none => _)
      cases hrest : (s₁.at_ t (.alloc c)).buf.alloc P c.allowReserved (hashOf P c.blockId c.shardIdx) c.blockId c.shardIdx
          fuel with
      | some r =>
        rw [hrest] at hnext
        obtain ⟨n, hn, s', hruns, hbuf, hleave⟩ := hnext
        exact ⟨n + 2, by omega, s', (htwo n).trans hruns, hbuf, hleave⟩
      | none =>
        rw [hrest] at hnext
        obtain ⟨s', hruns, hpc'⟩ := hnext
        exact ⟨s', (htwo (2 * fuel)).trans hruns, hpc'⟩

end Alone

/-! ## Any mix of calls -/

section Shared

variable [DecidableEq Block] {s s' : Sys Block} {t : Nat} {c : GetArgs Block}

/-- A step moves its thread only, and to a fetched node only from the cursor. -/
theorem runPc_pc (hs : s.runPc P t = some s') :
    ∃ pc, s'.pc = Function.update s.pc t pc ∧ ∀ c i, pc = .fetched c i → i = s.buf.turn (P.limit c.allowReserved) := by
  unfold Sys.runPc at hs
  cases hpc : s.pc t with
  | idle => rw [hpc] at hs; cases hs
  | find c cur =>
    rw [hpc] at hs
    cases cur with
    | none =>
      obtain rfl := Option.some.inj hs
      exact ⟨_, rfl, by simp⟩
    | some i =>
      simp only at hs
      split at hs
      · obtain rfl := Option.some.inj hs
        refine ⟨_, rfl, ?_⟩
        split <;> simp
      · obtain rfl := Option.some.inj hs
        exact ⟨_, rfl, by simp⟩
  | hit c i owner =>
    rw [hpc] at hs
    obtain rfl := Option.some.inj hs
    refine ⟨_, rfl, ?_⟩
    split <;> simp
  | notReady c i owner =>
    rw [hpc] at hs
    obtain rfl := Option.some.inj hs
    exact ⟨_, rfl, by simp⟩
  | alloc c =>
    rw [hpc] at hs
    obtain rfl := Option.some.inj hs
    refine ⟨_, rfl, ?_⟩
    rintro c' i heq
    cases heq
    rfl
  | fetched c i =>
    rw [hpc] at hs
    simp only at hs
    split at hs
    · obtain rfl := Option.some.inj hs
      exact ⟨_, rfl, by simp⟩
    · obtain rfl := Option.some.inj hs
      exact ⟨_, rfl, by simp⟩
  | leave c i owner =>
    rw [hpc] at hs
    obtain rfl := Option.some.inj hs
    exact ⟨_, rfl, by simp⟩
  | exist blockId shardIdx cur =>
    rw [hpc] at hs
    cases cur with
    | none =>
      obtain rfl := Option.some.inj hs
      exact ⟨_, rfl, by simp⟩
    | some i =>
      simp only at hs
      split at hs
      · obtain rfl := Option.some.inj hs
        exact ⟨_, rfl, by simp⟩
      · obtain rfl := Option.some.inj hs
        exact ⟨_, rfl, by simp⟩
  | existLeave blockId shardIdx exist =>
    rw [hpc] at hs
    obtain rfl := Option.some.inj hs
    exact ⟨_, rfl, by simp⟩

/-- A step of the buffer moves one thread at most, to a fetched node only from the cursor. -/
theorem step_moves {a : Act Block} (hs : s.step P a = some s') : s'.pc = s.pc ∨
    ∃ t pc, s'.pc = Function.update s.pc t pc ∧ ∀ c i, pc = .fetched c i → i = s.buf.turn (P.limit c.allowReserved) := by
  cases a with
  | get t c =>
    simp only [Sys.step, Option.ite_none_right_eq_some, Option.some.injEq] at hs
    obtain ⟨_, rfl⟩ := hs
    exact .inr ⟨t, _, rfl, by simp⟩
  | callExist t blockId shardIdx =>
    simp only [Sys.step, Option.ite_none_right_eq_some, Option.some.injEq] at hs
    obtain ⟨_, rfl⟩ := hs
    exact .inr ⟨t, _, rfl, by simp⟩
  | run t => exact .inr ⟨t, runPc_pc hs⟩
  | copy hd =>
    simp only [Sys.step, Option.ite_none_right_eq_some, Option.some.injEq] at hs
    obtain ⟨_, rfl⟩ := hs
    exact .inl rfl
  | drop hd =>
    simp only [Sys.step, Option.ite_none_right_eq_some, Option.some.injEq] at hs
    obtain ⟨_, rfl⟩ := hs
    exact .inl rfl
  | markReady hd =>
    simp only [Sys.step, Option.ite_none_right_eq_some, Option.some.injEq] at hs
    obtain ⟨_, rfl⟩ := hs
    exact .inl rfl
  | markFailed hd status =>
    simp only [Sys.step, Option.ite_none_right_eq_some, Option.some.injEq] at hs
    obtain ⟨_, rfl⟩ := hs
    exact .inl rfl

/-- In every interleaving of calls with and without access to the reserved nodes, a fetched node
    is below its caller's limit. -/
theorem reach_fetched (h : Reach (transBuffer P) Any s) : ∀ t c i, s.pc t = .fetched c i →
    0 < P.limit c.allowReserved → i < P.limit c.allowReserved := by
  refine h.inv (I := fun s => ∀ t c i, s.pc t = .fetched c i → 0 < P.limit c.allowReserved → i < P.limit c.allowReserved)
    ?_ ?_
  · intro s₀ hinit t c i hpc
    rw [hinit.pc t] at hpc
    cases hpc
  · intro s₀ a s₁ ih _ hs u c i hpc hlimit
    rcases step_moves hs with hsame | ⟨t, pc, hmoved, hcursor⟩
    · rw [hsame] at hpc
      exact ih u c i hpc hlimit
    · rw [hmoved] at hpc
      by_cases hu : u = t
      · subst hu
        rw [Function.update_self] at hpc
        rw [hcursor c i hpc]
        exact turn_lt hlimit
      · rw [Function.update_of_ne hu] at hpc
        exact ih u c i hpc hlimit

/-- A thread leaves `Alloc` with the node it fetched, which was unreferenced. -/
theorem taken_free {i j : Nat} {owner : Bool} (hpc : s.pc t = .fetched c i) (hs : s.runPc P t = some s')
    (hleave : s'.pc t = .leave c j owner) : j = i ∧ (s.buf.metaAt i).reference = 0 := by
  unfold Sys.runPc at hs
  rw [hpc] at hs
  simp only at hs
  cases hat : s.buf.allocAt s.bucketTryLock (hashOf P c.blockId c.shardIdx) i c.blockId c.shardIdx with
  | some b =>
    rw [hat] at hs
    obtain rfl := Option.some.inj hs
    simp only [Sys.at_, Function.update_self, Pc.leave.injEq] at hleave
    refine ⟨hleave.2.1.symm, ?_⟩
    by_contra hne
    unfold Buf.allocAt at hat
    rw [if_pos (Nat.pos_of_ne_zero hne)] at hat
    cases hat
  | none =>
    rw [hat] at hs
    obtain rfl := Option.some.inj hs
    simp [Sys.at_] at hleave

end Shared

/-! ## The reservation -/

/-- What `Alloc` promises the callers that may, or may not, take reserved nodes. -/
structure AllocSpec [DecidableEq Block] (P : Params Block) (allowReserved : Bool) : Prop where
  /-- A call alone ends iff an eligible node is unreferenced, -/
  ends_iff : ∀ (b : Buf Block) iBucket blockId shardIdx,
    (∃ fuel, (b.alloc P allowReserved iBucket blockId shardIdx fuel).isSome) ↔
      ∃ i, P.Eligible allowReserved i ∧ (b.metaAt i).reference = 0
  /-- within one round of the cursor, -/
  round : ∀ (b : Buf Block) iBucket blockId shardIdx fuel, (b.alloc P allowReserved iBucket blockId shardIdx fuel).isSome →
    (b.alloc P allowReserved iBucket blockId shardIdx (P.limit allowReserved)).isSome
  /-- with an eligible node that was unreferenced. -/
  takes : ∀ (b : Buf Block) iBucket blockId shardIdx fuel b' i,
    b.alloc P allowReserved iBucket blockId shardIdx fuel = some (b', i) →
      P.Eligible allowReserved i ∧ (b.metaAt i).reference = 0
  /-- In any mix of calls, a node is taken only by a caller it is eligible for, and unreferenced. -/
  shared : ∀ s, Reach (transBuffer P) Any s → ∀ t c i, s.pc t = .fetched c i → c.allowReserved = allowReserved →
    P.Eligible allowReserved i ∧ ∀ s' j owner, s.runPc P t = some s' → s'.pc t = .leave c j owner →
      j = i ∧ (s.buf.metaAt i).reference = 0
  /-- So it is where the cursor takes no lock, if none moves it to the limit of another that is about to read it. -/
  unlocked : ∀ s, Reach (localBuffer P) (Unraced P) s → ∀ t c i, s.sys.pc t = .fetched c i → c.allowReserved = allowReserved →
    P.Eligible allowReserved i ∧ ∀ s' j owner, s.step P (.run t) = some s' → s'.sys.pc t = .leave c j owner →
      j = i ∧ (s.sys.buf.metaAt i).reference = 0

/-- The limit is the number of eligible nodes: the subtraction does not wrap there. -/
theorem limit_eligible (h : allowReserved = true ∨ P.reservedNumber < P.nNode) :
    i < P.limit allowReserved ↔ P.Eligible allowReserved i := by
  unfold Params.limit Params.Eligible
  cases allowReserved with
  | true =>
    have heq : sizeSub P.nNode 0 = P.nNode := by simp [sizeSub]
    simp only [if_true, heq, Bool.true_eq_false, false_implies, and_true]
  | false =>
    have hr : P.reservedNumber < P.nNode := by
      rcases h with h | h
      · cases h
      · exact h
    have heq : sizeSub P.nNode P.reservedNumber = P.nNode - P.reservedNumber := if_pos (Nat.le_of_lt hr)
    simp only [Bool.false_eq_true, if_false, heq, true_implies]
    omega

theorem allocSpec_of_reserved [DecidableEq Block] (hpos : 0 < P.nNode)
    (h : allowReserved = true ∨ P.reservedNumber < P.nNode) : AllocSpec P allowReserved := by
  have heligible : ∀ i, i < P.limit allowReserved ↔ P.Eligible allowReserved i := fun i => limit_eligible h
  have hlimit : 0 < P.limit allowReserved := by
    rw [heligible]
    refine ⟨hpos, fun hno => ?_⟩
    rcases h with h | h
    · rw [h] at hno
      cases hno
    · omega
  constructor
  · intro b iBucket blockId shardIdx
    constructor
    · rintro ⟨fuel, hsome⟩
      obtain ⟨i, hi, hzero⟩ := (alloc_ends_iff hlimit).mp (alloc_round hlimit hsome)
      exact ⟨i, (heligible i).mp hi, hzero⟩
    · rintro ⟨i, hi, hzero⟩
      exact ⟨_, (alloc_ends_iff hlimit).mpr ⟨i, (heligible i).mpr hi, hzero⟩⟩
  · intro b iBucket blockId shardIdx fuel hsome
    exact alloc_round hlimit hsome
  · intro b iBucket blockId shardIdx fuel b' i htaken
    obtain ⟨hi, hzero⟩ := alloc_takes hlimit htaken
    exact ⟨(heligible i).mp hi, hzero⟩
  · intro s hreach t c i hpc e
    subst e
    refine ⟨(heligible i).mp (reach_fetched hreach t c i hpc hlimit), ?_⟩
    intro s' j owner hs hleave
    exact taken_free hpc hs hleave
  · intro s hreach t c i hpc e
    subst e
    refine ⟨(heligible i).mp (local_fetched hreach hpc hlimit), ?_⟩
    intro s' j owner hs hleave
    rcases local_step_cases hs with ⟨t', c', ht, halloc, -⟩ | ⟨-, hrun, -⟩
    · obtain rfl := Act.run.inj ht
      rw [hpc] at halloc
      cases halloc
    · exact taken_free hpc hrun hleave

/-- Where every node is reserved, a fresh buffer gives node `0` to a caller that may take none. -/
theorem not_allocSpec [DecidableEq Block] [Nonempty Block] (h : P.nNode ≤ P.reservedNumber) : ¬ AllocSpec P false := by
  intro hspec
  obtain ⟨blockId⟩ := ‹Nonempty Block›
  let b : Buf Block := ⟨fun _ => none, 0, fun _ => ⟨blockId, 0, 0, none, none, none, .loading, statusOK⟩⟩
  have hsome : (b.alloc P false 0 blockId 0 1).isSome := by
    cases hres : b.alloc P false 0 blockId 0 1 with
    | some r => rfl
    | none =>
      have hpassed : 0 < (b.metaAt (b.turn (P.limit false))).reference := by
        rw [alloc_succ] at hres
        cases hat : (b.setFreeHead (b.turn (P.limit false) + 1)).allocAt (fun k => k ≠ 0) 0 (b.turn (P.limit false))
            blockId 0 with
        | some b' =>
          rw [hat] at hres
          cases hres
        | none => exact (first_passed b false 0 blockId 0).mp hat
      exact absurd hpassed (Nat.lt_irrefl 0)
  obtain ⟨i, hi, _⟩ := (hspec.ends_iff b 0 blockId 0).mp ⟨1, hsome⟩
  have hlt := hi.1
  have hrest := hi.2 rfl
  omega

/-- Of the setups `CheckConfig` accepts, those where `Alloc` keeps its promise: always to the
    callers that may take reserved nodes, and to the others iff fewer nodes are reserved than
    there are. -/
theorem alloc_within_reservation [DecidableEq Block] [Nonempty Block] (c : BufferConfig) (blockIdHasher : Block → UInt64)
    (shardHasher : Nat → UInt64) (bypassHitOnLoad allowReserved : Bool) (hc : c.accepted = true) :
    AllocSpec (c.params blockIdHasher shardHasher bypassHitOnLoad) allowReserved ↔
      allowReserved = true ∨ c.loadExclusiveBufferNumber.toNat < c.bufferNumber.toNat := by
  constructor
  · intro hspec
    cases allowReserved with
    | true => exact .inl rfl
    | false =>
      by_contra hnot
      refine not_allocSpec ?_ hspec
      show c.bufferNumber.toNat ≤ c.loadExclusiveBufferNumber.toNat
      omega
  · intro h
    refine allocSpec_of_reserved ?_ h
    show 0 < c.bufferNumber.toNat
    unfold BufferConfig.accepted at hc
    simp only [Bool.and_eq_true, Bool.not_eq_true', Bool.or_eq_false_iff, decide_eq_false_iff_not] at hc
    have hmany := hc.2.1
    rw [UInt64.lt_iff_toNat_lt] at hmany
    have hval : (1024 : UInt64).toNat = 1024 := rfl
    omega

/-- `1024` shards of room, and a reservation of `2 ^ 63` nodes (`-2 ^ 63` in the configuration). -/
def wrappedReservation : BufferConfig := ⟨4096, 4194304, 9223372036854775808⟩

/-- The accepted setup reserves every node, and a dump is given one of them. -/
theorem reservation_wraps : wrappedReservation.accepted = true ∧
    ¬ AllocSpec (wrappedReservation.params (fun b : Nat => b.toUInt64) (fun s => s.toUInt64) false) false :=
  ⟨by decide, not_allocSpec (by decide)⟩

/-- The default reservation of `1024` nodes, in `4096`. -/
theorem alloc_within_reservation_default :
    AllocSpec ((⟨4096, 16777216, 1024⟩ : BufferConfig).params (fun b : Nat => b.toUInt64) (fun s => s.toUInt64) false) false :=
  (alloc_within_reservation ⟨4096, 16777216, 1024⟩ (fun b : Nat => b.toUInt64) (fun s => s.toUInt64) false false
    (by decide)).mpr (.inr (by decide))

end UnifiedCache.Cache
