/-
  UnifiedCache.Cache.BufferCalls — `Get` and `Exist` on the host buffer, over every
  interleaving of any number of threads (see `UnifiedCache.Cache.TransBuffer`).

  Proved, of every reachable state (`index_representation`): the index is represented
  (`Rep`); a `Get` entered while its key is chained returns the chained node and never
  allocates; `Exist` answers whether its key is chained.

  `PointOk` is what a thread knows at its program point. A step that touches a bucket's
  chain needs its lock, so what a thread knows of its own bucket survives the others' steps
  (`OwnStep.inv`).
-/

import UnifiedCache.Cache.BufferIndex

namespace UnifiedCache.Cache

open UnifiedCache.Base

variable {Block : Type} {P : Params Block}

/-! ## What a thread knows where it stands -/

/-- The bucket whose lock a thread holds. -/
def Pc.bucket (P : Params Block) : Pc Block → Option Nat
  | .idle => none
  | .find c _ | .hit c _ _ | .notReady c _ _ | .alloc c | .fetched c _ | .leave c _ _ =>
    some (hashOf P c.blockId c.shardIdx)
  | .exist blockId shardIdx _ | .existLeave blockId shardIdx _ => some (hashOf P blockId shardIdx)

/-- Node `i` is the key's: chained in its bucket and carrying it. -/
def ChainedAt (P : Params Block) (b : Buf Block) (blockId : Block) (shardIdx i : Nat) : Prop :=
  b.hashAt i = some (hashOf P blockId shardIdx) ∧ b.Keyed i blockId shardIdx

def PointOk (P : Params Block) (b : Buf Block) : Pc Block → Prop
  | .idle => True
  | .find c cur => Scanned b (hashOf P c.blockId c.shardIdx) c.blockId c.shardIdx cur
  | .hit c i _ | .notReady c i _ | .leave c i _ => ChainedAt P b c.blockId c.shardIdx i
  | .alloc c | .fetched c _ => NotChained P b c.blockId c.shardIdx
  | .exist blockId shardIdx cur => Scanned b (hashOf P blockId shardIdx) blockId shardIdx cur
  | .existLeave blockId shardIdx exist => exist = true ↔ ∃ i, ChainedAt P b blockId shardIdx i

theorem Scanned.frame {b b' : Buf Block} {k : Nat} {blockId : Block} {shardIdx : Nat} {cur : Option Nat}
    (h : Scanned b k blockId shardIdx cur) (hf : FrameAt k b b') : Scanned b' k blockId shardIdx cur := by
  obtain ⟨a, r, hl, hm, hc, ha⟩ := h
  obtain ⟨hl', hm'⟩ := hf.chain hl hm
  refine ⟨a, r, hl', hm', hc, fun j hj hk => ha j hj ?_⟩
  exact (hf.keyed ((hm j).mp (List.mem_append_left _ hj))).mp hk

theorem FrameAt.chainedAt {b b' : Buf Block} {blockId : Block} {shardIdx i : Nat}
    (hf : FrameAt (hashOf P blockId shardIdx) b b') :
    ChainedAt P b' blockId shardIdx i ↔ ChainedAt P b blockId shardIdx i := by
  unfold ChainedAt
  rw [hf.hash i]
  exact and_congr_right fun hi => hf.keyed hi

/-- What a thread knows of its bucket survives a step that leaves the bucket alone. -/
theorem PointOk.frame {b b' : Buf Block} {pc : Pc Block} (h : PointOk P b pc)
    (hf : ∀ k, pc.bucket P = some k → FrameAt k b b') : PointOk P b' pc := by
  cases pc with
  | idle => trivial
  | find c cur => exact Scanned.frame h (hf _ rfl)
  | hit c i owner => exact (hf _ rfl).chainedAt.mpr h
  | notReady c i owner => exact (hf _ rfl).chainedAt.mpr h
  | alloc c => exact NotChained.frame h (hf _ rfl)
  | fetched c i => exact NotChained.frame h (hf _ rfl)
  | leave c i owner => exact (hf _ rfl).chainedAt.mpr h
  | exist blockId shardIdx cur => exact Scanned.frame h (hf _ rfl)
  | existLeave blockId shardIdx exist =>
    refine Iff.trans h (exists_congr fun i => ?_)
    exact (hf _ rfl).chainedAt.symm

/-! ## The invariant -/

structure IndexInv (P : Params Block) (s : Sys Block) : Prop where
  rep : Rep P s.buf
  locked : ∀ t k, (s.pc t).bucket P = some k → s.bucketLocks k = some t
  point : ∀ t, PointOk P s.buf (s.pc t)

/-- What one step of thread `t` does: it leaves the other threads and the buckets they have
    locked alone, and keeps its own bucket's lock or leaves the call. -/
structure OwnStep (P : Params Block) (t : Nat) (s s' : Sys Block) : Prop where
  rep : Rep P s'.buf
  point : PointOk P s'.buf (s'.pc t)
  others : ∀ t', t' ≠ t → s'.pc t' = s.pc t'
  frame : ∀ k, (s.pc t).bucket P ≠ some k → s.bucketLocks k ≠ none → FrameAt k s.buf s'.buf
  locks : ∀ k, (s.pc t).bucket P ≠ some k → s'.bucketLocks k = s.bucketLocks k
  stays : ∀ k, (s'.pc t).bucket P = some k → (s.pc t).bucket P = some k ∧ s'.bucketLocks k = s.bucketLocks k
  same : (∀ c i, s.pc t ≠ .fetched c i) → SameIndex s.buf s'.buf

theorem OwnStep.inv {t : Nat} {s s' : Sys Block} (h : IndexInv P s) (ho : OwnStep P t s s') : IndexInv P s' := by
  -- another thread's bucket is locked by it, so it is not the bucket of `t`
  have hother : ∀ t' k, t' ≠ t → (s.pc t').bucket P = some k → (s.pc t).bucket P ≠ some k := by
    intro t' k ht hk e
    have h1 := h.locked t' k hk
    rw [h.locked t k e] at h1
    exact ht (Option.some.inj h1).symm
  refine ⟨ho.rep, fun t' k hk => ?_, fun t' => ?_⟩
  · by_cases e : t' = t
    · subst e
      obtain ⟨h1, h2⟩ := ho.stays k hk
      rw [h2]; exact h.locked t' k h1
    · rw [ho.others t' e] at hk
      rw [ho.locks k (hother t' k e hk)]
      exact h.locked t' k hk
  · by_cases e : t' = t
    · subst e; exact ho.point
    · rw [ho.others t' e]
      refine (h.point t').frame fun k hk => ho.frame k (hother t' k e hk) ?_
      rw [h.locked t' k hk]
      exact Option.some_ne_none t'

/-- A step that only moves `t` on inside its call, over an unchanged index. -/
theorem ownStep_of_same {t : Nat} {s s' : Sys Block} {pc : Pc Block} (h : IndexInv P s) (hb : SameIndex s.buf s'.buf)
    (hpc : s'.pc = Function.update s.pc t pc) (hl : s'.bucketLocks = s.bucketLocks)
    (hk : pc.bucket P = (s.pc t).bucket P) (hp : PointOk P s.buf pc) : OwnStep P t s s' := by
  have ht : s'.pc t = pc := by rw [hpc, Function.update_self]
  refine ⟨hb.rep h.rep, ?_, fun t' e => ?_, fun k _ _ => hb.frame k, fun k _ => by rw [hl], fun k e => ?_,
    fun _ => hb⟩
  · rw [ht]; exact hp.frame fun k _ => hb.frame k
  · rw [hpc, Function.update_of_ne e]
  · rw [ht, hk] at e; exact ⟨e, by rw [hl]⟩

/-- Leaving the call. -/
theorem ownStep_of_leave {t k : Nat} {s s' : Sys Block} (h : IndexInv P s) (hb : s'.buf = s.buf)
    (hpc : s'.pc = Function.update s.pc t .idle) (hk : (s.pc t).bucket P = some k)
    (hl : s'.bucketLocks = Function.update s.bucketLocks k none) : OwnStep P t s s' := by
  have ht : s'.pc t = .idle := by rw [hpc, Function.update_self]
  refine ⟨hb ▸ h.rep, by rw [ht]; trivial, fun t' e => ?_, fun k _ _ => hb ▸ (SameIndex.refl _).frame k, fun k' e => ?_,
    fun k' e => ?_, fun _ => hb ▸ .refl _⟩
  · rw [hpc, Function.update_of_ne e]
  · have hne : k' ≠ k := fun e' => e (e' ▸ hk)
    rw [hl, Function.update_of_ne hne]
  · rw [ht] at e; cases e

/-- Entering a call: the bucket is locked and the chain's head read. -/
theorem enter_inv {t k : Nat} {s s' : Sys Block} {pc : Pc Block} (h : IndexInv P s) (hfree : s.bucketLocks k = none)
    (hk : pc.bucket P = some k) (hp : PointOk P s.buf pc) (hs : s' = (s.lock t k).at_ t pc) : IndexInv P s' := by
  subst hs
  have hne : ∀ t' k', (s.pc t').bucket P = some k' → k' ≠ k := by
    intro t' k' e e'
    have hl := h.locked t' k' e
    rw [e', hfree] at hl
    cases hl
  refine ⟨h.rep, fun t' k' e => ?_, fun t' => ?_⟩
  · by_cases ht : t' = t
    · subst ht
      simp only [Sys.at_, Function.update_self, hk, Option.some.injEq] at e
      simp [Sys.at_, Sys.lock, ← e]
    · simp only [Sys.at_, Sys.lock, Function.update_of_ne ht] at e
      simp only [Sys.at_, Sys.lock, Function.update_of_ne (hne t' k' e)]
      exact h.locked t' k' e
  · by_cases ht : t' = t
    · subst ht; simpa [Sys.at_, Sys.lock] using hp
    · simpa [Sys.at_, Sys.lock, Function.update_of_ne ht] using h.point t'

/-- A step of a live handle: the index and the threads are left alone. -/
theorem handle_inv {s s' : Sys Block} (h : IndexInv P s) (hb : SameIndex s.buf s'.buf) (hpc : s'.pc = s.pc)
    (hl : s'.bucketLocks = s.bucketLocks) : IndexInv P s' := by
  refine ⟨hb.rep h.rep, fun t k e => ?_, fun t => ?_⟩
  · rw [hl]; exact h.locked t k (hpc ▸ e)
  · rw [hpc]; exact (h.point t).frame fun k _ => hb.frame k

theorem init_rep {b : Buf Block} (h : b.IsInit) : Rep P b := by
  refine ⟨fun k => ⟨[], ?_, fun i => ?_⟩, fun i _ => h.prev i, fun i k hi => ?_, fun i j k _ _ hi => ?_⟩
  · unfold Buf.Chain
    rw [h.buckets k]
    exact isList_nil
  · simp [Buf.hashAt, h.hash i]
  · rw [Buf.hashAt, h.hash i] at hi; cases hi
  · rw [Buf.hashAt, h.hash i] at hi; cases hi

/-- Where a `Get` whose key is chained can be. -/
def Pc.finding (c : GetArgs Block) : Pc Block → Prop
  | .find c' _ | .hit c' _ _ | .notReady c' _ _ | .leave c' _ _ => c' = c
  | _ => False

/-- Where an `Exist` can be. -/
def Pc.asking (blockId : Block) (shardIdx : Nat) : Pc Block → Prop
  | .exist blockId' shardIdx' _ | .existLeave blockId' shardIdx' _ => blockId' = blockId ∧ shardIdx' = shardIdx
  | _ => False

theorem Pc.finding.bucket {c : GetArgs Block} {pc : Pc Block} (h : pc.finding c) :
    pc.bucket P = some (hashOf P c.blockId c.shardIdx) ∧ pc ≠ .idle ∧ ∀ c' i, pc ≠ .fetched c' i := by
  cases pc <;> simp_all [Pc.finding, Pc.bucket]

theorem Pc.asking.bucket {blockId : Block} {shardIdx : Nat} {pc : Pc Block} (h : pc.asking blockId shardIdx) :
    pc.bucket P = some (hashOf P blockId shardIdx) ∧ pc ≠ .idle ∧ ∀ c' i, pc ≠ .fetched c' i := by
  cases pc <;> simp_all [Pc.asking, Pc.bucket]

section Steps

variable [DecidableEq Block]

theorem runPc_ownStep {t : Nat} {s s' : Sys Block} (h : IndexInv P s) (hs : s.runPc P t = some s') : OwnStep P t s s' := by
  have hpt := h.point t
  unfold Sys.runPc at hs
  cases hpc : s.pc t with
  | idle => rw [hpc] at hs; cases hs
  | find c cur =>
    rw [hpc] at hs hpt
    cases cur with
    | none =>
      obtain rfl := Option.some.inj hs
      exact ownStep_of_same h (.refl _) rfl rfl (by rw [hpc]; rfl) (Scanned.done hpt)
    | some i =>
      simp only at hs
      by_cases hc : s.buf.carries i c.blockId c.shardIdx = true
      · rw [if_pos hc] at hs
        obtain rfl := Option.some.inj hs
        have hat : ChainedAt P s.buf c.blockId c.shardIdx i := ⟨Scanned.mem hpt, Buf.carries_iff.mp hc⟩
        refine ownStep_of_same h (sameIndex_findHit s.buf i) rfl rfl ?_ ?_
        · rw [hpc]; split <;> rfl
        · split <;> exact hat
      · rw [if_neg hc] at hs
        obtain rfl := Option.some.inj hs
        exact ownStep_of_same h (.refl _) rfl rfl (by rw [hpc]; rfl) (Scanned.next hpt (mt Buf.carries_iff.mpr hc))
  | hit c i owner =>
    rw [hpc] at hs hpt
    obtain rfl := Option.some.inj hs
    refine ownStep_of_same h (.refl _) rfl rfl ?_ ?_
    · rw [hpc]; split <;> rfl
    · split <;> exact hpt
  | notReady c i owner =>
    rw [hpc] at hs hpt
    obtain rfl := Option.some.inj hs
    exact ownStep_of_same h (sameIndex_markNotReady s.buf i) rfl rfl (by rw [hpc]; rfl) hpt
  | alloc c =>
    rw [hpc] at hs hpt
    obtain rfl := Option.some.inj hs
    exact ownStep_of_same h (sameIndex_fetchNode s.buf _) rfl rfl (by rw [hpc]; rfl) hpt
  | fetched c i =>
    rw [hpc] at hs hpt
    simp only at hs
    split at hs
    · next b hb =>
      obtain rfl := Option.some.inj hs
      obtain ⟨hrep, hhash, hkeyed, hframe⟩ := allocAt_spec h.rep hpt hb
      refine ⟨hrep, ?_, fun t' e => Function.update_of_ne e _ _, fun k hk hlock => ?_, fun k _ => rfl, fun k hk => ?_,
        fun hne => absurd hpc (hne c i)⟩
      · simp only [Sys.at_, Function.update_self]
        exact ⟨hhash, hkeyed⟩
      · refine hframe k (fun e => hk (by rw [hpc, e]; rfl)) ?_
        simpa [Sys.bucketTryLock] using hlock
      · simp only [Sys.at_, Function.update_self] at hk
        rw [hpc]
        exact ⟨hk, rfl⟩
    · obtain rfl := Option.some.inj hs
      exact ownStep_of_same h (.refl _) rfl rfl (by rw [hpc]; rfl) hpt
  | leave c i owner =>
    rw [hpc] at hs
    obtain rfl := Option.some.inj hs
    exact ownStep_of_leave h rfl rfl (by rw [hpc]; rfl) rfl
  | exist blockId shardIdx cur =>
    rw [hpc] at hs hpt
    cases cur with
    | none =>
      obtain rfl := Option.some.inj hs
      refine ownStep_of_same h (.refl _) rfl rfl (by rw [hpc]; rfl) ?_
      have hnot : NotChained P s.buf blockId shardIdx := Scanned.done hpt
      simp only [PointOk, Bool.false_eq_true, false_iff, not_exists]
      exact fun i hi => hnot i hi.1 hi.2
    | some i =>
      simp only at hs
      by_cases hc : s.buf.carries i blockId shardIdx = true
      · rw [if_pos hc] at hs
        obtain rfl := Option.some.inj hs
        refine ownStep_of_same h (.refl _) rfl rfl (by rw [hpc]; rfl) ?_
        exact iff_of_true rfl ⟨i, Scanned.mem hpt, Buf.carries_iff.mp hc⟩
      · rw [if_neg hc] at hs
        obtain rfl := Option.some.inj hs
        exact ownStep_of_same h (.refl _) rfl rfl (by rw [hpc]; rfl) (Scanned.next hpt (mt Buf.carries_iff.mpr hc))
  | existLeave blockId shardIdx exist =>
    rw [hpc] at hs
    obtain rfl := Option.some.inj hs
    exact ownStep_of_leave h rfl rfl (by rw [hpc]; rfl) rfl

/-- Entering a call, a step inside one, or a step of a live handle. -/
theorem step_cases {s s' : Sys Block} {a : Act Block} (hs : s.step P a = some s') :
    (∃ t k pc, s.pc t = .idle ∧ s.bucketLocks k = none ∧ pc.bucket P = some k ∧
      (Rep P s.buf → PointOk P s.buf pc) ∧ s' = (s.lock t k).at_ t pc) ∨
    (∃ t, a = .run t ∧ s.runPc P t = some s') ∨
    (SameIndex s.buf s'.buf ∧ s'.pc = s.pc ∧ s'.bucketLocks = s.bucketLocks) := by
  have hidle : ∀ t, s.isIdle t = true → s.pc t = .idle := by
    intro t h
    unfold Sys.isIdle at h
    split at h
    · assumption
    · cases h
  cases a with
  | get t c =>
    simp only [Sys.step, Option.ite_none_right_eq_some, Option.some.injEq] at hs
    obtain ⟨⟨hi, hfree⟩, rfl⟩ := hs
    exact .inl ⟨t, _, .find c _, hidle t hi, hfree, rfl, fun hr => hr.scan_start _ _ _, rfl⟩
  | callExist t blockId shardIdx =>
    simp only [Sys.step, Option.ite_none_right_eq_some, Option.some.injEq] at hs
    obtain ⟨⟨hi, hfree⟩, rfl⟩ := hs
    exact .inl ⟨t, _, .exist blockId shardIdx _, hidle t hi, hfree, rfl, fun hr => hr.scan_start _ _ _, rfl⟩
  | run t => exact .inr (.inl ⟨t, rfl, hs⟩)
  | copy hd =>
    simp only [Sys.step, Option.ite_none_right_eq_some, Option.some.injEq] at hs
    obtain ⟨-, rfl⟩ := hs
    exact .inr (.inr ⟨sameIndex_acquire _ _, rfl, rfl⟩)
  | drop hd =>
    simp only [Sys.step, Option.ite_none_right_eq_some, Option.some.injEq] at hs
    obtain ⟨-, rfl⟩ := hs
    exact .inr (.inr ⟨sameIndex_release _ _, rfl, rfl⟩)
  | markReady hd =>
    simp only [Sys.step, Option.ite_none_right_eq_some, Option.some.injEq] at hs
    obtain ⟨-, rfl⟩ := hs
    exact .inr (.inr ⟨sameIndex_markReady _ _, rfl, rfl⟩)
  | markFailed hd status =>
    simp only [Sys.step, Option.ite_none_right_eq_some, Option.some.injEq] at hs
    obtain ⟨-, rfl⟩ := hs
    exact .inr (.inr ⟨sameIndex_markFailed _ _ _, rfl, rfl⟩)

theorem step_inv {s s' : Sys Block} {a : Act Block} (h : IndexInv P s) (hs : s.step P a = some s') : IndexInv P s' := by
  rcases step_cases hs with ⟨t, k, pc, _, hfree, hk, hp, rfl⟩ | ⟨t, rfl, hr⟩ | ⟨hb, hpc, hl⟩
  · exact enter_inv h hfree hk (hp h.rep) rfl
  · exact (runPc_ownStep h hr).inv h
  · exact handle_inv h hb hpc hl

theorem reach_indexInv {s : Sys Block} (h : Reach (transBuffer P) Any s) : IndexInv P s := by
  refine h.inv (I := IndexInv P) (fun s₀ hi => ?_) (fun s₀ a s' hI _ hs => step_inv hI hs)
  refine ⟨init_rep hi.buf, fun t k e => ?_, fun t => ?_⟩
  · rw [hi.pc t] at e; cases e
  · rw [hi.pc t]; trivial

/-! ## During one call -/

/-- No step of the run is the return of `t`'s call. -/
def InCall (t : Nat) : Sys Block → Act Block → Prop
  | s, .run t' => t' = t → match s.pc t with
    | .leave .. | .existLeave .. => False
    | _ => True
  | _, _ => True

/-- A step that is not an allocation of `t` leaves its bucket alone. -/
theorem step_frame {t k : Nat} {s s' : Sys Block} {a : Act Block} (h : IndexInv P s) (hs : s.step P a = some s')
    (hk : (s.pc t).bucket P = some k) (hal : ∀ c i, s.pc t ≠ .fetched c i) : FrameAt k s.buf s'.buf := by
  have hlock := h.locked t k hk
  rcases step_cases hs with ⟨t', k', pc, _, _, _, _, rfl⟩ | ⟨t', rfl, hr⟩ | ⟨hb, _, _⟩
  · exact (SameIndex.refl s.buf).frame k
  · by_cases e : t' = t
    · subst e; exact ((runPc_ownStep h hr).same hal).frame k
    · refine (runPc_ownStep h hr).frame k (fun e' => e ?_) (by rw [hlock]; exact Option.some_ne_none t)
      have h1 := h.locked t' k e'
      rw [hlock] at h1
      exact (Option.some.inj h1).symm
  · exact hb.frame k

/-- A step of another thread leaves `t` where it is. -/
theorem step_pc {t : Nat} {s s' : Sys Block} {a : Act Block} (h : IndexInv P s) (hs : s.step P a = some s')
    (hne : s.pc t ≠ .idle) : s'.pc t = s.pc t ∨ a = .run t ∧ s.runPc P t = some s' := by
  rcases step_cases hs with ⟨t', k', pc, hi, _, _, _, rfl⟩ | ⟨t', rfl, hr⟩ | ⟨_, hpc, _⟩
  · have e : t ≠ t' := fun e => hne (e ▸ hi)
    exact .inl (Function.update_of_ne e _ _)
  · by_cases e : t = t'
    · subst e; exact .inr ⟨rfl, hr⟩
    · exact .inl ((runPc_ownStep h hr).others t e)
  · exact .inl (by rw [hpc])

theorem runPc_finding {t : Nat} {s s' : Sys Block} {c : GetArgs Block} {i : Nat} (h : IndexInv P s)
    (hs : s.runPc P t = some s') (hf : (s.pc t).finding c) (hin : InCall t s (.run t))
    (hc : ChainedAt P s.buf c.blockId c.shardIdx i) : (s'.pc t).finding c := by
  have hpt := h.point t
  unfold Sys.runPc at hs
  cases hpc : s.pc t with
  | find c' cur =>
    rw [hpc] at hs hpt hf
    obtain rfl : c' = c := hf
    cases cur with
    | none =>
      -- the end of the chain is reached only when no node carries the key
      exact (Scanned.done (P := P) hpt i hc.1 hc.2).elim
    | some j =>
      simp only at hs
      split at hs
      · obtain rfl := Option.some.inj hs
        simp only [Sys.at_, Function.update_self]
        split <;> rfl
      · obtain rfl := Option.some.inj hs
        simp [Sys.at_, Pc.finding]
  | hit c' j owner =>
    rw [hpc] at hs hf
    obtain rfl : c' = c := hf
    obtain rfl := Option.some.inj hs
    simp only [Sys.at_, Function.update_self]
    split <;> rfl
  | notReady c' j owner =>
    rw [hpc] at hs hf
    obtain rfl : c' = c := hf
    obtain rfl := Option.some.inj hs
    simp [Sys.at_, Pc.finding]
  | leave c' j owner => simp [InCall, hpc] at hin
  | idle => rw [hpc] at hf; exact hf.elim
  | alloc c' => rw [hpc] at hf; exact hf.elim
  | fetched c' j => rw [hpc] at hf; exact hf.elim
  | exist b sh cur => rw [hpc] at hf; exact hf.elim
  | existLeave b sh e => rw [hpc] at hf; exact hf.elim

theorem runPc_asking {t : Nat} {s s' : Sys Block} {blockId : Block} {shardIdx : Nat} (hs : s.runPc P t = some s')
    (hf : (s.pc t).asking blockId shardIdx) (hin : InCall t s (.run t)) : (s'.pc t).asking blockId shardIdx := by
  unfold Sys.runPc at hs
  cases hpc : s.pc t with
  | exist b sh cur =>
    rw [hpc] at hs hf
    obtain ⟨rfl, rfl⟩ := hf
    cases cur with
    | none =>
      obtain rfl := Option.some.inj hs
      simp [Sys.at_, Pc.asking]
    | some j =>
      simp only at hs
      split at hs <;> obtain rfl := Option.some.inj hs <;> simp [Sys.at_, Pc.asking]
  | existLeave b sh e => simp [InCall, hpc] at hin
  | idle => rw [hpc] at hf; exact hf.elim
  | find c cur => rw [hpc] at hf; exact hf.elim
  | hit c j owner => rw [hpc] at hf; exact hf.elim
  | notReady c j owner => rw [hpc] at hf; exact hf.elim
  | alloc c => rw [hpc] at hf; exact hf.elim
  | fetched c j => rw [hpc] at hf; exact hf.elim
  | leave c j owner => rw [hpc] at hf; exact hf.elim

/-- A `Get` whose key is chained stays on the way to the chained node until it returns. -/
theorem get_run {t : Nat} {s s' : Sys Block} {c : GetArgs Block} {i : Nat} (h : Reach (transBuffer P) Any s)
    (hf : (s.pc t).finding c) (hc : ChainedAt P s.buf c.blockId c.shardIdx i)
    (hr : Reach ((transBuffer P).startAt s) (InCall t) s') :
    (s'.pc t).finding c ∧ ChainedAt P s'.buf c.blockId c.shardIdx i := by
  refine hr.inv_with (J := IndexInv P) (I := fun s' => (s'.pc t).finding c ∧ ChainedAt P s'.buf c.blockId c.shardIdx i)
    (fun s₁ h₁ => reach_indexInv (h.startAt h₁)) (fun s₁ e => ?_) ?_
  · obtain rfl : s₁ = s := e
    exact ⟨hf, hc⟩
  intro s₁ a s₂ hI hfc hin hs
  obtain ⟨hk, hidle, hal⟩ := hfc.1.bucket (P := P)
  refine ⟨?_, (step_frame hI hs hk hal).chainedAt.mpr hfc.2⟩
  rcases step_pc hI hs hidle with e | ⟨rfl, hrun⟩
  · rw [e]; exact hfc.1
  · exact runPc_finding hI hrun hfc.1 hin hfc.2

/-- While an `Exist` is under way its key is neither chained nor unchained. -/
theorem exist_run {t : Nat} {s s' : Sys Block} {blockId : Block} {shardIdx : Nat} (h : Reach (transBuffer P) Any s)
    (hf : (s.pc t).asking blockId shardIdx) (hr : Reach ((transBuffer P).startAt s) (InCall t) s') :
    (s'.pc t).asking blockId shardIdx ∧
      ∀ i, ChainedAt P s'.buf blockId shardIdx i ↔ ChainedAt P s.buf blockId shardIdx i := by
  refine hr.inv_with (J := IndexInv P) (I := fun s' => (s'.pc t).asking blockId shardIdx ∧
    ∀ i, ChainedAt P s'.buf blockId shardIdx i ↔ ChainedAt P s.buf blockId shardIdx i)
    (fun s₁ h₁ => reach_indexInv (h.startAt h₁)) (fun s₁ e => ?_) ?_
  · obtain rfl : s₁ = s := e
    exact ⟨hf, fun _ => Iff.rfl⟩
  intro s₁ a s₂ hI hfc hin hs
  obtain ⟨hk, hidle, hal⟩ := hfc.1.bucket (P := P)
  refine ⟨?_, fun i => (step_frame hI hs hk hal).chainedAt.trans (hfc.2 i)⟩
  rcases step_pc hI hs hidle with e | ⟨rfl, hrun⟩
  · rw [e]; exact hfc.1
  · exact runPc_asking hrun hfc.1 hin

/-! ## A call ends -/

/-- The steps of `t` alone. -/
abbrev runs (P : Params Block) (s : Sys Block) (t n : Nat) : Option (Sys Block) :=
  replay (transBuffer P) s (List.replicate n (.run t))

theorem runs_succ {s s' : Sys Block} {t n : Nat} (h : s.runPc P t = some s') : runs P s t (n + 1) = runs P s' t n := by
  simp [runs, List.replicate_succ, replay, transBuffer, Sys.step, h]

theorem runs_zero {s : Sys Block} {t : Nat} : runs P s t 0 = some s := rfl

theorem leave_ends {s : Sys Block} {t i : Nat} {c : GetArgs Block} (owner : Bool) (h : s.pc t = .leave c i owner) :
    ∃ n s' owner, runs P s t n = some s' ∧ s'.pc t = .leave c i owner := ⟨0, s, owner, rfl, h⟩

theorem notReady_ends {s : Sys Block} {t i : Nat} {c : GetArgs Block} (owner : Bool) (h : s.pc t = .notReady c i owner) :
    ∃ n s' owner, runs P s t n = some s' ∧ s'.pc t = .leave c i owner := by
  refine ⟨1, _, owner, runs_succ (by rw [Sys.runPc, h]), ?_⟩
  simp [Sys.at_]

theorem hit_ends {s : Sys Block} {t i : Nat} {c : GetArgs Block} (owner : Bool) (h : s.pc t = .hit c i owner) :
    ∃ n s' owner, runs P s t n = some s' ∧ s'.pc t = .leave c i owner := by
  have hrun : s.runPc P t = some (s.at_ t (if s.buf.ready i then .notReady c i owner else .leave c i owner)) := by
    simp [Sys.runPc, h]
  obtain ⟨n, s', o, hn, hs'⟩ : ∃ n s' owner',
      runs P (s.at_ t (if s.buf.ready i then .notReady c i owner else .leave c i owner)) t n = some s' ∧
        s'.pc t = .leave c i owner' := by
    by_cases hrdy : s.buf.ready i = true
    · exact notReady_ends owner (by simp [Sys.at_, hrdy])
    · exact leave_ends owner (by simp [Sys.at_, hrdy])
  exact ⟨n + 1, s', o, (runs_succ hrun).trans hn, hs'⟩

theorem find_hit_ends {s : Sys Block} {t i : Nat} {c : GetArgs Block} (hpc : s.pc t = .find c (some i))
    (hc : s.buf.carries i c.blockId c.shardIdx = true) :
    ∃ n s' owner, runs P s t n = some s' ∧ s'.pc t = .leave c i owner := by
  have hrun : s.runPc P t = some ({ s with buf := (s.buf.findHit i).1 }.at_ t
      (if P.bypassHitOnLoad && c.isLoad && (s.buf.findHit i).2 then .hit c i (s.buf.findHit i).2
        else .leave c i (s.buf.findHit i).2)) := by
    simp [Sys.runPc, hpc, hc]
  obtain ⟨n, s', o, hn, hs'⟩ : ∃ n s' owner', runs P ({ s with buf := (s.buf.findHit i).1 }.at_ t
      (if P.bypassHitOnLoad && c.isLoad && (s.buf.findHit i).2 then .hit c i (s.buf.findHit i).2
        else .leave c i (s.buf.findHit i).2)) t n = some s' ∧ s'.pc t = .leave c i owner' := by
    by_cases hb : (P.bypassHitOnLoad && c.isLoad && (s.buf.findHit i).2) = true
    · exact hit_ends (s.buf.findHit i).2 (by rw [if_pos hb]; simp [Sys.at_])
    · exact leave_ends (s.buf.findHit i).2 (by rw [if_neg hb]; simp [Sys.at_])
  exact ⟨n + 1, s', o, (runs_succ hrun).trans hn, hs'⟩

/-- A search ends at the key's node, by induction on the rest of the chain. -/
theorem find_ends {t i : Nat} {c : GetArgs Block} (r : List Nat) : ∀ {s : Sys Block} {a : List Nat},
    s.pc t = .find c r.head? → s.buf.Chain (hashOf P c.blockId c.shardIdx) (a ++ r) → i ∈ r →
    (∀ j ∈ r, s.buf.carries j c.blockId c.shardIdx = true → j = i) →
    s.buf.carries i c.blockId c.shardIdx = true →
    ∃ n s' owner, runs P s t n = some s' ∧ s'.pc t = .leave c i owner := by
  induction r with
  | nil => intro s a _ _ hi; cases hi
  | cons j r ih =>
    intro s a hpc hl hi huniq hc
    by_cases hj : s.buf.carries j c.blockId c.shardIdx = true
    · obtain rfl := huniq j (by simp) hj
      exact find_hit_ends hpc hj
    · have hir : i ∈ r := by
        rcases List.mem_cons.mp hi with rfl | h
        · exact absurd hc hj
        · exact h
      have hnext : (s.buf.metaAt j).next = r.head? := hl.split.2.2.1
      have hrun : s.runPc P t = some (s.at_ t (.find c r.head?)) := by
        rw [← hnext]
        simp [Sys.runPc, hpc, hj]
      obtain ⟨n, s', o, hn, hs'⟩ := ih (s := s.at_ t (.find c r.head?)) (a := a ++ [j]) (by simp [Sys.at_])
        (by simpa [Sys.at_] using hl) hir (fun j' hj' => huniq j' (List.mem_cons_of_mem _ hj')) hc
      exact ⟨n + 1, s', o, (runs_succ hrun).trans hn, hs'⟩

theorem get_ends {s : Sys Block} {t i : Nat} {c : GetArgs Block} {cur : Option Nat} (h : IndexInv P s)
    (hpc : s.pc t = .find c cur) (hc : ChainedAt P s.buf c.blockId c.shardIdx i) :
    ∃ n s' owner, runs P s t n = some s' ∧ s'.pc t = .leave c i owner := by
  have hpt := h.point t
  rw [hpc] at hpt
  obtain ⟨a, r, hl, hm, rfl, ha⟩ := hpt
  refine find_ends r hpc hl ?_ (fun j hj hcj => ?_) (Buf.carries_iff.mpr hc.2)
  · rcases List.mem_append.mp ((hm i).mpr hc.1) with hi | hi
    · exact (ha i hi hc.2).elim
    · exact hi
  · exact h.rep.uniq j i _ _ _ ((hm j).mp (List.mem_append_right _ hj)) hc.1 (Buf.carries_iff.mp hcj) hc.2

theorem exist_ends {t : Nat} {blockId : Block} {shardIdx : Nat} (r : List Nat) : ∀ {s : Sys Block} {a : List Nat},
    s.pc t = .exist blockId shardIdx r.head? → s.buf.Chain (hashOf P blockId shardIdx) (a ++ r) →
    ∃ n s' answer, runs P s t n = some s' ∧ s'.pc t = .existLeave blockId shardIdx answer := by
  induction r with
  | nil =>
    intro s a hpc _
    refine ⟨1, _, false, runs_succ (by rw [Sys.runPc, hpc]; rfl), ?_⟩
    simp [Sys.at_]
  | cons j r ih =>
    intro s a hpc hl
    by_cases hj : s.buf.carries j blockId shardIdx = true
    · have hrun : s.runPc P t = some (s.at_ t (.existLeave blockId shardIdx true)) := by simp [Sys.runPc, hpc, hj]
      refine ⟨1, _, true, runs_succ hrun, ?_⟩
      simp [Sys.at_]
    · have hnext : (s.buf.metaAt j).next = r.head? := hl.split.2.2.1
      have hrun : s.runPc P t = some (s.at_ t (.exist blockId shardIdx r.head?)) := by
        rw [← hnext]
        simp [Sys.runPc, hpc, hj]
      obtain ⟨n, s', o, hn, hs'⟩ := ih (s := s.at_ t (.exist blockId shardIdx r.head?)) (a := a ++ [j])
        (by simp [Sys.at_]) (by simpa [Sys.at_] using hl)
      exact ⟨n + 1, s', o, (runs_succ hrun).trans hn, hs'⟩

/-! ## The index, over every run -/

/-- Every bucket's chain is a finite doubly linked list of exactly the nodes recorded for it,
    each once; a chained node's key hashes to its chain, and chained nodes have distinct keys.
    A `Get` whose key is chained at node `i` reaches its return with its own steps alone,
    and in every interleaving returns `i`; `Exist` likewise returns, and answers whether the
    key is chained. -/
theorem index_representation {s : Sys Block} (h : Reach (transBuffer P) Any s) :
    (∀ k, ∃ l, s.buf.Chain k l ∧ ∀ i, i ∈ l ↔ s.buf.hashAt i = some k) ∧
    (∀ k i, s.buf.buckets k = some i → s.buf.prevOf i = none) ∧
    (∀ i n k, s.buf.hashAt i = some k → s.buf.nextOf i = some n → s.buf.prevOf n = some i) ∧
    (∀ i k, s.buf.hashAt i = some k → hashOf P (s.buf.metaAt i).block (s.buf.metaAt i).shard = k) ∧
    (∀ i j blockId shardIdx, (s.buf.hashAt i).isSome → (s.buf.hashAt j).isSome → s.buf.Keyed i blockId shardIdx →
      s.buf.Keyed j blockId shardIdx → i = j) ∧
    (∀ t c cur i, s.pc t = .find c cur → (s.buf.hashAt i).isSome → s.buf.Keyed i c.blockId c.shardIdx →
      (∃ n s' owner, runs P s t n = some s' ∧ s'.pc t = .leave c i owner) ∧
      ∀ s', Reach ((transBuffer P).startAt s) (InCall t) s' →
        (s'.pc t).finding c ∧ ∀ j owner, s'.pc t = .leave c j owner → j = i) ∧
    (∀ t blockId shardIdx cur, s.pc t = .exist blockId shardIdx cur →
      (∃ n s' answer, runs P s t n = some s' ∧ s'.pc t = .existLeave blockId shardIdx answer) ∧
      ∀ s', Reach ((transBuffer P).startAt s) (InCall t) s' → (s'.pc t).asking blockId shardIdx ∧
        ∀ answer, s'.pc t = .existLeave blockId shardIdx answer →
          (answer = true ↔ ∃ i, (s.buf.hashAt i).isSome ∧ s.buf.Keyed i blockId shardIdx)) := by
  have hI := reach_indexInv h
  have hat : ∀ i blockId shardIdx, (s.buf.hashAt i).isSome ∧ s.buf.Keyed i blockId shardIdx ↔
      ChainedAt P s.buf blockId shardIdx i := by
    intro i blockId shardIdx
    refine and_congr_left fun hk => ?_
    rw [Option.isSome_iff_exists]
    exact ⟨fun ⟨k, hi⟩ => by rw [hi, hI.rep.hash_of_keyed hi hk], fun hi => ⟨_, hi⟩⟩
  refine ⟨hI.rep.chain, fun k i hi => ?_, fun i n k hi hn => ?_, hI.rep.keyed, fun i j b sh hi hj hki hkj => ?_,
    fun t c cur i hpc hi hk => ?_, fun t b sh cur hpc => ?_⟩
  · obtain ⟨l, hl, _⟩ := hI.rep.chain k
    exact hl.prev_head hi
  · obtain ⟨l, hl, hm⟩ := hI.rep.chain k
    exact hl.next_prev ((hm i).mpr hi) hn
  · have h1 := (hat i b sh).mp ⟨hi, hki⟩
    have h2 := (hat j b sh).mp ⟨hj, hkj⟩
    exact hI.rep.uniq i j _ b sh h1.1 h2.1 hki hkj
  · have hc := (hat i _ _).mp ⟨hi, hk⟩
    refine ⟨get_ends hI hpc hc, fun s' hr => ?_⟩
    obtain ⟨hf, hc'⟩ := get_run h (by rw [hpc]; rfl) hc hr
    refine ⟨hf, fun j owner hj => ?_⟩
    have hI' := reach_indexInv (h.startAt hr)
    have hpt := hI'.point t
    rw [hj] at hpt
    exact hI'.rep.uniq j i _ _ _ hpt.1 hc'.1 hpt.2 hc'.2
  · have hpt := hI.point t
    rw [hpc] at hpt
    obtain ⟨a, r, hl, _, rfl, _⟩ := hpt
    refine ⟨exist_ends r hpc hl, fun s' hr => ?_⟩
    obtain ⟨hf, hc⟩ := exist_run h (by rw [hpc]; exact ⟨rfl, rfl⟩) hr
    refine ⟨hf, fun answer hj => ?_⟩
    have hpt := (reach_indexInv (h.startAt hr)).point t
    rw [hj] at hpt
    refine Iff.trans hpt (exists_congr fun i => ?_)
    rw [hc i, hat]

end Steps

/-- A buffer of two nodes for blocks named by numbers. -/
def twoNodes : Params Nat where
  blockIdHasher := fun b => b.toUInt64
  shardHasher := fun s => s.toUInt64
  nNode := 2
  reservedNumber := 0
  bypassHitOnLoad := false

def freshNodes : Sys Nat where
  buf :=
    { buckets := fun _ => none
      freeHead := 0
      metaAt := fun _ => ⟨0, 0, 0, none, none, none, .loading, statusOK⟩ }
  bucketLocks := fun _ => none
  pc := fun _ => .idle
  handles := []

theorem freshNodes_init : freshNodes.IsInit :=
  ⟨⟨fun _ => rfl, rfl, fun _ => rfl, fun _ => rfl, fun _ => rfl, fun _ => rfl, fun _ => rfl, fun _ => rfl⟩,
    fun _ => rfl, fun _ => rfl, rfl⟩

/-- Thread 0 has cached a shard in node 0 and thread 1 enters `Get` for it. -/
theorem index_representation_second_get :
    ∃ s, Reach (transBuffer twoNodes) Any s ∧ s.pc 1 = .find ⟨7, 0, true, true⟩ (some 0) ∧
      ∀ s', Reach ((transBuffer twoNodes).startAt s) (InCall 1) s' → ∀ j owner,
        s'.pc 1 = .leave ⟨7, 0, true, true⟩ j owner → j = 0 := by
  obtain ⟨s, hs, hp⟩ := exists_of_replay (S := transBuffer twoNodes)
    (p := fun s => s.pc 1 = .find ⟨7, 0, true, true⟩ (some 0) && (s.buf.hashAt 0).isSome && s.buf.carries 0 7 0)
    [.get 0 ⟨7, 0, true, true⟩, .run 0, .run 0, .run 0, .run 0, .get 1 ⟨7, 0, true, true⟩] freshNodes_init (by decide)
  simp only [Bool.and_eq_true, decide_eq_true_eq] at hp
  obtain ⟨⟨hpc, hh⟩, hc⟩ := hp
  exact ⟨s, hs, hpc, fun s' hr =>
    ((((index_representation hs).2.2.2.2.2.1 1 _ _ 0 hpc hh (Buf.carries_iff.mp hc)).2 s' hr).2)⟩

end UnifiedCache.Cache
