/-
  UnifiedCache.Cache.Ownership — who owns a node of the host buffer, from the moment its
  reference count leaves 0 until it is 0 again (see `UnifiedCache.Cache.TransBuffer`).

  `NodeStep` says once what a step can do to one node; `step_nodeStep` proves it of every step.
  From it:
  - `HandleInv`: a node's reference count is the number of its live handles, plus one while a
    `Get` that has taken it is yet to return, and no handle of it is live while a `Get` that
    took it as its owner is.
  - `ownership_protocol`: while the count is not 0 the key is fixed, exactly one `Get` returns
    as the owner (the one that raised the count), the state changes at most once after that
    return, and goes back to LOADING only inside such a `Get`.
-/

import UnifiedCache.Cache.BufferCalls

namespace UnifiedCache.Cache

open UnifiedCache.Base

variable {Block : Type} {P : Params Block}

/-- The thread is in a `Get` that has taken node `i`. -/
def Pc.holds (i : Nat) : Pc Block → Bool
  | .hit _ j _ | .notReady _ j _ | .leave _ j _ => j = i
  | _ => false

/-- The thread is in a `Get` that has taken node `i` as its owner. -/
def Pc.owns (i : Nat) : Pc Block → Bool
  | .hit _ j owner | .notReady _ j owner | .leave _ j owner => j = i && owner
  | _ => false

namespace Sys

abbrev reference (s : Sys Block) (i : Nat) : Nat := (s.buf.metaAt i).reference

abbrev state (s : Sys Block) (i : Nat) : State := s.buf.getState i

/-- How many handles of node `i` are live. -/
def live (s : Sys Block) (i : Nat) : Nat := s.handles.countP (·.pos = i)

end Sys

theorem Pc.owns_holds {i : Nat} {pc : Pc Block} (h : pc.owns i = true) : pc.holds i = true := by
  cases pc <;> simp_all [Pc.owns, Pc.holds]

/-- Two threads that have taken one node hold its bucket's lock, so they are one. -/
theorem IndexInv.holds_unique {s : Sys Block} (h : IndexInv P s) {i t t' : Nat} (ht : (s.pc t).holds i = true)
    (ht' : (s.pc t').holds i = true) : t = t' := by
  have hlock : ∀ t, (s.pc t).holds i = true → ∃ k, s.buf.hashAt i = some k ∧ s.bucketLocks k = some t := by
    intro t ht
    have hp := h.point t
    have hl := h.locked t
    cases hpc : s.pc t with
    | hit c j owner | notReady c j owner | leave c j owner =>
      rw [hpc] at ht hp hl
      obtain rfl : j = i := of_decide_eq_true ht
      exact ⟨_, hp.1, hl _ rfl⟩
    | _ =>
      rw [hpc] at ht
      cases ht
  obtain ⟨k, hk, hl⟩ := hlock t ht
  obtain ⟨k', hk', hl'⟩ := hlock t' ht'
  obtain rfl : k = k' := Option.some.inj (hk.symm.trans hk')
  exact Option.some.inj (hl.symm.trans hl')

/-! ## What a step does to a node -/

/-- The node's count, key and state are the same. -/
structure SameNode (i : Nat) (b b' : Buf Block) : Prop where
  reference : (b'.metaAt i).reference = (b.metaAt i).reference
  block : (b'.metaAt i).block = (b.metaAt i).block
  shard : (b'.metaAt i).shard = (b.metaAt i).shard
  state : (b'.metaAt i).state = (b.metaAt i).state

namespace SameNode

variable {i : Nat} {b b' b'' : Buf Block}

theorem refl : SameNode i b b := ⟨rfl, rfl, rfl, rfl⟩

theorem trans (h : SameNode i b b') (h' : SameNode i b' b'') : SameNode i b b'' :=
  ⟨h'.reference.trans h.reference, h'.block.trans h.block, h'.shard.trans h.shard, h'.state.trans h.state⟩

theorem of_ne {j : Nat} {m : BufferMetaNode Block} (h : i ≠ j) : SameNode i b (b.setMeta j m) := by
  have e : (b.setMeta j m).metaAt i = b.metaAt i := Function.update_of_ne h _ _
  exact ⟨by rw [e], by rw [e], by rw [e], by rw [e]⟩

theorem setMeta {j : Nat} {m : BufferMetaNode Block} (h1 : m.reference = (b.metaAt j).reference)
    (h2 : m.block = (b.metaAt j).block) (h3 : m.shard = (b.metaAt j).shard) (h4 : m.state = (b.metaAt j).state) :
    SameNode i b (b.setMeta j m) := by
  by_cases e : i = j
  · subst e
    have hm : (b.setMeta i m).metaAt i = m := Function.update_self ..
    exact ⟨by rw [hm, h1], by rw [hm, h2], by rw [hm, h3], by rw [hm, h4]⟩
  · exact of_ne e

theorem setNext {p o : Option Nat} : SameNode i b (b.setNext p o) := by
  cases p with
  | none => exact refl
  | some p => exact setMeta rfl rfl rfl rfl

theorem setPrev {p o : Option Nat} : SameNode i b (b.setPrev p o) := by
  cases p with
  | none => exact refl
  | some p => exact setMeta rfl rfl rfl rfl

theorem setFirst {k : Nat} {o : Option Nat} : SameNode i b (b.setFirst k o) := ⟨rfl, rfl, rfl, rfl⟩

theorem moveTo {k j : Nat} : SameNode i b (b.moveTo k j) := by
  unfold Buf.moveTo
  refine trans ?_ setFirst
  refine trans ?_ (setMeta rfl rfl rfl rfl)
  exact trans setNext setPrev

theorem remove {k j : Nat} : SameNode i b (b.remove k j) := by
  unfold Buf.remove
  refine trans ?_ (setMeta rfl rfl rfl rfl)
  split
  · exact trans (trans setNext setPrev) setFirst
  · exact trans setNext setPrev

end SameNode

theorem claim_node {b b' : Buf Block} {i : Nat} (h : SameNode i b b') (h0 : (b.metaAt i).reference = 0) (blockId : Block)
    (shardIdx : Nat) : ((b'.claim i blockId shardIdx).metaAt i).reference = 1 ∧
      ((b'.claim i blockId shardIdx).metaAt i).state = .loading ∧ (b'.claim i blockId shardIdx).Keyed i blockId shardIdx := by
  unfold Buf.claim Buf.Keyed Buf.setMeta
  simp only [Function.update_self, h.reference, h0, and_self]

/-- A successful section of `Alloc` takes a node whose count is 0. -/
theorem allocAt_node {b b' : Buf Block} {tryLock : Nat → Bool} {k i : Nat} {blockId : Block} {shardIdx : Nat}
    (he : b.allocAt tryLock k i blockId shardIdx = some b') :
    (b.metaAt i).reference = 0 ∧ ((b'.metaAt i).reference = 1 ∧ (b'.metaAt i).state = .loading ∧ b'.Keyed i blockId shardIdx) ∧
      ∀ j, j ≠ i → SameNode j b b' := by
  unfold Buf.allocAt at he
  by_cases h0 : (b.metaAt i).reference > 0
  · rw [if_pos h0] at he
    cases he
  have h0 : (b.metaAt i).reference = 0 := by omega
  refine ⟨h0, ?_⟩
  rw [if_neg (by omega)] at he
  split at he
  · obtain rfl := Option.some.inj he
    exact ⟨claim_node .refl h0 .., fun j hj => .of_ne hj⟩
  · split at he
    · obtain rfl := Option.some.inj he
      exact ⟨claim_node .moveTo h0 .., fun j hj => SameNode.moveTo.trans (.of_ne hj)⟩
    · split at he
      · obtain rfl := Option.some.inj he
        exact ⟨claim_node (SameNode.remove.trans .moveTo) h0 .., fun j hj => (SameNode.remove.trans .moveTo).trans (.of_ne hj)⟩
      · cases he

/-- The node carries the same key. -/
def SameKey (i : Nat) (b b' : Buf Block) : Prop :=
  (b'.metaAt i).block = (b.metaAt i).block ∧ (b'.metaAt i).shard = (b.metaAt i).shard

/-- Nobody but thread `t` moves. -/
def Only (t : Nat) (s s' : Sys Block) : Prop := ∀ t', t' ≠ t → s'.pc t' = s.pc t'

inductive NodeStep (i : Nat) (s : Sys Block) : Act Block → Sys Block → Prop
  /-- The node, its handles and who has taken it stay the same. -/
  | quiet {a : Act Block} {s' : Sys Block} (node : SameNode i s.buf s'.buf) (live : s'.live i = s.live i)
      (holds : ∀ t, (s'.pc t).holds i = (s.pc t).holds i) (owns : ∀ t, (s'.pc t).owns i = (s.pc t).owns i)
      (stays : ∀ t c owner, a = .run t → s.pc t ≠ .leave c i owner) : NodeStep i s a s'
  /-- A `Get` finds the node. -/
  | hit {s' : Sys Block} (t : Nat) (c : GetArgs Block) (only : Only t s s') (before : s.pc t = .find c (some i))
      (found : s.buf.Keyed i c.blockId c.shardIdx) (after : (s'.pc t).holds i = true)
      (owner : (s'.pc t).owns i = decide (s.reference i = 0)) (live : s'.live i = s.live i)
      (reference : s'.reference i = s.reference i + 1) (key : SameKey i s.buf s'.buf)
      (state : s'.state i = if s.reference i = 0 ∧ s.state i = .failed then .loading else s.state i) : NodeStep i s (.run t) s'
  /-- A `Get` allocates the node. -/
  | alloc {s' : Sys Block} (t : Nat) (c : GetArgs Block) (only : Only t s s') (before : s.pc t = .fetched c i)
      (after : (s'.pc t).owns i = true) (live : s'.live i = s.live i) (free : s.reference i = 0) (reference : s'.reference i = 1)
      (key : s'.buf.Keyed i c.blockId c.shardIdx) (state : s'.state i = .loading) : NodeStep i s (.run t) s'
  /-- `MarkNotReady`. -/
  | notReady {s' : Sys Block} (t : Nat) (c : GetArgs Block) (only : Only t s s') (before : s.pc t = .notReady c i true)
      (after : (s'.pc t).owns i = true)
      (live : s'.live i = s.live i) (reference : s'.reference i = s.reference i) (key : SameKey i s.buf s'.buf)
      (state : s'.state i = .loading) : NodeStep i s (.run t) s'
  /-- A `Get` returns its handle of the node. -/
  | ret {s' : Sys Block} (t : Nat) (c : GetArgs Block) (owner : Bool) (only : Only t s s') (before : s.pc t = .leave c i owner)
      (after : s'.pc t = .idle) (node : SameNode i s.buf s'.buf) (live : s'.live i = s.live i + 1) : NodeStep i s (.run t) s'
  | copy {s' : Sys Block} (h : Handle) (pos : h.pos = i) (mem : h ∈ s.handles) (pc : s'.pc = s.pc)
      (live : s'.live i = s.live i + 1)
      (reference : s'.reference i = s.reference i + 1) (key : SameKey i s.buf s'.buf) (state : s'.state i = s.state i) :
      NodeStep i s (.copy h) s'
  | drop {s' : Sys Block} (h : Handle) (pos : h.pos = i) (mem : h ∈ s.handles) (pc : s'.pc = s.pc)
      (live : s'.live i + 1 = s.live i)
      (reference : s'.reference i = s.reference i - 1) (key : SameKey i s.buf s'.buf) (state : s'.state i = s.state i) :
      NodeStep i s (.drop h) s'
  /-- `MarkReady` or `MarkFailed` through a handle. -/
  | mark {a : Act Block} {s' : Sys Block} (run : ∀ t, a ≠ .run t) (h : Handle) (pos : h.pos = i) (mem : h ∈ s.handles)
      (pc : s'.pc = s.pc) (live : s'.live i = s.live i) (reference : s'.reference i = s.reference i)
      (key : SameKey i s.buf s'.buf)
      (was : s.state i = .loading) (state : s'.state i ≠ .loading) : NodeStep i s a s'

/-- Only an owner looks for the hit bypass. -/
def BypassOwner (s : Sys Block) : Prop := ∀ t c i owner, s.pc t = .hit c i owner ∨ s.pc t = .notReady c i owner → owner = true

section Steps

variable {i : Nat} {s s' : Sys Block}

theorem SameNode.key {b b' : Buf Block} (h : SameNode i b b') : SameKey i b b' := ⟨h.block, h.shard⟩

/-- A thread moves on without taking or returning the node. -/
theorem NodeStep.move {a : Act Block} {t : Nat} {pc : Pc Block} (hpc : s'.pc = Function.update s.pc t pc)
    (node : SameNode i s.buf s'.buf) (live : s'.live i = s.live i) (holds : pc.holds i = (s.pc t).holds i)
    (owns : pc.owns i = (s.pc t).owns i) (ha : ∀ t', a = .run t' → t' = t) (stays : ∀ c owner, s.pc t ≠ .leave c i owner) :
    NodeStep i s a s' := by
  refine .quiet node live (fun t' => ?_) (fun t' => ?_) fun t' c owner e => ?_
  · rw [hpc]
    by_cases e : t' = t
    · rw [e, Function.update_self, holds]
    · rw [Function.update_of_ne e]
  · rw [hpc]
    by_cases e : t' = t
    · rw [e, Function.update_self, owns]
    · rw [Function.update_of_ne e]
  · rw [ha t' e]
    exact stays c owner

theorem only_at {t : Nat} {pc : Pc Block} (hpc : s'.pc = Function.update s.pc t pc) : Only t s s' := fun t' e => by
  rw [hpc, Function.update_of_ne e]

theorem SameNode.findHit_ne {b : Buf Block} {j : Nat} (h : i ≠ j) : SameNode i b (b.findHit j).1 := .of_ne h

theorem findHit_metaAt (b : Buf Block) (i : Nat) :
    ((b.findHit i).1.metaAt i).reference = (b.metaAt i).reference + 1 ∧ SameKey i b (b.findHit i).1 ∧
      (b.findHit i).1.getState i =
        (if (b.metaAt i).reference = 0 ∧ b.getState i = .failed then .loading else b.getState i) ∧
      (b.findHit i).2 = decide ((b.metaAt i).reference = 0) := by
  unfold Buf.findHit Buf.getState SameKey Buf.setMeta
  simp only [Function.update_self, decide_eq_true_eq]
  split <;> simp [*]

theorem runPc_find {t j : Nat} {c : GetArgs Block} [DecidableEq Block] (hpc : s.pc t = .find c (some j))
    (hs : s.runPc P t = some s') : NodeStep i s (.run t) s' := by
  simp only [Sys.runPc, hpc] at hs
  split at hs
  · next hc =>
    obtain rfl := Option.some.inj hs
    obtain ⟨href, hkey, hst, howner⟩ := findHit_metaAt s.buf j
    by_cases e : i = j
    · subst e
      refine .hit t c (only_at rfl) hpc (Buf.carries_iff.mp hc) ?_ ?_ rfl href hkey hst
      · simp only [Sys.at_, Function.update_self]
        split <;> simp [Pc.holds]
      · simp only [Sys.at_, Function.update_self]
        split <;> simp [Pc.owns, howner]
    · refine NodeStep.move rfl (.findHit_ne e) rfl ?_ ?_ (fun t' h => (Act.run.inj h).symm) (by rw [hpc]; simp)
      · rw [hpc]
        split <;> simp [Pc.holds, Ne.symm e]
      · rw [hpc]
        split <;> simp [Pc.owns, Ne.symm e]
  · obtain rfl := Option.some.inj hs
    exact NodeStep.move rfl .refl rfl (by rw [hpc]; rfl) (by rw [hpc]; rfl) (fun t' h => (Act.run.inj h).symm)
      (by rw [hpc]; simp)

/-- A step that moves no thread and leaves the node alone. -/
theorem NodeStep.elsewhere {a : Act Block} (ha : ∀ t, a ≠ .run t) (hpc : s'.pc = s.pc) (node : SameNode i s.buf s'.buf)
    (live : s'.live i = s.live i) : NodeStep i s a s' :=
  .quiet node live (fun _ => by rw [hpc]) (fun _ => by rw [hpc]) fun t _ _ e => absurd e (ha t)

theorem live_erase {h : Handle} (hmem : h ∈ s.handles) :
    (s.handles.erase h).countP (·.pos = i) + (if h.pos = i then 1 else 0) = s.live i := by
  rw [Sys.live, (List.perm_cons_erase hmem).countP_eq, List.countP_cons]
  simp only [decide_eq_true_eq]

/-! ## Counting the handles -/

structure HandleInv (i : Nat) (s : Sys Block) : Prop where
  free : (∀ t, (s.pc t).holds i = false) → s.reference i = s.live i
  taken : ∀ t, (s.pc t).holds i = true → s.reference i = s.live i + 1
  alone : ∀ t, (s.pc t).owns i = true → s.live i = 0

theorem HandleInv.live_le (h : HandleInv i s) : s.live i ≤ s.reference i := by
  by_cases hh : ∃ t, (s.pc t).holds i = true
  · obtain ⟨t, ht⟩ := hh
    have := h.taken t ht
    omega
  · simp only [not_exists, Bool.not_eq_true] at hh
    have := h.free hh
    omega

theorem live_pos {h : Handle} (hmem : h ∈ s.handles) : 0 < s.live h.pos := by
  rw [Sys.live, List.countP_pos_iff]
  exact ⟨h, hmem, decide_eq_true rfl⟩

/-- A step that takes the node took it from nobody. -/
theorem Only.untaken {t : Nat} (hI' : IndexInv P s') (ho : Only t s s') (hb : (s.pc t).holds i = false)
    (ha : (s'.pc t).holds i = true) (t' : Nat) : (s.pc t').holds i = false := by
  by_cases e : t' = t
  · rw [e, hb]
  · cases hh : (s.pc t').holds i with
    | false => rfl
    | true => exact absurd (hI'.holds_unique (by rw [ho t' e, hh]) ha) e

theorem NodeStep.handleInv {a : Act Block} (hs : NodeStep i s a s') (hI : IndexInv P s) (hI' : IndexInv P s')
    (h : HandleInv i s) : HandleInv i s' := by
  have hunique : ∀ {t t'}, (s'.pc t).holds i = true → (s'.pc t').owns i = true → t' = t := fun ht ho =>
    hI'.holds_unique (Pc.owns_holds ho) ht
  cases hs with
  | quiet node live holds owns stays =>
    refine ⟨fun hf => ?_, fun t ht => ?_, fun t ht => ?_⟩
    · rw [Sys.reference, node.reference, live]
      exact h.free fun t => (holds t).symm.trans (hf t)
    · rw [Sys.reference, node.reference, live]
      exact h.taken t ((holds t).symm.trans ht)
    · rw [live]
      exact h.alone t ((owns t).symm.trans ht)
  | hit t c only before found after owner live reference key state =>
    have hfree := h.free (only.untaken hI' (by rw [before]; rfl) after)
    refine ⟨fun hf => absurd (hf t) (by simp [after]), fun t' _ => by omega, fun t' ht' => ?_⟩
    obtain rfl := hunique after ht'
    rw [ht'] at owner
    have h0 := of_decide_eq_true owner.symm
    omega
  | alloc t c only before after live free reference key state =>
    have hfree := h.free (only.untaken hI' (by rw [before]; rfl) (Pc.owns_holds after))
    refine ⟨fun hf => absurd (hf t) (by simp [Pc.owns_holds after]), fun t' _ => by omega, fun t' _ => by omega⟩
  | notReady t c only before after live reference key state =>
    have htaken := h.taken t (by simp [before, Pc.holds])
    have halone := h.alone t (by simp [before, Pc.owns])
    exact ⟨fun hf => absurd (hf t) (by simp [Pc.owns_holds after]), fun t' _ => by omega, fun t' _ => by omega⟩
  | ret t c owner only before after node live =>
    have hht : (s.pc t).holds i = true := by simp [before, Pc.holds]
    have htaken := h.taken t hht
    have hnone : ∀ t', (s'.pc t').holds i = false := by
      intro t'
      by_cases e : t' = t
      · rw [e, after]
        rfl
      · cases hh : (s'.pc t').holds i with
        | false => rfl
        | true => exact absurd (hI.holds_unique (by rw [← only t' e, hh]) hht) e
    refine ⟨fun _ => ?_, fun t' ht' => absurd ht' (by simp [hnone t']),
      fun t' ht' => absurd (Pc.owns_holds ht') (by simp [hnone t'])⟩
    rw [Sys.reference, node.reference, live]
    exact htaken
  | copy hd pos mem pc live reference key state =>
    subst pos
    have hpos := live_pos mem
    refine ⟨fun hf => ?_, fun t ht => ?_, fun t ht => ?_⟩
    · have := h.free (by rwa [pc] at hf)
      omega
    · have := h.taken t (by rwa [pc] at ht)
      omega
    · have := h.alone t (by rwa [pc] at ht)
      omega
  | drop hd pos mem pc live reference key state =>
    subst pos
    have hpos := live_pos mem
    refine ⟨fun hf => ?_, fun t ht => ?_, fun t ht => ?_⟩
    · have := h.free (by rwa [pc] at hf)
      omega
    · have := h.taken t (by rwa [pc] at ht)
      omega
    · have := h.alone t (by rwa [pc] at ht)
      omega
  | mark run hd pos mem pc live reference key was state =>
    refine ⟨fun hf => ?_, fun t ht => ?_, fun t ht => ?_⟩
    · have := h.free (by rwa [pc] at hf)
      omega
    · have := h.taken t (by rwa [pc] at ht)
      omega
    · have := h.alone t (by rwa [pc] at ht)
      omega

/-! ## While the count is not 0 -/

/-- The thread whose `Get` returns the node as its owner in a step. -/
def ownerReturn (i : Nat) : Sys Block × Act Block × Sys Block → Option Nat
  | (s, .run t, _) =>
    match s.pc t with
    | .leave _ j owner => if j = i ∧ owner then some t else none
    | _ => none
  | _ => none

/-- The change of the node's state in a step. -/
def stateChange (i : Nat) (x : Sys Block × Act Block × Sys Block) : Option (State × State) :=
  if x.1.state i = x.2.2.state i then none else some (x.1.state i, x.2.2.state i)

/-- The node's count is not 0 after any of the steps. -/
def Held (i : Nat) (l : List (Sys Block × Act Block × Sys Block)) : Prop := ∀ x ∈ l, 0 < x.2.2.reference i

theorem ownerReturn_eq_some {a : Act Block} {t : Nat} (h : ownerReturn i (s, a, s') = some t) :
    a = .run t ∧ ∃ c, s.pc t = .leave c i true := by
  unfold ownerReturn at h
  split at h
  · next s₀ t₀ s₁ heq =>
    obtain ⟨rfl, rfl, rfl⟩ := heq
    split at h
    · next c j owner hpc =>
      simp only [Option.ite_none_right_eq_some, Option.some.injEq] at h
      obtain ⟨⟨rfl, rfl⟩, rfl⟩ := h
      exact ⟨rfl, c, hpc⟩
    · cases h
  · cases h

/-- The step that raises the count is one of a `Get` that now owns the node. -/
theorem NodeStep.raise {a : Act Block} (hs : NodeStep i s a s') (h : HandleInv i s) (h0 : s.reference i = 0)
    (h1 : 0 < s'.reference i) : ∃ t c, a = .run t ∧ (s.pc t = .find c (some i) ∨ s.pc t = .fetched c i) ∧
      s'.buf.Keyed i c.blockId c.shardIdx ∧ (s'.pc t).owns i = true := by
  have hlive := h.live_le
  cases hs with
  | quiet node =>
    have hsame : s'.reference i = s.reference i := node.reference
    omega
  | hit t c only before found after owner live reference key state =>
    refine ⟨t, c, rfl, .inl before, ⟨key.1.trans found.1, key.2.trans found.2⟩, ?_⟩
    rw [owner]
    exact decide_eq_true h0
  | alloc t c only before after live free reference key state => exact ⟨t, c, rfl, .inr before, key, after⟩
  | notReady t c only before after live reference key state => omega
  | ret t c owner only before after node live =>
    have hsame : s'.reference i = s.reference i := node.reference
    omega
  | copy hd pos mem pc live reference key state =>
    subst pos
    have := live_pos mem
    omega
  | drop hd pos mem pc live reference key state => omega
  | mark run hd pos mem pc live reference key was state => omega

theorem NodeStep.sameKey {a : Act Block} (hs : NodeStep i s a s') (h0 : 0 < s.reference i) : SameKey i s.buf s'.buf := by
  cases hs with
  | quiet node => exact node.key
  | alloc t c only before after live free reference key state => omega
  | ret t c owner only before after node live => exact node.key
  | hit t c only before found after owner live reference key state => exact key
  | notReady t c only before after live reference key state => exact key
  | copy hd pos mem pc live reference key state => exact key
  | drop hd pos mem pc live reference key state => exact key
  | mark run hd pos mem pc live reference key was state => exact key

/-- With nobody owning the node, nobody comes to. -/
theorem NodeStep.unowned {a : Act Block} (hs : NodeStep i s a s') (h0 : 0 < s.reference i)
    (hno : ∀ t, (s.pc t).owns i = false) : (∀ t, (s'.pc t).owns i = false) ∧ ownerReturn i (s, a, s') = none := by
  refine ⟨fun t' => ?_, ?_⟩
  · cases hs with
    | quiet node live holds owns => rw [owns, hno]
    | hit t c only before found after owner live reference key state =>
      by_cases e : t' = t
      · rw [e, owner]
        exact decide_eq_false (by omega)
      · rw [only t' e, hno]
    | alloc t c only before after live free reference key state => omega
    | notReady t c only before after live reference key state => exact absurd (hno t) (by simp [before, Pc.owns])
    | ret t c owner only before after node live =>
      by_cases e : t' = t
      · rw [e, after]
        rfl
      · rw [only t' e, hno]
    | copy hd pos mem pc live reference key state => rw [pc, hno]
    | drop hd pos mem pc live reference key state => rw [pc, hno]
    | mark run hd pos mem pc live reference key was state => rw [pc, hno]
  · cases hr : ownerReturn i (s, a, s') with
    | none => rfl
    | some t =>
      obtain ⟨-, c, hpc⟩ := ownerReturn_eq_some hr
      exact absurd (hno t) (by simp [hpc, Pc.owns])

/-- The owner goes on in its `Get`, or returns and leaves nobody owning the node. -/
theorem NodeStep.owned {a : Act Block} (hs : NodeStep i s a s') (hI : IndexInv P s) (h0 : 0 < s.reference i) {t : Nat}
    (ht : (s.pc t).owns i = true) :
    (s'.pc t).owns i = true ∧ ownerReturn i (s, a, s') = none ∨
      (∀ t', (s'.pc t').owns i = false) ∧ ownerReturn i (s, a, s') = some t := by
  -- the owner's return is the only one there can be
  have hret : (∀ t c owner, a = .run t → s.pc t ≠ .leave c i owner) → ownerReturn i (s, a, s') = none := by
    intro hne
    cases hr : ownerReturn i (s, a, s') with
    | none => rfl
    | some t =>
      obtain ⟨ha, c, hpc⟩ := ownerReturn_eq_some hr
      exact absurd hpc (hne t c true ha)
  have hht := Pc.owns_holds ht
  cases hs with
  | quiet node live holds owns stays => exact .inl ⟨by rw [owns, ht], hret stays⟩
  | hit t' c only before found after owner live reference key state =>
    have hne : t ≠ t' := fun e => by simp [e, before, Pc.owns] at ht
    refine .inl ⟨by rw [only t hne, ht], hret fun t'' c' owner' e => ?_⟩
    obtain rfl := Act.run.inj e
    rw [before]
    exact nofun
  | alloc t' c only before after live free reference key state => omega
  | notReady t' c only before after live reference key state =>
    obtain rfl := hI.holds_unique hht (by rw [before]; exact decide_eq_true rfl)
    refine .inl ⟨after, hret fun t'' c' owner' e => ?_⟩
    obtain rfl := Act.run.inj e
    rw [before]
    exact nofun
  | ret t' c owner only before after node live =>
    obtain rfl := hI.holds_unique hht (by rw [before]; exact decide_eq_true rfl)
    obtain rfl : owner = true := by simpa [before, Pc.owns] using ht
    refine .inr ⟨fun t'' => ?_, by simp [ownerReturn, before]⟩
    by_cases e : t'' = t
    · rw [e, after]
      rfl
    · cases ho : (s'.pc t'').owns i with
      | false => rfl
      | true => exact absurd (hI.holds_unique (Pc.owns_holds (by rw [← only t'' e, ho])) hht) e
  | copy hd pos mem pc live reference key state => exact .inl ⟨by rw [pc, ht], hret nofun⟩
  | drop hd pos mem pc live reference key state => exact .inl ⟨by rw [pc, ht], hret nofun⟩
  | mark run hd pos mem pc live reference key was state =>
    exact .inl ⟨by rw [pc, ht], hret fun t _ _ e => absurd e (run t)⟩

/-- A state other than LOADING goes back only where a `Get` raises the count or, having raised it,
    has not returned. -/
theorem NodeStep.back {a : Act Block} (hs : NodeStep i s a s') (hst : s.state i ≠ .loading) (hst' : s'.state i = .loading) :
    ∃ t, a = .run t ∧ (s.reference i = 0 ∧ s'.reference i = 1 ∨ (s.pc t).owns i = true) := by
  cases hs with
  | quiet node => exact absurd (node.state.symm.trans hst') hst
  | hit t c only before found after owner live reference key state =>
    rw [hst'] at state
    split at state
    · exact ⟨t, rfl, .inl ⟨by omega, by omega⟩⟩
    · exact absurd state.symm hst
  | alloc t c only before after live free reference key state => exact ⟨t, rfl, .inl ⟨free, reference⟩⟩
  | notReady t c only before after live reference key state => exact ⟨t, rfl, .inr (by simp [before, Pc.owns])⟩
  | ret t c owner only before after node live => exact absurd (node.state.symm.trans hst') hst
  | copy hd pos mem pc live reference key state => exact absurd (state.symm.trans hst') hst
  | drop hd pos mem pc live reference key state => exact absurd (state.symm.trans hst') hst
  | mark run hd pos mem pc live reference key was state => exact absurd was hst

/-- With nobody owning the node, its state stays, or settles. -/
theorem NodeStep.settles {a : Act Block} (hs : NodeStep i s a s') (h0 : 0 < s.reference i)
    (hno : ∀ t, (s.pc t).owns i = false) :
    s'.state i = s.state i ∨ s.state i = .loading ∧ s'.state i ≠ .loading := by
  by_cases hst : s.state i = .loading
  · by_cases hst' : s'.state i = .loading
    · exact .inl (hst'.trans hst.symm)
    · exact .inr ⟨hst, hst'⟩
  · left
    cases hs with
    | quiet node => exact node.state
    | hit t c only before found after owner live reference key state => rw [state, if_neg (by omega)]
    | alloc t c only before after live free reference key state => omega
    | notReady t c only before after live reference key state => exact absurd (hno t) (by simp [before, Pc.owns])
    | ret t c owner only before after node live => exact node.state
    | copy hd pos mem pc live reference key state => exact state
    | drop hd pos mem pc live reference key state => exact state
    | mark run hd pos mem pc live reference key was state => exact absurd was hst

/-- The count falls to 0 only with a live handle. -/
theorem NodeStep.fall {a : Act Block} (hs : NodeStep i s a s') (h0 : 0 < s.reference i) (h1 : s'.reference i = 0) :
    0 < s.live i := by
  cases hs with
  | drop hd pos mem pc live reference key state => omega
  | quiet node =>
    have hsame : s'.reference i = s.reference i := node.reference
    omega
  | ret t c owner only before after node live =>
    have hsame : s'.reference i = s.reference i := node.reference
    omega
  | hit t c only before found after owner live reference key state => omega
  | alloc t c only before after live free reference key state => omega
  | notReady t c only before after live reference key state => omega
  | copy hd pos mem pc live reference key state => omega
  | mark run hd pos mem pc live reference key was state => omega

/-! ## Every step -/

section Runs

variable [DecidableEq Block]

theorem runPc_nodeStep (hb : BypassOwner s) {t : Nat} (hs : s.runPc P t = some s') : NodeStep i s (.run t) s' := by
  have hself : ∀ t', (Act.run t : Act Block) = .run t' → t' = t := fun t' h => (Act.run.inj h).symm
  cases hpc : s.pc t with
  | idle =>
    simp only [Sys.runPc, hpc] at hs
    cases hs
  | find c cur =>
    cases cur with
    | none =>
      simp only [Sys.runPc, hpc, Option.some.injEq] at hs
      subst hs
      exact NodeStep.move rfl .refl rfl (by rw [hpc]; rfl) (by rw [hpc]; rfl) hself (by rw [hpc]; simp)
    | some j => exact runPc_find hpc hs
  | hit c j owner =>
    simp only [Sys.runPc, hpc, Option.some.injEq] at hs
    subst hs
    refine NodeStep.move rfl .refl rfl ?_ ?_ hself (by rw [hpc]; simp)
    · rw [hpc]
      split <;> rfl
    · rw [hpc]
      split <;> rfl
  | notReady c j owner =>
    simp only [Sys.runPc, hpc, Option.some.injEq] at hs
    subst hs
    obtain rfl := hb t c j owner (.inr hpc)
    by_cases e : i = j
    · subst e
      refine .notReady t c (only_at rfl) hpc (by simp [Sys.at_, Pc.owns]) rfl ?_ ?_ ?_
      · simp [Sys.reference, Sys.at_, Buf.markNotReady, Buf.setMeta]
      · simp [SameKey, Sys.at_, Buf.markNotReady, Buf.setMeta]
      · simp [Sys.state, Sys.at_, Buf.getState, Buf.markNotReady, Buf.setMeta]
    · exact NodeStep.move rfl (.of_ne e) rfl (by rw [hpc]; rfl) (by rw [hpc]; rfl) hself (by rw [hpc]; simp)
  | alloc c =>
    simp only [Sys.runPc, hpc, Option.some.injEq] at hs
    subst hs
    exact NodeStep.move rfl ⟨rfl, rfl, rfl, rfl⟩ rfl (by rw [hpc]; rfl) (by rw [hpc]; rfl) hself (by rw [hpc]; simp)
  | fetched c j =>
    simp only [Sys.runPc, hpc] at hs
    split at hs
    · next b hal =>
      obtain rfl := Option.some.inj hs
      obtain ⟨h0, ⟨h1, hst, hkey⟩, hne⟩ := allocAt_node hal
      by_cases e : i = j
      · subst e
        exact .alloc t c (only_at rfl) hpc (by simp [Sys.at_, Pc.owns]) rfl h0 h1 hkey hst
      · refine NodeStep.move rfl (hne i e) rfl ?_ ?_ hself (by rw [hpc]; simp)
        · rw [hpc]
          exact decide_eq_false (Ne.symm e)
        · rw [hpc]
          simp [Pc.owns, Ne.symm e]
    · obtain rfl := Option.some.inj hs
      exact NodeStep.move rfl .refl rfl (by rw [hpc]; rfl) (by rw [hpc]; rfl) hself (by rw [hpc]; simp)
  | leave c j owner =>
    simp only [Sys.runPc, hpc, Option.some.injEq] at hs
    subst hs
    by_cases e : i = j
    · subst e
      exact .ret t c owner (only_at rfl) hpc (by simp [Sys.at_]) .refl (by simp [Sys.live, Sys.at_, Sys.unlock])
    · refine NodeStep.move rfl .refl ?_ ?_ ?_ hself ?_
      · simp [Sys.live, Sys.at_, Sys.unlock, Ne.symm e]
      · rw [hpc]
        exact (decide_eq_false (Ne.symm e)).symm
      · rw [hpc]
        simp [Pc.owns, Ne.symm e]
      · rw [hpc]
        rintro c' owner' h
        injection h with _ hji _
        exact e hji.symm
  | exist blockId shardIdx cur =>
    cases cur with
    | none =>
      simp only [Sys.runPc, hpc, Option.some.injEq] at hs
      subst hs
      exact NodeStep.move rfl .refl rfl (by rw [hpc]; rfl) (by rw [hpc]; rfl) hself (by rw [hpc]; simp)
    | some j =>
      simp only [Sys.runPc, hpc] at hs
      split at hs <;> obtain rfl := Option.some.inj hs <;>
        exact NodeStep.move rfl .refl rfl (by rw [hpc]; rfl) (by rw [hpc]; rfl) hself (by rw [hpc]; simp)
  | existLeave blockId shardIdx exist =>
    simp only [Sys.runPc, hpc, Option.some.injEq] at hs
    subst hs
    exact NodeStep.move rfl .refl rfl (by rw [hpc]; rfl) (by rw [hpc]; rfl) hself (by rw [hpc]; simp)

theorem step_nodeStep (hb : BypassOwner s) {a : Act Block} (hs : s.step P a = some s') : NodeStep i s a s' := by
  have hidle : ∀ {t}, s.isIdle t = true → s.pc t = .idle := by
    intro t h
    unfold Sys.isIdle at h
    split at h
    · assumption
    · cases h
  cases a with
  | get t c =>
    simp only [Sys.step, Option.ite_none_right_eq_some, Option.some.injEq] at hs
    obtain ⟨⟨hi, -⟩, rfl⟩ := hs
    exact NodeStep.move rfl .refl rfl (by rw [hidle hi]; rfl) (by rw [hidle hi]; rfl) (by simp) (by rw [hidle hi]; simp)
  | callExist t blockId shardIdx =>
    simp only [Sys.step, Option.ite_none_right_eq_some, Option.some.injEq] at hs
    obtain ⟨⟨hi, -⟩, rfl⟩ := hs
    exact NodeStep.move rfl .refl rfl (by rw [hidle hi]; rfl) (by rw [hidle hi]; rfl) (by simp) (by rw [hidle hi]; simp)
  | run t => exact runPc_nodeStep hb hs
  | copy h =>
    simp only [Sys.step, Option.ite_none_right_eq_some, Option.some.injEq] at hs
    obtain ⟨hmem, rfl⟩ := hs
    by_cases e : h.pos = i
    · subst e
      refine .copy h rfl hmem rfl (by simp [Sys.live]) ?_ ?_ ?_
      · simp [Sys.reference, Buf.acquire, Buf.setMeta]
      · simp [SameKey, Buf.acquire, Buf.setMeta]
      · simp [Sys.state, Buf.getState, Buf.acquire, Buf.setMeta]
    · exact .elsewhere (by simp) rfl (.of_ne (Ne.symm e)) (by simp [Sys.live, e])
  | drop h =>
    simp only [Sys.step, Option.ite_none_right_eq_some, Option.some.injEq] at hs
    obtain ⟨hmem, rfl⟩ := hs
    have hlive := live_erase (i := i) hmem
    by_cases e : h.pos = i
    · subst e
      rw [if_pos rfl] at hlive
      refine .drop h rfl hmem rfl hlive ?_ ?_ ?_
      · simp [Sys.reference, Buf.release, Buf.setMeta]
      · simp [SameKey, Buf.release, Buf.setMeta]
      · simp [Sys.state, Buf.getState, Buf.release, Buf.setMeta]
    · rw [if_neg e] at hlive
      exact .elsewhere (by simp) rfl (.of_ne (Ne.symm e)) hlive
  | markReady h =>
    simp only [Sys.step, Option.ite_none_right_eq_some, Option.some.injEq] at hs
    obtain ⟨hmem, rfl⟩ := hs
    unfold Buf.markReady
    split
    · next hst =>
      by_cases e : h.pos = i
      · subst e
        refine .mark (by simp) h rfl hmem rfl rfl ?_ ?_ hst ?_
        · simp [Sys.reference, Buf.setMeta]
        · simp [SameKey, Buf.setMeta]
        · simp [Sys.state, Buf.getState, Buf.setMeta]
      · exact .elsewhere (by simp) rfl (.of_ne (Ne.symm e)) rfl
    · exact .elsewhere (by simp) rfl .refl rfl
  | markFailed h status =>
    simp only [Sys.step, Option.ite_none_right_eq_some, Option.some.injEq] at hs
    obtain ⟨hmem, rfl⟩ := hs
    unfold Buf.markFailed
    split
    · next hst =>
      by_cases e : h.pos = i
      · subst e
        refine .mark (by simp) h rfl hmem rfl rfl ?_ ?_ hst ?_
        · simp [Sys.reference, Buf.setMeta]
        · simp [SameKey, Buf.setMeta]
        · simp [Sys.state, Buf.getState, Buf.setMeta]
      · exact .elsewhere (by simp) rfl (.of_ne (Ne.symm e)) rfl
    · exact .elsewhere (by simp) rfl .refl rfl

theorem runPc_bypassOwner (hb : BypassOwner s) {t : Nat} (hs : s.runPc P t = some s') : BypassOwner s' := by
  have hmove : ∀ {pc : Pc Block}, s'.pc = Function.update s.pc t pc →
      (∀ c i owner, pc = .hit c i owner ∨ pc = .notReady c i owner → owner = true) → BypassOwner s' := by
    intro pc hpc h t' c i owner hp
    rw [hpc] at hp
    by_cases e : t' = t
    · rw [e, Function.update_self] at hp
      exact h c i owner hp
    · rw [Function.update_of_ne e] at hp
      exact hb t' c i owner hp
  cases hpc : s.pc t with
  | find c cur =>
    cases cur with
    | none =>
      simp only [Sys.runPc, hpc, Option.some.injEq] at hs
      subst hs
      exact hmove rfl (by simp)
    | some j =>
      simp only [Sys.runPc, hpc] at hs
      split at hs
      · obtain rfl := Option.some.inj hs
        refine hmove rfl fun c' i owner h => ?_
        split at h
        · next hcond =>
          simp only [Bool.and_eq_true] at hcond
          rcases h with h | h <;> cases h
          exact hcond.2
        · rcases h with h | h <;> cases h
      · obtain rfl := Option.some.inj hs
        exact hmove rfl (by simp)
  | hit c j owner =>
    simp only [Sys.runPc, hpc, Option.some.injEq] at hs
    subst hs
    obtain rfl := hb t c j owner (.inl hpc)
    refine hmove rfl fun c' i owner h => ?_
    split at h <;> rcases h with h | h <;> cases h
    rfl
  | fetched c j =>
    simp only [Sys.runPc, hpc] at hs
    split at hs <;> obtain rfl := Option.some.inj hs <;> exact hmove rfl (by simp)
  | exist blockId shardIdx cur =>
    cases cur with
    | none =>
      simp only [Sys.runPc, hpc, Option.some.injEq] at hs
      subst hs
      exact hmove rfl (by simp)
    | some j =>
      simp only [Sys.runPc, hpc] at hs
      split at hs <;> obtain rfl := Option.some.inj hs <;> exact hmove rfl (by simp)
  | idle =>
    simp only [Sys.runPc, hpc] at hs
    cases hs
  | notReady c j owner | alloc c | leave c j owner | existLeave blockId shardIdx exist =>
    simp only [Sys.runPc, hpc, Option.some.injEq] at hs
    subst hs
    exact hmove rfl (by simp)

theorem step_bypassOwner (hb : BypassOwner s) {a : Act Block} (hs : s.step P a = some s') : BypassOwner s' := by
  have hkeep : s'.pc = s.pc → BypassOwner s' := fun hpc t c i owner h => hb t c i owner (by rwa [hpc] at h)
  have henter : ∀ {t : Nat} {pc : Pc Block}, s'.pc = Function.update s.pc t pc →
      (∀ c i owner, pc ≠ .hit c i owner ∧ pc ≠ .notReady c i owner) → BypassOwner s' := by
    intro t pc hpc hne t' c i owner hp
    rw [hpc] at hp
    by_cases e : t' = t
    · rw [e, Function.update_self] at hp
      rcases hp with hp | hp
      · exact absurd hp (hne c i owner).1
      · exact absurd hp (hne c i owner).2
    · rw [Function.update_of_ne e] at hp
      exact hb t' c i owner hp
  cases a with
  | run t => exact runPc_bypassOwner hb hs
  | get t c | callExist t blockId shardIdx =>
    simp only [Sys.step, Option.ite_none_right_eq_some, Option.some.injEq] at hs
    obtain ⟨-, rfl⟩ := hs
    exact henter rfl fun _ _ _ => ⟨by simp, by simp⟩
  | copy h | drop h | markReady h | markFailed h status =>
    simp only [Sys.step, Option.ite_none_right_eq_some, Option.some.injEq] at hs
    obtain ⟨-, rfl⟩ := hs
    exact hkeep rfl

theorem reach_bypassOwner {s : Sys Block} (h : Reach (transBuffer P) Any s) : BypassOwner s := by
  refine h.inv (I := BypassOwner) (fun s hi t c i owner hp => ?_) fun _ _ _ hb _ hs => step_bypassOwner hb hs
  rw [hi.pc t] at hp
  rcases hp with hp | hp <;> cases hp

theorem reach_handleInv (i : Nat) {s : Sys Block} (h : Reach (transBuffer P) Any s) : HandleInv i s := by
  refine h.inv_with (J := fun s => IndexInv P s ∧ BypassOwner s) (I := HandleInv i)
    (fun s hs => ⟨reach_indexInv hs, reach_bypassOwner hs⟩) (fun s hi => ?_) fun s a s' hJ hh _ hs =>
      (step_nodeStep hJ.2 hs).handleInv hJ.1 (step_inv hJ.1 hs) hh
  have hno : ∀ t, (s.pc t).holds i = false := fun t => by rw [hi.pc t]; rfl
  refine ⟨fun _ => ?_, fun t ht => ?_, fun t ht => ?_⟩
  · rw [Sys.reference, hi.buf.reference, Sys.live, hi.handles]
    rfl
  · rw [hno t] at ht
    cases ht
  · rw [Sys.live, hi.handles]
    rfl

/-! ## Tenures -/

section Tenure

variable {l : List (Act Block)}

theorem Held.cons {a : Act Block} (h : s.step P a = some s') (hl : Held i (steps (transBuffer P) s (a :: l))) :
    0 < s'.reference i ∧ Held i (steps (transBuffer P) s' l) := by
  rw [steps_cons h] at hl
  exact ⟨hl _ (List.mem_cons_self ..), fun x hx => hl x (List.mem_cons_of_mem _ hx)⟩

theorem Held.last (h0 : 0 < s.reference i) (hl : replay (transBuffer P) s l = some s')
    (hh : Held i (steps (transBuffer P) s l)) : 0 < s'.reference i := by
  induction l generalizing s with
  | nil =>
    obtain rfl := Option.some.inj hl
    exact h0
  | cons a l ih =>
    obtain ⟨t, ht, hl⟩ := replay_cons hl
    obtain ⟨h1, hh⟩ := Held.cons ht hh
    exact ih h1 hl hh

/-- The key is fixed while the count is not 0. -/
theorem tenure_key (h : Reach (transBuffer P) Any s) (h0 : 0 < s.reference i) (hl : replay (transBuffer P) s l = some s')
    (hh : Held i (steps (transBuffer P) s l)) : SameKey i s.buf s'.buf := by
  induction l generalizing s with
  | nil =>
    obtain rfl := Option.some.inj hl
    exact ⟨rfl, rfl⟩
  | cons a l ih =>
    obtain ⟨t, ht, hl⟩ := replay_cons hl
    obtain ⟨h1, hh⟩ := Held.cons ht hh
    have hk := (step_nodeStep (reach_bypassOwner h) ht).sameKey h0
    have hk' := ih (.step a h trivial ht) h1 hl hh
    exact ⟨hk'.1.trans hk.1, hk'.2.trans hk.2⟩

/-- Once nobody owns the node: no `Get` returns as its owner, and its state changes at most once. -/
theorem tenure_unowned (h : Reach (transBuffer P) Any s) (h0 : 0 < s.reference i) (hl : replay (transBuffer P) s l = some s')
    (hh : Held i (steps (transBuffer P) s l)) (hno : ∀ t, (s.pc t).owns i = false) :
    (∀ t, (s'.pc t).owns i = false) ∧ (steps (transBuffer P) s l).filterMap (ownerReturn i) = [] ∧
      ((steps (transBuffer P) s l).filterMap (stateChange i) = [] ∨ s.state i = .loading ∧
        ∃ st, st ≠ .loading ∧ (steps (transBuffer P) s l).filterMap (stateChange i) = [(.loading, st)]) := by
  induction l generalizing s with
  | nil =>
    obtain rfl := Option.some.inj hl
    exact ⟨hno, rfl, .inl rfl⟩
  | cons a l ih =>
    obtain ⟨t, ht, hl⟩ := replay_cons hl
    obtain ⟨h1, hh⟩ := Held.cons ht hh
    have hstep : NodeStep i s a t := step_nodeStep (reach_bypassOwner h) ht
    obtain ⟨hno', hret⟩ := hstep.unowned h0 hno
    obtain ⟨hend, hrets, hchange⟩ := ih (.step a h trivial ht) h1 hl hh hno'
    rw [steps_cons ht]
    refine ⟨hend, by rw [List.filterMap_cons, hret, hrets], ?_⟩
    rw [List.filterMap_cons, stateChange]
    simp only
    rcases hstep.settles h0 hno with e | ⟨e, e'⟩
    · rw [if_pos e.symm, ← e]
      exact hchange
    · rw [if_neg (by rw [e]; exact Ne.symm e'), e]
      rcases hchange with hc | ⟨hc, -⟩
      · exact .inr ⟨rfl, t.state i, e', by rw [hc]⟩
      · exact absurd hc e'

/-- The owner's `Get` is the only one to return as the node's owner. -/
theorem tenure_owned (h : Reach (transBuffer P) Any s) (h0 : 0 < s.reference i) (hl : replay (transBuffer P) s l = some s')
    (hh : Held i (steps (transBuffer P) s l)) {t : Nat} (ht : (s.pc t).owns i = true) :
    (s'.pc t).owns i = true ∧ (steps (transBuffer P) s l).filterMap (ownerReturn i) = [] ∨
      (∀ t', (s'.pc t').owns i = false) ∧ (steps (transBuffer P) s l).filterMap (ownerReturn i) = [t] := by
  induction l generalizing s with
  | nil =>
    obtain rfl := Option.some.inj hl
    exact .inl ⟨ht, rfl⟩
  | cons a l ih =>
    obtain ⟨s₁, hs, hl⟩ := replay_cons hl
    obtain ⟨h1, hh⟩ := Held.cons hs hh
    have hr : Reach (transBuffer P) Any s₁ := .step a h trivial hs
    rw [steps_cons hs, List.filterMap_cons]
    rcases (step_nodeStep (reach_bypassOwner h) hs).owned (reach_indexInv h) h0 ht with ⟨ht', hret⟩ | ⟨hno, hret⟩
    · rw [hret]
      exact ih hr h1 hl hh ht'
    · obtain ⟨hend, hrets, -⟩ := tenure_unowned hr h1 hl hh hno
      rw [hret, hrets]
      exact .inr ⟨hend, rfl⟩

/-- A live handle. -/
def Alive (hd : Handle) (s : Sys Block) (_ : Act Block) : Prop := hd ∈ s.handles

/-- A handle that observes READY observes it as long as it lives. -/
theorem ready_stays {hd : Handle} (h : Reach (transBuffer P) Any s) (hst : s.state hd.pos = .ready)
    (hr : Reach ((transBuffer P).startAt s) (Alive hd) s') : s'.state hd.pos = .ready := by
  refine hr.inv_with (J := Reach (transBuffer P) Any) (I := fun s' => s'.state hd.pos = .ready) (fun s₁ h₁ => h.startAt h₁)
    (fun s₁ e => ?_) fun s₁ a s₂ hr₁ hst₁ halive hs => ?_
  · obtain rfl : s₁ = s := e
    exact hst
  have hI := reach_handleInv hd.pos hr₁
  have hpos := live_pos halive
  have hlive := hI.live_le
  have hno : ∀ t, (s₁.pc t).owns hd.pos = false := by
    intro t
    cases ho : (s₁.pc t).owns hd.pos with
    | false => rfl
    | true =>
      have := hI.alone t ho
      omega
  rcases (step_nodeStep (reach_bypassOwner hr₁) hs).settles (by omega) hno with e | ⟨e, -⟩
  · exact e.trans hst₁
  · rw [hst₁] at e
    cases e

end Tenure

/-- Between the step that raises the node's count from 0 and the next one that returns it to 0:
    the raising step is one of a `Get` (of thread `t`) for the key that the node then carries; no
    `Get` returns as the owner before that one does, exactly that one has once it did, as it has
    when the count falls to 0; and from its return on the state changes at most once, from
    LOADING. A live handle that observes READY goes on observing it. READY and FAILED go back to
    LOADING only in a `Get` that raises the count, in that step or before it returns. -/
theorem ownership_protocol (h : Reach (transBuffer P) Any s) (i : Nat) :
    (∀ a s₁ l s', s.step P a = some s₁ → s.reference i = 0 → 0 < s₁.reference i → replay (transBuffer P) s₁ l = some s' →
      Held i (steps (transBuffer P) s₁ l) →
      ∃ t c, a = .run t ∧ (s.pc t = .find c (some i) ∨ s.pc t = .fetched c i) ∧ s'.buf.Keyed i c.blockId c.shardIdx ∧
        (steps (transBuffer P) s₁ l).filterMap (ownerReturn i) = (if (s'.pc t).owns i then [] else [t]) ∧
        (∀ t', (s'.pc t').owns i = true → t' = t) ∧
        (∀ a' s'', s'.step P a' = some s'' → s''.reference i = 0 → (s'.pc t).owns i = false) ∧
        ∀ l₁ l₂ s₂, l = l₁ ++ l₂ → replay (transBuffer P) s₁ l₁ = some s₂ → (s₂.pc t).owns i = false →
          (steps (transBuffer P) s₂ l₂).filterMap (stateChange i) = [] ∨
            ∃ st, st ≠ .loading ∧ (steps (transBuffer P) s₂ l₂).filterMap (stateChange i) = [(.loading, st)]) ∧
    (∀ hd s', hd.pos = i → s.state i = .ready → Reach ((transBuffer P).startAt s) (Alive hd) s' → s'.state i = .ready) ∧
    ∀ a s', s.step P a = some s' → s.state i ≠ .loading → s'.state i = .loading →
      ∃ t, a = .run t ∧ (s.reference i = 0 ∧ s'.reference i = 1 ∨ (s.pc t).owns i = true) := by
  refine ⟨fun a s₁ l s' ha h0 h1 hl hh => ?_, fun hd s' hpos hst hr => ?_, fun a s' hs => ?_⟩
  · have hr : Reach (transBuffer P) Any s₁ := .step a h trivial ha
    have hr' : Reach (transBuffer P) Any s' := replay_reach l hr hl
    obtain ⟨t, c, rfl, hpc, hkey, howns⟩ := (step_nodeStep (reach_bypassOwner h) ha).raise (reach_handleInv i h) h0 h1
    have hsame := tenure_key hr h1 hl hh
    refine ⟨t, c, rfl, hpc, ⟨hsame.1.trans hkey.1, hsame.2.trans hkey.2⟩, ?_, fun t' ht' => ?_, fun a' s'' hs hz => ?_,
      fun l₁ l₂ s₂ hsplit hl₁ hret => ?_⟩
    · rcases tenure_owned hr h1 hl hh howns with ⟨ho, hrets⟩ | ⟨hno, hrets⟩
      · rw [hrets, if_pos ho]
      · rw [hrets, hno t]
        rfl
    · rcases tenure_owned hr h1 hl hh howns with ⟨ho, -⟩ | ⟨hno, -⟩
      · exact (reach_indexInv hr').holds_unique (Pc.owns_holds ht') (Pc.owns_holds ho)
      · rw [hno t'] at ht'
        cases ht'
    · have hlive := (step_nodeStep (reach_bypassOwner hr') hs).fall (Held.last h1 hl hh) hz
      cases ho : (s'.pc t).owns i with
      | false => rfl
      | true =>
        have := (reach_handleInv i hr').alone t ho
        omega
    · subst hsplit
      obtain ⟨s₂', hl₁', hl₂⟩ := replay_append hl
      obtain rfl : s₂ = s₂' := Option.some.inj (hl₁.symm.trans hl₁')
      rw [steps_append hl₁] at hh
      have hh₁ : Held i (steps (transBuffer P) s₁ l₁) := fun x hx => hh x (List.mem_append_left _ hx)
      have hh₂ : Held i (steps (transBuffer P) s₂ l₂) := fun x hx => hh x (List.mem_append_right _ hx)
      rcases tenure_owned hr h1 hl₁ hh₁ howns with ⟨ho, -⟩ | ⟨hno, -⟩
      · rw [ho] at hret
        cases hret
      · have hr₂ : Reach (transBuffer P) Any s₂ := replay_reach l₁ hr hl₁
        obtain ⟨-, -, hc | ⟨-, hc⟩⟩ := tenure_unowned hr₂ (Held.last h1 hl₁ hh₁) hl₂ hh₂ hno
        · exact .inl hc
        · exact .inr hc
  · subst hpos
    exact ready_stays h hst hr
  · exact (step_nodeStep (reach_bypassOwner h) hs).back

end Runs

end Steps

/-- The checks of `ownership_protocol` on a run from the first allocation of node 0. -/
def firstTenure (l : List (Act Nat)) (s : Sys Nat) : Bool :=
  match s.step twoNodes (.run 0) with
  | some s₁ =>
    decide (s.reference 0 = 0) && decide (0 < s₁.reference 0) && (replay (transBuffer twoNodes) s₁ l).isSome &&
      (steps (transBuffer twoNodes) s₁ l).all fun x => decide (0 < x.2.2.reference 0)
  | none => false

/-- Thread 0 allocates node 0, returns, and marks it ready. -/
theorem ownership_protocol_first_get : ∃ s s₁ s', Reach (transBuffer twoNodes) Any s ∧ s.step twoNodes (.run 0) = some s₁ ∧
    replay (transBuffer twoNodes) s₁ [.run 0, .markReady ⟨0, true⟩] = some s' ∧
    ∃ t, (steps (transBuffer twoNodes) s₁ [.run 0, .markReady ⟨0, true⟩]).filterMap (ownerReturn 0) =
      (if (s'.pc t).owns 0 then [] else [t]) := by
  obtain ⟨s, hs, hp⟩ := exists_of_replay (S := transBuffer twoNodes) (p := firstTenure [.run 0, .markReady ⟨0, true⟩])
    [.get 0 ⟨7, 0, true, true⟩, .run 0, .run 0] freshNodes_init (by decide)
  unfold firstTenure at hp
  split at hp
  · next s₁ ha =>
    simp only [Bool.and_eq_true, decide_eq_true_eq, List.all_eq_true, Option.isSome_iff_exists] at hp
    obtain ⟨⟨⟨h0, h1⟩, s', hl⟩, hh⟩ := hp
    obtain ⟨t, c, -, -, -, hret, -⟩ := (ownership_protocol hs 0).1 _ s₁ _ s' ha h0 h1 hl hh
    exact ⟨s, s₁, s', hs, ha, hl, t, hret⟩
  · cases hp

end UnifiedCache.Cache
