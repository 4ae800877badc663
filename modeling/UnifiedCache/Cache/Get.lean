/-
  UnifiedCache.Cache.Get — `TransBuffer::Get` as one step (see `UnifiedCache.Cache.TransBuffer`).

  The queues of the cache store see of a `Get` only which node its handle is of and what that
  did to the node. `Buf.get P c i` is a `Get` that returns node `i`: the node its key's bucket
  has for it, or, where there is none, any node that `Alloc` may take. Which free node the
  cursor comes to first is left open, and with no free node there is no step (`Alloc` loops).
  The cursor is not moved.

  `get_spec` is what the queues' proofs use of it.
-/

import UnifiedCache.Cache.Ownership

namespace UnifiedCache.Cache

variable {Block : Type} [DecidableEq Block] (P : Params Block)

namespace Buf

/-- The node of the key's bucket that carries it. -/
def nodeOf (b : Buf Block) (blockId : Block) (shardIdx : Nat) : Option Nat :=
  (List.range P.nNode).find? fun i => decide (b.hashAt i = some (hashOf P blockId shardIdx)) && b.carries i blockId shardIdx

/-- `Get`, when it returns node `i`; with the handle's `Owner()`. -/
def get (b : Buf Block) (c : GetArgs Block) (i : Nat) : Option (Buf Block × Bool) :=
  match b.nodeOf P c.blockId c.shardIdx with
  | some j =>
    let (b', owner) := b.findHit j
    let b' := if P.bypassHitOnLoad && c.isLoad && owner && b'.ready j then b'.markNotReady j else b'
    if i = j then some (b', owner) else none
  | none =>
    if i < P.nNode - (if c.allowReserved then 0 else P.reservedNumber) then
      (b.allocAt (fun _ => true) (hashOf P c.blockId c.shardIdx) i c.blockId c.shardIdx).map (·, true)
    else none

/-- `Exist`. -/
def exist (b : Buf Block) (blockId : Block) (shardIdx : Nat) : Bool := (b.nodeOf P blockId shardIdx).isSome

end Buf

variable {P}

theorem nodeOf_some {b : Buf Block} {blockId : Block} {shardIdx i : Nat} (h : b.nodeOf P blockId shardIdx = some i) :
    ChainedAt P b blockId shardIdx i := by
  have := List.find?_some h
  simp only [Bool.and_eq_true, decide_eq_true_eq] at this
  exact ⟨this.1, Buf.carries_iff.mp this.2⟩

/-- What a `Get` does to the buffer. -/
structure GetSpec (b b' : Buf Block) (c : GetArgs Block) (i : Nat) (owner : Bool) : Prop where
  reference : (b'.metaAt i).reference = (b.metaAt i).reference + 1
  owner : owner = decide ((b.metaAt i).reference = 0)
  keyed : b'.Keyed i c.blockId c.shardIdx
  shared : 0 < (b.metaAt i).reference → b'.getState i = b.getState i ∧ SameKey i b b'
  fresh : (b.metaAt i).reference = 0 → b'.getState i ≠ .failed
  others : ∀ j, j ≠ i → SameNode j b b'

omit [DecidableEq Block] in
theorem markNotReady_node (b : Buf Block) (i : Nat) :
    ((b.markNotReady i).metaAt i).reference = (b.metaAt i).reference ∧ SameKey i b (b.markNotReady i) ∧
      (b.markNotReady i).getState i = .loading := by
  simp [Buf.markNotReady, Buf.setMeta, SameKey, Buf.getState]

theorem get_spec {b b' : Buf Block} {c : GetArgs Block} {i : Nat} {owner : Bool} (h : b.get P c i = some (b', owner)) :
    GetSpec b b' c i owner := by
  unfold Buf.get at h
  split at h
  · next j hj =>
    obtain ⟨href, hkey, hst, howner⟩ := findHit_metaAt b j
    have hkeyed := (nodeOf_some hj).2
    simp only [Option.ite_none_right_eq_some, Option.some.injEq, Prod.mk.injEq] at h
    obtain ⟨rfl, rfl, rfl⟩ := h
    split
    · next hby =>
      -- the bypass: only an owner's hit is reset
      simp only [Bool.and_eq_true, howner, decide_eq_true_eq] at hby
      obtain ⟨⟨-, h0⟩, -⟩ := hby
      obtain ⟨href', hkey', hst'⟩ := markNotReady_node (b.findHit i).1 i
      refine ⟨href'.trans href, howner, ?_, fun hpos => by omega, fun _ => by rw [hst']; decide, fun j hj => ?_⟩
      · exact ⟨(hkey'.1.trans hkey.1).trans hkeyed.1, (hkey'.2.trans hkey.2).trans hkeyed.2⟩
      · exact (SameNode.findHit_ne hj).trans (.of_ne hj)
    · refine ⟨href, howner, ⟨hkey.1.trans hkeyed.1, hkey.2.trans hkeyed.2⟩, fun hpos => ⟨?_, hkey⟩, fun h0 => ?_,
        fun j hj => SameNode.findHit_ne hj⟩
      · rw [hst, if_neg (by omega)]
      · rw [hst]
        split
        · decide
        · next hne => exact fun e => hne ⟨h0, e⟩
  · simp only [Option.ite_none_right_eq_some, Option.map_eq_some_iff, Prod.mk.injEq] at h
    obtain ⟨-, b'', hal, rfl, rfl⟩ := h
    obtain ⟨h0, ⟨h1, hst, hkeyed⟩, hne⟩ := allocAt_node hal
    refine ⟨by rw [h1, h0], by rw [h0]; rfl, hkeyed, fun hpos => by omega, fun _ => ?_, hne⟩
    rw [Buf.getState, hst]
    decide

end UnifiedCache.Cache
