/-
  UnifiedCache.Cache.StoreBuffer — what the steps of the cache store do to its buffer, and who of the
  live handles may do it (see `UnifiedCache.Cache.Store`).

  - `storeStep_buf`: a step gets a node, records a failed load at one, or at most marks one READY.
  - `OwnersOnly`: only an owner's shard goes to the backend.
  - `SoleOwner`: a node has one live owner at most, so that no load fails a dump's node
    (`Store.unfailed`).
-/

import UnifiedCache.Cache.StoreItems

namespace UnifiedCache.Cache

open UnifiedCache.Base UnifiedCache.Detail

variable {Block : Type}

/-! ## The nodes' states -/

namespace Store

variable (s : Store Block)

/-- The key that a step asks for, and the node it gets. -/
def asks : StoreLabel Block → Option ((Block × Nat) × Nat)
  | .dispatch p (.get i) =>
    match (s.proc p).dispatcher with
    | .loop t j => ((s.proc p).task t).desc[j]?.map (·, i)
    | _ => none
  | .dump p (.get i) =>
    match (s.proc p).dumper with
    | .loop t j => ((s.proc p).task t).desc[j]?.map (·, i)
    | _ => none
  | _ => none

/-- A step records that the load of item `u` has failed. -/
def Fails (u : Nat) : StoreLabel Block → Prop
  | .dispatch p (.submit ok) => ok = false ∧ (∃ t j, (s.proc p).dispatcher = .got t j u) ∧ (s.item u).owner = true
  | .transfer v (.wait ok) => v = u ∧ ok = false ∧ (s.item u).stage = .waiting
  | _ => False

end Store

/-- The chains stay, and a node's state only becomes READY. -/
structure OnlyReady (b b' : Buf Block) : Prop where
  index : SameIndex b b'
  state : ∀ i, b'.getState i = b.getState i ∨ b'.getState i = .ready

inductive BufStep [DecidableEq Block] (C : Config Block) (s : Store Block) (l : StoreLabel Block) (b : Buf Block) : Prop
  | quiet (only : OnlyReady s.buf b)
  | failed (u : Nat) (fails : s.Fails u l) (index : SameIndex s.buf b)
      (others : ∀ i, i ≠ (s.item u).pos → b.getState i = s.buf.getState i)
      (stays : s.buf.getState (s.item u).pos ≠ .loading → b.getState (s.item u).pos = s.buf.getState (s.item u).pos)
  | get (blockId : Block) (shardIdx i : Nat) (owner isLoad : Bool) (asks : s.asks l = some ((blockId, shardIdx), i))
      (got : s.buf.get C.toParams ⟨blockId, shardIdx, isLoad, isLoad⟩ i = some (b, owner))

section BufStep

variable {s : Store Block} {b b' : Buf Block}

theorem OnlyReady.refl (b : Buf Block) : OnlyReady b b := ⟨.refl b, fun _ => .inl rfl⟩

theorem onlyReady_markReady (b : Buf Block) (i : Nat) : OnlyReady b (b.markReady i) := by
  refine ⟨sameIndex_markReady b i, fun j => ?_⟩
  unfold Buf.markReady
  split
  · by_cases e : j = i
    · exact .inr (by simp [Buf.getState, e])
    · exact .inl (by simp [Buf.getState, e])
  · exact .inl rfl

theorem onlyReady_release (b : Buf Block) (i : Nat) : OnlyReady b (b.release i) := by
  refine ⟨sameIndex_release b i, fun j => .inl ?_⟩
  by_cases e : j = i
  · subst e
    simp [Buf.getState, Buf.release]
  · simp [Buf.getState, Buf.release, e]

variable [DecidableEq Block] {C : Config Block} {s' : Store Block} {l : StoreLabel Block} {u : Nat}

theorem bufStep_markFailed (h : s.Fails u l) (status : StatusCode) : BufStep C s l (s.buf.markFailed (s.item u).pos status) := by
  refine .failed u h (sameIndex_markFailed ..) (fun i hi => ?_) fun hne => ?_
  · unfold Buf.markFailed
    split
    · simp [Buf.getState, hi]
    · rfl
  · unfold Buf.markFailed
    rw [if_neg (show ¬ (s.buf.metaAt (s.item u).pos).state = .loading from hne)]

theorem BufStep.unchanged (h : b = s.buf) : BufStep C s l b := .quiet (h ▸ .refl _)

theorem storeStep_buf (h : storeStep C s l = some s') : BufStep C s l s'.buf := by
  cases l with
  | dispatch p dl =>
    have hc : DispatchCase C s p dl s' := dispatchStep_case h
    cases hc with
    | get t j blockId shardIdx i b owner pc shard spec =>
      simp only [storeStep, dispatchStep, pc, shard, Option.map_eq_some_iff, Prod.exists] at h
      obtain ⟨b₁, owner₁, hg, e⟩ := h
      obtain rfl : b₁ = b := congrArg Store.buf e
      exact .get blockId shardIdx i owner₁ true (by simp [Store.asks, pc, shard]) hg
    | enqueue t j u ok backend pc submitted =>
      refine .unchanged ?_
      unfold Store.enqueue
      simp only
      split <;> rfl
    | refuse t j u pc owner unready =>
      have hf : s.Fails u (.dispatch p (.submit false)) := ⟨rfl, ⟨t, j, pc⟩, owner⟩
      exact bufStep_markFailed hf statusError
    | _ => exact .unchanged rfl
  | dump p dl =>
    have hc : DumpCase C s p dl s' := dumpStep_case h
    cases hc with
    | get t j blockId shardIdx i b owner pc shard spec =>
      simp only [storeStep, dumpStep, pc, shard, Option.map_eq_some_iff, Prod.exists] at h
      obtain ⟨b₁, owner₁, hg, e⟩ := h
      obtain rfl : b₁ = b := congrArg Store.buf e
      exact .get blockId shardIdx i owner₁ false (by simp [Store.asks, pc, shard]) hg
    | sync t ok pc => cases ok <;> exact .unchanged rfl
    | submit t ok pc marked => cases ok <;> exact .unchanged rfl
    | mark t u pc synced => exact .quiet (onlyReady_markReady _ _)
    | _ => exact .unchanged rfl
  | transfer u tl =>
    obtain ⟨-, hc⟩ := transferStep_case h
    cases hc with
    | wait ok stage ended =>
      cases ok with
      | true => exact .quiet (onlyReady_markReady _ _)
      | false =>
        have hf : s.Fails u (.transfer u (.wait false)) := ⟨rfl, rfl, stage⟩
        exact bufStep_markFailed hf statusError
    | flush ok part stage => cases ok <;> exact .unchanged rfl
    | sync ok stage => cases ok <;> exact .unchanged rfl
    | fail stage =>
      refine .unchanged ?_
      unfold Store.failTask
      simp only
      split <;> rfl
    | done stage =>
      refine .unchanged ?_
      unfold Store.countDown
      simp only
      split <;> rfl
    | _ => exact .unchanged rfl
  | release u =>
    cases storeStep_case h
    exact .quiet (onlyReady_release _ _)
  | submit p isLoad desc full | wait p wl | loadOver u | dumpOver p t =>
    cases storeStep_case h
    exact .unchanged rfl

end BufStep

/-! ## Owners -/

/-- Only an owner's shard goes to the backend, or to the dump's copies. -/
def OwnersOnly (s : Store Block) : Prop :=
  ∀ u, u < s.nItem → ((s.item u).stage = .copied ∨ (s.item u).stage = .synced ∨ (s.item u).stage = .dumping) ∨
  (s.item u).backend ≠ .none →
    (s.item u).owner = true

/-- A node's live handles have one owner at most. -/
def SoleOwner (s : Store Block) : Prop :=
  ∀ u v, u < s.nItem → v < s.nItem → (s.item u).owner = true → (s.item v).owner = true → (s.item u).handle ≠ .released →
    (s.item v).handle ≠ .released → (s.item u).pos = (s.item v).pos → u = v

section Owners

variable {C : Config Block} {s s' : Store Block} {b : Buf Block} {l : StoreLabel Block} {u v : Nat} {x : Item}

theorem Move.owner (hi : ((s.item v).stage = .copied ∨ (s.item v).stage = .synced ∨ (s.item v).stage = .dumping) ∨
    (s.item v).backend ≠ .none →
      (s.item v).owner = true) (hx : (x.stage = .copied ∨ x.stage = .synced ∨ x.stage = .dumping) ∨ x.backend ≠ .none)
    (h : Move C s b v l x) : (s.item v).owner = true := by
  cases h with
  | collect p ok backend pc proc stage mode submitted | queue p ok backend pc proc stage mode submitted =>
    obtain ⟨-, howner, -⟩ | ⟨rfl, -⟩ := submitted
    · exact howner
    · exact hi (.inr (hx.resolve_left (by simp)))
  | push p t pc collected first => exact hi (.inr (by simpa [Store.pushItem] using hx))
  | found p ok part pc proc stage owner ready => exact owner
  | copyDump p part pc proc stage owner unready => exact owner
  | refuseDump p part pc proc stage owner unready => exact owner
  | submitDump p t pc proc stage settled => exact hi (.inl (.inr (.inl stage)))
  | syncDump p t pc proc isLoad =>
    simp only at hx
    split at hx
    · next e => exact hi (.inl (.inl e))
    · exact hi hx
  | loadOver isLoad running | dumpOver p t proc task isLoad running => exact hi (.inr (by rw [running]; simp))
  | same | flushed | synced | release => exact hi hx
  | waited ok stage ended settled => exact hi (.inr (Op.asked ended))
  | check stage =>
    refine hi (.inr (hx.resolve_left fun h => ?_))
    simp only at h
    split at h <;> simp at h
  | hold stage mode =>
    refine hi (.inr (hx.resolve_left fun h => ?_))
    simp only at h
    split at h <;> simp at h
  | copy ok part stage mode =>
    refine hi (.inr (hx.resolve_left fun h => ?_))
    cases ok <;> cases hw : (s.item v).waiter <;> simp [hw] at h
  | sync ok h stage handle =>
    refine hi (.inr (hx.resolve_left fun h => ?_))
    cases ok <;> simp at h
  | look stage' stage backend outcome =>
    refine hi (.inr (hx.resolve_left fun h => ?_))
    obtain ⟨-, rfl⟩ | ⟨-, rfl⟩ | ⟨-, rfl⟩ := outcome <;> simp at h
  | _ => exact hi (.inr (hx.resolve_left (by simp [Item.drop])))

theorem StoreCase.ownersOnly (hl : Linked s) (ho : OwnersOnly s) (h : StoreCase C s l s') : OwnersOnly s' := by
  intro u hu hx
  rcases h.old_or_new hu with hu | ⟨rfl, hget⟩
  · rw [(h.kept.fixed hu).owner]
    exact (h.move hl hu).owner (ho u hu) hx
  · cases hget with
    | load p t j blockId shardIdx i owner pc shard spec item got | dump p t j blockId shardIdx i owner pc shard spec item got =>
      rw [item] at hx
      simp [Item.start] at hx

/-- A `Get` makes an owner only of a node that nobody has. -/
theorem StoreCase.soleOwner (hr : RefInv s) (hs : SoleOwner s) (h : StoreCase C s l s') : SoleOwner s' := by
  -- an old handle at the node of a new owner
  have hold : ∀ w, w < s.nItem → Gets C s s' l → (s'.item s.nItem).owner = true → (s'.item w).handle ≠ .released →
      (s'.item w).pos ≠ (s'.item s.nItem).pos := by
    intro w hw hget hnew hlive hpos
    have hin : 0 < (s.buf.metaAt (s'.item w).pos).reference :=
      (hr.pos_iff _).mpr ⟨w, hw, fun e => hlive (h.kept.released hw e), (h.kept.fixed hw).pos.symm⟩
    cases hget with
    | load p t j blockId shardIdx i owner pc shard spec item got | dump p t j blockId shardIdx i owner pc shard spec item got =>
      rw [item] at hnew hpos
      obtain rfl : (s'.item w).pos = i := hpos
      have hzero := spec.owner.symm.trans hnew
      exact absurd (of_decide_eq_true hzero) (Nat.ne_of_gt hin)
  intro u v hu hv hou hov hlu hlv hpos
  rcases h.old_or_new hu with hu' | ⟨rfl, hget⟩
  · rcases h.old_or_new hv with hv' | ⟨rfl, hget⟩
    · have hfu := h.kept.fixed hu'
      have hfv := h.kept.fixed hv'
      exact hs u v hu' hv' (hfu.owner ▸ hou) (hfv.owner ▸ hov) (fun e => hlu (h.kept.released hu' e))
        (fun e => hlv (h.kept.released hv' e))
        (hfu.pos ▸ hfv.pos ▸ hpos)
    · exact absurd hpos (hold u hu' hget hov hlu)
  · rcases h.old_or_new hv with hv' | ⟨rfl, -⟩
    · exact absurd hpos.symm (hold v hv' hget hou hlv)
    · rfl

/-- The item whose failure is recorded is live. -/
theorem Store.Fails.live (hl : Linked s) (hk : Keeps s) (h : s.Fails v l) (hlt : v < s.nItem) :
    (s.item v).handle ≠ .released := by
  have hheld : (s.item v).stage.past = false → (s.item v).handle ≠ .released := fun e => by
    rw [hk v hlt e]
    decide
  cases l with
  | dispatch p dl =>
    cases dl with
    | submit ok =>
      obtain ⟨-, ⟨t, j, hpc⟩, -⟩ := h
      exact hheld (by rw [(hl.got p t j v hpc).2.2.2.2]; rfl)
    | _ => cases h
  | transfer u tl =>
    cases tl with
    | wait ok => exact hheld (by rw [h.2.2]; rfl)
    | _ => cases h
  | _ => cases h

theorem Store.Fails.lt (hl : Linked s) (h : s.Fails v l) (hst : StoreCase C s l s') : v < s.nItem := by
  cases l with
  | dispatch p dl =>
    cases dl with
    | submit ok =>
      obtain ⟨-, ⟨t, j, hpc⟩, -⟩ := h
      exact (hl.got p t j v hpc).1
    | _ => cases h
  | transfer u tl =>
    cases tl with
    | wait ok =>
      obtain ⟨rfl, -⟩ := h
      exact hst.mover_lt u rfl
    | _ => cases h
  | _ => cases h

/-- A load that fails at a node is its owner's. -/
theorem Store.Fails.owner (hl : Linked s) (ho : OwnersOnly s) (h : s.Fails v l) (hst : StoreCase C s l s') :
    (s.item v).owner = true ∧ (s.item v).isLoad = true := by
  have hlt := h.lt hl hst
  cases hst with
  | dispatch p dl _ step =>
    cases dl with
    | submit ok =>
      obtain ⟨-, ⟨t, j, hpc⟩, howner⟩ := h
      exact ⟨howner, hl.isLoad v hlt (by rw [(hl.got p t j v hpc).2.2.2.2]; rfl)⟩
    | _ => cases h
  | transfer u tl _ lt step =>
    cases step with
    | wait ok stage ended =>
      obtain ⟨rfl, -, -⟩ := h
      exact ⟨ho u hlt (.inr (Op.asked ended)), hl.isLoad u hlt (by rw [stage]; rfl)⟩
    | _ => cases h
  | _ => cases h

end Owners

section Reach

variable [DecidableEq Block] {C : Config Block} {ok : Store Block → StoreLabel Block → Prop} {s s' : Store Block}
    {l : StoreLabel Block} {v : Nat}

theorem reach_ownersOnly (h : Reach (cacheStore C) ok s) : OwnersOnly s := by
  refine Reach.inv_with (I := OwnersOnly) (fun _ => reach_linked) (fun s hi u hu => ?_)
    (fun _ _ _ hl hI _ hst => (storeStep_case hst).ownersOnly hl hI) h
  rw [hi.nItem] at hu
  omega

theorem reach_soleOwner (h : Reach (cacheStore C) ok s) : SoleOwner s := by
  refine Reach.inv_with (I := SoleOwner) (fun _ => reach_refInv) (fun s hi u v hu => ?_)
    (fun _ _ _ hr hI _ hst => (storeStep_case hst).soleOwner hr hI) h
  rw [hi.nItem] at hu
  omega

/-- While a dump owns a node, no step makes it FAILED. -/
theorem Store.unfailed (hr : Reach (cacheStore C) Any s) (hst : storeStep C s l = some s') (hv : v < s.nItem)
    (hdump : (s.item v).isLoad = false) (howner : (s.item v).owner = true) (hlive : (s.item v).handle ≠ .released)
    (hstate : s.buf.getState (s.item v).pos ≠ .failed) : s'.buf.getState (s.item v).pos ≠ .failed := by
  have hl := reach_linked hr
  have hc := storeStep_case hst
  cases storeStep_buf hst with
  | quiet only =>
    rcases only.state (s.item v).pos with hsame | hready
    · exact hsame ▸ hstate
    · rw [hready]
      decide
  | failed u fails index others stays =>
    by_cases hpos : (s.item v).pos = (s.item u).pos
    · -- the load would be another owner
      obtain ⟨hou, hload⟩ := fails.owner hl (reach_ownersOnly hr) hc
      have hlt := fails.lt hl hc
      obtain rfl := reach_soleOwner hr u v hlt hv hou howner (fails.live hl (reach_keeps hr) hlt) hlive hpos.symm
      exact absurd (hdump.symm.trans hload) Bool.false_ne_true
    · rw [others _ hpos]
      exact hstate
  | get blockId shardIdx i owner isLoad asks got =>
    have spec := get_spec got
    by_cases hpos : (s.item v).pos = i
    · have hin : 0 < (s.buf.metaAt (s.item v).pos).reference := ((reach_refInv hr).pos_iff _).mpr ⟨v, hv, hlive, rfl⟩
      subst hpos
      rw [(spec.shared hin).1]
      exact hstate
    · exact fun e => hstate ((spec.others _ hpos).state.symm.trans e)

end Reach

end UnifiedCache.Cache
