/-
  UnifiedCache.Gdr.InForce — the regions of the live channels are in force
  (see `UnifiedCache.Gdr.Regions`).

  A release looks for the size that the registry has. So a buffer that is registered again with another
  size leaves its first regions in every channel, for good (`resized_region_stays`). Other orders of
  steps leave one too:
  - a copy makes a region, or a second registration comes, between the pass of `Unregister` (or of a
    device registration that is taken back) and its erasing of the entry;
  - a channel that is being opened has read the entry of the buffer, and `Unregister` makes its pass, or
    the entry gets another size, before the channel is in the passes; or `Open` reads an entry that is
    about to be erased;
  - `Open` erases the entries that it could not register, which the other channels have regions for: a
    later `Unregister` does not find them;
  - a host buffer of no bytes is never in the registry, and the channels make a region for it.
  A copy that takes no lock may hold a region that is released before it posts. A buffer that begins
  inside another one hides it from `Resolve`, and a copy there has a region of its own.
  Without these (`Careful`) no region is stale (`registrations_in_force`).
-/

import UnifiedCache.Gdr.Registered

namespace UnifiedCache.Gdr

open UnifiedCache.Base

/-! ## What keeps the regions in force -/

/-- The thread's call will not leave a region for the buffer behind. -/
def LibPc.admits (c : Nat) (side : Side) (addr len : Nat) : LibPc → Bool
  | .found side' addr' size => decide (side' = side ∧ addr' = addr → len = size)
  | .erasing side' addr' => decide ¬(side' = side ∧ addr' = addr)
  | .rolling addr' size registeredChannels => decide (side = .device ∧ addr' = addr → c ∈ registeredChannels ∧ len = size)
  | _ => true

/-- The regions that a copy holds without a lock. -/
def LibPc.uses : LibPc → List (Side × RegisteredMrRange)
  | .foundOne call dst => [(call.dstSide, dst)]
  | .foundBoth call dst src => [(call.dstSide, dst), (call.srcSide, src)]
  | _ => []

/-- The entries that `Open` has copied from the registry, and is still to register. -/
def LibPc.copied : LibPc → Side → List BufferInfo
  | .openHost _ buffers, .host => buffers
  | .openDevice _ buffers _, .device => buffers
  | _, _ => []

/-- The entries that it could not register. -/
def LibPc.refused : LibPc → List BufferInfo
  | .openDevice _ _ invalidGpuBuffers | .openErase _ invalidGpuBuffers => invalidGpuBuffers
  | _ => []

section Careful

variable {ι : Type} (s : CopyLib ι)

/-- No live channel has a region at the address. -/
def Free (side : Side) (addr : Nat) : Prop := ∀ c, c ∈ s.gChannels → ∀ r, r ∈ s.ranges c side → r.addr ≠ addr

/-- No channel that another thread opens has read the entry of the address. -/
def Unread (t : ι) (side : Side) (addr : Nat) : Prop :=
  ∀ t', t' ≠ t → ∀ c, c ∈ (s.pc t').opening →
    (∀ b, b ∈ (s.pc t').copied side → b.addr ≠ addr) ∧ ∀ r, r ∈ s.ranges c side → r.addr ≠ addr

/-- No copy holds one without a lock. -/
def Unused (side : Side) (addr : Nat) : Prop := ∀ t x, x ∈ (s.pc t).uses → ¬(x.1 = side ∧ x.2.addr = addr)

/-- No call will leave a region for the buffer behind. -/
def Admitted (c : Nat) (side : Side) (addr len : Nat) : Prop := ∀ t, (s.pc t).admits c side addr len = true

/-- The registry has the buffer with this size. -/
def Registered (side : Side) (addr size : Nat) : Prop := (lookupBuffer (s.buffers side) addr).map (·.size) = some size

/-- What a copy under the lock makes is not left behind, and a buffer that contains its range is found. -/
def SlowFits (c : Nat) (side : Side) (addr bytes : Nat) (ok : Bool) : Prop :=
  match resolve (s.buffers side) addr bytes with
  | some b => Makes (s.ranges c side) b.addr b.size ok → Admitted s c side b.addr b.size
  | none => ok = true → ∀ b, b ∈ s.buffers side → rangeContains b.addr b.size addr bytes = false

/-- A pass makes regions of a buffer that the registry has, a failed one takes back all that there are, and no
    pass misses a channel
that is being opened. -/
def CarefulPass (t : ι) (ok : Nat → Bool) : LibPc → Prop
  | .registering side addr size _ =>
    (∀ c, c ∈ s.gChannels → Makes (s.ranges c side) addr size (ok c) → Registered s side addr size ∧
      Admitted s c side addr size) ∧
    (side = .device → s.gChannels.all (fun c => registers s c side addr size (ok c)) = false →
      (∀ c, c ∈ s.gChannels → ∀ r, r ∈ s.ranges c side → r.addr = addr → r.len = size) ∧ Unread s t side addr)
  | .found side addr _ => Unread s t side addr
  | _ => True

/-- `Open` reads no entry that is about to be erased, and an entry that is erased has no region that is left. -/
def CarefulStep (t : ι) (ok ok' : Bool) : LibPc → Prop
  | .erasing side addr => Unused s side addr
  | .rolling addr _ [] => Unused s .device addr
  | .openSnapshot c => ∀ b, b ∈ s.buffers .device → Admitted s c .device b.addr b.size
  | .openErase _ (b :: _) => Free s .device b.addr ∧ Unread s t .device b.addr ∧ Unused s .device b.addr
  | .slow call =>
    SlowFits s call.channel call.dstSide call.dst call.bytes ok ∧
    ((dstMr s call ok).2.isSome = true → SlowFits s call.channel call.srcSide call.src call.bytes ok')
  | _ => True

/-- The step leaves no region behind that is not in force, and takes none from a copy. -/
def Careful : LibLabel ι → Prop
  | .register t side addr size =>
    0 < size → ∀ b, lookupBuffer (s.buffers side) addr = some b → b.size ≠ size → Free s side addr ∧ Unread s t side addr ∧
    Unused s side addr
  | .open _ => ∀ b, b ∈ s.buffers .host → Admitted s s.channels .host b.addr b.size
  | .pass t ok => CarefulPass s t ok (s.pc t)
  | .step t ok ok' => CarefulStep s t ok ok' (s.pc t)
  | _ => True

section Decidable

instance : Fintype Side := ⟨{.host, .device}, fun side => by cases side <;> decide⟩

variable [Fintype ι] [DecidableEq ι]

instance (side : Side) (addr : Nat) : Decidable (Free s side addr) := inferInstanceAs (Decidable (∀ c, c ∈ _ → ∀ r, r ∈ _ → _))

instance (t : ι) (side : Side) (addr : Nat) : Decidable (Unread s t side addr) :=
  inferInstanceAs (Decidable (∀ t' : ι, t' ≠ t → ∀ c, c ∈ _ → (∀ b, b ∈ _ → _) ∧ ∀ r, r ∈ _ → _))

instance (side : Side) (addr : Nat) : Decidable (Unused s side addr) := inferInstanceAs (Decidable (∀ _ : ι, ∀ x, x ∈ _ → _))

instance (c : Nat) (side : Side) (addr len : Nat) : Decidable (Admitted s c side addr len) :=
    inferInstanceAs (Decidable (∀ _ : ι, _ = _))

instance (side : Side) (addr size : Nat) : Decidable (Registered s side addr size) := inferInstanceAs (Decidable (_ = _))

instance (c : Nat) (side : Side) (addr bytes : Nat) (ok : Bool) : Decidable (SlowFits s c side addr bytes ok) :=
  match h : resolve (s.buffers side) addr bytes with
  | some b => decidable_of_iff (Makes (s.ranges c side) b.addr b.size ok → Admitted s c side b.addr b.size)
      (by unfold SlowFits; rw [h])
  | none =>
    decidable_of_iff (ok = true → ∀ b, b ∈ s.buffers side → rangeContains b.addr b.size addr bytes = false)
    (by unfold SlowFits; rw [h])

instance (t : ι) (ok : Nat → Bool) : (pc : LibPc) → Decidable (CarefulPass s t ok pc)
  | .registering _ _ _ _ => inferInstanceAs (Decidable ((∀ c, c ∈ _ → _ → _) ∧ (_ → _ → (∀ c, c ∈ _ → ∀ r, r ∈ _ → _) ∧ _)))
  | .found side addr _ => inferInstanceAs (Decidable (Unread s t side addr))
  | .idle | .rolling _ _ _ | .erasing _ _ | .openHost _ _ | .openSnapshot _ | .openDevice _ _ _ | .openErase _ _ | .openPublish _
  | .copying _ | .foundOne _ _ | .foundBoth _ _ _ | .slow _ | .posted _ _ _ => inferInstanceAs (Decidable True)

instance (t : ι) (ok ok' : Bool) : (pc : LibPc) → Decidable (CarefulStep s t ok ok' pc)
  | .erasing side addr => inferInstanceAs (Decidable (Unused s side addr))
  | .rolling addr _ [] => inferInstanceAs (Decidable (Unused s .device addr))
  | .openSnapshot c => inferInstanceAs (Decidable (∀ b, b ∈ s.buffers .device → Admitted s c .device b.addr b.size))
  | .openErase _ (b :: _) =>
      inferInstanceAs (Decidable (Free s .device b.addr ∧ Unread s t .device b.addr ∧ Unused s .device b.addr))
  | .slow _ => inferInstanceAs (Decidable (_ ∧ (_ → _)))
  | .idle | .registering _ _ _ _ | .rolling _ _ (_ :: _) | .found _ _ _ | .openHost _ _ | .openDevice _ _ _ | .openErase _
      [] | .openPublish _
  | .copying _ | .foundOne _ _ | .foundBoth _ _ _ | .posted _ _ _ => inferInstanceAs (Decidable True)

instance : DecidablePred (Careful s)
  | .register t side addr size =>
    inferInstanceAs (Decidable (0 < size → ∀ b, b ∈ lookupBuffer (s.buffers side) addr → b.size ≠ size →
      Free s side addr ∧ Unread s t side addr ∧ Unused s side addr))
  | .open _ => inferInstanceAs (Decidable (∀ b, b ∈ s.buffers .host → Admitted s s.channels .host b.addr b.size))
  | .pass t ok => inferInstanceAs (Decidable (CarefulPass s t ok (s.pc t)))
  | .step t ok ok' => inferInstanceAs (Decidable (CarefulStep s t ok ok' (s.pc t)))
  | .unregister _ _ _ | .close _ | .copy _ _ | .fail _ => inferInstanceAs (Decidable True)

end Decidable

end Careful

/-! ## The regions of the channels -/

/-- A channel that is live, or being opened. -/
def Kept {ι : Type} (s : CopyLib ι) (c : Nat) : Prop := c ∈ s.gChannels ∨ ∃ t, (s.pc t).opening = some c

/-- What `Open` has read for its channel is still so, and it has no region for what it could not register. -/
structure OpenFits {ι : Type} (s : CopyLib ι) (pc : LibPc) (c : Nat) : Prop where
  entry : ∀ side b, b ∈ pc.copied side → lookupBuffer (s.buffers side) b.addr = some b ∧ Admitted s c side b.addr b.size
  refused : ∀ b, b ∈ pc.refused → ∀ r, r ∈ s.ranges c .device → r.addr ≠ b.addr
  distinct : ((pc.copied .device ++ pc.refused).map (·.addr)).Nodup

structure LibInv {ι : Type} (s : CopyLib ι) : Prop where
  addrs : ∀ side, ((s.buffers side).map (·.addr)).Nodup
  goneLe : ∀ side addr, s.gone side addr ≤ s.registrations
  numbered : ∀ side b, b ∈ s.buffers side → s.gone side b.addr ≤ b.reg ∧ b.reg < s.registrations
  distinct : ∀ c side, RegionsDistinct (s.ranges c side)
  fresh : ∀ c, s.channels ≤ c → ∀ side, s.ranges c side = []
  inForce : ∀ c, Kept s c → ∀ side r, r ∈ s.ranges c side → InForce (s.buffers side) r
  admitted : ∀ c, Kept s c → ∀ side r, r ∈ s.ranges c side → Admitted s c side r.addr r.len
  opened : ∀ t c, (s.pc t).opening = some c → OpenFits s (s.pc t) c
  used : ∀ t x, x ∈ (s.pc t).uses → InForce (s.buffers x.1) x.2

theorem LibPc.admits_of_opening {pc : LibPc} {c : Nat} (h : pc.opening = some c) (c' : Nat) (side : Side) (addr len : Nat) :
    pc.admits c' side addr len = true := by
  cases pc
  all_goals first | rfl | cases h

theorem LibPc.uses_of_opening {pc : LibPc} {c : Nat} (h : pc.opening = some c) : pc.uses = [] := by
  cases pc
  all_goals first | rfl | cases h

theorem LibPc.copied_of_not_opening {pc : LibPc} (h : pc.opening = none) (side : Side) : pc.copied side = [] := by
  cases pc
  all_goals first | cases side <;> rfl | cases h

section Inv

variable {ι : Type} [DecidableEq ι] {s s' : CopyLib ι}

theorem Kept.back {t : ι} {pc : LibPc} {c : Nat} (h : Kept s' c) (hs : s'.pc = Function.update s.pc t pc)
    (hg : ∀ c, c ∈ s'.gChannels → Kept s c) (hpc : pc.opening = none ∨ pc.opening = (s.pc t).opening) : Kept s c := by
  rcases h with h | ⟨t', h⟩
  · exact hg c h
  · rw [hs] at h
    by_cases e : t' = t
    · rw [e, Function.update_self] at h
      rcases hpc with hpc | hpc
      · rw [hpc] at h
        cases h
      · exact .inr ⟨t, hpc ▸ h⟩
    · rw [Function.update_of_ne e] at h
      exact .inr ⟨t', h⟩

/-- A step that does not touch the registry. -/
theorem LibInv.change (h : LibInv s) (t : ι) (pc : LibPc) (hb : s'.buffers = s.buffers) (hr : s'.registrations = s.registrations)
    (hgone : s'.gone = s.gone) (hs : s'.pc = Function.update s.pc t pc) (hd : ∀ c side, RegionsDistinct (s'.ranges c side))
    (hfresh : ∀ c, s'.channels ≤ c → ∀ side, s'.ranges c side = [])
    (hreg : ∀ c, Kept s' c → ∀ side r, r ∈ s'.ranges c side →
      Kept s c ∧ r ∈ s.ranges c side ∨ InForce (s.buffers side) r ∧ Admitted s c side r.addr r.len)
    (hpc : ∀ c, Kept s' c → ∀ side r, r ∈ s'.ranges c side → pc.admits c side r.addr r.len = true)
    (hother : ∀ t' c, t' ≠ t → (s.pc t').opening = some c →
      (∀ side b, b ∈ (s.pc t').copied side → pc.admits c side b.addr b.size = true) ∧
      ∀ r, r ∈ s'.ranges c .device → r ∈ s.ranges c .device)
    (hself : ∀ c, pc.opening = some c → OpenFits { s with ranges := s'.ranges } pc c)
    (huse : ∀ x, x ∈ pc.uses → InForce (s.buffers x.1) x.2) : LibInv s' := by
  have hadm : ∀ c side addr len, Admitted s c side addr len → pc.admits c side addr len = true → Admitted s' c side addr len := by
    intro c side addr len ha hp t'
    rw [hs]
    by_cases e : t' = t
    · rw [e, Function.update_self]
      exact hp
    · rw [Function.update_of_ne e]
      exact ha t'
  refine ⟨?_, ?_, ?_, hd, hfresh, ?_, ?_, ?_, ?_⟩
  · rw [hb]
    exact h.addrs
  · rw [hgone, hr]
    exact h.goneLe
  · rw [hb, hgone, hr]
    exact h.numbered
  · intro c hc side r hm
    rw [hb]
    rcases hreg c hc side r hm with ⟨hc', hm'⟩ | ⟨hf, -⟩
    · exact h.inForce c hc' side r hm'
    · exact hf
  · intro c hc side r hm
    refine hadm c side r.addr r.len ?_ (hpc c hc side r hm)
    rcases hreg c hc side r hm with ⟨hc', hm'⟩ | ⟨-, ha⟩
    · exact h.admitted c hc' side r hm'
    · exact ha
  · intro t' c hc
    rw [hs] at hc ⊢
    by_cases e : t' = t
    · rw [e, Function.update_self] at hc ⊢
      obtain ⟨hentry, hrefused, hdistinct⟩ := hself c hc
      refine ⟨fun side b hm => ?_, hrefused, hdistinct⟩
      rw [hb]
      exact ⟨(hentry side b hm).1, hadm c side _ _ (hentry side b hm).2 (LibPc.admits_of_opening hc ..)⟩
    · rw [Function.update_of_ne e] at hc ⊢
      obtain ⟨hentry, hrefused, hdistinct⟩ := h.opened t' c hc
      obtain ⟨hadmits, hless⟩ := hother t' c e hc
      refine ⟨fun side b hm => ?_, fun b hm r hm' => hrefused b hm r (hless r hm'), hdistinct⟩
      rw [hb]
      exact ⟨(hentry side b hm).1, hadm c side _ _ (hentry side b hm).2 (hadmits side b hm)⟩
  · intro t' x hx
    rw [hb]
    rw [hs] at hx
    by_cases e : t' = t
    · rw [e, Function.update_self] at hx
      exact huse x hx
    · rw [Function.update_of_ne e] at hx
      exact h.used t' x hx

/-- A thread goes on with its channel, or has none. -/
theorem LibInv.goto (h : LibInv s) (t : ι) (pc : LibPc) (hkept : pc.opening = none ∨ pc.opening = (s.pc t).opening)
    (hpc : ∀ c side addr len, pc.admits c side addr len = true) (hself : ∀ c, pc.opening = some c → OpenFits s pc c)
    (huse : ∀ x, x ∈ pc.uses → InForce (s.buffers x.1) x.2) : LibInv (s.goto t pc) :=
  h.change t pc rfl rfl rfl rfl h.distinct h.fresh (fun _ hc _ _ hr => .inl ⟨hc.back rfl (fun _ => .inl) hkept, hr⟩)
  (fun _ _ _ _ _ => hpc ..)
    (fun _ _ _ _ => ⟨fun _ _ _ => hpc .., fun _ hr => hr⟩) hself huse

/-- A step to a place that neither opens a channel nor holds a region. -/
theorem LibInv.leave (h : LibInv s) (t : ι) {pc : LibPc} (hopen : pc.opening = none) (huse : pc.uses = [])
    (hpc : ∀ c side addr len, pc.admits c side addr len = true) : LibInv (s.goto t pc) :=
  h.goto t pc (.inl hopen) hpc (fun c hc => by rw [hopen] at hc; cases hc) fun x hx => by rw [huse] at hx; cases hx

/-- An entry is erased that no channel has a region for, and none that is being opened has read. -/
theorem LibInv.erase (h : LibInv s) (t : ι) (pc : LibPc) (side : Side) (addr : Nat)
    (hb : s'.buffers = Function.update s.buffers side (unregister (s.buffers side) addr))
    (hr : s'.registrations = s.registrations)
    (hgone : ∀ side' addr', s'.gone side' addr' = s.gone side' addr' ∨ (side' = side ∧ addr' = addr) ∧
      s'.gone side' addr' = s.registrations)
    (hs : s'.pc = Function.update s.pc t pc) (hrng : s'.ranges = s.ranges) (hg : s'.gChannels = s.gChannels)
    (hch : s'.channels = s.channels)
    (hfree : ∀ c, Kept s c → ∀ r, r ∈ s.ranges c side → r.addr ≠ addr)
    (hcopied : ∀ t', t' ≠ t → ∀ b, b ∈ (s.pc t').copied side → b.addr ≠ addr) (hun : Unused s side addr)
    (hkept : pc.opening = none ∨ pc.opening = (s.pc t).opening ∧ (∀ side, pc.copied side = []) ∧
      pc.refused.Sublist (s.pc t).refused)
    (hpc : ∀ c side addr len, pc.admits c side addr len = true) (huse : pc.uses = []) : LibInv s' := by
  have hlookup : ∀ side' p, ¬(side' = side ∧ p = addr) →
      lookupBuffer (s'.buffers side') p = lookupBuffer (s.buffers side') p := by
    intro side' p hne
    rw [hb]
    by_cases e : side' = side
    · subst e
      rw [Function.update_self, lookupBuffer_unregister, if_neg fun e' => hne ⟨rfl, e'⟩]
    · rw [Function.update_of_ne e]
  have hkeep : ∀ side' r, ¬(side' = side ∧ r.addr = addr) → InForce (s.buffers side') r → InForce (s'.buffers side') r := by
    intro side' r hne hf
    unfold InForce
    rw [hlookup side' r.addr hne]
    exact hf
  have hback : ∀ c, Kept s' c → Kept s c := fun c hc => hc.back hs (fun _ hm => .inl (hg ▸ hm)) (hkept.imp_right And.left)
  have hadm : ∀ c side addr len, Admitted s c side addr len → Admitted s' c side addr len := by
    intro c side addr len ha t'
    rw [hs]
    by_cases e : t' = t
    · rw [e, Function.update_self]
      exact hpc ..
    · rw [Function.update_of_ne e]
      exact ha t'
  refine ⟨?_, ?_, ?_, ?_, ?_, ?_, ?_, ?_, ?_⟩
  · intro side'
    rw [hb]
    by_cases e : side' = side
    · rw [e, Function.update_self]
      exact unregister_nodup (h.addrs side)
    · rw [Function.update_of_ne e]
      exact h.addrs side'
  · intro side' addr'
    rw [hr]
    rcases hgone side' addr' with e | ⟨-, e⟩
    · rw [e]
      exact h.goneLe side' addr'
    · rw [e]
  · intro side' b hm
    have hm' : b ∈ s.buffers side' ∧ ¬(side' = side ∧ b.addr = addr) := by
      rw [hb] at hm
      by_cases e : side' = side
      · subst e
        rw [Function.update_self] at hm
        exact ⟨(mem_unregister.mp hm).1, fun e' => (mem_unregister.mp hm).2 e'.2⟩
      · rw [Function.update_of_ne e] at hm
        exact ⟨hm, fun e' => e e'.1⟩
    rw [hr]
    rcases hgone side' b.addr with e | ⟨e, -⟩
    · rw [e]
      exact h.numbered side' b hm'.1
    · exact absurd e hm'.2
  · rw [hrng]
    exact h.distinct
  · rw [hrng, hch]
    exact h.fresh
  · intro c hc side' r hm
    rw [hrng] at hm
    refine hkeep side' r ?_ (h.inForce c (hback c hc) side' r hm)
    intro e
    rw [e.1] at hm
    exact hfree c (hback c hc) r hm e.2
  · intro c hc side' r hm
    rw [hrng] at hm
    exact hadm c side' r.addr r.len (h.admitted c (hback c hc) side' r hm)
  · intro t' c hc
    rw [hs] at hc ⊢
    by_cases e : t' = t
    · rw [e, Function.update_self] at hc ⊢
      rcases hkept with hnone | ⟨hsame, hnone, hsub⟩
      · rw [hnone] at hc
        cases hc
      · have hfits := h.opened t c (hsame ▸ hc)
        refine ⟨fun side' b hm => ?_, fun b hm r hm' => ?_, ?_⟩
        · rw [hnone] at hm
          cases hm
        · rw [hrng] at hm'
          exact hfits.refused b (hsub.subset hm) r hm'
        · rw [hnone]
          exact hfits.distinct.sublist ((hsub.trans (List.sublist_append_right _ _)).map _)
    · rw [Function.update_of_ne e] at hc ⊢
      obtain ⟨hentry, hrefused, hdistinct⟩ := h.opened t' c hc
      refine ⟨fun side' b hm => ?_, fun b hm r hm' => hrefused b hm r (hrng ▸ hm'), hdistinct⟩
      rw [hlookup side' b.addr fun e' => hcopied t' e b (e'.1 ▸ hm) e'.2]
      exact ⟨(hentry side' b hm).1, hadm c side' _ _ (hentry side' b hm).2⟩
  · intro t' x hx
    rw [hs] at hx
    by_cases e : t' = t
    · rw [e, Function.update_self, huse] at hx
      cases hx
    · rw [Function.update_of_ne e] at hx
      exact hkeep x.1 x.2 (hun t' x hx) (h.used t' x hx)

theorem lookupBuffer_register {buffers : List BufferInfo} {b : BufferInfo} {addr size reg : Nat}
    (h : lookupBuffer buffers b.addr = some b)
    (hne : ∀ b', lookupBuffer buffers addr = some b' → b'.size ≠ size → b.addr ≠ addr) :
    lookupBuffer (register buffers addr size reg) b.addr = some b := by
  by_cases hsame : addr = 0 ∨ size = 0 ∨ ∃ b, lookupBuffer buffers addr = some b ∧ b.size = size
  · rw [register_same hsame]
    exact h
  · have hb : b.addr ≠ addr := by
      intro e
      have hb := e ▸ h
      exact hne b hb (fun hsize => hsame (.inr (.inr ⟨b, hb, hsize⟩))) e
    rw [register_new hsame]
    unfold lookupBuffer
    rw [List.find?_cons, decide_eq_false (Ne.symm hb)]
    have hun : lookupBuffer (unregister buffers addr) b.addr = _ := lookupBuffer_unregister
    rw [if_neg hb] at hun
    exact hun.trans h

/-- A registration that replaces another one finds no region of it, and no channel that is being opened has read it. -/
theorem LibInv.register (h : LibInv s) (t : ι) (side : Side) (addr size : Nat) (hrest : (s.pc t).resting = true)
    (hok : Careful s (.register t side addr size)) :
    LibInv { (s.setBuffers side (register (s.buffers side) addr size s.registrations)).goto t
      (.registering side addr size s.registrations) with
      registrations := s.registrations + 1 } := by
  have hbuf : ∀ side', Function.update s.buffers side (Gdr.register (s.buffers side) addr size s.registrations) side' =
      if side' = side then Gdr.register (s.buffers side') addr size s.registrations else s.buffers side' := by
    intro side'
    by_cases e : side' = side
    · subst e
      rw [Function.update_self, if_pos rfl]
    · rw [Function.update_of_ne e, if_neg e]
  have hmem : ∀ side' b, b ∈ Gdr.register (s.buffers side') addr size s.registrations → b ∈ s.buffers side' ∨
      b = ⟨addr, size, s.registrations⟩ := by
    intro side' b hb
    by_cases hsame : addr = 0 ∨ size = 0 ∨ ∃ b, lookupBuffer (s.buffers side') addr = some b ∧ b.size = size
    · rw [register_same hsame] at hb
      exact .inl hb
    · rw [register_new hsame] at hb
      rcases List.mem_cons.mp hb with hb | hb
      · exact .inr hb
      · exact .inl (mem_unregister.mp hb).1
  have hnot : ∀ t' c, (s.pc t').opening = some c → t' ≠ t := by
    intro t' c hc e
    rw [e] at hc
    cases hpc : s.pc t <;> rw [hpc] at hc hrest <;> first | cases hc; done | cases hrest
  have hsize : ∀ b, lookupBuffer (s.buffers side) addr = some b → b.size ≠ size →
      size = 0 ∨ Free s side addr ∧ Unread s t side addr ∧ Unused s side addr := by
    intro b hb hne
    rcases Nat.eq_zero_or_pos size with h0 | h0
    · exact .inl h0
    · exact .inr (hok h0 b hb hne)
  have hback : ∀ c, Kept { (s.setBuffers side (Gdr.register (s.buffers side) addr size s.registrations)).goto t
      (.registering side addr size s.registrations) with registrations := s.registrations + 1 } c → Kept s c :=
    fun c hc => hc.back rfl (fun _ => .inl) (.inl rfl)
  -- what the channels have, and what was read for them, is kept
  have hentry : ∀ side' b, (side' = side → ∀ b', lookupBuffer (s.buffers side) addr = some b' → b'.size ≠ size → size ≠ 0 →
      b.addr ≠ addr) →
      lookupBuffer (s.buffers side') b.addr = some b →
      lookupBuffer (Function.update s.buffers side (Gdr.register (s.buffers side) addr size s.registrations) side')
      b.addr = some b := by
    intro side' b hne hb
    rw [hbuf]
    split
    · next e =>
      subst e
      by_cases h0 : size = 0
      · rw [register_same (.inr (.inl h0))]
        exact hb
      · exact lookupBuffer_register hb fun b' hb' hne' => hne rfl b' hb' hne' h0
    · exact hb
  refine ⟨?_, ?_, ?_, h.distinct, h.fresh, ?_, ?_, ?_, ?_⟩
  · intro side'
    simp only [goto_buffers, CopyLib.setBuffers]
    rw [hbuf]
    split
    · by_cases hsame : addr = 0 ∨ size = 0 ∨ ∃ b, lookupBuffer (s.buffers side') addr = some b ∧ b.size = size
      · rw [register_same hsame]
        exact h.addrs side'
      · rw [register_new hsame, List.map_cons, List.nodup_cons]
        refine ⟨?_, unregister_nodup (h.addrs side')⟩
        intro hm
        obtain ⟨b, hb, e⟩ := List.mem_map.mp hm
        exact (mem_unregister.mp hb).2 e
    · exact h.addrs side'
  · intro side' addr'
    exact Nat.le_succ_of_le (h.goneLe side' addr')
  · intro side' b hb
    simp only [goto_buffers, CopyLib.setBuffers, hbuf] at hb
    have hb' : b ∈ s.buffers side' ∨ b = ⟨addr, size, s.registrations⟩ := by
      split at hb
      · exact hmem side' b hb
      · exact .inl hb
    rcases hb' with hb' | rfl
    · exact ⟨(h.numbered side' b hb').1, Nat.lt_succ_of_lt (h.numbered side' b hb').2⟩
    · exact ⟨h.goneLe side' addr, Nat.lt_succ_self _⟩
  · intro c hc side' r hr
    refine hentry side' ⟨r.addr, r.len, r.reg⟩ (fun e b hb hne h0 => ?_) (h.inForce c (hback c hc) side' r hr)
    obtain ⟨hfree, hunread, -⟩ := (hsize b hb hne).resolve_left h0
    rcases hback c hc with hc' | ⟨t', hc'⟩
    · exact hfree c hc' r (e ▸ hr)
    · exact (hunread t' (hnot t' c hc') c hc').2 r (e ▸ hr)
  · intro c hc side' r hr t'
    have ha := h.admitted c (hback c hc) side' r hr t'
    by_cases e : t' = t
    · simp [e, LibPc.admits]
    · simpa [e] using ha
  · intro t' c hc
    have ht' : t' ≠ t := by
      intro e
      simp [e, LibPc.opening] at hc
    have hpc : Function.update s.pc t (.registering side addr size s.registrations) t' = s.pc t' := Function.update_of_ne ht' ..
    change (Function.update s.pc t (.registering side addr size s.registrations) t').opening = some c at hc
    rw [hpc] at hc
    obtain ⟨hread, hrefused, hdistinct⟩ := h.opened t' c hc
    change OpenFits _ (Function.update s.pc t (.registering side addr size s.registrations) t') c
    rw [hpc]
    refine ⟨fun side' b hm => ⟨?_, fun t'' => ?_⟩, hrefused, hdistinct⟩
    · refine hentry side' b (fun e b' hb' hne h0 => ?_) (hread side' b hm).1
      exact (((hsize b' hb' hne).resolve_left h0).2.1 t' ht' c hc).1 b (e ▸ hm)
    · have ha := (hread side' b hm).2 t''
      by_cases e : t'' = t
      · simp [e, LibPc.admits]
      · simpa [e] using ha
  · intro t' x hx
    have hx' : t' ≠ t ∧ x ∈ (s.pc t').uses := by
      by_cases e : t' = t
      · simp [e, LibPc.uses] at hx
      · exact ⟨e, by simpa [e] using hx⟩
    refine hentry x.1 ⟨x.2.addr, x.2.len, x.2.reg⟩ (fun e b hb hne h0 hr => ?_) (h.used t' x hx'.2)
    exact ((hsize b hb hne).resolve_left h0).2.2 t' x hx'.2 ⟨e, hr⟩

omit [DecidableEq ι] in
theorem distinct_setRanges (h : LibInv s) {c : Nat} {side : Side} {ranges : List RegisteredMrRange} (hd : RegionsDistinct ranges)
    (c' : Nat) (side' : Side) :
    RegionsDistinct ((s.setRanges c side ranges).ranges c' side') := by
  rw [setRanges_ranges]
  split
  · exact hd
  · exact h.distinct c' side'

/-- The pass of a registration makes regions of a buffer that the registry has. -/
theorem LibInv.registerPass (h : LibInv s) (hch : ChannelsInv s) (t : ι) (side : Side) (addr size reg : Nat) (ok : Nat → Bool)
    (hpc : s.pc t = .registering side addr size reg) (hok : Careful s (.pass t ok)) :
    LibInv (registerPass s t side addr size reg ok) := by
  simp only [Careful, CarefulPass, hpc] at hok
  obtain ⟨hmakes, hfail⟩ := hok
  generalize hnew : (fun c => if c ∈ s.gChannels then (channelRegister s c side addr size reg (ok c)).ranges c
    else s.ranges c) = ranges
  have hrng : ∀ c side', ranges c side' =
      if c ∈ s.gChannels ∧ side' = side then (registerBufferLocked (s.ranges c side) addr size (s.buffers side) reg (ok c)).1
      else s.ranges c side' := by
    intro c side'
    rw [← hnew]
    by_cases hc : c ∈ s.gChannels
    · dsimp only
      rw [if_pos hc]
      unfold channelRegister
      rw [setRanges_ranges]
      simp [hc]
    · simp [hc]
  have hout : ∀ c, c ∉ s.gChannels → ranges c = s.ranges c := by
    intro c hc
    funext side'
    rw [hrng, if_neg fun e => hc e.1]
  have hreg : ∀ c side' r, r ∈ ranges c side' → r ∈ s.ranges c side' ∨
      c ∈ s.gChannels ∧ side' = side ∧ r.addr = addr ∧ r.len = size ∧ Makes (s.ranges c side) addr size (ok c) ∧
      InForce (s.buffers side') r := by
    intro c side' r hr
    rw [hrng] at hr
    split at hr
    · next e =>
      obtain ⟨hc, rfl⟩ := e
      rcases mem_registerBufferLocked hr with hr | ⟨hm, rfl⟩
      · exact .inl hr
      · obtain ⟨b, hb, hsize⟩ := Option.map_eq_some_iff.mp (hmakes c hc hm).1
        exact .inr ⟨hc, rfl, rfl, rfl, hm, madeFor_inForce hb hsize⟩
    · exact .inl hr
  have hgo : ∀ pc : LibPc, pc.opening = none → pc.uses = [] →
      (∀ c, Kept s c → ∀ side' r, r ∈ ranges c side' → pc.admits c side' r.addr r.len = true) →
      (∀ t' c, t' ≠ t → (s.pc t').opening = some c → ∀ side' b, b ∈ (s.pc t').copied side' →
        pc.admits c side' b.addr b.size = true) →
      LibInv ({ s with ranges := ranges }.goto t pc) := by
    intro pc hopen huse hadm hcop
    have hback : ∀ c, Kept ({ s with ranges := ranges }.goto t pc) c →
        Kept s c := fun c hc => hc.back rfl (fun _ => .inl) (.inl hopen)
    refine h.change t pc rfl rfl rfl rfl (fun c side' => ?_) (fun c hc side' => ?_) (fun c hc side' r hr => ?_)
      (fun c hc => hadm c (hback c hc))
      (fun t' c hne hc => ⟨hcop t' c hne hc, fun r hr => ?_⟩) (fun c hc => ?_) fun x hx => ?_
    · show RegionsDistinct (ranges c side')
      rw [hrng]
      split
      · exact (h.distinct c side).register
      · exact h.distinct c side'
    · show ranges c side' = []
      rw [hout c fun hm => absurd (hch.known c hm) (Nat.not_lt.mpr hc)]
      exact h.fresh c hc side'
    · rcases hreg c side' r hr with hr | ⟨hlive, rfl, ha, hl, hm, hf⟩
      · exact .inl ⟨hback c hc, hr⟩
      · refine .inr ⟨hf, ?_⟩
        rw [ha, hl]
        exact (hmakes c hlive hm).2
    · change r ∈ ranges c .device at hr
      rwa [hout c (hch.fresh t' c hc).2] at hr
    · rw [hopen] at hc
      cases hc
    · rw [huse] at hx
      cases hx
  unfold Gdr.registerPass
  rw [hnew]
  cases side with
  | host => exact hgo .idle rfl rfl (fun _ _ _ _ _ => rfl) fun _ _ _ _ _ _ _ => rfl
  | device =>
    dsimp only
    split
    · exact hgo .idle rfl rfl (fun _ _ _ _ _ => rfl) fun _ _ _ _ _ _ _ => rfl
    · next hall =>
      obtain ⟨hlens, hunread⟩ := hfail rfl (eq_false_of_ne_true hall)
      have hnot : ∀ t' c, (s.pc t').opening = some c → t' ≠ t := by
        intro t' c hc e
        rw [e, hpc] at hc
        cases hc
      refine hgo _ rfl rfl (fun c hc side' r hr => ?_) fun t' c hne hc side' b hb => ?_
      · rw [LibPc.admits, decide_eq_true_iff]
        intro hbuffer
        obtain ⟨rfl, ha⟩ := hbuffer.imp_right Eq.symm
        rcases hc with hc | ⟨t', hc⟩
        · have hlen : r.len = size := by
            rcases hreg c .device r hr with hr | ⟨-, -, -, hl, -, -⟩
            · exact hlens c hc r hr ha
            · exact hl
          refine ⟨List.mem_filter.mpr ⟨hc, ?_⟩, hlen⟩
          rw [hrng, if_pos ⟨hc, rfl⟩] at hr
          exact registerBufferLocked_fine hr ha hlen 0
        · rw [hout c (hch.fresh t' c hc).2] at hr
          exact absurd ha ((hunread t' (hnot t' c hc) c hc).2 r hr)
      · rw [LibPc.admits, decide_eq_true_iff]
        intro hbuffer
        obtain ⟨rfl, ha⟩ := hbuffer.imp_right Eq.symm
        exact absurd ha ((hunread t' hne c hc).1 b hb)

/-- After the pass of `Unregister` no channel has a region for the buffer. -/
theorem LibInv.unregisterPass (h : LibInv s) (hch : ChannelsInv s) (t : ι) (side : Side) (addr size : Nat)
    (hpc : s.pc t = .found side addr size)
    (hunread : Unread s t side addr) : LibInv (unregisterPass s t side addr size) := by
  have hrng : ∀ c side', (if c ∈ s.gChannels then (channelUnregister s c side addr size).ranges c else s.ranges c) side' =
      if c ∈ s.gChannels ∧ side' = side then releaseRegisteredMrExact (s.ranges c side) addr size else s.ranges c side' := by
    intro c side'
    by_cases hc : c ∈ s.gChannels
    · rw [if_pos hc]
      unfold channelUnregister
      rw [setRanges_ranges]
      simp [hc]
    · rw [if_neg hc]
      simp [hc]
  have hmem : ∀ c side' r, r ∈ (if c ∈ s.gChannels then (channelUnregister s c side addr size).ranges c else s.ranges c) side' →
      r ∈ s.ranges c side' := by
    intro c side' r hr
    rw [hrng] at hr
    split at hr
    · next e =>
      obtain rfl := e.2
      exact mem_of_mem_release hr
    · exact hr
  have hnot : ∀ t' c, (s.pc t').opening = some c → t' ≠ t := by
    intro t' c hc e
    rw [e, hpc] at hc
    cases hc
  have hback : ∀ c, Kept (Gdr.unregisterPass s t side addr size) c →
      Kept s c := fun c hc => hc.back rfl (fun _ => .inl) (.inl rfl)
  refine h.change t (.erasing side addr) rfl rfl rfl rfl (fun c side' => ?_) (fun c hc side' => ?_)
    (fun c hc side' r hr => .inl ⟨hback c hc, hmem c side' r hr⟩) (fun c hc side' r hr => ?_)
    (fun t' c hne hc => ⟨fun side' b hb => ?_, fun r hr => hmem c .device r hr⟩) (fun c hc => by cases hc) fun _ hx => by cases hx
  · change RegionsDistinct ((if c ∈ s.gChannels then (channelUnregister s c side addr size).ranges c else s.ranges c) side')
    rw [hrng]
    split
    · exact (h.distinct c side).release
    · exact h.distinct c side'
  · show (if c ∈ s.gChannels then (channelUnregister s c side addr size).ranges c else s.ranges c) side' = []
    rw [if_neg fun hm => absurd (hch.known c hm) (Nat.not_lt.mpr hc)]
    exact h.fresh c hc side'
  · rw [LibPc.admits, decide_eq_true_iff]
    intro e
    obtain ⟨rfl, ha⟩ := e
    rcases hback c hc with hlive | ⟨t', hopen⟩
    · -- its length is the one that is released
      have hadm := h.admitted c (.inl hlive) side r (hmem c side r hr) t
      rw [hpc, LibPc.admits, decide_eq_true_iff] at hadm
      change r ∈ (if c ∈ s.gChannels then (channelUnregister s c side addr size).ranges c else s.ranges c) side at hr
      rw [hrng, if_pos ⟨hlive, rfl⟩] at hr
      exact not_mem_release (h.distinct c side) hr ⟨ha.symm, hadm ⟨rfl, ha⟩⟩
    · exact (hunread t' (hnot t' c hopen) c hopen).2 r (hmem c side r hr) ha.symm
  · rw [LibPc.admits, decide_eq_true_iff]
    intro e
    obtain ⟨rfl, ha⟩ := e
    exact (hunread t' hne c hc).1 b hb ha.symm

omit [DecidableEq ι] in
/-- What a copy under the lock gets from a channel. -/
theorem getMr_cases {side : Side} {c addr len : Nat} {ok : Bool} (hnd : ((s.buffers side).map (·.addr)).Nodup)
    (hfit : SlowFits s c side addr len ok) {r : RegisteredMrRange}
    (hr : r ∈ (getMr (s.buffers side) (s.ranges c side) addr len ok).1) :
    r ∈ s.ranges c side ∨ InForce (s.buffers side) r ∧ Admitted s c side r.addr r.len := by
  unfold getMr at hr
  unfold SlowFits at hfit
  split at hr
  · next b hb =>
    rw [hb] at hfit
    rcases mem_registerBufferLocked hr with hr | ⟨hm, rfl⟩
    · exact .inl hr
    · exact .inr ⟨madeFor_inForce (lookupBuffer_of_mem hnd (resolve_mem hb)) rfl, hfit hm⟩
  · exact .inl hr

theorem getMr_distinct {buffers : List BufferInfo} {ranges : List RegisteredMrRange} {addr len : Nat} {ok : Bool}
    (h : RegionsDistinct ranges) :
    RegionsDistinct (getMr buffers ranges addr len ok).1 := by
  unfold getMr
  split
  · exact h.register
  · exact h

theorem LibInv.slowCopy (h : LibInv s) (hch : ChannelsInv s) (t : ι) (call : CopyCall) (ok ok' : Bool)
    (hcall : call.channel ∈ s.gChannels)
    (hdst : SlowFits s call.channel call.dstSide call.dst call.bytes ok)
    (hsrc : (dstMr s call ok).2.isSome = true → SlowFits s call.channel call.srcSide call.src call.bytes ok') :
    LibInv (slowCopy s t call ok ok') := by
  rw [slowCopy_eq]
  have hpc : ∀ c side addr len, (slowPc s call ok ok').admits c side addr len = true := by
    intro c side addr len
    obtain hp | ⟨dst, src, -, -, hp⟩ := slowPc_cases s call ok ok'
    all_goals
      rw [hp]
      rfl
  have huse : (slowPc s call ok ok').uses = [] := by
    obtain hp | ⟨dst, src, -, -, hp⟩ := slowPc_cases s call ok ok'
    all_goals
      rw [hp]
      rfl
  have hopen : (slowPc s call ok ok').opening = none := by
    obtain hp | ⟨dst, src, -, -, hp⟩ := slowPc_cases s call ok ok'
    all_goals
      rw [hp]
      rfl
  have hout : ∀ c, c ∉ s.gChannels → ∀ side, slowRanges s call ok ok' c side = s.ranges c side := by
    intro c hc side
    have hne : c ≠ call.channel := fun e => hc (e ▸ hcall)
    unfold slowRanges
    rw [if_neg fun e => hne e.1, if_neg fun e => hne e.1]
  refine h.change t (slowPc s call ok ok') rfl rfl rfl rfl (fun c side => ?_) (fun c hc side => ?_) (fun c hc side r hr => ?_)
    (fun _ _ _ _ _ => hpc ..) (fun t' c _ hc => ⟨fun _ _ _ => hpc .., fun r hr => ?_⟩) (fun c hc => ?_) fun _ hx => by
    rw [huse] at hx; cases hx
  · change RegionsDistinct (slowRanges s call ok ok' c side)
    unfold slowRanges
    split
    · exact getMr_distinct (h.distinct ..)
    · split
      · exact getMr_distinct (h.distinct ..)
      · exact h.distinct c side
  · show slowRanges s call ok ok' c side = []
    rw [hout c fun hm => absurd (hch.known c hm) (Nat.not_lt.mpr hc)]
    exact h.fresh c hc side
  · have hkept : r ∈ s.ranges c side ∨ InForce (s.buffers side) r ∧ Admitted s c side r.addr r.len := by
      change r ∈ slowRanges s call ok ok' c side at hr
      unfold slowRanges at hr
      split at hr
      · next e =>
        obtain ⟨rfl, rfl⟩ := e
        exact getMr_cases (h.addrs _) hdst hr
      · split at hr
        · next e =>
          obtain ⟨rfl, rfl, hsome⟩ := e
          exact getMr_cases (h.addrs _) (hsrc hsome) hr
        · exact .inl hr
    exact hkept.imp_left fun hm => ⟨hc.back rfl (fun _ => .inl) (.inl hopen), hm⟩
  · change r ∈ slowRanges s call ok ok' c .device at hr
    rwa [hout c (hch.fresh t' c hc).2] at hr
  · rw [hopen] at hc
    cases hc

omit [DecidableEq ι] in
/-- The channel's `Cleanup` releases its regions. -/
theorem LibInv.cleanup (h : LibInv s) (c : Nat) : LibInv (s.cleanup c) := by
  have hrng : ∀ c' side r, r ∈ (s.cleanup c).ranges c' side → r ∈ s.ranges c' side := by
    intro c' side r hr
    rw [cleanup_ranges] at hr
    split at hr
    · cases hr
    · exact hr
  have hkept : ∀ c', Kept (s.cleanup c) c' → Kept s c' := fun c' hc => hc.imp_left List.mem_of_mem_filter
  refine ⟨h.addrs, h.goneLe, h.numbered, fun c' side => ?_, fun c' hc side => ?_,
    fun c' hc side r hr => h.inForce c' (hkept c' hc) side r (hrng c' side r hr),
    fun c' hc side r hr => h.admitted c' (hkept c' hc) side r (hrng c' side r hr), fun t c' hc => ?_, h.used⟩
  · rw [cleanup_ranges]
    split
    · exact List.nodup_nil
    · exact h.distinct c' side
  · rw [cleanup_ranges]
    split
    · rfl
    · exact h.fresh c' hc side
  · obtain ⟨hentry, hrefused, hdistinct⟩ := h.opened t c' hc
    exact ⟨hentry, fun b hb r hr => hrefused b hb r (hrng c' .device r hr), hdistinct⟩

/-! ## A channel is opened -/

/-- `Open` makes a region for an entry that it has read. -/
theorem LibInv.openRegister (h : LibInv s) (hch : ChannelsInv s) {t : ι} {c : Nat} (side : Side) {b : BufferInfo}
    (ok : Bool) {pc : LibPc}
    (hopen : (s.pc t).opening = some c) (hb : b ∈ (s.pc t).copied side) (hpc : pc.opening = some c)
    (hself : OpenFits { s with ranges := (channelRegister s c side b.addr b.size b.reg ok).ranges } pc c) :
    LibInv ((channelRegister s c side b.addr b.size b.reg ok).goto t pc) := by
  obtain ⟨hlt, hnew⟩ := hch.fresh t c hopen
  obtain ⟨hlookup, hadm⟩ := (h.opened t c hopen).entry side b hb
  have hout : ∀ c' side', c' ≠ c → (channelRegister s c side b.addr b.size b.reg ok).ranges c' side' = s.ranges c' side' := by
    intro c' side' hne
    rw [channelRegister, setRanges_ranges, if_neg fun e => hne e.1]
  have hback : ∀ c', Kept ((channelRegister s c side b.addr b.size b.reg ok).goto t pc) c' → Kept s c' :=
    fun c' hc => hc.back rfl (fun _ => .inl) (.inr (hpc.trans hopen.symm))
  refine h.change t pc rfl rfl rfl rfl (fun c' side' => ?_) (fun c' hc side' => ?_) (fun c' hc side' r hr => ?_)
    (fun c' _ side' r _ => LibPc.admits_of_opening hpc ..) (fun t' c' hne hc => ⟨fun _ b _ => LibPc.admits_of_opening hpc ..,
      fun r hr => ?_⟩)
    (fun c' hc => ?_) fun _ hx => by rw [LibPc.uses_of_opening hpc] at hx; cases hx
  · exact distinct_setRanges h (h.distinct c side).register c' side'
  · rw [goto_ranges, hout c' side' (by rintro rfl; exact absurd hlt (Nat.not_lt.mpr hc))]
    exact h.fresh c' hc side'
  · rw [goto_ranges, channelRegister, setRanges_ranges] at hr
    split at hr
    · next e =>
      obtain ⟨rfl, rfl⟩ := e
      rcases mem_registerBufferLocked hr with hr | ⟨-, rfl⟩
      · exact .inl ⟨hback c' hc, hr⟩
      · exact .inr ⟨madeFor_inForce hlookup rfl, hadm⟩
    · exact .inl ⟨hback c' hc, hr⟩
  · rw [goto_ranges, hout c' .device] at hr
    · exact hr
    · rintro rfl
      exact hne (hch.distinct t' t c' hc hopen)
  · obtain rfl := Option.some.inj (hpc.symm.trans hc)
    exact hself

theorem LibInv.openHost (h : LibInv s) (hch : ChannelsInv s) {t : ι} {c : Nat} {b : BufferInfo}
    {rest : List BufferInfo} (ok : Bool)
    (hpc : s.pc t = .openHost c (b :: rest)) :
    LibInv ((channelRegister s c .host b.addr b.size b.reg ok).goto t (.openHost c rest)) := by
  have hopen : (s.pc t).opening = some c := by
    rw [hpc]
    rfl
  refine h.openRegister hch .host ok hopen (by rw [hpc]; exact List.mem_cons_self) rfl ⟨fun side b' hb => ?_,
    (fun _ hb => by cases hb), List.nodup_nil⟩
  cases side with
  | host =>
    refine (h.opened t c hopen).entry .host b' ?_
    rw [hpc]
    exact List.mem_cons_of_mem _ hb
  | device => cases hb

/-- What cannot be registered has no region, as one at its address would be the one that it needs. -/
theorem LibInv.openDevice (h : LibInv s) (hch : ChannelsInv s) {t : ι} {c : Nat} {b : BufferInfo}
    {rest invalid : List BufferInfo} (ok : Bool)
    (hpc : s.pc t = .openDevice c (b :: rest) invalid) :
    LibInv ((channelRegister s c .device b.addr b.size b.reg ok).goto t
      (.openDevice c rest (if registers s c .device b.addr b.size ok = true then invalid else invalid ++ [b]))) := by
  have hopen : (s.pc t).opening = some c := by
    rw [hpc]
    rfl
  have hfits := h.opened t c hopen
  rw [hpc] at hfits
  obtain ⟨hentry, hrefused, hdistinct⟩ := hfits
  have hdistinct : ((b :: rest ++ invalid).map (·.addr)).Nodup := hdistinct
  rw [List.cons_append, List.map_cons, List.nodup_cons] at hdistinct
  obtain ⟨hhead, hrest⟩ := hdistinct
  have hlookup := (hentry .device b List.mem_cons_self).1
  have hne : ∀ b', b' ∈ invalid → b.addr ≠ b'.addr := by
    intro b' hb' e
    rw [e] at hhead
    exact hhead (List.mem_map_of_mem (f := (·.addr)) (List.mem_append_right _ hb'))
  have hmem : ∀ r, r ∈ (channelRegister s c .device b.addr b.size b.reg ok).ranges c .device → r ∈ s.ranges c .device ∨
      r.addr = b.addr := by
    intro r hr
    rw [channelRegister, setRanges_ranges, if_pos ⟨rfl, rfl⟩] at hr
    exact (mem_registerBufferLocked hr).imp_right fun e => by rw [e.2]
  have hold : ∀ b', b' ∈ invalid → ∀ r, r ∈ (channelRegister s c .device b.addr b.size b.reg ok).ranges c .device →
      r.addr ≠ b'.addr := by
    intro b' hb' r hr
    rcases hmem r hr with hr | e
    · exact hrefused b' hb' r hr
    · rw [e]
      exact hne b' hb'
  refine h.openRegister hch .device ok hopen (by rw [hpc]; exact List.mem_cons_self) rfl ⟨fun side b' hb => ?_,
    fun b' hb r hr => ?_, ?_⟩
  · cases side with
    | host => cases hb
    | device => exact hentry .device b' (List.mem_cons_of_mem _ hb)
  · simp only [LibPc.refused] at hb
    split at hb
    · exact hold b' hb r hr
    · next hfail =>
      rcases List.mem_append.mp hb with hb | hb
      · exact hold b' hb r hr
      · obtain rfl := List.mem_singleton.mp hb
        intro e
        obtain ⟨hsame, hnone⟩ := registerBufferLocked_refused (eq_false_of_ne_true hfail) b'.reg
        change r ∈ (channelRegister s c .device b'.addr b'.size b'.reg ok).ranges c .device at hr
        rw [channelRegister, setRanges_ranges, if_pos ⟨rfl, rfl⟩, hsame] at hr
        have hf := h.inForce c (.inr ⟨t, hopen⟩) .device r hr
        rw [InForce, e, hlookup] at hf
        exact findRegisteredMrExact_none hnone hr ⟨e, by rw [Option.some.inj hf]⟩
  · simp only [LibPc.refused, LibPc.copied]
    split
    · exact hrest
    · have hperm : (rest ++ (invalid ++ [b])).Perm (b :: (rest ++ invalid)) := by
        rw [← List.append_assoc]
        exact List.perm_append_singleton b _
      exact (hperm.map _).nodup_iff.mpr (List.nodup_cons.mpr ⟨hhead, hrest⟩)

theorem findRegisteredMrRange_mem {ranges : List RegisteredMrRange} {addr len : Nat} {r : RegisteredMrRange}
    (h : findRegisteredMrRange ranges addr len = some r) : r ∈ ranges := List.mem_of_find?_eq_some h

end Inv

section Runs

variable {ι : Type} [DecidableEq ι] {s s' : CopyLib ι}

/-- A failed registration is taken back, one channel after the other. -/
theorem LibInv.rollBack (h : LibInv s) (hch : ChannelsInv s) {t : ι} {c addr size : Nat} {rest : List Nat}
    (hpc : s.pc t = .rolling addr size (c :: rest)) :
    LibInv ((channelUnregister s c .device addr size).goto t (.rolling addr size rest)) := by
  have hmem : ∀ c' side r, r ∈ (channelUnregister s c .device addr size).ranges c' side → r ∈ s.ranges c' side := by
    intro c' side r hr
    rw [channelUnregister, setRanges_ranges] at hr
    split at hr
    · next e =>
      obtain ⟨rfl, rfl⟩ := e
      exact mem_of_mem_release hr
    · exact hr
  have hback : ∀ c', Kept ((channelUnregister s c .device addr size).goto t (.rolling addr size rest)) c' → Kept s c' :=
    fun c' hc => hc.back rfl (fun _ => .inl) (.inl rfl)
  refine h.change t (.rolling addr size rest) rfl rfl rfl rfl (distinct_setRanges h (h.distinct c .device).release)
    (fun c' hc side => ?_)
    (fun c' hc side r hr => .inl ⟨hback c' hc, hmem c' side r hr⟩) (fun c' hc side r hr => ?_)
    (fun t' c' hne hc => ⟨fun side b hb => ?_, fun r hr => hmem c' .device r hr⟩) (fun c' hc => by cases hc)
    (fun _ hx => by cases hx)
  · rw [goto_ranges, List.eq_nil_iff_forall_not_mem]
    intro r hr
    have hr := hmem c' side r hr
    rw [h.fresh c' hc side] at hr
    cases hr
  · have hadm := h.admitted c' (hback c' hc) side r (hmem c' side r hr) t
    rw [hpc, LibPc.admits, decide_eq_true_iff] at hadm
    rw [LibPc.admits, decide_eq_true_iff]
    intro e
    obtain ⟨hin, hlen⟩ := hadm e
    refine ⟨(List.mem_cons.mp hin).resolve_left ?_, hlen⟩
    -- the region of this channel has just been released
    intro hcc
    obtain ⟨rfl, ha⟩ := e
    rw [goto_ranges, channelUnregister, setRanges_ranges, if_pos ⟨hcc, rfl⟩] at hr
    exact not_mem_release (h.distinct c .device) hr ⟨ha.symm, hlen⟩
  · have hadm := ((h.opened t' c' hc).entry side b hb).2 t
    rw [hpc, LibPc.admits, decide_eq_true_iff] at hadm
    rw [LibPc.admits, decide_eq_true_iff]
    -- the channels that are taken back on are live
    exact fun e => absurd (hch.held t c' (by rw [hpc]; exact (hadm e).1)) (hch.fresh t' c' hc).2

/-- An entry is erased when a thread has found all that there is for it. -/
theorem LibInv.eraseFound (h : LibInv s) {t : ι} {side : Side} {addr : Nat}
    (hpc : ∀ c len, (s.pc t).admits c side addr len = false) (hun : Unused s side addr)
    (hb : s'.buffers = Function.update s.buffers side (unregister (s.buffers side) addr))
    (hr : s'.registrations = s.registrations)
    (hgone : ∀ side' addr', s'.gone side' addr' = s.gone side' addr' ∨ (side' = side ∧ addr' = addr) ∧
      s'.gone side' addr' = s.registrations)
    (hs : s'.pc = Function.update s.pc t .idle) (hrest : s'.ranges = s.ranges ∧ s'.gChannels = s.gChannels ∧
      s'.channels = s.channels) :
    LibInv s' := by
  refine h.erase t .idle side addr hb hr hgone hs hrest.1 hrest.2.1 hrest.2.2 (fun c hc r hm e => ?_)
    (fun t' hne b hm e => ?_) hun (.inl rfl)
    (fun _ _ _ _ => rfl) rfl
  · have hadm := h.admitted c hc side r hm t
    rw [e, hpc c r.len] at hadm
    cases hadm
  · cases hc : (s.pc t').opening with
    | none =>
      rw [LibPc.copied_of_not_opening hc] at hm
      cases hm
    | some c =>
      have hadm := ((h.opened t' c hc).entry side b hm).2 t
      rw [e, hpc c b.size] at hadm
      cases hadm

omit [DecidableEq ι] in
/-- The entries of a registry are read, none of which is about to be erased. -/
theorem OpenFits.read {pc : LibPc} {c : Nat} (h : LibInv s) (hside : ∃ side, (∀ side', side' ≠ side → pc.copied side' = []) ∧
    pc.copied side = snapshot (s.buffers side) ∧ ∀ b, b ∈ s.buffers side → Admitted s c side b.addr b.size)
    (hrefused : pc.refused = []) :
    OpenFits s pc c := by
  obtain ⟨side, hnone, hall, hadm⟩ := hside
  have hmem : ∀ side' b, b ∈ pc.copied side' → side' = side ∧ b ∈ s.buffers side' := by
    intro side' b hb
    by_cases e : side' = side
    · subst e
      rw [hall] at hb
      exact ⟨rfl, (List.perm_insertionSort ..).mem_iff.mp hb⟩
    · rw [hnone side' e] at hb
      cases hb
  refine ⟨fun side' b hb => ?_, fun b hb => ?_, ?_⟩
  · obtain ⟨rfl, hb⟩ := hmem side' b hb
    exact ⟨lookupBuffer_of_mem (h.addrs side') hb, hadm b hb⟩
  · rw [hrefused] at hb
    cases hb
  · rw [hrefused, List.append_nil]
    by_cases e : Side.device = side
    · subst e
      rw [hall]
      exact ((List.perm_insertionSort ..).map _).nodup_iff.mpr (h.addrs .device)
    · rw [hnone .device e]
      exact List.nodup_nil

theorem LibInv.openStep (h : LibInv s) (hch : ChannelsInv s) {t : ι} {c : Nat} {ok ok' : Bool} (hopen : (s.pc t).opening = some c)
    (hok : Careful s (.step t ok ok')) (hs : callStep s t ok ok' = some s') : LibInv s' := by
  have hfits := h.opened t c hopen
  cases hpc : s.pc t with
  | openHost c' buffers =>
    rw [hpc] at hopen hfits
    obtain rfl : c' = c := Option.some.inj hopen
    cases buffers with
    | nil =>
      simp only [Gdr.callStep, hpc] at hs
      obtain rfl := Option.some.inj hs
      refine h.goto t (.openSnapshot c') (.inr (by rw [hpc]; rfl)) (fun _ _ _ _ => rfl)
        (fun _ _ => ⟨fun side b hb => ?_, (fun _ hb => by cases hb), List.nodup_nil⟩) fun _ hx => by cases hx
      cases side <;> cases hb
    | cons b rest =>
      simp only [Gdr.callStep, hpc] at hs
      split at hs
      · obtain rfl := Option.some.inj hs
        exact h.openHost hch ok hpc
      · obtain rfl := Option.some.inj hs
        exact (h.cleanup c').leave t rfl rfl fun _ _ _ _ => rfl
  | openSnapshot c' =>
    rw [hpc] at hopen
    obtain rfl : c' = c := Option.some.inj hopen
    simp only [Gdr.callStep, hpc] at hs
    simp only [Careful, CarefulStep, hpc] at hok
    obtain rfl := Option.some.inj hs
    refine h.goto t _ (.inr (by rw [hpc]; rfl)) (fun _ _ _ _ => rfl) (fun c'' hc => ?_) fun _ hx => by cases hx
    obtain rfl := Option.some.inj hc
    refine OpenFits.read h ⟨.device, fun side hne => ?_, rfl, hok⟩ rfl
    cases side with
    | host => rfl
    | device => exact absurd rfl hne
  | openDevice c' buffers invalid =>
    rw [hpc] at hopen hfits
    obtain rfl : c' = c := Option.some.inj hopen
    cases buffers with
    | nil =>
      simp only [Gdr.callStep, hpc] at hs
      obtain rfl := Option.some.inj hs
      refine h.goto t (.openErase c' invalid) (.inr (by rw [hpc]; rfl)) (fun _ _ _ _ => rfl)
        (fun c'' hc => ?_) fun _ hx => by cases hx
      obtain rfl := Option.some.inj hc
      refine ⟨fun side b hb => ?_, hfits.refused, hfits.distinct⟩
      cases side <;> cases hb
    | cons b rest =>
      simp only [Gdr.callStep, hpc] at hs
      obtain rfl := Option.some.inj hs
      exact h.openDevice hch ok hpc
  | openErase c' invalid =>
    rw [hpc] at hopen hfits
    obtain rfl : c' = c := Option.some.inj hopen
    cases invalid with
    | nil =>
      simp only [Gdr.callStep, hpc] at hs
      obtain rfl := Option.some.inj hs
      refine h.goto t (.openPublish c') (.inr (by rw [hpc]; rfl)) (fun _ _ _ _ => rfl)
        (fun _ _ => ⟨fun side b hb => ?_, (fun _ hb => by cases hb), List.nodup_nil⟩) fun _ hx => by cases hx
      cases side <;> cases hb
    | cons b rest =>
      simp only [Gdr.callStep, hpc] at hs
      simp only [Careful, CarefulStep, hpc] at hok
      obtain ⟨hfree, hunread, hunused⟩ := hok
      obtain rfl := Option.some.inj hs
      refine h.erase t (.openErase c' rest) .device b.addr rfl rfl (fun _ _ => .inl rfl) rfl rfl rfl rfl (fun c'' hc r hr => ?_)
        (fun t' hne b' hb' => ?_) hunused (.inr ⟨by rw [hpc]; rfl, fun side => ?_, ?_⟩) (fun _ _ _ _ => rfl) rfl
      · rcases hc with hc | ⟨t', hc⟩
        · exact hfree c'' hc r hr
        · by_cases e : t' = t
          · rw [e, hpc] at hc
            obtain rfl := Option.some.inj hc
            exact hfits.refused b List.mem_cons_self r hr
          · exact (hunread t' e c'' hc).2 r hr
      · cases hc : (s.pc t').opening with
        | none =>
          rw [LibPc.copied_of_not_opening hc] at hb'
          cases hb'
        | some c'' => exact (hunread t' hne c'' hc).1 b' hb'
      · cases side <;> rfl
      · rw [hpc]
        exact List.sublist_cons_self b rest
  | openPublish c' =>
    rw [hpc] at hopen
    obtain rfl : c' = c := Option.some.inj hopen
    simp only [Gdr.callStep, hpc] at hs
    obtain rfl := Option.some.inj hs
    have hkept : Kept s c' := .inr ⟨t, by rw [hpc]; rfl⟩
    refine h.change t .idle rfl rfl rfl rfl h.distinct h.fresh (fun c'' hc side r hr => .inl ⟨?_, hr⟩) (fun _ _ _ _ _ => rfl)
      (fun _ _ _ _ => ⟨fun _ _ _ => rfl, fun _ hr => hr⟩) (fun c hc => by cases hc) fun _ hx => by cases hx
    refine hc.back rfl (fun c'' hc => ?_) (.inl rfl)
    rcases List.mem_append.mp hc with hc | hc
    · exact .inl hc
    · rw [List.mem_singleton.mp hc]
      exact hkept
  | _ =>
    rw [hpc] at hopen
    cases hopen

theorem LibInv.callStep (h : LibInv s) (hch : ChannelsInv s) {t : ι} {ok ok' : Bool} (hok : Careful s (.step t ok ok'))
    (hs : callStep s t ok ok' = some s') : LibInv s' := by
  cases hopen : (s.pc t).opening with
  | some c => exact h.openStep hch hopen hok hs
  | none =>
    cases hpc : s.pc t with
    | rolling addr size registeredChannels =>
      cases registeredChannels with
      | nil =>
        simp only [Gdr.callStep, hpc] at hs
        simp only [Careful, CarefulStep, hpc] at hok
        obtain rfl := Option.some.inj hs
        refine h.eraseFound (fun c len => ?_) hok rfl rfl (fun _ _ => .inl rfl) rfl ⟨rfl, rfl, rfl⟩
        rw [hpc, LibPc.admits, decide_eq_false_iff_not]
        exact fun e => absurd (e ⟨rfl, rfl⟩).1 List.not_mem_nil
      | cons c rest =>
        simp only [Gdr.callStep, hpc] at hs
        obtain rfl := Option.some.inj hs
        exact h.rollBack hch hpc
    | erasing side addr =>
      simp only [Gdr.callStep, hpc] at hs
      simp only [Careful, CarefulStep, hpc] at hok
      obtain rfl := Option.some.inj hs
      refine h.eraseFound (fun c len => ?_) hok rfl rfl (fun side' addr' => ?_) rfl ⟨rfl, rfl, rfl⟩
      · rw [hpc, LibPc.admits, decide_eq_false_iff_not]
        exact fun e => e ⟨rfl, rfl⟩
      · by_cases e : side' = side ∧ addr' = addr
        · refine .inr ⟨e, ?_⟩
          rw [e.1, e.2]
          simp
        · refine .inl ?_
          by_cases e1 : side' = side
          · subst e1
            have e2 : addr' ≠ addr := fun e2 => e ⟨rfl, e2⟩
            simp [e2]
          · simp [e1]
    | copying call =>
      have hlive : Kept s call.channel := .inl (hch.copied (by rw [hpc]; rfl))
      simp only [Gdr.callStep, hpc] at hs
      split at hs
      · next dst hdst =>
        obtain rfl := Option.some.inj hs
        refine h.goto t (.foundOne call dst) (.inl rfl) (fun _ _ _ _ => rfl) (fun c hc => by cases hc) ?_
        intro x hx
        obtain rfl := List.mem_singleton.mp hx
        exact h.inForce _ hlive _ dst (findRegisteredMrRange_mem hdst)
      · obtain rfl := Option.some.inj hs
        exact h.leave t rfl rfl fun _ _ _ _ => rfl
    | foundOne call dst =>
      have hlive : Kept s call.channel := .inl (hch.copied (by rw [hpc]; rfl))
      simp only [Gdr.callStep, hpc] at hs
      split at hs
      · next src hsrc =>
        obtain rfl := Option.some.inj hs
        refine h.goto t (.foundBoth call dst src) (.inl rfl) (fun _ _ _ _ => rfl) (fun c hc => by cases hc) ?_
        intro x hx
        rcases List.mem_cons.mp hx with rfl | hx
        · exact h.used t (call.dstSide, dst) (by rw [hpc]; exact List.mem_singleton_self _)
        · obtain rfl := List.mem_singleton.mp hx
          exact h.inForce _ hlive _ src (findRegisteredMrRange_mem hsrc)
      · obtain rfl := Option.some.inj hs
        exact h.leave t rfl rfl fun _ _ _ _ => rfl
    | foundBoth call dst src =>
      simp only [Gdr.callStep, hpc] at hs
      obtain rfl := Option.some.inj hs
      exact h.leave t rfl rfl fun _ _ _ _ => rfl
    | slow call =>
      have hlive := hch.copied (by rw [hpc]; rfl)
      simp only [Gdr.callStep, hpc] at hs
      simp only [Careful, CarefulStep, hpc] at hok
      obtain rfl := Option.some.inj hs
      exact h.slowCopy hch t call ok ok' hlive hok.1 hok.2
    | _ =>
      first
      | rw [hpc] at hopen
        cases hopen
        done
      | simp only [Gdr.callStep, hpc] at hs
        cases hs

/-- `Unregister` reads the size that the regions have. -/
theorem LibInv.lookup (h : LibInv s) (t : ι) (side : Side) (addr : Nat) :
    LibInv (match lookupBuffer (s.buffers side) addr with
      | some b => s.goto t (.found side b.addr b.size)
      | none => s.goto t (.erasing side addr)) := by
  have hgo : ∀ pc : LibPc, pc.opening = none → pc.uses = [] →
      (∀ c side' b, lookupBuffer (s.buffers side') b.addr = some b → pc.admits c side' b.addr b.size = true) →
      LibInv (s.goto t pc) := by
    intro pc hopen huse hadm
    refine h.change t pc rfl rfl rfl rfl h.distinct h.fresh
      (fun c hc side' r hr => .inl ⟨hc.back rfl (fun _ => .inl) (.inl hopen), hr⟩)
      (fun c hc side' r hr => ?_) (fun t' c _ hc => ⟨fun side' b hb => ?_, fun _ hr => hr⟩) (fun c hc => ?_) fun x hx => ?_
    · exact hadm c side' ⟨r.addr, r.len, r.reg⟩ (h.inForce c (hc.back rfl (fun _ => .inl) (.inl hopen)) side' r hr)
    · exact hadm c side' b ((h.opened t' c hc).entry side' b hb).1
    · rw [hopen] at hc
      cases hc
    · rw [huse] at hx
      cases hx
  split
  · next b hb =>
    refine hgo _ rfl rfl fun c side' b' hb' => ?_
    rw [LibPc.admits, decide_eq_true_iff]
    intro e
    obtain ⟨rfl, ha⟩ := e
    rw [← ha, lookupBuffer_addr hb, hb] at hb'
    rw [Option.some.inj hb']
  · next hnone =>
    refine hgo _ rfl rfl fun c side' b' hb' => ?_
    rw [LibPc.admits, decide_eq_true_iff]
    intro e
    obtain ⟨rfl, rfl⟩ := e
    rw [hnone] at hb'
    cases hb'

/-- A channel has no regions before it is opened. -/
theorem LibInv.opens (h : LibInv s) (t : ι) (hok : Careful s (.open t)) :
    LibInv ({ s with channels := s.channels + 1 }.goto t (.openHost s.channels (snapshot (s.buffers .host)))) := by
  have hback : ∀ c, Kept ({ s with channels := s.channels + 1 }.goto t (.openHost s.channels (snapshot (s.buffers .host)))) c →
      Kept s c ∨ c = s.channels := by
    intro c hc
    rcases hc with hc | ⟨t', hc⟩
    · exact .inl (.inl hc)
    · by_cases e : t' = t
      · simp only [e, goto_pc, Function.update_self, LibPc.opening, Option.some.injEq] at hc
        exact .inr hc.symm
      · simp only [goto_pc, Function.update_of_ne e] at hc
        exact .inl (.inr ⟨t', hc⟩)
  refine h.change t (.openHost s.channels (snapshot (s.buffers .host))) rfl rfl rfl rfl h.distinct
    (fun c hc => h.fresh c (Nat.le_of_succ_le hc))
    (fun c hc side r hr => ?_) (fun _ _ _ _ _ => rfl) (fun _ _ _ _ => ⟨fun _ _ _ => rfl, fun _ hr => hr⟩)
    (fun c hc => ?_) fun _ hx => by cases hx
  · rcases hback c hc with hc | rfl
    · exact .inl ⟨hc, hr⟩
    · rw [goto_ranges] at hr
      change r ∈ s.ranges s.channels side at hr
      rw [h.fresh s.channels (Nat.le_refl _) side] at hr
      cases hr
  · obtain rfl := Option.some.inj hc
    refine OpenFits.read h ⟨.host, fun side hne => ?_, rfl, hok⟩ rfl
    cases side with
    | host => exact absurd rfl hne
    | device => rfl

theorem LibInv.step [Fintype ι] {l : LibLabel ι} (h : LibInv s) (hch : ChannelsInv s) (hok : Careful s l)
    (hs : libStep s l = some s') : LibInv s' := by
  cases l with
  | register t side addr size =>
    simp only [libStep] at hs
    split at hs
    · next hrest =>
      split at hs
      · obtain rfl := Option.some.inj hs
        exact h.leave t rfl rfl fun _ _ _ _ => rfl
      · obtain rfl := Option.some.inj hs
        exact h.register t side addr size hrest hok
    · cases hs
  | unregister t side addr =>
    simp only [libStep] at hs
    split at hs
    · have hlook := h.lookup t side addr
      split at hs
      · next b hb =>
        obtain rfl := Option.some.inj hs
        rwa [hb] at hlook
      · next hnone =>
        obtain rfl := Option.some.inj hs
        rwa [hnone] at hlook
    · cases hs
  | «open» t =>
    simp only [libStep] at hs
    split at hs
    · obtain rfl := Option.some.inj hs
      exact h.opens t hok
    · cases hs
  | close c =>
    simp only [libStep] at hs
    split at hs
    · obtain rfl := Option.some.inj hs
      exact h.cleanup c
    · cases hs
  | copy t call =>
    simp only [libStep] at hs
    split at hs
    · obtain rfl := Option.some.inj hs
      exact h.leave t rfl rfl fun _ _ _ _ => rfl
    · cases hs
  | pass t ok =>
    simp only [libStep] at hs
    split at hs
    · next side addr size reg hpc =>
      obtain rfl := Option.some.inj hs
      exact h.registerPass hch t side addr size reg ok hpc hok
    · next side addr size hpc =>
      obtain rfl := Option.some.inj hs
      simp only [Careful, CarefulPass, hpc] at hok
      exact h.unregisterPass hch t side addr size hpc hok
    · cases hs
  | step t ok ok' => exact h.callStep hch hok hs
  | fail t =>
    simp only [libStep] at hs
    split at hs
    · next c hpc =>
      obtain rfl := Option.some.inj hs
      exact (h.cleanup c).leave t rfl rfl fun _ _ _ _ => rfl
    · cases hs

/-! ## Runs -/

variable [Fintype ι]

theorem channelsInv (h : Reach (copyLib ι) Careful s) : ChannelsInv s := by
  refine h.inv (I := ChannelsInv) ?_ ?_
  · intro s hs
    refine ⟨?_, ?_, ?_, ?_⟩
    · intro c hc
      rw [hs.gChannels] at hc
      cases hc
    · intro t c hc
      rw [hs.pc] at hc
      cases hc
    · intro t t' c hc
      rw [hs.pc] at hc
      cases hc
    · intro t call hc
      rw [hs.pc] at hc
      cases hc
  · intro s l s' h _ hs
    exact h.step hs

theorem libInv (h : Reach (copyLib ι) Careful s) : LibInv s := by
  refine h.inv_with (I := LibInv) (J := ChannelsInv) (fun _ => channelsInv) ?_ ?_
  · intro s hs
    refine ⟨?_, ?_, ?_, ?_, fun c _ side => hs.ranges c side, ?_, ?_, ?_, ?_⟩
    · intro side
      rw [hs.buffers]
      exact List.nodup_nil
    · intro side addr
      rw [hs.gone]
      exact Nat.zero_le _
    · intro side b hb
      rw [hs.buffers] at hb
      cases hb
    · intro c side
      rw [hs.ranges]
      exact List.nodup_nil
    · intro c _ side r hr
      rw [hs.ranges] at hr
      cases hr
    · intro c _ side r hr
      rw [hs.ranges] at hr
      cases hr
    · intro t c hc
      rw [hs.pc] at hc
      cases hc
    · intro t x hx
      rw [hs.pc] at hx
      cases hx
  · intro s l s' hch h hok hs
    exact h.step hch hok hs

/-- What `Open` has registered is in force, before the channel is live and when it gets live. -/
theorem opened_in_force (h : Reach (copyLib ι) Careful s) {t : ι} {c : Nat} (ht : (s.pc t).opening = some c) {side : Side}
    {r : RegisteredMrRange}
    (hr : r ∈ s.ranges c side) : InForce (s.buffers side) r :=
  (libInv h).inForce c (.inr ⟨t, ht⟩) side r hr

/-- What a copy uses for a range: a region in force, or, where no buffer contains the range, one of its own. -/
def Served (buffers : List BufferInfo) (addr bytes : Nat) : MrRef → Prop
  | .mr r => InForce buffers r
  | .owned => ∀ b, b ∈ buffers → rangeContains b.addr b.size addr bytes = false

omit [DecidableEq ι] [Fintype ι] in
theorem getMr_served (h : LibInv s) {c : Nat} {side : Side} {addr len : Nat} {ok : Bool} {m : MrRef} (hc : c ∈ s.gChannels)
    (hfit : SlowFits s c side addr len ok) (hm : (getMr (s.buffers side) (s.ranges c side) addr len ok).2 = some m) :
    Served (s.buffers side) addr len m := by
  have hregion : ∀ r, r ∈ (getMr (s.buffers side) (s.ranges c side) addr len ok).1 → InForce (s.buffers side) r := by
    intro r hr
    rcases getMr_cases (h.addrs side) hfit hr with hr | ⟨hf, -⟩
    · exact h.inForce c (.inl hc) side r hr
    · exact hf
  unfold getMr at hm hregion
  unfold SlowFits at hfit
  split at hm
  · next b hb =>
    rw [hb] at hregion
    dsimp only at hm hregion
    split at hm
    · obtain ⟨r, hr, rfl⟩ := Option.map_eq_some_iff.mp hm
      exact hregion r (findRegisteredMrExact_some hr).1
    · cases hm
  · next hnone =>
    rw [hnone] at hfit
    dsimp only at hm
    split at hm
    · next hok =>
      obtain rfl := Option.some.inj hm
      exact hfit hok
    · cases hm

omit [Fintype ι] in
theorem moved_posted {t t' : ι} {pc : LibPc} {call : CopyCall} {dst src : MrRef} (hs : s'.pc = Function.update s.pc t' pc)
    (hpost : s'.pc t = .posted call dst src) (hnew : s.pc t ≠ s'.pc t) : t = t' ∧ pc = .posted call dst src := by
  by_cases e : t = t'
  · subst e
    rw [hs, Function.update_self] at hpost
    exact ⟨rfl, hpost⟩
  · rw [hs, Function.update_of_ne e] at hnew
    exact absurd rfl hnew

omit [Fintype ι] in
theorem registerPass_pc (s : CopyLib ι) (t : ι) (side : Side) (addr size reg : Nat) (ok : Nat → Bool) :
    ∃ pc, (registerPass s t side addr size reg ok).pc = Function.update s.pc t pc ∧ ∀ call dst src,
    pc ≠ .posted call dst src := by
  unfold registerPass
  cases side with
  | host => exact ⟨.idle, rfl, fun _ _ _ e => by cases e⟩
  | device =>
    dsimp only
    split
    · exact ⟨.idle, rfl, fun _ _ _ e => by cases e⟩
    · exact ⟨_, rfl, fun _ _ _ e => by cases e⟩

/-- What a thread has just posted it found without the lock, or got under it. -/
theorem posted_cases {l : LibLabel ι} {t : ι} {call : CopyCall} {dst src : MrRef} (hs : libStep s l = some s')
    (hpost : s'.pc t = .posted call dst src) (hnew : s.pc t ≠ s'.pc t) :
    ∃ ok ok', l = .step t ok ok' ∧
      ((∃ d r, s.pc t = .foundBoth call d r ∧ dst = .mr d ∧ src = .mr r) ∨
        s.pc t = .slow call ∧ (dstMr s call ok).2 = some dst ∧ (srcMr s call ok').2 = some src) := by
  cases l with
  | close c =>
    simp only [libStep] at hs
    split at hs
    · obtain rfl := Option.some.inj hs
      exact absurd rfl hnew
    · cases hs
  | pass t' ok =>
    simp only [libStep] at hs
    split at hs
    · obtain rfl := Option.some.inj hs
      next side addr size reg _ =>
      obtain ⟨pc, hpc, hne⟩ := registerPass_pc s t' side addr size reg ok
      exact absurd (moved_posted hpc hpost hnew).2 (hne _ _ _)
    · obtain rfl := Option.some.inj hs
      cases (moved_posted rfl hpost hnew).2
    · cases hs
  | step t' ok ok' =>
    simp only [libStep] at hs
    cases hpc : s.pc t' with
    | foundBoth call' d r =>
      simp only [Gdr.callStep, hpc] at hs
      obtain rfl := Option.some.inj hs
      obtain ⟨rfl, e⟩ := moved_posted rfl hpost hnew
      cases e
      exact ⟨ok, ok', rfl, .inl ⟨d, r, hpc, rfl, rfl⟩⟩
    | slow call' =>
      simp only [Gdr.callStep, hpc] at hs
      obtain rfl := Option.some.inj hs
      rw [slowCopy_eq] at hpost hnew
      obtain ⟨rfl, e⟩ := moved_posted rfl hpost hnew
      obtain hp | ⟨d, r, hd, hr, hp⟩ := slowPc_cases s call' ok ok'
      · rw [hp] at e
        cases e
      · rw [hp] at e
        cases e
        exact ⟨ok, ok', rfl, .inr ⟨hpc, hd, hr⟩⟩
    | rolling addr size registeredChannels =>
      cases registeredChannels
      all_goals
        simp only [Gdr.callStep, hpc] at hs
        obtain rfl := Option.some.inj hs
        cases (moved_posted rfl hpost hnew).2
    | openHost c buffers =>
      cases buffers
      all_goals
        simp only [Gdr.callStep, hpc] at hs
        (repeat' split at hs)
        all_goals
          obtain rfl := Option.some.inj hs
          cases (moved_posted rfl hpost hnew).2
    | openDevice c buffers invalid =>
      cases buffers
      all_goals
        simp only [Gdr.callStep, hpc] at hs
        obtain rfl := Option.some.inj hs
        cases (moved_posted rfl hpost hnew).2
    | openErase c invalid =>
      cases invalid
      all_goals
        simp only [Gdr.callStep, hpc] at hs
        obtain rfl := Option.some.inj hs
        cases (moved_posted rfl hpost hnew).2
    | _ =>
      simp only [Gdr.callStep, hpc] at hs
      (repeat' split at hs)
      all_goals first | cases hs; done | skip
      all_goals
        obtain rfl := Option.some.inj hs
        cases (moved_posted rfl hpost hnew).2
  | _ =>
    simp only [libStep] at hs
    (repeat' split at hs)
    all_goals first | cases hs; done | skip
    all_goals
      obtain rfl := Option.some.inj hs
      cases (moved_posted rfl hpost hnew).2

/-- In a careful run no live channel has a region for a registration of an address that has been unregistered
    since, and a copy that
posts uses regions that are in force. -/
theorem registrations_in_force (h : Reach (copyLib ι) Careful s) :
    (∀ c, c ∈ s.gChannels → ∀ side r, r ∈ s.ranges c side → s.gone side r.addr ≤ r.reg) ∧
    ∀ l s', Careful s l → libStep s l = some s' → ∀ t call dst src, s'.pc t = .posted call dst src → s.pc t ≠ s'.pc t →
      Served (s.buffers call.dstSide) call.dst call.bytes dst ∧ Served (s.buffers call.srcSide) call.src call.bytes src := by
  have hinv := libInv h
  have hch := channelsInv h
  refine ⟨?_, ?_⟩
  · intro c hc side r hr
    exact (hinv.numbered side _ (lookupBuffer_mem (hinv.inForce c (.inl hc) side r hr))).1
  · intro l s' hok hs t call dst src hpost hnew
    obtain ⟨ok, ok', rfl, hcases⟩ := posted_cases hs hpost hnew
    rcases hcases with ⟨d, r, hpc, rfl, rfl⟩ | ⟨hpc, hd, hr⟩
    · exact ⟨hinv.used t (call.dstSide, d) (by rw [hpc]; exact List.mem_cons_self),
        hinv.used t (call.srcSide, r) (by rw [hpc]; exact List.mem_cons_of_mem _ (List.mem_singleton_self _))⟩
    · have hlive := hch.copied (by rw [hpc]; rfl)
      simp only [Careful, CarefulStep, hpc] at hok
      exact ⟨getMr_served hinv hlive hok.1 hd, getMr_served hinv hlive (hok.2 (by rw [hd]; rfl)) hr⟩

/-- A copy on a channel that was opened after its two buffers were registered. -/
theorem registrations_in_force_copy : ∃ s : CopyLib Unit, s.gChannels = [0] ∧ s.ranges 0 .device = [⟨1, 8, 0⟩] ∧
    (∀ c, c ∈ s.gChannels → ∀ side r, r ∈ s.ranges c side → s.gone side r.addr ≤ r.reg) ∧
    Served (s.buffers .device) 1 4 (.mr ⟨1, 8, 0⟩) ∧ Served (s.buffers .host) 100 4 (.mr ⟨100, 8, 1⟩) := by
  let call : CopyCall := ⟨0, 1, 100, 4, .hostToDevice⟩
  obtain ⟨s, hs, hp⟩ := exists_of_replayOk (S := copyLib Unit) (fun s l => decide (Careful s l)) (fun _ _ => of_decide_eq_true)
    [.register () .device 1 8, .pass () fun _ => true, .register () .host 100 8, .pass () fun _ => true, .open (),
      .step () true true, .step () true true,
      .step () true true, .step () true true, .step () true true, .step () true true, .step () true true,
      .copy () ⟨0, 1, 100, 4, .hostToDevice⟩,
      .step () true true, .step () true true]
    (s := ⟨fun _ => [], 0, 0, [], fun _ _ => [], fun _ => .idle, fun _ _ => 0⟩)
    (p := fun s => s.gChannels = [0] && s.ranges 0 .device = [⟨1, 8, 0⟩] &&
      s.pc () = .foundBoth ⟨0, 1, 100, 4, .hostToDevice⟩ ⟨1, 8, 0⟩ ⟨100, 8, 1⟩)
    ⟨fun _ => rfl, rfl, fun _ _ => rfl, fun _ => rfl, fun _ _ => rfl⟩ (by decide)
  simp only [Bool.and_eq_true, decide_eq_true_iff] at hp
  obtain ⟨⟨hlive, hranges⟩, hpc⟩ := hp
  have hstep : libStep s (.step () true true) = some (s.goto () (.posted call (.mr ⟨1, 8, 0⟩) (.mr ⟨100, 8, 1⟩))) := by
    simp only [libStep, Gdr.callStep, hpc, call]
  have h := registrations_in_force hs
  have hok : Careful s (.step () true true) := by
    change CarefulStep s () true true (s.pc ())
    rw [hpc]
    exact True.intro
  obtain ⟨hdst, hsrc⟩ := h.2 _ _ hok hstep () call (.mr ⟨1, 8, 0⟩) (.mr ⟨100, 8, 1⟩) (by simp) (by simp [hpc])
  exact ⟨s, hlive, hranges, h.1, hdst, hsrc⟩

/-- A buffer is registered, and a channel opened; the same address is registered with another size, and unregistered. -/
theorem resized_region_stays : ∃ s : CopyLib Unit, Reach (copyLib Unit) Any s ∧
    ∃ c, c ∈ s.gChannels ∧ ∃ r, r ∈ s.ranges c .device ∧ r.reg < s.gone .device r.addr := by
  obtain ⟨s, hs, hp⟩ := exists_of_replay (S := copyLib Unit)
    [.register () .device 1 8, .pass () fun _ => true, .open (), .step () true true, .step () true true, .step () true true,
      .step () true true,
      .step () true true, .step () true true, .register () .device 1 16, .pass () fun _ => true, .unregister () .device 1,
      .pass () fun _ => true, .step () true true]
    (s := ⟨fun _ => [], 0, 0, [], fun _ _ => [], fun _ => .idle, fun _ _ => 0⟩)
    (p := fun s => s.gChannels = [0] && s.ranges 0 .device = [⟨1, 8, 0⟩] && s.gone .device 1 = 2)
    ⟨fun _ => rfl, rfl, fun _ _ => rfl, fun _ => rfl, fun _ _ => rfl⟩ (by decide)
  simp only [Bool.and_eq_true, decide_eq_true_iff] at hp
  obtain ⟨⟨hlive, hranges⟩, hgone⟩ := hp
  refine ⟨s, hs, 0, ?_, ⟨1, 8, 0⟩, ?_, ?_⟩
  · rw [hlive]
    exact List.mem_singleton_self _
  · rw [hranges]
    exact List.mem_singleton_self _
  · rw [hgone]
    decide

end Runs

end UnifiedCache.Gdr
