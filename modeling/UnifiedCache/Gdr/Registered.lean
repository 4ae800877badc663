/-
  UnifiedCache.Gdr.Registered — the registries, the regions of a channel, and which channels are live
  (see `UnifiedCache.Gdr.Regions`).

  The registry has one entry for an address, and a channel one region for an address and a length
  (`RegionsDistinct`). A channel that is being opened has one thread, and is not live; one that is copied
  on is live (`ChannelsInv`).
-/

import UnifiedCache.Gdr.Regions

namespace UnifiedCache.Gdr

open UnifiedCache.Base

/-! ## The registry -/

section Registry

variable {buffers : List BufferInfo} {addr size reg p : Nat} {b : BufferInfo}

theorem lookupBuffer_addr (h : lookupBuffer buffers addr = some b) : b.addr = addr := by
  unfold lookupBuffer at h
  simpa using List.find?_some h

theorem lookupBuffer_mem (h : lookupBuffer buffers addr = some b) : b ∈ buffers := List.mem_of_find?_eq_some h

theorem lookupBuffer_of_mem (hnd : (buffers.map (·.addr)).Nodup) (h : b ∈ buffers) : lookupBuffer buffers b.addr = some b := by
  induction buffers with
  | nil => cases h
  | cons a rest ih =>
    rw [List.map_cons, List.nodup_cons] at hnd
    unfold lookupBuffer at ih ⊢
    rw [List.find?_cons]
    rcases List.mem_cons.mp h with rfl | hb
    · rw [decide_eq_true rfl]
    · have hne : a.addr ≠ b.addr := fun e => hnd.1 (e ▸ List.mem_map_of_mem hb)
      rw [decide_eq_false hne]
      exact ih hnd.2 hb

theorem lookupBuffer_unregister : lookupBuffer (unregister buffers addr) p = if p = addr then none
    else lookupBuffer buffers p := by
  unfold lookupBuffer unregister
  rw [List.find?_filter]
  by_cases e : p = addr
  · rw [if_pos e, List.find?_eq_none]
    intro b _
    simp [e]
  · rw [if_neg e]
    congr 1
    funext b
    by_cases h : b.addr = p
    · simp [h, e]
    · simp [h]

theorem register_same (h : addr = 0 ∨ size = 0 ∨ ∃ b, lookupBuffer buffers addr = some b ∧ b.size = size) :
    register buffers addr size reg = buffers := by
  unfold register
  by_cases h0 : addr = 0 ∨ size = 0
  · rw [if_pos h0]
  · obtain ⟨b, hb, hsize⟩ : ∃ b, lookupBuffer buffers addr = some b ∧ b.size = size := by
      rcases h with h | h | h
      · exact absurd (.inl h) h0
      · exact absurd (.inr h) h0
      · exact h
    rw [if_neg h0, hb]
    exact if_pos hsize

theorem register_new (h : ¬(addr = 0 ∨ size = 0 ∨ ∃ b, lookupBuffer buffers addr = some b ∧ b.size = size)) :
    register buffers addr size reg = ⟨addr, size, reg⟩ :: unregister buffers addr := by
  unfold register
  rw [if_neg fun h0 => h (h0.imp_right .inl)]
  cases hb : lookupBuffer buffers addr with
  | none => rfl
  | some b => exact if_neg fun hsize => h (.inr (.inr ⟨b, hb, hsize⟩))

theorem unregister_nodup (hnd : (buffers.map (·.addr)).Nodup) : ((unregister buffers addr).map (·.addr)).Nodup :=
  hnd.sublist (List.filter_sublist.map _)

theorem mem_unregister : b ∈ unregister buffers addr ↔ b ∈ buffers ∧ b.addr ≠ addr := by
  unfold unregister
  rw [List.mem_filter, decide_eq_true_iff]

theorem resolve_mem {len : Nat} (h : resolve buffers addr len = some b) : b ∈ buffers := by
  unfold resolve at h
  split at h
  · next b' hb =>
    split at h
    · obtain rfl := Option.some.inj h
      exact List.mem_of_mem_filter (List.argmax_mem hb)
    · cases h
  · cases h

end Registry

/-! ## The regions of a channel -/

/-- The region is made for the registration that the registry has for its address. -/
def InForce (buffers : List BufferInfo) (r : RegisteredMrRange) :
    Prop := lookupBuffer buffers r.addr = some ⟨r.addr, r.len, r.reg⟩

instance (buffers : List BufferInfo) (r : RegisteredMrRange) : Decidable (InForce buffers r) :=
  inferInstanceAs (Decidable (_ = _))

section Ranges

variable {buffers : List BufferInfo} {ranges : List RegisteredMrRange} {addr len reg : Nat} {r : RegisteredMrRange} {ok : Bool}

def RegionsDistinct (ranges : List RegisteredMrRange) : Prop := (ranges.map fun r => (r.addr, r.len)).Nodup

theorem findRegisteredMrExact_some (h : findRegisteredMrExact ranges addr len = some r) : r ∈ ranges ∧ r.addr = addr ∧
    r.len = len := by
  have hp := List.find?_some h
  rw [Bool.and_eq_true, decide_eq_true_iff, decide_eq_true_iff] at hp
  exact ⟨List.mem_of_find?_eq_some h, hp⟩

theorem findRegisteredMrExact_none (h : findRegisteredMrExact ranges addr len = none) (hr : r ∈ ranges) :
    ¬(r.addr = addr ∧ r.len = len) := by
  have hp := List.find?_eq_none.mp h r hr
  rwa [Bool.and_eq_true, decide_eq_true_iff, decide_eq_true_iff] at hp

/-- A call makes a region: the channel has none, and `ibv_reg_mr` is fine. -/
def Makes (ranges : List RegisteredMrRange) (addr len : Nat) (ok : Bool) : Prop := findRegisteredMrExact ranges addr len =
    none ∧ ok = true

instance : Decidable (Makes ranges addr len ok) := inferInstanceAs (Decidable (_ ∧ _))

theorem mem_registerBufferLocked (h : r ∈ (registerBufferLocked ranges addr len buffers reg ok).1) :
    r ∈ ranges ∨ Makes ranges addr len ok ∧ r = ⟨addr, len, madeFor addr len buffers reg⟩ := by
  unfold registerBufferLocked at h
  split at h
  · exact .inl h
  · next hnone =>
    split at h
    · next hok =>
      rcases List.mem_append.mp h with h | h
      · exact .inl h
      · exact .inr ⟨⟨Option.not_isSome_iff_eq_none.mp hnone, hok⟩, List.mem_singleton.mp h⟩
    · exact .inl h

/-- A channel that has a region for the buffer does not throw. -/
theorem registerBufferLocked_fine (h : r ∈ (registerBufferLocked ranges addr len buffers reg ok).1) (ha : r.addr = addr)
    (hl : r.len = len) (reg' : Nat) :
    (registerBufferLocked ranges addr len buffers reg' ok).2 = true := by
  unfold registerBufferLocked at h ⊢
  split
  · rfl
  · next hnone =>
    rw [if_neg hnone] at h
    split
    · rfl
    · next hok =>
      rw [if_neg hok] at h
      exact absurd ⟨ha, hl⟩ (findRegisteredMrExact_none (Option.not_isSome_iff_eq_none.mp hnone) h)

/-- A buffer that is refused has no region, and is not given one. -/
theorem registerBufferLocked_refused (h : (registerBufferLocked ranges addr len buffers reg ok).2 = false) (reg' : Nat) :
    (registerBufferLocked ranges addr len buffers reg' ok).1 = ranges ∧ findRegisteredMrExact ranges addr len = none := by
  unfold registerBufferLocked at h ⊢
  split at h
  · cases h
  · next hnone =>
    rw [if_neg hnone]
    split at h
    · cases h
    · next hok =>
      rw [if_neg hok]
      exact ⟨rfl, Option.not_isSome_iff_eq_none.mp hnone⟩

theorem madeFor_inForce {b : BufferInfo} (hb : lookupBuffer buffers addr = some b) (hsize : b.size = len) :
    InForce buffers ⟨addr, len, madeFor addr len buffers reg⟩ := by
  unfold InForce madeFor
  rw [hb]
  dsimp only
  rw [if_pos hsize, ← hsize, ← lookupBuffer_addr hb]

theorem RegionsDistinct.register (h : RegionsDistinct ranges) :
    RegionsDistinct (registerBufferLocked ranges addr len buffers reg ok).1 := by
  unfold registerBufferLocked
  split
  · exact h
  · next hnone =>
    split
    · unfold RegionsDistinct
      rw [List.map_append, List.map_singleton]
      refine h.append (List.nodup_singleton _) ?_
      intro x hx hx'
      obtain ⟨r, hr, rfl⟩ := List.mem_map.mp hx
      have hpair := Prod.mk.inj (List.mem_singleton.mp hx')
      exact findRegisteredMrExact_none (Option.not_isSome_iff_eq_none.mp hnone) hr hpair
    · exact h

theorem RegionsDistinct.release (h : RegionsDistinct ranges) : RegionsDistinct (releaseRegisteredMrExact ranges addr len) :=
  h.sublist (List.eraseP_sublist.map _)

theorem mem_of_mem_release (h : r ∈ releaseRegisteredMrExact ranges addr len) : r ∈ ranges := List.mem_of_mem_eraseP h

/-- What is released is gone, as there is one region for an address and a length. -/
theorem not_mem_release (hd : RegionsDistinct ranges) (h : r ∈ releaseRegisteredMrExact ranges addr len) :
    ¬(r.addr = addr ∧ r.len = len) := by
  induction ranges with
  | nil => cases h
  | cons a rest ih =>
    unfold RegionsDistinct at hd ih
    rw [List.map_cons, List.nodup_cons] at hd
    unfold releaseRegisteredMrExact at h ih
    by_cases ha : a.addr = addr ∧ a.len = len
    · rw [List.eraseP_cons_of_pos (by simp [ha])] at h
      intro hr
      apply hd.1
      rw [ha.1, ha.2, ← hr.1, ← hr.2]
      exact List.mem_map_of_mem (f := fun r : RegisteredMrRange => (r.addr, r.len)) h
    · rw [List.eraseP_cons_of_neg (by simpa using ha)] at h
      rcases List.mem_cons.mp h with rfl | h
      · exact ha
      · exact ih hd.2 h

end Ranges

section Fields

variable {ι : Type} (s : CopyLib ι) (c : Nat) (side : Side)

@[simp] theorem setBuffers_pc (buffers : List BufferInfo) : (s.setBuffers side buffers).pc = s.pc := rfl

theorem setRanges_ranges (ranges : List RegisteredMrRange) (c' : Nat) (side' : Side) :
    (s.setRanges c side ranges).ranges c' side' = if c' = c ∧ side' = side then ranges else s.ranges c' side' := by
  unfold CopyLib.setRanges
  by_cases hc : c' = c
  · subst hc
    by_cases hside : side' = side
    · subst hside
      simp
    · simp [hside]
  · simp [hc]

theorem cleanup_ranges (c' : Nat) (side' : Side) : (s.cleanup c).ranges c' side' = if c' = c then [] else s.ranges c' side' := by
  unfold CopyLib.cleanup
  by_cases hc : c' = c
  · subst hc
    simp
  · simp [hc]

variable [DecidableEq ι] (t : ι) (pc : LibPc)

@[simp] theorem goto_buffers : (s.goto t pc).buffers = s.buffers := rfl
@[simp] theorem goto_channels : (s.goto t pc).channels = s.channels := rfl
@[simp] theorem goto_registrations : (s.goto t pc).registrations = s.registrations := rfl
@[simp] theorem goto_gChannels : (s.goto t pc).gChannels = s.gChannels := rfl
@[simp] theorem goto_ranges : (s.goto t pc).ranges = s.ranges := rfl
@[simp] theorem goto_gone : (s.goto t pc).gone = s.gone := rfl
@[simp] theorem goto_pc : (s.goto t pc).pc = Function.update s.pc t pc := rfl

end Fields

/-! ## The channels that are being opened, and those that are copied on -/

def LibPc.opening : LibPc → Option Nat
  | .openHost c _ | .openSnapshot c | .openDevice c _ _ | .openErase c _ | .openPublish c => some c
  | _ => none

def LibPc.call : LibPc → Option CopyCall
  | .copying call | .foundOne call _ | .foundBoth call _ _ | .slow call => some call
  | _ => none

theorem LibPc.call_holds {pc : LibPc} {call : CopyCall} (h : pc.call = some call) : call.channel ∈ pc.holds := by
  cases pc
  all_goals first | cases h; done | skip
  all_goals
    obtain rfl := Option.some.inj h
    exact List.mem_singleton_self _

structure ChannelsInv {ι : Type} (s : CopyLib ι) : Prop where
  known : ∀ c, c ∈ s.gChannels → c < s.channels
  fresh : ∀ t c, (s.pc t).opening = some c → c < s.channels ∧ c ∉ s.gChannels
  distinct : ∀ t t' c, (s.pc t).opening = some c → (s.pc t').opening = some c → t = t'
  held : ∀ t c, c ∈ (s.pc t).holds → c ∈ s.gChannels

section Opening

variable {ι : Type} [DecidableEq ι] {s s' : CopyLib ι}

omit [DecidableEq ι] in
theorem ChannelsInv.copied (h : ChannelsInv s) {t : ι} {call : CopyCall} (hc : (s.pc t).call = some call) :
    call.channel ∈ s.gChannels :=
  h.held t _ (LibPc.call_holds hc)

/-- A thread goes on with its channel, or leaves it. -/
theorem ChannelsInv.move (h : ChannelsInv s) (t : ι) (pc : LibPc) (hpc : pc.opening = none ∨ pc.opening = (s.pc t).opening)
    (hhold : ∀ c, c ∈ pc.holds → c ∈ s.gChannels) (hs : s'.pc = Function.update s.pc t pc) (hch : s'.channels = s.channels)
    (hg : s'.gChannels = s.gChannels) : ChannelsInv s' := by
  have hother : ∀ t', t' ≠ t → s'.pc t' = s.pc t' := by
    intro t' e
    rw [hs, Function.update_of_ne e]
  have hself : s'.pc t = pc := by
    rw [hs, Function.update_self]
  have hold : ∀ t' c, (s'.pc t').opening = some c → (s.pc t').opening = some c := by
    intro t' c hc
    by_cases e : t' = t
    · subst e
      rw [hself] at hc
      rcases hpc with hpc | hpc
      · rw [hpc] at hc
        cases hc
      · rwa [hpc] at hc
    · rwa [hother t' e] at hc
  refine ⟨?_, ?_, ?_, ?_⟩
  · rw [hch, hg]
    exact h.known
  · intro t' c hc
    rw [hch, hg]
    exact h.fresh t' c (hold t' c hc)
  · intro t1 t2 c h1 h2
    exact h.distinct t1 t2 c (hold t1 c h1) (hold t2 c h2)
  · intro t' c hc
    rw [hg]
    by_cases e : t' = t
    · subst e
      rw [hself] at hc
      exact hhold c hc
    · rw [hother t' e] at hc
      exact h.held t' c hc

omit [DecidableEq ι] in
theorem cleanup_gChannels {c : Nat} (hc : c ∉ s.gChannels) : (s.cleanup c).gChannels = s.gChannels := by
  unfold CopyLib.cleanup
  rw [List.filter_eq_self]
  intro c' hm
  exact decide_eq_true fun e => hc (e ▸ hm)

end Opening

/-! ## A copy under the lock -/

theorem CopyCall.srcSide_ne (call : CopyCall) : call.srcSide ≠ call.dstSide := by
  unfold CopyCall.srcSide CopyCall.dstSide
  cases call.kind <;> decide

section Slow

variable {ι : Type} [DecidableEq ι] (s : CopyLib ι) (t : ι) (call : CopyCall) (ok ok' : Bool)

/-- Where the copy goes. -/
def slowPc : LibPc :=
  match (dstMr s call ok).2, (srcMr s call ok').2 with
  | some dst, some src => .posted call dst src
  | _, _ => .idle

/-- The regions that it leaves. -/
def slowRanges (c : Nat) (side : Side) : List RegisteredMrRange :=
  if c = call.channel ∧ side = call.dstSide then (dstMr s call ok).1
  else if c = call.channel ∧ side = call.srcSide ∧ (dstMr s call ok).2.isSome = true then (srcMr s call ok').1
  else s.ranges c side

theorem slowCopy_eq : slowCopy s t call ok ok' =
    { s with ranges := slowRanges s call ok ok', pc := Function.update s.pc t (slowPc s call ok ok') } := by
  have hne := call.srcSide_ne
  have hsrc : srcMr (s.setRanges call.channel call.dstSide (dstMr s call ok).1) call ok' = srcMr s call ok' := by
    unfold srcMr
    rw [setRanges_ranges, if_neg fun h => hne h.2]
    rfl
  unfold slowCopy slowPc
  dsimp only
  rw [hsrc]
  cases hd : (dstMr s call ok).2 with
  | none =>
    have hone : (s.setRanges call.channel call.dstSide (dstMr s call ok).1).ranges = slowRanges s call ok ok' := by
      funext c side
      rw [setRanges_ranges]
      simp [slowRanges, hd]
    rw [← hone]
    rfl
  | some dst =>
    have htwo :
        ((s.setRanges call.channel call.dstSide (dstMr s call ok).1).setRanges call.channel call.srcSide
        (srcMr s call ok').1).ranges =
        slowRanges s call ok ok' := by
      funext c side
      rw [setRanges_ranges, setRanges_ranges]
      unfold slowRanges
      by_cases h : c = call.channel ∧ side = call.srcSide
      · have hside : side ≠ call.dstSide := fun e => hne (h.2.symm.trans e)
        rw [if_pos h, if_neg fun h' => hside h'.2, if_pos ⟨h.1, h.2, by rw [hd]; rfl⟩]
      · rw [if_neg h, if_neg (c := c = call.channel ∧ side = call.srcSide ∧ _) fun h' => h ⟨h'.1, h'.2.1⟩]
    rw [← htwo]
    cases (srcMr s call ok').2 <;> rfl

omit [DecidableEq ι] in
theorem slowPc_cases : slowPc s call ok ok' = .idle ∨
    ∃ dst src, (dstMr s call ok).2 = some dst ∧ (srcMr s call ok').2 = some src ∧
    slowPc s call ok ok' = .posted call dst src := by
  unfold slowPc
  cases hd : (dstMr s call ok).2 with
  | none => exact .inl rfl
  | some dst =>
    cases hsrc : (srcMr s call ok').2 with
    | none => exact .inl rfl
    | some src => exact .inr ⟨dst, src, rfl, rfl, rfl⟩

end Slow

section Steps

variable {ι : Type} [DecidableEq ι] {s s' : CopyLib ι}

theorem ChannelsInv.callStep (h : ChannelsInv s) {t : ι} {ok ok' : Bool} (hs : callStep s t ok ok' = some s') :
    ChannelsInv s' := by
  cases hpc : s.pc t with
  | rolling addr size registeredChannels =>
    cases registeredChannels with
    | nil =>
      simp only [Gdr.callStep, hpc] at hs
      obtain rfl := Option.some.inj hs
      exact h.move t .idle (.inl rfl) nofun rfl rfl rfl
    | cons c rest =>
      simp only [Gdr.callStep, hpc] at hs
      obtain rfl := Option.some.inj hs
      exact h.move t (.rolling addr size rest) (.inl rfl)
        (fun c' hc => h.held t c' (by rw [hpc]; exact List.mem_cons_of_mem _ hc)) rfl rfl rfl
  | erasing side addr =>
    simp only [Gdr.callStep, hpc] at hs
    obtain rfl := Option.some.inj hs
    exact h.move t .idle (.inl rfl) nofun rfl rfl rfl
  | openHost c buffers =>
    cases buffers with
    | nil =>
      simp only [Gdr.callStep, hpc] at hs
      obtain rfl := Option.some.inj hs
      exact h.move t (.openSnapshot c) (.inr (by rw [hpc]; rfl)) nofun rfl rfl rfl
    | cons b rest =>
      simp only [Gdr.callStep, hpc] at hs
      split at hs
      · obtain rfl := Option.some.inj hs
        exact h.move t (.openHost c rest) (.inr (by rw [hpc]; rfl)) nofun rfl rfl rfl
      · obtain rfl := Option.some.inj hs
        exact h.move t .idle (.inl rfl) nofun rfl rfl (cleanup_gChannels (h.fresh t c (by rw [hpc]; rfl)).2)
  | openSnapshot c =>
    simp only [Gdr.callStep, hpc] at hs
    obtain rfl := Option.some.inj hs
    exact h.move t _ (.inr (by rw [hpc]; rfl)) (by rintro c ⟨⟩) rfl rfl rfl
  | openDevice c buffers invalid =>
    cases buffers with
    | nil =>
      simp only [Gdr.callStep, hpc] at hs
      obtain rfl := Option.some.inj hs
      exact h.move t (.openErase c invalid) (.inr (by rw [hpc]; rfl)) nofun rfl rfl rfl
    | cons b rest =>
      simp only [Gdr.callStep, hpc] at hs
      obtain rfl := Option.some.inj hs
      exact h.move t _ (.inr (by rw [hpc]; rfl)) (by rintro c ⟨⟩) rfl rfl rfl
  | openErase c invalid =>
    cases invalid with
    | nil =>
      simp only [Gdr.callStep, hpc] at hs
      obtain rfl := Option.some.inj hs
      exact h.move t (.openPublish c) (.inr (by rw [hpc]; rfl)) nofun rfl rfl rfl
    | cons b rest =>
      simp only [Gdr.callStep, hpc] at hs
      obtain rfl := Option.some.inj hs
      exact h.move t (.openErase c rest) (.inr (by rw [hpc]; rfl)) nofun rfl rfl rfl
  | openPublish c =>
    simp only [Gdr.callStep, hpc] at hs
    obtain rfl := Option.some.inj hs
    have hopen : (s.pc t).opening = some c := by rw [hpc]; rfl
    have hleft : ChannelsInv (s.goto t .idle) := h.move t .idle (.inl rfl) nofun rfl rfl rfl
    -- no other thread opens the channel that is published
    refine ⟨?_, ?_, hleft.distinct, fun t' c' hc => List.mem_append_left _ (hleft.held t' c' hc)⟩
    · intro c' hc
      rcases List.mem_append.mp hc with hc | hc
      · exact h.known c' hc
      · rw [List.mem_singleton.mp hc]
        exact (h.fresh t c hopen).1
    · intro t' c' hc
      have hne : t' ≠ t := by
        intro e
        rw [e] at hc
        simp [LibPc.opening] at hc
      have hc' : (s.pc t').opening = some c' := by simpa [hne] using hc
      refine ⟨(h.fresh t' c' hc').1, fun hm => ?_⟩
      rcases List.mem_append.mp hm with hm | hm
      · exact (h.fresh t' c' hc').2 hm
      · rw [List.mem_singleton.mp hm] at hc'
        exact hne (h.distinct t' t c hc' hopen)
  | copying call =>
    simp only [Gdr.callStep, hpc] at hs
    split at hs
    all_goals
      obtain rfl := Option.some.inj hs
      exact h.move t _ (.inl rfl) (fun c hc => h.held t c (by rw [hpc]; exact hc)) rfl rfl rfl
  | foundOne call dst =>
    simp only [Gdr.callStep, hpc] at hs
    split at hs
    all_goals
      obtain rfl := Option.some.inj hs
      exact h.move t _ (.inl rfl) (fun c hc => h.held t c (by rw [hpc]; exact hc)) rfl rfl rfl
  | foundBoth call dst src =>
    simp only [Gdr.callStep, hpc] at hs
    obtain rfl := Option.some.inj hs
    exact h.move t _ (.inl rfl) (by rintro c ⟨⟩) rfl rfl rfl
  | slow call =>
    simp only [Gdr.callStep, hpc] at hs
    obtain rfl := Option.some.inj hs
    rw [slowCopy_eq]
    obtain hp | ⟨dst, src, -, -, hp⟩ := slowPc_cases s call ok ok'
    all_goals
      rw [hp]
      exact h.move t _ (.inl rfl) (by rintro c ⟨⟩) rfl rfl rfl
  | _ =>
    simp only [Gdr.callStep, hpc] at hs
    cases hs

theorem ChannelsInv.step [Fintype ι] {l : LibLabel ι} (h : ChannelsInv s) (hs : libStep s l = some s') : ChannelsInv s' := by
  cases l with
  | register t side addr size =>
    simp only [libStep] at hs
    (repeat' split at hs)
    all_goals first | cases hs; done | skip
    all_goals
      obtain rfl := Option.some.inj hs
      exact h.move t _ (.inl rfl) (by rintro c ⟨⟩) rfl rfl rfl
  | unregister t side addr =>
    simp only [libStep] at hs
    (repeat' split at hs)
    all_goals first | cases hs; done | skip
    all_goals
      obtain rfl := Option.some.inj hs
      exact h.move t _ (.inl rfl) (by rintro c ⟨⟩) rfl rfl rfl
  | «open» t =>
    simp only [libStep] at hs
    split at hs
    · obtain rfl := Option.some.inj hs
      have hbelow : ∀ t c, (s.pc t).opening = some c → c < s.channels := fun t c hc => (h.fresh t c hc).1
      refine ⟨?_, ?_, ?_, ?_⟩
      · intro c hc
        exact Nat.lt_succ_of_lt (h.known c hc)
      · intro t' c hc
        by_cases e : t' = t
        · subst e
          obtain rfl : s.channels = c := by simpa [LibPc.opening] using hc
          exact ⟨Nat.lt_succ_self _, fun hm => Nat.lt_irrefl _ (h.known _ hm)⟩
        · have hc' : (s.pc t').opening = some c := by simpa [e] using hc
          exact ⟨Nat.lt_succ_of_lt (hbelow t' c hc'), (h.fresh t' c hc').2⟩
      · intro t1 t2 c h1 h2
        by_cases e1 : t1 = t
        · by_cases e2 : t2 = t
          · rw [e1, e2]
          · obtain rfl : s.channels = c := by simpa [e1, LibPc.opening] using h1
            exact absurd (hbelow t2 _ (by simpa [e2] using h2)) (Nat.lt_irrefl _)
        · by_cases e2 : t2 = t
          · obtain rfl : s.channels = c := by simpa [e2, LibPc.opening] using h2
            exact absurd (hbelow t1 _ (by simpa [e1] using h1)) (Nat.lt_irrefl _)
          · exact h.distinct t1 t2 c (by simpa [e1] using h1) (by simpa [e2] using h2)
      · intro t' c hc
        by_cases e : t' = t
        · simp [e, LibPc.holds] at hc
        · exact h.held t' c (by simpa [e] using hc)
    · cases hs
  | close c =>
    simp only [libStep] at hs
    split at hs
    · next hclose =>
      obtain rfl := Option.some.inj hs
      refine ⟨?_, ?_, h.distinct, ?_⟩
      · intro c' hc
        exact h.known c' (List.mem_of_mem_filter hc)
      · intro t c' hc
        exact ⟨(h.fresh t c' hc).1, fun hm => (h.fresh t c' hc).2 (List.mem_of_mem_filter hm)⟩
      · intro t c' hc
        refine List.mem_filter.mpr ⟨h.held t c' hc, decide_eq_true fun e => hclose.2 t ?_⟩
        rw [← e]
        exact hc
    · cases hs
  | copy t call =>
    simp only [libStep] at hs
    split at hs
    · next hcopy =>
      obtain rfl := Option.some.inj hs
      have hleft : ChannelsInv (s.goto t .idle) := h.move t .idle (.inl rfl) nofun rfl rfl rfl
      refine ⟨h.known, ?_, ?_, ?_⟩
      · intro t' c hc
        by_cases e : t' = t
        · simp [e, LibPc.opening] at hc
        · exact h.fresh t' c (by simpa [e] using hc)
      · intro t1 t2 c h1 h2
        by_cases e1 : t1 = t
        · simp [e1, LibPc.opening] at h1
        · by_cases e2 : t2 = t
          · simp [e2, LibPc.opening] at h2
          · exact h.distinct t1 t2 c (by simpa [e1] using h1) (by simpa [e2] using h2)
      · intro t' c hc
        by_cases e : t' = t
        · obtain rfl : c = call.channel := by simpa [e, LibPc.holds] using hc
          exact hcopy.2.1
        · exact h.held t' c (by simpa [e] using hc)
    · cases hs
  | pass t ok =>
    simp only [libStep] at hs
    split at hs
    · obtain rfl := Option.some.inj hs
      unfold registerPass
      split
      · exact h.move t .idle (.inl rfl) nofun rfl rfl rfl
      · dsimp only
        split
        · exact h.move t .idle (.inl rfl) nofun rfl rfl rfl
        · exact h.move t _ (.inl rfl) (by intro c hc; exact List.mem_of_mem_filter hc) rfl rfl rfl
    · obtain rfl := Option.some.inj hs
      exact h.move t _ (.inl rfl) (by rintro c ⟨⟩) rfl rfl rfl
    · cases hs
  | step t ok ok' => exact h.callStep hs
  | fail t =>
    simp only [libStep] at hs
    split at hs
    · next c hpc =>
      obtain rfl := Option.some.inj hs
      exact h.move t .idle (.inl rfl) nofun rfl rfl (cleanup_gChannels (h.fresh t c (by rw [hpc]; rfl)).2)
    · cases hs

end Steps

end UnifiedCache.Gdr
