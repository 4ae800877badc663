/-
  UnifiedCache.Infra.IndexPoolRuns — the lock-free pool is a last-in first-out pool (see
  `UnifiedCache.Infra.IndexPool` and `UnifiedCache.Base.Pool`).

  An acquisition takes effect with its exchange of `pointer_`, or with its load where that finds no
  slot; a release takes effect with its exchange. A thread that has been overtaken since its load may
  have read the link of a slot that is no longer free: its exchange then fails, as `pointer_` has
  another count. That needs the count not to come round to the same value in between (`Fair`).

  Proved, for every capacity, any number of threads and every order of the steps:
  (1) `simulation`: calls and returns are those of a last-in first-out pool.
  (2) `index_pool_lifo`: with that, every index is free, taken or being given back by one thread, and is
      only one of these; an acquisition takes one that is not taken, and returns `npos` only if none is
      free; no node outside `nodes_` is used.
  (3) `buffers_apart`: buffers that are out at the same time do not overlap.
-/

import Mathlib.Data.List.Basic
import UnifiedCache.Base.Pool
import UnifiedCache.Infra.IndexPool

namespace UnifiedCache.Infra.IndexPool

open UnifiedCache.Base UnifiedCache.Base.Pool

variable {T : Type} {cfg : Config} {kind : Kind} {s s' : State T} {t u : T} {l : List Nat}

/-! ## The invariant -/

/-- The slot that a thread gives back. -/
def Pc.slot? : Pc → Option Nat
  | .releasing slot | .aimed slot _ _ | .stored slot _ _ => some slot
  | _ => none

/-- What a thread has loaded is what `pointer_` was at that count, and still is at the same count. -/
structure Loaded (s : State T) (ptr : Pointer) (stamp : Nat) : Prop where
  before : stamp ≤ s.updates
  ver : ptr.ver = UInt32.ofNat stamp
  same : stamp = s.updates → ptr = s.pointer

/-- What a thread knows. -/
def At (cfg : Config) (s : State T) : Pc → Prop
  | .loaded ptr stamp => Loaded s ptr stamp ∧ 0 < ptr.slot ∧ ptr.slot ≤ cfg.capacity
  | .linked ptr next stamp => Loaded s ptr stamp ∧ 0 < ptr.slot ∧ ptr.slot ≤ cfg.capacity ∧
      (stamp = s.updates → next = s.next ptr.slot)
  | .aimed _ ptr stamp => Loaded s ptr stamp
  | .stored slot ptr stamp => Loaded s ptr stamp ∧ s.next slot = ptr.slot
  | .refused idx => cfg.capacity ≤ idx
  | .idle | .acquiring | .acquired _ | .releasing _ | .released => True

/-- The free slots are `l`. -/
structure Inv (cfg : Config) (s : State T) (l : List Nat) : Prop where
  chained : Chained s.next 0 s.pointer.slot l
  nodup : l.Nodup
  free : ∀ slot ∈ l, 0 < slot ∧ slot ≤ cfg.capacity ∧ s.taken (slot - 1) = false
  limbo : ∀ t, ∀ slot ∈ (s.pc t).slot?, 0 < slot ∧ slot ≤ cfg.capacity ∧ s.taken (slot - 1) = false ∧ slot ∉ l
  apart : ∀ t u, ∀ slot ∈ (s.pc t).slot?, slot ∈ (s.pc u).slot? → t = u
  whole : ∀ slot, 0 < slot → slot ≤ cfg.capacity → slot ∈ l ∨ s.taken (slot - 1) = true ∨ ∃ t, slot ∈ (s.pc t).slot?
  ver : s.pointer.ver = UInt32.ofNat s.updates
  thread : ∀ t, At cfg s (s.pc t)

theorem setup_chained (cfg : Config) (n : Nat) (hn : n ≤ cfg.capacity) :
    Chained (setupNext cfg.capacity) 0 (if n = 0 then 0 else cfg.capacity + 1 - n) (List.range' (cfg.capacity + 1 - n) n) := by
  induction n with
  | zero => rfl
  | succ n ih =>
    rw [if_neg (Nat.succ_ne_zero n), List.range'_succ]
    refine ⟨rfl, by omega, ?_⟩
    have hnext : setupNext cfg.capacity (cfg.capacity + 1 - (n + 1)) = if n = 0 then 0 else cfg.capacity + 1 - n := by
      unfold setupNext
      by_cases hzero : n = 0
      · rw [if_pos hzero, if_neg (by omega)]
      · rw [if_neg hzero, if_pos (by omega)]
        omega
    rw [hnext, show cfg.capacity + 1 - (n + 1) + 1 = cfg.capacity + 1 - n by omega]
    exact ih (by omega)

theorem initial_inv (cfg : Config) : Inv cfg (initial T cfg) (List.range' 1 cfg.capacity) where
  chained := by
    have hchain := setup_chained cfg cfg.capacity (Nat.le_refl _)
    have hpos := cfg.capacity_pos
    rw [if_neg (by omega), Nat.add_sub_cancel_left] at hchain
    exact hchain
  nodup := List.nodup_range'
  free slot hslot := by
    rw [List.mem_range'_1] at hslot
    exact ⟨by omega, by omega, rfl⟩
  limbo t slot hslot := by cases hslot
  apart t u slot hslot := by cases hslot
  whole slot hpos hle := .inl (List.mem_range'_1.mpr ⟨by omega, by omega⟩)
  ver := rfl
  thread t := trivial

namespace Loaded

variable {ptr : Pointer} {stamp : Nat}

/-- A thread loads `pointer_`. -/
theorem now (hver : s.pointer.ver = UInt32.ofNat s.updates) : Loaded s s.pointer s.updates := ⟨Nat.le_refl _, hver, fun _ => rfl⟩

/-- After a change of `pointer_` no thread has the latest count. -/
theorem later (h : Loaded s ptr stamp) (hup : s'.updates = s.updates + 1) : Loaded s' ptr stamp := by
  have hle := h.before
  exact ⟨by omega, h.ver, fun heq => by omega⟩

theorem congr (h : Loaded s ptr stamp) (hup : s'.updates = s.updates) (hptr : s'.pointer = s.pointer) : Loaded s' ptr stamp :=
  ⟨hup ▸ h.before, h.ver, fun heq => hptr ▸ h.same (hup ▸ heq)⟩

/-- An exchange that succeeds was prepared at the latest count. -/
theorem current (h : Loaded s ptr stamp) (hver : s.pointer.ver = UInt32.ofNat s.updates) (hfair : s.updates < stamp + 2 ^ 32)
    (heq : ptr = s.pointer) : stamp = s.updates := by
  have hbefore := h.before
  have hvers : UInt32.ofNat stamp = UInt32.ofNat s.updates := by rw [← h.ver, heq, hver]
  have hmod : stamp % 2 ^ 32 = s.updates % 2 ^ 32 := by
    have htoNat := congrArg UInt32.toNat hvers
    rwa [UInt32.toNat_ofNat', UInt32.toNat_ofNat'] at htoNat
  omega

end Loaded

namespace At

variable {pc : Pc}

/-- A step that leaves `pointer_` and the links as they are. -/
theorem congr (h : At cfg s pc) (hup : s'.updates = s.updates) (hptr : s'.pointer = s.pointer) (hnext : s'.next = s.next) :
    At cfg s' pc := by
  cases pc with
  | loaded ptr stamp => exact ⟨h.1.congr hup hptr, h.2⟩
  | linked ptr next stamp =>
    obtain ⟨hload, hpos, hle, hlink⟩ := h
    exact ⟨hload.congr hup hptr, hpos, hle, fun heq => hnext ▸ hlink (hup ▸ heq)⟩
  | aimed slot ptr stamp => exact Loaded.congr h hup hptr
  | stored slot ptr stamp => exact ⟨h.1.congr hup hptr, hnext ▸ h.2⟩
  | refused idx => exact h
  | idle | acquiring | acquired | releasing | released => exact trivial

/-- A change of `pointer_`. -/
theorem later (h : At cfg s pc) (hup : s'.updates = s.updates + 1) (hnext : s'.next = s.next) : At cfg s' pc := by
  cases pc with
  | loaded ptr stamp => exact ⟨h.1.later hup, h.2⟩
  | linked ptr next stamp =>
    obtain ⟨hload, hpos, hle, _⟩ := h
    have hbefore := hload.before
    exact ⟨hload.later hup, hpos, hle, fun heq => by omega⟩
  | aimed slot ptr stamp => exact Loaded.later h hup
  | stored slot ptr stamp => exact ⟨h.1.later hup, hnext ▸ h.2⟩
  | refused idx => exact h
  | idle | acquiring | acquired | releasing | released => exact trivial

/-- A write of the link of a slot that is not the first free one, nor another thread's. -/
theorem store (h : At cfg s pc) {slot : Nat} (hfirst : s.pointer.slot ≠ slot) (hother : slot ∉ pc.slot?) (value : Nat)
    (hs' : s' = { s with next := Function.update s.next slot value, pc := s'.pc }) : At cfg s' pc := by
  have hup : s'.updates = s.updates := by rw [hs']
  have hptr : s'.pointer = s.pointer := by rw [hs']
  have hnext : s'.next = Function.update s.next slot value := by rw [hs']
  cases pc with
  | loaded ptr stamp => exact ⟨h.1.congr hup hptr, h.2⟩
  | linked ptr next stamp =>
    obtain ⟨hload, hpos, hle, hlink⟩ := h
    refine ⟨hload.congr hup hptr, hpos, hle, fun heq => ?_⟩
    have hsame : ptr = s.pointer := hload.same (hup ▸ heq)
    rw [hnext, Function.update_of_ne (hsame ▸ hfirst)]
    exact hlink (hup ▸ heq)
  | aimed slot' ptr stamp => exact Loaded.congr h hup hptr
  | stored slot' ptr stamp =>
    refine ⟨h.1.congr hup hptr, ?_⟩
    have hne : slot' ≠ slot := fun heq => hother (heq ▸ rfl)
    rw [hnext, Function.update_of_ne hne]
    exact h.2
  | refused idx => exact h
  | idle | acquiring | acquired | releasing | released => exact trivial

end At

namespace Inv

variable {pc : Pc}

/-- The first free slot, where there is one. -/
theorem first (h : Inv cfg s l) (hne : s.pointer.slot ≠ 0) :
    ∃ rest, l = s.pointer.slot :: rest ∧ Chained s.next 0 (s.next s.pointer.slot) rest := h.chained.cons hne

theorem first_mem (h : Inv cfg s l) (hne : s.pointer.slot ≠ 0) : s.pointer.slot ∈ l := by
  obtain ⟨rest, heq, _⟩ := h.first hne
  rw [heq]
  exact List.mem_cons_self

/-- A slot that is given back is not the first free one. -/
theorem first_ne (h : Inv cfg s l) {slot : Nat} (hslot : slot ∈ (s.pc t).slot?) : s.pointer.slot ≠ slot := by
  intro heq
  obtain ⟨hpos, _, _, hnot⟩ := h.limbo t slot hslot
  exact hnot (heq ▸ h.first_mem (by omega))

variable [DecidableEq T]

/-- A thread goes on, and gives back what it gave back. -/
theorem setPc (h : Inv cfg s l) (hat : At cfg s pc) (hslot : pc.slot? = (s.pc t).slot?) : Inv cfg (s.setPc t pc) l := by
  have hslots : ∀ u, ((s.setPc t pc).pc u).slot? = (s.pc u).slot? := by
    intro u
    by_cases heq : u = t
    · rw [heq, State.setPc_self, hslot]
    · rw [State.setPc_of_ne s heq]
  refine
    { chained := h.chained
      nodup := h.nodup
      free := h.free
      limbo := fun u slot hmem => h.limbo u slot (hslots u ▸ hmem)
      apart := fun u v slot hu hv => h.apart u v slot (hslots u ▸ hu) (hslots v ▸ hv)
      whole := fun slot hpos hle => ?_
      ver := h.ver
      thread := fun u => ?_ }
  · simp only [hslots]
    exact h.whole slot hpos hle
  · by_cases heq : u = t
    · rw [heq, State.setPc_self]
      exact hat.congr rfl rfl rfl
    · rw [State.setPc_of_ne s heq]
      exact (h.thread u).congr rfl rfl rfl

/-- The load of `pointer_` by `Acquire`. -/
theorem loads (h : Inv cfg s l) (hpc : s.pc t = .acquiring) :
    Inv cfg (s.setPc t (if s.pointer.slot = 0 then .acquired none else .loaded s.pointer s.updates)) l := by
  by_cases hzero : s.pointer.slot = 0
  · rw [if_pos hzero]
    exact h.setPc trivial (by rw [hpc]; rfl)
  · rw [if_neg hzero]
    obtain ⟨hpos, hle, _⟩ := h.free _ (h.first_mem hzero)
    exact h.setPc ⟨.now h.ver, hpos, hle⟩ (by rw [hpc]; rfl)

/-- The read of the link. -/
theorem reads (h : Inv cfg s l) {ptr : Pointer} {stamp : Nat} (hpc : s.pc t = .loaded ptr stamp) :
    Inv cfg (s.setPc t (.linked ptr (s.next ptr.slot) stamp)) l := by
  have hat := h.thread t
  rw [hpc] at hat
  obtain ⟨hload, hpos, hle⟩ := hat
  exact h.setPc ⟨hload, hpos, hle, fun _ => rfl⟩ (by rw [hpc]; rfl)

/-- The exchange of `Acquire`. -/
theorem takes (h : Inv cfg s l) {ptr : Pointer} {next stamp : Nat} (hpc : s.pc t = .linked ptr next stamp)
    (hfair : s.updates < stamp + 2 ^ 32) (hptr : ptr = s.pointer) (got : Option Nat) :
    ∃ rest, l = ptr.slot :: rest ∧
      Inv cfg ({ s with pointer := ⟨next, ptr.ver + 1⟩, updates := s.updates + 1,
                        taken := Function.update s.taken (ptr.slot - 1) true }.setPc t (.acquired got)) rest := by
  have hat := h.thread t
  rw [hpc] at hat
  obtain ⟨hload, hpos, hle, hlink⟩ := hat
  have hnext := hlink (hload.current h.ver hfair hptr)
  obtain ⟨rest, hl, hrest⟩ := h.first (hptr ▸ Nat.ne_of_gt hpos)
  rw [← hptr] at hl hrest
  subst hl
  obtain ⟨hnot, hnodup⟩ := List.nodup_cons.mp h.nodup
  -- another slot keeps its mark
  have hkeep : ∀ slot, 0 < slot → slot ≠ ptr.slot → Function.update s.taken (ptr.slot - 1) true (slot - 1) = s.taken (slot - 1) :=
    fun slot hs hne => Function.update_of_ne (by omega) _ _
  refine ⟨rest, rfl, ?_⟩
  refine
    { chained := ?_
      nodup := hnodup
      free := fun slot hmem => ?_
      limbo := fun u slot hmem => ?_
      apart := fun u v slot hu hv => ?_
      whole := fun slot hs hcap => ?_
      ver := ?_
      thread := fun u => ?_ }
  · change Chained s.next 0 next rest
    rw [hnext]
    exact hrest
  · obtain ⟨hs, hcap, hfree⟩ := h.free slot (List.mem_cons_of_mem _ hmem)
    exact ⟨hs, hcap, (hkeep slot hs fun heq => hnot (heq ▸ hmem)).trans hfree⟩
  · by_cases heq : u = t
    · rw [heq, State.setPc_self] at hmem
      cases hmem
    · rw [State.setPc_of_ne _ heq] at hmem
      obtain ⟨hs, hcap, hfree, hout⟩ := h.limbo u slot hmem
      have hne : slot ≠ ptr.slot := fun heq => hout (heq ▸ List.mem_cons_self)
      exact ⟨hs, hcap, (hkeep slot hs hne).trans hfree, fun hin => hout (List.mem_cons_of_mem _ hin)⟩
  · by_cases hut : u = t
    · rw [hut, State.setPc_self] at hu
      cases hu
    · by_cases hvt : v = t
      · rw [hvt, State.setPc_self] at hv
        cases hv
      · rw [State.setPc_of_ne _ hut] at hu
        rw [State.setPc_of_ne _ hvt] at hv
        exact h.apart u v slot hu hv
  · by_cases heq : slot = ptr.slot
    · right
      left
      rw [heq]
      exact Function.update_self ..
    · rcases h.whole slot hs hcap with hin | htaken | ⟨u, hu⟩
      · exact .inl ((List.mem_cons.mp hin).resolve_left heq)
      · right
        left
        exact (hkeep slot hs heq).trans htaken
      · refine .inr (.inr ⟨u, ?_⟩)
        have hut : u ≠ t := by
          rintro rfl
          rw [hpc] at hu
          cases hu
        rw [State.setPc_of_ne _ hut]
        exact hu
  · change ptr.ver + 1 = UInt32.ofNat (s.updates + 1)
    rw [hptr, h.ver, UInt32.ofNat_add]
    rfl
  · by_cases heq : u = t
    · rw [heq, State.setPc_self]
      exact trivial
    · rw [State.setPc_of_ne _ heq]
      exact (h.thread u).later rfl rfl

/-- The write of the link. -/
theorem links (h : Inv cfg s l) {slot : Nat} {ptr : Pointer} {stamp : Nat} (hpc : s.pc t = .aimed slot ptr stamp) :
    Inv cfg ({ s with next := Function.update s.next slot ptr.slot }.setPc t (.stored slot ptr stamp)) l := by
  have hat := h.thread t
  rw [hpc] at hat
  have hslot : slot ∈ (s.pc t).slot? := by
    rw [hpc]
    rfl
  have hout := (h.limbo t slot hslot).2.2.2
  have hslots : ∀ u,
      ((({ s with next := Function.update s.next slot ptr.slot } : State T).setPc t (.stored slot ptr stamp)).pc u).slot? =
      (s.pc u).slot? := by
    intro u
    by_cases heq : u = t
    · rw [heq, State.setPc_self, hpc]
      rfl
    · rw [State.setPc_of_ne _ heq]
  refine
    { chained := h.chained.congr fun j hj => ?_
      nodup := h.nodup
      free := h.free
      limbo := fun u slot' hmem => h.limbo u slot' (hslots u ▸ hmem)
      apart := fun u v slot' hu hv => h.apart u v slot' (hslots u ▸ hu) (hslots v ▸ hv)
      whole := fun slot' hs hcap => ?_
      ver := h.ver
      thread := fun u => ?_ }
  · have hne : j ≠ slot := fun heq => hout (heq ▸ hj)
    exact Function.update_of_ne hne _ _
  · simp only [hslots]
    exact h.whole slot' hs hcap
  · by_cases heq : u = t
    · rw [heq, State.setPc_self]
      exact ⟨Loaded.congr hat rfl rfl, Function.update_self ..⟩
    · rw [State.setPc_of_ne _ heq]
      exact (h.thread u).store (h.first_ne hslot) (fun hu => heq (h.apart u t slot hu hslot)) ptr.slot rfl

/-- The exchange of `Release`. -/
theorem gives (h : Inv cfg s l) {slot : Nat} {ptr : Pointer} {stamp : Nat} (hpc : s.pc t = .stored slot ptr stamp)
    (hptr : ptr = s.pointer) :
    Inv cfg ({ s with pointer := ⟨slot, ptr.ver + 1⟩, updates := s.updates + 1 }.setPc t .released) (slot :: l) := by
  have hat := h.thread t
  rw [hpc] at hat
  obtain ⟨_, hlink⟩ := hat
  have hslot : slot ∈ (s.pc t).slot? := by
    rw [hpc]
    rfl
  obtain ⟨hpos, hle, hfree, hout⟩ := h.limbo t slot hslot
  refine
    { chained := ?_
      nodup := List.nodup_cons.mpr ⟨hout, h.nodup⟩
      free := fun slot' hmem => ?_
      limbo := fun u slot' hmem => ?_
      apart := fun u v slot' hu hv => ?_
      whole := fun slot' hs hcap => ?_
      ver := ?_
      thread := fun u => ?_ }
  · refine Chained.push ?_ (Nat.ne_of_gt hpos)
    change Chained s.next 0 (s.next slot) l
    rw [hlink, hptr]
    exact h.chained
  · rcases List.mem_cons.mp hmem with heq | hmem
    · rw [heq]
      exact ⟨hpos, hle, hfree⟩
    · exact h.free slot' hmem
  · by_cases heq : u = t
    · rw [heq, State.setPc_self] at hmem
      cases hmem
    · rw [State.setPc_of_ne _ heq] at hmem
      obtain ⟨hs, hcap, hf, hnot⟩ := h.limbo u slot' hmem
      refine ⟨hs, hcap, hf, fun hin => ?_⟩
      rcases List.mem_cons.mp hin with hsame | hin
      · exact heq (h.apart u t slot (hsame ▸ hmem) hslot)
      · exact hnot hin
  · by_cases hut : u = t
    · rw [hut, State.setPc_self] at hu
      cases hu
    · by_cases hvt : v = t
      · rw [hvt, State.setPc_self] at hv
        cases hv
      · rw [State.setPc_of_ne _ hut] at hu
        rw [State.setPc_of_ne _ hvt] at hv
        exact h.apart u v slot' hu hv
  · rcases h.whole slot' hs hcap with hin | htaken | ⟨u, hu⟩
    · exact .inl (List.mem_cons_of_mem _ hin)
    · exact .inr (.inl htaken)
    · by_cases heq : u = t
      · rw [heq, hpc] at hu
        left
        rw [← Option.mem_some_iff.mp hu]
        exact List.mem_cons_self
      · refine .inr (.inr ⟨u, ?_⟩)
        rw [State.setPc_of_ne _ heq]
        exact hu
  · change ptr.ver + 1 = UInt32.ofNat (s.updates + 1)
    rw [hptr, h.ver, UInt32.ofNat_add]
    rfl
  · by_cases heq : u = t
    · rw [heq, State.setPc_self]
      exact trivial
    · rw [State.setPc_of_ne _ heq]
      exact (h.thread u).later rfl rfl

/-- A call of `Release` for what is taken. -/
theorem returns (h : Inv cfg s l) {idx : Nat} (hpc : s.pc t = .idle) (hlt : idx < cfg.capacity) (htaken : s.taken idx = true) :
    Inv cfg ({ s with taken := Function.update s.taken idx false }.setPc t (.releasing (idx + 1))) l := by
  -- no thread gives back what is taken, and it is not free
  have hkeep : ∀ slot, 0 < slot → s.taken (slot - 1) = false → slot ≠ idx + 1 := by
    rintro slot hpos hfree rfl
    rw [Nat.add_sub_cancel, htaken] at hfree
    cases hfree
  have hupd : ∀ slot, 0 < slot → slot ≠ idx + 1 → Function.update s.taken idx false (slot - 1) = s.taken (slot - 1) :=
    fun slot hpos hne => Function.update_of_ne (by omega) _ _
  have hfresh : ∀ u, idx + 1 ∉ (s.pc u).slot? := fun u hu => hkeep _ (Nat.succ_pos idx) (h.limbo u _ hu).2.2.1 rfl
  refine
    { chained := h.chained
      nodup := h.nodup
      free := fun slot hmem => ?_
      limbo := fun u slot hmem => ?_
      apart := fun u v slot hu hv => ?_
      whole := fun slot hs hcap => ?_
      ver := h.ver
      thread := fun u => ?_ }
  · obtain ⟨hs, hcap, hfree⟩ := h.free slot hmem
    exact ⟨hs, hcap, (hupd slot hs (hkeep slot hs hfree)).trans hfree⟩
  · by_cases heq : u = t
    · rw [heq, State.setPc_self] at hmem
      obtain rfl := Option.mem_some_iff.mp hmem
      refine ⟨Nat.succ_pos idx, hlt, Function.update_self .., fun hin => ?_⟩
      exact hkeep _ (Nat.succ_pos idx) (h.free _ hin).2.2 rfl
    · rw [State.setPc_of_ne _ heq] at hmem
      obtain ⟨hs, hcap, hfree, hnot⟩ := h.limbo u slot hmem
      exact ⟨hs, hcap, (hupd slot hs (hkeep slot hs hfree)).trans hfree, hnot⟩
  · by_cases hut : u = t
    · by_cases hvt : v = t
      · rw [hut, hvt]
      · rw [hut, State.setPc_self] at hu
        rw [State.setPc_of_ne _ hvt] at hv
        exact absurd (Option.mem_some_iff.mp hu ▸ hv) (hfresh v)
    · rw [State.setPc_of_ne _ hut] at hu
      by_cases hvt : v = t
      · rw [hvt, State.setPc_self] at hv
        exact absurd (Option.mem_some_iff.mp hv ▸ hu) (hfresh u)
      · rw [State.setPc_of_ne _ hvt] at hv
        exact h.apart u v slot hu hv
  · by_cases hslot : slot = idx + 1
    · refine .inr (.inr ⟨t, ?_⟩)
      rw [State.setPc_self, hslot]
      exact Option.mem_some_self _
    · rcases h.whole slot hs hcap with hin | hmark | ⟨u, hu⟩
      · exact .inl hin
      · exact .inr (.inl ((hupd slot hs hslot).trans hmark))
      · refine .inr (.inr ⟨u, ?_⟩)
        have hut : u ≠ t := by
          rintro rfl
          rw [hpc] at hu
          cases hu
        rw [State.setPc_of_ne _ hut]
        exact hu
  · by_cases heq : u = t
    · rw [heq, State.setPc_self]
      exact trivial
    · rw [State.setPc_of_ne _ heq]
      exact (h.thread u).congr rfl rfl rfl

end Inv

/-! ## The pool it is -/

/-- Calls and returns. -/
def see (s : State T) : Label T → Option (Pool.Event T Nat)
  | .acquire t => some (.take t)
  | .release t idx => some (.give t idx)
  | .step t _ =>
    match s.pc t with
    | .acquired got => some (.took t got)
    | .released => some (.gave t)
    | _ => none

def Pc.call : Pc → Pool.Call Nat
  | .idle => .idle
  | .acquiring | .loaded _ _ | .linked _ _ _ => .taking
  | .acquired got => .took got
  | .releasing slot | .aimed slot _ _ | .stored slot _ _ => .giving (slot - 1)
  | .refused idx => .giving idx
  | .released => .gave

/-- The indices of the free slots. -/
def indices (l : List Nat) : List Nat := l.map (· - 1)

def State.pool (s : State T) (l : List Nat) : Pool.State T Nat := ⟨indices l, Pc.call ∘ s.pc⟩

/-- An index of the pool. -/
def mine (cfg : Config) (idx : Nat) : Bool := decide (idx < cfg.capacity)

/-- The pool when nothing is taken. -/
def allFree (cfg : Config) : List Nat := indices (List.range' 1 cfg.capacity)

theorem pool_call {c : Pc} (hpc : s.pc t = c) : (s.pool l).call t = c.call := congrArg Pc.call hpc

variable [DecidableEq T]

theorem pool_setPc (s : State T) (t : T) (pc : Pc) (l : List Nat) :
    (s.setPc t pc).pool l = ⟨indices l, Function.update (s.pool l).call t pc.call⟩ := by
  unfold State.pool State.setPc
  rw [Function.comp_update]

/-- The pool follows a step, in at most one step of its own. -/
def Follows (cfg : Config) (s : State T) (l : List Nat) (a : Label T) (s' : State T) : Prop :=
  ∃ b l', Inv cfg s' l' ∧ replay (Pool.sys T (mine cfg) (allFree cfg)) (s.pool l) b = some (s'.pool l') ∧
    trace (Pool.sys T (mine cfg) (allFree cfg)) Pool.see (s.pool l) b = (see s a).toList

section Follows

variable {l' : List Nat} {a : Label T}

theorem follows_silent (h : Inv cfg s' l) (hsame : s'.pool l = s.pool l) (hsee : see s a = none) : Follows cfg s l a s' := by
  refine ⟨[], l, h, ?_, ?_⟩
  · rw [hsame]
    rfl
  · rw [hsee]
    rfl

theorem follows_step (b : Pool.Label T Nat) (h : Inv cfg s' l') (hstep : Pool.step (mine cfg) (s.pool l) b = some (s'.pool l'))
    (hsee : Pool.see (s.pool l) b = see s a) : Follows cfg s l a s' := by
  refine ⟨[b], l', h, replay_single hstep, ?_⟩
  rw [trace_single (by exact hstep), hsee]

/-- A thread goes on within its call. -/
theorem pool_same {pc : Pc} (hcall : pc.call = (s.pc t).call) : (s.setPc t pc).pool l = s.pool l := by
  rw [pool_setPc, hcall]
  exact congrArg (Pool.State.mk (indices l)) (Function.update_eq_self t (s.pool l).call)

theorem acquire_follows (h : Inv cfg s l) (hstep : callAcquire s t = some s') : Follows cfg s l (.acquire t) s' := by
  unfold callAcquire at hstep
  cases hpc : s.pc t with
  | idle =>
    rw [hpc] at hstep
    obtain rfl := Option.some.inj hstep
    refine follows_step (.take t) (h.setPc trivial (by rw [hpc]; rfl)) ?_ rfl
    rw [pool_setPc, Pool.step, pool_call hpc]
    rfl
  | _ =>
    rw [hpc] at hstep
    cases hstep

theorem release_follows (h : Inv cfg s l) {idx : Nat} (hfair : idx < cfg.capacity → s.taken idx = true)
    (hstep : callRelease cfg s t idx = some s') : Follows cfg s l (.release t idx) s' := by
  unfold callRelease at hstep
  cases hpc : s.pc t with
  | idle =>
    rw [hpc] at hstep
    by_cases hle : cfg.capacity ≤ idx
    · simp only [hle, if_true] at hstep
      obtain rfl := Option.some.inj hstep
      refine follows_step (.give t idx) (h.setPc hle (by rw [hpc]; rfl)) ?_ rfl
      rw [pool_setPc, Pool.step, pool_call hpc]
      rfl
    · simp only [hle, if_false] at hstep
      obtain rfl := Option.some.inj hstep
      have hlt : idx < cfg.capacity := Nat.lt_of_not_le hle
      refine follows_step (.give t idx) (h.returns hpc hlt (hfair hlt)) ?_ rfl
      rw [pool_setPc, Pool.step, pool_call hpc]
      rfl
  | _ =>
    rw [hpc] at hstep
    cases hstep

theorem thread_follows (h : Inv cfg s l) {weak : Bool} (hfair : Fair cfg s (.step t weak))
    (hstep : threadStep cfg kind s t weak = some s') : Follows cfg s l (.step t weak) s' := by
  have hat := h.thread t
  unfold threadStep at hstep
  cases hpc : s.pc t with
  | idle =>
    rw [hpc] at hstep
    cases hstep
  | acquiring =>
    rw [hpc] at hstep
    obtain rfl := Option.some.inj hstep
    have hinv := h.loads hpc
    by_cases hzero : s.pointer.slot = 0
    · -- nothing is free: the call has failed here
      rw [if_pos hzero] at hinv
      simp only [hzero, if_true]
      obtain rfl := h.chained.nil_iff.mpr hzero
      refine follows_step (.deny t) hinv ?_ (by simp only [see, hpc, Pool.see])
      rw [pool_setPc, Pool.step, pool_call hpc]
      rfl
    · rw [if_neg hzero] at hinv
      simp only [hzero, if_false]
      exact follows_silent hinv (pool_same (by rw [hpc]; rfl)) (by simp only [see, hpc])
  | loaded ptr stamp =>
    rw [hpc] at hstep
    obtain rfl := Option.some.inj hstep
    exact follows_silent (h.reads hpc) (pool_same (by rw [hpc]; rfl)) (by simp only [see, hpc])
  | linked ptr next stamp =>
    rw [hpc] at hstep hat
    by_cases hexchange : ptr = s.pointer ∧ weak = false
    · simp only [hexchange, and_self, if_true] at hstep
      obtain rfl := Option.some.inj hstep
      have hstamp : s.updates < stamp + 2 ^ 32 := hfair stamp (by rw [hpc]; exact Option.mem_some_self _)
      obtain ⟨hload, hpos, hle, _⟩ := hat
      have hidx : kind.idx cfg.capacity ptr.slot = ptr.slot - 1 := by
        cases kind with
        | indexPool => rfl
        | indexer => exact if_pos ⟨hpos, hle⟩
      rw [← hexchange.1, hidx]
      obtain ⟨rest, rfl, hinv⟩ := h.takes hpc hstamp hexchange.1 (some (ptr.slot - 1))
      refine follows_step (.serve t) hinv ?_ (by simp only [see, hpc, Pool.see])
      rw [pool_setPc, Pool.step, pool_call hpc]
      rfl
    · simp only [hexchange, if_false] at hstep
      obtain rfl := Option.some.inj hstep
      exact follows_silent (h.setPc trivial (by rw [hpc]; rfl)) (pool_same (by rw [hpc]; rfl)) (by simp only [see, hpc])
  | acquired got =>
    rw [hpc] at hstep
    obtain rfl := Option.some.inj hstep
    refine follows_step (.took t) (h.setPc trivial (by rw [hpc]; rfl)) ?_ ?_
    · rw [pool_setPc, Pool.step, pool_call hpc]
      rfl
    · rw [Pool.see, pool_call hpc]
      simp only [see, hpc, Pc.call]
  | releasing slot =>
    rw [hpc] at hstep
    obtain rfl := Option.some.inj hstep
    exact follows_silent (h.setPc (Loaded.now h.ver) (by rw [hpc]; rfl)) (pool_same (by rw [hpc]; rfl)) (by simp only [see, hpc])
  | aimed slot ptr stamp =>
    rw [hpc] at hstep
    obtain rfl := Option.some.inj hstep
    exact follows_silent (h.links hpc) (pool_same (by rw [hpc]; rfl)) (by simp only [see, hpc])
  | stored slot ptr stamp =>
    rw [hpc] at hstep
    by_cases hexchange : ptr = s.pointer ∧ weak = false
    · simp only [hexchange, and_self, if_true] at hstep
      obtain rfl := Option.some.inj hstep
      have hslot : slot ∈ (s.pc t).slot? := by
        rw [hpc]
        rfl
      obtain ⟨hpos, hle, _⟩ := h.limbo t slot hslot
      have hmine : mine cfg (slot - 1) = true := decide_eq_true (by omega)
      rw [← hexchange.1]
      refine follows_step (.accept t) (h.gives hpc hexchange.1) ?_ (by simp only [see, hpc, Pool.see])
      rw [pool_setPc, Pool.step, pool_call hpc]
      simp only [Pc.call, hmine, if_true]
      rfl
    · simp only [hexchange, if_false] at hstep
      obtain rfl := Option.some.inj hstep
      exact follows_silent (h.setPc trivial (by rw [hpc]; rfl)) (pool_same (by rw [hpc]; rfl)) (by simp only [see, hpc])
  | refused idx =>
    rw [hpc] at hstep hat
    obtain rfl := Option.some.inj hstep
    have hmine : mine cfg idx = false := decide_eq_false (Nat.not_lt_of_le hat)
    refine follows_step (.ignore t) (h.setPc trivial (by rw [hpc]; rfl)) ?_ (by simp only [see, hpc, Pool.see])
    rw [pool_setPc, Pool.step, pool_call hpc]
    simp only [Pc.call, hmine, Bool.false_eq_true, if_false]
    rfl
  | released =>
    rw [hpc] at hstep
    obtain rfl := Option.some.inj hstep
    refine follows_step (.gave t) (h.setPc trivial (by rw [hpc]; rfl)) ?_ (by simp only [see, hpc, Pool.see])
    rw [pool_setPc, Pool.step, pool_call hpc]
    rfl

theorem step_follows (h : Inv cfg s l) (hfair : Fair cfg s a) (hstep : step cfg kind s a = some s') : Follows cfg s l a s' := by
  cases a with
  | acquire t => exact acquire_follows h hstep
  | release t idx => exact release_follows h hfair hstep
  | step t weak => exact thread_follows h hfair hstep

end Follows

theorem simulation :
    Simulation ((sys T cfg kind).within (Fair cfg)) see (Pool.sys T (mine cfg) (allFree cfg)) Pool.see
      (fun s p => ∃ l, Inv cfg s l ∧ p = s.pool l) where
  init s hs := by
    obtain rfl : s = initial T cfg := hs
    exact ⟨Pool.full T (allFree cfg), rfl, _, initial_inv cfg, rfl⟩
  step s p a s' hR hstep := by
    obtain ⟨l, hinv, rfl⟩ := hR
    obtain ⟨hfair, hstep⟩ := within_step.mp hstep
    obtain ⟨b, l', hinv', hrun, htrace⟩ := step_follows hinv hfair hstep
    exact ⟨b, s'.pool l', hrun, htrace, l', hinv', rfl⟩

/-! ## Where an index is -/

/-- Every index of the pool is in `free`, taken, or being given back, and in one of these once. -/
structure Partition (cfg : Config) (s : State T) (free : List Nat) : Prop where
  free_nodup : free.Nodup
  free_of_mem : ∀ idx ∈ free, idx < cfg.capacity ∧ s.taken idx = false ∧ ∀ t, idx + 1 ∉ (s.pc t).slot?
  giving : ∀ t idx, idx + 1 ∈ (s.pc t).slot? → idx < cfg.capacity ∧ s.taken idx = false ∧ ∀ u, idx + 1 ∈ (s.pc u).slot? → u = t
  covered : ∀ idx, idx < cfg.capacity → idx ∈ free ∨ s.taken idx = true ∨ ∃ t, idx + 1 ∈ (s.pc t).slot?

/-- What a step of a thread takes was free, and it returns `npos` only if nothing was. -/
structure Acquires (cfg : Config) (kind : Kind) (s : State T) (free : List Nat) : Prop where
  taken : ∀ t weak s' idx, s.pc t ≠ .acquired (some idx) → threadStep cfg kind s t weak = some s' → Fair cfg s (.step t weak) →
    s'.pc t = .acquired (some idx) → free.head? = some idx ∧ s'.taken = Function.update s.taken idx true
  npos : ∀ t weak s', s.pc t ≠ .acquired none → threadStep cfg kind s t weak = some s' → s'.pc t = .acquired none → free = []
  /-- The node whose link is read. -/
  node : ∀ t ptr stamp, s.pc t = .loaded ptr stamp → ptr.slot ≤ cfg.capacity

omit [DecidableEq T] in
theorem mem_indices (hpos : ∀ slot ∈ l, 0 < slot) {idx : Nat} : idx ∈ indices l ↔ idx + 1 ∈ l := by
  unfold indices
  constructor
  · intro h
    obtain ⟨slot, hmem, rfl⟩ := List.mem_map.mp h
    rwa [Nat.sub_add_cancel (hpos slot hmem)]
  · intro h
    exact List.mem_map.mpr ⟨idx + 1, h, rfl⟩

omit [DecidableEq T] in
theorem Inv.partition (h : Inv cfg s l) : Partition cfg s (indices l) := by
  have hpos : ∀ slot ∈ l, 0 < slot := fun slot hmem => (h.free slot hmem).1
  refine ⟨?_, fun idx hmem => ?_, fun t idx hidx => ?_, fun idx hlt => ?_⟩
  · refine h.nodup.map_on fun a ha b hb heq => ?_
    have ha' := hpos a ha
    have hb' := hpos b hb
    omega
  · have hin := (mem_indices hpos).mp hmem
    obtain ⟨_, hle, hfree⟩ := h.free _ hin
    exact ⟨hle, hfree, fun t ht => (h.limbo t _ ht).2.2.2 hin⟩
  · obtain ⟨_, hle, hfree, _⟩ := h.limbo t _ hidx
    exact ⟨hle, hfree, fun u hu => h.apart u t _ hu hidx⟩
  · exact (h.whole (idx + 1) (Nat.succ_pos idx) hlt).imp_left (mem_indices hpos).mpr

theorem Inv.acquires (h : Inv cfg s l) : Acquires cfg kind s (indices l) := by
  refine ⟨fun t weak s' idx hbefore hstep hfair hafter => ?_, fun t weak s' hbefore hstep hafter => ?_, fun t ptr stamp hpc => ?_⟩
  · unfold threadStep at hstep
    have hat := h.thread t
    cases hpc : s.pc t with
    | idle =>
      rw [hpc] at hstep
      cases hstep
    | acquiring =>
      rw [hpc] at hstep
      obtain rfl := Option.some.inj hstep
      rw [State.setPc_self] at hafter
      split at hafter <;> cases hafter
    | linked ptr next stamp =>
      rw [hpc] at hstep hat
      by_cases hexchange : ptr = s.pointer ∧ weak = false
      · simp only [hexchange, and_self, if_true] at hstep
        obtain rfl := Option.some.inj hstep
        rw [State.setPc_self] at hafter
        obtain ⟨_, hpos, hle, _⟩ := hat
        have hidx : kind.idx cfg.capacity ptr.slot = ptr.slot - 1 := by
          cases kind with
          | indexPool => rfl
          | indexer => exact if_pos ⟨hpos, hle⟩
        obtain rfl : kind.idx cfg.capacity s.pointer.slot = idx := Option.some.inj (Pc.acquired.inj hafter)
        obtain ⟨rest, rfl, _⟩ := h.first (Nat.ne_of_gt (hexchange.1 ▸ hpos))
        refine ⟨?_, rfl⟩
        rw [← hexchange.1, hidx]
        rfl
      · simp only [hexchange, if_false] at hstep
        obtain rfl := Option.some.inj hstep
        rw [State.setPc_self] at hafter
        cases hafter
    | stored slot ptr stamp =>
      rw [hpc] at hstep
      dsimp only at hstep
      split at hstep <;>
      · obtain rfl := Option.some.inj hstep
        rw [State.setPc_self] at hafter
        cases hafter
    | _ =>
      rw [hpc] at hstep
      obtain rfl := Option.some.inj hstep
      rw [State.setPc_self] at hafter
      cases hafter
  · unfold threadStep at hstep
    cases hpc : s.pc t with
    | idle =>
      rw [hpc] at hstep
      cases hstep
    | acquiring =>
      rw [hpc] at hstep
      obtain rfl := Option.some.inj hstep
      rw [State.setPc_self] at hafter
      by_cases hzero : s.pointer.slot = 0
      · rw [h.chained.nil_iff.mpr hzero]
        rfl
      · rw [if_neg hzero] at hafter
        cases hafter
    | linked ptr next stamp | stored slot ptr stamp =>
      rw [hpc] at hstep
      dsimp only at hstep
      split at hstep <;>
      · obtain rfl := Option.some.inj hstep
        rw [State.setPc_self] at hafter
        cases hafter
    | _ =>
      rw [hpc] at hstep
      obtain rfl := Option.some.inj hstep
      rw [State.setPc_self] at hafter
      cases hafter
  · have hat := h.thread t
    rw [hpc] at hat
    exact hat.2.2

/-- The pool is a last-in first-out pool, for any number of threads: calls and returns are those of such a
    pool, with the same indices free. Every other index is taken or being given back, by one thread; what an
    acquisition takes was free, and it returns `npos` only when nothing was. -/
theorem index_pool_lifo (T : Type) [DecidableEq T] (cfg : Config) (kind : Kind) (l : List (Label T)) (s : State T)
    (hrun : replay ((sys T cfg kind).within (Fair cfg)) (initial T cfg) l = some s) :
    ∃ l' p, replay (Pool.sys T (mine cfg) (allFree cfg)) (Pool.full T (allFree cfg)) l' = some p ∧
      trace (Pool.sys T (mine cfg) (allFree cfg)) Pool.see (Pool.full T (allFree cfg)) l' =
        trace ((sys T cfg kind).within (Fair cfg)) see (initial T cfg) l ∧
      Partition cfg s p.free ∧ Acquires cfg kind s p.free := by
  obtain ⟨p₀, l', p, rfl, hrun', htrace, slots, hinv, rfl⟩ := simulation.run (C := (sys T cfg kind).within (Fair cfg)) rfl hrun
  exact ⟨l', s.pool slots, hrun', htrace, hinv.partition, hinv.acquires⟩

section Sample

/-- Two indices. -/
def twoIndices : Config := ⟨2, Nat.zero_lt_two, by decide⟩

/-- A thread takes both indices and gives back the first one, which another thread takes; the exchange of a
    third attempt, prepared before that, fails. -/
def overtaken : List (Label Bool) :=
  .acquire true :: .step true false :: .step true false :: .acquire false :: List.replicate 4 (.step false false) ++
    [.step true false, .step true false, .step true false, .step true false, .step true false, .release false 0] ++
    List.replicate 4 (.step false false)

theorem index_pool_lifo_overtaken :
    ∃ s, replay ((sys Bool twoIndices .indexPool).within (Fair twoIndices)) (initial Bool twoIndices) overtaken = some s ∧
      ∃ l' p, replay (Pool.sys Bool (mine twoIndices) (allFree twoIndices)) (Pool.full Bool (allFree twoIndices)) l' = some p ∧
        trace (Pool.sys Bool (mine twoIndices) (allFree twoIndices)) Pool.see (Pool.full Bool (allFree twoIndices)) l' =
          trace ((sys Bool twoIndices .indexPool).within (Fair twoIndices)) see (initial Bool twoIndices) overtaken ∧
        Partition twoIndices s p.free ∧ Acquires twoIndices .indexPool s p.free := by
  have hsome : (replay ((sys Bool twoIndices .indexPool).within (Fair twoIndices)) (initial Bool twoIndices) overtaken).isSome :=
      by decide
  obtain ⟨s, hs⟩ := Option.isSome_iff_exists.mp hsome
  exact ⟨s, hs, index_pool_lifo Bool twoIndices .indexPool overtaken s hs⟩

end Sample

/-! ## Buffers -/

/-- No byte is in both. -/
def Range.Apart (a b : Range) : Prop := a.addr + a.size ≤ b.addr ∨ b.addr + b.size ≤ a.addr

theorem buffers_apart (b : Buffers) {i j : Nat} (hne : i ≠ j) : (b.at i).Apart (b.at j) := by
  have hbefore : ∀ a c, a < c → b.size * a + b.size ≤ b.size * c := by
    intro a c hlt
    rw [← Nat.mul_succ]
    exact Nat.mul_le_mul_left _ hlt
  unfold Buffers.at Range.Apart
  dsimp only
  rcases Nat.lt_or_gt_of_ne hne with hlt | hlt
  · left
    have := hbefore i j hlt
    omega
  · right
    have := hbefore j i hlt
    omega

/-- A buffer is handed out apart from all that are out. -/
theorem reserved_buffers_apart (b : Buffers) {l : List (Label T)}
    (hrun : replay ((sys T cfg kind).within (Fair cfg)) (initial T cfg) l = some s)
    {weak : Bool} {idx : Nat} (hbefore : s.pc t ≠ .acquired (some idx)) (hfair : Fair cfg s (.step t weak))
    (hstep : threadStep cfg kind s t weak = some s') (hafter : s'.pc t = .acquired (some idx)) :
    ∀ j, s.taken j = true → (b.at idx).Apart (b.at j) := by
  intro j hj
  obtain ⟨_, _, _, rfl, _, _, slots, hinv, _⟩ := simulation.run (C := (sys T cfg kind).within (Fair cfg)) rfl hrun
  have hacquires : Acquires cfg kind s _ := hinv.acquires
  obtain ⟨hhead, _⟩ := hacquires.taken t weak s' idx hbefore hstep hfair hafter
  have hfree := (hinv.partition.free_of_mem idx (List.mem_of_mem_head? hhead)).2.1
  refine buffers_apart b fun heq => ?_
  rw [heq, hj] at hfree
  cases hfree

end UnifiedCache.Infra.IndexPool
