/-
  UnifiedCache.Connector.PlanWindows — what a request dumps, step after step
  (ucm/integration/vllm/ucm_connector.py: `UCMDirectConnector`, with `update_connector_output`).

  To the steps of a run comes a load that fails: the engine computes again from some token behind the
  HBM hits. If blocks were missing in the store, the connector plans as if nothing had been hit outside
  HBM; otherwise it forgets the request until hits are asked for again.

  The windows of a request are recorded from when its hits were last settled: by a lookup, or by a load
  that found blocks missing.

  - `plans_split`: in a run of sound steps every plan is split right. `overlong_step_splits_wrong` and
    `stale_table_splits_wrong` are runs with other steps.
  - `dumps_tile`: in every run of sound steps they are one window, without a gap or a block twice, that
    begins among the hits; each id in it is the one that the request's table has for the block, and the
    block's tokens are computed by the end of the step.
-/

import UnifiedCache.Base.Lists
import UnifiedCache.Connector.ContextParallel

namespace UnifiedCache.Connector.ContextParallel

open UnifiedCache.Base

/-- The windows dumped of a request, one after the other. -/
structure Dumped where
  /-- The block that the first one begins at. -/
  first : Nat
  hashes : List Bytes
  ids : List Nat

def Dumped.append (d : Dumped) (window : Window) : Dumped := ⟨d.first, d.hashes ++ window.1, d.ids ++ window.2⟩

section Record

variable (Req : Type)

structure Recorded where
  state : State Req
  dumped : Req → Dumped

inductive Event where
  | engine (a : Label Req)
  /-- A load fails; the engine computes again from a token on. -/
  | loadFailed (requestId : Req) (missing : Bool) (numComputedTokens : Nat)

end Record

namespace Config

variable (cfg : Config) {Req : Type} [DecidableEq Req]

/-- `update_connector_output`, for a request whose load failed. -/
def updateConnectorOutput (known : Option RequestMeta) (missing : Bool) : Option RequestMeta :=
  match missing, known with
  | true, some reqMeta =>
    some { reqMeta with totalHitBlockNum := reqMeta.hbmHitBlockNum, tokenProcessed := reqMeta.hbmHitBlockNum * cfg.blockSize }
  | _, _ => none

/-- The dumps of a step's plans are recorded. -/
def recordPlans (plan : List (Planned Req)) (dumped : Req → Dumped) : Req → Dumped :=
  plan.foldl (fun dumped p => Function.update dumped p.requestId ((dumped p.requestId).append p.dispatch.dumpBlockIds)) dumped

/-- The record of a request whose hits have just been settled. -/
def settled (known : Option RequestMeta) :
    Dumped := ⟨(known.map fun reqMeta => reqMeta.tokenProcessed / cfg.blockSize).getD 0, [], []⟩

def record (a : Label Req) (s' : State Req) (dumped : Req → Dumped) : Req → Dumped :=
  match a with
  | .ask requestId allTokenIds numComputedTokens _ =>
    if cfg.externalBlockIds allTokenIds numComputedTokens = [] then dumped
    else Function.update dumped requestId (cfg.settled (s'.requestsMeta requestId))
  | .build _ => recordPlans s'.plan dumped
  | .reject .. | .preempt _ => dumped

def recordedStep (r : Recorded Req) : Event Req → Option (Recorded Req)
  | .engine a => (cfg.step r.state a).map fun s' => ⟨s', cfg.record a s' r.dumped⟩
  | .loadFailed requestId missing numComputedTokens =>
    let e := r.state.engine requestId
    let known := cfg.updateConnectorOutput (r.state.requestsMeta requestId) missing
    if e.phase = .running ∧ numComputedTokens ≤ e.numComputedTokens ∧
        (r.state.requestsMeta requestId).all (fun reqMeta => reqMeta.hbmHitBlockNum * cfg.blockSize ≤ numComputedTokens) then
      some
        ⟨{ r.state with
            requestsMeta := Function.update r.state.requestsMeta requestId known
            engine := Function.update r.state.engine requestId { e with numComputedTokens := numComputedTokens } },
          Function.update r.dumped requestId (cfg.settled known)⟩
    else none

def recordedSys (Req : Type) [DecidableEq Req] : System (Recorded Req) (Event Req) where
  init r := (cfg.sys Req).init r.state ∧ r.dumped = fun _ => ⟨0, [], []⟩
  step := cfg.recordedStep

def SoundEvent (r : Recorded Req) : Event Req → Prop
  | .engine a => cfg.Sound r.state a
  | .loadFailed .. => True

/-! ## Windows -/

section Windows

variable {cfg}

/-- Two windows, one behind the other. -/
theorem hashWindow_append (hashes : List Bytes) {start mid stop : Nat} (hstart : start ≤ mid) (hstop : mid ≤ stop) :
    cfg.hashWindow hashes start mid ++ cfg.hashWindow hashes mid stop = cfg.hashWindow hashes start stop :=
  slice_append hashes (Nat.mul_le_mul_right _ hstart) (Nat.mul_le_mul_right _ hstop)

/-- A window of whole blocks that more hashes follow covers all its blocks. -/
theorem whole_blocks {hashes : List Bytes} {start mid stop n : Nat} (hmid : start ≤ mid)
    (hlength : (cfg.hashWindow hashes start mid).length = n * cfg.cpWorldSize) (hmore : cfg.hashWindow hashes mid stop ≠ []) :
    start + n = mid := by
  have hpos := List.length_pos_iff.mpr hmore
  rw [hashWindow_length] at hpos hlength
  have hle : mid * cfg.cpWorldSize ≤ hashes.length := by omega
  rw [Nat.min_eq_left hle, ← Nat.sub_mul] at hlength
  have heq := Nat.eq_of_mul_eq_mul_right cfg.cpWorldSize_pos hlength
  omega

end Windows

/-! ## One request -/

/-- What has been dumped of a request, against what is kept of it and the engine's state of it. -/
structure Tiled (reqMeta : RequestMeta) (e : EngineRequest) (d : Dumped) : Prop where
  afterHbm : reqMeta.hbmHitBlockNum ≤ d.first
  amongHits : d.first ≤ reqMeta.totalHitBlockNum
  begun : d.first ≤ dumpStart cfg reqMeta
  hashes : d.hashes = cfg.hashWindow reqMeta.ucmBlockIds d.first (dumpStart cfg reqMeta)
  lengths : d.hashes.length = d.ids.length * cfg.cpWorldSize
  idle : e.phase ≠ .running → reqMeta.vllmBlockIds = [] → d.ids = []
  table : e.phase = .running → ∀ j, j < d.ids.length → d.ids[j]? = e.table[d.first + j]?
  computed : e.phase = .running → ∀ j, j < d.ids.length → (d.first + j + 1) * cfg.blockSize ≤ e.numComputedTokens

variable {cfg} {reqMeta : RequestMeta} {e e' : EngineRequest} {d : Dumped} {newTokens : Nat} {kind : Scheduled}
    {blockIds : List Nat}

/-- Nothing has been dumped since the hits were settled. -/
theorem tiled_settled (hhbm : reqMeta.hbmHitBlockNum * cfg.blockSize ≤ reqMeta.tokenProcessed)
    (htotal : reqMeta.tokenProcessed ≤ reqMeta.totalHitBlockNum * cfg.blockSize) (e : EngineRequest) :
    cfg.Tiled reqMeta e (cfg.settled (some reqMeta)) where
  afterHbm := (Nat.le_div_iff_mul_le cfg.blockSize_pos).mpr hhbm
  amongHits := Nat.div_le_of_le_mul (Nat.mul_comm _ _ ▸ htotal)
  begun := Nat.le_refl _
  hashes := (slice_self _ _).symm
  lengths := (Nat.zero_mul _).symm
  idle _ _ := rfl
  table _ j hj := absurd hj (Nat.not_lt_zero j)
  computed _ j hj := absurd hj (Nat.not_lt_zero j)

/-- What was dumped before is still in the table of a request that is scheduled. -/
theorem Tiled.before (ht : cfg.Tiled reqMeta e d) (hk : Kept cfg reqMeta e)
    (hsound : cfg.SoundRequest reqMeta newTokens kind blockIds)
    (h : cfg.engineSchedule e kind newTokens blockIds = some e') :
    ∀ j, j < d.ids.length → d.ids[j]? = e'.table[d.first + j]? ∧ (d.first + j + 1) * cfg.blockSize ≤ e.numComputedTokens := by
  obtain ⟨hmay, htable, -, -⟩ := engineSchedule_eq_some h
  intro j hj
  have hfresh : e.phase = .matched → reqMeta.vllmBlockIds ≠ [] := by
    intro hphase hempty
    have hids := ht.idle (by rw [hphase]; exact nofun) hempty
    rw [hids] at hj
    exact Nat.not_lt_zero j hj
  cases kind with
  | new =>
    obtain ⟨hphase, hstarted⟩ := of_decide_eq_true hmay
    exact absurd (hk.unstarted hstarted) (hfresh hphase)
  | resumed =>
    obtain ⟨hphase, -⟩ := of_decide_eq_true hmay
    exact absurd (hsound.fresh rfl) (hfresh hphase)
  | cached =>
    have hphase : e.phase = .running := of_decide_eq_true hmay
    refine ⟨?_, ht.computed hphase j hj⟩
    have hold := ht.table hphase j hj
    rw [List.getElem?_eq_getElem hj] at hold ⊢
    have hlt := (List.getElem?_eq_some_iff.mp hold.symm).1
    rw [htable, if_pos rfl, List.getElem?_append_left hlt]
    exact hold

/-- A request's dump is appended. -/
theorem Tiled.schedule (ht : cfg.Tiled reqMeta e d) (hk : Kept cfg reqMeta e)
    (hsound : cfg.SoundRequest reqMeta newTokens kind blockIds)
    (h : cfg.engineSchedule e kind newTokens blockIds = some e') (needLoad : Bool) :
    cfg.Tiled (cfg.generateDispatchMeta reqMeta newTokens blockIds needLoad).1 e'
      (d.append (cfg.generateDispatchMeta reqMeta newTokens blockIds needLoad).2.dumpBlockIds) := by
  have hbefore := ht.before hk hsound h
  obtain ⟨hmay, htable, hroom, he⟩ := engineSchedule_eq_some h
  obtain ⟨hrecorded, hprogress⟩ := hk.scheduled hsound hmay
  rw [← htable] at hrecorded
  have hphase : e'.phase = .running := by rw [he]
  have hcomputed : e'.numComputedTokens = e.numComputedTokens + newTokens := by rw [he]
  rw [generateDispatchMeta_kept]
  by_cases hprocess : reqMeta.tokenProcessed < reqMeta.numTokenIds
  · have hprogress : reqMeta.tokenProcessed ≤ e.numComputedTokens := hprogress.resolve_right (by omega)
    have hend : dumpEnd cfg reqMeta newTokens ≤ (reqMeta.vllmBlockIds ++ blockIds).length := by
      rw [hrecorded]
      have hle : reqMeta.tokenProcessed + newTokens ≤ e'.table.length * cfg.blockSize := by omega
      exact Nat.div_le_of_le_mul (Nat.mul_comm _ _ ▸ hle)
    obtain ⟨hhashes, hlength, hids⟩ := dump_window needLoad hprocess hend rfl
    have hlengths := (dump_split_iff needLoad hk.hashed hend).mpr hsound.dump
    simp only [bindWindow_eq, ranks_eq, List.mem_range] at hlengths
    have hwhole := (Base.stride_length_iff cfg.cpWorldSize_pos _ _).mp hlengths
    generalize (cfg.generateDispatchMeta reqMeta newTokens blockIds needLoad).2.dumpBlockIds =
      window at hhashes hlength hids hwhole
    have hstop : dumpStart cfg reqMeta ≤ dumpEnd cfg reqMeta newTokens := dumpStart_le
    have hblocks : window.2.length ≤ dumpEnd cfg reqMeta newTokens - dumpStart cfg reqMeta := by
      rw [hlength]
      split
      · exact Nat.min_le_left ..
      · exact Nat.le_refl _
    -- what is appended, if anything, begins where the record ends
    have hnext : ∀ j, d.ids.length ≤ j → j < (d.ids ++ window.2).length → d.first + d.ids.length = dumpStart cfg reqMeta := by
      intro j hge hlt
      refine whole_blocks ht.begun (ht.hashes ▸ ht.lengths) (?_ : cfg.hashWindow _ _ (dumpEnd cfg reqMeta newTokens) ≠ [])
      rw [← hhashes, ← List.length_pos_iff, hwhole]
      rw [List.length_append] at hlt
      exact Nat.mul_pos (by omega) cfg.cpWorldSize_pos
    rw [if_pos hprocess]
    refine
      { afterHbm := ht.afterHbm
        amongHits := ht.amongHits
        begun := Nat.le_trans ht.begun hstop
        hashes := ?_
        lengths := ?_
        idle := fun hno => absurd hphase hno
        table := fun _ j hj => ?_
        computed := fun _ j hj => ?_ }
    · change d.hashes ++ window.1 = cfg.hashWindow reqMeta.ucmBlockIds d.first (dumpEnd cfg reqMeta newTokens)
      rw [hhashes, ht.hashes]
      exact hashWindow_append _ ht.begun hstop
    · change (d.hashes ++ window.1).length = (d.ids ++ window.2).length * cfg.cpWorldSize
      rw [List.length_append, List.length_append, Nat.add_mul, ht.lengths, hwhole]
    · change (d.ids ++ window.2)[j]? = e'.table[d.first + j]?
      by_cases hlt : j < d.ids.length
      · rw [List.getElem?_append_left hlt]
        exact (hbefore j hlt).1
      · have heq := hnext j (Nat.le_of_not_lt hlt) hj
        change j < (d.ids ++ window.2).length at hj
        rw [List.length_append] at hj
        rw [List.getElem?_append_right (Nat.le_of_not_lt hlt), hids _ (by omega), hrecorded]
        congr 1
        omega
    · rw [hcomputed]
      change (d.first + j + 1) * cfg.blockSize ≤ _
      by_cases hlt : j < d.ids.length
      · exact Nat.le_trans (hbefore j hlt).2 (Nat.le_add_right _ _)
      · have heq := hnext j (Nat.le_of_not_lt hlt) hj
        change j < (d.ids ++ window.2).length at hj
        rw [List.length_append] at hj
        calc (d.first + j + 1) * cfg.blockSize
            _ ≤ dumpEnd cfg reqMeta newTokens * cfg.blockSize := Nat.mul_le_mul_right _ (by omega)
            _ ≤ reqMeta.tokenProcessed + newTokens := Nat.div_mul_le_self _ _
            _ ≤ e.numComputedTokens + newTokens := Nat.add_le_add_right hprogress _
  · have hwindow : (cfg.generateDispatchMeta reqMeta newTokens blockIds needLoad).2.dumpBlockIds = ([], []) := by
      rw [generateDispatchMeta, if_neg hprocess]
    rw [hwindow, if_neg hprocess]
    unfold Dumped.append
    rw [List.append_nil, List.append_nil]
    refine
      { afterHbm := ht.afterHbm
        amongHits := ht.amongHits
        begun := ht.begun
        hashes := ht.hashes
        lengths := ht.lengths
        idle := fun hno => absurd hphase hno
        table := fun _ j hj => (hbefore j hj).1
        computed := fun _ j hj => Nat.le_trans (hbefore j hj).2 (hcomputed ▸ Nat.le_add_right _ _) }

/-- The engine's state of a request changes, and its table and what is computed stay or it does not run. -/
theorem Tiled.engine (ht : cfg.Tiled reqMeta e d) (hidle : e'.phase ≠ .running → reqMeta.vllmBlockIds = [] → d.ids = [])
    (hrun : e'.phase = .running → e.phase = .running ∧ e'.table = e.table ∧
      ∀ j, j < d.ids.length → (d.first + j + 1) * cfg.blockSize ≤ e'.numComputedTokens) : cfg.Tiled reqMeta e' d :=
  { ht with
    idle := hidle
    table := fun hphase j hj => (hrun hphase).2.1 ▸ ht.table (hrun hphase).1 j hj
    computed := fun hphase => (hrun hphase).2.2 }

/-- What has been dumped are blocks of the request's own tokens. -/
theorem Tiled.within_tokens (ht : cfg.Tiled reqMeta e d) (hk : Kept cfg reqMeta e) {j : Nat} (hj : j < d.ids.length) :
    (d.first + j + 1) * cfg.blockSize ≤ reqMeta.numTokenIds := by
  have hlength := ht.lengths
  rw [ht.hashes, hashWindow_length] at hlength
  have hpos : 0 < d.ids.length * cfg.cpWorldSize := Nat.mul_pos (by omega) cfg.cpWorldSize_pos
  have hle : (d.first + d.ids.length) * cfg.cpWorldSize ≤ reqMeta.ucmBlockIds.length := by
    rw [Nat.add_mul]
    omega
  calc (d.first + j + 1) * cfg.blockSize
      _ ≤ (d.first + d.ids.length) * cfg.blockSize := Nat.mul_le_mul_right _ (by omega)
      _ = (d.first + d.ids.length) * cfg.cpWorldSize * cfg.hashBlockSize :=
        by rw [blockSize, Nat.mul_assoc, Nat.mul_comm cfg.cpWorldSize]
      _ ≤ reqMeta.numTokenIds := (Nat.le_div_iff_mul_le cfg.hashBlockSize_pos).mp (hk.hashed.hashes ▸ hle)

/-- Of a table that has no block nothing has been dumped. -/
theorem Tiled.no_table (ht : cfg.Tiled reqMeta e d) (hphase : e.phase = .running) (hempty : e.table = []) : d.ids = [] := by
  by_contra hne
  have hpos := List.length_pos_iff.mpr hne
  have hat := ht.table hphase 0 hpos
  rw [hempty, List.getElem?_eq_getElem hpos] at hat
  exact absurd hat nofun

/-- A lookup settles the hits. -/
theorem ask_settled {known : Option RequestMeta} {allTokenIds : List Int} {numComputedTokens : Nat} {lastHit : Option Int}
    (hsome : cfg.externalBlockIds allTokenIds numComputedTokens ≠ [])
    (h : (cfg.getNumNewMatchedTokens known allTokenIds numComputedTokens lastHit).2 = some reqMeta) :
    reqMeta.hbmHitBlockNum * cfg.blockSize ≤ reqMeta.tokenProcessed ∧
    reqMeta.tokenProcessed ≤ reqMeta.totalHitBlockNum * cfg.blockSize := by
  unfold getNumNewMatchedTokens at h
  rw [if_neg hsome] at h
  obtain rfl := Option.some.inj h
  dsimp only
  refine ⟨Nat.le_add_right _ _, ?_⟩
  rw [Nat.add_mul]
  refine Nat.add_le_add_left ?_ _
  split
  · omega
  · exact Nat.le_refl _

/-! ## Runs -/

/-- Every request's dumps are tiled. -/
structure RecordedInv (cfg : Config) (r : Recorded Req) : Prop where
  base : cfg.Inv r.state
  tiled : ∀ id reqMeta, r.state.requestsMeta id = some reqMeta → cfg.Tiled reqMeta (r.state.engine id) (r.dumped id)

theorem recordPlans_concat (plan : List (Planned Req)) (p : Planned Req) (dumped : Req → Dumped) :
    recordPlans (plan ++ [p]) dumped =
      Function.update (recordPlans plan dumped) p.requestId
      ((recordPlans plan dumped p.requestId).append p.dispatch.dumpBlockIds) := by
  unfold recordPlans
  rw [List.foldl_append]
  rfl

section Run

variable {s s' : State Req} {dumped : Req → Dumped} {requestId : Req}

/-- One request is kept otherwise, with another record. -/
theorem tiled_update (requestId : Req) {m : Option RequestMeta}
    (ht : ∀ id reqMeta, s.requestsMeta id = some reqMeta → cfg.Tiled reqMeta (s.engine id) (dumped id))
    (hone : ∀ reqMeta, m = some reqMeta → cfg.Tiled reqMeta e d) :
    ∀ id reqMeta, Function.update s.requestsMeta requestId m id = some reqMeta →
      cfg.Tiled reqMeta (Function.update s.engine requestId e id) (Function.update dumped requestId d id) := by
  intro id reqMeta h
  by_cases heq : id = requestId
  · subst heq
    rw [Function.update_self] at h ⊢
    rw [Function.update_self]
    exact hone reqMeta h
  · rw [Function.update_of_ne heq] at h ⊢
    rw [Function.update_of_ne heq]
    exact ht id reqMeta h

/-- The engine's state of one request changes. -/
theorem tiled_update_engine (ht : ∀ id reqMeta, s.requestsMeta id = some reqMeta → cfg.Tiled reqMeta (s.engine id) (dumped id))
    (hone : ∀ reqMeta, s.requestsMeta requestId = some reqMeta → cfg.Tiled reqMeta e (dumped requestId)) :
    ∀ id reqMeta, s.requestsMeta id = some reqMeta → cfg.Tiled reqMeta (Function.update s.engine requestId e id) (dumped id) := by
  have hboth := tiled_update requestId ht hone
  rwa [Function.update_eq_self, Function.update_eq_self] at hboth

theorem scheduleRequest_tiled {numScheduledTokens : Req → Nat} {request : Req × Scheduled × List Nat} (hi : cfg.Inv s)
    (ht : ∀ id reqMeta, s.requestsMeta id = some reqMeta → cfg.Tiled reqMeta (s.engine id) (recordPlans s.plan dumped id))
    (hsound : ∀ reqMeta, s.requestsMeta request.1 = some reqMeta →
      cfg.SoundRequest reqMeta (numScheduledTokens request.1) request.2.1 request.2.2)
    (h : cfg.scheduleRequest numScheduledTokens s request = some s') :
    ∀ id reqMeta, s'.requestsMeta id = some reqMeta → cfg.Tiled reqMeta (s'.engine id) (recordPlans s'.plan dumped id) := by
  obtain ⟨requestId, kind, blockIds⟩ := request
  unfold scheduleRequest at h
  obtain ⟨e, he, rfl⟩ := Option.map_eq_some_iff.mp h
  dsimp only at he hsound ⊢
  cases hm : s.requestsMeta requestId with
  | none => exact tiled_update_engine ht fun reqMeta hsome => absurd (hm.symm.trans hsome) nofun
  | some reqMeta =>
    have hone := (ht requestId reqMeta hm).schedule (hi.kept requestId reqMeta hm) (hsound reqMeta hm) he
        (decide (kind ≠ .cached))
    dsimp only
    rw [recordPlans_concat]
    exact tiled_update requestId ht fun reqMeta' hsome => Option.some.inj hsome ▸ hone

theorem scheduleRequests_tiled {numScheduledTokens : Req → Nat} {requests : List (Req × Scheduled × List Nat)}
    (hkeys : (requests.map Prod.fst).Nodup) (hi : cfg.Inv s)
    (ht : ∀ id reqMeta, s.requestsMeta id = some reqMeta → cfg.Tiled reqMeta (s.engine id) (recordPlans s.plan dumped id))
    (hsound : ∀ request ∈ requests, ∀ reqMeta, s.requestsMeta request.1 = some reqMeta →
      cfg.SoundRequest reqMeta (numScheduledTokens request.1) request.2.1 request.2.2)
    (h : requests.foldlM (cfg.scheduleRequest numScheduledTokens) s = some s') :
    ∀ id reqMeta, s'.requestsMeta id = some reqMeta → cfg.Tiled reqMeta (s'.engine id) (recordPlans s'.plan dumped id) := by
  induction requests generalizing s with
  | nil =>
    obtain rfl := Option.some.inj h
    exact ht
  | cons request requests ih =>
    rw [List.foldlM_cons] at h
    obtain ⟨t, htstep, h⟩ := Option.bind_eq_some_iff.mp h
    rw [List.map_cons, List.nodup_cons] at hkeys
    have hone := hsound request List.mem_cons_self
    obtain ⟨hinv, hsame⟩ := scheduleRequest_spec hi hone htstep
    refine ih hkeys.2 hinv (scheduleRequest_tiled hi ht hone htstep) (fun request' hmem reqMeta hm => ?_) h
    have hne : request'.1 ≠ request.1 := fun heq => hkeys.1 (heq ▸ List.mem_map_of_mem hmem)
    exact hsound request' (List.mem_cons_of_mem _ hmem) reqMeta (hsame _ hne ▸ hm)

theorem build_tiled (hi : cfg.Inv s) (ht : ∀ id reqMeta, s.requestsMeta id = some reqMeta →
    cfg.Tiled reqMeta (s.engine id) (dumped id))
    {out : SchedulerOutput Req} (hsound : cfg.Sound s (.build out)) (h : cfg.buildConnectorMeta s out = some s') :
    ∀ id reqMeta, s'.requestsMeta id = some reqMeta → cfg.Tiled reqMeta (s'.engine id) (recordPlans s'.plan dumped id) := by
  obtain ⟨t, htfold, rfl⟩ := Option.map_eq_some_iff.mp h
  have hempty : cfg.Inv { s with plan := [] } := ⟨hi.kept, fun p hp => absurd hp List.not_mem_nil⟩
  have hall := scheduleRequests_tiled out.keys hempty (show ∀ id reqMeta, _ →
      cfg.Tiled reqMeta _ (recordPlans [] dumped id) from ht) hsound htfold
  intro id reqMeta hm
  dsimp only at hm ⊢
  split at hm
  · exact absurd hm nofun
  · rename_i hnot
    rw [if_neg hnot]
    exact hall id reqMeta hm

theorem RecordedInv.engine {r r' : Recorded Req} (h : cfg.RecordedInv r) {a : Label Req} (hsound : cfg.Sound r.state a)
    (hstep : cfg.recordedStep r (.engine a) = some r') : cfg.RecordedInv r' := by
  obtain ⟨s', hs', rfl⟩ := Option.map_eq_some_iff.mp hstep
  refine ⟨h.base.step hsound hs', ?_⟩
  cases a with
  | ask requestId allTokenIds numComputedTokens lastHit =>
    unfold Config.step at hs'
    dsimp only at hs'
    split at hs'
    swap
    · cases hs'
    rename_i hcond
    have hphase := hcond.1
    obtain rfl := Option.some.inj hs'
    unfold record
    dsimp only
    split
    · rename_i hnone
      have heq : cfg.getNumNewMatchedTokens (r.state.requestsMeta requestId) allTokenIds numComputedTokens lastHit =
          (0, r.state.requestsMeta requestId) := by
        rw [getNumNewMatchedTokens, if_pos hnone]
      rw [heq, Function.update_eq_self]
      exact tiled_update_engine h.tiled fun reqMeta hm => (h.tiled requestId reqMeta hm).engine
        (fun _ => (h.tiled requestId reqMeta hm).idle hphase) fun hrun => by cases hrun
    · rename_i hsome
      refine tiled_update requestId h.tiled fun reqMeta hm => ?_
      rw [Function.update_self, hm]
      obtain ⟨hhbm, htotal⟩ := ask_settled hsome hm
      exact tiled_settled hhbm htotal _
  | build out => exact build_tiled h.base h.tiled hsound hs'
  | reject requestId numComputedTokens =>
    obtain ⟨⟨hphase, htokens, -⟩, hs'⟩ := Option.ite_none_right_eq_some.mp hs'
    obtain rfl := Option.some.inj hs'
    refine tiled_update_engine h.tiled fun reqMeta hm => ?_
    have ht := h.tiled requestId reqMeta hm
    have hk := h.base.kept requestId reqMeta hm
    refine ht.engine (fun hno => absurd hphase hno) fun _ => ⟨hphase, rfl, fun j hj => ?_⟩
    exact Nat.le_trans (ht.within_tokens hk hj) (Nat.le_trans hk.tokens htokens)
  | preempt requestId =>
    obtain ⟨hphase, hs'⟩ := Option.ite_none_right_eq_some.mp hs'
    obtain rfl := Option.some.inj hs'
    refine tiled_update_engine h.tiled fun reqMeta hm => ?_
    have ht := h.tiled requestId reqMeta hm
    refine ht.engine (fun _ hempty => ht.no_table hphase ?_) fun hrun => by cases hrun
    rw [← (h.base.kept requestId reqMeta hm).recorded hphase, hempty]

/-- A request goes on after a load that found blocks missing. -/
theorem Kept.missing (hk : Kept cfg reqMeta e) (hphase : e.phase = .running) {numComputedTokens : Nat}
    (hle : numComputedTokens ≤ e.numComputedTokens)
    (hhbm : reqMeta.hbmHitBlockNum * cfg.blockSize ≤ numComputedTokens) :
    Kept cfg { reqMeta with totalHitBlockNum := reqMeta.hbmHitBlockNum, tokenProcessed := reqMeta.hbmHitBlockNum * cfg.blockSize }
      { e with numComputedTokens := numComputedTokens } where
  hashed := ⟨hk.hashed.hashes, Nat.le_refl _, Nat.le_trans (Nat.mul_le_mul_right _ hk.hashed.hits) hk.hashed.known⟩
  tokens := hk.tokens
  above := hk.above
  unstarted := hk.unstarted
  early hno := absurd hphase hno
  asked hno := absurd (hphase.symm.trans hno) nofun
  recorded := hk.recorded
  progress _ := .inl hhbm
  covered _ := Nat.le_trans hle (hk.covered hphase)

theorem RecordedInv.loadFailed {r r' : Recorded Req} (h : cfg.RecordedInv r) {missing : Bool} {numComputedTokens : Nat}
    (hstep : cfg.recordedStep r (.loadFailed requestId missing numComputedTokens) = some r') : cfg.RecordedInv r' := by
  obtain ⟨⟨hphase, hle, hhbm⟩, hs⟩ := Option.ite_none_right_eq_some.mp hstep
  obtain rfl := Option.some.inj hs
  -- what is kept of the request afterwards
  have hone : ∀ reqMeta, cfg.updateConnectorOutput (r.state.requestsMeta requestId) missing = some reqMeta →
      Kept cfg reqMeta { r.state.engine requestId with numComputedTokens := numComputedTokens } ∧
        cfg.Tiled reqMeta { r.state.engine requestId with numComputedTokens := numComputedTokens }
          (cfg.settled (cfg.updateConnectorOutput (r.state.requestsMeta requestId) missing)) := by
    intro reqMeta' hm'
    rw [hm']
    unfold updateConnectorOutput at hm'
    split at hm'
    · rename_i reqMeta hm
      rw [hm, Option.all_some, decide_eq_true_eq] at hhbm
      obtain rfl := Option.some.inj hm'
      exact ⟨(h.base.kept requestId reqMeta hm).missing hphase hle hhbm, tiled_settled (Nat.le_refl _) (Nat.le_refl _) _⟩
    · exact absurd hm' nofun
  exact ⟨⟨kept_update requestId h.base.kept fun reqMeta hm => (hone reqMeta hm).1, h.base.right⟩,
    tiled_update requestId h.tiled fun reqMeta hm => (hone reqMeta hm).2⟩

theorem reach_recorded {r : Recorded Req} (h : Reach (cfg.recordedSys Req) cfg.SoundEvent r) : cfg.RecordedInv r := by
  refine h.inv (fun r hr => ?_) fun r a r' hi hsound hstep => ?_
  · obtain ⟨state, dumped⟩ := r
    obtain ⟨rfl, -⟩ := hr
    exact ⟨⟨nofun, fun p hp => absurd hp List.not_mem_nil⟩, nofun⟩
  · cases a with
    | engine a => exact hi.engine hsound hstep
    | loadFailed requestId missing numComputedTokens => exact hi.loadFailed hstep

end Run

end Config

section Sample

/-- Two ranks, hash blocks of 4 tokens; the hash of a block counts the blocks up to it. -/
def twoRanks : Config where
  hashBlockSize := 4
  pcpWorldSize := 1
  dcpWorldSize := 2
  hashBlockSize_pos := by decide
  pcpWorldSize_pos := by decide
  dcpWorldSize_pos := by decide
  persistTokenThreshold := 0
  recomputeTokens := 1
  hasher := countingHasher
  seed := []

/-- A single rank. -/
def oneRank : Config := { twoRanks with dcpWorldSize := 1, dcpWorldSize_pos := by decide }

/-- A step that schedules the one request. -/
def scheduleOne (kind : Scheduled) (newTokens : Nat) (blockIds : List Nat) : Label Unit :=
  .build ⟨[((), kind, blockIds)], fun _ => newTokens, [], List.nodup_singleton ()⟩

/-- `Sound`, where it can be computed. -/
def sound (cfg : Config) (s : State Unit) : Label Unit → Bool
  | .build out => out.requests.all fun request => (s.requestsMeta request.1).all fun reqMeta =>
      decide (cfg.SoundRequest reqMeta (out.numScheduledTokens request.1) request.2.1 request.2.2)
  | _ => true

theorem sound_sound (cfg : Config) (s : State Unit) (a : Label Unit) (h : sound cfg s a = true) : cfg.Sound s a := by
  cases a with
  | build out =>
    intro request hmem reqMeta hm
    have hall := List.all_eq_true.mp h request hmem
    rw [hm] at hall
    exact of_decide_eq_true hall
  | ask | reject | preempt => exact trivial

/-- `SoundEvent`, where it can be computed. -/
def soundEvent (cfg : Config) (r : Recorded Unit) : Event Unit → Bool
  | .engine a => sound cfg r.state a
  | .loadFailed .. => true

theorem soundEvent_sound (cfg : Config) (r : Recorded Unit) (a : Event Unit) (h : soundEvent cfg r a = true) :
    cfg.SoundEvent r a := by
  cases a with
  | engine a => exact sound_sound cfg r.state a h
  | loadFailed => exact trivial

/-- Nothing is asked for yet. -/
def noRequests : Recorded Unit := ⟨⟨fun _ => none, fun _ => .arriving, []⟩, fun _ => ⟨0, [], []⟩⟩

end Sample

/-- For any world size and any run of sound steps, with loads that fail, every plan is split right: the
    ranks' hashes are those of the load's and of the dump's window, once and in order, and on every rank
    there is a hash for each id, the rank's own one of the block that the request's table has under it. -/
theorem plans_split (cfg : Config) {Req : Type} [DecidableEq Req] (r : Recorded Req)
    (h : Reach (cfg.recordedSys Req) cfg.SoundEvent r) :
    ∀ p ∈ r.state.plan, cfg.Right p.ucmBlockIds p.table p.dispatch := (Config.reach_recorded h).base.right

/-- Of three blocks the first is hit and is missing when it is loaded; the next step dumps two again. -/
theorem plans_split_missing :
    ∃ r : Recorded Unit, r.state.plan.map (·.dispatch) = [⟨([], []), ([[0], [0, 0], [0, 0, 0], [0, 0, 0, 0]], [5, 6])⟩] ∧
      ∀ p ∈ r.state.plan, twoRanks.Right p.ucmBlockIds p.table p.dispatch := by
  obtain ⟨r, hreach, hplan⟩ := exists_of_replayOk (soundEvent twoRanks) (soundEvent_sound twoRanks)
    [.engine (.ask () (List.replicate 25 0) 0 (some 1)), .engine (scheduleOne .new 9 [5, 6, 7, 8]), .loadFailed () true 0,
      .engine (scheduleOne .cached 17 [])] (S := twoRanks.recordedSys Unit) (s := noRequests)
    (p := fun r => decide (r.state.plan.map (·.dispatch) = [⟨([], []), ([[0], [0, 0], [0, 0, 0], [0, 0, 0, 0]], [5, 6])⟩]))
    ⟨rfl, rfl⟩ (by decide +kernel)
  exact ⟨r, of_decide_eq_true hplan, plans_split twoRanks r hreach⟩
/-- The next step goes past the request's 13 tokens, and the window ends past its three hashes: one hash is left
    for the second block, and its id is not cut. -/
theorem overlong_step_splits_wrong :
    ¬ ∀ (cfg : Config) (s : State Unit), Reach (cfg.sys Unit) Any s → ∀ p ∈ s.plan,
    cfg.Right p.ucmBlockIds p.table p.dispatch := by
  intro hall
  obtain ⟨s, hreach, hplan⟩ := exists_of_replay
    [.ask () (List.replicate 13 0) 0 (some (-1)), scheduleOne .new 12 [5, 6], scheduleOne .cached 4 []] (S := twoRanks.sys Unit)
    (p := fun s => decide (s.plan.map (·.dispatch) = [⟨([], []), ([[0, 0, 0]], [6])⟩])) rfl (by decide +kernel)
  obtain ⟨p, hp, hdispatch⟩ := List.mem_map.mp (of_decide_eq_true hplan ▸ List.mem_singleton_self _)
  have hlength := (hall twoRanks s hreach p hp).dump.lengths 1 (by decide)
  rw [hdispatch] at hlength
  revert hlength
  decide

/-- A request that is preempted after its first block, and resumes when another one has computed all its blocks, keeps
    its old table in front of the new one: the second block is then dumped from the first one's id. -/
theorem stale_table_splits_wrong :
    ∃ s : State Unit, Reach (oneRank.sys Unit) Any s ∧ ∃ p ∈ s.plan, p.table = [7, 8, 9] ∧
    p.dispatch.dumpBlockIds = ([[0, 0]], [7]) ∧
      ¬ oneRank.Right p.ucmBlockIds p.table p.dispatch := by
  obtain ⟨s, hreach, hplan⟩ := exists_of_replay
    [.ask () (List.replicate 10 0) 0 (some (-1)), scheduleOne .new 4 [5], .preempt (), .ask () (List.replicate 10 0) 8 none,
      scheduleOne .resumed 2 [7, 8, 9], scheduleOne .cached 2 []] (S := oneRank.sys Unit)
    (p := fun s => decide (s.plan.map (fun p => (p.dispatch, p.ucmBlockIds, p.table)) =
      [(⟨([], []), ([[0, 0]], [7])⟩, [[0], [0, 0]], [7, 8, 9])])) rfl (by decide +kernel)
  obtain ⟨p, hp, heq⟩ := List.mem_map.mp (of_decide_eq_true hplan ▸ List.mem_singleton_self _)
  obtain ⟨hdispatch, hhashes, htable⟩ : p.dispatch = ⟨([], []), ([[0, 0]], [7])⟩ ∧ p.ucmBlockIds = [[0], [0, 0]] ∧
      p.table = [7, 8, 9] := by
    simpa only [Prod.mk.injEq] using heq
  refine ⟨s, hreach, p, hp, htable, by rw [hdispatch], fun hright => ?_⟩
  obtain ⟨start, haligned⟩ := hright.dump.aligned
  rw [hdispatch, hhashes, htable] at haligned
  obtain ⟨hid, hhash⟩ := haligned 0 (by decide) 0 (by decide)
  match start with
  | 0 => exact absurd hhash (by decide)
  | 1 | 2 => exact absurd hid (by decide)
  | start + 3 => exact absurd hid nofun

/-- For any world size and any run of sound steps, with loads that fail and whatever is done about them: the
    hashes dumped of a request that runs, since its hits were last settled, are those of one window, from a
    block among the hits on to the one it is at, with as many for each id as there are ranks; and each id is
    that of the window's block in the request's table, all tokens of which are computed. -/
theorem dumps_tile (cfg : Config) {Req : Type} [DecidableEq Req] (r : Recorded Req)
    (h : Reach (cfg.recordedSys Req) cfg.SoundEvent r)
    (requestId : Req) (reqMeta : RequestMeta) (hm : r.state.requestsMeta requestId = some reqMeta)
    (hrun : (r.state.engine requestId).phase = .running) :
    let d := r.dumped requestId
    reqMeta.hbmHitBlockNum ≤ d.first ∧ d.first ≤ reqMeta.totalHitBlockNum ∧
      d.hashes = cfg.hashWindow reqMeta.ucmBlockIds d.first (reqMeta.tokenProcessed / cfg.blockSize) ∧
      d.hashes.length = d.ids.length * cfg.cpWorldSize ∧
      ∀ j, j < d.ids.length → d.ids[j]? = (r.state.engine requestId).table[d.first + j]? ∧
        (d.first + j + 1) * cfg.blockSize ≤ (r.state.engine requestId).numComputedTokens := by
  have ht := (Config.reach_recorded h).tiled requestId reqMeta hm
  exact ⟨ht.afterHbm, ht.amongHits, ht.hashes, ht.lengths, fun j hj => ⟨ht.table hrun j hj, ht.computed hrun j hj⟩⟩

/-- One block of three is hit, and is missing when it is loaded; the next step dumps all three. -/
theorem dumps_tile_missing : ∃ r : Recorded Unit, (r.dumped ()).first = 0 ∧ (r.dumped ()).ids = [5, 6, 7] ∧
    (r.dumped ()).hashes.length = 3 ∧ 12 ≤ (r.state.engine ()).numComputedTokens := by
  obtain ⟨r, hreach, hp⟩ := exists_of_replayOk (soundEvent oneRank) (soundEvent_sound oneRank)
    [.engine (.ask () (List.replicate 13 0) 0 (some 0)), .engine (scheduleOne .new 9 [5, 6, 7, 8]), .loadFailed () true 0,
      .engine (scheduleOne .cached 13 [])] (S := oneRank.recordedSys Unit) (s := noRequests)
    (p := fun r => decide ((r.dumped ()).first = 0 ∧ (r.dumped ()).ids = [5, 6, 7] ∧ (r.state.engine ()).phase = .running ∧
      (r.state.requestsMeta ()).isSome = true)) ⟨rfl, rfl⟩ (by decide +kernel)
  obtain ⟨hfirst, hids, hphase, hsome⟩ := of_decide_eq_true hp
  obtain ⟨reqMeta, hm⟩ := Option.isSome_iff_exists.mp hsome
  obtain ⟨-, -, -, hlength, hall⟩ := dumps_tile oneRank r hreach () reqMeta hm hphase
  rw [hids] at hlength
  have hlast := (hall 2 (by rw [hids]; decide)).2
  rw [hfirst] at hlast
  exact ⟨r, hfirst, hids, hlength, hlast⟩

end UnifiedCache.Connector.ContextParallel
