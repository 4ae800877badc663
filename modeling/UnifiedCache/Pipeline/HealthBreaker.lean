/-
  UnifiedCache.Pipeline.HealthBreaker — the health breaker of a pipeline's store
  (ucm/store/pipeline/cc/health_breaker_store.cc, store_health_config.h,
  ucm/store/detail/health_check_executor.h).

  Probes of the store are recorded in a window of their last results, with the number of failures
  among them counted along. At the threshold the breaker opens (`enabled` goes false) and calls that
  start transfers or lookups are answered without the store; a full window of successes closes it.

  A call reads `enabled` first and goes on to the store in a step of its own, so that probes may be
  recorded in between; what the store answers is the label's. Probes are recorded under a mutex, from
  the probe thread or by any caller of `CheckHealth`, in any order.

  - `Inv`: the window is the end of what was recorded and the counter is exact.
  - `recordHealth_trips`, `recordHealth_recovers`: the two transitions.
  - `window_and_gate`: the counter, the transitions and the gate, in every run.
-/

import UnifiedCache.Base.SlidingWindow
import UnifiedCache.Base.Transition

namespace UnifiedCache.Pipeline

open UnifiedCache.Base

/-! ## Statuses and the configuration -/

/-- A status: two are equal if their codes are. -/
structure Status where
  code : Int
  message : String
  deriving DecidableEq, Repr

namespace Status

def ok : Status := ⟨0, ""⟩
def error (message : String) : Status := ⟨-1, message⟩
def invalidParam (message : String) : Status := ⟨-50000, message⟩
def timeout : Status := ⟨-50010, ""⟩
def storeUnhealthy (message : String) : Status := ⟨-50011, message⟩

def success (s : Status) : Bool := s.code == 0

end Status

abbrev Expected (α : Type) := Except Status α

/-- Times are in milliseconds. -/
structure HealthBreakerConfig where
  healthCheckInterval : Int
  healthCheckTimeout : Int
  healthWindowSize : UInt64
  failureThreshold : UInt64

namespace HealthBreakerConfig

/-- The values that the fields have by default. -/
def default : HealthBreakerConfig := ⟨5000, 3000, 8, 2⟩

/-- `StoreHealthConfig::Validate`. -/
def validate (c : HealthBreakerConfig) : Status :=
  if c.healthCheckInterval ≤ 0 ∨ c.healthCheckTimeout ≤ 0 ∨ c.healthWindowSize = 0 ∨ c.failureThreshold = 0 then
    .invalidParam "store health values must be positive"
  else if c.failureThreshold > c.healthWindowSize then .invalidParam "failure threshold exceeds health window"
  else if c.healthCheckTimeout ≥ c.healthCheckInterval then .invalidParam "health timeout must be shorter than interval"
  else .ok

/-- The checks of `HealthBreakerStore::Start`. -/
def start (c : HealthBreakerConfig) (hasStore : Bool) : Status :=
  if !hasStore then .invalidParam "health breaker store target is null"
  else if c.healthWindowSize = 0 ∨ c.failureThreshold = 0 ∨ c.failureThreshold > c.healthWindowSize ∨
      c.healthCheckInterval ≤ 0 ∨ c.healthCheckTimeout ≤ 0 ∨ c.healthCheckTimeout ≥ c.healthCheckInterval then
    .invalidParam "invalid health breaker config"
  else .ok

/-- The configuration that both checks let through. -/
structure Accepted (c : HealthBreakerConfig) : Prop where
  threshold_pos : 0 < c.failureThreshold.toNat
  threshold_le : c.failureThreshold.toNat ≤ c.healthWindowSize.toNat
  timeout_pos : 0 < c.healthCheckTimeout
  timeout_lt : c.healthCheckTimeout < c.healthCheckInterval

variable {c : HealthBreakerConfig}

theorem accepted_of_start {hasStore : Bool} (h : c.start hasStore = .ok) : c.Accepted := by
  unfold start at h
  split at h
  · cases h
  · split at h
    · cases h
    · rename_i hne
      simp only [not_or, Int.not_le, UInt64.not_lt, gt_iff_lt, ge_iff_le, ← UInt64.toNat_inj, UInt64.le_iff_toNat_le] at hne
      obtain ⟨_, hthreshold, hle, _, htimeout, hlt⟩ := hne
      exact ⟨Nat.pos_of_ne_zero hthreshold, hle, htimeout, hlt⟩

/-- What one check lets through the other does. -/
theorem start_eq_ok_iff : c.start true = .ok ↔ c.validate = .ok := by
  unfold start validate
  by_cases h1 : c.healthCheckInterval ≤ 0
  · simp [h1, Status.ok, Status.invalidParam]
  by_cases h2 : c.healthCheckTimeout ≤ 0
  · simp [h1, h2, Status.ok, Status.invalidParam]
  by_cases h3 : c.healthWindowSize = 0
  · simp [h1, h2, h3, Status.ok, Status.invalidParam]
  by_cases h4 : c.failureThreshold = 0
  · simp [h1, h2, h3, h4, Status.ok, Status.invalidParam]
  by_cases h5 : c.failureThreshold > c.healthWindowSize
  · simp [h1, h2, h3, h4, h5, Status.ok, Status.invalidParam]
  by_cases h6 : c.healthCheckTimeout ≥ c.healthCheckInterval
  · simp [h1, h2, h3, h4, h5, h6, Status.ok, Status.invalidParam]
  · simp [h1, h2, h3, h4, h5, h6]

theorem default_starts : default.start true = .ok := by decide

end HealthBreakerConfig

/-! ## The breaker -/

structure HealthBreakerStore where
  enabled : Bool
  healthResults : List Bool
  failureCount : UInt64
  deriving DecidableEq, Repr

/-- How a probe in the executor ends. -/
inductive ProbeRun where
  /-- The most threads allowed are in flight. -/
  | rejected
  | noThread (what : String)
  | notFinished
  | threw (what : String)
  | finished (status : Status)

/-- `HealthCheckExecutor::Run`. -/
def HealthCheckExecutor.run : ProbeRun → Status
  | .rejected => .timeout
  | .noThread what => .error what
  | .notFinished => .timeout
  | .threw what => .error what
  | .finished status => status

namespace HealthBreakerStore

def init : HealthBreakerStore := ⟨true, [], 0⟩

/-- `RecordHealth`, less its log line. -/
def recordHealth (c : HealthBreakerConfig) (b : HealthBreakerStore) (healthy : Bool) : HealthBreakerStore :=
  let full := b.healthResults.length = c.healthWindowSize.toNat
  let kept := if full then b.healthResults.tail else b.healthResults
  let count := if full ∧ b.healthResults.head? = some false then b.failureCount - 1 else b.failureCount
  let healthResults := kept ++ [healthy]
  let failureCount := if !healthy then count + 1 else count
  let newEnabled :=
    if b.enabled = true ∧ failureCount ≥ c.failureThreshold then false
    else if b.enabled = false ∧ healthResults.length = c.healthWindowSize.toNat ∧ failureCount = 0 then true
    else b.enabled
  ⟨newEnabled, healthResults, failureCount⟩

/-- `CheckHealth`. -/
def checkHealth (c : HealthBreakerConfig) (b : HealthBreakerStore) (run : ProbeRun) : HealthBreakerStore × Status :=
  let status := HealthCheckExecutor.run run
  (b.recordHealth c status.success, status)

end HealthBreakerStore

/-! ## Calls -/

section Calls

variable {B T : Type}

/-- A call, on blocks `B` or with a task `T`. -/
inductive Op (B T : Type) where
  | lookup (blocks : List B)
  | lookupOnPrefix (blocks : List B)
  | prefetch (blocks : List B)
  | load (task : T)
  | dump (task : T)
  | check (taskId : Nat)
  | wait (taskId : Nat)
  deriving DecidableEq

inductive Reply where
  | found (r : Expected (List UInt8))
  | lastHit (r : Expected Int)
  | done
  | handle (r : Expected Nat)
  | finished (r : Expected Bool)
  | status (s : Status)

namespace HealthBreakerStore

variable (b : HealthBreakerStore)

/-! What each operation answers without the store; `none`: it returns what the store does. -/

def lookup (blocks : List B) : Option Reply := if !b.enabled then some (.found (.ok (List.replicate blocks.length 0))) else none

def lookupOnPrefix (_blocks : List B) : Option Reply := if !b.enabled then some (.lastHit (.ok (-1))) else none

def prefetch (_blocks : List B) : Option Reply := if b.enabled then none else some .done

def load (storeId : String) (_task : T) : Option Reply :=
  if !b.enabled then some (.handle (.error (.storeUnhealthy storeId))) else none

def dump (storeId : String) (_task : T) : Option Reply :=
  if !b.enabled then some (.handle (.error (.storeUnhealthy storeId))) else none

def check (_b : HealthBreakerStore) (_taskId : Nat) : Option Reply := none

def wait (_b : HealthBreakerStore) (_taskId : Nat) : Option Reply := none

def enter (storeId : String) : Op B T → Option Reply
  | .lookup blocks => b.lookup blocks
  | .lookupOnPrefix blocks => b.lookupOnPrefix blocks
  | .prefetch blocks => b.prefetch blocks
  | .load task => b.load storeId task
  | .dump task => b.dump storeId task
  | .check taskId => b.check taskId
  | .wait taskId => b.wait taskId

end HealthBreakerStore

/-! ## Runs -/

/-- What an operation of this kind can return. -/
def Reply.fits : Op B T → Reply → Bool
  | .lookup _, .found _ => true
  | .lookupOnPrefix _, .lastHit _ => true
  | .prefetch _, .done => true
  | .load _, .handle _ => true
  | .dump _, .handle _ => true
  | .check _, .finished _ => true
  | .wait _, .status _ => true
  | _, _ => false

inductive Stage where
  | refused (r : Reply)
  | forwarding
  /-- The store has been called and has answered. -/
  | answered (r : Reply)

structure Call (B T : Type) where
  op : Op B T
  /-- What the call read of `enabled`. -/
  sawEnabled : Bool
  stage : Stage

structure State (B T : Type) where
  breaker : HealthBreakerStore
  /-- All results recorded, the oldest first. -/
  results : List Bool
  /-- All calls made. -/
  calls : List (Call B T)

inductive Act (B T : Type) where
  | checkHealth (run : ProbeRun)
  | call (op : Op B T)
  /-- The store gets call `i` and answers `r`. -/
  | store (i : Nat) (r : Reply)

variable (c : HealthBreakerConfig) (storeId : String)

def step (s : State B T) : Act B T → Option (State B T)
  | .checkHealth run =>
    let (breaker, status) := s.breaker.checkHealth c run
    some { s with breaker := breaker, results := s.results ++ [status.success] }
  | .call op =>
    let stage := match s.breaker.enter storeId op with
      | some r => Stage.refused r
      | none => .forwarding
    some { s with calls := s.calls ++ [⟨op, s.breaker.enabled, stage⟩] }
  | .store i r =>
    match s.calls[i]? with
    | some ⟨op, sawEnabled, .forwarding⟩ =>
      if r.fits op then some { s with calls := s.calls.set i ⟨op, sawEnabled, .answered r⟩ } else none
    | _ => none

def system : System (State B T) (Act B T) where
  init s := s = ⟨.init, [], []⟩
  step := step c storeId

/-- The failures among the last `min(window, seen)` results. -/
def failures (results : List Bool) : Nat := (results.rtake (min c.healthWindowSize.toNat results.length)).countP (!·)

/-- What the breaker answers in the store's place; `none`: the call is not held back. -/
def refusal : Op B T → Option Reply
  | .lookup blocks => some (.found (.ok (List.replicate blocks.length 0)))
  | .lookupOnPrefix _ => some (.lastHit (.ok (-1)))
  | .prefetch _ => some .done
  | .load _ => some (.handle (.error (.storeUnhealthy storeId)))
  | .dump _ => some (.handle (.error (.storeUnhealthy storeId)))
  | .check _ => none
  | .wait _ => none

/-! ## One step -/

variable {c storeId}

theorem enter_eq (b : HealthBreakerStore) (op : Op B T) :
    b.enter storeId op = if b.enabled = true then none else refusal storeId op := by
  cases op <;> cases h : b.enabled <;>
    simp [HealthBreakerStore.enter, HealthBreakerStore.lookup, HealthBreakerStore.lookupOnPrefix,
      HealthBreakerStore.prefetch, HealthBreakerStore.load, HealthBreakerStore.dump, HealthBreakerStore.check,
      HealthBreakerStore.wait, refusal, h]

/-- The breaker and what was recorded. -/
structure Inv (c : HealthBreakerConfig) (b : HealthBreakerStore) (results : List Bool) : Prop where
  window : b.healthResults = results.rtake c.healthWindowSize.toNat
  counted : b.failureCount.toNat = b.healthResults.countP (!·)
  closed : b.enabled = true → failures c results < c.failureThreshold.toNat
  tripped : b.enabled = false → ¬ (c.healthWindowSize.toNat ≤ results.length ∧ failures c results = 0)

theorem failures_eq (results : List Bool) : failures c results = (results.rtake c.healthWindowSize.toNat).countP (!·) := by
  rw [failures, rtake_min]

theorem init_inv (hc : c.Accepted) : Inv c .init [] where
  window := by simp [HealthBreakerStore.init]
  counted := rfl
  closed _ := by simpa [failures_eq] using hc.threshold_pos
  tripped h := by cases h

section Record

variable {b : HealthBreakerStore} {results : List Bool}

theorem recordHealth_window (hc : c.Accepted) (h : Inv c b results) (healthy : Bool) :
    (b.recordHealth c healthy).healthResults = (results ++ [healthy]).rtake c.healthWindowSize.toNat := by
  have hpos : 0 < c.healthWindowSize.toNat := Nat.lt_of_lt_of_le hc.threshold_pos hc.threshold_le
  rw [← slide_rtake hpos, ← h.window]
  rfl

/-- The counter goes down by the result that leaves and up by the one that comes: neither wraps. -/
theorem recordHealth_counted (hc : c.Accepted) (h : Inv c b results) (healthy : Bool) :
    (b.recordHealth c healthy).failureCount.toNat = (b.recordHealth c healthy).healthResults.countP (!·) := by
  set w := c.healthWindowSize.toNat with hw
  set kept := if b.healthResults.length = w then b.healthResults.tail else b.healthResults with hkept
  set count := if b.healthResults.length = w ∧ b.healthResults.head? = some false then b.failureCount - 1 else b.failureCount
    with hcount
  have hkeptCount : count.toNat = kept.countP (!·) := by
    by_cases hfull : b.healthResults.length = w
    · rw [hkept, if_pos hfull, countP_tail, ← h.counted, hcount]
      by_cases hhead : b.healthResults.head? = some false
      · have hpos : 0 < b.failureCount.toNat := by
          rw [h.counted]
          exact countP_head_pos (by simp [hhead])
        have hge : (1 : UInt64) ≤ b.failureCount := UInt64.le_iff_toNat_le.mpr (by rw [UInt64.toNat_one]; omega)
        rw [if_pos ⟨hfull, hhead⟩, UInt64.toNat_sub_of_le _ _ hge]
        simp [hhead]
      · have hkeep : ¬ (b.healthResults.head?.map (!·)).getD false = true := by
          cases hq : b.healthResults.head? with
          | none => simp
          | some x => cases x <;> simp_all
        rw [if_neg (fun hand => hhead hand.2), if_neg hkeep, Nat.sub_zero]
    · rw [hkept, if_neg hfull, hcount, if_neg (fun hand => hfull hand.1), h.counted]
  have hlen : b.healthResults.length ≤ w := by
    rw [h.window, length_rtake]
    exact Nat.min_le_left _ _
  have hroom : kept.countP (!·) + 1 ≤ w := by
    have hle : kept.countP (!·) ≤ kept.length := List.countP_le_length
    have hpos : 0 < w := Nat.lt_of_lt_of_le hc.threshold_pos hc.threshold_le
    have hkeptLen : kept.length < w := by
      rw [hkept]
      split
      · rw [List.length_tail]
        omega
      · omega
    omega
  have hgoal : (if !healthy then count + 1 else count).toNat = (kept ++ [healthy]).countP (!·) := by
    rw [List.countP_append, List.countP_singleton]
    cases healthy with
    | true => simpa using hkeptCount
    | false =>
      have hfits : count.toNat + 1 < 2 ^ 64 := by
        have := c.healthWindowSize.toNat_lt
        omega
      simp only [Bool.not_false, if_true, ← hkeptCount, UInt64.toNat_add]
      exact Nat.mod_eq_of_lt hfits
  exact hgoal

theorem recordHealth_failures (hc : c.Accepted) (h : Inv c b results) (healthy : Bool) :
    (b.recordHealth c healthy).failureCount.toNat = failures c (results ++ [healthy]) := by
  rw [recordHealth_counted hc h, recordHealth_window hc h, failures_eq]

/-- One result adds at most one failure. -/
theorem failures_append_le (hc : c.Accepted) (results : List Bool) (healthy : Bool) :
    failures c (results ++ [healthy]) ≤ failures c results + 1 := by
  have hpos : 0 < c.healthWindowSize.toNat := Nat.lt_of_lt_of_le hc.threshold_pos hc.threshold_le
  rw [failures_eq, failures_eq, ← slide_rtake hpos]
  exact countP_slide_le _ _ _ _

theorem recordHealth_full (hc : c.Accepted) (h : Inv c b results) (healthy : Bool) :
    (b.recordHealth c healthy).healthResults.length = c.healthWindowSize.toNat ↔
    c.healthWindowSize.toNat ≤ (results ++ [healthy]).length := by
  rw [recordHealth_window hc h, length_rtake]
  omega

theorem recordHealth_enabled (hc : c.Accepted) (h : Inv c b results) (healthy : Bool) :
    (b.recordHealth c healthy).enabled =
      if b.enabled = true ∧ c.failureThreshold.toNat ≤ failures c (results ++ [healthy]) then false
      else if b.enabled = false ∧ c.healthWindowSize.toNat ≤ (results ++ [healthy]).length ∧
        failures c (results ++ [healthy]) = 0 then true
      else b.enabled := by
  have hcount := recordHealth_failures hc h healthy
  have hfull := recordHealth_full hc h healthy
  have hge : ((b.recordHealth c healthy).failureCount ≥ c.failureThreshold) =
      (c.failureThreshold.toNat ≤ failures c (results ++ [healthy])) := by
    rw [ge_iff_le, UInt64.le_iff_toNat_le, hcount]
  have hzero : ((b.recordHealth c healthy).failureCount = 0) = (failures c (results ++ [healthy]) = 0) := by
    rw [← hcount, ← UInt64.toNat_inj, UInt64.toNat_zero]
  simp only [← hge, ← hzero, ← hfull]
  rfl

/-- The breaker opens where the count comes to the threshold. -/
theorem recordHealth_trips (hc : c.Accepted) (h : Inv c b results) (healthy : Bool) (hb : b.enabled = true) :
    (b.recordHealth c healthy).enabled = false ↔ failures c (results ++ [healthy]) = c.failureThreshold.toNat := by
  have hbefore := h.closed hb
  have hstep := failures_append_le hc results healthy
  rw [recordHealth_enabled hc h healthy]
  by_cases hge : c.failureThreshold.toNat ≤ failures c (results ++ [healthy])
  · rw [if_pos ⟨hb, hge⟩]
    simp only [true_iff]
    omega
  · rw [if_neg (fun hand => hge hand.2), if_neg (fun hand => by rw [hb] at hand; cases hand.1), hb]
    constructor
    · intro hcontra
      cases hcontra
    · intro heq
      omega

/-- It closes where a full window has no failure. -/
theorem recordHealth_recovers (hc : c.Accepted) (h : Inv c b results) (healthy : Bool) (hb : b.enabled = false) :
    (b.recordHealth c healthy).enabled = true ↔
      c.healthWindowSize.toNat ≤ (results ++ [healthy]).length ∧ failures c (results ++ [healthy]) = 0 := by
  rw [recordHealth_enabled hc h healthy, if_neg (fun hand => by rw [hb] at hand; cases hand.1)]
  by_cases hclean : c.healthWindowSize.toNat ≤ (results ++ [healthy]).length ∧ failures c (results ++ [healthy]) = 0
  · rw [if_pos ⟨hb, hclean⟩]
    simp only [hclean, and_self]
  · rw [if_neg (fun hand => hclean hand.2), hb]
    simp only [Bool.false_eq_true, false_iff]
    exact hclean

theorem recordHealth_inv (hc : c.Accepted) (h : Inv c b results) (healthy : Bool) :
    Inv c (b.recordHealth c healthy) (results ++ [healthy]) where
  window := recordHealth_window hc h healthy
  counted := recordHealth_counted hc h healthy
  closed hb' := by
    have hstep := failures_append_le hc results healthy
    cases hb : b.enabled with
    | true =>
      have hnot : ¬ failures c (results ++ [healthy]) = c.failureThreshold.toNat := by
        rw [← recordHealth_trips hc h healthy hb, hb']
        decide
      have hbefore := h.closed hb
      omega
    | false =>
      have hclean := (recordHealth_recovers hc h healthy hb).mp hb'
      have hpos := hc.threshold_pos
      omega
  tripped hb' := by
    intro hclean
    cases hb : b.enabled with
    | true =>
      have hcount := (recordHealth_trips hc h healthy hb).mp hb'
      have hpos := hc.threshold_pos
      omega
    | false =>
      have hrecovers := (recordHealth_recovers hc h healthy hb).mpr hclean
      rw [hb'] at hrecovers
      cases hrecovers

end Record

/-! ## Every run -/

/-- A call that read `enabled` false is answered by the breaker; any other is the store's, and so are
    all `Check`s and `Wait`s. -/
def Call.Gated (storeId : String) (call : Call B T) : Prop :=
  match (if call.sawEnabled = true then none else refusal storeId call.op) with
  | some r => call.stage = .refused r
  | none => call.stage = .forwarding ∨ ∃ r, call.stage = .answered r

structure StateInv (c : HealthBreakerConfig) (storeId : String) (s : State B T) : Prop where
  breaker : Inv c s.breaker s.results
  gated : ∀ call ∈ s.calls, call.Gated storeId

/-- What a step does. -/
theorem step_cases {s s' : State B T} {a : Act B T} (h : step c storeId s a = some s') :
    (∃ healthy, s' = { s with breaker := s.breaker.recordHealth c healthy, results := s.results ++ [healthy] }) ∨
    (∃ op call, a = .call op ∧ call.op = op ∧ call.sawEnabled = s.breaker.enabled ∧ call.Gated storeId ∧
      s' = { s with calls := s.calls ++ [call] }) ∨
    (∃ i r call, a = .store i r ∧ s.calls[i]? = some call ∧ call.stage = .forwarding ∧
      s' = { s with calls := s.calls.set i { call with stage := .answered r } }) := by
  cases a with
  | checkHealth run =>
    obtain rfl := Option.some.inj h
    exact .inl ⟨_, rfl⟩
  | call op =>
    refine .inr (.inl ⟨op, _, rfl, rfl, rfl, ?_, (Option.some.inj h).symm⟩)
    simp only [Call.Gated, enter_eq]
    split <;> simp_all
  | store i r =>
    simp only [step] at h
    split at h
    · rename_i op sawEnabled hcall
      simp only [Option.ite_none_right_eq_some, Option.some.injEq] at h
      obtain ⟨_, rfl⟩ := h
      exact .inr (.inr ⟨i, r, _, rfl, hcall, rfl, rfl⟩)
    · cases h

theorem Call.Gated.answered {call : Call B T} (h : call.Gated storeId) (hstage : call.stage = .forwarding) (r : Reply) :
    Call.Gated storeId { call with stage := .answered r } := by
  unfold Call.Gated at h ⊢
  split at h
  · rw [hstage] at h
    cases h
  · rename_i hnone
    simp only [hnone]
    exact .inr ⟨r, rfl⟩

theorem step_inv (hc : c.Accepted) {s s' : State B T} {a : Act B T} (h : StateInv c storeId s)
    (hstep : step c storeId s a = some s') :
    StateInv c storeId s' := by
  rcases step_cases hstep with ⟨healthy, rfl⟩ | ⟨_, call, _, _, _, hgated, rfl⟩ | ⟨i, r, call, _, hcall, hstage, rfl⟩
  · exact ⟨recordHealth_inv hc h.breaker healthy, h.gated⟩
  · refine ⟨h.breaker, fun other hmem => ?_⟩
    rcases List.mem_append.mp hmem with hold | hnew
    · exact h.gated other hold
    · obtain rfl := List.mem_singleton.mp hnew
      exact hgated
  · refine ⟨h.breaker, fun other hmem => ?_⟩
    rcases List.mem_or_eq_of_mem_set hmem with hold | rfl
    · exact h.gated other hold
    · exact (h.gated call (List.mem_of_getElem? hcall)).answered hstage r

theorem reach_inv (hc : c.Accepted) {s : State B T} (hs : Reach (system c storeId) Any s) : StateInv c storeId s := by
  induction hs with
  | init hinit =>
    obtain rfl := hinit
    exact ⟨init_inv hc, fun call hcall => absurd hcall List.not_mem_nil⟩
  | step a _ _ hstep ih => exact step_inv hc ih hstep

/-- The promises in a state. -/
structure WindowAndGate (c : HealthBreakerConfig) (storeId : String) (s : State B T) : Prop where
  count : s.breaker.failureCount.toNat = failures c s.results
  /-- It opens at the steps where the count comes to the threshold, from below. -/
  trips : ∀ a s', step c storeId s a = some s' → s.breaker.enabled = true →
    (s'.breaker.enabled = false ↔ failures c s.results < c.failureThreshold.toNat ∧
      failures c s'.results = c.failureThreshold.toNat)
  /-- It closes at the steps after which the window is full and has no failure. -/
  recovers : ∀ a s', step c storeId s a = some s' → s.breaker.enabled = false →
    (s'.breaker.enabled = true ↔ c.healthWindowSize.toNat ≤ s'.results.length ∧ failures c s'.results = 0)
  /-- A call made while it is open, of a kind that is held back, has its refusal at once. -/
  refuses : ∀ op r s', s.breaker.enabled = false → refusal storeId op = some r → step c storeId s (.call op) = some s' →
    s'.calls = s.calls ++ [⟨op, false, .refused r⟩]
  /-- The store never gets a call that was refused. -/
  untouched : ∀ i call r, s.calls[i]? = some call → call.sawEnabled = false → refusal storeId call.op = some r →
    call.stage = .refused r ∧ ∀ r', step c storeId s (.store i r') = none
  /-- `Check` and `Wait` go to the store whatever the breaker says, and return what it answers. -/
  passes : ∀ i call, s.calls[i]? = some call → refusal storeId call.op = none →
    (∃ r, call.stage = .answered r) ∨ ∀ r : Reply, r.fits call.op = true → ∃ s', step c storeId s (.store i r) = some s' ∧
      s'.calls[i]? = some { call with stage := .answered r }

/-- Every run of a breaker that has started: the count is exact, the transitions are where the
    count says, and an open breaker keeps its calls from the store, `Check` and `Wait` apart. -/
theorem window_and_gate (hstart : c.start true = .ok) {s : State B T} (hs : Reach (system c storeId) Any s) :
    WindowAndGate c storeId s := by
  have hc := HealthBreakerConfig.accepted_of_start hstart
  have h := reach_inv hc hs
  refine ⟨?_, ?_, ?_, ?_, ?_, ?_⟩
  · rw [h.breaker.counted, h.breaker.window, failures_eq]
  · intro a s' hstep hb
    have hbefore := h.breaker.closed hb
    rcases step_cases hstep with ⟨healthy, rfl⟩ | ⟨_, _, _, _, _, _, rfl⟩ | ⟨_, _, _, _, _, _, rfl⟩
    · rw [recordHealth_trips hc h.breaker healthy hb]
      exact (and_iff_right hbefore).symm
    all_goals
      simp only [hb, Bool.true_eq_false, false_iff]
      omega
  · intro a s' hstep hb
    have hbefore := h.breaker.tripped hb
    rcases step_cases hstep with ⟨healthy, rfl⟩ | ⟨_, _, _, _, _, _, rfl⟩ | ⟨_, _, _, _, _, _, rfl⟩
    · exact recordHealth_recovers hc h.breaker healthy hb
    all_goals
      simp only [hb, Bool.false_eq_true, false_iff]
      exact hbefore
  · intro op r s' hb hrefusal hstep
    obtain rfl := Option.some.inj hstep
    simp only [enter_eq, hb, hrefusal, Bool.false_eq_true, if_false]
  · intro i call r hcall hsaw hrefusal
    have hgated := h.gated call (List.mem_of_getElem? hcall)
    simp only [Call.Gated, hsaw, hrefusal, Bool.false_eq_true, if_false] at hgated
    refine ⟨hgated, fun r' => ?_⟩
    obtain ⟨op, sawEnabled, stage⟩ := call
    obtain rfl : stage = .refused r := hgated
    simp only [step, hcall]
  · intro i call hcall hrefusal
    have hgated := h.gated call (List.mem_of_getElem? hcall)
    simp only [Call.Gated, hrefusal, ite_self] at hgated
    rcases hgated with hforwarding | hanswered
    · refine .inr fun r hfits => ?_
      obtain ⟨op, sawEnabled, stage⟩ := call
      obtain rfl : stage = .forwarding := hforwarding
      have hi : i < s.calls.length := (List.getElem?_eq_some_iff.mp hcall).1
      refine ⟨{ s with calls := s.calls.set i ⟨op, sawEnabled, .answered r⟩ }, ?_, List.getElem?_set_self hi⟩
      simp only [step, hcall]
      rw [if_pos hfits]
    · exact .inl hanswered

/-- A window of three: two failures trip the breaker, three successes let it recover, and the window wraps. -/
theorem window_and_gate_after_recovery : ∃ s : State Nat Nat, Reach (system ⟨5000, 3000, 3, 2⟩ "posix-0") Any s ∧
    s.breaker.enabled = true ∧ s.results.length = 7 ∧ s.calls.map (·.sawEnabled) = [true, false, true] ∧
    WindowAndGate ⟨5000, 3000, 3, 2⟩ "posix-0" s := by
  obtain ⟨s, hs, hp⟩ := exists_of_replay (S := system (B := Nat) (T := Nat) ⟨5000, 3000, 3, 2⟩ "posix-0")
    (p := fun s => s.breaker.enabled && s.results.length == 7 && s.calls.map (·.sawEnabled) == [true, false, true])
    [.checkHealth .notFinished, .call (.load 7), .checkHealth (.finished (.error "io")), .call (.lookup [1, 2]),
      .store 0 (.handle (.ok 1)),
      .checkHealth (.finished .ok), .checkHealth (.finished .ok), .checkHealth (.finished .ok), .call (.load 8),
      .checkHealth .rejected,
      .checkHealth (.finished .ok)] (s := ⟨.init, [], []⟩) rfl (by decide)
  obtain ⟨⟨henabled, hlength⟩, hcalls⟩ : (s.breaker.enabled = true ∧ s.results.length = 7) ∧
      s.calls.map (·.sawEnabled) = [true, false, true] := by
    simpa using hp
  exact ⟨s, hs, henabled, hlength, hcalls, window_and_gate (by decide) hs⟩

end Calls

end UnifiedCache.Pipeline
