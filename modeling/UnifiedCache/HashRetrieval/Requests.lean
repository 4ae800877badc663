/-
  UnifiedCache.HashRetrieval.Requests — the requests of the retrieval backend, and its workers
  (hash_retrieval_backend.cpp: `submit`, `poll`, `wait`, `get_result`, and the loop of `worker_loop`).

  Callers: `submit` takes a number, and then pushes the request under the lock; `wait` takes the status of
  a number under the lock, and then waits for it alone; `poll` and `get_result` are one step each.
  Workers: each takes the first request, computes it, and stores its result and sets its status under the
  lock. A status is an object of its own. Numbers come round after 2^32 requests, and statuses are never
  given up.

  In the runs in which each request `Fits`, with a number that is new, what `get_result` returns for a
  number are the rows of the request that was pushed with it, and right; and no step is undefined
  (`get_result_exact`). Rows that keep less than the first one are read past their end
  (`short_row_overread`).

  Where the code's behaviour is undefined there is no step. `asked` and `fetched` are ghosts.
-/

import UnifiedCache.Base.Transition
import UnifiedCache.HashRetrieval.Rows

namespace UnifiedCache.HashRetrieval

open UnifiedCache.Base

/-- A C-contiguous array of queries. -/
structure QueryArray where
  batch : Nat
  dim : Nat
  data : List UInt8
  size : data.length = batch * dim

inductive CallerPc (dim : Nat) where
  | idle
  /-- `submit` has the number of the request. -/
  | pushing (req : Request dim)
  | submitted (reqId : Int32)
  | polled (reqId : Int32) (ready : Bool)
  | waiting (reqId : Int32) (status : Nat)
  | waited (reqId : Int32)
  | got (reqId : Int32) (res : Result)
  | threw (what : String)

def CallerPc.calling {dim : Nat} : CallerPc dim → Bool
  | .pushing _ | .waiting _ _ => true
  | _ => false

inductive WorkerPc (dim : Nat) where
  | idle
  | taken (req : Request dim)
  | computed (req : Request dim) (res : Result)

def WorkerPc.request {dim : Nat} : WorkerPc dim → Option (Request dim)
  | .idle => none
  | .taken req | .computed req _ => some req

structure Backend (ι : Type) (dim : Nat) where
  requests : List (Request dim)
  results : Int32 → Option Result
  requestStatus : Int32 → Option Nat
  /-- How many statuses there are. -/
  statuses : Nat
  done : Nat → Bool
  nextReqId : Int32
  worker : Nat → WorkerPc dim
  caller : ι → CallerPc dim
  asked : Int32 → Option (Request dim)
  fetched : Int32 → Bool

inductive BackendLabel (ι : Type) where
  | submit (t : ι) (query : QueryArray) (topk : Nat) (indexes : List (List Int))
  | push (t : ι)
  | poll (t : ι) (reqId : Int32)
  | wait (t : ι) (reqId : Int32)
  | pass (t : ι)
  | getResult (t : ι) (reqId : Int32)
  | pop (worker : Nat)
  /-- With the orders that `partial_sort` leaves. -/
  | compute (worker : Nat) (orders : List (List (Nat × Int)))
  | publish (worker : Nat)

section Steps

variable {ι : Type} [DecidableEq ι] (arch : Arch) (T : KeyTable) (numWorkers : Nat) (s : Backend ι T.dim)

def Backend.setCaller (t : ι) (pc : CallerPc T.dim) : Backend ι T.dim := { s with caller := Function.update s.caller t pc }

def Backend.setWorker (w : Nat) (pc : WorkerPc T.dim) : Backend ι T.dim := { s with worker := Function.update s.worker w pc }

/-- `submit`, up to the lock. -/
def submit (t : ι) (query : QueryArray) (topk : Nat) (indexes : List (List Int)) : Backend ι T.dim :=
  if hdim : query.dim = T.dim then
    if hbatch : indexes.length = query.batch then
      let req : Request T.dim := ⟨s.nextReqId, query.data, topk, indexes.map fun row => row.filter (· ≠ -1), by
        rw [query.size, hdim, List.length_map, hbatch]⟩
      { s with nextReqId := s.nextReqId + 1, caller := Function.update s.caller t (.pushing req) }
    else s.setCaller T t (.threw "Query and indexes batch mismatch")
  else s.setCaller T t (.threw "Query dim mismatch")

def backendStep : BackendLabel ι → Option (Backend ι T.dim)
  | .submit t query topk indexes => if (s.caller t).calling = true then none else some (submit T s t query topk indexes)
  | .push t =>
    match s.caller t with
    | .pushing req =>
      some { s with
        requests := s.requests ++ [req]
        requestStatus := Function.update s.requestStatus req.reqId (some s.statuses)
        statuses := s.statuses + 1
        done := Function.update s.done s.statuses false
        caller := Function.update s.caller t (.submitted req.reqId)
        asked := Function.update s.asked req.reqId (some req)
        fetched := Function.update s.fetched req.reqId false }
    | _ => none
  | .poll t reqId => if (s.caller t).calling = true then none else some (s.setCaller T t (.polled reqId (s.results reqId).isSome))
  | .wait t reqId =>
    if (s.caller t).calling = true then none
    else
      match s.requestStatus reqId with
      | some status => some (s.setCaller T t (.waiting reqId status))
      | none => some (s.setCaller T t (.threw "Bad req_id"))
  | .pass t =>
    match s.caller t with
    | .waiting reqId status => if s.done status = true then some (s.setCaller T t (.waited reqId)) else none
    | _ => none
  | .getResult t reqId =>
    if (s.caller t).calling = true then none
    else
      match s.results reqId with
      | none => some (s.setCaller T t (.threw "Result not ready"))
      | some res =>
        (pack res).map fun out =>
          { s with
            results := Function.update s.results reqId none
            caller := Function.update s.caller t (.got reqId out)
            fetched := Function.update s.fetched reqId true }
  | .pop w =>
    match s.worker w, s.requests with
    | .idle, req :: rest => if w < numWorkers
        then some { s with requests := rest, worker := Function.update s.worker w (.taken req) } else none
    | _, _ => none
  | .compute w orders =>
    match s.worker w with
    | .taken req =>
      if List.Forall₂ (RowOrder arch T req.topk) req.rows orders
        then some (s.setWorker T w (.computed req (rowsResult req.topk orders))) else none
    | _ => none
  | .publish w =>
    match s.worker w with
    | .computed req res =>
      match s.requestStatus req.reqId with
      | some status =>
        some { s with
          results := Function.update s.results req.reqId (some res)
          done := Function.update s.done status true
          worker := Function.update s.worker w .idle }
      | none => none
    | _ => none

end Steps

structure Backend.IsInit {ι : Type} {dim : Nat} (s : Backend ι dim) : Prop where
  requests : s.requests = []
  results : ∀ id, s.results id = none
  requestStatus : ∀ id, s.requestStatus id = none
  worker : ∀ w, s.worker w = .idle
  caller : ∀ t, s.caller t = .idle
  asked : ∀ id, s.asked id = none

def backend (ι : Type) [DecidableEq ι] (arch : Arch) (T : KeyTable) (numWorkers : Nat) :
    System (Backend ι T.dim) (BackendLabel ι) where
  init := Backend.IsInit
  step s l := backendStep arch T numWorkers s l

variable {ι : Type} {arch : Arch} {T : KeyTable} {numWorkers : Nat} {s s' : Backend ι T.dim} {l : BackendLabel ι}

/-- A request is pushed with a number that is new, and fits. -/
def Fitting (T : KeyTable) (s : Backend ι T.dim) : BackendLabel ι → Prop
  | .push t => ∀ req, s.caller t = .pushing req → s.requestStatus req.reqId = none ∧ InRange T req ∧ Fits T req
  | _ => True

/-- What is known of the numbers. -/
structure NumberInv (T : KeyTable) (s : Backend ι T.dim) : Prop where
  asked : ∀ id req, s.asked id = some req → InRange T req ∧ Fits T req
  status : ∀ id, (s.requestStatus id).isSome ↔ (s.asked id).isSome
  below : ∀ id status, s.requestStatus id = some status → status < s.statuses
  distinct : ∀ id id' status, s.requestStatus id = some status → s.requestStatus id' = some status → id = id'
  requests : ∀ req, req ∈ s.requests → s.asked req.reqId = some req
  worker : ∀ w req, (s.worker w).request = some req → s.asked req.reqId = some req
  waiting : ∀ t id status, s.caller t = .waiting id status → s.requestStatus id = some status

/-- What is known of the results. -/
structure ResultInv (arch : Arch) (T : KeyTable) (s : Backend ι T.dim) : Prop where
  computed : ∀ w req res, s.worker w = .computed req res → Computes arch T req res
  results : ∀ id res, s.results id = some res → ∃ req, s.asked id = some req ∧ Computes arch T req res
  got : ∀ t id out, s.caller t = .got id out → ∃ req, s.asked id = some req ∧ RightRows T req out
  done : ∀ id status, s.requestStatus id = some status → s.done status = true → (s.results id).isSome ∨ s.fetched id = true
  waited : ∀ t id, s.caller t = .waited id → ∃ status, s.requestStatus id = some status ∧ s.done status = true

/-! ## The callers -/

/-- A caller comes to another point, and nothing else happens. -/
theorem NumberInv.setCaller [DecidableEq ι] {t : ι} {pc : CallerPc T.dim} (h : NumberInv T s)
    (hcaller : s'.caller = Function.update s.caller t pc)
    (hsame : s'.requests = s.requests ∧ s'.requestStatus = s.requestStatus ∧ s'.statuses = s.statuses ∧ s'.worker = s.worker ∧
      s'.asked = s.asked)
    (hpc : ∀ id status, pc = .waiting id status → s.requestStatus id = some status) : NumberInv T s' := by
  obtain ⟨hreq, hstat, hcount, hworker, hasked⟩ := hsame
  constructor
  · rw [hasked]
    exact h.asked
  · rw [hstat, hasked]
    exact h.status
  · rw [hstat, hcount]
    exact h.below
  · rw [hstat]
    exact h.distinct
  · rw [hreq, hasked]
    exact h.requests
  · rw [hworker, hasked]
    exact h.worker
  · intro t' id status hw
    rw [hstat]
    rw [hcaller] at hw
    by_cases e : t' = t
    · rw [e, Function.update_self] at hw
      exact hpc id status hw
    · rw [Function.update_of_ne e] at hw
      exact h.waiting t' id status hw

theorem ResultInv.setCaller [DecidableEq ι] {t : ι} {pc : CallerPc T.dim} (h : ResultInv arch T s)
    (hcaller : s'.caller = Function.update s.caller t pc)
    (hsame : s'.results = s.results ∧ s'.requestStatus = s.requestStatus ∧ s'.done = s.done ∧ s'.worker = s.worker ∧
      s'.asked = s.asked ∧
      s'.fetched = s.fetched)
    (hgot : ∀ id out, pc ≠ .got id out) (hwaited : ∀ id, pc = .waited id → ∃ status, s.requestStatus id = some status ∧
      s.done status = true) :
    ResultInv arch T s' := by
  obtain ⟨hres, hstat, hdone, hworker, hasked, hfetched⟩ := hsame
  constructor
  · rw [hworker]
    exact h.computed
  · rw [hres, hasked]
    exact h.results
  · intro t' id out hpc
    rw [hasked]
    rw [hcaller] at hpc
    by_cases e : t' = t
    · rw [e, Function.update_self] at hpc
      exact absurd hpc (hgot id out)
    · rw [Function.update_of_ne e] at hpc
      exact h.got t' id out hpc
  · rw [hstat, hdone, hres, hfetched]
    exact h.done
  · intro t' id hpc
    rw [hstat, hdone]
    rw [hcaller] at hpc
    by_cases e : t' = t
    · rw [e, Function.update_self] at hpc
      exact hwaited id hpc
    · rw [Function.update_of_ne e] at hpc
      exact h.waited t' id hpc

theorem submit_cases [DecidableEq ι] (t : ι) (query : QueryArray) (topk : Nat) (indexes : List (List Int)) :
    ∃ nextReqId pc, submit T s t query topk indexes = { s with nextReqId := nextReqId, caller := Function.update s.caller t pc } ∧
      (∀ id status, pc ≠ .waiting id status) ∧ (∀ id out, pc ≠ .got id out) ∧ ∀ id, pc ≠ .waited id := by
  unfold submit
  split
  · split
    · exact ⟨_, _, rfl, nofun, nofun, nofun⟩
    · exact ⟨s.nextReqId, _, rfl, nofun, nofun, nofun⟩
  · exact ⟨s.nextReqId, _, rfl, nofun, nofun, nofun⟩

theorem NumberInv.push [DecidableEq ι] {t : ι} {req : Request T.dim} (h : NumberInv T s) (hnew : s.requestStatus req.reqId = none)
    (hrange : InRange T req) (hfits : Fits T req) :
    NumberInv T { s with
      requests := s.requests ++ [req]
      requestStatus := Function.update s.requestStatus req.reqId (some s.statuses)
      statuses := s.statuses + 1
      done := Function.update s.done s.statuses false
      caller := Function.update s.caller t (.submitted req.reqId)
      asked := Function.update s.asked req.reqId (some req)
      fetched := Function.update s.fetched req.reqId false } := by
  have hnone : s.asked req.reqId = none := by
    have hiff := h.status req.reqId
    rw [hnew] at hiff
    exact Option.not_isSome_iff_eq_none.mp fun e => absurd (hiff.mpr e) (by nofun)
  have hne : ∀ id req', s.asked id = some req' → id ≠ req.reqId := by
    intro id req' hid e
    rw [e, hnone] at hid
    cases hid
  have hother : ∀ id, id ≠ req.reqId → Function.update s.requestStatus req.reqId (some s.statuses) id = s.requestStatus id :=
    fun id e => Function.update_of_ne e ..
  have hstatus : ∀ id status, Function.update s.requestStatus req.reqId (some s.statuses) id = some status →
      (id = req.reqId ∧ status = s.statuses) ∨ (id ≠ req.reqId ∧ s.requestStatus id = some status) := by
    intro id status hid
    by_cases e : id = req.reqId
    · rw [e, Function.update_self] at hid
      exact .inl ⟨e, (Option.some.inj hid).symm⟩
    · rw [hother id e] at hid
      exact .inr ⟨e, hid⟩
  constructor
  · intro id req' hid
    dsimp only at hid
    by_cases e : id = req.reqId
    · rw [e, Function.update_self] at hid
      obtain rfl := Option.some.inj hid
      exact ⟨hrange, hfits⟩
    · rw [Function.update_of_ne e] at hid
      exact h.asked id req' hid
  · intro id
    dsimp only
    by_cases e : id = req.reqId
    · rw [e, Function.update_self, Function.update_self]
      exact Iff.rfl
    · rw [Function.update_of_ne e, Function.update_of_ne e]
      exact h.status id
  · intro id status hid
    dsimp only
    rcases hstatus id status hid with ⟨-, rfl⟩ | ⟨-, hid⟩
    · exact Nat.lt_succ_self _
    · exact Nat.lt_succ_of_lt (h.below id status hid)
  · intro id id' status hid hid'
    rcases hstatus id status hid with ⟨rfl, rfl⟩ | ⟨-, hid⟩
    · rcases hstatus id' _ hid' with ⟨rfl, -⟩ | ⟨-, hid'⟩
      · rfl
      · exact absurd (h.below id' _ hid') (lt_irrefl _)
    · rcases hstatus id' status hid' with ⟨-, rfl⟩ | ⟨-, hid'⟩
      · exact absurd (h.below id _ hid) (lt_irrefl _)
      · exact h.distinct id id' status hid hid'
  · intro req' hreq
    dsimp only
    rcases List.mem_append.mp hreq with hreq | hreq
    · have hreq := h.requests req' hreq
      rw [Function.update_of_ne (hne _ _ hreq)]
      exact hreq
    · obtain rfl := List.mem_singleton.mp hreq
      exact Function.update_self ..
  · intro w req' hreq
    have hreq := h.worker w req' hreq
    dsimp only
    rw [Function.update_of_ne (hne _ _ hreq)]
    exact hreq
  · intro t' id status hw
    dsimp only at hw ⊢
    by_cases e : t' = t
    · rw [e, Function.update_self] at hw
      cases hw
    · rw [Function.update_of_ne e] at hw
      have hid := h.waiting t' id status hw
      have hne : id ≠ req.reqId := by
        intro e
        subst e
        rw [hnew] at hid
        cases hid
      rw [hother id hne]
      exact hid

theorem ResultInv.push [DecidableEq ι] {t : ι} {req : Request T.dim} (h : ResultInv arch T s) (hn : NumberInv T s)
    (hnew : s.requestStatus req.reqId = none) :
    ResultInv arch T { s with
      requests := s.requests ++ [req]
      requestStatus := Function.update s.requestStatus req.reqId (some s.statuses)
      statuses := s.statuses + 1
      done := Function.update s.done s.statuses false
      caller := Function.update s.caller t (.submitted req.reqId)
      asked := Function.update s.asked req.reqId (some req)
      fetched := Function.update s.fetched req.reqId false } := by
  have hne : ∀ id, (s.asked id).isSome → id ≠ req.reqId := by
    intro id hid e
    rw [← hn.status, e, hnew] at hid
    cases hid
  constructor
  · exact h.computed
  · intro id res hid
    obtain ⟨req', hreq, hcomp⟩ := h.results id res hid
    refine ⟨req', ?_, hcomp⟩
    dsimp only
    rw [Function.update_of_ne (hne id (by rw [hreq]; rfl))]
    exact hreq
  · intro t' id out hpc
    dsimp only at hpc ⊢
    by_cases e : t' = t
    · rw [e, Function.update_self] at hpc
      cases hpc
    · rw [Function.update_of_ne e] at hpc
      obtain ⟨req', hreq, hright⟩ := h.got t' id out hpc
      refine ⟨req', ?_, hright⟩
      rw [Function.update_of_ne (hne id (by rw [hreq]; rfl))]
      exact hreq
  · intro id status hid hdone
    dsimp only at hid hdone ⊢
    by_cases e : id = req.reqId
    · rw [e, Function.update_self] at hid
      obtain rfl := Option.some.inj hid
      rw [Function.update_self] at hdone
      cases hdone
    · rw [Function.update_of_ne e] at hid
      rw [Function.update_of_ne (ne_of_lt (hn.below id status hid))] at hdone
      rw [Function.update_of_ne e]
      exact h.done id status hid hdone
  · intro t' id hpc
    dsimp only at hpc ⊢
    by_cases e : t' = t
    · rw [e, Function.update_self] at hpc
      cases hpc
    · rw [Function.update_of_ne e] at hpc
      obtain ⟨status, hid, hdone⟩ := h.waited t' id hpc
      refine ⟨status, ?_, ?_⟩
      · rw [Function.update_of_ne (hne id (by rw [← hn.status, hid]; rfl))]
        exact hid
      · rw [Function.update_of_ne (ne_of_lt (hn.below id status hid))]
        exact hdone

/-! ## The workers -/

/-- A worker comes to another point. -/
theorem NumberInv.setWorker {w : Nat} {pc : WorkerPc T.dim} (h : NumberInv T s)
    (hworker : s'.worker = Function.update s.worker w pc)
    (hsame : s'.requestStatus = s.requestStatus ∧ s'.statuses = s.statuses ∧ s'.caller = s.caller ∧ s'.asked = s.asked)
    (hrequests : ∀ req, req ∈ s'.requests → req ∈ s.requests)
    (hpc : ∀ req, pc.request = some req → s.asked req.reqId = some req) : NumberInv T s' := by
  obtain ⟨hstat, hcount, hcaller, hasked⟩ := hsame
  constructor
  · rw [hasked]
    exact h.asked
  · rw [hstat, hasked]
    exact h.status
  · rw [hstat, hcount]
    exact h.below
  · rw [hstat]
    exact h.distinct
  · intro req hreq
    rw [hasked]
    exact h.requests req (hrequests req hreq)
  · intro w' req hreq
    rw [hasked]
    rw [hworker] at hreq
    by_cases e : w' = w
    · rw [e, Function.update_self] at hreq
      exact hpc req hreq
    · rw [Function.update_of_ne e] at hreq
      exact h.worker w' req hreq
  · rw [hcaller, hstat]
    exact h.waiting

theorem ResultInv.setWorker {w : Nat} {pc : WorkerPc T.dim} (h : ResultInv arch T s)
    (hworker : s'.worker = Function.update s.worker w pc)
    (hsame : s'.results = s.results ∧ s'.requestStatus = s.requestStatus ∧ s'.done = s.done ∧ s'.caller = s.caller ∧
      s'.asked = s.asked ∧
      s'.fetched = s.fetched)
    (hpc : ∀ req res, pc = .computed req res → Computes arch T req res) : ResultInv arch T s' := by
  obtain ⟨hres, hstat, hdone, hcaller, hasked, hfetched⟩ := hsame
  constructor
  · intro w' req res hc
    rw [hworker] at hc
    by_cases e : w' = w
    · rw [e, Function.update_self] at hc
      exact hpc req res hc
    · rw [Function.update_of_ne e] at hc
      exact h.computed w' req res hc
  · rw [hres, hasked]
    exact h.results
  · rw [hcaller, hasked]
    exact h.got
  · rw [hstat, hdone, hres, hfetched]
    exact h.done
  · rw [hcaller, hstat, hdone]
    exact h.waited

theorem ResultInv.publish {w : Nat} {req : Request T.dim} {res : Result} {status : Nat} (h : ResultInv arch T s)
    (hn : NumberInv T s)
    (hw : s.worker w = .computed req res) (hstatus : s.requestStatus req.reqId = some status) :
    ResultInv arch T { s with
      results := Function.update s.results req.reqId (some res)
      done := Function.update s.done status true
      worker := Function.update s.worker w .idle } := by
  constructor
  · intro w' req' res' hc
    dsimp only at hc
    by_cases e : w' = w
    · rw [e, Function.update_self] at hc
      cases hc
    · rw [Function.update_of_ne e] at hc
      exact h.computed w' req' res' hc
  · intro id res' hid
    dsimp only at hid
    by_cases e : id = req.reqId
    · rw [e, Function.update_self] at hid
      obtain rfl := Option.some.inj hid
      exact ⟨req, e ▸ hn.worker w req (by rw [hw]; rfl), h.computed w req res hw⟩
    · rw [Function.update_of_ne e] at hid
      exact h.results id res' hid
  · exact h.got
  · intro id status' hid hdone
    dsimp only at hdone ⊢
    by_cases e : id = req.reqId
    · rw [e, Function.update_self]
      exact .inl rfl
    · rw [Function.update_of_ne e]
      have hne : status' ≠ status := by
        intro e
        subst e
        exact e (hn.distinct id req.reqId _ hid hstatus)
      rw [Function.update_of_ne hne] at hdone
      exact h.done id status' hid hdone
  · intro t id hpc
    obtain ⟨status', hid, hdone⟩ := h.waited t id hpc
    refine ⟨status', hid, ?_⟩
    dsimp only
    by_cases e : status' = status
    · rw [e, Function.update_self]
    · rw [Function.update_of_ne e]
      exact hdone

/-- The result of a number is packed right. -/
theorem ResultInv.packs (h : ResultInv arch T s) (hn : NumberInv T s) {id : Int32} {res : Result}
    (hid : s.results id = some res) :
    ∃ out req, pack res = some out ∧ s.asked id = some req ∧ RightRows T req out := by
  obtain ⟨req, hreq, hcomp⟩ := h.results id res hid
  obtain ⟨hrange, hfits⟩ := hn.asked id req hreq
  obtain ⟨out, hpack, hright⟩ := ((served_iff arch hrange).mpr hfits).2 res hcomp
  exact ⟨out, req, hpack, hreq, hright⟩

theorem ResultInv.get [DecidableEq ι] {t : ι} {id : Int32} {res out : Result} (h : ResultInv arch T s) (hn : NumberInv T s)
    (hid : s.results id = some res) (hpack : pack res = some out) :
    ResultInv arch T { s with
      results := Function.update s.results id none
      caller := Function.update s.caller t (.got id out)
      fetched := Function.update s.fetched id true } := by
  constructor
  · exact h.computed
  · intro id' res' hid'
    dsimp only at hid'
    by_cases e : id' = id
    · rw [e, Function.update_self] at hid'
      cases hid'
    · rw [Function.update_of_ne e] at hid'
      exact h.results id' res' hid'
  · intro t' id' out' hpc
    dsimp only at hpc ⊢
    by_cases e : t' = t
    · rw [e, Function.update_self] at hpc
      obtain ⟨rfl, rfl⟩ := CallerPc.got.inj hpc
      obtain ⟨out', req, hpack', hreq, hright⟩ := h.packs hn hid
      obtain rfl := Option.some.inj (hpack'.symm.trans hpack)
      exact ⟨req, hreq, hright⟩
    · rw [Function.update_of_ne e] at hpc
      exact h.got t' id' out' hpc
  · intro id' status hid' hdone
    dsimp only
    by_cases e : id' = id
    · rw [e, Function.update_self, Function.update_self]
      exact .inr rfl
    · rw [Function.update_of_ne e, Function.update_of_ne e]
      exact h.done id' status hid' hdone
  · intro t' id' hpc
    dsimp only at hpc
    by_cases e : t' = t
    · rw [e, Function.update_self] at hpc
      cases hpc
    · rw [Function.update_of_ne e] at hpc
      exact h.waited t' id' hpc

/-! ## Runs -/

variable [DecidableEq ι]

theorem backendStep_invs (hn : NumberInv T s) (hr : ResultInv arch T s) (hok : Fitting T s l)
    (hs : backendStep arch T numWorkers s l = some s') :
    NumberInv T s' ∧ ResultInv arch T s' := by
  cases l with
  | submit t query topk indexes =>
    simp only [backendStep] at hs
    split at hs
    · cases hs
    · obtain rfl := Option.some.inj hs
      obtain ⟨nextReqId, pc, he, hwaiting, hgot, hwaited⟩ := submit_cases (s := s) t query topk indexes
      rw [he]
      exact ⟨hn.setCaller rfl ⟨rfl, rfl, rfl, rfl, rfl⟩ fun id status e => absurd e (hwaiting id status),
        hr.setCaller rfl ⟨rfl, rfl, rfl, rfl, rfl, rfl⟩ hgot fun id e => absurd e (hwaited id)⟩
  | push t =>
    cases hpc : s.caller t with
    | pushing req =>
      obtain ⟨hnew, hrange, hfits⟩ := hok req hpc
      simp only [backendStep, hpc] at hs
      obtain rfl := Option.some.inj hs
      exact ⟨hn.push hnew hrange hfits, hr.push hn hnew⟩
    | _ =>
      simp only [backendStep, hpc] at hs
      cases hs
  | poll t id =>
    simp only [backendStep] at hs
    split at hs
    · cases hs
    · obtain rfl := Option.some.inj hs
      exact ⟨hn.setCaller rfl ⟨rfl, rfl, rfl, rfl, rfl⟩ nofun, hr.setCaller rfl ⟨rfl, rfl, rfl, rfl, rfl, rfl⟩ nofun nofun⟩
  | wait t id =>
    simp only [backendStep] at hs
    split at hs
    · cases hs
    · split at hs
      · next status hstatus =>
        obtain rfl := Option.some.inj hs
        refine ⟨hn.setCaller rfl ⟨rfl, rfl, rfl, rfl, rfl⟩ fun id' status' e => ?_,
          hr.setCaller rfl ⟨rfl, rfl, rfl, rfl, rfl, rfl⟩ nofun nofun⟩
        obtain ⟨rfl, rfl⟩ := CallerPc.waiting.inj e
        exact hstatus
      · obtain rfl := Option.some.inj hs
        exact ⟨hn.setCaller rfl ⟨rfl, rfl, rfl, rfl, rfl⟩ nofun, hr.setCaller rfl ⟨rfl, rfl, rfl, rfl, rfl, rfl⟩ nofun nofun⟩
  | pass t =>
    cases hpc : s.caller t with
    | waiting id status =>
      have hstatus := hn.waiting t id status hpc
      simp only [backendStep, hpc] at hs
      split at hs
      · next hdone =>
        obtain rfl := Option.some.inj hs
        refine ⟨hn.setCaller rfl ⟨rfl, rfl, rfl, rfl, rfl⟩ nofun,
          hr.setCaller rfl ⟨rfl, rfl, rfl, rfl, rfl, rfl⟩ nofun fun id' e => ?_⟩
        obtain rfl := CallerPc.waited.inj e
        exact ⟨status, hstatus, hdone⟩
      · cases hs
    | _ =>
      simp only [backendStep, hpc] at hs
      cases hs
  | getResult t id =>
    simp only [backendStep] at hs
    split at hs
    · cases hs
    · split at hs
      · obtain rfl := Option.some.inj hs
        exact ⟨hn.setCaller rfl ⟨rfl, rfl, rfl, rfl, rfl⟩ nofun, hr.setCaller rfl ⟨rfl, rfl, rfl, rfl, rfl, rfl⟩ nofun nofun⟩
      · next res hid =>
        obtain ⟨out, hpack, rfl⟩ := Option.map_eq_some_iff.mp hs
        exact ⟨hn.setCaller rfl ⟨rfl, rfl, rfl, rfl, rfl⟩ nofun, hr.get hn hid hpack⟩
  | pop w =>
    simp only [backendStep] at hs
    split at hs
    · next req rest hpc hreq =>
      split at hs
      · obtain rfl := Option.some.inj hs
        refine ⟨hn.setWorker rfl ⟨rfl, rfl, rfl, rfl⟩ (fun req' h => ?_) fun req' e => ?_,
          hr.setWorker rfl ⟨rfl, rfl, rfl, rfl, rfl, rfl⟩ nofun⟩
        · rw [hreq]
          exact List.mem_cons_of_mem _ h
        · obtain rfl := Option.some.inj e
          exact hn.requests req (by rw [hreq]; exact List.mem_cons_self)
      · cases hs
    · cases hs
  | compute w orders =>
    cases hpc : s.worker w with
    | taken req =>
      simp only [backendStep, hpc] at hs
      split at hs
      · next horders =>
        obtain rfl := Option.some.inj hs
        refine ⟨hn.setWorker rfl ⟨rfl, rfl, rfl, rfl⟩ (fun _ h => h) fun req' e => ?_,
          hr.setWorker rfl ⟨rfl, rfl, rfl, rfl, rfl, rfl⟩ fun req' res e => ?_⟩
        · obtain rfl := Option.some.inj e
          exact hn.worker w req (by rw [hpc]; rfl)
        · obtain ⟨rfl, rfl⟩ := WorkerPc.computed.inj e
          exact ⟨orders, horders, rfl⟩
      · cases hs
    | _ =>
      simp only [backendStep, hpc] at hs
      cases hs
  | publish w =>
    cases hpc : s.worker w with
    | computed req res =>
      simp only [backendStep, hpc] at hs
      split at hs
      · next status hstatus =>
        obtain rfl := Option.some.inj hs
        exact ⟨hn.setWorker rfl ⟨rfl, rfl, rfl, rfl⟩ (fun _ h => h) nofun, hr.publish hn hpc hstatus⟩
      · cases hs
    | _ =>
      simp only [backendStep, hpc] at hs
      cases hs

omit [DecidableEq ι] in
theorem init_invs (h : s.IsInit) : NumberInv T s ∧ ResultInv arch T s := by
  constructor
  · constructor
    · intro id req hid
      rw [h.asked] at hid
      cases hid
    · intro id
      rw [h.requestStatus, h.asked]
      exact Iff.rfl
    · intro id status hid
      rw [h.requestStatus] at hid
      cases hid
    · intro id id' status hid
      rw [h.requestStatus] at hid
      cases hid
    · intro req hreq
      rw [h.requests] at hreq
      cases hreq
    · intro w req hreq
      rw [h.worker] at hreq
      cases hreq
    · intro t id status hpc
      rw [h.caller] at hpc
      cases hpc
  · constructor
    · intro w req res hpc
      rw [h.worker] at hpc
      cases hpc
    · intro id res hid
      rw [h.results] at hid
      cases hid
    · intro t id out hpc
      rw [h.caller] at hpc
      cases hpc
    · intro id status hid
      rw [h.requestStatus] at hid
      cases hid
    · intro t id hpc
      rw [h.caller] at hpc
      cases hpc

theorem reach_invs (h : Reach (backend ι arch T numWorkers) (Fitting T) s) : NumberInv T s ∧ ResultInv arch T s :=
  h.inv (I := fun s => NumberInv T s ∧ ResultInv arch T s) (fun _ hi => init_invs hi) fun _ _ _ hi hok hs =>
  backendStep_invs hi.1 hi.2 hok hs

/-- No step that is called for is undefined. -/
structure Defined (arch : Arch) (T : KeyTable) (numWorkers : Nat) (s : Backend ι T.dim) : Prop where
  compute : ∀ w req, s.worker w = .taken req → ∃ orders s', backendStep arch T numWorkers s (.compute w orders) = some s'
  publish : ∀ w req res, s.worker w = .computed req res → ∃ s', backendStep arch T numWorkers s (.publish w) = some s'
  getResult : ∀ t id, (s.caller t).calling = false → ∃ s', backendStep arch T numWorkers s (.getResult t id) = some s'

theorem get_result_exact :
    (∀ req : Request T.dim, InRange T req → (Served T arch req ↔ Fits T req)) ∧
    ∀ s, Reach (backend ι arch T numWorkers) (Fitting T) s →
      Defined arch T numWorkers s ∧
      (∀ t id out, s.caller t = .got id out → ∃ req, s.asked id = some req ∧ RightRows T req out) ∧
      ∀ t id, s.caller t = .waited id → (s.results id).isSome ∨ s.fetched id = true := by
  refine ⟨fun req => served_iff arch, fun s h => ?_⟩
  obtain ⟨hn, hr⟩ := reach_invs h
  refine ⟨⟨?_, ?_, ?_⟩, hr.got, ?_⟩
  · intro w req hpc
    obtain ⟨hrange, hfits⟩ := hn.asked _ req (hn.worker w req (by rw [hpc]; rfl))
    have hsome := ((served_iff arch hrange).mpr hfits).1
    obtain ⟨orders, horders⟩ := exists_forall₂ (R := RowOrder arch T req.topk) (l := req.rows) fun row hrow => by
      obtain ⟨heap, hheap⟩ := Option.isSome_iff_exists.mp (mapM_isSome_iff.mp hsome row hrow)
      obtain ⟨order, hs⟩ := exists_partialSort (fun x : Nat × Int => x.1) heap (min heap.length req.topk)
      exact ⟨order, heap, hheap, hs⟩
    refine ⟨orders, s.setWorker T w (.computed req (rowsResult req.topk orders)), ?_⟩
    simp only [backendStep, hpc]
    exact if_pos horders
  · intro w req res hpc
    have hasked := hn.worker w req (by rw [hpc]; rfl)
    obtain ⟨status, hstatus⟩ := Option.isSome_iff_exists.mp ((hn.status req.reqId).mpr (by rw [hasked]; rfl))
    simp only [backendStep, hpc, hstatus]
    exact ⟨_, rfl⟩
  · intro t id hcalling
    simp only [backendStep, hcalling]
    cases hid : s.results id with
    | none => exact ⟨_, rfl⟩
    | some res =>
      obtain ⟨out, -, hpack, -⟩ := hr.packs hn hid
      simp only [hpack]
      exact ⟨_, rfl⟩
  · intro t id hpc
    obtain ⟨status, hid, hdone⟩ := hr.waited t id hpc
    exact hr.done id status hid hdone

/-- Two blocks of one key of one byte. -/
def twoBlocks : KeyTable := ⟨2, 1, 1, [0, 255], rfl⟩

def freshBackend : Backend Unit twoBlocks.dim :=
  ⟨[], fun _ => none, fun _ => none, 0, fun _ => false, 0, fun _ => .idle, fun _ => .idle, fun _ => none, fun _ => false⟩

theorem freshBackend_isInit : freshBackend.IsInit := ⟨rfl, fun _ => rfl, fun _ => rfl, fun _ => rfl, fun _ => rfl, fun _ => rfl⟩

def fitting (s : Backend Unit twoBlocks.dim) : BackendLabel Unit → Bool
  | .push t =>
    match s.caller t with
    | .pushing req => decide (s.requestStatus req.reqId = none) && decide (req.rows = [([0], [0, 1])])
    | _ => true
  | _ => true

theorem fitting_ok {s : Backend Unit twoBlocks.dim} {l : BackendLabel Unit} (h : fitting s l = true) : Fitting twoBlocks s l := by
  cases l with
  | push t =>
    intro req hpc
    simp only [fitting, hpc, Bool.and_eq_true, decide_eq_true_eq] at h
    obtain ⟨hnew, hrows⟩ := h
    have hleast : ∀ idx, idx ∈ [(0 : Int), 1] → leastOf twoBlocks [0] idx ≤ uint16Max := by decide
    have hcounted : ∀ idx, idx ∈ [(0 : Int), 1] → Counted [0] ((twoBlocks.block idx).getD []) := by
      intro idx hidx
      rcases List.mem_cons.mp hidx with rfl | hidx
      · exact ⟨by decide, .inl (by decide)⟩
      · obtain rfl := List.mem_singleton.mp hidx
        exact ⟨by decide, .inr trivial⟩
    refine ⟨hnew, ?_, ?_, ?_, ?_⟩
    · intro q allowed hrow
      rw [hrows] at hrow
      obtain ⟨rfl, rfl⟩ := Prod.mk.inj (List.mem_singleton.mp hrow)
      decide
    · intro row row' hrow hrow'
      rw [hrows] at hrow hrow'
      rw [List.mem_singleton.mp hrow, List.mem_singleton.mp hrow']
    · intro row hrow
      rw [hrows] at hrow
      rw [List.mem_singleton.mp hrow]
      exact hcounted
    · intro row hrow
      rw [hrows] at hrow
      rw [List.mem_singleton.mp hrow]
      exact .inr hleast
  | _ => trivial

theorem get_result_exact_two :
    ∃ s : Backend Unit twoBlocks.dim, s.caller () = .got 0 ⟨[[0]], [[0]]⟩ ∧ Defined .x86 twoBlocks 1 s ∧
      ∃ req, s.asked 0 = some req ∧ req.rows = [([0], [0, 1])] ∧ RightRows twoBlocks req ⟨[[0]], [[0]]⟩ := by
  obtain ⟨s, hr, hs⟩ := exists_of_replayOk (S := backend Unit .x86 twoBlocks 1) fitting (fun _ _ => fitting_ok)
    [.submit () ⟨1, 1, [0], rfl⟩ 1 [[0, 1, -1]], .push (), .pop 0, .compute 0 [[(0, 0), (8, 1)]], .wait () 0, .publish 0,
      .pass (), .getResult () 0]
    (s := freshBackend)
    (p := fun s =>
      (match s.caller () with
      | .got id out => decide (id = 0) && decide (out = ⟨[[0]], [[0]]⟩)
      | _ => false) && decide ((s.asked 0).map (·.rows) = some [([0], [0, 1])]))
    freshBackend_isInit (by decide +kernel)
  obtain ⟨hdefined, hgot, -⟩ := get_result_exact.2 s hr
  rw [Bool.and_eq_true] at hs
  obtain ⟨hcaller, hasked⟩ := hs
  split at hcaller
  · next id out hpc =>
    obtain ⟨rfl, rfl⟩ : id = 0 ∧ out = ⟨[[0]], [[0]]⟩ := by simpa using hcaller
    obtain ⟨req, hreq, hright⟩ := hgot () 0 _ hpc
    rw [hreq] at hasked
    exact ⟨s, hpc, hdefined, req, hreq, Option.some.inj (of_decide_eq_true hasked), hright⟩
  · cases hcaller

/-- Two blocks are allowed for the first query, and one for the second: the second row is read past its end. -/
theorem short_row_overread :
    ∃ s : Backend Unit twoBlocks.dim, Reach (backend Unit .x86 twoBlocks 1) Any s ∧
      (∃ req, s.asked 0 = some req ∧ req.rows = [([0], [0, 1]), ([0], [0])] ∧ req.topk = 2 ∧ InRange twoBlocks req) ∧
      (s.caller ()).calling = false ∧ s.results 0 = some ⟨[[0, 1], [0]], [[0, 8], [0]]⟩ ∧
      backendStep .x86 twoBlocks 1 s (.getResult () 0) = none := by
  obtain ⟨s, hr, hs⟩ := exists_of_replay (S := backend Unit .x86 twoBlocks 1)
    [.submit () ⟨2, 1, [0, 0], rfl⟩ 2 [[0, 1], [0, -1]], .push (), .pop 0, .compute 0 [[(0, 0), (8, 1)], [(0, 0)]], .publish 0]
    (s := freshBackend)
    (p := fun s => decide ((s.caller ()).calling = false) && decide (s.results 0 = some ⟨[[0, 1], [0]], [[0, 8], [0]]⟩) &&
      decide ((s.asked 0).map (fun req => (req.rows, req.topk)) = some ([([0], [0, 1]), ([0], [0])], 2)))
    freshBackend_isInit (by decide +kernel)
  obtain ⟨⟨hcalling, hres⟩, hasked⟩ : ((s.caller ()).calling = false ∧ s.results 0 = some ⟨[[0, 1], [0]], [[0, 8], [0]]⟩) ∧
      (s.asked 0).map (fun req => (req.rows, req.topk)) = some ([([0], [0, 1]), ([0], [0])], 2) := by
    simpa only [Bool.and_eq_true, decide_eq_true_eq] using hs
  obtain ⟨req, hreq, he⟩ := Option.map_eq_some_iff.mp hasked
  obtain ⟨hrows, htopk⟩ := Prod.mk.inj he
  refine ⟨s, hr, ⟨req, hreq, hrows, htopk, fun q allowed hrow => ?_⟩, hcalling, hres, ?_⟩
  · rw [hrows] at hrow
    rcases List.mem_cons.mp hrow with hrow | hrow
    · obtain ⟨rfl, rfl⟩ := Prod.mk.inj hrow
      decide
    · obtain ⟨rfl, rfl⟩ := Prod.mk.inj (List.mem_singleton.mp hrow)
      decide
  · simp only [backendStep, hcalling, hres]
    rfl

end UnifiedCache.HashRetrieval
