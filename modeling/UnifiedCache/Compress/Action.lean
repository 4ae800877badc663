/-
  UnifiedCache.Compress.Action — the compress store's tasks
  (ucm/store/compress/cc/{compressor_action.cc,trans_manager.h,memory_pool.h} over
  ucm/store/detail/template/task_wrapper.h).

  A worker of a pool runs `Compress_Load` or `Compress_Dump` of one task from end to end. What
  others see of it are its calls of the backend, of the codec and of the task's latch. So each
  function is the list of its calls in the source's order, given what the backend and the codec
  answer (`Answers`); the steps of the workers interleave these lists with the `Wait`s.

  `Value()` of a failed `Expected` throws; nothing on the worker's stack catches it, and the
  process ends (`terminate`). `Setup` admits `R1` and `R200`; the branches for the other ratios
  are here too. Left open: when a worker takes a queued task. Not modelled: the bytes.

  No branch inserts into `failureSet_`. A task's `Wait` tells of its failures just when it times
  out (`wait_propagates`).
-/

import UnifiedCache.Base.Transition
import UnifiedCache.Detail.TaskWrapper

namespace UnifiedCache.Compress

open UnifiedCache.Base UnifiedCache.Detail

inductive FixedRatio where
  | r1
  | r133
  | r139
  | r145
  | r152
  | r160
  | r200
  deriving DecidableEq, Repr

structure Shard (Block : Type) where
  owner : Block
  index : Nat
  addrs : List Nat
  deriving DecidableEq

/-- What one task meets: the `Expected` of the backend's `Load` or `Dump`, the success of its
    `Wait`, the codec's code for each shard. -/
structure Answers where
  submit : Option Nat
  wait : Bool
  codec : Nat → Int

inductive Call (Block : Type) where
  /-- `backend_->Load` or `backend_->Dump`. -/
  | submit (desc : List (Shard Block)) (res : Option Nat)
  | wait (handle : Nat) (ok : Bool)
  /-- `TunstallDecompressBF16Inplace` or `TunstallCompressBF16`. -/
  | codec (shard : Nat) (err : Int)
  /-- The unsupported ratio's branch. -/
  | unsupported (shard : Nat)
  /-- `waiter->Done()`. -/
  | done
  /-- An exception leaves the worker. -/
  | terminate
  deriving DecidableEq

variable {Block : Type}

section Functions

variable (ratio : FixedRatio) (a : Answers)

def codecCall (i : Nat) : Call Block := if ratio = .r200 then .codec i (a.codec i) else .unsupported i

/-- The shard goes through the codec. -/
def shardOk (i : Nat) : Bool := ratio = .r200 && a.codec i = 0

/-- `Compress_Load`. -/
def compressLoad (desc : List (Shard Block)) : List (Call Block) :=
  match a.submit with
  | none => [.submit desc none, .terminate]
  | some handle =>
    if ratio = .r1 then [.submit desc (some handle), .wait handle a.wait, .done]
    else
      .submit desc (some handle) :: ((if 0 < handle then [.wait handle a.wait] else []) ++
        (List.range desc.length).map (codecCall ratio a) ++ [.done])

/-- The loop of `Compress_Dump` from shard `i` on, over the free blocks of its `MemoryPool`, the
    last first: the calls, and `backendDesc` and `blockToFree`, unless `allocate` throws. -/
def compressShards : Nat → List (Shard Block) → List Nat → List (Call Block) × Option (List (Shard Block) × List Nat)
  | _, [], _ => ([], some ([], []))
  | _, _ :: _, [] => ([], none)
  | i, s :: rest, compBuf :: free =>
    if shardOk ratio a i then
      let (calls, out) := compressShards (i + 1) rest free
      (codecCall ratio a i :: calls, out.map fun (desc, bufs) => (⟨s.owner, s.index, [compBuf]⟩ :: desc, compBuf :: bufs))
    else
      let (calls, out) := compressShards (i + 1) rest (compBuf :: free)
      (codecCall ratio a i :: calls, out)

/-- `Compress_Dump`. -/
def compressDump (desc : List (Shard Block)) : List (Call Block) :=
  if ratio = .r1 then (if 0 < desc.length then [.submit desc a.submit] else []) ++ [.done]
  else if desc = [] then [.done]
  else
    match compressShards ratio a 0 desc (List.range desc.length).reverse with
    | (calls, none) => calls ++ [.terminate]
    | (calls, some (backendDesc, blockToFree)) =>
      calls ++ .submit backendDesc a.submit ::
        (if blockToFree = [] then [.done]
        else
          match a.submit with
          | none => [.terminate]
          | some handle => (if 0 < handle then [.wait handle a.wait] else []) ++ [.done])

end Functions

/-! ## The store -/

structure Job (Block : Type) where
  isLoad : Bool
  desc : List (Shard Block)
  answers : Answers
  /-- The calls made, and those to come. -/
  log : List (Call Block)
  rest : List (Call Block)

/-- The task's function. -/
def Job.calls (ratio : FixedRatio) (j : Job Block) : List (Call Block) :=
  if j.isLoad then compressLoad ratio j.answers j.desc else compressDump ratio j.answers j.desc

structure Compressor (Block : Type) where
  wrapper : TaskWrapper
  job : Nat → Job Block
  /-- `WaitFor` has returned false. -/
  timedOut : Nat → Bool
  /-- What the task's `Wait` has returned. -/
  result : Nat → Option WaitStatus
  /-- The task whose worker has ended the process. -/
  crashed : Option Nat

inductive CompressLabel (Block : Type) where
  /-- `TransManager::Submit`, `Dispatch` and `Push`. -/
  | submit (isLoad : Bool) (desc : List (Shard Block)) (answers : Answers)
  /-- The next call of task `t`'s worker. -/
  | work (t : Nat)
  | wait (l : WaitLabel)

namespace Compressor

variable (s : Compressor Block)

def push (ratio : FixedRatio) (isLoad : Bool) (desc : List (Shard Block)) (answers : Answers) : Compressor Block :=
  let j : Job Block := ⟨isLoad, desc, answers, [], []⟩
  { s with
    wrapper := s.wrapper.submit 1
    job := Function.update s.job s.wrapper.nTask { j with rest := j.calls ratio } }

def perform (t : Nat) (c : Call Block) (rest : List (Call Block)) : Compressor Block :=
  { s with
    wrapper := if c matches .done then s.wrapper.done t else s.wrapper
    job := Function.update s.job t { s.job t with log := (s.job t).log ++ [c], rest }
    crashed := if c matches .terminate then some t else s.crashed }

def waited (l : WaitLabel) (w : TaskWrapper) : Compressor Block :=
  { s with
    wrapper := w
    timedOut := match l with
      | .timeout t => Function.update s.timedOut t true
      | _ => s.timedOut
    result := match waitStatus s.wrapper l with
      | some (t, status) => Function.update s.result t (some status)
      | none => s.result }

end Compressor

def compressStep (ratio : FixedRatio) (s : Compressor Block) (l : CompressLabel Block) : Option (Compressor Block) :=
  if s.crashed.isSome then none
  else
    match l with
    | .submit isLoad desc answers => some (s.push ratio isLoad desc answers)
    | .work t =>
      if t < s.wrapper.nTask then
        match (s.job t).rest with
        | [] => none
        | c :: rest => some (s.perform t c rest)
      else none
    | .wait l => (waitStep false s.wrapper l).map (s.waited l)

structure Compressor.IsInit (s : Compressor Block) : Prop where
  wrapper : s.wrapper = .init
  timedOut : ∀ t, s.timedOut t = false
  result : ∀ t, s.result t = none
  crashed : s.crashed = none

def compressStore (ratio : FixedRatio) : System (Compressor Block) (CompressLabel Block) where
  init := Compressor.IsInit
  step := compressStep ratio

/-! ## What a task's calls are -/

/-- The backend refuses or fails, or the codec does. -/
def Call.Fails : Call Block → Prop
  | .submit _ res => res = none
  | .wait _ ok => ok = false
  | .codec _ err => err ≠ 0
  | .unsupported _ => True
  | _ => False

/-- Each operation of the backend was submitted and waited with success, and each shard went
    through the codec, where there is one. -/
structure AllWell (ratio : FixedRatio) (n : Nat) (calls : List (Call Block)) : Prop where
  submit : ∀ desc res, .submit desc res ∈ calls → ∃ handle, res = some handle ∧ .wait handle true ∈ calls
  wait : ∀ handle ok, .wait handle ok ∈ calls → ok = true
  codec : ratio ≠ .r1 → ∀ i, i < n → .codec i 0 ∈ calls

/-- A worker's `Value()` throws. -/
def Job.Throws (ratio : FixedRatio) (j : Job Block) : Prop :=
  j.answers.submit = none ∧ (j.isLoad = true ∨ ratio ≠ .r1 ∧ ∃ i, i < j.desc.length ∧ shardOk ratio j.answers i = true)

/-- The backend takes the operation, with a handle that is waited for, and it succeeds; so does
    the codec. Without compression no dump is waited for. -/
def Job.Clean (ratio : FixedRatio) (j : Job Block) : Prop :=
  j.isLoad = false ∧ j.desc = [] ∨
    (j.isLoad = true ∨ ratio ≠ .r1) ∧ (∃ handle, j.answers.submit = some handle ∧ (ratio = .r1 ∨ 0 < handle)) ∧
    j.answers.wait = true ∧
      (ratio ≠ .r1 → ∀ i, i < j.desc.length → shardOk ratio j.answers i = true)

section Calls

variable {ratio : FixedRatio} {a : Answers} {desc : List (Shard Block)} {j : Job Block} {i : Nat}

theorem codecCall_fails : (codecCall ratio a i : Call Block).Fails ↔ shardOk ratio a i = false := by
  unfold codecCall shardOk
  split <;> simp [Call.Fails, *]

theorem codecCall_ok : codecCall ratio a i = (.codec i 0 : Call Block) ↔ shardOk ratio a i = true := by
  unfold codecCall shardOk
  split <;> simp [*]

/-- The loop has a block for each shard, calls the codec for each in turn and keeps those that
    went through. -/
theorem compressShards_spec (ratio : FixedRatio) (a : Answers) (desc : List (Shard Block)) : ∀ (i : Nat) (free : List Nat),
    desc.length ≤ free.length →
    ∃ out, compressShards ratio a i desc free = ((List.range' i desc.length).map (codecCall ratio a), some out) ∧
      (out.2 = [] ↔ ∀ k, i ≤ k → k < i + desc.length → shardOk ratio a k = false) := by
  induction desc with
  | nil =>
    intro i free _
    exact ⟨([], []), rfl, by simp; omega⟩
  | cons s rest ih =>
    intro i free hle
    cases free with
    | nil => simp at hle
    | cons compBuf free =>
      simp only [List.length_cons, Nat.add_le_add_iff_right] at hle
      cases hok : shardOk ratio a i with
      | true =>
        obtain ⟨out, hout, -⟩ := ih (i + 1) free hle
        refine ⟨_, by
          simp only [compressShards, hok, if_true, hout, Option.map_some, List.length_cons, List.range'_succ,
          List.map_cons]; rfl, ?_⟩
        simp only [reduceCtorEq, false_iff]
        intro h
        have := h i (Nat.le_refl i) (by simp)
        rw [hok] at this
        cases this
      | false =>
        obtain ⟨out, hout, hnil⟩ := ih (i + 1) (compBuf :: free) (by simp; omega)
        refine ⟨out, by simp [compressShards, hok, hout, List.range'_succ], hnil.trans ?_⟩
        simp only [List.length_cons]
        constructor
        · intro h k h1 h2
          by_cases e : k = i
          · rw [e]
            exact hok
          · exact h k (by omega) (by omega)
        · intro h k h1 h2
          exact h k (by omega) (by omega)

/-- A load's calls between the backend's operation and `Done`. -/
theorem mem_loadBody {c : Call Block} {handle n : Nat}
    (h : c ∈ (if 0 < handle then [.wait handle a.wait] else []) ++ (List.range n).map (codecCall ratio a)) :
    c = .wait handle a.wait ∨ ∃ i, i < n ∧ c = codecCall ratio a i := by
  rcases List.mem_append.mp h with h | h
  · split at h
    · exact .inl (List.mem_singleton.mp h)
    · cases h
  · obtain ⟨i, hi, rfl⟩ := List.mem_map.mp h
    exact .inr ⟨i, List.mem_range.mp hi, rfl⟩

theorem codecCall_ne : (codecCall ratio a i : Call Block) ≠ .done ∧ (codecCall ratio a i : Call Block) ≠ .terminate := by
  unfold codecCall
  split <;> simp

/-- The calls of a load, and those of a dump. -/
theorem compressLoad_some {handle : Nat} (hr : ratio ≠ .r1) (ha : a.submit = some handle) :
    compressLoad ratio a desc = .submit desc (some handle) :: ((if 0 < handle then [.wait handle a.wait] else []) ++
      (List.range desc.length).map (codecCall ratio a) ++ [.done]) := by
  simp [compressLoad, ha, hr]

theorem compressDump_shards (hr : ratio ≠ .r1) (hd : desc ≠ []) :
    ∃ backendDesc, ∃ blockToFree : List Nat, (blockToFree = [] ↔ ∀ i, i < desc.length → shardOk ratio a i = false) ∧
      compressDump ratio a desc = (List.range desc.length).map (codecCall ratio a) ++ .submit backendDesc a.submit ::
        (if blockToFree = [] then [.done]
        else
          match a.submit with
          | none => [.terminate]
          | some handle => (if 0 < handle then [.wait handle a.wait] else []) ++ [.done]) := by
  obtain ⟨⟨backendDesc, blockToFree⟩, hout, hnil⟩ := compressShards_spec ratio a desc 0 (List.range desc.length).reverse (by simp)
  rw [← List.range_eq_range'] at hout
  exact ⟨backendDesc, blockToFree, hnil.trans (by simp), by simp only [compressDump, if_neg hr, if_neg hd, hout]⟩

/-- Either the task's worker throws, at its last call, or that is `Done`. -/
theorem Job.calls_last (ratio : FixedRatio) (j : Job Block) :
    ∃ body, (∀ c ∈ body, c ≠ .done ∧ c ≠ .terminate) ∧
      (j.Throws ratio ∧ j.calls ratio = body ++ [.terminate] ∧ (∃ c ∈ body, c.Fails) ∨ ¬ j.Throws ratio ∧
        j.calls ratio = body ++ [.done]) := by
  obtain ⟨isLoad, desc, a, log, rest⟩ := j
  cases isLoad with
  | true =>
    cases ha : a.submit with
    | none =>
      refine ⟨[.submit desc none], by simp, .inl ⟨⟨ha, .inl rfl⟩, ?_, by simp [Call.Fails]⟩⟩
      simp [Job.calls, compressLoad, ha]
    | some handle =>
      have hno : ¬ Job.Throws ratio ⟨true, desc, a, log, rest⟩ := by
        rintro ⟨h, -⟩
        rw [ha] at h
        cases h
      by_cases hr : ratio = .r1
      · exact ⟨[.submit desc (some handle), .wait handle a.wait], by simp, .inr ⟨hno, by simp [Job.calls, compressLoad, ha, hr]⟩⟩
      · refine ⟨.submit desc (some handle) :: ((if 0 < handle then [.wait handle a.wait] else []) ++
          (List.range desc.length).map (codecCall ratio a)), fun c hc => ?_,
          .inr ⟨hno, by simp [Job.calls, compressLoad_some hr ha]⟩⟩
        rcases List.mem_cons.mp hc with rfl | hc
        · exact ⟨nofun, nofun⟩
        · rcases mem_loadBody hc with rfl | ⟨i, -, rfl⟩
          · exact ⟨nofun, nofun⟩
          · exact codecCall_ne
  | false =>
    by_cases hr : ratio = .r1
    · refine ⟨if 0 < desc.length then [.submit desc a.submit] else [], fun c hc => ?_,
        .inr ⟨?_, by simp [Job.calls, compressDump, hr]⟩⟩
      · split at hc
        · rw [List.mem_singleton.mp hc]
          exact ⟨nofun, nofun⟩
        · cases hc
      · rintro ⟨-, h | ⟨h, -⟩⟩
        · cases h
        · exact h hr
    · by_cases hd : desc = []
      · subst hd
        refine ⟨[], by simp, .inr ⟨?_, by simp [Job.calls, compressDump, hr]⟩⟩
        rintro ⟨-, h | ⟨-, i, hi, -⟩⟩
        · cases h
        · exact absurd hi (Nat.not_lt_zero i)
      · obtain ⟨backendDesc, blockToFree, hnil, hcalls⟩ := compressDump_shards (a := a) hr hd
        have hbody : ∀ c ∈ (List.range desc.length).map (codecCall ratio a) ++ [Call.submit backendDesc a.submit],
            c ≠ .done ∧ c ≠ .terminate := by
          intro c hc
          rcases List.mem_append.mp hc with hc | hc
          · obtain ⟨i, -, rfl⟩ := List.mem_map.mp hc
            exact codecCall_ne
          · rw [List.mem_singleton.mp hc]
            exact ⟨nofun, nofun⟩
        by_cases hb : blockToFree = []
        · refine ⟨_, hbody, .inr ⟨?_, by simp [Job.calls, hcalls, hb]⟩⟩
          rintro ⟨-, h | ⟨-, i, hi, hok⟩⟩
          · cases h
          · rw [hnil.mp hb i hi] at hok
            cases hok
        · cases ha : a.submit with
          | none =>
            rw [ha] at hbody hcalls
            refine ⟨_, hbody, .inl ⟨⟨ha, .inr ⟨hr, ?_⟩⟩, by simp [Job.calls, hcalls, hb], .submit backendDesc none, by simp, rfl⟩⟩
            by_contra hno
            refine hb (hnil.mpr fun i hi => ?_)
            by_contra hok
            exact hno ⟨i, hi, by simpa using hok⟩
          | some handle =>
            rw [ha] at hbody hcalls
            refine ⟨(List.range desc.length).map (codecCall ratio a) ++ [.submit backendDesc (some handle)] ++
              (if 0 < handle then [.wait handle a.wait] else []), fun c hc => ?_, .inr ⟨?_, by simp [Job.calls, hcalls, hb]⟩⟩
            · rcases List.mem_append.mp hc with hc | hc
              · exact hbody c hc
              · split at hc
                · rw [List.mem_singleton.mp hc]
                  exact ⟨nofun, nofun⟩
                · cases hc
            · rintro ⟨h, -⟩
              rw [ha] at h
              cases h

/-- Where there is a codec, the calls of a task whose operation is accepted are well if it is
    waited for with success and each shard goes through. -/
theorem allWell_iff {calls : List (Call Block)} {d : List (Shard Block)} {handle n : Nat}
    (hmem : ∀ c : Call Block, c ∈ calls ↔ c = .submit d (some handle) ∨ 0 < handle ∧ c = .wait handle a.wait ∨
      (∃ i, i < n ∧ c = codecCall ratio a i) ∨ c = .done) :
    AllWell ratio n calls ∧ (∀ c ∈ calls, ¬ c.Fails) ↔ 0 < handle ∧ a.wait = true ∧ ∀ i, i < n → shardOk ratio a i = true := by
  have hcall : ∀ i, codecCall ratio a i = (.unsupported i : Call Block) ∨
      ∃ err, codecCall ratio a i = (.codec i err : Call Block) := by
    intro i
    unfold codecCall
    split
    · exact .inr ⟨_, rfl⟩
    · exact .inl rfl
  constructor
  · rintro ⟨hw, hfine⟩
    obtain ⟨h', e, hwait⟩ := hw.submit d (some handle) ((hmem _).mpr (.inl rfl))
    obtain rfl := Option.some.inj e
    have hpos : 0 < handle ∧ a.wait = true := by
      rcases (hmem _).mp hwait with h | ⟨h0, h⟩ | ⟨i, -, h⟩ | h
      · cases h
      · exact ⟨h0, (Call.wait.inj h).2.symm⟩
      · rcases hcall i with e | ⟨err, e⟩ <;> rw [e] at h <;> cases h
      · cases h
    refine ⟨hpos.1, hpos.2, fun i hi => ?_⟩
    have := hfine _ ((hmem _).mpr (.inr (.inr (.inl ⟨i, hi, rfl⟩))))
    rw [codecCall_fails] at this
    simpa using this
  · rintro ⟨h0, hwait, hok⟩
    refine ⟨⟨fun desc res hc => ?_, fun h ok hc => ?_, fun _ i hi => ?_⟩, fun c hc => ?_⟩
    · rcases (hmem _).mp hc with h | ⟨-, h⟩ | ⟨i, -, h⟩ | h
      · injection h with _ h
        exact ⟨handle, h, (hmem _).mpr (.inr (.inl ⟨h0, by rw [hwait]⟩))⟩
      · cases h
      · rcases hcall i with e | ⟨err, e⟩ <;> rw [e] at h <;> cases h
      · cases h
    · rcases (hmem _).mp hc with h | ⟨-, h⟩ | ⟨i, -, h⟩ | h
      · cases h
      · injection h with _ h
        exact h.trans hwait
      · rcases hcall i with e | ⟨err, e⟩ <;> rw [e] at h <;> cases h
      · cases h
    · exact (hmem _).mpr (.inr (.inr (.inl ⟨i, hi, (codecCall_ok.mpr (hok i hi)).symm⟩)))
    · rcases (hmem _).mp hc with rfl | ⟨-, rfl⟩ | ⟨i, hi, rfl⟩ | rfl
      · simp [Call.Fails]
      · simp [Call.Fails, hwait]
      · rw [codecCall_fails, hok i hi]
        decide
      · exact id

/-- Of the tasks that count down, the clean ones are those whose calls are all well and none of
    which fails. -/
theorem Job.clean_iff (j : Job Block) (h : ¬ j.Throws ratio) :
    AllWell ratio j.desc.length (j.calls ratio) ∧ (∀ c ∈ j.calls ratio, ¬ c.Fails) ↔ j.Clean ratio := by
  obtain ⟨isLoad, desc, a, log, rest⟩ := j
  by_cases hr : ratio = .r1
  · subst hr
    cases isLoad with
    | true =>
      cases ha : a.submit with
      | none => exact absurd ⟨ha, .inl rfl⟩ h
      | some handle =>
        constructor
        · rintro ⟨hw, hfine⟩
          refine .inr ⟨.inl rfl, ⟨handle, ha, .inl rfl⟩, ?_, fun hne => absurd rfl hne⟩
          exact hw.wait handle a.wait (by simp [Job.calls, compressLoad, ha])
        · rintro (⟨h, -⟩ | ⟨-, -, hwait, -⟩)
          · cases h
          · refine ⟨⟨fun d res hc => ?_, fun k ok hc => ?_, fun hne => absurd rfl hne⟩, fun c hc => ?_⟩
            all_goals simp [Job.calls, compressLoad, ha] at hc hwait
            · exact ⟨handle, hc.2, by simp [Job.calls, compressLoad, ha, hwait]⟩
            · rw [hc.2]
              exact hwait
            · rcases hc with rfl | rfl | rfl <;> simp [Call.Fails, hwait]
    | false =>
      by_cases hd : desc = []
      · subst hd
        refine ⟨fun _ => .inl ⟨rfl, rfl⟩, fun _ => ⟨⟨?_, ?_, fun hne => absurd rfl hne⟩, ?_⟩⟩ <;>
          simp [Job.calls, compressDump, Call.Fails]
      · -- what is submitted is not waited for
        constructor
        · rintro ⟨hw, -⟩
          obtain ⟨handle, -, hc⟩ := hw.submit desc a.submit (by simp [Job.calls, compressDump, List.length_pos_iff, hd])
          simp [Job.calls, compressDump, List.length_pos_iff, hd] at hc
        · rintro (⟨-, h⟩ | ⟨h | h, -⟩)
          · exact absurd h hd
          · cases h
          · exact absurd rfl h
  · cases isLoad with
    | true =>
      cases ha : a.submit with
      | none => exact absurd ⟨ha, .inl rfl⟩ h
      | some handle =>
        have hmem : ∀ c, c ∈ Job.calls ratio (⟨true, desc, a, log, rest⟩ : Job Block) ↔ c = .submit desc (some handle) ∨
            0 < handle ∧ c = .wait handle a.wait ∨ (∃ i, i < desc.length ∧ c = codecCall ratio a i) ∨ c = .done := by
          intro c
          simp only [Job.calls, if_true, compressLoad_some hr ha]
          by_cases h0 : 0 < handle <;> simp [h0, eq_comm]
        rw [allWell_iff hmem]
        constructor
        · rintro ⟨h0, hwait, hok⟩
          exact .inr ⟨.inl rfl, ⟨handle, ha, .inr h0⟩, hwait, fun _ => hok⟩
        · rintro (⟨h, -⟩ | ⟨-, ⟨k, hk, hpos⟩, hwait, hok⟩)
          · cases h
          · obtain rfl := Option.some.inj (ha.symm.trans hk)
            exact ⟨hpos.resolve_left hr, hwait, hok hr⟩
    | false =>
      by_cases hd : desc = []
      · subst hd
        refine ⟨fun _ => .inl ⟨rfl, rfl⟩, fun _ => ⟨⟨?_, ?_, fun _ i hi => absurd hi (Nat.not_lt_zero i)⟩, ?_⟩⟩ <;>
          simp [Job.calls, compressDump, Call.Fails, hr]
      · obtain ⟨backendDesc, blockToFree, hnil, hcalls⟩ := compressDump_shards (a := a) hr hd
        have hlen : 0 < desc.length := List.length_pos_iff.mpr hd
        by_cases hb : blockToFree = []
        · -- no shard went through
          constructor
          · rintro ⟨-, hfine⟩
            refine absurd (codecCall_fails.mpr (hnil.mp hb 0 hlen)) (hfine _ ?_)
            rw [Job.calls, if_neg nofun, hcalls]
            exact List.mem_append_left _ (List.mem_map.mpr ⟨0, List.mem_range.mpr hlen, rfl⟩)
          · rintro (⟨-, h⟩ | ⟨-, -, -, hok⟩)
            · exact absurd h hd
            · have := hok hr 0 hlen
              rw [hnil.mp hb 0 hlen] at this
              cases this
        · cases ha : a.submit with
          | none =>
            refine absurd ⟨ha, .inr ⟨hr, ?_⟩⟩ h
            by_contra hno
            refine hb (hnil.mpr fun i hi => ?_)
            by_contra hok
            exact hno ⟨i, hi, by simpa using hok⟩
          | some handle =>
            rw [ha] at hcalls
            have hmem : ∀ c, c ∈ Job.calls ratio (⟨false, desc, a, log, rest⟩ : Job Block) ↔
                c = .submit backendDesc (some handle) ∨
                0 < handle ∧ c = .wait handle a.wait ∨ (∃ i, i < desc.length ∧ c = codecCall ratio a i) ∨ c = .done := by
              intro c
              rw [Job.calls, if_neg nofun, hcalls, if_neg hb]
              by_cases h0 : 0 < handle <;> simp only [h0, if_true, if_false, List.mem_append, List.mem_cons, List.mem_map,
                List.mem_range,
                List.not_mem_nil, @eq_comm _ _ c, true_and, false_and, or_false, false_or]
              · exact or_left_comm.trans (or_congr_right or_left_comm)
              · exact or_left_comm
            rw [allWell_iff hmem]
            constructor
            · rintro ⟨h0, hwait, hok⟩
              exact .inr ⟨.inr hr, ⟨handle, ha, .inr h0⟩, hwait, fun _ => hok⟩
            · rintro (⟨-, h⟩ | ⟨-, ⟨k, hk, hpos⟩, hwait, hok⟩)
              · exact absurd h hd
              · obtain rfl := Option.some.inj (ha.symm.trans hk)
                exact ⟨hpos.resolve_left hr, hwait, hok hr⟩

end Calls

/-! ## Every run -/

/-- The task's `Wait` has returned, or its worker has ended the process. -/
def Compressor.Settled (s : Compressor Block) (t : Nat) : Prop := s.result t ≠ none ∨ s.crashed = some t

/-- What `Wait` tells of a task is so. -/
structure Compressor.Propagates (ratio : FixedRatio) (s : Compressor Block) (t : Nat) : Prop where
  ok : s.result t = some .ok → AllWell ratio (s.job t).desc.length (s.job t).log
  fails : (∃ c ∈ (s.job t).log, c.Fails) → ∃ status, s.result t = some status ∧ status ≠ .ok

structure TaskInv (ratio : FixedRatio) (s : Compressor Block) : Prop where
  calls : ∀ t, t < s.wrapper.nTask → (s.job t).log ++ (s.job t).rest = (s.job t).calls ratio
  counter : ∀ t, t < s.wrapper.nTask → s.wrapper.counter t = 0 → .done ∈ (s.job t).log
  crashed : ∀ t, s.crashed = some t → t < s.wrapper.nTask ∧ .terminate ∈ (s.job t).log
  fresh : ∀ t, s.wrapper.wait t ≠ .notCalled → t < s.wrapper.nTask
  marks : ∀ t, s.wrapper.failureSet t = true → s.wrapper.wait t = .cancelling ∨ s.wrapper.wait t = .draining
  timedOut : ∀ t, s.timedOut t = true ↔ s.wrapper.wait t = .cancelling ∨ s.wrapper.wait t = .draining ∨ s.result t = some .timeout
  result : ∀ t status, s.result t = some status → s.wrapper.wait t = .returned ∧ s.wrapper.counter t = 0 ∧ status ≠ .failure

section Runs

variable {ratio : FixedRatio} {s s' : Compressor Block} {l : CompressLabel Block} {t : Nat}

theorem TaskInv.push {isLoad : Bool} {desc : List (Shard Block)} {a : Answers} (h : TaskInv ratio s) (hc : s.crashed = none) :
    TaskInv ratio (s.push ratio isLoad desc a) := by
  have hlt : ∀ {t}, t < s.wrapper.nTask + 1 → t ≠ s.wrapper.nTask → t < s.wrapper.nTask := fun h1 h2 => by omega
  refine ⟨fun t ht => ?_, fun t ht hz => ?_, fun t ht => ?_, fun t ht => Nat.lt_succ_of_lt (h.fresh t ht), h.marks, h.timedOut,
    fun t st hr => ?_⟩
  · by_cases e : t = s.wrapper.nTask
    · subst e
      simp [Compressor.push, Job.calls]
    · simpa [Compressor.push, e] using h.calls t (hlt ht e)
  · by_cases e : t = s.wrapper.nTask
    · subst e
      simp [Compressor.push] at hz
    · simp only [Compressor.push, TaskWrapper.submit_counter, e, if_false] at hz
      simpa [Compressor.push, e] using h.counter t (hlt ht e) hz
  · rw [show (s.push ratio isLoad desc a).crashed = s.crashed from rfl, hc] at ht
    cases ht
  · obtain ⟨hw, hz, hne⟩ := h.result t st hr
    have hne' : t ≠ s.wrapper.nTask := fun e => by
      have := h.fresh t (by rw [hw]; nofun)
      omega
    exact ⟨hw, by simpa [Compressor.push, hne'] using hz, hne⟩

theorem TaskInv.perform {c : Call Block} {rest : List (Call Block)} (h : TaskInv ratio s) (hc : s.crashed = none)
    (ht : t < s.wrapper.nTask) (hrest : (s.job t).rest = c :: rest) : TaskInv ratio (s.perform t c rest) := by
  have hn : (s.perform t c rest).wrapper.nTask = s.wrapper.nTask := by
    cases c <;> rfl
  have hw : (s.perform t c rest).wrapper.wait = s.wrapper.wait ∧
      (s.perform t c rest).wrapper.failureSet = s.wrapper.failureSet := by
    cases c <;> exact ⟨rfl, rfl⟩
  refine ⟨fun t' ht' => ?_, fun t' ht' hz => ?_, fun t' ht' => ?_, fun t' ht' => ?_, ?_, ?_, fun t' st hr => ?_⟩
  · rw [hn] at ht'
    have := h.calls t' ht'
    by_cases e : t' = t
    · subst e
      rw [hrest] at this
      simpa [Compressor.perform, Job.calls] using this
    · simpa [Compressor.perform, e] using this
  · rw [hn] at ht'
    by_cases e : t' = t
    · subst e
      cases c with
      | done => simp [Compressor.perform]
      | _ => simpa [Compressor.perform] using h.counter t' ht' hz
    · have hz' : s.wrapper.counter t' = 0 := by
        cases c with
        | done => simpa [Compressor.perform, e] using hz
        | _ => exact hz
      simpa [Compressor.perform, e] using h.counter t' ht' hz'
  · cases c with
    | terminate =>
      obtain rfl := Option.some.inj ht'
      exact ⟨ht, by simp [Compressor.perform]⟩
    | _ =>
      have : s.crashed = some t' := ht'
      rw [hc] at this
      cases this
  · rw [hn]
    rw [hw.1] at ht'
    exact h.fresh t' ht'
  · rw [hw.1, hw.2]
    exact h.marks
  · rw [hw.1]
    exact h.timedOut
  · obtain ⟨h1, h2, h3⟩ := h.result t' st hr
    refine ⟨by rw [hw.1]; exact h1, ?_, h3⟩
    cases c with
    | done =>
      simp only [Compressor.perform, if_true, TaskWrapper.done_counter]
      split
      · next e =>
        subst e
        omega
      · exact h2
    | _ => exact h2

theorem TaskInv.waited {wl : WaitLabel} {w : TaskWrapper} (h : TaskInv ratio s) (hc : s.crashed = none)
    (hst : waitStep false s.wrapper wl = some w) : TaskInv ratio (s.waited wl w) := by
  have hk := waitStep_keeps hst
  have hcrash : ∀ t, (s.waited wl w).crashed = some t → t < (s.waited wl w).wrapper.nTask ∧
      .terminate ∈ ((s.waited wl w).job t).log := by
    intro t ht
    rw [show (s.waited wl w).crashed = s.crashed from rfl, hc] at ht
    cases ht
  refine ⟨fun t ht => h.calls t (hk.nTask ▸ ht), fun t ht hz => h.counter t (hk.nTask ▸ ht) (hk.counter ▸ hz), hcrash,
    fun t ht => ?_,
    fun t ht => ?_, fun t => ?_, fun t st hr => ?_⟩
  · rw [show (s.waited wl w).wrapper.nTask = s.wrapper.nTask from hk.nTask]
    exact (hk.called t ht).elim (h.fresh t) id
  all_goals
    have hm := h.marks t
    have ht₀ := h.timedOut t
    have hr₀ := h.result t
    cases wl with
    | call t' | finished t' | timeout t' | cancelled t' | drained t' =>
      simp only [waitStep, Option.ite_none_right_eq_some, Option.some.injEq] at hst
      obtain ⟨hg, rfl⟩ := hst
      by_cases e : t = t' <;> simp_all [Compressor.waited, waitStatus]
      all_goals exact hr ▸ (by simp)

theorem reach_taskInv {ok : Compressor Block → CompressLabel Block → Prop} (h : Reach (compressStore ratio) ok s) :
    TaskInv ratio s := by
  refine Reach.inv (I := TaskInv ratio) (fun s hi => ?_) (fun s l s' hI _ hst => ?_) h
  · refine ⟨fun t ht => ?_, fun t ht => ?_, fun t ht => ?_, fun t ht => ?_, fun t ht => ?_, fun t => ?_, fun t st hr => ?_⟩
    all_goals simp_all [hi.wrapper, hi.timedOut, hi.result, hi.crashed, TaskWrapper.init]
  · have hst : compressStep ratio s l = some s' := hst
    unfold compressStep at hst
    split at hst
    · cases hst
    · next hc =>
      have hc : s.crashed = none := by simpa using hc
      cases l with
      | submit isLoad desc a =>
        obtain rfl := Option.some.inj hst
        exact hI.push hc
      | work t =>
        simp only [Option.ite_none_right_eq_some] at hst
        obtain ⟨ht, hst⟩ := hst
        split at hst
        · cases hst
        · next c rest hrest =>
          obtain rfl := Option.some.inj hst
          exact hI.perform hc ht hrest
      | wait wl =>
        simp only [Option.map_eq_some_iff] at hst
        obtain ⟨w, hw, rfl⟩ := hst
        exact hI.waited hc hw

/-- What ends the calls, once made, leaves none to come. -/
theorem rest_nil {α : Type*} {log rest body : List α} {last : α} (h : log ++ rest = body ++ [last]) (hlast : last ∈ log)
    (hnot : last ∉ body) : rest = [] := by
  rcases List.eq_nil_or_concat rest with rfl | ⟨rest, x, rfl⟩
  · rfl
  · rw [List.concat_eq_append, ← List.append_assoc] at h
    exact absurd ((List.append_inj_left' h rfl) ▸ List.mem_append_left rest hlast) hnot

/-- `Wait` tells of a task what there is to tell just if all went well, or if it timed out and the
    worker came to its end. -/
theorem wait_propagates (h : Reach (compressStore ratio) Any s) (ht : t < s.wrapper.nTask) (hs : s.Settled t) :
    s.Propagates ratio t ↔ (s.job t).Clean ratio ∨ s.timedOut t = true ∧ ¬ (s.job t).Throws ratio := by
  have hI := reach_taskInv h
  have hcalls := hI.calls t ht
  have hdone : ∀ status, s.result t = some status → .done ∈ (s.job t).log := fun status hr =>
    hI.counter t ht (hI.result t status hr).2.1
  have hcrashed := hI.crashed t
  obtain ⟨body, hbody, ⟨hthrow, hlast, c, hc, hfails⟩ | ⟨hthrow, hlast⟩⟩ := (s.job t).calls_last ratio
  · rw [hlast] at hcalls
    -- the process ends with this task: its `Wait` does not return
    have hnone : s.result t = none := by
      by_contra hne
      obtain ⟨status, hr⟩ := Option.ne_none_iff_exists'.mp hne
      have hmem := List.mem_append_left (s.job t).rest (hdone status hr)
      rw [hcalls] at hmem
      rcases List.mem_append.mp hmem with hmem | hmem
      · exact (hbody _ hmem).1 rfl
      · cases List.mem_singleton.mp hmem
    have hend := (hcrashed (hs.resolve_left fun h => h hnone)).2
    have hrest := rest_nil hcalls hend fun hmem => (hbody _ hmem).2 rfl
    rw [hrest, List.append_nil] at hcalls
    constructor
    · intro hp
      obtain ⟨status, hr, -⟩ := hp.fails ⟨c, hcalls ▸ List.mem_append_left _ hc, hfails⟩
      rw [hnone] at hr
      cases hr
    · rintro (hclean | ⟨-, h⟩)
      · obtain ⟨hsub, hwhy⟩ := hthrow
        rcases hclean with ⟨hl, hd⟩ | ⟨-, ⟨handle, ha, -⟩, -⟩
        · rcases hwhy with hwhy | ⟨-, i, hi, -⟩
          · rw [hl] at hwhy
            cases hwhy
          · rw [hd] at hi
            exact absurd hi (Nat.not_lt_zero i)
        · rw [hsub] at ha
          cases ha
      · exact absurd hthrow h
  · have hcount := hcalls
    rw [hlast] at hcount
    have hno : s.crashed ≠ some t := by
      intro hc
      have hmem := List.mem_append_left (s.job t).rest (hcrashed hc).2
      rw [hcount] at hmem
      rcases List.mem_append.mp hmem with hmem | hmem
      · exact (hbody _ hmem).2 rfl
      · cases List.mem_singleton.mp hmem
    obtain ⟨status, hr⟩ := Option.ne_none_iff_exists'.mp (hs.resolve_right hno)
    have hrest := rest_nil hcount (hdone status hr) fun hmem => (hbody _ hmem).1 rfl
    rw [hrest, List.append_nil] at hcalls
    obtain ⟨hret, -, hstatus⟩ := hI.result t status hr
    have htimed := hI.timedOut t
    cases status with
    | failure => exact absurd rfl hstatus
    | timeout =>
      refine ⟨fun _ => .inr ⟨htimed.mpr (.inr (.inr hr)), hthrow⟩, fun _ => ⟨fun h => ?_, fun _ => ⟨_, hr, nofun⟩⟩⟩
      rw [hr] at h
      cases h
    | ok =>
      have hintime : s.timedOut t ≠ true := by
        intro h
        rcases htimed.mp h with h | h | h
        · rw [hret] at h
          cases h
        · rw [hret] at h
          cases h
        · rw [hr] at h
          cases h
      rw [← Job.clean_iff _ hthrow, ← hcalls]
      constructor
      · refine fun hp => .inl ⟨hp.ok hr, fun c hc hfails => ?_⟩
        obtain ⟨status, hr', hne⟩ := hp.fails ⟨c, hc, hfails⟩
        exact hne (Option.some.inj (hr'.symm.trans hr))
      · rintro (⟨hwell, hfine⟩ | ⟨h, -⟩)
        · exact ⟨fun _ => hwell, fun ⟨c, hc, hfails⟩ => absurd hfails (hfine c hc)⟩
        · exact absurd h hintime

end Runs

instance (s : Compressor Nat) (t : Nat) : Decidable (s.Settled t) := by unfold Compressor.Settled; infer_instance

def freshCompressor : Compressor Nat := ⟨.init, fun _ => ⟨true, [], ⟨none, true, fun _ => 0⟩, [], []⟩, fun _ => false,
    fun _ => none, none⟩

theorem freshCompressor_init : freshCompressor.IsInit := ⟨rfl, fun _ => rfl, fun _ => rfl, rfl⟩

/-- A load of one shard, with the backend's answer to `Wait`. -/
def loadShard (ok : Bool) : List (CompressLabel Nat) :=
  [.submit true [⟨7, 0, [0]⟩] ⟨some 1, ok, fun _ => 0⟩, .work 0, .work 0, .work 0, .work 0, .wait (.call 0), .wait (.finished 0)]

/-- A load that goes well. -/
theorem wait_propagates_load : ∃ s : Compressor Nat, Reach (compressStore .r200) Any s ∧ s.Settled 0 ∧ s.result 0 = some .ok ∧
    (Compressor.Propagates .r200 s 0 ↔ (s.job 0).Clean .r200 ∨ s.timedOut 0 = true ∧ ¬ (s.job 0).Throws .r200) := by
  obtain ⟨s, hs, hp⟩ := exists_of_replay (S := compressStore .r200)
    (p := fun s => decide (0 < s.wrapper.nTask ∧ s.Settled 0 ∧ s.result 0 = some .ok))
    (loadShard true) freshCompressor_init (by decide)
  obtain ⟨ht, hset, hr⟩ := of_decide_eq_true hp
  exact ⟨s, hs, hset, hr, wait_propagates hs ht hset⟩

/-- The backend fails to load, and `Wait` returns OK. -/
theorem load_failure_untold : ∃ s : Compressor Nat, Reach (compressStore .r200) Any s ∧ s.Settled 0 ∧ s.result 0 = some .ok ∧
    ∃ c ∈ (s.job 0).log, c.Fails ∧ ¬ Compressor.Propagates .r200 s 0 := by
  obtain ⟨s, hs, hp⟩ := exists_of_replay (S := compressStore .r200)
    (p := fun s => decide (s.Settled 0 ∧ s.result 0 = some .ok ∧ .wait 1 false ∈ (s.job 0).log))
    (loadShard false) freshCompressor_init
    (by decide)
  obtain ⟨hset, hr, hmem⟩ := of_decide_eq_true hp
  refine ⟨s, hs, hset, hr, _, hmem, rfl, fun hp => ?_⟩
  obtain ⟨status, hr', hne⟩ := hp.fails ⟨_, hmem, rfl⟩
  exact hne (Option.some.inj (hr'.symm.trans hr))

end UnifiedCache.Compress
