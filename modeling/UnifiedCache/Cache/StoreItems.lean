/-
  UnifiedCache.Cache.StoreItems — what a step of the cache store does to one item, and who has
  which (see `UnifiedCache.Cache.StoreSteps`).

  - `Move`: what a step can do to an item, one constructor for each way; `Gets`: the steps with
    a new item. An invariant over items is proved by one case for each.
  - `Linked`: the handle in a dispatcher's hand is the item at that stage, a transfer thread has
    one item, and loads and dumps have stages of their own. `StoreCase.move` rests on it, and it
    on `Move`: each step keeps it (`StoreCase.linked`).
-/

import UnifiedCache.Cache.StoreSteps

namespace UnifiedCache.Cache

open UnifiedCache.Base UnifiedCache.Detail

variable {Block : Type}

/-! ## What a step does to one item -/

/-- The stages of a load's item, up to the end of its transfer. -/
def Stage.ofLoad : Stage → Bool
  | .got | .collected | .queued | .waiting | .spinning | .ready | .flushing | .syncing | .failing | .counting | .holder => true
  | _ => false

def Stage.ofDump : Stage → Bool
  | .dumpGot | .copied | .synced | .dumping => true
  | _ => false

/-- The item whose transfer takes the step. -/
def StoreLabel.mover : StoreLabel Block → Option Nat
  | .transfer u _ => some u
  | _ => none

/-- `DumpOneTask` fails: its handles go out of scope. -/
inductive DumpFails (s : Store Block) (p : Nat) : DumpLabel → Prop
  | take (t j u : Nat) (part : Bool) (pc : (s.proc p).dumper = .got t j u) (owner : (s.item u).owner = true)
      (unready : s.buf.getState (s.item u).pos ≠ .ready) : DumpFails s p (.take false part)
  | sync (t : Nat) (pc : (s.proc p).dumper = .sync t) : DumpFails s p (.sync false)
  | submit (t : Nat) (pc : (s.proc p).dumper = .mark t)
      (marked : ∀ u, u < s.nItem → s.At p .synced u → s.buf.getState (s.item u).pos ≠ .loading) : DumpFails s p (.submit false)

/-- A step clears the holder of item `u`'s transfer thread. -/
inductive Clears (C : Config Block) (s : Store Block) (u : Nat) : TransferLabel → Prop
  | take (stage : (s.item u).stage = .queued) (next : s.Next u) (failed : s.failed u = true) (waiter : (s.item u).waiter = true) :
      Clears C s u .take
  | flush (part : Bool) (stage : (s.item u).stage = .flushing) : Clears C s u (.flush false part)
  | sync (ok : Bool) (stage : (s.item u).stage = .syncing) : Clears C s u (.sync ok)
  | fail (stage : (s.item u).stage = .failing) (mode : C.taskLaunch (s.item u).proc = true) : Clears C s u .fail

/-- The copies that a step of item `u`'s transfer leaves for an item in `holder_`. -/
def holderCopying (x : Item) : TransferLabel → Bool
  | .flush _ part => part
  | .sync ok => x.copying && !(ok && x.isLoad)
  | _ => x.copying

/-- What a step can do to an item, `b` being the buffer after it. -/
inductive Move (C : Config Block) (s : Store Block) (b : Buf Block) (v : Nat) : StoreLabel Block → Item → Prop
  | same (l : StoreLabel Block) (other : l.mover ≠ some v) : Move C s b v l (s.item v)
  | collect (p : Nat) (ok : Bool) (backend : Op) (pc : (s.proc p).dispatcher = .got (s.item v).task (s.item v).shard v)
      (proc : (s.item v).proc = p) (stage : (s.item v).stage = .got) (mode : C.taskLaunch p = true)
      (submitted : backend = .running ∧ (s.item v).owner = true ∧ s.buf.getState (s.item v).pos ≠ .ready ∨
        backend = (s.item v).backend ∧ ((s.item v).owner = true → s.buf.getState (s.item v).pos = .ready)) :
      Move C s b v (.dispatch p (.submit ok))
        { s.item v with backend := backend, stage := .collected, ready := s.buf.ready (s.item v).pos }
  | queue (p : Nat) (ok : Bool) (backend : Op) (pc : (s.proc p).dispatcher = .got (s.item v).task (s.item v).shard v)
      (proc : (s.item v).proc = p) (stage : (s.item v).stage = .got) (mode : C.taskLaunch p = false)
      (submitted : backend = .running ∧ (s.item v).owner = true ∧ s.buf.getState (s.item v).pos ≠ .ready ∨
        backend = (s.item v).backend ∧ ((s.item v).owner = true → s.buf.getState (s.item v).pos = .ready)) :
      Move C s b v (.dispatch p (.submit ok))
        { s.item v with
          backend := backend
          stage := .queued
          ticket := (s.proc p).tickets
          waiter := (s.item v).shard + 1 = ((s.proc p).task (s.item v).task).desc.length }
  | push (p t : Nat) (pc : (s.proc p).dispatcher = .pushing t) (collected : s.At p .collected v)
      (first : ∀ w, w < s.nItem → s.At p .collected w → s.pushedBefore v w) :
      Move C s b v (.dispatch p (.push v)) ((s.pushItem p v).item v)
  /-- The dispatcher returns, having failed. -/
  | abandon (p t : Nat) (pc : (s.proc p).dispatcher = .done t) (proc : (s.item v).proc = p)
      (stage : (s.item v).stage = .got ∨ (s.item v).stage = .collected) : Move C s b v (.dispatch p .done) (s.item v).drop
  | skip (stage : (s.item v).stage = .queued) (next : s.Next v) (failed : s.failed v = true)
      (waiter : (s.item v).waiter = false) : Move C s b v (.transfer v .take) (s.item v).drop
  | skipLast (stage : (s.item v).stage = .queued) (next : s.Next v) (failed : s.failed v = true)
      (waiter : (s.item v).waiter = true) : Move C s b v (.transfer v .take) { s.item v with stage := .counting }
  | take (stage : (s.item v).stage = .queued) (next : s.Next v) (fine : s.failed v = false) :
      Move C s b v (.transfer v .take) { s.item v with stage := .waiting }
  | waited (ok : Bool) (stage : (s.item v).stage = .waiting)
      (ended : (s.item v).backend = .ended ∨ ok = false ∧ (s.item v).backend = .running)
      (settled : b.getState (s.item v).pos ≠ .loading) :
      Move C s b v (.transfer v (.wait ok)) { s.item v with stage := if ok then .ready else .failing }
  | look (stage' : Stage) (stage : (s.item v).stage = .waiting) (backend : (s.item v).backend = .none)
      (outcome : s.buf.getState (s.item v).pos = .ready ∧ stage' = .ready ∨ s.buf.getState (s.item v).pos = .failed ∧
        stage' = .failing ∨
        s.buf.getState (s.item v).pos = .loading ∧ stage' = .spinning) :
      Move C s b v (.transfer v .look) { s.item v with stage := stage' }
  | check (stage : (s.item v).stage = .spinning) :
      Move C s b v (.transfer v .check) { s.item v with stage := if s.failed v then .failing else .waiting }
  | hold (stage : (s.item v).stage = .ready) (mode : C.taskLaunch (s.item v).proc = true) :
      Move C s b v (.transfer v .hold) { s.item v with stage := if (s.item v).launchBoundary then .flushing else .holder }
  | copy (ok part : Bool) (stage : (s.item v).stage = .ready) (mode : C.taskLaunch (s.item v).proc = false) :
      Move C s b v (.transfer v (.copy ok part))
        { s.item v with
          copying := ok || part
          stage := if ok then if (s.item v).waiter then .syncing else .holder else .failing }
  | flush (part : Bool) (stage : (s.item v).stage = .flushing) :
      Move C s b v (.transfer v (.flush true part)) { s.item v with copying := true, stage := .syncing }
  | flushFails (part : Bool) (stage : (s.item v).stage = .flushing) :
      Move C s b v (.transfer v (.flush false part)) { (s.item v).letGo with copying := part, stage := .failing }
  | sync (ok : Bool) (h : Hold) (stage : (s.item v).stage = .syncing)
      (handle : h = if C.taskLaunch (s.item v).proc then (s.item v).letGo.handle else (s.item v).handle) :
      Move C s b v (.transfer v (.sync ok))
        { s.item v with
          copying := (s.item v).copying && !ok
          handle := h
          stage := if ok then .counting else .failing }
  | fail (stage : (s.item v).stage = .failing) : Move C s b v (.transfer v .fail) { s.item v with stage := .counting }
  | done (stage : (s.item v).stage = .counting) : Move C s b v (.transfer v .done) (s.item v).drop
  | flushed (u : Nat) (part : Bool) (other : v ≠ u) (proc : (s.item v).proc = (s.item u).proc)
      (uStage : (s.item u).stage = .flushing)
      (stage : (s.item v).stage = .holder) :
      Move C s b v (.transfer u (.flush true part)) { s.item v with copying := true }
  | cleared (u : Nat) (l : TransferLabel) (other : v ≠ u) (proc : (s.item v).proc = (s.item u).proc) (why : Clears C s u l)
      (stage : (s.item v).stage = .holder) :
      Move C s b v (.transfer u l) { (s.item v).drop with copying := holderCopying (s.item v) l }
  | synced (u : Nat) (other : v ≠ u) (proc : (s.item v).proc = (s.item u).proc) (uStage : (s.item u).stage = .syncing)
      (stage : (s.item v).stage ≠ .holder) (isLoad : (s.item v).isLoad = true) :
      Move C s b v (.transfer u (.sync true)) { s.item v with copying := false }
  | skipDump (p : Nat) (ok part : Bool) (pc : (s.proc p).dumper = .got (s.item v).task (s.item v).shard v)
      (proc : (s.item v).proc = p) (stage : (s.item v).stage = .dumpGot) (shared : (s.item v).owner = false) :
      Move C s b v (.dump p (.take ok part)) (s.item v).drop
  | found (p : Nat) (ok part : Bool) (pc : (s.proc p).dumper = .got (s.item v).task (s.item v).shard v)
      (proc : (s.item v).proc = p) (stage : (s.item v).stage = .dumpGot) (owner : (s.item v).owner = true)
      (ready : s.buf.getState (s.item v).pos = .ready) :
      Move C s b v (.dump p (.take ok part)) { s.item v with stage := .copied }
  | copyDump (p : Nat) (part : Bool) (pc : (s.proc p).dumper = .got (s.item v).task (s.item v).shard v)
      (proc : (s.item v).proc = p) (stage : (s.item v).stage = .dumpGot) (owner : (s.item v).owner = true)
      (unready : s.buf.getState (s.item v).pos ≠ .ready) :
      Move C s b v (.dump p (.take true part)) { s.item v with stage := .copied, copying := true }
  | refuseDump (p : Nat) (part : Bool) (pc : (s.proc p).dumper = .got (s.item v).task (s.item v).shard v)
      (proc : (s.item v).proc = p) (stage : (s.item v).stage = .dumpGot) (owner : (s.item v).owner = true)
      (unready : s.buf.getState (s.item v).pos ≠ .ready) :
      Move C s b v (.dump p (.take false part)) { (s.item v).drop with copying := part }
  | giveUp (p : Nat) (l : DumpLabel) (proc : (s.item v).proc = p) (why : DumpFails s p l)
      (stage : (s.item v).stage = .copied ∨ (s.item v).stage = .synced) : Move C s b v (.dump p l) (s.item v).drop
  | syncDump (p t : Nat) (pc : (s.proc p).dumper = .sync t) (proc : (s.item v).proc = p) (isLoad : (s.item v).isLoad = false) :
      Move C s b v (.dump p (.sync true))
        { s.item v with
          copying := false
          stage := if (s.item v).stage = .copied then .synced else (s.item v).stage }
  | submitDump (p t : Nat) (pc : (s.proc p).dumper = .mark t) (proc : (s.item v).proc = p) (stage : (s.item v).stage = .synced)
      (settled : s.buf.getState (s.item v).pos ≠ .loading) :
      Move C s b v (.dump p (.submit true)) { s.item v with stage := .dumping, backend := .running }
  | waitedDump (p t : Nat) (rest : List Nat) (ok : Bool) (first : (s.proc p).dumping = t :: rest) (proc : (s.item v).proc = p)
      (stage : (s.item v).stage = .dumping) (task : (s.item v).task = t) (ended : ok = true → (s.item v).backend = .ended) :
      Move C s b v (.dump p (.waited ok)) (s.item v).drop
  | loadOver (isLoad : (s.item v).isLoad = true) (running : (s.item v).backend = .running) :
      Move C s b v (.loadOver v) { s.item v with backend := .ended }
  | dumpOver (p t : Nat) (proc : (s.item v).proc = p) (task : (s.item v).task = t) (isLoad : (s.item v).isLoad = false)
      (running : (s.item v).backend = .running) :
      Move C s b v (.dumpOver p t) { s.item v with backend := .ended }
  | release (dropping : (s.item v).handle = .dropping) : Move C s b v (.release v) { s.item v with handle := .released }

/-! ## Who has what -/

/-- The handle in a dispatcher's hand is the item at that stage; a transfer thread has one item. -/
structure Linked (s : Store Block) : Prop where
  got : ∀ p t j u, (s.proc p).dispatcher = .got t j u →
    u < s.nItem ∧ (s.item u).proc = p ∧ (s.item u).task = t ∧ (s.item u).shard = j ∧ (s.item u).stage = .got
  gotOnly : ∀ u, u < s.nItem → (s.item u).stage = .got →
    (s.proc (s.item u).proc).dispatcher = .got (s.item u).task (s.item u).shard u ∨
      (s.proc (s.item u).proc).dispatcher = .failing (s.item u).task ∨ (s.proc (s.item u).proc).dispatcher = .done (s.item u).task
  dumpGot : ∀ p t j u, (s.proc p).dumper = .got t j u →
    u < s.nItem ∧ (s.item u).proc = p ∧ (s.item u).task = t ∧ (s.item u).shard = j ∧ (s.item u).stage = .dumpGot
  dumpGotOnly : ∀ u, u < s.nItem → (s.item u).stage = .dumpGot →
    (s.proc (s.item u).proc).dumper = .got (s.item u).task (s.item u).shard u
  alone : ∀ u v, u < s.nItem → v < s.nItem → (s.item u).proc = (s.item v).proc → (s.item u).stage.transferring = true →
    (s.item v).stage.transferring = true → u = v
  isLoad : ∀ u, u < s.nItem → (s.item u).stage.ofLoad = true → (s.item u).isLoad = true
  isDump : ∀ u, u < s.nItem → (s.item u).stage.ofDump = true → (s.item u).isLoad = false

section Move

variable {C : Config Block} {s s' : Store Block} {p u v : Nat}

theorem Move.untouched {b : Buf Block} {l : StoreLabel Block} {x : Item} (other : l.mover ≠ some v) (h : x = s.item v) :
    Move C s b v l x :=
  h ▸ .same l other

theorem DispatchCase.move {l : DispatchLabel} (hl : Linked s) (h : DispatchCase C s p l s') (hv : v < s.nItem) :
    Move C s s'.buf v (.dispatch p l) (s'.item v) := by
  cases h with
  | start t rest pc first => exact .same _ nofun
  | get t j blockId shardIdx i b owner pc shard spec =>
    exact .untouched nofun (by simp [Nat.ne_of_lt hv])
  | enqueue t j u ok backend pc submitted =>
    obtain ⟨hu, hproc, rfl, rfl, hstage⟩ := hl.got p t j u pc
    unfold Store.enqueue
    by_cases e : v = u
    · subst e
      cases hmode : C.taskLaunch p with
      | true => simpa using Move.collect p ok backend pc hproc hstage hmode submitted
      | false => simpa using Move.queue p ok backend pc hproc hstage hmode submitted
    · refine .untouched nofun ?_
      simp only
      split <;> simp [e]
  | refuse t j u pc owner unready => exact .same _ nofun
  | finish t pc => exact .same _ nofun
  | pushed t pc none => exact .same _ nofun
  | push t u pc collected first =>
    by_cases e : v = u
    · subst e
      exact .push p t pc collected first
    · exact .untouched nofun (by simp [Store.pushItem, e])
  | fail t pc => exact .same _ nofun
  | done t pc =>
    simp only [dropAt_item, setDispatcher_item, setWrapper_item, Bool.or_eq_true]
    split
    · next hat => exact .abandon p t pc hat.1 (hat.2.imp of_decide_eq_true of_decide_eq_true)
    · exact .same _ nofun

theorem TransferCase.move {l : TransferLabel} (hl : Linked s) (hu : u < s.nItem) (h : TransferCase C s u l s')
    (hv : v < s.nItem) :
    Move C s s'.buf v (.transfer u l) (s'.item v) := by
  have hother : v ≠ u → (StoreLabel.transfer u l : StoreLabel Block).mover ≠ some v := by
    intro hne e
    exact hne (Option.some.inj e).symm
  -- what a step that clears the holder does to the other items
  have hclear : ∀ {x : Item}, v ≠ u → Clears C s u l → holderCopying (s.item v) l = (s.item v).copying →
      x = (if (s.item v).proc = (s.item u).proc ∧ (s.item v).stage = .holder then (s.item v).drop else s.item v) →
      Move C s s'.buf v (.transfer u l) x := by
    intro x hne hc hcopy hx
    rw [hx]
    split
    · next hat =>
      have := Move.cleared (b := s'.buf) u l hne hat.1 hc hat.2
      rwa [hcopy] at this
    · exact .same _ (hother hne)
  by_cases e : v = u
  · subst e
    cases h with
    | skip stage next failed waiter => simpa using Move.skip stage next failed waiter
    | skipLast stage next failed waiter => simpa [Store.clearHolder, stage] using Move.skipLast stage next failed waiter
    | take stage next fine => simpa using Move.take stage next fine
    | wait ok stage ended =>
      unfold Store.waitBackend
      cases ok with
      | true => simpa using Move.waited true stage ended (markReady_state s.buf _)
      | false => simpa using Move.waited false stage ended (markFailed_state s.buf _ _)
    | look stage backend =>
      simp only [Store.lookState, setStage_item, if_true]
      refine .look _ stage backend ?_
      cases s.buf.getState (s.item v).pos <;> simp
    | check stage => simpa using Move.check stage
    | hold stage mode => simpa using Move.hold stage mode
    | copy ok part stage mode => simpa [Store.copyShard] using Move.copy ok part stage mode
    | flush ok part stage =>
      unfold Store.flushHolder
      cases ok with
      | true => simpa [stage] using Move.flush part stage
      | false => simpa [stage, Store.clearHolder, Item.letGo] using Move.flushFails part stage
    | sync ok stage =>
      have hload := hl.isLoad v hu (by rw [stage]; rfl)
      have := Move.sync (C := C) (b := (s.syncStream C v ok).buf) ok _ stage rfl
      cases ok <;> cases hm : C.taskLaunch (s.item v).proc <;>
        simpa [Store.syncStream, Store.clearHolder, stage, hm, hload, Item.letGo] using this
    | fail stage =>
      unfold Store.failTask
      cases hm : C.taskLaunch (s.item v).proc <;> simpa [Store.clearHolder, stage, hm] using Move.fail stage
    | done stage =>
      unfold Store.countDown
      cases hw : (s.item v).waiter <;> simpa using Move.done stage
  · have hne := hother e
    cases h with
    | skip stage next failed waiter => exact .untouched hne (by simp [e])
    | skipLast stage next failed waiter => exact hclear e (.take stage next failed waiter) rfl (by simp [e, Store.clearHolder])
    | take stage next fine => exact .untouched hne (by simp [e])
    | wait ok stage ended =>
      refine .untouched hne ?_
      unfold Store.waitBackend
      cases ok <;> simp [e]
    | look stage backend => exact .untouched hne (by simp [e, Store.lookState])
    | check stage => exact .untouched hne (by simp [e])
    | hold stage mode => exact .untouched hne (by simp [e])
    | copy ok part stage mode => exact .untouched hne (by simp [e, Store.copyShard])
    | flush ok part stage =>
      have hflushing : (s.item v).proc = (s.item u).proc → (s.item v).stage ≠ .flushing := fun hp hs =>
        e (hl.alone v u hv hu hp (by rw [hs]; rfl) (by rw [stage]; rfl))
      by_cases hat : (s.item v).proc = (s.item u).proc ∧ (s.item v).stage = .holder
      · cases ok with
        | true => simpa [Store.flushHolder, e, hat.1, hat.2] using Move.flushed u part e hat.1 stage hat.2
        | false =>
          simpa [Store.flushHolder, Store.clearHolder, stage, e, hat.1, hat.2, Item.drop, Item.letGo, holderCopying] using
            Move.cleared u _ e hat.1 (.flush part stage) hat.2
      · have hno : ¬ ((s.item v).proc = (s.item u).proc ∧ ((s.item v).stage = .holder ∨ (s.item v).stage = .flushing)) := by
          rintro ⟨hp, hs | hs⟩
          · exact hat ⟨hp, hs⟩
          · exact hflushing hp hs
        refine .untouched hne ?_
        cases ok
        · simp [Store.flushHolder, Store.clearHolder, stage, e, hno, hat]
        · simp [Store.flushHolder, e, hno]
    | sync ok stage =>
      have hloadu := hl.isLoad u hu (by rw [stage]; rfl)
      by_cases hp : (s.item v).proc = (s.item u).proc
      · by_cases hs : (s.item v).stage = .holder
        · have := Move.cleared (C := C) (b := (s.syncStream C u ok).buf) u _ e hp (.sync ok stage) hs
          have hload := hl.isLoad v hv (by rw [hs]; rfl)
          cases ok <;> simpa [Store.syncStream, Store.clearHolder, e, hp, hs, hload, hloadu, holderCopying, Item.drop,
            Item.letGo] using this
        · cases ok with
          | true =>
            cases hload : (s.item v).isLoad with
            | true => simpa [Store.syncStream, Store.clearHolder, e, hp, hs, hload, hloadu] using
                Move.synced u e hp stage hs hload
            | false => exact .untouched hne (by simp [Store.syncStream, Store.clearHolder, e, hs, hload, hloadu])
          | false => exact .untouched hne (by simp [Store.syncStream, Store.clearHolder, e, hs])
      · refine .untouched hne ?_
        cases ok <;> simp [Store.syncStream, Store.clearHolder, e, hp, hloadu]
    | fail stage =>
      unfold Store.failTask
      cases hm : C.taskLaunch (s.item u).proc with
      | true => exact hclear e (.fail stage hm) rfl (by simp [e, hm, Store.clearHolder])
      | false => exact .untouched hne (by simp [e, hm])
    | done stage =>
      refine .untouched hne ?_
      unfold Store.countDown
      cases hw : (s.item u).waiter <;> simp [e, hw]

theorem DumpCase.move {l : DumpLabel} (hl : Linked s) (h : DumpCase C s p l s') (hv : v < s.nItem) :
    Move C s s'.buf v (.dump p l) (s'.item v) := by
  have hfails : ∀ {x : Item}, DumpFails s p l → (s.item v).stage ≠ .dumpGot →
      x = (if (s.item v).proc = p ∧ (((s.item v).stage = .dumpGot ∨ (s.item v).stage = .copied) ∨ (s.item v).stage = .synced) then
        (s.item v).drop else s.item v) → Move C s s'.buf v (.dump p l) x := by
    intro x hwhy hgot hx
    rw [hx]
    split
    · next hat =>
      obtain ⟨hproc, (hs | hs) | hs⟩ := hat
      · exact absurd hs hgot
      · exact .giveUp p l hproc hwhy (.inl hs)
      · exact .giveUp p l hproc hwhy (.inr hs)
    · exact .same _ nofun
  -- outside `got` the dump dispatcher has no handle in its hand
  have hnone : (∀ t j, (s.proc p).dumper ≠ .got t j v) → (s.item v).proc = p → (s.item v).stage ≠ .dumpGot := by
    rintro hpc rfl hs
    exact hpc _ _ (hl.dumpGotOnly v hv hs)
  have hpcs : ∀ {pc}, (s.proc p).dumper = pc → (∀ t j, pc ≠ .got t j v) → (s.item v).proc = p → (s.item v).stage ≠ .dumpGot :=
    fun hpc hne => hnone fun t j e => hne t j (hpc.symm.trans e)
  cases h with
  | start ok t rest pc first => exact .same _ nofun
  | get t j blockId shardIdx i b owner pc shard spec => exact .untouched nofun (by simp [Nat.ne_of_lt hv])
  | skip t j u ok part pc shared =>
    obtain ⟨hu, hproc, rfl, rfl, hstage⟩ := hl.dumpGot p t j u pc
    by_cases e : v = u
    · subst e
      simpa using Move.skipDump p ok part pc hproc hstage shared
    · exact .untouched nofun (by simp [e])
  | found t j u ok part pc owner ready =>
    obtain ⟨hu, hproc, rfl, rfl, hstage⟩ := hl.dumpGot p t j u pc
    by_cases e : v = u
    · subst e
      simpa using Move.found p ok part pc hproc hstage owner ready
    · exact .untouched nofun (by simp [e])
  | copy t j u part pc owner unready =>
    obtain ⟨hu, hproc, rfl, rfl, hstage⟩ := hl.dumpGot p t j u pc
    by_cases e : v = u
    · subst e
      simpa using Move.copyDump p part pc hproc hstage owner unready
    · exact .untouched nofun (by simp [e])
  | refuse t j u part pc owner unready =>
    have hwhy := DumpFails.take t j u part pc owner unready
    obtain ⟨hu, hproc, rfl, rfl, hstage⟩ := hl.dumpGot p t j u pc
    by_cases e : v = u
    · subst e
      simpa [Store.dropDump, hproc, hstage, Item.drop, Item.letGo] using Move.refuseDump p part pc hproc hstage owner unready
    · by_cases hp : (s.item v).proc = p
      · refine hfails hwhy (hpcs pc (fun t j e' => e ?_) hp) (by simp [Store.dropDump, e])
        injection e' with _ _ e'
        exact e'.symm
      · exact .untouched nofun (by simp [Store.dropDump, e, hp])
  | finish t pc => exact .same _ nofun
  | sync t ok pc =>
    cases ok with
    | true =>
      by_cases hat : (s.item v).proc = p ∧ (s.item v).isLoad = false
      · simpa [Store.syncDump, hat.1, hat.2] using Move.syncDump p t pc hat.1 hat.2
      · refine .untouched nofun ?_
        simp only [Store.syncDump, if_true, setDumper_item, each_item]
        exact if_neg hat
    | false =>
      by_cases hp : (s.item v).proc = p
      · exact hfails (.sync t pc) (hpcs pc nofun hp) (by simp [Store.syncDump, Store.dropDump])
      · exact .untouched nofun (by simp [Store.syncDump, Store.dropDump, hp])
  | mark t u pc synced => exact .same _ nofun
  | submit t ok pc marked =>
    cases ok with
    | true =>
      by_cases hat : (s.item v).proc = p ∧ (s.item v).stage = .synced
      · simpa [Store.submitDump, hat.1, hat.2] using
          Move.submitDump p t pc hat.1 hat.2 (marked v hv ⟨hv, hat.1, hat.2⟩)
      · refine .untouched nofun ?_
        simp only [Store.submitDump, if_true, setProc_item, each_item]
        exact if_neg hat
    | false =>
      by_cases hp : (s.item v).proc = p
      · exact hfails (.submit t pc marked) (hpcs pc nofun hp) (by simp [Store.submitDump, Store.dropDump])
      · exact .untouched nofun (by simp [Store.submitDump, Store.dropDump, hp])
  | fail t pc => exact .same _ nofun
  | done t pc => exact .same _ nofun
  | waited t rest ok first ended =>
    by_cases hat : (s.item v).proc = p ∧ (s.item v).stage = .dumping ∧ (s.item v).task = t
    · have hover := fun hok => ended hok v hv ⟨⟨hv, hat.1, hat.2.1⟩, hat.2.2⟩
      simpa [hat.1, hat.2.1, hat.2.2] using Move.waitedDump (C := C) (b := s.buf) p t rest ok first hat.1 hat.2.1 hat.2.2 hover
    · refine .untouched nofun ?_
      simp only [setProc_item, each_item]
      exact if_neg hat

theorem StoreCase.move {l : StoreLabel Block} (hl : Linked s) (h : StoreCase C s l s') (hv : v < s.nItem) :
    Move C s s'.buf v l (s'.item v) := by
  cases h with
  | submit p isLoad desc full => exact .same _ (by intro h; cases h)
  | wait p l w step => exact .same _ (by intro h; cases h)
  | dispatch p l _ step => exact step.move hl hv
  | transfer u l _ lt step => exact step.move hl lt hv
  | dump p l _ step => exact step.move hl hv
  | loadOver u lt isLoad running =>
    by_cases e : v = u
    · subst e
      simpa using Move.loadOver isLoad running
    · exact .untouched (by intro h; cases h) (by simp [e])
  | dumpOver p t =>
    by_cases hat : (s.item v).proc = p ∧ (s.item v).task = t ∧ (s.item v).isLoad = false ∧ (s.item v).backend = .running
    · simpa [hat.1, hat.2.1, hat.2.2.1, hat.2.2.2] using Move.dumpOver (C := C) (b := s.buf) p t hat.1 hat.2.1 hat.2.2.1 hat.2.2.2
    · refine .untouched (by intro h; cases h) ?_
      simp only [each_item]
      exact if_neg hat
  | release u lt dropping =>
    by_cases e : v = u
    · subst e
      simpa [Store.release] using Move.release dropping
    · exact .untouched (by intro h; cases h) (by simp [Store.release, e])

end Move

/-! ## The processes -/

/-- A `Get` of a dispatcher. -/
inductive Gets (C : Config Block) (s s' : Store Block) : StoreLabel Block → Prop
  | load (p t j : Nat) (blockId : Block) (shardIdx i : Nat) (owner : Bool) (pc : (s.proc p).dispatcher = .loop t j)
      (shard : ((s.proc p).task t).desc[j]? = some (blockId, shardIdx))
      (spec : GetSpec s.buf s'.buf ⟨blockId, shardIdx, true, true⟩ i owner) (item : s'.item s.nItem = .start p t j i owner true)
      (got : (s'.proc p).dispatcher = .got t j s.nItem) : Gets C s s' (.dispatch p (.get i))
  | dump (p t j : Nat) (blockId : Block) (shardIdx i : Nat) (owner : Bool) (pc : (s.proc p).dumper = .loop t j)
      (shard : ((s.proc p).task t).desc[j]? = some (blockId, shardIdx))
      (spec : GetSpec s.buf s'.buf ⟨blockId, shardIdx, false, false⟩ i owner)
      (item : s'.item s.nItem = .start p t j i owner false)
      (got : (s'.proc p).dumper = .got t j s.nItem) : Gets C s s' (.dump p (.get i))

section Procs

variable {C : Config Block} {s s' : Store Block} {p q u v : Nat}

theorem StoreCase.old_or_new {l : StoreLabel Block} (h : StoreCase C s l s') (hv : v < s'.nItem) :
    v < s.nItem ∨ v = s.nItem ∧ Gets C s s' l := by
  have hkept : Kept s s' → v < s.nItem := fun hk => hk.nItem ▸ hv
  by_cases hlt : v < s.nItem
  · exact .inl hlt
  refine .inr ?_
  cases h with
  | submit p isLoad desc full => exact absurd hv hlt
  | wait p l w step => exact absurd hv hlt
  | dispatch p l _ step =>
    cases step with
    | get t j blockId shardIdx i b owner pc shard spec =>
      have hn : v < s.nItem + 1 := hv
      exact ⟨by omega, .load p t j blockId shardIdx i owner pc shard spec (by simp) (by simp)⟩
    | enqueue t j u ok backend pc submitted =>
      refine absurd hv ?_
      unfold Store.enqueue
      simp only
      split <;> exact hlt
    | _ => exact absurd hv hlt
  | transfer u l _ lt step => exact absurd (hkept step.kept) hlt
  | dump p l _ step =>
    cases step with
    | get t j blockId shardIdx i b owner pc shard spec =>
      have hn : v < s.nItem + 1 := hv
      exact ⟨by omega, .dump p t j blockId shardIdx i owner pc shard spec (by simp) (by simp)⟩
    | sync t ok pc => cases ok <;> exact absurd hv hlt
    | submit t ok pc marked => cases ok <;> exact absurd hv hlt
    | _ => exact absurd hv hlt
  | loadOver u lt isLoad running => exact absurd hv hlt
  | dumpOver p t => exact absurd hv hlt
  | release u lt dropping => exact absurd hv hlt

theorem StoreCase.mover_lt {l : StoreLabel Block} (h : StoreCase C s l s') : ∀ u, l.mover = some u → u < s.nItem := by
  intro u hu
  cases h with
  | transfer w l _ lt step =>
    obtain rfl := Option.some.inj hu
    exact lt
  | _ => cases hu

/-- A transfer thread writes nothing of a process but its wrapper. -/
theorem TransferCase.proc_eq {l : TransferLabel} (h : TransferCase C s u l s') (q : Nat) :
    s'.proc q = { s.proc q with wrapper := (s'.proc q).wrapper } := by
  cases h with
  | wait ok stage ended => cases ok <;> rfl
  | flush ok part stage => cases ok <;> rfl
  | sync ok stage => cases ok <;> rfl
  | fail stage =>
    unfold Store.failTask
    simp only [setStage_proc, setWrapper_proc]
    split
    · next e => subst e; split <;> rfl
    · split <;> rfl
  | done stage =>
    unfold Store.countDown
    simp only [setItem_proc]
    split
    · simp only [setWrapper_proc]
      split
      · next e => subst e; rfl
      · rfl
    · rfl
  | _ => rfl

theorem DispatchCase.proc_ne {l : DispatchLabel} (h : DispatchCase C s p l s') (hq : q ≠ p) : s'.proc q = s.proc q := by
  cases h with
  | enqueue t j u ok backend pc submitted =>
    unfold Store.enqueue
    simp only
    split <;> simp [hq]
  | push t u pc collected first => simp [Store.pushItem, hq]
  | _ => simp [hq]

/-- A load dispatcher leaves alone what is the dump queue's. -/
theorem DispatchCase.proc_eq {l : DispatchLabel} (h : DispatchCase C s p l s') :
    s'.proc p = { s.proc p with
      wrapper := (s'.proc p).wrapper
      waiting := (s'.proc p).waiting
      dispatcher := (s'.proc p).dispatcher
      tickets := (s'.proc p).tickets } := by
  cases h with
  | enqueue t j u ok backend pc submitted =>
    unfold Store.enqueue
    simp only
    split <;> simp
  | push t u pc collected first => simp [Store.pushItem]
  | _ => simp

theorem DumpCase.proc_ne {l : DumpLabel} (h : DumpCase C s p l s') (hq : q ≠ p) : s'.proc q = s.proc q := by
  cases h with
  | refuse t j u part pc owner unready => simp [Store.dropDump, hq]
  | sync t ok pc => cases ok <;> simp [Store.syncDump, Store.dropDump, hq]
  | submit t ok pc marked => cases ok <;> simp [Store.submitDump, Store.dropDump, hq]
  | _ => simp [hq]

/-- A dump queue leaves alone what is the load queue's. -/
theorem DumpCase.proc_eq {l : DumpLabel} (h : DumpCase C s p l s') :
    s'.proc p = { s.proc p with
      wrapper := (s'.proc p).wrapper
      dumpWaiting := (s'.proc p).dumpWaiting
      dumper := (s'.proc p).dumper
      dumping := (s'.proc p).dumping } := by
  cases h with
  | refuse t j u part pc owner unready => simp [Store.dropDump]
  | sync t ok pc => cases ok <;> simp [Store.syncDump, Store.dropDump]
  | submit t ok pc marked => cases ok <;> simp [Store.submitDump, Store.dropDump]
  | _ => simp

theorem StoreCase.dispatcher_eq {l : StoreLabel Block} (h : StoreCase C s l s') (hne : ∀ dl, l ≠ .dispatch q dl) :
    (s'.proc q).dispatcher = (s.proc q).dispatcher := by
  cases h with
  | submit p isLoad desc full =>
    simp only [Store.submit, setProc_proc]
    split
    · next e => rw [e]
    · rfl
  | wait p l w step =>
    simp only [setWrapper_proc]
    split
    · next e => rw [e]
    · rfl
  | dispatch p l _ step => rw [step.proc_ne fun e => hne l (e ▸ rfl)]
  | transfer u l _ lt step => rw [step.proc_eq]
  | dump p l _ step =>
    by_cases e : q = p
    · rw [e, step.proc_eq]
    · rw [step.proc_ne e]
  | loadOver u lt isLoad running => rfl
  | dumpOver p t => rfl
  | release u lt dropping => rfl

theorem StoreCase.dumper_eq {l : StoreLabel Block} (h : StoreCase C s l s') (hne : ∀ dl, l ≠ .dump q dl) :
    (s'.proc q).dumper = (s.proc q).dumper := by
  cases h with
  | submit p isLoad desc full =>
    simp only [Store.submit, setProc_proc]
    split
    · next e => rw [e]
    · rfl
  | wait p l w step =>
    simp only [setWrapper_proc]
    split
    · next e => rw [e]
    · rfl
  | dispatch p l _ step =>
    by_cases e : q = p
    · rw [e, step.proc_eq]
    · rw [step.proc_ne e]
  | transfer u l _ lt step => rw [step.proc_eq]
  | dump p l _ step => rw [step.proc_ne fun e => hne l (e ▸ rfl)]
  | loadOver u lt isLoad running => rfl
  | dumpOver p t => rfl
  | release u lt dropping => rfl

end Procs

/-! ## Who has what, in every state -/

section Linked

variable {C : Config Block} {s s' : Store Block} {b : Buf Block} {l : StoreLabel Block} {p q u v : Nat} {x : Item}

/-- An item stays on its side: no step takes a load's item to a dump's stage, or back. -/
theorem Move.side (h : Move C s b v l x) :
    (x.stage.ofLoad = true → (s.item v).stage.ofLoad = true) ∧ (x.stage.ofDump = true → (s.item v).stage.ofDump = true) := by
  cases h with
  | waited ok stage ended settled => cases ok <;> simp [stage, Stage.ofLoad, Stage.ofDump]
  | look stage' stage backend outcome =>
    obtain ⟨-, rfl⟩ | ⟨-, rfl⟩ | ⟨-, rfl⟩ := outcome <;> simp [stage, Stage.ofLoad, Stage.ofDump]
  | check stage => cases s.failed v <;> simp [stage, Stage.ofLoad, Stage.ofDump]
  | hold stage mode => cases (s.item v).launchBoundary <;> simp [stage, Stage.ofLoad, Stage.ofDump]
  | copy ok part stage mode => cases ok <;> cases (s.item v).waiter <;> simp [stage, Stage.ofLoad, Stage.ofDump]
  | sync ok h stage handle => cases ok <;> simp [stage, Stage.ofLoad, Stage.ofDump]
  | push p t pc collected first => simp [Store.pushItem, collected.2.2, Stage.ofLoad, Stage.ofDump]
  | syncDump p t pc proc isLoad =>
    simp only
    split
    · next e => simp [e, Stage.ofLoad, Stage.ofDump]
    · exact ⟨id, id⟩
  | same l other => exact ⟨id, id⟩
  | flushed | synced | loadOver | release | dumpOver => exact ⟨id, id⟩
  | _ => simp_all [Stage.ofLoad, Stage.ofDump, Item.drop]

/-- What the dispatcher has stays with it until it moves. -/
theorem Move.dispatching (h : Move C s b v l x) (hl : ∀ dl, l ≠ .dispatch (s.item v).proc dl) {st : Stage}
    (hst : st = .got ∨ st = .collected) : x.stage = st ↔ (s.item v).stage = st := by
  cases h with
  | waited ok stage ended settled => cases ok <;> rcases hst with rfl | rfl <;> simp [stage]
  | look stage' stage backend outcome =>
    obtain ⟨-, rfl⟩ | ⟨-, rfl⟩ | ⟨-, rfl⟩ := outcome <;> rcases hst with rfl | rfl <;> simp [stage]
  | check stage => cases s.failed v <;> rcases hst with rfl | rfl <;> simp [stage]
  | hold stage mode => cases (s.item v).launchBoundary <;> rcases hst with rfl | rfl <;> simp [stage]
  | copy ok part stage mode => cases ok <;> cases (s.item v).waiter <;> rcases hst with rfl | rfl <;> simp [stage]
  | sync ok h stage handle => cases ok <;> rcases hst with rfl | rfl <;> simp [stage]
  | collect p ok backend pc proc => subst proc; exact absurd rfl (hl _)
  | queue p ok backend pc proc => subst proc; exact absurd rfl (hl _)
  | push p t pc collected => exact absurd (congrArg (StoreLabel.dispatch · _) collected.2.1.symm) (hl _)
  | abandon p t pc proc => subst proc; exact absurd rfl (hl _)
  | syncDump p t pc proc isLoad =>
    simp only
    split
    · next e => rcases hst with rfl | rfl <;> simp [e]
    · rfl
  | giveUp p l proc why stage => rcases stage with stage | stage <;> rcases hst with rfl | rfl <;> simp [stage, Item.drop]
  | same | flushed | synced | loadOver | release | dumpOver => rfl
  | _ => rcases hst with rfl | rfl <;> simp_all [Item.drop]

/-- So does what the dump dispatcher and the dumper have. -/
theorem Move.ofDump (h : Move C s b v l x) (hl : ∀ dl, l ≠ .dump (s.item v).proc dl) {st : Stage} (hst : st.ofDump = true) :
    x.stage = st ↔ (s.item v).stage = st := by
  have hside : ∀ st', st'.ofDump = false → st' ≠ st := by
    intro st' h' e
    subst e
    rw [hst] at h'
    cases h'
  have hboth : ∀ st' st'', st'.ofDump = false → st''.ofDump = false → (st' = st ↔ st'' = st) := fun st' st'' h' h'' =>
    ⟨fun e => absurd e (hside _ h'), fun e => absurd e (hside _ h'')⟩
  cases h with
  | waited ok stage ended settled => cases ok <;> exact hboth _ _ rfl (stage ▸ rfl)
  | look stage' stage backend outcome => obtain ⟨-, rfl⟩ | ⟨-, rfl⟩ | ⟨-, rfl⟩ := outcome <;> exact hboth _ _ rfl (stage ▸ rfl)
  | check stage => cases s.failed v <;> exact hboth _ _ rfl (stage ▸ rfl)
  | hold stage mode => cases (s.item v).launchBoundary <;> exact hboth _ _ rfl (stage ▸ rfl)
  | copy ok part stage mode => cases ok <;> cases (s.item v).waiter <;> exact hboth _ _ rfl (stage ▸ rfl)
  | sync ok h stage handle => cases ok <;> exact hboth _ _ rfl (stage ▸ rfl)
  | push p t pc collected =>
    refine hboth _ _ ?_ (collected.2.2 ▸ rfl)
    simp [Store.pushItem, Stage.ofDump]
  | abandon p t pc proc stage => rcases stage with stage | stage <;> exact hboth _ _ rfl (stage ▸ rfl)
  | collect p ok backend pc proc stage => exact hboth _ _ rfl (stage ▸ rfl)
  | queue p ok backend pc proc stage => exact hboth _ _ rfl (stage ▸ rfl)
  | skip stage | skipLast stage | take stage | flush part stage | flushFails part stage | fail stage | done stage =>
    exact hboth _ _ rfl (stage ▸ rfl)
  | cleared u l other proc why stage => exact hboth _ _ rfl (stage ▸ rfl)
  | same | flushed | synced | loadOver | release | dumpOver => rfl
  | skipDump p ok part pc proc => subst proc; exact absurd rfl (hl _)
  | found p ok part pc proc => subst proc; exact absurd rfl (hl _)
  | copyDump p part pc proc => subst proc; exact absurd rfl (hl _)
  | refuseDump p part pc proc => subst proc; exact absurd rfl (hl _)
  | giveUp p l proc => subst proc; exact absurd rfl (hl _)
  | syncDump p t pc proc => subst proc; exact absurd rfl (hl _)
  | submitDump p t pc proc => subst proc; exact absurd rfl (hl _)
  | waitedDump p t rest ok first proc => subst proc; exact absurd rfl (hl _)

/-- Only an idle transfer thread takes a new item. -/
theorem Move.transferring (h : Move C s b v l x) (hx : x.stage.transferring = true) :
    (s.item v).stage.transferring = true ∨ l = .transfer v .take ∧ s.Next v := by
  cases h with
  | skipLast stage next => exact .inr ⟨rfl, next⟩
  | take stage next => exact .inr ⟨rfl, next⟩
  | push p t pc collected => simp [Store.pushItem, Stage.transferring] at hx
  | syncDump p t pc proc isLoad =>
    simp only at hx
    split at hx
    · cases hx
    · exact .inl hx
  | _ => simp_all [Stage.transferring, Item.drop]

theorem Linked.init (h : s.IsInit) : Linked s := by
  have hn : ∀ u, ¬ u < s.nItem := fun u hu => by rw [h.nItem] at hu; omega
  refine ⟨fun p t j u hpc => ?_, fun u hu => absurd hu (hn u), fun p t j u hpc => ?_, fun u hu => absurd hu (hn u),
    fun u _ hu => absurd hu (hn u), fun u hu => absurd hu (hn u), fun u hu => absurd hu (hn u)⟩
  · rw [h.dispatcher] at hpc
    cases hpc
  · rw [h.dumper] at hpc
    cases hpc

/-- The dispatcher after its step, and the handle it had in its hand. -/
theorem DispatchCase.hand {dl : DispatchLabel} (h : DispatchCase C s p dl s') :
    (∃ i t j, dl = .get i ∧ (s'.proc p).dispatcher = .got t j s.nItem ∧ ∀ t' j' w, (s.proc p).dispatcher ≠ .got t' j' w) ∨
      (∀ t j w, (s'.proc p).dispatcher ≠ .got t j w) := by
  cases h with
  | start t rest pc first =>
    refine .inr fun t' j' w => ?_
    simp only [setProc_proc, if_true]
    split <;> nofun
  | get t j blockId shardIdx i b owner pc shard spec =>
    exact .inl ⟨i, t, j, rfl, by simp, fun t' j' w e => by rw [pc] at e; cases e⟩
  | enqueue t j u ok backend pc submitted =>
    refine .inr fun t' j' w => ?_
    unfold Store.enqueue
    simp only
    split <;> simp
  | finish t pc =>
    refine .inr fun t' j' w => ?_
    simp only [setDispatcher_proc, if_true]
    split <;> nofun
  | push t u pc collected first =>
    refine .inr fun t' j' w => ?_
    simp [Store.pushItem, pc]
  | _ => simp

theorem DumpCase.hand {dl : DumpLabel} (h : DumpCase C s p dl s') :
    (∃ i t j, dl = .get i ∧ (s'.proc p).dumper = .got t j s.nItem ∧ ∀ t' j' w, (s.proc p).dumper ≠ .got t' j' w) ∨
      (∃ ok, dl = .waited ok) ∧ (s'.proc p).dumper = (s.proc p).dumper ∨ (∀ t j w, (s'.proc p).dumper ≠ .got t j w) := by
  cases h with
  | start ok t rest pc first =>
    refine .inr (.inr fun t' j' w => ?_)
    simp only [setProc_proc, if_true]
    cases ok <;> cases (s.proc p).wrapper.failureSet t <;> nofun
  | get t j blockId shardIdx i b owner pc shard spec =>
    exact .inl ⟨i, t, j, rfl, by simp, fun t' j' w e => by rw [pc] at e; cases e⟩
  | refuse t j u part pc owner unready => simp [Store.dropDump]
  | finish t pc =>
    refine .inr (.inr fun t' j' w => ?_)
    simp only [setDumper_proc, if_true]
    split <;> nofun
  | sync t ok pc => cases ok <;> simp [Store.syncDump]
  | mark t u pc synced => simp [pc]
  | submit t ok pc marked => cases ok <;> simp [Store.submitDump]
  | waited t rest ok first ended => exact .inr (.inl ⟨⟨ok, rfl⟩, by simp⟩)
  | _ => simp

/-- An item that is still at `got` after its dispatcher's step has been refused by the backend. -/
theorem DispatchCase.gotOnly {dl : DispatchLabel} (hl : Linked s) (h : DispatchCase C s (s.item u).proc dl s') (hu : u < s.nItem)
    (hg : (s'.item u).stage = .got) :
    (s'.proc (s.item u).proc).dispatcher = .failing (s.item u).task ∧ s'.buf.getState (s.item u).pos ≠ .loading ∨
      (s'.proc (s.item u).proc).dispatcher = .done (s.item u).task ∧
        (s.proc (s.item u).proc).dispatcher = .failing (s.item u).task ∧ (s.item u).stage = .got ∧ s'.buf = s.buf := by
  have hpcs : ∀ {pc}, (s.proc (s.item u).proc).dispatcher = pc → (s.item u).stage = .got →
      pc = .got (s.item u).task (s.item u).shard u ∨ pc = .failing (s.item u).task ∨ pc = .done (s.item u).task := by
    intro pc hpc hst
    rw [← hpc]
    exact hl.gotOnly u hu hst
  cases h with
  | start t rest pc first => obtain h | h | h := hpcs pc hg <;> cases h
  | get t j blockId shardIdx i b owner pc shard spec =>
    have hst : (s.item u).stage = .got := by simpa [Nat.ne_of_lt hu] using hg
    obtain h | h | h := hpcs pc hst <;> cases h
  | enqueue t j w ok backend pc submitted =>
    have hne : w ≠ u := by
      intro e
      subst e
      unfold Store.enqueue at hg
      simp only at hg
      split at hg <;> simp at hg
    have hst : (s.item u).stage = .got := by
      unfold Store.enqueue at hg
      simp only at hg
      split at hg <;> simpa [hne.symm] using hg
    obtain h | h | h := hpcs pc hst <;> cases h
    exact absurd rfl hne
  | refuse t j w pc owner unready =>
    obtain h | h | h := hpcs pc hg <;> cases h
    exact .inl ⟨by simp, markFailed_state s.buf _ _⟩
  | finish t pc => obtain h | h | h := hpcs pc hg <;> cases h
  | pushed t pc none => obtain h | h | h := hpcs pc hg <;> cases h
  | push t w pc collected first =>
    have hne : u ≠ w := by
      intro e
      subst e
      simp [Store.pushItem] at hg
    have hst : (s.item u).stage = .got := by simpa [Store.pushItem, hne] using hg
    obtain h | h | h := hpcs pc hst <;> cases h
  | fail t pc =>
    obtain h | h | h := hpcs pc hg <;> cases h
    exact .inr ⟨by simp, pc, hg, rfl⟩
  | done t pc =>
    have hst : (s.item u).stage = .got := by
      by_contra hne
      simp only [dropAt_item, setDispatcher_item, setWrapper_item] at hg
      split at hg
      · cases hg
      · exact hne hg
    simp [hst, Item.drop] at hg

theorem DumpCase.dumpGotOnly {dl : DumpLabel} (hl : Linked s) (h : DumpCase C s (s.item u).proc dl s') (hu : u < s.nItem)
    (hg : (s'.item u).stage = .dumpGot) :
    (s'.proc (s.item u).proc).dumper = .got (s.item u).task (s.item u).shard u := by
  have hm := h.move hl hu
  have hpcs : ∀ {pc}, (s.proc (s.item u).proc).dumper = pc → (s.item u).stage = .dumpGot →
      pc = .got (s.item u).task (s.item u).shard u := by
    rintro pc rfl hst
    exact hl.dumpGotOnly u hu hst
  have hst : (s.item u).stage = .dumpGot := by
    generalize s'.item u = x at hm hg
    cases hm with
    | syncDump t pc proc isLoad =>
      simp only at hg
      split at hg
      · cases hg
      · exact hg
    | _ => simp_all [Item.drop]
  cases h with
  | start ok t rest pc first => cases hpcs pc hst
  | get t j blockId shardIdx i b owner pc shard spec => cases hpcs pc hst
  | skip t j w ok part pc shared =>
    cases hpcs pc hst
    simp [Item.drop] at hg
  | found t j w ok part pc owner ready =>
    cases hpcs pc hst
    simp at hg
  | copy t j w part pc owner unready =>
    cases hpcs pc hst
    simp at hg
  | refuse t j w part pc owner unready =>
    cases hpcs pc hst
    simp [Store.dropDump, hst, Item.drop] at hg
  | finish t pc => cases hpcs pc hst
  | sync t ok pc => cases hpcs pc hst
  | mark t w pc synced => cases hpcs pc hst
  | submit t ok pc marked => cases hpcs pc hst
  | fail t pc => cases hpcs pc hst
  | done t pc => cases hpcs pc hst
  | waited t rest ok first ended =>
    simp only [setProc_proc, if_true]
    exact hpcs rfl hst

theorem StoreCase.linked (hl : Linked s) (h : StoreCase C s l s') : Linked s' := by
  have hfixed := fun {w} (hw : w < s.nItem) => h.kept.fixed hw
  have hle := h.kept.nItem_le
  refine ⟨fun p t j w hpc => ?_, fun w hw hg => ?_, fun p t j w hpc => ?_, fun w hw hg => ?_, fun u v hu hv hp htu htv => ?_,
    fun w hw hs => ?_, fun w hw hs => ?_⟩
  · -- the load dispatcher's hand
    by_cases hd : ∃ dl, l = .dispatch p dl
    · obtain ⟨dl, rfl⟩ := hd
      cases h with
      | dispatch _ _ _ step =>
        rcases step.hand with ⟨i, t', j', rfl, hnew, -⟩ | hno
        · cases step with
          | get t0 j0 blockId shardIdx _ b owner pc shard spec =>
            rw [hnew] at hpc
            simp only [setDispatcher_proc, if_true, DispatchPc.got.injEq, and_true] at hnew
            obtain ⟨rfl, rfl⟩ := hnew
            cases hpc
            simp [Item.start]
        · exact absurd hpc (hno t j w)
    · rw [h.dispatcher_eq fun dl e => hd ⟨dl, e⟩] at hpc
      obtain ⟨hw, rfl, rfl, rfl, hst⟩ := hl.got p t j w hpc
      have hf := hfixed hw
      refine ⟨by omega, hf.proc, hf.task, hf.shard, ((h.move hl hw).dispatching (fun dl e => hd ⟨dl, e⟩) (.inl rfl)).mpr hst⟩
  · rcases h.old_or_new hw with hw | ⟨rfl, hget⟩
    · have hf := hfixed hw
      rw [hf.proc, hf.task, hf.shard]
      by_cases hd : ∃ dl, l = .dispatch (s.item w).proc dl
      · obtain ⟨dl, rfl⟩ := hd
        cases h with
        | dispatch _ _ _ step => exact .inr ((step.gotOnly hl hw hg).imp And.left And.left)
      · have hne := fun dl e => hd ⟨dl, e⟩
        rw [h.dispatcher_eq hne]
        exact hl.gotOnly w hw (((h.move hl hw).dispatching hne (.inl rfl)).mp hg)
    · cases hget with
      | load p t j blockId shardIdx i owner pc shard spec item got =>
        rw [item]
        exact .inl got
      | dump p t j blockId shardIdx i owner pc shard spec item got =>
        rw [item] at hg
        cases hg
  · by_cases hd : ∃ dl, l = .dump p dl
    · obtain ⟨dl, rfl⟩ := hd
      cases h with
      | dump _ _ _ step =>
        rcases step.hand with ⟨i, t', j', rfl, hnew, -⟩ | ⟨⟨ok, rfl⟩, hsame⟩ | hno
        · cases step with
          | get t0 j0 blockId shardIdx _ b owner pc shard spec =>
            rw [hnew] at hpc
            simp only [setDumper_proc, if_true, DumpPc.got.injEq, and_true] at hnew
            obtain ⟨rfl, rfl⟩ := hnew
            cases hpc
            simp [Item.start]
        · rw [hsame] at hpc
          obtain ⟨hw, hp, ht, hj, hst⟩ := hl.dumpGot p t j w hpc
          cases step with
          | waited t0 rest ok first ended => simp [hw, hp, ht, hj, hst]
        · exact absurd hpc (hno t j w)
    · rw [h.dumper_eq fun dl e => hd ⟨dl, e⟩] at hpc
      obtain ⟨hw, rfl, rfl, rfl, hst⟩ := hl.dumpGot p t j w hpc
      have hf := hfixed hw
      refine ⟨by omega, hf.proc, hf.task, hf.shard, ((h.move hl hw).ofDump (fun dl e => hd ⟨dl, e⟩) rfl).mpr hst⟩
  · rcases h.old_or_new hw with hw | ⟨rfl, hget⟩
    · have hf := hfixed hw
      rw [hf.proc, hf.task, hf.shard]
      by_cases hd : ∃ dl, l = .dump (s.item w).proc dl
      · obtain ⟨dl, rfl⟩ := hd
        cases h with
        | dump _ _ _ step => exact step.dumpGotOnly hl hw hg
      · have hne := fun dl e => hd ⟨dl, e⟩
        rw [h.dumper_eq hne]
        exact hl.dumpGotOnly w hw (((h.move hl hw).ofDump hne rfl).mp hg)
    · cases hget with
      | load p t j blockId shardIdx i owner pc shard spec item got =>
        rw [item] at hg
        cases hg
      | dump p t j blockId shardIdx i owner pc shard spec item got =>
        rw [item]
        exact got
  · -- a transfer thread that has an item takes no other
    have hold : ∀ {w}, w < s'.nItem → (s'.item w).stage.transferring = true → w < s.nItem := by
      intro w hw ht
      rcases h.old_or_new hw with hw | ⟨rfl, hget⟩
      · exact hw
      · cases hget with
        | load p t j blockId shardIdx i owner pc shard spec item got =>
          rw [item] at ht
          cases ht
        | dump p t j blockId shardIdx i owner pc shard spec item got =>
          rw [item] at ht
          cases ht
    have hu := hold hu htu
    have hv := hold hv htv
    rw [(hfixed hu).proc, (hfixed hv).proc] at hp
    rcases (h.move hl hu).transferring htu with h1 | ⟨e1, hn1⟩ <;> rcases (h.move hl hv).transferring htv with h2 | ⟨e2, hn2⟩
    · exact hl.alone u v hu hv hp h1 h2
    · rw [hn2.2.2 u hu hp] at h1
      cases h1
    · rw [hn1.2.2 v hv hp.symm] at h2
      cases h2
    · rw [e1] at e2
      injection e2
  · rcases h.old_or_new hw with hw | ⟨rfl, hget⟩
    · rw [(hfixed hw).isLoad]
      exact hl.isLoad w hw ((h.move hl hw).side.1 hs)
    · cases hget with
      | load p t j blockId shardIdx i owner pc shard spec item got => rw [item]; rfl
      | dump p t j blockId shardIdx i owner pc shard spec item got =>
        rw [item] at hs
        cases hs
  · rcases h.old_or_new hw with hw | ⟨rfl, hget⟩
    · rw [(hfixed hw).isLoad]
      exact hl.isDump w hw ((h.move hl hw).side.2 hs)
    · cases hget with
      | load p t j blockId shardIdx i owner pc shard spec item got =>
        rw [item] at hs
        cases hs
      | dump p t j blockId shardIdx i owner pc shard spec item got => rw [item]; rfl

end Linked

/-! ## What clears the holder -/

section Holder

variable {C : Config Block} {s s' : Store Block} {b : Buf Block} {l : StoreLabel Block} {u v : Nat} {x : Item}

theorem TransferCase.clears {l : TransferLabel} (hl : Linked s) (hu : u < s.nItem) (hv : v < s.nItem)
    (h : TransferCase C s u l s')
    (hc : Clears C s u l) (hne : v ≠ u)
    (hproc : (s.item v).proc = (s.item u).proc) (hst : (s.item v).stage = .holder) : (s'.item v).stage = .ended := by
  cases hc with
  | take stage next failed waiter =>
    cases h with
    | skip _ _ _ w => rw [w] at waiter; cases waiter
    | skipLast => simp [Store.clearHolder, hne, hproc, hst, Item.drop]
    | take _ _ fine => rw [fine] at failed; cases failed
  | flush part stage =>
    cases h with
    | flush => simp [Store.flushHolder, Store.clearHolder, stage, hne, hproc, hst, Item.drop]
  | sync ok stage =>
    cases h with
    | sync =>
      have hloadu := hl.isLoad u hu (by rw [stage]; rfl)
      have hloadv := hl.isLoad v hv (by rw [hst]; rfl)
      cases ok <;> simp [Store.syncStream, Store.clearHolder, hloadu, hloadv, hne, hproc, hst, Item.drop]
  | fail stage mode =>
    cases h with
    | fail => simp [Store.failTask, mode, Store.clearHolder, hne, hproc, hst, Item.drop]

/-- The transfer thread leaves its synchronization with the item it has. -/
theorem Move.syncing (h : Move C s b v l x) (hst : (s.item v).stage = .syncing) : x.stage = .syncing ∨
    ∃ ok, l = .transfer v (.sync ok) := by
  cases h with
  | sync ok h stage handle => exact .inr ⟨ok, rfl⟩
  | push p t pc collected => rw [collected.2.2] at hst; cases hst
  | syncDump p t pc proc isLoad =>
    simp only
    rw [if_neg (by rw [hst]; decide)]
    exact .inl hst
  | same => exact .inl hst
  | _ => simp_all

end Holder

/-! ## The phases of a dump -/

/-- The dump dispatcher is filling the `DumpCtx` of task `t`. -/
def DumpPc.collects : DumpPc → Nat → Prop
  | .loop t _, t' => t = t'
  | .got t _ _, t' => t = t'
  | .sync t, t' => t = t'
  | _, _ => False

/-- `bufferHandles` has the handles of the task that is being dumped. -/
structure DumpPhase (s : Store Block) : Prop where
  copied : ∀ u, u < s.nItem → (s.item u).stage = .copied → (s.proc (s.item u).proc).dumper.collects (s.item u).task
  synced : ∀ u, u < s.nItem → (s.item u).stage = .synced → (s.proc (s.item u).proc).dumper = .mark (s.item u).task

section DumpPhase

variable {C : Config Block} {s s' : Store Block} {l : StoreLabel Block} {p u v : Nat}

/-- What is still in `bufferHandles` is of another process. -/
theorem dropDump_copied (h : ((s.dropDump p).item u).stage = .copied) : (s.item u).stage = .copied ∧ (s.item u).proc ≠ p := by
  simp only [Store.dropDump, dropAt_item] at h
  split at h
  · cases h
  · next hno => exact ⟨h, fun hp => hno ⟨hp, by rw [h]; rfl⟩⟩

theorem DumpCase.copied {dl : DumpLabel} (hl : Linked s) (hd : DumpPhase s) (h : DumpCase C s (s.item u).proc dl s')
    (hu : u < s.nItem)
    (hg : (s'.item u).stage = .copied) : (s'.proc (s.item u).proc).dumper.collects (s.item u).task := by
  have hcol : ∀ {pc}, (s.proc (s.item u).proc).dumper = pc → (s.item u).stage = .copied → pc.collects (s.item u).task := by
    rintro pc rfl hst
    exact hd.copied u hu hst
  cases h with
  | start ok t rest pc first => exact (hcol pc hg).elim
  | get t j blockId shardIdx i b owner pc shard spec =>
    have hst : (s.item u).stage = .copied := by simpa [Nat.ne_of_lt hu] using hg
    simpa [DumpPc.collects] using hcol pc hst
  | skip t j w ok part pc shared =>
    have hne : u ≠ w := by
      intro e
      subst e
      simp [Item.drop] at hg
    have hst : (s.item u).stage = .copied := by simpa [hne] using hg
    simpa [DumpPc.collects] using hcol pc hst
  | found t j w ok part pc owner ready =>
    by_cases e : u = w
    · subst e
      obtain ⟨-, -, ht, -⟩ := hl.dumpGot _ _ _ _ pc
      simp [DumpPc.collects, ht]
    · have hst : (s.item u).stage = .copied := by simpa [e] using hg
      simpa [DumpPc.collects] using hcol pc hst
  | copy t j w part pc owner unready =>
    by_cases e : u = w
    · subst e
      obtain ⟨-, -, ht, -⟩ := hl.dumpGot _ _ _ _ pc
      simp [DumpPc.collects, ht]
    · have hst : (s.item u).stage = .copied := by simpa [e] using hg
      simpa [DumpPc.collects] using hcol pc hst
  | refuse t j w part pc owner unready =>
    refine absurd ?_ (dropDump_copied hg).2
    rw [setItem_item]
    split
    · next e => rw [e]
    · rfl
  | finish t pc =>
    have := hcol pc hg
    simp only [DumpPc.collects] at this
    subst this
    simp [DumpPc.collects, if_pos (⟨u, hu, hu, rfl, hg⟩ : ∃ w, w < s.nItem ∧ s.At (s.item u).proc .copied w)]
  | sync t ok pc =>
    exfalso
    cases ok with
    | true =>
      simp only [Store.syncDump, if_true, setDumper_item, each_item] at hg
      split at hg
      · next hat =>
        simp only at hg
        split at hg
        · cases hg
        · next hno => exact hno hg
      · next hat => exact hat ⟨trivial, hl.isDump u hu (by rw [hg]; rfl)⟩
    | false => exact (dropDump_copied (s := s) hg).2 rfl
  | mark t w pc synced => exact (hcol pc hg).elim
  | submit t ok pc marked =>
    have hst : (s.item u).stage = .copied := by
      cases ok with
      | true =>
        simp only [Store.submitDump, if_true, setProc_item, each_item] at hg
        split at hg
        · cases hg
        · exact hg
      | false => exact (dropDump_copied (s := s) hg).1
    exact (hcol pc hst).elim
  | fail t pc => exact (hcol pc hg).elim
  | done t pc => exact (hcol pc hg).elim
  | waited t rest ok first ended =>
    have hst : (s.item u).stage = .copied := by
      simp only [setProc_item, each_item] at hg
      split at hg
      · cases hg
      · exact hg
    simpa using hcol rfl hst

theorem DumpCase.synced {dl : DumpLabel} (hl : Linked s) (hd : DumpPhase s) (h : DumpCase C s (s.item u).proc dl s')
    (hu : u < s.nItem)
    (hg : (s'.item u).stage = .synced) : (s'.proc (s.item u).proc).dumper = .mark (s.item u).task := by
  have hm := h.move hl hu
  -- either it is collected by this step's synchronization, or it has been
  have hst : (s.item u).stage = .synced ∨ (s.item u).stage = .copied ∧ dl = .sync true := by
    generalize s'.item u = x at hm hg
    cases hm with
    | syncDump t pc proc isLoad =>
      simp only at hg
      split at hg
      · next e => exact .inr ⟨e, rfl⟩
      · exact .inl hg
    | same => exact .inl hg
    | _ => simp_all [Item.drop]
  obtain hst | ⟨hst, rfl⟩ := hst
  · have hpc := hd.synced u hu hst
    cases h with
    | sync t ok pc => rw [pc] at hpc; cases hpc
    | mark t w pc synced => exact hpc
    | submit t ok pc marked =>
      exfalso
      cases ok <;> simp [Store.submitDump, Store.dropDump, hst, Item.drop] at hg
    | waited t rest ok first ended => simpa using hpc
    | _ => simp_all
  · cases h with
    | sync t ok pc =>
      have := hd.copied u hu hst
      rw [pc] at this
      simp only [DumpPc.collects] at this
      subst this
      simp [Store.syncDump]

theorem StoreCase.dumpPhase (hl : Linked s) (hd : DumpPhase s) (h : StoreCase C s l s') : DumpPhase s' := by
  have hnew : ∀ w, w < s'.nItem → (s'.item w).stage = .copied ∨ (s'.item w).stage = .synced → w < s.nItem := by
    intro w hw hst
    rcases h.old_or_new hw with hw | ⟨rfl, hget⟩
    · exact hw
    · cases hget with
      | load p t j blockId shardIdx i owner pc shard spec item got => rw [item] at hst; rcases hst with hst | hst <;> cases hst
      | dump p t j blockId shardIdx i owner pc shard spec item got => rw [item] at hst; rcases hst with hst | hst <;> cases hst
  refine ⟨fun w hw hg => ?_, fun w hw hg => ?_⟩
  · have hw := hnew w hw (.inl hg)
    rw [(h.kept.fixed hw).proc, (h.kept.fixed hw).task]
    by_cases hdl : ∃ dl, l = .dump (s.item w).proc dl
    · obtain ⟨dl, rfl⟩ := hdl
      cases h with
      | dump _ _ _ step => exact step.copied hl hd hw hg
    · have hne := fun dl e => hdl ⟨dl, e⟩
      rw [h.dumper_eq hne]
      exact hd.copied w hw (((h.move hl hw).ofDump hne rfl).mp hg)
  · have hw := hnew w hw (.inr hg)
    rw [(h.kept.fixed hw).proc, (h.kept.fixed hw).task]
    by_cases hdl : ∃ dl, l = .dump (s.item w).proc dl
    · obtain ⟨dl, rfl⟩ := hdl
      cases h with
      | dump _ _ _ step => exact step.synced hl hd hw hg
    · have hne := fun dl e => hdl ⟨dl, e⟩
      rw [h.dumper_eq hne]
      exact hd.synced w hw (((h.move hl hw).ofDump hne rfl).mp hg)

end DumpPhase

/-! ## Live handles -/

/-- Stages at which the handle may be gone. -/
def Stage.past : Stage → Bool
  | .failing | .counting | .ended => true
  | _ => false

/-- Up to there the item has its handle. -/
def Keeps (s : Store Block) : Prop := ∀ u, u < s.nItem → (s.item u).stage.past = false → (s.item u).handle = .held

theorem Move.keeps {C : Config Block} {s : Store Block} {b : Buf Block} {l : StoreLabel Block} {v : Nat} {x : Item}
    (hk : (s.item v).stage.past = false → (s.item v).handle = .held) (h : Move C s b v l x) (hx : x.stage.past = false) :
    x.handle = .held := by
  cases h with
  | collect p ok backend pc proc stage => exact hk (stage ▸ rfl)
  | queue p ok backend pc proc stage => exact hk (stage ▸ rfl)
  | push p t pc collected =>
    have := hk (collected.2.2 ▸ rfl)
    simpa [Store.pushItem] using this
  | take stage => exact hk (stage ▸ rfl)
  | waited ok stage => exact hk (stage ▸ rfl)
  | look stage' stage => exact hk (stage ▸ rfl)
  | check stage => exact hk (stage ▸ rfl)
  | hold stage => exact hk (stage ▸ rfl)
  | copy ok part stage => exact hk (stage ▸ rfl)
  | flush part stage => exact hk (stage ▸ rfl)
  | sync ok h stage handle => cases ok <;> cases hx
  | found p ok part pc proc stage => exact hk (stage ▸ rfl)
  | copyDump p part pc proc stage => exact hk (stage ▸ rfl)
  | submitDump p t pc proc stage => exact hk (stage ▸ rfl)
  | syncDump p t pc proc isLoad =>
    simp only at hx
    split at hx
    · next e => exact hk (e ▸ rfl)
    · exact hk hx
  | release dropping =>
    have := hk hx
    rw [dropping] at this
    cases this
  | same | flushed | synced | loadOver | dumpOver => exact hk hx
  | _ => cases hx

/-! ## Every reachable state -/

section Reach

variable [DecidableEq Block] {C : Config Block} {ok : Store Block → StoreLabel Block → Prop} {s : Store Block}

theorem reach_linked (h : Reach (cacheStore C) ok s) : Linked s :=
  Reach.inv (I := Linked) (fun _ hi => Linked.init hi) (fun _ _ _ hl _ hst => (storeStep_case hst).linked hl) h

theorem reach_dumpPhase (h : Reach (cacheStore C) ok s) : DumpPhase s := by
  refine Reach.inv_with (I := DumpPhase) (fun _ => reach_linked) (fun s hi => ?_)
    (fun _ _ _ hl hd _ hst => (storeStep_case hst).dumpPhase hl hd) h
  have hn : ∀ u, ¬ u < s.nItem := fun u hu => by rw [hi.nItem] at hu; omega
  exact ⟨fun u hu => absurd hu (hn u), fun u hu => absurd hu (hn u)⟩

theorem reach_keeps (h : Reach (cacheStore C) ok s) : Keeps s := by
  refine Reach.inv_with (I := Keeps) (fun _ => reach_linked) (fun s hi u hu => ?_) (fun s l s' hl hk _ hst u hu hp => ?_) h
  · rw [hi.nItem] at hu
    omega
  · have hc := storeStep_case hst
    rcases hc.old_or_new hu with hu | ⟨rfl, hget⟩
    · exact (hc.move hl hu).keeps (hk u hu) hp
    · cases hget with
      | load p t j blockId shardIdx i owner pc shard spec item got => rw [item]; rfl
      | dump p t j blockId shardIdx i owner pc shard spec item got => rw [item]; rfl

theorem reach_refInv (h : Reach (cacheStore C) ok s) : RefInv s := by
  refine Reach.inv (I := RefInv) (fun s hi i => ?_) (fun _ _ _ hr _ hst => (storeStep_case hst).kept.refInv hr) h
  rw [hi.buf.reference, hi.nItem]
  rfl

end Reach

end UnifiedCache.Cache
