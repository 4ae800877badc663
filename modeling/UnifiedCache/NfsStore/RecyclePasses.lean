/-
  UnifiedCache.NfsStore.RecyclePasses — who starts the recycler, and what its passes do
  (see `UnifiedCache.NfsStore.Recycle`).

  The flag that keeps a second thread away is set by the first one, some time after it was made. A
  `Trigger` that looks before makes another thread over the first. `StartsAlone` leaves these runs
  out: a call looks at the flag when the thread has set it, or when no thread is made or being made.

  - `counts_inv`: threads, the handle, and the calls on their way to them.
  - `thread_inv`: no request is slept through, and what a pass has found, kept and removed.
  - `pass_follows`: a request is followed by a pass, in any run that lets the thread go on.
  - `recycler_protocol`: all of it together.
  - `trigger_protocol_broken`: the second thread; a request that the destructor drops; a file
    of time 0 and files after a directory that does not open, which are left though they are older.
-/

import Mathlib.Data.Prod.Lex
import UnifiedCache.Base.Fair
import UnifiedCache.Infra.FillAndEmpty
import UnifiedCache.NfsStore.Recycle

namespace UnifiedCache.NfsStore

open UnifiedCache.Base UnifiedCache.Infra

variable {dataRoot : String} {tenth recycleNum : Nat} {s s' : State} {th th' : Recycler}

theorem recycleNumOf_bounds (tenth : Nat) : 0 < recycleNumOf tenth ∧ recycleNumOf tenth ≤ maxRecycleNum := by
  unfold recycleNumOf maxRecycleNum
  grind

/-! ## What a step does -/

/-- The steps of the recycler thread. -/
inductive Moves (dataRoot : String) (recycleNum : Nat) (s : State) (th : Recycler) : State → Recycler → Prop
  | started : th.pc = .start → Moves dataRoot recycleNum s th { s with serviceRunning := true } { th with pc := .wait }
  | slept : th.pc = .wait → s.stop = false → s.recycling = false → Moves dataRoot recycleNum s th s { th with pc := .asleep }
  | ended : th.pc = .wait → s.stop = true → Moves dataRoot recycleNum s th s { th with pc := .ended }
  | began : th.pc = .wait → s.stop = false → s.recycling = true → Moves dataRoot recycleNum s th s { th with pc := .begin }
  | opened (root : DataRoot) : th.pc = .begin →
      Moves dataRoot recycleNum s th s ⟨.scan, root, walk dataRoot root, emptyHeap recycleNum, []⟩
  | scanned : th.pc = .scan → th.left = [] → Moves dataRoot recycleNum s th s { th with pc := .remove }
  | skipped (f : DataFile) (left : List DataFile) : th.pc = .scan → th.left = f :: left → getFileTimestamp f = 0 →
      Moves dataRoot recycleNum s th s { th with left := left }
  | pushed (f : DataFile) (left : List DataFile) (heap : TopNHeap BlockInfo) : th.pc = .scan → th.left = f :: left →
      getFileTimestamp f ≠ 0 → th.earliestHeap.push cmpTimestamp ⟨f.path, getFileTimestamp f⟩ = some heap →
      Moves dataRoot recycleNum s th s { th with left := left, earliestHeap := heap }
  | emptied : th.pc = .remove → th.earliestHeap.size = 0 → Moves dataRoot recycleNum s th s { th with pc := .clear }
  | popped (heap : TopNHeap BlockInfo) : th.pc = .remove → th.earliestHeap.size ≠ 0 →
      th.earliestHeap.pop cmpTimestamp = some heap →
      Moves dataRoot recycleNum s th s { th with removed := th.removed ++ [th.earliestHeap.top], earliestHeap := heap }
  | cleared : th.pc = .clear →
      Moves dataRoot recycleNum s th { s with recycling := false, passes := s.passes ++ [⟨th.root, th.removed⟩] }
      { th with pc := .wait }
  | woke : th.pc = .asleep → Moves dataRoot recycleNum s th s { th with pc := .wait }

theorem recyclerStep_moves {act : Act} {s₁ : State} (h : recyclerStep dataRoot recycleNum s th act = some (s₁, th')) :
    Moves dataRoot recycleNum s th s₁ th' := by
  cases act with
  | open_ root =>
    simp only [recyclerStep, Option.ite_none_right_eq_some, Option.some.injEq, Prod.mk.injEq] at h
    obtain ⟨hpc, rfl, rfl⟩ := h
    exact .opened root hpc
  | wake =>
    simp only [recyclerStep, Option.ite_none_right_eq_some, Option.some.injEq, Prod.mk.injEq] at h
    obtain ⟨hpc, rfl, rfl⟩ := h
    exact .woke hpc
  | run =>
    obtain ⟨pc, root, left, heap, removed⟩ := th
    cases pc with
    | start =>
      obtain ⟨rfl, rfl⟩ := Prod.mk.inj (Option.some.inj h)
      exact .started rfl
    | wait =>
      simp only [recyclerStep] at h
      cases hstop : s.stop with
      | true =>
        simp only [hstop, Bool.true_or, Bool.not_true, Bool.false_eq_true, if_false, if_true, Option.some.injEq,
          Prod.mk.injEq] at h
        obtain ⟨rfl, rfl⟩ := h
        exact .ended rfl hstop
      | false =>
        cases hrecycling : s.recycling with
        | true =>
          simp only [hstop, hrecycling, Bool.or_true, Bool.not_true, Bool.false_eq_true, if_false, Option.some.injEq,
            Prod.mk.injEq] at h
          obtain ⟨rfl, rfl⟩ := h
          exact .began rfl hstop hrecycling
        | false =>
          simp only [hstop, hrecycling, Bool.or_false, Bool.not_false, if_true, Option.some.injEq, Prod.mk.injEq] at h
          obtain ⟨rfl, rfl⟩ := h
          exact .slept rfl hstop hrecycling
    | scan =>
      cases left with
      | nil =>
        obtain ⟨rfl, rfl⟩ := Prod.mk.inj (Option.some.inj h)
        exact .scanned rfl rfl
      | cons f left =>
        simp only [recyclerStep] at h
        by_cases hzero : getFileTimestamp f = 0
        · rw [if_pos hzero] at h
          obtain ⟨rfl, rfl⟩ := Prod.mk.inj (Option.some.inj h)
          exact .skipped f left rfl rfl hzero
        · rw [if_neg hzero] at h
          obtain ⟨heap', hpush, heq⟩ := Option.map_eq_some_iff.mp h
          obtain ⟨rfl, rfl⟩ := Prod.mk.inj heq
          exact .pushed f left heap' rfl rfl hzero hpush
    | remove =>
      simp only [recyclerStep] at h
      by_cases hzero : heap.size = 0
      · rw [if_pos hzero] at h
        obtain ⟨rfl, rfl⟩ := Prod.mk.inj (Option.some.inj h)
        exact .emptied rfl hzero
      · rw [if_neg hzero] at h
        obtain ⟨heap', hpop, heq⟩ := Option.map_eq_some_iff.mp h
        obtain ⟨rfl, rfl⟩ := Prod.mk.inj heq
        exact .popped heap' rfl hzero hpop
    | clear =>
      obtain ⟨rfl, rfl⟩ := Prod.mk.inj (Option.some.inj h)
      exact .cleared rfl
    | asleep | begin | ended => cases h

/-- What none of them changes. -/
theorem Moves.frame {s₁ : State} (h : Moves dataRoot recycleNum s th s₁ th') :
    s₁.calls = s.calls ∧ s₁.threads = s.threads ∧ s₁.joinable = s.joinable ∧ s₁.terminated = s.terminated ∧ s₁.stop = s.stop := by
  cases h <;> exact ⟨rfl, rfl, rfl, rfl, rfl⟩

/-- The steps of the system, before the end of the process. -/
inductive Steps (dataRoot : String) (recycleNum : Nat) (s : State) : Label → State → Prop
  | trigger : s.stop = false →
      Steps dataRoot recycleNum s .trigger { s with calls := s.calls ++ [if !s.serviceRunning then .create else .request] }
  | create (c : Nat) : s.calls[c]? = some .create →
      Steps dataRoot recycleNum s (.create c) { s with calls := s.calls.set c .assign, threads := s.threads ++ [newThread] }
  | overwrite (c : Nat) : s.calls[c]? = some .assign → s.joinable = true →
      Steps dataRoot recycleNum s (.assign c) { s with terminated := true }
  | assign (c : Nat) : s.calls[c]? = some .assign → s.joinable = false →
      Steps dataRoot recycleNum s (.assign c) { s with calls := s.calls.set c .request, joinable := true }
  | request (c : Nat) : s.calls[c]? = some .request → s.recycling = false →
      Steps dataRoot recycleNum s (.request c)
        { s with calls := s.calls.set c .done, recycling := true, threads := s.threads.map notify }
  | pending (c : Nat) : s.calls[c]? = some .request → s.recycling = true →
      Steps dataRoot recycleNum s (.request c) { s with calls := s.calls.set c .done }
  | recycler (t : Nat) (act : Act) (th th' : Recycler) (s₁ : State) : s.threads[t]? = some th →
      recyclerStep dataRoot recycleNum s th act = some (s₁, th') →
      Steps dataRoot recycleNum s (.recycler t act) { s₁ with threads := s.threads.set t th' }
  | destroy : s.stop = false → (∀ c ∈ s.calls, c = .done) →
      Steps dataRoot recycleNum s .destroy { s with stop := true, threads := s.threads.map notify }
  | join : s.stop = true → Steps dataRoot recycleNum s .join { s with joinable := false }

theorem step_steps {a : Label} (h : step dataRoot recycleNum s a = some s') : Steps dataRoot recycleNum s a s' := by
  unfold step at h
  simp only [Option.ite_none_left_eq_some] at h
  obtain ⟨-, h⟩ := h
  cases a with
  | trigger =>
    simp only [Option.ite_none_left_eq_some, Option.some.injEq] at h
    obtain ⟨hstop, rfl⟩ := h
    exact .trigger (Bool.eq_false_iff.mpr hstop)
  | create c =>
    simp only [Option.ite_none_right_eq_some, Option.some.injEq] at h
    obtain ⟨hat, rfl⟩ := h
    exact .create c hat
  | assign c =>
    simp only [Option.ite_none_right_eq_some] at h
    obtain ⟨hat, h⟩ := h
    split at h
    · obtain rfl := Option.some.inj h
      exact .overwrite c hat ‹_›
    · obtain rfl := Option.some.inj h
      exact .assign c hat (Bool.eq_false_iff.mpr ‹_›)
  | request c =>
    simp only [Option.ite_none_right_eq_some] at h
    obtain ⟨hat, h⟩ := h
    by_cases hrecycling : s.recycling = true
    · rw [if_neg (by simp [hrecycling])] at h
      obtain rfl := Option.some.inj h
      exact .pending c hat hrecycling
    · rw [if_pos (by simp [hrecycling])] at h
      obtain rfl := Option.some.inj h
      exact .request c hat (Bool.eq_false_iff.mpr hrecycling)
  | recycler t act =>
    simp only at h
    split at h
    · cases h
    · rename_i th hth
      obtain ⟨⟨s₁, th'⟩, hstep, rfl⟩ := Option.map_eq_some_iff.mp h
      rw [(recyclerStep_moves hstep).frame.2.1]
      exact .recycler t act th th' s₁ hth hstep
  | destroy =>
    simp only [Option.ite_none_right_eq_some, Option.some.injEq, Bool.and_eq_true, Bool.not_eq_true', List.all_eq_true,
      decide_eq_true_eq] at h
    obtain ⟨⟨hstop, hdone⟩, rfl⟩ := h
    exact .destroy hstop hdone
  | join =>
    simp only [Option.ite_none_right_eq_some, Option.some.injEq, Bool.and_eq_true] at h
    obtain ⟨⟨⟨hstop, _⟩, _⟩, rfl⟩ := h
    exact .join hstop

theorem count_set_add {calls : List Call} {c : Nat} {x y : Call} (h : calls[c]? = some x) (z : Call) :
    (calls.set c y).count z + (if x = z then 1 else 0) = calls.count z + (if y = z then 1 else 0) := by
  obtain ⟨hlt, rfl⟩ := List.getElem?_eq_some_iff.mp h
  have hpos : calls[c] = z → 0 < calls.count z := by
    intro e
    subst e
    exact List.count_pos_iff.mpr (List.getElem_mem hlt)
  rw [List.count_set hlt]
  grind

/-! ## Threads -/

/-- A call looks at the flag when the thread has set it, or when there is no thread and none is
    being made. -/
def StartsAlone (s : State) : Label → Prop
  | .trigger => s.serviceRunning = true ∨ (s.threads = [] ∧ Call.create ∉ s.calls)
  | _ => True

structure Counts (s : State) : Prop where
  alive : s.terminated = false
  one : s.calls.count .create + s.threads.length ≤ 1
  held : s.calls.count .assign + s.joinable.toNat ≤ s.threads.length
  asked : 0 < s.calls.count .request → 0 < s.threads.length
  running : s.serviceRunning = true → 0 < s.threads.length
  stopped : s.stop = true → ∀ c ∈ s.calls, c = .done

theorem Counts.kept {a : Label} (hc : Counts s) (hok : StartsAlone s a) (h : Steps dataRoot recycleNum s a s') : Counts s' := by
  obtain ⟨halive, hone, hheld, hasked, hrunning, hstopped⟩ := hc
  have hnotstopped : ∀ {c : Nat} {x : Call}, s.calls[c]? = some x → x ≠ .done → s.stop = false := by
    intro c x hat hne
    by_contra hstop
    exact hne (hstopped (by simpa using hstop) _ (List.mem_of_getElem? hat))
  cases h with
  | trigger hstop =>
    rcases hok with hrun | ⟨hnone, hcreate⟩
    · constructor <;> simp_all
    · have hnotrun : s.serviceRunning = false := by
        by_contra hrun
        have hlen := hrunning (by simpa using hrun)
        rw [hnone] at hlen
        exact absurd hlen (Nat.lt_irrefl 0)
      have hzero : s.calls.count .create = 0 := List.count_eq_zero.mpr hcreate
      constructor <;> simp_all
  | create c hat =>
    have h1 := count_set_add (y := .assign) hat .create
    have h2 := count_set_add (y := .assign) hat .assign
    have h3 := count_set_add (y := .assign) hat .request
    have hstop := hnotstopped hat nofun
    simp only [reduceCtorEq, if_true, if_false] at h1 h2 h3
    refine ⟨halive, ?_, ?_, ?_, ?_, ?_⟩ <;> simp only [List.length_append, List.length_singleton]
    · omega
    · omega
    · omega
    · omega
    · simp [hstop]
  | overwrite c hat hjoin =>
    -- the first thread has been given away, so no other call has one to give
    have h1 := count_set_add (y := .request) hat .assign
    simp only [hjoin, Bool.toNat_true, reduceCtorEq, if_true, if_false] at h1 hheld
    omega
  | assign c hat hjoin =>
    have h1 := count_set_add (y := .request) hat .create
    have h2 := count_set_add (y := .request) hat .assign
    have hstop := hnotstopped hat nofun
    simp only [hjoin, Bool.toNat_false, reduceCtorEq, if_true, if_false] at h1 h2 hheld
    refine ⟨halive, ?_, ?_, ?_, hrunning, ?_⟩
    · simp only
      omega
    · simp only [Bool.toNat_true]
      omega
    · intro _
      simp only
      omega
    · simp [hstop]
  | request c hat _ | pending c hat _ =>
    have h1 := count_set_add (y := .done) hat .create
    have h2 := count_set_add (y := .done) hat .assign
    have h3 := count_set_add (y := .done) hat .request
    have hstop := hnotstopped hat nofun
    simp only [reduceCtorEq, if_true, if_false] at h1 h2 h3
    refine ⟨halive, ?_, ?_, ?_, ?_, ?_⟩ <;> simp only [List.length_map]
    · omega
    · omega
    · omega
    · exact hrunning
    · simp [hstop]
  | recycler t act th th' s₁ hat hstep =>
    obtain ⟨hcalls, hthreads, hjoin, hterm, hstop⟩ := (recyclerStep_moves hstep).frame
    have hpos : 0 < s.threads.length := by
      obtain ⟨hlt, _⟩ := List.getElem?_eq_some_iff.mp hat
      omega
    refine ⟨?_, ?_, ?_, ?_, ?_, ?_⟩ <;> simp only [List.length_set, hcalls, hjoin, hterm, hstop]
    · exact halive
    · exact hone
    · exact hheld
    · exact fun _ => hpos
    · exact fun _ => hpos
    · exact hstopped
  | destroy hstop hdone =>
    refine ⟨halive, ?_, ?_, ?_, ?_, fun _ => hdone⟩ <;> simp only [List.length_map]
    · exact hone
    · exact hheld
    · exact hasked
    · exact hrunning
  | join hstop =>
    refine ⟨halive, hone, ?_, hasked, hrunning, hstopped⟩
    simp only [Bool.toNat_false]
    omega

theorem counts_inv (h : Reach (sys dataRoot tenth) StartsAlone s) : Counts s := by
  refine h.inv (I := Counts) ?_ fun s a s' hc hok hstep => hc.kept hok (step_steps hstep)
  intro s e
  subst e
  constructor <;> decide

/-! ## Passes -/

/-- What is pushed for a file. -/
def blockInfo (f : DataFile) : Option BlockInfo :=
  if getFileTimestamp f = 0 then none else some ⟨f.path, getFileTimestamp f⟩

/-- A pass removes at most `recycleNum` files, each at least as old as every file that it has found,
    has a time for and leaves. A file whose `File::Remove` fails counts as removed. -/
structure Pass.Oldest (dataRoot : String) (recycleNum : Nat) (p : Pass) : Prop where
  count : p.removed.length ≤ recycleNum
  found : ∀ r ∈ p.removed, ∃ f ∈ walk dataRoot p.root, f.path = r.path ∧ getFileTimestamp f = r.timestamp
  oldest : ∀ r ∈ p.removed, ∀ f ∈ walk dataRoot p.root, getFileTimestamp f ≠ 0 → (∀ r' ∈ p.removed, r'.path ≠ f.path) →
    r.timestamp ≤ getFileTimestamp f

instance : IsStrictWeakOrder BlockInfo (Worse cmpTimestamp) where
  irrefl a := by simp [Worse, cmpTimestamp]
  trans a b c := by
    simp only [Worse, cmpTimestamp, decide_eq_true_eq]
    omega
  incomp_trans a b c := by
    simp only [Worse, cmpTimestamp, decide_eq_true_eq]
    omega

/-- What the recycler thread knows. -/
structure ThreadInv (dataRoot : String) (recycleNum : Nat) (stop recycling : Bool) (th : Recycler) : Prop where
  asleep : th.pc = .asleep → stop = false ∧ recycling = false
  ended : th.pc = .ended → stop = true
  inPass : th.pc.inPass = true → recycling = true
  scanning : th.pc = .scan → ∃ scanned gone, walk dataRoot th.root = scanned ++ th.left ∧
    th.earliestHeap.Filled cmpTimestamp (scanned.filterMap blockInfo : List BlockInfo) gone ∧
    th.earliestHeap.capacity = recycleNum ∧ th.removed = []
  removing : th.pc = .remove → ∃ gone,
    th.earliestHeap.Emptied cmpTimestamp ((walk dataRoot th.root).filterMap blockInfo : List BlockInfo) gone th.removed ∧
    th.earliestHeap.capacity = recycleNum
  cleared : th.pc = .clear → Pass.Oldest dataRoot recycleNum ⟨th.root, th.removed⟩

/-- An empty heap has given what a pass may remove. -/
theorem oldest_of_emptied {root : DataRoot} {heap : TopNHeap BlockInfo} {removed : List BlockInfo} {gone : Multiset BlockInfo}
    (he : heap.Emptied cmpTimestamp ((walk dataRoot root).filterMap blockInfo : List BlockInfo) gone removed)
    (hcap : heap.capacity = recycleNum) (hzero : heap.size = 0) : Pass.Oldest dataRoot recycleNum ⟨root, removed⟩ := by
  obtain ⟨hparts, hcount, hworse⟩ := he.done hzero
  have hmem : ∀ r, r ∈ (walk dataRoot root).filterMap blockInfo ↔ r ∈ removed ∨ r ∈ gone := by
    intro r
    rw [← Multiset.mem_coe, hparts, Multiset.mem_add, Multiset.mem_coe]
  refine ⟨?_, fun r hr => ?_, fun r hr f hf hdated hleft => ?_⟩
  · rw [← hcap]
    exact hcount
  · obtain ⟨f, hf, hinfo⟩ := List.mem_filterMap.mp ((hmem r).mpr (.inl hr))
    simp only [blockInfo, Option.ite_none_left_eq_some, Option.some.injEq] at hinfo
    obtain ⟨_, rfl⟩ := hinfo
    exact ⟨f, hf, rfl, rfl⟩
  · have hinfo : (⟨f.path, getFileTimestamp f⟩ : BlockInfo) ∈ (walk dataRoot root).filterMap blockInfo :=
      List.mem_filterMap.mpr ⟨f, hf, if_neg hdated⟩
    rcases (hmem _).mp hinfo with hremoved | hgone
    · exact absurd rfl (hleft _ hremoved)
    · have hnot := hworse _ hgone r hr
      simpa [Worse, cmpTimestamp] using hnot

/-- The steps of a thread keep what it knows, and end no pass but as it should. -/
theorem Moves.kept {s₁ : State} (h : Moves dataRoot (recycleNumOf tenth) s th s₁ th')
    (hi : ThreadInv dataRoot (recycleNumOf tenth) s.stop s.recycling th) :
    ThreadInv dataRoot (recycleNumOf tenth) s₁.stop s₁.recycling th' ∧
      ∀ p ∈ s₁.passes, p ∈ s.passes ∨ p.Oldest dataRoot (recycleNumOf tenth) := by
  have hcap31 : recycleNumOf tenth < 2 ^ 31 := (recycleNumOf_bounds tenth).2.trans_lt (by decide)
  cases h with
  | started hpc => exact ⟨⟨nofun, nofun, nofun, nofun, nofun, nofun⟩, fun p hp => .inl hp⟩
  | slept hpc hstop hrecycling => exact ⟨⟨fun _ => ⟨hstop, hrecycling⟩, nofun, nofun, nofun, nofun, nofun⟩, fun p hp => .inl hp⟩
  | ended hpc hstop => exact ⟨⟨nofun, fun _ => hstop, nofun, nofun, nofun, nofun⟩, fun p hp => .inl hp⟩
  | began hpc hstop hrecycling => exact ⟨⟨nofun, nofun, fun _ => hrecycling, nofun, nofun, nofun⟩, fun p hp => .inl hp⟩
  | opened root hpc =>
    have hrecycling : s.recycling = true := hi.inPass (by rw [hpc]; rfl)
    refine ⟨⟨nofun, nofun, fun _ => hrecycling, fun _ => ?_, nofun, nofun⟩, fun p hp => .inl hp⟩
    exact ⟨[], 0, rfl, TopNHeap.make_filled _ _, rfl, rfl⟩
  | scanned hpc hleft =>
    have hrecycling : s.recycling = true := hi.inPass (by rw [hpc]; rfl)
    obtain ⟨seen, gone, hwalk, hfilled, hcap, hremoved⟩ := hi.scanning hpc
    rw [hleft, List.append_nil] at hwalk
    refine ⟨⟨nofun, nofun, fun _ => hrecycling, nofun, fun _ => ⟨gone, ?_, hcap⟩, nofun⟩, fun p hp => .inl hp⟩
    rw [hremoved, hwalk]
    exact hfilled.emptied
  | skipped f left hpc hleft hzero =>
    obtain ⟨seen, gone, hwalk, hfilled, hcap, hremoved⟩ := hi.scanning hpc
    refine ⟨⟨hi.asleep, hi.ended, hi.inPass, fun _ => ⟨seen ++ [f], gone, ?_, ?_, hcap, hremoved⟩, ?_, ?_⟩, fun p hp => .inl hp⟩
    · rw [List.append_assoc, List.singleton_append, ← hleft]
      exact hwalk
    · have hnone : blockInfo f = none := if_pos hzero
      rw [List.filterMap_append, List.filterMap_cons_none hnone, List.filterMap_nil, List.append_nil]
      exact hfilled
    · intro hpc'
      rw [hpc] at hpc'
      cases hpc'
    · intro hpc'
      rw [hpc] at hpc'
      cases hpc'
  | pushed f left heap hpc hleft hdated hpush =>
    obtain ⟨seen, gone, hwalk, hfilled, hcap, hremoved⟩ := hi.scanning hpc
    obtain ⟨heap', gone', hpush', hfilled', hcap'⟩ := hfilled.push (.inr (hfilled.inv.size_lt hcap hcap31)) ⟨f.path,
        getFileTimestamp f⟩
    rw [hpush] at hpush'
    obtain rfl := Option.some.inj hpush'
    refine ⟨⟨hi.asleep, hi.ended, hi.inPass, fun _ => ⟨seen ++ [f], gone', ?_, ?_, hcap'.trans hcap, hremoved⟩, ?_, ?_⟩,
      fun p hp => .inl hp⟩
    · rw [List.append_assoc, List.singleton_append, ← hleft]
      exact hwalk
    · have hsome : blockInfo f = some ⟨f.path, getFileTimestamp f⟩ := if_neg hdated
      rw [List.filterMap_append, List.filterMap_cons_some hsome, List.filterMap_nil]
      rw [← Multiset.coe_add, Multiset.coe_singleton, Multiset.add_comm, Multiset.singleton_add]
      exact hfilled'
    · intro hpc'
      rw [hpc] at hpc'
      cases hpc'
    · intro hpc'
      rw [hpc] at hpc'
      cases hpc'
  | emptied hpc hzero =>
    have hrecycling : s.recycling = true := hi.inPass (by rw [hpc]; rfl)
    obtain ⟨gone, he, hcap⟩ := hi.removing hpc
    exact ⟨⟨nofun, nofun, fun _ => hrecycling, nofun, nofun, fun _ => oldest_of_emptied he hcap hzero⟩, fun p hp => .inl hp⟩
  | popped heap hpc hsize hpop =>
    obtain ⟨gone, he, hcap⟩ := hi.removing hpc
    obtain ⟨heap', hpop', he', _, hcap'⟩ := he.pop (by omega) (he.inv.size_lt hcap hcap31).le
    rw [hpop] at hpop'
    obtain rfl := Option.some.inj hpop'
    refine ⟨⟨hi.asleep, hi.ended, hi.inPass, ?_, fun _ => ⟨gone, ?_, hcap'.trans hcap⟩, ?_⟩, fun p hp => .inl hp⟩
    · intro hpc'
      rw [hpc] at hpc'
      cases hpc'
    · rw [← Multiset.coe_add, Multiset.coe_singleton, Multiset.add_comm, Multiset.singleton_add]
      exact he'
    · intro hpc'
      rw [hpc] at hpc'
      cases hpc'
  | cleared hpc =>
    refine ⟨⟨nofun, nofun, nofun, nofun, nofun, nofun⟩, fun p hp => ?_⟩
    rcases List.mem_append.mp hp with hp | hp
    · exact .inl hp
    · rw [List.mem_singleton.mp hp]
      exact .inr (hi.cleared hpc)
  | woke hpc => exact ⟨⟨nofun, nofun, nofun, nofun, nofun, nofun⟩, fun p hp => .inl hp⟩

/-- A thread that has been notified knows no less. -/
theorem ThreadInv.notify {stop recycling stop' recycling' : Bool} (hi : ThreadInv dataRoot recycleNum stop recycling th)
    (hstop : stop = true → stop' = true) (hpass : recycling = true → recycling' = true) :
    ThreadInv dataRoot recycleNum stop' recycling' (notify th) := by
  unfold UnifiedCache.NfsStore.notify
  split
  · exact ⟨nofun, nofun, nofun, nofun, nofun, nofun⟩
  · exact ⟨fun hpc => absurd hpc ‹_›, fun hpc => hstop (hi.ended hpc), fun hin => hpass (hi.inPass hin), hi.scanning,
      hi.removing, hi.cleared⟩

structure Inv (dataRoot : String) (recycleNum : Nat) (s : State) : Prop where
  threads : ∀ th ∈ s.threads, ThreadInv dataRoot recycleNum s.stop s.recycling th
  passes : ∀ p ∈ s.passes, p.Oldest dataRoot recycleNum

/-- A thread there is is the only one. -/
theorem Counts.only (hc : Counts s) {t : Nat} (hat : s.threads[t]? = some th) : t = 0 ∧ s.threads = [th] := by
  obtain ⟨hlt, rfl⟩ := List.getElem?_eq_some_iff.mp hat
  have hone := hc.one
  have hlen : s.threads.length = 1 := by omega
  obtain ⟨th₁, hth₁⟩ := List.length_eq_one_iff.mp hlen
  obtain rfl : t = 0 := by omega
  simp only [hth₁, List.getElem_cons_zero, and_self]

theorem Inv.kept {a : Label} (hc : Counts s) (hi : Inv dataRoot (recycleNumOf tenth) s)
    (h : Steps dataRoot (recycleNumOf tenth) s a s') : Inv dataRoot (recycleNumOf tenth) s' := by
  cases h with
  | trigger | overwrite | assign | pending | join => exact ⟨hi.threads, hi.passes⟩
  | create c _ =>
    refine ⟨fun th hth => ?_, hi.passes⟩
    rcases List.mem_append.mp hth with hth | hth
    · exact hi.threads th hth
    · rw [List.mem_singleton.mp hth]
      exact ⟨nofun, nofun, nofun, nofun, nofun, nofun⟩
  | request c _ _ =>
    refine ⟨fun th hth => ?_, hi.passes⟩
    obtain ⟨th₀, hth₀, rfl⟩ := List.mem_map.mp hth
    exact (hi.threads th₀ hth₀).notify id fun _ => rfl
  | destroy _ _ =>
    refine ⟨fun th hth => ?_, hi.passes⟩
    obtain ⟨th₀, hth₀, rfl⟩ := List.mem_map.mp hth
    exact (hi.threads th₀ hth₀).notify (fun _ => rfl) id
  | recycler t act th th' s₁ hat hstep =>
    obtain ⟨rfl, hthreads⟩ := hc.only hat
    obtain ⟨hth', hpasses⟩ := (recyclerStep_moves hstep).kept (hi.threads th (List.mem_of_getElem? hat))
    refine ⟨fun x hx => ?_, fun p hp => ?_⟩
    · rw [hthreads, List.set_cons_zero] at hx
      rw [List.mem_singleton.mp hx]
      exact hth'
    · rcases hpasses p hp with hp | hp
      · exact hi.passes p hp
      · exact hp

theorem passes_inv (h : Reach (sys dataRoot tenth) StartsAlone s) : Inv dataRoot (recycleNumOf tenth) s := by
  refine h.inv_with (I := Inv dataRoot (recycleNumOf tenth)) (fun s h => counts_inv h) ?_
    fun s a s' hc hi _ hstep => hi.kept hc (step_steps hstep)
  intro s e
  subst e
  exact ⟨nofun, nofun⟩

/-! ## The files of a backend -/

/-- Everything that the walk opens opens. -/
def opens : DataRoot → Bool
  | none => false
  | some dirs => dirs.all fun dir => !visible dir.name || dir.entries.isSome

theorem walkShards_eq {dirs : List ShardDir} (h : ∀ dir ∈ dirs, visible dir.name = true → dir.entries.isSome = true) :
    walkShards dataRoot dirs =
      dirs.flatMap fun dir => if visible dir.name then shardFiles dataRoot dir.name (dir.entries.getD []) else [] := by
  induction dirs with
  | nil => rfl
  | cons dir dirs ih =>
    have hrest := ih fun d hd => h d (List.mem_cons_of_mem _ hd)
    rw [List.flatMap_cons, walkShards, hrest]
    by_cases hvisible : visible dir.name = true
    · obtain ⟨entries, hentries⟩ := Option.isSome_iff_exists.mp (h dir List.mem_cons_self hvisible)
      simp only [hvisible, if_true, hentries, Option.getD_some]
    · simp only [hvisible, Bool.false_eq_true, if_false, List.nil_append]

/-- Where everything opens the walk finds all data files. -/
theorem walk_eq_dataFiles {root : DataRoot} (h : opens root = true) : walk dataRoot root = dataFiles dataRoot root := by
  cases root with
  | none => cases h
  | some dirs =>
    refine walkShards_eq fun dir hdir hvisible => ?_
    have hopen := List.all_eq_true.mp h dir hdir
    rw [hvisible] at hopen
    exact hopen

/-! ## What a request leads to -/

def PassRunning (s : State) : Prop := ∃ th ∈ s.threads, th.pc.inPass = true

/-- The thread goes on. -/
def GoesOn : Label → Prop
  | .recycler _ .run | .recycler _ (.open_ _) => True
  | _ => False

/-- How far a thread is from the end of its pass. -/
def toGo (th : Recycler) : ℕ ×ₗ ℕ :=
  match th.pc with
  | .start => toLex (4, 0)
  | .wait => toLex (3, 0)
  | .begin => toLex (2, 0)
  | .scan => toLex (1, th.left.length)
  | .remove => toLex (0, th.earliestHeap.size + 1)
  | .clear | .asleep | .ended => toLex (0, 0)

/-- A thread that does not sleep and has not ended has a step to take. -/
theorem ThreadInv.enabled {stop recycling : Bool} (hi : ThreadInv dataRoot (recycleNumOf tenth) stop recycling th)
    (hasleep : th.pc ≠ .asleep) (hended : th.pc ≠ .ended) :
    ∃ act, act ≠ .wake ∧ ∃ x, recyclerStep dataRoot (recycleNumOf tenth) s th act = some x := by
  have hcap31 : recycleNumOf tenth < 2 ^ 31 := (recycleNumOf_bounds tenth).2.trans_lt (by decide)
  obtain ⟨pc, root, left, heap, removed⟩ := th
  cases pc with
  | start => exact ⟨.run, nofun, _, rfl⟩
  | begin => exact ⟨.open_ none, nofun, _, rfl⟩
  | clear => exact ⟨.run, nofun, _, rfl⟩
  | asleep => exact absurd rfl hasleep
  | ended => exact absurd rfl hended
  | wait =>
    refine ⟨.run, nofun, ?_⟩
    simp only [recyclerStep]
    split
    · exact ⟨_, rfl⟩
    · split <;> exact ⟨_, rfl⟩
  | scan =>
    refine ⟨.run, nofun, ?_⟩
    cases left with
    | nil => exact ⟨_, rfl⟩
    | cons f left =>
      obtain ⟨_, _, _, hfilled, hcap, _⟩ := hi.scanning rfl
      obtain ⟨heap', _, hpush, _⟩ := hfilled.push (.inr (hfilled.inv.size_lt hcap hcap31)) ⟨f.path, getFileTimestamp f⟩
      simp only [recyclerStep]
      split
      · exact ⟨_, rfl⟩
      · rw [hpush]
        exact ⟨_, rfl⟩
  | remove =>
    refine ⟨.run, nofun, ?_⟩
    simp only [recyclerStep]
    split
    · exact ⟨_, rfl⟩
    · rename_i hsize
      obtain ⟨_, he, hcap⟩ := hi.removing rfl
      obtain ⟨heap', hpop, _⟩ := he.pop (Nat.pos_of_ne_zero hsize) (he.inv.size_lt hcap hcap31).le
      rw [hpop]
      exact ⟨_, rfl⟩

/-- A step of a thread that is not to wait again brings it nearer to the end of its pass. -/
theorem Moves.nearer {s₁ : State} (h : Moves dataRoot (recycleNumOf tenth) s th s₁ th')
    (hi : ThreadInv dataRoot (recycleNumOf tenth) s.stop s.recycling th) (hasleep : th.pc ≠ .asleep) (hclear : th.pc ≠ .clear)
    (hwait : th.pc = .wait → s.stop = false ∧ s.recycling = true) : toGo th' < toGo th := by
  have hcap31 : recycleNumOf tenth < 2 ^ 31 := (recycleNumOf_bounds tenth).2.trans_lt (by decide)
  cases h with
  | started hpc | began hpc _ _ | opened _ hpc | scanned hpc _ =>
    simp only [toGo, hpc]
    exact Prod.Lex.toLex_lt_toLex.mpr (.inl (Nat.lt_succ_self _))
  | skipped f left hpc hleft _ | pushed f left _ hpc hleft _ _ =>
    simp only [toGo, hpc, hleft]
    exact Prod.Lex.toLex_lt_toLex.mpr (.inr ⟨rfl, Nat.lt_succ_self _⟩)
  | emptied hpc hzero =>
    simp only [toGo, hpc]
    exact Prod.Lex.toLex_lt_toLex.mpr (.inr ⟨rfl, Nat.succ_pos _⟩)
  | popped heap hpc hsize hpop =>
    obtain ⟨_, he, hcap⟩ := hi.removing hpc
    obtain ⟨heap', hpop', _, hless, _⟩ := he.pop (Nat.pos_of_ne_zero hsize) (he.inv.size_lt hcap hcap31).le
    rw [hpop] at hpop'
    obtain rfl := Option.some.inj hpop'
    simp only [toGo, hpc]
    exact Prod.Lex.toLex_lt_toLex.mpr (.inr ⟨rfl, Nat.succ_lt_succ hless⟩)
  | slept hpc hstop hrecycling =>
    have hbad := (hwait hpc).2
    rw [hrecycling] at hbad
    cases hbad
  | ended hpc hstop =>
    have hbad := (hwait hpc).1
    rw [hstop] at hbad
    cases hbad
  | cleared hpc => exact absurd hpc hclear
  | woke hpc => exact absurd hpc hasleep

/-- What others do leaves a thread that does not sleep as it is. -/
theorem Steps.others {a : Label} (h : Steps dataRoot recycleNum s a s') (hc : Counts s) (hthreads : s.threads = [th])
    (hasleep : th.pc ≠ .asleep) (ha : ¬ GoesOn a) :
    s'.threads = [th] ∧ s'.passes = s.passes ∧ (s.recycling = true → s'.recycling = true) := by
  have hnotify : s.threads.map notify = [th] := by
    rw [hthreads, List.map_singleton, notify, if_neg hasleep]
  cases h with
  | trigger | overwrite | assign | pending | join => exact ⟨hthreads, rfl, id⟩
  | create c hat =>
    have hone := hc.one
    have hpos : 0 < s.calls.count .create := List.count_pos_iff.mpr (List.mem_of_getElem? hat)
    rw [hthreads, List.length_singleton] at hone
    omega
  | request => exact ⟨hnotify, rfl, fun _ => rfl⟩
  | destroy => exact ⟨hnotify, rfl, id⟩
  | recycler t act th₀ th' s₁ hat hstep =>
    obtain ⟨rfl, heq⟩ := hc.only hat
    rw [hthreads] at heq
    obtain rfl := List.singleton_inj.mp heq
    cases act with
    | run | open_ _ => exact absurd trivial ha
    | wake =>
      simp only [recyclerStep, if_neg hasleep] at hstep
      cases hstep

section Runs

variable {r : Run (sys dataRoot tenth) StartsAlone}

/-- No pass runs from the request on, and the thread is not told to stop. -/
def Requested (r : Run (sys dataRoot tenth) StartsAlone) (n m : Nat) : Prop :=
  n ≤ m ∧ (∃ th, (r.state m).threads = [th] ∧ (th.pc = .start ∨ th.pc = .wait)) ∧ (r.state m).recycling = true ∧
    (r.state m).stop = false ∧ ∀ k, n ≤ k → k ≤ m → ¬ PassRunning (r.state k)

/-- The pass that begins at `b` goes on. -/
def Running (r : Run (sys dataRoot tenth) StartsAlone) (b m : Nat) : Prop :=
  b ≤ m ∧ (∃ th, (r.state m).threads = [th] ∧ th.pc.inPass = true) ∧ (r.state m).passes = (r.state b).passes

/-- How far the thread of a state is. -/
def far (s : State) : ℕ ×ₗ ℕ :=
  match s.threads with
  | th :: _ => toGo th
  | [] => toLex (0, 0)

theorem far_eq (h : s.threads = [th]) : far s = toGo th := by
  unfold far
  rw [h]

/-- A step of the only thread. -/
theorem Steps.ofThread {a : Label} (h : Steps dataRoot recycleNum s a s') (hthreads : s.threads = [th]) (ha : GoesOn a) :
    ∃ act th' s₁, recyclerStep dataRoot recycleNum s th act = some (s₁, th') ∧ s'.threads = [th'] ∧ s'.passes = s₁.passes ∧
      s'.recycling = s₁.recycling ∧ s'.stop = s₁.stop := by
  cases h with
  | recycler t act th₀ th' s₁ hat hstep =>
    rw [hthreads] at hat ⊢
    obtain ⟨hlt, rfl⟩ := List.getElem?_eq_some_iff.mp hat
    rw [List.length_singleton] at hlt
    obtain rfl : t = 0 := by omega
    exact ⟨act, th', s₁, hstep, rfl, rfl, rfl, rfl⟩
  | trigger | create | overwrite | assign | request | pending | destroy | join => exact absurd ha id

theorem enabled_at (m : Nat) (hthreads : (r.state m).threads = [th]) (hasleep : th.pc ≠ .asleep) (hended : th.pc ≠ .ended) :
    ∃ a, GoesOn a ∧ (sys dataRoot tenth).step (r.state m) a ≠ none := by
  have hi := (passes_inv (r.reach m)).threads th (by rw [hthreads]; exact List.mem_singleton_self th)
  obtain ⟨act, hact, x, hx⟩ := @ThreadInv.enabled dataRoot tenth (r.state m) th _ _ hi hasleep hended
  refine ⟨.recycler 0 act, ?_, ?_⟩
  · cases act with
    | run | open_ _ => trivial
    | wake => exact absurd rfl hact
  · have halive := (counts_inv (r.reach m)).alive
    have hat : (r.state m).threads[0]? = some th := by
      rw [hthreads]
      rfl
    simp only [sys, step, halive, Bool.false_eq_true, if_false, hat, hx, Option.map_some]
    exact nofun

theorem passRunning_iff (h : s.threads = [th]) : PassRunning s ↔ th.pc.inPass = true := by
  unfold PassRunning
  rw [h]
  simp only [List.mem_singleton, exists_eq_left]

theorem not_inPass (h : th.pc = .start ∨ th.pc = .wait) : ¬ th.pc.inPass = true := by
  rcases h with h | h <;> · rw [h]; decide

/-- No pass runs up to the next time either. -/
theorem none_running {n m : Nat} (hnone : ∀ k, n ≤ k → k ≤ m → ¬ PassRunning (r.state k))
    (hthreads : (r.state (m + 1)).threads = [th]) (hpc : th.pc = .start ∨ th.pc = .wait) :
    ∀ k, n ≤ k → k ≤ m + 1 → ¬ PassRunning (r.state k) := by
  intro k hk hkm
  by_cases hlast : k = m + 1
  · rw [hlast, passRunning_iff hthreads]
    exact not_inPass hpc
  · exact hnone k hk (by omega)

/-- A request leads to the beginning of a pass, or to the destructor's before that. -/
theorem requested_leads (hfair : r.Fair GoesOn) {n m : Nat} (h : Requested r n m) :
    ∃ b, m < b ∧ (((r.state b).stop = true ∧ ∀ k, n ≤ k → k ≤ b → ¬ PassRunning (r.state k)) ∨
      ∃ th, (r.state b).threads = [th] ∧ th.pc = .begin) := by
  refine Run.leads hfair (P := Requested r n) (fun m => far (r.state m)) ?_ ?_ ?_ h
  · intro m ⟨_, ⟨th, hthreads, hpc⟩, _⟩
    refine enabled_at m hthreads ?_ ?_ <;> · intro hpc'; rw [hpc'] at hpc; simp at hpc
  · intro m ⟨hm, ⟨th, hthreads, hpc⟩, hrecycling, hstop, hnone⟩ hnot
    have hasleep : th.pc ≠ .asleep := by
      intro hpc'
      rw [hpc'] at hpc
      simp at hpc
    rcases r.next m with ⟨_, hsame⟩ | ⟨a, hlabel, _, hstep⟩
    · have hthreads' : (r.state (m + 1)).threads = [th] := by
        rw [hsame]
        exact hthreads
      refine .inr ⟨⟨by omega, ⟨th, hthreads', hpc⟩, ?_, ?_, none_running hnone hthreads' hpc⟩, ?_⟩ <;> rw [hsame]
      · exact hrecycling
      · exact hstop
    · obtain ⟨hthreads', _, hrecycling'⟩ := (step_steps hstep).others (counts_inv (r.reach m)) hthreads hasleep (hnot a hlabel)
      have hnone' := none_running hnone hthreads' hpc
      cases hstop' : (r.state (m + 1)).stop with
      | true => exact .inl (.inl ⟨rfl, hnone'⟩)
      | false =>
        refine .inr ⟨⟨by omega, ⟨th, hthreads', hpc⟩, hrecycling' hrecycling, hstop', hnone'⟩, ?_⟩
        simp only [far_eq hthreads, far_eq hthreads']
        exact le_refl _
  · intro m a ⟨hm, ⟨th, hthreads, hpc⟩, hrecycling, hstop, hnone⟩ hlabel ha
    obtain ⟨act, th', s₁, hrec, hthreads', _, hrecycling', hstop'⟩ := (step_steps (r.taken hlabel).2).ofThread hthreads ha
    have hi := (passes_inv (r.reach m)).threads th (by rw [hthreads]; exact List.mem_singleton_self th)
    have hmoves := recyclerStep_moves hrec
    have hnear : toGo th' < toGo th := by
      refine hmoves.nearer hi ?_ ?_ fun _ => ⟨hstop, hrecycling⟩ <;> · intro hpc'; rw [hpc'] at hpc; simp at hpc
    cases hmoves with
    | started _ =>
      refine .inr ⟨⟨by omega, ⟨_, hthreads', .inr rfl⟩, ?_, ?_, none_running hnone hthreads' (.inr rfl)⟩, ?_⟩
      · rw [hrecycling']
        exact hrecycling
      · rw [hstop']
        exact hstop
      · simp only [far_eq hthreads, far_eq hthreads']
        exact hnear
    | began _ _ _ => exact .inl (.inr ⟨_, hthreads', rfl⟩)
    | slept _ _ hno =>
      rw [hrecycling] at hno
      cases hno
    | ended _ hyes =>
      rw [hstop] at hyes
      cases hyes
    | opened _ hpc' | scanned hpc' | skipped _ _ hpc' | pushed _ _ _ hpc' | emptied hpc' | popped _ hpc' | cleared hpc'
    | woke hpc' =>
      rw [hpc'] at hpc
      simp at hpc

/-- A pass that has begun ends as it should. -/
theorem running_leads (hfair : r.Fair GoesOn) {b m : Nat} (h : Running r b m) :
    ∃ e p, m < e ∧ (r.state e).passes = (r.state b).passes ++ [p] ∧ p.Oldest dataRoot (recycleNumOf tenth) := by
  have hleads : ∃ e, m < e ∧ ∃ p, (r.state e).passes = (r.state b).passes ++ [p] ∧ p.Oldest dataRoot (recycleNumOf tenth) := by
    refine Run.leads hfair (P := Running r b) (fun m => far (r.state m)) ?_ ?_ ?_ h
    · intro m ⟨_, ⟨th, hthreads, hin⟩, _⟩
      refine enabled_at m hthreads ?_ ?_ <;> · intro hpc; rw [hpc] at hin; cases hin
    · intro m ⟨hm, ⟨th, hthreads, hin⟩, hpasses⟩ hnot
      have hasleep : th.pc ≠ .asleep := by
        intro hpc
        rw [hpc] at hin
        cases hin
      rcases r.next m with ⟨_, hsame⟩ | ⟨a, hlabel, _, hstep⟩
      · rw [hsame]
        exact .inr ⟨⟨by omega, ⟨th, by rw [hsame]; exact hthreads, hin⟩, by rw [hsame]; exact hpasses⟩, le_refl _⟩
      · obtain ⟨hthreads', hpasses', _⟩ := (step_steps hstep).others (counts_inv (r.reach m)) hthreads hasleep (hnot a hlabel)
        refine .inr ⟨⟨by omega, ⟨th, hthreads', hin⟩, hpasses'.trans hpasses⟩, ?_⟩
        simp only [far_eq hthreads, far_eq hthreads']
        exact le_refl _
    · intro m a ⟨hm, ⟨th, hthreads, hin⟩, hpasses⟩ hlabel ha
      obtain ⟨act, th', s₁, hrec, hthreads', hpasses', _, _⟩ := (step_steps (r.taken hlabel).2).ofThread hthreads ha
      have hi := (passes_inv (r.reach m)).threads th (by rw [hthreads]; exact List.mem_singleton_self th)
      have hmoves := recyclerStep_moves hrec
      -- any step but the last stays in the pass
      have hgoes : th.pc ≠ .clear → s₁ = r.state m → th'.pc.inPass = true → Running r b (m + 1) ∧
          far (r.state (m + 1)) < far (r.state m) := by
        intro hclear hsame hin'
        refine ⟨⟨by omega, ⟨th', hthreads', hin'⟩, by rw [hpasses', hsame]; exact hpasses⟩, ?_⟩
        rw [far_eq hthreads, far_eq hthreads']
        refine hmoves.nearer hi ?_ hclear ?_ <;> · intro hpc; rw [hpc] at hin; cases hin
      cases hmoves with
      | cleared hpc =>
        refine .inl ⟨⟨th.root, th.removed⟩, ?_, hi.cleared hpc⟩
        rw [hpasses', ← hpasses]
      | opened _ hpc | scanned hpc | emptied hpc => exact .inr (hgoes (by rw [hpc]; nofun) rfl rfl)
      | skipped _ _ hpc | pushed _ _ _ hpc | popped _ hpc => exact .inr (hgoes (by rw [hpc]; nofun) rfl hin)
      | started hpc | slept hpc | ended hpc | began hpc | woke hpc =>
        rw [hpc] at hin
        cases hin
  obtain ⟨e, he, p, hp⟩ := hleads
  exact ⟨e, p, he, hp⟩

/-- A request that finds no pass running is followed by a pass, from its beginning to its end, unless
    the destructor comes before that beginning. -/
theorem pass_follows (hfair : r.Fair GoesOn) {n c : Nat} (hreq : r.label n = some (.request c))
    (hidle : ¬ PassRunning (r.state n)) :
    (∃ d, n < d ∧ (r.state d).stop = true ∧ ∀ k, n ≤ k → k ≤ d → ¬ PassRunning (r.state k)) ∨
    ∃ b e p th, n < b ∧ b < e ∧ (r.state b).threads = [th] ∧ th.pc = .begin ∧
      (r.state e).passes = (r.state b).passes ++ [p] ∧ p.Oldest dataRoot (recycleNumOf tenth) := by
  have hc := counts_inv (r.reach n)
  have hi := passes_inv (r.reach n)
  have hrequested : Requested r n (n + 1) := by
    have hasked : ∀ {c : Nat}, (r.state n).calls[c]? = some .request → ∃ th, (r.state n).threads = [th] ∧
        (r.state n).stop = false := by
      intro c hat
      have hpos : 0 < (r.state n).calls.count .request := List.count_pos_iff.mpr (List.mem_of_getElem? hat)
      have hsome := hc.asked hpos
      have hone := hc.one
      obtain ⟨th, hth⟩ := List.length_eq_one_iff.mp (show (r.state n).threads.length = 1 by omega)
      refine ⟨th, hth, ?_⟩
      by_contra hstop
      have hdone := hc.stopped (by simpa using hstop) _ (List.mem_of_getElem? hat)
      cases hdone
    -- the thread is at its start, waits, or sleeps with nothing asked of it
    have hwhere : ∀ {th}, (r.state n).threads = [th] → (r.state n).stop = false →
        th.pc = .start ∨ th.pc = .wait ∨ (th.pc = .asleep ∧ (r.state n).recycling = false) := by
      intro th hth hstop
      rw [passRunning_iff hth] at hidle
      have hthread := hi.threads th (by rw [hth]; exact List.mem_singleton_self th)
      cases hpc : th.pc with
      | start => exact .inl rfl
      | wait => exact .inr (.inl rfl)
      | asleep => exact .inr (.inr ⟨rfl, (hthread.asleep hpc).2⟩)
      | ended =>
        have hbad := hthread.ended hpc
        rw [hstop] at hbad
        cases hbad
      | begin | scan | remove | clear =>
        rw [hpc] at hidle
        exact absurd rfl hidle
    have hnone : ∀ k, n ≤ k → k ≤ n → ¬ PassRunning (r.state k) := by
      intro k hk hkn
      obtain rfl : k = n := by omega
      exact hidle
    have hstep : Steps dataRoot (recycleNumOf tenth) (r.state n) (.request c) (r.state (n + 1)) := step_steps (r.taken hreq).2
    generalize hs' : r.state (n + 1) = s' at hstep
    cases hstep with
    | request c hat hrecycling =>
      obtain ⟨th, hth, hstop⟩ := hasked hat
      have hpc : (notify th).pc = .start ∨ (notify th).pc = .wait := by
        unfold notify
        rcases hwhere hth hstop with hpc | hpc | ⟨hpc, _⟩ <;> rw [hpc] <;> simp [hpc]
      have hthreads' : (r.state (n + 1)).threads = [notify th] := by
        rw [hs']
        simp only [hth, List.map_singleton]
      exact ⟨by omega, ⟨_, hthreads', hpc⟩, by rw [hs'], by rw [hs']; exact hstop, none_running hnone hthreads' hpc⟩
    | pending c hat hrecycling =>
      obtain ⟨th, hth, hstop⟩ := hasked hat
      have hpc : th.pc = .start ∨ th.pc = .wait := by
        rcases hwhere hth hstop with hpc | hpc | ⟨_, hno⟩
        · exact .inl hpc
        · exact .inr hpc
        · rw [hrecycling] at hno
          cases hno
      have hthreads' : (r.state (n + 1)).threads = [th] := by
        rw [hs']
        exact hth
      exact ⟨by omega, ⟨_, hthreads', hpc⟩, by rw [hs']; exact hrecycling, by rw [hs']; exact hstop,
        none_running hnone hthreads' hpc⟩
  obtain ⟨b, hb, ⟨hstop, hnone⟩ | ⟨th, hthreads, hpc⟩⟩ := requested_leads hfair hrequested
  · exact .inl ⟨b, by omega, hstop, hnone⟩
  · have hrunning : Running r b b := ⟨le_refl b, ⟨th, hthreads, by rw [hpc]; rfl⟩, rfl⟩
    obtain ⟨e, p, he, hpasses, hp⟩ := running_leads hfair hrunning
    exact .inr ⟨b, e, p, th, by omega, he, hthreads, hpc, hpasses, hp⟩

end Runs

/-- In any run in which the calls that look at the flag do so when the thread has set it, or when
    there is no thread and none is being made: there is at most one thread, its handle is not
    overwritten, and every pass removes no more than it may, the oldest of what it has found, which
    is all files if all directories open. If the thread is let go on, a call that finds no pass
    running is followed by a whole pass, unless the destructor comes before that pass begins. -/
theorem recycler_protocol (dataRoot : String) (tenth : Nat) (r : Run (sys dataRoot tenth) StartsAlone) :
    (∀ n, (r.state n).threads.length ≤ 1 ∧ (r.state n).terminated = false ∧
      ∀ p ∈ (r.state n).passes, p.Oldest dataRoot (recycleNumOf tenth) ∧
        (opens p.root = true → ∀ f ∈ dataFiles dataRoot p.root, getFileTimestamp f ≠ 0 →
          (∀ b ∈ p.removed, b.path ≠ f.path) → ∀ b ∈ p.removed, b.timestamp ≤ getFileTimestamp f)) ∧
    (r.Fair GoesOn → ∀ n c, r.label n = some (.request c) → ¬ PassRunning (r.state n) →
      (∃ d, n < d ∧ (r.state d).stop = true ∧ ∀ k, n ≤ k → k ≤ d → ¬ PassRunning (r.state k)) ∨
      ∃ b e p th, n < b ∧ b < e ∧ (r.state b).threads = [th] ∧ th.pc = .begin ∧
        (r.state e).passes = (r.state b).passes ++ [p] ∧ p.Oldest dataRoot (recycleNumOf tenth)) := by
  refine ⟨fun n => ?_, fun hfair n c hreq hidle => pass_follows hfair hreq hidle⟩
  have hc := counts_inv (r.reach n)
  have hi := passes_inv (r.reach n)
  refine ⟨(Nat.le_add_left _ _).trans hc.one, hc.alive, fun p hp => ⟨hi.passes p hp, ?_⟩⟩
  intro hopens f hf hdated hleft b hb
  rw [← walk_eq_dataFiles hopens] at hf
  exact (hi.passes p hp).oldest b hb f hf hdated hleft

/-! ## Runs -/

def startsAlone (s : State) : Label → Bool
  | .trigger => s.serviceRunning || (s.threads.isEmpty && !s.calls.contains .create)
  | _ => true

theorem startsAlone_sound (s : State) (a : Label) (h : startsAlone s a = true) : StartsAlone s a := by
  cases a with
  | trigger => simpa [startsAlone, StartsAlone] using h
  | create | assign | request | recycler | destroy | join => trivial

/-- A first call, and its pass over a directory of two files. -/
def firstPass : List Label :=
  [.trigger, .create 0, .assign 0, .request 0, .recycler 0 .run, .recycler 0 .run,
    .recycler 0 (.open_ (some [⟨"a", some [("x.dat", some 9), ("y.dat", some 5)]⟩])), .recycler 0 .run, .recycler 0 .run,
    .recycler 0 .run, .recycler 0 .run, .recycler 0 .run, .recycler 0 .run, .recycler 0 .run]

theorem asleep_stays {a : Label} (h : s.threads.map (·.pc) = [.asleep]) (ha : GoesOn a) :
    (sys dataRoot tenth).step s a = none := by
  obtain ⟨th, hth, hpc⟩ := List.map_eq_singleton_iff.mp h
  cases a with
  | recycler t act =>
    simp only [sys, step, hth]
    split
    · rfl
    · cases t with
      | zero =>
        cases act with
        | run => simp only [List.getElem?_cons_zero, recyclerStep, hpc, Option.map_none]
        | open_ root => simp only [List.getElem?_cons_zero, recyclerStep, hpc, reduceCtorEq, if_false, Option.map_none]
        | wake => exact absurd ha id
      | succ t => rfl
  | trigger | create | assign | request | destroy | join => exact absurd ha id

/-- The older of two files is removed. -/
theorem first_pass : ∃ r : Run (sys "d" 1) StartsAlone,
    (r.state 14).passes.map (fun p => p.removed) = [[⟨"d/a/y.dat", 5⟩]] ∧ (r.state 14).threads.length ≤ 1 ∧
    ((∃ d, 3 < d ∧ (r.state d).stop = true ∧ ∀ k, 3 ≤ k → k ≤ d → ¬ PassRunning (r.state k)) ∨
      ∃ b e p th, 3 < b ∧ b < e ∧ (r.state b).threads = [th] ∧ th.pc = .begin ∧
        (r.state e).passes = (r.state b).passes ++ [p] ∧ p.Oldest "d" (recycleNumOf 1)) := by
  obtain ⟨s', hrun, hasleep, hremoved⟩ : ∃ s', replayOk startsAlone (sys "d" 1) State.initial firstPass = some s' ∧
      s'.threads.map (·.pc) = [.asleep] ∧ s'.passes.map (fun p => p.removed) = [[⟨"d/a/y.dat", 5⟩]] :=
    ⟨_, rfl, by decide, by decide⟩
  let r : Run (sys "d" 1) StartsAlone := Run.ofReplay startsAlone startsAlone_sound rfl firstPass hrun
  have hfair : r.Fair GoesOn := Run.ofReplay_fair fun a ha => asleep_stays hasleep ha
  obtain ⟨hsafe, hfollows⟩ := recycler_protocol "d" 1 r
  have hidle : ¬ PassRunning (r.state 3) := by
    have hstart : (r.state 3).threads = [newThread] := rfl
    rw [passRunning_iff hstart]
    decide
  refine ⟨r, ?_, (hsafe 14).1, hfollows hfair 3 0 rfl hidle⟩
  have hend : r.state 14 = s' := stateAt_end hrun (by decide)
  rw [hend]
  exact hremoved

/-- A second call before the thread has set the flag makes a second thread over the first, and the
    process ends. A request is dropped by the destructor. A file of time 0 is left, and so are the
    files after a directory that does not open. -/
theorem trigger_protocol_broken :
    (∃ s, Reach (sys "d" 1) Any s ∧ (s.threads.length == 2 && s.terminated) = true) ∧
    (∃ s, Reach (sys "d" 1) Any s ∧ (s.calls == [.done] && s.threads.map (·.pc) == [.ended] && s.passes.isEmpty) = true) ∧
    (∃ s, Reach (sys "d" 1) Any s ∧ (s.passes.any fun p => p.removed == [⟨"d/a/y.dat", 5⟩] &&
      (dataFiles "d" p.root).contains ⟨"d/a/x.dat", some 0⟩) = true) ∧
    (∃ s, Reach (sys "d" 1) Any s ∧ (s.passes.any fun p => p.removed == [⟨"d/a/x.dat", 9⟩] &&
      (dataFiles "d" p.root).contains ⟨"d/c/y.dat", some 5⟩) = true) := by
  refine ⟨?_, ?_, ?_, ?_⟩
  · exact exists_of_replay [.trigger, .create 0, .assign 0, .request 0, .trigger, .create 1, .assign 1] rfl (by decide)
  · exact exists_of_replay [.trigger, .create 0, .assign 0, .request 0, .destroy, .recycler 0 .run,
      .recycler 0 .run] rfl (by decide)
  · exact exists_of_replay
      ([.trigger, .create 0, .assign 0, .request 0, .recycler 0 .run, .recycler 0 .run,
        .recycler 0 (.open_ (some [⟨"a", some [("x.dat", some 0), ("y.dat", some 5)]⟩]))] ++ List.replicate 6 (.recycler 0 .run))
      rfl (by decide)
  · exact exists_of_replay
      ([.trigger, .create 0, .assign 0, .request 0, .recycler 0 .run, .recycler 0 .run,
        .recycler 0 (.open_ (some [⟨"a", some [("x.dat", some 9)]⟩, ⟨"b", none⟩, ⟨"c", some [("y.dat", some 5)]⟩]))] ++
        List.replicate 5 (.recycler 0 .run))
      rfl (by decide)

end UnifiedCache.NfsStore
