/-
  UnifiedCache.Cache.LocalBuffer — the cursor of the local buffer strategy
  (ucm/store/cache/cc/trans_buffer.cc, `LocalBufferStrategy::FetchNode`).

  The shared strategy's `FetchNode` is under the header's lock, and one step
  (see `UnifiedCache.Cache.TransBuffer`). The local strategy's takes no lock: a thread compares the
  cursor with its limit, wraps it, reads it, and writes it moved on. Threads that allocate in different
  buckets do so at once; here each of their accesses is a step, and the rest is as in the shared
  strategy. A node that is beyond the last one is not there to be locked.

  Where no thread moves the cursor to the limit of another that has compared it and is still to read it
  (`Unraced`), every thread fetches a node below its limit (`local_fetched`). Else a dump is given a
  reserved node (`raced_cursor`).
-/

import UnifiedCache.Cache.BufferCalls

namespace UnifiedCache.Cache

open UnifiedCache.Base

variable {Block : Type}

/-- Where a thread in `FetchNode` is. -/
inductive FetchPc where
  /-- Before `freeHead >= limit`. -/
  | compare
  /-- Before `freeHead = 0`. -/
  | wrap
  /-- Before the read of `freeHead++`. -/
  | read
  /-- Before its write. -/
  | advance (iNode : Nat)
  deriving DecidableEq

structure LocalSys (Block : Type) where
  sys : Sys Block
  fetch : Nat → FetchPc

/-- The node the next fetch gives. -/
def Buf.turn (b : Buf Block) (limit : Nat) : Nat := if b.freeHead ≥ limit then 0 else b.freeHead

def Buf.setFreeHead (b : Buf Block) (head : Nat) : Buf Block := { b with freeHead := head }

@[simp] theorem setFreeHead_metaAt (b : Buf Block) (head : Nat) : (b.setFreeHead head).metaAt = b.metaAt := rfl

theorem setNext_freeHead (b : Buf Block) (p o : Option Nat) : (b.setNext p o).freeHead = b.freeHead := by
  cases p <;> rfl

theorem setPrev_freeHead (b : Buf Block) (n o : Option Nat) : (b.setPrev n o).freeHead = b.freeHead := by
  cases n <;> rfl

theorem moveTo_freeHead (b : Buf Block) (iBucket iNode : Nat) : (b.moveTo iBucket iNode).freeHead = b.freeHead :=
  (setPrev_freeHead ..).trans (setNext_freeHead ..)

theorem remove_freeHead (b : Buf Block) (iBucket iNode : Nat) : (b.remove iBucket iNode).freeHead = b.freeHead := by
  simp only [Buf.remove]
  split
  · exact (setPrev_freeHead ..).trans (setNext_freeHead ..)
  · exact (setPrev_freeHead ..).trans (setNext_freeHead ..)

theorem allocAt_freeHead {b b' : Buf Block} {tryLock : Nat → Bool} {iBucket iNode shardIdx : Nat} {blockId : Block}
    (h : b.allocAt tryLock iBucket iNode blockId shardIdx = some b') : b'.freeHead = b.freeHead := by
  unfold Buf.allocAt at h
  split at h
  · cases h
  split at h
  · obtain rfl := Option.some.inj h
    rfl
  split at h
  · obtain rfl := Option.some.inj h
    exact moveTo_freeHead b iBucket iNode
  · split at h
    · obtain rfl := Option.some.inj h
      exact (moveTo_freeHead ..).trans (remove_freeHead ..)
    · cases h

theorem markReady_freeHead (b : Buf Block) (pos : Nat) : (b.markReady pos).freeHead = b.freeHead := by
  unfold Buf.markReady
  split <;> rfl

theorem markFailed_freeHead (b : Buf Block) (pos : Nat) (status : StatusCode) :
    (b.markFailed pos status).freeHead = b.freeHead := by
  unfold Buf.markFailed
  split <;> rfl

variable [DecidableEq Block] (P : Params Block)

namespace LocalSys

variable (s : LocalSys Block) (t : Nat)

def setFetch (f : FetchPc) : LocalSys Block := { s with fetch := Function.update s.fetch t f }

/-- An access of `LocalBufferStrategy::FetchNode`, by a thread in `Alloc`. -/
def fetchStep (c : GetArgs Block) : LocalSys Block :=
  match s.fetch t with
  | .compare => s.setFetch t (if s.sys.buf.freeHead ≥ P.limit c.allowReserved then .wrap else .read)
  | .wrap =>
    let sys : Sys Block := { s.sys with buf := s.sys.buf.setFreeHead 0 }
    { s with sys }.setFetch t .read
  | .read => s.setFetch t (.advance s.sys.buf.freeHead)
  | .advance i =>
    let sys : Sys Block := { s.sys with buf := s.sys.buf.setFreeHead (i + 1) }
    { s with sys := sys.at_ t (.fetched c i) }.setFetch t .compare

def step : Act Block → Option (LocalSys Block)
  | .run t =>
    match s.sys.pc t with
    | .alloc c => some (s.fetchStep P t c)
    | .fetched _ i => if i < P.nNode then (s.sys.runPc P t).map fun sys => { s with sys } else none
    | _ => (s.sys.runPc P t).map fun sys => { s with sys }
  | a => (s.sys.step P a).map fun sys => { s with sys }

end LocalSys

/-- The buffer of one process, with the local strategy. -/
def localBuffer : System (LocalSys Block) (Act Block) where
  init s := s.sys.IsInit ∧ ∀ t, s.fetch t = .compare
  step := LocalSys.step P

/-- A thread does not move the cursor to the limit of one that has compared it, and is still to read it. -/
def Unraced (s : LocalSys Block) : Act Block → Prop
  | .run t => ∀ i, s.fetch t = .advance i → ∀ t' c', t' ≠ t → s.sys.pc t' = .alloc c' → s.fetch t' = .read →
      i + 1 < P.limit c'.allowReserved
  | _ => True

variable {P} {s s' : LocalSys Block} {t : Nat} {c : GetArgs Block}

/-! ## One thread -/

/-- What a `FetchNode` leaves that no other thread is at. -/
def LocalSys.fetchAlone (P : Params Block) (s : LocalSys Block) (t : Nat) (c : GetArgs Block) : LocalSys Block :=
  let (buf, iNode) := s.sys.buf.fetchNode P c.allowReserved
  { s with sys := Sys.at_ { s.sys with buf } t (.fetched c iNode) }

theorem access (hpc : s.sys.pc t = .alloc c) (l : List (Act Block)) :
    replay (localBuffer P) s (.run t :: l) = replay (localBuffer P) (s.fetchStep P t c) l := by
  simp only [replay, localBuffer, LocalSys.step, hpc, Option.bind_some]

/-- It is the one of the shared strategy. -/
theorem local_fetch_alone (hpc : s.sys.pc t = .alloc c) (hf : s.fetch t = .compare) :
    ∃ n, replay (localBuffer P) s (List.replicate n (.run t)) = some (s.fetchAlone P t c) := by
  have hback : Function.update s.fetch t .compare = s.fetch := by
    rw [← hf, Function.update_eq_self]
  -- the read and the write, from a cursor below the limit
  have hread : ∀ buf : Buf Block, ∀ fetch, Function.update fetch t .compare = s.fetch →
      replay (localBuffer P) (LocalSys.setFetch ⟨{ s.sys with buf }, fetch⟩ t .read) [.run t, .run t] =
        some ⟨Sys.at_ { s.sys with buf := buf.setFreeHead (buf.freeHead + 1) } t (.fetched c buf.freeHead), s.fetch⟩ := by
    intro buf fetch hfetch
    have h1 : LocalSys.fetchStep P (LocalSys.setFetch ⟨{ s.sys with buf }, fetch⟩ t .read) t c =
        LocalSys.setFetch ⟨{ s.sys with buf }, fetch⟩ t (.advance buf.freeHead) := by
      simp [LocalSys.fetchStep, LocalSys.setFetch]
    have h2 : LocalSys.fetchStep P (LocalSys.setFetch ⟨{ s.sys with buf }, fetch⟩ t (.advance buf.freeHead)) t c =
        ⟨Sys.at_ { s.sys with buf := buf.setFreeHead (buf.freeHead + 1) } t (.fetched c buf.freeHead), s.fetch⟩ := by
      simp [LocalSys.fetchStep, LocalSys.setFetch, hfetch]
    rw [access (s := LocalSys.setFetch ⟨{ s.sys with buf }, fetch⟩ t .read) hpc, h1,
      access (s := LocalSys.setFetch ⟨{ s.sys with buf }, fetch⟩ t (.advance buf.freeHead)) hpc, h2]
    rfl
  by_cases hge : s.sys.buf.freeHead ≥ P.limit c.allowReserved
  · have hcompare : s.fetchStep P t c = s.setFetch t .wrap := by simp [LocalSys.fetchStep, hf, hge]
    have hwrap : (s.setFetch t .wrap).fetchStep P t c =
        LocalSys.setFetch ⟨{ s.sys with buf := s.sys.buf.setFreeHead 0 }, Function.update s.fetch t .wrap⟩ t .read := by
      simp [LocalSys.fetchStep, LocalSys.setFetch]
    refine ⟨4, ?_⟩
    simp only [List.replicate]
    rw [access hpc, hcompare, access (s := s.setFetch t .wrap) hpc, hwrap, hread _ _ (by rw [Function.update_idem, hback])]
    simp [LocalSys.fetchAlone, Buf.fetchNode, Buf.setFreeHead, hge]
  · have hcompare : s.fetchStep P t c = LocalSys.setFetch ⟨{ s.sys with buf := s.sys.buf }, s.fetch⟩ t .read := by
      simp [LocalSys.fetchStep, hf, hge]
    refine ⟨3, ?_⟩
    simp only [List.replicate]
    rw [access hpc, hcompare, hread _ _ hback]
    simp [LocalSys.fetchAlone, Buf.fetchNode, Buf.setFreeHead, hge]

/-! ## Steps outside of `FetchNode` -/

/-- The step leaves the cursor, and brings one thread at most to another place, which is not a fetched node. -/
structure Outside (s s' : Sys Block) : Prop where
  freeHead : s'.buf.freeHead = s.buf.freeHead
  pc : s'.pc = s.pc ∨ ∃ t pc, s'.pc = Function.update s.pc t pc ∧ (∀ c, s.pc t ≠ .alloc c) ∧ ∀ c i, pc ≠ .fetched c i

omit [DecidableEq Block] in
theorem Outside.of_at {s s' : Sys Block} {t : Nat} {pc : Pc Block} (hout : ∀ c, s.pc t ≠ .alloc c)
    (hno : ∀ c i, pc ≠ .fetched c i)
    (hpc : s'.pc = Function.update s.pc t pc) (hhead : s'.buf.freeHead = s.buf.freeHead) : Outside s s' :=
  ⟨hhead, .inr ⟨t, pc, hpc, hout, hno⟩⟩

theorem runPc_outside {s s' : Sys Block} {t : Nat} (hout : ∀ c, s.pc t ≠ .alloc c) (hs : s.runPc P t = some s') :
    Outside s s' := by
  unfold Sys.runPc at hs
  cases hpc : s.pc t with
  | idle =>
    rw [hpc] at hs
    cases hs
  | find c cur =>
    rw [hpc] at hs
    cases cur with
    | none =>
      obtain rfl := Option.some.inj hs
      exact .of_at hout (by simp) rfl rfl
    | some i =>
      simp only at hs
      split at hs
      · obtain rfl := Option.some.inj hs
        refine .of_at hout (fun c i => ?_) rfl rfl
        split <;> simp
      · obtain rfl := Option.some.inj hs
        exact .of_at hout (by simp) rfl rfl
  | hit c i owner =>
    rw [hpc] at hs
    obtain rfl := Option.some.inj hs
    refine .of_at hout (fun c i => ?_) rfl rfl
    split <;> simp
  | notReady c i owner =>
    rw [hpc] at hs
    obtain rfl := Option.some.inj hs
    exact .of_at hout (by simp) rfl rfl
  | alloc c => exact absurd hpc (hout c)
  | fetched c i =>
    rw [hpc] at hs
    simp only at hs
    split at hs
    · next b hb =>
      obtain rfl := Option.some.inj hs
      exact .of_at hout (by simp) rfl (allocAt_freeHead hb)
    · obtain rfl := Option.some.inj hs
      exact .of_at hout (by simp) rfl rfl
  | leave c i owner =>
    rw [hpc] at hs
    obtain rfl := Option.some.inj hs
    exact .of_at hout (by simp) rfl rfl
  | exist blockId shardIdx cur =>
    rw [hpc] at hs
    cases cur with
    | none =>
      obtain rfl := Option.some.inj hs
      exact .of_at hout (by simp) rfl rfl
    | some i =>
      simp only at hs
      split at hs
      · obtain rfl := Option.some.inj hs
        exact .of_at hout (by simp) rfl rfl
      · obtain rfl := Option.some.inj hs
        exact .of_at hout (by simp) rfl rfl
  | existLeave blockId shardIdx exist =>
    rw [hpc] at hs
    obtain rfl := Option.some.inj hs
    exact .of_at hout (by simp) rfl rfl

omit [DecidableEq Block] in
theorem isIdle_not_alloc {s : Sys Block} {t : Nat} (h : s.isIdle t = true) (c : GetArgs Block) : s.pc t ≠ .alloc c := by
  intro e
  simp [Sys.isIdle, e] at h

theorem step_outside {s s' : Sys Block} {a : Act Block} (hout : ∀ t, a = .run t → ∀ c, s.pc t ≠ .alloc c)
    (hs : s.step P a = some s') :
    Outside s s' := by
  cases a with
  | run t => exact runPc_outside (hout t rfl) hs
  | get t c =>
    simp only [Sys.step, Option.ite_none_right_eq_some, Option.some.injEq] at hs
    obtain ⟨⟨hidle, -⟩, rfl⟩ := hs
    exact .of_at (isIdle_not_alloc hidle) (by simp) rfl rfl
  | callExist t blockId shardIdx =>
    simp only [Sys.step, Option.ite_none_right_eq_some, Option.some.injEq] at hs
    obtain ⟨⟨hidle, -⟩, rfl⟩ := hs
    exact .of_at (isIdle_not_alloc hidle) (by simp) rfl rfl
  | copy hd =>
    simp only [Sys.step, Option.ite_none_right_eq_some, Option.some.injEq] at hs
    obtain ⟨-, rfl⟩ := hs
    exact ⟨rfl, .inl rfl⟩
  | drop hd =>
    simp only [Sys.step, Option.ite_none_right_eq_some, Option.some.injEq] at hs
    obtain ⟨-, rfl⟩ := hs
    exact ⟨rfl, .inl rfl⟩
  | markReady hd =>
    simp only [Sys.step, Option.ite_none_right_eq_some, Option.some.injEq] at hs
    obtain ⟨-, rfl⟩ := hs
    exact ⟨markReady_freeHead .., .inl rfl⟩
  | markFailed hd status =>
    simp only [Sys.step, Option.ite_none_right_eq_some, Option.some.injEq] at hs
    obtain ⟨-, rfl⟩ := hs
    exact ⟨markFailed_freeHead .., .inl rfl⟩

/-- A step is an access of `FetchNode`, or as in the shared strategy. -/
theorem local_step_cases {a : Act Block} (hs : s.step P a = some s') :
    (∃ t c, a = .run t ∧ s.sys.pc t = .alloc c ∧ s' = s.fetchStep P t c) ∨
      s'.fetch = s.fetch ∧ s.sys.step P a = some s'.sys ∧ ∀ t, a = .run t → ∀ c, s.sys.pc t ≠ .alloc c := by
  have hrest : (s.sys.step P a).map (fun sys => { s with sys }) = some s' → s'.fetch = s.fetch ∧
      s.sys.step P a = some s'.sys := by
    intro h
    obtain ⟨sys, hsys, rfl⟩ := Option.map_eq_some_iff.mp h
    exact ⟨rfl, hsys⟩
  cases a with
  | run t =>
    simp only [LocalSys.step] at hs
    cases hpc : s.sys.pc t with
    | alloc c =>
      simp only [hpc, Option.some.injEq] at hs
      exact .inl ⟨t, c, rfl, hpc, hs.symm⟩
    | fetched c i =>
      simp only [hpc, Option.ite_none_right_eq_some] at hs
      obtain ⟨h1, h2⟩ := hrest hs.2
      exact .inr ⟨h1, h2, by rintro _ ⟨⟩ c'; rw [hpc]; nofun⟩
    | _ =>
      simp only [hpc] at hs
      obtain ⟨h1, h2⟩ := hrest hs
      exact .inr ⟨h1, h2, by rintro _ ⟨⟩ c'; rw [hpc]; nofun⟩
  | _ =>
    obtain ⟨h1, h2⟩ := hrest hs
    exact .inr ⟨h1, h2, nofun⟩

/-! ## Any mix of calls -/

/-- A thread that is to read the cursor finds it below its limit, and goes on with what it has read. -/
structure FetchInv (P : Params Block) (s : LocalSys Block) : Prop where
  outside : ∀ t, (∀ c, s.sys.pc t ≠ .alloc c) → s.fetch t = .compare
  read : ∀ t c, s.sys.pc t = .alloc c → 0 < P.limit c.allowReserved → s.fetch t = .read →
      s.sys.buf.freeHead < P.limit c.allowReserved
  advance : ∀ t c i, s.sys.pc t = .alloc c → 0 < P.limit c.allowReserved → s.fetch t = .advance i → i < P.limit c.allowReserved
  fetched : ∀ t c i, s.sys.pc t = .fetched c i → 0 < P.limit c.allowReserved → i < P.limit c.allowReserved

omit [DecidableEq Block] in
theorem FetchInv.elsewhere (h : FetchInv P s) (hf : s'.fetch = s.fetch) (hout : Outside s.sys s'.sys) : FetchInv P s' := by
  obtain ⟨hhead, hpc⟩ := hout
  -- a thread that has come to `Alloc` is before the comparison
  have hold : ∀ u c, s'.sys.pc u = .alloc c → s.fetch u ≠ .compare → s.sys.pc u = .alloc c := by
    intro u c hu hne
    rcases hpc with e | ⟨t, pc, e, hno, -⟩
    · exact e ▸ hu
    · by_cases hut : u = t
      · exact absurd (h.outside u (hut ▸ hno)) hne
      · rwa [e, Function.update_of_ne hut] at hu
  refine ⟨fun u hu => ?_, fun u c hu hlimit hread => ?_, fun u c i hu hlimit hadv => ?_, fun u c i hu hlimit => ?_⟩
  · rw [hf]
    rcases hpc with e | ⟨t, pc, e, hno, -⟩
    · exact h.outside u fun c => e ▸ hu c
    · by_cases hut : u = t
      · exact h.outside u (hut ▸ hno)
      · refine h.outside u fun c hc => hu c ?_
        rwa [e, Function.update_of_ne hut]
  · rw [hf] at hread
    rw [hhead]
    exact h.read u c (hold u c hu (by rw [hread]; nofun)) hlimit hread
  · rw [hf] at hadv
    exact h.advance u c i (hold u c hu (by rw [hadv]; nofun)) hlimit hadv
  · rcases hpc with e | ⟨t, pc, e, -, hno⟩
    · exact h.fetched u c i (e ▸ hu) hlimit
    · by_cases hut : u = t
      · rw [e, hut, Function.update_self] at hu
        exact absurd hu (hno c i)
      · rw [e, Function.update_of_ne hut] at hu
        exact h.fetched u c i hu hlimit

omit [DecidableEq Block] in
/-- An access of `FetchNode`. -/
theorem FetchInv.access (h : FetchInv P s) (hpc : s.sys.pc t = .alloc c) (hok : Unraced P s (.run t)) :
    FetchInv P (s.fetchStep P t c) := by
  have hother : ∀ {f : FetchPc} {u : Nat}, u ≠ t → Function.update s.fetch t f u = s.fetch u :=
      fun e => Function.update_of_ne e ..
  -- the thread stays in `Alloc`
  have hstays : ∀ (f : FetchPc) (head : Nat),
      (∀ u c', s.sys.pc u = .alloc c' → u ≠ t → 0 < P.limit c'.allowReserved → s.fetch u = .read →
        head < P.limit c'.allowReserved) →
      (0 < P.limit c.allowReserved → f = .read → head < P.limit c.allowReserved) →
      (0 < P.limit c.allowReserved → ∀ i, f = .advance i → i < P.limit c.allowReserved) →
      FetchInv P (LocalSys.setFetch ⟨{ s.sys with buf := s.sys.buf.setFreeHead head }, s.fetch⟩ t f) := by
    intro f head hothers hread hadv
    refine ⟨fun u hu => ?_, fun u c' hu hlimit hf => ?_, fun u c' i hu hlimit hf => ?_, h.fetched⟩
    · by_cases e : u = t
      · exact absurd hpc (e ▸ hu c)
      · exact (hother e).trans (h.outside u hu)
    · have hu : s.sys.pc u = .alloc c' := hu
      have hf : Function.update s.fetch t f u = .read := hf
      by_cases e : u = t
      · subst e
        obtain rfl := Pc.alloc.inj (hpc.symm.trans hu)
        rw [Function.update_self] at hf
        exact hread hlimit hf
      · rw [hother e] at hf
        exact hothers u c' hu e hlimit hf
    · have hu : s.sys.pc u = .alloc c' := hu
      have hf : Function.update s.fetch t f u = .advance i := hf
      by_cases e : u = t
      · subst e
        obtain rfl := Pc.alloc.inj (hpc.symm.trans hu)
        rw [Function.update_self] at hf
        exact hadv hlimit i hf
      · rw [hother e] at hf
        exact h.advance u c' i hu hlimit hf
  have hkept : ∀ u c', s.sys.pc u = .alloc c' → u ≠ t → 0 < P.limit c'.allowReserved → s.fetch u = .read →
      s.sys.buf.freeHead < P.limit c'.allowReserved := fun u c' hu _ => h.read u c' hu
  unfold LocalSys.fetchStep
  cases hf : s.fetch t with
  | compare =>
    refine hstays _ s.sys.buf.freeHead hkept (fun _ e => ?_) fun _ i e => ?_
    · split at e
      · cases e
      · next hge => exact Nat.lt_of_not_le hge
    · split at e <;> cases e
  | wrap => exact hstays .read 0 (fun u c' _ _ hlimit _ => hlimit) (fun hlimit _ => hlimit) nofun
  | read =>
    refine hstays (.advance s.sys.buf.freeHead) s.sys.buf.freeHead hkept nofun fun hlimit i e => ?_
    obtain rfl := FetchPc.advance.inj e
    exact h.read t c hpc hlimit hf
  | advance i =>
    have hpc' : ∀ u, u ≠ t → Function.update s.sys.pc t (.fetched c i) u = s.sys.pc u := fun u e => Function.update_of_ne e ..
    refine ⟨fun u hu => ?_, fun u c' hu hlimit hread => ?_, fun u c' j hu hlimit hadv => ?_, fun u c' j hu hlimit => ?_⟩
    · by_cases e : u = t
      · rw [e]
        exact Function.update_self ..
      · refine (hother e).trans (h.outside u fun c' hc => hu c' ?_)
        exact (hpc' u e).trans hc
    · have hu : Function.update s.sys.pc t (.fetched c i) u = .alloc c' := hu
      have hread : Function.update s.fetch t .compare u = .read := hread
      by_cases e : u = t
      · rw [e, Function.update_self] at hu
        cases hu
      · rw [hpc' u e] at hu
        rw [hother e] at hread
        -- the others that are to read it have a higher limit
        exact hok i hf u c' e hu hread
    · have hu : Function.update s.sys.pc t (.fetched c i) u = .alloc c' := hu
      have hadv : Function.update s.fetch t .compare u = .advance j := hadv
      by_cases e : u = t
      · rw [e, Function.update_self] at hu
        cases hu
      · rw [hpc' u e] at hu
        rw [hother e] at hadv
        exact h.advance u c' j hu hlimit hadv
    · have hu : Function.update s.sys.pc t (.fetched c i) u = .fetched c' j := hu
      by_cases e : u = t
      · rw [e, Function.update_self] at hu
        obtain ⟨rfl, rfl⟩ := Pc.fetched.inj hu
        exact h.advance t c i hpc hlimit hf
      · rw [hpc' u e] at hu
        exact h.fetched u c' j hu hlimit

theorem reach_fetchInv (h : Reach (localBuffer P) (Unraced P) s) : FetchInv P s := by
  refine h.inv (I := FetchInv P) (fun s hs => ?_) fun s a s' hi hok hs => ?_
  · have hidle : ∀ t, s.sys.pc t = .idle := hs.1.pc
    refine ⟨fun t _ => hs.2 t, fun t c ht => ?_, fun t c i ht => ?_, fun t c i ht => ?_⟩
    all_goals
      rw [hidle t] at ht
      cases ht
  · rcases local_step_cases hs with ⟨t, c, rfl, hpc, rfl⟩ | ⟨hf, hsys, hout⟩
    · exact hi.access hpc hok
    · exact hi.elsewhere hf (step_outside hout hsys)

/-- In every interleaving of calls, if no thread moves the cursor to the limit of one that is about to read it,
    a fetched node is below
its caller's limit. -/
theorem local_fetched (h : Reach (localBuffer P) (Unraced P) s) {i : Nat} (hpc : s.sys.pc t = .fetched c i)
    (hlimit : 0 < P.limit c.allowReserved) : i < P.limit c.allowReserved := (reach_fetchInv h).fetched t c i hpc hlimit

/-- Two nodes, one of them reserved. -/
def oneReserved : Params Nat where
  blockIdHasher b := b.toUInt64
  shardHasher _ := 0
  nNode := 2
  reservedNumber := 1
  bypassHitOnLoad := false

/-- A dump has compared the cursor, and a load takes node `0`: the dump reads the cursor, and is given the reserved node. -/
theorem raced_cursor : ∃ s, Reach (localBuffer oneReserved) Any s ∧ ∃ c, s.sys.pc 0 = .fetched c 1 ∧ c.allowReserved = false := by
  let dump : GetArgs Nat := ⟨1, 0, false, false⟩
  let load : GetArgs Nat := ⟨2, 0, true, true⟩
  obtain ⟨s, hr, hp⟩ := exists_of_replay (S := localBuffer oneReserved)
    [.get 0 dump, .run 0, .run 0, .get 1 load, .run 1, .run 1, .run 1, .run 1, .run 0, .run 0]
    (s := ⟨⟨⟨fun _ => none, 0, fun _ => ⟨0, 0, 0, none, none, none, .loading, statusOK⟩⟩, fun _ => none, fun _ => .idle, []⟩,
      fun _ => .compare⟩)
    (p := fun s => decide (s.sys.pc 0 = .fetched ⟨1, 0, false, false⟩ 1))
    ⟨⟨⟨fun _ => rfl, rfl, fun _ => rfl, fun _ => rfl, fun _ => rfl, fun _ => rfl, fun _ => rfl, fun _ => rfl⟩, fun _ => rfl,
      fun _ => rfl, rfl⟩,
      fun _ => rfl⟩ (by decide)
  exact ⟨s, hr, _, of_decide_eq_true hp, rfl⟩

end UnifiedCache.Cache
