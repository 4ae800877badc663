/-
  UnifiedCache.Mooncake.LoadsDone — what `Wait` says of a load of the Mooncake store: OK, and all of
  its shards are loaded.

  Over the host buffers (`HostLoads`) and over the shared buffer (`ShareTaskLoads`), in the runs in
  which the remote store gets all of the shards where there is no backend, in which no host buffer is
  given back while something writes to it, and in which the shared buffer serves each block its own
  shard.

  Without a backend, a load that the remote store has got nothing of returns OK (`missed_load_ok`); a
  load that outlives its buffer writes into the next one (`stale_load_ok`), and two shards of a block
  share a slot (`shared_slot_ok`).
-/

import UnifiedCache.Mooncake.HostLoads
import UnifiedCache.Mooncake.ShareTaskLoads

namespace UnifiedCache.Mooncake

open UnifiedCache.Base UnifiedCache.Detail

variable {Byte : Type} {C : LoadsConfig Byte} {s s' : Loads Byte} {l : LoadsLabel} {t : Nat}

/-- The shard was got from the remote store, or a copy of it was synchronised; its bytes are at their destination. -/
structure ShareLoaded (C : LoadsConfig Byte) (s : Loads Byte) (t i : Nat) : Prop where
  dest : ∀ o, o < C.share.blockSize → s.Right C t i o
  source : (s.task t).hit i = true ∨
    ∃ b, b < s.share.nBlock ∧ (s.share.block b).taskHandle = t ∧ s.index b = i ∧ s.done b = true ∧ s.issued b = false ∧
      ∀ o, o < C.share.blockSize → s.moved b o = true

/-- Whenever the `Wait` of a load returns OK, all of its shards are loaded. -/
def ShareOkLoaded (C : LoadsConfig Byte) (s : Loads Byte) : Prop :=
  ∀ t l s', loadsStep C s (.wait l) = some s' → waitStatus s.wrapper l = some (t, .ok) → ∀ i, i < (s.task t).nShard →
  ShareLoaded C s t i

structure ShareLoadsInv (C : LoadsConfig Byte) (s : Loads Byte) : Prop where
  share : ShareInv C.share s.share
  blocks : BlocksInv s
  copied : CopiedInv C s

theorem init_shareLoadsInv (h : s.IsInit) : ShareLoadsInv C s := by
  obtain ⟨hw, hsh, hm⟩ := h
  have hnt : ∀ t, ¬ t < s.wrapper.nTask := by
    intro t ht
    rw [hw] at ht
    cases ht
  have hnb : ∀ b, ¬ b < s.share.nBlock := by
    intro b hb
    rw [hsh.nBlock] at hb
    cases hb
  refine ⟨init_shareInv hsh, ⟨fun t ht => ?_, fun b hb => absurd hb (hnb b), fun b hb => absurd hb (hnb b),
    fun b _ hb => absurd hb (hnb b),
    fun b hb => absurd hb (hnb b), fun t _ ht => absurd ht (hnt t), fun t ht => absurd ht (hnt t), fun t ht => absurd ht (hnt t),
    fun t ht => ?_,
    fun t ht => absurd ht (hnt t), fun t _ ht => absurd ht (hnt t)⟩,
    ⟨fun b hb => absurd hb (hnb b), fun b hb => absurd hb (hnb b),
    fun b _ hb => absurd hb (hnb b), fun t _ _ ht => absurd ht (hnt t)⟩⟩
  · rw [hm] at ht
    cases ht
  · rw [hw] at ht
    exact absurd rfl ht

theorem step_shareLoadsInv (h : ShareLoadsInv C s) (hok : OrderlyLoads C s l) (hs : loadsStep C s l = some s') :
    ShareLoadsInv C s' := by
  obtain ⟨hsh, hb, hc⟩ := h
  exact ⟨step_loadsShare hsh hok hs, step_blocksInv hb hok hs, step_copiedInv hc hb hsh hs⟩

theorem reach_shareLoadsInv (h : Reach (sharedLoads C) (OrderlyLoads C) s) : ShareLoadsInv C s :=
  h.inv (I := ShareLoadsInv C) (fun _ => init_shareLoadsInv) fun _ _ _ hi hok hs => step_shareLoadsInv hi hok hs

/-- At a latch of zero the task has left, or its blocks are done. -/
theorem BlocksInv.finished (h : BlocksInv s) (hlt : t < s.wrapper.nTask) (hz : s.wrapper.counter t = 0) :
    (s.task t).pc = .left ∨ (s.task t).pc = .spliced ∧ ∀ b, b < s.share.nBlock → (s.share.block b).taskHandle = t →
    s.done b = true := by
  by_cases hleft : (s.task t).pc = .left
  · exact .inl hleft
  · right
    have hsp : (s.task t).pc = .spliced := by
      by_contra hsp
      exact h.up t hlt hsp hleft hz
    obtain ⟨hund, hcount⟩ := h.spliced t hlt hsp
    have hnone : s.undone t = 0 := hund.trans (hcount.resolve_left fun hne => hne hz)
    refine ⟨hsp, fun b hb htask => ?_⟩
    by_contra hd
    exact not_of_tally_zero hnone hb ⟨htask, Bool.eq_false_of_not_eq_true hd⟩

theorem ShareLoadsInv.loaded (h : ShareLoadsInv C s) : ShareOkLoaded C s := by
  obtain ⟨-, hb, hc⟩ := h
  intro t l s' hs hok i hi
  obtain ⟨w, hw, -⟩ := Option.map_eq_some_iff.mp hs
  obtain ⟨hwait, hz, hmark⟩ := ok_cases hw hok
  have hlt := hb.called t (by rw [hwait]; nofun)
  have hover : ¬ s.Over t := by
    rintro (e | e)
    · rw [hmark] at e
      cases e
    · rw [hwait] at e
      cases e
  have hpc := hb.finished hlt hz
  cases hhit : (s.task t).hit i with
  | true =>
    have hq : (s.task t).pc ≠ .queued ∧ (s.task t).pc ≠ .getting := by
      rcases hpc with e | ⟨e, -⟩
      all_goals
        rw [e]
        exact ⟨nofun, nofun⟩
    exact ⟨fun o ho => (hc.hit t i o hlt hq.1 hq.2 hi hhit ho).resolve_left hover, .inl hhit⟩
  | false =>
    rcases hpc with hleft | ⟨hsp, hdone⟩
    · -- nothing was missed
      have hall := (hb.left t hlt hleft).resolve_left hover i hi
      rw [hhit] at hall
      cases hall
    · rcases hb.covered t i hlt (.inr hsp) hi hhit with ⟨b, hlb, htask, hindex⟩ | ⟨k, e, -⟩
      · have hd := hdone b hlb htask
        have hmoved : ∀ o, o < C.share.blockSize → s.moved b o = true :=
            (hc.done b hlb hd).resolve_left (by rw [htask]; exact hover)
        refine ⟨fun o ho => ?_, .inr ⟨b, hlb, htask, hindex, hd, ?_, hmoved⟩⟩
        · have hr := (hc.moved b o hlb ho (hmoved o ho)).resolve_left (by rw [htask]; exact hover)
          rw [htask, hindex] at hr
          exact hr
        · by_contra hi
          rcases hc.issued b hlb (Bool.eq_true_of_not_eq_false hi) with e | e
          · rcases hb.done b hlb hd with e' | e' <;> rw [e] at e' <;> cases e'
          · rw [htask] at e
            exact hover e
      · rw [hsp] at e
        cases e

section Runs

theorem served_ok {H : QueueConfig Bool} (hb : H.backend = true) {s : Queues Bool} {l : QueueLabel Bool}
    (h : succeeds s l = true) : Served H s l := by
  refine ⟨(succeeds_ok (C := H) h).1, ?_⟩
  cases l with
  | loader l =>
    cases l with
    | get results =>
      cases results with
      | some hit =>
        intro hno
        rw [hb] at hno
        cases hno
      | none => trivial
    | _ => trivial
  | _ => trivial

def orderlyLoadsCheck (C : LoadsConfig Nat) (s : Loads Nat) : LoadsLabel → Bool
  | .lock t =>
    match (s.task t).pc with
    | .making i => orderlyCheck C.share s.view (.lock ((s.task t).shard i))
    | _ => true
  | .block l _ => orderlyCheck C.share s.view l
  | .get _ (some _) => C.backend
  | _ => true

theorem orderlyLoadsCheck_ok {C : LoadsConfig Nat} {s : Loads Nat} {l : LoadsLabel} (h : orderlyLoadsCheck C s l = true) :
    OrderlyLoads C s l := by
  cases l with
  | lock t =>
    intro i hpc
    unfold orderlyLoadsCheck at h
    dsimp only at h
    rw [hpc] at h
    exact orderlyCheck_ok h
  | block l left => exact orderlyCheck_ok h
  | get t results =>
    cases results with
    | some hit =>
      intro hno
      have h : C.backend = true := h
      rw [hno] at h
      cases h
    | none => trivial
  | _ => trivial

def numberedLoads : LoadsConfig Nat := ⟨numbered 2 Nat.zero_lt_two, true⟩

def noLoads : Loads Nat where
  wrapper := .init
  task _ := ⟨0, fun _ => ⟨0, 0⟩, fun _ => false, .left, 0⟩
  share := emptyShare
  maker := none
  index _ := 0
  done _ := false
  issued _ := false
  dest _ _ _ := 0
  moved _ _ := false

theorem noLoads_isInit : noLoads.IsInit := ⟨rfl, emptyShare_isInit, rfl⟩

/-- One shard is got from the remote store and the other is loaded, over the host buffers. -/
def hostLoad : List (QueueLabel Bool) :=
  [.submit .load 2 false, .takeLoad 0, .loader (.get (some (· == 0))), .loader .next, .loader (.acquire (some 0)),
    .loader (.load true), .loader .next,
    .take, .write 0 0, .endLoad 0 true, .transfer .backendWait, .transfer (.copy true false), .move 0 0, .transfer (.sync true),
    .transfer .finish,
    .wait (.call 0)]

/-- The same over the shared buffer. -/
def shareLoad : List LoadsLabel :=
  [.submit 2 (fun i => ⟨0, i⟩) false, .take 0, .get 0 (some (· == 0)), .enqueue 0, .next 0, .lock 0, .probe 0, .next 0,
    .block (.take 0) false,
    .block (.look 0) false, .block (.look 0) false, .block (.look 0) false, .block (.lockSlot 0) false,
    .block (.handle 0 true) false,
    .block (.write 0 0) false, .block (.endLoad 0 true) false, .block (.complete 0 true) false, .move 0 0,
    .block (.copied 0 true) false, .wait (.call 0)]

/-- Nothing was got, and there is no backend. -/
def missed : List (QueueLabel Bool) := [.submit .load 1 false, .takeLoad 0, .loader (.get (some fun _ => false)), .wait (.call 0)]

/-- A `Wait` that finds the latch at zero and no mark returns OK. -/
theorem OkLoaded.at_zero {H : QueueConfig Byte} {s : Queues Byte} (h : OkLoaded H s) (htype : (s.task t).type = .load)
    (hw : s.wrapper.wait t = .waiting ∧ s.wrapper.counter t = 0 ∧ s.wrapper.failureSet t = false) {i : Nat}
    (hi : i < (s.task t).nShard) : Loaded H s t i := by
  obtain ⟨hwait, hz, hmark⟩ := hw
  apply h t (.finished t) { s with wrapper := s.wrapper.leaveWait false t } htype _ _ i hi
  · simp only [queueStep, waitStep, hwait, hz, and_self, if_true, Option.map_some]
  · simp only [waitStatus, hmark, Bool.false_eq_true, if_false]

/-- A load that is not waited for goes on in the buffer of the next task. -/
def stale : List (QueueLabel Bool) :=
  [.submit .load 1 false, .takeLoad 0, .loader (.get (some fun _ => false)), .loader (.acquire (some 0)), .loader (.load true),
    .loader .next,
    .wait (.call 0), .wait (.timeout 0), .take, .submit .load 1 false, .takeLoad 1, .loader (.get (some fun _ => false)),
    .loader (.acquire (some 0)),
    .loader (.load true), .loader .next, .take, .write 1 0, .endLoad 1 true, .transfer .backendWait, .write 0 0,
    .transfer (.copy true false), .move 1 0,
    .transfer (.sync true), .transfer .finish, .wait (.call 1)]

/-- The bytes are the number of the task. -/
def twoTasks : QueueConfig Bool := ⟨1, true, 1, fun t _ _ => decide (t = 1)⟩

theorem stale_load_ok : ∃ s, Reach (hostQueues twoTasks) Any s ∧ ¬ OkLoaded twoTasks s := by
  obtain ⟨s, hr, hp⟩ := exists_of_replay (S := hostQueues twoTasks) stale (s := noTasks)
    (p := fun s => decide ((s.task 1).type = .load ∧ (s.task 1).nShard = 1 ∧
      (s.wrapper.wait 1 = .waiting ∧ s.wrapper.counter 1 = 0 ∧ s.wrapper.failureSet 1 = false) ∧ s.dest 1 0 0 = false))
      noTasks_isInit (by decide)
  obtain ⟨htype, hn, hw, hdest⟩ := of_decide_eq_true hp
  refine ⟨s, hr, fun h => ?_⟩
  have hd := (h.at_zero (i := 0) htype hw (by rw [hn]; decide)).dest 0 (by decide)
  rw [hdest] at hd
  cases hd

/-- Two shards of a block, neither got from the remote store. -/
def sharedSlot : List LoadsLabel :=
  [.submit 2 (fun i => ⟨0, i⟩) false, .take 0, .get 0 (some fun _ => false), .enqueue 0, .lock 0, .probe 0, .lock 0,
    .probe 0, .next 0,
    .block (.take 0) false, .block (.look 0) false, .block (.look 0) false, .block (.look 0) false, .block (.lockSlot 0) false,
    .block (.handle 0 true) false, .block (.write 0 0) false, .block (.endLoad 0 true) false,
    .block (.complete 0 true) false, .move 0 0,
    .block (.copied 0 true) false, .block (.take 1) false, .block (.look 1) false, .block (.handle 1 true) false, .move 1 0,
    .block (.copied 1 true) false, .wait (.call 0)]

theorem shared_slot_ok : ∃ s, Reach (sharedLoads numberedLoads) Any s ∧ ¬ ShareOkLoaded numberedLoads s := by
  obtain ⟨s, hr, hp⟩ := exists_of_replay (S := sharedLoads numberedLoads) sharedSlot (s := noLoads)
    (p := fun s => decide ((s.task 0).nShard = 2 ∧ ((s.task 0).shard 1).owner = 0 ∧ ((s.task 0).shard 1).index = 1 ∧
      s.wrapper.wait 0 = .waiting ∧ s.wrapper.counter 0 = 0 ∧ s.wrapper.failureSet 0 = false ∧ s.dest 0 1 0 = 0)) noLoads_isInit
      (by decide +kernel)
  obtain ⟨hn, howner, hindex, hwait, hz, hmark, hdest⟩ := of_decide_eq_true hp
  refine ⟨s, hr, fun h => ?_⟩
  have hd := (h 0 (.finished 0) { s with wrapper := s.wrapper.leaveWait false 0 } ?_ ?_ 1 (by rw [hn]; decide)).dest 0 (by decide)
  · unfold Loads.Right at hd
    rw [hdest, show (s.task 0).shard 1 = ⟨0, 1⟩ from Shard.ext howner hindex] at hd
    exact absurd hd (by decide)
  · simp only [loadsStep, waitStep, hwait, hz, and_self, if_true, Option.map_some]
  · simp only [waitStatus, hmark, Bool.false_eq_true, if_false]

end Runs

end UnifiedCache.Mooncake
