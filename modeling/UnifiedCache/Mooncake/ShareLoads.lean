/-
  UnifiedCache.Mooncake.ShareLoads — what the shared buffer of the Mooncake store serves
  (see `UnifiedCache.Mooncake.ShareBuffer`).

  In the runs in which no reader is made while a slot is for another key of the same first sixteen
  characters, and no block is given up while its load is running (`serves_own`): a block whose
  `Ready4Read` returned OK, or whose load ended well, has its own shard's bytes; a slot changes its
  key under no reader and no load; one block at a time loads a slot; blocks at one slot are of one
  key.

  The sixteen characters are the first half of the block's id: the shards of a block have them in
  common (`shards_share_slot`). A block whose task has been marked failed does not wait for its load
  (`load_outlives_block`).
-/

import UnifiedCache.Base.Tally
import UnifiedCache.Mooncake.ShareBuffer

namespace UnifiedCache.Mooncake

open UnifiedCache.Base

variable {Byte : Type} {C : ShareConfig Byte} {s s' : Share Byte} {l : ShareLabel}

/-- No slot is for another key of the same id, and no block is given up while its load is running. -/
def Orderly (C : ShareConfig Byte) (s : Share Byte) : ShareLabel → Prop
  | .lock k => ∀ p k', p < C.blockNumber → (s.table.slot p).key = some k' →
      ShareBlockId.set C.hasher k'.key = ShareBlockId.set C.hasher k.key → k'.key = k.key
  | .complete b ok => s.failed b = true ∨ ok = false → (s.block b).load ≠ .running
  | .abandon b => (s.block b).load ≠ .running
  | _ => True

/-- The status that a block's slot has. -/
def BlockPc.expects : BlockPc → Option ShareBlockStatus
  | .returned _ .ok | .copying => some .loaded
  | .returned _ .error => some .failure
  | .returned _ .duplicateKey | .backend => some .loading
  | _ => none

theorem BlockPc.expects_ne_init (pc : BlockPc) : pc.expects ≠ some .init := by
  cases pc with
  | returned again st => cases st <;> nofun
  | _ => nofun

theorem BlockPc.not_gone_of_expects {pc : BlockPc} {st : ShareBlockStatus} (h : pc.expects = some st) : pc ≠ .gone := by
  intro e
  subst e
  cases h

/-! ## The readers of a slot -/

/-- How many readers a slot has. -/
def Share.live (s : Share Byte) (p : Nat) : Nat := Nat.count (fun b => (s.block b).pc ≠ .gone ∧ (s.block b).pos = some p) s.nBlock

section Live

variable {b p q : Nat}

theorem live_addBlock (t : Table Shard ShareBlockId ShareBlockStatus) (task : Nat) (k : Shard) (pos : Option Nat) (q : Nat) :
    (s.addBlock t task k pos).live q = s.live q + if pos = some q then 1 else 0 := by
  unfold Share.live
  show Nat.count (fun b => (Function.update s.block s.nBlock ⟨task, k, pos, .waiting, .none⟩ b).pc ≠ .gone ∧
    (Function.update s.block s.nBlock ⟨task, k, pos, .waiting, .none⟩ b).pos = some q) (s.nBlock + 1) = _
  rw [Nat.count_succ, Function.update_self]
  congr 1
  · exact tally_congr fun b hb => by rw [Function.update_of_ne (by omega)]
  · simp

theorem live_pos (hb : b < s.nBlock) (ha : (s.block b).pc ≠ .gone) (hp : (s.block b).pos = some p) : 0 < s.live p :=
  tally_pos hb ⟨ha, hp⟩

theorem live_gone (hb : b < s.nBlock) (ha : (s.block b).pc ≠ .gone) (hp : (s.block b).pos = some p) :
    s.live p = (s.setPc b .gone).live p + 1 := by
  refine tally_drop hb ⟨ha, hp⟩ ?_ fun b' _ hne => ?_
  · show ¬((Function.update s.block b { s.block b with pc := .gone } b).pc ≠ .gone ∧ _)
    rw [Function.update_self]
    exact fun h => h.1 rfl
  · show _ ↔ (Function.update s.block b { s.block b with pc := .gone } b').pc ≠ .gone ∧
      (Function.update s.block b { s.block b with pc := .gone } b').pos = some p
    rw [Function.update_of_ne hne]

theorem live_gone_of_ne (hp : (s.block b).pos ≠ some q) : (s.setPc b .gone).live q = s.live q := by
  refine tally_congr fun b' _ => ?_
  show (Function.update s.block b { s.block b with pc := .gone } b').pc ≠ .gone ∧
    (Function.update s.block b { s.block b with pc := .gone } b').pos = some q ↔ _
  by_cases e : b' = b
  · subst e
    rw [Function.update_self]
    exact ⟨fun h => absurd h.2 hp, fun h => absurd h.2 hp⟩
  · rw [Function.update_of_ne e]

end Live

/-! ## The invariant -/

structure ShareInv (C : ShareConfig Byte) (s : Share Byte) : Prop where
  table : TableInv C.probing s.live s.table
  held : ∀ b, b < s.nBlock → (s.block b).pc ≠ .gone → ∀ p, (s.block b).pos = some p →
    p < C.blockNumber ∧ (s.table.slot p).key = some (s.block b).shard
  status : ∀ b, b < s.nBlock → ∀ p, (s.block b).pos = some p → ∀ st, (s.block b).pc.expects = some st → s.status p = st
  one : ∀ b b' p, b < s.nBlock → b' < s.nBlock → (s.block b).pos = some p → (s.block b').pos = some p →
    (s.block b).pc.expects = some .loading → (s.block b').pc.expects = some .loading → b = b'
  running : ∀ b, b < s.nBlock → (s.block b).load = .running → (s.block b).pc = .backend
  got : ∀ b, b < s.nBlock → (s.block b).pc = .backend → ∀ o, s.got b o = true → s.dataOf b o = C.backend (s.block b).shard o
  all : ∀ b, b < s.nBlock → (s.block b).load = .ended true → ∀ o, o < C.blockSize → s.got b o = true
  priv : ∀ b, b < s.nBlock → (s.block b).pos = none → (s.block b).pc.expects = some .loaded → ∀ o, o < C.blockSize →
    s.priv b o = C.backend (s.block b).shard o
  loaded : ∀ p, s.status p = .loaded → ∃ k, (s.table.slot p).key = some k ∧ ∀ o, o < C.blockSize → s.data p o = C.backend k o

theorem dataOf_shared {b p : Nat} (hp : (s.block b).pos = some p) : s.dataOf b = s.data p := by
  unfold Share.dataOf
  rw [hp]

theorem dataOf_private {b : Nat} (hp : (s.block b).pos = none) : s.dataOf b = s.priv b := by
  unfold Share.dataOf
  rw [hp]

theorem ShareInv.fail (h : ShareInv C s) (f : Nat → Bool) : ShareInv C { s with failureSet := f } :=
  ⟨h.table, h.held, h.status, h.one, h.running, h.got, h.all, h.priv, h.loaded⟩

/-- A lookup goes on. -/
theorem ShareInv.scan (h : ShareInv C s) {t : Table Shard ShareBlockId ShareBlockStatus} (ht : TableInv C.probing s.live t)
    (hs : t.slot = s.table.slot) : ShareInv C { s with table := t } := by
  obtain ⟨slot, scan⟩ := t
  obtain rfl : slot = s.table.slot := hs
  exact ⟨ht, h.held, h.status, h.one, h.running, h.got, h.all, h.priv, h.loaded⟩

theorem ShareInv.ref_ne (h : ShareInv C s) {b p : Nat} (hb : b < s.nBlock) (ha : (s.block b).pc ≠ .gone)
    (hp : (s.block b).pos = some p) : (s.table.slot p).ref ≠ 0 := by
  rw [h.table.slots.ref p]
  have := live_pos hb ha hp
  omega

section Move

variable {b : Nat} {x : BlockTask} {t : Table Shard ShareBlockId ShareBlockStatus} {g : Nat → Nat → Bool}

/-- A block goes on, and may have set the status of its slot. -/
theorem ShareInv.move (h : ShareInv C s) (hx : x.shard = (s.block b).shard ∧ x.pos = (s.block b).pos)
    (hgone : (s.block b).pc ≠ .gone) (hgone' : x.pc ≠ .gone) (ht : TableInv C.probing s.live t)
    (hkey : ∀ q, (t.slot q).key = (s.table.slot q).key)
    (hother : ∀ b', b' < s.nBlock → b' ≠ b → ∀ p, (s.block b').pos = some p → ∀ st, (s.block b').pc.expects = some st →
      (t.slot p).status = st)
    (hself : ∀ p, x.pos = some p → ∀ st, x.pc.expects = some st → (t.slot p).status = st)
    (hone : x.pc.expects = some .loading → ∀ b' p, b' < s.nBlock → x.pos = some p → (s.block b').pos = some p →
      (s.block b').pc.expects = some .loading → b' = b)
    (hrun : x.load = .running → x.pc = .backend) (hg : ∀ b', b' ≠ b → g b' = s.got b')
    (hgot : x.pc = .backend → ∀ o, g b o = true → s.dataOf b o = C.backend (s.block b).shard o)
    (hall : x.load = .ended true → ∀ o, o < C.blockSize → g b o = true)
    (hpriv : x.pos = none → x.pc.expects = some .loaded → ∀ o, o < C.blockSize → s.priv b o = C.backend (s.block b).shard o)
    (hloaded : ∀ p, (t.slot p).status = .loaded → ∃ k, (s.table.slot p).key = some k ∧ ∀ o, o < C.blockSize →
      s.data p o = C.backend k o) :
    ShareInv C { s with table := t, block := Function.update s.block b x, got := g } := by
  have hold : ∀ b', b' ≠ b → Function.update s.block b x b' = s.block b' := fun b' e => Function.update_of_ne e ..
  have hpos : ∀ b', (Function.update s.block b x b').pos = (s.block b').pos ∧
      (Function.update s.block b x b').shard = (s.block b').shard := by
    intro b'
    by_cases e : b' = b
    · rw [e, Function.update_self]
      exact ⟨hx.2, hx.1⟩
    · rw [hold b' e]
      exact ⟨rfl, rfl⟩
  have hlive : Share.live { s with table := t, block := Function.update s.block b x, got := g } = s.live := by
    funext p
    refine tally_congr fun b' _ => ?_
    show (Function.update s.block b x b').pc ≠ .gone ∧ (Function.update s.block b x b').pos = some p ↔ _
    rw [(hpos b').1]
    by_cases e : b' = b
    · rw [e, Function.update_self]
      exact ⟨fun hp => ⟨hgone, hp.2⟩, fun hp => ⟨hgone', hp.2⟩⟩
    · rw [hold b' e]
  have hdata : ∀ b', Share.dataOf { s with table := t, block := Function.update s.block b x, got := g } b' = s.dataOf b' := by
    intro b'
    unfold Share.dataOf
    dsimp only
    rw [(hpos b').1]
  refine ⟨?_, fun b' hb' ha p hp => ?_, fun b' hb' p hp st hst => ?_, fun b' b'' p hb' hb'' hp hp' hl hl' => ?_,
    fun b' hb' hl => ?_,
    fun b' hb' hpc o ho => ?_, fun b' hb' hl o ho => ?_, fun b' hb' hn hl o ho => ?_, fun p hp => ?_⟩
  · rw [hlive]
    exact ht
  · dsimp only at ha hp ⊢
    rw [(hpos b').1] at hp
    rw [hkey, (hpos b').2]
    refine h.held b' hb' ?_ p hp
    by_cases e : b' = b
    · rw [e]
      exact hgone
    · rwa [hold b' e] at ha
  · show (t.slot p).status = st
    dsimp only at hp hst
    by_cases e : b' = b
    · rw [e, Function.update_self] at hp hst
      exact hself p hp st hst
    · rw [hold b' e] at hp hst
      exact hother b' hb' e p hp st hst
  · dsimp only at hp hp' hl hl'
    by_cases e : b' = b <;> by_cases e' : b'' = b
    · rw [e, e']
    · rw [e, Function.update_self] at hp hl
      rw [hold b'' e'] at hp' hl'
      exact absurd (hone hl b'' p hb'' hp hp' hl') e'
    · rw [hold b' e] at hp hl
      rw [e', Function.update_self] at hp' hl'
      exact absurd (hone hl' b' p hb' hp' hp hl) e
    · rw [hold b' e] at hp hl
      rw [hold b'' e'] at hp' hl'
      exact h.one b' b'' p hb' hb'' hp hp' hl hl'
  · dsimp only at hl ⊢
    by_cases e : b' = b
    · rw [e, Function.update_self] at hl ⊢
      exact hrun hl
    · rw [hold b' e] at hl ⊢
      exact h.running b' hb' hl
  · rw [hdata]
    dsimp only at hpc ho ⊢
    rw [(hpos b').2]
    by_cases e : b' = b
    · rw [e, Function.update_self] at hpc
      rw [e] at ho ⊢
      exact hgot hpc o ho
    · rw [hold b' e] at hpc
      rw [hg b' e] at ho
      exact h.got b' hb' hpc o ho
  · dsimp only at hl ⊢
    by_cases e : b' = b
    · rw [e, Function.update_self] at hl
      rw [e]
      exact hall hl o ho
    · rw [hold b' e] at hl
      rw [hg b' e]
      exact h.all b' hb' hl o ho
  · dsimp only at hn hl ⊢
    rw [(hpos b').2]
    by_cases e : b' = b
    · rw [e, Function.update_self] at hn hl
      rw [e]
      exact hpriv hn hl o ho
    · rw [hold b' e] at hn hl
      exact h.priv b' hb' hn hl o ho
  · dsimp only
    rw [hkey]
    exact hloaded p hp

variable {pc : BlockPc}

/-- The slots stay as they are. -/
theorem ShareInv.setPc (h : ShareInv C s) (hb : b < s.nBlock) (hgone : (s.block b).pc ≠ .gone) (hgone' : pc ≠ .gone)
    (hself : ∀ p, (s.block b).pos = some p → ∀ st, pc.expects = some st → s.status p = st)
    (hone : ∀ p, (s.block b).pos = some p → pc.expects ≠ some .loading) (hrun : (s.block b).load ≠ .running)
    (hback : pc ≠ .backend)
    (hpriv : (s.block b).pos = none → pc.expects = some .loaded → (s.block b).pc.expects = some .loaded) :
    ShareInv C (s.setPc b pc) :=
  h.move (x := { s.block b with pc }) (t := s.table) (g := s.got) ⟨rfl, rfl⟩ hgone hgone' h.table (fun _ => rfl)
    (fun b' hb' _ => h.status b' hb') hself (fun hl _ p _ hp => absurd hl (hone p hp)) (fun hl => absurd hl hrun) (fun _ _ => rfl)
    (fun hpc => absurd hpc hback) (h.all b hb) (fun hn hl => h.priv b hb hn (hpriv hn hl)) h.loaded

/-- `MarkLoaded` or `MarkFailed`, or the lock section makes the block the owner. -/
theorem ShareInv.mark (h : ShareInv C s) {st : ShareBlockStatus} (hb : b < s.nBlock) (hgone : (s.block b).pc ≠ .gone)
    (hgone' : pc ≠ .gone)
    (hother : ∀ p, (s.block b).pos = some p → ∀ b', b' < s.nBlock → (s.block b').pos = some p → (s.block b').pc.expects ≠ none →
      b' = b ∨ (s.block b').pc.expects = some .failure ∧ st = .failure)
    (hself : ∀ st', pc.expects = some st' → st' = st) (hrun : (s.block b).load ≠ .running) (hback : pc ≠ .backend)
    (hdata : st = .loaded → ∀ o, o < C.blockSize → s.dataOf b o = C.backend (s.block b).shard o) :
    ShareInv C ((s.mark b st).setPc b pc) := by
  cases hp : (s.block b).pos with
  | none =>
    have hmark : s.mark b st = s := by
      unfold Share.mark
      rw [hp]
    rw [hmark]
    refine h.move (x := { s.block b with pc }) (t := s.table) (g := s.got) ⟨rfl, rfl⟩ hgone hgone' h.table (fun _ => rfl)
      (fun b' hb' _ => h.status b' hb') (fun p hp' => ?_) (fun _ _ p _ hp' => ?_) (fun hl => absurd hl hrun) (fun _ _ => rfl)
      (fun hpc => absurd hpc hback) (h.all b hb) (fun _ hl o ho => ?_) h.loaded
    · rw [hp] at hp'
      cases hp'
    · rw [hp] at hp'
      cases hp'
    · rw [← dataOf_private hp]
      exact hdata (hself _ hl).symm o ho
  | some p =>
    have hmark : s.mark b st = { s with table := s.table.setStatus p st } := by
      unfold Share.mark
      rw [hp]
    have hself' : ((s.table.setStatus p st).slot p).status = st := congrArg Slot.status (Table.setSlot_self ..)
    have hne : ∀ q, q ≠ p → (s.table.setStatus p st).slot q = s.table.slot q := fun q e => Table.setSlot_of_ne _ e
    rw [hmark]
    refine h.move (x := { s.block b with pc }) (t := s.table.setStatus p st) (g := s.got) ⟨rfl, rfl⟩ hgone hgone'
      (setStatus_inv h.table p st) (fun q => ?_) (fun b' hb' hne' q hq st' hst' => ?_) (fun q hq st' hst' => ?_)
      (fun hl b' q hb' hq hq' hl' => ?_) (fun hl => absurd hl hrun) (fun _ _ => rfl) (fun hpc => absurd hpc hback) (h.all b hb)
      (fun hn => ?_) fun q hq => ?_
    · by_cases e : q = p
      · rw [e]
        exact (congrArg Slot.key (Table.setSlot_self p _)).trans rfl
      · rw [hne q e]
    · by_cases e : q = p
      · subst e
        rw [hself']
        rcases hother q hp b' hb' hq (by rw [hst']; nofun) with he | ⟨hf, he⟩
        · exact absurd he hne'
        · exact he.trans (Option.some.inj (hf.symm.trans hst'))
      · rw [hne q e]
        exact h.status b' hb' q hq st' hst'
    · obtain rfl : p = q := Option.some.inj (hp.symm.trans hq)
      rw [hself']
      exact (hself st' hst').symm
    · obtain rfl : p = q := Option.some.inj (hp.symm.trans hq)
      rcases hother p hp b' hb' hq' (by rw [hl']; nofun) with he | ⟨hf, -⟩
      · exact he
      · rw [hf] at hl'
        cases hl'
    · have hn : (s.block b).pos = none := hn
      rw [hp] at hn
      cases hn
    · by_cases e : q = p
      · subst e
        rw [hself'] at hq
        rw [← dataOf_shared hp]
        exact ⟨_, (h.held b hb hgone q hp).2, hdata hq⟩
      · rw [hne q e] at hq
        exact h.loaded q hq

end Move

/-- The owner of a slot is the only one that expects anything of it. -/
theorem ShareInv.owner (h : ShareInv C s) {b : Nat} (hb : b < s.nBlock) (hl : (s.block b).pc.expects = some .loading)
    (st : ShareBlockStatus)
    (p : Nat) (hp : (s.block b).pos = some p) (b' : Nat) (hb' : b' < s.nBlock) (hp' : (s.block b').pos = some p)
    (he : (s.block b').pc.expects ≠ none) : b' = b ∨ (s.block b').pc.expects = some .failure ∧ st = .failure := by
  cases hst : (s.block b').pc.expects with
  | none => exact absurd hst he
  | some st' =>
    have h1 := h.status b hb p hp _ hl
    have h2 := h.status b' hb' p hp' _ hst
    rw [h1] at h2
    rw [← h2] at hst
    exact .inl (h.one b' b p hb' hb hp' hp hst hl)

/-! ## The steps -/

theorem init_shareInv (h : s.IsInit) : ShareInv C s := by
  have hlt : ∀ b, ¬b < s.nBlock := by
    rw [h.nBlock]
    exact fun b => Nat.not_lt_zero b
  have hst : ∀ p, s.status p = .init := fun p => by
    unfold Share.status
    rw [h.slot p]
  refine ⟨?_, fun b hb => absurd hb (hlt b), fun b hb => absurd hb (hlt b), fun b _ _ hb => absurd hb (hlt b),
    fun b hb => absurd hb (hlt b), fun b hb => absurd hb (hlt b), fun b hb => absurd hb (hlt b), fun b hb => absurd hb (hlt b),
    fun p hp => ?_⟩
  · have hlive : s.live = fun _ => 0 := by
      funext p
      unfold Share.live
      rw [h.nBlock, Nat.count_zero]
    rw [hlive]
    refine init_inv (fun p => ?_) h.scan
    rw [h.slot p]
    exact ⟨rfl, rfl, rfl⟩
  · rw [hst p] at hp
    cases hp

/-- A lookup ends, and its block is made. -/
theorem ShareInv.addBlock (h : ShareInv C s) {t : Table Shard ShareBlockId ShareBlockStatus} {task : Nat} {k : Shard}
    {pos : Option Nat}
    (ht : TableInv C.probing (s.addBlock t task k pos).live t) (hpos : ∀ p, pos = some p → p < C.blockNumber ∧
      (t.slot p).key = some k)
    (hsame : ∀ q, (s.table.slot q).ref ≠ 0 → (t.slot q).key = (s.table.slot q).key ∧ (t.slot q).status = (s.table.slot q).status)
    (hchange : ∀ q, (t.slot q).key = (s.table.slot q).key ∧ (t.slot q).status = (s.table.slot q).status ∨
      (t.slot q).status = .init) :
    ShareInv C (s.addBlock t task k pos) := by
  have hself : (s.addBlock t task k pos).block s.nBlock = ⟨task, k, pos, .waiting, .none⟩ := Function.update_self ..
  have hold : ∀ b, b < s.nBlock → (s.addBlock t task k pos).block b = s.block b := fun b hb => Function.update_of_ne (by omega) ..
  -- a block that is under way is an old one
  have hcases : ∀ b, b < s.nBlock + 1 → b < s.nBlock ∨ b = s.nBlock := fun b hb => Nat.lt_succ_iff_lt_or_eq.mp hb
  have hnew : ∀ {b : Nat} {st}, b < s.nBlock + 1 → ((s.addBlock t task k pos).block b).pc.expects = some st → b < s.nBlock := by
    intro b st hb hst
    rcases hcases b hb with hb | rfl
    · exact hb
    · rw [hself] at hst
      cases hst
  refine ⟨ht, fun b hb ha p hp => ?_, fun b hb p hp st hst => ?_, fun b b' p hb hb' hp hp' hl hl' => ?_, fun b hb hl => ?_,
    fun b hb hpc o ho => ?_, fun b hb hl o ho => ?_, fun b hb hn hl o ho => ?_, fun p hp => ?_⟩
  · rcases hcases b hb with hb | rfl
    · rw [hold b hb] at ha hp ⊢
      rw [show (s.addBlock t task k pos).table.slot p = t.slot p from rfl, (hsame p (h.ref_ne hb ha hp)).1]
      exact h.held b hb ha p hp
    · rw [hself] at hp ⊢
      exact hpos p hp
  · have hb := hnew hb hst
    rw [hold b hb] at hp hst
    show (t.slot p).status = st
    rw [(hsame p (h.ref_ne hb (BlockPc.not_gone_of_expects hst) hp)).2]
    exact h.status b hb p hp st hst
  · have hb := hnew hb hl
    have hb' := hnew hb' hl'
    rw [hold b hb] at hp hl
    rw [hold b' hb'] at hp' hl'
    exact h.one b b' p hb hb' hp hp' hl hl'
  · rcases hcases b hb with hb | rfl
    · rw [hold b hb] at hl ⊢
      exact h.running b hb hl
    · rw [hself] at hl
      cases hl
  · rcases hcases b hb with hb | rfl
    · unfold Share.dataOf
      rw [hold b hb] at hpc ⊢
      exact h.got b hb hpc o ho
    · rw [hself] at hpc
      cases hpc
  · rcases hcases b hb with hb | rfl
    · rw [hold b hb] at hl
      exact h.all b hb hl o ho
    · rw [hself] at hl
      cases hl
  · have hb := hnew hb hl
    rw [hold b hb] at hn hl ⊢
    exact h.priv b hb hn hl o ho
  · have hp : (t.slot p).status = .loaded := hp
    rcases hchange p with ⟨hk, hst⟩ | hi
    · rw [hst] at hp
      obtain ⟨k', hk', hb⟩ := h.loaded p hp
      exact ⟨k', hk.trans hk', hb⟩
    · rw [hi] at hp
      cases hp

/-- What a lookup's step comes to. -/
theorem probe_cases {task : Nat} (h : s.probe C task = some s') : ∃ c t, s.table.scan = some c ∧
    (s.table.probe C.probing = some (t, .goesOn) ∧ s' = { s with table := t } ∨
      (∃ p, s.table.probe C.probing = some (t, .found p) ∧ s' = s.addBlock t task c.key (some p)) ∨
      s.table.probe C.probing = some (t, .full) ∧ s' = s.addBlock t task c.key none) := by
  unfold Share.probe at h
  split at h
  · next c t hc ht => exact ⟨c, t, hc, .inl ⟨ht, (Option.some.inj h).symm⟩⟩
  · next c t p hc ht => exact ⟨c, t, hc, .inr (.inl ⟨p, ht, (Option.some.inj h).symm⟩)⟩
  · next c t hc ht => exact ⟨c, t, hc, .inr (.inr ⟨ht, (Option.some.inj h).symm⟩)⟩
  · cases h

theorem live_found (t : Table Shard ShareBlockId ShareBlockStatus) (task : Nat) (k : Shard) (p : Nat) :
    (s.addBlock t task k (some p)).live p = s.live p + 1 ∧ ∀ q, q ≠ p → (s.addBlock t task k (some p)).live q = s.live q := by
  refine ⟨?_, fun q hq => ?_⟩
  · rw [live_addBlock, if_pos rfl]
  · rw [live_addBlock, if_neg (fun e => hq (Option.some.inj e).symm), Nat.add_zero]

theorem ShareInv.probe (h : ShareInv C s) {task : Nat} (hs : s.probe C task = some s') : ShareInv C s' := by
  obtain ⟨c, t, hc, hs | ⟨p, ht, rfl⟩ | ⟨ht, rfl⟩⟩ := probe_cases hs
  · obtain ⟨ht, rfl⟩ := hs
    obtain ⟨hinv, hslot⟩ := probe_goesOn h.table ht
    exact h.scan hinv hslot
  · obtain ⟨hp, hne⟩ := live_found (s := s) t task c.key p
    obtain ⟨hinv, hlt, c', hc', hf⟩ := probe_found h.table ht hp hne
    obtain rfl : c = c' := Option.some.inj (hc.symm.trans hc')
    refine h.addBlock hinv (fun q hq => ?_) (fun q hq => ⟨(hf.same hq).1, (hf.same hq).2.2⟩) fun q => ?_
    · obtain rfl := Option.some.inj hq
      exact ⟨hlt, hf.key⟩
    · rcases hf.change q with he | hfresh | ⟨hk, hr⟩
      · exact .inl he
      · exact .inr hfresh
      · by_cases hl : (s.table.slot q).status = .loaded
        · exact .inl ⟨hk, hr.trans ((if_pos hl).trans hl.symm)⟩
        · exact .inr (hr.trans (if_neg hl))
  · obtain ⟨hinv, hslot, -⟩ := probe_full h.table ht
    have hlive : (s.addBlock t task c.key none).live = s.live := by
      funext q
      rw [live_addBlock, if_neg nofun, Nat.add_zero]
    refine h.addBlock (hlive ▸ hinv) nofun (fun q _ => ?_) fun q => .inl ?_
    all_goals
      rw [hslot]
      exact ⟨rfl, rfl⟩

section Steps

variable {b o : Nat} {ok : Bool}

theorem ShareInv.idle (h : ShareInv C s) (hb : b < s.nBlock) (hpc : (s.block b).pc ≠ .backend) : (s.block b).load ≠ .running :=
  fun e => hpc (h.running b hb e)

theorem ShareInv.leave (h : ShareInv C s) (hb : b < s.nBlock) (hgone : (s.block b).pc ≠ .gone)
    (hrun : (s.block b).load ≠ .running) :
    ShareInv C (s.setPc b .leaving) :=
  h.setPc hb hgone nofun (fun _ _ _ => nofun) (fun _ _ => nofun) hrun nofun fun _ => nofun

theorem ShareInv.take (h : ShareInv C s) (hs : shareStep C s (.take b) = some s') : ShareInv C s' := by
  unfold shareStep at hs
  dsimp only at hs
  split at hs
  · next hb =>
    split at hs
    · next hpc =>
      have hgone : (s.block b).pc ≠ .gone := by
        rw [hpc]
        nofun
      have hrun := h.idle hb (by rw [hpc]; nofun)
      split at hs
      · obtain rfl := Option.some.inj hs
        exact h.leave hb hgone hrun
      · obtain rfl := Option.some.inj hs
        cases hp : (s.block b).pos with
        | none =>
          rw [if_pos rfl]
          refine h.setPc hb hgone nofun (fun p hp' => ?_) (fun p hp' => ?_) hrun nofun fun _ => nofun
          · rw [hp] at hp'
            cases hp'
          · rw [hp] at hp'
            cases hp'
        | some p =>
          rw [if_neg nofun]
          exact h.setPc hb hgone nofun (fun _ _ _ => nofun) (fun _ _ => nofun) hrun nofun fun _ => nofun
    · next hpc =>
      obtain rfl := Option.some.inj hs
      exact h.setPc hb (by rw [hpc]; nofun) nofun (fun _ _ _ => nofun) (fun _ _ => nofun) (h.idle hb (by rw [hpc]; nofun)) nofun
        fun _ => nofun
    · cases hs
  · cases hs

/-- A look at the status returns what it sees, or goes on. -/
theorem ShareInv.see (h : ShareInv C s) (hb : b < s.nBlock) {p : Nat} (hp : (s.block b).pos = some p) {again : Bool} {next : Look}
    (hpc : (s.block b).pc = .look again next) {pc : BlockPc} (hgone : pc ≠ .gone)
    (hexp : ∀ st, pc.expects = some st → s.status p = st ∧ st ≠ .loading)
    (hback : pc ≠ .backend) : ShareInv C (s.setPc b pc) := by
  refine h.setPc hb (by rw [hpc]; nofun) hgone (fun q hq st hst => ?_) (fun q hq hst => ?_) (h.idle hb (by rw [hpc]; nofun)) hback
    fun hn => ?_
  · obtain rfl : p = q := Option.some.inj (hp.symm.trans hq)
    exact (hexp st hst).1
  · exact (hexp _ hst).2 rfl
  · rw [hp] at hn
    cases hn

theorem ShareInv.look (h : ShareInv C s) (hs : shareStep C s (.look b) = some s') : ShareInv C s' := by
  unfold shareStep at hs
  dsimp only at hs
  split at hs
  · next hb =>
    split at hs
    · next p again hp hpc =>
      obtain rfl := Option.some.inj hs
      by_cases hst : s.status p = .loaded
      · rw [if_pos hst]
        refine h.see hb hp hpc nofun (fun st e => ?_) nofun
        obtain rfl := Option.some.inj e
        exact ⟨hst, nofun⟩
      · rw [if_neg hst]
        exact h.see hb hp hpc nofun (fun _ => nofun) nofun
    · next p again hp hpc =>
      obtain rfl := Option.some.inj hs
      by_cases hst : s.status p = .failure
      · rw [if_pos hst]
        refine h.see hb hp hpc nofun (fun st e => ?_) nofun
        obtain rfl := Option.some.inj e
        exact ⟨hst, nofun⟩
      · rw [if_neg hst]
        exact h.see hb hp hpc nofun (fun _ => nofun) nofun
    · next p again hp hpc =>
      obtain rfl := Option.some.inj hs
      split
      · exact h.see hb hp hpc nofun (fun _ => nofun) nofun
      · exact h.see hb hp hpc nofun (fun _ => nofun) nofun
    · cases hs
  · cases hs

theorem ShareInv.lockSlot (h : ShareInv C s) (hs : shareStep C s (.lockSlot b) = some s') : ShareInv C s' := by
  unfold shareStep at hs
  dsimp only at hs
  split at hs
  · next hb =>
    split at hs
    · next p again hp hpc =>
      split at hs
      · next hi =>
        obtain rfl := Option.some.inj hs
        refine h.mark hb (by rw [hpc]; nofun) nofun (fun q hq b' hb' hq' he => ?_) (fun st e => ?_)
          (h.idle hb (by rw [hpc]; nofun)) nofun nofun
        · obtain rfl : p = q := Option.some.inj (hp.symm.trans hq)
          -- nobody expects anything of a slot in its first status
          cases hst : (s.block b').pc.expects with
          | none => exact absurd hst he
          | some st =>
            rw [← h.status b' hb' p hq' st hst, hi] at hst
            exact absurd hst (BlockPc.expects_ne_init _)
        · exact (Option.some.inj e).symm
      · obtain rfl := Option.some.inj hs
        exact h.see hb hp hpc nofun (fun _ => nofun) nofun
    · cases hs
  · cases hs

/-- The backend accepts the load of an owner. -/
theorem ShareInv.startLoad (h : ShareInv C s) (hb : b < s.nBlock) {again : Bool}
    (hpc : (s.block b).pc = .returned again .duplicateKey) :
    ShareInv C (s.startLoad b) := by
  have hl : (s.block b).pc.expects = some .loading := by
    rw [hpc]
    rfl
  refine h.move (x := { s.block b with pc := .backend, load := .running }) (t := s.table)
    (g := Function.update s.got b fun _ => false)
    ⟨rfl, rfl⟩ (by rw [hpc]; nofun) nofun h.table (fun _ => rfl) (fun b' hb' _ => h.status b' hb') (fun p hp st e => ?_)
    (fun _ b' p hb' hp hp' hl' => h.one b' b p hb' hb hp' hp hl' hl) (fun _ => rfl) (fun b' e => Function.update_of_ne e ..)
    (fun _ o hg => ?_) nofun (fun _ => nofun) h.loaded
  · obtain rfl := Option.some.inj e
    exact h.status b hb p hp _ hl
  · rw [Function.update_self] at hg
    cases hg

theorem ShareInv.handle (h : ShareInv C s) (hs : shareStep C s (.handle b ok) = some s') : ShareInv C s' := by
  unfold shareStep at hs
  dsimp only at hs
  split at hs
  · next hb =>
    split at hs
    · next again st hpc =>
      obtain rfl := Option.some.inj hs
      have hgone : (s.block b).pc ≠ .gone := by
        rw [hpc]
        nofun
      have hrun := h.idle hb (by rw [hpc]; nofun)
      have hleave := (h.leave hb hgone hrun).fail (Function.update s.failureSet (s.block b).taskHandle true)
      cases st with
      | ok =>
        have hcopy : ShareInv C (s.setPc b .copying) := by
          refine h.setPc hb hgone nofun (fun p hp st e => h.status b hb p hp st ?_) (fun _ _ => nofun) hrun nofun fun _ _ => ?_
          · rw [hpc]
            exact e
          · rw [hpc]
            rfl
        have hnext : ShareInv C (if s.failed b then s.setPc b .leaving else if ok then s.setPc b .copying
            else (s.fail b).setPc b .leaving) := by
          split
          · exact h.leave hb hgone hrun
          · split
            · exact hcopy
            · exact hleave
        cases again <;> exact hnext
      | error =>
        cases again with
        | true => exact hleave
        | false =>
          refine ShareInv.fail (s := (s.mark b .failure).setPc b .leaving) ?_ _
          refine h.mark hb hgone nofun (fun p hp b' hb' hp' he => .inr ⟨?_, rfl⟩) (fun _ => nofun) hrun nofun nofun
          have hf := h.status b hb p hp .failure (by rw [hpc]; rfl)
          cases hst : (s.block b').pc.expects with
          | none => exact absurd hst he
          | some st => rw [← h.status b' hb' p hp' st hst, hf]
      | duplicateKey =>
        cases again with
        | true => exact hleave
        | false =>
          cases ok with
          | true => exact h.startLoad hb hpc
          | false =>
            refine ShareInv.fail (s := (s.mark b .failure).setPc b .leaving) ?_ _
            exact h.mark hb hgone nofun (fun p hp b' hb' hp' he => h.owner hb (by rw [hpc]; rfl) .failure p hp b' hb' hp' he)
              (fun _ => nofun) hrun nofun nofun
    · cases hs
  · cases hs

theorem ShareInv.complete (h : ShareInv C s) (hok : Orderly C s (.complete b ok))
    (hs : shareStep C s (.complete b ok) = some s') :
    ShareInv C s' := by
  unfold shareStep at hs
  dsimp only at hs
  split at hs
  · next hb =>
    obtain ⟨hb, hpc⟩ := hb
    have hgone : (s.block b).pc ≠ .gone := by
      rw [hpc]
      nofun
    have hl : (s.block b).pc.expects = some .loading := by
      rw [hpc]
      rfl
    have hfail : (s.block b).load ≠ .running → ShareInv C ((s.mark b .failure).setPc b .leaving) := fun hrun =>
      h.mark hb hgone nofun (h.owner hb hl .failure) (fun _ => nofun) hrun nofun nofun
    split at hs
    · next hf =>
      obtain rfl := Option.some.inj hs
      exact hfail (hok (.inl hf))
    · split at hs
      · split at hs
        · next hend =>
          obtain rfl := Option.some.inj hs
          refine h.mark hb hgone nofun (h.owner hb hl .loaded) (fun st e => (Option.some.inj e).symm)
            (by rw [hend]; nofun) nofun fun _ o ho => ?_
          exact h.got b hb hpc o (h.all b hb hend o ho)
        · cases hs
      · next hf =>
        obtain rfl := Option.some.inj hs
        exact (hfail (hok (.inr (by simpa using hf)))).fail _
  · cases hs

theorem ShareInv.copied (h : ShareInv C s) (hs : shareStep C s (.copied b ok) = some s') : ShareInv C s' := by
  unfold shareStep at hs
  dsimp only at hs
  split at hs
  · next hb =>
    obtain ⟨hb, hpc⟩ := hb
    obtain rfl := Option.some.inj hs
    have hleave := h.leave hb (by rw [hpc]; nofun) (h.idle hb (by rw [hpc]; nofun))
    cases ok with
    | true => exact hleave
    | false => exact hleave.fail (Function.update s.failureSet (s.block b).taskHandle true)
  · cases hs

theorem ShareInv.endLoad (h : ShareInv C s) (hs : shareStep C s (.endLoad b ok) = some s') : ShareInv C s' := by
  unfold shareStep at hs
  dsimp only at hs
  split at hs
  · next hb =>
    obtain ⟨hb, hrun, hall⟩ := hb
    obtain rfl := Option.some.inj hs
    have hpc := h.running b hb hrun
    have hl : (s.block b).pc.expects = some .loading := by
      rw [hpc]
      rfl
    refine h.move (x := { s.block b with load := .ended ok }) (t := s.table) (g := s.got) ⟨rfl, rfl⟩ (by rw [hpc]; nofun)
      (by rw [hpc]; nofun)
      h.table (fun _ => rfl) (fun b' hb' _ => h.status b' hb') (h.status b hb)
      (fun _ b' p hb' hp hp' hl' => h.one b' b p hb' hb hp' hp hl' hl)
      nofun (fun _ _ => rfl) (fun _ => h.got b hb hpc) (fun e => hall ?_) (fun hn => h.priv b hb hn) h.loaded
    exact BackendLoad.ended.inj e
  · cases hs

theorem ShareInv.abandon (h : ShareInv C s) (hok : Orderly C s (.abandon b)) (hs : shareStep C s (.abandon b) = some s') :
    ShareInv C s' := by
  unfold shareStep at hs
  dsimp only at hs
  split at hs
  · next hb =>
    obtain ⟨hb, hpc⟩ := hb
    obtain rfl := Option.some.inj hs
    refine h.leave hb ?_ hok
    rcases hpc with hpc | hpc | hpc
    all_goals
      rw [hpc]
      nofun
  · cases hs

/-- The backend's bytes are the block's, and of no other block that has a load. -/
theorem ShareInv.written (h : ShareInv C s) (hb : b < s.nBlock) (hrun : (s.block b).load = .running) :
    ShareInv C (s.write C b o) := by
  have hpc := h.running b hb hrun
  have hl : ∀ b', (s.block b').pc = .backend → (s.block b').pc.expects = some .loading := by
    intro b' hpc'
    rw [hpc']
    rfl
  have hgot : ∀ (v : Nat → Byte), (∀ o', s.got b o' = true → v o' = C.backend (s.block b).shard o') →
      ∀ o', Function.update (s.got b) o true o' = true → Function.update v o (C.backend (s.block b).shard o) o' =
      C.backend (s.block b).shard o' := by
    intro v hv o' hg
    by_cases e : o' = o
    · rw [e, Function.update_self]
    · rw [Function.update_of_ne e]
      rw [Function.update_of_ne e] at hg
      exact hv o' hg
  have hall : ∀ b', b' < s.nBlock → (s.block b').load = .ended true → ∀ o', o' < C.blockSize →
      Function.update s.got b (Function.update (s.got b) o true) b' o' = true := by
    intro b' hb' hend o' ho
    by_cases e : b' = b
    · rw [e, hrun] at hend
      cases hend
    · rw [Function.update_of_ne e]
      exact h.all b' hb' hend o' ho
  unfold Share.write
  dsimp only
  cases hp : (s.block b).pos with
  | none =>
    refine ⟨h.table, h.held, h.status, h.one, h.running, fun b' hb' hpc' o' hg => ?_, hall,
      fun b' hb' hn hl' o' ho => ?_, h.loaded⟩
    · have hg : Function.update s.got b (Function.update (s.got b) o true) b' o' = true := hg
      by_cases e : b' = b
      · subst e
        rw [Function.update_self] at hg
        have hv := h.got b' hb' hpc
        rw [dataOf_private hp] at hv
        rw [dataOf_private (by exact hp)]
        show Function.update s.priv b' _ b' o' = _
        rw [Function.update_self]
        exact hgot _ hv o' hg
      · rw [Function.update_of_ne e] at hg
        refine Eq.trans ?_ (h.got b' hb' hpc' o' hg)
        unfold Share.dataOf
        cases hq : (s.block b').pos with
        | none => exact congrFun (Function.update_of_ne e ..) o'
        | some q => rfl
    · have hne : b' ≠ b := by
        intro e
        subst e
        have hl' : (s.block b').pc.expects = some .loaded := hl'
        rw [hl b' hpc] at hl'
        cases hl'
      show Function.update s.priv b _ b' o' = _
      rw [Function.update_of_ne hne]
      exact h.priv b' hb' hn hl' o' ho
  | some p =>
    refine ⟨h.table, h.held, h.status, h.one, h.running, fun b' hb' hpc' o' hg => ?_, hall, h.priv, fun q hq => ?_⟩
    · have hg : Function.update s.got b (Function.update (s.got b) o true) b' o' = true := hg
      by_cases e : b' = b
      · subst e
        rw [Function.update_self] at hg
        have hv := h.got b' hb' hpc
        rw [dataOf_shared hp] at hv
        rw [dataOf_shared (by exact hp)]
        show Function.update s.data p _ p o' = _
        rw [Function.update_self]
        exact hgot _ hv o' hg
      · rw [Function.update_of_ne e] at hg
        refine Eq.trans ?_ (h.got b' hb' hpc' o' hg)
        unfold Share.dataOf
        cases hq : (s.block b').pos with
        | none => rfl
        | some q =>
          have hne : q ≠ p := by
            intro e
            subst e
            exact e (h.one b' b q hb' hb hq hp (hl b' hpc') (hl b hpc))
          exact congrFun (Function.update_of_ne hne ..) o'
    · have hne : q ≠ p := by
        intro e
        subst e
        have hq : s.status q = .loaded := hq
        rw [h.status b hb q hp _ (hl b hpc)] at hq
        cases hq
      obtain ⟨k, hk, hd⟩ := h.loaded q hq
      refine ⟨k, hk, fun o' ho => ?_⟩
      show Function.update s.data p _ q o' = _
      rw [Function.update_of_ne hne]
      exact hd o' ho

/-- The reader is released. -/
theorem ShareInv.gone (h : ShareInv C s) (hpc : (s.block b).pc = .leaving) {t : Table Shard ShareBlockId ShareBlockStatus}
    (ht : TableInv C.probing (s.setPc b .gone).live t) (hkey : ∀ q, (t.slot q).key = (s.table.slot q).key)
    (hst : ∀ q, (t.slot q).status = (s.table.slot q).status) : ShareInv C { s.setPc b .gone with table := t } := by
  have hself : (s.setPc b .gone).block b = { s.block b with pc := .gone } := Function.update_self ..
  have hold : ∀ b', b' ≠ b → (s.setPc b .gone).block b' = s.block b' := fun b' e => Function.update_of_ne e ..
  have hfix : ∀ b', ((s.setPc b .gone).block b').pos = (s.block b').pos ∧
      ((s.setPc b .gone).block b').shard = (s.block b').shard ∧
      ((s.setPc b .gone).block b').load = (s.block b').load := by
    intro b'
    by_cases e : b' = b
    · rw [e, hself]
      exact ⟨rfl, rfl, rfl⟩
    · rw [hold b' e]
      exact ⟨rfl, rfl, rfl⟩
  -- what is not gone is as it was
  have hpcs : ∀ b', ((s.setPc b .gone).block b').pc ≠ .gone → ((s.setPc b .gone).block b').pc = (s.block b').pc := by
    intro b' hne
    by_cases e : b' = b
    · rw [e, hself] at hne
      exact absurd rfl hne
    · rw [hold b' e]
  have hexp : ∀ b' st, ((s.setPc b .gone).block b').pc.expects = some st → (s.block b').pc.expects = some st := by
    intro b' st e
    rwa [← hpcs b' (BlockPc.not_gone_of_expects e)]
  have hdata : ∀ b', Share.dataOf { s.setPc b .gone with table := t } b' = s.dataOf b' := by
    intro b'
    unfold Share.dataOf
    dsimp only
    rw [(hfix b').1]
    rfl
  refine ⟨ht, fun b' hb' ha p hp => ?_, fun b' hb' p hp st e => ?_, fun b' b'' p hb' hb'' hp hp' hl hl' => ?_,
    fun b' hb' hl => ?_,
    fun b' hb' hpc' o ho => ?_, fun b' hb' hl o ho => ?_, fun b' hb' hn hl o ho => ?_, fun p hp => ?_⟩
  · dsimp only at ha hp ⊢
    rw [hkey, (hfix b').2.1]
    rw [(hfix b').1] at hp
    exact h.held b' hb' (hpcs b' ha ▸ ha) p hp
  · show (t.slot p).status = st
    rw [hst]
    exact h.status b' hb' p ((hfix b').1.symm.trans hp) st (hexp b' st e)
  · exact h.one b' b'' p hb' hb'' ((hfix b').1.symm.trans hp) ((hfix b'').1.symm.trans hp') (hexp b' _ hl) (hexp b'' _ hl')
  · have hback := h.running b' hb' ((hfix b').2.2.symm.trans hl)
    have hne : b' ≠ b := by
      intro e
      subst e
      rw [hpc] at hback
      cases hback
    show ((s.setPc b .gone).block b').pc = .backend
    rw [hold b' hne]
    exact hback
  · rw [hdata]
    show s.dataOf b' o = C.backend ((s.setPc b .gone).block b').shard o
    rw [(hfix b').2.1]
    have hpc' : ((s.setPc b .gone).block b').pc = .backend := hpc'
    exact h.got b' hb' ((hpcs b' (by rw [hpc']; nofun)).symm.trans hpc') o ho
  · exact h.all b' hb' ((hfix b').2.2.symm.trans hl) o ho
  · show s.priv b' o = C.backend ((s.setPc b .gone).block b').shard o
    rw [(hfix b').2.1]
    exact h.priv b' hb' ((hfix b').1.symm.trans hn) (hexp b' _ hl) o ho
  · have hp : (t.slot p).status = .loaded := hp
    rw [hst] at hp
    dsimp only
    rw [hkey]
    exact h.loaded p hp

theorem ShareInv.release (h : ShareInv C s) (hs : shareStep C s (.release b) = some s') : ShareInv C s' := by
  unfold shareStep at hs
  dsimp only at hs
  split at hs
  · next hb =>
    obtain ⟨hb, hpc⟩ := hb
    split at hs
    · next p hp =>
      obtain rfl := Option.some.inj hs
      have hne : ∀ q, q ≠ p → (s.setPc b .gone).live q = s.live q := fun q hq => live_gone_of_ne fun e =>
        hq (Option.some.inj (hp.symm.trans e)).symm
      refine h.gone hpc (release_inv h.table (live_gone hb (by rw [hpc]; nofun) hp) hne) (fun q => ?_) fun q => ?_
      all_goals
        unfold Table.release
        by_cases e : q = p
        · rw [e, Table.setSlot_self]
        · rw [Table.setSlot_of_ne _ e]
    · next hp =>
      obtain rfl := Option.some.inj hs
      have hlive : (s.setPc b .gone).live = s.live := by
        funext q
        refine live_gone_of_ne fun e => ?_
        rw [hp] at e
        cases e
      exact h.gone (t := s.table) hpc (hlive ▸ h.table) (fun _ => rfl) fun _ => rfl
  · cases hs

end Steps

theorem step_shareInv (h : ShareInv C s) (hok : Orderly C s l) (hs : shareStep C s l = some s') : ShareInv C s' := by
  cases l with
  | lock k =>
    obtain ⟨t, ht, rfl⟩ := Option.map_eq_some_iff.mp hs
    refine h.scan (lock_inv h.table ⟨shard_used C.hasher k, fun p k' hp hk' he => key_injective (hok p k' hp hk' he)⟩ ht) ?_
    rw [lock_eq ht]
  | probe task => exact h.probe hs
  | timeout task =>
    obtain rfl := Option.some.inj hs
    exact h.fail _
  | take b => exact h.take hs
  | look b => exact h.look hs
  | lockSlot b => exact h.lockSlot hs
  | handle b ok => exact h.handle hs
  | write b o =>
    unfold shareStep at hs
    dsimp only at hs
    split at hs
    · next hb =>
      obtain rfl := Option.some.inj hs
      exact h.written hb.1 hb.2.1
    · cases hs
  | endLoad b ok => exact h.endLoad hs
  | complete b ok => exact h.complete hok hs
  | copied b ok => exact h.copied hs
  | abandon b => exact h.abandon hok hs
  | release b => exact h.release hs

theorem reach_shareInv (h : Reach (shareLoads C) (Orderly C) s) : ShareInv C s :=
  h.inv (I := ShareInv C) (fun _ h0 => init_shareInv h0) fun _ _ _ hi hok hs => step_shareInv hi hok hs

/-! ## What the buffer keeps -/

/-- The block has `OK` of `Ready4Read`, or the bytes of its own load. -/
def BlockPc.sees (pc : BlockPc) : Bool := pc.expects = some .loaded

/-- The block's reader, or its load, is outstanding. -/
def BlockTask.holds (x : BlockTask) (p : Nat) : Prop := (x.pc ≠ .gone ∨ x.load = .running) ∧ x.pos = some p

/-- The block is the owner that loads the slot. -/
def BlockTask.loads (x : BlockTask) (p : Nat) : Prop := (x.pc.expects = some .loading ∨ x.load = .running) ∧ x.pos = some p

/-- What the buffer promises in a state, and of the next step. -/
structure ServesOwn (C : ShareConfig Byte) (s : Share Byte) : Prop where
  /-- A block that has OK, or whose load ended well, sees its own shard's bytes. -/
  data : ∀ b, b < s.nBlock → (s.block b).pc.sees = true → ∀ o, o < C.blockSize → s.dataOf b o = C.backend (s.block b).shard o
  /-- A slot with a reader or a load keeps its id. -/
  kept : ∀ l s', shareStep C s l = some s' → ∀ b p, b < s.nBlock → (s.block b).holds p →
      (s'.table.slot p).id = (s.table.slot p).id
  /-- One block loads a slot. -/
  one_load : ∀ b b' p, b < s.nBlock → b' < s.nBlock → (s.block b).loads p → (s.block b').loads p → b = b'
  /-- The blocks of a slot are of one key. -/
  one_key : ∀ b b' p, b < s.nBlock → b' < s.nBlock → (s.block b).holds p → (s.block b').holds p →
      (s.block b).shard.key = (s.block b').shard.key

section Slots

variable {b p : Nat}

theorem mark_id (st : ShareBlockStatus) : ((s.mark b st).table.slot p).id = (s.table.slot p).id := by
  unfold Share.mark
  split
  · next q _ =>
    by_cases e : p = q
    · rw [e]
      exact (congrArg Slot.id (Table.setSlot_self q _)).trans rfl
    · exact congrArg Slot.id (Table.setSlot_of_ne _ e)
  · rfl

theorem handle_id {ok again : Bool} {st : ReadStatus} : ((s.handle b ok again st).table.slot p).id = (s.table.slot p).id := by
  cases again <;> cases st <;> unfold Share.handle <;> dsimp only
  · split
    · rfl
    · split <;> rfl
  · exact mark_id .failure
  · split
    · rfl
    · exact mark_id .failure
  · split
    · rfl
    · split <;> rfl
  · rfl
  · rfl

/-- A step leaves a slot's id, or it is a lookup's, which finds a slot. -/
theorem slot_step (h : ShareInv C s) (hs : shareStep C s l = some s') :
    (s'.table.slot p).id = (s.table.slot p).id ∨ ∃ k q, Found C.probing s.table k q s'.table := by
  cases l with
  | lock k =>
    obtain ⟨t, ht, rfl⟩ := Option.map_eq_some_iff.mp hs
    refine .inl ?_
    rw [lock_eq ht]
  | probe task =>
    obtain ⟨c, t, hc, hs | ⟨q, ht, rfl⟩ | ⟨ht, rfl⟩⟩ := probe_cases hs
    · obtain ⟨ht, rfl⟩ := hs
      exact .inl (congrArg Slot.id (congrFun (probe_goesOn h.table ht).2 p))
    · obtain ⟨hp, hne⟩ := live_found (s := s) t task c.key q
      obtain ⟨-, -, c', -, hf⟩ := probe_found h.table ht hp hne
      exact .inr ⟨c'.key, q, hf⟩
    · exact .inl (congrArg Slot.id (congrFun (probe_full h.table ht).2.1 p))
  | handle b ok =>
    unfold shareStep at hs
    dsimp only at hs
    split at hs
    · split at hs
      · obtain rfl := Option.some.inj hs
        exact .inl handle_id
      · cases hs
    · cases hs
  | lockSlot b =>
    unfold shareStep at hs
    dsimp only at hs
    split at hs
    · split at hs
      · split at hs
        · obtain rfl := Option.some.inj hs
          exact .inl (mark_id .loading)
        · obtain rfl := Option.some.inj hs
          exact .inl rfl
      · cases hs
    · cases hs
  | complete b ok =>
    unfold shareStep at hs
    dsimp only at hs
    split at hs
    · split at hs
      · obtain rfl := Option.some.inj hs
        exact .inl (mark_id .failure)
      · split at hs
        · split at hs
          · obtain rfl := Option.some.inj hs
            exact .inl (mark_id .loaded)
          · cases hs
        · obtain rfl := Option.some.inj hs
          exact .inl (mark_id .failure)
    · cases hs
  | release b =>
    unfold shareStep at hs
    dsimp only at hs
    split at hs
    · split at hs
      · next q _ =>
        obtain rfl := Option.some.inj hs
        refine .inl ?_
        show ((s.table.release q).slot p).id = _
        unfold Table.release
        by_cases e : p = q
        · rw [e, Table.setSlot_self]
        · rw [Table.setSlot_of_ne _ e]
      · obtain rfl := Option.some.inj hs
        exact .inl rfl
    · cases hs
  | write b o =>
    unfold shareStep at hs
    dsimp only at hs
    split at hs
    · obtain rfl := Option.some.inj hs
      refine .inl ?_
      unfold Share.write
      dsimp only
      split <;> rfl
    · cases hs
  | copied b ok =>
    unfold shareStep at hs
    dsimp only at hs
    split at hs
    · obtain rfl := Option.some.inj hs
      cases ok <;> exact .inl rfl
    · cases hs
  | _ =>
    unfold shareStep at hs
    dsimp only at hs
    repeat' split at hs
    all_goals first
      | (obtain rfl := Option.some.inj hs; exact .inl rfl)
      | cases hs

end Slots

theorem ShareInv.holds (h : ShareInv C s) {b p : Nat} (hb : b < s.nBlock) (hh : (s.block b).holds p) :
    (s.block b).pc ≠ .gone ∧ (s.block b).pos = some p ∧ (s.table.slot p).key = some (s.block b).shard := by
  obtain ⟨hout, hp⟩ := hh
  have hgone : (s.block b).pc ≠ .gone := by
    rcases hout with hgone | hrun
    · exact hgone
    · rw [h.running b hb hrun]
      nofun
  exact ⟨hgone, hp, (h.held b hb hgone p hp).2⟩

/-- A block that has OK, or whose load ended well, finds its own shard's bytes. -/
theorem ShareInv.served (h : ShareInv C s) {b o : Nat} (hb : b < s.nBlock) (hs : (s.block b).pc.expects = some .loaded)
    (ho : o < C.blockSize) :
    s.dataOf b o = C.backend (s.block b).shard o := by
  cases hp : (s.block b).pos with
  | none =>
    rw [dataOf_private hp]
    exact h.priv b hb hp hs o ho
  | some p =>
    rw [dataOf_shared hp]
    obtain ⟨k, hk, hd⟩ := h.loaded p (h.status b hb p hp _ hs)
    have hkey := (h.held b hb (BlockPc.not_gone_of_expects hs) p hp).2
    obtain rfl := Option.some.inj (hk.symm.trans hkey)
    exact hd o ho

theorem serves_own (h : Reach (shareLoads C) (Orderly C) s) : ServesOwn C s := by
  have hi := reach_shareInv h
  have hload : ∀ b p, b < s.nBlock → (s.block b).loads p → (s.block b).pc.expects = some .loading := by
    rintro b p hb ⟨hl | hrun, -⟩
    · exact hl
    · rw [hi.running b hb hrun]
      rfl
  refine ⟨fun b hb hs o ho => ?_, fun l s' hs b p hb hh => ?_, fun b b' p hb hb' hl hl' => ?_, fun b b' p hb hb' hh hh' => ?_⟩
  · exact hi.served hb (of_decide_eq_true hs) ho
  · obtain ⟨hgone, hp, -⟩ := hi.holds hb hh
    rcases slot_step hi hs (p := p) with hkeep | ⟨k, q, hf⟩
    · exact hkeep
    · exact (hf.same (hi.ref_ne hb hgone hp)).2.1
  · exact hi.one b b' p hb hb' hl.2 hl'.2 (hload b p hb hl) (hload b' p hb' hl')
  · have hk := (hi.holds hb hh).2.2
    rw [(hi.holds hb' hh').2.2] at hk
    rw [Option.some.inj hk]

/-! ## Runs -/

/-- Every lookup begins at the first slot; the backend has a shard's number in its bytes. -/
def numbered (blockNumber : Nat) (h : 0 < blockNumber) : ShareConfig Nat :=
  ⟨blockNumber, h, fun _ => 0, 1, fun k _ => 10 * (k.owner 0).toNat + k.index⟩

def emptyShare : Share Nat :=
  ⟨⟨fun _ => ⟨⟨0, 0⟩, 0, .init, none⟩, none⟩, fun _ => false, 0, fun _ => ⟨0, ⟨0, 0⟩, none, .gone, .none⟩,
    fun _ _ => 0, fun _ _ => 0,
    fun _ _ => false⟩

theorem emptyShare_isInit : emptyShare.IsInit := ⟨fun _ => rfl, rfl, rfl⟩

def orderlyCheck (C : ShareConfig Nat) (s : Share Nat) : ShareLabel → Bool
  | .lock k => (List.range C.blockNumber).all fun p =>
      match (s.table.slot p).key with
      | some k' => ShareBlockId.set C.hasher k'.key ≠ ShareBlockId.set C.hasher k.key || k'.key = k.key
      | none => true
  | .complete b ok => !(s.failed b || !ok) || (s.block b).load ≠ .running
  | .abandon b => (s.block b).load ≠ .running
  | _ => true

theorem orderlyCheck_ok {C : ShareConfig Nat} {s : Share Nat} {l : ShareLabel} (h : orderlyCheck C s l = true) :
    Orderly C s l := by
  cases l with
  | lock k =>
    intro p k' hp hk he
    have hall := List.all_eq_true.mp h p (List.mem_range.mpr hp)
    simp only [hk, Bool.or_eq_true, decide_eq_true_eq] at hall
    exact hall.resolve_left fun hne => hne he
  | complete b ok =>
    intro hf
    have h : (!(s.failed b || !ok) || decide ((s.block b).load ≠ .running)) = true := h
    rcases hf with hf | hf
    all_goals
      rw [hf] at h
      simpa using h
  | abandon b =>
    show (s.block b).load ≠ .running
    exact of_decide_eq_true h
  | _ => trivial

/-- The owner of a shard and a block of another process that waits for it; then the slot is taken over for another shard. -/
def sharedLoadTrace : List ShareLabel :=
  [.lock ⟨0, 3⟩, .probe 1, .lock ⟨0, 3⟩, .probe 2, .take 0, .look 0, .look 0, .look 0, .lockSlot 0, .handle 0 true,
    .take 1, .look 1, .look 1, .look 1, .write 0 0, .endLoad 0 true, .complete 0 true, .take 1, .look 1,
    .copied 0 true, .release 0, .handle 1 true]

theorem serves_own_shared : ∃ s : Share Nat, (s.block 1).pc = .copying ∧ s.data 0 0 = 3 ∧
    ServesOwn (numbered 2 (by decide)) s := by
  obtain ⟨s, hr, hs⟩ := exists_of_replayOk (S := shareLoads (numbered 2 (by decide))) (orderlyCheck (numbered 2 (by decide)))
      (fun _ _ => orderlyCheck_ok)
    sharedLoadTrace (s := emptyShare) (p := fun s => decide ((s.block 1).pc = .copying ∧ s.data 0 0 = 3))
    emptyShare_isInit (by decide)
  obtain ⟨hpc, hd⟩ := of_decide_eq_true hs
  exact ⟨s, hpc, hd, serves_own hr⟩

/-- The keys of a block's shards begin alike: a block of the second shard finds the slot of the first loaded. -/
theorem shards_share_slot : ∃ s : Share Nat, Reach (shareLoads (numbered 2 (by decide))) Any s ∧ (s.block 1).shard = ⟨0, 1⟩ ∧
    (s.block 1).pc = .returned false .ok ∧ s.dataOf 1 0 = 0 ∧ (numbered 2 (by decide)).backend (s.block 1).shard 0 = 1 ∧
    ¬ServesOwn (numbered 2 (by decide)) s := by
  obtain ⟨s, hr, hs⟩ := exists_of_replay (S := shareLoads (numbered 2 (by decide)))
    [.lock ⟨0, 0⟩, .probe 1, .take 0, .look 0, .look 0, .look 0, .lockSlot 0, .handle 0 true, .write 0 0, .endLoad 0 true,
      .complete 0 true,
      .lock ⟨0, 1⟩, .probe 1, .take 1, .look 1] (s := emptyShare)
    (p := fun s => decide (1 < s.nBlock ∧ (s.block 1).shard.owner = 0 ∧ (s.block 1).shard.index = 1 ∧
      (s.block 1).pc = .returned false .ok ∧
      s.dataOf 1 0 = 0)) emptyShare_isInit (by decide)
  obtain ⟨hlt, howner, hindex, hpc, hd⟩ := of_decide_eq_true hs
  have hshard : (s.block 1).shard = ⟨0, 1⟩ := Shard.ext howner hindex
  refine ⟨s, hr, hshard, hpc, hd, by rw [hshard]; decide, fun hsafe => ?_⟩
  have hown := hsafe.data 1 hlt (by rw [hpc]; decide) 0 (by decide)
  rw [hd, hshard] at hown
  exact absurd hown (by decide)

/-- A block whose task has been marked failed leaves its load running; the slot is taken over, and the load writes into it. -/
theorem load_outlives_block : ∃ s : Share Nat, Reach (shareLoads (numbered 1 (by decide))) Any s ∧ (s.block 0).load = .running ∧
    (s.block 1).shard = ⟨1, 0⟩ ∧ (s.block 1).pc = .copying ∧ s.dataOf 1 0 = 0 ∧
    (numbered 1 (by decide)).backend (s.block 1).shard 0 = 10 := by
  obtain ⟨s, hr, hs⟩ := exists_of_replay (S := shareLoads (numbered 1 (by decide)))
    [.lock ⟨0, 0⟩, .probe 1, .take 0, .look 0, .look 0, .look 0, .lockSlot 0, .handle 0 true, .timeout 1,
      .complete 0 true, .release 0,
      .lock ⟨1, 0⟩, .probe 2, .probe 2, .take 1, .look 1, .look 1, .look 1, .lockSlot 1, .handle 1 true, .write 1 0,
      .endLoad 1 true,
      .complete 1 true, .write 0 0] (s := emptyShare)
    (p := fun s => decide ((s.block 0).load = .running ∧ (s.block 1).shard.owner = 1 ∧ (s.block 1).shard.index = 0 ∧
      (s.block 1).pc = .copying ∧ s.dataOf 1 0 = 0)) emptyShare_isInit (by decide)
  obtain ⟨hrun, howner, hindex, hpc, hd⟩ := of_decide_eq_true hs
  have hshard : (s.block 1).shard = ⟨1, 0⟩ := Shard.ext howner hindex
  exact ⟨s, hr, hrun, hshard, hpc, hd, by rw [hshard]; decide⟩

end UnifiedCache.Mooncake
