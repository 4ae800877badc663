/-
  UnifiedCache.PcStore.ShareReads — the readers of the shared read buffer
  (see `UnifiedCache.PcStore.ShareBuffer`).

  In the runs in which no reader is made for the all-zero id, which also marks the unused slots
  (`shared_reads`): a key has one slot at most, which keeps it while a reader is on it; a slot's
  count is its readers; the file is read into a slot once a round, and again after a round that
  failed when all its readers are gone; a call that returned OK has the data of its own block, and
  a reader gets a private buffer only where every slot had readers when its lookup began.

  `zero_id_rekeyed`: with the all-zero id, a slot changes its key under a reader.
-/

import UnifiedCache.PcStore.ShareBuffer

namespace UnifiedCache.PcStore

open UnifiedCache.Base

variable {Byte : Type} {C : ShareConfig Byte} {s s' : Share Byte} {l : ShareLabel}

/-- No reader is made for the all-zero id. -/
def NonZero (_ : Share Byte) : ShareLabel → Prop
  | .lock k => k ≠ ⟨0, 0⟩
  | _ => True

/-! ## The readers of a slot -/

/-- How many readers a slot has. -/
def Share.live (s : Share Byte) (p : Nat) :
    Nat := Nat.count (fun r => (s.reader r).alive = true ∧ (s.reader r).pos = some p) s.nReader

section Live

variable {r p q : Nat}

theorem live_addReader (t : Table ShareBlockId ShareBlockId Round) (k : ShareBlockId) (pos : Option Nat) (q : Nat) :
    (s.addReader t k pos).live q = s.live q + if pos = some q then 1 else 0 := by
  unfold Share.live
  show Nat.count (fun r => (Function.update s.reader s.nReader ⟨k, pos, true⟩ r).alive = true ∧
    (Function.update s.reader s.nReader ⟨k, pos, true⟩ r).pos = some q) (s.nReader + 1) = _
  rw [Nat.count_succ, Function.update_self]
  congr 1
  · exact tally_congr fun r hr => by rw [Function.update_of_ne (by omega)]
  · simp

theorem live_pos (hr : r < s.nReader) (ha : (s.reader r).alive = true) (hp : (s.reader r).pos = some p) : 0 < s.live p :=
  tally_pos hr ⟨ha, hp⟩

/-- The readers without one of them. -/
def Share.kill (s : Share Byte) (r : Nat) : Share Byte :=
  { s with reader := Function.update s.reader r { s.reader r with alive := false } }

theorem live_kill (hr : r < s.nReader) (ha : (s.reader r).alive = true) (hp : (s.reader r).pos = some p) :
    s.live p = (s.kill r).live p + 1 := by
  refine tally_drop hr ⟨ha, hp⟩ ?_ fun r' _ hne => ?_
  · show ¬((Function.update s.reader r { s.reader r with alive := false } r).alive = true ∧ _)
    rw [Function.update_self]
    exact fun h => absurd h.1 nofun
  · show _ ↔ (Function.update s.reader r { s.reader r with alive := false } r').alive = true ∧
      (Function.update s.reader r { s.reader r with alive := false } r').pos = some p
    rw [Function.update_of_ne hne]

theorem live_kill_of_ne (hp : (s.reader r).pos ≠ some q) : (s.kill r).live q = s.live q := by
  refine tally_congr fun r' _ => ?_
  show (Function.update s.reader r { s.reader r with alive := false } r').alive = true ∧
    (Function.update s.reader r { s.reader r with alive := false } r').pos = some q ↔ _
  by_cases e : r' = r
  · subst e
    rw [Function.update_self]
    exact ⟨fun h => absurd h.2 hp, fun h => absurd h.2 hp⟩
  · rw [Function.update_of_ne e]

end Live

/-! ## The invariant -/

structure ShareInv (C : ShareConfig Byte) (s : Share Byte) : Prop where
  table : TableInv C.probing s.live s.table
  held : ∀ r, r < s.nReader → (s.reader r).alive = true → ∀ p, (s.reader r).pos = some p →
    p < C.blockNumber ∧ (s.table.slot p).key = some (s.reader r).key
  call_lt : ∀ c, c < s.nCall → (s.call c).reader < s.nReader
  alive : ∀ c, c < s.nCall → (s.call c).pc.over = false → (s.of c).alive = true
  priv : ∀ c, c < s.nCall → (s.of c).pos = none → (s.call c).pc.loads = true ∨ (s.call c).pc.over = true
  loading : ∀ c, c < s.nCall → (s.call c).pc.loads = true → ∀ p, (s.of c).pos = some p → s.status p = .loading
  one : ∀ c c' p, c < s.nCall → c' < s.nCall → (s.call c).pc.loads = true → (s.call c').pc.loads = true →
    (s.of c).pos = some p → (s.of c').pos = some p → c = c'
  got : ∀ c, c < s.nCall → (s.call c).pc.loads = true → ∀ o, s.got c o = true →
      s.dataOf (s.call c).reader o = C.file (s.of c).key o
  all : ∀ c, c < s.nCall → (s.call c).pc = .read true → ∀ o, o < C.length → s.got c o = true
  ok : ∀ c, c < s.nCall → (s.call c).pc = .returned .ok → (s.of c).alive = true → ∀ p, (s.of c).pos = some p →
      s.status p = .loaded
  okPriv : ∀ c, c < s.nCall → (s.call c).pc = .returned .ok → (s.of c).pos = none → ∀ o, o < C.length →
    s.priv (s.call c).reader o = C.file (s.of c).key o
  loaded : ∀ p, s.status p = .loaded → ∃ k, (s.table.slot p).key = some k ∧ ∀ o, o < C.length → s.data p o = C.file k o
  reads : ∀ p, (s.status p = .init → (s.table.slot p).status.reads = 0) ∧ (s.table.slot p).status.reads ≤ 1

/-- A lookup goes on. -/
theorem ShareInv.scan (h : ShareInv C s) {t : Table ShareBlockId ShareBlockId Round} (ht : TableInv C.probing s.live t)
    (hs : t.slot = s.table.slot) : ShareInv C { s with table := t } := by
  obtain ⟨slot, scan⟩ := t
  obtain rfl : slot = s.table.slot := hs
  exact ⟨ht, h.held, h.call_lt, h.alive, h.priv, h.loading, h.one, h.got, h.all, h.ok, h.okPriv, h.loaded, h.reads⟩

theorem ShareInv.ref_ne (h : ShareInv C s) {r p : Nat} (hr : r < s.nReader) (ha : (s.reader r).alive = true)
    (hp : (s.reader r).pos = some p) : (s.table.slot p).ref ≠ 0 := by
  rw [h.table.slots.ref p]
  have := live_pos hr ha hp
  omega

/-- A lookup ends, and its reader is made. -/
theorem ShareInv.addReader (h : ShareInv C s) {t : Table ShareBlockId ShareBlockId Round} {k : ShareBlockId} {pos : Option Nat}
    (ht : TableInv C.probing (s.addReader t k pos).live t)
    (hpos : ∀ p, pos = some p → p < C.blockNumber ∧ (t.slot p).key = some k)
    (hsame : ∀ q, (s.table.slot q).ref ≠ 0 → (t.slot q).key = (s.table.slot q).key ∧ (t.slot q).status = (s.table.slot q).status)
    (hchange : ∀ q, (t.slot q).key = (s.table.slot q).key ∧ (t.slot q).status = (s.table.slot q).status ∨
      (t.slot q).status = ⟨.init, 0⟩) :
    ShareInv C (s.addReader t k pos) := by
  have hold : ∀ r, r < s.nReader → (s.addReader t k pos).reader r = s.reader r := fun r hr => Function.update_of_ne (by omega) ..
  have hof : ∀ c, c < s.nCall → (s.addReader t k pos).of c = s.of c := fun c hc => hold _ (h.call_lt c hc)
  have hheld : ∀ c p, c < s.nCall → (s.of c).alive = true → (s.of c).pos = some p → (t.slot p).status = (s.table.slot p).status :=
    fun c p hc ha hp => (hsame p (h.ref_ne (h.call_lt c hc) ha hp)).2
  have hdata : ∀ c, c < s.nCall → (s.addReader t k pos).dataOf (s.call c).reader = s.dataOf (s.call c).reader := by
    intro c hc
    unfold Share.dataOf
    rw [hold _ (h.call_lt c hc)]
    rfl
  refine ⟨ht, fun r hr ha p hp => ?_, fun c hc => ?_, fun c hc ho => ?_, fun c hc hn => ?_, fun c hc hl p hp => ?_,
    fun c c' p hc hc' hl hl' hp hp' => ?_, fun c hc hl o hg => ?_, h.all, fun c hc ho ha p hp => ?_, fun c hc ho hn o hlt => ?_,
    fun p hp => ?_, fun p => ?_⟩
  · by_cases e : r = s.nReader
    · have hnew : (s.addReader t k pos).reader r = ⟨k, pos, true⟩ := by
        rw [e]
        exact Function.update_self ..
      rw [hnew] at hp ⊢
      exact hpos p hp
    · have hlt : r < s.nReader := by
        have : r < s.nReader + 1 := hr
        omega
      rw [hold r hlt] at ha hp ⊢
      rw [show (s.addReader t k pos).table.slot p = t.slot p from rfl, (hsame p (h.ref_ne hlt ha hp)).1]
      exact h.held r hlt ha p hp
  · exact Nat.lt_succ_of_lt (h.call_lt c hc)
  · rw [hof c hc]
    exact h.alive c hc ho
  · rw [hof c hc] at hn
    exact h.priv c hc hn
  · rw [hof c hc] at hp
    have hover : (s.call c).pc.over = false := by
      have hl : (s.call c).pc.loads = true := hl
      cases hpc : (s.call c).pc <;> rw [hpc] at hl <;> first | rfl | cases hl
    show (t.slot p).status.status = _
    rw [hheld c p hc (h.alive c hc hover) hp]
    exact h.loading c hc hl p hp
  · rw [hof c hc] at hp
    rw [hof c' hc'] at hp'
    exact h.one c c' p hc hc' hl hl' hp hp'
  · rw [hof c hc]
    refine (congrFun (hdata c hc) o).trans ?_
    exact h.got c hc hl o hg
  · rw [hof c hc] at ha hp
    show (t.slot p).status.status = _
    rw [hheld c p hc ha hp]
    exact h.ok c hc ho ha p hp
  · rw [hof c hc] at hn ⊢
    exact h.okPriv c hc ho hn o hlt
  · have hp : (t.slot p).status.status = .loaded := hp
    rcases hchange p with ⟨hk, hst⟩ | hi
    · rw [hst] at hp
      obtain ⟨k', hk', hb⟩ := h.loaded p hp
      exact ⟨k', hk.trans hk', hb⟩
    · rw [hi] at hp
      cases hp
  · show ((t.slot p).status.status = .init → (t.slot p).status.reads = 0) ∧ (t.slot p).status.reads ≤ 1
    rcases hchange p with ⟨-, hst⟩ | hi
    · rw [hst]
      exact h.reads p
    · rw [hi]
      exact ⟨fun _ => rfl, Nat.zero_le _⟩

section Calls

variable {c p : Nat} {pc : CallPc}

/-- A call goes on, or returns. -/
theorem ShareInv.setPc (h : ShareInv C s) (hc : c < s.nCall) (hold : (s.call c).pc.over = false)
    (hpriv : (s.of c).pos = none → pc.loads = true ∨ pc.over = true) (hl : pc.loads = true → (s.call c).pc.loads = true)
    (hall : pc = .read true → ∀ o, o < C.length → s.got c o = true) (hok : pc = .returned .ok →
      (∀ p, (s.of c).pos = some p → s.status p = .loaded) ∧
        ((s.of c).pos = none → ∀ o, o < C.length → s.priv (s.call c).reader o = C.file (s.of c).key o)) :
    ShareInv C (s.setPc c pc) := by
  have hself : (s.setPc c pc).call c = { s.call c with pc } := Function.update_self ..
  have hne : ∀ c', c' ≠ c → (s.setPc c pc).call c' = s.call c' := fun c' e => Function.update_of_ne e ..
  have hreader : ∀ c', ((s.setPc c pc).call c').reader = (s.call c').reader := by
    intro c'
    by_cases e : c' = c
    · rw [e, hself]
    · rw [hne c' e]
  have hof : ∀ c', (s.setPc c pc).of c' = s.of c' := fun c' => congrArg s.reader (hreader c')
  have hloads : ∀ c', ((s.setPc c pc).call c').pc.loads = true → (s.call c').pc.loads = true := by
    intro c' hl'
    by_cases e : c' = c
    · rw [e, hself] at hl'
      rw [e]
      exact hl hl'
    · rwa [hne c' e] at hl'
  refine ⟨h.table, h.held, fun c' hc' => ?_, fun c' hc' ho => ?_, fun c' hc' hn => ?_, fun c' hc' hl' p hp => ?_,
    fun c' c'' p hc' hc'' hl' hl'' hp hp' => ?_, fun c' hc' hl' o hg => ?_, fun c' hc' hr o hlt => ?_,
    fun c' hc' hr ha p hp => ?_,
    fun c' hc' hr hn o hlt => ?_, h.loaded, h.reads⟩
  · rw [hreader]
    exact h.call_lt c' hc'
  · rw [hof]
    by_cases e : c' = c
    · rw [e]
      exact h.alive c hc hold
    · rw [hne c' e] at ho
      exact h.alive c' hc' ho
  · rw [hof] at hn
    by_cases e : c' = c
    · rw [e] at hn ⊢
      rw [hself]
      exact hpriv hn
    · rw [hne c' e]
      exact h.priv c' hc' hn
  · rw [hof] at hp
    exact h.loading c' hc' (hloads c' hl') p hp
  · rw [hof] at hp hp'
    exact h.one c' c'' p hc' hc'' (hloads c' hl') (hloads c'' hl'') hp hp'
  · rw [hof, hreader]
    exact h.got c' hc' (hloads c' hl') o hg
  · by_cases e : c' = c
    · rw [e] at hr ⊢
      rw [hself] at hr
      exact hall hr o hlt
    · rw [hne c' e] at hr
      exact h.all c' hc' hr o hlt
  · rw [hof] at ha hp
    by_cases e : c' = c
    · rw [e] at hr hp
      rw [hself] at hr
      exact (hok hr).1 p hp
    · rw [hne c' e] at hr
      exact h.ok c' hc' hr ha p hp
  · rw [hof] at hn ⊢
    rw [hreader]
    by_cases e : c' = c
    · rw [e] at hr hn ⊢
      rw [hself] at hr
      exact (hok hr).2 hn o hlt
    · rw [hne c' e] at hr
      exact h.okPriv c' hc' hr hn o hlt

/-- The loading of a slot begins or ends. -/
theorem ShareInv.round (h : ShareInv C s) (hc : c < s.nCall) (hold : (s.call c).pc.over = false) (hp : (s.of c).pos = some p)
    (hst : s.status p = .init ∨ (s.call c).pc.loads = true) {r : Round} {got : Nat → Nat → Bool}
    (hgot : ∀ c', c' ≠ c → got c' = s.got c')
    (hl : pc.loads = true → r.status = .loading ∧ ∀ o, got c o = false) (hread : pc ≠ .read true)
    (hok : pc = .returned .ok → r.status = .loaded) (hloaded : r.status = .loaded → ∀ o, o < C.length →
      s.data p o = C.file (s.of c).key o)
    (hr : (r.status = .init → r.reads = 0) ∧ r.reads ≤ 1) : ShareInv C { (s.setStatus p r).setPc c pc with got } := by
  have ha := h.alive c hc hold
  obtain ⟨-, hkey⟩ := h.held _ (h.call_lt c hc) ha p hp
  have hnl : s.status p ≠ .loaded := by
    rcases hst with hi | hl
    · rw [hi]
      nofun
    · rw [h.loading c hc hl p hp]
      nofun
  -- no other call loads the slot
  have hother : ∀ c', c' < s.nCall → (s.call c').pc.loads = true → (s.of c').pos = some p → c' = c := by
    intro c' hc' hl' hp'
    rcases hst with hi | hl
    · have := h.loading c' hc' hl' p hp'
      rw [hi] at this
      cases this
    · exact h.one c' c p hc' hc hl' hl hp' hp
  have hself : Share.call { (s.setStatus p r).setPc c pc with got } c = { s.call c with pc } := Function.update_self ..
  have hne : ∀ c', c' ≠ c → Share.call { (s.setStatus p r).setPc c pc with got } c' = s.call c' :=
      fun c' e => Function.update_of_ne e ..
  have hreader : ∀ c', (Share.call { (s.setStatus p r).setPc c pc with got } c').reader = (s.call c').reader := by
    intro c'
    by_cases e : c' = c
    · rw [e, hself]
    · rw [hne c' e]
  have hof : ∀ c', Share.of { (s.setStatus p r).setPc c pc with got } c' = s.of c' := fun c' => congrArg s.reader (hreader c')
  have hkeys : ∀ q, ((s.setStatus p r).table.slot q).key = (s.table.slot q).key := by
    intro q
    by_cases e : q = p
    · rw [e]
      exact (congrArg Slot.key (Table.setSlot_self p _)).trans rfl
    · exact congrArg Slot.key (Table.setSlot_of_ne _ e)
  have hstatus : ∀ q, q ≠ p → (s.setStatus p r).table.slot q = s.table.slot q := fun q e => Table.setSlot_of_ne _ e
  have hstatus' : ((s.setStatus p r).table.slot p).status = r := congrArg Slot.status (Table.setSlot_self ..)
  refine ⟨setStatus_inv h.table p r, fun r' hr' ha' q hq => ?_, fun c' hc' => ?_, fun c' hc' ho => ?_, fun c' hc' hn => ?_,
    fun c' hc' hl' q hq => ?_, fun c' c'' q hc' hc'' hl' hl'' hq hq' => ?_, fun c' hc' hl' o hg => ?_, fun c' hc' hr' o hlt => ?_,
    fun c' hc' hr' ha' q hq => ?_, fun c' hc' hr' hn o hlt => ?_, fun q hq => ?_, fun q => ?_⟩
  · show q < _ ∧ ((s.setStatus p r).table.slot q).key = _
    rw [hkeys]
    exact h.held r' hr' ha' q hq
  · exact (hreader c').trans_lt (h.call_lt c' hc')
  · rw [hof]
    by_cases e : c' = c
    · rw [e]
      exact ha
    · rw [hne c' e] at ho
      exact h.alive c' hc' ho
  · rw [hof] at hn
    by_cases e : c' = c
    · rw [e, hp] at hn
      cases hn
    · rw [hne c' e]
      exact h.priv c' hc' hn
  · rw [hof] at hq
    show ((s.setStatus p r).table.slot q).status.status = _
    by_cases e : c' = c
    · rw [e] at hl' hq
      rw [hp, Option.some.injEq] at hq
      subst hq
      rw [hself] at hl'
      rw [hstatus']
      exact (hl hl').1
    · rw [hne c' e] at hl'
      have hqp : q ≠ p := by
        intro e
        subst e
        exact e (hother c' hc' hl' hq)
      rw [hstatus q hqp]
      exact h.loading c' hc' hl' q hq
  · rw [hof] at hq hq'
    by_cases e : c' = c <;> by_cases e' : c'' = c
    · rw [e, e']
    · rw [hne c'' e'] at hl''
      rw [e, hp, Option.some.injEq] at hq
      exact absurd (hother c'' hc'' hl'' (hq ▸ hq')) e'
    · rw [hne c' e] at hl'
      rw [e', hp, Option.some.injEq] at hq'
      exact absurd (hother c' hc' hl' (hq' ▸ hq)) e
    · rw [hne c' e] at hl'
      rw [hne c'' e'] at hl''
      exact h.one c' c'' q hc' hc'' hl' hl'' hq hq'
  · rw [hof, hreader]
    have hg : got c' o = true := hg
    by_cases e : c' = c
    · rw [e] at hl' hg
      rw [hself] at hl'
      rw [(hl hl').2 o] at hg
      cases hg
    · rw [hne c' e] at hl'
      rw [hgot c' e] at hg
      exact h.got c' hc' hl' o hg
  · show got c' o = true
    by_cases e : c' = c
    · rw [e, hself] at hr'
      exact absurd hr' hread
    · rw [hne c' e] at hr'
      rw [hgot c' e]
      exact h.all c' hc' hr' o hlt
  · rw [hof] at ha' hq
    show ((s.setStatus p r).table.slot q).status.status = _
    by_cases e : c' = c
    · rw [e] at hq hr'
      rw [hp, Option.some.injEq] at hq
      subst hq
      rw [hself] at hr'
      rw [hstatus']
      exact hok hr'
    · rw [hne c' e] at hr'
      have hq' := h.ok c' hc' hr' ha' q hq
      have hqp : q ≠ p := by
        intro e
        subst e
        exact hnl hq'
      rw [hstatus q hqp]
      exact hq'
  · rw [hof] at hn ⊢
    rw [hreader]
    by_cases e : c' = c
    · rw [e, hp] at hn
      cases hn
    · rw [hne c' e] at hr'
      exact h.okPriv c' hc' hr' hn o hlt
  · have hq : ((s.setStatus p r).table.slot q).status.status = .loaded := hq
    show ∃ k, ((s.setStatus p r).table.slot q).key = some k ∧ _
    rw [hkeys]
    by_cases e : q = p
    · rw [e, hstatus'] at hq
      rw [e]
      exact ⟨_, hkey, hloaded hq⟩
    · rw [hstatus q e] at hq
      exact h.loaded q hq
  · show (((s.setStatus p r).table.slot q).status.status = .init → ((s.setStatus p r).table.slot q).status.reads = 0) ∧
      ((s.setStatus p r).table.slot q).status.reads ≤ 1
    by_cases e : q = p
    · rw [e, hstatus']
      exact hr
    · rw [hstatus q e]
      exact h.reads q

/-- The read moves a byte to a slot. -/
theorem ShareInv.copyShared (h : ShareInv C s) (hc : c < s.nCall) (hpc : (s.call c).pc = .reading) {o : Nat}
    (hp : (s.of c).pos = some p) : ShareInv C (s.copy C c o) := by
  have hl : (s.call c).pc.loads = true := by
    rw [hpc]
    rfl
  have hs : s.copy C c o =
      { s with
        got := Function.update s.got c (Function.update (s.got c) o true)
        data := Function.update s.data p (Function.update (s.data p) o (C.file (s.of c).key o)) } := by
    have hp : (s.reader (s.call c).reader).pos = some p := hp
    simp only [Share.copy, Share.of, hp]
  rw [hs]
  have hloading := h.loading c hc hl p hp
  refine ⟨h.table, h.held, h.call_lt, h.alive, h.priv, h.loading, h.one, fun c' hc' hl' o' hg => ?_,
    fun c' hc' hr o' hlt => ?_, h.ok,
    h.okPriv, fun q hq => ?_, h.reads⟩
  · have hg : Function.update s.got c (Function.update (s.got c) o true) c' o' = true := hg
    by_cases e : c' = c
    · subst e
      have hd : ∀ d : Nat → Nat → Byte, Share.dataOf { s with data := d } (s.call c').reader = d p := fun d => by
        unfold Share.dataOf
        rw [show (s.reader (s.call c').reader).pos = some p from hp]
      have hold := h.got c' hc hl o'
      rw [show s.dataOf (s.call c').reader = s.data p from hd s.data] at hold
      refine (congrFun (hd _) o').trans ?_
      rw [Function.update_self]
      by_cases eo : o' = o
      · rw [eo, Function.update_self]
        rfl
      · rw [Function.update_of_ne eo]
        rw [Function.update_self, Function.update_of_ne eo] at hg
        exact hold hg
    · rw [Function.update_of_ne e] at hg
      refine Eq.trans ?_ (h.got c' hc' hl' o' hg)
      unfold Share.dataOf
      cases hq : (s.reader (s.call c').reader).pos with
      | none => rfl
      | some q =>
        have hqp : q ≠ p := by
          intro e
          subst e
          exact e (h.one c' c q hc' hc hl' hl hq hp)
        exact congrFun (Function.update_of_ne hqp ..) o'
  · show Function.update s.got c (Function.update (s.got c) o true) c' o' = true
    by_cases e : c' = c
    · rw [e] at hr
      have hr : (s.call c).pc = .read true := hr
      rw [hpc] at hr
      cases hr
    · rw [Function.update_of_ne e]
      exact h.all c' hc' hr o' hlt
  · have hqp : q ≠ p := by
      intro e
      subst e
      rw [show s.status q = .loaded from hq] at hloading
      cases hloading
    obtain ⟨k, hk, hb⟩ := h.loaded q hq
    refine ⟨k, hk, fun o' hlt => ?_⟩
    exact (congrFun (Function.update_of_ne hqp ..) o').trans (hb o' hlt)

/-- The read moves a byte to a private buffer. -/
theorem ShareInv.copyPriv (h : ShareInv C s) (hpc : (s.call c).pc = .reading) {o : Nat} (hn : (s.of c).pos = none) :
    ShareInv C (s.copy C c o) := by
  have hs : s.copy C c o =
      { s with
        got := Function.update s.got c (Function.update (s.got c) o true)
        priv := Function.update s.priv (s.call c).reader
          (Function.update (s.priv (s.call c).reader) o (C.file (s.of c).key o)) } := by
    have hn : (s.reader (s.call c).reader).pos = none := hn
    simp only [Share.copy, Share.of, hn]
  rw [hs]
  -- whichever call of the reader it is for, the byte is the file's
  have hbyte : ∀ c' o',
      (o' ≠ o ∨ (s.call c').reader ≠ (s.call c).reader → s.priv (s.call c').reader o' = C.file (s.of c').key o') →
      Function.update s.priv (s.call c).reader (Function.update (s.priv (s.call c).reader) o (C.file (s.of c).key o))
        (s.call c').reader o' = C.file (s.of c').key o' := by
    intro c' o' hold
    by_cases er : (s.call c').reader = (s.call c).reader
    · rw [er, Function.update_self]
      by_cases eo : o' = o
      · rw [eo, Function.update_self]
        unfold Share.of
        rw [er]
      · rw [Function.update_of_ne eo, ← er]
        exact hold (.inl eo)
    · rw [Function.update_of_ne er]
      exact hold (.inr er)
  refine ⟨h.table, h.held, h.call_lt, h.alive, h.priv, h.loading, h.one, fun c' hc' hl' o' hg => ?_,
    fun c' hc' hr o' hlt => ?_, h.ok,
    fun c' hc' hr hn' o' hlt => hbyte c' o' fun _ => h.okPriv c' hc' hr hn' o' hlt, h.loaded, h.reads⟩
  · have hg : Function.update s.got c (Function.update (s.got c) o true) c' o' = true := hg
    have hold : (c' ≠ c ∨ o' ≠ o) → s.dataOf (s.call c').reader o' = C.file (s.of c').key o' := by
      intro hne
      refine h.got c' hc' hl' o' ?_
      by_cases e : c' = c
      · subst e
        rw [Function.update_self, Function.update_of_ne (hne.resolve_left (absurd rfl))] at hg
        exact hg
      · rwa [Function.update_of_ne e] at hg
    cases hq : (s.of c').pos with
    | none =>
      have hd : ∀ v : Nat → Nat → Byte, Share.dataOf { s with priv := v } (s.call c').reader = v (s.call c').reader := fun v => by
        unfold Share.dataOf
        rw [show (s.reader (s.call c').reader).pos = none from hq]
      rw [show s.dataOf (s.call c').reader = s.priv (s.call c').reader from hd s.priv] at hold
      refine (congrFun (hd _) o').trans (hbyte c' o' fun hne => hold ?_)
      rcases hne with hne | hne
      · exact .inr hne
      · exact .inl fun e => hne (by rw [e])
    | some q =>
      have hne : c' ≠ c := by
        intro e
        subst e
        rw [hn] at hq
        cases hq
      refine Eq.trans ?_ (hold (.inl hne))
      unfold Share.dataOf
      rw [show (s.reader (s.call c').reader).pos = some q from hq]
  · show Function.update s.got c (Function.update (s.got c) o true) c' o' = true
    by_cases e : c' = c
    · rw [e] at hr
      have hr : (s.call c).pc = .read true := hr
      rw [hpc] at hr
      cases hr
    · rw [Function.update_of_ne e]
      exact h.all c' hc' hr o' hlt

end Calls

section Readers

variable {r p : Nat}

/-- `Ready4Read` is called. -/
theorem ShareInv.newCall (h : ShareInv C s) (hr : r < s.nReader) (ha : (s.reader r).alive = true) {pc : CallPc}
    (hpc : (s.reader r).pos = none ∧ pc = .reading ∨ (s.reader r).pos ≠ none ∧ pc = .checkLoaded) :
    ShareInv C { s with
      nCall := s.nCall + 1
      call := Function.update s.call s.nCall ⟨r, pc⟩
      got := Function.update s.got s.nCall fun _ => false } := by
  have hself : (Function.update s.call s.nCall ⟨r, pc⟩) s.nCall = ⟨r, pc⟩ := Function.update_self ..
  have hold : ∀ c, c < s.nCall → (Function.update s.call s.nCall ⟨r, pc⟩) c = s.call c :=
      fun c hc => Function.update_of_ne (by omega) ..
  have hcases : ∀ c, c < s.nCall + 1 → c < s.nCall ∧ (Function.update s.call s.nCall ⟨r, pc⟩) c = s.call c ∨
      c = s.nCall ∧ (Function.update s.call s.nCall ⟨r, pc⟩) c = ⟨r, pc⟩ := by
    intro c hc
    rcases Nat.lt_succ_iff_lt_or_eq.mp hc with hc | rfl
    · exact .inl ⟨hc, hold c hc⟩
    · exact .inr ⟨rfl, hself⟩
  -- the new call reads only into a private buffer
  have hshared : ∀ q, pc.loads = true → (s.reader r).pos ≠ some q := by
    rintro q hl hq
    rcases hpc with ⟨hn, -⟩ | ⟨-, rfl⟩
    · rw [hn] at hq
      cases hq
    · cases hl
  refine ⟨h.table, h.held, fun c hc => ?_, fun c hc ho => ?_, fun c hc hn => ?_, fun c hc hl q hq => ?_,
    fun c c' q hc hc' hl hl' hq hq' => ?_, fun c hc hl o hg => ?_, fun c hc hr' o hlt => ?_, fun c hc hr' ha' q hq => ?_,
    fun c hc hr' hn o hlt => ?_, h.loaded, h.reads⟩
  · rcases hcases c hc with ⟨hc, e⟩ | ⟨-, e⟩ <;> dsimp only <;> rw [e]
    · exact h.call_lt c hc
    · exact hr
  · unfold Share.of
    rcases hcases c hc with ⟨hc, e⟩ | ⟨-, e⟩ <;> dsimp only at ho ⊢ <;> rw [e] at ho ⊢
    · exact h.alive c hc ho
    · exact ha
  · unfold Share.of at hn
    rcases hcases c hc with ⟨hc, e⟩ | ⟨-, e⟩ <;> dsimp only at hn ⊢ <;> rw [e] at hn ⊢
    · exact h.priv c hc hn
    · rcases hpc with ⟨-, rfl⟩ | ⟨hne, -⟩
      · exact .inl rfl
      · exact absurd hn hne
  · unfold Share.of at hq
    rcases hcases c hc with ⟨hc, e⟩ | ⟨-, e⟩ <;> dsimp only at hl hq <;> rw [e] at hl hq
    · exact h.loading c hc hl q hq
    · exact absurd hq (hshared q hl)
  · unfold Share.of at hq hq'
    rcases hcases c hc with ⟨hc, e⟩ | ⟨-, e⟩ <;> rcases hcases c' hc' with ⟨hc', e'⟩ | ⟨-, e'⟩ <;>
      dsimp only at hl hl' hq hq' <;> rw [e] at hl hq <;> rw [e'] at hl' hq'
    · exact h.one c c' q hc hc' hl hl' hq hq'
    · exact absurd hq' (hshared q hl')
    · exact absurd hq (hshared q hl)
    · exact absurd hq (hshared q hl)
  · have hg : Function.update s.got s.nCall (fun _ => false) c o = true := hg
    unfold Share.of Share.dataOf
    rcases hcases c hc with ⟨hc, e⟩ | ⟨ec, e⟩ <;> dsimp only at hl ⊢ <;> rw [e] at hl ⊢
    · rw [Function.update_of_ne (by omega)] at hg
      exact h.got c hc hl o hg
    · rw [ec, Function.update_self] at hg
      cases hg
  · rcases hcases c hc with ⟨hc, e⟩ | ⟨-, e⟩ <;> dsimp only at hr' ⊢ <;> rw [e] at hr'
    · rw [Function.update_of_ne (by omega)]
      exact h.all c hc hr' o hlt
    · rcases hpc with ⟨-, rfl⟩ | ⟨-, rfl⟩ <;> cases hr'
  · unfold Share.of at ha' hq
    rcases hcases c hc with ⟨hc, e⟩ | ⟨-, e⟩ <;> dsimp only at hr' ha' hq <;> rw [e] at hr' ha' hq
    · exact h.ok c hc hr' ha' q hq
    · rcases hpc with ⟨-, rfl⟩ | ⟨-, rfl⟩ <;> cases hr'
  · unfold Share.of at hn ⊢
    rcases hcases c hc with ⟨hc, e⟩ | ⟨-, e⟩ <;> dsimp only at hr' hn ⊢ <;> rw [e] at hr' hn ⊢
    · exact h.okPriv c hc hr' hn o hlt
    · rcases hpc with ⟨-, rfl⟩ | ⟨-, rfl⟩ <;> cases hr'

/-- A reader is released, no call of it being under way. -/
theorem ShareInv.kill (h : ShareInv C s) {t : Table ShareBlockId ShareBlockId Round} (ht : TableInv C.probing (s.kill r).live t)
    (hover : ∀ c, c < s.nCall → (s.call c).reader = r → (s.call c).pc.over = true)
    (hkey : ∀ q, (t.slot q).key = (s.table.slot q).key) (hst : ∀ q, (t.slot q).status = (s.table.slot q).status) :
    ShareInv C { s.kill r with table := t } := by
  have hpos : ∀ r', ((s.kill r).reader r').pos = (s.reader r').pos ∧ ((s.kill r).reader r').key = (s.reader r').key := by
    intro r'
    by_cases e : r' = r
    · rw [e, show (s.kill r).reader r = { s.reader r with alive := false } from Function.update_self ..]
      exact ⟨rfl, rfl⟩
    · rw [show (s.kill r).reader r' = s.reader r' from Function.update_of_ne e ..]
      exact ⟨rfl, rfl⟩
  have halive : ∀ r', ((s.kill r).reader r').alive = true → (s.reader r').alive = true := by
    intro r' ha
    by_cases e : r' = r
    · rw [e, show (s.kill r).reader r = { s.reader r with alive := false } from Function.update_self ..] at ha
      cases ha
    · rwa [show (s.kill r).reader r' = s.reader r' from Function.update_of_ne e ..] at ha
  refine ⟨ht, fun r' hr' ha p hp => ?_, h.call_lt, fun c hc ho => ?_, fun c hc hn => ?_, fun c hc hl p hp => ?_,
    fun c c' p hc hc' hl hl' hp hp' => ?_, fun c hc hl o hg => ?_, h.all, fun c hc ho ha p hp => ?_, fun c hc ho hn o hlt => ?_,
    fun p hp => ?_, fun p => ?_⟩
  · have hp : ((s.kill r).reader r').pos = some p := hp
    rw [(hpos r').1] at hp
    show p < _ ∧ (t.slot p).key = some ((s.kill r).reader r').key
    rw [hkey, (hpos r').2]
    exact h.held r' hr' (halive r' ha) p hp
  · have hne : (s.call c).reader ≠ r := by
      intro e
      have := hover c hc e
      rw [show (s.call c).pc.over = false from ho] at this
      cases this
    show ((s.kill r).reader (s.call c).reader).alive = true
    rw [show (s.kill r).reader (s.call c).reader = s.reader (s.call c).reader from Function.update_of_ne hne ..]
    exact h.alive c hc ho
  · exact h.priv c hc ((hpos _).1.symm.trans hn)
  · show (t.slot p).status.status = _
    rw [hst]
    exact h.loading c hc hl p ((hpos _).1.symm.trans hp)
  · exact h.one c c' p hc hc' hl hl' ((hpos _).1.symm.trans hp) ((hpos _).1.symm.trans hp')
  · show Share.dataOf (s.kill r) (s.call c).reader o = C.file ((s.kill r).reader (s.call c).reader).key o
    rw [(hpos _).2, ← show s.of c = s.reader (s.call c).reader from rfl, ← h.got c hc hl o hg]
    unfold Share.dataOf
    rw [(hpos _).1]
    rfl
  · show (t.slot p).status.status = _
    rw [hst]
    exact h.ok c hc ho (halive _ ha) p ((hpos _).1.symm.trans hp)
  · show s.priv (s.call c).reader o = C.file ((s.kill r).reader (s.call c).reader).key o
    rw [(hpos _).2]
    exact h.okPriv c hc ho ((hpos _).1.symm.trans hn) o hlt
  · have hp : (t.slot p).status.status = .loaded := hp
    rw [hst] at hp
    show ∃ k, (t.slot p).key = some k ∧ _
    rw [hkey]
    exact h.loaded p hp
  · show ((t.slot p).status.status = .init → (t.slot p).status.reads = 0) ∧ (t.slot p).status.reads ≤ 1
    rw [hst]
    exact h.reads p

end Readers

/-! ## The steps -/

theorem init_shareInv (h : s.IsInit) : ShareInv C s := by
  have hlt : ∀ c, ¬c < s.nCall := by
    rw [h.nCall]
    exact fun c => Nat.not_lt_zero c
  have hst : ∀ p, (s.table.slot p).status = ⟨.init, 0⟩ := fun p => by rw [h.slot p]
  refine ⟨?_, fun r hr => ?_, fun c hc => absurd hc (hlt c), fun c hc => absurd hc (hlt c), fun c hc => absurd hc (hlt c),
    fun c hc => absurd hc (hlt c), fun c _ _ hc => absurd hc (hlt c), fun c hc => absurd hc (hlt c),
    fun c hc => absurd hc (hlt c),
    fun c hc => absurd hc (hlt c), fun c hc => absurd hc (hlt c), fun p hp => ?_, fun p => ?_⟩
  · have hlive : s.live = fun _ => 0 := by
      funext p
      unfold Share.live
      rw [h.nReader, Nat.count_zero]
    rw [hlive]
    refine init_inv (fun p => ?_) h.scan
    rw [h.slot p]
    exact ⟨rfl, rfl, rfl⟩
  · rw [h.nReader] at hr
    exact absurd hr (Nat.not_lt_zero r)
  · rw [show s.status p = .init from congrArg Round.status (hst p)] at hp
    cases hp
  · rw [hst p]
    exact ⟨fun _ => rfl, Nat.zero_le _⟩

/-- What a lookup's step comes to. -/
theorem probe_cases (h : s.probe C = some s') : ∃ c t, s.table.scan = some c ∧
    (s.table.probe C.probing = some (t, .goesOn) ∧ s' = { s with table := t } ∨
      (∃ p, s.table.probe C.probing = some (t, .found p) ∧ s' = s.addReader t c.key (some p)) ∨
      s.table.probe C.probing = some (t, .full) ∧ s' = s.addReader t c.key none) := by
  unfold Share.probe at h
  split at h
  · next c t hc ht => exact ⟨c, t, hc, .inl ⟨ht, (Option.some.inj h).symm⟩⟩
  · next c t p hc ht => exact ⟨c, t, hc, .inr (.inl ⟨p, ht, (Option.some.inj h).symm⟩)⟩
  · next c t hc ht => exact ⟨c, t, hc, .inr (.inr ⟨ht, (Option.some.inj h).symm⟩)⟩
  · cases h

theorem ShareInv.probe (h : ShareInv C s) (hs : s.probe C = some s') : ShareInv C s' := by
  obtain ⟨c, t, hc, hs | ⟨p, ht, rfl⟩ | ⟨ht, rfl⟩⟩ := probe_cases hs
  · obtain ⟨ht, rfl⟩ := hs
    obtain ⟨hinv, hslot⟩ := probe_goesOn h.table ht
    exact h.scan hinv hslot
  · have hp : (s.addReader t c.key (some p)).live p = s.live p + 1 := by
      rw [live_addReader, if_pos rfl]
    have hne : ∀ q, q ≠ p → (s.addReader t c.key (some p)).live q = s.live q := by
      intro q hq
      rw [live_addReader, if_neg (fun e => hq (Option.some.inj e).symm), Nat.add_zero]
    obtain ⟨hinv, hlt, c', hc', hf⟩ := probe_found h.table ht hp hne
    obtain rfl : c = c' := Option.some.inj (hc.symm.trans hc')
    refine h.addReader hinv (fun q hq => ?_) (fun q hq => ⟨(hf.same hq).1, (hf.same hq).2.2⟩) fun q => ?_
    · obtain rfl := Option.some.inj hq
      exact ⟨hlt, hf.key⟩
    · rcases hf.change q with he | hfresh | ⟨hk, hr⟩
      · exact .inl he
      · exact .inr hfresh
      · by_cases hl : (s.table.slot q).status.status = .loaded
        · exact .inl ⟨hk, hr.trans (if_pos hl)⟩
        · exact .inr (hr.trans (if_neg hl))
  · obtain ⟨hinv, hslot, -⟩ := probe_full h.table ht
    have hlive : (s.addReader t c.key none).live = s.live := by
      funext q
      rw [live_addReader, if_neg nofun, Nat.add_zero]
    refine h.addReader (hlive ▸ hinv) nofun (fun q _ => ?_) fun q => .inl ?_
    all_goals
      rw [hslot]
      exact ⟨rfl, rfl⟩

theorem ShareInv.release (h : ShareInv C s) {r : Nat} (hs : shareStep C s (.release r) = some s') : ShareInv C s' := by
  unfold shareStep at hs
  dsimp only at hs
  split at hs
  · next hc =>
    obtain ⟨hr, ha, hover⟩ := hc
    split at hs
    · next p hp =>
      obtain rfl := Option.some.inj hs
      have hne : ∀ q, q ≠ p → (s.kill r).live q = s.live q := fun q hq => live_kill_of_ne fun e =>
          hq (Option.some.inj (hp.symm.trans e)).symm
      refine h.kill (release_inv h.table (live_kill hr ha hp) hne) hover (fun q => ?_) fun q => ?_
      all_goals
        unfold Table.release
        by_cases e : q = p
        · rw [e, Table.setSlot_self]
        · rw [Table.setSlot_of_ne _ e]
    · next hp =>
      obtain rfl := Option.some.inj hs
      have hlive : (s.kill r).live = s.live := by
        funext q
        refine live_kill_of_ne fun e => ?_
        rw [hp] at e
        cases e
      exact h.kill (t := s.table) (hlive ▸ h.table) hover (fun _ => rfl) fun _ => rfl
  · cases hs

theorem ShareInv.check (h : ShareInv C s) {c : Nat} (hs : shareStep C s (.check c) = some s') : ShareInv C s' := by
  unfold shareStep at hs
  dsimp only at hs
  split at hs
  · next hc =>
    split at hs
    · next p hp hpc =>
      obtain rfl := Option.some.inj hs
      refine h.setPc hc (by rw [hpc]; rfl) (fun hn => ?_) (fun hl => ?_) (fun e => ?_) fun e => ⟨fun q hq => ?_, fun hn => ?_⟩
      · rw [hp] at hn
        cases hn
      · split at hl <;> cases hl
      · split at e <;> cases e
      · obtain rfl := Option.some.inj (hp.symm.trans hq)
        split at e
        · assumption
        · cases e
      · rw [hp] at hn
        cases hn
    · next p hp hpc =>
      obtain rfl := Option.some.inj hs
      refine h.setPc hc (by rw [hpc]; rfl) (fun hn => ?_) (fun hl => ?_) (fun e => ?_) fun e => ?_
      · rw [hp] at hn
        cases hn
      · split at hl <;> cases hl
      · split at e <;> cases e
      · split at e <;> cases e
    · next p hp hpc =>
      obtain rfl := Option.some.inj hs
      refine h.setPc hc (by rw [hpc]; rfl) (fun hn => ?_) (fun hl => ?_) (fun e => ?_) fun e => ?_
      · rw [hp] at hn
        cases hn
      · split at hl <;> cases hl
      · split at e <;> cases e
      · split at e <;> cases e
    · cases hs
  · cases hs

theorem ShareInv.lockSlot (h : ShareInv C s) {c : Nat} (hs : shareStep C s (.lockSlot c) = some s') : ShareInv C s' := by
  unfold shareStep at hs
  dsimp only at hs
  split at hs
  · next hc =>
    split at hs
    · next p hp hpc =>
      have hover : (s.call c).pc.over = false := by
        rw [hpc]
        rfl
      split at hs
      · next hi =>
        obtain rfl := Option.some.inj hs
        refine h.round hc hover hp (.inl hi) (fun c' e => Function.update_of_ne e ..)
          (fun _ => ⟨rfl, fun o => ?_⟩) nofun nofun nofun
          ⟨nofun, ?_⟩
        · rw [Function.update_self]
        · show (s.table.slot p).status.reads + 1 ≤ 1
          rw [(h.reads p).1 hi]
      · obtain rfl := Option.some.inj hs
        refine h.setPc hc hover (fun _ => .inr rfl) nofun nofun nofun
    · cases hs
  · cases hs

theorem ShareInv.copy (h : ShareInv C s) {c o : Nat} (hs : shareStep C s (.copy c o) = some s') : ShareInv C s' := by
  unfold shareStep at hs
  dsimp only at hs
  split at hs
  · next hc =>
    obtain ⟨hc, hpc, -⟩ := hc
    obtain rfl := Option.some.inj hs
    cases hp : (s.of c).pos with
    | none => exact h.copyPriv hpc hp
    | some p => exact h.copyShared hc hpc hp
  · cases hs

theorem ShareInv.settle (h : ShareInv C s) {c : Nat} (hs : shareStep C s (.settle c) = some s') : ShareInv C s' := by
  unfold shareStep at hs
  dsimp only at hs
  split at hs
  · next hc =>
    split at hs
    · next ok hpc =>
      have hover : (s.call c).pc.over = false := by
        rw [hpc]
        rfl
      have hl : (s.call c).pc.loads = true := by
        rw [hpc]
        rfl
      -- a read that succeeded has moved every byte
      have hdata : ok = true → ∀ o, o < C.length → s.dataOf (s.call c).reader o = C.file (s.of c).key o := by
        rintro rfl o ho
        exact h.got c hc hl o (h.all c hc hpc o ho)
      split at hs
      · next p hp =>
        obtain rfl := Option.some.inj hs
        have hd : s.dataOf (s.call c).reader = s.data p := by
          unfold Share.dataOf
          rw [show (s.reader (s.call c).reader).pos = some p from hp]
        rw [hd] at hdata
        refine h.round hc hover hp (.inr hl) (fun c' _ => (rfl : s.got c' = s.got c')) nofun nofun (fun e => ?_) (fun e => ?_)
          ⟨fun e => ?_, (h.reads p).2⟩
        · cases ok
          · cases e
          · rfl
        · cases ok
          · cases e
          · exact hdata rfl
        · cases ok <;> cases e
      · next hn =>
        obtain rfl := Option.some.inj hs
        have hd : s.dataOf (s.call c).reader = s.priv (s.call c).reader := by
          unfold Share.dataOf
          rw [show (s.reader (s.call c).reader).pos = none from hn]
        rw [hd] at hdata
        refine h.setPc hc hover (fun _ => .inr rfl) nofun nofun fun e => ⟨fun q hq => ?_, fun _ => ?_⟩
        · rw [hn] at hq
          cases hq
        · cases ok
          · cases e
          · exact hdata rfl
    · cases hs
  · cases hs

theorem step_shareInv (h : ShareInv C s) (hok : NonZero s l) (hs : shareStep C s l = some s') : ShareInv C s' := by
  cases l with
  | lock k =>
    obtain ⟨t, ht, rfl⟩ := Option.map_eq_some_iff.mp hs
    refine h.scan (lock_inv h.table ⟨hok, fun p k' _ _ he => he⟩ ht) ?_
    rw [lock_eq ht]
  | probe => exact h.probe hs
  | release r => exact h.release hs
  | call r =>
    unfold shareStep at hs
    dsimp only at hs
    split at hs
    · next hr =>
      obtain rfl := Option.some.inj hs
      refine h.newCall hr.1 hr.2 ?_
      by_cases hn : (s.reader r).pos = none
      · exact .inl ⟨hn, if_pos hn⟩
      · exact .inr ⟨hn, if_neg hn⟩
    · cases hs
  | check c => exact h.check hs
  | lockSlot c => exact h.lockSlot hs
  | copy c o => exact h.copy hs
  | readEnd c ok =>
    unfold shareStep at hs
    dsimp only at hs
    split at hs
    · next hc =>
      obtain ⟨hc, hpc, hall⟩ := hc
      obtain rfl := Option.some.inj hs
      refine h.setPc hc (by rw [hpc]; rfl) (fun _ => .inl rfl) (fun _ => by rw [hpc]; rfl) (fun e => ?_) nofun
      exact hall (CallPc.read.inj e)
    · cases hs
  | settle c => exact h.settle hs

theorem reach_shareInv (h : Reach (shareBuffer C) NonZero s) : ShareInv C s :=
  h.inv (I := ShareInv C) (fun _ h0 => init_shareInv h0) fun _ _ _ hi hok hs => step_shareInv hi hok hs

/-! ## What the buffer keeps -/

/-- What the buffer promises in a state, and of the next step. -/
structure SharedReads (C : ShareConfig Byte) (s : Share Byte) : Prop where
  /-- A key has one slot at most. -/
  one_slot : ∀ p q, p < C.blockNumber → q < C.blockNumber → (s.table.slot p).id ≠ ⟨0, 0⟩ →
    (s.table.slot p).id = (s.table.slot q).id → p = q
  /-- A slot with references keeps its key. -/
  kept : ∀ l s', shareStep C s l = some s' → ∀ p, 0 < (s.table.slot p).ref → (s'.table.slot p).id = (s.table.slot p).id
  /-- The references are the live readers, which are of the slot's key. -/
  ref : ∀ p, (s.table.slot p).ref = s.live p
  held : ∀ r, r < s.nReader → (s.reader r).alive = true → ∀ p, (s.reader r).pos = some p →
    p < C.blockNumber ∧ (s.table.slot p).id = (s.reader r).key
  /-- The file is read into a slot once a round, by one call. -/
  reads : ∀ p, (s.table.slot p).status.reads ≤ 1
  one_call : ∀ c c' p, c < s.nCall → c' < s.nCall → (s.call c).pc.loads = true → (s.call c').pc.loads = true →
    (s.of c).pos = some p → (s.of c').pos = some p → c = c'
  /-- A reader that got OK sees the data of its block. -/
  data : ∀ c, c < s.nCall → (s.call c).pc = .returned .ok → (s.of c).alive = true → ∀ o, o < C.length →
    s.dataOf (s.call c).reader o = C.file (s.of c).key o
  /-- The first reader of a slot that is not loaded begins a round, and of one that is, finds its key's data. -/
  first : ∀ l s', shareStep C s l = some s' → ∀ p, (s.table.slot p).ref = 0 → 0 < (s'.table.slot p).ref →
    (s'.table.slot p).status = ⟨.init, 0⟩ ∨
      s.status p = .loaded ∧ s'.table.slot p = { s.table.slot p with ref := (s'.table.slot p).ref }
  /-- In a new round the next call reads the file. -/
  retries : ∀ c p, c < s.nCall → (s.call c).pc = .checkLoaded → (s.of c).pos = some p → s.status p = .init →
    ∃ s', replay (shareBuffer C) s [.check c, .check c, .check c, .lockSlot c] = some s' ∧ (s'.call c).pc = .reading
  /-- Only where every slot had references at the lookup's beginning, a private buffer is taken. -/
  fallback : ∀ l s', shareStep C s l = some s' → s.nReader < s'.nReader → (s'.reader s.nReader).pos = none →
    ∃ scan, s.table.scan = some scan ∧ ∀ p, p < C.blockNumber → 0 < scan.start p

/-- A step leaves a slot's key and status, or it is a lookup's, which finds the slot. -/
theorem slot_step (h : ShareInv C s) (hs : shareStep C s l = some s') {p : Nat} :
    (s'.table.slot p).id = (s.table.slot p).id ∧ (s'.table.slot p).ref ≤ (s.table.slot p).ref ∨
      ∃ k q, Found C.probing s.table k q s'.table := by
  have hsame : s'.table.slot p = s.table.slot p → (s'.table.slot p).id = (s.table.slot p).id ∧
      (s'.table.slot p).ref ≤ (s.table.slot p).ref := fun e => by rw [e]; exact ⟨rfl, le_rfl⟩
  have hset : ∀ q x, x.id = (s.table.slot q).id → x.ref ≤ (s.table.slot q).ref → s'.table.slot p = (s.table.setSlot q x).slot p →
      (s'.table.slot p).id = (s.table.slot p).id ∧ (s'.table.slot p).ref ≤ (s.table.slot p).ref := by
    intro q x hid hr e
    rw [e]
    by_cases he : p = q
    · rw [he, Table.setSlot_self]
      exact ⟨hid, hr⟩
    · rw [Table.setSlot_of_ne x he]
      exact ⟨rfl, le_rfl⟩
  cases l with
  | lock k =>
    obtain ⟨t, ht, rfl⟩ := Option.map_eq_some_iff.mp hs
    exact .inl (hsame (by rw [lock_eq ht]))
  | probe =>
    obtain ⟨c, t, hc, hs | ⟨q, ht, rfl⟩ | ⟨ht, rfl⟩⟩ := probe_cases hs
    · obtain ⟨ht, rfl⟩ := hs
      exact .inl (hsame (congrFun (probe_goesOn h.table ht).2 p))
    · have hp : (s.addReader t c.key (some q)).live q = s.live q + 1 := by
        rw [live_addReader, if_pos rfl]
      have hne : ∀ q', q' ≠ q → (s.addReader t c.key (some q)).live q' = s.live q' := by
        intro q' hq
        rw [live_addReader, if_neg (fun e => hq (Option.some.inj e).symm), Nat.add_zero]
      obtain ⟨-, -, c', -, hf⟩ := probe_found h.table ht hp hne
      exact .inr ⟨c'.key, q, hf⟩
    · exact .inl (hsame (congrFun (probe_full h.table ht).2.1 p))
  | release r =>
    unfold shareStep at hs
    dsimp only at hs
    split at hs
    · split at hs
      · next q hq =>
        obtain rfl := Option.some.inj hs
        refine .inl (hset q { s.table.slot q with ref := (s.table.slot q).ref - 1 } rfl ?_ rfl)
        show (s.table.slot q).ref - 1 ≤ _
        omega
      · obtain rfl := Option.some.inj hs
        exact .inl (hsame rfl)
    · cases hs
  | call r =>
    unfold shareStep at hs
    dsimp only at hs
    split at hs
    · obtain rfl := Option.some.inj hs
      exact .inl (hsame rfl)
    · cases hs
  | check c =>
    unfold shareStep at hs
    dsimp only at hs
    split at hs
    · split at hs
      · obtain rfl := Option.some.inj hs
        exact .inl (hsame rfl)
      · obtain rfl := Option.some.inj hs
        exact .inl (hsame rfl)
      · obtain rfl := Option.some.inj hs
        exact .inl (hsame rfl)
      · cases hs
    · cases hs
  | lockSlot c =>
    unfold shareStep at hs
    dsimp only at hs
    split at hs
    · split at hs
      · next q hq _ =>
        split at hs
        · obtain rfl := Option.some.inj hs
          exact .inl (hset q { s.table.slot q with status := ⟨.loading, (s.table.slot q).status.reads + 1⟩ } rfl le_rfl rfl)
        · obtain rfl := Option.some.inj hs
          exact .inl (hsame rfl)
      · cases hs
    · cases hs
  | copy c o =>
    unfold shareStep at hs
    dsimp only at hs
    split at hs
    · obtain rfl := Option.some.inj hs
      refine .inl (hsame ?_)
      unfold Share.copy
      dsimp only
      split <;> rfl
    · cases hs
  | readEnd c ok =>
    unfold shareStep at hs
    dsimp only at hs
    split at hs
    · obtain rfl := Option.some.inj hs
      exact .inl (hsame rfl)
    · cases hs
  | settle c =>
    unfold shareStep at hs
    dsimp only at hs
    split at hs
    · split at hs
      · next ok _ =>
        split at hs
        · next q hq =>
          obtain rfl := Option.some.inj hs
          exact .inl (hset q { s.table.slot q with status := ⟨if ok then .loaded else .failure, (s.table.slot q).status.reads⟩ }
            rfl le_rfl rfl)
        · obtain rfl := Option.some.inj hs
          exact .inl (hsame rfl)
      · cases hs
    · cases hs

theorem slot_first {l : ShareLabel} (h : ShareInv C s) (hs : shareStep C s l = some s') {p : Nat} (hz : (s.table.slot p).ref = 0)
    (hp : 0 < (s'.table.slot p).ref) : (s'.table.slot p).status = ⟨.init, 0⟩ ∨
      s.status p = .loaded ∧ s'.table.slot p = { s.table.slot p with ref := (s'.table.slot p).ref } := by
  rcases slot_step h hs (p := p) with ⟨-, hle⟩ | ⟨k, q, hf⟩
  · omega
  · by_cases e : p = q
    · subst e
      rcases hf.self with ⟨-, hs⟩ | hs
      · by_cases hl : s.status p = .loaded
        · refine .inr ⟨hl, ?_⟩
          rw [hs]
          unfold Slot.refer
          rw [if_pos hz, show (C.probing).revive (s.table.slot p).status = (s.table.slot p).status from if_pos hl]
        · refine .inl ?_
          rw [hs]
          exact (if_pos hz).trans (if_neg hl)
      · refine .inl ?_
        rw [hs]
        rfl
    · rw [hf.slot_of_ne e] at hp
      omega

/-- The first call of a round finds its way to the file. -/
theorem replay_retries {c p : Nat} (hc : c < s.nCall) (hpc : (s.call c).pc = .checkLoaded) (hp : (s.of c).pos = some p)
    (hi : s.status p = .init) : ∃ s', replay (shareBuffer C) s [.check c, .check c, .check c, .lockSlot c] = some s' ∧
      (s'.call c).pc = .reading := by
  have hstep : ∀ pc, (s.setPc c pc).call c = { s.call c with pc } := fun pc => Function.update_self ..
  have htwice : ∀ pc pc', (s.setPc c pc).setPc c pc' = s.setPc c pc' := by
    intro pc pc'
    simp only [Share.setPc, Function.update_idem, Function.update_self]
  have hof : ∀ pc, ((s.setPc c pc).of c).pos = some p := by
    intro pc
    unfold Share.of
    rw [hstep]
    exact hp
  have h1 : shareStep C s (.check c) = some (s.setPc c .checkFailure) := by
    unfold shareStep
    dsimp only
    rw [if_pos hc, hp, hpc]
    dsimp only
    rw [hi]
    rfl
  have h2 : shareStep C (s.setPc c .checkFailure) (.check c) = some (s.setPc c .checkLoading) := by
    unfold shareStep
    dsimp only
    rw [if_pos (show c < (s.setPc c .checkFailure).nCall from hc), hof, hstep]
    dsimp only
    rw [show (s.setPc c .checkFailure).status p = .init from hi, htwice]
    rfl
  have h3 : shareStep C (s.setPc c .checkLoading) (.check c) = some (s.setPc c .locking) := by
    unfold shareStep
    dsimp only
    rw [if_pos (show c < (s.setPc c .checkLoading).nCall from hc), hof, hstep]
    dsimp only
    rw [show (s.setPc c .checkLoading).status p = .init from hi, htwice]
    rfl
  refine ⟨((s.setPc c .locking).setStatus p ⟨.loading, (s.table.slot p).status.reads + 1⟩).startRead c, ?_, ?_⟩
  · have h4 : shareStep C (s.setPc c .locking) (.lockSlot c) =
        some (((s.setPc c .locking).setStatus p ⟨.loading, (s.table.slot p).status.reads + 1⟩).startRead c) := by
      unfold shareStep
      dsimp only
      rw [if_pos (show c < (s.setPc c .locking).nCall from hc), hof, hstep]
      dsimp only
      rw [if_pos (show (s.setPc c .locking).status p = .init from hi)]
      rfl
    unfold replay
    rw [show (shareBuffer C).step s (.check c) = _ from h1, Option.bind_some]
    unfold replay
    rw [show (shareBuffer C).step _ (.check c) = _ from h2, Option.bind_some]
    unfold replay
    rw [show (shareBuffer C).step _ (.check c) = _ from h3, Option.bind_some]
    unfold replay
    rw [show (shareBuffer C).step _ (.lockSlot c) = _ from h4, Option.bind_some]
    rfl
  · show (Function.update (s.setPc c .locking).call c { (s.setPc c .locking).call c with pc := .reading } c).pc = .reading
    rw [Function.update_self]

/-- Only a lookup makes readers. -/
theorem nReader_step (hs : shareStep C s l = some s') (hl : l ≠ .probe) : s'.nReader = s.nReader := by
  cases l with
  | probe => exact absurd rfl hl
  | lock k =>
    obtain ⟨t, -, rfl⟩ := Option.map_eq_some_iff.mp hs
    rfl
  | copy c o =>
    unfold shareStep at hs
    dsimp only at hs
    split at hs
    · obtain rfl := Option.some.inj hs
      unfold Share.copy
      dsimp only
      split <;> rfl
    · cases hs
  | _ =>
    unfold shareStep at hs
    dsimp only at hs
    repeat' split at hs
    all_goals first
      | (obtain rfl := Option.some.inj hs; rfl)
      | cases hs

theorem shared_reads (h : Reach (shareBuffer C) NonZero s) : SharedReads C s := by
  have hi := reach_shareInv h
  have hid : ∀ p k, (s.table.slot p).key = some k → (s.table.slot p).id = k := fun p k hk => (hi.table.slots.keyed p k hk).1
  refine
    { one_slot := fun p q hp hq hu he => ?_
      kept := fun l s' hs p hr => ?_
      ref := hi.table.slots.ref
      held := fun r hr ha p hp => ⟨(hi.held r hr ha p hp).1, hid p _ (hi.held r hr ha p hp).2⟩
      reads := fun p => (hi.reads p).2
      one_call := hi.one
      data := fun c hc ho ha o hlt => ?_
      first := fun l s' hs p hz hr => slot_first hi hs hz hr
      retries := fun c p hc hpc hp hst => replay_retries hc hpc hp hst
      fallback := fun l s' hs hlt hn => ?_ }
  · obtain ⟨k, hk⟩ := hi.table.slots.used hu
    obtain ⟨k', hk'⟩ := hi.table.slots.used (show (s.table.slot q).id ≠ ⟨0, 0⟩ from he ▸ hu)
    have hkk : k = k' := by rw [← hid p k hk, ← hid q k' hk', he]
    exact hi.table.slots.unique p q k hp hq hk (hkk ▸ hk')
  · rcases slot_step hi hs (p := p) with ⟨hkeep, -⟩ | ⟨k, q, hf⟩
    · exact hkeep
    · exact (hf.same (show (s.table.slot p).ref ≠ 0 by omega)).2.1
  · cases hp : (s.of c).pos with
    | none =>
      have hd : s.dataOf (s.call c).reader = s.priv (s.call c).reader := by
        unfold Share.dataOf
        rw [show (s.reader (s.call c).reader).pos = none from hp]
      rw [hd]
      exact hi.okPriv c hc ho hp o hlt
    | some p =>
      have hd : s.dataOf (s.call c).reader = s.data p := by
        unfold Share.dataOf
        rw [show (s.reader (s.call c).reader).pos = some p from hp]
      obtain ⟨k, hk, hb⟩ := hi.loaded p (hi.ok c hc ho ha p hp)
      have hkey := (hi.held _ (hi.call_lt c hc) ha p hp).2
      obtain rfl := Option.some.inj (hk.symm.trans hkey)
      rw [hd]
      exact hb o hlt
  · by_cases hl : l = .probe
    · subst hl
      obtain ⟨c, t, hc, hs | ⟨q, -, rfl⟩ | ⟨ht, rfl⟩⟩ := probe_cases hs
      · obtain ⟨-, rfl⟩ := hs
        exact absurd hlt (lt_irrefl s.nReader)
      · have hn : (Function.update s.reader s.nReader ⟨c.key, some q, true⟩ s.nReader).pos = none := hn
        rw [Function.update_self] at hn
        cases hn
      · obtain ⟨-, -, hfull⟩ := probe_full hi.table ht
        exact hfull
    · rw [nReader_step hs hl] at hlt
      exact absurd hlt (lt_irrefl _)

/-! ## Runs -/

/-- Two slots; every lookup begins at the first. -/
def twoSlots : ShareConfig Nat := ⟨2, Nat.two_pos, fun _ => 0, 1, fun k _ => k.lo.toNat⟩

def emptyShare : Share Nat :=
  ⟨⟨fun _ => ⟨⟨0, 0⟩, 0, ⟨.init, 0⟩, none⟩, none⟩, 0, fun _ => ⟨⟨0, 0⟩, none, false⟩, 0, fun _ => ⟨0, .checkLoaded⟩, fun _ _ => 0,
    fun _ _ => 0, fun _ _ => false⟩

theorem emptyShare_isInit : emptyShare.IsInit := ⟨fun _ => rfl, rfl, rfl, rfl⟩

def nonZeroCheck (_ : Share Nat) : ShareLabel → Bool
  | .lock k => decide (k ≠ ⟨0, 0⟩)
  | _ => true

theorem nonZeroCheck_ok {s : Share Nat} {l : ShareLabel} (h : nonZeroCheck s l = true) : NonZero s l := by
  cases l with
  | lock k =>
    show k ≠ ⟨0, 0⟩
    exact of_decide_eq_true h
  | _ => trivial

/-- A read fails; the next reader of the key reads the file again, and a reader of another key takes the other slot. -/
def readAgainTrace : List ShareLabel :=
  [.lock ⟨7, 0⟩, .probe, .call 0, .check 0, .check 0, .check 0, .lockSlot 0, .readEnd 0 false, .settle 0, .release 0,
    .lock ⟨7, 0⟩, .probe, .call 1, .check 1, .check 1, .check 1, .lockSlot 1, .copy 1 0, .readEnd 1 true, .settle 1,
    .lock ⟨5, 0⟩, .probe, .probe]

theorem shared_reads_again : ∃ s : Share Nat, (s.call 1).pc = .returned .ok ∧ s.data 0 0 = 7 ∧ (s.reader 2).pos = some 1 ∧
    SharedReads twoSlots s := by
  obtain ⟨s, hr, hs⟩ := exists_of_replayOk (S := shareBuffer twoSlots) nonZeroCheck (fun _ _ => nonZeroCheck_ok) readAgainTrace
    (s := emptyShare) (p := fun s => decide ((s.call 1).pc = .returned .ok ∧ s.data 0 0 = 7 ∧ (s.reader 2).pos = some 1))
    emptyShare_isInit (by decide)
  obtain ⟨hok, hd, hp⟩ := of_decide_eq_true hs
  exact ⟨s, hok, hd, hp, shared_reads hr⟩

def rekeyed (s' : Share Nat) : Bool := decide ((s'.table.slot 0).id = ⟨7, 0⟩ ∧ (s'.table.slot 0).ref = 1 ∧
  Nat.count (fun r => (s'.reader r).alive = true ∧ (s'.reader r).pos = some 0) s'.nReader = 2)

/-- The slot of a reader of the all-zero id still counts as never used: the next lookup takes it over. -/
theorem zero_id_rekeyed : ∃ s s' : Share Nat, Reach (shareBuffer twoSlots) Any s ∧ shareStep twoSlots s .probe = some s' ∧
    (s.table.slot 0).id = ⟨0, 0⟩ ∧ (s.table.slot 0).ref = 1 ∧ (s.reader 0).alive = true ∧ (s.reader 0).pos = some 0 ∧
    (s'.table.slot 0).id = ⟨7, 0⟩ ∧ (s'.table.slot 0).ref = 1 ∧ s'.live 0 = 2 ∧ ¬SharedReads twoSlots s := by
  obtain ⟨s, hr, hs⟩ := exists_of_replay (S := shareBuffer twoSlots) [.lock ⟨0, 0⟩, .probe, .lock ⟨7, 0⟩] (s := emptyShare)
    (p := fun s => decide ((s.table.slot 0).id = ⟨0, 0⟩ ∧ (s.table.slot 0).ref = 1 ∧ (s.reader 0).alive = true ∧
      (s.reader 0).pos = some 0) &&
      ((shareStep twoSlots s .probe).map rekeyed).getD false)
    emptyShare_isInit (by decide)
  obtain ⟨hs, hstep⟩ := Bool.and_eq_true_iff.mp hs
  obtain ⟨hid, href, ha, hp⟩ := of_decide_eq_true hs
  cases h : shareStep twoSlots s .probe with
  | none =>
    rw [h] at hstep
    cases hstep
  | some s' =>
    rw [h] at hstep
    obtain ⟨hid', href', hlive⟩ := of_decide_eq_true hstep
    refine ⟨s, s', hr, h, hid, href, ha, hp, hid', href', hlive, fun hinv => ?_⟩
    have hkept := hinv.kept .probe s' h 0 (by rw [href]; exact Int.one_pos)
    rw [hid', hid] at hkept
    exact absurd hkept (by decide)

end UnifiedCache.PcStore
