/-
  UnifiedCache.Base.Probing — a table of counted slots under linear probing.

  A slot has an id, a number of references and a status. A lookup holds the table's lock and goes
  through the slots from the home of its key: it takes a reference to the slot of its id, or takes
  over the first slot without references, or a never used one, and ends at the first never used
  one. References are given back at any time, without the table's lock. A slot is never emptied.

  An id is a digest of a key, and one value of it marks the unused slots. A lookup is `Faithful` if
  its digest is not that one, and no slot is there for another key of the same digest.

  - `lock_inv`, `probe_inv`, `release_inv`, `setStatus_inv`: the invariant (each key has at most one
    slot, which a lookup finds although slots before it change keys; the references of a slot are
    its holders).
  - `probe_found`, `probe_full`: how a lookup ends.
-/

import Mathlib.Logic.Function.Basic
import Mathlib.Data.Nat.ModEq
import UnifiedCache.Base.Ring

namespace UnifiedCache.Base

structure Probing (Key Id σ : Type) where
  n : Nat
  n_pos : 0 < n
  home : Key → Nat
  digest : Key → Id
  unused : Id
  /-- The status of a slot that has been taken over. -/
  fresh : σ
  /-- What becomes of the status with the first reference. -/
  revive : σ → σ

structure Slot (Key Id σ : Type) where
  id : Id
  ref : Int
  status : σ
  /-- Ghost: the key it was taken over for. -/
  key : Option Key

/-- A lookup under way. -/
structure Scan (Key : Type) where
  key : Key
  pos : Nat
  i : Nat
  reused : Option Nat
  /-- The loop is left before its end. -/
  left : Bool
  /-- Ghost: the references when the lock was taken. -/
  start : Nat → Int

structure Table (Key Id σ : Type) where
  slot : Nat → Slot Key Id σ
  scan : Option (Scan Key)

/-- What a step of a lookup comes to. -/
inductive Probed where
  | goesOn
  | found (p : Nat)
  | full
  deriving DecidableEq

variable {Key Id σ : Type}

namespace Slot

variable (P : Probing Key Id σ) (x : Slot Key Id σ)

/-- Takes a reference. -/
def refer : Slot Key Id σ := { x with status := if x.ref = 0 then P.revive x.status else x.status, ref := x.ref + 1 }

/-- The slot taken over for a key. -/
def occupy (k : Key) : Slot Key Id σ := ⟨P.digest k, 1, P.fresh, some k⟩

end Slot

namespace Table

variable (P : Probing Key Id σ) (t : Table Key Id σ)

def setSlot (p : Nat) (x : Slot Key Id σ) : Table Key Id σ := { t with slot := Function.update t.slot p x }

def setStatus (p : Nat) (st : σ) : Table Key Id σ := t.setSlot p { t.slot p with status := st }

def release (p : Nat) : Table Key Id σ := t.setSlot p { t.slot p with ref := (t.slot p).ref - 1 }

def lock (k : Key) : Option (Table Key Id σ) :=
  match t.scan with
  | none => some { t with scan := some ⟨k, P.home k % P.n, 0, none, false, fun p => (t.slot p).ref⟩ }
  | some _ => none

/-- The next step of the lookup. -/
def probe [DecidableEq Id] : Option (Table Key Id σ × Probed) :=
  match t.scan with
  | none => none
  | some c =>
    if c.i < P.n ∧ c.left = false then
      let x := t.slot c.pos
      if x.id = P.digest c.key then some ({ t.setSlot c.pos (x.refer P) with scan := none }, .found c.pos)
      else if x.id = P.unused then
        match c.reused with
        | some _ => some ({ t with scan := some { c with left := true } }, .goesOn)
        | none => some ({ t.setSlot c.pos (Slot.occupy P c.key) with scan := none }, .found c.pos)
      else
        some ({ t with
          scan := some { c with
            reused := if x.ref ≤ 0 ∧ c.reused = none then some c.pos else c.reused
            pos := (c.pos + 1) % P.n
            i := c.i + 1 } }, .goesOn)
    else
      match c.reused with
      | some r => some ({ t.setSlot r (Slot.occupy P c.key) with scan := none }, .found r)
      | none => some ({ t with scan := none }, .full)

end Table

/-! ## The invariant -/

/-- The slots; `live p` are the holders of slot `p`. -/
structure SlotsInv (P : Probing Key Id σ) (live : Nat → Nat) (slot : Nat → Slot Key Id σ) : Prop where
  keyed : ∀ p k, (slot p).key = some k → (slot p).id = P.digest k ∧ P.digest k ≠ P.unused
  unkeyed : ∀ p, (slot p).key = none → (slot p).id = P.unused ∧ (slot p).ref = 0
  path : ∀ p k, p < P.n → (slot p).key = some k →
    ∃ m, m < P.n ∧ p = (P.home k + m) % P.n ∧ ∀ j, j < m → (slot ((P.home k + j) % P.n)).key ≠ none
  unique : ∀ p q k, p < P.n → q < P.n → (slot p).key = some k → (slot q).key = some k → p = q
  ref : ∀ p, (slot p).ref = live p

/-- No slot is there for another key of the same digest. -/
def Faithful (P : Probing Key Id σ) (slot : Nat → Slot Key Id σ) (k : Key) : Prop :=
  P.digest k ≠ P.unused ∧ ∀ p k', p < P.n → (slot p).key = some k' → P.digest k' = P.digest k → k' = k

/-- A lookup under way. -/
structure ScanInv (P : Probing Key Id σ) (slot : Nat → Slot Key Id σ) (c : Scan Key) : Prop where
  faithful : Faithful P slot c.key
  i_le : c.i ≤ P.n
  pos : c.pos = (P.home c.key + c.i) % P.n
  seen : ∀ j, j < c.i → ∃ k, (slot ((P.home c.key + j) % P.n)).key = some k ∧ k ≠ c.key
  reused : ∀ r, c.reused = some r → ∃ j, j < c.i ∧ r = (P.home c.key + j) % P.n ∧ (slot r).ref ≤ 0
  taken : c.reused = none → ∀ j, j < c.i → 0 < c.start ((P.home c.key + j) % P.n)
  start : ∀ p, (slot p).ref ≤ c.start p
  left : c.left = true → c.i < P.n ∧ (slot c.pos).key = none ∧ c.reused ≠ none

structure TableInv (P : Probing Key Id σ) (live : Nat → Nat) (t : Table Key Id σ) : Prop where
  slots : SlotsInv P live t.slot
  scan : ∀ c, t.scan = some c → ScanInv P t.slot c

section Basic

variable {P : Probing Key Id σ} {live : Nat → Nat} {slot : Nat → Slot Key Id σ}

/-- Every slot is on the path from any home. -/
theorem exists_offset (P : Probing Key Id σ) (k : Key) {q : Nat} (hq : q < P.n) : ∃ m, m < P.n ∧ q = (P.home k + m) % P.n := by
  obtain ⟨m, hm, heq⟩ := exists_around (P.home k) hq
  exact ⟨m, hm, heq.symm⟩

theorem SlotsInv.used (h : SlotsInv P live slot) {p : Nat} (hid : (slot p).id ≠ P.unused) : ∃ k, (slot p).key = some k := by
  cases hk : (slot p).key with
  | none => exact absurd (h.unkeyed p hk).1 hid
  | some k => exact ⟨k, rfl⟩

/-- A slot of the digest is the key's. -/
theorem SlotsInv.key_of_id (h : SlotsInv P live slot) {k : Key} (hf : Faithful P slot k) {p : Nat} (hp : p < P.n)
    (hid : (slot p).id = P.digest k) : (slot p).key = some k := by
  obtain ⟨k', hk'⟩ := h.used (p := p) (by rw [hid]; exact hf.1)
  rw [hk', hf.2 p k' hp hk' ((h.keyed p k' hk').1.symm.trans hid)]

/-- The slots keep their keys, and their references are the holders. -/
theorem SlotsInv.congr {live' : Nat → Nat} {slot' : Nat → Slot Key Id σ} (h : SlotsInv P live slot)
    (hid : ∀ p, (slot' p).id = (slot p).id)
    (hk : ∀ p, (slot' p).key = (slot p).key) (hr : ∀ p, (slot' p).ref = live' p)
    (hu : ∀ p, (slot p).key = none → (slot' p).ref = 0) : SlotsInv P live' slot' := by
  refine ⟨fun p k hp => ?_, fun p hp => ?_, fun p k hlt hp => ?_, fun p q k hp hq h1 h2 => ?_, hr⟩
  · rw [hk] at hp
    rw [hid]
    exact h.keyed p k hp
  · rw [hk] at hp
    exact ⟨(hid p).trans (h.unkeyed p hp).1, hu p hp⟩
  · rw [hk] at hp
    obtain ⟨m, hm, he, hused⟩ := h.path p k hlt hp
    exact ⟨m, hm, he, fun j hj => by rw [hk]; exact hused j hj⟩
  · rw [hk] at h1 h2
    exact h.unique p q k hp hq h1 h2

/-- The keys are the same, and there are not more references. -/
theorem ScanInv.congr {slot' : Nat → Slot Key Id σ} {c : Scan Key} (h : ScanInv P slot c) (hk : ∀ p, (slot' p).key = (slot p).key)
    (hr : ∀ p, (slot' p).ref ≤ (slot p).ref) : ScanInv P slot' c := by
  refine ⟨⟨h.faithful.1, fun p k' hp hk' he => ?_⟩, h.i_le, h.pos, fun j hj => ?_, fun r he => ?_, h.taken,
    fun p => ?_, fun hl => ?_⟩
  · rw [hk] at hk'
    exact h.faithful.2 p k' hp hk' he
  · rw [hk]
    exact h.seen j hj
  · obtain ⟨j, hj, hrj, hz⟩ := h.reused r he
    exact ⟨j, hj, hrj, (hr r).trans hz⟩
  · exact (hr p).trans (h.start p)
  · rw [hk]
    exact h.left hl

end Basic

/-! ## The steps -/

section Steps

variable {P : Probing Key Id σ} {live live' : Nat → Nat} {t t' : Table Key Id σ}

namespace Table

@[simp] theorem setSlot_self (p : Nat) (x : Slot Key Id σ) : (t.setSlot p x).slot p = x := Function.update_self ..

@[simp] theorem setSlot_of_ne {p q : Nat} (x : Slot Key Id σ) (h : q ≠ p) : (t.setSlot p x).slot q = t.slot q :=
    Function.update_of_ne h ..

end Table

theorem init_inv (hs : ∀ p, (t.slot p).id = P.unused ∧ (t.slot p).ref = 0 ∧ (t.slot p).key = none) (hc : t.scan = none) :
    TableInv P (fun _ => 0) t := by
  refine ⟨⟨fun p k hk => ?_, fun p _ => ⟨(hs p).1, (hs p).2.1⟩, fun p k _ hk => ?_, fun p _ k _ _ hk _ => ?_,
    fun p => (hs p).2.1⟩, ?_⟩
  · rw [(hs p).2.2] at hk
    cases hk
  · rw [(hs p).2.2] at hk
    cases hk
  · rw [(hs p).2.2] at hk
    cases hk
  · intro c hc'
    rw [hc] at hc'
    cases hc'

/-- A slot changes its status or gives a reference back. -/
theorem TableInv.keep (h : TableInv P live t) {p : Nat} {x : Slot Key Id σ} (hid : x.id = (t.slot p).id)
    (hk : x.key = (t.slot p).key)
    (hle : x.ref ≤ (t.slot p).ref) (hr : x.ref = live' p) (hne : ∀ q, q ≠ p → live' q = live q) :
    TableInv P live' (t.setSlot p x) := by
  have hkey : ∀ q, ((t.setSlot p x).slot q).key = (t.slot q).key := by
    intro q
    by_cases e : q = p
    · rw [e, Table.setSlot_self, hk]
    · rw [Table.setSlot_of_ne x e]
  have href : ∀ q, ((t.setSlot p x).slot q).ref ≤ (t.slot q).ref := by
    intro q
    by_cases e : q = p
    · rw [e, Table.setSlot_self]
      exact hle
    · rw [Table.setSlot_of_ne x e]
  have hlive : ∀ q, ((t.setSlot p x).slot q).ref = live' q := by
    intro q
    by_cases e : q = p
    · rw [e, Table.setSlot_self, hr]
    · rw [Table.setSlot_of_ne x e, h.slots.ref, hne q e]
  refine ⟨h.slots.congr (fun q => ?_) hkey hlive (fun q hq => ?_), fun c hc => (h.scan c hc).congr hkey href⟩
  · by_cases e : q = p
    · rw [e, Table.setSlot_self, hid]
    · rw [Table.setSlot_of_ne x e]
  · have h1 := (h.slots.unkeyed q hq).2
    have h2 := href q
    have h3 := hlive q
    omega

theorem release_inv (h : TableInv P live t) {p : Nat} (hp : live p = live' p + 1) (hne : ∀ q, q ≠ p → live' q = live q) :
    TableInv P live' (t.release p) := by
  have hr := h.slots.ref p
  refine h.keep rfl rfl ?_ ?_ hne
  · show (t.slot p).ref - 1 ≤ _
    omega
  · show (t.slot p).ref - 1 = _
    omega

theorem setStatus_inv (h : TableInv P live t) (p : Nat) (st : σ) : TableInv P live (t.setStatus p st) :=
  h.keep rfl rfl le_rfl (h.slots.ref p) fun _ _ => rfl

theorem lock_eq {k : Key} (hs : t.lock P k = some t') :
    t' = { t with scan := some ⟨k, P.home k % P.n, 0, none, false, fun p => (t.slot p).ref⟩ } := by
  unfold Table.lock at hs
  split at hs
  · exact (Option.some.inj hs).symm
  · cases hs

theorem lock_inv (h : TableInv P live t) {k : Key} (hf : Faithful P t.slot k) (hs : t.lock P k = some t') :
    TableInv P live t' := by
  obtain rfl := lock_eq hs
  refine ⟨h.slots, fun c hc => ?_⟩
  obtain rfl := Option.some.inj hc
  exact ⟨hf, Nat.zero_le _, by rw [Nat.add_zero], fun j hj => absurd hj (Nat.not_lt_zero j), nofun,
    fun _ j hj => absurd hj (Nat.not_lt_zero j), fun _ => le_rfl, nofun⟩

/-- The slot of a key that a lookup has not seen up to a never used slot, or at all, is nowhere. -/
theorem ScanInv.absent {c : Scan Key} (h : TableInv P live t) (hc : ScanInv P t.slot c)
    (hend : c.i = P.n ∨ c.i < P.n ∧ (t.slot c.pos).key = none) {q : Nat} (hq : q < P.n) : (t.slot q).key ≠ some c.key := by
  intro hk
  obtain ⟨m, hm, he, hused⟩ := h.slots.path q c.key hq hk
  have hseen : m < c.i → False := by
    intro hlt
    obtain ⟨k, hk', hne⟩ := hc.seen m hlt
    rw [← he, hk] at hk'
    exact hne (Option.some.inj hk').symm
  rcases hend with hi | ⟨hi, hnone⟩
  · exact hseen (by omega)
  · rcases Nat.lt_trichotomy m c.i with hlt | heq | hgt
    · exact hseen hlt
    · rw [hc.pos, ← heq, ← he, hk] at hnone
      cases hnone
    · rw [hc.pos] at hnone
      exact hused c.i hgt hnone

/-- A slot without references that the lookup has come to is taken over. -/
theorem SlotsInv.occupy (h : SlotsInv P live t.slot) {k : Key} {p : Nat} (hf : P.digest k ≠ P.unused) (hz : (t.slot p).ref = 0)
    (habsent : ∀ q, q < P.n → (t.slot q).key ≠ some k)
    (hpath : ∃ m, m < P.n ∧ p = (P.home k + m) % P.n ∧ ∀ j, j < m → (t.slot ((P.home k + j) % P.n)).key ≠ none)
    (hp : live' p = live p + 1) (hne : ∀ q, q ≠ p → live' q = live q) :
    SlotsInv P live' (t.setSlot p (Slot.occupy P k)).slot := by
  have hkey : ∀ q k', q ≠ p → ((t.setSlot p (Slot.occupy P k)).slot q).key = some k' → (t.slot q).key = some k' :=
      fun q k' e hk' => by
    rwa [Table.setSlot_of_ne _ e] at hk'
  have hused : ∀ q, (t.slot q).key ≠ none → ((t.setSlot p (Slot.occupy P k)).slot q).key ≠ none := by
    intro q hq
    by_cases e : q = p
    · rw [e, Table.setSlot_self]
      nofun
    · rwa [Table.setSlot_of_ne _ e]
  have hzero : live p = 0 := by
    have := h.ref p
    omega
  refine ⟨fun q k' hk' => ?_, fun q hq => ?_, fun q k' hlt hk' => ?_, fun q q' k' hq hq' h1 h2 => ?_, fun q => ?_⟩
  · by_cases e : q = p
    · rw [e, Table.setSlot_self] at hk' ⊢
      obtain rfl := Option.some.inj hk'
      exact ⟨rfl, hf⟩
    · rw [Table.setSlot_of_ne _ e] at hk' ⊢
      exact h.keyed q k' hk'
  · by_cases e : q = p
    · rw [e, Table.setSlot_self] at hq
      cases hq
    · rw [Table.setSlot_of_ne _ e] at hq ⊢
      exact h.unkeyed q hq
  · by_cases e : q = p
    · rw [e, Table.setSlot_self] at hk'
      obtain rfl := Option.some.inj hk'
      obtain ⟨m, hm, he, hall⟩ := hpath
      exact ⟨m, hm, e.trans he, fun j hj => hused _ (hall j hj)⟩
    · obtain ⟨m, hm, he, hall⟩ := h.path q k' hlt (hkey q k' e hk')
      exact ⟨m, hm, he, fun j hj => hused _ (hall j hj)⟩
  · by_cases e : q = p <;> by_cases e' : q' = p
    · rw [e, e']
    · rw [e, Table.setSlot_self] at h1
      obtain rfl := Option.some.inj h1
      exact absurd (hkey q' k e' h2) (habsent q' hq')
    · rw [e', Table.setSlot_self] at h2
      obtain rfl := Option.some.inj h2
      exact absurd (hkey q k e h1) (habsent q hq)
    · exact h.unique q q' k' hq hq' (hkey q k' e h1) (hkey q' k' e' h2)
  · by_cases e : q = p
    · rw [e, Table.setSlot_self, hp, hzero]
      rfl
    · rw [Table.setSlot_of_ne _ e, h.ref, hne q e]

/-- How a lookup finds a slot. -/
inductive Found (P : Probing Key Id σ) (t : Table Key Id σ) (k : Key) (p : Nat) : Table Key Id σ → Prop
  | hit (hk : (t.slot p).key = some k) : Found P t k p { t.setSlot p ((t.slot p).refer P) with scan := none }
  | taken (hz : (t.slot p).ref = 0) : Found P t k p { t.setSlot p (Slot.occupy P k) with scan := none }

variable [DecidableEq Id]

/-- The lookup goes on: nothing changes but itself. -/
theorem probe_goesOn (h : TableInv P live t) (hs : t.probe P = some (t', .goesOn)) : TableInv P live t' ∧ t'.slot = t.slot := by
  unfold Table.probe at hs
  split at hs
  · cases hs
  · next c hc =>
    have hi := h.scan c hc
    split at hs
    · next hlt =>
      dsimp only at hs
      have hpos : c.pos < P.n := by
        rw [hi.pos]
        exact Nat.mod_lt _ P.n_pos
      split at hs
      · cases hs
      · next hid =>
        split at hs
        · next hun =>
          split at hs
          · next r hr =>
            obtain ⟨rfl, -⟩ := Prod.mk.inj (Option.some.inj hs)
            refine ⟨⟨h.slots, fun c' hc' => ?_⟩, rfl⟩
            obtain rfl := Option.some.inj hc'
            refine ⟨hi.faithful, hi.i_le, hi.pos, hi.seen, hi.reused, hi.taken, hi.start, fun _ => ⟨hlt.1, ?_, by rw [hr]; nofun⟩⟩
            cases hk : (t.slot c.pos).key with
            | none => rfl
            | some k => exact absurd ((h.slots.keyed _ k hk).1.symm.trans hun) (h.slots.keyed _ k hk).2
          · cases hs
        · next hun =>
          obtain ⟨rfl, -⟩ := Prod.mk.inj (Option.some.inj hs)
          refine ⟨⟨h.slots, fun c' hc' => ?_⟩, rfl⟩
          obtain rfl := Option.some.inj hc'
          obtain ⟨k, hk⟩ := h.slots.used hun
          have hne : k ≠ c.key := by
            intro e
            subst e
            exact hid (h.slots.keyed _ _ hk).1
          refine ⟨hi.faithful, hlt.1, ?_, fun j hj => ?_, fun r hr => ?_, fun hr j hj => ?_, hi.start, fun hl => ?_⟩
          · show (c.pos + 1) % P.n = (P.home c.key + (c.i + 1)) % P.n
            rw [hi.pos, Nat.mod_add_mod, Nat.add_assoc]
          · rcases Nat.lt_succ_iff_lt_or_eq.mp hj with hj | rfl
            · exact hi.seen j hj
            · rw [← hi.pos]
              exact ⟨k, hk, hne⟩
          · dsimp only at hr
            split at hr
            · next hz =>
              obtain rfl := Option.some.inj hr
              exact ⟨c.i, Nat.lt_succ_self _, hi.pos, hz.1⟩
            · obtain ⟨j, hj, hrj, hz⟩ := hi.reused r hr
              exact ⟨j, Nat.lt_succ_of_lt hj, hrj, hz⟩
          · dsimp only at hr
            split at hr
            · cases hr
            · next hz =>
              rcases Nat.lt_succ_iff_lt_or_eq.mp hj with hj | rfl
              · exact hi.taken hr j hj
              · have hpos' : 0 < (t.slot c.pos).ref := by
                  by_contra hle
                  exact hz ⟨by omega, hr⟩
                rw [← hi.pos]
                exact lt_of_lt_of_le hpos' (hi.start c.pos)
          · exact absurd hl (by simp [hlt.2])
    · split at hs <;> cases hs

omit [DecidableEq Id] in
/-- A lookup takes a reference to a slot of its key. -/
theorem SlotsInv.refer (h : SlotsInv P live t.slot) {k : Key} {p : Nat} (hk : (t.slot p).key = some k) (hp : live' p = live p + 1)
    (hne : ∀ q, q ≠ p → live' q = live q) : SlotsInv P live' (t.setSlot p ((t.slot p).refer P)).slot := by
  have hother : ∀ q, q ≠ p → (t.setSlot p ((t.slot p).refer P)).slot q = t.slot q := fun q e => Table.setSlot_of_ne _ e
  refine h.congr (fun q => ?_) (fun q => ?_) (fun q => ?_) fun q hq => ?_
  all_goals by_cases e : q = p
  · rw [e, Table.setSlot_self]
    rfl
  · rw [hother q e]
  · rw [e, Table.setSlot_self]
    rfl
  · rw [hother q e]
  · rw [e, Table.setSlot_self, hp]
    show (t.slot p).ref + 1 = _
    rw [h.ref p]
    rfl
  · rw [hother q e, h.ref, hne q e]
  · rw [e, hk] at hq
    cases hq
  · rw [hother q e]
    exact (h.unkeyed q hq).2

/-- The lookup ends with a slot. -/
theorem probe_found (h : TableInv P live t) {p : Nat} (hs : t.probe P = some (t', .found p)) (hp : live' p = live p + 1)
    (hne : ∀ q, q ≠ p → live' q = live q) : TableInv P live' t' ∧ p < P.n ∧ ∃ c, t.scan = some c ∧ Found P t c.key p t' := by
  unfold Table.probe at hs
  split at hs
  · cases hs
  · next c hc =>
    have hi := h.scan c hc
    have hpos : c.pos < P.n := by
      rw [hi.pos]
      exact Nat.mod_lt _ P.n_pos
    split at hs
    · next hlt =>
      dsimp only at hs
      split at hs
      · next hid =>
        obtain ⟨rfl, he⟩ := Prod.mk.inj (Option.some.inj hs)
        obtain rfl := Probed.found.inj he
        have hk := h.slots.key_of_id hi.faithful hpos hid
        exact ⟨⟨h.slots.refer hk hp hne, nofun⟩, hpos, c, hc, .hit hk⟩
      · split at hs
        · next hun =>
          split at hs
          · cases hs
          · next hr =>
            obtain ⟨rfl, he⟩ := Prod.mk.inj (Option.some.inj hs)
            obtain rfl := Probed.found.inj he
            have hnone : (t.slot c.pos).key = none := by
              cases hk : (t.slot c.pos).key with
              | none => rfl
              | some k => exact absurd ((h.slots.keyed _ k hk).1.symm.trans hun) (h.slots.keyed _ k hk).2
            have hz := (h.slots.unkeyed _ hnone).2
            refine ⟨⟨h.slots.occupy hi.faithful.1 hz (fun q hq => hi.absent h (.inr ⟨hlt.1, hnone⟩) hq) ⟨c.i, hlt.1, hi.pos,
              fun j hj => ?_⟩
              hp hne, nofun⟩, hpos, c, hc, .taken hz⟩
            obtain ⟨k, hk, -⟩ := hi.seen j hj
            rw [hk]
            nofun
        · cases hs
    · next hlt =>
      split at hs
      · next r hr =>
        obtain ⟨rfl, he⟩ := Prod.mk.inj (Option.some.inj hs)
        obtain rfl := Probed.found.inj he
        obtain ⟨j, hj, hrj, hle⟩ := hi.reused r hr
        have hz : (t.slot r).ref = 0 := by
          have := h.slots.ref r
          omega
        have hend : c.i = P.n ∨ c.i < P.n ∧ (t.slot c.pos).key = none := by
          rcases Nat.lt_or_eq_of_le hi.i_le with hi' | hi'
          · have hl : c.left = true := by
              by_contra hl
              exact hlt ⟨hi', by simpa using hl⟩
            exact .inr ⟨hi', (hi.left hl).2.1⟩
          · exact .inl hi'
        have hrlt : r < P.n := by
          rw [hrj]
          exact Nat.mod_lt _ P.n_pos
        refine ⟨⟨h.slots.occupy hi.faithful.1 hz (fun q hq => hi.absent h hend hq) ⟨j, lt_of_lt_of_le hj hi.i_le, hrj,
          fun j' hj' => ?_⟩
          hp hne, nofun⟩, hrlt, c, hc, .taken hz⟩
        obtain ⟨k, hk, -⟩ := hi.seen j' (hj'.trans hj)
        rw [hk]
        nofun
      · cases hs

/-- The lookup ends without a slot: all had references when it began. -/
theorem probe_full (h : TableInv P live t) (hs : t.probe P = some (t', .full)) :
    TableInv P live t' ∧ t'.slot = t.slot ∧ ∃ c, t.scan = some c ∧ ∀ p, p < P.n → 0 < c.start p := by
  unfold Table.probe at hs
  split at hs
  · cases hs
  · next c hc =>
    have hi := h.scan c hc
    split at hs
    · dsimp only at hs
      split at hs
      · cases hs
      · split at hs
        · split at hs <;> cases hs
        · cases hs
    · next hlt =>
      split at hs
      · cases hs
      · next hr =>
        obtain ⟨rfl, -⟩ := Prod.mk.inj (Option.some.inj hs)
        refine ⟨⟨h.slots, nofun⟩, rfl, c, hc, fun p hp => ?_⟩
        have hend : c.i = P.n := by
          rcases Nat.lt_or_eq_of_le hi.i_le with hi' | hi'
          · have hl : c.left = true := by
              by_contra hl
              exact hlt ⟨hi', by simpa using hl⟩
            exact absurd hr (hi.left hl).2.2
          · exact hi'
        obtain ⟨m, hm, rfl⟩ := exists_offset P c.key hp
        exact hi.taken hr m (hend ▸ hm)

end Steps

namespace Found

variable {P : Probing Key Id σ} {t t' : Table Key Id σ} {k : Key} {p : Nat}

theorem slot_of_ne (h : Found P t k p t') {q : Nat} (hq : q ≠ p) : t'.slot q = t.slot q := by
  cases h with
  | hit => exact Function.update_of_ne hq ..
  | taken => exact Function.update_of_ne hq ..

theorem key (h : Found P t k p t') : (t'.slot p).key = some k := by
  cases h with
  | hit hk =>
    show (Function.update t.slot p ((t.slot p).refer P) p).key = _
    rw [Function.update_self]
    exact hk
  | taken =>
    show (Function.update t.slot p (Slot.occupy P k) p).key = _
    rw [Function.update_self]
    rfl

/-- A slot with references keeps its key and its status. -/
theorem same (h : Found P t k p t') {q : Nat} (hq : (t.slot q).ref ≠ 0) :
    (t'.slot q).key = (t.slot q).key ∧ (t'.slot q).id = (t.slot q).id ∧ (t'.slot q).status = (t.slot q).status := by
  by_cases e : q = p
  · subst e
    cases h with
    | hit =>
      show (Function.update t.slot q ((t.slot q).refer P) q).key = _ ∧ (Function.update t.slot q ((t.slot q).refer P) q).id = _ ∧
        (Function.update t.slot q ((t.slot q).refer P) q).status = _
      rw [Function.update_self]
      exact ⟨rfl, rfl, if_neg hq⟩
    | taken hz => exact absurd hz hq
  · rw [h.slot_of_ne e]
    exact ⟨rfl, rfl, rfl⟩

/-- What becomes of the slot itself. -/
theorem self (h : Found P t k p t') : (t.slot p).key = some k ∧ t'.slot p = (t.slot p).refer P ∨ t'.slot p = Slot.occupy P k := by
  cases h with
  | hit hk => exact .inl ⟨hk, Function.update_self ..⟩
  | taken => exact .inr (Function.update_self ..)

/-- The first reference to a slot. -/
theorem first (h : Found P t k p t') (hp : (t.slot p).ref = 0) :
    (t'.slot p).status = P.fresh ∨ (t.slot p).key = some k ∧ (t'.slot p).status = P.revive (t.slot p).status := by
  rcases h.self with ⟨hk, hs⟩ | hs
  · refine .inr ⟨hk, ?_⟩
    rw [hs]
    exact if_pos hp
  · refine .inl ?_
    rw [hs]
    rfl

/-- What becomes of a slot's key and status. -/
theorem change (h : Found P t k p t') (q : Nat) : (t'.slot q).key = (t.slot q).key ∧ (t'.slot q).status = (t.slot q).status ∨
    (t'.slot q).status = P.fresh ∨ (t'.slot q).key = (t.slot q).key ∧ (t'.slot q).status = P.revive (t.slot q).status := by
  by_cases hq : (t.slot q).ref = 0
  · by_cases e : q = p
    · subst e
      rcases h.first hq with hf | ⟨hk, hr⟩
      · exact .inr (.inl hf)
      · exact .inr (.inr ⟨h.key.trans hk.symm, hr⟩)
    · rw [h.slot_of_ne e]
      exact .inl ⟨rfl, rfl⟩
  · exact .inl ⟨(h.same hq).1, (h.same hq).2.2⟩

end Found

end UnifiedCache.Base
