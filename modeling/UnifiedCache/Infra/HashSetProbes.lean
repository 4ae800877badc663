/-
  UnifiedCache.Infra.HashSetProbes — the hash set refines a set of keys (see
  `UnifiedCache.Infra.HashSet`).

  - The slots of a shard are cells under open addressing (`cellAt`), which `Shard.Inv` is about.
  - Each loop visits the slots around the ring from the key's home, once each, and so ends
    (`findFrom_spec`, `insertFrom_spec`, `emptyFrom_spec`). The counts keep a slot empty while a
    key is added, so `Insert` never comes all the way around.
  - `rehash_spec`, `insert_spec`, `remove_spec`: what each operation makes of the keys of a shard.
  - `hashSet_refines`: over every sequence of operations.
-/

import UnifiedCache.Infra.HashSet

namespace UnifiedCache.Infra

open UnifiedCache.Base

variable {Key : Type}

/-! ## Slots as cells -/

def Slot.cell (slot : Slot Key) : Cell Key :=
  match slot.state, slot.key with
  | .empty, _ => .empty
  | .occupied, some k => .occupied k
  | _, _ => .deleted

def cellAt (keys : List (Slot Key)) (i : Nat) : Cell Key :=
  match keys[i]? with
  | some slot => slot.cell
  | none => .empty

variable {keys : List (Slot Key)} {slot : Slot Key} {key k : Key} {i : Nat}

theorem isEmpty_iff : slot.isEmpty = true ↔ slot.cell = .empty := by
  obtain ⟨key, state⟩ := slot
  cases state <;> cases key <;> simp [Slot.isEmpty, Slot.cell]

theorem isDeleted_of_empty (h : slot.cell = .empty) : slot.isDeleted = false := by
  obtain ⟨key, state⟩ := slot
  cases state <;> cases key <;> simp [Slot.isDeleted, Slot.cell] at h ⊢

theorem isDeleted_cell (h : slot.isDeleted = true) : slot.cell = .deleted := by
  obtain ⟨key, state⟩ := slot
  cases state <;> cases key <;> simp [Slot.isDeleted, Slot.cell] at h ⊢

theorem isOccupied_of_cell (h : slot.cell = .occupied k) : slot.isOccupied = true ∧ slot.key = some k := by
  obtain ⟨key, state⟩ := slot
  cases state <;> cases key <;> simp [Slot.isOccupied, Slot.cell] at h ⊢
  exact h

theorem cell_of_isOccupied (h : slot.isOccupied = true) (hk : slot.key = some k) : slot.cell = .occupied k := by
  obtain ⟨key, state⟩ := slot
  cases hk
  cases state <;> simp [Slot.isOccupied, Slot.cell] at h ⊢

theorem holds_iff [DecidableEq Key] : slot.holds key = true ↔ slot.cell = .occupied key := by
  constructor
  · intro h
    simp only [Slot.holds, Bool.and_eq_true, decide_eq_true_eq] at h
    exact cell_of_isOccupied h.1 h.2
  · intro h
    obtain ⟨hocc, hk⟩ := isOccupied_of_cell h
    simp [Slot.holds, hocc, hk]

theorem cellAt_some (h : keys[i]? = some slot) : cellAt keys i = slot.cell := by
  unfold cellAt
  rw [h]

theorem cellAt_set (hi : i < keys.length) : cellAt (keys.set i slot) = Function.update (cellAt keys) i slot.cell := by
  funext j
  by_cases hj : j = i
  · rw [hj, Function.update_self, cellAt_some (List.getElem?_set_self hi)]
  · rw [Function.update_of_ne hj]
    unfold cellAt
    rw [List.getElem?_set_ne (Ne.symm hj)]

theorem cellAt_replicate (n : Nat) : cellAt (List.replicate n ({} : Slot Key)) = fun _ => .empty := by
  funext i
  cases h : (List.replicate n ({} : Slot Key))[i]? with
  | none => rw [cellAt, h]
  | some slot =>
    rw [cellAt_some h, List.eq_of_mem_replicate (List.mem_of_getElem? h)]
    rfl

theorem exists_slot (hi : i < keys.length) : ∃ slot, keys[i]? = some slot ∧ slot ∈ keys :=
  ⟨keys[i], List.getElem?_eq_getElem hi, List.getElem_mem hi⟩

/-- Where the counts do not fill the vector, a slot is empty. -/
theorem exists_empty (h : keys.countP Slot.isOccupied + keys.countP Slot.isDeleted < keys.length) :
    ∃ i < keys.length, cellAt keys i = .empty := by
  have hsum : ∀ l : List (Slot Key),
      l.countP Slot.isEmpty + l.countP Slot.isOccupied + l.countP Slot.isDeleted = l.length := by
    intro l
    induction l with
    | nil => rfl
    | cons slot l ih =>
      obtain ⟨key, state⟩ := slot
      cases state <;> simp [Slot.isEmpty, Slot.isOccupied, Slot.isDeleted] at ih ⊢ <;> omega
  have hpos : 0 < keys.countP Slot.isEmpty := by
    have heq := hsum keys
    omega
  obtain ⟨slot, hmem, hempty⟩ := List.countP_pos_iff.mp hpos
  obtain ⟨i, hi, hget⟩ := List.getElem_of_mem hmem
  refine ⟨i, hi, ?_⟩
  rw [cellAt_some (List.getElem?_eq_getElem hi), hget]
  exact isEmpty_iff.mp hempty

/-! ## The probe loops -/

section Probes

variable {p home m fuel : Nat}

theorem probe_around (hcap : keys.length = 2 ^ p) :
    probe (around keys.length home m) keys.length = around keys.length home (m + 1) := by
  unfold probe
  rw [hcap, Nat.and_two_pow_sub_one_eq_mod, around_succ]

/-- The loop is back at its start after as many slots as there are, not before. -/
theorem probe_start_iff (hcap : keys.length = 2 ^ p) (hhome : home < keys.length) (hm : m < keys.length) :
    probe (around keys.length home m) keys.length = home ↔ m + 1 = keys.length := by
  rw [probe_around hcap]
  constructor
  · intro heq
    by_contra hne
    have hzero : around keys.length home (m + 1) = around keys.length home 0 := by
      rw [heq, around_zero hhome]
    have habs := around_inj (by omega) (by omega) hzero
    omega
  · intro heq
    rw [heq, around_self hhome]

variable [DecidableEq Key]

/-- The search of `Contains` and `Remove`, by induction on the slots left: none of those passed
    holds the key. -/
theorem findFrom_spec {homeOf : Key → Nat} (hcap : keys.length = 2 ^ p) (hhome : homeOf key < keys.length)
    (hfuel : 0 < fuel) (hm : m + fuel = keys.length)
    (hpassed : ∀ j < m, cellAt keys (around keys.length (homeOf key) j) ≠ .occupied key) :
    (∃ i < keys.length, findFrom keys key (homeOf key) fuel (around keys.length (homeOf key) m) = some (some i) ∧
      cellAt keys i = .occupied key) ∨
    (findFrom keys key (homeOf key) fuel (around keys.length (homeOf key) m) = some none ∧
      ∃ m, Missed keys.length homeOf (cellAt keys) key m) := by
  induction fuel generalizing m with
  | zero => omega
  | succ fuel ih =>
    have hlt : around keys.length (homeOf key) m < keys.length := around_lt (by omega) m
    obtain ⟨slot, hslot, _⟩ := exists_slot hlt
    have hcell := cellAt_some hslot
    unfold findFrom
    rw [hslot]
    simp only
    by_cases hempty : slot.isEmpty = true
    · rw [if_pos hempty]
      refine .inr ⟨rfl, m, hpassed, .inr ?_⟩
      rw [hcell, isEmpty_iff.mp hempty]
    · rw [if_neg hempty]
      by_cases hholds : slot.holds key = true
      · rw [if_pos hholds]
        exact .inl ⟨_, hlt, rfl, by rw [hcell, holds_iff.mp hholds]⟩
      · rw [if_neg hholds]
        have hpassed' : ∀ j < m + 1, cellAt keys (around keys.length (homeOf key) j) ≠ .occupied key := by
          intro j hj
          by_cases heq : j = m
          · rw [heq, hcell]
            exact fun h => hholds (holds_iff.mpr h)
          · exact hpassed j (by omega)
        by_cases hround : probe (around keys.length (homeOf key) m) keys.length = homeOf key
        · rw [if_pos hround]
          have hend := (probe_start_iff hcap hhome (by omega)).mp hround
          refine .inr ⟨rfl, m + 1, hpassed', .inl hend⟩
        · rw [if_neg hround, probe_around hcap]
          have hnot : m + 1 ≠ keys.length := fun h => hround ((probe_start_iff hcap hhome (by omega)).mpr h)
          exact ih (by omega) (by omega) hpassed'

/-- A slot the key may be put in: on its path, with no empty slot before it, and not occupied. -/
structure Target (keys : List (Slot Key)) (home target : Nat) : Prop where
  path : ∃ m < keys.length, target = around keys.length home m ∧ ∀ j < m, cellAt keys (around keys.length home j) ≠ .empty
  free : ∀ k, cellAt keys target ≠ .occupied k

/-- The probe of `Insert`, where a slot is empty. -/
theorem insertFrom_spec {homeOf : Key → Nat} {firstDeleted : Nat} (hcap : keys.length = 2 ^ p)
    (hhome : homeOf key < keys.length) (hempty : ∃ i < keys.length, cellAt keys i = .empty)
    (hfuel : 0 < fuel) (hm : m + fuel = keys.length)
    (hpassed : ∀ j < m, cellAt keys (around keys.length (homeOf key) j) ≠ .occupied key)
    (hused : ∀ j < m, cellAt keys (around keys.length (homeOf key) j) ≠ .empty)
    (hdeleted : firstDeleted ≠ keys.length → Target keys (homeOf key) firstDeleted) :
    (insertFrom keys key (homeOf key) fuel (around keys.length (homeOf key) m) firstDeleted = some .present ∧
      Holds keys.length (cellAt keys) key) ∨
    (∃ target, insertFrom keys key (homeOf key) fuel (around keys.length (homeOf key) m) firstDeleted = some (.free target) ∧
      Target keys (homeOf key) target ∧ ∃ m, Missed keys.length homeOf (cellAt keys) key m) := by
  induction fuel generalizing m firstDeleted with
  | zero => omega
  | succ fuel ih =>
    have hlt : around keys.length (homeOf key) m < keys.length := around_lt (by omega) m
    obtain ⟨slot, hslot, _⟩ := exists_slot hlt
    have hcell := cellAt_some hslot
    unfold insertFrom
    rw [hslot]
    simp only
    by_cases hholds : slot.holds key = true
    · rw [if_pos hholds]
      exact .inl ⟨rfl, _, hlt, by rw [hcell, holds_iff.mp hholds]⟩
    · rw [if_neg hholds]
      have hpassed' : ∀ j < m + 1, cellAt keys (around keys.length (homeOf key) j) ≠ .occupied key := by
        intro j hj
        by_cases heq : j = m
        · rw [heq, hcell]
          exact fun h => hholds (holds_iff.mpr h)
        · exact hpassed j (by omega)
      have hhere : (∀ k, slot.cell ≠ .occupied k) → Target keys (homeOf key) (around keys.length (homeOf key) m) :=
        fun hfree => ⟨⟨m, by omega, rfl, hused⟩, by rw [hcell]; exact hfree⟩
      generalize hfd : (if (slot.isDeleted && decide (firstDeleted = keys.length)) = true then
        around keys.length (homeOf key) m else firstDeleted) = fd
      have hdeleted' : fd ≠ keys.length → Target keys (homeOf key) fd := by
        intro hne
        rw [← hfd] at hne ⊢
        split
        · rename_i hdel
          simp only [Bool.and_eq_true] at hdel
          refine hhere fun k => ?_
          rw [isDeleted_cell hdel.1]
          nofun
        · rename_i hnot
          rw [if_neg hnot] at hne
          exact hdeleted hne
      by_cases hslotEmpty : slot.isEmpty = true
      · rw [if_pos hslotEmpty]
        have hcellEmpty := isEmpty_iff.mp hslotEmpty
        refine .inr ⟨_, rfl, ?_, m, hpassed, .inr (by rw [hcell, hcellEmpty])⟩
        split
        · rename_i hne
          exact hdeleted' hne
        · refine hhere fun k => ?_
          rw [hcellEmpty]
          nofun
      · rw [if_neg hslotEmpty]
        have hused' : ∀ j < m + 1, cellAt keys (around keys.length (homeOf key) j) ≠ .empty := by
          intro j hj
          by_cases heq : j = m
          · rw [heq, hcell]
            exact fun h => hslotEmpty (isEmpty_iff.mpr h)
          · exact hused j (by omega)
        have hnot : m + 1 ≠ keys.length := by
          intro heq
          obtain ⟨i, hi, hiEmpty⟩ := hempty
          obtain ⟨j, hj, rfl⟩ := exists_around (homeOf key) hi
          exact hused' j (by omega) hiEmpty
        have hround : probe (around keys.length (homeOf key) m) keys.length ≠ homeOf key :=
          fun h => hnot ((probe_start_iff hcap hhome (by omega)).mp h)
        rw [if_neg hround, probe_around hcap]
        exact ih (by omega) (by omega) hpassed' hused' hdeleted'

omit [DecidableEq Key] in
/-- The loop to the first empty slot. -/
theorem emptyFrom_spec {m₀ : Nat} (hcap : keys.length = 2 ^ p) (hm₀ : m₀ < keys.length)
    (hempty : cellAt keys (around keys.length home m₀) = .empty)
    (hused : ∀ j < m₀, cellAt keys (around keys.length home j) ≠ .empty) (hle : m ≤ m₀) (hfuel : m₀ < m + fuel) :
    emptyFrom keys fuel (around keys.length home m) = some (around keys.length home m₀) := by
  induction fuel generalizing m with
  | zero => omega
  | succ fuel ih =>
    have hlt : around keys.length home m < keys.length := around_lt (by omega) m
    obtain ⟨slot, hslot, _⟩ := exists_slot hlt
    have hcell := cellAt_some hslot
    unfold emptyFrom
    rw [hslot]
    simp only
    by_cases heq : m = m₀
    · subst heq
      have hslotEmpty : slot.isEmpty = true := isEmpty_iff.mpr (by rw [← hcell, hempty])
      rw [hslotEmpty]
      rfl
    · have hnot : slot.isEmpty ≠ true := fun h => hused m (by omega) (by rw [hcell, isEmpty_iff.mp h])
      rw [Bool.eq_false_iff.mpr hnot]
      simp only [Bool.not_false, if_true]
      rw [probe_around hcap]
      exact ih (by omega) (by omega)

end Probes

/-! ## A shard -/

variable {hash : Key → UInt64} {shardBits : Nat} {s : Shard Key}

structure Shard.Inv (hash : Key → UInt64) (shardBits : Nat) (s : Shard Key) : Prop where
  cap : s.keys.length = 0 ∨ ∃ p, s.keys.length = 2 ^ p
  keyed : ∀ slot ∈ s.keys, slot.isOccupied = true → ∃ k, slot.key = some k
  addressed : Addressed s.keys.length (homeIn hash shardBits s.keys.length) (cellAt s.keys)
  used : s.used = s.keys.countP Slot.isOccupied
  tombstones : s.tombstones = s.keys.countP Slot.isDeleted

/-- The key is in the shard. -/
def Shard.Has (s : Shard Key) (k : Key) : Prop := Holds s.keys.length (cellAt s.keys) k

theorem homeIn_lt {p cap : Nat} (hcap : cap = 2 ^ p) (key : Key) : homeIn hash shardBits cap key < cap := by
  unfold homeIn
  rw [hcap, Nat.and_two_pow_sub_one_eq_mod]
  exact Nat.mod_lt _ (Nat.two_pow_pos p)

/-- An absent key written to a target of its path. -/
theorem Shard.Inv.write (h : s.Inv hash shardBits) (habsent : ¬ s.Has key) {target : Nat}
    (htarget : Target s.keys (homeIn hash shardBits s.keys.length key) target) :
    (s.write key target).Inv hash shardBits ∧ ∀ k, (s.write key target).Has k ↔ k = key ∨ s.Has k := by
  obtain ⟨m, hm, rfl, hpath⟩ := htarget.path
  have hi : around s.keys.length (homeIn hash shardBits s.keys.length key) m < s.keys.length := around_lt (by omega) m
  generalize hat : around s.keys.length (homeIn hash shardBits s.keys.length key) m = i at hi htarget
  have hlen : (s.write key i).keys.length = s.keys.length := List.length_set ..
  have hcells : cellAt (s.write key i).keys = Function.update (cellAt s.keys) i (.occupied key) := cellAt_set hi
  obtain ⟨slot, hslot, hmem⟩ := exists_slot hi
  have hgetElem : s.keys[i] = slot := by
    rw [List.getElem?_eq_getElem hi] at hslot
    exact Option.some.inj hslot
  have hnot : slot.isOccupied = false := by
    rw [Bool.eq_false_iff]
    intro hocc
    obtain ⟨k, hk⟩ := h.keyed slot hmem hocc
    exact htarget.free k (by rw [cellAt_some hslot, cell_of_isOccupied hocc hk])
  refine ⟨⟨?_, ?_, ?_, ?_, ?_⟩, ?_⟩
  · rw [hlen]
    exact h.cap
  · intro slot' hslot' hocc
    rcases List.mem_or_eq_of_mem_set hslot' with hold | rfl
    · exact h.keyed slot' hold hocc
    · exact ⟨key, rfl⟩
  · rw [hlen, hcells, ← hat]
    exact h.addressed.put habsent hm hpath
  · show s.used + 1 = (s.keys.set i (.written key)).countP Slot.isOccupied
    rw [List.countP_set hi, hgetElem, hnot, h.used]
    rfl
  · show (if (s.keys[i]?.map Slot.isDeleted).getD false then s.tombstones - 1 else s.tombstones) =
      (s.keys.set i (.written key)).countP Slot.isDeleted
    have hwritten : (Slot.written key).isDeleted = false := rfl
    rw [List.countP_set hi, hgetElem, hslot, h.tombstones, hwritten, Option.map_some, Option.getD_some]
    cases slot.isDeleted <;> rfl
  · intro k
    unfold Shard.Has
    rw [hlen, hcells, holds_put hi htarget.free]

theorem write_length (target : Nat) : (s.write key target).keys.length = s.keys.length := List.length_set ..

/-- `place` puts an absent key in a shard with an empty slot. -/
theorem place_spec (h : s.Inv hash shardBits) (habsent : ¬ s.Has key) (hroom : s.used + s.tombstones < s.keys.length) :
    ∃ s', s.place hash shardBits key = some s' ∧ s'.Inv hash shardBits ∧ s'.keys.length = s.keys.length ∧
      s'.used = s.used + 1 ∧ s'.tombstones = s.tombstones ∧ ∀ k, s'.Has k ↔ k = key ∨ s.Has k := by
  rw [h.used, h.tombstones] at hroom
  obtain ⟨p, hcap⟩ : ∃ p, s.keys.length = 2 ^ p := by
    rcases h.cap with hzero | hp
    · omega
    · exact hp
  obtain ⟨m, hm, hempty, hpath⟩ := exists_first_empty (homeIn hash shardBits s.keys.length key) (exists_empty hroom)
  have hloop : emptyFrom s.keys s.keys.length (around s.keys.length (homeIn hash shardBits s.keys.length key) 0) =
      some (around s.keys.length (homeIn hash shardBits s.keys.length key) m) :=
    emptyFrom_spec hcap hm hempty hpath (Nat.zero_le m) (by omega)
  rw [around_zero (homeIn_lt hcap key)] at hloop
  have hi : around s.keys.length (homeIn hash shardBits s.keys.length key) m < s.keys.length := around_lt (by omega) m
  generalize hat : around s.keys.length (homeIn hash shardBits s.keys.length key) m = i at hi hempty hloop
  obtain ⟨slot, hslot, _⟩ := exists_slot hi
  have hcellEmpty : slot.cell = .empty := by
    rw [← cellAt_some hslot]
    exact hempty
  have hdel := isDeleted_of_empty hcellEmpty
  have hwrite : s.place hash shardBits key = some (s.write key i) := by
    unfold Shard.place Shard.write
    rw [hloop, hslot]
    simp [hdel]
  have htarget : Target s.keys (homeIn hash shardBits s.keys.length key) i := by
    refine ⟨⟨m, hm, hat.symm, hpath⟩, fun k => ?_⟩
    rw [hempty]
    nofun
  obtain ⟨hinv, hhas⟩ := h.write habsent htarget
  refine ⟨_, hwrite, hinv, write_length i, rfl, ?_, hhas⟩
  rw [hinv.tombstones, h.tombstones]
  show (s.keys.set i (.written key)).countP Slot.isDeleted = _
  have hgetElem : s.keys[i] = slot := by
    rw [List.getElem?_eq_getElem hi] at hslot
    exact Option.some.inj hslot
  rw [List.countP_set hi, hgetElem, hdel]
  rfl

/-- The keys of the old slots are all placed, by induction on the slots left. -/
theorem placeAll_spec {old : List (Slot Key)} (h : s.Inv hash shardBits)
    (hkeyed : ∀ slot ∈ old, slot.isOccupied = true → ∃ k, slot.key = some k)
    (hunique : old.Pairwise fun a b => ∀ k, a.cell = .occupied k → b.cell ≠ .occupied k)
    (hnew : ∀ slot ∈ old, ∀ k, slot.cell = .occupied k → ¬ s.Has k)
    (hroom : s.used + s.tombstones + old.countP Slot.isOccupied < s.keys.length) :
    ∃ s', s.placeAll hash shardBits old = some s' ∧ s'.Inv hash shardBits ∧ s'.keys.length = s.keys.length ∧
      s'.used = s.used + old.countP Slot.isOccupied ∧ s'.tombstones = s.tombstones ∧
      ∀ k, s'.Has k ↔ (∃ slot ∈ old, slot.cell = .occupied k) ∨ s.Has k := by
  induction old generalizing s with
  | nil => exact ⟨s, rfl, h, rfl, rfl, rfl, fun k => by simp⟩
  | cons slot old ih =>
    rw [List.pairwise_cons] at hunique
    have hkeyed' : ∀ slot ∈ old, slot.isOccupied = true → ∃ k, slot.key = some k :=
      fun slot' hmem => hkeyed slot' (List.mem_cons_of_mem _ hmem)
    by_cases hocc : slot.isOccupied = true
    · obtain ⟨key, hkey⟩ := hkeyed slot List.mem_cons_self hocc
      have hcell := cell_of_isOccupied hocc hkey
      rw [List.countP_cons_of_pos hocc] at hroom ⊢
      obtain ⟨s₁, hplace, hinv, hlen, hused, htomb, hhas⟩ :=
        place_spec h (hnew slot List.mem_cons_self key hcell) (by omega)
      have hnew₁ : ∀ slot' ∈ old, ∀ k, slot'.cell = .occupied k → ¬ s₁.Has k := by
        intro slot' hmem k hk hin
        rcases (hhas k).mp hin with rfl | hold
        · exact hunique.1 slot' hmem k hcell hk
        · exact hnew slot' (List.mem_cons_of_mem _ hmem) k hk hold
      obtain ⟨s₂, hall, hinv₂, hlen₂, hused₂, htomb₂, hhas₂⟩ :=
        ih hinv hkeyed' hunique.2 hnew₁ (by omega)
      refine ⟨s₂, ?_, hinv₂, hlen₂.trans hlen, by omega, htomb₂.trans htomb, ?_⟩
      · unfold Shard.placeAll
        simp only [hocc, Bool.not_true, Bool.false_eq_true, if_false, hkey, hplace]
        exact hall
      · intro k
        rw [hhas₂, hhas, List.exists_mem_cons_iff, hcell]
        constructor
        · rintro (hold | rfl | hin)
          · exact .inl (.inr hold)
          · exact .inl (.inl rfl)
          · exact .inr hin
        · rintro ((heq | hold) | hin)
          · exact .inr (.inl (Cell.occupied.inj heq).symm)
          · exact .inl hold
          · exact .inr (.inr hin)
    · rw [List.countP_cons_of_neg hocc] at hroom ⊢
      obtain ⟨s₂, hall, hinv₂, hlen₂, hused₂, htomb₂, hhas₂⟩ := ih h hkeyed' hunique.2
        (fun slot' hmem => hnew slot' (List.mem_cons_of_mem _ hmem)) hroom
      refine ⟨s₂, ?_, hinv₂, hlen₂, hused₂, htomb₂, ?_⟩
      · unfold Shard.placeAll
        rw [Bool.eq_false_iff.mpr hocc]
        exact hall
      · intro k
        have hnot : slot.cell ≠ .occupied k := fun heq => hocc (isOccupied_of_cell heq).1
        rw [hhas₂, List.exists_mem_cons_iff]
        simp only [hnot, false_or]

theorem has_iff_mem : s.Has k ↔ ∃ slot ∈ s.keys, slot.cell = .occupied k := by
  constructor
  · rintro ⟨i, hi, hk⟩
    obtain ⟨slot, hslot, hmem⟩ := exists_slot hi
    exact ⟨slot, hmem, by rw [← cellAt_some hslot, hk]⟩
  · rintro ⟨slot, hmem, hk⟩
    obtain ⟨i, hi, hget⟩ := List.getElem_of_mem hmem
    refine ⟨i, hi, ?_⟩
    rw [cellAt_some (List.getElem?_eq_getElem hi), hget, hk]

theorem Shard.Inv.pairwise (h : s.Inv hash shardBits) :
    s.keys.Pairwise fun a b => ∀ k, a.cell = .occupied k → b.cell ≠ .occupied k := by
  rw [List.pairwise_iff_getElem]
  intro i j hi hj hlt k hki hkj
  have heq := h.addressed.unique i j k hi hj (by rw [cellAt_some (List.getElem?_eq_getElem hi), hki])
    (by rw [cellAt_some (List.getElem?_eq_getElem hj), hkj])
  omega

/-- An empty vector of `2 ^ p` slots. -/
theorem fresh_inv (hash : Key → UInt64) (shardBits p : Nat) :
    ({ keys := List.replicate (2 ^ p) {} } : Shard Key).Inv hash shardBits ∧
    ∀ k, ¬ ({ keys := List.replicate (2 ^ p) {} } : Shard Key).Has k := by
  refine ⟨⟨.inr ⟨p, List.length_replicate ..⟩, ?_, ?_, ?_, ?_⟩, ?_⟩
  · intro slot hmem hocc
    rw [List.eq_of_mem_replicate hmem] at hocc
    cases hocc
  · rw [cellAt_replicate]
    exact addressed_fresh
  · rw [List.countP_replicate]
    rfl
  · rw [List.countP_replicate]
    rfl
  · intro k
    unfold Shard.Has
    rw [cellAt_replicate]
    exact not_holds_fresh k

/-- `RehashShard` keeps the keys and drops the tombstones; a quarter of the slots stay empty. -/
theorem rehash_spec (h : s.Inv hash shardBits) : ∃ s', s.rehash hash shardBits = some s' ∧ s'.Inv hash shardBits ∧
    s'.used + s'.tombstones < s'.keys.length ∧ ∀ k, s'.Has k ↔ s.Has k := by
  obtain ⟨p, hp, hlt⟩ : ∃ p, (if s.keys.isEmpty then 8 else s.keys.length * 2) = 2 ^ p ∧ s.keys.length < 2 ^ p := by
    rcases h.cap with hzero | ⟨p, hp⟩
    · refine ⟨3, ?_, by omega⟩
      rw [List.isEmpty_iff.mpr (List.length_eq_zero_iff.mp hzero)]
      rfl
    · have hpos := Nat.two_pow_pos p
      have hne : s.keys.isEmpty = false := by
        rw [Bool.eq_false_iff]
        intro hempty
        rw [List.isEmpty_iff.mp hempty] at hp
        simp only [List.length_nil] at hp
        omega
      refine ⟨p + 1, ?_, ?_⟩
      · rw [hne, hp, Nat.pow_succ]
        rfl
      · rw [hp, Nat.pow_succ]
        omega
  obtain ⟨hfresh, hnone⟩ := fresh_inv hash shardBits p
  have hcount : s.keys.countP Slot.isOccupied ≤ s.keys.length := List.countP_le_length
  have hlen : ({ keys := List.replicate (2 ^ p) {} } : Shard Key).keys.length = 2 ^ p := List.length_replicate ..
  obtain ⟨s', hall, hinv, hlen', hused, htomb, hhas⟩ := placeAll_spec hfresh h.keyed h.pairwise
    (fun _ _ k _ => hnone k) (by
      rw [hlen]
      show 0 + 0 + _ < _
      omega)
  refine ⟨s', ?_, hinv, ?_, fun k => ?_⟩
  · unfold Shard.rehash
    rw [hp]
    exact hall
  · rw [hlen', hlen, hused, htomb]
    show 0 + _ + 0 < _
    omega
  · rw [hhas, has_iff_mem (s := s)]
    exact or_iff_left (hnone k)

section Operations

variable [DecidableEq Key]

theorem insertProbed_spec (h : s.Inv hash shardBits) (hroom : s.used + s.tombstones < s.keys.length) (key : Key) :
    ∃ s' added, s.insertProbed hash shardBits key = some (s', added) ∧ s'.Inv hash shardBits ∧
      (∀ k, s'.Has k ↔ k = key ∨ s.Has k) ∧ (added = true ↔ ¬ s.Has key) := by
  rw [h.used, h.tombstones] at hroom
  obtain ⟨p, hcap⟩ : ∃ p, s.keys.length = 2 ^ p := by
    rcases h.cap with hzero | hp
    · omega
    · exact hp
  have hhome : homeIn hash shardBits s.keys.length key < s.keys.length := homeIn_lt hcap key
  have hprobe := insertFrom_spec (m := 0) hcap hhome (exists_empty hroom) (Nat.zero_lt_of_lt hhome) (Nat.zero_add _) nofun nofun
    (fun hne => absurd rfl hne)
  rw [around_zero hhome] at hprobe
  simp only [Shard.insertProbed]
  rcases hprobe with ⟨hfound, hhas⟩ | ⟨target, hfree, htarget, m, hmissed⟩
  · rw [hfound]
    refine ⟨s, false, rfl, h, fun k => ?_, ?_⟩
    · constructor
      · exact .inr
      · rintro (rfl | hin)
        · exact hhas
        · exact hin
    · exact iff_of_false Bool.false_ne_true (fun hnot => hnot hhas)
  · rw [hfree]
    have habsent : ¬ s.Has key := h.addressed.absent hmissed
    obtain ⟨hinv, hhas⟩ := h.write habsent htarget
    exact ⟨_, true, rfl, hinv, hhas, iff_of_true rfl habsent⟩

theorem insert_spec (h : s.Inv hash shardBits) (key : Key) :
    ∃ s' added, s.insert hash shardBits key = some (s', added) ∧ s'.Inv hash shardBits ∧
      (∀ k, s'.Has k ↔ k = key ∨ s.Has k) ∧ (added = true ↔ ¬ s.Has key) := by
  obtain ⟨s₁, hfirst, hinv, hroom, hhas⟩ : ∃ s₁, (if (s.used + s.tombstones) * 4 ≥ s.keys.length * 3 then
      s.rehash hash shardBits else some s) = some s₁ ∧ s₁.Inv hash shardBits ∧ s₁.used + s₁.tombstones < s₁.keys.length ∧
      ∀ k, s₁.Has k ↔ s.Has k := by
    by_cases hload : (s.used + s.tombstones) * 4 ≥ s.keys.length * 3
    · rw [if_pos hload]
      exact rehash_spec h
    · rw [if_neg hload]
      exact ⟨s, rfl, h, by omega, fun k => Iff.rfl⟩
  obtain ⟨s', added, hprobed, hinv', hhas', hadded⟩ := insertProbed_spec hinv hroom key
  refine ⟨s', added, ?_, hinv', ?_, ?_⟩
  · unfold Shard.insert
    have hcap : s₁.keys.length ≠ 0 := by omega
    rw [hfirst, Option.bind_some, if_neg hcap]
    exact hprobed
  · intro k
    rw [hhas', hhas]
  · rw [hadded, hhas]

theorem find_spec (h : s.Inv hash shardBits) (key : Key) :
    (∃ i < s.keys.length, s.find hash shardBits key = some (some i) ∧ cellAt s.keys i = .occupied key) ∨
    (s.find hash shardBits key = some none ∧ ¬ s.Has key) := by
  unfold Shard.find
  rcases h.cap with hzero | ⟨p, hcap⟩
  · rw [if_pos hzero]
    refine .inr ⟨rfl, ?_⟩
    rintro ⟨i, hi, _⟩
    omega
  · have hhome : homeIn hash shardBits s.keys.length key < s.keys.length := homeIn_lt hcap key
    rw [if_neg (by omega)]
    have hprobe := findFrom_spec (m := 0) hcap hhome (Nat.zero_lt_of_lt hhome) (Nat.zero_add _) nofun
    rw [around_zero hhome] at hprobe
    rcases hprobe with hfound | ⟨hnone, m, hmissed⟩
    · exact .inl hfound
    · exact .inr ⟨hnone, h.addressed.absent hmissed⟩

theorem remove_spec (h : s.Inv hash shardBits) (key : Key) :
    ∃ s' removed, s.remove hash shardBits key = some (s', removed) ∧ s'.Inv hash shardBits ∧
      (∀ k, s'.Has k ↔ k ≠ key ∧ s.Has k) ∧ (removed = true ↔ s.Has key) := by
  unfold Shard.remove
  rcases find_spec h key with ⟨i, hi, hfound, hcell⟩ | ⟨hnone, habsent⟩
  · rw [hfound]
    obtain ⟨slot, hslot, hmem⟩ := exists_slot hi
    have hgetElem : s.keys[i] = slot := by
      rw [List.getElem?_eq_getElem hi] at hslot
      exact Option.some.inj hslot
    have hslotCell : slot.cell = .occupied key := by rw [← cellAt_some hslot, hcell]
    obtain ⟨hocc, _⟩ := isOccupied_of_cell hslotCell
    have hdel : slot.isDeleted = false := by
      rw [Bool.eq_false_iff]
      intro hdel
      rw [cellAt_some hslot, isDeleted_cell hdel] at hcell
      cases hcell
    have hlen : (s.keys.set i .removed).length = s.keys.length := List.length_set ..
    have hcells : cellAt (s.keys.set i .removed) = Function.update (cellAt s.keys) i .deleted := cellAt_set hi
    have hremoved : (Slot.removed : Slot Key).isOccupied = false ∧ (Slot.removed : Slot Key).isDeleted = true := ⟨rfl, rfl⟩
    have hone : 0 < s.keys.countP Slot.isOccupied := List.countP_pos_iff.mpr ⟨slot, hmem, hocc⟩
    refine ⟨_, true, rfl, ⟨?_, ?_, ?_, ?_, ?_⟩, ?_, ?_⟩
    · rw [hlen]
      exact h.cap
    · intro slot' hslot' hocc'
      rcases List.mem_or_eq_of_mem_set hslot' with hold | rfl
      · exact h.keyed slot' hold hocc'
      · cases hocc'
    · rw [hlen, hcells]
      exact h.addressed.delete i
    · show s.used - 1 = (s.keys.set i .removed).countP Slot.isOccupied
      rw [List.countP_set hi, hgetElem, hocc, hremoved.1, h.used]
      rfl
    · show s.tombstones + 1 = (s.keys.set i .removed).countP Slot.isDeleted
      rw [List.countP_set hi, hgetElem, hdel, hremoved.2, h.tombstones]
      rfl
    · intro k
      unfold Shard.Has
      rw [hlen, hcells, h.addressed.holds_delete hi hcell]
    · exact iff_of_true rfl ⟨i, hi, hcell⟩
  · rw [hnone]
    refine ⟨s, false, rfl, h, fun k => ?_, iff_of_false Bool.false_ne_true habsent⟩
    constructor
    · intro hin
      refine ⟨?_, hin⟩
      intro e
      subst e
      exact habsent hin
    · exact fun hin => hin.2

/-! ## The set -/

/-- The set `A` is what the hash set holds. -/
structure Refines (hash : Key → UInt64) (shardBits : Nat) (s : HashSet Key) (A : Finset Key) : Prop where
  shards : ∀ i, (s.shards i).Inv hash shardBits
  home : ∀ i k, (s.shards i).Has k → i = shardIndex hash shardBits k
  mem : ∀ k, (s.shards (shardIndex hash shardBits k)).Has k ↔ k ∈ A
  size : s.size = A.card

variable {S S' : HashSet Key} {A A' : Finset Key}

/-- An operation on the shard of `key` that changes only `key`. -/
theorem Refines.setShard (h : Refines hash shardBits S A) {shard : Shard Key} {size : Nat}
    (hinv : shard.Inv hash shardBits) (hother : ∀ k, k ≠ key → (shard.Has k ↔ (S.shards (shardIndex hash shardBits key)).Has k))
    (hkey : shard.Has key ↔ key ∈ A') (hA : ∀ k, k ≠ key → (k ∈ A' ↔ k ∈ A)) (hsize : size = A'.card) :
    Refines hash shardBits (S.setShard (shardIndex hash shardBits key) shard size) A' := by
  refine ⟨fun i => ?_, fun i k => ?_, fun k => ?_, hsize⟩
  · show (Function.update S.shards _ shard i).Inv hash shardBits
    by_cases hi : i = shardIndex hash shardBits key
    · rw [hi, Function.update_self]
      exact hinv
    · rw [Function.update_of_ne hi]
      exact h.shards i
  · show (Function.update S.shards _ shard i).Has k → _
    by_cases hi : i = shardIndex hash shardBits key
    · rw [hi, Function.update_self]
      intro hin
      by_cases hk : k = key
      · rw [hk]
      · exact h.home _ k ((hother k hk).mp hin)
    · rw [Function.update_of_ne hi]
      exact h.home i k
  · show (Function.update S.shards _ shard _).Has k ↔ _
    by_cases hk : k = key
    · rw [hk, Function.update_self]
      exact hkey
    · rw [hA k hk, ← h.mem k]
      by_cases hi : shardIndex hash shardBits k = shardIndex hash shardBits key
      · rw [hi, Function.update_self]
        exact hother k hk
      · rw [Function.update_of_ne hi]

theorem Refines.insert (h : Refines hash shardBits S A) (key : Key) :
    ∃ S', S.insert hash shardBits key = some S' ∧ Refines hash shardBits S' (Insert.insert key A) := by
  obtain ⟨shard, added, hins, hinv, hhas, hadded⟩ := insert_spec (h.shards (shardIndex hash shardBits key)) key
  rw [h.mem key] at hadded
  simp only [HashSet.insert]
  rw [hins]
  refine ⟨_, rfl, h.setShard hinv ?_ ?_ ?_ ?_⟩
  · intro k hk
    rw [hhas]
    exact or_iff_right hk
  · exact iff_of_true ((hhas key).mpr (.inl rfl)) (Finset.mem_insert_self key A)
  · intro k hk
    rw [Finset.mem_insert]
    exact or_iff_right hk
  · by_cases hin : key ∈ A
    · have hno : added = false := by
        rw [Bool.eq_false_iff]
        exact fun hyes => hadded.mp hyes hin
      rw [hno, Finset.insert_eq_of_mem hin]
      exact h.size
    · rw [hadded.mpr hin, Finset.card_insert_of_notMem hin, ← h.size]
      rfl

theorem Refines.remove (h : Refines hash shardBits S A) (key : Key) :
    ∃ S', S.remove hash shardBits key = some S' ∧ Refines hash shardBits S' (A.erase key) := by
  obtain ⟨shard, removed, hrem, hinv, hhas, hremoved⟩ := remove_spec (h.shards (shardIndex hash shardBits key)) key
  rw [h.mem key] at hremoved
  simp only [HashSet.remove]
  rw [hrem]
  refine ⟨_, rfl, h.setShard hinv ?_ ?_ ?_ ?_⟩
  · intro k hk
    rw [hhas]
    exact and_iff_right hk
  · exact iff_of_false (fun hin => ((hhas key).mp hin).1 rfl) (Finset.notMem_erase key A)
  · intro k hk
    rw [Finset.mem_erase]
    exact and_iff_right hk
  · by_cases hin : key ∈ A
    · rw [hremoved.mpr hin, Finset.card_erase_of_mem hin, ← h.size]
      rfl
    · have hno : removed = false := by
        rw [Bool.eq_false_iff]
        exact fun hyes => hin (hremoved.mp hyes)
      rw [hno, Finset.erase_eq_of_notMem hin]
      exact h.size

theorem Refines.contains (h : Refines hash shardBits S A) (key : Key) :
    S.contains hash shardBits key = some (decide (key ∈ A)) := by
  unfold HashSet.contains
  rcases find_spec (h.shards (shardIndex hash shardBits key)) key with ⟨i, hi, hfound, hcell⟩ | ⟨hnone, habsent⟩
  · have hin : key ∈ A := (h.mem key).mp ⟨i, hi, hcell⟩
    rw [hfound, decide_eq_true hin]
    rfl
  · rw [h.mem key] at habsent
    rw [hnone, decide_eq_false habsent]
    rfl

/-! ## Sequences of calls -/

/-- What a call makes of a set. -/
def Op.apply (A : Finset Key) : Op Key → Finset Key
  | .insert key => Insert.insert key A
  | .remove key => A.erase key
  | .contains _ => A

theorem Refines.call (h : Refines hash shardBits S A) (op : Op Key) :
    ∃ S', S.call hash shardBits op = some S' ∧ Refines hash shardBits S' (op.apply A) := by
  cases op with
  | insert key => exact h.insert key
  | remove key => exact h.remove key
  | contains key => exact ⟨S, by rw [HashSet.call, h.contains key]; rfl, h⟩

/-- By induction on the calls. -/
theorem Refines.calls (h : Refines hash shardBits S A) (ops : List (Op Key)) :
    ∃ S', S.calls hash shardBits ops = some S' ∧ Refines hash shardBits S' (ops.foldl Op.apply A) := by
  induction ops generalizing S A with
  | nil => exact ⟨S, rfl, h⟩
  | cons op ops ih =>
    obtain ⟨S₁, hcall, h₁⟩ := h.call op
    obtain ⟨S₂, hcalls, h₂⟩ := ih h₁
    refine ⟨S₂, ?_, h₂⟩
    rw [HashSet.calls, hcall]
    exact hcalls

omit [DecidableEq Key] in
theorem refines_init : Refines hash shardBits ({} : HashSet Key) ∅ := by
  have hnone : ∀ k, ¬ ({} : Shard Key).Has k := fun k ⟨i, hi, _⟩ => absurd hi (Nat.not_lt_zero i)
  refine ⟨fun i => ⟨.inl rfl, nofun, ⟨nofun, nofun⟩, rfl, rfl⟩, fun i k hin => (hnone k hin).elim, fun k => ?_, rfl⟩
  exact iff_of_false (hnone k) (Finset.notMem_empty k)

/-- The calls that decide whether the key is in the set. -/
def Op.changes (k : Key) : Op Key → Bool
  | .insert key => key = k
  | .remove key => key = k
  | .contains _ => false

/-- The last of `Insert(k)` and `Remove(k)` was an `Insert`. -/
def inserted (ops : List (Op Key)) (k : Key) : Bool := (ops.filter (Op.changes k)).getLast? = some (.insert k)

theorem mem_foldl_apply (ops : List (Op Key)) (k : Key) : k ∈ ops.foldl Op.apply ∅ ↔ inserted ops k = true := by
  induction ops using List.reverseRecOn with
  | nil => exact iff_of_false (Finset.notMem_empty k) (by simp [inserted])
  | append_singleton ops op ih =>
    rw [List.foldl_append]
    unfold inserted at ih ⊢
    rw [List.filter_append]
    by_cases hop : op.changes k = true
    · rw [List.filter_cons_of_pos hop, List.filter_nil, List.getLast?_concat]
      cases op with
      | insert key =>
        obtain rfl : key = k := by simpa [Op.changes] using hop
        simp [Op.apply]
      | remove key =>
        obtain rfl : key = k := by simpa [Op.changes] using hop
        simp [Op.apply]
      | contains key => cases hop
    · rw [List.filter_cons_of_neg hop, List.filter_nil, List.append_nil, ← ih]
      cases op with
      | insert key =>
        have hne : k ≠ key := by
          intro e
          subst e
          exact hop (by simp [Op.changes])
        simp [Op.apply, hne]
      | remove key =>
        have hne : k ≠ key := by
          intro e
          subst e
          exact hop (by simp [Op.changes])
        simp [Op.apply, hne]
      | contains key => rfl

theorem exists_op_of_inserted {ops : List (Op Key)} (h : inserted ops k = true) : ∃ op ∈ ops, op.key = k := by
  simp only [inserted, decide_eq_true_eq] at h
  exact ⟨_, List.mem_of_mem_filter (List.mem_of_getLast? h), rfl⟩

/-- The slots a key occupies: the shard and the place in it. -/
def HashSet.OccupiedBy (s : HashSet Key) (k : Key) (i j : Nat) : Prop :=
  ∃ slot, (s.shards i).keys[j]? = some slot ∧ slot.isOccupied = true ∧ slot.key = some k

/-- Any sequence of calls on an empty set ends, and leaves a set that contains the keys whose last
    `Insert` or `Remove` was an `Insert`, whose size is their number, and in which no key
    occupies two slots. -/
theorem hashSet_refines (hash : Key → UInt64) (shardBits : Nat) (ops : List (Op Key)) :
    ∃ s, HashSet.calls hash shardBits ops {} = some s ∧
      (∀ k, s.contains hash shardBits k = some (inserted ops k)) ∧
      s.size = ((ops.map Op.key).toFinset.filter fun k => inserted ops k = true).card ∧
      ∀ k i j i' j', s.OccupiedBy k i j → s.OccupiedBy k i' j' → i = i' ∧ j = j' := by
  obtain ⟨s, hcalls, h⟩ := (refines_init : Refines hash shardBits _ _).calls ops
  refine ⟨s, hcalls, fun k => ?_, ?_, ?_⟩
  · rw [h.contains k]
    congr 1
    rw [Bool.eq_iff_iff, decide_eq_true_eq]
    exact mem_foldl_apply ops k
  · rw [h.size]
    congr 1
    ext k
    rw [mem_foldl_apply, Finset.mem_filter, List.mem_toFinset, List.mem_map]
    exact (and_iff_right_of_imp exists_op_of_inserted).symm
  · rintro k i j i' j' ⟨slot, hslot, hocc, hkey⟩ ⟨slot', hslot', hocc', hkey'⟩
    obtain ⟨hj, _⟩ := List.getElem?_eq_some_iff.mp hslot
    obtain ⟨hj', _⟩ := List.getElem?_eq_some_iff.mp hslot'
    have hcell : cellAt (s.shards i).keys j = .occupied k := by rw [cellAt_some hslot, cell_of_isOccupied hocc hkey]
    have hcell' : cellAt (s.shards i').keys j' = .occupied k := by rw [cellAt_some hslot', cell_of_isOccupied hocc' hkey']
    have hi := h.home i k ⟨j, hj, hcell⟩
    obtain rfl : i = i' := hi.trans (h.home i' k ⟨j', hj', hcell'⟩).symm
    exact ⟨rfl, (h.shards i).addressed.unique j j' k hj hj' hcell hcell'⟩

/-- One home for all keys: the third is found past the tombstone of the second. -/
example : (HashSet.calls (fun _ => 0) 0 [.insert 1, .insert 2, .insert 3, .remove 2] ({} : HashSet Nat)).map
    (fun s => (s.contains (fun _ => 0) 0 3, s.contains (fun _ => 0) 0 2, s.size)) = some (some true, some false, 2) := by
  decide

end Operations

end UnifiedCache.Infra
