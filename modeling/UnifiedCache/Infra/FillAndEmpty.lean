/-
  UnifiedCache.Infra.FillAndEmpty — a top-N heap that is filled first and emptied then, as the
  recyclers use it (see `UnifiedCache.Infra.TopNHeap`).

  While nothing has been popped the live slots are the first `size_` ones, so a `Push` never meets
  the live slot of `BestN.live_slot_overwritten`, and what was pushed is what is kept and what was
  dropped (`Filled.push`). Popped down from there, the heap gives back what it kept (`Emptied.pop`),
  of which nothing is worse than what was dropped. Where the pops only make room, what stays is no
  worse than what was dropped and what was popped (`Trimmed.pop`).
-/

import UnifiedCache.Infra.BestN

namespace UnifiedCache.Infra

open UnifiedCache.Base.Heap

variable {T : Type} {cmp : T → T → Bool}

namespace TopNHeap

/-- A heap that `seen` was pushed to and that dropped `gone` of it. -/
structure Filled (cmp : T → T → Bool) (h : TopNHeap T) (seen gone : Multiset T) : Prop where
  inv : h.Inv cmp
  packed : h.valSize = h.size
  parts : seen = h.contents + gone
  noWorse : ∀ g ∈ gone, ∀ x ∈ h.contents, ¬ Worse cmp x g
  full : gone ≠ 0 → h.size = h.capacity

/-- The same after pops, which have given `taken`. -/
structure Emptied (cmp : T → T → Bool) (h : TopNHeap T) (seen gone taken : Multiset T) : Prop where
  inv : h.Inv cmp
  parts : seen = h.contents + taken + gone
  noWorse : ∀ g ∈ gone, ∀ x ∈ h.contents + taken, ¬ Worse cmp x g
  count : (h.contents + taken).card ≤ h.capacity

/-- A heap that `seen` was pushed to and that gave `out` of it away, by drops or by pops. -/
structure Trimmed (cmp : T → T → Bool) (h : TopNHeap T) (seen out : Multiset T) : Prop where
  inv : h.Inv cmp
  parts : seen = h.contents + out
  noWorse : ∀ g ∈ out, ∀ x ∈ h.contents, ¬ Worse cmp x g

theorem Inv.size_le {h : TopNHeap T} (hi : h.Inv cmp) : h.size ≤ h.capacity := hi.slots.size_le.trans hi.slots.valSize_le

theorem Inv.size_lt {h : TopNHeap T} {N n : Nat} (hi : h.Inv cmp) (hcap : h.capacity = N) (hN : N < n) : h.size < n := by
  have hle := hi.size_le
  omega

theorem contents_of_empty {h : TopNHeap T} (hzero : h.size = 0) : h.contents = 0 := by
  rw [← Multiset.card_eq_zero, card_contents, hzero]

theorem make_filled (N : Nat) (memory : Nat → T) : (make N memory).Filled cmp 0 0 :=
  ⟨make_inv N memory, rfl, rfl, fun _ hg => absurd hg (Multiset.notMem_zero _), fun h => absurd rfl h⟩

theorem siftUp_valSize {h h' : TopNHeap T} {i : Nat} (hrun : h.siftUp cmp i = some h') : h'.valSize = h.valSize := by
  obtain ⟨idx, _, rfl⟩ := Option.map_eq_some_iff.mp hrun
  rfl

theorem siftDown_valSize {h h' : TopNHeap T} {i : Nat} (hrun : h.siftDown cmp i = some h') : h'.valSize = h.valSize := by
  obtain ⟨idx, _, rfl⟩ := Option.map_eq_some_iff.mp hrun
  rfl

/-- A `Push` constructs a slot where all are live. -/
theorem push_valSize {h h' : TopNHeap T} {value : T} (hpacked : h.valSize = h.size) (hrun : h.push cmp value = some h') :
    h'.valSize = if h.size < h.capacity then h.valSize + 1 else h.valSize := by
  unfold push at hrun
  by_cases hzero : h.capacity = 0
  · rw [if_pos hzero] at hrun
    obtain rfl := Option.some.inj hrun
    rw [if_neg (by omega)]
  rw [if_neg hzero] at hrun
  by_cases hlt : h.size < h.capacity
  · rw [if_pos hlt] at hrun ⊢
    obtain ⟨h₁, hsift, rfl⟩ := Option.map_eq_some_iff.mp hrun
    have hval := siftUp_valSize hsift
    simp only [store, hpacked, Nat.lt_irrefl, if_false] at hval
    rw [hpacked]
    exact hval
  · rw [if_neg hlt] at hrun ⊢
    split at hrun
    · have hval := siftDown_valSize hrun
      exact hval
    · obtain rfl := Option.some.inj hrun
      rfl

variable [IsStrictWeakOrder T (Worse cmp)] {h : TopNHeap T} {seen gone taken : Multiset T}

/-- A `Push` below the capacity keeps the value, one on a full heap drops a worst one of all. -/
theorem Filled.push (hf : h.Filled cmp seen gone) (hfits : h.size < h.capacity ∨ h.size < 2 ^ 31) (value : T) :
    ∃ h' gone', h.push cmp value = some h' ∧ h'.Filled cmp (value ::ₘ seen) gone' ∧ h'.capacity = h.capacity := by
  by_cases hlt : h.size < h.capacity
  · have hgone : gone = 0 := by
      by_contra hne
      have hfull := hf.full hne
      omega
    have hfree : ¬ h.Live h.size := by
      rintro ⟨p, hp, heq⟩
      have hcon := hf.inv.slots.constructed p hp
      have hpacked := hf.packed
      omega
    obtain ⟨h', hrun, hinv, hcontents, _, hcap'⟩ := push_below value hf.inv hlt hfree
    have hsize : h'.size = h.size + 1 := by
      rw [← card_contents h', hcontents, Multiset.card_cons, card_contents]
    refine ⟨h', 0, hrun, ⟨hinv, ?_, ?_, fun _ hg => absurd hg (Multiset.notMem_zero _), fun hne => absurd rfl hne⟩, hcap'⟩
    · rw [push_valSize hf.packed hrun, if_pos hlt, hf.packed, hsize]
    · rw [hf.parts, hgone, hcontents, Multiset.add_zero, Multiset.add_zero]
  · have hfull : h.size = h.capacity := by
      have hle := hf.inv.size_le
      omega
    obtain ⟨h', hrun, hinv, ⟨w, hworst, hitems⟩, _, hcap'⟩ := push_full value hf.inv hlt (by omega)
    have hsize : h'.size = h.size := by
      have hcard := congrArg Multiset.card hitems
      rw [Multiset.card_cons, Multiset.card_cons, card_contents, card_contents] at hcard
      omega
    refine ⟨h', w ::ₘ gone, hrun, ⟨hinv, ?_, ?_, fun g hg x hx => ?_, fun _ => ?_⟩, hcap'⟩
    · rw [push_valSize hf.packed hrun, if_neg hlt, hf.packed, hsize]
    · rw [hf.parts, ← Multiset.cons_add, hitems, Multiset.cons_add, Multiset.add_cons]
    · have hx' : x ∈ value ::ₘ h.contents := by
        rw [hitems]
        exact Multiset.mem_cons_of_mem hx
      rcases Multiset.mem_cons.mp hg with rfl | hg
      · exact hworst.2 x hx'
      · rcases Multiset.mem_cons.mp hx' with rfl | hx'
        · -- the new value is kept: an old one, no worse than what is gone, makes room for it
          rcases Multiset.mem_cons.mp hworst.1 with rfl | hw
          · have hsame : h.contents = h'.contents := (Multiset.cons_inj_right w).mp hitems
            rw [← hsame] at hx
            exact hf.noWorse g hg w hx
          · exact not_lt_trans' (hf.noWorse g hg w hw) (hworst.2 x (Multiset.mem_cons_self _ _))
        · exact hf.noWorse g hg x hx'
    · rw [hsize, hcap', hfull]

omit [IsStrictWeakOrder T (Worse cmp)] in
/-- Below the capacity nothing is dropped. -/
theorem Filled.size_eq (hf : h.Filled cmp seen gone) : h.size = min seen.card h.capacity := by
  have hle := hf.inv.size_le
  have hcard : seen.card = h.size + gone.card := by
    rw [hf.parts, Multiset.card_add, card_contents]
  by_cases hgone : gone = 0
  · rw [hgone, Multiset.card_zero] at hcard
    omega
  · have hfull := hf.full hgone
    omega

omit [IsStrictWeakOrder T (Worse cmp)] in
theorem Filled.trimmed (hf : h.Filled cmp seen gone) : h.Trimmed cmp seen gone := ⟨hf.inv, hf.parts, hf.noWorse⟩

/-- What a `Pop` takes is no better than what stays. -/
theorem Trimmed.pop {out : Multiset T} (ht : h.Trimmed cmp seen out) (hpos : 0 < h.size) (hn : h.size ≤ 2 ^ 31) :
    ∃ h', h.pop cmp = some h' ∧ h'.Trimmed cmp seen (h.top ::ₘ out) ∧ h.contents = h.top ::ₘ h'.contents ∧
      h'.size + 1 = h.size := by
  obtain ⟨h', hrun, hinv, hworst, hitems, _, _⟩ := pop_spec ht.inv hpos hn
  have hstay : ∀ x ∈ h'.contents, x ∈ h.contents := by
    intro x hx
    rw [hitems]
    exact Multiset.mem_cons_of_mem hx
  refine ⟨h', hrun, ⟨hinv, ?_, fun g hg x hx => ?_⟩, hitems, ?_⟩
  · rw [ht.parts, hitems, Multiset.cons_add, Multiset.add_cons]
  · rcases Multiset.mem_cons.mp hg with rfl | hg
    · exact hworst.2 x (hstay x hx)
    · exact ht.noWorse g hg x (hstay x hx)
  · rw [← card_contents h, hitems, Multiset.card_cons, card_contents]

omit [IsStrictWeakOrder T (Worse cmp)] in
theorem Filled.emptied (hf : h.Filled cmp seen gone) : h.Emptied cmp seen gone 0 := by
  refine ⟨hf.inv, ?_, ?_, ?_⟩
  · rw [hf.parts, Multiset.add_zero]
  · rw [Multiset.add_zero]
    exact hf.noWorse
  · rw [Multiset.add_zero, card_contents]
    exact hf.inv.size_le

/-- A `Pop` gives `Top`. -/
theorem Emptied.pop (he : h.Emptied cmp seen gone taken) (hpos : 0 < h.size) (hn : h.size ≤ 2 ^ 31) :
    ∃ h', h.pop cmp = some h' ∧ h'.Emptied cmp seen gone (h.top ::ₘ taken) ∧ h'.size < h.size ∧ h'.capacity = h.capacity := by
  obtain ⟨h', hrun, hinv, _, hitems, _, hcap'⟩ := pop_spec he.inv hpos hn
  have hmoved : h'.contents + h.top ::ₘ taken = h.contents + taken := by
    rw [hitems, Multiset.add_cons, Multiset.cons_add]
  refine ⟨h', hrun, ⟨hinv, ?_, ?_, ?_⟩, ?_, hcap'⟩
  · rw [hmoved]
    exact he.parts
  · rw [hmoved]
    exact he.noWorse
  · rw [hmoved, hcap']
    exact he.count
  · have hcard := congrArg Multiset.card hitems
    rw [Multiset.card_cons, card_contents, card_contents] at hcard
    omega

omit [IsStrictWeakOrder T (Worse cmp)] in
/-- An empty heap has given all it kept. -/
theorem Emptied.done (he : h.Emptied cmp seen gone taken) (hzero : h.size = 0) :
    seen = taken + gone ∧ taken.card ≤ h.capacity ∧ ∀ g ∈ gone, ∀ x ∈ taken, ¬ Worse cmp x g := by
  have hnil := contents_of_empty hzero
  have hparts := he.parts
  have hworse := he.noWorse
  have hcount := he.count
  rw [hnil, Multiset.zero_add] at hparts hworse hcount
  exact ⟨hparts, hcount, hworse⟩

end TopNHeap

end UnifiedCache.Infra
