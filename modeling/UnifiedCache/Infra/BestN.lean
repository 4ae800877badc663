/-
  UnifiedCache.Infra.BestN — what the top-N heap keeps (see `UnifiedCache.Infra.TopNHeap`).

  The reference is a multiset: `Push` adds a value and drops a worst one when there are more than
  `N`, `Pop` removes a worst one. Which of several worst values goes is left open.

  - `siftUpFrom_spec`, `siftDownFrom_spec`: the loops end, permute the indices and restore the order.
  - `Inv`: the live slots are distinct and constructed, and their values are in heap order.
  - `keeps_best`: in every run whose steps meet `Meets` the contents follow the reference, `Top` is
    a worst of them, and a step writes to no live slot but the one whose value is dropped.

  `Meets` asks that a `Push` below the capacity finds slot `size_` not live, that `Pop` finds a
  value, and that the sifted places are below `2 ^ 31`. `live_slot_overwritten` is a run that does
  not: a `Pop` that leaves slot 1 live, then a `Push`.
-/

import UnifiedCache.Infra.TopNHeap

namespace UnifiedCache.Infra

open UnifiedCache.Base.Heap

variable {T : Type} {cmp : T → T → Bool} {val : Nat → T} {idx : Nat → Nat} {n pos fuel : Nat}

/-- `a` is worse than `b`. -/
abbrev Worse (cmp : T → T → Bool) (a b : T) : Prop := cmp a b = true

/-! ## Sifting -/

section Sift

variable [IsStrictWeakOrder T (Worse cmp)]

/-- By induction on the rounds left; each moves the hole to its parent. -/
theorem siftUpFrom_spec (h : UpOrder (Worse cmp) n (val ∘ idx) pos) (hpos : pos < n) (hfuel : pos < fuel) :
    ∃ σ : Equiv.Perm Nat, Within n σ ∧ siftUpFrom (fun s s' => cmp (val s) (val s')) fuel pos idx = some (idx ∘ σ) ∧
      Ordered (Worse cmp) n (val ∘ idx ∘ σ) := by
  induction fuel generalizing pos idx with
  | zero => omega
  | succ fuel ih =>
    unfold siftUpFrom
    by_cases hroot : pos > 0
    · have hup : heapParent pos < pos := parent_lt hroot
      rw [if_pos hroot]
      simp only
      by_cases hworse : cmp (val (idx pos)) (val (idx (heapParent pos))) = true
      · rw [hworse]
        simp only [Bool.not_true, Bool.false_eq_true, if_false]
        have hmove : UpOrder (Worse cmp) n (val ∘ idx ∘ Equiv.swap pos (heapParent pos)) (heapParent pos) :=
          h.move hroot hpos hworse
        obtain ⟨σ, hσ, hrun, hord⟩ := ih hmove (by omega) (by omega)
        exact ⟨σ.trans (Equiv.swap pos (heapParent pos)), hσ.trans (within_swap hpos (by omega)), hrun, hord⟩
      · rw [Bool.eq_false_iff.mpr hworse]
        simp only [Bool.not_false, if_true]
        exact ⟨Equiv.refl Nat, fun i => Iff.rfl, rfl, h.finish fun _ => hworse⟩
    · rw [if_neg hroot]
      exact ⟨Equiv.refl Nat, fun i => Iff.rfl, rfl, h.finish fun hp => absurd hp hroot⟩

omit [IsStrictWeakOrder T (Worse cmp)] in
theorem children_eq (hpos : pos < n) (hn : n < 2 ^ 31) : left pos = 2 * pos + 1 ∧ right pos = 2 * pos + 2 := by
  unfold left right
  omega

/-- The place keeps its index only if no child's value is worse. -/
theorem bestOf_spec (hpos : pos < n) (hn : n < 2 ^ 31) :
    (bestOf (fun s s' => cmp (val s) (val s')) n pos idx = pos ∧
      ∀ c, IsChild c pos → c < n → ¬ Worse cmp (val (idx c)) (val (idx pos))) ∨
    (bestOf (fun s s' => cmp (val s) (val s')) n pos idx ≠ pos ∧
      IsChild (bestOf (fun s s' => cmp (val s) (val s')) n pos idx) pos ∧
      bestOf (fun s s' => cmp (val s) (val s')) n pos idx < n ∧
      Worse cmp (val (idx (bestOf (fun s s' => cmp (val s) (val s')) n pos idx))) (val (idx pos)) ∧
      ∀ c, IsChild c pos → c < n →
      ¬ Worse cmp (val (idx c)) (val (idx (bestOf (fun s s' => cmp (val s) (val s')) n pos idx)))) := by
  obtain ⟨hl, hr⟩ := children_eq hpos hn
  have hirrefl : ∀ x : T, ¬ Worse cmp x x := irrefl_of (Worse cmp)
  have hchild : ∀ {c}, IsChild c pos → c = 2 * pos + 1 ∨ c = 2 * pos + 2 := isChild_iff.mp
  unfold bestOf
  simp only [hl, hr, Bool.and_eq_true, decide_eq_true_eq]
  by_cases hleft : 2 * pos + 1 < n ∧ cmp (val (idx (2 * pos + 1))) (val (idx pos)) = true
  · rw [if_pos hleft]
    by_cases hright : 2 * pos + 2 < n ∧ cmp (val (idx (2 * pos + 2))) (val (idx (2 * pos + 1))) = true
    · rw [if_pos hright]
      refine .inr ⟨by omega, isChild_iff.mpr (.inr rfl), hright.1, IsTrans.trans _ _ _ hright.2 hleft.2, ?_⟩
      intro c hc hcn
      rcases hchild hc with rfl | rfl
      · exact not_lt_of_lt hright.2
      · exact hirrefl _
    · rw [if_neg hright]
      refine .inr ⟨by omega, isChild_iff.mpr (.inl rfl), hleft.1, hleft.2, ?_⟩
      intro c hc hcn
      rcases hchild hc with rfl | rfl
      · exact hirrefl _
      · exact fun hw => hright ⟨hcn, hw⟩
  · rw [if_neg hleft]
    by_cases hright : 2 * pos + 2 < n ∧ cmp (val (idx (2 * pos + 2))) (val (idx pos)) = true
    · rw [if_pos hright]
      refine .inr ⟨by omega, isChild_iff.mpr (.inr rfl), hright.1, hright.2, ?_⟩
      intro c hc hcn
      rcases hchild hc with rfl | rfl
      · have hle : ¬ Worse cmp (val (idx pos)) (val (idx (2 * pos + 2))) := not_lt_of_lt hright.2
        have hge : ¬ Worse cmp (val (idx (2 * pos + 1))) (val (idx pos)) := fun hw => hleft ⟨hcn, hw⟩
        exact not_lt_trans' hle hge
      · exact hirrefl _
    · rw [if_neg hright]
      refine .inl ⟨rfl, ?_⟩
      intro c hc hcn
      rcases hchild hc with rfl | rfl
      · exact fun hw => hleft ⟨hcn, hw⟩
      · exact fun hw => hright ⟨hcn, hw⟩

/-- By induction on the rounds left; each moves the hole to a child. -/
theorem siftDownFrom_spec (h : DownOrder (Worse cmp) n (val ∘ idx) pos) (hpos : pos < n) (hn : n < 2 ^ 31)
    (hfuel : n ≤ pos + fuel) :
    ∃ σ : Equiv.Perm Nat, Within n σ ∧ siftDownFrom (fun s s' => cmp (val s) (val s')) n fuel pos idx = some (idx ∘ σ) ∧
      Ordered (Worse cmp) n (val ∘ idx ∘ σ) := by
  induction fuel generalizing pos idx with
  | zero => omega
  | succ fuel ih =>
    unfold siftDownFrom
    simp only
    rcases @bestOf_spec T cmp val idx n pos _ hpos hn with ⟨hstay, hno⟩ | ⟨hgo, hchild, hlt, hworse, hbest⟩
    · rw [if_pos hstay]
      exact ⟨Equiv.refl Nat, fun i => Iff.rfl, rfl, h.finish hno⟩
    · rw [if_neg hgo]
      have hdown := parent_lt hchild.1
      rw [hchild.2] at hdown
      obtain ⟨σ, hσ, hrun, hord⟩ := ih (h.move hchild hlt hworse hbest) hlt (by omega)
      exact ⟨σ.trans (Equiv.swap pos _), hσ.trans (within_swap hpos hlt), hrun, hord⟩

end Sift

/-! ## The reference -/

/-- What a call makes of the values kept, of which there may be `N`. -/
def RefStep (cmp : T → T → Bool) (N : Nat) (A : Multiset T) (op : HeapOp T) (A' : Multiset T) : Prop :=
  match op with
  | .push value =>
    if A.card < N then A' = value ::ₘ A
    else ∃ w, FirstOf (Worse cmp) w (value ::ₘ A) ∧ value ::ₘ A = w ::ₘ A'
  | .pop => ∃ w, FirstOf (Worse cmp) w A ∧ A = w ::ₘ A'
  | .clear => A' = 0

/-- What a sequence of calls may make of them. -/
def Outcome (cmp : T → T → Bool) (N : Nat) : List (HeapOp T) → Multiset T → Multiset T → Prop
  | [], A, A' => A' = A
  | op :: ops, A, A' => ∃ A₁, RefStep cmp N A op A₁ ∧ Outcome cmp N ops A₁ A'

namespace TopNHeap

def contents (h : TopNHeap T) : Multiset T := items h.size (h.val ∘ h.idx)

/-- The slot of a value kept. -/
def Live (h : TopNHeap T) (i : Nat) : Prop := ∃ p < h.size, h.idx p = i

/-- The calls that find the heap as the code expects it. -/
def Meets (h : TopNHeap T) : HeapOp T → Prop
  | .push _ => (h.size < h.capacity → ¬ h.Live h.size) ∧ (h.size = h.capacity → h.size < 2 ^ 31)
  | .pop => 0 < h.size ∧ h.size ≤ 2 ^ 31
  | .clear => True

/-- A call writes to no live slot, except that a full heap gives the slot of `Top` to a new value. -/
def Kept (h h' : TopNHeap T) : Prop := ∀ i, h.Live i → h'.val i ≠ h.val i → h.size = h.capacity ∧ i = h.idx 0

/-- The live slots are distinct and constructed. -/
structure Slots (h : TopNHeap T) : Prop where
  inj : ∀ p q, p < h.size → q < h.size → h.idx p = h.idx q → p = q
  constructed : ∀ p < h.size, h.idx p < h.valSize
  size_le : h.size ≤ h.valSize
  valSize_le : h.valSize ≤ h.capacity

structure Inv (cmp : T → T → Bool) (h : TopNHeap T) : Prop where
  slots : h.Slots
  ordered : Ordered (Worse cmp) h.size (h.val ∘ h.idx)

theorem Slots.perm {h : TopNHeap T} (hs : h.Slots) {σ : Equiv.Perm Nat} (hσ : Within h.size σ) :
    ({ h with idx := h.idx ∘ σ } : TopNHeap T).Slots := by
  refine ⟨fun p q hp hq heq => ?_, fun p hp => ?_, hs.size_le, hs.valSize_le⟩
  · exact σ.injective (hs.inj (σ p) (σ q) ((hσ p).mpr hp) ((hσ q).mpr hq) heq)
  · exact hs.constructed (σ p) ((hσ p).mpr hp)

theorem contents_perm (h : TopNHeap T) {σ : Equiv.Perm Nat} (hσ : Within h.size σ) :
    ({ h with idx := h.idx ∘ σ } : TopNHeap T).contents = h.contents := by
  unfold contents
  exact items_perm (a := h.val ∘ h.idx) hσ

theorem card_contents (h : TopNHeap T) : h.contents.card = h.size := card_items

/-- Slot `size_` is written, and constructed if it was not. -/
theorem store_eq {h : TopNHeap T} (hs : h.size ≤ h.valSize) (value : T) : h.store value =
    { h with val := Function.update h.val h.size value, valSize := max h.valSize (h.size + 1) } := by
  unfold store
  by_cases hlt : h.size < h.valSize
  · rw [if_pos hlt, Nat.max_eq_left hlt]
  · have heq : h.valSize = h.size := by omega
    rw [if_neg hlt, heq, Nat.max_eq_right (Nat.le_succ _)]

section Calls

variable [IsStrictWeakOrder T (Worse cmp)] {h : TopNHeap T}

theorem siftDown_spec (hs : h.Slots) (hord : DownOrder (Worse cmp) h.size (h.val ∘ h.idx) 0) (hpos : 0 < h.size)
    (hn : h.size < 2 ^ 31) : ∃ h', h.siftDown cmp 0 = some h' ∧ h'.Inv cmp ∧ h'.contents = h.contents ∧ h'.val = h.val ∧
      h'.capacity = h.capacity := by
  have hfuel : h.size ≤ 0 + h.size := by omega
  obtain ⟨σ, hσ, hrun, hordered⟩ := siftDownFrom_spec hord hpos hn hfuel
  refine ⟨{ h with idx := h.idx ∘ σ }, ?_, ⟨hs.perm hσ, hordered⟩, contents_perm h hσ, rfl, rfl⟩
  unfold siftDown
  rw [hrun]
  rfl

/-- A `Push` below the capacity, into a slot that is not live. -/
theorem push_below (value : T) (hi : h.Inv cmp) (hlt : h.size < h.capacity) (hfree : ¬ h.Live h.size) :
    ∃ h', h.push cmp value = some h' ∧ h'.Inv cmp ∧ h'.contents = value ::ₘ h.contents ∧
      h'.val = Function.update h.val h.size value ∧ h'.capacity = h.capacity := by
  have hne : ∀ p < h.size, h.idx p ≠ h.size := fun p hp heq => hfree ⟨p, hp, heq⟩
  let h₁ : TopNHeap T := { h with
    val := Function.update h.val h.size value
    valSize := max h.valSize (h.size + 1)
    idx := Function.update h.idx h.size h.size
    size := h.size + 1 }
  have hold : ∀ p < h.size, (h₁.val ∘ h₁.idx) p = (h.val ∘ h.idx) p := by
    intro p hp
    show Function.update h.val h.size value (Function.update h.idx h.size h.size p) = h.val (h.idx p)
    have hpn : p ≠ h.size := by omega
    rw [Function.update_of_ne hpn, Function.update_of_ne (hne p hp)]
  have hnew : (h₁.val ∘ h₁.idx) h.size = value := by
    show Function.update h.val h.size value (Function.update h.idx h.size h.size h.size) = value
    rw [Function.update_self, Function.update_self]
  have hslots : h₁.Slots := by
    have hidx : ∀ p, p < h.size + 1 → (p < h.size ∧ h₁.idx p = h.idx p) ∨ (p = h.size ∧ h₁.idx p = h.size) := by
      intro p hp
      by_cases heq : p = h.size
      · exact .inr ⟨heq, by rw [heq]; exact Function.update_self ..⟩
      · exact .inl ⟨by omega, Function.update_of_ne heq ..⟩
    refine ⟨fun p q hp hq heq => ?_, fun p hp => ?_, Nat.le_max_right .., ?_⟩
    · rcases hidx p hp with ⟨hp', hpe⟩ | ⟨rfl, hpe⟩
      · rcases hidx q hq with ⟨hq', hqe⟩ | ⟨rfl, hqe⟩
        · exact hi.slots.inj p q hp' hq' (by rw [← hpe, ← hqe]; exact heq)
        · exact absurd (hpe.symm.trans (heq.trans hqe)) (hne p hp')
      · rcases hidx q hq with ⟨hq', hqe⟩ | ⟨rfl, _⟩
        · exact absurd (hqe.symm.trans (heq.symm.trans hpe)) (hne q hq')
        · rfl
    · show h₁.idx p < max h.valSize (h.size + 1)
      rcases hidx p hp with ⟨hp', hpe⟩ | ⟨rfl, hpe⟩
      · have hlt' := hi.slots.constructed p hp'
        omega
      · omega
    · show max h.valSize (h.size + 1) ≤ h.capacity
      have hle := hi.slots.valSize_le
      omega
  obtain ⟨σ, hσ, hrun, hordered⟩ := siftUpFrom_spec (hi.ordered.append hold) (Nat.lt_succ_self _) (Nat.lt_succ_self _)
  refine ⟨{ h₁ with idx := h₁.idx ∘ σ }, ?_, ⟨hslots.perm hσ, hordered⟩, ?_, rfl, rfl⟩
  · unfold push
    rw [if_neg (by omega), if_pos hlt, store_eq hi.slots.size_le]
    simp only [siftUp]
    erw [hrun]
    rfl
  · rw [contents_perm h₁ hσ]
    show items (h.size + 1) (h₁.val ∘ h₁.idx) = _
    rw [items_succ, hnew, items_congr hold]
    rfl

/-- A `Push` on a full heap: a worst of the values and the new one is dropped. -/
theorem push_full (value : T) (hi : h.Inv cmp) (hfull : ¬ h.size < h.capacity) (hn : h.size < 2 ^ 31) :
    ∃ h', h.push cmp value = some h' ∧ h'.Inv cmp ∧
      (∃ w, FirstOf (Worse cmp) w (value ::ₘ h.contents) ∧ value ::ₘ h.contents = w ::ₘ h'.contents) ∧
      (h'.val = h.val ∨ h'.val = Function.update h.val (h.idx 0) value) ∧ h'.capacity = h.capacity := by
  have hsize : h.size = h.capacity := by
    have h1 := hi.slots.size_le
    have h2 := hi.slots.valSize_le
    omega
  -- the heap stays, and the new value is a worst one
  have hstay : (∀ x ∈ h.contents, ¬ Worse cmp x value) → ∃ h', some h = some h' ∧ h'.Inv cmp ∧
      (∃ w, FirstOf (Worse cmp) w (value ::ₘ h.contents) ∧ value ::ₘ h.contents = w ::ₘ h'.contents) ∧
      (h'.val = h.val ∨ h'.val = Function.update h.val (h.idx 0) value) ∧ h'.capacity = h.capacity := by
    intro hworst
    refine ⟨h, rfl, hi, ⟨value, ⟨Multiset.mem_cons_self .., fun y hy => ?_⟩, rfl⟩, .inl rfl, rfl⟩
    rcases Multiset.mem_cons.mp hy with rfl | hy
    · exact irrefl_of (Worse cmp) _
    · exact hworst y hy
  unfold push
  by_cases hzero : h.capacity = 0
  · rw [if_pos hzero]
    refine hstay fun x hx => ?_
    obtain ⟨p, hp, _⟩ := mem_items.mp hx
    omega
  · have hpos : 0 < h.size := by omega
    rw [if_neg hzero, if_neg hfull]
    have hfirst := hi.ordered.firstOf hpos
    by_cases hworse : cmp (h.val (h.idx 0)) value = true
    · rw [if_pos hworse]
      let h₁ : TopNHeap T := { h with val := Function.update h.val (h.idx 0) value }
      have hvals : ∀ p < h.size, (h₁.val ∘ h₁.idx) p = Function.update (h.val ∘ h.idx) 0 value p := by
        intro p hp
        show Function.update h.val (h.idx 0) value (h.idx p) = _
        by_cases hp0 : p = 0
        · rw [hp0, Function.update_self, Function.update_self]
        · have hne : h.idx p ≠ h.idx 0 := fun heq => hp0 (hi.slots.inj p 0 hp hpos heq)
          rw [Function.update_of_ne hne, Function.update_of_ne hp0]
          rfl
      have hslots : h₁.Slots := ⟨hi.slots.inj, hi.slots.constructed, hi.slots.size_le, hi.slots.valSize_le⟩
      have hdown : DownOrder (Worse cmp) h.size (h₁.val ∘ h₁.idx) 0 := by
        refine hi.ordered.replaceRoot (Nat.le_refl _) fun i hi0 hin => ?_
        rw [hvals i hin, Function.update_of_ne (by omega)]
      obtain ⟨h', hrun, hinv, hcontents, hval, hcap⟩ := siftDown_spec hslots hdown hpos hn
      refine ⟨h', hrun, hinv, ⟨h.val (h.idx 0), ⟨?_, fun y hy => ?_⟩, ?_⟩, .inr hval, hcap⟩
      · exact Multiset.mem_cons_of_mem hfirst.1
      · rcases Multiset.mem_cons.mp hy with rfl | hy
        · exact not_lt_of_lt hworse
        · exact hfirst.2 y hy
      · have hitems : h₁.contents = items h.size (Function.update (h.val ∘ h.idx) 0 value) := items_congr hvals
        rw [hcontents, hitems]
        exact (items_update hpos value).symm
    · rw [if_neg hworse]
      exact hstay fun x hx => not_lt_trans' hworse (hfirst.2 x hx)

/-- A `Pop`: `Top`, a worst value, goes. -/
theorem pop_spec (hi : h.Inv cmp) (hpos : 0 < h.size) (hn : h.size ≤ 2 ^ 31) :
    ∃ h', h.pop cmp = some h' ∧ h'.Inv cmp ∧ FirstOf (Worse cmp) h.top h.contents ∧ h.contents = h.top ::ₘ h'.contents ∧
      h'.val = h.val ∧ h'.capacity = h.capacity := by
  obtain ⟨k, hk⟩ : ∃ k, h.size = k + 1 := ⟨h.size - 1, by omega⟩
  let h₁ : TopNHeap T := { h with idx := Function.update h.idx 0 (h.idx k), size := k }
  have hpop : h.pop cmp = if k ≠ 0 then h₁.siftDown cmp 0 else some h₁ := by
    unfold pop
    rw [if_neg (by omega)]
    simp only [hk, Nat.add_sub_cancel]
    rfl
  have hvals : ∀ p < k, (h₁.val ∘ h₁.idx) p = Function.update (h.val ∘ h.idx) 0 ((h.val ∘ h.idx) k) p := by
    intro p _
    show h.val (Function.update h.idx 0 (h.idx k) p) = _
    by_cases hp0 : p = 0
    · rw [hp0, Function.update_self, Function.update_self]
      rfl
    · rw [Function.update_of_ne hp0, Function.update_of_ne hp0]
      rfl
  have hidx : ∀ p < k, (0 < p ∧ h₁.idx p = h.idx p) ∨ (p = 0 ∧ h₁.idx p = h.idx k) := by
    intro p _
    by_cases hp0 : p = 0
    · refine .inr ⟨hp0, ?_⟩
      rw [hp0]
      exact Function.update_self 0 (h.idx k) h.idx
    · exact .inl ⟨by omega, Function.update_of_ne hp0 (h.idx k) h.idx⟩
  have hslots : h₁.Slots := by
    refine ⟨fun p q (hp : p < k) (hq : q < k) heq => ?_, fun p (hp : p < k) => ?_, ?_, hi.slots.valSize_le⟩
    · rcases hidx p hp with ⟨hp0, hpe⟩ | ⟨rfl, hpe⟩
      · rcases hidx q hq with ⟨hq0, hqe⟩ | ⟨rfl, hqe⟩
        · exact hi.slots.inj p q (by omega) (by omega) (by rw [← hpe, ← hqe]; exact heq)
        · have hpk := hi.slots.inj p k (by omega) (by omega) (by rw [← hpe, ← hqe]; exact heq)
          omega
      · rcases hidx q hq with ⟨hq0, hqe⟩ | ⟨rfl, _⟩
        · have hqk := hi.slots.inj q k (by omega) (by omega) (by rw [← hpe, ← hqe]; exact heq.symm)
          omega
        · rfl
    · rcases hidx p hp with ⟨_, hpe⟩ | ⟨_, hpe⟩
      · rw [hpe]
        exact hi.slots.constructed p (by omega)
      · rw [hpe]
        exact hi.slots.constructed k (by omega)
    · have hle := hi.slots.size_le
      show k ≤ h.valSize
      omega
  have hworst : FirstOf (Worse cmp) (h.val (h.idx 0)) h.contents := hi.ordered.firstOf hpos
  have hitems : h.contents = h.val (h.idx 0) ::ₘ h₁.contents := by
    unfold contents
    rw [hk, items_succ, items_congr hvals]
    by_cases hk0 : k = 0
    · rw [hk0]
      rfl
    · exact (items_update (Nat.pos_of_ne_zero hk0) _).symm
  rw [hpop]
  by_cases hk0 : k = 0
  · rw [if_neg (not_not.mpr hk0)]
    refine ⟨h₁, rfl, ⟨hslots, fun i _ hik => ?_⟩, hworst, hitems, rfl, rfl⟩
    have hlt : i < k := hik
    omega
  · rw [if_pos hk0]
    have hdown : DownOrder (Worse cmp) k (h₁.val ∘ h₁.idx) 0 := by
      refine hi.ordered.replaceRoot (by omega) fun i hi0 hik => ?_
      rw [hvals i hik, Function.update_of_ne (by omega)]
    have hk31 : k < 2 ^ 31 := by omega
    obtain ⟨h', hrun, hinv, hcontents, hval, hcap⟩ := siftDown_spec hslots hdown (Nat.pos_of_ne_zero hk0) hk31
    exact ⟨h', hrun, hinv, hworst, by rw [hcontents]; exact hitems, hval, hcap⟩

theorem call_spec (hi : h.Inv cmp) {op : HeapOp T} (hm : h.Meets op) :
    ∃ h', h.call cmp op = some h' ∧ h'.Inv cmp ∧ RefStep cmp h.capacity h.contents op h'.contents ∧ Kept h h' ∧
      h'.capacity = h.capacity := by
  cases op with
  | push value =>
    by_cases hlt : h.size < h.capacity
    · obtain ⟨h', hrun, hinv, hcontents, hval, hcap⟩ := push_below value hi hlt (hm.1 hlt)
      refine ⟨h', hrun, hinv, ?_, fun i hlive hchanged => ?_, hcap⟩
      · unfold RefStep
        simp only
        rw [card_contents, if_pos hlt]
        exact hcontents
      · rw [hval] at hchanged
        by_cases hisize : i = h.size
        · rw [hisize] at hlive
          exact absurd hlive (hm.1 hlt)
        · exact absurd (Function.update_of_ne hisize value h.val) hchanged
    · have hsize : h.size = h.capacity := by
        have h1 := hi.slots.size_le
        have h2 := hi.slots.valSize_le
        omega
      obtain ⟨h', hrun, hinv, hdropped, hval, hcap⟩ := push_full value hi hlt (hm.2 hsize)
      refine ⟨h', hrun, hinv, ?_, fun i _ hchanged => ⟨hsize, ?_⟩, hcap⟩
      · unfold RefStep
        simp only
        rw [card_contents, if_neg hlt]
        exact hdropped
      · by_contra hne
        rcases hval with hval | hval
        · exact hchanged (by rw [hval])
        · exact hchanged (by rw [hval]; exact Function.update_of_ne hne value h.val)
  | pop =>
    obtain ⟨h', hrun, hinv, hworst, hitems, hval, hcap⟩ := pop_spec hi hm.1 hm.2
    exact ⟨h', hrun, hinv, ⟨h.top, hworst, hitems⟩, fun i _ hchanged => absurd (by rw [hval]) hchanged, hcap⟩
  | clear =>
    refine ⟨h.clear, rfl, ⟨⟨nofun, nofun, Nat.zero_le _, hi.slots.valSize_le⟩, fun i _ hin => ?_⟩, items_zero,
      fun i _ hchanged => absurd rfl hchanged, rfl⟩
    exact absurd hin (Nat.not_lt_zero i)

end Calls

/-! ## Runs -/

/-- Every call of the sequence finds the heap as the code expects it. -/
def MeetsAll (cmp : T → T → Bool) : List (HeapOp T) → TopNHeap T → Prop
  | [], _ => True
  | op :: ops, h => h.Meets op ∧ ∀ h', h.call cmp op = some h' → MeetsAll cmp ops h'

section Runs

variable [IsStrictWeakOrder T (Worse cmp)] {h : TopNHeap T} {ops : List (HeapOp T)}

/-- By induction on the calls. -/
theorem calls_spec (hi : h.Inv cmp) (hm : MeetsAll cmp ops h) :
    ∃ h', h.calls cmp ops = some h' ∧ h'.Inv cmp ∧ Outcome cmp h.capacity ops h.contents h'.contents ∧
      h'.capacity = h.capacity := by
  induction ops generalizing h with
  | nil => exact ⟨h, rfl, hi, rfl, rfl⟩
  | cons op ops ih =>
    obtain ⟨h₁, hcall, hi₁, href, _, hcap₁⟩ := call_spec hi hm.1
    obtain ⟨h₂, hcalls, hi₂, hout, hcap₂⟩ := ih hi₁ (hm.2 h₁ hcall)
    refine ⟨h₂, ?_, hi₂, ⟨h₁.contents, href, ?_⟩, hcap₂.trans hcap₁⟩
    · rw [calls, hcall]
      exact hcalls
    · rw [← hcap₁]
      exact hout

end Runs

theorem make_inv (N : Nat) (memory : Nat → T) : (make N memory).Inv cmp :=
  ⟨⟨nofun, nofun, Nat.le_refl 0, Nat.zero_le N⟩, fun i _ hi => absurd hi (Nat.not_lt_zero i)⟩

/-- Over every run of calls that find the heap as the code expects it: the run is defined, the
    contents are what the reference keeps, at most `N` values, `Top` is a worst of them, and the
    next such call writes to no live slot but that of the value it drops. -/
theorem keeps_best [IsStrictWeakOrder T (Worse cmp)] (N : Nat) (memory : Nat → T) (ops : List (HeapOp T))
    (hm : MeetsAll cmp ops (make N memory)) :
    ∃ h, (make N memory).calls cmp ops = some h ∧ Outcome cmp N ops 0 h.contents ∧
      h.contents.card = h.size ∧ h.size ≤ N ∧ (0 < h.size → FirstOf (Worse cmp) h.top h.contents) ∧
      ∀ op h', h.Meets op → h.call cmp op = some h' → Kept h h' := by
  obtain ⟨h, hcalls, hi, hout, hcap⟩ := calls_spec (make_inv N memory) hm
  refine ⟨h, hcalls, hout, card_contents h, ?_, hi.ordered.firstOf, fun op h' hmeets hcall => ?_⟩
  · have h1 := hi.slots.size_le
    have h2 := hi.slots.valSize_le
    have h3 : h.capacity = N := hcap
    omega
  · obtain ⟨h₁, hcall₁, _, _, hkept, _⟩ := call_spec hi hmeets
    rw [hcall] at hcall₁
    obtain rfl := Option.some.inj hcall₁
    exact hkept

/-! ## A lost value -/

instance (h : TopNHeap T) (i : Nat) : Decidable (h.Live i) :=
  inferInstanceAs (Decidable (∃ p < h.size, h.idx p = i))

instance (h : TopNHeap T) : (op : HeapOp T) → Decidable (h.Meets op)
  | .push _ => inferInstanceAs (Decidable (_ ∧ _))
  | .pop => inferInstanceAs (Decidable (_ ∧ _))
  | .clear => inferInstanceAs (Decidable True)

instance decidableMeetsAll (cmp : T → T → Bool) : (ops : List (HeapOp T)) → (h : TopNHeap T) → Decidable (MeetsAll cmp ops h)
  | [], _ => inferInstanceAs (Decidable True)
  | op :: ops, h =>
    match hcall : h.call cmp op with
    | none => decidable_of_iff (h.Meets op) ⟨fun hm => ⟨hm, fun h' he => by rw [hcall] at he; cases he⟩, fun hm => hm.1⟩
    | some h₁ =>
      haveI := decidableMeetsAll cmp ops h₁
      decidable_of_iff (h.Meets op ∧ MeetsAll cmp ops h₁)
        ⟨fun hm => ⟨hm.1, fun h' he => by rw [hcall] at he; cases he; exact hm.2⟩, fun hm => ⟨hm.1, hm.2 h₁ hcall⟩⟩

/-- Greater numbers are better. -/
def lessNat (a b : Nat) : Bool := a < b

instance : IsStrictWeakOrder Nat (Worse lessNat) where
  irrefl a := by simp [Worse, lessNat]
  trans a b c := by
    simp only [Worse, lessNat, decide_eq_true_eq]
    omega
  incomp_trans a b c := by
    simp only [Worse, lessNat, decide_eq_true_eq]
    omega

/-- Two values are pushed, the worse one popped and another pushed: it is kept twice, and the
    better one of the first two is lost. -/
theorem live_slot_overwritten : ∃ h, (make 2 fun _ => 0).calls lessNat [.push 3, .push 5, .pop, .push 7] = some h ∧
    h.contents = {7, 7} ∧ ¬ Outcome lessNat 2 [.push 3, .push 5, .pop, .push 7] 0 h.contents := by
  obtain ⟨h, hcalls, hcontents⟩ : ∃ h, (make 2 fun _ => 0).calls lessNat [.push 3, .push 5, .pop, .push 7] = some h ∧
      h.contents = {7, 7} := ⟨_, rfl, by decide⟩
  refine ⟨h, hcalls, hcontents, ?_⟩
  rw [hcontents]
  rintro ⟨A₁, h₁, A₂, h₂, A₃, ⟨w, hw, h₃⟩, A₄, h₄, hend⟩
  obtain rfl : A₁ = {3} := h₁
  obtain rfl : A₂ = {5, 3} := h₂
  have hthree : w = 3 := by
    have hmem : w = 5 ∨ w = 3 := by simpa using hw.1
    have hle : ¬ Worse lessNat 3 w := hw.2 3 (by simp)
    simp only [Worse, lessNat, decide_eq_true_eq] at hle
    omega
  rw [hthree] at h₃
  have hrest : A₃ = {5} := by
    have hcons : (3 : Nat) ::ₘ {5} = 3 ::ₘ A₃ := by
      rw [← h₃]
      exact Multiset.cons_swap 3 5 0
    exact ((Multiset.cons_inj_right 3).mp hcons).symm
  rw [hrest] at h₄
  obtain rfl : A₄ = {7, 5} := h₄
  have hne : ({7, 7} : Multiset Nat) ≠ {7, 5} := by decide
  exact hne hend

/-- A better value than the worst of a full heap, pops down to nothing, and a new start. -/
theorem keeps_best_refilled : ∃ h,
    (make 2 fun _ => 0).calls lessNat [.push 3, .push 5, .push 4, .pop, .pop, .push 8, .clear, .push 6] = some h ∧
      (0 < h.size → FirstOf (Worse lessNat) h.top h.contents) := by
  obtain ⟨h, hcalls, _, _, _, htop, _⟩ := @keeps_best Nat lessNat _ 2 (fun _ => 0)
    [.push 3, .push 5, .push 4, .pop, .pop, .push 8, .clear, .push 6] (by decide)
  exact ⟨h, hcalls, htop⟩

end TopNHeap

end UnifiedCache.Infra
