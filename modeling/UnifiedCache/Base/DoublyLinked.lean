/-
  UnifiedCache.Base.DoublyLinked — doubly linked lists held in two pointer functions.

  `Seg next prev p l q`: the cells of `l` are linked in order, the first one's `prev` is
  `p` and the last one's `next` is `q`. `IsList next prev head l`: the list hanging off
  `head` is exactly `l`, each cell once.

  The operations are stated pointwise (what the new pointers are at each cell of the list),
  so that they apply whatever record the pointers live in:
  - `IsList.push_front`, `IsList.unlink`: the two updates keep the representation.
  - `IsList.congr`: pointers changed outside the list do not matter.
  - `IsList.prev_next`, `IsList.next_prev`, `IsList.prev_head`: the links agree both ways.
-/

import Mathlib.Data.List.Basic
import Mathlib.Data.List.Nodup

namespace UnifiedCache.Base

variable {ι : Type*}

def Seg (next prev : ι → Option ι) : Option ι → List ι → Option ι → Prop
  | _, [], _ => True
  | p, i :: l, q => prev i = p ∧ next i = l.head?.or q ∧ Seg next prev (some i) l q

structure IsList (next prev : ι → Option ι) (head : Option ι) (l : List ι) : Prop where
  head_eq : head = l.head?
  seg : Seg next prev none l none
  nodup : l.Nodup

variable {next prev next' prev' : ι → Option ι} {head head' p q : Option ι} {l a b : List ι} {i j : ι}

/-! ## Segments -/

theorem seg_append :
    Seg next prev p (a ++ b) q ↔ Seg next prev p a (b.head?.or q) ∧ Seg next prev (a.getLast?.or p) b q := by
  induction a generalizing p with
  | nil => simp [Seg]
  | cons i a ih =>
    have hl : ((i :: a).getLast?.or p) = (a.getLast?.or (some i)) := by
      cases h : a.getLast? <;> simp [List.getLast?_cons, h]
    simp only [List.cons_append, Seg, ih, hl, List.head?_append, Option.or_assoc]
    tauto

theorem Seg.congr (h : Seg next prev p l q) (hn : ∀ i ∈ l, next' i = next i) (hp : ∀ i ∈ l, prev' i = prev i) :
    Seg next' prev' p l q := by
  induction l generalizing p with
  | nil => trivial
  | cons i l ih =>
    obtain ⟨h1, h2, h3⟩ := h
    refine ⟨by rw [hp i (by simp), h1], by rw [hn i (by simp), h2], ih h3 ?_ ?_⟩
    · exact fun j hj => hn j (List.mem_cons_of_mem _ hj)
    · exact fun j hj => hp j (List.mem_cons_of_mem _ hj)

/-- Redirect the last cell's `next`. -/
theorem Seg.set_next [DecidableEq ι] {q' : Option ι} (h : Seg next prev p l q) (hnd : l.Nodup)
    (hn : ∀ i ∈ l, next' i = if l.getLast? = some i then q' else next i) (hp : ∀ i ∈ l, prev' i = prev i) :
    Seg next' prev' p l q' := by
  induction l generalizing p with
  | nil => trivial
  | cons i l ih =>
    obtain ⟨h1, h2, h3⟩ := h
    obtain ⟨hi, hnd⟩ := List.nodup_cons.mp hnd
    have hlast : ∀ j ∈ l, ((i :: l).getLast? = some j ↔ l.getLast? = some j) := by
      intro j hj
      cases l with
      | nil => cases hj
      | cons k l => simp [List.getLast?_cons_cons]
    refine ⟨by rw [hp i (by simp), h1], ?_, ih h3 hnd ?_ ?_⟩
    · rw [hn i (by simp)]
      cases l with
      | nil => simp
      | cons k l =>
        have hne : (i :: k :: l).getLast? ≠ some i := by
          rw [List.getLast?_cons_cons]
          exact fun e => hi (List.mem_of_getLast? e)
        rw [if_neg hne, h2]
        simp
    · intro j hj
      rw [hn j (List.mem_cons_of_mem _ hj), if_congr (hlast j hj) rfl rfl]
    · exact fun j hj => hp j (List.mem_cons_of_mem _ hj)

/-- Redirect the first cell's `prev`. -/
theorem Seg.set_prev [DecidableEq ι] {p' : Option ι} (h : Seg next prev p l q) (hnd : l.Nodup)
    (hp : ∀ i ∈ l, prev' i = if l.head? = some i then p' else prev i) (hn : ∀ i ∈ l, next' i = next i) :
    Seg next' prev' p' l q := by
  cases l with
  | nil => trivial
  | cons i l =>
    obtain ⟨h1, h2, h3⟩ := h
    obtain ⟨hi, hnd⟩ := List.nodup_cons.mp hnd
    refine ⟨by rw [hp i (by simp)]; simp, by rw [hn i (by simp), h2], h3.congr ?_ ?_⟩
    · exact fun j hj => hn j (List.mem_cons_of_mem _ hj)
    · intro j hj
      have hne : ¬ i = j := fun e => hi (e ▸ hj)
      rw [hp j (List.mem_cons_of_mem _ hj), if_neg (by simpa using hne)]

/-! ## Whole lists -/

theorem isList_nil : IsList next prev none [] := ⟨rfl, trivial, List.nodup_nil⟩

theorem IsList.congr (h : IsList next prev head l) (hn : ∀ i ∈ l, next' i = next i) (hp : ∀ i ∈ l, prev' i = prev i)
    (hh : head' = head) : IsList next' prev' head' l :=
  ⟨hh.trans h.head_eq, h.seg.congr hn hp, h.nodup⟩

/-- The cells around one cell of a list. -/
theorem IsList.split (h : IsList next prev head (a ++ i :: b)) :
    Seg next prev none a (some i) ∧ prev i = a.getLast? ∧ next i = b.head? ∧ Seg next prev (some i) b none := by
  have hs := h.seg
  rw [seg_append] at hs
  obtain ⟨h1, h2, h3, h4⟩ := hs
  exact ⟨by simpa using h1, by simpa using h2, by simpa using h3, h4⟩

theorem IsList.push_front [DecidableEq ι] (h : IsList next prev head l) (hi : i ∉ l) (hni : next' i = head)
    (hpi : prev' i = none) (hn : ∀ j ∈ l, next' j = next j) (hp : ∀ j ∈ l, prev' j = if head = some j then some i else prev j) :
    IsList next' prev' (some i) (i :: l) := by
  refine ⟨rfl, ⟨hpi, by rw [hni, h.head_eq]; simp, ?_⟩, List.nodup_cons.mpr ⟨hi, h.nodup⟩⟩
  exact h.seg.set_prev h.nodup (by rw [← h.head_eq]; exact hp) hn

theorem IsList.unlink [DecidableEq ι] (h : IsList next prev head l) (hi : i ∈ l)
    (hn : ∀ j ∈ l, j ≠ i → next' j = if prev i = some j then next i else next j)
    (hp : ∀ j ∈ l, j ≠ i → prev' j = if next i = some j then prev i else prev j)
    (hh : head' = if head = some i then next i else head) : IsList next' prev' head' (l.erase i) := by
  obtain ⟨a, b, rfl⟩ := List.append_of_mem hi
  obtain ⟨ha, hpi, hni, hb⟩ := h.split
  have hnd := h.nodup
  obtain ⟨hia, hib⟩ : i ∉ a ∧ i ∉ b := by
    rw [List.nodup_middle, List.nodup_cons] at hnd
    simpa using hnd.1
  have hndab : (a ++ b).Nodup := (List.nodup_middle.mp hnd).of_cons
  obtain ⟨hnda, hndb, hdisj⟩ := List.nodup_append.mp hndab
  have herase : (a ++ i :: b).erase i = a ++ b := by
    rw [List.erase_append_right _ hia, List.erase_cons_head]
  have hne : ∀ j ∈ a ++ b, j ≠ i := by
    intro j hj e
    subst e
    exact (List.mem_append.mp hj).elim hia hib
  have hmem : ∀ j ∈ a ++ b, j ∈ a ++ i :: b := by
    intro j hj
    rcases List.mem_append.mp hj with hj | hj <;> simp [hj]
  rw [herase]
  refine ⟨?_, ?_, hndab⟩
  · rw [hh, h.head_eq]
    cases a with
    | nil => simp [hni]
    | cons k a => simp [show ¬ k = i from hne k (by simp)]
  · rw [seg_append]
    constructor
    · refine ha.set_next hnda (fun j hj => ?_) (fun j hj => ?_)
      · have hj' : j ∈ a ++ b := List.mem_append_left _ hj
        rw [hn j (hmem j hj') (hne j hj'), hpi, hni]
        simp
      · have hj' : j ∈ a ++ b := List.mem_append_left _ hj
        rw [hp j (hmem j hj') (hne j hj'), hni, if_neg]
        exact fun e => hdisj j hj j (List.mem_of_mem_head? e) rfl
    · refine hb.set_prev hndb (fun j hj => ?_) (fun j hj => ?_)
      · have hj' : j ∈ a ++ b := List.mem_append_right _ hj
        rw [hp j (hmem j hj') (hne j hj'), hpi, hni]
        simp
      · have hj' : j ∈ a ++ b := List.mem_append_right _ hj
        rw [hn j (hmem j hj') (hne j hj'), hpi, if_neg]
        exact fun e => hdisj j (List.mem_of_getLast? e) j hj rfl

/-! ## Reading the links -/

theorem IsList.prev_head (h : IsList next prev head l) (hi : head = some i) : prev i = none := by
  cases l with
  | nil => rw [h.head_eq] at hi; cases hi
  | cons k l =>
    obtain rfl : k = i := by rw [h.head_eq] at hi; simpa using hi
    exact h.seg.1

theorem IsList.next_mem (h : IsList next prev head l) (hi : i ∈ l) (hn : next i = some j) : j ∈ l ∧ prev j = some i := by
  obtain ⟨a, b, rfl⟩ := List.append_of_mem hi
  obtain ⟨_, _, hni, hb⟩ := h.split
  cases b with
  | nil => simp [hni] at hn
  | cons k b =>
    obtain rfl : k = j := by rw [hni] at hn; simpa using hn
    exact ⟨by simp, hb.1⟩

theorem IsList.prev_mem (h : IsList next prev head l) (hi : i ∈ l) (hn : prev i = some j) : j ∈ l ∧ next j = some i := by
  obtain ⟨a, b, rfl⟩ := List.append_of_mem hi
  obtain ⟨ha, hpi, _, _⟩ := h.split
  rcases List.eq_nil_or_concat a with rfl | ⟨c, k, rfl⟩
  · simp [hpi] at hn
  · obtain rfl : k = j := by rw [hpi] at hn; simpa using hn
    rw [List.concat_eq_append, seg_append] at ha
    exact ⟨by simp, by simpa using ha.2.2.1⟩

theorem IsList.next_prev (h : IsList next prev head l) (hi : i ∈ l) (hn : next i = some j) : prev j = some i :=
  (h.next_mem hi hn).2

theorem IsList.next_ne (h : IsList next prev head l) (hi : i ∈ l) : next i ≠ some i := by
  obtain ⟨a, b, rfl⟩ := List.append_of_mem hi
  obtain ⟨_, _, hni, _⟩ := h.split
  have hib : i ∉ b := by
    have hnd := h.nodup
    rw [List.nodup_middle, List.nodup_cons] at hnd
    exact fun hb => hnd.1 (List.mem_append_right _ hb)
  rw [hni]
  exact fun e => hib (List.mem_of_mem_head? e)

theorem IsList.prev_ne (h : IsList next prev head l) (hi : i ∈ l) : prev i ≠ some i :=
  fun e => h.next_ne hi (h.prev_mem hi e).2

end UnifiedCache.Base
