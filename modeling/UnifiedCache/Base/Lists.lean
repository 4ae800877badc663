/-
  UnifiedCache.Base.Lists — lists that are made item by item, where an item may fail, or key by key.

  - `mapM_some_iff`: all items, each made of the one at its place.
  - `mapM_isSome_iff`: it fails where one of them does.
  - `forall₂_at`: what holds of two lists item by item, at a place.
  - `foldlM_forall`: what each step of a fold asks of its item.
  - `gather_perm`: what items give, gathered key by key.
  - `slice_append`: two parts of a list, one behind the other.
-/

import Mathlib.Data.List.Forall2
import UnifiedCache.Base.Shares

namespace UnifiedCache.Base

variable {β γ : Type}

theorem mapM_some_iff {f : β → Option γ} {l : List β} {l' : List γ} : l.mapM f = some l' ↔
    List.Forall₂ (fun a b => f a = some b) l l' := by
  induction l generalizing l' with
  | nil =>
    rw [List.mapM_nil, List.forall₂_nil_left_iff]
    exact ⟨fun h => (Option.some.inj h).symm, fun h => h ▸ rfl⟩
  | cons a l ih =>
    rw [List.mapM_cons, List.forall₂_cons_left_iff]
    constructor
    · intro h
      obtain ⟨b, hb, h⟩ := Option.bind_eq_some_iff.mp h
      obtain ⟨u, hu, h⟩ := Option.bind_eq_some_iff.mp h
      exact ⟨b, u, hb, ih.mp hu, (Option.some.inj h).symm⟩
    · intro h
      obtain ⟨b, u, hb, hu, rfl⟩ := h
      rw [hb, ih.mpr hu]
      rfl

theorem mapM_isSome_iff {f : β → Option γ} {l : List β} : (l.mapM f).isSome ↔ ∀ a, a ∈ l → (f a).isSome := by
  induction l with
  | nil => exact ⟨fun _ _ h => absurd h List.not_mem_nil, fun _ => rfl⟩
  | cons a l ih =>
    rw [List.forall_mem_cons, ← ih, List.mapM_cons]
    cases f a with
    | none => simp
    | some b =>
      cases l.mapM f with
      | none => simp
      | some u => simp

theorem exists_forall₂ {R : β → γ → Prop} {l : List β} (h : ∀ a, a ∈ l → ∃ b, R a b) : ∃ l', List.Forall₂ R l l' := by
  induction l with
  | nil => exact ⟨[], .nil⟩
  | cons a l ih =>
    obtain ⟨b, hb⟩ := h a List.mem_cons_self
    obtain ⟨l', hl'⟩ := ih fun a ha => h a (List.mem_cons_of_mem _ ha)
    exact ⟨b :: l', .cons hb hl'⟩

theorem forall₂_at {R : β → γ → Prop} {l : List β} {l' : List γ} (h : List.Forall₂ R l l') {b : Nat} {x : β}
    (hx : l[b]? = some x) :
    ∃ y, l'[b]? = some y ∧ R x y := by
  induction h generalizing b with
  | nil => simp at hx
  | @cons x' y' l l' hr h ih =>
    cases b with
    | zero =>
      obtain rfl : x' = x := by simpa using hx
      exact ⟨y', rfl, hr⟩
    | succ b => exact ih (by simpa using hx)

/-- What a step asks of an item holds of all, if every step succeeds. -/
theorem foldlM_forall {σ ι : Type} {f : σ → ι → Option σ} {P : ι → Prop} (hf : ∀ s a s', f s a = some s' → P a)
    {l : List ι} {s t : σ}
    (h : l.foldlM f s = some t) : ∀ a ∈ l, P a := by
  induction l generalizing s with
  | nil => exact fun a ha => absurd ha List.not_mem_nil
  | cons a l ih =>
    rw [List.foldlM_cons] at h
    obtain ⟨s', hs', h⟩ := Option.bind_eq_some_iff.mp h
    exact List.forall_mem_cons.mpr ⟨hf s a s' hs', ih h⟩

theorem forall₂_flatMap_perm {α β δ : Type*} {f : α → List δ} {g : β → List δ} {l : List α} {l' : List β}
    (h : List.Forall₂ (fun a b => (f a).Perm (g b)) l l') : (l.flatMap f).Perm (l'.flatMap g) := by
  induction h with
  | nil => exact List.Perm.refl []
  | cons hab _ ih =>
    rw [List.flatMap_cons, List.flatMap_cons]
    exact hab.append ih

/-! ## Key by key -/

section Gather

variable {κ ι δ : Type*} [DecidableEq κ]

theorem flatMap_ite_eq {keys : List κ} (hnodup : keys.Nodup) {k : κ} (hk : k ∈ keys) (l : List δ) :
    keys.flatMap (fun k' => if k = k' then l else []) = l := by
  have hnone : ∀ l' : List κ, k ∉ l' → l'.flatMap (fun k' => if k = k' then l else []) = [] := by
    intro l' hnot
    refine List.flatMap_eq_nil_iff.mpr fun k' hk' => if_neg ?_
    intro heq
    exact hnot (heq ▸ hk')
  induction keys with
  | nil => cases hk
  | cons k' keys ih =>
    rw [List.nodup_cons] at hnodup
    rw [List.flatMap_cons]
    by_cases heq : k = k'
    · rw [if_pos heq, hnone keys (heq ▸ hnodup.1), List.append_nil]
    · rw [if_neg heq, List.nil_append, ih hnodup.2 ((List.mem_cons.mp hk).resolve_left heq)]

theorem filter_flatMap_ite (items : List ι) (p : ι → Prop) [DecidablePred p] (f : ι → List δ) :
    (items.filter fun b => p b).flatMap f = items.flatMap fun b => if p b then f b else [] := by
  induction items with
  | nil => rfl
  | cons b items ih =>
    by_cases h : p b
    · rw [List.filter_cons_of_pos (by simpa using h), List.flatMap_cons, List.flatMap_cons, if_pos h, ih]
    · rw [List.filter_cons_of_neg (by simpa using h), List.flatMap_cons, if_neg h, List.nil_append, ih]

theorem gather_perm {keys : List κ} (hnodup : keys.Nodup) (items : List ι) (key : ι → κ) (hkeys : ∀ b ∈ items, key b ∈ keys)
    (f : ι → List δ) : (keys.flatMap fun k => (items.filter fun b => key b = k).flatMap f).Perm (items.flatMap f) := by
  have hcomm : (keys.flatMap fun k => items.flatMap fun b => if key b = k then f b else []).Perm
      (items.flatMap fun b => keys.flatMap fun k => if key b = k then f b else []) := flatMap_comm_perm keys items _
  have hleft : (keys.flatMap fun k => (items.filter fun b => key b = k).flatMap f) =
      keys.flatMap fun k => items.flatMap fun b => if key b = k then f b else [] :=
    List.flatMap_congr fun k _ => filter_flatMap_ite items (fun b => key b = k) f
  have hright : (items.flatMap fun b => keys.flatMap fun k => if key b = k then f b else []) = items.flatMap f :=
    List.flatMap_congr fun b hb => flatMap_ite_eq hnodup (hkeys b hb) (f b)
  rw [hleft, ← hright]
  exact hcomm

end Gather

section Slices

variable {α : Type*}

/-- Two parts of a list, one behind the other. -/
theorem slice_append (l : List α) {a b c : Nat} (hab : a ≤ b) (hbc : b ≤ c) : (l.take b).drop a ++ (l.take c).drop b =
    (l.take c).drop a := by
  have hdrop : l.drop b = (l.drop a).drop (b - a) := by
    rw [List.drop_drop]
    congr 1
    omega
  rw [List.drop_take, List.drop_take, List.drop_take, hdrop, ← List.take_add]
  congr 1
  omega

theorem slice_self (l : List α) (a : Nat) : (l.take a).drop a = [] := List.drop_eq_nil_iff.mpr (List.length_take_le _ _)

end Slices

end UnifiedCache.Base
