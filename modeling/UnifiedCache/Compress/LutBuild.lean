/-
  UnifiedCache.Compress.LutBuild — the table and the state tree that `ts_build_lut` makes
  (see `UnifiedCache.Compress.Tunstall`), for every histogram of 1 to 64 distinct symbols and
  every sequence of choices (see `UnifiedCache.Compress.LutChoices`).

  `TreeInv`: every state spells a word of at most seven symbols, children extend it by one.
  `MarkInv`: the used marks are the items of distinct stop states, each spelling its state's
  word. Proved (`buildLut_spec`): the build ends with no error, uses fewer than 512 states,
  leaves a table the check accepts, expands the root, and gives every state in which the
  encoder can stop a mark below 256 whose item spells the state's word (`Built`).

  One expansion (`expandChosen_spec`) is an induction on the symbols left: `Mid` holds between
  two of them, with the expanded state taken out of the marks' bookkeeping. `Grown` holds
  between two rounds (`Grown.round`), so of every build of choices (`buildChosen_spec`).
-/

import UnifiedCache.Compress.LutChoices

namespace UnifiedCache.Compress

open UnifiedCache.Base

variable {F : Type} {D : FloatOps F}

/-! ## Items -/

@[simp] theorem length_word (it : LutItem) : it.word.length = it.c.toNat := by simp [LutItem.word]

theorem word_eq_nil {it : LutItem} : it.word = [] ↔ it.c = 0 := by
  rw [← List.length_eq_zero_iff, length_word]
  constructor
  · intro h
    exact UInt8.toNat_inj.mp (by simpa using h)
  · intro h
    simp [h]

theorem word_addSymbToItem (it : LutItem) (s : UInt8) (h : it.c.toNat < tsItemSize) :
    (addSymbToItem it s).word = it.word ++ [s] := by
  have hc : (it.c + 1).toNat = it.c.toNat + 1 := by
    rw [UInt8.toNat_add]
    have : it.c.toNat < 7 := h
    show (it.c.toNat + 1) % 256 = _
    omega
  unfold addSymbToItem LutItem.word
  rw [hc, List.range_succ, List.map_append]
  congr 1
  · apply List.map_congr_left
    intro i hi
    have hne : i ≠ it.c.toNat := by
      have := List.mem_range.mp hi
      omega
    simp [Function.update_of_ne hne]
  · simp

/-! ## Steps of the build -/

namespace Build

variable (b : Build F) (mark state : Nat) (item : LutItem) (symb : UInt8)

@[simp] theorem setItem_etree : (b.setItem mark item).etree = b.etree := rfl

@[simp] theorem setItem_newState : (b.setItem mark item).newState = b.newState := rfl

@[simp] theorem setItem_lutBlackList : (b.setItem mark item).lutBlackList = b.lutBlackList := rfl

@[simp] theorem setItem_lut (m : Nat) : (b.setItem mark item).lut m = if m = mark then item else b.lut m := by
  simp [setItem, Function.update_apply]

@[simp] theorem setMark_lut : (b.setMark state mark).lut = b.lut := rfl

@[simp] theorem setMark_newState : (b.setMark state mark).newState = b.newState := rfl

@[simp] theorem setMark_lutBlackList : (b.setMark state mark).lutBlackList = b.lutBlackList := rfl

@[simp] theorem setMark_nextState (q : Nat) : ((b.setMark state mark).etree q).nextState = (b.etree q).nextState := by
  by_cases h : q = state
  · subst h; simp [setMark]
  · simp [setMark, h]

@[simp] theorem setMark_mark (q : Nat) :
    ((b.setMark state mark).etree q).mark = if q = state then mark else (b.etree q).mark := by
  by_cases h : q = state
  · subst h; simp [setMark]
  · simp [setMark, h]

@[simp] theorem addState_lut : (b.addState state symb mark).lut = b.lut := rfl

@[simp] theorem addState_lutBlackList : (b.addState state symb mark).lutBlackList = b.lutBlackList := rfl

@[simp] theorem addState_newState : (b.addState state symb mark).newState = b.newState + 1 := rfl

theorem addState_nextState (h : state ≤ b.newState) (q : Nat) (s : UInt8) :
    ((b.addState state symb mark).etree q).nextState s =
      if q = state ∧ s = symb then b.newState + 1 else (b.etree q).nextState s := by
  have hne : state ≠ b.newState + 1 := by omega
  by_cases hq : q = b.newState + 1
  · have hqs : q ≠ state := by omega
    subst hq
    simp [addState, hqs]
  · by_cases hs : q = state
    · subst hs
      simp [addState, Function.update_of_ne hq, Function.update_apply]
    · simp [addState, Function.update_of_ne hq, hs]

theorem addState_mark (h : state ≤ b.newState) (q : Nat) :
    ((b.addState state symb mark).etree q).mark = if q = b.newState + 1 then mark else (b.etree q).mark := by
  have hne : state ≠ b.newState + 1 := by omega
  by_cases hq : q = b.newState + 1
  · subst hq; simp [addState]
  · by_cases hs : q = state
    · subst hs
      simp [addState, hq]
    · simp [addState, Function.update_of_ne hs, hq]

end Build

/-! ## The state tree -/

/-- The tree of states `0..n`, state `q` spelling `word q`. -/
structure TreeInv (S : List UInt8) (t : EncTree) (n : Nat) (word : Nat → List UInt8) : Prop where
  root : word 0 = []
  child : ∀ q s, q ≤ n → (t q).nextState s ≠ 0 →
    (t q).nextState s ≤ n ∧ word ((t q).nextState s) = word q ++ [s] ∧ s ∈ S
  parent : ∀ q, 0 < q → q ≤ n → ∃ p s, p < q ∧ (t p).nextState s = q
  fresh : ∀ q s, n < q → (t q).nextState s = 0
  len : ∀ q, q ≤ n → (word q).length ≤ tsItemSize

/-- Every symbol leads on from `q`. -/
def Full (S : List UInt8) (t : EncTree) (q : Nat) : Prop := ∀ s ∈ S, (t q).nextState s ≠ 0

variable {S : List UInt8} {t t' : EncTree} {n : Nat} {word : Nat → List UInt8}

theorem TreeInv.goto (h : TreeInv S t n word) : ∀ q, q ≤ n →
    (word q).foldl (fun state symb => (t state).nextState symb) 0 = q := by
  intro q
  induction q using Nat.strongRecOn with
  | ind q ih =>
  intro hq
  by_cases h0 : q = 0
  · subst h0; simp [h.root]
  · obtain ⟨p, s, hp, hps⟩ := h.parent q (by omega) hq
    have hw : word q = word p ++ [s] := by
      have := (h.child p s (by omega) (by omega)).2.1
      rwa [hps] at this
    rw [hw, List.foldl_append, ih p hp (by omega)]
    simpa using hps

theorem TreeInv.congr (h : TreeInv S t n word) (he : ∀ q, (t' q).nextState = (t q).nextState) : TreeInv S t' n word :=
  ⟨h.root, fun q s => by rw [he]; exact h.child q s,
    fun q h0 hq => by simpa only [he] using h.parent q h0 hq, fun q s hq => by rw [he]; exact h.fresh q s hq, h.len⟩

theorem Full.congr {q : Nat} (he : ∀ q, (t' q).nextState = (t q).nextState) : Full S t' q ↔ Full S t q := by
  unfold Full
  simp only [he]

/-- A new leaf under `state`. -/
theorem TreeInv.addState {b : Build F} (h : TreeInv S b.etree b.newState word) {state mark : Nat} {symb : UInt8}
    (hq : state ≤ b.newState) (hs : symb ∈ S) (hlen : (word state).length < tsItemSize)
    (hnone : (b.etree state).nextState symb = 0) :
    TreeInv S (b.addState state symb mark).etree (b.newState + 1)
      (Function.update word (b.newState + 1) (word state ++ [symb])) := by
  have hnext := b.addState_nextState mark state symb hq
  have hold : ∀ q, q ≤ b.newState → Function.update word (b.newState + 1) (word state ++ [symb]) q = word q :=
    fun q hq => Function.update_of_ne (by omega) _ _
  refine ⟨?_, fun q s hq' hne => ?_, fun q h0 hq' => ?_, fun q s hq' => ?_, fun q hq' => ?_⟩
  · rw [hold 0 (by omega), h.root]
  · rw [hnext] at hne ⊢
    by_cases e : q = state ∧ s = symb
    · obtain ⟨rfl, rfl⟩ := e
      simp only [and_self, ↓reduceIte, Function.update_self]
      exact ⟨Nat.le_refl _, by rw [hold q hq], hs⟩
    · rw [if_neg e] at hne ⊢
      have hqn : q ≤ b.newState := by
        by_contra hlt
        exact hne (h.fresh q s (by omega))
      obtain ⟨h1, h2, h3⟩ := h.child q s hqn hne
      exact ⟨by omega, by rw [hold _ h1, hold q hqn, h2], h3⟩
  · by_cases e : q = b.newState + 1
    · exact ⟨state, symb, by omega, by rw [hnext, if_pos ⟨rfl, rfl⟩, e]⟩
    · obtain ⟨p, s, hp, hps⟩ := h.parent q h0 (by omega)
      refine ⟨p, s, hp, ?_⟩
      rw [hnext, if_neg, hps]
      rintro ⟨rfl, rfl⟩
      omega
  · rw [hnext, if_neg (by rintro ⟨rfl, _⟩; omega)]
    exact h.fresh q s (by omega)
  · by_cases e : q = b.newState + 1
    · subst e
      simp only [Function.update_self, List.length_append, List.length_singleton]
      omega
    · rw [hold q (by omega)]
      exact h.len q (by omega)

/-! ## Marks -/

/-- The marks in `U` are the items of the states outside `E`: each state that is not full has
    its own mark, whose item spells its word. An item open to expansion belongs to a leaf (past the
    last mark nothing is expanded). -/
structure MarkInv (S : List UInt8) (b : Build F) (word : Nat → List UInt8) (U E : Nat → Prop) : Prop where
  item : ∀ m, U m → ∃ q, q ≤ b.newState ∧ ¬ E q ∧ (b.lut m).word = word q ∧ (b.etree q).mark = m ∧
    (m + 1 < tsLutSize → b.lutBlackList m = false → ∀ s, (b.etree q).nextState s = 0)
  blank : ∀ m, ¬ U m → (b.lut m).c = 0 ∧ b.lutBlackList m = false
  stop : ∀ q, q ≤ b.newState → ¬ E q → ¬ Full S b.etree q →
    U (b.etree q).mark ∧ (b.lut (b.etree q).mark).word = word q

def NoState : Nat → Prop := fun _ => False

def OnlyState (q₀ : Nat) : Nat → Prop := fun q => q = q₀

/-- Marks below `l`, but for the hole `f`. -/
def Used (l f : Nat) : Nat → Prop := fun m => m < l ∧ m ≠ f

variable {b : Build F} {U U' E : Nat → Prop} {q₀ f : Nat} {maxItem : LutItem}

/-- Taking an open item out of the table takes its state out of the marks' bookkeeping. -/
theorem MarkInv.takeOut (h : MarkInv S b word U NoState) (ht : TreeInv S b.etree b.newState word) {m : Nat} (hm : U m)
    (hlt : m + 1 < tsLutSize) (hopen : b.lutBlackList m = false) :
    ∃ q, q ≤ b.newState ∧ gotoStateByLutItem b.etree (b.lut m) = q ∧ (b.lut m).word = word q ∧
      (∀ s, (b.etree q).nextState s = 0) ∧
      MarkInv S (b.setItem m { b.lut m with c := 0 }) word (fun i => U i ∧ i ≠ m) (OnlyState q) := by
  obtain ⟨q, hq, -, hw, hmark, hleaf⟩ := h.item m hm
  refine ⟨q, hq, ?_, hw, hleaf hlt hopen, fun i hi => ?_, fun i hi => ?_, fun p hp hne hfull => ?_⟩
  · unfold gotoStateByLutItem
    rw [hw]
    exact ht.goto q hq
  · obtain ⟨p, hp, -, hpw, hpm, hpl⟩ := h.item i hi.1
    refine ⟨p, hp, ?_, by simpa [hi.2] using hpw, hpm, by simpa using hpl⟩
    intro e
    exact hi.2 (by rw [← hpm, show p = q from e, hmark])
  · by_cases e : i = m
    · subst e; simp [hopen]
    · have hi' : ¬ U i := fun hu => hi ⟨hu, e⟩
      simpa [e] using h.blank i hi'
  · obtain ⟨h1, h2⟩ := h.stop p hp id hfull
    have hne' : (b.etree p).mark ≠ m := by
      intro e
      rw [e, hw] at h2
      have := ht.goto p hp
      rw [← h2, ht.goto q hq] at this
      exact hne this.symm
    exact ⟨⟨h1, hne'⟩, by simpa [hne'] using h2⟩

/-- A child of the expanded state takes a free mark. -/
theorem MarkInv.addChild (h : MarkInv S b word U (OnlyState q₀)) (ht : TreeInv S b.etree b.newState word)
    (hq : q₀ ≤ b.newState) (hf : ¬ U f) (symb : UInt8) (hw : maxItem.word = word q₀)
    (hc : maxItem.c.toNat < tsItemSize) :
    MarkInv S ((b.setItem f (addSymbToItem maxItem symb)).addState q₀ symb f)
      (Function.update word (b.newState + 1) (word q₀ ++ [symb])) (fun m => U m ∨ m = f) (OnlyState q₀) := by
  have hnext : ∀ q s, (((b.setItem f (addSymbToItem maxItem symb)).addState q₀ symb f).etree q).nextState s =
      if q = q₀ ∧ s = symb then b.newState + 1 else (b.etree q).nextState s :=
    Build.addState_nextState _ f q₀ symb hq
  have hmark : ∀ q, (((b.setItem f (addSymbToItem maxItem symb)).addState q₀ symb f).etree q).mark =
      if q = b.newState + 1 then f else (b.etree q).mark := Build.addState_mark _ f q₀ symb hq
  have hold : ∀ q, q ≤ b.newState → Function.update word (b.newState + 1) (word q₀ ++ [symb]) q = word q :=
    fun q hq => Function.update_of_ne (by omega) _ _
  have hne : ∀ m, U m → m ≠ f := fun m hm e => hf (e ▸ hm)
  have hblank := h.blank f hf
  refine ⟨fun m hm => ?_, fun m hm => ?_, fun q hq' hne' hfull => ?_⟩
  · rcases hm with hm | rfl
    · obtain ⟨q, hqn, hqE, hqw, hqm, hql⟩ := h.item m hm
      refine ⟨q, Nat.le_succ_of_le hqn, hqE, ?_, ?_, fun hlt hb s => ?_⟩
      · rw [hold q hqn]; simpa [hne m hm] using hqw
      · rw [hmark, if_neg (by omega), hqm]
      · rw [hnext, if_neg (fun e => hqE e.1)]
        exact hql hlt (by simpa using hb) s
    · refine ⟨b.newState + 1, Nat.le_refl _, ?_, ?_, ?_, fun _ _ s => ?_⟩
      · show ¬ b.newState + 1 = q₀
        omega
      · simp [word_addSymbToItem _ _ hc, hw]
      · rw [hmark, if_pos rfl]
      · rw [hnext, if_neg (by rintro ⟨e, _⟩; omega)]
        exact ht.fresh _ _ (by omega)
  · have hm' : ¬ U m ∧ m ≠ f := by
      constructor
      · exact fun hu => hm (.inl hu)
      · exact fun e => hm (.inr e)
    simpa [hm'.2] using h.blank m hm'.1
  · by_cases e : q = b.newState + 1
    · have hm : (((b.setItem f (addSymbToItem maxItem symb)).addState q₀ symb f).etree q).mark = f := by
        rw [hmark, if_pos e]
      rw [hm]
      refine ⟨.inr rfl, ?_⟩
      rw [e]
      simp [word_addSymbToItem _ _ hc, hw]
    · have hqn : q ≤ b.newState := by
        simp only [Build.addState_newState, Build.setItem_newState] at hq'
        omega
      have hfull' : ¬ Full S b.etree q := by
        intro hf
        refine hfull fun s hs => ?_
        rw [hnext, if_neg (fun e => hne' e.1)]
        exact hf s hs
      obtain ⟨h1, h2⟩ := h.stop q hqn hne' hfull'
      have hm : (((b.setItem f (addSymbToItem maxItem symb)).addState q₀ symb f).etree q).mark = (b.etree q).mark := by
        rw [hmark, if_neg e]
      rw [hm, hold q hqn]
      exact ⟨.inl h1, by simpa [hne _ h1] using h2⟩

/-- The expanded state keeps its own word in a free mark, closed to expansion or the last. -/
theorem MarkInv.keepOld (h : MarkInv S b word U (OnlyState q₀)) (hq : q₀ ≤ b.newState) (hf : ¬ U f)
    (hw : maxItem.word = word q₀) {b' : Build F} (hlut : b'.lut = (b.setItem f maxItem).lut)
    (hetree : b'.etree = (b.setMark q₀ f).etree) (hnew : b'.newState = b.newState)
    (hblack : ∀ m, m ≠ f → b'.lutBlackList m = b.lutBlackList m)
    (hclosed : f + 1 < tsLutSize → b'.lutBlackList f = true) : MarkInv S b' word (fun m => U m ∨ m = f) NoState := by
  have hne : ∀ m, U m → m ≠ f := fun m hm e => hf (e ▸ hm)
  have hnext : ∀ q, (b'.etree q).nextState = (b.etree q).nextState := by
    intro q
    rw [hetree, Build.setMark_nextState]
  have hmark : ∀ q, (b'.etree q).mark = if q = q₀ then f else (b.etree q).mark := by
    intro q
    rw [hetree, Build.setMark_mark]
  have hitem : ∀ m, b'.lut m = if m = f then maxItem else b.lut m := by
    intro m
    rw [hlut, Build.setItem_lut]
  refine ⟨fun m hm => ?_, fun m hm => ?_, fun q hq' _ hfull => ?_⟩
  · rcases hm with hm | rfl
    · obtain ⟨q, hqn, hqE, hqw, hqm, hql⟩ := h.item m hm
      have hqE' : ¬ q = q₀ := hqE
      refine ⟨q, by omega, id, by rw [hitem, if_neg (hne m hm), hqw], by rw [hmark, if_neg hqE', hqm],
        fun hlt hb s => ?_⟩
      rw [hblack m (hne m hm)] at hb
      rw [hnext]
      exact hql hlt hb s
    · refine ⟨q₀, by omega, id, by rw [hitem, if_pos rfl, hw], by rw [hmark, if_pos rfl], fun hlt hb => ?_⟩
      rw [hclosed hlt] at hb
      cases hb
  · have hmf : m ≠ f := fun e => hm (.inr e)
    rw [hitem, if_neg hmf, hblack m hmf]
    exact h.blank m (fun hu => hm (.inl hu))
  · by_cases e : q = q₀
    · subst e
      rw [hmark, if_pos rfl, hitem, if_pos rfl]
      exact ⟨.inr rfl, hw⟩
    · have hfull' : ¬ Full S b.etree q := fun hf' => hfull ((Full.congr hnext).mpr hf')
      obtain ⟨h1, h2⟩ := h.stop q (by omega) e hfull'
      rw [hmark, if_neg e, hitem, if_neg (hne _ h1)]
      exact ⟨.inl h1, h2⟩

/-- Once the expanded state is full it has no mark of its own. -/
theorem MarkInv.close (h : MarkInv S b word U (OnlyState q₀)) (hfull : Full S b.etree q₀) :
    MarkInv S b word U NoState := by
  refine ⟨fun m hm => ?_, h.blank, fun q hq _ hnf => h.stop q hq ?_ hnf⟩
  · obtain ⟨q, h1, _, h3⟩ := h.item m hm
    exact ⟨q, h1, id, h3⟩
  · intro e
    subst e
    exact hnf hfull

theorem MarkInv.congr (h : MarkInv S b word U E) (hU : ∀ m, U m ↔ U' m) : MarkInv S b word U' E := by
  obtain rfl : U = U' := funext fun m => propext (hU m)
  exact h

/-! ## One expansion -/

/-- The next empty item, from a mark with no empty item before it. -/
theorem skipUsed_eq (lut : Lut) {f : Nat} (hf : f < tsLutSize) (hempty : (lut f).c = 0) {mark : Nat} (hle : mark ≤ f)
    (hused : ∀ m, mark ≤ m → m < f → (lut m).c ≠ 0) : skipUsed lut mark = some f := by
  induction hk : f - mark generalizing mark with
  | zero =>
    obtain rfl : mark = f := by omega
    unfold skipUsed
    simp [hempty]
  | succ k ih =>
    have hlt : mark < f := by omega
    unfold skipUsed
    rw [if_pos (hused mark (Nat.le_refl _) hlt), if_neg (by omega)]
    exact ih (by omega) (fun m h1 h2 => hused m (by omega) h2) (by omega)

/-- Between two symbols of an expansion of `q₀`: `done` are the symbols handled, `l` the extent
    of the table, `f` the free mark taken next, `mark` the mark taken last. -/
structure Mid (S : List UInt8) (q₀ : Nat) (maxItem : LutItem) (n₀ l₀ : Nat) (done : List UInt8) (b : Build F)
    (word : Nat → List UInt8) (l f mark : Nat) : Prop where
  tree : TreeInv S b.etree b.newState word
  marks : MarkInv S b word (Used l f) (OnlyState q₀)
  state : q₀ ≤ b.newState
  spells : maxItem.word = word q₀
  short : maxItem.c.toNat < tsItemSize
  kids : ∀ s, (b.etree q₀).nextState s ≠ 0 ↔ s ∈ done
  used : ∀ m, Used l f m → (b.lut m).c ≠ 0
  mark_le : mark ≤ f
  free_le : f ≤ l
  size : l + 1 ≤ tsLutSize
  first : done = [] → f < l ∧ l = l₀
  count : b.newState = n₀ + done.length
  extent : done ≠ [] → f = l ∧ l + 1 = l₀ + done.length
  second : done.length = 1 → mark < l₀
  last : 2 ≤ done.length → mark + 1 = l

/-- What an expansion leaves: `l` is the new size of the table. -/
structure Expanded (S : List UInt8) (q₀ : Nat) (maxItem : LutItem) (n₀ l₀ : Nat) (b₀ b : Build F)
    (word : Nat → List UInt8) (l : Nat) : Prop where
  tree : TreeInv S b.etree b.newState word
  marks : MarkInv S b word (fun m => m < l) NoState
  used : ∀ m, m < l → (b.lut m).c ≠ 0
  size : l ≤ tsLutSize
  full : maxItem.c = 0 → Full S b.etree q₀
  keeps : ∀ q, q ≤ b₀.newState → Full S b₀.etree q → Full S b.etree q
  count : (b.newState = n₀ + S.length ∧ l + 1 = l₀ + S.length) ∨
    ∃ k, 1 ≤ k ∧ k < S.length ∧ b.newState = n₀ + k ∧ l = l₀ + k

variable {n₀ l₀ l mark : Nat} {done : List UInt8}

theorem Mid.skip (h : Mid S q₀ maxItem n₀ l₀ done b word l f mark) : skipUsed b.lut mark = some f := by
  have hf : ¬ Used l f f := fun hu => hu.2 rfl
  refine skipUsed_eq b.lut (by have := h.free_le; have := h.size; omega) (h.marks.blank f hf).1 h.mark_le ?_
  intro m _ h2
  exact h.used m ⟨by have := h.free_le; omega, by omega⟩

/-- The expansion's bookkeeping after one more child. -/
theorem Mid.child (h : Mid S q₀ maxItem n₀ l₀ done b word l f mark) {symb : UInt8} (hs : symb ∈ S) (hnew : symb ∉ done)
    {b' : Build F} (hb : b' = (b.setItem f (addSymbToItem maxItem symb)).addState q₀ symb f) :
    let l' := if done = [] then l else l + 1
    let word' := Function.update word (b.newState + 1) (word q₀ ++ [symb])
    TreeInv S b'.etree b'.newState word' ∧
      MarkInv S b' word' (fun m => m < l') (OnlyState q₀) ∧
      (∀ s, (b'.etree q₀).nextState s ≠ 0 ↔ s ∈ done ++ [symb]) ∧ (∀ m, m < l' → (b'.lut m).c ≠ 0) ∧
      (∀ q, Full S b.etree q → Full S b'.etree q) := by
  intro l' word'
  subst hb
  have hzero : (b.etree q₀).nextState symb = 0 := by
    by_contra hne
    exact hnew ((h.kids symb).mp hne)
  have hnext : ∀ q s, (((b.setItem f (addSymbToItem maxItem symb)).addState q₀ symb f).etree q).nextState s =
      if q = q₀ ∧ s = symb then b.newState + 1 else (b.etree q).nextState s :=
    Build.addState_nextState _ f q₀ symb h.state
  have hlen : (word q₀).length < tsItemSize := by
    rw [← h.spells, length_word]
    exact h.short
  have hf : ¬ Used l f f := fun hu => hu.2 rfl
  have hU : ∀ m, (Used l f m ∨ m = f) ↔ m < l' := by
    intro m
    have hfl := h.free_le
    by_cases e : done = []
    · obtain ⟨h1, _⟩ := h.first e
      simp only [l', e, ↓reduceIte, Used]
      omega
    · obtain ⟨h1, _⟩ := h.extent e
      simp only [l', e, ↓reduceIte, Used]
      omega
  have hmarks := (h.marks.addChild h.tree h.state hf symb h.spells h.short).congr hU
  refine ⟨?_, ?_, fun s => ?_, fun m hm => ?_, fun q hq s hs => ?_⟩
  · exact TreeInv.addState (b := b.setItem f (addSymbToItem maxItem symb)) h.tree h.state hs hlen hzero
  · exact hmarks
  · rw [hnext]
    by_cases e : s = symb
    · simp [e]
    · simp [e, h.kids s]
  · rcases (hU m).mpr hm with hu | rfl
    · have := h.used m hu
      simpa [hu.2] using this
    · simp only [Build.addState_lut, Build.setItem_lut, ↓reduceIte, ne_eq, ← word_eq_nil,
        word_addSymbToItem _ _ h.short]
      simp
  · rw [hnext]
    split
    · omega
    · exact hq s hs

/-- One more child, with a mark left after it. -/
theorem Mid.next (h : Mid S q₀ maxItem n₀ l₀ done b word l f mark) {symb : UInt8} (hs : symb ∈ S) (hnew : symb ∉ done)
    (hlt : f + 1 < tsLutSize) :
    ∃ word' l', Mid S q₀ maxItem n₀ l₀ (done ++ [symb]) ((b.setItem f (addSymbToItem maxItem symb)).addState q₀ symb f)
      word' l' l' f := by
  obtain ⟨h1, h2, h3, h4, -⟩ := h.child hs hnew rfl
  refine ⟨_, _, ⟨h1, h2.congr fun m => ?_, ?_, ?_, h.short, h3, fun m hm => h4 m hm.1, ?_, Nat.le_refl _, ?_, ?_, ?_, ?_,
    ?_, ?_⟩⟩
  · show _ ↔ m < _ ∧ m ≠ _
    omega
  · show q₀ ≤ b.newState + 1
    have := h.state
    omega
  · rw [Function.update_of_ne (by have := h.state; omega), h.spells]
  · have := h.free_le
    split <;> omega
  · have := h.size
    by_cases e : done = []
    · simpa [e] using h.size
    · have := (h.extent e).1
      simp only [e, ↓reduceIte]
      omega
  · simp
  · show b.newState + 1 = _
    rw [h.count, List.length_append, List.length_singleton]
    omega
  · intro _
    refine ⟨rfl, ?_⟩
    rw [List.length_append, List.length_singleton]
    by_cases e : done = []
    · have := (h.first e).2
      simp only [e, ↓reduceIte, List.length_nil]
      omega
    · have := (h.extent e).2
      simp only [e, ↓reduceIte]
      omega
  · intro e
    have hd : done = [] := by
      rw [List.length_append, List.length_singleton] at e
      exact List.length_eq_zero_iff.mp (by omega)
    have := h.first hd
    omega
  · intro e
    have hd : done ≠ [] := by
      intro e
      subst e
      simp at e
    have := (h.extent hd).1
    simp only [hd, ↓reduceIte]
    omega

/-- The expansion's end when the old word keeps an item. -/
theorem Mid.keepOld (h : Mid S q₀ maxItem n₀ l₀ done b word l f mark) (hdone : done ≠ []) (hlt : done.length < S.length)
    (hc : maxItem.c ≠ 0) {b₀ b' : Build F} (hlut : b'.lut = (b.setItem f maxItem).lut)
    (hetree : b'.etree = (b.setMark q₀ f).etree) (hnew : b'.newState = b.newState)
    (hblack : ∀ m, m ≠ f → b'.lutBlackList m = b.lutBlackList m)
    (hclosed : f + 1 < tsLutSize → b'.lutBlackList f = true)
    (hkeep : ∀ q, q ≤ b₀.newState → Full S b₀.etree q → Full S b.etree q) :
    Expanded S q₀ maxItem n₀ l₀ b₀ b' word (f + 1) := by
  obtain ⟨hfl, hext⟩ := h.extent hdone
  have hf : ¬ Used l f f := fun hu => hu.2 rfl
  have hnext : ∀ q, (b'.etree q).nextState = (b.etree q).nextState := by
    intro q
    rw [hetree, Build.setMark_nextState]
  have hU : ∀ m, (Used l f m ∨ m = f) ↔ m < f + 1 := by
    intro m
    unfold Used
    omega
  refine ⟨by rw [hnew]; exact h.tree.congr hnext,
    (h.marks.keepOld h.state hf h.spells hlut hetree hnew hblack hclosed).congr hU, fun m hm => ?_, ?_, fun e => absurd e hc,
    fun q hq hfull => (Full.congr hnext).mpr (hkeep q hq hfull), .inr ⟨done.length, ?_, hlt, ?_, ?_⟩⟩
  · rw [hlut, Build.setItem_lut]
    split
    · exact hc
    · exact h.used m ⟨by omega, by omega⟩
  · have := h.size
    omega
  · exact List.length_pos_iff.mpr hdone
  · rw [hnew, h.count]
  · omega

theorem expandChosen_spec (hS : S.Nodup) (hlen : S.length ≤ tsNSymb) (hone : S.length = 1 → l₀ = 1)
    (hroot : maxItem.c = 0 → l₀ = 1) (b₀ : Build F) (giveUp : Nat → Bool) :
    ∀ (left : List UInt8) {done : List UInt8} {b : Build F} {word : Nat → List UInt8} {l f mark : Nat},
      done ++ left = S → (left = [] → done ≠ []) → Mid S q₀ maxItem n₀ l₀ done b word l f mark →
      (∀ q, q ≤ b₀.newState → Full S b₀.etree q → Full S b.etree q) →
      ∃ b' word' mark', expandChosen S.length q₀ maxItem giveUp left done.length mark b = (.tsOk, b', mark') ∧
        Expanded S q₀ maxItem n₀ l₀ b₀ b' word' (mark' + 1) := by
  intro left
  induction left with
  | nil =>
    intro done b word l f mark hd hne h hkeep
    obtain rfl : done = S := by simpa using hd
    obtain ⟨hfl, hext⟩ := h.extent (hne rfl)
    have hfull : Full done b.etree q₀ := fun s hs => (h.kids s).mpr hs
    have hmark : mark + 1 = l := by
      by_cases e : done.length = 1
      · have := h.second e
        have := hone e
        omega
      · refine h.last ?_
        have := List.length_pos_iff.mpr (hne rfl)
        omega
    have hU : ∀ m, Used l f m ↔ m < mark + 1 := by
      intro m
      unfold Used
      omega
    refine ⟨b, word, mark, rfl, h.tree, (h.marks.congr hU).close hfull, fun m hm => h.used m ((hU m).mpr hm), ?_,
      fun _ => hfull, hkeep, .inl ⟨h.count, by omega⟩⟩
    have := h.size
    omega
  | cons symb rest ih =>
    intro done b word l f mark hd _ h hkeep
    have hsymb : symb ∈ S := by
      rw [← hd]
      simp
    have hnew : symb ∉ done := by
      intro hmem
      rw [← hd, List.nodup_append] at hS
      exact hS.2.2 _ hmem _ (by simp) rfl
    have hlt : done.length < S.length := by
      rw [← hd]
      simp
    have hfl := h.free_le
    have hsz := h.size
    unfold expandChosen
    rw [h.skip]
    simp only
    by_cases hf : f < tsLutSize - 1
    · rw [if_pos hf]
      by_cases hstop : maxItem.c.toNat > 0 ∧ 0 < done.length ∧ done.length < S.length - 1 ∧ giveUp done.length = true
      · rw [if_pos hstop]
        have hc : maxItem.c ≠ 0 := by
          intro e
          rw [e] at hstop
          simp at hstop
        refine ⟨_, word, f, rfl, h.keepOld (List.length_pos_iff.mp hstop.2.1) hlt hc rfl rfl rfl (fun m hm => ?_)
          (fun _ => ?_) hkeep⟩
        · exact Function.update_of_ne hm _ _
        · exact Function.update_self _ _ _
      · rw [if_neg hstop]
        obtain ⟨word', l', hmid⟩ := h.next hsymb hnew (by omega)
        have hgrow := (h.child hsymb hnew rfl).2.2.2.2
        obtain ⟨b', word'', mark', he, hres⟩ := ih (by simpa using hd) (by simp) hmid
          (fun q hq hfull => hgrow q (hkeep q hq hfull))
        refine ⟨b', word'', mark', ?_, hres⟩
        rw [← he, List.length_append, List.length_singleton]
    · rw [if_neg hf]
      have hf255 : f + 1 = tsLutSize := by
        unfold tsLutSize at hf hsz ⊢
        omega
      have hdone : done ≠ [] := by
        intro e
        have := (h.first e).1
        omega
      obtain ⟨hfe, hext⟩ := h.extent hdone
      by_cases hlast : done.length ≥ S.length - 1
      · rw [if_pos hlast]
        -- the last symbol takes the last mark
        have hrest : done ++ [symb] = S := by
          have hnil : rest = [] := by
            rw [← hd] at hlast
            simp only [List.length_append, List.length_cons] at hlast
            exact List.length_eq_zero_iff.mp (by omega)
          rw [← hd, hnil]
        obtain ⟨h1, h2, h3, h4, h5⟩ := h.child hsymb hnew rfl
        rw [if_neg hdone] at h2 h4
        have hl : f + 1 = l + 1 := by omega
        have hfull : Full S ((b.setItem f (addSymbToItem maxItem symb)).addState q₀ symb f).etree q₀ := by
          intro s hs
          rw [h3, hrest]
          exact hs
        have hlen' : done.length + 1 = S.length := by
          rw [← hrest]
          simp
        refine ⟨_, _, f, rfl, h1, ?_, fun m hm => h4 m (by omega), by omega, fun _ => hfull,
          fun q hq hq' => h5 q (hkeep q hq hq'), .inl ⟨?_, by omega⟩⟩
        · have h2' := h2.congr (fun m => (by omega : m < l + 1 ↔ m < f + 1))
          exact h2'.close hfull
        · have := h.count
          show b.newState + 1 = _
          omega
      · rw [if_neg hlast]
        have hc : maxItem.c ≠ 0 := by
          intro e
          have := hroot e
          unfold tsNSymb at hlen
          unfold tsLutSize at hf255
          omega
        exact ⟨_, word, f, rfl, h.keepOld hdone hlt hc rfl rfl rfl (fun m _ => rfl) (fun hlt => by omega) hkeep⟩

/-! ## Bounds -/

/-- The build has written nothing outside the table and the states it has made, and no mark is
    larger than the table. -/
structure InBounds (b : Build F) : Prop where
  lut : ∀ m, tsLutSize ≤ m → b.lut m = .empty
  etree : ∀ q, b.newState < q → b.etree q = ⟨fun _ => 0, 0⟩
  mark : ∀ q, (b.etree q).mark < tsLutSize

theorem start_inBounds : InBounds Build.start := ⟨fun _ _ => rfl, fun _ _ => rfl, fun _ => show 0 < tsLutSize by decide⟩

theorem InBounds.setItem (h : InBounds b) {m : Nat} (hm : m < tsLutSize) (item : LutItem) : InBounds (b.setItem m item) := by
  refine ⟨fun i hi => ?_, h.etree, h.mark⟩
  rw [Build.setItem_lut, if_neg (by omega)]
  exact h.lut i hi

theorem InBounds.setMark (h : InBounds b) {q m : Nat} (hq : q ≤ b.newState) (hm : m < tsLutSize) : InBounds (b.setMark q m) := by
  refine ⟨h.lut, fun i hi => ?_, fun i => ?_⟩
  · have hi' : b.newState < i := hi
    exact (Function.update_of_ne (by omega) _ _).trans (h.etree i hi')
  · rw [Build.setMark_mark]
    split
    · exact hm
    · exact h.mark i

theorem InBounds.addState (h : InBounds b) {q m : Nat} (hq : q ≤ b.newState) (symb : UInt8) (hm : m < tsLutSize) :
    InBounds (b.addState q symb m) := by
  refine ⟨h.lut, fun i hi => ?_, fun i => ?_⟩
  · have hi' : b.newState + 1 < i := hi
    simp only [Build.addState]
    rw [Function.update_of_ne (by omega), Function.update_of_ne (by omega)]
    exact h.etree i (by omega)
  · rw [Build.addState_mark b m q symb hq]
    split
    · exact hm
    · exact h.mark i

theorem skipUsed_lt {lut : Lut} {free : Nat} (hm : mark < tsLutSize) (h : skipUsed lut mark = some free) : free < tsLutSize := by
  induction hk : tsLutSize - mark generalizing mark with
  | zero => omega
  | succ k ih =>
    unfold skipUsed at h
    split at h
    · split at h
      · cases h
      · exact ih (by omega) h (by omega)
    · exact Option.some.inj h ▸ hm

theorem expandChosen_inBounds (nSymb : Nat) (maxItem : LutItem) (giveUp : Nat → Bool) :
    ∀ (left : List UInt8) (idx mark : Nat) (b : Build F), InBounds b → q₀ ≤ b.newState → mark < tsLutSize →
      InBounds (expandChosen nSymb q₀ maxItem giveUp left idx mark b).2.1 := by
  intro left
  induction left with
  | nil => intro idx mark b hb _ _; exact hb
  | cons symb rest ih =>
    intro idx mark b hb hq hm
    unfold expandChosen
    cases hskip : skipUsed b.lut mark with
    | none => exact hb
    | some free =>
      have hfree := skipUsed_lt hm hskip
      have hold : InBounds ((b.setItem free maxItem).setMark q₀ free) := (hb.setItem hfree maxItem).setMark hq hfree
      have hchild : InBounds ((b.setItem free (addSymbToItem maxItem symb)).addState q₀ symb free) :=
        (hb.setItem hfree _).addState hq symb hfree
      simp only
      split
      · split
        · exact ⟨hold.lut, hold.etree, hold.mark⟩
        · exact ih (idx + 1) free _ hchild (Nat.le_succ_of_le hq) hfree
      · split
        · exact hchild
        · exact hold

/-! ## The whole build -/

/-- Between two expansions: `l` is the size of the table. -/
structure Grown (S : List UInt8) (b : Build F) (word : Nat → List UInt8) (l : Nat) : Prop where
  tree : TreeInv S b.etree b.newState word
  marks : MarkInv S b word (fun m => m < l) NoState
  size : 1 ≤ l ∧ l ≤ tsLutSize
  used : l = 1 ∨ ∀ m, m < l → (b.lut m).c ≠ 0
  root : b.newState = 0 ∨ Full S b.etree 0
  states : S.length = 1 ∨ b.newState + 2 ≤ 2 * l
  single : S.length = 1 → l = 1

theorem start_grown : Grown S Build.start (fun _ => []) 1 := by
  refine ⟨⟨rfl, fun q s _ h => absurd rfl h, fun q h0 hq => ?_, fun _ _ _ => rfl, fun _ _ => Nat.zero_le _⟩,
    ⟨fun m hm => ?_, fun m _ => ⟨rfl, rfl⟩, fun q _ _ _ => ⟨Nat.zero_lt_one, rfl⟩⟩, ⟨Nat.le_refl _, by decide⟩,
    .inl rfl, .inl rfl, .inr (Nat.le_refl _), fun _ => rfl⟩
  · exact absurd (show q ≤ 0 from hq) (by omega)
  · exact ⟨0, Nat.le_refl _, id, rfl, (Nat.lt_one_iff.mp hm).symm, fun _ _ _ => rfl⟩

theorem searchLargestItem_init : searchLargestItem D (Build.init D) 1 = some 0 := by
  simp [searchLargestItem, Build.init, LutItem.empty, tsItemSize, List.range_succ, D.zero_lt_one]

/-- With one symbol, state `q` spells it `q` times. -/
theorem TreeInv.single (h : TreeInv S t n word) (hone : S.length = 1) : ∀ q, q ≤ n → (word q).length = q := by
  obtain ⟨s₀, rfl⟩ := List.length_eq_one_iff.mp hone
  have hrep : ∀ q, q ≤ n → word q = List.replicate (word q).length s₀ := by
    intro q
    induction q using Nat.strongRecOn with
    | ind q ih =>
    intro hq
    by_cases h0 : q = 0
    · rw [h0, h.root]
      rfl
    · obtain ⟨p, s, hp, hps⟩ := h.parent q (by omega) hq
      obtain ⟨-, hw, hs⟩ := h.child p s (by omega) (by omega)
      rw [hps] at hw
      have hs' : s = s₀ := by simpa using hs
      rw [hw, ih p hp (by omega), hs']
      simp [List.replicate_succ']
  intro q
  induction q using Nat.strongRecOn with
  | ind q ih =>
  intro hq
  by_cases h0 : q = 0
  · rw [h0, h.root]
    rfl
  · obtain ⟨p, s, hp, hps⟩ := h.parent q (by omega) hq
    obtain ⟨-, hw, -⟩ := h.child p s (by omega) (by omega)
    rw [hps] at hw
    have hwl : (word q).length = p + 1 := by
      rw [hw, List.length_append, ih p hp (by omega)]
      rfl
    -- a state between `p` and `q` would spell the same word as `q`
    by_contra hne
    have hp1 : p + 1 < q := by omega
    have heq : word (p + 1) = word q := by
      rw [hrep (p + 1) (by omega), hrep q hq, ih (p + 1) hp1 (by omega), hwl]
    have h1 := h.goto (p + 1) (by omega)
    rw [heq, h.goto q hq] at h1
    omega

theorem Grown.states_lt (h : Grown S b word l) : b.newState + 2 ≤ tsEncStateTableSize := by
  have hsz := h.size
  rcases h.states with h1 | h1
  · have h2 := h.tree.single h1 b.newState (Nat.le_refl _)
    have h3 := h.tree.len b.newState (Nat.le_refl _)
    unfold tsItemSize at h3
    unfold tsEncStateTableSize
    omega
  · unfold tsLutSize at hsz
    unfold tsEncStateTableSize
    omega

/-- One round of the build. -/
theorem Grown.round (h : Grown S b word l) (hl : l < tsLutSize) (hS : S.Nodup) (hpos : 1 ≤ S.length)
    (hlen : S.length ≤ tsNSymb) {m : Nat} (hm : MayExpand b l m) (giveUp : Nat → Bool) :
    ∃ b' word' mark', expandChosen S.length (gotoStateByLutItem b.etree (b.lut m)) (b.lut m) giveUp S 0 m
        (b.setItem m { b.lut m with c := 0 }) = (.tsOk, b', mark') ∧
      Grown S b' word' (mark' + 1) ∧ b.newState < b'.newState ∧ (InBounds b → InBounds b') := by
  obtain ⟨hml, hblack, hc⟩ := hm
  obtain ⟨q, hq, hgoto, hw, hleaf, hmarks⟩ := h.marks.takeOut h.tree hml (by omega) hblack
  have hroot : (b.lut m).c = 0 → l = 1 := by
    intro e
    rcases h.used with h1 | h1
    · exact h1
    · exact absurd e (h1 m hml)
  have hmid : Mid S q (b.lut m) b.newState l [] (b.setItem m { b.lut m with c := 0 }) word l m m := by
    refine ⟨h.tree, hmarks.congr fun i => ?_, hq, hw, hc, fun s => ?_, fun i hi => ?_, Nat.le_refl _, Nat.le_of_lt hml, hl,
      fun _ => ⟨hml, rfl⟩, rfl, fun e => absurd rfl e, fun e => by simp at e, fun e => by simp at e⟩
    · exact Iff.rfl
    · simp [hleaf s]
    · rcases h.used with h1 | h1
      · have := hi.1
        have := hi.2
        omega
      · simpa [hi.2] using h1 i hi.1
  have hne : S ≠ [] := List.length_pos_iff.mp hpos
  obtain ⟨b', word', mark', he, hx⟩ := expandChosen_spec hS hlen h.single hroot b giveUp S (List.nil_append S)
    (fun e => absurd e hne) hmid (fun _ _ hf => hf)
  refine ⟨b', word', mark', by rw [hgoto]; exact he, ⟨hx.tree, hx.marks, ⟨by omega, hx.size⟩, .inr hx.used, ?_, ?_, ?_⟩, ?_,
    fun hb => ?_⟩
  · refine .inr ?_
    rcases h.root with h0 | hfull
    · obtain rfl : q = 0 := by omega
      exact hx.full (word_eq_nil.mp (hw.trans h.tree.root))
    · exact hx.keeps 0 (Nat.zero_le _) hfull
  · by_cases e : S.length = 1
    · exact .inl e
    · refine .inr ?_
      rcases h.states with h1 | h1
      · exact absurd h1 e
      · rcases hx.count with ⟨hn, hl'⟩ | ⟨k, hk, _, hn, hl'⟩ <;> omega
  · intro e
    have := h.single e
    rcases hx.count with ⟨_, hl'⟩ | ⟨k, hk, hk', _, _⟩ <;> omega
  · rcases hx.count with ⟨hn, _⟩ | ⟨k, hk, _, hn, _⟩ <;> omega
  · have hin := expandChosen_inBounds S.length (b.lut m) giveUp S 0 m (b.setItem m { b.lut m with c := 0 })
      (hb.setItem (by omega) _) hq (by omega)
    rw [List.length_nil] at he
    rw [he] at hin
    exact hin

/-- By induction on the rounds left: each takes a new state, of which there are not more. -/
theorem chosenLoop_spec (hS : S.Nodup) (hpos : 1 ≤ S.length) (hlen : S.length ≤ tsNSymb) (choices : Nat → Option Choice) :
    ∀ (fuel r : Nat) {b : Build Unit} {word : Nat → List UInt8} {l : Nat}, Grown S b word l → l < tsLutSize →
      tsEncStateTableSize ≤ fuel + b.newState →
      ∃ b' word' l', chosenLoop S choices fuel r l b = some (.tsOk, b') ∧ Grown S b' word' l' ∧ b.newState ≤ b'.newState ∧
        (∀ choice, choices r = some choice → MayExpand b l choice.mark → b.newState < b'.newState) ∧
        (InBounds b → InBounds b') := by
  intro fuel
  induction fuel with
  | zero =>
    intro r b word l h _ hf
    have := h.states_lt
    omega
  | succ fuel ih =>
    intro r b word l h hl hf
    unfold chosenLoop
    cases hchoice : choices r with
    | none => exact ⟨b, word, l, rfl, h, Nat.le_refl _, (fun _ hc => by cases hc), id⟩
    | some choice =>
      by_cases hmay : MayExpand b l choice.mark
      · obtain ⟨b', word', mark', he, hg, hlt, hin⟩ := h.round hl hS hpos hlen hmay choice.giveUp
        simp only [hmay, ↓reduceIte, he]
        by_cases hsz : mark' + 1 < tsLutSize
        · obtain ⟨b'', word'', l'', he', hg', hle, -, hin'⟩ := ih (r + 1) hg hsz (by omega)
          exact ⟨b'', word'', l'', by rw [if_pos hsz]; exact he', hg', by omega, fun _ _ _ => by omega, fun hb => hin' (hin hb)⟩
        · exact ⟨b', word', mark' + 1, by rw [if_neg hsz], hg, by omega, fun _ _ _ => hlt, hin⟩
      · refine ⟨b, word, l, by simp only [hmay, ↓reduceIte], h, Nat.le_refl _, fun c hc hm => ?_, id⟩
        obtain rfl := Option.some.inj hc
        exact absurd hm hmay

/-- Every build of choices ends, with no error. -/
theorem buildChosen_spec (hS : S.Nodup) (hpos : 1 ≤ S.length) (hlen : S.length ≤ tsNSymb) (choices : Nat → Option Choice) :
    ∃ b word l, buildChosen S choices = some (.tsOk, b) ∧ Grown S b word l ∧ InBounds b ∧
      ((choices 0).map (·.mark) = some 0 → 0 < b.newState) := by
  obtain ⟨b, word, l, he, hg, -, hfirst, hin⟩ := chosenLoop_spec hS hpos hlen choices tsEncStateTableSize 0 start_grown
    (by decide) (Nat.le_add_right _ _)
  refine ⟨b, word, l, he, hg, hin start_inBounds, fun hroot => ?_⟩
  obtain ⟨choice, hchoice, hmark⟩ := Option.map_eq_some_iff.mp hroot
  exact hfirst choice hchoice (by rw [hmark]; exact ⟨by decide, rfl, by decide⟩)

/-- What the encoder relies on. -/
structure Built (S : List UInt8) (b : Build F) (word : Nat → List UInt8) : Prop where
  tree : TreeInv S b.etree b.newState word
  states : b.newState + 2 ≤ tsEncStateTableSize
  root : Full S b.etree 0
  stop : ∀ q, q ≤ b.newState → ¬ Full S b.etree q →
    (b.etree q).mark < tsLutSize ∧ (b.lut (b.etree q).mark).word = word q

theorem checkLutRest_ok (lut : Lut) : ∀ ms : List Nat, (∀ m ∈ ms, (lut m).c = 0) → checkLutRest lut ms = .tsOk := by
  intro ms
  induction ms with
  | nil => intro _; rfl
  | cons m ms ih =>
    intro h
    unfold checkLutRest
    rw [if_neg (by simp [h m (by simp)])]
    exact ih fun i hi => h i (List.mem_cons_of_mem _ hi)

/-- A table of `k` items followed by empty ones passes the check. -/
theorem checkLut_ok (lut : Lut) (k : Nat) (hin : ∀ m, m < k → (lut m).c.toNat ≤ tsItemSize)
    (hout : ∀ m, k ≤ m → (lut m).c = 0) (hused : ∀ m, m < k → 0 < m → (lut m).c ≠ 0) (hone : (lut 0).c = 0 → k ≤ 1) :
    checkLut lut = .tsOk := by
  have key : ∀ (j i : Nat), checkLutFrom lut (List.range' i j) = .tsOk := by
    intro j
    induction j with
    | zero => intro i; rfl
    | succ j ih =>
      intro i
      rw [List.range'_succ]
      unfold checkLutFrom
      have hle : (lut i).c.toNat ≤ tsItemSize := by
        by_cases h : i < k
        · exact hin i h
        · rw [hout i (by omega)]
          exact Nat.zero_le _
      rw [if_neg (by omega)]
      split
      · next h0 =>
        refine checkLutRest_ok lut _ fun m hm => ?_
        rw [← List.range'_succ, List.mem_range'_1] at hm
        by_cases hmi : m = i
        · rw [hmi, h0]
        · refine hout m ?_
          by_contra hlt
          by_cases hi0 : i = 0
          · have := hone (hi0 ▸ h0)
            omega
          · exact hused i (by omega) (by omega) h0
      · exact ih (i + 1)
  unfold checkLut
  rw [List.range_eq_range']
  exact key _ 0

theorem Grown.check (h : Grown S b word l) : checkLut b.lut = .tsOk := by
  refine checkLut_ok b.lut l (fun m hm => ?_) (fun m hm => (h.marks.blank m (by omega)).1) (fun m hm h0 => ?_) (fun h0 => ?_)
  · obtain ⟨q, hq, _, hw, _⟩ := h.marks.item m hm
    rw [← length_word, hw]
    exact h.tree.len q hq
  · rcases h.used with h1 | h1
    · omega
    · exact h1 m hm
  · rcases h.used with h1 | h1
    · omega
    · exact absurd h0 (h1 0 (by have := h.size; omega))

/-- A build that has expanded the root. -/
theorem Grown.built (h : Grown S b word l) (hnew : 0 < b.newState) : Built S b word := by
  refine ⟨h.tree, h.states_lt, ?_, fun q hq hfull => ?_⟩
  · rcases h.root with h0 | h0
    · omega
    · exact h0
  · obtain ⟨h1, h2⟩ := h.marks.stop q hq id hfull
    have hsz := h.size
    exact ⟨Nat.lt_of_lt_of_le h1 hsz.2, h2⟩

theorem Built.of_skeleton (h : Built S b.skeleton word) : Built S b word := ⟨h.tree, h.states, h.root, h.stop⟩

/-- `ts_build_lut` on a histogram of 1 to 64 distinct symbols. -/
theorem buildLut_spec (hist : Hist F) (hS : S.Nodup) (hpos : 1 ≤ S.length) (hlen : S.length ≤ tsNSymb)
    (hn : hist.nSymb = S.length) (hhs : (hist.hist.take hist.nSymb).map (·.symb) = S) :
    ∃ b word, buildLut D hist = some (.tsOk, b) ∧ Built S b word ∧ checkLut b.lut = .tsOk := by
  have hsymbs : hist.symbs = S := hhs
  obtain ⟨choices, hchosen, hfirst⟩ := buildLut_chosen D hist (by rw [hsymbs, hn])
  obtain ⟨b₀, word, l, he, hg, -, hroot⟩ := buildChosen_spec hS hpos hlen choices
  rw [hsymbs, he] at hchosen
  obtain ⟨⟨code, b⟩, hb, heq⟩ := Option.map_eq_some_iff.mp hchosen.symm
  obtain ⟨rfl, rfl⟩ := Prod.mk.inj heq
  rw [searchLargestItem_init] at hfirst
  exact ⟨b, word, hb, (hg.built (hroot hfirst)).of_skeleton, hg.check⟩

end UnifiedCache.Compress
