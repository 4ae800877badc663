/-
  UnifiedCache.Compress.LutChoices — `ts_build_lut` with its floating-point comparisons left open
  (see `UnifiedCache.Compress.Tunstall`).

  Probabilities decide two things: which item a round expands (`ts_search_largest_item`), and before
  which symbol the expansion is given up. Here a sequence of `Choice`s does, whatever it says, and no
  probabilities are kept. A round without a choice, or whose choice is not an item that may be
  expanded, ends the build.

  Proved (`buildLut_chosen`): the code's build, under any floating-point arithmetic, is the build of
  some sequence of choices. So what holds for all of these holds of the code.
-/

import UnifiedCache.Compress.Tunstall

namespace UnifiedCache.Compress

open UnifiedCache.Base

variable {F : Type} {D : FloatOps F}

/-- What the comparisons of one round say. -/
structure Choice where
  /-- The item expanded. -/
  mark : Nat
  /-- Whether too little probability is left at a symbol's index. -/
  giveUp : Nat → Bool

/-- The item may be expanded: it is in the table, not closed, and not full. -/
def MayExpand (b : Build F) (lutSize mark : Nat) : Prop :=
  mark < lutSize ∧ b.lutBlackList mark = false ∧ (b.lut mark).c.toNat < tsItemSize

instance (b : Build F) (lutSize mark : Nat) : Decidable (MayExpand b lutSize mark) :=
  inferInstanceAs (Decidable (_ ∧ _ ∧ _))

/-- The loop over the symbols of one expansion, from index `idx`. -/
def expandChosen (nSymb state : Nat) (maxItem : LutItem) (giveUp : Nat → Bool) :
    List UInt8 → Nat → Nat → Build F → Code × Build F × Nat
  | [], _, mark, b => (.tsOk, b, mark)
  | symb :: rest, idx, mark, b =>
    match skipUsed b.lut mark with
    | none => (.errLutBuild, b, mark)
    | some mark =>
      if mark < tsLutSize - 1 then
        if maxItem.c.toNat > 0 ∧ 0 < idx ∧ idx < nSymb - 1 ∧ giveUp idx then
          let b := (b.setItem mark maxItem).setMark state mark
          (.tsOk, { b with lutBlackList := Function.update b.lutBlackList mark true }, mark)
        else
          expandChosen nSymb state maxItem giveUp rest (idx + 1) mark
            ((b.setItem mark (addSymbToItem maxItem symb)).addState state symb mark)
      else if idx ≥ nSymb - 1 then
        (.tsOk, (b.setItem mark (addSymbToItem maxItem symb)).addState state symb mark, mark)
      else (.tsOk, (b.setItem mark maxItem).setMark state mark, mark)

/-- The rounds from round `r` on. -/
def chosenLoop (symbs : List UInt8) (choices : Nat → Option Choice) :
    Nat → Nat → Nat → Build Unit → Option (Code × Build Unit)
  | 0, _, _, _ => none
  | fuel + 1, r, lutSize, b =>
    match choices r with
    | none => some (.tsOk, b)
    | some choice =>
      if MayExpand b lutSize choice.mark then
        let maxItem := b.lut choice.mark
        let state := gotoStateByLutItem b.etree maxItem
        match expandChosen symbs.length state maxItem choice.giveUp symbs 0 choice.mark
            (b.setItem choice.mark { maxItem with c := 0 }) with
        | (.tsOk, b, mark) =>
          if mark + 1 < tsLutSize then chosenLoop symbs choices fuel (r + 1) (mark + 1) b else some (.tsOk, b)
        | (e, b, _) => some (e, b)
      else some (.tsOk, b)

def Build.start : Build Unit := ⟨fun _ => .empty, fun _ => (), fun _ => false, fun _ => ⟨fun _ => 0, 0⟩, 0⟩

def buildChosen (symbs : List UInt8) (choices : Nat → Option Choice) : Option (Code × Build Unit) :=
  chosenLoop symbs choices tsEncStateTableSize 0 1 Build.start

/-! ## The code's choices -/

/-- The symbols of a histogram. -/
def Hist.symbs (hist : Hist F) : List UInt8 := (hist.hist.take hist.nSymb).map (·.symb)

/-- The table without its probabilities. -/
def Build.skeleton (b : Build F) : Build Unit := ⟨b.lut, fun _ => (), b.lutBlackList, b.etree, b.newState⟩

theorem mayExpand_skeleton {b : Build F} {lutSize mark : Nat} : MayExpand b.skeleton lutSize mark ↔
    MayExpand b lutSize mark := Iff.rfl

/-- The search finds an item that may be expanded. -/
theorem searchLargestItem_spec {b : Build F} {l m : Nat} (h : searchLargestItem D b l = some m) : MayExpand b l m := by
  have key : ∀ (ms : List Nat) (acc : F × Option Nat), (∀ i, acc.2 = some i → MayExpand b l i) → (∀ i ∈ ms, i < l) →
      ∀ i, (ms.foldl (fun (acc : F × Option Nat) mark =>
        if b.lutBlackList mark = false ∧ (b.lut mark).c.toNat < tsItemSize ∧ D.lt acc.1 (b.lutProb mark) then
          (b.lutProb mark, some mark)
        else acc) acc).2 = some i → MayExpand b l i := by
    intro ms
    induction ms with
    | nil => intro acc hacc _ i hi; exact hacc i hi
    | cons mark ms ih =>
      intro acc hacc hms i hi
      rw [List.foldl_cons] at hi
      refine ih _ ?_ (fun j hj => hms j (List.mem_cons_of_mem _ hj)) i hi
      intro j hj
      split at hj
      · next hok =>
        obtain rfl : mark = j := by simpa using hj
        exact ⟨hms mark (by simp), hok.1, hok.2.1⟩
      · exact hacc j hj
  exact key _ _ (fun i hi => by cases hi) (fun i hi => List.mem_range.mp hi) m h

/-- The probability left after the first symbols. -/
def remProbAfter (D : FloatOps F) (remProb : F) (hs : List (HistItem F)) : F := hs.foldl (fun rem h => D.sub rem h.prob) remProb

/-- An expansion is the expansion that gives up where the code's comparison says so. By induction on
    the symbols left, from the index and the probability reached. -/
theorem expandFrom_chosen (nSymb state : Nat) (maxItem : LutItem) (maxProb : F) (giveUp : Nat → Bool) :
    ∀ (hs : List (HistItem F)) (idx : Nat) (remProb : F) (mark : Nat) (b : Build F),
      (∀ k, k < hs.length → giveUp (idx + k) = D.lt (D.mul maxProb (remProbAfter D remProb (hs.take k))) D.thresh) →
      let r := expandFrom D nSymb state maxItem maxProb hs idx remProb mark b
      expandChosen nSymb state maxItem giveUp (hs.map (·.symb)) idx mark b.skeleton = (r.1, r.2.1.skeleton, r.2.2) := by
  intro hs
  induction hs with
  | nil => intro idx remProb mark b _; rfl
  | cons h rest ih =>
    intro idx remProb mark b hgive
    have hhere : giveUp idx = D.lt (D.mul maxProb remProb) D.thresh := hgive 0 (by simp)
    have hrest : ∀ k, k < rest.length →
        giveUp (idx + 1 + k) = D.lt (D.mul maxProb (remProbAfter D (D.sub remProb h.prob) (rest.take k))) D.thresh := by
      intro k hk
      have hnext := hgive (k + 1) (by simpa using hk)
      rw [show idx + 1 + k = idx + (k + 1) by omega, hnext]
      rfl
    have hlut : b.skeleton.lut = b.lut := rfl
    simp only [List.map_cons, expandChosen, expandFrom, hlut, hhere]
    cases skipUsed b.lut mark with
    | none => rfl
    | some free =>
      simp only
      split
      · split
        · rfl
        · exact ih (idx + 1) (D.sub remProb h.prob) free
            { (b.setItem free (addSymbToItem maxItem h.symb)).addState state h.symb free with
              lutProb := Function.update b.lutProb free (D.mul maxProb h.prob) } hrest
      · split <;> rfl

theorem chosenLoop_congr {symbs : List UInt8} {choices choices' : Nat → Option Choice} :
    ∀ (fuel r lutSize : Nat) (b : Build Unit), (∀ i, r ≤ i → choices i = choices' i) →
      chosenLoop symbs choices fuel r lutSize b = chosenLoop symbs choices' fuel r lutSize b := by
  intro fuel
  induction fuel with
  | zero => intro r lutSize b _; rfl
  | succ fuel ih =>
    intro r lutSize b h
    unfold chosenLoop
    simp only [h r (Nat.le_refl r), ih (r + 1) _ _ fun i hi => h i (by omega)]

/-- From any round on the code's loop follows some choices, the first of them the item that the
    search finds. By induction on the rounds. -/
theorem buildLoop_chosen (hist : Hist F) (hn : hist.symbs.length = hist.nSymb) :
    ∀ (fuel r lutSize : Nat) (b : Build F), ∃ choices : Nat → Option Choice,
      chosenLoop hist.symbs choices fuel r lutSize b.skeleton =
          (buildLoop D hist fuel lutSize b).map (fun x => (x.1, x.2.skeleton)) ∧
        (choices r).map (·.mark) = searchLargestItem D b lutSize := by
  intro fuel
  induction fuel with
  | zero =>
    intro r lutSize b
    refine ⟨fun _ => (searchLargestItem D b lutSize).map fun mark => ⟨mark, fun _ => false⟩, rfl, ?_⟩
    cases searchLargestItem D b lutSize <;> rfl
  | succ fuel ih =>
    intro r lutSize b
    cases hsearch : searchLargestItem D b lutSize with
    | none =>
      refine ⟨fun _ => none, ?_, rfl⟩
      simp only [chosenLoop, buildLoop, hsearch, Option.map_some]
    | some mark =>
      let maxItem := b.lut mark
      let giveUp : Nat → Bool := fun idx =>
        D.lt (D.mul (b.lutProb mark) (remProbAfter D D.one ((hist.hist.take hist.nSymb).take idx))) D.thresh
      have hexpand := expandFrom_chosen (D := D) hist.nSymb (gotoStateByLutItem b.etree maxItem) maxItem (b.lutProb mark)
        giveUp (hist.hist.take hist.nSymb) 0 D.one mark (b.setItem mark { maxItem with c := 0 })
        (fun k _ => by rw [Nat.zero_add])
      rcases hres : expandFrom D hist.nSymb (gotoStateByLutItem b.etree maxItem) maxItem (b.lutProb mark)
          (hist.hist.take hist.nSymb) 0 D.one mark (b.setItem mark { maxItem with c := 0 }) with ⟨code, b', mark'⟩
      rw [hres] at hexpand
      obtain ⟨later, hlater, -⟩ := ih (r + 1) (mark' + 1) b'
      refine ⟨Function.update later r (some ⟨mark, giveUp⟩), ?_, by simp⟩
      have hsame : ∀ i, r + 1 ≤ i → Function.update later r (some ⟨mark, giveUp⟩) i = later i :=
        fun i hi => Function.update_of_ne (by omega) _ _
      have hmay : MayExpand b.skeleton lutSize mark := mayExpand_skeleton.mpr (searchLargestItem_spec hsearch)
      have hchosen : expandChosen hist.symbs.length (gotoStateByLutItem b.skeleton.etree (b.skeleton.lut mark))
          (b.skeleton.lut mark) giveUp hist.symbs 0 mark (b.skeleton.setItem mark { b.skeleton.lut mark with c := 0 }) =
            (code, b'.skeleton, mark') := by
        rw [hn]
        exact hexpand
      unfold chosenLoop buildLoop
      simp only [Function.update_self, hmay, ↓reduceIte, hchosen, hsearch, hres, maxItem]
      cases code with
      | tsOk =>
        simp only
        split
        · rw [chosenLoop_congr fuel (r + 1) (mark' + 1) b'.skeleton hsame, hlater]
        · rfl
      | _ => rfl

/-- The code builds what some choices build; the first is the whole item at the root. -/
theorem buildLut_chosen (D : FloatOps F) (hist : Hist F) (hn : hist.symbs.length = hist.nSymb) :
    ∃ choices : Nat → Option Choice,
      buildChosen hist.symbs choices = (buildLut D hist).map (fun x => (x.1, x.2.skeleton)) ∧
        (choices 0).map (·.mark) = searchLargestItem D (Build.init D) 1 :=
  buildLoop_chosen hist hn tsEncStateTableSize 0 1 (Build.init D)

end UnifiedCache.Compress
