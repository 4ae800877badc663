/-
  UnifiedCache.Posix.BlockFiles — the files of a block on the storage backend
  (ucm/store/posix/cc/space_layout.cc, posix_file.cc).

  A block has two names: the activated one (`.tmp`), which dumps open with O_CREAT and write,
  and the archived one, which Lookup and loads use. A name leads to an inode, and an open file
  keeps its inode when the name goes away. `written ino i` says that shard `i` was completely
  written to the inode by a successful write; contents are not modelled further.

  `Safe`: the archived files are complete; a writer of the last shard that is going to commit
  (`H b ino wrote`: it has opened `ino` under the activated name of `b`) has that inode or
  nothing under the activated name, and a complete one once it has written; and a block whose
  commit is submitted (`C b`) has a complete file or nothing under that name. Proved: every file
  operation keeps it, when no activated file is created beside such a writer or commit
  (`CreatesAlone`) and the last shard is written after the others (`OthersWritten`).
-/

import Mathlib.Logic.Function.Basic

namespace UnifiedCache.Posix

structure Files where
  nextIno : Nat
  activated : Nat → Option Nat
  archived : Nat → Option Nat
  written : Nat → Nat → Bool

namespace Files

def init : Files := ⟨0, fun _ => none, fun _ => none, fun _ _ => false⟩

variable (f : Files)

/-- `open(DataFilePath(b, true), O_CREAT | O_WRONLY)`: the inode behind the descriptor. -/
def openActivated (b : Nat) : Files × Nat :=
  match f.activated b with
  | some ino => (f, ino)
  | none => ({ f with nextIno := f.nextIno + 1, activated := Function.update f.activated b (some f.nextIno) }, f.nextIno)

/-- All of shard `i` is written through a descriptor. -/
def writeShard (ino i : Nat) : Files :=
  { f with written := Function.update f.written ino (Function.update (f.written ino) i true) }

/-- `PosixFile{activated}.Remove()`. -/
def removeActivated (b : Nat) : Files := { f with activated := Function.update f.activated b none }

/-- `SpaceLayout::CommitFile`; `renamed` is the outcome of `rename` where the activated file exists. -/
def commitFile (b : Nat) (success renamed : Bool) : Files :=
  match f.activated b with
  | none => f
  | some ino =>
    if success && renamed then { f.removeActivated b with archived := Function.update f.archived b (some ino) }
    else f.removeActivated b

/-- `SpaceLayout::RemoveFile`. -/
def removeFile (b : Nat) : Files := { f with archived := Function.update f.archived b none }

end Files

variable (n : Nat)

/-- Every shard of a block has been written. -/
def Complete (f : Files) (ino : Nat) : Prop := ∀ i, i < n → f.written ino i = true

/-- Every shard but the last has been written. -/
def OthersWritten (f : Files) (ino : Nat) : Prop := ∀ i, i + 1 < n → f.written ino i = true

/-- `shard.index + 1 == nShardPerBlock_`. -/
def isLast (i : Nat) : Bool := i + 1 = n

/-- What Lookup reports is complete. -/
def VisibleComplete (f : Files) : Prop := ∀ b ino, f.archived b = some ino → Complete n f ino

/-- No writer of the last shard of `b` has yet to commit where a dump would create the activated
    file anew. -/
def CreatesAlone (f : Files) (H : Nat → Nat → Bool → Prop) (C : Nat → Prop) (b : Nat) : Prop :=
  f.activated b = none → (∀ ino wrote, ¬ H b ino wrote) ∧ ¬ C b

structure Safe (f : Files) (H : Nat → Nat → Bool → Prop) (C : Nat → Prop) : Prop where
  visible : VisibleComplete n f
  held : ∀ b ino wrote, H b ino wrote → (f.activated b = none ∨ f.activated b = some ino) ∧ (wrote = true → Complete n f ino)
  submitted : ∀ b, C b → f.activated b = none ∨ ∃ ino, f.activated b = some ino ∧ Complete n f ino

variable {n : Nat} {f : Files} {H H' : Nat → Nat → Bool → Prop} {C C' : Nat → Prop}

theorem Safe.mono (h : Safe n f H C) (hle : ∀ b ino wrote, H' b ino wrote → H b ino wrote) (hC : ∀ b, C' b → C b) :
    Safe n f H' C' :=
  ⟨h.visible, fun b ino wrote hH => h.held b ino wrote (hle b ino wrote hH), fun b hb => h.submitted b (hC b hb)⟩

theorem Complete.writeShard {ino : Nat} (h : Complete n f ino) (ino' i : Nat) : Complete n (f.writeShard ino' i) ino := by
  intro j hj
  have := h j hj
  unfold Files.writeShard
  simp only [Function.update_apply]
  split
  · next e =>
    subst e
    rw [Function.update_apply]
    split
    · rfl
    · exact this
  · exact this

theorem OthersWritten.writeShard {ino : Nat} (h : OthersWritten n f ino) (ino' i : Nat) :
    OthersWritten n (f.writeShard ino' i) ino := fun j hj => by
  have hup : Complete (j + 1) f ino := fun k hk => h k (by omega)
  exact hup.writeShard ino' i j (Nat.lt_succ_self j)

/-- With the others written, writing the last shard completes the file. -/
theorem OthersWritten.complete {ino i : Nat} (h : OthersWritten n f ino) (hi : isLast n i = true) :
    Complete n (f.writeShard ino i) ino := by
  intro j hj
  unfold isLast at hi
  simp only [decide_eq_true_eq] at hi
  by_cases hji : j = i
  · simp [Files.writeShard, hji]
  · exact h.writeShard ino i j (by omega)

theorem openActivated_archived (b : Nat) : (f.openActivated b).1.archived = f.archived := by
  unfold Files.openActivated
  split <;> rfl

theorem openActivated_written (b : Nat) : (f.openActivated b).1.written = f.written := by
  unfold Files.openActivated
  split <;> rfl

theorem openActivated_activated (b : Nat) :
    (f.openActivated b).1.activated = Function.update f.activated b (some (f.openActivated b).2) := by
  unfold Files.openActivated
  split
  · next h => rw [← h, Function.update_eq_self]
  · rfl

namespace Safe

theorem openActivated (h : Safe n f H C) {b : Nat} (hok : CreatesAlone f H C b) : Safe n (f.openActivated b).1 H C := by
  refine ⟨fun b' ino hb => ?_, fun b' ino wrote hH => ?_, fun b' hC => ?_⟩
  · rw [openActivated_archived] at hb
    intro j hj
    rw [openActivated_written]
    exact h.visible b' ino hb j hj
  · obtain ⟨h1, h2⟩ := h.held b' ino wrote hH
    unfold Complete
    rw [openActivated_written, openActivated_activated]
    refine ⟨?_, h2⟩
    rw [Function.update_apply]
    split
    · next e =>
      -- a file that a writer holds is not made anew
      subst e
      rcases h1 with hnone | hsome
      · exact absurd hH ((hok hnone).1 ino wrote)
      · right
        unfold Files.openActivated
        rw [hsome]
    · exact h1
  · unfold Complete
    rw [openActivated_written, openActivated_activated, Function.update_apply]
    split
    · next e =>
      subst e
      rcases h.submitted b' hC with hnone | ⟨ino, hsome, hcomp⟩
      · exact absurd hC (hok hnone).2
      · refine .inr ⟨ino, ?_, hcomp⟩
        unfold Files.openActivated
        rw [hsome]
    · exact h.submitted b' hC

/-- A dump of the last shard opens its file. -/
theorem openLast (h : Safe n f H C) {b : Nat} (hok : CreatesAlone f H C b) :
    Safe n (f.openActivated b).1
      (fun b' ino wrote => H b' ino wrote ∨ (b' = b ∧ ino = (f.openActivated b).2 ∧ wrote = false)) C := by
  have hs := h.openActivated hok
  refine ⟨hs.visible, ?_, hs.submitted⟩
  rintro b' ino wrote (hH | ⟨rfl, rfl, rfl⟩)
  · exact hs.held b' ino wrote hH
  · refine ⟨.inr ?_, nofun⟩
    rw [openActivated_activated, Function.update_self]

theorem writeShard (h : Safe n f H C) (ino i : Nat) : Safe n (f.writeShard ino i) H C := by
  refine ⟨fun b' ino' hb => Complete.writeShard (h.visible b' ino' hb) ino i, fun b' ino' wrote hH => ?_, fun b' hC => ?_⟩
  · obtain ⟨h1, h2⟩ := h.held b' ino' wrote hH
    exact ⟨h1, fun hw => (h2 hw).writeShard ino i⟩
  · rcases h.submitted b' hC with hnone | ⟨ino', hsome, hcomp⟩
    · exact .inl hnone
    · exact .inr ⟨ino', hsome, hcomp.writeShard ino i⟩

/-- The last shard's writer has written its shard, after the others. -/
theorem writeLast (h : Safe n f H C) {b ino i : Nat} {wrote : Bool} (hH : H b ino wrote) (hi : isLast n i = true)
    (ho : OthersWritten n f ino) :
    Safe n (f.writeShard ino i) (fun b' ino' wrote' => H b' ino' wrote' ∨ (b' = b ∧ ino' = ino ∧ wrote' = true)) C := by
  have hs := h.writeShard ino i
  refine ⟨hs.visible, ?_, hs.submitted⟩
  rintro b' ino' wrote' (hH' | ⟨rfl, rfl, rfl⟩)
  · exact hs.held b' ino' wrote' hH'
  · exact ⟨(h.held _ _ _ hH).1, fun _ => ho.complete hi⟩

/-- A writer that has written submits its commit. -/
theorem submit (h : Safe n f H C) {b ino : Nat} (hH : H b ino true) : Safe n f H fun b' => C b' ∨ b' = b := by
  refine ⟨h.visible, h.held, ?_⟩
  rintro b' (hC | rfl)
  · exact h.submitted b' hC
  · obtain ⟨h1, h2⟩ := h.held _ _ _ hH
    rcases h1 with hnone | hsome
    · exact .inl hnone
    · exact .inr ⟨ino, hsome, h2 rfl⟩

theorem removeActivated (h : Safe n f H C) (b : Nat) : Safe n (f.removeActivated b) H C := by
  refine ⟨h.visible, fun b' ino wrote hH => ?_, fun b' hC => ?_⟩
  · obtain ⟨h1, h2⟩ := h.held b' ino wrote hH
    refine ⟨?_, h2⟩
    unfold Files.removeActivated
    simp only [Function.update_apply]
    split
    · exact .inl rfl
    · exact h1
  · unfold Files.removeActivated
    simp only [Function.update_apply]
    split
    · exact .inl rfl
    · exact h.submitted b' hC

/-- The commit of a failure, or of a block whose commit may be submitted. -/
theorem commitFile (h : Safe n f H C) {b : Nat} {success : Bool} (renamed : Bool)
    (hc : success = true → C b) : Safe n (f.commitFile b success renamed) H C := by
  unfold Files.commitFile
  split
  · exact h
  next ino hino =>
  split
  · next hboth =>
    simp only [Bool.and_eq_true] at hboth
    have hs := h.removeActivated b
    refine ⟨fun b' ino' hb => ?_, hs.held, hs.submitted⟩
    simp only [Function.update_apply] at hb
    split at hb
    · obtain rfl := Option.some.inj hb
      rcases h.submitted b (hc hboth.1) with hnone | ⟨ino', hsome, hcomp⟩
      · rw [hino] at hnone
        cases hnone
      · rw [hino] at hsome
        rw [Option.some.inj hsome]
        exact hcomp
    · exact h.visible b' ino' hb
  · exact h.removeActivated b

theorem removeFile (h : Safe n f H C) (b : Nat) : Safe n (f.removeFile b) H C := by
  refine ⟨fun b' ino hb => ?_, h.held, h.submitted⟩
  unfold Files.removeFile at hb
  simp only [Function.update_apply] at hb
  split at hb
  · cases hb
  · exact h.visible b' ino hb

end Safe

end UnifiedCache.Posix
