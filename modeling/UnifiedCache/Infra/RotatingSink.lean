/-
  UnifiedCache.Infra.RotatingSink — the rotating log file
  (ucm/shared/infra/logger/cc/compress_rotate_file_sink.h).

  A message that would take the file over its maximum size first renames the file to a name with
  the time in it, which is tracked, then removes the oldest compressed files beyond `max_files`,
  reopens the log file, truncated, and compresses the renamed one to `<target>.gz`.

  `sink_it_` runs under the sink's mutex, so the calls are a sequence. Left open, for each call, are
  the target's name, whether the log file is still there to be renamed, and how renaming,
  removing and compressing end; between calls compressed files go from outside. Opening and
  writing the log file itself succeed. A file that goes while `sink_it_` runs is one that is gone
  before (if its turn has not come) or whose removal fails.

  The loop that removes goes round without a change when the oldest tracked file has no `.gz`
  (`prune_stuck`).
  - `Sink.Inv`: between calls at most `max_files` files are tracked, so a call removes at most one.
  - `log_call_iff`: in every reachable state a call ends and keeps its promises iff it has no file
    to remove, or the oldest tracked one has its `.gz`.
  - `no_files_never_ends`: with `max_files` 0 nothing is compressed, and the first rotation does
    not end.
-/

import UnifiedCache.Base.Transition

namespace UnifiedCache.Infra

open UnifiedCache.Base

abbrev LogBytes := List UInt8

/-- How `compress_` ends, for a source it can be given. -/
inductive Compression where
  | done
  /-- The source cannot be opened. -/
  | noSource
  /-- `gzopen` fails. -/
  | noDestination
  /-- `gzwrite` fails. -/
  | writeError
  deriving DecidableEq, Repr

/-- What the file operations of one call come to. -/
structure FileOps (Name : Type) where
  /-- The name made from the time. -/
  target : Name
  /-- `path_exists(current_file)`. -/
  basePresent : Bool
  renameOk : Bool
  /-- Whether the removal of a compressed file has an effect. -/
  removeOk : Name → Bool
  compression : Compression

/-- Whether `sink_it_` returned, having written its message, or threw. -/
inductive Logged where
  | written
  | threw
  deriving DecidableEq, Repr

structure Sink (Name : Type) where
  opened : Bool
  rotateOnOpen : Bool
  maxSize : Nat
  maxFiles : Nat
  currentSize : Nat
  /-- `file_helper_` has the log file open. -/
  fileOpen : Bool
  /-- The log file's contents. -/
  file : LogBytes
  compressedFiles : List Name
  /-- Which targets have a `.gz` on disk. -/
  gz : Name → Bool

namespace Sink

def maxMaxFiles : Nat := 200000

/-- The sink as constructed, over any log file and compressed files left by others. -/
structure IsInit {Name : Type} (s : Sink Name) : Prop where
  opened : s.opened = false
  maxSize : s.maxSize ≠ 0
  maxFiles : s.maxFiles ≤ maxMaxFiles
  currentSize : s.currentSize = 0
  fileOpen : s.fileOpen = false
  compressedFiles : s.compressedFiles = []

variable {Name : Type} [DecidableEq Name]

/-- The loop that removes the oldest compressed files. -/
def prune (o : FileOps Name) : Nat → Sink Name → Option (Sink Name)
  | 0, _ => none
  | fuel + 1, s =>
    if s.compressedFiles.length > s.maxFiles then
      match s.compressedFiles with
      | [] => none
      | front :: rest =>
        if s.gz front then
          prune o fuel { s with
            gz := if o.removeOk front then Function.update s.gz front false else s.gz
            compressedFiles := rest }
        else prune o fuel s
    else some s

/-- `file_helper_.reopen(true)`. -/
def reopen (s : Sink Name) : Sink Name := { s with fileOpen := true, file := [] }

/-- `rotate_`: the source to compress, or `none` of it if it throws. -/
def rotate (fuel : Nat) (o : FileOps Name) (s : Sink Name) : Option (Sink Name × Option (Option Name)) :=
  let s := { s with fileOpen := false }
  if o.basePresent then
    if !o.renameOk then some ({ s.reopen with currentSize := 0 }, none)
    else (prune o fuel { s with compressedFiles := s.compressedFiles ++ [o.target] }).map fun s =>
      (s.reopen, some (some o.target))
  else (prune o fuel s).map fun s => (s.reopen, some none)

/-- `compress_`; a source without a name cannot be opened. `false` if it throws. -/
def compress (o : FileOps Name) (s : Sink Name) (src : Option Name) : Sink Name × Bool :=
  if s.maxFiles = 0 then (s, true)
  else
    match src with
    | none => (s, false)
    | some src =>
      match o.compression with
      | .done => ({ s with gz := Function.update s.gz src true }, true)
      | .noSource => (s, false)
      | .noDestination => (s, false)
      | .writeError => ({ s with gz := Function.update s.gz src true }, false)

/-- `rotate_`, then `compress_`; `false` if either throws. -/
def rotateAndCompress (fuel : Nat) (o : FileOps Name) (s : Sink Name) : Option (Sink Name × Bool) :=
  (s.rotate fuel o).map fun (s, src) =>
    match src with
    | none => (s, false)
    | some src => s.compress o src

/-- `open_`; `false` if it throws. -/
def open_ (fuel : Nat) (o : FileOps Name) (s : Sink Name) : Option (Sink Name × Bool) :=
  let s := { s with fileOpen := true, currentSize := s.file.length }
  if s.rotateOnOpen ∧ s.currentSize > 0 then
    (s.rotateAndCompress fuel o).map fun (s, ok) =>
      if ok then ({ s with currentSize := 0, opened := true }, true) else (s, false)
  else some ({ s with opened := true }, true)

/-- `file_helper_.write`, and the new size. -/
def write (s : Sink Name) (formatted : LogBytes) (newSize : Nat) : Sink Name :=
  { s with file := s.file ++ formatted, currentSize := newSize }

/-- `sink_it_` of an opened sink. -/
def sinkOpened (fuel : Nat) (o : FileOps Name) (formatted : LogBytes) (s : Sink Name) : Option (Sink Name × Logged) :=
  let newSize := s.currentSize + formatted.length
  if newSize > s.maxSize ∧ s.file.length > 0 then
    (s.rotateAndCompress fuel o).map fun (s, ok) =>
      if ok then (s.write formatted formatted.length, .written) else (s, .threw)
  else some (s.write formatted newSize, .written)

/-- `sink_it_`. -/
def sinkIt (fuel : Nat) (o : FileOps Name) (formatted : LogBytes) (s : Sink Name) : Option (Sink Name × Logged) :=
  if !s.opened then
    (s.open_ fuel o).bind fun (s, ok) => if ok then s.sinkOpened fuel o formatted else some (s, .threw)
  else s.sinkOpened fuel o formatted

end Sink

/-- What happens to the sink and its files. -/
inductive SinkLabel (Name : Type) where
  | log (formatted : LogBytes) (o : FileOps Name)
  /-- A compressed file is deleted from outside. -/
  | deleted (target : Name)

namespace Sink

variable {Name : Type} [DecidableEq Name]

/-- A call that does not end has no state after it. The loop takes at most a round for each
    tracked file, with the new one, and one to leave. -/
def step (s : Sink Name) : SinkLabel Name → Option (Sink Name)
  | .log formatted o => (s.sinkIt (s.compressedFiles.length + 2) o formatted).map (·.1)
  | .deleted target => some { s with gz := Function.update s.gz target false }

def sink (Name : Type) [DecidableEq Name] : System (Sink Name) (SinkLabel Name) where
  init := IsInit
  step := step

/-! ## The loop -/

variable {s s' : Sink Name} {o : FileOps Name} {fuel : Nat}

theorem prune_done (h : s.compressedFiles.length ≤ s.maxFiles) : s.prune o (fuel + 1) = some s := by
  unfold prune
  rw [if_neg (by omega)]

theorem prune_front {front : Name} {rest : List Name} (hfiles : s.compressedFiles = front :: rest)
    (hlen : rest.length = s.maxFiles) (hgz : s.gz front = true) :
    s.prune o (fuel + 2) = some { s with
      gz := if o.removeOk front then Function.update s.gz front false else s.gz
      compressedFiles := rest } := by
  have hlong : s.compressedFiles.length > s.maxFiles := by
    rw [hfiles, List.length_cons]
    omega
  rw [prune, if_pos hlong]
  simp only [hfiles, hgz, if_true]
  exact prune_done (Nat.le_of_eq hlen)

/-- Without the `.gz` of the oldest file a round changes nothing. -/
theorem prune_stuck {front : Name} {rest : List Name} (hfiles : s.compressedFiles = front :: rest)
    (hlen : rest.length = s.maxFiles) (hgz : s.gz front = false) : s.prune o fuel = none := by
  induction fuel with
  | zero => rfl
  | succ fuel ih =>
    have hlong : s.compressedFiles.length > s.maxFiles := by
      rw [hfiles, List.length_cons]
      omega
    rw [prune, if_pos hlong]
    simp only [hfiles, hgz, Bool.false_eq_true, if_false]
    exact ih

/-! ## A call -/

/-- What holds between calls. -/
structure Inv (s : Sink Name) : Prop where
  tracked : s.compressedFiles.length ≤ s.maxFiles
  fileOpen : s.opened = true → s.fileOpen = true

/-- The oldest file that would be tracked has its `.gz`, if one is to be removed. -/
def OldestThere (s : Sink Name) (o : FileOps Name) : Prop :=
  o.basePresent = true → o.renameOk = true → s.compressedFiles.length = s.maxFiles →
    ∀ front ∈ (s.compressedFiles ++ [o.target]).head?, s.gz front = true

/-- The log file is renamed, and compressed. -/
def Succeeds (o : FileOps Name) : Prop := o.basePresent = true ∧ o.renameOk = true ∧ o.compression = .done

theorem compress_spec (o : FileOps Name) (s : Sink Name) (src : Option Name) :
    (s.compress o src).1 = { s with gz := (s.compress o src).1.gz } ∧
      (Succeeds o → src = some o.target → (s.compress o src).2 = true) := by
  unfold compress
  by_cases hzero : s.maxFiles = 0
  · rw [if_pos hzero]
    exact ⟨rfl, fun _ _ => rfl⟩
  · rw [if_neg hzero]
    cases src with
    | none => exact ⟨rfl, nofun⟩
    | some src =>
      cases hc : o.compression with
      | done => exact ⟨rfl, fun _ _ => rfl⟩
      | noSource => exact ⟨rfl, fun h => by rw [h.2.2] at hc; cases hc⟩
      | noDestination => exact ⟨rfl, fun h => by rw [h.2.2] at hc; cases hc⟩
      | writeError => exact ⟨rfl, fun h => by rw [h.2.2] at hc; cases hc⟩

/-- What a rotation leaves, whether it throws or not. -/
structure Rotated (s s' : Sink Name) : Prop where
  tracked : s'.compressedFiles.length ≤ s'.maxFiles
  opened : s'.opened = s.opened
  fileOpen : s'.fileOpen = true
  file : s'.file = []

omit [DecidableEq Name] in
theorem head?_append_singleton (l : List Name) (x : Name) : ∃ front rest, l ++ [x] = front :: rest ∧ rest.length = l.length := by
  cases l with
  | nil => exact ⟨x, [], rfl, rfl⟩
  | cons front rest => exact ⟨front, rest ++ [x], rfl, by simp⟩

theorem rotate_ends (hs : s.compressedFiles.length ≤ s.maxFiles) (hold : s.OldestThere o) :
    ∃ s' src, (∀ fuel, s.rotate (fuel + 2) o = some (s', src)) ∧ s.Rotated s' ∧ (Succeeds o → src = some (some o.target)) := by
  cases hbase : o.basePresent with
  | false =>
    let s₁ : Sink Name := { s with fileOpen := false }
    refine ⟨s₁.reopen, some none, fun fuel => ?_, ⟨hs, rfl, rfl, rfl⟩, fun h => ?_⟩
    · have hprune : s₁.prune o (fuel + 2) = some s₁ := prune_done hs
      simp only [rotate, hbase, Bool.false_eq_true, if_false]
      rw [hprune]
      rfl
    · rw [h.1] at hbase
      cases hbase
  | true =>
    cases hrename : o.renameOk with
    | false =>
      refine ⟨{ s.reopen with currentSize := 0 }, none, fun fuel => ?_, ⟨hs, rfl, rfl, rfl⟩, fun h => ?_⟩
      · simp only [rotate, hbase, hrename, Bool.not_false, if_true]
        rfl
      · rw [h.2.1] at hrename
        cases hrename
    | true =>
      let s₁ : Sink Name := { s with fileOpen := false, compressedFiles := s.compressedFiles ++ [o.target] }
      have hrotate : ∀ fuel, s.rotate (fuel + 2) o = (s₁.prune o (fuel + 2)).map fun s => (s.reopen, some (some o.target)) := by
        intro fuel
        simp only [rotate, hbase, hrename, if_true, Bool.not_true, Bool.false_eq_true, if_false]
        rfl
      by_cases hfull : s.compressedFiles.length = s.maxFiles
      · obtain ⟨front, rest, hfiles, hrest⟩ := head?_append_singleton s.compressedFiles o.target
        have hgz : s₁.gz front = true := hold hbase hrename hfull front (by rw [hfiles]; rfl)
        have hlen : rest.length = s₁.maxFiles := hrest.trans hfull
        let s₂ : Sink Name := { s₁ with
          gz := if o.removeOk front then Function.update s₁.gz front false else s₁.gz
          compressedFiles := rest }
        refine ⟨s₂.reopen, some (some o.target), fun fuel => ?_, ⟨Nat.le_of_eq hlen, rfl, rfl, rfl⟩, fun _ => rfl⟩
        rw [hrotate, prune_front hfiles hlen hgz]
        rfl
      · have hroom : s₁.compressedFiles.length ≤ s₁.maxFiles := by
          show (s.compressedFiles ++ [o.target]).length ≤ s.maxFiles
          rw [List.length_append, List.length_singleton]
          omega
        refine ⟨s₁.reopen, some (some o.target), fun fuel => ?_, ⟨hroom, rfl, rfl, rfl⟩, fun _ => rfl⟩
        rw [hrotate, prune_done hroom]
        rfl

theorem rotate_stuck (hold : ¬ s.OldestThere o) : s.rotate fuel o = none := by
  unfold OldestThere at hold
  simp only [Classical.not_imp, not_forall] at hold
  obtain ⟨hbase, hrename, hfull, front, hfront, hgz⟩ := hold
  obtain ⟨front', rest, hfiles, hrest⟩ := head?_append_singleton s.compressedFiles o.target
  rw [hfiles] at hfront
  obtain rfl : front' = front := Option.some.inj hfront
  let s₁ : Sink Name := { s with fileOpen := false, compressedFiles := s.compressedFiles ++ [o.target] }
  have hprune : s₁.prune o fuel = none := prune_stuck hfiles (hrest.trans hfull) (Bool.eq_false_iff.mpr hgz)
  simp only [rotate, hbase, hrename, if_true, Bool.not_true, Bool.false_eq_true, if_false]
  rw [hprune]
  rfl

theorem rotateAndCompress_ends (hs : s.compressedFiles.length ≤ s.maxFiles) (hold : s.OldestThere o) :
    ∃ s' ok, (∀ fuel, s.rotateAndCompress (fuel + 2) o = some (s', ok)) ∧ s.Rotated s' ∧ (Succeeds o → ok = true) := by
  obtain ⟨s₁, src, hrun, hrot, hsrc⟩ := rotate_ends hs hold
  cases src with
  | none =>
    refine ⟨s₁, false, fun fuel => ?_, hrot, fun h => nomatch hsrc h⟩
    rw [rotateAndCompress, hrun]
    rfl
  | some src =>
    obtain ⟨hsame, hok⟩ := compress_spec o s₁ src
    refine ⟨(s₁.compress o src).1, (s₁.compress o src).2, fun fuel => ?_, ?_, fun h => ?_⟩
    · rw [rotateAndCompress, hrun]
      rfl
    · rw [hsame]
      exact ⟨hrot.tracked, hrot.opened, hrot.fileOpen, hrot.file⟩
    · exact hok h (Option.some.inj (hsrc h))

theorem rotateAndCompress_stuck (hold : ¬ s.OldestThere o) : s.rotateAndCompress fuel o = none := by
  rw [rotateAndCompress, rotate_stuck hold]
  rfl

/-- The call rotates the log file. -/
def Rotates (s : Sink Name) (formatted : LogBytes) : Prop :=
  s.file.length > 0 ∧ ((s.opened = false ∧ s.rotateOnOpen = true) ∨
    (if s.opened then s.currentSize else s.file.length) + formatted.length > s.maxSize)

/-- What a call that ends comes to. -/
structure Ends (s : Sink Name) (formatted : LogBytes) (o : FileOps Name) (s' : Sink Name) (r : Logged) : Prop where
  inv : s'.Inv
  written : r = .written → ∃ earlier, s'.file = earlier ++ formatted
  threw : r = .threw → s.Rotates formatted ∧ ¬ Succeeds o

theorem sinkOpened_ends {formatted : LogBytes} (hs : s.Inv) (hopened : s.opened = true)
    (hold : s.Rotates formatted → s.OldestThere o) :
    ∃ s' r, (∀ fuel, s.sinkOpened (fuel + 2) o formatted = some (s', r)) ∧ s.Ends formatted o s' r := by
  by_cases hrot : s.currentSize + formatted.length > s.maxSize ∧ s.file.length > 0
  · have hrotates : s.Rotates formatted := by
      refine ⟨hrot.2, .inr ?_⟩
      rw [hopened]
      exact hrot.1
    obtain ⟨s₁, ok, hrun, hafter, hok⟩ := rotateAndCompress_ends hs.tracked (hold hrotates)
    cases ok with
    | true =>
      refine ⟨s₁.write formatted formatted.length, .written, fun fuel => ?_, ⟨hafter.tracked, fun _ => hafter.fileOpen⟩,
        fun _ => ⟨s₁.file, rfl⟩, nofun⟩
      simp only [sinkOpened, if_pos hrot, hrun]
      rfl
    | false =>
      refine ⟨s₁, .threw, fun fuel => ?_, ⟨hafter.tracked, fun _ => hafter.fileOpen⟩, nofun,
        fun _ => ⟨hrotates, fun h => Bool.false_ne_true (hok h)⟩⟩
      simp only [sinkOpened, if_pos hrot, hrun]
      rfl
  · refine ⟨s.write formatted (s.currentSize + formatted.length), .written, fun fuel => ?_,
      ⟨hs.tracked, hs.fileOpen⟩, fun _ => ⟨s.file, rfl⟩, nofun⟩
    simp only [sinkOpened, if_neg hrot]

theorem sinkOpened_stuck {formatted : LogBytes} (hopened : s.opened = true) (hrot : s.Rotates formatted)
    (hold : ¬ s.OldestThere o) : s.sinkOpened fuel o formatted = none := by
  have hbranch : s.currentSize + formatted.length > s.maxSize ∧ s.file.length > 0 := by
    refine ⟨?_, hrot.1⟩
    rcases hrot.2 with ⟨hno, _⟩ | hbig
    · rw [hopened] at hno
      cases hno
    · rw [hopened] at hbig
      exact hbig
  simp only [sinkOpened, if_pos hbranch, rotateAndCompress_stuck hold]
  rfl

/-- The sink that `open_` opens, when it does not rotate. -/
def openedSink (s : Sink Name) : Sink Name := { s with fileOpen := true, currentSize := s.file.length, opened := true }

omit [DecidableEq Name] in
theorem openedSink_rotates {formatted : LogBytes} (hopened : s.opened = false) :
    s.openedSink.Rotates formatted → s.Rotates formatted := by
  rintro ⟨hfile, hsize⟩
  refine ⟨hfile, .inr ?_⟩
  rw [hopened]
  rcases hsize with ⟨hno, _⟩ | hbig
  · cases hno
  · exact hbig

theorem sinkIt_ends {formatted : LogBytes} (hs : s.Inv) (hold : s.Rotates formatted → s.OldestThere o) :
    ∃ s' r, (∀ fuel, s.sinkIt (fuel + 2) o formatted = some (s', r)) ∧ s.Ends formatted o s' r := by
  cases hopened : s.opened with
  | true =>
    obtain ⟨s', r, hrun, hends⟩ := sinkOpened_ends hs hopened hold
    refine ⟨s', r, fun fuel => ?_, hends⟩
    simp only [sinkIt, hopened, Bool.not_true, Bool.false_eq_true, if_false]
    exact hrun fuel
  | false =>
    let s₀ : Sink Name := { s with fileOpen := true, currentSize := s.file.length }
    by_cases hopen : s.rotateOnOpen = true ∧ s.file.length > 0
    · have hrotates : s.Rotates formatted := ⟨hopen.2, .inl ⟨hopened, hopen.1⟩⟩
      have hold₀ : s₀.OldestThere o := hold hrotates
      obtain ⟨s₁, ok, hrun, hafter, hok⟩ := rotateAndCompress_ends (s := s₀) hs.tracked hold₀
      have hopen_ : ∀ fuel, s.open_ (fuel + 2) o =
          some (if ok then ({ s₁ with currentSize := 0, opened := true }, true) else (s₁, false)) := by
        intro fuel
        have hif : s.rotateOnOpen = true ∧ s₀.currentSize > 0 := hopen
        simp only [open_]
        rw [if_pos hif, hrun]
        rfl
      cases ok with
      | true =>
        -- the log file is empty now, so the message does not rotate it again
        let s₂ : Sink Name := { s₁ with currentSize := 0, opened := true }
        have hinv₂ : s₂.Inv := ⟨hafter.tracked, fun _ => hafter.fileOpen⟩
        have hno : ¬ s₂.Rotates formatted := by
          intro h
          have hempty : s₂.file.length = 0 := by
            show s₁.file.length = 0
            rw [hafter.file]
            rfl
          have hpos := h.1
          omega
        obtain ⟨s', r, hrun', hends⟩ := sinkOpened_ends (o := o) hinv₂ rfl fun h => absurd h hno
        refine ⟨s', r, fun fuel => ?_, hends.inv, hends.written, fun h => absurd (hends.threw h).1 hno⟩
        simp only [sinkIt, hopened, Bool.not_false, if_true, hopen_]
        exact hrun' fuel
      | false =>
        refine ⟨s₁, .threw, fun fuel => ?_, ⟨hafter.tracked, fun _ => hafter.fileOpen⟩, nofun,
          fun _ => ⟨hrotates, fun h => Bool.false_ne_true (hok h)⟩⟩
        simp only [sinkIt, hopened, Bool.not_false, if_true, hopen_]
        rfl
    · have hopen_ : ∀ fuel, s.open_ fuel o = some (s.openedSink, true) := by
        intro fuel
        have hif : ¬ (s.rotateOnOpen = true ∧ s₀.currentSize > 0) := hopen
        simp only [open_]
        rw [if_neg hif]
        rfl
      have hinv : s.openedSink.Inv := ⟨hs.tracked, fun _ => rfl⟩
      obtain ⟨s', r, hrun, hends⟩ := sinkOpened_ends (o := o) hinv rfl fun h => hold (openedSink_rotates hopened h)
      refine ⟨s', r, fun fuel => ?_, hends.inv, hends.written, fun h => ?_⟩
      · simp only [sinkIt, hopened, Bool.not_false, if_true, hopen_]
        exact hrun fuel
      · obtain ⟨hrot, hno⟩ := hends.threw h
        exact ⟨openedSink_rotates hopened hrot, hno⟩

theorem sinkIt_stuck {formatted : LogBytes} (hrot : s.Rotates formatted) (hold : ¬ s.OldestThere o) :
    s.sinkIt fuel o formatted = none := by
  cases hopened : s.opened with
  | true =>
    simp only [sinkIt, hopened, Bool.not_true, Bool.false_eq_true, if_false]
    exact sinkOpened_stuck hopened hrot hold
  | false =>
    let s₀ : Sink Name := { s with fileOpen := true, currentSize := s.file.length }
    by_cases hopen : s.rotateOnOpen = true ∧ s.file.length > 0
    · have hif : s.rotateOnOpen = true ∧ s₀.currentSize > 0 := hopen
      have hrun : s₀.rotateAndCompress fuel o = none := rotateAndCompress_stuck hold
      have hopen_ : s.open_ fuel o = none := by
        simp only [open_]
        rw [if_pos hif, hrun]
        rfl
      simp only [sinkIt, hopened, Bool.not_false, if_true, hopen_]
      rfl
    · have hopen_ : s.open_ fuel o = some (s.openedSink, true) := by
        have hif : ¬ (s.rotateOnOpen = true ∧ s₀.currentSize > 0) := hopen
        simp only [open_]
        rw [if_neg hif]
        rfl
      have hrot₀ : s.openedSink.Rotates formatted := by
        refine ⟨hrot.1, .inr ?_⟩
        rcases hrot.2 with ⟨_, hon⟩ | hbig
        · exact absurd ⟨hon, hrot.1⟩ hopen
        · rw [hopened] at hbig
          exact hbig
      simp only [sinkIt, hopened, Bool.not_false, if_true, hopen_]
      exact sinkOpened_stuck rfl hrot₀ hold

/-! ## Runs -/

theorem reach_inv (h : Reach (sink Name) Any s) : s.Inv := by
  refine h.inv (I := Inv) (fun s₀ hinit => ?_) fun s₁ a s₂ hi _ hs => ?_
  · refine ⟨?_, fun hopened => ?_⟩
    · rw [hinit.compressedFiles]
      exact Nat.zero_le _
    · rw [hinit.opened] at hopened
      cases hopened
  · cases a with
    | deleted target =>
      obtain rfl := Option.some.inj hs
      exact ⟨hi.tracked, hi.fileOpen⟩
    | log formatted o =>
      by_cases hold : s₁.Rotates formatted → s₁.OldestThere o
      · obtain ⟨s', r, hrun, hends⟩ := sinkIt_ends hi hold
        have hstep : (sink Name).step s₁ (.log formatted o) = some s' := by
          show (s₁.sinkIt (s₁.compressedFiles.length + 2) o formatted).map (·.1) = some s'
          rw [hrun]
          rfl
        rw [hstep] at hs
        obtain rfl := Option.some.inj hs
        exact hends.inv
      · obtain ⟨hrot, hno⟩ := Classical.not_imp.mp hold
        have hstep : (sink Name).step s₁ (.log formatted o) = none := by
          show (s₁.sinkIt (s₁.compressedFiles.length + 2) o formatted).map (·.1) = none
          rw [sinkIt_stuck hrot hno]
          rfl
        rw [hstep] at hs
        cases hs

/-- The promises of a call: it ends, after two rounds of the removing loop at most, with at most
    `max_files` files tracked; it writes its message or throws, the latter only where its own
    rotation fails; and from any state after it a message whose own rotation succeeds, and has
    its oldest file in place, is written. -/
def CallOk (s : Sink Name) (formatted : LogBytes) (o : FileOps Name) : Prop :=
  ∃ s' r, (∀ fuel, s.sinkIt (fuel + 2) o formatted = some (s', r)) ∧
    s'.compressedFiles.length ≤ s'.maxFiles ∧
    (r = .written → ∃ earlier, s'.file = earlier ++ formatted) ∧
    (r = .threw → s.Rotates formatted ∧ ¬ Succeeds o) ∧
    ∀ s₁, Reach ((sink Name).startAt s') Any s₁ → ∀ formatted' o', Succeeds o' →
      (s₁.Rotates formatted' → s₁.OldestThere o') →
        ∃ s₂ earlier, (∀ fuel, s₁.sinkIt (fuel + 2) o' formatted' = some (s₂, .written)) ∧ s₂.file = earlier ++ formatted'

/-- In every reachable state, a call keeps its promises iff it does not rotate or the oldest
    tracked file, if one is to be removed, has its `.gz`; otherwise the loop does not end. -/
theorem log_call_iff (h : Reach (sink Name) Any s) (formatted : LogBytes) (o : FileOps Name) :
    (s.CallOk formatted o ↔ (s.Rotates formatted → s.OldestThere o)) ∧
    (¬ (s.Rotates formatted → s.OldestThere o) → ∀ fuel, s.sinkIt fuel o formatted = none) := by
  have hi := reach_inv h
  refine ⟨⟨fun hok hrot => ?_, fun hold => ?_⟩, fun hno fuel => ?_⟩
  · by_contra hno
    obtain ⟨s', r, hrun, _⟩ := hok
    have hstuck : s.sinkIt (0 + 2) o formatted = none := sinkIt_stuck hrot hno
    rw [hrun 0] at hstuck
    cases hstuck
  · obtain ⟨s', r, hrun, hends⟩ := sinkIt_ends hi hold
    have hreach : Reach (sink Name) Any s' := by
      refine .step (.log formatted o) h trivial ?_
      show (s.sinkIt (s.compressedFiles.length + 2) o formatted).map (·.1) = some s'
      rw [hrun]
      rfl
    refine ⟨s', r, hrun, hends.inv.tracked, hends.written, hends.threw, fun s₁ hreach₁ formatted' o' hsucc hold' => ?_⟩
    obtain ⟨s₂, r₂, hrun₂, hends₂⟩ := sinkIt_ends (reach_inv (hreach.startAt hreach₁)) hold'
    cases r₂ with
    | written =>
      obtain ⟨earlier, hfile⟩ := hends₂.written rfl
      exact ⟨s₂, earlier, hrun₂, hfile⟩
    | threw => exact absurd hsucc (hends₂.threw rfl).2
  · obtain ⟨hrot, hgone⟩ := Classical.not_imp.mp hno
    exact sinkIt_stuck hrot hgone

/-- No compressed file is kept, so none is made, and the renamed file is waited for. -/
theorem no_files_never_ends {formatted : LogBytes} (hzero : s.maxFiles = 0) (hs : s.Inv) (hrot : s.Rotates formatted)
    (hbase : o.basePresent = true) (hrename : o.renameOk = true) (hgz : s.gz o.target = false) :
    s.sinkIt fuel o formatted = none := by
  have hnil : s.compressedFiles = [] := by
    have hle := hs.tracked
    rw [hzero] at hle
    exact List.length_eq_zero_iff.mp (Nat.le_zero.mp hle)
  refine sinkIt_stuck hrot fun hold => ?_
  have hlen : s.compressedFiles.length = s.maxFiles := by
    rw [hnil, hzero]
    rfl
  have hthere := hold hbase hrename hlen o.target (by rw [hnil]; rfl)
  rw [hgz] at hthere
  cases hthere

/-- Every operation succeeds; targets are numbered. -/
def allWell (target : Nat) : FileOps Nat := ⟨target, true, true, fun _ => true, .done⟩

/-- A new sink of 4 bytes over an empty directory. -/
def newSink (maxFiles : Nat) : Sink Nat := ⟨false, false, 4, maxFiles, 0, false, [], [], fun _ => false⟩

theorem newSink_init {maxFiles : Nat} (h : maxFiles ≤ maxMaxFiles) : (newSink maxFiles).IsInit := by
  refine ⟨rfl, ?_, h, rfl, rfl, rfl⟩
  show 4 ≠ 0
  omega

/-- The second message of a sink that keeps no files never returns. -/
theorem second_message_hangs : ∃ s : Sink Nat, Reach (sink Nat) Any s ∧
    ∀ fuel, s.sinkIt fuel (allWell 1) [5, 6] = none := by
  obtain ⟨s, hreach, hp⟩ := exists_of_replay (S := sink Nat)
    (p := fun s => s.opened && s.maxFiles == 0 && s.maxSize == 4 && s.currentSize == 3 && s.file.length == 3 && !s.gz 1)
    [.log [1, 2, 3] (allWell 0)] (newSink_init (Nat.zero_le _)) (by decide)
  simp only [Bool.and_eq_true, beq_iff_eq, Bool.not_eq_true'] at hp
  obtain ⟨⟨⟨⟨⟨hopened, hzero⟩, hmax⟩, hcurrent⟩, hfile⟩, hgz⟩ := hp
  refine ⟨s, hreach, fun fuel => no_files_never_ends hzero (reach_inv hreach) ⟨by omega, .inr ?_⟩ rfl rfl hgz⟩
  rw [hopened, hcurrent, hmax]
  show 3 + 2 > 4
  omega

/-- With one file to keep, the third message rotates, removes the file of the second one's rotation, and is written. -/
theorem third_message_kept : ∃ s : Sink Nat, Reach (sink Nat) Any s ∧ s.Rotates [7, 8, 9] ∧ s.compressedFiles = [1] ∧
    s.maxFiles = 1 ∧
    s.CallOk [7, 8, 9] (allWell 2) := by
  obtain ⟨s, hreach, hp⟩ := exists_of_replay (S := sink Nat)
    (p := fun s => s.opened && s.maxFiles == 1 && s.maxSize == 4 && s.currentSize == 2 && s.file.length == 2 &&
      s.compressedFiles == [1] && s.gz 1)
    [.log [1, 2, 3] (allWell 0), .log [5, 6] (allWell 1)] (newSink_init (by decide : 1 ≤ maxMaxFiles)) (by decide)
  simp only [Bool.and_eq_true, beq_iff_eq] at hp
  obtain ⟨⟨⟨⟨⟨⟨hopened, hone⟩, hmax⟩, hcurrent⟩, hfile⟩, hfiles⟩, hgz⟩ := hp
  have hrot : s.Rotates [7, 8, 9] := by
    refine ⟨by omega, .inr ?_⟩
    rw [hopened, hcurrent, hmax]
    show 2 + 3 > 4
    omega
  refine ⟨s, hreach, hrot, hfiles, hone, (log_call_iff hreach [7, 8, 9] (allWell 2)).1.mpr fun _ _ _ _ front hfront => ?_⟩
  rw [hfiles] at hfront
  obtain rfl : 1 = front := Option.some.inj hfront
  exact hgz

end Sink

end UnifiedCache.Infra
