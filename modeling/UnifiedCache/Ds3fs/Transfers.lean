/-
  UnifiedCache.Ds3fs.Transfers — what a unit that succeeded has transferred
  (see `UnifiedCache.Ds3fs.Worker`).

  A unit believes the first completion that its ring hands out, whatever it moved. That it is its
  own, of all bytes, holds in the runs within `Clean`: an I/O that does not fail moves all its
  bytes; a unit starts its transfer with nothing of earlier units in its ring and nothing of them
  in flight in the other; and the last shard of a block, which commits it, comes to a file that
  has the others (`reach_transferInv`).

  A file that is archived, or that a load has opened, is not written any more (`Frozen`), which is
  why what a load has got is what the file has.
-/

import UnifiedCache.Ds3fs.Counts

namespace UnifiedCache.Ds3fs

open UnifiedCache.Base UnifiedCache.Detail

variable {Byte : Type} {C : Config} {s s' : Worker Byte} {l : WorkerLabel Byte}

/-! ## The files and the ring of the writes -/

def Ring.open_ (r : Ring) : List Io := r.prepared ++ r.inflight

/-- No dump has the file, and none will write to it. -/
structure Frozen (f : Files Byte) (write : Ring) (ino : Nat) : Prop where
  lt : ino < f.nextIno
  inactive : ∀ b, f.activated b ≠ some ino
  idle : ∀ io ∈ write.open_, io.ino ≠ ino

/-- The names lead to files of their own, the archived ones complete. -/
structure Named (C : Config) (f : Files Byte) (write : Ring) : Prop where
  archived : ∀ b ino, f.archived b = some ino → Frozen f write ino ∧ f.block ino = b ∧ HasBlock C f ino
  activated : ∀ b ino, f.activated b = some ino → ino < f.nextIno ∧ f.block ino = b
  writes : ∀ io ∈ write.open_, io.ino < f.nextIno

/-- What a step leaves of the files, and adds to the ring of the writes. -/
structure Kept (f : Files Byte) (write : Ring) (f' : Files Byte) (write' : Ring) : Prop where
  nextIno : f.nextIno ≤ f'.nextIno
  activated : ∀ b ino, f'.activated b = some ino → f.activated b = some ino ∨ f.nextIno ≤ ino
  writes : ∀ io ∈ write'.open_, io ∈ write.open_ ∨ ∃ b, f.activated b = some io.ino
  content : ∀ ino, (∀ io ∈ write.open_, io.ino ≠ ino) → f'.content ino = f.content ino
  written : ∀ ino o, (f.content ino o).isSome = true → (f'.content ino o).isSome = true
  block : ∀ ino, ino < f.nextIno → f'.block ino = f.block ino

section Kept

variable {f f' : Files Byte} {write write' : Ring} {ino : Nat}

theorem Kept.refl : Kept f write f write :=
  ⟨le_rfl, fun _ _ h => .inl h, fun _ h => .inl h, fun _ _ => rfl, fun _ _ h => h, fun _ _ => rfl⟩

theorem Frozen.kept (h : Frozen f write ino) (hk : Kept f write f' write') : Frozen f' write' ino := by
  refine ⟨lt_of_lt_of_le h.lt hk.nextIno, fun b hb => ?_, fun io hio e => ?_⟩
  · rcases hk.activated b ino hb with hb | hge
    · exact h.inactive b hb
    · exact absurd h.lt (by omega)
  · rcases hk.writes io hio with hio | ⟨b, hb⟩
    · exact h.idle io hio e
    · exact h.inactive b (e ▸ hb)

theorem HasBlock.kept (h : HasBlock C f ino) (hk : Kept f write f' write') : HasBlock C f' ino := by
  intro o ho
  exact hk.written ino o (h o ho)

/-- The names of the archived files are the same. -/
theorem Named.kept (h : Named C f write) (hk : Kept f write f' write') (ha : f'.archived = f.archived)
    (hact : ∀ b ino, f'.activated b = some ino → ino < f'.nextIno ∧ f'.block ino = b) : Named C f' write' := by
  refine ⟨fun b ino hb => ?_, hact, fun io hio => ?_⟩
  · rw [ha] at hb
    obtain ⟨hf, hblock, hall⟩ := h.archived b ino hb
    exact ⟨hf.kept hk, (hk.block ino hf.lt).trans hblock, hall.kept hk⟩
  · rcases hk.writes io hio with hio | ⟨b, hb⟩
    · exact lt_of_lt_of_le (h.writes io hio) hk.nextIno
    · exact lt_of_lt_of_le (h.activated b io.ino hb).1 hk.nextIno

theorem kept_ring (h : ∀ io ∈ write'.open_, io ∈ write.open_ ∨ ∃ b, f.activated b = some io.ino) : Kept f write f write' :=
  ⟨le_rfl, fun _ _ h => .inl h, h, fun _ _ => rfl, fun _ _ h => h, fun _ _ => rfl⟩

/-- Only the ring changes. -/
theorem Named.ring (h : Named C f write) (hk : Kept f write f write') : Named C f write' :=
  h.kept hk rfl h.activated

theorem kept_submitIos : Kept f write f write.submitIos := by
  refine kept_ring fun io hio => .inl ?_
  simp only [Ring.open_, Ring.submitIos, List.nil_append, List.mem_append] at hio ⊢
  exact hio.symm

theorem kept_prepIo {io : Io} (h : ∃ b, f.activated b = some io.ino) : Kept f write f (write.prepIo io) := by
  refine kept_ring fun io' hio => ?_
  simp only [Ring.open_, Ring.prepIo, List.mem_append, List.mem_singleton] at hio ⊢
  rcases hio with (hio | rfl) | hio
  · exact .inl (.inl hio)
  · exact .inr h
  · exact .inl (.inr hio)

end Kept

section Files

variable {f f' : Files Byte} {write : Ring} {b ino : Nat}

theorem openActivated_spec (hn : Named C f write) (h : f.openActivated b = (f', ino)) :
    Kept f write f' write ∧ Named C f' write ∧ f'.activated b = some ino := by
  unfold Files.openActivated at h
  split at h
  · next i hb =>
    obtain ⟨rfl, rfl⟩ := Prod.mk.inj h
    exact ⟨.refl, hn, hb⟩
  · obtain ⟨rfl, rfl⟩ := Prod.mk.inj h
    have hk : Kept f write
        { f with
          nextIno := f.nextIno + 1
          activated := Function.update f.activated b (some f.nextIno)
          block := Function.update f.block f.nextIno b } write := by
      refine ⟨Nat.le_succ _, fun b' ino hb => ?_, fun io hio => .inl hio, fun _ _ => rfl, fun _ _ h => h, fun ino hlt => ?_⟩
      · dsimp only at hb
        by_cases e : b' = b
        · subst e
          rw [Function.update_self, Option.some.injEq] at hb
          exact .inr hb.le
        · rw [Function.update_of_ne e] at hb
          exact .inl hb
      · exact Function.update_of_ne (by omega) ..
    refine ⟨hk, hn.kept hk rfl fun b' ino hb => ?_, Function.update_self ..⟩
    dsimp only at hb ⊢
    by_cases e : b' = b
    · subst e
      rw [Function.update_self, Option.some.injEq] at hb
      subst hb
      exact ⟨Nat.lt_succ_self _, Function.update_self ..⟩
    · rw [Function.update_of_ne e] at hb
      have := hn.activated b' ino hb
      rw [Function.update_of_ne (by omega)]
      exact ⟨by omega, this.2⟩

/-- A commit of a file that, where it is archived, has all bytes and no write left. -/
theorem commitFile_spec (hn : Named C f write) (b : Nat) (success renamed : Bool)
    (hall : ∀ ino, f.activated b = some ino → success = true → HasBlock C f ino ∧ ∀ io ∈ write.open_, io.ino ≠ ino) :
    Kept f write (f.commitFile b success renamed) write ∧ Named C (f.commitFile b success renamed) write := by
  unfold Files.commitFile
  split
  · exact ⟨.refl, hn⟩
  · next ino hino =>
    have hk : Kept f write { f with activated := Function.update f.activated b none } write := by
      refine ⟨le_rfl, fun b' ino hb => .inl ?_, fun io hio => .inl hio, fun _ _ => rfl, fun _ _ h => h, fun _ _ => rfl⟩
      dsimp only at hb
      by_cases e : b' = b
      · simp [e] at hb
      · rwa [Function.update_of_ne e] at hb
    have hact : ∀ b' ino, Function.update f.activated b none b' = some ino → b' ≠ b ∧ f.activated b' = some ino := by
      intro b' ino hb
      by_cases e : b' = b
      · simp [e] at hb
      · rw [Function.update_of_ne e] at hb
        exact ⟨e, hb⟩
    have hn' := hn.kept hk rfl fun b' ino hb => hn.activated b' ino (hact b' ino hb).2
    dsimp only
    split
    · next hs =>
      rw [Bool.and_eq_true] at hs
      obtain ⟨hblk, hidle⟩ := hall ino hino hs.1
      obtain ⟨hlt, hblock⟩ := hn.activated b ino hino
      refine ⟨⟨hk.nextIno, hk.activated, hk.writes, hk.content, hk.written, hk.block⟩, fun b' ino' hb => ?_,
        hn'.activated, hn'.writes⟩
      dsimp only at hb ⊢
      by_cases e : b' = b
      · subst e
        rw [Function.update_self, Option.some.injEq] at hb
        subst hb
        refine ⟨⟨hlt, fun b'' hb => ?_, hidle⟩, hblock, hblk⟩
        obtain ⟨hne, hb⟩ := hact b'' ino hb
        exact hne ((hn.activated b'' ino hb).2.symm.trans hblock)
      · rw [Function.update_of_ne e] at hb
        obtain ⟨hf, hrest⟩ := hn'.archived b' ino' hb
        exact ⟨⟨hf.lt, hf.inactive, hf.idle⟩, hrest⟩
    · exact ⟨hk, hn'⟩

/-- The first write in flight moves its bytes. -/
theorem kept_write {io : Io} {rest : List Io} (hi : write.inflight = io :: rest) (n : Nat) (src : Nat → Byte)
    (cqes : List (Io × Option Nat)) : Kept f write (f.write io.ino io.offset n src) { write with inflight := rest, cqes } := by
  have hmem : io ∈ write.open_ := by simp [Ring.open_, hi]
  refine ⟨le_rfl, fun _ _ h => .inl h, fun io' hio => .inl ?_, fun ino hino => ?_, fun ino o ho => ?_, fun _ _ => rfl⟩
  · simp only [Ring.open_, List.mem_append, hi, List.mem_cons] at hio ⊢
    rcases hio with hio | hio
    · exact .inl hio
    · exact .inr (.inr hio)
  · exact Function.update_of_ne (hino io hmem).symm ..
  · simp only [Files.write, Function.update_apply]
    split
    · next e =>
      subst e
      dsimp only
      split
      · rfl
      · exact ho
    · exact ho

end Files

/-! ## The unit that the worker has -/

/-- The unit has opened the file `ino`. -/
structure Held (f : Files Byte) (write : Ring) (x : IoUnit Byte) (target : Option Nat) (ino : Nat) : Prop where
  target : target = some ino
  load : x.isLoad = true → Frozen f write ino ∧ f.block ino = x.block
  dump : x.isLoad = false → f.activated x.block = some ino

/-- An I/O of the unit for its first address has moved all its bytes. -/
structure Landed (C : Config) (f : Files Byte) (iov : Nat → Byte) (x : IoUnit Byte) (ino : Nat) (full : Bool) : Prop where
  full : full = true
  load : x.isLoad = true → ∀ k, k < C.tensorSize → f.content ino (C.shardSize * x.index + k) = some (iov k)
  dump : x.isLoad = false → ∀ k, k < C.tensorSize → (f.content ino (C.shardSize * x.index + k)).isSome = true

/-- Where the unit is the last shard of a block, the file has the others. -/
def OthersThere (C : Config) (f : Files Byte) (x : IoUnit Byte) (ino : Nat) : Prop :=
  x.isLoad = false → C.isLast x.index = true → ∀ o, o < C.shardSize * x.index → (f.content ino o).isSome = true

/-- Nothing of an earlier unit is in the ring, and nothing in flight in the other. -/
structure Quiet (ior : Bool → Ring) (read : Bool) : Prop where
  own : ior read = .new
  other : (ior (!read)).inflight = []

/-- The runs in which a unit's transfer is all that moves, and complete. -/
def Clean (C : Config) (s : Worker Byte) : WorkerLabel Byte → Prop
  | .fill => ∀ u ino, s.pc = .registered u ino → Quiet s.ior false ∧ OthersThere C s.files (s.unit u) ino
  | .prepIo _ => ∀ u ino, s.pc = .registered u ino → Quiet s.ior true
  | .complete _ _ (some moved) => moved = C.tensorSize
  | _ => True

section Held

variable {f f' : Files Byte} {write write' : Ring} {x : IoUnit Byte} {target : Option Nat} {ino : Nat}

theorem Held.kept (h : Held f write x target ino) (hk : Kept f write f' write') (ha : f'.activated = f.activated) :
    Held f' write' x target ino := by
  refine ⟨h.target, fun hl => ?_, fun hl => ?_⟩
  · obtain ⟨hf, hblock⟩ := h.load hl
    exact ⟨hf.kept hk, (hk.block ino hf.lt).trans hblock⟩
  · rw [ha]
    exact h.dump hl

theorem OthersThere.kept (h : OthersThere C f x ino) (hk : Kept f write f' write') : OthersThere C f' x ino :=
  fun hl hlast o ho => hk.written ino o (h hl hlast o ho)

end Held

namespace Worker

variable (C) (s)

/-- The one I/O of a unit. -/
def io (u ino : Nat) : Io := ⟨u, 0, ino, s.offset C u⟩

theorem io_congr {s s' : Worker Byte} {u ino : Nat} (h : s'.unit = s.unit) : s'.io C u ino = s.io C u ino := by
  simp only [io, offset, h]

def Has (u ino : Nat) : Prop := Held s.files (s.ior false) (s.unit u) (s.target u) ino

def Whole (u ino : Nat) : Prop := Landed C s.files s.iov (s.unit u) ino (s.full u 0)

end Worker

/-- What holds of the unit that the worker has. -/
def PcInv (C : Config) (s : Worker Byte) : Pc → Prop
  | .opened u ino | .registered u ino => s.Has u ino
  | .filled u ino => s.Has u ino ∧ OthersThere C s.files (s.unit u) ino ∧ (s.unit u).isLoad = false ∧ Quiet s.ior false
  | .prepared u ino =>
    s.Has u ino ∧ OthersThere C s.files (s.unit u) ino ∧ s.ior (s.unit u).isLoad = ⟨[s.io C u ino], [], []⟩ ∧
      (s.ior (!(s.unit u).isLoad)).inflight = []
  | .submitted u ino =>
    s.Has u ino ∧ OthersThere C s.files (s.unit u) ino ∧ (s.ior (!(s.unit u).isLoad)).inflight = [] ∧
      (s.ior (s.unit u).isLoad = ⟨[], [s.io C u ino], []⟩ ∨
        ∃ result, s.ior (s.unit u).isLoad = ⟨[], [], [(s.io C u ino, result)]⟩ ∧ (result ≠ none → s.Whole C u ino))
  | .completed u ino cqe =>
    s.Has u ino ∧ OthersThere C s.files (s.unit u) ino ∧ Quiet s.ior (s.unit u).isLoad ∧ (cqe.2 ≠ none → s.Whole C u ino)
  | .checked u ino => s.Has u ino ∧ (s.unit u).isLoad = true ∧ Quiet s.ior true ∧ s.Whole C u ino
  | .ended u ok =>
    ok = true → (s.unit u).isLoad = false → ∃ ino,
      s.Has u ino ∧ OthersThere C s.files (s.unit u) ino ∧ s.ior false = .new ∧ s.Whole C u ino
  | .idle | .passed _ | .closing _ _ | .counting _ => True

/-- What a unit that succeeded has done. -/
structure Moved (C : Config) (s : Worker Byte) (u : Nat) : Prop where
  full : s.full u 0 = true
  load : (s.unit u).isLoad = true → ∃ ino, s.target u = some ino ∧ Frozen s.files (s.ior false) ino ∧
    s.files.block ino = (s.unit u).block ∧
    ∀ k, k < C.tensorSize → ∃ byte, s.mem u 0 k = some byte ∧ s.files.content ino (s.offset C u + k) = some byte

structure TransferInv (C : Config) (s : Worker Byte) : Prop where
  named : Named C s.files (s.ior false)
  pc : PcInv C s s.pc
  moved : ∀ u, s.outcome u = some true → Moved C s u

theorem Moved.kept {u : Nat} (h : Moved C s u) (hk : Kept s.files (s.ior false) s'.files (s'.ior false))
    (hfull : s.full u 0 = true → s'.full u 0 = true) (hu : s'.unit u = s.unit u) (ht : s'.target u = s.target u)
    (hm : s'.mem u = s.mem u) : Moved C s' u := by
  refine ⟨hfull h.full, fun hl => ?_⟩
  rw [hu] at hl
  obtain ⟨ino, hino, hf, hblock, hbytes⟩ := h.load hl
  have hc : s'.files.content ino = s.files.content ino := hk.content ino hf.idle
  refine ⟨ino, ht.trans hino, hf.kept hk, ?_, fun k hlt => ?_⟩
  · rw [hk.block ino hf.lt, hblock, hu]
  · unfold Worker.offset
    rw [hm, hc, hu]
    exact hbytes k hlt

/-! ## The steps -/

namespace Worker

variable (s) (read : Bool) (r : Ring)

@[simp] theorem setRing_ior : (s.setRing read r).ior read = r := Function.update_self ..

@[simp] theorem setRing_ior_not : (s.setRing read r).ior (!read) = s.ior (!read) := by cases read <;> rfl

end Worker

theorem Worker.Has.setRing {u ino : Nat} (h : s.Has u ino) {read : Bool} {r : Ring}
    (hr : read = false → Kept s.files (s.ior false) s.files r) : (s.setRing read r).Has u ino := by
  cases read with
  | true => exact h
  | false => exact h.kept (hr rfl) rfl

theorem Quiet.nothing {ior : Bool → Ring} {read read' : Bool} {io : Io} {rest : List Io} (h : Quiet ior read')
    (hinf : (ior read).inflight = io :: rest) : False := by
  by_cases e : read = read'
  · rw [e, h.own] at hinf
    cases hinf
  · rw [Bool.eq_not_of_ne e, h.other] at hinf
    cases hinf

/-- A unit that succeeded is not the one that the worker transfers. -/
theorem Worker.CountInv.ne (hc : s.CountInv) {u v : Nat} (hw : s.pc.working = some u) (hv : s.outcome v = some true) : v ≠ u := by
  intro e
  subst e
  rw [hc.working v hw] at hv
  cases hv

namespace TransferInv

variable {u : Nat} {pc : Pc}

/-- The worker goes on with its unit, or leaves it. -/
theorem goto (hi : TransferInv C s) (hp : PcInv C s pc) : TransferInv C { s with pc } := by
  refine ⟨hi.named, ?_, fun v hv => (hi.moved v hv).kept .refl id rfl rfl rfl⟩
  cases pc <;> exact hp

theorem setRing (hi : TransferInv C s) (read : Bool) (r : Ring) (hr : read = false → Kept s.files (s.ior false) s.files r)
    (hp : PcInv C (s.setRing read r) pc) : TransferInv C { s.setRing read r with pc } := by
  have hk : Kept s.files (s.ior false) s.files ((s.setRing read r).ior false) := by
    cases read with
    | true => exact .refl
    | false => exact hr rfl
  refine ⟨hi.named.ring hk, ?_, fun v hv => (hi.moved v hv).kept hk id rfl rfl rfl⟩
  cases pc <;> exact hp

/-- The unit fails. -/
theorem fail (hi : TransferInv C s) (u : Nat) : TransferInv C (s.ret u false) := by
  refine ⟨hi.named, nofun, fun v hv => ?_⟩
  refine (hi.moved v ?_).kept .refl id rfl rfl rfl
  simp only [Worker.ret, Function.update_apply] at hv
  split at hv
  · cases hv
  · exact hv

end TransferInv

theorem PcInv.submit (isLoad : Bool) (shards : List (Nat × Nat × (Nat → Nat → Byte))) {pc : Pc}
    (hlt : ∀ u, pc.unit = some u → u < s.nUnit) (h : PcInv C s pc) : PcInv C (s.submit isLoad shards) pc := by
  have hu : ∀ u, pc.unit = some u → (s.submit isLoad shards).unit u = s.unit u := fun u hu =>
    Worker.submit_unit_old isLoad shards (hlt u hu)
  cases pc with
  | idle | passed | closing | counting => trivial
  | _ =>
    simp only [PcInv, Worker.Has, Worker.Whole, Worker.io, Worker.offset, hu _ rfl] at h ⊢
    exact h

/-- The file is opened. -/
theorem TransferInv.opened (hi : TransferInv C s) (hc : s.CountInv) {u ino : Nat} (hpc : s.pc = .passed u) {f : Files Byte}
    (hk : Kept s.files (s.ior false) f (s.ior false)) (hn : Named C f (s.ior false))
    (hload : (s.unit u).isLoad = true → Frozen f (s.ior false) ino ∧ f.block ino = (s.unit u).block)
    (hdump : (s.unit u).isLoad = false → f.activated (s.unit u).block = some ino) :
    TransferInv C { s with pc := .opened u ino, target := Function.update s.target u (some ino), files := f } := by
  refine ⟨hn, ⟨Function.update_self .., hload, hdump⟩, fun v hv => ?_⟩
  have hne := hc.ne (u := u) (by rw [hpc]; rfl) hv
  exact (hi.moved v hv).kept hk id rfl (Function.update_of_ne hne ..) rfl

/-- The unit succeeds. -/
theorem TransferInv.succeed (hi : TransferInv C s) {u : Nat} {mem : Nat → Nat → Nat → Option Byte}
    (hmem : ∀ v, v ≠ u → mem v = s.mem v) (hp : PcInv C s (.ended u true)) (hu : Moved C { s with mem } u) :
    TransferInv C ({ s with mem }.ret u true) := by
  refine ⟨hi.named, hp, fun v hv => ?_⟩
  by_cases e : v = u
  · subst e
    exact ⟨hu.full, hu.load⟩
  · have hv : s.outcome v = some true := (Function.update_of_ne e ..).symm.trans hv
    exact (hi.moved v hv).kept .refl id rfl rfl (hmem v e)

section Complete

variable {read : Bool} {io : Io} {rest : List Io} {moved : Nat} {result : Option Nat}

theorem Worker.complete_full {v : Nat} (hv : s.full v 0 = true) : (s.complete C read io rest moved result).full v 0 = true := by
  have hf : (s.move read io moved).full = s.full := by cases read <;> rfl
  show (if result = some C.tensorSize then Function.update (s.move read io moved).full io.unit
    (Function.update ((s.move read io moved).full io.unit) io.addr true) else (s.move read io moved).full) v 0 = true
  rw [hf]
  split
  · rw [Function.update_apply]
    split
    · next e =>
      rw [Function.update_apply]
      split
      · rfl
      · exact e ▸ hv
    · exact hv
  · exact hv

variable (C moved result) in
theorem kept_complete (hinf : (s.ior read).inflight = io :: rest) : Kept s.files (s.ior false)
    (s.complete C read io rest moved result).files ((s.complete C read io rest moved result).ior false) := by
  cases read with
  | true => exact .refl
  | false => exact kept_write hinf ..

theorem Worker.Has.complete {u ino : Nat} (h : s.Has u ino) (hinf : (s.ior read).inflight = io :: rest) :
    (s.complete C read io rest moved result).Has u ino := by
  cases read with
  | true => exact h
  | false => exact Held.kept h (kept_write hinf ..) rfl

/-- The unit's own I/O moves all its bytes. -/
theorem Worker.whole_complete {u ino : Nat} (hl : (s.unit u).isLoad = read) (hio : io = s.io C u ino)
    (hread : read = true → ∀ k, k < C.tensorSize → (s.files.content io.ino (io.offset + k)).isSome = true) :
    (s.complete C read io rest C.tensorSize (some C.tensorSize)).Whole C u ino := by
  subst hio
  cases read with
  | true =>
    refine ⟨?_, fun _ k hk => ?_, fun hd => absurd (hl.symm.trans hd) nofun⟩
    · show (if some C.tensorSize = some C.tensorSize then Function.update s.full u (Function.update (s.full u) 0 true)
          else s.full) u 0 = true
      rw [if_pos rfl, Function.update_self, Function.update_self]
    · show s.files.content ino (C.shardSize * (s.unit u).index + k) =
        some (if k < C.tensorSize then (s.files.content ino (C.shardSize * (s.unit u).index + k)).getD (s.iov k) else s.iov k)
      obtain ⟨byte, hb⟩ := Option.isSome_iff_exists.mp (hread rfl k hk)
      have hb : s.files.content ino (C.shardSize * (s.unit u).index + k) = some byte := hb
      rw [if_pos hk, hb, Option.getD_some]
  | false =>
    refine ⟨?_, fun hd => absurd (hl.symm.trans hd) nofun, fun _ k hk => ?_⟩
    · show (if some C.tensorSize = some C.tensorSize then Function.update s.full u (Function.update (s.full u) 0 true)
          else s.full) u 0 = true
      rw [if_pos rfl, Function.update_self, Function.update_self]
    · show (Function.update s.files.content ino (fun o =>
        if C.shardSize * (s.unit u).index ≤ o ∧ o < C.shardSize * (s.unit u).index + C.tensorSize then
          some (s.iov (o - C.shardSize * (s.unit u).index)) else s.files.content ino o) ino (C.shardSize * (s.unit u).index +
          k)).isSome = true
      rw [Function.update_self, if_pos ⟨by omega, by omega⟩]
      rfl

/-- Bytes arrive while the worker has the unit. -/
theorem PcInv.complete {pc : Pc} (h : PcInv C s pc) (hinf : (s.ior read).inflight = io :: rest)
    (hres : result = none ∨ result = some moved) (hfull : ∀ n, result = some n → n = C.tensorSize)
    (hread : read = true → ∀ k, k < moved → (s.files.content io.ino (io.offset + k)).isSome = true) :
    PcInv C (s.complete C read io rest moved result) pc := by
  have hk := kept_complete C moved result hinf
  have hu : (s.complete C read io rest moved result).unit = s.unit := by cases read <;> rfl
  have hr : (s.complete C read io rest moved result).ior =
      Function.update s.ior read { s.ior read with inflight := rest, cqes := (s.ior read).cqes ++ [(io, result)] } := by
    cases read <;> rfl
  cases pc with
  | idle | passed | closing | counting => trivial
  | opened u ino | registered u ino => exact Worker.Has.complete h hinf
  | filled u ino =>
    obtain ⟨-, -, -, hq⟩ := h
    exact (hq.nothing hinf).elim
  | prepared u ino =>
    obtain ⟨-, -, hown, hother⟩ := h
    by_cases e : read = (s.unit u).isLoad
    · rw [e, hown] at hinf
      cases hinf
    · rw [Bool.eq_not_of_ne e, hother] at hinf
      cases hinf
  | submitted u ino =>
    obtain ⟨hhas, ho, hother, hown⟩ := h
    by_cases e : read = (s.unit u).isLoad
    · -- it is the unit's own
      subst e
      rcases hown with hown | ⟨_, hown, -⟩
      · rw [hown] at hinf
        obtain ⟨rfl, rfl⟩ := List.cons.inj hinf
        refine ⟨hhas.complete (by rw [hown]), ?_, ?_, .inr ⟨result, ?_, fun hne => ?_⟩⟩
        · rw [hu]
          exact ho.kept hk
        · rw [hu, hr, Function.update_of_ne (by simp)]
          exact hother
        · rw [Worker.io_congr C hu, hu, hr, Function.update_self, hown]
          rfl
        · obtain rfl := hres.resolve_left hne
          obtain rfl := hfull _ rfl
          exact Worker.whole_complete rfl rfl hread
      · rw [hown] at hinf
        cases hinf
    · rw [Bool.eq_not_of_ne e, hother] at hinf
      cases hinf
  | completed u ino cqe =>
    obtain ⟨-, -, hq, -⟩ := h
    exact (hq.nothing hinf).elim
  | checked u ino =>
    obtain ⟨-, -, hq, -⟩ := h
    exact (hq.nothing hinf).elim
  | ended u ok =>
    intro hok hl
    rw [hu] at hl
    obtain ⟨ino, hhas, ho, hring, hw⟩ := h hok hl
    cases read with
    | false =>
      rw [hring] at hinf
      cases hinf
    | true => exact ⟨ino, hhas, ho, hring, Worker.complete_full hw.full, fun hl' => absurd (hl.symm.trans hl') nofun, hw.dump⟩

/-- The bytes of a read or of a write arrive in the bounce buffer or in the file. -/
theorem TransferInv.complete (hi : TransferInv C s) (hinf : (s.ior read).inflight = io :: rest)
    (hres : result = none ∨ result = some moved) (hfull : ∀ n, result = some n → n = C.tensorSize)
    (hread : read = true → ∀ k, k < moved → (s.files.content io.ino (io.offset + k)).isSome = true) :
    TransferInv C (s.complete C read io rest moved result) := by
  have hk := kept_complete C moved result hinf
  refine ⟨?_, ?_, fun v hv => (hi.moved v ?_).kept hk Worker.complete_full ?_ ?_ ?_⟩
  · cases read with
    | true => exact hi.named
    | false => exact hi.named.kept hk rfl hi.named.activated
  · have hp := hi.pc.complete hinf hres hfull hread
    cases read <;> exact hp
  all_goals cases read <;> first | rfl | exact hv

end Complete

/-- The last shard ends where the block ends. -/
theorem Config.last_end {index : Nat} (h : C.isLast index = true) : C.shardSize * (index + 1) = C.blockSize := by
  have h : index + 1 = C.blockSize / C.shardSize := of_decide_eq_true h
  rw [h]
  exact Nat.mul_div_cancel' (Nat.dvd_of_mod_eq_zero C.shard_dvd)

theorem WorkerCase.transferInv (h : WorkerCase C s l s') (hc : s.CountInv) (hi : TransferInv C s)
    (hC : C.shardSize = C.tensorSize)
    (hok : Clean C s l) : TransferInv C s' := by
  cases h with
  | @submit isLoad shards =>
    refine ⟨hi.named, hi.pc.submit isLoad shards hc.pc_lt, fun v hv => ?_⟩
    have hlt : v < s.nUnit := by
      by_contra hge
      have hnone := (hc.new v (by omega)).1
      rw [show s.outcome v = some true from hv] at hnone
      cases hnone
    exact (hi.moved v hv).kept .refl id (Worker.submit_unit_old isLoad shards hlt) rfl rfl
  | wait => exact ⟨hi.named, hi.pc, fun v hv => (hi.moved v hv).kept .refl id rfl rfl rfl⟩
  | skip | start => exact ⟨hi.named, trivial, fun v hv => (hi.moved v hv).kept .refl id rfl rfl rfl⟩
  | @openRead u ino hpc hl ha =>
    obtain ⟨hf, hblock, -⟩ := hi.named.archived _ ino ha
    exact hi.opened hc hpc .refl hi.named (fun _ => ⟨hf, hblock⟩) fun hd => by rw [hl] at hd; cases hd
  | @openWrite u ino f hpc hl ho =>
    obtain ⟨hk, hn, hact⟩ := openActivated_spec hi.named ho
    exact hi.opened hc hpc hk hn (fun hl' => by rw [hl] at hl'; cases hl') fun _ => hact
  | @register u ino hpc =>
    have hp := hi.pc
    rw [hpc] at hp
    exact hi.goto hp
  | @fill u ino hpc hl =>
    have hp := hi.pc
    rw [hpc] at hp
    obtain ⟨hq, ho⟩ := hok u ino hpc
    exact ⟨hi.named, ⟨hp, ho, hl, hq⟩, fun v hv => (hi.moved v hv).kept .refl id rfl rfl rfl⟩
  | @prepRead u ino hpc hl =>
    have hp := hi.pc
    rw [hpc] at hp
    have hq : Quiet s.ior true := hok u ino hpc
    have hring : (s.unit u).isLoad = false → Kept s.files (s.ior false) s.files
        ((s.ior (s.unit u).isLoad).prepIo ⟨u, 0, ino, s.offset C u⟩) := fun hr => by rw [hl] at hr; cases hr
    refine hi.setRing _ _ hring ⟨Worker.Has.setRing hp hring, fun hd => ?_, ?_, ?_⟩
    · rw [show (s.unit u).isLoad = false from hd] at hl
      cases hl
    · refine (Worker.setRing_ior ..).trans ?_
      rw [hl, hq.own]
      rfl
    · refine (congrArg Ring.inflight (Worker.setRing_ior_not ..)).trans ?_
      rw [hl]
      exact hq.other
  | @prepWrite u ino hpc =>
    have hp := hi.pc
    rw [hpc] at hp
    obtain ⟨hhas, ho, hl, hq⟩ := hp
    have hring : (s.unit u).isLoad = false → Kept s.files (s.ior false) s.files
        ((s.ior (s.unit u).isLoad).prepIo ⟨u, 0, ino, s.offset C u⟩) := fun _ => by
      rw [hl]
      exact kept_prepIo ⟨_, hhas.dump hl⟩
    refine hi.setRing _ _ hring ⟨hhas.setRing hring, ho, ?_, ?_⟩
    · refine (Worker.setRing_ior ..).trans ?_
      rw [hl, hq.own]
      rfl
    · refine (congrArg Ring.inflight (Worker.setRing_ior_not ..)).trans ?_
      rw [hl]
      exact hq.other
  | @submitIos u ino hpc =>
    have hp := hi.pc
    rw [hpc] at hp
    obtain ⟨hhas, ho, hr, hother⟩ := hp
    have hring : (s.unit u).isLoad = false →
        Kept s.files (s.ior false) s.files (s.ior (s.unit u).isLoad).submitIos := fun hl => by
      rw [hl]
      exact kept_submitIos
    refine hi.setRing _ _ hring ⟨hhas.setRing hring, ho, ?_, .inl ?_⟩
    · exact (congrArg Ring.inflight (Worker.setRing_ior_not ..)).trans hother
    · refine (Worker.setRing_ior ..).trans ?_
      rw [hr]
      rfl
  | @waitForIos u ino cqe rest hpc hcq =>
    have hp := hi.pc
    rw [hpc] at hp
    obtain ⟨hhas, ho, hother, hr⟩ := hp
    have hring : (s.unit u).isLoad = false → Kept s.files (s.ior false) s.files { s.ior (s.unit u).isLoad with cqes := rest } :=
      fun hl => by
        rw [hl]
        exact kept_ring fun io hio => .inl hio
    -- the completion that the ring hands out is the unit's own
    rcases hr with hr | ⟨result, hr, hw⟩
    · rw [hr] at hcq
      cases hcq
    · obtain ⟨rfl, rfl⟩ := List.cons.inj ((congrArg Ring.cqes hr).symm.trans hcq)
      refine hi.setRing _ _ hring ⟨hhas.setRing hring, ho, ⟨?_, ?_⟩, hw⟩
      · refine (Worker.setRing_ior ..).trans ?_
        rw [hr]
        rfl
      · exact (congrArg Ring.inflight (Worker.setRing_ior_not ..)).trans hother
  | @checkRead u ino cqe hpc hr hl =>
    have hp := hi.pc
    rw [hpc] at hp
    obtain ⟨hhas, ho, hq, hw⟩ := hp
    exact hi.goto ⟨hhas, hl, hl ▸ hq, hw hr⟩
  | @checkWrite u ino cqe hpc hr hl =>
    have hp := hi.pc
    rw [hpc] at hp
    obtain ⟨hhas, ho, hq, hw⟩ := hp
    refine hi.succeed (fun _ _ => rfl) (fun _ _ => ⟨ino, hhas, ho, ?_, hw hr⟩)
      ⟨(hw hr).full, fun hl' => by rw [hl] at hl'; cases hl'⟩
    have hown := hq.own
    rwa [hl] at hown
  | @copyOut u ino hpc =>
    have hp := hi.pc
    rw [hpc] at hp
    obtain ⟨hhas, hl, -, hw⟩ := hp
    obtain ⟨hf, hblock⟩ := hhas.load hl
    refine hi.succeed (fun v e => Function.update_of_ne e ..) (fun _ hd => by rw [hl] at hd; cases hd)
      ⟨hw.full, fun _ => ⟨ino, hhas.target, hf, hblock, fun k hk => ⟨s.iov k, ?_, hw.load hl k hk⟩⟩⟩
    dsimp only
    rw [Function.update_self, Function.update_self, if_pos hk]
  | fail => exact hi.fail _
  | @submitFail u ino hpc =>
    have hring : (s.unit u).isLoad = false →
        Kept s.files (s.ior false) s.files (s.ior (s.unit u).isLoad).submitIos := fun hl => by
      rw [hl]
      exact kept_submitIos
    have hidle : PcInv C (s.setRing (s.unit u).isLoad (s.ior (s.unit u).isLoad).submitIos) .idle := trivial
    exact (hi.setRing _ _ hring hidle).fail u
  | @commit u ok renamed hpc hl hlast =>
    have hp := hi.pc
    rw [hpc] at hp
    obtain ⟨hk, hn⟩ := commitFile_spec (C := C) hi.named (s.unit u).block ok renamed fun ino hino hok => by
      obtain ⟨ino', hhas, ho, hr, hw⟩ := hp hok hl
      obtain rfl := Option.some.inj (hino.symm.trans (hhas.dump hl))
      refine ⟨fun o hlt => ?_, fun io hio => ?_⟩
      · by_cases hlo : o < C.shardSize * (s.unit u).index
        · exact ho hl hlast o hlo
        · obtain ⟨k, rfl⟩ := Nat.exists_eq_add_of_le (Nat.le_of_not_lt hlo)
          refine hw.dump hl k ?_
          have := C.last_end hlast
          rw [Nat.mul_succ] at this
          omega
      · rw [hr] at hio
        cases hio
    exact ⟨hn, trivial, fun v hv => (hi.moved v hv).kept hk id rfl rfl rfl⟩
  | finish | count => exact ⟨hi.named, trivial, fun v hv => (hi.moved v hv).kept .refl id rfl rfl rfl⟩
  | complete hinf _ hres hread =>
    refine hi.complete hinf hres ?_ hread
    intro n e
    subst e
    exact hok

theorem reach_transferInv (hC : C.shardSize = C.tensorSize) (h : Reach (worker C) (Clean C) s) : TransferInv C s := by
  refine h.inv_with (I := TransferInv C) (J := Worker.CountInv) (fun _ => reach_countInv) (fun s hs => ?_)
    fun s l s' hc hi hok hst => (workerStep_case hst).transferInv hc hi hC hok
  have hs : s.IsInit C := hs
  have hr : (s.ior false).open_ = [] := by
    rw [hs.ior]
    rfl
  refine ⟨⟨fun b ino hb => ?_, hs.activated, fun io hio => ?_⟩, ?_, fun u hu => ?_⟩
  · obtain ⟨hlt, hblock, hall, hact⟩ := hs.archived b ino hb
    exact ⟨⟨hlt, hact, fun io hio => by rw [hr] at hio; cases hio⟩, hblock, hall⟩
  · rw [hr] at hio
    cases hio
  · rw [hs.pc]
    trivial
  · rw [hs.outcome] at hu
    cases hu

end UnifiedCache.Ds3fs
