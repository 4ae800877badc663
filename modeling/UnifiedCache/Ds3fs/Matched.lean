/-
  UnifiedCache.Ds3fs.Matched — complete and matched transfers of the DS3FS store
  (see `UnifiedCache.Ds3fs.Worker`).

  `transfers_complete`: where a shard has one tensor, in the runs within `Clean` a unit succeeds
  only with an I/O of its own of the full length, a load whose `Wait` returns OK has the bytes of
  its block's file, and a file is committed with all its bytes, which are those of dumps of the block
  (`reach_sourceInv`), or were there before.

  `transfers_incomplete` are the ways in which it fails outside: of a shard's addresses only the
  first is transferred; a short I/O is taken for a full one; the completion that a failed wait has
  left is taken for the next unit's; the last shard commits a file whatever the file has.
-/

import UnifiedCache.Ds3fs.Transfers

namespace UnifiedCache.Ds3fs

open UnifiedCache.Base UnifiedCache.Detail

variable {Byte : Type} {C : Config} {s s' : Worker Byte} {l : WorkerLabel Byte}

/-! ## Where the bytes of a file come from -/

/-- The byte at `o` of a file was there before, or is one that a dump of the block has there. -/
def Sourced (C : Config) (s : Worker Byte) (ino b o : Nat) (byte : Byte) : Prop :=
  s.old ino o = some byte ∨ ∃ u, u < s.nUnit ∧ (s.unit u).isLoad = false ∧ (s.unit u).block = b ∧
    ∃ k, k < C.tensorSize ∧ o = s.offset C u + k ∧ byte = (s.unit u).data 0 k

/-- The bounce buffer has the data of the unit. -/
def InBuffer (C : Config) (s : Worker Byte) (u : Nat) : Prop := ∀ k, k < C.tensorSize → s.iov k = (s.unit u).data 0 k

/-- A write in flight: nothing is read, and its data is in the bounce buffer. -/
structure Flies (C : Config) (s : Worker Byte) (io : Io) : Prop where
  unit : io.unit < s.nUnit ∧ (s.unit io.unit).isLoad = false
  file : io.ino < s.files.nextIno ∧ s.files.block io.ino = (s.unit io.unit).block
  offset : io.offset = s.offset C io.unit
  data : InBuffer C s io.unit
  alone : (s.ior true).inflight = []

/-- The worker is between filling the bounce buffer for a unit and submitting its I/O. -/
def Fills (s : Worker Byte) (pc : Pc) (u : Nat) : Prop :=
  ∃ ino, pc = .filled u ino ∨ pc = .prepared u ino ∧ (s.unit u).isLoad = false

structure SourceInv (C : Config) (s : Worker Byte) : Prop where
  content : ∀ ino o byte, s.files.content ino o = some byte → Sourced C s ino (s.files.block ino) o byte
  fresh : ∀ ino, s.files.nextIno ≤ ino → s.files.content ino = s.old ino
  fills : ∀ u, Fills s s.pc u → InBuffer C s u
  flies : ∀ io, io ∈ (s.ior false).inflight → Flies C s io

/-- What most steps leave: the units there are, the contents of the files, the bounce buffer, and what is in flight. -/
structure LeavesBytes (s s' : Worker Byte) : Prop where
  unit : s.nUnit ≤ s'.nUnit ∧ ∀ u, u < s.nUnit → s'.unit u = s.unit u
  old : s'.old = s.old
  content : s'.files.content = s.files.content
  file : s.files.nextIno ≤ s'.files.nextIno ∧ ∀ ino, ino < s.files.nextIno → s'.files.block ino = s.files.block ino
  iov : s'.iov = s.iov
  write : ∀ io, io ∈ (s'.ior false).inflight → io ∈ (s.ior false).inflight
  read : (s.ior true).inflight = [] → (s'.ior true).inflight = []

/-- Of a ring only what is prepared, and the completions, change. -/
theorem leavesBytes_ring {read : Bool} {r : Ring} {pc : Pc} (e : r.inflight = (s.ior read).inflight) :
    LeavesBytes s { s.setRing read r with pc } := by
  have hsame : ∀ read', ((s.setRing read r).ior read').inflight = (s.ior read').inflight := by
    intro read'
    by_cases e' : read' = read
    · rw [e', Worker.setRing_ior, e]
    · rw [Bool.eq_not_of_ne e', Worker.setRing_ior_not]
  exact ⟨⟨le_rfl, fun _ _ => rfl⟩, rfl, rfl, ⟨le_rfl, fun _ _ => rfl⟩, rfl, fun io hio => hsame false ▸ hio,
    fun hr => (hsame true).trans hr⟩

/-- A step that keeps the units, the files and the rings. -/
theorem LeavesBytes.of_eq (hn : s'.nUnit = s.nUnit) (hu : s'.unit = s.unit) (ho : s'.old = s.old) (hf : s'.files = s.files)
    (hb : s'.iov = s.iov ∧ s'.ior = s.ior) : LeavesBytes s s' := by
  refine ⟨⟨hn.ge, fun _ _ => congrFun hu _⟩, ho, by rw [hf], ⟨by rw [hf], fun _ _ => by rw [hf]⟩, hb.1, ?_, ?_⟩ <;>
    rw [hb.2]
  · exact fun _ h => h
  · exact id

theorem LeavesBytes.inBuffer {u : Nat} (hl : LeavesBytes s s') (hu : u < s.nUnit) (h : InBuffer C s u) : InBuffer C s' u := by
  intro k hk
  rw [hl.iov, hl.unit.2 u hu]
  exact h k hk

theorem SourceInv.leaves (h : SourceInv C s) (hl : LeavesBytes s s') (hlt : ∀ u, s.pc.unit = some u → u < s.nUnit)
    (hfills : ∀ u, Fills s' s'.pc u → Fills s s.pc u) : SourceInv C s' := by
  refine ⟨fun ino o byte hb => ?_, fun ino hge => ?_, fun u hu => ?_, fun io hio => ?_⟩
  · rw [hl.content] at hb
    by_cases hino : ino < s.files.nextIno
    · rw [hl.file.2 ino hino]
      unfold Sourced
      rw [hl.old]
      rcases h.content ino o byte hb with hold | ⟨u, hu, hdump, hblock, k, hk, ho, hbyte⟩
      · exact .inl hold
      · refine .inr ⟨u, hu.trans_le hl.unit.1, ?_, ?_, k, hk, ?_, ?_⟩
        · rw [hl.unit.2 u hu]
          exact hdump
        · rw [hl.unit.2 u hu]
          exact hblock
        · unfold Worker.offset
          rw [hl.unit.2 u hu]
          exact ho
        · rw [hl.unit.2 u hu]
          exact hbyte
    · left
      rw [hl.old, ← h.fresh ino (by omega)]
      exact hb
  · rw [hl.content, hl.old]
    exact h.fresh ino (hl.file.1.trans hge)
  · have hs := hfills u hu
    refine hl.inBuffer (hlt u ?_) (h.fills u hs)
    obtain ⟨ino, e | ⟨e, -⟩⟩ := hs <;> rw [e] <;> rfl
  · obtain ⟨⟨hu, hdump⟩, ⟨hino, hblock⟩, hoff, hdata, halone⟩ := h.flies io (hl.write io hio)
    have e := hl.unit.2 io.unit hu
    refine ⟨⟨hu.trans_le hl.unit.1, ?_⟩, ⟨hino.trans_le hl.file.1, ?_⟩, ?_, hl.inBuffer hu hdata, hl.read halone⟩
    · rw [e]
      exact hdump
    · rw [hl.file.2 _ hino, e]
      exact hblock
    · unfold Worker.offset
      rw [e]
      exact hoff

/-- The unit's one I/O is submitted. -/
theorem SourceInv.submitted {u ino : Nat} {pc : Pc} {outcome : Nat → Option Bool} (h : SourceInv C s) (hi : TransferInv C s)
    (hc : s.CountInv)
    (hpc : s.pc = .prepared u ino) (hpc' : ∀ v, ¬ Fills s pc v) :
    SourceInv C { s.setRing (s.unit u).isLoad (s.ior (s.unit u).isLoad).submitIos with pc, outcome } := by
  have hp := hi.pc
  rw [hpc] at hp
  obtain ⟨hhas, -, hring, hother⟩ := hp
  refine ⟨h.content, h.fresh, fun v hv => absurd hv (hpc' v), fun io hio => ?_⟩
  cases hl : (s.unit u).isLoad with
  | true =>
    rw [hl] at hio hother
    have hio : io ∈ (s.ior false).inflight := hio
    have hother : (s.ior false).inflight = [] := hother
    rw [hother] at hio
    cases hio
  | false =>
    rw [hl] at hio hring hother
    have hio : io ∈ (s.ior false).submitIos.inflight := hio
    rw [hring] at hio
    obtain rfl : io = s.io C u ino := List.mem_singleton.mp hio
    obtain ⟨hino, hblock⟩ := hi.named.activated _ ino (hhas.dump hl)
    exact ⟨⟨hc.pc_lt u (by rw [hpc]; rfl), hl⟩, ⟨hino, hblock⟩, rfl, h.fills u ⟨ino, .inr ⟨hpc, hl⟩⟩, hother⟩

section Complete

variable {io : Io} {rest : List Io} {moved : Nat} {result : Option Nat}

/-- What a read brings goes to the bounce buffer, which no dump has then. -/
theorem SourceInv.read (h : SourceInv C s) (hi : TransferInv C s) (hinf : (s.ior true).inflight = io :: rest) :
    SourceInv C (s.complete C true io rest moved result) := by
  refine ⟨h.content, h.fresh, fun u hu => ?_, fun io' hio => ?_⟩
  · exfalso
    have hp := hi.pc
    obtain ⟨ino, e | ⟨e, hl⟩⟩ := hu
    · rw [show s.pc = _ from e] at hp
      exact hp.2.2.2.nothing hinf
    · rw [show s.pc = _ from e] at hp
      have hl : (s.unit u).isLoad = false := hl
      have hother := hp.2.2.2
      rw [hl, Bool.not_false, hinf] at hother
      cases hother
  · have halone := (h.flies io' hio).alone
    rw [hinf] at halone
    cases halone

/-- What a write brings is the unit's data, which it has from the bounce buffer. -/
theorem SourceInv.write (h : SourceInv C s) (hmoved : moved ≤ C.tensorSize) (hinf : (s.ior false).inflight = io :: rest) :
    SourceInv C (s.complete C false io rest moved result) := by
  have hfly := h.flies io (by rw [hinf]; exact List.mem_cons_self)
  refine ⟨fun ino o byte hb => ?_, fun ino hge => ?_, h.fills, fun io' hio => ?_⟩
  · have hb : Function.update s.files.content io.ino
        (fun o => if io.offset ≤ o ∧ o < io.offset + moved then some (s.iov (o - io.offset)) else s.files.content io.ino o) ino
        o = some byte := hb
    by_cases e : ino = io.ino
    · subst e
      rw [Function.update_self] at hb
      split at hb
      · next hin =>
        refine .inr ⟨io.unit, hfly.unit.1, hfly.unit.2, hfly.file.2.symm, o - io.offset, by omega, ?_, ?_⟩
        · show o = s.offset C io.unit + (o - io.offset)
          rw [← hfly.offset]
          omega
        · exact (Option.some.inj hb).symm.trans (hfly.data _ (by omega))
      · exact h.content io.ino o byte hb
    · rw [Function.update_of_ne e] at hb
      exact h.content ino o byte hb
  · have hne : ino ≠ io.ino := by
      have := hfly.file.1
      have hge : s.files.nextIno ≤ ino := hge
      omega
    exact (Function.update_of_ne hne ..).trans (h.fresh ino hge)
  · have hio : io' ∈ rest := hio
    obtain ⟨hunit, hfile, hoff, hdata, halone⟩ := h.flies io' (by rw [hinf]; exact List.mem_cons_of_mem _ hio)
    exact ⟨hunit, hfile, hoff, hdata, halone⟩

end Complete

theorem WorkerCase.sourceInv (h : WorkerCase C s l s') (hc : s.CountInv) (hi : TransferInv C s) (hs : SourceInv C s)
    (hok : Clean C s l) : SourceInv C s' := by
  cases h with
  | @submit isLoad shards =>
    have hold : ∀ u, u < s.nUnit → (s.submit isLoad shards).unit u = s.unit u :=
        fun u hu => Worker.submit_unit_old isLoad shards hu
    refine hs.leaves ⟨⟨Nat.le_add_right .., hold⟩, rfl, rfl, ⟨le_rfl, fun _ _ => rfl⟩, rfl, fun _ h => h,
      id⟩ hc.pc_lt fun u hu => ?_
    obtain ⟨ino, e | ⟨e, hl⟩⟩ := hu
    · exact ⟨ino, .inl e⟩
    · rw [hold u (hc.pc_lt u (by rw [show s.pc = _ from e]; rfl))] at hl
      exact ⟨ino, .inr ⟨e, hl⟩⟩
  | wait => exact hs.leaves (.of_eq rfl rfl rfl rfl ⟨rfl, rfl⟩) hc.pc_lt fun _ hu => hu
  | @fill u ino hpc hl =>
    obtain ⟨hq, -⟩ := hok u ino hpc
    refine ⟨hs.content, hs.fresh, fun v hv => ?_, fun io hio => ?_⟩
    · obtain ⟨ino', e | ⟨e, -⟩⟩ := hv
      · obtain ⟨rfl, -⟩ := Pc.filled.inj e
        exact fun k hk => if_pos hk
      · cases e
    · have hio : io ∈ (s.ior false).inflight := hio
      rw [hq.own] at hio
      cases hio
  | @prepWrite u ino hpc =>
    have hleaves : LeavesBytes s (s.prepIo C u ino) := leavesBytes_ring rfl
    refine hs.leaves hleaves hc.pc_lt fun v hv => ?_
    obtain ⟨ino', e | ⟨e, -⟩⟩ := hv
    · cases e
    · obtain ⟨rfl, -⟩ := Pc.prepared.inj e
      exact ⟨ino, .inl hpc⟩
  | @prepRead u ino hpc hl =>
    have hleaves : LeavesBytes s (s.prepIo C u ino) := leavesBytes_ring rfl
    refine hs.leaves hleaves hc.pc_lt fun v hv => ?_
    obtain ⟨ino', e | ⟨e, hl'⟩⟩ := hv
    · cases e
    · obtain ⟨rfl, -⟩ := Pc.prepared.inj e
      rw [show (s.unit u).isLoad = false from hl'] at hl
      cases hl
  | @submitIos u ino hpc => exact hs.submitted hi hc hpc (by rintro v ⟨_, e | ⟨e, -⟩⟩ <;> cases e)
  | @submitFail u ino hpc => exact hs.submitted hi hc hpc (by rintro v ⟨_, e | ⟨e, -⟩⟩ <;> cases e)
  | @waitForIos u ino cqe rest hpc hcq =>
    refine hs.leaves (leavesBytes_ring rfl) hc.pc_lt fun v hv => ?_
    obtain ⟨_, e | ⟨e, -⟩⟩ := hv <;> cases e
  | @openWrite u ino f hpc hl ho =>
    obtain ⟨hk, -, -⟩ := openActivated_spec hi.named ho
    have hcontent : f.content = s.files.content := by
      unfold Files.openActivated at ho
      split at ho <;> obtain ⟨rfl, -⟩ := Prod.mk.inj ho <;> rfl
    refine hs.leaves ⟨⟨le_rfl, fun _ _ => rfl⟩, rfl, hcontent, ⟨hk.nextIno, hk.block⟩, rfl, fun _ h => h,
      id⟩ hc.pc_lt fun v hv => ?_
    obtain ⟨_, e | ⟨e, -⟩⟩ := hv <;> cases e
  | @commit u ok renamed hpc hl hlast =>
    have hfiles : (s.files.commitFile (s.unit u).block ok renamed).content = s.files.content ∧
        (s.files.commitFile (s.unit u).block ok renamed).nextIno = s.files.nextIno ∧
        (s.files.commitFile (s.unit u).block ok renamed).block = s.files.block := by
      unfold Files.commitFile
      split
      · exact ⟨rfl, rfl, rfl⟩
      · dsimp only
        split <;> exact ⟨rfl, rfl, rfl⟩
    refine hs.leaves ⟨⟨le_rfl, fun _ _ => rfl⟩, rfl, hfiles.1, ⟨hfiles.2.1.ge, fun ino _ => congrFun hfiles.2.2 ino⟩, rfl,
      fun _ h => h, id⟩
      hc.pc_lt fun v hv => ?_
    obtain ⟨_, e | ⟨e, -⟩⟩ := hv <;> cases e
  | @complete read io rest moved result hinf hmoved hres hread =>
    cases read with
    | true => exact hs.read hi hinf
    | false => exact hs.write hmoved hinf
  | _ =>
    refine hs.leaves (.of_eq rfl rfl rfl rfl ⟨rfl, rfl⟩) hc.pc_lt fun v hv => ?_
    obtain ⟨_, e | ⟨e, -⟩⟩ := hv <;> cases e

theorem reach_sourceInv (hC : C.shardSize = C.tensorSize) (h : Reach (worker C) (Clean C) s) : SourceInv C s := by
  refine h.inv_with (I := SourceInv C) (J := fun s => s.CountInv ∧ TransferInv C s)
    (fun _ h => ⟨reach_countInv h, reach_transferInv hC h⟩)
    (fun s hs => ?_) fun s l s' hj hi hok hst => (workerStep_case hst).sourceInv hj.1 hj.2 hi hok
  have hs : s.IsInit C := hs
  refine ⟨fun ino o byte hb => .inl ?_, fun ino _ => ?_, fun u hu => ?_, fun io hio => ?_⟩
  · rw [hs.old]
    exact hb
  · rw [hs.old]
  · obtain ⟨_, e | ⟨e, -⟩⟩ := hu <;> rw [hs.pc] at e <;> cases e
  · rw [hs.ior] at hio
    cases hio

/-! ## Complete transfers -/

/-- All addresses of the shard have the bytes of the block's file. -/
def Filled (C : Config) (s : Worker Byte) (u : Nat) : Prop :=
  ∃ ino, s.target u = some ino ∧ s.files.block ino = (s.unit u).block ∧
    ∀ j, j < C.nTensor → ∀ k, k < C.tensorSize → ∃ byte,
      s.mem u j k = some byte ∧ s.files.content ino (s.offset C u + C.tensorSize * j + k) = some byte

structure TransfersComplete (C : Config) (s : Worker Byte) : Prop where
  /-- A unit that succeeded has had an I/O of its own for each address, of the full length. -/
  matched : ∀ u, s.outcome u = some true → ∀ j, j < C.nTensor → s.full u j = true
  /-- Where `Wait` returns OK for a load, it has filled its shards. -/
  loaded : ∀ t s', workerStep C s (.wait (.finished t)) = some s' → waitStatus s.wrapper (.finished t) = some (t, .ok) →
    ∀ u, u < s.nUnit → (s.unit u).owner = t → (s.unit u).isLoad = true → Filled C s u
  /-- The file of a block is committed with all its bytes, which are those of dumps of the block, or were there before. -/
  committed : ∀ b ino, s.files.archived b = some ino → ∀ o, o < C.blockSize → ∃ byte, s.files.content ino o = some byte ∧
      Sourced C s ino b o byte

theorem Worker.CountInv.succeeded (h : s.CountInv) {t u : Nat} (hst : workerStep C s (.wait (.finished t)) = some s')
    (hok : waitStatus s.wrapper (.finished t) = some (t, .ok)) (hu : u < s.nUnit) (ho : (s.unit u).owner = t) :
    s.outcome u = some true := by
  simp only [workerStep, waitStep, Option.map_eq_some_iff, Option.ite_none_right_eq_some] at hst
  obtain ⟨w, ⟨⟨hwait, hz⟩, -⟩, -⟩ := hst
  have hf : s.wrapper.failureSet t = false := by
    by_contra hf
    rw [Bool.not_eq_false] at hf
    simp [waitStatus, hf] at hok
  have hpend : ¬(u ∈ s.queue ∨ s.pc.unit = some u) := by
    intro hp
    have := h.acc.counter_pos hu (decide_eq_true hp)
    rw [ho, hz] at this
    exact absurd this (lt_irrefl 0)
  rw [not_or] at hpend
  rcases h.marks u hu hpend.1 (fun hp => absurd hp hpend.2) with hs | hm | hr
  · exact hs
  · rw [ho, hf] at hm
    cases hm
  · rw [ho, hwait] at hr
    cases hr

theorem transfers_complete (hC : C.shardSize = C.tensorSize) (h : Reach (worker C) (Clean C) s) : TransfersComplete C s := by
  have hi := reach_transferInv hC h
  have hone : C.nTensor = 1 := by
    unfold Config.nTensor
    rw [hC, Nat.div_self (Nat.pos_of_ne_zero C.tensor_pos)]
  refine ⟨fun u hu j hj => ?_, fun t s' hst hok u hu ho hl => ?_, fun b ino hb o ho => ?_⟩
  · rw [hone, Nat.lt_one_iff] at hj
    exact hj ▸ (hi.moved u hu).full
  · have hs := (reach_countInv h).succeeded hst hok hu ho
    obtain ⟨ino, ht, -, hblock, hbytes⟩ := (hi.moved u hs).load hl
    refine ⟨ino, ht, hblock, fun j hj k hk => ?_⟩
    rw [hone, Nat.lt_one_iff] at hj
    subst hj
    exact hbytes k hk
  · obtain ⟨-, hblock, hall⟩ := hi.named.archived b ino hb
    obtain ⟨byte, hbyte⟩ := Option.isSome_iff_exists.mp (hall o ho)
    exact ⟨byte, hbyte, hblock ▸ (reach_sourceInv hC h).content ino o byte hbyte⟩

/-! ## Runs -/

def Worker.fresh : Worker Nat where
  wrapper := .init
  nUnit := 0
  unit _ := ⟨0, false, 0, 0, fun _ _ => 0⟩
  queue := []
  pc := .idle
  ior _ := .new
  iov _ := 0
  mem _ _ _ := none
  files := ⟨0, fun _ => none, fun _ => none, fun _ _ => none, fun _ => 0⟩
  target _ := none
  outcome _ := none
  full _ _ := false
  counted _ := 0
  old _ _ := none

theorem fresh_init : Worker.fresh.IsInit C := by
  constructor <;> first | rfl | (intros; rfl) | nofun

def quietCheck (ior : Bool → Ring) (read : Bool) : Bool := ior read = .new && (ior (!read)).inflight = []

/-- Checks `Clean`. -/
def cleanCheck (C : Config) (s : Worker Byte) : WorkerLabel Byte → Bool
  | .fill =>
    match s.pc with
    | .registered u ino =>
      quietCheck s.ior false && (List.range (C.shardSize * (s.unit u).index)).all fun o => (s.files.content ino o).isSome
    | _ => true
  | .prepIo _ =>
    match s.pc with
    | .registered _ _ => quietCheck s.ior true
    | _ => true
  | .complete _ _ (some moved) => moved = C.tensorSize
  | _ => true

theorem quietCheck_ok {ior : Bool → Ring} {read : Bool} (h : quietCheck ior read = true) : Quiet ior read := by
  simp only [quietCheck, Bool.and_eq_true, decide_eq_true_eq] at h
  exact ⟨h.1, h.2⟩

theorem cleanCheck_ok (h : cleanCheck C s l = true) : Clean C s l := by
  cases l with
  | fill =>
    intro u ino hpc
    simp only [cleanCheck, hpc, Bool.and_eq_true, List.all_eq_true, List.mem_range] at h
    exact ⟨quietCheck_ok h.1, fun _ _ o ho => h.2 o ho⟩
  | prepIo ok =>
    intro u ino hpc
    simp only [cleanCheck, hpc] at h
    exact quietCheck_ok h
  | complete read moved result =>
    cases result with
    | none => trivial
    | some n =>
      show n = C.tensorSize
      exact of_decide_eq_true h
  | _ => trivial

def oneTensor : Config := ⟨2, 2, 2, by decide, by decide, by decide, by decide, by decide⟩

def dumpUnit (moved : Nat) : List (WorkerLabel Nat) :=
  [.start, .open_ true, .register true, .fill, .prepIo true, .submitIos true true, .complete false moved (some moved),
    .waitForIos true, .check]

def loadUnit (moved : Nat) : List (WorkerLabel Nat) :=
  [.start, .open_ true, .register true, .prepIo true, .submitIos true true, .complete true moved (some moved),
    .waitForIos true, .check, .copyOut]

/-- A block of one shard is dumped and loaded. -/
def dumpAndLoad (moved : Nat) : List (WorkerLabel Nat) :=
  [.submit false [(7, 0, fun j k => 10 * j + k)]] ++ dumpUnit moved ++ [.commit true, .finish, .count,
    .submit true [(7, 0, fun _ _ => 0)]] ++
    loadUnit moved ++ [.finish, .count, .wait (.call 1)]

theorem transfers_complete_load : ∃ s s', workerStep oneTensor s (.wait (.finished 1)) = some s' ∧
    s.mem 1 0 1 = some 1 ∧ TransfersComplete oneTensor s := by
  obtain ⟨s, hr, hs⟩ := exists_of_replayOk (S := worker oneTensor) (cleanCheck oneTensor) (fun _ _ => cleanCheck_ok)
      (dumpAndLoad 2)
    (s := .fresh) (p := fun s => decide ((workerStep oneTensor s (.wait (.finished 1))).isSome = true ∧ s.mem 1 0 1 = some 1))
    fresh_init (by decide)
  obtain ⟨hs, hm⟩ := of_decide_eq_true hs
  obtain ⟨s', hs'⟩ := Option.isSome_iff_exists.mp hs
  exact ⟨s, s', hs', hm, transfers_complete rfl hr⟩

/-! ## The failing runs -/

theorem not_complete {u j : Nat} (hs : s.outcome u = some true) (hj : j < C.nTensor) (hf : s.full u j = false) :
    ¬TransfersComplete C s := by
  intro h
  rw [h.matched u hs j hj] at hf
  cases hf

def twoTensors : Config := ⟨1, 2, 2, by decide, by decide, by decide, by decide, by decide⟩

def twoShards : Config := ⟨2, 2, 4, by decide, by decide, by decide, by decide, by decide⟩

/-- The wait for the first dump fails; the second takes its completion. -/
def staleCompletion : List (WorkerLabel Nat) :=
  [.submit false [(7, 0, fun _ k => k)], .start, .open_ true, .register true, .fill, .prepIo true, .submitIos true true,
    .waitForIos false,
    .commit true, .finish, .count, .submit false [(8, 0, fun _ k => 10 + k)], .start, .open_ true, .register true,
    .fill, .prepIo true,
    .submitIos true true, .complete false 2 (some 2), .waitForIos true, .check, .commit true]

/-- A dump of the last shard alone. -/
def lastAlone : List (WorkerLabel Nat) := [.submit false [(7, 1, fun _ k => k)]] ++ dumpUnit 2 ++ [.commit true]

theorem transfers_incomplete :
    (∃ s : Worker Nat, Reach (worker twoTensors) Any s ∧ s.mem 1 1 0 = none ∧
      waitStatus s.wrapper (.finished 1) = some (1, .ok) ∧ ¬TransfersComplete twoTensors s) ∧
    (∃ s : Worker Nat, Reach (worker oneTensor) Any s ∧ s.files.content 0 1 = none ∧
      waitStatus s.wrapper (.finished 1) = some (1, .ok) ∧ ¬TransfersComplete oneTensor s) ∧
    (∃ s : Worker Nat, Reach (worker oneTensor) Any s ∧ s.files.archived 8 = some 1 ∧ s.files.content 1 0 = none ∧
      ¬TransfersComplete oneTensor s) ∧
    (∃ s : Worker Nat, Reach (worker twoShards) Any s ∧ s.files.archived 7 = some 0 ∧ s.files.content 0 0 = none ∧
      ¬TransfersComplete twoShards s) := by
  refine ⟨?_, ?_, ?_, ?_⟩
  · obtain ⟨s, hr, hs⟩ := exists_of_replay (S := worker twoTensors) (dumpAndLoad 1) (s := .fresh)
      (p := fun s => decide (s.mem 1 1 0 = none ∧ waitStatus s.wrapper (.finished 1) = some (1, .ok) ∧
        s.outcome 1 = some true ∧ s.full 1 1 = false)) fresh_init (by decide)
    obtain ⟨hm, hok, ho, hf⟩ := of_decide_eq_true hs
    exact ⟨s, hr, hm, hok, not_complete ho (by decide) hf⟩
  · obtain ⟨s, hr, hs⟩ := exists_of_replay (S := worker oneTensor) (dumpAndLoad 0) (s := .fresh)
      (p := fun s => decide (s.files.content 0 1 = none ∧ waitStatus s.wrapper (.finished 1) = some (1, .ok) ∧
        s.outcome 1 = some true ∧ s.full 1 0 = false)) fresh_init (by decide)
    obtain ⟨hm, hok, ho, hf⟩ := of_decide_eq_true hs
    exact ⟨s, hr, hm, hok, not_complete ho (by decide) hf⟩
  · obtain ⟨s, hr, hs⟩ := exists_of_replay (S := worker oneTensor) staleCompletion (s := .fresh)
      (p := fun s => decide (s.files.archived 8 = some 1 ∧ s.files.content 1 0 = none)) fresh_init (by decide)
    obtain ⟨ha, hc⟩ := of_decide_eq_true hs
    refine ⟨s, hr, ha, hc, fun h => ?_⟩
    obtain ⟨byte, hbyte, -⟩ := h.committed 8 1 ha 0 (by decide)
    rw [hc] at hbyte
    cases hbyte
  · obtain ⟨s, hr, hs⟩ := exists_of_replay (S := worker twoShards) lastAlone (s := .fresh)
      (p := fun s => decide (s.files.archived 7 = some 0 ∧ s.files.content 0 0 = none)) fresh_init (by decide)
    obtain ⟨ha, hc⟩ := of_decide_eq_true hs
    refine ⟨s, hr, ha, hc, fun h => ?_⟩
    obtain ⟨byte, hbyte, -⟩ := h.committed 7 0 ha 0 (by decide)
    rw [hc] at hbyte
    cases hbyte

end UnifiedCache.Ds3fs
