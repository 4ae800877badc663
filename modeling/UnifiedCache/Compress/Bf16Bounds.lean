/-
  UnifiedCache.Compress.Bf16Bounds — which bytes the BF16 decompressors are safe on
  (see `UnifiedCache.Compress.Bf16Checked`).

  Both trust the header's table and marks: the mark loop goes on until it has the symbols of a block,
  whatever the items' lengths and however many marks the header counts, and the table is not put
  through `ts_check_lut` as `TunstallDecompress` does. In place the header and its marks are at least
  compared with the stream's length. With NEON the FP8 path in place counts in `int`, which not every
  length it accepts fits in.

  - `fillBlockIn_spec`: with enough symbols among the announced marks the loop ends among them.
  - `decodeBlocksIn_spec`: out of place every access is then inside.
  - `Bounded`: in place, what is left of the streams lies in the buffer or in the tail. Kept by the
    moves (`spillIfSmallIn_spec`, `makeRoomIn_spec`) and by a group (`groupIn_spec`).
  - `decompressFp8InplaceNeon_iff`: the lengths on which the loops of the NEON path stay inside.
  - `bf16_decoders_safe_iff`: the streams on which both end, stay inside and reject what is malformed.
-/

import Mathlib.Algebra.Order.BigOperators.Group.Finset
import UnifiedCache.Compress.Bf16Agree
import UnifiedCache.Compress.Bf16Checked

namespace UnifiedCache.Compress

open UnifiedCache.Base

/-! ## The condition -/

/-- `n_mark` of the stream in the upper half of the `n` bytes at `p`. -/
def announcedMarks (m : Mem) (p : Ptr) (n : Nat) : Nat := m.load32 (p + n / 2 + Header.dynNMark)

/-- The table of the stream. -/
def streamLut (m : Mem) (p : Ptr) (n : Nat) : Lut := loadLut m (p + n / 2 + Header.dynLut)

/-- The length of the item that mark `i` picks. -/
def markLen (m : Mem) (p : Ptr) (n i : Nat) : Nat :=
  (streamLut m p n (m (p + n / 2 + Header.dynamicLen + i)).toNat).c.toNat

/-- The symbols of the first `k` marks. -/
def symbols (len : Nat → Nat) (k : Nat) : Nat := ∑ i ∈ Finset.range k, len i

/-- A stream that gives `n` symbols: its header and its marks lie in it, its table passes the check, and
    the marks up to the last symbol pick items that are not empty. -/
structure WellFormed (m : Mem) (p : Ptr) (n : Nat) : Prop where
  fits : Header.dynamicLen + announcedMarks m p n ≤ n / 2
  table : checkLut (streamLut m p n) = .tsOk
  marks : ∃ k, k ≤ announcedMarks m p n ∧ (∀ i, i < k → markLen m p n i ≠ 0) ∧ n ≤ symbols (markLen m p n) k

/-- The checks that both decompressors make let the stream through. -/
structure Admits (m : Mem) (p : Ptr) (n : Nat) : Prop where
  pos : 0 < n
  max : n ≤ 0xFFFFFFFF
  tunstall : isTunstall m p n = true
  even : announcedMarks m p n % 2 = 0
  srcLen : m.load32 (p + n / 2 + Header.dynSrcLen) = n

/-- The mode says that the bytes are a Tunstall stream, and they are not one of `n` symbols. -/
def Malformed (m : Mem) (p : Ptr) (n : Nat) : Prop :=
  isTunstall m p n = true ∧
    ¬ (announcedMarks m p n % 2 = 0 ∧ m.load32 (p + n / 2 + Header.dynSrcLen) = n ∧ WellFormed m p n)

/-- `TunstallDecompressBF16` ends, inside its buffers and among the announced marks, and does not take
    a malformed stream; on the scalar path with the result of the loops without checks. -/
def SafeOutOfPlace (neon : Bool) (m : Mem) (p : Ptr) (n : Nat) : Prop :=
  ∀ dst buf, ∃ r, tunstallDecompressBF16In neon m dst p n buf = .ok r ∧
    (neon = false → tunstallDecompressBF16 m dst p n buf = some r) ∧ (Malformed m p n → r.1 ≠ .tsOk)

/-- The same of `TunstallDecompressBF16Inplace`, wherever its stack frame is. -/
def SafeInplace (neon : Bool) (m : Mem) (p : Ptr) (n : Nat) : Prop :=
  ∀ tail buf, tail.blk ≠ p.blk → ∃ r, tunstallDecompressBF16InplaceIn neon m p tail n buf = .ok r ∧
    (neon = false → tunstallDecompressBF16Inplace m p tail n buf = some r) ∧ (Malformed m p n → ∃ e, r = .error e)

/-- Both are safe on the bytes at `p`. -/
def DecodersSafe (neon : Bool) (m : Mem) (p : Ptr) (n : Nat) : Prop := SafeOutOfPlace neon m p n ∧ SafeInplace neon m p n

/-- The bytes are taken for FP8. -/
structure TakenForFp8 (m : Mem) (p : Ptr) (n : Nat) : Prop where
  pos : 0 < n
  max : n ≤ 0xFFFFFFFF
  fp8 : isTunstall m p n = false

/-- The `int` indices of the NEON loops stay inside `n` elements: `n` is an `int`, or as an `int` it is
    negative and no round is made. -/
def IndexFits (n : Nat) : Prop := n < 2147483648 ∨ 2147483648 < n ∧ n % 16 = 0

/-! ## Objects -/

namespace Region

variable {r : Region} {p q : Ptr} {len len' : Nat}

theorem covers_of_le (h : r.covers p len) (hblk : q.blk = p.blk) (hlo : p.off ≤ q.off) (hhi : q.off + len' ≤ p.off + len) :
    r.covers q len' := by
  obtain ⟨h1, h2, h3⟩ := h
  exact ⟨hblk.trans h1, by omega, by omega⟩

theorem covers_base (base : Ptr) {size a : Nat} (h : a + len ≤ size) : (Region.mk base size).covers (base + a) len := by
  refine ⟨rfl, Nat.le_add_right _ _, ?_⟩
  simp only [Ptr.add_off]
  omega

end Region

/-! ## The mark loop -/

theorem symbols_mono (len : Nat → Nat) {a b : Nat} (h : a ≤ b) : symbols len a ≤ symbols len b :=
  Finset.sum_le_sum_of_subset (Finset.range_mono h)

theorem symbols_succ (len : Nat → Nat) (k : Nat) : symbols len (k + 1) = symbols len k + len k := Finset.sum_range_succ _ _

section Fill

variable {region table : Region} {lutAt mark : Ptr} {lut : Lut} {m : Mem} {len : Nat → Nat} {n total k left : Nat}

/-- `left` marks from the `k`-th on lie at `mark`, in the object. -/
structure Ahead (region : Region) (lut : Lut) (m : Mem) (len : Nat → Nat) (mark : Ptr) (k left : Nat) : Prop where
  inside : ∀ j, j < left → region.covers (mark + j) 1
  item : ∀ j, j < left → (lut (m (mark + j)).toNat).c.toNat = len (k + j)

theorem Ahead.skip (h : Ahead region lut m len mark k left) (j : Nat) : Ahead region lut m len (mark + j) (k + j) (left - j) := by
  refine ⟨fun i hi => ?_, fun i hi => ?_⟩
  · rw [Ptr.add_add]
    exact h.inside _ (by omega)
  · rw [Ptr.add_add, h.item _ (by omega), Nat.add_assoc]

/-- The first `total` marks give `n` symbols, by items of one to seven. -/
structure Supply (len : Nat → Nat) (total n : Nat) : Prop where
  pos : ∀ i, i < total → len i ≠ 0
  le : ∀ i, i < total → len i ≤ tsItemSize
  enough : n ≤ symbols len total

theorem Supply.lt (h : Supply len total n) (hk : symbols len k < n) : k < total := by
  by_contra hge
  have := symbols_mono len (Nat.le_of_not_lt hge)
  have := h.enough
  omega

theorem fillBlock_stop {blockEnd write : Nat} (h : ¬ write < blockEnd) (fuel : Nat) (mark : Ptr) (buf : Nat → UInt8) :
    fillBlock lut m blockEnd fuel write mark buf = some (write, mark, buf) := by
  cases fuel with
  | zero => rw [fillBlock, if_neg h]
  | succ fuel => rw [fillBlock, if_neg h]

theorem fillBlockIn_stop {blockEnd write : Nat} (h : ¬ write < blockEnd) (left : Nat) (mark : Ptr) (buf : Nat → UInt8) :
    fillBlockIn region table lutAt lut m blockEnd left write mark buf = .ok (left, write, mark, buf) := by
  cases left with
  | zero => rw [fillBlockIn, if_neg h]
  | succ left => rw [fillBlockIn, if_neg h]

/-- By induction on the marks left: a block's symbols come from announced marks, each inside. -/
theorem fillBlockIn_spec {iBlock blockEnd : Nat} (hs : Supply len total n)
    (htable : ∀ b : UInt8, table.covers (lutAt + 8 * b.toNat) 8) (hblock : blockEnd ≤ blockSize) (hend : iBlock + blockEnd ≤ n) :
    ∀ (left fuel k write : Nat) (mark : Ptr) (buf : Nat → UInt8), total ≤ k + left → blockEnd ≤ write + fuel →
      symbols len k = iBlock + write → Ahead region lut m len mark k left →
      ∃ j write' buf', j ≤ left ∧
        fillBlockIn region table lutAt lut m blockEnd left write mark buf = .ok (left - j, write', mark + j, buf') ∧
        fillBlock lut m blockEnd fuel write mark buf = some (write', mark + j, buf') ∧
        symbols len (k + j) = iBlock + write' ∧ blockEnd ≤ write' := by
  intro left
  induction left with
  | zero =>
    intro fuel k write mark buf htotal hfuel hsym _
    have hstop : ¬ write < blockEnd := by
      intro hlt
      have := hs.lt (k := k) (by omega)
      omega
    exact ⟨0, write, buf, Nat.le_refl 0, fillBlockIn_stop hstop _ _ _, fillBlock_stop hstop _ _ _, hsym, by omega⟩
  | succ left ih =>
    intro fuel k write mark buf htotal hfuel hsym hahead
    by_cases hlt : write < blockEnd
    · obtain ⟨fuel, rfl⟩ : ∃ f, fuel = f + 1 := ⟨fuel - 1, by omega⟩
      have hk : k < total := hs.lt (by omega)
      have hmark := hahead.inside 0 (by omega)
      have hitem := hahead.item 0 (by omega)
      rw [Ptr.add_zero] at hmark
      rw [Ptr.add_zero, Nat.add_zero] at hitem
      have hpos := hs.pos k hk
      have hring : inRing write 8 := by
        unfold inRing blockTail
        omega
      have hstep := symbols_succ len k
      obtain ⟨j, write', buf', hj, hin, hfill, hsym', hge⟩ := ih fuel (k + 1) (write + (lut (m mark).toNat).c.toNat) (mark + 1)
        (fun j => if write ≤ j ∧ j < write + 8 then ((lut (m mark).toNat).bytes[j - write]?).getD 0 else buf j) (by omega)
        (by rw [hitem]; omega) (by rw [hitem]; omega) (hahead.skip 1)
      refine ⟨j + 1, write', buf', by omega, ?_, ?_, ?_, hge⟩
      · rw [fillBlockIn, if_pos hlt, if_pos ⟨hmark, htable _, hring⟩, Nat.add_comm j 1, ← Ptr.add_add,
          show left + 1 - (1 + j) = left - j by omega]
        exact hin
      · rw [fillBlock, if_pos hlt, Nat.add_comm j 1, ← Ptr.add_add]
        exact hfill
      · rw [← hsym', Nat.add_assoc, Nat.add_comm 1 j]
    · exact ⟨0, write, buf, Nat.zero_le _, fillBlockIn_stop hlt _ _ _, fillBlock_stop hlt _ _ _, hsym, by omega⟩

end Fill

/-! ## Out of place -/

section OutOfPlace

variable {m : Mem} {p e : Ptr} {n : Nat}

theorem AtGroup.assembleNeon {g : Nat} {s : Decoder} (h : AtGroup p e g s) {extraFinal : Ptr} {read : Nat} :
    AtGroup p e (g + 1) (s.assembleNeon m extraFinal read) := by
  refine ⟨?_, ?_, ?_⟩
  · show s.src + 16 = p + 16 * (g + 1)
    rw [h.src, Ptr.add_add, Nat.mul_succ]
  · show s.extra + 4 = e + 4 * (g + 1)
    rw [h.extra, Ptr.add_add, Nat.mul_succ]
  · show s.pDst + 32 = 32 * (g + 1)
    rw [h.pDst, Nat.mul_succ]

/-- A group's accesses: the signs are in the lower half, the extra bytes are taken up to the last four. -/
theorem AtGroup.assembleIn {g read : Nat} {s : Decoder} (h : AtGroup p e g s) (neon : Bool) (hblk : e.blk = p.blk)
    (hlo : p.off ≤ e.off) (hg : g < n / 32) (hread : read + 32 ≤ blockSize) :
    ∃ t, s.assembleIn neon m ⟨p, n⟩ (p + (n - 4)) n read = .ok t ∧ AtGroup p e (g + 1) t ∧
      t.buf = s.buf ∧ t.write = s.write ∧ t.mark = s.mark ∧ (neon = false → t = s.assemble m (p + (n - 4)) read) := by
  have hring : inRing read 32 := by
    unfold inRing blockTail
    omega
  have hsrc : (Region.mk p n).covers s.src 16 := by
    rw [h.src]
    exact Region.covers_base p (by omega)
  have hextra : s.extra.off ≤ (p + (n - 4)).off → (Region.mk p n).covers s.extra 4 := by
    intro hle
    rw [h.extra] at hle ⊢
    refine ⟨hblk, ?_, ?_⟩
    · simp only [Ptr.add_off]
      omega
    · simp only [Ptr.add_off] at hle ⊢
      omega
  have hdst : s.pDst + 32 ≤ n := by
    rw [h.pDst]
    omega
  unfold Decoder.assembleIn
  rw [if_pos ⟨hring, hsrc, hextra, hdst⟩]
  cases neon with
  | false => exact ⟨s.assemble m _ read, rfl, h.assemble, rfl, rfl, rfl, fun _ => rfl⟩
  | true => exact ⟨s.assembleNeon m _ read, rfl, h.assembleNeon, rfl, rfl, rfl, nofun⟩

theorem assembleBlockIn_spec (neon : Bool) {blockEnd : Nat} (hblk : e.blk = p.blk) (hlo : p.off ≤ e.off)
    (hblock : blockEnd ≤ blockSize) :
    ∀ (c read g : Nat) (s : Decoder), blockEnd = read + 32 * c → g + c ≤ n / 32 → AtGroup p e g s →
      ∃ t, assembleBlockIn neon m ⟨p, n⟩ (p + (n - 4)) n blockEnd read s = .ok t ∧ AtGroup p e (g + c) t ∧
        t.buf = s.buf ∧ t.write = s.write ∧ t.mark = s.mark ∧
        (neon = false → t = assembleBlock m (p + (n - 4)) blockEnd read s) := by
  intro c
  induction c with
  | zero =>
    intro read g s hend _ hat
    unfold assembleBlockIn assembleBlock
    rw [if_neg (by omega), if_neg (by omega)]
    exact ⟨s, rfl, hat, rfl, rfl, rfl, fun _ => rfl⟩
  | succ c ih =>
    intro read g s hend hg hat
    obtain ⟨t, ht, hat', hbuf, hwrite, hmark, hscalar⟩ := hat.assembleIn (n := n) (m := m) neon hblk hlo (by omega)
      (show read + 32 ≤ blockSize by omega)
    obtain ⟨u, hu, hau, hub, huw, hum, hus⟩ := ih (read + 32) (g + 1) t (by omega) (by omega) hat'
    unfold assembleBlockIn assembleBlock
    rw [if_pos (by omega), if_pos (by omega), ht]
    refine ⟨u, hu, ?_, hub.trans hbuf, huw.trans hwrite, hum.trans hmark, fun hn => ?_⟩
    · rw [← Nat.add_assoc, Nat.add_right_comm]
      exact hau
    · rw [hus hn, hscalar hn]

/-- By induction on the blocks: `k` marks are read before the block at `iBlock`. -/
theorem decodeBlocksIn_spec (neon : Bool) {lut : Lut} {lutAt : Ptr} {len : Nat → Nat} {total : Nat} (hs : Supply len total n)
    (hcount : n % 32 = 0) (htable : ∀ b : UInt8, (Region.mk p n).covers (lutAt + 8 * b.toNat) 8) (hblk : e.blk = p.blk)
    (hlo : p.off ≤ e.off) :
    ∀ (b iBlock k left : Nat) (s : Decoder), n ≤ iBlock + blockSize * b → iBlock % blockSize = 0 →
      AtGroup p e (iBlock / 32) s → symbols len k = iBlock + s.write → total ≤ k + left →
      Ahead ⟨p, n⟩ lut m len s.mark k left →
      ∃ dst, decodeBlocksIn neon lut m ⟨p, n⟩ lutAt (p + (n - 4)) n iBlock left s = .ok dst ∧
        (neon = false → decodeBlocks lut m (p + (n - 4)) n iBlock s = some dst) := by
  have h8192 : blockSize = 8192 := rfl
  intro b
  induction b with
  | zero =>
    intro iBlock k left s hb _ _ _ _ _
    unfold decodeBlocksIn decodeBlocks
    rw [if_neg (by omega), if_neg (by omega)]
    exact ⟨s.dst, rfl, fun _ => rfl⟩
  | succ b ih =>
    intro iBlock k left s hb hmod hat hsym htotal hahead
    have hmod' : iBlock % 8192 = 0 := hmod
    rw [Nat.mul_succ] at hb
    unfold decodeBlocksIn decodeBlocks
    by_cases hlt : iBlock < n
    · rw [if_pos hlt, if_pos hlt]
      generalize hbe : (if n - iBlock < blockSize then n - iBlock else blockSize) = blockEnd
      have hbe' : blockEnd ≤ blockSize ∧ iBlock + blockEnd ≤ n ∧ blockEnd % 32 = 0 ∧
          (blockEnd = blockSize ∨ iBlock + blockEnd = n) := by
        split at hbe <;> omega
      obtain ⟨j, write', buf', hj, hin, hfill, hsym', hge⟩ := fillBlockIn_spec (m := m) hs htable hbe'.1 hbe'.2.1 left blockSize k
        s.write s.mark s.buf htotal (by omega) hsym hahead
      obtain ⟨t, ht, hat', -, hwrite, hmark, hscalar⟩ := assembleBlockIn_spec (m := m) (n := n) neon hblk hlo hbe'.1
        (blockEnd / 32) 0 (iBlock / 32) { s with buf := buf', write := write', mark := s.mark + j } (by omega) (by omega)
        ⟨hat.src, hat.extra, hat.pDst⟩
      simp only [hin, hfill, ht]
      rw [if_pos (show inRing blockSize blockTail from Nat.le_refl _)]
      have hsame : neon = false → decodeBlocks lut m (p + (n - 4)) n (iBlock + blockSize)
          (assembleBlock m (p + (n - 4)) blockEnd 0 { s with buf := buf', write := write', mark := s.mark + j }).nextBlock =
          decodeBlocks lut m (p + (n - 4)) n (iBlock + blockSize) t.nextBlock := fun hn => by rw [hscalar hn]
      rcases hbe'.2.2.2 with hfull | hlast
      · have hnext : AtGroup p e ((iBlock + blockSize) / 32) t.nextBlock := by
          rw [show (iBlock + blockSize) / 32 = iBlock / 32 + blockEnd / 32 by omega]
          exact ⟨hat'.src, hat'.extra, hat'.pDst⟩
        have hsymNext : symbols len (k + j) = iBlock + blockSize + t.nextBlock.write := by
          show symbols len (k + j) = iBlock + blockSize + (t.write - blockSize)
          rw [hwrite, hsym']
          show iBlock + write' = iBlock + blockSize + (write' - blockSize)
          omega
        have haheadNext : Ahead ⟨p, n⟩ lut m len t.nextBlock.mark (k + j) (left - j) := by
          show Ahead _ _ _ _ t.mark _ _
          rw [hmark]
          exact hahead.skip j
        obtain ⟨dst, hdst, hd⟩ := ih (iBlock + blockSize) (k + j) (left - j) t.nextBlock (by omega)
          (show (iBlock + 8192) % 8192 = 0 by omega) hnext hsymNext (by omega) haheadNext
        exact ⟨dst, hdst, fun hn => (hsame hn).trans (hd hn)⟩
      · -- the last block: the loop ends whatever it carries
        refine ⟨t.nextBlock.dst, ?_, fun hn => (hsame hn).trans ?_⟩
        · unfold decodeBlocksIn
          rw [if_neg (by omega)]
        · unfold decodeBlocks
          rw [if_neg (by omega)]
    · rw [if_neg hlt, if_neg hlt]
      exact ⟨s.dst, rfl, fun _ => rfl⟩

end OutOfPlace

/-! ## In place -/

theorem Streams.spill_places {st st' : Streams} {m m' : Mem} {tail : Ptr} {size : Nat}
    (h : st.spill m tail size = .ok (m', st')) : st'.mark = tail ∧ st'.extent = st.extent := by
  unfold Streams.spill at h
  simp only at h
  split at h
  · cases h
  · obtain ⟨-, rfl⟩ := Prod.mk.inj (Except.ok.inj h)
    refine ⟨rfl, ?_⟩
    unfold Streams.extent
    simp only [Ptr.add_off, Nat.add_sub_cancel_left]

section Inplace

variable {marks : List Nat} {Y S : Nat → UInt8} {n : Nat} {p : Ptr} {tail : Region} {k g : Nat} {s : Inplace}

/-- What is left of the streams lies in the buffer, or in the tail once it has moved there. -/
structure Bounded (marks : List Nat) (Y S : Nat → UInt8) (n : Nat) (p : Ptr) (tail : Region) (k g : Nat) (s : Inplace) :
    Prop where
  held : Held s.mem s.streams marks Y S n k g
  inside : (s.home ⟨p, 2 * n⟩ tail).covers s.streams.mark s.streams.extent

namespace Bounded

/-- Bytes between the first mark and the last sign. -/
theorem covers (h : Bounded marks Y S n p tail k g s) {q : Ptr} {len : Nat} (hblk : q.blk = s.streams.mark.blk)
    (hlo : s.streams.mark.off ≤ q.off) (hhi : q.off + len ≤ s.streams.smEnd.off) : (s.home ⟨p, 2 * n⟩ tail).covers q len := by
  refine Region.covers_of_le h.inside hblk hlo ?_
  unfold Streams.extent
  omega

theorem sm_end (h : Bounded marks Y S n p tail k g s) : s.streams.smEnd.off = s.streams.sm.off + smLeft n g := by
  rw [h.held.smEnd, Ptr.add_off]

theorem ahead {lut : Lut} {len : Nat → Nat} (h : Bounded marks Y S n p tail k g s)
    (hitem : ∀ i b, some b = (marks[i]?).map UInt8.ofNat → (lut b.toNat).c.toNat = len i) :
    Ahead (s.home ⟨p, 2 * n⟩ tail) lut s.mem len s.streams.mark k (marks.length - k) := by
  have hg := h.held.markGap
  have hg' := h.held.extraGap
  have hend := h.sm_end
  refine ⟨fun j hj => h.covers rfl (Nat.le_add_right _ _) ?_, fun j hj => hitem (k + j) _ (h.held.atMark j (by omega))⟩
  simp only [Ptr.add_off]
  omega

theorem read (h : Bounded marks Y S n p tail k g s) (write : Nat) (buf : Nat → UInt8) {j : Nat} (hle : k + j ≤ marks.length) :
    Bounded marks Y S n p tail (k + j) g { s with write, buf, streams := { s.streams with mark := s.streams.mark + j } } := by
  have hg := h.held.markGap
  have hg' := h.held.extraGap
  have hend := h.sm_end
  have hheld := h.held.read (Nat.le_add_right k j) hle
  rw [Nat.add_sub_cancel_left] at hheld
  refine ⟨hheld, h.covers rfl (Nat.le_add_right _ _) ?_⟩
  unfold Streams.extent
  simp only [Ptr.add_off]
  omega

theorem consume (h : Bounded marks Y S n p tail k g s) (hsm : 16 ≤ smLeft n g) :
    Bounded marks Y S n p tail k (g + 1) s.consume := ⟨(h.held.consume hsm).1, h.inside⟩

theorem consumeIn (h : Bounded marks Y S n p tail k g s) (hsm : 16 ≤ smLeft n g) : s.consumeIn ⟨p, 2 * n⟩ tail := by
  have hg := h.held.markGap
  have hg' := h.held.extraGap
  have hend := h.sm_end
  have hxe : s.streams.extraEnd.off = s.streams.extra.off + extraLeft n marks.length g := by rw [h.held.extraEnd, Ptr.add_off]
  exact ⟨h.covers h.held.smBlk (by omega) (by omega), fun hx => h.covers h.held.extraBlk (by omega) (by omega)⟩

/-- A group is stored below what is left, or beside it. -/
theorem store (h : Bounded marks Y S n p tail k g s) {dst : Ptr} {f : Nat → UInt16}
    (hclear : s.streams.mark.blk ≠ dst.blk ∨ dst.off + 64 ≤ s.streams.firstSrc.off) :
    Bounded marks Y S n p tail k g { s with mem := s.mem.storeBytes dst (groupBytes f), dst := dst + 64 } := by
  refine ⟨h.held.store fun q hblk hlo => Mem.storeBytes_of_ne _ _ fun a ha => ?_, h.inside⟩
  rw [length_groupBytes] at ha
  intro e
  subst e
  rcases hclear with hc | hc
  · exact hc hblk.symm
  · simp only [Ptr.add_off] at hlo
    omega

end Bounded

/-- The move to the tail copies what is left, and keeps it. -/
theorem spillIfSmallIn_spec (h : Bounded marks Y S n p tail k g s) (hsize : tail.size = inplaceTailBytes) :
    ∃ t, s.spillIfSmallIn ⟨p, 2 * n⟩ tail = .ok (.ok t) ∧ Bounded marks Y S n p tail k g t ∧ t.dst = s.dst ∧
      t.write = s.write := by
  by_cases hcond : (!s.usingTail && decide (s.streams.extent ≤ inplaceTailBytes)) = true
  · have hparts := hcond
    rw [Bool.and_eq_true, Bool.not_eq_true', decide_eq_true_eq] at hparts
    obtain ⟨hbuffer, hsmall⟩ := hparts
    have hhome := h.inside
    unfold Inplace.home at hhome
    rw [hbuffer, if_neg (by decide)] at hhome
    have htail : tail.covers tail.base s.streams.extent := ⟨rfl, Nat.le_refl _, by omega⟩
    obtain ⟨m', st', he, hheld, -, -⟩ := h.held.spill tail.base hsmall
    obtain ⟨hmark, hextent⟩ := Streams.spill_places he
    unfold Inplace.spillIfSmallIn Inplace.spillIfSmall
    rw [if_pos hcond, if_pos fun _ => ⟨hhome, htail⟩, if_pos hcond, he]
    refine ⟨_, rfl, ⟨hheld, ?_⟩, rfl, rfl⟩
    show tail.covers st'.mark st'.extent
    rw [hmark, hextent]
    exact htail
  · unfold Inplace.spillIfSmallIn
    rw [if_neg hcond]
    exact ⟨s, rfl, h, rfl, rfl⟩

theorem not_blocks {st : Streams} {dst : Ptr} (h : ¬ st.blocks dst = true) : dst.off + 64 ≤ st.firstSrc.off := by
  unfold Streams.blocks at h
  rw [decide_eq_true_eq] at h
  omega

/-- The streams are packed within the bytes they take up. -/
theorem Bounded.compactIn (h : Bounded marks Y S n p tail k g s) (hbuffer : s.usingTail = false) :
    s.streams.compactIn ⟨p, 2 * n⟩ := by
  have hg := h.held.markGap
  have hg' := h.held.extraGap
  have hend := h.sm_end
  have hml : s.streams.markEnd.off - s.streams.mark.off = marks.length - k := by
    rw [h.held.markEnd, Ptr.add_off, Nat.add_sub_cancel_left]
  have hxl : s.streams.extraEnd.off - s.streams.extra.off = extraLeft n marks.length g := by
    rw [h.held.extraEnd, Ptr.add_off, Nat.add_sub_cancel_left]
  have hblk : s.streams.smEnd.blk = s.streams.mark.blk := by rw [h.held.smEnd, Ptr.add_blk, h.held.smBlk]
  have hcovers : ∀ {q : Ptr} {len : Nat}, q.blk = s.streams.mark.blk → s.streams.mark.off ≤ q.off →
      q.off + len ≤ s.streams.smEnd.off → (Region.mk p (2 * n)).covers q len := by
    intro q len h1 h2 h3
    have := h.covers h1 h2 h3
    unfold Inplace.home at this
    rwa [hbuffer, if_neg (by decide)] at this
  unfold Streams.compactIn
  simp only [hml, hxl]
  refine fun _ => ⟨fun _ => ⟨hcovers h.held.extraBlk (by omega) (by omega), hcovers hblk ?_ ?_⟩,
    fun _ => ⟨hcovers rfl (Nat.le_refl _) (by omega), hcovers hblk ?_ ?_⟩⟩ <;> simp only <;> omega

/-- A group that gets its room starts below what is left. -/
theorem makeRoomIn_spec (h : Bounded marks Y S n p tail k g s) (hbuffer : s.usingTail = false) :
    ∃ r, s.makeRoomIn ⟨p, 2 * n⟩ = .ok r ∧ ∀ t, r = .ok t → Bounded marks Y S n p tail k g t ∧ t.dst = s.dst ∧
      t.write = s.write ∧ s.dst.off + 64 ≤ t.streams.firstSrc.off := by
  unfold Inplace.makeRoomIn
  by_cases hb : s.streams.blocks s.dst = true
  · rw [if_pos hb, if_pos (h.compactIn hbuffer)]
    refine ⟨_, rfl, fun t ht => ?_⟩
    obtain ⟨m', st', he, hheld, hblk, hmk, -, hse, -⟩ := h.held.compact
    have hg := h.held.markGap
    have hg' := h.held.extraGap
    unfold Inplace.makeRoom at ht
    rw [if_pos hb, he] at ht
    simp only at ht
    split at ht
    · cases ht
    · next hb' =>
      obtain rfl := Except.ok.inj ht
      have hlo : s.streams.mark.off ≤ st'.mark.off := by omega
      have hhi : st'.mark.off + st'.extent ≤ s.streams.smEnd.off := by
        have hsm : st'.smEnd.off = st'.sm.off + smLeft n g := by rw [hheld.smEnd, Ptr.add_off]
        have h1 := hheld.markGap
        have h2 := hheld.extraGap
        rw [hheld.extent_eq, ← hse]
        omega
      exact ⟨⟨hheld, h.covers hblk hlo hhi⟩, rfl, rfl, not_blocks hb'⟩
  · rw [if_neg hb]
    refine ⟨_, rfl, fun t ht => ?_⟩
    obtain rfl := Except.ok.inj ht
    exact ⟨h, rfl, rfl, not_blocks hb⟩

/-- One group: nothing leaves its object, and what is left stays where it may. -/
theorem groupIn_spec (neon : Bool) (read : Nat) (hcount : n % 32 = 0) (hg : g < n / 32) (htail : tail.base.blk ≠ p.blk)
    (hsize : tail.size = inplaceTailBytes) (hread : read + 32 ≤ blockSize) (h : Bounded marks Y S n p tail k g s)
    (hdst : s.dst = p + 64 * g) :
    ∃ r, s.groupIn neon ⟨p, 2 * n⟩ tail read = .ok r ∧ ∀ t, r = .ok t → Bounded marks Y S n p tail k (g + 1) t ∧
      t.dst = p + 64 * (g + 1) ∧ t.write = s.write := by
  have hsm : 16 ≤ smLeft n g := by
    unfold smLeft
    omega
  obtain ⟨u, hu, hbu, hud, huw⟩ := spillIfSmallIn_spec h hsize
  obtain ⟨v, hv, hbv, hvd, hvw⟩ := spillIfSmallIn_spec (hbu.consume hsm) hsize
  have hlong : ¬ u.streams.smEnd.off - u.streams.sm.off < 16 := by
    rw [hbu.sm_end]
    omega
  have hroom : ∃ r, (if v.usingTail = true then .ok (.ok v) else v.makeRoomIn ⟨p, 2 * n⟩) = Except.ok (ε := Fault) r ∧
      ∀ t, r = .ok t → Bounded marks Y S n p tail k (g + 1) t ∧ t.dst = v.dst ∧ t.write = v.write ∧
        (t.streams.mark.blk ≠ t.dst.blk ∨ t.dst.off + 64 ≤ t.streams.firstSrc.off) := by
    by_cases hut : v.usingTail = true
    · rw [if_pos hut]
      refine ⟨_, rfl, fun t ht => ?_⟩
      obtain rfl := Except.ok.inj ht
      have hin := hbv.inside.1
      unfold Inplace.home at hin
      rw [if_pos hut] at hin
      refine ⟨hbv, rfl, rfl, .inl ?_⟩
      rw [hin, hvd]
      show tail.base.blk ≠ u.dst.blk
      rw [hud, hdst]
      exact htail
    · rw [if_neg hut]
      obtain ⟨r, hr, hall⟩ := makeRoomIn_spec hbv (Bool.not_eq_true _ ▸ hut)
      refine ⟨r, hr, fun t ht => ?_⟩
      obtain ⟨h1, h2, h3, h4⟩ := hall t ht
      exact ⟨h1, h2, h3, .inr (by rw [h2]; exact h4)⟩
  obtain ⟨r, hr, hall⟩ := hroom
  unfold Inplace.groupIn
  simp only [hu, hv, hr]
  rw [if_neg hlong, if_neg (not_not.mpr (hbu.consumeIn hsm))]
  cases r with
  | error e => exact ⟨_, rfl, fun t ht => by cases ht⟩
  | ok t =>
    obtain ⟨hbt, htd, htw, hclear⟩ := hall t rfl
    have hd : t.dst = p + 64 * g := by
      rw [htd, hvd]
      exact hud.trans hdst
    have hring : inRing read 32 := by
      unfold inRing blockTail
      omega
    have hcov : (Region.mk p (2 * n)).covers t.dst 64 := by
      rw [hd]
      exact Region.covers_base p (by omega)
    simp only
    rw [if_pos ⟨hring, hcov⟩]
    refine ⟨_, rfl, fun w hw => ?_⟩
    obtain rfl := Except.ok.inj hw
    refine ⟨hbt.store hclear, ?_, htw.trans (hvw.trans huw)⟩
    show t.dst + 64 = p + 64 * (g + 1)
    rw [hd, Ptr.add_add, Nat.mul_succ]

/-- By induction on the groups left in the block. -/
theorem groupsIn_spec (neon : Bool) {blockEnd : Nat} (hcount : n % 32 = 0) (htail : tail.base.blk ≠ p.blk)
    (hsize : tail.size = inplaceTailBytes) (hblock : blockEnd ≤ blockSize) :
    ∀ (c read g : Nat) (s : Inplace), blockEnd = read + 32 * c → g + c ≤ n / 32 → Bounded marks Y S n p tail k g s →
      s.dst = p + 64 * g →
      ∃ r, s.groupsIn neon ⟨p, 2 * n⟩ tail blockEnd read = .ok r ∧ ∀ t, r = .ok t → Bounded marks Y S n p tail k (g + c) t ∧
        t.dst = p + 64 * (g + c) ∧ t.write = s.write := by
  intro c
  induction c with
  | zero =>
    intro read g s hend _ h hdst
    unfold Inplace.groupsIn
    rw [if_neg (by omega)]
    refine ⟨_, rfl, fun t ht => ?_⟩
    obtain rfl := Except.ok.inj ht
    exact ⟨h, hdst, rfl⟩
  | succ c ih =>
    intro read g s hend hle h hdst
    unfold Inplace.groupsIn
    rw [if_pos (by omega)]
    obtain ⟨r, hr, hall⟩ := groupIn_spec neon read hcount (by omega) htail hsize (by omega) h hdst
    rw [hr]
    cases r with
    | error e => exact ⟨_, rfl, fun t ht => by cases ht⟩
    | ok u =>
      obtain ⟨hbu, hud, huw⟩ := hall u rfl
      obtain ⟨r', hr', hall'⟩ := ih (read + 32) (g + 1) u (by omega) (by omega) hbu hud
      refine ⟨r', hr', fun t ht => ?_⟩
      obtain ⟨h1, h2, h3⟩ := hall' t ht
      rw [Nat.add_right_comm] at h1 h2
      exact ⟨h1, h2, h3.trans huw⟩

/-- By induction on the blocks: the loop ends, without NEON with the result of the loop without checks. -/
theorem blockLoopIn_spec (neon : Bool) {lut : Lut} {table : Region} {lutAt : Ptr} {len : Nat → Nat} {total : Nat}
    (hs : Supply len total n)
    (htotal : total ≤ marks.length) (hitem : ∀ i b, some b = (marks[i]?).map UInt8.ofNat → (lut b.toNat).c.toNat = len i)
    (hcount : n % 32 = 0) (htable : ∀ b : UInt8, table.covers (lutAt + 8 * b.toNat) 8) (htail : tail.base.blk ≠ p.blk)
    (hsize : tail.size = inplaceTailBytes) :
    ∀ (b iBlock k : Nat) (s : Inplace), n ≤ iBlock + blockSize * b → iBlock % blockSize = 0 → k ≤ marks.length →
      Bounded marks Y S n p tail k (iBlock / 32) s → s.dst = p + 64 * (iBlock / 32) → symbols len k = iBlock + s.write →
      ∃ r, s.blockLoopIn neon lut ⟨p, 2 * n⟩ tail table lutAt n iBlock (marks.length - k) = .ok r ∧
        (neon = false → s.blockLoop lut tail.base n iBlock = some r) := by
  have h8192 : blockSize = 8192 := rfl
  intro b
  induction b with
  | zero =>
    intro iBlock k s hb _ _ _ _ _
    unfold Inplace.blockLoopIn Inplace.blockLoop
    rw [if_neg (by omega), if_neg (by omega)]
    exact ⟨_, rfl, fun _ => rfl⟩
  | succ b ih =>
    intro iBlock k s hb hmod hk h hdst hsym
    have hmod' : iBlock % 8192 = 0 := hmod
    rw [Nat.mul_succ] at hb
    unfold Inplace.blockLoopIn Inplace.blockLoop
    by_cases hlt : iBlock < n
    · rw [if_pos hlt, if_pos hlt]
      generalize hbe : (if n - iBlock < blockSize then n - iBlock else blockSize) = blockEnd
      have hbe' : blockEnd ≤ blockSize ∧ iBlock + blockEnd ≤ n ∧ blockEnd % 32 = 0 ∧
          (blockEnd = blockSize ∨ iBlock + blockEnd = n) := by
        split at hbe <;> omega
      obtain ⟨j, write', buf', hj, hin, hfill, hsym', hge⟩ := fillBlockIn_spec hs htable hbe'.1 hbe'.2.1 (marks.length - k)
        blockSize k s.write s.streams.mark s.buf (by omega) (by omega) hsym (h.ahead hitem)
      obtain ⟨r, hr, hall⟩ := groupsIn_spec neon hcount htail hsize hbe'.1 (blockEnd / 32) 0 (iBlock / 32) _ (by omega)
        (by omega) (h.read write' buf' (show k + j ≤ marks.length by omega)) hdst
      have hgroups : neon = false →
          Inplace.groups tail.base blockEnd 0
              { s with write := write', buf := buf', streams := { s.streams with mark := s.streams.mark + j } } =
            r := by
        rintro rfl
        exact Inplace.groupsIn_eq hr
      simp only [hin, hfill, hr]
      cases r with
      | error e => exact ⟨_, rfl, fun hn => by rw [hgroups hn]⟩
      | ok t =>
        obtain ⟨hbt, htd, htw⟩ := hall t rfl
        simp only
        rw [if_pos (show inRing blockSize blockTail from Nat.le_refl _),
          show marks.length - k - j = marks.length - (k + j) by omega]
        rcases hbe'.2.2.2 with hfull | hlast
        · have hnext : t.nextBlock blockEnd = { t with buf := carryTail t.buf, write := t.write - blockSize } := by
            unfold Inplace.nextBlock
            rw [if_pos hfull]
          have hg : (iBlock + blockSize) / 32 = iBlock / 32 + blockEnd / 32 := by omega
          have hbounded : Bounded marks Y S n p tail (k + j) ((iBlock + blockSize) / 32) (t.nextBlock blockEnd) := by
            rw [hg, hnext]
            exact ⟨hbt.held, hbt.inside⟩
          have hdstNext : (t.nextBlock blockEnd).dst = p + 64 * ((iBlock + blockSize) / 32) := by
            rw [hg, hnext]
            exact htd
          have hsymNext : symbols len (k + j) = iBlock + blockSize + (t.nextBlock blockEnd).write := by
            rw [hnext]
            show symbols len (k + j) = iBlock + blockSize + (t.write - blockSize)
            rw [htw, hsym']
            show iBlock + write' = iBlock + blockSize + (write' - blockSize)
            omega
          obtain ⟨r, hr, hloop⟩ := ih (iBlock + blockSize) (k + j) (t.nextBlock blockEnd) (by omega)
            (show (iBlock + 8192) % 8192 = 0 by omega) (by omega) hbounded hdstNext hsymNext
          refine ⟨r, hr, fun hn => ?_⟩
          rw [hgroups hn]
          exact hloop hn
        · -- the last block
          refine ⟨.ok (t.nextBlock blockEnd).mem, ?_, fun hn => ?_⟩
          · unfold Inplace.blockLoopIn
            rw [if_neg (by omega)]
          · rw [hgroups hn]
            show (t.nextBlock blockEnd).blockLoop lut tail.base n (iBlock + blockSize) = _
            unfold Inplace.blockLoop
            rw [if_neg (by omega)]
    · rw [if_neg hlt, if_neg hlt]
      exact ⟨_, rfl, fun _ => rfl⟩

end Inplace

/-! ## FP8 in place with NEON -/

section Fp8

variable {n : Nat}

theorem asInt_eq (h : n ≤ 0xFFFFFFFF) : asInt n = if n < 2147483648 then (n : Int) else (n : Int) - 4294967296 := by
  unfold asInt
  rw [BitVec.toInt_eq_toNat_cond, BitVec.toNat_ofNat]
  show (if 2 * (n % 4294967296) < 4294967296 then ((n % 4294967296 : Nat) : Int)
      else ((n % 4294967296 : Nat) : Int) - 4294967296) = _
  split <;> split <;> omega

theorem subInt_ok {a b : Int} (h : -2147483648 ≤ a - b) : subInt a b = .ok (a - b) := by
  unfold subInt
  rw [if_pos h]

/-- By induction on the rounds left: `c` elements from `low` on. -/
theorem fp8RestNeon_spec (data : Ptr) (low : Nat) : ∀ (c : Nat) (m : Mem), low + c ≤ n →
    ∃ m', fp8RestNeon ⟨data, 2 * n⟩ low (low + c - 1) m = .ok m' := by
  intro c
  induction c with
  | zero =>
    intro m _
    unfold fp8RestNeon
    rw [if_neg (by omega)]
    exact ⟨m, rfl⟩
  | succ c ih =>
    intro m hle
    have hi : ((low : Int) + (c + 1 : Nat) - 1).toNat = low + c := by omega
    have hin : (0 : Int) ≤ (low : Int) + (c + 1 : Nat) - 1 ∧ (Region.mk data (2 * n)).covers (data + (low + c)) 1 ∧
        (Region.mk data (2 * n)).covers (data + 2 * (low + c)) 2 :=
      ⟨by omega, Region.covers_base data (by omega), Region.covers_base data (by omega)⟩
    unfold fp8RestNeon
    rw [hi, if_pos (by omega), if_pos hin, show (low : Int) + (c + 1 : Nat) - 1 - 1 = low + c - 1 by omega]
    exact ih _ (by omega)

/-- By induction on the rounds left: the first `c` sixteens. -/
theorem fp8SixteensNeon_spec (data : Ptr) : ∀ (c : Nat) (m : Mem), 16 * c ≤ n →
    ∃ m', fp8SixteensNeon ⟨data, 2 * n⟩ (16 * c - 16) m = .ok m' := by
  intro c
  induction c with
  | zero =>
    intro m _
    unfold fp8SixteensNeon
    rw [if_neg (by omega)]
    exact ⟨m, rfl⟩
  | succ c ih =>
    intro m hle
    have hi : (16 * ((c + 1 : Nat) : Int) - 16).toNat = 16 * c := by omega
    have hin : (Region.mk data (2 * n)).covers (data + 16 * c) 16 ∧ (Region.mk data (2 * n)).covers (data + 2 * (16 * c)) 32 :=
      ⟨Region.covers_base data (by omega), Region.covers_base data (by omega)⟩
    unfold fp8SixteensNeon
    rw [hi, if_pos (by omega), if_pos hin, show 16 * ((c + 1 : Nat) : Int) - 16 - 16 = 16 * (c : Int) - 16 by omega]
    exact ih _ (by omega)

/-- The NEON loops stay inside just where their indices fit. -/
theorem decompressFp8InplaceNeon_iff (data : Ptr) (hpos : 0 < n) (hmax : n ≤ 0xFFFFFFFF) (m : Mem) :
    (∃ m', decompressFp8InplaceNeon ⟨data, 2 * n⟩ n m = .ok m') ↔ IndexFits n := by
  have hn := asInt_eq hmax
  have hr := asInt_eq (n := n - n % 16) (by omega)
  unfold IndexFits decompressFp8InplaceNeon
  simp only
  rcases Nat.lt_trichotomy n 2147483648 with hlt | rfl | hgt
  · -- every index is that of an element
    rw [if_pos hlt] at hn
    rw [if_pos (by omega)] at hr
    obtain ⟨m', hm'⟩ := fp8RestNeon_spec (n := n) data (n - n % 16) (n % 16) m (by omega)
    obtain ⟨m'', hm''⟩ := fp8SixteensNeon_spec (n := n) data (n / 16) m' (by omega)
    have hlast : ((n - n % 16 : Nat) : Int) + (n % 16 : Nat) - 1 = n - 1 := by omega
    have hmain : ((n - n % 16 : Nat) : Int) - 16 = 16 * (n / 16 : Nat) - 16 := by omega
    rw [hlast] at hm'
    rw [hn, hr, subInt_ok (by omega)]
    simp only [hm']
    rw [subInt_ok (by omega), hmain]
    exact ⟨fun _ => .inl hlt, fun _ => ⟨m'', hm''⟩⟩
  · -- `(int)n_bf16 - 1` is below the least `int`
    refine ⟨fun ⟨m', h⟩ => ?_, fun h => by omega⟩
    have hover : subInt (asInt 2147483648) 1 = .error .overflow := by decide
    rw [hover] at h
    cases h
  · rw [if_neg (by omega)] at hn
    rw [if_neg (by omega)] at hr
    rw [hn, hr, subInt_ok (by omega)]
    simp only
    by_cases hz : n % 16 = 0
    · -- no index is at least zero, nor does the first loop have a round
      have hrest : fp8RestNeon ⟨data, 2 * n⟩ (((n - n % 16 : Nat) : Int) - 4294967296)
          ((n : Int) - 4294967296 - 1) m = .ok m := by
        unfold fp8RestNeon
        rw [if_neg (by omega)]
      have hmain : fp8SixteensNeon ⟨data, 2 * n⟩ (((n - n % 16 : Nat) : Int) - 4294967296 - 16) m = .ok m := by
        unfold fp8SixteensNeon
        rw [if_neg (by omega)]
      rw [hrest]
      simp only
      rw [subInt_ok (by omega)]
      exact ⟨fun _ => .inr ⟨hgt, hz⟩, fun _ => ⟨m, hmain⟩⟩
    · -- the first index is negative
      have hrest : fp8RestNeon ⟨data, 2 * n⟩ (((n - n % 16 : Nat) : Int) - 4294967296) ((n : Int) - 4294967296 - 1) m =
          .error .outside := by
        unfold fp8RestNeon
        rw [if_pos (by omega), if_neg (by omega)]
      rw [hrest]
      refine ⟨fun ⟨m', h⟩ => ?_, fun h => by omega⟩
      cases h

theorem decompressFp8InplaceIn_false (data : Ptr) (m : Mem) : decompressFp8InplaceIn false m data n =
    .ok (decompressFp8Inplace data n m) := by
  have hbytes : ∀ i, i < n → (Region.mk data (2 * n)).covers (data + i) 1 ∧ (Region.mk data (2 * n)).covers (data + 2 * i) 2 :=
    fun i hi => ⟨Region.covers_base data (by omega), Region.covers_base data (by omega)⟩
  unfold decompressFp8InplaceIn
  rw [if_neg Bool.false_ne_true, if_pos hbytes]

end Fp8

/-! ## The two decompressors -/

section Decompress

variable {neon : Bool} {m : Mem} {p : Ptr} {n : Nat}

theorem WellFormed.supply (h : WellFormed m p n) :
    ∃ total, total ≤ announcedMarks m p n ∧ Supply (markLen m p n) total n := by
  obtain ⟨total, hle, hpos, henough⟩ := h.marks
  refine ⟨total, hle, hpos, fun i _ => ?_, henough⟩
  exact checkLutFrom_le h.table _ (List.mem_range.mpr (UInt8.toNat_lt _))

/-- An item of the table, in an object that goes on to the marks. -/
theorem table_covers (base : Ptr) {size a : Nat} (h : a + Header.dynamicLen ≤ size) (b : UInt8) :
    (Region.mk base size).covers (base + a + Header.dynLut + 8 * b.toNat) 8 := by
  have hb := UInt8.toNat_lt b
  unfold Header.dynamicLen at h
  rw [Ptr.add_add, Ptr.add_add]
  refine Region.covers_base base ?_
  unfold Header.dynLut
  omega

/-- The Tunstall path out of place: what the checks let through is decoded. -/
theorem decompressTunstallTruncIn_spec (h : Admits m p n → WellFormed m p n) (hpos : 0 < n) (hmax : n ≤ 0xFFFFFFFF)
    (ht : isTunstall m p n = true) (dst : Nat → UInt16) (buf : Nat → UInt8) :
    ∃ r, decompressTunstallTruncIn neon m dst p n buf = .ok r ∧
      (neon = false → decompressTunstallTrunc m dst p n buf = some r) ∧ (Malformed m p n → r.1 ≠ .tsOk) := by
  have hparts := ht
  unfold isTunstall at hparts
  rw [decide_eq_true_eq] at hparts
  obtain ⟨hcount, hmode⟩ := hparts
  have hhdr : (Region.mk p n).covers (p + n / 2) Header.dynLut := Region.covers_base p (by unfold Header.dynLut; omega)
  unfold decompressTunstallTruncIn decompressTunstallTrunc
  simp only
  rw [if_neg (not_not.mpr hhdr), if_neg (not_not.mpr hcount), if_neg (not_not.mpr hcount), if_neg (not_not.mpr hmode),
    if_neg (not_not.mpr hmode)]
  by_cases heven : m.load32 (p + n / 2 + Header.dynNMark) % 2 = 0
  · rw [if_neg (not_not.mpr heven), if_neg (not_not.mpr heven)]
    by_cases hsrc : m.load32 (p + n / 2 + Header.dynSrcLen) = n
    · rw [if_neg (not_not.mpr hsrc), if_neg (not_not.mpr hsrc)]
      have hwell := h ⟨hpos, hmax, ht, heven, hsrc⟩
      obtain ⟨total, hle, hs⟩ := hwell.supply
      have hfits := hwell.fits
      have hahead : Ahead ⟨p, n⟩ (loadLut m (p + n / 2 + Header.dynLut)) m (markLen m p n) (p + n / 2 + Header.dynamicLen) 0
          (announcedMarks m p n) := by
        refine ⟨fun j hj => ?_, fun j _ => ?_⟩
        · rw [Ptr.add_add, Ptr.add_add]
          exact Region.covers_base p (by omega)
        · rw [Nat.zero_add]
          rfl
      obtain ⟨d, hin, hd⟩ := decodeBlocksIn_spec (m := m) (p := p) (e := p + n / 2 + Header.dynamicLen + announcedMarks m p n)
        neon hs hcount
        (table_covers p (show n / 2 + Header.dynamicLen ≤ n by omega)) rfl
        (by simp only [Ptr.add_off]; omega) n 0 0 (announcedMarks m p n)
        { buf, write := 0, mark := p + n / 2 + Header.dynamicLen, src := p,
          extra := p + n / 2 + Header.dynamicLen + announcedMarks m p n, pDst := 0, dst } (by unfold blockSize; omega)
        (Nat.zero_mod _) ⟨rfl, rfl, rfl⟩ rfl (by omega) hahead
      unfold announcedMarks at hin hd
      rw [hin]
      refine ⟨_, rfl, fun hn => ?_, fun hm => absurd ⟨heven, hsrc, hwell⟩ hm.2⟩
      rw [hd hn]
      rfl
    · rw [if_pos hsrc, if_pos hsrc]
      exact ⟨_, rfl, fun _ => rfl, fun _ => nofun⟩
  · rw [if_pos heven, if_pos heven]
    exact ⟨_, rfl, fun _ => rfl, fun _ => nofun⟩

theorem safeOutOfPlace_of (h : Admits m p n → WellFormed m p n) : SafeOutOfPlace neon m p n := by
  intro dst buf
  unfold tunstallDecompressBF16In tunstallDecompressBF16
  by_cases hn : n = 0 ∨ n > 0xFFFFFFFF
  · rw [if_pos hn, if_pos hn]
    exact ⟨_, rfl, fun _ => rfl, fun _ => nofun⟩
  · have hmode : (Region.mk p n).covers (p + n / 2) 1 := Region.covers_base p (by omega)
    simp only
    rw [if_neg hn, if_neg hn, if_neg (not_not.mpr hmode)]
    by_cases ht : isTunstall m p n = true
    · rw [if_pos ht, if_pos ht]
      exact decompressTunstallTruncIn_spec h (by omega) (by omega) ht dst buf
    · rw [if_neg ht, if_neg ht, if_pos fun i hi => Region.covers_base p (by omega)]
      exact ⟨_, rfl, fun _ => rfl, fun hm => absurd hm.1 ht⟩

/-- The marks of the stream as a list. -/
theorem exists_marks (m : Mem) (q : Ptr) (M : Nat) :
    ∃ marks : List Nat, marks.length = M ∧ ∀ i, i < M → (marks[i]?).map UInt8.ofNat = some (m (q + i)) := by
  refine ⟨(List.range M).map fun i => (m (q + i)).toNat, by simp, fun i hi => ?_⟩
  rw [List.getElem?_map, List.getElem?_range hi]
  simp

/-- The state that the block loop in place starts from. -/
def Inplace.start (m : Mem) (p : Ptr) (n : Nat) (buf : Nat → UInt8) : Inplace :=
  let mark : Ptr := p + n + Header.dynamicLen
  { mem := (m.memcpy (p + n) (p + n / 2) (n / 2)).memcpy (p + n + n / 2) p (n / 2)
    streams := {
      mark, markEnd := mark + announcedMarks m p n, extra := mark + announcedMarks m p n, extraEnd := p + n + n / 2
      sm := p + n + n / 2, smEnd := p + n + n }
    buf, write := 0, dst := p, usingTail := false }

theorem WellFormed.blockLoopIn (h : WellFormed m p n) (neon : Bool) (hcount : n % 32 = 0) {tail : Ptr} (htail : tail.blk ≠ p.blk)
    (buf : Nat → UInt8) :
    ∃ r, (Inplace.start m p n buf).blockLoopIn neon (streamLut m p n) ⟨p, 2 * n⟩ ⟨tail, inplaceTailBytes⟩
        ⟨p + n / 2, Header.dynamicLen⟩ (p + n / 2 + Header.dynLut) n 0 (announcedMarks m p n) = .ok r ∧
      (neon = false → (Inplace.start m p n buf).blockLoop (streamLut m p n) tail n 0 = some r) := by
  obtain ⟨total, hle, hs⟩ := h.supply
  obtain ⟨marks, hlen, hmarks⟩ := exists_marks m (p + n / 2 + Header.dynamicLen) (announcedMarks m p n)
  have hfits := h.fits
  have hat : MarksAt m (p + n / 2 + Header.dynamicLen) marks 0 := by
    intro j hj
    rw [Nat.zero_add] at hj ⊢
    exact (hmarks j (by omega)).symm
  have hitem : ∀ i b, some b = (marks[i]?).map UInt8.ofNat → (streamLut m p n b.toNat).c.toNat = markLen m p n i := by
    intro i b hb
    by_cases hi : i < announcedMarks m p n
    · rw [hmarks i hi] at hb
      rw [Option.some.inj hb]
      rfl
    · rw [List.getElem?_eq_none (by omega)] at hb
      cases hb
  have hheld := Held.repacked hcount (by omega) hat
  rw [hlen] at hheld
  have hinside : ((Inplace.start m p n buf).home ⟨p, 2 * n⟩ ⟨tail, inplaceTailBytes⟩).covers
      (Inplace.start m p n buf).streams.mark (Inplace.start m p n buf).streams.extent := by
    refine ⟨rfl, ?_, ?_⟩
    · show p.off ≤ (p + n + Header.dynamicLen).off
      simp only [Ptr.add_off]
      omega
    · show (p + n + Header.dynamicLen).off + ((p + n + n).off - (p + n + Header.dynamicLen).off) ≤ p.off + 2 * n
      simp only [Ptr.add_off]
      omega
  rw [← hlen]
  exact blockLoopIn_spec neon hs (by omega) hitem hcount
    (table_covers (p + n / 2) (Nat.le_refl (0 + Header.dynamicLen))) htail rfl n 0 0 _ (by unfold blockSize; omega)
    (Nat.zero_mod _) (Nat.zero_le _) ⟨hheld, hinside⟩ rfl rfl

/-- The Tunstall path in place: what the checks let through stays in its objects. -/
theorem decompressTunstallTruncInplaceIn_spec (h : Admits m p n → WellFormed m p n) (hpos : 0 < n) (hmax : n ≤ 0xFFFFFFFF)
    (ht : isTunstall m p n = true) {tail : Ptr} (htail : tail.blk ≠ p.blk) (buf : Nat → UInt8) :
    ∃ r, decompressTunstallTruncInplaceIn neon m p tail n buf = .ok r ∧
      (neon = false → decompressTunstallTruncInplace m p tail n buf = some r) ∧ (Malformed m p n → ∃ e, r = .error e) := by
  have hparts := ht
  unfold isTunstall at hparts
  rw [decide_eq_true_eq] at hparts
  obtain ⟨hcount, hmode⟩ := hparts
  unfold decompressTunstallTruncInplaceIn decompressTunstallTruncInplace
  simp only
  rw [if_neg (not_not.mpr hcount), if_neg (not_not.mpr hcount)]
  by_cases hshort : n / 2 < Header.dynamicLen
  · rw [if_pos hshort, if_pos hshort]
    exact ⟨_, rfl, fun _ => rfl, fun _ => ⟨_, rfl⟩⟩
  have hhdr : (Region.mk p (2 * n)).covers (p + n / 2) Header.dynamicLen := Region.covers_base p (by omega)
  rw [if_neg hshort, if_neg hshort, if_neg (not_not.mpr hhdr), if_neg (not_not.mpr hmode), if_neg (not_not.mpr hmode)]
  by_cases heven : m.load32 (p + n / 2 + Header.dynNMark) % 2 = 0
  · rw [if_neg (not_not.mpr heven), if_neg (not_not.mpr heven)]
    by_cases hsrc : m.load32 (p + n / 2 + Header.dynSrcLen) = n
    · rw [if_neg (not_not.mpr hsrc), if_neg (not_not.mpr hsrc)]
      have hwell := h ⟨hpos, hmax, ht, heven, hsrc⟩
      have hfits : ¬ Header.dynamicLen + m.load32 (p + n / 2 + Header.dynNMark) > n / 2 := Nat.not_lt.mpr hwell.fits
      have hcopies : (Region.mk p (2 * n)).covers (p + n / 2) (n / 2) ∧ (Region.mk p (2 * n)).covers (p + n) (n / 2) ∧
          (Region.mk p (2 * n)).covers p (n / 2) ∧ (Region.mk p (2 * n)).covers (p + n + n / 2) (n / 2) := by
        refine ⟨Region.covers_base p (by omega), Region.covers_base p (by omega), ⟨rfl, Nat.le_refl _, ?_⟩, ?_⟩
        · simp only
          omega
        · rw [Ptr.add_add]
          exact Region.covers_base p (by omega)
      rw [if_neg hfits, if_neg hfits, if_pos hcopies]
      obtain ⟨r, hin, hr⟩ := hwell.blockLoopIn neon hcount htail buf
      exact ⟨r, hin, hr, fun hm => absurd ⟨heven, hsrc, hwell⟩ hm.2⟩
    · rw [if_pos hsrc, if_pos hsrc]
      exact ⟨_, rfl, fun _ => rfl, fun _ => ⟨_, rfl⟩⟩
  · rw [if_pos heven, if_pos heven]
    exact ⟨_, rfl, fun _ => rfl, fun _ => ⟨_, rfl⟩⟩

theorem safeInplace_of (h : Admits m p n → WellFormed m p n) (hfp8 : neon = true → TakenForFp8 m p n → IndexFits n) :
    SafeInplace neon m p n := by
  intro tail buf htail
  unfold tunstallDecompressBF16InplaceIn tunstallDecompressBF16Inplace
  by_cases hn : n = 0 ∨ n > 0xFFFFFFFF
  · rw [if_pos hn, if_pos hn]
    exact ⟨_, rfl, fun _ => rfl, fun _ => ⟨_, rfl⟩⟩
  · have hmode : (Region.mk p (2 * n)).covers (p + n / 2) 1 := Region.covers_base p (by omega)
    simp only
    rw [if_neg hn, if_neg hn, if_neg (not_not.mpr hmode)]
    by_cases ht : isTunstall m p n = true
    · rw [if_pos ht, if_pos ht]
      exact decompressTunstallTruncInplaceIn_spec h (by omega) (by omega) ht htail buf
    · rw [if_neg ht, if_neg ht]
      cases neon with
      | false =>
        rw [decompressFp8InplaceIn_false]
        exact ⟨_, rfl, fun _ => rfl, fun hm => absurd hm.1 ht⟩
      | true =>
        obtain ⟨m', hm'⟩ := (decompressFp8InplaceNeon_iff p (by omega) (by omega) m).mpr
          (hfp8 rfl ⟨by omega, by omega, Bool.not_eq_true _ ▸ ht⟩)
        unfold decompressFp8InplaceIn
        rw [if_pos rfl, hm']
        exact ⟨_, rfl, nofun, fun hm => absurd hm.1 ht⟩

/-- With NEON a run in place on FP8 bytes is that of the loops. -/
theorem SafeInplace.indexFits (h : SafeInplace true m p n) (ht : TakenForFp8 m p n) : IndexFits n := by
  have hpos := ht.pos
  have hmax := ht.max
  have hmode : (Region.mk p (2 * n)).covers (p + n / 2) 1 := Region.covers_base p (by omega)
  obtain ⟨r, hr, -⟩ := h ⟨p.blk + 1, 0⟩ (fun _ => 0) (Nat.succ_ne_self _)
  unfold tunstallDecompressBF16InplaceIn at hr
  simp only at hr
  rw [if_neg (by omega), if_neg (not_not.mpr hmode), if_neg (by rw [ht.fp8]; decide)] at hr
  unfold decompressFp8InplaceIn at hr
  rw [if_pos rfl] at hr
  refine (decompressFp8InplaceNeon_iff p hpos hmax m).mp ?_
  cases he : decompressFp8InplaceNeon ⟨p, 2 * n⟩ n m with
  | error f =>
    rw [he] at hr
    cases hr
  | ok m' => exact ⟨m', rfl⟩

/-- Past its checks the decompressor has no error to give. -/
theorem Admits.tsOk (h : Admits m p n) {dst : Nat → UInt16} {buf : Nat → UInt8} {r : Code × (Nat → UInt16)}
    (hr : tunstallDecompressBF16In neon m dst p n buf = .ok r) : r.1 = .tsOk := by
  have hparts := h.tunstall
  unfold isTunstall at hparts
  rw [decide_eq_true_eq] at hparts
  have hpos := h.pos
  have hmax := h.max
  have hmode : (Region.mk p n).covers (p + n / 2) 1 := Region.covers_base p (by omega)
  have hhdr : (Region.mk p n).covers (p + n / 2) Header.dynLut := Region.covers_base p (by unfold Header.dynLut; omega)
  have heven : m.load32 (p + n / 2 + Header.dynNMark) % 2 = 0 := h.even
  unfold tunstallDecompressBF16In at hr
  simp only at hr
  rw [if_neg (by omega), if_neg (not_not.mpr hmode), if_pos h.tunstall] at hr
  unfold decompressTunstallTruncIn at hr
  simp only at hr
  rw [if_neg (not_not.mpr hhdr), if_neg (not_not.mpr hparts.1), if_neg (not_not.mpr hparts.2), if_neg (not_not.mpr heven),
    if_neg (not_not.mpr h.srcLen)] at hr
  split at hr
  · cases hr
  · rw [← Except.ok.inj hr]

/-- The decompressors are safe on the streams they refuse and on those that are well formed, and with NEON
    on FP8 bytes that the indices of type `int` fit. -/
theorem bf16_decoders_safe_iff (neon : Bool) (m : Mem) (p : Ptr) (n : Nat) :
    DecodersSafe neon m p n ↔ (Admits m p n → WellFormed m p n) ∧ (neon = true → TakenForFp8 m p n → IndexFits n) := by
  constructor
  · rintro ⟨hout, hin⟩
    refine ⟨fun ha => ?_, ?_⟩
    · by_contra hno
      obtain ⟨r, hr, -, hreject⟩ := hout (fun _ => 0) (fun _ => 0)
      exact hreject ⟨ha.tunstall, fun h => hno h.2.2⟩ (ha.tsOk hr)
    · rintro rfl
      exact hin.indexFits
  · rintro ⟨hwell, hfp8⟩
    exact ⟨safeOutOfPlace_of hwell, safeInplace_of hwell hfp8⟩

end Decompress

/-- A stored block of 16384 elements whose mode and length are there, and whose table and marks are zeros. -/
def staleBlock : Mem := fun q => if q.off = 8192 then tsModeDynamic else if q.off = 8198 then 64 else 0

/-- No mark is announced, and the first is read. -/
theorem stale_block_read_past_marks : ¬ DecodersSafe false staleBlock ⟨0, 0⟩ 16384 ∧
    ¬ DecodersSafe true staleBlock ⟨0, 0⟩ 16384 := by
  have hfault : ∀ neon, tunstallDecompressBF16In neon staleBlock (fun _ => 0) ⟨0, 0⟩ 16384 (fun _ => 0) = .error .pastMarks := by
    intro neon
    have hmarks : staleBlock.load32 ((⟨0, 0⟩ : Ptr) + 16384 / 2 + Header.dynNMark) = 0 := by decide
    unfold tunstallDecompressBF16In decompressTunstallTruncIn
    simp only [hmarks]
    unfold decodeBlocksIn
    rfl
  constructor
  all_goals
    rintro ⟨hout, -⟩
    obtain ⟨r, hr, -⟩ := hout (fun _ => 0) (fun _ => 0)
    rw [hfault] at hr
    cases hr

/-- With NEON the FP8 bytes of 4294967295 elements are accessed below their buffer: `(int)n_bf16` is −1. -/
theorem fp8_index_wraps : ¬ SafeInplace true (fun _ => 0) ⟨0, 0⟩ 4294967295 := by
  intro h
  have hfits := h.indexFits ⟨by decide, by decide, by decide⟩
  unfold IndexFits at hfits
  omega

end UnifiedCache.Compress
