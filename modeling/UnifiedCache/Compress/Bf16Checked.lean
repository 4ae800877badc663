/-
  UnifiedCache.Compress.Bf16Checked — the BF16 decompressors with every access checked
  (ucm/store/compress/cc/compress_lib/tunstall_bf16.cc).

  The loops of `UnifiedCache.Compress.Bf16` and `UnifiedCache.Compress.Bf16Inplace` once more. Before
  each read or write its bytes are compared with the object they are meant to lie in: the announced
  buffers, the tail, the ring buffer, the header or its copy. A run that leaves one, or that goes on to
  a mark the header does not count, ends there with a fault.

  `neon` is whether `NEON_DECOMPRESSION` is defined. A group of the Tunstall path then has its elements
  from `UnifiedCache.Compress.Bf16Neon` and reads and writes the same bytes; the FP8 path in place is
  another loop, with indices of type `int`.

  - `groupIn_eq`, `groupsIn_eq`: the groups of a block, ended without a fault, are those of the loop
    they are made from.
-/

import UnifiedCache.Compress.Bf16Inplace
import UnifiedCache.Compress.Bf16Neon

namespace UnifiedCache.Compress

open UnifiedCache.Base

/-! ## Objects -/

/-- An object in memory. -/
structure Region where
  base : Ptr
  size : Nat

/-- `len` bytes at `p` lie in the object. -/
def Region.covers (r : Region) (p : Ptr) (len : Nat) : Prop :=
  p.blk = r.base.blk ∧ r.base.off ≤ p.off ∧ p.off + len ≤ r.base.off + r.size

instance (r : Region) (p : Ptr) (len : Nat) : Decidable (r.covers p len) :=
  inferInstanceAs (Decidable (_ ∧ _ ∧ _))

/-- `len` bytes at offset `i` lie in `buf_exp`. -/
def inRing (i len : Nat) : Prop := i + len ≤ blockSize + blockTail

instance (i len : Nat) : Decidable (inRing i len) := inferInstanceAs (Decidable (_ ≤ _))

/-- What ends a checked run early: an access outside its object, a mark that is not announced, an `int`
    below its least value. -/
inductive Fault where
  | outside
  | pastMarks
  | overflow
  deriving DecidableEq, Repr

/-! ## The mark loop -/

/-- `fillBlock` with `left` of the announced marks not read yet: a mark, its item in the table at
    `lutAt`, the item's eight bytes in the ring. -/
def fillBlockIn (marks table : Region) (lutAt : Ptr) (lut : Lut) (m : Mem) (blockEnd : Nat) :
    Nat → Nat → Ptr → (Nat → UInt8) → Except Fault (Nat × Nat × Ptr × (Nat → UInt8))
  | 0, write, mark, buf => if write < blockEnd then .error .pastMarks else .ok (0, write, mark, buf)
  | left + 1, write, mark, buf =>
    if write < blockEnd then
      if marks.covers mark 1 ∧ table.covers (lutAt + 8 * (m mark).toNat) 8 ∧ inRing write 8 then
        let it := lut (m mark).toNat
        fillBlockIn marks table lutAt lut m blockEnd left (write + it.c.toNat) (mark + 1)
          (fun j => if write ≤ j ∧ j < write + 8 then (it.bytes[j - write]?).getD 0 else buf j)
      else .error .outside
    else .ok (left + 1, write, mark, buf)

/-! ## `TunstallDecompressBF16` -/

/-- `Decoder.assemble` with NEON. -/
def Decoder.assembleNeon (m : Mem) (extraFinal : Ptr) (read : Nat) (s : Decoder) : Decoder :=
  let extra := if s.extra.off ≤ extraFinal.off then some fun i => m (s.extra + i) else none
  let group := neonGroup (fun j => s.buf (read + j)) (fun i => m (s.src + i)) extra
  { s with
    dst := fun i => if s.pDst ≤ i ∧ i < s.pDst + 32 then group (i - s.pDst) else s.dst i
    src := s.src + 16
    pDst := s.pDst + 32
    extra := s.extra + 4 }

/-- A group: 32 exponents of the ring, 16 bytes of signs with mantissas, the four extra bytes if they are
    taken, 32 elements of `p_dst`. -/
def Decoder.assembleIn (neon : Bool) (m : Mem) (src : Region) (extraFinal : Ptr) (n read : Nat) (s : Decoder) :
    Except Fault Decoder :=
  if inRing read 32 ∧ src.covers s.src 16 ∧ (s.extra.off ≤ extraFinal.off → src.covers s.extra 4) ∧ s.pDst + 32 ≤ n then
    .ok (if neon then s.assembleNeon m extraFinal read else s.assemble m extraFinal read)
  else .error .outside

def assembleBlockIn (neon : Bool) (m : Mem) (src : Region) (extraFinal : Ptr) (n blockEnd read : Nat) (s : Decoder) :
    Except Fault Decoder :=
  if read < blockEnd then
    match s.assembleIn neon m src extraFinal n read with
    | .error f => .error f
    | .ok s => assembleBlockIn neon m src extraFinal n blockEnd (read + 32) s
  else .ok s
termination_by blockEnd - read

/-- `decodeBlocks`. -/
def decodeBlocksIn (neon : Bool) (lut : Lut) (m : Mem) (src : Region) (lutAt extraFinal : Ptr) (n iBlock left : Nat)
    (s : Decoder) : Except Fault (Nat → UInt16) :=
  if iBlock < n then
    let actualBlockSize := if n - iBlock < blockSize then n - iBlock else blockSize
    match fillBlockIn src src lutAt lut m actualBlockSize left s.write s.mark s.buf with
    | .error f => .error f
    | .ok (left, write, mark, buf) =>
      match assembleBlockIn neon m src extraFinal n actualBlockSize 0 { s with buf, write, mark } with
      | .error f => .error f
      | .ok s =>
        if inRing blockSize blockTail then
          decodeBlocksIn neon lut m src lutAt extraFinal n (iBlock + blockSize) left s.nextBlock
        else .error .outside
  else .ok s.dst
termination_by n - iBlock
decreasing_by unfold blockSize; omega

/-- `decompress_tunstall_trunc`; the header's fields before the table are read at its start. -/
def decompressTunstallTruncIn (neon : Bool) (m : Mem) (dst : Nat → UInt16) (src : Ptr) (n : Nat) (buf : Nat → UInt8) :
    Except Fault (Code × (Nat → UInt16)) :=
  let region : Region := ⟨src, n⟩
  let hdr : Ptr := src + n / 2
  let mark : Ptr := hdr + Header.dynamicLen
  if ¬ region.covers hdr Header.dynLut then .error .outside
  else
    let nMark := m.load32 (hdr + Header.dynNMark)
    if n % 32 ≠ 0 then .ok (.errSyntax, dst)
    else if m hdr ≠ tsModeDynamic then .ok (.errSyntax, dst)
    else if nMark % 2 ≠ 0 then .ok (.errSyntax, dst)
    else if m.load32 (hdr + Header.dynSrcLen) ≠ n then .ok (.errSyntax, dst)
    else
      let s := { buf, write := 0, mark, src, extra := mark + nMark, pDst := 0, dst }
      let lutAt := hdr + Header.dynLut
      match decodeBlocksIn neon (loadLut m lutAt) m region lutAt (src + (n - 4)) n 0 nMark s with
      | .error f => .error f
      | .ok dst => .ok (.tsOk, dst)

/-- `TunstallDecompressBF16` on `n` bytes at `src`. -/
def tunstallDecompressBF16In (neon : Bool) (m : Mem) (dst : Nat → UInt16) (src : Ptr) (n : Nat) (buf : Nat → UInt8) :
    Except Fault (Code × (Nat → UInt16)) :=
  let region : Region := ⟨src, n⟩
  if n = 0 ∨ n > 0xFFFFFFFF then .ok (.errUnsupport, dst)
  else if ¬ region.covers (src + n / 2) 1 then .error .outside
  else if isTunstall m src n then decompressTunstallTruncIn neon m dst src n buf
  else if ∀ i, i < n → region.covers (src + i) 1 then
    .ok (.tsOk, fun i => if i < n then fp8ToBf16 (m (src + i)) else dst i)
  else .error .outside

/-! ## `TunstallDecompressBF16Inplace` -/

namespace Streams

/-- The bytes of `compact_tunstall_inplace_streams`: both moves read and write the buffer. -/
def compactIn (s : Streams) (data : Region) : Prop :=
  let smLen := s.smEnd.off - s.sm.off
  let markLen := s.markEnd.off - s.mark.off
  let extraLen := s.extraEnd.off - s.extra.off
  let extraNew : Ptr := ⟨s.smEnd.blk, s.smEnd.off - smLen - extraLen⟩
  let markNew : Ptr := ⟨s.smEnd.blk, extraNew.off - markLen⟩
  s.ordered = true →
    (extraLen > 0 → data.covers s.extra extraLen ∧ data.covers extraNew extraLen) ∧
      (markLen > 0 → data.covers s.mark markLen ∧ data.covers markNew markLen)

instance (s : Streams) (data : Region) : Decidable (s.compactIn data) := inferInstanceAs (Decidable (_ → _ ∧ _))

end Streams

namespace Inplace

/-- The object that the streams lie in. -/
def home (data tail : Region) (s : Inplace) : Region := if s.usingTail then tail else data

/-- `spillIfSmall`: `tail_len` bytes from the streams to the tail. -/
def spillIfSmallIn (data tail : Region) (s : Inplace) : Except Fault (Except Code Inplace) :=
  if !s.usingTail && decide (s.streams.extent ≤ inplaceTailBytes) then
    if s.streams.ordered = true → data.covers s.streams.mark s.streams.extent ∧ tail.covers tail.base s.streams.extent then
      .ok (s.spillIfSmall tail.base)
    else .error .outside
  else .ok (.ok s)

/-- `makeRoom`. -/
def makeRoomIn (data : Region) (s : Inplace) : Except Fault (Except Code Inplace) :=
  if s.streams.blocks s.dst then
    if s.streams.compactIn data then .ok s.makeRoom else .error .outside
  else .ok (.ok s)

/-- The bytes copied to `sm` and `extra`. -/
def consumeIn (data tail : Region) (s : Inplace) : Prop :=
  (s.home data tail).covers s.streams.sm 16 ∧
    (s.streams.extraEnd.off - s.streams.extra.off ≥ 4 → (s.home data tail).covers s.streams.extra 4)

instance (data tail : Region) (s : Inplace) : Decidable (s.consumeIn data tail) := inferInstanceAs (Decidable (_ ∧ _))

/-- `elements` with NEON. -/
def elementsNeon (s : Inplace) (read : Nat) : Nat → UInt16 :=
  neonGroup (fun j => s.buf (read + j)) (fun i => s.mem (s.streams.sm + i))
    (if s.streams.extraEnd.off - s.streams.extra.off ≥ 4 then some fun i => s.mem (s.streams.extra + i) else none)

/-- `group`; the elements are written at `p_dst`. -/
def groupIn (neon : Bool) (data tail : Region) (read : Nat) (s : Inplace) : Except Fault (Except Code Inplace) :=
  match s.spillIfSmallIn data tail with
  | .error f => .error f
  | .ok (.error e) => .ok (.error e)
  | .ok (.ok s) =>
    if s.streams.smEnd.off - s.streams.sm.off < 16 then .ok (.error .errSyntax)
    else if ¬ s.consumeIn data tail then .error .outside
    else
      match s.consume.spillIfSmallIn data tail with
      | .error f => .error f
      | .ok (.error e) => .ok (.error e)
      | .ok (.ok t) =>
        match if t.usingTail then .ok (.ok t) else t.makeRoomIn data with
        | .error f => .error f
        | .ok (.error e) => .ok (.error e)
        | .ok (.ok t) =>
          if inRing read 32 ∧ data.covers t.dst 64 then
            let group := if neon then s.elementsNeon read else s.elements read
            .ok (.ok { t with mem := t.mem.storeBytes t.dst (groupBytes group), dst := t.dst + 64 })
          else .error .outside

def groupsIn (neon : Bool) (data tail : Region) (blockEnd read : Nat) (s : Inplace) : Except Fault (Except Code Inplace) :=
  if read < blockEnd then
    match s.groupIn neon data tail read with
    | .error f => .error f
    | .ok (.error e) => .ok (.error e)
    | .ok (.ok s) => groupsIn neon data tail blockEnd (read + 32) s
  else .ok (.ok s)
termination_by blockEnd - read

/-- `blockLoop`; `table` is the header's copy. -/
def blockLoopIn (neon : Bool) (lut : Lut) (data tail table : Region) (lutAt : Ptr) (n iBlock left : Nat) (s : Inplace) :
    Except Fault (Except Code Mem) :=
  if iBlock < n then
    let actualBlockSize := if n - iBlock < blockSize then n - iBlock else blockSize
    match fillBlockIn (s.home data tail) table lutAt lut s.mem actualBlockSize left s.write s.streams.mark s.buf with
    | .error f => .error f
    | .ok (left, write, mark, buf) =>
      match groupsIn neon data tail actualBlockSize 0 { s with write, buf, streams := { s.streams with mark } } with
      | .error f => .error f
      | .ok (.error e) => .ok (.error e)
      | .ok (.ok s) =>
        if inRing blockSize blockTail then
          blockLoopIn neon lut data tail table lutAt n (iBlock + blockSize) left (s.nextBlock actualBlockSize)
        else .error .outside
  else .ok (.ok s.mem)
termination_by n - iBlock
decreasing_by unfold blockSize; omega

end Inplace

/-- `decompress_tunstall_trunc_inplace` on `2 * n` bytes at `data`; the header's copy has its offsets
    from the place it is copied from. -/
def decompressTunstallTruncInplaceIn (neon : Bool) (m : Mem) (data tail : Ptr) (n : Nat) (buf : Nat → UInt8) :
    Except Fault (Except Code Mem) :=
  let region : Region := ⟨data, 2 * n⟩
  let smTotal := n / 2
  let hdr : Ptr := data + smTotal
  let nMark := m.load32 (hdr + Header.dynNMark)
  if n % 32 ≠ 0 then .ok (.error .errSyntax)
  else if n / 2 < Header.dynamicLen then .ok (.error .errSyntax)
  else if ¬ region.covers hdr Header.dynamicLen then .error .outside
  else if m hdr ≠ tsModeDynamic then .ok (.error .errSyntax)
  else if nMark % 2 ≠ 0 then .ok (.error .errSyntax)
  else if m.load32 (hdr + Header.dynSrcLen) ≠ n then .ok (.error .errSyntax)
  else if Header.dynamicLen + nMark > smTotal then .ok (.error .errSyntax)
  else
    let src : Ptr := data + n
    if region.covers hdr smTotal ∧ region.covers src smTotal ∧ region.covers data smTotal ∧
      region.covers (src + smTotal) smTotal then
      let mem := (m.memcpy src hdr smTotal).memcpy (src + smTotal) data smTotal
      let mark : Ptr := src + Header.dynamicLen
      let streams := {
        mark, markEnd := mark + nMark, extra := mark + nMark, extraEnd := src + smTotal, sm := src + smTotal, smEnd := src + n }
      Inplace.blockLoopIn neon (loadLut m (hdr + Header.dynLut)) region ⟨tail, inplaceTailBytes⟩ ⟨hdr, Header.dynamicLen⟩
        (hdr + Header.dynLut) n 0 nMark { mem, streams, buf, write := 0, dst := data, usingTail := false }
    else .error .outside

/-! ### FP8 in place with NEON -/

/-- `(int)` of a count. -/
def asInt (n : Nat) : Int := (BitVec.ofNat 32 n).toInt

/-- `a - b` in `int`. -/
def subInt (a b : Int) : Except Fault Int := if -2147483648 ≤ a - b then .ok (a - b) else .error .overflow

/-- The loop over the elements past the last sixteen, from `i` down to `low`. An index below zero is
    outside whatever it is. -/
def fp8RestNeon (data : Region) (low i : Int) (m : Mem) : Except Fault Mem :=
  if low ≤ i then
    if 0 ≤ i ∧ data.covers (data.base + i.toNat) 1 ∧ data.covers (data.base + 2 * i.toNat) 2 then
      fp8RestNeon data low (i - 1) (m.store16 (data.base + 2 * i.toNat) (fp8ToBf16 (m (data.base + i.toNat))))
    else .error .outside
  else .ok m
termination_by (i + 1 - low).toNat
decreasing_by omega

/-- The loop over sixteens, from the one at `i` down: sixteen bytes are loaded, then 32 stored. What
    `__builtin_prefetch` is given is not read. -/
def fp8SixteensNeon (data : Region) (i : Int) (m : Mem) : Except Fault Mem :=
  if 0 ≤ i then
    if data.covers (data.base + i.toNat) 16 ∧ data.covers (data.base + 2 * i.toNat) 32 then
      let res := (List.range 16).flatMap fun j =>
        let x := neonFp8ToBf16 (m (data.base + i.toNat + j))
        [x.toUInt8, (x >>> 8).toUInt8]
      fp8SixteensNeon data (i - 16) (m.storeBytes (data.base + 2 * i.toNat) res)
    else .error .outside
  else .ok m
termination_by (i + 16).toNat
decreasing_by omega

/-- `decompress_fp8_to_bf16_inplace` with NEON. -/
def decompressFp8InplaceNeon (data : Region) (n : Nat) (m : Mem) : Except Fault Mem :=
  let remainder := n % 16
  match subInt (asInt n) 1 with
  | .error f => .error f
  | .ok last =>
    match fp8RestNeon data (asInt (n - remainder)) last m with
    | .error f => .error f
    | .ok m =>
      match subInt (asInt (n - remainder)) 16 with
      | .error f => .error f
      | .ok mainStart => fp8SixteensNeon data mainStart m

/-- `decompress_fp8_to_bf16_inplace`. -/
def decompressFp8InplaceIn (neon : Bool) (m : Mem) (data : Ptr) (n : Nat) : Except Fault Mem :=
  let region : Region := ⟨data, 2 * n⟩
  if neon then decompressFp8InplaceNeon region n m
  else if ∀ i, i < n → region.covers (data + i) 1 ∧ region.covers (data + 2 * i) 2 then .ok (decompressFp8Inplace data n m)
  else .error .outside

/-- `TunstallDecompressBF16Inplace` on `2 * n` bytes at `data`. -/
def tunstallDecompressBF16InplaceIn (neon : Bool) (m : Mem) (data tail : Ptr) (n : Nat) (buf : Nat → UInt8) :
    Except Fault (Except Code Mem) :=
  let region : Region := ⟨data, 2 * n⟩
  if n = 0 ∨ n > 0xFFFFFFFF then .ok (.error .errUnsupport)
  else if ¬ region.covers (data + n / 2) 1 then .error .outside
  else if isTunstall m data n then decompressTunstallTruncInplaceIn neon m data tail n buf
  else (decompressFp8InplaceIn neon m data n).map .ok

/-! ## Without a fault, on the scalar path -/

namespace Inplace

variable {data tail : Region} {s : Inplace} {r : Except Code Inplace}

theorem spillIfSmallIn_eq (h : s.spillIfSmallIn data tail = .ok r) : s.spillIfSmall tail.base = r := by
  unfold spillIfSmallIn at h
  split at h
  · split at h
    · exact Except.ok.inj h
    · cases h
  · next hno =>
    rw [← Except.ok.inj h]
    unfold spillIfSmall
    rw [if_neg hno]

theorem makeRoomIn_eq (h : s.makeRoomIn data = .ok r) : s.makeRoom = r := by
  unfold makeRoomIn at h
  split at h
  · split at h
    · exact Except.ok.inj h
    · cases h
  · next hno =>
    rw [← Except.ok.inj h]
    unfold makeRoom
    rw [if_neg hno]

theorem groupIn_eq {read : Nat} (h : s.groupIn false data tail read = .ok r) : s.group tail.base read = r := by
  unfold groupIn at h
  unfold group
  split at h
  · cases h
  · next he =>
    rw [spillIfSmallIn_eq he]
    exact Except.ok.inj h
  · next u hu =>
    rw [spillIfSmallIn_eq hu]
    simp only at h ⊢
    split at h
    · next hshort =>
      rw [if_pos hshort]
      exact Except.ok.inj h
    · next hlong =>
      rw [if_neg hlong]
      split at h
      · cases h
      · split at h
        · cases h
        · next he =>
          rw [spillIfSmallIn_eq he]
          exact Except.ok.inj h
        · next t ht =>
          rw [spillIfSmallIn_eq ht]
          simp only at h ⊢
          have hroom : ∀ {r' : Except Code Inplace}, (if t.usingTail = true then .ok (.ok t) else t.makeRoomIn data) =
              Except.ok r' →
              (if t.usingTail = true then .ok t else t.makeRoom) = r' := by
            intro r' hr
            split at hr
            · next hu => rw [if_pos hu]; exact Except.ok.inj hr
            · next hu => rw [if_neg hu]; exact makeRoomIn_eq hr
          split at h
          · cases h
          · next he =>
            rw [hroom he]
            exact Except.ok.inj h
          · next v hv =>
            rw [hroom hv]
            split at h
            · exact Except.ok.inj h
            · cases h

/-- By the recursion of the loop: each group is that of `group`. -/
theorem groupsIn_eq {blockEnd : Nat} : ∀ {read : Nat} {s : Inplace} {r : Except Code Inplace},
    s.groupsIn false data tail blockEnd read = .ok r → s.groups tail.base blockEnd read = r := by
  intro read s
  induction read, s using groups.induct tail.base blockEnd with
  | case1 read s hlt e he =>
    intro r h
    unfold groupsIn at h
    unfold groups
    rw [if_pos hlt] at h ⊢
    split at h
    · cases h
    · next e' he' =>
      rw [groupIn_eq he']
      exact Except.ok.inj h
    · next t ht =>
      rw [groupIn_eq ht] at he
      cases he
  | case2 read s hlt t ht ih =>
    intro r h
    unfold groupsIn at h
    unfold groups
    rw [if_pos hlt] at h ⊢
    split at h
    · cases h
    · next e' he' =>
      rw [groupIn_eq he'] at ht
      cases ht
    · next u hu =>
      have hut := groupIn_eq hu
      rw [ht] at hut
      obtain rfl : t = u := Except.ok.inj hut
      rw [ht]
      exact ih h
  | case3 read s hge =>
    intro r h
    unfold groupsIn at h
    unfold groups
    rw [if_neg hge] at h ⊢
    exact Except.ok.inj h

end Inplace

end UnifiedCache.Compress
