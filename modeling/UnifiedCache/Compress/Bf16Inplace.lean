/-
  UnifiedCache.Compress.Bf16Inplace — decompression of a BF16 array in its own buffer
  (ucm/store/compress/cc/compress_lib/tunstall_bf16.cc, scalar path).

  The buffer's upper half takes the marks, the extra bytes and the signs with mantissas, in
  this order; the elements are written from the buffer's start. Before each group of 32 the
  streams are moved to the tail if they fit there, or packed against the buffer's end if the
  group would reach them; a group that reaches them still is an error.

  What a failed call leaves in the buffer is not modelled, only its code.
-/

import UnifiedCache.Compress.Bf16

namespace UnifiedCache.Compress

open UnifiedCache.Base

/-- The pointers into the three streams. -/
structure Streams where
  mark : Ptr
  markEnd : Ptr
  extra : Ptr
  extraEnd : Ptr
  sm : Ptr
  smEnd : Ptr

namespace Streams

/-- The checks that both moves start with. -/
def ordered (s : Streams) : Bool :=
  s.mark.off ≤ s.markEnd.off ∧ s.markEnd.off ≤ s.extra.off ∧ s.extra.off ≤ s.extraEnd.off ∧
    s.extraEnd.off ≤ s.sm.off ∧ s.sm.off ≤ s.smEnd.off

/-- `p_sm_end - p_mark`. -/
def extent (s : Streams) : Nat := s.smEnd.off - s.mark.off

/-- `p_first_src`. -/
def firstSrc (s : Streams) : Ptr :=
  if s.mark.off < s.markEnd.off then s.mark else if s.extra.off < s.extraEnd.off then s.extra else s.sm

/-- The room check against the group at `dst`: `p_dst + dst_block_bytes > p_first_src`. -/
def blocks (s : Streams) (dst : Ptr) : Bool := dst.off + 64 > s.firstSrc.off

/-- `compact_tunstall_inplace_streams`. -/
def compact (s : Streams) (m : Mem) (streamEnd : Ptr) : Except Code (Mem × Streams) :=
  let smLen := s.smEnd.off - s.sm.off
  let markLen := s.markEnd.off - s.mark.off
  let extraLen := s.extraEnd.off - s.extra.off
  if ¬ s.ordered ∨ s.smEnd ≠ streamEnd ∨ smLen + markLen + extraLen > streamEnd.off - s.mark.off then .error .errSyntax
  else
    let smNew : Ptr := ⟨streamEnd.blk, streamEnd.off - smLen⟩
    let extraNew : Ptr := ⟨smNew.blk, smNew.off - extraLen⟩
    let markNew : Ptr := ⟨extraNew.blk, extraNew.off - markLen⟩
    let m := if extraLen > 0 then m.memcpy extraNew s.extra extraLen else m
    let m := if markLen > 0 then m.memcpy markNew s.mark markLen else m
    .ok (m, { mark := markNew, markEnd := extraNew, extra := extraNew, extraEnd := smNew, sm := smNew, smEnd := streamEnd })

/-- `spill_tunstall_inplace_streams`. -/
def spill (s : Streams) (m : Mem) (tail : Ptr) (tailSize : Nat) : Except Code (Mem × Streams) :=
  let tailLen := s.extent
  if ¬ s.ordered ∨ tailLen > tailSize then .error .errSyntax
  else
    .ok (m.memcpy tail s.mark tailLen, {
      mark := tail
      markEnd := tail + (s.markEnd.off - s.mark.off)
      extra := tail + (s.extra.off - s.mark.off)
      extraEnd := tail + (s.extraEnd.off - s.mark.off)
      sm := tail + (s.sm.off - s.mark.off)
      smEnd := tail + tailLen })

end Streams

/-- The variables of `decompress_tunstall_trunc_inplace`. -/
structure Inplace where
  mem : Mem
  streams : Streams
  buf : Nat → UInt8
  write : Nat
  dst : Ptr
  usingTail : Bool

/-- The bytes of a group's 32 elements. -/
def groupBytes (group : Nat → UInt16) : List UInt8 :=
  (List.range 32).flatMap fun j => [(group j).toUInt8, (group j >>> 8).toUInt8]

namespace Inplace

/-- Move the streams to the tail once they fit there. -/
def spillIfSmall (tail : Ptr) (s : Inplace) : Except Code Inplace :=
  if !s.usingTail && decide (s.streams.extent ≤ inplaceTailBytes) then
    match s.streams.spill s.mem tail inplaceTailBytes with
    | .error e => .error e
    | .ok (mem, streams) => .ok { s with mem, streams, usingTail := true }
  else .ok s

/-- Pack the streams if the group at `dst` would reach them. -/
def makeRoom (s : Inplace) : Except Code Inplace :=
  if s.streams.blocks s.dst then
    match s.streams.compact s.mem s.streams.smEnd with
    | .error e => .error e
    | .ok (mem, streams) => if streams.blocks s.dst then .error .errSyntax else .ok { s with mem, streams }
  else .ok s

/-- Take the signs with mantissas of one group, and its extra bytes if four are left. -/
def consume (s : Inplace) : Inplace :=
  { s with streams := { s.streams with
      sm := s.streams.sm + 16
      extra := if s.streams.extraEnd.off - s.streams.extra.off ≥ 4 then s.streams.extra + 4 else s.streams.extraEnd } }

/-- The copies `sm` and `extra` that the group is assembled from. -/
def elements (s : Inplace) (read : Nat) : Nat → UInt16 :=
  assembleGroup (fun j => s.buf (read + j)) (fun i => s.mem (s.streams.sm + i))
    (if s.streams.extraEnd.off - s.streams.extra.off ≥ 4 then some fun i => s.mem (s.streams.extra + i) else none)

/-- One group, at `p_exp_read - buf_exp = read`. -/
def group (tail : Ptr) (read : Nat) (s : Inplace) : Except Code Inplace :=
  match s.spillIfSmall tail with
  | .error e => .error e
  | .ok s =>
    if s.streams.smEnd.off - s.streams.sm.off < 16 then .error .errSyntax
    else
      match s.consume.spillIfSmall tail with
      | .error e => .error e
      | .ok t =>
        match if t.usingTail then .ok t else t.makeRoom with
        | .error e => .error e
        | .ok t => .ok { t with mem := t.mem.storeBytes t.dst (groupBytes (s.elements read)), dst := t.dst + 64 }

/-- The groups of a block, from `read` on. -/
def groups (tail : Ptr) (blockEnd read : Nat) (s : Inplace) : Except Code Inplace :=
  if read < blockEnd then
    match s.group tail read with
    | .error e => .error e
    | .ok s => groups tail blockEnd (read + 32) s
  else .ok s
termination_by blockEnd - read

/-- The end of a round of the block loop. -/
def nextBlock (blockEnd : Nat) (s : Inplace) : Inplace :=
  if blockEnd = blockSize then { s with buf := carryTail s.buf, write := s.write - blockSize } else s

/-- The block loop. -/
def blockLoop (lut : Lut) (tail : Ptr) (n iBlock : Nat) (s : Inplace) : Option (Except Code Mem) :=
  if iBlock < n then
    let actualBlockSize := if n - iBlock < blockSize then n - iBlock else blockSize
    match fillBlock lut s.mem actualBlockSize blockSize s.write s.streams.mark s.buf with
    | none => none
    | some (write, mark, buf) =>
      match groups tail actualBlockSize 0 { s with write, buf, streams := { s.streams with mark } } with
      | .error e => some (.error e)
      | .ok s => blockLoop lut tail n (iBlock + blockSize) (s.nextBlock actualBlockSize)
  else some (.ok s.mem)
termination_by n - iBlock
decreasing_by unfold blockSize; omega

end Inplace

/-- `decompress_tunstall_trunc_inplace`; `tail` and `buf` are the stack frame's. -/
def decompressTunstallTruncInplace (m : Mem) (data tail : Ptr) (n : Nat) (buf : Nat → UInt8) : Option (Except Code Mem) :=
  let smTotal := n / 2
  let hdr : Ptr := data + smTotal
  let nMark := m.load32 (hdr + Header.dynNMark)
  if n % 32 ≠ 0 then some (.error .errSyntax)
  else if n / 2 < Header.dynamicLen then some (.error .errSyntax)
  else if m hdr ≠ tsModeDynamic then some (.error .errSyntax)
  else if nMark % 2 ≠ 0 then some (.error .errSyntax)
  else if m.load32 (hdr + Header.dynSrcLen) ≠ n then some (.error .errSyntax)
  else if Header.dynamicLen + nMark > smTotal then some (.error .errSyntax)
  else
    -- the header, with its table, has been copied out before the buffer is repacked
    let src : Ptr := data + n
    let mem := (m.memcpy src hdr smTotal).memcpy (src + smTotal) data smTotal
    let mark : Ptr := src + Header.dynamicLen
    let streams := {
      mark, markEnd := mark + nMark, extra := mark + nMark, extraEnd := src + smTotal, sm := src + smTotal, smEnd := src + n }
    Inplace.blockLoop (loadLut m (hdr + Header.dynLut)) tail n 0
      { mem, streams, buf, write := 0, dst := data, usingTail := false }

/-- `decompress_fp8_to_bf16_inplace`: the loop, down from element `i - 1`. -/
def decompressFp8Inplace (data : Ptr) : Nat → Mem → Mem
  | 0, m => m
  | i + 1, m => decompressFp8Inplace data i (m.store16 (data + 2 * i) (fp8ToBf16 (m (data + i))))

/-- `TunstallDecompressBF16Inplace`. -/
def tunstallDecompressBF16Inplace (m : Mem) (data tail : Ptr) (n : Nat) (buf : Nat → UInt8) : Option (Except Code Mem) :=
  if n = 0 ∨ n > 0xFFFFFFFF then some (.error .errUnsupport)
  else if isTunstall m data n then decompressTunstallTruncInplace m data tail n buf
  else some (.ok (decompressFp8Inplace data n m))

end UnifiedCache.Compress
