/-
  UnifiedCache.Compress.Bf16 — the lossy BF16 codec over the Tunstall codec
  (ucm/store/compress/cc/compress_lib/tunstall_bf16.cc, scalar path).

  The compressor's source and the decompressor's separate destination are arrays of 16-bit
  values (functions of the index); compressed bytes are memory. Loops that write consecutive
  bytes are the list of those bytes in the loop's order. Decompression in place works on memory
  throughout: the buffer is one object, the 8 KiB tail of the stack frame another.

  `none` is a loop that does not end: the table build of the compressor, and in the
  decompressors a stream whose marks give fewer symbols than a block needs, past which the
  code reads on.
-/

import UnifiedCache.Compress.Tunstall

namespace UnifiedCache.Compress

open UnifiedCache.Base

def minBf16Count : Nat := 16384

def inplaceTailBytes : Nat := 8192

def blockSize : Nat := 8192

def blockTail : Nat := 8

def bf16ExpMin : UInt16 := 112

def bf16ExpMax : UInt16 := 143

/-! ## Elements -/

/-- `e` in `bf16_to_exp`, before the bias is taken off. -/
def bf16ClampExp (x : UInt16) : UInt16 :=
  let e := (x >>> 7) &&& 0xFF
  let e := if e < bf16ExpMin then bf16ExpMin else e
  if e > bf16ExpMax then bf16ExpMax else e

def bf16ToExp (x : UInt16) : UInt8 := (bf16ClampExp x - bf16ExpMin).toUInt8

def bf16SignMant8 (x : UInt16) : UInt8 := (((x >>> 8) &&& 0x80) ||| (x &&& 0x7F)).toUInt8

def bf16PackExtra8 (src : Nat → UInt16) : UInt8 :=
  (List.range 8).foldl (fun extra8 lane => extra8 ||| (((src lane >>> 3) &&& 0x01) <<< (7 - .ofNat lane)).toUInt8) 0

/-- One byte of `compress_bf16_to_fp8`. -/
def bf16ToFp8 (x : UInt16) : UInt8 :=
  let exp5 := bf16ToExp x
  let sign := ((x >>> 15) &&& 0x01).toUInt8
  let mant2 := ((x >>> 5) &&& 0x03).toUInt8
  (exp5 <<< 3) ||| (sign <<< 2) ||| mant2

/-- One element of `decompress_fp8_to_bf16`. -/
def fp8ToBf16 (b : UInt8) : UInt16 :=
  let fp8 := b.toUInt16
  let exp8 := ((fp8 >>> 3) + bf16ExpMin) <<< 7
  let sign := (fp8 &&& 0x04) <<< 13
  let mant2 := (fp8 &&& 0x03) <<< 5
  sign ||| exp8 ||| mant2 ||| 0x10

/-! ## Compression -/

/-- The exponents in the order of `p_exp`. -/
def permutedExps (src : Nat → UInt16) (n : Nat) : List UInt8 :=
  (List.range (n / 16)).flatMap fun i =>
    (List.range 8).flatMap fun lane => [bf16ToExp (src (16 * i + lane)), bf16ToExp (src (16 * i + lane + 8))]

/-- Signs and three mantissa bits, two elements to a byte. -/
def signMantBytes (src : Nat → UInt16) (n : Nat) : List UInt8 :=
  (List.range (n / 32)).flatMap fun i =>
    (List.range 8).flatMap fun lane =>
      let sm0 := bf16SignMant8 (src (32 * i + lane)) >>> 4
      let sm8 := bf16SignMant8 (src (32 * i + lane + 8)) >>> 4
      let sm16 := bf16SignMant8 (src (32 * i + lane + 16)) >>> 4
      let sm24 := bf16SignMant8 (src (32 * i + lane + 24)) >>> 4
      [sm0 ||| (sm8 <<< 4), sm16 ||| (sm24 <<< 4)]

def extraBytesOf (src : Nat → UInt16) (extraBytes : Nat) : List UInt8 :=
  (List.range extraBytes).map fun i => bf16PackExtra8 fun lane => src (8 * i + lane)

/-- The fallback: FP8 bytes, the one at `n / 2` changed so that it is not the dynamic mode. -/
def compressFp8 (m : Mem) (dst : Ptr) (src : Nat → UInt16) (n : Nat) : Mem :=
  let m := m.storeBytes dst ((List.range n).map fun i => bf16ToFp8 (src i))
  m.store (dst + n / 2) (m (dst + n / 2) &&& 0xFE)

variable {F : Type} (D : FloatOps F)

/-- Stages 0 and 1 of `TunstallCompressBF16`. -/
def compressExps (m : Mem) (dst : Ptr) (src : Nat → UInt16) (n : Nat) : Option Out :=
  tunstallCompressDynamic D (m.storeBytes (dst + n) (permutedExps src n)) (dst + n / 2) (n / 2) (dst + n) n

/-- Bytes of the fourth mantissa bits, after a stream of `tunstallLen` bytes. -/
def extraBytes (n tunstallLen : Nat) : Nat :=
  if n / 2 - tunstallLen ≥ n / 8 then n / 8 else n / 2 - tunstallLen

/-- `TunstallCompressBF16`. -/
def tunstallCompressBF16 (m : Mem) (dst : Ptr) (src : Nat → UInt16) (n : Nat) : Option (Code × Mem) :=
  if n = 0 ∨ n > 0xFFFFFFFF then some (.errUnsupport, m)
  else if n < minBf16Count ∨ n % 32 ≠ 0 then some (.tsOk, compressFp8 m dst src n)
  else
    match compressExps D m dst src n with
    | none => none
    | some out =>
      if out.code ≠ .tsOk ∨ out.dstLen > n / 2 then some (.tsOk, compressFp8 out.mem dst src n)
      else
        let m := out.mem.storeBytes dst (signMantBytes src n)
        some (.tsOk, m.storeBytes (dst + n / 2 + out.dstLen) (extraBytesOf src (extraBytes n out.dstLen)))

/-! ## Decompression of a Tunstall stream

The ring buffer `buf_exp` holds a block of exponents and up to `blockTail` bytes over. -/

/-- The mark loop of a block: `write` is `p_exp_write - buf_exp`. -/
def fillBlock (lut : Lut) (m : Mem) (blockEnd : Nat) : Nat → Nat → Ptr → (Nat → UInt8) → Option (Nat × Ptr × (Nat → UInt8))
  | 0, write, mark, buf => if write < blockEnd then none else some (write, mark, buf)
  | fuel + 1, write, mark, buf =>
    if write < blockEnd then
      let it := lut (m mark).toNat
      fillBlock lut m blockEnd fuel (write + it.c.toNat) (mark + 1)
        (fun j => if write ≤ j ∧ j < write + 8 then (it.bytes[j - write]?).getD 0 else buf j)
    else some (write, mark, buf)

/-- `memcpy(buf_exp, buf_exp + BLOCK_SIZE, BLOCK_TAIL)`. -/
def carryTail (buf : Nat → UInt8) : Nat → UInt8 := fun j => if j < blockTail then buf (blockSize + j) else buf j

/-- A sign, an exponent and three mantissa bits. -/
def assembleElem (sm : UInt16) (exp : UInt8) : UInt16 :=
  ((sm &&& 0x08) <<< 12) ||| ((exp.toUInt16 + bf16ExpMin) <<< 7) ||| ((sm &&& 0x07) <<< 4)

/-- Element `j` of a group before its low mantissa bits: `exp` are the group's 32 exponents,
    `sm` its 16 bytes. -/
def groupElem (exp sm : Nat → UInt8) (j : Nat) : UInt16 :=
  let lane := j % 8
  let smLo := (sm (2 * lane)).toUInt16
  let smHi := (sm (2 * lane + 1)).toUInt16
  match j / 8 with
  | 0 => assembleElem smLo (exp (2 * lane))
  | 1 => assembleElem (smLo >>> 4) (exp (2 * lane + 1))
  | 2 => assembleElem smHi (exp (16 + 2 * lane))
  | _ => assembleElem (smHi >>> 4) (exp (16 + 2 * lane + 1))

/-- The 32 elements of a group; `extra` are its four bytes, if they are there. -/
def assembleGroup (exp sm : Nat → UInt8) (extra : Option (Nat → UInt8)) (j : Nat) : UInt16 :=
  let lane := j % 8
  match extra with
  | some e => groupElem exp sm j ||| ((((e (j / 8)).toUInt16 >>> (7 - .ofNat lane)) &&& 0x01) <<< 3) ||| 0x03
  | none => groupElem exp sm j ||| 0x08

/-- The variables of `decompress_tunstall_trunc`; `dst` is the output array and `pDst` an index
    into it. -/
structure Decoder where
  buf : Nat → UInt8
  write : Nat
  mark : Ptr
  src : Ptr
  extra : Ptr
  pDst : Nat
  dst : Nat → UInt16

/-- One round of stage 2, at `p_exp_read - buf_exp = read`. -/
def Decoder.assemble (m : Mem) (extraFinal : Ptr) (read : Nat) (s : Decoder) : Decoder :=
  let extra := if s.extra.off ≤ extraFinal.off then some fun i => m (s.extra + i) else none
  let group := assembleGroup (fun j => s.buf (read + j)) (fun i => m (s.src + i)) extra
  { s with
    dst := fun i => if s.pDst ≤ i ∧ i < s.pDst + 32 then group (i - s.pDst) else s.dst i
    src := s.src + 16
    pDst := s.pDst + 32
    extra := s.extra + 4 }

/-- Stage 2 of a block, from `read` on. -/
def assembleBlock (m : Mem) (extraFinal : Ptr) (blockEnd read : Nat) (s : Decoder) : Decoder :=
  if read < blockEnd then assembleBlock m extraFinal blockEnd (read + 32) (s.assemble m extraFinal read) else s
termination_by blockEnd - read

/-- The end of a round of the block loop. -/
def Decoder.nextBlock (s : Decoder) : Decoder := { s with buf := carryTail s.buf, write := s.write - blockSize }

/-- The block loop of `decompress_tunstall_trunc`. -/
def decodeBlocks (lut : Lut) (m : Mem) (extraFinal : Ptr) (n iBlock : Nat) (s : Decoder) : Option (Nat → UInt16) :=
  if iBlock < n then
    let actualBlockSize := if n - iBlock < blockSize then n - iBlock else blockSize
    match fillBlock lut m actualBlockSize blockSize s.write s.mark s.buf with
    | none => none
    | some (write, mark, buf) =>
      let s := assembleBlock m extraFinal actualBlockSize 0 { s with buf, write, mark }
      decodeBlocks lut m extraFinal n (iBlock + blockSize) s.nextBlock
  else some s.dst
termination_by n - iBlock
decreasing_by unfold blockSize; omega

/-- `decompress_tunstall_trunc`; `buf` is what the ring buffer held. -/
def decompressTunstallTrunc (m : Mem) (dst : Nat → UInt16) (src : Ptr) (n : Nat) (buf : Nat → UInt8) :
    Option (Code × (Nat → UInt16)) :=
  let hdr : Ptr := src + n / 2
  let mark : Ptr := hdr + Header.dynamicLen
  let nMark := m.load32 (hdr + Header.dynNMark)
  if n % 32 ≠ 0 then some (.errSyntax, dst)
  else if m hdr ≠ tsModeDynamic then some (.errSyntax, dst)
  else if nMark % 2 ≠ 0 then some (.errSyntax, dst)
  else if m.load32 (hdr + Header.dynSrcLen) ≠ n then some (.errSyntax, dst)
  else
    let s := { buf, write := 0, mark, src, extra := mark + nMark, pDst := 0, dst }
    (decodeBlocks (loadLut m (hdr + Header.dynLut)) m (src + (n - 4)) n 0 s).map fun dst => (.tsOk, dst)

/-- Whether the decompressors take the stream for a Tunstall one. -/
def isTunstall (m : Mem) (src : Ptr) (n : Nat) : Bool := n % 32 = 0 ∧ m (src + n / 2) = tsModeDynamic

/-- `TunstallDecompressBF16`. -/
def tunstallDecompressBF16 (m : Mem) (dst : Nat → UInt16) (src : Ptr) (n : Nat) (buf : Nat → UInt8) :
    Option (Code × (Nat → UInt16)) :=
  if n = 0 ∨ n > 0xFFFFFFFF then some (.errUnsupport, dst)
  else if isTunstall m src n then decompressTunstallTrunc m dst src n buf
  else some (.tsOk, fun i => if i < n then fp8ToBf16 (m (src + i)) else dst i)

end UnifiedCache.Compress
