/-
  UnifiedCache.Compress.Tunstall — the Tunstall byte codec
  (ucm/store/compress/cc/compress_lib/tunstall.{h,cc}, TS_MARK_BITS = 8).

  The buffers of the callers are memory (`Base.Memory`): the destination and the source are
  pointers into it. The encoder's locals (histogram, table, state tree) are values; arrays are
  functions of their index. The table is built in the destination's header in the code; here it
  is built as a value and stored there when the build ends, also when it ends with an error.

  `double` is a parameter `FloatOps` whose only law is `0.0 < 1.0`: probabilities only steer
  which table item is expanded and when an expansion stops, and the choice of a predefined
  table.

  `none` is a loop that does not end: the walk of the state tree and the table build have no
  bound of their own in the code, so they take fuel here.
-/

import UnifiedCache.Base.Memory

namespace UnifiedCache.Compress

open UnifiedCache.Base

/-- The return codes. -/
inductive Code where
  | tsOk
  | errUnsupport
  | errSyntax
  | errSymbRange
  | errSymbRangePredef
  | errDstOverflow
  | errSrcOverflow
  | errLutBuild
  | errLutCheck
  | errLutMismatch
  | errNormalize
  | errPredefUninit
  | errLarger
  deriving DecidableEq, Repr

/-- What the codec uses of `double`. -/
structure FloatOps (F : Type) where
  zero : F
  one : F
  negOne : F
  add : F → F → F
  sub : F → F → F
  mul : F → F → F
  div : F → F → F
  lt : F → F → Bool
  le : F → F → Bool
  /-- `(double)freq / src_len`. -/
  ofFreq : Nat → Nat → F
  /-- `exp(-((lambda + 1.0) / 64.0) * idx)`. -/
  expTerm : Nat → Nat → F
  /-- `log(x) * (-1.0 / log(2.0))`. -/
  negLog2 : F → F
  /-- `TS_V2_THRESH / TS_LUT_SIZE`. -/
  thresh : F
  /-- `99999.0`. -/
  entropyMax : F
  zero_lt_one : lt zero one = true

def tsNSymb : Nat := 64

def tsNSymbPredef : Nat := 32

def tsCountPredef : Nat := 64

def tsItemSize : Nat := 7

def tsLutSize : Nat := 256

def tsLutBytes : Nat := 2048

def tsEncStateTableSize : Nat := 512

def tsModeUncompress : UInt8 := 0

def tsModeDynamic : UInt8 := 1

def tsModePredefStart : Nat := 2

def tsModePredefEnd : Nat := 66

/-! ## Data -/

structure HistItem (F : Type) where
  symb : UInt8
  freq : Nat
  prob : F
  logProb : F

/-- `hist` holds the items of the array that the code reads, in its order. -/
structure Hist (F : Type) where
  hist : List (HistItem F)
  nSymb : Nat

structure LutItem where
  v : Nat → UInt8
  c : UInt8

structure EncStateItem where
  nextState : UInt8 → Nat
  mark : Nat

abbrev Lut := Nat → LutItem

abbrev EncTree := Nat → EncStateItem

/-- The symbols of an item. -/
def LutItem.word (it : LutItem) : List UInt8 := (List.range it.c.toNat).map it.v

/-- The eight bytes of an item. -/
def LutItem.bytes (it : LutItem) : List UInt8 := (List.range tsItemSize).map it.v ++ [it.c]

def LutItem.empty : LutItem := ⟨fun _ => 0, 0⟩

structure PredefTables (F : Type) where
  hist : Nat → Hist F
  lut : Nat → Lut
  etree : Nat → EncTree
  initialized : Int

/-- What a call leaves: its code, the memory, and `*p_dst_len`. -/
structure Out where
  code : Code
  mem : Mem
  dstLen : Nat

/-! ## Header layouts -/

namespace Header

def dynNMark : Nat := 1

def dynSrcLen : Nat := 5

def dynLut : Nat := 9

/-- `sizeof(p_hdr->dynamic)`. -/
def dynamicLen : Nat := 2057

def preNSymb : Nat := 1

def preNMark : Nat := 2

def preSrcLen : Nat := 6

def preIdx2symb : Nat := 10

def rawLength : Nat := 1

/-- `sizeof(p_hdr->uncompress)`. -/
def uncompressLen : Nat := 5

end Header

/-- `ts_get_header_length`; its last branch is `(size_t)(-1)`. -/
def getHeaderLength (m : Mem) (hdr : Ptr) : Nat :=
  let mode := m hdr
  if mode = tsModeUncompress then Header.uncompressLen
  else if mode = tsModeDynamic then Header.dynamicLen
  else if tsModePredefStart ≤ mode.toNat ∧ mode.toNat < tsModePredefEnd then
    Header.preIdx2symb + (m (hdr + Header.preNSymb)).toNat
  else 2 ^ 64 - 1

/-- Store a table in a header. -/
def storeLut (m : Mem) (p : Ptr) (lut : Lut) : Mem := fun q =>
  if q.blk = p.blk ∧ p.off ≤ q.off ∧ q.off < p.off + tsLutBytes then
    (((lut ((q.off - p.off) / 8)).bytes)[(q.off - p.off) % 8]?).getD 0
  else m q

def loadLutItem (m : Mem) (p : Ptr) (mark : Nat) : LutItem where
  v i := m (p + (8 * mark + i))
  c := m (p + (8 * mark + 7))

def loadLut (m : Mem) (p : Ptr) : Lut := loadLutItem m p

variable {F : Type} (D : FloatOps F)

/-! ## Histogram -/

/-- `ts_cmp_hist`, as `a` not after `b`: higher frequency first, then lower symbol. -/
def cmpHist (a b : HistItem F) : Bool :=
  if a.freq ≠ b.freq then b.freq < a.freq else a.symb ≤ b.symb

/-- The counting loop of `ts_get_hist_from_array`, from byte `i` on. -/
def countFreq (m : Mem) (src : Ptr) (srcLen : Nat) (i : Nat) (freq : Nat → Nat) : Except Code (Nat → Nat) :=
  if i < srcLen then
    let symb := (m (src + i)).toNat
    if symb ≥ tsNSymb then .error .errSymbRange
    else countFreq m src srcLen (i + 1) (Function.update freq symb (freq symb + 1))
  else .ok freq
termination_by srcLen - i

/-- `ts_get_hist_from_array`. -/
def getHistFromArray (m : Mem) (src : Ptr) (srcLen : Nat) : Except Code (Hist F) :=
  match countFreq m src srcLen 0 (fun _ => 0) with
  | .error e => .error e
  | .ok freq =>
    let items := (List.range tsNSymb).map fun symb =>
      (⟨.ofNat symb, freq symb, D.ofFreq (freq symb) srcLen, D.zero⟩ : HistItem F)
    .ok ⟨items.mergeSort cmpHist, (items.filter fun h => h.freq ≠ 0).length⟩

/-! ## Building a table -/

/-- `ts_add_symb_to_item`. -/
def addSymbToItem (item : LutItem) (newSymb : UInt8) : LutItem :=
  ⟨Function.update item.v item.c.toNat newSymb, item.c + 1⟩

/-- The table under construction. -/
structure Build (F : Type) where
  lut : Lut
  lutProb : Nat → F
  lutBlackList : Nat → Bool
  etree : EncTree
  newState : Nat

/-- `ts_search_largest_item`; `none` is `UINT32_MAX`. -/
def searchLargestItem (b : Build F) (lutSize : Nat) : Option Nat :=
  ((List.range lutSize).foldl
    (fun (acc : F × Option Nat) mark =>
      if b.lutBlackList mark = false ∧ (b.lut mark).c.toNat < tsItemSize ∧ D.lt acc.1 (b.lutProb mark) then
        (b.lutProb mark, some mark)
      else acc)
    (D.zero, none)).2

/-- `ts_check_lut`'s second loop. -/
def checkLutRest (lut : Lut) : List Nat → Code
  | [] => .tsOk
  | mark :: rest => if (lut mark).c ≠ 0 then .errLutCheck else checkLutRest lut rest

/-- `ts_check_lut`'s first loop, going on to the second at the first empty item. -/
def checkLutFrom (lut : Lut) : List Nat → Code
  | [] => .tsOk
  | mark :: rest =>
    if (lut mark).c.toNat > tsItemSize then .errLutCheck
    else if (lut mark).c = 0 then checkLutRest lut (mark :: rest)
    else checkLutFrom lut rest

def checkLut (lut : Lut) : Code := checkLutFrom lut (List.range tsLutSize)

/-- `ts_goto_state_by_lut_item`. -/
def gotoStateByLutItem (etree : EncTree) (item : LutItem) : Nat :=
  item.word.foldl (fun state symb => (etree state).nextState symb) 0

/-- `while (p_lut[mark].c != 0)`: the next empty item; `none` past the table. -/
def skipUsed (lut : Lut) (mark : Nat) : Option Nat :=
  if (lut mark).c ≠ 0 then
    if mark + 1 ≥ tsLutSize then none else skipUsed lut (mark + 1)
  else some mark
termination_by tsLutSize - mark

namespace Build

def setItem (b : Build F) (mark : Nat) (item : LutItem) : Build F :=
  { b with lut := Function.update b.lut mark item }

def setMark (b : Build F) (state mark : Nat) : Build F :=
  { b with etree := Function.update b.etree state { b.etree state with mark := mark } }

/-- A new state under `state`, with its mark. -/
def addState (b : Build F) (state : Nat) (symb : UInt8) (mark : Nat) : Build F :=
  let newState := b.newState + 1
  let etree := Function.update b.etree state
    { b.etree state with nextState := Function.update (b.etree state).nextState symb newState }
  { b with newState, etree := Function.update etree newState { etree newState with mark := mark } }

end Build

/-- The loop over the symbols of one expansion, from index `idx`. -/
def expandFrom (nSymb state : Nat) (maxItem : LutItem) (maxProb : F) :
    List (HistItem F) → Nat → F → Nat → Build F → Code × Build F × Nat
  | [], _, _, mark, b => (.tsOk, b, mark)
  | h :: rest, idx, remProb, mark, b =>
    match skipUsed b.lut mark with
    | none => (.errLutBuild, b, mark)
    | some mark =>
      if mark < tsLutSize - 1 then
        if maxItem.c.toNat > 0 ∧ 0 < idx ∧ idx < nSymb - 1 ∧ D.lt (D.mul maxProb remProb) D.thresh then
          -- the remaining symbols are not worth an item: the old word stays, closed to expansion
          let b := (b.setItem mark maxItem).setMark state mark
          (.tsOk, { b with lutBlackList := Function.update b.lutBlackList mark true }, mark)
        else
          let b := (b.setItem mark (addSymbToItem maxItem h.symb)).addState state h.symb mark
          let b := { b with lutProb := Function.update b.lutProb mark (D.mul maxProb h.prob) }
          expandFrom nSymb state maxItem maxProb rest (idx + 1) (D.sub remProb h.prob) mark b
      else if idx ≥ nSymb - 1 then
        (.tsOk, (b.setItem mark (addSymbToItem maxItem h.symb)).addState state h.symb mark, mark)
      else (.tsOk, (b.setItem mark maxItem).setMark state mark, mark)

/-- The `do … while (lut_size < TS_LUT_SIZE)` of `ts_build_lut`. -/
def buildLoop (hist : Hist F) : Nat → Nat → Build F → Option (Code × Build F)
  | 0, _, _ => none
  | fuel + 1, lutSize, b =>
    match searchLargestItem D b lutSize with
    | none => some (.tsOk, b)
    | some mark =>
      let maxItem := b.lut mark
      let state := gotoStateByLutItem b.etree maxItem
      match expandFrom D hist.nSymb state maxItem (b.lutProb mark) (hist.hist.take hist.nSymb) 0 D.one mark
          (b.setItem mark { maxItem with c := 0 }) with
      | (.tsOk, b, mark) => if mark + 1 < tsLutSize then buildLoop hist fuel (mark + 1) b else some (.tsOk, b)
      | (e, b, _) => some (e, b)

def Build.init : Build F where
  lut := fun _ => .empty
  lutProb := Function.update (fun _ => D.zero) 0 D.one
  lutBlackList := fun _ => false
  etree := fun _ => ⟨fun _ => 0, 0⟩
  newState := 0

/-- `ts_build_lut`. -/
def buildLut (hist : Hist F) : Option (Code × Build F) := buildLoop D hist tsEncStateTableSize 1 (Build.init D)

/-! ## Encoding -/

/-- The walk from `state`: `symbAt i` is the symbol at input position `i`. Returns the mark of
    the state it stops in and the position after the last symbol taken. -/
def walkMark (etree : EncTree) (symbAt : Nat → UInt8) : Nat → Nat → Nat → Option (Nat × Nat)
  | 0, _, _ => none
  | fuel + 1, state, ip =>
    let next := (etree state).nextState (symbAt ip)
    if next = 0 then some ((etree state).mark, ip) else walkMark etree symbAt fuel next (ip + 1)

/-- `ts_get_mark_by_input_stream`. -/
def getMarkByInputStream (etree : EncTree) (mostFreqSymb : UInt8) (src : Ptr) (ipEnd : Nat) (m : Mem) (ip : Nat) :
    Option (Nat × Nat) :=
  walkMark etree (fun ip => if ip < ipEnd then m (src + ip) else mostFreqSymb) tsEncStateTableSize 0 ip

/-- `ts_get_mark_by_input_stream_symb2idx`. -/
def getMarkByInputStreamSymb2idx (etree : EncTree) (symb2idx : UInt8 → UInt8) (src : Ptr) (ipEnd : Nat) (m : Mem)
    (ip : Nat) : Option (Nat × Nat) :=
  walkMark etree (fun ip => if ip < ipEnd then symb2idx (m (src + ip)) else 0) tsEncStateTableSize 0 ip

/-- The loop of the two encoders. `opp` and `opEnd` are offsets from `dst`. -/
def encodeLoop (getMark : Mem → Nat → Option (Nat × Nat)) (dst : Ptr) (pNMark opEnd srcLen : Nat) (m : Mem)
    (opp ip nMark : Nat) : Option (Code × Mem × Nat) :=
  if ip < srcLen then
    match getMark m ip with
    | none => none
    | some (mark1, ip) =>
      match getMark m ip with
      | none => none
      | some (mark2, ip) =>
        if opp + 2 ≥ opEnd then some (.errDstOverflow, m, opp)
        else
          let m := m.store32 (dst + opp) ((mark2 <<< 8) ||| mark1)
          encodeLoop getMark dst pNMark opEnd srcLen (m.store32 (dst + pNMark) (nMark + 2)) (opp + 2) ip (nMark + 2)
  else some (.tsOk, m, opp)
termination_by opEnd - opp

/-- `ts_encode_dynamic`. -/
def encodeDynamic (etree : EncTree) (dst : Ptr) (opp opEnd : Nat) (src : Ptr) (srcLen : Nat) (mostFreqSymb : UInt8)
    (m : Mem) : Option (Code × Mem × Nat) :=
  encodeLoop (getMarkByInputStream etree mostFreqSymb src srcLen) dst Header.dynNMark opEnd srcLen
    (m.store32 (dst + Header.dynNMark) 0) opp 0 0

/-- `ts_encode_predef`. -/
def encodePredef (etree : EncTree) (symb2idx : UInt8 → UInt8) (dst : Ptr) (opp opEnd : Nat) (src : Ptr) (srcLen : Nat)
    (m : Mem) : Option (Code × Mem × Nat) :=
  encodeLoop (getMarkByInputStreamSymb2idx etree symb2idx src srcLen) dst Header.preNMark opEnd srcLen
    (m.store32 (dst + Header.preNMark) 0) opp 0 0

/-! ## Compression -/

/-- `TunstallCompressDynamic`. -/
def tunstallCompressDynamic (m : Mem) (dst : Ptr) (dstLen : Nat) (src : Ptr) (srcLen : Nat) : Option Out :=
  if dstLen < tsLutBytes then some ⟨.errDstOverflow, m, dstLen⟩
  else if srcLen = 0 ∨ srcLen > 0xFFFFFFFF then some ⟨.errSrcOverflow, m, dstLen⟩
  else
    match getHistFromArray D m src srcLen with
    | .error e => some ⟨e, m, dstLen⟩
    | .ok hist =>
      let mostFreqSymb := (hist.hist.head?.map (·.symb)).getD 0
      match buildLut D hist with
      | none => none
      | some (code, b) =>
        let m := storeLut m (dst + Header.dynLut) b.lut
        if code ≠ .tsOk then some ⟨code, m, dstLen⟩
        else if checkLut b.lut ≠ .tsOk then some ⟨checkLut b.lut, m, dstLen⟩
        else
          let m := m.store dst tsModeDynamic
          let m := m.store32 (dst + Header.dynSrcLen) srcLen
          match encodeDynamic b.etree dst (getHeaderLength m dst) dstLen src srcLen mostFreqSymb m with
          | none => none
          | some (.tsOk, m, opp) => some ⟨.tsOk, m, opp⟩
          | some (e, m, _) => some ⟨e, m, dstLen⟩

/-- `ts_all_predef_luts_available`. -/
def allPredefLutsAvailable (t : Option (PredefTables F)) : Option (PredefTables F) :=
  t.filter fun t => t.initialized = 1

/-- `ts_init_predef_probs`: the histogram, or the error. -/
def initPredefProbs (nSymb lambda : Nat) : Except Code (Hist F) :=
  let probs := (List.range nSymb).map fun idx => D.expTerm lambda idx
  let sum := probs.foldl D.add D.zero
  if D.le sum D.zero then .error .errNormalize
  else
    let hist := probs.zipIdx.map fun (p, idx) =>
      (⟨.ofNat idx, 0, D.div p sum, D.negLog2 (D.div p sum)⟩ : HistItem F)
    .ok ⟨hist, tsNSymbPredef⟩

/-- The loop of `TunstallInitAllPredefTables`. -/
def initPredefFrom : List Nat → PredefTables F → Option (Code × PredefTables F)
  | [], t => some (.tsOk, { t with initialized := 1 })
  | lambda :: rest, t =>
    match initPredefProbs D tsNSymbPredef lambda with
    | .error e => some (e, t)
    | .ok hist =>
      match buildLut D hist with
      | none => none
      | some (code, b) =>
        let t := { t with
          hist := Function.update t.hist lambda hist
          lut := Function.update t.lut lambda b.lut
          etree := Function.update t.etree lambda b.etree }
        if code ≠ .tsOk then some (code, t)
        else if checkLut b.lut ≠ .tsOk then some (checkLut b.lut, t)
        else initPredefFrom rest t

/-- `TunstallInitAllPredefTables`. -/
def tunstallInitAllPredefTables (t : PredefTables F) : Option (Code × PredefTables F) :=
  initPredefFrom D (List.range tsCountPredef) t

/-- `ts_cross_entropy`. -/
def crossEntropy (hist1 hist2 : Hist F) : F :=
  if hist1.nSymb > hist2.nSymb then D.negOne
  else
    ((hist1.hist.take hist1.nSymb).zip hist2.hist).foldl
      (fun entropy (h1, h2) => D.add entropy (D.mul h1.prob h2.logProb)) D.zero

/-- The loop of `ts_find_best`. -/
def findBestFrom (t : PredefTables F) (hist : Hist F) : List Nat → F → Nat → Except Code Nat
  | [], _, bestLambda => .ok bestLambda
  | lambda :: rest, bestEntropy, bestLambda =>
    let entropy := crossEntropy D hist (t.hist lambda)
    if D.le entropy D.zero then .error .errNormalize
    else if D.lt entropy bestEntropy then findBestFrom t hist rest entropy lambda
    else findBestFrom t hist rest bestEntropy bestLambda

/-- `ts_find_best`. -/
def findBest (t : PredefTables F) (hist : Hist F) : Except Code Nat :=
  findBestFrom D t hist (List.range tsCountPredef) D.entropyMax 0

/-- `ts_build_idx2symb_symb2idx`: the symbols by index, and each symbol's index. -/
def buildIdx2symbSymb2idx (idx2symbLen symb2idxLen : Nat) (hist : Hist F) : Except Code (List UInt8 × (UInt8 → UInt8)) :=
  if idx2symbLen < hist.nSymb then .error .errDstOverflow
  else if symb2idxLen < tsNSymb then .error .errDstOverflow
  else
    let idx2symb := (hist.hist.take hist.nSymb).map (·.symb)
    .ok (idx2symb, idx2symb.zipIdx.foldl (fun f (symb, idx) => Function.update f symb (.ofNat idx)) (fun _ => 0))

/-- `TunstallCompressPredef`. -/
def tunstallCompressPredef (m : Mem) (dst : Ptr) (dstLen : Nat) (src : Ptr) (srcLen : Nat)
    (predefLuts : Option (PredefTables F)) : Option Out :=
  match allPredefLutsAvailable predefLuts with
  | none => some ⟨.errPredefUninit, m, dstLen⟩
  | some t =>
    if dstLen < tsLutBytes then some ⟨.errDstOverflow, m, dstLen⟩
    else if srcLen = 0 ∨ srcLen > 0xFFFFFFFF then some ⟨.errSrcOverflow, m, dstLen⟩
    else
      match getHistFromArray D m src srcLen with
      | .error e => some ⟨e, m, dstLen⟩
      | .ok hist =>
        if hist.nSymb > tsNSymbPredef then some ⟨.errSymbRangePredef, m, dstLen⟩
        else
          match findBest D t hist with
          | .error e => some ⟨e, m, dstLen⟩
          | .ok lambda =>
            let m := m.store dst (.ofNat (tsModePredefStart + lambda))
            let m := m.store (dst + Header.preNSymb) (.ofNat hist.nSymb)
            let m := m.store32 (dst + Header.preSrcLen) srcLen
            match buildIdx2symbSymb2idx tsNSymbPredef tsNSymb hist with
            | .error e => some ⟨e, m, dstLen⟩
            | .ok (idx2symb, symb2idx) =>
              let m := m.storeBytes (dst + Header.preIdx2symb) idx2symb
              match encodePredef (t.etree lambda) symb2idx dst (getHeaderLength m dst) dstLen src srcLen m with
              | none => none
              | some (.tsOk, m, opp) => some ⟨.tsOk, m, opp⟩
              | some (e, m, _) => some ⟨e, m, dstLen⟩

/-- `ts_do_not_compress`. -/
def doNotCompress (m : Mem) (dst : Ptr) (dstLen : Nat) (src : Ptr) (srcLen : Nat) : Out :=
  if srcLen + Header.uncompressLen > dstLen then ⟨.errDstOverflow, m, dstLen⟩
  else
    let m := m.store dst tsModeUncompress
    let m := m.store32 (dst + Header.rawLength) srcLen
    ⟨.tsOk, m.memcpy (dst + Header.uncompressLen) src srcLen, Header.uncompressLen + srcLen⟩

/-- `TunstallCompress`. -/
def tunstallCompress (m : Mem) (dst : Ptr) (dstLen : Nat) (src : Ptr) (srcLen : Nat)
    (predefLuts : Option (PredefTables F)) : Option Out :=
  match tunstallCompressDynamic D m dst dstLen src srcLen with
  | none => none
  | some dynam =>
    match tunstallCompressPredef D dynam.mem dst dstLen src srcLen predefLuts with
    | none => none
    | some predef =>
      let okDynam : Bool := dynam.code = .tsOk ∧ dynam.dstLen < srcLen
      let okPredef : Bool := predef.code = .tsOk ∧ predef.dstLen < srcLen
      -- when both fit, the longer one is dropped
      let okPredef' := okPredef && !(okDynam && decide (predef.dstLen ≥ dynam.dstLen))
      let okDynam' := okDynam && !(okPredef && decide (predef.dstLen < dynam.dstLen))
      if okDynam' then tunstallCompressDynamic D predef.mem dst dstLen src srcLen
      else if okPredef' then some ⟨.tsOk, predef.mem, predef.dstLen⟩
      else some (doNotCompress predef.mem dst dstLen src srcLen)

/-! ## Decompression -/

/-- `ts_cvt_lut_idx2symb`. -/
def cvtLutIdx2symb (lut : Lut) (m : Mem) (idx2symb : Ptr) : Lut := fun mark =>
  ⟨fun i => m (idx2symb + ((lut mark).v i).toNat), (lut mark).c⟩

/-- `ts_cvt_data_idx2symb`: the loop from `i`. -/
def cvtDataIdx2symb (idx2symb : Ptr) (data : Ptr) (srcLen : Nat) (i : Nat) (m : Mem) : Mem :=
  if i < srcLen then
    cvtDataIdx2symb idx2symb data srcLen (i + 1) (m.store (data + i) (m (idx2symb + (m (data + i)).toNat)))
  else m
termination_by srcLen - i

/-- The mark loop of `TunstallDecompress`, from mark `iMark`; `out` is `p_dst - p_dst_base`. A
    table in the header is read from memory at each mark. -/
def decodeLoop (lutOf : Mem → Lut) (dst src : Ptr) (nMark iMark out : Nat) (m : Mem) : Mem × Nat :=
  if iMark < nMark then
    let mark21 := m.load32 (src + iMark)
    let mark1 := mark21 % 256
    let mark2 := (mark21 / 256) % 256
    let it1 := lutOf m mark1
    let m := m.storeBytes (dst + out) it1.bytes
    let out := out + it1.c.toNat
    let it2 := lutOf m mark2
    let m := m.storeBytes (dst + out) it2.bytes
    decodeLoop lutOf dst src nMark (iMark + 2) (out + it2.c.toNat) m
  else (m, out)
termination_by nMark - iMark

/-- `TunstallDecompress`. -/
def tunstallDecompress (m : Mem) (dst src : Ptr) (dstLen : Nat) (doIdx2symbOnPredefLut : Bool)
    (predefLuts : Option (PredefTables F)) : Out :=
  let mode := m src
  if mode = tsModeUncompress then
    let length := m.load32 (src + Header.rawLength)
    ⟨.tsOk, m.memcpy dst (src + getHeaderLength m src) length, length⟩
  else if mode = tsModeDynamic then
    if checkLut (loadLut m (src + Header.dynLut)) ≠ .tsOk then ⟨checkLut (loadLut m (src + Header.dynLut)), m, dstLen⟩
    else
      let nMark := m.load32 (src + Header.dynNMark)
      let srcLen := m.load32 (src + Header.dynSrcLen)
      let (m', out) := decodeLoop (fun m => loadLut m (src + Header.dynLut)) dst (src + getHeaderLength m src) nMark 0 0 m
      if out < srcLen then ⟨.errSyntax, m', dstLen⟩ else ⟨.tsOk, m', srcLen⟩
  else if tsModePredefStart ≤ mode.toNat ∧ mode.toNat < tsModePredefEnd then
    match allPredefLutsAvailable predefLuts with
    | none => ⟨.errPredefUninit, m, dstLen⟩
    | some t =>
      let lambda := mode.toNat - tsModePredefStart
      let lut := if doIdx2symbOnPredefLut then cvtLutIdx2symb (t.lut lambda) m (src + Header.preIdx2symb) else t.lut lambda
      let nMark := m.load32 (src + Header.preNMark)
      let srcLen := m.load32 (src + Header.preSrcLen)
      let (m', out) := decodeLoop (fun _ => lut) dst (src + getHeaderLength m src) nMark 0 0 m
      if out < srcLen then ⟨.errSyntax, m', dstLen⟩
      else if doIdx2symbOnPredefLut then ⟨.tsOk, m', srcLen⟩
      else ⟨.tsOk, cvtDataIdx2symb (src + Header.preIdx2symb) dst srcLen 0 m', srcLen⟩
  else ⟨.errSyntax, m, dstLen⟩

end UnifiedCache.Compress
