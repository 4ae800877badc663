/-
  UnifiedCache.Compress.Bf16Layout — what `TunstallCompressBF16` leaves in its `n` bytes
  (see `UnifiedCache.Compress.Bf16`).

  Proved: the element packings read back (`assembleElem_lo`, `assembleElem_hi`, `extra_spec`,
  `fp8_spec`), and the layout of the two paths (`compressBF16_spec`): signs and mantissas, a
  dynamic-mode stream of the permuted exponents, then the fourth mantissa bits; or FP8 bytes
  whose middle one is not the dynamic mode.
-/

import Mathlib.Tactic.IntervalCases
import UnifiedCache.Compress.Bf16
import UnifiedCache.Compress.RoundTrip

namespace UnifiedCache.Compress

open UnifiedCache.Base

/-! ## Elements -/

theorem uint16_ext {x y : UInt16} (h : ∀ i, i < 16 → x.toBitVec.getLsbD i = y.toBitVec.getLsbD i) : x = y :=
  UInt16.eq_of_toBitVec_eq (BitVec.eq_of_getLsbD_eq h)

theorem getLsbD_of_lt {w k i : Nat} (b : BitVec w) (h : b.toNat < 2 ^ k) (hi : k ≤ i) : b.getLsbD i = false := by
  rw [← BitVec.testBit_toNat]
  exact Nat.testBit_lt_two_pow (Nat.lt_of_lt_of_le h (Nat.pow_le_pow_right (by decide) hi))

/-- The sign and the exponent, clamped. -/
def bf16Head (x : UInt16) : UInt16 := (x &&& (0x8000 : UInt16)) ||| (bf16ClampExp x <<< 7)

theorem clampExp_cases (x : UInt16) : ∃ k : Fin 32, bf16ClampExp x = bf16ExpMin + .ofNat k := by
  unfold bf16ClampExp
  generalize (x >>> 7) &&& 0xFF = e
  simp only
  by_cases hlo : e < bf16ExpMin
  · rw [if_pos hlo]
    exact ⟨0, by decide⟩
  · rw [if_neg hlo]
    by_cases hhi : e > bf16ExpMax
    · rw [if_pos hhi]
      exact ⟨31, by decide⟩
    · rw [if_neg hhi]
      have h1 : 112 ≤ e.toNat := by
        rw [UInt16.lt_iff_toNat_lt] at hlo
        exact Nat.le_of_not_lt hlo
      have h2 : e.toNat ≤ 143 := by
        rw [gt_iff_lt, UInt16.lt_iff_toNat_lt] at hhi
        exact Nat.le_of_not_lt hhi
      refine ⟨⟨e.toNat - 112, by omega⟩, UInt16.toNat_inj.mp ?_⟩
      simp [bf16ExpMin]
      omega

theorem toExp_spec (x : UInt16) : (bf16ToExp x).toUInt16 + bf16ExpMin = bf16ClampExp x ∧ bf16ToExp x < 32 := by
  obtain ⟨k, hk⟩ := clampExp_cases x
  unfold bf16ToExp
  rw [hk]
  clear hk
  revert k
  decide

/-- The byte of two elements' signs and mantissas. -/
def signMantPair (x y : UInt16) : UInt8 := (bf16SignMant8 x >>> 4) ||| ((bf16SignMant8 y >>> 4) <<< 4)

section Pair

variable (x y : UInt16)

theorem signMant_lo : ((signMantPair x y).toUInt16 &&& 0x08) <<< 12 = x &&& 0x8000 ∧
    ((signMantPair x y).toUInt16 &&& 0x07) <<< 4 = x &&& 0x70 := by
  unfold signMantPair bf16SignMant8
  constructor
  all_goals
    apply uint16_ext
    intro i hi
    simp only [UInt16.toBitVec_and, UInt16.toBitVec_shiftLeft, UInt16.toBitVec_shiftRight, UInt16.toBitVec_or,
      UInt8.toBitVec_toUInt16, UInt16.toBitVec_toUInt8, UInt8.toBitVec_or, UInt8.toBitVec_shiftLeft,
      UInt8.toBitVec_shiftRight,
      UInt16.toBitVec_ofNat, UInt8.toBitVec_ofNat, BitVec.ofNat_eq_ofNat, BitVec.reduceMod, BitVec.ushiftRight_eq',
      BitVec.shiftLeft_eq',
      BitVec.toNat_ofNat, Nat.reducePow, Nat.reduceMod, Nat.reduceLeDiff, BitVec.setWidth_or, BitVec.setWidth_and,
      BitVec.setWidth_ofNat_of_le,
      BitVec.getLsbD_shiftLeft, BitVec.getLsbD_ushiftRight, BitVec.getLsbD_and, BitVec.getLsbD_or, BitVec.getLsbD_setWidth]
    interval_cases i <;> simp

theorem signMant_hi : ((signMantPair x y).toUInt16 >>> 4 &&& 0x08) <<< 12 = y &&& 0x8000 ∧
    ((signMantPair x y).toUInt16 >>> 4 &&& 0x07) <<< 4 = y &&& 0x70 := by
  unfold signMantPair bf16SignMant8
  constructor
  all_goals
    apply uint16_ext
    intro i hi
    simp only [UInt16.toBitVec_and, UInt16.toBitVec_shiftLeft, UInt16.toBitVec_shiftRight, UInt16.toBitVec_or,
      UInt8.toBitVec_toUInt16, UInt16.toBitVec_toUInt8, UInt8.toBitVec_or, UInt8.toBitVec_shiftLeft,
      UInt8.toBitVec_shiftRight,
      UInt16.toBitVec_ofNat, UInt8.toBitVec_ofNat, BitVec.ofNat_eq_ofNat, BitVec.reduceMod, BitVec.ushiftRight_eq',
      BitVec.shiftLeft_eq',
      BitVec.toNat_ofNat, Nat.reducePow, Nat.reduceMod, Nat.reduceLeDiff, BitVec.setWidth_or, BitVec.setWidth_and,
      BitVec.setWidth_ofNat_of_le,
      BitVec.getLsbD_shiftLeft, BitVec.getLsbD_ushiftRight, BitVec.getLsbD_and, BitVec.getLsbD_or, BitVec.getLsbD_setWidth]
    interval_cases i <;> simp

theorem assembleElem_lo : assembleElem (signMantPair x y).toUInt16 (bf16ToExp x) = bf16Head x ||| (x &&& 0x70) := by
  unfold assembleElem bf16Head
  rw [(signMant_lo x y).1, (signMant_lo x y).2, (toExp_spec x).1]

theorem assembleElem_hi :
    assembleElem ((signMantPair x y).toUInt16 >>> 4) (bf16ToExp y) = bf16Head y ||| (y &&& 0x70) := by
  unfold assembleElem bf16Head
  rw [(signMant_hi x y).1, (signMant_hi x y).2, (toExp_spec y).1]

end Pair

theorem pack_bit (s : Nat → UInt16) {lane : Nat} (h : lane < 8) :
    (bf16PackExtra8 s).toBitVec.getLsbD (7 - lane) = (s lane).toBitVec.getLsbD 3 := by
  unfold bf16PackExtra8
  simp only [List.range, List.range.loop, List.foldl, UInt8.toBitVec_or, UInt16.toBitVec_toUInt8,
    UInt16.toBitVec_shiftLeft, UInt16.toBitVec_and, UInt16.toBitVec_shiftRight]
  interval_cases lane <;> simp

theorem extra_bit (e : UInt8) {lane : Nat} (h : lane < 8) :
    ((e.toUInt16 >>> (7 - .ofNat lane)) &&& 0x01) <<< 3 = if e.toBitVec.getLsbD (7 - lane) then 8 else 0 := by
  have hlane : (7 - UInt16.ofNat lane).toNat % 16 = 7 - lane := by
    interval_cases lane <;> rfl
  -- the bit that is left of the byte
  have hbit : ((e.toUInt16 >>> (7 - .ofNat lane)) &&& 0x01).toNat = (e.toBitVec.getLsbD (7 - lane)).toNat := by
    rw [UInt16.toNat_and, UInt16.toNat_shiftRight, hlane, UInt8.toNat_toUInt16, ← BitVec.testBit_toNat,
      Nat.testBit_eq_decide_div_mod_eq,
      Nat.shiftRight_eq_div_pow]
    show (e.toNat / 2 ^ (7 - lane)) &&& 1 = (decide (e.toNat / 2 ^ (7 - lane) % 2 = 1)).toNat
    rw [Nat.and_one_is_mod]
    rcases Nat.mod_two_eq_zero_or_one (e.toNat / 2 ^ (7 - lane)) with e0 | e1
    · rw [e0]
      rfl
    · rw [e1]
      rfl
  cases he : e.toBitVec.getLsbD (7 - lane) with
  | true =>
    rw [he] at hbit
    rw [UInt16.toNat_inj.mp (hbit.trans rfl : _ = (1 : UInt16).toNat)]
    rfl
  | false =>
    rw [he] at hbit
    rw [UInt16.toNat_inj.mp (hbit.trans rfl : _ = (0 : UInt16).toNat)]
    rfl

theorem and_eight (x : UInt16) : x &&& 8 = if x.toBitVec.getLsbD 3 then 8 else 0 := by
  apply uint16_ext
  intro i hi
  simp only [UInt16.toBitVec_and]
  cases he : x.toBitVec.getLsbD 3 <;> simp at he <;> interval_cases i <;> simp [he]

theorem extra_spec (s : Nat → UInt16) {lane : Nat} (h : lane < 8) :
    (((bf16PackExtra8 s).toUInt16 >>> (7 - .ofNat lane)) &&& 0x01) <<< 3 = s lane &&& 8 := by
  rw [extra_bit _ h, pack_bit s h, ← and_eight]

/-- What the FP8 path keeps of an element. -/
def fp8Value (x : UInt16) : UInt16 := bf16Head x ||| (x &&& 0x60) ||| 0x10

theorem fp8_fields (x : UInt16) {e : UInt8} (he : e < 32) :
    let b := ((e <<< 3) ||| (((x >>> 15) &&& 0x01).toUInt8 <<< 2) ||| ((x >>> 5) &&& 0x03).toUInt8).toUInt16
    b >>> 3 = e.toUInt16 ∧ (b &&& 0x04) <<< 13 = x &&& 0x8000 ∧ (b &&& 0x03) <<< 5 = x &&& 0x60 := by
  have hbits : ∀ i, 5 ≤ i → e.toBitVec.getLsbD i = false := fun i hi =>
    getLsbD_of_lt e.toBitVec (UInt8.lt_iff_toNat_lt.mp he) hi
  have h5 := hbits 5 (by decide)
  have h6 := hbits 6 (by decide)
  have h7 := hbits 7 (by decide)
  simp at h5 h6 h7
  refine ⟨?_, ?_, ?_⟩
  all_goals
    apply uint16_ext
    intro i hi
    simp only [UInt16.toBitVec_and, UInt16.toBitVec_shiftLeft, UInt16.toBitVec_shiftRight, UInt8.toBitVec_toUInt16,
      UInt16.toBitVec_toUInt8, UInt8.toBitVec_or, UInt8.toBitVec_shiftLeft,
      UInt16.toBitVec_ofNat, UInt8.toBitVec_ofNat, BitVec.ofNat_eq_ofNat, BitVec.reduceMod, BitVec.ushiftRight_eq',
      BitVec.shiftLeft_eq',
      BitVec.toNat_ofNat, Nat.reducePow, Nat.reduceMod, Nat.reduceLeDiff, Nat.reduceLT, BitVec.setWidth_or, BitVec.setWidth_and,
      BitVec.setWidth_ofNat_of_le, BitVec.setWidth_ofNat_of_le_of_lt, BitVec.getLsbD_shiftLeft, BitVec.getLsbD_ushiftRight,
      BitVec.getLsbD_and,
      BitVec.getLsbD_or, BitVec.getLsbD_setWidth]
    interval_cases i <;> simp [h5, h6, h7]

theorem fp8_spec (x : UInt16) : fp8ToBf16 (bf16ToFp8 x) = fp8Value x := by
  obtain ⟨h1, h2, h3⟩ := fp8_fields x (toExp_spec x).2
  unfold fp8ToBf16 bf16ToFp8 fp8Value bf16Head
  simp only
  rw [h1, h2, h3, (toExp_spec x).1]

/-- The mode guard costs the second mantissa bit. -/
theorem fp8_guard (b : UInt8) : fp8ToBf16 (b &&& 0xFE) = fp8ToBf16 b &&& 0xFFDF := by
  have h : ∀ k : Fin 256, fp8ToBf16 (.ofNat k &&& 0xFE) = fp8ToBf16 (.ofNat k) &&& 0xFFDF := by decide +kernel
  have := h ⟨b.toNat, b.toNat_lt⟩
  simpa using this

/-! ## Streams of the Tunstall path -/

/-- Position `i` of `p_exp`. -/
def permExp (src : Nat → UInt16) (i : Nat) : UInt8 := bf16ToExp (src (16 * (i / 16) + i % 16 / 2 + 8 * (i % 2)))

/-- Byte `i` of the signs and mantissas. -/
def signMantByte (src : Nat → UInt16) (i : Nat) : UInt8 :=
  let k := 32 * (i / 16) + i % 16 / 2 + 16 * (i % 2)
  signMantPair (src k) (src (k + 8))

variable {src : Nat → UInt16} {n : Nat}

@[simp] theorem length_permutedExps (hn : n % 32 = 0) : (permutedExps src n).length = n := by
  simp [permutedExps, List.length_flatMap]
  omega

theorem getElem?_pairs {α : Type*} (f g : Nat → α) {i : Nat} (hi : i < 16) :
    ((List.range 8).flatMap fun lane => [f lane, g lane])[i]? = some (if i % 2 = 0 then f (i / 2) else g (i / 2)) := by
  rw [getElem?_flatMap_range (f := fun lane => [f lane, g lane]) 2 (fun _ => rfl) (by simpa using hi)]
  rcases Nat.mod_two_eq_zero_or_one i with h | h
  · simp [h]
  · simp [h]

theorem permutedExps_get (hn : n % 32 = 0) {i : Nat} (hi : i < n) : (permutedExps src n)[i]? = some (permExp src i) := by
  unfold permutedExps
  rw [getElem?_flatMap_range 16 (by simp [List.length_flatMap]) (by omega), getElem?_pairs _ _ (Nat.mod_lt _ (by decide)),
    Nat.mod_mod_of_dvd i (by decide : 2 ∣ 16)]
  unfold permExp
  rcases Nat.mod_two_eq_zero_or_one i with h | h
  · simp [h]
  · simp [h]

@[simp] theorem length_signMantBytes (hn : n % 32 = 0) : (signMantBytes src n).length = n / 2 := by
  simp [signMantBytes, List.length_flatMap]
  omega

theorem signMantBytes_get (hn : n % 32 = 0) {i : Nat} (hi : i < n / 2) :
    (signMantBytes src n)[i]? = some (signMantByte src i) := by
  unfold signMantBytes
  simp only
  rw [getElem?_flatMap_range 16 (by simp [List.length_flatMap]) (by omega), getElem?_pairs _ _ (Nat.mod_lt _ (by decide)),
    Nat.mod_mod_of_dvd i (by decide : 2 ∣ 16)]
  unfold signMantByte signMantPair
  rcases Nat.mod_two_eq_zero_or_one i with h | h
  · simp [h]
  · simp [h, Nat.add_assoc]

/-- The first `n` bytes at `p` are a compressed array on the Tunstall path, its stream `len`
    bytes long. -/
structure Bf16Stream (m : Mem) (p : Ptr) (src : Nat → UInt16) (n len : Nat) (marks : List Nat) : Prop where
  count : n % 32 = 0
  large : minBf16Count ≤ n
  stream : DynStream m (p + n / 2) (permExp src) n len marks
  fits : len ≤ n / 2
  signMant : ∀ i, i < n / 2 → m (p + i) = signMantByte src i
  extra : ∀ i, i < extraBytes n len → m (p + (n / 2 + len + i)) = bf16PackExtra8 fun lane => src (8 * i + lane)

/-- The first `n` bytes at `p` are a compressed array on the FP8 path. -/
def Fp8Stream (m : Mem) (p : Ptr) (src : Nat → UInt16) (n : Nat) : Prop :=
  ∀ i, i < n → m (p + i) = if i = n / 2 then bf16ToFp8 (src i) &&& 0xFE else bf16ToFp8 (src i)

/-- Whether the compressor takes the Tunstall path. -/
def takesTunstall (D : FloatOps F) (m : Mem) (dst : Ptr) (src : Nat → UInt16) (n : Nat) : Bool :=
  decide (minBf16Count ≤ n ∧ n % 32 = 0) &&
    match compressExps D m dst src n with
    | some out => decide (out.code = .tsOk ∧ out.dstLen ≤ n / 2)
    | none => false

theorem Bf16Stream.move {m m' : Mem} {p p' : Ptr} {len : Nat} {marks : List Nat} (h : Bf16Stream m p src n len marks)
    (hb : ∀ a, a < n → m' (p' + a) = m (p + a)) : Bf16Stream m' p' src n len marks := by
  have hfits := h.fits
  have hcount := h.count
  refine ⟨h.count, h.large, h.stream.move fun a ha => ?_, h.fits, fun i hi => ?_, fun i hi => ?_⟩
  · rw [Ptr.add_add, Ptr.add_add, hb _ (by omega)]
  · rw [hb _ (by omega), h.signMant i hi]
  · rw [← h.extra i hi, hb]
    unfold extraBytes at hi
    split at hi <;> omega

theorem Bf16Stream.isTunstall {m : Mem} {p : Ptr} {len : Nat} {marks : List Nat} (h : Bf16Stream m p src n len marks) :
    isTunstall m p n = true := by
  unfold Compress.isTunstall
  simp [h.count, h.stream.mode]

theorem and_guard_ne (b : UInt8) : b &&& 0xFE ≠ tsModeDynamic := by
  have h : ∀ k : Fin 256, UInt8.ofNat k &&& 0xFE ≠ tsModeDynamic := by decide +kernel
  have := h ⟨b.toNat, b.toNat_lt⟩
  simpa using this

theorem Fp8Stream.isTunstall {m : Mem} {p : Ptr} (h : Fp8Stream m p src n) (hn : 0 < n) : isTunstall m p n = false := by
  have := h (n / 2) (by omega)
  rw [if_pos rfl] at this
  unfold Compress.isTunstall
  simp [this, and_guard_ne]

theorem compressFp8_spec (m : Mem) (dst : Ptr) (src : Nat → UInt16) (n : Nat) :
    Fp8Stream (compressFp8 m dst src n) dst src n := by
  have hget : ∀ i, i < n → m.storeBytes dst ((List.range n).map fun i => bf16ToFp8 (src i)) (dst + i) = bf16ToFp8 (src i) := by
    intro i hi
    have := Mem.storeBytes_of_in m dst ((List.range n).map fun i => bf16ToFp8 (src i)) i 0 (Nat.zero_le _) (by simpa using hi)
    rw [Ptr.add_zero] at this
    rw [this]
    simp [hi]
  intro i hi
  unfold compressFp8
  rw [Mem.store_add]
  by_cases h : i = n / 2
  · rw [if_pos h, if_pos h, ← h, hget i hi]
  · rw [if_neg h, if_neg h, hget i hi]

section Compress

variable {D : FloatOps F} {m : Mem} {dst : Ptr}

/-- The exponents lie right behind the room for their stream. -/
theorem apart_halves (dst : Ptr) (hlarge : 2 * Header.dynamicLen ≤ n) : Apart (dst + n / 2) (dst + n) (n / 2) n := by
  constructor
  · intro i a hi ha
    rw [Ptr.add_add, Ptr.add_add, ne_eq, Ptr.add_inj]
    omega
  · intro i a h1 hi ha
    rw [Ptr.add_add, Ptr.add_add, ne_eq, Ptr.add_inj]
    omega

theorem compressExps_spec (m : Mem) (dst : Ptr) (src : Nat → UInt16) (hcount : n % 32 = 0) (hlarge : minBf16Count ≤ n) :
    ∃ out, compressExps D m dst src n = some out ∧ (out.code = .tsOk → out.dstLen < n / 2 ∧
      ∃ marks, DynStream out.mem (dst + n / 2) (permExp src) n out.dstLen marks) := by
  unfold minBf16Count at hlarge
  generalize hm₁ : m.storeBytes (dst + n) (permutedExps src n) = m₁
  have hap : Apart (dst + n / 2) (dst + n) (n / 2) n := apart_halves dst (by unfold Header.dynamicLen; omega)
  obtain ⟨out, hout, -, hok⟩ := compressDynamic_spec (D := D) (m := m₁) hap
  refine ⟨out, by unfold compressExps; rw [hm₁, hout], fun hcode => ?_⟩
  obtain ⟨hlt, -, -, marks, hs⟩ := hok hcode
  refine ⟨hlt, marks, hs.congr fun i hi => ?_⟩
  rw [← hm₁, Ptr.add_add, Mem.storeBytes_of_in _ _ _ _ _ (by omega) (by rw [length_permutedExps hcount]; omega),
    Nat.add_sub_cancel_left, permutedExps_get hcount hi]
  rfl

/-- The bytes added around a stream. -/
theorem bf16Stream_of_stored {len : Nat} {marks : List Nat} (hcount : n % 32 = 0) (hlarge : minBf16Count ≤ n)
    (hs : DynStream m (dst + n / 2) (permExp src) n len marks) (hfits : len ≤ n / 2) :
    Bf16Stream ((m.storeBytes dst (signMantBytes src n)).storeBytes (dst + n / 2 + len) (extraBytesOf src (extraBytes n len)))
      dst src n len marks := by
  have hlen : (signMantBytes src n).length = n / 2 := length_signMantBytes hcount
  refine ⟨hcount, hlarge, hs.move fun a ha => ?_, hfits, fun i hi => ?_, fun i hi => ?_⟩
  · have h := Mem.storeBytes_of_out m dst (signMantBytes src n) (n / 2 + a) 0 (.inr (by omega))
    rw [Ptr.add_zero] at h
    rw [Ptr.add_add, Ptr.add_add, Mem.storeBytes_of_out _ _ _ _ _ (.inl (by omega)), h]
  · have h := Mem.storeBytes_of_in m dst (signMantBytes src n) i 0 (Nat.zero_le _) (by omega)
    rw [Ptr.add_zero] at h
    rw [Ptr.add_add, Mem.storeBytes_of_out _ _ _ _ _ (.inl (by omega)), h, Nat.sub_zero, signMantBytes_get hcount hi]
    rfl
  · rw [Ptr.add_add, Mem.storeBytes_of_in _ _ _ _ _ (by omega) (by simp [extraBytesOf]; omega), Nat.add_sub_cancel_left]
    simp [extraBytesOf, hi]

/-- `TunstallCompressBF16` succeeds on every array, and this is what it leaves. -/
theorem compressBF16_spec (D : FloatOps F) (m : Mem) (dst : Ptr) (src : Nat → UInt16) (hpos : 0 < n) (hmax : n < 2 ^ 32) :
    ∃ m', tunstallCompressBF16 D m dst src n = some (.tsOk, m') ∧
      (takesTunstall D m dst src n = true ∧
          (∃ out marks, compressExps D m dst src n = some out ∧ Bf16Stream m' dst src n out.dstLen marks) ∨
        takesTunstall D m dst src n = false ∧ Fp8Stream m' dst src n) := by
  unfold tunstallCompressBF16
  rw [if_neg (by omega)]
  by_cases hsmall : n < minBf16Count ∨ n % 32 ≠ 0
  · rw [if_pos hsmall]
    refine ⟨_, rfl, .inr ⟨?_, compressFp8_spec m dst src n⟩⟩
    have : ¬ (minBf16Count ≤ n ∧ n % 32 = 0) := by omega
    simp [takesTunstall, this]
  · rw [if_neg hsmall]
    have hbig : minBf16Count ≤ n ∧ n % 32 = 0 := by omega
    obtain ⟨out, hout, hok⟩ := compressExps_spec (D := D) m dst src hbig.2 hbig.1
    simp only [hout]
    by_cases hfail : out.code ≠ .tsOk ∨ out.dstLen > n / 2
    · rw [if_pos hfail]
      refine ⟨_, rfl, .inr ⟨?_, compressFp8_spec out.mem dst src n⟩⟩
      have : ¬ (out.code = .tsOk ∧ out.dstLen ≤ n / 2) := by
        rintro ⟨h1, h2⟩
        rcases hfail with h | h
        · exact h h1
        · omega
      simp [takesTunstall, hout, this]
    · rw [if_neg hfail]
      have hcode : out.code = .tsOk ∧ out.dstLen ≤ n / 2 := by
        refine ⟨?_, by omega⟩
        by_contra h
        exact hfail (.inl h)
      obtain ⟨-, marks, hs⟩ := hok hcode.1
      refine ⟨_, rfl, .inl ⟨?_, out, marks, rfl, bf16Stream_of_stored hbig.2 hbig.1 hs hcode.2⟩⟩
      simp [takesTunstall, hout, hbig, hcode]

end Compress

/-- An array of zeros takes the Tunstall path; each mark stands for seven exponents. -/
theorem takesTunstall_zeros (m : Mem) (dst : Ptr) {n : Nat} (hcount : n % 32 = 0) (hlarge : minBf16Count ≤ n)
    (hmax : n < 2 ^ 32) :
    takesTunstall ratOps m dst (fun _ => 0) n = true ∧
      ∃ out, compressExps ratOps m dst (fun _ => 0) n = some out ∧ out.dstLen ≤ Header.dynamicLen + 2 * ((n + 13) / 14) := by
  have h2057 : Header.dynamicLen = 2057 := rfl
  have h16384 : minBf16Count = 16384 := rfl
  have hap : Apart (dst + n / 2) (dst + n) (n / 2) n := apart_halves dst (by omega)
  have hz : ∀ j, j < n → m.storeBytes (dst + n) (permutedExps (fun _ => 0) n) (dst + n + j) = 0 := by
    intro j hj
    rw [Ptr.add_add, Mem.storeBytes_of_in _ _ _ _ _ (by omega) (by rw [length_permutedExps hcount]; omega),
      Nat.add_sub_cancel_left, permutedExps_get hcount hj]
    exact (by decide : bf16ToExp 0 = 0)
  obtain ⟨out, hout, hcode, hlen⟩ := compressDynamic_zeros (k := (n + 13) / 14) hap (by omega) hmax hz (by omega) (by omega)
  refine ⟨?_, out, hout, hlen⟩
  unfold takesTunstall compressExps
  rw [hout]
  have : minBf16Count ≤ n ∧ n % 32 = 0 := ⟨hlarge, hcount⟩
  simp [this, hcode]
  omega

end UnifiedCache.Compress
