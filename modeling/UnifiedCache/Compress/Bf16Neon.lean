/-
  UnifiedCache.Compress.Bf16Neon — the elements of the BF16 decompressors where NEON is compiled in
  (ucm/store/compress/cc/compress_lib/tunstall_bf16.cc, `NEON_DECOMPRESSION`).

  A lane has 16 bits; of two bytes loaded as one lane the first is the low one. What is read and
  written, and in which order, is `UnifiedCache.Compress.Bf16Checked`.

  - `neonGroup_eq`: a Tunstall group is the scalar path's, while no biased exponent leaves its byte.
  - `neonFp8ToBf16_eq`: an FP8 element is the scalar path's with the byte's low three bits left in.
-/

import UnifiedCache.Compress.Bf16Layout

namespace UnifiedCache.Compress

open UnifiedCache.Base

/-- A lane of `vld1q_u16` over bytes. -/
def neonLane (lo hi : UInt8) : UInt16 := lo.toUInt16 ||| (hi.toUInt16 <<< 8)

/-- `v_exp_bias_hi_lo`. -/
def expBiasHiLo : UInt16 := bf16ExpMin + (bf16ExpMin <<< 8)

/-- `vshlq_u16` by a lane of `v_extra_shift`: a negative count shifts right. -/
def extraShift (x : UInt16) (lane : Nat) : UInt16 := if lane < 4 then x >>> (4 - .ofNat lane) else x <<< (.ofNat lane - 4)

/-- A sign and three mantissa bits, from the top nibble of a lane to their places. -/
def spreadDown (x : UInt16) : UInt16 := ((x >>> 8) ||| x) &&& 0x8070

/-- The same, from the second nibble. -/
def spreadUp (x : UInt16) : UInt16 := ((x <<< 8) ||| x) &&& 0x8070

/-- Element `j` of a group before its low mantissa bits. -/
def neonElem (exp sm : Nat → UInt8) (j : Nat) : UInt16 :=
  let lane := j % 8
  let expPack0 := neonLane (exp (2 * lane)) (exp (2 * lane + 1)) + expBiasHiLo
  let expPack1 := neonLane (exp (16 + 2 * lane)) (exp (16 + 2 * lane + 1)) + expBiasHiLo
  let smPack := neonLane (sm (2 * lane)) (sm (2 * lane + 1))
  match j / 8 with
  | 0 => spreadDown (smPack <<< 12) ||| ((expPack0 <<< 8) >>> 1)
  | 1 => spreadDown (smPack <<< 8) ||| ((expPack0 >>> 8) <<< 7)
  | 2 => spreadUp (smPack >>> 4) ||| ((expPack1 <<< 8) >>> 1)
  | _ => spreadUp (smPack >>> 8) ||| ((expPack1 >>> 8) <<< 7)

/-- The 32 elements of a group. -/
def neonGroup (exp sm : Nat → UInt8) (extra : Option (Nat → UInt8)) (j : Nat) : UInt16 :=
  match extra with
  | some e => neonElem exp sm j ||| (extraShift (e (j / 8)).toUInt16 (j % 8) &&& 0x08) ||| 0x03
  | none => neonElem exp sm j ||| 0x08

/-- One element of the NEON loop of `decompress_fp8_to_bf16_inplace`; its exponent is shifted with the
    three bits below it. -/
def neonFp8ToBf16 (b : UInt8) : UInt16 :=
  let fp16 := b.toUInt16
  let exp := (fp16 <<< 4) + (bf16ExpMin <<< 7)
  let sign := (fp16 &&& 0x04) <<< 13
  let mant := (fp16 &&& 0x03) <<< 5
  mant ||| 0x10 ||| exp ||| sign

/-! ## Against the scalar path -/

theorem neonFp8ToBf16_eq (b : UInt8) : neonFp8ToBf16 b = fp8ToBf16 b ||| ((b.toUInt16 &&& 0x07) <<< 4) := by
  have h : ∀ i : Fin 256, neonFp8ToBf16 (.ofNat i) = fp8ToBf16 (.ofNat i) ||| (((UInt8.ofNat i).toUInt16 &&& 0x07) <<< 4) := by
    decide +kernel
  have hb := h ⟨b.toNat, UInt8.toNat_lt b⟩
  rwa [UInt8.ofNat_toNat] at hb

section Lane

variable (lo hi : UInt8)

theorem neonLane_toNat : (neonLane lo hi).toNat = lo.toNat + 256 * hi.toNat := by
  have hlo := UInt8.toNat_lt lo
  have hhi := UInt8.toNat_lt hi
  unfold neonLane
  rw [UInt16.toNat_or, UInt16.toNat_shiftLeft, UInt8.toNat_toUInt16, UInt8.toNat_toUInt16]
  show lo.toNat ||| (hi.toNat <<< 8) % 65536 = _
  rw [Nat.mod_eq_of_lt (by rw [Nat.shiftLeft_eq]; omega), Nat.or_comm, ← Nat.shiftLeft_add_eq_or_of_lt hlo, Nat.shiftLeft_eq]
  omega

variable {lo hi}

theorem biased_toNat (hlo : lo ≤ 143) (hhi : hi ≤ 143) :
    (neonLane lo hi + expBiasHiLo).toNat = (lo.toNat + 112) + 256 * (hi.toNat + 112) := by
  have h1 : lo.toNat ≤ 143 := UInt8.le_iff_toNat_le.mp hlo
  have h2 : hi.toNat ≤ 143 := UInt8.le_iff_toNat_le.mp hhi
  have h3 : expBiasHiLo.toNat = 112 + 256 * 112 := rfl
  rw [UInt16.toNat_add, neonLane_toNat, h3]
  omega

/-- The exponents of a lane, each moved to its place. -/
theorem biased_lo (hlo : lo ≤ 143) (hhi : hi ≤ 143) :
    ((neonLane lo hi + expBiasHiLo) <<< 8) >>> 1 = (lo.toUInt16 + bf16ExpMin) <<< 7 := by
  have h1 : lo.toNat ≤ 143 := UInt8.le_iff_toNat_le.mp hlo
  have hb := biased_toNat hlo hhi
  apply UInt16.toNat_inj.mp
  rw [UInt16.toNat_shiftRight, UInt16.toNat_shiftLeft, hb, UInt16.toNat_shiftLeft, UInt16.toNat_add,
    UInt8.toNat_toUInt16]
  show (((lo.toNat + 112) + 256 * (hi.toNat + 112)) <<< 8 % 65536) >>> 1 = ((lo.toNat + 112) % 65536) <<< 7 % 65536
  rw [Nat.shiftLeft_eq, Nat.shiftLeft_eq, Nat.shiftRight_eq_div_pow]
  omega

theorem biased_hi (hlo : lo ≤ 143) (hhi : hi ≤ 143) :
    ((neonLane lo hi + expBiasHiLo) >>> 8) <<< 7 = (hi.toUInt16 + bf16ExpMin) <<< 7 := by
  have h1 : lo.toNat ≤ 143 := UInt8.le_iff_toNat_le.mp hlo
  have h2 : hi.toNat ≤ 143 := UInt8.le_iff_toNat_le.mp hhi
  have hb := biased_toNat hlo hhi
  apply UInt16.toNat_inj.mp
  rw [UInt16.toNat_shiftLeft, UInt16.toNat_shiftRight, hb, UInt16.toNat_shiftLeft, UInt16.toNat_add,
    UInt8.toNat_toUInt16]
  show (((lo.toNat + 112) + 256 * (hi.toNat + 112)) >>> 8) <<< 7 % 65536 = ((hi.toNat + 112) % 65536) <<< 7 % 65536
  rw [Nat.shiftLeft_eq, Nat.shiftLeft_eq, Nat.shiftRight_eq_div_pow]
  omega

end Lane

section Spread

variable (lo hi : UInt8)

/-- The nibbles of the two bytes, each moved to the places of its sign and mantissa. -/
theorem spread_spec :
    spreadDown (neonLane lo hi <<< 12) = ((lo.toUInt16 &&& 0x08) <<< 12) ||| ((lo.toUInt16 &&& 0x07) <<< 4) ∧
    spreadDown (neonLane lo hi <<< 8) = (((lo.toUInt16 >>> 4) &&& 0x08) <<< 12) ||| (((lo.toUInt16 >>> 4) &&& 0x07) <<< 4) ∧
    spreadUp (neonLane lo hi >>> 4) = ((hi.toUInt16 &&& 0x08) <<< 12) ||| ((hi.toUInt16 &&& 0x07) <<< 4) ∧
    spreadUp (neonLane lo hi >>> 8) = (((hi.toUInt16 >>> 4) &&& 0x08) <<< 12) ||| (((hi.toUInt16 >>> 4) &&& 0x07) <<< 4) := by
  unfold neonLane spreadDown spreadUp
  refine ⟨?_, ?_, ?_, ?_⟩
  all_goals
    apply uint16_ext
    intro i hi
    simp only [UInt16.toBitVec_and, UInt16.toBitVec_shiftLeft, UInt16.toBitVec_shiftRight, UInt16.toBitVec_or,
      UInt8.toBitVec_toUInt16, UInt16.toBitVec_ofNat, BitVec.ofNat_eq_ofNat, BitVec.reduceMod, BitVec.ushiftRight_eq',
      BitVec.shiftLeft_eq', BitVec.toNat_ofNat, Nat.reducePow, Nat.reduceMod, BitVec.getLsbD_shiftLeft,
      BitVec.getLsbD_ushiftRight,
      BitVec.getLsbD_and, BitVec.getLsbD_or, BitVec.getLsbD_setWidth]
    interval_cases i <;> simp

end Spread

/-- The lane's bit of the extra byte, at the place of the fourth mantissa bit. -/
theorem extraShift_eq (e : UInt8) {lane : Nat} (h : lane < 8) :
    extraShift e.toUInt16 lane &&& (0x08 : UInt16) = ((e.toUInt16 >>> (7 - .ofNat lane)) &&& (0x01 : UInt16)) <<< 3 := by
  rw [extra_bit e h, and_eight]
  congr 2
  unfold extraShift
  interval_cases lane <;> simp

section Group

variable {exp : Nat → UInt8}

theorem neonElem_eq (hexp : ∀ i, i < 32 → exp i ≤ 143) (sm : Nat → UInt8) (j : Nat) :
    neonElem exp sm j = groupElem exp sm j := by
  obtain ⟨s0, s1, s2, s3⟩ := spread_spec (sm (2 * (j % 8))) (sm (2 * (j % 8) + 1))
  have hlo : exp (2 * (j % 8)) ≤ 143 := hexp _ (by omega)
  have hhi : exp (2 * (j % 8) + 1) ≤ 143 := hexp _ (by omega)
  have hlo' : exp (16 + 2 * (j % 8)) ≤ 143 := hexp _ (by omega)
  have hhi' : exp (16 + 2 * (j % 8) + 1) ≤ 143 := hexp _ (by omega)
  have hor : ∀ a b c : UInt16, (a ||| b) ||| c = (a ||| c) ||| b := fun a b c => by
    rw [UInt16.or_assoc, UInt16.or_comm b c, ← UInt16.or_assoc]
  unfold neonElem groupElem assembleElem
  simp only
  generalize j / 8 = quarter
  rcases quarter with _ | _ | _ | quarter
  · simp only [s0, biased_lo hlo hhi, hor]
  · simp only [s1, biased_hi hlo hhi, hor]
  · simp only [s2, biased_lo hlo' hhi', hor]
  · simp only [s3, biased_hi hlo' hhi', hor]

/-- The two paths give the same elements: a biased exponent, at most 255, does not carry into its neighbour. -/
theorem neonGroup_eq (hexp : ∀ i, i < 32 → exp i ≤ 143) (sm : Nat → UInt8) (extra : Option (Nat → UInt8)) (j : Nat) :
    neonGroup exp sm extra j = assembleGroup exp sm extra j := by
  unfold neonGroup assembleGroup
  cases extra with
  | none => rw [neonElem_eq hexp]
  | some e =>
    simp only
    rw [neonElem_eq hexp, extraShift_eq _ (Nat.mod_lt j (by decide))]

end Group

end UnifiedCache.Compress
