/-
  UnifiedCache.Compress.Bf16Slack — arrays that decompression in place gives up on
  (see `UnifiedCache.Compress.Bf16Agree`).

  The repacked streams keep the unused bytes between the marks and the signs and mantissas, and
  the moves keep them too. Where more than 8 KiB of them stay to the end the streams never fit
  in the tail, and the last group has no room (`not_fits_of_slack`).

  A well compressed array is such a case: decompression in place of 65536 zeros fails
  (`inplace_fails_zeros`).
-/

import UnifiedCache.Compress.Bf16Agree

namespace UnifiedCache.Compress

open UnifiedCache.Base

/-! ## Slack -/

section Slack

variable {n M : Nat} {r : Nat → Nat}

/-- The streams lie in the buffer in their order. -/
theorem settled_inside (hfit : Header.dynamicLen + M ≤ n / 2) (hcount : n % 32 = 0) (hr : Monotone r) (hrM : ∀ g, r g ≤ M) :
    ∀ g, g ≤ n / 32 → (settled n M r g).mark + (M - r g) ≤ (settled n M r g).extra ∧
      (settled n M r g).extra + extraLeft n M g + smLeft n g ≤ 2 * n := by
  intro g
  induction g with
  | zero =>
    intro _
    unfold settled extraLeft smLeft
    have := hrM 0
    simp only
    omega
  | succ g ih =>
    intro hg
    obtain ⟨h1, h2⟩ := ih (by omega)
    have hmono : r g ≤ r (g + 1) := hr (Nat.le_succ g)
    have hM := hrM (g + 1)
    have hx : extraLeft n M (g + 1) ≤ extraLeft n M g := by unfold extraLeft; omega
    have hs : smLeft n (g + 1) ≤ smLeft n g := by unfold smLeft; omega
    unfold settled
    simp only
    split
    · -- packed against the end
      have hx' : extraLeft n M (g + 1) ≤ n / 2 := by unfold extraLeft; omega
      have hs' : smLeft n (g + 1) ≤ n / 2 := by unfold smLeft; omega
      unfold Layout.packed left
      simp only
      omega
    · unfold Layout.read Layout.take
      simp only
      omega

/-- More than 8 KiB of unused bytes at the last group. -/
theorem not_fits_of_slack (hfit : Header.dynamicLen + M ≤ n / 2) (hcount : n % 32 = 0) (hpos : 0 < n) (hr : Monotone r)
    (hrM : ∀ g, r g ≤ M) (hslack : n / 8 + inplaceTailBytes < extraLeft n M 0) : ¬ Fits n M r := by
  have hbytes : ∀ g, g ≤ n / 32 → inplaceTailBytes < extraLeft n M g := by
    intro g hg
    unfold extraLeft at hslack ⊢
    omega
  intro hfits
  rcases hfits (n / 32 - 1) (by omega) with ⟨g, hg, hspill⟩ | hroom
  · obtain ⟨h1, h2⟩ := settled_inside hfit hcount hr hrM g (by omega)
    have hmono : r g ≤ r (g + 1) := hr (Nat.le_succ g)
    have hM := hrM (g + 1)
    have hb := hbytes g (by omega)
    unfold spills Layout.read at hspill
    simp only at hspill
    omega
  · have hlast : n / 32 - 1 + 1 = n / 32 := by omega
    have hb := hbytes (n / 32) (Nat.le_refl _)
    unfold room left at hroom
    rw [hlast] at hroom
    omega

end Slack

theorem marksBefore_mono (lens : List Nat) (n : Nat) : Monotone (marksBefore lens n) := by
  refine monotone_nat_of_le_succ fun g => ?_
  cases g with
  | zero => exact Nat.zero_le _
  | succ g =>
    have hblock : blockSize * (g / 256 + 1) ≤ blockSize * ((g + 1) / 256 + 1) := Nat.mul_le_mul_left _ (by omega)
    exact marksRead_mono lens (by omega)

theorem marksBefore_le (lens : List Nat) (n g : Nat) : marksBefore lens n g ≤ lens.length := by
  cases g with
  | zero => exact Nat.zero_le _
  | succ g => exact marksRead_le lens _

/-- A stream with that much slack is not decompressed in place. -/
theorem Bf16Stream.not_fits {m : Mem} {data : Ptr} {src : Nat → UInt16} {n len : Nat} {marks : List Nat}
    (h : Bf16Stream m data src n len marks) (hmax : n < 2 ^ 32) (hslack : n / 8 + inplaceTailBytes + len < n / 2) :
    ¬ InplaceFits m data n := by
  have hlen := h.stream.len
  have hfits := h.fits
  unfold InplaceFits
  rw [h.nMark_eq hmax]
  refine not_fits_of_slack (by omega) h.count (by omega) (marksBefore_mono _ _) (fun g => ?_) (by unfold extraLeft; omega)
  have hl : (Compress.symbolCounts m data n).length = marks.length := by rw [h.symbolCounts hmax, List.length_map]
  rw [← hl]
  exact marksBefore_le _ _ g

/-! ## An array of zeros -/

/-- Decompression in place fails on a long array of zeros. -/
theorem inplace_zeros (m : Mem) (dst tail : Ptr) {n : Nat} (buf : Nat → UInt8) (hcount : n % 32 = 0) (hlarge : 46080 ≤ n)
    (hmax : n < 2 ^ 32) (htail : tail.blk ≠ dst.blk) :
    ∃ mc, tunstallCompressBF16 ratOps m dst (fun _ => 0) n = some (.tsOk, mc) ∧
      tunstallDecompressBF16Inplace mc dst tail n buf = some (.error .errSyntax) := by
  have h2057 : Header.dynamicLen = 2057 := rfl
  have h8192 : inplaceTailBytes = 8192 := rfl
  obtain ⟨ht, out, hout, hlen⟩ := takesTunstall_zeros m dst hcount (by unfold minBf16Count; omega) hmax
  obtain ⟨mc, hc, ⟨-, out', marks, hout', hs⟩ | ⟨hf, -⟩⟩ := compressBF16_spec ratOps m dst (fun _ => 0) (by omega) hmax
  · rw [hout] at hout'
    obtain rfl := Option.some.inj hout'
    refine ⟨mc, hc, ?_⟩
    unfold tunstallDecompressBF16Inplace
    rw [if_neg (by omega), hs.isTunstall, if_pos rfl]
    rcases hs.inplace hmax htail buf with ⟨hfit, -⟩ | ⟨-, he⟩
    · exact absurd hfit (hs.not_fits hmax (by omega))
    · exact he
  · rw [ht] at hf
    cases hf

/-- 65536 zeros. -/
theorem inplace_fails_zeros :
    ∃ mc, tunstallCompressBF16 ratOps (fun _ => 0) ⟨0, 0⟩ (fun _ => 0) 65536 = some (.tsOk, mc) ∧
      tunstallDecompressBF16Inplace mc ⟨0, 0⟩ ⟨1, 0⟩ 65536 (fun _ => 0) = some (.error .errSyntax) :=
  inplace_zeros _ ⟨0, 0⟩ ⟨1, 0⟩ _ (by decide) (by decide) (by decide) (by decide)

end UnifiedCache.Compress
