/-
  UnifiedCache.Compress.Bf16Room — where the streams of a decompression in place lie
  (see `UnifiedCache.Compress.Bf16Inplace`).

  The room a stream needs is arithmetic on three inputs: the number of elements `n`, the number
  of marks `M`, and how many marks are read before each group, `r`. `settled` follows the
  streams' first bytes from group to group while they stay in the buffer; a group has room when
  the output up to it and all that is left of the streams fit in the buffer together (`room`),
  and it needs none once the streams have moved to the tail (`spills`).

  Proved: both moves keep what is left of the streams (`Held.spill`, `Held.compact`), and touch
  nothing before the first byte that is left.
-/

import UnifiedCache.Compress.Bf16Decode
import UnifiedCache.Compress.Bf16Inplace

namespace UnifiedCache.Compress

open UnifiedCache.Base

/-! ## Lengths -/

/-- Signs and mantissas left before group `g`. -/
def smLeft (n g : Nat) : Nat := n / 2 - 16 * g

/-- Bytes behind the marks left before group `g`. -/
def extraLeft (n M g : Nat) : Nat := n / 2 - Header.dynamicLen - M - 4 * g

section Room

variable (n M : Nat) (r : Nat → Nat)

/-- What is left of the streams once group `g` has been taken out. -/
def left (g : Nat) : Nat := smLeft n (g + 1) + extraLeft n M (g + 1) + (M - r (g + 1))

/-- Offsets of `p_mark` and `p_extra` in the buffer. -/
structure Layout where
  mark : Nat
  extra : Nat

namespace Layout

/-- The marks of group `g`'s block are read. -/
def read (g : Nat) (l : Layout) : Layout := { l with mark := l.mark + (r (g + 1) - r g) }

/-- The bytes of group `g` are taken. -/
def take (g : Nat) (l : Layout) : Layout := { l with extra := l.extra + (extraLeft n M g - extraLeft n M (g + 1)) }

/-- The first byte left, with group `g` taken. -/
def first (g : Nat) (l : Layout) : Nat :=
  if 0 < M - r (g + 1) then l.mark else if 0 < extraLeft n M (g + 1) then l.extra else 2 * n - smLeft n (g + 1)

/-- The streams packed against the buffer's end. -/
def packed (g : Nat) : Layout := ⟨2 * n - left n M r g, 2 * n - smLeft n (g + 1) - extraLeft n M (g + 1)⟩

end Layout

/-- The layout before group `g`, its block not read yet. -/
def settled : Nat → Layout
  | 0 => ⟨n + Header.dynamicLen, n + Header.dynamicLen + M⟩
  | g + 1 =>
    let l := ((settled g).read r g).take n M g
    if 64 * (g + 1) > l.first n M r g then Layout.packed n M r g else l

/-- At group `g` the streams fit in the tail. -/
def spills (g : Nat) : Prop := 2 * n - ((settled n M r g).read r g).mark ≤ inplaceTailBytes

/-- The output up to group `g` and what is left of the streams fit in the buffer. -/
def room (g : Nat) : Prop := 64 * (g + 1) + left n M r g ≤ 2 * n

/-- Group `g` does not give up. -/
def FitsAt (g : Nat) : Prop := (∃ g', g' ≤ g ∧ spills n M r g') ∨ room n M r g

/-- No group gives up. -/
def Fits : Prop := ∀ g, g < n / 32 → FitsAt n M r g

end Room

/-! ## The streams' contents -/

/-- What is left of the streams before group `g`, with `k` marks read: `Y` are the bytes behind
    the marks, `S` the signs and mantissas. -/
structure Held (m : Mem) (st : Streams) (marks : List Nat) (Y S : Nat → UInt8) (n k g : Nat) : Prop where
  markEnd : st.markEnd = st.mark + (marks.length - k)
  extraEnd : st.extraEnd = st.extra + extraLeft n marks.length g
  smEnd : st.smEnd = st.sm + smLeft n g
  extraBlk : st.extra.blk = st.mark.blk
  smBlk : st.sm.blk = st.mark.blk
  markGap : st.mark.off + (marks.length - k) ≤ st.extra.off
  extraGap : st.extra.off + extraLeft n marks.length g ≤ st.sm.off
  atMark : MarksAt m st.mark marks k
  atExtra : ∀ j, j < extraLeft n marks.length g → m (st.extra + j) = Y (4 * g + j)
  atSm : ∀ j, j < smLeft n g → m (st.sm + j) = S (16 * g + j)

namespace Held

variable {m m' : Mem} {st : Streams} {marks : List Nat} {Y S : Nat → UInt8} {n k g : Nat}

theorem ordered (h : Held m st marks Y S n k g) : st.ordered = true := by
  have h1 := h.markGap
  have h2 := h.extraGap
  unfold Streams.ordered
  rw [h.markEnd, h.extraEnd, h.smEnd]
  simp only [Ptr.add_off, decide_eq_true_eq]
  omega

/-- The three streams in another memory, at other places. -/
theorem moved {st' : Streams} (h : Held m st marks Y S n k g) (hme : st'.markEnd = st'.mark + (marks.length - k))
    (hee : st'.extraEnd = st'.extra + extraLeft n marks.length g) (hse : st'.smEnd = st'.sm + smLeft n g)
    (hb : st'.extra.blk = st'.mark.blk) (hb' : st'.sm.blk = st'.mark.blk)
    (hg : st'.mark.off + (marks.length - k) ≤ st'.extra.off)
    (hg' : st'.extra.off + extraLeft n marks.length g ≤ st'.sm.off)
    (hm : ∀ j, j < marks.length - k → m' (st'.mark + j) = m (st.mark + j))
    (hx : ∀ j, j < extraLeft n marks.length g → m' (st'.extra + j) = m (st.extra + j))
    (hs : ∀ j, j < smLeft n g → m' (st'.sm + j) = m (st.sm + j)) : Held m' st' marks Y S n k g := by
  refine ⟨hme, hee, hse, hb, hb', hg, hg', fun j hj => ?_, fun j hj => ?_, fun j hj => ?_⟩
  · rw [hm j (by omega)]
    exact h.atMark j hj
  · rw [hx j hj]
    exact h.atExtra j hj
  · rw [hs j hj]
    exact h.atSm j hj

/-- A store elsewhere. -/
theorem frame (h : Held m st marks Y S n k g) (hm : ∀ j, j < marks.length - k → m' (st.mark + j) = m (st.mark + j))
    (hx : ∀ j, j < extraLeft n marks.length g → m' (st.extra + j) = m (st.extra + j))
    (hs : ∀ j, j < smLeft n g → m' (st.sm + j) = m (st.sm + j)) : Held m' st marks Y S n k g :=
  h.moved h.markEnd h.extraEnd h.smEnd h.extraBlk h.smBlk h.markGap h.extraGap hm hx hs

theorem extent_eq (h : Held m st marks Y S n k g) : st.extent = st.sm.off + smLeft n g - st.mark.off := by
  unfold Streams.extent
  rw [h.smEnd]
  rfl

/-- The first byte that is left. -/
theorem firstSrc_eq (h : Held m st marks Y S n k g) : st.firstSrc.off =
    if 0 < marks.length - k then st.mark.off else if 0 < extraLeft n marks.length g then st.extra.off else st.sm.off := by
  unfold Streams.firstSrc
  rw [h.markEnd, h.extraEnd]
  simp only [Ptr.add_off, Nat.lt_add_right_iff_pos]
  split
  · rfl
  · split <;> rfl

/-- Streams that are not empty start at the first byte left or after it. -/
theorem firstSrc_le (h : Held m st marks Y S n k g) : (0 < marks.length - k → st.firstSrc.off ≤ st.mark.off) ∧
    (0 < extraLeft n marks.length g → st.firstSrc.off ≤ st.extra.off) ∧ st.firstSrc.off ≤ st.sm.off := by
  have h1 := h.markGap
  have h2 := h.extraGap
  rw [h.firstSrc_eq]
  split
  · omega
  · split <;> omega

/-- A store to other objects or before the first byte left keeps the streams. -/
theorem store (h : Held m st marks Y S n k g)
    (hm : ∀ q : Ptr, q.blk = st.mark.blk → st.firstSrc.off ≤ q.off → m' q = m q) : Held m' st marks Y S n k g := by
  obtain ⟨h1, h2, h3⟩ := h.firstSrc_le
  refine h.frame (fun j hj => hm _ rfl ?_) (fun j hj => hm _ h.extraBlk ?_) fun j hj => hm _ h.smBlk ?_
  · have := h1 (by omega)
    rw [Ptr.add_off]
    omega
  · have := h2 (by omega)
    rw [Ptr.add_off]
    omega
  · rw [Ptr.add_off]
    omega

/-- The move to the tail. -/
theorem spill (h : Held m st marks Y S n k g) (tail : Ptr) (hsmall : st.extent ≤ inplaceTailBytes) :
    ∃ m' st', st.spill m tail inplaceTailBytes = .ok (m', st') ∧ Held m' st' marks Y S n k g ∧ st'.mark.blk = tail.blk ∧
      ∀ q : Ptr, q.blk ≠ tail.blk → m' q = m q := by
  have hext := h.extent_eq
  have hg := h.markGap
  have hg' := h.extraGap
  have hme : st.markEnd.off = st.mark.off + (marks.length - k) := by rw [h.markEnd, Ptr.add_off]
  have hee : st.extraEnd.off = st.extra.off + extraLeft n marks.length g := by rw [h.extraEnd, Ptr.add_off]
  -- a byte of the copy, by its distance from the first mark
  have hcopy : ∀ (p : Ptr) (d j : Nat), p.blk = st.mark.blk → p.off = st.mark.off + d → d + j < st.extent →
      m.memcpy tail st.mark st.extent (tail + d + j) = m (p + j) := by
    intro p d j hblk hoff hlt
    rw [Ptr.add_add, Mem.memcpy_in _ _ _ _ _ hlt]
    congr 1
    refine Ptr.ext hblk.symm ?_
    simp only [Ptr.add_off]
    omega
  unfold Streams.spill
  simp only
  rw [if_neg (by rw [h.ordered]; simp; exact hsmall)]
  refine ⟨_, _, rfl, ?_, rfl, fun q hq => Mem.memcpy_of_off _ _ (.inl hq)⟩
  refine h.moved ?_ ?_ ?_ rfl rfl ?_ ?_ (fun j hj => ?_) (fun j hj => ?_) fun j hj => ?_
  · simp only
    rw [hme, Nat.add_sub_cancel_left]
  · simp only
    rw [Ptr.add_add, hee]
    congr 1
    omega
  · simp only
    rw [Ptr.add_add, hext]
    congr 1
    omega
  · simp only [Ptr.add_off]
    omega
  · simp only [Ptr.add_off]
    omega
  · have := hcopy st.mark 0 j rfl rfl (by omega)
    rwa [Ptr.add_zero] at this
  · exact hcopy st.extra _ j h.extraBlk (by omega) (by omega)
  · exact hcopy st.sm _ j h.smBlk (by omega) (by omega)

/-- The move against the buffer's end. -/
theorem compact (h : Held m st marks Y S n k g) :
    ∃ m' st', st.compact m st.smEnd = .ok (m', st') ∧ Held m' st' marks Y S n k g ∧ st'.mark.blk = st.mark.blk ∧
      st'.mark.off = st.sm.off - extraLeft n marks.length g - (marks.length - k) ∧
      st'.extra.off = st.sm.off - extraLeft n marks.length g ∧ st'.smEnd = st.smEnd ∧
      ∀ q : Ptr, q.blk ≠ st.mark.blk ∨ q.off < st'.firstSrc.off → m' q = m q := by
  have hg := h.markGap
  have hg' := h.extraGap
  have hml : st.markEnd.off - st.mark.off = marks.length - k := by rw [h.markEnd, Ptr.add_off, Nat.add_sub_cancel_left]
  have hxl : st.extraEnd.off - st.extra.off = extraLeft n marks.length g := by
    rw [h.extraEnd, Ptr.add_off, Nat.add_sub_cancel_left]
  have hsl : st.smEnd.off - st.sm.off = smLeft n g := by rw [h.smEnd, Ptr.add_off, Nat.add_sub_cancel_left]
  have hse : st.smEnd.off = st.sm.off + smLeft n g := by rw [h.smEnd, Ptr.add_off]
  have hseb : st.smEnd.blk = st.mark.blk := by rw [h.smEnd, Ptr.add_blk, h.smBlk]
  unfold Streams.compact
  simp only [hml, hxl, hsl]
  rw [if_neg (by rw [h.ordered]; simp; omega)]
  generalize hx : (⟨st.smEnd.blk, st.smEnd.off - smLeft n g - extraLeft n marks.length g⟩ : Ptr) = extraNew
  have hxo : extraNew.off = st.sm.off - extraLeft n marks.length g := by
    rw [← hx]
    simp only
    omega
  have hxb : extraNew.blk = st.mark.blk := by rw [← hx, ← hseb]
  generalize hmk : (⟨st.smEnd.blk, st.smEnd.off - smLeft n g - extraLeft n marks.length g - (marks.length - k)⟩ : Ptr) = markNew
  have hmo : markNew.off = st.sm.off - extraLeft n marks.length g - (marks.length - k) := by
    rw [← hmk]
    simp only
    omega
  have hmb : markNew.blk = st.mark.blk := by rw [← hmk, ← hseb]
  generalize hm₁ : (if extraLeft n marks.length g > 0 then m.memcpy extraNew st.extra (extraLeft n marks.length g) else m) = m₁
  have hin₁ : ∀ j, j < extraLeft n marks.length g → m₁ (extraNew + j) = m (st.extra + j) := by
    intro j hj
    rw [← hm₁, if_pos (by omega), Mem.memcpy_in _ _ _ _ _ hj]
  have hout₁ : ∀ q : Ptr, q.blk ≠ st.mark.blk ∨ q.off < extraNew.off ∨ extraNew.off + extraLeft n marks.length g ≤ q.off ∨
      extraLeft n marks.length g = 0 → m₁ q = m q := by
    intro q hq
    rw [← hm₁]
    split
    · refine Mem.memcpy_of_off _ _ ?_
      rcases hq with hq | hq | hq | hq
      · exact .inl (by rw [hxb]; exact hq)
      · exact .inr (.inl hq)
      · exact .inr (.inr hq)
      · omega
    · rfl
  generalize hm₂ : (if marks.length - k > 0 then m₁.memcpy markNew st.mark (marks.length - k) else m₁) = m₂
  have hin₂ : ∀ j, j < marks.length - k → m₂ (markNew + j) = m₁ (st.mark + j) := by
    intro j hj
    rw [← hm₂, if_pos (by omega), Mem.memcpy_in _ _ _ _ _ hj]
  have hout₂ : ∀ q : Ptr, q.blk ≠ st.mark.blk ∨ q.off < markNew.off ∨ markNew.off + (marks.length - k) ≤ q.off ∨
      marks.length - k = 0 → m₂ q = m₁ q := by
    intro q hq
    rw [← hm₂]
    split
    · refine Mem.memcpy_of_off _ _ ?_
      rcases hq with hq | hq | hq | hq
      · exact .inl (by rw [hmb]; exact hq)
      · exact .inr (.inl hq)
      · exact .inr (.inr hq)
      · omega
    · rfl
  have hsm : (⟨st.smEnd.blk, st.smEnd.off - smLeft n g⟩ : Ptr) = st.sm :=
    Ptr.ext (by rw [hseb, h.smBlk]) (by simp only; omega)
  rw [hsm]
  have hheld : Held m₂
      { mark := markNew, markEnd := extraNew, extra := extraNew, extraEnd := st.sm, sm := st.sm, smEnd := st.smEnd }
      marks Y S n k g := by
    refine h.moved ?_ ?_ h.smEnd (by rw [hxb, hmb]) (by rw [h.smBlk, hmb]) ?_ ?_ (fun j hj => ?_) (fun j hj => ?_) fun j hj => ?_
    · exact Ptr.ext (by rw [Ptr.add_blk, hxb, hmb]) (by simp only [Ptr.add_off]; omega)
    · exact Ptr.ext (by rw [Ptr.add_blk, h.smBlk, hxb]) (by simp only [Ptr.add_off]; omega)
    · simp only
      omega
    · simp only
      omega
    · -- the marks lie before the place the extra bytes were moved to
      rw [hin₂ j hj, hout₁ _ (.inr (.inl (by simp only [Ptr.add_off]; omega)))]
    · rw [hout₂ _ (.inr (.inr (.inl (by simp only [Ptr.add_off]; omega)))), hin₁ j hj]
    · rw [hout₂ _ (.inr (.inr (.inl (by simp only [Ptr.add_off]; omega)))),
        hout₁ _ (.inr (.inr (.inl (by simp only [Ptr.add_off]; omega))))]
  have hfirst := hheld.firstSrc_eq
  refine ⟨_, _, rfl, hheld, hmb, hmo, hxo, rfl, fun q hq => ?_⟩
  rw [hfirst] at hq
  simp only at hq
  rcases hq with hq | hq
  · rw [hout₂ q (.inl hq), hout₁ q (.inl hq)]
  · split at hq
    · rw [hout₂ q (.inr (.inl hq)), hout₁ q (.inr (.inl (by omega)))]
    · split at hq
      · rw [hout₂ q (.inr (.inr (.inr (by omega)))), hout₁ q (.inr (.inl hq))]
      · rw [hout₂ q (.inr (.inr (.inr (by omega)))), hout₁ q (.inr (.inr (.inr (by omega))))]

/-- The bytes of a group are taken from the streams. -/
theorem consume {s : Inplace} (h : Held s.mem s.streams marks Y S n k g) (hn : 16 ≤ smLeft n g) :
    Held s.consume.mem s.consume.streams marks Y S n k (g + 1) ∧
      s.consume.streams.extra.off = s.streams.extra.off + (extraLeft n marks.length g - extraLeft n marks.length (g + 1)) := by
  have hg := h.markGap
  have hg' := h.extraGap
  have hx : extraLeft n marks.length (g + 1) = extraLeft n marks.length g - 4 := by unfold extraLeft; omega
  have hs : smLeft n (g + 1) = smLeft n g - 16 := by unfold smLeft; omega
  have hxl : s.streams.extraEnd.off - s.streams.extra.off = extraLeft n marks.length g := by
    rw [h.extraEnd, Ptr.add_off, Nat.add_sub_cancel_left]
  have hextra : (if s.streams.extraEnd.off - s.streams.extra.off ≥ 4 then s.streams.extra + 4 else s.streams.extraEnd) =
      s.streams.extra + (extraLeft n marks.length g - extraLeft n marks.length (g + 1)) := by
    rw [hxl, h.extraEnd]
    split
    · rw [hx, show extraLeft n marks.length g - (extraLeft n marks.length g - 4) = 4 by omega]
    · rw [hx, show extraLeft n marks.length g - (extraLeft n marks.length g - 4) = extraLeft n marks.length g by omega]
  unfold Inplace.consume
  rw [hextra]
  refine ⟨⟨h.markEnd, ?_, ?_, h.extraBlk, h.smBlk, ?_, ?_, h.atMark, fun j hj => ?_, fun j hj => ?_⟩, rfl⟩
  · simp only
    rw [h.extraEnd, Ptr.add_add]
    congr 1
    omega
  · simp only
    rw [h.smEnd, Ptr.add_add]
    congr 1
    omega
  · simp only [Ptr.add_off]
    omega
  · simp only [Ptr.add_off]
    omega
  · simp only
    rw [Ptr.add_add, h.atExtra _ (by omega)]
    congr 1
    omega
  · simp only
    rw [Ptr.add_add, h.atSm _ (by omega)]
    congr 1
    omega

/-- Marks are read. -/
theorem read (h : Held m st marks Y S n k g) {k' : Nat} (hk : k ≤ k') (hle : k' ≤ marks.length) :
    Held m { st with mark := st.mark + (k' - k) } marks Y S n k' g := by
  refine ⟨?_, h.extraEnd, h.smEnd, h.extraBlk, h.smBlk, ?_, h.extraGap, fun j hj => ?_, h.atExtra, h.atSm⟩
  · simp only
    rw [h.markEnd, Ptr.add_add]
    congr 1
    omega
  · have := h.markGap
    simp only [Ptr.add_off]
    omega
  · have := h.atMark (k' - k + j) (by omega)
    simp only
    rw [Ptr.add_add, this]
    congr 2
    omega

/-- The buffer after the stream and the signs are moved to its upper half. -/
theorem repacked {data : Ptr} (hcount : n % 32 = 0) (hfits : Header.dynamicLen + marks.length ≤ n / 2)
    (hmarks : MarksAt m (data + n / 2 + Header.dynamicLen) marks 0) :
    Held ((m.memcpy (data + n) (data + n / 2) (n / 2)).memcpy (data + n + n / 2) data (n / 2))
      { mark := data + n + Header.dynamicLen, markEnd := data + n + Header.dynamicLen + marks.length,
        extra := data + n + Header.dynamicLen + marks.length, extraEnd := data + n + n / 2, sm := data + n + n / 2,
        smEnd := data + n + n } marks (fun j => m (data + (n / 2 + (Header.dynamicLen + marks.length) + j)))
      (fun j => m (data + j)) n 0 0 := by
  have hstream : ∀ j : Nat, j < n / 2 →
      (m.memcpy (data + n) (data + n / 2) (n / 2)).memcpy (data + n + n / 2) data (n / 2) (data + n + j) =
        m (data + n / 2 + j) := by
    intro j hj
    rw [Mem.memcpy_of_off _ _ (.inr (.inl (by simp only [Ptr.add_off]; omega))), Mem.memcpy_in _ _ _ _ _ hj]
  refine ⟨rfl, ?_, ?_, rfl, rfl, ?_, ?_, fun j hj => ?_, fun j hj => ?_, fun j hj => ?_⟩
  · simp only
    unfold extraLeft
    rw [Ptr.add_add, Ptr.add_add, Ptr.add_add, Ptr.add_add]
    congr 1
    omega
  · simp only
    unfold smLeft
    rw [Ptr.add_add, Ptr.add_add, Ptr.add_add]
    congr 1
    omega
  · simp only [Ptr.add_off]
    omega
  · unfold extraLeft
    simp only [Ptr.add_off]
    omega
  · simp only
    rw [Ptr.add_add (data + n), hstream _ (by omega), ← Ptr.add_add]
    exact hmarks j hj
  · unfold extraLeft at hj
    simp only
    rw [Ptr.add_add (data + n + Header.dynamicLen), Ptr.add_add (data + n), hstream _ (by omega), Ptr.add_add]
    congr 2
    omega
  · unfold smLeft at hj
    simp only
    rw [Mem.memcpy_in _ _ _ _ _ (by omega), Mem.memcpy_of_off _ _ (.inr (.inl (by simp only [Ptr.add_off]; omega)))]
    congr 2
    omega

end Held

end UnifiedCache.Compress
