/-
  UnifiedCache.Compress.Bf16Agree — when decompression in place gives what decompression out of
  place gives (see `UnifiedCache.Compress.Bf16Inplace`, `UnifiedCache.Compress.Bf16Room`).

  Proved (`inplace_agrees_iff`): on a compressed array it does exactly when no group of 32
  gives up for want of room (`Fits`). The in-place loop loses no byte of the streams: it either
  comes out right or ends with the error. It can end so on a stream that compressed well: the
  slack behind the marks is carried along with them (`UnifiedCache.Compress.Bf16Slack`).
-/

import UnifiedCache.Compress.Bf16Room

namespace UnifiedCache.Compress

open UnifiedCache.Base

/-! ## A group's bytes -/

theorem uint16_bytes (x : UInt16) : x.toUInt8.toUInt16 ||| ((x >>> 8).toUInt8.toUInt16 <<< 8) = x := by
  apply uint16_ext
  intro i hi
  simp only [UInt16.toBitVec_or, UInt16.toBitVec_shiftLeft, UInt8.toBitVec_toUInt16, UInt16.toBitVec_toUInt8,
    UInt16.toBitVec_shiftRight]
  interval_cases i <;> simp

theorem length_groupBytes (f : Nat → UInt16) : (groupBytes f).length = 64 := by
  simp [groupBytes, List.length_flatMap]

theorem load16_groupBytes (m : Mem) (p : Ptr) (f : Nat → UInt16) {j : Nat} (hj : j < 32) :
    (m.storeBytes p (groupBytes f)).load16 (p + 2 * j) = f j := by
  have hget : ∀ i, i < 64 → m.storeBytes p (groupBytes f) (p + i) = ((groupBytes f)[i]?).getD 0 := fun i hi =>
    Mem.storeBytes_of_in m p _ i 0 (Nat.zero_le i) (by rw [length_groupBytes]; omega)
  have hbyte : ∀ b, b < 2 → (groupBytes f)[2 * j + b]? = [(f j).toUInt8, (f j >>> 8).toUInt8][b]? := by
    intro b hb
    unfold groupBytes
    rw [getElem?_flatMap_range 2 (fun _ => rfl) (by omega), Nat.mul_add_div (by decide), Nat.div_eq_of_lt hb, Nat.add_zero,
      Nat.mul_add_mod, Nat.mod_eq_of_lt hb]
  have h0 := hbyte 0 (by decide)
  have h1 := hbyte 1 (by decide)
  rw [Nat.add_zero] at h0
  unfold Mem.load16
  rw [Ptr.add_add, hget _ (by omega), hget _ (by omega), h0, h1]
  exact uint16_bytes (f j)

section Run

/- `X` are the symbols of the marks, `Y` the bytes behind the marks, `S` the signs and
   mantissas, `O` the elements; `r g` marks are read before group `g`'s block. -/
variable {marks : List Nat} {word : Nat → List UInt8} {X Y S : Nat → UInt8} {O : Nat → UInt16} {n : Nat} {r : Nat → Nat}
  {data tail : Ptr}

/-- Where the streams are: moved to the tail at a group before `b`, or still in the buffer as
    laid out by `l`. -/
inductive Place (marks : List Nat) (n : Nat) (r : Nat → Nat) (data tail : Ptr) (b : Nat) (l : Layout) (s : Inplace) : Prop
  | tail : s.usingTail = true → s.streams.mark.blk = tail.blk → (∃ g, g < b ∧ spills n marks.length r g) →
      Place marks n r data tail b l s
  | buffer : s.usingTail = false → s.streams.mark = data + l.mark → s.streams.extra.off = data.off + l.extra →
      s.streams.smEnd = data + 2 * n → (∀ g, g < b → ¬ spills n marks.length r g) → Place marks n r data tail b l s

/-- Before group `g`, with `k` marks read. -/
structure Running (marks : List Nat) (Y S : Nat → UInt8) (O : Nat → UInt16) (n : Nat) (data : Ptr) (g k : Nat)
    (s : Inplace) : Prop where
  held : Held s.mem s.streams marks Y S n k g
  dst : s.dst = data + 64 * g
  out : ∀ i, i < 32 * g → s.mem.load16 (data + 2 * i) = O i

theorem Running.frame {g k : Nat} {s t : Inplace} (h : Running marks Y S O n data g k s)
    (hheld : Held t.mem t.streams marks Y S n k g) (hdst : t.dst = s.dst)
    (hm : ∀ q : Ptr, q.blk = data.blk → q.off < data.off + 64 * g → t.mem q = s.mem q) : Running marks Y S O n data g k t := by
  refine ⟨hheld, hdst.trans h.dst, fun i hi => ?_⟩
  rw [← h.out i hi]
  refine Mem.load16_of_eq fun a ha => hm _ rfl ?_
  simp only [Ptr.add_off]
  omega

/-- The check before a group: the streams move to the tail, or stay for want of place there. -/
theorem spillIfSmall_spec {g k : Nat} {l : Layout} {s : Inplace} (htail : tail.blk ≠ data.blk)
    (h : Running marks Y S O n data g k s) (hp : Place marks n r data tail g l s)
    (hl : spills n marks.length r g ↔ 2 * n - l.mark ≤ inplaceTailBytes) :
    ∃ t, s.spillIfSmall tail = .ok t ∧ Running marks Y S O n data g k t ∧ Place marks n r data tail (g + 1) l t ∧
      t.buf = s.buf ∧ t.write = s.write := by
  unfold Inplace.spillIfSmall
  cases hp with
  | tail hu hb hs =>
    rw [hu]
    obtain ⟨g', hg', hsp⟩ := hs
    exact ⟨s, rfl, h, .tail hu hb ⟨g', by omega, hsp⟩, rfl, rfl⟩
  | buffer hu hmark hextra hend hno =>
    have hext : s.streams.extent = 2 * n - l.mark := by
      unfold Streams.extent
      rw [hend, hmark, Ptr.add_off, Ptr.add_off]
      omega
    rw [hu]
    simp only [Bool.not_false, Bool.true_and, decide_eq_true_eq]
    by_cases hsmall : s.streams.extent ≤ inplaceTailBytes
    · rw [if_pos hsmall]
      obtain ⟨m', st', he, hheld, hblk, hm⟩ := h.held.spill tail hsmall
      rw [he]
      refine ⟨_, rfl, h.frame hheld rfl fun q hq _ => hm q ?_, .tail rfl hblk ⟨g, by omega, ?_⟩, rfl, rfl⟩
      · rw [hq]
        exact fun e => htail e.symm
      · rw [hl, ← hext]
        exact hsmall
    · rw [if_neg hsmall]
      refine ⟨s, rfl, h, .buffer hu hmark hextra hend fun g' hg' => ?_, rfl, rfl⟩
      rcases Nat.lt_succ_iff_lt_or_eq.mp hg' with hlt | rfl
      · exact hno g' hlt
      · rw [hl, ← hext]
        exact hsmall

/-- Nothing more is moved to the tail after the check. -/
theorem spillIfSmall_again {s : Inplace} (h : s.usingTail = true ∨ ¬ s.streams.extent ≤ inplaceTailBytes) :
    s.spillIfSmall tail = .ok s := by
  unfold Inplace.spillIfSmall
  rcases h with h | h
  · rw [h]
    rfl
  · rw [decide_eq_false h, Bool.and_false]
    rfl

/-- The room check of group `g`, its bytes taken. -/
theorem makeRoom_spec {g : Nat} {l : Layout} {s : Inplace} (h : Held s.mem s.streams marks Y S n (r (g + 1)) (g + 1))
    (hdst : s.dst = data + 64 * g) (hmark : s.streams.mark = data + l.mark) (hextra : s.streams.extra.off = data.off + l.extra)
    (hend : s.streams.smEnd = data + 2 * n) :
    (room n marks.length r g ∧ ∃ t, s.makeRoom = .ok t ∧ Held t.mem t.streams marks Y S n (r (g + 1)) (g + 1) ∧
        t = { s with mem := t.mem, streams := t.streams } ∧
        (∀ q : Ptr, q.blk = data.blk → q.off < data.off + 64 * g → t.mem q = s.mem q) ∧
        data.off + 64 * (g + 1) ≤ t.streams.firstSrc.off ∧ t.streams.smEnd = data + 2 * n ∧
        let l' := if 64 * (g + 1) > l.first n marks.length r g then Layout.packed n marks.length r g else l
        t.streams.mark = data + l'.mark ∧ t.streams.extra.off = data.off + l'.extra) ∨
      ¬ room n marks.length r g ∧ s.makeRoom = .error .errSyntax := by
  have hgap := h.markGap
  have hgap' := h.extraGap
  have hfirst := h.firstSrc_eq
  have hsm : s.streams.sm.off + smLeft n (g + 1) = data.off + 2 * n := by
    rw [← Ptr.add_off, ← h.smEnd, hend, Ptr.add_off]
  have hmo : s.streams.mark.off = data.off + l.mark := by rw [hmark, Ptr.add_off]
  have hlfirst : s.streams.firstSrc.off = data.off + l.first n marks.length r g := by
    rw [hfirst]
    unfold Layout.first
    split
    · exact hmo
    · split
      · exact hextra
      · omega
  have hleft : l.first n marks.length r g + left n marks.length r g ≤ 2 * n := by
    unfold left Layout.first
    split
    · omega
    · split <;> omega
  have hblocks : ∀ st : Streams, st.blocks s.dst = true ↔ data.off + 64 * (g + 1) > st.firstSrc.off := by
    intro st
    unfold Streams.blocks
    rw [hdst, Ptr.add_off, decide_eq_true_eq]
    omega
  unfold Inplace.makeRoom
  by_cases hb : s.streams.blocks s.dst = true
  · rw [if_pos hb]
    obtain ⟨m', st', he, hheld, hblk, hmk, hex, hse, hm⟩ := h.compact
    rw [he]
    simp only
    have hfirst' := hheld.firstSrc_eq
    have hsm' : st'.sm.off + smLeft n (g + 1) = data.off + 2 * n := by
      rw [← Ptr.add_off, ← hheld.smEnd, hse, hend, Ptr.add_off]
    have hpack : st'.firstSrc.off = data.off + (2 * n - left n marks.length r g) := by
      rw [hfirst']
      unfold left
      split
      · omega
      · split <;> omega
    by_cases hb' : st'.blocks s.dst = true
    · rw [if_pos hb']
      refine .inr ⟨fun hroom => ?_, rfl⟩
      rw [hblocks, hpack] at hb'
      unfold room at hroom
      omega
    · rw [if_neg hb']
      have hclear : data.off + 64 * (g + 1) ≤ st'.firstSrc.off := by
        rw [hblocks] at hb'
        omega
      refine .inl ⟨?_, _, rfl, hheld, rfl, fun q hq hlt => hm q (.inr (by omega)), hclear, hse.trans hend, ?_⟩
      · unfold room
        omega
      · rw [if_pos (by rw [hblocks, hlfirst] at hb; omega)]
        unfold Layout.packed left
        refine ⟨Ptr.ext (by rw [hblk, hmark]; rfl) ?_, ?_⟩
        · simp only [Ptr.add_off]
          omega
        · simp only
          omega
  · rw [if_neg hb]
    have hclear : data.off + 64 * (g + 1) ≤ s.streams.firstSrc.off := by
      rw [hblocks] at hb
      omega
    refine .inl ⟨?_, s, rfl, h, rfl, fun _ _ _ => rfl, hclear, hend, ?_⟩
    · unfold room
      omega
    · rw [if_neg (by omega)]
      exact ⟨hmark, hextra⟩

/-- The elements of a group are written below what is left of the streams, or beside them. -/
theorem Running.store {g k : Nat} {s t : Inplace} {f : Nat → UInt16} (h : Running marks Y S O n data g k s)
    (hheld : Held t.mem t.streams marks Y S n k (g + 1)) (hdst : t.dst = s.dst)
    (hm : ∀ q : Ptr, q.blk = data.blk → q.off < data.off + 64 * g → t.mem q = s.mem q)
    (hclear : t.streams.mark.blk ≠ data.blk ∨ data.off + 64 * (g + 1) ≤ t.streams.firstSrc.off)
    (hf : ∀ j, j < 32 → f j = O (32 * g + j)) :
    Running marks Y S O n data (g + 1) k { t with mem := t.mem.storeBytes t.dst (groupBytes f), dst := t.dst + 64 } := by
  have hd : t.dst = data + 64 * g := hdst.trans h.dst
  have hkeep : ∀ q : Ptr, q.blk ≠ data.blk ∨ q.off < data.off + 64 * g ∨ data.off + 64 * (g + 1) ≤ q.off →
      t.mem.storeBytes t.dst (groupBytes f) q = t.mem q := by
    intro q hq
    refine Mem.storeBytes_of_ne _ _ fun a ha => ?_
    rw [length_groupBytes] at ha
    intro e
    subst e
    rw [hd] at hq
    simp only [Ptr.add_blk, Ptr.add_off] at hq
    rcases hq with hq | hq | hq
    · exact hq rfl
    · omega
    · omega
  refine ⟨hheld.store fun q hq hlt => hkeep q ?_, ?_, fun i hi => ?_⟩
  · rcases hclear with hc | hc
    · exact .inl (by rw [hq]; exact hc)
    · exact .inr (.inr (by omega))
  · simp only
    rw [hd, Ptr.add_add, Nat.mul_succ]
  · by_cases hold : i < 32 * g
    · rw [← h.out i hold]
      refine Mem.load16_of_eq fun a ha => ?_
      simp only
      rw [hkeep _ (.inr (.inl (by simp only [Ptr.add_off]; omega)))]
      exact hm _ rfl (by simp only [Ptr.add_off]; omega)
    · have hj : 2 * i = 64 * g + 2 * (i - 32 * g) := by omega
      simp only
      rw [hj, ← Ptr.add_add, ← hd, load16_groupBytes _ _ _ (by omega), hf _ (by omega)]
      congr 1
      omega

/-- The elements that the streams give. -/
def Elements (X Y S : Nat → UInt8) (O : Nat → UInt16) (n M : Nat) : Prop :=
  ∀ g j, g < n / 32 → j < 32 →
    assembleGroup (fun i => X (32 * g + i)) (fun i => S (16 * g + i))
      (if 4 ≤ extraLeft n M g then some fun i => Y (4 * g + i) else none) j = O (32 * g + j)

theorem elements_spec {g k read : Nat} {s : Inplace} (hO : Elements X Y S O n marks.length) (hn : n % 32 = 0)
    (hg : g < n / 32) (h : Held s.mem s.streams marks Y S n k g) (hbuf : ∀ j, j < 32 → s.buf (read + j) = X (32 * g + j))
    {j : Nat} (hj : j < 32) : s.elements read j = O (32 * g + j) := by
  have hxl : s.streams.extraEnd.off - s.streams.extra.off = extraLeft n marks.length g := by
    rw [h.extraEnd, Ptr.add_off, Nat.add_sub_cancel_left]
  have hsm : 16 ≤ smLeft n g := by
    unfold smLeft
    omega
  rw [← hO g j hg hj]
  unfold Inplace.elements
  rw [assembleGroup_congr hbuf fun i hi => h.atSm i (by omega), hxl]
  by_cases hx : 4 ≤ extraLeft n marks.length g
  · -- only the four extra bytes of the group are looked at
    have hq : j / 8 < 4 := by omega
    unfold assembleGroup
    simp only [hx, ↓reduceIte]
    rw [h.atExtra _ (by omega)]
  · simp only [hx, ↓reduceIte]

/-- One group: it comes out right, or there is no room for it. -/
theorem group_spec {g read : Nat} {s : Inplace} (hO : Elements X Y S O n marks.length) (hn : n % 32 = 0) (hg : g < n / 32)
    (htail : tail.blk ≠ data.blk) (h : Running marks Y S O n data g (r (g + 1)) s)
    (hp : Place marks n r data tail g ((settled n marks.length r g).read r g) s)
    (hbuf : ∀ j, j < 32 → s.buf (read + j) = X (32 * g + j)) :
    (FitsAt n marks.length r g ∧ ∃ t, s.group tail read = .ok t ∧ Running marks Y S O n data (g + 1) (r (g + 1)) t ∧
        Place marks n r data tail (g + 1) (settled n marks.length r (g + 1)) t ∧ t.buf = s.buf ∧ t.write = s.write) ∨
      ¬ FitsAt n marks.length r g ∧ s.group tail read = .error .errSyntax := by
  have hsm : 16 ≤ smLeft n g := by
    unfold smLeft
    omega
  obtain ⟨u, hu, hru, hpu, hbu, hwu⟩ := spillIfSmall_spec htail h hp Iff.rfl
  have hsl : u.streams.smEnd.off - u.streams.sm.off = smLeft n g := by
    rw [hru.held.smEnd, Ptr.add_off, Nat.add_sub_cancel_left]
  obtain ⟨hcons, hcx⟩ := hru.held.consume hsm
  have hel : ∀ j, j < 32 → u.elements read j = O (32 * g + j) := fun j hj =>
    elements_spec hO hn hg hru.held (fun i hi => by rw [hbu]; exact hbuf i hi) hj
  unfold Inplace.group
  rw [hu]
  simp only
  rw [if_neg (by omega)]
  cases hpu with
  | tail hut hblk hsp =>
    have hout : u.consume.usingTail = true := hut
    rw [spillIfSmall_again (.inl hout)]
    simp only
    rw [if_pos hout]
    obtain ⟨g', hg', hs'⟩ := hsp
    have hblk' : u.consume.streams.mark.blk ≠ data.blk := fun e => htail (hblk.symm.trans e)
    exact .inl ⟨.inl ⟨g', by omega, hs'⟩, _, rfl, hru.store hcons rfl (fun _ _ _ => rfl) (.inl hblk') hel,
      .tail hout hblk ⟨g', hg', hs'⟩, hbu, hwu⟩
  | buffer hut hmark hextra hend hno =>
    have hout : u.consume.usingTail = false := hut
    have hext : ¬ u.consume.streams.extent ≤ inplaceTailBytes := by
      have hng := hno g (by omega)
      unfold spills at hng
      have : u.consume.streams.extent = u.streams.smEnd.off - u.streams.mark.off := rfl
      rw [this, hend, hmark, Ptr.add_off, Ptr.add_off]
      omega
    rw [spillIfSmall_again (.inr hext)]
    simp only
    rw [if_neg (by rw [hout]; decide)]
    have hfits : room n marks.length r g ↔ FitsAt n marks.length r g := by
      unfold FitsAt
      constructor
      · exact .inr
      · rintro (⟨g', hg', hs'⟩ | hroom)
        · exact absurd hs' (hno g' (by omega))
        · exact hroom
    have hextra' : u.consume.streams.extra.off =
        data.off + (((settled n marks.length r g).read r g).take n marks.length g).extra := by
      rw [hcx, hextra, Nat.add_assoc]
      rfl
    rcases makeRoom_spec (l := ((settled n marks.length r g).read r g).take n marks.length g) hcons hru.dst hmark hextra' hend
      with ⟨hroom, t, ht, hheld, heq, hm, hclear, hend', hmk, hex⟩ | ⟨hno', he⟩
    · rw [ht]
      have hdst : t.dst = u.dst := by rw [heq]; rfl
      have hbuf' : t.buf = u.buf := by rw [heq]; rfl
      have hwrite : t.write = u.write := by rw [heq]; rfl
      have hut' : t.usingTail = false := by rw [heq]; exact hut
      exact .inl ⟨hfits.mp hroom, _, rfl, hru.store hheld hdst hm (.inr hclear) hel, .buffer hut' hmk hex hend' hno,
        hbuf'.trans hbu, hwrite.trans hwu⟩
    · rw [he]
      exact .inr ⟨fun hf => hno' (hfits.mpr hf), rfl⟩

/-- The layout before group `g`, with `k` marks read. -/
def layoutAt (n M : Nat) (r : Nat → Nat) (g k : Nat) : Layout :=
  ⟨(settled n M r g).mark + (k - r g), (settled n M r g).extra⟩

/-- The groups of a block: they come out right up to the first that has no room. -/
theorem groups_spec {iBlock blockEnd k : Nat} (hO : Elements X Y S O n marks.length) (hn : n % 32 = 0)
    (htail : tail.blk ≠ data.blk) : ∀ (c read g : Nat) (s : Inplace), blockEnd = read + 32 * c → iBlock + read = 32 * g →
    g + c ≤ n / 32 → (∀ g', g ≤ g' → g' < g + c → r (g' + 1) = k) → Running marks Y S O n data g k s →
    Place marks n r data tail g (layoutAt n marks.length r g k) s → (∀ j, j < blockEnd → s.buf j = X (iBlock + j)) →
      ((∀ g', g ≤ g' → g' < g + c → FitsAt n marks.length r g') ∧ ∃ t, s.groups tail blockEnd read = .ok t ∧
          Running marks Y S O n data (g + c) k t ∧ Place marks n r data tail (g + c) (layoutAt n marks.length r (g + c) k) t ∧
          t.buf = s.buf ∧ t.write = s.write) ∨
        (∃ g', g ≤ g' ∧ g' < g + c ∧ ¬ FitsAt n marks.length r g') ∧ s.groups tail blockEnd read = .error .errSyntax := by
  intro c
  induction c with
  | zero =>
    intro read g s hend hread hle hr h hp hbuf
    unfold Inplace.groups
    rw [if_neg (by omega)]
    exact .inl ⟨fun g' h1 h2 => by omega, s, rfl, h, hp, rfl, rfl⟩
  | succ c ih =>
    intro read g s hend hread hle hr h hp hbuf
    have hk : r (g + 1) = k := hr g (Nat.le_refl g) (by omega)
    unfold Inplace.groups
    rw [if_pos (by omega)]
    rcases group_spec hO hn (by omega) htail (hk ▸ h) (by rw [← hk] at hp; exact hp)
        (fun j hj => by rw [hbuf (read + j) (by omega), ← Nat.add_assoc, hread])
      with ⟨hfit, t, ht, hrt, hpt, hb, hw⟩ | ⟨hfit, he⟩
    · rw [ht]
      simp only
      have hlay : layoutAt n marks.length r (g + 1) k = settled n marks.length r (g + 1) := by
        unfold layoutAt
        rw [hk, Nat.sub_self]
        rfl
      rcases ih (read + 32) (g + 1) t (by omega) (by omega) (by omega) (fun g' h1 h2 => hr g' (by omega) (by omega))
          (hk ▸ hrt) (by rw [hlay]; exact hpt) (fun j hj => by rw [hb]; exact hbuf j hj)
        with ⟨hall, u, hu, hru, hpu, hbu, hwu⟩ | ⟨⟨g', h1, h2, hno⟩, he⟩
      · rw [Nat.add_right_comm] at hru hpu
        refine .inl ⟨fun g' h1 h2 => ?_, u, hu, hru, hpu, hbu.trans hb, hwu.trans hw⟩
        rcases Nat.eq_or_lt_of_le h1 with rfl | hlt
        · exact hfit
        · exact hall g' hlt (by omega)
      · exact .inr ⟨⟨g', by omega, by omega, hno⟩, he⟩
    · rw [he]
      exact .inr ⟨⟨g, Nat.le_refl g, by omega, hfit⟩, rfl⟩

/-- `r g` marks are read before group `g`'s block: as few as give the symbols of the blocks up
    to the one before it. -/
def Reads (marks : List Nat) (word : Nat → List UInt8) (n : Nat) (r : Nat → Nat) : Prop :=
  r 0 = 0 ∧ ∀ g k, g < n / 32 → k ≤ marks.length → min n (blockSize * (g / 256 + 1)) ≤ spelledLen marks word k →
    (∀ j, j < k → spelledLen marks word j < min n (blockSize * (g / 256 + 1))) → r (g + 1) = k

theorem Running.read {g k k' : Nat} {s : Inplace} {buf : Nat → UInt8} {write : Nat} (h : Running marks Y S O n data g k s)
    (hk : k ≤ k') (hle : k' ≤ marks.length) : Running marks Y S O n data g k'
      { s with write, buf, streams := { s.streams with mark := s.streams.mark + (k' - k) } } := by
  exact ⟨h.held.read hk hle, h.dst, h.out⟩

/-- The block loop. -/
theorem blockLoop_spec {lut : Lut} (hO : Elements X Y S O n marks.length) (hitems : Items lut marks word)
    (hX : ∀ i, i < n → (marks.flatMap word)[i]? = some (X i)) (hr : Reads marks word n r) (hn : n % 32 = 0)
    (htail : tail.blk ≠ data.blk) :
    ∀ (b iBlock : Nat) (s : Inplace), n ≤ iBlock + blockSize * b → iBlock % blockSize = 0 →
      Running marks Y S O n data (iBlock / 32) (r (iBlock / 32)) s →
      Place marks n r data tail (iBlock / 32) (settled n marks.length r (iBlock / 32)) s →
      Ring marks word iBlock (r (iBlock / 32)) s.write s.buf → s.write < tsItemSize →
      (∀ j, j < r (iBlock / 32) → spelledLen marks word j < iBlock) →
      ((∀ g, iBlock / 32 ≤ g → g < n / 32 → FitsAt n marks.length r g) ∧
          ∃ m', s.blockLoop lut tail n iBlock = some (.ok m') ∧ ∀ i, i < n → m'.load16 (data + 2 * i) = O i) ∨
        (∃ g, iBlock / 32 ≤ g ∧ g < n / 32 ∧ ¬ FitsAt n marks.length r g) ∧
          s.blockLoop lut tail n iBlock = some (.error .errSyntax) := by
  have hlen : n ≤ (marks.flatMap word).length := by
    by_contra hlt
    have hlt' : (marks.flatMap word).length < n := by omega
    have := hX _ hlt'
    rw [List.getElem?_eq_none (Nat.le_refl _)] at this
    cases this
  have h8192 : blockSize = 8192 := rfl
  have h7 : tsItemSize = 7 := rfl
  intro b
  induction b with
  | zero =>
    intro iBlock s hb hmod h hp hring hw hmin
    unfold Inplace.blockLoop
    rw [if_neg (by omega)]
    exact .inl ⟨fun g h1 h2 => by omega, s.mem, rfl, fun i hi => h.out i (by omega)⟩
  | succ b ih =>
    intro iBlock s hb hmod h hp hring hw hmin
    have hmod' : iBlock % 8192 = 0 := hmod
    rw [Nat.mul_succ] at hb
    unfold Inplace.blockLoop
    by_cases hlt : iBlock < n
    · rw [if_pos hlt]
      generalize hbe : (if n - iBlock < blockSize then n - iBlock else blockSize) = blockEnd
      have hbe' : blockEnd ≤ blockSize ∧ iBlock + blockEnd ≤ n ∧ blockEnd % 32 = 0 ∧ 0 < blockEnd ∧
          (blockEnd = blockSize ∨ blockEnd < blockSize ∧ iBlock + blockEnd = n) := by
        split at hbe <;> omega
      obtain ⟨k', w', buf', he, hring', hk', hw', hover, hnext⟩ := fillBlock_spec (m := s.mem) iBlock blockEnd hitems
        (by omega) blockSize (r (iBlock / 32)) s.write s.streams.mark s.buf (by omega) hring h.held.atMark
      have hover' : w' < blockEnd + tsItemSize := by
        rcases hover with h | h
        · omega
        · exact h
      simp only [he]
      have hmin' : ∀ j, j < k' → spelledLen marks word j < iBlock + blockEnd := by
        intro j hj
        by_cases hold : j < r (iBlock / 32)
        · have := hmin j hold
          omega
        · exact hnext j (by omega) hj
      have hrk : ∀ g, iBlock / 32 ≤ g → g < iBlock / 32 + blockEnd / 32 → r (g + 1) = k' := by
        intro g h1 h2
        have hblk : min n (blockSize * (g / 256 + 1)) = iBlock + blockEnd := by
          rw [h8192, show g / 256 = iBlock / 8192 by omega]
          omega
        refine hr.2 g k' (by omega) hring'.le ?_ ?_
        · rw [hblk, hring'.len]
          omega
        · rw [hblk]
          exact hmin'
      have hp' : Place marks n r data tail (iBlock / 32) (layoutAt n marks.length r (iBlock / 32) k') { s with
          write := w', buf := buf', streams := { s.streams with mark := s.streams.mark + (k' - r (iBlock / 32)) } } := by
        cases hp with
        | tail hu hblk hs => exact .tail hu hblk hs
        | buffer hu hmark hextra hend hno =>
          refine .buffer hu ?_ hextra hend hno
          simp only
          rw [hmark, Ptr.add_add]
          rfl
      have hbuf : ∀ j, j < blockEnd → buf' j = X (iBlock + j) := by
        intro j hj
        have := hring'.bytes j (by omega)
        rw [hX _ (by omega)] at this
        exact Option.some.inj this
      rcases groups_spec hO hn htail (blockEnd / 32) 0 (iBlock / 32) _ (by omega) (by omega) (by omega) hrk
          (h.read hk' hring'.le) hp' hbuf
        with ⟨hall, t, ht, hrt, hpt, hb', hw''⟩ | ⟨⟨g, h1, h2, hno⟩, he'⟩
      · rw [ht]
        simp only
        by_cases hfull : blockEnd = blockSize
        · have hnb : t.nextBlock blockEnd = { t with buf := carryTail t.buf, write := t.write - blockSize } := by
            unfold Inplace.nextBlock
            rw [if_pos hfull]
          have hg : iBlock / 32 + blockEnd / 32 = (iBlock + blockSize) / 32 := by omega
          have hlast : r ((iBlock + blockSize) / 32) = k' := by
            have := hrk ((iBlock + blockSize) / 32 - 1) (by omega) (by omega)
            rwa [Nat.sub_add_cancel (by omega)] at this
          have hlay : layoutAt n marks.length r ((iBlock + blockSize) / 32) k' =
              settled n marks.length r ((iBlock + blockSize) / 32) := by
            unfold layoutAt
            rw [hlast, Nat.sub_self]
            rfl
          rw [hg] at hrt hpt
          rw [hlay] at hpt
          have hpn : Place marks n r data tail ((iBlock + blockSize) / 32)
              (settled n marks.length r ((iBlock + blockSize) / 32)) (t.nextBlock blockEnd) := by
            rw [hnb]
            cases hpt with
            | tail hu hblk hs => exact .tail hu hblk hs
            | buffer hu hmark hextra hend hno => exact .buffer hu hmark hextra hend hno
          have hrn : Running marks Y S O n data ((iBlock + blockSize) / 32) (r ((iBlock + blockSize) / 32))
              (t.nextBlock blockEnd) := by
            rw [hnb, hlast]
            exact ⟨hrt.held, hrt.dst, hrt.out⟩
          have hringn : Ring marks word (iBlock + blockSize) (r ((iBlock + blockSize) / 32)) (t.nextBlock blockEnd).write
              (t.nextBlock blockEnd).buf := by
            rw [hnb, hlast]
            simp only
            rw [hb', hw'']
            exact hring'.carry (by omega) (by omega)
          have hwn : (t.nextBlock blockEnd).write < tsItemSize := by
            rw [hnb]
            simp only
            rw [hw'']
            show w' - blockSize < tsItemSize
            omega
          rcases ih (iBlock + blockSize) (t.nextBlock blockEnd) (by omega) (show (iBlock + 8192) % 8192 = 0 by omega) hrn hpn
              hringn hwn (by rw [hlast, ← hfull]; exact hmin')
            with ⟨hall', m', hm', hout⟩ | ⟨⟨g, h1, h2, hno⟩, he'⟩
          · refine .inl ⟨fun g h1 h2 => ?_, m', hm', hout⟩
            by_cases hhere : g < iBlock / 32 + blockEnd / 32
            · exact hall g h1 hhere
            · exact hall' g (by omega) h2
          · exact .inr ⟨⟨g, by omega, h2, hno⟩, he'⟩
        · have hnb : t.nextBlock blockEnd = t := by
            unfold Inplace.nextBlock
            rw [if_neg hfull]
          rw [hnb]
          unfold Inplace.blockLoop
          rw [if_neg (by omega)]
          exact .inl ⟨fun g h1 h2 => hall g h1 (by omega), t.mem, rfl, fun i hi => hrt.out i (by omega)⟩
      · rw [he']
        exact .inr ⟨⟨g, h1, by omega, hno⟩, rfl⟩
    · rw [if_neg hlt]
      exact .inl ⟨fun g h1 h2 => by omega, s.mem, rfl, fun i hi => h.out i (by omega)⟩

end Run

/-! ## How many marks a block takes -/

/-- The least number of words, `lens` long, that give `pos` symbols. -/
def marksRead : List Nat → Nat → Nat
  | [], _ => 0
  | c :: cs, pos => if pos = 0 then 0 else marksRead cs (pos - c) + 1

/-- The marks read before group `g`'s block. -/
def marksBefore (lens : List Nat) (n : Nat) : Nat → Nat
  | 0 => 0
  | g + 1 => marksRead lens (min n (blockSize * (g / 256 + 1)))

theorem marksRead_le : ∀ (lens : List Nat) (pos : Nat), marksRead lens pos ≤ lens.length := by
  intro lens
  induction lens with
  | nil => intro pos; exact Nat.le_refl 0
  | cons c cs ih =>
    intro pos
    unfold marksRead
    split
    · exact Nat.zero_le _
    · exact Nat.succ_le_succ (ih (pos - c))

theorem marksRead_mono : ∀ (lens : List Nat) {a b : Nat}, a ≤ b → marksRead lens a ≤ marksRead lens b := by
  intro lens
  induction lens with
  | nil => intro a b _; exact Nat.le_refl 0
  | cons c cs ih =>
    intro a b hab
    unfold marksRead
    by_cases ha : a = 0
    · rw [if_pos ha]
      exact Nat.zero_le _
    · rw [if_neg ha, if_neg (by omega)]
      exact Nat.succ_le_succ (ih (by omega))

theorem marksRead_eq {word : Nat → List UInt8} : ∀ (marks : List Nat) {k pos : Nat}, k ≤ marks.length →
    pos ≤ spelledLen marks word k → (∀ j, j < k → spelledLen marks word j < pos) →
      marksRead (marks.map fun m => (word m).length) pos = k := by
  intro marks
  induction marks with
  | nil =>
    intro k pos hk _ _
    have hk0 : k = 0 := by simpa using hk
    rw [hk0]
    rfl
  | cons c cs ih =>
    intro k pos hk hpos hmin
    have hcons : ∀ j, spelledLen (c :: cs) word (j + 1) = (word c).length + spelledLen cs word j := fun j => by
      simp [spelledLen]
    rw [List.map_cons, marksRead]
    cases k with
    | zero =>
      have : pos = 0 := by simpa [spelledLen] using hpos
      rw [if_pos this]
    | succ k =>
      have h0 := hmin 0 (Nat.zero_lt_succ k)
      rw [if_neg (by omega)]
      congr 1
      rw [hcons] at hpos
      refine ih (by simpa using hk) (by omega) fun j hj => ?_
      have := hmin (j + 1) (by omega)
      rw [hcons] at this
      omega

/-! ## A compressed array, in place -/

/-- The number of symbols of each mark of a Tunstall stream. -/
def symbolCounts (m : Mem) (p : Ptr) (n : Nat) : List Nat :=
  (List.range (m.load32 (p + n / 2 + Header.dynNMark))).map fun j =>
    (loadLut m (p + n / 2 + Header.dynLut) (m (p + n / 2 + Header.dynamicLen + j)).toNat).c.toNat

/-- No group of the stream gives up for want of room. -/
def InplaceFits (m : Mem) (p : Ptr) (n : Nat) : Prop :=
  Fits n (m.load32 (p + n / 2 + Header.dynNMark)) (marksBefore (symbolCounts m p n) n)

section Stream

variable {m : Mem} {data tail : Ptr} {src : Nat → UInt16} {n len : Nat} {marks : List Nat}

theorem Bf16Stream.symbolCounts (h : Bf16Stream m data src n len marks) (hmax : n < 2 ^ 32) :
    symbolCounts m data n = marks.map fun k => (loadLut m (data + n / 2 + Header.dynLut) k).word.length := by
  unfold Compress.symbolCounts
  rw [h.nMark_eq hmax]
  apply List.ext_getElem
  · simp
  · intro j h1 h2
    have hj : j < marks.length := by simpa using h2
    have hmark := h.stream.spelled.bytes j hj
    rw [List.getElem?_eq_getElem hj] at hmark
    have hsmall := (h.stream.spelled.small _ (List.getElem_mem hj)).1
    unfold tsLutSize at hsmall
    rw [List.getElem_map, List.getElem_map, List.getElem_range, length_word, Option.some.inj hmark]
    congr 3
    simp
    omega

theorem Bf16Stream.reads (h : Bf16Stream m data src n len marks) (hmax : n < 2 ^ 32) :
    Reads marks (fun k => (loadLut m (data + n / 2 + Header.dynLut) k).word) n
      (marksBefore (Compress.symbolCounts m data n) n) := by
  refine ⟨rfl, fun g k _ hk hpos hmin => ?_⟩
  rw [h.symbolCounts hmax]
  exact marksRead_eq marks hk hpos hmin

theorem Bf16Stream.elements (h : Bf16Stream m data src n len marks) :
    Elements (permExp src) (fun j => m (data + (n / 2 + len + j))) (fun j => m (data + j))
      (fun i => truncValue (src i) (hasExtra n len i)) n marks.length := by
  intro g j hg hj
  have hlen := h.stream.len
  have hcount := h.count
  have hfits := h.fits
  have hle : extraBytes n len ≤ n / 2 - len ∧ extraBytes n len ≤ n / 8 := extraBytes_le
  have hiff := hasExtra_iff h.count h.fits hg
  have hsm : ∀ i, i < 16 → m (data + (16 * g + i)) = signMantByte src (16 * g + i) := fun i hi => h.signMant _ (by omega)
  rw [assembleGroup_congr (fun _ _ => rfl) hsm, assembleGroup_spec g hj]
  · congr 1
    unfold hasExtra extraLeft
    rw [show (32 * g + j) / 32 = g by omega]
    by_cases hx : 4 * g + 4 ≤ extraBytes n len
    · rw [if_pos (by omega)]
      simp [hx]
    · rw [if_neg (by omega)]
      simp [hx]
  · intro e he q hq
    split at he
    · next hin =>
      unfold extraLeft at hin
      rw [← Option.some.inj he]
      exact h.extra (4 * g + q) (by omega)
    · cases he

/-- The repacked buffer. -/
theorem Bf16Stream.held (h : Bf16Stream m data src n len marks) :
    Held ((m.memcpy (data + n) (data + n / 2) (n / 2)).memcpy (data + n + n / 2) data (n / 2))
      { mark := data + n + Header.dynamicLen, markEnd := data + n + Header.dynamicLen + marks.length,
        extra := data + n + Header.dynamicLen + marks.length, extraEnd := data + n + n / 2, sm := data + n + n / 2,
        smEnd := data + n + n } marks (fun j => m (data + (n / 2 + len + j))) (fun j => m (data + j)) n 0 0 := by
  have hlen := h.stream.len
  have hfits := h.fits
  rw [hlen]
  exact Held.repacked h.count (by omega) h.marksAt

/-- The Tunstall path in place: it comes out right, or there is no room for a group. -/
theorem Bf16Stream.inplace (h : Bf16Stream m data src n len marks) (hmax : n < 2 ^ 32) (htail : tail.blk ≠ data.blk)
    (buf : Nat → UInt8) :
    (InplaceFits m data n ∧ ∃ m', decompressTunstallTruncInplace m data tail n buf = some (.ok m') ∧
        ∀ i, i < n → m'.load16 (data + 2 * i) = truncValue (src i) (hasExtra n len i)) ∨
      ¬ InplaceFits m data n ∧ decompressTunstallTruncInplace m data tail n buf = some (.error .errSyntax) := by
  have hlen := h.stream.len
  have hfits := h.fits
  have hcount := h.count
  have hr := h.reads hmax
  generalize hst : Inplace.mk ((m.memcpy (data + n) (data + n / 2) (n / 2)).memcpy (data + n + n / 2) data (n / 2))
    { mark := data + n + Header.dynamicLen, markEnd := data + n + Header.dynamicLen + marks.length,
      extra := data + n + Header.dynamicLen + marks.length, extraEnd := data + n + n / 2, sm := data + n + n / 2,
      smEnd := data + n + n } buf 0 data false = s
  have hdef : decompressTunstallTruncInplace m data tail n buf =
      s.blockLoop (loadLut m (data + n / 2 + Header.dynLut)) tail n 0 := by
    unfold decompressTunstallTruncInplace
    simp only [h.count, ne_eq, not_true_eq_false, ↓reduceIte, h.stream.mode, h.nMark_eq hmax, h.stream.spelled.even,
      h.stream.srcLen]
    rw [if_neg (by omega), if_neg (by omega), hst]
  have hrun : Running marks (fun j => m (data + (n / 2 + len + j))) (fun j => m (data + j))
      (fun i => truncValue (src i) (hasExtra n len i)) n data 0 (marksBefore (Compress.symbolCounts m data n) n 0) s := by
    rw [← hst]
    exact ⟨h.held, rfl, fun i hi => by omega⟩
  have hplace : Place marks n (marksBefore (Compress.symbolCounts m data n) n) data tail 0
      (settled n marks.length (marksBefore (Compress.symbolCounts m data n) n) 0) s := by
    rw [← hst]
    refine .buffer rfl (Ptr.add_add _ _ _) ?_ ?_ fun g hg => by omega
    · simp only [Ptr.add_off, settled]
      omega
    · simp only
      rw [Ptr.add_add]
      congr 1
      omega
  have hring : Ring marks (fun k => (loadLut m (data + n / 2 + Header.dynLut) k).word) 0
      (marksBefore (Compress.symbolCounts m data n) n 0) s.write s.buf := by
    rw [← hst]
    exact ⟨Nat.zero_le _, rfl, fun j hj => by cases hj⟩
  have hwrite : s.write < tsItemSize := by
    rw [← hst]
    exact Nat.zero_lt_succ _
  rw [hdef]
  unfold InplaceFits
  rw [h.nMark_eq hmax]
  rcases blockLoop_spec h.elements h.items (fun i hi => h.spelled hi) hr h.count htail n 0 s (by unfold blockSize; omega)
      (Nat.zero_mod _) hrun hplace hring hwrite (fun j hj => by cases hj)
    with ⟨hall, m', he, hout⟩ | ⟨⟨g, -, hg, hno⟩, he⟩
  · exact .inl ⟨fun g hg => hall g (Nat.zero_le _) hg, m', he, hout⟩
  · exact .inr ⟨fun hf => hno (hf g hg), he⟩

end Stream

/-! ## The FP8 path in place -/

theorem load16_store16 (m : Mem) (p : Ptr) (x : UInt16) : (m.store16 p x).load16 p = x := by
  have hget : ∀ i, i < 2 → m.store16 p x (p + i) = ([x.toUInt8, (x >>> 8).toUInt8][i]?).getD 0 := fun i hi =>
    Mem.storeBytes_of_in m p _ i 0 (Nat.zero_le i) (by simpa using hi)
  have h0 := hget 0 (by decide)
  rw [Ptr.add_zero] at h0
  unfold Mem.load16
  rw [h0, hget 1 (by decide)]
  exact uint16_bytes x

theorem store16_of_out (m : Mem) (p : Ptr) (x : UInt16) {a k : Nat} (h : a < k ∨ k + 2 ≤ a) :
    m.store16 (p + k) x (p + a) = m (p + a) := Mem.storeBytes_of_out m p _ a k (by simpa using h)

/-- The loop runs downwards: it writes at and behind the byte it reads. -/
theorem decompressFp8Inplace_spec (data : Ptr) : ∀ (i : Nat) (m : Mem),
    (∀ a, 2 * i ≤ a → decompressFp8Inplace data i m (data + a) = m (data + a)) ∧
      ∀ j, j < i → (decompressFp8Inplace data i m).load16 (data + 2 * j) = fp8ToBf16 (m (data + j)) := by
  intro i
  induction i with
  | zero => exact fun m => ⟨fun a _ => rfl, fun j hj => by omega⟩
  | succ i ih =>
    intro m
    obtain ⟨hup, hdown⟩ := ih (m.store16 (data + 2 * i) (fp8ToBf16 (m (data + i))))
    unfold decompressFp8Inplace
    refine ⟨fun a ha => ?_, fun j hj => ?_⟩
    · rw [hup a (by omega), store16_of_out _ _ _ (by omega)]
    · by_cases hlast : j = i
      · rw [hlast]
        refine (Mem.load16_of_eq fun a ha => ?_).trans (load16_store16 m (data + 2 * i) _)
        rw [Ptr.add_add]
        exact hup _ (by omega)
      · rw [hdown j (by omega), store16_of_out _ _ _ (by omega)]

/-! ## The two decompressors -/

/-- Decompression in place succeeds and leaves the elements of decompression out of place. -/
def Agree (m : Mem) (data tail : Ptr) (n : Nat) (dst : Nat → UInt16) (buf buf' : Nat → UInt8) : Prop :=
  ∃ out m', tunstallDecompressBF16 m dst data n buf = some (.tsOk, out) ∧
    tunstallDecompressBF16Inplace m data tail n buf' = some (.ok m') ∧ ∀ i, i < n → m'.load16 (data + 2 * i) = out i

/-- On the bytes of a compressed array the two agree exactly when no group lacks room. -/
theorem inplace_agrees_iff (D : FloatOps F) (m m' : Mem) (dst data tail : Ptr) (src dst' : Nat → UInt16) (n : Nat)
    (buf buf' : Nat → UInt8) (hpos : 0 < n) (hmax : n < 2 ^ 32) (htail : tail.blk ≠ data.blk) :
    ∃ mc, tunstallCompressBF16 D m dst src n = some (.tsOk, mc) ∧
      ((∀ a, a < n → m' (data + a) = mc (dst + a)) →
        (Agree m' data tail n dst' buf buf' ↔ (isTunstall m' data n = true → InplaceFits m' data n))) := by
  obtain ⟨mc, hc, hpath⟩ := compressBF16_spec D m dst src hpos hmax
  refine ⟨mc, hc, fun hm => ?_⟩
  have hlen : ¬ (n = 0 ∨ n > 0xFFFFFFFF) := by omega
  unfold Agree tunstallDecompressBF16 tunstallDecompressBF16Inplace
  rw [if_neg hlen, if_neg hlen]
  rcases hpath with ⟨-, out, marks, -, hs⟩ | ⟨-, hs⟩
  · have hs' := hs.move hm
    obtain ⟨res, hres, hall⟩ := hs'.decompress hmax dst' buf
    rw [hs'.isTunstall, if_pos rfl, if_pos rfl, hres]
    rcases hs'.inplace hmax htail buf' with ⟨hfit, m₁, he, hout⟩ | ⟨hfit, he⟩
    · rw [he]
      exact ⟨fun _ _ => hfit, fun _ => ⟨res, m₁, rfl, rfl, fun i hi => (hout i hi).trans (hall i hi).symm⟩⟩
    · rw [he]
      constructor
      · rintro ⟨_, _, _, h, _⟩
        cases h
      · intro h
        exact absurd (h rfl) hfit
  · have hs' : Fp8Stream m' data src n := fun i hi => (hm i hi).trans (hs i hi)
    have hraw := hs'.isTunstall hpos
    rw [hraw, if_neg (by decide), if_neg (by decide)]
    refine ⟨fun _ h => absurd h (by decide), fun _ => ⟨_, _, rfl, rfl, fun i hi => ?_⟩⟩
    rw [if_pos hi]
    exact (decompressFp8Inplace_spec data n m').2 i hi

/-- 16384 zeros, whose stream is decompressed on the Tunstall path. -/
theorem inplace_agrees_iff_zeros :
    ∃ mc, tunstallCompressBF16 ratOps (fun _ => 0) ⟨0, 0⟩ (fun _ => 0) 16384 = some (.tsOk, mc) ∧
    isTunstall mc ⟨0, 0⟩ 16384 = true ∧
      (Agree mc ⟨0, 0⟩ ⟨1, 0⟩ 16384 (fun _ => 1) (fun _ => 0) (fun _ => 0) ↔ InplaceFits mc ⟨0, 0⟩ 16384) := by
  have ht := (takesTunstall_zeros (fun _ => 0) ⟨0, 0⟩ (by decide : 16384 % 32 = 0) (Nat.le_refl _) (by decide)).1
  obtain ⟨mc, hc, hpath⟩ := compressBF16_spec ratOps (fun _ => 0) ⟨0, 0⟩ (fun _ => 0) (by decide : 0 < 16384) (by decide)
  have htunstall : isTunstall mc ⟨0, 0⟩ 16384 = true := by
    rcases hpath with ⟨-, out, marks, -, hs⟩ | ⟨hf, -⟩
    · exact hs.isTunstall
    · rw [ht] at hf
      cases hf
  obtain ⟨mc', hc', h⟩ := inplace_agrees_iff ratOps (fun _ => 0) mc ⟨0, 0⟩ ⟨0, 0⟩ ⟨1, 0⟩ (fun _ => 0)
      (fun _ => 1) 16384 (fun _ => 0)
    (fun _ => 0) (by decide) (by decide) (by decide)
  obtain rfl : mc = mc' := (Prod.mk.inj (Option.some.inj (hc.symm.trans hc'))).2
  have hiff := h fun _ _ => rfl
  exact ⟨mc, hc, htunstall, hiff.trans ⟨fun hf => hf htunstall, fun hf _ => hf⟩⟩

end UnifiedCache.Compress
