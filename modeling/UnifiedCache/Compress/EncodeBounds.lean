/-
  UnifiedCache.Compress.EncodeBounds — where `TunstallCompress` writes past its destination
  (see `UnifiedCache.Compress.Tunstall`).

  A pair of marks is stored as a word of four bytes, and the guard before it asks for more than two:
  with three bytes left the word's last byte, a zero, is written at the capacity. The dynamic mode
  asks for the size of the table before it writes header and table, nine bytes more. The other writes
  stay inside.

  - `encodeLoop_end`: what the loop leaves at the end and past it.
  - `compressDynamic_stage`, `compressPredef_stage`: the same of the two modes.
  - `encoder_inside_iff`: the capacities and strings for which nothing is written past the end, and
    the length is that of the stream.

  How many pairs a string needs (`pairCount`) depends on the table, and so on the string.
-/

import UnifiedCache.Compress.RoundTrip

namespace UnifiedCache.Compress

open UnifiedCache.Base

variable {F : Type} {D : FloatOps F} {dst src : Ptr} {m m' : Mem} {cap srcLen : Nat} {predefLuts : Option (PredefTables F)}

/-! ## The condition -/

/-- The pairs of marks that the walks take for the string from position `ip` on. -/
def pairCount (getMark : Nat → Option (Nat × Nat)) (srcLen : Nat) : Nat → Nat → Nat
  | 0, _ => 0
  | fuel + 1, ip =>
    if ip < srcLen then
      match getMark ip with
      | none => 0
      | some (_, ip) =>
        match getMark ip with
        | none => 0
        | some (_, ip) => pairCount getMark srcLen fuel ip + 1
    else 0

/-- One of `pairs` words stored from offset `start` on ends one byte past the capacity. -/
def WordOverruns (start pairs cap : Nat) : Prop := ∃ j, j < pairs ∧ start + 2 * j + 3 = cap

/-- The modes go past their first checks. -/
def Admitted (cap srcLen : Nat) : Prop := tsLutBytes ≤ cap ∧ 0 < srcLen ∧ srcLen ≤ 0xFFFFFFFF

/-- The header with its table does not fit, or a word of marks does not. -/
def DynamicOverruns (D : FloatOps F) (m : Mem) (cap : Nat) (src : Ptr) (srcLen : Nat) : Prop :=
  Admitted cap srcLen ∧ ∃ hist, getHistFromArray D m src srcLen = .ok hist ∧
    (cap < Header.dynamicLen ∨ ∃ b, buildLut D hist = some (.tsOk, b) ∧
      WordOverruns Header.dynamicLen
        (pairCount (getMarkByInputStream b.etree ((hist.hist.head?.map (·.symb)).getD 0) src srcLen m) srcLen srcLen 0) cap)

/-- A word of marks does not fit. -/
def PredefOverruns (D : FloatOps F) (m : Mem) (cap : Nat) (src : Ptr) (srcLen : Nat)
    (predefLuts : Option (PredefTables F)) : Prop :=
  Admitted cap srcLen ∧ ∃ t hist lambda idx2symb symb2idx, allPredefLutsAvailable predefLuts = some t ∧
    getHistFromArray D m src srcLen = .ok hist ∧ hist.nSymb ≤ tsNSymbPredef ∧ findBest D t hist = .ok lambda ∧
    buildIdx2symbSymb2idx tsNSymbPredef tsNSymb hist = .ok (idx2symb, symb2idx) ∧
      WordOverruns (Header.preIdx2symb + hist.nSymb)
        (pairCount (getMarkByInputStreamSymb2idx (t.etree lambda) symb2idx src srcLen m) srcLen srcLen 0) cap

/-- The bytes that `TunstallDecompress` goes through: the header, then the marks it counts, or the
    plain bytes. -/
def streamLength (m : Mem) (p : Ptr) : Nat :=
  getHeaderLength m p +
    if m p = tsModeUncompress then m.load32 (p + Header.rawLength)
    else if m p = tsModeDynamic then m.load32 (p + Header.dynNMark)
    else m.load32 (p + Header.preNMark)

/-- Whatever the destination's memory holds, nothing changes from the capacity on, and on success the
    length is that of the stream. -/
def StaysInside (D : FloatOps F) (m : Mem) (dst : Ptr) (cap : Nat) (src : Ptr) (srcLen : Nat)
    (predefLuts : Option (PredefTables F)) : Prop :=
  ∀ m', SameOff dst m m' → ∃ out, tunstallCompress D m' dst cap src srcLen predefLuts = some out ∧
    (∀ a, cap ≤ a → out.mem (dst + a) = m' (dst + a)) ∧ (out.code = .tsOk → out.dstLen = streamLength out.mem dst)

/-! ## The loop -/

/-- The high half of a word of two marks is zero. -/
theorem store32_marks_high (m : Mem) (p : Ptr) {mark1 mark2 : Nat} (h1 : mark1 < 256) (h2 : mark2 < 256) :
    m.store32 p ((mark2 <<< 8) ||| mark1) (p + 3) = 0 := by
  have hx : (mark2 <<< 8) ||| mark1 = 256 * mark2 + mark1 := by
    rw [← Nat.shiftLeft_add_eq_or_of_lt (show mark1 < 2 ^ 8 by omega), Nat.shiftLeft_eq]
    omega
  have hhigh : (256 * mark2 + mark1) / 16777216 = 0 := by omega
  have h := Mem.storeBytes_of_in m p [.ofNat (256 * mark2 + mark1), .ofNat ((256 * mark2 + mark1) / 256),
    .ofNat ((256 * mark2 + mark1) / 65536), .ofNat ((256 * mark2 + mark1) / 16777216)] 3 0 (Nat.zero_le _) (by simp)
  rw [Ptr.add_zero] at h
  rw [hx]
  unfold Mem.store32
  rw [h, hhigh]
  rfl

theorem SameOff.then_store32 (h : SameOff dst m m') (a x : Nat) : SameOff dst m (m'.store32 (dst + a) x) := by
  intro q hq
  rw [Mem.store32_of_blk (p := dst + a) (q := q) _ _ hq, h q hq]

section Loop

variable {getMark : Mem → Nat → Option (Nat × Nat)} {getMark₀ : Nat → Option (Nat × Nat)} {pNMark opEnd : Nat} {lut : Lut}
  {s : Nat → UInt8}

/-- By induction on the symbols left: the word that ends one past the end is the last one stored. -/
theorem encodeLoop_end (hget : ∀ m', SameOff dst m m' → ∀ ip, getMark m' ip = getMark₀ ip)
    (hmark : ∀ ip, ∃ mark ip', getMark₀ ip = some (mark, ip') ∧ Spells lut s mark ip ip') :
    ∀ (fuel : Nat) (m₁ : Mem) (opp ip nMark : Nat) {code : Code} {m₂ : Mem} {opp' : Nat}, srcLen ≤ ip + fuel → pNMark + 4 ≤ opp →
      SameOff dst m m₁ → encodeLoop getMark dst pNMark opEnd srcLen m₁ opp ip nMark = some (code, m₂, opp') →
      (∀ a, opEnd < a → m₂ (dst + a) = m₁ (dst + a)) ∧
        (WordOverruns opp (pairCount getMark₀ srcLen fuel ip) opEnd → m₂ (dst + opEnd) = 0) ∧
        (¬ WordOverruns opp (pairCount getMark₀ srcLen fuel ip) opEnd → m₂ (dst + opEnd) = m₁ (dst + opEnd)) := by
  -- a loop that stops leaves all as it is
  have hstop : ∀ (fuel : Nat) (m₁ : Mem) (opp ip : Nat), (opEnd ≤ opp + 2 ∨ pairCount getMark₀ srcLen fuel ip = 0) →
      (∀ a, opEnd < a → m₁ (dst + a) = m₁ (dst + a)) ∧
        (WordOverruns opp (pairCount getMark₀ srcLen fuel ip) opEnd → m₁ (dst + opEnd) = 0) ∧
        (¬ WordOverruns opp (pairCount getMark₀ srcLen fuel ip) opEnd → m₁ (dst + opEnd) = m₁ (dst + opEnd)) := by
    intro fuel m₁ opp ip hor
    refine ⟨fun _ _ => rfl, fun ⟨j, hj, heq⟩ => ?_, fun _ => rfl⟩
    omega
  intro fuel
  induction fuel with
  | zero =>
    intro m₁ opp ip nMark code m₂ opp' hfuel _ _ hrun
    unfold encodeLoop at hrun
    rw [if_neg (by omega)] at hrun
    cases hrun
    exact hstop 0 _ _ _ (.inr rfl)
  | succ fuel ih =>
    intro m₁ opp ip nMark code m₂ opp' hfuel hp hsame hrun
    unfold encodeLoop at hrun
    by_cases hip : ip < srcLen
    · obtain ⟨mark1, ip₁, he₁, h₁⟩ := hmark ip
      obtain ⟨mark2, ip₂, he₂, h₂⟩ := hmark ip₁
      have hcount : pairCount getMark₀ srcLen (fuel + 1) ip = pairCount getMark₀ srcLen fuel ip₂ + 1 := by
        simp only [pairCount, hip, he₁, he₂, ↓reduceIte]
      rw [if_pos hip, hget m₁ hsame, he₁] at hrun
      simp only [hget m₁ hsame, he₂] at hrun
      by_cases hfull : opp + 2 ≥ opEnd
      · rw [if_pos hfull] at hrun
        cases hrun
        exact hstop (fuel + 1) _ _ _ (.inl hfull)
      · rw [if_neg hfull] at hrun
        have hlt₁ := h₁.2.2.1
        have hlt₂ := h₂.2.2.1
        obtain ⟨hpast, hover, hnot⟩ := ih _ _ _ _ (by omega) (by omega) ((hsame.then_store32 opp _).then_store32 pNMark _) hrun
        have hstore : ∀ a, opp + 4 ≤ a →
            ((m₁.store32 (dst + opp) ((mark2 <<< 8) ||| mark1)).store32 (dst + pNMark) (nMark + 2)) (dst + a) =
            m₁ (dst + a) := by
          intro a ha
          rw [Mem.store32_of_out _ dst a pNMark _ (by omega), Mem.store32_of_out _ dst a opp _ (by omega)]
        have hnext : WordOverruns opp (pairCount getMark₀ srcLen (fuel + 1) ip) opEnd ↔
            opp + 3 = opEnd ∨ WordOverruns (opp + 2) (pairCount getMark₀ srcLen fuel ip₂) opEnd := by
          rw [hcount]
          constructor
          · rintro ⟨j, hj, heq⟩
            rcases j with _ | j
            · exact .inl (by omega)
            · exact .inr ⟨j, by omega, by omega⟩
          · rintro (heq | ⟨j, hj, heq⟩)
            · exact ⟨0, by omega, by omega⟩
            · exact ⟨j + 1, by omega, by omega⟩
        refine ⟨fun a ha => ?_, fun hov => ?_, fun hov => ?_⟩
        · rw [hpast a ha, hstore a (by omega)]
        · rcases hnext.mp hov with heq | hov'
          · have hend : ¬ WordOverruns (opp + 2) (pairCount getMark₀ srcLen fuel ip₂) opEnd := by
              rintro ⟨j, _, heq'⟩
              omega
            have hhigh := store32_marks_high m₁ (dst + opp) h₁.1 h₂.1
            rw [Ptr.add_add, heq] at hhigh
            rw [hnot hend, Mem.store32_of_out _ dst opEnd pNMark _ (by omega), hhigh]
          · exact hover hov'
        · rw [hnext, not_or] at hov
          rw [hnot hov.2, hstore opEnd (by omega)]
    · rw [if_neg hip] at hrun
      cases hrun
      exact hstop (fuel + 1) _ _ _ (.inr (by simp only [pairCount, hip, ↓reduceIte]))

end Loop

/-! ## One mode -/

/-- Where an overrun shows: at the capacity, or in the last item of a table that does not fit. -/
def edge (cap : Nat) : Nat := max cap 2056

theorem le_edge (cap : Nat) : cap ≤ edge cap := Nat.le_max_left _ _

/-- A mode that does not overrun changes nothing from the capacity on; one whose overrun is `shown`
    leaves a small byte at the edge; and what else it leaves there is small. -/
structure Stage (dst : Ptr) (cap : Nat) (m m' : Mem) (overruns shown : Prop) : Prop where
  inside : ¬ overruns → ∀ a, cap ≤ a → m' (dst + a) = m (dst + a)
  marked : shown → (m' (dst + edge cap)).toNat ≤ tsItemSize
  kept : m' (dst + edge cap) = m (dst + edge cap) ∨ (m' (dst + edge cap)).toNat ≤ tsItemSize

theorem Stage.refl {overruns shown : Prop} (h : ¬ overruns) (himp : shown → overruns) : Stage dst cap m m overruns shown :=
  ⟨fun _ _ _ => rfl, fun hshown => absurd (himp hshown) h, .inl rfl⟩

/-- What a loop over a header that fits leaves. -/
theorem stage_of_end {m₁ : Mem} {overruns : Prop} (hheader : ∀ a, cap ≤ a → m₁ (dst + a) = m (dst + a))
    (hpast : ∀ a, cap < a → m' (dst + a) = m₁ (dst + a)) (hover : overruns → m' (dst + cap) = 0)
    (hnot : ¬ overruns → m' (dst + cap) = m₁ (dst + cap)) : Stage dst cap m m' overruns (overruns ∧ Header.dynamicLen ≤ cap) := by
  have hedge := le_edge cap
  have hinside : ¬ overruns → ∀ a, cap ≤ a → m' (dst + a) = m (dst + a) := by
    intro hno a ha
    rcases Nat.eq_or_lt_of_le ha with rfl | hlt
    · rw [hnot hno, hheader cap (Nat.le_refl cap)]
    · rw [hpast a hlt, hheader a ha]
  have hat : overruns → edge cap = cap → (m' (dst + edge cap)).toNat ≤ tsItemSize := by
    intro hov heq
    rw [heq, hover hov]
    exact Nat.zero_le _
  refine ⟨hinside, fun ⟨hov, hfits⟩ => hat hov (Nat.max_eq_left (by unfold Header.dynamicLen at hfits; omega)), ?_⟩
  by_cases hov : overruns
  · rcases Nat.eq_or_lt_of_le hedge with heq | hlt
    · exact .inr (hat hov heq.symm)
    · rw [hpast _ hlt, hheader _ hedge]
      exact .inl rfl
  · exact .inl (hinside hov _ hedge)

theorem SameOff.refl (dst : Ptr) (m : Mem) : SameOff dst m m := fun _ _ => rfl

theorem ne_of_blk {q : Ptr} (hq : q.blk ≠ dst.blk) (a : Nat) : q ≠ dst + a := fun e => hq (by simpa using congrArg Ptr.blk e)

theorem getMarkByInputStream_same (hblk : src.blk ≠ dst.blk) (etree : EncTree) (symb : UInt8)
    (hsame : SameOff dst m m') (ip : Nat) :
    getMarkByInputStream etree symb src srcLen m' ip = getMarkByInputStream etree symb src srcLen m ip := by
  unfold getMarkByInputStream
  refine walkMark_congr _ _ _ fun i _ => ?_
  rw [hsame (src + i) hblk]

theorem getMarkByInputStreamSymb2idx_same (hblk : src.blk ≠ dst.blk) (etree : EncTree) (symb2idx : UInt8 → UInt8)
    (hsame : SameOff dst m m') (ip : Nat) : getMarkByInputStreamSymb2idx etree symb2idx src srcLen m' ip =
      getMarkByInputStreamSymb2idx etree symb2idx src srcLen m ip := by
  unfold getMarkByInputStreamSymb2idx
  refine walkMark_congr _ _ _ fun i _ => ?_
  rw [hsame (src + i) hblk]

/-- The last byte of a table in the header is the length of its last item. -/
theorem dynHeader_edge (m : Mem) (dst : Ptr) (lut : Lut) (srcLen : Nat) : dynHeader m dst lut srcLen (dst + 2056) =
    (lut 255).c := by
  have hlast := storeLut_in m (dst + Header.dynLut) lut (k := 255) (i := 7) (by decide) (by decide)
  rw [if_neg (by decide), Ptr.add_add] at hlast
  rw [dynHeader_lut m dst lut srcLen (by decide)]
  exact hlast

theorem compressDynamic_stage (hblk : src.blk ≠ dst.blk) {out : Out}
    (h : tunstallCompressDynamic D m dst cap src srcLen = some out) :
    Stage dst cap m out.mem (DynamicOverruns D m cap src srcLen) (DynamicOverruns D m cap src srcLen) := by
  unfold tunstallCompressDynamic at h
  by_cases hcap : cap < tsLutBytes
  · rw [if_pos hcap] at h
    obtain rfl := Option.some.inj h
    exact .refl (fun hover => absurd hover.1.1 (by omega)) id
  rw [if_neg hcap] at h
  by_cases hlen : srcLen = 0 ∨ srcLen > 0xFFFFFFFF
  · rw [if_pos hlen] at h
    obtain rfl := Option.some.inj h
    exact .refl (fun hover => absurd hlen (by have := hover.1.2; omega)) id
  rw [if_neg hlen] at h
  cases hh : getHistFromArray D m src srcLen with
  | error e =>
    rw [hh] at h
    obtain rfl := Option.some.inj h
    refine .refl (fun hover => ?_) id
    obtain ⟨-, hist, hhist, -⟩ := hover
    rw [hh] at hhist
    cases hhist
  | ok hist =>
  obtain ⟨S, hS⟩ := histogram_spec hh
  have hpos : 0 < S.length := List.length_pos_of_mem (hS.mem 0 (by omega))
  obtain ⟨b, word, hb, hB, hcheck⟩ := buildLut_spec (D := D) hist hS.nodup hpos hS.le hS.nSymb hS.symbs
  simp only [hh, hb, hcheck, ne_eq, not_true_eq_false, ↓reduceIte] at h
  rw [getHeaderLength_dynamic (dynHeader_mode _ _ _ _)] at h
  have hmf : (hist.hist.head?.map (·.symb)).getD 0 ∈ S := hS.head hpos
  have hover : DynamicOverruns D m cap src srcLen ↔ cap < Header.dynamicLen ∨ WordOverruns Header.dynamicLen
      (pairCount (getMarkByInputStream b.etree ((hist.hist.head?.map (·.symb)).getD 0) src srcLen m) srcLen srcLen 0) cap := by
    constructor
    · rintro ⟨-, hist', hhist', hor⟩
      rw [hh] at hhist'
      obtain rfl := Except.ok.inj hhist'
      refine hor.imp_right fun ⟨b', hb', hword⟩ => ?_
      rw [hb] at hb'
      obtain rfl := (Prod.mk.inj (Option.some.inj hb')).2
      exact hword
    · exact fun hor => ⟨⟨by omega, by omega, by omega⟩, hist, hh, hor.imp_right fun hword => ⟨b, hb, hword⟩⟩
  -- the memory that the loop starts from
  have hheader : ∀ a, Header.dynamicLen ≤ a →
      ((dynHeader m dst b.lut srcLen).store32 (dst + Header.dynNMark) 0) (dst + a) = m (dst + a) := by
    intro a ha
    have hout : Header.dynNMark + 4 ≤ a := le_trans (by decide) ha
    rw [Mem.store32_of_out _ dst a Header.dynNMark _ (.inr hout), dynHeader_of_ne _ _ _ fun a' ha' => ?_]
    rw [Ne, Ptr.add_inj]
    omega
  have hsame : SameOff dst m ((dynHeader m dst b.lut srcLen).store32 (dst + Header.dynNMark) 0) := by
    refine SameOff.then_store32 (fun q hq => ?_) _ _
    rw [dynHeader_of_ne _ _ _ fun a _ => ne_of_blk hq a]
  cases henc : encodeDynamic b.etree dst Header.dynamicLen cap src srcLen ((hist.hist.head?.map (·.symb)).getD 0)
      (dynHeader m dst b.lut srcLen) with
  | none =>
    rw [henc] at h
    cases h
  | some r =>
  obtain ⟨code, m₂, opp'⟩ := r
  rw [henc] at h
  have hmem : out.mem = m₂ := by
    cases code <;> (obtain rfl := Option.some.inj h; rfl)
  obtain ⟨hpast, hov, hnot⟩ := encodeLoop_end (fun m' hm' ip => getMarkByInputStream_same hblk _ _ hm' ip)
    (fun ip => getMark_dynamic hB (fun i hi => hS.mem i hi) hmf (fun _ _ _ => rfl)) srcLen _ _ 0 0 (by omega)
    (by decide) hsame henc
  rw [hmem, hover]
  by_cases hfits : cap < Header.dynamicLen
  · -- the table's last item is past the end
    have hedge : edge cap = 2056 := Nat.max_eq_right (by unfold Header.dynamicLen at hfits; omega)
    have hlast : m₂ (dst + 2056) = (b.lut 255).c := by
      have hstart : m₂ (dst + 2056) = ((dynHeader m dst b.lut srcLen).store32 (dst + Header.dynNMark) 0) (dst + 2056) := by
        unfold Header.dynamicLen at hfits
        rcases Nat.eq_or_lt_of_le (show cap ≤ 2056 by omega) with heq | hlt
        · rw [heq] at hnot
          refine hnot fun ⟨j, _, hj⟩ => ?_
          unfold Header.dynamicLen at hj
          omega
        · exact hpast 2056 hlt
      rw [hstart, Mem.store32_of_out _ dst 2056 Header.dynNMark _ (.inr (by decide)), dynHeader_edge]
    have hsmall : (m₂ (dst + edge cap)).toNat ≤ tsItemSize := by
      rw [hedge, hlast]
      exact checkLutFrom_le hcheck 255 (by decide)
    exact ⟨fun hno => absurd (.inl hfits) hno, fun _ => hsmall, .inr hsmall⟩
  · rw [or_iff_right hfits]
    have hstage := stage_of_end (fun a ha => hheader a (by omega)) hpast hov hnot
    exact ⟨hstage.inside, fun hword => hstage.marked ⟨hword, by omega⟩, hstage.kept⟩

theorem preHeader_above {lambda nSymb : Nat} {idx2symb : List UInt8} {a : Nat} (ha : Header.preIdx2symb + idx2symb.length ≤ a) :
    preHeader m dst lambda nSymb srcLen idx2symb (dst + a) = m (dst + a) := by
  unfold Header.preIdx2symb at ha
  have hmode := Mem.store_add m dst a 0 (.ofNat (tsModePredefStart + lambda))
  rw [Ptr.add_zero, if_neg (by omega)] at hmode
  rw [preHeader, Mem.storeBytes_of_out _ dst _ a Header.preIdx2symb (.inr ha),
    Mem.store32_of_out _ dst a Header.preSrcLen _ (.inr (by unfold Header.preSrcLen; omega)), Mem.store_add,
    if_neg (by unfold Header.preNSymb; omega), hmode]

/-- `ts_build_idx2symb_symb2idx` succeeds on few symbols; an index is one of the predefined tables'. -/
theorem compressPredef_stage (hblk : src.blk ≠ dst.blk) (hT : PredefInitialized D predefLuts) {out : Out}
    (h : tunstallCompressPredef D m dst cap src srcLen predefLuts = some out) :
    Stage dst cap m out.mem (PredefOverruns D m cap src srcLen predefLuts)
      (PredefOverruns D m cap src srcLen predefLuts ∧ Header.dynamicLen ≤ cap) := by
  unfold tunstallCompressPredef at h
  cases ht : allPredefLutsAvailable predefLuts with
  | none =>
    rw [ht] at h
    obtain rfl := Option.some.inj h
    refine .refl (fun hover => ?_) And.left
    obtain ⟨-, t, _, _, _, _, ht', -⟩ := hover
    rw [ht] at ht'
    cases ht'
  | some t =>
  simp only [ht] at h
  by_cases hcap : cap < tsLutBytes
  · rw [if_pos hcap] at h
    obtain rfl := Option.some.inj h
    exact .refl (fun hover => absurd hover.1.1 (by omega)) And.left
  rw [if_neg hcap] at h
  by_cases hlen : srcLen = 0 ∨ srcLen > 0xFFFFFFFF
  · rw [if_pos hlen] at h
    obtain rfl := Option.some.inj h
    exact .refl (fun hover => absurd hlen (by have := hover.1.2; omega)) And.left
  rw [if_neg hlen] at h
  cases hh : getHistFromArray D m src srcLen with
  | error e =>
    rw [hh] at h
    obtain rfl := Option.some.inj h
    refine .refl (fun hover => ?_) And.left
    obtain ⟨-, _, hist, _, _, _, _, hhist, -⟩ := hover
    rw [hh] at hhist
    cases hhist
  | ok hist =>
  simp only [hh] at h
  by_cases hmany : hist.nSymb > tsNSymbPredef
  · rw [if_pos hmany] at h
    obtain rfl := Option.some.inj h
    refine .refl (fun hover => ?_) And.left
    obtain ⟨-, _, hist', _, _, _, _, hhist, hfew, -⟩ := hover
    rw [hh] at hhist
    obtain rfl := Except.ok.inj hhist
    omega
  rw [if_neg hmany] at h
  cases hbest : findBest D t hist with
  | error e =>
    rw [hbest] at h
    obtain rfl := Option.some.inj h
    refine .refl (fun hover => ?_) And.left
    obtain ⟨-, t', hist', _, _, _, ht', hhist, -, hbest', -⟩ := hover
    rw [hh] at hhist
    rw [ht] at ht'
    obtain rfl := Except.ok.inj hhist
    obtain rfl := Option.some.inj ht'
    rw [hbest] at hbest'
    cases hbest'
  | ok lambda =>
  simp only [hbest] at h
  obtain ⟨idx2symb, hS⟩ := histogram_spec hh
  obtain ⟨symb2idx, htab, hidx⟩ := buildIdx2symb_spec hS (by omega)
  have hsymbs := hS.nSymb
  simp only [htab] at h
  have hl := findBest_lt hbest
  obtain ⟨b, word, hB, -, htree⟩ := hT.built ht hl
  have hover : PredefOverruns D m cap src srcLen predefLuts ↔ WordOverruns (Header.preIdx2symb + hist.nSymb)
      (pairCount (getMarkByInputStreamSymb2idx (t.etree lambda) symb2idx src srcLen m) srcLen srcLen 0) cap := by
    constructor
    · rintro ⟨-, t', hist', lambda', idx2symb', symb2idx', ht', hhist', -, hbest', htab', hword⟩
      rw [hh] at hhist'
      rw [ht] at ht'
      obtain rfl := Except.ok.inj hhist'
      obtain rfl := Option.some.inj ht'
      rw [hbest] at hbest'
      obtain rfl := Except.ok.inj hbest'
      rw [htab] at htab'
      obtain ⟨rfl, rfl⟩ := Prod.mk.inj (Except.ok.inj htab')
      exact hword
    · exact fun hword => ⟨⟨by omega, by omega, by omega⟩, t, hist, lambda, idx2symb, symb2idx, ht, hh, by omega,
        hbest, htab, hword⟩
  have hshort : idx2symb.length ≤ tsNSymbPredef := by omega
  have hsrc : ∀ i, i < srcLen → symb2idx (m (src + i)) ∈ predefSymbs := fun i hi => (hidx _ (hS.mem i hi)).1
  have hmode : preHeader m dst lambda hist.nSymb srcLen idx2symb dst = .ofNat (tsModePredefStart + lambda) := preHeader_mode
  have hlength := getHeaderLength_predef hl (by unfold tsNSymbPredef at hmany; omega) hmode preHeader_nSymb
  rw [hlength] at h
  -- the memory that the loop starts from
  have hheader : ∀ a, cap ≤ a →
      ((preHeader m dst lambda hist.nSymb srcLen idx2symb).store32 (dst + Header.preNMark) 0) (dst + a) = m (dst + a) := by
    intro a ha
    unfold tsLutBytes at hcap
    rw [Mem.store32_of_out _ dst a Header.preNMark _ (.inr (by unfold Header.preNMark; omega)),
      preHeader_above (by unfold Header.preIdx2symb; unfold tsNSymbPredef at hshort; omega)]
  have hsame : SameOff dst m ((preHeader m dst lambda hist.nSymb srcLen idx2symb).store32 (dst + Header.preNMark) 0) := by
    refine SameOff.then_store32 (fun q hq => ?_) _ _
    rw [preHeader_of_ne hshort fun a _ => ne_of_blk hq a]
  cases henc : encodePredef (t.etree lambda) symb2idx dst (Header.preIdx2symb + hist.nSymb) cap src srcLen
      (preHeader m dst lambda hist.nSymb srcLen idx2symb) with
  | none =>
    rw [henc] at h
    cases h
  | some r =>
  obtain ⟨code, m₂, opp'⟩ := r
  rw [henc] at h
  have hmem : out.mem = m₂ := by
    cases code <;> (obtain rfl := Option.some.inj h; rfl)
  obtain ⟨hpast, hov, hnot⟩ := encodeLoop_end (fun m' hm' ip => getMarkByInputStreamSymb2idx_same hblk _ _ hm' ip)
    (fun ip => by rw [htree]; exact getMark_predef hB hsrc (fun _ _ _ => rfl)) srcLen _ _ 0 0 (by omega)
    (by unfold Header.preNMark Header.preIdx2symb; omega) hsame henc
  rw [hmem, hover]
  exact stage_of_end hheader hpast hov hnot

/-! ## The uncompressed mode -/

theorem doNotCompress_inside (m : Mem) (dst : Ptr) (cap : Nat) (src : Ptr) (srcLen : Nat) {a : Nat} (ha : cap ≤ a) :
    (doNotCompress m dst cap src srcLen).mem (dst + a) = m (dst + a) := by
  unfold doNotCompress
  by_cases hcap : srcLen + Header.uncompressLen > cap
  · rw [if_pos hcap]
  · have h5 : Header.uncompressLen = 5 := rfl
    have hmode := Mem.store_add m dst a 0 tsModeUncompress
    rw [Ptr.add_zero, if_neg (by omega)] at hmode
    rw [if_neg hcap]
    simp only
    rw [Mem.memcpy_of_out _ _ _ _ _ _ (.inr (by omega)),
      Mem.store32_of_out _ dst a Header.rawLength _ (.inr (by unfold Header.rawLength; omega)), hmode]

theorem store32_mod (m : Mem) (p : Ptr) (x : Nat) : m.store32 p x = m.store32 p (x % 2 ^ 32) := by
  have hbyte : ∀ d, d ∣ 16777216 → UInt8.ofNat (x / d) = UInt8.ofNat (x % 2 ^ 32 / d) := by
    rintro d ⟨k, hk⟩
    have hsplit : x = x % 2 ^ 32 + d * (256 * k * (x / 2 ^ 32)) := by
      have hdiv := Nat.mod_add_div x (2 ^ 32)
      have hpow : 2 ^ 32 = d * (256 * k) := by
        rw [Nat.mul_left_comm, ← hk]
        rfl
      calc x = x % 2 ^ 32 + 2 ^ 32 * (x / 2 ^ 32) := hdiv.symm
        _ = x % 2 ^ 32 + d * (256 * k) * (x / 2 ^ 32) := by rw [← hpow]
        _ = _ := by rw [Nat.mul_assoc]
    have hd : 0 < d := Nat.pos_of_ne_zero fun h => by rw [h, Nat.zero_mul] at hk; omega
    have hquot : x / d = x % 2 ^ 32 / d + 256 * (k * (x / 2 ^ 32)) := by
      conv_lhs => rw [hsplit]
      rw [Nat.add_mul_div_left _ _ hd, Nat.mul_assoc 256]
    rw [hquot]
    apply UInt8.toNat_inj.mp
    simp
  have h0 := hbyte 1 (Nat.one_dvd _)
  rw [Nat.div_one, Nat.div_one] at h0
  unfold Mem.store32
  rw [h0, hbyte 256 (by decide), hbyte 65536 (by decide), hbyte 16777216 (by decide)]

theorem doNotCompress_length (m : Mem) (dst : Ptr) (src : Ptr) (hcap : srcLen + Header.uncompressLen ≤ cap) :
    (doNotCompress m dst cap src srcLen).code = .tsOk ∧ (doNotCompress m dst cap src srcLen).dstLen =
    Header.uncompressLen + srcLen ∧
      streamLength (doNotCompress m dst cap src srcLen).mem dst = Header.uncompressLen + srcLen % 2 ^ 32 := by
  have h5 : Header.uncompressLen = 5 := rfl
  unfold doNotCompress
  rw [if_neg (by omega)]
  refine ⟨rfl, rfl, ?_⟩
  simp only
  generalize hm₁ : (m.store dst tsModeUncompress).store32 (dst + Header.rawLength) srcLen = m₁
  have hhead : ∀ a, a < 5 → (m₁.memcpy (dst + Header.uncompressLen) src srcLen) (dst + a) = m₁ (dst + a) :=
    fun a ha => Mem.memcpy_of_out _ _ _ _ _ _ (.inl (by omega))
  have hmode : (m₁.memcpy (dst + Header.uncompressLen) src srcLen) dst = tsModeUncompress := by
    have h := hhead 0 (by omega)
    have h' := Mem.store32_of_out (m.store dst tsModeUncompress) dst 0 Header.rawLength srcLen (by decide)
    rw [Ptr.add_zero] at h h'
    rw [h, ← hm₁, h', Mem.store, Function.update_self]
  have hlength : (m₁.memcpy (dst + Header.uncompressLen) src srcLen).load32 (dst + Header.rawLength) = srcLen % 2 ^ 32 := by
    rw [load32_move (m := m₁) (p := dst) hhead (by unfold Header.rawLength; omega), ← hm₁, store32_mod,
      Mem.load32_store32 _ _ _ (Nat.mod_lt _ (by decide))]
  unfold streamLength getHeaderLength
  simp only [hmode, ↓reduceIte, hlength]

/-! ## All modes -/

theorem SameOff.trans {m₁ : Mem} (h : SameOff dst m m₁) (h₁ : SameOff dst m₁ m') : SameOff dst m m' :=
  fun q hq => (h q hq).trans (h₁ q hq)

theorem getHistFromArray_same (hblk : src.blk ≠ dst.blk) (hsame : SameOff dst m m') :
    getHistFromArray D m' src srcLen = getHistFromArray D m src srcLen := by
  unfold getHistFromArray
  rw [countFreq_congr hblk hsame srcLen 0 _ rfl]

/-- The conditions depend on the string, not on what the destination holds. -/
theorem dynamicOverruns_same (hblk : src.blk ≠ dst.blk) (hsame : SameOff dst m m') :
    DynamicOverruns D m' cap src srcLen ↔ DynamicOverruns D m cap src srcLen := by
  have hget : ∀ etree symb, getMarkByInputStream etree symb src srcLen m' = getMarkByInputStream etree symb src srcLen m :=
    fun etree symb => funext fun ip => getMarkByInputStream_same hblk etree symb hsame ip
  unfold DynamicOverruns
  simp only [getHistFromArray_same hblk hsame, hget]

theorem predefOverruns_same (hblk : src.blk ≠ dst.blk) (hsame : SameOff dst m m') :
    PredefOverruns D m' cap src srcLen predefLuts ↔ PredefOverruns D m cap src srcLen predefLuts := by
  have hget : ∀ etree symb2idx, getMarkByInputStreamSymb2idx etree symb2idx src srcLen m' =
      getMarkByInputStreamSymb2idx etree symb2idx src srcLen m :=
    fun etree symb2idx => funext fun ip => getMarkByInputStreamSymb2idx_same hblk etree symb2idx hsame ip
  unfold PredefOverruns
  simp only [getHistFromArray_same hblk hsame, hget]

/-- A word that overruns where the header does not fit comes after a header that overruns. -/
theorem PredefOverruns.shown (h : PredefOverruns D m cap src srcLen predefLuts) (hno : ¬ DynamicOverruns D m cap src srcLen) :
    Header.dynamicLen ≤ cap := by
  obtain ⟨hadmitted, _, hist, _, _, _, _, hhist, _⟩ := h
  by_contra hlt
  exact hno ⟨hadmitted, hist, hhist, .inl (by omega)⟩

/-- How `TunstallCompress` runs: the dynamic mode, the predefined one over what that left, and then
    the dynamic mode again, or nothing, or the plain bytes. -/
structure CompressRun (D : FloatOps F) (m : Mem) (dst : Ptr) (cap : Nat) (src : Ptr) (srcLen : Nat)
    (predefLuts : Option (PredefTables F)) (out dynam predef : Out) : Prop where
  run : tunstallCompress D m dst cap src srcLen predefLuts = some out
  first : tunstallCompressDynamic D m dst cap src srcLen = some dynam
  second : tunstallCompressPredef D dynam.mem dst cap src srcLen predefLuts = some predef
  firstSame : SameOff dst m dynam.mem
  secondSame : SameOff dst m predef.mem
  last : (dynam.code = .tsOk ∧ dynam.dstLen < srcLen ∧ tunstallCompressDynamic D predef.mem dst cap src srcLen = some out) ∨
    (predef.code = .tsOk ∧ predef.dstLen < srcLen ∧ out = ⟨.tsOk, predef.mem, predef.dstLen⟩) ∨
    out = doNotCompress predef.mem dst cap src srcLen

theorem compress_runs (cap srcLen : Nat) (hblk : src.blk ≠ dst.blk) (hT : PredefInitialized D predefLuts) (m : Mem) :
    ∃ out dynam predef, CompressRun D m dst cap src srcLen predefLuts out dynam predef := by
  have hap : Apart dst src cap srcLen := apart_of_blk hblk cap srcLen
  obtain ⟨dynam, hd, hdw, -⟩ := compressDynamic_spec (D := D) (m := m) hap
  obtain ⟨predef, hp, hpw, -⟩ := compressPredef_spec (D := D) (m := dynam.mem) hap fun t ht _ hl => hT.built ht hl
  obtain ⟨again, ha, -⟩ := compressDynamic_spec (D := D) (m := predef.mem) hap
  have hsame₁ : SameOff dst m dynam.mem := fun q hq => (hdw.blk hq).symm
  have hsame₂ : SameOff dst m predef.mem := hsame₁.trans fun q hq => (hpw.blk hq).symm
  by_cases hdyn : ((decide (dynam.code = .tsOk ∧ dynam.dstLen < srcLen)) &&
      !(decide (predef.code = .tsOk ∧ predef.dstLen < srcLen) && decide (predef.dstLen < dynam.dstLen))) = true
  · refine ⟨again, dynam, predef, ⟨?_, hd, hp, hsame₁, hsame₂, .inl ?_⟩⟩
    · simp only [tunstallCompress, hd, hp]
      rw [if_pos hdyn, ha]
    · simp only [Bool.and_eq_true, decide_eq_true_eq] at hdyn
      exact ⟨hdyn.1.1, hdyn.1.2, ha⟩
  · by_cases hpre : ((decide (predef.code = .tsOk ∧ predef.dstLen < srcLen)) &&
        !(decide (dynam.code = .tsOk ∧ dynam.dstLen < srcLen) && decide (predef.dstLen ≥ dynam.dstLen))) = true
    · refine ⟨⟨.tsOk, predef.mem, predef.dstLen⟩, dynam, predef, ⟨?_, hd, hp, hsame₁, hsame₂, .inr (.inl ?_)⟩⟩
      · simp only [tunstallCompress, hd, hp]
        rw [if_neg hdyn, if_pos hpre]
      · simp only [Bool.and_eq_true, decide_eq_true_eq] at hpre
        exact ⟨hpre.1.1, hpre.1.2, rfl⟩
    · refine ⟨doNotCompress predef.mem dst cap src srcLen, dynam, predef, ⟨?_, hd, hp, hsame₁, hsame₂, .inr (.inr rfl)⟩⟩
      simp only [tunstallCompress, hd, hp]
      rw [if_neg hdyn, if_neg hpre]

section Runs

variable {out dynam predef : Out}

/-- No mode overruns: nothing changes from the capacity on. -/
theorem CompressRun.inside (h : CompressRun D m dst cap src srcLen predefLuts out dynam predef) (hblk : src.blk ≠ dst.blk)
    (hT : PredefInitialized D predefLuts) (hd : ¬ DynamicOverruns D m cap src srcLen)
    (hp : ¬ PredefOverruns D m cap src srcLen predefLuts) {a : Nat} (ha : cap ≤ a) : out.mem (dst + a) = m (dst + a) := by
  have h₁ : dynam.mem (dst + a) = m (dst + a) := (compressDynamic_stage hblk h.first).inside hd a ha
  have h₂ : predef.mem (dst + a) = m (dst + a) :=
    ((compressPredef_stage hblk hT h.second).inside (mt (predefOverruns_same hblk h.firstSame).mp hp) a ha).trans h₁
  rcases h.last with ⟨_, _, hagain⟩ | ⟨_, _, rfl⟩ | rfl
  · exact ((compressDynamic_stage hblk hagain).inside (mt (dynamicOverruns_same hblk h.secondSame).mp hd) a ha).trans h₂
  · exact h₂
  · rw [doNotCompress_inside _ _ _ _ _ ha]
    exact h₂

/-- One does: a small byte stays at the edge. -/
theorem CompressRun.marked (h : CompressRun D m dst cap src srcLen predefLuts out dynam predef) (hblk : src.blk ≠ dst.blk)
    (hT : PredefInitialized D predefLuts) (hover : DynamicOverruns D m cap src srcLen ∨
      PredefOverruns D m cap src srcLen predefLuts) :
    (out.mem (dst + edge cap)).toNat ≤ tsItemSize := by
  have hstage₁ := compressDynamic_stage hblk h.first
  have hstage₂ := compressPredef_stage hblk hT h.second
  have h₂ : (predef.mem (dst + edge cap)).toNat ≤ tsItemSize := by
    by_cases hd : DynamicOverruns D m cap src srcLen
    · rcases hstage₂.kept with hkept | hsmall
      · rw [hkept]
        exact hstage₁.marked hd
      · exact hsmall
    · have hp := hover.resolve_left hd
      exact hstage₂.marked ⟨(predefOverruns_same hblk h.firstSame).mpr hp, hp.shown hd⟩
  rcases h.last with ⟨_, _, hagain⟩ | ⟨_, _, rfl⟩ | rfl
  · rcases (compressDynamic_stage hblk hagain).kept with hkept | hsmall
    · rw [hkept]
      exact h₂
    · exact hsmall
  · exact h₂
  · rw [doNotCompress_inside _ _ _ _ _ (le_edge cap)]
    exact h₂

theorem DynStream.streamLength {s : Nat → UInt8} {n len : Nat} {marks : List Nat} (h : DynStream m dst s n len marks)
    (hlt : marks.length < 2 ^ 32) : len = Compress.streamLength m dst := by
  unfold Compress.streamLength
  rw [getHeaderLength_dynamic h.mode, h.mode, if_neg (by decide), if_pos rfl, h.nMark hlt]
  exact h.len

theorem PredefStream.streamLength {t : PredefTables F} {s idx : Nat → UInt8} {n len lambda : Nat} {marks : List Nat}
    (h : PredefStream t m dst s n len lambda idx marks) (hlt : marks.length < 2 ^ 32) : len = Compress.streamLength m dst := by
  have hmode : (UInt8.ofNat (tsModePredefStart + lambda)).toNat = tsModePredefStart + lambda := by
    have hl := h.lambda_lt
    unfold tsCountPredef at hl
    unfold tsModePredefStart
    simp
    omega
  have hne : ∀ x : UInt8, x.toNat < 2 → m dst ≠ x := by
    intro x hx heq
    rw [← heq, h.mode, hmode] at hx
    unfold tsModePredefStart at hx
    omega
  unfold Compress.streamLength
  rw [if_neg (hne _ (by decide)), if_neg (hne _ (by decide)), h.nMark hlt]
  exact h.len

/-- On success the length is that of the stream, but for a plain string whose length has more than
    32 bits. -/
theorem CompressRun.length (h : CompressRun D m dst cap src srcLen predefLuts out dynam predef) (hblk : src.blk ≠ dst.blk)
    (hT : PredefInitialized D predefLuts) (hsize : srcLen < 2 ^ 32 ∨ cap < srcLen + Header.uncompressLen)
    (hok : out.code = .tsOk) :
    out.dstLen = streamLength out.mem dst := by
  have hap : Apart dst src cap srcLen := apart_of_blk hblk cap srcLen
  obtain ⟨predef', hp', -, hps⟩ := compressPredef_spec (D := D) (m := dynam.mem) hap fun t ht _ hl => hT.built ht hl
  obtain rfl : predef' = predef := Option.some.inj (hp'.symm.trans h.second)
  rcases h.last with ⟨_, hshort, hagain⟩ | ⟨hcode, hshort, rfl⟩ | rfl
  · obtain ⟨out', hd', -, hds⟩ := compressDynamic_spec (D := D) (m := predef'.mem) hap
    obtain rfl : out' = out := Option.some.inj (hd'.symm.trans hagain)
    obtain ⟨-, -, hlt, marks, hstream⟩ := hds hok
    obtain ⟨-, hlen⟩ := compressDynamic_det hblk h.secondSame h.first hagain
    refine hstream.streamLength ?_
    have := hstream.len
    omega
  · obtain ⟨-, -, hlt, t, lambda, idx, marks, -, hstream⟩ := hps hcode
    refine hstream.streamLength ?_
    have := hstream.len
    omega
  · by_cases hcap : srcLen + Header.uncompressLen ≤ cap
    · obtain ⟨-, hlen, hstream⟩ := doNotCompress_length predef'.mem dst src hcap
      rw [hlen, hstream, Nat.mod_eq_of_lt (by omega)]
    · unfold doNotCompress at hok
      rw [if_pos (by omega)] at hok
      cases hok

/-- A plain string whose length has more than 32 bits. -/
theorem CompressRun.length_wraps (h : CompressRun D m dst cap src srcLen predefLuts out dynam predef) (hblk : src.blk ≠ dst.blk)
    (hT : PredefInitialized D predefLuts) (hlong : 2 ^ 32 ≤ srcLen) (hcap : srcLen + Header.uncompressLen ≤ cap) :
    out.code = .tsOk ∧ out.dstLen ≠ streamLength out.mem dst := by
  have hap : Apart dst src cap srcLen := apart_of_blk hblk cap srcLen
  obtain ⟨dynam', hd', -, hds⟩ := compressDynamic_spec (D := D) (m := m) hap
  obtain rfl : dynam' = dynam := Option.some.inj (hd'.symm.trans h.first)
  obtain ⟨predef', hp', -, hps⟩ := compressPredef_spec (D := D) (m := dynam'.mem) hap fun t ht _ hl => hT.built ht hl
  obtain rfl : predef' = predef := Option.some.inj (hp'.symm.trans h.second)
  rcases h.last with ⟨hcode, _, _⟩ | ⟨hcode, _, _⟩ | rfl
  · obtain ⟨-, -, hlt, -⟩ := hds hcode
    omega
  · obtain ⟨-, -, hlt, -⟩ := hps hcode
    omega
  · obtain ⟨hok, hlen, hstream⟩ := doNotCompress_length predef'.mem dst src hcap
    have hmod : srcLen % 2 ^ 32 < srcLen := Nat.lt_of_lt_of_le (Nat.mod_lt srcLen (by decide : 0 < 2 ^ 32)) hlong
    refine ⟨hok, ?_⟩
    rw [hlen, hstream]
    omega

end Runs

/-- A destination full of a byte that no mode leaves at the edge. -/
def filled (dst : Ptr) (m : Mem) : Mem := fun q => if q.blk = dst.blk then 255 else m q

theorem filled_same (dst : Ptr) (m : Mem) : SameOff dst m (filled dst m) := by
  intro q hq
  unfold filled
  rw [if_neg hq]

theorem not_inside_of_overrun (hblk : src.blk ≠ dst.blk) (hT : PredefInitialized D predefLuts)
    (hover : DynamicOverruns D m cap src srcLen ∨ PredefOverruns D m cap src srcLen predefLuts) :
    ¬ StaysInside D m dst cap src srcLen predefLuts := by
  intro hinside
  obtain ⟨out', dynam, predef, hrun⟩ := compress_runs cap srcLen hblk hT (filled dst m)
  obtain ⟨out, hout, hkept, -⟩ := hinside (filled dst m) (filled_same dst m)
  obtain rfl : out' = out := Option.some.inj (hrun.run.symm.trans hout)
  have hsame := filled_same dst m
  have hmarked := hrun.marked hblk hT
    (hover.imp (dynamicOverruns_same hblk hsame).mpr (predefOverruns_same hblk hsame).mpr)
  rw [hkept _ (le_edge cap), filled, if_pos (Ptr.add_blk dst (edge cap))] at hmarked
  exact absurd hmarked (by decide)

/-- Nothing is written from the capacity on, and a success gives the stream's length, in just these
    cases: neither mode overruns, and no length of more than 32 bits is written. -/
theorem encoder_inside_iff (m : Mem) (dst : Ptr) (cap : Nat) (src : Ptr) (srcLen : Nat) (predefLuts : Option (PredefTables F))
    (hblk : src.blk ≠ dst.blk) (hT : PredefInitialized D predefLuts) :
    StaysInside D m dst cap src srcLen predefLuts ↔
      ¬ DynamicOverruns D m cap src srcLen ∧ ¬ PredefOverruns D m cap src srcLen predefLuts ∧
        (srcLen < 2 ^ 32 ∨ cap < srcLen + Header.uncompressLen) := by
  constructor
  · intro hinside
    refine ⟨fun hd => not_inside_of_overrun hblk hT (.inl hd) hinside,
      fun hp => not_inside_of_overrun hblk hT (.inr hp) hinside, ?_⟩
    by_contra hlong
    obtain ⟨out', dynam, predef, hrun⟩ := compress_runs cap srcLen hblk hT m
    obtain ⟨out, hout, -, hlength⟩ := hinside m (SameOff.refl dst m)
    obtain rfl : out' = out := Option.some.inj (hrun.run.symm.trans hout)
    obtain ⟨hok, hne⟩ := hrun.length_wraps hblk hT (by omega) (by omega)
    exact hne (hlength hok)
  · rintro ⟨hd, hp, hsize⟩ m' hsame
    obtain ⟨out, dynam, predef, hrun⟩ := compress_runs cap srcLen hblk hT m'
    refine ⟨out, hrun.run, fun a ha => ?_, hrun.length hblk hT hsize⟩
    exact hrun.inside hblk hT (mt (dynamicOverruns_same hblk hsame).mp hd) (mt (predefOverruns_same hblk hsame).mp hp) ha

/-! ## A buffer of the table's size -/

/-- Bytes from 62 on. -/
def tinyMem : Mem := fun q => if q.blk = 1 then .ofNat (62 + q.off) else 0

/-- One byte, into as many bytes as the dynamic mode asks for. -/
theorem table_past_end : ¬ StaysInside ratOps tinyMem ⟨0, 0⟩ 2048 ⟨1, 0⟩ 1 none := by
  refine not_inside_of_overrun (by decide) (fun _ h => by cases h) (.inl ⟨⟨by decide, by decide, by decide⟩, ?_⟩)
  cases hh : getHistFromArray ratOps tinyMem ⟨1, 0⟩ 1 with
  | ok hist => exact ⟨hist, rfl, .inl (by decide)⟩
  | error e =>
    have hsymb : ¬ (tinyMem ((⟨1, 0⟩ : Ptr) + 0)).toNat ≥ tsNSymb := by decide
    unfold getHistFromArray countFreq countFreq at hh
    simp only [Nat.zero_lt_one, hsymb, Nat.lt_irrefl, Nat.zero_add, ↓reduceIte] at hh
    cases hh

/-- 3000 zeros into an odd number of bytes: no word of two marks ends past them. -/
theorem encoder_inside_iff_zeros : StaysInside ratOps zerosMem ⟨0, 0⟩ 3001 ⟨1, 0⟩ 3000 none := by
  refine (encoder_inside_iff zerosMem ⟨0, 0⟩ 3001 ⟨1, 0⟩ 3000 none (by decide) fun _ h => by cases h).mpr
    ⟨?_, ?_, .inl (by decide)⟩
  · rintro ⟨-, hist, -, hshort | ⟨b, -, j, -, hj⟩⟩
    · exact absurd hshort (by decide)
    · unfold Header.dynamicLen at hj
      omega
  · rintro ⟨-, t, -, -, -, -, ht, -⟩
    cases ht

end UnifiedCache.Compress
