/-
  UnifiedCache.Compress.Stream — the streams that the compressors of
  `UnifiedCache.Compress.Tunstall` leave in memory.

  `DynStream` and `PredefStream` say what a decoder needs of a buffer that holds a stream of
  each mode. Proved: `TunstallCompressDynamic` and `TunstallCompressPredef` end, write only
  their header, the marks and two bytes past them, and on success leave such a stream, when
  the source is apart from the destination (`Apart`; the source may begin right at the end of
  the destination's capacity, since its first byte is read before it can be overrun).
-/

import UnifiedCache.Compress.Encode

namespace UnifiedCache.Compress

open UnifiedCache.Base

variable {F : Type} {D : FloatOps F}

/-! ## Tables in memory -/

theorem bytes_getElem? (it : LutItem) {i : Nat} (h : i < 8) : it.bytes[i]? = some (if i < 7 then it.v i else it.c) := by
  unfold LutItem.bytes tsItemSize
  by_cases h7 : i < 7
  · rw [List.getElem?_append_left (by simpa using h7), if_pos h7]
    simp [h7]
  · obtain rfl : i = 7 := by omega
    rw [List.getElem?_append_right (by simp), if_neg (by omega)]
    simp

theorem storeLut_in (m : Mem) (p : Ptr) (lut : Lut) {k i : Nat} (hk : k < tsLutSize) (hi : i < 8) :
    storeLut m p lut (p + (8 * k + i)) = if i < 7 then (lut k).v i else (lut k).c := by
  unfold storeLut
  have hsub : (p + (8 * k + i)).off - p.off = 8 * k + i := by simp
  have hdiv : (8 * k + i) / 8 = k := by omega
  have hmod : (8 * k + i) % 8 = i := by omega
  unfold tsLutSize at hk
  rw [hsub, hdiv, hmod, bytes_getElem? _ hi, if_pos ⟨rfl, by simp, by simp [tsLutBytes]; omega⟩]
  rfl

theorem storeLut_of_ne (m : Mem) {p q : Ptr} (lut : Lut) (h : ∀ a, a < tsLutBytes → q ≠ p + a) :
    storeLut m p lut q = m q := by
  unfold storeLut
  rw [if_neg]
  rintro ⟨h1, h2, h3⟩
  refine h (q.off - p.off) (by omega) (Ptr.ext h1 ?_)
  rw [Ptr.add_off]
  omega

/-- A table read back where it was stored. -/
theorem loadLut_word {m m' : Mem} {p : Ptr} {lut : Lut}
    (h : ∀ a, a < tsLutBytes → m' (p + a) = storeLut m p lut (p + a)) {k : Nat} (hk : k < tsLutSize) :
    (loadLut m' p k).c = (lut k).c ∧ ((lut k).word.length ≤ tsItemSize → (loadLut m' p k).word = (lut k).word) := by
  have hin : ∀ i, i < 8 → m' (p + (8 * k + i)) = if i < 7 then (lut k).v i else (lut k).c := by
    intro i hi
    rw [h _ (by unfold tsLutBytes; unfold tsLutSize at hk; omega), storeLut_in m p lut hk hi]
  have hc : (loadLut m' p k).c = (lut k).c := by
    have := hin 7 (by omega)
    simpa [loadLut, loadLutItem] using this
  refine ⟨hc, fun hlen => ?_⟩
  rw [length_word] at hlen
  unfold LutItem.word
  rw [hc]
  refine List.map_congr_left fun i hi => ?_
  have hi7 : i < 7 := by
    have := List.mem_range.mp hi
    unfold tsItemSize at hlen
    omega
  have := hin i (by omega)
  rw [if_pos hi7] at this
  exact this

theorem checkLut_congr {lut lut' : Lut} (h : ∀ k, k < tsLutSize → (lut k).c = (lut' k).c) : checkLut lut = checkLut lut' := by
  have hrest : ∀ ms : List Nat, (∀ m ∈ ms, (lut m).c = (lut' m).c) → checkLutRest lut ms = checkLutRest lut' ms := by
    intro ms
    induction ms with
    | nil => intro _; rfl
    | cons m ms ih =>
      intro hms
      unfold checkLutRest
      rw [hms m (by simp), ih fun i hi => hms i (List.mem_cons_of_mem _ hi)]
  have hfrom : ∀ ms : List Nat, (∀ m ∈ ms, (lut m).c = (lut' m).c) → checkLutFrom lut ms = checkLutFrom lut' ms := by
    intro ms
    induction ms with
    | nil => intro _; rfl
    | cons m ms ih =>
      intro hms
      unfold checkLutFrom
      rw [hms m (by simp), ih fun i hi => hms i (List.mem_cons_of_mem _ hi), hrest _ hms]
  exact hfrom _ fun m hm => h m (List.mem_range.mp hm)

theorem checkLutRest_zero {lut : Lut} : ∀ {ms : List Nat}, checkLutRest lut ms = .tsOk → ∀ k ∈ ms, (lut k).c = 0 := by
  intro ms
  induction ms with
  | nil => exact fun _ k hk => absurd hk List.not_mem_nil
  | cons mark ms ih =>
    intro h
    unfold checkLutRest at h
    split at h
    · cases h
    · exact List.forall_mem_cons.mpr ⟨not_not.mp ‹_›, ih h⟩

theorem checkLutFrom_le {lut : Lut} : ∀ {ms : List Nat}, checkLutFrom lut ms = .tsOk →
    ∀ k ∈ ms, (lut k).c.toNat ≤ tsItemSize := by
  intro ms
  induction ms with
  | nil => exact fun _ k hk => absurd hk List.not_mem_nil
  | cons mark ms ih =>
    intro h
    unfold checkLutFrom at h
    by_cases hlong : (lut mark).c.toNat > tsItemSize
    · rw [if_pos hlong] at h
      cases h
    rw [if_neg hlong] at h
    split at h
    · intro k hk
      rw [checkLutRest_zero h k hk]
      exact Nat.zero_le _
    · exact List.forall_mem_cons.mpr ⟨by omega, ih h⟩

/-! ## The dynamic stream -/

/-- Where the compressors may write and read. -/
structure Apart (dst src : Ptr) (dstLen srcLen : Nat) : Prop where
  header : ∀ i a, i < srcLen → a < Header.dynamicLen → src + i ≠ dst + a
  body : ∀ i a, 1 ≤ i → i < srcLen → a ≤ dstLen → src + i ≠ dst + a

theorem apart_of_blk {dst src : Ptr} (h : src.blk ≠ dst.blk) (dstLen srcLen : Nat) : Apart dst src dstLen srcLen :=
  ⟨fun i a _ _ e => h (by simpa using congrArg Ptr.blk e), fun i a _ _ _ e => h (by simpa using congrArg Ptr.blk e)⟩

/-- Only the destination, the header and one byte past the capacity are written. -/
def Within (dst : Ptr) (dstLen : Nat) (m m' : Mem) : Prop :=
  ∀ q, (∀ a, a < Header.dynamicLen ∨ a ≤ dstLen → q ≠ dst + a) → m' q = m q

/-- The marks at `p` spell `s` up to `srcLen` over the words of `lut`. -/
structure Marks (m : Mem) (p : Ptr) (word : Nat → List UInt8) (s : Nat → UInt8) (srcLen : Nat) (marks : List Nat) : Prop where
  even : marks.length % 2 = 0
  bytes : ∀ j, j < marks.length → some (m (p + j)) = (marks[j]?).map UInt8.ofNat
  small : ∀ k ∈ marks, k < tsLutSize ∧ (word k).length ≤ tsItemSize ∧ 0 < (word k).length
  words : (marks.flatMap word).take srcLen = chunk s 0 srcLen

/-- The buffer at `dst` starts with a dynamic-mode stream of `len` bytes for `s`. -/
structure DynStream (m : Mem) (dst : Ptr) (s : Nat → UInt8) (n len : Nat) (marks : List Nat) : Prop where
  mode : m dst = tsModeDynamic
  nMark : marks.length < 2 ^ 32 → m.load32 (dst + Header.dynNMark) = marks.length
  srcLen : m.load32 (dst + Header.dynSrcLen) = n
  lut : checkLut (loadLut m (dst + Header.dynLut)) = .tsOk
  spelled : Marks m (dst + Header.dynamicLen) (fun k => (loadLut m (dst + Header.dynLut) k).word) s n marks
  len : len = Header.dynamicLen + marks.length

/-- The words of the marks, cut to the source's length. -/
theorem Encoded.take_words {lut : Lut} {s : Nat → UInt8} {dst : Ptr} {pNMark opp opp' ip' nMark srcLen : Nat} {m m' : Mem}
    {marks : List Nat} (h : Encoded lut s dst pNMark m m' opp opp' 0 ip' nMark marks) (hle : srcLen ≤ ip') :
    (marks.flatMap fun k => (lut k).word).take srcLen = chunk s 0 srcLen := by
  rw [h.words, ← chunk_append s (Nat.zero_le srcLen) hle, List.take_append_of_le_length (by simp),
    List.take_of_length_le (by simp)]

/-- The walks of `ts_encode_dynamic` over a built table. -/
theorem getMark_dynamic {S : List UInt8} {b : Build F} {word : Nat → List UInt8} (hB : Built S b word) {m₀ : Mem}
    {src : Ptr} {srcLen : Nat} {mostFreqSymb : UInt8} (hin : ∀ i, i < srcLen → m₀ (src + i) ∈ S) (hmf : mostFreqSymb ∈ S)
    {m : Mem} {ip : Nat} (hun : Unread m₀ m src srcLen ip) :
    ∃ mark ip', getMarkByInputStream b.etree mostFreqSymb src srcLen m ip = some (mark, ip') ∧
      Spells b.lut (fun i => if i < srcLen then m₀ (src + i) else mostFreqSymb) mark ip ip' := by
  have hs : ∀ i, (fun i => if i < srcLen then m₀ (src + i) else mostFreqSymb) i ∈ S := by
    intro i
    simp only
    split
    · next h => exact hin i h
    · exact hmf
  obtain ⟨mark, ip', he, h⟩ := walkMark_spec hB hs ip
  refine ⟨mark, ip', ?_, h⟩
  rw [← he]
  refine walkMark_congr _ _ _ fun i hi => ?_
  by_cases hlt : i < srcLen
  · rw [if_pos hlt, if_pos hlt, hun i hi hlt]
  · rw [if_neg hlt, if_neg hlt]

theorem getHeaderLength_dynamic {m : Mem} {dst : Ptr} (h : m dst = tsModeDynamic) :
    getHeaderLength m dst = Header.dynamicLen := by
  simp [getHeaderLength, h, tsModeDynamic, tsModeUncompress]

/-- The header as `TunstallCompressDynamic` writes it before the marks. -/
abbrev dynHeader (m : Mem) (dst : Ptr) (lut : Lut) (srcLen : Nat) : Mem :=
  ((storeLut m (dst + Header.dynLut) lut).store dst tsModeDynamic).store32 (dst + Header.dynSrcLen) srcLen

theorem dynHeader_of_ne (m : Mem) {dst q : Ptr} (lut : Lut) (srcLen : Nat)
    (h : ∀ a, a < Header.dynamicLen → q ≠ dst + a) : dynHeader m dst lut srcLen q = m q := by
  have h0 : q ≠ dst := by
    have := h 0 (by decide)
    rwa [Ptr.add_zero] at this
  rw [dynHeader, Mem.store32_of_ne _ _ fun a ha => ?_, Mem.store, Function.update_of_ne h0, storeLut_of_ne _ _ fun a ha => ?_]
  · rw [Ptr.add_add]
    exact h _ (by unfold Header.dynLut Header.dynamicLen; unfold tsLutBytes at ha; omega)
  · rw [Ptr.add_add]
    exact h _ (by unfold Header.dynSrcLen Header.dynamicLen; omega)

theorem dynHeader_mode (m : Mem) (dst : Ptr) (lut : Lut) (srcLen : Nat) :
    dynHeader m dst lut srcLen dst = tsModeDynamic := by
  have h := Mem.store32_of_out ((storeLut m (dst + Header.dynLut) lut).store dst tsModeDynamic) dst 0 Header.dynSrcLen
    srcLen (by decide)
  rw [Ptr.add_zero] at h
  rw [dynHeader, h, Mem.store, Function.update_self]

theorem dynHeader_lut (m : Mem) (dst : Ptr) (lut : Lut) (srcLen : Nat) {a : Nat} (h : Header.dynLut ≤ a) :
    dynHeader m dst lut srcLen (dst + a) = storeLut m (dst + Header.dynLut) lut (dst + a) := by
  unfold Header.dynLut at h
  rw [dynHeader, Mem.store32_of_out _ dst a Header.dynSrcLen _ (by unfold Header.dynSrcLen; omega)]
  have hst := Mem.store_add (storeLut m (dst + Header.dynLut) lut) dst a 0 tsModeDynamic
  rw [Ptr.add_zero, if_neg (by omega)] at hst
  exact hst

/-- The loop's marks after the header make a stream. -/
theorem Encoded.dynStream {m m' : Mem} {dst : Ptr} {lut : Lut} {s : Nat → UInt8} {srcLen opp' ip' : Nat}
    {marks : List Nat} (hlen : srcLen < 2 ^ 32) (hcheck : checkLut lut = .tsOk)
    (h : Encoded lut s dst Header.dynNMark ((dynHeader m dst lut srcLen).store32 (dst + Header.dynNMark) 0) m'
      Header.dynamicLen opp' 0 ip' 0 marks) (hip : srcLen ≤ ip')
    (hframe : EncodeFrame dst Header.dynNMark Header.dynamicLen opp'
      ((dynHeader m dst lut srcLen).store32 (dst + Header.dynNMark) 0) m') : DynStream m' dst s srcLen opp' marks := by
  have hfix : ∀ a, a < Header.dynamicLen → ¬ (Header.dynNMark ≤ a ∧ a < Header.dynNMark + 4) →
      m' (dst + a) = dynHeader m dst lut srcLen (dst + a) := by
    intro a h1 h2
    rw [hframe _ fun a' ha' => ?_, Mem.store32_of_out _ dst a Header.dynNMark _ (by omega)]
    rw [Ne, Ptr.add_inj]
    omega
  have hlut : ∀ a, a < tsLutBytes →
      m' (dst + Header.dynLut + a) = storeLut m (dst + Header.dynLut) lut (dst + Header.dynLut + a) := by
    intro a ha
    unfold tsLutBytes at ha
    have h1 : Header.dynLut + a < Header.dynamicLen := by unfold Header.dynLut Header.dynamicLen; omega
    have h2 : ¬ (Header.dynNMark ≤ Header.dynLut + a ∧ Header.dynLut + a < Header.dynNMark + 4) := by
      unfold Header.dynLut Header.dynNMark
      omega
    rw [Ptr.add_add, hfix _ h1 h2, dynHeader_lut _ _ _ _ (by omega)]
  have hword : ∀ k, k < tsLutSize → (lut k).word.length ≤ tsItemSize →
      (loadLut m' (dst + Header.dynLut) k).word = (lut k).word := fun k hk => (loadLut_word hlut hk).2
  have hflat : marks.flatMap (fun k => (loadLut m' (dst + Header.dynLut) k).word) = marks.flatMap fun k => (lut k).word := by
    refine List.flatMap_congr fun k hk => ?_
    obtain ⟨h1, h2, -⟩ := h.small k hk
    exact hword k h1 h2
  refine ⟨?_, fun hlt => ?_, ?_, ?_, ⟨h.even, fun j hj => ?_, fun k hk => ?_, ?_⟩, h.len⟩
  · have h := hfix 0 (by decide) (by decide)
    rw [Ptr.add_zero] at h
    rw [h, dynHeader_mode]
  · have := h.count (Mem.load32_store32 _ _ _ (by omega)) (by omega)
    rwa [Nat.zero_add] at this
  · have h : m'.load32 (dst + Header.dynSrcLen) = (dynHeader m dst lut srcLen).load32 (dst + Header.dynSrcLen) := by
      refine Mem.load32_of_eq fun a ha => ?_
      rw [Ptr.add_add]
      exact hfix _ (by unfold Header.dynSrcLen Header.dynamicLen; omega) (by unfold Header.dynSrcLen Header.dynNMark; omega)
    rw [h, Mem.load32_store32 _ _ _ hlen]
  · rw [checkLut_congr fun k hk => (loadLut_word hlut hk).1, hcheck]
  · rw [Ptr.add_add]
    exact h.bytes j hj
  · obtain ⟨h1, h2, h3⟩ := h.small k hk
    exact ⟨h1, by rw [hword k h1 h2]; exact h2, by rw [hword k h1 h2]; exact h3⟩
  · rw [hflat, h.take_words hip]

/-- A loop that has taken a symbol has written a mark. -/
theorem Encoded.lt {lut : Lut} {s : Nat → UInt8} {dst : Ptr} {pNMark opp opp' ip' nMark : Nat} {m m' : Mem}
    {marks : List Nat} (h : Encoded lut s dst pNMark m m' opp opp' 0 ip' nMark marks) (hip : 0 < ip') : opp < opp' := by
  have hne : marks ≠ [] := by
    intro e
    subst e
    have h := congrArg List.length h.words
    rw [length_chunk] at h
    simp at h
    omega
  have := h.len
  have := List.length_pos_iff.mpr hne
  omega

theorem DynStream.congr {m : Mem} {dst : Ptr} {s s' : Nat → UInt8} {n len : Nat} {marks : List Nat}
    (h : DynStream m dst s n len marks) (hs : ∀ i, i < n → s i = s' i) : DynStream m dst s' n len marks := by
  refine ⟨h.mode, h.nMark, h.srcLen, h.lut, ⟨h.spelled.even, h.spelled.bytes, h.spelled.small, ?_⟩, h.len⟩
  rw [h.spelled.words]
  exact chunk_congr _ fun i _ hi => hs i hi

theorem compressDynamic_spec {m : Mem} {dst src : Ptr} {dstLen srcLen : Nat} (hap : Apart dst src dstLen srcLen) :
    ∃ out, tunstallCompressDynamic D m dst dstLen src srcLen = some out ∧ Within dst dstLen m out.mem ∧
      (out.code = .tsOk → out.dstLen < dstLen ∧ 0 < srcLen ∧ srcLen < 2 ^ 32 ∧
        ∃ marks, DynStream out.mem dst (fun i => m (src + i)) srcLen out.dstLen marks) := by
  unfold tunstallCompressDynamic
  by_cases hcap : dstLen < tsLutBytes
  · exact ⟨_, if_pos hcap, fun q _ => rfl, fun h => by cases h⟩
  rw [if_neg hcap]
  by_cases hlen : srcLen = 0 ∨ srcLen > 0xFFFFFFFF
  · exact ⟨_, if_pos hlen, fun q _ => rfl, fun h => by cases h⟩
  rw [if_neg hlen]
  cases hh : getHistFromArray D m src srcLen with
  | error e =>
    refine ⟨_, rfl, fun q _ => rfl, fun h => ?_⟩
    rw [show e = .tsOk from h] at hh
    exact absurd (getHistFromArray_error hh) (by decide)
  | ok hist =>
  obtain ⟨S, hS⟩ := histogram_spec hh
  have hpos : 0 < S.length := List.length_pos_of_mem (hS.mem 0 (by omega))
  obtain ⟨b, word, hb, hB, hcheck⟩ := buildLut_spec (D := D) hist hS.nodup hpos hS.le hS.nSymb hS.symbs
  simp only [hb, hcheck, ne_eq, not_true_eq_false, ↓reduceIte]
  have hsrc : ∀ i, i < srcLen →
      (dynHeader m dst b.lut srcLen).store32 (dst + Header.dynNMark) 0 (src + i) = m (src + i) := by
    intro i hi
    rw [Mem.store32_of_ne _ _ fun a ha => ?_, dynHeader_of_ne _ _ _ fun a ha => hap.header i a hi ha]
    rw [Ptr.add_add]
    exact hap.header i _ hi (by unfold Header.dynNMark Header.dynamicLen; omega)
  have hmf : (hist.hist.head?.map (·.symb)).getD 0 ∈ S := hS.head hpos
  obtain ⟨code, m', opp', he, hframe, -, hend, hres⟩ := encodeLoop_spec Header.dynNMark
    (fun m' ip hun => getMark_dynamic hB (fun i hi => by rw [hsrc i hi]; exact hS.mem i hi) hmf hun)
    (fun i a h1 h2 h3 => hap.body i a h1 h2 h3) (dstLen - Header.dynamicLen)
    ((dynHeader m dst b.lut srcLen).store32 (dst + Header.dynNMark) 0) Header.dynamicLen 0 0 (Nat.le_refl _) (by decide)
    (fun i _ _ => rfl)
  have henc : encodeDynamic b.etree dst (getHeaderLength (dynHeader m dst b.lut srcLen) dst) dstLen src srcLen
      ((hist.hist.head?.map (·.symb)).getD 0) (dynHeader m dst b.lut srcLen) = some (code, m', opp') := by
    rw [getHeaderLength_dynamic (dynHeader_mode _ _ _ _)]
    exact he
  have hwithin : Within dst dstLen m m' := by
    intro q hq
    rw [hframe q fun a ha => hq a ?_, Mem.store32_of_ne _ _ fun a ha => ?_,
      dynHeader_of_ne _ _ _ fun a ha => hq a (.inl ha)]
    · rw [Ptr.add_add]
      exact hq _ (.inl (by unfold Header.dynNMark Header.dynamicLen; omega))
    · rcases ha with ha | ⟨h1, h2, h3⟩
      · exact .inl (by unfold Header.dynNMark at ha; unfold Header.dynamicLen; omega)
      · have := hend h1
        exact .inr (by omega)
  rw [henc]
  rcases hres with ⟨rfl, -⟩ | ⟨rfl, marks, ip', hip', hE⟩
  · exact ⟨_, rfl, hwithin, fun h => by cases h⟩
  · refine ⟨_, rfl, hwithin, fun _ => ⟨hend (hE.lt (by omega)), by omega, by omega, marks, ?_⟩⟩
    refine (hE.dynStream (by omega) hcheck hip' hframe).congr fun i hi => ?_
    rw [if_pos hi, hsrc i hi]

/-! ## Predefined tables -/

/-- The symbols of the predefined tables are the indices themselves. -/
def predefSymbs : List UInt8 := (List.range tsNSymbPredef).map UInt8.ofNat

theorem mem_predefSymbs {i : Nat} (h : i < tsNSymbPredef) : UInt8.ofNat i ∈ predefSymbs :=
  List.mem_map.mpr ⟨i, List.mem_range.mpr h, rfl⟩

/-- Table `lambda` is one that `ts_build_lut` makes for the predefined symbols. -/
def TableBuilt (t : PredefTables F) (lambda : Nat) : Prop :=
  ∃ (b : Build F) (word : Nat → List UInt8), Built predefSymbs b word ∧ t.lut lambda = b.lut ∧ t.etree lambda = b.etree

theorem initPredefProbs_spec {lambda : Nat} {hist : Hist F} (h : initPredefProbs D tsNSymbPredef lambda = .ok hist) :
    hist.nSymb = predefSymbs.length ∧ (hist.hist.take hist.nSymb).map (·.symb) = predefSymbs := by
  unfold initPredefProbs at h
  simp only at h
  split at h
  · cases h
  · obtain rfl := Except.ok.inj h
    refine ⟨rfl, ?_⟩
    rw [List.take_of_length_le (by simp)]
    apply List.ext_getElem
    · simp [predefSymbs]
    · intro i h1 h2
      simp [predefSymbs]

theorem initPredefFrom_spec : ∀ (ls : List Nat) {t₀ t : PredefTables F},
    initPredefFrom D ls t₀ = some (.tsOk, t) → ∀ lambda, (lambda ∈ ls ∨ TableBuilt t₀ lambda) → TableBuilt t lambda := by
  intro ls
  induction ls with
  | nil =>
    intro t₀ t h lambda hl
    unfold initPredefFrom at h
    obtain rfl : { t₀ with initialized := 1 } = t := by simpa using h
    rcases hl with hl | hl
    · cases hl
    · exact hl
  | cons l ls ih =>
    intro t₀ t h lambda hl
    unfold initPredefFrom at h
    split at h
    · next e he =>
      -- the only error is not success
      have : e = .errNormalize := by
        unfold initPredefProbs at he
        simp only at he
        split at he
        · exact (Except.error.inj he).symm
        · cases he
      rw [this] at h
      simp at h
    · next hist hhist =>
      obtain ⟨hn, hs⟩ := initPredefProbs_spec hhist
      obtain ⟨b, word, hb, hB, hcheck⟩ := buildLut_spec (D := D) hist (S := predefSymbs) (by decide) (by decide) (by decide)
        hn hs
      simp only [hb, hcheck, ne_eq, not_true_eq_false, ↓reduceIte] at h
      refine ih h lambda ?_
      by_cases e : lambda = l
      · exact .inr ⟨b, word, hB, by simp [e], by simp [e]⟩
      · rcases hl with hl | ⟨b', word', hB', h1, h2⟩
        · exact .inl ((List.mem_cons.mp hl).resolve_left e)
        · exact .inr ⟨b', word', hB', by simpa [e] using h1, by simpa [e] using h2⟩

theorem tablesBuilt_of_init {t₀ t : PredefTables F} (h : tunstallInitAllPredefTables D t₀ = some (.tsOk, t)) {lambda : Nat}
    (hl : lambda < tsCountPredef) : TableBuilt t lambda :=
  initPredefFrom_spec _ h lambda (.inl (List.mem_range.mpr hl))

/-! ## Choosing a table -/

theorem findBestFrom_mem (t : PredefTables F) (hist : Hist F) : ∀ (ls : List Nat) (best : F) (l : Nat) {r : Nat},
    findBestFrom D t hist ls best l = .ok r → r ∈ ls ∨ r = l := by
  intro ls
  induction ls with
  | nil => intro best l r h; exact .inr (Except.ok.inj h).symm
  | cons x ls ih =>
    intro best l r h
    unfold findBestFrom at h
    simp only at h
    split at h
    · cases h
    split at h
    · rcases ih _ _ h with h | h
      · exact .inl (List.mem_cons_of_mem _ h)
      · exact .inl (h ▸ List.mem_cons_self)
    · rcases ih _ _ h with h | h
      · exact .inl (List.mem_cons_of_mem _ h)
      · exact .inr h

theorem findBest_lt {t : PredefTables F} {hist : Hist F} {r : Nat} (h : findBest D t hist = .ok r) : r < tsCountPredef := by
  rcases findBestFrom_mem t hist _ _ _ h with h | h
  · exact List.mem_range.mp h
  · rw [h]
    decide

theorem findBestFrom_error (t : PredefTables F) (hist : Hist F) : ∀ (ls : List Nat) (best : F) (l : Nat) {e : Code},
    findBestFrom D t hist ls best l = .error e → e = .errNormalize := by
  intro ls
  induction ls with
  | nil => intro best l e h; cases h
  | cons x ls ih =>
    intro best l e h
    unfold findBestFrom at h
    simp only at h
    split at h
    · exact (Except.error.inj h).symm
    split at h
    · exact ih _ _ h
    · exact ih _ _ h

/-- `ts_build_idx2symb_symb2idx`'s second table inverts the first. -/
theorem symb2idx_spec : ∀ (l : List UInt8) (k : Nat) (f : UInt8 → UInt8), l.Nodup →
    (∀ x, x ∉ l → (l.zipIdx k).foldl (fun f (symb, idx) => Function.update f symb (.ofNat idx)) f x = f x) ∧
    ∀ i, (h : i < l.length) →
      (l.zipIdx k).foldl (fun f (symb, idx) => Function.update f symb (.ofNat idx)) f l[i] = .ofNat (k + i) := by
  intro l
  induction l with
  | nil => intro k f _; exact ⟨fun x _ => rfl, fun i h => by simp at h⟩
  | cons a l ih =>
    intro k f hnd
    obtain ⟨ha, hl⟩ := List.nodup_cons.mp hnd
    obtain ⟨h1, h2⟩ := ih (k + 1) (Function.update f a (.ofNat k)) hl
    rw [List.zipIdx_cons, List.foldl_cons]
    refine ⟨fun x hx => ?_, fun i hi => ?_⟩
    · rw [h1 x fun h => hx (List.mem_cons_of_mem _ h)]
      have hne : x ≠ a := fun e => hx (e ▸ List.mem_cons_self)
      exact Function.update_of_ne hne _ _
    · cases i with
      | zero =>
        rw [List.getElem_cons_zero, h1 a ha, Function.update_self, Nat.add_zero]
      | succ i =>
        rw [List.getElem_cons_succ, h2 i (by simpa using hi)]
        congr 1
        omega

/-! ## The predefined-table stream -/

/-- The two tables of a histogram's symbols: a symbol's index leads back to it. -/
theorem buildIdx2symb_spec {S : List UInt8} {hist : Hist F} {m : Mem} {src : Ptr} {srcLen : Nat} (hS : HistOk S hist m src srcLen)
    (hn : hist.nSymb ≤ tsNSymbPredef) :
    ∃ symb2idx, buildIdx2symbSymb2idx tsNSymbPredef tsNSymb hist = .ok (S, symb2idx) ∧
      ∀ x ∈ S, symb2idx x ∈ predefSymbs ∧ S[(symb2idx x).toNat]? = some x := by
  have hlen : S.length ≤ tsNSymbPredef := by
    rw [← hS.nSymb]
    exact hn
  refine ⟨S.zipIdx.foldl (fun f (symb, idx) => Function.update f symb (.ofNat idx)) (fun _ => 0), ?_, fun x hx => ?_⟩
  · unfold buildIdx2symbSymb2idx
    rw [if_neg (by omega), if_neg (by omega), hS.symbs]
  · obtain ⟨i, hi, rfl⟩ := List.getElem_of_mem hx
    have hi' : (UInt8.ofNat i).toNat = i := by
      unfold tsNSymbPredef at hlen
      simp
      omega
    rw [(symb2idx_spec S 0 (fun _ => 0) hS.nodup).2 i hi, Nat.zero_add, hi']
    exact ⟨mem_predefSymbs (by omega), List.getElem?_eq_getElem hi⟩

/-- The buffer at `dst` starts with a stream of `len` bytes over predefined table `lambda`: the
    marks spell the indices `idx`, which the header maps to the symbols of `s`. -/
structure PredefStream (t : PredefTables F) (m : Mem) (dst : Ptr) (s : Nat → UInt8) (n len lambda : Nat)
    (idx : Nat → UInt8) (marks : List Nat) : Prop where
  lambda_lt : lambda < tsCountPredef
  mode : m dst = .ofNat (tsModePredefStart + lambda)
  nMark : marks.length < 2 ^ 32 → m.load32 (dst + Header.preNMark) = marks.length
  srcLen : m.load32 (dst + Header.preSrcLen) = n
  spelled : Marks m (dst + getHeaderLength m dst) (fun k => (t.lut lambda k).word) idx n marks
  symb : ∀ i, i < n → Header.preIdx2symb + (idx i).toNat < getHeaderLength m dst ∧
    m (dst + Header.preIdx2symb + (idx i).toNat) = s i
  len : len = getHeaderLength m dst + marks.length

/-- The header as `TunstallCompressPredef` writes it before the marks. -/
abbrev preHeader (m : Mem) (dst : Ptr) (lambda nSymb srcLen : Nat) (idx2symb : List UInt8) : Mem :=
  (((m.store dst (.ofNat (tsModePredefStart + lambda))).store (dst + Header.preNSymb) (.ofNat nSymb)).store32
    (dst + Header.preSrcLen) srcLen).storeBytes (dst + Header.preIdx2symb) idx2symb

section

variable {m : Mem} {dst : Ptr} {lambda nSymb srcLen : Nat} {idx2symb : List UInt8}

theorem preHeader_of_ne {q : Ptr} (hlen : idx2symb.length ≤ tsNSymbPredef)
    (h : ∀ a, a < Header.dynamicLen → q ≠ dst + a) : preHeader m dst lambda nSymb srcLen idx2symb q = m q := by
  have h0 : q ≠ dst := by
    have := h 0 (by decide)
    rwa [Ptr.add_zero] at this
  unfold tsNSymbPredef at hlen
  unfold Header.dynamicLen at h
  rw [preHeader, Mem.storeBytes_of_ne _ _ fun a ha => ?_, Mem.store32_of_ne _ _ fun a ha => ?_, Mem.store,
    Function.update_of_ne (h _ (by decide)), Mem.store, Function.update_of_ne h0]
  · rw [Ptr.add_add]
    exact h _ (by unfold Header.preSrcLen; omega)
  · rw [Ptr.add_add]
    exact h _ (by unfold Header.preIdx2symb; omega)

theorem preHeader_mode : preHeader m dst lambda nSymb srcLen idx2symb dst = .ofNat (tsModePredefStart + lambda) := by
  have h1 := Mem.storeBytes_of_out (((m.store dst (.ofNat (tsModePredefStart + lambda))).store (dst + Header.preNSymb)
    (.ofNat nSymb)).store32 (dst + Header.preSrcLen) srcLen) dst idx2symb 0 Header.preIdx2symb (.inl (by decide))
  have h2 := Mem.store32_of_out ((m.store dst (.ofNat (tsModePredefStart + lambda))).store (dst + Header.preNSymb)
    (.ofNat nSymb)) dst 0 Header.preSrcLen srcLen (by decide)
  have h3 := Mem.store_add (m.store dst (.ofNat (tsModePredefStart + lambda))) dst 0 Header.preNSymb (.ofNat nSymb)
  rw [Ptr.add_zero] at h1 h2 h3
  rw [preHeader, h1, h2, h3, if_neg (by decide), Mem.store, Function.update_self]

theorem preHeader_nSymb :
    preHeader m dst lambda nSymb srcLen idx2symb (dst + Header.preNSymb) = .ofNat nSymb := by
  rw [preHeader, Mem.storeBytes_of_out _ _ _ _ _ (.inl (by decide)), Mem.store32_of_out _ _ _ _ _ (by decide), Mem.store_add,
    if_pos rfl]

theorem preHeader_srcLen (hlen : srcLen < 2 ^ 32) :
    (preHeader m dst lambda nSymb srcLen idx2symb).load32 (dst + Header.preSrcLen) = srcLen := by
  have h : (preHeader m dst lambda nSymb srcLen idx2symb).load32 (dst + Header.preSrcLen) =
      (((m.store dst (.ofNat (tsModePredefStart + lambda))).store (dst + Header.preNSymb) (.ofNat nSymb)).store32
        (dst + Header.preSrcLen) srcLen).load32 (dst + Header.preSrcLen) := by
    refine Mem.load32_of_eq fun a ha => ?_
    rw [Ptr.add_add, preHeader, Mem.storeBytes_of_out _ _ _ _ _ (by unfold Header.preSrcLen Header.preIdx2symb; omega)]
  rw [h, Mem.load32_store32 _ _ _ hlen]

theorem preHeader_idx2symb {i : Nat} (h : i < idx2symb.length) :
    preHeader m dst lambda nSymb srcLen idx2symb (dst + (Header.preIdx2symb + i)) = idx2symb[i] := by
  rw [preHeader, Mem.storeBytes_of_in _ _ _ _ _ (by omega) (by omega), Nat.add_sub_cancel_left,
    List.getElem?_eq_getElem h]
  rfl

theorem getHeaderLength_predef (hl : lambda < tsCountPredef) (hn : nSymb < 256)
    (hm : m dst = .ofNat (tsModePredefStart + lambda)) (hs : m (dst + Header.preNSymb) = .ofNat nSymb) :
    getHeaderLength m dst = Header.preIdx2symb + nSymb := by
  have hmode : (UInt8.ofNat (tsModePredefStart + lambda)).toNat = tsModePredefStart + lambda := by
    unfold tsModePredefStart
    unfold tsCountPredef at hl
    simp
    omega
  have hne : ∀ x : UInt8, x.toNat < 2 → UInt8.ofNat (tsModePredefStart + lambda) ≠ x := by
    intro x hx e
    subst e
    rw [hmode] at hx
    unfold tsModePredefStart at hx
    omega
  unfold getHeaderLength
  rw [hm, hs]
  simp only
  rw [if_neg (hne _ (by decide)), if_neg (hne _ (by decide)), hmode, if_pos]
  · simp
    omega
  · unfold tsModePredefStart tsModePredefEnd
    unfold tsCountPredef at hl
    omega

end

/-- The walks of `ts_encode_predef` over a built table. -/
theorem getMark_predef {b : Build F} {word : Nat → List UInt8} (hB : Built predefSymbs b word) {m₀ : Mem} {src : Ptr}
    {srcLen : Nat} {symb2idx : UInt8 → UInt8} (hin : ∀ i, i < srcLen → symb2idx (m₀ (src + i)) ∈ predefSymbs)
    {m : Mem} {ip : Nat} (hun : Unread m₀ m src srcLen ip) :
    ∃ mark ip', getMarkByInputStreamSymb2idx b.etree symb2idx src srcLen m ip = some (mark, ip') ∧
      Spells b.lut (fun i => if i < srcLen then symb2idx (m₀ (src + i)) else 0) mark ip ip' := by
  have hs : ∀ i, (fun i => if i < srcLen then symb2idx (m₀ (src + i)) else 0) i ∈ predefSymbs := by
    intro i
    simp only
    split
    · next h => exact hin i h
    · decide
  obtain ⟨mark, ip', he, h⟩ := walkMark_spec hB hs ip
  refine ⟨mark, ip', ?_, h⟩
  rw [← he]
  refine walkMark_congr _ _ _ fun i hi => ?_
  by_cases hlt : i < srcLen
  · rw [if_pos hlt, if_pos hlt, hun i hi hlt]
  · rw [if_neg hlt, if_neg hlt]

/-- The loop's marks after the header make a stream. -/
theorem Encoded.predefStream {t : PredefTables F} {m m' : Mem} {dst : Ptr} {s idx : Nat → UInt8}
    {lambda nSymb srcLen opp' ip' : Nat} {idx2symb : List UInt8} {marks : List Nat} (hlen : srcLen < 2 ^ 32)
    (hl : lambda < tsCountPredef) (hn : idx2symb.length = nSymb) (hn' : nSymb ≤ tsNSymbPredef)
    (hidx : ∀ i, i < srcLen → idx2symb[(idx i).toNat]? = some (s i))
    (h : Encoded (t.lut lambda) idx dst Header.preNMark
      ((preHeader m dst lambda nSymb srcLen idx2symb).store32 (dst + Header.preNMark) 0) m'
      (Header.preIdx2symb + nSymb) opp' 0 ip' 0 marks) (hip : srcLen ≤ ip')
    (hframe : EncodeFrame dst Header.preNMark (Header.preIdx2symb + nSymb) opp'
      ((preHeader m dst lambda nSymb srcLen idx2symb).store32 (dst + Header.preNMark) 0) m') :
    PredefStream t m' dst s srcLen opp' lambda idx marks := by
  have hfix : ∀ a, a < Header.preIdx2symb + nSymb → ¬ (Header.preNMark ≤ a ∧ a < Header.preNMark + 4) →
      m' (dst + a) = preHeader m dst lambda nSymb srcLen idx2symb (dst + a) := by
    intro a h1 h2
    rw [hframe _ fun a' ha' => ?_, Mem.store32_of_out _ dst a Header.preNMark _ (by omega)]
    rw [Ne, Ptr.add_inj]
    omega
  have hmode : m' dst = .ofNat (tsModePredefStart + lambda) := by
    have h := hfix 0 (by unfold Header.preIdx2symb; omega) (by decide)
    rw [Ptr.add_zero] at h
    rw [h, preHeader_mode]
  have hhdr : getHeaderLength m' dst = Header.preIdx2symb + nSymb := by
    refine getHeaderLength_predef hl (by unfold tsNSymbPredef at hn'; omega) hmode ?_
    rw [hfix _ (by unfold Header.preIdx2symb Header.preNSymb; omega) (by decide), preHeader_nSymb]
  refine ⟨hl, hmode, fun hlt => ?_, ?_, ⟨h.even, fun j hj => ?_, h.small, h.take_words hip⟩, fun i hi => ?_,
    by rw [hhdr]; exact h.len⟩
  · have := h.count (Mem.load32_store32 _ _ _ (by omega)) (by omega)
    rwa [Nat.zero_add] at this
  · have h : m'.load32 (dst + Header.preSrcLen) =
        (preHeader m dst lambda nSymb srcLen idx2symb).load32 (dst + Header.preSrcLen) := by
      refine Mem.load32_of_eq fun a ha => ?_
      rw [Ptr.add_add]
      exact hfix _ (by unfold Header.preSrcLen Header.preIdx2symb; omega) (by unfold Header.preSrcLen Header.preNMark; omega)
    rw [h, preHeader_srcLen hlen]
  · rw [hhdr, Ptr.add_add]
    exact h.bytes j hj
  · obtain ⟨hlt, he⟩ := List.getElem?_eq_some_iff.mp (hidx i hi)
    refine ⟨by rw [hhdr]; omega, ?_⟩
    rw [Ptr.add_add, hfix _ (by omega) (by unfold Header.preIdx2symb Header.preNMark; omega), preHeader_idx2symb hlt, he]

theorem compressPredef_spec {m : Mem} {dst src : Ptr} {dstLen srcLen : Nat} {predefLuts : Option (PredefTables F)}
    (hap : Apart dst src dstLen srcLen)
    (hT : ∀ t, allPredefLutsAvailable predefLuts = some t → ∀ lambda, lambda < tsCountPredef → TableBuilt t lambda) :
    ∃ out, tunstallCompressPredef D m dst dstLen src srcLen predefLuts = some out ∧ Within dst dstLen m out.mem ∧
      (out.code = .tsOk → out.dstLen < dstLen ∧ 0 < srcLen ∧ srcLen < 2 ^ 32 ∧
        ∃ t lambda idx marks, allPredefLutsAvailable predefLuts = some t ∧
          PredefStream t out.mem dst (fun i => m (src + i)) srcLen out.dstLen lambda idx marks) := by
  unfold tunstallCompressPredef
  cases ht : allPredefLutsAvailable predefLuts with
  | none => exact ⟨_, rfl, fun q _ => rfl, fun h => by cases h⟩
  | some t =>
  simp only
  by_cases hcap : dstLen < tsLutBytes
  · exact ⟨_, if_pos hcap, fun q _ => rfl, fun h => by cases h⟩
  rw [if_neg hcap]
  by_cases hlen : srcLen = 0 ∨ srcLen > 0xFFFFFFFF
  · exact ⟨_, if_pos hlen, fun q _ => rfl, fun h => by cases h⟩
  rw [if_neg hlen]
  cases hh : getHistFromArray D m src srcLen with
  | error e =>
    refine ⟨_, rfl, fun q _ => rfl, fun h => ?_⟩
    rw [show e = .tsOk from h] at hh
    exact absurd (getHistFromArray_error hh) (by decide)
  | ok hist =>
  obtain ⟨S, hS⟩ := histogram_spec hh
  simp only
  by_cases hmany : hist.nSymb > tsNSymbPredef
  · exact ⟨_, if_pos hmany, fun q _ => rfl, fun h => by cases h⟩
  rw [if_neg hmany]
  cases hbest : findBest D t hist with
  | error e =>
    refine ⟨_, rfl, fun q _ => rfl, fun h => ?_⟩
    rw [show e = .tsOk from h] at hbest
    exact absurd (findBestFrom_error t hist _ _ _ hbest) (by decide)
  | ok lambda =>
  have hl := findBest_lt hbest
  obtain ⟨b, word, hB, hlut, htree⟩ := hT t ht lambda hl
  have hn : S.length ≤ tsNSymbPredef := by
    rw [← hS.nSymb]
    omega
  obtain ⟨symb2idx, htab, hidx⟩ := buildIdx2symb_spec hS (by omega)
  simp only [htab]
  have hsrc : ∀ i, i < srcLen →
      (preHeader m dst lambda hist.nSymb srcLen S).store32 (dst + Header.preNMark) 0 (src + i) = m (src + i) := by
    intro i hi
    rw [Mem.store32_of_ne _ _ fun a ha => ?_, preHeader_of_ne hn fun a ha => hap.header i a hi ha]
    rw [Ptr.add_add]
    exact hap.header i _ hi (by unfold Header.preNMark Header.dynamicLen; omega)
  obtain ⟨code, m', opp', he, hframe, -, hend, hres⟩ := encodeLoop_spec Header.preNMark
    (fun m' ip hun => getMark_predef hB
      (fun i hi => by rw [hsrc i hi]; exact (hidx _ (hS.mem i hi)).1) hun)
    (fun i a h1 h2 h3 => hap.body i a h1 h2 h3) (dstLen - (Header.preIdx2symb + hist.nSymb))
    ((preHeader m dst lambda hist.nSymb srcLen S).store32 (dst + Header.preNMark) 0) (Header.preIdx2symb + hist.nSymb) 0 0
    (Nat.le_refl _)
    (by unfold Header.preNMark Header.preIdx2symb; omega) (fun i _ _ => rfl)
  have henc : encodePredef (t.etree lambda) symb2idx dst
      (getHeaderLength (preHeader m dst lambda hist.nSymb srcLen S) dst) dstLen src srcLen
      (preHeader m dst lambda hist.nSymb srcLen S) = some (code, m', opp') := by
    rw [getHeaderLength_predef hl (by unfold tsNSymbPredef at hmany; omega) preHeader_mode preHeader_nSymb, htree]
    exact he
  have hwithin : Within dst dstLen m m' := by
    intro q hq
    rw [hframe q fun a ha => hq a ?_, Mem.store32_of_ne _ _ fun a ha => ?_,
      preHeader_of_ne hn fun a ha => hq a (.inl ha)]
    · rw [Ptr.add_add]
      exact hq _ (.inl (by unfold Header.preNMark Header.dynamicLen; omega))
    · rcases ha with ha | ⟨h1, h2, h3⟩
      · exact .inl (by unfold Header.preNMark at ha; unfold Header.dynamicLen; omega)
      · have := hend h1
        exact .inr (by omega)
  rw [henc]
  rcases hres with ⟨rfl, -⟩ | ⟨rfl, marks, ip', hip', hE⟩
  · exact ⟨_, rfl, hwithin, fun h => by cases h⟩
  · rw [← hlut] at hE
    have hstream := hE.predefStream (s := fun i => m (src + i)) (by omega) hl hS.nSymb.symm (by omega) (fun i hi => by
      rw [if_pos hi, hsrc i hi]
      exact (hidx _ (hS.mem i hi)).2) hip' hframe
    exact ⟨_, rfl, hwithin, fun _ => ⟨hend (hE.lt (by omega)), by omega, by omega, t, lambda, _, marks, rfl, hstream⟩⟩

end UnifiedCache.Compress
