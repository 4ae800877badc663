/-
  UnifiedCache.Compress.RoundTrip — `TunstallDecompress` inverts `TunstallCompress`
  (see `UnifiedCache.Compress.Tunstall`).

  Proved (`tunstall_round_trip`): whatever mode was chosen, a successful compression gives a
  buffer from which decompression, in any memory that holds those bytes, rebuilds the source
  and its length, with the predefined tables converted by item or the data converted
  afterwards. The mark loop writes whole items, so that each item's last bytes are overwritten
  by the next one (`decodeLoop_spec`).
-/

import UnifiedCache.Compress.OneSymbol

namespace UnifiedCache.Compress

open UnifiedCache.Base

variable {F : Type} {D : FloatOps F}

/-! ## The mark loop -/

/-- The words of items stored in turn. -/
theorem storeBytes_word (m : Mem) (p : Ptr) (it : LutItem) (out a : Nat) (hc : it.word.length ≤ tsItemSize) :
    (a < out → m.storeBytes (p + out) it.bytes (p + a) = m (p + a)) ∧
      (a < it.word.length → some (m.storeBytes (p + out) it.bytes (p + (out + a))) = it.word[a]?) := by
  constructor
  · intro h
    exact Mem.storeBytes_of_out m p _ a out (.inl h)
  · intro h
    rw [length_word] at h hc
    unfold tsItemSize at hc
    have hlen : it.bytes.length = 8 := by simp [LutItem.bytes, tsItemSize]
    rw [Mem.storeBytes_of_in m p _ _ out (by omega) (by omega), Nat.add_sub_cancel_left, bytes_getElem? it (by omega),
      if_pos (by omega)]
    simp [LutItem.word, h]

/-- A pair of marks read as a 32-bit word. -/
theorem load32_marks (m : Mem) (p : Ptr) {mark1 mark2 : Nat} (h1 : mark1 < 256) (h2 : mark2 < 256)
    (hb1 : m p = .ofNat mark1) (hb2 : m (p + 1) = .ofNat mark2) :
    m.load32 p % 256 = mark1 ∧ (m.load32 p / 256) % 256 = mark2 := by
  have e1 : (m p).toNat = mark1 := by rw [hb1]; simp; omega
  have e2 : (m (p + 1)).toNat = mark2 := by rw [hb2]; simp; omega
  unfold Mem.load32
  rw [e1, e2]
  omega

theorem decodeLoop_spec (lutOf : Mem → Lut) (dst src : Ptr) {m₀ : Mem} {word : Nat → List UInt8} {marks : List Nat}
    (hblk : src.blk ≠ dst.blk) (heven : marks.length % 2 = 0)
    (hbytes : ∀ j, j < marks.length → some (m₀ (src + j)) = (marks[j]?).map UInt8.ofNat)
    (hlut : ∀ m, (∀ q, q.blk ≠ dst.blk → m q = m₀ q) → ∀ k ∈ marks, (lutOf m k).word = word k)
    (hsmall : ∀ k ∈ marks, k < tsLutSize ∧ (word k).length ≤ tsItemSize) :
    ∀ (j i : Nat) (m : Mem) (out : Nat), marks.length - i = j → i % 2 = 0 → (∀ q, q.blk ≠ dst.blk → m q = m₀ q) →
      ∃ m' out', decodeLoop lutOf dst src marks.length i out m = (m', out') ∧
        (∀ q, q.blk ≠ dst.blk → m' q = m₀ q) ∧ out' = out + ((marks.drop i).flatMap word).length ∧
        (∀ a, a < out → m' (dst + a) = m (dst + a)) ∧
        ∀ a, a < ((marks.drop i).flatMap word).length → some (m' (dst + (out + a))) = ((marks.drop i).flatMap word)[a]? := by
  intro j
  induction j using Nat.strongRecOn with
  | ind j ih =>
  intro i m out hj hi hm
  unfold decodeLoop
  by_cases hlt : i < marks.length
  · have hlt' : i + 1 < marks.length := by omega
    rw [if_pos hlt]
    simp only
    obtain ⟨hk₁, hw₁⟩ := hsmall marks[i] (List.getElem_mem hlt)
    obtain ⟨hk₂, hw₂⟩ := hsmall marks[i + 1] (List.getElem_mem hlt')
    have hsrc : ∀ a : Nat, m (src + a) = m₀ (src + a) := fun a => hm _ hblk
    have hb₁ : m (src + i) = .ofNat marks[i] := by
      have := hbytes i hlt
      rw [List.getElem?_eq_getElem hlt] at this
      rw [hsrc]
      exact Option.some.inj this
    have hb₂ : m (src + i + 1) = .ofNat marks[i + 1] := by
      have := hbytes (i + 1) hlt'
      rw [List.getElem?_eq_getElem hlt'] at this
      rw [Ptr.add_add, hsrc]
      exact Option.some.inj this
    obtain ⟨e₁, e₂⟩ := load32_marks m (src + i) hk₁ hk₂ hb₁ hb₂
    rw [e₁, e₂]
    have hit₁ : (lutOf m marks[i]).word = word marks[i] := hlut m hm _ (List.getElem_mem hlt)
    generalize hmid : m.storeBytes (dst + out) (lutOf m marks[i]).bytes = mid
    have hmid' : ∀ q, q.blk ≠ dst.blk → mid q = m₀ q := by
      intro q hq
      rw [← hmid, Mem.storeBytes_of_blk _ _ (by simpa using hq), hm q hq]
    have hit₂ : (lutOf mid marks[i + 1]).word = word marks[i + 1] := hlut mid hmid' _ (List.getElem_mem hlt')
    have hc₁ : (lutOf m marks[i]).c.toNat = (word marks[i]).length := by rw [← hit₁, length_word]
    have hc₂ : (lutOf mid marks[i + 1]).c.toNat = (word marks[i + 1]).length := by rw [← hit₂, length_word]
    rw [hc₁, hc₂]
    generalize hend : mid.storeBytes (dst + (out + (word marks[i]).length)) (lutOf mid marks[i + 1]).bytes = m₂
    have hm₂ : ∀ q, q.blk ≠ dst.blk → m₂ q = m₀ q := by
      intro q hq
      rw [← hend, Mem.storeBytes_of_blk _ _ (by simpa using hq), hmid' q hq]
    obtain ⟨m', out', he, h1, h2, h3, h4⟩ := ih (marks.length - (i + 2)) (by omega) (i + 2) m₂
      (out + (word marks[i]).length + (word marks[i + 1]).length) rfl (by omega) hm₂
    have hdrop : (marks.drop i).flatMap word = word marks[i] ++ (word marks[i + 1] ++ (marks.drop (i + 2)).flatMap word) := by
      rw [List.drop_eq_getElem_cons hlt, List.drop_eq_getElem_cons hlt', List.flatMap_cons, List.flatMap_cons]
    have hs₁ := fun a => storeBytes_word m dst (lutOf m marks[i]) out a (by rw [hit₁]; exact hw₁)
    have hs₂ := fun a => storeBytes_word mid dst (lutOf mid marks[i + 1]) (out + (word marks[i]).length) a
      (by rw [hit₂]; exact hw₂)
    rw [hmid, hit₁] at hs₁
    rw [hend, hit₂] at hs₂
    refine ⟨m', out', he, h1, ?_, fun a ha => ?_, fun a ha => ?_⟩
    · rw [h2, hdrop, List.length_append, List.length_append]
      omega
    · rw [h3 a (by omega), (hs₂ a).1 (by omega), (hs₁ a).1 ha]
    · rw [hdrop]
      by_cases ha₁ : a < (word marks[i]).length
      · rw [List.getElem?_append_left ha₁, h3 _ (by omega), (hs₂ _).1 (by omega)]
        exact (hs₁ a).2 ha₁
      · rw [List.getElem?_append_right (by omega)]
        by_cases ha₂ : a - (word marks[i]).length < (word marks[i + 1]).length
        · rw [List.getElem?_append_left ha₂, h3 _ (by omega), ← (hs₂ _).2 ha₂]
          congr 3
          omega
        · rw [List.getElem?_append_right (by omega), ← h4 _ (by rw [hdrop] at ha; simp only [List.length_append] at ha; omega)]
          congr 3
          omega
  · rw [if_neg hlt]
    have hnil : marks.drop i = [] := List.drop_eq_nil_of_le (by omega)
    refine ⟨m, out, rfl, hm, by simp [hnil], fun a _ => rfl, fun a ha => by simp [hnil] at ha⟩

/-! ## A stream depends on its own bytes only -/

theorem loadLut_word_congr {m m' : Mem} {p p' : Ptr} {k : Nat} (hk : k < tsLutSize)
    (h : ∀ a, a < tsLutBytes → m' (p' + a) = m (p + a)) : (loadLut m' p' k).c = (loadLut m p k).c ∧
      ((loadLut m p k).word.length ≤ tsItemSize → (loadLut m' p' k).word = (loadLut m p k).word) := by
  unfold tsLutSize at hk
  unfold tsLutBytes at h
  have hc : (loadLut m' p' k).c = (loadLut m p k).c := h (8 * k + 7) (by omega)
  refine ⟨hc, fun hlen => ?_⟩
  rw [length_word] at hlen
  unfold LutItem.word
  rw [hc]
  refine List.map_congr_left fun i hi => ?_
  have := List.mem_range.mp hi
  unfold tsItemSize at hlen
  exact h (8 * k + i) (by omega)

theorem Marks.congr {m m' : Mem} {p p' : Ptr} {word word' : Nat → List UInt8} {s : Nat → UInt8} {n : Nat}
    {marks : List Nat} (h : Marks m p word s n marks) (hm : ∀ j, j < marks.length → m' (p' + j) = m (p + j))
    (hw : ∀ k ∈ marks, word' k = word k) : Marks m' p' word' s n marks := by
  refine ⟨h.even, fun j hj => by rw [hm j hj]; exact h.bytes j hj, fun k hk => by rw [hw k hk]; exact h.small k hk, ?_⟩
  rw [List.flatMap_congr hw]
  exact h.words

section Move

variable {m m' : Mem} {p p' : Ptr} {s : Nat → UInt8} {n len : Nat} {marks : List Nat}

theorem load32_move {k l : Nat} (hb : ∀ a, a < l → m' (p' + a) = m (p + a)) (hk : k + 4 ≤ l) :
    m'.load32 (p' + k) = m.load32 (p + k) := by
  have h : ∀ a, a < 4 → m' (p' + k + a) = m (p + k + a) := by
    intro a ha
    rw [Ptr.add_add, Ptr.add_add, hb _ (by omega)]
  have h0 := h 0 (by omega)
  rw [Ptr.add_zero, Ptr.add_zero] at h0
  unfold Mem.load32
  rw [h0, h 1 (by omega), h 2 (by omega), h 3 (by omega)]

theorem DynStream.move (h : DynStream m p s n len marks) (hb : ∀ a, a < len → m' (p' + a) = m (p + a)) :
    DynStream m' p' s n len marks := by
  have hlen := h.len
  unfold Header.dynamicLen at hlen
  have hlut : ∀ a, a < tsLutBytes → m' (p' + Header.dynLut + a) = m (p + Header.dynLut + a) := by
    intro a ha
    unfold tsLutBytes at ha
    rw [Ptr.add_add, Ptr.add_add, hb _ (by unfold Header.dynLut; omega)]
  refine ⟨?_, fun hlt => ?_, ?_, ?_, h.spelled.congr (fun j hj => ?_) fun k hk => ?_, h.len⟩
  · have := hb 0 (by omega)
    rw [Ptr.add_zero, Ptr.add_zero] at this
    rw [this, h.mode]
  · rw [load32_move hb (by unfold Header.dynNMark; omega), h.nMark hlt]
  · rw [load32_move hb (by unfold Header.dynSrcLen; omega), h.srcLen]
  · rw [checkLut_congr fun k hk => (loadLut_word_congr hk hlut).1, h.lut]
  · rw [Ptr.add_add, Ptr.add_add, hb _ (by unfold Header.dynamicLen; omega)]
  · obtain ⟨h1, h2, -⟩ := h.spelled.small k hk
    exact (loadLut_word_congr h1 hlut).2 h2

theorem PredefStream.header {t : PredefTables F} {lambda : Nat} {idx : Nat → UInt8}
    (h : PredefStream t m p s n len lambda idx marks) :
    getHeaderLength m p = Header.preIdx2symb + (m (p + Header.preNSymb)).toNat :=
  getHeaderLength_predef h.lambda_lt (UInt8.toNat_lt _) h.mode (by simp)

theorem PredefStream.move {t : PredefTables F} {lambda : Nat} {idx : Nat → UInt8}
    (h : PredefStream t m p s n len lambda idx marks) (hb : ∀ a, a < len → m' (p' + a) = m (p + a)) :
    PredefStream t m' p' s n len lambda idx marks := by
  have hlen := h.len
  have hhdr := h.header
  have h10 : Header.preIdx2symb = 10 := rfl
  have hmode : m' p' = m p := by
    have := hb 0 (by omega)
    rwa [Ptr.add_zero, Ptr.add_zero] at this
  have hhdr' : getHeaderLength m' p' = getHeaderLength m p := by
    rw [hhdr]
    refine getHeaderLength_predef h.lambda_lt (UInt8.toNat_lt _) (by rw [hmode, h.mode]) ?_
    rw [hb _ (by unfold Header.preNSymb; omega)]
    simp
  refine ⟨h.lambda_lt, by rw [hmode, h.mode], fun hlt => ?_, ?_, ?_, fun i hi => ?_, by rw [hhdr']; exact h.len⟩
  · rw [load32_move hb (by unfold Header.preNMark; omega), h.nMark hlt]
  · rw [load32_move hb (by unfold Header.preSrcLen; omega), h.srcLen]
  · rw [hhdr']
    refine h.spelled.congr (fun j hj => ?_) fun k _ => rfl
    rw [Ptr.add_add, Ptr.add_add, hb _ (by omega)]
  · obtain ⟨h1, h2⟩ := h.symb i hi
    rw [Ptr.add_add] at h2
    exact ⟨by rw [hhdr']; exact h1, by rw [Ptr.add_add, hb _ (by omega), h2]⟩

end Move

/-! ## Decompressing a stream -/

theorem chunk_of_take {l : List UInt8} {s : Nat → UInt8} {n : Nat} (h : l.take n = chunk s 0 n) :
    n ≤ l.length ∧ ∀ i, i < n → l[i]? = some (s i) := by
  have hlen : n ≤ l.length := by
    have := congrArg List.length h
    rw [List.length_take, length_chunk] at this
    omega
  refine ⟨hlen, fun i hi => ?_⟩
  have hi' : (l.take n)[i]? = l[i]? := List.getElem?_take_of_lt hi
  rw [← hi', h, getElem?_chunk s (by omega), Nat.zero_add]

/-- What decompression leaves. -/
def Rebuilt (r : Out) (dst : Ptr) (s : Nat → UInt8) (n : Nat) : Prop :=
  r.code = .tsOk ∧ r.dstLen = n ∧ ∀ i, i < n → r.mem (dst + i) = s i

section Decompress

variable {m : Mem} {dst src : Ptr} {s : Nat → UInt8} {n len : Nat} {marks : List Nat} (dstLen : Nat) (doIdx2symb : Bool)
  (predefLuts : Option (PredefTables F))

theorem decompress_dynamic (hblk : src.blk ≠ dst.blk) (h : DynStream m src s n len marks) (hlt : marks.length < 2 ^ 32) :
    Rebuilt (tunstallDecompress m dst src dstLen doIdx2symb predefLuts) dst s n := by
  have hlut : ∀ m', (∀ q, q.blk ≠ dst.blk → m' q = m q) → ∀ k ∈ marks,
      (loadLut m' (src + Header.dynLut) k).word = (loadLut m (src + Header.dynLut) k).word := by
    intro m' hm' k hk
    obtain ⟨h1, h2, -⟩ := h.spelled.small k hk
    exact (loadLut_word_congr (p := src + Header.dynLut) h1 fun a _ => hm' (src + Header.dynLut + a) hblk).2 h2
  obtain ⟨m', out', he, -, hout, -, hbytes⟩ := decodeLoop_spec (fun m => loadLut m (src + Header.dynLut))
    dst (src + Header.dynamicLen) hblk h.spelled.even h.spelled.bytes hlut
    (fun k hk => ⟨(h.spelled.small k hk).1, (h.spelled.small k hk).2.1⟩) marks.length 0 m 0 rfl rfl
    (fun q _ => rfl)
  rw [List.drop_zero] at hout hbytes
  obtain ⟨hle, hget⟩ := chunk_of_take h.spelled.words
  unfold tunstallDecompress
  simp only [h.mode, show tsModeDynamic ≠ tsModeUncompress by decide, ↓reduceIte, h.lut, ne_eq, not_true_eq_false,
    h.nMark hlt, h.srcLen, getHeaderLength_dynamic h.mode, he]
  rw [if_neg (by omega)]
  refine ⟨rfl, rfl, fun i hi => ?_⟩
  have := hbytes i (by omega)
  rw [hget i hi, Nat.zero_add] at this
  exact Option.some.inj this

theorem cvtDataIdx2symb_spec (idx2symb data : Ptr) (hblk : idx2symb.blk ≠ data.blk) : ∀ (j i : Nat) {m : Mem},
    n - i = j → (∀ a, a < i → cvtDataIdx2symb idx2symb data n i m (data + a) = m (data + a)) ∧
      ∀ a, i ≤ a → a < n → cvtDataIdx2symb idx2symb data n i m (data + a) = m (idx2symb + (m (data + a)).toNat) := by
  intro j
  induction j with
  | zero =>
    intro i m hj
    unfold cvtDataIdx2symb
    rw [if_neg (by omega)]
    exact ⟨fun a _ => rfl, fun a h1 h2 => by omega⟩
  | succ j ih =>
    intro i m hj
    unfold cvtDataIdx2symb
    rw [if_pos (by omega)]
    obtain ⟨h1, h2⟩ := ih (i + 1) (m := m.store (data + i) (m (idx2symb + (m (data + i)).toNat))) (by omega)
    have hidx : ∀ x : Nat, m.store (data + i) (m (idx2symb + (m (data + i)).toNat)) (idx2symb + x) = m (idx2symb + x) :=
      fun x => Mem.store_of_blk _ _ hblk
    refine ⟨fun a ha => ?_, fun a hle hlt => ?_⟩
    · rw [h1 a (by omega), Mem.store_add, if_neg (by omega)]
    · by_cases e : a = i
      · subst e
        rw [h1 a (by omega), Mem.store_add, if_pos rfl]
      · rw [h2 a (by omega) hlt, hidx, Mem.store_add, if_neg e]

theorem decompress_predef {t : PredefTables F} {lambda : Nat} {idx : Nat → UInt8} (hblk : src.blk ≠ dst.blk)
    (ht : allPredefLutsAvailable predefLuts = some t) (h : PredefStream t m src s n len lambda idx marks)
    (hlt : marks.length < 2 ^ 32) :
    Rebuilt (tunstallDecompress m dst src dstLen doIdx2symb predefLuts) dst s n := by
  have hl := h.lambda_lt
  have hmode : (m src).toNat = tsModePredefStart + lambda := by
    rw [h.mode]
    unfold tsModePredefStart
    unfold tsCountPredef at hl
    simp
    omega
  have hne : ∀ x : UInt8, x.toNat < 2 → m src ≠ x := by
    intro x hx e
    subst e
    rw [hmode] at hx
    unfold tsModePredefStart at hx
    omega
  have hrange : tsModePredefStart ≤ (m src).toNat ∧ (m src).toNat < tsModePredefEnd := by
    rw [hmode]
    unfold tsModePredefStart tsModePredefEnd
    unfold tsCountPredef at hl
    omega
  have hlam : (m src).toNat - tsModePredefStart = lambda := by
    rw [hmode]
    omega
  obtain ⟨hle, hget⟩ := chunk_of_take h.spelled.words
  unfold tunstallDecompress
  simp only [hne tsModeUncompress (by decide), hne tsModeDynamic (by decide), hrange, and_self, ↓reduceIte, ht, hlam,
    h.nMark hlt, h.srcLen]
  cases doIdx2symb with
  | true =>
    -- the table's items are converted, so the words are
    have hword : ∀ k, (cvtLutIdx2symb (t.lut lambda) m (src + Header.preIdx2symb) k).word =
        (t.lut lambda k).word.map fun v => m (src + Header.preIdx2symb + v.toNat) := by
      intro k
      unfold LutItem.word
      rw [List.map_map]
      rfl
    obtain ⟨m', out', he, -, hout, -, hbytes⟩ := decodeLoop_spec
      (fun _ => cvtLutIdx2symb (t.lut lambda) m (src + Header.preIdx2symb)) dst
      (src + getHeaderLength m src) hblk h.spelled.even h.spelled.bytes (fun _ _ k _ => hword k)
      (fun k hk => ⟨(h.spelled.small k hk).1, by rw [List.length_map]; exact (h.spelled.small k hk).2.1⟩) marks.length 0
      m 0 rfl rfl (fun q _ => rfl)
    rw [List.drop_zero, ← List.map_flatMap] at hout hbytes
    rw [List.length_map] at hout hbytes
    simp only [↓reduceIte, he]
    rw [if_neg (by omega)]
    refine ⟨rfl, rfl, fun i hi => ?_⟩
    have := hbytes i (by omega)
    rw [List.getElem?_map, hget i hi, Nat.zero_add] at this
    exact (Option.some.inj this).trans (h.symb i hi).2
  | false =>
    obtain ⟨m', out', he, hsrc, hout, -, hbytes⟩ := decodeLoop_spec (fun _ => t.lut lambda) dst
      (src + getHeaderLength m src) hblk h.spelled.even h.spelled.bytes (fun _ _ k _ => rfl)
      (fun k hk => ⟨(h.spelled.small k hk).1, (h.spelled.small k hk).2.1⟩) marks.length 0 m 0 rfl rfl
      (fun q _ => rfl)
    rw [List.drop_zero] at hout hbytes
    simp only [Bool.false_eq_true, ↓reduceIte, he]
    rw [if_neg (by omega)]
    refine ⟨rfl, rfl, fun i hi => ?_⟩
    have hi' := hbytes i (by omega)
    rw [hget i hi, Nat.zero_add] at hi'
    have hcvt := (cvtDataIdx2symb_spec (src + Header.preIdx2symb) dst hblk n 0 (m := m') rfl).2 i
      (Nat.zero_le _) hi
    rw [show m' (dst + i) = idx i from Option.some.inj hi',
      hsrc (src + Header.preIdx2symb + (idx i).toNat) hblk, (h.symb i hi).2] at hcvt
    exact hcvt

end Decompress

/-! ## A second run of the dynamic mode -/

section Again

variable {dst src : Ptr} {m m' : Mem}

/-- The two memories hold the same outside the destination's object. -/
abbrev SameOff (dst : Ptr) (m m' : Mem) : Prop := ∀ q, q.blk ≠ dst.blk → m q = m' q

theorem SameOff.store32 (h : SameOff dst m m') (a x : Nat) : SameOff dst (m.store32 (dst + a) x) (m'.store32 (dst + a) x) := by
  intro q hq
  rw [Mem.store32_of_blk (p := dst + a) (q := q) _ _ hq, Mem.store32_of_blk (p := dst + a) (q := q) _ _ hq, h q hq]

theorem countFreq_congr {srcLen : Nat} (hblk : src.blk ≠ dst.blk) (h : SameOff dst m m') : ∀ (k i : Nat) (freq : Nat → Nat),
    srcLen - i = k → countFreq m src srcLen i freq = countFreq m' src srcLen i freq := by
  intro k
  induction k with
  | zero =>
    intro i freq hk
    unfold countFreq
    rw [if_neg (by omega), if_neg (by omega)]
  | succ k ih =>
    intro i freq hk
    unfold countFreq
    have hlt : i < srcLen := by omega
    simp only [hlt, ↓reduceIte, h (src + i) hblk]
    split
    · rfl
    · exact ih (i + 1) _ (by omega)

theorem encodeLoop_congr (getMark : Mem → Nat → Option (Nat × Nat)) (pNMark opEnd srcLen : Nat)
    (hget : ∀ m m', SameOff dst m m' → ∀ ip, getMark m ip = getMark m' ip) :
    ∀ (k opp ip nMark : Nat) (m m' : Mem), opEnd - opp ≤ k → SameOff dst m m' →
      (encodeLoop getMark dst pNMark opEnd srcLen m opp ip nMark).map (fun r => (r.1, r.2.2)) =
        (encodeLoop getMark dst pNMark opEnd srcLen m' opp ip nMark).map fun r => (r.1, r.2.2) := by
  intro k
  induction k with
  | zero =>
    intro opp ip nMark m m' hk h
    have hfull : opp + 2 ≥ opEnd := by omega
    unfold encodeLoop
    rw [hget m m' h ip]
    split
    · cases getMark m' ip with
      | none => rfl
      | some r =>
        simp only [hget m m' h r.2]
        cases getMark m' r.2 with
        | none => rfl
        | some r' => rfl
    · rfl
  | succ k ih =>
    intro opp ip nMark m m' hk h
    unfold encodeLoop
    rw [hget m m' h ip]
    split
    · cases getMark m' ip with
      | none => rfl
      | some r =>
        simp only [hget m m' h r.2]
        cases getMark m' r.2 with
        | none => rfl
        | some r' =>
          simp only
          split
          · rfl
          · exact ih _ _ _ _ _ (by omega) ((h.store32 _ _).store32 _ _)
    · rfl

/-- The dynamic mode's code and length depend on the source only. -/
theorem compressDynamic_det {dstLen srcLen : Nat} {out out' : Out} (hblk : src.blk ≠ dst.blk) (hs : SameOff dst m m')
    (h : tunstallCompressDynamic D m dst dstLen src srcLen = some out)
    (h' : tunstallCompressDynamic D m' dst dstLen src srcLen = some out') :
    out'.code = out.code ∧ out'.dstLen = out.dstLen := by
  unfold tunstallCompressDynamic at h h'
  by_cases hcap : dstLen < tsLutBytes
  · rw [if_pos hcap] at h h'
    obtain rfl := Option.some.inj h
    obtain rfl := Option.some.inj h'
    exact ⟨rfl, rfl⟩
  rw [if_neg hcap] at h h'
  by_cases hlen : srcLen = 0 ∨ srcLen > 0xFFFFFFFF
  · rw [if_pos hlen] at h h'
    obtain rfl := Option.some.inj h
    obtain rfl := Option.some.inj h'
    exact ⟨rfl, rfl⟩
  rw [if_neg hlen] at h h'
  have hhist : getHistFromArray D m' src srcLen = getHistFromArray D m src srcLen := by
    unfold getHistFromArray
    rw [countFreq_congr hblk hs srcLen 0 _ rfl]
  rw [hhist] at h'
  cases hh : getHistFromArray D m src srcLen with
  | error e =>
    rw [hh] at h h'
    obtain rfl := Option.some.inj h
    obtain rfl := Option.some.inj h'
    exact ⟨rfl, rfl⟩
  | ok hist =>
  simp only [hh] at h h'
  obtain ⟨S, hS⟩ := histogram_spec hh
  obtain ⟨b, word, hb, -, hcheck⟩ := buildLut_spec (D := D) hist hS.nodup (List.length_pos_of_mem (hS.mem 0 (by omega)))
    hS.le hS.nSymb hS.symbs
  simp only [hb, hcheck, ne_eq, not_true_eq_false, ↓reduceIte] at h h'
  rw [getHeaderLength_dynamic (dynHeader_mode _ _ _ _)] at h h'
  have hsame : SameOff dst (dynHeader m dst b.lut srcLen) (dynHeader m' dst b.lut srcLen) := by
    intro q hq
    have hne : ∀ a, a < Header.dynamicLen → q ≠ dst + a := fun a _ e => hq (by simpa using congrArg Ptr.blk e)
    rw [dynHeader_of_ne _ _ _ hne, dynHeader_of_ne _ _ _ hne, hs q hq]
  have henc := encodeLoop_congr
    (getMarkByInputStream b.etree ((hist.hist.head?.map (·.symb)).getD 0) src srcLen) Header.dynNMark dstLen srcLen
    (fun m m' h ip => by
      unfold getMarkByInputStream
      refine walkMark_congr _ _ _ fun i _ => ?_
      rw [h (src + i) hblk]) (dstLen - Header.dynamicLen) Header.dynamicLen 0 0
    ((dynHeader m dst b.lut srcLen).store32 (dst + Header.dynNMark) 0)
    ((dynHeader m' dst b.lut srcLen).store32 (dst + Header.dynNMark) 0) (Nat.le_refl _)
    (hsame.store32 Header.dynNMark 0)
  unfold encodeDynamic at h h'
  generalize encodeLoop _ dst Header.dynNMark dstLen srcLen
    ((dynHeader m dst b.lut srcLen).store32 (dst + Header.dynNMark) 0) Header.dynamicLen 0 0 = r at h henc
  generalize encodeLoop _ dst Header.dynNMark dstLen srcLen
    ((dynHeader m' dst b.lut srcLen).store32 (dst + Header.dynNMark) 0) Header.dynamicLen 0 0 = r' at h' henc
  cases r with
  | none => cases h
  | some r =>
    cases r' with
    | none => cases h'
    | some r' =>
      obtain ⟨c, mm, o⟩ := r
      obtain ⟨c', mm', o'⟩ := r'
      obtain ⟨rfl, rfl⟩ : c = c' ∧ o = o' := by simpa using henc
      cases c <;> simp only [Option.some.injEq] at h h' <;> subst h <;> subst h' <;> exact ⟨rfl, rfl⟩

end Again

/-! ## The round trip -/

/-- The raw stream of `ts_do_not_compress`. -/
theorem doNotCompress_spec {m m' : Mem} {dst src src' : Ptr} {cap srcLen : Nat} (dst' : Ptr) (dstLen : Nat) (doIdx2symb : Bool)
    (predefLuts : Option (PredefTables F)) (hlen : srcLen < 2 ^ 32) (hblk : src.blk ≠ dst.blk)
    (hok : (doNotCompress m dst cap src srcLen).code = .tsOk)
    (hb : ∀ a, a < (doNotCompress m dst cap src srcLen).dstLen →
      m' (src' + a) = (doNotCompress m dst cap src srcLen).mem (dst + a)) :
    Rebuilt (tunstallDecompress m' dst' src' dstLen doIdx2symb predefLuts) dst' (fun i => m (src + i)) srcLen := by
  unfold doNotCompress at hok hb
  by_cases hcap : srcLen + Header.uncompressLen > cap
  · rw [if_pos hcap] at hok
    cases hok
  simp only [if_neg hcap] at hb
  have h5 : Header.uncompressLen = 5 := rfl
  have hsrc : ∀ i : Nat, ((m.store dst tsModeUncompress).store32 (dst + Header.rawLength) srcLen) (src + i) = m (src + i) := by
    intro i
    rw [Mem.store32_of_blk (p := dst + Header.rawLength) (q := src + i) _ _ hblk,
      Mem.store_of_blk (p := dst) (q := src + i) _ _ hblk]
  generalize hm₁ : (m.store dst tsModeUncompress).store32 (dst + Header.rawLength) srcLen = m₁ at hb hsrc
  have hhead : ∀ a, a < 5 → m' (src' + a) = m₁ (dst + a) := by
    intro a ha
    rw [hb a (by omega), Mem.memcpy_of_out _ _ _ _ _ _ (.inl (by omega))]
  have hmode : m' src' = tsModeUncompress := by
    have h := hhead 0 (by omega)
    have h' := Mem.store32_of_out (m.store dst tsModeUncompress) dst 0 Header.rawLength srcLen (by decide)
    rw [Ptr.add_zero] at h h'
    rw [Ptr.add_zero] at h
    rw [h, ← hm₁, h', Mem.store, Function.update_self]
  have hlength : m'.load32 (src' + Header.rawLength) = srcLen := by
    rw [load32_move (m := m₁) (p := dst) hhead (by unfold Header.rawLength; omega), ← hm₁,
      Mem.load32_store32 _ _ _ hlen]
  have hhdr : getHeaderLength m' src' = Header.uncompressLen := by
    simp [getHeaderLength, hmode]
  unfold tunstallDecompress
  simp only [hmode, ↓reduceIte, hlength, hhdr]
  refine ⟨rfl, rfl, fun i hi => ?_⟩
  have hcpy := Mem.memcpy_of_in m' dst' (src' + Header.uncompressLen) i 0 srcLen (Nat.zero_le _) (by omega)
  rw [Ptr.add_zero] at hcpy
  simp only
  rw [hcpy, Ptr.add_add, hb _ (by omega), Mem.memcpy_of_in _ _ _ _ _ _ (by omega) (by omega), Nat.sub_zero,
    Nat.add_sub_cancel_left, hsrc i]

/-- Predefined tables as `TunstallInitAllPredefTables` leaves them, unless not initialized. -/
def PredefInitialized (D : FloatOps F) (predefLuts : Option (PredefTables F)) : Prop :=
  ∀ t, predefLuts = some t → t.initialized = 1 → ∃ t₀, tunstallInitAllPredefTables D t₀ = some (.tsOk, t)

theorem PredefInitialized.built {predefLuts : Option (PredefTables F)} (h : PredefInitialized D predefLuts)
    {t : PredefTables F} (ht : allPredefLutsAvailable predefLuts = some t) {lambda : Nat} (hl : lambda < tsCountPredef) :
    TableBuilt t lambda := by
  unfold allPredefLutsAvailable at ht
  rw [Option.filter_eq_some_iff] at ht
  obtain ⟨t₀, ht₀⟩ := h t ht.1 (by simpa using ht.2)
  exact tablesBuilt_of_init ht₀ hl

theorem Within.blk {dst : Ptr} {dstLen : Nat} {m m' : Mem} (h : Within dst dstLen m m') {q : Ptr} (hq : q.blk ≠ dst.blk) :
    m' q = m q := h q fun a _ e => hq (by simpa using congrArg Ptr.blk e)

/-- A successful `TunstallCompress` is undone by `TunstallDecompress`, in any memory that
    holds the compressed bytes. -/
theorem tunstall_round_trip (m m' : Mem) (dst src dst' src' : Ptr) (cap srcLen dstLen : Nat) (doIdx2symb : Bool)
    (predefLuts : Option (PredefTables F)) {out : Out} (hlen : srcLen < 2 ^ 32) (hblk : src.blk ≠ dst.blk)
    (hT : PredefInitialized D predefLuts) (h : tunstallCompress D m dst cap src srcLen predefLuts = some out)
    (hok : out.code = .tsOk) (hblk' : src'.blk ≠ dst'.blk) (hb : ∀ a, a < out.dstLen → m' (src' + a) = out.mem (dst + a)) :
    (tunstallDecompress m' dst' src' dstLen doIdx2symb predefLuts).code = .tsOk ∧
      (tunstallDecompress m' dst' src' dstLen doIdx2symb predefLuts).dstLen = srcLen ∧
      ∀ i, i < srcLen → (tunstallDecompress m' dst' src' dstLen doIdx2symb predefLuts).mem (dst' + i) = m (src + i) := by
  have hap : Apart dst src cap srcLen := apart_of_blk hblk cap srcLen
  unfold tunstallCompress at h
  obtain ⟨dynam, hd, hdw, hds⟩ := compressDynamic_spec (D := D) (m := m) hap
  rw [hd] at h
  simp only at h
  obtain ⟨predef, hp, hpw, hps⟩ := compressPredef_spec (D := D) (m := dynam.mem) hap fun t ht _ hl => hT.built ht hl
  rw [hp] at h
  simp only at h
  have hsrc₁ : ∀ i : Nat, dynam.mem (src + i) = m (src + i) := fun i => hdw.blk (q := src + i) hblk
  have hsrc₂ : ∀ i : Nat, predef.mem (src + i) = m (src + i) := fun i => (hpw.blk (q := src + i) hblk).trans (hsrc₁ i)
  split at h
  · next hdyn =>
    obtain ⟨out', hd', -, hds'⟩ := compressDynamic_spec (D := D) (m := predef.mem) hap
    rw [hd'] at h
    obtain rfl := Option.some.inj h
    have hsame : ∀ q, q.blk ≠ dst.blk → m q = predef.mem q := fun q hq => ((hpw.blk hq).trans (hdw.blk hq)).symm
    obtain ⟨hcode, hdst⟩ := compressDynamic_det hblk hsame hd hd'
    have hshort : dynam.dstLen < srcLen := by
      simp only [Bool.and_eq_true, decide_eq_true_eq] at hdyn
      exact hdyn.1.2
    obtain ⟨-, -, -, marks, hstream⟩ := hds' hok
    have hmarks : marks.length < 2 ^ 32 := by
      have := hstream.len
      omega
    have hr := decompress_dynamic dstLen doIdx2symb predefLuts hblk'
      (hstream.move hb) hmarks
    exact ⟨hr.1, hr.2.1, fun i hi => (hr.2.2 i hi).trans (hsrc₂ i)⟩
  split at h
  · next hpre =>
    obtain rfl := Option.some.inj h
    have hcode : predef.code = .tsOk ∧ predef.dstLen < srcLen := by
      simp only [Bool.and_eq_true, decide_eq_true_eq] at hpre
      exact hpre.1
    obtain ⟨-, -, -, t, lambda, idx, marks, ht, hstream⟩ := hps hcode.1
    have hmarks : marks.length < 2 ^ 32 := by
      have := hstream.len
      have := hcode.2
      omega
    have hstream' := hstream.move hb
    have hr := decompress_predef dstLen doIdx2symb predefLuts hblk' ht hstream' hmarks
    exact ⟨hr.1, hr.2.1, fun i hi => (hr.2.2 i hi).trans (hsrc₁ i)⟩
  · obtain rfl := Option.some.inj h
    have hr := doNotCompress_spec dst' dstLen doIdx2symb predefLuts hlen hblk hok hb
    exact ⟨hr.1, hr.2.1, fun i hi => (hr.2.2 i hi).trans (hsrc₂ i)⟩

/-- An input of zeros that is long enough takes the dynamic table. -/
theorem tunstallCompress_zeros (m : Mem) (dst src : Ptr) (n k cap : Nat) (hblk : src.blk ≠ dst.blk) (hpos : 0 < n)
    (hmax : n < 2 ^ 32)
    (hz : ∀ j, j < n → m (src + j) = 0) (hk : n ≤ 14 * k) (hroom : Header.dynamicLen + 2 * k < cap)
    (hshort : Header.dynamicLen + 2 * k < n) :
    ∃ out, tunstallCompress ratOps m dst cap src n none = some out ∧ out.code = .tsOk ∧
    out.dstLen ≤ Header.dynamicLen + 2 * k := by
  have hap : Apart dst src cap n := apart_of_blk hblk cap n
  obtain ⟨dynam, hd, hcode, hlen⟩ := compressDynamic_zeros hap hpos hmax hz hk hroom
  obtain ⟨dynam', hd', hwithin, -⟩ := compressDynamic_spec (D := ratOps) (m := m) hap
  obtain rfl : dynam' = dynam := Option.some.inj (hd'.symm.trans hd)
  -- the second run finds the same input
  have hz' : ∀ j, j < n → dynam'.mem (src + j) = 0 := fun j hj => (hwithin.blk (q := src + j) hblk).trans (hz j hj)
  obtain ⟨out, ho, hocode, holen⟩ := compressDynamic_zeros hap hpos hmax hz' hk hroom
  have hok : decide (dynam'.code = .tsOk ∧ dynam'.dstLen < n) = true := by
    rw [decide_eq_true_eq]
    exact ⟨hcode, by omega⟩
  refine ⟨out, ?_, hocode, holen⟩
  unfold tunstallCompress tunstallCompressPredef allPredefLutsAvailable
  simp only [hd, Option.filter_none]
  simp [hok, ho]

/-- 3000 zeros, which have a memory of ones around them. -/
def zerosMem : Mem := fun q => if q.blk = 1 then 0 else 1

theorem tunstall_round_trip_zeros :
    ∃ out, tunstallCompress ratOps zerosMem ⟨0, 0⟩ 3000 ⟨1, 0⟩ 3000 none = some out ∧ out.dstLen ≤ 2487 ∧
      let r := tunstallDecompress (F := Rat) out.mem ⟨2, 0⟩ ⟨0, 0⟩ 3000 true none
      r.code = .tsOk ∧ r.dstLen = 3000 ∧ ∀ i, i < 3000 → r.mem ((⟨2, 0⟩ : Ptr) + i) = 0 := by
  obtain ⟨out, hout, hcode, hlen⟩ := tunstallCompress_zeros zerosMem ⟨0, 0⟩ ⟨1, 0⟩ 3000 215 3000 (by decide) (by decide)
    (by decide) (fun _ _ => rfl) (by decide) (by decide) (by decide)
  exact ⟨out, hout, hlen, tunstall_round_trip (D := ratOps) zerosMem out.mem ⟨0, 0⟩ ⟨1, 0⟩ ⟨2, 0⟩ ⟨0, 0⟩ 3000 3000 3000 true none
    (by decide) (by decide) (fun _ h => by cases h) hout hcode (by decide) fun _ _ => rfl⟩

end UnifiedCache.Compress
