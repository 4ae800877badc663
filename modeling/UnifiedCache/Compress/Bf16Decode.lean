/-
  UnifiedCache.Compress.Bf16Decode — `TunstallDecompressBF16` after `TunstallCompressBF16`
  (see `UnifiedCache.Compress.Bf16`).

  The exponents are decoded by blocks into a ring buffer: the words of the marks run over the
  end of a block by less than one item, and these symbols are carried to the next block's start
  (`Ring`). `fillBlock_spec` is shared with the decompression in place.

  Proved (`bf16_precision`): for every array, compression followed by decompression succeeds,
  both take the same path, and each element comes back with its sign, its clamped exponent and
  as many mantissa bits as its path and its group stored.
-/

import UnifiedCache.Compress.Bf16Layout

namespace UnifiedCache.Compress

open UnifiedCache.Base

/-! ## The ring buffer -/

section Fill

variable {marks : List Nat} {word : Nat → List UInt8}

/-- The symbols of the first `k` marks. -/
def spelledLen (marks : List Nat) (word : Nat → List UInt8) (k : Nat) : Nat := ((marks.take k).flatMap word).length

theorem spelledLen_succ {k : Nat} (hk : k < marks.length) :
    spelledLen marks word (k + 1) = spelledLen marks word k + (word marks[k]).length := by
  unfold spelledLen
  rw [List.take_succ_eq_append_getElem hk, List.flatMap_append, List.length_append, List.flatMap_singleton]

theorem spelledLen_length : spelledLen marks word marks.length = (marks.flatMap word).length := by
  unfold spelledLen
  rw [List.take_length]

/-- `k` marks have been read, and the ring buffer holds `w` symbols from position `iBlock` on. -/
structure Ring (marks : List Nat) (word : Nat → List UInt8) (iBlock k w : Nat) (buf : Nat → UInt8) : Prop where
  le : k ≤ marks.length
  len : spelledLen marks word k = iBlock + w
  bytes : ∀ j, j < w → some (buf j) = (marks.flatMap word)[iBlock + j]?

/-- The table's items for the marks. -/
def Items (lut : Lut) (marks : List Nat) (word : Nat → List UInt8) : Prop :=
  ∀ k ∈ marks, k < tsLutSize ∧ (lut k).word = word k ∧ 0 < (word k).length ∧ (word k).length ≤ tsItemSize

/-- The marks not read yet are at `p`. -/
def MarksAt (m : Mem) (p : Ptr) (marks : List Nat) (k : Nat) : Prop :=
  ∀ j, k + j < marks.length → some (m (p + j)) = (marks[k + j]?).map UInt8.ofNat

/-- One item into the ring. -/
theorem Ring.item {lut : Lut} {iBlock k w : Nat} {buf : Nat → UInt8} (h : Ring marks word iBlock k w buf)
    (hitems : Items lut marks word) (hk : k < marks.length) :
    Ring marks word iBlock (k + 1) (w + (lut marks[k]).c.toNat)
      fun j => if w ≤ j ∧ j < w + 8 then ((lut marks[k]).bytes[j - w]?).getD 0 else buf j := by
  obtain ⟨-, hword, -, hle⟩ := hitems _ (List.getElem_mem hk)
  have hc : (lut marks[k]).c.toNat = (word marks[k]).length := by rw [← hword, length_word]
  unfold tsItemSize at hle
  refine ⟨hk, ?_, fun j hj => ?_⟩
  · rw [spelledLen_succ hk, h.len, hc, Nat.add_assoc]
  · by_cases hjw : j < w
    · rw [if_neg (by omega)]
      exact h.bytes j hjw
    · have hsplit : marks.flatMap word =
          (marks.take k).flatMap word ++ (word marks[k] ++ (marks.drop (k + 1)).flatMap word) := by
        rw [← List.flatMap_cons, ← List.flatMap_append, ← List.drop_eq_getElem_cons hk, List.take_append_drop]
      have hlen : ((marks.take k).flatMap word).length = iBlock + w := h.len
      rw [if_pos (by omega), hsplit, List.getElem?_append_right (by omega), hlen,
        show iBlock + j - (iBlock + w) = j - w by omega, List.getElem?_append_left (by omega), ← hword,
        bytes_getElem? _ (by omega), if_pos (by omega)]
      unfold LutItem.word
      rw [List.getElem?_map, List.getElem?_range (by omega)]
      rfl

/-- The mark loop of a block: it ends, past the block's end by less than an item. -/
theorem fillBlock_spec {lut : Lut} {m : Mem} (iBlock blockEnd : Nat) (hitems : Items lut marks word)
    (hlong : iBlock + blockEnd ≤ (marks.flatMap word).length) :
    ∀ (fuel k w : Nat) (p : Ptr) (buf : Nat → UInt8), blockEnd ≤ w + fuel → Ring marks word iBlock k w buf →
      MarksAt m p marks k →
      ∃ k' w' buf', fillBlock lut m blockEnd fuel w p buf = some (w', p + (k' - k), buf') ∧
        Ring marks word iBlock k' w' buf' ∧ k ≤ k' ∧ blockEnd ≤ w' ∧ (w' = w ∨ w' < blockEnd + tsItemSize) ∧
        ∀ j, k ≤ j → j < k' → spelledLen marks word j < iBlock + blockEnd := by
  intro fuel
  induction fuel with
  | zero =>
    intro k w p buf hfuel hring hmarks
    unfold fillBlock
    rw [if_neg (by omega)]
    exact ⟨k, w, buf, by rw [Nat.sub_self, Ptr.add_zero], hring, Nat.le_refl _, by omega, .inl rfl, fun j h1 h2 => by omega⟩
  | succ fuel ih =>
    intro k w p buf hfuel hring hmarks
    unfold fillBlock
    by_cases hw : w < blockEnd
    · have hlen := hring.len
      have hk : k < marks.length := by
        have hne : k ≠ marks.length := by
          intro e
          subst e
          rw [spelledLen_length] at hlen
          omega
        have := hring.le
        omega
      obtain ⟨hsmall, hword, hpos, hle⟩ := hitems _ (List.getElem_mem hk)
      have hc : (lut marks[k]).c.toNat = (word marks[k]).length := by rw [← hword, length_word]
      have hmark : (m p).toNat = marks[k] := by
        have := hmarks 0 (by omega)
        rw [Ptr.add_zero, Nat.add_zero, List.getElem?_eq_getElem hk] at this
        rw [Option.some.inj this]
        unfold tsLutSize at hsmall
        simp
        omega
      have hnext : MarksAt m (p + 1) marks (k + 1) := by
        intro j hj
        have := hmarks (1 + j) (by omega)
        rw [Ptr.add_add, this]
        congr 2
        omega
      rw [if_pos hw]
      simp only [hmark]
      obtain ⟨k', w', buf', he, hr, hk', hw', hover, hmin⟩ := ih (k + 1) _ (p + 1) _ (by omega) (hring.item hitems hk) hnext
      have hstep := hr.len
      refine ⟨k', w', buf', ?_, hr, by omega, hw', ?_, fun j h1 h2 => ?_⟩
      · rw [he, Ptr.add_add, show 1 + (k' - (k + 1)) = k' - k by omega]
      · rcases hover with h | h
        · right
          omega
        · exact .inr h
      · by_cases hj : j = k
        · rw [hj]
          omega
        · exact hmin j (by omega) h2
    · rw [if_neg hw]
      exact ⟨k, w, buf, by rw [Nat.sub_self, Ptr.add_zero], hring, Nat.le_refl _, by omega, .inl rfl, fun j h1 h2 => by omega⟩

/-- The symbols past a full block are carried to the next one's start. -/
theorem Ring.carry {iBlock k w : Nat} {buf : Nat → UInt8} (h : Ring marks word iBlock k w buf) (hw : blockSize ≤ w)
    (hlt : w < blockSize + tsItemSize) : Ring marks word (iBlock + blockSize) k (w - blockSize) (carryTail buf) := by
  have hlen := h.len
  refine ⟨h.le, by omega, fun j hj => ?_⟩
  unfold carryTail
  rw [if_pos (by unfold blockTail; unfold tsItemSize at hlt; omega), h.bytes _ (by omega), Nat.add_assoc]

end Fill

/-! ## Groups of 32 elements -/

theorem assembleGroup_congr {exp exp' sm sm' : Nat → UInt8} {extra : Option (Nat → UInt8)} {j : Nat}
    (he : ∀ i, i < 32 → exp i = exp' i) (hs : ∀ i, i < 16 → sm i = sm' i) :
    assembleGroup exp sm extra j = assembleGroup exp' sm' extra j := by
  have hlane : j % 8 < 8 := Nat.mod_lt _ (by decide)
  have helem : groupElem exp sm j = groupElem exp' sm' j := by
    unfold groupElem
    simp only [hs (2 * (j % 8)) (by omega), hs (2 * (j % 8) + 1) (by omega), he (2 * (j % 8)) (by omega),
      he (2 * (j % 8) + 1) (by omega), he (16 + 2 * (j % 8)) (by omega), he (16 + 2 * (j % 8) + 1) (by omega)]
  unfold assembleGroup
  rw [helem]

/-- What the Tunstall path keeps of an element. -/
def truncValue (x : UInt16) (extra : Bool) : UInt16 :=
  bf16Head x ||| (x &&& (0x70 : UInt16)) ||| if extra then (x &&& 8) ||| 3 else 8

section Group

variable {src : Nat → UInt16} (g : Nat) {j lane : Nat}

/-- Where the two halves of a group's bytes and exponents come from. -/
theorem signMantByte_group (src : Nat → UInt16) (hlane : lane < 8) {b : Nat} (hb : b < 2) :
    signMantByte src (16 * g + (2 * lane + b)) =
      signMantPair (src (32 * g + 16 * b + lane)) (src (32 * g + 16 * b + lane + 8)) := by
  unfold signMantByte
  have e : 32 * ((16 * g + (2 * lane + b)) / 16) + (16 * g + (2 * lane + b)) % 16 / 2 +
      16 * ((16 * g + (2 * lane + b)) % 2) = 32 * g + 16 * b + lane := by omega
  simp only [e]

theorem permExp_group (src : Nat → UInt16) (hlane : lane < 8) {a b : Nat} (hb : b < 2) :
    permExp src (32 * g + (16 * a + 2 * lane + b)) = bf16ToExp (src (32 * g + 16 * a + lane + 8 * b)) := by
  unfold permExp
  have e : 16 * ((32 * g + (16 * a + 2 * lane + b)) / 16) + (32 * g + (16 * a + 2 * lane + b)) % 16 / 2 +
      8 * ((32 * g + (16 * a + 2 * lane + b)) % 2) = 32 * g + 16 * a + lane + 8 * b := by omega
  rw [e]

theorem groupElem_spec (hj : j < 32) :
    groupElem (fun i => permExp src (32 * g + i)) (fun i => signMantByte src (16 * g + i)) j =
      bf16Head (src (32 * g + j)) ||| (src (32 * g + j) &&& 0x70) := by
  have hlane : j % 8 < 8 := Nat.mod_lt _ (by decide)
  have hsm := fun b hb => signMantByte_group g src (b := b) hlane hb
  have hexp := fun a b hb => permExp_group g src (a := a) (b := b) hlane hb
  have hq : j / 8 = 0 ∨ j / 8 = 1 ∨ j / 8 = 2 ∨ j / 8 = 3 := by omega
  unfold groupElem
  rcases hq with h | h | h | h
  · have hs := hsm 0 (by decide)
    have he := hexp 0 0 (by decide)
    rw [show 32 * g + j = 32 * g + 16 * 0 + j % 8 + 8 * 0 by omega]
    simp only [h, Nat.add_zero, Nat.mul_zero, Nat.zero_add] at hs he ⊢
    rw [hs, he, assembleElem_lo]
  · have hs := hsm 0 (by decide)
    have he := hexp 0 1 (by decide)
    rw [show 32 * g + j = 32 * g + j % 8 + 8 by omega]
    simp only [h, Nat.add_zero, Nat.mul_zero, Nat.zero_add, Nat.mul_one] at hs he ⊢
    rw [hs, he, assembleElem_hi]
  · have hs := hsm 1 (by decide)
    have he := hexp 1 0 (by decide)
    rw [show 32 * g + j = 32 * g + 16 + j % 8 by omega]
    simp only [h, Nat.add_zero, Nat.mul_zero, Nat.mul_one] at hs he ⊢
    rw [hs, he, assembleElem_lo]
  · have hs := hsm 1 (by decide)
    have he := hexp 1 1 (by decide)
    rw [show 32 * g + j = 32 * g + 16 + j % 8 + 8 by omega]
    simp only [h, Nat.mul_one] at hs he ⊢
    rw [hs, he, assembleElem_hi]

/-- A group of an encoded array comes back truncated. -/
theorem assembleGroup_spec {extra : Option (Nat → UInt8)} (hj : j < 32)
    (hextra : ∀ e, extra = some e → ∀ q, q < 4 → e q = bf16PackExtra8 fun lane => src (8 * (4 * g + q) + lane)) :
    assembleGroup (fun i => permExp src (32 * g + i)) (fun i => signMantByte src (16 * g + i)) extra j =
      truncValue (src (32 * g + j)) extra.isSome := by
  have hlane : j % 8 < 8 := Nat.mod_lt _ (by decide)
  unfold assembleGroup truncValue
  rw [groupElem_spec g hj]
  cases extra with
  | none => rfl
  | some e =>
    have hsrc : 8 * (4 * g + j / 8) + j % 8 = 32 * g + j := by omega
    simp only [hextra e rfl (j / 8) (by omega), extra_spec _ hlane, hsrc, Option.isSome_some, ↓reduceIte, UInt16.or_assoc]

end Group

/-! ## Out of place -/

section Blocks

variable {m : Mem} {p e extraFinal : Ptr} {X : Nat → UInt8} {n : Nat}

/-- The extra bytes of group `g`, if they lie before the end. -/
def groupExtra (m : Mem) (e extraFinal : Ptr) (g : Nat) : Option (Nat → UInt8) :=
  if (e + 4 * g).off ≤ extraFinal.off then some fun i => m (e + 4 * g + i) else none

/-- Element `i` as decoded from the exponents `X`, the bytes at `p` and those at `e`. -/
def decodedElem (m : Mem) (p e extraFinal : Ptr) (X : Nat → UInt8) (i : Nat) : UInt16 :=
  assembleGroup (fun j => X (32 * (i / 32) + j)) (fun j => m (p + (16 * (i / 32) + j))) (groupExtra m e extraFinal (i / 32))
    (i % 32)

/-- The pointers at group `g`. -/
structure AtGroup (p e : Ptr) (g : Nat) (s : Decoder) : Prop where
  src : s.src = p + 16 * g
  extra : s.extra = e + 4 * g
  pDst : s.pDst = 32 * g

theorem AtGroup.assemble {g read : Nat} {s : Decoder} (h : AtGroup p e g s) :
    AtGroup p e (g + 1) (s.assemble m extraFinal read) := by
  refine ⟨?_, ?_, ?_⟩
  · show s.src + 16 = p + 16 * (g + 1)
    rw [h.src, Ptr.add_add, Nat.mul_succ]
  · show s.extra + 4 = e + 4 * (g + 1)
    rw [h.extra, Ptr.add_add, Nat.mul_succ]
  · show s.pDst + 32 = 32 * (g + 1)
    rw [h.pDst, Nat.mul_succ]

theorem assembleBlock_spec (extraFinal : Ptr) {iBlock blockEnd : Nat} : ∀ (k read g : Nat) (s : Decoder),
    blockEnd = read + 32 * k →
    AtGroup p e g s → iBlock + read = 32 * g → (∀ j, j < blockEnd → s.buf j = X (iBlock + j)) →
    ∃ s', assembleBlock m extraFinal blockEnd read s = s' ∧ AtGroup p e (g + k) s' ∧ s'.buf = s.buf ∧ s'.write = s.write ∧
      s'.mark = s.mark ∧
      ∀ i, s'.dst i = if 32 * g ≤ i ∧ i < 32 * (g + k) then decodedElem m p e extraFinal X i else s.dst i := by
  intro k
  induction k with
  | zero =>
    intro read g s hend hat hread hbuf
    unfold assembleBlock
    rw [if_neg (by omega)]
    exact ⟨s, rfl, hat, rfl, rfl, rfl, fun i => by rw [if_neg (by omega)]⟩
  | succ k ih =>
    intro read g s hend hat hread hbuf
    unfold assembleBlock
    rw [if_pos (by omega)]
    obtain ⟨s', he, hat', h1, h2, h3, h4⟩ := ih (read + 32) (g + 1) (s.assemble m extraFinal read) (by omega) hat.assemble
      (by omega) hbuf
    refine ⟨s', he, by rw [show g + (k + 1) = g + 1 + k by omega]; exact hat', h1, h2, h3, fun i => ?_⟩
    rw [h4 i]
    by_cases hlater : 32 * (g + 1) ≤ i ∧ i < 32 * (g + 1 + k)
    · rw [if_pos hlater, if_pos (by omega)]
    · rw [if_neg hlater]
      simp only [Decoder.assemble, hat.pDst]
      by_cases hhere : 32 * g ≤ i ∧ i < 32 * g + 32
      · rw [if_pos hhere, if_pos (show 32 * g ≤ i ∧ i < 32 * (g + (k + 1)) by omega)]
        have hg : i / 32 = g := by omega
        have hj : i % 32 = i - 32 * g := by omega
        unfold decodedElem groupExtra
        rw [hg, hj, hat.src, hat.extra]
        refine assembleGroup_congr (fun j hj => ?_) fun j _ => ?_
        · rw [hbuf (read + j) (by omega), ← Nat.add_assoc, hread]
        · rw [Ptr.add_add]
      · rw [if_neg hhere, if_neg (by omega)]

/-- The block loop: every element comes out as decoded from the marks' symbols. -/
theorem decodeBlocks_spec (extraFinal : Ptr) {marks : List Nat} {word : Nat → List UInt8} {lut : Lut}
    (hitems : Items lut marks word)
    (hX : ∀ i, i < n → (marks.flatMap word)[i]? = some (X i)) (hcount : n % 32 = 0) :
    ∀ (b iBlock k : Nat) (s : Decoder), n ≤ iBlock + blockSize * b → iBlock % blockSize = 0 → AtGroup p e (iBlock / 32) s →
      Ring marks word iBlock k s.write s.buf → s.write < tsItemSize → MarksAt m s.mark marks k →
      ∃ dst, decodeBlocks lut m extraFinal n iBlock s = some dst ∧
        ∀ i, i < n → dst i = if iBlock ≤ i then decodedElem m p e extraFinal X i else s.dst i := by
  have hlen : n ≤ (marks.flatMap word).length := by
    by_contra hlt
    have hlt' : (marks.flatMap word).length < n := by omega
    have := hX _ hlt'
    rw [List.getElem?_eq_none (Nat.le_refl _)] at this
    cases this
  have h8192 : blockSize = 8192 := rfl
  have h7 : tsItemSize = 7 := rfl
  intro b
  induction b with
  | zero =>
    intro iBlock k s hb hmod hat hring hw hmarks
    unfold decodeBlocks
    rw [if_neg (by omega)]
    exact ⟨s.dst, rfl, fun i hi => by rw [if_neg (by omega)]⟩
  | succ b ih =>
    intro iBlock k s hb hmod hat hring hw hmarks
    have hmod' : iBlock % 8192 = 0 := hmod
    rw [Nat.mul_succ] at hb
    unfold decodeBlocks
    by_cases hlt : iBlock < n
    · rw [if_pos hlt]
      generalize hbe : (if n - iBlock < blockSize then n - iBlock else blockSize) = blockEnd
      have hbe' : blockEnd ≤ blockSize ∧ iBlock + blockEnd ≤ n ∧ blockEnd % 32 = 0 ∧ 0 < blockEnd ∧
          (blockEnd = blockSize ∨ iBlock + blockEnd = n) := by
        split at hbe <;> omega
      obtain ⟨k', w', buf', he, hr, hk', hw', hover, -⟩ :=
          fillBlock_spec (m := m) iBlock blockEnd hitems (by omega) blockSize k s.write s.mark s.buf
        (by omega) hring hmarks
      have hover' : w' < blockEnd + tsItemSize := by
        rcases hover with h | h
        · omega
        · exact h
      simp only [he]
      have hbuf : ∀ j, j < blockEnd → buf' j = X (iBlock + j) := by
        intro j hj
        have := hr.bytes j (by omega)
        rw [hX _ (by omega)] at this
        exact Option.some.inj this
      obtain ⟨s', hs', hat', h1, h2, h3, h4⟩ := assembleBlock_spec (m := m) (p := p) (e := e) (X := X) extraFinal
          (blockEnd / 32) 0
        (iBlock / 32) { s with buf := buf', write := w', mark := s.mark + (k' - k) } (by omega) ⟨hat.src, hat.extra, hat.pDst⟩
        (by omega) hbuf
      rw [hs']
      by_cases hfull : blockEnd = blockSize
      · have hmarks' : MarksAt m s'.mark marks k' := by
          intro j hj
          have := hmarks (k' - k + j) (by omega)
          rw [h3, Ptr.add_add, this]
          congr 2
          omega
        have hring' : Ring marks word (iBlock + blockSize) k' s'.nextBlock.write s'.nextBlock.buf := by
          show Ring marks word (iBlock + blockSize) k' (s'.write - blockSize) (carryTail s'.buf)
          rw [h1, h2]
          exact hr.carry (by omega) (by omega)
        have hat'' : AtGroup p e ((iBlock + blockSize) / 32) s'.nextBlock := by
          rw [show (iBlock + blockSize) / 32 = iBlock / 32 + blockEnd / 32 by omega]
          exact ⟨hat'.src, hat'.extra, hat'.pDst⟩
        have hwrite : s'.nextBlock.write < tsItemSize := by
          show s'.write - blockSize < tsItemSize
          rw [h2]
          show w' - blockSize < tsItemSize
          omega
        obtain ⟨dst, hdst, hall⟩ := ih (iBlock + blockSize) k' s'.nextBlock (by omega)
          (show (iBlock + 8192) % 8192 = 0 by omega) hat'' hring' hwrite hmarks'
        refine ⟨dst, hdst, fun i hi => ?_⟩
        rw [hall i hi, show s'.nextBlock.dst i = s'.dst i from rfl, h4]
        by_cases hnext : iBlock + blockSize ≤ i
        · rw [if_pos hnext, if_pos (by omega)]
        · rw [if_neg hnext]
          by_cases hhere : iBlock ≤ i
          · rw [if_pos (by omega), if_pos hhere]
          · rw [if_neg (by omega), if_neg hhere]
      · unfold decodeBlocks
        rw [if_neg (by omega)]
        refine ⟨s'.dst, rfl, fun i hi => ?_⟩
        rw [h4]
        by_cases hhere : iBlock ≤ i
        · rw [if_pos (by omega), if_pos hhere]
        · rw [if_neg (by omega), if_neg hhere]
    · rw [if_neg hlt]
      exact ⟨s.dst, rfl, fun i hi => by rw [if_neg (by omega)]⟩

end Blocks

/-! ## Reading a compressed array back -/

section Decode

variable {m : Mem} {p : Ptr} {src : Nat → UInt16} {n len : Nat} {marks : List Nat}

/-- Element `i` belongs to a group whose extra bytes were stored. -/
def hasExtra (n len i : Nat) : Bool := 4 * (i / 32) + 4 ≤ extraBytes n len

theorem extraBytes_le : extraBytes n len ≤ n / 2 - len ∧ extraBytes n len ≤ n / 8 := by
  unfold extraBytes
  split <;> omega

/-- The code's test against the end of the buffer is the one on the stored bytes. -/
theorem hasExtra_iff (hcount : n % 32 = 0) (hfits : len ≤ n / 2) {g : Nat} (hg : g < n / 32) :
    4 * g + 4 ≤ extraBytes n len ↔ n / 2 + len + 4 * g ≤ n - 4 := by
  unfold extraBytes
  split <;> omega

namespace Bf16Stream

theorem nMark_eq (h : Bf16Stream m p src n len marks) (hmax : n < 2 ^ 32) :
    m.load32 (p + n / 2 + Header.dynNMark) = marks.length := by
  have := h.stream.len
  have := h.fits
  exact h.stream.nMark (by omega)

theorem items (h : Bf16Stream m p src n len marks) :
    Items (loadLut m (p + n / 2 + Header.dynLut)) marks fun k => (loadLut m (p + n / 2 + Header.dynLut) k).word := by
  intro k hk
  obtain ⟨h1, h2, h3⟩ := h.stream.spelled.small k hk
  exact ⟨h1, rfl, h3, h2⟩

theorem marksAt (h : Bf16Stream m p src n len marks) : MarksAt m (p + n / 2 + Header.dynamicLen) marks 0 := by
  intro j hj
  rw [Nat.zero_add] at hj ⊢
  exact h.stream.spelled.bytes j hj

theorem spelled (h : Bf16Stream m p src n len marks) {i : Nat} (hi : i < n) :
    (marks.flatMap fun k => (loadLut m (p + n / 2 + Header.dynLut) k).word)[i]? = some (permExp src i) :=
  (chunk_of_take h.stream.spelled.words).2 i hi

/-- A decoded element is the truncated one. -/
theorem decodedElem (h : Bf16Stream m p src n len marks) {i : Nat} (hi : i < n) :
    decodedElem m p (p + n / 2 + len) (p + (n - 4)) (permExp src) i = truncValue (src i) (hasExtra n len i) := by
  have hcount := h.count
  have hg : i / 32 < n / 32 := by omega
  have hiff := hasExtra_iff h.count h.fits hg
  have hle : extraBytes n len ≤ n / 2 - len ∧ extraBytes n len ≤ n / 8 := extraBytes_le
  have hsm : ∀ j, j < 16 → m (p + (16 * (i / 32) + j)) = signMantByte src (16 * (i / 32) + j) :=
    fun j hj => h.signMant _ (by omega)
  unfold Compress.decodedElem
  rw [assembleGroup_congr (fun _ _ => rfl) hsm, assembleGroup_spec (i / 32) (Nat.mod_lt _ (by decide)),
    show 32 * (i / 32) + i % 32 = i from Nat.div_add_mod i 32]
  · congr 1
    unfold hasExtra groupExtra
    simp only [Ptr.add_off]
    by_cases hx : 4 * (i / 32) + 4 ≤ extraBytes n len
    · rw [if_pos (by omega)]
      simp [hx]
    · rw [if_neg (by omega)]
      simp [hx]
  · intro e he q hq
    unfold groupExtra at he
    simp only [Ptr.add_off] at he
    split at he
    · next hin =>
      rw [← Option.some.inj he, ← h.extra (4 * (i / 32) + q) (by omega)]
      simp only [Ptr.add_add]
      congr 2
      omega
    · cases he

theorem decompress (h : Bf16Stream m p src n len marks) (hmax : n < 2 ^ 32) (dst : Nat → UInt16) (buf : Nat → UInt8) :
    ∃ out, decompressTunstallTrunc m dst p n buf = some (.tsOk, out) ∧
      ∀ i, i < n → out i = truncValue (src i) (hasExtra n len i) := by
  have hspell := h.stream.spelled
  have hlarge := h.large
  have hlen := h.stream.len
  have hring : Ring marks (fun k => (loadLut m (p + n / 2 + Header.dynLut) k).word) 0 0 0 buf :=
    ⟨Nat.zero_le _, rfl, fun j hj => by omega⟩
  obtain ⟨out, he, hall⟩ := decodeBlocks_spec (m := m) (p := p) (e := p + n / 2 + len) (p + (n - 4)) h.items
    (fun i hi => h.spelled hi) h.count n 0 0
    { buf, write := 0, mark := p + n / 2 + Header.dynamicLen, src := p,
      extra := p + n / 2 + Header.dynamicLen + marks.length, pDst := 0, dst }
    (by unfold blockSize; omega) (Nat.zero_mod _) ⟨rfl, by rw [hlen, ← Ptr.add_add]; rfl, rfl⟩ hring (Nat.zero_lt_succ _)
    h.marksAt
  unfold decompressTunstallTrunc
  simp only [h.count, ne_eq, not_true_eq_false, ↓reduceIte, h.stream.mode, h.nMark_eq hmax, hspell.even, h.stream.srcLen, he]
  refine ⟨out, rfl, fun i hi => ?_⟩
  rw [hall i hi, if_pos (Nat.zero_le i)]
  exact h.decodedElem hi

end Bf16Stream

end Decode

/-! ## What is kept of an element -/

/-- `y` has the sign of `x`, its exponent clamped, and the mantissa `mant`. -/
structure Kept (x y mant : UInt16) : Prop where
  sign : y >>> 15 = x >>> 15
  exp : ((y >>> 7) &&& 0xFF).toNat = max 112 (min 143 ((x >>> 7) &&& 0xFF).toNat)
  mant : y &&& 0x7F = mant

theorem clampExp_toNat (x : UInt16) : (bf16ClampExp x).toNat = max 112 (min 143 ((x >>> 7) &&& 0xFF).toNat) := by
  unfold bf16ClampExp bf16ExpMin bf16ExpMax
  generalize (x >>> 7) &&& 0xFF = e
  simp only
  by_cases hlo : e < 112
  · rw [if_pos hlo]
    rw [UInt16.lt_iff_toNat_lt] at hlo
    simp at hlo ⊢
    omega
  · rw [if_neg hlo]
    rw [UInt16.lt_iff_toNat_lt] at hlo
    by_cases hhi : e > 143
    · rw [if_pos hhi]
      rw [gt_iff_lt, UInt16.lt_iff_toNat_lt] at hhi
      simp at hlo hhi ⊢
      omega
    · rw [if_neg hhi]
      rw [gt_iff_lt, UInt16.lt_iff_toNat_lt] at hhi
      simp at hlo hhi ⊢
      omega

/-- The parts of an element do not overlap. -/
theorem kept_of_parts (x mant : UInt16) (hmant : mant < 128) : Kept x (bf16Head x ||| mant) mant := by
  have hclamp := clampExp_toNat x
  have hc8 : ∀ i, 8 ≤ i → (bf16ClampExp x).toBitVec.getLsbD i = false := fun i hi =>
    getLsbD_of_lt (bf16ClampExp x).toBitVec (show (bf16ClampExp x).toNat < 2 ^ 8 by omega) hi
  have hm7 : ∀ i, 7 ≤ i → mant.toBitVec.getLsbD i = false := fun i hi =>
    getLsbD_of_lt mant.toBitVec (UInt16.lt_iff_toNat_lt.mp hmant) hi
  have hexp : ((bf16Head x ||| mant) >>> 7) &&& 0xFF = bf16ClampExp x := by
    unfold bf16Head
    generalize bf16ClampExp x = c at hc8
    apply uint16_ext
    intro i hi
    have hci := hc8 i
    have hmi := hm7 (i + 7) (by omega)
    simp only [UInt16.toBitVec_and, UInt16.toBitVec_shiftLeft, UInt16.toBitVec_shiftRight, UInt16.toBitVec_or]
    interval_cases i <;> simp at hci hmi <;> simp [hci, hmi]
  refine ⟨?_, by rw [hexp, hclamp], ?_⟩
  · unfold bf16Head
    generalize bf16ClampExp x = c at hc8
    have h8 := hc8 8 (by decide)
    have hm := hm7 15 (by decide)
    apply uint16_ext
    intro i hi
    simp only [UInt16.toBitVec_and, UInt16.toBitVec_shiftLeft, UInt16.toBitVec_shiftRight, UInt16.toBitVec_or]
    simp at h8 hm
    interval_cases i <;> simp [h8, hm]
  · unfold bf16Head
    generalize bf16ClampExp x = c at hc8
    apply uint16_ext
    intro i hi
    have hmi := hm7 i
    simp only [UInt16.toBitVec_and, UInt16.toBitVec_shiftLeft, UInt16.toBitVec_or]
    interval_cases i <;> simp at hmi <;> simp [hmi]

theorem masked_or_lt (x : UInt16) {mask t : UInt16} (hmask : mask < 128) (ht : t < 128) : (x &&& mask) ||| t < 128 := by
  rw [UInt16.lt_iff_toNat_lt] at hmask ht ⊢
  rw [UInt16.toNat_or, UInt16.toNat_and]
  have hand : x.toNat &&& mask.toNat < 2 ^ 7 := Nat.lt_of_le_of_lt Nat.and_le_right hmask
  exact Nat.or_lt_two_pow hand ht

theorem kept_trunc (x : UInt16) (extra : Bool) :
    Kept x (truncValue x extra) ((x &&& 0x70) ||| if extra then (x &&& 8) ||| 3 else 8) := by
  unfold truncValue
  rw [UInt16.or_assoc]
  refine kept_of_parts x _ (masked_or_lt x (by decide) ?_)
  cases extra with
  | false => exact (by decide : (8 : UInt16) < 128)
  | true => exact masked_or_lt x (by decide) (by decide)

theorem kept_fp8 (x : UInt16) : Kept x (fp8Value x) ((x &&& 0x60) ||| 0x10) := by
  unfold fp8Value
  rw [UInt16.or_assoc]
  exact kept_of_parts x _ (masked_or_lt x (by decide) (by decide))

theorem kept_guard (x : UInt16) : Kept x (fp8Value x &&& 0xFFDF) ((x &&& 0x40) ||| 0x10) := by
  obtain ⟨h1, h2, h3⟩ := kept_fp8 x
  have hsign : (fp8Value x &&& 0xFFDF) >>> 15 = fp8Value x >>> 15 := by
    generalize fp8Value x = y
    apply uint16_ext
    intro i hi
    simp only [UInt16.toBitVec_and, UInt16.toBitVec_shiftRight]
    interval_cases i <;> simp
  have hexp : ((fp8Value x &&& 0xFFDF) >>> 7) &&& (0xFF : UInt16) = (fp8Value x >>> 7) &&& (0xFF : UInt16) := by
    generalize fp8Value x = y
    apply uint16_ext
    intro i hi
    simp only [UInt16.toBitVec_and, UInt16.toBitVec_shiftRight]
    interval_cases i <;> simp
  have hmask : ((x &&& (0x60 : UInt16)) ||| 0x10) &&& 0xFFDF = (x &&& (0x40 : UInt16)) ||| 0x10 := by
    apply uint16_ext
    intro i hi
    simp only [UInt16.toBitVec_and, UInt16.toBitVec_or]
    interval_cases i <;> simp
  refine ⟨by rw [hsign, h1], by rw [hexp, h2], ?_⟩
  rw [UInt16.and_assoc, UInt16.and_comm 0xFFDF, ← UInt16.and_assoc, h3, hmask]

/-! ## The law -/

/-- The length of the compressor's exponent stream. -/
def tunstallLen (D : FloatOps F) (m : Mem) (dst : Ptr) (src : Nat → UInt16) (n : Nat) : Nat :=
  ((compressExps D m dst src n).map (·.dstLen)).getD 0

/-- The mantissa that element `i` comes back with. -/
def keptMant (D : FloatOps F) (m : Mem) (dst : Ptr) (src : Nat → UInt16) (n i : Nat) : UInt16 :=
  if takesTunstall D m dst src n then
    (src i &&& 0x70) ||| if hasExtra n (tunstallLen D m dst src n) i then (src i &&& 8) ||| 3 else 8
  else if i = n / 2 then (src i &&& 0x40) ||| 0x10
  else (src i &&& 0x60) ||| 0x10

/-- Compression, then decompression of the first `n` bytes it left. -/
theorem bf16_precision (D : FloatOps F) (m m' : Mem) (dst p : Ptr) (src dst' : Nat → UInt16) (n : Nat) (buf : Nat → UInt8)
    (hpos : 0 < n) (hmax : n < 2 ^ 32) :
    ∃ mc, tunstallCompressBF16 D m dst src n = some (.tsOk, mc) ∧
      ((∀ a, a < n → m' (p + a) = mc (dst + a)) →
        isTunstall m' p n = takesTunstall D m dst src n ∧
          ∃ out, tunstallDecompressBF16 m' dst' p n buf = some (.tsOk, out) ∧
            ∀ i, i < n → Kept (src i) (out i) (keptMant D m dst src n i)) := by
  obtain ⟨mc, hc, hpath⟩ := compressBF16_spec D m dst src hpos hmax
  refine ⟨mc, hc, fun hm => ?_⟩
  unfold tunstallDecompressBF16 keptMant
  rw [if_neg (by omega)]
  rcases hpath with ⟨ht, out, marks, hout, hs⟩ | ⟨ht, hs⟩
  · have hs' := hs.move hm
    obtain ⟨res, hres, hall⟩ := hs'.decompress hmax dst' buf
    have hlen : tunstallLen D m dst src n = out.dstLen := by simp [tunstallLen, hout]
    refine ⟨by rw [hs'.isTunstall, ht], res, by rw [hs'.isTunstall, if_pos rfl, hres], fun i hi => ?_⟩
    rw [hall i hi, if_pos ht, hlen]
    exact kept_trunc _ _
  · have hs' : Fp8Stream m' p src n := fun i hi => (hm i hi).trans (hs i hi)
    have hpath := hs'.isTunstall hpos
    refine ⟨by rw [hpath, ht], _, by rw [hpath, if_neg (by decide)], fun i hi => ?_⟩
    rw [if_pos hi, ht, if_neg (by decide), hs' i hi]
    by_cases h : i = n / 2
    · rw [if_pos h, if_pos h, fp8_guard, fp8_spec]
      exact kept_guard _
    · rw [if_neg h, if_neg h, fp8_spec]
      exact kept_fp8 _

/-- 16384 zeros. -/
theorem bf16_precision_zeros :
    takesTunstall ratOps (fun _ => 0) ⟨0, 0⟩ (fun _ => 0) 16384 = true ∧
      ∃ mc, tunstallCompressBF16 ratOps (fun _ => 0) ⟨0, 0⟩ (fun _ => 0) 16384 = some (.tsOk, mc) ∧
      isTunstall mc ⟨0, 0⟩ 16384 = true ∧
        ∃ out, tunstallDecompressBF16 mc (fun _ => 1) ⟨0, 0⟩ 16384 (fun _ => 0) = some (.tsOk, out) ∧
          ∀ i, i < 16384 → Kept 0 (out i) (keptMant ratOps (fun _ => 0) ⟨0, 0⟩ (fun _ => 0) 16384 i) := by
  have ht := (takesTunstall_zeros (fun _ => 0) ⟨0, 0⟩ (by decide : 16384 % 32 = 0) (Nat.le_refl _) (by decide)).1
  obtain ⟨mc, hc, -⟩ := compressBF16_spec ratOps (fun _ => 0) ⟨0, 0⟩ (fun _ => 0) (by decide : 0 < 16384) (by decide)
  obtain ⟨mc', hc', h⟩ := bf16_precision ratOps (fun _ => 0) mc ⟨0, 0⟩ ⟨0, 0⟩ (fun _ => 0) (fun _ => 1) 16384 (fun _ => 0)
    (by decide) (by decide)
  obtain rfl : mc = mc' := (Prod.mk.inj (Option.some.inj (hc.symm.trans hc'))).2
  obtain ⟨htunstall, hout⟩ := h fun _ _ => rfl
  exact ⟨ht, mc, hc, htunstall.trans ht, hout⟩

end UnifiedCache.Compress
