/-
  UnifiedCache.Compress.Encode — what the encoder of `UnifiedCache.Compress.Tunstall` writes.

  Proved: the histogram of `ts_get_hist_from_array` lists every symbol of the input once
  (`histogram_spec`); over a built table each walk takes at least one symbol and stops in a
  state whose item spells what it took (`walkMark_spec`); the encoding loop ends, and on
  success its marks spell a stretch of the input that reaches the end (`encodeLoop_spec`).

  The loop is followed with the memory it writes: the marks may overrun their two bytes by
  the two high bytes of the word stored, which the next pair overwrites.
-/

import UnifiedCache.Compress.LutBuild

namespace UnifiedCache.Compress

open UnifiedCache.Base

variable {F : Type} {D : FloatOps F}

/-! ## Histogram -/

/-- A list sorted with the elements of `p` first starts with them. -/
theorem take_countP_eq_filter {α : Type*} (p : α → Bool) : ∀ l : List α,
    l.Pairwise (fun a b => p b = true → p a = true) → l.take (l.countP p) = l.filter p := by
  intro l
  induction l with
  | nil => intro _; rfl
  | cons a l ih =>
    intro h
    obtain ⟨ha, hl⟩ := List.pairwise_cons.mp h
    by_cases hp : p a = true
    · rw [List.countP_cons_of_pos hp, List.take_succ_cons, ih hl, List.filter_cons_of_pos hp]
    · have hnone : ∀ b ∈ l, ¬ p b = true := fun b hb e => hp (ha b hb e)
      have hc : l.countP p = 0 := List.countP_eq_zero.mpr hnone
      rw [List.countP_cons_of_neg hp, hc, List.filter_cons_of_neg hp, List.take_zero,
        List.filter_eq_nil_iff.mpr hnone]

theorem cmpHist_trans (a b c : HistItem F) (h : cmpHist a b = true) (h' : cmpHist b c = true) : cmpHist a c = true := by
  unfold cmpHist at *
  split at h <;> split at h' <;> split <;> simp_all [UInt8.le_iff_toNat_le] <;> omega

theorem cmpHist_total (a b : HistItem F) : (cmpHist a b || cmpHist b a) = true := by
  unfold cmpHist
  split <;> split <;> simp_all [UInt8.le_iff_toNat_le] <;> omega

theorem countFreq_error (m : Mem) (src : Ptr) (srcLen : Nat) : ∀ (k i : Nat) (freq : Nat → Nat) {e : Code},
    srcLen - i = k → countFreq m src srcLen i freq = .error e → e = .errSymbRange := by
  intro k
  induction k with
  | zero =>
    intro i freq e hk h
    unfold countFreq at h
    rw [if_neg (by omega)] at h
    cases h
  | succ k ih =>
    intro i freq e hk h
    unfold countFreq at h
    rw [if_pos (by omega)] at h
    simp only at h
    split at h
    · exact (Except.error.inj h).symm
    · exact ih (i + 1) _ (by omega) h

theorem getHistFromArray_error {m : Mem} {src : Ptr} {srcLen : Nat} {e : Code}
    (h : getHistFromArray D m src srcLen = .error e) : e = .errSymbRange := by
  unfold getHistFromArray at h
  split at h
  · next hc =>
    obtain rfl := Except.error.inj h
    exact countFreq_error m src srcLen _ 0 _ rfl hc
  · cases h

theorem countFreq_spec (m : Mem) (src : Ptr) (srcLen : Nat) : ∀ (k i : Nat) (freq freq' : Nat → Nat), srcLen - i = k →
    countFreq m src srcLen i freq = .ok freq' →
    (∀ s, freq s ≤ freq' s) ∧ ∀ j, i ≤ j → j < srcLen → (m (src + j)).toNat < tsNSymb ∧ 0 < freq' (m (src + j)).toNat := by
  intro k
  induction k with
  | zero =>
    intro i freq freq' hk h
    unfold countFreq at h
    rw [if_neg (by omega)] at h
    obtain rfl := Except.ok.inj h
    exact ⟨fun s => Nat.le_refl _, fun j h1 h2 => by omega⟩
  | succ k ih =>
    intro i freq freq' hk h
    unfold countFreq at h
    rw [if_pos (by omega)] at h
    simp only at h
    split at h
    · cases h
    · next hlt =>
      obtain ⟨hmono, hin⟩ := ih (i + 1) _ freq' (by omega) h
      have hup : ∀ s, freq s ≤ Function.update freq (m (src + i)).toNat (freq (m (src + i)).toNat + 1) s := by
        intro s
        by_cases e : s = (m (src + i)).toNat
        · subst e; simp
        · simp [Function.update_of_ne e]
      refine ⟨fun s => Nat.le_trans (hup s) (hmono s), fun j h1 h2 => ?_⟩
      by_cases e : j = i
      · subst e
        have := hmono (m (src + j)).toNat
        rw [Function.update_self] at this
        exact ⟨by omega, by omega⟩
      · exact hin j (by omega) h2

/-- The sorted items that occur are the first ones. -/
theorem take_nonzero_eq_filter (items : List (HistItem F)) :
    (items.mergeSort cmpHist).take (items.filter fun h => h.freq ≠ 0).length =
      (items.mergeSort cmpHist).filter fun h => h.freq ≠ 0 := by
  have hsorted := List.pairwise_mergeSort cmpHist_trans cmpHist_total items
  have hcount : (items.filter fun h => h.freq ≠ 0).length = (items.mergeSort cmpHist).countP fun h => h.freq ≠ 0 := by
    rw [(List.mergeSort_perm items cmpHist).countP_eq, List.countP_eq_length_filter]
  rw [hcount]
  refine take_countP_eq_filter _ _ (hsorted.imp fun {a b} hab => ?_)
  unfold cmpHist at hab
  split at hab
  · simp only [decide_eq_true_eq] at hab ⊢
    omega
  · next e => simp only [ne_eq, Decidable.not_not] at e; rw [e]; exact id

/-- `S` are the distinct symbols of the histogram, those of the input among them. -/
structure HistOk (S : List UInt8) (hist : Hist F) (m : Mem) (src : Ptr) (srcLen : Nat) : Prop where
  nodup : S.Nodup
  le : S.length ≤ tsNSymb
  symbs : (hist.hist.take hist.nSymb).map (·.symb) = S
  nSymb : hist.nSymb = S.length
  mem : ∀ i, i < srcLen → m (src + i) ∈ S
  head : 0 < S.length → (hist.hist.head?.map (·.symb)).getD 0 ∈ S

theorem histogram_spec {m : Mem} {src : Ptr} {srcLen : Nat} {hist : Hist F}
    (h : getHistFromArray D m src srcLen = .ok hist) : ∃ S, HistOk S hist m src srcLen := by
  unfold getHistFromArray at h
  split at h
  · cases h
  next freq hfreq =>
  obtain ⟨-, hin⟩ := countFreq_spec m src srcLen _ 0 _ freq rfl hfreq
  obtain rfl := Except.ok.inj h
  generalize hitems : ((List.range tsNSymb).map fun symb =>
    (⟨.ofNat symb, freq symb, D.ofFreq (freq symb) srcLen, D.zero⟩ : HistItem F)) = items
  have hperm := List.mergeSort_perm items cmpHist
  have hcount : (items.filter fun h => h.freq ≠ 0).length = (items.mergeSort cmpHist).countP fun h => h.freq ≠ 0 := by
    rw [hperm.countP_eq, List.countP_eq_length_filter]
  have htake := take_nonzero_eq_filter items
  have hsymbs : items.map (·.symb) = (List.range tsNSymb).map UInt8.ofNat := by
    rw [← hitems, List.map_map]
    rfl
  have hnd : (items.map (·.symb)).Nodup := by
    rw [hsymbs]
    decide
  have hndf : (((items.mergeSort cmpHist).filter fun h => h.freq ≠ 0).map (·.symb)).Nodup :=
    ((hperm.map _).nodup_iff.mpr hnd).sublist (List.filter_sublist.map _)
  refine ⟨((items.mergeSort cmpHist).filter fun h => h.freq ≠ 0).map (·.symb), hndf, ?_, by simp only; rw [htake], ?_,
    fun i hi => ?_, fun hpos => ?_⟩
  · rw [List.length_map]
    refine Nat.le_trans (List.length_filter_le _ _) ?_
    rw [hperm.length_eq, ← hitems]
    simp
  · rw [List.length_map]
    exact hcount.trans List.countP_eq_length_filter
  · obtain ⟨h1, h2⟩ := hin i (Nat.zero_le _) hi
    refine List.mem_map.mpr ⟨⟨.ofNat (m (src + i)).toNat, freq (m (src + i)).toNat,
      D.ofFreq (freq (m (src + i)).toNat) srcLen, D.zero⟩, List.mem_filter.mpr ⟨hperm.mem_iff.mpr ?_, ?_⟩, by simp⟩
    · rw [← hitems]
      exact List.mem_map.mpr ⟨_, List.mem_range.mpr h1, rfl⟩
    · simp only [ne_eq, decide_eq_true_eq]
      omega
  · -- the first item is among the first `nSymb`
    rw [← htake] at hpos ⊢
    cases hl : items.mergeSort cmpHist with
    | nil => rw [hl] at hpos; simp at hpos
    | cons x l =>
      rw [hl] at hpos
      cases hn : (items.filter fun h => h.freq ≠ 0).length with
      | zero => rw [hn] at hpos; simp at hpos
      | succ n => simp

/-! ## One walk of the state tree -/

variable {S : List UInt8} {b : Build F} {word : Nat → List UInt8}

/-- The encoder's way from the root: the symbols taken, and the state they lead to. -/
inductive Walk (t : EncTree) : List UInt8 → Nat → Prop
  | root : Walk t [] 0
  | on {w : List UInt8} {q : Nat} (symb : UInt8) : Walk t w q → (t q).nextState symb ≠ 0 →
      Walk t (w ++ [symb]) ((t q).nextState symb)

/-- A state spells the way to it. -/
theorem TreeInv.walk {t : EncTree} {n : Nat} (h : TreeInv S t n word) {w : List UInt8} {q : Nat} (hw : Walk t w q) :
    q ≤ n ∧ word q = w := by
  induction hw with
  | root => exact ⟨Nat.zero_le _, h.root⟩
  | on symb _ hne ih =>
    obtain ⟨hq, hw⟩ := ih
    obtain ⟨h1, h2, -⟩ := h.child _ symb hq hne
    exact ⟨h1, by rw [h2, hw]⟩

/-- A walk ends: no state spells more than seven symbols. -/
theorem walkMark_ends {t : EncTree} {n : Nat} (h : TreeInv S t n word) (symbAt : Nat → UInt8) :
    ∀ (fuel q ip : Nat), q ≤ n → tsItemSize < fuel + (word q).length →
      ∃ mark ip', walkMark t symbAt fuel q ip = some (mark, ip') := by
  intro fuel
  induction fuel with
  | zero =>
    intro q ip hq hfuel
    have := h.len q hq
    omega
  | succ fuel ih =>
    intro q ip hq hfuel
    unfold walkMark
    by_cases hnext : (t q).nextState (symbAt ip) = 0
    · exact ⟨_, _, if_pos hnext⟩
    · obtain ⟨h1, h2, -⟩ := h.child q _ hq hnext
      obtain ⟨mark, ip', he⟩ := ih ((t q).nextState (symbAt ip)) (ip + 1) h1 (by
        rw [h2, List.length_append, List.length_singleton]
        omega)
      exact ⟨mark, ip', (if_neg hnext).trans he⟩

/-- Where a walk ends: in a state with no way on for the symbol there, after the symbols it took. -/
theorem walkMark_stops {t : EncTree} {symbAt : Nat → UInt8} {ip₀ mark ip' : Nat} :
    ∀ (fuel q ip : Nat), walkMark t symbAt fuel q ip = some (mark, ip') → Walk t (chunk symbAt ip₀ ip) q → ip₀ ≤ ip →
      ∃ q', Walk t (chunk symbAt ip₀ ip') q' ∧ (t q').nextState (symbAt ip') = 0 ∧ mark = (t q').mark ∧ ip ≤ ip' := by
  intro fuel
  induction fuel with
  | zero => intro q ip h _ _; cases h
  | succ fuel ih =>
    intro q ip h hw hip
    unfold walkMark at h
    by_cases hnext : (t q).nextState (symbAt ip) = 0
    · simp only [hnext, ↓reduceIte] at h
      obtain ⟨rfl, rfl⟩ := Prod.mk.inj (Option.some.inj h)
      exact ⟨q, hw, hnext, rfl, Nat.le_refl _⟩
    · simp only [hnext, ↓reduceIte] at h
      have hon : Walk t (chunk symbAt ip₀ (ip + 1)) ((t q).nextState (symbAt ip)) := by
        rw [chunk_succ symbAt hip]
        exact .on (symbAt ip) hw hnext
      obtain ⟨q', h1, h2, h3, h4⟩ := ih _ (ip + 1) h hon (by omega)
      exact ⟨q', h1, h2, h3, by omega⟩

theorem walkMark_spec (hB : Built S b word) {symbAt : Nat → UInt8} (hs : ∀ i, symbAt i ∈ S) (ip : Nat) :
    ∃ mark ip', walkMark b.etree symbAt tsEncStateTableSize 0 ip = some (mark, ip') ∧ mark < tsLutSize ∧
      (b.lut mark).word = chunk symbAt ip ip' ∧ ip < ip' ∧ ip' ≤ ip + tsItemSize := by
  obtain ⟨mark, ip', he⟩ := walkMark_ends hB.tree symbAt tsEncStateTableSize 0 ip (Nat.zero_le _)
    (by unfold tsItemSize tsEncStateTableSize; omega)
  obtain ⟨q, hwalk, hnext, rfl, hip⟩ := walkMark_stops tsEncStateTableSize 0 ip he (by rw [chunk_self]; exact .root)
      (Nat.le_refl ip)
  obtain ⟨hq, hw⟩ := hB.tree.walk hwalk
  obtain ⟨hmark, hitem⟩ := hB.stop q hq fun hfull => hfull _ (hs ip') hnext
  have hlen := hB.tree.len q hq
  rw [hw, length_chunk] at hlen
  refine ⟨_, ip', he, hmark, by rw [hitem, hw], ?_, by omega⟩
  -- at the root every symbol leads on
  by_contra hle
  obtain rfl : ip' = ip := by omega
  have hq0 : q = 0 := by
    have := hB.tree.goto q hq
    rw [hw, chunk_self] at this
    exact this.symm
  rw [hq0] at hnext
  exact hB.root _ (hs ip') hnext

/-- A walk reads nothing before its position. -/
theorem walkMark_congr {t : EncTree} {f g : Nat → UInt8} : ∀ (fuel q ip : Nat), (∀ i, ip ≤ i → f i = g i) →
    walkMark t f fuel q ip = walkMark t g fuel q ip := by
  intro fuel
  induction fuel with
  | zero => intro q ip _; rfl
  | succ fuel ih =>
    intro q ip h
    unfold walkMark
    simp only [h ip (Nat.le_refl _)]
    rw [ih _ (ip + 1) fun i hi => h i (by omega)]

/-! ## The encoding loop -/

/-- What the loop has done when it succeeds: the marks written from `opp` spell the stretch of
    `s` from `ip` to `ip'`. -/
structure Encoded (lut : Lut) (s : Nat → UInt8) (dst : Ptr) (pNMark : Nat) (m m' : Mem) (opp opp' ip ip' nMark : Nat)
    (marks : List Nat) : Prop where
  even : marks.length % 2 = 0
  len : opp' = opp + marks.length
  small : ∀ k ∈ marks, k < tsLutSize ∧ (lut k).word.length ≤ tsItemSize ∧ 0 < (lut k).word.length
  bytes : ∀ j, j < marks.length → some (m' (dst + (opp + j))) = (marks[j]?).map UInt8.ofNat
  words : marks.flatMap (fun k => (lut k).word) = chunk s ip ip'
  le : ip ≤ ip'
  count : m.load32 (dst + pNMark) = nMark → nMark + marks.length < 2 ^ 32 →
    m'.load32 (dst + pNMark) = nMark + marks.length

/-- Outside the mark count, the marks and the two bytes past them nothing is written. -/
def EncodeFrame (dst : Ptr) (pNMark opp opp' : Nat) (m m' : Mem) : Prop :=
  ∀ q, (∀ a, (pNMark ≤ a ∧ a < pNMark + 4) ∨ (opp < opp' ∧ opp ≤ a ∧ a < opp' + 2) → q ≠ dst + a) → m' q = m q

theorem store32_marks (m : Mem) (p : Ptr) {mark1 : Nat} (h1 : mark1 < 256) (mark2 : Nat) :
    m.store32 p ((mark2 <<< 8) ||| mark1) p = .ofNat mark1 ∧
      m.store32 p ((mark2 <<< 8) ||| mark1) (p + 1) = .ofNat mark2 := by
  have hx : (mark2 <<< 8) ||| mark1 = 256 * mark2 + mark1 := by
    rw [← Nat.shiftLeft_add_eq_or_of_lt (show mark1 < 2 ^ 8 by omega), Nat.shiftLeft_eq]
    omega
  rw [hx]
  constructor
  · have h := Mem.storeBytes_of_in m p [.ofNat (256 * mark2 + mark1), .ofNat ((256 * mark2 + mark1) / 256),
      .ofNat ((256 * mark2 + mark1) / 65536), .ofNat ((256 * mark2 + mark1) / 16777216)] 0 0 (Nat.le_refl _) (by simp)
    rw [Ptr.add_zero] at h
    unfold Mem.store32
    rw [h]
    apply UInt8.toNat_inj.mp
    simp
  · have h := Mem.storeBytes_of_in m p [.ofNat (256 * mark2 + mark1), .ofNat ((256 * mark2 + mark1) / 256),
      .ofNat ((256 * mark2 + mark1) / 65536), .ofNat ((256 * mark2 + mark1) / 16777216)] 1 0 (by omega) (by simp)
    rw [Ptr.add_zero] at h
    unfold Mem.store32
    rw [h]
    apply UInt8.toNat_inj.mp
    simp
    omega

section Loop

variable {lut : Lut} {getMark : Mem → Nat → Option (Nat × Nat)} {dst src : Ptr} {pNMark opEnd srcLen : Nat} {m₀ : Mem}
  {s : Nat → UInt8}

/-- Mark `k` spells the symbols of `s` from `a` to `c`, at least one and at most seven. -/
def Spells (lut : Lut) (s : Nat → UInt8) (k a c : Nat) : Prop :=
  k < tsLutSize ∧ (lut k).word = chunk s a c ∧ a < c ∧ c ≤ a + tsItemSize

theorem Spells.word_length {k a c : Nat} (h : Spells lut s k a c) :
    (lut k).word.length ≤ tsItemSize ∧ 0 < (lut k).word.length := by
  obtain ⟨_, h2, h3, h4⟩ := h
  rw [h2, length_chunk]
  omega

/-- One more pair of marks in front. -/
theorem Encoded.cons {m m' m'' : Mem} {opp opp' ip ip₁ ip₂ ip' nMark mark1 mark2 : Nat} {marks : List Nat}
    (h : Encoded lut s dst pNMark m' m'' (opp + 2) opp' ip₂ ip' (nMark + 2) marks) (hp : pNMark + 4 ≤ opp)
    (h₁ : Spells lut s mark1 ip ip₁) (h₂ : Spells lut s mark2 ip₁ ip₂)
    (hm' : (m.store32 (dst + opp) ((mark2 <<< 8) ||| mark1)).store32 (dst + pNMark) (nMark + 2) = m')
    (hkeep : ∀ j, j < 2 → m'' (dst + (opp + j)) = m' (dst + (opp + j))) :
    Encoded lut s dst pNMark m m'' opp opp' ip ip' nMark (mark1 :: mark2 :: marks) := by
  have hfirst : ∀ j, j < 2 →
      m' (dst + (opp + j)) = m.store32 (dst + opp) ((mark2 <<< 8) ||| mark1) (dst + (opp + j)) := by
    intro j hj
    rw [← hm', Mem.store32_of_out _ dst (opp + j) pNMark _ (by omega)]
  obtain ⟨hlo, hhi⟩ := store32_marks m (dst + opp) h₁.1 mark2
  rw [Ptr.add_add] at hhi
  refine ⟨?_, ?_, fun k hk => ?_, fun j hj => ?_, ?_, ?_, fun hn hlt => ?_⟩
  · have := h.even
    simp only [List.length_cons]
    omega
  · have := h.len
    simp only [List.length_cons]
    omega
  · rcases List.mem_cons.mp hk with rfl | hk
    · exact ⟨h₁.1, h₁.word_length⟩
    rcases List.mem_cons.mp hk with rfl | hk
    · exact ⟨h₂.1, h₂.word_length⟩
    · exact h.small k hk
  · match j with
    | 0 =>
      have := hkeep 0 (by omega)
      rw [hfirst 0 (by omega)] at this
      rw [this, Nat.add_zero, hlo]
      rfl
    | 1 =>
      rw [hkeep 1 (by omega), hfirst 1 (by omega), hhi]
      rfl
    | j + 2 =>
      have hb := h.bytes j (by simpa using hj)
      rw [show opp + (j + 2) = opp + 2 + j by omega]
      simpa using hb
  · obtain ⟨_, hw₁, hlt₁, _⟩ := h₁
    obtain ⟨_, hw₂, hlt₂, _⟩ := h₂
    rw [List.flatMap_cons, List.flatMap_cons, hw₁, hw₂, h.words, ← List.append_assoc,
      chunk_append s (by omega) (by omega), chunk_append s (by omega) h.le]
  · have := h.le
    have := h₁.2.2.1
    have := h₂.2.2.1
    omega
  · have hn' : m'.load32 (dst + pNMark) = nMark + 2 := by
      rw [← hm']
      exact Mem.load32_store32 _ _ _ (by simp only [List.length_cons] at hlt; omega)
    have := h.count hn' (by simp only [List.length_cons] at hlt; omega)
    rw [this]
    simp only [List.length_cons]
    omega

/-- The source bytes from position `ip` on are still those of `m₀`. -/
def Unread (m₀ m : Mem) (src : Ptr) (srcLen ip : Nat) : Prop := ∀ i, ip ≤ i → i < srcLen → m (src + i) = m₀ (src + i)

theorem encodeLoop_spec (pNMark : Nat)
    (hget : ∀ m ip, Unread m₀ m src srcLen ip → ∃ mark ip', getMark m ip = some (mark, ip') ∧ Spells lut s mark ip ip')
    (hsep : ∀ i a, 1 ≤ i → i < srcLen → a ≤ opEnd → src + i ≠ dst + a) :
    ∀ (k : Nat) (m : Mem) (opp ip nMark : Nat), opEnd - opp ≤ k → pNMark + 4 ≤ opp → Unread m₀ m src srcLen ip →
      ∃ code m' opp', encodeLoop getMark dst pNMark opEnd srcLen m opp ip nMark = some (code, m', opp') ∧
        EncodeFrame dst pNMark opp opp' m m' ∧ opp ≤ opp' ∧ (opp < opp' → opp' < opEnd) ∧
        ((code = .errDstOverflow ∧ ip < srcLen) ∨ code = .tsOk ∧ ∃ marks ip', srcLen ≤ ip' ∧
          Encoded lut s dst pNMark m m' opp opp' ip ip' nMark marks) := by
  intro k
  induction k with
  | zero =>
    intro m opp ip nMark hk hp hun
    unfold encodeLoop
    by_cases hip : ip < srcLen
    · obtain ⟨mark1, ip₁, he₁, -, -, hlt₁, -⟩ := hget m ip hun
      obtain ⟨mark2, ip₂, he₂, -⟩ := hget m ip₁ fun i h1 h2 => hun i (by omega) h2
      rw [if_pos hip, he₁]
      simp only [he₂]
      rw [if_pos (by omega)]
      exact ⟨_, m, opp, rfl, fun q _ => rfl, Nat.le_refl _, fun h => by omega, .inl ⟨rfl, hip⟩⟩
    · rw [if_neg hip]
      refine ⟨_, m, opp, rfl, fun q _ => rfl, Nat.le_refl _, fun h => by omega, .inr ⟨rfl, [], ip, by omega, ?_⟩⟩
      exact ⟨rfl, rfl, by simp, by simp, by simp, Nat.le_refl _, fun h _ => by simpa using h⟩
  | succ k ih =>
    intro m opp ip nMark hk hp hun
    unfold encodeLoop
    by_cases hip : ip < srcLen
    · obtain ⟨mark1, ip₁, he₁, hm₁, hw₁, hlt₁, hle₁⟩ := hget m ip hun
      obtain ⟨mark2, ip₂, he₂, hm₂, hw₂, hlt₂, hle₂⟩ := hget m ip₁ fun i h1 h2 => hun i (by omega) h2
      rw [if_pos hip, he₁]
      simp only [he₂]
      by_cases hfull : opp + 2 ≥ opEnd
      · rw [if_pos hfull]
        exact ⟨_, m, opp, rfl, fun q _ => rfl, Nat.le_refl _, fun h => by omega, .inl ⟨rfl, hip⟩⟩
      · rw [if_neg hfull]
        generalize hm' : (m.store32 (dst + opp) ((mark2 <<< 8) ||| mark1)).store32 (dst + pNMark) (nMark + 2) = m'
        have hstep : EncodeFrame dst pNMark opp (opp + 2) m m' := by
          intro q hq
          rw [← hm', Mem.store32_of_ne _ _ fun a ha => ?_, Mem.store32_of_ne _ _ fun a ha => ?_]
          · rw [Ptr.add_add]
            exact hq _ (.inr (by omega))
          · rw [Ptr.add_add]
            exact hq _ (.inl (by omega))
        have hun' : Unread m₀ m' src srcLen ip₂ := by
          intro i h1 h2
          rw [hstep, hun i (by omega) h2]
          intro a ha
          exact hsep i a (by omega) h2 (by omega)
        obtain ⟨code, m'', opp'', he, hframe, hle, hend, hres⟩ := ih m' (opp + 2) ip₂ (nMark + 2)
          (by omega) (by omega) hun'
        refine ⟨code, m'', opp'', he, ?_, by omega, fun _ => ?_, ?_⟩
        · intro q hq
          rw [hframe q fun a ha => hq a (by omega), hstep q fun a ha => hq a (by omega)]
        · by_cases h : opp + 2 < opp''
          · exact hend h
          · omega
        · rcases hres with ⟨hc, _⟩ | ⟨hc, marks, ip', hip', henc⟩
          · exact .inl ⟨hc, hip⟩
          · refine .inr ⟨hc, mark1 :: mark2 :: marks, ip', hip', ?_⟩
            -- the rest of the loop leaves the two bytes of this pair alone
            have hkeep : ∀ j, j < 2 → m'' (dst + (opp + j)) = m' (dst + (opp + j)) := by
              intro j hj
              refine hframe _ fun a ha => ?_
              rw [Ne, Ptr.add_inj]
              omega
            exact henc.cons (by omega) ⟨hm₁, hw₁, hlt₁, hle₁⟩ ⟨hm₂, hw₂, hlt₂, hle₂⟩ hm' hkeep
    · rw [if_neg hip]
      refine ⟨_, m, opp, rfl, fun q _ => rfl, Nat.le_refl _, fun h => by omega, .inr ⟨rfl, [], ip, by omega, ?_⟩⟩
      exact ⟨rfl, rfl, by simp, by simp, by simp, Nat.le_refl _, fun h _ => by simpa using h⟩

end Loop

end UnifiedCache.Compress
