/-
  UnifiedCache.Compress.OneSymbol — dynamic compression of an input of zeros
  (ucm/store/compress/cc/compress_lib/tunstall.cc).

  The histogram has one item and the state tree is a chain of seven states, so that each mark takes
  seven symbols (`compressDynamic_zeros`). Long inputs on the Tunstall path that need no evaluation.
-/

import Mathlib.Algebra.Field.Rat
import UnifiedCache.Compress.Stream

namespace UnifiedCache.Compress

open UnifiedCache.Base

/-- Exact arithmetic in place of `double`; the exponentials and logarithms of the predefined
    tables are rational approximations. -/
def ratOps : FloatOps Rat where
  zero := 0
  one := 1
  negOne := -1
  add := (· + ·)
  sub := (· - ·)
  mul := (· * ·)
  div := (· / ·)
  lt a b := decide (a < b)
  le a b := decide (a ≤ b)
  ofFreq freq srcLen := freq / srcLen
  expTerm lambda idx := (63 / 64) ^ ((lambda + 1) * idx)
  negLog2 x := 1 / x - 1
  thresh := 6 / 5 / 256
  entropyMax := 99999
  zero_lt_one := by decide

section Zeros

variable {m : Mem} {dst src : Ptr} {n : Nat}

theorem countFreq_zeros : ∀ (k i : Nat) (freq : Nat → Nat), n - i = k → (∀ j, i ≤ j → j < n → m (src + j) = 0) →
    ∃ freq', countFreq m src n i freq = .ok freq' ∧ freq' 0 = freq 0 + k ∧ ∀ s, s ≠ 0 → freq' s = freq s := by
  intro k
  induction k with
  | zero =>
    intro i freq hk _
    unfold countFreq
    exact ⟨freq, if_neg (by omega), rfl, fun s _ => rfl⟩
  | succ k ih =>
    intro i freq hk hz
    have hzero : (m (src + i)).toNat = 0 := by
      rw [hz i (Nat.le_refl _) (by omega)]
      rfl
    obtain ⟨freq', he, h0, hs⟩ := ih (i + 1) (Function.update freq 0 (freq 0 + 1)) (by omega) fun j h1 h2 => hz j (by omega) h2
    refine ⟨freq', ?_, ?_, fun s hne => ?_⟩
    · unfold countFreq
      rw [if_pos (by omega)]
      simp only [hzero]
      rw [if_neg (by decide), he]
    · rw [h0, Function.update_self]
      omega
    · rw [hs s hne, Function.update_of_ne hne]

/-- The one item of the histogram. -/
abbrev zerosItem (n : Nat) : HistItem Rat := ⟨0, n, n / n, 0⟩

theorem getHist_zeros (hpos : 0 < n) (hz : ∀ j, j < n → m (src + j) = 0) :
    ∃ hist, getHistFromArray ratOps m src n = .ok hist ∧ hist.nSymb = 1 ∧ hist.hist.take 1 = [zerosItem n] := by
  obtain ⟨freq, hfreq, h0, hs⟩ := countFreq_zeros n 0 (fun _ => 0) (Nat.sub_zero n) fun j _ h2 => hz j h2
  rw [Nat.zero_add] at h0
  unfold getHistFromArray
  rw [hfreq]
  simp only
  generalize hitems : ((List.range tsNSymb).map fun symb =>
    (⟨.ofNat symb, freq symb, ratOps.ofFreq (freq symb) n, ratOps.zero⟩ : HistItem Rat)) = items
  have hfilter : (items.filter fun h => h.freq ≠ 0) = [zerosItem n] := by
    have hrange : (List.range tsNSymb).filter (fun s => decide (freq s ≠ 0)) = [0] := by
      rw [List.filter_congr (q := fun s => decide (s = 0)) fun s _ => ?_]
      · decide
      · by_cases hs0 : s = 0
        · simp [hs0, h0]
          omega
        · simp [hs0, hs s hs0]
    rw [← hitems, List.filter_map]
    simp only [Function.comp_def]
    rw [hrange]
    simp [h0, zerosItem, ratOps]
  have hperm := (List.mergeSort_perm items cmpHist).filter fun h => decide (h.freq ≠ 0)
  rw [hfilter, List.perm_singleton] at hperm
  have htake := take_nonzero_eq_filter items
  rw [hfilter, hperm] at htake
  rw [hfilter]
  exact ⟨_, rfl, rfl, htake⟩

section Congr

variable {F : Type} (D : FloatOps F)

theorem expandFrom_congr (nSymb state : Nat) (maxItem : LutItem) (maxProb : F) : ∀ (l l' : List (HistItem F)),
    l.map (fun h => (h.symb, h.prob)) = l'.map (fun h => (h.symb, h.prob)) → ∀ (idx : Nat) (remProb : F) (mark : Nat)
      (b : Build F), expandFrom D nSymb state maxItem maxProb l idx remProb mark b =
        expandFrom D nSymb state maxItem maxProb l' idx remProb mark b := by
  intro l
  induction l with
  | nil =>
    intro l' hl
    rw [List.map_nil, eq_comm, List.map_eq_nil_iff] at hl
    rw [hl]
    exact fun _ _ _ _ => rfl
  | cons h rest ih =>
    intro l' hl idx remProb mark b
    cases l' with
    | nil => cases hl
    | cons h' rest' =>
      obtain ⟨hhead, htail⟩ := List.cons.inj hl
      obtain ⟨hs, hp⟩ := Prod.mk.inj hhead
      unfold expandFrom
      simp only [hs, hp, ih rest' htail]

/-- The table build looks at nothing but the symbols that occur, and their probabilities. -/
theorem buildLoop_congr {hist hist' : Hist F} (hn : hist.nSymb = hist'.nSymb)
    (ht : (hist.hist.take hist.nSymb).map (fun h => (h.symb, h.prob)) =
      (hist'.hist.take hist'.nSymb).map fun h => (h.symb, h.prob)) : ∀ (fuel lutSize : Nat) (b : Build F),
      buildLoop D hist fuel lutSize b = buildLoop D hist' fuel lutSize b := by
  intro fuel
  induction fuel with
  | zero => intro lutSize b; rfl
  | succ fuel ih =>
    intro lutSize b
    unfold buildLoop
    simp only [ih, hn]
    rw [hn] at ht
    simp only [expandFrom_congr D _ _ _ _ _ _ ht]

end Congr

/-- Whether a build has ended with the state tree of one symbol: a chain of seven states. -/
def isChain : Option (Code × Build Rat) → Bool
  | some (.tsOk, b) => decide ((b.etree 7).mark = 0 ∧ ∀ q : Fin 8, (b.etree q).nextState 0 = if q.val < 7 then q.val + 1 else 0)
  | _ => false

theorem buildLut_single : isChain (buildLut ratOps ⟨[⟨0, 1, 1, 0⟩], 1⟩) = true := by decide +kernel

theorem isChain_walk {b : Build Rat} (h : isChain (some (.tsOk, b)) = true) {symbAt : Nat → UInt8} (hs : ∀ i, symbAt i = 0)
    (ip : Nat) : walkMark b.etree symbAt tsEncStateTableSize 0 ip = some (0, ip + 7) := by
  unfold isChain at h
  rw [decide_eq_true_eq] at h
  obtain ⟨hmark, hnext⟩ := h
  -- from state `q` the walk takes the `7 - q` symbols that are left of the word
  have hgo : ∀ (k q ip fuel : Nat), q + k = 7 → k < fuel → walkMark b.etree symbAt fuel q ip = some (0, ip + k) := by
    intro k
    induction k with
    | zero =>
      intro q ip fuel hq hf
      obtain ⟨fuel, rfl⟩ : ∃ f, fuel = f + 1 := ⟨fuel - 1, by omega⟩
      obtain rfl : q = 7 := by omega
      have h7 : (b.etree 7).nextState 0 = 0 := hnext 7
      unfold walkMark
      simp only [hs]
      rw [if_pos h7, hmark]
      rfl
    | succ k ih =>
      intro q ip fuel hq hf
      obtain ⟨fuel, rfl⟩ : ∃ f, fuel = f + 1 := ⟨fuel - 1, by omega⟩
      have hq7 : (b.etree q).nextState 0 = q + 1 := by
        have := hnext ⟨q, by omega⟩
        rwa [if_pos (show q < 7 by omega)] at this
      unfold walkMark
      simp only [hs, hq7]
      rw [if_neg (Nat.succ_ne_zero q), ih (q + 1) (ip + 1) fuel (by omega) (by omega)]
      congr 2
      omega
  exact hgo 7 0 ip tsEncStateTableSize rfl (by decide)

/-- An encoder whose marks all take `c` symbols. -/
theorem encodeLoop_stride (getMark : Mem → Nat → Option (Nat × Nat)) (pNMark mark : Nat) {opEnd c : Nat} {m₀ : Mem}
    (hget : ∀ m ip, Unread m₀ m src n ip → getMark m ip = some (mark, ip + c))
    (hsep : ∀ i a, 1 ≤ i → i < n → a ≤ opEnd → src + i ≠ dst + a) (hc : 0 < c) (hcnt : pNMark + 3 ≤ opEnd) :
    ∀ (k : Nat) (m : Mem) (opp ip nMark : Nat), n ≤ ip + 2 * c * k → opp + 2 * k < opEnd → Unread m₀ m src n ip →
      ∃ m' opp', encodeLoop getMark dst pNMark opEnd n m opp ip nMark = some (.tsOk, m', opp') ∧ opp' ≤ opp + 2 * k := by
  intro k
  induction k with
  | zero =>
    intro m opp ip nMark hn _ _
    unfold encodeLoop
    exact ⟨m, opp, if_neg (by omega), Nat.le_refl _⟩
  | succ k ih =>
    intro m opp ip nMark hn hend hun
    unfold encodeLoop
    by_cases hip : ip < n
    · have h1 := hget m ip hun
      have h2 := hget m (ip + c) fun i hi hin => hun i (by omega) hin
      rw [if_pos hip, h1]
      simp only [h2]
      rw [if_neg (by omega)]
      have hun' : Unread m₀ ((m.store32 (dst + opp) ((mark <<< 8) ||| mark)).store32 (dst + pNMark) (nMark + 2)) src n
          (ip + c + c) := by
        intro i hi hin
        rw [Mem.store32_of_ne _ _ fun a ha => ?_, Mem.store32_of_ne _ _ fun a ha => ?_, hun i (by omega) hin]
        · rw [Ptr.add_add]
          exact hsep i _ (by omega) hin (by omega)
        · rw [Ptr.add_add]
          exact hsep i _ (by omega) hin (by omega)
      obtain ⟨m', opp', he, hle⟩ := ih _ (opp + 2) (ip + c + c) (nMark + 2)
        (by rw [Nat.mul_succ] at hn; omega) (by omega) hun'
      exact ⟨m', opp', he, by omega⟩
    · exact ⟨m, opp, if_neg hip, by omega⟩

/-- An input of zeros that fits takes one mark for seven symbols. -/
theorem compressDynamic_zeros {k dstLen : Nat} (hap : Apart dst src dstLen n) (hpos : 0 < n) (hmax : n < 2 ^ 32)
    (hz : ∀ j, j < n → m (src + j) = 0) (hk : n ≤ 14 * k) (hroom : Header.dynamicLen + 2 * k < dstLen) :
    ∃ out, tunstallCompressDynamic ratOps m dst dstLen src n = some out ∧ out.code = .tsOk ∧
      out.dstLen ≤ Header.dynamicLen + 2 * k := by
  have h2057 : Header.dynamicLen = 2057 := rfl
  have h2048 : tsLutBytes = 2048 := rfl
  obtain ⟨hist, hh, hn1, htake⟩ := getHist_zeros hpos hz
  obtain ⟨S, hS⟩ := histogram_spec hh
  obtain ⟨b, word, hb, hB, hcheck⟩ := buildLut_spec (D := ratOps) hist hS.nodup (List.length_pos_of_mem (hS.mem 0 hpos)) hS.le
    hS.nSymb hS.symbs
  have hchain : isChain (some (.tsOk, b)) = true := by
    rw [← buildLut_single, ← hb]
    congr 1
    refine buildLoop_congr ratOps hn1 ?_ _ _ _
    rw [hn1, htake]
    have : ((n : Rat) / n) = 1 := div_self (by exact_mod_cast hpos.ne')
    simp [this]
  have hmf : (hist.hist.head?.map (·.symb)).getD 0 = 0 := by
    cases hl : hist.hist with
    | nil =>
      rw [hl] at htake
      cases htake
    | cons x l =>
      rw [hl] at htake
      obtain rfl := (List.cons.inj htake).1
      rfl
  unfold tunstallCompressDynamic
  rw [if_neg (by omega), if_neg (by omega)]
  simp only [hh, hb, hcheck, hmf, ne_eq, not_true_eq_false, ↓reduceIte]
  rw [getHeaderLength_dynamic (dynHeader_mode m dst b.lut n)]
  unfold encodeDynamic
  generalize hm₀ : (dynHeader m dst b.lut n).store32 (dst + Header.dynNMark) 0 = m₀
  have hz₀ : ∀ i, i < n → m₀ (src + i) = 0 := by
    intro i hi
    rw [← hm₀, Mem.store32_of_ne _ _ fun a ha => ?_, dynHeader_of_ne _ _ _ fun a ha => hap.header i a hi ha, hz i hi]
    rw [Ptr.add_add]
    exact hap.header i _ hi (by unfold Header.dynNMark; omega)
  obtain ⟨m', opp', he, hle⟩ := encodeLoop_stride (getMarkByInputStream b.etree 0 src n) Header.dynNMark 0
    (fun m ip hun => by
      unfold getMarkByInputStream
      rw [walkMark_congr (g := fun _ => 0) _ _ _ fun i hi => ?_]
      · exact isChain_walk hchain (fun _ => rfl) ip
      · split
        · next hlt => rw [hun i hi hlt, hz₀ i hlt]
        · rfl)
    hap.body (by decide : 0 < 7) (by unfold Header.dynNMark; omega) k m₀ Header.dynamicLen 0 0
    (by omega) hroom fun _ _ _ => rfl
  rw [he]
  exact ⟨_, rfl, rfl, hle⟩

end Zeros

end UnifiedCache.Compress
