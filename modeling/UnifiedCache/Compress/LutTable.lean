/-
  UnifiedCache.Compress.LutTable — what `ts_build_lut` promises the encoder and the decoder, for
  every histogram of 1 to 64 symbols and every sequence of choices.

  `Complete`: fewer than 512 states; no mark of 256 or more, and nothing written outside the two
  tables; in a state from which some symbol does not lead on, the mark's item spells the way from the
  root, at most seven symbols, and this is where the encoder's walks stop; the items taken are the
  first ones, and the check accepts them.

  Proved (`table_construction`): every build of choices ends without an error and is `Complete`, and so
  is the code's build under any floating-point arithmetic; there the root is expanded. The histograms
  that the codec builds tables for are proper (`getHistFromArray_proper`, `initPredefProbs_proper`).
-/

import UnifiedCache.Compress.Stream

namespace UnifiedCache.Compress

open UnifiedCache.Base

variable {F : Type} {D : FloatOps F}

/-- A histogram of 1 to 64 symbols, each listed once. -/
structure Hist.Proper (hist : Hist F) : Prop where
  pos : 1 ≤ hist.nSymb
  le : hist.nSymb ≤ tsNSymb
  length : hist.symbs.length = hist.nSymb
  nodup : hist.symbs.Nodup

theorem getHistFromArray_proper {m : Mem} {src : Ptr} {srcLen : Nat} {hist : Hist F} (hpos : 0 < srcLen)
    (h : getHistFromArray D m src srcLen = .ok hist) : hist.Proper := by
  obtain ⟨S, hS⟩ := histogram_spec h
  have hsymbs : hist.symbs = S := hS.symbs
  have hne : 0 < S.length := List.length_pos_of_mem (hS.mem 0 hpos)
  refine ⟨?_, ?_, ?_, ?_⟩
  · rw [hS.nSymb]
    exact hne
  · rw [hS.nSymb]
    exact hS.le
  · rw [hsymbs, hS.nSymb]
  · rw [hsymbs]
    exact hS.nodup

theorem initPredefProbs_proper {lambda : Nat} {hist : Hist F} (h : initPredefProbs D tsNSymbPredef lambda = .ok hist) :
    hist.Proper := by
  obtain ⟨hn, hs⟩ := initPredefProbs_spec h
  have hsymbs : hist.symbs = predefSymbs := hs
  refine ⟨?_, ?_, ?_, ?_⟩
  · rw [hn]
    decide
  · rw [hn]
    decide
  · rw [hsymbs, hn]
  · rw [hsymbs]
    decide

/-- What a finished build of the symbols `S` leaves. -/
structure Complete (S : List UInt8) (b : Build F) : Prop where
  /-- States are numbered from 0 to `newState`. -/
  states : b.newState + 1 < tsEncStateTableSize
  next_le : ∀ q s, (b.etree q).nextState s ≤ b.newState
  bounds : InBounds b
  short : ∀ w q, Walk b.etree w q → q ≤ b.newState ∧ w.length ≤ tsItemSize
  stop : ∀ w q, Walk b.etree w q → (∃ s ∈ S, (b.etree q).nextState s = 0) → (b.lut (b.etree q).mark).word = w
  /-- The encoder's walk over symbols of the histogram stops, and its mark spells what it took. -/
  walks : ∀ symbAt : Nat → UInt8, (∀ i, symbAt i ∈ S) → ∀ ip, ∃ mark ip',
    walkMark b.etree symbAt tsEncStateTableSize 0 ip = some (mark, ip') ∧ mark < tsLutSize ∧ ip ≤ ip' ∧
      (b.lut mark).word = chunk symbAt ip ip'
  filled : ∃ k ≤ tsLutSize, (∀ m, m < k → 0 < (b.lut m).c.toNat ∧ (b.lut m).c.toNat ≤ tsItemSize) ∧
    ∀ m, k ≤ m → (b.lut m).c = 0
  check : checkLut b.lut = .tsOk

variable {S : List UInt8} {b : Build F} {word : Nat → List UInt8} {l : Nat}

theorem Grown.filled (h : Grown S b word l) : ∃ k ≤ tsLutSize,
    (∀ m, m < k → 0 < (b.lut m).c.toNat ∧ (b.lut m).c.toNat ≤ tsItemSize) ∧ ∀ m, k ≤ m → (b.lut m).c = 0 := by
  have hblank : ∀ m, l ≤ m → (b.lut m).c = 0 := fun m hm => (h.marks.blank m (by omega)).1
  by_cases hused : ∀ m, m < l → (b.lut m).c ≠ 0
  · refine ⟨l, h.size.2, fun m hm => ⟨?_, ?_⟩, hblank⟩
    · rw [← length_word]
      exact List.length_pos_iff.mpr fun e => hused m hm (word_eq_nil.mp e)
    · obtain ⟨q, hq, -, hw, -⟩ := h.marks.item m hm
      rw [← length_word, hw]
      exact h.tree.len q hq
  · -- the root has not been expanded, and its item is empty
    have hl : l = 1 := h.used.resolve_right hused
    refine ⟨0, Nat.zero_le _, fun m hm => absurd hm (Nat.not_lt_zero m), fun m _ => ?_⟩
    by_cases hm : m < l
    · obtain rfl : m = 0 := by omega
      by_contra h0
      exact hused fun i hi => by
        obtain rfl : i = 0 := by omega
        exact h0
    · exact hblank m (by omega)

theorem Grown.stop (h : Grown S b word l) {w : List UInt8} {q : Nat} (hw : Walk b.etree w q)
    (hs : ∃ s ∈ S, (b.etree q).nextState s = 0) : (b.lut (b.etree q).mark).word = w := by
  obtain ⟨hq, hword⟩ := h.tree.walk hw
  obtain ⟨s, hmem, hnext⟩ := hs
  rw [← hword]
  exact (h.marks.stop q hq id fun hfull => hfull s hmem hnext).2

theorem Grown.complete (h : Grown S b word l) (hb : InBounds b) : Complete S b := by
  refine ⟨?_, fun q s => ?_, hb, fun w q hw => ?_, fun w q hw hs => h.stop hw hs, fun symbAt hs ip => ?_, h.filled, h.check⟩
  · have := h.states_lt
    omega
  · by_cases hq : q ≤ b.newState
    · by_cases hnext : (b.etree q).nextState s = 0
      · omega
      · exact (h.tree.child q s hq hnext).1
    · rw [h.tree.fresh q s (by omega)]
      exact Nat.zero_le _
  · obtain ⟨hq, hword⟩ := h.tree.walk hw
    exact ⟨hq, hword ▸ h.tree.len q hq⟩
  · obtain ⟨mark, ip', he⟩ := walkMark_ends h.tree symbAt tsEncStateTableSize 0 ip (Nat.zero_le _)
      (by unfold tsItemSize tsEncStateTableSize; omega)
    obtain ⟨q, hw, hnext, rfl, hip⟩ := walkMark_stops tsEncStateTableSize 0 ip he (by rw [chunk_self]; exact .root)
        (Nat.le_refl ip)
    exact ⟨_, ip', he, hb.mark q, hip, h.stop hw ⟨_, hs ip', hnext⟩⟩

theorem Complete.of_skeleton (h : Complete S b.skeleton) : Complete S b :=
  ⟨h.states, h.next_le, ⟨h.bounds.lut, h.bounds.etree, h.bounds.mark⟩, h.short, h.stop, h.walks, h.filled, h.check⟩

/-- Construction: every sequence of choices gives a complete table, and the code's build is one. -/
theorem table_construction (hist : Hist F) (hproper : hist.Proper) :
    (∀ choices : Nat → Option Choice, ∃ b, buildChosen hist.symbs choices = some (.tsOk, b) ∧ Complete hist.symbs b) ∧
      ∀ D : FloatOps F, ∃ b, buildLut D hist = some (.tsOk, b) ∧ Complete hist.symbs b ∧ Full hist.symbs b.etree 0 := by
  have hpos : 1 ≤ hist.symbs.length := hproper.length ▸ hproper.pos
  have hle : hist.symbs.length ≤ tsNSymb := hproper.length ▸ hproper.le
  have hbuild := buildChosen_spec hproper.nodup hpos hle
  refine ⟨fun choices => ?_, fun D => ?_⟩
  · obtain ⟨b, word, l, he, hg, hin, -⟩ := hbuild choices
    exact ⟨b, he, hg.complete hin⟩
  · obtain ⟨choices, hchosen, hfirst⟩ := buildLut_chosen D hist hproper.length
    obtain ⟨b₀, word, l, he, hg, hin, hroot⟩ := hbuild choices
    rw [he] at hchosen
    obtain ⟨⟨code, b⟩, hb, heq⟩ := Option.map_eq_some_iff.mp hchosen.symm
    obtain ⟨rfl, rfl⟩ := Prod.mk.inj heq
    rw [searchLargestItem_init] at hfirst
    exact ⟨b, hb, (hg.complete hin).of_skeleton, (hg.built (hroot hfirst)).root⟩

def twoSymbols : Hist Rat := ⟨[⟨5, 3, 3 / 4, 0⟩, ⟨9, 1, 1 / 4, 0⟩], 2⟩

theorem table_construction_two_symbols :
    (∀ choices : Nat → Option Choice, ∃ b, buildChosen twoSymbols.symbs choices = some (.tsOk, b) ∧ Complete twoSymbols.symbs b) ∧
      ∀ D : FloatOps Rat, ∃ b, buildLut D twoSymbols = some (.tsOk, b) ∧ Complete twoSymbols.symbs b ∧
        Full twoSymbols.symbs b.etree 0 :=
  table_construction twoSymbols ⟨by decide, by decide, rfl, by decide⟩

end UnifiedCache.Compress
