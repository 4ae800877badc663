/-
  UnifiedCache.HashRetrieval.Distance — the score of a block
  (ucm/sparse/gsa_on_device/csrc/cuda/hash_retrieval/cpy/hash_retrieval_backend.cpp: the vector helpers,
  and the loop of `worker_loop` over the keys of a block).

  The distance of a key is summed over vectors of 16 bytes and a tail, and is the Hamming distance over
  all bytes on each architecture (`keySum_eq`). The score of a block starts at `UINT16_MAX`, and the loop
  ends at a key of distance zero: it is the least distance, or `UINT16_MAX` where that is larger
  (`blockScore_eq`). A sum that does not fit `int` is undefined (`none`).
-/

import Mathlib.Algebra.Order.Ring.WithTop
import Mathlib.Data.Nat.Cast.Order.Ring
import Mathlib.Data.List.MinMax
import Mathlib.Order.Lattice.Nat
import UnifiedCache.Base.Popcount

namespace UnifiedCache.HashRetrieval

open UnifiedCache.Base

inductive Arch where
  | neon
  | x86
  | other
  deriving DecidableEq

def vecSize : Nat := 16

/-- `vec_popcnt_xor_sum16`, and `vec_popcnt_xor_sum16_vec`. -/
def vecPopcntXorSum16 (arch : Arch) (a b : List UInt8) : Nat :=
  match arch with
  -- `vaddvq_u8` adds bytes
  | .neon => ((xorBytes a b).map byteOnes).sum % 2 ^ 8
  | .x86 => (popcount 64 (loaded ((xorBytes a b).take 8)) + popcount 64 (loaded ((xorBytes a b).drop 8))) % 2 ^ 16
  | .other => (xorBytes a b).foldl (fun s x => (s + popcount 32 x.toNat) % 2 ^ 16) 0

/-- `q_ptr[tail_start_ + t] ^ k_base[tail_start_ + t]`, counted as an `unsigned`. -/
def tailSum (q k : List UInt8) : Nat := ((xorBytes q k).map fun x => popcount 32 x.toNat).sum

/-- The sum over the vectors, and over the tail. -/
def keySum (arch : Arch) (dim : Nat) (q k : List UInt8) : Nat :=
  let vecPerDim := dim / vecSize
  let tailStart := vecPerDim * vecSize
  (List.range vecPerDim).foldl
      (fun sum v => sum + vecPopcntXorSum16 arch ((q.drop (v * vecSize)).take vecSize) ((k.drop (v * vecSize)).take vecSize)) 0 +
    tailSum (q.drop tailStart) (k.drop tailStart)

def uint16Max : Nat := 65535

/-- The loop over the keys of a block. -/
def blockScore (arch : Arch) (dim : Nat) (q : List UInt8) (score : Nat) : List (List UInt8) → Option Nat
  | [] => some score
  | k :: ks =>
    let sum := keySum arch dim q k
    if 2 ^ 31 ≤ sum then none
    else if sum < score then if sum = 0 then some 0 else blockScore arch dim q sum ks
    else blockScore arch dim q score ks

variable {arch : Arch} {dim : Nat} {q k : List UInt8}

theorem popcount_byte (x : UInt8) : popcount 32 x.toNat = byteOnes x := popcount_of_lt (w := 8) (v := 24) x.toNat_lt

theorem tailSum_eq (q k : List UInt8) : tailSum q k = hamming q k := by
  unfold tailSum hamming
  simp only [popcount_byte]

theorem foldl_ones (l : List UInt8) (s : Nat) (h : s + 8 * l.length < 2 ^ 16) :
    l.foldl (fun s x => (s + popcount 32 x.toNat) % 2 ^ 16) s = s + (l.map byteOnes).sum := by
  induction l generalizing s with
  | nil => rfl
  | cons x l ih =>
    have hx := byteOnes_le x
    rw [List.length_cons] at h
    rw [List.foldl_cons, popcount_byte, Nat.mod_eq_of_lt (by omega), ih _ (by omega), List.map_cons, List.sum_cons, Nat.add_assoc]

/-- A vector is counted right on each architecture. -/
theorem vecPopcntXorSum16_eq (arch : Arch) {a b : List UInt8} (ha : a.length = vecSize) (hb : b.length = vecSize) :
    vecPopcntXorSum16 arch a b = hamming a b := by
  have hlen : (xorBytes a b).length = 16 := (length_xorBytes (ha.trans hb.symm)).trans ha
  have hle : hamming a b ≤ 128 := by
    have := hamming_le (ha.trans hb.symm)
    rw [ha] at this
    exact this
  cases arch with
  | neon => exact Nat.mod_eq_of_lt (by show hamming a b < 2 ^ 8; omega)
  | x86 =>
    have hlow : popcount 64 (loaded ((xorBytes a b).take 8)) = (((xorBytes a b).take 8).map byteOnes).sum := by
      rw [← popcount_loaded, List.length_take, hlen]
      rfl
    have hhigh : popcount 64 (loaded ((xorBytes a b).drop 8)) = (((xorBytes a b).drop 8).map byteOnes).sum := by
      rw [← popcount_loaded, List.length_drop, hlen]
    have hsum : (((xorBytes a b).take 8).map byteOnes).sum + (((xorBytes a b).drop 8).map byteOnes).sum = hamming a b := by
      rw [← List.sum_append, ← List.map_append, List.take_append_drop]
      rfl
    simp only [vecPopcntXorSum16, hlow, hhigh, hsum]
    exact Nat.mod_eq_of_lt (by omega)
  | other =>
    refine (foldl_ones _ 0 (by omega)).trans ?_
    rw [Nat.zero_add]
    rfl

theorem vecSum_eq (arch : Arch) (n : Nat) (hq : n * vecSize ≤ q.length) (hk : n * vecSize ≤ k.length) :
    (List.range n).foldl
      (fun sum v => sum + vecPopcntXorSum16 arch ((q.drop (v * vecSize)).take vecSize) ((k.drop (v * vecSize)).take vecSize)) 0 =
      hamming (q.take (n * vecSize)) (k.take (n * vecSize)) := by
  induction n with
  | zero =>
    rw [Nat.zero_mul]
    rfl
  | succ n ih =>
    rw [Nat.succ_mul] at hq hk
    rw [List.range_succ, List.foldl_append, ih (by omega) (by omega), List.foldl_cons, List.foldl_nil, Nat.succ_mul,
      List.take_add, List.take_add,
      hamming_append (by rw [List.length_take, List.length_take, Nat.min_eq_left (by omega), Nat.min_eq_left (by omega)]),
      vecPopcntXorSum16_eq arch]
    · rw [List.length_take, List.length_drop]
      omega
    · rw [List.length_take, List.length_drop]
      omega

/-- The sum over the vectors and the tail is the distance over all bytes. -/
theorem keySum_eq (arch : Arch) (hq : q.length = dim) (hk : k.length = dim) : keySum arch dim q k = hamming q k := by
  have hle : dim / vecSize * vecSize ≤ dim := Nat.div_mul_le_self _ _
  simp only [keySum]
  rw [vecSum_eq arch _ (hq.symm ▸ hle) (hk.symm ▸ hle), tailSum_eq, ← hamming_take_drop _ (hq.trans hk.symm)]

/-! ## The score of a block -/

/-- Up to the first key that is the query, no distance is too large for `int`. -/
def Counted (q : List UInt8) : List (List UInt8) → Prop
  | [] => True
  | k :: ks => hamming q k < 2 ^ 31 ∧ (hamming q k = 0 ∨ Counted q ks)

/-- The least distance from the query to a key (`⊤` where there is none). -/
def leastDistance (q : List UInt8) (keys : List (List UInt8)) : WithTop Nat := (keys.map (hamming q)).minimum

theorem leastDistance_cons (q k : List UInt8) (ks : List (List UInt8)) :
    leastDistance q (k :: ks) = min (hamming q k : WithTop Nat) (leastDistance q ks) := List.minimum_cons _ _

/-- The loop gives the least distance, or the score it starts with where that is smaller. -/
theorem blockScore_min {keys : List (List UInt8)} (hq : q.length = dim) (hkeys : ∀ k, k ∈ keys → k.length = dim)
    (h : Counted q keys) {score : Nat}
    (hpos : 0 < score) : ∃ r, blockScore arch dim q score keys = some r ∧ (r : WithTop Nat) = min
    (score : WithTop Nat) (leastDistance q keys) := by
  induction keys generalizing score with
  | nil => exact ⟨score, rfl, (min_eq_left le_top).symm⟩
  | cons k ks ih =>
    obtain ⟨hfit, hrest⟩ := h
    have hsum : keySum arch dim q k = hamming q k := keySum_eq arch hq (hkeys k List.mem_cons_self)
    have hkeys : ∀ k, k ∈ ks → k.length = dim := fun k hk => hkeys k (List.mem_cons_of_mem _ hk)
    simp only [blockScore, hsum]
    rw [if_neg (by omega), leastDistance_cons]
    by_cases hlt : hamming q k < score
    · have hmin : min (score : WithTop Nat) (min (hamming q k : WithTop Nat) (leastDistance q ks)) = min
          (hamming q k : WithTop Nat) (leastDistance q ks) :=
        min_eq_right (le_trans (min_le_left _ _) (by exact_mod_cast hlt.le))
      rw [if_pos hlt, hmin]
      by_cases hzero : hamming q k = 0
      · rw [if_pos hzero, hzero]
        exact ⟨0, rfl, (min_eq_left (WithTop.coe_le_iff.mpr fun _ _ => Nat.zero_le _)).symm⟩
      · rw [if_neg hzero]
        exact ih hkeys (hrest.resolve_left hzero) (Nat.pos_of_ne_zero hzero)
    · have hmin : min (score : WithTop Nat) (min (hamming q k : WithTop Nat) (leastDistance q ks)) = min
          (score : WithTop Nat) (leastDistance q ks) := by
        have hle : (score : WithTop Nat) ≤ (hamming q k : WithTop Nat) := by exact_mod_cast Nat.le_of_not_lt hlt
        rw [← min_assoc, min_eq_left hle]
      rw [if_neg hlt, hmin]
      exact ih hkeys (hrest.resolve_left (by omega)) hpos

/-- The loop comes to a distance that does not fit. -/
theorem blockScore_none {keys : List (List UInt8)} (hq : q.length = dim) (hkeys : ∀ k, k ∈ keys → k.length = dim)
    (h : ¬ Counted q keys) {score : Nat}
    (hpos : 0 < score) : blockScore arch dim q score keys = none := by
  induction keys generalizing score with
  | nil => exact absurd trivial h
  | cons k ks ih =>
    have hsum : keySum arch dim q k = hamming q k := keySum_eq arch hq (hkeys k List.mem_cons_self)
    have hkeys : ∀ k, k ∈ ks → k.length = dim := fun k hk => hkeys k (List.mem_cons_of_mem _ hk)
    simp only [blockScore, hsum]
    by_cases hfit : 2 ^ 31 ≤ hamming q k
    · rw [if_pos hfit]
    · have hzero : hamming q k ≠ 0 := fun e => h ⟨by omega, .inl e⟩
      have hrest : ¬ Counted q ks := fun hc => h ⟨by omega, .inr hc⟩
      rw [if_neg hfit, if_neg hzero, ih hkeys hrest (Nat.pos_of_ne_zero hzero), ih hkeys hrest hpos, ite_self]

/-- The score that the row is sorted by. -/
theorem blockScore_eq (arch : Arch) {keys : List (List UInt8)} (hq : q.length = dim) (hkeys : ∀ k, k ∈ keys → k.length = dim)
    (h : Counted q keys) :
    ∃ r, blockScore arch dim q uint16Max keys = some r ∧ (r : WithTop Nat) = min
    (uint16Max : WithTop Nat) (leastDistance q keys) :=
  blockScore_min hq hkeys h (by decide)

theorem blockScore_isSome (arch : Arch) {keys : List (List UInt8)} (hq : q.length = dim)
    (hkeys : ∀ k, k ∈ keys → k.length = dim) :
    (blockScore arch dim q uint16Max keys).isSome ↔ Counted q keys := by
  constructor
  · intro h
    by_contra hne
    rw [blockScore_none hq hkeys hne (by decide)] at h
    cases h
  · intro h
    obtain ⟨r, hr, -⟩ := blockScore_eq arch hq hkeys h
    rw [hr]
    rfl

end UnifiedCache.HashRetrieval
