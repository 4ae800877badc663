/-
  UnifiedCache.Base.Memory — byte-addressed memory made of separate objects.

  A pointer is an object and an offset in it, so that pointers into different objects never
  alias. Memory is total: a read or a write outside the object a program means is a read or
  a write of another address, and staying inside is stated as a frame (what other addresses
  hold does not change, or does not matter).

  - `storeBytes_add`, `storeBytes_of_blk`, `store_add`: what a store leaves at each address
    of its object, and of another one.
  - `load32_store32`: a little-endian word read back.
  - `load32_of_eq`: a word depends on its four bytes only.
  - `chunk`: the values of a stream between two positions; `chunk_append`.
  - `getElem?_flatMap_range`: the rows of a nested loop.
-/

import Mathlib.Algebra.Ring.Nat
import Mathlib.Data.List.Basic
import Mathlib.Logic.Function.Basic

namespace UnifiedCache.Base

@[ext] structure Ptr where
  blk : Nat
  off : Nat
  deriving DecidableEq, Repr

namespace Ptr

instance : HAdd Ptr Nat Ptr := ⟨fun p n => ⟨p.blk, p.off + n⟩⟩

@[simp] theorem add_blk (p : Ptr) (n : Nat) : (p + n).blk = p.blk := rfl

@[simp] theorem add_off (p : Ptr) (n : Nat) : (p + n).off = p.off + n := rfl

@[simp] theorem add_zero (p : Ptr) : p + 0 = p := rfl

theorem add_add (p : Ptr) (a b : Nat) : p + a + b = p + (a + b) := by
  cases p
  show (⟨_, _⟩ : Ptr) = ⟨_, _⟩
  simp [Nat.add_assoc]

@[simp] theorem add_inj (p : Ptr) (a b : Nat) : p + a = p + b ↔ a = b := by
  constructor
  · intro h
    have := congrArg Ptr.off h
    simpa using this
  · intro h
    rw [h]

end Ptr

abbrev Mem := Ptr → UInt8

namespace Mem

def store (m : Mem) (p : Ptr) (b : UInt8) : Mem := Function.update m p b

def storeBytes (m : Mem) (p : Ptr) (l : List UInt8) : Mem := fun q =>
  if q.blk = p.blk ∧ p.off ≤ q.off then (l[q.off - p.off]?).getD (m q) else m q

def loadBytes (m : Mem) (p : Ptr) (n : Nat) : List UInt8 := (List.range n).map fun i => m (p + i)

/-- `memcpy`, and `memmove`: the bytes are read before any is written. -/
def memcpy (m : Mem) (dst src : Ptr) (n : Nat) : Mem := m.storeBytes dst (m.loadBytes src n)

/-- A 32-bit little-endian store. -/
def store32 (m : Mem) (p : Ptr) (x : Nat) : Mem :=
  m.storeBytes p [.ofNat x, .ofNat (x / 256), .ofNat (x / 65536), .ofNat (x / 16777216)]

def load32 (m : Mem) (p : Ptr) : Nat :=
  (m p).toNat + 256 * (m (p + 1)).toNat + 65536 * (m (p + 2)).toNat + 16777216 * (m (p + 3)).toNat

/-- A 16-bit little-endian store. -/
def store16 (m : Mem) (p : Ptr) (x : UInt16) : Mem := m.storeBytes p [x.toUInt8, (x >>> 8).toUInt8]

def load16 (m : Mem) (p : Ptr) : UInt16 := (m p).toUInt16 ||| ((m (p + 1)).toUInt16 <<< 8)

variable (m : Mem) (p q : Ptr) (l : List UInt8) (a k n x : Nat) (b : UInt8)

/-! ## What a store leaves -/

theorem store_add : m.store (p + k) b (p + a) = if a = k then b else m (p + a) := by
  simp [store, Function.update_apply]

theorem store_of_blk {p q : Ptr} (h : q.blk ≠ p.blk) : m.store p b q = m q := by
  have hne : q ≠ p := fun e => h (by rw [e])
  simp [store, Function.update_of_ne hne]

theorem storeBytes_add :
    m.storeBytes (p + k) l (p + a) = if k ≤ a ∧ a < k + l.length then (l[a - k]?).getD 0 else m (p + a) := by
  unfold storeBytes
  simp only [Ptr.add_blk, Ptr.add_off, true_and, Nat.add_le_add_iff_left]
  have hsub : p.off + a - (p.off + k) = a - k := by omega
  rw [hsub]
  by_cases h : k ≤ a
  · by_cases h' : a < k + l.length
    · have hlt : a - k < l.length := by omega
      simp [h, h', List.getElem?_eq_getElem hlt]
    · have hge : l.length ≤ a - k := by omega
      simp [h, h', List.getElem?_eq_none hge]
  · simp [h]

/-- A store leaves every address but its own. -/
theorem storeBytes_of_ne {p q : Ptr} (h : ∀ a, a < l.length → q ≠ p + a) : m.storeBytes p l q = m q := by
  unfold storeBytes
  split
  · next hin =>
    rw [List.getElem?_eq_none]
    · rfl
    by_contra hlt
    refine h (q.off - p.off) (by omega) (Ptr.ext hin.1 ?_)
    rw [Ptr.add_off]
    omega
  · rfl

theorem storeBytes_of_blk {p q : Ptr} (h : q.blk ≠ p.blk) : m.storeBytes p l q = m q := by
  simp [storeBytes, h]

theorem storeBytes_of_out (h : a < k ∨ k + l.length ≤ a) : m.storeBytes (p + k) l (p + a) = m (p + a) := by
  rw [storeBytes_add, if_neg (by omega)]

theorem storeBytes_of_in (h : k ≤ a) (h' : a < k + l.length) :
    m.storeBytes (p + k) l (p + a) = (l[a - k]?).getD 0 := by
  rw [storeBytes_add, if_pos ⟨h, h'⟩]

theorem store32_of_out (h : a < k ∨ k + 4 ≤ a) : m.store32 (p + k) x (p + a) = m (p + a) :=
  storeBytes_of_out m p _ a k h

theorem store32_of_ne {p q : Ptr} (h : ∀ a, a < 4 → q ≠ p + a) : m.store32 p x q = m q := storeBytes_of_ne m _ h

theorem store32_of_blk {p q : Ptr} (h : q.blk ≠ p.blk) : m.store32 p x q = m q := storeBytes_of_blk m _ h

/-! ## Loads -/

@[simp] theorem length_loadBytes : (m.loadBytes p n).length = n := by simp [loadBytes]

theorem getElem?_loadBytes (h : a < n) : (m.loadBytes p n)[a]? = some (m (p + a)) := by
  simp [loadBytes, h]

theorem memcpy_of_in (h : k ≤ a) (h' : a < k + n) : m.memcpy (p + k) q n (p + a) = m (q + (a - k)) := by
  unfold memcpy
  rw [storeBytes_of_in m p _ a k h (by simpa using h'), getElem?_loadBytes m q (a - k) n (by omega)]
  rfl

theorem memcpy_of_out (h : a < k ∨ k + n ≤ a) : m.memcpy (p + k) q n (p + a) = m (p + a) :=
  storeBytes_of_out m p _ a k (by simpa using h)

theorem memcpy_in (h : a < n) : m.memcpy p q n (p + a) = m (q + a) := memcpy_of_in m p q a 0 n (Nat.zero_le a) (by omega)

theorem memcpy_of_off {p q r : Ptr} (h : r.blk ≠ p.blk ∨ r.off < p.off ∨ p.off + n ≤ r.off) : m.memcpy p q n r = m r := by
  refine storeBytes_of_ne m _ fun a ha => ?_
  intro e
  subst e
  rw [length_loadBytes] at ha
  rcases h with h | h | h
  · exact h rfl
  · rw [Ptr.add_off] at h
    omega
  · rw [Ptr.add_off] at h
    omega

theorem load32_store32 (h : x < 2 ^ 32) : (m.store32 p x).load32 p = x := by
  have key : ∀ i, i < 4 → m.store32 p x (p + i) =
      (([.ofNat x, .ofNat (x / 256), .ofNat (x / 65536), .ofNat (x / 16777216)] : List UInt8)[i]?).getD 0 := by
    intro i hi
    exact storeBytes_of_in m p _ i 0 (Nat.zero_le i) (by simpa using hi)
  have h0 := key 0 (by omega)
  rw [Ptr.add_zero] at h0
  unfold load32
  rw [h0, key 1 (by omega), key 2 (by omega), key 3 (by omega)]
  simp
  omega

theorem load16_of_eq {m m' : Mem} {p : Ptr} (h : ∀ a, a < 2 → m (p + a) = m' (p + a)) : m.load16 p = m'.load16 p := by
  have h0 := h 0 (by omega)
  rw [Ptr.add_zero] at h0
  unfold Mem.load16
  rw [h0, h 1 (by omega)]

theorem load32_of_eq {m m' : Mem} {p : Ptr} (h : ∀ a, a < 4 → m (p + a) = m' (p + a)) : m.load32 p = m'.load32 p := by
  have h0 := h 0 (by omega)
  rw [Ptr.add_zero] at h0
  unfold Mem.load32
  rw [h0, h 1 (by omega), h 2 (by omega), h 3 (by omega)]

end Mem

/-! ## Streams -/

/-- The values of `s` from position `a` up to `b`. -/
def chunk {α : Type*} (s : Nat → α) (a b : Nat) : List α := (List.range' a (b - a)).map s

section

variable {α β : Type*} (s : Nat → α) {a b c : Nat}

@[simp] theorem length_chunk : (chunk s a b).length = b - a := by simp [chunk]

@[simp] theorem chunk_self : chunk s a a = [] := by simp [chunk]

theorem chunk_append (h : a ≤ b) (h' : b ≤ c) : chunk s a b ++ chunk s b c = chunk s a c := by
  have hb : b = a + (b - a) := by omega
  have hc : c - a = (b - a) + (c - b) := by omega
  unfold chunk
  rw [hc, ← List.range'_append_1, List.map_append, ← hb]

theorem chunk_succ (h : a ≤ b) : chunk s a (b + 1) = chunk s a b ++ [s b] := by
  rw [← chunk_append s h (Nat.le_succ b)]
  simp [chunk]

theorem getElem?_chunk {i : Nat} (h : i < b - a) : (chunk s a b)[i]? = some (s (a + i)) := by
  simp [chunk, h]

theorem chunk_congr {s' : Nat → α} (h : ∀ i, a ≤ i → i < b → s i = s' i) : chunk s a b = chunk s' a b := by
  unfold chunk
  refine List.map_congr_left fun i hi => ?_
  have := List.mem_range'_1.mp hi
  exact h i this.1 (by omega)

/-- The rows of a nested loop, all of the same length. -/
theorem getElem?_flatMap_range {f : Nat → List α} (c : Nat) (hf : ∀ i, (f i).length = c) : ∀ {k i : Nat}, i < k * c →
    ((List.range k).flatMap f)[i]? = (f (i / c))[i % c]? := by
  intro k
  induction k with
  | zero =>
    intro i hi
    omega
  | succ k ih =>
    intro i hi
    have hlen : ((List.range k).flatMap f).length = k * c := by
      simp [List.length_flatMap, hf]
    rw [Nat.succ_mul] at hi
    rw [List.range_succ, List.flatMap_append, List.flatMap_singleton]
    by_cases h : i < k * c
    · rw [List.getElem?_append_left (by omega), ih h]
    · obtain ⟨r, hr, rfl⟩ : ∃ r, r < c ∧ i = c * k + r := ⟨i - k * c, by omega, by rw [Nat.mul_comm]; omega⟩
      have hsub : c * k + r - k * c = r := by
        rw [Nat.mul_comm c k]
        omega
      rw [List.getElem?_append_right (by omega), hlen, hsub, Nat.mul_add_div (by omega), Nat.div_eq_of_lt hr, Nat.add_zero,
        Nat.mul_add_mod, Nat.mod_eq_of_lt hr]

end

end UnifiedCache.Base
