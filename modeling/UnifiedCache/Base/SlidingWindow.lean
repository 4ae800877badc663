/-
  UnifiedCache.Base.SlidingWindow — the last items of a stream, kept in a queue.

  A queue of at most `w` items drops its oldest item when a new one finds it full.

  - `slide_rtake`: pushed one by one, the queue is the last `w` items of the stream.
  - `countP_slide`: how a count over the queue changes with a push, so that it can be kept beside it.
-/

import Mathlib.Data.List.DropRight

namespace UnifiedCache.Base

variable {α : Type*}

/-- The queue once `x` has come. -/
def slide (w : Nat) (q : List α) (x : α) : List α := (if q.length = w then q.tail else q) ++ [x]

theorem length_rtake (n : Nat) (l : List α) : (l.rtake n).length = min n l.length := by
  rw [List.rtake, List.length_drop]
  omega

theorem rtake_min (n : Nat) (l : List α) : l.rtake (min n l.length) = l.rtake n := by
  simp only [List.rtake]
  congr 1
  omega

theorem slide_rtake {w : Nat} (hw : 0 < w) (l : List α) (x : α) : slide w (l.rtake w) x = (l ++ [x]).rtake w := by
  obtain ⟨n, rfl⟩ : ∃ n, w = n + 1 := ⟨w - 1, by omega⟩
  rw [List.rtake_concat_succ, slide, length_rtake]
  by_cases hfull : n + 1 ≤ l.length
  · rw [if_pos (Nat.min_eq_left hfull), List.rtake, List.tail_drop, List.rtake]
    congr 2
    omega
  · rw [if_neg (by omega), List.rtake, List.rtake]
    congr 2
    omega

theorem countP_slide (p : α → Bool) (w : Nat) (q : List α) (x : α) :
    (slide w q x).countP p = (if q.length = w then q.tail else q).countP p + (if p x = true then 1 else 0) := by
  rw [slide, List.countP_append, List.countP_singleton]

theorem countP_tail (p : α → Bool) (q : List α) :
    q.tail.countP p = q.countP p - (if (q.head?.map p).getD false = true then 1 else 0) := by
  cases q with
  | nil => rfl
  | cons y q => cases h : p y <;> simp [h]

theorem countP_slide_le (p : α → Bool) (w : Nat) (q : List α) (x : α) : (slide w q x).countP p ≤ q.countP p + 1 := by
  have hkept : (if q.length = w then q.tail else q).countP p ≤ q.countP p := by
    split
    · exact (List.tail_sublist q).countP_le
    · exact Nat.le_refl _
  have hnew : (if p x = true then 1 else 0) ≤ 1 := by split <;> omega
  rw [countP_slide]
  omega

theorem countP_head_pos {p : α → Bool} {q : List α} (h : (q.head?.map p).getD false = true) : 0 < q.countP p := by
  cases q with
  | nil => simp at h
  | cons y q => exact List.countP_pos_iff.mpr ⟨y, List.mem_cons_self, by simpa using h⟩

end UnifiedCache.Base
