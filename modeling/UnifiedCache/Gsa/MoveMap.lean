/-
  UnifiedCache.Gsa.MoveMap — where a request's top-k goes after its prompt (`GSA.get_mv_map` and the copies
  in `kvcache_init_last_chunk`, ucm/sparse/gsa/gsa.py).

  A request keeps the blocks `remain_idxs` of its prompt. A block of the top-k that is among them stays
  where it is; any other is copied over one that is not in the top-k. The copies are made one after the
  other, in the order of the dictionary.

  `get_mv_map_holds`: the blocks entered for the request afterwards (`holds`) are kept ones, each
  once, and hold what their indices held before the copies.
-/

import Mathlib.Data.Finset.Basic
import Mathlib.Data.List.GetD
import Mathlib.Data.List.Nodup
import Mathlib.Data.List.Perm.Subperm

namespace UnifiedCache.Gsa

/-! ## Copies one after the other -/

section Copies

variable {α β : Type*} [DecidableEq α]

/-- Each copy is from the first to the second. -/
def copyAll (moves : List (α × α)) (cache : α → β) : α → β := moves.foldl (fun c m => Function.update c m.2 (c m.1)) cache

/-- Copies that overwrite nothing twice and nothing they read come out as if made at once. -/
theorem copyAll_spec {moves : List (α × α)} (cache : α → β) (hdst : (moves.map Prod.snd).Nodup)
    (hsrc : ∀ m ∈ moves, m.1 ∉ moves.map Prod.snd) :
    (∀ m ∈ moves, copyAll moves cache m.2 = cache m.1) ∧ ∀ a, a ∉ moves.map Prod.snd → copyAll moves cache a = cache a := by
  induction moves generalizing cache with
  | nil => exact ⟨nofun, fun _ _ => rfl⟩
  | cons m moves ih =>
    obtain ⟨hm, hdst'⟩ := List.nodup_cons.mp hdst
    obtain ⟨hin, hout⟩ := ih (Function.update cache m.2 (cache m.1)) hdst' fun m' hm' hmem =>
      hsrc m' (List.mem_cons_of_mem _ hm') (List.mem_cons_of_mem _ hmem)
    refine ⟨fun m' hm' => ?_, fun a ha => ?_⟩
    · rcases List.mem_cons.mp hm' with rfl | hmem
      · exact (hout m'.2 hm).trans (Function.update_self ..)
      · have hne : m'.1 ≠ m.2 := fun he => hsrc m' hm' (he ▸ List.mem_cons_self)
        exact (hin m' hmem).trans (Function.update_of_ne hne _ _)
    · rw [List.map_cons, List.mem_cons, not_or] at ha
      exact (hout a ha.2).trans (Function.update_of_ne ha.1 _ _)

end Copies

/-! ## The plan of the copies -/

/-- `d[k] = v`, on the items of a dictionary in their order. -/
def setItem (d : List (Int × Int)) (k v : Int) : List (Int × Int) :=
  if k ∈ d.map Prod.fst then d.map fun p => if p.1 = k then (k, v) else p else d ++ [(k, v)]

/-- `blocks[idx]`. -/
def blockAt (blocks : List Int) (idx : Nat) : Int := blocks.getD idx 0

/-- The first loop of `get_mv_map`: `new_block`, and `hit_block`. -/
def hitBlocks (blocks : List Int) (remainIdxs topkValues : List Nat) : List (Option Int) × List Nat :=
  (topkValues.map fun idx => if idx ∈ remainIdxs then some (blockAt blocks idx) else none,
    topkValues.filter fun idx => idx ∈ remainIdxs)

/-- The second loop: `free_block`. -/
def freeBlock (remainIdxs hitBlock : List Nat) : List Nat := remainIdxs.filter fun idx => idx ∉ hitBlock

/-- The third loop: a free block for each index that has none, and the move to it. `none`: nothing is left to pop. -/
def moveMiss (blocks : List Int) : List Nat → List (Option Int) → List Nat → List (Int × Int) →
    Option (List Int × List (Int × Int))
  | _ :: topk, some b :: new, free, mvMap => (moveMiss blocks topk new free mvMap).map fun r => (b :: r.1, r.2)
  | idx :: topk, none :: new, oneFreeIdx :: free, mvMap =>
    (moveMiss blocks topk new free (setItem mvMap (blockAt blocks idx) (blockAt blocks oneFreeIdx))).map fun r =>
    (blockAt blocks oneFreeIdx :: r.1, r.2)
  | _ :: _, none :: _, [], _ => none
  | _, _, _, mvMap => some ([], mvMap)

structure MvMap where
  mvMap : List (Int × Int)
  remainMap : List (Int × Int)
  prefetchMap : List (Int × Int)
  deriving DecidableEq

def items (l : List (Nat × Int)) : List (Int × Int) := l.foldl (fun d p => setItem d p.1 p.2) []

def getMvMap (blocks : List Int) (remainIdxs topkValues : List Nat) (remainLen : Nat) : Option MvMap :=
  let hit := hitBlocks blocks remainIdxs topkValues
  (moveMiss blocks topkValues hit.1 (freeBlock remainIdxs hit.2) []).map fun r =>
    let pairs := topkValues.zip r.1
    ⟨r.2, items (pairs.take remainLen), items (pairs.drop remainLen)⟩

/-- What the blocks hold once the pairs are entered for the request. -/
def holds (pairs : List (Int × Int)) (blockID : Int) : Option Int := (pairs.find? fun p => p.2 = blockID).map Prod.fst

section MoveMap

variable {blocks : List Int} {remainIdxs topk free : List Nat} {mvMap : List (Int × Int)}

theorem setItem_new {d : List (Int × Int)} {k v : Int} (h : k ∉ d.map Prod.fst) : setItem d k v = d ++ [(k, v)] := if_neg h

theorem items_eq {l : List (Nat × Int)} (h : (l.map Prod.fst).Nodup) : items l = l.map fun p => ((p.1 : Int), p.2) := by
  have hmain : ∀ (l : List (Nat × Int)) (d : List (Int × Int)), (l.map Prod.fst).Nodup → (∀ p ∈ l, (p.1 : Int) ∉ d.map Prod.fst) →
      l.foldl (fun d p => setItem d p.1 p.2) d = d ++ l.map fun p => ((p.1 : Int), p.2) := by
    intro l
    induction l with
    | nil => exact fun d _ _ => (List.append_nil d).symm
    | cons p l ih =>
      intro d hl hd
      obtain ⟨hp, hl'⟩ := List.nodup_cons.mp hl
      rw [List.foldl_cons, setItem_new (hd p List.mem_cons_self), ih _ hl', List.map_cons, List.append_assoc,
        List.singleton_append]
      intro p' hp' hmem
      rw [List.map_append, List.mem_append] at hmem
      rcases hmem with hmem | hmem
      · exact hd p' (List.mem_cons_of_mem _ hp') hmem
      · have he : (p'.1 : Int) = p.1 := List.mem_singleton.mp hmem
        exact hp (List.mem_map.mpr ⟨p', hp', Int.ofNat.inj he⟩)
  exact hmain l [] h fun _ _ => List.not_mem_nil

theorem blockAt_inj (hblocks : blocks.Nodup) {a b : Nat} (ha : a < blocks.length) (hb : b < blocks.length)
    (h : blockAt blocks a = blockAt blocks b) : a = b := by
  unfold blockAt at h
  rw [List.getD_eq_getElem _ _ ha, List.getD_eq_getElem _ _ hb] at h
  exact (List.Nodup.getElem_inj_iff hblocks).mp h

/-- With as many free blocks as the top-k misses, the third loop gives each missed index the next of them. -/
theorem moveMiss_spec (hblocks : blocks.Nodup) (htopk : topk.Nodup) (hlt : ∀ idx ∈ topk, idx < blocks.length)
    (hroom : (topk.filter fun idx => idx ∉ remainIdxs).length ≤ free.length)
    (hnew : ∀ idx ∈ topk, blockAt blocks idx ∉ mvMap.map Prod.fst) :
    ∃ new, moveMiss blocks topk (topk.map fun idx => if idx ∈ remainIdxs then some (blockAt blocks idx) else none) free mvMap =
        some (new, mvMap ++ ((topk.filter fun idx => idx ∉ remainIdxs).zip free).map fun p =>
          (blockAt blocks p.1, blockAt blocks p.2)) ∧
      new.length = topk.length ∧
      ∀ idx b, (idx, b) ∈ topk.zip new ↔ (idx ∈ topk ∧ idx ∈ remainIdxs ∧ b = blockAt blocks idx) ∨
        ∃ f, (idx, f) ∈ (topk.filter fun idx => idx ∉ remainIdxs).zip free ∧ b = blockAt blocks f := by
  induction topk generalizing free mvMap with
  | nil =>
    refine ⟨[], ?_, rfl, fun idx b => ?_⟩
    · simp [moveMiss]
    · simp
  | cons i topk ih =>
    obtain ⟨hi, htopk'⟩ := List.nodup_cons.mp htopk
    have hlt' : ∀ idx ∈ topk, idx < blocks.length := fun idx hidx => hlt idx (List.mem_cons_of_mem _ hidx)
    by_cases hin : i ∈ remainIdxs
    · have hfilter : (i :: topk).filter (fun idx => idx ∉ remainIdxs) = topk.filter fun idx => idx ∉ remainIdxs :=
        List.filter_cons_of_neg (by simpa using hin)
      rw [hfilter] at hroom ⊢
      obtain ⟨new, hrun, hlen, hzip⟩ := ih htopk' hlt' hroom fun idx hidx => hnew idx (List.mem_cons_of_mem _ hidx)
      refine ⟨blockAt blocks i :: new, ?_, by rw [List.length_cons, List.length_cons, hlen], fun idx b => ?_⟩
      · rw [List.map_cons, if_pos hin, moveMiss, hrun]
        rfl
      · rw [List.zip_cons_cons, List.mem_cons, hzip, Prod.mk.injEq, List.mem_cons]
        constructor
        · rintro (⟨rfl, rfl⟩ | ⟨hmem, hrem, hb⟩ | hf)
          · exact .inl ⟨.inl rfl, hin, rfl⟩
          · exact .inl ⟨.inr hmem, hrem, hb⟩
          · exact .inr hf
        · rintro (⟨rfl | hmem, hrem, hb⟩ | hf)
          · exact .inl ⟨rfl, hb⟩
          · exact .inr (.inl ⟨hmem, hrem, hb⟩)
          · exact .inr (.inr hf)
    · have hfilter : (i :: topk).filter (fun idx => idx ∉ remainIdxs) = i :: topk.filter fun idx => idx ∉ remainIdxs :=
        List.filter_cons_of_pos (by simpa using hin)
      rw [hfilter] at hroom ⊢
      cases free with
      | nil => exact absurd hroom (by simp)
      | cons f free =>
        have hset : setItem mvMap (blockAt blocks i) (blockAt blocks f) = mvMap ++ [(blockAt blocks i, blockAt blocks f)] :=
          setItem_new (hnew i List.mem_cons_self)
        have hnew' : ∀ idx ∈ topk, blockAt blocks idx ∉ (mvMap ++ [(blockAt blocks i, blockAt blocks f)]).map Prod.fst := by
          intro idx hidx hmem
          rw [List.map_append, List.mem_append] at hmem
          rcases hmem with hmem | hmem
          · exact hnew idx (List.mem_cons_of_mem _ hidx) hmem
          · have he := blockAt_inj hblocks (hlt' idx hidx) (hlt i List.mem_cons_self) (List.mem_singleton.mp hmem)
            exact hi (he ▸ hidx)
        obtain ⟨new, hrun, hlen, hzip⟩ := ih htopk' hlt' (Nat.le_of_succ_le_succ hroom) hnew'
        refine ⟨blockAt blocks f :: new, ?_, by rw [List.length_cons, List.length_cons, hlen], fun idx b => ?_⟩
        · rw [List.map_cons, if_neg hin, moveMiss, hset, hrun, List.zip_cons_cons, List.map_cons, List.append_assoc]
          rfl
        · rw [List.zip_cons_cons, List.mem_cons, hzip, Prod.mk.injEq, List.mem_cons, List.zip_cons_cons]
          constructor
          · rintro (⟨rfl, rfl⟩ | ⟨hmem, hrem, hb⟩ | ⟨f', hf', hb⟩)
            · exact .inr ⟨f, List.mem_cons_self, rfl⟩
            · exact .inl ⟨.inr hmem, hrem, hb⟩
            · exact .inr ⟨f', List.mem_cons_of_mem _ hf', hb⟩
          · rintro (⟨rfl | hmem, hrem, hb⟩ | ⟨f', hf', hb⟩)
            · exact absurd hrem hin
            · exact .inr (.inl ⟨hmem, hrem, hb⟩)
            · rcases List.mem_cons.mp hf' with he | hf'
              · obtain ⟨rfl, rfl⟩ := Prod.mk.inj he
                exact .inl ⟨rfl, hb⟩
              · exact .inr (.inr ⟨f', hf', hb⟩)

/-- The top-k misses as many of the kept indices as there are free ones. -/
theorem length_freeBlock (hremain : remainIdxs.Nodup) (htopk : topk.Nodup) (hlen : remainIdxs.length = topk.length) :
    (topk.filter fun idx => idx ∉ remainIdxs).length =
    (freeBlock remainIdxs (topk.filter fun idx => idx ∈ remainIdxs)).length := by
  have hboth : (topk.filter fun idx => idx ∈ remainIdxs).length = (remainIdxs.filter fun idx => idx ∈ topk).length := by
    refine List.Perm.length_eq ((List.perm_ext_iff_of_nodup (htopk.filter _) (hremain.filter _)).mpr fun idx => ?_)
    simp only [List.mem_filter, decide_eq_true_eq]
    exact and_comm
  have hfree : freeBlock remainIdxs (topk.filter fun idx => idx ∈ remainIdxs) = remainIdxs.filter fun idx => idx ∉ topk := by
    refine List.filter_congr fun idx hidx => ?_
    simp only [List.mem_filter, hidx, decide_true, and_true]
  have htop := List.length_eq_length_filter_add (l := topk) fun idx => decide (idx ∈ remainIdxs)
  have hrem := List.length_eq_length_filter_add (l := remainIdxs) fun idx => decide (idx ∈ topk)
  simp only [← decide_not] at htop hrem
  rw [hfree]
  omega

/-- Which block each selected index comes to: its own if that is kept, else the one of a kept index that is
    not selected, paired with it in `moved`. -/
structure Moved (blocks : List Int) (remainIdxs topk : List Nat) (moved : List (Nat × Nat))
    (pairs : List (Nat × Int)) : Prop where
  fst : pairs.map Prod.fst = topk
  mem : ∀ idx b, (idx, b) ∈ pairs ↔ (idx ∈ topk ∧ idx ∈ remainIdxs ∧ b = blockAt blocks idx) ∨ ∃ f, (idx, f) ∈ moved ∧
      b = blockAt blocks f
  miss : ∀ p ∈ moved, p.1 ∈ topk ∧ p.1 ∉ remainIdxs
  free : ∀ p ∈ moved, p.2 ∈ remainIdxs ∧ p.2 ∉ topk
  once : (moved.map Prod.snd).Nodup

/-- The moves of the paired indices. -/
def movesOf (blocks : List Int) (moved : List (Nat × Nat)) : List (Int × Int) :=
    moved.map fun p => (blockAt blocks p.1, blockAt blocks p.2)

section Moved

variable {moved : List (Nat × Nat)} {pairs : List (Nat × Int)}

/-- No block is given to two indices. -/
theorem Moved.inj (h : Moved blocks remainIdxs topk moved pairs) (hblocks : blocks.Nodup) (htopk : topk.Nodup)
    (hlt : ∀ idx ∈ remainIdxs ++ topk, idx < blocks.length) : ∀ p ∈ pairs, ∀ p' ∈ pairs, p.2 = p'.2 → p = p' := by
  have hltr : ∀ idx ∈ remainIdxs, idx < blocks.length := fun idx h => hlt idx (List.mem_append_left _ h)
  intro p hp p' hp' he
  refine List.inj_on_of_nodup_map (h.fst.symm ▸ htopk) hp hp' ?_
  rcases (h.mem p.1 p.2).mp hp with ⟨htop, hrem, hb⟩ | ⟨f, hf, hb⟩ <;>
    rcases (h.mem p'.1 p'.2).mp hp' with ⟨htop', hrem', hb'⟩ | ⟨f', hf', hb'⟩
  · exact blockAt_inj hblocks (hltr _ hrem) (hltr _ hrem') (hb.symm.trans (he.trans hb'))
  · have hfree := h.free _ hf'
    exact absurd (blockAt_inj hblocks (hltr _ hrem) (hltr _ hfree.1) (hb.symm.trans (he.trans hb')) ▸ htop) hfree.2
  · have hfree := h.free _ hf
    exact absurd (blockAt_inj hblocks (hltr _ hrem') (hltr _ hfree.1) (hb'.symm.trans (he.symm.trans hb)) ▸ htop') hfree.2
  · have hff := blockAt_inj hblocks (hltr _ (h.free _ hf).1) (hltr _ (h.free _ hf').1) (hb.symm.trans (he.trans hb'))
    exact (Prod.mk.inj (List.inj_on_of_nodup_map h.once hf hf' hff)).1

/-- The blocks given are the kept ones. -/
theorem Moved.blocks_perm (h : Moved blocks remainIdxs topk moved pairs) (hblocks : blocks.Nodup) (htopk : topk.Nodup)
    (hlen : remainIdxs.length = topk.length) (hlt : ∀ idx ∈ remainIdxs ++ topk, idx < blocks.length) :
    (pairs.map Prod.snd).Perm (remainIdxs.map (blockAt blocks)) := by
  have hnodup : (pairs.map Prod.snd).Nodup :=
      List.Nodup.map_on (h.inj hblocks htopk hlt) (List.Nodup.of_map _ (h.fst.symm ▸ htopk))
  have hle : (remainIdxs.map (blockAt blocks)).length ≤ (pairs.map Prod.snd).length := by
    rw [List.length_map, List.length_map, ← List.length_map (f := Prod.fst), h.fst, hlen]
  refine (hnodup.subperm fun b hb => ?_).perm_of_length_le hle
  obtain ⟨p, hp, rfl⟩ := List.mem_map.mp hb
  rcases (h.mem p.1 p.2).mp hp with ⟨-, hrem, hb⟩ | ⟨f, hf, hb⟩
  · exact List.mem_map.mpr ⟨p.1, hrem, hb.symm⟩
  · exact List.mem_map.mpr ⟨f, (h.free _ hf).1, hb.symm⟩

/-- No move overwrites what another one reads or has written. -/
theorem Moved.holds {β : Type*} (h : Moved blocks remainIdxs topk moved pairs) (hblocks : blocks.Nodup)
    (hlt : ∀ idx ∈ remainIdxs ++ topk, idx < blocks.length) (cache : Int → β) {idx : Nat} {b : Int} (hp : (idx, b) ∈ pairs) :
    copyAll (movesOf blocks moved) cache b = cache (blockAt blocks idx) := by
  have hltr : ∀ idx ∈ remainIdxs, idx < blocks.length := fun idx h => hlt idx (List.mem_append_left _ h)
  have hltt : ∀ idx ∈ topk, idx < blocks.length := fun idx h => hlt idx (List.mem_append_right _ h)
  have hmem : ∀ {b}, b ∈ (movesOf blocks moved).map Prod.snd → ∃ p ∈ moved, blockAt blocks p.2 = b := by
    intro b hb
    unfold movesOf at hb
    rw [List.map_map] at hb
    exact List.mem_map.mp hb
  have hdst : ((movesOf blocks moved).map Prod.snd).Nodup := by
    unfold movesOf
    rw [List.map_map]
    refine List.Nodup.map_on (fun p hp p' hp' he => ?_) (List.Nodup.of_map _ h.once)
    exact List.inj_on_of_nodup_map h.once hp hp' (blockAt_inj hblocks (hltr _ (h.free p hp).1) (hltr _ (h.free p' hp').1) he)
  have hsrc : ∀ m ∈ movesOf blocks moved, m.1 ∉ (movesOf blocks moved).map Prod.snd := by
    intro m hm hin
    obtain ⟨p, hp, rfl⟩ := List.mem_map.mp hm
    obtain ⟨p', hp', he⟩ := hmem hin
    have hfree := (h.free p' hp').1
    exact (h.miss p hp).2 (blockAt_inj hblocks (hltr _ hfree) (hltt _ (h.miss p hp).1) he ▸ hfree)
  obtain ⟨hin, hout⟩ := copyAll_spec cache hdst hsrc
  rcases (h.mem idx b).mp hp with ⟨htop, -, rfl⟩ | ⟨f, hf, rfl⟩
  · refine hout _ fun hmv => ?_
    obtain ⟨p', hp', he⟩ := hmem hmv
    have hfree := h.free p' hp'
    exact hfree.2 (blockAt_inj hblocks (hltr _ hfree.1) (hltt _ htop) he ▸ htop)
  · exact hin _ (List.mem_map.mpr ⟨_, hf, rfl⟩)

end Moved

theorem getMvMap_moved (hblocks : blocks.Nodup) (hremain : remainIdxs.Nodup) (htopk : topk.Nodup)
    (hlen : remainIdxs.length = topk.length)
    (hlt : ∀ idx ∈ topk, idx < blocks.length) (remainLen : Nat) :
    ∃ moved pairs, Moved blocks remainIdxs topk moved pairs ∧ getMvMap blocks remainIdxs topk remainLen =
      some ⟨movesOf blocks moved, items (pairs.take remainLen), items (pairs.drop remainLen)⟩ := by
  have hroom := length_freeBlock hremain htopk hlen
  generalize hfree : freeBlock remainIdxs (topk.filter fun idx => idx ∈ remainIdxs) = free at hroom
  have hfirst : ∀ idx ∈ topk, blockAt blocks idx ∉ ([] : List (Int × Int)).map Prod.fst := fun _ _ => List.not_mem_nil
  obtain ⟨new, hrun, hnew, hzip⟩ := moveMiss_spec hblocks htopk hlt hroom.le hfirst
  refine ⟨(topk.filter fun idx => idx ∉ remainIdxs).zip free, topk.zip new, ⟨List.map_fst_zip hnew.ge, hzip, ?_, ?_, ?_⟩, ?_⟩
  · intro p hp
    obtain ⟨htop, hnot⟩ := List.mem_filter.mp (List.of_mem_zip hp).1
    exact ⟨htop, of_decide_eq_true hnot⟩
  · intro p hp
    have hmem := (List.of_mem_zip hp).2
    rw [← hfree] at hmem
    obtain ⟨hrem, hnot⟩ := List.mem_filter.mp hmem
    exact ⟨hrem, fun htop => of_decide_eq_true hnot (List.mem_filter.mpr ⟨htop, decide_eq_true hrem⟩)⟩
  · rw [List.map_snd_zip hroom.ge, ← hfree]
    exact hremain.filter _
  · unfold getMvMap hitBlocks
    simp only [hfree, hrun, Option.map_some, List.nil_append]
    rfl

/-- For kept and selected indices that are as many and each once: the pops never run out; the two maps name
    the selected indices in order, the first `remainLen` of them in the first; their blocks are the kept
    ones; and after the copies a block holds what the block of the index it is entered with held before. -/
theorem get_mv_map_holds {β : Type*} (hblocks : blocks.Nodup) (hremain : remainIdxs.Nodup) (htopk : topk.Nodup)
    (hlen : remainIdxs.length = topk.length) (hlt : ∀ idx ∈ remainIdxs ++ topk, idx < blocks.length) (remainLen : Nat)
    (cache : Int → β) :
    ∃ r, getMvMap blocks remainIdxs topk remainLen = some r ∧
      (r.remainMap ++ r.prefetchMap).map Prod.fst = topk.map Int.ofNat ∧ r.remainMap.length = min remainLen topk.length ∧
      ((r.remainMap ++ r.prefetchMap).map Prod.snd).Perm (remainIdxs.map (blockAt blocks)) ∧
      ∀ (idx : Nat) (b : Int), holds (r.remainMap ++ r.prefetchMap) b = some (idx : Int) →
      copyAll r.mvMap cache b = cache (blockAt blocks idx) := by
  obtain ⟨moved, pairs, h, hrun⟩ :=
      getMvMap_moved hblocks hremain htopk hlen (fun idx hidx => hlt idx (List.mem_append_right _ hidx)) remainLen
  have hfst : (pairs.map Prod.fst).Nodup := h.fst.symm ▸ htopk
  have hpart : ∀ l : List (Nat × Int), l.Sublist pairs → items l = l.map fun p => ((p.1 : Int), p.2) := fun l hl =>
    items_eq (hfst.sublist (hl.map _))
  have hall : items (pairs.take remainLen) ++ items (pairs.drop remainLen) = pairs.map fun p => ((p.1 : Int), p.2) := by
    rw [hpart _ (List.take_sublist ..), hpart _ (List.drop_sublist ..), ← List.map_append, List.take_append_drop]
  refine ⟨_, hrun, ?_, ?_, ?_, ?_⟩
  · rw [hall, List.map_map, ← h.fst, List.map_map]
    rfl
  · rw [hpart _ (List.take_sublist ..), List.length_map, List.length_take, ← @List.length_map _ _ pairs Prod.fst, h.fst]
  · rw [hall, List.map_map]
    exact h.blocks_perm hblocks htopk hlen hlt
  · intro idx b hheld
    obtain ⟨q, hfound, hidx⟩ := Option.map_eq_some_iff.mp hheld
    have hb : q.2 = b := by simpa using List.find?_some hfound
    have hmem := List.mem_of_find?_eq_some hfound
    rw [hall] at hmem
    obtain ⟨p, hp, rfl⟩ := List.mem_map.mp hmem
    obtain rfl : p.1 = idx := Int.ofNat.inj hidx
    subst hb
    exact h.holds hblocks hlt cache hp

/-- Two of four kept indices are not selected, and two of the selected ones are copied over them. -/
theorem get_mv_map_holds_two_moves : ∃ r, getMvMap [10, 11, 12, 13, 14, 15] [0, 1, 4, 5] [3, 0, 2, 5] 3 = some r ∧
    r.mvMap = [(13, 11), (12, 14)] ∧ r.remainMap = [(3, 11), (0, 10), (2, 14)] ∧ copyAll r.mvMap id 14 = (12 : Int) := by
  obtain ⟨r, hr, -, -, -, hcopy⟩ := @get_mv_map_holds [10, 11, 12, 13, 14, 15] [0, 1, 4, 5] [3, 0, 2, 5] Int
    (by decide) (by decide) (by decide) rfl (by decide) 3 id
  have hval : getMvMap [10, 11, 12, 13, 14, 15] [0, 1, 4, 5] [3, 0, 2, 5] 3 =
      some ⟨[(13, 11), (12, 14)], [(3, 11), (0, 10), (2, 14)], [(5, 15)]⟩ := by decide
  obtain rfl := Option.some.inj (hval.symm.trans hr)
  exact ⟨_, hr, rfl, rfl, hcopy 2 14 (by decide)⟩

end MoveMap

end UnifiedCache.Gsa
