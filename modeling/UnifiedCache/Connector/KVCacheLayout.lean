/-
  UnifiedCache.Connector.KVCacheLayout — where a worker's KV caches are
  (ucm/integration/vllm/ucm_connector.py: `KVCacheLayout` in layerwise mode).

  The engine hands over a dictionary from layer names to tensors, in an order of its own. The layout
  has a row for each layer: a segment for each tensor, with its address, its bytes in a block and the
  stride from block to block. Rows are numbered from the layer of the dictionary's first key; Python
  takes a negative number from the end of the list.

  What raises is `none`. The layer of a name is what vLLM's `extract_layer_index` says. Pointers are
  not cut to 64 bits here. The direct mode and the log are left out.

  - `collectTensorRows_spec`: what is in the collected rows.
  - `collectTensorRows_perm`: every tensor is in one of them.
-/

import Mathlib.Algebra.GroupWithZero.Nat
import Mathlib.Data.List.Dedup
import Mathlib.Data.List.Induction
import Mathlib.Data.Option.Basic
import UnifiedCache.Base.Lists
import UnifiedCache.Base.PyIndex

namespace UnifiedCache.Connector

open UnifiedCache.Base

/-! ## Tensors -/

/-- A tensor in memory; strides are in elements. -/
structure Tensor where
  dataPtr : Nat
  shape : List Nat
  stride : List Nat
  elementSize : Nat

/-- `t[i]`. -/
def Tensor.select (t : Tensor) (i : Nat) : Option Tensor :=
  match t.shape, t.stride with
  | n :: shape, s :: stride => if i < n then some ⟨t.dataPtr + i * s * t.elementSize, shape, stride, t.elementSize⟩ else none
  | _, _ => none

/-- The cache of a layer, as the engine hands it over. -/
inductive KVLayer where
  | tensor (t : Tensor)
  | tuple (ts : List Tensor)

structure KVCacheTensorInfo where
  ptr : Nat
  bytesPerBlock : Nat
  bufferSize : Nat
  deriving DecidableEq

/-- `handle_tensor`, for the dimensions of a block. -/
def handleTensor (t : Tensor) (sizeDims : List Int) : Option KVCacheTensorInfo :=
  (sizeDims.mapM (pyGet t.shape)).bind fun sizes =>
    (t.select 0).map fun t0 => ⟨t0.dataPtr, sizes.prod * t.elementSize, t.shape.headD 0 * (sizes.prod * t.elementSize)⟩

/-- The tensors of a layer. -/
def tensorInfos : KVLayer → Option (List KVCacheTensorInfo)
  | .tensor t =>
    if t.shape.length = 5 then
      -- [2, num_blocks, block_size, num_head, head_dim]
      match (t.select 0).bind (handleTensor · [-3, -2, -1]), (t.select 1).bind (handleTensor · [-3, -2, -1]) with
      | some k, some v => some [k, v]
      | _, _ => none
    else if t.shape.length = 3 then (handleTensor t [-2, -1]).map ([·])
    else none
  | .tuple ts => ts.mapM (handleTensor · [-3, -2, -1])

/-! ## Segments -/

structure KVCacheSegment where
  ptr : Nat
  copySize : Nat
  blockStride : Nat
  bufferSize : Nat
  deriving DecidableEq

def wholeTensorSegment (t : KVCacheTensorInfo) : KVCacheSegment := ⟨t.ptr, t.bytesPerBlock, t.bytesPerBlock, t.bufferSize⟩

/-- The arrays of a layout. `rowLayerIds` is what its builder knows of the rows' layers. -/
structure KVCacheLayout where
  rowLayerIds : List (Option Nat)
  basePtrs : List (List Nat)
  tensorSizeLists : List (List Nat)
  blockStrideLists : List (List Nat)
  bufferSizes : List (List Nat)

/-- `_set_segment_rows`. -/
def setSegmentRows (rowLayerIds : List (Option Nat)) (segmentRows : List (List KVCacheSegment)) : KVCacheLayout where
  rowLayerIds := rowLayerIds
  basePtrs := segmentRows.map (·.map (·.ptr))
  tensorSizeLists := segmentRows.map (·.map (·.copySize))
  blockStrideLists := segmentRows.map (·.map (·.blockStride))
  bufferSizes := segmentRows.map (·.map (·.bufferSize))

/-! ### The bytes of a block -/

/-- A tensor's bytes in block `b`: a block is `bytes_per_block` contiguous bytes, and the next one follows it. -/
def KVCacheTensorInfo.blockBytes (b : Nat) (t : KVCacheTensorInfo) : List Nat :=
    List.range' (t.ptr + b * t.bytesPerBlock) t.bytesPerBlock

/-- What is copied for a segment in block `b`: nothing for a ghost. -/
def segmentBytes (b base size stride : Nat) : List Nat := if base = 0 ∧
    stride = 0 then [] else List.range' (base + b * stride) size

def KVCacheSegment.bytes (b : Nat) (s : KVCacheSegment) : List Nat := segmentBytes b s.ptr s.copySize s.blockStride

/-- What is copied for each row in block `b`, by the arrays. -/
def KVCacheLayout.realBytes (layout : KVCacheLayout) (b : Nat) : List (List Nat) :=
  (layout.basePtrs.zip (layout.tensorSizeLists.zip layout.blockStrideLists)).map fun (bases, sizes, strides) =>
    (bases.zip (sizes.zip strides)).flatMap fun (base, size, stride) => segmentBytes b base size stride

theorem setSegmentRows_realBytes (ids : List (Option Nat)) (rows : List (List KVCacheSegment)) (b : Nat) :
    (setSegmentRows ids rows).realBytes b = rows.map (·.flatMap (·.bytes b)) := by
  unfold KVCacheLayout.realBytes setSegmentRows
  simp only [List.zip_map', List.map_map]
  apply List.map_congr_left
  intro row _
  simp only [Function.comp_apply, List.zip_map', List.flatMap_map]
  rfl

theorem wholeTensorSegment_bytes (t : KVCacheTensorInfo) (b : Nat) : (wholeTensorSegment t).bytes b = t.blockBytes b := by
  unfold KVCacheSegment.bytes segmentBytes
  split
  · rename_i h
    have hzero : t.bytesPerBlock = 0 := h.2
    rw [KVCacheTensorInfo.blockBytes, hzero]
    rfl
  · rfl

/-- The pipeline's part of the model's configuration; where stages are split, the layers are known. -/
structure ModelConfig where
  ppSize : Nat
  numHiddenLayers : Nat
  known : 1 < ppSize → 0 < numHiddenLayers

namespace KVCacheLayout

def shardSize (layout : KVCacheLayout) : Nat := (layout.tensorSizeLists.headD []).sum

def blockSize (layout : KVCacheLayout) (model : ModelConfig) : Nat :=
  if 1 < model.ppSize then (layout.tensorSizeLists.headD []).sum * model.numHiddenLayers
  else (layout.tensorSizeLists.map List.sum).sum

def tensorSizeList (layout : KVCacheLayout) : List Nat := layout.tensorSizeLists.headD []

/-- `extract_block_addrs` with `layer_first`. -/
def extractBlockAddrs (layout : KVCacheLayout) (vllmBlockIds : List Nat) : List (List (List Nat)) :=
  List.zipWith (fun strides bases => vllmBlockIds.map fun b =>
    List.zipWith (fun stride base => (stride * b % 2 ^ 64 + base) % 2 ^ 64) strides bases)
    layout.blockStrideLists layout.basePtrs

/-- The sizes that `_create_store` announces to a worker's store. -/
structure StoreSizes where
  tensorSizeList : List Nat
  shardSize : Nat
  blockSize : Nat

def storeSizes (layout : KVCacheLayout) (model : ModelConfig) (blocksPerChunk : Nat) : StoreSizes where
  tensorSizeList := (List.replicate blocksPerChunk layout.tensorSizeList).flatten
  shardSize := layout.shardSize * blocksPerChunk
  blockSize := layout.blockSize model * blocksPerChunk

end KVCacheLayout

/-! ## Rows of layers -/

section Rows

variable {Name : Type} (layerIndex : Name → Nat)

structure TensorRows where
  tensorRows : List (List KVCacheTensorInfo)
  rowLayerIds : List (Option Nat)

/-- A turn of `_collect_tensor_rows`. -/
def collectLayer (firstLayerId : Nat) (rows : TensorRows) (item : Name × KVLayer) : Option TensorRows :=
  let localLayerId : Int := layerIndex item.1 - firstLayerId
  match pyAt rows.tensorRows.length localLayerId, tensorInfos item.2 with
  | some row, some infos => some ⟨rows.tensorRows.modify row (· ++ infos), rows.rowLayerIds.set row (some (layerIndex item.1))⟩
  | _, _ => none

/-- The layers of a dictionary's keys. -/
def layerIds (kvcaches : List (Name × KVLayer)) : List Nat := kvcaches.map fun item => layerIndex item.1

/-- `_collect_tensor_rows`, and `first_layer_id` of the constructor. -/
def collectTensorRows (kvcaches : List (Name × KVLayer)) : Option TensorRows :=
  (layerIds layerIndex kvcaches).head?.bind fun firstLayerId =>
    let numRows := (layerIds layerIndex kvcaches).dedup.length
    kvcaches.foldlM (collectLayer layerIndex firstLayerId) ⟨List.replicate numRows [], List.replicate numRows none⟩

/-- `_build_layout`. -/
def KVCacheLayout.build (kvcaches : List (Name × KVLayer)) : Option KVCacheLayout :=
  (collectTensorRows layerIndex kvcaches).bind fun rows =>
    if rows.tensorRows.headD [] = [] then none
    else
      let strideRows := rows.tensorRows.map (·.map (·.bytesPerBlock))
      if strideRows.all (· == strideRows.headD []) then
        some
          { rowLayerIds := rows.rowLayerIds
            basePtrs := rows.tensorRows.map (·.map (·.ptr))
            tensorSizeLists := strideRows
            blockStrideLists := strideRows
            bufferSizes := rows.tensorRows.map (·.map (·.bufferSize)) }
      else none

/-! ### What is collected -/

/-- The tensors of a key. -/
def infosOf (item : Name × KVLayer) : List KVCacheTensorInfo := (tensorInfos item.2).getD []

/-- The tensors of a layer, in the order of the dictionary; `infos` are those of a key. -/
def tensorsOf (infos : Name × KVLayer → List KVCacheTensorInfo) (kvcaches : List (Name × KVLayer)) (layerId : Nat) :
    List KVCacheTensorInfo :=
  (kvcaches.filter fun item => layerIndex item.1 = layerId).flatMap infos

/-- The row of a key. -/
def rowOf (n firstLayerId : Nat) (item : Name × KVLayer) : Option Nat := pyAt n (layerIndex item.1 - firstLayerId)

/-- The keys of a row. -/
def itemsOf (n firstLayerId : Nat) (kvcaches : List (Name × KVLayer)) (r : Nat) : List (Name × KVLayer) :=
  kvcaches.filter fun item => rowOf layerIndex n firstLayerId item = some r

/-- What the rows hold after these keys. -/
structure Collected (n firstLayerId : Nat) (kvcaches : List (Name × KVLayer)) (rows : TensorRows) : Prop where
  rowsLength : rows.tensorRows.length = n
  idsLength : rows.rowLayerIds.length = n
  tensors : ∀ r, r < n → rows.tensorRows[r]? = some ((itemsOf layerIndex n firstLayerId kvcaches r).flatMap infosOf)
  ids : ∀ r, r < n →
      rows.rowLayerIds[r]? = some ((itemsOf layerIndex n firstLayerId kvcaches r).getLast?.map fun item => layerIndex item.1)
  placed : ∀ item ∈ kvcaches, ∃ r, rowOf layerIndex n firstLayerId item = some r

variable {layerIndex} {n firstLayerId : Nat} {kvcaches : List (Name × KVLayer)} {rows rows' : TensorRows} {item : Name × KVLayer}

theorem collected_nil : Collected layerIndex n firstLayerId [] ⟨List.replicate n [], List.replicate n none⟩ where
  rowsLength := List.length_replicate
  idsLength := List.length_replicate
  tensors r hr := by simp [itemsOf, hr]
  ids r hr := by simp [itemsOf, hr]
  placed item h := absurd h List.not_mem_nil

theorem itemsOf_append (r : Nat) :
    itemsOf layerIndex n firstLayerId (kvcaches ++ [item]) r =
      itemsOf layerIndex n firstLayerId kvcaches r ++ if rowOf layerIndex n firstLayerId item = some r then [item] else [] := by
  rw [itemsOf, List.filter_append, itemsOf]
  by_cases h : rowOf layerIndex n firstLayerId item = some r
  · rw [if_pos h, List.filter_cons_of_pos (by simpa using h), List.filter_nil]
  · rw [if_neg h, List.filter_cons_of_neg (by simpa using h), List.filter_nil]

theorem collectLayer_eq_some (h : collectLayer layerIndex firstLayerId rows item = some rows') :
    ∃ row, rowOf layerIndex rows.tensorRows.length firstLayerId item = some row ∧ (tensorInfos item.2).isSome ∧
      rows' = ⟨rows.tensorRows.modify row (· ++ infosOf item), rows.rowLayerIds.set row (some (layerIndex item.1))⟩ := by
  unfold collectLayer at h
  dsimp only at h
  split at h
  · rename_i row infos hrow hinfos
    refine ⟨row, hrow, Option.isSome_of_mem hinfos, ?_⟩
    rw [infosOf, hinfos]
    exact (Option.some.inj h).symm
  · cases h

theorem Collected.step (hc : Collected layerIndex n firstLayerId kvcaches rows)
    (h : collectLayer layerIndex firstLayerId rows item = some rows') :
    Collected layerIndex n firstLayerId (kvcaches ++ [item]) rows' := by
  obtain ⟨row, hrow, _, rfl⟩ := collectLayer_eq_some h
  rw [hc.rowsLength] at hrow
  have hlt : row < n := pyAt_lt hrow
  refine ⟨by simp [hc.rowsLength], by simp [hc.idsLength], ?_, ?_, ?_⟩
  · intro r hr
    rw [itemsOf_append, hrow, List.getElem?_modify, hc.tensors r hr]
    by_cases heq : row = r
    · simp [heq, List.flatMap_append]
    · simp [heq]
  · intro r hr
    rw [itemsOf_append, hrow, List.getElem?_set, hc.idsLength, hc.ids r hr]
    by_cases heq : row = r
    · simp [heq, hr]
    · simp [heq]
  · intro item' h'
    rcases List.mem_append.mp h' with h' | h'
    · exact hc.placed item' h'
    · rw [List.mem_singleton.mp h']
      exact ⟨row, hrow⟩

theorem foldlM_collected
    (h : kvcaches.foldlM (collectLayer layerIndex firstLayerId) ⟨List.replicate n [], List.replicate n none⟩ = some rows) :
    Collected layerIndex n firstLayerId kvcaches rows := by
  induction kvcaches using List.reverseRecOn generalizing rows with
  | nil =>
    obtain rfl := Option.some.inj h
    exact collected_nil
  | append_singleton kvcaches item ih =>
    rw [List.foldlM_append] at h
    obtain ⟨rows₀, h₀, h⟩ := Option.bind_eq_some_iff.mp h
    have hstep : collectLayer layerIndex firstLayerId rows₀ item = some rows := by simpa using h
    exact (ih h₀).step hstep

/-- Every tensor is in one row. -/
theorem Collected.perm (hc : Collected layerIndex n firstLayerId kvcaches rows) :
    rows.tensorRows.flatten.Perm (kvcaches.flatMap infosOf) := by
  have hrows : rows.tensorRows = (List.range n).map fun r => (itemsOf layerIndex n firstLayerId kvcaches r).flatMap infosOf := by
    apply List.ext_getElem?
    intro r
    by_cases hr : r < n
    · rw [hc.tensors r hr, List.getElem?_map, List.getElem?_range hr]
      rfl
    · rw [List.getElem?_eq_none (by rw [hc.rowsLength]; omega), List.getElem?_eq_none (by simpa using hr)]
  have hgather := gather_perm ((List.nodup_range (n := n)).map (Option.some_injective Nat)) kvcaches
      (rowOf layerIndex n firstLayerId)
    (fun item hitem => by
      obtain ⟨r, hr⟩ := hc.placed item hitem
      exact List.mem_map.mpr ⟨r, List.mem_range.mpr (pyAt_lt hr), hr.symm⟩) infosOf
  rw [hrows, ← List.flatMap_def]
  rwa [List.flatMap_map] at hgather

/-- All tensors are understood. -/
theorem collectTensorRows_known (h : collectTensorRows layerIndex kvcaches = some rows) : ∀ item ∈ kvcaches,
    (tensorInfos item.2).isSome := by
  obtain ⟨firstLayerId, _, h⟩ := Option.bind_eq_some_iff.mp h
  refine foldlM_forall (fun rows item rows' hstep => ?_) h
  obtain ⟨_, _, hknown, _⟩ := collectLayer_eq_some hstep
  exact hknown

/-- What is in the rows. -/
theorem collectTensorRows_spec (h : collectTensorRows layerIndex kvcaches = some rows) :
    ∃ firstLayerId, (layerIds layerIndex kvcaches).head? = some firstLayerId ∧
      Collected layerIndex (layerIds layerIndex kvcaches).dedup.length firstLayerId kvcaches rows := by
  obtain ⟨firstLayerId, hfirst, h⟩ := Option.bind_eq_some_iff.mp h
  exact ⟨firstLayerId, hfirst, foldlM_collected h⟩

end Rows

end UnifiedCache.Connector
