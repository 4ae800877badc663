/-
  UnifiedCache.Connector.SharedIndexer — the layout of models whose layers share indexers
  (ucm/integration/vllm/ucm_connector.py: `SharedIndexerKVCacheLayout` in layerwise mode, and the sizes
  that `_create_store` announces).

  Some layers have an indexer tensor beside their attention tensors, or an indexer and a scale. The
  store copies every layer with one vector of sizes, so that a layer without one gets ghost segments
  (no address, no stride) in its place; where BF16 and C8 indexers are mixed, a BF16 one is cut in two.
  On CUDA the tensors' roles are read off their names, on Ascend off their places.

  - `indexerSegments_spec`: the sizes and the bytes of a layer's segments, mode by mode.
  - `cudaLayers_perm`, `ascendLayers_perm`: every tensor is in one layer.
  - `segment_table_spec`: all rows have one vector of sizes, their real segments are every tensor's
    bytes once, and what the store is told.
-/

import Mathlib.Data.List.Sort
import UnifiedCache.Connector.KVCacheLayout

namespace UnifiedCache.Connector

open UnifiedCache.Base

structure SharedIndexerLayerInfo where
  layerId : Option Nat
  sfaTensors : List KVCacheTensorInfo
  indexer : Option KVCacheTensorInfo
  scale : Option KVCacheTensorInfo

/-- A layer's tensors. -/
def SharedIndexerLayerInfo.tensors (layer : SharedIndexerLayerInfo) : List KVCacheTensorInfo :=
  layer.sfaTensors ++ layer.indexer.toList ++ layer.scale.toList

inductive LayoutMode where
  | bf16
  | liC8
  | mixed
  deriving DecidableEq

namespace SharedIndexer

/-! ## Segment rows -/

def ghostSegment (slotSize : Nat) : KVCacheSegment := ⟨0, slotSize, 0, 0⟩

/-- The first one, if all are alike. -/
def validateUniformSizes (values : List Nat) : Option Nat :=
  match values.dedup with
  | [size] => some size
  | _ => none

/-- The sizes of the slots after the attention tensors. -/
structure SlotSizes where
  indexerSize : Nat
  indexChunkSize : Nat
  scaleSize : Nat

/-- The segments of a layer after its attention tensors. -/
def indexerSegments (mode : LayoutMode) (sizes : SlotSizes) (layer : SharedIndexerLayerInfo) : Option (List KVCacheSegment) :=
  match mode, layer.scale, layer.indexer with
  | .bf16, _, some indexer => some [wholeTensorSegment indexer]
  | .bf16, _, none => some [ghostSegment sizes.indexerSize]
  | .liC8, some scale, some indexer => some [wholeTensorSegment indexer, wholeTensorSegment scale]
  | .liC8, none, _ => some [ghostSegment sizes.indexChunkSize, ghostSegment sizes.scaleSize]
  | .mixed, some scale, some indexer =>
    some
      [⟨indexer.ptr, sizes.indexChunkSize, indexer.bytesPerBlock, indexer.bufferSize⟩, ghostSegment sizes.indexChunkSize,
        wholeTensorSegment scale]
  | .mixed, none, some indexer =>
    if indexer.bytesPerBlock ≠ 2 * sizes.indexChunkSize then none
    else
      some
        [⟨indexer.ptr, sizes.indexChunkSize, indexer.bytesPerBlock, indexer.bufferSize⟩,
          ⟨indexer.ptr + sizes.indexChunkSize, sizes.indexChunkSize, indexer.bytesPerBlock, 0⟩, ghostSegment sizes.scaleSize]
  | .mixed, none, none =>
    some [ghostSegment sizes.indexChunkSize, ghostSegment sizes.indexChunkSize, ghostSegment sizes.scaleSize]
  | _, some _, none => none

/-- `_build_segment_rows`. -/
def buildSegmentRows (layers : List SharedIndexerLayerInfo) (mode : LayoutMode) (sizes : SlotSizes) :
    Option (List (List KVCacheSegment)) :=
  layers.mapM fun layer => (indexerSegments mode sizes layer).map (layer.sfaTensors.map wholeTensorSegment ++ ·)

/-- The rows of some layers, as arrays. -/
def layoutOf (layers : List SharedIndexerLayerInfo) (mode : LayoutMode) (sizes : SlotSizes) : Option KVCacheLayout :=
  (buildSegmentRows layers mode sizes).map (setSegmentRows (layers.map (·.layerId)))

/-- A layer's sizes of attention blocks. -/
def sfaSizes (layer : SharedIndexerLayerInfo) : List Nat := layer.sfaTensors.map (·.bytesPerBlock)

/-! ## CUDA -/

inductive CacheRole where
  | attention
  | indexer
  deriving DecidableEq

/-- What follows the layer's number in a name. -/
def afterLayerNumber : List String → Option (List String)
  | component :: number :: rest =>
    if component = "layers" ∧ number ≠ "" ∧ number.all Char.isDigit then some rest else afterLayerNumber (number :: rest)
  | _ => none

/-- `_cuda_cache_role`, for the components of a name in lower case that are not empty. -/
def cudaCacheRole (pathComponents : List String) : CacheRole :=
  if "indexer" ∈ (afterLayerNumber pathComponents).getD pathComponents then .indexer else .attention

/-- A component in `_cuda_tensor_infos`; its blocks must be contiguous. -/
def cudaTensorInfo (component : Tensor) : Option KVCacheTensorInfo :=
  match component.shape, component.stride with
  | numBlocks :: shape, stride :: _ =>
    let bytesPerBlock := stride * component.elementSize
    if bytesPerBlock ≠ shape.prod * component.elementSize then none
      else some ⟨component.dataPtr, bytesPerBlock, numBlocks * bytesPerBlock⟩
  | _, _ => none

/-- `_cuda_tensor_infos`. -/
def cudaTensorInfos (role : CacheRole) : KVLayer → Option (List KVCacheTensorInfo)
  | .tensor t =>
    if t.shape.length = 5 then
      if role ≠ .attention ∨ t.shape.head? ≠ some 2 then none
      else
        match (t.select 0).bind cudaTensorInfo, (t.select 1).bind cudaTensorInfo with
        | some k, some v => some [k, v]
        | _, _ => none
    else (cudaTensorInfo t).map ([·])
  | .tuple _ => none

/-- An item of `layer_tensors`. -/
structure CudaSlots where
  attention : Option (List KVCacheTensorInfo)
  indexer : Option (List KVCacheTensorInfo)

namespace CudaSlots

def slot (slots : CudaSlots) : CacheRole → Option (List KVCacheTensorInfo)
  | .attention => slots.attention
  | .indexer => slots.indexer

def fill (slots : CudaSlots) (infos : List KVCacheTensorInfo) : CacheRole → CudaSlots
  | .attention => { slots with attention := some infos }
  | .indexer => { slots with indexer := some infos }

end CudaSlots

/-- How the engine's names are read. -/
structure Naming (Name : Type) where
  layerIndex : Name → Nat
  pathComponents : Name → List String

variable {Name : Type} (naming : Naming Name)

/-- A turn of the loop over the tensors; every layer has slots, empty at first. -/
def addCudaTensor (layerTensors : Nat → CudaSlots) (item : Name × KVLayer) : Option (Nat → CudaSlots) :=
  let layerId := naming.layerIndex item.1
  let role := cudaCacheRole (naming.pathComponents item.1)
  if ((layerTensors layerId).slot role).isSome then none
  else (cudaTensorInfos role item.2).map fun infos => Function.update layerTensors layerId
    ((layerTensors layerId).fill infos role)

/-- A layer of which all tensors are known. -/
def cudaLayer (layerTensors : Nat → CudaSlots) (layerId : Nat) : Option SharedIndexerLayerInfo :=
  match (layerTensors layerId).attention, (layerTensors layerId).indexer with
  | some attention, none => some ⟨some layerId, attention, none, none⟩
  | some attention, some [indexer] => some ⟨some layerId, attention, some indexer, none⟩
  | _, _ => none

/-- The layers in the order of their numbers. -/
def cudaLayers (kvcaches : List (Name × KVLayer)) : Option (List SharedIndexerLayerInfo) :=
  (kvcaches.foldlM (addCudaTensor naming) fun _ => ⟨none, none⟩).bind fun layerTensors =>
    ((layerIds naming.layerIndex kvcaches).dedup.insertionSort (· ≤ ·)).mapM (cudaLayer layerTensors)

/-- `_build_cuda_layout`. -/
def buildCudaLayout (kvcaches : List (Name × KVLayer)) : Option KVCacheLayout :=
  (cudaLayers naming kvcaches).bind fun layers =>
    if layers.all fun layer => sfaSizes layer == (layers.map sfaSizes).headD [] then
      (validateUniformSizes (layers.filterMap fun layer => layer.indexer.map (·.bytesPerBlock))).bind fun indexerSize =>
        layoutOf layers .bf16 ⟨indexerSize, 0, 0⟩
    else none

/-! ## Ascend -/

/-- What `additional_config` enables. -/
structure AscendConfig where
  sfaC8 : Bool
  liC8 : Bool

namespace AscendConfig

def baseTensorCount (cfg : AscendConfig) : Nat := if cfg.sfaC8 then 1 else 2

def maxExtraCount (cfg : AscendConfig) : Nat := if cfg.liC8 then 2 else 1

end AscendConfig

/-- The layer of a row. -/
def ascendLayer (cfg : AscendConfig) (layerId : Option Nat) (row : List KVCacheTensorInfo) : Option SharedIndexerLayerInfo :=
  let extras := row.drop cfg.baseTensorCount
  if cfg.maxExtraCount < extras.length then none
  else some ⟨layerId, row.take cfg.baseTensorCount, extras[0]?, if extras.length = 2 then extras[1]? else none⟩

def ascendLayers (cfg : AscendConfig) (rows : TensorRows) : Option (List SharedIndexerLayerInfo) :=
  (rows.rowLayerIds.zip rows.tensorRows).mapM fun (layerId, row) => ascendLayer cfg layerId row

/-- Whether a layer has a C8 indexer, or a BF16 one. -/
def isC8 (layer : SharedIndexerLayerInfo) : Bool := layer.scale.isSome

def isBf16 (layer : SharedIndexerLayerInfo) : Bool := layer.indexer.isSome && layer.scale.isNone

def layoutMode (layers : List SharedIndexerLayerInfo) : Option LayoutMode :=
  if layers.any isC8 ∧ layers.any isBf16 then some .mixed
  else if layers.any isC8 then some .liC8
  else if layers.any isBf16 then some .bf16
  else none

/-- The sizes of the slots that a mode has. -/
def slotSizes (layers : List SharedIndexerLayerInfo) (mode : LayoutMode) : Option SlotSizes :=
  let c8Layers := layers.filter isC8
  match mode with
  | .bf16 =>
    (validateUniformSizes ((layers.filter isBf16).filterMap fun layer => layer.indexer.map (·.bytesPerBlock))).map
    fun indexerSize =>
      ⟨indexerSize, 0, 0⟩
  | .liC8 | .mixed =>
    (validateUniformSizes (c8Layers.filterMap fun layer => layer.indexer.map (·.bytesPerBlock))).bind fun indexChunkSize =>
      (validateUniformSizes (c8Layers.filterMap fun layer => layer.scale.map (·.bytesPerBlock))).map fun scaleSize =>
        ⟨0, indexChunkSize, scaleSize⟩

/-- `_build_ascend_layout`. -/
def buildAscendLayout (cfg : AscendConfig) (kvcaches : List (Name × KVLayer)) : Option KVCacheLayout :=
  (collectTensorRows naming.layerIndex kvcaches).bind fun rows =>
    let baseSizes := (rows.tensorRows.headD []).take cfg.baseTensorCount |>.map (·.bytesPerBlock)
    if baseSizes.length ≠ cfg.baseTensorCount then none
    else if rows.tensorRows.all fun row => (row.take cfg.baseTensorCount).map (·.bytesPerBlock) == baseSizes then
      (ascendLayers cfg rows).bind fun layers =>
        (layoutMode layers).bind fun mode => (slotSizes layers mode).bind fun sizes => layoutOf layers mode sizes
    else none

inductive Platform where
  | cuda
  | ascend (cfg : AscendConfig)

/-- `_build_layout`. -/
def build (platform : Platform) (kvcaches : List (Name × KVLayer)) : Option KVCacheLayout :=
  match platform with
  | .cuda => if kvcaches = [] then none else buildCudaLayout naming kvcaches
  | .ascend cfg => buildAscendLayout naming cfg kvcaches

/-! ## Sizes and bytes of a row -/

/-- The sizes of the slots of a mode. -/
def slotVector (sizes : SlotSizes) : LayoutMode → List Nat
  | .bf16 => [sizes.indexerSize]
  | .liC8 => [sizes.indexChunkSize, sizes.scaleSize]
  | .mixed => [sizes.indexChunkSize, sizes.indexChunkSize, sizes.scaleSize]

/-- A layer's tensors fit the slots of a mode. -/
structure Fits (sizes : SlotSizes) (mode : LayoutMode) (layer : SharedIndexerLayerInfo) : Prop where
  bf16 : mode = .bf16 → layer.scale = none ∧ ∀ indexer, layer.indexer = some indexer → indexer.bytesPerBlock = sizes.indexerSize
  c8 : mode ≠ .bf16 → ∀ scale, layer.scale = some scale →
    scale.bytesPerBlock = sizes.scaleSize ∧ ∀ indexer, layer.indexer = some indexer → indexer.bytesPerBlock = sizes.indexChunkSize
  liC8 : mode = .liC8 → layer.scale = none → layer.indexer = none

variable {sizes : SlotSizes} {mode : LayoutMode} {layer : SharedIndexerLayerInfo} {segments : List KVCacheSegment}

/-- A segment over a whole tensor, but for its buffer. -/
theorem bytes_whole (t : KVCacheTensorInfo) (size buffer b : Nat) (hsize : t.bytesPerBlock = size) :
    (KVCacheSegment.mk t.ptr size t.bytesPerBlock buffer).bytes b = t.blockBytes b := by
  rw [← wholeTensorSegment_bytes, ← hsize]
  rfl

/-- The halves of a BF16 indexer. -/
theorem bytes_halves (t : KVCacheTensorInfo) (size buffer b : Nat) (hsize : t.bytesPerBlock = 2 * size) :
    (KVCacheSegment.mk t.ptr size t.bytesPerBlock buffer).bytes b ++
    (KVCacheSegment.mk (t.ptr + size) size t.bytesPerBlock 0).bytes b =
      t.blockBytes b := by
  have hsplit := List.range'_append_1 (s := t.ptr + b * t.bytesPerBlock) (m := size) (n := size)
  unfold KVCacheSegment.bytes segmentBytes KVCacheTensorInfo.blockBytes
  dsimp only
  by_cases hzero : size = 0
  · simp [hzero, hsize]
  · rw [if_neg (by omega), if_neg (by omega)]
    rw [show t.ptr + size + b * t.bytesPerBlock = t.ptr + b * t.bytesPerBlock + size by omega, hsplit, ← Nat.two_mul, ← hsize]

theorem ghostSegment_bytes (size b : Nat) : (ghostSegment size).bytes b = [] := rfl

/-- What the segments after the attention tensors are: the slots' sizes, and the bytes of the indexer and the scale. -/
theorem indexerSegments_spec (hfits : Fits sizes mode layer) (h : indexerSegments mode sizes layer = some segments) :
    segments.map (·.copySize) = slotVector sizes mode ∧
      ∀ b, segments.flatMap (·.bytes b) = (layer.indexer.toList ++ layer.scale.toList).flatMap (·.blockBytes b) := by
  unfold indexerSegments at h
  split at h
  · rename_i scale indexer hindexer
    obtain ⟨hscale, hsize⟩ := hfits.bf16 rfl
    obtain rfl := Option.some.inj h
    rw [hindexer, hscale]
    refine ⟨by simp [wholeTensorSegment, slotVector, hsize indexer hindexer], fun b => ?_⟩
    simp [wholeTensorSegment_bytes]
  · rename_i scale hindexer
    obtain ⟨hscale, _⟩ := hfits.bf16 rfl
    obtain rfl := Option.some.inj h
    rw [hindexer, hscale]
    exact ⟨rfl, fun b => rfl⟩
  · rename_i scale indexer hscale hindexer
    obtain ⟨hscaleSize, hsize⟩ := hfits.c8 (by decide) scale hscale
    obtain rfl := Option.some.inj h
    rw [hindexer, hscale]
    refine ⟨by simp [wholeTensorSegment, slotVector, hsize indexer hindexer, hscaleSize], fun b => ?_⟩
    simp [wholeTensorSegment_bytes]
  · rename_i indexer hscale
    have hindexer := hfits.liC8 rfl hscale
    obtain rfl := Option.some.inj h
    rw [hindexer, hscale]
    exact ⟨rfl, fun b => rfl⟩
  · rename_i scale indexer hscale hindexer
    obtain ⟨hscaleSize, hsize⟩ := hfits.c8 (by decide) scale hscale
    obtain rfl := Option.some.inj h
    rw [hindexer, hscale]
    refine ⟨by simp [wholeTensorSegment, ghostSegment, slotVector, hscaleSize], fun b => ?_⟩
    simp [wholeTensorSegment_bytes, ghostSegment_bytes, bytes_whole indexer _ _ b (hsize indexer hindexer)]
  · rename_i indexer hscale hindexer
    split at h
    · cases h
    · rename_i hsize
      obtain rfl := Option.some.inj h
      rw [hindexer, hscale]
      refine ⟨rfl, fun b => ?_⟩
      have hhalves := bytes_halves indexer sizes.indexChunkSize indexer.bufferSize b (by simpa using hsize)
      simpa [ghostSegment_bytes] using hhalves
  · rename_i hscale hindexer
    obtain rfl := Option.some.inj h
    rw [hindexer, hscale]
    exact ⟨rfl, fun b => rfl⟩
  · cases h

/-- Layers that make a table: one vector of attention sizes, and tensors that fit the slots. -/
structure Regular (layers : List SharedIndexerLayerInfo) (mode : LayoutMode) (sizes : SlotSizes)
    (baseSizes : List Nat) : Prop where
  sfa : ∀ layer ∈ layers, sfaSizes layer = baseSizes
  fits : ∀ layer ∈ layers, Fits sizes mode layer

variable {layers : List SharedIndexerLayerInfo} {baseSizes : List Nat} {layout : KVCacheLayout}

theorem layoutOf_eq_some (h : layoutOf layers mode sizes = some layout) :
    ∃ rows, List.Forall₂ (fun layer row => ∃ segments, indexerSegments mode sizes layer = some segments ∧
        row = layer.sfaTensors.map wholeTensorSegment ++ segments) layers rows ∧
      layout = setSegmentRows (layers.map (·.layerId)) rows := by
  obtain ⟨rows, hrows, rfl⟩ := Option.map_eq_some_iff.mp h
  refine ⟨rows, (mapM_some_iff.mp hrows).imp fun layer row hrow => ?_, rfl⟩
  obtain ⟨segments, hsegments, rfl⟩ := Option.map_eq_some_iff.mp hrow
  exact ⟨segments, hsegments, rfl⟩

/-- One vector of copy sizes. -/
theorem layoutOf_sizes (hreg : Regular layers mode sizes baseSizes) (h : layoutOf layers mode sizes = some layout) :
    layout.tensorSizeLists = List.replicate layers.length (baseSizes ++ slotVector sizes mode) := by
  obtain ⟨rows, hrows, rfl⟩ := layoutOf_eq_some h
  refine List.eq_replicate_iff.mpr ⟨by simp [setSegmentRows, hrows.length_eq], fun sizeList hmem => ?_⟩
  obtain ⟨row, hrow, rfl⟩ := List.mem_map.mp hmem
  obtain ⟨r, hr⟩ := List.mem_iff_getElem?.mp hrow
  obtain ⟨layer, hlayer, segments, hsegments, rfl⟩ := forall₂_at hrows.flip hr
  have hmem := List.mem_of_getElem? hlayer
  rw [List.map_append, (indexerSegments_spec (hreg.fits layer hmem) hsegments).1, ← hreg.sfa layer hmem, sfaSizes, List.map_map]
  rfl

/-- Each row copies the bytes of its layer's tensors. -/
theorem layoutOf_realBytes (hreg : Regular layers mode sizes baseSizes) (h : layoutOf layers mode sizes = some layout) (b : Nat) :
    layout.realBytes b = layers.map fun layer => layer.tensors.flatMap (·.blockBytes b) := by
  obtain ⟨rows, hrows, rfl⟩ := layoutOf_eq_some h
  rw [setSegmentRows_realBytes]
  have hfits := hreg.fits
  clear h hreg
  induction hrows with
  | nil => rfl
  | @cons layer row layers rows hrow _ ih =>
    obtain ⟨segments, hsegments, rfl⟩ := hrow
    have hbytes := (indexerSegments_spec (hfits layer List.mem_cons_self) hsegments).2 b
    rw [List.map_cons, List.map_cons, ih fun l hl => hfits l (List.mem_cons_of_mem _ hl), SharedIndexerLayerInfo.tensors,
      List.append_assoc,
      List.flatMap_append, List.flatMap_append, hbytes, List.flatMap_map]
    simp only [wholeTensorSegment_bytes]

/-! ## The tensors of the layers -/

/-- The tensors of a key, if they are understood. -/
def Platform.tensorInfos (naming : Naming Name) (item : Name × KVLayer) : Platform → Option (List KVCacheTensorInfo)
  | .cuda => cudaTensorInfos (cudaCacheRole (naming.pathComponents item.1)) item.2
  | .ascend _ => Connector.tensorInfos item.2

def Platform.infosOf (naming : Naming Name) (platform : Platform) (item : Name × KVLayer) : List KVCacheTensorInfo :=
  (platform.tensorInfos naming item).getD []

def CudaSlots.tensors (slots : CudaSlots) : List KVCacheTensorInfo := slots.attention.getD [] ++ slots.indexer.getD []

variable {naming} {kvcaches : List (Name × KVLayer)} {item : Name × KVLayer} {layerTensors layerTensors' : Nat → CudaSlots}

theorem CudaSlots.fill_tensors (slots : CudaSlots) (infos : List KVCacheTensorInfo) {role : CacheRole}
    (h : slots.slot role = none) :
    (slots.fill infos role).tensors.Perm (slots.tensors ++ infos) := by
  cases role with
  | attention =>
    have hnone : slots.attention = none := h
    simp only [CudaSlots.tensors, CudaSlots.fill, hnone, Option.getD_some, Option.getD_none, List.nil_append]
    exact List.perm_append_comm
  | indexer =>
    have hnone : slots.indexer = none := h
    simp [CudaSlots.tensors, CudaSlots.fill, hnone]

theorem addCudaTensor_spec (h : addCudaTensor naming layerTensors item = some layerTensors') (layerId : Nat) :
    (layerTensors' layerId).tensors.Perm
      ((layerTensors layerId).tensors ++ if naming.layerIndex item.1 = layerId then Platform.cuda.infosOf naming item
        else []) := by
  unfold addCudaTensor at h
  dsimp only at h
  split at h
  · cases h
  · rename_i hempty
    obtain ⟨infos, hinfos, rfl⟩ := Option.map_eq_some_iff.mp h
    by_cases heq : naming.layerIndex item.1 = layerId
    · rw [← heq, Function.update_self, if_pos rfl, Platform.infosOf, Platform.tensorInfos, hinfos]
      exact CudaSlots.fill_tensors _ infos (by simpa using hempty)
    · rw [Function.update_of_ne (Ne.symm heq), if_neg heq, List.append_nil]

theorem addCudaTensor_known (h : addCudaTensor naming layerTensors item = some layerTensors') :
    (Platform.cuda.tensorInfos naming item).isSome := by
  unfold addCudaTensor at h
  dsimp only at h
  split at h
  · cases h
  · obtain ⟨infos, hinfos, _⟩ := Option.map_eq_some_iff.mp h
    exact Option.isSome_of_mem hinfos

theorem foldlM_addCudaTensor (h : kvcaches.foldlM (addCudaTensor naming) (fun _ => ⟨none, none⟩) = some layerTensors)
    (layerId : Nat) :
    (layerTensors layerId).tensors.Perm (tensorsOf naming.layerIndex (Platform.cuda.infosOf naming) kvcaches layerId) := by
  induction kvcaches using List.reverseRecOn generalizing layerTensors with
  | nil =>
    obtain rfl := Option.some.inj h
    exact List.Perm.refl []
  | append_singleton kvcaches item ih =>
    rw [List.foldlM_append] at h
    obtain ⟨before, hbefore, h⟩ := Option.bind_eq_some_iff.mp h
    have hstep : addCudaTensor naming before item = some layerTensors := by simpa using h
    have htensors : tensorsOf naming.layerIndex (Platform.cuda.infosOf naming) (kvcaches ++ [item]) layerId =
        tensorsOf naming.layerIndex (Platform.cuda.infosOf naming) kvcaches layerId ++
          if naming.layerIndex item.1 = layerId then Platform.cuda.infosOf naming item else [] := by
      rw [tensorsOf, List.filter_append, List.flatMap_append, tensorsOf]
      by_cases heq : naming.layerIndex item.1 = layerId
      · simp [heq]
      · simp [heq]
    rw [htensors]
    exact (addCudaTensor_spec hstep layerId).trans ((ih hbefore).append_right _)

theorem cudaLayer_eq_some {layerId : Nat} (h : cudaLayer layerTensors layerId = some layer) :
    layer.layerId = some layerId ∧ layer.scale = none ∧ layer.tensors = (layerTensors layerId).tensors := by
  unfold cudaLayer at h
  split at h
  · rename_i attention hattention hindexer
    obtain rfl := Option.some.inj h
    exact ⟨rfl, rfl, by simp [SharedIndexerLayerInfo.tensors, CudaSlots.tensors, hattention, hindexer]⟩
  · rename_i attention indexer hattention hindexer
    obtain rfl := Option.some.inj h
    exact ⟨rfl, rfl, by simp [SharedIndexerLayerInfo.tensors, CudaSlots.tensors, hattention, hindexer]⟩
  · cases h

/-- A layer of the table is a layer of the dictionary, with its tensors. -/
def IsLayer (naming : Naming Name) (platform : Platform) (kvcaches : List (Name × KVLayer)) (layerId : Nat)
    (layer : SharedIndexerLayerInfo) : Prop :=
  layer.layerId = some layerId ∧ layer.tensors.Perm (tensorsOf naming.layerIndex (platform.infosOf naming) kvcaches layerId)

/-- The numbers of the layers, from the smallest on. -/
def sortedIds (naming : Naming Name) (kvcaches : List (Name × KVLayer)) : List Nat :=
  (layerIds naming.layerIndex kvcaches).dedup.insertionSort (· ≤ ·)

theorem cudaLayers_spec (h : cudaLayers naming kvcaches = some layers) :
    List.Forall₂ (IsLayer naming .cuda kvcaches) (sortedIds naming kvcaches) layers ∧ ∀ layer ∈ layers, layer.scale = none := by
  obtain ⟨layerTensors, hfold, h⟩ := Option.bind_eq_some_iff.mp h
  have hall : List.Forall₂ (fun layerId layer => cudaLayer layerTensors layerId = some layer)
      (sortedIds naming kvcaches) layers := mapM_some_iff.mp h
  refine ⟨hall.imp fun layerId layer hlayer => ?_, fun layer hlayer => ?_⟩
  · obtain ⟨hid, _, htensors⟩ := cudaLayer_eq_some hlayer
    exact ⟨hid, htensors ▸ foldlM_addCudaTensor hfold layerId⟩
  · obtain ⟨r, hr⟩ := List.mem_iff_getElem?.mp hlayer
    obtain ⟨layerId, _, hlayer⟩ := forall₂_at hall.flip hr
    exact (cudaLayer_eq_some hlayer).2.1

theorem mem_sortedIds {layerId : Nat} : layerId ∈ sortedIds naming kvcaches ↔ layerId ∈ layerIds naming.layerIndex kvcaches := by
  rw [sortedIds, (List.perm_insertionSort _ _).mem_iff, List.mem_dedup]

theorem sortedIds_nodup : (sortedIds naming kvcaches).Nodup :=
  (List.perm_insertionSort _ _).nodup_iff.mpr (List.nodup_dedup _)

/-- On CUDA every tensor is in one layer. -/
theorem cudaLayers_perm (h : cudaLayers naming kvcaches = some layers) :
    (layers.flatMap (·.tensors)).Perm (kvcaches.flatMap (Platform.cuda.infosOf naming)) := by
  have hnodup : (sortedIds naming kvcaches).Nodup := sortedIds_nodup
  have hgather := gather_perm hnodup kvcaches (fun item => naming.layerIndex item.1)
    (fun item hitem => mem_sortedIds.mpr (List.mem_map.mpr ⟨item, hitem, rfl⟩)) (Platform.cuda.infosOf naming)
  exact (forall₂_flatMap_perm ((cudaLayers_spec h).1.imp fun _ _ hlayer => hlayer.2.symm)).symm.trans hgather

/-! ### On Ascend -/

variable {cfg : AscendConfig} {rows : TensorRows} {row : List KVCacheTensorInfo}

theorem ascendLayer_eq_some {layerId : Option Nat} (h : ascendLayer cfg layerId row = some layer) :
    layer.layerId = layerId ∧ layer.tensors = row ∧ sfaSizes layer = (row.take cfg.baseTensorCount).map (·.bytesPerBlock) := by
  unfold ascendLayer at h
  dsimp only at h
  split at h
  · cases h
  · rename_i hcount
    obtain rfl := Option.some.inj h
    have hmax : cfg.maxExtraCount ≤ 2 := by
      unfold AscendConfig.maxExtraCount
      split <;> decide
    refine ⟨rfl, ?_, rfl⟩
    have hrow := List.take_append_drop cfg.baseTensorCount row
    rw [SharedIndexerLayerInfo.tensors, List.append_assoc]
    conv_rhs => rw [← hrow]
    congr 1
    match hextras : row.drop cfg.baseTensorCount with
    | [] => rfl
    | [indexer] => rfl
    | [indexer, scale] => rfl
    | _ :: _ :: _ :: _ =>
      rw [hextras, List.length_cons, List.length_cons, List.length_cons] at hcount
      omega

/-- On Ascend layer `r` of the table is row `r`. -/
theorem ascendLayers_spec (h : ascendLayers cfg rows = some layers) :
    List.Forall₂ (fun x layer => ascendLayer cfg x.1 x.2 = some layer) (rows.rowLayerIds.zip rows.tensorRows) layers :=
  mapM_some_iff.mp h

theorem ascendLayers_perm {n firstLayerId : Nat} (hc : Collected naming.layerIndex n firstLayerId kvcaches rows)
    (h : ascendLayers cfg rows = some layers) : (layers.flatMap (·.tensors)).Perm (kvcaches.flatMap Connector.infosOf) := by
  have hrows : (rows.rowLayerIds.zip rows.tensorRows).flatMap Prod.snd = rows.tensorRows.flatten := by
    rw [List.flatMap_def, List.map_snd_zip (by rw [hc.rowsLength, hc.idsLength])]
  have hlayers :=
      forall₂_flatMap_perm ((ascendLayers_spec h).imp fun x layer hlayer => List.Perm.of_eq (ascendLayer_eq_some hlayer).2.1.symm)
  exact hlayers.symm.trans (hrows ▸ hc.perm)

/-! ## Accepted layers -/

theorem validateUniformSizes_spec {values : List Nat} {size : Nat} (h : validateUniformSizes values = some size) : ∀ v ∈ values,
    v = size := by
  unfold validateUniformSizes at h
  split at h
  · rename_i size' hdedup
    obtain rfl := Option.some.inj h
    intro v hv
    have hmem : v ∈ values.dedup := List.mem_dedup.mpr hv
    rw [hdedup] at hmem
    exact List.mem_singleton.mp hmem
  · cases h

theorem validateUniformSizes_ne_nil {values : List Nat} {size : Nat} (h : validateUniformSizes values = some size) :
    values ≠ [] := by
  intro hnil
  rw [hnil] at h
  cases h

/-- The table of a layout: the layers that its rows are made of. -/
structure Table (layers : List SharedIndexerLayerInfo) (layout : KVCacheLayout) (mode : LayoutMode) (sizes : SlotSizes)
    (baseSizes : List Nat) : Prop where
  regular : Regular layers mode sizes baseSizes
  rows : layoutOf layers mode sizes = some layout
  ne_nil : layers ≠ []

theorem buildCudaLayout_spec (h : buildCudaLayout naming kvcaches = some layout) :
    ∃ layers sizes baseSizes, cudaLayers naming kvcaches = some layers ∧ Table layers layout .bf16 sizes baseSizes := by
  obtain ⟨layers, hlayers, h⟩ := Option.bind_eq_some_iff.mp h
  split at h
  · rename_i hsfa
    obtain ⟨indexerSize, hsize, hrows⟩ := Option.bind_eq_some_iff.mp h
    refine ⟨layers, _, (layers.map sfaSizes).headD [], hlayers, ⟨⟨?_, ?_⟩, hrows, ?_⟩⟩
    · intro layer hlayer
      simpa using List.all_eq_true.mp hsfa layer hlayer
    · intro layer hlayer
      refine ⟨fun _ => ⟨(cudaLayers_spec hlayers).2 layer hlayer, fun indexer hindexer => ?_⟩, fun hne => absurd rfl hne, nofun⟩
      exact validateUniformSizes_spec hsize _ (List.mem_filterMap.mpr ⟨layer, hlayer, by rw [hindexer]; rfl⟩)
    · intro hnil
      exact validateUniformSizes_ne_nil hsize (by rw [hnil]; rfl)
  · cases h

/-- With the sizes of its slots a mode fits all layers. -/
theorem slotSizes_fits (hmode : layoutMode layers = some mode)
    (h : slotSizes layers mode = some sizes) : ∀ layer ∈ layers, Fits sizes mode layer := by
  intro layer hlayer
  have hbf16 : mode = .bf16 → layers.any isC8 = false := by
    intro e
    subst e
    unfold layoutMode at hmode
    cases hc8 : layers.any isC8 with
    | false => rfl
    | true =>
      rw [hc8] at hmode
      split at hmode <;> simp at hmode
  have hliC8 : mode = .liC8 → layers.any isBf16 = false := by
    intro e
    subst e
    unfold layoutMode at hmode
    cases hb : layers.any isBf16 with
    | false => rfl
    | true =>
      rw [hb] at hmode
      cases hc8 : layers.any isC8 with
      | false => rw [hc8] at hmode; simp at hmode
      | true => rw [hc8] at hmode; simp at hmode
  refine ⟨?_, ?_, ?_⟩
  · intro heq
    subst heq
    have hscale : layer.scale = none := by
      have hnot := List.any_eq_false.mp (hbf16 rfl) layer hlayer
      simpa [isC8] using hnot
    refine ⟨hscale, fun indexer hsome => ?_⟩
    obtain ⟨indexerSize, hsize, rfl⟩ := Option.map_eq_some_iff.mp h
    refine validateUniformSizes_spec hsize _ (List.mem_filterMap.mpr ⟨layer, List.mem_filter.mpr ⟨hlayer, ?_⟩,
      by rw [hsome]; rfl⟩)
    simp [isBf16, hsome, hscale]
  · intro hne scale hscale
    have hc8 : layer ∈ layers.filter isC8 := List.mem_filter.mpr ⟨hlayer, by simp [isC8, hscale]⟩
    have hsizes : ∃ index scale,
        validateUniformSizes ((layers.filter isC8).filterMap fun layer => layer.indexer.map (·.bytesPerBlock)) = some index ∧
        validateUniformSizes ((layers.filter isC8).filterMap fun layer => layer.scale.map (·.bytesPerBlock)) = some scale ∧
        sizes = ⟨0, index, scale⟩ := by
      cases mode with
      | bf16 => exact absurd rfl hne
      | liC8 | mixed =>
        obtain ⟨index, hindex, h⟩ := Option.bind_eq_some_iff.mp h
        obtain ⟨scale, hscale, rfl⟩ := Option.map_eq_some_iff.mp h
        exact ⟨index, scale, hindex, hscale, rfl⟩
    obtain ⟨index, scaleSize, hindex, hscaleSize, rfl⟩ := hsizes
    refine ⟨validateUniformSizes_spec hscaleSize _ (List.mem_filterMap.mpr ⟨layer, hc8, by rw [hscale]; rfl⟩),
      fun indexer hsome => ?_⟩
    exact validateUniformSizes_spec hindex _ (List.mem_filterMap.mpr ⟨layer, hc8, by rw [hsome]; rfl⟩)
  · intro heq hscale
    have hnot := List.any_eq_false.mp (hliC8 heq) layer hlayer
    simpa [isBf16, hscale] using hnot

theorem buildAscendLayout_spec (h : buildAscendLayout naming cfg kvcaches = some layout) :
    ∃ rows layers mode sizes baseSizes, collectTensorRows naming.layerIndex kvcaches = some rows ∧
    ascendLayers cfg rows = some layers ∧
      Table layers layout mode sizes baseSizes := by
  obtain ⟨rows, hrows, h⟩ := Option.bind_eq_some_iff.mp h
  dsimp only at h
  split at h
  · cases h
  · split at h
    · rename_i hbase
      obtain ⟨layers, hlayers, h⟩ := Option.bind_eq_some_iff.mp h
      obtain ⟨mode, hmode, h⟩ := Option.bind_eq_some_iff.mp h
      obtain ⟨sizes, hsizes, hlayout⟩ := Option.bind_eq_some_iff.mp h
      have hat : ∀ layer ∈ layers, ∃ x, x ∈ rows.rowLayerIds.zip rows.tensorRows ∧ ascendLayer cfg x.1 x.2 = some layer := by
        intro layer hlayer
        obtain ⟨r, hr⟩ := List.mem_iff_getElem?.mp hlayer
        obtain ⟨x, hx, hlayer⟩ := forall₂_at (ascendLayers_spec hlayers).flip hr
        exact ⟨x, List.mem_of_getElem? hx, hlayer⟩
      refine ⟨rows, layers, mode, sizes, ((rows.tensorRows.headD []).take cfg.baseTensorCount).map (·.bytesPerBlock),
        hrows, hlayers,
        ⟨⟨?_, slotSizes_fits hmode hsizes⟩, hlayout, ?_⟩⟩
      · intro layer hlayer
        obtain ⟨x, hx, hlayer⟩ := hat layer hlayer
        rw [(ascendLayer_eq_some hlayer).2.2]
        simpa using List.all_eq_true.mp hbase x.2 (List.of_mem_zip hx).2
      · intro hnil
        rw [hnil] at hmode
        cases hmode
    · cases h

/-- Whatever the platform, the table of an accepted layout has every tensor in one layer. -/
theorem build_table {platform : Platform} (h : build naming platform kvcaches = some layout) :
    ∃ layers mode sizes baseSizes, Table layers layout mode sizes baseSizes ∧
      (∀ item ∈ kvcaches, (platform.tensorInfos naming item).isSome) ∧
      (layers.flatMap (·.tensors)).Perm (kvcaches.flatMap (platform.infosOf naming)) := by
  cases platform with
  | cuda =>
    unfold build at h
    dsimp only at h
    split at h
    · cases h
    · obtain ⟨layers, sizes, baseSizes, hlayers, htable⟩ := buildCudaLayout_spec h
      obtain ⟨layerTensors, hfold, _⟩ := Option.bind_eq_some_iff.mp hlayers
      refine ⟨layers, .bf16, sizes, baseSizes, htable, ?_, cudaLayers_perm hlayers⟩
      exact foldlM_forall (fun slots item slots' hstep => addCudaTensor_known hstep) hfold
  | ascend cfg =>
    obtain ⟨rows, layers, mode, sizes, baseSizes, hrows, hlayers, htable⟩ := buildAscendLayout_spec h
    obtain ⟨firstLayerId, _, hc⟩ := collectTensorRows_spec hrows
    exact ⟨layers, mode, sizes, baseSizes, htable, collectTensorRows_known hrows, ascendLayers_perm hc hlayers⟩

/-- The table of an accepted layout, on either platform: all rows have one vector of copy sizes; every
    tensor of the dictionary is understood, and the real segments of all rows are the bytes of each
    tensor's block, once; the store is told this vector, its sum as the shard's size, and as the block's
    size the sum over all rows, or over all layers of the model where they are split among stages. -/
theorem segment_table_spec (naming : Naming Name) (platform : Platform) (kvcaches : List (Name × KVLayer))
    (layout : KVCacheLayout)
    (h : build naming platform kvcaches = some layout) :
    ∃ sizes, (∀ row ∈ layout.tensorSizeLists, row = sizes) ∧
      (∀ item ∈ kvcaches, (platform.tensorInfos naming item).isSome) ∧
      (∀ b, (layout.realBytes b).flatten.Perm ((kvcaches.flatMap (platform.infosOf naming)).flatMap (·.blockBytes b))) ∧
      ∀ (model : ModelConfig) (blocksPerChunk : Nat),
        (layout.storeSizes model blocksPerChunk).tensorSizeList = (List.replicate blocksPerChunk sizes).flatten ∧
        (layout.storeSizes model blocksPerChunk).shardSize = sizes.sum * blocksPerChunk ∧
        (layout.storeSizes model blocksPerChunk).blockSize =
          sizes.sum * (if 1 < model.ppSize then model.numHiddenLayers else layout.tensorSizeLists.length) * blocksPerChunk := by
  obtain ⟨layers, mode, sizes, baseSizes, htable, hknown, hperm⟩ := build_table h
  have hsizes : layout.tensorSizeLists = List.replicate layers.length (baseSizes ++ slotVector sizes mode) :=
    layoutOf_sizes htable.regular htable.rows
  have hhead : layout.tensorSizeLists.headD [] = baseSizes ++ slotVector sizes mode := by
    rw [hsizes]
    cases hlayers : layers with
    | nil => exact absurd hlayers htable.ne_nil
    | cons layer rest => rfl
  refine ⟨baseSizes ++ slotVector sizes mode, ?_, hknown, ?_, ?_⟩
  · intro row hrow
    rw [hsizes] at hrow
    exact List.eq_of_mem_replicate hrow
  · intro b
    rw [layoutOf_realBytes htable.regular htable.rows, ← List.flatMap_def]
    have hbytes := hperm.flatMap_right fun t : KVCacheTensorInfo => t.blockBytes b
    rwa [List.flatMap_assoc] at hbytes
  · intro model blocksPerChunk
    refine ⟨by rw [KVCacheLayout.storeSizes, KVCacheLayout.tensorSizeList, hhead],
      by rw [KVCacheLayout.storeSizes, KVCacheLayout.shardSize, hhead], ?_⟩
    rw [KVCacheLayout.storeSizes, KVCacheLayout.blockSize]
    split
    · rw [hhead]
    · rw [hsizes, List.map_replicate, List.sum_replicate_nat, List.length_replicate, Nat.mul_comm layers.length]

section Sample

/-- Names that are numbers of layers. -/
def sampleNaming : Naming Nat := ⟨id, fun _ => []⟩

/-- A contiguous tensor of two blocks of 2 tokens with one head; elements of 2 bytes. -/
def sampleTensor (ptr headDim : Nat) : Tensor := ⟨ptr, [2, 2, 1, headDim], [2 * headDim, headDim, headDim, 1], 2⟩

/-- Two layers with one attention tensor; the first has an indexer as well. -/
def sampleCaches : List (Nat × KVLayer) :=
  [(0, .tuple [sampleTensor 1000 2, sampleTensor 2000 1]), (1, .tuple [sampleTensor 3000 2])]

def samplePlatform : Platform := .ascend ⟨true, false⟩

def sampleLayout : KVCacheLayout where
  rowLayerIds := [some 0, some 1]
  basePtrs := [[1000, 2000], [3000, 0]]
  tensorSizeLists := [[8, 4], [8, 4]]
  blockStrideLists := [[8, 4], [8, 0]]
  bufferSizes := [[16, 8], [16, 0]]

theorem sampleLayout_built : build sampleNaming samplePlatform sampleCaches = some sampleLayout := rfl

theorem segment_table_spec_two_layers :
    ∃ sizes, (∀ row ∈ sampleLayout.tensorSizeLists, row = sizes) ∧
      (sampleLayout.realBytes 1).flatten.Perm ((sampleCaches.flatMap (samplePlatform.infosOf sampleNaming)).flatMap
        (·.blockBytes 1)) := by
  obtain ⟨sizes, hsizes, _, hbytes, _⟩ :=
      segment_table_spec sampleNaming samplePlatform sampleCaches sampleLayout sampleLayout_built
  exact ⟨sizes, hsizes, hbytes 1⟩

/-- The size announced for a block is not one row's sum: here it is that of both rows. -/
theorem announced_block_has_all_rows :
    ¬ ∀ (platform : Platform) (kvcaches : List (Nat × KVLayer)) (layout : KVCacheLayout) (model : ModelConfig),
      build sampleNaming platform kvcaches = some layout →
      (layout.storeSizes model 1).blockSize = (layout.tensorSizeLists.headD []).sum := by
  intro hall
  have h := hall samplePlatform sampleCaches sampleLayout ⟨1, 2, by decide⟩ sampleLayout_built
  revert h
  decide

end Sample

end SharedIndexer

end UnifiedCache.Connector
