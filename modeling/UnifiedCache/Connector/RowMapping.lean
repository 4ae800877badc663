/-
  UnifiedCache.Connector.RowMapping — which row of the layout a layer is loaded into and dumped from
  (ucm/integration/vllm/ucm_connector.py: `register_kv_caches` of `UCMDirectConnector`, and the rows in
  `start_load_kv`, `wait_for_layer_load` and `_submit_layerwise_dump_task` of `UCMLayerWiseConnector`).

  The connector numbers its rows from the smallest layer. The generic layout and that of Ascend number
  theirs from the layer of the first key, and a layer before it comes to the end of the list; the CUDA
  layout sorts the layers. A deferred dump submits the same row later.

  - `collected_place`: where the layers are, as the first key has it.
  - `rows_select_iff`: the connector's rows are the layers' own just when the first key is of the
    smallest layer, or on CUDA.
  - `first_key_of_second_layer`: two layers in the other order are swapped.
-/

import Mathlib.Data.Nat.ModEq
import UnifiedCache.Connector.SharedIndexer

namespace UnifiedCache.Connector

open UnifiedCache.Base
open UnifiedCache.Connector.SharedIndexer (Naming Platform sortedIds)

/-! ## The connector's rows -/

/-- The two classes of layouts. -/
inductive LayoutClass where
  | generic
  | sharedIndexer (platform : Platform)

variable {Name : Type}

def LayoutClass.build (naming : Naming Name) (kvcaches : List (Name × KVLayer)) : LayoutClass → Option KVCacheLayout
  | .generic => KVCacheLayout.build naming.layerIndex kvcaches
  | .sharedIndexer platform => SharedIndexer.build naming platform kvcaches

/-- The tensors of a key. -/
def LayoutClass.infosOf (naming : Naming Name) : LayoutClass → Name × KVLayer → List KVCacheTensorInfo
  | .generic => Connector.infosOf
  | .sharedIndexer platform => platform.infosOf naming

/-- What a worker has registered. -/
structure LayerwiseConnector where
  layout : KVCacheLayout
  layerIds : List Nat
  firstLayerId : Nat

/-- `register_kv_caches`. -/
def registerKvCaches (naming : Naming Name) (layoutCls : LayoutClass) (kvcaches : List (Name × KVLayer)) :
    Option LayerwiseConnector :=
  (layoutCls.build naming kvcaches).bind fun layout =>
    (sortedIds naming kvcaches).head?.map fun firstLayerId => ⟨layout, sortedIds naming kvcaches, firstLayerId⟩

/-- The calls of a step that submit a layer; `layerId` is the layer of the name they are given. -/
inductive LayerCall where
  | startLoadKv
  | waitForLayerLoad (layerId : Nat)
  | saveKvLayer (layerId : Nat)

/-- The layer that a call submits, and the row of `extract_block_addrs` that it takes for it. -/
def LayerwiseConnector.submission (c : LayerwiseConnector) : LayerCall → Option (Nat × Int)
  | .startLoadKv => some (c.firstLayerId, 0)
  | .waitForLayerLoad layerId =>
    let nextLayerId := layerId + 1
    if nextLayerId ∈ c.layerIds then some (nextLayerId, (nextLayerId : Int) - c.firstLayerId) else none
  | .saveKvLayer layerId => if layerId ∈ c.layerIds then some (layerId, (layerId : Int) - c.firstLayerId) else none

/-- Row `r` of a layout is that of a layer: it was filled from its keys and from no other's, its bases and
    strides give the bytes of this layer's tensors in each block, and in a generic layout they are the
    tensors' own. -/
structure RowOfLayer (naming : Naming Name) (layoutCls : LayoutClass) (kvcaches : List (Name × KVLayer)) (layout : KVCacheLayout)
    (layerId r : Nat) : Prop where
  label : layout.rowLayerIds[r]? = some (some layerId)
  bytes : ∀ b, ∃ bytes, (layout.realBytes b)[r]? = some bytes ∧
    bytes.Perm ((tensorsOf naming.layerIndex (layoutCls.infosOf naming) kvcaches layerId).flatMap (·.blockBytes b))
  own : layoutCls = .generic →
      layout.basePtrs[r]? = some ((tensorsOf naming.layerIndex Connector.infosOf kvcaches layerId).map (·.ptr)) ∧
    layout.blockStrideLists[r]? = some ((tensorsOf naming.layerIndex Connector.infosOf kvcaches layerId).map (·.bytesPerBlock))

/-- A row that a call takes for a layer is the layer's, and needs no wrapping. -/
def Selects (naming : Naming Name) (layoutCls : LayoutClass) (kvcaches : List (Name × KVLayer)) (layout : KVCacheLayout)
    (layerId : Nat)
    (row : Int) : Prop :=
  0 ≤ row ∧ RowOfLayer naming layoutCls kvcaches layout layerId row.toNat

/-! ## Consecutive layers -/

section Contiguous

variable {naming : Naming Name} {kvcaches : List (Name × KVLayer)} {lo n firstLayerId layerId : Nat} {rows : TensorRows}

/-- The layers of the keys are those from `lo` on. -/
def Contiguous (naming : Naming Name) (kvcaches : List (Name × KVLayer)) (lo n : Nat) : Prop :=
  ∀ layerId, layerId ∈ layerIds naming.layerIndex kvcaches ↔ lo ≤ layerId ∧ layerId < lo + n

theorem Contiguous.dedup_perm (h : Contiguous naming kvcaches lo n) :
    (layerIds naming.layerIndex kvcaches).dedup.Perm (List.range' lo n) := by
  refine (List.perm_ext_iff_of_nodup (List.nodup_dedup _) List.nodup_range').mpr fun layerId => ?_
  rw [List.mem_dedup, h layerId, List.mem_range'_1]

theorem Contiguous.sortedIds_eq (h : Contiguous naming kvcaches lo n) : sortedIds naming kvcaches = List.range' lo n := by
  refine List.Perm.eq_of_sortedLE List.sortedLE_insertionSort ?_ ((List.perm_insertionSort _ _).trans h.dedup_perm)
  exact List.sortedLE_range' lo n 1

theorem Contiguous.length_eq (h : Contiguous naming kvcaches lo n) : (layerIds naming.layerIndex kvcaches).dedup.length = n := by
  rw [h.dedup_perm.length_eq, List.length_range']

/-- The row of a layer, counted from the first key's. -/
def place (n firstLayerId layerId : Nat) : Nat := (n + layerId - firstLayerId) % n

theorem rowOf_eq (hfirst : lo ≤ firstLayerId ∧ firstLayerId < lo + n) (item : Name × KVLayer)
    (hitem : lo ≤ naming.layerIndex item.1 ∧ naming.layerIndex item.1 < lo + n) :
    rowOf naming.layerIndex n firstLayerId item = some (place n firstLayerId (naming.layerIndex item.1)) := by
  have hnat : (n : Int) + (naming.layerIndex item.1 - firstLayerId) =
      ((n + naming.layerIndex item.1 - firstLayerId : Nat) : Int) := by omega
  rw [rowOf, pyAt_eq_mod (by omega) (by omega), hnat, ← Int.natCast_mod, Int.toNat_natCast]
  rfl

theorem place_inj (hfirst : lo ≤ firstLayerId ∧ firstLayerId < lo + n) {l l' : Nat} (hl : lo ≤ l ∧ l < lo + n)
    (hl' : lo ≤ l' ∧ l' < lo + n)
    (h : place n firstLayerId l = place n firstLayerId l') : l = l' := by
  have hmod : Nat.ModEq n (n + l - firstLayerId) (n + l' - firstLayerId) := h
  rcases Nat.le_total l l' with hle | hle
  · have hdvd := (Nat.modEq_iff_dvd' (by omega)).mp hmod
    have hzero := Nat.eq_zero_of_dvd_of_lt hdvd (by omega)
    omega
  · have hdvd := (Nat.modEq_iff_dvd' (by omega)).mp hmod.symm
    have hzero := Nat.eq_zero_of_dvd_of_lt hdvd (by omega)
    omega

/-- What is in the rows: each layer at its place. -/
theorem collected_place (hcontig : Contiguous naming kvcaches lo n) (hfirst : lo ≤ firstLayerId ∧ firstLayerId < lo + n)
    (hc : Collected naming.layerIndex n firstLayerId kvcaches rows) (hlayer : layerId ∈ layerIds naming.layerIndex kvcaches) :
    rows.tensorRows[place n firstLayerId layerId]? = some (tensorsOf naming.layerIndex Connector.infosOf kvcaches layerId) ∧
      rows.rowLayerIds[place n firstLayerId layerId]? = some (some layerId) := by
  have hrange := (hcontig layerId).mp hlayer
  have hlt : place n firstLayerId layerId < n := Nat.mod_lt _ (by omega)
  have hitems : itemsOf naming.layerIndex n firstLayerId kvcaches (place n firstLayerId layerId) =
      kvcaches.filter fun item => naming.layerIndex item.1 = layerId := by
    refine List.filter_congr fun item hitem => ?_
    have hin := (hcontig (naming.layerIndex item.1)).mp (List.mem_map.mpr ⟨item, hitem, rfl⟩)
    rw [decide_eq_decide, rowOf_eq hfirst item hin, Option.some_inj]
    exact ⟨place_inj hfirst hin hrange, fun heq => by rw [heq]⟩
  refine ⟨by rw [hc.tensors _ hlt, hitems]; rfl, ?_⟩
  rw [hc.ids _ hlt, hitems]
  obtain ⟨item, hitem, heq⟩ := List.mem_map.mp hlayer
  cases hlast : (kvcaches.filter fun item => naming.layerIndex item.1 = layerId).getLast? with
  | none =>
    have hnil := List.getLast?_eq_none_iff.mp hlast
    exact absurd (List.mem_filter.mpr ⟨hitem, by simpa using heq⟩) (hnil ▸ List.not_mem_nil)
  | some last =>
    have hmem := (List.mem_filter.mp (List.mem_of_getLast? hlast)).2
    rw [Option.map_some, of_decide_eq_true hmem]

/-! ## The rows of each layout -/

variable {layout : KVCacheLayout}

/-- A generic layout is a table of whole tensors. -/
theorem build_generic (h : KVCacheLayout.build naming.layerIndex kvcaches = some layout) :
    ∃ rows, collectTensorRows naming.layerIndex kvcaches = some rows ∧
      layout = setSegmentRows rows.rowLayerIds (rows.tensorRows.map (·.map wholeTensorSegment)) := by
  obtain ⟨rows, hrows, h⟩ := Option.bind_eq_some_iff.mp h
  refine ⟨rows, hrows, ?_⟩
  dsimp only at h
  split at h
  · cases h
  · split at h
    · obtain rfl := Option.some.inj h
      simp only [setSegmentRows, List.map_map, Function.comp_def, wholeTensorSegment]
    · cases h

theorem generic_rows (hcontig : Contiguous naming kvcaches lo n)
    (h : KVCacheLayout.build naming.layerIndex kvcaches = some layout) :
    ∃ firstLayerId, (layerIds naming.layerIndex kvcaches).head? = some firstLayerId ∧
      ∀ layerId ∈ layerIds naming.layerIndex kvcaches,
      RowOfLayer naming .generic kvcaches layout layerId (place n firstLayerId layerId) := by
  obtain ⟨rows, hrows, rfl⟩ := build_generic h
  obtain ⟨firstLayerId, hfirst, hc⟩ := collectTensorRows_spec hrows
  rw [hcontig.length_eq] at hc
  refine ⟨firstLayerId, hfirst, fun layerId hlayer => ?_⟩
  obtain ⟨htensors, hlabel⟩ := collected_place hcontig ((hcontig firstLayerId).mp (List.mem_of_head? hfirst)) hc hlayer
  refine ⟨hlabel, fun b => ⟨_, ?_, List.Perm.refl _⟩, fun _ => ⟨?_, ?_⟩⟩
  · rw [setSegmentRows_realBytes, List.map_map, List.getElem?_map, htensors, Option.map_some, Function.comp_apply,
      List.flatMap_map]
    simp only [wholeTensorSegment_bytes]
    rfl
  · simp only [setSegmentRows, List.map_map, List.getElem?_map, htensors, Option.map_some, Function.comp_def, wholeTensorSegment]
  · simp only [setSegmentRows, List.map_map, List.getElem?_map, htensors, Option.map_some, Function.comp_def, wholeTensorSegment]

/-- A row of a table of segments is its layer's. -/
theorem SharedIndexer.Table.row {layers : List SharedIndexerLayerInfo} {mode : LayoutMode} {sizes : SharedIndexer.SlotSizes}
    {baseSizes : List Nat}
    {platform : Platform} {layer : SharedIndexerLayerInfo} {r : Nat}
    (htable : SharedIndexer.Table layers layout mode sizes baseSizes)
    (hr : layers[r]? = some layer) (hlayer : SharedIndexer.IsLayer naming platform kvcaches layerId layer) :
    RowOfLayer naming (.sharedIndexer platform) kvcaches layout layerId r := by
  refine ⟨?_, fun b => ⟨layer.tensors.flatMap (·.blockBytes b), ?_, hlayer.2.flatMap_right _⟩, nofun⟩
  · obtain ⟨segmentRows, _, rfl⟩ := SharedIndexer.layoutOf_eq_some htable.rows
    simp only [setSegmentRows, List.getElem?_map, hr, Option.map_some, hlayer.1]
  · rw [SharedIndexer.layoutOf_realBytes htable.regular htable.rows, List.getElem?_map, hr]
    rfl

theorem ascend_rows {cfg : SharedIndexer.AscendConfig} (hcontig : Contiguous naming kvcaches lo n)
    (h : SharedIndexer.buildAscendLayout naming cfg kvcaches = some layout) :
    ∃ firstLayerId, (layerIds naming.layerIndex kvcaches).head? = some firstLayerId ∧
      ∀ layerId ∈ layerIds naming.layerIndex kvcaches,
        RowOfLayer naming (.sharedIndexer (.ascend cfg)) kvcaches layout layerId (place n firstLayerId layerId) := by
  obtain ⟨rows, layers, mode, sizes, baseSizes, hrows, hlayers, htable⟩ := SharedIndexer.buildAscendLayout_spec h
  obtain ⟨firstLayerId, hfirst, hc⟩ := collectTensorRows_spec hrows
  rw [hcontig.length_eq] at hc
  refine ⟨firstLayerId, hfirst, fun layerId hlayer => ?_⟩
  obtain ⟨htensors, hlabel⟩ := collected_place hcontig ((hcontig firstLayerId).mp (List.mem_of_head? hfirst)) hc hlayer
  have hzip : (rows.rowLayerIds.zip rows.tensorRows)[place n firstLayerId layerId]? =
      some (some layerId, tensorsOf naming.layerIndex Connector.infosOf kvcaches layerId) :=
      List.getElem?_zip_eq_some.mpr ⟨hlabel, htensors⟩
  obtain ⟨layer, hr, hrow⟩ := forall₂_at (SharedIndexer.ascendLayers_spec hlayers) hzip
  obtain ⟨hid, htensors, _⟩ := SharedIndexer.ascendLayer_eq_some hrow
  exact htable.row hr ⟨hid, List.Perm.of_eq htensors⟩

theorem cuda_rows (hcontig : Contiguous naming kvcaches lo n) (h : SharedIndexer.buildCudaLayout naming kvcaches = some layout) :
    ∀ layerId ∈ layerIds naming.layerIndex kvcaches,
    RowOfLayer naming (.sharedIndexer .cuda) kvcaches layout layerId (layerId - lo) := by
  obtain ⟨layers, sizes, baseSizes, hlayers, htable⟩ := SharedIndexer.buildCudaLayout_spec h
  intro layerId hlayer
  have hrange := (hcontig layerId).mp hlayer
  have hat : (sortedIds naming kvcaches)[layerId - lo]? = some layerId := by
    rw [hcontig.sortedIds_eq, List.getElem?_range' (by omega)]
    congr 1
    omega
  obtain ⟨layer, hr, hrow⟩ := forall₂_at (SharedIndexer.cudaLayers_spec hlayers).1 hat
  exact htable.row hr hrow

/-- Without sorting, the layers are at their places from the first key's. -/
theorem placed_rows {layoutCls : LayoutClass} (hcontig : Contiguous naming kvcaches lo n)
    (hcls : layoutCls ≠ .sharedIndexer .cuda)
    (h : layoutCls.build naming kvcaches = some layout) :
    ∃ firstLayerId, (layerIds naming.layerIndex kvcaches).head? = some firstLayerId ∧
      ∀ layerId ∈ layerIds naming.layerIndex kvcaches,
      RowOfLayer naming layoutCls kvcaches layout layerId (place n firstLayerId layerId) := by
  cases layoutCls with
  | generic => exact generic_rows hcontig h
  | sharedIndexer platform =>
    cases platform with
    | cuda => exact absurd rfl hcls
    | ascend cfg => exact ascend_rows hcontig h

theorem sorted_rows (hcontig : Contiguous naming kvcaches lo n)
    (h : (LayoutClass.sharedIndexer .cuda).build naming kvcaches = some layout) :
    ∀ layerId ∈ layerIds naming.layerIndex kvcaches,
    RowOfLayer naming (.sharedIndexer .cuda) kvcaches layout layerId (layerId - lo) := by
  unfold LayoutClass.build SharedIndexer.build at h
  dsimp only at h
  split at h
  · cases h
  · exact cuda_rows hcontig h

/-- A call submits a layer with the row that counts from the smallest one. -/
theorem submission_eq {c : LayerwiseConnector} {call : LayerCall} {row : Int} (hsub : c.submission call = some (layerId, row))
    (hfirst : c.firstLayerId ∈ c.layerIds) : layerId ∈ c.layerIds ∧ row = (layerId : Int) - c.firstLayerId := by
  unfold LayerwiseConnector.submission at hsub
  cases call with
  | startLoadKv =>
    obtain ⟨rfl, rfl⟩ := Prod.mk.inj (Option.some.inj hsub)
    exact ⟨hfirst, by omega⟩
  | waitForLayerLoad current =>
    dsimp only at hsub
    split at hsub
    · rename_i hmem
      obtain ⟨rfl, rfl⟩ := Prod.mk.inj (Option.some.inj hsub)
      exact ⟨hmem, rfl⟩
    · cases hsub
  | saveKvLayer current =>
    dsimp only at hsub
    split at hsub
    · rename_i hmem
      obtain ⟨rfl, rfl⟩ := Prod.mk.inj (Option.some.inj hsub)
      exact ⟨hmem, rfl⟩
    · cases hsub

end Contiguous

/-! ## The two countings -/

/-- For any order of the dictionary's keys and consecutive layers: every row that the connector takes at
    load and at save is the row of the layer it submits, if and only if the layout is the one that sorts
    its layers or the first key is of the smallest layer. -/
theorem rows_select_iff (naming : Naming Name) (layoutCls : LayoutClass) (kvcaches : List (Name × KVLayer)) (lo n : Nat)
    (hcontig : Contiguous naming kvcaches lo n) (c : LayerwiseConnector)
    (h : registerKvCaches naming layoutCls kvcaches = some c) :
    (∀ call layerId row, c.submission call = some (layerId, row) → Selects naming layoutCls kvcaches c.layout layerId row) ↔
      layoutCls = .sharedIndexer .cuda ∨ (layerIds naming.layerIndex kvcaches).head? = some c.firstLayerId := by
  obtain ⟨layout, hlayout, h⟩ := Option.bind_eq_some_iff.mp h
  obtain ⟨smallest, hsmallest, rfl⟩ := Option.map_eq_some_iff.mp h
  have hlo : smallest = lo ∧ lo ∈ layerIds naming.layerIndex kvcaches := by
    rw [hcontig.sortedIds_eq] at hsmallest
    cases n with
    | zero => cases hsmallest
    | succ n => exact ⟨(Option.some.inj hsmallest).symm, (hcontig lo).mpr ⟨Nat.le_refl lo, by omega⟩⟩
  obtain ⟨rfl, hmem⟩ := hlo
  constructor
  · intro hall
    by_cases hcls : layoutCls = .sharedIndexer .cuda
    · exact .inl hcls
    · refine .inr ?_
      obtain ⟨firstLayerId, hfirst, hrows⟩ := placed_rows hcontig hcls hlayout
      obtain ⟨_, hrow⟩ := hall .startLoadKv smallest 0 rfl
      -- Row 0 is filled from the first key.
      have hown := (hrows firstLayerId (List.mem_of_head? hfirst)).label
      have hzero : place n firstLayerId firstLayerId = 0 := by rw [place, Nat.add_sub_cancel, Nat.mod_self]
      have hlabel : layout.rowLayerIds[0]? = some (some smallest) := hrow.label
      rw [hzero, hlabel] at hown
      rw [hfirst, ← Option.some.inj (Option.some.inj hown)]
  · intro hcond call layerId row hsub
    obtain ⟨hlayer, rfl⟩ := submission_eq hsub (SharedIndexer.mem_sortedIds.mpr hmem)
    have hin := SharedIndexer.mem_sortedIds.mp hlayer
    have hrange := (hcontig layerId).mp hin
    have hrow : ((layerId : Int) - (smallest : Nat)).toNat = layerId - smallest := by omega
    refine ⟨by dsimp only; omega, ?_⟩
    dsimp only
    rw [hrow]
    by_cases hcls : layoutCls = .sharedIndexer .cuda
    · subst hcls
      exact sorted_rows hcontig hlayout layerId hin
    · obtain ⟨firstLayerId, hfirst, hrows⟩ := placed_rows hcontig hcls hlayout
      have heq : firstLayerId = smallest := Option.some.inj (hfirst.symm.trans (hcond.resolve_left hcls))
      have hplace : place n firstLayerId layerId = layerId - smallest := by
        rw [place, heq, Nat.add_sub_assoc hrange.1, Nat.add_mod_left, Nat.mod_eq_of_lt (by omega)]
      exact hplace ▸ hrows layerId hin

section Sample

/-- Layers of one tensor each, of two blocks of 2 tokens. -/
def twoLayers (order : List Nat) : List (Nat × KVLayer) :=
    order.map fun layerId => (layerId, .tensor ⟨1000 * (layerId + 1), [2, 2, 2], [4, 2, 1], 2⟩)

/-- Two layers as registered, in this order. -/
def registeredTwo (firstLayerId secondLayerId : Nat) : LayerwiseConnector where
  layout :=
    { rowLayerIds := [some firstLayerId, some secondLayerId]
      basePtrs := [[1000 * (firstLayerId + 1)], [1000 * (secondLayerId + 1)]]
      tensorSizeLists := [[8], [8]]
      blockStrideLists := [[8], [8]]
      bufferSizes := [[16], [16]] }
  layerIds := [0, 1]
  firstLayerId := 0

theorem rows_select_iff_in_order :
    Selects SharedIndexer.sampleNaming .generic (twoLayers [0, 1]) (registeredTwo 0 1).layout 0 0 ∧
      Selects SharedIndexer.sampleNaming .generic (twoLayers [0, 1]) (registeredTwo 0 1).layout 1 1 := by
  have hcontig : Contiguous SharedIndexer.sampleNaming (twoLayers [0, 1]) 0 2 := by
    intro layerId
    have hmem : layerId ∈ [0, 1] ↔ 0 ≤ layerId ∧ layerId < 0 + 2 := by
      rw [List.mem_cons, List.mem_singleton]
      omega
    exact hmem
  have hall :=
      (rows_select_iff SharedIndexer.sampleNaming .generic (twoLayers [0, 1]) 0 2 hcontig (registeredTwo 0 1) rfl).mpr (.inr rfl)
  exact ⟨hall .startLoadKv 0 0 rfl, hall (.waitForLayerLoad 0) 1 1 rfl⟩

/-- With the key of layer 1 first, row 0 is that of layer 1, and a load of layer 0 takes it. -/
theorem first_key_of_second_layer :
    registerKvCaches SharedIndexer.sampleNaming .generic (twoLayers [1, 0]) = some (registeredTwo 1 0) ∧
      Contiguous SharedIndexer.sampleNaming (twoLayers [1, 0]) 0 2 ∧
      ¬ ∀ call layerId row, (registeredTwo 1 0).submission call = some (layerId, row) →
        Selects SharedIndexer.sampleNaming .generic (twoLayers [1, 0]) (registeredTwo 1 0).layout layerId row := by
  refine ⟨rfl, fun layerId => ?_, fun hall => ?_⟩
  · have hmem : layerId ∈ [1, 0] ↔ 0 ≤ layerId ∧ layerId < 0 + 2 := by
      rw [List.mem_cons, List.mem_singleton]
      omega
    exact hmem
  · obtain ⟨_, hrow⟩ := hall .startLoadKv 0 0 rfl
    exact absurd hrow.label (by decide)

end Sample

end UnifiedCache.Connector
