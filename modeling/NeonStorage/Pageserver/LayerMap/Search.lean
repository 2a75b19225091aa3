import NeonStorage.Pageserver.Key
import NeonStorage.Pageserver.LayerMap.Batched

/-!
# The layer map and its searches

`LayerMap` (`pageserver/src/tenant/layer_map.rs`) keeps the historic layers of a timeline
in a `BufferedHistoricLayerCoverage` keyed by `LayerKey::from(&PersistentLayerDesc)`.
`search(key, end_lsn)` reads the version at `end_lsn - 1` and picks, with `select_layer`,
between the latest delta and the latest image layer at the key; `image_layer_exists` asks
whether image layers starting in an LSN range cover a whole key range.

A flushed layer map (`LayerMap.Flushed`) answers both through the naive reference of
`Batched`: `Flushed.search_eq` and `Flushed.imageLayerExists_covers` state what they
return in terms of the current layers.
-/

namespace NeonStorage

open SortedMap LayerCoverage

/-- `PersistentLayerDesc`: the key range, LSN range, kind and size of a layer file. -/
structure PersistentLayerDesc where
  keyRange : Range Key
  lsnRange : Range Nat
  isDelta : Bool
  fileSize : Nat
deriving DecidableEq, Repr

/-- `LayerKey::from(&PersistentLayerDesc)`. -/
def LayerKey.fromDesc (layer : PersistentLayerDesc) : LayerKey :=
  ⟨⟨layer.keyRange.start.toI128, layer.keyRange.end.toI128⟩, layer.lsnRange, !layer.isDelta⟩

theorem LayerKey.fromDesc_keyNonneg (layer : PersistentLayerDesc) :
    (LayerKey.fromDesc layer).KeyNonneg :=
  ⟨Key.toI128_nonneg _, Key.toI128_nonneg _⟩

/-- On keys in the order `to_i128` keeps, the layer map's `i128` coordinates order keys as
`Key` does, `from_i128` reads them back, and a layer's `i128` range covers exactly the keys of
its key range. -/
theorem layerKey_fromDesc_keeps_order :
    (∀ a b : Key, a.InI128Order → b.InI128Order → (a < b ↔ a.toI128 < b.toI128)) ∧
      (∀ key : Key, key.field1 < 0x10 → key.field2 < 0xFFFF → Key.fromI128 key.toI128 = key) ∧
      ∀ (layer : PersistentLayerDesc) (x : Key), layer.keyRange.start.InI128Order →
        layer.keyRange.end.InI128Order → x.InI128Order →
        ((LayerKey.fromDesc layer).key.contains x.toI128 = true ↔
          layer.keyRange.contains x = true) := by
  refine ⟨fun a b ha hb => Key.lt_iff_toI128_lt ha hb,
    fun key h1 h2 => Key.fromI128_toI128 h1 h2, ?_⟩
  intro layer x hstart hend hx
  simp only [LayerKey.fromDesc, Range.contains_iff]
  rw [Key.le_iff_toI128_le hstart hx, Key.lt_iff_toI128_lt hx hend]

theorem layerKey_fromDesc_keeps_order_reserved :
    (⟨0, 0x1663, 0, 0, 0, 0⟩ : Key).InI128Order ∧
      (⟨0, 0xFFFFFFFF, 0, 0, 0, 0⟩ : Key).InI128Order ∧
      ((⟨0, 0x1663, 0, 0, 0, 0⟩ : Key) < ⟨0, 0xFFFFFFFF, 0, 0, 0, 0⟩ ↔
        (⟨0, 0x1663, 0, 0, 0, 0⟩ : Key).toI128 < (⟨0, 0xFFFFFFFF, 0, 0, 0, 0⟩ : Key).toI128) :=
  ⟨by decide, by decide, layerKey_fromDesc_keeps_order.1 _ _ (by decide) (by decide)⟩

/-- `to_i128` accepts `field2 = 0x22222222` and cuts it to `0x2222`: the key then packs
below a key with `field2 = 0x2223` that it follows, and the layer over the keys from
`field2 = 0x2222` up to `0x2223` covers it in the layer map. -/
theorem toI128_reserved_field2_out_of_order :
    (⟨0, 0x2223, 0, 0, 0, 0⟩ : Key).toI128Accepts = true ∧
      (⟨0, 0x22222222, 0, 0, 0, 0⟩ : Key).toI128Accepts = true ∧
      (⟨0, 0x2223, 0, 0, 0, 0⟩ : Key) < ⟨0, 0x22222222, 0, 0, 0, 0⟩ ∧
      (⟨0, 0x22222222, 0, 0, 0, 0⟩ : Key).toI128 < (⟨0, 0x2223, 0, 0, 0, 0⟩ : Key).toI128 ∧
      (LayerKey.fromDesc ⟨⟨⟨0, 0x2222, 0, 0, 0, 0⟩, ⟨0, 0x2223, 0, 0, 0, 0⟩⟩, ⟨0, 1⟩, false,
        0⟩).key.contains (⟨0, 0x22222222, 0, 0, 0, 0⟩ : Key).toI128 = true ∧
      (⟨⟨0, 0x2222, 0, 0, 0, 0⟩, ⟨0, 0x2223, 0, 0, 0, 0⟩⟩ : Range Key).contains
        ⟨0, 0x22222222, 0, 0, 0, 0⟩ = false := by
  decide

/-- The historic part of `LayerMap`: the layers on disk, searched through their coverage.
The open and frozen in-memory layers and the list of L0 deltas are not modelled. -/
structure LayerMap where
  historic : BufferedHistoricLayerCoverage PersistentLayerDesc

/-- One call on a `BatchedUpdates`. -/
inductive LayerMapUpdate where
  | insertHistoric (layerDesc : PersistentLayerDesc)
  | removeHistoric (layerDesc : PersistentLayerDesc)
deriving DecidableEq, Repr

/-- The update of the historic coverage that a call makes. -/
def LayerMapUpdate.toLayerUpdate : LayerMapUpdate → LayerUpdate PersistentLayerDesc
  | insertHistoric layerDesc => .insertHistoric (LayerKey.fromDesc layerDesc) layerDesc
  | removeHistoric layerDesc => .removeHistoric (LayerKey.fromDesc layerDesc)

/-- `LayerMap::search`'s result: the layer and the LSN at which to search next. -/
structure SearchResult where
  layer : PersistentLayerDesc
  lsnFloor : Nat
deriving DecidableEq, Repr

namespace LayerMap

def new : LayerMap := ⟨BufferedHistoricLayerCoverage.new⟩

/-- `insert_historic_noflush`. -/
def insertHistoricNoflush (self : LayerMap) (layerDesc : PersistentLayerDesc) : LayerMap :=
  ⟨self.historic.insert (LayerKey.fromDesc layerDesc) layerDesc⟩

/-- `remove_historic_noflush`. -/
def removeHistoricNoflush (self : LayerMap) (layerDesc : PersistentLayerDesc) : LayerMap :=
  ⟨self.historic.remove (LayerKey.fromDesc layerDesc)⟩

/-- `flush_updates`; `none` is a panic of the rebuild. -/
def flushUpdates (self : LayerMap) : Option LayerMap :=
  self.historic.rebuild.map fun historic => ⟨historic⟩

def applyUpdate (self : LayerMap) : LayerMapUpdate → LayerMap
  | .insertHistoric layerDesc => self.insertHistoricNoflush layerDesc
  | .removeHistoric layerDesc => self.removeHistoricNoflush layerDesc

/-- `batch_update`: the calls of one `BatchedUpdates`, flushed when it is dropped. -/
def batchUpdate (self : LayerMap) (updates : List LayerMapUpdate) : Option LayerMap :=
  (updates.foldl applyUpdate self).flushUpdates

/-- `iter_historic_layers`; `BufferedHistoricLayerCoverage::iter` panics ("rebuild pls")
with updates in the buffer. -/
def iterHistoricLayers (self : LayerMap) : Except String (List PersistentLayerDesc) :=
  if self.historic.buffer.entries.isEmpty then .ok (self.historic.layers.entries.map (·.2))
  else .error "rebuild pls"

/-- `LayerMap::select_layer`.  Its assertions that the delta layer is a delta and the image
layer an image hold of what the two coverages store, and are not modelled. -/
def selectLayer (deltaLayer imageLayer : Option PersistentLayerDesc) (endLsn : Nat) :
    Option SearchResult :=
  match deltaLayer, imageLayer with
  | none, none => none
  | none, some image => some ⟨image, image.lsnRange.start⟩
  | some delta, none => some ⟨delta, delta.lsnRange.start⟩
  | some delta, some image =>
    let imgLsn := image.lsnRange.start
    let imageIsNewer := decide (image.lsnRange.end ≥ delta.lsnRange.end)
    let imageExactMatch := decide (imgLsn + 1 = endLsn)
    if imageIsNewer || imageExactMatch then some ⟨image, imgLsn⟩
    else some ⟨delta, max delta.lsnRange.start (image.lsnRange.start + 1)⟩

/-- What `select_layer` can return: the image at its LSN, or the delta, continuing at its
start or just above the image below it. -/
theorem selectLayer_eq_some {deltaLayer imageLayer : Option PersistentLayerDesc} {endLsn : Nat}
    {res : SearchResult} (h : selectLayer deltaLayer imageLayer endLsn = some res) :
    (imageLayer = some res.layer ∧ res.lsnFloor = res.layer.lsnRange.start ∧
      ∀ delta, deltaLayer = some delta →
        delta.lsnRange.end ≤ res.layer.lsnRange.end ∨ res.layer.lsnRange.start + 1 = endLsn) ∨
    (deltaLayer = some res.layer ∧
      ((imageLayer = none ∧ res.lsnFloor = res.layer.lsnRange.start) ∨
        ∃ image, imageLayer = some image ∧ image.lsnRange.end < res.layer.lsnRange.end ∧
          image.lsnRange.start + 1 ≠ endLsn ∧
          res.lsnFloor = max res.layer.lsnRange.start (image.lsnRange.start + 1))) := by
  unfold selectLayer at h
  split at h
  · cases h
  · next image =>
    cases h
    exact Or.inl ⟨rfl, rfl, fun _ hd => by cases hd⟩
  · next delta =>
    cases h
    exact Or.inr ⟨rfl, Or.inl ⟨rfl, rfl⟩⟩
  · next delta image =>
    dsimp only at h
    split at h
    · next hsel =>
      cases h
      refine Or.inl ⟨rfl, rfl, fun d hd => ?_⟩
      cases hd
      simpa using hsel
    · next hsel =>
      cases h
      simp only [Bool.or_eq_true, decide_eq_true_eq, not_or, not_le] at hsel
      exact Or.inr ⟨rfl, Or.inr ⟨image, rfl, hsel.1, hsel.2, rfl⟩⟩

/-- `LayerMap::search`: the latest layer at the key among those starting below `end_lsn`.
`historic.get().unwrap()` fails with unflushed updates.  LSNs are natural numbers here: at
`end_lsn` 0 the source's `end_lsn.0 - 1` overflows (a panic in a debug build, `u64::MAX` in a
release one), where the model reads version 0. -/
def search (self : LayerMap) (key : Key) (endLsn : Nat) : Except String (Option SearchResult) := do
  let historic ← self.historic.get
  pure <| (historic.getVersion (endLsn - 1)).bind fun version =>
    selectLayer (version.deltaCoverage.query key.toI128) (version.imageCoverage.query key.toI128)
      endLsn

/-- The closure `layer_covers` of `image_layer_exists`: an image layer that starts at or
after `lsn.start`. -/
def layerCovers (lsn : Range Nat) : Option PersistentLayerDesc → Bool
  | some layer => decide (layer.lsnRange.start ≥ lsn.start)
  | none => false

theorem layerCovers_eq_true_iff (lsn : Range Nat) (layer : Option PersistentLayerDesc) :
    layerCovers lsn layer = true ↔ ∃ l, layer = some l ∧ lsn.start ≤ l.lsnRange.start := by
  cases layer <;> simp [layerCovers]

/-- `LayerMap::image_layer_exists`: image layers starting at or after `lsn.start` and
before `lsn.end` cover the whole key range. -/
def imageLayerExists (self : LayerMap) (key : Range Key) (lsn : Range Nat) :
    Except String Bool :=
  if key.isEmpty then .ok true
  else do
    let historic ← self.historic.get
    match historic.getVersion (lsn.end - 1) with
    | none => pure false
    | some version =>
      let start := key.start.toI128
      let end_ := key.end.toI128
      -- the start is covered, and so is every change of coverage in the range
      if !layerCovers lsn (version.imageCoverage.query start) then pure false
      else pure ((version.imageCoverage.range ⟨start, end_⟩).all fun change =>
        layerCovers lsn change.2)

end LayerMap

/-! ## Flushed layer maps -/

/-- A flushed layer map whose current layers are `current`: the buffered coverage keeps its
invariant with an empty buffer, and every layer sits at the `LayerKey` of its
descriptor. -/
structure LayerMap.Flushed (lm : LayerMap) (current : LayerKey → Option PersistentLayerDesc) :
    Prop where
  inv : lm.historic.Inv current
  buffer : lm.historic.buffer.entries = []
  fromDesc : ∀ lk l, current lk = some l → lk = LayerKey.fromDesc l

namespace LayerMap

theorem flushed_new : Flushed new fun _ => none where
  inv := BufferedHistoricLayerCoverage.inv_new
  buffer := rfl
  fromDesc := fun _ _ h => by simp at h

theorem historic_foldl_applyUpdate (lm : LayerMap) (us : List LayerMapUpdate) :
    (us.foldl applyUpdate lm).historic =
      (us.map LayerMapUpdate.toLayerUpdate).foldl BufferedHistoricLayerCoverage.applyUpdate
        lm.historic := by
  induction us generalizing lm with
  | nil => rfl
  | cons u us ih =>
    rw [List.foldl_cons, ih, List.map_cons, List.foldl_cons]
    cases u <;> rfl

/-- A batch of calls is the batch of their coverage updates. -/
theorem batchUpdate_eq (lm : LayerMap) (us : List LayerMapUpdate) :
    lm.batchUpdate us = (lm.historic.batchUpdate (us.map LayerMapUpdate.toLayerUpdate)).map
      fun historic => ⟨historic⟩ := by
  rw [batchUpdate, flushUpdates, historic_foldl_applyUpdate,
    BufferedHistoricLayerCoverage.batchUpdate]

namespace Flushed

variable {lm : LayerMap} {current : LayerKey → Option PersistentLayerDesc}

theorem get (h : Flushed lm current) : lm.historic.get = pure lm.historic.historicCoverage := by
  simp only [BufferedHistoricLayerCoverage.get, h.buffer, List.isEmpty_nil, ↓reduceIte]
  rfl

/-- A batch never panics and leaves the map flushed, with the updates applied. -/
theorem batchUpdate (h : Flushed lm current) (us : List LayerMapUpdate) :
    ∃ lm', lm.batchUpdate us = some lm' ∧
      Flushed lm' ((us.map LayerMapUpdate.toLayerUpdate).foldl LayerUpdate.apply current) := by
  have hkeys : ∀ u ∈ us.map LayerMapUpdate.toLayerUpdate, u.layerKey.KeyNonneg := by
    intro u hu
    obtain ⟨u, -, rfl⟩ := List.mem_map.mp hu
    cases u <;> exact LayerKey.fromDesc_keyNonneg _
  obtain ⟨st, hst, hinv, hbuf⟩ := h.inv.batchUpdate _ hkeys
  refine ⟨⟨st⟩, by rw [batchUpdate_eq, hst, Option.map_some], hinv, hbuf, ?_⟩
  refine LayerUpdate.foldl_apply_forall h.fromDesc _ (fun u hu lk l hul => ?_)
  obtain ⟨u, -, rfl⟩ := List.mem_map.mp hu
  cases u with
  | insertHistoric d =>
    simp only [LayerMapUpdate.toLayerUpdate, LayerUpdate.insertHistoric.injEq] at hul
    rw [← hul.1, hul.2]
  | removeHistoric d => simp [LayerMapUpdate.toLayerUpdate] at hul

/-- Any sequence of batches keeps the map flushed. -/
theorem foldlM_batchUpdate (h : Flushed lm current) (batches : List (List LayerMapUpdate)) :
    ∃ lm', batches.foldlM LayerMap.batchUpdate lm = some lm' ∧
      Flushed lm' ((batches.flatten.map LayerMapUpdate.toLayerUpdate).foldl LayerUpdate.apply
        current) := by
  induction batches generalizing lm current with
  | nil => exact ⟨lm, rfl, h⟩
  | cons b bs ih =>
    obtain ⟨lm₁, h₁, hf₁⟩ := h.batchUpdate b
    obtain ⟨lm', hrun, hf'⟩ := ih hf₁
    refine ⟨lm', ?_, by simpa [List.flatten_cons, List.foldl_append] using hf'⟩
    rw [List.foldlM_cons, h₁]
    exact hrun

theorem iterHistoricLayers_eq (h : Flushed lm current) :
    lm.iterHistoricLayers = .ok (lm.historic.layers.entries.map (·.2)) := by
  simp [iterHistoricLayers, h.buffer]

/-- The current layers are the entries of `layers`. -/
theorem current_eq_some_iff (h : Flushed lm current) (lk : LayerKey) (l : PersistentLayerDesc) :
    current lk = some l ↔ (lk, l) ∈ lm.historic.layers.entries := by
  have hnone : lm.historic.buffer.get lk = none := by
    rw [get_eq_none_iff, keys, h.buffer]
    simp
  rw [h.inv.lookup lk, hnone, Option.getD_none, get_eq_some_iff]

/-- A flushed map never fails to answer `image_layer_exists`. -/
theorem imageLayerExists_ok (h : Flushed lm current) (key : Range Key) (lsn : Range Nat) :
    ∃ b, lm.imageLayerExists key lsn = .ok b := by
  unfold imageLayerExists
  split
  · exact ⟨true, rfl⟩
  · rw [h.get, pure_bind]
    split
    · exact ⟨false, rfl⟩
    · dsimp only
      split
      · exact ⟨false, rfl⟩
      · exact ⟨_, rfl⟩

/-- `search` picks, with `select_layer`, between the naive latest delta and the naive
latest image at the key. -/
theorem search_eq (h : Flushed lm current) (key : Key) (endLsn : Nat) :
    ∃ deltaLayer imageLayer,
      lm.search key endLsn = .ok (selectLayer deltaLayer imageLayer endLsn) ∧
      NaiveAnswer (Candidate current false (endLsn - 1) key.toI128) deltaLayer ∧
      NaiveAnswer (Candidate current true (endLsn - 1) key.toI128) imageLayer := by
  have hdelta := h.inv.getVersion_query h.buffer (endLsn - 1) false key.toI128
  have himage := h.inv.getVersion_query h.buffer (endLsn - 1) true key.toI128
  cases hv : lm.historic.historicCoverage.getVersion (endLsn - 1) with
  | none =>
    rw [hv] at hdelta himage
    exact ⟨none, none, by simp [search, h.get, hv, selectLayer]; rfl, hdelta, himage⟩
  | some t =>
    rw [hv] at hdelta himage
    exact ⟨_, _, by simp [search, h.get, hv, LayerCoverageTuple.coverage]; rfl, hdelta, himage⟩

/-- When `image_layer_exists` holds of a non-empty key range, every key of its `i128`
range has a latest image, at the version below `lsn.end`, that starts at or after
`lsn.start`. -/
theorem imageLayerExists_covers (h : Flushed lm current) {key : Range Key} {lsn : Range Nat}
    (hkey : key.isEmpty = false) (hex : lm.imageLayerExists key lsn = .ok true) (x : Int)
    (hx : key.start.toI128 ≤ x ∧ x < key.end.toI128) :
    ∃ image, NaiveAnswer (Candidate current true (lsn.end - 1) x) (some image) ∧
      lsn.start ≤ image.lsnRange.start := by
  have himage := h.inv.getVersion_query h.buffer (lsn.end - 1) true x
  simp only [imageLayerExists, hkey, h.get, Bool.false_eq_true, ↓reduceIte, pure_bind] at hex
  cases hv : lm.historic.historicCoverage.getVersion (lsn.end - 1) with
  | none =>
    simp only [hv] at hex
    cases hex
  | some t =>
    simp only [hv] at hex
    rw [hv] at himage
    simp only [Option.bind_some, LayerCoverageTuple.coverage, ↓reduceIte] at himage
    split at hex
    · cases hex
    · next hstart =>
      have hall : (t.imageCoverage.range ⟨key.start.toI128, key.end.toI128⟩).all
          (fun change => layerCovers lsn change.2) = true := Except.ok.inj hex
      replace hstart : layerCovers lsn (t.imageCoverage.query key.start.toI128) = true := by
        simpa using hstart
      -- the coverage at `x` is the one at the start of the range or a change inside it
      have hcov : layerCovers lsn (t.imageCoverage.query x) = true := by
        rw [query_eq, coverAt]
        rcases lastValLE_eq_or_mem t.imageCoverage.nodes.sorted hx.1 none with heq | ⟨e, he, hse, hex', heq⟩
        · rwa [heq, ← coverAt, ← query_eq]
        · rw [heq]
          have hmem : (e.1, e.2.map (·.2)) ∈ t.imageCoverage.range ⟨key.start.toI128, key.end.toI128⟩ := by
            simp only [LayerCoverage.range, SortedMap.range, List.mem_map, List.mem_filter,
              decide_eq_true_eq]
            exact ⟨e, ⟨he, hse, lt_of_le_of_lt hex' hx.2⟩, rfl⟩
          exact List.all_eq_true.mp hall _ hmem
      obtain ⟨layer, hq, hle⟩ := (layerCovers_eq_true_iff _ _).mp hcov
      rw [hq] at himage
      exact ⟨layer, himage, hle⟩

/-- On a key range that is not empty, as keys nor as `i128`s, and an LSN range that does not
end at 0 (where the code's `lsn.end.0 - 1` would overflow), `image_layer_exists` answers
exactly whether, at every key of its `i128` range, the latest image layer below `lsn.end`
exists and starts at or after `lsn.start`. -/
theorem imageLayerExists_iff_forall (h : Flushed lm current) {key : Range Key} {lsn : Range Nat}
    (hkey : key.isEmpty = false) (hi : key.start.toI128 < key.end.toI128) (_hend : 0 < lsn.end) :
    lm.imageLayerExists key lsn = .ok true ↔
      ∀ x, key.start.toI128 ≤ x → x < key.end.toI128 →
        ∃ image, NaiveAnswer (Candidate current true (lsn.end - 1) x) (some image) ∧
          lsn.start ≤ image.lsnRange.start := by
  refine ⟨fun hex x hx₁ hx₂ => h.imageLayerExists_covers hkey hex x ⟨hx₁, hx₂⟩, fun hall => ?_⟩
  -- at every key of the range, the version below `lsn.end` shows the naive image
  have hquery : ∀ x, key.start.toI128 ≤ x → x < key.end.toI128 →
      ∃ t, lm.historic.historicCoverage.getVersion (lsn.end - 1) = some t ∧
        layerCovers lsn (t.imageCoverage.query x) = true := by
    intro x hx₁ hx₂
    obtain ⟨image, hnaive, hle⟩ := hall x hx₁ hx₂
    have heq := NaiveAnswer.unique candidate_functional
      (h.inv.getVersion_query h.buffer (lsn.end - 1) true x) hnaive
    cases hver : lm.historic.historicCoverage.getVersion (lsn.end - 1) with
    | none =>
      rw [hver] at heq
      cases heq
    | some t =>
      rw [hver] at heq
      simp only [Option.bind_some, LayerCoverageTuple.coverage, ↓reduceIte] at heq
      refine ⟨t, rfl, ?_⟩
      rw [heq, layerCovers_eq_true_iff]
      exact ⟨image, rfl, hle⟩
  obtain ⟨t, hver, hstart⟩ := hquery _ le_rfl hi
  -- every change in the range shows the coverage at its own key
  have hchanges : ∀ c ∈ t.imageCoverage.range ⟨key.start.toI128, key.end.toI128⟩,
      layerCovers lsn c.2 = true := by
    intro c hc
    obtain ⟨hc₁, hc₂⟩ := mem_range hc
    obtain ⟨t', hver', hcov⟩ := hquery c.1 hc₁ hc₂
    rw [hver, Option.some_inj] at hver'
    rwa [← hver', query_of_mem_range hc] at hcov
  simp only [imageLayerExists, hkey, h.get, Bool.false_eq_true, ↓reduceIte, pure_bind, hver,
    hstart, Bool.not_true]
  exact congrArg Except.ok (List.all_eq_true.2 hchanges)

end Flushed

/-- One image layer over the keys `0..10` at LSN 5, inserted by a batch: `image_layer_exists`
answers true over keys `0..1` for the LSNs `5..10`, and the answer is the one of the
equivalence. -/
theorem imageLayerExists_iff_forall_image :
    ∃ lm, new.batchUpdate [.insertHistoric ⟨⟨⟨0, 0, 0, 0, 0, 0⟩, ⟨0, 0, 0, 0, 0, 10⟩⟩, ⟨5, 6⟩,
        false, 0⟩] = some lm ∧
      lm.imageLayerExists ⟨⟨0, 0, 0, 0, 0, 0⟩, ⟨0, 0, 0, 0, 0, 1⟩⟩ ⟨5, 10⟩ = .ok true ∧
      (lm.imageLayerExists ⟨⟨0, 0, 0, 0, 0, 0⟩, ⟨0, 0, 0, 0, 0, 1⟩⟩ ⟨5, 10⟩ = .ok true ↔
        ∀ x, (⟨0, 0, 0, 0, 0, 0⟩ : Key).toI128 ≤ x → x < (⟨0, 0, 0, 0, 0, 1⟩ : Key).toI128 →
          ∃ image : PersistentLayerDesc,
            NaiveAnswer (Candidate (([LayerMapUpdate.insertHistoric
              ⟨⟨⟨0, 0, 0, 0, 0, 0⟩, ⟨0, 0, 0, 0, 0, 10⟩⟩, ⟨5, 6⟩, false, 0⟩].map
                LayerMapUpdate.toLayerUpdate).foldl LayerUpdate.apply fun _ => none) true
              ((⟨5, 10⟩ : Range Nat).end - 1) x)
            (some image) ∧ (⟨5, 10⟩ : Range Nat).start ≤ image.lsnRange.start) := by
  obtain ⟨lm, hlm, hflushed⟩ := flushed_new.batchUpdate
    [.insertHistoric ⟨⟨⟨0, 0, 0, 0, 0, 0⟩, ⟨0, 0, 0, 0, 0, 10⟩⟩, ⟨5, 6⟩, false, 0⟩]
  -- the map the batch computes answers true
  have hcomp : ∃ lm₀, new.batchUpdate [.insertHistoric ⟨⟨⟨0, 0, 0, 0, 0, 0⟩, ⟨0, 0, 0, 0, 0, 10⟩⟩,
      ⟨5, 6⟩, false, 0⟩] = some lm₀ ∧
      lm₀.imageLayerExists ⟨⟨0, 0, 0, 0, 0, 0⟩, ⟨0, 0, 0, 0, 0, 1⟩⟩ ⟨5, 10⟩ = .ok true :=
    ⟨_, rfl, by decide⟩
  obtain ⟨lm₀, hlm₀, hex⟩ := hcomp
  rw [hlm] at hlm₀
  cases hlm₀
  exact ⟨lm, hlm, hex, hflushed.imageLayerExists_iff_forall rfl (by decide) (by decide)⟩

/-- `Key::to_i128` keeps only the low four bits of `field1`, so an image layer over keys with
`field1 = 0x10` stands, in the layer map, over the keys with `field1 = 0`.
`image_layer_exists` then answers true for a key that no image layer covers. -/
theorem imageLayerExists_aliased_key :
    ∃ lm, new.batchUpdate [.insertHistoric ⟨⟨⟨0x10, 0, 0, 0, 0, 0⟩, ⟨0x10, 0, 0, 0, 0, 1⟩⟩, ⟨5, 6⟩,
        false, 0⟩] = some lm ∧
      lm.iterHistoricLayers = .ok [⟨⟨⟨0x10, 0, 0, 0, 0, 0⟩, ⟨0x10, 0, 0, 0, 0, 1⟩⟩, ⟨5, 6⟩, false, 0⟩] ∧
      lm.imageLayerExists ⟨⟨0, 0, 0, 0, 0, 0⟩, ⟨0, 0, 0, 0, 0, 1⟩⟩ ⟨5, 10⟩ = .ok true ∧
      ¬((⟨0x10, 0, 0, 0, 0, 0⟩ : Key) ≤ ⟨0, 0, 0, 0, 0, 0⟩) :=
  ⟨_, rfl, by decide, by decide, by decide⟩

end LayerMap

end NeonStorage
