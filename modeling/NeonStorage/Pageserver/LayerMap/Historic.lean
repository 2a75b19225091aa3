import NeonStorage.Pageserver.LayerMap.Coverage

/-!
# Historic layer coverage and its batched rebuild

`HistoricLayerCoverage` (`pageserver/src/tenant/layer_map/historic_layer_coverage.rs`)
keeps one version of the image and delta coverage for every `lsn.start` of a layer:
layers are inserted in `lsn.start` order into a persistent `LayerCoverage`, and after
each insertion the current version is recorded under the layer's `lsn.start`.
`get_version(x)` answers with the version recorded at the greatest `lsn.start ≤ x`.
Insertion is not retroactive: a layer that starts below the last recorded version
panics.

`BufferedHistoricLayerCoverage` lifts that restriction.  Insertions and removals are
buffered; `rebuild` applies the buffer to the set of all layers, truncates the history
at the least `lsn.start` of the buffered layers (`trim`) and re-inserts, in `LayerKey`
order, every layer from there on.

The invariant `HistoricInv` says that every recorded version is the coverage of the
layers that start at or below its LSN, laid in `LayerKey` order.  It holds of the empty
coverage and is kept by an insertion above all layers laid so far, by `trim` and by the
re-insertion loop of `rebuild`.  `NeonStorage.Pageserver.LayerMap.Batched` builds on it
to compare whole sequences of batched updates with the naive reference.
-/

namespace NeonStorage

/-- `LayerKey`: a layer's key range (as `i128`), LSN range and kind, which identify it. -/
structure LayerKey where
  key : Range Int
  lsn : Range Nat
  isImage : Bool
deriving DecidableEq, Repr

namespace LayerKey

/-- The comparison of `Ord for LayerKey`: `lsn.start`, then `lsn.end`, `key.start`,
`key.end` and the kind. -/
def lexKey (k : LayerKey) : Nat ×ₗ Nat ×ₗ Int ×ₗ Int ×ₗ Bool :=
  toLex (k.lsn.start, toLex (k.lsn.end, toLex (k.key.start, toLex (k.key.end, k.isImage))))

theorem lexKey_injective : Function.Injective lexKey := by
  rintro ⟨⟨a, b⟩, ⟨c, d⟩, e⟩ ⟨⟨a', b'⟩, ⟨c', d'⟩, e'⟩ h
  simp only [lexKey, toLex_inj, Prod.mk.injEq] at h
  obtain ⟨rfl, rfl, rfl, rfl, rfl⟩ := h
  rfl

instance : LinearOrder LayerKey := LinearOrder.lift' lexKey lexKey_injective

theorem le_iff_lexKey {a b : LayerKey} : a ≤ b ↔ a.lexKey ≤ b.lexKey := Iff.rfl

/-- The order compares `lsn.start` first. -/
theorem lsn_start_le_of_le {a b : LayerKey} (h : a ≤ b) : a.lsn.start ≤ b.lsn.start := by
  rw [le_iff_lexKey] at h
  simp only [lexKey, Prod.Lex.toLex_le_toLex] at h
  omega

/-- The lower bound of the layers `rebuild` re-inserts. -/
def rebuildBound (rebuildSince : Nat) : LayerKey :=
  ⟨⟨0, 0⟩, ⟨rebuildSince, 0⟩, false⟩

/-- A key range as `Key::to_i128` builds it, from unsigned fields: never negative. -/
def KeyNonneg (k : LayerKey) : Prop := 0 ≤ k.key.start ∧ 0 ≤ k.key.end

instance (k : LayerKey) : Decidable k.KeyNonneg := inferInstanceAs (Decidable (_ ∧ _))

/-- For a layer with a non-negative key range, lying above the bound is starting at or
after `rebuildSince`. -/
theorem rebuildBound_le_iff {since : Nat} {k : LayerKey} (hk : k.KeyNonneg) :
    rebuildBound since ≤ k ↔ since ≤ k.lsn.start := by
  constructor
  · exact lsn_start_le_of_le
  · intro h
    obtain ⟨hs, he⟩ := hk
    rw [le_iff_lexKey]
    simp only [lexKey, rebuildBound, Prod.Lex.toLex_le_toLex, Bool.false_le, and_true]
    omega

end LayerKey

/-- `LayerCoverageTuple`: the image and the delta coverage at one version. -/
structure LayerCoverageTuple (V : Type) where
  imageCoverage : LayerCoverage V
  deltaCoverage : LayerCoverage V

namespace LayerCoverageTuple

variable {V : Type}

/-- The default tuple: nothing covered. -/
def new : LayerCoverageTuple V := ⟨LayerCoverage.new, LayerCoverage.new⟩

/-- The coverage of one kind. -/
def coverage (t : LayerCoverageTuple V) (isImage : Bool) : LayerCoverage V :=
  if isImage then t.imageCoverage else t.deltaCoverage

/-- The insertion `HistoricLayerCoverage::insert` makes into the head: the layer goes into
the coverage of its kind (`target`). -/
def insertLayer (t : LayerCoverageTuple V) (layerKey : LayerKey) (value : V) :
    LayerCoverageTuple V :=
  if layerKey.isImage then
    { t with imageCoverage := t.imageCoverage.insert layerKey.key layerKey.lsn value }
  else
    { t with deltaCoverage := t.deltaCoverage.insert layerKey.key layerKey.lsn value }

end LayerCoverageTuple

/-- `HistoricLayerCoverage`: the latest coverage and the version recorded at every
`lsn.start`. -/
structure HistoricLayerCoverage (V : Type) where
  head : LayerCoverageTuple V
  historic : SortedMap Nat (LayerCoverageTuple V)

namespace HistoricLayerCoverage

variable {V : Type}

/-- `HistoricLayerCoverage::new`. -/
def new : HistoricLayerCoverage V := ⟨LayerCoverageTuple.new, SortedMap.empty⟩

/-- `HistoricLayerCoverage::insert`; `none` is the panic on a retroactive insert. -/
def insert (self : HistoricLayerCoverage V) (layerKey : LayerKey) (value : V) :
    Option (HistoricLayerCoverage V) :=
  -- it is only a persistent map, not a retroactive one
  if (self.historic.last.map fun e => decide (layerKey.lsn.start < e.1)) = some true then none
  else
    let head := self.head.insertLayer layerKey value
    -- remember the history; the clone is O(1) in the persistent tree
    some ⟨head, self.historic.insert layerKey.lsn.start head⟩

/-- `HistoricLayerCoverage::get_version`: the version at an LSN, inclusive. -/
def getVersion (self : HistoricLayerCoverage V) (lsn : Nat) : Option (LayerCoverageTuple V) :=
  (self.historic.floor lsn).map (·.2)

/-- `HistoricLayerCoverage::trim`: drop the versions at and after `begin`. -/
def trim (self : HistoricLayerCoverage V) (begin : Nat) : HistoricLayerCoverage V :=
  let historic := self.historic.splitOff begin
  ⟨(historic.last.map (·.2)).getD LayerCoverageTuple.new, historic⟩

end HistoricLayerCoverage

/-- `BufferedHistoricLayerCoverage`: a historic coverage, the buffered updates and all
current layers. -/
structure BufferedHistoricLayerCoverage (V : Type) where
  historicCoverage : HistoricLayerCoverage V
  buffer : SortedMap LayerKey (Option V)
  layers : SortedMap LayerKey V

namespace BufferedHistoricLayerCoverage

variable {V : Type}

/-- `BufferedHistoricLayerCoverage::new`. -/
def new : BufferedHistoricLayerCoverage V :=
  ⟨HistoricLayerCoverage.new, SortedMap.empty, SortedMap.empty⟩

/-- `BufferedHistoricLayerCoverage::insert`: buffer the insertion of a layer. -/
def insert (self : BufferedHistoricLayerCoverage V) (layerKey : LayerKey) (value : V) :
    BufferedHistoricLayerCoverage V :=
  { self with buffer := self.buffer.insert layerKey (some value) }

/-- `BufferedHistoricLayerCoverage::remove`: buffer the removal of a layer. -/
def remove (self : BufferedHistoricLayerCoverage V) (layerKey : LayerKey) :
    BufferedHistoricLayerCoverage V :=
  { self with buffer := self.buffer.insert layerKey none }

/-- One step of the `retain` loop of `rebuild`: a buffered insertion or removal applied
to the layers. -/
def applyBufferEntry (layers : SortedMap LayerKey V) : LayerKey × Option V → SortedMap LayerKey V
  | (layerKey, some layer) => layers.insert layerKey layer
  | (layerKey, none) => layers.erase layerKey

/-- The buffered updates applied to the layers, as the `retain` loop of `rebuild` does. -/
def applyBuffer (buffer : SortedMap LayerKey (Option V)) (layers : SortedMap LayerKey V) :
    SortedMap LayerKey V :=
  buffer.entries.foldl applyBufferEntry layers

/-- `BufferedHistoricLayerCoverage::rebuild`; `none` is a panic of the re-insertion. -/
def rebuild (self : BufferedHistoricLayerCoverage V) :
    Option (BufferedHistoricLayerCoverage V) :=
  match self.buffer.first with
  | none => some self
  | some (layerKey, _) =>
    -- the first LSN that needs to be rebuilt
    let rebuildSince := layerKey.lsn.start
    let layers := applyBuffer self.buffer self.layers
    let historicCoverage := self.historicCoverage.trim rebuildSince
    let rebuilt := (layers.rangeFrom (LayerKey.rebuildBound rebuildSince)).foldlM
      (fun hc (layerKey, layer) => hc.insert layerKey layer) historicCoverage
    rebuilt.map fun historicCoverage => ⟨historicCoverage, SortedMap.empty, layers⟩

/-- `BufferedHistoricLayerCoverage::get`: the queryable map, once every update is applied. -/
def get (self : BufferedHistoricLayerCoverage V) : Except String (HistoricLayerCoverage V) :=
  if self.buffer.entries.isEmpty then .ok self.historicCoverage
  else .error "rebuild required"

end BufferedHistoricLayerCoverage

/-! ## What a version denotes -/

section Denotation

variable {V : Type}

open LayerCoverage SortedMap

/-- The coverage of one kind that the layers of `L` lay down, in list order, over an
empty key space. -/
def coverOf (L : List (LayerKey × V)) (isImage : Bool) : Int → Option (Nat × V) :=
  L.foldl (fun c e => if e.1.isImage = isImage then raise c e.1.key e.1.lsn.end e.2 else c)
    (fun _ => none)

@[simp] theorem coverOf_nil (isImage : Bool) (x : Int) :
    coverOf ([] : List (LayerKey × V)) isImage x = none := rfl

theorem coverOf_append_singleton (L : List (LayerKey × V)) (lk : LayerKey) (v : V)
    (isImage : Bool) :
    coverOf (L ++ [(lk, v)]) isImage =
      if lk.isImage = isImage then raise (coverOf L isImage) lk.key lk.lsn.end v
      else coverOf L isImage := by
  simp [coverOf, List.foldl_append]

/-- A tuple whose two coverages are the ones the layers of `L` lay down. -/
def Denotes (t : LayerCoverageTuple V) (L : List (LayerKey × V)) : Prop :=
  ∀ isImage x, (t.coverage isImage).coverAt x = coverOf L isImage x

theorem denotes_new : Denotes LayerCoverageTuple.new ([] : List (LayerKey × V)) := by
  intro isImage x
  cases isImage <;> rfl

theorem Denotes.congr {t : LayerCoverageTuple V} {L L' : List (LayerKey × V)} (h : Denotes t L)
    (hL : L = L') : Denotes t L' := hL ▸ h

/-- Inserting a layer into the coverage of its kind lays it over the layers. -/
theorem Denotes.insertLayer {t : LayerCoverageTuple V} {L : List (LayerKey × V)}
    (h : Denotes t L) (lk : LayerKey) (v : V) :
    Denotes (t.insertLayer lk v) (L ++ [(lk, v)]) := by
  have himage : t.imageCoverage.coverAt = coverOf L true := funext (h true)
  have hdelta : t.deltaCoverage.coverAt = coverOf L false := funext (h false)
  intro isImage x
  rw [coverOf_append_singleton]
  cases hk : lk.isImage <;> cases isImage <;>
    simp only [LayerCoverageTuple.insertLayer, LayerCoverageTuple.coverage, hk,
      Bool.false_eq_true, Bool.true_eq_false, ↓reduceIte, coverAt_insert, himage, hdelta]

/-- The invariant of a historic coverage built from the layers `L`, sorted by `LayerKey`:
the head denotes all of them, every recorded version denotes those that start at or below
its LSN, and versions are recorded exactly at the `lsn.start`s of the layers. -/
structure HistoricInv (hc : HistoricLayerCoverage V) (L : List (LayerKey × V)) : Prop where
  sorted : L.Pairwise (fun a b => a.1 < b.1)
  head : Denotes hc.head L
  version : ∀ e ∈ hc.historic.entries, Denotes e.2 (L.filter fun l => l.1.lsn.start ≤ e.1)
  keys : ∀ s, s ∈ hc.historic.keys ↔ ∃ l ∈ L, l.1.lsn.start = s

theorem historicInv_new : HistoricInv (HistoricLayerCoverage.new : HistoricLayerCoverage V) [] where
  sorted := List.Pairwise.nil
  head := denotes_new
  version := fun e he => by simp [HistoricLayerCoverage.new] at he
  keys := fun s => by simp [HistoricLayerCoverage.new, SortedMap.keys]

namespace HistoricInv

variable {hc : HistoricLayerCoverage V} {L : List (LayerKey × V)}

/-- Inserting a layer above all the layers laid so far does not panic, and records the
version of all of them at its `lsn.start`. -/
theorem insert (h : HistoricInv hc L) (lk : LayerKey) (v : V) (hlt : ∀ l ∈ L, l.1 < lk) :
    ∃ hc', hc.insert lk v = some hc' ∧ HistoricInv hc' (L ++ [(lk, v)]) := by
  -- every recorded version lies at or below the new layer's start
  have hkeys : ∀ e ∈ hc.historic.entries, e.1 ≤ lk.lsn.start := by
    intro e he
    obtain ⟨l, hl, hls⟩ := (h.keys e.1).mp (List.mem_map_of_mem he)
    exact hls ▸ LayerKey.lsn_start_le_of_le (hlt l hl).le
  have hnoretro : (hc.historic.last.map fun e => decide (lk.lsn.start < e.1)) ≠ some true := by
    cases hlast : hc.historic.last with
    | none => simp
    | some e => simp [not_lt.mpr (hkeys e (last_eq_some hlast).1)]
  refine ⟨_, by rw [HistoricLayerCoverage.insert, if_neg hnoretro], ?_⟩
  have hstart : ∀ l ∈ L ++ [(lk, v)], l.1.lsn.start ≤ lk.lsn.start := by
    intro l hl
    rcases List.mem_append.mp hl with hl | hl
    · exact LayerKey.lsn_start_le_of_le (hlt l hl).le
    · rw [List.mem_singleton.mp hl]
  constructor
  · exact List.pairwise_append.mpr ⟨h.sorted, List.pairwise_singleton _ _,
      fun a ha b hb => (List.mem_singleton.mp hb) ▸ hlt a ha⟩
  · exact h.head.insertLayer lk v
  · intro e he
    rcases (mem_insert_iff _ _ _ e).mp he with rfl | ⟨he, hne⟩
    · -- the new version sees every layer
      exact (h.head.insertLayer lk v).congr
        (List.filter_eq_self.mpr (fun l hl => by simpa using hstart l hl)).symm
    · -- an older version lies strictly below the new layer
      have hlt' : e.1 < lk.lsn.start := lt_of_le_of_ne (hkeys e he) hne
      refine (h.version e he).congr ?_
      have hout : decide ((lk, v).1.lsn.start ≤ e.1) = false := by simpa using hlt'
      rw [List.filter_append, List.filter_singleton, hout, cond_false, List.append_nil]
  · intro s
    rw [mem_keys_insert_iff, h.keys]
    simp only [List.mem_append, List.mem_singleton]
    constructor
    · rintro (rfl | ⟨l, hl, rfl⟩)
      · exact ⟨(lk, v), Or.inr rfl, rfl⟩
      · exact ⟨l, Or.inl hl, rfl⟩
    · rintro ⟨l, hl | rfl, rfl⟩
      · exact Or.inr ⟨l, hl, rfl⟩
      · exact Or.inl rfl

/-- Truncating the history keeps the versions below `since`, which denote the layers that
start below it; the head falls back to the last of them. -/
theorem trim (h : HistoricInv hc L) (since : Nat) :
    HistoricInv (hc.trim since) (L.filter fun l => l.1.lsn.start < since) := by
  -- a layer starting below `since` has its version among the kept ones
  have hkept : ∀ l ∈ L, l.1.lsn.start < since →
      ∃ e ∈ (hc.historic.splitOff since).entries, e.1 = l.1.lsn.start := by
    intro l hl hs
    obtain ⟨e, he, hel⟩ := (mem_keys_iff _ _).mp ((h.keys _).mpr ⟨l, hl, rfl⟩)
    exact ⟨e, (mem_splitOff_iff _ _ _).mpr ⟨he, hel ▸ hs⟩, hel⟩
  constructor
  · exact h.sorted.filter _
  · show Denotes (((hc.historic.splitOff since).last.map (·.2)).getD LayerCoverageTuple.new) _
    cases hlast : (hc.historic.splitOff since).last with
    | none =>
      have hnil := last_eq_none hlast
      refine denotes_new.congr (List.filter_eq_nil_iff.mpr (fun l hl hs => ?_)).symm
      obtain ⟨e, he, -⟩ := hkept l hl (by simpa using hs)
      rw [hnil] at he
      exact List.not_mem_nil he
    | some e =>
      obtain ⟨he, hmax⟩ := last_eq_some hlast
      obtain ⟨he, hes⟩ := (mem_splitOff_iff _ _ _).mp he
      refine (h.version e he).congr (List.filter_congr (fun l hl => ?_))
      rw [decide_eq_decide]
      constructor
      · intro hle
        exact lt_of_le_of_lt hle hes
      · intro hs
        obtain ⟨e', he', he'l⟩ := hkept l hl hs
        exact he'l ▸ hmax e' he'
  · intro e he
    obtain ⟨he, hes⟩ := (mem_splitOff_iff _ _ _).mp he
    refine (h.version e he).congr ?_
    rw [List.filter_filter]
    refine List.filter_congr (fun l _ => ?_)
    by_cases hle : l.1.lsn.start ≤ e.1
    · simp [hle, lt_of_le_of_lt hle hes]
    · simp [hle]
  · intro s
    rw [mem_keys_iff]
    constructor
    · rintro ⟨e, he, rfl⟩
      obtain ⟨he, hes⟩ := (mem_splitOff_iff _ _ _).mp he
      obtain ⟨l, hl, hls⟩ := (h.keys e.1).mp (List.mem_map_of_mem he)
      exact ⟨l, List.mem_filter.mpr ⟨hl, by simpa [hls] using hes⟩, hls⟩
    · rintro ⟨l, hl, rfl⟩
      obtain ⟨hl, hs⟩ := List.mem_filter.mp hl
      exact hkept l hl (by simpa using hs)

/-- Inserting, in order, layers that lie above the ones laid so far never panics. -/
theorem foldlM_insert (h : HistoricInv hc L) (Ls : List (LayerKey × V))
    (hs : (L ++ Ls).Pairwise (fun a b => a.1 < b.1)) :
    ∃ hc', Ls.foldlM (fun hc e => hc.insert e.1 e.2) hc = some hc' ∧ HistoricInv hc' (L ++ Ls) := by
  induction Ls generalizing hc L with
  | nil => exact ⟨hc, rfl, by simpa using h⟩
  | cons e rest ih =>
    have hlt : ∀ l ∈ L, l.1 < e.1 := fun l hl =>
      (List.pairwise_append.mp hs).2.2 l hl e (List.mem_cons_self ..)
    obtain ⟨hc₁, h₁, hinv₁⟩ := h.insert e.1 e.2 hlt
    obtain ⟨hc', h', hinv'⟩ := ih hinv₁ (by simpa using hs)
    refine ⟨hc', ?_, by simpa using hinv'⟩
    rw [List.foldlM_cons, h₁]
    exact h'

end HistoricInv

end Denotation

end NeonStorage