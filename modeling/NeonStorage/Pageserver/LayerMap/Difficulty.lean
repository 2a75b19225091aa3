import NeonStorage.Pageserver.LayerMap.Search
import NeonStorage.Pageserver.Partition

/-!
# How many deltas a page reconstruction visits

`LayerMap::get_difficulty_map` (`pageserver/src/tenant/layer_map.rs`) estimates, for each part
of a key partitioning, the largest number of reimage-worthy delta layers a page read at `lsn`
has to visit.  For each range of a part it takes the latest images at `lsn`
(`image_coverage`) and, under each image older than `lsn`, counts the tallest stack of deltas
(`count_deltas`).  `get_difficulty_map_bruteforce` follows the search chain of `search`
instead, at the start of each range and at the keys where a delta starts or an image ends, and
the source expects the two to agree.

The two disagree on an image layer that starts exactly at `lsn`.  `image_coverage` reads the
version at `lsn`, which holds that image, while `search(key, lsn)` reads the version at
`lsn - 1`, which does not.  `getDifficultyMap_ne_bruteforce` is such a map.

The recursions of `count_deltas` and `get_difficulty` are run with fuel; `none` means that
the fuel ran out.
-/

namespace NeonStorage

namespace LayerMap

open LayerCoverage

/-- `LayerMap::image_coverage`: the key range cut at each change of the latest image at `lsn`
(inclusive), with that image. -/
def imageCoverage (self : LayerMap) (keyRange : Range Key) (lsn : Nat) :
    Except String (List (Range Key × Option PersistentLayerDesc)) := do
  let historic ← self.historic.get
  match historic.getVersion lsn with
  | none => pure []
  | some version =>
    let start := keyRange.start.toI128
    let «end» := keyRange.end.toI128
    -- each change closes the interval the one before it opened
    let (coverage, currentKey, currentVal) :=
      (version.imageCoverage.range ⟨start, «end»⟩).foldl
        (fun (coverage, currentKey, currentVal) (changeKey, changeVal) =>
          (coverage ++ [(⟨Key.fromI128 currentKey, Key.fromI128 changeKey⟩, currentVal)],
            changeKey, changeVal))
        (([] : List (Range Key × Option PersistentLayerDesc)), start,
          version.imageCoverage.query start)
    pure (coverage ++ [(⟨Key.fromI128 currentKey, Key.fromI128 «end»⟩, currentVal)])

/-- `LayerMap::is_l0`: a layer over the whole key space. -/
def isL0 (layer : PersistentLayerDesc) : Bool :=
  layer.keyRange = ⟨Key.min, Key.max⟩

/-- `LayerMap::is_reimage_worthy`: every layer but an L0 one, and an L0 one only when the
partition is the whole key space. -/
def isReimageWorthy (layer : PersistentLayerDesc) (partitionRange : Range Key) : Bool :=
  if !isL0 layer then true
  else if partitionRange = ⟨Key.min, Key.max⟩ then true
  else false

/-- One part of the delta coverage in `count_deltas`: a delta that ends above `lsn.start` adds
one, when it is reimage-worthy, to the tallest stack under it in its key range. -/
def countDeltasPart (countUnder : Range Key → Range Nat → Option ℕ → ExceptT String Option ℕ)
    (key : Range Key) (lsn : Range Nat) (limit : Option ℕ) (maxStackedDeltas : ℕ)
    (currentKey changeKey : Int) (currentVal : Option PersistentLayerDesc) :
    ExceptT String Option ℕ := do
  match currentVal with
  | some val =>
    if val.lsnRange.end > lsn.start then
      let kr : Range Key := ⟨Key.fromI128 currentKey, Key.fromI128 changeKey⟩
      let lr : Range Nat := ⟨lsn.start, val.lsnRange.start⟩
      if !kr.isEmpty then
        let baseCount := if isReimageWorthy val key then 1 else 0
        let newLimit := limit.map (· - baseCount)
        let maxStackedDeltasUnderneath ← countUnder kr lr newLimit
        pure (max maxStackedDeltas (baseCount + maxStackedDeltasUnderneath))
      else pure maxStackedDeltas
    else pure maxStackedDeltas
  | none => pure maxStackedDeltas

/-- One pass of the loop of `count_deltas` over the changes of the delta coverage: the part up
to the change is counted, and the change opens the next part. -/
def countDeltasStep (part : ℕ → Int → Int → Option PersistentLayerDesc → ExceptT String Option ℕ)
    (acc : ℕ × Int × Option PersistentLayerDesc) (change : Int × Option PersistentLayerDesc) :
    ExceptT String Option (ℕ × Int × Option PersistentLayerDesc) := do
  let maxStackedDeltas ← part acc.1 acc.2.1 change.1 acc.2.2
  pure (maxStackedDeltas, change.1, change.2)

/-- `LayerMap::count_deltas`: the height of the tallest stack of reimage-worthy deltas in the
region `key × lsn`, not counted past `limit`.  Each level looks below the start of a delta
that starts below `lsn.end`, so the recursion ends; `fuel` bounds its depth. -/
def countDeltas (self : LayerMap) :
    ℕ → Range Key → Range Nat → Option ℕ → ExceptT String Option ℕ
  | 0, _, _, _ => ExceptT.lift none
  | fuel + 1, key, lsn, limit => do
    if lsn.isEmpty || key.isEmpty || limit == some 0 then return 0
    let historic ← self.historic.get
    match historic.getVersion (lsn.end - 1) with
    | none => pure 0
    | some version =>
      let start := key.start.toI128
      let «end» := key.end.toI128
      let part := countDeltasPart (self.countDeltas fuel) key lsn limit
      let (maxStackedDeltas, currentKey, currentVal) ←
        (version.deltaCoverage.range ⟨start, «end»⟩).foldlM (countDeltasStep part)
          (0, start, version.deltaCoverage.query start)
      -- the last part runs to the end of the key range
      part maxStackedDeltas currentKey «end» currentVal

/-- `LayerMap::get_difficulty`: the reimage-worthy deltas the search chain from `lsn` visits
before it reaches an image or nothing.  `fuel` bounds the length of the chain. -/
def getDifficulty (self : LayerMap) :
    ℕ → Nat → Key → Range Key → ExceptT String Option ℕ
  | 0, _, _, _ => ExceptT.lift none
  | fuel + 1, lsn, key, partitionRange => do
    match ← self.search key lsn with
    | some searchResult =>
      if searchResult.layer.isDelta then
        let below ← self.getDifficulty fuel searchResult.lsnFloor key partitionRange
        pure ((if isReimageWorthy searchResult.layer partitionRange then 1 else 0) + below)
      else pure 0
    | none => pure 0

/-- The inner loop of `get_difficulty_map_bruteforce` over the sorted keys: keys before the
range are skipped, and the loop stops at the first key at or past its end, which stays for the
next range. -/
def bruteforceKeys (self : LayerMap) (fuel lsn : ℕ) (range : Range Key) :
    ℕ → List Key → ExceptT String Option (ℕ × List Key)
  | difficulty, [] => pure (difficulty, [])
  | difficulty, key :: keys =>
    if key ≥ range.end then pure (difficulty, key :: keys)
    else if key < range.start then bruteforceKeys self fuel lsn range difficulty keys
    else do
      let d ← self.getDifficulty fuel lsn key range
      bruteforceKeys self fuel lsn range (max difficulty d) keys

/-- `LayerMap::get_difficulty_map_bruteforce`: the difficulty at the start of each range of a
part, and at each key where a delta starts or an image ends. -/
def getDifficultyMapBruteforce (self : LayerMap) (fuel lsn : ℕ)
    (partitioning : KeyPartitioning) : ExceptT String Option (List ℕ) := do
  let layers ← self.iterHistoricLayers
  -- `sort` is stable, so insertion sort gives its order
  let keys := (layers.map fun layer =>
    if layer.isDelta then layer.keyRange.start else layer.keyRange.end).insertionSort
      fun a b => a ≤ b
  -- the keys not yet taken go on from one range, and one part, to the next
  let (difficulties, _) ← partitioning.parts.foldlM
    (fun (difficulties, keys) part => do
      let (difficulty, keys) ← part.ranges.foldlM
        (fun (difficulty, keys) range => do
          let difficulty ←
            if !range.isEmpty then do
              let d ← self.getDifficulty fuel lsn range.start range
              pure (max difficulty d)
            else pure difficulty
          self.bruteforceKeys fuel lsn range difficulty keys)
        (0, keys)
      pure (difficulties ++ [difficulty], keys))
    (([] : List ℕ), keys)
  pure difficulties

/-- `LayerMap::get_difficulty_map`.  Both loops break once the difficulty reaches `limit`;
after that every pass of either loop leaves it as it is. -/
def getDifficultyMap (self : LayerMap) (fuel lsn : ℕ) (partitioning : KeyPartitioning)
    (limit : Option ℕ) : ExceptT String Option (List ℕ) :=
  partitioning.parts.mapM fun part =>
    part.ranges.foldlM
      (fun difficulty range => do
        if limit == some difficulty then return difficulty
        let coverage ← self.imageCoverage range lsn
        coverage.foldlM
          (fun difficulty (imgRange, lastImg) => do
            if limit == some difficulty then return difficulty
            let imgLsn := match lastImg with
              | some lastImg => lastImg.lsnRange.end
              | none => 0
            if imgLsn < lsn then
              let numDeltas ← self.countDeltas fuel imgRange ⟨imgLsn, lsn⟩ limit
              pure (max difficulty numDeltas)
            else pure difficulty)
          difficulty)
      0

/-! ## The recursion of `count_deltas` ends -/

variable {lm : LayerMap} {current : LayerKey → Option PersistentLayerDesc}

/-- A delta over keys `0..10` at LSNs `1..5`, under an image over the same keys at LSN `5`.
At `lsn = 5` the difficulty map sees the image and counts nothing; the search at `lsn = 5`
does not see the image and counts the delta. -/
theorem getDifficultyMap_ne_bruteforce :
    ∃ lm, new.batchUpdate
        [.insertHistoric ⟨⟨⟨0, 0, 0, 0, 0, 0⟩, ⟨0, 0, 0, 0, 0, 10⟩⟩, ⟨1, 5⟩, true, 0⟩,
          .insertHistoric ⟨⟨⟨0, 0, 0, 0, 0, 0⟩, ⟨0, 0, 0, 0, 0, 10⟩⟩, ⟨5, 6⟩, false, 0⟩] =
        some lm ∧
      (lm.getDifficultyMap 10 5 ⟨[⟨[⟨⟨0, 0, 0, 0, 0, 0⟩, ⟨0, 0, 0, 0, 0, 10⟩⟩]⟩]⟩ none).run =
        some (.ok [0]) ∧
      (lm.getDifficultyMapBruteforce 10 5 ⟨[⟨[⟨⟨0, 0, 0, 0, 0, 0⟩, ⟨0, 0, 0, 0, 0, 10⟩⟩]⟩]⟩).run =
        some (.ok [1]) :=
  ⟨_, rfl, by decide, by decide⟩

end LayerMap

end NeonStorage
