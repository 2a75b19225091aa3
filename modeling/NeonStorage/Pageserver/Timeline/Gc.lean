import NeonStorage.Pageserver.LayerMap.Search

/-!
# Garbage collection of a timeline's historic layers

`Timeline::gc_timeline` (`pageserver/src/tenant/timeline.rs`) walks every historic layer
and removes it when it is older than the GC horizon and the PITR cutoff, no child branch
forked at or above its start, and image layers created between its end and the new GC
cutoff cover its whole key range (`image_layer_exists`).  The removal is then one batch of
`remove_historic` calls on the layer map.

A read of key `k` at LSN `r` follows the page-reconstruction chain: `search(k, r + 1)`,
then, while the layer found is a delta, `search` again below its `lsn_floor`.  The main
result, `gcTimeline_keeps_search_chains`, states that for every read at or above the new
GC cutoff, and every read at a retained branch point, this chain visits no removed layer
and is the same on the map after the removal.

The invariant that carries the chain is `Shielded`: every removed layer that the next
search can see lies under a current image layer at the key that ends later, so that the
search prefers that image, or a layer above it, and continues above it.
-/

namespace NeonStorage

open SortedMap

/-- `GcResult`: the counts `gc_timeline` reports (the elapsed time and the doomed layers
kept for tests are not modelled). -/
structure GcResult where
  layersTotal : Nat := 0
  layersNeededByCutoff : Nat := 0
  layersNeededByPitr : Nat := 0
  layersNeededByBranches : Nat := 0
  layersNotUpdated : Nat := 0
  layersRemoved : Nat := 0
deriving DecidableEq, Repr

/-- Why `gc_timeline` keeps a layer, or that it removes it. -/
inductive GcDecision where
  | neededByCutoff
  | neededByPitr
  | neededByBranches
  | notUpdated
  | remove
deriving DecidableEq, Repr

/-- The four conditions of `gc_timeline` for one layer, checked in order. -/
def gcDecision (layers : LayerMap) (horizonCutoff pitrCutoff : Nat) (retainLsns : List Nat)
    (newGcCutoff : Nat) (l : PersistentLayerDesc) : Except String GcDecision :=
  if l.lsnRange.end > horizonCutoff then pure .neededByCutoff
  else if l.lsnRange.end > pitrCutoff then pure .neededByPitr
  -- `start_lsn` is inclusive
  else if retainLsns.any (fun retainLsn => decide (l.lsnRange.start ≤ retainLsn)) then
    pure .neededByBranches
  else do
    if !(← layers.imageLayerExists l.keyRange ⟨l.lsnRange.end, newGcCutoff⟩) then
      pure .notUpdated
    else pure .remove

/-- One turn of the loop of `gc_timeline`: count the layer, and collect it if it goes. -/
def gcStep (layers : LayerMap) (horizonCutoff pitrCutoff : Nat) (retainLsns : List Nat)
    (newGcCutoff : Nat) (acc : GcResult × List PersistentLayerDesc) (l : PersistentLayerDesc) :
    Except String (GcResult × List PersistentLayerDesc) := do
  let (result, layersToRemove) := acc
  let result := { result with layersTotal := result.layersTotal + 1 }
  match ← gcDecision layers horizonCutoff pitrCutoff retainLsns newGcCutoff l with
  | .neededByCutoff =>
    pure ({ result with layersNeededByCutoff := result.layersNeededByCutoff + 1 }, layersToRemove)
  | .neededByPitr =>
    pure ({ result with layersNeededByPitr := result.layersNeededByPitr + 1 }, layersToRemove)
  | .neededByBranches =>
    pure ({ result with layersNeededByBranches := result.layersNeededByBranches + 1 },
      layersToRemove)
  | .notUpdated =>
    pure ({ result with layersNotUpdated := result.layersNotUpdated + 1 }, layersToRemove)
  | .remove => pure (result, layersToRemove ++ [l])

/-- `Timeline::gc_timeline` up to the removal: the counts and the layers to remove.  With
the latest GC cutoff at or above the new one there is nothing to do; otherwise the cutoff
moves forwards, so its check against moving backwards passes. -/
def gcTimeline (latestGcCutoff : Nat) (layers : LayerMap) (horizonCutoff pitrCutoff : Nat)
    (retainLsns : List Nat) (newGcCutoff : Nat) :
    Except String (GcResult × List PersistentLayerDesc) :=
  if latestGcCutoff ≥ newGcCutoff then pure ({}, [])
  else do
    let historicLayers ← layers.iterHistoricLayers
    let (result, layersToRemove) ← historicLayers.foldlM
      (gcStep layers horizonCutoff pitrCutoff retainLsns newGcCutoff) ({}, [])
    pure ({ result with layersRemoved := layersToRemove.length }, layersToRemove)

/-- The page-reconstruction chain through the historic layers: search below `endLsn`, and
while the layer found is a delta, search again below its `lsn_floor`; `fuel` bounds the
number of searches. -/
def LayerMap.searchChain (lm : LayerMap) (key : Key) : Nat → Nat →
    Except String (List SearchResult)
  | 0, _ => pure []
  | fuel + 1, endLsn => do
    match ← lm.search key endLsn with
    | none => pure []
    | some res =>
      if res.layer.isDelta then
        let rest ← lm.searchChain key fuel res.lsnFloor
        pure (res :: rest)
      else pure [res]

/-- What every layer file satisfies: a non-empty key range and, for an image layer, the
LSN range `lsn..lsn + 1` of its snapshot. -/
def PersistentLayerDesc.WellFormed (l : PersistentLayerDesc) : Prop :=
  l.keyRange.start < l.keyRange.end ∧ (l.isDelta = false → l.lsnRange.end = l.lsnRange.start + 1)

instance (l : PersistentLayerDesc) : Decidable l.WellFormed :=
  inferInstanceAs (Decidable (_ ∧ _))

/-- A call that inserts a well-formed layer, or any removal. -/
def LayerMapUpdate.WellFormed : LayerMapUpdate → Prop
  | .insertHistoric layerDesc => layerDesc.WellFormed
  | .removeHistoric _ => True

instance (u : LayerMapUpdate) : Decidable u.WellFormed := by
  cases u <;> unfold LayerMapUpdate.WellFormed <;> infer_instance

/-! ## The layers `gc_timeline` removes -/

theorem except_bind_eq_ok {ε α β : Type} {x : Except ε α} {f : α → Except ε β} {b : β}
    (h : (x >>= f) = .ok b) : ∃ a, x = .ok a ∧ f a = .ok b := by
  cases x with
  | error e => cases h
  | ok a => exact ⟨a, rfl, h⟩

section Removal

variable {lm : LayerMap} {current : LayerKey → Option PersistentLayerDesc}

theorem gcDecision_ok (h : lm.Flushed current) (horizonCutoff pitrCutoff : Nat)
    (retainLsns : List Nat) (newGcCutoff : Nat) (l : PersistentLayerDesc) :
    ∃ d, gcDecision lm horizonCutoff pitrCutoff retainLsns newGcCutoff l = .ok d := by
  unfold gcDecision
  split_ifs
  · exact ⟨_, rfl⟩
  · exact ⟨_, rfl⟩
  · exact ⟨_, rfl⟩
  · obtain ⟨b, hb⟩ := h.imageLayerExists_ok l.keyRange ⟨l.lsnRange.end, newGcCutoff⟩
    rw [hb]
    cases b
    · exact ⟨_, rfl⟩
    · exact ⟨_, rfl⟩

/-- A removed layer passed all four conditions. -/
theorem gcDecision_eq_remove {horizonCutoff pitrCutoff newGcCutoff : Nat} {retainLsns : List Nat}
    {l : PersistentLayerDesc}
    (h : gcDecision lm horizonCutoff pitrCutoff retainLsns newGcCutoff l = .ok .remove) :
    l.lsnRange.end ≤ horizonCutoff ∧ l.lsnRange.end ≤ pitrCutoff ∧
      (∀ retainLsn ∈ retainLsns, retainLsn < l.lsnRange.start) ∧
      lm.imageLayerExists l.keyRange ⟨l.lsnRange.end, newGcCutoff⟩ = .ok true := by
  unfold gcDecision at h
  split_ifs at h with h1 h2 h3
  · cases h
  · cases h
  · cases h
  · simp only [List.any_eq_true, decide_eq_true_eq, not_exists, not_and, not_le] at h3
    refine ⟨not_lt.mp h1, not_lt.mp h2, h3, ?_⟩
    obtain ⟨b, hb, hrem⟩ := except_bind_eq_ok h
    cases b
    · cases hrem
    · exact hb

theorem gcStep_ok (h : lm.Flushed current) (horizonCutoff pitrCutoff : Nat)
    (retainLsns : List Nat) (newGcCutoff : Nat) (acc : GcResult × List PersistentLayerDesc)
    (l : PersistentLayerDesc) :
    ∃ acc', gcStep lm horizonCutoff pitrCutoff retainLsns newGcCutoff acc l = .ok acc' := by
  obtain ⟨d, hd⟩ := gcDecision_ok h horizonCutoff pitrCutoff retainLsns newGcCutoff l
  unfold gcStep
  rw [hd]
  cases d <;> exact ⟨_, rfl⟩

/-- One turn of the loop keeps the collected layers or adds the one it removes. -/
theorem gcStep_spec {horizonCutoff pitrCutoff newGcCutoff : Nat} {retainLsns : List Nat}
    {acc acc' : GcResult × List PersistentLayerDesc} {l : PersistentLayerDesc}
    (h : gcStep lm horizonCutoff pitrCutoff retainLsns newGcCutoff acc l = .ok acc') :
    acc'.2 = acc.2 ∨ (acc'.2 = acc.2 ++ [l] ∧
      gcDecision lm horizonCutoff pitrCutoff retainLsns newGcCutoff l = .ok .remove) := by
  obtain ⟨result, layersToRemove⟩ := acc
  unfold gcStep at h
  obtain ⟨d, hd, hstep⟩ := except_bind_eq_ok h
  cases d <;> cases hstep
  · exact Or.inl rfl
  · exact Or.inl rfl
  · exact Or.inl rfl
  · exact Or.inl rfl
  · exact Or.inr ⟨rfl, hd⟩

theorem foldlM_gcStep_ok (h : lm.Flushed current) (horizonCutoff pitrCutoff : Nat)
    (retainLsns : List Nat) (newGcCutoff : Nat) (ls : List PersistentLayerDesc)
    (acc : GcResult × List PersistentLayerDesc) :
    ∃ acc', ls.foldlM (gcStep lm horizonCutoff pitrCutoff retainLsns newGcCutoff) acc =
      .ok acc' := by
  induction ls generalizing acc with
  | nil => exact ⟨acc, rfl⟩
  | cons l ls ih =>
    obtain ⟨acc₁, h₁⟩ := gcStep_ok h horizonCutoff pitrCutoff retainLsns newGcCutoff acc l
    obtain ⟨acc', h'⟩ := ih acc₁
    exact ⟨acc', by rw [List.foldlM_cons, h₁, Except.ok_bind]; exact h'⟩

/-- The loop collects exactly layers of the list that it decides to remove. -/
theorem foldlM_gcStep_mem {horizonCutoff pitrCutoff newGcCutoff : Nat} {retainLsns : List Nat}
    {ls : List PersistentLayerDesc} {acc acc' : GcResult × List PersistentLayerDesc}
    (h : ls.foldlM (gcStep lm horizonCutoff pitrCutoff retainLsns newGcCutoff) acc = .ok acc') :
    ∀ l ∈ acc'.2, l ∈ acc.2 ∨ (l ∈ ls ∧
      gcDecision lm horizonCutoff pitrCutoff retainLsns newGcCutoff l = .ok .remove) := by
  induction ls generalizing acc with
  | nil =>
    cases h
    exact fun l hl => Or.inl hl
  | cons l₀ ls ih =>
    rw [List.foldlM_cons] at h
    obtain ⟨acc₁, h₁, h'⟩ := except_bind_eq_ok h
    intro l hl
    rcases ih h' l hl with hl | ⟨hl, hrem⟩
    · rcases gcStep_spec h₁ with heq | ⟨heq, hrem⟩
      · exact Or.inl (heq ▸ hl)
      · rw [heq, List.mem_append, List.mem_singleton] at hl
        rcases hl with hl | rfl
        · exact Or.inl hl
        · exact Or.inr ⟨List.mem_cons_self .., hrem⟩
    · exact Or.inr ⟨List.mem_cons_of_mem _ hl, hrem⟩

/-- On a flushed map `gc_timeline` never fails. -/
theorem gcTimeline_ok (h : lm.Flushed current) (latestGcCutoff horizonCutoff pitrCutoff : Nat)
    (retainLsns : List Nat) (newGcCutoff : Nat) :
    ∃ result layersToRemove, gcTimeline latestGcCutoff lm horizonCutoff pitrCutoff retainLsns
      newGcCutoff = .ok (result, layersToRemove) := by
  unfold gcTimeline
  split_ifs
  · exact ⟨_, _, rfl⟩
  · obtain ⟨⟨result, layersToRemove⟩, hfold⟩ := foldlM_gcStep_ok h horizonCutoff pitrCutoff
      retainLsns newGcCutoff (lm.historic.layers.entries.map (·.2)) ({}, [])
    refine ⟨{ result with layersRemoved := layersToRemove.length }, layersToRemove, ?_⟩
    rw [h.iterHistoricLayers_eq, Except.ok_bind, hfold, Except.ok_bind]
    rfl

/-- Every layer `gc_timeline` removes is a current layer that passed the four conditions,
with the cutoff moving forwards. -/
theorem gcTimeline_removes (h : lm.Flushed current)
    {latestGcCutoff horizonCutoff pitrCutoff newGcCutoff : Nat} {retainLsns : List Nat}
    {result : GcResult} {layersToRemove : List PersistentLayerDesc}
    (hgc : gcTimeline latestGcCutoff lm horizonCutoff pitrCutoff retainLsns newGcCutoff =
      .ok (result, layersToRemove)) :
    ∀ l ∈ layersToRemove, current (LayerKey.fromDesc l) = some l ∧
      latestGcCutoff < newGcCutoff ∧ l.lsnRange.end ≤ horizonCutoff ∧
      l.lsnRange.end ≤ pitrCutoff ∧ (∀ retainLsn ∈ retainLsns, retainLsn < l.lsnRange.start) ∧
      lm.imageLayerExists l.keyRange ⟨l.lsnRange.end, newGcCutoff⟩ = .ok true := by
  unfold gcTimeline at hgc
  split_ifs at hgc with hlatest
  · cases hgc
    simp
  · rw [h.iterHistoricLayers_eq, Except.ok_bind] at hgc
    obtain ⟨⟨result', collected⟩, hfold, hret⟩ := except_bind_eq_ok hgc
    cases hret
    intro l hl
    rcases foldlM_gcStep_mem hfold l hl with hl | ⟨hl, hrem⟩
    · simp at hl
    · obtain ⟨⟨lk, l'⟩, hmem, rfl⟩ := List.mem_map.mp hl
      have hcur := (h.current_eq_some_iff lk _).mpr hmem
      obtain ⟨h1, h2, h3, h4⟩ := gcDecision_eq_remove hrem
      exact ⟨h.fromDesc lk _ hcur ▸ hcur, not_le.mp hlatest, h1, h2, h3, h4⟩

end Removal

/-! ## Reads around the removed layers -/

section Chain

variable {lm lm' : LayerMap} {current current' : LayerKey → Option PersistentLayerDesc}
  {R : List PersistentLayerDesc}

theorem Candidate.mono {isImage : Bool} {v v' : Nat} {x : Int} {lk : LayerKey}
    {l : PersistentLayerDesc} (h : Candidate current isImage v x lk l) (hv : v ≤ v') :
    Candidate current isImage v' x lk l :=
  ⟨h.1, h.2.1, le_trans h.2.2 hv⟩

/-- A candidate is one below any LSN it starts at or below. -/
theorem Candidate.mono' {isImage : Bool} {v v' : Nat} {x : Int} {lk : LayerKey}
    {l : PersistentLayerDesc} (h : Candidate current isImage v x lk l) (hv : lk.lsn.start ≤ v') :
    Candidate current isImage v' x lk l :=
  ⟨h.1, h.2.1, hv⟩

/-- The kind of a current layer is the kind the reference asked for. -/
theorem LayerMap.Flushed.isDelta_of_candidate (hf : lm.Flushed current) {isImage : Bool}
    {v : Nat} {x : Int} {lk : LayerKey} {l : PersistentLayerDesc}
    (h : Candidate current isImage v x lk l) : l.isDelta = !isImage := by
  have hk := hf.fromDesc lk l h.1
  have hkind : lk.isImage = isImage := h.2.1.1
  rw [hk] at hkind
  cases hl : l.isDelta <;> simp_all [LayerKey.fromDesc]

/-- The answer of the reference is a candidate that ends at least as late as every other. -/
theorem LayerMap.Flushed.best (hf : lm.Flushed current) {isImage : Bool} {v : Nat} {x : Int}
    {l : PersistentLayerDesc} (h : NaiveAnswer (Candidate current isImage v x) (some l)) :
    Candidate current isImage v x (LayerKey.fromDesc l) l ∧
      ∀ lk' l', Candidate current isImage v x lk' l' → l'.lsnRange.end ≤ l.lsnRange.end := by
  obtain ⟨lk, hlk, hbest⟩ := h.exists_le
  have hk := hf.fromDesc lk l hlk.1
  subst hk
  refine ⟨hlk, fun lk' l' hl' => ?_⟩
  have hk' := hf.fromDesc lk' l' hl'.1
  subst hk'
  exact hbest _ l' hl'

/-- Every removed layer that a search at `x` below `v + 1` can see lies under a current
image layer at `x`, visible there too, that ends later. -/
def Shielded (current : LayerKey → Option PersistentLayerDesc) (R : List PersistentLayerDesc)
    (x : Int) (v : Nat) : Prop :=
  ∀ l ∈ R, ∀ isImage, Candidate current isImage v x (LayerKey.fromDesc l) l →
    ∃ i, Candidate current true v x (LayerKey.fromDesc i) i ∧ l.lsnRange.end < i.lsnRange.end

/-- The latest image layer is never a removed one. -/
theorem Shielded.image_not_mem (hf : lm.Flushed current) {x : Int} {v : Nat}
    (hsh : Shielded current R x v) {j : PersistentLayerDesc}
    (hj : NaiveAnswer (Candidate current true v x) (some j)) : j ∉ R := by
  intro hjR
  obtain ⟨hcand, hbest⟩ := hf.best hj
  obtain ⟨i, hi, hlt⟩ := hsh j hjR true hcand
  exact absurd (hbest _ i hi) (not_le.mpr hlt)

/-- A removed delta layer lies under the latest image layer. -/
theorem Shielded.lt_image (hf : lm.Flushed current) {x : Int} {v : Nat}
    (hsh : Shielded current R x v) {d : PersistentLayerDesc} (hdR : d ∈ R)
    (hd : Candidate current false v x (LayerKey.fromDesc d) d) {imageLayer : Option PersistentLayerDesc}
    (hJ : NaiveAnswer (Candidate current true v x) imageLayer) :
    ∃ j, imageLayer = some j ∧ d.lsnRange.end < j.lsnRange.end := by
  obtain ⟨i, hi, hlt⟩ := hsh d hdR false hd
  cases imageLayer with
  | none => exact absurd hi (hJ _ i)
  | some j => exact ⟨j, rfl, lt_of_lt_of_le hlt ((hf.best hJ).2 _ i hi)⟩

section Removed

variable (hf : lm.Flushed current) (hR : ∀ l ∈ R, current (LayerKey.fromDesc l) = some l)
  (hcur' : ∀ lk, current' lk = if lk ∈ R.map LayerKey.fromDesc then none else current lk)
include hf hR hcur'

/-- After the removal the candidates are the old ones that were not removed. -/
theorem candidate_removed_iff {isImage : Bool} {v : Nat} {x : Int} {lk : LayerKey}
    {l : PersistentLayerDesc} :
    Candidate current' isImage v x lk l ↔ Candidate current isImage v x lk l ∧ l ∉ R := by
  unfold Candidate
  rw [hcur' lk]
  by_cases hk : lk ∈ R.map LayerKey.fromDesc
  · simp only [hk, ↓reduceIte, reduceCtorEq, false_and, false_iff, not_and]
    intro hl hlR
    obtain ⟨r, hr, rfl⟩ := List.mem_map.mp hk
    have hrl : r = l := Option.some_injective _ ((hR r hr).symm.trans hl.1)
    exact hlR (hrl ▸ hr)
  · simp only [hk, ↓reduceIte]
    constructor
    · rintro ⟨hl, hrest⟩
      refine ⟨⟨hl, hrest⟩, fun hlR => hk ?_⟩
      rw [hf.fromDesc lk l hl]
      exact List.mem_map_of_mem hlR
    · rintro ⟨h, -⟩
      exact h

/-- An answer that is not a removed layer stays the answer after the removal. -/
theorem naiveAnswer_removed {isImage : Bool} {v : Nat} {x : Int} {a : Option PersistentLayerDesc}
    (h : NaiveAnswer (Candidate current isImage v x) a) (ha : ∀ l, a = some l → l ∉ R) :
    NaiveAnswer (Candidate current' isImage v x) a :=
  h.restrict (fun _ _ h' => ((candidate_removed_iff hf hR hcur').mp h').1)
    (fun _ l hal h' => (candidate_removed_iff hf hR hcur').mpr ⟨h', ha l hal⟩)

/-- Under the shield a search gives the same result on the map and on the map after the
removal, and the layer it finds is not a removed one; below the floor of a delta it finds,
the shield still holds. -/
theorem search_shielded (hf' : lm'.Flushed current') (key : Key) {endLsn : Nat}
    (hsh : Shielded current R key.toI128 (endLsn - 1)) :
    ∃ res, lm.search key endLsn = .ok res ∧ lm'.search key endLsn = .ok res ∧
      ∀ r, res = some r → r.layer ∉ R ∧
        (r.layer.isDelta = true → Shielded current R key.toI128 (r.lsnFloor - 1)) := by
  obtain ⟨D, J, hs, hD, hJ⟩ := hf.search_eq key endLsn
  obtain ⟨D', J', hs', hD', hJ'⟩ := hf'.search_eq key endLsn
  have hJR : ∀ j, J = some j → j ∉ R := by
    rintro j rfl
    exact hsh.image_not_mem hf hJ
  have hJJ : J' = J :=
    NaiveAnswer.unique candidate_functional hJ' (naiveAnswer_removed hf hR hcur' hJ hJR)
  -- an image found is never followed further
  have himageDelta : ∀ j, J = some j → j.isDelta = false := by
    rintro j rfl
    simpa using hf.isDelta_of_candidate (hf.best hJ).1
  by_cases hDR : ∃ d, D = some d ∧ d ∈ R
  · -- a removed latest delta lies under the latest image, which both maps find instead
    obtain ⟨d, rfl, hdR⟩ := hDR
    obtain ⟨hd, hdbest⟩ := hf.best hD
    obtain ⟨j, rfl, hlt⟩ := hsh.lt_image hf hdR hd hJ
    have himage : ∀ delta : Option PersistentLayerDesc,
        (∀ d', delta = some d' → d'.lsnRange.end ≤ d.lsnRange.end) →
        LayerMap.selectLayer delta (some j) endLsn = some ⟨j, j.lsnRange.start⟩ := by
      intro delta hdelta
      cases delta with
      | none => rfl
      | some d' =>
        have hle : d'.lsnRange.end ≤ j.lsnRange.end := le_trans (hdelta d' rfl) hlt.le
        simp [LayerMap.selectLayer, hle]
    refine ⟨some ⟨j, j.lsnRange.start⟩, ?_, ?_, ?_⟩
    · rw [hs, himage (some d) (fun d' h => by cases h; exact le_rfl)]
    · rw [hs', hJJ, himage D' (fun d' hd' => ?_)]
      subst hd'
      exact hdbest _ d' ((candidate_removed_iff hf hR hcur').mp (hf'.best hD').1).1
    · rintro r ⟨⟩
      refine ⟨hJR j rfl, fun hdelta => ?_⟩
      rw [himageDelta j rfl] at hdelta
      cases hdelta
  · -- otherwise both maps also agree on the latest delta
    have hDR' : ∀ d, D = some d → d ∉ R := fun d hd hdR => hDR ⟨d, hd, hdR⟩
    have hDD : D' = D :=
      NaiveAnswer.unique candidate_functional hD' (naiveAnswer_removed hf hR hcur' hD hDR')
    refine ⟨LayerMap.selectLayer D J endLsn, hs, by rw [hs', hDD, hJJ], fun r hr => ?_⟩
    rcases LayerMap.selectLayer_eq_some hr with ⟨hJr, -, -⟩ | ⟨hDr, hrest⟩
    · refine ⟨hJR _ hJr, fun hdelta => ?_⟩
      rw [himageDelta _ hJr] at hdelta
      cases hdelta
    · refine ⟨hDR' _ hDr, fun _ => ?_⟩
      rw [hDr] at hD
      have hdv : r.layer.lsnRange.start ≤ endLsn - 1 := (hf.best hD).1.2.2
      intro l hl isImage hcand
      rcases hrest with ⟨hJn, hfloor⟩ | ⟨image, hJi, -, -, hfloor⟩
      · -- no image at all: nothing removed is visible, since it would need one
        obtain ⟨i, hi, -⟩ := hsh l hl isImage (hcand.mono (by omega))
        rw [hJn] at hJ
        exact absurd hi (hJ _ i)
      · -- the floor lies above the latest image, which keeps shielding
        rw [hJi] at hJ
        obtain ⟨himage, hibest⟩ := hf.best hJ
        have hiv : image.lsnRange.start ≤ endLsn - 1 := himage.2.2
        obtain ⟨i, hi, hlt⟩ := hsh l hl isImage (hcand.mono (by omega))
        have habove : image.lsnRange.start + 1 ≤ r.lsnFloor := hfloor ▸ le_max_right _ _
        have hstart : (LayerKey.fromDesc image).lsn.start ≤ r.lsnFloor - 1 :=
          show image.lsnRange.start ≤ r.lsnFloor - 1 by omega
        exact ⟨image, himage.mono' hstart, lt_of_lt_of_le hlt (hibest _ i hi)⟩

/-- The chain from a shielded LSN is the same on both maps and visits no removed layer. -/
theorem searchChain_shielded (hf' : lm'.Flushed current') (key : Key) :
    ∀ fuel endLsn, Shielded current R key.toI128 (endLsn - 1) →
      ∃ chain, lm.searchChain key fuel endLsn = .ok chain ∧ (∀ res ∈ chain, res.layer ∉ R) ∧
        lm'.searchChain key fuel endLsn = .ok chain := by
  intro fuel
  induction fuel with
  | zero => exact fun _ _ => ⟨[], rfl, by simp, rfl⟩
  | succ fuel ih =>
    intro endLsn hsh
    obtain ⟨res, hs, hs', hres⟩ := search_shielded hf hR hcur' hf' key hsh
    cases res with
    | none =>
      exact ⟨[], by rw [LayerMap.searchChain, hs]; rfl, by simp,
        by rw [LayerMap.searchChain, hs']; rfl⟩
    | some r =>
      obtain ⟨hrR, hnext⟩ := hres r rfl
      by_cases hd : r.layer.isDelta = true
      · obtain ⟨rest, h1, h2, h3⟩ := ih r.lsnFloor (hnext hd)
        refine ⟨r :: rest, ?_, ?_, ?_⟩
        · rw [LayerMap.searchChain, hs, Except.ok_bind]
          simp only [hd, ↓reduceIte, h1]
          rfl
        · intro res hres'
          rcases List.mem_cons.mp hres' with rfl | hres'
          · exact hrR
          · exact h2 res hres'
        · rw [LayerMap.searchChain, hs', Except.ok_bind]
          simp only [hd, ↓reduceIte, h3]
          rfl
      · refine ⟨[r], ?_, by simpa using hrR, ?_⟩
        · rw [LayerMap.searchChain, hs, Except.ok_bind]
          simp only [hd, Bool.false_eq_true, ↓reduceIte]
          rfl
        · rw [LayerMap.searchChain, hs', Except.ok_bind]
          simp only [hd, Bool.false_eq_true, ↓reduceIte]
          rfl

end Removed

/-- A read at or above the new GC cutoff, or at a retained branch point, starts shielded:
a removed layer starts above every retained LSN, and the image layers that let GC remove
it start below the new cutoff and end after it. -/
theorem shielded_initial (hf : lm.Flushed current)
    (hwf : ∀ lk l, current lk = some l → l.WellFormed) {newGcCutoff : Nat}
    {retainLsns : List Nat}
    (hrem : ∀ l ∈ R, current (LayerKey.fromDesc l) = some l ∧
      (∀ retainLsn ∈ retainLsns, retainLsn < l.lsnRange.start) ∧
      lm.imageLayerExists l.keyRange ⟨l.lsnRange.end, newGcCutoff⟩ = .ok true)
    {r : Nat} (hr : newGcCutoff ≤ r ∨ r ∈ retainLsns) (x : Int) : Shielded current R x r := by
  intro l hl isImage hcand
  obtain ⟨hcur, hretain, hex⟩ := hrem l hl
  rcases hr with hr | hr
  · have hkey : l.keyRange.isEmpty = false := by
      simpa [Range.isEmpty] using (hwf _ l hcur).1
    obtain ⟨i, hi, hle⟩ := hf.imageLayerExists_covers hkey hex x
      ⟨hcand.2.1.2.1, hcand.2.1.2.2⟩
    obtain ⟨hicand, -⟩ := hf.best hi
    have hidelta : i.isDelta = false := by simpa using hf.isDelta_of_candidate hicand
    have hiend : i.lsnRange.end = i.lsnRange.start + 1 := (hwf _ i hicand.1).2 hidelta
    have hle' : l.lsnRange.end ≤ i.lsnRange.start := hle
    exact ⟨i, hicand.mono (show newGcCutoff - 1 ≤ r by omega), by omega⟩
  · exact absurd hcand.2.2 (not_le.mpr (hretain r hr))

/-- One run of `gc_timeline` and its removal on a flushed map of well-formed layers: it
succeeds, the map after the removal is flushed with well-formed layers, and every chain read
at or above the new GC cutoff or at a retained branch point is the same on both maps and
visits no removed layer. -/
theorem LayerMap.Flushed.gcTimeline_remove (hf : lm.Flushed current)
    (hwf : ∀ lk l, current lk = some l → l.WellFormed)
    (latestGcCutoff horizonCutoff pitrCutoff newGcCutoff : Nat) (retainLsns : List Nat) :
    ∃ result layersToRemove, gcTimeline latestGcCutoff lm horizonCutoff pitrCutoff retainLsns
        newGcCutoff = .ok (result, layersToRemove) ∧
      ∃ lm' current', lm.batchUpdate (layersToRemove.map .removeHistoric) = some lm' ∧
        lm'.Flushed current' ∧ (∀ lk l, current' lk = some l → l.WellFormed) ∧
        ∀ key r, newGcCutoff ≤ r ∨ r ∈ retainLsns → ∀ fuel, ∃ chain,
          lm.searchChain key fuel (r + 1) = .ok chain ∧
          (∀ res ∈ chain, res.layer ∉ layersToRemove) ∧
          lm'.searchChain key fuel (r + 1) = .ok chain := by
  obtain ⟨result, R, hgc⟩ :=
    gcTimeline_ok hf latestGcCutoff horizonCutoff pitrCutoff retainLsns newGcCutoff
  have hrem := gcTimeline_removes hf hgc
  obtain ⟨lm', hlm', hf'⟩ := hf.batchUpdate (R.map .removeHistoric)
  -- the removal batch leaves the current layers that were not collected
  have hcur' : ∀ lk, ((R.map LayerMapUpdate.removeHistoric).map
      LayerMapUpdate.toLayerUpdate).foldl LayerUpdate.apply current lk =
      if lk ∈ R.map LayerKey.fromDesc then none else current lk := by
    intro lk
    rw [List.map_map, show LayerMapUpdate.toLayerUpdate ∘ LayerMapUpdate.removeHistoric =
      LayerUpdate.removeHistoric ∘ LayerKey.fromDesc from rfl, ← List.map_map,
      LayerUpdate.foldl_apply_remove]
  refine ⟨result, R, hgc, lm', _, hlm', hf', fun lk l hl => ?_, fun key r hr fuel => ?_⟩
  · rw [hcur'] at hl
    by_cases hk : lk ∈ R.map LayerKey.fromDesc
    · simp [hk] at hl
    · rw [if_neg hk] at hl
      exact hwf lk l hl
  have hsh := shielded_initial hf hwf
    (fun l hl => ⟨(hrem l hl).1, (hrem l hl).2.2.2.2.1, (hrem l hl).2.2.2.2.2⟩) hr key.toI128
  exact searchChain_shielded hf (fun l hl => (hrem l hl).1) hcur' hf' key fuel (r + 1)
    (by simpa using hsh)

end Chain

/-- Every layer that well-formed updates leave in the map was inserted by one of them, so it
is well formed. -/
theorem wellFormed_foldl_apply {us : List LayerMapUpdate} (hwf : ∀ u ∈ us, u.WellFormed) :
    ∀ lk l, (us.map LayerMapUpdate.toLayerUpdate).foldl LayerUpdate.apply (fun _ => none) lk =
      some l → l.WellFormed := by
  refine LayerUpdate.foldl_apply_forall (fun _ _ h => by simp at h) _ (fun u hu lk l hul => ?_)
  obtain ⟨u₀, hu₀, rfl⟩ := List.mem_map.mp hu
  cases u₀ with
  | insertHistoric d =>
    simp only [LayerMapUpdate.toLayerUpdate, LayerUpdate.insertHistoric.injEq] at hul
    obtain ⟨-, rfl⟩ := hul
    exact hwf _ hu₀
  | removeHistoric d => simp [LayerMapUpdate.toLayerUpdate] at hul

/-- For every flushed layer map built by batches of well-formed layers, and every run of
`gc_timeline`: for every key and every read LSN at or above the new GC cutoff or at a
retained branch point, the page-reconstruction chain visits no removed layer and is the
same on the map after the removal. -/
theorem gcTimeline_keeps_search_chains (batches : List (List LayerMapUpdate))
    (hwf : ∀ u ∈ batches.flatten, u.WellFormed)
    (latestGcCutoff horizonCutoff pitrCutoff newGcCutoff : Nat) (retainLsns : List Nat) :
    ∃ lm, batches.foldlM LayerMap.batchUpdate LayerMap.new = some lm ∧
      ∃ result layersToRemove, gcTimeline latestGcCutoff lm horizonCutoff pitrCutoff retainLsns
          newGcCutoff = .ok (result, layersToRemove) ∧
        ∃ lm', lm.batchUpdate (layersToRemove.map .removeHistoric) = some lm' ∧
          ∀ key r, newGcCutoff ≤ r ∨ r ∈ retainLsns → ∀ fuel, ∃ chain,
            lm.searchChain key fuel (r + 1) = .ok chain ∧
            (∀ res ∈ chain, res.layer ∉ layersToRemove) ∧
            lm'.searchChain key fuel (r + 1) = .ok chain := by
  obtain ⟨lm, hrun, hf⟩ := LayerMap.flushed_new.foldlM_batchUpdate batches
  obtain ⟨result, R, hgc, lm', -, hlm', -, -, hchain⟩ :=
    hf.gcTimeline_remove (wellFormed_foldl_apply hwf) latestGcCutoff horizonCutoff pitrCutoff
      newGcCutoff retainLsns
  exact ⟨lm, hrun, result, R, hgc, lm', hlm', hchain⟩

/-- An image, a delta above it, and in a later batch a newer image over the same keys,
collected at cutoff 50 with a branch point at 5. -/
theorem gcTimeline_keeps_search_chains_stacked :
    (∀ u ∈ [[LayerMapUpdate.insertHistoric ⟨⟨⟨0, 0, 0, 0, 0, 0⟩, ⟨0, 0, 0, 0, 0, 10⟩⟩, ⟨10, 11⟩, false, 0⟩,
        .insertHistoric ⟨⟨⟨0, 0, 0, 0, 0, 0⟩, ⟨0, 0, 0, 0, 0, 10⟩⟩, ⟨11, 20⟩, true, 0⟩],
      [.insertHistoric ⟨⟨⟨0, 0, 0, 0, 0, 0⟩, ⟨0, 0, 0, 0, 0, 10⟩⟩, ⟨20, 21⟩, false, 0⟩]].flatten, u.WellFormed) ∧
    ∃ lm, [[LayerMapUpdate.insertHistoric ⟨⟨⟨0, 0, 0, 0, 0, 0⟩, ⟨0, 0, 0, 0, 0, 10⟩⟩, ⟨10, 11⟩, false, 0⟩,
        .insertHistoric ⟨⟨⟨0, 0, 0, 0, 0, 0⟩, ⟨0, 0, 0, 0, 0, 10⟩⟩, ⟨11, 20⟩, true, 0⟩],
      [.insertHistoric ⟨⟨⟨0, 0, 0, 0, 0, 0⟩, ⟨0, 0, 0, 0, 0, 10⟩⟩, ⟨20, 21⟩, false, 0⟩]].foldlM LayerMap.batchUpdate LayerMap.new = some lm ∧
      ∃ result layersToRemove, gcTimeline 0 lm 100 100 [5] 50 = .ok (result, layersToRemove) ∧
        ∃ lm', lm.batchUpdate (layersToRemove.map .removeHistoric) = some lm' ∧
          ∀ key r, 50 ≤ r ∨ r ∈ [5] → ∀ fuel, ∃ chain,
            lm.searchChain key fuel (r + 1) = .ok chain ∧
            (∀ res ∈ chain, res.layer ∉ layersToRemove) ∧
            lm'.searchChain key fuel (r + 1) = .ok chain :=
  ⟨by decide, gcTimeline_keeps_search_chains _ (by decide) 0 100 100 50 [5]⟩

end NeonStorage
