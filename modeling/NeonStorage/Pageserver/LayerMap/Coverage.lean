import NeonStorage.Lib.SortedMap
import NeonStorage.Lib.Range

/-!
# Layer coverage along the key space

`LayerCoverage` (`pageserver/src/tenant/layer_map/layer_coverage.rs`) records, for one
kind of layer, which layer covers each key: the latest by `lsn.end`.  It stores a node at
every key where the coverage changes, holding the `lsn.end` and the value of the layer
in force from there on, or `None` where no layer covers the keys.  Reading the nodes as
a step function (`coverAt`) gives the coverage.

`insert` first pins the coverage at both ends of the new layer's key range by adding
nodes that repeat the value in force there (`add_node`), then sweeps the nodes inside
the range: a node whose layer ends strictly below the new `lsn.end`, or that is
uncovered, is raised to the new layer, and a raised node right after another raised one
is removed, since the earlier one now covers it.

The main result, `coverAt_insert`, is that the sweep does exactly the pointwise update
`raise`: inside the key range, a key whose coverage ends strictly below the new
`lsn.end` (or is empty) now shows the new layer; every other key keeps its coverage.
-/

namespace NeonStorage

/-- `LayerCoverage`: the coverage changes along the key space, as `(lsn.end, value)` or
`None` at each change point. -/
structure LayerCoverage (V : Type) where
  nodes : SortedMap Int (Option (Nat × V))

namespace LayerCoverage

variable {V : Type}

open SortedMap

/-- `LayerCoverage::new`: no layer covers any key. -/
def new : LayerCoverage V := ⟨SortedMap.empty⟩

/-- `add_node`: a node at `key` that repeats the coverage in force there. -/
def addNode (self : LayerCoverage V) (key : Int) : LayerCoverage V :=
  let value := match self.nodes.floor key with
    | some (_, some v) => some v
    | some (_, none) => none
    | none => none
  ⟨self.nodes.insert key value⟩

/-- `needs_cover`: the node is uncovered, or its layer ends strictly below `lsnEnd`. -/
def needsCover (lsnEnd : Nat) : Option (Nat × V) → Bool
  | none => true
  | some (h, _) => h < lsnEnd

/-- One step of the sweep of `insert` over the nodes of the key range: it collects the
nodes to raise (`to_update`) and to remove (`to_remove`), and whether the node before
needed cover (`prev_covered`). -/
def sweepStep (lsnEnd : Nat) (acc : List Int × List Int × Bool)
    (node : Int × Option (Nat × V)) : List Int × List Int × Bool :=
  let (toUpdate, toRemove, prevCovered) := acc
  let needsCover := needsCover lsnEnd node.2
  if needsCover then
    if prevCovered then (toUpdate, toRemove ++ [node.1], needsCover)
    else (toUpdate ++ [node.1], toRemove, needsCover)
  else (toUpdate, toRemove, needsCover)

/-- `LayerCoverage::insert`: lay the layer `key × lsn` with the given value over the
coverage. -/
def insert (self : LayerCoverage V) (key : Range Int) (lsn : Range Nat) (value : V) :
    LayerCoverage V :=
  -- the end points are pinned before any node changes, so that only the coverage
  -- inside the key range can move
  let self := (self.addNode key.start).addNode key.end
  let (toUpdate, toRemove, _) :=
    (self.nodes.range key.start key.end).foldl (sweepStep lsn.end) ([], [], false)
  let nodes := toUpdate.foldl (fun m k => m.insert k (some (lsn.end, value))) self.nodes
  let nodes := toRemove.foldl (fun m k => m.erase k) nodes
  ⟨nodes⟩

/-- `LayerCoverage::query`: the value of the latest layer (by `lsn.end`) at a key. -/
def query (self : LayerCoverage V) (key : Int) : Option V :=
  (self.nodes.floor key).bind fun (_, node) => node.map (·.2)

/-- `LayerCoverage::range`: the coverage changes in a key range, with their values. -/
def range (self : LayerCoverage V) (key : Range Int) : List (Int × Option V) :=
  (self.nodes.range key.start key.end).map fun (k, v) => (k, v.map (·.2))

/-! ## The coverage as a step function -/

/-- The coverage in force at a key: the `lsn.end` and value of its node, read as a step
function of the node list. -/
def coverAt (self : LayerCoverage V) (x : Int) : Option (Nat × V) :=
  lastValLE x none self.nodes.entries

/-- The pointwise effect of laying a layer over a coverage. -/
def raise (c : Int → Option (Nat × V)) (key : Range Int) (lsnEnd : Nat) (value : V) :
    Int → Option (Nat × V) :=
  fun x => if key.start ≤ x ∧ x < key.end ∧ needsCover lsnEnd (c x) = true then
    some (lsnEnd, value) else c x

theorem query_eq (self : LayerCoverage V) (x : Int) :
    self.query x = (self.coverAt x).map (·.2) := by
  rw [coverAt, ← floor_map_getD, query]
  cases self.nodes.floor x with
  | none => rfl
  | some e => rfl

theorem addNode_coverAt (self : LayerCoverage V) (key x : Int) :
    (self.addNode key).coverAt x = self.coverAt x := by
  have hval : (match self.nodes.floor key with
      | some (_, some v) => some v
      | some (_, none) => none
      | none => none) = lastValLE key none self.nodes.entries := by
    rw [← floor_map_getD]
    rcases self.nodes.floor key with _ | ⟨_, _ | _⟩ <;> rfl
  simp only [addNode, coverAt, hval, insert_entries]
  exact lastValLE_insertList_self x key none self.nodes.sorted

theorem mem_keys_addNode (self : LayerCoverage V) (key : Int) :
    key ∈ (self.addNode key).nodes.keys :=
  mem_keys_insert _ _ _

theorem keys_subset_addNode (self : LayerCoverage V) (key : Int) :
    ∀ k ∈ self.nodes.keys, k ∈ (self.addNode key).nodes.keys :=
  keys_subset_insert _ _ _

/-! ## The sweep of `insert` -/

/-- The nodes of the key range as the sweep of `insert` leaves them: a node that needs
cover is raised to the new layer, or dropped when the node before it needed cover too. -/
def sweep (lsnEnd : Nat) (value : V) :
    Bool → List (Int × Option (Nat × V)) → List (Int × Option (Nat × V))
  | _, [] => []
  | prev, (k, node) :: rest =>
    if needsCover lsnEnd node then
      if prev then sweep lsnEnd value true rest
      else (k, some (lsnEnd, value)) :: sweep lsnEnd value true rest
    else (k, node) :: sweep lsnEnd value false rest

/-- The coverage a key shows after the new layer is laid over the coverage `w` it had. -/
def raised (lsnEnd : Nat) (value : V) (w : Option (Nat × V)) : Option (Nat × V) :=
  if needsCover lsnEnd w then some (lsnEnd, value) else w

theorem mem_sweep {lsnEnd : Nat} {value : V} {prev : Bool} {R : List (Int × Option (Nat × V))}
    {e : Int × Option (Nat × V)} (h : e ∈ sweep lsnEnd value prev R) :
    e.1 ∈ R.map Prod.fst := by
  induction R generalizing prev with
  | nil => simp [sweep] at h
  | cons n rest ih =>
    obtain ⟨k, node⟩ := n
    simp only [sweep] at h
    split at h
    · split at h
      · exact List.mem_cons_of_mem _ (ih h)
      · rcases List.mem_cons.mp h with rfl | h
        · simp
        · exact List.mem_cons_of_mem _ (ih h)
    · rcases List.mem_cons.mp h with rfl | h
      · simp
      · exact List.mem_cons_of_mem _ (ih h)

/-- What holds of every key of the range holds of every key of its sweep. -/
theorem forall_sweep {lsnEnd : Nat} {value : V} {prev : Bool} {R : List (Int × Option (Nat × V))}
    {p : Int → Prop} (hR : ∀ e ∈ R, p e.1) : ∀ e ∈ sweep lsnEnd value prev R, p e.1 := by
  intro e he
  obtain ⟨a, ha, hae⟩ := List.mem_map.mp (mem_sweep he)
  exact hae ▸ hR a ha

theorem sweepStep_eq (lsnEnd : Nat) (U D : List Int) (prev : Bool) (k : Int)
    (node : Option (Nat × V)) :
    sweepStep lsnEnd (U, D, prev) (k, node) =
      if needsCover lsnEnd node then
        (if prev then (U, D ++ [k], true) else (U ++ [k], D, true))
      else (U, D, false) := by
  cases hnc : needsCover lsnEnd node <;> simp [sweepStep, hnc]

/-- The sweep collects only keys of the nodes it visits. -/
theorem foldl_sweepStep_subset (lsnEnd : Nat) (R : List (Int × Option (Nat × V)))
    (U₀ D₀ : List Int) (prev : Bool) :
    let r := R.foldl (sweepStep lsnEnd) (U₀, D₀, prev)
    (∀ k ∈ r.1, k ∈ U₀ ∨ k ∈ R.map Prod.fst) ∧ (∀ k ∈ r.2.1, k ∈ D₀ ∨ k ∈ R.map Prod.fst) := by
  induction R generalizing U₀ D₀ prev with
  | nil => exact ⟨fun k hk => Or.inl hk, fun k hk => Or.inl hk⟩
  | cons n rest ih =>
    obtain ⟨k, node⟩ := n
    have step : ∀ U D p, (∀ k' ∈ U, k' ∈ U₀ ∨ k' = k) → (∀ k' ∈ D, k' ∈ D₀ ∨ k' = k) →
        let r := rest.foldl (sweepStep lsnEnd) (U, D, p)
        (∀ k' ∈ r.1, k' ∈ U₀ ∨ k' ∈ ((k, node) :: rest).map Prod.fst) ∧
          (∀ k' ∈ r.2.1, k' ∈ D₀ ∨ k' ∈ ((k, node) :: rest).map Prod.fst) := by
      intro U D p hU hD
      obtain ⟨h1, h2⟩ := ih U D p
      refine ⟨fun k' hk' => ?_, fun k' hk' => ?_⟩
      · rcases h1 k' hk' with h | h
        · rcases hU k' h with h | rfl <;> simp [h]
        · simp [h]
      · rcases h2 k' hk' with h | h
        · rcases hD k' h with h | rfl <;> simp [h]
        · simp [h]
    simp only [List.foldl_cons, sweepStep_eq]
    cases needsCover lsnEnd node <;> cases prev
    · exact step U₀ D₀ false (fun k' h => Or.inl h) (fun k' h => Or.inl h)
    · exact step U₀ D₀ false (fun k' h => Or.inl h) (fun k' h => Or.inl h)
    · exact step (U₀ ++ [k]) D₀ true (fun k' h => by simpa using h) (fun k' h => Or.inl h)
    · exact step U₀ (D₀ ++ [k]) true (fun k' h => Or.inl h) (fun k' h => by simpa using h)

/-- From an empty start, what holds of every key of the range holds of every key collected. -/
theorem foldl_sweepStep_forall (lsnEnd : Nat) {R : List (Int × Option (Nat × V))}
    {p : Int → Prop} (hR : ∀ e ∈ R, p e.1) :
    (∀ k ∈ (R.foldl (sweepStep lsnEnd) ([], [], false)).1, p k) ∧
      ∀ k ∈ (R.foldl (sweepStep lsnEnd) ([], [], false)).2.1, p k := by
  have hkeys := foldl_sweepStep_subset lsnEnd R [] [] false
  have hmem : ∀ k, k ∈ ([] : List Int) ∨ k ∈ R.map Prod.fst → p k := by
    rintro k (h | h)
    · cases h
    · obtain ⟨e, he, rfl⟩ := List.mem_map.mp h
      exact hR e he
  exact ⟨fun k hk => hmem k (hkeys.1 k hk), fun k hk => hmem k (hkeys.2 k hk)⟩

/-- The sweep never forgets a key it has collected. -/
theorem subset_foldl_sweepStep (lsnEnd : Nat) (R : List (Int × Option (Nat × V)))
    (U₀ D₀ : List Int) (prev : Bool) :
    let r := R.foldl (sweepStep lsnEnd) (U₀, D₀, prev)
    (∀ k ∈ U₀, k ∈ r.1) ∧ (∀ k ∈ D₀, k ∈ r.2.1) := by
  induction R generalizing U₀ D₀ prev with
  | nil => exact ⟨fun k hk => hk, fun k hk => hk⟩
  | cons n rest ih =>
    obtain ⟨k, node⟩ := n
    simp only [List.foldl_cons, sweepStep_eq]
    cases needsCover lsnEnd node <;> cases prev
    · exact ih U₀ D₀ false
    · exact ih U₀ D₀ false
    · obtain ⟨h1, h2⟩ := ih (U₀ ++ [k]) D₀ true
      exact ⟨fun k' hk' => h1 k' (List.mem_append_left _ hk'), h2⟩
    · obtain ⟨h1, h2⟩ := ih U₀ (D₀ ++ [k]) true
      exact ⟨h1, fun k' hk' => h2 k' (List.mem_append_left _ hk')⟩

/-- Raising the collected keys and then removing the collected ones leaves the nodes of
the range exactly as `sweep` describes. -/
theorem sweep_eq_foldl (lsnEnd : Nat) (value : V) (R : List (Int × Option (Nat × V)))
    (hR : R.Pairwise (fun a b => a.1 < b.1)) (U₀ D₀ : List Int) (prev : Bool)
    (hU : ∀ k ∈ R.map Prod.fst, k ∉ U₀) (hD : ∀ k ∈ R.map Prod.fst, k ∉ D₀) :
    let r := R.foldl (sweepStep lsnEnd) (U₀, D₀, prev)
    (R.map fun e => if e.1 ∈ r.1 then (e.1, some (lsnEnd, value)) else e).filter
      (fun e => e.1 ∉ r.2.1) = sweep lsnEnd value prev R := by
  induction R generalizing U₀ D₀ prev with
  | nil => rfl
  | cons n rest ih =>
    obtain ⟨k, node⟩ := n
    rw [List.pairwise_cons] at hR
    have hk : k ∉ rest.map Prod.fst := fun h => by
      obtain ⟨a, ha, hak⟩ := List.mem_map.mp h
      exact lt_irrefl k (hak ▸ hR.1 a ha)
    have hkU : k ∉ U₀ := hU k (by simp)
    have hkD : k ∉ D₀ := hD k (by simp)
    -- the head's key is collected by its own step or not at all
    have hkeep : ∀ U D p, let r := rest.foldl (sweepStep lsnEnd) (U, D, p)
        (k ∈ r.1 ↔ k ∈ U) ∧ (k ∈ r.2.1 ↔ k ∈ D) := by
      intro U D p
      obtain ⟨h1, h2⟩ := foldl_sweepStep_subset lsnEnd rest U D p
      obtain ⟨h3, h4⟩ := subset_foldl_sweepStep lsnEnd rest U D p
      exact ⟨⟨fun h => (h1 k h).resolve_right hk, h3 k⟩,
        ⟨fun h => (h2 k h).resolve_right hk, h4 k⟩⟩
    have hrest : ∀ (U D : List Int), (∀ k' ∈ rest.map Prod.fst, k' ∉ U) →
        (∀ k' ∈ rest.map Prod.fst, k' ∉ D) → ∀ p,
        (rest.map fun e => if e.1 ∈ (rest.foldl (sweepStep lsnEnd) (U, D, p)).1 then
          (e.1, some (lsnEnd, value)) else e).filter
          (fun e => e.1 ∉ (rest.foldl (sweepStep lsnEnd) (U, D, p)).2.1) =
          sweep lsnEnd value p rest :=
      fun U D hU' hD' p => ih hR.2 U D p hU' hD'
    have hfresh : ∀ (W : List Int), (∀ k' ∈ ((k, node) :: rest).map Prod.fst, k' ∉ W) →
        ∀ k' ∈ rest.map Prod.fst, k' ∉ W ++ [k] := by
      intro W hW k' hk'
      simp only [List.mem_append, List.mem_singleton, not_or]
      exact ⟨hW k' (List.mem_cons_of_mem _ hk'), fun e => hk (e ▸ hk')⟩
    have hsub : ∀ (W : List Int), (∀ k' ∈ ((k, node) :: rest).map Prod.fst, k' ∉ W) →
        ∀ k' ∈ rest.map Prod.fst, k' ∉ W := fun W hW k' hk' => hW k' (List.mem_cons_of_mem _ hk')
    simp only [List.foldl_cons, sweepStep_eq, List.map_cons, List.filter_cons, sweep]
    cases hnc : needsCover lsnEnd node <;> cases prev
    · obtain ⟨hu, hd⟩ := hkeep U₀ D₀ false
      simp only [hu, hkU, hd, hkD, ↓reduceIte, not_false_eq_true, decide_true,
        Bool.false_eq_true]
      rw [hrest U₀ D₀ (hsub U₀ hU) (hsub D₀ hD)]
    · obtain ⟨hu, hd⟩ := hkeep U₀ D₀ false
      simp only [hu, hkU, hd, hkD, ↓reduceIte, not_false_eq_true, decide_true,
        Bool.false_eq_true]
      rw [hrest U₀ D₀ (hsub U₀ hU) (hsub D₀ hD)]
    · -- the node is raised
      obtain ⟨hu, hd⟩ := hkeep (U₀ ++ [k]) D₀ true
      have hkU' : k ∈ (rest.foldl (sweepStep lsnEnd) (U₀ ++ [k], D₀, true)).1 :=
        hu.mpr (by simp)
      simp only [hkU', hd, hkD, ↓reduceIte, not_false_eq_true, decide_true, Bool.false_eq_true]
      rw [hrest (U₀ ++ [k]) D₀ (hfresh U₀ hU) (hsub D₀ hD)]
    · -- the node is removed
      obtain ⟨hu, hd⟩ := hkeep U₀ (D₀ ++ [k]) true
      have hkD' : k ∈ (rest.foldl (sweepStep lsnEnd) (U₀, D₀ ++ [k], true)).2.1 :=
        hd.mpr (by simp)
      simp only [hu, hkU, hkD', ↓reduceIte, not_true_eq_false, decide_false,
        Bool.false_eq_true]
      exact hrest U₀ (D₀ ++ [k]) (hsub U₀ hU) (hfresh D₀ hD) true

/-- Past the first node of the range, the sweep shows at every key the raised coverage,
provided the value in force before the remaining nodes is already the raised one and
`prev` records whether the node in force needed cover. -/
theorem lastValLE_sweep (lsnEnd : Nat) (value : V) (x : Int)
    (R : List (Int × Option (Nat × V))) (hR : R.Pairwise (fun a b => a.1 < b.1))
    (prev : Bool) (o i : Option (Nat × V)) (ho : o = raised lsnEnd value i)
    (hprev : prev = needsCover lsnEnd i) :
    lastValLE x o (sweep lsnEnd value prev R) = raised lsnEnd value (lastValLE x i R) := by
  induction R generalizing prev o i with
  | nil => exact ho
  | cons n rest ih =>
    obtain ⟨k, node⟩ := n
    rw [List.pairwise_cons] at hR
    by_cases hkx : k ≤ x
    · rw [lastValLE_cons_of_le hkx]
      have hraise : ∀ w, needsCover lsnEnd w = true → raised lsnEnd value w = some (lsnEnd, value) :=
        fun w hw => by simp [raised, hw]
      cases hnc : needsCover lsnEnd node <;> cases prev <;>
        simp only [sweep, hnc, Bool.false_eq_true, ↓reduceIte]
      · rw [lastValLE_cons_of_le hkx]
        exact ih hR.2 false node node (by simp [raised, hnc]) hnc.symm
      · rw [lastValLE_cons_of_le hkx]
        exact ih hR.2 false node node (by simp [raised, hnc]) hnc.symm
      · rw [lastValLE_cons_of_le hkx]
        exact ih hR.2 true _ node (hraise node hnc).symm hnc.symm
      · -- the node is dropped: the raised node before it already covers it
        have ho' : o = some (lsnEnd, value) := ho.trans (hraise i hprev.symm)
        exact ih hR.2 true o node (ho'.trans (hraise node hnc).symm) hnc.symm
    · -- the node and every later one lie above `x`
      have hgt : ∀ a ∈ (k, node) :: rest, x < a.1 := fun a ha => by
        rcases List.mem_cons.mp ha with rfl | ha
        · exact not_le.mp hkx
        · exact lt_trans (not_le.mp hkx) (hR.1 a ha)
      rw [lastValLE_of_forall_lt hgt, lastValLE_of_forall_lt (forall_sweep hgt)]
      exact ho

/-- A sweep that starts at a node at or below `x` shows the raised coverage at `x`,
whatever was in force before it. -/
theorem lastValLE_sweep_start (lsnEnd : Nat) (value : V) (x : Int) (k : Int)
    (node : Option (Nat × V)) (rest : List (Int × Option (Nat × V)))
    (hR : ((k, node) :: rest).Pairwise (fun a b => a.1 < b.1)) (hkx : k ≤ x)
    (o i : Option (Nat × V)) :
    lastValLE x o (sweep lsnEnd value false ((k, node) :: rest)) =
      raised lsnEnd value (lastValLE x i ((k, node) :: rest)) := by
  rw [List.pairwise_cons] at hR
  rw [lastValLE_cons_of_le hkx]
  cases hnc : needsCover lsnEnd node <;>
    simp only [sweep, hnc, Bool.false_eq_true, ↓reduceIte] <;> rw [lastValLE_cons_of_le hkx]
  · exact lastValLE_sweep lsnEnd value x rest hR.2 false node node (by simp [raised, hnc])
      hnc.symm
  · exact lastValLE_sweep lsnEnd value x rest hR.2 true _ node (by simp [raised, hnc]) hnc.symm

/-! ## `insert` raises the coverage pointwise -/

/-- The nodes after `insert`: the nodes of the pinned coverage with the collected keys
raised, then the removed ones dropped. -/
theorem insert_entries_eq (self : LayerCoverage V) (key : Range Int) (lsn : Range Nat)
    (value : V) :
    let c := (self.addNode key.start).addNode key.end
    let r := (c.nodes.range key.start key.end).foldl (sweepStep lsn.end) ([], [], false)
    (self.insert key lsn value).nodes.entries =
      (c.nodes.entries.map fun e => if e.1 ∈ r.1 then (e.1, some (lsn.end, value)) else e).filter
        (fun e => e.1 ∉ r.2.1) := by
  intro c r
  have hU : ∀ k ∈ r.1, k ∈ c.nodes.keys :=
    (foldl_sweepStep_forall lsn.end (p := (· ∈ c.nodes.keys))
      fun e he => List.mem_map_of_mem (List.mem_of_mem_filter he)).1
  rcases hr : r with ⟨U, D, p⟩
  rw [hr] at hU
  simp only [insert]
  rw [show (c.nodes.range key.start key.end).foldl (sweepStep lsn.end) ([], [], false) =
    (U, D, p) from hr]
  rw [foldl_erase_entries, foldl_insert_entries _ _ _ hU]

/-- Nodes whose keys were neither collected nor removed pass through `insert` unchanged. -/
theorem map_filter_eq_self {U D : List Int} (n : Option (Nat × V))
    {l : List (Int × Option (Nat × V))} (hl : ∀ e ∈ l, e.1 ∉ U ∧ e.1 ∉ D) :
    (l.map fun e => if e.1 ∈ U then (e.1, n) else e).filter (fun e => e.1 ∉ D) = l := by
  rw [List.filter_eq_self.mpr (fun e he => by
    obtain ⟨a, ha, rfl⟩ := List.mem_map.mp he
    simp [(hl a ha).1, (hl a ha).2])]
  conv_rhs => rw [← List.map_id l]
  exact List.map_congr_left (fun e he => by simp [(hl e he).1])

/-- `insert` lays the layer over the coverage pointwise (`raise`). -/
theorem coverAt_insert (self : LayerCoverage V) (key : Range Int) (lsn : Range Nat)
    (value : V) (x : Int) :
    (self.insert key lsn value).coverAt x = raise self.coverAt key lsn.end value x := by
  set c := (self.addNode key.start).addNode key.end with hc
  have hcov : c.coverAt x = self.coverAt x := by
    rw [hc, addNode_coverAt, addNode_coverAt]
  set L := c.nodes.entries with hLdef
  have hL : L.Pairwise (fun a b => a.1 < b.1) := c.nodes.sorted
  have hs : key.start ∈ L.map Prod.fst :=
    keys_subset_addNode _ _ _ (mem_keys_addNode _ _)
  have he : key.end ∈ L.map Prod.fst := mem_keys_addNode _ _
  set R := c.nodes.range key.start key.end with hRdef
  set r := R.foldl (sweepStep lsn.end) ([], [], false) with hr
  have hRin : ∀ e ∈ R, key.start ≤ e.1 ∧ e.1 < key.end := fun e h => by
    simpa using (List.mem_filter.mp h).2
  -- the collected keys are keys of the range
  obtain ⟨hUR, hDR⟩ :=
    foldl_sweepStep_forall lsn.end (p := fun k => key.start ≤ k ∧ k < key.end) hRin
  have hentries := insert_entries_eq self key lsn value
  simp only [← hc, ← hLdef, ← hRdef, ← hr] at hentries
  rw [coverAt, hentries, raise, ← hcov, coverAt, ← hLdef]
  by_cases hse : key.start < key.end
  · -- the pinned nodes split into those below, inside and above the key range
    set P := L.filter (fun e => e.1 < key.start)
    set S := L.filter (fun e => key.end ≤ e.1)
    have hRL : R = L.filter (fun e => key.start ≤ e.1 ∧ e.1 < key.end) := rfl
    have hdec : L = P ++ R ++ S := (filter_three_way hL hse).symm
    have hPS : ∀ e ∈ P ++ S, e.1 ∉ r.1 ∧ e.1 ∉ r.2.1 := by
      intro e hmem
      have hout : e.1 < key.start ∨ key.end ≤ e.1 := by
        rcases List.mem_append.mp hmem with h | h
        · exact Or.inl (by simpa using (List.mem_filter.mp h).2)
        · exact Or.inr (by simpa using (List.mem_filter.mp h).2)
      refine ⟨fun h => ?_, fun h => ?_⟩
      · have := hUR _ h; rcases hout with h' | h' <;> omega
      · have := hDR _ h; rcases hout with h' | h' <;> omega
    have hsweep := sweep_eq_foldl lsn.end value R (hL.filter _) [] [] false
      (fun _ _ => List.not_mem_nil) (fun _ _ => List.not_mem_nil)
    simp only [← hr] at hsweep
    rw [hdec, List.map_append, List.map_append, List.filter_append, List.filter_append,
      map_filter_eq_self _ (fun e h => hPS e (List.mem_append_left _ h)),
      map_filter_eq_self _ (fun e h => hPS e (List.mem_append_right _ h)), hsweep]
    have hSgt : ∀ e ∈ S, key.end ≤ e.1 := fun e h => by simpa using (List.mem_filter.mp h).2
    have hPlt : ∀ e ∈ P, e.1 < key.start := fun e h => by simpa using (List.mem_filter.mp h).2
    rcases lt_or_ge x key.start with hx | hx
    · -- below the range nothing moves
      have hgt : ∀ e ∈ R ++ S, x < e.1 := fun e h => by
        rcases List.mem_append.mp h with h | h
        · exact lt_of_lt_of_le hx (hRin e h).1
        · exact lt_of_lt_of_le (lt_trans hx hse) (hSgt e h)
      have hgt' : ∀ e ∈ sweep lsn.end value false R ++ S, x < e.1 := fun e h => by
        rcases List.mem_append.mp h with h | h
        · exact forall_sweep (fun a ha => hgt a (List.mem_append_left _ ha)) e h
        · exact hgt e (List.mem_append_right _ h)
      rw [List.append_assoc, lastValLE_append_of_forall_lt hgt', List.append_assoc,
        lastValLE_append_of_forall_lt hgt]
      rw [if_neg (fun h => absurd h.1 (not_le.mpr hx))]
    rcases lt_or_ge x key.end with hx' | hx'
    · -- inside the range the sweep raises the coverage
      have hSgt' : ∀ e ∈ S, x < e.1 := fun e h => lt_of_lt_of_le hx' (hSgt e h)
      have hsR : key.start ∈ R.map Prod.fst := by
        obtain ⟨e, heL, hek⟩ := List.mem_map.mp hs
        exact List.mem_map.mpr ⟨e, List.mem_filter.mpr ⟨heL, by simp [hek, hse]⟩, hek⟩
      have hRsorted : R.Pairwise (fun a b => a.1 < b.1) := hL.filter _
      obtain ⟨⟨k, node⟩, t, hRt, hk⟩ := exists_head_le hRsorted hsR
      rw [lastValLE_append_of_forall_lt hSgt', lastValLE_append_of_forall_lt hSgt',
        lastValLE_append, lastValLE_append, hRt,
        lastValLE_sweep_start lsn.end value x k node t (hRt ▸ hRsorted) (le_trans hk hx)
          _ (lastValLE x none P)]
      simp only [raised]
      by_cases hnc : needsCover lsn.end (lastValLE x (lastValLE x none P) ((k, node) :: t)) = true
      · rw [if_pos hnc, if_pos ⟨hx, hx', hnc⟩]
      · rw [if_neg hnc, if_neg (fun h => hnc h.2.2)]
    · -- above the range the pinned node at the end hides the sweep
      have heS : key.end ∈ S.map Prod.fst := by
        obtain ⟨e, heL, hek⟩ := List.mem_map.mp he
        exact List.mem_map.mpr ⟨e, List.mem_filter.mpr ⟨heL, by simp [hek]⟩, hek⟩
      have hSsorted : S.Pairwise (fun a b => a.1 < b.1) := hL.filter _
      obtain ⟨h, t, hSt, hh⟩ := exists_head_le hSsorted heS
      rw [hSt, lastValLE_append x none (P ++ sweep lsn.end value false R) (h :: t),
        lastValLE_append x none (P ++ R) (h :: t), lastValLE_cons_of_le (le_trans hh hx'),
        lastValLE_cons_of_le (le_trans hh hx'), if_neg (fun h => absurd h.2.1 (not_lt.mpr hx'))]
  · -- an empty key range collects nothing
    have hRnil : R = [] := List.filter_eq_nil_iff.mpr (fun e _ => by
      simp only [decide_eq_true_eq, not_and, not_lt]
      intro h
      exact le_trans (not_lt.mp hse) h)
    have hr0 : r = ([], [], false) := by rw [hr, hRnil]; rfl
    simp only [hr0, List.not_mem_nil, ↓reduceIte, not_false_eq_true, decide_true, List.map_id',
      List.filter_true]
    rw [if_neg (fun h => hse (lt_of_le_of_lt h.1 h.2.1))]

/-! ## Changes over a key range -/

/-- `LayerCoverage::range_overlaps`: the coverage changes of the layers that meet a key range.
When a layer covers the start of the range, the list starts with it there. -/
def rangeOverlaps [DecidableEq V] (self : LayerCoverage V) (keyRange : Range Int) :
    List (Int × Option V) :=
  match self.query keyRange.start with
  | some change =>
    -- a first change that repeats the layer at the start is skipped
    let rangeCoverage := match self.range keyRange with
      | c :: rest => if c.2 = some change then rest else c :: rest
      | [] => []
    (keyRange.start, some change) :: rangeCoverage
  | none => self.range keyRange

theorem range_sorted (self : LayerCoverage V) (keyRange : Range Int) :
    (self.range keyRange).Pairwise (fun a b => a.1 < b.1) :=
  List.pairwise_map.2 (self.nodes.sorted.filter _)

theorem mem_range {self : LayerCoverage V} {keyRange : Range Int} {c : Int × Option V}
    (hc : c ∈ self.range keyRange) : keyRange.start ≤ c.1 ∧ c.1 < keyRange.end := by
  obtain ⟨e, he, rfl⟩ := List.mem_map.1 hc
  simpa using (List.mem_filter.1 he).2

/-- A change of a range shows the coverage at its own key. -/
theorem query_of_mem_range {self : LayerCoverage V} {keyRange : Range Int} {c : Int × Option V}
    (hc : c ∈ self.range keyRange) : self.query c.1 = c.2 := by
  obtain ⟨e, he, rfl⟩ := List.mem_map.1 hc
  rw [query_eq, coverAt, lastValLE_of_mem self.nodes.sorted (List.mem_of_mem_filter he)]

/-- Inside a key range, the coverage is the step function of its changes, started from the
coverage at the start of the range. -/
theorem query_eq_lastValLE_range (self : LayerCoverage V) {keyRange : Range Int}
    (hr : keyRange.start < keyRange.end) {k : Int} (hk₁ : keyRange.start ≤ k)
    (hk₂ : k < keyRange.end) :
    self.query k = lastValLE k (self.query keyRange.start) (self.range keyRange) := by
  set s := keyRange.start
  set below := self.nodes.entries.filter fun e => e.1 < s
  set mid := self.nodes.entries.filter fun e => s ≤ e.1 ∧ e.1 < keyRange.end
  have hsplit := filter_three_way self.nodes.sorted hr
  have habove : ∀ x < keyRange.end, ∀ e ∈ self.nodes.entries.filter (fun e => keyRange.end ≤ e.1),
      x < e.1 := fun x hx e he => lt_of_lt_of_le hx (by simpa using (List.mem_filter.1 he).2)
  -- the coverage at any key of the range, from the value just below its start
  have hat : ∀ x, s ≤ x → x < keyRange.end →
      self.coverAt x = lastValLE x (lastValLE s none below) mid := by
    intro x hsx hx
    have hlt : ∀ e ∈ below, e.1 < s := fun e he => by simpa using (List.mem_filter.1 he).2
    have hbelow : lastValLE x none below = lastValLE s none below :=
      lastValLE_eq_of_forall_le (fun e he => (hlt e he).le.trans hsx) (fun e he => (hlt e he).le)
        none
    rw [coverAt, ← hsplit, lastValLE_append_of_forall_lt (habove x hx), lastValLE_append, hbelow]
  have hrange : self.range keyRange = mid.map fun e => (e.1, e.2.map (·.2)) := rfl
  have hsorted := self.range_sorted keyRange
  have hge : ∀ c ∈ self.range keyRange, s ≤ c.1 := fun c hc => (mem_range hc).1
  rw [hrange] at hsorted hge
  -- both sides read through the map of the node values to the layer values
  rw [query_eq, query_eq, hat k hk₁ hk₂, hat s le_rfl hr, hrange,
    ← lastValLE_map (Option.map fun x : ℕ × V => x.2) k (lastValLE s none below) mid,
    ← lastValLE_map (Option.map fun x : ℕ × V => x.2) s (lastValLE s none below) mid]
  exact lastValLE_of_le_start hsorted hge hk₁ _

/-- Over a non-empty key range, the changes that `range_overlaps` returns, read as a step
function from the start of the range, give the coverage at every key of the range.  Their keys
increase strictly and lie in the range, and the first is the start of the range whenever a layer
covers it. -/
theorem rangeOverlaps_step_function [DecidableEq V] (self : LayerCoverage V)
    (keyRange : Range Int) (hr : keyRange.start < keyRange.end) :
    (∀ k, keyRange.start ≤ k → k < keyRange.end →
      lastValLE k none (self.rangeOverlaps keyRange) = self.query k) ∧
    (self.rangeOverlaps keyRange).Pairwise (fun a b => a.1 < b.1) ∧
    (∀ c ∈ self.rangeOverlaps keyRange, keyRange.start ≤ c.1 ∧ c.1 < keyRange.end) ∧
    ((self.query keyRange.start).isSome →
      (self.rangeOverlaps keyRange).head?.map Prod.fst = some keyRange.start) := by
  have hsorted := self.range_sorted keyRange
  have hin : ∀ c ∈ self.range keyRange, keyRange.start ≤ c.1 ∧ c.1 < keyRange.end :=
    fun c hc => mem_range hc
  have hstep : ∀ k, keyRange.start ≤ k → k < keyRange.end →
      self.query k = lastValLE k (self.query keyRange.start) (self.range keyRange) :=
    fun k hk₁ hk₂ => query_eq_lastValLE_range self hr hk₁ hk₂
  cases hq : self.query keyRange.start with
  | none =>
    have hro : self.rangeOverlaps keyRange = self.range keyRange := by
      simp [rangeOverlaps, hq]
    rw [hro]
    refine ⟨fun k hk₁ hk₂ => ?_, hsorted, hin, fun h => absurd h (by simp)⟩
    rw [hstep k hk₁ hk₂, hq]
  | some change =>
    rw [hq] at hstep
    -- what follows the start: the changes of the range, less a first one that repeats it
    obtain ⟨rest, hro, hval, hgt, hsorted', hin'⟩ : ∃ rest,
        self.rangeOverlaps keyRange = (keyRange.start, some change) :: rest ∧
        (∀ k, keyRange.start ≤ k → k < keyRange.end →
          lastValLE k (some change) rest = self.query k) ∧
        (∀ c ∈ rest, keyRange.start < c.1) ∧ rest.Pairwise (fun a b => a.1 < b.1) ∧
        (∀ c ∈ rest, keyRange.start ≤ c.1 ∧ c.1 < keyRange.end) := by
      cases hM : self.range keyRange with
      | nil =>
        refine ⟨[], by simp [rangeOverlaps, hq, hM], fun k hk₁ hk₂ => ?_, by simp, by simp,
          by simp⟩
        rw [hstep k hk₁ hk₂, hM]
      | cons c M =>
        rw [hM] at hsorted hin hstep
        have hcM := List.pairwise_cons.1 hsorted
        by_cases hc : c.2 = some change
        · refine ⟨M, by simp [rangeOverlaps, hq, hM, hc], fun k hk₁ hk₂ => ?_,
            fun c' hc' => lt_of_le_of_lt (hin c List.mem_cons_self).1 (hcM.1 c' hc'), hcM.2,
            fun c' hc' => hin c' (List.mem_cons_of_mem _ hc')⟩
          rw [hstep k hk₁ hk₂, ← hc, lastValLE_cons_self]
        · -- a change at the start would carry the start's own layer, so this one comes later
          have hstart : keyRange.start < c.1 := by
            refine lt_of_le_of_ne (hin c List.mem_cons_self).1 fun heq => hc ?_
            have hs := hstep keyRange.start le_rfl hr
            rw [hq, lastValLE_cons_of_le heq.ge,
              lastValLE_of_forall_lt (fun c' hc' => heq ▸ hcM.1 c' hc')] at hs
            exact hs.symm
          refine ⟨c :: M, by simp [rangeOverlaps, hq, hM, hc], fun k hk₁ hk₂ => ?_,
            fun c' hc' => ?_, hsorted, hin⟩
          · rw [hstep k hk₁ hk₂]
          · rcases List.mem_cons.1 hc' with rfl | hc'
            · exact hstart
            · exact hstart.trans (hcM.1 c' hc')
    rw [hro]
    refine ⟨fun k hk₁ hk₂ => ?_, List.pairwise_cons.2 ⟨fun c hc => hgt c hc, hsorted'⟩,
      fun c hc => ?_, fun _ => rfl⟩
    · rw [lastValLE_cons_of_le hk₁]
      exact hval k hk₁ hk₂
    · rcases List.mem_cons.1 hc with rfl | hc
      · exact ⟨le_rfl, hr⟩
      · exact hin' c hc

theorem rangeOverlaps_step_function_two_layers :
    (3 : Int) < 12 ∧
    (∀ k, (3 : Int) ≤ k → k < 12 →
      lastValLE k none (((new.insert ⟨0, 10⟩ ⟨0, 1⟩ (7 : ℕ)).insert ⟨5, 15⟩ ⟨0, 2⟩ 8).rangeOverlaps
        ⟨3, 12⟩) = ((new.insert ⟨0, 10⟩ ⟨0, 1⟩ (7 : ℕ)).insert ⟨5, 15⟩ ⟨0, 2⟩ 8).query k) ∧
    (((new.insert ⟨0, 10⟩ ⟨0, 1⟩ (7 : ℕ)).insert ⟨5, 15⟩ ⟨0, 2⟩ 8).rangeOverlaps
        ⟨3, 12⟩).Pairwise (fun a b => a.1 < b.1) ∧
    (∀ c ∈ ((new.insert ⟨0, 10⟩ ⟨0, 1⟩ (7 : ℕ)).insert ⟨5, 15⟩ ⟨0, 2⟩ 8).rangeOverlaps ⟨3, 12⟩,
      3 ≤ c.1 ∧ c.1 < 12) ∧
    ((((new.insert ⟨0, 10⟩ ⟨0, 1⟩ (7 : ℕ)).insert ⟨5, 15⟩ ⟨0, 2⟩ 8).query 3).isSome →
      (((new.insert ⟨0, 10⟩ ⟨0, 1⟩ (7 : ℕ)).insert ⟨5, 15⟩ ⟨0, 2⟩ 8).rangeOverlaps
        ⟨3, 12⟩).head?.map Prod.fst = some 3) :=
  ⟨by decide, rangeOverlaps_step_function _ ⟨3, 12⟩ (by decide)⟩

/-- An empty key range at a covered key: `range_overlaps` still returns a change at its
start, which lies outside it. -/
theorem rangeOverlaps_empty_range :
    (new.insert ⟨0, 10⟩ ⟨0, 1⟩ (7 : ℕ)).rangeOverlaps ⟨5, 5⟩ = [(5, some 7)] ∧
      ¬((5 : Int) ≤ 5 ∧ (5 : Int) < 5) := by
  decide

end LayerCoverage

end NeonStorage
