import Mathlib
import NeonStorage.Lib.Forest
import NeonStorage.TenantSizeModel.Calculation

/-!
# `calculate` finds the cheapest retention

A *plan* for the tree of a root assigns each of its segments a method: a snapshot here needs the
segment's size and that the segment is not needed or has no parent, the WAL needs a parent that
is restored (by a snapshot or the WAL), and skipping needs the segment not to be needed.  Its
cost is the size of every snapshot and the length of every WAL it keeps (`IsPlan`,
`planCost`).

`calculate_optimal` proves that for every model whose parent links form a forest, whose LSNs do
not fall from parent to child, and whose sizes and WAL lengths add up to less than `2 ^ 64`,
`calculate` returns a result that gives every root with a plan a cheapest plan, with each
segment's `accum_size` the cost of that plan on the segment's subtree, reports the segments of
the other roots as skipped with size `0`, and totals the costs of the cheapest plans.

The proof carries through the recursion of `size_here` the invariant `AltsSpec`: the incremental
alternative of a segment carries a cheapest plan of its subtree when its parent is available,
and the non-incremental one a cheapest plan when it is not, or is absent exactly when there is
no such plan.  Plans of subtrees are described by `PlanFrom`, which says whether the parent of
the top is available; filling in a selected tree writes its plan (`Carries`).
-/

namespace NeonStorage

namespace TenantSizeModel

/-- What a method asks of a segment whose parent is available exactly if `parentAvailable`. -/
def Allowed (seg : Segment) (parentAvailable : Prop) : SegmentMethod → Prop
  | .snapshotHere => seg.size.isSome ∧ (seg.needed = false ∨ seg.parent = none)
  | .wal => parentAvailable
  | .skipped => seg.needed = false

theorem Allowed.congr {seg : Segment} {p q : Prop} (h : p ↔ q) {meth : SegmentMethod} :
    Allowed seg p meth ↔ Allowed seg q meth := by
  cases meth <;> simp [Allowed, h]

theorem Allowed.mono {seg : Segment} {p q : Prop} (h : p → q) {meth : SegmentMethod}
    (hp : Allowed seg p meth) : Allowed seg q meth := by
  cases meth
  · exact hp
  · exact h hp
  · exact hp

/-- The method `calculate` reports for segment `j`. -/
def SizeResult.methodAt (res : SizeResult) (j : ℕ) : SegmentMethod :=
  (res.segments.getD j ⟨.skipped, 0⟩).method

/-- A turn of the loop of `calculate` over the roots, once `size_here` has returned `A root`. -/
def rootStep (A : ℕ → SizeAlternatives) (acc : UInt64 × List SegmentSizeResult) (root : ℕ) :
    UInt64 × List SegmentSizeResult :=
  match (A root).nonIncremental with
  | some selected => (acc.1 + selected.accumSize, StorageModel.fillSelectedSizes selected acc.2)
  | none => acc

/-- What that turn adds to the total. -/
def rootCost (A : ℕ → SizeAlternatives) (root : ℕ) : ℕ :=
  ((A root).nonIncremental.map fun t => t.accumSize.toNat).getD 0

theorem toNat_rootStep {A : ℕ → SizeAlternatives} {acc : UInt64 × List SegmentSizeResult}
    {root : ℕ} (h : acc.1.toNat + rootCost A root < 2 ^ 64) :
    (rootStep A acc root).1.toNat = acc.1.toNat + rootCost A root := by
  unfold rootStep rootCost at *
  cases ht : (A root).nonIncremental with
  | none => rfl
  | some t =>
    simp only [ht, Option.map_some, Option.getD_some] at h ⊢
    rw [UInt64.toNat_add, Nat.mod_eq_of_lt h]

/-- The total of the loop over the roots, when it fits in `u64`. -/
theorem toNat_foldl_rootStep {A : ℕ → SizeAlternatives} :
    ∀ (L : List ℕ) (acc : UInt64 × List SegmentSizeResult),
      acc.1.toNat + (L.map (rootCost A)).sum < 2 ^ 64 →
      (L.foldl (rootStep A) acc).1.toNat = acc.1.toNat + (L.map (rootCost A)).sum
  | [], acc, _ => by simp
  | r :: L, acc, h => by
    simp only [List.map_cons, List.sum_cons] at h ⊢
    have hstep := @toNat_rootStep A acc r (by omega)
    rw [List.foldl_cons, toNat_foldl_rootStep L _ (by rw [hstep]; omega), hstep, Nat.add_assoc]

namespace StorageModel

variable (m : StorageModel)

/-! ## The specification -/

/-- The parent links of the segments form a forest. -/
def IsForest : Prop := Forest.IsForest m.parentOf m.segments.length

/-- No segment has a smaller LSN than its parent. -/
def LsnMonotone : Prop :=
  ∀ j < m.segments.length, ∀ p, m.parentOf j = some p → (m.segAt p).lsn ≤ (m.segAt j).lsn

def IsRoot (r : ℕ) : Prop := r < m.segments.length ∧ m.parentOf r = none

def children (i : ℕ) : List ℕ := Forest.children m.parentOf m.segments.length i

/-- The segments whose parent links lead to `i`, `i` among them. -/
noncomputable def subtree (i : ℕ) : Finset ℕ := Forest.subtree m.parentOf m.segments.length i

/-- The logical size at `j`, none counting as nothing. -/
def snapshotSize (j : ℕ) : ℕ := ((m.segAt j).size.map UInt64.toNat).getD 0

/-- The length of the WAL from the parent of `j` to `j`. -/
def walSize (j : ℕ) : ℕ :=
  match m.parentOf j with
  | some p => (m.segAt j).lsn.toNat - (m.segAt p).lsn.toNat
  | none => 0

/-- The sizes `calculate` adds up fit in `u64`: all the logical sizes and all the WAL between the
segments and their parents, together. -/
def FitsU64 : Prop :=
  ∑ j ∈ Finset.range m.segments.length, (m.snapshotSize j + m.walSize j) < 2 ^ 64

/-- What keeping the history up to `j` by a method costs. -/
def methodCost (j : ℕ) : SegmentMethod → ℕ
  | .snapshotHere => m.snapshotSize j
  | .wal => m.walSize j
  | .skipped => 0

/-- The cost of a plan on the subtree of `i`. -/
noncomputable def planCost (P : ℕ → SegmentMethod) (i : ℕ) : ℕ :=
  ∑ j ∈ m.subtree i, m.methodCost j (P j)

/-- A plan for the tree of the root `r`. -/
def IsPlan (r : ℕ) (P : ℕ → SegmentMethod) : Prop :=
  ∀ j ∈ m.subtree r,
    (P j = .snapshotHere →
      (m.segAt j).size.isSome ∧ ((m.segAt j).needed = false ∨ (m.segAt j).parent = none)) ∧
    (P j = .wal → ∃ p, m.parentOf j = some p ∧ (P p = .snapshotHere ∨ P p = .wal)) ∧
    (P j = .skipped → (m.segAt j).needed = false)

/-- A plan of the subtree of `i` when the parent of `i` is available exactly if `available`;
below `i`, the parent of a segment is available unless it is skipped. -/
def PlanFrom (i : ℕ) (available : Bool) (P : ℕ → SegmentMethod) : Prop :=
  ∀ j ∈ m.subtree i, Allowed (m.segAt j)
    (if j = i then available = true else ∃ p, m.parentOf j = some p ∧ P p ≠ .skipped) (P j)

/-- The plan that is `meth` at `i` and `F c` on the subtree of each child `c` of `i`. -/
noncomputable def glue (i : ℕ) (meth : SegmentMethod) (F : ℕ → ℕ → SegmentMethod) :
    ℕ → SegmentMethod :=
  Forest.glue m.parentOf m.segments.length i meth F

/-- What `fill_selected_sizes` writes for the plan `P` over the segments of `s`: the method of
each and the cost of the plan on its subtree. -/
noncomputable def assign (P : ℕ → SegmentMethod) (s : Finset ℕ) (result : List SegmentSizeResult) :
    List SegmentSizeResult :=
  result.mapIdx fun j r => if j ∈ s then ⟨P j, UInt64.ofNat (m.planCost P j)⟩ else r

/-- The selected tree `t` carries the plan `P` of the subtree of `i`: its size is the cost of
`P`, and filling it in writes `P` over the subtree. -/
structure Carries (t : SegmentSize) (i : ℕ) (P : ℕ → SegmentMethod) : Prop where
  accumSize_toNat : t.accumSize.toNat = m.planCost P i
  fill : ∀ result, fillSelectedSizes t result = m.assign P (m.subtree i) result

/-- `t` carries a cheapest plan of the subtree of `i` with the parent available exactly if
`available`. -/
def Cheapest (i : ℕ) (available : Bool) (t : SegmentSize) : Prop :=
  ∃ P, m.PlanFrom i available P ∧ m.Carries t i P ∧
    ∀ Q, m.PlanFrom i available Q → m.planCost P i ≤ m.planCost Q i

/-- What `size_here` computes for segment `i`: the incremental alternative carries a cheapest
plan with the parent available; the non-incremental one a cheapest plan without it, and it is
absent exactly when there is no such plan. -/
def AltsSpec (i : ℕ) (alts : SizeAlternatives) : Prop :=
  m.Cheapest i true alts.incremental ∧
    match alts.nonIncremental with
    | some t => m.Cheapest i false t
    | none => ∀ P, ¬ m.PlanFrom i false P

/-- The three alternatives `size_here` builds for segment `i`, as the choice at its end needs
them: each carries a plan, and each costs no more than any plan that uses its method at `i`. -/
structure Candidates (i : ℕ) (here later : Option SegmentSize) (wal : SegmentSize) : Prop where
  here_carries : ∀ x, here = some x → ∃ P, m.PlanFrom i false P ∧ m.Carries x i P
  later_carries : ∀ x, later = some x → ∃ P, m.PlanFrom i false P ∧ m.Carries x i P
  wal_carries : ∃ P, m.PlanFrom i true P ∧ m.Carries wal i P
  here_le : ∀ a Q, m.PlanFrom i a Q → Q i = .snapshotHere →
    ∃ x, here = some x ∧ x.accumSize.toNat ≤ m.planCost Q i
  later_le : ∀ a Q, m.PlanFrom i a Q → Q i = .skipped →
    ∃ x, later = some x ∧ x.accumSize.toNat ≤ m.planCost Q i
  wal_le : ∀ Q, m.PlanFrom i true Q → Q i = .wal → wal.accumSize.toNat ≤ m.planCost Q i

variable {m}

/-! ## Costs -/

theorem methodCost_le (j : ℕ) (meth : SegmentMethod) :
    m.methodCost j meth ≤ m.snapshotSize j + m.walSize j := by
  cases meth <;> simp [methodCost]

theorem planCost_congr {P Q : ℕ → SegmentMethod} {i : ℕ} (h : ∀ j ∈ m.subtree i, P j = Q j) :
    m.planCost P i = m.planCost Q i :=
  Finset.sum_congr rfl fun j hj => by rw [h j hj]

theorem planCost_le (P : ℕ → SegmentMethod) (i : ℕ) :
    m.planCost P i ≤ ∑ j ∈ m.subtree i, (m.snapshotSize j + m.walSize j) :=
  Finset.sum_le_sum fun j _ => methodCost_le j (P j)

/-- No plan costs more than fits in `u64`. -/
theorem planCost_lt (hfit : m.FitsU64) (P : ℕ → SegmentMethod) (i : ℕ) :
    m.planCost P i < 2 ^ 64 := by
  calc m.planCost P i
      ≤ ∑ j ∈ m.subtree i, (m.snapshotSize j + m.walSize j) := planCost_le P i
    _ ≤ ∑ j ∈ Finset.range m.segments.length, (m.snapshotSize j + m.walSize j) :=
        Finset.sum_le_sum_of_subset (Forest.subtree_subset_range i)
    _ < 2 ^ 64 := hfit

/-! ## Plans -/

theorem PlanFrom.top {i : ℕ} {a : Bool} {P : ℕ → SegmentMethod} (h : m.PlanFrom i a P)
    (hi : i < m.segments.length) : Allowed (m.segAt i) (a = true) (P i) := by
  simpa using h i (Forest.self_mem_subtree hi)

theorem PlanFrom.mono {i : ℕ} {P : ℕ → SegmentMethod} (h : m.PlanFrom i false P) :
    m.PlanFrom i true P := by
  intro j hj
  refine Allowed.mono (fun hp => ?_) (h j hj)
  by_cases hji : j = i
  · rw [if_pos hji]
  · rw [if_neg hji] at hp ⊢
    exact hp

/-! ## What filling in writes -/

theorem getElem?_assign (P : ℕ → SegmentMethod) (s : Finset ℕ) (result : List SegmentSizeResult)
    (j : ℕ) :
    (m.assign P s result)[j]? =
      result[j]?.map fun r => if j ∈ s then ⟨P j, UInt64.ofNat (m.planCost P j)⟩ else r :=
  List.getElem?_mapIdx

theorem assign_assign (P : ℕ → SegmentMethod) (s s' : Finset ℕ) (result : List SegmentSizeResult) :
    m.assign P s (m.assign P s' result) = m.assign P (s ∪ s') result := by
  refine List.ext_getElem? fun j => ?_
  simp only [getElem?_assign, Option.map_map]
  cases result[j]? with
  | none => rfl
  | some r => by_cases hs : j ∈ s <;> by_cases hs' : j ∈ s' <;> simp [hs, hs']

theorem set_eq_assign (P : ℕ → SegmentMethod) (i : ℕ) (result : List SegmentSizeResult) :
    result.set i ⟨P i, UInt64.ofNat (m.planCost P i)⟩ = m.assign P {i} result := by
  refine List.ext_getElem? fun j => ?_
  rw [List.getElem?_set, getElem?_assign]
  by_cases hij : i = j
  · subst hij
    by_cases hlt : i < result.length
    · simp [hlt]
    · simp [hlt]
  · simp [hij, Ne.symm hij]

theorem assign_congr {P Q : ℕ → SegmentMethod} {s : Finset ℕ}
    (h : ∀ j ∈ s, P j = Q j ∧ m.planCost P j = m.planCost Q j) (result : List SegmentSizeResult) :
    m.assign P s result = m.assign Q s result := by
  refine List.ext_getElem? fun j => ?_
  simp only [getElem?_assign]
  by_cases hj : j ∈ s
  · obtain ⟨hP, hcost⟩ := h j hj
    simp [hj, hP, hcost]
  · simp [hj]

/-- Filling in trees that carry plans of some subtrees writes, over all of them, any plan that
agrees with each of those plans on its subtree. -/
theorem fillChildren_assign {G : ℕ → SegmentMethod} {F : ℕ → ℕ → SegmentMethod}
    {cs : List ℕ} {ts : List SegmentSize}
    (hts : List.Forall₂ (fun c t => m.Carries t c (F c)) cs ts)
    (hG : ∀ c ∈ cs, ∀ j ∈ m.subtree c, G j = F c j ∧ m.planCost G j = m.planCost (F c) j)
    (A : Finset ℕ) (result : List SegmentSizeResult) :
    fillChildren ts (m.assign G A result) =
      m.assign G (A ∪ cs.toFinset.biUnion m.subtree) result := by
  induction hts generalizing A with
  | nil => simp
  | @cons c t cs ts hct _ ih =>
    rw [fillChildren_cons, hct.fill, ← assign_congr (hG c List.mem_cons_self), assign_assign,
      ih (fun c' hc' => hG c' (List.mem_cons_of_mem c hc'))]
    congr 1
    ext j
    simp only [Finset.mem_union, List.toFinset_cons, Finset.biUnion_insert]
    tauto

theorem map_accumSize_toNat {F : ℕ → ℕ → SegmentMethod} {cs : List ℕ} {ts : List SegmentSize}
    (hts : List.Forall₂ (fun c t => m.Carries t c (F c)) cs ts) :
    ts.map (fun t => t.accumSize.toNat) = cs.map fun c => m.planCost (F c) c := by
  induction hts with
  | nil => rfl
  | cons hct _ ih => rw [List.map_cons, List.map_cons, hct.accumSize_toNat, ih]

/-! ## The alternatives of the children -/

theorem AltsSpec.nonIncremental_some {i : ℕ} {alts : SizeAlternatives} (h : m.AltsSpec i alts)
    {t : SegmentSize} (ht : alts.nonIncremental = some t) : m.Cheapest i false t := by
  have h2 := h.2
  rw [ht] at h2
  exact h2

theorem AltsSpec.nonIncremental_none {i : ℕ} {alts : SizeAlternatives} (h : m.AltsSpec i alts)
    (ht : alts.nonIncremental = none) (P : ℕ → SegmentMethod) : ¬ m.PlanFrom i false P := by
  have h2 := h.2
  rw [ht] at h2
  exact h2 P

theorem AltsSpec.nonIncremental_isSome_iff {i : ℕ} {alts : SizeAlternatives}
    (h : m.AltsSpec i alts) : alts.nonIncremental.isSome ↔ ∃ P, m.PlanFrom i false P := by
  cases ht : alts.nonIncremental with
  | none => simpa using h.nonIncremental_none ht
  | some t =>
    obtain ⟨P, hP, -⟩ := h.nonIncremental_some ht
    exact iff_of_true rfl ⟨P, hP⟩

section Choice

variable (s : ℕ → Prop) {A : ℕ → SizeAlternatives} (hA : ∀ c, s c → m.AltsSpec c (A c))
include hA

/-- The cheapest plans with the parent that the alternatives of the segments of `s` carry, as one
function over all of them. -/
theorem exists_incrementalPlans :
    ∃ FI : ℕ → ℕ → SegmentMethod, ∀ c, s c →
      m.PlanFrom c true (FI c) ∧ m.Carries (A c).incremental c (FI c) ∧
        ∀ Q, m.PlanFrom c true Q → m.planCost (FI c) c ≤ m.planCost Q c := by
  have hex : ∀ c, ∃ P : ℕ → SegmentMethod, s c →
      m.PlanFrom c true P ∧ m.Carries (A c).incremental c P ∧
        ∀ Q, m.PlanFrom c true Q → m.planCost P c ≤ m.planCost Q c := by
    intro c
    by_cases hc : s c
    · obtain ⟨P, hP⟩ := (hA c hc).1
      exact ⟨P, fun _ => hP⟩
    · exact ⟨fun _ => .skipped, fun h => absurd h hc⟩
  choose FI hFI using hex
  exact ⟨FI, hFI⟩

/-- The cheapest plans without the parent that the alternatives of the segments of `s` carry,
where there are any. -/
theorem exists_nonIncrementalPlans :
    ∃ FN : ℕ → ℕ → SegmentMethod, ∀ c, s c → ∀ t, (A c).nonIncremental = some t →
      m.PlanFrom c false (FN c) ∧ m.Carries t c (FN c) ∧
        ∀ Q, m.PlanFrom c false Q → m.planCost (FN c) c ≤ m.planCost Q c := by
  have hex : ∀ c, ∃ P : ℕ → SegmentMethod, s c → ∀ t, (A c).nonIncremental = some t →
      m.PlanFrom c false P ∧ m.Carries t c P ∧
        ∀ Q, m.PlanFrom c false Q → m.planCost P c ≤ m.planCost Q c := by
    intro c
    by_cases hc : s c
    · cases ht : (A c).nonIncremental with
      | none => exact ⟨fun _ => .skipped, fun _ t ht' => by cases ht'⟩
      | some t =>
        obtain ⟨P, hP⟩ := (hA c hc).nonIncremental_some ht
        exact ⟨P, fun _ t' ht' => by cases ht'; exact hP⟩
    · exact ⟨fun _ => .skipped, fun h => absurd h hc⟩
  choose FN hFN using hex
  exact ⟨FN, hFN⟩

end Choice

/-- The plans that the alternatives of the children carry, as two functions over all of them. -/
theorem exists_childPlans {i : ℕ} {A : ℕ → SizeAlternatives}
    (hA : ∀ c ∈ m.children i, m.AltsSpec c (A c)) :
    ∃ FI FN : ℕ → ℕ → SegmentMethod, ∀ c ∈ m.children i,
      (m.PlanFrom c true (FI c) ∧ m.Carries (A c).incremental c (FI c) ∧
        ∀ Q, m.PlanFrom c true Q → m.planCost (FI c) c ≤ m.planCost Q c) ∧
      ∀ t, (A c).nonIncremental = some t →
        m.PlanFrom c false (FN c) ∧ m.Carries t c (FN c) ∧
          ∀ Q, m.PlanFrom c false Q → m.planCost (FN c) c ≤ m.planCost Q c := by
  obtain ⟨FI, hFI⟩ := exists_incrementalPlans (· ∈ m.children i) hA
  obtain ⟨FN, hFN⟩ := exists_nonIncrementalPlans (· ∈ m.children i) hA
  exact ⟨FI, FN, fun c hc => ⟨hFI c hc, hFN c hc⟩⟩

/-- What a root adds to the total: the cost of the plan its selected tree carries, if any. -/
theorem rootCost_eq {A : ℕ → SizeAlternatives} {P : ℕ → SegmentMethod} {r : ℕ}
    (hcar : ∀ t, (A r).nonIncremental = some t → m.Carries t r P) :
    rootCost A r = if (A r).nonIncremental.isSome then m.planCost P r else 0 := by
  unfold rootCost
  cases ht : (A r).nonIncremental with
  | none => rfl
  | some t => simpa using (hcar t ht).accumSize_toNat

/-! ## The choice at the end of `size_here` keeps the invariant -/

/-- From alternatives that carry plans and cost no more than the plans that use their methods,
the choice at the end of `size_here` selects cheapest plans. -/
theorem altsSpec_cheapest {i : ℕ} (hi : i < m.segments.length) {here later : Option SegmentSize}
    {wal : SegmentSize} (h : m.Candidates i here later wal) :
    m.AltsSpec i (cheapest here later wal) := by
  -- a plan without the parent snapshots `i` or skips it
  have hbound : ∀ Q, m.PlanFrom i false Q →
      ∃ x, (here = some x ∨ later = some x) ∧ x.accumSize.toNat ≤ m.planCost Q i := by
    intro Q hQ
    cases hQi : Q i with
    | snapshotHere =>
      obtain ⟨x, hx, hle⟩ := h.here_le false Q hQ hQi
      exact ⟨x, .inl hx, hle⟩
    | wal =>
      have htop := hQ.top hi
      rw [hQi] at htop
      exact absurd htop (by simp [Allowed])
    | skipped =>
      obtain ⟨x, hx, hle⟩ := h.later_le false Q hQ hQi
      exact ⟨x, .inr hx, hle⟩
  -- the choice without the parent is no dearer than either snapshot alternative there is
  have hni_le : ∀ x, (here = some x ∨ later = some x) →
      ∃ t, (cheapest here later wal).nonIncremental = some t ∧
        t.accumSize.toNat ≤ x.accumSize.toNat := by
    intro x hx
    cases hnone : (cheapest here later wal).nonIncremental with
    | none =>
      obtain ⟨hh, hl⟩ := cheapest_nonIncremental_eq_none.1 hnone
      rcases hx with hx | hx
      · rw [hh] at hx
        cases hx
      · rw [hl] at hx
        cases hx
    | some t =>
      obtain ⟨-, hleh, hlel⟩ := cheapest_nonIncremental_eq_some hnone
      exact ⟨t, rfl, hx.elim (hleh x) (hlel x)⟩
  have hni : match (cheapest here later wal).nonIncremental with
      | some t => m.Cheapest i false t
      | none => ∀ P, ¬ m.PlanFrom i false P := by
    cases hnone : (cheapest here later wal).nonIncremental with
    | none =>
      intro P hP
      obtain ⟨x, hx, -⟩ := hbound P hP
      obtain ⟨t, ht, -⟩ := hni_le x hx
      rw [hnone] at ht
      cases ht
    | some t =>
      obtain ⟨hmem, -, -⟩ := cheapest_nonIncremental_eq_some hnone
      obtain ⟨P, hP, hcar⟩ : ∃ P, m.PlanFrom i false P ∧ m.Carries t i P :=
        hmem.elim (h.here_carries t) (h.later_carries t)
      refine ⟨P, hP, hcar, fun Q hQ => ?_⟩
      rw [← hcar.accumSize_toNat]
      obtain ⟨x, hx, hle⟩ := hbound Q hQ
      obtain ⟨t', ht', htx⟩ := hni_le x hx
      rw [hnone] at ht'
      cases ht'
      exact htx.trans hle
  refine ⟨?_, hni⟩
  obtain ⟨hmem, hlew, hlet⟩ := @cheapest_incremental here later wal
  -- the plan the choice with the parent carries: the WAL's, or that of the choice without
  obtain ⟨P, hP, hcar⟩ : ∃ P, m.PlanFrom i true P ∧
      m.Carries (cheapest here later wal).incremental i P := by
    rcases hmem with heq | heq
    · rw [heq]
      exact h.wal_carries
    · rw [heq] at hni
      obtain ⟨P, hP, hcar, -⟩ := hni
      exact ⟨P, hP.mono, hcar⟩
  refine ⟨P, hP, hcar, fun Q hQ => ?_⟩
  rw [← hcar.accumSize_toNat]
  cases hQi : Q i with
  | wal => exact hlew.trans (h.wal_le Q hQ hQi)
  | snapshotHere =>
    obtain ⟨x, hx, hle⟩ := h.here_le true Q hQ hQi
    obtain ⟨t, ht, htx⟩ := hni_le x (.inl hx)
    exact (hlet t ht).trans (htx.trans hle)
  | skipped =>
    obtain ⟨x, hx, hle⟩ := h.later_le true Q hQ hQi
    obtain ⟨t, ht, htx⟩ := hni_le x (.inr hx)
    exact (hlet t ht).trans (htx.trans hle)

open Classical in
/-- A sum over the roots, in the order `calculate` visits them, of what is `g` at the roots where
`p` holds and nothing at the others. -/
theorem sum_map_roots {c g : ℕ → ℕ} {p : ℕ → Prop}
    (h : ∀ r, m.IsRoot r → c r = if p r then g r else 0) :
    (((List.range m.segments.length).filter fun j => m.parentOf j = none).map c).sum =
      ∑ r ∈ (Finset.range m.segments.length).filter (fun r => m.IsRoot r ∧ p r), g r := by
  rw [← List.sum_toFinset _ (List.nodup_range.filter _), List.toFinset_filter,
    List.toFinset_range, Finset.sum_filter, Finset.sum_filter]
  refine Finset.sum_congr rfl fun r hrn => ?_
  by_cases hroot : m.parentOf r = none
  · have hr : m.IsRoot r := ⟨Finset.mem_range.1 hrn, hroot⟩
    rw [if_pos (by simpa using hroot), h r hr]
    by_cases hp : p r
    · rw [if_pos hp, if_pos ⟨hr, hp⟩]
    · rw [if_neg hp, if_neg fun h' => hp h'.2]
  · rw [if_neg (by simpa using hroot), if_neg fun h' => hroot h'.1.2]

section Forest

variable (hF : m.IsForest)
include hF

/-! ## Plans of subtrees -/

theorem planCost_eq {i : ℕ} (hi : i < m.segments.length) (P : ℕ → SegmentMethod) :
    m.planCost P i = m.methodCost i (P i) + ((m.children i).map (m.planCost P)).sum :=
  Forest.sum_subtree hF hi _

/-- A plan of a subtree is a method for its top that it allows, and a plan of each child's subtree
in which the child's parent is available unless the top is skipped. -/
theorem planFrom_iff {i : ℕ} (hi : i < m.segments.length) {a : Bool} {P : ℕ → SegmentMethod} :
    m.PlanFrom i a P ↔
      Allowed (m.segAt i) (a = true) (P i) ∧
        ∀ c ∈ m.children i, m.PlanFrom c (P i != .skipped) P := by
  -- below a child `c`, the condition on the parent is the same as below `i`, and at `c` itself
  -- it is the condition on `i`
  have hcond : ∀ c ∈ m.children i, ∀ j ∈ m.subtree c,
      ((if j = i then a = true else ∃ p, m.parentOf j = some p ∧ P p ≠ .skipped) ↔
        (if j = c then (P i != .skipped) = true
          else ∃ p, m.parentOf j = some p ∧ P p ≠ .skipped)) := by
    intro c hc j hj
    have hji : j ≠ i := fun hji => Forest.not_mem_subtree_of_child hF hc (hji ▸ hj)
    rw [if_neg hji]
    by_cases hjc : j = c
    · subst hjc
      rw [if_pos rfl, (Forest.mem_children.1 hc).2, bne_iff_ne]
      simp
    · rw [if_neg hjc]
  constructor
  · intro h
    exact ⟨h.top hi, fun c hc j hj =>
      (Allowed.congr (hcond c hc j hj)).1 (h j (Forest.subtree_subset_of_child hc hj))⟩
  · rintro ⟨htop, hch⟩ j hj
    rcases (Forest.mem_subtree_iff hF hi).1 hj with rfl | ⟨c, hc, hjc⟩
    · simpa using htop
    · exact (Allowed.congr (hcond c hc j hjc)).2 (hch c hc j hjc)

theorem planFrom_congr {i : ℕ} {a : Bool} {P Q : ℕ → SegmentMethod}
    (h : ∀ j ∈ m.subtree i, P j = Q j) : m.PlanFrom i a P ↔ m.PlanFrom i a Q := by
  -- the parent of a segment below the top is in the subtree, where the plans agree
  have hpar : ∀ j ∈ m.subtree i, j ≠ i →
      ((∃ p, m.parentOf j = some p ∧ P p ≠ .skipped) ↔
        (∃ p, m.parentOf j = some p ∧ Q p ≠ .skipped)) := by
    intro j hj hji
    refine exists_congr fun p => ?_
    constructor
    · rintro ⟨hp, hne⟩
      exact ⟨hp, h p (Forest.parent_mem_subtree hF hj hji hp) ▸ hne⟩
    · rintro ⟨hp, hne⟩
      exact ⟨hp, (h p (Forest.parent_mem_subtree hF hj hji hp)).symm ▸ hne⟩
  refine forall₂_congr fun j hj => ?_
  rw [h j hj]
  by_cases hji : j = i
  · simp only [if_pos hji]
  · simp only [if_neg hji]
    exact Allowed.congr (hpar j hj hji)

omit hF in
/-- For the tree of a root, the plans of `IsPlan` are the plans with no parent available. -/
theorem isPlan_iff {r : ℕ} (hr : m.IsRoot r) {P : ℕ → SegmentMethod} :
    m.IsPlan r P ↔ m.PlanFrom r false P := by
  refine forall₂_congr fun j hj => ?_
  have hwal : (∃ p, m.parentOf j = some p ∧ (P p = .snapshotHere ∨ P p = .wal)) ↔
      (if j = r then false = true else ∃ p, m.parentOf j = some p ∧ P p ≠ .skipped) := by
    split_ifs with hjr
    · subst hjr
      simp [hr.2]
    · refine exists_congr fun p => and_congr_right fun _ => ?_
      cases P p <;> simp
  rw [← Allowed.congr hwal]
  cases P j <;> simp [Allowed]

/-! ## Gluing plans child by child -/

theorem glue_eq_of_mem {i c : ℕ} (meth : SegmentMethod) (F : ℕ → ℕ → SegmentMethod)
    (hc : c ∈ m.children i) {j : ℕ} (hj : j ∈ m.subtree c) : m.glue i meth F j = F c j :=
  Forest.glue_of_mem hF meth F hc hj

theorem planCost_glue_of_mem {i c : ℕ} (meth : SegmentMethod) (F : ℕ → ℕ → SegmentMethod)
    (hc : c ∈ m.children i) {j : ℕ} (hj : j ∈ m.subtree c) :
    m.planCost (m.glue i meth F) j = m.planCost (F c) j :=
  planCost_congr fun _ hk => glue_eq_of_mem hF meth F hc (Forest.subtree_subset_of_mem hj hk)

theorem planFrom_glue {i : ℕ} (hi : i < m.segments.length) {a : Bool} (meth : SegmentMethod)
    (F : ℕ → ℕ → SegmentMethod) :
    m.PlanFrom i a (m.glue i meth F) ↔
      Allowed (m.segAt i) (a = true) meth ∧
        ∀ c ∈ m.children i, m.PlanFrom c (meth != .skipped) (F c) := by
  rw [planFrom_iff hF hi, glue, Forest.glue_self]
  refine and_congr_right fun _ => forall₂_congr fun c hc => ?_
  exact planFrom_congr hF fun j hj => glue_eq_of_mem hF meth F hc hj

theorem planCost_glue {i : ℕ} (hi : i < m.segments.length) (meth : SegmentMethod)
    (F : ℕ → ℕ → SegmentMethod) :
    m.planCost (m.glue i meth F) i =
      m.methodCost i meth + ((m.children i).map fun c => m.planCost (F c) c).sum := by
  rw [planCost_eq hF hi, glue, Forest.glue_self]
  congr 2
  exact List.map_congr_left fun c hc =>
    planCost_glue_of_mem hF meth F hc (Forest.self_mem_subtree (Forest.mem_children.1 hc).1)

/-- Every plan of a subtree costs at least its top's method and, below each child, whatever
bounds the plans of the child's subtree. -/
theorem le_planCost {i : ℕ} (hi : i < m.segments.length) {a : Bool} {Q : ℕ → SegmentMethod}
    (hQ : m.PlanFrom i a Q) (F : ℕ → ℕ → SegmentMethod)
    (hbound : ∀ c ∈ m.children i, m.PlanFrom c (Q i != .skipped) Q →
      m.planCost (F c) c ≤ m.planCost Q c) :
    m.methodCost i (Q i) + ((m.children i).map fun c => m.planCost (F c) c).sum ≤
      m.planCost Q i := by
  rw [planCost_eq hF hi]
  have hch := ((planFrom_iff hF hi).1 hQ).2
  exact Nat.add_le_add_left (List.sum_le_sum fun c hc => hbound c hc (hch c hc)) _

theorem subtree_eq {i : ℕ} (hi : i < m.segments.length) :
    m.subtree i = insert i ((m.children i).toFinset.biUnion m.subtree) :=
  Forest.subtree_eq hF hi

omit hF in
@[simp] theorem glue_self (i : ℕ) (meth : SegmentMethod) (F : ℕ → ℕ → SegmentMethod) :
    m.glue i meth F i = meth :=
  Forest.glue_self i meth F

/-! ## The trees `size_here` builds -/

/-- A selected tree made of a method for `i`, whose own size is `start`, and of trees that carry
plans of the children's subtrees carries the plan glued from them. -/
theorem carries_node (hfit : m.FitsU64) {i : ℕ} (hi : i < m.segments.length)
    {meth : SegmentMethod} {F : ℕ → ℕ → SegmentMethod} {start : UInt64} {ts : List SegmentSize}
    (hts : List.Forall₂ (fun c t => m.Carries t c (F c)) (m.children i) ts)
    (hstart : start.toNat = m.methodCost i meth) :
    m.Carries ⟨meth, addAccumSizes start ts, i, ts⟩ i (m.glue i meth F) := by
  have hcost : start.toNat + (ts.map fun t => t.accumSize.toNat).sum =
      m.planCost (m.glue i meth F) i := by
    rw [hstart, map_accumSize_toNat hts, planCost_glue hF hi]
  -- the `u64` additions do not wrap: no plan costs `2 ^ 64`
  have hacc : (addAccumSizes start ts).toNat = m.planCost (m.glue i meth F) i := by
    rw [toNat_addAccumSizes (by rw [hcost]; exact planCost_lt hfit _ _), hcost]
  refine ⟨hacc, fun result => ?_⟩
  have htop : (⟨meth, addAccumSizes start ts⟩ : SegmentSizeResult) =
      ⟨m.glue i meth F i, UInt64.ofNat (m.planCost (m.glue i meth F) i)⟩ := by
    rw [glue_self, ← hacc, UInt64.ofNat_toNat]
  rw [fillSelectedSizes_mk, htop, set_eq_assign,
    fillChildren_assign hts fun c hc j hj =>
      ⟨glue_eq_of_mem hF meth F hc hj, planCost_glue_of_mem hF meth F hc hj⟩,
    subtree_eq hF hi, Finset.insert_eq]

/-- Such a tree, made of cheapest plans of the children's subtrees, costs no more than any plan
that uses the same method at `i`. -/
theorem accumSize_le_planCost (hfit : m.FitsU64) {i : ℕ} (hi : i < m.segments.length)
    {meth : SegmentMethod} {F : ℕ → ℕ → SegmentMethod} {start : UInt64} {ts : List SegmentSize}
    (hts : List.Forall₂ (fun c t => m.Carries t c (F c)) (m.children i) ts)
    (hstart : start.toNat = m.methodCost i meth)
    (hopt : ∀ c ∈ m.children i, ∀ Q, m.PlanFrom c (meth != .skipped) Q →
      m.planCost (F c) c ≤ m.planCost Q c)
    {a : Bool} {Q : ℕ → SegmentMethod} (hQ : m.PlanFrom i a Q) (hQi : Q i = meth) :
    (addAccumSizes start ts).toNat ≤ m.planCost Q i := by
  have hacc := (carries_node hF hfit hi hts hstart).accumSize_toNat
  dsimp only at hacc
  rw [hacc, planCost_glue hF hi, ← hQi]
  exact le_planCost hF hi hQ F fun c hc hQc => hopt c hc Q (hQi ▸ hQc)

/-- Method 3 of `size_here`, the WAL: its own size is the WAL from the parent. -/
theorem walHere_children (hlsn : m.LsnMonotone) {i : ℕ} (hi : i < m.segments.length)
    (A : ℕ → SizeAlternatives) :
    ∃ w : UInt64,
      walHere m.segments (m.segAt i) i ((m.children i).map A) =
        some ⟨.wal, addAccumSizes w ((m.children i).map fun c => (A c).incremental), i,
          (m.children i).map fun c => (A c).incremental⟩ ∧
      w.toNat = m.methodCost i .wal := by
  cases hp : (m.segAt i).parent with
  | none =>
    refine ⟨0, walHere_map_of_root hp, ?_⟩
    simp [methodCost, walSize, parentOf, hp]
  | some p =>
    have hpn : p < m.segments.length := Forest.IsForest.parent_lt hF i hi p hp
    refine ⟨_, walHere_map_of_parent hp (getElem?_segments hpn), ?_⟩
    have hle := hlsn i hi p hp
    simp [methodCost, walSize, parentOf, hp, UInt64.toNat_sub_of_le _ _ hle]

/-- The alternatives `size_here` builds for segment `i` from those of its children. -/
theorem candidates_node (hlsn : m.LsnMonotone) (hfit : m.FitsU64) {i : ℕ}
    (hi : i < m.segments.length) {A : ℕ → SizeAlternatives}
    (hA : ∀ c ∈ m.children i, m.AltsSpec c (A c)) :
    ∃ wal, walHere m.segments (m.segAt i) i ((m.children i).map A) = some wal ∧
      m.Candidates i (snapshotHere (m.segAt i) i ((m.children i).map A))
        (snapshotLater (m.segAt i) i ((m.children i).map A)) wal := by
  obtain ⟨FI, FN, hFIN⟩ := exists_childPlans hA
  -- the children's trees with the parent available carry `FI`, the cheapest such plans
  have hinc : List.Forall₂ (fun c t => m.Carries t c (FI c)) (m.children i)
      ((m.children i).map fun c => (A c).incremental) :=
    List.forall₂_map_right_iff.2 (List.forall₂_same.2 fun c hc => (hFIN c hc).1.2.1)
  have hoptI : ∀ meth : SegmentMethod, meth ≠ .skipped → ∀ c ∈ m.children i, ∀ Q,
      m.PlanFrom c (meth != .skipped) Q → m.planCost (FI c) c ≤ m.planCost Q c := by
    intro meth hmeth c hc Q hQ
    rw [bne_iff_ne.2 hmeth] at hQ
    exact (hFIN c hc).1.2.2 Q hQ
  -- when every child has a tree without its parent, these carry `FN`
  have hnon : (∀ c ∈ m.children i, (A c).nonIncremental.isSome) →
      List.Forall₂ (fun c t => m.Carries t c (FN c)) (m.children i)
        ((m.children i).map fun c => (A c).nonIncremental.getD default) := by
    intro hall
    refine List.forall₂_map_right_iff.2 (List.forall₂_same.2 fun c hc => ?_)
    obtain ⟨t, ht⟩ := Option.isSome_iff_exists.1 (hall c hc)
    rw [ht, Option.getD_some]
    exact ((hFIN c hc).2 t ht).2.1
  have hFN : ∀ c ∈ m.children i, (A c).nonIncremental.isSome →
      m.PlanFrom c false (FN c) ∧
        ∀ Q, m.PlanFrom c false Q → m.planCost (FN c) c ≤ m.planCost Q c := by
    intro c hc hsome
    obtain ⟨t, ht⟩ := Option.isSome_iff_exists.1 hsome
    obtain ⟨hP, -, hopt⟩ := (hFIN c hc).2 t ht
    exact ⟨hP, hopt⟩
  obtain ⟨w, hw, hwsize⟩ := walHere_children hF hlsn hi A
  refine ⟨_, hw, ⟨?_, ?_, ?_, ?_, ?_, ?_⟩⟩
  · -- a snapshot here carries `FI` below it
    intro x hx
    rw [snapshotHere_map] at hx
    split_ifs at hx with hcond
    obtain ⟨s, hs, rfl⟩ := Option.map_eq_some_iff.1 hx
    refine ⟨m.glue i .snapshotHere FI,
      (planFrom_glue hF hi _ FI).2 ⟨⟨by simp [hs], hcond⟩, fun c hc => (hFIN c hc).1.1⟩,
      carries_node hF hfit hi hinc ?_⟩
    simp [methodCost, snapshotSize, hs]
  · -- skipping carries `FN` below it
    intro x hx
    rw [snapshotLater_map] at hx
    split_ifs at hx with hcond
    cases hx
    exact ⟨m.glue i .skipped FN,
      (planFrom_glue hF hi _ FN).2 ⟨hcond.1, fun c hc => (hFN c hc (hcond.2 c hc)).1⟩,
      carries_node hF hfit hi (hnon hcond.2) rfl⟩
  · exact ⟨m.glue i .wal FI,
      (planFrom_glue hF hi _ FI).2 ⟨by simp [Allowed], fun c hc => (hFIN c hc).1.1⟩,
      carries_node hF hfit hi hinc hwsize⟩
  · -- a plan that snapshots `i` has its size and meets the condition of a snapshot here
    intro a Q hQ hQi
    have htop := hQ.top hi
    rw [hQi] at htop
    obtain ⟨hsome, hcond⟩ := htop
    obtain ⟨s, hs⟩ := Option.isSome_iff_exists.1 hsome
    refine ⟨⟨.snapshotHere, addAccumSizes s ((m.children i).map fun c => (A c).incremental), i,
      (m.children i).map fun c => (A c).incremental⟩, ?_, ?_⟩
    · rw [snapshotHere_map, if_pos hcond, hs]
      rfl
    · exact accumSize_le_planCost hF hfit hi hinc (by simp [methodCost, snapshotSize, hs])
        (hoptI _ (by decide)) hQ hQi
  · -- a plan that skips `i` has each child's subtree planned without its parent, so every child
    -- has an alternative without it
    intro a Q hQ hQi
    have hneeded : (m.segAt i).needed = false := by
      have htop := hQ.top hi
      rw [hQi] at htop
      exact htop
    have hch : ∀ c ∈ m.children i, m.PlanFrom c false Q := by
      intro c hc
      have hQc := ((planFrom_iff hF hi).1 hQ).2 c hc
      rw [hQi] at hQc
      exact hQc
    have hall : ∀ c ∈ m.children i, (A c).nonIncremental.isSome := by
      intro c hc
      cases ht : (A c).nonIncremental with
      | none => exact absurd (hch c hc) ((hA c hc).nonIncremental_none ht Q)
      | some t => rfl
    refine ⟨⟨.skipped, addAccumSizes 0 ((m.children i).map fun c => (A c).nonIncremental.getD default),
      i, (m.children i).map fun c => (A c).nonIncremental.getD default⟩, ?_, ?_⟩
    · rw [snapshotLater_map, if_pos ⟨hneeded, hall⟩]
    · refine accumSize_le_planCost hF hfit hi (hnon hall) rfl ?_ hQ hQi
      intro c hc Q' hQ'
      exact (hFN c hc (hall c hc)).2 Q' hQ'
  · exact fun Q hQ hQi =>
      accumSize_le_planCost hF hfit hi hinc hwsize (hoptI _ (by decide)) hQ hQi

/-! ## The recursion of `size_here` -/

omit hF in
/-- Where `size_here` returns alternatives that keep the invariant, reading its result with a
default gives them back. -/
theorem sizeHere_getD {fuel i : ℕ} {childList : List (List ℕ)}
    (h : ∃ alts, m.sizeHere fuel i childList = some alts ∧ m.AltsSpec i alts) :
    m.sizeHere fuel i childList = some ((m.sizeHere fuel i childList).getD default) ∧
      m.AltsSpec i ((m.sizeHere fuel i childList).getD default) := by
  obtain ⟨alts, heq, hspec⟩ := h
  rw [heq]
  exact ⟨rfl, hspec⟩

/-- `size_here` returns alternatives that keep the invariant at every segment that no chain of
`fuel` parent links leads to. -/
theorem sizeHere_spec (hlsn : m.LsnMonotone) (hfit : m.FitsU64) {childList : List (List ℕ)}
    (hcl : ∀ i < m.segments.length, childList[i]? = some (m.children i)) :
    ∀ fuel i, i < m.segments.length →
      (∀ d < m.segments.length, Forest.ancestor m.parentOf fuel d ≠ some i) →
      ∃ alts, m.sizeHere fuel i childList = some alts ∧ m.AltsSpec i alts
  | 0, i, hi, hd => absurd rfl (hd i hi)
  | fuel + 1, i, hi, hd => by
    -- the children's alternatives, one level down
    have hrec : ∀ c ∈ m.children i,
        ∃ alts, m.sizeHere fuel c childList = some alts ∧ m.AltsSpec c alts := by
      intro c hc
      obtain ⟨hcn, hci⟩ := Forest.mem_children.1 hc
      exact sizeHere_spec hlsn hfit hcl fuel c hcn (Forest.ancestor_ne_of_child hci hd)
    let A : ℕ → SizeAlternatives := fun c => (m.sizeHere fuel c childList).getD default
    have hA : ∀ c ∈ m.children i,
        m.sizeHere fuel c childList = some (A c) ∧ m.AltsSpec c (A c) :=
      fun c hc => sizeHere_getD (hrec c hc)
    obtain ⟨wal, hwal, hcand⟩ := candidates_node hF hlsn hfit hi fun c hc => (hA c hc).2
    exact ⟨_, sizeHere_succ (getElem?_segments hi) (hcl i hi)
      (mapM_eq_some_of_forall fun c hc => (hA c hc).1) hwal, altsSpec_cheapest hi hcand⟩

/-- With the adjacency lists `calculate` builds and the number of segments as fuel, `size_here`
returns at every segment: no chain of parent links is as long as there are segments. -/
theorem sizeHere_calculate (hlsn : m.LsnMonotone) (hfit : m.FitsU64) {i : ℕ}
    (hi : i < m.segments.length) :
    ∃ alts, m.sizeHere m.segments.length i ((List.range m.segments.length).map
      (Forest.children m.parentOf m.segments.length)) = some alts ∧ m.AltsSpec i alts :=
  sizeHere_spec hF hlsn hfit (fun j hj => by simp [hj, children]) _ i hi fun d hd => by
    rw [Forest.ancestor_eq_none hF hd]
    exact (Option.some_ne_none i).symm

/-! ## The loop over the roots -/

/-- Over distinct roots, the loop of `calculate` writes on the tree of each root that has a
selected tree without its parent the plan that tree carries, and leaves every other entry as it
was. -/
theorem foldl_rootStep {A : ℕ → SizeAlternatives} {PR : ℕ → ℕ → SegmentMethod} :
    ∀ {L : List ℕ}, L.Nodup → (∀ r ∈ L, m.parentOf r = none) →
      (∀ r ∈ L, ∀ t, (A r).nonIncremental = some t → m.Carries t r (PR r)) →
      ∀ acc : UInt64 × List SegmentSizeResult,
        (L.foldl (rootStep A) acc).2.length = acc.2.length ∧
        (∀ j, (∀ r ∈ L, (A r).nonIncremental.isSome → j ∉ m.subtree r) →
          (L.foldl (rootStep A) acc).2[j]? = acc.2[j]?) ∧
        ∀ r ∈ L, (A r).nonIncremental.isSome → ∀ j ∈ m.subtree r,
          (L.foldl (rootStep A) acc).2[j]? =
            acc.2[j]?.map fun _ => ⟨PR r j, UInt64.ofNat (m.planCost (PR r) j)⟩
  | [], _, _, _, acc => ⟨rfl, fun _ _ => rfl, fun _ hr => absurd hr List.not_mem_nil⟩
  | r :: L, hnd, hroot, hcar, acc => by
    obtain ⟨hrL, hnd⟩ := List.nodup_cons.1 hnd
    -- the turn for `r` writes its plan on its tree when it has a selected tree
    have hstep : (rootStep A acc r).2.length = acc.2.length ∧ ∀ j, (rootStep A acc r).2[j]? =
        acc.2[j]?.map fun v => if (A r).nonIncremental.isSome ∧ j ∈ m.subtree r
          then ⟨PR r j, UInt64.ofNat (m.planCost (PR r) j)⟩ else v := by
      unfold rootStep
      cases ht : (A r).nonIncremental with
      | none => simp
      | some t =>
        dsimp only
        rw [(hcar r List.mem_cons_self t ht).fill]
        refine ⟨by simp [assign], fun j => ?_⟩
        simp [getElem?_assign]
    -- no later root's tree meets the tree of `r`
    have hdisj : ∀ r' ∈ L, ∀ j ∈ m.subtree r', j ∉ m.subtree r := fun r' hr' j hj hjr =>
      Finset.disjoint_left.1 (Forest.disjoint_subtree_roots hF (hroot r List.mem_cons_self)
        (hroot r' (List.mem_cons_of_mem r hr')) fun h => hrL (h ▸ hr')) hjr hj
    obtain ⟨ihl, ihout, ihin⟩ := foldl_rootStep hnd
      (fun r' hr' => hroot r' (List.mem_cons_of_mem r hr'))
      (fun r' hr' => hcar r' (List.mem_cons_of_mem r hr')) (rootStep A acc r)
    rw [List.foldl_cons]
    refine ⟨ihl.trans hstep.1, fun j hj => ?_, fun r' hr' hsome j hj => ?_⟩
    · have hnot : ¬((A r).nonIncremental.isSome ∧ j ∈ m.subtree r) :=
        fun h => hj r List.mem_cons_self h.1 h.2
      rw [ihout j fun r' hr' => hj r' (List.mem_cons_of_mem r hr'), hstep.2 j]
      simp [hnot]
    rcases List.mem_cons.1 hr' with rfl | hr'
    · -- `j` is on the tree of the first root, which the later turns leave alone
      rw [ihout j fun r'' hr'' _ hj'' => hdisj r'' hr'' j hj'' hj, hstep.2 j]
      simp [hsome, hj]
    · have hnot : ¬((A r).nonIncremental.isSome ∧ j ∈ m.subtree r) :=
        fun h => hdisj r' hr' j hj h.2
      rw [ihin r' hr' hsome j hj, hstep.2 j]
      simp [hnot]

/-- What the roots add to the total fits in `u64`: each adds at most what its tree holds, and the
trees of distinct roots are disjoint. -/
theorem sum_rootCost_lt (hfit : m.FitsU64) {A : ℕ → SizeAlternatives}
    {PR : ℕ → ℕ → SegmentMethod} {L : List ℕ} (hnd : L.Nodup)
    (hroot : ∀ r ∈ L, m.parentOf r = none)
    (hcar : ∀ r ∈ L, ∀ t, (A r).nonIncremental = some t → m.Carries t r (PR r)) :
    (L.map (rootCost A)).sum < 2 ^ 64 := by
  calc (L.map (rootCost A)).sum
      ≤ (L.map fun r => ∑ j ∈ m.subtree r, (m.snapshotSize j + m.walSize j)).sum := by
        refine List.sum_le_sum fun r hr => ?_
        rw [rootCost_eq (hcar r hr)]
        split_ifs
        · exact planCost_le _ _
        · exact Nat.zero_le _
    _ = ∑ r ∈ L.toFinset, ∑ j ∈ m.subtree r, (m.snapshotSize j + m.walSize j) :=
        (List.sum_toFinset _ hnd).symm
    _ ≤ ∑ j ∈ Finset.range m.segments.length, (m.snapshotSize j + m.walSize j) :=
        Forest.sum_sum_subtree_roots_le hF (fun r hr => hroot r (List.mem_toFinset.1 hr)) _
    _ < 2 ^ 64 := hfit

end Forest

open Classical in
/-- `StorageModel::calculate` returns, and on the tree of every root it selects a cheapest plan
of `IsPlan` when there is one, with the cost of the plan below each segment, leaves the tree
skipped when there is none, and reports the sum of the costs of the plans it selects. -/
theorem calculate_optimal (hF : m.IsForest) (hlsn : m.LsnMonotone) (hfit : m.FitsU64) :
    ∃ res, m.calculate = some res ∧ res.segments.length = m.segments.length ∧
      (∀ r, m.IsRoot r → (∃ P, m.IsPlan r P) →
        m.IsPlan r res.methodAt ∧
        (∀ Q, m.IsPlan r Q → m.planCost res.methodAt r ≤ m.planCost Q r) ∧
        ∀ j ∈ m.subtree r,
          (res.segments.getD j ⟨.skipped, 0⟩).accumSize.toNat = m.planCost res.methodAt j) ∧
      (∀ r, m.IsRoot r → (¬∃ P, m.IsPlan r P) →
        ∀ j ∈ m.subtree r, res.segments.getD j ⟨.skipped, 0⟩ = ⟨.skipped, 0⟩) ∧
      res.totalSize.toNat = ∑ r ∈ (Finset.range m.segments.length).filter
        (fun r => m.IsRoot r ∧ ∃ P, m.IsPlan r P), m.planCost res.methodAt r := by
  -- the adjacency lists `calculate` builds, and what `size_here` returns at each segment
  have hb := buildChildList_eq (Forest.IsForest.parent_lt hF)
  let childList := (List.range m.segments.length).map
    (Forest.children m.parentOf m.segments.length)
  let A : ℕ → SizeAlternatives := fun i => (m.sizeHere m.segments.length i childList).getD default
  have hA : ∀ i < m.segments.length,
      m.sizeHere m.segments.length i childList = some (A i) ∧ m.AltsSpec i (A i) :=
    fun i hi => sizeHere_getD (sizeHere_calculate hF hlsn hfit hi)
  -- the cheapest plan without a parent that the selected tree of each root carries
  obtain ⟨PR, hPR⟩ := exists_nonIncrementalPlans (· < m.segments.length) fun r hr => (hA r hr).2
  -- a root has a plan exactly when it has a selected tree without its parent
  have hsome_iff : ∀ r, m.IsRoot r → ((A r).nonIncremental.isSome ↔ ∃ P, m.IsPlan r P) :=
    fun r hr => (hA r hr.1).2.nonIncremental_isSome_iff.trans
      (exists_congr fun _ => (isPlan_iff hr).symm)
  -- the loop over the roots
  let roots := (List.range m.segments.length).filter fun j => m.parentOf j = none
  have hroots : ∀ r, r ∈ roots ↔ m.IsRoot r := fun r => by simp [roots, IsRoot]
  have hnodup : roots.Nodup := List.nodup_range.filter _
  have hcar : ∀ r ∈ roots, ∀ t, (A r).nonIncremental = some t → m.Carries t r (PR r) :=
    fun r hr t ht => (hPR r ((hroots r).1 hr).1 t ht).2.1
  let init : UInt64 × List SegmentSizeResult :=
    (0, List.replicate m.segments.length ⟨.skipped, 0⟩)
  have hloop : List.foldlM (m.addRoot m.segments.length childList) init roots =
      some (roots.foldl (rootStep A) init) :=
    foldlM_eq_some_foldl (fun acc r hr => addRoot_eq (hA r ((hroots r).1 hr).1).1 acc) init
  obtain ⟨hlen, hout, hin⟩ :=
    foldl_rootStep hF hnodup (fun r hr => ((hroots r).1 hr).2) hcar init
  have htotal := toNat_foldl_rootStep roots init (by
    simpa [init] using sum_rootCost_lt hF hfit hnodup (fun r hr => ((hroots r).1 hr).2) hcar)
  simp only [init, UInt64.toNat_zero, Nat.zero_add, List.length_replicate] at htotal hlen
  generalize roots.foldl (rootStep A) init = res at hloop hlen hout hin htotal
  obtain ⟨total, segs⟩ := res
  -- on the tree of a root with a plan, the loop has written the plan `PR r` and its costs
  have hmeth : ∀ r, m.IsRoot r → (∃ P, m.IsPlan r P) → ∀ j ∈ m.subtree r,
      segs.getD j ⟨.skipped, 0⟩ = ⟨PR r j, UInt64.ofNat (m.planCost (PR r) j)⟩ := by
    intro r hr hplan j hj
    rw [List.getD_eq_getElem?_getD, hin r ((hroots r).2 hr) ((hsome_iff r hr).2 hplan) j hj]
    simp [init, Forest.lt_of_mem_subtree hj]
  have hcost : ∀ r, m.IsRoot r → (∃ P, m.IsPlan r P) → ∀ j ∈ m.subtree r,
      m.planCost (SizeResult.methodAt ⟨total, segs⟩) j = m.planCost (PR r) j := by
    intro r hr hplan j hj
    refine planCost_congr fun k hk => ?_
    simp only [SizeResult.methodAt, hmeth r hr hplan k (Forest.subtree_subset_of_mem hj hk)]
  refine ⟨⟨total, segs⟩, calculate_eq hb hloop, hlen, ?_, ?_, ?_⟩
  · -- the plan is cheapest among the plans of the tree, and its costs are reported
    intro r hr hplan
    obtain ⟨t, ht⟩ := Option.isSome_iff_exists.1 ((hsome_iff r hr).2 hplan)
    obtain ⟨hP, -, hopt⟩ := hPR r hr.1 t ht
    refine ⟨(isPlan_iff hr).2 ((planFrom_congr hF fun j hj => ?_).2 hP), fun Q hQ => ?_,
      fun j hj => ?_⟩
    · simp only [SizeResult.methodAt, hmeth r hr hplan j hj]
    · rw [hcost r hr hplan r (Forest.self_mem_subtree hr.1)]
      exact hopt Q ((isPlan_iff hr).1 hQ)
    · rw [hmeth r hr hplan j hj, hcost r hr hplan j hj]
      exact UInt64.toNat_ofNat_of_lt' (planCost_lt hfit _ _)
  · -- a tree without a plan is met by no selected tree, so its entries keep their initial value
    intro r hr hnone j hj
    have hfree : ∀ r' ∈ roots, (A r').nonIncremental.isSome → j ∉ m.subtree r' := by
      intro r' hr' hsome' hj'
      by_cases hrr : r' = r
      · rw [hrr] at hsome'
        exact hnone ((hsome_iff r hr).1 hsome')
      · exact Finset.disjoint_left.1
          (Forest.disjoint_subtree_roots hF ((hroots r').1 hr').2 hr.2 hrr) hj' hj
    rw [List.getD_eq_getElem?_getD, hout j hfree]
    simp [init, Forest.lt_of_mem_subtree hj]
  · -- the total: the roots with a plan add the cost of the plan, the others nothing
    rw [htotal]
    refine sum_map_roots fun r hr => ?_
    rw [rootCost_eq (hcar r ((hroots r).2 hr))]
    by_cases hplan : ∃ P, m.IsPlan r P
    · rw [if_pos ((hsome_iff r hr).2 hplan), if_pos hplan,
        hcost r hr hplan r (Forest.self_mem_subtree hr.1)]
    · rw [if_neg (mt (hsome_iff r hr).1 hplan), if_neg hplan]

open Classical in
/-- A branch and an endpoint off a main branch that does not need to be kept: the main branch
keeps a snapshot, and both of its children the WAL from it. -/
theorem calculate_optimal_branch :
    let m : StorageModel :=
      ⟨[⟨none, 100, some 5000, false⟩, ⟨some 0, 300, some 6000, true⟩,
        ⟨some 0, 200, none, true⟩]⟩
    m.IsForest ∧ m.LsnMonotone ∧ m.FitsU64 ∧
      ∃ res, m.calculate = some res ∧ res.segments.length = m.segments.length ∧
        (∀ r, m.IsRoot r → (∃ P, m.IsPlan r P) →
          m.IsPlan r res.methodAt ∧
          (∀ Q, m.IsPlan r Q → m.planCost res.methodAt r ≤ m.planCost Q r) ∧
          ∀ j ∈ m.subtree r,
            (res.segments.getD j ⟨.skipped, 0⟩).accumSize.toNat = m.planCost res.methodAt j) ∧
        (∀ r, m.IsRoot r → (¬∃ P, m.IsPlan r P) →
          ∀ j ∈ m.subtree r, res.segments.getD j ⟨.skipped, 0⟩ = ⟨.skipped, 0⟩) ∧
        res.totalSize.toNat = ∑ r ∈ (Finset.range m.segments.length).filter
          (fun r => m.IsRoot r ∧ ∃ P, m.IsPlan r P), m.planCost res.methodAt r := by
  intro m
  have hF : m.IsForest := Forest.IsForest.of_parent_lt fun i hi p hp => by
    replace hi : i < 3 := hi
    interval_cases i <;> simp [m, parentOf, segAt] at hp <;> omega
  have hlsn : m.LsnMonotone := fun j hj p hp => by
    replace hj : j < 3 := hj
    interval_cases j <;> simp [m, parentOf, segAt] at hp <;> subst hp <;> simp [m, segAt]
  have hfit : m.FitsU64 := by
    simp [FitsU64, Finset.sum_range_succ, snapshotSize, walSize, m, parentOf, segAt]
  exact ⟨hF, hlsn, hfit, calculate_optimal hF hlsn hfit⟩

end StorageModel

end TenantSizeModel

end NeonStorage
