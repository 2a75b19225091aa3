import Mathlib
import NeonStorage.Lib.Forest

/-!
# The synthetic size calculation

`StorageModel::calculate` (`libs/tenant_size_model/src/calculation.rs`) takes the segments of a
tenant's branches, each with an optional parent, an LSN, an optional logical size and whether the
history leading to it must be kept, and decides for each segment how its history is retained:
by a logical snapshot after it, by the WAL from its parent, or not at all.  `size_here` is a
dynamic program over the tree of segments that computes, for a segment, the cheapest way to
keep what its subtree needs when its parent is available (`incremental`) and when it is not
(`non_incremental`); `calculate` takes the latter for every root, writes the methods of the
selected tree into the result with `fill_selected_sizes`, and adds up their sizes.

The model follows the source function by function, in `u64` arithmetic.  An index out of range
(a parent that is not a segment) is a panic in the source and `none` here.  `size_here` recurses
from a segment to its children with no bound, which does not end when the parent links have a
cycle; the model gives the recursion a depth of at most the number of segments and returns `none`
beyond it, which a forest never reaches (`StorageModel.sizeHere_calculate` in the optimality
module).
-/

namespace NeonStorage

namespace TenantSizeModel

/-- `SegmentMethod`: how the history up to a segment is retained. -/
inductive SegmentMethod
  /-- A logical snapshot is needed after this segment. -/
  | snapshotHere
  /-- Keep the WAL leading up to this segment. -/
  | wal
  | skipped
deriving DecidableEq, Repr

/-- `Segment`: a point in the tree of branches and the edge from its parent that leads to it. -/
structure Segment where
  parent : Option ℕ
  lsn : UInt64
  /-- The logical size at this point, if known. -/
  size : Option UInt64
  /-- Whether the history from the parent to this point must be kept. -/
  needed : Bool
deriving DecidableEq, Repr

structure StorageModel where
  segments : List Segment
deriving Repr

structure SegmentSizeResult where
  method : SegmentMethod
  accumSize : UInt64
deriving DecidableEq, Repr

structure SizeResult where
  totalSize : UInt64
  /-- One entry per segment, at the segment's index. -/
  segments : List SegmentSizeResult
deriving Repr

/-- `SegmentSize`: a segment with the method selected for it, the size of its subtree under that
method, and the selected alternatives of its children. -/
structure SegmentSize where
  method : SegmentMethod
  accumSize : UInt64
  segId : ℕ
  children : List SegmentSize
deriving Repr

instance : Inhabited SegmentSize := ⟨⟨.skipped, 0, 0, []⟩⟩

/-- `SizeAlternatives`: the cheapest selection for a segment when its parent is available, and
when it is not, if there is one. -/
structure SizeAlternatives where
  incremental : SegmentSize
  nonIncremental : Option SegmentSize
deriving Repr

instance : Inhabited SizeAlternatives := ⟨⟨default, none⟩⟩

/-! ## The adjacency lists -/

/-- One turn of the loop of `calculate` over the enumerated segments: a segment with a parent is
pushed to its parent's list (indexing `child_list` past its end panics), one without is a
root. -/
def addSegment : List ℕ × List (List ℕ) → Segment × ℕ → Option (List ℕ × List (List ℕ))
  | (roots, childList), (seg, segId) =>
    match seg.parent with
    | some parentId =>
      if parentId < childList.length then some (roots, childList.modify parentId (· ++ [segId]))
      else none
    | none => some (roots ++ [segId], childList)

/-- The roots and, for each segment, the ids of its children, as `calculate` builds them. -/
def buildChildList (segments : List Segment) : Option (List ℕ × List (List ℕ)) :=
  List.foldlM addSegment ([], List.replicate segments.length []) segments.zipIdx

/-! ## `size_here` -/

/-- The `+=` loops over the children: `start` and the accumulated size of each child, added in
`u64`. -/
def addAccumSizes (start : UInt64) (children : List SegmentSize) : UInt64 :=
  children.foldl (fun acc child => acc + child.accumSize) start

/-- Method 1: skip a segment that is not needed, and take snapshots later in each subtree; not
possible if a child cannot be reached without its parent. -/
def snapshotLater (seg : Segment) (segId : ℕ) (children : List SizeAlternatives) :
    Option SegmentSize :=
  if !seg.needed then
    (children.mapM SizeAlternatives.nonIncremental).map fun selected =>
      ⟨.skipped, addAccumSizes 0 selected, segId, selected⟩
  else none

/-- Method 2: a snapshot here, possible if the size is known and the segment is not needed or
has no parent; each child then has its parent available. -/
def snapshotHere (seg : Segment) (segId : ℕ) (children : List SizeAlternatives) :
    Option SegmentSize :=
  if !seg.needed || seg.parent.isNone then
    seg.size.map fun snapshotSize =>
      let selected := children.map (·.incremental)
      ⟨.snapshotHere, addAccumSizes snapshotSize selected, segId, selected⟩
  else none

/-- Method 3: the WAL from the parent, of length `lsn - parent.lsn` in `u64`, or nothing for a
root. -/
def walHere (segments : List Segment) (seg : Segment) (segId : ℕ)
    (children : List SizeAlternatives) : Option SegmentSize := do
  let walSize ← match seg.parent with
    | some parentId => segments[parentId]?.map fun parent => seg.lsn - parent.lsn
    | none => some 0
  let selected := children.map (·.incremental)
  pure ⟨.wal, addAccumSizes walSize selected, segId, selected⟩

/-- The choice at the end of `size_here`.  Without the parent: the snapshot here or later,
preferring to skip when the sizes are equal (`<=`).  With the parent: the WAL if it is strictly
cheaper than that (`<`), else the same. -/
def cheapest (snapshotHere snapshotLater : Option SegmentSize) (walHere : SegmentSize) :
    SizeAlternatives :=
  let cheapestNonIncremental : Option SegmentSize :=
    match snapshotLater with
    | some later =>
      match snapshotHere with
      | some here => if later.accumSize ≤ here.accumSize then some later else some here
      | none => some later
    | none => snapshotHere
  let cheapestIncremental : SegmentSize :=
    match cheapestNonIncremental with
    | some c => if walHere.accumSize < c.accumSize then walHere else c
    | none => walHere
  ⟨cheapestIncremental, cheapestNonIncremental⟩

namespace StorageModel

/-- `size_here`: the cheapest alternatives for segment `segId`, from those of its children.  The
recursion is given at most `fuel` levels. -/
def sizeHere (self : StorageModel) : ℕ → ℕ → List (List ℕ) → Option SizeAlternatives
  | 0, _, _ => none
  | fuel + 1, segId, childList => do
    let seg ← self.segments[segId]?
    let childIds ← childList[segId]?
    let children ← childIds.mapM fun childId => self.sizeHere fuel childId childList
    let wal ← walHere self.segments seg segId children
    pure (cheapest (snapshotHere seg segId children) (snapshotLater seg segId children) wal)

mutual

/-- `fill_selected_sizes`: write the method and size of every segment of a selected tree. -/
def fillSelectedSizes : SegmentSize → List SegmentSizeResult → List SegmentSizeResult
  | ⟨method, accumSize, segId, children⟩, result =>
    fillChildren children (result.set segId ⟨method, accumSize⟩)

/-- The recursion of `fill_selected_sizes` into the children, in order. -/
def fillChildren : List SegmentSize → List SegmentSizeResult → List SegmentSizeResult
  | [], result => result
  | child :: children, result => fillChildren children (fillSelectedSizes child result)

end

/-- One turn of the loop of `calculate` over the roots: a root that can be reached without a
parent has its selection written and its size added to the total; another is left out. -/
def addRoot (self : StorageModel) (fuel : ℕ) (childList : List (List ℕ))
    (acc : UInt64 × List SegmentSizeResult) (root : ℕ) :
    Option (UInt64 × List SegmentSizeResult) := do
  let alts ← self.sizeHere fuel root childList
  match alts.nonIncremental with
  | some selected => pure (acc.1 + selected.accumSize, fillSelectedSizes selected acc.2)
  | none => pure acc

/-- `StorageModel::calculate`. -/
def calculate (self : StorageModel) : Option SizeResult := do
  let (roots, childList) ← buildChildList self.segments
  let (totalSize, segments) ← List.foldlM (self.addRoot self.segments.length childList)
    (0, List.replicate self.segments.length ⟨.skipped, 0⟩) roots
  pure ⟨totalSize, segments⟩

/-! ## Reading the model -/

/-- The segment at index `j`; past the end, a root with nothing to keep. -/
def segAt (self : StorageModel) (j : ℕ) : Segment := self.segments.getD j ⟨none, 0, none, false⟩

def parentOf (self : StorageModel) (j : ℕ) : Option ℕ := (self.segAt j).parent

theorem getElem?_segments {self : StorageModel} {j : ℕ} (hj : j < self.segments.length) :
    self.segments[j]? = some (self.segAt j) := by
  simp [segAt, hj]

end StorageModel

/-! ## `u64` sums -/

@[simp] theorem addAccumSizes_nil (start : UInt64) : addAccumSizes start [] = start := rfl

@[simp] theorem addAccumSizes_cons (start : UInt64) (c : SegmentSize) (cs : List SegmentSize) :
    addAccumSizes start (c :: cs) = addAccumSizes (start + c.accumSize) cs := rfl

/-- The `+=` loops add exactly when the total fits in `u64`. -/
theorem toNat_addAccumSizes {start : UInt64} {children : List SegmentSize}
    (h : start.toNat + (children.map fun c => c.accumSize.toNat).sum < 2 ^ 64) :
    (addAccumSizes start children).toNat =
      start.toNat + (children.map fun c => c.accumSize.toNat).sum := by
  induction children generalizing start with
  | nil => simp
  | cons c cs ih =>
    simp only [List.map_cons, List.sum_cons] at h ⊢
    have hadd : (start + c.accumSize).toNat = start.toNat + c.accumSize.toNat := by
      rw [UInt64.toNat_add]
      exact Nat.mod_eq_of_lt (by omega)
    rw [addAccumSizes_cons, ih (by omega), hadd, Nat.add_assoc]

/-! ## The adjacency lists -/

/-- The enumerated entries that satisfy `q`, by index. -/
theorem map_snd_filter_zipIdx {α : Type} (q : α → Bool) (d : α) (l : List α) (k : ℕ) :
    ((l.zipIdx k).filter fun e => q e.1).map Prod.snd =
      ((List.range l.length).filter fun j => q (l.getD j d)).map (· + k) := by
  induction l generalizing k with
  | nil => rfl
  | cons a l ih =>
    rw [List.zipIdx_cons, List.filter_cons, List.length_cons, List.range_succ_eq_map,
      List.filter_cons, List.filter_map]
    -- the indices of the tail are those of `l`, one up
    have htail : (List.range l.length).filter ((fun j => q ((a :: l).getD j d)) ∘ Nat.succ) =
        (List.range l.length).filter fun j => q (l.getD j d) :=
      List.filter_congr fun _ _ => rfl
    have hshift : ((· + k) ∘ Nat.succ) = (· + (k + 1)) := by
      funext j
      simp only [Function.comp, Nat.succ_eq_add_one]
      omega
    rw [htail]
    cases hq : q a <;> simp [hq, ih, List.map_map, hshift]

/-- The loop over the segments, on any list of entries whose parents have lists. -/
theorem foldlM_addSegment (l : List (Segment × ℕ)) (roots : List ℕ) (childList : List (List ℕ))
    (hl : ∀ e ∈ l, ∀ p, e.1.parent = some p → p < childList.length) :
    List.foldlM addSegment (roots, childList) l =
      some (roots ++ (l.filter fun e => e.1.parent = none).map Prod.snd,
        childList.mapIdx fun i ids => ids ++ (l.filter fun e => e.1.parent = some i).map Prod.snd) := by
  induction l generalizing roots childList with
  | nil =>
    refine congrArg some (Prod.ext (by simp) (List.ext_getElem? fun i => ?_))
    simp [List.getElem?_mapIdx]
  | cons e l ih =>
    obtain ⟨seg, segId⟩ := e
    cases hp : seg.parent with
    | none =>
      have hstep : addSegment (roots, childList) (seg, segId) = some (roots ++ [segId], childList) := by
        simp [addSegment, hp]
      rw [List.foldlM_cons, hstep, Option.bind_eq_bind, Option.bind_some,
        ih _ _ fun e he => hl e (List.mem_cons_of_mem _ he)]
      simp [hp]
    | some p =>
      have hpl : p < childList.length := hl _ List.mem_cons_self p hp
      have hstep : addSegment (roots, childList) (seg, segId) =
          some (roots, childList.modify p (· ++ [segId])) := by
        simp [addSegment, hp, hpl]
      rw [List.foldlM_cons, hstep, Option.bind_eq_bind, Option.bind_some,
        ih _ _ fun e he q hq => (List.length_modify _ _ _).symm ▸ hl e (List.mem_cons_of_mem _ he) q hq]
      refine congrArg some (Prod.ext (by simp [hp]) (List.ext_getElem? fun i => ?_))
      simp only [List.getElem?_mapIdx, List.getElem?_modify]
      cases childList[i]? <;> by_cases hpi : p = i <;> simp [hp, hpi]

/-- For a model whose parents are all segments, `calculate` builds the roots in increasing order
and, for every segment, the list of its children. -/
theorem buildChildList_eq {self : StorageModel}
    (hparent : ∀ j < self.segments.length, ∀ p, self.parentOf j = some p → p < self.segments.length) :
    buildChildList self.segments =
      some ((List.range self.segments.length).filter (fun j => self.parentOf j = none),
        (List.range self.segments.length).map
          (Forest.children self.parentOf self.segments.length)) := by
  have hl : ∀ e ∈ self.segments.zipIdx, ∀ p, e.1.parent = some p →
      p < (List.replicate self.segments.length ([] : List ℕ)).length := by
    intro e he p hp
    have hseg : self.segments[e.2]? = some e.1 := List.mem_zipIdx_iff_getElem?.1 he
    obtain ⟨hj, -⟩ := List.getElem?_eq_some_iff.1 hseg
    have hat : self.segAt e.2 = e.1 :=
      Option.some_inj.1 ((StorageModel.getElem?_segments hj).symm.trans hseg)
    rw [List.length_replicate]
    exact hparent e.2 hj p (by rw [StorageModel.parentOf, hat, hp])
  -- the entries that pass a test on their segment are the indices of the segments that pass it
  have hsel : ∀ q : Segment → Bool, (self.segments.zipIdx.filter fun e => q e.1).map Prod.snd =
      (List.range self.segments.length).filter fun j => q (self.segAt j) := by
    intro q
    simpa [StorageModel.segAt] using map_snd_filter_zipIdx q ⟨none, 0, none, false⟩ self.segments 0
  rw [buildChildList, foldlM_addSegment _ _ _ hl]
  refine congrArg some (Prod.ext ?_ (List.ext_getElem? fun i => ?_))
  · rw [List.nil_append]
    exact hsel fun s => decide (s.parent = none)
  · by_cases hi : i < self.segments.length
    · simp [hi, Forest.children, StorageModel.parentOf, hsel fun s => decide (s.parent = some i)]
    · simp [hi]

/-! ## `Option` loops -/

theorem mapM_eq_some_of_forall {α β : Type} {f : α → Option β} {g : α → β} :
    ∀ {l : List α}, (∀ a ∈ l, f a = some (g a)) → l.mapM f = some (l.map g)
  | [], _ => rfl
  | a :: l, h => by
    rw [List.mapM_cons, h a List.mem_cons_self,
      mapM_eq_some_of_forall fun b hb => h b (List.mem_cons_of_mem a hb)]
    rfl

theorem mapM_eq_none_of_mem {α β : Type} {f : α → Option β} {l : List α} {a : α} (ha : a ∈ l)
    (h : f a = none) : l.mapM f = none := by
  induction l with
  | nil => cases ha
  | cons b l ih =>
    rw [List.mapM_cons]
    rcases List.mem_cons.1 ha with rfl | ha'
    · rw [h]
      rfl
    · cases f b with
      | none => rfl
      | some x => simp [ih ha']

theorem foldlM_eq_some_foldl {α σ : Type} {f : σ → α → Option σ} {g : σ → α → σ} :
    ∀ {l : List α}, (∀ s, ∀ a ∈ l, f s a = some (g s a)) →
      ∀ init, List.foldlM f init l = some (List.foldl g init l)
  | [], _, _ => rfl
  | a :: l, h, init => by
    rw [List.foldlM_cons, h init a List.mem_cons_self, Option.bind_eq_bind, Option.bind_some,
      foldlM_eq_some_foldl fun s b hb => h s b (List.mem_cons_of_mem a hb)]
    rfl

/-! ## The choice at the end of `size_here` -/

section Cheapest

variable {here later : Option SegmentSize} {wal : SegmentSize}

theorem cheapest_nonIncremental_eq_none :
    (cheapest here later wal).nonIncremental = none ↔ here = none ∧ later = none := by
  cases later with
  | none => simp [cheapest]
  | some l =>
    cases here with
    | none => simp [cheapest]
    | some h =>
      simp only [cheapest]
      split_ifs <;> simp

/-- Without the parent, the choice is one of the two snapshot alternatives, and no dearer than
either. -/
theorem cheapest_nonIncremental_eq_some {t : SegmentSize}
    (h : (cheapest here later wal).nonIncremental = some t) :
    (here = some t ∨ later = some t) ∧
      (∀ x, here = some x → t.accumSize.toNat ≤ x.accumSize.toNat) ∧
      (∀ x, later = some x → t.accumSize.toNat ≤ x.accumSize.toNat) := by
  cases later with
  | none =>
    simp only [cheapest] at h
    subst h
    exact ⟨.inl rfl, fun x hx => by cases hx; exact le_rfl, fun x hx => by cases hx⟩
  | some l =>
    cases here with
    | none =>
      simp only [cheapest, Option.some.injEq] at h
      subst h
      exact ⟨.inr rfl, fun _ hx => (by cases hx), fun x hx => by cases hx; exact le_rfl⟩
    | some hh =>
      simp only [cheapest] at h
      split_ifs at h with hle
      · -- skipping is no dearer: `<=` keeps it
        cases h
        rw [UInt64.le_iff_toNat_le] at hle
        exact ⟨.inr rfl, fun x hx => by cases hx; exact hle, fun x hx => by cases hx; exact le_rfl⟩
      · cases h
        rw [UInt64.le_iff_toNat_le] at hle
        exact ⟨.inl rfl, fun x hx => by cases hx; exact le_rfl, fun x hx => by cases hx; omega⟩

theorem cheapest_incremental_eq : (cheapest here later wal).incremental =
    match (cheapest here later wal).nonIncremental with
    | some c => if wal.accumSize < c.accumSize then wal else c
    | none => wal := rfl

/-- With the parent, the choice is the WAL or the choice without the parent, and no dearer than
either. -/
theorem cheapest_incremental :
    ((cheapest here later wal).incremental = wal ∨
      (cheapest here later wal).nonIncremental = some (cheapest here later wal).incremental) ∧
    (cheapest here later wal).incremental.accumSize.toNat ≤ wal.accumSize.toNat ∧
    ∀ t, (cheapest here later wal).nonIncremental = some t →
      (cheapest here later wal).incremental.accumSize.toNat ≤ t.accumSize.toNat := by
  rw [cheapest_incremental_eq]
  cases hni : (cheapest here later wal).nonIncremental with
  | none => exact ⟨.inl rfl, le_rfl, fun t ht => by cases ht⟩
  | some c =>
    simp only
    by_cases hlt : wal.accumSize < c.accumSize
    · rw [if_pos hlt]
      rw [UInt64.lt_iff_toNat_lt] at hlt
      exact ⟨.inl rfl, le_rfl, fun t ht => by cases ht; omega⟩
    · rw [if_neg hlt]
      rw [UInt64.lt_iff_toNat_lt] at hlt
      exact ⟨.inr rfl, by omega, fun t ht => by cases ht; exact le_rfl⟩

end Cheapest

/-! ## The three methods, on the alternatives of the children -/

section Methods

variable {seg : Segment} {segId : ℕ} {cs : List ℕ} {A : ℕ → SizeAlternatives}

theorem snapshotHere_map :
    snapshotHere seg segId (cs.map A) =
      if seg.needed = false ∨ seg.parent = none then
        seg.size.map fun s =>
          ⟨.snapshotHere, addAccumSizes s (cs.map fun c => (A c).incremental), segId,
            cs.map fun c => (A c).incremental⟩
      else none := by
  unfold snapshotHere
  simp only [List.map_map, Function.comp_def]
  congr 1
  cases seg.needed <;> cases seg.parent <;> simp

/-- Skipping is possible exactly when the segment is not needed and every child has an
alternative without its parent. -/
theorem snapshotLater_map :
    snapshotLater seg segId (cs.map A) =
      if seg.needed = false ∧ ∀ c ∈ cs, (A c).nonIncremental.isSome then
        some ⟨.skipped, addAccumSizes 0 (cs.map fun c => (A c).nonIncremental.getD default), segId,
          cs.map fun c => (A c).nonIncremental.getD default⟩
      else none := by
  unfold snapshotLater
  by_cases hn : seg.needed = false
  · by_cases hall : ∀ c ∈ cs, (A c).nonIncremental.isSome
    · have hsel : (cs.map A).mapM SizeAlternatives.nonIncremental =
          some ((cs.map A).map fun alts => alts.nonIncremental.getD default) := by
        refine mapM_eq_some_of_forall fun alts halts => ?_
        obtain ⟨c, hc, rfl⟩ := List.mem_map.1 halts
        obtain ⟨t, ht⟩ := Option.isSome_iff_exists.1 (hall c hc)
        simp [ht]
      rw [if_pos (by simp [hn]), if_pos ⟨hn, hall⟩, hsel, List.map_map]
      rfl
    · obtain ⟨c, hc, hnone⟩ : ∃ c ∈ cs, (A c).nonIncremental = none := by
        push Not at hall
        simpa using hall
      rw [if_pos (by simp [hn]), if_neg fun h => hall h.2,
        mapM_eq_none_of_mem (List.mem_map_of_mem hc) hnone]
      rfl
  · rw [if_neg (by simpa using hn), if_neg fun h => hn h.1]

theorem walHere_map_of_parent {segments : List Segment} {p : ℕ} {parent : Segment}
    (hp : seg.parent = some p) (hparent : segments[p]? = some parent) :
    walHere segments seg segId (cs.map A) =
      some ⟨.wal, addAccumSizes (seg.lsn - parent.lsn) (cs.map fun c => (A c).incremental), segId,
        cs.map fun c => (A c).incremental⟩ := by
  simp [walHere, hp, hparent, List.map_map, Function.comp_def]

theorem walHere_map_of_root {segments : List Segment} (hp : seg.parent = none) :
    walHere segments seg segId (cs.map A) =
      some ⟨.wal, addAccumSizes 0 (cs.map fun c => (A c).incremental), segId,
        cs.map fun c => (A c).incremental⟩ := by
  simp [walHere, hp, List.map_map, Function.comp_def]

end Methods

/-! ## Unfolding the functions -/

namespace StorageModel

theorem sizeHere_succ {self : StorageModel} {fuel segId : ℕ} {childList : List (List ℕ)}
    {seg : Segment} {childIds : List ℕ} {children : List SizeAlternatives} {wal : SegmentSize}
    (hseg : self.segments[segId]? = some seg) (hids : childList[segId]? = some childIds)
    (hch : childIds.mapM (fun c => self.sizeHere fuel c childList) = some children)
    (hwal : walHere self.segments seg segId children = some wal) :
    self.sizeHere (fuel + 1) segId childList =
      some (cheapest (snapshotHere seg segId children) (snapshotLater seg segId children) wal) := by
  simp [sizeHere, hseg, hids, hch, hwal]

@[simp] theorem fillSelectedSizes_mk (method : SegmentMethod) (accumSize : UInt64) (segId : ℕ)
    (children : List SegmentSize) (result : List SegmentSizeResult) :
    fillSelectedSizes ⟨method, accumSize, segId, children⟩ result =
      fillChildren children (result.set segId ⟨method, accumSize⟩) := rfl

@[simp] theorem fillChildren_nil (result : List SegmentSizeResult) :
    fillChildren [] result = result := rfl

@[simp] theorem fillChildren_cons (child : SegmentSize) (children : List SegmentSize)
    (result : List SegmentSizeResult) :
    fillChildren (child :: children) result =
      fillChildren children (fillSelectedSizes child result) := rfl

theorem addRoot_eq {self : StorageModel} {fuel : ℕ} {childList : List (List ℕ)}
    {root : ℕ} {alts : SizeAlternatives} (h : self.sizeHere fuel root childList = some alts)
    (acc : UInt64 × List SegmentSizeResult) :
    self.addRoot fuel childList acc root =
      some (match alts.nonIncremental with
        | some selected => (acc.1 + selected.accumSize, fillSelectedSizes selected acc.2)
        | none => acc) := by
  simp only [addRoot, h, Option.bind_eq_bind, Option.bind_some]
  cases alts.nonIncremental <;> rfl

theorem calculate_eq {self : StorageModel} {roots : List ℕ} {childList : List (List ℕ)}
    (hb : buildChildList self.segments = some (roots, childList)) {total : UInt64}
    {segments : List SegmentSizeResult}
    (hl : List.foldlM (self.addRoot self.segments.length childList)
      (0, List.replicate self.segments.length ⟨.skipped, 0⟩) roots = some (total, segments)) :
    self.calculate = some ⟨total, segments⟩ := by
  simp [calculate, hb, hl]

end StorageModel

end TenantSizeModel

end NeonStorage
