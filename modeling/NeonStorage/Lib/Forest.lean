import Mathlib

/-!
# Forests given by parent links

An array of records that each name their parent by index, or none, describes a forest on the
indices `0, …, n - 1` when every parent is an index and no chain of parent links returns to
where it started (`IsForest`).  This module gives, for such a `parent : ℕ → Option ℕ`, the `k`-th
ancestor of a node, the children of a node in increasing order, and the subtree below a node as
a finite set, with what a recursion from a node down to its children needs:

* `ancestor_eq_none`: the chain of ancestors of a node ends within `n` links, so a recursion
  that follows child links from any node ends within `n` calls;
* `mem_subtree_iff` and `sum_subtree`: the subtree of a node is the node and the subtrees of its
  children, and these are disjoint (`disjoint_subtree_children`);
* `glue`: a function on the subtree of a node built from one function per child.
-/

namespace NeonStorage

namespace Forest

variable (parent : ℕ → Option ℕ) (n : ℕ)

/-- The `k`-th ancestor of `i`: `parent` followed `k` times. -/
def ancestor : ℕ → ℕ → Option ℕ
  | 0, i => some i
  | k + 1, i => (ancestor k i).bind parent

/-- The parent links of the nodes below `n` form a forest: every parent is a node, and no chain
of parent links leads back to the node it started from. -/
structure IsForest : Prop where
  parent_lt : ∀ i < n, ∀ p, parent i = some p → p < n
  acyclic : ∀ i < n, ∀ k, ancestor parent (k + 1) i ≠ some i

/-- The children of `i`, in increasing order. -/
def children (i : ℕ) : List ℕ := (List.range n).filter fun j => parent j = some i

open Classical in
/-- The nodes that reach `i` by parent links, `i` among them. -/
noncomputable def subtree (i : ℕ) : Finset ℕ :=
  (Finset.range n).filter fun j => ∃ k, ancestor parent k j = some i

variable {parent n}

/-! ## Ancestors -/

theorem ancestor_succ (k i : ℕ) :
    ancestor parent (k + 1) i = (ancestor parent k i).bind parent := rfl

/-- The `k + 1`-th ancestor of `i` is the `k`-th ancestor of its parent. -/
theorem ancestor_succ' (k i : ℕ) :
    ancestor parent (k + 1) i = (parent i).bind (ancestor parent k) := by
  induction k with
  | zero =>
    show parent i = (parent i).bind some
    cases parent i <;> rfl
  | succ k ih => rw [ancestor_succ, ih, Option.bind_assoc]; rfl

theorem ancestor_add (a b i : ℕ) :
    ancestor parent (a + b) i = (ancestor parent a i).bind (ancestor parent b) := by
  induction b with
  | zero => cases ancestor parent a i <;> rfl
  | succ b ih => rw [← Nat.add_assoc, ancestor_succ, ih, Option.bind_assoc]; rfl

theorem ancestor_of_parent {j p : ℕ} (h : parent j = some p) (k : ℕ) :
    ancestor parent (k + 1) j = ancestor parent k p := by
  rw [ancestor_succ', h]
  rfl

theorem ancestor_of_root {r : ℕ} (h : parent r = none) (k : ℕ) :
    ancestor parent (k + 1) r = none := by
  rw [ancestor_succ', h]
  rfl

/-- A node with no `k`-th ancestor has none further up. -/
theorem ancestor_eq_none_of_le {i a b : ℕ} (hab : a ≤ b) (h : ancestor parent a i = none) :
    ancestor parent b i = none := by
  obtain ⟨d, rfl⟩ := Nat.exists_eq_add_of_le hab
  rw [ancestor_add, h]
  rfl

theorem ancestor_lt (hF : IsForest parent n) {i : ℕ} (hi : i < n) :
    ∀ {k j}, ancestor parent k i = some j → j < n
  | 0, j, h => by
    cases h
    exact hi
  | k + 1, j, h => by
    rw [ancestor_succ] at h
    obtain ⟨x, hx, hj⟩ := Option.bind_eq_some_iff.mp h
    exact hF.parent_lt x (ancestor_lt hF hi hx) j hj

/-- A node is met at most once on the chain of ancestors of `i`. -/
theorem ancestor_injective (hF : IsForest parent n) {i x a b : ℕ} (hi : i < n)
    (ha : ancestor parent a i = some x) (hb : ancestor parent b i = some x) : a = b := by
  -- the later meeting would make `x` its own ancestor
  have later : ∀ {a b}, a < b → ancestor parent a i = some x → ancestor parent b i ≠ some x := by
    intro a b hab ha hb
    obtain ⟨d, rfl⟩ := Nat.exists_eq_add_of_lt hab
    rw [show a + d + 1 = a + (d + 1) from rfl, ancestor_add, ha] at hb
    exact hF.acyclic x (ancestor_lt hF hi ha) d hb
  rcases lt_trichotomy a b with h | h | h
  · exact absurd hb (later h ha)
  · exact h
  · exact absurd ha (later h hb)

/-- The chain of ancestors of a node ends within `n` links: its links are distinct nodes. -/
theorem ancestor_eq_none (hF : IsForest parent n) {i : ℕ} (hi : i < n) :
    ancestor parent n i = none := by
  by_contra hne
  have hsome : ∀ k : Fin (n + 1), ∃ x, ancestor parent k i = some x ∧ x < n := by
    intro k
    cases h : ancestor parent k i with
    | none => exact absurd (ancestor_eq_none_of_le (Nat.le_of_lt_succ k.isLt) h) hne
    | some x => exact ⟨x, rfl, ancestor_lt hF hi h⟩
  choose f hf using hsome
  have hinj : Function.Injective fun k => (⟨f k, (hf k).2⟩ : Fin n) := by
    intro a b hab
    have hx : f a = f b := Fin.mk.inj hab
    exact Fin.ext (ancestor_injective hF hi (hf a).1 (hx ▸ (hf b).1))
  simpa using Fintype.card_le_of_injective _ hinj

/-- The form `ancestor_eq_none` takes in a recursion on fuel: if no node reaches `i` in `k + 1`
links, none reaches a child of `i` in `k`. -/
theorem ancestor_ne_of_child {i c k : ℕ} (hc : parent c = some i)
    (h : ∀ d < n, ancestor parent (k + 1) d ≠ some i) : ∀ d < n, ancestor parent k d ≠ some c := by
  intro d hd hdc
  apply h d hd
  rw [ancestor_succ, hdc]
  exact hc

/-! ## Children and subtrees -/

@[simp] theorem mem_children {i c : ℕ} : c ∈ children parent n i ↔ c < n ∧ parent c = some i := by
  simp [children]

theorem nodup_children (i : ℕ) : (children parent n i).Nodup :=
  List.nodup_range.filter _

@[simp] theorem mem_subtree {i j : ℕ} :
    j ∈ subtree parent n i ↔ j < n ∧ ∃ k, ancestor parent k j = some i := by
  simp [subtree]

theorem self_mem_subtree {i : ℕ} (hi : i < n) : i ∈ subtree parent n i :=
  mem_subtree.2 ⟨hi, 0, rfl⟩

theorem lt_of_mem_subtree {i j : ℕ} (h : j ∈ subtree parent n i) : j < n :=
  (mem_subtree.1 h).1

theorem subtree_subset_of_mem {i j : ℕ} (h : j ∈ subtree parent n i) :
    subtree parent n j ⊆ subtree parent n i := by
  intro x hx
  obtain ⟨hxn, a, ha⟩ := mem_subtree.1 hx
  obtain ⟨-, b, hb⟩ := mem_subtree.1 h
  exact mem_subtree.2 ⟨hxn, a + b, by rw [ancestor_add, ha]; exact hb⟩

theorem mem_subtree_of_child {i c : ℕ} (hc : c ∈ children parent n i) :
    c ∈ subtree parent n i := by
  obtain ⟨hcn, hci⟩ := mem_children.1 hc
  exact mem_subtree.2 ⟨hcn, 1, hci⟩

theorem subtree_subset_of_child {i c : ℕ} (hc : c ∈ children parent n i) :
    subtree parent n c ⊆ subtree parent n i :=
  subtree_subset_of_mem (mem_subtree_of_child hc)

/-- Inside a subtree, the parent of every node but the top is in the subtree. -/
theorem parent_mem_subtree (hF : IsForest parent n) {i j p : ℕ} (hj : j ∈ subtree parent n i)
    (hne : j ≠ i) (hp : parent j = some p) : p ∈ subtree parent n i := by
  obtain ⟨hjn, k, hk⟩ := mem_subtree.1 hj
  cases k with
  | zero => exact absurd (Option.some.inj hk) hne
  | succ k =>
    rw [ancestor_of_parent hp] at hk
    exact mem_subtree.2 ⟨hF.parent_lt j hjn p hp, k, hk⟩

/-- A node is not below any of its children. -/
theorem not_mem_subtree_of_child (hF : IsForest parent n) {i c : ℕ}
    (hc : c ∈ children parent n i) : i ∉ subtree parent n c := by
  intro hi
  obtain ⟨-, k, hk⟩ := mem_subtree.1 hi
  obtain ⟨hcn, hci⟩ := mem_children.1 hc
  apply hF.acyclic i (hF.parent_lt c hcn i hci) k
  rw [ancestor_succ, hk]
  exact hci

/-- Two subtrees that share a node are nested. -/
theorem mem_subtree_or_mem_subtree (hF : IsForest parent n) {x y j : ℕ}
    (hx : j ∈ subtree parent n x) (hy : j ∈ subtree parent n y) :
    x ∈ subtree parent n y ∨ y ∈ subtree parent n x := by
  obtain ⟨hjn, a, ha⟩ := mem_subtree.1 hx
  obtain ⟨-, b, hb⟩ := mem_subtree.1 hy
  rcases le_total a b with hab | hab
  · obtain ⟨d, rfl⟩ := Nat.exists_eq_add_of_le hab
    rw [ancestor_add, ha] at hb
    exact .inl (mem_subtree.2 ⟨ancestor_lt hF hjn ha, d, hb⟩)
  · obtain ⟨d, rfl⟩ := Nat.exists_eq_add_of_le hab
    rw [ancestor_add, hb] at ha
    exact .inr (mem_subtree.2 ⟨ancestor_lt hF hjn hb, d, ha⟩)

/-- A root is below no other node. -/
theorem eq_of_root_mem_subtree {r y : ℕ} (hr : parent r = none) (h : r ∈ subtree parent n y) :
    r = y := by
  obtain ⟨-, k, hk⟩ := mem_subtree.1 h
  cases k with
  | zero => exact Option.some.inj hk
  | succ k => rw [ancestor_of_root hr] at hk; cases hk

theorem disjoint_subtree_roots (hF : IsForest parent n) {r r' : ℕ} (hr : parent r = none)
    (hr' : parent r' = none) (hne : r ≠ r') :
    Disjoint (subtree parent n r) (subtree parent n r') := by
  rw [Finset.disjoint_left]
  intro j hj hj'
  rcases mem_subtree_or_mem_subtree hF hj hj' with h | h
  · exact hne (eq_of_root_mem_subtree hr h)
  · exact hne (eq_of_root_mem_subtree hr' h).symm

theorem disjoint_subtree_children (hF : IsForest parent n) {i c c' : ℕ}
    (hc : c ∈ children parent n i) (hc' : c' ∈ children parent n i) (hne : c ≠ c') :
    Disjoint (subtree parent n c) (subtree parent n c') := by
  -- were one child below the other, `i` would be below the lower one
  have nested : ∀ {a b}, a ∈ children parent n i → b ∈ children parent n i → a ≠ b →
      a ∉ subtree parent n b := by
    intro a b ha hb hab habs
    obtain ⟨-, k, hk⟩ := mem_subtree.1 habs
    cases k with
    | zero => exact hab (Option.some.inj hk)
    | succ k =>
      obtain ⟨han, hai⟩ := mem_children.1 ha
      rw [ancestor_of_parent hai] at hk
      exact not_mem_subtree_of_child hF hb (mem_subtree.2 ⟨hF.parent_lt a han i hai, k, hk⟩)
  rw [Finset.disjoint_left]
  intro j hj hj'
  rcases mem_subtree_or_mem_subtree hF hj hj' with h | h
  · exact nested hc hc' hne h
  · exact nested hc' hc (Ne.symm hne) h

/-- The subtree of a node is the node and the subtrees of its children. -/
theorem mem_subtree_iff (hF : IsForest parent n) {i j : ℕ} (hi : i < n) :
    j ∈ subtree parent n i ↔ j = i ∨ ∃ c ∈ children parent n i, j ∈ subtree parent n c := by
  constructor
  · intro hj
    obtain ⟨hjn, k, hk⟩ := mem_subtree.1 hj
    cases k with
    | zero => exact .inl (Option.some.inj hk)
    | succ k =>
      -- the `k`-th ancestor of `j` is the child of `i` on its way up
      rw [ancestor_succ] at hk
      obtain ⟨c, hc, hci⟩ := Option.bind_eq_some_iff.mp hk
      exact .inr ⟨c, mem_children.2 ⟨ancestor_lt hF hjn hc, hci⟩, mem_subtree.2 ⟨hjn, k, hc⟩⟩
  · rintro (rfl | ⟨c, hc, hj⟩)
    · exact self_mem_subtree hi
    · exact subtree_subset_of_child hc hj

theorem subtree_subset_range (i : ℕ) : subtree parent n i ⊆ Finset.range n :=
  fun _ hj => Finset.mem_range.2 (lt_of_mem_subtree hj)

theorem subtree_eq (hF : IsForest parent n) {i : ℕ} (hi : i < n) :
    subtree parent n i = insert i ((children parent n i).toFinset.biUnion (subtree parent n)) := by
  ext j
  rw [mem_subtree_iff hF hi, Finset.mem_insert, Finset.mem_biUnion]
  simp only [List.mem_toFinset]

/-- A sum over a subtree is the term of its top and the sums over the subtrees of the
children. -/
theorem sum_subtree {M : Type*} [AddCommMonoid M] (hF : IsForest parent n) {i : ℕ} (hi : i < n)
    (f : ℕ → M) :
    ∑ j ∈ subtree parent n i, f j =
      f i + ((children parent n i).map fun c => ∑ j ∈ subtree parent n c, f j).sum := by
  have hnot : i ∉ (children parent n i).toFinset.biUnion (subtree parent n) := by
    simp only [Finset.mem_biUnion, List.mem_toFinset, not_exists, not_and]
    exact fun c hc => not_mem_subtree_of_child hF hc
  have hdisj : ((children parent n i).toFinset : Set ℕ).PairwiseDisjoint (subtree parent n) := by
    intro c hc c' hc' hne
    exact disjoint_subtree_children hF (List.mem_toFinset.1 hc) (List.mem_toFinset.1 hc') hne
  rw [subtree_eq hF hi, Finset.sum_insert hnot, Finset.sum_biUnion hdisj,
    List.sum_toFinset _ (nodup_children i)]

/-- The subtrees of distinct roots lie side by side among the nodes. -/
theorem sum_sum_subtree_roots_le {M : Type*} [AddCommMonoid M] [PartialOrder M]
    [CanonicallyOrderedAdd M] (hF : IsForest parent n) {R : Finset ℕ}
    (hR : ∀ r ∈ R, parent r = none) (f : ℕ → M) :
    ∑ r ∈ R, ∑ j ∈ subtree parent n r, f j ≤ ∑ j ∈ Finset.range n, f j := by
  have hdisj : (R : Set ℕ).PairwiseDisjoint (subtree parent n) :=
    fun r hr r' hr' hne => disjoint_subtree_roots hF (hR r hr) (hR r' hr') hne
  rw [← Finset.sum_biUnion hdisj]
  exact Finset.sum_le_sum_of_subset (Finset.biUnion_subset.2 fun r _ => subtree_subset_range r)

/-! ## Functions built child by child -/

section Glue

variable (parent n) {α : Type*}

/-- The function that is `a` at `i` and `F c` on the subtree of each child `c` of `i`. -/
noncomputable def glue (i : ℕ) (a : α) (F : ℕ → ℕ → α) (j : ℕ) : α :=
  if j = i then a else
    match (children parent n i).find? fun c => decide (j ∈ subtree parent n c) with
    | some c => F c j
    | none => a

variable {parent n}

@[simp] theorem glue_self (i : ℕ) (a : α) (F : ℕ → ℕ → α) : glue parent n i a F i = a := by
  simp [glue]

theorem glue_of_mem (hF : IsForest parent n) {i c j : ℕ} (a : α) (F : ℕ → ℕ → α)
    (hc : c ∈ children parent n i) (hj : j ∈ subtree parent n c) : glue parent n i a F j = F c j := by
  have hji : j ≠ i := by
    rintro rfl
    exact not_mem_subtree_of_child hF hc hj
  unfold glue
  rw [if_neg hji]
  split
  · -- the child found is `c`, since the subtrees of two children do not meet
    next c' hfind =>
    have hc' := List.mem_of_find?_eq_some hfind
    have hj' : j ∈ subtree parent n c' := by simpa using List.find?_some hfind
    by_cases hcc : c' = c
    · rw [hcc]
    · exact absurd hj (Finset.disjoint_left.1 (disjoint_subtree_children hF hc' hc hcc) hj')
  · next hfind =>
    exact absurd hj (by simpa using List.find?_eq_none.1 hfind c hc)

end Glue

/-! ## Forests listed parents first -/

/-- Links that always lead to a smaller node make a forest. -/
theorem IsForest.of_parent_lt (h : ∀ i < n, ∀ p, parent i = some p → p < i) :
    IsForest parent n := by
  -- the chain of ancestors of a node falls strictly
  have hdown : ∀ k i, i < n → ∀ j, ancestor parent (k + 1) i = some j → j < i := by
    intro k
    induction k with
    | zero =>
      intro i hi j hj
      exact h i hi j hj
    | succ k ih =>
      intro i hi j hj
      rw [ancestor_succ] at hj
      obtain ⟨x, hx, hxj⟩ := Option.bind_eq_some_iff.mp hj
      have hxi := ih i hi x hx
      exact (h x (hxi.trans hi) j hxj).trans hxi
  exact ⟨fun i hi p hp => (h i hi p hp).trans hi, fun i hi k hk => lt_irrefl i (hdown k i hi i hk)⟩

end Forest

end NeonStorage
