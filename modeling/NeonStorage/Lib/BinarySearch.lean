import Mathlib

/-!
# Binary search over a sorted slice

`slice::binary_search_by` of Rust's standard library, on a list.  The loop keeps a window
`[left, right)`: every element before it compares `Less` and every element from its end on
compares `Greater`.  It probes the middle of the window and either returns `Ok(mid)` on
`Equal` or halves the window; when the window is empty it returns `Err(left)`.
`binary_search_by_key` compares a key of each element with the target.

When the comparator's answers go `Less`, then `Equal`, then `Greater` along the list
(`OrderedBy`), `Ok(i)` names an equal element (`binarySearchBy_ok`) and `Err(i)` the point
where the list splits into the elements below and above (`binarySearchBy_error`).  Over keys
that strictly increase (`StrictKeys`), this gives what a sorted map built on the list needs:
an equal key is found when there is one (`exists_binarySearchByKey_ok_iff`); inserting at
the `Err` point and erasing at the `Ok` point keep the keys increasing
(`StrictKeys.insertIdx`, `StrictKeys.eraseIdx`); and the elements at or below the target are
those before the point, with the one at `Ok(i)` (`filter_isLE_of_ok`, `filter_isLE_of_error`);
and no two elements share a key (`StrictKeys.eq_of_key_eq`).
Nothing here refers to the repository.
-/

namespace NeonStorage

namespace BinarySearch

variable {α β : Type*}

/-- `Ordering` with `Less < Equal < Greater`. -/
def rank : Ordering → ℕ
  | .lt => 0
  | .eq => 1
  | .gt => 2

/-- The loop of `binary_search_by` on the window `[left, right)`: the probe in its middle is
returned on `Equal`; on `Less` the window's start moves past it, on `Greater` its end moves to
it. -/
@[semireducible] def loop (xs : List α) (f : α → Ordering) (left right : ℕ)
    (h : right ≤ xs.length) :
    Except ℕ ℕ :=
  if hlt : left < right then
    let mid := left + (right - left) / 2
    have hmid : mid < xs.length := by omega
    match f xs[mid] with
    | .lt => loop xs f (mid + 1) right h
    | .eq => .ok mid
    | .gt => loop xs f left mid (by omega)
  else .error left
termination_by right - left

/-- `slice::binary_search_by`: `Ok` with the index of an element that compares `Equal`, or `Err`
with the index where such an element would go. -/
def binarySearchBy (xs : List α) (f : α → Ordering) : Except ℕ ℕ :=
  loop xs f 0 xs.length (Nat.le_refl _)

/-- `slice::binary_search_by_key`. -/
def binarySearchByKey [Ord β] (xs : List α) (b : β) (f : α → β) : Except ℕ ℕ :=
  binarySearchBy xs fun k => compare (f k) b

/-- Along the list, the comparator answers `Less`, then `Equal`, then `Greater`. -/
def OrderedBy (xs : List α) (f : α → Ordering) : Prop :=
  xs.Pairwise fun a b => rank (f a) ≤ rank (f b)

/-- The keys of the list strictly increase. -/
def StrictKeys [Ord β] (xs : List α) (f : α → β) : Prop :=
  xs.Pairwise fun a b => compare (f a) (f b) = .lt

/-! ## The loop -/

/-- What the loop knows of the window `[left, right)`. -/
structure Window (xs : List α) (f : α → Ordering) (left right : ℕ) : Prop where
  le : left ≤ right
  below : ∀ j (hj : j < xs.length), j < left → f xs[j] = .lt
  above : ∀ j (hj : j < xs.length), right ≤ j → f xs[j] = .gt

section Loop

variable {xs : List α} {f : α → Ordering}

theorem rank_eq_zero {o : Ordering} (h : rank o = 0) : o = .lt := by
  cases o <;> simp_all [rank]

theorem rank_eq_two {o : Ordering} (h : 2 ≤ rank o) : o = .gt := by
  cases o <;> simp_all [rank]

theorem OrderedBy.rank_le (hxs : OrderedBy xs f) {i j : ℕ} (hj : j < xs.length) (hij : i ≤ j) :
    rank (f xs[i]) ≤ rank (f xs[j]) := by
  rcases Nat.lt_or_eq_of_le hij with hlt | rfl
  · exact List.pairwise_iff_getElem.mp hxs i j (by omega) hj hlt
  · exact le_rfl

/-- A probe that answers `Less` moves the window's start past it. -/
theorem Window.of_lt (hxs : OrderedBy xs f) {left right mid : ℕ} (hw : Window xs f left right)
    (hmid : mid < xs.length) (hlt : mid < right) (hcmp : f xs[mid] = .lt) :
    Window xs f (mid + 1) right := by
  refine ⟨by omega, fun j hj hjm => rank_eq_zero ?_, hw.above⟩
  have := hxs.rank_le hmid (show j ≤ mid by omega)
  rw [hcmp] at this
  exact Nat.le_zero.mp this

/-- A probe that answers `Greater` moves the window's end to it. -/
theorem Window.of_gt (hxs : OrderedBy xs f) {left right mid : ℕ} (hw : Window xs f left right)
    (hle : left ≤ mid) (hcmp : ∀ h : mid < xs.length, f xs[mid] = .gt) :
    Window xs f left mid := by
  refine ⟨hle, hw.below, fun j hj hmj => rank_eq_two ?_⟩
  have := hxs.rank_le hj hmj
  rwa [hcmp (by omega)] at this

/-- The loop's answers are in range, whatever the comparator. -/
theorem loop_bounds (left right : ℕ) (h : right ≤ xs.length) (hle : left ≤ right) :
    (∀ i, loop xs f left right h = .ok i → i < xs.length) ∧
      ∀ i, loop xs f left right h = .error i → i ≤ xs.length := by
  fun_induction loop xs f left right h with
  | case1 left right h hlt mid hmid hc ih => exact ih (by omega)
  | case2 left right h hlt mid hmid hc =>
    refine ⟨fun i hi => ?_, fun i hi => nomatch hi⟩
    cases hi
    exact hmid
  | case3 left right h hlt mid hmid hc ih => exact ih (by omega)
  | case4 left right h hlt =>
    refine ⟨fun i hi => (nomatch hi), fun i hi => ?_⟩
    cases hi
    omega

/-- The loop answers `Ok` only at an element that compares `Equal`, and `Err` only at a point
where the window has closed. -/
theorem loop_spec (hxs : OrderedBy xs f) (left right : ℕ) (h : right ≤ xs.length)
    (hw : Window xs f left right) :
    (∀ i, loop xs f left right h = .ok i → ∃ hi : i < xs.length, f xs[i] = .eq) ∧
      ∀ i, loop xs f left right h = .error i → Window xs f i i ∧ i ≤ xs.length := by
  fun_induction loop xs f left right h with
  | case1 left right h hlt mid hmid hc ih =>
    -- the probe compares `Less`
    exact ih (hw.of_lt hxs hmid (by omega) hc)
  | case2 left right h hlt mid hmid hc =>
    -- the probe compares `Equal`: the loop returns it
    refine ⟨fun i hi => ?_, fun i hi => nomatch hi⟩
    cases hi
    exact ⟨hmid, hc⟩
  | case3 left right h hlt mid hmid hc ih =>
    -- the probe compares `Greater`
    exact ih (hw.of_gt hxs (by omega) fun _ => hc)
  | case4 left right h hlt =>
    refine ⟨fun i hi => (nomatch hi), fun i hi => ?_⟩
    cases hi
    have hle := hw.le
    exact ⟨⟨le_rfl, hw.below, fun j hj hlj => hw.above j hj (by omega)⟩, by omega⟩

end Loop

/-! ## What the search returns -/

section Search

variable {xs : List α} {f : α → Ordering} {i : ℕ}

theorem window_full (xs : List α) (f : α → Ordering) : Window xs f 0 xs.length :=
  ⟨Nat.zero_le _, fun _ _ h => absurd h (Nat.not_lt_zero _), fun j hj h => absurd hj (by omega)⟩

theorem lt_of_binarySearchBy_ok (h : binarySearchBy xs f = .ok i) : i < xs.length :=
  (loop_bounds 0 xs.length le_rfl (Nat.zero_le _)).1 i h

theorem le_of_binarySearchBy_error (h : binarySearchBy xs f = .error i) : i ≤ xs.length :=
  (loop_bounds 0 xs.length le_rfl (Nat.zero_le _)).2 i h

/-- `Ok(i)` names an element that compares `Equal`. -/
theorem binarySearchBy_ok (hxs : OrderedBy xs f) (h : binarySearchBy xs f = .ok i) :
    ∃ hi : i < xs.length, f xs[i] = .eq :=
  (loop_spec hxs 0 xs.length le_rfl (window_full xs f)).1 i h

/-- `Err(i)` splits the list into the elements that compare `Less` and those that compare
`Greater`. -/
theorem binarySearchBy_error (hxs : OrderedBy xs f) (h : binarySearchBy xs f = .error i) :
    i ≤ xs.length ∧ (∀ x ∈ xs.take i, f x = .lt) ∧ ∀ x ∈ xs.drop i, f x = .gt := by
  obtain ⟨hw, hi⟩ := (loop_spec hxs 0 xs.length le_rfl (window_full xs f)).2 i h
  refine ⟨hi, fun x hx => ?_, fun x hx => ?_⟩
  · obtain ⟨j, hj, rfl⟩ := List.getElem_of_mem hx
    rw [List.getElem_take]
    exact hw.below j (by simp at hj; omega) (by simp at hj; omega)
  · obtain ⟨j, hj, rfl⟩ := List.getElem_of_mem hx
    rw [List.getElem_drop]
    exact hw.above (i + j) (by simp at hj; omega) (by omega)

example : binarySearchBy [1, 3, 5, 7] (fun x => compare x 4) = .error 2 := by decide

end Search

/-! ## Strictly increasing keys -/

section Keys

variable [Ord β] {xs : List α} {f : α → β} {b : β} {i : ℕ}

/-- Over strictly increasing keys, the comparisons with any target go `Less`, `Equal`,
`Greater`. -/
theorem StrictKeys.orderedBy [Std.TransOrd β] (hxs : StrictKeys xs f) (b : β) :
    OrderedBy xs fun k => compare (f k) b := by
  refine hxs.imp fun {x y} hxy => ?_
  dsimp only
  cases hy : compare (f y) b with
  | lt => rw [Std.TransCmp.lt_trans hxy hy]
  | eq => rw [Std.TransCmp.lt_of_lt_of_eq hxy hy]; simp [rank]
  | gt => cases compare (f x) b <;> simp [rank]

/-- Over strictly increasing keys, an equal key is found exactly when the list has one. -/
theorem exists_binarySearchByKey_ok_iff [Std.TransOrd β] [Std.LawfulEqOrd β]
    (hxs : StrictKeys xs f) :
    (∃ i, binarySearchByKey xs b f = .ok i) ↔ ∃ x ∈ xs, f x = b := by
  constructor
  · rintro ⟨i, hi⟩
    obtain ⟨hlt, heq⟩ := binarySearchBy_ok (hxs.orderedBy b) hi
    exact ⟨xs[i], List.getElem_mem hlt, Std.LawfulEqCmp.eq_of_compare heq⟩
  · rintro ⟨x, hx, rfl⟩
    cases hs : binarySearchByKey xs (f x) f with
    | ok i => exact ⟨i, rfl⟩
    | error i =>
      -- `x` itself would compare `Less` or `Greater` with its own key
      obtain ⟨-, hbelow, habove⟩ := binarySearchBy_error (hxs.orderedBy (f x)) hs
      rw [← List.take_append_drop i xs, List.mem_append] at hx
      rcases hx with hx | hx
      · exact absurd (hbelow x hx) (by simp)
      · exact absurd (habove x hx) (by simp)

theorem insertIdx_eq_take_append_drop (xs : List α) (x : α) (hi : i ≤ xs.length) :
    xs.insertIdx i x = xs.take i ++ x :: xs.drop i := by
  induction xs generalizing i with
  | nil =>
    obtain rfl : i = 0 := Nat.le_zero.mp hi
    rfl
  | cons y ys ih =>
    cases i with
    | zero => rfl
    | succ i =>
      rw [List.insertIdx_succ_cons, ih (by simpa using hi)]
      rfl

/-- Inserting at the `Err` point of the element's own key keeps the keys increasing. -/
theorem StrictKeys.insertIdx [Std.TransOrd β] (hxs : StrictKeys xs f) {x : α}
    (h : binarySearchByKey xs (f x) f = .error i) : StrictKeys (xs.insertIdx i x) f := by
  obtain ⟨hi, hbelow, habove⟩ := binarySearchBy_error (hxs.orderedBy (f x)) h
  have hsplit := List.take_append_drop i xs
  unfold StrictKeys at hxs ⊢
  rw [insertIdx_eq_take_append_drop xs x hi]
  rw [← hsplit, List.pairwise_append] at hxs
  obtain ⟨htake, hdrop, hcross⟩ := hxs
  refine List.pairwise_append.mpr ⟨htake, List.pairwise_cons.mpr ⟨fun y hy => ?_, hdrop⟩,
    fun y hy z hz => ?_⟩
  · exact Std.OrientedCmp.gt_iff_lt.mp (habove y hy)
  · rcases List.mem_cons.mp hz with rfl | hz
    · exact hbelow y hy
    · exact hcross y hy z hz

/-- Erasing an element keeps the keys increasing. -/
theorem StrictKeys.eraseIdx (hxs : StrictKeys xs f) (i : ℕ) : StrictKeys (xs.eraseIdx i) f :=
  hxs.sublist (List.eraseIdx_sublist xs i)

/-- Over strictly increasing keys, `Ok(i)` splits the list around the one element with the
target key. -/
theorem split_of_ok [Std.TransOrd β] [Std.LawfulEqOrd β] (hxs : StrictKeys xs f)
    (h : binarySearchByKey xs b f = .ok i) :
    ∃ hi : i < xs.length, f xs[i] = b ∧ (∀ x ∈ xs.take i, compare (f x) b = .lt) ∧
      ∀ x ∈ xs.drop (i + 1), compare (f x) b = .gt := by
  obtain ⟨hi, heq⟩ := binarySearchBy_ok (hxs.orderedBy b) h
  have hkey : f xs[i] = b := Std.LawfulEqCmp.eq_of_compare heq
  have hsplit : xs.take i ++ xs[i] :: xs.drop (i + 1) = xs := by simp
  have hxs' := hxs
  unfold StrictKeys at hxs'
  rw [← hsplit, List.pairwise_append, List.pairwise_cons] at hxs'
  obtain ⟨-, ⟨hafter, -⟩, hbefore⟩ := hxs'
  refine ⟨hi, hkey, fun x hx => ?_, fun x hx => ?_⟩
  · rw [← hkey]
    exact hbefore x hx xs[i] List.mem_cons_self
  · rw [← hkey]
    exact Std.OrientedCmp.gt_iff_lt.mpr (hafter x hx)

theorem compare_self_eq [Std.ReflOrd β] (b : β) : compare b b = .eq := Std.ReflCmp.compare_self

/-- Over strictly increasing keys, no two elements share a key. -/
theorem StrictKeys.eq_of_key_eq [Std.ReflOrd β] (hxs : StrictKeys xs f) {x y : α} (hx : x ∈ xs)
    (hy : y ∈ xs) (h : f x = f y) : x = y := by
  induction xs with
  | nil => cases hx
  | cons a rest ih =>
    rw [StrictKeys, List.pairwise_cons] at hxs
    obtain ⟨ha, hrest⟩ := hxs
    rcases List.mem_cons.mp hx with rfl | hx' <;> rcases List.mem_cons.mp hy with rfl | hy'
    · rfl
    · have := ha y hy'
      rw [h, compare_self_eq] at this
      cases this
    · have := ha x hx'
      rw [← h, compare_self_eq] at this
      cases this
    · exact ih hrest hx' hy'

/-- Erasing at the `Ok` point removes exactly the element with the target key. -/
theorem mem_eraseIdx_of_ok [Std.TransOrd β] [Std.LawfulEqOrd β] (hxs : StrictKeys xs f)
    (h : binarySearchByKey xs b f = .ok i)
    {x : α} : x ∈ xs.eraseIdx i ↔ x ∈ xs ∧ f x ≠ b := by
  obtain ⟨hi, hkey, hbelow, habove⟩ := split_of_ok hxs h
  rw [List.eraseIdx_eq_take_drop_succ, List.mem_append]
  constructor
  · rintro (hx | hx)
    · refine ⟨List.mem_of_mem_take hx, fun hfx => ?_⟩
      have := hbelow x hx
      rw [hfx, compare_self_eq] at this
      cases this
    · refine ⟨List.mem_of_mem_drop hx, fun hfx => ?_⟩
      have := habove x hx
      rw [hfx, compare_self_eq] at this
      cases this
  · rintro ⟨hx, hfx⟩
    have hsplit : xs = xs.take i ++ xs[i] :: xs.drop (i + 1) := by simp
    rw [hsplit, List.mem_append, List.mem_cons] at hx
    rcases hx with hx | rfl | hx
    · exact .inl hx
    · exact absurd hkey hfx
    · exact .inr hx

/-- At `Ok(i)`, the elements at or below the target are the first `i + 1`. -/
theorem filter_isLE_of_ok [Std.TransOrd β] [Std.LawfulEqOrd β] (hxs : StrictKeys xs f)
    (h : binarySearchByKey xs b f = .ok i) :
    xs.filter (fun x => (compare (f x) b).isLE) = xs.take (i + 1) := by
  obtain ⟨hi, hkey, hbelow, habove⟩ := split_of_ok hxs h
  have hsplit : xs = xs.take i ++ xs[i] :: xs.drop (i + 1) := by simp
  conv_lhs => rw [hsplit]
  rw [List.filter_append, List.filter_cons, List.filter_eq_self.mpr fun x hx => by
      simp [hbelow x hx], List.filter_eq_nil_iff.mpr fun x hx => by simp [habove x hx],
    List.take_add_one, List.getElem?_eq_getElem hi]
  simp [hkey]

/-- At `Err(i)`, the elements at or below the target are the first `i`. -/
theorem filter_isLE_of_error [Std.TransOrd β] (hxs : StrictKeys xs f)
    (h : binarySearchByKey xs b f = .error i) :
    xs.filter (fun x => (compare (f x) b).isLE) = xs.take i := by
  obtain ⟨-, hbelow, habove⟩ := binarySearchBy_error (hxs.orderedBy b) h
  conv_lhs => rw [← List.take_append_drop i xs]
  rw [List.filter_append, List.filter_eq_self.mpr fun x hx => by simp [hbelow x hx],
    List.filter_eq_nil_iff.mpr fun x hx => by simp [habove x hx], List.append_nil]

end Keys

end BinarySearch

end NeonStorage
