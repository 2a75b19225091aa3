import Mathlib
/-!
# Slices: ranges and binary search

Two operations of Rust's `[T]` on lists: taking the subslice `&xs[start..end]`, which panics
unless `start ≤ end ≤ xs.len()`, and `binary_search_by`, as the standard library of Rust 1.76
runs it.  A search keeps the window `left..right` still to be searched, probes its middle and
returns `Ok(mid)` at the first element it finds `Equal`, or `Err(left)` once the window is empty.

`answers_binarySearchBy` says what the search returns when `f` is `Less` on a prefix of the list
and `Greater` on a suffix (`Partitioned`); `binarySearchByKey_eq` says it for a list whose keys
increase strictly: the number of keys below the one sought, as `Ok` if that key is present.
Cutting such a list at the number of elements with a property that holds on a prefix keeps
exactly those elements (`take_countP`, `drop_countP`).  `Bound` is `std::ops::Bound`, with the
membership test of `RangeBounds::contains`.  Nothing here refers to the repository.
-/

namespace NeonStorage

namespace Slice

variable {α : Type*}

/-- `&xs[start..end]`. -/
def index (xs : List α) (start «end» : ℕ) : Except String (List α) :=
  if start > «end» then
    .error ("slice index starts at " ++ toString start ++ " but ends at " ++ toString «end»)
  else if «end» > xs.length then
    .error ("range end index " ++ toString «end» ++ " out of range for slice of length " ++
      toString xs.length)
  else .ok ((xs.take «end»).drop start)

/-- `xs[i]`, which panics out of range. -/
def get (xs : List α) (i : ℕ) : Except String α :=
  if h : i < xs.length then .ok xs[i]
  else .error ("index out of bounds: the len is " ++ toString xs.length ++ " but the index is " ++
    toString i)

theorem get_of_lt {xs : List α} {i : ℕ} (h : i < xs.length) : get xs i = .ok xs[i] := by
  rw [get, dif_pos h]

/-! ## Binary search -/

/-- The loop of `<[T]>::binary_search_by`.  The code keeps `size = right - left` beside the
window and moves `left` or `right` by conditional moves; an `Equal` probe returns at once. -/
def searchLoop (xs : List α) (f : α → Ordering) (left right : ℕ) (hright : right ≤ xs.length) :
    Except ℕ ℕ :=
  if h : left < right then
    let mid := left + (right - left) / 2
    have hmid : mid < xs.length := by omega
    match f (xs.get ⟨mid, hmid⟩) with
    | .lt => searchLoop xs f (mid + 1) right hright
    | .gt => searchLoop xs f left mid (by omega)
    | .eq => .ok mid
  else .error left
termination_by right - left

/-- `<[T]>::binary_search_by`: `Ok` with the index of an element `f` finds `Equal`, or `Err`
with the index where such an element would go. -/
def binarySearchBy (xs : List α) (f : α → Ordering) : Except ℕ ℕ :=
  searchLoop xs f 0 xs.length le_rfl

/-- `<[T]>::binary_search_by_key`. -/
def binarySearchByKey {β : Type*} [Ord β] (xs : List α) (b : β) (key : α → β) : Except ℕ ℕ :=
  binarySearchBy xs fun x => compare (key x) b

/-- `Result::unwrap_or_else(identity)` on the result of a search: the index either way. -/
def unwrapOrIdentity : Except ℕ ℕ → ℕ
  | .ok i => i
  | .error i => i

/-- `match r { Ok(idx) => idx + 1, Err(idx) => idx }` on the result of a search: the index
after the element found, or where it would go. -/
def indexAfter : Except ℕ ℕ → ℕ
  | .ok i => i + 1
  | .error i => i

/-- What a search needs of `f`: along the list, `Less` comes before anything else and
`Greater` after anything else. -/
def Partitioned (xs : List α) (f : α → Ordering) : Prop :=
  xs.Pairwise fun a b => (f b = .lt → f a = .lt) ∧ (f a = .gt → f b = .gt)

/-- What the search may return: an element found `Equal`, or the point where the elements
found `Less` end and those found `Greater` begin. -/
def Answers (xs : List α) (f : α → Ordering) : Except ℕ ℕ → Prop
  | .ok i => ∃ h : i < xs.length, f xs[i] = .eq
  | .error i => i ≤ xs.length ∧ (∀ j (h : j < xs.length), j < i → f xs[j] = .lt) ∧
      ∀ j (h : j < xs.length), i ≤ j → f xs[j] = .gt

section Search

variable {xs : List α} {f : α → Ordering}

/-- The loop keeps `Less` left of the window and `Greater` right of it. -/
theorem answers_searchLoop (hp : Partitioned xs f) (left right : ℕ) (hright : right ≤ xs.length)
    (hlr : left ≤ right)
    (hlow : ∀ j (h : j < xs.length), j < left → f xs[j] = .lt)
    (hhigh : ∀ j (h : j < xs.length), right ≤ j → f xs[j] = .gt) :
    Answers xs f (searchLoop xs f left right hright) := by
  have hpair := List.pairwise_iff_getElem.1 hp
  fun_induction searchLoop xs f left right hright with
  | case1 left right hright h mid hmid hcmp ih =>
    -- `Less` at `mid`: everything up to `mid` is `Less`
    refine ih (by omega) (fun j hj hjm => ?_) hhigh
    rcases Nat.lt_or_ge j mid with hlt | hge
    · exact (hpair j mid hj hmid hlt).1 hcmp
    · have hjeq : j = mid := by omega
      subst hjeq
      exact hcmp
  | case2 left right hright h mid hmid hcmp ih =>
    -- `Greater` at `mid`: everything from `mid` on is `Greater`
    refine ih (by omega) hlow (fun j hj hmj => ?_)
    rcases Nat.lt_or_ge mid j with hlt | hge
    · exact (hpair mid j hmid hj hlt).2 hcmp
    · have hjeq : j = mid := by omega
      subst hjeq
      exact hcmp
  | case3 left right hright h mid hmid hcmp =>
    exact ⟨hmid, hcmp⟩
  | case4 left right hright h =>
    exact ⟨by omega, hlow, fun j hj hlj => hhigh j hj (by omega)⟩

theorem answers_binarySearchBy (hp : Partitioned xs f) : Answers xs f (binarySearchBy xs f) :=
  answers_searchLoop hp 0 xs.length le_rfl (Nat.zero_le _) (fun _ _ hj => absurd hj (by omega))
    (fun _ hj hle => absurd hj (by omega))

end Search

/-! ## Editing at a position -/

section Edit

/-- Assigning to `xs[i]`, at the element after a prefix of length `i`. -/
theorem modify_append_length (pre post : List α) (a : α) (f : α → α) :
    (pre ++ a :: post).modify pre.length f = pre ++ f a :: post := by
  induction pre with
  | nil => simp
  | cons b pre ih => simp [ih]

/-- `Vec::insert` just after the element that follows a prefix. -/
theorem insertIdx_append_length_succ (pre post : List α) (a x : α) :
    (pre ++ a :: post).insertIdx (pre.length + 1) x = pre ++ a :: x :: post := by
  induction pre with
  | nil => simp [List.insertIdx_succ_cons, List.insertIdx_zero]
  | cons b pre ih => simp [List.insertIdx_succ_cons, ih]

/-- `Vec::remove` of the element after a prefix. -/
theorem eraseIdx_append_length (pre post : List α) (a : α) :
    (pre ++ a :: post).eraseIdx pre.length = pre ++ post := by
  rw [List.eraseIdx_append_of_length_le le_rfl, Nat.sub_self, List.eraseIdx_cons_zero]

end Edit

/-! ## Counting a prefix -/

section Prefix

variable {p : α → Bool}

/-- A property that holds on a prefix is counted by the length of that prefix. -/
theorem countP_eq_of_split {xs : List α} {i : ℕ} (hi : i ≤ xs.length)
    (hlow : ∀ j (h : j < xs.length), j < i → p xs[j] = true)
    (hhigh : ∀ j (h : j < xs.length), i ≤ j → p xs[j] = false) : xs.countP p = i := by
  rw [← List.take_append_drop i xs, List.countP_append]
  have htake : (xs.take i).countP p = i := by
    rw [List.countP_eq_length.2, List.length_take_of_le hi]
    intro a ha
    obtain ⟨j, hj, rfl⟩ := List.getElem_of_mem ha
    rw [List.getElem_take]
    rw [List.length_take_of_le hi] at hj
    exact hlow j (by omega) hj
  have hdrop : (xs.drop i).countP p = 0 := by
    rw [List.countP_eq_zero]
    intro a ha
    obtain ⟨j, hj, rfl⟩ := List.getElem_of_mem ha
    rw [List.getElem_drop]
    rw [List.length_drop] at hj
    simpa using hhigh (i + j) (by omega) (by omega)
  rw [htake, hdrop, Nat.add_zero]

/-- Cutting at the count of a property that holds on a prefix keeps the elements that have it. -/
theorem take_countP : ∀ {xs : List α}, xs.Pairwise (fun a b => p b → p a) →
    xs.take (xs.countP p) = xs.filter p
  | [], _ => rfl
  | a :: as, hp => by
    rw [List.pairwise_cons] at hp
    by_cases ha : p a
    · rw [List.countP_cons_of_pos ha, List.filter_cons_of_pos ha, List.take_succ_cons,
        take_countP hp.2]
    · -- nothing after `a` has the property either
      have hnone : ∀ b ∈ as, p b = false := fun b hb =>
        Bool.eq_false_iff.2 fun hpb => ha (hp.1 b hb hpb)
      rw [List.countP_cons_of_neg ha, List.filter_cons_of_neg ha, List.countP_eq_zero.2
        (fun b hb => by simp [hnone b hb]), List.take_zero, List.filter_eq_nil_iff.2
        (fun b hb => by simp [hnone b hb])]

theorem drop_countP : ∀ {xs : List α}, xs.Pairwise (fun a b => p b → p a) →
    xs.drop (xs.countP p) = xs.filter (fun a => !p a)
  | [], _ => rfl
  | a :: as, hp => by
    rw [List.pairwise_cons] at hp
    by_cases ha : p a
    · rw [List.countP_cons_of_pos ha, List.filter_cons_of_neg (by simp [ha]),
        List.drop_succ_cons, drop_countP hp.2]
    · have hnone : ∀ b ∈ as, p b = false := fun b hb =>
        Bool.eq_false_iff.2 fun hpb => ha (hp.1 b hb hpb)
      rw [List.countP_cons_of_neg ha, List.countP_eq_zero.2 (fun b hb => by simp [hnone b hb]),
        List.drop_zero, List.filter_cons_of_pos (by simp [ha]), List.filter_eq_self.2
        (fun b hb => by simp [hnone b hb])]

/-- When a property holds on a prefix, an element has it exactly when it lies before the count. -/
theorem lt_countP_iff : ∀ {xs : List α}, xs.Pairwise (fun a b => p b → p a) →
    ∀ {j : ℕ} (hj : j < xs.length), j < xs.countP p ↔ p xs[j] = true
  | [], _, _, hj => absurd hj (Nat.not_lt_zero _)
  | a :: as, hp, j, hj => by
    rw [List.pairwise_cons] at hp
    by_cases ha : p a
    · rw [List.countP_cons_of_pos ha]
      cases j with
      | zero => simp [ha]
      | succ j =>
        rw [List.getElem_cons_succ, ← lt_countP_iff hp.2 (by simpa using hj)]
        omega
    · -- nothing after `a` has the property either
      have hnone : ∀ b ∈ as, p b = false := fun b hb =>
        Bool.eq_false_iff.2 fun hpb => ha (hp.1 b hb hpb)
      rw [List.countP_cons_of_neg ha, List.countP_eq_zero.2 (fun b hb => by simp [hnone b hb])]
      cases j with
      | zero => simp [ha]
      | succ j => simp [hnone _ (List.getElem_mem _)]

end Prefix

/-! ## Searching strictly increasing keys -/

section Keys

variable {β : Type*} [LinearOrder β] {key : α → β}

theorem partitioned_compare {xs : List α} (hs : xs.Pairwise fun a c => key a ≤ key c) (b : β) :
    Partitioned xs fun x => compare (key x) b := by
  refine hs.imp fun {x y} hxy => ⟨fun hy => ?_, fun hx => ?_⟩
  · rw [compare_lt_iff_lt] at hy ⊢
    exact lt_of_le_of_lt hxy hy
  · rw [compare_gt_iff_gt] at hx ⊢
    exact lt_of_lt_of_le hx hxy

/-- A search of strictly increasing keys that returns `Ok(i)` stopped at `b`: the keys before
`i` are smaller and those after it larger. -/
theorem keys_of_binarySearchByKey_eq_ok {xs : List α} (hs : xs.Pairwise fun a c => key a < key c)
    {b : β} {i : ℕ} (h : binarySearchByKey xs b key = .ok i) :
    ∃ hi : i < xs.length, key xs[i] = b ∧ (∀ j (hj : j < xs.length), j < i → key xs[j] < b) ∧
      ∀ j (hj : j < xs.length), i < j → b < key xs[j] := by
  have hpair := List.pairwise_iff_getElem.1 hs
  have hans := answers_binarySearchBy (partitioned_compare (hs.imp le_of_lt) b)
  rw [binarySearchByKey] at h
  rw [h] at hans
  obtain ⟨hi, heq⟩ := hans
  rw [compare_eq_iff_eq] at heq
  refine ⟨hi, heq, fun j hj hji => ?_, fun j hj hij => ?_⟩
  · exact heq ▸ hpair j i hj hi hji
  · exact heq ▸ hpair i j hi hj hij

/-- A search of sorted keys that returns `Err(i)` found the place of `b`: the keys before `i`
are smaller and those from `i` on larger. -/
theorem keys_of_binarySearchByKey_eq_error {xs : List α}
    (hs : xs.Pairwise fun a c => key a ≤ key c) {b : β} {i : ℕ}
    (h : binarySearchByKey xs b key = .error i) :
    i ≤ xs.length ∧ (∀ j (hj : j < xs.length), j < i → key xs[j] < b) ∧
      ∀ j (hj : j < xs.length), i ≤ j → b < key xs[j] := by
  have hans := answers_binarySearchBy (partitioned_compare hs b)
  rw [binarySearchByKey] at h
  rw [h] at hans
  obtain ⟨hi, hlow, hhigh⟩ := hans
  exact ⟨hi, fun j hj hji => compare_lt_iff_lt.1 (hlow j hj hji),
    fun j hj hij => compare_gt_iff_gt.1 (hhigh j hj hij)⟩

/-- On strictly increasing keys the search finds the number of keys below `b`, as `Ok` exactly
when `b` is one of the keys. -/
theorem binarySearchByKey_eq {xs : List α} (hs : xs.Pairwise fun a c => key a < key c) (b : β) :
    binarySearchByKey xs b key =
      if b ∈ xs.map key then .ok (xs.countP fun x => key x < b)
      else .error (xs.countP fun x => key x < b) := by
  cases hr : binarySearchByKey xs b key with
  | ok i =>
    obtain ⟨hi, heq, hlow, hhigh⟩ := keys_of_binarySearchByKey_eq_ok hs hr
    have hmem : b ∈ xs.map key := List.mem_map.2 ⟨xs[i], List.getElem_mem hi, heq⟩
    rw [if_pos hmem, countP_eq_of_split hi.le (fun j hj hji => by simpa using hlow j hj hji)]
    intro j hj hij
    rcases Nat.lt_or_ge i j with hlt | hge
    · simpa using (hhigh j hj hlt).le
    · have hjeq : j = i := by omega
      subst hjeq
      simp [heq]
  | error i =>
    obtain ⟨hi, hlow, hhigh⟩ := keys_of_binarySearchByKey_eq_error (hs.imp le_of_lt) hr
    have hmem : b ∉ xs.map key := by
      rw [List.mem_map]
      rintro ⟨x, hx, rfl⟩
      obtain ⟨j, hj, rfl⟩ := List.getElem_of_mem hx
      rcases Nat.lt_or_ge j i with hlt | hge
      · exact lt_irrefl _ (hlow j hj hlt)
      · exact lt_irrefl _ (hhigh j hj hge)
    rw [if_neg hmem, countP_eq_of_split hi (fun j hj hji => by simpa using hlow j hj hji)]
    intro j hj hij
    simpa using (hhigh j hj hij).le

/-- `unwrap_or_else(identity)` of a search of strictly increasing keys: the number of keys
below `b`. -/
theorem unwrapOrIdentity_binarySearchByKey {xs : List α}
    (hs : xs.Pairwise fun a c => key a < key c) (b : β) :
    unwrapOrIdentity (binarySearchByKey xs b key) = xs.countP fun x => key x < b := by
  rw [binarySearchByKey_eq hs]
  split <;> rfl

end Keys

/-! ## Bounds of a range -/

/-- `std::ops::Bound`. -/
inductive Bound (α : Type*) where
  | included (a : α)
  | excluded (a : α)
  | unbounded
deriving DecidableEq, Repr

/-- The key a bound names, if any. -/
def Bound.value? : Bound α → Option α
  | .included a => some a
  | .excluded a => some a
  | .unbounded => none

variable [LinearOrder α]

/-- `k` lies after a start bound. -/
def Bound.admitsAbove : Bound α → α → Bool
  | .included a, k => decide (a ≤ k)
  | .excluded a, k => decide (a < k)
  | .unbounded, _ => true

/-- `k` lies before an end bound. -/
def Bound.admitsBelow : Bound α → α → Bool
  | .included a, k => decide (k ≤ a)
  | .excluded a, k => decide (k < a)
  | .unbounded, _ => true

/-- `RangeBounds::contains` for a pair of bounds. -/
def rangeContains (r : Bound α × Bound α) (k : α) : Bool :=
  r.1.admitsAbove k && r.2.admitsBelow k

end Slice

end NeonStorage
