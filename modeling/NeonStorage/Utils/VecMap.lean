import NeonStorage.Lib.Slice
import NeonStorage.Lib.EStateM
/-!
# An ordered map in a vector

`VecMap` (`libs/utils/src/vec_map.rs`) keeps key-value pairs in a `Vec` in increasing order of
keys, so that `slice_range` and `split_at` can find a key by binary search.  Nothing checks
the order after the fact: each method that adds entries checks it beforehand and returns
`InvalidKey` without changing anything when the new entries would break it.  The in-memory
layer keeps the values of each key in such a map (`InMemoryLayer::put_value`).

A method takes `&mut self` and returns a `Result`, so it is an `EStateM` program: an error
ends it with the state it started from.  `extend` moves entries out of a second map and is a
program on the pair of maps.

* `append_apply`, `appendOrUpdateLast_apply`, `extend_apply`: what each method does, for every
  map.
* `append_sorted`, `appendOrUpdateLast_ok_sorted`: on an ordered map, `append` fails exactly
  when the entry would break the order, and what `append_or_update_last` stores is ordered.
* `splitAt_eq`: on an ordered map, `split_at` returns the entries below and from the cutoff.
* `sorted_of_built`: every map that the methods build from empty maps is ordered, as long as
  each `extend` takes a map whose first key lies above the last key of `self`.
* `extend_breaks_order`: `extend` compares the last key of `self` with the last key of the
  other map, not its first, so it accepts two maps whose keys interleave and builds a map out of
  order, on which `slice_range` misses entries.
-/

namespace NeonStorage

open Slice

/-- `InvalidKey`. -/
structure InvalidKey where
deriving DecidableEq, Repr, Inhabited

/-- `VecMap<K, V>`: the pairs in the order of the `Vec`. -/
structure VecMap (K V : Type) where
  vec : List (K × V)
deriving DecidableEq, Repr

namespace VecMap

variable {K V : Type} [LinearOrder K]

/-- `impl Default for VecMap`. -/
instance : Inhabited (VecMap K V) := ⟨⟨[]⟩⟩

/-- `VecMap::is_empty`. -/
def isEmpty (self : VecMap K V) : Bool := self.vec.isEmpty

/-- `VecMap::as_slice`. -/
def asSlice (self : VecMap K V) : List (K × V) := self.vec

/-- The search of `slice_range` and `split_at`: `binary_search_by_key(&k, extract_key)`. -/
def binarySearch (self : VecMap K V) (k : K) : Except ℕ ℕ :=
  binarySearchByKey self.vec k Prod.fst

/-- `VecMap::slice_range`, with the range given by its two bounds. -/
def sliceRange (self : VecMap K V) (range : Bound K × Bound K) : Except String (List (K × V)) :=
  let startIdx := match range.1 with
    | .unbounded => 0
    | .included k => unwrapOrIdentity (self.binarySearch k)
    | .excluded k => indexAfter (self.binarySearch k)
  let endIdx := match range.2 with
    | .unbounded => self.vec.length
    | .included k => indexAfter (self.binarySearch k)
    | .excluded k => unwrapOrIdentity (self.binarySearch k)
  Slice.index self.vec startIdx endIdx

/-- `VecMap::append`.  The change in allocated memory that it returns is left out. -/
def append (key : K) (value : V) : EStateM InvalidKey (VecMap K V) Unit := fun self =>
  match self.vec.getLast? with
  | some (lastKey, _) =>
    if key ≤ lastKey then .error ⟨⟩ self else .ok () ⟨self.vec ++ [(key, value)]⟩
  | none => .ok () ⟨self.vec ++ [(key, value)]⟩

/-- `VecMap::append_or_update_last`: the value it replaced, if the key was the last one. -/
def appendOrUpdateLast (key : K) (value : V) : EStateM InvalidKey (VecMap K V) (Option V) :=
  fun self =>
  match self.vec.getLast? with
  | some (lastKey, lastValue) =>
    match compare key lastKey with
    | .lt => .error ⟨⟩ self
    -- `mem::swap` puts the new value in the last entry and hands back the old one
    | .eq => .ok (some lastValue) ⟨self.vec.dropLast ++ [(lastKey, value)]⟩
    | .gt => .ok none ⟨self.vec ++ [(key, value)]⟩
  | none => .ok none ⟨self.vec ++ [(key, value)]⟩

/-- `VecMap::split_at`.  A binary search answers an index at most the length, so the two
slicings do not panic. -/
def splitAt (self : VecMap K V) (cutoff : K) : VecMap K V × VecMap K V :=
  let splitIdx := unwrapOrIdentity (self.binarySearch cutoff)
  (⟨self.vec.take splitIdx⟩, ⟨self.vec.drop splitIdx⟩)

/-- `VecMap::extend`, on the pair of `self` and `other`: `other` is left empty. -/
def extend : EStateM InvalidKey (VecMap K V × VecMap K V) Unit := fun maps =>
  let self := maps.1
  let other := maps.2
  let selfLastOpt := self.vec.getLast?.map Prod.fst
  -- the code takes `other.0.last()` here
  let otherFirstOpt := other.vec.getLast?.map Prod.fst
  match selfLastOpt, otherFirstOpt with
  | some selfLast, some otherFirst =>
    if selfLast ≥ otherFirst then .error ⟨⟩ maps
    else .ok () (⟨self.vec ++ other.vec⟩, ⟨[]⟩)
  | _, _ => .ok () (⟨self.vec ++ other.vec⟩, ⟨[]⟩)

/-! ## The order of the keys -/

/-- The order the methods keep: keys strictly increasing along the vector. -/
def Sorted (m : VecMap K V) : Prop := m.vec.Pairwise fun a b => a.1 < b.1

instance (m : VecMap K V) : Decidable m.Sorted := inferInstanceAs (Decidable (List.Pairwise _ _))

/-- The key of the last entry is below `k`, or there is no entry. -/
def LastBelow (m : VecMap K V) (k : K) : Prop := ∀ last ∈ m.vec.getLast?, last.1 < k

instance (m : VecMap K V) (k : K) : Decidable (m.LastBelow k) :=
  inferInstanceAs (Decidable (∀ last ∈ m.vec.getLast?, _))

omit [LinearOrder K] in
@[simp] theorem mk_nil : (⟨[]⟩ : VecMap K V) = default := rfl

theorem sorted_empty : (default : VecMap K V).Sorted := List.Pairwise.nil

theorem lastBelow_iff_of_getLast? {m : VecMap K V} {last : K × V}
    (hl : m.vec.getLast? = some last) (k : K) : m.LastBelow k ↔ last.1 < k := by
  simp [LastBelow, hl]

theorem lastBelow_of_getLast?_eq_none {m : VecMap K V} (hl : m.vec.getLast? = none) (k : K) :
    m.LastBelow k := by
  simp [LastBelow, hl]

/-- In an ordered map every key is at most the last one. -/
theorem le_of_mem_of_getLast? {m : VecMap K V} (hs : m.Sorted) {a last : K × V}
    (ha : a ∈ m.vec) (hlast : m.vec.getLast? = some last) : a.1 ≤ last.1 := by
  obtain ⟨init, hinit⟩ := List.getLast?_eq_some_iff.1 hlast
  have hs' : (init ++ [last]).Pairwise fun a b => a.1 < b.1 := hinit ▸ hs
  rw [hinit] at ha
  rcases List.mem_append.1 ha with ha | ha
  · exact (List.pairwise_append.1 hs').2.2 a ha last (List.mem_singleton_self last) |>.le
  · rw [List.mem_singleton.1 ha]

/-- Pushing an entry onto an ordered map keeps the order exactly when the last key is below
the new one. -/
theorem sorted_push_iff {m : VecMap K V} (hs : m.Sorted) (x : K × V) :
    (⟨m.vec ++ [x]⟩ : VecMap K V).Sorted ↔ m.LastBelow x.1 := by
  unfold Sorted LastBelow
  rw [List.pairwise_append]
  constructor
  · rintro ⟨-, -, hlt⟩ last hlast
    exact hlt last (List.mem_of_getLast? hlast) x (List.mem_singleton_self x)
  · intro hlast
    refine ⟨hs, List.pairwise_singleton _ _, fun a ha b hb => ?_⟩
    rw [List.mem_singleton.1 hb]
    cases hl : m.vec.getLast? with
    | none => simp_all
    | some last =>
      exact lt_of_le_of_lt (le_of_mem_of_getLast? hs ha hl) (hlast last hl)

/-- Two ordered maps joined are ordered exactly when the last key of the first lies below the
first key of the second. -/
theorem sorted_append_iff {m o : VecMap K V} (hs : m.Sorted) (ho : o.Sorted) :
    (⟨m.vec ++ o.vec⟩ : VecMap K V).Sorted ↔
      ∀ first ∈ o.vec.head?, m.LastBelow first.1 := by
  unfold Sorted
  rw [List.pairwise_append]
  constructor
  · rintro ⟨-, -, hlt⟩ first hfirst last hlast
    exact hlt last (List.mem_of_getLast? hlast) first (List.mem_of_head? hfirst)
  · intro hfirst
    refine ⟨hs, ho, fun a ha b hb => ?_⟩
    obtain ⟨first, rest, hor⟩ := List.exists_cons_of_ne_nil (List.ne_nil_of_mem hb)
    have hlast := List.getLast?_eq_some_getLast (List.ne_nil_of_mem ha)
    have hlf := hfirst first (by simp [hor]) _ hlast
    have hfb : first.1 ≤ b.1 := by
      have ho' : o.vec.Pairwise fun a b => a.1 < b.1 := ho
      rw [hor] at ho' hb
      rcases List.mem_cons.1 hb with rfl | hb
      · exact le_rfl
      · exact (List.rel_of_pairwise_cons ho' hb).le
    exact lt_of_le_of_lt (le_of_mem_of_getLast? hs ha hlast) (lt_of_lt_of_le hlf hfb)

/-! ## What each method does -/

section Methods

variable (key : K) (value : V) (m : VecMap K V)

/-- `append` pushes the entry when its key lies above the last one, and fails otherwise. -/
theorem append_apply :
    append key value m =
      if m.LastBelow key then .ok () ⟨m.vec ++ [(key, value)]⟩ else .error ⟨⟩ m := by
  unfold append
  split
  · rename_i lastKey lastValue hl
    by_cases hk : key ≤ lastKey
    · rw [if_pos hk, if_neg (by rw [lastBelow_iff_of_getLast? hl]; exact not_lt.2 hk)]
    · rw [if_neg hk, if_pos (by rw [lastBelow_iff_of_getLast? hl]; exact lt_of_not_ge hk)]
  · rename_i hl
    rw [if_pos (lastBelow_of_getLast?_eq_none hl key)]

/-- On an ordered map, `append` fails exactly when the new entry would break the order, and
then leaves the map as it was. -/
theorem append_sorted (hs : m.Sorted) :
    append key value m =
      if (⟨m.vec ++ [(key, value)]⟩ : VecMap K V).Sorted then .ok () ⟨m.vec ++ [(key, value)]⟩
      else .error ⟨⟩ m := by
  rw [append_apply]
  exact if_congr (sorted_push_iff hs (key, value)).symm rfl rfl

theorem appendOrUpdateLast_apply :
    appendOrUpdateLast key value m =
      match m.vec.getLast? with
      | some last =>
        if key < last.1 then .error ⟨⟩ m
        else if key = last.1 then .ok (some last.2) ⟨m.vec.dropLast ++ [(last.1, value)]⟩
        else .ok none ⟨m.vec ++ [(key, value)]⟩
      | none => .ok none ⟨m.vec ++ [(key, value)]⟩ := by
  unfold appendOrUpdateLast
  split
  · rename_i lastKey lastValue hl
    rw [hl]
    rcases lt_trichotomy key lastKey with hlt | heq | hgt
    · simp [compare_lt_iff_lt.2 hlt, hlt]
    · simp [heq]
    · simp [compare_gt_iff_gt.2 hgt, not_lt.2 hgt.le, hgt.ne']
  · rename_i hl
    rw [hl]

/-- The keys alone decide the order. -/
theorem sorted_iff_keys (m : VecMap K V) :
    m.Sorted ↔ (m.vec.map Prod.fst).Pairwise (· < ·) := by
  rw [Sorted, List.pairwise_map]

/-- Whatever `append_or_update_last` stores in an ordered map is ordered. -/
theorem appendOrUpdateLast_ok_sorted (hs : m.Sorted) {r : Option V} {s : VecMap K V}
    (h : appendOrUpdateLast key value m = .ok r s) : s.Sorted := by
  rw [appendOrUpdateLast_apply] at h
  split at h
  · rename_i last hl
    split_ifs at h with hlt heq
    · -- the last value is replaced: the keys stay as they were
      cases h
      rw [sorted_iff_keys] at hs ⊢
      have hkeys : (m.vec.dropLast ++ [(last.1, value)]).map Prod.fst = m.vec.map Prod.fst := by
        conv_rhs => rw [← List.dropLast_append_getLast? last hl]
        simp
      rw [hkeys]
      exact hs
    · cases h
      exact (sorted_push_iff hs _).2 ((lastBelow_iff_of_getLast? hl key).2
        (lt_of_le_of_ne (not_lt.1 hlt) (Ne.symm heq)))
  · rename_i hl
    cases h
    exact (sorted_push_iff hs _).2 (lastBelow_of_getLast?_eq_none hl key)

end Methods

section Extend

variable (m o : VecMap K V)

/-- `extend` joins the maps when the last key of `self` lies below the last key of `other`, or
either map is empty, and fails otherwise. -/
theorem extend_apply :
    extend (m, o) =
      if ∀ b ∈ o.vec.getLast?, m.LastBelow b.1 then .ok () (⟨m.vec ++ o.vec⟩, default)
      else .error ⟨⟩ (m, o) := by
  simp only [extend]
  cases ho : o.vec.getLast? with
  | none => simp
  | some b =>
    cases hm : m.vec.getLast? with
    | none => simp [lastBelow_of_getLast?_eq_none hm]
    | some a =>
      by_cases hab : b.1 ≤ a.1
      · simp [lastBelow_iff_of_getLast? hm, hab]
      · simp [lastBelow_iff_of_getLast? hm, hab, lt_of_not_ge hab]

/-- Joining two ordered maps keeps the order when the first key of `other` lies above the last
key of `self`: the order `extend` is meant to check. -/
theorem extend_sorted (hs : m.Sorted) (ho : o.Sorted)
    (hfirst : ∀ first ∈ o.vec.head?, m.LastBelow first.1) {m' o' : VecMap K V}
    (h : extend (m, o) = .ok () (m', o')) : m'.Sorted ∧ o'.Sorted := by
  rw [extend_apply] at h
  split at h
  · cases h
    exact ⟨(sorted_append_iff hs ho).2 hfirst, sorted_empty⟩
  · cases h

end Extend

/-! ## Searching an ordered map -/

section Search

variable {m : VecMap K V}

/-- On an ordered map `split_at` returns the entries below the cutoff and the entries from it. -/
theorem splitAt_eq (hs : m.Sorted) (cutoff : K) :
    m.splitAt cutoff =
      (⟨m.vec.filter fun x => x.1 < cutoff⟩, ⟨m.vec.filter fun x => ¬x.1 < cutoff⟩) := by
  have hs' : m.vec.Pairwise fun a c => a.1 < c.1 := hs
  -- the entries below the cutoff come first
  have hpre : m.vec.Pairwise fun a c => decide (c.1 < cutoff) = true → decide (a.1 < cutoff) = true :=
    hs'.imp fun hac hc => by simpa using lt_trans hac (by simpa using hc)
  simp only [splitAt, binarySearch, unwrapOrIdentity_binarySearchByKey hs']
  rw [take_countP hpre, drop_countP hpre]
  simp [← decide_not]

end Search

/-! ## Maps built by the methods -/

/-- The maps that the methods build from empty maps, where `extend` is called on the pairs that
`allow` admits; `fun _ _ => True` admits every call the code can make.  A call that fails
leaves its maps as they were (`append_apply`, `appendOrUpdateLast_apply`, `extend_apply`), so it builds nothing new, and `extend` leaves `other` empty. -/
inductive Built (allow : VecMap K V → VecMap K V → Prop) : VecMap K V → Prop
  | empty : Built allow default
  | append {m m' : VecMap K V} (key : K) (value : V) :
      Built allow m → append key value m = .ok () m' → Built allow m'
  | appendOrUpdateLast {m m' : VecMap K V} (key : K) (value : V) {r : Option V} :
      Built allow m → appendOrUpdateLast key value m = .ok r m' → Built allow m'
  | splitAtLeft {m : VecMap K V} (cutoff : K) : Built allow m → Built allow (m.splitAt cutoff).1
  | splitAtRight {m : VecMap K V} (cutoff : K) : Built allow m → Built allow (m.splitAt cutoff).2
  | extend {m o m' o' : VecMap K V} :
      Built allow m → Built allow o → allow m o → extend (m, o) = .ok () (m', o') → Built allow m'

/-- Every map built from empty maps is ordered, when each `extend` takes a map whose first key
lies above the last key of `self`: the condition `extend` is documented to check. -/
theorem sorted_of_built {m : VecMap K V}
    (h : Built (fun m o => ∀ first ∈ o.vec.head?, m.LastBelow first.1) m) : m.Sorted := by
  induction h with
  | empty => exact sorted_empty
  | append key value _ happ ih =>
    rw [append_sorted _ _ _ ih] at happ
    split at happ
    · cases happ
      assumption
    · cases happ
  | appendOrUpdateLast key value _ happ ih => exact appendOrUpdateLast_ok_sorted _ _ _ ih happ
  | splitAtLeft cutoff _ ih =>
    rw [splitAt_eq ih]
    exact List.Pairwise.sublist List.filter_sublist ih
  | splitAtRight cutoff _ ih =>
    rw [splitAt_eq ih]
    exact List.Pairwise.sublist List.filter_sublist ih
  | extend _ _ hallow hext ihm iho => exact (extend_sorted _ _ ihm iho hallow hext).1

/-- A map of one entry, extended by a map of two entries above it, each built by `append`: the
result is ordered. -/
theorem sorted_of_built_extend :
    Built (fun m o => ∀ first ∈ o.vec.head?, m.LastBelow first.1)
        (⟨[(1, 'a'), (3, 'b'), (4, 'c')]⟩ : VecMap ℕ Char) ∧
      (⟨[(1, 'a'), (3, 'b'), (4, 'c')]⟩ : VecMap ℕ Char).Sorted :=
  have hm : Built (fun m o => ∀ first ∈ o.vec.head?, m.LastBelow first.1)
      (⟨[(1, 'a')]⟩ : VecMap ℕ Char) := .append 1 'a' .empty rfl
  have ho : Built (fun m o => ∀ first ∈ o.vec.head?, m.LastBelow first.1)
      (⟨[(3, 'b'), (4, 'c')]⟩ : VecMap ℕ Char) := .append 4 'c' (.append 3 'b' .empty rfl) rfl
  have h : Built (fun m o => ∀ first ∈ o.vec.head?, m.LastBelow first.1)
      (⟨[(1, 'a'), (3, 'b'), (4, 'c')]⟩ : VecMap ℕ Char) := .extend hm ho (by decide) rfl
  ⟨h, sorted_of_built h⟩

/-- `extend` accepts `[1, 5]` followed by `[3, 7]`, both built by `append`, because it compares
`5` with the last key `7` of the other map.  The joined map is out of order, and `slice_range`
of the keys from `5` on misses the entry of `5`. -/
theorem extend_breaks_order :
    Built (fun _ _ => True) (⟨[(1, ()), (5, ()), (3, ()), (7, ())]⟩ : VecMap ℕ Unit) ∧
    extend ((⟨[(1, ()), (5, ())]⟩ : VecMap ℕ Unit), ⟨[(3, ()), (7, ())]⟩) =
      .ok () (⟨[(1, ()), (5, ()), (3, ()), (7, ())]⟩, default) ∧
    ¬(⟨[(1, ()), (5, ()), (3, ()), (7, ())]⟩ : VecMap ℕ Unit).Sorted ∧
    (⟨[(1, ()), (5, ()), (3, ()), (7, ())]⟩ : VecMap ℕ Unit).sliceRange (.included 5, .unbounded) =
      .ok [(7, ())] := by
  have hext : extend ((⟨[(1, ()), (5, ())]⟩ : VecMap ℕ Unit), ⟨[(3, ()), (7, ())]⟩) =
      .ok () (⟨[(1, ()), (5, ()), (3, ()), (7, ())]⟩, default) := rfl
  have hleft : Built (fun _ _ => True) (⟨[(1, ()), (5, ())]⟩ : VecMap ℕ Unit) :=
    .append 5 () (.append 1 () .empty rfl) rfl
  have hright : Built (fun _ _ => True) (⟨[(3, ()), (7, ())]⟩ : VecMap ℕ Unit) :=
    .append 7 () (.append 3 () .empty rfl) rfl
  refine ⟨.extend hleft hright trivial hext, hext, by decide, ?_⟩
  simp +decide [sliceRange, binarySearch, binarySearchByKey, binarySearchBy, searchLoop,
    unwrapOrIdentity, Slice.index]

end VecMap

end NeonStorage
