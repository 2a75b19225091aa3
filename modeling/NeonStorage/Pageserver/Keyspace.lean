import NeonStorage.Pageserver.Key
import NeonStorage.Lib.RangeList
import NeonStorage.Lib.Slice
import NeonStorage.Lib.Wrapping

/-!
# Key spaces

A `KeySpace` (`libs/pageserver_api/src/keyspace.rs`) is a set of keys written as ranges in key
order, non-empty and disjoint (`RangeList.WellFormed`).  `overlaps_at` finds the range a key
range would overlap with one binary search over the starts, and `remove_overlapping_with`
removes another key space range by range, cutting whatever `overlaps_at` finds until it finds
nothing.  The accumulators collect ranges into a key space, coalescing those that touch, and
`partition` cuts a key space into parts of about a target number of blocks.

On well-formed key spaces `overlaps` says whether a range shares a key with the key space
(`overlaps_iff_exists_key`), and `remove_overlapping_with` stops and leaves a well-formed key
space with the keys of the first that are not in the second (`removeOverlappingWith_spec`).
-/

namespace NeonStorage

open RangeList Slice

/-- `KeySpace`: ranges of keys, which every key space the pageserver builds keeps in order,
non-empty and disjoint. -/
structure KeySpace where
  ranges : List (Range Key)
deriving DecidableEq, Repr

namespace KeySpace

/-- `KeySpace::start`. -/
def start (self : KeySpace) : Option Key := self.ranges.head?.map (·.start)

/-- `KeySpace::end`. -/
def «end» (self : KeySpace) : Option Key := self.ranges.getLast?.map (·.end)

/-! ## Overlaps -/

/-- The arms of `overlaps_at` after its search: `Ok(0)` and `Err(0)` find nothing, and
otherwise the range before the index is the one to check. -/
def lastOverlap (ranges : List (Range Key)) (index : ℕ) (range : Range Key) : Option ℕ :=
  match index with
  | 0 => none
  | index + 1 =>
    match ranges[index]? with
    | some r => if r.end > range.start then some index else none
    | none => none

/-- `KeySpace::overlaps_at`: the ranges that start before `range.end` are those before the
index the search for it among the starts returns. -/
def overlapsAt (self : KeySpace) (range : Range Key) : Option ℕ :=
  lastOverlap self.ranges (unwrapOrIdentity (binarySearchByKey self.ranges range.end (·.start)))
    range

/-- `KeySpace::overlaps`. -/
def overlaps (self : KeySpace) (range : Range Key) : Bool := (self.overlapsAt range).isSome

section Overlaps

variable {ranges : List (Range Key)} {range : Range Key}

/-- On a well-formed key space the search lands after the ranges that start before `range.end`. -/
theorem overlapsAt_eq (h : WellFormed ranges) (range : Range Key) :
    overlapsAt ⟨ranges⟩ range =
      lastOverlap ranges (ranges.countP fun r => r.start < range.end) range := by
  rw [overlapsAt, unwrapOrIdentity_binarySearchByKey h.starts]

/-- A range starts before `range.end` exactly when it lies before the count of those that do. -/
theorem lt_countP_iff_start_lt (h : WellFormed ranges) {j : ℕ} (hj : j < ranges.length) :
    j < ranges.countP (fun r => r.start < range.end) ↔ ranges[j].start < range.end := by
  rw [lt_countP_iff (h.starts.imp fun hab hb => by simpa using lt_trans hab (by simpa using hb))
    hj]
  simp

/-- What `overlaps_at` finds on a well-formed key space: the last range overlapping `range`,
or `none` when no range does. -/
theorem overlapsAt_eq_some (h : WellFormed ranges) {i : ℕ}
    (hi : overlapsAt ⟨ranges⟩ range = some i) :
    ∃ hi : i < ranges.length, ranges[i].Overlaps range ∧
      ∀ j (hj : j < ranges.length), i < j → ¬ranges[j].Overlaps range := by
  rw [overlapsAt_eq h] at hi
  unfold lastOverlap at hi
  split at hi
  · cases hi
  · next p hp =>
    split at hi
    · next r hr =>
      split at hi
      · next hend =>
        cases hi
        obtain ⟨hlt, rfl⟩ := List.getElem?_eq_some_iff.1 hr
        have hstart := (@lt_countP_iff_start_lt ranges range h _ hlt).1 (by omega)
        refine ⟨hlt, ⟨hstart, hend⟩, fun j hj hij => ?_⟩
        -- a later range starts at or after `range.end`
        have hnot := mt (@lt_countP_iff_start_lt ranges range h _ hj).2 (by omega)
        exact fun hov => hnot hov.1
      · cases hi
    · cases hi

theorem overlapsAt_eq_none (h : WellFormed ranges) (hi : overlapsAt ⟨ranges⟩ range = none) :
    ∀ r ∈ ranges, ¬r.Overlaps range := by
  intro r hr hov
  obtain ⟨j, hj, rfl⟩ := List.getElem_of_mem hr
  rw [overlapsAt_eq h] at hi
  have hjc := (lt_countP_iff_start_lt h hj).2 hov.1
  unfold lastOverlap at hi
  split at hi
  · omega
  · next p hp =>
    have hp' : p < ranges.length := by
      have := @List.countP_le_length _ (fun r => decide (r.start < range.end)) ranges
      omega
    rw [List.getElem?_eq_getElem hp'] at hi
    simp only at hi
    split at hi
    · cases hi
    · next hend =>
      -- the range at `p` ends at or before `range.start`, and so does every range before it
      rcases Nat.lt_or_ge j p with hlt | hge
      · have hjend : ranges[j].end ≤ range.start := calc
          ranges[j].end ≤ ranges[p].start := h.end_le_start hj hp' hlt
          _ ≤ ranges[p].end := (h.nonempty _ (List.getElem_mem hp')).le
          _ ≤ range.start := not_lt.1 hend
        exact absurd hov.2 (not_lt.2 hjend)
      · have hjeq : j = p := by omega
        subst hjeq
        exact hend hov.2

/-- On a well-formed key space, `overlaps` says whether some range overlaps `range`. -/
theorem overlaps_iff_exists_range (h : WellFormed ranges) (range : Range Key) :
    overlaps ⟨ranges⟩ range = true ↔ ∃ r ∈ ranges, r.Overlaps range := by
  rw [overlaps]
  cases hi : overlapsAt ⟨ranges⟩ range with
  | none =>
    simp only [Option.isSome_none, Bool.false_eq_true, false_iff, not_exists, not_and]
    exact overlapsAt_eq_none h hi
  | some i =>
    obtain ⟨hlt, hov, -⟩ := overlapsAt_eq_some h hi
    simpa using ⟨ranges[i], List.getElem_mem hlt, hov⟩

end Overlaps

/-- `overlaps` on a well-formed key space and a non-empty range: some key of the range is in
the key space. -/
theorem overlaps_iff_exists_key (ks : KeySpace) (hks : WellFormed ks.ranges) (range : Range Key)
    (hr : range.start < range.end) :
    ks.overlaps range = true ↔ ∃ k, range.start ≤ k ∧ k < range.end ∧ k ∈ keys ks.ranges := by
  rw [overlaps_iff_exists_range hks]
  constructor
  · rintro ⟨r, hr', hov⟩
    obtain ⟨k, hkr, hk⟩ := (Range.overlaps_iff_exists (hks.nonempty r hr') hr).1 hov
    exact ⟨k, hk.1, hk.2, r, hr', hkr⟩
  · rintro ⟨k, hk1, hk2, r, hr', hkr⟩
    exact ⟨r, hr', (Range.overlaps_iff_exists (hks.nonempty r hr') hr).2 ⟨k, hkr, hk1, hk2⟩⟩

theorem overlaps_iff_exists_key_two_ranges :
    WellFormed [(⟨⟨0, 0, 0, 0, 0, 0⟩, ⟨0, 0, 0, 0, 0, 5⟩⟩ : Range Key),
        ⟨⟨0, 0, 0, 0, 0, 8⟩, ⟨0, 0, 0, 0, 0, 10⟩⟩] ∧
      (⟨0, 0, 0, 0, 0, 5⟩ : Key) < ⟨0, 0, 0, 0, 0, 9⟩ ∧
      ((KeySpace.mk [⟨⟨0, 0, 0, 0, 0, 0⟩, ⟨0, 0, 0, 0, 0, 5⟩⟩,
          ⟨⟨0, 0, 0, 0, 0, 8⟩, ⟨0, 0, 0, 0, 0, 10⟩⟩]).overlaps
          ⟨⟨0, 0, 0, 0, 0, 5⟩, ⟨0, 0, 0, 0, 0, 9⟩⟩ = true ↔
        ∃ k, (⟨0, 0, 0, 0, 0, 5⟩ : Key) ≤ k ∧ k < ⟨0, 0, 0, 0, 0, 9⟩ ∧
          k ∈ keys [(⟨⟨0, 0, 0, 0, 0, 0⟩, ⟨0, 0, 0, 0, 0, 5⟩⟩ : Range Key),
            ⟨⟨0, 0, 0, 0, 0, 8⟩, ⟨0, 0, 0, 0, 0, 10⟩⟩]) :=
  have hks : WellFormed [(⟨⟨0, 0, 0, 0, 0, 0⟩, ⟨0, 0, 0, 0, 0, 5⟩⟩ : Range Key),
      ⟨⟨0, 0, 0, 0, 0, 8⟩, ⟨0, 0, 0, 0, 0, 10⟩⟩] := ⟨by decide, by decide⟩
  ⟨hks, by decide, overlaps_iff_exists_key _ hks _ (by decide)⟩

/-! ## Removing a key space -/

/-- The body of the loop of `remove_overlapping_with`: `range` cut out of `overlapped`, the
range at `overlapAt`, by whichever of the four cases of the source holds. -/
def cutOverlap (ranges : List (Range Key)) (overlapAt : ℕ) (overlapped range : Range Key) :
    List (Range Key) :=
  -- the higher part of `overlapped` is covered
  let ranges := if overlapped.start < range.start ∧ overlapped.end ≤ range.end then
      ranges.modify overlapAt fun r => { r with «end» := range.start }
    else ranges
  -- the lower part is covered
  let ranges := if overlapped.start ≥ range.start ∧ overlapped.end > range.end then
      ranges.modify overlapAt fun r => { r with start := range.end }
    else ranges
  -- the middle part is covered
  let ranges := if overlapped.start < range.start ∧ overlapped.end > range.end then
      (ranges.modify overlapAt fun r => { r with «end» := range.start }).insertIdx
        (overlapAt + 1) ⟨range.end, overlapped.end⟩
    else ranges
  -- the whole range is covered
  if overlapped.start ≥ range.start ∧ overlapped.end ≤ range.end then ranges.eraseIdx overlapAt
  else ranges

/-- The loop `while let Some(overlap_at) = self.overlaps_at(range)` of
`remove_overlapping_with`, run for at most `fuel` passes: `none` if it has not stopped by then. -/
def removeRange (range : Range Key) : ℕ → List (Range Key) → Option (List (Range Key))
  | 0, _ => none
  | fuel + 1, ranges =>
    match overlapsAt ⟨ranges⟩ range with
    | none => some ranges
    | some overlapAt =>
      -- `self.ranges[overlap_at]`, in bounds as `overlaps_at` found it
      match ranges[overlapAt]? with
      | some overlapped => removeRange range fuel (cutOverlap ranges overlapAt overlapped range)
      | none => none

/-- `KeySpace::remove_overlapping_with`, each loop given `fuel` passes. -/
def removeOverlappingWith (fuel : ℕ) (self other : KeySpace) : Option KeySpace :=
  match self.start, self.end with
  | some selfStart, some selfEnd =>
    -- only the ranges of `other` from the first that ends after `self` starts, up to the last
    -- that starts before `self` ends
    let otherRanges := (other.ranges.dropWhile fun range => selfStart ≥ range.end).takeWhile
      fun range => selfEnd > range.start
    (otherRanges.foldlM (fun ranges range => removeRange range fuel ranges) self.ranges).map
      KeySpace.mk
  | _, _ => some self

/-- Whichever case holds, the loop body puts the parts of the overlapped range outside `range`
in its place. -/
theorem cutOverlap_eq (pre post : List (Range Key)) (overlapped range : Range Key) :
    cutOverlap (pre ++ overlapped :: post) pre.length overlapped range =
      pre ++ overlapped.diff range ++ post := by
  unfold cutOverlap Range.diff
  by_cases hlow : overlapped.start < range.start <;> by_cases hhigh : range.end < overlapped.end
  · simp [hlow, hhigh, not_le.2 hlow, not_le.2 hhigh, modify_append_length,
      insertIdx_append_length_succ]
  · simp [hlow, hhigh, not_le.2 hlow, not_lt.1 hhigh, modify_append_length]
  · simp [hlow, hhigh, not_lt.1 hlow, modify_append_length]
  · simp [hlow, hhigh, not_lt.1 hlow, not_lt.1 hhigh, eraseIdx_append_length]

theorem overlapsAt_eq_none_of_forall {ranges : List (Range Key)} {range : Range Key}
    (h : WellFormed ranges) (hno : ∀ r ∈ ranges, ¬r.Overlaps range) :
    overlapsAt ⟨ranges⟩ range = none := by
  cases hi : overlapsAt ⟨ranges⟩ range with
  | none => rfl
  | some i =>
    obtain ⟨hlt, hov, -⟩ := overlapsAt_eq_some h hi
    exact absurd hov (hno _ (List.getElem_mem hlt))

/-- The loop for one range of `other`: given more passes than there are ranges overlapping
`range`, it stops with a well-formed list holding the keys outside `range`, at most one range
longer. -/
theorem removeRange_spec {range : Range Key} (hr : range.start < range.end) :
    ∀ (fuel : ℕ) (ranges : List (Range Key)), WellFormed ranges →
      ranges.countP (fun r => decide (r.Overlaps range)) < fuel →
      ∃ res, removeRange range fuel ranges = some res ∧ WellFormed res ∧
        keys res = keys ranges \ range.toSet ∧ res.length ≤ ranges.length + 1
  | 0, _, _, hfuel => absurd hfuel (Nat.not_lt_zero _)
  | fuel + 1, ranges, h, hfuel => by
    cases hi : overlapsAt ⟨ranges⟩ range with
    | none =>
      -- nothing overlaps `range`: the loop stops
      refine ⟨ranges, by simp [removeRange, hi], h, ?_, by omega⟩
      ext x
      simp only [Set.mem_sdiff, iff_self_and]
      rintro ⟨r, hr', hx⟩
      exact Range.not_mem_of_not_overlaps (overlapsAt_eq_none h hi r hr') hx
    | some i =>
      obtain ⟨hlt, hov, -⟩ := overlapsAt_eq_some h hi
      -- the range found, with what comes before and after it
      obtain ⟨pre, post, hsplit, hlen⟩ : ∃ pre post, ranges = pre ++ ranges[i] :: post ∧
          pre.length = i :=
        ⟨ranges.take i, ranges.drop (i + 1), by simp, by simp [hlt.le]⟩
      set o := ranges[i]
      have hcut : cutOverlap ranges i o range = pre ++ o.diff range ++ post := by
        rw [hsplit, ← hlen, cutOverlap_eq]
      have hstep : removeRange range (fuel + 1) ranges =
          removeRange range fuel (pre ++ o.diff range ++ post) := by
        rw [removeRange, hi]
        simp only [List.getElem?_eq_getElem hlt]
        rw [hcut]
      have hwf : WellFormed (pre ++ o.diff range ++ post) := by
        rw [hsplit] at h
        exact h.replace (fun p hp => Range.start_lt_end_of_mem_diff hp) (Range.diff_sorted hr)
          (fun p hp => Range.le_of_mem_diff hov hp)
      -- the parts of `o` left do not overlap `range`, so one overlap fewer is left
      have hdiff : (o.diff range).countP (fun r => decide (r.Overlaps range)) = 0 :=
        List.countP_eq_zero.2 fun p hp => by simpa using Range.not_overlaps_of_mem_diff hp
      have hcount : (pre ++ o.diff range ++ post).countP (fun r => decide (r.Overlaps range)) <
          fuel := by
        rw [hsplit] at hfuel
        simp only [List.countP_append, List.countP_cons, hov, decide_true, if_true] at hfuel ⊢
        omega
      have hkeys : keys (pre ++ o.diff range ++ post) \ range.toSet =
          keys ranges \ range.toSet := by
        rw [hsplit, keys_append, keys_append, keys_diff hov, keys_append, keys_cons]
        ext x
        simp only [Set.mem_sdiff, Set.mem_union]
        tauto
      have hlength : ranges.length = pre.length + 1 + post.length := by
        rw [hsplit, List.length_append, List.length_cons]
        omega
      rw [hstep]
      rcases @Range.length_diff_le _ _ o range with hone | ⟨hlow, hhigh⟩
      · obtain ⟨res, hres, hwf', hkeys', hlen'⟩ := removeRange_spec hr fuel _ hwf hcount
        refine ⟨res, hres, hwf', by rw [hkeys', hkeys], ?_⟩
        simp only [List.length_append] at hlen'
        omega
      · -- `range` splits `o` in the middle: nothing overlaps it any more, and the loop stops
        have hsep := (hsplit ▸ h).split
        have hno : ∀ r ∈ pre ++ o.diff range ++ post, ¬r.Overlaps range := by
          intro r hr' hrov
          simp only [List.mem_append] at hr'
          rcases hr' with (hr' | hr') | hr'
          · exact absurd hrov.2 (not_lt.2 (le_trans (hsep.1 r hr') hlow.le))
          · exact Range.not_overlaps_of_mem_diff hr' hrov
          · exact absurd hrov.1 (not_lt.2 (le_trans hhigh.le (hsep.2 r hr')))
        have hfuel' : 0 < fuel := by omega
        obtain ⟨fuel, rfl⟩ : ∃ f, fuel = f + 1 := ⟨fuel - 1, by omega⟩
        refine ⟨pre ++ o.diff range ++ post, ?_, hwf, ?_, ?_⟩
        · rw [removeRange, overlapsAt_eq_none_of_forall hwf hno]
        · rw [← hkeys]
          ext x
          simp only [Set.mem_sdiff, iff_self_and]
          rintro ⟨r, hr', hx⟩
          exact Range.not_mem_of_not_overlaps (hno r hr') hx
        · have h2 : (o.diff range).length = 2 := by simp [Range.diff, hlow, hhigh]
          simp only [List.length_append]
          omega

/-- The loop over the ranges of `other`: given more passes per loop than there can be ranges,
each loop removes the keys of its range. -/
theorem foldlM_removeRange (fuel : ℕ) :
    ∀ (rs ranges : List (Range Key)), (∀ r ∈ rs, r.start < r.end) → WellFormed ranges →
      ranges.length + rs.length < fuel →
      ∃ res, rs.foldlM (fun ranges range => removeRange range fuel ranges) ranges = some res ∧
        WellFormed res ∧ keys res = keys ranges \ keys rs
  | [], ranges, _, h, _ => ⟨ranges, rfl, h, by simp⟩
  | r :: rs, ranges, hne, h, hfuel => by
    simp only [List.length_cons] at hfuel
    have hcount : ranges.countP (fun x => decide (x.Overlaps r)) < fuel :=
      lt_of_le_of_lt List.countP_le_length (by omega)
    obtain ⟨res₁, h₁, hwf₁, hkeys₁, hlen₁⟩ :=
      removeRange_spec (hne r List.mem_cons_self) fuel ranges h hcount
    obtain ⟨res, hres, hwf, hkeys⟩ := foldlM_removeRange fuel rs res₁
      (fun x hx => hne x (List.mem_cons_of_mem _ hx)) hwf₁ (by omega)
    refine ⟨res, ?_, hwf, ?_⟩
    · rw [List.foldlM_cons, h₁]
      exact hres
    · rw [hkeys, hkeys₁, keys_cons, Set.sdiff_sdiff]

/-- The ranges of `other` that `remove_overlapping_with` skips hold no key of `self`: those it
skips at the front end before `self` starts, and those it stops at start after `self` ends. -/
theorem keys_dropWhile_takeWhile {a : Range Key} {rest : List (Range Key)}
    (hself : WellFormed (a :: rest)) {others : List (Range Key)} (hother : WellFormed others)
    {x : Key} (hx : x ∈ keys (a :: rest)) (hxo : x ∈ keys others) :
    x ∈ keys (((others.dropWhile fun range => a.start ≥ range.end).takeWhile fun range =>
      ((a :: rest).getLast (List.cons_ne_nil a rest)).end > range.start)) := by
  set selfEnd := ((a :: rest).getLast (List.cons_ne_nil a rest)).end
  set front := others.dropWhile fun range => a.start ≥ range.end
  have hbounds := hself.bounds hx
  have hsplit : others = (others.takeWhile fun range => a.start ≥ range.end) ++
      ((front.takeWhile fun range => selfEnd > range.start) ++
        front.dropWhile fun range => selfEnd > range.start) := by
    simp only [front, List.takeWhile_append_dropWhile]
  obtain ⟨r, hr, hrx⟩ := hxo
  rw [hsplit] at hr
  simp only [List.mem_append] at hr
  rcases hr with hr | hr | hr
  · -- a range skipped at the front ends at or before `self` starts
    have := List.mem_takeWhile_imp hr
    simp only [decide_eq_true_eq] at this
    exact absurd (lt_of_le_of_lt hbounds.1 hrx.2) (not_lt.2 this)
  · exact ⟨r, hr, hrx⟩
  · -- the first range left after the last one kept starts at or after `self` ends
    have hback : WellFormed (front.dropWhile fun range => selfEnd > range.start) :=
      hother.sublist ((List.dropWhile_sublist _).trans (List.dropWhile_sublist _))
    cases hE : front.dropWhile (fun range => selfEnd > range.start) with
    | nil => simp [hE] at hr
    | cons e back =>
      have he := @List.head_dropWhile_not _ (fun range : Range Key => decide (selfEnd > range.start))
        front (by simp [hE])
      simp only [hE, List.head_cons, decide_eq_false_iff_not, not_lt] at he
      rw [hE] at hr hback
      have hre : selfEnd ≤ r.start := by
        rcases List.mem_cons.1 hr with rfl | hr
        · exact he
        · exact le_trans he (le_of_lt ((List.pairwise_cons.1 hback.starts).1 r hr))
      exact absurd (lt_of_lt_of_le hbounds.2 hre) (not_lt.2 hrx.1)

/-- `remove_overlapping_with` of well-formed key spaces, given more passes per loop than there
can be ranges, stops and leaves a well-formed key space holding the keys of `self` that are not
in `other`. -/
theorem removeOverlappingWith_spec (self other : KeySpace) (hself : WellFormed self.ranges)
    (hother : WellFormed other.ranges) (fuel : ℕ)
    (hfuel : self.ranges.length + other.ranges.length < fuel) :
    ∃ ks, self.removeOverlappingWith fuel other = some ks ∧ WellFormed ks.ranges ∧
      keys ks.ranges = keys self.ranges \ keys other.ranges := by
  obtain ⟨ranges⟩ := self
  cases ranges with
  | nil => exact ⟨⟨[]⟩, rfl, wellFormed_nil, by simp⟩
  | cons a rest =>
    set otherRanges := (other.ranges.dropWhile fun range => a.start ≥ range.end).takeWhile
      fun range => ((a :: rest).getLast (List.cons_ne_nil a rest)).end > range.start
    have hsub : otherRanges.Sublist other.ranges :=
      (List.takeWhile_sublist _).trans (List.dropWhile_sublist _)
    obtain ⟨res, hres, hwf, hkeys⟩ := foldlM_removeRange fuel otherRanges (a :: rest)
      (fun r hr => hother.nonempty r (hsub.subset hr)) hself
      (lt_of_le_of_lt (Nat.add_le_add_left hsub.length_le _) hfuel)
    refine ⟨⟨res⟩, ?_, hwf, ?_⟩
    · simp only [removeOverlappingWith, KeySpace.start, KeySpace.end, List.head?_cons,
        Option.map_some, List.getLast?_eq_some_getLast (List.cons_ne_nil a rest)]
      rw [hres]
      rfl
    · rw [hkeys]
      ext x
      simp only [Set.mem_sdiff]
      constructor
      · rintro ⟨hx, hxo⟩
        exact ⟨hx, fun hxo' => hxo (keys_dropWhile_takeWhile hself hother hx hxo')⟩
      · rintro ⟨hx, hxo⟩
        exact ⟨hx, fun ⟨r, hr, hrx⟩ => hxo ⟨r, hsub.subset hr, hrx⟩⟩

theorem removeOverlappingWith_spec_split :
    WellFormed [(⟨⟨0, 0, 0, 0, 0, 0⟩, ⟨0, 0, 0, 0, 0, 10⟩⟩ : Range Key)] ∧
      WellFormed [(⟨⟨0, 0, 0, 0, 0, 3⟩, ⟨0, 0, 0, 0, 0, 5⟩⟩ : Range Key)] ∧ 1 + 1 < 3 ∧
      ∃ ks, (KeySpace.mk [⟨⟨0, 0, 0, 0, 0, 0⟩, ⟨0, 0, 0, 0, 0, 10⟩⟩]).removeOverlappingWith 3
          ⟨[⟨⟨0, 0, 0, 0, 0, 3⟩, ⟨0, 0, 0, 0, 0, 5⟩⟩]⟩ = some ks ∧ WellFormed ks.ranges ∧
        keys ks.ranges = keys [(⟨⟨0, 0, 0, 0, 0, 0⟩, ⟨0, 0, 0, 0, 0, 10⟩⟩ : Range Key)] \
          keys [(⟨⟨0, 0, 0, 0, 0, 3⟩, ⟨0, 0, 0, 0, 0, 5⟩⟩ : Range Key)] :=
  have hself : WellFormed [(⟨⟨0, 0, 0, 0, 0, 0⟩, ⟨0, 0, 0, 0, 0, 10⟩⟩ : Range Key)] :=
    ⟨by decide, by decide⟩
  have hother : WellFormed [(⟨⟨0, 0, 0, 0, 0, 3⟩, ⟨0, 0, 0, 0, 0, 5⟩⟩ : Range Key)] :=
    ⟨by decide, by decide⟩
  ⟨hself, hother, by decide, removeOverlappingWith_spec ⟨_⟩ ⟨_⟩ hself hother 3 (by decide)⟩

end KeySpace

/-! ## Sizes of key ranges -/

/-- `key_range_size`: the number of keys of a range whose ends agree in the first four fields,
at most `u32::MAX`, and `u32::MAX` for any other range. -/
def keyRangeSize (keyRange : Range Key) : UInt32 :=
  let start := keyRange.start
  let «end» := keyRange.end
  if «end».field1 ≠ start.field1 ∨ «end».field2 ≠ start.field2 ∨ «end».field3 ≠ start.field3 ∨
      «end».field4 ≠ start.field4 then
    0xFFFFFFFF
  else
    let start := (start.field5.toUInt64 <<< 32) ||| start.field6.toUInt64
    let «end» := («end».field5.toUInt64 <<< 32) ||| «end».field6.toUInt64
    let diff := «end» - start
    if diff > 0xFFFFFFFF then 0xFFFFFFFF else diff.toUInt32

/-! ## Accumulating key spaces -/

/-- `KeySpaceAccum`: the range being built and the ranges closed before it, with the number
of keys added. -/
structure KeySpaceAccum where
  accum : Option (Range Key)
  ranges : List (Range Key)
  size : UInt64

namespace KeySpaceAccum

/-- `KeySpaceAccum::new`. -/
def new : KeySpaceAccum := ⟨none, [], 0⟩

/-- `KeySpaceAccum::add_range`: a range that starts where the range being built ends extends
it; any other must start after it, and closes it. -/
def addRange (self : KeySpaceAccum) (range : Range Key) : Except String KeySpaceAccum :=
  let size := self.size + (keyRangeSize range).toUInt64
  match self.accum with
  | some accum =>
    if range.start = accum.end then .ok ⟨some { accum with «end» := range.end }, self.ranges, size⟩
    else if range.start > accum.end then .ok ⟨some range, self.ranges ++ [accum], size⟩
    else .error "assertion failed: range.start > accum.end"
  | none => .ok ⟨some range, self.ranges, size⟩

/-- `KeySpaceAccum::to_keyspace`. -/
def toKeyspace (self : KeySpaceAccum) : KeySpace := ⟨self.ranges ++ self.accum.toList⟩

/-- Adding ranges in order, each starting at or after the end of the one before, to an
accumulator building `cur`: no assertion fails, the ranges coalesce, and the size grows by
their `key_range_size`s, modulo `2 ^ 64`. -/
theorem foldlM_addRange : ∀ (rs : List (Range Key)) (acc : KeySpaceAccum) (cur : Range Key),
    acc.accum = some cur → List.IsChain (fun a b => a.end ≤ b.start) (cur :: rs) →
    ∃ acc', rs.foldlM addRange acc = .ok acc' ∧
      acc'.toKeyspace.ranges = acc.ranges ++ coalesceFrom cur rs ∧
      acc'.size.toNat = (acc.size.toNat + (rs.map fun r => (keyRangeSize r).toNat).sum) % 2 ^ 64
  | [], acc, cur, hacc, _ => by
    refine ⟨acc, rfl, by simp [toKeyspace, hacc, coalesceFrom], ?_⟩
    simp [Nat.mod_eq_of_lt acc.size.toNat_lt]
  | r :: rs, acc, cur, hacc, hchain => by
    rw [List.isChain_cons_cons] at hchain
    have hsize : (acc.size + (keyRangeSize r).toUInt64).toNat =
        (acc.size.toNat + (keyRangeSize r).toNat) % 2 ^ 64 := by
      rw [UInt64.toNat_add, UInt32.toNat_toUInt64]
    by_cases htouch : r.start = cur.end
    · -- `r` extends the range being built
      have hstep : acc.addRange r =
          .ok ⟨some ⟨cur.start, r.end⟩, acc.ranges, acc.size + (keyRangeSize r).toUInt64⟩ := by
        simp [addRange, hacc, htouch]
      have hchain' : List.IsChain (fun a b => a.end ≤ b.start)
          ((⟨cur.start, r.end⟩ : Range Key) :: rs) := by
        cases rs with
        | nil => exact List.isChain_singleton _
        | cons s rs => exact List.isChain_cons_cons.2 (List.isChain_cons_cons.1 hchain.2)
      obtain ⟨acc', hrun, hranges, hsize'⟩ := foldlM_addRange rs
        ⟨some ⟨cur.start, r.end⟩, acc.ranges, acc.size + (keyRangeSize r).toUInt64⟩ _ rfl hchain'
      refine ⟨acc', by rw [List.foldlM_cons, hstep]; exact hrun, ?_, ?_⟩
      · rw [hranges, coalesceFrom, if_pos htouch.symm]
      · rw [hsize', hsize, List.map_cons, List.sum_cons, Nat.mod_add_mod, Nat.add_assoc]
    · -- `r` starts after the range being built, which it closes
      have hgap : cur.end < r.start := lt_of_le_of_ne hchain.1 (Ne.symm htouch)
      have hstep : acc.addRange r =
          .ok ⟨some r, acc.ranges ++ [cur], acc.size + (keyRangeSize r).toUInt64⟩ := by
        simp [addRange, hacc, htouch, hgap]
      obtain ⟨acc', hrun, hranges, hsize'⟩ := foldlM_addRange rs
        ⟨some r, acc.ranges ++ [cur], acc.size + (keyRangeSize r).toUInt64⟩ _ rfl hchain.2
      refine ⟨acc', by rw [List.foldlM_cons, hstep]; exact hrun, ?_, ?_⟩
      · rw [hranges, coalesceFrom, if_neg (Ne.symm htouch)]
        simp
      · rw [hsize', hsize, List.map_cons, List.sum_cons, Nat.mod_add_mod, Nat.add_assoc]

/-- Adding ranges in order to a new accumulator: no assertion fails, `to_keyspace` gives the
ranges with those that touch coalesced, and `size()` is the sum of their `key_range_size`s
modulo `2 ^ 64`. -/
theorem foldlM_addRange_new (rs : List (Range Key))
    (hchain : List.IsChain (fun a b => a.end ≤ b.start) rs) :
    ∃ acc, rs.foldlM addRange new = .ok acc ∧ acc.toKeyspace.ranges = coalesce rs ∧
      acc.size.toNat = (rs.map fun r => (keyRangeSize r).toNat).sum % 2 ^ 64 := by
  cases rs with
  | nil => exact ⟨new, rfl, rfl, rfl⟩
  | cons r rs =>
    have hstep : new.addRange r = .ok ⟨some r, [], (keyRangeSize r).toUInt64⟩ := by
      simp [addRange, new]
    obtain ⟨acc, hrun, hranges, hsize⟩ := foldlM_addRange rs ⟨some r, [], (keyRangeSize r).toUInt64⟩ r rfl
      hchain
    refine ⟨acc, by rw [List.foldlM_cons, hstep]; exact hrun, by simpa [coalesce] using hranges, ?_⟩
    rw [hsize, List.map_cons, List.sum_cons, UInt32.toNat_toUInt64]

end KeySpaceAccum

/-- `KeySpaceRandomAccum`: the ranges added, in any order. -/
structure KeySpaceRandomAccum where
  ranges : List (Range Key)

namespace KeySpaceRandomAccum

/-- `KeySpaceRandomAccum::new`. -/
def new : KeySpaceRandomAccum := ⟨[]⟩

/-- `KeySpaceRandomAccum::add_range`. -/
def addRange (self : KeySpaceRandomAccum) (range : Range Key) : KeySpaceRandomAccum :=
  ⟨self.ranges ++ [range]⟩

/-- One pass of the loop of `KeySpaceRandomAccum::to_keyspace` over the sorted ranges: a range
that starts after the end of the range being built closes it, any other extends it. -/
def mergeStep (acc : List (Range Key) × Key × Key) (r : Range Key) :
    Except String (List (Range Key) × Key × Key) :=
  let (ranges, start, «end») := acc
  if r.start ≥ start then
    if r.start > «end» then .ok (ranges ++ [⟨start, «end»⟩], r.start, r.end)
    else if r.end > «end» then .ok (ranges, start, r.end)
    else .ok (ranges, start, «end»)
  else .error "assertion failed: r.start >= start"

/-- `KeySpaceRandomAccum::to_keyspace`: the ranges sorted by start with a stable sort, then
merged in one pass. -/
def toKeyspace (self : KeySpaceRandomAccum) : Except String KeySpace :=
  match self.ranges.mergeSort (fun a b => a.start ≤ b.start) with
  | [] => .ok ⟨[]⟩
  | first :: rest => do
    let (ranges, start, «end») ← (first :: rest).foldlM mergeStep ([], first.start, first.end)
    pure ⟨ranges ++ [⟨start, «end»⟩]⟩

/-- What the merge keeps: the closed ranges and the one being built are non-empty, none
touches the next, and they hold the keys `keys`. -/
def MergeInv (acc : List (Range Key) × Key × Key) (keys' : Set Key) : Prop :=
  WellFormed (acc.1 ++ [⟨acc.2.1, acc.2.2⟩]) ∧ Separated (acc.1 ++ [⟨acc.2.1, acc.2.2⟩]) ∧
    keys (acc.1 ++ [⟨acc.2.1, acc.2.2⟩]) = keys'

/-- One pass of the merge, over a non-empty range that starts at or after the range being
built. -/
theorem mergeStep_inv {acc : List (Range Key) × Key × Key} {keys' : Set Key} {r : Range Key}
    (h : MergeInv acc keys') (hr : r.start < r.end) (hle : acc.2.1 ≤ r.start) :
    ∃ acc', mergeStep acc r = .ok acc' ∧ MergeInv acc' (keys' ∪ r.toSet) ∧
      acc'.2.1 ≤ r.start := by
  obtain ⟨ranges, start, «end»⟩ := acc
  obtain ⟨hwf, hsep, hkeys⟩ := h
  simp only at hle hwf hsep hkeys
  have hcur : start < «end» := hwf.nonempty _ (List.mem_append_right _ List.mem_cons_self)
  by_cases hgap : «end» < r.start
  · -- `r` closes the range being built and starts the next
    refine ⟨(ranges ++ [⟨start, «end»⟩], r.start, r.end), by simp [mergeStep, hle, hgap],
      ⟨hwf.snoc hr hgap.le, hsep.snoc hwf hgap, ?_⟩, le_rfl⟩
    rw [keys_append, hkeys, keys_cons, keys_nil, Set.union_empty]
  · have hstart : r.start ≤ «end» := not_lt.1 hgap
    by_cases hlonger : «end» < r.end
    · -- `r` extends the range being built
      refine ⟨(ranges, start, r.end), by simp [mergeStep, hle, hgap, hlonger],
        ⟨hwf.extend_last (lt_trans hcur hlonger), hsep.extend_last, ?_⟩, hle⟩
      have hunion : Set.Ico start «end» ∪ Set.Ico r.start r.end = Set.Ico start r.end := by
        rw [Set.Ico_union_Ico' hstart (le_trans hle hr.le), min_eq_left hle,
          max_eq_right hlonger.le]
      simp only at hkeys ⊢
      rw [← hkeys, keys_append, keys_append, keys_cons, keys_cons, keys_nil, Set.union_empty,
        Set.union_empty, Set.union_assoc]
      exact congrArg _ hunion.symm
    · -- `r` lies inside the range being built
      refine ⟨(ranges, start, «end»), by simp [mergeStep, hle, hgap, hlonger],
        ⟨hwf, hsep, ?_⟩, hle⟩
      have hsub : r.toSet ⊆ keys (ranges ++ [⟨start, «end»⟩]) := fun x hx =>
        ⟨⟨start, «end»⟩, List.mem_append_right _ List.mem_cons_self,
          le_trans hle hx.1, lt_of_lt_of_le hx.2 (not_lt.1 hlonger)⟩
      rw [← hkeys]
      exact (Set.union_eq_left.2 hsub).symm

/-- The merge over ranges sorted by start, from a range being built that starts at or before
all of them. -/
theorem foldlM_mergeStep : ∀ (rs : List (Range Key)) (acc : List (Range Key) × Key × Key)
    (keys' : Set Key), MergeInv acc keys' → rs.Pairwise (fun a b => a.start ≤ b.start) →
    (∀ r ∈ rs, r.start < r.end) → (∀ r ∈ rs, acc.2.1 ≤ r.start) →
    ∃ acc', rs.foldlM mergeStep acc = .ok acc' ∧ MergeInv acc' (keys' ∪ keys rs)
  | [], acc, keys', h, _, _, _ => ⟨acc, rfl, by simpa using h⟩
  | r :: rs, acc, keys', h, hs, hne, hle => by
    rw [List.pairwise_cons] at hs
    obtain ⟨acc₁, h₁, hinv₁, hle₁⟩ := mergeStep_inv h (hne r List.mem_cons_self)
      (hle r List.mem_cons_self)
    -- the next range to be built starts at or before every range after `r`
    have hle' : ∀ r' ∈ rs, acc₁.2.1 ≤ r'.start := fun r' hr' => le_trans hle₁ (hs.1 r' hr')
    obtain ⟨acc', h', hinv'⟩ := foldlM_mergeStep rs acc₁ _ hinv₁ hs.2
      (fun r' hr' => hne r' (List.mem_cons_of_mem _ hr')) hle'
    refine ⟨acc', by rw [List.foldlM_cons, h₁]; exact h', ?_⟩
    rw [keys_cons, ← Set.union_assoc]
    exact hinv'

theorem ranges_foldl_addRange (rs : List (Range Key)) (acc : KeySpaceRandomAccum) :
    (rs.foldl addRange acc).ranges = acc.ranges ++ rs := by
  induction rs generalizing acc with
  | nil => simp
  | cons r rs ih => simp [ih, addRange]

/-- Non-empty ranges added in any order: `to_keyspace` never fails its assertion and returns
non-empty ranges in order, none touching the next, holding exactly the keys added. -/
theorem toKeyspace_foldl_addRange (rs : List (Range Key)) (hne : ∀ r ∈ rs, r.start < r.end) :
    ∃ ks, (rs.foldl addRange new).toKeyspace = .ok ks ∧ WellFormed ks.ranges ∧
      Separated ks.ranges ∧ keys ks.ranges = keys rs := by
  have hperm := List.mergeSort_perm rs (fun a b => decide (a.start ≤ b.start))
  have hsorted : (rs.mergeSort fun a b => decide (a.start ≤ b.start)).Pairwise
      (fun a b => a.start ≤ b.start) := by
    have h := @List.pairwise_mergeSort (Range Key) (fun a b => decide (a.start ≤ b.start))
      (fun a b c hab hbc => by
        simp only [decide_eq_true_eq] at hab hbc ⊢
        exact le_trans hab hbc)
      (fun a b => by simpa using le_total a.start b.start) rs
    exact h.imp (by simp)
  unfold toKeyspace
  rw [ranges_foldl_addRange]
  simp only [new, List.nil_append]
  revert hperm hsorted
  cases rs.mergeSort (fun a b => decide (a.start ≤ b.start)) with
  | nil =>
    intro hperm _
    rw [List.nil_perm.1 hperm]
    exact ⟨⟨[]⟩, rfl, wellFormed_nil, List.Pairwise.nil, rfl⟩
  | cons first rest =>
    intro hperm hsorted
    have hne' : ∀ r ∈ first :: rest, r.start < r.end := fun r hr => hne r (hperm.mem_iff.1 hr)
    have hfirst := hne' first List.mem_cons_self
    -- the first range, being built, holds its own keys
    have hinit : MergeInv ([], first.start, first.end) first.toSet :=
      ⟨wellFormed_cons.2 ⟨hfirst, fun _ h => absurd h List.not_mem_nil, wellFormed_nil⟩,
        List.pairwise_singleton _ _, by simp⟩
    have hle : ∀ r ∈ first :: rest, first.start ≤ r.start := by
      intro r hr
      rcases List.mem_cons.1 hr with rfl | hr
      · exact le_rfl
      · exact (List.pairwise_cons.1 hsorted).1 r hr
    obtain ⟨⟨ranges, start, «end»⟩, hrun, hwf, hsep, hkeys⟩ :=
      foldlM_mergeStep (first :: rest) _ _ hinit hsorted hne' hle
    refine ⟨⟨ranges ++ [⟨start, «end»⟩]⟩, by dsimp only; rw [hrun]; rfl, hwf, hsep, ?_⟩
    simp only at hkeys
    rw [hkeys, ← keys_perm hperm, keys_cons, ← Set.union_assoc, Set.union_self]

end KeySpaceRandomAccum

end NeonStorage

namespace NeonStorage

open RangeList

/-! ## The accumulators -/

/-- Non-empty ranges added in any order to a `KeySpaceRandomAccum` give non-empty ranges in
order, none touching the next, holding the keys added.  Ranges that are not inverted, added in
order to a `KeySpaceAccum`, coalesce where they touch and keep their keys, and `size()` is the
sum of their `key_range_size`s modulo `2 ^ 64`. -/
theorem keySpaceAccum_toKeyspace :
    (∀ rs : List (Range Key), (∀ r ∈ rs, r.start < r.end) →
      ∃ ks, (rs.foldl KeySpaceRandomAccum.addRange .new).toKeyspace = .ok ks ∧
        WellFormed ks.ranges ∧ Separated ks.ranges ∧ keys ks.ranges = keys rs) ∧
    ∀ rs : List (Range Key), (∀ r ∈ rs, r.start ≤ r.end) →
      List.IsChain (fun a b => a.end ≤ b.start) rs →
      ∃ acc, rs.foldlM KeySpaceAccum.addRange .new = .ok acc ∧
        acc.toKeyspace.ranges = coalesce rs ∧ keys acc.toKeyspace.ranges = keys rs ∧
        Separated acc.toKeyspace.ranges ∧
        acc.size.toNat = (rs.map fun r => (keyRangeSize r).toNat).sum % 2 ^ 64 := by
  refine ⟨KeySpaceRandomAccum.toKeyspace_foldl_addRange, fun rs hle hchain => ?_⟩
  obtain ⟨acc, hrun, hranges, hsize⟩ := KeySpaceAccum.foldlM_addRange_new rs hchain
  refine ⟨acc, hrun, hranges, ?_, ?_, hsize⟩
  · cases rs with
    | nil => simp [hranges, coalesce]
    | cons r rs =>
      rw [hranges, coalesce, keys_coalesceFrom (hle r List.mem_cons_self)
        (fun r' h => hle r' (List.mem_cons_of_mem _ h)), keys_cons]
  · cases rs with
    | nil => simp [hranges, coalesce, Separated]
    | cons r rs =>
      rw [hranges, coalesce]
      exact separated_coalesceFrom (fun r' h => hle r' (List.mem_cons_of_mem _ h)) hchain
        (hle r List.mem_cons_self)

/-- Two touching ranges: added out of order to a `KeySpaceRandomAccum`, and in order to a
`KeySpaceAccum`, which coalesces them. -/
theorem keySpaceAccum_toKeyspace_touching :
    (∃ ks, ([(⟨⟨0, 0, 0, 0, 0, 3⟩, ⟨0, 0, 0, 0, 0, 5⟩⟩ : Range Key),
        ⟨⟨0, 0, 0, 0, 0, 0⟩, ⟨0, 0, 0, 0, 0, 3⟩⟩].foldl KeySpaceRandomAccum.addRange .new).toKeyspace =
          .ok ks ∧ WellFormed ks.ranges ∧ Separated ks.ranges ∧
        keys ks.ranges = keys [(⟨⟨0, 0, 0, 0, 0, 3⟩, ⟨0, 0, 0, 0, 0, 5⟩⟩ : Range Key),
          ⟨⟨0, 0, 0, 0, 0, 0⟩, ⟨0, 0, 0, 0, 0, 3⟩⟩]) ∧
    ∃ acc, [(⟨⟨0, 0, 0, 0, 0, 0⟩, ⟨0, 0, 0, 0, 0, 3⟩⟩ : Range Key),
        ⟨⟨0, 0, 0, 0, 0, 3⟩, ⟨0, 0, 0, 0, 0, 5⟩⟩].foldlM KeySpaceAccum.addRange .new = .ok acc ∧
      acc.toKeyspace.ranges = [⟨⟨0, 0, 0, 0, 0, 0⟩, ⟨0, 0, 0, 0, 0, 5⟩⟩] ∧
      acc.size.toNat = 5 := by
  obtain ⟨acc, hrun, hranges, -, -, hsize⟩ := keySpaceAccum_toKeyspace.2
    [⟨⟨0, 0, 0, 0, 0, 0⟩, ⟨0, 0, 0, 0, 0, 3⟩⟩, ⟨⟨0, 0, 0, 0, 0, 3⟩, ⟨0, 0, 0, 0, 0, 5⟩⟩]
    (by decide) (by decide)
  exact ⟨keySpaceAccum_toKeyspace.1 _ (by decide), acc, hrun, hranges, hsize⟩

/-- Ranges of one key each, across `field4` boundaries: the `i`-th runs from the key with
`field3 * 2 ^ 32 + field4 = i` to the next. -/
def fieldBoundaryRanges (n : ℕ) : List (Range Key) :=
  (List.range n).map fun i =>
    ⟨⟨0, 0, UInt32.ofNat (i / 2 ^ 32), UInt32.ofNat i, 0, 0⟩,
      ⟨0, 0, UInt32.ofNat ((i + 1) / 2 ^ 32), UInt32.ofNat (i + 1), 0, 0⟩⟩

/-- A range whose ends differ in `field4` counts as `u32::MAX` keys, however few it holds. -/
theorem keyRangeSize_of_field4_ne {keyRange : Range Key}
    (h : keyRange.end.field4 ≠ keyRange.start.field4) : keyRangeSize keyRange = 0xFFFFFFFF := by
  unfold keyRangeSize
  rw [if_pos (Or.inr (Or.inr (Or.inr h)))]

theorem keyRangeSize_fieldBoundaryRanges {n : ℕ} {r : Range Key}
    (hr : r ∈ fieldBoundaryRanges n) : keyRangeSize r = 0xFFFFFFFF := by
  obtain ⟨i, -, rfl⟩ := List.mem_map.1 hr
  apply keyRangeSize_of_field4_ne
  intro h
  have h' := congrArg UInt32.toNat h
  simp only [UInt32.toNat_ofNat'] at h'
  omega

theorem isChain_fieldBoundaryRanges (n : ℕ) :
    List.IsChain (fun a b => a.end ≤ b.start) (fieldBoundaryRanges n) := by
  rw [fieldBoundaryRanges, List.isChain_map, List.isChain_range]
  intro m _
  exact le_rfl

/-- Every range of `fieldBoundaryRanges n` counts `u32::MAX` keys. -/
theorem sum_keyRangeSize_fieldBoundaryRanges (n : ℕ) :
    ((fieldBoundaryRanges n).map fun r => (keyRangeSize r).toNat).sum = n * 0xFFFFFFFF := by
  rw [List.map_congr_left (fun r hr => by rw [keyRangeSize_fieldBoundaryRanges hr]),
    List.map_const', List.sum_replicate, smul_eq_mul]
  simp [fieldBoundaryRanges]

/-- The accumulator loses keys in one case and miscounts them in another.  An inverted range
followed by a range starting at its end: the accumulator coalesces them into an inverted range,
which holds none of the keys of the second.  And `2 ^ 32 + 2` touching ranges that each cross a
`field4` boundary: each counts `u32::MAX` keys, their sum passes `2 ^ 64`, and the `u64` size
wraps. -/
theorem keySpaceAccum_inverted_and_wrapping :
    ([(⟨⟨0, 0, 0, 0, 0, 5⟩, ⟨0, 0, 0, 0, 0, 3⟩⟩ : Range Key),
        ⟨⟨0, 0, 0, 0, 0, 3⟩, ⟨0, 0, 0, 0, 0, 4⟩⟩].foldlM KeySpaceAccum.addRange .new).map
        (·.toKeyspace.ranges) =
        .ok [⟨⟨0, 0, 0, 0, 0, 5⟩, ⟨0, 0, 0, 0, 0, 4⟩⟩] ∧
      (⟨0, 0, 0, 0, 0, 3⟩ : Key) ∈ keys [(⟨⟨0, 0, 0, 0, 0, 5⟩, ⟨0, 0, 0, 0, 0, 3⟩⟩ : Range Key),
        ⟨⟨0, 0, 0, 0, 0, 3⟩, ⟨0, 0, 0, 0, 0, 4⟩⟩] ∧
      (⟨0, 0, 0, 0, 0, 3⟩ : Key) ∉ keys [(⟨⟨0, 0, 0, 0, 0, 5⟩, ⟨0, 0, 0, 0, 0, 4⟩⟩ : Range Key)] ∧
      ∃ acc, (fieldBoundaryRanges (2 ^ 32 + 2)).foldlM KeySpaceAccum.addRange .new = .ok acc ∧
        acc.size.toNat ≠
          ((fieldBoundaryRanges (2 ^ 32 + 2)).map fun r => (keyRangeSize r).toNat).sum := by
  refine ⟨by decide, ?_, ?_, ?_⟩
  · simp [keys, Range.toSet]
    decide
  · simp [keys, Range.toSet]
    decide
  obtain ⟨acc, hrun, -, hsize⟩ :=
    KeySpaceAccum.foldlM_addRange_new _ (isChain_fieldBoundaryRanges (2 ^ 32 + 2))
  refine ⟨acc, hrun, ?_⟩
  rw [hsize, sum_keyRangeSize_fieldBoundaryRanges]
  norm_num

end NeonStorage
