import NeonStorage.Pageserver.Keyspace
import NeonStorage.PostgresFfi.Multixact

/-!
# Partitioning a key space

`KeySpace::partition` cuts a key space into parts of about `target_size` bytes, counting
`BLCKSZ` bytes a key and `key_range_size` keys a range.  A range that is larger than the target
is cut into pieces of `target_size / BLCKSZ` keys, each a part of its own, and what is left of
it joins the part being filled.

`key_range_size` is exact only for a range whose ends agree on the first four fields; any
other range counts `u32::MAX` keys, however few it holds.  `partition_spec` holds for key spaces
whose ranges hold at least the keys `key_range_size` counts: the pieces then cut each range in
order, and together they hold the key space.  `partition_escapes_range` is a range that holds
fewer.
-/

namespace NeonStorage

open RangeList

/-- The parts `KeySpace::partition` returns. -/
structure KeyPartitioning where
  parts : List KeySpace
  deriving DecidableEq

/-- The ranges of all parts, in order. -/
def KeyPartitioning.ranges (self : KeyPartitioning) : List (Range Key) :=
  self.parts.flatMap (·.ranges)

/-- What `partition` carries from one range of the key space to the next. -/
structure PartitionState where
  parts : List KeySpace
  currentPart : List (Range Key)
  currentPartSize : ℕ

/-- The ranges of the parts pushed so far, then those of the part being filled. -/
def PartitionState.ranges (st : PartitionState) : List (Range Key) :=
  st.parts.flatMap (·.ranges) ++ st.currentPart

namespace KeySpace

/-- The split loop of `partition`: while more than `targetNblocks` keys remain, the next
`targetNblocks` keys from `start` become a part of their own.  The loop runs for at most `fuel`
passes; `none` means that it has not ended. -/
def splitLoop (targetNblocks : ℕ) :
    ℕ → List KeySpace → Key → ℕ → ExceptT String Option (List KeySpace × Key × ℕ)
  | 0, _, _, _ => ExceptT.lift none
  | fuel + 1, parts, start, remainSize =>
    if remainSize > targetNblocks then do
      let next ← start.add (UInt32.ofNat targetNblocks)
      splitLoop targetNblocks fuel (parts ++ [⟨[⟨start, next⟩]⟩]) next
        (remainSize - targetNblocks)
    else pure (parts, start, remainSize)

/-- One pass of the loop over the ranges of `partition`.  The split loop is given
`this_size + 1` passes: with `targetNblocks ≥ 1` it ends within `this_size`, and with
`targetNblocks = 0` and `this_size > 0` it never ends. -/
def partitionStep (targetNblocks : ℕ) (st : PartitionState) (range : Range Key) :
    ExceptT String Option PartitionState := do
  let thisSize := (keyRangeSize range).toNat
  -- a range that would make the current part too large starts a new one
  let st : PartitionState :=
    if st.currentPartSize + thisSize > targetNblocks && !st.currentPart.isEmpty then
      ⟨st.parts ++ [⟨st.currentPart⟩], [], 0⟩
    else st
  let (parts, start, remainSize) ←
    splitLoop targetNblocks (thisSize + 1) st.parts range.start thisSize
  pure ⟨parts, st.currentPart ++ [⟨start, range.end⟩], st.currentPartSize + remainSize⟩

/-- `KeySpace::partition`.  `current_part_size` is a `usize` in the source; it never passes
`target_nblocks + u32::MAX`, so it is a natural number here. -/
def partition (self : KeySpace) (targetSize : UInt64) : ExceptT String Option KeyPartitioning := do
  -- every value is taken to be `BLCKSZ` bytes
  let targetNblocks := (targetSize / PostgresFfi.blcksz.toUInt64).toNat
  let st ← self.ranges.foldlM (partitionStep targetNblocks) ⟨[], [], 0⟩
  -- the last part, not yet full
  pure ⟨if !st.currentPart.isEmpty then st.parts ++ [⟨st.currentPart⟩] else st.parts⟩

theorem splitLoop_succ_of_le {n fuel remainSize : ℕ} {parts : List KeySpace} {start : Key}
    (h : remainSize ≤ n) :
    splitLoop n (fuel + 1) parts start remainSize = pure (parts, start, remainSize) := by
  simp [splitLoop, Nat.not_lt.2 h]

theorem splitLoop_succ_of_lt {n fuel remainSize : ℕ} {parts : List KeySpace} {start next : Key}
    (h : n < remainSize) (hnext : start.add (UInt32.ofNat n) = .ok next) :
    splitLoop n (fuel + 1) parts start remainSize =
      splitLoop n fuel (parts ++ [⟨[⟨start, next⟩]⟩]) next (remainSize - n) := by
  rw [splitLoop, if_pos h, hnext]
  rfl

/-- With `n ≥ 1` and enough passes, the split loop cuts pieces of `n` keys off `start` while
more than `n` keys remain, and stops with between one and `n` keys left (none if there were
none). -/
theorem splitLoop_spec {n : ℕ} (hn : 0 < n) (fuel : ℕ) :
    ∀ (parts : List KeySpace) (start : Key) (remainSize : ℕ),
      remainSize < fuel → remainSize < 2 ^ 32 → start.toNat + remainSize ≤ 2 ^ 144 →
      ∃ ps start' remainSize',
        (splitLoop n fuel parts start remainSize).run =
          some (.ok (parts ++ ps.map fun p => ⟨[p]⟩, start', remainSize')) ∧
        Chains start ps start' ∧ (∀ p ∈ ps, p.end.toNat = p.start.toNat + n) ∧
        (n < remainSize ∨ ps = []) ∧ start'.toNat + remainSize' = start.toNat + remainSize ∧
        remainSize' ≤ n ∧ (0 < remainSize → 0 < remainSize') := by
  induction fuel with
  | zero => intro _ _ _ hfuel; exact absurd hfuel (Nat.not_lt_zero _)
  | succ fuel ih =>
    intro parts start remainSize hfuel hsize hkey
    by_cases h : n < remainSize
    · -- one piece of `n` keys, then the rest of the loop from its end
      have hn32 : (UInt32.ofNat n).toNat = n :=
        UInt32.toNat_ofNat_of_lt' (lt_trans h (by rw [UInt32.size]; exact hsize))
      obtain ⟨next, hnext, hnextNat⟩ :=
        @Key.add_eq_ok start (UInt32.ofNat n) (by rw [hn32]; omega)
      rw [hn32] at hnextNat
      obtain ⟨ps, start', remainSize', hrun, hchain, hpieces, -, hsum, hle, hpos⟩ :=
        ih (parts ++ [⟨[⟨start, next⟩]⟩]) next (remainSize - n) (by omega) (by omega) (by omega)
      refine ⟨⟨start, next⟩ :: ps, start', remainSize', ?_, ⟨rfl, hchain⟩, ?_, Or.inl h,
        by omega, hle, fun _ => hpos (by omega)⟩
      · rw [splitLoop_succ_of_lt h hnext, hrun]
        simp
      · intro p hp
        rcases List.mem_cons.1 hp with rfl | hp
        · exact hnextNat
        · exact hpieces p hp
    · refine ⟨[], start, remainSize, ?_, rfl, by simp, Or.inr rfl, rfl, by omega, id⟩
      rw [splitLoop_succ_of_le (Nat.not_lt.1 h)]
      simp

theorem flatMap_singletons (ps : List (Range Key)) :
    (ps.map fun p => (⟨[p]⟩ : KeySpace)).flatMap (·.ranges) = ps := by
  induction ps with
  | nil => rfl
  | cons p ps ih => simp [ih]

theorem ranges_flush (st : PartitionState) :
    (PartitionState.mk (st.parts ++ [⟨st.currentPart⟩]) [] 0).ranges = st.ranges := by
  simp [PartitionState.ranges]

/-- `ps` cuts `range` into non-empty pieces, in order, all of `n` keys but the last. -/
def PieceSizes (n : ℕ) (range : Range Key) (ps : List (Range Key)) : Prop :=
  ∀ p ∈ ps, p.end ≠ range.end → p.end.toNat = p.start.toNat + n

/-- A range that holds at least the keys `key_range_size` counts is cut, by one pass of the loop
over the ranges, into non-empty pieces in order, all of `n` keys but the last; the pieces
follow the ranges of the parts so far. -/
theorem partitionStep_spec {n : ℕ} (hn : 0 < n) (st : PartitionState) {range : Range Key}
    (hr : range.start < range.end)
    (hsize : (keyRangeSize range).toNat ≤ range.end.toNat - range.start.toNat) :
    ∃ st' ps, (partitionStep n st range).run = some (.ok st') ∧ st'.ranges = st.ranges ++ ps ∧
      Cuts range ps ∧ PieceSizes n range ps := by
  have hlt := (Key.lt_iff_toNat_lt).1 hr
  have hend := range.end.toNat_lt
  have h32 := (keyRangeSize range).toNat_lt
  set thisSize := (keyRangeSize range).toNat with hthis
  set st₁ : PartitionState :=
    if st.currentPartSize + thisSize > n && !st.currentPart.isEmpty then
      ⟨st.parts ++ [⟨st.currentPart⟩], [], 0⟩
    else st with hst₁
  have hranges₁ : st₁.ranges = st.ranges := by
    rw [hst₁]
    split
    · exact ranges_flush st
    · rfl
  obtain ⟨ps, start', remainSize', hrun, hchain, hpieces, hsplit, hsum, -, hpos⟩ :=
    splitLoop_spec hn (thisSize + 1) st₁.parts range.start thisSize (by omega) h32 (by omega)
  -- pieces were cut only if the range is larger than a part, and then the current part was
  -- pushed first
  have hcur : ps = [] ∨ st₁.currentPart = [] := by
    rcases hsplit with hbig | hnil
    · right
      rw [hst₁]
      split
      · rfl
      · next hno =>
        simp only [Bool.and_eq_true, decide_eq_true_eq, Bool.not_eq_true',
          List.isEmpty_eq_false_iff, not_and, ne_eq, not_not] at hno
        exact hno (by omega)
    · exact Or.inl hnil
  have hlast : start' < range.end := by
    rw [Key.lt_iff_toNat_lt]
    by_cases hzero : thisSize = 0
    · omega
    · have := hpos (by omega)
      omega
  refine ⟨⟨st₁.parts ++ ps.map fun p => ⟨[p]⟩, st₁.currentPart ++ [⟨start', range.end⟩],
    st₁.currentPartSize + remainSize'⟩, ps ++ [⟨start', range.end⟩], ?_, ?_, ⟨?_, ?_⟩, ?_⟩
  · simp only [partitionStep, ExceptT.run_bind]
    rw [← hst₁, ← hthis, hrun]
    rfl
  · rw [← hranges₁]
    rcases hcur with rfl | hcur
    · simp [PartitionState.ranges]
    · simp [PartitionState.ranges, hcur, flatMap_singletons]
  · exact Chains.append hchain ⟨rfl, rfl⟩
  · intro p hp
    rcases List.mem_append.1 hp with hp | hp
    · rw [Key.lt_iff_toNat_lt, hpieces p hp]
      omega
    · rw [List.mem_singleton.1 hp]
      exact hlast
  · intro p hp hne
    rcases List.mem_append.1 hp with hp | hp
    · exact hpieces p hp
    · exact absurd (by rw [List.mem_singleton.1 hp]) hne

/-- The loop over the ranges: each range that holds at least the keys `key_range_size` counts
is cut into pieces, which follow those of the ranges before it. -/
theorem foldlM_partitionStep {n : ℕ} (hn : 0 < n) (rs : List (Range Key)) :
    ∀ st : PartitionState,
      (∀ r ∈ rs, r.start < r.end ∧ (keyRangeSize r).toNat ≤ r.end.toNat - r.start.toNat) →
      ∃ st' Ls, (rs.foldlM (partitionStep n) st).run = some (.ok st') ∧
        st'.ranges = st.ranges ++ Ls.flatten ∧
        List.Forall₂ (fun r ps => Cuts r ps ∧ PieceSizes n r ps) rs Ls := by
  induction rs with
  | nil => intro st _; exact ⟨st, [], rfl, by simp, List.Forall₂.nil⟩
  | cons r rs ih =>
    intro st hrs
    obtain ⟨hr, hsize⟩ := hrs r List.mem_cons_self
    obtain ⟨st₁, ps, hstep, hranges₁, hcut, hsizes⟩ := partitionStep_spec hn st hr hsize
    obtain ⟨st', Ls, hrun, hranges, hall⟩ :=
      ih st₁ fun r' h => hrs r' (List.mem_cons_of_mem _ h)
    refine ⟨st', ps :: Ls, ?_, ?_, List.Forall₂.cons ⟨hcut, hsizes⟩ hall⟩
    · rw [List.foldlM_cons, ExceptT.run_bind, hstep]
      exact hrun
    · rw [hranges, hranges₁, List.flatten_cons, List.append_assoc]

/-- Pushing the last part keeps the ranges, in order. -/
theorem ranges_pushLastPart (st : PartitionState) :
    (⟨if !st.currentPart.isEmpty then st.parts ++ [⟨st.currentPart⟩] else st.parts⟩ :
      KeyPartitioning).ranges = st.ranges := by
  cases h : st.currentPart with
  | nil => simp [KeyPartitioning.ranges, PartitionState.ranges, h]
  | cons r rs => simp [KeyPartitioning.ranges, PartitionState.ranges, h]

/-- `target_size / BLCKSZ` is at least one key for a target of at least `BLCKSZ` bytes. -/
theorem targetNblocks_pos {targetSize : UInt64} (h : PostgresFfi.blcksz.toUInt64 ≤ targetSize) :
    0 < (targetSize / PostgresFfi.blcksz.toUInt64).toNat := by
  have h8192 : PostgresFfi.blcksz.toUInt64.toNat = 8192 := rfl
  rw [UInt64.le_iff_toNat_le, h8192] at h
  rw [UInt64.toNat_div, h8192]
  exact Nat.div_pos h (by norm_num)

/-- For a target of at least `BLCKSZ` bytes, and a well-formed key space whose ranges each
hold at least the keys `key_range_size` counts, `partition` ends without a panic.  The
ranges of its parts, in order, are non-empty and sorted, each lies inside a range of the key
space, and together they hold its keys; every piece that does not end where a range of the key
space ends holds exactly `target_size / BLCKSZ` keys. -/
theorem partition_spec (ks : KeySpace) (hks : WellFormed ks.ranges)
    (hsize : ∀ r ∈ ks.ranges, (keyRangeSize r).toNat ≤ r.end.toNat - r.start.toNat)
    (targetSize : UInt64) (htarget : PostgresFfi.blcksz.toUInt64 ≤ targetSize) :
    ∃ kp, (ks.partition targetSize).run = some (.ok kp) ∧ WellFormed kp.ranges ∧
      keys kp.ranges = keys ks.ranges ∧
      (∀ p ∈ kp.ranges, ∃ r ∈ ks.ranges, r.start ≤ p.start ∧ p.end ≤ r.end) ∧
      ∀ p ∈ kp.ranges, p.end ∉ ks.ranges.map (·.end) →
        p.end.toNat - p.start.toNat = (targetSize / PostgresFfi.blcksz.toUInt64).toNat := by
  obtain ⟨st, Ls, hrun, hranges, hall⟩ := foldlM_partitionStep (targetNblocks_pos htarget)
    ks.ranges ⟨[], [], 0⟩ fun r hr => ⟨hks.nonempty r hr, hsize r hr⟩
  have hcuts : List.Forall₂ Cuts ks.ranges Ls := hall.imp fun _ _ h => h.1
  set kp : KeyPartitioning :=
    ⟨if !st.currentPart.isEmpty then st.parts ++ [⟨st.currentPart⟩] else st.parts⟩ with hkp
  have hflat : kp.ranges = Ls.flatten := by
    rw [hkp, ranges_pushLastPart, hranges]
    simp [PartitionState.ranges]
  refine ⟨kp, ?_, ?_, ?_, ?_, ?_⟩
  · simp only [partition, ExceptT.run_bind, hrun]
    rfl
  · rw [hflat]
    exact wellFormed_flatten hks hcuts
  · rw [hflat]
    exact keys_flatten hcuts
  · intro p hp
    rw [hflat] at hp
    obtain ⟨r, hr, ps, hcut, hp'⟩ := exists_of_mem_flatten hcuts hp
    exact ⟨r, hr, hcut.bounds p hp'⟩
  · intro p hp hend
    rw [hflat] at hp
    obtain ⟨r, hr, ps, ⟨-, hsz⟩, hp'⟩ := exists_of_mem_flatten hall hp
    -- a piece that does not end where its range ends was split off it
    have hp_size := hsz p hp' fun h => hend (List.mem_map.2 ⟨r, hr, h.symm⟩)
    omega

theorem partition_spec_four_blocks :
    WellFormed [(⟨⟨0, 0, 0, 0, 0, 0⟩, ⟨0, 0, 0, 0, 0, 10⟩⟩ : Range Key)] ∧
      (∀ r ∈ [(⟨⟨0, 0, 0, 0, 0, 0⟩, ⟨0, 0, 0, 0, 0, 10⟩⟩ : Range Key)],
        (keyRangeSize r).toNat ≤ r.end.toNat - r.start.toNat) ∧
      PostgresFfi.blcksz.toUInt64 ≤ 32768 ∧
      ∃ kp, ((KeySpace.mk [⟨⟨0, 0, 0, 0, 0, 0⟩, ⟨0, 0, 0, 0, 0, 10⟩⟩]).partition 32768).run =
          some (.ok kp) ∧ WellFormed kp.ranges ∧
        keys kp.ranges = keys [(⟨⟨0, 0, 0, 0, 0, 0⟩, ⟨0, 0, 0, 0, 0, 10⟩⟩ : Range Key)] ∧
        (∀ p ∈ kp.ranges, ∃ r ∈ [(⟨⟨0, 0, 0, 0, 0, 0⟩, ⟨0, 0, 0, 0, 0, 10⟩⟩ : Range Key)],
          r.start ≤ p.start ∧ p.end ≤ r.end) ∧
        ∀ p ∈ kp.ranges,
          p.end ∉ [(⟨⟨0, 0, 0, 0, 0, 0⟩, ⟨0, 0, 0, 0, 0, 10⟩⟩ : Range Key)].map (·.end) →
            p.end.toNat - p.start.toNat = (32768 / PostgresFfi.blcksz.toUInt64).toNat :=
  have hks : WellFormed [(⟨⟨0, 0, 0, 0, 0, 0⟩, ⟨0, 0, 0, 0, 0, 10⟩⟩ : Range Key)] :=
    ⟨by decide, by decide⟩
  have hsize : ∀ r ∈ [(⟨⟨0, 0, 0, 0, 0, 0⟩, ⟨0, 0, 0, 0, 0, 10⟩⟩ : Range Key)],
      (keyRangeSize r).toNat ≤ r.end.toNat - r.start.toNat := by decide
  ⟨hks, hsize, by decide, partition_spec ⟨_⟩ hks hsize 32768 (by decide)⟩

/-- A range that holds one key but whose ends differ in `field4` counts `u32::MAX` keys.  With
a target of `2 ^ 31` blocks, `partition` cuts off a first piece of `2 ^ 31` keys, which runs
past the end of the range, and leaves an inverted last piece. -/
theorem partition_escapes_range :
    WellFormed [(⟨⟨0, 0, 0, 0, 0xff, 0xffffffff⟩, ⟨0, 0, 0, 1, 0, 0⟩⟩ : Range Key)] ∧
      PostgresFfi.blcksz.toUInt64 ≤ 0x100000000000 ∧
      ((KeySpace.mk [⟨⟨0, 0, 0, 0, 0xff, 0xffffffff⟩, ⟨0, 0, 0, 1, 0, 0⟩⟩]).partition
          0x100000000000).run =
        some (.ok ⟨[⟨[⟨⟨0, 0, 0, 0, 0xff, 0xffffffff⟩, ⟨0, 0, 0, 1, 0, 0x7fffffff⟩⟩]⟩,
          ⟨[⟨⟨0, 0, 0, 1, 0, 0x7fffffff⟩, ⟨0, 0, 0, 1, 0, 0⟩⟩]⟩]⟩) ∧
      (⟨0, 0, 0, 1, 0, 5⟩ : Key) ∈
        keys [(⟨⟨0, 0, 0, 0, 0xff, 0xffffffff⟩, ⟨0, 0, 0, 1, 0, 0x7fffffff⟩⟩ : Range Key)] ∧
      (⟨0, 0, 0, 1, 0, 5⟩ : Key) ∉
        keys [(⟨⟨0, 0, 0, 0, 0xff, 0xffffffff⟩, ⟨0, 0, 0, 1, 0, 0⟩⟩ : Range Key)] := by
  refine ⟨⟨by decide, by decide⟩, by decide, by decide, ?_, ?_⟩
  · simp only [mem_keys, List.mem_singleton, Range.mem_toSet, exists_eq_left]
    decide
  · simp only [mem_keys, List.mem_singleton, Range.mem_toSet, exists_eq_left]
    decide

end KeySpace

end NeonStorage
