import NeonStorage.Lib.BinarySearch
import NeonStorage.Lib.Text

/-!
# The materialized page cache

`pageserver/src/page_cache.rs` keeps a fixed array of page-sized slots.  A slot holds the key
of what it caches: a materialized page at an LSN, or a page of an immutable file.  Two maps
find the slot of a key: `materialized_page_map` keeps, for each page, the cached versions
sorted by LSN with their slots, and `immutable_page_map` the slot of each file page.  A lookup
of a materialized page at an LSN binary-searches the versions for the latest one at or below
it (`search_mapping`).  To cache a new page, `memorize_materialized_page` takes a victim slot
by the clock algorithm over the slots' usage counts (`find_victim`), removes the victim's old
mapping, maps the new key to the slot and copies the page in.

The model is the cache of one thread: the locks, the pinned-slot permits and the metrics are
left out, so a `try_write` always succeeds and `find_victim` ends by its usage counts alone.
The hash key of a materialized page (tenant shard, timeline and page key) is the type
parameter `K`, which the cache only compares.  `memorize_materialized_page` loops back when
another thread has mapped the key in the meantime; its loop runs on fuel.

The invariant (`Inv`) says that the maps and the slots agree: a key is mapped to a slot
exactly when the slot holds that key, and each page's versions are sorted by LSN with no LSN
twice.  It holds of a new cache and each operation keeps it; a lookup returns the latest cached
version at or below its LSN (`lookupMaterializedPage_spec`); and a cache whose pages are right
stays right (`Sound`), which makes the assertion of `memorize_materialized_page` that a page
cached twice was cached with the same contents never fail (`memorizeMaterializedPage_ok`).
-/

namespace NeonStorage

open BinarySearch Text

namespace PageCache

/-- `PAGE_SZ`. -/
def pageSz : ℕ := 8192

/-- `MAX_USAGE_COUNT`. -/
def maxUsageCount : UInt8 := 5

/-- `FileId`. -/
structure FileId where
  val : UInt64
deriving DecidableEq, Repr

/-- `CacheKey`, with `MaterializedPageHashKey` the type parameter `K`. -/
inductive CacheKey (K : Type) where
  | materializedPage (hashKey : K) (lsn : UInt64)
  | immutableFilePage (fileId : FileId) (blkno : UInt32)
deriving DecidableEq, Repr

/-- `Version`: a cached version of a materialized page and the slot that holds it. -/
structure Version where
  lsn : UInt64
  slotIdx : ℕ
deriving DecidableEq, Repr

/-- A `Slot` with its `SlotInner`: the key of what it holds, its usage count and its buffer. -/
structure Slot (K : Type) where
  key : Option (CacheKey K)
  usageCount : UInt8
  buf : List UInt8
deriving DecidableEq, Repr

variable {K : Type}

namespace Slot

/-- `Slot::inc_usage_count`, with a ceiling at `MAX_USAGE_COUNT`. -/
def incUsageCount (s : Slot K) : Slot K :=
  if s.usageCount = maxUsageCount then s else { s with usageCount := s.usageCount + 1 }

/-- `Slot::dec_usage_count`: the old count, and the slot with its count lowered unless it was
zero. -/
def decUsageCount (s : Slot K) : UInt8 × Slot K :=
  if s.usageCount = 0 then (0, s) else (s.usageCount, { s with usageCount := s.usageCount - 1 })

@[simp] theorem key_incUsageCount (s : Slot K) : s.incUsageCount.key = s.key := by
  unfold incUsageCount
  split <;> rfl

@[simp] theorem buf_incUsageCount (s : Slot K) : s.incUsageCount.buf = s.buf := by
  unfold incUsageCount
  split <;> rfl

@[simp] theorem key_decUsageCount (s : Slot K) : s.decUsageCount.2.key = s.key := by
  unfold decUsageCount
  split <;> rfl

@[simp] theorem buf_decUsageCount (s : Slot K) : s.decUsageCount.2.buf = s.buf := by
  unfold decUsageCount
  split <;> rfl

end Slot

/-- The usage counts of the slots, added up: what the clock hand wears down. -/
def usageTotal (slots : List (Slot K)) : ℕ := (slots.map fun s => s.usageCount.toNat).sum

theorem sum_eq_take_getElem_drop (l : List ℕ) {i : ℕ} (hi : i < l.length) :
    l.sum = (l.take i).sum + l[i] + (l.drop (i + 1)).sum := by
  conv_lhs => rw [← List.take_append_drop i l, List.drop_eq_getElem_cons hi, List.sum_append,
    List.sum_cons]
  omega

/-- Lowering a positive usage count lowers the total. -/
theorem usageTotal_set_decUsageCount_lt {slots : List (Slot K)} {i : ℕ} (hi : i < slots.length)
    (hpos : slots[i].usageCount ≠ 0) :
    usageTotal (slots.set i slots[i].decUsageCount.2) < usageTotal slots := by
  have hdec : slots[i].decUsageCount.2.usageCount.toNat + 1 = slots[i].usageCount.toNat := by
    have h0 : slots[i].usageCount.toNat ≠ 0 := fun h => hpos (UInt8.toNat_inj.mp (by simpa using h))
    simp only [Slot.decUsageCount, if_neg hpos]
    rw [UInt8.toNat_sub_of_le _ _
        (UInt8.le_iff_toNat_le.mpr (by simp only [UInt8.toNat_one]; omega)),
      UInt8.toNat_one]
    omega
  have hlen : i < (slots.map fun s => s.usageCount.toNat).length := by simpa using hi
  unfold usageTotal
  rw [List.map_set, List.sum_set, sum_eq_take_getElem_drop _ hlen]
  simp only [List.length_map, hi, if_true, List.getElem_map]
  omega

end PageCache

/-- `PageCache`: the two maps, the slots and the clock hand of the victim search. -/
structure PageCache (K : Type) where
  materializedPageMap : K → Option (List PageCache.Version)
  immutablePageMap : PageCache.FileId × UInt32 → Option ℕ
  slots : List (PageCache.Slot K)
  nextEvictSlot : ℕ

namespace PageCache

variable {K : Type} [DecidableEq K]

/-! ## The maps -/

/-- `PageCache::search_mapping`: the slot of the version found and the search key with the
version's LSN.  For a materialized page, the latest version at or below the LSN. -/
def searchMapping (self : PageCache K) (cacheKey : CacheKey K) : Option (ℕ × CacheKey K) :=
  match cacheKey with
  | .materializedPage hashKey lsn =>
    match self.materializedPageMap hashKey with
    | none => none
    | some versions =>
      match h : binarySearchByKey versions lsn Version.lsn with
      | .ok versionIdx =>
        let version := versions.get ⟨versionIdx, lt_of_binarySearchBy_ok h⟩
        some (version.slotIdx, .materializedPage hashKey version.lsn)
      | .error 0 => none
      | .error (versionIdx + 1) =>
        let version := versions.get ⟨versionIdx, le_of_binarySearchBy_error h⟩
        some (version.slotIdx, .materializedPage hashKey version.lsn)
  | .immutableFilePage fileId blkno =>
    match self.immutablePageMap (fileId, blkno) with
    | none => none
    | some slotIdx => some (slotIdx, cacheKey)

/-- `PageCache::search_mapping_exact`. -/
def searchMappingExact (self : PageCache K) (key : CacheKey K) : Option ℕ :=
  match key with
  | .materializedPage hashKey lsn =>
    match self.materializedPageMap hashKey with
    | none => none
    | some versions =>
      match h : binarySearchByKey versions lsn Version.lsn with
      | .ok versionIdx => some (versions.get ⟨versionIdx, lt_of_binarySearchBy_ok h⟩).slotIdx
      | .error _ => none
  | .immutableFilePage fileId blkno => self.immutablePageMap (fileId, blkno)

/-- `PageCache::remove_mapping`; a key whose page or file page has no entry is a panic. -/
def removeMapping (self : PageCache K) (oldKey : CacheKey K) : Except Panic (PageCache K) :=
  match oldKey with
  | .materializedPage oldHashKey oldLsn =>
    match self.materializedPageMap oldHashKey with
    | some versions =>
      match binarySearchByKey versions oldLsn Version.lsn with
      | .ok versionIdx =>
        let versions := versions.eraseIdx versionIdx
        -- the entry goes when its last version does
        .ok { self with
          materializedPageMap := Function.update self.materializedPageMap oldHashKey
            (if versions.isEmpty then none else some versions) }
      | .error _ => .ok self
    | none => .error ⟨"could not find old key in mapping"⟩
  | .immutableFilePage fileId blkno =>
    match self.immutablePageMap (fileId, blkno) with
    | some _ =>
      .ok { self with
        immutablePageMap := Function.update self.immutablePageMap (fileId, blkno) none }
    | none => .error ⟨"could not find old key in mapping"⟩

/-- `PageCache::try_insert_mapping`: the slot of a mapping the key already has, which is left
untouched, or the cache with the key mapped to `slotIdx`. -/
def tryInsertMapping (self : PageCache K) (newKey : CacheKey K) (slotIdx : ℕ) :
    Option ℕ × PageCache K :=
  match newKey with
  | .materializedPage newKey newLsn =>
    -- `entry(new_key).or_default()`
    let versions := (self.materializedPageMap newKey).getD []
    match h : binarySearchByKey versions newLsn Version.lsn with
    | .ok versionIdx => (some (versions.get ⟨versionIdx, lt_of_binarySearchBy_ok h⟩).slotIdx, self)
    | .error versionIdx =>
      (none, { self with
        materializedPageMap := Function.update self.materializedPageMap newKey
          (some (versions.insertIdx versionIdx ⟨newLsn, slotIdx⟩)) })
  | .immutableFilePage fileId blkno =>
    match self.immutablePageMap (fileId, blkno) with
    | some existing => (some existing, self)
    | none =>
      (none, { self with
        immutablePageMap := Function.update self.immutablePageMap (fileId, blkno) (some slotIdx) })

/-! ## Reading and writing slots -/

/-- `PageCache::try_lock_for_read`: the key the search found and the slot's buffer, if the slot
still holds that key; the slot's usage count goes up. -/
def tryLockForRead (self : PageCache K) (cacheKey : CacheKey K) :
    Except Panic (Option (CacheKey K × List UInt8) × PageCache K) :=
  match self.searchMapping cacheKey with
  | none => .ok (none, self)
  | some (slotIdx, foundKey) =>
    match self.slots[slotIdx]? with
    | none => .error ⟨"index out of bounds"⟩
    | some slot =>
      if slot.key = some foundKey then
        .ok (some (foundKey, slot.buf),
          { self with slots := self.slots.set slotIdx slot.incUsageCount })
      else .ok (none, self)

/-- `PageCache::lookup_materialized_page`: the LSN and contents of the latest cached version of
the page at or below `lsn`. -/
def lookupMaterializedPage (self : PageCache K) (hashKey : K) (lsn : UInt64) :
    Except Panic (Option (UInt64 × List UInt8) × PageCache K) := do
  let (found, self) ← self.tryLockForRead (.materializedPage hashKey lsn)
  match found with
  | none => pure (none, self)
  | some (.materializedPage _ availableLsn, buf) => pure (some (availableLsn, buf), self)
  | some (.immutableFilePage _ _, _) => throw ⟨"unexpected key type in slot"⟩

/-- `PageCache::find_victim`: the clock hand moves over the slots, lowering usage counts, to the
first slot whose count was already zero; its old key's mapping is removed and the slot
emptied. -/
def findVictim (self : PageCache K) : Except Panic (ℕ × PageCache K) :=
  if hlen : self.slots.length = 0 then
    .error ⟨"attempt to calculate the remainder with a divisor of zero"⟩
  else
    let slotIdx := self.nextEvictSlot % self.slots.length
    have hidx : slotIdx < self.slots.length := Nat.mod_lt _ (Nat.pos_of_ne_zero hlen)
    let slot := self.slots[slotIdx]
    let self' := { self with
      slots := self.slots.set slotIdx slot.decUsageCount.2
      nextEvictSlot := self.nextEvictSlot + 1 }
    if hcount : slot.usageCount = 0 then
      match slot.key with
      | some oldKey => do
        let self' ← self'.removeMapping oldKey
        pure (slotIdx, { self' with slots := self'.slots.set slotIdx { slot with key := none } })
      | none => pure (slotIdx, self')
    else findVictim self'
termination_by usageTotal self.slots
decreasing_by exact usageTotal_set_decUsageCount_lt hidx hcount

/-- `PageCache::memorize_materialized_page`, with `fuel` rounds of its loop.  A page already
cached at the LSN must have the same contents; otherwise a victim slot takes the page, unless
the key got mapped meanwhile, which starts the loop again. -/
def memorizeMaterializedPage :
    ℕ → PageCache K → K → UInt64 → List UInt8 → Option (Except Panic (PageCache K))
  | 0, _, _, _, _ => none
  | fuel + 1, self, hashKey, lsn, img =>
    let cacheKey := CacheKey.materializedPage hashKey lsn
    -- not found: find a victim buffer, map the key to it and copy the page in
    let insertNew : Option (Except Panic (PageCache K)) :=
      match self.findVictim with
      | .error p => some (.error p)
      | .ok (slotIdx, self) =>
        match self.tryInsertMapping cacheKey slotIdx with
        | (some _, self) => memorizeMaterializedPage fuel self hashKey lsn img
        | (none, self) =>
          if img.length = pageSz then
            some (.ok { self with slots := self.slots.set slotIdx ⟨some cacheKey, 1, img⟩ })
          else some (.error ⟨"source slice length does not match destination slice length"⟩)
    match self.searchMappingExact cacheKey with
    | none => insertNew
    | some slotIdx =>
      match self.slots[slotIdx]? with
      | none => some (.error ⟨"index out of bounds"⟩)
      | some slot =>
        if slot.key = some cacheKey then
          -- another thread cached it: it must have the same contents
          if slot.buf = img then
            some (.ok { self with slots := self.slots.set slotIdx slot.incUsageCount })
          else some (.error ⟨"assertion failed: inner.buf == img"⟩)
        else insertNew

/-- `PageCache::new`: `numPages` empty slots. -/
def new (numPages : ℕ) : Except Panic (PageCache K) :=
  if numPages > 0 then
    .ok ⟨fun _ => none, fun _ => none,
      List.replicate numPages ⟨none, 0, List.replicate pageSz 0⟩, 0⟩
  else .error ⟨"page cache size must be > 0"⟩

/-! ## The invariant -/

/-- The key that the slot `i` holds. -/
def keyAt (c : PageCache K) (i : ℕ) : Option (CacheKey K) := (c.slots[i]?).bind Slot.key

/-- The maps send `key` to the slot `i`. -/
def Maps (c : PageCache K) : CacheKey K → ℕ → Prop
  | .materializedPage hashKey lsn, i =>
    ∃ versions, c.materializedPageMap hashKey = some versions ∧ ⟨lsn, i⟩ ∈ versions
  | .immutableFilePage fileId blkno, i => c.immutablePageMap (fileId, blkno) = some i

/-- Each page's cached versions are sorted by LSN, with no LSN twice. -/
def Sorted (c : PageCache K) : Prop :=
  ∀ hashKey versions, c.materializedPageMap hashKey = some versions →
    StrictKeys versions Version.lsn

/-- The maps and the slots agree: a key is mapped to a slot exactly when the slot holds it. -/
structure Inv (c : PageCache K) : Prop where
  slots_ne : c.slots ≠ []
  sorted : c.Sorted
  maps_iff : ∀ key i, c.Maps key i ↔ c.keyAt i = some key

/-- Every cached page is what `truth` says the page is at its LSN. -/
def Sound (truth : K → UInt64 → List UInt8 → Prop) (c : PageCache K) : Prop :=
  ∀ (i : ℕ) (slot : Slot K) hashKey lsn, c.slots[i]? = some slot →
    slot.key = some (.materializedPage hashKey lsn) →
    truth hashKey lsn slot.buf

omit [DecidableEq K] in
theorem Sound.mono {truth truth' : K → UInt64 → List UInt8 → Prop} {c : PageCache K}
    (h : Sound truth c)
    (himp : ∀ hashKey lsn page, truth hashKey lsn page → truth' hashKey lsn page) :
    Sound truth' c :=
  fun i slot hashKey lsn hslot hkey => himp _ _ _ (h i slot hashKey lsn hslot hkey)

/-- The latest of `versions` at or below `lsn`. -/
def latestAtOrBelow (versions : List Version) (lsn : UInt64) : Option Version :=
  (versions.filter fun v => v.lsn ≤ lsn).getLast?

/-! ## The maps -/

section Maps

variable {c : PageCache K}

omit [DecidableEq K] in
theorem maps_materializedPage_iff {hashKey : K} {lsn : UInt64} {i : ℕ} :
    c.Maps (.materializedPage hashKey lsn) i ↔
      ⟨lsn, i⟩ ∈ (c.materializedPageMap hashKey).getD [] := by
  simp only [Maps]
  cases c.materializedPageMap hashKey <;> simp

theorem isLE_compare_eq (a b : UInt64) : (compare a b).isLE = decide (a ≤ b) := by
  rw [Bool.eq_iff_iff, decide_eq_true_iff]
  exact Std.LawfulOrderOrd.isLE_compare a b

omit [DecidableEq K] in
/-- A search finds the latest cached version at or below the LSN. -/
theorem searchMapping_materializedPage (hs : c.Sorted) (hashKey : K) (lsn : UInt64) :
    c.searchMapping (.materializedPage hashKey lsn) =
      ((c.materializedPageMap hashKey).bind fun versions => latestAtOrBelow versions lsn).map
        fun v => (v.slotIdx, .materializedPage hashKey v.lsn) := by
  simp only [searchMapping]
  split
  · rename_i hmap
    rw [hmap]
    rfl
  · rename_i versions hmap
    have hsorted := hs hashKey versions hmap
    have hfilter : (versions.filter fun v => v.lsn ≤ lsn) =
        versions.filter fun v => (compare v.lsn lsn).isLE :=
      List.filter_congr fun v _ => (isLE_compare_eq v.lsn lsn).symm
    simp only [hmap, Option.bind_some, latestAtOrBelow, hfilter]
    split
    · rename_i idx h
      rw [filter_isLE_of_ok hsorted h, List.getLast?_take, if_neg (Nat.succ_ne_zero idx),
        Nat.add_sub_cancel, List.getElem?_eq_getElem (lt_of_binarySearchBy_ok h)]
      rfl
    · rename_i h
      rw [filter_isLE_of_error hsorted h]
      rfl
    · rename_i idx h
      rw [filter_isLE_of_error hsorted h, List.getLast?_take, if_neg (Nat.succ_ne_zero idx),
        Nat.succ_sub_one, List.getElem?_eq_getElem (le_of_binarySearchBy_error h)]
      rfl

omit [DecidableEq K] in
/-- An exact search finds the slot the maps give the key. -/
theorem searchMappingExact_eq_some_iff (hs : c.Sorted) {key : CacheKey K} {i : ℕ} :
    c.searchMappingExact key = some i ↔ c.Maps key i := by
  cases key with
  | immutableFilePage fileId blkno => rfl
  | materializedPage hashKey lsn =>
    rw [maps_materializedPage_iff]
    simp only [searchMappingExact]
    split
    · rename_i hmap
      simp [hmap]
    · rename_i versions hmap
      have hsorted := hs hashKey versions hmap
      simp only [hmap, Option.getD_some]
      split
      · rename_i idx h
        obtain ⟨hi, hkey, -, -⟩ := split_of_ok hsorted h
        -- the version found is the only one at `lsn`
        have hv : ∀ v ∈ versions, v.lsn = lsn → v = versions[idx] := fun v hv hvl =>
          hsorted.eq_of_key_eq hv (List.getElem_mem hi) (hvl.trans hkey.symm)
        constructor
        · rintro ⟨⟩
          have : versions[idx] = ⟨lsn, versions[idx].slotIdx⟩ := by rw [← hkey]
          exact this ▸ List.getElem_mem hi
        · intro hmem
          have hi' := hv _ hmem rfl
          simp only [List.get_eq_getElem, ← hi']
      · rename_i idx h
        refine ⟨fun h' => (nomatch h'), fun hmem => ?_⟩
        obtain ⟨idx', h'⟩ := (exists_binarySearchByKey_ok_iff hsorted).mpr ⟨_, hmem, rfl⟩
        rw [h] at h'
        cases h'

theorem getD_ite_isEmpty (l : List Version) :
    (if l.isEmpty then none else some l).getD [] = l := by
  cases l <;> rfl

/-- Removing the mapping of a mapped key keeps the slots and removes that key alone. -/
theorem removeMapping_spec (hs : c.Sorted) {key : CacheKey K} {i : ℕ} (hmaps : c.Maps key i) :
    ∃ c', c.removeMapping key = .ok c' ∧ c'.slots = c.slots ∧
      c'.nextEvictSlot = c.nextEvictSlot ∧ c'.Sorted ∧
      ∀ key' j, c'.Maps key' j ↔ c.Maps key' j ∧ key' ≠ key := by
  cases key with
  | materializedPage hashKey lsn =>
    obtain ⟨versions, hmap, hmem⟩ := hmaps
    have hsorted := hs hashKey versions hmap
    obtain ⟨idx, h⟩ := (exists_binarySearchByKey_ok_iff hsorted).mpr ⟨_, hmem, rfl⟩
    simp only [removeMapping, hmap, h]
    refine ⟨_, rfl, rfl, rfl, fun hk vs hvs => ?_, fun key' j => ?_⟩
    · dsimp only at hvs
      by_cases hhk : hk = hashKey
      · subst hhk
        simp only [Function.update_self] at hvs
        split at hvs
        · cases hvs
        · cases hvs
          exact hsorted.eraseIdx idx
      · rw [Function.update_of_ne hhk] at hvs
        exact hs hk vs hvs
    · cases key' with
      | materializedPage hk l =>
        simp only [maps_materializedPage_iff, ne_eq, CacheKey.materializedPage.injEq, not_and]
        by_cases hhk : hk = hashKey
        · subst hhk
          rw [Function.update_self, getD_ite_isEmpty, mem_eraseIdx_of_ok hsorted h, hmap,
            Option.getD_some]
          exact and_congr_right fun _ => ⟨fun hne _ => hne, fun hne => hne rfl⟩
        · rw [Function.update_of_ne hhk]
          exact ⟨fun hm => ⟨hm, fun h' => absurd h' hhk⟩, And.left⟩
      | immutableFilePage f b => simp [Maps]
  | immutableFilePage fileId blkno =>
    have hmap : c.immutablePageMap (fileId, blkno) = some i := hmaps
    simp only [removeMapping, hmap]
    refine ⟨_, rfl, rfl, rfl, hs, fun key' j => ?_⟩
    cases key' with
    | materializedPage hk l => simp [Maps]
    | immutableFilePage f b =>
      simp only [Maps, ne_eq, CacheKey.immutableFilePage.injEq]
      by_cases hfb : (f, b) = (fileId, blkno)
      · rw [hfb, Function.update_self]
        simp only [Prod.mk.injEq] at hfb
        simp [hfb]
      · rw [Function.update_of_ne hfb]
        simp only [Prod.mk.injEq] at hfb
        tauto

/-- Mapping a key that has no mapping keeps the slots and adds that mapping alone. -/
theorem tryInsertMapping_spec (hs : c.Sorted) {key : CacheKey K} (hnew : ∀ j, ¬c.Maps key j)
    (i : ℕ) :
    ∃ c', c.tryInsertMapping key i = (none, c') ∧ c'.slots = c.slots ∧
      c'.nextEvictSlot = c.nextEvictSlot ∧ c'.Sorted ∧
      ∀ key' j, c'.Maps key' j ↔ c.Maps key' j ∨ (key' = key ∧ j = i) := by
  cases key with
  | materializedPage hashKey lsn =>
    have hsorted : StrictKeys ((c.materializedPageMap hashKey).getD []) Version.lsn := by
      cases hmap : c.materializedPageMap hashKey with
      | none => exact List.Pairwise.nil
      | some versions => exact hs hashKey versions hmap
    -- no version is at `lsn`, so the search ends at an insertion point
    obtain ⟨idx, h⟩ : ∃ idx, binarySearchByKey ((c.materializedPageMap hashKey).getD []) lsn
        Version.lsn = .error idx := by
      cases h : binarySearchByKey ((c.materializedPageMap hashKey).getD []) lsn Version.lsn with
      | error idx => exact ⟨idx, rfl⟩
      | ok idx =>
        obtain ⟨v, hv, hvl⟩ := (exists_binarySearchByKey_ok_iff hsorted).mp ⟨idx, h⟩
        exact absurd (maps_materializedPage_iff.mpr (hvl ▸ hv : (⟨lsn, v.slotIdx⟩ : Version) ∈ _))
          (hnew v.slotIdx)
    have hle := le_of_binarySearchBy_error h
    simp only [tryInsertMapping]
    split
    · rename_i h'
      rw [h] at h'
      cases h'
    rename_i idx' h'
    rw [h] at h'
    cases h'
    refine ⟨_, rfl, rfl, rfl, fun hk vs hvs => ?_, fun key' j => ?_⟩
    · dsimp only at hvs
      by_cases hhk : hk = hashKey
      · subst hhk
        simp only [Function.update_self, Option.some.injEq] at hvs
        rw [← hvs]
        exact hsorted.insertIdx (x := ⟨lsn, i⟩) h
      · rw [Function.update_of_ne hhk] at hvs
        exact hs hk vs hvs
    · cases key' with
      | materializedPage hk l =>
        simp only [maps_materializedPage_iff, CacheKey.materializedPage.injEq]
        by_cases hhk : hk = hashKey
        · subst hhk
          rw [Function.update_self, Option.getD_some, List.mem_insertIdx hle, Version.mk.injEq]
          tauto
        · rw [Function.update_of_ne hhk]
          tauto
      | immutableFilePage f b => simp [Maps]
  | immutableFilePage fileId blkno =>
    have hmap : c.immutablePageMap (fileId, blkno) = none := by
      cases h : c.immutablePageMap (fileId, blkno) with
      | none => rfl
      | some j => exact absurd h (hnew j)
    simp only [tryInsertMapping, hmap]
    refine ⟨_, rfl, rfl, rfl, hs, fun key' j => ?_⟩
    cases key' with
    | materializedPage hk l => simp [Maps]
    | immutableFilePage f b =>
      simp only [Maps, CacheKey.immutableFilePage.injEq]
      by_cases hfb : (f, b) = (fileId, blkno)
      · rw [hfb, Function.update_self, hmap]
        simp only [Prod.mk.injEq] at hfb
        simp [hfb, eq_comm]
      · rw [Function.update_of_ne hfb]
        simp only [Prod.mk.injEq] at hfb
        tauto

end Maps

/-! ## Slots -/

section Slots

variable {c c' : PageCache K}

omit [DecidableEq K] in
/-- The maps send a key to one slot at most. -/
theorem Maps.unique (hs : c.Sorted) {key : CacheKey K} {i j : ℕ} (hi : c.Maps key i)
    (hj : c.Maps key j) : i = j := by
  cases key with
  | materializedPage hashKey lsn =>
    obtain ⟨versions, hmap, hmi⟩ := hi
    obtain ⟨versions', hmap', hmj⟩ := hj
    rw [hmap] at hmap'
    cases hmap'
    have := (hs hashKey versions hmap).eq_of_key_eq hmi hmj rfl
    simpa using this
  | immutableFilePage fileId blkno => exact Option.some.inj (hi.symm.trans hj)

omit [DecidableEq K] in
theorem keyAt_of_slots_set {i : ℕ} (hi : i < c.slots.length) {s : Slot K}
    (hslots : c'.slots = c.slots.set i s) (j : ℕ) :
    c'.keyAt j = if j = i then s.key else c.keyAt j := by
  simp only [keyAt, hslots, List.getElem?_set]
  by_cases hj : j = i
  · simp [hj, hi]
  · simp [hj, Ne.symm hj]

omit [DecidableEq K] in
/-- Changing the slot `i` keeps the invariant when the maps change with it: they send a key to
`i` exactly when the new slot holds it, and are otherwise as they were. -/
theorem Inv.set_slot (hinv : c.Inv) {i : ℕ} (hi : i < c.slots.length) {s : Slot K}
    (hslots : c'.slots = c.slots.set i s) (hsorted : c'.Sorted)
    (hmaps : ∀ key j, c'.Maps key j ↔ if j = i then s.key = some key else c.Maps key j) :
    c'.Inv := by
  refine ⟨by simpa [hslots] using hinv.slots_ne, hsorted, fun key j => ?_⟩
  rw [hmaps, keyAt_of_slots_set hi hslots]
  split
  · rfl
  · exact hinv.maps_iff key j

omit [DecidableEq K] in
/-- A slot that keeps its key keeps the invariant, with the maps as they were. -/
theorem Inv.set_slot_same_key (hinv : c.Inv) {i : ℕ} (hi : i < c.slots.length) {s : Slot K}
    (hkey : s.key = c.keyAt i) (hslots : c'.slots = c.slots.set i s)
    (hm : c'.materializedPageMap = c.materializedPageMap)
    (him : c'.immutablePageMap = c.immutablePageMap) : c'.Inv := by
  have hmaps : ∀ key j, c'.Maps key j ↔ c.Maps key j := fun key j => by
    cases key <;> simp only [Maps, hm, him]
  refine hinv.set_slot hi hslots (fun hk vs h => hinv.sorted hk vs (hm ▸ h)) fun key j => ?_
  rw [hmaps]
  split
  · rename_i hj
    rw [hkey, hj]
    exact hinv.maps_iff key i
  · rfl

omit [DecidableEq K] in
/-- Changing the slot `i` keeps the cache sound when the new slot's page is right. -/
theorem Sound.set_slot {truth : K → UInt64 → List UInt8 → Prop} (hsound : Sound truth c)
    {i : ℕ} {s : Slot K} (hslots : c'.slots = c.slots.set i s)
    (hs : ∀ hashKey lsn, s.key = some (.materializedPage hashKey lsn) → truth hashKey lsn s.buf) :
    Sound truth c' := by
  intro j slot hashKey lsn hj hkey
  rw [hslots, List.getElem?_set] at hj
  split at hj
  · split at hj
    · cases hj
      exact hs hashKey lsn hkey
    · cases hj
  · exact hsound j slot hashKey lsn hj hkey

end Slots

/-! ## The victim search -/

section Victim

variable {c : PageCache K}

omit [DecidableEq K] in
theorem decUsageCount_of_zero {s : Slot K} (h : s.usageCount = 0) : s.decUsageCount.2 = s := by
  simp [Slot.decUsageCount, h]

/-- The victim search ends without a panic at a slot it empties, the mapping of the slot's old
key removed; the cache keeps its invariant, maps no key it did not map, and stays sound. -/
theorem findVictim_spec (hinv : c.Inv) :
    ∃ i c', c.findVictim = .ok (i, c') ∧ c'.Inv ∧ i < c'.slots.length ∧ c'.keyAt i = none ∧
      (∀ key j, c'.Maps key j → c.Maps key j) ∧
      ∀ truth : K → UInt64 → List UInt8 → Prop, Sound truth c → Sound truth c' := by
  fun_induction findVictim c with
  | case1 self hlen => exact absurd (List.length_eq_zero_iff.mp hlen) hinv.slots_ne
  | case2 self hlen slotIdx hidx slot self' hcount oldKey hkey =>
    -- the slot's count was already zero: it is the victim, and its key is unmapped
    have hself' : self'.slots = self.slots.set slotIdx slot := by
      simp only [self', decUsageCount_of_zero hcount]
    have hkeyAt : self.keyAt slotIdx = some oldKey := by
      simp only [keyAt, List.getElem?_eq_getElem hidx, Option.bind_some]
      exact hkey
    have hmaps : self'.Maps oldKey slotIdx := (hinv.maps_iff _ _).mpr hkeyAt
    have hsorted' : self'.Sorted := hinv.sorted
    obtain ⟨c2, hrm, hslots2, -, hsorted2, hmaps2⟩ := removeMapping_spec hsorted' hmaps
    let c3 : PageCache K := { c2 with slots := c2.slots.set slotIdx { slot with key := none } }
    have hslots3 : c3.slots = self.slots.set slotIdx { slot with key := none } := by
      simp [c3, hslots2, hself']
    refine ⟨slotIdx, c3, by simp [hrm, c3], ?_, by simp [hslots3, hidx], ?_, ?_, ?_⟩
    · refine hinv.set_slot hidx hslots3 hsorted2 fun key j => (hmaps2 key j).trans ?_
      split
      · -- the victim's slot: the one key mapped to it is gone
        rename_i hj
        subst hj
        simp only [reduceCtorEq, iff_false, not_and, not_not]
        intro hm
        exact Option.some.inj (((hinv.maps_iff key slotIdx).mp hm).symm.trans hkeyAt)
      · -- any other slot: its key is not the victim's
        rename_i hj
        refine ⟨And.left, fun hm => ⟨hm, fun hk => hj ?_⟩⟩
        subst hk
        exact Maps.unique hinv.sorted hm hmaps
    · simp [keyAt, hslots3, hidx]
    · exact fun key j h => ((hmaps2 key j).mp h).1
    · exact fun truth hsound => hsound.set_slot hslots3 fun _ _ h => nomatch h
  | case3 self hlen slotIdx hidx slot self' hcount hkey =>
    -- the slot's count was already zero and it holds nothing
    have hself' : self'.slots = self.slots.set slotIdx slot := by
      simp only [self', decUsageCount_of_zero hcount]
    have hkeyAt : slot.key = self.keyAt slotIdx := by
      simp only [keyAt, List.getElem?_eq_getElem hidx, Option.bind_some]
      rfl
    refine ⟨slotIdx, self', rfl, hinv.set_slot_same_key hidx hkeyAt hself' rfl rfl,
      by simp [hself', hidx], ?_, fun key j h => h,
      fun truth hsound => hsound.set_slot hself' fun hk l h => ?_⟩
    · simp only [keyAt, hself', List.getElem?_set_self hidx, Option.bind_some]
      exact hkey
    · rw [hkey] at h
      cases h
  | case4 self hlen slotIdx hidx slot self' hcount ih =>
    -- the clock hand lowers the slot's count and moves on
    have hinv' : self'.Inv := hinv.set_slot_same_key hidx
      (by
        simp only [keyAt, List.getElem?_eq_getElem hidx, Option.bind_some, Slot.key_decUsageCount]
        rfl) rfl rfl rfl
    obtain ⟨i, c', hfv, hinv'', hlt, hkey, hmaps, hsound⟩ := ih hinv'
    refine ⟨i, c', hfv, hinv'', hlt, hkey, hmaps, fun truth hs => hsound truth ?_⟩
    refine hs.set_slot rfl fun hk l h => ?_
    rw [Slot.buf_decUsageCount]
    exact hs slotIdx slot hk l (List.getElem?_eq_getElem hidx) (by simpa using h)

end Victim

/-! ## Lookups and stores -/

section Ops

variable {c : PageCache K}

omit [DecidableEq K] in
theorem exists_slot_of_keyAt {i : ℕ} {key : CacheKey K} (h : c.keyAt i = some key) :
    ∃ slot, c.slots[i]? = some slot ∧ slot.key = some key := by
  unfold keyAt at h
  cases hs : c.slots[i]? with
  | none => rw [hs] at h; cases h
  | some slot =>
    rw [hs, Option.bind_some] at h
    exact ⟨slot, rfl, h⟩

theorem mem_of_latestAtOrBelow {versions : List Version} {lsn : UInt64} {v : Version}
    (h : latestAtOrBelow versions lsn = some v) : v ∈ versions ∧ v.lsn ≤ lsn := by
  have hmem := List.mem_of_getLast? h
  rw [List.mem_filter, decide_eq_true_iff] at hmem
  exact hmem

/-- A lookup never panics.  It finds the latest cached version of the page at or below `lsn`
and returns its LSN and the page its slot holds; the cache keeps its invariant and its pages. -/
theorem lookupMaterializedPage_spec (hinv : c.Inv) (hashKey : K) (lsn : UInt64) :
    ∃ r c', c.lookupMaterializedPage hashKey lsn = .ok (r, c') ∧ c'.Inv ∧
      (∀ truth : K → UInt64 → List UInt8 → Prop, Sound truth c → Sound truth c') ∧
      match (c.materializedPageMap hashKey).bind fun versions => latestAtOrBelow versions lsn with
      | none => r = none
      | some v => ∃ slot, c.slots[v.slotIdx]? = some slot ∧
          slot.key = some (.materializedPage hashKey v.lsn) ∧ r = some (v.lsn, slot.buf) := by
  unfold lookupMaterializedPage tryLockForRead
  rw [searchMapping_materializedPage hinv.sorted]
  cases hv : (c.materializedPageMap hashKey).bind fun versions => latestAtOrBelow versions lsn with
  | none => exact ⟨none, c, rfl, hinv, fun _ h => h, rfl⟩
  | some v =>
    -- the version found is mapped, so its slot holds it
    obtain ⟨versions, hmap, hlatest⟩ := Option.bind_eq_some_iff.mp hv
    have hmaps : c.Maps (.materializedPage hashKey v.lsn) v.slotIdx :=
      ⟨versions, hmap, (mem_of_latestAtOrBelow hlatest).1⟩
    obtain ⟨slot, hslot, hkey⟩ := exists_slot_of_keyAt ((hinv.maps_iff _ _).mp hmaps)
    have hi : v.slotIdx < c.slots.length := (List.getElem?_eq_some_iff.mp hslot).1
    have hslot' : c.slots[v.slotIdx] = slot := (List.getElem?_eq_some_iff.mp hslot).2
    simp only [Option.map_some, hslot, hkey, if_true, bind, Except.bind, pure, Except.pure]
    refine ⟨_, _, rfl, hinv.set_slot_same_key hi ?_ rfl rfl rfl, fun truth hs => ?_,
      slot, rfl, hkey, rfl⟩
    · simp [keyAt, hslot]
    · refine hs.set_slot rfl fun hk l h => ?_
      rw [Slot.buf_incUsageCount]
      exact hs v.slotIdx slot hk l hslot (by simpa using h)

/-- A lookup only raises a usage count: the map of materialized pages stays as it was. -/
theorem materializedPageMap_of_lookup {hashKey : K} {lsn : UInt64}
    {r : Option (UInt64 × List UInt8)} {c' : PageCache K}
    (h : c.lookupMaterializedPage hashKey lsn = .ok (r, c')) :
    c'.materializedPageMap = c.materializedPageMap := by
  unfold lookupMaterializedPage tryLockForRead at h
  split at h
  · cases h
    rfl
  · split at h
    · cases h
    · split at h
      · simp only [bind, Except.bind, pure, Except.pure] at h
        split at h <;> cases h <;> rfl
      · cases h
        rfl

/-- One round of the loop of `memorize_materialized_page` is enough under the invariant.
Storing a page that is right, in a cache whose pages are right, never panics: the assertion on
a page cached twice holds, since both copies are the page.  The cache keeps its invariant,
maps the key and stays sound. -/
theorem memorizeMaterializedPage_ok (hinv : c.Inv) {truth : K → UInt64 → List UInt8 → Prop}
    (hsound : Sound truth c) {hashKey : K} {lsn : UInt64} {img : List UInt8}
    (htruth : truth hashKey lsn img) (hfun : ∀ buf, truth hashKey lsn buf → buf = img)
    (hlen : img.length = pageSz) (fuel : ℕ) :
    ∃ c', c.memorizeMaterializedPage (fuel + 1) hashKey lsn img = some (.ok c') ∧ c'.Inv ∧
      Sound truth c' ∧ ∃ i, c'.Maps (.materializedPage hashKey lsn) i := by
  unfold memorizeMaterializedPage
  dsimp only
  split
  · -- not cached at `lsn`: a victim slot takes the page
    rename_i hnone
    have hnew : ∀ j, ¬c.Maps (.materializedPage hashKey lsn) j := fun j hm => by
      rw [← searchMappingExact_eq_some_iff hinv.sorted, hnone] at hm
      cases hm
    obtain ⟨i, c1, hfv, hinv1, hi1, hkey1, hmaps1, hsound1⟩ := findVictim_spec hinv
    have hnew1 : ∀ j, ¬c1.Maps (.materializedPage hashKey lsn) j := fun j h => hnew j (hmaps1 _ _ h)
    obtain ⟨c2, hins, hslots2, -, hsorted2, hmaps2⟩ := tryInsertMapping_spec hinv1.sorted hnew1 i
    simp only [hfv, hins, hlen, if_true]
    have hslots3 : ({ c2 with slots := c2.slots.set i ⟨some (.materializedPage hashKey lsn), 1, img⟩ }
        : PageCache K).slots = c1.slots.set i ⟨some (.materializedPage hashKey lsn), 1, img⟩ := by
      rw [← hslots2]
    refine ⟨_, rfl, hinv1.set_slot hi1 hslots3 hsorted2 fun key j => (hmaps2 key j).trans ?_,
      (hsound1 truth hsound).set_slot hslots3 fun hk l h => ?_, i,
      (hmaps2 _ i).mpr (.inr ⟨rfl, rfl⟩)⟩
    · split
      · -- the victim's slot holds nothing, so only the new key maps to it
        rename_i hj
        rw [hj]
        have hno : ¬c1.Maps key i := fun h => by
          rw [hinv1.maps_iff, hkey1] at h
          cases h
        simp only [hno, false_or, Option.some.injEq, and_true]
        exact eq_comm
      · rename_i hj
        simp [hj]
    · simp only [Option.some.injEq, CacheKey.materializedPage.injEq] at h
      obtain ⟨rfl, rfl⟩ := h
      exact htruth
  · -- cached at `lsn`: its slot holds the page, which must be `img`
    rename_i j hj
    have hmaps := (searchMappingExact_eq_some_iff hinv.sorted).mp hj
    obtain ⟨slot, hslot, hkey⟩ := exists_slot_of_keyAt ((hinv.maps_iff _ _).mp hmaps)
    have hi : j < c.slots.length := (List.getElem?_eq_some_iff.mp hslot).1
    have hbuf : slot.buf = img := hfun _ (hsound j slot hashKey lsn hslot hkey)
    simp only [hslot, hkey, hbuf, if_true]
    refine ⟨_, rfl, hinv.set_slot_same_key hi (by simp [keyAt, hslot]) rfl rfl rfl,
      hsound.set_slot rfl fun hk l h => ?_, j, hmaps⟩
    rw [Slot.buf_incUsageCount]
    exact hsound j slot hk l hslot (by simpa using h)

omit [DecidableEq K] in
/-- A cache of no slots cannot be made. -/
theorem pos_of_new {numPages : ℕ} {c : PageCache K} (h : new numPages = .ok c) : 0 < numPages := by
  by_contra h0
  simp [new, h0] at h

omit [DecidableEq K] in
/-- A new cache keeps the invariant, and holds no page, so it is sound. -/
theorem new_inv {numPages : ℕ} (hpos : 0 < numPages) :
    ∃ c, (new numPages : Except Panic (PageCache K)) = .ok c ∧ c.Inv ∧
      ∀ truth : K → UInt64 → List UInt8 → Prop, Sound truth c := by
  simp only [new, gt_iff_lt, if_pos hpos]
  refine ⟨_, rfl, ⟨?_, fun _ _ h => (by cases h), fun key i => ?_⟩, ?_⟩
  · simpa using Nat.pos_iff_ne_zero.mp hpos
  · have hkey : (List.replicate numPages (⟨none, 0, List.replicate pageSz 0⟩ : Slot K))[i]?.bind
        Slot.key = none := by
      rw [List.getElem?_replicate]
      split <;> rfl
    cases key <;> simp [Maps, keyAt, hkey]
  · intro truth i slot hashKey lsn hslot hkey
    simp only [List.getElem?_replicate] at hslot
    split at hslot
    · cases hslot
      cases hkey
    · cases hslot

end Ops

/-! ## Runs of the cache -/

section Runs

variable {truth : K → UInt64 → List UInt8 → Prop} {c : PageCache K}

omit [DecidableEq K] in
/-- The latest cached version at or below an LSN is at or above every other one there. -/
theorem le_of_latestAtOrBelow {versions : List Version} (hs : StrictKeys versions Version.lsn)
    {lsn : UInt64} {v w : Version} (hlatest : latestAtOrBelow versions lsn = some v)
    (hw : w ∈ versions) (hwl : w.lsn ≤ lsn) : w.lsn ≤ v.lsn := by
  obtain ⟨init, hinit⟩ := List.getLast?_eq_some_iff.mp hlatest
  have hsorted : StrictKeys (init ++ [v]) Version.lsn := by
    rw [← hinit]
    exact List.Pairwise.sublist List.filter_sublist hs
  have hmem : w ∈ init ++ [v] := by
    rw [← hinit]
    exact List.mem_filter.mpr ⟨hw, decide_eq_true hwl⟩
  rcases List.mem_append.mp hmem with hw' | hw'
  · exact UInt64.le_of_lt
      (Std.compare_eq_lt.mp ((List.pairwise_append.mp hsorted).2.2 w hw' v List.mem_cons_self))
  · rw [List.mem_singleton.mp hw']
    exact UInt64.le_refl _

/-- A lookup in a sound cache returns nothing when the cache holds no page of the key at or
below the LSN, and otherwise the page of the latest LSN at or below it that the cache holds, a
page `truth` holds for. -/
theorem lookupMaterializedPage_latest (hinv : c.Inv) (hsound : Sound truth c) (hashKey : K)
    (lsn : UInt64) :
    ∃ r c', c.lookupMaterializedPage hashKey lsn = .ok (r, c') ∧ c'.Inv ∧ Sound truth c' ∧
      match r with
      | none => ∀ i l, c.keyAt i = some (.materializedPage hashKey l) → lsn < l
      | some (l, buf) => l ≤ lsn ∧ truth hashKey l buf ∧
          ∀ i l', c.keyAt i = some (.materializedPage hashKey l') → l' ≤ lsn → l' ≤ l := by
  obtain ⟨r, c', hlookup, hinv', hsound', hr⟩ := lookupMaterializedPage_spec hinv hashKey lsn
  refine ⟨r, c', hlookup, hinv', hsound' truth hsound, ?_⟩
  cases hv : (c.materializedPageMap hashKey).bind fun versions => latestAtOrBelow versions lsn with
  | none =>
    rw [hv] at hr
    subst hr
    -- no version of the key is at or below `lsn`
    intro i l hkey
    obtain ⟨versions, hmap, hmem⟩ := (hinv.maps_iff _ i).mpr hkey
    rw [hmap, Option.bind_some, latestAtOrBelow, List.getLast?_eq_none_iff,
      List.filter_eq_nil_iff] at hv
    exact UInt64.not_le.mp (by simpa using hv _ hmem)
  | some v =>
    rw [hv] at hr
    obtain ⟨slot, hslot, hkey, rfl⟩ := hr
    obtain ⟨versions, hmap, hlatest⟩ := Option.bind_eq_some_iff.mp hv
    refine ⟨(mem_of_latestAtOrBelow hlatest).2, hsound v.slotIdx slot hashKey v.lsn hslot hkey,
      fun i l' hkey' hle => ?_⟩
    -- every cached version of the key is in its sorted list
    obtain ⟨versions', hmap', hmem⟩ := (hinv.maps_iff _ i).mpr hkey'
    rw [hmap] at hmap'
    cases hmap'
    exact le_of_latestAtOrBelow (hinv.sorted hashKey versions hmap) hlatest hmem hle

/-- The caches that lookups, and memorizations of pages of `PAGE_SZ` bytes that `truth` holds
for, reach from a new cache. -/
inductive Reachable (truth : K → UInt64 → List UInt8 → Prop) : PageCache K → Prop
  | new {numPages : ℕ} {c : PageCache K} : PageCache.new numPages = .ok c → Reachable truth c
  | lookup {c c' : PageCache K} {hashKey : K} {lsn : UInt64} {r : Option (UInt64 × List UInt8)} :
      Reachable truth c → c.lookupMaterializedPage hashKey lsn = .ok (r, c') → Reachable truth c'
  | memorize {c c' : PageCache K} {fuel : ℕ} {hashKey : K} {lsn : UInt64} {img : List UInt8} :
      Reachable truth c → truth hashKey lsn img → img.length = pageSz →
      c.memorizeMaterializedPage fuel hashKey lsn img = some (.ok c') → Reachable truth c'

/-- Every reachable cache keeps the invariant and is sound, when `truth` holds for one page of
a key at an LSN. -/
theorem Reachable.inv (hfun : ∀ hashKey lsn buf buf', truth hashKey lsn buf →
      truth hashKey lsn buf' → buf' = buf) (h : Reachable truth c) :
    c.Inv ∧ Sound truth c := by
  induction h with
  | new hnew =>
    obtain ⟨c', hc', hinv, hsound⟩ := new_inv (K := K) (pos_of_new hnew)
    rw [hnew] at hc'
    cases hc'
    exact ⟨hinv, hsound truth⟩
  | lookup _ hlookup ih =>
    obtain ⟨r, c', hlookup', hinv', hsound', -⟩ := lookupMaterializedPage_spec ih.1 _ _
    rw [hlookup] at hlookup'
    cases hlookup'
    exact ⟨hinv', hsound' truth ih.2⟩
  | @memorize c c' fuel hashKey lsn img _ htruth hlen hmem ih =>
    -- with no fuel the model gives no result, so the step had some
    cases fuel with
    | zero => cases hmem
    | succ fuel =>
      obtain ⟨c', hmem', hinv', hsound', -⟩ := memorizeMaterializedPage_ok ih.1 ih.2 htruth
        (fun buf h => hfun _ _ _ _ htruth h) hlen fuel
      rw [hmem] at hmem'
      cases hmem'
      exact ⟨hinv', hsound'⟩

/-- Over every run of lookups and of memorizations of pages that `truth` holds for, from a new
cache, when `truth` holds for one page of a key at an LSN: a lookup never panics and returns the
page of the latest LSN at or below the request's that the cache holds; and a memorization of
such a page, given one round of its loop, never panics, so its `assert!(inner.buf == img)` never
fails, and leaves the page cached. -/
theorem Reachable.lookup_memorize_safe (hfun : ∀ hashKey lsn buf buf', truth hashKey lsn buf →
      truth hashKey lsn buf' → buf' = buf) (h : Reachable truth c) :
    (∀ hashKey lsn, ∃ r c', c.lookupMaterializedPage hashKey lsn = .ok (r, c') ∧
      match r with
      | none => ∀ i l, c.keyAt i = some (.materializedPage hashKey l) → lsn < l
      | some (l, buf) => l ≤ lsn ∧ truth hashKey l buf ∧
          ∀ i l', c.keyAt i = some (.materializedPage hashKey l') → l' ≤ lsn → l' ≤ l) ∧
    ∀ hashKey lsn img, truth hashKey lsn img → img.length = pageSz → ∀ fuel,
      ∃ c', c.memorizeMaterializedPage (fuel + 1) hashKey lsn img = some (.ok c') ∧
        ∃ i, c'.Maps (.materializedPage hashKey lsn) i := by
  obtain ⟨hinv, hsound⟩ := h.inv hfun
  refine ⟨fun hashKey lsn => ?_, fun hashKey lsn img htruth hlen fuel => ?_⟩
  · obtain ⟨r, c', hlookup, -, -, hr⟩ := lookupMaterializedPage_latest hinv hsound hashKey lsn
    exact ⟨r, c', hlookup, hr⟩
  · obtain ⟨c', hmem, -, -, hmaps⟩ := memorizeMaterializedPage_ok hinv hsound htruth
      (fun buf h => hfun _ _ _ _ htruth h) hlen fuel
    exact ⟨c', hmem, hmaps⟩

/-- From a new cache of one slot, where the one page there is is the zeroed page at LSN 5:
memorizing it caches it, a lookup at LSN 7 then finds it, and memorizing it again passes the
assertion on a page cached twice. -/
theorem Reachable.lookup_memorize_safe_cached :
    ∃ c₁, (⟨fun _ => none, fun _ => none, [⟨none, 0, List.replicate pageSz 0⟩], 0⟩ : PageCache ℕ).memorizeMaterializedPage 1 0 5 (List.replicate pageSz 0) = some (.ok c₁) ∧
      (∃ c', c₁.lookupMaterializedPage 0 7 = .ok (some (5, List.replicate pageSz 0), c')) ∧
      ∃ c₂, c₁.memorizeMaterializedPage 1 0 5 (List.replicate pageSz 0) = some (.ok c₂) := by
  have hnew : (PageCache.new 1 : Except Panic (PageCache ℕ)) = .ok (⟨fun _ => none, fun _ => none, [⟨none, 0, List.replicate pageSz 0⟩], 0⟩ : PageCache ℕ) := rfl
  have hfun : ∀ (hashKey : ℕ) (lsn : UInt64) (buf buf' : List UInt8),
      (lsn = 5 ∧ buf = List.replicate pageSz 0) → (lsn = 5 ∧ buf' = List.replicate pageSz 0) →
        buf' = buf := fun _ _ _ _ h h' => h'.2.trans h.2.symm
  have hreach₀ : Reachable (fun (_ : ℕ) lsn buf => lsn = 5 ∧ buf = List.replicate pageSz 0) (⟨fun _ => none, fun _ => none, [⟨none, 0, List.replicate pageSz 0⟩], 0⟩ : PageCache ℕ) :=
    .new hnew
  -- the first memorization caches the page
  obtain ⟨c₁, hmem₁, i, hmaps⟩ := (Reachable.lookup_memorize_safe hfun hreach₀).2 0 5 _
    ⟨rfl, rfl⟩ List.length_replicate 0
  have hreach₁ := hreach₀.memorize ⟨rfl, rfl⟩ List.length_replicate hmem₁
  obtain ⟨hlookup, hmemorize⟩ := Reachable.lookup_memorize_safe hfun hreach₁
  obtain ⟨r, c', hlk, hr⟩ := hlookup 0 7
  refine ⟨c₁, hmem₁, ⟨c', ?_⟩,
    (hmemorize 0 5 _ ⟨rfl, rfl⟩ List.length_replicate 0).imp fun _ h => h.1⟩
  rw [hlk]
  -- the lookup finds the page, and the only page there is is at LSN 5
  have hkey : c₁.keyAt i = some (.materializedPage 0 5) :=
    ((hreach₁.inv hfun).1.maps_iff _ i).mp hmaps
  cases r with
  | none => exact absurd (hr i 5 hkey) (by decide)
  | some p =>
    obtain ⟨l, buf⟩ := p
    obtain ⟨-, ⟨rfl, rfl⟩, -⟩ := hr
    rfl

end Runs

end PageCache

end NeonStorage
