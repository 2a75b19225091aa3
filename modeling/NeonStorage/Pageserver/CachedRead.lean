import NeonStorage.Pageserver.ClogHistory
import NeonStorage.Pageserver.PageCache

/-!
# Reads of CLOG pages through the materialized page cache

`Timeline::get` (`pageserver/src/tenant/timeline.rs`) first asks the materialized page cache for
the latest image of the page at or below the request LSN.  An image at the request LSN is the
answer.  An older one bounds the scan of `get_reconstruct_data`, which stops at its LSN
(`cont_lsn == cached_lsn + 1`) and takes it as the base image unless the scan finds a newer
image; `reconstruct_value` then memorizes a page redone from WAL records at the LSN of the
newest record.  Without a cached image the scan stops above LSN 0.

The cache here holds the pages of one timeline, keyed by their `Key`.  It is sound for the
timeline (`Timeline.PageTruth`) when each page it holds is what a read without the cache
returns at the page's LSN, an LSN the timeline has received.  With the versions of each page in
LSN order and none at LSN 0 (`Timeline.PagesOrdered`), a read through a sound cache returns what
a read without it returns and leaves the cache sound (`getSlruPageAtLsnCached_eq`); when the
newest version it reads is a record, the cache afterwards holds an image of the page at or above
that record (`getSlruPageAtLsnCached_memorizes`).  Ingestion adds versions above every LSN
received, so it keeps the cache sound and the versions in order
(`walReceiverLoop_cacheSound_of_le`).  From any state that reads and runs of the WAL receiver's
loop reach from a new cache, every read through the cache returns what a read without it returns
(`getSlruPageAtLsnCached_reachable`).
-/

namespace NeonStorage

namespace Slru

open PostgresFfi Versions Xact PageCache DatadirModification Text

/-! ## The model -/

/-- The versions of a page that `get_reconstruct_data` visits for a request at `lsn`: those at
or below it, above the LSN of the cached image, where the scan stops. -/
def scanned (vs : List (UInt64 × PageValue)) (lsn cachedLsn : UInt64) :
    List (UInt64 × PageValue) :=
  (upTo vs lsn).filter fun e => cachedLsn < e.1

namespace Timeline

/-- `get_reconstruct_data` and `reconstruct_value` for a CLOG page at `lsn`, from the image the
cache gave, if any. -/
def reconstructCached (tl : Timeline) (cache : PageCache Key) (fuel : ℕ) (segno blknum : UInt32)
    (lsn : UInt64) (cached : Option (UInt64 × List UInt8)) :
    Option (Except Panic (Except String (List UInt8) × PageCache Key)) :=
  let key := Multixact.slruBlockToKey .clog segno blknum
  -- without a cached image the scan goes down to LSN 0
  let (img, records) := collect (scanned (tl.pages segno blknum) lsn
    ((cached.map Prod.fst).getD 0)).reverse
  -- an image the scan found is newer than the cached one and replaces it
  match reconstructValue key lsn (img.or cached) records with
  | .error p => some (.error p)
  | .ok (.error e) => some (.ok (.error e, cache))
  | .ok (.ok page) =>
    match records with
    | (lastRecLsn, _) :: _ =>
      -- a page redone from records is memorized at the LSN of the newest one
      if page.length = PageCache.pageSz then
        match cache.memorizeMaterializedPage fuel key lastRecLsn page with
        | none => none
        | some (.error p) => some (.error p)
        | some (.ok cache) => some (.ok (.ok page, cache))
      else some (.ok (.ok page, cache))
    | [] => some (.ok (.ok page, cache))

/-- `Timeline::get` of a CLOG page, as `get_slru_page_at_lsn` calls it, with the materialized
page cache in front of the read. -/
def getSlruPageAtLsnCached (tl : Timeline) (cache : PageCache Key) (fuel : ℕ)
    (segno blknum : UInt32) (lsn : UInt64) :
    Option (Except Panic (Except String (List UInt8) × PageCache Key)) :=
  if lsn = 0 then some (.ok (.error "Invalid LSN", cache))
  else
    match cache.lookupMaterializedPage (Multixact.slruBlockToKey .clog segno blknum) lsn with
    | .error p => some (.error p)
    | .ok (none, cache) => tl.reconstructCached cache fuel segno blknum lsn none
    | .ok (some (cachedLsn, cachedImg), cache) =>
      match compare cachedLsn lsn with
      -- there might be WAL between the cached image and `lsn`
      | .lt => tl.reconstructCached cache fuel segno blknum lsn (some (cachedLsn, cachedImg))
      | .eq => some (.ok (.ok cachedImg, cache))
      | .gt => some (.error ⟨"internal error: entered unreachable code: " ++
          "the returned lsn should never be after the requested lsn"⟩)

/-- What the cache may hold of a page at an LSN: what a read without the cache returns there,
at an LSN the timeline has received. -/
def PageTruth (tl : Timeline) (key : Key) (lsn : UInt64) (page : List UInt8) : Prop :=
  lsn ≤ tl.lastRecordLsn ∧ ∃ segno blknum, key = Multixact.slruBlockToKey .clog segno blknum ∧
    tl.getSlruPageAtLsn segno blknum lsn = .ok (.ok page)

/-- The versions of every page are in LSN order, above LSN 0, and at or below the last record
LSN. -/
structure PagesOrdered (tl : Timeline) : Prop where
  ordered : ∀ segno blknum, Ordered (tl.pages segno blknum)
  above : ∀ segno blknum, Above (tl.pages segno blknum) 1
  below : ∀ segno blknum, Below (tl.pages segno blknum) tl.lastRecordLsn

/-- A timeline that holds the same versions for every page, in LSN order, above LSN 0 and at
or below its last record LSN, has its pages in order. -/
theorem PagesOrdered.of_const {tl : Timeline} {vs : List (UInt64 × PageValue)}
    (hpages : ∀ segno blknum, tl.pages segno blknum = vs) (hord : Ordered vs) (habove : Above vs 1)
    (hbelow : Below vs tl.lastRecordLsn) : tl.PagesOrdered :=
  ⟨fun s b => hpages s b ▸ hord, fun s b => hpages s b ▸ habove, fun s b => hpages s b ▸ hbelow⟩

end Timeline

/-! ## The scan above the cached image -/

section Scan

variable {key : Key}

theorem slruBlockToKey_inj {kind : Multixact.SlruKind} {segno blknum segno' blknum' : UInt32}
    (h : Multixact.slruBlockToKey kind segno blknum =
      Multixact.slruBlockToKey kind segno' blknum') :
    segno = segno' ∧ blknum = blknum' := by
  have hk := congrArg Multixact.keyToSlruBlock h
  rw [Multixact.keyToSlruBlock_slruBlockToKey, Multixact.keyToSlruBlock_slruBlockToKey] at hk
  simpa using hk

/-- A scan that met an image stops there, whatever comes after. -/
theorem collect_append_of_some {xs : List (UInt64 × PageValue)} {img : UInt64 × List UInt8}
    (h : (collect xs).1 = some img) (ys : List (UInt64 × PageValue)) :
    collect (xs ++ ys) = (some img, (collect xs).2) := by
  induction xs with
  | nil => cases h
  | cons x xs ih =>
    obtain ⟨l, _ | rec⟩ := x
    · rw [List.cons_append]
      simp only [collect] at h ⊢
      cases h
      rfl
    · rw [collect_walRecord] at h ⊢
      rw [List.cons_append, collect_walRecord, ih h]

/-- A scan that met no image goes on into what comes after. -/
theorem collect_append_of_none {xs : List (UInt64 × PageValue)} (h : (collect xs).1 = none)
    (ys : List (UInt64 × PageValue)) :
    collect (xs ++ ys) = ((collect ys).1, (collect xs).2 ++ (collect ys).2) := by
  induction xs with
  | nil => rfl
  | cons x xs ih =>
    obtain ⟨l, _ | rec⟩ := x
    · simp [collect] at h
    · rw [collect_walRecord] at h ⊢
      rw [List.cons_append, collect_walRecord, ih h, List.cons_append]

/-- The first record the scan collects is the first version it visits. -/
theorem head_of_collect {xs : List (UInt64 × PageValue)} {l : UInt64} {rec : ClogRecord}
    {rest : List (UInt64 × ClogRecord)} (h : (collect xs).2 = (l, rec) :: rest) :
    xs.head? = some (l, .walRecord rec) := by
  cases xs with
  | nil => cases h
  | cons x xs =>
    obtain ⟨l', _ | rec'⟩ := x
    · simp [collect] at h
    · rw [collect_walRecord] at h
      cases h
      rfl

/-- A page read from its versions reads the same at any request LSN, which only enters the
error messages. -/
theorem readPage_congr_requestLsn {requestLsn : UInt64} {vs : List (UInt64 × PageValue)}
    {page : List UInt8} (h : readPage key requestLsn vs = .ok (.ok page)) (requestLsn' : UInt64) :
    readPage key requestLsn' vs = .ok (.ok page) := by
  unfold readPage at h ⊢
  rcases hc : collect vs.reverse with ⟨img, records⟩
  rw [hc] at h
  dsimp only at h ⊢
  cases img with
  | none =>
    obtain ⟨e, he⟩ := reconstructValue_none key requestLsn records
    rw [he] at h
    cases h
  | some img =>
    obtain ⟨imgLsn, img⟩ := img
    rw [reconstructValue_some] at h ⊢
    exact h

/-- Reconstructing from the versions above a cached image, with the cached image as the base
when they hold no image, gives what reconstructing from all the versions gives, when the cached
image is what the older versions read as. -/
theorem reconstructValue_cached (requestLsn : UInt64) {older newer : List (UInt64 × PageValue)}
    {c : UInt64} {pageC : List UInt8} (hc : readPage key c older = .ok (.ok pageC)) :
    reconstructValue key requestLsn ((collect newer.reverse).1.or (some (c, pageC)))
        (collect newer.reverse).2 =
      readPage key requestLsn (older ++ newer) := by
  unfold readPage
  rw [List.reverse_append]
  cases himg : (collect newer.reverse).1 with
  | some img =>
    rw [collect_append_of_some himg, Option.some_or]
  | none =>
    rw [collect_append_of_none himg, Option.none_or]
    -- the older versions hold the base image, and their records lead to the cached image
    unfold readPage at hc
    rcases hco : collect older.reverse with ⟨imgO, recsO⟩
    rw [hco] at hc
    dsimp only at hc ⊢
    cases imgO with
    | none =>
      obtain ⟨e, he⟩ := reconstructValue_none key c recsO
      rw [he] at hc
      cases hc
    | some imgO =>
      obtain ⟨lo, imgO⟩ := imgO
      rw [reconstructValue_some] at hc
      rw [reconstructValue_some, reconstructValue_some, List.reverse_append,
        applyRecords_append key _ _ hc]

variable {vs : List (UInt64 × PageValue)} {lsn : UInt64}

/-- The scan from the request LSN down to the cached image reconstructs what a read without the
cache does. -/
theorem reconstructValue_scanned (hord : Ordered vs) (habove : Above vs 1)
    {cached : Option (UInt64 × List UInt8)} (hle : (cached.map Prod.fst).getD 0 ≤ lsn)
    (hcached : ∀ c pageC, cached = some (c, pageC) → readPage key c (upTo vs c) = .ok (.ok pageC)) :
    reconstructValue key lsn
        ((collect (scanned vs lsn ((cached.map Prod.fst).getD 0)).reverse).1.or cached)
        (collect (scanned vs lsn ((cached.map Prod.fst).getD 0)).reverse).2 =
      readPage key lsn (upTo vs lsn) := by
  cases cached with
  | none =>
    -- no version is at LSN 0, so the scan visits every version up to `lsn`
    have hnil : upTo vs 0 = [] := List.filter_eq_nil_iff.mpr fun e he hle0 =>
      absurd (UInt64.le_trans (habove e he) (of_decide_eq_true hle0)) (by decide)
    change reconstructValue key lsn ((collect (scanned vs lsn 0).reverse).1.or none)
      (collect (scanned vs lsn 0).reverse).2 = _
    rw [upTo_eq_upTo_append_filter hord UInt64.zero_le, hnil, List.nil_append, Option.or_none]
    rfl
  | some cached =>
    obtain ⟨c, pageC⟩ := cached
    rw [upTo_eq_upTo_append_filter hord hle]
    exact reconstructValue_cached lsn (hcached c pageC rfl)

/-- When the newest version at or below `lsn` is a record above the cached image, the scan
meets it first. -/
theorem collect_scanned_of_getLast {c l : UInt64} {rec : ClogRecord}
    (hlast : (upTo vs lsn).getLast? = some (l, .walRecord rec)) (hc : c < l) :
    ∃ rest, (collect (scanned vs lsn c).reverse).2 = (l, rec) :: rest := by
  obtain ⟨init, hinit⟩ := List.getLast?_eq_some_iff.mp hlast
  unfold scanned
  rw [hinit, List.filter_append, List.filter_singleton, decide_eq_true hc, cond_true,
    List.reverse_append, List.reverse_singleton, List.singleton_append, collect_walRecord]
  exact ⟨_, rfl⟩

/-- A cached image at or above the newest version at or below `lsn` leaves nothing to scan. -/
theorem scanned_eq_nil_of_getLast (hord : Ordered vs) {c l : UInt64} {v : PageValue}
    (hlast : (upTo vs lsn).getLast? = some (l, v)) (hc : l ≤ c) : scanned vs lsn c = [] := by
  obtain ⟨init, hinit⟩ := List.getLast?_eq_some_iff.mp hlast
  have hord' : Ordered (init ++ [(l, v)]) := hinit ▸ hord.upTo
  unfold scanned
  rw [hinit, List.filter_eq_nil_iff]
  intro e he hce
  -- the versions are in order, so none is above the newest
  have hel : e.1 ≤ l := by
    rcases List.mem_append.mp he with he | he
    · exact (List.pairwise_append.mp hord').2.2 e he _ List.mem_cons_self
    · rw [List.mem_singleton.mp he]
      exact UInt64.le_refl _
  exact absurd (UInt64.lt_of_lt_of_le (of_decide_eq_true hce) hel) (UInt64.not_lt.mpr hc)

end Scan

namespace Timeline

section Truth

variable {tl : Timeline} {segno blknum : UInt32} {lsn : UInt64}

/-- The cache may hold one page of a key at an LSN. -/
theorem PageTruth.eq {key : Key} {l : UInt64} {page page' : List UInt8}
    (h : tl.PageTruth key l page) (h' : tl.PageTruth key l page') : page' = page := by
  obtain ⟨-, segno, blknum, rfl, hread⟩ := h
  obtain ⟨-, segno', blknum', hkey, hread'⟩ := h'
  obtain ⟨rfl, rfl⟩ := slruBlockToKey_inj hkey
  rw [hread] at hread'
  cases hread'
  rfl

/-- A page the scan redid from records reads, at the LSN of the newest record, as it does at the
request LSN: the cache may hold it there. -/
theorem pageTruth_of_collect (htl : tl.PagesOrdered) (hlsn : lsn ≤ tl.lastRecordLsn)
    {cachedLsn : UInt64} (hle : cachedLsn ≤ lsn) {l : UInt64} {rec : ClogRecord}
    {rest : List (UInt64 × ClogRecord)}
    (hrec : (collect (scanned (tl.pages segno blknum) lsn cachedLsn).reverse).2 = (l, rec) :: rest)
    {page : List UInt8} (hread : tl.getSlruPageAtLsn segno blknum lsn = .ok (.ok page)) :
    tl.PageTruth (Multixact.slruBlockToKey .clog segno blknum) l page := by
  have hlast : (scanned (tl.pages segno blknum) lsn cachedLsn).getLast? =
      some (l, .walRecord rec) := by
    rw [← List.head?_reverse]
    exact head_of_collect hrec
  have hmem := List.mem_of_getLast? hlast
  have hcl : cachedLsn < l := of_decide_eq_true (List.mem_filter.mp hmem).2
  have hl0 : l ≠ 0 := fun h0 => absurd hcl (by rw [h0]; exact UInt64.not_lt.mpr UInt64.zero_le)
  have hll : l ≤ lsn := of_decide_eq_true (List.mem_filter.mp (List.mem_filter.mp hmem).1).2
  -- the newest record is the last version a read at `lsn` sees
  have hupTo : upTo (tl.pages segno blknum) l = upTo (tl.pages segno blknum) lsn := by
    refine upTo_eq_of_getLast (htl.ordered segno blknum) (e := (l, .walRecord rec)) ?_
    rw [upTo_eq_upTo_append_filter (htl.ordered segno blknum) hle]
    change (upTo _ cachedLsn ++ scanned _ lsn cachedLsn).getLast? = _
    rw [List.getLast?_append, hlast]
    rfl
  have hlsn0 : lsn ≠ 0 := fun h0 => hl0 (UInt64.le_antisymm (h0 ▸ hll) UInt64.zero_le)
  refine ⟨UInt64.le_trans hll hlsn, segno, blknum, rfl, ?_⟩
  rw [getSlruPageAtLsn, if_neg hlsn0] at hread
  rw [getSlruPageAtLsn, if_neg hl0, hupTo]
  exact readPage_congr_requestLsn hread l

end Truth

/-! ## A read through a sound cache -/

section Read

variable {tl : Timeline} {cache : PageCache Key} {segno blknum : UInt32} {lsn : UInt64}

/-- Memorizing a page the cache may hold keeps the invariant and the soundness, and gives a
result unless the model's loop has no fuel. -/
theorem memorizeMaterializedPage_spec (hinv : cache.Inv) (hsound : Sound tl.PageTruth cache)
    {key : Key} {l : UInt64} {page : List UInt8} (htruth : tl.PageTruth key l page)
    (hlen : page.length = PageCache.pageSz) (fuel : ℕ) :
    ∃ cache', cache'.Inv ∧ Sound tl.PageTruth cache' ∧
      (cache.memorizeMaterializedPage fuel key l page = some (.ok cache') ∨
        fuel = 0 ∧ cache.memorizeMaterializedPage fuel key l page = none) := by
  cases fuel with
  | zero => exact ⟨cache, hinv, hsound, .inr ⟨rfl, rfl⟩⟩
  | succ fuel =>
    obtain ⟨cache', hmem, hinv', hsound', -⟩ := memorizeMaterializedPage_ok hinv hsound htruth
      (fun _ h => htruth.eq h) hlen fuel
    exact ⟨cache', hinv', hsound', .inl hmem⟩

/-- The scan down to a cached image that is the page at its LSN reconstructs what a read
without the cache does. -/
theorem reconstructValue_scanned_of_read (htl : tl.PagesOrdered)
    {cached : Option (UInt64 × List UInt8)} (hle : (cached.map Prod.fst).getD 0 ≤ lsn)
    (hcached : ∀ c pageC, cached = some (c, pageC) →
      tl.getSlruPageAtLsn segno blknum c = .ok (.ok pageC)) :
    reconstructValue (Multixact.slruBlockToKey .clog segno blknum) lsn
        ((collect (scanned (tl.pages segno blknum) lsn ((cached.map Prod.fst).getD 0)).reverse).1.or
          cached)
        (collect (scanned (tl.pages segno blknum) lsn ((cached.map Prod.fst).getD 0)).reverse).2 =
      readPage (Multixact.slruBlockToKey .clog segno blknum) lsn
        (upTo (tl.pages segno blknum) lsn) := by
  refine reconstructValue_scanned (htl.ordered segno blknum) (htl.above segno blknum) hle ?_
  -- a cached image is at a valid LSN, where the read is the read of the versions up to it
  intro c pageC hc
  have h := hcached c pageC hc
  unfold getSlruPageAtLsn at h
  split at h
  · cases h
  · exact h

/-- A read that does not fail is at a valid LSN, and reads the versions up to it. -/
theorem readPage_of_getSlruPageAtLsn {page : List UInt8}
    (hpage : tl.getSlruPageAtLsn segno blknum lsn = .ok (.ok page)) :
    lsn ≠ 0 ∧ readPage (Multixact.slruBlockToKey .clog segno blknum) lsn
      (upTo (tl.pages segno blknum) lsn) = .ok (.ok page) := by
  unfold getSlruPageAtLsn at hpage
  split at hpage
  · cases hpage
  · exact ⟨by assumption, hpage⟩

/-- The scan down to the cached image and the reconstruction return what a read without the
cache returns, and keep the cache sound. -/
theorem reconstructCached_spec (htl : tl.PagesOrdered) (hinv : cache.Inv)
    (hsound : Sound tl.PageTruth cache) (fuel : ℕ) (hlsn0 : lsn ≠ 0)
    (hlsn : lsn ≤ tl.lastRecordLsn) {cached : Option (UInt64 × List UInt8)}
    (hle : (cached.map Prod.fst).getD 0 ≤ lsn)
    (hcached : ∀ c pageC, cached = some (c, pageC) →
      tl.getSlruPageAtLsn segno blknum c = .ok (.ok pageC)) :
    ∃ cache', cache'.Inv ∧ Sound tl.PageTruth cache' ∧
      (tl.reconstructCached cache fuel segno blknum lsn cached =
          some ((·, cache') <$> tl.getSlruPageAtLsn segno blknum lsn) ∨
        fuel = 0 ∧ tl.reconstructCached cache fuel segno blknum lsn cached = none) := by
  have hscan := reconstructValue_scanned_of_read htl hle hcached
  unfold reconstructCached
  rw [getSlruPageAtLsn, if_neg hlsn0]
  rcases hc : collect (scanned (tl.pages segno blknum) lsn ((cached.map Prod.fst).getD 0)).reverse
    with ⟨img, records⟩
  rw [hc] at hscan
  dsimp only
  rw [hscan]
  cases hread : readPage (Multixact.slruBlockToKey .clog segno blknum) lsn
      (upTo (tl.pages segno blknum) lsn) with
  | error p => exact ⟨cache, hinv, hsound, .inl rfl⟩
  | ok res =>
    cases res with
    | error e => exact ⟨cache, hinv, hsound, .inl rfl⟩
    | ok page =>
      cases records with
      | nil => exact ⟨cache, hinv, hsound, .inl rfl⟩
      | cons r rest =>
        obtain ⟨l, rec⟩ := r
        dsimp only
        by_cases hlen : page.length = PageCache.pageSz
        · -- the redone page is memorized at the LSN of its newest record
          have hplain : tl.getSlruPageAtLsn segno blknum lsn = .ok (.ok page) := by
            rw [getSlruPageAtLsn, if_neg hlsn0, hread]
          have htruth := pageTruth_of_collect htl hlsn hle (by rw [hc]) hplain
          obtain ⟨cache', hinv', hsound', hmem⟩ :=
            memorizeMaterializedPage_spec hinv hsound htruth hlen fuel
          refine ⟨cache', hinv', hsound', ?_⟩
          rw [if_pos hlen]
          rcases hmem with hmem | ⟨hfuel, hmem⟩
          · rw [hmem]
            exact .inl rfl
          · rw [hmem]
            exact .inr ⟨hfuel, rfl⟩
        · rw [if_neg hlen]
          exact ⟨cache, hinv, hsound, .inl rfl⟩

/-- A read through a sound cache, at an LSN the timeline has received, returns what a read
without the cache returns and leaves the cache sound; the model gives no result only when its
loop has no fuel. -/
theorem getSlruPageAtLsnCached_spec (htl : tl.PagesOrdered) (hinv : cache.Inv)
    (hsound : Sound tl.PageTruth cache) (fuel : ℕ) (segno blknum : UInt32)
    (hlsn : lsn ≤ tl.lastRecordLsn) :
    ∃ cache', cache'.Inv ∧ Sound tl.PageTruth cache' ∧
      (tl.getSlruPageAtLsnCached cache fuel segno blknum lsn =
          some ((·, cache') <$> tl.getSlruPageAtLsn segno blknum lsn) ∨
        fuel = 0 ∧ tl.getSlruPageAtLsnCached cache fuel segno blknum lsn = none) := by
  unfold getSlruPageAtLsnCached
  by_cases h0 : lsn = 0
  · refine ⟨cache, hinv, hsound, .inl ?_⟩
    rw [if_pos h0, getSlruPageAtLsn, if_pos h0]
    rfl
  rw [if_neg h0]
  obtain ⟨r, cache1, hlookup, hinv1, hsound1, hr⟩ :=
    lookupMaterializedPage_spec hinv (Multixact.slruBlockToKey .clog segno blknum) lsn
  have hsound1 := hsound1 _ hsound
  rw [hlookup]
  cases hv : (cache.materializedPageMap (Multixact.slruBlockToKey .clog segno blknum)).bind
      fun versions => latestAtOrBelow versions lsn with
  | none =>
    rw [hv] at hr
    subst hr
    exact reconstructCached_spec htl hinv1 hsound1 fuel h0 hlsn UInt64.zero_le
      fun _ _ h => by cases h
  | some v =>
    rw [hv] at hr
    obtain ⟨slot, hslot, hkey, rfl⟩ := hr
    -- the cached image is the page at its LSN, which is at or below `lsn`
    obtain ⟨-, segno', blknum', hk, hcachedRead⟩ := hsound v.slotIdx slot _ v.lsn hslot hkey
    obtain ⟨rfl, rfl⟩ := slruBlockToKey_inj hk
    have hvle : v.lsn ≤ lsn := by
      obtain ⟨versions, -, hlatest⟩ := Option.bind_eq_some_iff.mp hv
      exact (mem_of_latestAtOrBelow hlatest).2
    dsimp only
    cases hcmp : compare v.lsn lsn with
    | lt =>
      exact reconstructCached_spec htl hinv1 hsound1 fuel h0 hlsn hvle
        fun c pageC h => by cases h; exact hcachedRead
    | eq =>
      have hveq : v.lsn = lsn := Std.LawfulEqCmp.eq_of_compare hcmp
      refine ⟨cache1, hinv1, hsound1, .inl ?_⟩
      rw [← hveq, hcachedRead]
      rfl
    | gt =>
      have hlt : lsn < v.lsn := Std.compare_eq_lt.mp (Std.OrientedCmp.gt_iff_lt.mp hcmp)
      exact absurd hvle (UInt64.not_le.mpr hlt)

/-- A scan that leaves nothing above the cached image answers with it, and leaves the cache as
the lookup left it. -/
theorem reconstructCached_of_scanned_nil (htl : tl.PagesOrdered) (fuel : ℕ)
    (cached : Option (UInt64 × List UInt8)) (hle : (cached.map Prod.fst).getD 0 ≤ lsn)
    (hcached : ∀ c pageC, cached = some (c, pageC) →
      tl.getSlruPageAtLsn segno blknum c = .ok (.ok pageC))
    (hnil : scanned (tl.pages segno blknum) lsn ((cached.map Prod.fst).getD 0) = [])
    {page : List UInt8} (hpage : tl.getSlruPageAtLsn segno blknum lsn = .ok (.ok page)) :
    tl.reconstructCached cache fuel segno blknum lsn cached = some (.ok (.ok page, cache)) := by
  have hscan := reconstructValue_scanned_of_read htl hle hcached
  rw [hnil] at hscan
  unfold reconstructCached
  rw [hnil]
  simp only [List.reverse_nil, collect] at hscan ⊢
  rw [hscan, (readPage_of_getSlruPageAtLsn hpage).2]

/-- A scan that meets a record above the cached image memorizes the page redone from the
records, at the LSN of that record. -/
theorem reconstructCached_memorizes (htl : tl.PagesOrdered) (hinv : cache.Inv)
    (hsound : Sound tl.PageTruth cache) (fuel : ℕ) (hlsn : lsn ≤ tl.lastRecordLsn)
    (cached : Option (UInt64 × List UInt8)) (hle : (cached.map Prod.fst).getD 0 ≤ lsn)
    (hcached : ∀ c pageC, cached = some (c, pageC) →
      tl.getSlruPageAtLsn segno blknum c = .ok (.ok pageC))
    {l : UInt64} {rec : ClogRecord}
    (hlast : (upTo (tl.pages segno blknum) lsn).getLast? = some (l, .walRecord rec))
    (hcl : (cached.map Prod.fst).getD 0 < l) {page : List UInt8}
    (hpage : tl.getSlruPageAtLsn segno blknum lsn = .ok (.ok page))
    (hlen : page.length = PageCache.pageSz) :
    ∃ cache', tl.reconstructCached cache (fuel + 1) segno blknum lsn cached =
        some (.ok (.ok page, cache')) ∧
      ∃ i, cache'.Maps (.materializedPage (Multixact.slruBlockToKey .clog segno blknum) l) i := by
  obtain ⟨rest, hrec⟩ := collect_scanned_of_getLast hlast hcl
  have htruth := pageTruth_of_collect htl hlsn hle hrec hpage
  obtain ⟨cache', hmem, -, -, hmaps⟩ := memorizeMaterializedPage_ok hinv hsound htruth
    (fun _ h => htruth.eq h) hlen fuel
  refine ⟨cache', ?_, hmaps⟩
  have hscan := reconstructValue_scanned_of_read htl hle hcached
  unfold reconstructCached
  rcases hc : collect (scanned (tl.pages segno blknum) lsn ((cached.map Prod.fst).getD 0)).reverse
    with ⟨img, records⟩
  rw [hc] at hscan hrec
  dsimp only at hrec ⊢
  subst hrec
  rw [hscan, (readPage_of_getSlruPageAtLsn hpage).2]
  dsimp only
  rw [if_pos hlen, hmem]

/-- A read through a sound cache of a page whose newest version at or below the LSN is a record
leaves the cache holding an image of the page at an LSN from that record's to the request's: the
page redone from records is memorized, unless a cached image spared the redo. -/
theorem getSlruPageAtLsnCached_memorizes (htl : tl.PagesOrdered) (hinv : cache.Inv)
    (hsound : Sound tl.PageTruth cache) (fuel : ℕ) (hlsn : lsn ≤ tl.lastRecordLsn)
    {l : UInt64} {rec : ClogRecord}
    (hlast : (upTo (tl.pages segno blknum) lsn).getLast? = some (l, .walRecord rec))
    {page : List UInt8} (hpage : tl.getSlruPageAtLsn segno blknum lsn = .ok (.ok page))
    (hlen : page.length = PageCache.pageSz) :
    ∃ cache', tl.getSlruPageAtLsnCached cache (fuel + 1) segno blknum lsn =
        some (.ok (.ok page, cache')) ∧
      ∃ l' i, l ≤ l' ∧ l' ≤ lsn ∧
        cache'.Maps (.materializedPage (Multixact.slruBlockToKey .clog segno blknum) l') i := by
  have hmem := List.mem_filter.mp (List.mem_of_getLast? hlast)
  have hll : l ≤ lsn := of_decide_eq_true hmem.2
  have hl0 : (0 : UInt64) < l := UInt64.lt_of_lt_of_le (by decide) (htl.above segno blknum _ hmem.1)
  unfold getSlruPageAtLsnCached
  rw [if_neg (readPage_of_getSlruPageAtLsn hpage).1]
  obtain ⟨r, cache1, hlookup, hinv1, hsound1, hr⟩ :=
    lookupMaterializedPage_spec hinv (Multixact.slruBlockToKey .clog segno blknum) lsn
  have hsound1 := hsound1 _ hsound
  have hmap1 := materializedPageMap_of_lookup hlookup
  rw [hlookup]
  cases hv : (cache.materializedPageMap (Multixact.slruBlockToKey .clog segno blknum)).bind
      fun versions => latestAtOrBelow versions lsn with
  | none =>
    -- nothing cached at or below `lsn`: the page is redone and memorized
    rw [hv] at hr
    subst hr
    obtain ⟨cache', hget, i, hmaps⟩ := reconstructCached_memorizes htl hinv1 hsound1 fuel hlsn none
      UInt64.zero_le (fun _ _ h => by cases h) hlast hl0 hpage hlen
    exact ⟨cache', hget, l, i, UInt64.le_refl _, hll, hmaps⟩
  | some v =>
    rw [hv] at hr
    obtain ⟨slot, hslot, hkey, rfl⟩ := hr
    obtain ⟨-, segno', blknum', hk, hcachedRead⟩ := hsound v.slotIdx slot _ v.lsn hslot hkey
    obtain ⟨rfl, rfl⟩ := slruBlockToKey_inj hk
    obtain ⟨versions, hmap, hlatest⟩ := Option.bind_eq_some_iff.mp hv
    have hvle : v.lsn ≤ lsn := (mem_of_latestAtOrBelow hlatest).2
    -- the lookup only raised a usage count, so the cached version stays mapped
    have hmaps1 : cache1.Maps
        (.materializedPage (Multixact.slruBlockToKey .clog segno blknum) v.lsn) v.slotIdx :=
      ⟨versions, (congrFun hmap1 _).trans hmap, (mem_of_latestAtOrBelow hlatest).1⟩
    have hcached : ∀ c pageC, some (v.lsn, slot.buf) = some (c, pageC) →
        tl.getSlruPageAtLsn segno blknum c = .ok (.ok pageC) := fun c pageC h => by
      cases h
      exact hcachedRead
    dsimp only
    cases hcmp : compare v.lsn lsn with
    | lt =>
      by_cases hvl : v.lsn < l
      · obtain ⟨cache', hget, i, hmaps⟩ := reconstructCached_memorizes htl hinv1 hsound1 fuel
          hlsn (some (v.lsn, slot.buf)) hvle hcached hlast hvl hpage hlen
        exact ⟨cache', hget, l, i, UInt64.le_refl _, hll, hmaps⟩
      · -- the cached image is at or above the newest record: nothing is left to redo
        have hlv := UInt64.not_lt.mp hvl
        exact ⟨cache1, reconstructCached_of_scanned_nil htl _ _ hvle hcached
          (scanned_eq_nil_of_getLast (htl.ordered segno blknum) hlast hlv) hpage,
          v.lsn, v.slotIdx, hlv, hvle, hmaps1⟩
    | eq =>
      have hveq : v.lsn = lsn := Std.LawfulEqCmp.eq_of_compare hcmp
      have hbuf : slot.buf = page := by
        rw [hveq, hpage] at hcachedRead
        cases hcachedRead
        rfl
      exact ⟨cache1, by rw [hbuf], v.lsn, v.slotIdx, hveq ▸ hll, hvle, hmaps1⟩
    | gt =>
      have hlt : lsn < v.lsn := Std.compare_eq_lt.mp (Std.OrientedCmp.gt_iff_lt.mp hcmp)
      exact absurd hvle (UInt64.not_le.mpr hlt)

/-- A read through a sound cache, at an LSN the timeline has received, returns what a read
without the cache returns, never panics, and leaves the cache sound and keeping its invariant. -/
theorem getSlruPageAtLsnCached_eq (htl : tl.PagesOrdered) (hinv : cache.Inv)
    (hsound : Sound tl.PageTruth cache) (fuel : ℕ) (segno blknum : UInt32)
    (hlsn : lsn ≤ tl.lastRecordLsn) :
    ∃ cache', tl.getSlruPageAtLsnCached cache (fuel + 1) segno blknum lsn =
        some ((·, cache') <$> tl.getSlruPageAtLsn segno blknum lsn) ∧
      cache'.Inv ∧ Sound tl.PageTruth cache' := by
  obtain ⟨cache', hinv', hsound', hget⟩ :=
    getSlruPageAtLsnCached_spec htl hinv hsound (fuel + 1) segno blknum hlsn
  rcases hget with hget | ⟨hfuel, -⟩
  · exact ⟨cache', hget, hinv', hsound'⟩
  · cases hfuel

/-- A timeline whose every page is a zeroed page at LSN 1 and abort records at LSNs 2 and 3, and
a new cache of one slot.  A read at LSN 2 redoes the first record and memorizes the page there;
a read at LSN 3 redoes the second record from that cached image and memorizes the page there; a
second read at LSN 3 answers with the cached image. -/
theorem getSlruPageAtLsnCached_eq_cachedImage :
    ∃ cache₁ cache₂ cache₃ : PageCache Key,
      Timeline.getSlruPageAtLsnCached
          ⟨[(1, [0])], fun _ => [(1, 1)], fun _ _ => [(1, .image zeroPage),
          (2, .walRecord (.clogSetAborted [6])), (3, .walRecord (.clogSetAborted [7]))], 3⟩
          ⟨fun _ => none, fun _ => none, [⟨none, 0, List.replicate PageCache.pageSz 0⟩], 0⟩
          1 0 0 2 = some (.ok (.ok (applyClogRecord (.clogSetAborted [6]) zeroPage), cache₁)) ∧
      (∃ i, cache₁.Maps (.materializedPage (Multixact.slruBlockToKey .clog 0 0) 2) i) ∧
      Timeline.getSlruPageAtLsnCached
          ⟨[(1, [0])], fun _ => [(1, 1)], fun _ _ => [(1, .image zeroPage),
          (2, .walRecord (.clogSetAborted [6])), (3, .walRecord (.clogSetAborted [7]))], 3⟩
          cache₁ 1 0 0 3 = some (.ok (.ok (applyClogRecord (.clogSetAborted [7])
            (applyClogRecord (.clogSetAborted [6]) zeroPage)), cache₂)) ∧
      (∃ i, cache₂.Maps (.materializedPage (Multixact.slruBlockToKey .clog 0 0) 3) i) ∧
      Timeline.getSlruPageAtLsnCached
          ⟨[(1, [0])], fun _ => [(1, 1)], fun _ _ => [(1, .image zeroPage),
          (2, .walRecord (.clogSetAborted [6])), (3, .walRecord (.clogSetAborted [7]))], 3⟩
          cache₂ 1 0 0 3 = some (.ok (.ok (applyClogRecord (.clogSetAborted [7])
            (applyClogRecord (.clogSetAborted [6]) zeroPage)), cache₃)) ∧
      cache₃.Inv := by
  obtain ⟨c, hc, hinv, hsound⟩ := new_inv (K := Key) Nat.one_pos
  cases Except.ok.inj hc
  have htl : Timeline.PagesOrdered
      ⟨[(1, [0])], fun _ => [(1, 1)], fun _ _ => [(1, .image zeroPage),
          (2, .walRecord (.clogSetAborted [6])), (3, .walRecord (.clogSetAborted [7]))], 3⟩ :=
    .of_const (fun _ _ => rfl) (by unfold Ordered; decide) (by unfold Above; decide)
      (by unfold Below; decide)
  -- the pages a read without the cache returns: abort records keep `PAGE_SZ` bytes
  have hlen₂ : (applyClogRecord (.clogSetAborted [6]) zeroPage).length = PageCache.pageSz := by
    simp only [applyClogRecord, length_foldl_setStatusAt, length_zeroPage]
    rfl
  have hlen₃ : (applyClogRecord (.clogSetAborted [7])
      (applyClogRecord (.clogSetAborted [6]) zeroPage)).length = PageCache.pageSz := by
    simp only [applyClogRecord, length_foldl_setStatusAt, length_zeroPage]
    rfl
  have h₁ : ∀ lsn, readPage (clogPageKey 0) lsn [(1, .image zeroPage)] = .ok (.ok zeroPage) :=
    fun lsn => readPage_append_image (clogPageKey 0) lsn [] 1 zeroPage
  have h₂ : ∀ lsn, readPage (clogPageKey 0) lsn
      ([(1, .image zeroPage)] ++ [(2, .walRecord (.clogSetAborted [6]))]) =
        .ok (.ok (applyClogRecord (.clogSetAborted [6]) zeroPage)) := fun lsn =>
    (readPage_append_walRecord (h₁ lsn) 2 _).trans
      (applyInNeon_of_onKeyPage (by simp [ClogRecord.xids, transactionIdToPage, clogXactsPerPage_eq])
        (Nat.le_of_eq length_zeroPage.symm))
  have hpage₂ : Timeline.getSlruPageAtLsn
      ⟨[(1, [0])], fun _ => [(1, 1)], fun _ _ => [(1, .image zeroPage),
          (2, .walRecord (.clogSetAborted [6])), (3, .walRecord (.clogSetAborted [7]))], 3⟩ 0 0 2 =
      .ok (.ok (applyClogRecord (.clogSetAborted [6]) zeroPage)) := h₂ 2
  have hpage₃ : Timeline.getSlruPageAtLsn
      ⟨[(1, [0])], fun _ => [(1, 1)], fun _ _ => [(1, .image zeroPage),
          (2, .walRecord (.clogSetAborted [6])), (3, .walRecord (.clogSetAborted [7]))], 3⟩ 0 0 3 =
      .ok (.ok (applyClogRecord (.clogSetAborted [7])
        (applyClogRecord (.clogSetAborted [6]) zeroPage))) :=
    (readPage_append_walRecord (h₂ 3) 3 _).trans
      (applyInNeon_of_onKeyPage (by simp [ClogRecord.xids, transactionIdToPage, clogXactsPerPage_eq])
        (Nat.le_of_eq hlen₂.symm))
  -- the first read redoes the record at LSN 2 and memorizes the page there
  obtain ⟨c₁, hget₁, hinv₁, hsound₁⟩ :=
    Timeline.getSlruPageAtLsnCached_eq htl hinv (hsound _) 0 0 0 (by decide : (2 : UInt64) ≤ 3)
  obtain ⟨c₁', hget₁', l₁, i₁, hl₁, hl₁', hmaps₁⟩ := Timeline.getSlruPageAtLsnCached_memorizes htl
    hinv (hsound _) 0 (by decide : (2 : UInt64) ≤ 3) rfl hpage₂ hlen₂
  rw [hpage₂, hget₁'] at hget₁
  obtain rfl : c₁' = c₁ := by cases hget₁; rfl
  -- the second starts from that image, redoes the record at LSN 3 and memorizes the page there
  obtain ⟨c₂, hget₂, hinv₂, hsound₂⟩ :=
    Timeline.getSlruPageAtLsnCached_eq htl hinv₁ hsound₁ 0 0 0 (UInt64.le_refl 3)
  obtain ⟨c₂', hget₂', l₂, i₂, hl₂, hl₂', hmaps₂⟩ := Timeline.getSlruPageAtLsnCached_memorizes htl
    hinv₁ hsound₁ 0 (UInt64.le_refl 3) rfl hpage₃ hlen₃
  rw [hpage₃, hget₂'] at hget₂
  obtain rfl : c₂' = c₂ := by cases hget₂; rfl
  -- the third finds the image at LSN 3
  obtain ⟨c₃, hget₃, hinv₃, -⟩ :=
    Timeline.getSlruPageAtLsnCached_eq htl hinv₂ hsound₂ 0 0 0 (UInt64.le_refl 3)
  rw [hpage₃] at hget₃
  refine ⟨c₁', c₂', c₃, hget₁', ⟨i₁, ?_⟩, hget₂', ⟨i₂, ?_⟩, hget₃, hinv₃⟩
  · rwa [UInt64.le_antisymm hl₁' hl₁] at hmaps₁
  · rwa [UInt64.le_antisymm hl₂' hl₂] at hmaps₂

end Read

end Timeline

/-! ## Ingestion keeps the cache sound -/

theorem setLsn_eq_ok {m m' : DatadirModification} {lsn : UInt64} (h : m.setLsn lsn = .ok m') :
    m.lsn ≤ lsn ∧ m'.lsn = lsn ∧ m'.pendingPages = m.pendingPages := by
  unfold DatadirModification.setLsn at h
  split at h
  · rename_i hle
    cases h
    split
    · exact ⟨hle, rfl, rfl⟩
    · rename_i hnlt
      exact ⟨hle, UInt64.le_antisymm hle (UInt64.not_lt.mp hnlt), rfl⟩
  · cases h

/-- The pages the modification would commit are in LSN order and at or below its LSN, and those
of the timeline at or below its last record LSN. -/
def ViewOrdered (tl : Timeline) (m : DatadirModification) : Prop :=
  ∀ segno blknum, Below (tl.pages segno blknum) tl.lastRecordLsn ∧
    Ordered ((m.view tl).pages segno blknum) ∧ Below ((m.view tl).pages segno blknum) m.lsn

/-- Every operation puts a page at the modification's LSN, after the pages already there. -/
theorem stable_viewOrdered : Stable ViewOrdered where
  puts tl :=
    { putDir := fun _ _ h => h
      putSize := fun _ _ _ h => h
      putPage := fun m segno blknum v h s b => by
        obtain ⟨htl, hord, hbelow⟩ := h s b
        refine ⟨htl, ?_, ?_⟩ <;> rw [view_putPage_pages] <;> split
        · exact hord.append_putVersion hbelow
        · exact hord
        · exact hbelow.append_putVersion
        · exact hbelow
      delete := fun _ _ h => h }
  setLsn tl m m' lsn hset h s b := by
    obtain ⟨hle, rfl, hpages⟩ := setLsn_eq_ok hset
    have hview : (m'.view tl).pages s b = (m.view tl).pages s b := by simp only [view, hpages]
    rw [hview]
    exact ⟨(h s b).1, (h s b).2.1, (h s b).2.2.mono hle⟩
  commit tl m tl' m' hc h s b := by
    have hview := view_commit hc
    obtain ⟨htl', hle, rfl⟩ := commit_eq_ok hc
    -- the committed pages are the view's, at or below the new last record LSN
    have hpages : tl'.pages s b = (m.view tl).pages s b := by rw [htl']
    rw [hview, hpages]
    exact ⟨(h s b).2.2.mono hle, (h s b).2.1, (h s b).2.2⟩

/-- The last record LSN, and the modification's LSN, only move forward. -/
theorem stable_lsn_ge (l : UInt64) :
    Stable fun tl m => l ≤ tl.lastRecordLsn ∧ l ≤ m.lsn where
  puts tl := PutsKeep.of_lsns fun lsn _ => l ≤ tl.lastRecordLsn ∧ l ≤ lsn
  setLsn tl m m' lsn hset h := by
    obtain ⟨hle, rfl, -⟩ := setLsn_eq_ok hset
    exact ⟨h.1, UInt64.le_trans h.2 hle⟩
  commit _ _ _ _ hc h := by
    obtain ⟨-, hle, rfl⟩ := commit_eq_ok hc
    exact ⟨UInt64.le_trans h.2 hle, h.2⟩

/-- A run of the WAL receiver's loop, from a modification with nothing pending at an LSN after
the last record LSN, keeps the pages in order and a sound cache sound: it only adds versions
above every LSN the cache holds a page at. -/
theorem walReceiverLoop_cacheSound {tl tl' : Timeline} {cache : PageCache Key}
    (htl : tl.PagesOrdered) (hsound : Sound tl.PageTruth cache) (ingestBatchSize : ℕ)
    {checkpoint checkpoint' : CheckPoint} {m : DatadirModification}
    {records : List (UInt64 × UInt32 × ClogWalRecord)} (hm : m.Since m.lsn)
    (hpages : ∀ segno blknum, m.pendingPages segno blknum = []) (hstart : tl.lastRecordLsn < m.lsn)
    (hloop : walReceiverLoop ingestBatchSize checkpoint tl m 0 records =
      .ok (.ok (checkpoint', tl'))) :
    tl'.PagesOrdered ∧ Sound tl'.PageTruth cache := by
  -- nothing is pending yet, so the pages the modification would commit are the timeline's
  have hview : ViewOrdered tl m := fun s b => by
    have hv : (m.view tl).pages s b = tl.pages s b := by simp [view, hpages]
    refine ⟨htl.below s b, ?_, ?_⟩ <;> rw [hv]
    · exact htl.ordered s b
    · exact (htl.below s b).mono (UInt64.le_of_lt hstart)
  obtain ⟨m', ⟨⟨hext, -⟩, hview'⟩, hmono, -⟩ :=
    (((stable_extends_since tl m.lsn).and stable_viewOrdered).and
      (stable_lsn_ge tl.lastRecordLsn)).walReceiverLoop ingestBatchSize records
      ⟨⟨⟨Timeline.Extends.refl tl m.lsn, hm⟩, hview⟩, UInt64.le_refl _,
        UInt64.le_of_lt hstart⟩ hloop
  -- a valid start LSN is above 0, so the new versions are too
  have hstart1 : (1 : UInt64) ≤ m.lsn := by
    have hlt := UInt64.lt_iff_toNat_lt.mp hstart
    rw [UInt64.le_iff_toNat_le, UInt64.toNat_one]
    omega
  refine ⟨⟨fun s b => (hview' s b).2.1.sublist (List.sublist_append_left _ _), fun s b => ?_,
    fun s b => (hview' s b).1⟩, hsound.mono ?_⟩
  · obtain ⟨new, hpages', habove⟩ := hext.pages s b
    rw [hpages']
    exact (htl.above s b).append (habove.mono hstart1)
  · rintro key l page ⟨hl, segno, blknum, hkey, hread⟩
    exact ⟨UInt64.le_trans hl hmono, segno, blknum, hkey,
      (hext.getSlruPageAtLsn segno blknum (UInt64.lt_of_le_of_lt hl hstart)).trans hread⟩

/-- The first record of a message moves the modification to its LSN before it puts anything, so
a modification begun at an earlier LSN ingests it as one begun at its own that has moved on
from the earlier one. -/
theorem walReceiverLoop_begin {startLsn lsn : UInt64} (hlt : startLsn < lsn)
    (ingestBatchSize : ℕ) (checkpoint : CheckPoint) (tl : Timeline) (xlXid : UInt32)
    (rec : ClogWalRecord) (rest : List (UInt64 × UInt32 × ClogWalRecord)) :
    walReceiverLoop ingestBatchSize checkpoint tl (DatadirModification.begin startLsn) 0
        ((lsn, xlXid, rec) :: rest) =
      walReceiverLoop ingestBatchSize checkpoint tl
        { DatadirModification.begin lsn with pendingLsns := [startLsn] } 0
        ((lsn, xlXid, rec) :: rest) := by
  have hset : (DatadirModification.begin startLsn).setLsn lsn =
      ({ DatadirModification.begin lsn with pendingLsns := [startLsn] } :
        DatadirModification).setLsn lsn := by
    rw [setLsn_of_lt hlt]
    exact setLsn_self.symm
  simp only [walReceiverLoop, ingestRecord, hset]

/-- A run of the WAL receiver's loop from the last record LSN or after it, over records at
increasing LSNs after its start, keeps the pages in order and a sound cache sound. -/
theorem walReceiverLoop_cacheSound_of_le {tl tl' : Timeline} {cache : PageCache Key}
    (htl : tl.PagesOrdered) (hsound : Sound tl.PageTruth cache) (ingestBatchSize : ℕ)
    {checkpoint checkpoint' : CheckPoint} {startLsn : UInt64}
    {records : List (UInt64 × UInt32 × ClogWalRecord)} (hstart : tl.lastRecordLsn ≤ startLsn)
    (hlsns : List.Pairwise (· < ·) (startLsn :: records.map Prod.fst))
    (hloop : walReceiverLoop ingestBatchSize checkpoint tl (DatadirModification.begin startLsn) 0
      records = .ok (.ok (checkpoint', tl'))) :
    tl'.PagesOrdered ∧ Sound tl'.PageTruth cache := by
  cases records with
  | nil =>
    -- nothing was ingested, and nothing is committed
    simp only [walReceiverLoop, gt_iff_lt, lt_self_iff_false, if_false, Except.ok.injEq,
      Prod.mk.injEq] at hloop
    rw [← hloop.2]
    exact ⟨htl, hsound⟩
  | cons r rest =>
    obtain ⟨lsn, xlXid, rec⟩ := r
    have hlt : startLsn < lsn := (List.pairwise_cons.mp hlsns).1 lsn List.mem_cons_self
    rw [walReceiverLoop_begin hlt] at hloop
    exact walReceiverLoop_cacheSound htl hsound ingestBatchSize
      ⟨UInt64.le_refl _, above_nil _, fun _ => above_nil _, fun _ _ => above_nil _⟩ (fun _ _ => rfl)
      (UInt64.lt_of_le_of_lt hstart hlt) hloop

/-! ## Every read of a run -/

namespace Timeline

/-- The timelines and caches that reads through the cache, at LSNs the timeline has received,
and runs of the WAL receiver's loop, each from a modification begun at or after the last record
LSN over records at increasing LSNs after its start, reach from `tl₀` and `cache₀`. -/
inductive Reachable (tl₀ : Timeline) (cache₀ : PageCache Key) : Timeline → PageCache Key → Prop
  | init : Reachable tl₀ cache₀ tl₀ cache₀
  | get {tl : Timeline} {cache cache' : PageCache Key} {fuel : ℕ} {segno blknum : UInt32}
      {lsn : UInt64} {page : Except String (List UInt8)} :
      Reachable tl₀ cache₀ tl cache → lsn ≤ tl.lastRecordLsn →
      tl.getSlruPageAtLsnCached cache fuel segno blknum lsn = some (.ok (page, cache')) →
      Reachable tl₀ cache₀ tl cache'
  | ingest {tl tl' : Timeline} {cache : PageCache Key} {ingestBatchSize : ℕ}
      {checkpoint checkpoint' : CheckPoint} {startLsn : UInt64}
      {records : List (UInt64 × UInt32 × ClogWalRecord)} :
      Reachable tl₀ cache₀ tl cache → tl.lastRecordLsn ≤ startLsn →
      List.Pairwise (· < ·) (startLsn :: records.map Prod.fst) →
      walReceiverLoop ingestBatchSize checkpoint tl (DatadirModification.begin startLsn) 0
        records = .ok (.ok (checkpoint', tl')) →
      Reachable tl₀ cache₀ tl' cache

/-- Every reachable state keeps the pages in order, the cache's invariant and its soundness. -/
theorem Reachable.inv {tl₀ tl : Timeline} {cache₀ cache : PageCache Key}
    (h₀ : tl₀.PagesOrdered ∧ cache₀.Inv ∧ Sound tl₀.PageTruth cache₀)
    (h : Reachable tl₀ cache₀ tl cache) :
    tl.PagesOrdered ∧ cache.Inv ∧ Sound tl.PageTruth cache := by
  induction h with
  | init => exact h₀
  | get _ hlsn hget ih =>
    -- the read returned, so it returned what the spec says, with a sound cache
    obtain ⟨htl, hinv, hsound⟩ := ih
    obtain ⟨cache', hinv', hsound', hspec⟩ :=
      getSlruPageAtLsnCached_spec htl hinv hsound _ _ _ hlsn
    rcases hspec with hspec | ⟨-, hnone⟩
    · rw [hget] at hspec
      obtain ⟨page', hplain, hpair⟩ := Except.exists_of_map_eq_ok (Option.some.inj hspec).symm
      cases hpair
      exact ⟨htl, hinv', hsound'⟩
    · rw [hget] at hnone
      cases hnone
  | ingest _ hstart hlsns hloop ih =>
    obtain ⟨htl, hinv, hsound⟩ := ih
    obtain ⟨htl', hsound'⟩ := walReceiverLoop_cacheSound_of_le htl hsound _ hstart hlsns hloop
    exact ⟨htl', hinv, hsound'⟩

end Timeline

/-- From a timeline whose pages are in order and a new page cache, every read through the cache
in any state that reads and WAL ingestion reach, at an LSN the timeline has received, returns
what a read without the cache returns, and never panics. -/
theorem getSlruPageAtLsnCached_reachable {tl₀ tl : Timeline} {cache₀ cache : PageCache Key}
    {numPages : ℕ} (htl₀ : tl₀.PagesOrdered) (hnew : PageCache.new numPages = .ok cache₀)
    (h : tl₀.Reachable cache₀ tl cache) (fuel : ℕ) (segno blknum : UInt32) {lsn : UInt64}
    (hlsn : lsn ≤ tl.lastRecordLsn) :
    ∃ cache', tl.getSlruPageAtLsnCached cache (fuel + 1) segno blknum lsn =
      some ((·, cache') <$> tl.getSlruPageAtLsn segno blknum lsn) := by
  obtain ⟨c, hc, hinv, hsound⟩ := new_inv (K := Key) (pos_of_new hnew)
  rw [hnew] at hc
  cases hc
  obtain ⟨htl, hinv', hsound'⟩ := h.inv ⟨htl₀, hinv, hsound _⟩
  obtain ⟨cache', -, -, hget⟩ :=
    Timeline.getSlruPageAtLsnCached_spec htl hinv' hsound' (fuel + 1) segno blknum hlsn
  rcases hget with hget | ⟨hfuel, -⟩
  · exact ⟨cache', hget⟩
  · cases hfuel

/-- A timeline whose every page is a zeroed page at LSN 8 and an abort record at LSN 16, and a
new cache of one slot.  A read at LSN 16 memorizes the redone page there; a run of the loop from
the last record LSN zeroes page 0 at LSN 24; a read of the page at LSN 24 through the cache, which
holds the older image, returns the zeroed page that a read without the cache returns. -/
theorem getSlruPageAtLsnCached_reachable_cachedImage :
    ∃ cache₁, Timeline.getSlruPageAtLsnCached
        ⟨[(8, [0])], fun _ => [(8, 1)], fun _ _ => [(8, .image zeroPage),
          (16, .walRecord (.clogSetAborted [6]))], 16⟩
        ⟨fun _ => none, fun _ => none, [⟨none, 0, List.replicate PageCache.pageSz 0⟩], 0⟩
        1 0 0 16 = some (.ok (.ok (applyClogRecord (.clogSetAborted [6]) zeroPage), cache₁)) ∧
      (∃ i, cache₁.Maps (.materializedPage (Multixact.slruBlockToKey .clog 0 0) 16) i) ∧
      ∃ checkpoint' tl', walReceiverLoop 1 ⟨⟨3⟩, 1, 0⟩
          ⟨[(8, [0])], fun _ => [(8, 1)], fun _ _ => [(8, .image zeroPage),
          (16, .walRecord (.clogSetAborted [6]))], 16⟩
          (DatadirModification.begin 16) 0 [(24, 0, .zeroPage 0)] = .ok (.ok (checkpoint', tl')) ∧
        ∃ cache₂, tl'.getSlruPageAtLsnCached cache₁ 1 0 0 24 =
          some (.ok (.ok zeroPage, cache₂)) := by
  obtain ⟨c, hc, hinv, hsound⟩ := new_inv (K := Key) Nat.one_pos
  cases Except.ok.inj hc
  have htl : Timeline.PagesOrdered
      ⟨[(8, [0])], fun _ => [(8, 1)], fun _ _ => [(8, .image zeroPage),
          (16, .walRecord (.clogSetAborted [6]))], 16⟩ :=
    .of_const (fun _ _ => rfl) (by unfold Ordered; decide) (by unfold Above; decide)
      (by unfold Below; decide)
  -- the first read redoes the abort record, which keeps `PAGE_SZ` bytes, and memorizes the page
  have hlen : (applyClogRecord (.clogSetAborted [6]) zeroPage).length = PageCache.pageSz := by
    simp only [applyClogRecord, length_foldl_setStatusAt, length_zeroPage]
    rfl
  have hpage : Timeline.getSlruPageAtLsn
      ⟨[(8, [0])], fun _ => [(8, 1)], fun _ _ => [(8, .image zeroPage),
          (16, .walRecord (.clogSetAborted [6]))], 16⟩ 0 0 16 =
      .ok (.ok (applyClogRecord (.clogSetAborted [6]) zeroPage)) :=
    (readPage_append_walRecord (readPage_append_image (clogPageKey 0) 16 [] 8 zeroPage) 16
      _).trans (applyInNeon_of_onKeyPage
        (by simp [ClogRecord.xids, transactionIdToPage, clogXactsPerPage_eq])
        (Nat.le_of_eq length_zeroPage.symm))
  obtain ⟨c₁, hget₁, l, i, hl, hl', hmaps⟩ := Timeline.getSlruPageAtLsnCached_memorizes htl hinv
    (hsound _) 0 (UInt64.le_refl 16) rfl hpage hlen
  refine ⟨c₁, hget₁, ⟨i, by rwa [UInt64.le_antisymm hl' hl] at hmaps⟩, _, _, rfl, ?_⟩
  -- then the loop runs from the last record LSN, and the read goes through the cache
  have hnew : (PageCache.new 1 : Except Panic (PageCache Key)) =
      .ok ⟨fun _ => none, fun _ => none, [⟨none, 0, List.replicate PageCache.pageSz 0⟩], 0⟩ := rfl
  obtain ⟨c₂, hget₂⟩ := getSlruPageAtLsnCached_reachable htl hnew
    (@Timeline.Reachable.ingest _ _ _ _ _ 1 ⟨⟨3⟩, 1, 0⟩ _ 16 [(24, 0, .zeroPage 0)]
      (.get .init (UInt64.le_refl 16) hget₁) (UInt64.le_refl 16) (by decide) rfl) 0 0 0
    (show (24 : UInt64) ≤ _ by decide)
  refine ⟨c₂, hget₂.trans ?_⟩
  -- the zeroed image at LSN 24 is the newest version of the page
  show some ((·, c₂) <$> readPage (clogPageKey 0) 24
    ([(8, .image zeroPage), (16, .walRecord (.clogSetAborted [6]))] ++ [(24, .image zeroPage)])) = _
  rw [readPage_append_image]
  rfl

end Slru

end NeonStorage
