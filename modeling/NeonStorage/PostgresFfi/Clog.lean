import NeonStorage.PostgresFfi.Multixact
import NeonStorage.PostgresFfi.CheckPoint
import NeonStorage.Lib.Slice
import NeonStorage.Lib.Text

/-!
# PostgreSQL's commit log

The commit log (`pg_xact`, the CLOG) keeps two bits of status for every transaction id: in
progress, committed, aborted or sub-committed.  It is an SLRU of `BLCKSZ`-byte pages, four
transactions to a byte, so that a page holds `32768` transactions and a segment file of `32`
pages a little over a million (`clog.c`, `postgres_ffi/src/nonrelfile_utils.rs`).

`transactionIdSetStatus` writes a transaction's two bits in place and `transactionIdGetStatus`
reads them; both panic on a page too short for the byte.  On a page of at least `BLCKSZ` bytes
a write changes the status read at exactly the transactions at the same place on a page
(`statusAt_setStatusAt`), and leaves the length and what follows the first `BLCKSZ` bytes as
they were.

Truncation compares pages around the circle of transaction ids: `clogpagePrecedes p c` says
that the first transaction of page `p` precedes both the first and the last one of page `c`.
For page numbers below `2 ^ 17` it compares the distance from `c` to `p` modulo `2 ^ 17`
(`clogpagePrecedes_iff`), so that a segment whose first and last pages precede the cutoff has
all its pages preceding it (`clogpagePrecedes_of_segment`).  The port differs from PostgreSQL in
one place: `transaction_id_is_normal` is `id > 3` where `TransactionIdIsNormal` is `id >= 3`.
When the cutoff is the last page, `131071`, the last id of that page wraps around to `3`, which
Neon does not count as normal: its comparison then never holds, where PostgreSQL's holds for the
pages `65536` to `131070` (`clogpagePrecedes_eq_pg`, `clogpagePrecedes_last`).

`Clog` is the commit log these functions serve, seen whole: its segment files, the pages of
each, and the status of every transaction, with the three operations of the CLOG's WAL:
zeroing a page, setting the status of a transaction tree, and truncating.
-/

namespace NeonStorage

namespace PostgresFfi

open Bytes Wrapping Text

/-- `CLOG_XACTS_PER_BYTE`. -/
def clogXactsPerByte : UInt32 := 4

/-- `CLOG_XACTS_PER_PAGE`. -/
def clogXactsPerPage : UInt32 := blcksz.toUInt32 * clogXactsPerByte

/-- `CLOG_BITS_PER_XACT`. -/
def clogBitsPerXact : UInt8 := 2

/-- `CLOG_XACT_BITMASK`. -/
def clogXactBitmask : UInt8 := (1 <<< clogBitsPerXact) - 1

/-- `TRANSACTION_STATUS_COMMITTED`. -/
def transactionStatusCommitted : UInt8 := 0x01

/-- `TRANSACTION_STATUS_ABORTED`. -/
def transactionStatusAborted : UInt8 := 0x02

theorem clogXactsPerPage_eq : clogXactsPerPage = 32768 := by decide

theorem toNat_clogXactBitmask : clogXactBitmask.toNat = 2 ^ 2 - 1 := by decide

/-! ## The status bits of a transaction -/

/-- `byteno`: the byte of the page that holds the transaction's status. -/
def clogByteno (xid : UInt32) : ℕ := ((xid % clogXactsPerPage) / clogXactsPerByte).toNat

/-- `bshift`: the first bit of the transaction's status in its byte. -/
def clogBshift (xid : UInt32) : UInt8 :=
  ((xid % clogXactsPerByte) * clogBitsPerXact.toUInt32).toUInt8

/-- `transaction_id_set_status`: the page with the transaction's status bits set. -/
def transactionIdSetStatus (xid : UInt32) (status : UInt8) (page : List UInt8) :
    Except Panic (List UInt8) :=
  match Slice.get page (clogByteno xid) with
  | .ok b => .ok (page.set (clogByteno xid) (setField b (clogBshift xid) clogXactBitmask status))
  | .error msg => .error ⟨msg⟩

/-- `transaction_id_get_status`. -/
def transactionIdGetStatus (xid : UInt32) (page : List UInt8) : Except Panic UInt8 :=
  match Slice.get page (clogByteno xid) with
  | .ok b => .ok (getField b (clogBshift xid) clogXactBitmask)
  | .error msg => .error ⟨msg⟩

/-- The status of a transaction as a page of at least `BLCKSZ` bytes holds it. -/
def statusAt (page : List UInt8) (xid : UInt32) : UInt8 :=
  getField (page.getD (clogByteno xid) 0) (clogBshift xid) clogXactBitmask

/-- The page with a transaction's status written, as `transaction_id_set_status` leaves a page
of at least `BLCKSZ` bytes. -/
def setStatusAt (page : List UInt8) (xid : UInt32) (status : UInt8) : List UInt8 :=
  page.set (clogByteno xid)
    (setField (page.getD (clogByteno xid) 0) (clogBshift xid) clogXactBitmask status)

theorem clogByteno_eq (xid : UInt32) : clogByteno xid = xid.toNat % 32768 / 4 := by
  simp [clogByteno, clogXactsPerPage_eq, clogXactsPerByte, UInt32.toNat_div, UInt32.toNat_mod]

theorem clogByteno_lt (xid : UInt32) : clogByteno xid < 8192 := by
  rw [clogByteno_eq]
  omega

theorem toNat_clogBshift (xid : UInt32) : (clogBshift xid).toNat = xid.toNat % 4 * 2 := by
  have h4 : xid.toNat % 4 * 2 < 8 := by omega
  simp [clogBshift, clogXactsPerByte, clogBitsPerXact, UInt32.toNat_mod, UInt32.toNat_toUInt8]
  omega

/-- Two transactions share their status bits exactly when they sit at the same place of a
page. -/
theorem clogByteno_eq_and_clogBshift_eq_iff (x y : UInt32) :
    clogByteno x = clogByteno y ∧ clogBshift x = clogBshift y ↔
      x % clogXactsPerPage = y % clogXactsPerPage := by
  rw [← UInt8.toNat_inj, toNat_clogBshift, toNat_clogBshift, clogByteno_eq, clogByteno_eq,
    ← UInt32.toNat_inj, UInt32.toNat_mod, UInt32.toNat_mod, clogXactsPerPage_eq]
  change _ ↔ x.toNat % 32768 = y.toNat % 32768
  omega

theorem transactionIdSetStatus_of_le {page : List UInt8} (h : 8192 ≤ page.length) (xid : UInt32)
    (status : UInt8) : transactionIdSetStatus xid status page = .ok (setStatusAt page xid status) := by
  have hlt : clogByteno xid < page.length := lt_of_lt_of_le (clogByteno_lt xid) h
  rw [transactionIdSetStatus, Slice.get_of_lt hlt, setStatusAt, List.getD_eq_getElem _ _ hlt]

@[simp] theorem length_setStatusAt (page : List UInt8) (xid : UInt32) (status : UInt8) :
    (setStatusAt page xid status).length = page.length := by
  simp [setStatusAt]

/-- The shift of a status is one of `0`, `2`, `4`, `6`. -/
theorem toNat_clogBshift_add_le (xid : UInt32) : (clogBshift xid).toNat + 2 ≤ 8 := by
  rw [toNat_clogBshift]
  omega

/-- After a write on a page of at least `BLCKSZ` bytes, the transactions at the same place of a
page read the status written, and all others read what they read before. -/
theorem statusAt_setStatusAt {page : List UInt8} (h : 8192 ≤ page.length) (x : UInt32)
    {status : UInt8} (hs : status.toNat < 4) (y : UInt32) :
    statusAt (setStatusAt page x status) y =
      if y % clogXactsPerPage = x % clogXactsPerPage then status else statusAt page y := by
  have hslot := clogByteno_eq_and_clogBshift_eq_iff y x
  by_cases hb : clogByteno y = clogByteno x
  · have hlt : clogByteno x < page.length := lt_of_lt_of_le (clogByteno_lt x) h
    have hget : (setStatusAt page x status).getD (clogByteno y) 0 =
        setField (page.getD (clogByteno x) 0) (clogBshift x) clogXactBitmask status := by
      rw [setStatusAt, hb, List.getD_eq_getElem _ _ (by simpa using hlt), List.getElem_set_self]
    rw [statusAt, hget, statusAt, hb]
    by_cases hsh : clogBshift y = clogBshift x
    · rw [if_pos (hslot.mp ⟨hb, hsh⟩), hsh]
      exact getField_setField_self toNat_clogXactBitmask (by decide) hs (toNat_clogBshift_add_le x)
    · -- another transaction of the same byte: the two 2-bit fields do not overlap
      have hd : (clogBshift x).toNat + 2 ≤ (clogBshift y).toNat ∨
          (clogBshift y).toNat + 2 ≤ (clogBshift x).toNat := by
        rw [← UInt8.toNat_inj, toNat_clogBshift, toNat_clogBshift] at hsh
        rw [toNat_clogBshift, toNat_clogBshift]
        omega
      rw [if_neg (fun h => hsh (hslot.mpr h).2)]
      exact getField_setField_of_disjoint toNat_clogXactBitmask (by decide) hs
        (toNat_clogBshift_add_le x) (toNat_clogBshift_add_le y) hd
  · have hget : (setStatusAt page x status).getD (clogByteno y) 0 = page.getD (clogByteno y) 0 := by
      simp [setStatusAt, List.getD_eq_getElem?_getD, Ne.symm hb]
    rw [if_neg (fun h => hb (hslot.mpr h).1), statusAt, hget, statusAt]

/-! ## Pages around the circle of transaction ids -/

/-- `transaction_id_is_normal`.  PostgreSQL's `TransactionIdIsNormal` is
`xid >= FirstNormalTransactionId`. -/
def transactionIdIsNormal (id : UInt32) : Bool := id > firstNormalTransactionId

/-- `transaction_id_precedes`: an unsigned comparison if either id is not normal, the modular
one otherwise. -/
def transactionIdPrecedes (id1 id2 : UInt32) : Bool :=
  if !transactionIdIsNormal id1 || !transactionIdIsNormal id2 then id1 < id2
  else (id1 - id2).toInt32 < 0

/-- `clogpage_precedes`: the first transaction of `page1` precedes the first and the last one of
`page2`. -/
def clogpagePrecedes (page1 page2 : UInt32) : Bool :=
  let xid1 := page1 * clogXactsPerPage + (firstNormalTransactionId + 1)
  let xid2 := page2 * clogXactsPerPage + (firstNormalTransactionId + 1)
  transactionIdPrecedes xid1 xid2 && transactionIdPrecedes xid1 (xid2 + clogXactsPerPage - 1)

/-- The message of a failed `assert_eq!` that has none of its own. -/
def assertEqFailed (left right : String) : Panic :=
  ⟨"assertion `left == right` failed\n  left: " ++ left ++ "\n right: " ++ right⟩

/-- `slru_may_delete_clogsegment`: every page of the segment precedes the cutoff page. -/
def slruMayDeleteClogsegment (segpage cutoffPage : UInt32) : Except Panic Bool := do
  let segLastPage := segpage + slruPagesPerSegment - 1
  if segpage % slruPagesPerSegment ≠ 0 then
    throw (assertEqFailed (toString (segpage % slruPagesPerSegment)) "0")
  pure (clogpagePrecedes segpage cutoffPage && clogpagePrecedes segLastPage cutoffPage)

/-- `TransactionIdToPage`. -/
def transactionIdToPage (xid : UInt32) : UInt32 := xid / clogXactsPerPage

/-- Every page of a transaction id is below `2 ^ 32 / CLOG_XACTS_PER_PAGE`. -/
theorem toNat_transactionIdToPage_lt (xid : UInt32) :
    (transactionIdToPage xid).toNat < 131072 := by
  rw [transactionIdToPage, UInt32.toNat_div, clogXactsPerPage_eq]
  have := xid.toNat_lt
  change xid.toNat / 32768 < 131072
  omega

namespace Pg

/-! PostgreSQL's own comparisons (`transam.h`, `transam.c`, `clog.c`). -/

/-- `TransactionIdIsNormal`. -/
def transactionIdIsNormal (xid : UInt32) : Bool := xid ≥ firstNormalTransactionId

/-- `TransactionIdPrecedes`. -/
def transactionIdPrecedes (id1 id2 : UInt32) : Bool :=
  if !transactionIdIsNormal id1 || !transactionIdIsNormal id2 then id1 < id2
  else (id1 - id2).toInt32 < 0

/-- `CLOGPagePrecedes`. -/
def clogPagePrecedes (page1 page2 : UInt32) : Bool :=
  let xid1 := page1 * clogXactsPerPage + (firstNormalTransactionId + 1)
  let xid2 := page2 * clogXactsPerPage + (firstNormalTransactionId + 1)
  transactionIdPrecedes xid1 xid2 && transactionIdPrecedes xid1 (xid2 + clogXactsPerPage - 1)

end Pg

section Precedes

variable {p c : UInt32}

/-- Between normal ids both comparisons are the modular one. -/
theorem transactionIdPrecedes_of_normal {id1 id2 : UInt32} (h1 : 3 < id1.toNat)
    (h2 : 3 < id2.toNat) :
    transactionIdPrecedes id1 id2 = decide (2 ^ 31 ≤ (2 ^ 32 - id2.toNat + id1.toNat) % 2 ^ 32) := by
  have hn1 : transactionIdIsNormal id1 = true := by
    simpa [transactionIdIsNormal, firstNormalTransactionId, UInt32.lt_iff_toNat_lt] using h1
  have hn2 : transactionIdIsNormal id2 = true := by
    simpa [transactionIdIsNormal, firstNormalTransactionId, UInt32.lt_iff_toNat_lt] using h2
  rw [transactionIdPrecedes, hn1, hn2]
  simp only [Bool.not_true, Bool.or_self, Bool.false_eq_true, ↓reduceIte]
  rw [decide_eq_decide, toInt32_neg_iff, UInt32.toNat_sub]

theorem Pg.transactionIdPrecedes_of_normal {id1 id2 : UInt32} (h1 : 3 ≤ id1.toNat)
    (h2 : 3 ≤ id2.toNat) :
    Pg.transactionIdPrecedes id1 id2 =
      decide (2 ^ 31 ≤ (2 ^ 32 - id2.toNat + id1.toNat) % 2 ^ 32) := by
  have hn1 : Pg.transactionIdIsNormal id1 = true := by
    simpa [Pg.transactionIdIsNormal, firstNormalTransactionId, UInt32.le_iff_toNat_le] using h1
  have hn2 : Pg.transactionIdIsNormal id2 = true := by
    simpa [Pg.transactionIdIsNormal, firstNormalTransactionId, UInt32.le_iff_toNat_le] using h2
  rw [Pg.transactionIdPrecedes, hn1, hn2]
  simp only [Bool.not_true, Bool.or_self, Bool.false_eq_true, ↓reduceIte]
  rw [decide_eq_decide, toInt32_neg_iff, UInt32.toNat_sub]

/-- The first transaction of a page, `page * 32768 + 4`, does not wrap for a page below
`2 ^ 17`. -/
theorem toNat_firstXid (hp : p.toNat < 131072) :
    (p * clogXactsPerPage + (firstNormalTransactionId + 1)).toNat = p.toNat * 32768 + 4 := by
  rw [clogXactsPerPage_eq, UInt32.toNat_add, UInt32.toNat_mul]
  change (p.toNat * 32768 % 2 ^ 32 + 4) % 2 ^ 32 = _
  omega

/-- The last transaction of a page below the last one, `page * 32768 + 4 + 32767`. -/
theorem toNat_lastXid (hc : c.toNat < 131071) :
    (c * clogXactsPerPage + (firstNormalTransactionId + 1) + clogXactsPerPage - 1).toNat =
      c.toNat * 32768 + 32771 := by
  rw [clogXactsPerPage_eq, UInt32.toNat_sub_of_le _ _ ?_, UInt32.toNat_add, UInt32.toNat_add,
    UInt32.toNat_mul]
  · change ((c.toNat * 32768 % 2 ^ 32 + 4) % 2 ^ 32 + 32768) % 2 ^ 32 - 1 = _
    omega
  · rw [UInt32.le_iff_toNat_le, UInt32.toNat_add, UInt32.toNat_add, UInt32.toNat_mul]
    change 1 ≤ ((c.toNat * 32768 % 2 ^ 32 + 4) % 2 ^ 32 + 32768) % 2 ^ 32
    omega

/-- The modular comparison of the first transaction of `p` with the first and the last one of
`c` is a comparison of the distance from `c` to `p` modulo `2 ^ 17`. -/
theorem modular_firstXid_iff (hp : p.toNat < 131072) (hc : c.toNat < 131071) :
    (2 ^ 31 ≤ (2 ^ 32 - (c.toNat * 32768 + 4) + (p.toNat * 32768 + 4)) % 2 ^ 32 ∧
      2 ^ 31 ≤ (2 ^ 32 - (c.toNat * 32768 + 32771) + (p.toNat * 32768 + 4)) % 2 ^ 32) ↔
      65537 ≤ (p.toNat + 131072 - c.toNat) % 131072 := by
  omega

/-- For page numbers below `2 ^ 17` and a cutoff below the last page, `clogpagePrecedes p c`
holds when `p` lies more than half the circle of pages behind `c`. -/
theorem clogpagePrecedes_iff (hp : p.toNat < 131072) (hc : c.toNat < 131071) :
    clogpagePrecedes p c = true ↔ 65537 ≤ (p.toNat + 131072 - c.toNat) % 131072 := by
  have hc' : c.toNat < 131072 := by omega
  rw [clogpagePrecedes, Bool.and_eq_true,
    transactionIdPrecedes_of_normal (by rw [toNat_firstXid hp]; omega)
      (by rw [toNat_firstXid hc']; omega),
    transactionIdPrecedes_of_normal (by rw [toNat_firstXid hp]; omega)
      (by rw [toNat_lastXid hc]; omega),
    toNat_firstXid hp, toNat_firstXid hc', toNat_lastXid hc, decide_eq_true_iff,
    decide_eq_true_iff]
  exact modular_firstXid_iff hp hc

theorem Pg.clogPagePrecedes_iff (hp : p.toNat < 131072) (hc : c.toNat < 131071) :
    Pg.clogPagePrecedes p c = true ↔ 65537 ≤ (p.toNat + 131072 - c.toNat) % 131072 := by
  have hc' : c.toNat < 131072 := by omega
  rw [Pg.clogPagePrecedes, Bool.and_eq_true,
    Pg.transactionIdPrecedes_of_normal (by rw [toNat_firstXid hp]; omega)
      (by rw [toNat_firstXid hc']; omega),
    Pg.transactionIdPrecedes_of_normal (by rw [toNat_firstXid hp]; omega)
      (by rw [toNat_lastXid hc]; omega),
    toNat_firstXid hp, toNat_firstXid hc', toNat_lastXid hc, decide_eq_true_iff,
    decide_eq_true_iff]
  exact modular_firstXid_iff hp hc

/-- On the last page the last transaction id wraps around to `3`, which Neon does not count
as normal, and no first transaction of a page is below it. -/
theorem clogpagePrecedes_last (p : UInt32) : clogpagePrecedes p 131071 = false := by
  have hlast : (131071 : UInt32) * clogXactsPerPage + (firstNormalTransactionId + 1) +
      clogXactsPerPage - 1 = 3 := by decide
  have hfirst : 4 ≤ (p * clogXactsPerPage + (firstNormalTransactionId + 1)).toNat := by
    rw [clogXactsPerPage_eq, UInt32.toNat_add, UInt32.toNat_mul]
    change 4 ≤ (p.toNat * 32768 % 2 ^ 32 + 4) % 2 ^ 32
    omega
  have hnormal : transactionIdIsNormal 3 = false := by decide
  have hsecond : transactionIdPrecedes (p * clogXactsPerPage + (firstNormalTransactionId + 1)) 3 =
      false := by
    rw [transactionIdPrecedes, hnormal, Bool.not_false, Bool.or_true, if_pos rfl,
      decide_eq_false_iff_not, UInt32.lt_iff_toNat_lt]
    change ¬_ < 3
    omega
  unfold clogpagePrecedes
  dsimp only
  rw [hlast, hsecond, Bool.and_false]

/-- On the last page PostgreSQL's comparison holds for the pages of the half circle behind it. -/
theorem Pg.clogPagePrecedes_last_iff (hp : p.toNat < 131072) :
    Pg.clogPagePrecedes p 131071 = true ↔ 65536 ≤ p.toNat ∧ p.toNat < 131071 := by
  have hlast : (131071 : UInt32) * clogXactsPerPage + (firstNormalTransactionId + 1) +
      clogXactsPerPage - 1 = 3 := by decide
  have h131071 : (131071 : UInt32).toNat = 131071 := rfl
  rw [Pg.clogPagePrecedes, Bool.and_eq_true, hlast,
    Pg.transactionIdPrecedes_of_normal (by rw [toNat_firstXid hp]; omega)
      (by rw [toNat_firstXid (by decide)]; omega),
    Pg.transactionIdPrecedes_of_normal (by rw [toNat_firstXid hp]; omega) (by decide),
    toNat_firstXid hp, toNat_firstXid (by decide), h131071, decide_eq_true_iff,
    decide_eq_true_iff]
  change _ ∧ 2 ^ 31 ≤ (2 ^ 32 - 3 + (p.toNat * 32768 + 4)) % 2 ^ 32 ↔ _
  omega

/-- A segment whose first and last pages precede the cutoff has every page preceding it: the
pages that precede a cutoff are an arc of the circle of pages, longer than a segment. -/
theorem clogpagePrecedes_of_segment {segno latest cutoff : UInt32} (hs : segno.toNat < 4096)
    (hl : latest / 32 = segno) (hc : cutoff.toNat < 131072)
    (hfirst : clogpagePrecedes (segno * 32) cutoff = true)
    (hlast : clogpagePrecedes (segno * 32 + 31) cutoff = true) :
    clogpagePrecedes latest cutoff = true := by
  have hsl : latest.toNat / 32 = segno.toNat := by rw [← hl, UInt32.toNat_div]; rfl
  have hfirstNat : (segno * 32).toNat = segno.toNat * 32 := by
    rw [UInt32.toNat_mul]; change segno.toNat * 32 % 2 ^ 32 = _; omega
  have hlastNat : (segno * 32 + 31).toNat = segno.toNat * 32 + 31 := by
    rw [UInt32.toNat_add, hfirstNat]; change (segno.toNat * 32 + 31) % 2 ^ 32 = _; omega
  by_cases hcl : cutoff.toNat < 131071
  · rw [clogpagePrecedes_iff (by omega) hcl, hfirstNat] at hfirst
    rw [clogpagePrecedes_iff (by omega) hcl, hlastNat] at hlast
    rw [clogpagePrecedes_iff (by omega) hcl]
    omega
  · -- the last page: nothing precedes it
    have hcut : cutoff = 131071 := by
      apply UInt32.toNat_inj.1
      change cutoff.toNat = 131071
      omega
    rw [hcut, clogpagePrecedes_last] at hfirst
    exact absurd hfirst Bool.false_ne_true

end Precedes

/-- The callers pass the first page of a segment, a multiple of `SLRU_PAGES_PER_SEGMENT`, so the
assertion holds. -/
theorem slruMayDeleteClogsegment_mul (segno cutoffPage : UInt32) :
    slruMayDeleteClogsegment (segno * slruPagesPerSegment) cutoffPage =
      .ok (clogpagePrecedes (segno * 32) cutoffPage &&
        clogpagePrecedes (segno * 32 + 31) cutoffPage) := by
  have hmod : segno * slruPagesPerSegment % slruPagesPerSegment = 0 := by
    apply UInt32.toNat_inj.1
    rw [UInt32.toNat_mod, UInt32.toNat_mul]
    change segno.toNat * 32 % 2 ^ 32 % 32 = 0
    omega
  have hlast : segno * slruPagesPerSegment + slruPagesPerSegment - 1 = segno * 32 + 31 := by
    rw [slruPagesPerSegment, add_sub_assoc]
    rfl
  simp only [slruMayDeleteClogsegment, hmod, hlast, ne_eq, not_true_eq_false, ↓reduceIte]
  rfl

/-- Neon's comparison of pages is PostgreSQL's `CLOGPagePrecedes`, except when the cutoff is
the last page: there Neon's never holds, where PostgreSQL's holds for the pages of the half
circle behind it. -/
theorem clogpagePrecedes_eq_pg {p c : UInt32} (hp : p.toNat < 131072) :
    (c.toNat < 131071 → clogpagePrecedes p c = Pg.clogPagePrecedes p c) ∧
      clogpagePrecedes p 131071 = false ∧
      (Pg.clogPagePrecedes p 131071 = true ↔ 65536 ≤ p.toNat ∧ p.toNat < 131071) := by
  refine ⟨fun hc => ?_, clogpagePrecedes_last p, Pg.clogPagePrecedes_last_iff hp⟩
  rw [Bool.eq_iff_iff, clogpagePrecedes_iff hp hc, Pg.clogPagePrecedes_iff hp hc]

theorem clogpagePrecedes_eq_pg_half_circle :
    ((100 : UInt32).toNat < 131071 →
        clogpagePrecedes 65536 100 = Pg.clogPagePrecedes 65536 100) ∧
      clogpagePrecedes 65536 131071 = false ∧
      (Pg.clogPagePrecedes 65536 131071 = true ↔
        65536 ≤ (65536 : UInt32).toNat ∧ (65536 : UInt32).toNat < 131071) :=
  clogpagePrecedes_eq_pg (c := 100) (by decide)

/-! ## The commit log as a whole -/

/-- The commit log `pg_xact` as a whole: its segment files, the number of pages of each, and
the status of every transaction.  A segment holds at most `SLRU_PAGES_PER_SEGMENT` pages. -/
structure Clog where
  segments : Finset UInt32
  nblocks : UInt32 → ℕ
  status : UInt32 → UInt8
  nblocks_le : ∀ segno, nblocks segno ≤ 32

namespace Clog

/-- The number of pages of a segment, none if there is no such file. -/
def size (c : Clog) (segno : UInt32) : ℕ := if segno ∈ c.segments then c.nblocks segno else 0

theorem size_le (c : Clog) (segno : UInt32) : c.size segno ≤ 32 := by
  unfold size
  split
  · exact c.nblocks_le segno
  · exact Nat.zero_le _

/-- `ZeroCLOGPage` as the file system keeps it: the page is written as zeros at its place in
its segment, which is created if missing; the file grows to hold the page, and the pages it
skips read as zeros. -/
def zeroPage (c : Clog) (pageno : UInt32) : Clog where
  segments := insert (pageno / slruPagesPerSegment) c.segments
  nblocks := Function.update c.nblocks (pageno / slruPagesPerSegment)
    (max (c.size (pageno / slruPagesPerSegment)) ((pageno % slruPagesPerSegment).toNat + 1))
  status xid :=
    if transactionIdToPage xid = pageno ∨
        (transactionIdToPage xid / slruPagesPerSegment = pageno / slruPagesPerSegment ∧
          c.size (pageno / slruPagesPerSegment) ≤
            (transactionIdToPage xid % slruPagesPerSegment).toNat ∧
          transactionIdToPage xid % slruPagesPerSegment < pageno % slruPagesPerSegment) then 0
    else c.status xid
  nblocks_le segno := by
    rw [Function.update_apply]
    split
    · have hr : (pageno % slruPagesPerSegment).toNat < 32 := by
        rw [UInt32.toNat_mod]
        exact Nat.mod_lt _ (by decide)
      exact max_le (c.size_le _) hr
    · exact c.nblocks_le segno

/-- `TransactionIdSetTreeStatus`, as it leaves the log: every transaction of the tree has the
status. -/
def setTreeStatus (c : Clog) (xids : List UInt32) (status : UInt8) : Clog :=
  { c with status := fun xid => if xid ∈ xids then status else c.status xid }

@[simp] theorem setTreeStatus_nil (c : Clog) (status : UInt8) : c.setTreeStatus [] status = c := by
  cases c
  simp [setTreeStatus]

/-- A tree's status set part by part is set as a whole. -/
theorem setTreeStatus_append (c : Clog) (xs ys : List UInt32) (status : UInt8) :
    c.setTreeStatus (xs ++ ys) status = (c.setTreeStatus xs status).setTreeStatus ys status := by
  simp only [setTreeStatus, Clog.mk.injEq, true_and]
  funext xid
  by_cases hy : xid ∈ ys
  · simp [hy]
  · simp [hy]

/-- `SimpleLruTruncate` of `pg_xact` under a page order: nothing if the latest page precedes the
cutoff, an apparent wraparound; otherwise each segment whose first and last pages precede the
cutoff is removed (`SlruMayDeleteSegment`). -/
def truncate (c : Clog) (precedes : UInt32 → UInt32 → Bool) (latestPage cutoffPage : UInt32) :
    Clog :=
  if precedes latestPage cutoffPage then c
  else { c with segments := c.segments.filter fun segno =>
    !(precedes (segno * 32) cutoffPage && precedes (segno * 32 + 31) cutoffPage) }

/-- Truncation keeps the segment of the latest page under an order in which a segment whose
first and last pages precede the cutoff has the latest page preceding it too. -/
theorem mem_truncate_of_convex {c : Clog} {precedes : UInt32 → UInt32 → Bool}
    {latestPage cutoffPage : UInt32}
    (hconv : precedes (latestPage / 32 * 32) cutoffPage = true →
      precedes (latestPage / 32 * 32 + 31) cutoffPage = true →
      precedes latestPage cutoffPage = true)
    (hmem : latestPage / 32 ∈ c.segments) :
    latestPage / 32 ∈ (c.truncate precedes latestPage cutoffPage).segments := by
  unfold truncate
  split
  · exact hmem
  · rename_i hlatest
    simp only [Finset.mem_filter, hmem, true_and, Bool.not_eq_true', Bool.and_eq_false_iff]
    by_contra hboth
    simp only [not_or, Bool.not_eq_false] at hboth
    exact hlatest (hconv hboth.1 hboth.2)

/-- Neon's order is such an order on the pages of transaction ids. -/
theorem clogpagePrecedes_convex {latestPage cutoffPage : UInt32}
    (hl : latestPage.toNat < 131072) (hc : cutoffPage.toNat < 131072)
    (hfirst : clogpagePrecedes (latestPage / 32 * 32) cutoffPage = true)
    (hlast : clogpagePrecedes (latestPage / 32 * 32 + 31) cutoffPage = true) :
    clogpagePrecedes latestPage cutoffPage = true := by
  have hs : (latestPage / 32).toNat < 4096 := by
    rw [UInt32.toNat_div]
    change latestPage.toNat / 32 < 4096
    omega
  exact clogpagePrecedes_of_segment hs rfl hc hfirst hlast

end Clog

end PostgresFfi

end NeonStorage
