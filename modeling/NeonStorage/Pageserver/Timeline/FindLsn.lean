import Mathlib
/-!
# Finding the LSN of a timestamp

`Timeline::find_lsn_for_timestamp` (`pageserver/src/pgdatadir_mapping.rs`) answers which LSN a
branch should start at to see the commits before a timestamp.  The WAL redo of a commit
appends its timestamp to the CLOG page it changes (`ClogSetCommitted` in `apply_neon.rs`), so
every CLOG page at an LSN carries the time of the last commit on it.  The search runs over the
LSNs divided by 8, from the larger of the GC cutoff and the ancestor LSN up to the last record
LSN.  At each probe it visits the CLOG timestamps until it meets one at or after the one
sought (`is_latest_commit_timestamp_ge_than`), recording whether it saw a smaller one and
whether it saw a larger one.  The answer is the LSN before the first probe that met a larger
timestamp, classified by the two flags.

The CLOG at each probe LSN is modelled by the list of page timestamps in the order
`map_all_timestamps` visits them, for any such order.

When the timestamps at the lowest LSN already reach the one sought and a smaller one was seen
there, the answer lies one step below the lowest LSN, and wraps to `u64::MAX - 7` when that LSN
is below 8 (`findLsnForTimestamp_before_min`).
-/

namespace NeonStorage

namespace FindLsn

/-- `LsnForTimestamp`. -/
inductive LsnForTimestamp where
  | present (lsn : UInt64)
  | future (lsn : UInt64)
  | past (lsn : UInt64)
  | noData (lsn : UInt64)
deriving DecidableEq, Repr

/-- The LSNs of the timeline that the search starts from. -/
structure TimelineLsns where
  latestGcCutoffLsn : UInt64
  ancestorLsn : UInt64
  lastRecordLsn : UInt64
deriving DecidableEq, Repr

/-- `min_lsn`: the search cannot go below the GC cutoff, nor below the branch point. -/
def TimelineLsns.minLsn (tl : TimelineLsns) : UInt64 := max tl.latestGcCutoffLsn tl.ancestorLsn

/-- `map_all_timestamps` with a closure `f` that borrows the state `σ` mutably: `f` runs on the
timestamps in the order their pages are visited until it breaks with a value (`some`); without a
break the result is `T::default()`. -/
def mapAllTimestamps {σ T : Type} [Inhabited T] (f : Int64 → σ → Option T × σ) :
    List Int64 → σ → T × σ
  | [], s => (default, s)
  | t :: ts, s =>
    match f t s with
    | (some b, s') => (b, s')
    | (none, s') => mapAllTimestamps f ts s'

/-- The closure of `is_latest_commit_timestamp_ge_than`, on `(found_smaller, found_larger)`. -/
def geThanStep (searchTimestamp timestamp : Int64) (found : Bool × Bool) :
    Option Bool × (Bool × Bool) :=
  if timestamp ≥ searchTimestamp then (some true, (found.1, true)) else (none, (true, found.2))

/-- `is_latest_commit_timestamp_ge_than` on the timestamps at the probe LSN. -/
def isLatestCommitTimestampGeThan (searchTimestamp : Int64) (timestamps : List Int64)
    (found : Bool × Bool) : Bool × (Bool × Bool) :=
  mapAllTimestamps (geThanStep searchTimestamp) timestamps found

/-- The `while low < high` loop of `find_lsn_for_timestamp`, on LSNs divided by 8: the final
`low` and flags, and the LSNs it probed, in order.  `low` and `high` stay below `u64::MAX / 2`,
so `high + low` and `mid + 1` do not wrap. -/
def searchLoop (clog : UInt64 → List Int64) (searchTimestamp : Int64) (low high : ℕ)
    (found : Bool × Bool) : (ℕ × (Bool × Bool)) × List UInt64 :=
  if h : low < high then
    let mid := (high + low) / 2
    let probe := UInt64.ofNat (mid * 8)
    let cmp := isLatestCommitTimestampGeThan searchTimestamp (clog probe) found
    -- the probe goes in front of those of the rest of the loop
    if cmp.1 then (searchLoop clog searchTimestamp low mid cmp.2).map id (probe :: ·)
    else (searchLoop clog searchTimestamp (mid + 1) high cmp.2).map id (probe :: ·)
  else ((low, found), [])
termination_by high - low

/-- `Timeline::find_lsn_for_timestamp`, with the LSNs it reads the CLOG at.  The read errors of
`PageReconstructError` and the cancellation check are left out. -/
def findLsnForTimestamp (tl : TimelineLsns) (clog : UInt64 → List Int64)
    (searchTimestamp : Int64) : LsnForTimestamp × List UInt64 :=
  let minLsn := tl.minLsn
  let maxLsn := tl.lastRecordLsn
  let low := (minLsn / 8).toNat
  let high := (maxLsn / 8).toNat + 1
  let run := searchLoop clog searchTimestamp low high (false, false)
  -- `Lsn((low - 1) * 8)` in `u64`, which wraps in a release build
  let commitLsn := (UInt64.ofNat run.1.1 - 1) * 8
  let result := match run.1.2 with
    | (false, false) => .noData minLsn
    | (false, true) => .past minLsn
    | (true, false) => .future commitLsn
    | (true, true) => .present commitLsn
  (result, run.2)

/-- The GC cutoff and the last record are at LSN 16, and at every LSN the CLOG holds a commit at
time 50 visited before one at time 150.  The search for time 100 probes LSN 16 only, sees 50
and then 150 there, and answers `Present(8)`, below `min_lsn`.  With every LSN at 0 the same
search computes `(0 - 1) * 8` and answers `Present(u64::MAX - 7)`. -/
theorem findLsnForTimestamp_before_min :
    findLsnForTimestamp ⟨16, 0, 16⟩ (fun _ => [50, 150]) 100 = (.present 8, [16]) ∧
    findLsnForTimestamp ⟨0, 0, 0⟩ (fun _ => [50, 150]) 100 =
      (.present 0xFFFFFFFFFFFFFFF8, [0]) := by
  constructor <;>
    simp +decide [findLsnForTimestamp, TimelineLsns.minLsn, searchLoop,
      isLatestCommitTimestampGeThan, mapAllTimestamps, geThanStep]

end FindLsn

end NeonStorage
