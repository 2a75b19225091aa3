import NeonStorage.Pageserver.Key

/-!
# Relation metadata and the relation size cache

The pageserver keeps, for each database, a relation directory (the set of `(relnode, forknum)`
that exist) and, for each relation fork, its size in blocks, as versioned values of the
timeline (`pageserver/src/pgdatadir_mapping.rs`).  WAL ingestion changes them through a
`DatadirModification`, which collects the new values at its LSN and writes them to the timeline
on `commit`.  Beside them the timeline keeps `rel_size_cache`, relation to `(lsn, nblocks)`, which
answers `get_rel_size` and `get_rel_exists` at any LSN at or above the cached one.  Ingestion sets
it on creation, extension and truncation and removes it on `put_rel_drop`; a reader that asks
with `latest = true` fills it at the LSN of its request.

A cached entry answers every LSN at or above its own, and a reader with `latest = true` that
misses the cache fills it at the LSN it asked at, however old.  A reader that asks below a drop
so puts the dropped relation back into the cache, and `get_rel_exists` then says it exists after
its drop, where the relation directory no longer lists it (`getRelExists_after_drop`).

The timeline's read path over its layers is modelled by the committed versions of each key: a
read at an LSN sees the last value written at or below it.  Deletions of key ranges are recorded
and have no effect on reads, as `InMemoryLayer::put_tombstones` leaks the storage.  The values are
the deserialised images of the keys.
-/

namespace NeonStorage

namespace PgDatadirMapping

/-- `FSM_FORKNUM`. -/
def fsmForknum : UInt8 := 1

/-- `VISIBILITYMAP_FORKNUM`. -/
def visibilitymapForknum : UInt8 := 2

/-- `DBDIR_KEY`. -/
def dbdirKey : Key := ⟨0x00, 0, 0, 0, 0, 0⟩

/-- `rel_dir_to_key`. -/
def relDirToKey (spcnode dbnode : UInt32) : Key := ⟨0x00, spcnode, dbnode, 0, 0, 1⟩

/-- `rel_size_to_key`. -/
def relSizeToKey (rel : RelTag) : Key := ⟨0x00, rel.spcnode, rel.dbnode, rel.relnode, rel.forknum, 0xffffffff⟩

/-- `dbdir_key_range`. -/
def dbdirKeyRange (spcnode dbnode : UInt32) : Key × Key :=
  (⟨0x00, spcnode, dbnode, 0, 0, 0⟩, ⟨0x00, spcnode, dbnode, 0xffffffff, 0xff, 0xffffffff⟩)

/-- `rel_key_range`. -/
def relKeyRange (rel : RelTag) : Key × Key :=
  (⟨0x00, rel.spcnode, rel.dbnode, rel.relnode, rel.forknum, 0⟩,
    ⟨0x00, rel.spcnode, rel.dbnode, rel.relnode, rel.forknum + 1, 0⟩)

/-- The images stored under the metadata keys, deserialised: `DbDirectory`, `RelDirectory` and
the `u32` size of a relation fork. -/
inductive Value
  | dbDirectory (dbdirs : List ((UInt32 × UInt32) × Bool))
  | relDirectory (rels : List (UInt32 × UInt8))
  | relSize (nblocks : UInt32)
deriving DecidableEq, Repr

/-- The part of a timeline these functions use: its committed versions, in the order they were
written, its last record LSN, and `rel_size_cache`. -/
structure Timeline where
  store : List (Key × UInt64 × Value)
  lastRecordLsn : UInt64
  relSizeCache : RelTag → Option (UInt64 × UInt32)

namespace Timeline

/-- `Timeline::get`: the last value written for `key` at or below `lsn`. -/
def get (tl : Timeline) (key : Key) (lsn : UInt64) : Except String Value :=
  match tl.store.foldl (fun acc e => if e.1 = key ∧ e.2.1 ≤ lsn then some e.2.2 else acc) none with
  | some v => .ok v
  | none => .error ("could not find data for key " ++ String.ofList key.display)

/-- `get_cached_rel_size`: the cached size, if it was cached at or below `lsn`. -/
def getCachedRelSize (tl : Timeline) (tag : RelTag) (lsn : UInt64) : Option UInt32 :=
  match tl.relSizeCache tag with
  | some (cachedLsn, nblocks) => if lsn ≥ cachedLsn then some nblocks else none
  | none => none

/-- `update_cached_rel_size`: cache the size unless a later one is cached. -/
def updateCachedRelSize (tl : Timeline) (tag : RelTag) (lsn : UInt64) (nblocks : UInt32) :
    Timeline :=
  match tl.relSizeCache tag with
  | some (cachedLsn, _) =>
    if lsn ≥ cachedLsn then { tl with relSizeCache := Function.update tl.relSizeCache tag (some (lsn, nblocks)) }
    else tl
  | none => { tl with relSizeCache := Function.update tl.relSizeCache tag (some (lsn, nblocks)) }

/-- `set_cached_rel_size`. -/
def setCachedRelSize (tl : Timeline) (tag : RelTag) (lsn : UInt64) (nblocks : UInt32) : Timeline :=
  { tl with relSizeCache := Function.update tl.relSizeCache tag (some (lsn, nblocks)) }

/-- `remove_cached_rel_size`. -/
def removeCachedRelSize (tl : Timeline) (tag : RelTag) : Timeline :=
  { tl with relSizeCache := Function.update tl.relSizeCache tag none }

end Timeline

/-- A `DatadirModification` at one LSN: its pending updates in the order they were put, its
pending deletions and the change of the logical size it has counted. -/
structure DatadirModification where
  lsn : UInt64
  pendingUpdates : List (Key × UInt64 × Value)
  pendingDeletions : List ((Key × Key) × UInt64)
  pendingNblocks : Int

namespace DatadirModification

/-- `Timeline::begin_modification`. -/
def begin (lsn : UInt64) : DatadirModification := ⟨lsn, [], [], 0⟩

/-- `DatadirModification::get`: the last pending value of the key, or the timeline's value at
the later of its last record LSN and the modification's LSN. -/
def get (m : DatadirModification) (tl : Timeline) (key : Key) : Except String Value :=
  match (m.pendingUpdates.filter (·.1 = key)).getLast? with
  | some (_, _, v) => .ok v
  | none => tl.get key (max tl.lastRecordLsn m.lsn)

/-- `DatadirModification::put`: a value at the modification's LSN replaces one the key already
has at that LSN. -/
def put (m : DatadirModification) (key : Key) (val : Value) : DatadirModification :=
  { m with pendingUpdates :=
      m.pendingUpdates.filter (fun e => ¬(e.1 = key ∧ e.2.1 = m.lsn)) ++ [(key, m.lsn, val)] }

/-- `DatadirModification::delete`. -/
def delete (m : DatadirModification) (keyRange : Key × Key) : DatadirModification :=
  { m with pendingDeletions := m.pendingDeletions ++ [(keyRange, m.lsn)] }

/-- `DatadirModification::commit`: the pending values become versions of the timeline, and its
last record LSN moves to the modification's; deletions leave the stored versions as they are. -/
def commit (m : DatadirModification) (tl : Timeline) : Timeline × DatadirModification :=
  ({ tl with store := tl.store ++ m.pendingUpdates, lastRecordLsn := m.lsn },
    { m with pendingUpdates := [], pendingDeletions := [], pendingNblocks := 0 })

end DatadirModification

/-- `Version`: a read at an LSN of the timeline, or through a pending modification. -/
inductive Version
  | lsn (lsn : UInt64)
  | modified (m : DatadirModification)

namespace Version

def get (version : Version) (tl : Timeline) (key : Key) : Except String Value :=
  match version with
  | .lsn l => tl.get key l
  | .modified m => m.get tl key

def getLsn : Version → UInt64
  | .lsn l => l
  | .modified m => m.lsn

end Version

/-! ## Reads -/

/-- `Timeline::get_rel_exists`: the cache first, then the relation directory. -/
def getRelExists (tl : Timeline) (tag : RelTag) (version : Version) (_latest : Bool) :
    Except String Bool :=
  if tag.relnode = 0 then .error "invalid relnode"
  else
    match tl.getCachedRelSize tag version.getLsn with
    | some _ => .ok true
    | none =>
      match version.get tl (relDirToKey tag.spcnode tag.dbnode) with
      | .ok (.relDirectory rels) => .ok ((tag.relnode, tag.forknum) ∈ rels)
      | .ok _ => .error "deserialization failure"
      | .error e => .error e

/-- The size read from a buffer with `get_u32_le`; a value that is not a size stands for a
buffer too short for it, on which the source panics. -/
def sizeOf : Value → Except String UInt32
  | .relSize nblocks => .ok nblocks
  | _ => .error "get_u32_le"

/-- The part of `Timeline::get_rel_size` after a cache miss: `none` for a missing FSM or
visibility map fork, whose size is `0` and is not cached, otherwise the stored size. -/
def readRelSize (tl : Timeline) (tag : RelTag) (version : Version) (latest : Bool) :
    Except String (Option UInt32) := do
  -- `&&` asks for the directory only for these two forks
  let missingFork ← if tag.forknum = fsmForknum ∨ tag.forknum = visibilitymapForknum then
      (fun exists_ => !exists_) <$> getRelExists tl tag version latest
    else pure false
  if missingFork then pure none
  else some <$> (version.get tl (relSizeToKey tag) >>= sizeOf)

/-- `Timeline::get_rel_size`: the cache first, then `readRelSize`; a reader with `latest`
caches a stored size at the LSN of its request. -/
def getRelSize (tl : Timeline) (tag : RelTag) (version : Version) (latest : Bool) :
    Except String (UInt32 × Timeline) :=
  if tag.relnode = 0 then .error "invalid relnode"
  else
    match tl.getCachedRelSize tag version.getLsn with
    | some nblocks => .ok (nblocks, tl)
    | none => do
      match ← readRelSize tl tag version latest with
      | none => pure (0, tl)
      | some nblocks =>
        pure (nblocks, if latest then tl.updateCachedRelSize tag version.getLsn nblocks else tl)

/-- `Timeline::list_rels`. -/
def listRels (tl : Timeline) (spcnode dbnode : UInt32) (version : Version) :
    Except String (List RelTag) :=
  match version.get tl (relDirToKey spcnode dbnode) with
  | .ok (.relDirectory rels) => .ok (rels.map fun rel => ⟨rel.2, spcnode, dbnode, rel.1⟩)
  | .ok _ => .error "deserialization failure"
  | .error e => .error e

/-- `Timeline::get_db_size`: the sizes of the database's relations, each read with
`get_rel_size`. -/
def getDbSize (tl : Timeline) (spcnode dbnode : UInt32) (version : Version) (latest : Bool) :
    Except String (ℕ × Timeline) := do
  let rels ← listRels tl spcnode dbnode version
  rels.foldlM (fun acc rel => do
      let (nblocks, tl) ← getRelSize acc.2 rel version latest
      pure (acc.1 + nblocks.toNat, tl))
    (0, tl)

/-! ## Ingestion -/

/-- `DatadirModification::drop_dbdir`.  The database size is read with `latest = true`, which
caches the size of each of its relations at the modification's LSN. -/
def dropDbdir (m : DatadirModification) (tl : Timeline) (spcnode dbnode : UInt32) :
    Except String (DatadirModification × Timeline) := do
  let (totalBlocks, tl) ← getDbSize tl spcnode dbnode (.modified m) true
  let dbdirs ← match m.get tl dbdirKey with
    | .ok (.dbDirectory dbdirs) => pure dbdirs
    | .ok _ => throw "deserialization failure"
    | .error e => throw e
  let m := if (dbdirs.lookup (spcnode, dbnode)).isSome then
      m.put dbdirKey (.dbDirectory (dbdirs.filter fun e => e.1 != (spcnode, dbnode)))
    else m
  let m := { m with pendingNblocks := m.pendingNblocks - totalBlocks }
  pure (m.delete (dbdirKeyRange spcnode dbnode), tl)

/-- `DatadirModification::put_rel_creation`. -/
def putRelCreation (m : DatadirModification) (tl : Timeline) (rel : RelTag) (nblocks : UInt32) :
    Except String (DatadirModification × Timeline) := do
  if rel.relnode = 0 then throw "invalid relnode"
  let dbdirs ← match m.get tl dbdirKey with
    | .ok (.dbDirectory dbdirs) => pure dbdirs
    | .ok _ => throw "deserialize db"
    | .error _ => throw "read db"
  let relDirKey := relDirToKey rel.spcnode rel.dbnode
  let (m, rels) ← if (dbdirs.lookup (rel.spcnode, rel.dbnode)).isNone then
      -- the first relation of the database: record it and start an empty directory
      pure (m.put dbdirKey (.dbDirectory (dbdirs ++ [((rel.spcnode, rel.dbnode), false)])), [])
    else
      match m.get tl relDirKey with
      | .ok (.relDirectory rels) => pure (m, rels)
      | .ok _ => throw "deserialize db"
      | .error _ => throw "read db"
  if (rel.relnode, rel.forknum) ∈ rels then throw "Relation Already Exists"
  let m := m.put relDirKey (.relDirectory (rels ++ [(rel.relnode, rel.forknum)]))
  let m := m.put (relSizeToKey rel) (.relSize nblocks)
  let m := { m with pendingNblocks := m.pendingNblocks + nblocks.toNat }
  pure (m, tl.setCachedRelSize rel m.lsn nblocks)

/-- The size stored for a relation fork, read through the modification
(`self.get(size_key, ctx).await?.get_u32_le()`). -/
def getSize (m : DatadirModification) (tl : Timeline) (rel : RelTag) : Except String UInt32 :=
  m.get tl (relSizeToKey rel) >>= sizeOf

/-- `DatadirModification::put_rel_truncation`; the source sets the cache twice. -/
def putRelTruncation (m : DatadirModification) (tl : Timeline) (rel : RelTag) (nblocks : UInt32) :
    Except String (DatadirModification × Timeline) := do
  if rel.relnode = 0 then throw "invalid relnode"
  if ← getRelExists tl rel (.modified m) true then
    let oldSize ← getSize m tl rel
    let m := m.put (relSizeToKey rel) (.relSize nblocks)
    let tl := tl.setCachedRelSize rel m.lsn nblocks
    let tl := tl.setCachedRelSize rel m.lsn nblocks
    pure ({ m with pendingNblocks := m.pendingNblocks - ((oldSize.toNat : Int) - nblocks.toNat) }, tl)
  else pure (m, tl)

/-- `DatadirModification::put_rel_extend`: only a larger size is stored. -/
def putRelExtend (m : DatadirModification) (tl : Timeline) (rel : RelTag) (nblocks : UInt32) :
    Except String (DatadirModification × Timeline) := do
  if rel.relnode = 0 then throw "invalid relnode"
  let oldSize ← getSize m tl rel
  if nblocks > oldSize then
    let m := m.put (relSizeToKey rel) (.relSize nblocks)
    pure ({ m with pendingNblocks := m.pendingNblocks + ((nblocks.toNat : Int) - oldSize.toNat) },
      tl.setCachedRelSize rel m.lsn nblocks)
  else pure (m, tl)

/-- `DatadirModification::put_rel_drop`. -/
def putRelDrop (m : DatadirModification) (tl : Timeline) (rel : RelTag) :
    Except String (DatadirModification × Timeline) := do
  if rel.relnode = 0 then throw "invalid relnode"
  let dirKey := relDirToKey rel.spcnode rel.dbnode
  let rels ← match m.get tl dirKey with
    | .ok (.relDirectory rels) => pure rels
    | .ok _ => throw "deserialization failure"
    | .error e => throw e
  let m := if (rel.relnode, rel.forknum) ∈ rels then
      m.put dirKey (.relDirectory (rels.erase (rel.relnode, rel.forknum)))
    else m
  let oldSize ← getSize m tl rel
  let m := { m with pendingNblocks := m.pendingNblocks - oldSize.toNat }
  pure (m.delete (relKeyRange rel), tl.removeCachedRelSize rel)

/-! ## A drop, then a reader at an older LSN -/

/-- The relation of the example: fork `0` of relation `16384` of database `1`. -/
def exampleRel : RelTag := ⟨0, 1663, 1, 16384⟩

/-- A timeline whose database directory is empty, at LSN `0x08`. -/
def exampleTimeline : Timeline :=
  ⟨[(dbdirKey, 0x08, .dbDirectory [])], 0x08, fun _ => none⟩

/-- The relation is created at `0x10` with 5 blocks and dropped at `0x20`, each record committed;
then a reader asks for its size at `0x10` with `latest = true`. -/
def dropThenOldRead : Except String Timeline := do
  let (m, tl) ← putRelCreation (.begin 0x10) exampleTimeline exampleRel 5
  let (tl, _) := m.commit tl
  let (m, tl) ← putRelDrop (.begin 0x20) tl exampleRel
  let (tl, _) := m.commit tl
  let (_, tl) ← getRelSize tl exampleRel (.lsn 0x10) true
  pure tl

/-- After the drop at `0x20` and the read at `0x10`, `get_rel_exists` at `0x20` says the relation
exists: the cache answers, with the entry the reader put back at `0x10`.  The relation directory
at `0x20` does not list it, and with an empty cache the same call says so. -/
theorem getRelExists_after_drop :
    (dropThenOldRead.bind fun tl => getRelExists tl exampleRel (.lsn 0x20) false) = .ok true ∧
      (dropThenOldRead.bind fun tl => tl.get (relDirToKey 1663 1) 0x20) = .ok (.relDirectory []) ∧
      (dropThenOldRead.bind fun tl =>
        getRelExists { tl with relSizeCache := fun _ => none } exampleRel (.lsn 0x20) false) =
        .ok false := by
  decide

end PgDatadirMapping

end NeonStorage
