import NeonStorage.Pageserver.Shard

/-!
# Routing page requests to shards in the compute

The compute's storage manager sends each request for a page to one pageserver shard
(`pgxn/neon/libpagestore.c`).  `get_shard_number` hashes the relation number and the stripe
of the block number with PostgreSQL's `murmurhash32` and `hash_combine` (the vendored
`src/include/common/hashfn.h`) and reduces the hash modulo the number of shards in the shard
map.  It is written in C, apart from the pageserver's `key_to_shard_number`, and has neither
that function's fast path for unsharded tenants nor its rule that keys other than relation
blocks stay on shard 0.

`getShardNumber_isKeyLocal` proves that the two agree on every relation block: the shard the
compute picks is the one shard of the tenant, among the identities `ShardIdentity::new`
accepts, that reports the block's key as local.
-/

namespace NeonStorage

namespace Compute

/-- `murmurhash32` of `hashfn.h`, on `uint32` arithmetic. -/
def murmurhash32 (data : UInt32) : UInt32 :=
  let h := data
  let h := h ^^^ (h >>> 16)
  let h := h * 0x85ebca6b
  let h := h ^^^ (h >>> 13)
  let h := h * 0xc2b2ae35
  h ^^^ (h >>> 16)

/-- `hash_combine` of `hashfn.h`: `a ^= b + 0x9e3779b9 + (a << 6) + (a >> 2)`. -/
def hashCombine (a b : UInt32) : UInt32 :=
  a ^^^ (b + 0x9e3779b9 + (a <<< (6 : UInt32)) + (a >>> (2 : UInt32)))

/-- The fields of `BufferTag` that `get_shard_number` reads: the relation number
(`relNumber`, `rnode.relNode` before PostgreSQL 16) and the block number. -/
structure BufferTag where
  relNumber : UInt32
  blockNum : UInt32
deriving DecidableEq, Repr

/-- `get_shard_number`.  `nShards` is the count `load_shard_map` reads from the shared shard
map, and `stripeSize` the `int` setting `neon.stripe_size`, which the division by the
`uint32` block number converts to `unsigned`. -/
def getShardNumber (tag : BufferTag) (nShards : UInt32) (stripeSize : Int32) : UInt32 :=
  let hash := murmurhash32 tag.relNumber
  let hash := hashCombine hash (murmurhash32 (tag.blockNum / stripeSize.toUInt32))
  hash % nShards

/-! ## Agreement with the pageserver -/

/-- Both sides compute the same `murmurhash32`. -/
theorem murmurhash32_eq : murmurhash32 = NeonStorage.murmurhash32 := rfl

/-- The C `hash_combine` adds in the order of the wrapping additions of the Rust one. -/
theorem hashCombine_eq : hashCombine = NeonStorage.hashCombine := rfl

/-- The compute reduces the pageserver's block hash of the block's key, for a stripe size
stored in the `int` setting with the bits of the `u32` one. -/
theorem getShardNumber_eq (rel : RelTag) (blockNum nShards : UInt32) (s : UInt32) :
    getShardNumber ⟨rel.relnode, blockNum⟩ nShards s.toInt32 =
      blockHash ⟨s⟩ (relBlockToKey rel blockNum) % nShards := by
  simp only [getShardNumber, murmurhash32_eq, hashCombine_eq, UInt32.toUInt32_toInt32]
  rfl

/-- For every relation block, shard count `n` in `1..=255` and non-zero stripe size, the shard
the compute sends the block to is a valid shard of the tenant that holds the block's key as
local, and no other valid shard does. -/
theorem getShardNumber_isKeyLocal (rel : RelTag) (blockNum : UInt32) (n : UInt8) (s : UInt32)
    (hrel : rel.relnode ≠ 0) (hblk : blockNum ≠ 0xFFFFFFFF) (hn : 0 < n) (hs : s ≠ 0) :
    let k := getShardNumber ⟨rel.relnode, blockNum⟩ n.toUInt32 s.toInt32
    let key := relBlockToKey rel blockNum
    k < n.toUInt32 ∧
      (∃ id, ShardIdentity.new ⟨k.toUInt8⟩ ⟨n⟩ ⟨s⟩ = .ok id ∧ id.isKeyLocal key = true) ∧
      ∀ m id, ShardIdentity.new m ⟨n⟩ ⟨s⟩ = .ok id → id.isKeyLocal key = true →
        m = ⟨k.toUInt8⟩ := by
  intro k key
  have hk : keyIsShard0 key = false := by
    simp [keyIsShard0, key, isRelBlockKey_relBlockToKey hrel hblk]
  have hnpos : 0 < n.toNat := by simpa [UInt8.lt_iff_toNat_lt] using hn
  have hcount : (ShardCount.mk n).count.toNat = n.toNat := by
    rw [ShardCount.count_toNat]
    show max n.toNat 1 = n.toNat
    omega
  -- the shard number is the block hash modulo the count, which fits in a `u8`
  have hkval : k.toNat = (blockHash ⟨s⟩ key).toNat % n.toNat := by
    simp [k, key, getShardNumber_eq, UInt32.toNat_mod]
  have hklt : k.toNat < n.toNat := hkval ▸ Nat.mod_lt _ hnpos
  have hk8 : (k.toUInt8).toNat = k.toNat := by
    rw [UInt32.toNat_toUInt8]
    exact Nat.mod_eq_of_lt (lt_trans hklt (UInt8.toNat_lt n))
  have hn0 : n ≠ 0 := by simpa [UInt8.ext_iff] using hnpos.ne'
  refine ⟨by simpa [UInt32.lt_iff_toNat_lt] using hklt, ⟨_, ShardIdentity.new_eq_ok.mpr
    ⟨hn0, by simpa [hk8] using hklt, hs, rfl⟩, ?_⟩, ?_⟩
  · rw [ShardIdentity.isKeyLocal_iff_hash hk (by simpa [hcount, hk8] using hklt), hcount, hk8,
      hkval]
  · intro m id hnew hlocal
    obtain ⟨-, hm, -, rfl⟩ := ShardIdentity.new_eq_ok.mp hnew
    rw [ShardIdentity.isKeyLocal_iff_hash hk (by simpa [hcount] using hm), hcount] at hlocal
    ext
    rw [hk8, hkval, hlocal]

/-- Block 0 of relation 16400 in database 5, on a tenant of four shards with the default
stripe of 32768 blocks. -/
theorem getShardNumber_isKeyLocal_four_shards :
    (⟨0, 1663, 5, 16400⟩ : RelTag).relnode ≠ 0 ∧ (0 : UInt32) ≠ 0xFFFFFFFF ∧ (0 : UInt8) < 4 ∧
      (32768 : UInt32) ≠ 0 ∧
      let k := getShardNumber ⟨16400, 0⟩ (4 : UInt8).toUInt32 (32768 : UInt32).toInt32
      let key := relBlockToKey ⟨0, 1663, 5, 16400⟩ 0
      k < (4 : UInt8).toUInt32 ∧
        (∃ id, ShardIdentity.new ⟨k.toUInt8⟩ ⟨4⟩ ⟨32768⟩ = .ok id ∧ id.isKeyLocal key = true) ∧
        ∀ m id, ShardIdentity.new m ⟨4⟩ ⟨32768⟩ = .ok id → id.isKeyLocal key = true →
          m = ⟨k.toUInt8⟩ :=
  ⟨by decide, by decide, by decide, by decide,
    getShardNumber_isKeyLocal ⟨0, 1663, 5, 16400⟩ 0 4 32768 (by decide) (by decide) (by decide)
      (by decide)⟩

end Compute

end NeonStorage
