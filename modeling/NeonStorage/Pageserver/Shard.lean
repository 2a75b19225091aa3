import NeonStorage.Pageserver.Key

/-!
# Shard identities and the key-to-shard mapping

A sharded tenant spreads the blocks of its relations over `count` shards
(`libs/pageserver_api/src/shard.rs`).  A relation block goes to the shard
`hash % count`, where `hash` mixes the relation number and the stripe of the block
number with PostgreSQL's `murmurhash32` and `hash_combine`; every other key is kept by
shard 0 (`key_is_shard0`).  Splitting a shard (`TenantShardId::split`) gives it the
children whose number is congruent to its own modulo the old count, and
`TenantManager::shard_split` admits a new count when it is larger and the quotient of
the two counts is a power of two.

The mapping only commutes with splitting when the new count is a multiple of the old
one.  The admission check divides with truncation, so it also admits counts that are not
multiples, and the split from two shards to five moves a block away from the
children of the shard that owned it (`shardSplit_two_to_five_moves_block`).
-/

namespace NeonStorage

/-- `ShardNumber`: the index of a shard within its tenant. -/
@[ext] structure ShardNumber where
  val : UInt8
deriving DecidableEq, Repr

/-- `ShardCount`: the literal shard count of a tenant; `0` stands for a legacy unsharded
tenant, which has one shard and no shard suffix in its name. -/
structure ShardCount where
  val : UInt8
deriving DecidableEq, Repr

/-- `ShardStripeSize`: the number of consecutive blocks of a relation kept together. -/
structure ShardStripeSize where
  val : UInt32
deriving DecidableEq, Repr

namespace ShardCount

/-- `ShardCount::count`: the number of shards, reading the legacy `0` as one shard. -/
def count (c : ShardCount) : UInt8 :=
  if c.val > 0 then c.val else 1

theorem count_toNat (c : ShardCount) : c.count.toNat = max c.val.toNat 1 := by
  unfold count
  split <;> simp_all [UInt8.lt_iff_toNat_lt]
  omega

theorem count_eq_of_two_le {c : ShardCount} (h : 2 ≤ c.val.toNat) : c.count = c.val := by
  have : 0 < c.val := by simp [UInt8.lt_iff_toNat_lt]; omega
  simp [count, this]

end ShardCount

/-! ## The hash of a relation block -/

/-- `murmurhash32`: the finaliser of PostgreSQL's `hashfn.h`, on wrapping 32-bit words. -/
def murmurhash32 (h : UInt32) : UInt32 :=
  let h := h ^^^ (h >>> 16)
  let h := h * 0x85ebca6b
  let h := h ^^^ (h >>> 13)
  let h := h * 0xc2b2ae35
  h ^^^ (h >>> 16)

/-- `hash_combine` of PostgreSQL's `hashfn.h`, on wrapping 32-bit words. -/
def hashCombine (a b : UInt32) : UInt32 :=
  let b := b + 0x9e3779b9
  let b := b + (a <<< 6)
  let b := b + (a >>> 2)
  a ^^^ b

/-- `key_is_shard0`: every key that is not a relation block stays on shard 0. -/
def keyIsShard0 (key : Key) : Bool :=
  !key.isRelBlockKey

/-- `key_to_shard_number`: the shard a key is distributed to, ignoring broadcast. -/
def keyToShardNumber (count : ShardCount) (stripeSize : ShardStripeSize) (key : Key) :
    ShardNumber :=
  -- fast path for unsharded tenants and broadcast keys
  if count.val < 2 || keyIsShard0 key then ⟨0⟩
  else
    -- relNode
    let hash := murmurhash32 key.field4
    -- blockNum / stripe size
    let hash := hashCombine hash (murmurhash32 (key.field6 / stripeSize.val))
    ⟨(hash % count.val.toUInt32).toUInt8⟩

/-- The 32-bit hash that `keyToShardNumber` reduces modulo the count. -/
def blockHash (stripeSize : ShardStripeSize) (key : Key) : UInt32 :=
  hashCombine (murmurhash32 key.field4) (murmurhash32 (key.field6 / stripeSize.val))

/-- Off the fast path the shard number is the block hash modulo the count: the
remainder is below the count, so the cast to `u8` loses nothing. -/
theorem keyToShardNumber_val {count : ShardCount} {stripeSize : ShardStripeSize} {key : Key}
    (hc : 2 ≤ count.val.toNat) (hk : keyIsShard0 key = false) :
    (keyToShardNumber count stripeSize key).val.toNat =
      (blockHash stripeSize key).toNat % count.val.toNat := by
  have hlt : ¬ count.val < 2 := by simp [UInt8.lt_iff_toNat_lt]; omega
  have hmod : (blockHash stripeSize key).toNat % count.val.toNat < 256 :=
    lt_of_lt_of_le (Nat.mod_lt _ (by omega)) (by simpa using (UInt8.toNat_lt count.val).le)
  simp only [keyToShardNumber, hlt, hk, decide_false, Bool.or_false, Bool.false_eq_true,
    ↓reduceIte]
  simp only [UInt32.toNat_toUInt8, UInt32.toNat_mod, UInt8.toNat_toUInt32]
  exact Nat.mod_eq_of_lt hmod

/-! ## Shard identities -/

/-- `ShardIdentity`: the number, count and stripe size a shard uses to decide which keys
it keeps.  The layout version is left out: every identity the model builds has the
current layout, and only a broken layout makes `is_key_local` panic. -/
structure ShardIdentity where
  number : ShardNumber
  count : ShardCount
  stripeSize : ShardStripeSize
deriving DecidableEq, Repr

/-- `ShardConfigError`: the reasons `ShardIdentity::new` refuses its arguments. -/
inductive ShardConfigError where
  | invalidCount
  | invalidNumber
  | invalidStripeSize
deriving DecidableEq, Repr

namespace ShardIdentity

/-- `ShardIdentity::new`: the count must be non-zero, the number below it and the stripe
size non-zero. -/
def new (number : ShardNumber) (count : ShardCount) (stripeSize : ShardStripeSize) :
    Except ShardConfigError ShardIdentity :=
  if count.val == 0 then .error .invalidCount
  else if number.val > count.val - 1 then .error .invalidNumber
  else if stripeSize.val == 0 then .error .invalidStripeSize
  else .ok ⟨number, count, stripeSize⟩

/-- `new` accepts exactly a non-zero count, a number below it and a non-zero stripe size. -/
theorem new_eq_ok {number : ShardNumber} {count : ShardCount} {stripeSize : ShardStripeSize}
    {id : ShardIdentity} :
    new number count stripeSize = .ok id ↔
      count.val ≠ 0 ∧ number.val.toNat < count.val.toNat ∧ stripeSize.val ≠ 0 ∧
        id = ⟨number, count, stripeSize⟩ := by
  simp only [new, beq_iff_eq]
  by_cases hc : count.val = 0
  · simp [hc]
  · have hle : (1 : UInt8) ≤ count.val := by
      simp [UInt8.le_iff_toNat_le]
      exact Nat.pos_of_ne_zero (by simpa [UInt8.ext_iff] using hc)
    have hpos : 0 < count.val.toNat := Nat.pos_of_ne_zero (by simpa [UInt8.ext_iff] using hc)
    have hnum : (number.val > count.val - 1) ↔ ¬ number.val.toNat < count.val.toNat := by
      rw [gt_iff_lt, UInt8.lt_iff_toNat_lt, UInt8.toNat_sub_of_le _ _ hle, UInt8.toNat_one]
      omega
    rw [if_neg hc]
    by_cases hn : number.val.toNat < count.val.toNat
    · rw [if_neg (fun h => hnum.mp h hn)]
      by_cases hs : stripeSize.val = 0
      · simp [hs]
      · rw [if_neg hs, Except.ok.injEq]
        simp only [hc, hn, hs, ne_eq, not_false_eq_true, true_and]
        exact eq_comm
    · rw [if_pos (hnum.mpr hn)]
      simp [hn]

/-- `ShardIdentity::is_key_local`: the key is ingested by this shard. -/
def isKeyLocal (self : ShardIdentity) (key : Key) : Bool :=
  if self.count.val < 2 || (keyIsShard0 key && self.number.val == 0) then true
  else keyToShardNumber self.count self.stripeSize key == self.number

/-- `ShardIdentity::is_key_disposable`: the key may be dropped from this shard's data,
which is never the case for a key kept on shard 0. -/
def isKeyDisposable (self : ShardIdentity) (key : Key) : Bool :=
  if keyIsShard0 key then false else !self.isKeyLocal key

/-- A relation block is local to a shard of a sharded tenant exactly when the block hash
falls on its number. -/
theorem isKeyLocal_of_rel (n : ShardNumber) (c : ShardCount) (s : ShardStripeSize)
    {key : Key} (hk : keyIsShard0 key = false) (hc : 2 ≤ c.val.toNat) :
    (ShardIdentity.mk n c s).isKeyLocal key = true ↔
      (blockHash s key).toNat % c.val.toNat = n.val.toNat := by
  have hlt : ¬ c.val < 2 := by simp [UInt8.lt_iff_toNat_lt]; omega
  have hval : (keyToShardNumber c s key).val.toNat = (blockHash s key).toNat % c.val.toNat :=
    keyToShardNumber_val hc hk
  simp only [isKeyLocal, hlt, hk, decide_false, Bool.false_and, Bool.or_self,
    Bool.false_eq_true, ↓reduceIte, beq_iff_eq]
  rw [ShardNumber.ext_iff, UInt8.ext_iff, hval]

/-- A relation block is local to a shard with a valid number exactly when the block hash
modulo the shard count is that number; for fewer than two shards both sides hold. -/
theorem isKeyLocal_iff_hash {n : ShardNumber} {c : ShardCount} {s : ShardStripeSize}
    {key : Key} (hk : keyIsShard0 key = false) (hn : n.val.toNat < c.count.toNat) :
    (ShardIdentity.mk n c s).isKeyLocal key = true ↔
      (blockHash s key).toNat % c.count.toNat = n.val.toNat := by
  by_cases hc : 2 ≤ c.val.toNat
  · rw [isKeyLocal_of_rel n c s hk hc, ShardCount.count_eq_of_two_le hc]
  · have hlt : c.val < 2 := by simp [UInt8.lt_iff_toNat_lt]; omega
    have hone : c.count.toNat = 1 := by
      unfold ShardCount.count
      split <;> simp_all [UInt8.lt_iff_toNat_lt]; omega
    simp only [isKeyLocal, hlt, decide_true, Bool.true_or, ↓reduceIte, true_iff, hone,
      Nat.mod_one]
    omega

end ShardIdentity

/-! ## Splitting a shard -/

/-- `TenantShardId`: a shard of a tenant.  The tenant id is left out; `split` copies it to
every child unchanged. -/
structure TenantShardId where
  shardNumber : ShardNumber
  shardCount : ShardCount
deriving DecidableEq, Repr

/-- `u8::is_power_of_two`: exactly one bit is set. -/
def isPowerOfTwo (x : UInt8) : Bool :=
  x != 0 && x &&& (x - 1) == 0

namespace TenantShardId

/-- `TenantShardId::split`: the children of this shard among `new_shard_count` shards,
the shard numbers that are congruent to this one modulo the old count. -/
def split (self : TenantShardId) (newShardCount : ShardCount) : List TenantShardId :=
  let effectiveOldShardCount := max self.shardCount.val 1
  ((List.range newShardCount.val.toNat).map Nat.toUInt8).filterMap fun shardNumber =>
    -- key mapping is a round robin of the key hash modulo the shard count, so the
    -- children are the shards that the same keys map to
    if shardNumber % effectiveOldShardCount == self.shardNumber.val then
      some ⟨⟨shardNumber⟩, newShardCount⟩
    else none

end TenantShardId

/-- The planning step of `TenantManager::shard_split`: a new count is admitted when it is
an increase and the quotient of the counts, in truncating `u8` division, is a power of
two; the children are then those of `TenantShardId::split`. -/
def shardSplit (tenantShardId : TenantShardId) (newShardCount : ShardCount) :
    Except String (List TenantShardId) :=
  if newShardCount.count ≤ tenantShardId.shardCount.count then
    .error "Requested shard count is not an increase"
  else
    let expansionFactor := newShardCount.count / tenantShardId.shardCount.count
    if !isPowerOfTwo expansionFactor then .error "Requested split is not a power of two"
    else .ok (tenantShardId.split newShardCount)

/-! ## Ownership across a split -/

section Split

variable (parent : TenantShardId) (newShardCount : ShardCount) (s : ShardStripeSize)

end Split

theorem shardSplit_two_to_five_moves_block :
    shardSplit ⟨⟨1⟩, ⟨2⟩⟩ ⟨5⟩ = .ok [⟨⟨1⟩, ⟨5⟩⟩, ⟨⟨3⟩, ⟨5⟩⟩] ∧
      (ShardIdentity.mk ⟨1⟩ ⟨2⟩ ⟨32768⟩).isKeyLocal ⟨0, 1663, 5, 16400, 0, 0⟩ = true ∧
      (ShardIdentity.mk ⟨1⟩ ⟨5⟩ ⟨32768⟩).isKeyLocal ⟨0, 1663, 5, 16400, 0, 0⟩ = false ∧
      (ShardIdentity.mk ⟨3⟩ ⟨5⟩ ⟨32768⟩).isKeyLocal ⟨0, 1663, 5, 16400, 0, 0⟩ = false ∧
      (ShardIdentity.mk ⟨0⟩ ⟨5⟩ ⟨32768⟩).isKeyLocal ⟨0, 1663, 5, 16400, 0, 0⟩ = true := by
  decide

end NeonStorage
