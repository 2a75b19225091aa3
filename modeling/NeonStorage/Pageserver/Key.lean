import NeonStorage.Lib.Hex
import NeonStorage.Lib.EStateM
import NeonStorage.Lib.Wrapping

/-!
# Keys of the pageserver key-value store

The pageserver addresses every page and every piece of metadata by an 18-byte `Key`
of six fixed-width fields (`libs/pageserver_api/src/key.rs`).  Relation blocks have
`field1 = 0x00`, a non-zero relation number in `field4` and a block number other than
`0xFFFFFFFF` in `field6`; every other key is metadata.  This file fixes the record, its
order (the derived `Ord`, field by field) and its packing into an `i128`, which the layer
map uses as the coordinate of its coverage structures.

Read as the digits of one number of 144 bits, most significant first (`toNat`), keys are
ordered as their numbers (`lt_iff_toNat_lt`), and `Key::add`, which carries from field to
field, adds to that number (`add_eq_ok`): a range of keys holds as many keys as its ends'
numbers differ by.

Packed into an `i128`, keys keep their order and come back out through `from_i128` only where
the masks on `field1` and `field2` lose nothing that matters (`lt_iff_toI128_lt`,
`fromI128_toI128`): the reserved `field2 = 0x22222222`, which `to_i128` accepts, is cut to
`0x2222` and lands below every `field2` from `0x2223` up.
-/

namespace NeonStorage

/-- A key of the repository key-value store: the six fields of `Key`, with the widths
the source gives them. -/
structure Key where
  field1 : UInt8
  field2 : UInt32
  field3 : UInt32
  field4 : UInt32
  field5 : UInt8
  field6 : UInt32
deriving DecidableEq, Repr

namespace Key

/-- `is_rel_block_key`: the key addresses a block of a relation, not its size or any
other metadata. -/
def isRelBlockKey (key : Key) : Bool :=
  key.field1 == 0x00 && key.field4 != 0 && key.field6 != 0xffffffff

/-- The derived `Ord for Key`: the fields compared in declaration order. -/
def lexKey (key : Key) : Nat ×ₗ Nat ×ₗ Nat ×ₗ Nat ×ₗ Nat ×ₗ Nat :=
  toLex (key.field1.toNat, toLex (key.field2.toNat, toLex (key.field3.toNat,
    toLex (key.field4.toNat, toLex (key.field5.toNat, key.field6.toNat)))))

theorem lexKey_injective : Function.Injective lexKey := by
  rintro ⟨a1, a2, a3, a4, a5, a6⟩ ⟨b1, b2, b3, b4, b5, b6⟩ h
  simp only [lexKey, toLex_inj, Prod.mk.injEq] at h
  obtain ⟨h1, h2, h3, h4, h5, h6⟩ := h
  simp only [mk.injEq]
  exact ⟨UInt8.toNat_inj.mp h1, UInt32.toNat_inj.mp h2, UInt32.toNat_inj.mp h3,
    UInt32.toNat_inj.mp h4, UInt8.toNat_inj.mp h5, UInt32.toNat_inj.mp h6⟩

instance : LinearOrder Key := LinearOrder.lift' lexKey lexKey_injective

/-- The number a key stands for: its fields as the digits of a number of 144 bits, most
significant first. -/
def toNat (key : Key) : ℕ :=
  key.field1.toNat * 2 ^ 136 + key.field2.toNat * 2 ^ 104 + key.field3.toNat * 2 ^ 72 +
    key.field4.toNat * 2 ^ 40 + key.field5.toNat * 2 ^ 32 + key.field6.toNat

theorem toNat_lt (key : Key) : key.toNat < 2 ^ 144 := by
  have := key.field1.toNat_lt; have := key.field2.toNat_lt; have := key.field3.toNat_lt
  have := key.field4.toNat_lt; have := key.field5.toNat_lt; have := key.field6.toNat_lt
  simp only [toNat]
  omega

/-- The derived order is the order of the numbers keys stand for. -/
theorem lt_iff_toNat_lt {a b : Key} : a < b ↔ a.toNat < b.toNat := by
  change a.lexKey < b.lexKey ↔ _
  simp only [lexKey, Prod.Lex.toLex_lt_toLex]
  have := a.field1.toNat_lt; have := a.field2.toNat_lt; have := a.field3.toNat_lt
  have := a.field4.toNat_lt; have := a.field5.toNat_lt; have := a.field6.toNat_lt
  have := b.field1.toNat_lt; have := b.field2.toNat_lt; have := b.field3.toNat_lt
  have := b.field4.toNat_lt; have := b.field5.toNat_lt; have := b.field6.toNat_lt
  simp only [toNat]
  omega

/-- `Key::add`: `x` added to `field6`, each carry taken up by the next field; a carry out of
`field1` fails the assertion. -/
def add (key : Key) (x : UInt32) : Except String Key :=
  -- `overflowing_add` carries exactly when the wrapped sum falls below the summand
  let field6 := key.field6 + x
  if field6 < key.field6 then
    let field5 := key.field5 + 1
    if field5 < key.field5 then
      let field4 := key.field4 + 1
      if field4 < key.field4 then
        let field3 := key.field3 + 1
        if field3 < key.field3 then
          let field2 := key.field2 + 1
          if field2 < key.field2 then
            let field1 := key.field1 + 1
            if field1 < key.field1 then .error "assertion failed: !r.1"
            else .ok ⟨field1, field2, field3, field4, field5, field6⟩
          else .ok ⟨key.field1, field2, field3, field4, field5, field6⟩
        else .ok ⟨key.field1, key.field2, field3, field4, field5, field6⟩
      else .ok ⟨key.field1, key.field2, key.field3, field4, field5, field6⟩
    else .ok ⟨key.field1, key.field2, key.field3, key.field4, field5, field6⟩
  else .ok ⟨key.field1, key.field2, key.field3, key.field4, key.field5, field6⟩

/-- Below the top of the key space, `Key::add` adds to the key's number. -/
theorem add_eq_ok {key : Key} {x : UInt32} (h : key.toNat + x.toNat < 2 ^ 144) :
    ∃ key', key.add x = .ok key' ∧ key'.toNat = key.toNat + x.toNat := by
  have := key.field1.toNat_lt; have := key.field2.toNat_lt; have := key.field3.toNat_lt
  have := key.field4.toNat_lt; have := key.field5.toNat_lt; have := key.field6.toNat_lt
  have := x.toNat_lt
  unfold add
  dsimp only
  simp only [UInt32.lt_iff_toNat_lt, UInt8.lt_iff_toNat_lt, UInt32.toNat_add, UInt8.toNat_add,
    UInt32.toNat_one, UInt8.toNat_one]
  split_ifs with h6 h5 h4 h3 h2 h1
  · -- a carry out of `field1` would put the sum past `2 ^ 144`
    simp only [toNat] at h
    omega
  all_goals
    refine ⟨_, rfl, ?_⟩
    simp only [toNat, UInt32.toNat_add, UInt8.toNat_add, UInt32.toNat_one, UInt8.toNat_one]
    omega

/-- `Key::to_i128`: the fields packed into 124 bits, `field1` and `field2` cut to 4 and 16
bits.  Its assertion that `field2` fits in 16 bits, or is one of two reserved values, is
stated apart as `toI128Accepts`; the packing is modelled on every key. -/
def toI128 (key : Key) : Int :=
  (((key.field1 &&& 0xf).toNat <<< 120) ||| ((key.field2 &&& 0xFFFF).toNat <<< 104) |||
    (key.field3.toNat <<< 72) ||| (key.field4.toNat <<< 40) ||| (key.field5.toNat <<< 32) |||
    key.field6.toNat : Nat)

theorem toI128_nonneg (key : Key) : 0 ≤ key.toI128 :=
  Int.natCast_nonneg _

/-- `Key::from_i128`: the fields cut back out of the low 124 bits.  Each mask and each `as`
keeps the low bits of its shift, which on a two's complement value is the remainder. -/
def fromI128 (x : Int) : Key :=
  ⟨UInt8.ofNat ((x >>> 120) % 0x10).toNat, UInt32.ofNat ((x >>> 104) % 0x10000).toNat,
    UInt32.ofNat ((x >>> 72) % 2 ^ 32).toNat, UInt32.ofNat ((x >>> 40) % 2 ^ 32).toNat,
    UInt8.ofNat ((x >>> 32) % 2 ^ 8).toNat, UInt32.ofNat (x % 2 ^ 32).toNat⟩

/-- The assertion of `Key::to_i128`: `field2` fits in 16 bits or is one of the two reserved
values `0xFFFFFFFF` and `0x22222222`; on any other key the conversion panics. -/
def toI128Accepts (key : Key) : Bool :=
  key.field2 < 0xFFFF || key.field2 == 0xFFFFFFFF || key.field2 == 0x22222222

/-- The packing as arithmetic: the two masks are remainders and the fields, each below the
bits of the one before it, add up. -/
theorem toI128_eq (key : Key) :
    key.toI128 = ((key.field1.toNat % 2 ^ 4 * 2 ^ 120 + key.field2.toNat % 2 ^ 16 * 2 ^ 104 +
      key.field3.toNat * 2 ^ 72 + key.field4.toNat * 2 ^ 40 + key.field5.toNat * 2 ^ 32 +
      key.field6.toNat : ℕ) : ℤ) := by
  have b5 : key.field5.toNat * 2 ^ 32 + key.field6.toNat < 2 ^ 40 :=
    Wrapping.mul_two_pow_add_lt key.field5.toNat_lt key.field6.toNat_lt
  have b4 : key.field4.toNat * 2 ^ 40 + (key.field5.toNat * 2 ^ 32 + key.field6.toNat) <
      2 ^ 72 :=
    Wrapping.mul_two_pow_add_lt key.field4.toNat_lt b5
  have b3 : key.field3.toNat * 2 ^ 72 + (key.field4.toNat * 2 ^ 40 +
      (key.field5.toNat * 2 ^ 32 + key.field6.toNat)) < 2 ^ 104 :=
    Wrapping.mul_two_pow_add_lt key.field3.toNat_lt b4
  have b2 : key.field2.toNat % 2 ^ 16 * 2 ^ 104 + (key.field3.toNat * 2 ^ 72 +
      (key.field4.toNat * 2 ^ 40 + (key.field5.toNat * 2 ^ 32 + key.field6.toNat))) <
      2 ^ 120 :=
    Wrapping.mul_two_pow_add_lt (Nat.mod_lt _ (by norm_num)) b3
  unfold toI128
  congr 1
  rw [UInt8.toNat_and, UInt32.toNat_and, show (0xf : UInt8).toNat = 2 ^ 4 - 1 from rfl,
    show (0xFFFF : UInt32).toNat = 2 ^ 16 - 1 from rfl, Nat.and_two_pow_sub_one_eq_mod,
    Nat.and_two_pow_sub_one_eq_mod]
  -- the `|` chain associates to the left; each `|` is then an addition, innermost first
  simp only [Nat.or_assoc]
  rw [Wrapping.shiftLeft_or_eq_add key.field6.toNat_lt, Wrapping.shiftLeft_or_eq_add b5,
    Wrapping.shiftLeft_or_eq_add b4, Wrapping.shiftLeft_or_eq_add b3,
    Wrapping.shiftLeft_or_eq_add b2]
  simp only [Nat.add_assoc]

/-- On a number that is not negative, `from_i128` reads its digits. -/
theorem fromI128_natCast (n : ℕ) :
    fromI128 n = ⟨UInt8.ofNat (n / 2 ^ 120 % 16), UInt32.ofNat (n / 2 ^ 104 % 0x10000),
      UInt32.ofNat (n / 2 ^ 72 % 2 ^ 32), UInt32.ofNat (n / 2 ^ 40 % 2 ^ 32),
      UInt8.ofNat (n / 2 ^ 32 % 2 ^ 8), UInt32.ofNat (n % 2 ^ 32)⟩ := by
  have hdigit (s m : ℕ) : (((n : ℤ) >>> (s : ℤ)) % (m : ℤ)).toNat = n / 2 ^ s % m := by
    rw [Int.shiftRight_natCast, ← Int.natCast_emod, Int.toNat_natCast, Nat.shiftRight_eq_div_pow]
  have hlow : ((n : ℤ) % ((2 ^ 32 : ℕ) : ℤ)).toNat = n % 2 ^ 32 := by
    rw [← Int.natCast_emod, Int.toNat_natCast]
  -- the shift amounts and moduli of the source are literals of `ℤ`; read them as casts
  show (⟨UInt8.ofNat (((n : ℤ) >>> ((120 : ℕ) : ℤ)) % ((16 : ℕ) : ℤ)).toNat,
    UInt32.ofNat (((n : ℤ) >>> ((104 : ℕ) : ℤ)) % ((0x10000 : ℕ) : ℤ)).toNat,
    UInt32.ofNat (((n : ℤ) >>> ((72 : ℕ) : ℤ)) % ((2 ^ 32 : ℕ) : ℤ)).toNat,
    UInt32.ofNat (((n : ℤ) >>> ((40 : ℕ) : ℤ)) % ((2 ^ 32 : ℕ) : ℤ)).toNat,
    UInt8.ofNat (((n : ℤ) >>> ((32 : ℕ) : ℤ)) % ((2 ^ 8 : ℕ) : ℤ)).toNat,
    UInt32.ofNat ((n : ℤ) % ((2 ^ 32 : ℕ) : ℤ)).toNat⟩ : Key) = _
  rw [hdigit, hdigit, hdigit, hdigit, hdigit, hlow]

/-- The keys on which `to_i128` keeps the order: `field1` fits in its 4 bits, and `field2` in
its 16 or is the reserved `0xFFFFFFFF`, whose low 16 bits lie above every other 16-bit value.
The other reserved value, `0x22222222`, is cut to `0x2222` and falls among the 16-bit ones. -/
def InI128Order (key : Key) : Prop :=
  key.field1 < 0x10 ∧ (key.field2 < 0xFFFF ∨ key.field2 = 0xFFFFFFFF)

instance (key : Key) : Decidable key.InI128Order := inferInstanceAs (Decidable (_ ∧ _))

/-- On keys in order, `to_i128` is an order embedding: the cut `field1` and `field2` keep
their order, and the fields below are packed as `toNat` packs them. -/
theorem lt_iff_toI128_lt {a b : Key} (ha : a.InI128Order) (hb : b.InI128Order) :
    a < b ↔ a.toI128 < b.toI128 := by
  obtain ⟨ha1, ha2⟩ := ha
  obtain ⟨hb1, hb2⟩ := hb
  simp only [UInt8.lt_iff_toNat_lt, UInt32.lt_iff_toNat_lt, ← UInt32.toNat_inj,
    UInt8.reduceToNat, UInt32.reduceToNat] at ha1 ha2 hb1 hb2
  have := a.field3.toNat_lt; have := a.field4.toNat_lt; have := a.field5.toNat_lt
  have := a.field6.toNat_lt
  have := b.field3.toNat_lt; have := b.field4.toNat_lt; have := b.field5.toNat_lt
  have := b.field6.toNat_lt
  rw [lt_iff_toNat_lt, toI128_eq, toI128_eq, Int.ofNat_lt]
  unfold toNat
  omega

theorem le_iff_toI128_le {a b : Key} (ha : a.InI128Order) (hb : b.InI128Order) :
    a ≤ b ↔ a.toI128 ≤ b.toI128 := by
  rw [← not_lt, lt_iff_toI128_lt hb ha, not_lt]

/-- `from_i128` undoes `to_i128` on a key whose `field1` and `field2` survive their masks. -/
theorem fromI128_toI128 {key : Key} (h1 : key.field1 < 0x10) (h2 : key.field2 < 0xFFFF) :
    fromI128 key.toI128 = key := by
  rw [UInt8.lt_iff_toNat_lt] at h1
  rw [UInt32.lt_iff_toNat_lt] at h2
  rw [toI128_eq, fromI128_natCast]
  obtain ⟨f1, f2, f3, f4, f5, f6⟩ := key
  have h3 := f3.toNat_lt; have h4 := f4.toNat_lt
  have h5 := f5.toNat_lt; have h6 := f6.toNat_lt
  simp only [UInt8.reduceToNat, UInt32.reduceToNat] at h1 h2
  -- each field is its own digit of the packed number
  simp only [mk.injEq, ← UInt8.toNat_inj, ← UInt32.toNat_inj, UInt8.toNat_ofNat',
    UInt32.toNat_ofNat']
  refine ⟨?_, ?_, ?_, ?_, ?_, ?_⟩ <;> omega

/-- `Key::MIN`. -/
def min : Key := ⟨0, 0, 0, 0, 0, 0⟩

/-- `Key::MAX`. -/
def max : Key := ⟨0xff, 0xffffffff, 0xffffffff, 0xffffffff, 0xff, 0xffffffff⟩

/-! ## Text -/

open Hex Text

/-- `impl Display for Key`: `{:02X}{:08X}{:08X}{:08X}{:02X}{:08X}`. -/
def display (key : Key) : List Char :=
  hexDigits 2 key.field1.toNat ++ hexDigits 8 key.field2.toNat ++ hexDigits 8 key.field3.toNat ++
    hexDigits 8 key.field4.toNat ++ hexDigits 2 key.field5.toNat ++ hexDigits 8 key.field6.toNat

/-- One field of `Key::from_hex`: the bytes `a..b` read as a number of `bits` bits.  The
slicing panics when an offset falls inside a character; a failed read ends the parse. -/
def hexField (s : List Char) (a b bits : ℕ) : OptionT (Except Panic) ℕ := do
  let piece ← OptionT.lift (sliceBytes s a b)
  OptionT.mk (pure (fromStrRadix16 bits piece))

/-- `Key::from_hex`; its callers keep only whether it succeeded (`.ok()`), so its error is
dropped. -/
def fromHex (s : List Char) : OptionT (Except Panic) Key := do
  if (utf8 s).length ≠ 36 then failure
  let field1 ← hexField s 0 2 8
  let field2 ← hexField s 2 10 32
  let field3 ← hexField s 10 18 32
  let field4 ← hexField s 18 26 32
  let field5 ← hexField s 26 28 8
  let field6 ← hexField s 28 36 32
  return ⟨UInt8.ofNat field1, UInt32.ofNat field2, UInt32.ofNat field3, UInt32.ofNat field4,
    UInt8.ofNat field5, UInt32.ofNat field6⟩

theorem length_display (key : Key) : key.display.length = 36 := by
  simp [display, length_hexDigits]

theorem isAscii_display (key : Key) : IsAscii key.display := by
  simp only [display, IsAscii.append]
  exact ⟨⟨⟨⟨⟨isAscii_hexDigits _ _, isAscii_hexDigits _ _⟩, isAscii_hexDigits _ _⟩,
    isAscii_hexDigits _ _⟩, isAscii_hexDigits _ _⟩, isAscii_hexDigits _ _⟩

/-- No separator of a file name is a digit of a key. -/
theorem not_mem_display {c : Char} (hc : c ∉ upperDigits) (key : Key) : c ∉ key.display :=
  fun h => by
    simp only [display, List.mem_append] at h
    rcases h with ((((h | h) | h) | h) | h) | h <;> exact hc (mem_hexDigits h)

theorem run_hexField (s : List Char) (a b bits : ℕ) :
    (hexField s a b bits).run = (sliceBytes s a b).map (fromStrRadix16 bits) := by
  unfold hexField
  cases sliceBytes s a b <;> rfl

/-- The bytes that `fromHex` reads for each field are the digits written for it. -/
theorem slice_display (key : Key) :
    (key.display.take 2).drop 0 = hexDigits 2 key.field1.toNat ∧
    (key.display.take 10).drop 2 = hexDigits 8 key.field2.toNat ∧
    (key.display.take 18).drop 10 = hexDigits 8 key.field3.toNat ∧
    (key.display.take 26).drop 18 = hexDigits 8 key.field4.toNat ∧
    (key.display.take 28).drop 26 = hexDigits 2 key.field5.toNat ∧
    (key.display.take 36).drop 28 = hexDigits 8 key.field6.toNat := by
  simp [display, List.take_append, List.drop_append, length_hexDigits, List.take_of_length_le,
    List.drop_eq_nil_of_le]

/-- `Key::from_hex` reads back what `Display` wrote, without panicking. -/
theorem fromHex_display (key : Key) : (fromHex key.display).run = .ok (some key) := by
  have hs := isAscii_display key
  obtain ⟨h1, h2, h3, h4, h5, h6⟩ := slice_display key
  -- every slice falls between characters, and every field reads back
  simp [fromHex, length_utf8_of_isAscii hs, length_display, run_hexField, sliceBytes_of_isAscii hs,
    h1, h2, h3, h4, h5, h6, fromStrRadix16_hexDigits_uInt8, fromStrRadix16_hexDigits_uInt32,
    Except.map, Option.elimM, Except.ok_bind]

end Key

/-- `RelTag`: a fork of a relation, named by its tablespace, database and relation
numbers. -/
structure RelTag where
  forknum : UInt8
  spcnode : UInt32
  dbnode : UInt32
  relnode : UInt32
deriving DecidableEq, Repr

/-- `rel_block_to_key`: the key of a block of a relation fork. -/
def relBlockToKey (rel : RelTag) (blknum : UInt32) : Key where
  field1 := 0x00
  field2 := rel.spcnode
  field3 := rel.dbnode
  field4 := rel.relnode
  field5 := rel.forknum
  field6 := blknum

/-- The key of a block of a relation with a relation number, at a block number other than
`0xFFFFFFFF`, is a relation block key. -/
theorem isRelBlockKey_relBlockToKey {rel : RelTag} {blknum : UInt32} (hrel : rel.relnode ≠ 0)
    (hblk : blknum ≠ 0xFFFFFFFF) : (relBlockToKey rel blknum).isRelBlockKey = true := by
  simp [Key.isRelBlockKey, relBlockToKey, hrel, hblk]

end NeonStorage
