import Mathlib

/-!
# Fixed-width integers as bytes

The wire and disk formats write integers of a fixed number of bytes, least significant byte
first (`to_le_bytes`, `put_u32_le`, `WriteBytesExt::write_u32::<LittleEndian>`) or most
significant first (`to_be_bytes`, `put_u64`).  This file gives both orders as functions on
natural numbers, the readers that take such an integer off the front of a buffer, and their
round trips: reading what was written gives back the value modulo the width, and writing what
was read gives back the bytes.  Nothing here refers to the repository.
-/

namespace NeonStorage

namespace Bytes

/-- The `n` low bytes of `v`, least significant first. -/
def leBytes : Nat → Nat → List UInt8
  | 0, _ => []
  | n + 1, v => UInt8.ofNat (v % 256) :: leBytes n (v / 256)

/-- The number that bytes spell, least significant first. -/
def ofLeBytes : List UInt8 → Nat
  | [] => 0
  | b :: bs => b.toNat + 256 * ofLeBytes bs

/-- The `n` low bytes of `v`, most significant first. -/
def beBytes (n v : Nat) : List UInt8 :=
  (leBytes n v).reverse

/-- The number that bytes spell, most significant first. -/
def ofBeBytes (bs : List UInt8) : Nat :=
  ofLeBytes bs.reverse

/-- Take an `n`-byte little-endian integer off the front of a buffer; `none` when the buffer
is shorter. -/
def readLe (n : Nat) (buf : List UInt8) : Option (Nat × List UInt8) :=
  if n ≤ buf.length then some (ofLeBytes (buf.take n), buf.drop n) else none

/-- Take an `n`-byte big-endian integer off the front of a buffer; `none` when the buffer is
shorter. -/
def readBe (n : Nat) (buf : List UInt8) : Option (Nat × List UInt8) :=
  if n ≤ buf.length then some (ofBeBytes (buf.take n), buf.drop n) else none

@[simp] theorem length_leBytes (n v : Nat) : (leBytes n v).length = n := by
  induction n generalizing v with
  | zero => rfl
  | succ n ih => simp [leBytes, ih]

@[simp] theorem length_beBytes (n v : Nat) : (beBytes n v).length = n := by
  simp [beBytes]

@[simp] theorem ofLeBytes_leBytes (n v : Nat) : ofLeBytes (leBytes n v) = v % 256 ^ n := by
  induction n generalizing v with
  | zero => simp [leBytes, ofLeBytes, Nat.mod_one]
  | succ n ih =>
    have hlow : (UInt8.ofNat (v % 256)).toNat = v % 256 := by
      rw [UInt8.toNat_ofNat', Nat.mod_mod]
    rw [leBytes, ofLeBytes, ih, hlow, pow_succ', Nat.mod_mul]

@[simp] theorem ofBeBytes_beBytes (n v : Nat) : ofBeBytes (beBytes n v) = v % 256 ^ n := by
  simp [ofBeBytes, beBytes]

theorem ofLeBytes_lt (bs : List UInt8) : ofLeBytes bs < 256 ^ bs.length := by
  induction bs with
  | nil => simp [ofLeBytes]
  | cons b bs ih =>
    have hb := b.toNat_lt
    rw [ofLeBytes, List.length_cons, Nat.pow_succ]
    omega

theorem ofBeBytes_lt (bs : List UInt8) : ofBeBytes bs < 256 ^ bs.length := by
  simpa [ofBeBytes] using ofLeBytes_lt bs.reverse

@[simp] theorem leBytes_ofLeBytes (bs : List UInt8) : leBytes bs.length (ofLeBytes bs) = bs := by
  induction bs with
  | nil => rfl
  | cons b bs ih =>
    have hb := b.toNat_lt
    have hlow : (b.toNat + 256 * ofLeBytes bs) % 256 = b.toNat := by omega
    have hhigh : (b.toNat + 256 * ofLeBytes bs) / 256 = ofLeBytes bs := by omega
    rw [List.length_cons, ofLeBytes, leBytes, hlow, hhigh, ih, UInt8.ofNat_toNat]

theorem ofLeBytes_append_singleton (bs : List UInt8) (b : UInt8) :
    ofLeBytes (bs ++ [b]) = ofLeBytes bs + 256 ^ bs.length * b.toNat := by
  induction bs with
  | nil => simp [ofLeBytes]
  | cons c bs ih =>
    rw [List.cons_append, ofLeBytes, ih, ofLeBytes, List.length_cons, pow_succ]
    ring

/-- The first of big-endian bytes is the most significant. -/
theorem ofBeBytes_cons (b : UInt8) (bs : List UInt8) :
    ofBeBytes (b :: bs) = b.toNat * 256 ^ bs.length + ofBeBytes bs := by
  rw [ofBeBytes, List.reverse_cons, ofLeBytes_append_singleton, List.length_reverse, ofBeBytes]
  ring

/-- A value that fits its width reads back as it was written. -/
theorem ofLeBytes_leBytes_of_lt {n v : Nat} (h : v < 256 ^ n) : ofLeBytes (leBytes n v) = v := by
  rw [ofLeBytes_leBytes, Nat.mod_eq_of_lt h]

theorem ofBeBytes_beBytes_of_lt {n v : Nat} (h : v < 256 ^ n) : ofBeBytes (beBytes n v) = v := by
  rw [ofBeBytes_beBytes, Nat.mod_eq_of_lt h]

@[simp] theorem readLe_leBytes_append (n v : Nat) (rest : List UInt8) :
    readLe n (leBytes n v ++ rest) = some (v % 256 ^ n, rest) := by
  simp [readLe]

@[simp] theorem readBe_beBytes_append (n v : Nat) (rest : List UInt8) :
    readBe n (beBytes n v ++ rest) = some (v % 256 ^ n, rest) := by
  simp [readBe]

/-- What a successful read consumed is the encoding of the value it returned. -/
theorem readLe_eq_some {n : Nat} {buf rest : List UInt8} {v : Nat}
    (h : readLe n buf = some (v, rest)) : v < 256 ^ n ∧ buf = leBytes n v ++ rest := by
  unfold readLe at h
  split at h
  · next hn =>
    simp only [Option.some.injEq, Prod.mk.injEq] at h
    obtain ⟨rfl, rfl⟩ := h
    have hlen : (buf.take n).length = n := List.length_take_of_le hn
    have hlt := ofLeBytes_lt (buf.take n)
    rw [hlen] at hlt
    have hbytes : leBytes n (ofLeBytes (buf.take n)) = buf.take n := by
      have := leBytes_ofLeBytes (buf.take n)
      rwa [hlen] at this
    exact ⟨hlt, by rw [hbytes, List.take_append_drop]⟩
  · cases h

/-- A binary codec that accepts exactly the serialisations it produces and gives back their
value: fixed-width integers, length-prefixed sequences and no trailing bytes, as `bincode`
specifies for its `DefaultOptions`. -/
structure Codec (α : Type) where
  ser : α → List UInt8
  des : List UInt8 → Except String α
  des_eq_ok : ∀ buf a, des buf = .ok a ↔ buf = ser a

theorem Codec.des_ser {α : Type} (codec : Codec α) (a : α) : codec.des (codec.ser a) = .ok a :=
  (codec.des_eq_ok _ _).mpr rfl

/-! ## The accessors of a byte buffer

The methods of `bytes::Buf` and `bytes::BufMut` on big-endian integers.  A `get_*` on a buffer
that ends before panics; the panic is the error of the result. -/

/-- `Buf::get_u8`. -/
def getU8 : List UInt8 → Except String (UInt8 × List UInt8)
  | b :: rest => .ok (b, rest)
  | [] => .error "advance out of bounds"

/-- `Buf::get_i32`. -/
def getI32 (buf : List UInt8) : Except String (Int32 × List UInt8) :=
  match readBe 4 buf with
  | some (v, rest) => .ok ((UInt32.ofNat v).toInt32, rest)
  | none => .error "advance out of bounds"

/-- `Buf::get_u64`. -/
def getU64 (buf : List UInt8) : Except String (UInt64 × List UInt8) :=
  match readBe 8 buf with
  | some (v, rest) => .ok (UInt64.ofNat v, rest)
  | none => .error "advance out of bounds"

/-- `Buf::get_i64`. -/
def getI64 (buf : List UInt8) : Except String (Int64 × List UInt8) :=
  match readBe 8 buf with
  | some (v, rest) => .ok ((UInt64.ofNat v).toInt64, rest)
  | none => .error "advance out of bounds"

/-- `Buf::advance`. -/
def advance (buf : List UInt8) (cnt : Nat) : Except String (List UInt8) :=
  if cnt ≤ buf.length then .ok (buf.drop cnt) else .error "cannot advance past remaining"

/-- `buf[i]`, which panics past the end. -/
def index (buf : List UInt8) (i : Nat) : Except String UInt8 :=
  if h : i < buf.length then .ok buf[i] else .error "index out of bounds"

/-- The byte at `i`, from what follows `i`. -/
theorem getElem_eq_of_drop_eq_cons {buf rest : List UInt8} {i : Nat} {x : UInt8}
    (h : buf.drop i = x :: rest) (hi : i < buf.length) : buf[i] = x := by
  have hget : buf[i]? = some x := by
    rw [← Nat.add_zero i, ← List.getElem?_drop, h]
    rfl
  rw [List.getElem?_eq_getElem hi] at hget
  exact Option.some.inj hget

theorem index_eq_of_drop_eq_cons {buf rest : List UInt8} {i : Nat} {x : UInt8}
    (h : buf.drop i = x :: rest) : index buf i = .ok x := by
  have hi : i < buf.length := by
    have hlen := congrArg List.length h
    simp only [List.length_drop, List.length_cons] at hlen
    omega
  unfold index
  rw [dif_pos hi, getElem_eq_of_drop_eq_cons h hi]

/-- `buf[a..b]`, which panics unless `a ≤ b ≤ buf.len()`. -/
def slice (buf : List UInt8) (a b : Nat) : Except String (List UInt8) :=
  if a ≤ b ∧ b ≤ buf.length then .ok ((buf.drop a).take (b - a))
  else .error "slice index out of range"

/-- `BufMut::put_i32`. -/
def putI32 (n : Int32) : List UInt8 :=
  beBytes 4 n.toUInt32.toNat

/-- `BufMut::put_u64`. -/
def putU64 (n : UInt64) : List UInt8 :=
  beBytes 8 n.toNat

/-- `BufMut::put_i64`. -/
def putI64 (n : Int64) : List UInt8 :=
  beBytes 8 n.toUInt64.toNat

@[simp] theorem getI32_putI32 (n : Int32) (rest : List UInt8) :
    getI32 (putI32 n ++ rest) = .ok (n, rest) := by
  simp [getI32, putI32]

@[simp] theorem getU64_putU64 (n : UInt64) (rest : List UInt8) :
    getU64 (putU64 n ++ rest) = .ok (n, rest) := by
  simp [getU64, putU64]

@[simp] theorem getI64_putI64 (n : Int64) (rest : List UInt8) :
    getI64 (putI64 n ++ rest) = .ok (n, rest) := by
  simp [getI64, putI64]

@[simp] theorem length_putU64 (n : UInt64) : (putU64 n).length = 8 := by
  simp [putU64]

@[simp] theorem length_putI64 (n : Int64) : (putI64 n).length = 8 := by
  simp [putI64]

theorem advance_append {buf rest : List UInt8} : advance (buf ++ rest) buf.length = .ok rest := by
  simp [advance]

@[simp] theorem advance_length (buf : List UInt8) : advance buf buf.length = .ok [] := by
  simp [advance]

/-- An eight-byte value followed by anything reads as the value and leaves what follows. -/
theorem getU64_append_of_length {bs : List UInt8} (h : bs.length = 8) (rest : List UInt8) :
    getU64 (bs ++ rest) = .ok (UInt64.ofNat (ofBeBytes bs), rest) := by
  simp [getU64, readBe, h]

theorem getI64_append_of_length {bs : List UInt8} (h : bs.length = 8) (rest : List UInt8) :
    getI64 (bs ++ rest) = .ok ((UInt64.ofNat (ofBeBytes bs)).toInt64, rest) := by
  simp [getI64, readBe, h]

/-! ## The high bit of a byte -/

theorem toNat_and_0x7f (b : UInt8) : (b &&& 0x7f).toNat = b.toNat % 128 := by
  rw [UInt8.toNat_and]
  exact Nat.and_two_pow_sub_one_eq_mod b.toNat 7

theorem toNat_or_0x80_mod (b : UInt8) : (b ||| 0x80).toNat % 128 = b.toNat % 128 := by
  rw [UInt8.toNat_or, show (128 : Nat) = 2 ^ 7 from rfl, Nat.or_mod_two_pow]
  simp

theorem le_toNat_or_0x80 (b : UInt8) : 128 ≤ (b ||| 0x80).toNat := by
  rw [UInt8.toNat_or]
  exact (Nat.right_le_or : (128 : Nat) ≤ b.toNat ||| 128)

/-! ## Lengths as `i32`

A length is written `as i32` and read back `as usize` through `i64`; both are the identity on
lengths below `2^31`. -/

theorem toNat_toUInt64_toInt64_ofNat {n : Nat} (h : n < 2 ^ 31) :
    (Int32.ofNat n).toInt64.toUInt64.toNat = n := by
  have hint : (Int32.ofNat n).toInt64.toInt = n := by simp [Int32.toInt_ofNat_of_lt h]
  have hnonneg : 0 ≤ (Int32.ofNat n).toInt64 := by
    rw [Int64.le_iff_toInt_le, hint]
    simp
  rw [Int64.toNat_toUInt64_of_le hnonneg, ← Int64.toNat_toInt, hint, Int.toNat_natCast]

theorem int32_ofNat_inj {m n : Nat} (hm : m < 2 ^ 31) (hn : n < 2 ^ 31) :
    Int32.ofNat m = Int32.ofNat n ↔ m = n := by
  constructor
  · intro heq
    have hint := congrArg Int32.toInt heq
    rw [Int32.toInt_ofNat_of_lt hm, Int32.toInt_ofNat_of_lt hn] at hint
    exact_mod_cast hint
  · rintro rfl
    rfl

/-! ## Integers inside a buffer

`LittleEndian::read_u32(&buf[off..off + 4])` and `LittleEndian::write_u32(&mut buf[off..off + 4],
v)` read and overwrite the `n` bytes at an offset, and so do C loads and stores through a
`uint32 *` into a page.  A store inside the buffer keeps its length (`length_setLe`). -/

/-- The `n`-byte little-endian integer at `off`. -/
def getLe (buf : List UInt8) (off n : Nat) : Nat :=
  ofLeBytes ((buf.drop off).take n)

/-- The buffer with the `n` bytes at `off` overwritten by `v`, least significant first. -/
def setLe (buf : List UInt8) (off n v : Nat) : List UInt8 :=
  buf.take off ++ leBytes n v ++ buf.drop (off + n)

section Window

variable {buf : List UInt8} {off n : Nat}

theorem length_setLe (h : off + n ≤ buf.length) (v : Nat) :
    (setLe buf off n v).length = buf.length := by
  simp only [setLe, List.length_append, List.length_take, length_leBytes, List.length_drop]
  omega

end Window

/-! ## Bit fields inside a byte

A byte can pack several fields of `w` bits side by side, such as the two-bit transaction
statuses of a commit-log page.  The field at bit `sh` is read as `(b >> sh) & mask` and written
as `(b & !(mask << sh)) | (v << sh)`, with `mask = 2 ^ w - 1`.  Writing a field and reading it
back gives the value written (`getField_setField_self`); a field that does not overlap the one
written reads as before (`getField_setField_of_disjoint`). -/

/-- `(b >> sh) & mask`: the field at bit `sh`. -/
def getField (b sh mask : UInt8) : UInt8 :=
  (b >>> sh) &&& mask

/-- `(b & !(mask << sh)) | (v << sh)`: the byte with the field at bit `sh` set to `v`. -/
def setField (b sh mask v : UInt8) : UInt8 :=
  (b &&& ~~~(mask <<< sh)) ||| (v <<< sh)

theorem testBit_toNat_of_le {b : UInt8} {i : Nat} (hi : 8 ≤ i) : b.toNat.testBit i = false :=
  Nat.testBit_eq_false_of_lt (lt_of_lt_of_le b.toNat_lt (Nat.pow_le_pow_right (by decide) hi))

theorem testBit_toNat_shiftLeft (a b : UInt8) (hb : b.toNat < 8) (i : Nat) :
    (a <<< b).toNat.testBit i =
      (decide (i < 8) && decide (b.toNat ≤ i) && a.toNat.testBit (i - b.toNat)) := by
  rw [UInt8.toNat_shiftLeft, Nat.mod_eq_of_lt hb, Nat.testBit_mod_two_pow, Nat.testBit_shiftLeft]
  simp [Bool.and_assoc]

theorem testBit_toNat_shiftRight (a b : UInt8) (hb : b.toNat < 8) (i : Nat) :
    (a >>> b).toNat.testBit i = a.toNat.testBit (i + b.toNat) := by
  rw [UInt8.toNat_shiftRight, Nat.mod_eq_of_lt hb, Nat.testBit_shiftRight, Nat.add_comm]

theorem testBit_toNat_not (a : UInt8) (i : Nat) :
    (~~~a).toNat.testBit i = (decide (i < 8) && !a.toNat.testBit i) := by
  rw [UInt8.toNat_not, show UInt8.size - 1 - a.toNat = 2 ^ 8 - (a.toNat + 1) by
    rw [Nat.sub_sub, Nat.add_comm]; rfl]
  exact Nat.testBit_two_pow_sub_succ a.toNat_lt i

section Field

variable {b sh sh' mask v v' : UInt8} {w : Nat}

theorem testBit_toNat_getField (hmask : mask.toNat = 2 ^ w - 1) (hsh : sh.toNat < 8) (i : Nat) :
    (getField b sh mask).toNat.testBit i = (decide (i < w) && b.toNat.testBit (i + sh.toNat)) := by
  rw [getField, UInt8.toNat_and, Nat.testBit_and, testBit_toNat_shiftRight _ _ hsh, hmask,
    Nat.testBit_two_pow_sub_one, Bool.and_comm]

/-- The bits of the byte after a write: those of `v` inside the field, those of `b` outside. -/
theorem testBit_toNat_setField (hmask : mask.toNat = 2 ^ w - 1) (hw : 0 < w)
    (hv : v.toNat < 2 ^ w) (hsh : sh.toNat + w ≤ 8) (i : Nat) :
    (setField b sh mask v).toNat.testBit i =
      if sh.toNat ≤ i ∧ i < sh.toNat + w then v.toNat.testBit (i - sh.toNat)
      else b.toNat.testBit i := by
  have hsh8 : sh.toNat < 8 := by omega
  rw [setField, UInt8.toNat_or, Nat.testBit_or, UInt8.toNat_and, Nat.testBit_and,
    testBit_toNat_not, testBit_toNat_shiftLeft _ _ hsh8, testBit_toNat_shiftLeft _ _ hsh8, hmask,
    Nat.testBit_two_pow_sub_one]
  by_cases hi : i < 8
  · by_cases h1 : sh.toNat ≤ i
    · by_cases h2 : i < sh.toNat + w
      · have hin : i - sh.toNat < w := by omega
        simp [hi, h1, h2, hin]
      · -- above the field the shifted value has no bits, as `v < 2 ^ w`
        have hout : ¬i - sh.toNat < w := by omega
        have hvb : v.toNat.testBit (i - sh.toNat) = false :=
          Nat.testBit_eq_false_of_lt (lt_of_lt_of_le hv (Nat.pow_le_pow_right (by decide) (by omega)))
        simp [hi, h1, h2, hout, hvb]
    · simp [hi, h1]
  · have h2 : ¬i < sh.toNat + w := by omega
    simp [hi, h2, testBit_toNat_of_le (b := b) (by omega : 8 ≤ i)]

theorem getField_setField_self (hmask : mask.toNat = 2 ^ w - 1) (hw : 0 < w)
    (hv : v.toNat < 2 ^ w) (hsh : sh.toNat + w ≤ 8) :
    getField (setField b sh mask v) sh mask = v := by
  apply UInt8.toNat_inj.1
  apply Nat.eq_of_testBit_eq
  intro i
  rw [testBit_toNat_getField hmask (by omega), testBit_toNat_setField hmask hw hv hsh]
  by_cases hi : i < w
  · rw [if_pos ⟨by omega, by omega⟩, Nat.add_sub_cancel]
    simp [hi]
  · have hvb : v.toNat.testBit i = false :=
      Nat.testBit_eq_false_of_lt (lt_of_lt_of_le hv (Nat.pow_le_pow_right (by decide) (by omega)))
    simp [hi, hvb]

theorem getField_setField_of_disjoint (hmask : mask.toNat = 2 ^ w - 1) (hw : 0 < w)
    (hv : v.toNat < 2 ^ w) (hsh : sh.toNat + w ≤ 8) (hsh' : sh'.toNat + w ≤ 8)
    (hd : sh.toNat + w ≤ sh'.toNat ∨ sh'.toNat + w ≤ sh.toNat) :
    getField (setField b sh mask v) sh' mask = getField b sh' mask := by
  apply UInt8.toNat_inj.1
  apply Nat.eq_of_testBit_eq
  intro i
  rw [testBit_toNat_getField hmask (by omega), testBit_toNat_getField hmask (by omega),
    testBit_toNat_setField hmask hw hv hsh]
  by_cases hi : i < w
  · rw [if_neg (by omega)]
  · simp [hi]

end Field

end Bytes

end NeonStorage
