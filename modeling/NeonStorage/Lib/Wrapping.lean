import Mathlib
/-!
# Wrapping arithmetic on machine words

Rust's `wrapping_add` and `wrapping_sub` on `u32` are Lean's `+` and `-` on `UInt32`; a cast
`as i32` reads the same bits as a signed word; a mask `& !(m - 1)` with `m` a power of two
clears the low bits; `(a << i) | b` with `b` below bit `i` is `a * 2 ^ i + b`.  This file
gives each of them as arithmetic on `toNat`, and the split of a `u64` into the high and low
`u32` halves that `>> 32`, `as u32` and `(hi << 32) | lo as u64` compute.

It also gives the modular order on 32-bit words of RFC 1982, which PostgreSQL's
`TransactionIdFollows` computes as `(a - b) as i32 > 0`: `a` follows `b` when it lies less
than half the circle of words ahead of it (`Follows`, `follows_iff_toInt32_pos`).  Nothing here
refers to the repository.
-/

namespace NeonStorage

namespace Wrapping

/-! ## Masks and signed reads -/

/-- `x as i32 > 0`: the word is positive and below half the circle. -/
theorem toInt32_pos_iff (x : UInt32) : 0 < x.toInt32 ↔ 0 < x.toNat ∧ x.toNat < 2 ^ 31 := by
  rw [Int32.lt_iff_toInt_lt]
  change (0 : ℤ) < x.toBitVec.toInt ↔ _
  rw [BitVec.toInt_eq_toNat_cond]
  have hlt := x.toNat_lt
  simp only [UInt32.toNat_toBitVec]
  split <;> omega

/-- `x as i32 < 0`: the word lies in the upper half of the circle. -/
theorem toInt32_neg_iff (x : UInt32) : x.toInt32 < 0 ↔ 2 ^ 31 ≤ x.toNat := by
  rw [Int32.lt_iff_toInt_lt]
  change x.toBitVec.toInt < (0 : ℤ) ↔ _
  rw [BitVec.toInt_eq_toNat_cond]
  have hlt := x.toNat_lt
  simp only [UInt32.toNat_toBitVec]
  split <;> omega

/-! ## The modular order -/

/-- `a` follows `b`: it lies ahead of `b` by less than half the circle of words. -/
def Follows (a b : UInt32) : Prop := 0 < (a - b).toNat ∧ (a - b).toNat < 2 ^ 31

instance (a b : UInt32) : Decidable (Follows a b) := inferInstanceAs (Decidable (_ ∧ _))

/-- `a` follows or equals `b`. -/
def FollowsOrEquals (a b : UInt32) : Prop := (a - b).toNat < 2 ^ 31

instance (a b : UInt32) : Decidable (FollowsOrEquals a b) := inferInstanceAs (Decidable (_ < _))

/-- PostgreSQL's `TransactionIdFollows` test computes the modular order. -/
theorem follows_iff_toInt32_pos (a b : UInt32) : Follows a b ↔ 0 < (a - b).toInt32 :=
  (toInt32_pos_iff _).symm

theorem not_follows_self (a : UInt32) : ¬Follows a a := by
  simp [Follows]

/-! ## Fields packed side by side -/

/-- A field of `m` bits put above one of `n` bits fits in `m + n` bits. -/
theorem mul_two_pow_add_lt {a b m n : ℕ} (ha : a < 2 ^ m) (hb : b < 2 ^ n) :
    a * 2 ^ n + b < 2 ^ (m + n) :=
  calc a * 2 ^ n + b < (a + 1) * 2 ^ n := by rw [Nat.succ_mul]; omega
    _ ≤ 2 ^ m * 2 ^ n := Nat.mul_le_mul_right _ ha
    _ = 2 ^ (m + n) := (Nat.pow_add 2 m n).symm

/-- `(a << i) | b` with `b` below bit `i` puts `a` above `b` without overlap. -/
theorem shiftLeft_or_eq_add {a b i : ℕ} (hb : b < 2 ^ i) : a <<< i ||| b = a * 2 ^ i + b := by
  rw [← Nat.shiftLeft_add_eq_or_of_lt hb, Nat.shiftLeft_eq]

/-! ## The halves of a 64-bit word -/

/-- `v >> 32`: the high half. -/
theorem toNat_shiftRight_32 (v : UInt64) : (v >>> 32).toNat = v.toNat / 2 ^ 32 := by
  simp [UInt64.toNat_shiftRight, Nat.shiftRight_eq_div_pow]

/-- `(hi << 32) | lo as u64`: the high half loses what does not fit in 32 bits. -/
theorem toNat_shiftLeft_32_or (hi : UInt64) (lo : UInt32) :
    ((hi <<< 32) ||| lo.toUInt64).toNat = hi.toNat % 2 ^ 32 * 2 ^ 32 + lo.toNat := by
  simp only [UInt64.toNat_or, UInt64.toNat_shiftLeft, UInt32.toNat_toUInt64]
  rw [show (32 : UInt64).toNat % 64 = 32 from rfl, Nat.shiftLeft_eq,
    show (2 : ℕ) ^ 64 = 2 ^ 32 * 2 ^ 32 by norm_num, Nat.mul_mod_mul_right, ← Nat.shiftLeft_eq,
    Nat.shiftLeft_add_eq_or_of_lt lo.toNat_lt]

theorem toUInt32_shiftLeft_32_or (hi : UInt64) (lo : UInt32) :
    ((hi <<< 32) ||| lo.toUInt64).toUInt32 = lo := by
  apply UInt32.toNat_inj.1
  rw [UInt64.toNat_toUInt32, toNat_shiftLeft_32_or]
  have hlo := lo.toNat_lt
  omega

theorem shiftRight_32_shiftLeft_32_or (hi : UInt64) (lo : UInt32) :
    (((hi <<< 32) ||| lo.toUInt64) >>> 32).toNat = hi.toNat % 2 ^ 32 := by
  rw [toNat_shiftRight_32, toNat_shiftLeft_32_or]
  have hlo := lo.toNat_lt
  omega

end Wrapping

end NeonStorage
