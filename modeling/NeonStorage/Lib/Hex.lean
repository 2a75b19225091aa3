import Mathlib
import NeonStorage.Lib.Text
/-!
# Hexadecimal text

Rust writes an unsigned integer in hexadecimal with `{:0wX}` and reads it back with
`from_str_radix(s, 16)`.  For a value of a type whose width is `w` hexadecimal digits, the
format gives exactly `w` upper-case digits (`hexDigits`).  The reader accepts digits of either
case, any number of leading zeros and a leading `+` (`fromStrRadix16`), and fails on an empty
string, a lone sign, any other character, and a value too large for the type.

`fromStrRadix16_hexDigits` is the round trip.  Nothing here refers to the repository.
-/

namespace NeonStorage

namespace Hex

/-- The upper-case digits, in the order of their values. -/
def upperDigits : List Char := "0123456789ABCDEF".toList

/-- The upper-case digit of `d`, for `d < 16`. -/
def hexDigit (d : ℕ) : Char := upperDigits.getD d '0'

/-- `n` as exactly `w` upper-case hexadecimal digits, most significant first: what `{:0wX}`
writes for a value below `16 ^ w`. -/
def hexDigits : ℕ → ℕ → List Char
  | 0, _ => []
  | w + 1, n => hexDigits w (n / 16) ++ [hexDigit (n % 16)]

/-- `char::to_digit(16)`: the value of a hexadecimal digit of either case. -/
def digitValue (c : Char) : Option ℕ :=
  if '0' ≤ c ∧ c ≤ '9' then some (c.toNat - '0'.toNat)
  else if 'a' ≤ c ∧ c ≤ 'f' then some (c.toNat - 'a'.toNat + 10)
  else if 'A' ≤ c ∧ c ≤ 'F' then some (c.toNat - 'A'.toNat + 10)
  else none

/-- The value of the digits after the value `acc` read so far, most significant first. -/
def digitsValueFrom (acc : ℕ) : List Char → Option ℕ
  | [] => some acc
  | c :: cs => (digitValue c).bind fun d => digitsValueFrom (acc * 16 + d) cs

/-- The digits of `from_str_radix` read as a number of at most `bits` bits.  The code checks
each step for overflow; since the value only grows, that fails exactly when the whole value is
too large. -/
def radixValue (bits : ℕ) (digits : List Char) : Option ℕ :=
  (digitsValueFrom 0 digits).filter fun v => v < 2 ^ bits

/-- `u{bits}::from_str_radix(s, 16)`, with its error dropped. -/
def fromStrRadix16 (bits : ℕ) : List Char → Option ℕ
  | [] => none
  | ['+'] => none
  | '+' :: digits => radixValue bits digits
  | digits => radixValue bits digits

/-! ## Digits -/

theorem digitValue_hexDigit {d : ℕ} (hd : d < 16) : digitValue (hexDigit d) = some d := by
  interval_cases d <;> rfl

theorem hexDigit_mem (d : ℕ) (hd : d < 16) : hexDigit d ∈ upperDigits := by
  interval_cases d <;> decide

theorem upperDigits_eq : upperDigits =
    ['0', '1', '2', '3', '4', '5', '6', '7', '8', '9', 'A', 'B', 'C', 'D', 'E', 'F'] := by
  decide

theorem hexDigit_val_le (d : ℕ) : (hexDigit d).val ≤ 127 := by
  by_cases h : d < 16
  · interval_cases d <;> decide
  · rw [hexDigit, List.getD_eq_default _ _ (by simp [upperDigits_eq]; omega)]
    decide

/-- What {:0wX} writes is ASCII, one byte a character. -/
theorem isAscii_hexDigits : ∀ w n, Text.IsAscii (hexDigits w n)
  | 0, _ => List.forall_mem_nil _
  | w + 1, n => by
    rw [hexDigits, Text.IsAscii.append, Text.IsAscii.cons]
    exact ⟨isAscii_hexDigits w _, hexDigit_val_le _, List.forall_mem_nil _⟩

theorem length_hexDigits : ∀ w n, (hexDigits w n).length = w
  | 0, _ => rfl
  | w + 1, n => by rw [hexDigits, List.length_append, length_hexDigits w, List.length_singleton]

theorem mem_hexDigits {c : Char} : ∀ {w n : ℕ}, c ∈ hexDigits w n → c ∈ upperDigits
  | 0, _, h => absurd h List.not_mem_nil
  | w + 1, n, h => by
    rw [hexDigits, List.mem_append, List.mem_singleton] at h
    rcases h with h | rfl
    · exact mem_hexDigits h
    · exact hexDigit_mem _ (Nat.mod_lt _ (by decide))

/-- No upper-case digit is a sign or any other character `c` that is not a digit. -/
theorem not_mem_hexDigits {c : Char} (hc : c ∉ upperDigits) (w n : ℕ) : c ∉ hexDigits w n :=
  fun h => hc (mem_hexDigits h)

theorem digitsValueFrom_append (acc : ℕ) (l : List Char) (c : Char) :
    digitsValueFrom acc (l ++ [c]) =
      (digitsValueFrom acc l).bind fun v => (digitValue c).map fun d => v * 16 + d := by
  induction l generalizing acc with
  | nil =>
    simp only [List.nil_append, digitsValueFrom, Option.bind_some]
    cases digitValue c <;> rfl
  | cons a l ih =>
    simp only [List.cons_append, digitsValueFrom]
    cases digitValue a with
    | none => rfl
    | some d => exact ih _

/-- Reading `w` digits written for `n` gives `n` modulo `16 ^ w`, after what was read before. -/
theorem digitsValueFrom_hexDigits (acc : ℕ) :
    ∀ w n, digitsValueFrom acc (hexDigits w n) = some (acc * 16 ^ w + n % 16 ^ w)
  | 0, n => by simp [hexDigits, digitsValueFrom, Nat.mod_one]
  | w + 1, n => by
    rw [hexDigits, digitsValueFrom_append, digitsValueFrom_hexDigits acc w (n / 16),
      Option.bind_some, digitValue_hexDigit (Nat.mod_lt _ (by decide)), Option.map_some]
    congr 1
    -- the low digit goes below the digits of `n / 16`
    rw [pow_succ, Nat.mul_comm (16 ^ w) 16, Nat.mod_mul]
    ring

/-- A character that is not a digit makes the reading fail. -/
theorem digitsValueFrom_eq_none {c : Char} (hc : digitValue c = none) :
    ∀ {acc : ℕ} {l : List Char}, c ∈ l → digitsValueFrom acc l = none
  | _, [], h => absurd h List.not_mem_nil
  | acc, a :: l, h => by
    rcases List.mem_cons.1 h with rfl | h
    · rw [digitsValueFrom, hc, Option.bind_none]
    · rw [digitsValueFrom]
      cases digitValue a with
      | none => rfl
      | some d => exact digitsValueFrom_eq_none hc h

/-! ## `from_str_radix` -/

/-- A string that does not start with `+` is read as digits. -/
theorem fromStrRadix16_of_ne_plus {bits : ℕ} {c : Char} (hc : c ≠ '+') (cs : List Char) :
    fromStrRadix16 bits (c :: cs) = radixValue bits (c :: cs) := by
  cases cs <;> simp [fromStrRadix16, hc]

/-- A leading `+` is skipped. -/
theorem fromStrRadix16_plus {bits : ℕ} {cs : List Char} (hcs : cs ≠ []) :
    fromStrRadix16 bits ('+' :: cs) = radixValue bits cs := by
  obtain ⟨d, ds, rfl⟩ := List.exists_cons_of_ne_nil hcs
  rfl

/-- `from_str_radix` reads back what `{:0wX}` wrote. -/
theorem radixValue_hexDigits {bits w n : ℕ} (hn : n < 2 ^ bits) (hw : n < 16 ^ w) :
    radixValue bits (hexDigits w n) = some n := by
  rw [radixValue, digitsValueFrom_hexDigits, Nat.zero_mul, Nat.zero_add, Nat.mod_eq_of_lt hw,
    Option.filter_some, decide_eq_true hn, if_pos rfl]

theorem fromStrRadix16_hexDigits {bits w n : ℕ} (hpos : 0 < w) (hn : n < 2 ^ bits)
    (hw : n < 16 ^ w) : fromStrRadix16 bits (hexDigits w n) = some n := by
  obtain ⟨c, cs, hcs⟩ := List.exists_cons_of_ne_nil
    (List.ne_nil_of_length_pos (by rw [length_hexDigits]; exact hpos) : hexDigits w n ≠ [])
  have hc : c ≠ '+' := fun h =>
    not_mem_hexDigits (c := '+') (by decide) w n (hcs ▸ h ▸ List.mem_cons_self)
  rw [hcs, fromStrRadix16_of_ne_plus hc, ← hcs, radixValue_hexDigits hn hw]

theorem fromStrRadix16_hexDigits_uInt8 (x : UInt8) :
    fromStrRadix16 8 (hexDigits 2 x.toNat) = some x.toNat :=
  fromStrRadix16_hexDigits (by decide) x.toNat_lt (by simpa using x.toNat_lt)

theorem fromStrRadix16_hexDigits_uInt32 (x : UInt32) :
    fromStrRadix16 32 (hexDigits 8 x.toNat) = some x.toNat :=
  fromStrRadix16_hexDigits (by decide) x.toNat_lt (by simpa using x.toNat_lt)

/-- A character other than a digit, after any leading `+`, makes `from_str_radix` fail. -/
theorem fromStrRadix16_eq_none {bits : ℕ} {c : Char} (hc : digitValue c = none) (hplus : c ≠ '+')
    {s : List Char} (hs : c ∈ s) : fromStrRadix16 bits s = none := by
  match s, hs with
  | d :: ds, hs =>
    by_cases hd : d = '+'
    · subst hd
      have hmem : c ∈ ds := (List.mem_cons.1 hs).resolve_left hplus
      rw [fromStrRadix16_plus (List.ne_nil_of_mem hmem), radixValue,
        digitsValueFrom_eq_none hc hmem, Option.filter_none]
    · rw [fromStrRadix16_of_ne_plus hd, radixValue, digitsValueFrom_eq_none hc hs,
        Option.filter_none]

end Hex

end NeonStorage
