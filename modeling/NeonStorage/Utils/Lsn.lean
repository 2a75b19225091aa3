import NeonStorage.Lib.Hex
import NeonStorage.Lib.Wrapping

/-!
# LSNs as text

An `Lsn` is a 64-bit position in the WAL.  It is shown as its high and its low 32-bit halves in
upper-case hexadecimal, without leading zeros, with a `/` between them, as PostgreSQL shows a
WAL position (`impl Display for Lsn`, `libs/utils/src/lsn.rs`).  `FromStr` trims the text,
cuts it at `/`, and reads each of the two pieces with `u32::from_str_radix(_, 16)`.

Reading back what `Display` wrote gives the same LSN (`fromStr_display`): the text has no
white space to trim, exactly one `/`, and each half has at least one digit and fits in 32
bits.

WAL records start at multiples of 8; `align` and `isAligned` are `Lsn::align` and
`Lsn::is_aligned`.
-/

namespace NeonStorage

namespace Lsn

/-- `char::is_whitespace`: the characters of Unicode's `White_Space` property. -/
def isWhitespace (c : Char) : Bool :=
  let n := c.toNat
  (0x09 ≤ n && n ≤ 0x0D) || n == 0x20 || n == 0x85 || n == 0xA0 || n == 0x1680 ||
    (0x2000 ≤ n && n ≤ 0x200A) || n == 0x2028 || n == 0x2029 || n == 0x202F || n == 0x205F ||
    n == 0x3000

/-- `str::trim`. -/
def trim (s : List Char) : List Char :=
  ((s.dropWhile isWhitespace).reverse.dropWhile isWhitespace).reverse

/-- `{:X}`: upper-case hexadecimal digits without leading zeros. -/
def hexUpper (n : ℕ) : List Char := Hex.hexDigits (Nat.log 16 n + 1) n

/-- `impl Display for Lsn`: `{:X}/{:X}` of the high and the low half. -/
def display (lsn : UInt64) : List Char :=
  hexUpper (lsn >>> 32).toNat ++ '/' :: hexUpper (lsn &&& 0xffffffff).toNat

/-- `impl FromStr for Lsn`; `none` is `LsnParseError`. -/
def fromStr (s : List Char) : Option UInt64 :=
  match (trim s).splitOn '/' with
  | [left, right] => do
    let leftNum ← Hex.fromStrRadix16 32 left
    let rightNum ← Hex.fromStrRadix16 32 right
    pure ((UInt64.ofNat leftNum <<< 32) ||| UInt64.ofNat rightNum)
  | _ => none

/-- `Lsn::align`: the LSN rounded up to a multiple of 8, the alignment of WAL records, in
wrapping `u64` arithmetic. -/
def align (lsn : UInt64) : UInt64 := (lsn + 7) &&& ~~~7

/-- `Lsn::is_aligned`. -/
def isAligned (lsn : UInt64) : Bool := lsn == align lsn

/-! ## Reading back what `Display` wrote -/

theorem isWhitespace_of_mem_upperDigits {c : Char} (hc : c ∈ Hex.upperDigits) :
    isWhitespace c = false := by
  rw [Hex.upperDigits_eq] at hc
  fin_cases hc <;> rfl

theorem slash_not_mem_hexUpper (n : ℕ) : '/' ∉ hexUpper n :=
  Hex.not_mem_hexDigits (by decide) _ n

theorem hexUpper_ne_nil (n : ℕ) : hexUpper n ≠ [] :=
  List.ne_nil_of_length_pos (by rw [hexUpper, Hex.length_hexDigits]; omega)

theorem fromStrRadix16_hexUpper {n : ℕ} (hn : n < 2 ^ 32) :
    Hex.fromStrRadix16 32 (hexUpper n) = some n :=
  Hex.fromStrRadix16_hexDigits (Nat.succ_pos _) hn (Nat.lt_pow_succ_log_self (by decide) n)

/-- A text that starts and ends with characters that are no white space is its own trim. -/
theorem trim_of_ends {s : List Char} (hne : s ≠ []) (hhead : isWhitespace (s.head hne) = false)
    (hlast : isWhitespace (s.getLast hne) = false) : trim s = s := by
  have hfront : s.dropWhile isWhitespace = s := List.dropWhile_eq_self_iff.2 fun hl => by
    rw [List.getElem_zero]
    simpa using hhead
  have hback : s.reverse.dropWhile isWhitespace = s.reverse :=
    List.dropWhile_eq_self_iff.2 fun hl => by
      rw [List.getElem_zero, List.head_reverse]
      simpa using hlast
  rw [trim, hfront, hback, List.reverse_reverse]

/-- Digits, a `/` and digits: no white space at either end. -/
theorem trim_digits_slash_digits {hi lo : List Char} (hhi : hi ≠ []) (hlo : lo ≠ [])
    (hhiDigits : ∀ c ∈ hi, c ∈ Hex.upperDigits) (hloDigits : ∀ c ∈ lo, c ∈ Hex.upperDigits) :
    trim (hi ++ '/' :: lo) = hi ++ '/' :: lo := by
  have hne : hi ++ '/' :: lo ≠ [] := by simp
  apply trim_of_ends hne
  · rw [List.head_append_of_ne_nil hhi]
    exact isWhitespace_of_mem_upperDigits (hhiDigits _ (List.head_mem hhi))
  · rw [List.getLast_append_of_ne_nil _ (List.cons_ne_nil _ _), List.getLast_cons hlo]
    exact isWhitespace_of_mem_upperDigits (hloDigits _ (List.getLast_mem hlo))

/-- `Display` writes no white space at either end: it starts and ends with a digit. -/
theorem trim_display (lsn : UInt64) : trim (display lsn) = display lsn :=
  trim_digits_slash_digits (hexUpper_ne_nil _) (hexUpper_ne_nil _) (fun _ => Hex.mem_hexDigits)
    (fun _ => Hex.mem_hexDigits)

/-- `Display` puts one `/` between two pieces of digits. -/
theorem splitOn_display (lsn : UInt64) :
    (display lsn).splitOn '/' = [hexUpper (lsn >>> 32).toNat, hexUpper (lsn &&& 0xffffffff).toNat] := by
  rw [Text.splitOn_eq_iff]
  refine ⟨List.cons_ne_nil _ _, fun l hl => ?_, by simp [display]⟩
  rcases List.mem_pair.mp hl with rfl | rfl <;> exact slash_not_mem_hexUpper _

/-- A value below `2 ^ 32` put in the low half under a high half. -/
theorem toNat_ofNat_shiftLeft_32_or {hi lo : ℕ} (hhi : hi < 2 ^ 64) (hlo : lo < 2 ^ 32) :
    ((UInt64.ofNat hi <<< 32) ||| UInt64.ofNat lo).toNat = hi % 2 ^ 32 * 2 ^ 32 + lo := by
  have hlo64 : UInt64.ofNat lo = (UInt32.ofNat lo).toUInt64 := by
    apply UInt64.toNat_inj.1
    rw [UInt64.toNat_ofNat', UInt32.toNat_toUInt64, UInt32.toNat_ofNat', Nat.mod_eq_of_lt (by omega),
      Nat.mod_eq_of_lt hlo]
  rw [hlo64, Wrapping.toNat_shiftLeft_32_or, UInt64.toNat_ofNat', UInt32.toNat_ofNat',
    Nat.mod_eq_of_lt hhi, Nat.mod_eq_of_lt hlo]

/-- `FromStr` reads back the LSN that `Display` wrote. -/
theorem fromStr_display (lsn : UInt64) : fromStr (display lsn) = some lsn := by
  have hv := lsn.toNat_lt
  have hhi : (lsn >>> 32).toNat < 2 ^ 32 := by
    rw [Wrapping.toNat_shiftRight_32]
    omega
  have hlo : (lsn &&& 0xffffffff).toNat = lsn.toNat % 2 ^ 32 := by
    rw [UInt64.toNat_and]
    exact Nat.and_two_pow_sub_one_eq_mod _ 32
  rw [fromStr, trim_display, splitOn_display]
  simp only [fromStrRadix16_hexUpper hhi, fromStrRadix16_hexUpper (hlo ▸ Nat.mod_lt _ (by decide)),
    Option.pure_def, Option.bind_eq_bind, Option.bind_some]
  congr 1
  apply UInt64.toNat_inj.1
  rw [toNat_ofNat_shiftLeft_32_or (by omega) (hlo ▸ Nat.mod_lt _ (by decide)), hlo,
    Wrapping.toNat_shiftRight_32]
  omega

end Lsn

end NeonStorage
