import Mathlib
/-!
# Base64

The standard base64 encoding of RFC 4648, section 4: every three bytes become four characters of
a 64-letter alphabet, six bits each, and a last group of one or two bytes is padded with `=`.
This is what `base64::encode` and `base64::encode_config_buf` write with `base64::STANDARD`.
Nothing here refers to the repository.
-/

namespace NeonStorage

namespace Base64

/-- The 64 letters of the standard alphabet, in the order of the values they stand for. -/
def alphabet : List Char :=
  "ABCDEFGHIJKLMNOPQRSTUVWXYZabcdefghijklmnopqrstuvwxyz0123456789+/".toList

/-- The letter for the low six bits of `v`. -/
def letter (v : ℕ) : Char := alphabet.getD (v % 64) 'A'

/-- `base64::encode` with the standard alphabet and padding. -/
def encode : List UInt8 → List Char
  | a :: b :: c :: rest =>
    let v := a.toNat * 2 ^ 16 + b.toNat * 2 ^ 8 + c.toNat
    [letter (v / 2 ^ 18), letter (v / 2 ^ 12), letter (v / 2 ^ 6), letter v] ++ encode rest
  | [a, b] =>
    let v := a.toNat * 2 ^ 16 + b.toNat * 2 ^ 8
    [letter (v / 2 ^ 18), letter (v / 2 ^ 12), letter (v / 2 ^ 6), '=']
  | [a] =>
    let v := a.toNat * 2 ^ 16
    [letter (v / 2 ^ 18), letter (v / 2 ^ 12), '=', '=']
  | [] => []

example : encode [0x6e, 0x2c, 0x2c] = "biws".toList := by decide

end Base64

end NeonStorage
