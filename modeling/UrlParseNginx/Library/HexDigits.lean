import UrlParseNginx.Library.Ascii

/-!
Hex digits as escapes have them: read in either case, written in upper case.
-/
namespace PercentCoding
open Ascii

/-- The value of a hex digit of either case. -/
def hexValue (b : UInt8) : Option UInt8 :=
  if 0x30 ≤ b ∧ b ≤ 0x39 then some (b - 0x30)
  else if 0x41 ≤ b ∧ b ≤ 0x46 then some (b - 0x41 + 10)
  else if 0x61 ≤ b ∧ b ≤ 0x66 then some (b - 0x61 + 10)
  else none

/-- An upper-case hex digit. -/
def hexDigit (n : UInt8) : UInt8 := if n < 10 then 0x30 + n else 0x41 + (n - 10)

theorem hexValue_hexDigit (n : UInt8) (hn : n < 16) : hexValue (hexDigit n) = some n := by
  revert hn
  apply forall_byte (P := fun n => n < 16 → hexValue (hexDigit n) = some n)
  decide +kernel

theorem split_byte (b : UInt8) : b / 16 < 16 ∧ b % 16 < 16 ∧ b / 16 * 16 + b % 16 = b := by
  apply forall_byte (P := fun b => b / 16 < 16 ∧ b % 16 < 16 ∧ b / 16 * 16 + b % 16 = b)
  decide +kernel

end PercentCoding
