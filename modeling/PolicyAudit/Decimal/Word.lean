-- SUMMARY: Decimal numerals of 64 bits.

/-! ## Numerals of 64 bits

A numeral is a row of decimal digits, with or without a plus sign before them, whose value is below
`2 ^ 64`. A text that is none is refused at the first character that makes it so. -/

namespace PolicyAudit.Decimal

/-- Why a text is no numeral of 64 bits. -/
inductive WordFault where
  | empty
  | invalidDigit
  | tooLarge
deriving DecidableEq, Repr

/-- The message for a fault. -/
def WordFault.message : WordFault → String
  | empty => "cannot parse integer from empty string"
  | invalidDigit => "invalid digit found in string"
  | tooLarge => "number too large to fit in target type"

/-- The value of the digits after those that make `value`. -/
def wordOfDigits (value : Nat) : List Char → Except WordFault Nat
  | [] => .ok value
  | c :: rest =>
    if c.isDigit then
      let next := value * 10 + (c.toNat - '0'.toNat)
      if next < 0x10000000000000000 then wordOfDigits next rest else .error .tooLarge
    else .error .invalidDigit

/-- The value of a numeral. -/
def word : List Char → Except WordFault Nat
  | [] => .error .empty
  | '+' :: c :: rest => wordOfDigits 0 (c :: rest)
  | digits => wordOfDigits 0 digits

end PolicyAudit.Decimal
