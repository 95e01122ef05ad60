-- SUMMARY: The shortest decimal that reads back as a given double, and its layout.

/-! ## Decimals

A finite double other than zero is `m * 2 ^ q` for a natural number `m`. Its shortest decimal has the
fewest digits among the decimals that round to it, and of those it is the one nearest to it. All
comparisons are made exactly, between natural numbers. -/

namespace PolicyAudit

/-- A positive decimal: the number `digits * 10 ^ exponent`. -/
structure Decimal where
  digits : Nat
  exponent : Int
deriving Repr, DecidableEq

namespace Decimal

/-- A positive double, `mantissa * 2 ^ exponent`, with the distance to its lower neighbour. -/
structure Binary where
  mantissa : Nat
  exponent : Int
  /-- The lower neighbour is half as far away as the upper one. -/
  narrowBelow : Bool
deriving Repr, DecidableEq

/-- The double with the given exponent and fraction bits. -/
def Binary.ofBits (exponentBits fractionBits : Nat) : Binary :=
  if exponentBits = 0 then ⟨fractionBits, -1074, false⟩
  else ⟨0x10000000000000 + fractionBits, exponentBits - 1075, fractionBits = 0 ∧ exponentBits ≠ 1⟩

/-- A quotient of natural numbers. -/
structure Ratio where
  num : Nat
  den : Nat

/-- The ratio `n * base ^ exponent`. -/
def Ratio.scaled (n base : Nat) (exponent : Int) : Ratio :=
  if exponent < 0 then ⟨n, base.pow exponent.natAbs⟩ else ⟨n * base.pow exponent.toNat, 1⟩

/-- Whether a ratio is below another. -/
def Ratio.lt (a b : Ratio) : Bool := a.num * b.den < b.num * a.den

/-- Whether a ratio is another or below it. -/
def Ratio.le (a b : Ratio) : Bool := a.num * b.den ≤ b.num * a.den

/-- The reals that round to a double: those between its two midpoints, ends included when the
mantissa is even. All are in quarters of the double's own unit. -/
def Binary.rounds (b : Binary) (d : Decimal) : Bool :=
  let value := Ratio.scaled d.digits 10 d.exponent
  let low := Ratio.scaled (4 * b.mantissa - (if b.narrowBelow then 1 else 2)) 2 (b.exponent - 2)
  let high := Ratio.scaled (4 * b.mantissa + 2) 2 (b.exponent - 2)
  if b.mantissa % 2 = 0 then low.le value && value.le high else low.lt value && value.lt high

/-- The number of decimal digits. -/
def digitCount (n : Nat) : Nat := (Nat.toDigits 10 n).length

/-- The exponent of the leading decimal digit of a positive ratio. -/
def Ratio.leadingExponent (r : Ratio) : Int :=
  if r.den ≤ r.num then digitCount (r.num / r.den) - 1
  else -(digitCount ((r.den - 1) / r.num) : Int)

/-- The double's two neighbours on the decimal grid with the given exponent: the floor, and whether
twice the remainder reaches the grid's unit from below, at it, or above. -/
def Binary.onGrid (b : Binary) (exponent : Int) : Nat × Ordering :=
  let value := Ratio.scaled b.mantissa 2 b.exponent
  let unit := Ratio.scaled 1 10 exponent
  let num := value.num * unit.den
  let den := value.den * unit.num
  (num / den, compare (2 * (num % den)) den)

/-- The nearest of the grid points next to the double that round to it. A point midway gives way to
the even one. -/
def Binary.nearest? (b : Binary) (exponent : Int) : Option Decimal :=
  let (floor, half) := b.onGrid exponent
  let below : Decimal := ⟨floor, exponent⟩
  let above : Decimal := ⟨floor + 1, exponent⟩
  let upFirst := match half with
    | .lt => false
    | .eq => floor % 2 = 1
    | .gt => true
  match 0 < floor && b.rounds below, b.rounds above with
  | true, true => some (if upFirst then above else below)
  | true, false => some below
  | false, true => some above
  | false, false => none

/-- The first hit among the grids of `count` digits and more, at most seventeen. -/
def Binary.shortestFrom (b : Binary) (leading : Int) (count : Nat) : Nat → Decimal
  | 0 => ⟨b.mantissa, 0⟩
  | left + 1 =>
    match b.nearest? (leading - count + 1) with
    | some d => d
    | none => b.shortestFrom leading (count + 1) left

/-- The decimal without its trailing zeros. -/
def trimmed (d : Decimal) : Decimal :=
  let digits := Nat.toDigits 10 d.digits
  let zeros := (digits.reverse.takeWhile (· = '0')).length
  ⟨d.digits / Nat.pow 10 zeros, d.exponent + zeros⟩

/-- The shortest decimal that reads back as a double. -/
def Binary.shortest (b : Binary) : Decimal :=
  (b.shortestFrom (Ratio.scaled b.mantissa 2 b.exponent).leadingExponent 1 17).trimmed

/-! ## Layout -/

/-- How a decimal is laid out. -/
structure Layout where
  /-- The least exponent of the leading digit that is written without an exponent. -/
  least : Int
  /-- The greatest exponent of the leading digit that is written without an exponent. -/
  greatest : Int
  /-- What stands before a written exponent and its sign. -/
  mark : List Char
  /-- The sign of a written exponent that is not negative. -/
  plus : List Char
  /-- What ends a whole number written without an exponent. -/
  wholeEnd : List Char

/-- The text of a decimal under a layout. -/
def Layout.write (layout : Layout) (d : Decimal) : List Char :=
  let digits := Nat.toDigits 10 d.digits
  let leading := d.exponent + (digits.length - 1)
  if layout.least ≤ leading ∧ leading ≤ layout.greatest then
    if 0 ≤ d.exponent then
      digits ++ List.replicate d.exponent.toNat '0' ++ layout.wholeEnd
    else if 0 ≤ leading then
      let whole := (leading + 1).toNat
      digits.take whole ++ '.' :: digits.drop whole
    else '0' :: '.' :: List.replicate (-leading - 1).toNat '0' ++ digits
  else
    let exponent := (if 0 ≤ leading then layout.plus else []) ++ (toString leading).toList
    match digits with
    | [] => []
    | [d] => d :: layout.mark ++ exponent
    | d :: rest => d :: '.' :: rest ++ layout.mark ++ exponent

/-- The text of a double under a layout. A double that is not finite has none. -/
def Layout.writeFloat? (layout : Layout) (x : Float) : Option (List Char) :=
  let bits := x.toBits.toNat
  let sign := if 0x8000000000000000 ≤ bits then ['-'] else []
  let exponentBits := bits / 0x10000000000000 % 0x800
  let fractionBits := bits % 0x10000000000000
  if exponentBits = 0x7FF then none
  else if exponentBits = 0 ∧ fractionBits = 0 then some (sign ++ '0' :: layout.wholeEnd)
  else some (sign ++ layout.write (Binary.ofBits exponentBits fractionBits).shortest)

end Decimal

end PolicyAudit
