import Shading.Binary64.Basic

/-!
# Decimal text of double-precision numbers

Every finite number is a whole count of `10⁻¹⁰⁷⁴`, so decimals are compared with numbers by exact
arithmetic on such counts. A decimal reads back as the number nearest to it, and of two nearest
numbers as the one with the even magnitude. `shortest` is the decimal of fewest digits that reads
back as a given number; of two such decimals it is the nearer one and, at equal distance, the
larger one. Numbers are displayed by it. The literal of a whole number is its exact value to one
decimal instead, as a whole number is displayed without a point. Text never has an exponent.
-/

namespace Shading.Binary64

/-- The number of decimal places of a count. -/
def places : Nat :=
  1074

/-- The number of a finite magnitude, as a count of `10⁻¹⁰⁷⁴`. -/
def exactCount (magnitude : Nat) : Nat :=
  units magnitude * Nat.pow 5 places

/-- Whether a count of `10⁻¹⁰⁷⁴` reads back as the number of a magnitude: it lies between the
midpoints to the neighbouring numbers, which are included for an even magnitude. -/
def readsAs (magnitude count : Nat) : Bool :=
  let below := exactCount (magnitude - 1) + exactCount magnitude
  let above := exactCount magnitude + exactCount (magnitude + 1)
  if magnitude % 2 = 0 then below ≤ 2 * count && 2 * count ≤ above
  else below < 2 * count && 2 * count < above

/-- The nearer of the two multiples of a power of ten next to a number that reads back as it. -/
def onGrid? (magnitude exponent : Nat) : Option Nat :=
  let exact := exactCount magnitude
  let step := Nat.pow 10 exponent
  let lower := exact / step * step
  let upper := lower + step
  match readsAs magnitude lower, readsAs magnitude upper with
  | true, true => some (if exact - lower < upper - exact then lower else upper)
  | true, false => some lower
  | false, true => some upper
  | false, false => none

/-- The number of decimal digits. -/
def digitCount (count : Nat) : Nat :=
  (Nat.toDigits 10 count).length

/-- The decimal of fewest digits that reads back as the number of a magnitude, as a count of
`10⁻¹⁰⁷⁴`. Seventeen digits are enough for every number. -/
def shortest (magnitude : Nat) : Nat :=
  let width := digitCount (exactCount magnitude)
  let grids := (List.range 17).map fun dropped => width - (dropped + 1)
  (grids.findSome? (onGrid? magnitude)).getD (exactCount magnitude)

/-- The digits before the point of a count of `10⁻¹⁰⁷⁴`. -/
def wholeDigits (count : Nat) : List Char :=
  Nat.toDigits 10 (count / Nat.pow 10 places)

/-- The digits after the point of a count of `10⁻¹⁰⁷⁴`, without zeros at the end. -/
def fractionDigits (count : Nat) : List Char :=
  let digits := Nat.toDigits 10 (count % Nat.pow 10 places)
  let padded := List.replicate (places - digits.length) '0' ++ digits
  (padded.reverse.dropWhile (· == '0')).reverse

/-- The sign before the digits. -/
def signDigits (number : Binary64) : List Char :=
  if number.isNegative then ['-'] else []

/-- The shortest text that reads back, with a point only where digits follow it. -/
def display (number : Binary64) : String :=
  if number.isNaN then "NaN"
  else
    let body :=
      if number.isFinite then
        let count := shortest number.magnitude
        let fraction := fractionDigits count
        wholeDigits count ++ (if fraction.isEmpty then [] else '.' :: fraction)
      else "inf".toList
    .ofList (number.signDigits ++ body)

/-- A count of `10⁻¹⁰⁷⁴`, rounded to a count of tenths. A tie goes to the even one. -/
def tenths (count : Nat) : Nat :=
  let step := Nat.pow 10 (places - 1)
  let lower := count / step
  let rest := count % step
  if 2 * rest < step || (2 * rest == step && lower % 2 == 0) then lower else lower + 1

/-- The exact value of a finite number, rounded to one digit after the point. -/
def oneDecimal (number : Binary64) : String :=
  let rounded := tenths (exactCount number.magnitude)
  .ofList (number.signDigits ++ Nat.toDigits 10 (rounded / 10) ++
    '.' :: Nat.toDigits 10 (rounded % 10))

/-- The text of a literal. A whole number is written with the digit zero after the point, any
other number as it is displayed. -/
def literal? (number : Binary64) : Option String :=
  if number.isFinite then
    some (if isIntegral number.magnitude then number.oneDecimal else number.display)
  else none

end Shading.Binary64
