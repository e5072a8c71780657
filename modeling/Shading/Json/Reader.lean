import Shading.Json.Basic

/-!
# Reading JSON text

The strict grammar: one value with blanks around it, no leading zeros, no control characters in
strings. Every reader takes the characters that are left and gives those that it leaves.
-/

namespace Shading.Json

/-- The characters after leading blanks. -/
def skipBlanks (text : List Char) : List Char :=
  text.dropWhile fun c => c == ' ' || c == '\n' || c == '\t' || c == '\r'

/-! ### Numbers -/

/-- One or more digits, and the characters after them. -/
def digits? (text : List Char) : Option (List Char × List Char) :=
  match text.takeWhile Char.isDigit with
  | [] => none
  | digits => some (digits, text.dropWhile Char.isDigit)

/-- The value of digits, given the value of those before. -/
def digitsValue (digits : List Char) (value : Nat) : Nat :=
  digits.foldl (fun value c => value * 10 + (c.toNat - '0'.toNat)) value

/-- The digits of the whole part of a number; only zero starts with the digit zero. -/
def whole? : List Char → Option (List Char × List Char)
  | '0' :: rest => some (['0'], rest)
  | text => digits? text

/-- The digits of a fraction, or none if there is no point. -/
def fraction? : List Char → Option (List Char × List Char)
  | '.' :: rest => digits? rest
  | text => some ([], text)

/-- The value of an exponent, or zero if there is no exponent. -/
def exponent? : List Char → Option (Int × List Char)
  | 'e' :: '-' :: rest | 'E' :: '-' :: rest =>
    (digits? rest).map fun (digits, rest) => (-(digitsValue digits 0 : Int), rest)
  | 'e' :: '+' :: rest | 'E' :: '+' :: rest | 'e' :: rest | 'E' :: rest =>
    (digits? rest).map fun (digits, rest) => ((digitsValue digits 0 : Int), rest)
  | text => some (0, text)

/-- A number at the start of a text. -/
def number? (text : List Char) : Option (Number × List Char) := do
  let negative := text.head? = some '-'
  let (whole, rest) ← whole? (if negative then text.tail else text)
  let (fraction, rest) ← fraction? rest
  let (exponent, rest) ← exponent? rest
  let digits := digitsValue fraction (digitsValue whole 0)
  return ({ negative, digits, exponent := exponent - fraction.length }, rest)

/-! ### Strings -/

/-- A part of a string. -/
inductive Piece where
  | char (value : Char)
  /-- A code unit that is given by its number. -/
  | unit (value : Nat)

/-- The value of a hexadecimal digit. -/
def hexDigit? (c : Char) : Option Nat :=
  if c.isDigit then some (c.toNat - '0'.toNat)
  else if 'a' ≤ c ∧ c ≤ 'f' then some (c.toNat - 'a'.toNat + 10)
  else if 'A' ≤ c ∧ c ≤ 'F' then some (c.toNat - 'A'.toNat + 10)
  else none

/-- The value of hexadecimal digits, given the value of those before. -/
def hexNumber? : List Char → Nat → Option Nat
  | [], value => some value
  | c :: rest, value => do hexNumber? rest (value * 16 + (← hexDigit? c))

/-- The character of an escape by one letter. -/
def escape? : Char → Option Char
  | '"' => some '"'
  | '\\' => some '\\'
  | '/' => some '/'
  | 'b' => some '\x08'
  | 'f' => some '\x0c'
  | 'n' => some '\n'
  | 'r' => some '\r'
  | 't' => some '\t'
  | _ => none

/-- The parts of a string up to its closing quote, and the characters after it. -/
def pieces? : List Char → Option (List Piece × List Char)
  | [] => none
  | '"' :: rest => some ([], rest)
  | '\\' :: 'u' :: a :: b :: c :: d :: rest => do
    let value ← hexNumber? [a, b, c, d] 0
    let (pieces, left) ← pieces? rest
    return (.unit value :: pieces, left)
  | '\\' :: c :: rest => do
    let value ← escape? c
    let (pieces, left) ← pieces? rest
    return (.char value :: pieces, left)
  | c :: rest =>
    if c.toNat < 0x20 ∨ c = '\\' then none
    else do
      let (pieces, left) ← pieces? rest
      return (.char c :: pieces, left)

/-- Whether a code unit is the first of a pair. -/
def isLeading (unit : Nat) : Bool :=
  0xD800 ≤ unit && unit < 0xDC00

/-- Whether a code unit is the second of a pair. -/
def isTrailing (unit : Nat) : Bool :=
  0xDC00 ≤ unit && unit < 0xE000

/-- The characters of the parts of a string, if every code unit of a pair has its partner. -/
def characters? : List Piece → Option (List Char)
  | [] => some []
  | .char c :: rest => (characters? rest).map (c :: ·)
  | .unit unit :: rest =>
    if isLeading unit then
      match rest with
      | .unit next :: rest =>
        if isTrailing next then
          let code := 0x10000 + (unit - 0xD800) * 0x400 + (next - 0xDC00)
          (characters? rest).map (Char.ofNat code :: ·)
        else none
      | _ => none
    else if isTrailing unit then none
    else (characters? rest).map (Char.ofNat unit :: ·)

/-- A string after its opening quote, with its text if it has one. -/
def string? (text : List Char) : Option (Option String × List Char) :=
  (pieces? text).map fun (pieces, rest) => ((characters? pieces).map String.ofList, rest)

/-! ### Values -/

mutual

/-- A value at the start of a text, at most so many steps deep. -/
def value? : Nat → List Char → Option (Json × List Char)
  | 0, _ => none
  | steps + 1, text =>
    match skipBlanks text with
    | 'n' :: 'u' :: 'l' :: 'l' :: rest => some (.null, rest)
    | 't' :: 'r' :: 'u' :: 'e' :: rest => some (.bool true, rest)
    | 'f' :: 'a' :: 'l' :: 's' :: 'e' :: rest => some (.bool false, rest)
    | '"' :: rest => (string? rest).map fun (text, rest) => (.string text, rest)
    | '[' :: rest =>
      match skipBlanks rest with
      | ']' :: rest => some (.array [], rest)
      | rest => (items? steps rest).map fun (items, rest) => (.array items, rest)
    | '\x7b' :: rest =>
      match skipBlanks rest with
      | '\x7d' :: rest => some (.object [], rest)
      | rest => (members? steps rest).map fun (members, rest) => (.object members, rest)
    | rest => (number? rest).map fun (value, rest) => (.number value, rest)

/-- The items of an array up to its closing bracket. -/
def items? : Nat → List Char → Option (List Json × List Char)
  | 0, _ => none
  | steps + 1, text => do
    let (item, rest) ← value? steps text
    match skipBlanks rest with
    | ']' :: rest => return ([item], rest)
    | ',' :: rest =>
      let (items, rest) ← items? steps rest
      return (item :: items, rest)
    | _ => none

/-- The members of an object up to its closing brace. -/
def members? : Nat → List Char → Option (List (Option String × Json) × List Char)
  | 0, _ => none
  | steps + 1, text =>
    match skipBlanks text with
    | '"' :: rest => do
      let (name, rest) ← string? rest
      match skipBlanks rest with
      | ':' :: rest =>
        let (value, rest) ← value? steps rest
        match skipBlanks rest with
        | '\x7d' :: rest => return ([(name, value)], rest)
        | ',' :: rest =>
          let (members, rest) ← members? steps rest
          return ((name, value) :: members, rest)
        | _ => none
      | _ => none
    | _ => none

end

/-- The value of a text. A value of `n` characters is at most `2 * n` steps deep. -/
def read? (text : String) : Option Json :=
  match value? (2 * text.length + 2) text.toList with
  | some (value, rest) => if (skipBlanks rest).isEmpty then some value else none
  | none => none

end Shading.Json
