/-!
# JSON values

JSON without loss: members of an object stay in order and may repeat a name, a number is the decimal
that is written, with the sign that it has also at zero, and a string that spells half of a
surrogate pair has no text.
-/

namespace Shading

/-- The decimal `± digits * 10 ^ exponent`. -/
structure Json.Number where
  /-- Whether a minus sign stands before the digits. -/
  negative : Bool
  digits : Nat
  exponent : Int
  deriving DecidableEq, Repr, Inhabited

/-- A JSON value. -/
inductive Json where
  | null
  | bool (value : Bool)
  | number (value : Json.Number)
  /-- A string with its text, if it has one. -/
  | string (text : Option String)
  | array (items : List Json)
  /-- An object with its members in order. -/
  | object (members : List (Option String × Json))
  deriving Inhabited

namespace Json

/-- The name that a value stands for: a string, or an object with the name as its only member and
null as its value. -/
def name? : Json → Option String
  | string text => text
  | object [(name, null)] => name
  | _ => none

/-- The text of a string. -/
def text? : Json → Option String
  | string text => text
  | _ => none

/-- Gives every member its name, if all names are texts. -/
def namedMembers? : List (Option String × Json) → Option (List (String × Json))
  | [] => some []
  | (some name, value) :: rest => (namedMembers? rest).map ((name, value) :: ·)
  | (none, _) :: _ => none

/-- The members of a record with given fields. An object gives fields by name and may have other
members, an array gives the first fields in order. -/
def fields? (names : List String) : Json → Option (List (String × Json))
  | object members => (namedMembers? members).map (·.filter fun member => names.contains member.1)
  | array items => if items.length ≤ names.length then some (names.zip items) else none
  | _ => none

/-- The value of a field that is given at most once, or a default if it is not given. -/
def field? {α : Type} (fields : List (String × Json)) (name : String) (read : Json → Option α)
    (default : α) : Option α :=
  match fields.filter fun field => field.1 == name with
  | [] => some default
  | [(_, value)] => read value
  | _ => none

end Json

end Shading
