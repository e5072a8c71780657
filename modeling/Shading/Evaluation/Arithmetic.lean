import Shading.Interpretation

/-!
# Arithmetic on components

The numerical meaning of the operators on values given component by component. Matrices are column
by column: the element in row `r` and column `c` is component `c * rows + r`. Sums start at
negative zero, which changes no other number, and add from left to right.
-/

namespace Shading.Arithmetic

/-- The sum of components. -/
def sum (values : List Float) : Float :=
  values.foldl (· + ·) (-0.0)

/-- The remainder that has the sign of the divisor. -/
def modulo (x y : Float) : Float :=
  x - y * (x / y).floor

/-- A component of a list. -/
def component (values : List Float) (index : Nat) : Except Error Float :=
  match values[index]? with
  | some value => .ok value
  | none => .error (.missingComponent index)

/-- A component of an operand; a scalar has the same value in every place. -/
def spreadComponent (operand : Operand (List Float)) (index : Nat) : Except Error Float :=
  component operand.value (if operand.type.isScalar then 0 else index)

/-- An operation component by component, in which scalars are spread. -/
def spread (operation : Float → Float → Float) (length : Nat)
    (left right : Operand (List Float)) : Except Error (List Float) :=
  (List.range length).mapM fun index => do
    let x ← spreadComponent left index
    let y ← spreadComponent right index
    return operation x y

/-- The element in a row and a column of a matrix product. -/
def productElement (left right : Operand (List Float)) (row col : Nat) : Except Error Float := do
  let inner := left.type.cols
  let terms ← (List.range inner).mapM fun k => do
    let x ← component left.value (k * left.type.rows + row)
    let y ← component right.value (col * inner + k)
    return x * y
  return sum terms

/-- The matrix product, which covers the product of a matrix and a vector. The rows of the left
operand times the columns of the right one are the number of components of the result type, so
every component of the result is given, column after column. -/
def product (left right : Operand (List Float)) : Except Error (List Float) :=
  let rows := left.type.rows
  (List.range (rows * right.type.cols)).mapM fun index =>
    productElement left right (index % rows) (index / rows)

/-- The cross product of two vectors of three components. -/
def cross (u v : List Float) : Except Error (List Float) := do
  let u₀ ← component u 0
  let u₁ ← component u 1
  let u₂ ← component u 2
  let v₀ ← component v 0
  let v₁ ← component v 1
  let v₂ ← component v 2
  return [u₁ * v₂ - u₂ * v₁, u₂ * v₀ - u₀ * v₂, u₀ * v₁ - u₁ * v₀]

/-- The scalar product of two vectors. -/
def dot (u v : List Float) : Float :=
  sum (List.zipWith (· * ·) u v)

/-- The value of a unary operator. -/
def unary (op : UnaryOp) (operand : List Float) : List Float :=
  match op with
  | .neg => operand.map fun x => -x
  | .abs => operand.map Float.abs
  | .length => [(sum (operand.map fun x => x * x)).sqrt]

/-- The value of a binary operator of a given result type. Two vectors multiply component by
component at the left operand's type, so the right one must not be shorter. -/
def binary (op : BinaryOp) (type : ValueType) (left right : Operand (List Float)) :
    Except Error (List Float) :=
  match op with
  | .add => spread (· + ·) type.length left right
  | .sub => spread (· - ·) type.length left right
  | .div => spread (· / ·) type.length left right
  | .mod => spread modulo type.length left right
  | .mul =>
    let vectors := left.type.isVector && right.type.isVector
    if vectors && right.type.length < type.length then
      .error (.typeMismatch op left.type right.type)
    else if left.type.isScalar || right.type.isScalar || vectors then
      spread (· * ·) type.length left right
    else product left right
  | .dot => .ok [dot left.value right.value]
  | .cross => cross left.value right.value

end Shading.Arithmetic
