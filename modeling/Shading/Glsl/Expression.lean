import Shading.Interpretation

/-!
# Expressions as source text

Infix operators are written with parentheses around them, and every other operator as a function
call. A literal always has a point, and a constant of more than one component is a call of its
type's constructor.
-/

namespace Shading.Glsl

/-- The text of a number. -/
def literal (number : Binary64) : Except Error String :=
  match number.literal? with
  | some text => .ok text
  | none => .error (.nonFiniteLiteral number)

/-- Texts with commas and blanks between them. -/
def arguments (texts : List String) : String :=
  ", ".intercalate texts

/-- The text of a constant. -/
def constant (type : ValueType) (components : List Binary64) : Except Error String :=
  if type.isScalar then
    match components with
    | number :: _ => literal number
    | [] => .error (.missingComponent 0)
  else do
    let texts ← components.mapM literal
    return type.name ++ "(" ++ arguments texts ++ ")"

/-- The text of a unary operator. A blank keeps the sign apart from another one, since two of them
together are a different token. -/
def unary (op : UnaryOp) (operand : String) : String :=
  match op with
  | .neg => if operand.startsWith '-' then "(- " ++ operand ++ ")" else "(-" ++ operand ++ ")"
  | .abs | .length => op.symbol ++ "(" ++ operand ++ ")"

/-- The text of a binary operator. -/
def binary (op : BinaryOp) (left right : String) : String :=
  match op with
  | .add | .sub | .mul | .div => "(" ++ left ++ " " ++ op.symbol ++ " " ++ right ++ ")"
  | .mod => "mod(" ++ left ++ ", " ++ right ++ ")"
  | .dot | .cross => op.symbol ++ "(" ++ left ++ ", " ++ right ++ ")"

/-- Expressions as source text. -/
def textual : Interpretation String where
  action := "formatting"
  constant := constant
  var := fun _ name => .ok name
  unary := fun op operand => .ok (unary op operand.value)
  binary := fun op _ left right => .ok (binary op left.value right.value)

/-- The source text of an expression. -/
def print (pool : Pool) (root : NodeId) : Except Error String :=
  textual.result pool root

end Shading.Glsl
