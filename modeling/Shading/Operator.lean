import Shading.ValueType

/-!
# Operators

The operators of expressions with their symbols and typing rules, the qualifiers that
tell where an expression is supplied, and the two stages of a pipeline.
-/

namespace Shading

/-- An operator of one operand. -/
inductive UnaryOp where
  | neg
  | abs
  | length
  deriving DecidableEq, Repr

namespace UnaryOp

/-- The symbol of an operator. -/
def symbol : UnaryOp → String
  | neg => "-"
  | abs => "abs"
  | length => "length"

/-- The operator of a given spelling; negation is spelled by its symbol or by its name. -/
def ofSymbol? : String → Option UnaryOp
  | "-" | "neg" => some neg
  | "abs" => some abs
  | "length" => some length
  | _ => none

/-- The place of an operator in the order of declaration. -/
def index : UnaryOp → Nat
  | neg => 0
  | abs => 1
  | length => 2

/-- Every operator, in the order of declaration. -/
def all : List UnaryOp :=
  [neg, abs, length]

/-- A length is a scalar, and the other operators act component by component. -/
def resultType : UnaryOp → ValueType → ValueType
  | neg, operand | abs, operand => operand
  | length, _ => .float

/-- A unary operator is found by its symbol. -/
@[simp]
theorem ofSymbol?_symbol (op : UnaryOp) : ofSymbol? op.symbol = some op := by
  cases op <;> rfl

/-- A unary operator stands in the place of its index. -/
@[simp]
theorem getElem?_all_index (op : UnaryOp) : all[op.index]? = some op := by
  cases op <;> rfl

end UnaryOp

/-- An operator of two operands. -/
inductive BinaryOp where
  | add
  | sub
  | mul
  | div
  | mod
  | dot
  | cross
  deriving DecidableEq, Repr

namespace BinaryOp

/-- Every operator, in the order of declaration. -/
def all : List BinaryOp :=
  [add, sub, mul, div, mod, dot, cross]

/-- The symbol of an operator. -/
def symbol : BinaryOp → String
  | add => "+"
  | sub => "-"
  | mul => "*"
  | div => "/"
  | mod => "%"
  | dot => "dot"
  | cross => "cross"

/-- The operator of a given spelling; the remainder is spelled by its symbol or by its name. -/
def ofSymbol? : String → Option BinaryOp
  | "+" => some add
  | "-" => some sub
  | "*" => some mul
  | "/" => some div
  | "%" | "mod" => some mod
  | "dot" => some dot
  | "cross" => some cross
  | _ => none

/-- The place of an operator in `all`. -/
def index : BinaryOp → Nat
  | add => 0
  | sub => 1
  | mul => 2
  | div => 3
  | mod => 4
  | dot => 5
  | cross => 6

/-- The result type of a component-wise operator: a scalar is spread over the other operand, and
otherwise both operands have the same type. -/
def spreadType? (left right : ValueType) : Option ValueType :=
  if left.isScalar then some right
  else if right.isScalar ∨ left = right then some left
  else none

/-- The result type of a product. A scalar scales the other operand, two vectors multiply
component by component at the left operand's type, and anything else is a matrix product. -/
def productType? (left right : ValueType) : Option ValueType :=
  if left.isScalar then some right
  else if right.isScalar then some left
  else if left.isVector && right.isVector then some left
  else if left.cols = right.rows then ValueType.ofDims? left.rows right.cols
  else none

/-- The result type of an operator, if it is defined for the operand types. -/
def resultType? : BinaryOp → ValueType → ValueType → Option ValueType
  | add, left, right | sub, left, right | div, left, right | mod, left, right =>
    spreadType? left right
  | mul, left, right => productType? left right
  | dot, left, right => if left.isVector && left = right then some .float else none
  | cross, left, right => if left = .vec3 ∧ right = .vec3 then some .vec3 else none

/-- A binary operator is found by its symbol. -/
@[simp]
theorem ofSymbol?_symbol (op : BinaryOp) : ofSymbol? op.symbol = some op := by
  cases op <;> rfl

/-- A binary operator stands in the place of its index. -/
@[simp]
theorem getElem?_all_index (op : BinaryOp) : all[op.index]? = some op := by
  cases op <;> rfl

end BinaryOp

/-- Where a qualified expression is supplied: per vertex from outside, by the vertex stage to
the fragment stage, or once per draw from outside. -/
inductive Qualifier where
  | attr
  | fragment
  | uniform
  deriving DecidableEq, Repr

namespace Qualifier

/-- The name of a qualifier. -/
def name : Qualifier → String
  | attr => "Attribute"
  | fragment => "Fragment"
  | uniform => "Uniform"

/-- The place of a qualifier in the order of declaration. -/
def index : Qualifier → Nat
  | attr => 0
  | fragment => 1
  | uniform => 2

/-- Every qualifier, in the order of declaration. -/
def all : List Qualifier :=
  [attr, fragment, uniform]

/-- A qualifier stands in the place of its index. -/
@[simp]
theorem getElem?_all_index (kind : Qualifier) : all[kind.index]? = some kind := by
  cases kind <;> rfl

end Qualifier

/-- A stage of the pipeline. -/
inductive Stage where
  | vertex
  | fragment
  deriving DecidableEq, Repr

namespace Stage

/-- The name of a stage. -/
def name : Stage → String
  | vertex => "vertex"
  | fragment => "fragment"

/-- Both stages, in the order in which they run. -/
def all : List Stage :=
  [vertex, fragment]

/-- The place of a stage in the order in which they run. -/
def index : Stage → Nat
  | vertex => 0
  | fragment => 1

/-- The stage of a given name. -/
def ofName? (name : String) : Option Stage :=
  all.find? fun stage => stage.name == name

/-- A stage stands in the place of its index. -/
@[simp]
theorem getElem?_all_index (stage : Stage) : all[stage.index]? = some stage := by
  cases stage <;> rfl

/-- A name belongs to one stage only. -/
@[simp]
theorem ofName?_name (stage : Stage) : ofName? stage.name = some stage := by
  cases stage <;> rfl

end Stage

end Shading
