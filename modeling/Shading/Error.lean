import Shading.Binary64.Decimal
import Shading.Operator

/-!
# Causes of failure

Every way in which an operation on expressions can fail, with its wording.
-/

namespace Shading

/-- The identity of a node in a pool. An identity of 32 bits is the same number in every history
of fewer than `2³²` new structures; after that many it would be used again. -/
abbrev NodeId := Nat

/-- Why an operation failed. -/
inductive Error where
  /-- An operator is not defined for the types of its operands. -/
  | typeMismatch (op : BinaryOp) (left right : ValueType)
  /-- A constant has the wrong number of components. -/
  | constantArity (type : ValueType) (found : Nat)
  /-- A variable has no value. -/
  | unboundVariable (name : String)
  /-- The value of a variable has the wrong number of components. -/
  | bindingArity (name : String) (type : ValueType) (found : Nat)
  /-- A qualified expression was met by an activity that only plain expressions allow. -/
  | illegalQualifier (kind : Qualifier) (action : String)
  /-- A program lacks the output that its stage must have. -/
  | missingReservedOutput (stage : Stage) (name : String)
  /-- A node is not in the pool. -/
  | unknownNode (id : NodeId)
  /-- A node is a program where an expression is needed. -/
  | notAnExpression (id : NodeId)
  /-- A node is an expression where a program is needed. -/
  | notAShader (id : NodeId)
  /-- An infinite or undefined number has no literal. -/
  | nonFiniteLiteral (number : Binary64)
  /-- The result of an operand is missing; a pool never leads to this. -/
  | missingResult (id : NodeId)
  /-- A component of an operand is missing; a typed expression never leads to this. -/
  | missingComponent (index : Nat)
  deriving DecidableEq, Repr

namespace Error

/-- The wording of a failure. -/
def message : Error → String
  | typeMismatch op left right =>
    s!"type error: `{op.symbol}` is not defined for {left.name} and {right.name}"
  | constantArity type found =>
    s!"constant of type {type.name} needs {type.length} components, found {found}"
  | unboundVariable name => s!"unbound variable `{name}`"
  | bindingArity name type found =>
    s!"variable `{name}` has type {type.name} ({type.length} components) but is bound to {found}"
  | illegalQualifier kind action =>
    s!"{kind.name} nodes must be removed from the graph prior to {action}"
  | missingReservedOutput stage name => s!"{stage.name} stage has no `{name}` output"
  | unknownNode id => s!"node {id} is not in the pool"
  | notAnExpression id => s!"node {id} is not an expression"
  | notAShader id => s!"node {id} is not a shader program"
  | nonFiniteLiteral number => s!"{number.display} has no shading-language literal"
  | missingResult id => s!"node {id} has no result"
  | missingComponent index => s!"component {index} is missing"

end Error

end Shading
