import Shading.Program

/-!
# Nodes of the expression graph

A node names its children by their identities in a pool. Children are kept once each, so the tag,
the children's identities and the literals of a node determine the structure below it.
-/

namespace Shading

/-- One node of the expression graph. -/
inductive Node where
  /-- A literal of a type, component by component; matrices are column by column. -/
  | constant (type : ValueType) (components : List Binary64)
  /-- A variable, which is given a meaning by its name. -/
  | var (type : ValueType) (name : String)
  /-- An operator applied to one operand. -/
  | unary (op : UnaryOp) (operand : NodeId)
  /-- An operator applied to two operands. -/
  | binary (lhs : NodeId) (op : BinaryOp) (rhs : NodeId)
  /-- An expression together with where it is supplied. -/
  | qualified (kind : Qualifier) (inner : NodeId)
  /-- A program of one stage. -/
  | shader (program : Program)
  deriving DecidableEq

namespace Node

/-- The constant of given components, in which both zeros are the same. -/
def literal (type : ValueType) (components : List Binary64) : Node :=
  constant type (components.map Binary64.normalize)

/-- The children of a node, from left to right; those of a program are its outputs by name. -/
def children : Node → List NodeId
  | constant .. | var .. => []
  | unary _ operand => [operand]
  | binary lhs _ rhs => [lhs, rhs]
  | qualified _ inner => [inner]
  | shader program => program.outputs.values

/-- The name of the kind of a node. -/
def tag : Node → String
  | constant .. => "Constant"
  | var .. => "Variable"
  | unary .. => "Unary"
  | binary .. => "Binary"
  | qualified kind _ => kind.name
  | shader _ => "Shader"

/-- Whether a node is an expression; only programs are not. -/
def isExpr : Node → Bool
  | shader _ => false
  | _ => true

/-- The qualifier of a qualified expression. -/
def qualifier? : Node → Option Qualifier
  | qualified kind _ => some kind
  | _ => none

/-- The components of a constant. -/
def components? : Node → Option (List Binary64)
  | constant _ components => some components
  | _ => none

end Node

end Shading
