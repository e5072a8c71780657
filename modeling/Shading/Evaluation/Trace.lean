import Shading.Interpretation

/-!
# Traces

An interpretation that counts the nodes of an expression as a tree and describes each node as it
is computed, for seeing in which order a walk goes and what it finds in its cache.
-/

namespace Shading

/-- The size of an expression as a tree, and a line that describes its topmost node. -/
structure TraceStep where
  size : Nat
  line : String
  deriving DecidableEq, Repr

/-- An operand in a line. -/
def Operand.traced (operand : Operand TraceStep) : String :=
  operand.type.name ++ ":" ++ toString operand.value.size

/-- Expressions as sizes with descriptions. -/
def tracing : Interpretation TraceStep where
  action := "tracing"
  constant := fun type components =>
    .ok ⟨1, "constant " ++ type.name ++ " " ++ toString components.length⟩
  var := fun type name => .ok ⟨1, "variable " ++ type.name ++ " " ++ name⟩
  unary := fun op operand =>
    .ok ⟨operand.value.size + 1, "unary " ++ op.symbol ++ " " ++ operand.traced⟩
  binary := fun op type left right =>
    .ok ⟨left.value.size + right.value.size + 1,
      "binary " ++ type.name ++ " " ++ left.traced ++ " " ++ op.symbol ++ " " ++ right.traced⟩

/-- The lines of the nodes that a walk has computed, in the order of computation. -/
def Walk.lines (walk : Walk TraceStep) : List String :=
  walk.computed.reverse.filterMap fun id => (walk.cache.results[id]?).map TraceStep.line

end Shading
