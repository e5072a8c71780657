import Shading.Pool.Traversal

/-!
# Substitution

Replacing a node below a root rebuilds the nodes above it, children first, and changes no node of
the pool. A node none of whose children changed stands for itself. Qualifiers around a
replacement are kept.
-/

namespace Shading.Pool

/-- What stands for each node already rebuilt. -/
abbrev Rebuilt := Std.TreeMap NodeId NodeId

/-- What stands for a child, which was rebuilt before its parent. -/
def Rebuilt.result (rebuilt : Rebuilt) (child : NodeId) : PoolM NodeId :=
  match rebuilt[child]? with
  | some result => pure result
  | none => throw (.missingResult child)

/-- Rebuilds a node over what stands for its children. -/
def rebuildNode (rebuilt : Rebuilt) (id : NodeId) : Node → PoolM NodeId
  | .constant .. | .var .. => pure id
  | .unary op operand => do
    let newOperand ← rebuilt.result operand
    if newOperand = operand then pure id else unary op newOperand
  | .binary lhs op rhs => do
    let newLhs ← rebuilt.result lhs
    let newRhs ← rebuilt.result rhs
    if newLhs = lhs ∧ newRhs = rhs then pure id else binary newLhs op newRhs
  | .qualified kind inner => do
    let newInner ← rebuilt.result inner
    if newInner = inner then pure id else qualify kind newInner
  | .shader _ => throw (.notAnExpression id)

/-- Rebuilds the nodes of a list in order, with a replacement in the place of a target. -/
def rebuild (target replacement : NodeId) : List NodeId → Rebuilt → PoolM Rebuilt
  | [], rebuilt => pure rebuilt
  | id :: rest, rebuilt => do
    let result ←
      if id = target then pure replacement
      else do
        let node ← query (·.node id)
        rebuildNode rebuilt id node
    rebuild target replacement rest (rebuilt.insert id result)

/-- The expression below a root with a replacement in every place of a target. -/
def substitute (root target replacement : NodeId) : PoolM NodeId := do
  let _ ← query (·.typeOf replacement)
  let order ← query (·.postOrderUntil (· == target) root)
  let rebuilt ← rebuild target replacement order ∅
  match rebuilt[root]? with
  | some result => pure result
  | none => throw (.unknownNode root)

end Shading.Pool
