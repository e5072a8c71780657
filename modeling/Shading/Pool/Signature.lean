import Shading.Pool.Traversal

/-!
# Signatures

The signature of a node is its structure written out as text, such as
`Binary(Constant(float,[2]),*,Variable(float,x))`. Signatures of shared nodes are written once and
used in every place.
-/

namespace Shading

/-- The declarations of a program as text. -/
def Interface.signature (interface : Interface) : String :=
  interface.name ++ ":" ++ interface.type.name

/-- Texts with commas between them. -/
def commaSeparated (texts : List String) : String :=
  ",".intercalate texts

namespace Node

/-- The signatures of a program's outputs, given those of its children. -/
def outputSignatures (child : NodeId → Except Error String) :
    List (String × NodeId) → Except Error (List String)
  | [] => .ok []
  | (name, expr) :: rest => do
    let text ← child expr
    let texts ← outputSignatures child rest
    return (name ++ "=" ++ text) :: texts

/-- The signature of a node, given those of its children. -/
def signature (child : NodeId → Except Error String) : Node → Except Error String
  | constant type components =>
    let shown := commaSeparated (components.map Binary64.display)
    .ok ("Constant(" ++ type.name ++ ",[" ++ shown ++ "])")
  | var type name => .ok ("Variable(" ++ type.name ++ "," ++ name ++ ")")
  | unary op operand => do
    let text ← child operand
    return "Unary(" ++ op.symbol ++ "," ++ text ++ ")"
  | binary lhs op rhs => do
    let left ← child lhs
    let right ← child rhs
    return "Binary(" ++ left ++ "," ++ op.symbol ++ "," ++ right ++ ")"
  | qualified kind inner => do
    let text ← child inner
    return kind.name ++ "(" ++ text ++ ")"
  | shader program => do
    let inputs := commaSeparated (program.inputs.map Interface.signature)
    let uniforms := commaSeparated (program.uniforms.map Interface.signature)
    let outputs ← outputSignatures child program.outputs.entries
    return "Shader(" ++ program.stage.name ++ ",[" ++ inputs ++ "],[" ++ uniforms ++ "],\x7b" ++
      commaSeparated outputs ++ "\x7d)"

end Node

namespace Pool

/-- The signature of a child, which was written before its parent. -/
def writtenSignature (written : Std.TreeMap NodeId String) (child : NodeId) :
    Except Error String :=
  match written[child]? with
  | some text => .ok text
  | none => .error (.missingResult child)

/-- Writes the signatures of the nodes of a list in order. -/
def writeSignatures (pool : Pool) :
    List NodeId → Std.TreeMap NodeId String → Except Error (Std.TreeMap NodeId String)
  | [], written => .ok written
  | id :: rest, written =>
    match pool.node id with
    | .error cause => .error cause
    | .ok node =>
      match node.signature (writtenSignature written) with
      | .error cause => .error cause
      | .ok text => writeSignatures pool rest (written.insert id text)

/-- The signature of a node. -/
def signature (pool : Pool) (root : NodeId) : Except Error String := do
  let order ← pool.postOrder root
  let written ← pool.writeSignatures order ∅
  match written[root]? with
  | some text => .ok text
  | none => .error (.unknownNode root)

end Pool

end Shading
