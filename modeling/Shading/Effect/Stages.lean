import Shading.Glsl.Options
import Shading.Pool.Collection
import Shading.Pool.Substitution

/-!
# Splitting an effect into stages

An effect is a position and a color. In the color, an expression qualified as `fragment` is moved
to the vertex stage and handed over as an input of the fragment stage, and one qualified as
`uniform` becomes a uniform of the fragment stage. A qualified expression takes one place in an
interface however often it is used. The pool keeps the effect as it was.
-/

namespace Shading

/-- A position and a color. -/
structure Effect where
  position : NodeId
  color : NodeId
  deriving DecidableEq, Repr

/-- A qualified expression with what is inside, and the variable that takes its place. -/
structure Moved where
  qualified : NodeId
  inner : NodeId
  name : String
  type : ValueType

/-- The programs of both stages. -/
structure Stages where
  vertex : Program := { stage := .vertex }
  fragment : Program := { stage := .fragment }
  /-- The expression that supplies each attribute and uniform. -/
  bindings : Table String NodeId := .empty
  /-- The name of each expression qualified as uniform, common to both stages. -/
  uniformNames : Table NodeId String := .empty
  deriving DecidableEq

namespace Stages

instance : Inhabited Stages := ⟨{}⟩

/-- The program of a stage. -/
def program (stages : Stages) : Stage → Program
  | .vertex => stages.vertex
  | .fragment => stages.fragment

/-- Replaces the program of a stage. -/
def setProgram (stages : Stages) (stage : Stage) (program : Program) : Stages :=
  match stage with
  | .vertex => { stages with vertex := program }
  | .fragment => { stages with fragment := program }

/-- Makes a moved expression an output of the vertex stage and an input of the fragment stage. -/
def addVarying (stages : Stages) (moved : Moved) : Stages :=
  { stages with
    vertex := stages.vertex.setOutput moved.name moved.inner
    fragment := stages.fragment.addInput moved.name moved.type }

/-- Makes a moved expression a uniform of the fragment stage. -/
def addUniform (stages : Stages) (moved : Moved) : Stages :=
  { stages with
    fragment := stages.fragment.addUniform moved.name moved.type
    bindings := stages.bindings.insert moved.name moved.inner
    uniformNames := stages.uniformNames.insert moved.qualified moved.name }

end Stages

/-- The name of the varying of a given number. -/
def varyingName (number : Nat) : String :=
  "v_Varying" ++ toString number

/-- The name of the uniform of a given number. -/
def uniformName (number : Nat) : String :=
  "u_Uniform" ++ toString number

/-- The name of the attribute of a given number. -/
def attributeName (number : Nat) : String :=
  "a_Attribute" ++ toString number

/-- The expression inside a qualified one. -/
def Pool.unwrap (pool : Pool) (id : NodeId) : Except Error NodeId :=
  match pool.node id with
  | .error cause => .error cause
  | .ok (.qualified _ inner) => .ok inner
  | .ok _ => .error (.notAnExpression id)

namespace Effect

/-- Marks the position and the color. -/
def mark (effect : Effect) : PoolM Unit := do
  Pool.mark effect.position
  Pool.mark effect.color

/-- Replaces qualified expressions of a color, one after the other, by variables whose names count
up from a given number. Gives the stages with everything that was moved and the color that is
left. -/
def moveAll (nameOf : Nat → String) (move : Stages → Moved → Stages) :
    List NodeId → Nat → Stages → NodeId → PoolM (Stages × NodeId)
  | [], _, stages, color => pure (stages, color)
  | qualified :: rest, number, stages, color => do
    let name := nameOf number
    let type ← Pool.query (·.typeOf qualified)
    let inner ← Pool.query (·.unwrap qualified)
    let reference ← Pool.var type name
    let color ← Pool.substitute color qualified reference
    moveAll nameOf move rest (number + 1) (move stages { qualified, inner, name, type }) color

/-- The programs of both stages of an effect. Uniforms are looked for in the color that is left
after the varyings, so those inside a varying stay with the vertex stage. -/
def split (effect : Effect) (reserved : Glsl.ReservedNames) : PoolM Stages := do
  let varyings ← Pool.query (·.qualifiedAs effect.color .fragment)
  let (stages, color) ← moveAll varyingName Stages.addVarying varyings 0 {} effect.color
  let uniforms ← Pool.query (·.qualifiedAs color .uniform)
  let (stages, color) ← moveAll uniformName Stages.addUniform uniforms 0 stages color
  return { stages with
    vertex := stages.vertex.setOutput reserved.position effect.position
    fragment := stages.fragment.setOutput reserved.color color }

end Effect

end Shading
