import Shading.Effect.Stages

/-!
# Inputs of the vertex stage

The outputs of a vertex program may still hold qualified expressions. An expression qualified as
`fragment` stands for itself there, one qualified as `attr` becomes an input and one qualified as
`uniform` a uniform, under the name that the fragment stage uses for it if it has one. A failure
keeps what was declared before it.
-/

namespace Shading

/-- Stages whose vertex inputs are being bound. -/
structure VertexBinding where
  pool : Pool
  stages : Stages
  /-- The name of each expression qualified as `attr` that was met so far. -/
  attributeNames : Table NodeId String

/-- An operation on stages and their pool, which keeps its effects when it fails. -/
abbrev VertexBindingM := EStateM Error VertexBinding

namespace VertexBinding

variable {α : Type}

/-- Runs an operation on the pool. -/
@[inline]
def onPool (operation : PoolM α) : VertexBindingM α := fun ⟨pool, stages, attributeNames⟩ =>
  match operation pool with
  | .ok result pool => .ok result ⟨pool, stages, attributeNames⟩
  | .error cause pool => .error cause ⟨pool, stages, attributeNames⟩

/-- Changes the stages. -/
@[inline]
def modifyStages (change : Stages → Stages) : VertexBindingM Unit :=
  modify fun binding => { binding with stages := change binding.stages }

/-- Replaces the first expression qualified as `fragment` by what is inside, a number of times or
until none is left. -/
def unwrapRounds : Nat → NodeId → PoolM NodeId
  | 0, expr => pure expr
  | rounds + 1, expr => do
    match ← Pool.query (·.qualifiedAs expr .fragment) with
    | [] => pure expr
    | first :: _ =>
      let inner ← Pool.query (·.unwrap first)
      let expr ← Pool.substitute expr first inner
      unwrapRounds rounds expr

/-- The expression without the qualifier `fragment`. Each round removes at least one of the
expressions that have it, so their number bounds the rounds. -/
def unwrapFragments (expr : NodeId) : PoolM NodeId := do
  let fragments ← Pool.query (·.qualifiedAs expr .fragment)
  unwrapRounds fragments.length expr

/-- The name of an attribute, which is declared when it is met first. -/
def declareAttribute (qualified : NodeId) (type : ValueType) : VertexBindingM String := do
  let binding ← get
  match binding.attributeNames.get? qualified with
  | some name => return name
  | none =>
    let name := attributeName binding.attributeNames.size
    modify fun binding =>
      { binding with
        attributeNames := binding.attributeNames.insert qualified name
        stages :=
          { binding.stages with vertex := binding.stages.vertex.addInput name type } }
    let inner ← onPool (Pool.query (·.unwrap qualified))
    modifyStages fun stages => { stages with bindings := stages.bindings.insert name inner }
    return name

/-- The name of a uniform, which is new unless the expression has one already. -/
def nameUniform (qualified : NodeId) : VertexBindingM String := do
  let binding ← get
  match binding.stages.uniformNames.get? qualified with
  | some name => return name
  | none =>
    let name := uniformName binding.stages.uniformNames.size
    modifyStages fun stages =>
      { stages with uniformNames := stages.uniformNames.insert qualified name }
    let inner ← onPool (Pool.query (·.unwrap qualified))
    modifyStages fun stages => { stages with bindings := stages.bindings.insert name inner }
    return name

/-- The name of a uniform, which the vertex stage declares unless it has declared it already. -/
def declareUniform (qualified : NodeId) (type : ValueType) : VertexBindingM String := do
  let name ← nameUniform qualified
  modifyStages fun stages =>
    if stages.vertex.uniforms.any (·.name == name) then stages
    else { stages with vertex := stages.vertex.addUniform name type }
  return name

/-- Replaces qualified expressions, one after the other, by variables of the names under which they
are declared. -/
def replaceAll (declare : NodeId → ValueType → VertexBindingM String) :
    List NodeId → NodeId → VertexBindingM NodeId
  | [], expr => pure expr
  | qualified :: rest, expr => do
    let type ← onPool (Pool.query (·.typeOf qualified))
    let name ← declare qualified type
    let reference ← onPool (Pool.var type name)
    let expr ← onPool (Pool.substitute expr qualified reference)
    replaceAll declare rest expr

/-- The expression of a vertex output without qualifiers. -/
def bindOutput (expr : NodeId) : VertexBindingM NodeId := do
  let expr ← onPool (unwrapFragments expr)
  let attributes ← onPool (Pool.query (·.qualifiedAs expr .attr))
  let expr ← replaceAll declareAttribute attributes expr
  let uniforms ← onPool (Pool.query (·.qualifiedAs expr .uniform))
  replaceAll declareUniform uniforms expr

/-- Binds the vertex outputs of a list in order. -/
def bindOutputs : List (String × NodeId) → VertexBindingM Unit
  | [] => pure ()
  | (name, expr) :: rest => do
    let expr ← bindOutput expr
    modifyStages fun stages => { stages with vertex := stages.vertex.setOutput name expr }
    bindOutputs rest

end VertexBinding

/-- Binds the inputs of the vertex stage; a failure keeps what was declared before it. -/
def Stages.bindVertexInputs : EStateM Error (Pool × Stages) Unit := fun (pool, stages) =>
  match VertexBinding.bindOutputs stages.vertex.outputs.entries ⟨pool, stages, .empty⟩ with
  | .ok _ binding => .ok () (binding.pool, binding.stages)
  | .error cause binding => .error cause (binding.pool, binding.stages)

end Shading
