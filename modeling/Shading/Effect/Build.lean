import Shading.Effect.VertexInputs
import Shading.Glsl.Source

/-!
# Building an effect

An effect is split into stages, the inputs of the vertex stage are bound, and both programs are
put into the pool and emitted with one cache of texts.
-/

namespace Shading

/-- The programs of an effect with their source texts. -/
structure BuiltEffect where
  vertex : NodeId
  fragment : NodeId
  vertexSource : String
  fragmentSource : String
  deriving DecidableEq, Repr

/-- The stages of an effect, with the inputs of the vertex stage bound. -/
def Effect.boundStages (effect : Effect) (reserved : Glsl.ReservedNames) : PoolM Stages :=
  fun pool =>
    match effect.split reserved pool with
    | .error cause pool => .error cause pool
    | .ok stages pool =>
      match Stages.bindVertexInputs (pool, stages) with
      | .ok _ (pool, stages) => .ok stages pool
      | .error cause (pool, _) => .error cause pool

/-- The source texts of both stages. -/
def Stages.sources (stages : Stages) (options : Glsl.EmitOptions) (pool : Pool) :
    Except Error (String × String) :=
  let texts : EStateM Error (Cache String) (String × String) := do
    let vertexSource ← Glsl.emit options pool stages.vertex
    let fragmentSource ← Glsl.emit options pool stages.fragment
    return (vertexSource, fragmentSource)
  match texts .empty with
  | .ok sources _ => .ok sources
  | .error cause _ => .error cause

/-- Builds an effect. -/
def Effect.build (effect : Effect) (options : Glsl.EmitOptions) : PoolM BuiltEffect := do
  let stages ← effect.boundStages options.reserved
  let vertex ← Pool.shader stages.vertex
  let fragment ← Pool.shader stages.fragment
  let (vertexSource, fragmentSource) ← Pool.query (stages.sources options)
  return { vertex, fragment, vertexSource, fragmentSource }

end Shading
