import Shading.Glsl.Options
import Shading.Json.Reader

/-!
# Reading options

Types, stages, dialects and precisions are read by name. Reserved names and emitter options are
records all of whose fields have defaults.
-/

namespace Shading

/-- The type that a JSON value names. -/
def ValueType.ofJson? (json : Json) : Option ValueType :=
  json.name?.bind ofName?

/-- The stage that a JSON value names. -/
def Stage.ofJson? (json : Json) : Option Stage :=
  json.name?.bind ofName?

namespace Glsl

/-- The dialect that a JSON value names. -/
def Dialect.ofJson? (json : Json) : Option Dialect :=
  json.name?.bind ofName?

/-- The precision that a JSON value names. -/
def Precision.ofJson? (json : Json) : Option Precision :=
  json.name?.bind ofKeyword?

/-- Reserved names from a record. -/
def ReservedNames.ofJson? (json : Json) : Option ReservedNames := do
  let default : ReservedNames := {}
  let fields ← json.fields? ["position", "color"]
  let position ← Json.field? fields "position" Json.text? default.position
  let color ← Json.field? fields "color" Json.text? default.color
  return { position, color }

/-- Emitter options from a record. -/
def EmitOptions.ofJson? (json : Json) : Option EmitOptions := do
  let default : EmitOptions := {}
  let fields ← json.fields? ["dialect", "precision", "reserved"]
  let dialect ← Json.field? fields "dialect" Dialect.ofJson? default.dialect
  let precision ← Json.field? fields "precision" Precision.ofJson? default.precision
  let reserved ← Json.field? fields "reserved" ReservedNames.ofJson? default.reserved
  return { dialect, precision, reserved }

end Glsl

end Shading
