import Shading.Glsl.Expression
import Shading.Glsl.Options

/-!
# Source texts of programs

A source text is the version, the precision, the declarations, and a main function that assigns
every output. The output that stands for a built-in variable is assigned last and not declared.
Outputs are taken in the order of their names, so that equal programs have equal texts.
-/

namespace Shading.Glsl

/-- An output that stands for a built-in variable. -/
structure Builtin where
  /-- The name of the output. -/
  output : String
  /-- The built-in variable. -/
  target : String
  deriving DecidableEq, Repr

/-- The built-in variable that a program of a stage must write. -/
def EmitOptions.builtin? (options : EmitOptions) (stage : Stage) : Option Builtin :=
  match stage, options.dialect with
  | .vertex, _ => some ⟨options.reserved.position, "gl_Position"⟩
  | .fragment, .glsl100 => some ⟨options.reserved.color, "gl_FragColor"⟩
  | .fragment, .glsl300es => none

/-- Declarations and statements. -/
structure SourceLines where
  declarations : List String := []
  body : List String := []

namespace SourceLines

/-- The declaration and the assignment of an output. Fragment programs of the older dialect have no
outputs of their own, so there the output is a local variable. -/
def ofOutput (dialect : Dialect) (stage : Stage) (type : ValueType) (name text : String) :
    SourceLines :=
  match stage, dialect with
  | .fragment, .glsl100 => { body := [type.name ++ " " ++ name ++ " = " ++ text ++ ";"] }
  | _, _ =>
    { declarations := [dialect.outputKeyword ++ " " ++ type.name ++ " " ++ name ++ ";"]
      body := [name ++ " = " ++ text ++ ";"] }

/-- Some lines followed by others. -/
def append (first second : SourceLines) : SourceLines where
  declarations := first.declarations ++ second.declarations
  body := first.body ++ second.body

/-- The whole text of a program. -/
def render (lines : SourceLines) (options : EmitOptions) : String :=
  let header :=
    [options.dialect.marker, "precision " ++ options.precision.keyword ++ " float;"]
  let main := "void main(void) \x7b" :: lines.body.map ("  " ++ ·) ++ ["\x7d"]
  String.join ((header ++ lines.declarations ++ main).map (· ++ "\n"))

end SourceLines

/-- The declarations of a program's inputs and uniforms. -/
def interfaceLines (dialect : Dialect) (program : Program) : List String :=
  let keyword := dialect.inputKeyword program.stage
  program.inputs.map (fun input => keyword ++ " " ++ input.type.name ++ " " ++ input.name ++ ";") ++
    program.uniforms.map fun uniform =>
      "uniform " ++ uniform.type.name ++ " " ++ uniform.name ++ ";"

/-- The lines of the outputs that are not built-in. -/
def outputLines (options : EmitOptions) (pool : Pool) (stage : Stage) :
    List (String × NodeId) → EStateM Error (Cache String) SourceLines
  | [] => pure {}
  | (name, expr) :: rest => do
    if (options.builtin? stage).any (·.output == name) then
      outputLines options pool stage rest
    else
      let type ← MonadExcept.ofExcept (pool.typeOf expr)
      let text ← textual.run pool expr
      let lines ← outputLines options pool stage rest
      return (SourceLines.ofOutput options.dialect stage type name text).append lines

/-- The built-in variable of a program with the expression that is written to it. -/
def builtinOutput (options : EmitOptions) (program : Program) :
    Except Error (Option (Builtin × NodeId)) :=
  match options.builtin? program.stage with
  | none => .ok none
  | some builtin =>
    match program.outputs.get? builtin.output with
    | some expr => .ok (some (builtin, expr))
    | none => .error (.missingReservedOutput program.stage builtin.output)

/-- The assignment of the built-in variable. -/
def builtinLines (pool : Pool) :
    Option (Builtin × NodeId) → EStateM Error (Cache String) SourceLines
  | none => pure {}
  | some (builtin, expr) => do
    let text ← textual.run pool expr
    return { body := [builtin.target ++ " = " ++ text ++ ";"] }

/-- The source text of a program, with a cache of texts of expressions. -/
def emit (options : EmitOptions) (pool : Pool) (program : Program) :
    EStateM Error (Cache String) String := do
  let builtin ← MonadExcept.ofExcept (builtinOutput options program)
  let outputs ← outputLines options pool program.stage program.outputs.entries
  let last ← builtinLines pool builtin
  let interfaces : SourceLines := { declarations := interfaceLines options.dialect program }
  return ((interfaces.append outputs).append last).render options

/-- Emitter options, with the texts of the expressions emitted so far. -/
structure Emitter where
  options : EmitOptions := {}
  cache : Cache String := .empty

namespace Emitter

instance : Inhabited Emitter := ⟨{}⟩

/-- The source text of a program. -/
def emit (pool : Pool) (program : Program) : EStateM Error Emitter String :=
  fun { options, cache } =>
    match Glsl.emit options pool program cache with
    | .ok text cache => .ok text { options, cache }
    | .error cause cache => .error cause { options, cache }

/-- The source text of a program that is a node of the pool. -/
def emitNode (pool : Pool) (id : NodeId) : EStateM Error Emitter String := do
  let program ← MonadExcept.ofExcept (pool.program id)
  emit pool program

end Emitter

end Shading.Glsl
