import Shading.Error
import Shading.Table

/-!
# Stage programs

A program of one stage: what it declares as inputs and uniforms, in order of declaration, and
which expression it writes to each of its outputs, by name.
-/

namespace Shading

/-- A declared input or uniform. -/
@[ext]
structure Interface where
  name : String
  type : ValueType
  deriving DecidableEq, Repr

/-- A program of one stage. -/
@[ext]
structure Program where
  stage : Stage
  /-- Inputs in order of declaration. -/
  inputs : List Interface := []
  /-- Uniforms in order of declaration. -/
  uniforms : List Interface := []
  /-- The expression of each output. -/
  outputs : Table String NodeId := .empty
  deriving DecidableEq

namespace Program

/-- Declares an input after the others. -/
def addInput (program : Program) (name : String) (type : ValueType) : Program :=
  { program with inputs := program.inputs ++ [⟨name, type⟩] }

/-- Declares a uniform after the others. -/
def addUniform (program : Program) (name : String) (type : ValueType) : Program :=
  { program with uniforms := program.uniforms ++ [⟨name, type⟩] }

/-- Writes an expression to an output, in place of what was written to it before. -/
def setOutput (program : Program) (name : String) (expr : NodeId) : Program :=
  { program with outputs := program.outputs.insert name expr }

/-- One program for each output, with all declarations of the whole. -/
def splitOutputs (program : Program) : List Program :=
  program.outputs.entries.map fun output =>
    { program with outputs := Table.empty.insert output.1 output.2 }

end Program

end Shading
