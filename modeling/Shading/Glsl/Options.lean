import Shading.Program

/-!
# Choices of an emitter

The dialect of the source text, its default precision, and the names of the outputs that stand for
built-in variables.
-/

namespace Shading.Glsl

/-- A version of the shading language. -/
inductive Dialect where
  | glsl100
  | glsl300es
  deriving DecidableEq, Repr, Inhabited

namespace Dialect

/-- Every dialect. -/
def all : List Dialect :=
  [glsl100, glsl300es]

/-- The name of a dialect. -/
def name : Dialect → String
  | glsl100 => "glsl100"
  | glsl300es => "glsl300es"

/-- The dialect of a given name. -/
def ofName? (name : String) : Option Dialect :=
  all.find? fun dialect => dialect.name == name

/-- The first line of a source text. -/
def marker : Dialect → String
  | glsl100 => "#version 100"
  | glsl300es => "#version 300 es"

/-- The keyword that declares an input of a stage. -/
def inputKeyword : Dialect → Stage → String
  | glsl100, .vertex => "attribute"
  | glsl100, .fragment => "varying"
  | glsl300es, _ => "in"

/-- The keyword that declares an output. -/
def outputKeyword : Dialect → String
  | glsl100 => "varying"
  | glsl300es => "out"

end Dialect

/-- The default precision of numbers. -/
inductive Precision where
  | low
  | medium
  | high
  deriving DecidableEq, Repr, Inhabited

namespace Precision

/-- Every precision. -/
def all : List Precision :=
  [low, medium, high]

/-- The keyword of a precision. -/
def keyword : Precision → String
  | low => "lowp"
  | medium => "mediump"
  | high => "highp"

/-- The precision of a given keyword. -/
def ofKeyword? (keyword : String) : Option Precision :=
  all.find? fun precision => precision.keyword == keyword

end Precision

/-- The names of the outputs that are written to built-in variables. -/
structure ReservedNames where
  /-- The vertex output that is the position. -/
  position : String := "o_Position"
  /-- The fragment output that is the color, in the dialect that has a variable for it. -/
  color : String := "o_Color"
  deriving DecidableEq, Repr, Inhabited

/-- Everything an emitter can be told. -/
structure EmitOptions where
  dialect : Dialect := .glsl100
  precision : Precision := .high
  reserved : ReservedNames := {}
  deriving DecidableEq, Repr, Inhabited

end Shading.Glsl
