/-!
# Value types

The closed set of types an expression can have: the scalar, column vectors of two to four
components and square matrices of order two to four. A vector of `n` components has `n` rows and
one column, so a type is determined by its name and equally by its dimensions.
-/

namespace Shading

/-- The type of an expression. -/
inductive ValueType where
  | float
  | vec2
  | vec3
  | vec4
  | mat2
  | mat3
  | mat4
  deriving DecidableEq, Repr, Inhabited

namespace ValueType

/-- Every type: the scalar, then vectors, then matrices, each by size. -/
def all : List ValueType :=
  [float, vec2, vec3, vec4, mat2, mat3, mat4]

/-- The name of a type in source text, which is also its constructor function. -/
def name : ValueType → String
  | float => "float"
  | vec2 => "vec2"
  | vec3 => "vec3"
  | vec4 => "vec4"
  | mat2 => "mat2"
  | mat3 => "mat3"
  | mat4 => "mat4"

/-- The place of a type in `all`. -/
def index : ValueType → Nat
  | float => 0
  | vec2 => 1
  | vec3 => 2
  | vec4 => 3
  | mat2 => 4
  | mat3 => 5
  | mat4 => 6

/-- The type of a given name. -/
def ofName? (name : String) : Option ValueType :=
  all.find? fun type => type.name == name

/-- The number of rows. -/
def rows : ValueType → Nat
  | float => 1
  | vec2 | mat2 => 2
  | vec3 | mat3 => 3
  | vec4 | mat4 => 4

/-- The number of columns; a vector is one column. -/
def cols : ValueType → Nat
  | float | vec2 | vec3 | vec4 => 1
  | mat2 => 2
  | mat3 => 3
  | mat4 => 4

/-- The number of components. -/
def length (type : ValueType) : Nat :=
  type.rows * type.cols

/-- The type of given dimensions. -/
def ofDims? (rows cols : Nat) : Option ValueType :=
  all.find? fun type => type.rows == rows && type.cols == cols

/-- Whether the type is the scalar. -/
def isScalar : ValueType → Bool
  | float => true
  | _ => false

/-- Whether the type is one of the vectors. -/
def isVector : ValueType → Bool
  | vec2 | vec3 | vec4 => true
  | _ => false

/-- Whether the type is one of the matrices. -/
def isMatrix : ValueType → Bool
  | mat2 | mat3 | mat4 => true
  | _ => false

/-- A type stands in the place of its index. -/
@[simp]
theorem getElem?_all_index (type : ValueType) : all[type.index]? = some type := by
  cases type <;> rfl

/-- A name belongs to one type only. -/
@[simp]
theorem ofName?_name (type : ValueType) : ofName? type.name = some type := by
  cases type <;> rfl

/-- Dimensions belong to one type only. -/
@[simp]
theorem ofDims?_dims (type : ValueType) : ofDims? type.rows type.cols = some type := by
  cases type <;> rfl

end ValueType

end Shading
