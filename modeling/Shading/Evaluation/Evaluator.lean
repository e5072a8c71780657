import Shading.Evaluation.Arithmetic

/-!
# Evaluation

The value of an expression under values for its variables. An evaluator keeps what it has computed
until the value of a variable changes.
-/

namespace Shading

/-- Values of variables, by name. -/
abbrev Bindings := Table String (List Float)

/-- The value of a variable, which must have as many components as its type. -/
def Bindings.value (bindings : Bindings) (type : ValueType) (name : String) :
    Except Error (List Float) :=
  match bindings.get? name with
  | none => .error (.unboundVariable name)
  | some values =>
    if values.length = type.length then .ok values
    else .error (.bindingArity name type values.length)

/-- Expressions as numbers, component by component. -/
def numerical (bindings : Bindings) : Interpretation (List Float) where
  action := "evaluating"
  constant := fun _ components => .ok (components.map Binary64.toFloat)
  var := bindings.value
  unary := fun op operand => .ok (Arithmetic.unary op operand.value)
  binary := Arithmetic.binary

/-- The value of an expression. -/
def evaluate (pool : Pool) (root : NodeId) (bindings : Bindings) : Except Error (List Float) :=
  (numerical bindings).result pool root

/-- Values of variables, with the results computed under them. -/
structure Evaluator where
  bindings : Bindings := .empty
  cache : Cache (List Float) := .empty

namespace Evaluator

instance : Inhabited Evaluator := ⟨{}⟩

/-- Gives a variable a value, which makes earlier results void. -/
def bind (evaluator : Evaluator) (name : String) (values : List Float) : Evaluator where
  bindings := evaluator.bindings.insert name values
  cache := .empty

/-- The value of an expression. -/
def evaluate (pool : Pool) (root : NodeId) : EStateM Error Evaluator (List Float) :=
  fun { bindings, cache } =>
    match (numerical bindings).run pool root cache with
    | .ok value cache => .ok value { bindings, cache }
    | .error cause cache => .error cause { bindings, cache }

end Evaluator

end Shading
