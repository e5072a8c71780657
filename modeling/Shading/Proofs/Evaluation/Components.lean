import Shading.Evaluation.Evaluator
import Shading.Proofs.Interpretation.Walk

/-!
# Components of values

A value has as many components as its type. Constants and variables are checked for it, and every
operator gives as many components as its result type has if its operands do. So what an expression
evaluates to can be bound to a variable of its type (`Tree.length_of_interpret`).
-/

namespace Shading

/-- Every type has a component. -/
theorem ValueType.length_pos (type : ValueType) : 0 < type.length := by
  cases type <;> decide

/-- There are as many results as inputs. -/
theorem length_of_mapM_ok {α β : Type} {operation : α → Except Error β} {inputs : List α}
    {outputs : List β} (ran : inputs.mapM operation = .ok outputs) :
    outputs.length = inputs.length := by
  induction inputs generalizing outputs with
  | nil =>
      cases ran
      rfl
  | cons input rest ih =>
      rw [List.mapM_cons] at ran
      obtain ⟨output, -, ranRest⟩ := exists_of_except_ok ran
      obtain ⟨others, later, ended⟩ := exists_of_except_ok ranRest
      cases ended
      rw [List.length_cons, List.length_cons, ih later]

/-- The type of given dimensions has their product as its length. -/
theorem ValueType.length_of_ofDims? {rows cols : Nat} {type : ValueType}
    (found : ofDims? rows cols = some type) : type.length = rows * cols := by
  have dims := List.find?_some found
  rw [Bool.and_eq_true, beq_iff_eq, beq_iff_eq] at dims
  rw [length, dims.1, dims.2]

namespace Arithmetic

variable {left right : Operand (List Float)} {type : ValueType} {values : List Float}

/-- An operation component by component gives the asked number of components. -/
theorem length_spread {operation : Float → Float → Float} {length : Nat}
    (ran : spread operation length left right = .ok values) : values.length = length := by
  rw [length_of_mapM_ok ran, List.length_range]

/-- A matrix product has the rows of the left operand and the columns of the right one. -/
theorem length_product (ran : product left right = .ok values) :
    values.length = left.type.rows * right.type.cols := by
  rw [length_of_mapM_ok ran, List.length_range]

/-- A cross product has three components. -/
theorem length_cross {u v : List Float} (ran : cross u v = .ok values) : values.length = 3 := by
  unfold cross at ran
  obtain ⟨u₀, -, ran⟩ := exists_of_except_ok ran
  obtain ⟨u₁, -, ran⟩ := exists_of_except_ok ran
  obtain ⟨u₂, -, ran⟩ := exists_of_except_ok ran
  obtain ⟨v₀, -, ran⟩ := exists_of_except_ok ran
  obtain ⟨v₁, -, ran⟩ := exists_of_except_ok ran
  obtain ⟨v₂, -, ended⟩ := exists_of_except_ok ran
  cases ended
  rfl

/-- A unary operator gives the components of its result type. -/
theorem length_unary (op : UnaryOp) {operand : List Float}
    (arity : operand.length = type.length) :
    (unary op operand).length = (op.resultType type).length := by
  cases op with
  | neg => exact (List.length_map _).trans arity
  | abs => exact (List.length_map _).trans arity
  | length => rfl

/-- A product of two operands has the components of its result type. -/
theorem length_mul (fits : BinaryOp.productType? left.type right.type = some type)
    (ran : binary .mul type left right = .ok values) : values.length = type.length := by
  unfold binary at ran
  dsimp only at ran
  split at ran
  next => cases ran
  next =>
    split at ran
    next => exact length_spread ran
    next matrices =>
      rw [Bool.or_eq_true, Bool.or_eq_true, not_or, not_or] at matrices
      obtain ⟨⟨notLeft, notRight⟩, notVectors⟩ := matrices
      rw [BinaryOp.productType?, if_neg notLeft, if_neg notRight, if_neg notVectors] at fits
      obtain ⟨-, dims⟩ := Option.ite_none_right_eq_some.mp fits
      rw [length_product ran, ValueType.length_of_ofDims? dims]

/-- A binary operator gives the components of its result type. -/
theorem length_binary {op : BinaryOp} (fits : op.resultType? left.type right.type = some type)
    (ran : binary op type left right = .ok values) : values.length = type.length := by
  cases op with
  | add => exact length_spread ran
  | sub => exact length_spread ran
  | div => exact length_spread ran
  | mod => exact length_spread ran
  | mul => exact length_mul fits ran
  | dot =>
      cases ran
      obtain ⟨-, isFloat⟩ := Option.ite_none_right_eq_some.mp fits
      rw [← Option.some.inj isFloat]
      rfl
  | cross =>
      obtain ⟨-, isVector⟩ := Option.ite_none_right_eq_some.mp fits
      rw [length_cross ran, ← Option.some.inj isVector]
      rfl

end Arithmetic

/-- The value of a variable has the components of the variable's type. -/
theorem Bindings.length_of_value {bindings : Bindings} {type : ValueType} {name : String}
    {values : List Float} (bound : bindings.value type name = .ok values) :
    values.length = type.length := by
  unfold Bindings.value at bound
  split at bound
  next => cases bound
  next found isBound =>
    split at bound
    next arity =>
      cases bound
      exact arity
    next => cases bound

/-- Every constant in the tree has the components of its type. -/
def Tree.Complete (tree : Tree) : Prop :=
  ∀ type components, .constant type components ∈ tree.subtrees → components.length = type.length

/-- The constants of a tree in a well-formed pool have the components of their types. -/
theorem Pool.WellFormed.complete {pool : Pool} {id : NodeId} {tree : Tree} (wf : pool.WellFormed)
    (unfolded : pool.tree? id = some tree) : tree.Complete := by
  intro type components member
  obtain ⟨constant, -, isConstant⟩ := wf.exists_below unfolded member
  obtain ⟨_, found, ⟨⟩⟩ := wf.tree?_eq_some_iff.mp isConstant
  obtain ⟨kept, present⟩ := Pool.node?_eq_some_iff.mp found
  exact (wf.admitted constant _ present).normal.1

/-- The constants of a child have the components of their types if those of the tree do. -/
theorem Tree.Complete.child {tree small : Tree} (complete : tree.Complete)
    (member : small ∈ tree.children) : small.Complete :=
  fun type components inside => complete type components (mem_subtrees_of_child member inside)

/-- The value of a tree has as many components as its type. -/
theorem Tree.length_of_interpret {bindings : Bindings} {tree : Tree}
    {result : Operand (List Float)} (complete : tree.Complete)
    (interpreted : tree.interpret (numerical bindings) = .ok result) :
    result.value.length = result.type.length := by
  induction tree generalizing result with
  | constant type components =>
      cases interpreted
      exact (List.length_map _).trans (complete type components (self_mem_subtrees _))
  | var type name =>
      obtain ⟨values, bound, rfl⟩ := exists_of_map_ok interpreted
      exact Bindings.length_of_value bound
  | unary op operand ih =>
      obtain ⟨value, below, computed⟩ := exists_of_except_ok interpreted
      cases computed
      exact Arithmetic.length_unary op (ih (complete.child List.mem_cons_self) below)
  | binary lhs op rhs _ _ =>
      obtain ⟨left, -, rest⟩ := exists_of_except_ok interpreted
      obtain ⟨right, -, computed⟩ := exists_of_except_ok rest
      split at computed
      next type fits =>
        obtain ⟨values, ran, rfl⟩ := exists_of_map_ok computed
        exact Arithmetic.length_binary fits ran
      next => cases computed
  | qualified kind inner _ => cases interpreted

end Shading
