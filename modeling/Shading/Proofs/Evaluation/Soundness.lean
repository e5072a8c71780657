import Shading.Proofs.Evaluation.Components
import Shading.Proofs.Reachable

/-!
# Expressions that have a value

The typing rule of every operator matches its arithmetic: operands with the components of their
types have a component in every place that the operator reads, with one exception. A product of two
vectors has the type of the left one, also when the right one is shorter, and then it is refused
before a component is read (`Arithmetic.exists_binary`). So an expression has a value exactly if it
is plain, its variables are bound to values of their types, and no product of vectors lacks
components on the right (`Tree.exists_interpret_iff`). The value has the components of the type, and
no missing component is ever met.
-/

namespace Shading

/-! ### Operators -/

/-- A vector is not a scalar. -/
theorem ValueType.isScalar_of_isVector {type : ValueType} (vector : type.isVector = true) :
    type.isScalar = false := by
  revert vector
  cases type <;> decide

/-- A product of two vectors has the type of the left one. -/
theorem BinaryOp.productType?_of_vectors {left right : ValueType}
    (leftVector : left.isVector = true) (rightVector : right.isVector = true) :
    productType? left right = some left := by
  simp [productType?, ValueType.isScalar_of_isVector leftVector,
    ValueType.isScalar_of_isVector rightVector, leftVector, rightVector]

/-- The operand has the components of its type. -/
def Operand.Complete (operand : Operand (List Float)) : Prop :=
  operand.value.length = operand.type.length

/-- A product of two vectors of which the right one is shorter. -/
def BinaryOp.LacksComponents (op : BinaryOp) (left right : ValueType) : Prop :=
  op = .mul ∧ left.isVector = true ∧ right.isVector = true ∧ right.length < left.length

namespace Arithmetic

variable {left right operand : Operand (List Float)} {type : ValueType} {values : List Float}
  {index length : Nat}

/-- A component in a place of the list is found. -/
theorem exists_component (inside : index < values.length) :
    ∃ value, component values index = .ok value := by
  refine ⟨values[index], ?_⟩
  rw [component, List.getElem?_eq_getElem inside]

/-- An operand has the component to be spread, if it is a scalar or long enough. -/
theorem exists_spreadComponent (complete : operand.Complete)
    (covers : operand.type.isScalar = true ∨ length ≤ operand.type.length)
    (inside : index < length) : ∃ value, spreadComponent operand index = .ok value := by
  apply exists_component
  rw [complete]
  split
  next => exact operand.type.length_pos
  next notScalar => exact Nat.lt_of_lt_of_le inside (covers.resolve_left notScalar)

/-- An operation component by component succeeds if both operands cover the length. -/
theorem exists_spread (operation : Float → Float → Float) (leftComplete : left.Complete)
    (rightComplete : right.Complete)
    (leftCovers : left.type.isScalar = true ∨ length ≤ left.type.length)
    (rightCovers : right.type.isScalar = true ∨ length ≤ right.type.length) :
    ∃ values, spread operation length left right = .ok values := by
  apply exists_mapM_ok
  intro index member
  have inside := List.mem_range.mp member
  obtain ⟨x, isX⟩ := exists_spreadComponent leftComplete leftCovers inside
  obtain ⟨y, isY⟩ := exists_spreadComponent rightComplete rightCovers inside
  refine ⟨operation x y, ?_⟩
  rw [isX, isY]
  rfl

/-- An element of a product reads a row on the left and a column on the right. -/
theorem exists_productElement (leftComplete : left.Complete) (rightComplete : right.Complete)
    (inner : left.type.cols = right.type.rows) {row col : Nat} (rowInside : row < left.type.rows)
    (colInside : col < right.type.cols) :
    ∃ value, productElement left right row col = .ok value := by
  have terms : ∃ terms, (List.range left.type.cols).mapM (fun k => do
      let x ← component left.value (k * left.type.rows + row)
      let y ← component right.value (col * left.type.cols + k)
      return x * y) = Except.ok terms := by
    apply exists_mapM_ok
    intro k member
    have kInside := List.mem_range.mp member
    have leftInside : k * left.type.rows + row < left.value.length := by
      rw [leftComplete, ValueType.length, Nat.mul_comm left.type.rows]
      calc k * left.type.rows + row < (k + 1) * left.type.rows := by
            rw [Nat.succ_mul]
            omega
        _ ≤ left.type.cols * left.type.rows := Nat.mul_le_mul_right _ kInside
    have rightInside : col * left.type.cols + k < right.value.length := by
      rw [rightComplete, ValueType.length, inner, Nat.mul_comm right.type.rows]
      calc col * right.type.rows + k < (col + 1) * right.type.rows := by
            rw [Nat.succ_mul]
            omega
        _ ≤ right.type.cols * right.type.rows := Nat.mul_le_mul_right _ colInside
    obtain ⟨x, isX⟩ := exists_component leftInside
    obtain ⟨y, isY⟩ := exists_component rightInside
    refine ⟨x * y, ?_⟩
    rw [isX, isY]
    rfl
  obtain ⟨values, areTerms⟩ := terms
  refine ⟨sum values, ?_⟩
  rw [productElement, areTerms]
  rfl

/-- A matrix product succeeds if the inner dimensions are equal. -/
theorem exists_product (leftComplete : left.Complete) (rightComplete : right.Complete)
    (inner : left.type.cols = right.type.rows) : ∃ values, product left right = .ok values := by
  apply exists_mapM_ok
  intro index member
  have inside := List.mem_range.mp member
  have positive : 0 < left.type.rows := by
    cases left.type <;> decide
  exact exists_productElement leftComplete rightComplete inner (Nat.mod_lt index positive)
    (Nat.div_lt_of_lt_mul inside)

/-- A cross product of two lists of three components succeeds. -/
theorem exists_cross {u v : List Float} (uLength : u.length = 3) (vLength : v.length = 3) :
    ∃ values, cross u v = .ok values := by
  obtain ⟨u₀, isU₀⟩ := exists_component (show 0 < u.length by omega)
  obtain ⟨u₁, isU₁⟩ := exists_component (show 1 < u.length by omega)
  obtain ⟨u₂, isU₂⟩ := exists_component (show 2 < u.length by omega)
  obtain ⟨v₀, isV₀⟩ := exists_component (show 0 < v.length by omega)
  obtain ⟨v₁, isV₁⟩ := exists_component (show 1 < v.length by omega)
  obtain ⟨v₂, isV₂⟩ := exists_component (show 2 < v.length by omega)
  unfold cross
  rw [isU₀, isU₁, isU₂, isV₀, isV₁, isV₂]
  exact ⟨_, rfl⟩

/-- Both operands of a component-wise operator have a component in every place of the result. -/
theorem covers_of_spreadType? {left right : ValueType}
    (fits : BinaryOp.spreadType? left right = some type) :
    (left.isScalar = true ∨ type.length ≤ left.length) ∧
      (right.isScalar = true ∨ type.length ≤ right.length) := by
  unfold BinaryOp.spreadType? at fits
  by_cases leftScalar : left.isScalar = true
  · rw [if_pos leftScalar, Option.some.injEq] at fits
    subst fits
    exact ⟨Or.inl leftScalar, Or.inr (Nat.le_refl _)⟩
  · rw [if_neg leftScalar] at fits
    obtain ⟨spreads, same⟩ := Option.ite_none_right_eq_some.mp fits
    rw [Option.some.injEq] at same
    subst same
    refine ⟨Or.inr (Nat.le_refl _), spreads.imp id ?_⟩
    rintro rfl
    exact Nat.le_refl _

/-- An operation component by component succeeds if it is defined for the types. -/
theorem exists_spread_of_type? (operation : Float → Float → Float) (leftComplete : left.Complete)
    (rightComplete : right.Complete)
    (fits : BinaryOp.spreadType? left.type right.type = some type) :
    ∃ values, spread operation type.length left right = .ok values := by
  obtain ⟨leftCovers, rightCovers⟩ := covers_of_spreadType? fits
  exact exists_spread operation leftComplete rightComplete leftCovers rightCovers

/-- A product succeeds if it is defined for the types and lacks no components. -/
theorem exists_mul (leftComplete : left.Complete) (rightComplete : right.Complete)
    (fits : BinaryOp.productType? left.type right.type = some type)
    (enough : ¬BinaryOp.mul.LacksComponents left.type right.type) :
    ∃ values, binary .mul type left right = .ok values := by
  unfold binary
  dsimp only
  by_cases vectors : (left.type.isVector && right.type.isVector) = true
  · obtain ⟨leftVector, rightVector⟩ := Bool.and_eq_true_iff.mp vectors
    rw [BinaryOp.productType?_of_vectors leftVector rightVector, Option.some.injEq] at fits
    subst fits
    have long : left.type.length ≤ right.type.length := by
      by_contra short
      exact enough ⟨rfl, leftVector, rightVector, Nat.lt_of_not_le short⟩
    rw [if_neg (by simpa [vectors] using long), if_pos (by simp [vectors])]
    exact exists_spread _ leftComplete rightComplete (Or.inr (Nat.le_refl _)) (Or.inr long)
  · unfold BinaryOp.productType? at fits
    rw [if_neg (by simp [vectors])]
    by_cases leftScalar : left.type.isScalar = true
    · rw [if_pos leftScalar, Option.some.injEq] at fits
      subst fits
      rw [if_pos (by simp [leftScalar])]
      exact exists_spread _ leftComplete rightComplete (Or.inl leftScalar) (Or.inr (Nat.le_refl _))
    · rw [if_neg leftScalar] at fits
      by_cases rightScalar : right.type.isScalar = true
      · rw [if_pos rightScalar, Option.some.injEq] at fits
        subst fits
        rw [if_pos (by simp [rightScalar])]
        exact exists_spread _ leftComplete rightComplete (Or.inr (Nat.le_refl _))
          (Or.inl rightScalar)
      · rw [if_neg rightScalar, if_neg vectors] at fits
        obtain ⟨inner, -⟩ := Option.ite_none_right_eq_some.mp fits
        rw [if_neg (by simp [leftScalar, rightScalar, vectors])]
        exact exists_product leftComplete rightComplete inner

/-- An operator has a value for operands with the components of their types, unless it is a product
that lacks components. -/
theorem exists_binary {op : BinaryOp} (leftComplete : left.Complete)
    (rightComplete : right.Complete) (fits : op.resultType? left.type right.type = some type)
    (enough : ¬op.LacksComponents left.type right.type) :
    ∃ values, binary op type left right = .ok values := by
  cases op with
  | add => exact exists_spread_of_type? _ leftComplete rightComplete fits
  | sub => exact exists_spread_of_type? _ leftComplete rightComplete fits
  | div => exact exists_spread_of_type? _ leftComplete rightComplete fits
  | mod => exact exists_spread_of_type? _ leftComplete rightComplete fits
  | mul => exact exists_mul leftComplete rightComplete fits enough
  | dot => exact ⟨_, rfl⟩
  | cross =>
      obtain ⟨⟨leftType, rightType⟩, -⟩ := Option.ite_none_right_eq_some.mp fits
      apply exists_cross
      · rw [leftComplete, leftType]
        rfl
      · rw [rightComplete, rightType]
        rfl

/-- A product that lacks components is refused. -/
theorem binary_of_lacksComponents {op : BinaryOp}
    (fits : op.resultType? left.type right.type = some type)
    (lacks : op.LacksComponents left.type right.type) :
    binary op type left right = .error (.typeMismatch op left.type right.type) := by
  obtain ⟨rfl, leftVector, rightVector, short⟩ := lacks
  rw [BinaryOp.resultType?, BinaryOp.productType?_of_vectors leftVector rightVector,
    Option.some.injEq] at fits
  unfold binary
  dsimp only
  rw [if_pos (by simp [leftVector, rightVector, ← fits, short])]

end Arithmetic

/-! ### Trees -/

namespace Tree

variable {tree : Tree} {bindings : Bindings}

/-- The topmost node of the tree has a value if its operands have. -/
def Computable (bindings : Bindings) : Tree → Prop
  | constant .. | unary .. => True
  | var type name => ∃ values, bindings.get? name = some values ∧ values.length = type.length
  | binary lhs op rhs => ∀ left right, lhs.type? = some left → rhs.type? = some right →
    ¬op.LacksComponents left right
  | qualified .. => False

/-- Every node of the tree has a value if its operands have. -/
def Evaluable (tree : Tree) (bindings : Bindings) : Prop :=
  ∀ small ∈ tree.subtrees, small.Computable bindings

/-- A tree is evaluable if its top node is computable and its children are evaluable. -/
theorem evaluable_iff : tree.Evaluable bindings ↔
    tree.Computable bindings ∧ ∀ child ∈ tree.children, child.Evaluable bindings := by
  constructor
  · intro evaluable
    exact ⟨evaluable tree tree.self_mem_subtrees, fun child member small inside =>
      evaluable small (mem_subtrees_of_child member inside)⟩
  · rintro ⟨computable, below⟩ small member
    rcases mem_subtrees_iff.mp member with rfl | ⟨child, isChild, inside⟩
    · exact computable
    · exact below child isChild small inside

/-- A variable has a value if it is bound to the components of its type. -/
theorem exists_value_iff {type : ValueType} {name : String} :
    (∃ values, bindings.value type name = .ok values) ↔ (var type name).Computable bindings := by
  unfold Bindings.value Computable
  cases found : bindings.get? name with
  | none => simp [found]
  | some values => by_cases arity : values.length = type.length <;> simp [found, arity]

/-- Operands that have values fit an operator unless it lacks components. -/
theorem exists_interpret_binary_iff {lhs rhs : Tree} {op : BinaryOp}
    {left right : Operand (List Float)} (complete : (binary lhs op rhs).Complete)
    (typed : (binary lhs op rhs).type?.isSome)
    (first : lhs.interpret (numerical bindings) = .ok left)
    (second : rhs.interpret (numerical bindings) = .ok right) :
    (∃ result, (binary lhs op rhs).interpret (numerical bindings) = .ok result) ↔
      (binary lhs op rhs).Computable bindings := by
  have leftTyped := type?_of_interpret first
  have rightTyped := type?_of_interpret second
  obtain ⟨type, fits⟩ := Option.isSome_iff_exists.mp typed
  rw [type?, leftTyped, rightTyped] at fits
  change op.resultType? left.type right.type = some type at fits
  rw [interpret_binary first second fits]
  change (∃ result, (Arithmetic.binary op type left right).map _ = Except.ok result) ↔ _
  constructor
  · rintro ⟨result, computed⟩ leftType rightType isLeft isRight lacks
    rw [leftTyped, Option.some.injEq] at isLeft
    rw [rightTyped, Option.some.injEq] at isRight
    subst isLeft isRight
    rw [Arithmetic.binary_of_lacksComponents fits lacks] at computed
    cases computed
  · intro computable
    obtain ⟨values, ran⟩ := Arithmetic.exists_binary
      (length_of_interpret (complete.child List.mem_cons_self) first)
      (length_of_interpret (complete.child (List.mem_cons_of_mem _ List.mem_cons_self)) second) fits
      (computable _ _ leftTyped rightTyped)
    rw [ran]
    exact ⟨_, rfl⟩

/-- A tree has a value exactly if each of its nodes has one from those of its operands. -/
theorem exists_interpret_iff (complete : tree.Complete) (typed : tree.type?.isSome) :
    (∃ result, tree.interpret (numerical bindings) = .ok result) ↔ tree.Evaluable bindings := by
  induction tree with
  | constant type components =>
      rw [evaluable_iff]
      exact ⟨fun _ => ⟨trivial, nofun⟩, fun _ => ⟨_, rfl⟩⟩
  | var type name =>
      rw [evaluable_iff, ← exists_value_iff]
      constructor
      · rintro ⟨result, interpreted⟩
        obtain ⟨values, bound, -⟩ := exists_of_map_ok interpreted
        exact ⟨⟨values, bound⟩, nofun⟩
      · rintro ⟨⟨values, bound⟩, -⟩
        refine ⟨⟨type, values⟩, ?_⟩
        change (bindings.value type name).map _ = _
        rw [bound]
        rfl
  | unary op operand ih =>
      have isChild : operand ∈ (unary op operand).children := List.mem_cons_self
      have below := ih (complete.child isChild) (isSome_type?_of_mem_children typed isChild)
      rw [evaluable_iff]
      constructor
      · rintro ⟨result, interpreted⟩
        obtain ⟨value, isValue, -⟩ := exists_of_except_ok interpreted
        refine ⟨trivial, fun child member => ?_⟩
        rw [List.mem_singleton.mp member]
        exact below.mp ⟨value, isValue⟩
      · rintro ⟨-, evaluable⟩
        obtain ⟨value, isValue⟩ := below.mpr (evaluable operand isChild)
        rw [interpret_unary op isValue]
        exact ⟨_, rfl⟩
  | binary lhs op rhs ihLeft ihRight =>
      -- Only a binary operator can fail by itself, and `Computable` says when it does not.
      have isLeft : lhs ∈ (binary lhs op rhs).children := List.mem_cons_self
      have isRight : rhs ∈ (binary lhs op rhs).children :=
        List.mem_cons_of_mem _ List.mem_cons_self
      have belowLeft := ihLeft (complete.child isLeft) (isSome_type?_of_mem_children typed isLeft)
      have belowRight :=
        ihRight (complete.child isRight) (isSome_type?_of_mem_children typed isRight)
      rw [evaluable_iff]
      constructor
      · rintro ⟨result, interpreted⟩
        obtain ⟨left, first, rest⟩ := exists_of_except_ok interpreted
        obtain ⟨right, second, -⟩ := exists_of_except_ok rest
        refine ⟨(exists_interpret_binary_iff complete typed first second).mp ⟨result, interpreted⟩,
          fun child member => ?_⟩
        rcases List.mem_cons.mp member with rfl | last
        · exact belowLeft.mp ⟨left, first⟩
        · rw [List.mem_singleton.mp last]
          exact belowRight.mp ⟨right, second⟩
      · rintro ⟨computable, evaluable⟩
        obtain ⟨left, first⟩ := belowLeft.mpr (evaluable lhs isLeft)
        obtain ⟨right, second⟩ := belowRight.mpr (evaluable rhs isRight)
        exact (exists_interpret_binary_iff complete typed first second).mpr computable
  | qualified kind inner =>
      rw [evaluable_iff]
      constructor
      · rintro ⟨result, interpreted⟩
        cases interpreted
      · rintro ⟨⟨⟩, -⟩

/-- No component that is missing is ever read. -/
theorem interpret_ne_missing (complete : tree.Complete) (index : Nat) :
    tree.interpret (numerical bindings) ≠ .error (.missingComponent index) := by
  induction tree with
  | constant type components => simp [interpret, numerical, Except.map]
  | var type name =>
      change (bindings.value type name).map _ ≠ _
      unfold Bindings.value
      cases bindings.get? name with
      | none => simp [Except.map]
      | some values =>
          dsimp only
          split <;> simp [Except.map]
  | unary op operand ih =>
      have below := ih (complete.child List.mem_cons_self)
      cases interpreted : operand.interpret (numerical bindings) with
      | error cause =>
          rw [interpret_unary_of_error op interpreted, ← interpreted]
          exact below
      | ok value =>
          rw [interpret_unary op interpreted]
          simp [numerical, Except.map]
  | binary lhs op rhs ihLeft ihRight =>
      have leftComplete : lhs.Complete := complete.child List.mem_cons_self
      have rightComplete : rhs.Complete :=
        complete.child (List.mem_cons_of_mem _ List.mem_cons_self)
      cases first : lhs.interpret (numerical bindings) with
      | error cause =>
          rw [interpret_binary_of_error op rhs first, ← first]
          exact ihLeft leftComplete
      | ok left =>
          cases second : rhs.interpret (numerical bindings) with
          | error cause =>
              rw [interpret_binary_of_second_error op first second, ← second]
              exact ihRight rightComplete
          | ok right =>
              cases fits : op.resultType? left.type right.type with
              | none =>
                  rw [interpret, first, second]
                  simp only [bind, Except.bind, fits]
                  intro mismatch
                  cases mismatch
              | some type =>
                  rw [interpret_binary first second fits]
                  change (Arithmetic.binary op type left right).map _ ≠ _
                  -- Either the product is refused for its types, or every component that is
                  -- read is there.
                  by_cases lacks : op.LacksComponents left.type right.type
                  · rw [Arithmetic.binary_of_lacksComponents fits lacks]
                    simp [Except.map]
                  · obtain ⟨values, ran⟩ := Arithmetic.exists_binary
                      (length_of_interpret leftComplete first)
                      (length_of_interpret rightComplete second) fits lacks
                    simp [ran, Except.map]
  | qualified kind inner =>
      intro refused
      cases refused

end Tree

/-! ### Graphs -/

/-- What evaluation asks of the nodes below a root. -/
structure Pool.Evaluable (pool : Pool) (bindings : Bindings) (root : NodeId) : Prop where
  plain : ∀ id kind inner, pool.Below root id → pool.node? id ≠ some (.qualified kind inner)
  /-- Variables have as many components as their types. -/
  bound : ∀ id type name, pool.Below root id → pool.node? id = some (.var type name) →
    ∃ values, bindings.get? name = some values ∧ values.length = type.length
  /-- The right one of two vectors is not shorter than the left one. -/
  products : ∀ id lhs rhs left right, pool.Below root id →
    pool.node? id = some (.binary lhs .mul rhs) → pool.typeOf lhs = .ok left →
    pool.typeOf rhs = .ok right → left.isVector = true → right.isVector = true →
      left.length ≤ right.length

variable {pool : Pool} {root : NodeId} {bindings : Bindings}

/-- The tree of an evaluable graph is evaluable. -/
theorem Pool.WellFormed.evaluable_tree {tree : Tree} (wf : pool.WellFormed)
    (unfolded : pool.tree? root = some tree) (evaluable : pool.Evaluable bindings root) :
    tree.Evaluable bindings := by
  intro small member
  obtain ⟨id, below, smallTree⟩ := wf.exists_below unfolded member
  cases small with
  | constant type components => trivial
  | var type name => exact evaluable.bound id type name below (wf.node?_var_iff.mpr smallTree)
  | unary op operand => trivial
  | binary lhs op rhs =>
      rintro left right leftTyped rightTyped ⟨rfl, leftVector, rightVector, short⟩
      obtain ⟨_, found, shown⟩ := wf.tree?_eq_some_iff.mp smallTree
      cases shown with
      | binary op isLeft isRight =>
          rw [← wf.type?_of_tree? isLeft, ← Pool.typeOf_eq_ok_iff] at leftTyped
          rw [← wf.type?_of_tree? isRight, ← Pool.typeOf_eq_ok_iff] at rightTyped
          have long := evaluable.products id _ _ left right below found leftTyped rightTyped
            leftVector rightVector
          omega
  | qualified kind inner =>
      obtain ⟨innerId, found, -⟩ := wf.exists_inner smallTree
      exact evaluable.plain id kind innerId below found

/-- A graph is evaluable if its tree is. -/
theorem Pool.WellFormed.evaluable_graph {tree : Tree} (wf : pool.WellFormed)
    (unfolded : pool.tree? root = some tree) (evaluable : tree.Evaluable bindings) :
    pool.Evaluable bindings root where
  plain id kind inner below found := by
    obtain ⟨small, member, smallTree⟩ := wf.tree?_of_below unfolded below
    have isQualified := wf.qualifier?_eq smallTree found
    obtain ⟨innerTree, rfl⟩ := Tree.eq_qualified_of_qualifier? isQualified
    exact evaluable _ member
  bound id type name below found := by
    obtain ⟨small, member, smallTree⟩ := wf.tree?_of_below unfolded below
    rw [wf.node?_var_iff.mp found] at smallTree
    cases smallTree
    exact evaluable _ member
  products id lhs rhs left right below found leftTyped rightTyped leftVector rightVector := by
    obtain ⟨small, member, smallTree⟩ := wf.tree?_of_below unfolded below
    have shown := wf.shows found smallTree
    cases shown with
    | binary op isLeft isRight =>
        rw [Pool.typeOf_eq_ok_iff, wf.type?_of_tree? isLeft] at leftTyped
        rw [Pool.typeOf_eq_ok_iff, wf.type?_of_tree? isRight] at rightTyped
        have enough := evaluable _ member left right leftTyped rightTyped
        by_contra short
        exact enough ⟨rfl, leftVector, rightVector, Nat.lt_of_not_le short⟩

/-- Evaluation never reads a component that is missing. It gives a value exactly if nothing below
the root is qualified, all variables are bound to values of their types, and no product of vectors
has a shorter one on the right, and the value has the components of the type. -/
theorem evaluate_sound (reachable : pool.Reachable) {type : ValueType}
    (typed : pool.typeOf root = .ok type) (bindings : Bindings) :
    (∀ index, evaluate pool root bindings ≠ .error (.missingComponent index)) ∧
      ((∃ values, evaluate pool root bindings = .ok values) ↔ pool.Evaluable bindings root) ∧
      ∀ values, evaluate pool root bindings = .ok values → values.length = type.length := by
  have wf := reachable.wellFormed
  obtain ⟨tree, unfolded⟩ := wf.exists_tree?_of_typeOf typed
  have complete := wf.complete unfolded
  have sameType := wf.type?_of_tree? unfolded
  rw [Pool.typeOf_eq_ok_iff.mp typed] at sameType
  have succeeds : (∃ result, tree.interpret (numerical bindings) = .ok result) ↔
      tree.Evaluable bindings := Tree.exists_interpret_iff complete (wf.isSome_type? unfolded)
  rw [evaluate, Interpretation.result_of_tree? _ wf unfolded]
  refine ⟨fun index missing => ?_, ⟨?_, ?_⟩, ?_⟩
  · cases interpreted : tree.interpret (numerical bindings) with
    | ok result =>
        rw [interpreted] at missing
        cases missing
    | error cause =>
        rw [interpreted] at missing
        cases missing
        exact Tree.interpret_ne_missing complete index interpreted
  · rintro ⟨values, evaluated⟩
    obtain ⟨result, interpreted, -⟩ := exists_of_map_ok evaluated
    exact wf.evaluable_graph unfolded (succeeds.mp ⟨result, interpreted⟩)
  · intro evaluable
    obtain ⟨result, interpreted⟩ := succeeds.mpr (wf.evaluable_tree unfolded evaluable)
    rw [interpreted]
    exact ⟨_, rfl⟩
  · intro values evaluated
    obtain ⟨result, interpreted, rfl⟩ := exists_of_map_ok evaluated
    rw [Tree.type?_of_interpret interpreted, Option.some.injEq] at sameType
    rw [sameType]
    exact Tree.length_of_interpret complete interpreted

/-- A pool with products of vectors: 3 is longer on the left, 4 on the right, and 6 is a matrix
times 4. -/
def unequalVectors : Pool :=
  (Pool.empty 0).afterCalls
    [.var .vec3 "a", .var .vec2 "b", .var .mat2 "m", .binary 0 .mul 1, .binary 1 .mul 0,
      .binary 0 .cross 0, .binary 2 .mul 4]

/-- Values of the variables. -/
def unequalVectorsValues : Bindings :=
  .ofList [("a", [1, 2, 3]), ("b", [4, 5]), ("m", [1, 0, 0, 1])]

/-- A product of vectors is evaluated in the one order of its operands and refused in the other. -/
theorem evaluate_sound_unequalVectors :
    (∃ values, evaluate unequalVectors 6 unequalVectorsValues = .ok values ∧ values.length = 2) ∧
      unequalVectors.Evaluable unequalVectorsValues 6 ∧
      ¬unequalVectors.Evaluable unequalVectorsValues 3 := by
  have reachable : unequalVectors.Reachable := ⟨0, _, rfl⟩
  have typed : unequalVectors.typeOf 6 = .ok .vec2 := by decide +kernel
  have shortTyped : unequalVectors.typeOf 3 = .ok .vec3 := by decide +kernel
  have succeeds : (evaluate unequalVectors 6 unequalVectorsValues).isOk = true := by
    decide +kernel
  have fails : (evaluate unequalVectors 3 unequalVectorsValues).isOk = false := by
    decide +kernel
  obtain ⟨-, evaluable, arity⟩ := evaluate_sound reachable typed unequalVectorsValues
  obtain ⟨-, shortEvaluable, -⟩ := evaluate_sound reachable shortTyped unequalVectorsValues
  cases evaluated : evaluate unequalVectors 6 unequalVectorsValues with
  | error cause =>
      rw [evaluated] at succeeds
      cases succeeds
  | ok values =>
      refine ⟨⟨values, rfl, arity values evaluated⟩, evaluable.mp ⟨values, evaluated⟩, ?_⟩
      intro short
      obtain ⟨others, computed⟩ := shortEvaluable.mpr short
      rw [computed] at fails
      cases fails

end Shading
