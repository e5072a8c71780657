import Shading.Node

/-!
# Expression trees

The tree of an expression is the graph below it with every shared node written out in each of its
places. Rewriting a graph is compared with rewriting its tree: `Tree.substitute` replaces a subtree
in every place, `Tree.replace` gives variables a tree by their name, and `Tree.erase` forgets where
expressions are supplied.
-/

namespace Shading

/-- An expression without sharing. -/
inductive Tree where
  | constant (type : ValueType) (components : List Binary64)
  | var (type : ValueType) (name : String)
  | unary (op : UnaryOp) (operand : Tree)
  | binary (lhs : Tree) (op : BinaryOp) (rhs : Tree)
  | qualified (kind : Qualifier) (inner : Tree)
  deriving DecidableEq

namespace Tree

/-- The type that the rules of the operators give to a tree. -/
def type? : Tree → Option ValueType
  | constant type _ | var type _ => some type
  | unary op operand => operand.type?.map op.resultType
  | binary lhs op rhs => lhs.type?.bind fun left => rhs.type?.bind (op.resultType? left)
  | qualified _ inner => inner.type?

/-- The qualifier of a qualified tree. -/
def qualifier? : Tree → Option Qualifier
  | qualified kind _ => some kind
  | _ => none

/-- The tree inside a qualified one. -/
def inner : Tree → Tree
  | qualified _ inner => inner
  | tree => tree

/-- The trees directly inside a tree, from left to right. -/
def children : Tree → List Tree
  | constant .. | var .. => []
  | unary _ operand => [operand]
  | binary lhs _ rhs => [lhs, rhs]
  | qualified _ inner => [inner]

/-- Every subtree in each of its places, a tree before what is inside it, from left to right. -/
def subtrees : Tree → List Tree
  | constant type components => [constant type components]
  | var type name => [var type name]
  | unary op operand => unary op operand :: operand.subtrees
  | binary lhs op rhs => binary lhs op rhs :: (lhs.subtrees ++ rhs.subtrees)
  | qualified kind inner => qualified kind inner :: inner.subtrees

/-- The type and the name of every variable in each of its places, from left to right. -/
def vars (tree : Tree) : List (ValueType × String) :=
  tree.subtrees.filterMap fun
    | var type name => some (type, name)
    | _ => none

/-- The tree without qualifiers. -/
@[simp]
def erase : Tree → Tree
  | constant type components => constant type components
  | var type name => var type name
  | unary op operand => unary op operand.erase
  | binary lhs op rhs => binary lhs.erase op rhs.erase
  | qualified _ inner => inner.erase

/-- The tree without one of the qualifiers. -/
@[simp]
def unwrap (removed : Qualifier) : Tree → Tree
  | constant type components => constant type components
  | var type name => var type name
  | unary op operand => unary op (operand.unwrap removed)
  | binary lhs op rhs => binary (lhs.unwrap removed) op (rhs.unwrap removed)
  | qualified kind inner =>
    if kind = removed then inner.unwrap removed else qualified kind (inner.unwrap removed)

/-- The tree with variables replaced, all at once, by what is supplied under their names. -/
@[simp]
def replace (supply : String → Option Tree) : Tree → Tree
  | constant type components => constant type components
  | var type name => (supply name).getD (var type name)
  | unary op operand => unary op (operand.replace supply)
  | binary lhs op rhs => binary (lhs.replace supply) op (rhs.replace supply)
  | qualified kind inner => qualified kind (inner.replace supply)

/-- The tree with a replacement in every place of a target; a replacement is not searched. -/
def substitute (tree target replacement : Tree) : Tree :=
  if tree = target then replacement
  else
    match tree with
    | constant type components => constant type components
    | var type name => var type name
    | unary op operand => unary op (operand.substitute target replacement)
    | binary lhs op rhs =>
      binary (lhs.substitute target replacement) op (rhs.substitute target replacement)
    | qualified kind inner => qualified kind (inner.substitute target replacement)

/-! ### Subtrees -/

/-- The subtrees are the tree itself and those of its children, from left to right. -/
theorem subtrees_eq (tree : Tree) : tree.subtrees = tree :: tree.children.flatMap subtrees := by
  cases tree <;> simp [subtrees, children]

/-- A subtree is the tree itself or inside one of its children. -/
theorem mem_subtrees_iff {small large : Tree} :
    small ∈ large.subtrees ↔ small = large ∨ ∃ child ∈ large.children, small ∈ child.subtrees := by
  rw [subtrees_eq, List.mem_cons, List.mem_flatMap]

/-- A tree is one of its subtrees. -/
theorem self_mem_subtrees (tree : Tree) : tree ∈ tree.subtrees :=
  mem_subtrees_iff.mpr (Or.inl rfl)

/-- The listed variables are those among the subtrees. -/
theorem mem_vars_iff {tree : Tree} {type : ValueType} {name : String} :
    (type, name) ∈ tree.vars ↔ var type name ∈ tree.subtrees := by
  rw [vars, List.mem_filterMap]
  constructor
  · rintro ⟨small, member, found⟩
    cases small with
    | var smallType smallName =>
        cases found
        exact member
    | constant _ _ | unary _ _ | binary _ _ _ | qualified _ _ => cases found
  · intro member
    exact ⟨var type name, member, rfl⟩

@[simp]
theorem vars_constant (type : ValueType) (components : List Binary64) :
    (constant type components).vars = [] :=
  rfl

@[simp]
theorem vars_var (type : ValueType) (name : String) : (var type name).vars = [(type, name)] :=
  rfl

@[simp]
theorem vars_unary (op : UnaryOp) (operand : Tree) : (unary op operand).vars = operand.vars :=
  rfl

@[simp]
theorem vars_binary (lhs : Tree) (op : BinaryOp) (rhs : Tree) :
    (binary lhs op rhs).vars = lhs.vars ++ rhs.vars :=
  List.filterMap_append

@[simp]
theorem vars_qualified (kind : Qualifier) (inner : Tree) :
    (qualified kind inner).vars = inner.vars :=
  rfl

/-- What is inside a child is inside the tree. -/
theorem mem_subtrees_of_child {small child large : Tree} (member : child ∈ large.children)
    (inside : small ∈ child.subtrees) : small ∈ large.subtrees :=
  mem_subtrees_iff.mpr (Or.inr ⟨child, member, inside⟩)

/-- A child is smaller than the tree. -/
theorem sizeOf_lt_of_mem_children {child tree : Tree} (member : child ∈ tree.children) :
    sizeOf child < sizeOf tree := by
  cases tree with
  | constant type components => exact absurd member List.not_mem_nil
  | var type name => exact absurd member List.not_mem_nil
  | unary op operand =>
      rw [List.mem_singleton.mp member, unary.sizeOf_spec]
      omega
  | binary lhs op rhs =>
      rw [binary.sizeOf_spec]
      rcases List.mem_cons.mp member with rfl | last
      · omega
      · rw [List.mem_singleton.mp last]
        omega
  | qualified kind inner =>
      rw [List.mem_singleton.mp member, qualified.sizeOf_spec]
      omega

/-- What holds of a tree whenever it holds of its children holds of every tree. -/
@[elab_as_elim]
theorem induction_on_children {motive : Tree → Prop} (tree : Tree)
    (step : ∀ tree : Tree, (∀ child ∈ tree.children, motive child) → motive tree) :
    motive tree :=
  step tree fun child _ => induction_on_children child step
termination_by sizeOf tree
decreasing_by exact sizeOf_lt_of_mem_children ‹_›

/-- A subtree of a subtree is a subtree. -/
theorem mem_subtrees_trans {small middle large : Tree} (first : small ∈ middle.subtrees)
    (second : middle ∈ large.subtrees) : small ∈ large.subtrees := by
  induction large using induction_on_children with
  | step large ih =>
      rcases mem_subtrees_iff.mp second with rfl | ⟨child, member, inside⟩
      · exact first
      · exact mem_subtrees_of_child member (ih child member inside)

/-- What is qualified is inside the qualified tree. -/
theorem inner_mem_subtrees (kind : Qualifier) (inner : Tree) :
    inner ∈ (qualified kind inner).subtrees :=
  mem_subtrees_of_child List.mem_cons_self inner.self_mem_subtrees

/-- No subtree is larger than the tree. -/
theorem sizeOf_le_of_mem_subtrees {small large : Tree} (member : small ∈ large.subtrees) :
    sizeOf small ≤ sizeOf large := by
  induction large using induction_on_children with
  | step large ih =>
      rcases mem_subtrees_iff.mp member with rfl | ⟨child, isChild, inside⟩
      · exact Nat.le_refl _
      · have smaller := ih child isChild inside
        have larger := sizeOf_lt_of_mem_children isChild
        omega

/-- No qualified tree is inside the tree that it qualifies. -/
theorem qualified_notMem_subtrees (kind : Qualifier) (inner : Tree) :
    qualified kind inner ∉ inner.subtrees := by
  intro member
  have smaller := sizeOf_le_of_mem_subtrees member
  rw [qualified.sizeOf_spec] at smaller
  omega

/-- The children of a tree that has a type have types. -/
theorem isSome_type?_of_mem_children {child tree : Tree} (typed : tree.type?.isSome)
    (member : child ∈ tree.children) : child.type?.isSome := by
  obtain ⟨type, typeEq⟩ := Option.isSome_iff_exists.mp typed
  cases tree with
  | constant _ _ => cases member
  | var _ _ => cases member
  | unary op operand =>
      obtain ⟨operandType, operandTyped, -⟩ := Option.map_eq_some_iff.mp typeEq
      rw [List.mem_singleton.mp member, operandTyped]
      rfl
  | binary lhs op rhs =>
      obtain ⟨left, leftTyped, rest⟩ := Option.bind_eq_some_iff.mp typeEq
      obtain ⟨right, rightTyped, -⟩ := Option.bind_eq_some_iff.mp rest
      rcases List.mem_cons.mp member with rfl | last
      · rw [leftTyped]
        rfl
      · rw [List.mem_singleton.mp last, rightTyped]
        rfl
  | qualified kind inner => exact List.mem_singleton.mp member ▸ typed

/-- Everything inside a tree with a type has a type. -/
theorem isSome_type?_of_mem_subtrees {small large : Tree} (typed : large.type?.isSome)
    (member : small ∈ large.subtrees) : small.type?.isSome := by
  induction large using induction_on_children with
  | step large ih =>
      rcases mem_subtrees_iff.mp member with rfl | ⟨child, isChild, inside⟩
      · exact typed
      · exact ih child isChild (isSome_type?_of_mem_children typed isChild) inside

/-- Somewhere inside the tree an operator is applied to operands for whose types it is not
defined. -/
def Mismatch (tree : Tree) (op : BinaryOp) (left right : ValueType) : Prop :=
  ∃ lhs rhs, binary lhs op rhs ∈ tree.subtrees ∧ lhs.type? = some left ∧
    rhs.type? = some right ∧ op.resultType? left right = none

namespace Mismatch

variable {tree large : Tree} {op : BinaryOp} {left right : ValueType}

/-- A tree with a mismatch has no type. -/
theorem type?_eq_none (mismatch : tree.Mismatch op left right) : tree.type? = none := by
  obtain ⟨lhs, rhs, inside, leftTyped, rightTyped, unfit⟩ := mismatch
  rw [← Option.not_isSome_iff_eq_none]
  intro typed
  have innerTyped := isSome_type?_of_mem_subtrees typed inside
  rw [type?, leftTyped, rightTyped, Option.bind_some, Option.bind_some, unfit] at innerTyped
  cases innerTyped

/-- A mismatch inside a subtree is one inside the tree. -/
theorem of_mem_subtrees (mismatch : tree.Mismatch op left right) (member : tree ∈ large.subtrees) :
    large.Mismatch op left right := by
  obtain ⟨lhs, rhs, inside, unfit⟩ := mismatch
  exact ⟨lhs, rhs, mem_subtrees_trans inside member, unfit⟩

end Mismatch

end Tree

end Shading
