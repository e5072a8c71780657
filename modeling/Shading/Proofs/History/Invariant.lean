import Shading.Proofs.Reachable

/-!
# The representation invariant of a pool

Whatever calls are made on an empty pool, in whatever order and whether or not they fail, the pool
is consistent: its two maps are inverse to each other, its graph has no cycles and no missing
nodes, the types kept with the nodes are those of their trees, and what is marked is closed under
children. The calls check none of this; it follows from the order in which nodes are made.
-/

namespace Shading

namespace Pool

variable {pool : Pool} {id : NodeId} {entry : Entry}

/-- The representation of a pool is sound. -/
structure Consistent (pool : Pool) : Prop where
  /-- The index and the nodes are inverse to each other. -/
  inverse : ∀ node id, pool.lookup node = some id ↔ pool.node? id = some node
  /-- Every identity in the pool is older than the next one. -/
  lt_nextId : ∀ id, pool.contains id = true → id < pool.nextId
  /-- The children of a node are older expressions of the pool. -/
  children : ∀ id node, pool.node? id = some node → ∀ child ∈ node.children,
    child < id ∧ ∃ below, pool.node? child = some below ∧ below.isExpr = true
  /-- The type kept with an expression is the one that the operators give to its tree. -/
  typed : ∀ id entry, pool.entry? id = some entry → entry.node.isExpr = true →
    ∃ tree type, pool.tree? id = some tree ∧ tree.type? = some type ∧ entry.type = some type
  /-- A program has no type. -/
  untyped : ∀ id entry, pool.entry? id = some entry → entry.node.isExpr = false →
    entry.type = none
  /-- A constant has the components of its type, and no zero among them is negative. -/
  literals : ∀ id type components, pool.node? id = some (.constant type components) →
    components.length = type.length ∧ Binary64.negativeZero ∉ components
  /-- What is marked is in the pool, with everything below it. -/
  marked : ∀ id ∈ pool.marked, pool.contains id = true ∧
    ∀ child, pool.Child id child → child ∈ pool.marked

namespace WellFormed

/-- A node that has a type is an expression. -/
theorem isExpr_of_isSome_type? (wf : pool.WellFormed) (typed : (pool.type? id).isSome) :
    ∃ node, pool.node? id = some node ∧ node.isExpr = true := by
  obtain ⟨tree, unfolded⟩ := wf.exists_tree?_of_type? typed
  obtain ⟨node, found, shown⟩ := wf.tree?_eq_some_iff.mp unfolded
  exact ⟨node, found, shown.isExpr⟩

/-- The type kept with an expression is the type of its tree. -/
theorem typed_of_isExpr (wf : pool.WellFormed) (found : pool.entry? id = some entry)
    (isExpr : entry.node.isExpr = true) :
    ∃ tree type, pool.tree? id = some tree ∧ tree.type? = some type ∧ entry.type = some type := by
  obtain ⟨tree, unfolded⟩ := wf.exists_tree?_of_isExpr found isExpr
  obtain ⟨type, treeType, typeEq⟩ := wf.exists_type? unfolded
  rw [Pool.type?, found] at typeEq
  exact ⟨tree, type, unfolded, treeType, typeEq⟩

/-- A constant has the components of its type, and no zero among them is negative. -/
theorem negativeZero_notMem (wf : pool.WellFormed) {type : ValueType} {components : List Binary64}
    (found : pool.node? id = some (.constant type components)) :
    components.length = type.length ∧ Binary64.negativeZero ∉ components := by
  obtain ⟨kept, present⟩ := node?_eq_some_iff.mp found
  obtain ⟨arity, normal⟩ := (wf.admitted id _ present).normal
  refine ⟨arity, fun member => ?_⟩
  have changed : Binary64.negativeZero.normalize ≠ Binary64.negativeZero := by decide
  exact changed (normal _ member)

/-- A well-formed pool is consistent. -/
theorem consistent (wf : pool.WellFormed) : pool.Consistent where
  inverse := wf.indexed
  lt_nextId id present := by
    obtain ⟨entry, found⟩ := Option.isSome_iff_exists.mp present
    exact lt_size_of_present found
  children id node found child member :=
    ⟨wf.child_lt found member, wf.isExpr_of_isSome_type? (wf.child_type? found member)⟩
  typed id entry found isExpr := wf.typed_of_isExpr found isExpr
  untyped id entry found notExpr := by
    rw [(wf.admitted id entry found).typed]
    cases isNode : entry.node with
    | shader program => rfl
    | constant _ _ | var _ _ | unary _ _ | binary _ _ _ | qualified _ _ =>
        rw [isNode] at notExpr
        cases notExpr
  literals id type components found := wf.negativeZero_notMem found
  marked id member := by
    obtain ⟨entry, found, closed⟩ := wf.marked id member
    refine ⟨contains_of_present found, ?_⟩
    rintro child ⟨node, isNode, isChild⟩
    rw [Pool.node?, found] at isNode
    cases isNode
    exact closed child isChild

end WellFormed

/-- Every sequence of calls leaves a consistent pool. -/
theorem afterCalls_consistent (session : Nat) (calls : List Call) :
    ((empty session).afterCalls calls).Consistent := by
  have wf := ((wellFormed_empty session).afterCalls calls).1
  exact wf.consistent

end Pool

end Shading
