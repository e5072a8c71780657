import Mathlib.Data.List.Forall2
import Mathlib.Logic.Relation
import Shading.Proofs.Pool.Operations
import Shading.Proofs.Pool.Traversal
import Shading.Proofs.Tree.Extraction

/-!
# The trees of a pool

`Pool.tree?` unfolds the graph below an expression. In a well-formed pool every expression has a
tree, two expressions never have the same tree, and adding nodes changes no tree. The nodes below
an expression are those of its subtrees, and the qualified nodes that a traversal collects are
those of the qualified subtrees, in the same order (`Pool.WellFormed.qualifiedAs_spec`).
-/

namespace Shading.Pool

variable {pool before after : Pool} {id root : NodeId} {node : Node} {tree : Tree}

/-- The tree of an expression. Only older children are followed, which are all of them. -/
def tree? (pool : Pool) (id : NodeId) : Option Tree :=
  match pool.node? id with
  | some (.constant type components) => some (.constant type components)
  | some (.var type name) => some (.var type name)
  | some (.unary op operand) =>
    if operand < id then (pool.tree? operand).map (.unary op) else none
  | some (.binary lhs op rhs) =>
    if lhs < id ∧ rhs < id then
      (pool.tree? lhs).bind fun left => (pool.tree? rhs).map (.binary left op)
    else none
  | some (.qualified kind inner) =>
    if inner < id then (pool.tree? inner).map (.qualified kind) else none
  | some (.shader _) | none => none
termination_by id
decreasing_by
  · assumption
  · exact And.left ‹_›
  · exact And.right ‹_›
  · assumption

/-- Expressions have given trees, one by one. -/
abbrev Unfolds (pool : Pool) (ids : List NodeId) (trees : List Tree) : Prop :=
  List.Forall₂ (fun id tree => pool.tree? id = some tree) ids trees

/-- The tree has the structure of the node over the trees of the node's children. -/
inductive Shows (pool : Pool) : Node → Tree → Prop where
  | constant (type : ValueType) (components : List Binary64) :
      Shows pool (.constant type components) (.constant type components)
  | var (type : ValueType) (name : String) : Shows pool (.var type name) (.var type name)
  | unary (op : UnaryOp) {operand : NodeId} {tree : Tree}
      (below : pool.tree? operand = some tree) :
      Shows pool (.unary op operand) (.unary op tree)
  | binary (op : BinaryOp) {lhs rhs : NodeId} {left right : Tree}
      (belowLeft : pool.tree? lhs = some left) (belowRight : pool.tree? rhs = some right) :
      Shows pool (.binary lhs op rhs) (.binary left op right)
  | qualified (kind : Qualifier) {inner : NodeId} {tree : Tree}
      (below : pool.tree? inner = some tree) :
      Shows pool (.qualified kind inner) (.qualified kind tree)

/-- A node is a child of another. -/
def Child (pool : Pool) (parent child : NodeId) : Prop :=
  ∃ node, pool.node? parent = some node ∧ child ∈ node.children

/-- A node can be reached from a root by going from nodes to their children. -/
def Below (pool : Pool) : NodeId → NodeId → Prop :=
  Relation.ReflTransGen pool.Child

/-! ### One layer of a tree -/

namespace Shows

/-- The children of a node have the children of its tree, one by one. -/
theorem unfolds (shown : pool.Shows node tree) : pool.Unfolds node.children tree.children := by
  cases shown with
  | constant type components => exact .nil
  | var type name => exact .nil
  | unary op below => exact .cons below .nil
  | binary op belowLeft belowRight => exact .cons belowLeft (.cons belowRight .nil)
  | qualified kind below => exact .cons below .nil

/-- A node and its tree have the same qualifier. -/
theorem qualifier?_eq (shown : pool.Shows node tree) : tree.qualifier? = node.qualifier? := by
  cases shown <;> rfl

/-- A node that has a tree is an expression. -/
theorem isExpr (shown : pool.Shows node tree) : node.isExpr = true := by
  cases shown <;> rfl

/-- A layer is the same in a pool in which the children have the same trees. -/
theorem transfer (shown : before.Shows node tree)
    (same : ∀ child ∈ node.children, ∀ small ∈ tree.children, before.tree? child = some small →
      after.tree? child = some small) : after.Shows node tree := by
  cases shown with
  | constant type components => exact .constant type components
  | var type name => exact .var type name
  | unary op below => exact .unary op (same _ List.mem_cons_self _ List.mem_cons_self below)
  | binary op belowLeft belowRight =>
      have second {α : Type} (first last : α) : last ∈ [first, last] :=
        List.mem_cons_of_mem _ List.mem_cons_self
      exact .binary op (same _ List.mem_cons_self _ List.mem_cons_self belowLeft)
        (same _ (second _ _) _ (second _ _) belowRight)
  | qualified kind below =>
      exact .qualified kind (same _ List.mem_cons_self _ List.mem_cons_self below)

end Shows

/-- A node has a tree if the tree shows its structure over the trees of its children. -/
theorem WellFormed.tree?_eq_some_iff (wf : pool.WellFormed) :
    pool.tree? id = some tree ↔ ∃ node, pool.node? id = some node ∧ pool.Shows node tree := by
  rw [tree?.eq_def]
  constructor
  · intro unfolded
    split at unfolded
    next type components found =>
      cases unfolded
      exact ⟨_, found, .constant type components⟩
    next type name found =>
      cases unfolded
      exact ⟨_, found, .var type name⟩
    next op operand found =>
      obtain ⟨-, isSome⟩ := Option.ite_none_right_eq_some.mp unfolded
      obtain ⟨inner, below, rfl⟩ := Option.map_eq_some_iff.mp isSome
      exact ⟨_, found, .unary op below⟩
    next lhs op rhs found =>
      obtain ⟨-, isSome⟩ := Option.ite_none_right_eq_some.mp unfolded
      obtain ⟨left, belowLeft, rest⟩ := Option.bind_eq_some_iff.mp isSome
      obtain ⟨right, belowRight, rfl⟩ := Option.map_eq_some_iff.mp rest
      exact ⟨_, found, .binary op belowLeft belowRight⟩
    next kind operand found =>
      obtain ⟨-, isSome⟩ := Option.ite_none_right_eq_some.mp unfolded
      obtain ⟨inner, below, rfl⟩ := Option.map_eq_some_iff.mp isSome
      exact ⟨_, found, .qualified kind below⟩
    all_goals cases unfolded
  · rintro ⟨node, found, shown⟩
    have older : ∀ child ∈ node.children, child < id := fun child => wf.child_lt found
    rw [found]
    cases shown with
    | constant type components => rfl
    | var type name => rfl
    | unary op below => simp only [if_pos (older _ List.mem_cons_self), below, Option.map_some]
    | binary op belowLeft belowRight =>
        have both := And.intro (older _ List.mem_cons_self)
          (older _ (List.mem_cons_of_mem _ List.mem_cons_self))
        simp only [if_pos both, belowLeft, belowRight, Option.bind_some, Option.map_some]
    | qualified kind below =>
        simp only [if_pos (older _ List.mem_cons_self), below, Option.map_some]

/-- A tree that shows the structure of a node is the tree of the node. -/
theorem WellFormed.tree?_of_shows (wf : pool.WellFormed) (found : pool.node? id = some node)
    (shown : pool.Shows node tree) : pool.tree? id = some tree :=
  wf.tree?_eq_some_iff.mpr ⟨node, found, shown⟩

/-- The tree of a node shows its structure. -/
theorem WellFormed.shows (wf : pool.WellFormed) (found : pool.node? id = some node)
    (unfolded : pool.tree? id = some tree) : pool.Shows node tree := by
  obtain ⟨same, sameFound, shown⟩ := wf.tree?_eq_some_iff.mp unfolded
  rw [found] at sameFound
  cases sameFound
  exact shown

/-- A node that has a tree is in the pool. -/
theorem WellFormed.contains_of_tree? (wf : pool.WellFormed) (unfolded : pool.tree? id = some tree) :
    pool.contains id = true := by
  obtain ⟨node, found, _⟩ := wf.tree?_eq_some_iff.mp unfolded
  obtain ⟨type, present⟩ := node?_eq_some_iff.mp found
  exact contains_of_present present

/-- Every node that has a type has a tree. -/
theorem WellFormed.exists_tree?_of_type? (wf : pool.WellFormed) (typed : (pool.type? id).isSome) :
    ∃ tree, pool.tree? id = some tree := by
  induction id using Nat.strongRecOn with
  | ind id ih =>
      obtain ⟨type, typeEq⟩ := Option.isSome_iff_exists.mp typed
      obtain ⟨⟨node, entryType⟩, present, isType⟩ := Option.bind_eq_some_iff.mp typeEq
      have found := node?_eq_some_iff.mpr ⟨entryType, present⟩
      have childTree : ∀ child ∈ node.children, ∃ tree, pool.tree? child = some tree :=
        fun child member => ih child (wf.child_lt found member) (wf.child_type? found member)
      have layer : ∃ tree, pool.Shows node tree := by
        cases node with
        | constant type components => exact ⟨_, .constant type components⟩
        | var type name => exact ⟨_, .var type name⟩
        | unary op operand =>
            obtain ⟨tree, below⟩ := childTree operand List.mem_cons_self
            exact ⟨_, .unary op below⟩
        | binary lhs op rhs =>
            obtain ⟨left, belowLeft⟩ := childTree lhs List.mem_cons_self
            obtain ⟨right, belowRight⟩ :=
              childTree rhs (List.mem_cons_of_mem _ List.mem_cons_self)
            exact ⟨_, .binary op belowLeft belowRight⟩
        | qualified kind inner =>
            obtain ⟨tree, below⟩ := childTree inner List.mem_cons_self
            exact ⟨_, .qualified kind below⟩
        | shader program =>
            rw [wf.type?_eq found] at typeEq
            cases typeEq
      obtain ⟨tree, shown⟩ := layer
      exact ⟨tree, wf.tree?_of_shows found shown⟩

/-- Every expression of the pool has a tree. -/
theorem WellFormed.exists_tree?_of_isExpr (wf : pool.WellFormed) {entry : Entry}
    (found : pool.entry? id = some entry) (isExpr : entry.node.isExpr = true) :
    ∃ tree, pool.tree? id = some tree := by
  apply wf.exists_tree?_of_type?
  rw [Pool.type?, found]
  exact (wf.admitted id entry found).total isExpr

/-- A node of a pool is an expression or a program. -/
theorem WellFormed.exists_tree?_or_shader (wf : pool.WellFormed)
    (present : pool.contains id = true) :
    (∃ tree, pool.tree? id = some tree) ∨ ∃ program, pool.node? id = some (.shader program) := by
  obtain ⟨⟨node, type⟩, found⟩ := Option.isSome_iff_exists.mp present
  cases isExpr : node.isExpr with
  | true => exact Or.inl (wf.exists_tree?_of_isExpr found isExpr)
  | false =>
      cases node with
      | shader program => exact Or.inr ⟨program, node?_eq_some_iff.mpr ⟨type, found⟩⟩
      | constant _ _ | var _ _ | unary _ _ | binary _ _ _ | qualified _ _ => cases isExpr

/-- A node whose type can be asked has a tree. -/
theorem WellFormed.exists_tree?_of_typeOf (wf : pool.WellFormed) {type : ValueType}
    (typed : pool.typeOf id = .ok type) : ∃ tree, pool.tree? id = some tree := by
  apply wf.exists_tree?_of_type?
  rw [typeOf_eq_ok_iff.mp typed]
  rfl

/-- The type of an expression is the type of its tree. -/
theorem WellFormed.type?_of_tree? (wf : pool.WellFormed) (unfolded : pool.tree? id = some tree) :
    pool.type? id = tree.type? := by
  induction tree generalizing id with
  | constant type components =>
      obtain ⟨node, found, ⟨⟩⟩ := wf.tree?_eq_some_iff.mp unfolded
      exact wf.type?_eq found
  | var type name =>
      obtain ⟨node, found, ⟨⟩⟩ := wf.tree?_eq_some_iff.mp unfolded
      exact wf.type?_eq found
  | unary op operand ih =>
      obtain ⟨node, found, shown⟩ := wf.tree?_eq_some_iff.mp unfolded
      cases shown with
      | unary op below => rw [wf.type?_eq found, Node.type?, Tree.type?, ih below]
  | binary lhs op rhs ihLeft ihRight =>
      obtain ⟨node, found, shown⟩ := wf.tree?_eq_some_iff.mp unfolded
      cases shown with
      | binary op belowLeft belowRight =>
          rw [wf.type?_eq found, Node.type?, Tree.type?, ihLeft belowLeft, ihRight belowRight]
  | qualified kind inner ih =>
      obtain ⟨node, found, shown⟩ := wf.tree?_eq_some_iff.mp unfolded
      cases shown with
      | qualified kind below => rw [wf.type?_eq found, Node.type?, Tree.type?, ih below]

/-- Trees of a pool have a type. -/
theorem WellFormed.isSome_type? (wf : pool.WellFormed) (unfolded : pool.tree? id = some tree) :
    tree.type?.isSome := by
  obtain ⟨node, found, shown⟩ := wf.tree?_eq_some_iff.mp unfolded
  obtain ⟨type, present⟩ := node?_eq_some_iff.mp found
  have total := (wf.admitted id _ present).total shown.isExpr
  rw [← wf.type?_of_tree? unfolded, Pool.type?, present]
  exact total

/-- Two expressions never have the same tree. -/
theorem WellFormed.tree?_injective (wf : pool.WellFormed) {left right : NodeId}
    (leftTree : pool.tree? left = some tree) (rightTree : pool.tree? right = some tree) :
    left = right := by
  -- Equal children by induction, then equal structures, and a structure has one identity.
  induction tree generalizing left right with
  | constant type components =>
      obtain ⟨_, leftFound, ⟨⟩⟩ := wf.tree?_eq_some_iff.mp leftTree
      obtain ⟨_, rightFound, ⟨⟩⟩ := wf.tree?_eq_some_iff.mp rightTree
      exact wf.id_unique leftFound rightFound
  | var type name =>
      obtain ⟨_, leftFound, ⟨⟩⟩ := wf.tree?_eq_some_iff.mp leftTree
      obtain ⟨_, rightFound, ⟨⟩⟩ := wf.tree?_eq_some_iff.mp rightTree
      exact wf.id_unique leftFound rightFound
  | unary op operand ih =>
      obtain ⟨_, leftFound, leftShows⟩ := wf.tree?_eq_some_iff.mp leftTree
      obtain ⟨_, rightFound, rightShows⟩ := wf.tree?_eq_some_iff.mp rightTree
      cases leftShows with
      | unary op leftBelow =>
          cases rightShows with
          | unary op rightBelow =>
              cases ih leftBelow rightBelow
              exact wf.id_unique leftFound rightFound
  | binary lhs op rhs ihLeft ihRight =>
      obtain ⟨_, leftFound, leftShows⟩ := wf.tree?_eq_some_iff.mp leftTree
      obtain ⟨_, rightFound, rightShows⟩ := wf.tree?_eq_some_iff.mp rightTree
      cases leftShows with
      | binary op leftFirst leftSecond =>
          cases rightShows with
          | binary op rightFirst rightSecond =>
              cases ihLeft leftFirst rightFirst
              cases ihRight leftSecond rightSecond
              exact wf.id_unique leftFound rightFound
  | qualified kind inner ih =>
      obtain ⟨_, leftFound, leftShows⟩ := wf.tree?_eq_some_iff.mp leftTree
      obtain ⟨_, rightFound, rightShows⟩ := wf.tree?_eq_some_iff.mp rightTree
      cases leftShows with
      | qualified kind leftBelow =>
          cases rightShows with
          | qualified kind rightBelow =>
              cases ih leftBelow rightBelow
              exact wf.id_unique leftFound rightFound

/-! ### Growth -/

/-- Adding nodes changes no tree. -/
theorem Grows.tree?_eq (grows : before.Grows after) (wf : before.WellFormed)
    (wfAfter : after.WellFormed) (unfolded : before.tree? id = some tree) :
    after.tree? id = some tree := by
  induction tree using Tree.induction_on_children generalizing id with
  | step tree ih =>
      obtain ⟨node, found, shown⟩ := wf.tree?_eq_some_iff.mp unfolded
      refine wfAfter.tree?_of_shows (grows.node?_eq found) (shown.transfer ?_)
      intro child _ small isSmall smallTree
      exact ih small isSmall smallTree

/-- Trees stay the same when a pool grows. -/
theorem Grows.unfolds (grows : before.Grows after) (wf : before.WellFormed)
    (wfAfter : after.WellFormed) {ids : List NodeId} {trees : List Tree}
    (unfolded : before.Unfolds ids trees) : after.Unfolds ids trees :=
  unfolded.imp fun _ _ => grows.tree?_eq wf wfAfter

/-! ### Nodes and subtrees -/

/-- A child of a node has a tree, which is a child of the node's tree. -/
theorem WellFormed.child_tree? (wf : pool.WellFormed) (unfolded : pool.tree? id = some tree)
    {child : NodeId} (isChild : pool.Child id child) :
    ∃ small ∈ tree.children, pool.tree? child = some small := by
  obtain ⟨node, found, member⟩ := isChild
  obtain ⟨place, inside, rfl⟩ := List.mem_iff_getElem.mp member
  obtain ⟨sameLength, unfolds⟩ := List.forall₂_iff_get.mp (wf.shows found unfolded).unfolds
  exact ⟨_, List.getElem_mem (sameLength ▸ inside), unfolds place inside (sameLength ▸ inside)⟩

/-- Every child of a tree is the tree of a child of the node. -/
theorem WellFormed.exists_child (wf : pool.WellFormed) (unfolded : pool.tree? id = some tree)
    {small : Tree} (member : small ∈ tree.children) :
    ∃ child, pool.Child id child ∧ pool.tree? child = some small := by
  obtain ⟨node, found, shown⟩ := wf.tree?_eq_some_iff.mp unfolded
  obtain ⟨place, inside, rfl⟩ := List.mem_iff_getElem.mp member
  obtain ⟨sameLength, unfolds⟩ := List.forall₂_iff_get.mp shown.unfolds
  exact ⟨_, ⟨node, found, List.getElem_mem (sameLength ▸ inside)⟩,
    unfolds place (sameLength ▸ inside) inside⟩

/-- What is below an expression has a subtree of its tree. -/
theorem WellFormed.tree?_of_below (wf : pool.WellFormed) (unfolded : pool.tree? root = some tree)
    (below : pool.Below root id) : ∃ small ∈ tree.subtrees, pool.tree? id = some small := by
  induction below with
  | refl => exact ⟨tree, tree.self_mem_subtrees, unfolded⟩
  | tail _ isChild ih =>
      obtain ⟨middle, inside, middleTree⟩ := ih
      obtain ⟨small, member, smallTree⟩ := wf.child_tree? middleTree isChild
      refine ⟨small, Tree.mem_subtrees_trans ?_ inside, smallTree⟩
      exact Tree.mem_subtrees_of_child member small.self_mem_subtrees

/-- Every subtree of the tree of an expression is the tree of a node below it. -/
theorem WellFormed.exists_below (wf : pool.WellFormed) (unfolded : pool.tree? root = some tree)
    {small : Tree} (member : small ∈ tree.subtrees) :
    ∃ id, pool.Below root id ∧ pool.tree? id = some small := by
  induction tree using Tree.induction_on_children generalizing root with
  | step tree ih =>
      rcases Tree.mem_subtrees_iff.mp member with rfl | ⟨child, isChild, inside⟩
      · exact ⟨root, .refl, unfolded⟩
      · obtain ⟨first, edge, firstTree⟩ := wf.exists_child unfolded isChild
        obtain ⟨id, below, smallTree⟩ := ih child isChild firstTree inside
        exact ⟨id, .head edge below, smallTree⟩

/-- A node is a variable exactly if its tree is. -/
theorem WellFormed.node?_var_iff (wf : pool.WellFormed) {type : ValueType} {name : String} :
    pool.node? id = some (.var type name) ↔ pool.tree? id = some (.var type name) := by
  constructor
  · intro found
    exact wf.tree?_of_shows found (.var type name)
  · intro unfolded
    obtain ⟨_, found, ⟨⟩⟩ := wf.tree?_eq_some_iff.mp unfolded
    exact found

/-- The variables of a tree are those below its root. -/
theorem WellFormed.mem_vars_iff (wf : pool.WellFormed) (unfolded : pool.tree? root = some tree)
    {type : ValueType} {name : String} : (type, name) ∈ tree.vars ↔
      ∃ id, pool.Below root id ∧ pool.node? id = some (.var type name) := by
  rw [Tree.mem_vars_iff]
  constructor
  · intro member
    obtain ⟨id, below, isVariable⟩ := wf.exists_below unfolded member
    exact ⟨id, below, wf.node?_var_iff.mpr isVariable⟩
  · rintro ⟨id, below, found⟩
    obtain ⟨small, member, smallTree⟩ := wf.tree?_of_below unfolded below
    rw [wf.node?_var_iff.mp found] at smallTree
    cases smallTree
    exact member

/-- A node of the pool has the qualifier of its tree. -/
theorem WellFormed.qualifier?_eq (wf : pool.WellFormed) (unfolded : pool.tree? id = some tree)
    (found : pool.node? id = some node) : tree.qualifier? = node.qualifier? :=
  (wf.shows found unfolded).qualifier?_eq

/-- A node whose tree is qualified is qualified, over a node with the inner tree. -/
theorem WellFormed.exists_inner (wf : pool.WellFormed) {kind : Qualifier} {inner : Tree}
    (unfolded : pool.tree? id = some (.qualified kind inner)) :
    ∃ below, pool.node? id = some (.qualified kind below) ∧ pool.tree? below = some inner := by
  obtain ⟨_, found, shown⟩ := wf.tree?_eq_some_iff.mp unfolded
  cases shown with
  | qualified kind below => exact ⟨_, found, below⟩

/-- A node whose tree has a qualifier is qualified in the same way. -/
theorem WellFormed.node?_of_qualifier? (wf : pool.WellFormed)
    (unfolded : pool.tree? id = some tree) {kind : Qualifier}
    (isQualified : tree.qualifier? = some kind) :
    ∃ inner, pool.node? id = some (.qualified kind inner) := by
  obtain ⟨innerTree, rfl⟩ := Tree.eq_qualified_of_qualifier? isQualified
  obtain ⟨inner, found, -⟩ := wf.exists_inner unfolded
  exact ⟨inner, found⟩

/-! ### Collected nodes -/

/-- The occurrences in a forest have the subtrees of its trees, one by one. -/
theorem WellFormed.occurrences_unfolds (wf : pool.WellFormed) {ids : List NodeId}
    {trees : List Tree} (unfolds : pool.Unfolds ids trees) :
    pool.Unfolds (pool.occurrences (fun _ => false) ids) (trees.flatMap Tree.subtrees) := by
  generalize nowhere : (fun _ : NodeId => false) = stop
  fun_induction occurrences pool stop ids generalizing trees with
  | case1 =>
      cases unfolds
      exact .nil
  | case2 id rest ihBelow ihRest =>
      cases unfolds with
      | cons unfolded later =>
          rename_i tree trees
          obtain ⟨node, found, shown⟩ := wf.tree?_eq_some_iff.mp unfolded
          have children : pool.expansion stop id = node.children := by
            rw [expansion, ← nowhere, wf.operands_eq found]
            rfl
          have below := ihBelow (children ▸ shown.unfolds)
          rw [List.flatMap_cons, tree.subtrees_eq, List.cons_append]
          exact .cons unfolded (List.rel_append below (ihRest later))

/-- Leaving out repetitions leaves out those of the trees, since trees are identified. -/
theorem WellFormed.eraseDups_unfolds (wf : pool.WellFormed) {ids : List NodeId}
    {trees : List Tree} (unfolds : pool.Unfolds ids trees) :
    pool.Unfolds ids.eraseDups trees.eraseDups := by
  match ids, trees, unfolds with
  | _, _, .nil => exact .nil
  | first :: rest, tree :: trees, .cons unfolded later =>
      have kept : pool.Unfolds (rest.filter fun id => !id == first)
          (trees.filter fun other => !other == tree) := by
        refine List.rel_filter ?_ later
        intro id other otherTree
        simp only [Bool.not_eq_true', beq_eq_false_iff_ne]
        refine not_congr ⟨fun same => ?_, fun same => ?_⟩
        · rw [same, unfolded] at otherTree
          exact (Option.some.inj otherTree).symm
        · exact wf.tree?_injective (same ▸ otherTree) unfolded
      have shorter := List.length_filter_le (fun id => !id == first) rest
      rw [List.eraseDups_cons, List.eraseDups_cons]
      exact .cons unfolded (wf.eraseDups_unfolds kept)
termination_by ids.length
decreasing_by exact Nat.lt_succ_of_le shorter

/-- The qualified nodes below an expression are collected in the order in which their trees are
listed. -/
theorem WellFormed.qualifiedAs_spec (wf : pool.WellFormed) (unfolded : pool.tree? root = some tree)
    (kind : Qualifier) :
    ∃ ids, pool.qualifiedAs root kind = .ok ids ∧ pool.Unfolds ids (tree.listed kind) := by
  have present := wf.contains_of_tree? unfolded
  have entered : pool.Unfolds (pool.occurrences (fun _ => false) [root]).eraseDups
      tree.subtrees.eraseDups := by
    have occurs := wf.occurrences_unfolds (.cons unfolded .nil)
    rw [List.flatMap_singleton] at occurs
    exact wf.eraseDups_unfolds occurs
  refine ⟨_, by rw [qualifiedAs, collect_eq_preOrder, wf.preOrder_eq present]; rfl, ?_⟩
  rw [Tree.listed, List.eraseDups_filter]
  refine List.rel_filter ?_ entered
  intro id small smallTree
  obtain ⟨node, found, shown⟩ := wf.tree?_eq_some_iff.mp smallTree
  simp [found, shown.qualifier?_eq]

/-- A tour succeeds only below a node of the pool. -/
theorem contains_of_tour {stop : NodeId → Bool} {visits : List Visit}
    (toured : pool.tour stop root = .ok visits) : pool.contains root = true := by
  by_contra missing
  have absent : (!pool.contains root) = true := by simpa using missing
  rw [tour, tourFrom, if_neg (by simp), if_pos absent] at toured
  cases toured

/-- The order of entering exists only below a node of the pool. -/
theorem contains_of_preOrder {ids : List NodeId} (entered : pool.preOrder root = .ok ids) :
    pool.contains root = true := by
  rw [preOrder_eq_tour] at entered
  obtain ⟨visits, toured, -⟩ := exists_of_map_ok entered
  exact contains_of_tour toured

/-- Whatever a root is, the qualified nodes below it are collected once each. -/
theorem WellFormed.of_qualifiedAs (wf : pool.WellFormed) {kind : Qualifier} {ids : List NodeId}
    (collected : pool.qualifiedAs root kind = .ok ids) :
    pool.contains root = true ∧ ids.Nodup ∧
      ∀ id ∈ ids, ∃ inner, pool.node? id = some (.qualified kind inner) := by
  cases entered : pool.preOrder root with
  | error cause =>
      rw [qualifiedAs, collect_eq_preOrder, entered] at collected
      cases collected
  | ok order =>
      have present := contains_of_preOrder entered
      rw [qualifiedAs, collect_eq_preOrder, wf.preOrder_eq present] at collected
      cases collected
      refine ⟨present, (List.nodup_eraseDups _).filter _, ?_⟩
      intro id member
      obtain ⟨node, found, isKind⟩ := (Option.any_eq_true _ _).mp (List.mem_filter.mp member).2
      obtain ⟨inner, rfl⟩ := Node.eq_qualified_of_qualifier? (of_decide_eq_true isKind)
      exact ⟨inner, found⟩

end Shading.Pool
