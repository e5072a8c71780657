import Shading.Proofs.Pool.Orders

/-!
# Substitution in well-formed pools

An operation builds a tree when it succeeds with an expression of that tree and does nothing but
add nodes (`Pool.Builds`). The typed constructors build what they say. Substitution builds the tree
in which the replacement stands in every place of the target, whatever the target is, unless an
operator of that tree does not fit its operands (`Pool.WellFormed.attempts_substitute`). Between
expressions of the same type it always succeeds (`Pool.WellFormed.builds_substitute`), and below a
program it never does (`Pool.eq_target_of_substitute`).
-/

namespace Shading

namespace Node

/-- The tree of a node, given those of its children. A program has none. -/
def tree? (child : NodeId → Option Tree) : Node → Option Tree
  | constant type components => some (.constant type components)
  | var type name => some (.var type name)
  | unary op operand => (child operand).map (.unary op)
  | binary lhs op rhs => (child lhs).bind fun left => (child rhs).map (.binary left op)
  | qualified kind inner => (child inner).map (.qualified kind)
  | shader _ => none

variable {first second : NodeId → Option Tree} {node : Node}

/-- The tree over a node depends only on the trees of its children. -/
theorem tree?_congr (same : ∀ child ∈ node.children, first child = second child) :
    node.tree? first = node.tree? second := by
  cases node with
  | constant _ _ | var _ _ | shader _ => rfl
  | unary op operand => rw [tree?, tree?, same operand List.mem_cons_self]
  | binary lhs op rhs =>
      rw [tree?, tree?, same lhs List.mem_cons_self,
        same rhs (List.mem_cons_of_mem _ List.mem_cons_self)]
  | qualified kind inner => rw [tree?, tree?, same inner List.mem_cons_self]

/-- An expression whose children have trees has a tree. -/
theorem exists_tree? (isExpr : node.isExpr = true)
    (below : ∀ child ∈ node.children, ∃ tree, first child = some tree) :
    ∃ tree, node.tree? first = some tree := by
  cases node with
  | constant type components => exact ⟨_, rfl⟩
  | var type name => exact ⟨_, rfl⟩
  | unary op operand =>
      obtain ⟨tree, isTree⟩ := below operand List.mem_cons_self
      exact ⟨.unary op tree, by rw [tree?, isTree, Option.map_some]⟩
  | binary lhs op rhs =>
      obtain ⟨left, isLeft⟩ := below lhs List.mem_cons_self
      obtain ⟨right, isRight⟩ := below rhs (List.mem_cons_of_mem _ List.mem_cons_self)
      exact ⟨.binary left op right, by
        rw [tree?, isLeft, isRight, Option.bind_some, Option.map_some]⟩
  | qualified kind inner =>
      obtain ⟨tree, isTree⟩ := below inner List.mem_cons_self
      exact ⟨.qualified kind tree, by rw [tree?, isTree, Option.map_some]⟩
  | shader program => cases isExpr

/-- The tree of a child is a child of the tree. -/
theorem child_of_tree? {tree : Tree} (isTree : node.tree? first = some tree) {child : NodeId}
    (member : child ∈ node.children) : ∃ small ∈ tree.children, first child = some small := by
  cases node with
  | constant _ _ | var _ _ => cases member
  | unary op operand =>
      obtain ⟨small, isSmall, rfl⟩ := Option.map_eq_some_iff.mp isTree
      exact ⟨small, List.mem_cons_self, List.mem_singleton.mp member ▸ isSmall⟩
  | binary lhs op rhs =>
      obtain ⟨left, isLeft, rest⟩ := Option.bind_eq_some_iff.mp isTree
      obtain ⟨right, isRight, rfl⟩ := Option.map_eq_some_iff.mp rest
      rcases List.mem_pair.mp member with rfl | rfl
      · exact ⟨left, List.mem_cons_self, isLeft⟩
      · exact ⟨right, List.mem_cons_of_mem _ List.mem_cons_self, isRight⟩
  | qualified kind inner =>
      obtain ⟨small, isSmall, rfl⟩ := Option.map_eq_some_iff.mp isTree
      exact ⟨small, List.mem_cons_self, List.mem_singleton.mp member ▸ isSmall⟩
  | shader program => cases isTree

end Node

namespace Pool

variable {pool base after : Pool} {id root target replacement : NodeId}
  {node : Node} {tree targetTree replacementTree : Tree} {rebuilt : Rebuilt}

/-- The operation succeeds with an expression of a given tree and only adds nodes. -/
def Builds (pool : Pool) (operation : PoolM NodeId) (tree : Tree) : Prop :=
  ∃ id after, operation pool = .ok id after ∧ after.WellFormed ∧ pool.Grows after ∧
    after.tree? id = some tree

/-- The operation builds the tree, or it fails because an operator in the tree does not fit. -/
def Attempts (pool : Pool) (operation : PoolM NodeId) (tree : Tree) : Prop :=
  pool.Builds operation tree ∨
    ∃ op left right after, operation pool = .error (.typeMismatch op left right) after ∧
      tree.Mismatch op left right

/-- The tree of an expression in which a replacement stands in every place of a target. What is
below the target does not count. Only older children are followed, which are all of them. -/
def treeReplacing? (pool : Pool) (target : NodeId) (replacement : Tree) (id : NodeId) :
    Option Tree :=
  if id = target then some replacement
  else
    (pool.node? id).bind <| Node.tree? fun child =>
      if child < id then pool.treeReplacing? target replacement child else none
termination_by id
decreasing_by assumption

/-- An attempt at a tree that has a type succeeds. -/
theorem Attempts.builds {operation : PoolM NodeId} (attempts : pool.Attempts operation tree)
    (typed : tree.type?.isSome) : pool.Builds operation tree := by
  refine attempts.resolve_right ?_
  rintro ⟨op, left, right, after, -, mismatch⟩
  rw [mismatch.type?_eq_none] at typed
  cases typed

/-- A tree still shows the structure of a node when the pool grows. -/
theorem Shows.grow (shown : pool.Shows node tree) (wf : pool.WellFormed)
    (wfAfter : after.WellFormed) (grows : pool.Grows after) : after.Shows node tree :=
  shown.transfer fun _ _ _ _ smallTree => grows.tree?_eq wf wfAfter smallTree

/-- An operation that makes a node builds the tree that shows it. -/
theorem Makes.builds {operation : PoolM NodeId} {entry : Entry}
    (makes : pool.Makes operation entry) (wf : pool.WellFormed)
    (shown : pool.Shows entry.node tree) : pool.Builds operation tree := by
  obtain ⟨id, after, ran, wfAfter, grows, present⟩ := makes
  have found : after.node? id = some entry.node := node?_eq_some_iff.mpr ⟨entry.type, present⟩
  exact ⟨id, after, ran, wfAfter, grows,
    wfAfter.tree?_of_shows found (shown.grow wf wfAfter grows)⟩

/-- An expression that is there builds its own tree. -/
theorem WellFormed.builds_pure (wf : pool.WellFormed) (unfolded : pool.tree? id = some tree) :
    pool.Builds (pure id) tree :=
  ⟨id, pool, rfl, wf, Grows.refl pool, unfolded⟩

/-- A variable is built without conditions. -/
theorem WellFormed.builds_var (wf : pool.WellFormed) (type : ValueType) (name : String) :
    pool.Builds (var type name) (.var type name) :=
  (wf.makes_var type name).builds wf (.var type name)

/-- A tree that is unfolded from a node has the type of the node. -/
theorem WellFormed.exists_type? (wf : pool.WellFormed) (unfolded : pool.tree? id = some tree) :
    ∃ type, tree.type? = some type ∧ pool.type? id = some type := by
  obtain ⟨type, typeEq⟩ := Option.isSome_iff_exists.mp (wf.isSome_type? unfolded)
  exact ⟨type, typeEq, (wf.type?_of_tree? unfolded).trans typeEq⟩

/-- A unary operator is built over any tree. -/
theorem WellFormed.builds_unary (wf : pool.WellFormed) (op : UnaryOp)
    (unfolded : pool.tree? id = some tree) : pool.Builds (unary op id) (.unary op tree) := by
  obtain ⟨type, -, typed⟩ := wf.exists_type? unfolded
  exact (wf.makes_unary op typed).builds wf (.unary op unfolded)

/-- A binary operator is built over two trees, unless their types do not fit. -/
theorem WellFormed.attempts_binary (wf : pool.WellFormed) {lhs rhs : NodeId} (op : BinaryOp)
    {left right : Tree} (leftTree : pool.tree? lhs = some left)
    (rightTree : pool.tree? rhs = some right) :
    pool.Attempts (binary lhs op rhs) (.binary left op right) := by
  obtain ⟨leftType, leftEq, leftTyped⟩ := wf.exists_type? leftTree
  obtain ⟨rightType, rightEq, rightTyped⟩ := wf.exists_type? rightTree
  cases fits : op.resultType? leftType rightType with
  | some type =>
      have makes := wf.makes_binary leftTyped rightTyped fits
      exact .inl (makes.builds wf (.binary op leftTree rightTree))
  | none =>
      refine .inr ⟨op, leftType, rightType, pool, ?_,
        left, right, Tree.self_mem_subtrees _, leftEq, rightEq, fits⟩
      rw [binary, bind_of_ok (query_of_ok (typeOf_eq_ok_iff.mpr leftTyped)),
        bind_of_ok (query_of_ok (typeOf_eq_ok_iff.mpr rightTyped)), fits]
      rfl

/-- A qualifier is built over any tree. -/
theorem WellFormed.builds_qualify (wf : pool.WellFormed) (kind : Qualifier)
    (unfolded : pool.tree? id = some tree) :
    pool.Builds (qualify kind id) (.qualified kind tree) := by
  obtain ⟨type, -, typed⟩ := wf.exists_type? unfolded
  exact (wf.makes_qualify kind typed).builds wf (.qualified kind unfolded)

/-! ### Trees with a replacement -/

/-- Away from the target, the replacement goes on in the children. -/
theorem WellFormed.treeReplacing?_of_ne (wf : pool.WellFormed) (different : id ≠ target)
    (found : pool.node? id = some node) (replacementTree : Tree) :
    pool.treeReplacing? target replacementTree id =
      node.tree? (pool.treeReplacing? target replacementTree) := by
  rw [treeReplacing?, if_neg different, found, Option.bind_some]
  refine Node.tree?_congr fun child member => ?_
  rw [if_pos (wf.child_lt found member)]

/-- In the place of the target stands the replacement. -/
theorem treeReplacing?_target (pool : Pool) (target : NodeId) (replacementTree : Tree) :
    pool.treeReplacing? target replacementTree target = some replacementTree := by
  rw [treeReplacing?, if_pos rfl]

/-- Every expression has a tree with the replacement. -/
theorem WellFormed.exists_treeReplacing? (wf : pool.WellFormed)
    (unfolded : pool.tree? id = some tree) (target : NodeId) (replacementTree : Tree) :
    ∃ new, pool.treeReplacing? target replacementTree id = some new := by
  induction tree using Tree.induction_on_children generalizing id with
  | step tree ih =>
      by_cases same : id = target
      · exact ⟨replacementTree, same ▸ pool.treeReplacing?_target id replacementTree⟩
      · obtain ⟨node, found, shown⟩ := wf.tree?_eq_some_iff.mp unfolded
        rw [wf.treeReplacing?_of_ne same found]
        refine Node.exists_tree? shown.isExpr fun child member => ?_
        obtain ⟨small, isSmall, smallTree⟩ := wf.child_tree? unfolded ⟨node, found, member⟩
        exact ih small isSmall smallTree

/-- Where the target has a tree, the replacement stands in every place of that tree. -/
theorem WellFormed.treeReplacing?_eq (wf : pool.WellFormed)
    (isTarget : pool.tree? target = some targetTree) (unfolded : pool.tree? id = some tree)
    (replacementTree : Tree) :
    pool.treeReplacing? target replacementTree id =
      some (tree.substitute targetTree replacementTree) := by
  induction tree using Tree.induction_on_children generalizing id with
  | step tree ih =>
      by_cases same : id = target
      · rw [same, isTarget] at unfolded
        rw [same, treeReplacing?_target, ← Option.some.inj unfolded, Tree.substitute_self]
      · have different : tree ≠ targetTree := fun eq =>
          same (wf.tree?_injective unfolded (eq ▸ isTarget))
        obtain ⟨node, found, shown⟩ := wf.tree?_eq_some_iff.mp unfolded
        rw [wf.treeReplacing?_of_ne same found]
        cases shown with
        | constant type components => rw [Tree.substitute_leaf rfl different, Node.tree?]
        | var type name => rw [Tree.substitute_leaf rfl different, Node.tree?]
        | unary op below =>
            rw [Tree.substitute_unary op different, Node.tree?, ih _ List.mem_cons_self below,
              Option.map_some]
        | binary op belowLeft belowRight =>
            rw [Tree.substitute_binary op different, Node.tree?,
              ih _ List.mem_cons_self belowLeft, Option.bind_some,
              ih _ (List.mem_cons_of_mem _ List.mem_cons_self) belowRight, Option.map_some]
        | qualified kind below =>
            rw [Tree.substitute_qualified kind different, Node.tree?,
              ih _ List.mem_cons_self below, Option.map_some]

/-- What becomes of a node that a traversal lists is inside what becomes of a node of the forest. -/
theorem WellFormed.exists_subtree_of_mem_occurrences (wf : pool.WellFormed) {ids : List NodeId}
    (replacementTree : Tree) (member : id ∈ pool.occurrences (· == target) ids) :
    ∃ root ∈ ids, ∀ large, pool.treeReplacing? target replacementTree root = some large →
      ∃ small ∈ large.subtrees, pool.treeReplacing? target replacementTree id = some small := by
  generalize isStop : (· == target) = stop at member
  fun_induction occurrences pool stop ids with
  | case1 => cases member
  | case2 first rest ihBelow ihRest =>
      rcases List.mem_cons.mp member with rfl | later
      · exact ⟨id, List.mem_cons_self, fun large isLarge =>
          ⟨large, large.self_mem_subtrees, isLarge⟩⟩
      · rcases List.mem_append.mp later with below | isRest
        · obtain ⟨child, isChild, inside⟩ := ihBelow below
          refine ⟨first, List.mem_cons_self, fun large isLarge => ?_⟩
          rw [expansion, ← isStop] at isChild
          split at isChild
          next => cases isChild
          next goesOn =>
            obtain ⟨node, found, isNodeChild⟩ := child_of_mem_operands isChild
            rw [wf.treeReplacing?_of_ne (by simpa using goesOn) found] at isLarge
            obtain ⟨middle, isMiddle, middleTree⟩ := Node.child_of_tree? isLarge isNodeChild
            obtain ⟨small, isSmall, smallTree⟩ := inside middle middleTree
            exact ⟨small, Tree.mem_subtrees_of_child isMiddle isSmall, smallTree⟩
        · obtain ⟨root, isRoot, inside⟩ := ihRest isRest
          exact ⟨root, List.mem_cons_of_mem _ isRoot, inside⟩

/-! ### Rebuilding -/

/-- What stands for a node of an earlier pool has the tree of the node with the replacement. -/
def Stands (base : Pool) (target : NodeId) (replacementTree : Tree) (rebuilt : Rebuilt)
    (pool : Pool) (id : NodeId) : Prop :=
  ∃ new result, base.treeReplacing? target replacementTree id = some new ∧
    rebuilt[id]? = some result ∧ pool.tree? result = some new

/-- What stands for a node still does when the pool grows. -/
theorem Stands.grow (stands : base.Stands target replacementTree rebuilt pool id)
    (wf : pool.WellFormed) (wfAfter : after.WellFormed) (grows : pool.Grows after) :
    base.Stands target replacementTree rebuilt after id := by
  obtain ⟨new, result, isNew, isResult, resultTree⟩ := stands
  exact ⟨new, result, isNew, isResult, grows.tree?_eq wf wfAfter resultTree⟩

/-- What stands for a node is found, and has the tree with the replacement. -/
theorem Stands.result (stands : base.Stands target replacementTree rebuilt pool id)
    (isNew : base.treeReplacing? target replacementTree id = some tree) :
    ∃ result, rebuilt.result id pool = .ok result pool ∧ pool.tree? result = some tree := by
  obtain ⟨same, result, sameTree, isResult, resultTree⟩ := stands
  rw [isNew] at sameTree
  cases sameTree
  refine ⟨result, ?_, resultTree⟩
  rw [Rebuilt.result, isResult]
  rfl

/-- A node is rebuilt over what stands for its children. -/
theorem WellFormed.attempts_rebuildNode (wf : pool.WellFormed) (found : pool.node? id = some node)
    (isNew : node.tree? (base.treeReplacing? target replacementTree) = some tree)
    (stand : ∀ child ∈ node.children, base.Stands target replacementTree rebuilt pool child) :
    pool.Attempts (rebuildNode rebuilt id node) tree := by
  cases node with
  | constant type components =>
      cases isNew
      exact .inl (wf.builds_pure (wf.tree?_of_shows found (.constant type components)))
  | var type name =>
      cases isNew
      exact .inl (wf.builds_pure (wf.tree?_of_shows found (.var type name)))
  | unary op operand =>
      obtain ⟨small, isSmall, rfl⟩ := Option.map_eq_some_iff.mp isNew
      obtain ⟨new, ran, newTree⟩ := (stand _ List.mem_cons_self).result isSmall
      refine .inl ?_
      unfold Builds
      rw [rebuildNode, bind_of_ok ran]
      split
      next unchanged =>
        -- A child that stands for itself has the tree that its parent is to have.
        exact wf.builds_pure (wf.tree?_of_shows found (.unary op (unchanged ▸ newTree)))
      next => exact wf.builds_unary op newTree
  | binary lhs op rhs =>
      obtain ⟨left, isLeft, rest⟩ := Option.bind_eq_some_iff.mp isNew
      obtain ⟨right, isRight, rfl⟩ := Option.map_eq_some_iff.mp rest
      obtain ⟨newLeft, ranLeft, leftTree⟩ := (stand _ List.mem_cons_self).result isLeft
      obtain ⟨newRight, ranRight, rightTree⟩ :=
        (stand _ (List.mem_cons_of_mem _ List.mem_cons_self)).result isRight
      unfold Attempts Builds
      rw [rebuildNode, bind_of_ok ranLeft, bind_of_ok ranRight]
      split
      next unchanged =>
        rw [unchanged.1] at leftTree
        rw [unchanged.2] at rightTree
        exact .inl (wf.builds_pure (wf.tree?_of_shows found (.binary op leftTree rightTree)))
      next => exact wf.attempts_binary op leftTree rightTree
  | qualified kind inner =>
      obtain ⟨small, isSmall, rfl⟩ := Option.map_eq_some_iff.mp isNew
      obtain ⟨new, ran, newTree⟩ := (stand _ List.mem_cons_self).result isSmall
      refine .inl ?_
      unfold Builds
      rw [rebuildNode, bind_of_ok ran]
      split
      next unchanged =>
        exact wf.builds_pure (wf.tree?_of_shows found (.qualified kind (unchanged ▸ newTree)))
      next => exact wf.builds_qualify kind newTree
  | shader program => cases isNew

/-- What takes the place of one node. -/
def rebuildOne (target replacement : NodeId) (rebuilt : Rebuilt) (id : NodeId) : PoolM NodeId :=
  if id = target then pure replacement
  else query (·.node id) >>= rebuildNode rebuilt id

/-- An order is rebuilt from its first node on, each result being known to the later ones. -/
theorem rebuild_cons (target replacement id : NodeId) (rest : List NodeId) (rebuilt : Rebuilt) :
    rebuild target replacement (id :: rest) rebuilt =
      rebuildOne target replacement rebuilt id >>= fun result =>
        rebuild target replacement rest (rebuilt.insert id result) := by
  rw [rebuild, rebuildOne]
  split
  · rfl
  · rw [bind_assoc]

/-- Taking the place of one node keeps pools well-formed. -/
theorem keeps_rebuildOne (target replacement : NodeId) (rebuilt : Rebuilt) (id : NodeId) :
    Keeps (rebuildOne target replacement rebuilt id) := by
  unfold rebuildOne
  split
  · exact keeps_pure replacement
  · exact (keeps_query _).bind fun node => keeps_rebuildNode rebuilt id node

/-- Taking the place of a node is an attempt at the tree with the replacement, if what is below the
node has been rebuilt. -/
theorem WellFormed.attempts_rebuildOne (wf : pool.WellFormed) (wfBase : base.WellFormed)
    (grows : base.Grows pool) (isReplacement : pool.tree? replacement = some replacementTree)
    (isNew : base.treeReplacing? target replacementTree id = some tree)
    (stand : ∀ child ∈ base.expansion (· == target) id,
      base.Stands target replacementTree rebuilt pool child) :
    pool.Attempts (rebuildOne target replacement rebuilt id) tree := by
  unfold rebuildOne
  by_cases same : id = target
  · rw [same, treeReplacing?_target] at isNew
    rw [if_pos same, ← Option.some.inj isNew]
    exact .inl (wf.builds_pure isReplacement)
  · cases found : base.node? id with
    | none =>
        rw [treeReplacing?, if_neg same, found] at isNew
        cases isNew
    | some node =>
        have foundNow := grows.node?_eq found
        rw [wfBase.treeReplacing?_of_ne same found] at isNew
        rw [expansion, if_neg (by simpa using same), wfBase.operands_eq found] at stand
        unfold Attempts Builds
        rw [if_neg same, bind_of_ok (query_of_ok (node_eq_ok_iff.mpr foundNow))]
        exact wf.attempts_rebuildNode foundNow isNew stand

/-- A result recorded for a node stands for it, and what stood for other nodes still does. -/
theorem Stands.insert {result : NodeId} {other : NodeId}
    (stands : other ≠ id → base.Stands target replacementTree rebuilt pool other)
    (isNew : base.treeReplacing? target replacementTree id = some tree)
    (resultTree : pool.tree? result = some tree) :
    base.Stands target replacementTree (rebuilt.insert id result) pool other := by
  by_cases same : other = id
  · rw [same]
    exact ⟨tree, result, isNew, Std.TreeMap.getElem?_insert_self, resultTree⟩
  · obtain ⟨otherTree, otherResult, isTree, isResult, otherResultTree⟩ := stands same
    refine ⟨otherTree, otherResult, isTree, ?_, otherResultTree⟩
    rw [Std.TreeMap.getElem?_insert, if_neg, isResult]
    intro equal
    exact same (Std.LawfulEqCmp.eq_of_compare equal).symm

/-- Rebuilding works off a list in which operands come first: what stands for the nodes done so far
stands for them to the end, and something stands for every node of the list, or an operator of one
of their trees does not fit. The order was made in an earlier pool, from which the current one has
grown. -/
theorem rebuild_spec (wfBase : base.WellFormed)
    (isReplacement : base.tree? replacement = some replacementTree) {order : List NodeId}
    (unfold : ∀ id ∈ order, ∃ new, base.treeReplacing? target replacementTree id = some new)
    {done : NodeId → Prop} (ordered : base.ChildrenFirst (· == target) done order)
    (wf : pool.WellFormed) (grows : base.Grows pool)
    (stand : ∀ id, done id → base.Stands target replacementTree rebuilt pool id) :
    (∃ result after, rebuild target replacement order rebuilt pool = .ok result after ∧
        after.WellFormed ∧ pool.Grows after ∧
        ∀ id, id ∈ order ∨ done id → base.Stands target replacementTree result after id) ∨
      ∃ id ∈ order, ∃ new op left right after,
        base.treeReplacing? target replacementTree id = some new ∧ new.Mismatch op left right ∧
        rebuild target replacement order rebuilt pool =
          .error (.typeMismatch op left right) after := by
  induction order generalizing pool rebuilt done with
  | nil =>
      refine .inl ⟨rebuilt, pool, rfl, wf, Grows.refl pool, ?_⟩
      rintro id (member | isDone)
      · cases member
      · exact stand id isDone
  | cons first rest ih =>
      obtain ⟨new, isNew⟩ := unfold first List.mem_cons_self
      rw [rebuild_cons]
      rcases wf.attempts_rebuildOne wfBase grows (grows.tree?_eq wfBase wf isReplacement) isNew
        fun child member => stand child (ordered.1 child member) with
        ⟨result, middle, ran, wfMiddle, growsMiddle, resultTree⟩ |
          ⟨op, left, right, after, failed, mismatch⟩
      -- The first node is done now, and what stood before still stands in the larger pool.
      · have standMiddle : ∀ id, id = first ∨ done id →
            base.Stands target replacementTree (rebuilt.insert first result) middle id := by
          intro id isDone
          refine Stands.insert (fun different => ?_) isNew resultTree
          exact (stand id (isDone.resolve_left different)).grow wf wfMiddle growsMiddle
        rw [bind_of_ok ran]
        rcases ih (fun id member => unfold id (List.mem_cons_of_mem _ member)) ordered.2 wfMiddle
          (grows.trans growsMiddle) standMiddle with
          ⟨last, after, ranRest, wfAfter, growsAfter, standAfter⟩ | ⟨id, isRest, failure⟩
        · refine .inl ⟨last, after, ranRest, wfAfter, growsMiddle.trans growsAfter, ?_⟩
          rintro id (member | isDone)
          · rcases List.mem_cons.mp member with isFirst | later
            · exact standAfter id (Or.inr (Or.inl isFirst))
            · exact standAfter id (Or.inl later)
          · exact standAfter id (Or.inr (Or.inr isDone))
        · exact .inr ⟨id, List.mem_cons_of_mem _ isRest, failure⟩
      · exact .inr ⟨first, List.mem_cons_self, new, op, left, right, after, isNew, mismatch,
          bind_of_error failed⟩

/-- What occurs in a forest of expressions is an expression. -/
theorem WellFormed.tree?_of_mem_occurrences (wf : pool.WellFormed) {stop : NodeId → Bool}
    {ids : List NodeId} (unfold : ∀ id ∈ ids, ∃ tree, pool.tree? id = some tree)
    (member : id ∈ pool.occurrences stop ids) : ∃ tree, pool.tree? id = some tree := by
  obtain ⟨root, isRoot, below⟩ := exists_below_of_mem_occurrences member
  obtain ⟨tree, unfolded⟩ := unfold root isRoot
  obtain ⟨small, -, smallTree⟩ := wf.tree?_of_below unfolded below
  exact ⟨small, smallTree⟩

/-- Substitution builds the tree with the replacement in every place of the target, unless an
operator of that tree does not fit. -/
theorem WellFormed.attempts_substitute (wf : pool.WellFormed)
    (unfolded : pool.tree? root = some tree)
    (isReplacement : pool.tree? replacement = some replacementTree) {new : Tree}
    (isNew : pool.treeReplacing? target replacementTree root = some new) :
    pool.Attempts (substitute root target replacement) new := by
  obtain ⟨type, -, typed⟩ := wf.exists_type? unfolded
  obtain ⟨replacementType, -, replacementTyped⟩ := wf.exists_type? isReplacement
  obtain ⟨order, listed, ordered, rootListed, within⟩ :=
    wf.postOrderUntil_spec (contains_of_type? typed) (· == target)
  have unfolds : ∀ id ∈ order,
      ∃ new, pool.treeReplacing? target replacementTree id = some new := by
    intro id member
    have occurs := wf.tree?_of_mem_occurrences (by simpa using ⟨tree, unfolded⟩) (within id member)
    obtain ⟨small, smallTree⟩ := occurs
    exact wf.exists_treeReplacing? smallTree target replacementTree
  have noneDone : ∀ id, False → pool.Stands target replacementTree ∅ pool id :=
    fun _ => False.elim
  unfold Attempts Builds
  rw [substitute, bind_of_ok (query_of_ok (typeOf_eq_ok_iff.mpr replacementTyped)),
    bind_of_ok (query_of_ok listed)]
  rcases rebuild_spec wf isReplacement unfolds ordered wf (Grows.refl pool) noneDone with
    ⟨rebuilt, after, ran, wfAfter, grows, stand⟩ |
      ⟨id, member, small, op, left, right, after, isSmall, mismatch, failed⟩
  · obtain ⟨same, result, sameTree, isResult, resultTree⟩ := stand root (Or.inl rootListed)
    rw [isNew] at sameTree
    cases sameTree
    refine .inl ⟨result, after, ?_, wfAfter, grows, resultTree⟩
    rw [bind_of_ok ran, isResult]
    rfl
  · refine .inr ⟨op, left, right, after, bind_of_error failed, ?_⟩
    -- The node at which it stopped is below the root, so its tree is inside that of the root.
    obtain ⟨same, isRoot, inside⟩ :=
      wf.exists_subtree_of_mem_occurrences replacementTree (within id member)
    rw [List.mem_singleton.mp isRoot] at inside
    obtain ⟨again, isInside, againTree⟩ := inside new isNew
    rw [isSmall] at againTree
    cases againTree
    exact mismatch.of_mem_subtrees isInside

/-- Substitution of an expression of the same type succeeds with the tree of the substitution. -/
theorem WellFormed.builds_substitute (wf : pool.WellFormed) (unfolded : pool.tree? root = some tree)
    (isTarget : pool.tree? target = some targetTree)
    (isReplacement : pool.tree? replacement = some replacementTree)
    (sameType : replacementTree.type? = targetTree.type?) :
    pool.Builds (substitute root target replacement)
      (tree.substitute targetTree replacementTree) := by
  have typed : (tree.substitute targetTree replacementTree).type?.isSome := by
    rw [Tree.type?_substitute sameType]
    exact wf.isSome_type? unfolded
  have isNew := wf.treeReplacing?_eq isTarget unfolded replacementTree
  exact (wf.attempts_substitute unfolded isReplacement isNew).builds typed

/-- A variable of the type of an expression takes its place: one step of an extraction. -/
theorem WellFormed.extract_step (wf : pool.WellFormed) (unfolded : pool.tree? root = some tree)
    (isTarget : pool.tree? target = some targetTree) {type : ValueType}
    (typeEq : targetTree.type? = some type) (name : String) :
    ∃ reference middle result after, var type name pool = .ok reference middle ∧
      substitute root target reference middle = .ok result after ∧ after.WellFormed ∧
      pool.Grows after ∧
      after.tree? result = some (tree.substitute targetTree (targetTree.named name)) := by
  obtain ⟨reference, middle, ranVar, wfMiddle, growsMiddle, isReference⟩ := wf.builds_var type name
  have replacement : Tree.var type name = targetTree.named name := by
    rw [Tree.named, typeEq]
    rfl
  rw [replacement] at isReference
  obtain ⟨result, after, ran, wfAfter, growsAfter, resultTree⟩ :=
    wfMiddle.builds_substitute (growsMiddle.tree?_eq wf wfMiddle unfolded)
      (growsMiddle.tree?_eq wf wfMiddle isTarget) isReference
      (Tree.type?_named (wf.isSome_type? isTarget))
  exact ⟨reference, middle, result, after, ranVar, ran, wfAfter, growsMiddle.trans growsAfter,
    resultTree⟩

/-! ### Programs -/

/-- A program is never rebuilt. -/
theorem notMem_of_rebuild {program : Program} {order : List NodeId} {finished : Rebuilt}
    (wf : pool.WellFormed) (isProgram : pool.node? root = some (.shader program))
    (different : root ≠ target)
    (ran : rebuild target replacement order rebuilt pool = .ok finished after) : root ∉ order := by
  induction order generalizing pool rebuilt with
  | nil => exact List.not_mem_nil
  | cons id rest ih =>
      rw [rebuild_cons] at ran
      obtain ⟨result, middle, ranOne, ranRest⟩ := exists_of_bind_ok ran
      rw [List.mem_cons, not_or]
      constructor
      · rintro rfl
        rw [rebuildOne, if_neg different, bind_of_ok (query_of_ok (node_eq_ok_iff.mpr isProgram))]
          at ranOne
        cases ranOne
      · obtain ⟨wfMiddle, grows⟩ := (keeps_rebuildOne _ _ _ _).of_ok wf ranOne
        exact ih wfMiddle (grows.node?_eq isProgram) ranRest

/-- Nothing is substituted below a program. -/
theorem eq_target_of_substitute {program : Program} {result : NodeId} (wf : pool.WellFormed)
    (isProgram : pool.node? root = some (.shader program))
    (ran : substitute root target replacement pool = .ok result after) : root = target := by
  by_contra different
  obtain ⟨type, _, asked, ranRest⟩ := exists_of_bind_ok ran
  obtain ⟨-, rfl⟩ := query_eq_ok asked
  obtain ⟨order, _, listed, ranRebuild⟩ := exists_of_bind_ok ranRest
  obtain ⟨isOrder, rfl⟩ := query_eq_ok listed
  obtain ⟨finished, left, rebuilt, -⟩ := exists_of_bind_ok ranRebuild
  obtain ⟨type, found⟩ := node?_eq_some_iff.mp isProgram
  obtain ⟨same, isSame, -, rootListed, -⟩ :=
    wf.postOrderUntil_spec (contains_of_present found) (· == target)
  rw [isSame] at isOrder
  cases isOrder
  exact notMem_of_rebuild wf isProgram different rebuilt rootListed

end Pool

end Shading
