import Shading.Evaluation.Trace
import Shading.Proofs.Interpretation.Walk
import Shading.Proofs.Reachable

/-!
# A walk is a fold

The result of a node has a plain definition by recursion (`Pool.fold`): a qualified expression and
a program are refused, and every other node is computed from its operands, left before right, with
the types that the pool has for them. A walk from an empty cache gives the same answer, and when
nothing is refused and no computation fails, it computes every node below its root once, in the
order in which a traversal leaves them (`Interpretation.walk_eq_fold`).

A walk has no set of seen nodes; its cache has to serve for it. The two agree on the nodes that are
not younger than the ones still to be entered, because a node above them is seen by a traversal
when it is entered, but is cached only when it is left (`Interpretation.computes_forest`).
-/

namespace Shading

variable {α : Type} {interpretation : Interpretation α} {pool : Pool} {id root : NodeId}
  {node : Node} {tree : Tree}

/-- The result of a node from those of its operands. -/
def Interpretation.ofNode (interpretation : Interpretation α) (pool : Pool) (id : NodeId)
    (operand : NodeId → Except Error (Operand α)) : Node → Except Error α
  | .constant type components => interpretation.constant type components
  | .var type name => interpretation.var type name
  | .unary op inner => do
    let inner ← operand inner
    interpretation.unary op inner
  | .binary lhs op rhs => do
    let left ← operand lhs
    let right ← operand rhs
    let type ← pool.typeOf id
    interpretation.binary op type left right
  | .qualified kind _ => .error (.illegalQualifier kind interpretation.action)
  | .shader _ => .error (.notAnExpression id)

namespace Pool

/-- The result of a node by recursion. Only older operands are followed, which are all of them. -/
def fold (pool : Pool) (interpretation : Interpretation α) (id : NodeId) : Except Error α :=
  match pool.node? id with
  | none => .error (.unknownNode id)
  | some node =>
    interpretation.ofNode pool id
      (fun child =>
        if child < id then do
          let value ← pool.fold interpretation child
          let type ← pool.typeOf child
          return ⟨type, value⟩
        else .error (.missingResult child))
      node
termination_by id
decreasing_by assumption

/-- The result of an operand with the type that the pool has for it. -/
def foldOperand (pool : Pool) (interpretation : Interpretation α) (id : NodeId) :
    Except Error (Operand α) := do
  let value ← pool.fold interpretation id
  let type ← pool.typeOf id
  return ⟨type, value⟩

/-- The computation of a node fails although its operands have results. -/
inductive ComputationFails (pool : Pool) (interpretation : Interpretation α) (id : NodeId) :
    Prop where
  | constant {type : ValueType} {components : List Binary64} {cause : Error}
      (found : pool.node? id = some (.constant type components))
      (failed : interpretation.constant type components = .error cause) :
      ComputationFails pool interpretation id
  | var {type : ValueType} {name : String} {cause : Error}
      (found : pool.node? id = some (.var type name))
      (failed : interpretation.var type name = .error cause) :
      ComputationFails pool interpretation id
  | unary {op : UnaryOp} {inner : NodeId} {operand : Operand α} {cause : Error}
      (found : pool.node? id = some (.unary op inner))
      (below : pool.foldOperand interpretation inner = .ok operand)
      (failed : interpretation.unary op operand = .error cause) :
      ComputationFails pool interpretation id
  | binary {lhs rhs : NodeId} {op : BinaryOp} {left right : Operand α} {type : ValueType}
      {cause : Error} (found : pool.node? id = some (.binary lhs op rhs))
      (first : pool.foldOperand interpretation lhs = .ok left)
      (second : pool.foldOperand interpretation rhs = .ok right)
      (typed : pool.typeOf id = .ok type)
      (failed : interpretation.binary op type left right = .error cause) :
      ComputationFails pool interpretation id

end Pool

/-- The children of a tree that has a result have results. -/
theorem Tree.exists_interpret_child {result : Operand α} {small : Tree}
    (interpreted : tree.interpret interpretation = .ok result) (member : small ∈ tree.children) :
    ∃ smallResult, small.interpret interpretation = .ok smallResult := by
  cases tree with
  | constant _ _ | var _ _ => cases member
  | unary op operand =>
      obtain ⟨value, below, -⟩ := exists_of_except_ok interpreted
      exact ⟨value, List.mem_singleton.mp member ▸ below⟩
  | binary lhs op rhs =>
      obtain ⟨left, first, rest⟩ := exists_of_except_ok interpreted
      obtain ⟨right, second, -⟩ := exists_of_except_ok rest
      rcases List.mem_pair.mp member with rfl | rfl
      · exact ⟨left, first⟩
      · exact ⟨right, second⟩
  | qualified kind inner => cases interpreted

/-- What is inside a tree that has a result has a result. -/
theorem Tree.exists_interpret_of_mem_subtrees {result : Operand α} {small : Tree}
    (interpreted : tree.interpret interpretation = .ok result) (member : small ∈ tree.subtrees) :
    ∃ smallResult, small.interpret interpretation = .ok smallResult := by
  induction tree using induction_on_children generalizing result with
  | step tree ih =>
      rcases mem_subtrees_iff.mp member with rfl | ⟨child, isChild, inside⟩
      · exact ⟨result, interpreted⟩
      · obtain ⟨childResult, childInterpreted⟩ := exists_interpret_child interpreted isChild
        exact ih child isChild childInterpreted inside

namespace Pool

/-! ### Folds and trees -/

/-- The recursion gives a node its result from those of its operands. -/
theorem WellFormed.fold_of_node? (wf : pool.WellFormed) (found : pool.node? id = some node) :
    pool.fold interpretation id =
      interpretation.ofNode pool id (pool.foldOperand interpretation) node := by
  have older : ∀ child ∈ node.children, child < id := fun child => wf.child_lt found
  rw [fold, found]
  cases node with
  | constant _ _ | var _ _ | qualified _ _ | shader _ => rfl
  | unary op inner =>
      simp only [Interpretation.ofNode, if_pos (older _ List.mem_cons_self), foldOperand]
  | binary lhs op rhs =>
      have olderRight := older rhs (List.mem_cons_of_mem _ List.mem_cons_self)
      simp only [Interpretation.ofNode, if_pos (older _ List.mem_cons_self), if_pos olderRight,
        foldOperand]

/-- An operand has the type of its tree, so its fold with its type is what the tree is interpreted
as. -/
theorem WellFormed.foldOperand_of_fold (wf : pool.WellFormed)
    (unfolded : pool.tree? id = some tree)
    (folded : pool.fold interpretation id = (tree.interpret interpretation).map Operand.value) :
    pool.foldOperand interpretation id = tree.interpret interpretation := by
  rw [foldOperand, folded]
  cases interpreted : tree.interpret interpretation with
  | error cause => rfl
  | ok result =>
      have typed : pool.typeOf id = .ok result.type := by
        rw [typeOf_eq_ok_iff, wf.type?_of_tree? unfolded]
        exact Tree.type?_of_interpret interpreted
      rw [typed]
      rfl

/-- A node is computed from its operands as its tree is from theirs. -/
theorem WellFormed.ofNode_eq (wf : pool.WellFormed) (found : pool.node? id = some node)
    (shown : pool.Shows node tree) {operand : NodeId → Except Error (Operand α)}
    (operands : ∀ child small, small ∈ tree.children → pool.tree? child = some small →
      operand child = small.interpret interpretation) :
    interpretation.ofNode pool id operand node =
      (tree.interpret interpretation).map Operand.value := by
  cases shown with
  | constant type components => exact (map_value_map _ type).symm
  | var type name => exact (map_value_map _ type).symm
  | unary op below =>
      rw [Interpretation.ofNode, operands _ _ List.mem_cons_self below]
      cases interpreted : Tree.interpret interpretation _ with
      | error cause =>
          rw [Tree.interpret_unary_of_error op interpreted]
          rfl
      | ok result =>
          rw [Tree.interpret_unary op interpreted, map_value_map]
          rfl
  | binary op belowLeft belowRight =>
      have unfolded := wf.tree?_of_shows found (.binary op belowLeft belowRight)
      rw [Interpretation.ofNode, operands _ _ List.mem_cons_self belowLeft,
        operands _ _ (List.mem_cons_of_mem _ List.mem_cons_self) belowRight]
      rename_i left right
      cases first : left.interpret interpretation with
      | error cause =>
          rw [Tree.interpret_binary_of_error op right first]
          rfl
      | ok leftResult =>
          cases second : right.interpret interpretation with
          | error cause =>
              rw [Tree.interpret_binary_of_second_error op first second]
              rfl
          | ok rightResult =>
              obtain ⟨type, typed, fits⟩ := wf.exists_resultType? unfolded first second
              rw [Tree.interpret_binary first second fits, map_value_map, typed]
              rfl
  | qualified kind below => rfl

/-- The fold of an expression is what its tree is interpreted as. -/
theorem WellFormed.fold_eq (wf : pool.WellFormed) (interpretation : Interpretation α)
    (unfolded : pool.tree? id = some tree) :
    pool.fold interpretation id = (tree.interpret interpretation).map Operand.value := by
  induction tree using Tree.induction_on_children generalizing id with
  | step tree ih =>
      obtain ⟨node, found, shown⟩ := wf.tree?_eq_some_iff.mp unfolded
      rw [wf.fold_of_node? found]
      refine wf.ofNode_eq found shown fun child small member below => ?_
      exact wf.foldOperand_of_fold below (ih small member below)

/-- The recursion gives an operand the result of its tree. -/
theorem WellFormed.foldOperand_eq (wf : pool.WellFormed) (interpretation : Interpretation α)
    (unfolded : pool.tree? id = some tree) :
    pool.foldOperand interpretation id = tree.interpret interpretation :=
  wf.foldOperand_of_fold unfolded (wf.fold_eq interpretation unfolded)

/-- Every node of a pool has the result of its fold. -/
theorem WellFormed.interpret_eq_fold (wf : pool.WellFormed) (interpretation : Interpretation α)
    (present : pool.contains root = true) :
    pool.interpret interpretation root = pool.fold interpretation root := by
  rcases wf.exists_tree?_or_shader present with ⟨tree, unfolded⟩ | ⟨program, isNode⟩
  · rw [wf.fold_eq interpretation unfolded, Pool.interpret, unfolded]
  · have noTree : pool.tree? root = none := by rw [tree?, isNode]
    rw [wf.fold_of_node? isNode, Pool.interpret, noTree]
    rfl

/-- An expression has a result if nothing below it is qualified and no computation fails. -/
theorem WellFormed.exists_interpret (wf : pool.WellFormed) (unfolded : pool.tree? id = some tree)
    (plain : ∀ below kind inner, pool.Below id below →
      pool.node? below ≠ some (.qualified kind inner))
    (total : ∀ below, pool.Below id below → ¬pool.ComputationFails interpretation below) :
    ∃ result, tree.interpret interpretation = .ok result := by
  induction tree using Tree.induction_on_children generalizing id with
  | step tree ih =>
      obtain ⟨node, found, shown⟩ := wf.tree?_eq_some_iff.mp unfolded
      have below : ∀ child ∈ node.children, ∀ small ∈ tree.children,
          pool.tree? child = some small →
            ∃ result, small.interpret interpretation = .ok result := by
        intro child member small isSmall smallTree
        have edge : pool.Child id child := ⟨node, found, member⟩
        exact ih small isSmall smallTree
          (fun other kind inner path => plain other kind inner (.head edge path))
          fun other path => total other (.head edge path)
      have fails := total id .refl
      cases shown with
      | constant type components =>
          cases computed : interpretation.constant type components with
          | error cause => exact absurd (.constant found computed) fails
          | ok value => exact ⟨⟨type, value⟩, by rw [Tree.interpret, computed]; rfl⟩
      | var type name =>
          cases computed : interpretation.var type name with
          | error cause => exact absurd (.var found computed) fails
          | ok value => exact ⟨⟨type, value⟩, by rw [Tree.interpret, computed]; rfl⟩
      | unary op isInner =>
          obtain ⟨operand, isOperand⟩ := below _ List.mem_cons_self _ List.mem_cons_self isInner
          rw [Tree.interpret_unary op isOperand]
          cases computed : interpretation.unary op operand with
          | error cause =>
              -- A failure speaks of the recursion over the graph, which has the same operand.
              have folded := (wf.foldOperand_eq interpretation isInner).trans isOperand
              exact absurd (.unary found folded computed) fails
          | ok value => exact ⟨_, rfl⟩
      | binary op isLeft isRight =>
          obtain ⟨left, first⟩ := below _ List.mem_cons_self _ List.mem_cons_self isLeft
          obtain ⟨right, second⟩ := below _ (List.mem_cons_of_mem _ List.mem_cons_self) _
            (List.mem_cons_of_mem _ List.mem_cons_self) isRight
          obtain ⟨type, typed, fits⟩ := wf.exists_resultType? unfolded first second
          rw [Tree.interpret_binary first second fits]
          cases computed : interpretation.binary op type left right with
          | error cause =>
              have foldedLeft := (wf.foldOperand_eq interpretation isLeft).trans first
              have foldedRight := (wf.foldOperand_eq interpretation isRight).trans second
              exact absurd (.binary found foldedLeft foldedRight typed computed) fails
          | ok value => exact ⟨_, rfl⟩
      | qualified kind inner => exact absurd found (plain id kind _ .refl)

end Pool

/-! ### The order of computation -/

namespace Interpretation

variable {walk middle next : Walk α} {visits : List Visit} {order later : List NodeId}

/-- An expression has a result. -/
def Succeeds (interpretation : Interpretation α) (pool : Pool) (id : NodeId) : Prop :=
  ∃ tree result, pool.tree? id = some tree ∧ tree.interpret interpretation = .ok result

/-- Visits bring a walk from one state to another by computing the nodes of a list in order. -/
structure Computes (interpretation : Interpretation α) (pool : Pool) (visits : List Visit)
    (order : List NodeId) (walk next : Walk α) : Prop where
  holds : next.cache.Holds interpretation pool
  computed : next.computed = order.reverse ++ walk.computed
  known : ∀ id, (next.cache.results[id]?).isSome ↔
    (walk.cache.results[id]?).isSome ∨ id ∈ order
  goesOn : ∀ pending, interpretation.walkFrom pool (visits ++ pending) walk =
    interpretation.walkFrom pool pending next

theorem Computes.trans {others : List Visit}
    (first : interpretation.Computes pool visits order walk middle)
    (second : interpretation.Computes pool others later middle next) :
    interpretation.Computes pool (visits ++ others) (order ++ later) walk next where
  holds := second.holds
  computed := by
    rw [second.computed, first.computed, List.reverse_append, List.append_assoc]
  known id := by rw [second.known, first.known, List.mem_append, or_assoc]
  goesOn pending := by rw [List.append_assoc, first.goesOn, second.goesOn]

/-- An expression that has a result is in the pool. -/
theorem Succeeds.exists_node? (succeeds : interpretation.Succeeds pool id) (wf : pool.WellFormed) :
    ∃ node, pool.node? id = some node := by
  obtain ⟨tree, result, unfolded, -⟩ := succeeds
  obtain ⟨node, found, -⟩ := wf.tree?_eq_some_iff.mp unfolded
  exact ⟨node, found⟩

/-- The children of an expression that has a result have results. -/
theorem Succeeds.child (succeeds : interpretation.Succeeds pool id) (wf : pool.WellFormed)
    (found : pool.node? id = some node) {child : NodeId} (member : child ∈ node.children) :
    interpretation.Succeeds pool child := by
  obtain ⟨tree, result, unfolded, interpreted⟩ := succeeds
  obtain ⟨small, isSmall, smallTree⟩ := wf.child_tree? unfolded ⟨node, found, member⟩
  obtain ⟨smallResult, smallInterpreted⟩ := Tree.exists_interpret_child interpreted isSmall
  exact ⟨small, smallResult, smallTree, smallInterpreted⟩

/-- An expression that has a result is not qualified. -/
theorem plain_of_interpret {result : Operand α} (shown : pool.Shows node tree)
    (interpreted : tree.interpret interpretation = .ok result) : node.qualifier? = none := by
  cases shown with
  | qualified kind below => cases interpreted
  | constant _ _ | var _ _ | unary _ _ | binary _ _ _ => rfl

/-- Leaving a node whose operands have results computes it. -/
theorem computes_leave (wf : pool.WellFormed) (holds : walk.cache.Holds interpretation pool)
    (unknown : walk.cache.results[id]? = none) (succeeds : interpretation.Succeeds pool id)
    (found : pool.node? id = some node)
    (known : ∀ child ∈ node.children, (walk.cache.results[child]?).isSome) :
    ∃ next, interpretation.Computes pool [.leave id] [id] walk next := by
  obtain ⟨tree, result, unfolded, interpreted⟩ := succeeds
  have shown := wf.shows found unfolded
  have computes := compute_eq wf holds found shown (plain_of_interpret shown interpreted) known
  rw [interpreted] at computes
  refine ⟨⟨walk.cache.record id result.value, id :: walk.computed⟩,
    holds.record (Pool.lt_size_of_node? found) unfolded interpreted, rfl, fun other => ?_,
    fun pending => ?_⟩
  · rw [Cache.results_record, List.mem_singleton]
    split
    next same => simp [same]
    next different => simp [Ne.symm different]
  · rw [List.singleton_append, walkFrom, Std.TreeMap.contains_eq_isSome_getElem?, unknown,
      computes]
    rfl

/-- Entering a node computes what entering its operands does, and then the node. -/
theorem computes_enter (wf : pool.WellFormed) (succeeds : interpretation.Succeeds pool id)
    (found : pool.node? id = some node) (unknown : ¬(walk.cache.results[id]?).isSome = true)
    (below : interpretation.Computes pool (node.children.map .enter) order walk middle)
    (covered : ∀ child ∈ node.children, child ∈ order ∨ (walk.cache.results[child]?).isSome)
    (notYet : id ∉ order) :
    ∃ next, interpretation.Computes pool [.enter id] (order ++ [id]) walk next := by
  have knownBelow : ∀ child ∈ node.children, (middle.cache.results[child]?).isSome :=
    fun child member => (below.known child).mpr (covered child member).symm
  have unknownStill : middle.cache.results[id]? = none := by
    rw [← Option.not_isSome_iff_eq_none, below.known, not_or]
    exact ⟨unknown, notYet⟩
  obtain ⟨next, computesId⟩ :=
    computes_leave wf below.holds unknownStill succeeds found knownBelow
  have both := below.trans computesId
  obtain ⟨tree, result, unfolded, interpreted⟩ := succeeds
  have shown := wf.shows found unfolded
  refine ⟨next, both.holds, both.computed, both.known, fun pending => ?_⟩
  rw [interpretation.walkFrom_enter wf (Option.not_isSome_iff_eq_none.mp unknown) found shown
    (plain_of_interpret shown interpreted), both.goesOn]

/-- Entering a node that has a result computes nothing. -/
theorem computes_known (holds : walk.cache.Holds interpretation pool)
    (known : (walk.cache.results[id]?).isSome = true) :
    interpretation.Computes pool [.enter id] [] walk { walk with cache := walk.cache.hit } where
  holds := ⟨holds.used, holds.correct⟩
  computed := rfl
  known other := (or_iff_left List.not_mem_nil).symm
  goesOn pending := by
    rw [List.singleton_append, walkFrom, Std.TreeMap.contains_eq_isSome_getElem?, if_pos known]

/-- Entering the nodes of a forest computes what a traversal leaves, if the cache has the nodes that
the traversal has seen, as far as they are not younger than the forest. -/
theorem computes_forest (wf : pool.WellFormed) {ids : List NodeId} {seen : Std.TreeSet NodeId}
    (holds : walk.cache.Holds interpretation pool)
    (succeed : ∀ id ∈ ids, interpretation.Succeeds pool id)
    (agree : ∀ known, (∃ id ∈ ids, known ≤ id) →
      ((walk.cache.results[known]?).isSome ↔ known ∈ seen)) :
    ∃ next, interpretation.Computes pool (ids.map .enter)
      (pool.leftOrder (fun _ => false) ids seen) walk next := by
  generalize nowhere : (fun _ : NodeId => false) = stop
  fun_induction Pool.depthFirst pool stop ids seen generalizing walk with
  | case1 seen =>
      rw [Pool.leftOrder_nil]
      exact ⟨walk, holds, rfl, by simp, fun pending => rfl⟩
  | case2 id rest seen seenBefore ih =>
      have isSeen : id ∈ seen := Std.TreeSet.mem_iff_contains.mpr seenBefore
      have first := computes_known holds
        ((agree id ⟨id, List.mem_cons_self, Nat.le_refl id⟩).mpr isSeen)
      have agreeRest : ∀ known, (∃ other ∈ rest, known ≤ other) →
          ((walk.cache.results[known]?).isSome ↔ known ∈ seen) := by
        rintro known ⟨other, isRest, le⟩
        exact agree known ⟨other, List.mem_cons_of_mem _ isRest, le⟩
      obtain ⟨next, computes⟩ := ih first.holds
        (fun other isRest => succeed other (List.mem_cons_of_mem _ isRest)) agreeRest
      rw [Pool.leftOrder_of_seen seenBefore]
      exact ⟨next, first.trans computes⟩
  | case3 id rest seen unseen below later ihBelow =>
      rename_i ihLater
      have notSeen : id ∉ seen := fun isSeen => unseen (Std.TreeSet.mem_iff_contains.mp isSeen)
      have unknown : ¬(walk.cache.results[id]?).isSome = true := fun known =>
        notSeen ((agree id ⟨id, List.mem_cons_self, Nat.le_refl id⟩).mp known)
      have succeeds := succeed id List.mem_cons_self
      obtain ⟨node, found⟩ := succeeds.exists_node? wf
      have children : pool.expansion stop id = node.children := by
        rw [Pool.expansion, ← nowhere, wf.operands_eq found]
        rfl
      -- A traversal has seen the node when it enters its operands. The node is younger than they
      -- are, so it does not matter that the cache does not have it yet.
      have agreeBelow : ∀ known, (∃ child ∈ pool.expansion stop id, known ≤ child) →
          ((walk.cache.results[known]?).isSome ↔ known ∈ seen.insert id) := by
        rintro known ⟨child, isChild, le⟩
        have older : known < id := Nat.lt_of_le_of_lt le (Pool.lt_of_mem_expansion isChild)
        rw [agree known ⟨id, List.mem_cons_self, Nat.le_of_lt older⟩, Std.TreeSet.mem_insert,
          Std.LawfulEqCmp.compare_eq_iff_eq]
        exact (or_iff_right (Nat.ne_of_gt older)).symm
      obtain ⟨middle, computesBelow⟩ := ihBelow holds
        (fun child isChild => succeeds.child wf found (children ▸ isChild)) agreeBelow
      have covered : ∀ child ∈ pool.expansion stop id,
          child ∈ pool.leftOrder stop (pool.expansion stop id) (seen.insert id) ∨
            (walk.cache.results[child]?).isSome :=
        (Pool.childrenFirst_leftOrder fun known member older =>
          (agreeBelow known older).mpr member).2
      rw [children] at computesBelow covered
      obtain ⟨second, computesId⟩ := computes_enter wf succeeds found unknown computesBelow covered
        fun again => Pool.nodup_leftOrder.2 id again Std.TreeSet.mem_insert_self
      have agreeLater : ∀ known, (∃ other ∈ rest, known ≤ other) →
          ((second.cache.results[known]?).isSome ↔ known ∈ below.2) := by
        rintro known ⟨other, isRest, le⟩
        rw [computesId.known, Pool.mem_depthFirst_iff,
          agree known ⟨other, List.mem_cons_of_mem _ isRest, le⟩, Std.TreeSet.mem_insert,
          Std.LawfulEqCmp.compare_eq_iff_eq, List.mem_append, List.mem_singleton, children]
        tauto
      obtain ⟨next, computesLater⟩ := ihLater computesId.holds
        (fun other isRest => succeed other (List.mem_cons_of_mem _ isRest)) agreeLater
      have all := computesId.trans computesLater
      rw [List.append_assoc, ← children] at all
      rw [Pool.leftOrder_of_unseen unseen]
      exact ⟨next, all⟩

/-! ### Walks -/

/-- The result of an expression is what a walk with an empty cache answers. -/
theorem result_eq_answerOf_walk (interpretation : Interpretation α) (pool : Pool)
    (root : NodeId) :
    interpretation.result pool root =
      answerOf (interpretation.walk pool root) { cache := .empty, computed := [] } := by
  rw [result, run, answerOf]
  cases interpretation.walk pool root { cache := .empty, computed := [] } <;> rfl

/-- A program is refused before anything is computed. -/
theorem walk_of_shader (interpretation : Interpretation α) {program : Program}
    (isNode : pool.node? root = some (.shader program)) :
    ∃ left, interpretation.walk pool root { cache := .empty, computed := [] } =
      .error (.notAnExpression root) left ∧ left.computed = [] := by
  have walked : interpretation.walkFrom pool [.enter root] ⟨Cache.empty.attach pool.session, []⟩ =
      .error (.notAnExpression root) ⟨Cache.empty.attach pool.session, []⟩ := by
    rw [walkFrom, Std.TreeMap.contains_eq_isSome_getElem?, Cache.results_attach_empty,
      isNode]
    rfl
  exact ⟨_, by rw [walk_eq, bind_of_error walked], rfl⟩

/-- A walk that succeeds computes what is below its root in the order of leaving. -/
theorem walk_of_succeeds (wf : pool.WellFormed) (succeeds : interpretation.Succeeds pool root) :
    ∃ value left, interpretation.walk pool root { cache := .empty, computed := [] } =
        .ok value left ∧
      left.computed.reverse = pool.leftOrder (fun _ => false) [root] ∅ := by
  have agree : ∀ known : NodeId, (∃ id ∈ [root], known ≤ id) →
      ((((Cache.empty : Cache α).attach pool.session).results[known]?).isSome ↔
        known ∈ (∅ : Std.TreeSet NodeId)) := by
    intro known _
    simp [Cache.results_attach_empty]
  have start : (⟨Cache.empty.attach pool.session, []⟩ : Walk α).cache.Holds interpretation pool :=
    Cache.holds_attach_empty interpretation pool
  obtain ⟨left, computes⟩ := computes_forest wf start (by simpa using succeeds) agree
  have walked := computes.goesOn []
  rw [List.append_nil, List.map_singleton, walkFrom] at walked
  have known := (computes.known root).mpr (Or.inr (wf.mem_leftOrder_iff.mpr .refl))
  obtain ⟨value, found⟩ := Option.isSome_iff_exists.mp known
  refine ⟨value, left, ?_, ?_⟩
  · rw [walk_eq, bind_of_ok walked, readResult_eq, found]
  · rw [computes.computed, List.append_nil, List.reverse_reverse]

/-- A walk from an empty cache answers what the fold does. It refuses a program before it computes
anything. On an expression, if nothing below it is qualified and no computation fails, it computes
every node below its root once, in the order in which a traversal leaves them. -/
theorem walk_eq_fold (interpretation : Interpretation α) (reachable : pool.Reachable)
    (present : pool.contains root = true) :
    answerOf (interpretation.walk pool root) { cache := .empty, computed := [] } =
        pool.fold interpretation root ∧
      (∀ program, pool.node root = .ok (.shader program) →
        ∃ left, interpretation.walk pool root { cache := .empty, computed := [] } =
          .error (.notAnExpression root) left ∧ left.computed = []) ∧
      ∀ type, pool.typeOf root = .ok type →
        (∀ id kind inner, pool.Below root id → pool.node id ≠ .ok (.qualified kind inner)) →
        (∀ id, pool.Below root id → ¬pool.ComputationFails interpretation id) →
        ∃ value left order,
          interpretation.walk pool root { cache := .empty, computed := [] } = .ok value left ∧
            pool.postOrder root = .ok order ∧ left.computed.reverse = order ∧ order.Nodup ∧
            ∀ id, id ∈ order ↔ pool.Below root id := by
  have wf := reachable.wellFormed
  refine ⟨?_, fun program isNode => ?_, fun type typed plain total => ?_⟩
  · rw [← result_eq_answerOf_walk, interpretation.result_eq wf present,
      wf.interpret_eq_fold interpretation present]
  · exact interpretation.walk_of_shader (Pool.node_eq_ok_iff.mp isNode)
  · obtain ⟨tree, unfolded⟩ := wf.exists_tree?_of_typeOf typed
    obtain ⟨result, interpreted⟩ := wf.exists_interpret unfolded
      (fun id kind inner below found => plain id kind inner below (Pool.node_eq_ok_iff.mpr found))
      total
    obtain ⟨value, left, walked, computed⟩ :=
      walk_of_succeeds wf ⟨tree, result, unfolded, interpreted⟩
    exact ⟨value, left, _, walked, wf.postOrder_eq present, computed, Pool.nodup_leftOrder.1,
      fun id => wf.mem_leftOrder_iff⟩

/-- A pool with an expression 4 in which the operand 2 is in two places, and operands are not in
the order in which they were made. -/
def sharedOperand : Pool :=
  (Pool.empty 0).afterCalls
    [.var .float "x", .var .float "y", .unary .neg 1, .binary 2 .mul 0, .binary 3 .add 2]

/-- A shared operand is computed once, and the answer is that of the recursion. -/
theorem walk_eq_fold_sharedOperand :
    answerOf (tracing.walk sharedOperand 4) { cache := .empty, computed := [] } =
        sharedOperand.fold tracing 4 ∧
      ∃ value left,
        tracing.walk sharedOperand 4 { cache := .empty, computed := [] } = .ok value left ∧
          left.computed.reverse = [1, 2, 0, 3, 4] := by
  have reachable : sharedOperand.Reachable := ⟨0, _, rfl⟩
  have present : sharedOperand.contains 4 = true := by decide +kernel
  have typed : sharedOperand.typeOf 4 = .ok .float := by decide +kernel
  have listed : sharedOperand.postOrder 4 = .ok [1, 2, 0, 3, 4] := by decide +kernel
  have unqualified : ∀ id ∈ [1, 2, 0, 3, 4],
      (sharedOperand.node? id).bind Node.qualifier? = none := by decide +kernel
  have plain : ∀ id kind inner, sharedOperand.Below 4 id →
      sharedOperand.node id ≠ .ok (.qualified kind inner) := by
    intro id kind inner below found
    have none := unqualified id ((reachable.wellFormed.mem_postOrder_iff listed).mpr below)
    rw [Pool.node_eq_ok_iff.mp found] at none
    cases none
  have total : ∀ id, sharedOperand.Below 4 id → ¬sharedOperand.ComputationFails tracing id := by
    rintro id - (⟨-, ⟨⟩⟩ | ⟨-, ⟨⟩⟩ | ⟨-, -, ⟨⟩⟩ | ⟨-, -, -, -, ⟨⟩⟩)
  obtain ⟨same, -, computes⟩ := walk_eq_fold tracing reachable present
  obtain ⟨value, left, order, walked, isOrder, computed, -⟩ := computes .float typed plain total
  rw [listed] at isOrder
  cases isOrder
  exact ⟨same, value, left, walked, computed⟩

end Interpretation

end Shading
