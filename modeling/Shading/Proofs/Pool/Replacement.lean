import Shading.Proofs.Reachable

/-!
# Substitution is replacement in trees

Substitution works on a graph in which a target can be shared, can be above or below its
replacement, and can change the types of everything above it. What it gives is told by the tree in
which the replacement stands in every place of the target: if the tree has a type, substitution
succeeds with an expression of that tree, and otherwise it reports an operator of the tree that
does not fit. A target that is not below the root changes nothing, also if it is not an expression.
-/

namespace Shading.Pool

variable {pool : Pool} {id root target replacement : NodeId} {node : Node} {rebuilt : Rebuilt}

/-! ### Nothing to replace -/

/-- A node whose children stand for themselves stands for itself. -/
theorem rebuildNode_unchanged (isExpr : node.isExpr = true)
    (stand : ∀ child ∈ node.children, rebuilt[child]? = some child) (id : NodeId) (pool : Pool) :
    rebuildNode rebuilt id node pool = .ok id pool := by
  have found : ∀ child ∈ node.children, rebuilt.result child pool = .ok child pool := by
    intro child member
    rw [Rebuilt.result, stand child member]
    rfl
  cases node with
  | constant _ _ | var _ _ => rfl
  | unary op operand =>
      rw [rebuildNode, bind_of_ok (found _ List.mem_cons_self), if_pos rfl]
      rfl
  | binary lhs op rhs =>
      rw [rebuildNode, bind_of_ok (found _ List.mem_cons_self),
        bind_of_ok (found _ (List.mem_cons_of_mem _ List.mem_cons_self)), if_pos ⟨rfl, rfl⟩]
      rfl
  | qualified kind inner =>
      rw [rebuildNode, bind_of_ok (found _ List.mem_cons_self), if_pos rfl]
      rfl
  | shader program => cases isExpr

/-- Rebuilding expressions among which the target is not makes nothing. -/
theorem WellFormed.rebuild_unchanged (wf : pool.WellFormed) {order : List NodeId}
    (exprs : ∀ id ∈ order, ∃ tree, pool.tree? id = some tree) (absent : target ∉ order)
    {done : NodeId → Prop} (ordered : pool.ChildrenFirst (· == target) done order)
    (stand : ∀ id, done id → rebuilt[id]? = some id) (replacement : NodeId) :
    ∃ result : Rebuilt, rebuild target replacement order rebuilt pool = .ok result pool ∧
      ∀ id, id ∈ order ∨ done id → result[id]? = some id := by
  induction order generalizing rebuilt done with
  | nil => exact ⟨rebuilt, rfl, fun id member => stand id (member.resolve_left List.not_mem_nil)⟩
  | cons first rest ih =>
      rw [List.mem_cons, not_or, eq_comm] at absent
      obtain ⟨different, absentRest⟩ := absent
      obtain ⟨tree, unfolded⟩ := exprs first List.mem_cons_self
      obtain ⟨node, found, shown⟩ := wf.tree?_eq_some_iff.mp unfolded
      have standBelow : ∀ child ∈ node.children, rebuilt[child]? = some child := by
        intro child member
        refine stand child (ordered.1 child ?_)
        rw [expansion, if_neg (by simpa using different), wf.operands_eq found]
        exact member
      have ran : rebuildOne target replacement rebuilt first pool = .ok first pool := by
        rw [rebuildOne, if_neg different,
          bind_of_ok (query_of_ok (node_eq_ok_iff.mpr found))]
        exact rebuildNode_unchanged shown.isExpr standBelow first pool
      have standNext : ∀ id, id = first ∨ done id →
          (rebuilt.insert first first)[id]? = some id := by
        intro id isDone
        rw [Std.TreeMap.getElem?_insert]
        split
        next same => rw [Std.LawfulEqCmp.eq_of_compare same]
        next other =>
          exact stand id (isDone.resolve_left fun same =>
            other (Std.LawfulEqCmp.compare_eq_iff_eq.mpr same.symm))
      obtain ⟨result, ranRest, standRest⟩ :=
        ih (fun id member => exprs id (List.mem_cons_of_mem _ member)) absentRest ordered.2
          standNext
      refine ⟨result, ?_, fun id member => standRest id ?_⟩
      · rw [rebuild_cons, bind_of_ok ran, ranRest]
      · rw [List.mem_cons] at member
        tauto

/-- Substitution for what is not below the root gives the root and adds nothing. -/
theorem WellFormed.substitute_of_not_below (wf : pool.WellFormed) {tree : Tree}
    (unfolded : pool.tree? root = some tree) {type : ValueType}
    (replacementTyped : pool.typeOf replacement = .ok type) (absent : ¬pool.Below root target) :
    substitute root target replacement pool = .ok root pool := by
  obtain ⟨order, listed, ordered, rootListed, within⟩ :=
    wf.postOrderUntil_spec (wf.contains_of_tree? unfolded) (· == target)
  have exprs : ∀ id ∈ order, ∃ tree, pool.tree? id = some tree := fun id member =>
    wf.tree?_of_mem_occurrences (by simpa using ⟨tree, unfolded⟩) (within id member)
  have notListed : target ∉ order := by
    intro member
    obtain ⟨same, isRoot, below⟩ := exists_below_of_mem_occurrences (within target member)
    exact absent (List.mem_singleton.mp isRoot ▸ below)
  have noneDone : ∀ id : NodeId, False → (∅ : Rebuilt)[id]? = some id := fun _ => False.elim
  obtain ⟨rebuilt, ran, stand⟩ :=
    wf.rebuild_unchanged exprs notListed ordered noneDone replacement
  rw [substitute, bind_of_ok (query_of_ok replacementTyped), bind_of_ok (query_of_ok listed),
    bind_of_ok ran, stand root (Or.inl rootListed)]
  rfl

/-! ### Every substitution -/

/-- Substitution gives the tree in which the replacement stands in every place of the target, or
reports an operator that does not fit in it. It keeps what was in the pool. -/
theorem substitute_replaces (reachable : pool.Reachable) {rootType replacementType : ValueType}
    (rootTyped : pool.typeOf root = .ok rootType)
    (replacementTyped : pool.typeOf replacement = .ok replacementType) (target : NodeId) :
    ∃ replacementTree tree, pool.tree? replacement = some replacementTree ∧
      pool.treeReplacing? target replacementTree root = some tree ∧
      (tree.type?.isSome → ∃ result after,
        substitute root target replacement pool = .ok result after ∧
          after.tree? result = some tree) ∧
      (tree.type? = none → ∃ op left right after,
        substitute root target replacement pool = .error (.typeMismatch op left right) after ∧
          tree.Mismatch op left right) ∧
      (pool.typeOf target = .ok replacementType → ∃ result after,
        substitute root target replacement pool = .ok result after ∧
          after.typeOf result = .ok rootType) ∧
      (¬pool.Below root target → substitute root target replacement pool = .ok root pool) ∧
      ∀ id entry, pool.entry? id = some entry →
        Pool.entry? (pool.leftBy (substitute root target replacement)) id = some entry := by
  have wf := reachable.wellFormed
  obtain ⟨rootTree, unfolded⟩ := wf.exists_tree?_of_typeOf rootTyped
  obtain ⟨replacementTree, isReplacement⟩ := wf.exists_tree?_of_typeOf replacementTyped
  obtain ⟨tree, isNew⟩ := wf.exists_treeReplacing? unfolded target replacementTree
  have attempts := wf.attempts_substitute unfolded isReplacement isNew
  refine ⟨replacementTree, tree, isReplacement, isNew, fun typed => ?_, fun untyped => ?_,
    fun targetTyped => ?_, wf.substitute_of_not_below unfolded replacementTyped, ?_⟩
  · obtain ⟨result, after, ran, -, -, resultTree⟩ := attempts.builds typed
    exact ⟨result, after, ran, resultTree⟩
  · refine attempts.resolve_left ?_
    -- A tree that was built is the tree of an expression, so it has a type.
    rintro ⟨result, after, -, wfAfter, -, resultTree⟩
    have typed := wfAfter.isSome_type? resultTree
    rw [untyped] at typed
    cases typed
  · obtain ⟨targetTree, isTarget⟩ := wf.exists_tree?_of_typeOf targetTyped
    have sameType : replacementTree.type? = targetTree.type? := by
      rw [← wf.type?_of_tree? isReplacement, ← wf.type?_of_tree? isTarget,
        typeOf_eq_ok_iff.mp replacementTyped, typeOf_eq_ok_iff.mp targetTyped]
    obtain ⟨result, after, ran, wfAfter, -, resultTree⟩ :=
      wf.builds_substitute unfolded isTarget isReplacement sameType
    refine ⟨result, after, ran, typeOf_eq_ok_iff.mpr ?_⟩
    rw [wfAfter.type?_of_tree? resultTree, Tree.type?_substitute sameType,
      ← wf.type?_of_tree? unfolded, typeOf_eq_ok_iff.mp rootTyped]
  · intro id entry found
    exact (keeps_substitute root target replacement pool wf).2.toExtends.entry?_eq found

/-- A pool in which the variable 0 is in two places below 3, and also below 2. With a vector of
three components in its place, 3 still has a type and 6 has none. -/
def sharedTarget : Pool :=
  (empty 0).afterCalls
    [.var .vec2 "x", .var .float "s", .binary 0 .mul 1, .binary 2 .add 0, .var .vec3 "z",
      .var .vec2 "w", .binary 3 .add 5]

/-- All three outcomes in one pool: a target that occurs twice is replaced, a replacement that does
not fit is refused, and a target that is not below the root changes nothing. -/
theorem substitute_replaces_sharedTarget :
    (∃ tree result after, sharedTarget.treeReplacing? 0
          (.binary (.var .vec2 "x") .mul (.var .float "s")) 3 = some tree ∧
        substitute 3 0 2 sharedTarget = .ok result after ∧ after.tree? result = some tree) ∧
      (∃ op left right after,
        substitute 6 0 4 sharedTarget = .error (.typeMismatch op left right) after) ∧
      ¬sharedTarget.Below 3 5 ∧ substitute 3 5 4 sharedTarget = .ok 3 sharedTarget := by
  have reachable : sharedTarget.Reachable := ⟨0, _, rfl⟩
  have root : sharedTarget.typeOf 3 = .ok .vec2 := by decide +kernel
  have larger : sharedTarget.typeOf 6 = .ok .vec2 := by decide +kernel
  have product : sharedTarget.typeOf 2 = .ok .vec2 := by decide +kernel
  have vector : sharedTarget.typeOf 4 = .ok .vec3 := by decide +kernel
  refine ⟨?_, ?_, ?_⟩
  · obtain ⟨small, tree, isSmall, isTree, typed, -⟩ := substitute_replaces reachable root product 0
    have isProduct : sharedTarget.tree? 2 =
        some (.binary (.var .vec2 "x") .mul (.var .float "s")) := by decide +kernel
    rw [isProduct] at isSmall
    cases isSmall
    have isTyped : ((sharedTarget.treeReplacing? 0
        (.binary (.var .vec2 "x") .mul (.var .float "s")) 3).bind Tree.type?).isSome := by
      decide +kernel
    rw [isTree] at isTyped
    obtain ⟨result, after, ran, resultTree⟩ := typed isTyped
    exact ⟨tree, result, after, isTree, ran, resultTree⟩
  · obtain ⟨small, tree, isSmall, isTree, -, untyped, -⟩ :=
      substitute_replaces reachable larger vector 0
    have isVector : sharedTarget.tree? 4 = some (.var .vec3 "z") := by decide +kernel
    rw [isVector] at isSmall
    cases isSmall
    have isUntyped :
        (sharedTarget.treeReplacing? 0 (.var .vec3 "z") 6).bind Tree.type? = none := by
      decide +kernel
    rw [isTree] at isUntyped
    obtain ⟨op, left, right, after, failed, -⟩ := untyped isUntyped
    exact ⟨op, left, right, after, failed⟩
  · obtain ⟨-, -, -, -, -, -, -, unchanged, -⟩ := substitute_replaces reachable root vector 5
    have entered : sharedTarget.preOrder 3 = .ok [3, 2, 0, 1] := by decide +kernel
    have absent : ¬sharedTarget.Below 3 5 := fun below => by
      have listed := (reachable.wellFormed.mem_preOrder_iff entered).mpr below
      exact absurd listed (by decide)
    exact ⟨absent, unchanged absent⟩

end Shading.Pool
