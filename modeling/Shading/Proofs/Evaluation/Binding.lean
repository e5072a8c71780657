import Shading.Proofs.Evaluation.Components
import Shading.Proofs.Reachable

/-!
# Replacing a variable and binding it

An expression in which a variable is replaced means what the expression means when the variable is
bound to the value of the replacement. On trees this holds of every interpretation
(`Tree.interpret_substitute`), also for the error that is met first, since the replacement gives
a value in each of its places. A walk answers what the tree does, however the nodes are shared, so
it holds of evaluation after a substitution in a pool (`evaluate_substitute`).
-/

namespace Shading

/-- A variable can be read as its replacement is interpreted. -/
theorem Tree.interpret_substitute {α : Type} (interpretation : Interpretation α)
    {reading : ValueType → String → Except Error α} {type : ValueType} {name : String}
    {replacement tree : Tree}
    (supplied : replacement.interpret interpretation = (reading type name).map (⟨type, ·⟩))
    (others : ∀ other label, var other label ∈ tree.subtrees →
      var other label ≠ var type name → reading other label = interpretation.var other label) :
    (tree.substitute (var type name) replacement).interpret interpretation =
      tree.interpret { interpretation with var := reading } := by
  induction tree with
  | constant constantType components =>
      have different : constant constantType components ≠ var type name := Tree.noConfusion
      rw [substitute_leaf rfl different]
      rfl
  | var other label =>
      by_cases same : var other label = var type name
      · cases same
        rw [substitute_self, supplied]
        rfl
      · rw [substitute_leaf rfl same, interpret, ← others other label (self_mem_subtrees _) same]
        rfl
  | unary op operand ih =>
      have different : unary op operand ≠ var type name := Tree.noConfusion
      have below := ih fun other label inside =>
        others other label (mem_subtrees_of_child List.mem_cons_self inside)
      rw [substitute_unary op different, interpret, interpret, below]
  | binary lhs op rhs ihLeft ihRight =>
      have different : binary lhs op rhs ≠ var type name := Tree.noConfusion
      have left := ihLeft fun other label inside =>
        others other label (mem_subtrees_of_child List.mem_cons_self inside)
      have right := ihRight fun other label inside => others other label
        (mem_subtrees_of_child (List.mem_cons_of_mem _ List.mem_cons_self) inside)
      rw [substitute_binary op different, interpret, interpret, left, right]
  | qualified kind inner =>
      have different : qualified kind inner ≠ var type name := Tree.noConfusion
      rw [substitute_qualified kind different]
      rfl

/-- A variable has the value that was bound last, if it has the components of the type. -/
theorem Bindings.value_insert_self {bindings : Bindings} {type : ValueType} {name : String}
    {values : List Float} (arity : values.length = type.length) :
    Bindings.value (bindings.insert name values) type name = .ok values := by
  rw [Bindings.value, Table.get?_insert_self]
  exact if_pos arity

/-- Binding another variable changes nothing for a variable. -/
theorem Bindings.value_insert_of_ne {bindings : Bindings} {name other : String}
    (different : other ≠ name) (values : List Float) (type : ValueType) :
    Bindings.value (bindings.insert name values) type other = bindings.value type other := by
  rw [Bindings.value, Bindings.value, Table.get?_insert, if_neg different]

/-- Replacing a variable by an expression that has a value is binding the variable to the value. -/
theorem Tree.interpret_substitute_of_value {bindings : Bindings} {type : ValueType} {name : String}
    {values : List Float} {replacement tree : Tree} (complete : replacement.Complete)
    (evaluated : replacement.interpret (numerical bindings) = .ok ⟨type, values⟩)
    (only : ∀ other, var other name ∈ tree.subtrees → other = type) :
    (tree.substitute (var type name) replacement).interpret (numerical bindings) =
      tree.interpret (numerical (bindings.insert name values)) := by
  have arity : values.length = type.length := length_of_interpret complete evaluated
  refine interpret_substitute (numerical bindings) ?_ ?_
  · rw [evaluated, Bindings.value_insert_self arity]
    rfl
  · intro other label inside different
    refine Bindings.value_insert_of_ne (fun same => different ?_) values other
    subst same
    rw [only other inside]

/-- Substitution for a variable under given bindings is evaluation under changed ones. -/
theorem evaluate_substitute {pool : Pool} (reachable : pool.Reachable)
    {root target replacement : NodeId} {rootType type : ValueType} {name : String}
    {bindings : Bindings} {values : List Float} (rootTyped : pool.typeOf root = .ok rootType)
    (isVariable : pool.node target = .ok (.var type name))
    (replacementTyped : pool.typeOf replacement = .ok type)
    (evaluated : evaluate pool replacement bindings = .ok values)
    (only : ∀ id other, pool.Below root id → pool.node id = .ok (.var other name) → id = target) :
    ∃ result after, Pool.substitute root target replacement pool = .ok result after ∧
      evaluate after result bindings = evaluate pool root (bindings.insert name values) := by
  have wf := reachable.wellFormed
  obtain ⟨rootTree, unfolded⟩ := wf.exists_tree?_of_typeOf rootTyped
  obtain ⟨replacementTree, isReplacement⟩ := wf.exists_tree?_of_typeOf replacementTyped
  have replacementType := (wf.type?_of_tree? isReplacement).symm.trans
    (Pool.typeOf_eq_ok_iff.mp replacementTyped)
  have isTarget := wf.node?_var_iff.mp (Pool.node_eq_ok_iff.mp isVariable)
  have treeOnly : ∀ other, .var other name ∈ rootTree.subtrees → other = type := by
    intro other member
    obtain ⟨id, below, isOther⟩ := wf.exists_below unfolded member
    have same := only id other below (Pool.node_eq_ok_iff.mpr (wf.node?_var_iff.mpr isOther))
    rw [same, isTarget] at isOther
    cases isOther
    rfl
  have treeEvaluated : replacementTree.interpret (numerical bindings) = .ok ⟨type, values⟩ := by
    rw [evaluate, Interpretation.result_of_tree? _ wf isReplacement] at evaluated
    obtain ⟨⟨found, _⟩, interpreted, rfl⟩ := exists_of_map_ok evaluated
    have foundType := Tree.type?_of_interpret interpreted
    rw [replacementType] at foundType
    cases foundType
    exact interpreted
  obtain ⟨result, after, ran, wfAfter, -, resultTree⟩ :=
    wf.builds_substitute unfolded isTarget isReplacement replacementType
  refine ⟨result, after, ran, ?_⟩
  rw [evaluate, evaluate, Interpretation.result_of_tree? _ wfAfter resultTree,
    Interpretation.result_of_tree? _ wf unfolded,
    Tree.interpret_substitute_of_value (wf.complete isReplacement) treeEvaluated treeOnly]

/-- A pool with an expression 4 of the variables 0 and 1, and a part 2 of it that has both. -/
def sharedSum : Pool :=
  (Pool.empty 0).afterCalls
    [.var .vec2 "x", .var .vec2 "y", .binary 0 .add 1, .binary 0 .mul 0, .binary 3 .sub 2]

/-- Values of both variables. -/
def sharedSumValues : Bindings :=
  .ofList [("x", [3, 4]), ("y", [1, 2])]

/-- A variable that occurs several times, replaced or bound, with one result. -/
theorem evaluate_substitute_sharedSum :
    ∃ values result after,
      evaluate sharedSum 2 sharedSumValues = .ok values ∧
        Pool.substitute 4 0 2 sharedSum = .ok result after ∧
        evaluate after result sharedSumValues =
          evaluate sharedSum 4 (sharedSumValues.insert "x" values) := by
  have reachable : sharedSum.Reachable := ⟨0, _, rfl⟩
  have root : sharedSum.typeOf 4 = .ok .vec2 := by decide +kernel
  have sum : sharedSum.typeOf 2 = .ok .vec2 := by decide +kernel
  have isVariable : sharedSum.node 0 = .ok (.var .vec2 "x") := by decide +kernel
  have succeeds : (evaluate sharedSum 2 sharedSumValues).isOk = true := by decide +kernel
  have entered : sharedSum.preOrder 4 = .ok [4, 3, 0, 2, 1] := by decide +kernel
  have others : ∀ id ∈ [4, 3, 0, 2, 1], id = 0 ∨
      ∀ type ∈ ValueType.all, sharedSum.node id ≠ .ok (.var type "x") := by decide +kernel
  have only : ∀ id other, sharedSum.Below 4 id →
      sharedSum.node id = .ok (.var other "x") → id = 0 := by
    intro id other below found
    have listed := (reachable.wellFormed.mem_preOrder_iff entered).mpr below
    refine (others id listed).resolve_right fun different => ?_
    exact different other (List.mem_of_getElem? other.getElem?_all_index) found
  cases evaluated : evaluate sharedSum 2 sharedSumValues with
  | error cause =>
      rw [evaluated] at succeeds
      cases succeeds
  | ok values =>
      obtain ⟨result, after, ran, same⟩ :=
        evaluate_substitute reachable root isVariable sum evaluated only
      exact ⟨values, result, after, rfl, ran, same⟩

end Shading
