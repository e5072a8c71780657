import Shading.Proofs.Effect.Meaning
import Shading.Proofs.Pool.Search

/-!
# Qualifiers that are left

The expressions to take out of a color or of a vertex output are collected before the first one is
taken. Taking an expression rebuilds everything around it, and a qualified expression that was
rebuilt is not the one that was collected. So of two expressions with the same qualifier, one
inside the other, the outer one is left if the inner one is also used on its own and is met there
first: splitting `uniform x + uniform (uniform x)` leaves a uniform. The theorems below give the
orders in which nothing is left. These are the only ones, unless variables already have the names
that stages make.

The qualifier `fragment` is taken away from a vertex output in another way. What has it is collected
again in every round, so nothing is left when the rounds end, in whatever order it is met.
-/

namespace Shading

variable {pool : Pool} {root : NodeId} {tree : Tree} {kinds : List Qualifier}

/-- No node below a root has one of the qualifiers. -/
def Pool.Unqualified (pool : Pool) (kinds : List Qualifier) (root : NodeId) : Prop :=
  ∀ id kind inner, pool.Below root id → pool.node? id = some (.qualified kind inner) → kind ∉ kinds

/-- Nothing below a root has one of the qualifiers if its tree is free of them. -/
theorem Pool.WellFormed.unqualified_iff (wf : pool.WellFormed)
    (unfolded : pool.tree? root = some tree) : pool.Unqualified kinds root ↔ tree.Free kinds := by
  constructor
  · intro unqualified small member kind isKind found
    obtain ⟨inner, rfl⟩ := Tree.eq_qualified_of_qualifier? found
    obtain ⟨id, below, smallTree⟩ := wf.exists_below unfolded member
    obtain ⟨innerId, isNode, -⟩ := wf.exists_inner smallTree
    exact unqualified id kind innerId below isNode isKind
  · intro free id kind inner below found isKind
    obtain ⟨small, member, smallTree⟩ := wf.tree?_of_below unfolded below
    exact free small member kind isKind (wf.qualifier?_eq smallTree found)

/-! ### Splitting -/

/-- The order in which splitting leaves no varying and no uniform: each one that is not inside
another is met before those of its own kind inside it. Uniforms are met in what is left after the
varyings. -/
def Tree.SplitOrdered (color : Tree) : Prop :=
  color.OuterFirst [.fragment, .uniform] .fragment ∧
    color.withoutVaryings.OuterFirst [.fragment, .uniform] .uniform

instance (color : Tree) : Decidable color.SplitOrdered :=
  inferInstanceAs (Decidable (_ ∧ _))

/-- In the right order, splitting leaves no varying and no uniform. -/
theorem Tree.free_of_splitOrdered (ordered : tree.SplitOrdered) :
    tree.withoutVaryings.withoutUniforms.Free [.fragment, .uniform] := by
  exact free_extract_extract (by decide) rfl (enough_names _ _ _) (enough_names _ _ _) ordered.1
    ordered.2

/-- If splitting leaves no varying and no uniform, the order was right, unless a variable already
had a name that splitting gives. -/
theorem Tree.splitOrdered_of_free (noVarying : tree.Avoids VaryingName)
    (noUniform : tree.Avoids UniformName)
    (free : tree.withoutVaryings.withoutUniforms.Free [.fragment, .uniform]) :
    tree.SplitOrdered := by
  have varyingNames : ∀ name ∈ (List.range (tree.listed .fragment).length).map varyingName,
      VaryingName name := by
    intro name member
    obtain ⟨number, -, rfl⟩ := List.mem_map.mp member
    exact varyingName_isVaryingName number
  have uniformNames :
      ∀ name ∈ (List.range (tree.withoutVaryings.listed .uniform).length).map uniformName,
        UniformName name := by
    intro name member
    obtain ⟨number, -, rfl⟩ := List.mem_map.mp member
    exact uniformName_isUniformName number
  refine outerFirst_of_free (by decide) rfl varyingNames uniformNames noVarying ?_ free
  exact noUniform.extract fun name member => (varyingNames name member).not_uniformName

/-- An effect is split. No varying and no uniform is left in the color if each is met before those
of its own kind inside it, and only then if no variable had the name of a varying or of a uniform
before. -/
theorem Effect.split_unqualified (reachable : pool.Reachable) {effect : Effect} {type : ValueType}
    (isExpr : pool.typeOf effect.color = .ok type) (reserved : Glsl.ReservedNames) :
    ∃ stages after output color, effect.split reserved pool = .ok stages after ∧
      stages.fragment.outputs.get? reserved.color = some output ∧
      pool.tree? effect.color = some color ∧
      (color.SplitOrdered → after.Unqualified [.fragment, .uniform] output) ∧
      (pool.Avoids VaryingName effect.color → pool.Avoids UniformName effect.color →
        after.Unqualified [.fragment, .uniform] output → color.SplitOrdered) := by
  have wf := reachable.wellFormed
  obtain ⟨color, unfolded⟩ := wf.exists_tree?_of_typeOf isExpr
  obtain ⟨varyings, uniforms, left, after, ran, wfAfter, -, leftTree, -⟩ :=
    split_spec wf unfolded reserved
  refine ⟨_, after, left, color, ran, color_assembled, unfolded, ?_, ?_⟩
  · intro ordered
    rw [wfAfter.unqualified_iff leftTree]
    exact Tree.free_of_splitOrdered ordered
  · intro noVarying noUniform unqualified
    rw [wfAfter.unqualified_iff leftTree] at unqualified
    exact Tree.splitOrdered_of_free (wf.avoids unfolded noVarying) (wf.avoids unfolded noUniform)
      unqualified

/-- A pool in which a variable is 0, qualified it is 1, and qualified twice it is 2. The sums 3 and
4 have both, in the two orders. -/
def qualifiedTwice (kind : Qualifier) : Pool :=
  (Pool.empty 0).afterCalls
    [.var .float "x", .qualify kind 0, .qualify kind 1, .binary 1 .add 2, .binary 2 .add 1]

/-- With the outer uniform first, a color that has a uniform twice is split completely. -/
theorem Effect.split_unqualified_qualifiedTwice :
    ∃ stages after output, Effect.split ⟨0, 4⟩ {} (qualifiedTwice .uniform) = .ok stages after ∧
      stages.fragment.outputs.get? "o_Color" = some output ∧
      after.Unqualified [.fragment, .uniform] output := by
  have reachable : (qualifiedTwice .uniform).Reachable := ⟨0, _, rfl⟩
  have isExpr : (qualifiedTwice .uniform).typeOf (Effect.color ⟨0, 4⟩) = .ok .float := by
    decide +kernel
  obtain ⟨stages, after, output, color, ran, isOutput, unfolded, free, -⟩ :=
    Effect.split_unqualified reachable isExpr {}
  have ordered : ∀ tree ∈ (qualifiedTwice .uniform).tree? 4, tree.SplitOrdered := by decide +kernel
  exact ⟨stages, after, output, ran, isOutput, free (ordered color unfolded)⟩

/-- A uniform that is met before the uniform around it stays inside that one. -/
theorem Effect.split_leaves_uniform :
    (qualifiedTwice .uniform).Reachable ∧ (qualifiedTwice .uniform).typeOf 3 = .ok .float ∧
      ∃ stages after, Effect.split ⟨0, 3⟩ {} (qualifiedTwice .uniform) = .ok stages after ∧
        stages.fragment.outputs.get? "o_Color" = some 7 ∧ after.Below 7 6 ∧
        after.node? 6 = some (.qualified .uniform 5) := by
  refine ⟨⟨0, _, rfl⟩, by decide +kernel, ?_⟩
  have checked : succeedsWith (Effect.split ⟨0, 3⟩ {}) (qualifiedTwice .uniform)
      (fun stages after =>
      stages.fragment.outputs.get? "o_Color" = some 7 ∧
        after.node? 7 = some (.binary 5 .add 6) ∧
        after.node? 6 = some (.qualified .uniform 5)) = true := by decide +kernel
  obtain ⟨stages, after, ran, passed⟩ := exists_of_succeedsWith checked
  obtain ⟨isOutput, sum, left⟩ := of_decide_eq_true passed
  have child : after.Child 7 6 := ⟨_, sum, List.mem_cons_of_mem _ List.mem_cons_self⟩
  exact ⟨stages, after, ran, isOutput, .single child, left⟩

/-! ### Taking the qualifier `fragment` away -/

namespace VertexBinding

/-- Whatever an expression is, the rounds that take the qualifier `fragment` away never fail, and
they end. There are at most as many of them as nodes that have the qualifier below the expression,
so the bound on the rounds is not felt. The tree is left without the qualifier and otherwise as it
was. -/
theorem unwrapFragments_ends (reachable : pool.Reachable) {expr : NodeId} {type : ValueType}
    (isExpr : pool.typeOf expr = .ok type) :
    ∃ fragments tree rounds result after,
      pool.qualifiedAs expr .fragment = .ok fragments ∧ fragments.Nodup ∧
      (∀ id, id ∈ fragments ↔
        pool.Below expr id ∧ ∃ inner, pool.node? id = some (.qualified .fragment inner)) ∧
      rounds ≤ fragments.length ∧ Unwraps rounds expr pool result after ∧
      (∀ bound, rounds ≤ bound → unwrapRounds bound expr pool = .ok result after) ∧
      unwrapFragments expr pool = .ok result after ∧
      pool.tree? expr = some tree ∧ after.tree? result = some (tree.unwrap .fragment) := by
  have wf := reachable.wellFormed
  obtain ⟨tree, unfolded⟩ := wf.exists_tree?_of_typeOf isExpr
  obtain ⟨fragments, collected, unfolds⟩ := wf.qualifiedAs_spec unfolded .fragment
  obtain ⟨rounds, result, after, few, unwraps, -, -, resultTree⟩ := exists_unwraps wf unfolded
  rw [← unfolds.length_eq] at few
  refine ⟨fragments, tree, rounds, result, after, collected, (wf.of_qualifiedAs collected).2.1,
    fun id => wf.mem_qualifiedAs_iff collected, few, unwraps, fun bound => unwraps.unwrapRounds_eq,
    ?_, unfolded, resultTree⟩
  rw [unwrapFragments, bind_of_ok (Pool.query_of_ok collected)]
  exact unwraps.unwrapRounds_eq few

/-- A sum of three expressions qualified as `fragment`. When the first is replaced, the other two
become the same. -/
def mergingFragments : Pool :=
  (Pool.empty 0).afterCalls
    [.var .float "x", .var .float "y", .qualify .fragment 0, .binary 2 .add 1, .qualify .fragment 3,
      .binary 0 .add 1, .qualify .fragment 5, .qualify .attr 2, .binary 7 .add 4, .binary 8 .add 6]

/-- Three fragments, two of which become one on the way, are gone after at most three rounds. -/
theorem unwrapFragments_ends_mergingFragments :
    let sum := Tree.binary (.var .float "x") .add (.var .float "y")
    mergingFragments.qualifiedAs 9 .fragment = .ok [2, 4, 6] ∧
      ∃ rounds result after, rounds ≤ 3 ∧ Unwraps rounds 9 mergingFragments result after ∧
        unwrapFragments 9 mergingFragments = .ok result after ∧
        after.tree? result = some
          (.binary (.binary (.qualified .attr (.var .float "x")) .add sum) .add sum) := by
  intro sum
  have reachable : mergingFragments.Reachable := ⟨0, _, rfl⟩
  have isExpr : mergingFragments.typeOf 9 = .ok .float := by decide +kernel
  have isCollected : mergingFragments.qualifiedAs 9 .fragment = .ok [2, 4, 6] := by decide +kernel
  have shape : (mergingFragments.tree? 9).map (Tree.unwrap .fragment) =
      some (.binary (.binary (.qualified .attr (.var .float "x")) .add sum) .add sum) := by
    decide +kernel
  obtain ⟨fragments, tree, rounds, result, after, collected, -, -, few, unwraps, -, ran, unfolded,
    resultTree⟩ := unwrapFragments_ends reachable isExpr
  rw [isCollected] at collected
  cases collected
  rw [unfolded, Option.map_some] at shape
  exact ⟨isCollected, rounds, result, after, few, unwraps, ran, shape ▸ resultTree⟩

end VertexBinding

/-! ### Binding vertex inputs -/

/-- The order in which binding leaves no qualifier: each attribute and each uniform that is not
inside another is met before those of its own kind inside it. Uniforms are met in what is left
after the attributes are taken out under given names. -/
def Tree.BindOrdered (tree : Tree) (attributes : List String) : Prop :=
  (tree.unwrap .fragment).OuterFirst [.attr, .uniform] .attr ∧
    (tree.withoutAttributes attributes).OuterFirst [.attr, .uniform] .uniform

instance (tree : Tree) (attributes : List String) : Decidable (tree.BindOrdered attributes) :=
  inferInstanceAs (Decidable (_ ∧ _))

/-- Being free of all qualifiers, by parts. -/
theorem Tree.free_all_iff :
    tree.Free [.attr, .fragment, .uniform] ↔
      tree.Free [.attr, .uniform] ∧ tree.Free [.fragment] := by
  constructor
  · intro free
    constructor
    · intro small member kind isKind
      exact free small member kind (by revert isKind; cases kind <;> decide)
    · intro small member kind isKind
      exact free small member kind (by revert isKind; cases kind <;> decide)
  · rintro ⟨others, noFragment⟩ small member kind isKind
    cases kind with
    | attr => exact others small member .attr (by decide)
    | fragment => exact noFragment small member .fragment (by decide)
    | uniform => exact others small member .uniform (by decide)

namespace VertexBinding

variable {binding : VertexBinding} {family : String → Prop} {targets : List Tree}
  {names attributes uniforms : List String} {result : NodeId}

/-- The names under which trees stand are names of the family. -/
theorem Supplies.family_of_mem (supplies : binding.Supplies family targets names) :
    ∀ name ∈ names, family name := by
  intro name member
  obtain ⟨place, inside, rfl⟩ := List.mem_iff_getElem.mp member
  obtain ⟨sameLength, supplied⟩ := List.forall₂_iff_get.mp supplies
  exact (supplied place (sameLength ▸ inside) inside).1

/-- Nothing qualified as `fragment` is left in a bound output. -/
theorem Bound.noFragment (bound : binding.Bound tree attributes uniforms result)
    (wf : binding.pool.WellFormed) : binding.pool.Unqualified [.fragment] result := by
  rw [wf.unqualified_iff bound.unfolded]
  exact Tree.Free.extract (Tree.Free.extract (tree.free_unwrap .fragment))

/-- In the right order, binding leaves nothing qualified. -/
theorem Bound.unqualified_of_ordered (bound : binding.Bound tree attributes uniforms result)
    (wf : binding.pool.WellFormed) (ordered : tree.BindOrdered attributes) :
    binding.pool.Unqualified [.attr, .fragment, .uniform] result := by
  have noFragment := (wf.unqualified_iff bound.unfolded).mp (bound.noFragment wf)
  rw [wf.unqualified_iff bound.unfolded, Tree.free_all_iff]
  refine ⟨?_, noFragment⟩
  exact Tree.free_extract_extract (by decide) rfl
    (Nat.le_of_eq (List.Forall₂.length_eq bound.fromAttributes))
    (Nat.le_of_eq (List.Forall₂.length_eq bound.fromUniforms)) ordered.1 ordered.2

/-- If binding leaves nothing qualified, the order was right, unless a variable already had a name
that binding gives. -/
theorem Bound.ordered_of_unqualified (bound : binding.Bound tree attributes uniforms result)
    (wf : binding.pool.WellFormed) (noAttribute : tree.Avoids AttributeName)
    (noUniform : tree.Avoids UniformName)
    (unqualified : binding.pool.Unqualified [.attr, .fragment, .uniform] result) :
    tree.BindOrdered attributes := by
  rw [wf.unqualified_iff bound.unfolded, Tree.free_all_iff] at unqualified
  have isAttribute := bound.fromAttributes.family_of_mem
  refine Tree.outerFirst_of_free (by decide) rfl isAttribute bound.fromUniforms.family_of_mem
    (noAttribute.unwrap .fragment) ?_ unqualified.1
  exact (noUniform.unwrap .fragment).extract fun name member =>
    (isAttribute name member).not_uniformName

end VertexBinding

/-- Whenever the inputs of the vertex stage of a split effect can be bound, nothing qualified as
`fragment` is left in a vertex output. Nothing qualified at all is left if each attribute and each
uniform is met before those of its own kind inside it, and only then if no variable had the name of
an attribute or of a uniform before. -/
theorem Stages.bind_unqualified (reachable : pool.Reachable) {effect : Effect}
    {reserved : Glsl.ReservedNames} {stages : Stages} {middle : Pool}
    (ran : effect.split reserved pool = .ok stages middle) {calls : List Call} {now : Pool}
    (later : now = middle.afterCalls calls) {type : ValueType}
    (isExpr : now.typeOf effect.position = .ok type) {after : Pool} {lifted : Stages}
    (bound : Stages.bindVertexInputs (now, stages) = .ok () (after, lifted)) {name : String}
    {output : NodeId} (isOutput : lifted.vertex.outputs.get? name = some output) :
    ∃ expr tree attributes, stages.vertex.outputs.get? name = some expr ∧
      now.tree? expr = some tree ∧
      Tree.Served AttributeName (after.supply AttributeName lifted.bindings)
        ((tree.unwrap .fragment).listed .attr) attributes ∧
      after.Unqualified [.fragment] output ∧
      (tree.BindOrdered attributes → after.Unqualified [.attr, .fragment, .uniform] output) ∧
      (now.Avoids AttributeName expr → now.Avoids UniformName expr →
        after.Unqualified [.attr, .fragment, .uniform] output → tree.BindOrdered attributes) := by
  have wf := reachable.wellFormed
  obtain ⟨wfMiddle, -⟩ := (Effect.keeps_split effect reserved).of_ok wf ran
  obtain ⟨wfNow, persists⟩ := wfMiddle.afterCalls calls
  rw [← later] at wfNow persists
  have unfold : ∀ name expr, stages.vertex.outputs.get? name = some expr →
      ∃ tree, now.tree? expr = some tree := fun _ _ =>
    Effect.exists_tree?_of_bind wf ran wfNow persists isExpr bound
  obtain ⟨binding, boundAgain, sound, -, outputs, absent⟩ :=
    Stages.bind_spec (Effect.sound_of_split wf ran wfNow persists) unfold
  rw [bound] at boundAgain
  cases boundAgain
  cases isExprOutput : stages.vertex.outputs.get? name with
  | none =>
      rw [absent name isExprOutput] at isOutput
      cases isOutput
  | some expr =>
      obtain ⟨tree, unfolded⟩ := unfold name expr isExprOutput
      obtain ⟨attributes, uniforms, result, isResult, isBound⟩ :=
        outputs name expr tree isExprOutput unfolded
      rw [isResult] at isOutput
      cases isOutput
      refine ⟨expr, tree, attributes, rfl, unfolded, isBound.fromAttributes.served,
        isBound.noFragment sound.wellFormed, isBound.unqualified_of_ordered sound.wellFormed, ?_⟩
      intro noAttribute noUniform
      exact isBound.ordered_of_unqualified sound.wellFormed (wfNow.avoids unfolded noAttribute)
        (wfNow.avoids unfolded noUniform)

/-- With the outer attribute first, a position that has an attribute twice is bound completely. -/
theorem Stages.bind_unqualified_qualifiedTwice :
    ∃ stages middle after lifted output,
      Effect.split ⟨4, 0⟩ {} (qualifiedTwice .attr) = .ok stages middle ∧
      Stages.bindVertexInputs (middle, stages) = .ok () (after, lifted) ∧
      lifted.vertex.outputs.get? "o_Position" = some output ∧
      after.Unqualified [.attr, .fragment, .uniform] output := by
  have checked : succeedsWith (Effect.split ⟨4, 0⟩ {}) (qualifiedTwice .attr)
      (fun stages middle =>
        stages.vertex.outputs.get? "o_Position" = some 4 ∧
          (∀ tree ∈ middle.tree? 4, (tree.unwrap .fragment).OuterFirst [.attr, .uniform] .attr ∧
            (tree.unwrap .fragment).Free [.uniform]) ∧
          middle.typeOf 4 = .ok .float ∧
          succeedsWith Stages.bindVertexInputs (middle, stages) (fun _ after =>
            after.2.vertex.outputs.get? "o_Position" ≠ none) = true) = true := by
    decide +kernel
  obtain ⟨stages, middle, ran, passed⟩ := exists_of_succeedsWith checked
  obtain ⟨position, shape, isExpr, binds⟩ := of_decide_eq_true passed
  obtain ⟨⟨⟩, ⟨after, lifted⟩, bound, kept⟩ := exists_of_succeedsWith binds
  obtain ⟨output, isOutput⟩ := Option.ne_none_iff_exists'.mp (of_decide_eq_true kept)
  obtain ⟨expr, tree, attributes, isExprOutput, unfolded, -, -, free, -⟩ :=
    Stages.bind_unqualified ⟨0, _, rfl⟩ ran (show middle = middle.afterCalls [] from rfl) isExpr
      bound isOutput
  rw [position] at isExprOutput
  cases isExprOutput
  obtain ⟨ordered, noUniform⟩ := shape tree unfolded
  exact ⟨stages, middle, after, lifted, output, ran, bound, isOutput,
    free ⟨ordered, noUniform.extract.outerFirst⟩⟩

/-- An attribute that is met before the attribute around it stays inside that one. -/
theorem Stages.bind_leaves_attribute :
    (qualifiedTwice .attr).Reachable ∧
      ∃ stages middle after lifted,
        Effect.split ⟨3, 0⟩ {} (qualifiedTwice .attr) = .ok stages middle ∧
        middle.typeOf 3 = .ok .float ∧
        Stages.bindVertexInputs (middle, stages) = .ok () (after, lifted) ∧
        lifted.vertex.outputs.get? "o_Position" = some 7 ∧ after.Below 7 6 ∧
        after.node? 6 = some (.qualified .attr 5) := by
  refine ⟨⟨0, _, rfl⟩, ?_⟩
  have checked : succeedsWith (Effect.split ⟨3, 0⟩ {}) (qualifiedTwice .attr)
      (fun stages middle =>
        middle.typeOf 3 = .ok .float ∧
          succeedsWith Stages.bindVertexInputs (middle, stages) (fun _ after =>
            after.2.vertex.outputs.get? "o_Position" = some 7 ∧
              after.1.node? 7 = some (.binary 5 .add 6) ∧
              after.1.node? 6 = some (.qualified .attr 5)) = true) = true := by
    decide +kernel
  obtain ⟨stages, middle, ran, passed⟩ := exists_of_succeedsWith checked
  obtain ⟨isExpr, binds⟩ := of_decide_eq_true passed
  obtain ⟨⟨⟩, ⟨after, lifted⟩, bound, final⟩ := exists_of_succeedsWith binds
  obtain ⟨isOutput, sum, left⟩ := of_decide_eq_true final
  have child : after.Child 7 6 := ⟨_, sum, List.mem_cons_of_mem _ List.mem_cons_self⟩
  exact ⟨stages, middle, after, lifted, ran, isExpr, bound, isOutput, .single child, left⟩

end Shading
