import Shading.Proofs.Effect.Lifting
import Shading.Proofs.Tree.Restoration

/-!
# Stages mean what the effect means

What a split moves out of the color is supplied to the fragment stage under its name, and what is
taken out of the vertex outputs is bound under its name. Putting it back gives the expression as it
was, up to qualifiers, provided that no variable had one of the names before.
-/

namespace Shading

variable {pool : Pool} {root : NodeId} {tree : Tree} {family : String → Prop}

/-- What a table supplies under the names of a family. -/
def Pool.supply (pool : Pool) (family : String → Prop) [DecidablePred family]
    (table : Table String NodeId) (name : String) : Option Tree :=
  if family name then (table.get? name).bind pool.tree? else none

/-- Nothing is supplied under a name of another family. -/
theorem Pool.supply_of_not [DecidablePred family] (pool : Pool) (table : Table String NodeId)
    (name : String) (other : ¬family name) : pool.supply family table name = none :=
  if_neg other

/-- What is bound under a name of the family is supplied as its tree. -/
theorem Pool.supply_eq [DecidablePred family] {table : Table String NodeId} {name : String}
    {id : NodeId} (isName : family name) (bound : table.get? name = some id)
    (unfolded : pool.tree? id = some tree) : pool.supply family table name = some tree := by
  rw [supply, if_pos isName, bound]
  exact unfolded

/-- No variable below a root has a name of a family. -/
def Pool.Avoids (pool : Pool) (family : String → Prop) (root : NodeId) : Prop :=
  ∀ id type name, pool.Below root id → pool.node? id = some (.var type name) → ¬family name

/-- A tree avoids the names that its graph avoids. -/
theorem Pool.WellFormed.avoids (wf : pool.WellFormed) (unfolded : pool.tree? root = some tree)
    (avoids : pool.Avoids family root) : tree.Avoids family := by
  intro type name member
  obtain ⟨id, below, isVar⟩ := wf.exists_below unfolded member
  exact avoids id type name below (wf.node?_var_iff.mpr isVar)

/-- The names of the variables of a pool. -/
def Pool.varNames (pool : Pool) : List String :=
  pool.slots.toList.filterMap fun slot => slot.bind fun entry =>
    match entry.node with
    | .var _ name => some name
    | _ => none

/-- A graph avoids a family that no variable of the pool belongs to. -/
theorem Pool.avoids_of_varNames (others : ∀ name ∈ pool.varNames, ¬family name)
    (root : NodeId) : pool.Avoids family root := by
  intro id type name _ found
  obtain ⟨entryType, present⟩ := node?_eq_some_iff.mp found
  have inside := lt_size_of_present present
  rw [Pool.entry?, Array.getElem?_eq_getElem inside] at present
  refine others name (List.mem_filterMap.mpr ⟨pool.slots[id], ?_, ?_⟩)
  · exact Array.mem_toList_iff.mpr (Array.getElem_mem inside)
  · rw [show pool.slots[id] = some ⟨.var type name, entryType⟩ from present]
    rfl

/-- What was moved is served under its names if the table has it. -/
theorem Pool.Moves.served [DecidablePred family] {nameOf : Nat → String} {targets : List Tree}
    {moved : List Moved} {table : Table String NodeId} (moves : pool.Moves nameOf targets moved)
    (isFamily : ∀ number, family (nameOf number))
    (kept : ∀ item ∈ moved, table.get? item.name = some item.inner) :
    Tree.Served family (pool.supply family table) targets
      ((List.range targets.length).map nameOf) := by
  have inFamily : ∀ item ∈ moved, family item.name := by
    intro item member
    have isName : item.name ∈ moved.map Moved.name := List.mem_map_of_mem member
    rw [moves.1] at isName
    obtain ⟨number, -, same⟩ := List.mem_map.mp isName
    exact same ▸ isFamily number
  rw [← moves.1, Tree.Served, List.forall₂_map_right_iff]
  refine List.Forall₂.flip ((List.Forall₂.imp ?_ ((List.forall₂_and_left moved targets).mpr
    ⟨fun _ member => member, moves.2.flip⟩)))
  rintro item target ⟨member, -, -, kind, inner, eq, innerTree⟩
  exact ⟨inFamily item member, kind, inner, eq,
    supply_eq (inFamily item member) (kept item member) innerTree⟩

/-- An effect is split, and the color of the fragment stage means what the color of the effect
means: uniforms are supplied by the bindings and varyings by the vertex outputs. -/
theorem Effect.split_preserves_meaning (reachable : pool.Reachable) {effect : Effect}
    {type : ValueType} (isExpr : pool.typeOf effect.color = .ok type)
    (noVarying : pool.Avoids VaryingName effect.color)
    (noUniform : pool.Avoids UniformName effect.color) {reserved : Glsl.ReservedNames}
    (position : ∀ varyings, pool.qualifiedAs effect.color .fragment = .ok varyings →
      ∀ number < varyings.length, reserved.position ≠ varyingName number) :
    ∃ stages after output result original,
      effect.split reserved pool = .ok stages after ∧
      stages.fragment.outputs.get? reserved.color = some output ∧
      after.tree? output = some result ∧ pool.tree? effect.color = some original ∧
      result.meaning (after.supply UniformName stages.bindings)
        (after.supply VaryingName stages.vertex.outputs) = original.erase := by
  have wf := reachable.wellFormed
  obtain ⟨original, unfolded⟩ := wf.exists_tree?_of_typeOf isExpr
  obtain ⟨varyings, uniforms, left, after, ran, wfAfter, grows, leftTree, varyingMoves,
    uniformMoves⟩ := split_spec wf unfolded reserved
  have keptVaryings : ∀ item ∈ varyings,
      (effect.assembled reserved varyings uniforms left).vertex.outputs.get? item.name =
        some item.inner := by
    intro item member
    obtain ⟨ids, collected, unfolds⟩ := wf.qualifiedAs_spec unfolded .fragment
    have isName : item.name ∈ varyings.map Moved.name := List.mem_map_of_mem member
    rw [varyingMoves.1] at isName
    obtain ⟨number, inside, same⟩ := List.mem_map.mp isName
    -- The position is written last and would take the place of a varying of its name.
    have different : item.name ≠ reserved.position := by
      rw [← same]
      refine (position ids collected number ?_).symm
      rw [unfolds.length_eq]
      exact List.mem_range.mp inside
    rw [outputs_assembled, Table.get?_insert_of_ne _ _ different,
      Table.get?_ofList_eq_some_iff (nodup_names varyingName_injective varyingMoves.1)]
    exact List.mem_map_of_mem member
  have keptUniforms : ∀ item ∈ uniforms,
      (effect.assembled reserved varyings uniforms left).bindings.get? item.name =
        some item.inner := by
    intro item member
    rw [bindings_assembled,
      Table.get?_ofList_eq_some_iff (nodup_names uniformName_injective uniformMoves.1)]
    exact List.mem_map_of_mem member
  refine ⟨_, after, left, _, original, ran, color_assembled, leftTree, unfolded, ?_⟩
  exact Tree.meaning_extract_extract (after.supply_of_not _) (after.supply_of_not _)
    (fun _ => VaryingName.not_uniformName) (wf.avoids unfolded noVarying)
    (wf.avoids unfolded noUniform) (fun _ member => (Tree.mem_listed.mp member).1)
    (fun _ member => (Tree.mem_listed.mp member).1)
    (varyingMoves.served varyingName_isVaryingName keptVaryings)
    (uniformMoves.served uniformName_isUniformName keptUniforms)

/-- A pool with a color in which varyings are shared and stand inside each other and inside a
uniform: `x` is 0, and the color is 5. -/
def nestedVaryings : Pool :=
  (Pool.empty 0).afterCalls
    [.var .float "x", .qualify .fragment 0, .qualify .fragment 1, .binary 1 .add 2,
      .qualify .uniform 3, .binary 4 .mul 0]

/-- The meaning of a color with shared and nested varyings is kept. -/
theorem Effect.split_preserves_meaning_nestedVaryings :
    ∃ stages after output result original,
      Effect.split ⟨0, 5⟩ {} nestedVaryings = .ok stages after ∧
      stages.fragment.outputs.get? "o_Color" = some output ∧
      after.tree? output = some result ∧ nestedVaryings.tree? 5 = some original ∧
      result.meaning (after.supply UniformName stages.bindings)
        (after.supply VaryingName stages.vertex.outputs) = original.erase := by
  have position : ∀ varyings, nestedVaryings.qualifiedAs 5 .fragment = .ok varyings →
      ∀ number < varyings.length, "o_Position" ≠ varyingName number := by
    intro varyings _ number _ same
    have isVarying : VaryingName "o_Position" := ⟨number, same⟩
    revert isVarying
    decide
  have reachable : nestedVaryings.Reachable := ⟨0, _, rfl⟩
  have isExpr : nestedVaryings.typeOf (Effect.color ⟨0, 5⟩) = .ok .float := by decide +kernel
  exact Effect.split_preserves_meaning reachable isExpr
    (Pool.avoids_of_varNames (by decide +kernel) 5)
    (Pool.avoids_of_varNames (by decide +kernel) 5) position

/-- What was taken out of a vertex output is served by the bindings. -/
theorem VertexBinding.Supplies.served [DecidablePred family] {binding : VertexBinding}
    {targets : List Tree} {names : List String}
    (supplies : binding.Supplies family targets names) :
    Tree.Served family (binding.pool.supply family binding.stages.bindings) targets names := by
  refine List.Forall₂.imp ?_ supplies
  rintro target name ⟨isName, kind, inner, id, eq, bound, unfolded⟩
  exact ⟨isName, kind, inner, eq, Pool.supply_eq isName bound unfolded⟩

/-- A bound vertex output means what it meant before. -/
theorem VertexBinding.Bound.meaning_eq {binding : VertexBinding} {attributes uniforms : List String}
    {result : NodeId} (bound : binding.Bound tree attributes uniforms result)
    (noAttribute : tree.Avoids AttributeName) (noUniform : tree.Avoids UniformName) :
    ∃ lifted, binding.pool.tree? result = some lifted ∧
      lifted.meaning (binding.pool.supply UniformName binding.stages.bindings)
        (binding.pool.supply AttributeName binding.stages.bindings) = tree.erase := by
  refine ⟨_, bound.unfolded, ?_⟩
  rw [← Tree.erase_unwrap .fragment tree]
  exact Tree.meaning_extract_extract (binding.pool.supply_of_not _) (binding.pool.supply_of_not _)
    (fun _ => AttributeName.not_uniformName) (noAttribute.unwrap .fragment)
    (noUniform.unwrap .fragment)
    (fun _ member => (Tree.mem_listed.mp member).1) (fun _ member => (Tree.mem_listed.mp member).1)
    bound.fromAttributes.served bound.fromUniforms.served

/-- The inputs of the vertex stage of a split effect are bound, and every vertex output means what
it meant before. The fragment stage and what it has bound stay as they are. -/
theorem Stages.bind_preserves_meaning (reachable : pool.Reachable) {effect : Effect}
    {reserved : Glsl.ReservedNames} {stages : Stages} {middle : Pool}
    (ran : effect.split reserved pool = .ok stages middle) {calls : List Call} {now : Pool}
    (later : now = middle.afterCalls calls)
    (exprs : ∀ name expr, stages.vertex.outputs.get? name = some expr →
      (∃ type, now.typeOf expr = .ok type) ∧
        now.Avoids AttributeName expr ∧ now.Avoids UniformName expr) :
    ∃ after lifted, Stages.bindVertexInputs (now, stages) = .ok () (after, lifted) ∧
      lifted.fragment = stages.fragment ∧
      (∀ name id, stages.bindings.get? name = some id → lifted.bindings.get? name = some id) ∧
      ∀ name expr, stages.vertex.outputs.get? name = some expr →
        ∃ output result original, lifted.vertex.outputs.get? name = some output ∧
          after.tree? output = some result ∧ now.tree? expr = some original ∧
          result.meaning (after.supply UniformName lifted.bindings)
            (after.supply AttributeName lifted.bindings) = original.erase := by
  have wf := reachable.wellFormed
  obtain ⟨wfMiddle, -⟩ := (Effect.keeps_split effect reserved).of_ok wf ran
  obtain ⟨wfNow, persists⟩ := wfMiddle.afterCalls calls
  rw [← later] at wfNow persists
  have unfold : ∀ name expr, stages.vertex.outputs.get? name = some expr →
      ∃ tree, now.tree? expr = some tree := by
    intro name expr output
    obtain ⟨⟨type, typed⟩, -⟩ := exprs name expr output
    exact wfNow.exists_tree?_of_typeOf typed
  obtain ⟨after, bound, -, extended, outputs, -⟩ :=
    Stages.bind_spec (Effect.sound_of_split wf ran wfNow persists) unfold
  refine ⟨after.pool, after.stages, bound, extended.fragment, extended.bindings, ?_⟩
  intro name expr output
  obtain ⟨-, noAttribute, noUniform⟩ := exprs name expr output
  obtain ⟨original, unfolded⟩ := unfold name expr output
  obtain ⟨attributes, uniforms, result, isOutput, isBound⟩ :=
    outputs name expr original output unfolded
  obtain ⟨lifted, liftedTree, same⟩ := isBound.meaning_eq (wfNow.avoids unfolded noAttribute)
    (wfNow.avoids unfolded noUniform)
  exact ⟨result, lifted, original, isOutput, liftedTree, unfolded, same⟩

/-- A pool with a varying that holds attributes inside each other and a uniform that the color
shares: the varying is 7 and the color is 8. -/
def nestedAttributes : Pool :=
  (Pool.empty 0).afterCalls
    [.var .float "x", .var .float "y", .qualify .attr 0, .qualify .attr 2, .binary 2 .add 3,
      .qualify .uniform 1, .binary 4 .mul 5, .qualify .fragment 6, .binary 7 .add 5]

/-- A collection that keeps the effect of `nestedAttributes`. -/
def collection : List Call :=
  [.markEffect ⟨7, 8⟩, .sweep]

/-- The meaning of both outputs is kept, with a collection between splitting and binding. -/
theorem Stages.bind_preserves_meaning_nestedAttributes :
    ∃ stages middle, Effect.split ⟨7, 8⟩ {} nestedAttributes = .ok stages middle ∧
      stages.vertex.outputs.keys = ["o_Position", "v_Varying0"] ∧
      ∃ after lifted,
        Stages.bindVertexInputs (middle.afterCalls collection, stages) = .ok () (after, lifted) ∧
        lifted.fragment = stages.fragment ∧
        (∀ name id, stages.bindings.get? name = some id → lifted.bindings.get? name = some id) ∧
        ∀ name expr, stages.vertex.outputs.get? name = some expr →
          ∃ output result original, lifted.vertex.outputs.get? name = some output ∧
            after.tree? output = some result ∧
            (middle.afterCalls collection).tree? expr = some original ∧
            result.meaning (after.supply UniformName lifted.bindings)
              (after.supply AttributeName lifted.bindings) = original.erase := by
  have reachable : nestedAttributes.Reachable := ⟨0, _, rfl⟩
  have checked : succeedsWith (Effect.split ⟨7, 8⟩ {}) nestedAttributes
      (fun stages middle =>
        stages.vertex.outputs.keys = ["o_Position", "v_Varying0"] ∧
          stages.vertex.outputs.values.map (middle.afterCalls collection).typeOf =
            [.ok .float, .ok .float] ∧
          (middle.afterCalls collection).varNames = ["x", "y"]) = true := by decide +kernel
  obtain ⟨stages, middle, ran, passed⟩ := exists_of_succeedsWith checked
  obtain ⟨keys, types, names⟩ := of_decide_eq_true passed
  have exprs : ∀ name expr, stages.vertex.outputs.get? name = some expr →
      (∃ type, (middle.afterCalls collection).typeOf expr = .ok type) ∧
        (middle.afterCalls collection).Avoids AttributeName expr ∧
        (middle.afterCalls collection).Avoids UniformName expr := by
    intro name expr output
    have isValue : expr ∈ stages.vertex.outputs.values :=
      List.mem_map_of_mem (Table.get?_eq_some_iff.mp output)
    have typed := List.mem_map_of_mem (f := (middle.afterCalls collection).typeOf) isValue
    rw [types] at typed
    refine ⟨⟨.float, by simpa using typed⟩, Pool.avoids_of_varNames ?_ expr,
      Pool.avoids_of_varNames ?_ expr⟩
    · rw [names]
      decide
    · rw [names]
      decide
  exact ⟨stages, middle, ran, keys, Stages.bind_preserves_meaning reachable ran rfl exprs⟩

end Shading
