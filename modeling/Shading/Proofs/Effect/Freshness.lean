import Shading.Proofs.Effect.Interfaces

/-!
# Names of interfaces and names of the effect

Interfaces are numbered without a look at the effect, so an interface can have the name of a
variable of the effect, which then stands for something else, and a varying can have the name of the
position, which takes its place among the vertex outputs: in `v_Varying0 - fragment x` both operands
become the same variable. The interfaces of an effect have the numbers from zero up to the counts of
varyings, attributes and uniforms, so they are fresh exactly if the effect and the reserved names
use none of these (`Stages.interface_fresh_iff`). Fresh interfaces agree, and what they declare is
not in the effect.
-/

namespace Shading

variable {pool after : Pool} {effect : Effect} {trees : EffectTrees} {reserved : Glsl.ReservedNames}

/-- The names that the stages declare. -/
def Stages.interfaceNames (stages : Stages) : List String :=
  (stages.fragment.inputs ++ stages.supplied).map Interface.name

/-- A variable of the effect has the name. -/
def Effect.UsesName (effect : Effect) (pool : Pool) (name : String) : Prop :=
  ∃ id type, (pool.Below effect.position id ∨ pool.Below effect.color id) ∧
    pool.node? id = some (.var type name)

/-- The stages declare no name of a variable of the effect and no reserved name. -/
structure Stages.Fresh (stages : Stages) (effect : Effect) (reserved : Glsl.ReservedNames)
    (pool : Pool) : Prop where
  effect : ∀ name, effect.UsesName pool name → name ∉ stages.interfaceNames
  position : reserved.position ∉ stages.interfaceNames
  color : reserved.color ∉ stages.interfaceNames

/-- The variables below an output of a stage are told apart by their names: those that the stage
declares are not in the effect, and the others are. -/
def Stages.Separates (stages : Stages) (effect : Effect) (before after : Pool) : Prop :=
  ∀ stage name output id type used, (stages.program stage).outputs.get? name = some output →
    after.Below output id → after.node? id = some (.var type used) →
      (before.Below effect.position id ∨ before.Below effect.color id ↔
        used ∉ ((stages.program stage).inputs ++ (stages.program stage).uniforms).map
          Interface.name)

/-! ### Numbers of interfaces -/

/-- The declared names are those with the numbers below the number of trees. -/
theorem mem_names_declarations {nameOf : Nat → String} {trees : List Tree}
    (distinct : trees.Nodup) {name : String} :
    name ∈ (declarations (nameIn nameOf trees) trees).map Interface.name ↔
      ∃ number < trees.length, name = nameOf number := by
  rw [names_declarations, map_nameIn distinct]
  simp [eq_comm]

namespace VertexBinding

variable {binding : VertexBinding}

/-- The names of interfaces have the numbers up to the counts of varyings, attributes and
uniforms. -/
theorem Follows.mem_interfaceNames_iff (follows : binding.Follows (trees.roster reserved))
    (fragment : pool.Fills binding.stages.fragment (trees.fragmentOutline reserved))
    {name : String} :
    name ∈ binding.stages.interfaceNames ↔
      (∃ number < trees.varyings.length, name = varyingName number) ∨
        (∃ number < binding.stages.vertex.inputs.length, name = attributeName number) ∨
        ∃ number < binding.stages.uniformNames.size, name = uniformName number := by
  have distinctVaryings : trees.varyings.Nodup := Tree.nodup_listed _ _
  have attributeCount : binding.stages.vertex.inputs.length =
      (trees.roster reserved).attributes.eraseDups.length := by
    rw [follows.inputs, declarations, List.length_map]
  rw [attributeCount, follows.uniforms.size, ← mem_names_declarations distinctVaryings,
    ← mem_names_declarations (List.nodup_eraseDups _),
    ← mem_names_declarations (show (trees.roster reserved).uniforms.Nodup from
      List.nodup_eraseDups _), Stages.interfaceNames, List.map_append, List.mem_append,
    fragment.inputs]
  refine or_congr Iff.rfl ?_
  simp only [List.mem_map, follows.mem_supplied_iff fragment, or_and_right, exists_or]
  rfl

/-- A name is not declared if it differs from every varying, attribute and uniform by its number. -/
theorem Follows.notMem_interfaceNames_iff (follows : binding.Follows (trees.roster reserved))
    (fragment : pool.Fills binding.stages.fragment (trees.fragmentOutline reserved))
    {name : String} :
    name ∉ binding.stages.interfaceNames ↔
      (∀ number < trees.varyings.length, name ≠ varyingName number) ∧
        (∀ number < binding.stages.vertex.inputs.length, name ≠ attributeName number) ∧
        ∀ number < binding.stages.uniformNames.size, name ≠ uniformName number := by
  rw [follows.mem_interfaceNames_iff fragment]
  simp

end VertexBinding

/-- Every varying keeps its place among the vertex outputs exactly if the position does not have its
name. -/
theorem Pool.Fills.size_outputs_iff {program : Program}
    (fills : pool.Fills program (trees.vertexOutline reserved)) :
    program.outputs.size = trees.varyings.length + 1 ↔
      ∀ number < trees.varyings.length, reserved.position ≠ varyingName number := by
  have distinct : trees.varyings.Nodup := Tree.nodup_listed _ _
  let entries := trees.varyings.map fun tree =>
    (nameIn varyingName trees.varyings tree, tree.inner)
  have names : entries.map Prod.fst = (List.range trees.varyings.length).map varyingName := by
    rw [← map_nameIn distinct, List.map_map]
    rfl
  have sizeHanded : (Table.ofList entries).size = trees.varyings.length := by
    rw [Table.size_ofList trees.nodup_names_varyings, List.length_map]
  have sizeOutputs : program.outputs.size =
      ((Table.ofList entries).insert reserved.position trees.position).size :=
    fills.outputs.size_eq.trans (List.length_map _)
  have isEntry : ∀ value, (Table.ofList entries).get? reserved.position = some value ↔
      (reserved.position, value) ∈ entries := fun value =>
    Table.get?_ofList_eq_some_iff trees.nodup_names_varyings
  cases found : (Table.ofList entries).get? reserved.position with
  | none =>
      rw [sizeOutputs, Table.size_insert_of_new found, sizeHanded]
      refine iff_of_true rfl fun number inside same => ?_
      have isName : reserved.position ∈ entries.map Prod.fst := by
        rw [names, same]
        exact List.mem_map_of_mem (List.mem_range.mpr inside)
      obtain ⟨⟨name, value⟩, member, rfl⟩ := List.mem_map.mp isName
      rw [(isEntry value).mpr member] at found
      cases found
  | some value =>
      rw [sizeOutputs, Table.size_insert_of_found found, sizeHanded]
      refine iff_of_false (by omega) fun different => ?_
      have isName : reserved.position ∈ entries.map Prod.fst :=
        List.mem_map.mpr ⟨_, (isEntry value).mp found, rfl⟩
      rw [names] at isName
      obtain ⟨number, inside, same⟩ := List.mem_map.mp isName
      exact different number (List.mem_range.mp inside) same.symm

/-! ### Freshness -/

namespace Stages

variable {stages : Stages} {name : String}

/-- The names that one stage declares are among those of both. -/
theorem mem_interfaceNames_of_program {stage : Stage}
    (member : name ∈ ((stages.program stage).inputs ++ (stages.program stage).uniforms).map
      Interface.name) : name ∈ stages.interfaceNames := by
  obtain ⟨declared, isDeclared, rfl⟩ := List.mem_map.mp member
  apply List.mem_map_of_mem
  cases stage with
  | vertex =>
      refine List.mem_append_right _ (List.mem_append_left _ ?_)
      exact isDeclared
  | fragment =>
      rcases List.mem_append.mp isDeclared with isInput | isUniform
      · exact List.mem_append_left _ isInput
      · exact List.mem_append_right _ (List.mem_append_right _ isUniform)

/-- The stages are fresh if no name in use and no reserved name is declared. -/
theorem fresh_iff : stages.Fresh effect reserved pool ↔
    ∀ name, effect.UsesName pool name ∨ name = reserved.position ∨ name = reserved.color →
      name ∉ stages.interfaceNames := by
  constructor
  · rintro fresh name (isUsed | rfl | rfl)
    · exact fresh.effect name isUsed
    · exact fresh.position
    · exact fresh.color
  · intro absent
    exact ⟨fun name isUsed => absent name (Or.inl isUsed), absent _ (Or.inr (Or.inl rfl)),
      absent _ (Or.inr (Or.inr rfl))⟩

/-- What the stages declare is told from the variables of the effect by its name. -/
theorem Fresh.separates (fresh : stages.Fresh effect reserved pool)
    (agree : stages.Agree effect pool after) (depicts : pool.Depicts effect trees)
    (wf : pool.WellFormed) (wfAfter : after.WellFormed) (grows : pool.Grows after) :
    stages.Separates effect pool after := by
  intro stage name output id type used isOutput below isVar
  -- A node of the effect is the same node when the pool has grown.
  have sameNode : ∀ root tree, pool.tree? root = some tree → pool.Below root id →
      pool.node? id = some (.var type used) := by
    intro root tree unfolded idBelow
    obtain ⟨small, -, smallTree⟩ := wf.tree?_of_below unfolded idBelow
    have later := grows.tree?_eq wf wfAfter smallTree
    rw [wfAfter.node?_var_iff.mp isVar, Option.some.injEq] at later
    exact wf.node?_var_iff.mpr (later ▸ smallTree)
  constructor
  · intro inEffect declared
    have isUsed : pool.node? id = some (.var type used) := by
      rcases inEffect with inPosition | inColor
      · exact sameNode _ _ depicts.position inPosition
      · exact sameNode _ _ depicts.color inColor
    exact fresh.effect used ⟨id, type, inEffect, isUsed⟩ (mem_interfaceNames_of_program declared)
  · intro undeclared
    refine (agree.accounted stage name output id type used isOutput below isVar).resolve_right ?_
    exact fun declared => undeclared (List.mem_map_of_mem declared)

/-- An effect is split and the inputs of the vertex stage are bound. The interfaces are fresh
exactly if no variable of the effect and no reserved name has one of the numbers that they use, and
no varying is lost exactly if the position does not have the name of one. Fresh interfaces agree,
and what they declare is not in the effect. -/
theorem interface_fresh_iff (reachable : pool.Reachable) {positionType colorType : ValueType}
    (position : pool.typeOf effect.position = .ok positionType)
    (color : pool.typeOf effect.color = .ok colorType) (reserved : Glsl.ReservedNames) :
    ∃ fragments stages middle lifted after,
      pool.qualifiedAs effect.color .fragment = .ok fragments ∧
      effect.split reserved pool = .ok stages middle ∧
      Stages.bindVertexInputs (middle, stages) = .ok () (after, lifted) ∧
      (lifted.Fresh effect reserved pool ↔
        ∀ name, effect.UsesName pool name ∨ name = reserved.position ∨ name = reserved.color →
          (∀ number < fragments.length, name ≠ varyingName number) ∧
          (∀ number < lifted.vertex.inputs.length, name ≠ attributeName number) ∧
          ∀ number < lifted.uniformNames.size, name ≠ uniformName number) ∧
      (lifted.vertex.outputs.size = fragments.length + 1 ↔
        ∀ number < fragments.length, reserved.position ≠ varyingName number) ∧
      (lifted.Fresh effect reserved pool →
        lifted.Agree effect pool after ∧ lifted.Separates effect pool after) := by
  have wf := reachable.wellFormed
  obtain ⟨trees, depicts⟩ := wf.exists_depicts position color
  obtain ⟨fragments, collected, unfolds⟩ := wf.qualifiedAs_spec depicts.color .fragment
  have count : trees.varyings.length = fragments.length := unfolds.length_eq.symm
  obtain ⟨stages, middle, ran, growsMiddle, binding, bound, growsAfter, follows, vertex,
    fragment⟩ := Effect.stages_fill wf depicts reserved
  have grows := growsMiddle.trans growsAfter
  refine ⟨fragments, stages, middle, binding.stages, binding.pool, collected, ran, bound, ?_, ?_,
    fun fresh => ?_⟩
  · simp only [fresh_iff, follows.notMem_interfaceNames_iff fragment, count]
  · rw [← count]
    exact vertex.size_outputs_iff
  · have apart : ∀ number < trees.varyings.length, reserved.position ≠ varyingName number := by
      intro number inside same
      exact fresh.position
        ((follows.mem_interfaceNames_iff fragment).mpr (Or.inl ⟨number, inside, same⟩))
    have agree := follows.agree vertex fragment wf grows depicts apart
    exact ⟨agree, fresh.separates agree depicts wf follows.sound.wellFormed grows⟩

/-- A pool with a variable that is called like a varying: it is in the difference 3, and another
variable is in its place in the difference 4. -/
def namedVarying : Pool :=
  (Pool.empty 0).afterCalls
    [.var .float "v_Varying0", .var .float "x", .qualify .fragment 1, .binary 0 .sub 2,
      .binary 1 .sub 2]

/-- An effect that does not use the variable called like a varying has fresh and separate names. -/
theorem interface_fresh_iff_namedVarying :
    ∃ stages middle lifted after, Effect.split ⟨1, 4⟩ {} namedVarying = .ok stages middle ∧
      Stages.bindVertexInputs (middle, stages) = .ok () (after, lifted) ∧
      lifted.Fresh ⟨1, 4⟩ {} namedVarying ∧ lifted.vertex.outputs.size = 2 ∧
      lifted.Separates ⟨1, 4⟩ namedVarying after := by
  have reachable : namedVarying.Reachable := ⟨0, _, rfl⟩
  have wf := reachable.wellFormed
  have position : namedVarying.typeOf (Effect.position ⟨1, 4⟩) = .ok .float := by decide +kernel
  have color : namedVarying.typeOf (Effect.color ⟨1, 4⟩) = .ok .float := by decide +kernel
  have oneVarying : namedVarying.qualifiedAs (Effect.color ⟨1, 4⟩) .fragment = .ok [2] := by
    decide +kernel
  obtain ⟨fragments, stages, middle, lifted, after, collected, ran, bound, fresh, kept,
    separates⟩ := Stages.interface_fresh_iff reachable position color {}
  have onlyX : ∀ name, Effect.UsesName ⟨1, 4⟩ namedVarying name → name = "x" := by
    have names : ∀ root ∈ [1, 4], ∀ tree ∈ namedVarying.tree? root,
        ∀ entry ∈ tree.vars, entry.2 = "x" := by decide +kernel
    rintro name ⟨id, type, inPosition | inColor, found⟩
    · obtain ⟨tree, unfolded⟩ := wf.exists_tree?_of_typeOf position
      exact names 1 (by decide) tree unfolded _
        ((wf.mem_vars_iff unfolded).mpr ⟨id, inPosition, found⟩)
    · obtain ⟨tree, unfolded⟩ := wf.exists_tree?_of_typeOf color
      exact names 4 (by decide) tree unfolded _
        ((wf.mem_vars_iff unfolded).mpr ⟨id, inColor, found⟩)
  have unnumbered : ∀ name ∈ ["x", "o_Position", "o_Color"],
      ¬VaryingName name ∧ ¬AttributeName name ∧ ¬UniformName name := by decide
  have isFresh : lifted.Fresh ⟨1, 4⟩ {} namedVarying := by
    refine fresh.mpr fun name isUsed => ?_
    have listed : name ∈ ["x", "o_Position", "o_Color"] := by
      rcases isUsed with used | rfl | rfl
      · rw [onlyX name used]
        decide
      · decide
      · decide
    obtain ⟨noVarying, noAttribute, noUniform⟩ := unnumbered name listed
    exact ⟨fun number _ same => noVarying ⟨number, same⟩,
      fun number _ same => noAttribute ⟨number, same⟩,
      fun number _ same => noUniform ⟨number, same⟩⟩
  have size : lifted.vertex.outputs.size = fragments.length + 1 := by
    refine kept.mpr fun number _ same => ?_
    exact (unnumbered "o_Position" (by decide)).1 ⟨number, same⟩
  rw [oneVarying] at collected
  cases collected
  exact ⟨stages, middle, lifted, after, ran, bound, isFresh, size, (separates isFresh).2⟩

/-- A variable of the effect that is called like a varying is taken for it. -/
theorem interface_captures_variable :
    namedVarying.Reachable ∧ Effect.UsesName ⟨1, 3⟩ namedVarying "v_Varying0" ∧
      ∃ stages middle lifted after, Effect.split ⟨1, 3⟩ {} namedVarying = .ok stages middle ∧
        Stages.bindVertexInputs (middle, stages) = .ok () (after, lifted) ∧
        "v_Varying0" ∈ lifted.interfaceNames ∧
        lifted.fragment.outputs.get? "o_Color" = some 5 ∧
        after.node? 5 = some (.binary 0 .sub 0) := by
  have difference : namedVarying.node? 3 = some (.binary 0 .sub 2) := by decide +kernel
  have isVariable : namedVarying.node? 0 = some (.var .float "v_Varying0") := by decide +kernel
  have child : namedVarying.Child 3 0 := ⟨_, difference, List.mem_cons_self⟩
  have checked : succeedsWith (Effect.split ⟨1, 3⟩ {}) namedVarying
      (fun stages middle =>
        succeedsWith Stages.bindVertexInputs (middle, stages) (fun _ after =>
          "v_Varying0" ∈ after.2.interfaceNames ∧
            after.2.fragment.outputs.get? "o_Color" = some 5 ∧
            after.1.node? 5 = some (.binary 0 .sub 0)) = true) = true := by
    decide +kernel
  obtain ⟨stages, middle, ran, binds⟩ := exists_of_succeedsWith checked
  obtain ⟨⟨⟩, ⟨after, lifted⟩, bound, passed⟩ := exists_of_succeedsWith (of_decide_eq_true binds)
  obtain ⟨declared, isOutput, captured⟩ := of_decide_eq_true passed
  exact ⟨⟨0, _, rfl⟩, ⟨0, .float, Or.inr (.single child), isVariable⟩, stages, middle, lifted,
    after, ran, bound, declared, isOutput, captured⟩

end Stages

end Shading
