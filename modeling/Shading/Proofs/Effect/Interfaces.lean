import Shading.Proofs.Effect.Filling
import Shading.Proofs.Effect.Meaning
import Shading.Proofs.Pool.Search

/-!
# Interfaces of stages

The stages of an effect declare what they use. Every varying of the fragment stage is an output of
the vertex stage, what both stages declare they declare alike, and exactly what is supplied from
outside is bound (`Stages.Agree`). Most of this can be read off the outlines. The types of bindings
come from the tables of names, whose entries are bound to what is inside the expressions that they
name.
-/

namespace Shading

variable {pool after : Pool} {tree : Tree} {kind : Qualifier} {type : ValueType} {used : String}

/-! ### Declared variables -/

/-- Fewer trees have fewer declarations. -/
theorem declarations_subset {small large : List Tree} (within : small ⊆ large)
    (name : Tree → String) : declarations name small ⊆ declarations name large :=
  List.map_subset _ within

section Names

variable {nameOf : Nat → String} {trees all : List Tree}

/-- Distinct trees are declared under distinct names. -/
theorem nodup_names_declarations (distinct : trees.Nodup) (within : trees ⊆ all)
    (injective : ∀ {first second}, nameOf first = nameOf second → first = second) :
    ((declarations (nameIn nameOf all) trees).map Interface.name).Nodup := by
  rw [names_declarations]
  exact distinct.map_on fun _ isFirst _ _ => eq_of_nameIn_eq injective (within isFirst)

/-- Declarations of one name are the same. -/
theorem eq_of_name_eq {declared other : Interface}
    (injective : ∀ {first second}, nameOf first = nameOf second → first = second)
    (isDeclared : declared ∈ declarations (nameIn nameOf all) all)
    (isOther : other ∈ declarations (nameIn nameOf all) all) (same : declared.name = other.name) :
    declared = other := by
  obtain ⟨tree, isTree, rfl⟩ := List.mem_map.mp isDeclared
  obtain ⟨otherTree, -, rfl⟩ := List.mem_map.mp isOther
  rw [eq_of_nameIn_eq injective isTree same]

/-- Every number below the length of the list is the number of a declaration. -/
theorem exists_declaration (distinct : trees.Nodup)
    {number : Nat} (inside : number < trees.length) :
    ∃ declared ∈ declarations (nameIn nameOf trees) trees, declared.name = nameOf number := by
  have isName : nameOf number ∈ (declarations (nameIn nameOf trees) trees).map Interface.name := by
    rw [names_declarations, map_nameIn distinct]
    exact List.mem_map_of_mem (List.mem_range.mpr inside)
  exact List.mem_map.mp isName

end Names

namespace Tree

/-- A variable of what is left was there before or is declared. -/
theorem var_mem_subtrees_extract {name : Tree → String} {targets : List Tree}
    (member : var type used ∈ (tree.extract targets (targets.map name)).subtrees) :
    var type used ∈ tree.subtrees ∨ ⟨used, type⟩ ∈ declarations name targets := by
  induction targets generalizing tree with
  | nil => exact Or.inl member
  | cons target targets ih =>
      rcases ih member with old | later
      · rcases leaf_mem_subtrees_substitute rfl old with isNew | older
        · cases List.mem_singleton.mp isNew
          exact Or.inr List.mem_cons_self
        · exact Or.inl older
      · exact Or.inr (List.mem_cons_of_mem _ later)

/-- Taking out the listed trees under names that count up gives each the name of its place. -/
theorem withoutAll_eq (tree : Tree) (kind : Qualifier) (nameOf : Nat → String) :
    tree.withoutAll kind nameOf = tree.extract (tree.listed kind)
      ((tree.listed kind).map (nameIn nameOf (tree.listed kind))) := by
  rw [withoutAll, map_nameIn (nodup_listed tree kind)]

/-- Taking out qualified trees keeps the type. -/
theorem type?_extract_listed (typed : tree.type?.isSome) (kind : Qualifier)
    (names : List String) : (tree.extract (tree.listed kind) names).type? = tree.type? := by
  refine type?_extract (fun target isTarget => ?_) names tree
  exact isSome_type?_of_mem_subtrees typed (mem_listed.mp isTarget).1

/-- What is inside a listed tree is a subtree. -/
theorem inner_mem_subtrees_of_mem_listed {small : Tree} (member : small ∈ tree.listed kind) :
    small.inner ∈ tree.subtrees := by
  obtain ⟨inside, isQualified⟩ := mem_listed.mp member
  obtain ⟨inner, rfl⟩ := eq_qualified_of_qualifier? isQualified
  exact mem_subtrees_trans (inner_mem_subtrees kind inner) inside

end Tree

namespace Roster

variable {roster : Roster}

/-- A bound vertex output has the type that it had before. -/
theorem type?_bound (roster : Roster) (typed : tree.type?.isSome) :
    (roster.bound tree).type? = tree.type? := by
  have unwrapped := tree.type?_unwrap .fragment
  have plain : (roster.plain tree).type? = (tree.unwrap .fragment).type? :=
    Tree.type?_extract_listed (unwrapped ▸ typed) .attr _
  have same := plain.trans unwrapped
  exact (Tree.type?_extract_listed (same ▸ typed) .uniform _).trans same

/-- A variable of a bound vertex output was there before or is declared. -/
theorem var_mem_subtrees_bound (lists : roster.Lists tree)
    (member : .var type used ∈ (roster.bound tree).subtrees) :
    .var type used ∈ tree.subtrees ∨
      ⟨used, type⟩ ∈ declarations roster.nameAttribute roster.attributes.eraseDups ++
        declarations roster.nameUniform roster.vertexUniforms.eraseDups := by
  rcases Tree.var_mem_subtrees_extract member with old | isUniform
  · rcases Tree.var_mem_subtrees_extract old with older | isAttribute
    · exact Or.inl (Tree.leaf_mem_subtrees_unwrap rfl older)
    · refine Or.inr (List.mem_append_left _ (declarations_subset ?_ _ isAttribute))
      exact fun small isListed => List.mem_eraseDups.mpr (lists.attributes small isListed)
  · refine Or.inr (List.mem_append_right _ (declarations_subset ?_ _ isUniform))
    exact fun small isListed => List.mem_eraseDups.mpr (lists.uniforms small isListed)

/-- Everything on the roster is qualified. -/
structure Qualified (roster : Roster) : Prop where
  attributes : ∀ tree ∈ roster.attributes, tree.qualifier? = some .attr
  uniforms : ∀ tree ∈ roster.fragmentUniforms ++ roster.vertexUniforms,
    tree.qualifier? = some .uniform

/-- A roster stays one of qualified trees when a vertex output is met. -/
theorem Qualified.meet (qualified : roster.Qualified) (tree : Tree) :
    (roster.meet tree).Qualified where
  attributes small member := by
    rcases List.mem_append.mp member with old | new
    · exact qualified.attributes small old
    · exact Tree.qualifier?_of_mem_listed new
  uniforms small member := by
    rw [← List.mem_eraseDups] at member
    change small ∈ (addUniforms (addAttributes roster _) _).uniforms at member
    rw [uniforms_addUniforms, List.mem_eraseDups] at member
    rcases List.mem_append.mp member with old | new
    · exact qualified.uniforms small old
    · exact Tree.qualifier?_of_mem_listed new

/-- A roster stays one of qualified trees when vertex outputs are met. -/
theorem Qualified.meetAll (qualified : roster.Qualified) (trees : List Tree) :
    (roster.meetAll trees).Qualified := by
  induction trees generalizing roster with
  | nil => exact qualified
  | cons tree trees ih => exact ih (qualified.meet tree)

end Roster

/-! ### Outlines -/

namespace EffectTrees

variable (trees : EffectTrees) (reserved : Glsl.ReservedNames)

/-- Everything on the roster of an effect is qualified. -/
theorem qualified_roster : (trees.roster reserved).Qualified := by
  refine Roster.Qualified.meetAll ⟨fun _ => (absurd · List.not_mem_nil), fun tree member => ?_⟩ _
  rw [List.append_nil] at member
  exact Tree.qualifier?_of_mem_listed member

/-- The fragment stage and the roster name the uniforms of the fragment stage alike. -/
theorem uniforms_fragmentOutline :
    (trees.fragmentOutline reserved).uniforms =
      declarations (trees.roster reserved).nameUniform trees.fragmentUniforms := by
  have distinct : trees.fragmentUniforms.Nodup := Tree.nodup_listed _ _
  refine declarations_congr fun tree member => ?_
  rw [roster, (Roster.Within.meetAll _ _).nameUniform_eq (List.mem_append_left _ member),
    Roster.nameUniform, Roster.uniforms, List.append_nil, distinct.eraseDups_eq]

/-- The uniforms on the roster are those of both stages. -/
theorem mem_declarations_uniforms {declared : Interface} :
    declared ∈ declarations (trees.roster reserved).nameUniform (trees.roster reserved).uniforms ↔
      declared ∈ (trees.vertexOutline reserved).uniforms ∨
        declared ∈ (trees.fragmentOutline reserved).uniforms := by
  have sameFragment : (trees.roster reserved).fragmentUniforms = trees.fragmentUniforms :=
    (Roster.Within.meetAll _ _).fragmentUniforms
  rw [uniforms_fragmentOutline]
  simp only [vertexOutline, declarations, List.mem_map, Roster.uniforms, List.mem_eraseDups,
    sameFragment, List.mem_append, or_and_right, exists_or]
  exact or_comm

/-- Every varying has a name of its own. -/
theorem nodup_names_varyings :
    ((trees.varyings.map fun tree =>
      (nameIn varyingName trees.varyings tree, tree.inner)).map Prod.fst).Nodup := by
  have distinct : trees.varyings.Nodup := Tree.nodup_listed _ _
  rw [List.map_map]
  exact distinct.map_on fun _ isFirst _ _ => eq_of_nameIn_eq varyingName_injective isFirst

variable {trees reserved} {name : String}

/-- A vertex output is the position or a part of the color. -/
theorem eq_of_vertexOutputs (isOutput : (trees.vertexOutputs reserved).get? name = some tree) :
    tree = trees.position ∨ tree ∈ trees.color.subtrees := by
  rw [vertexOutputs, Table.get?_insert] at isOutput
  split at isOutput
  next =>
    cases isOutput
    exact Or.inl rfl
  next =>
    obtain ⟨varying, isVarying, isEntry⟩ := List.mem_map.mp
      ((Table.get?_ofList_eq_some_iff trees.nodup_names_varyings).mp isOutput)
    cases isEntry
    exact Or.inr (Tree.inner_mem_subtrees_of_mem_listed isVarying)

/-- A varying is a vertex output unless the position has its name. -/
theorem vertexOutputs_varying {varying : Tree} (member : varying ∈ trees.varyings)
    (different : nameIn varyingName trees.varyings varying ≠ reserved.position) :
    (trees.vertexOutputs reserved).get? (nameIn varyingName trees.varyings varying) =
      some varying.inner := by
  rw [vertexOutputs, Table.get?_insert_of_ne _ _ different,
    Table.get?_ofList_eq_some_iff trees.nodup_names_varyings]
  exact List.mem_map_of_mem member

/-- The outputs of the vertex stage are bound under the names of the roster. -/
theorem exists_of_vertexOutline
    (isOutput : (trees.vertexOutline reserved).outputs.get? name = some tree) :
    ∃ original, (trees.roster reserved).Lists original ∧
      tree = (trees.roster reserved).bound original ∧
      (original = trees.position ∨ original ∈ trees.color.subtrees) := by
  rw [vertexOutline, Table.get?_map] at isOutput
  obtain ⟨original, isOriginal, rfl⟩ := Option.map_eq_some_iff.mp isOutput
  have isValue : original ∈ (trees.vertexOutputs reserved).values :=
    List.mem_map_of_mem (Table.get?_eq_some_iff.mp isOriginal)
  exact ⟨original, Roster.lists_meetAll _ isValue, rfl, eq_of_vertexOutputs isOriginal⟩

/-- The only output of the fragment stage is what is left of the color. -/
theorem eq_of_fragmentOutline
    (isOutput : (trees.fragmentOutline reserved).outputs.get? name = some tree) :
    tree = trees.color.withoutVaryings.withoutUniforms := by
  rw [fragmentOutline, Table.get?_insert] at isOutput
  split at isOutput
  next =>
    cases isOutput
    rfl
  next =>
    rw [Table.get?_empty] at isOutput
    cases isOutput

/-- The outline of a stage. -/
def outline (trees : EffectTrees) (reserved : Glsl.ReservedNames) : Stage → Outline
  | .vertex => trees.vertexOutline reserved
  | .fragment => trees.fragmentOutline reserved

/-- No stage declares two inputs under one name. -/
theorem nodup_names_inputs (trees : EffectTrees) (reserved : Glsl.ReservedNames) (stage : Stage) :
    ((trees.outline reserved stage).inputs.map Interface.name).Nodup := by
  cases stage with
  | vertex =>
      exact nodup_names_declarations (List.nodup_eraseDups _) (List.Subset.refl _)
        attributeName_injective
  | fragment =>
      exact nodup_names_declarations (Tree.nodup_listed _ _) (List.Subset.refl _)
        varyingName_injective

/-- No stage declares two uniforms under one name. -/
theorem nodup_names_uniforms (trees : EffectTrees) (reserved : Glsl.ReservedNames)
    (stage : Stage) : ((trees.outline reserved stage).uniforms.map Interface.name).Nodup := by
  cases stage with
  | vertex =>
      refine nodup_names_declarations (List.nodup_eraseDups _) ?_ uniformName_injective
      intro tree member
      exact List.mem_eraseDups.mpr (List.mem_append_right _ (List.mem_eraseDups.mp member))
  | fragment =>
      exact nodup_names_declarations (Tree.nodup_listed _ _) (List.Subset.refl _)
        uniformName_injective

/-- Variables of a vertex output are those of the effect and the declared ones. -/
theorem var_mem_vertexOutline
    (isOutput : (trees.vertexOutline reserved).outputs.get? name = some tree)
    (member : .var type used ∈ tree.subtrees) :
    (.var type used ∈ trees.position.subtrees ∨ .var type used ∈ trees.color.subtrees) ∨
      ⟨used, type⟩ ∈
        (trees.vertexOutline reserved).inputs ++ (trees.vertexOutline reserved).uniforms := by
  obtain ⟨original, lists, rfl, origin⟩ := exists_of_vertexOutline isOutput
  rcases Roster.var_mem_subtrees_bound lists member with old | declared
  · rcases origin with rfl | inside
    · exact Or.inl (Or.inl old)
    · exact Or.inl (Or.inr (Tree.mem_subtrees_trans old inside))
  · exact Or.inr declared

/-- A variable of the fragment stage is one of the color or is declared. -/
theorem var_mem_fragmentOutline
    (isOutput : (trees.fragmentOutline reserved).outputs.get? name = some tree)
    (member : .var type used ∈ tree.subtrees) :
    .var type used ∈ trees.color.subtrees ∨ ⟨used, type⟩ ∈
      (trees.fragmentOutline reserved).inputs ++ (trees.fragmentOutline reserved).uniforms := by
  rw [eq_of_fragmentOutline isOutput, Tree.withoutUniforms, Tree.withoutAll_eq] at member
  rcases Tree.var_mem_subtrees_extract member with old | isUniform
  · rw [Tree.withoutVaryings, Tree.withoutAll_eq] at old
    rcases Tree.var_mem_subtrees_extract old with older | isVarying
    · exact Or.inl older
    · exact Or.inr (List.mem_append_left _ isVarying)
  · exact Or.inr (List.mem_append_right _ isUniform)

/-- Variables of an output are those of the effect and the declared ones. -/
theorem var_mem_outline {stage : Stage}
    (isOutput : (trees.outline reserved stage).outputs.get? name = some tree)
    (member : .var type used ∈ tree.subtrees) :
    (.var type used ∈ trees.position.subtrees ∨ .var type used ∈ trees.color.subtrees) ∨
      ⟨used, type⟩ ∈
        (trees.outline reserved stage).inputs ++ (trees.outline reserved stage).uniforms := by
  cases stage with
  | vertex => exact var_mem_vertexOutline isOutput member
  | fragment => exact (var_mem_fragmentOutline isOutput member).imp_left Or.inr

end EffectTrees

/-! ### Bindings -/

/-- What is supplied to the stages from outside. -/
def Stages.supplied (stages : Stages) : List Interface :=
  stages.vertex.inputs ++ stages.vertex.uniforms ++ stages.fragment.uniforms

/-- A declaration is bound to an expression of its type. -/
def Stages.Binds (stages : Stages) (pool : Pool) (declared : Interface) : Prop :=
  ∃ inner, stages.bindings.get? declared.name = some inner ∧
    pool.typeOf inner = .ok declared.type

namespace VertexBinding

/-- The name of a qualified tree is bound to what is inside. -/
theorem binds_of_numbers {stages : Stages} {nameOf : Nat → String}
    {names : Table NodeId String} {trees : List Tree} (wf : pool.WellFormed)
    (named : Names pool stages.bindings nameOf names)
    (numbers : pool.Numbers nameOf names trees) (member : tree ∈ trees)
    (isQualified : tree.qualifier? = some kind) :
    stages.Binds pool (tree.declaration (nameIn nameOf trees tree)) := by
  obtain ⟨id, unfolded⟩ := numbers.present tree member
  obtain ⟨-, -, bound⟩ := named id _ (numbers.get?_of_mem unfolded member)
  obtain ⟨innerTree, rfl⟩ := Tree.eq_qualified_of_qualifier? isQualified
  obtain ⟨inner, found, innerUnfolded⟩ := wf.exists_inner unfolded
  obtain ⟨type, typeEq, typed⟩ := wf.exists_type? innerUnfolded
  rw [Tree.declaration_eq (show (Tree.qualified kind innerTree).type? = some type from typeEq)]
  exact ⟨inner, bound kind inner found, Pool.typeOf_eq_ok_iff.mpr typed⟩

variable {binding : VertexBinding} {trees : EffectTrees} {reserved : Glsl.ReservedNames}

/-- What is supplied are the attributes and the uniforms of the roster. -/
theorem Follows.mem_supplied_iff (follows : binding.Follows (trees.roster reserved))
    (fragment : pool.Fills binding.stages.fragment (trees.fragmentOutline reserved))
    {declared : Interface} :
    declared ∈ binding.stages.supplied ↔
      declared ∈ declarations (trees.roster reserved).nameAttribute
          (trees.roster reserved).attributes.eraseDups ∨
        declared ∈ declarations (trees.roster reserved).nameUniform
          (trees.roster reserved).uniforms := by
  rw [Stages.supplied, follows.inputs, follows.vertexUniforms, fragment.uniforms,
    List.mem_append, List.mem_append, or_assoc, trees.mem_declarations_uniforms]
  rfl

/-- Everything that is supplied is bound to an expression of its type. -/
theorem Follows.binds_of_mem_supplied (follows : binding.Follows (trees.roster reserved))
    (fragment : pool.Fills binding.stages.fragment (trees.fragmentOutline reserved))
    {declared : Interface} (member : declared ∈ binding.stages.supplied) :
    binding.stages.Binds binding.pool declared := by
  have wf := follows.sound.wellFormed
  have qualified := trees.qualified_roster reserved
  rcases (follows.mem_supplied_iff fragment).mp member with isAttribute | isUniform
  · obtain ⟨tree, isTree, rfl⟩ := List.mem_map.mp isAttribute
    exact binds_of_numbers wf follows.sound.attributes follows.attributes isTree
      (qualified.attributes tree (List.mem_eraseDups.mp isTree))
  · obtain ⟨tree, isTree, rfl⟩ := List.mem_map.mp isUniform
    exact binds_of_numbers wf follows.sound.uniforms follows.uniforms isTree
      (qualified.uniforms tree (List.mem_eraseDups.mp isTree))

/-- Nothing else is bound. -/
theorem Follows.mem_supplied_of_bound (follows : binding.Follows (trees.roster reserved))
    (fragment : pool.Fills binding.stages.fragment (trees.fragmentOutline reserved))
    {name : String} {inner : NodeId} (bound : binding.stages.bindings.get? name = some inner) :
    ∃ declared ∈ binding.stages.supplied, declared.name = name := by
  rcases follows.sound.bound name inner bound with ⟨number, inside, rfl⟩ | ⟨number, inside, rfl⟩
  · rw [follows.attributes.size] at inside
    obtain ⟨declared, member, isName⟩ := exists_declaration (List.nodup_eraseDups _) inside
    exact ⟨declared, (follows.mem_supplied_iff fragment).mpr (Or.inl member), isName⟩
  · rw [follows.uniforms.size] at inside
    obtain ⟨declared, member, isName⟩ := exists_declaration (List.nodup_eraseDups _) inside
    exact ⟨declared, (follows.mem_supplied_iff fragment).mpr (Or.inr member), isName⟩

end VertexBinding

/-! ### Agreement -/

/-- The interfaces of the stages of an effect agree with each other, with what is bound and with
the effect. The effect is in the one pool and the stages are in the other. -/
structure Stages.Agree (stages : Stages) (effect : Effect) (before after : Pool) : Prop where
  /-- There is one varying for each expression of the color that is qualified as `fragment`. -/
  varyings : ∃ ids : List NodeId, ids.Nodup ∧
    (∀ id, id ∈ ids ↔ before.Below effect.color id ∧
      ∃ inner, before.node? id = some (.qualified .fragment inner)) ∧
    List.Forall₂ (fun id input => before.typeOf id = .ok input.type) ids stages.fragment.inputs
  /-- A varying is an output of the vertex stage. -/
  handedOver : ∀ input ∈ stages.fragment.inputs, ∃ output,
    stages.vertex.outputs.get? input.name = some output ∧ after.typeOf output = .ok input.type
  distinctInputs : ∀ stage, ((stages.program stage).inputs.map Interface.name).Nodup
  distinctUniforms : ∀ stage, ((stages.program stage).uniforms.map Interface.name).Nodup
  /-- A uniform of both stages has one type. -/
  shared : ∀ uniform ∈ stages.vertex.uniforms, ∀ other ∈ stages.fragment.uniforms,
    uniform.name = other.name → uniform.type = other.type
  /-- What is bound is what is supplied. -/
  bound : ∀ name, (∃ inner, stages.bindings.get? name = some inner) ↔
    ∃ declared ∈ stages.supplied, declared.name = name
  /-- What is bound has the type under which it is declared. -/
  typed : ∀ declared ∈ stages.supplied, ∀ inner,
    stages.bindings.get? declared.name = some inner → after.typeOf inner = .ok declared.type
  /-- Variables of the outputs are those of the effect and the declared ones. -/
  accounted : ∀ stage name output id type used,
    (stages.program stage).outputs.get? name = some output → after.Below output id →
      after.node? id = some (.var type used) →
        (before.Below effect.position id ∨ before.Below effect.color id) ∨
          ⟨used, type⟩ ∈ (stages.program stage).inputs ++ (stages.program stage).uniforms

namespace Pool

variable {root id : NodeId} {effect : Effect} {trees : EffectTrees} {program : Program}
  {outline : Outline} {reserved : Glsl.ReservedNames}

/-- A variable below an output of a stage is below the effect or declared. -/
theorem Fills.var_below {stage : Stage}
    (fills : after.Fills program (trees.outline reserved stage)) (wf : pool.WellFormed)
    (wfAfter : after.WellFormed) (grows : pool.Grows after)
    (depicts : pool.Depicts effect trees) {name : String} {output : NodeId}
    (isOutput : program.outputs.get? name = some output) (below : after.Below output id)
    (isVar : after.node? id = some (.var type used)) :
    (pool.Below effect.position id ∨ pool.Below effect.color id) ∨
      ⟨used, type⟩ ∈ program.inputs ++ program.uniforms := by
  obtain ⟨tree, isTree, unfolded⟩ := fills.outputs.exists_image isOutput
  obtain ⟨small, inside, smallTree⟩ := wfAfter.tree?_of_below unfolded below
  have varTree := wfAfter.node?_var_iff.mp isVar
  rw [varTree] at smallTree
  cases smallTree
  -- A variable of the trees of the effect is the node that it was.
  have inPool : ∀ root tree, pool.tree? root = some tree → .var type used ∈ tree.subtrees →
      pool.Below root id := by
    intro root tree rootTree member
    obtain ⟨found, foundBelow, foundTree⟩ := wf.exists_below rootTree member
    rwa [wfAfter.tree?_injective varTree (grows.tree?_eq wf wfAfter foundTree)]
  rw [fills.inputs, fills.uniforms]
  refine (EffectTrees.var_mem_outline isTree inside).imp_left (Or.imp ?_ ?_)
  · exact inPool _ _ depicts.position
  · exact inPool _ _ depicts.color

/-- The varyings have the types of the expressions that are handed over. -/
theorem Fills.varyings_typed
    (fills : after.Fills program (trees.fragmentOutline reserved)) (wf : pool.WellFormed)
    {ids : List NodeId} (unfolds : pool.Unfolds ids trees.varyings) :
    List.Forall₂ (fun id input => pool.typeOf id = .ok input.type) ids program.inputs := by
  rw [fills.inputs, EffectTrees.fragmentOutline, declarations, List.forall₂_map_right_iff]
  refine unfolds.imp fun id tree unfolded => ?_
  obtain ⟨type, typeEq, typed⟩ := wf.exists_type? unfolded
  rw [Tree.declaration_eq typeEq]
  exact typeOf_eq_ok_iff.mpr typed

/-- What a varying stands for is written by the vertex stage. -/
theorem Fills.handedOver
    (fills : after.Fills program (trees.vertexOutline reserved)) (wf : after.WellFormed)
    (typed : trees.color.type?.isSome)
    (apart : ∀ number < trees.varyings.length, reserved.position ≠ varyingName number)
    {input : Interface} (member : input ∈ (trees.fragmentOutline reserved).inputs) :
    ∃ output, program.outputs.get? input.name = some output ∧
      after.typeOf output = .ok input.type := by
  obtain ⟨varying, isVarying, rfl⟩ := List.mem_map.mp member
  have different : nameIn varyingName trees.varyings varying ≠ reserved.position :=
    (apart _ (List.idxOf_lt_length_of_mem isVarying)).symm
  obtain ⟨output, isOutput, outputTree⟩ := fills.outputs.exists_value <| show
      (trees.vertexOutline reserved).outputs.get? (nameIn varyingName trees.varyings varying) =
        some ((trees.roster reserved).bound varying.inner) by
    rw [EffectTrees.vertexOutline, Table.get?_map,
      EffectTrees.vertexOutputs_varying isVarying different]
    rfl
  refine ⟨output, isOutput, typeOf_eq_ok_iff.mpr ?_⟩
  have innerTyped := Tree.isSome_type?_of_mem_subtrees typed
    (Tree.inner_mem_subtrees_of_mem_listed isVarying)
  obtain ⟨type, typeEq⟩ := Option.isSome_iff_exists.mp innerTyped
  obtain ⟨inner, rfl⟩ := Tree.eq_qualified_of_qualifier? (Tree.qualifier?_of_mem_listed isVarying)
  rw [wf.type?_of_tree? outputTree, Roster.type?_bound _ innerTyped, typeEq,
    Tree.declaration_eq (show (Tree.qualified .fragment inner).type? = some type from typeEq)]

end Pool

/-- Stages that fill the outlines of an effect agree. -/
theorem VertexBinding.Follows.agree {binding : VertexBinding} {effect : Effect}
    {trees : EffectTrees} {reserved : Glsl.ReservedNames}
    (follows : binding.Follows (trees.roster reserved))
    (vertex : binding.pool.Fills binding.stages.vertex (trees.vertexOutline reserved))
    (fragment : binding.pool.Fills binding.stages.fragment (trees.fragmentOutline reserved))
    (wf : pool.WellFormed) (grows : pool.Grows binding.pool) (depicts : pool.Depicts effect trees)
    (apart : ∀ number < trees.varyings.length, reserved.position ≠ varyingName number) :
    binding.stages.Agree effect pool binding.pool := by
  have wfAfter := follows.sound.wellFormed
  have fills : ∀ stage, binding.pool.Fills (binding.stages.program stage)
      (trees.outline reserved stage)
    | .vertex => vertex
    | .fragment => fragment
  constructor
  case varyings =>
    obtain ⟨ids, collected, unfolds⟩ := wf.qualifiedAs_spec depicts.color .fragment
    obtain ⟨-, distinct, -⟩ := wf.of_qualifiedAs collected
    exact ⟨ids, distinct, fun id => wf.mem_qualifiedAs_iff collected,
      fragment.varyings_typed wf unfolds⟩
  case handedOver =>
    rw [fragment.inputs]
    exact fun input => vertex.handedOver wfAfter (wf.isSome_type? depicts.color) apart
  case distinctInputs =>
    intro stage
    rw [(fills stage).inputs]
    exact trees.nodup_names_inputs reserved stage
  case distinctUniforms =>
    intro stage
    rw [(fills stage).uniforms]
    exact trees.nodup_names_uniforms reserved stage
  case shared =>
    intro uniform isUniform other isOther sameName
    rw [vertex.uniforms] at isUniform
    rw [fragment.uniforms] at isOther
    rw [eq_of_name_eq uniformName_injective
      ((trees.mem_declarations_uniforms reserved).mpr (Or.inl isUniform))
      ((trees.mem_declarations_uniforms reserved).mpr (Or.inr isOther)) sameName]
  case bound =>
    intro name
    constructor
    · rintro ⟨inner, isBound⟩
      exact follows.mem_supplied_of_bound fragment isBound
    · rintro ⟨declared, member, rfl⟩
      obtain ⟨inner, isBound, -⟩ := follows.binds_of_mem_supplied fragment member
      exact ⟨inner, isBound⟩
  case typed =>
    intro declared member inner isBound
    obtain ⟨same, sameBound, typed⟩ := follows.binds_of_mem_supplied fragment member
    rw [isBound] at sameBound
    cases sameBound
    exact typed
  case accounted =>
    intro stage name output id type used
    exact (fills stage).var_below wf wfAfter grows depicts

/-- An effect is split, the inputs of the vertex stage are bound, and the interfaces of both stages
agree, unless the position takes the name of a varying. -/
theorem Stages.interfaces_agree (reachable : pool.Reachable) {effect : Effect}
    {positionType colorType : ValueType}
    (position : pool.typeOf effect.position = .ok positionType)
    (color : pool.typeOf effect.color = .ok colorType) {reserved : Glsl.ReservedNames}
    (apart : ∀ varyings, pool.qualifiedAs effect.color .fragment = .ok varyings →
      ∀ number < varyings.length, reserved.position ≠ varyingName number) :
    ∃ stages middle lifted after, effect.split reserved pool = .ok stages middle ∧
      Stages.bindVertexInputs (middle, stages) = .ok () (after, lifted) ∧
      lifted.Agree effect pool after := by
  have wf := reachable.wellFormed
  obtain ⟨trees, depicts⟩ := wf.exists_depicts position color
  have apartTrees : ∀ number < trees.varyings.length,
      reserved.position ≠ varyingName number := by
    obtain ⟨ids, collected, unfolds⟩ := wf.qualifiedAs_spec depicts.color .fragment
    rw [EffectTrees.varyings, ← unfolds.length_eq]
    exact apart ids collected
  obtain ⟨stages, middle, ran, growsMiddle, binding, bound, growsAfter, follows, vertex,
    fragment⟩ := Effect.stages_fill wf depicts reserved
  exact ⟨stages, middle, binding.stages, binding.pool, ran, bound,
    follows.agree vertex fragment wf (growsMiddle.trans growsAfter) depicts apartTrees⟩

/-- The interfaces agree for an effect with attributes inside each other and a shared uniform. -/
theorem Stages.interfaces_agree_nestedAttributes :
    nestedAttributes.typeOf 7 = .ok .float ∧ nestedAttributes.typeOf 8 = .ok .float ∧
      ∃ stages middle lifted after, Effect.split ⟨7, 8⟩ {} nestedAttributes = .ok stages middle ∧
        Stages.bindVertexInputs (middle, stages) = .ok () (after, lifted) ∧
        lifted.Agree ⟨7, 8⟩ nestedAttributes after := by
  have reachable : nestedAttributes.Reachable := ⟨0, _, rfl⟩
  have position : nestedAttributes.typeOf (Effect.position ⟨7, 8⟩) = .ok .float := by
    decide +kernel
  have color : nestedAttributes.typeOf (Effect.color ⟨7, 8⟩) = .ok .float := by decide +kernel
  have apart : ∀ varyings, nestedAttributes.qualifiedAs (Effect.color ⟨7, 8⟩) .fragment =
      .ok varyings → ∀ number < varyings.length,
        Glsl.ReservedNames.position {} ≠ varyingName number := by
    intro varyings _ number _ same
    have isVarying : VaryingName "o_Position" := ⟨number, same⟩
    revert isVarying
    decide
  exact ⟨position, color, Stages.interfaces_agree reachable position color apart⟩

end Shading
