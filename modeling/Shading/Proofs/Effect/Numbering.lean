import Shading.Proofs.Effect.Outline

/-!
# Numbers of qualified expressions

The tables of names are keyed by identities, but what they say depends on trees only: an expression
has the name that its tree has on the roster (`Pool.Numbers`). Every declaration keeps the tables,
the inputs and the uniforms of the vertex stage in step with the roster (`VertexBinding.Follows`),
so that outputs are bound under the names of the roster (`VertexBinding.bindOutputs_follows`).
-/

namespace Shading

variable {pool after : Pool} {nameOf : Nat → String} {names : Table NodeId String}
  {trees targets : List Tree} {tree target : Tree} {id : NodeId} {name : String}

/-! ### Tables of names -/

/-- The table names the expressions of some trees, by the places of the trees. -/
structure Pool.Numbers (pool : Pool) (nameOf : Nat → String) (names : Table NodeId String)
    (trees : List Tree) : Prop where
  present : ∀ tree ∈ trees, ∃ id, pool.tree? id = some tree
  size : names.size = trees.length
  named : ∀ id name, names.get? id = some name ↔
    ∃ tree ∈ trees, pool.tree? id = some tree ∧ name = nameIn nameOf trees tree

namespace Pool.Numbers

/-- An empty table names no trees. -/
theorem empty (pool : Pool) (nameOf : Nat → String) : pool.Numbers nameOf .empty [] where
  present := nofun
  size := rfl
  named id name := by simp

/-- A table of names stays right when the pool grows. -/
theorem grow (numbers : pool.Numbers nameOf names trees) (wf : pool.WellFormed)
    (wfAfter : after.WellFormed) (grows : pool.Grows after) :
    after.Numbers nameOf names trees where
  present tree member := by
    obtain ⟨id, unfolded⟩ := numbers.present tree member
    exact ⟨id, grows.tree?_eq wf wfAfter unfolded⟩
  size := numbers.size
  named id name := by
    rw [numbers.named]
    constructor
    · rintro ⟨tree, member, unfolded, isName⟩
      exact ⟨tree, member, grows.tree?_eq wf wfAfter unfolded, isName⟩
    · rintro ⟨tree, member, unfolded, isName⟩
      -- The tree was there before, and two expressions never have the same one.
      obtain ⟨old, oldTree⟩ := numbers.present tree member
      have same : id = old :=
        wfAfter.tree?_injective unfolded (grows.tree?_eq wf wfAfter oldTree)
      exact ⟨tree, member, same ▸ oldTree, isName⟩

/-- The expression of a tree of the list has the name of its place. -/
theorem get?_of_mem (numbers : pool.Numbers nameOf names trees)
    (unfolded : pool.tree? id = some tree) (member : tree ∈ trees) :
    names.get? id = some (nameIn nameOf trees tree) :=
  (numbers.named id _).mpr ⟨tree, member, unfolded, rfl⟩

/-- The expression of another tree has no name. -/
theorem get?_of_notMem (numbers : pool.Numbers nameOf names trees)
    (unfolded : pool.tree? id = some tree) (new : tree ∉ trees) : names.get? id = none := by
  apply Option.eq_none_iff_forall_ne_some.mpr
  intro name known
  obtain ⟨other, member, otherTree, -⟩ := (numbers.named id name).mp known
  rw [unfolded] at otherTree
  cases otherTree
  exact new member

/-- The next name goes to a new tree. -/
theorem insert (numbers : pool.Numbers nameOf names trees) (wf : pool.WellFormed)
    (unfolded : pool.tree? id = some tree) (new : tree ∉ trees) :
    pool.Numbers nameOf (names.insert id (nameOf names.size)) (trees ++ [tree]) where
  present other member := by
    rcases List.mem_append.mp member with old | last
    · exact numbers.present other old
    · exact ⟨id, List.mem_singleton.mp last ▸ unfolded⟩
  size := by
    rw [Table.size_insert_of_new (numbers.get?_of_notMem unfolded new), numbers.size,
      List.length_append]
    rfl
  named other name := by
    rw [Table.get?_insert]
    split
    next same =>
      rw [same, numbers.size]
      constructor
      · rintro ⟨⟩
        exact ⟨tree, List.mem_append_right _ List.mem_cons_self, unfolded,
          (nameIn_concat_self new).symm⟩
      · rintro ⟨found, -, foundTree, isName⟩
        rw [unfolded] at foundTree
        cases foundTree
        rw [isName, nameIn_concat_self new]
    next different =>
      rw [numbers.named]
      constructor
      · rintro ⟨found, member, foundTree, isName⟩
        exact ⟨found, List.mem_append_left _ member, foundTree,
          isName.trans (nameIn_append member _).symm⟩
      · rintro ⟨found, member, foundTree, isName⟩
        rcases List.mem_append.mp member with old | last
        · exact ⟨found, old, foundTree, isName.trans (nameIn_append old _)⟩
        · rw [List.mem_singleton.mp last] at foundTree
          exact absurd (wf.tree?_injective foundTree unfolded) different

end Pool.Numbers

/-! ### Declarations -/

namespace VertexBinding

variable {binding before : VertexBinding} {roster : Roster} {expr : NodeId} {type : ValueType}

/-- What has been declared is what is on the roster. -/
structure Follows (binding : VertexBinding) (roster : Roster) : Prop where
  sound : binding.Sound
  stage : binding.stages.vertex.stage = .vertex
  attributes : binding.pool.Numbers attributeName binding.attributeNames
    roster.attributes.eraseDups
  uniforms : binding.pool.Numbers uniformName binding.stages.uniformNames roster.uniforms
  inputs : binding.stages.vertex.inputs =
    declarations roster.nameAttribute roster.attributes.eraseDups
  vertexUniforms : binding.stages.vertex.uniforms =
    declarations roster.nameUniform roster.vertexUniforms.eraseDups

/-- What is declared stays on the roster when the pool grows. -/
theorem Follows.grow {left : Pool} (follows : binding.Follows roster) (wf : left.WellFormed)
    (grows : binding.pool.Grows left) :
    ({ binding with pool := left } : VertexBinding).Follows roster where
  sound := follows.sound.grow wf grows
  stage := follows.stage
  attributes := follows.attributes.grow follows.sound.wellFormed wf grows
  uniforms := follows.uniforms.grow follows.sound.wellFormed wf grows
  inputs := follows.inputs
  vertexUniforms := follows.vertexUniforms

/-- Declaring the expression of a qualified tree adds the tree to the roster and gives the name
that it has there. -/
def DeclaresOn (declare : NodeId → ValueType → VertexBindingM String)
    (add : Roster → List Tree → Roster) (nameOn : Roster → Tree → String) : Prop :=
  ∀ {binding : VertexBinding} {roster : Roster} {id : NodeId} {target : Tree} {kind : Qualifier}
    {type : ValueType}, binding.Follows roster → binding.pool.tree? id = some target →
      target.qualifier? = some kind → target.type? = some type →
        ∃ after, declare id type binding = .ok (nameOn (add roster [target]) target) after ∧
          after.Follows (add roster [target]) ∧ binding.Declares after ∧
          after.pool = binding.pool

/-- Declaring an attribute adds it to the roster. -/
theorem declareAttribute_declaresOn :
    DeclaresOn declareAttribute Roster.addAttributes Roster.nameAttribute := by
  intro binding roster id target kind type follows isTarget isQualified typeEq
  obtain ⟨inner, found⟩ := follows.sound.wellFormed.node?_of_qualifier? isTarget isQualified
  obtain ⟨name, after, ran, sound, declares, samePool, -, -⟩ :=
    declareAttribute_declares binding follows.sound id type kind inner found
  by_cases member : target ∈ roster.attributes
  · have known := follows.attributes.get?_of_mem isTarget (List.mem_eraseDups.mpr member)
    have same : (roster.addAttributes [target]).attributes.eraseDups =
        roster.attributes.eraseDups := List.eraseDups_concat_of_mem member
    have sameNames := Roster.nameAttribute_addAttributes_of_mem member
    rw [declareAttribute_of_known known] at ran
    cases ran
    refine ⟨binding, ?_, ⟨sound, follows.stage, same ▸ follows.attributes, follows.uniforms, ?_,
      follows.vertexUniforms⟩, declares, rfl⟩
    · rw [sameNames]
      exact declareAttribute_of_known known type
    · rw [same, sameNames]
      exact follows.inputs
  · have notListed : target ∉ roster.attributes.eraseDups := fun isListed =>
      member (List.mem_eraseDups.mp isListed)
    have more : (roster.addAttributes [target]).attributes.eraseDups =
        roster.attributes.eraseDups ++ [target] := List.eraseDups_concat_of_notMem member
    have isName : (roster.addAttributes [target]).nameAttribute target =
        attributeName binding.attributeNames.size := by
      rw [Roster.nameAttribute, more, nameIn_concat_self notListed, follows.attributes.size]
    have new := follows.attributes.get?_of_notMem isTarget notListed
    rw [declareAttribute_of_new new found] at ran
    cases ran
    refine ⟨_, ?_, ⟨sound, follows.stage, ?_, follows.uniforms, ?_, follows.vertexUniforms⟩,
      declares, rfl⟩
    · rw [isName]
      exact declareAttribute_of_new new found type
    · rw [more]
      exact follows.attributes.insert follows.sound.wellFormed isTarget notListed
    · change binding.stages.vertex.inputs ++ [⟨attributeName binding.attributeNames.size, type⟩] = _
      rw [more, declarations_concat, isName, Tree.declaration_eq typeEq, follows.inputs]
      refine congrArg (· ++ _) (declarations_congr fun tree isListed => ?_)
      exact ((Roster.Within.addAttributes _ _).nameAttribute_eq
        (List.mem_eraseDups.mp isListed)).symm

/-- The name of a uniform is the one that it has on the roster, whichever stage met it first. -/
theorem Follows.nameUniform (follows : binding.Follows roster)
    (isTarget : binding.pool.tree? id = some target) {kind : Qualifier}
    (isQualified : target.qualifier? = some kind) :
    ∃ named, nameUniform id binding =
        .ok ((roster.addUniforms [target]).nameUniform target) named ∧
      named.pool.Numbers uniformName named.stages.uniformNames
        (roster.addUniforms [target]).uniforms ∧
      named.stages.vertex = binding.stages.vertex ∧
      named.attributeNames = binding.attributeNames ∧ named.pool = binding.pool := by
  obtain ⟨inner, found⟩ := follows.sound.wellFormed.node?_of_qualifier? isTarget isQualified
  by_cases member : target ∈ roster.uniforms
  · have known := follows.uniforms.get?_of_mem isTarget member
    have same : (roster.addUniforms [target]).uniforms = roster.uniforms := by
      rw [Roster.uniforms_addUniforms,
        List.eraseDups_concat_of_mem (List.mem_eraseDups.mp member)]
      rfl
    refine ⟨binding, ?_, same ▸ follows.uniforms, rfl, rfl, rfl⟩
    rw [Roster.nameUniform_addUniforms_of_mem member]
    exact nameUniform_of_known known
  · have more : (roster.addUniforms [target]).uniforms = roster.uniforms ++ [target] := by
      rw [Roster.uniforms_addUniforms, List.eraseDups_concat_of_notMem fun isMet =>
        member (List.mem_eraseDups.mpr isMet)]
      rfl
    have isName : (roster.addUniforms [target]).nameUniform target =
        uniformName binding.stages.uniformNames.size := by
      rw [Roster.nameUniform, more, nameIn_concat_self member, follows.uniforms.size]
    have new := follows.uniforms.get?_of_notMem isTarget member
    refine ⟨binding.withUniformName id inner, ?_, ?_, rfl, rfl, rfl⟩
    · rw [isName]
      exact nameUniform_of_new new found
    · rw [more]
      exact follows.uniforms.insert follows.sound.wellFormed isTarget member

/-- Declaring a uniform of the vertex stage adds it to the roster. -/
theorem declareUniform_declaresOn :
    DeclaresOn declareUniform Roster.addUniforms Roster.nameUniform := by
  intro binding roster id target kind type follows isTarget isQualified typeEq
  obtain ⟨inner, found⟩ := follows.sound.wellFormed.node?_of_qualifier? isTarget isQualified
  obtain ⟨name, after, ran, sound, declares, -, -, -⟩ :=
    declareUniform_declares binding follows.sound id type kind inner found
  obtain ⟨named, ranName, numbers, sameVertex, sameAttributes, samePool⟩ :=
    follows.nameUniform isTarget isQualified
  rw [declareUniform_of_name ranName] at ran
  cases ran
  -- Declarations of the vertex stage are told apart by their names, hence by their trees.
  have declared : named.stages.vertex.uniforms =
      declarations (roster.addUniforms [target]).nameUniform roster.vertexUniforms.eraseDups := by
    rw [sameVertex, follows.vertexUniforms]
    refine declarations_congr fun tree isListed => ?_
    exact ((Roster.Within.addUniforms _ _).nameUniform_eq
      (List.mem_append_right _ (List.mem_eraseDups.mp isListed))).symm
  have isDeclared : (named.stages.vertex.uniforms.any
      (·.name == (roster.addUniforms [target]).nameUniform target)) = true ↔
        target ∈ roster.vertexUniforms := by
    rw [declared, declarations, List.any_map, List.any_eq_true]
    constructor
    · rintro ⟨tree, isListed, sameName⟩
      have isMet := List.mem_eraseDups.mp isListed
      have onRoster : tree ∈ (roster.addUniforms [target]).uniforms :=
        List.mem_eraseDups.mpr (List.mem_append_right _ (List.mem_append_left _ isMet))
      rwa [← eq_of_nameIn_eq uniformName_injective onRoster (eq_of_beq sameName)]
    · intro isMet
      exact ⟨target, List.mem_eraseDups.mpr isMet, beq_self_eq_true _⟩
  refine ⟨_, declareUniform_of_name ranName type, ⟨sound, ?_, ?_, numbers, ?_, ?_⟩, declares,
    samePool⟩
  · rw [withUniform_stage, sameVertex]
    exact follows.stage
  · change named.pool.Numbers attributeName named.attributeNames _
    rw [samePool, sameAttributes]
    exact follows.attributes
  · rw [withUniform_inputs, sameVertex]
    exact follows.inputs
  · rw [withUniform]
    dsimp only
    split
    next known =>
      have member := isDeclared.mp known
      rw [declared]
      change _ = declarations _ (roster.vertexUniforms ++ [target]).eraseDups
      rw [List.eraseDups_concat_of_mem member]
    next unknown =>
      have new : target ∉ roster.vertexUniforms := fun member => unknown (isDeclared.mpr member)
      change named.stages.vertex.uniforms ++ [_] =
        declarations _ (roster.vertexUniforms ++ [target]).eraseDups
      rw [List.eraseDups_concat_of_notMem new, declarations_concat, Tree.declaration_eq typeEq,
        declared]

/-! ### Outputs -/

/-- Qualified expressions are extracted under the names of the roster, which has them in the end. -/
theorem replaceAll_follows {declare : NodeId → ValueType → VertexBindingM String}
    {add : Roster → List Tree → Roster} {nameOn : Roster → Tree → String}
    (declaresOn : DeclaresOn declare add nameOn) (lawful : Roster.Lawful add nameOn)
    {ids : List NodeId} {kind : Qualifier} (follows : binding.Follows roster)
    (unfolded : binding.pool.tree? expr = some tree) (unfolds : binding.pool.Unfolds ids targets)
    (qualified : ∀ target ∈ targets, target.qualifier? = some kind) :
    ∃ result after, replaceAll declare ids expr binding = .ok result after ∧
      after.Follows (add roster targets) ∧ binding.Declares after ∧
      after.pool.tree? result =
        some (tree.extract targets (targets.map (nameOn (add roster targets)))) := by
  induction ids generalizing targets tree expr binding roster with
  | nil =>
      cases unfolds
      refine ⟨expr, binding, rfl, ?_, Declares.refl binding, unfolded⟩
      rw [lawful.nil]
      exact follows
  | cons id rest ih =>
      cases unfolds with
      | cons isTarget later =>
          rename_i target targets
          have wf := follows.sound.wellFormed
          obtain ⟨type, typeEq, -⟩ := wf.exists_type? isTarget
          obtain ⟨named, ranName, followsNamed, declaresNamed, samePool⟩ :=
            declaresOn follows isTarget (qualified target List.mem_cons_self) typeEq
          obtain ⟨next, left, step, wfLeft, growsLeft, nextTree⟩ :=
            replaceAll_step wf unfolded isTarget typeEq ranName samePool rest
          have declaresFirst := declaresNamed.trans (Declares.of_grows growsLeft)
          obtain ⟨result, after, ran, followsAfter, declaresAfter, resultTree⟩ :=
            ih (followsNamed.grow wfLeft growsLeft) nextTree
              (declaresFirst.pool.unfolds wf wfLeft later)
              fun other member => qualified other (List.mem_cons_of_mem _ member)
          rw [lawful.cons] at followsAfter resultTree
          refine ⟨result, after, step.trans ran, followsAfter, declaresFirst.trans declaresAfter,
            ?_⟩
          rw [List.map_cons, Tree.extract, lawful.stays, resultTree]

/-- A vertex output is bound under the names of the roster, which has everything of it in the
end. -/
theorem bindOutput_follows (follows : binding.Follows roster)
    (unfolded : binding.pool.tree? expr = some tree) :
    ∃ result after, bindOutput expr binding = .ok result after ∧
      after.Follows (roster.meet tree) ∧ binding.Declares after ∧
      after.pool.tree? result = some ((roster.meet tree).bound tree) := by
  obtain ⟨unwrapped, left, ranUnwrap, wfLeft, growsLeft, unwrappedTree⟩ :=
    builds_unwrapFragments follows.sound.wellFormed unfolded
  obtain ⟨attributeIds, collected, unfolds⟩ := wfLeft.qualifiedAs_spec unwrappedTree .attr
  obtain ⟨rest, middle, ranRest, followsMiddle, declaresMiddle, restTree⟩ :=
    replaceAll_follows declareAttribute_declaresOn Roster.lawful_addAttributes
      (follows.grow wfLeft growsLeft) unwrappedTree unfolds fun _ => Tree.qualifier?_of_mem_listed
  obtain ⟨uniformIds, collectedAgain, unfoldsAgain⟩ :=
    followsMiddle.sound.wellFormed.qualifiedAs_spec restTree .uniform
  obtain ⟨result, after, ran, followsAfter, declaresAfter, resultTree⟩ :=
    replaceAll_follows declareUniform_declaresOn Roster.lawful_addUniforms followsMiddle restTree
      unfoldsAgain fun _ => Tree.qualifier?_of_mem_listed
  refine ⟨result, after, ?_, followsAfter,
    ((Declares.of_grows growsLeft).trans declaresMiddle).trans declaresAfter, resultTree⟩
  rw [bindOutput, bind_of_ok (onPool_of_ok ranUnwrap),
    bind_of_ok (onPool_of_ok (Pool.query_of_ok collected)), bind_of_ok ranRest,
    bind_of_ok (onPool_of_ok (Pool.query_of_ok collectedAgain)), ran]

/-- Setting an output leaves the roster as it is. -/
theorem Follows.setOutput (follows : binding.Follows roster) (name : String) (result : NodeId) :
    ∃ after, modifyStages (fun stages =>
        { stages with vertex := stages.vertex.setOutput name result }) binding = .ok () after ∧
      after.Follows roster ∧ after.pool = binding.pool ∧ binding.Extends after ∧
      after.stages.vertex.outputs = binding.stages.vertex.outputs.insert name result := by
  obtain ⟨after, ran, sound, extended, outputs⟩ := follows.sound.setOutput name result
  cases ran
  exact ⟨_, rfl, ⟨sound, follows.stage, follows.attributes, follows.uniforms, follows.inputs,
    follows.vertexUniforms⟩, rfl, extended, outputs⟩

/-- Outputs are bound one after the other. Those before the list were bound before, and those of the
list are bound under the names that the roster has in the end. -/
theorem bindOutputs_follows {done entries : List (String × NodeId)}
    {doneTrees outputs : List (String × Tree)} (follows : binding.Follows roster)
    (arranged : binding.stages.vertex.outputs.entries = done ++ entries)
    (isDone : mapNamed binding.pool.tree? done = some doneTrees)
    (unfold : mapNamed binding.pool.tree? entries = some outputs) :
    ∃ after, bindOutputs entries binding = .ok () after ∧ binding.Extends after ∧
      after.Follows (roster.meetAll (outputs.map Prod.snd)) ∧
      mapNamed after.pool.tree? after.stages.vertex.outputs.entries =
        some (doneTrees ++ outputs.map fun output =>
          (output.1, (roster.meetAll (outputs.map Prod.snd)).bound output.2)) := by
  induction entries generalizing done doneTrees outputs binding roster with
  | nil =>
      cases unfold
      refine ⟨binding, rfl, (Declares.refl binding).toExtends, follows, ?_⟩
      rw [arranged, List.append_nil, isDone, List.map_nil, List.append_nil]
  | cons first rest ih =>
      obtain ⟨name, expr⟩ := first
      obtain ⟨tree, unfolded, later⟩ := Option.bind_eq_some_iff.mp unfold
      obtain ⟨outputs, unfoldRest, rfl⟩ := Option.map_eq_some_iff.mp later
      obtain ⟨result, lifted, ranFirst, followsLifted, declares, resultTree⟩ :=
        bindOutput_follows follows unfolded
      obtain ⟨written, ranWrite, followsWritten, samePool, extended, outputsEq⟩ :=
        followsLifted.setOutput name result
      have extendedFirst := declares.toExtends.trans extended
      have keepsTree : ∀ id tree, binding.pool.tree? id = some tree →
          written.pool.tree? id = some tree := fun _ _ =>
        extendedFirst.pool.tree?_eq follows.sound.wellFormed followsWritten.sound.wellFormed
      -- Writing under a name that is there keeps its place: the list goes on after what is done.
      have arrangedWritten : written.stages.vertex.outputs.entries =
          (done ++ [(name, result)]) ++ rest := by
        have sorted := binding.stages.vertex.outputs.sorted
        rw [arranged] at sorted
        have below : ∀ entry ∈ done, compare entry.1 name = .lt := fun entry member =>
          (List.pairwise_append.mp sorted).2.2 entry member (name, expr) List.mem_cons_self
        rw [outputsEq, declares.outputs, Table.insert]
        dsimp only
        rw [arranged, Table.insertEntry_of_present below, List.append_assoc]
        rfl
      have isDoneWritten : mapNamed written.pool.tree? (done ++ [(name, result)]) =
          some (doneTrees ++ [(name, (roster.meet tree).bound tree)]) := by
        refine mapNamed_append (mapNamed_transfer isDone fun id _ => keepsTree id) ?_
        rw [samePool, mapNamed, resultTree]
        rfl
      obtain ⟨after, ran, extendedRest, followsAfter, boundAfter⟩ :=
        ih followsWritten arrangedWritten isDoneWritten
          (mapNamed_transfer unfoldRest fun id _ => keepsTree id)
      refine ⟨after, ?_, extendedFirst.trans extendedRest, followsAfter, ?_⟩
      · rw [bindOutputs, bind_of_ok ranFirst, bind_of_ok ranWrite, ran]
      -- The first output has the names of the roster at its turn, which later ones do not change.
      · have stays : (roster.meetAll ((name, tree) :: outputs |>.map Prod.snd)).bound tree =
            (roster.meet tree).bound tree :=
          (Roster.Within.meetAll _ _).bound_eq (roster.lists_meet tree)
        rw [boundAfter, List.map_cons, stays, List.append_assoc]
        rfl

end VertexBinding

end Shading
