import Shading.Proofs.Effect.Lifting
import Shading.Proofs.Effect.Numbering

/-!
# Stages fill their outlines

A split of an effect moves trees in the order in which they are listed, so its tables are those of
the roster that has the uniforms of the fragment stage and nothing else (`Effect.split_follows`).
From there the inputs of the vertex stage are bound. What comes out are programs whose interfaces
and outputs are those of the outlines, in whatever pool the trees of the effect are
(`Effect.stages_fill`).
-/

/-- In related lists, every item of the first is related to one of the second. -/
theorem List.Forall₂.exists_of_mem_left {α β : Type} {relation : α → β → Prop} {first : List α}
    {second : List β} (related : List.Forall₂ relation first second) {item : α}
    (member : item ∈ first) : ∃ other ∈ second, relation item other := by
  induction related with
  | nil => cases member
  | cons isRelated _ ih =>
      rcases List.mem_cons.mp member with rfl | later
      · exact ⟨_, List.mem_cons_self, isRelated⟩
      · obtain ⟨other, isOther, rest⟩ := ih later
        exact ⟨other, List.mem_cons_of_mem _ isOther, rest⟩

namespace Shading

variable {pool : Pool} {nameOf : Nat → String} {targets : List Tree} {moved : List Moved}

/-! ### Moved expressions by their trees -/

namespace Pool.Moves

/-- What was moved has the name of its tree. -/
theorem named (moves : pool.Moves nameOf targets moved) (distinct : targets.Nodup) :
    List.Forall₂ (fun target item =>
      pool.MovedFrom target item ∧ item.name = nameIn nameOf targets target) targets moved := by
  obtain ⟨sameLength, isMoved⟩ := List.forall₂_iff_get.mp moves.2
  have names := moves.1
  rw [← map_nameIn distinct] at names
  refine List.forall₂_iff_get.mpr ⟨sameLength, fun place inside insideMoved => ?_⟩
  refine ⟨isMoved place inside insideMoved, ?_⟩
  have same := congrArg (·[place]?) names
  simp only [List.getElem?_map, List.getElem?_eq_getElem inside,
    List.getElem?_eq_getElem insideMoved, Option.map_some, Option.some.injEq] at same
  exact same

/-- What was moved is declared under the names that the places of the trees give. -/
theorem declarations_eq (moves : pool.Moves nameOf targets moved) (distinct : targets.Nodup) :
    moved.map (fun item => (⟨item.name, item.type⟩ : Interface)) =
      declarations (nameIn nameOf targets) targets := by
  rw [declarations, ← List.forall₂_eq_eq_eq, List.forall₂_map_left_iff, List.forall₂_map_right_iff]
  refine (moves.named distinct).flip.imp ?_
  rintro item target ⟨isMoved, isName⟩
  rw [isName, Tree.declaration_eq isMoved.type]

/-- What was moved has the inner trees, under the names that the places of the trees give. -/
theorem mapNamed_inner (moves : pool.Moves nameOf targets moved) (distinct : targets.Nodup) :
    mapNamed pool.tree? (moved.map fun item => (item.name, item.inner)) =
      some (targets.map fun target => (nameIn nameOf targets target, target.inner)) := by
  rw [mapNamed_eq_some_iff, List.forall₂_map_left_iff, List.forall₂_map_right_iff]
  refine (moves.named distinct).flip.imp ?_
  rintro item target ⟨⟨-, -, kind, inner, rfl, innerTree⟩, isName⟩
  exact ⟨isName, innerTree⟩

/-- The table of what was moved numbers the trees. -/
theorem numbers (moves : pool.Moves nameOf targets moved) (wf : pool.WellFormed)
    (distinct : targets.Nodup) :
    pool.Numbers nameOf (Table.ofList (moved.map fun item => (item.qualified, item.name)))
      targets := by
  have named := moves.named distinct
  have distinctIds : ((moved.map fun item => (item.qualified, item.name)).map Prod.fst).Nodup := by
    have sameTrees : ((moved.map fun item => (item.qualified, item.name)).map Prod.fst).map
        pool.tree? = targets.map some := by
      rw [List.map_map, List.map_map, ← List.forall₂_eq_eq_eq, List.forall₂_map_left_iff,
        List.forall₂_map_right_iff]
      exact named.flip.imp fun item target isNamed => isNamed.1.qualified
    apply List.Nodup.of_map pool.tree?
    rw [sameTrees]
    exact distinct.map fun _ _ => Option.some.inj
  refine ⟨fun target member => ?_, ?_, fun id name => ?_⟩
  · obtain ⟨item, -, isMoved, -⟩ := named.exists_of_mem_left member
    exact ⟨item.qualified, isMoved.qualified⟩
  · rw [Table.size_ofList distinctIds, List.length_map, named.length_eq]
  · rw [Table.get?_ofList_eq_some_iff distinctIds, List.mem_map]
    constructor
    · rintro ⟨item, member, isEntry⟩
      cases isEntry
      obtain ⟨target, isTarget, isMoved, isName⟩ := named.flip.exists_of_mem_left member
      exact ⟨target, isTarget, isMoved.qualified, isName⟩
    · rintro ⟨target, isTarget, unfolded, rfl⟩
      obtain ⟨item, member, isMoved, isName⟩ := named.exists_of_mem_left isTarget
      exact ⟨item, member, Prod.ext (wf.tree?_injective isMoved.qualified unfolded) isName⟩

end Pool.Moves

/-! ### Splitting -/

namespace Effect

variable {effect : Effect} {trees : EffectTrees}

/-- A split starts the roster with the uniforms of the fragment stage. -/
theorem split_follows (wf : pool.WellFormed) (depicts : pool.Depicts effect trees)
    (reserved : Glsl.ReservedNames) :
    ∃ stages after, effect.split reserved pool = .ok stages after ∧ pool.Grows after ∧
      VertexBinding.Follows ⟨after, stages, .empty⟩
        { fragmentUniforms := trees.fragmentUniforms } ∧
      stages.vertex.outputs.MapsTo after.tree? (trees.vertexOutputs reserved) ∧
      after.Fills stages.fragment (trees.fragmentOutline reserved) := by
  obtain ⟨varyings, uniforms, left, after, ran, wfAfter, grows, leftTree, varyingMoves,
    uniformMoves⟩ := split_spec wf depicts.color reserved
  have distinctVaryings : trees.varyings.Nodup := Tree.nodup_listed _ _
  have distinctUniforms : trees.fragmentUniforms.Nodup := Tree.nodup_listed _ _
  rw [assembled_eq] at ran
  refine ⟨_, after, ran, grows, ⟨?_, rfl, ?_, ?_, rfl, rfl⟩, ?_, ⟨rfl, ?_, ?_, ?_⟩⟩
  · exact sound_of_split wf ran wfAfter (Pool.Persists.refl after)
  · exact Pool.Numbers.empty after attributeName
  · have onlyFragment : Roster.uniforms { fragmentUniforms := trees.fragmentUniforms } =
        trees.fragmentUniforms := by
      rw [Roster.uniforms, List.append_nil, distinctUniforms.eraseDups_eq]
    rw [onlyFragment]
    exact uniformMoves.numbers wfAfter distinctUniforms
  · have positionTree := grows.tree?_eq wf wfAfter depicts.position
    exact (Table.mapsTo_ofList (varyingMoves.mapNamed_inner distinctVaryings)).insert positionTree _
  · exact varyingMoves.declarations_eq distinctVaryings
  · exact uniformMoves.declarations_eq distinctUniforms
  · exact (Table.mapsTo_empty after.tree?).insert leftTree _

/-- An effect is split and the inputs of its vertex stage are bound. Both stages fill the outlines
of the trees of the effect, and the tables of names are those of the whole roster. -/
theorem stages_fill (wf : pool.WellFormed) (depicts : pool.Depicts effect trees)
    (reserved : Glsl.ReservedNames) :
    ∃ stages middle, effect.split reserved pool = .ok stages middle ∧ pool.Grows middle ∧
      ∃ binding : VertexBinding,
        Stages.bindVertexInputs (middle, stages) = .ok () (binding.pool, binding.stages) ∧
        middle.Grows binding.pool ∧ binding.Follows (trees.roster reserved) ∧
        binding.pool.Fills binding.stages.vertex (trees.vertexOutline reserved) ∧
        binding.pool.Fills binding.stages.fragment (trees.fragmentOutline reserved) := by
  obtain ⟨stages, middle, ran, grows, follows, outputs, fragment⟩ :=
    split_follows wf depicts reserved
  obtain ⟨binding, bound, extended, followsAfter, outputsAfter⟩ :=
    VertexBinding.bindOutputs_follows follows (List.nil_append _).symm
      (show mapNamed middle.tree? [] = some [] from rfl) outputs
  refine ⟨stages, middle, ran, grows, binding, ?_, extended.pool, followsAfter, ?_, ?_⟩
  · rw [Stages.bindVertexInputs, bound]
  · exact ⟨followsAfter.stage, followsAfter.inputs, followsAfter.vertexUniforms, outputsAfter⟩
  · rw [extended.fragment]
    exact fragment.grow follows.sound.wellFormed followsAfter.sound.wellFormed extended.pool

end Effect

end Shading
