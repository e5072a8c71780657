import Mathlib.Data.List.Nodup
import Shading.Proofs.Effect.VertexInputs
import Shading.Proofs.Named

/-!
# Outlines of stages

What the stages of an effect come to can be said without a pool, from the trees of its position and
its color. Qualified trees are numbered in the order in which they are met, and one that is met
again keeps its number (`Roster`). So a name that was given once stays the name of its tree while
further outputs are met (`Roster.Within`). An outline is a program with trees for its outputs; the
outlines of both stages are `EffectTrees.vertexOutline` and `EffectTrees.fragmentOutline`.
-/

namespace List

variable {α : Type} [BEq α] [LawfulBEq α] {items : List α} {item : α}

/-- Without repetitions, an item that is there is not added. -/
theorem eraseDups_concat_of_mem (member : item ∈ items) :
    (items ++ [item]).eraseDups = items.eraseDups := by
  have nothing : [item].removeAll items = [] := by simp [removeAll, member]
  rw [eraseDups_append, nothing]
  exact append_nil _

/-- Without repetitions, a new item is added at the end. -/
theorem eraseDups_concat_of_notMem (new : item ∉ items) :
    (items ++ [item]).eraseDups = items.eraseDups ++ [item] := by
  have kept : [item].removeAll items = [item] := by simp [removeAll, new]
  rw [eraseDups_append, kept]
  rfl

/-- A list of distinct items has no repetitions to leave out. -/
theorem Nodup.eraseDups_eq (distinct : items.Nodup) : items.eraseDups = items := by
  induction items with
  | nil => rfl
  | cons first rest ih =>
      obtain ⟨absent, distinctRest⟩ := nodup_cons.mp distinct
      have kept : (rest.filter fun item => !item == first) = rest := by
        refine filter_eq_self.mpr fun item member => ?_
        have different : item ≠ first := fun same => absent (same ▸ member)
        simp [different]
      rw [eraseDups_cons, kept, ih distinctRest]

/-- In a list of distinct items, the places count up from zero. -/
theorem Nodup.map_idxOf (distinct : items.Nodup) : items.map items.idxOf = range items.length := by
  refine ext_getElem (by simp) fun place inside _ => ?_
  rw [getElem_map, getElem_range, distinct.idxOf_getElem place]

end List

namespace Shading

/-! ### Numbered trees -/

section Numbered

variable {nameOf : Nat → String} {trees : List Tree} {tree other : Tree}

/-- The declaration of a tree under a name. -/
def Tree.declaration (tree : Tree) (name : String) : Interface :=
  ⟨name, tree.type?.getD .float⟩

/-- The declarations of trees under their names. -/
def declarations (name : Tree → String) (trees : List Tree) : List Interface :=
  trees.map fun tree => tree.declaration (name tree)

/-- The name of a tree by its place in a list. -/
def nameIn (nameOf : Nat → String) (trees : List Tree) (tree : Tree) : String :=
  nameOf (trees.idxOf tree)

/-- A tree that has a type is declared with it. -/
theorem Tree.declaration_eq {type : ValueType} (typeEq : tree.type? = some type) (name : String) :
    tree.declaration name = ⟨name, type⟩ := by
  rw [declaration, typeEq]
  rfl

/-- The name of a tree stays when trees are added after it. -/
theorem nameIn_append (member : tree ∈ trees) (more : List Tree) :
    nameIn nameOf (trees ++ more) tree = nameIn nameOf trees tree := by
  rw [nameIn, List.idxOf_append_of_mem member, nameIn]

/-- A new tree gets the next number. -/
theorem nameIn_concat_self (new : tree ∉ trees) :
    nameIn nameOf (trees ++ [tree]) tree = nameOf trees.length := by
  rw [nameIn, List.idxOf_append_of_notMem new, List.idxOf_cons_self]
  rfl

/-- A name belongs to one tree of the list only. -/
theorem eq_of_nameIn_eq
    (injective : ∀ {first second}, nameOf first = nameOf second → first = second)
    (member : tree ∈ trees) (same : nameIn nameOf trees tree = nameIn nameOf trees other) :
    tree = other :=
  (List.idxOf_inj member).mp (injective same)

/-- The names of distinct trees count up. -/
theorem map_nameIn (distinct : trees.Nodup) :
    trees.map (nameIn nameOf trees) = (List.range trees.length).map nameOf := by
  rw [← distinct.map_idxOf, List.map_map]
  rfl

/-- Trees that get the same names have the same declarations. -/
theorem declarations_congr {name rename : Tree → String}
    (same : ∀ tree ∈ trees, name tree = rename tree) :
    declarations name trees = declarations rename trees := by
  refine List.map_congr_left fun tree member => ?_
  rw [same tree member]

/-- One more tree has one more declaration. -/
theorem declarations_concat (name : Tree → String) (trees : List Tree) (tree : Tree) :
    declarations name (trees ++ [tree]) =
      declarations name trees ++ [tree.declaration (name tree)] := by
  rw [declarations, List.map_append]
  rfl

/-- The names of the declarations are those that the trees get. -/
theorem names_declarations (name : Tree → String) (trees : List Tree) :
    (declarations name trees).map Interface.name = trees.map name := by
  rw [declarations, List.map_map]
  rfl

end Numbered

/-! ### What was met -/

/-- The qualified trees that were met so far, in each place. -/
structure Roster where
  attributes : List Tree := []
  /-- Those of the fragment stage. -/
  fragmentUniforms : List Tree := []
  /-- Those of the vertex stage. -/
  vertexUniforms : List Tree := []

/-- The attributes of a vertex output. -/
def Tree.vertexAttributes (tree : Tree) : List Tree :=
  (tree.unwrap .fragment).listed .attr

namespace Roster

variable {roster middle later : Roster} {tree : Tree}

/-- The uniforms of both stages, each once; the vertex stage numbers those that the fragment stage
does not have after them. -/
def uniforms (roster : Roster) : List Tree :=
  (roster.fragmentUniforms ++ roster.vertexUniforms).eraseDups

/-- The name of an attribute. -/
def nameAttribute (roster : Roster) (tree : Tree) : String :=
  nameIn attributeName roster.attributes.eraseDups tree

/-- The name of a uniform. -/
def nameUniform (roster : Roster) (tree : Tree) : String :=
  nameIn uniformName roster.uniforms tree

/-- The roster after attributes were met. -/
def addAttributes (roster : Roster) (trees : List Tree) : Roster :=
  { roster with attributes := roster.attributes ++ trees }

/-- The roster after uniforms of the vertex stage were met. -/
def addUniforms (roster : Roster) (trees : List Tree) : Roster :=
  { roster with vertexUniforms := roster.vertexUniforms ++ trees }

/-- An attribute that is met again changes no name. -/
theorem nameAttribute_addAttributes_of_mem (member : tree ∈ roster.attributes) :
    (roster.addAttributes [tree]).nameAttribute = roster.nameAttribute := by
  funext other
  rw [nameAttribute, addAttributes, List.eraseDups_concat_of_mem member, nameAttribute]

/-- Uniforms of the vertex stage are numbered after all that were met before. -/
theorem uniforms_addUniforms (roster : Roster) (trees : List Tree) :
    (roster.addUniforms trees).uniforms =
      (roster.fragmentUniforms ++ roster.vertexUniforms ++ trees).eraseDups := by
  rw [List.append_assoc]
  rfl

/-- A uniform that is met again changes no name. -/
theorem nameUniform_addUniforms_of_mem (member : tree ∈ roster.uniforms) :
    (roster.addUniforms [tree]).nameUniform = roster.nameUniform := by
  funext other
  rw [nameUniform, uniforms_addUniforms,
    List.eraseDups_concat_of_mem (List.mem_eraseDups.mp member)]
  rfl

/-- A vertex output with its attributes taken out. -/
def plain (roster : Roster) (tree : Tree) : Tree :=
  tree.withoutAttributes (tree.vertexAttributes.map roster.nameAttribute)

/-- The uniforms of a vertex output. -/
def uniformsOf (roster : Roster) (tree : Tree) : List Tree :=
  (roster.plain tree).listed .uniform

/-- A vertex output with its attributes and its uniforms taken out. -/
def bound (roster : Roster) (tree : Tree) : Tree :=
  (roster.plain tree).extract (roster.uniformsOf tree)
    ((roster.uniformsOf tree).map roster.nameUniform)

/-- The roster after a vertex output was met. -/
def meet (roster : Roster) (tree : Tree) : Roster :=
  let withAttributes := roster.addAttributes tree.vertexAttributes
  withAttributes.addUniforms (withAttributes.uniformsOf tree)

/-- The roster after vertex outputs were met. -/
def meetAll (roster : Roster) (trees : List Tree) : Roster :=
  trees.foldl meet roster

/-- Everything of a vertex output was met. -/
structure Lists (roster : Roster) (tree : Tree) : Prop where
  attributes : ∀ small ∈ tree.vertexAttributes, small ∈ roster.attributes
  uniforms : ∀ small ∈ roster.uniformsOf tree, small ∈ roster.vertexUniforms

/-- More was met in the vertex stage. -/
structure Within (roster later : Roster) : Prop where
  attributes : roster.attributes <+: later.attributes
  fragmentUniforms : later.fragmentUniforms = roster.fragmentUniforms
  vertexUniforms : roster.vertexUniforms <+: later.vertexUniforms

namespace Within

theorem refl (roster : Roster) : roster.Within roster :=
  ⟨List.prefix_rfl, rfl, List.prefix_rfl⟩

theorem trans (first : roster.Within middle) (second : middle.Within later) :
    roster.Within later where
  attributes := first.attributes.trans second.attributes
  fragmentUniforms := second.fragmentUniforms.trans first.fragmentUniforms
  vertexUniforms := first.vertexUniforms.trans second.vertexUniforms

/-- With attributes added, more was met. -/
theorem addAttributes (roster : Roster) (trees : List Tree) :
    roster.Within (roster.addAttributes trees) :=
  ⟨List.prefix_append _ _, rfl, List.prefix_rfl⟩

/-- With uniforms added, more was met. -/
theorem addUniforms (roster : Roster) (trees : List Tree) :
    roster.Within (roster.addUniforms trees) :=
  ⟨List.prefix_rfl, rfl, List.prefix_append _ _⟩

/-- A name stays the name of its tree. -/
theorem nameAttribute_eq (within : roster.Within later) (member : tree ∈ roster.attributes) :
    later.nameAttribute tree = roster.nameAttribute tree := by
  obtain ⟨more, isLater⟩ := within.attributes
  rw [nameAttribute, ← isLater, List.eraseDups_append,
    nameIn_append (List.mem_eraseDups.mpr member)]
  rfl

/-- A uniform keeps its name when more is met. -/
theorem nameUniform_eq (within : roster.Within later)
    (member : tree ∈ roster.fragmentUniforms ++ roster.vertexUniforms) :
    later.nameUniform tree = roster.nameUniform tree := by
  obtain ⟨more, isLater⟩ := within.vertexUniforms
  rw [nameUniform, Roster.uniforms, within.fragmentUniforms, ← isLater, ← List.append_assoc,
    List.eraseDups_append, nameIn_append (List.mem_eraseDups.mpr member)]
  rfl

/-- What is left of an output without its attributes stays the same when more is met. -/
theorem plain_eq (within : roster.Within later) (lists : roster.Lists tree) :
    later.plain tree = roster.plain tree := by
  have names : tree.vertexAttributes.map later.nameAttribute =
      tree.vertexAttributes.map roster.nameAttribute :=
    List.map_congr_left fun small member => within.nameAttribute_eq (lists.attributes small member)
  rw [plain, names, plain]

/-- The uniforms of an output stay the same when more is met. -/
theorem uniformsOf_eq (within : roster.Within later) (lists : roster.Lists tree) :
    later.uniformsOf tree = roster.uniformsOf tree := by
  rw [uniformsOf, within.plain_eq lists, uniformsOf]

/-- An output that was met is bound under the same names when more was met. -/
theorem bound_eq (within : roster.Within later) (lists : roster.Lists tree) :
    later.bound tree = roster.bound tree := by
  have names : (roster.uniformsOf tree).map later.nameUniform =
      (roster.uniformsOf tree).map roster.nameUniform :=
    List.map_congr_left fun small member =>
      within.nameUniform_eq (List.mem_append_right _ (lists.uniforms small member))
  rw [bound, within.uniformsOf_eq lists, within.plain_eq lists, names, bound]

/-- What was met stays on the roster when more is met. -/
theorem lists (within : roster.Within later) (lists : roster.Lists tree) : later.Lists tree where
  attributes small member := within.attributes.subset (lists.attributes small member)
  uniforms small member := by
    rw [within.uniformsOf_eq lists] at member
    exact within.vertexUniforms.subset (lists.uniforms small member)

/-- After a vertex output was met, more was met. -/
theorem meet (roster : Roster) (tree : Tree) : roster.Within (roster.meet tree) :=
  (addAttributes roster _).trans (addUniforms _ _)

/-- After vertex outputs were met, more was met. -/
theorem meetAll (roster : Roster) (trees : List Tree) : roster.Within (roster.meetAll trees) := by
  induction trees generalizing roster with
  | nil => exact refl roster
  | cons tree trees ih => exact (meet roster tree).trans (ih _)

end Within

/-- Trees are added one after the other, and the name of a tree stays when more are added. -/
structure Lawful (add : Roster → List Tree → Roster) (nameOn : Roster → Tree → String) :
    Prop where
  nil : ∀ roster, add roster [] = roster
  cons : ∀ roster first rest, add (add roster [first]) rest = add roster (first :: rest)
  stays : ∀ roster first rest,
    nameOn (add roster (first :: rest)) first = nameOn (add roster [first]) first

/-- Attributes are added one by one and keep their names. -/
theorem lawful_addAttributes : Lawful addAttributes nameAttribute where
  nil roster := by simp [addAttributes]
  cons roster first rest := by simp [addAttributes]
  stays roster first rest := by
    have within : (roster.addAttributes [first]).Within (roster.addAttributes (first :: rest)) := by
      refine ⟨⟨rest, ?_⟩, rfl, List.prefix_rfl⟩
      simp [addAttributes]
    exact within.nameAttribute_eq (List.mem_append_right _ List.mem_cons_self)

/-- Uniforms are added one by one and keep their names. -/
theorem lawful_addUniforms : Lawful addUniforms nameUniform where
  nil roster := by simp [addUniforms]
  cons roster first rest := by simp [addUniforms]
  stays roster first rest := by
    have within : (roster.addUniforms [first]).Within (roster.addUniforms (first :: rest)) := by
      refine ⟨List.prefix_rfl, rfl, rest, ?_⟩
      simp [addUniforms]
    refine within.nameUniform_eq (List.mem_append_right _ ?_)
    exact List.mem_append_right _ List.mem_cons_self

/-- The roster lists a vertex output that was met. -/
theorem lists_meet (roster : Roster) (tree : Tree) : (roster.meet tree).Lists tree where
  attributes _ member := List.mem_append_right _ member
  uniforms _ member := List.mem_append_right _ member

/-- The roster lists each of the vertex outputs that were met. -/
theorem lists_meetAll {trees : List Tree} (roster : Roster) (member : tree ∈ trees) :
    (roster.meetAll trees).Lists tree := by
  induction trees generalizing roster with
  | nil => cases member
  | cons first trees ih =>
      rcases List.mem_cons.mp member with rfl | later
      · exact (Within.meetAll _ trees).lists (roster.lists_meet tree)
      · exact ih _ later

end Roster

/-! ### Outlines -/

/-- A program whose outputs are trees. -/
structure Outline where
  stage : Stage
  inputs : List Interface
  uniforms : List Interface
  outputs : Table String Tree

/-- The program is the outline in a pool: its outputs have the trees of the outline. -/
structure Pool.Fills (pool : Pool) (program : Program) (outline : Outline) : Prop where
  stage : program.stage = outline.stage
  inputs : program.inputs = outline.inputs
  uniforms : program.uniforms = outline.uniforms
  outputs : program.outputs.MapsTo pool.tree? outline.outputs

/-- A program still fills its outline when the pool grows. -/
theorem Pool.Fills.grow {pool after : Pool} {program : Program} {outline : Outline}
    (fills : pool.Fills program outline) (wf : pool.WellFormed) (wfAfter : after.WellFormed)
    (grows : pool.Grows after) : after.Fills program outline where
  stage := fills.stage
  inputs := fills.inputs
  uniforms := fills.uniforms
  outputs := fills.outputs.transfer fun _ _ _ => grows.tree?_eq wf wfAfter

/-- The trees of an effect. -/
structure EffectTrees where
  position : Tree
  color : Tree

/-- The trees of an effect in a pool. -/
structure Pool.Depicts (pool : Pool) (effect : Effect) (trees : EffectTrees) : Prop where
  position : pool.tree? effect.position = some trees.position
  color : pool.tree? effect.color = some trees.color

/-- An effect of two expressions has trees. -/
theorem Pool.WellFormed.exists_depicts {pool : Pool} (wf : pool.WellFormed) {effect : Effect}
    {positionType colorType : ValueType} (position : pool.typeOf effect.position = .ok positionType)
    (color : pool.typeOf effect.color = .ok colorType) : ∃ trees, pool.Depicts effect trees := by
  obtain ⟨positionTree, isPosition⟩ := wf.exists_tree?_of_typeOf position
  obtain ⟨colorTree, isColor⟩ := wf.exists_tree?_of_typeOf color
  exact ⟨⟨positionTree, colorTree⟩, isPosition, isColor⟩

namespace EffectTrees

variable (trees : EffectTrees) (reserved : Glsl.ReservedNames)

/-- The expressions that the vertex stage hands over. -/
def varyings : List Tree :=
  trees.color.listed .fragment

/-- The uniforms of the fragment stage. -/
def fragmentUniforms : List Tree :=
  trees.color.withoutVaryings.listed .uniform

/-- The vertex outputs before their inputs are bound. -/
def vertexOutputs : Table String Tree :=
  (Table.ofList (trees.varyings.map fun tree =>
    (nameIn varyingName trees.varyings tree, tree.inner))).insert reserved.position trees.position

/-- Everything that is met in both stages. -/
def roster : Roster :=
  Roster.meetAll { fragmentUniforms := trees.fragmentUniforms }
    (trees.vertexOutputs reserved).values

/-- The vertex stage of the effect. -/
def vertexOutline : Outline where
  stage := .vertex
  inputs := declarations (trees.roster reserved).nameAttribute
    (trees.roster reserved).attributes.eraseDups
  uniforms := declarations (trees.roster reserved).nameUniform
    (trees.roster reserved).vertexUniforms.eraseDups
  outputs := (trees.vertexOutputs reserved).map (trees.roster reserved).bound

/-- The fragment stage of the effect. -/
def fragmentOutline : Outline where
  stage := .fragment
  inputs := declarations (nameIn varyingName trees.varyings) trees.varyings
  uniforms := declarations (nameIn uniformName trees.fragmentUniforms) trees.fragmentUniforms
  outputs := Table.empty.insert reserved.color trees.color.withoutVaryings.withoutUniforms

end EffectTrees

end Shading
