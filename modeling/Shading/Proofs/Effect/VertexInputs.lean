import Shading.Effect.VertexInputs
import Shading.Proofs.Effect.Splitting

/-!
# Binding the inputs of the vertex stage

An output of the vertex stage is bound in three steps: the qualifier `fragment` is taken away, and
attributes and uniforms are extracted under the names of the tables. The first step goes on until
nothing is left to take away, and each of its rounds leaves less (`VertexBinding.exists_unwraps`).
The tables say once what every name stands for (`VertexBinding.Sound`), and a name keeps what it
stands for to the end (`VertexBinding.Extends`), so the outputs that were bound first stay bound
(`VertexBinding.Bound`).
-/

namespace Shading

variable {α β : Type} {pool : Pool} {tree : Tree} {id expr : NodeId}

/-- What is left when the qualifier `fragment` is taken away and then the attributes are taken out
under given names. -/
def Tree.withoutAttributes (tree : Tree) (names : List String) : Tree :=
  (tree.unwrap .fragment).extract ((tree.unwrap .fragment).listed .attr) names

/-! ### Taking the qualifier `fragment` away -/

namespace VertexBinding

/-- In each round the first expression qualified as `fragment` is replaced by what is inside. After
the given number of rounds none is left, and not before. -/
inductive Unwraps : Nat → NodeId → Pool → NodeId → Pool → Prop where
  | done {expr : NodeId} {pool : Pool} (none : pool.qualifiedAs expr .fragment = .ok []) :
      Unwraps 0 expr pool expr pool
  | round {rounds : Nat} {expr first inner next result : NodeId} {rest : List NodeId}
      {pool middle after : Pool} (collected : pool.qualifiedAs expr .fragment = .ok (first :: rest))
      (isInner : pool.unwrap first = .ok inner)
      (replaced : Pool.substitute expr first inner pool = .ok next middle)
      (later : Unwraps rounds next middle result after) :
      Unwraps (rounds + 1) expr pool result after

/-- A bound that is not below the number of rounds is not felt. -/
theorem Unwraps.unwrapRounds_eq {rounds bound : Nat} {result : NodeId} {after : Pool}
    (unwraps : Unwraps rounds expr pool result after) (enough : rounds ≤ bound) :
    unwrapRounds bound expr pool = .ok result after := by
  induction unwraps generalizing bound with
  | done none =>
      cases bound with
      | zero => rfl
      | succ bound =>
          rw [unwrapRounds, bind_of_ok (Pool.query_of_ok none)]
          rfl
  | round collected isInner replaced _ ih =>
      obtain ⟨bound, rfl⟩ := Nat.exists_eq_add_one_of_ne_zero (Nat.ne_zero_of_lt enough)
      rw [unwrapRounds, bind_of_ok (Pool.query_of_ok collected)]
      dsimp only
      rw [bind_of_ok (Pool.query_of_ok isInner), bind_of_ok replaced]
      exact ih (Nat.le_of_succ_le_succ enough)

/-- A round succeeds. It leaves fewer expressions qualified as `fragment`, and what is left of the
tree without the qualifier is the same. -/
theorem unwrap_round {first : NodeId} {rest : List NodeId} (wf : pool.WellFormed)
    (unfolded : pool.tree? expr = some tree)
    (collected : pool.qualifiedAs expr .fragment = .ok (first :: rest)) :
    ∃ inner next middle nextTree, pool.unwrap first = .ok inner ∧
      Pool.substitute expr first inner pool = .ok next middle ∧ middle.WellFormed ∧
      pool.Grows middle ∧ middle.tree? next = some nextTree ∧
      (nextTree.listed .fragment).length < (tree.listed .fragment).length ∧
      nextTree.unwrap .fragment = tree.unwrap .fragment := by
  obtain ⟨ids, collectedIds, unfolds⟩ := wf.qualifiedAs_spec unfolded .fragment
  rw [collected] at collectedIds
  cases collectedIds
  obtain ⟨target, targets, isTarget, -, listedEq⟩ := List.forall₂_cons_left_iff.mp unfolds
  have member : target ∈ tree.listed .fragment := listedEq ▸ List.mem_cons_self
  obtain ⟨innerTree, rfl⟩ :=
    Tree.eq_qualified_of_qualifier? (Tree.qualifier?_of_mem_listed member)
  obtain ⟨inner, found, isInner⟩ := wf.exists_inner isTarget
  obtain ⟨next, middle, replaced, wfMiddle, grows, nextTree⟩ :=
    wf.builds_substitute unfolded isTarget isInner rfl
  exact ⟨inner, next, middle, _, Pool.unwrap_eq_ok_iff.mpr ⟨_, found⟩, replaced, wfMiddle, grows,
    nextTree, Tree.length_listed_substitute_lt member, Tree.unwrap_substitute ..⟩

/-- The rounds come to an end, and there are no more of them than expressions qualified as
`fragment`. -/
theorem exists_unwraps {pool : Pool} {expr : NodeId} {tree : Tree} (wf : pool.WellFormed)
    (unfolded : pool.tree? expr = some tree) :
    ∃ rounds result after, rounds ≤ (tree.listed .fragment).length ∧
      Unwraps rounds expr pool result after ∧ after.WellFormed ∧ pool.Grows after ∧
      after.tree? result = some (tree.unwrap .fragment) := by
  obtain ⟨ids, collected, unfolds⟩ := wf.qualifiedAs_spec unfolded .fragment
  cases ids with
  | nil =>
      have none : tree.listed .fragment = [] := List.forall₂_nil_left_iff.mp unfolds
      rw [Tree.unwrap_of_absent (Tree.listed_eq_nil_iff.mp none)]
      exact ⟨0, expr, pool, Nat.zero_le _, .done collected, wf, Pool.Grows.refl pool, unfolded⟩
  | cons first rest =>
      obtain ⟨inner, next, middle, nextTree, isInner, replaced, wfMiddle, grows, nextUnfolded,
        fewer, same⟩ := unwrap_round wf unfolded collected
      obtain ⟨rounds, result, after, few, unwraps, wfAfter, growsAfter, resultTree⟩ :=
        exists_unwraps wfMiddle nextUnfolded
      exact ⟨rounds + 1, result, after, Nat.lt_of_le_of_lt few fewer,
        .round collected isInner replaced unwraps, wfAfter, grows.trans growsAfter,
        same ▸ resultTree⟩
termination_by (tree.listed .fragment).length
decreasing_by exact fewer

/-- Enough rounds of unwrapping build the tree without the qualifier. -/
theorem builds_unwrapRounds {rounds : Nat} (wf : pool.WellFormed)
    (unfolded : pool.tree? expr = some tree)
    (enough : (tree.listed .fragment).length ≤ rounds) :
    pool.Builds (unwrapRounds rounds expr) (tree.unwrap .fragment) := by
  obtain ⟨needed, result, after, few, unwraps, built⟩ := exists_unwraps wf unfolded
  exact ⟨result, after, unwraps.unwrapRounds_eq (Nat.le_trans few enough), built⟩

/-- Unwrapping builds the tree without the qualifier: the rounds are enough. -/
theorem builds_unwrapFragments (wf : pool.WellFormed) (unfolded : pool.tree? expr = some tree) :
    pool.Builds (unwrapFragments expr) (tree.unwrap .fragment) := by
  obtain ⟨ids, collected, unfolds⟩ := wf.qualifiedAs_spec unfolded .fragment
  unfold Pool.Builds
  rw [unwrapFragments, bind_of_ok (Pool.query_of_ok collected)]
  exact builds_unwrapRounds wf unfolded (Nat.le_of_eq unfolds.length_eq.symm)

/-! ### Names -/

/-- Names are given to nodes of the pool and count up to the size of the table; the name of a
qualified expression is bound to what is inside. A node that was collected may still have a
name. -/
def Names (pool : Pool) (bindings : Table String NodeId) (nameOf : Nat → String)
    (names : Table NodeId String) : Prop :=
  ∀ id name, names.get? id = some name →
    (∃ number < names.size, name = nameOf number) ∧ id < pool.slots.size ∧
      ∀ kind inner, pool.node? id = some (.qualified kind inner) →
        bindings.get? name = some inner

variable {bindings : Table String NodeId} {nameOf : Nat → String} {names : Table NodeId String}

/-- Names stay right when the pool grows. -/
theorem Names.grow {after : Pool} (named : Names pool bindings nameOf names)
    (grows : pool.Grows after) : Names after bindings nameOf names := by
  intro id name known
  obtain ⟨isName, inside, bound⟩ := named id name known
  refine ⟨isName, Nat.lt_of_lt_of_le inside grows.size, ?_⟩
  intro kind inner found
  rw [Pool.node?, grows.entry id inside] at found
  exact bound kind inner found

/-- Names of another family can be bound. -/
theorem Names.bind_other {name : String} (named : Names pool bindings nameOf names)
    (other : ∀ number, name ≠ nameOf number) (inner : NodeId) :
    Names pool (bindings.insert name inner) nameOf names := by
  intro id known isKnown
  obtain ⟨⟨number, less, isName⟩, inside, bound⟩ := named id known isKnown
  refine ⟨⟨number, less, isName⟩, inside, ?_⟩
  intro kind below found
  have different : known ≠ name := fun same => other number (same ▸ isName)
  rw [Table.get?_insert_of_ne _ _ different]
  exact bound kind below found

/-- The next name can be given to a qualified expression. -/
theorem Names.insert {kind : Qualifier} {inner : NodeId}
    (named : Names pool bindings nameOf names)
    (injective : ∀ {first second}, nameOf first = nameOf second → first = second)
    (new : names.get? id = none) (found : pool.node? id = some (.qualified kind inner)) :
    Names pool (bindings.insert (nameOf names.size) inner) nameOf
      (names.insert id (nameOf names.size)) := by
  intro other name known
  rw [Table.size_insert_of_new new]
  rw [Table.get?_insert] at known
  split at known
  next same =>
    cases known
    refine ⟨⟨names.size, Nat.lt_succ_self _, rfl⟩, same ▸ Pool.lt_size_of_node? found, ?_⟩
    intro otherKind below otherFound
    rw [same, found] at otherFound
    cases otherFound
    exact Table.get?_insert_self _ _ _
  next =>
    obtain ⟨⟨number, less, rfl⟩, inside, bound⟩ := named other name known
    refine ⟨⟨number, Nat.lt_succ_of_lt less, rfl⟩, inside, ?_⟩
    intro otherKind below otherFound
    have different : nameOf number ≠ nameOf names.size := fun same =>
      Nat.ne_of_lt less (injective same)
    rw [Table.get?_insert_of_ne _ _ different]
    exact bound otherKind below otherFound

/-- The invariant of binding: both tables of names are right, and nothing else is bound. -/
structure Sound (binding : VertexBinding) : Prop where
  wellFormed : binding.pool.WellFormed
  attributes : Names binding.pool binding.stages.bindings attributeName binding.attributeNames
  uniforms : Names binding.pool binding.stages.bindings uniformName binding.stages.uniformNames
  bound : ∀ name id, binding.stages.bindings.get? name = some id →
    (∃ number < binding.attributeNames.size, name = attributeName number) ∨
      ∃ number < binding.stages.uniformNames.size, name = uniformName number

/-- The pool grows and nothing that is bound is lost; the fragment stage is not touched. -/
structure Extends (before after : VertexBinding) : Prop where
  pool : before.pool.Grows after.pool
  fragment : after.stages.fragment = before.stages.fragment
  bindings : ∀ name id, before.stages.bindings.get? name = some id →
    after.stages.bindings.get? name = some id

/-- Names are declared and the vertex outputs are not touched. -/
structure Declares (before after : VertexBinding) : Prop extends Extends before after where
  outputs : after.stages.vertex.outputs = before.stages.vertex.outputs

variable {before middle after binding : VertexBinding}

theorem Extends.trans (first : before.Extends middle) (second : middle.Extends after) :
    before.Extends after where
  pool := first.pool.trans second.pool
  fragment := second.fragment.trans first.fragment
  bindings name id bound := second.bindings name id (first.bindings name id bound)

theorem Declares.refl (binding : VertexBinding) : binding.Declares binding where
  pool := Pool.Grows.refl _
  fragment := rfl
  bindings _ _ bound := bound
  outputs := rfl

theorem Declares.trans (first : before.Declares middle) (second : middle.Declares after) :
    before.Declares after where
  toExtends := first.toExtends.trans second.toExtends
  outputs := second.outputs.trans first.outputs

/-- The next attribute name is not bound. -/
theorem Sound.attribute_new (sound : binding.Sound) :
    binding.stages.bindings.get? (attributeName binding.attributeNames.size) = none := by
  apply Option.eq_none_iff_forall_ne_some.mpr
  intro id found
  rcases sound.bound _ id found with ⟨number, less, same⟩ | ⟨number, -, same⟩
  · exact Nat.ne_of_gt less (attributeName_injective same)
  · exact (attributeName_isAttributeName _).not_uniformName ⟨number, same⟩

/-- The next uniform name is not bound. -/
theorem Sound.uniform_new (sound : binding.Sound) :
    binding.stages.bindings.get? (uniformName binding.stages.uniformNames.size) = none := by
  apply Option.eq_none_iff_forall_ne_some.mpr
  intro id found
  rcases sound.bound _ id found with ⟨number, -, same⟩ | ⟨number, less, same⟩
  · exact (uniformName_isUniformName _).not_attributeName ⟨number, same⟩
  · exact Nat.ne_of_gt less (uniformName_injective same)

/-! ### Declarations -/

/-- The operation gives a qualified expression a name of a family that is bound to what is
inside. -/
def DeclaresAs (family : String → Prop)
    (declare : NodeId → ValueType → VertexBindingM String) : Prop :=
  ∀ binding : VertexBinding, binding.Sound → ∀ (id : NodeId) (type : ValueType) kind inner,
    binding.pool.node? id = some (.qualified kind inner) →
      ∃ name after, declare id type binding = .ok name after ∧ after.Sound ∧
        binding.Declares after ∧ after.pool = binding.pool ∧ family name ∧
        after.stages.bindings.get? name = some inner

theorem get_eq (binding : VertexBinding) :
    (get : VertexBindingM VertexBinding) binding = .ok binding binding := rfl

theorem modify_eq (change : VertexBinding → VertexBinding) (binding : VertexBinding) :
    (modify change : VertexBindingM PUnit) binding = .ok () (change binding) := rfl

theorem modifyStages_eq (change : Stages → Stages) (binding : VertexBinding) :
    modifyStages change binding = .ok () { binding with stages := change binding.stages } := rfl

/-- An operation that succeeds on the pool succeeds in the state. -/
theorem onPool_of_ok {operation : PoolM α} {result : α} {left : Pool}
    (ran : operation binding.pool = .ok result left) :
    onPool operation binding = .ok result { binding with pool := left } := by
  simp only [onPool, ran]

/-- An operation that succeeds in the state succeeds on the pool and changes only that. -/
theorem exists_of_onPool_ok {operation : PoolM α} {result : α}
    (ran : onPool operation binding = .ok result after) :
    ∃ left, operation binding.pool = .ok result left ∧ after = { binding with pool := left } := by
  cases done : operation binding.pool with
  | ok answer left =>
      rw [onPool_of_ok done] at ran
      cases ran
      exact ⟨left, rfl, rfl⟩
  | error cause left =>
      rw [onPool, done] at ran
      cases ran

/-- Binding a new name loses nothing that is bound. -/
theorem bindings_insert_new {bindings : Table String NodeId} {new : String}
    (unbound : bindings.get? new = none) (inner : NodeId) {name : String} {id : NodeId}
    (bound : bindings.get? name = some id) :
    (bindings.insert new inner).get? name = some id := by
  have different : name ≠ new := by
    rintro rfl
    rw [unbound] at bound
    cases bound
  rw [Table.get?_insert_of_ne _ _ different, bound]

/-- The binding with one more attribute, under the next name. -/
def withAttribute (binding : VertexBinding) (id : NodeId) (type : ValueType) (inner : NodeId) :
    VertexBinding :=
  let name := attributeName binding.attributeNames.size
  { pool := binding.pool
    stages :=
      { binding.stages with
        vertex := binding.stages.vertex.addInput name type
        bindings := binding.stages.bindings.insert name inner }
    attributeNames := binding.attributeNames.insert id name }

/-- An attribute that has a name is not declared again. -/
theorem declareAttribute_of_known {name : String}
    (known : binding.attributeNames.get? id = some name) (type : ValueType) :
    declareAttribute id type binding = .ok name binding := by
  rw [declareAttribute, bind_of_ok (get_eq binding), known]
  rfl

/-- A new attribute is declared under the next name. -/
theorem declareAttribute_of_new {kind : Qualifier} {inner : NodeId}
    (new : binding.attributeNames.get? id = none)
    (found : binding.pool.node? id = some (.qualified kind inner)) (type : ValueType) :
    declareAttribute id type binding =
      .ok (attributeName binding.attributeNames.size) (binding.withAttribute id type inner) := by
  have unwrapped := Pool.unwrap_eq_ok_iff.mpr ⟨kind, found⟩
  rw [declareAttribute, bind_of_ok (get_eq binding), new]
  dsimp only
  rw [bind_of_ok (modify_eq _ binding)]
  rw [bind_of_ok (onPool_of_ok (Pool.query_of_ok unwrapped))]
  rfl

/-- Declaring an attribute gives a name that is bound to what is inside. -/
theorem declareAttribute_declares : DeclaresAs AttributeName declareAttribute := by
  intro binding sound id type kind inner found
  cases known : binding.attributeNames.get? id with
  | some name =>
      obtain ⟨⟨number, -, isName⟩, -, bound⟩ := sound.attributes id name known
      exact ⟨name, binding, declareAttribute_of_known known type, sound, Declares.refl binding, rfl,
        ⟨number, isName⟩, bound kind inner found⟩
  | none =>
      let name := attributeName binding.attributeNames.size
      have isOther : ∀ number, name ≠ uniformName number := fun number same =>
        (attributeName_isAttributeName _).not_uniformName ⟨number, same⟩
      have soundAfter : (binding.withAttribute id type inner).Sound := by
        refine ⟨sound.wellFormed, sound.attributes.insert attributeName_injective known found,
          sound.uniforms.bind_other isOther inner, ?_⟩
        intro other bound isBound
        change (binding.stages.bindings.insert name inner).get? other = some bound at isBound
        rw [Table.get?_insert] at isBound
        change (∃ number < (binding.attributeNames.insert id name).size, _) ∨ _
        rw [Table.size_insert_of_new known]
        split at isBound
        next same => exact Or.inl ⟨_, Nat.lt_succ_self _, same⟩
        next =>
          apply (sound.bound other bound isBound).imp_left
          rintro ⟨number, less, same⟩
          exact ⟨number, Nat.lt_succ_of_lt less, same⟩
      refine ⟨name, _, declareAttribute_of_new known found type, soundAfter,
        ⟨⟨Pool.Grows.refl _, rfl, ?_⟩, rfl⟩, rfl, attributeName_isAttributeName _,
        Table.get?_insert_self _ _ _⟩
      intro other bound
      exact bindings_insert_new sound.attribute_new inner

/-- The binding with a name for one more uniform. -/
def withUniformName (binding : VertexBinding) (id inner : NodeId) : VertexBinding :=
  let name := uniformName binding.stages.uniformNames.size
  { binding with
    stages :=
      { binding.stages with
        bindings := binding.stages.bindings.insert name inner
        uniformNames := binding.stages.uniformNames.insert id name } }

/-- A uniform that has a name keeps it. -/
theorem nameUniform_of_known {name : String}
    (known : binding.stages.uniformNames.get? id = some name) :
    nameUniform id binding = .ok name binding := by
  rw [nameUniform, bind_of_ok (get_eq binding), known]
  rfl

/-- A new uniform gets the next name. -/
theorem nameUniform_of_new {kind : Qualifier} {inner : NodeId}
    (new : binding.stages.uniformNames.get? id = none)
    (found : binding.pool.node? id = some (.qualified kind inner)) :
    nameUniform id binding =
      .ok (uniformName binding.stages.uniformNames.size) (binding.withUniformName id inner) := by
  have unwrapped := Pool.unwrap_eq_ok_iff.mpr ⟨kind, found⟩
  rw [nameUniform, bind_of_ok (get_eq binding), new]
  dsimp only
  rw [bind_of_ok (modifyStages_eq _ binding)]
  rw [bind_of_ok (onPool_of_ok (Pool.query_of_ok unwrapped))]
  rfl

/-- Naming a uniform gives a name that is bound to what is inside. -/
theorem nameUniform_declares : DeclaresAs UniformName fun id _ => nameUniform id := by
  intro binding sound id type kind inner found
  cases known : binding.stages.uniformNames.get? id with
  | some name =>
      obtain ⟨⟨number, -, isName⟩, -, bound⟩ := sound.uniforms id name known
      exact ⟨name, binding, nameUniform_of_known known, sound, Declares.refl binding, rfl,
        ⟨number, isName⟩, bound kind inner found⟩
  | none =>
      let name := uniformName binding.stages.uniformNames.size
      have isOther : ∀ number, name ≠ attributeName number := fun number same =>
        (uniformName_isUniformName _).not_attributeName ⟨number, same⟩
      have soundAfter : (binding.withUniformName id inner).Sound := by
        refine ⟨sound.wellFormed, sound.attributes.bind_other isOther inner,
          sound.uniforms.insert uniformName_injective known found, ?_⟩
        intro other bound isBound
        change (binding.stages.bindings.insert name inner).get? other = some bound at isBound
        rw [Table.get?_insert] at isBound
        change _ ∨ ∃ number < (binding.stages.uniformNames.insert id name).size, _
        rw [Table.size_insert_of_new known]
        split at isBound
        next same => exact Or.inr ⟨_, Nat.lt_succ_self _, same⟩
        next =>
          apply (sound.bound other bound isBound).imp_right
          rintro ⟨number, less, same⟩
          exact ⟨number, Nat.lt_succ_of_lt less, same⟩
      refine ⟨name, _, nameUniform_of_new known found, soundAfter,
        ⟨⟨Pool.Grows.refl _, rfl, ?_⟩, rfl⟩, rfl, uniformName_isUniformName _,
        Table.get?_insert_self _ _ _⟩
      intro other bound
      exact bindings_insert_new sound.uniform_new inner

/-- The binding after the vertex stage has declared a uniform. -/
def withUniform (binding : VertexBinding) (name : String) (type : ValueType) : VertexBinding :=
  { binding with
    stages :=
      { binding.stages with
        vertex :=
          if binding.stages.vertex.uniforms.any (·.name == name) then binding.stages.vertex
          else binding.stages.vertex.addUniform name type } }

theorem withUniform_stage (name : String) (type : ValueType) :
    (binding.withUniform name type).stages.vertex.stage = binding.stages.vertex.stage := by
  simp only [withUniform]
  split <;> rfl

theorem withUniform_inputs (name : String) (type : ValueType) :
    (binding.withUniform name type).stages.vertex.inputs = binding.stages.vertex.inputs := by
  simp only [withUniform]
  split <;> rfl

theorem withUniform_outputs (name : String) (type : ValueType) :
    (binding.withUniform name type).stages.vertex.outputs = binding.stages.vertex.outputs := by
  simp only [withUniform]
  split <;> rfl

/-- A uniform is declared in the vertex stage under its name. -/
theorem declareUniform_of_name {name : String} {named : VertexBinding}
    (ran : nameUniform id binding = .ok name named) (type : ValueType) :
    declareUniform id type binding = .ok name (named.withUniform name type) := by
  rw [declareUniform, bind_of_ok ran, bind_of_ok (modifyStages_eq _ named)]
  unfold withUniform
  split <;> rfl

/-- Declaring a uniform gives a name that is bound to what is inside. -/
theorem declareUniform_declares : DeclaresAs UniformName declareUniform := by
  intro binding sound id type kind inner found
  obtain ⟨name, named, ran, soundNamed, declares, samePool, isName, bound⟩ :=
    nameUniform_declares binding sound id type kind inner found
  have soundAfter : (named.withUniform name type).Sound :=
    ⟨soundNamed.wellFormed, soundNamed.attributes, soundNamed.uniforms, soundNamed.bound⟩
  have further : named.Declares (named.withUniform name type) :=
    ⟨⟨Pool.Grows.refl _, rfl, fun _ _ isBound => isBound⟩, withUniform_outputs name type⟩
  exact ⟨name, _, declareUniform_of_name ran type, soundAfter, declares.trans further, samePool,
    isName, bound⟩

/-! ### Replacing qualified expressions -/

/-- Trees stand under names of a family that are bound to what is inside them. -/
def Supplies (binding : VertexBinding) (family : String → Prop) : List Tree → List String → Prop :=
  List.Forall₂ fun target name => family name ∧
    ∃ kind inner id, target = .qualified kind inner ∧
      binding.stages.bindings.get? name = some id ∧ binding.pool.tree? id = some inner

/-- What is supplied stays supplied when the binding is extended. -/
theorem Supplies.extend {family : String → Prop} {targets : List Tree} {names : List String}
    (supplies : before.Supplies family targets names) (sound : before.Sound)
    (soundAfter : after.Sound) (extended : before.Extends after) :
    after.Supplies family targets names := by
  refine List.Forall₂.imp ?_ supplies
  rintro target name ⟨isName, kind, inner, id, eq, bound, unfolded⟩
  exact ⟨isName, kind, inner, id, eq, extended.bindings name id bound,
    extended.pool.tree?_eq sound.wellFormed soundAfter.wellFormed unfolded⟩

/-- A binding stays sound when the pool grows. -/
theorem Sound.grow {left : Pool} (sound : binding.Sound) (wf : left.WellFormed)
    (grows : binding.pool.Grows left) : ({ binding with pool := left } : VertexBinding).Sound :=
  ⟨wf, sound.attributes.grow grows, sound.uniforms.grow grows, sound.bound⟩

/-- Letting the pool grow declares nothing. -/
theorem Declares.of_grows {left : Pool} (grows : binding.pool.Grows left) :
    binding.Declares { binding with pool := left } :=
  ⟨⟨grows, rfl, fun _ _ isBound => isBound⟩, rfl⟩

/-- Building a tree in the pool keeps a binding sound and declares nothing. -/
theorem onPool_of_builds {operation : PoolM NodeId} (sound : binding.Sound)
    (builds : binding.pool.Builds operation tree) :
    ∃ result after, onPool operation binding = .ok result after ∧ after.Sound ∧
      binding.Declares after ∧ after.pool.tree? result = some tree := by
  obtain ⟨result, left, ran, wf, grows, resultTree⟩ := builds
  exact ⟨result, { binding with pool := left }, onPool_of_ok ran, sound.grow wf grows,
    Declares.of_grows grows, resultTree⟩

/-- Expressions keep their trees when names are declared. -/
theorem Declares.tree?_eq (declares : before.Declares after) (sound : before.Sound)
    (soundAfter : after.Sound) (unfolded : before.pool.tree? id = some tree) :
    after.pool.tree? id = some tree :=
  declares.pool.tree?_eq sound.wellFormed soundAfter.wellFormed unfolded

/-- A qualified expression is extracted under the name that is declared for it, and the rest of the
list comes after it. -/
theorem replaceAll_step {declare : NodeId → ValueType → VertexBindingM String} {target : Tree}
    {type : ValueType} {name : String} {named : VertexBinding} (wf : binding.pool.WellFormed)
    (unfolded : binding.pool.tree? expr = some tree)
    (isTarget : binding.pool.tree? id = some target) (typeEq : target.type? = some type)
    (ran : declare id type binding = .ok name named) (samePool : named.pool = binding.pool)
    (rest : List NodeId) :
    ∃ next left, replaceAll declare (id :: rest) expr binding =
        replaceAll declare rest next { named with pool := left } ∧
      left.WellFormed ∧ named.pool.Grows left ∧
      left.tree? next = some (tree.substitute target (target.named name)) := by
  have typed : binding.pool.typeOf id = .ok type := by
    rw [Pool.typeOf_eq_ok_iff, wf.type?_of_tree? isTarget, typeEq]
  rw [← samePool] at unfolded isTarget wf
  obtain ⟨reference, withVar, next, left, ranVar, ranNext, wfLeft, grows, nextTree⟩ :=
    wf.extract_step unfolded isTarget typeEq name
  refine ⟨next, left, ?_, wfLeft, grows, nextTree⟩
  rw [replaceAll, bind_of_ok (onPool_of_ok (Pool.query_of_ok typed)), bind_of_ok ran,
    bind_of_ok (onPool_of_ok ranVar), bind_of_ok (onPool_of_ok ranNext)]

/-- Qualified expressions are extracted under the names that are declared for them. -/
theorem replaceAll_spec {family : String → Prop}
    {declare : NodeId → ValueType → VertexBindingM String} (declaresAs : DeclaresAs family declare)
    {ids : List NodeId} {targets : List Tree} {kind : Qualifier} (sound : binding.Sound)
    (unfolded : binding.pool.tree? expr = some tree) (unfolds : binding.pool.Unfolds ids targets)
    (qualified : ∀ target ∈ targets, target.qualifier? = some kind) :
    ∃ names result after, replaceAll declare ids expr binding = .ok result after ∧ after.Sound ∧
      binding.Declares after ∧ after.Supplies family targets names ∧
      after.pool.tree? result = some (tree.extract targets names) := by
  induction ids generalizing targets tree expr binding with
  | nil =>
      cases unfolds
      exact ⟨[], expr, binding, rfl, sound, Declares.refl binding, .nil, unfolded⟩
  | cons id rest ih =>
      cases unfolds with
      | cons isTarget later =>
          rename_i target targets
          obtain ⟨type, typeEq, -⟩ := sound.wellFormed.exists_type? isTarget
          obtain ⟨innerTree, rfl⟩ :=
            Tree.eq_qualified_of_qualifier? (qualified target List.mem_cons_self)
          obtain ⟨inner, found, isInner⟩ := sound.wellFormed.exists_inner isTarget
          obtain ⟨name, named, ranName, soundNamed, declaresNamed, samePool, isName, bound⟩ :=
            declaresAs binding sound id type kind inner found
          obtain ⟨next, left, step, wfLeft, growsLeft, nextTree⟩ :=
            replaceAll_step sound.wellFormed unfolded isTarget typeEq ranName samePool rest
          have soundMiddle := soundNamed.grow wfLeft growsLeft
          have declaresMiddle : named.Declares { named with pool := left } :=
            Declares.of_grows growsLeft
          have declaresFirst := declaresNamed.trans declaresMiddle
          obtain ⟨names, result, after, ran, soundAfter, declaresAfter, supplies, resultTree⟩ :=
            ih soundMiddle nextTree
              (declaresFirst.pool.unfolds sound.wellFormed soundMiddle.wellFormed later)
              fun other member => qualified other (List.mem_cons_of_mem _ member)
          have declaresAll := declaresFirst.trans declaresAfter
          have boundAfter := (declaresMiddle.trans declaresAfter).bindings name inner bound
          refine ⟨name :: names, result, after, step.trans ran, soundAfter, declaresAll,
            .cons ?_ supplies, resultTree⟩
          exact ⟨isName, kind, innerTree, inner, rfl, boundAfter,
            declaresAll.tree?_eq sound soundAfter isInner⟩

/-! ### Outputs -/

/-- A node is what becomes of a tree when its attributes and uniforms are taken out under bound
names. -/
structure Bound (binding : VertexBinding) (tree : Tree) (attributes uniforms : List String)
    (result : NodeId) : Prop where
  fromAttributes : binding.Supplies AttributeName ((tree.unwrap .fragment).listed .attr)
    attributes
  fromUniforms : binding.Supplies UniformName ((tree.withoutAttributes attributes).listed .uniform)
    uniforms
  unfolded : binding.pool.tree? result = some ((tree.withoutAttributes attributes).extract
    ((tree.withoutAttributes attributes).listed .uniform) uniforms)

/-- What an output became stays so when the binding is extended. -/
theorem Bound.extend {attributes uniforms : List String} {result : NodeId}
    (bound : before.Bound tree attributes uniforms result) (sound : before.Sound)
    (soundAfter : after.Sound) (extended : before.Extends after) :
    after.Bound tree attributes uniforms result where
  fromAttributes := bound.fromAttributes.extend sound soundAfter extended
  fromUniforms := bound.fromUniforms.extend sound soundAfter extended
  unfolded := extended.pool.tree?_eq sound.wellFormed soundAfter.wellFormed bound.unfolded

/-- Everything of a qualifier that is collected is extracted. -/
theorem replaceListed_spec {family : String → Prop}
    {declare : NodeId → ValueType → VertexBindingM String} (declaresAs : DeclaresAs family declare)
    (sound : binding.Sound) (unfolded : binding.pool.tree? expr = some tree) (kind : Qualifier) :
    ∃ ids names result after,
      onPool (Pool.query (·.qualifiedAs expr kind)) binding = .ok ids binding ∧
      replaceAll declare ids expr binding = .ok result after ∧ after.Sound ∧
      binding.Declares after ∧ after.Supplies family (tree.listed kind) names ∧
      after.pool.tree? result = some (tree.extract (tree.listed kind) names) := by
  obtain ⟨ids, collected, unfolds⟩ := sound.wellFormed.qualifiedAs_spec unfolded kind
  obtain ⟨names, result, after, ran, rest⟩ :=
    replaceAll_spec declaresAs sound unfolded unfolds fun _ => Tree.qualifier?_of_mem_listed
  exact ⟨ids, names, result, after, onPool_of_ok (Pool.query_of_ok collected), ran, rest⟩

/-- An output is bound: its attributes and uniforms are taken out under names that are bound to what
is inside them. -/
theorem bindOutput_spec (sound : binding.Sound) (unfolded : binding.pool.tree? expr = some tree) :
    ∃ attributes uniforms result after, bindOutput expr binding = .ok result after ∧
      after.Sound ∧ binding.Declares after ∧ after.Bound tree attributes uniforms result := by
  obtain ⟨plain, first, ranPlain, soundFirst, declaresFirst, plainTree⟩ :=
    onPool_of_builds sound (builds_unwrapFragments sound.wellFormed unfolded)
  obtain ⟨attributeIds, attributes, rest, second, collected, ranRest, soundSecond, declaresSecond,
    suppliesAttributes, restTree⟩ :=
      replaceListed_spec declareAttribute_declares soundFirst plainTree .attr
  obtain ⟨uniformIds, uniforms, result, after, collectedAgain, ran, soundAfter, declaresAfter,
    suppliesUniforms, resultTree⟩ :=
      replaceListed_spec declareUniform_declares soundSecond restTree .uniform
  refine ⟨attributes, uniforms, result, after, ?_, soundAfter,
    (declaresFirst.trans declaresSecond).trans declaresAfter,
    suppliesAttributes.extend soundSecond soundAfter declaresAfter.toExtends, suppliesUniforms,
    resultTree⟩
  rw [bindOutput, bind_of_ok ranPlain, bind_of_ok collected, bind_of_ok ranRest,
    bind_of_ok collectedAgain, ran]

/-- Writing a bound output changes nothing but the outputs. -/
theorem Sound.setOutput (sound : binding.Sound) (name : String) (result : NodeId) :
    ∃ after, modifyStages (fun stages =>
        { stages with vertex := stages.vertex.setOutput name result }) binding = .ok () after ∧
      after.Sound ∧ binding.Extends after ∧
      after.stages.vertex.outputs = binding.stages.vertex.outputs.insert name result :=
  ⟨_, rfl, ⟨sound.wellFormed, sound.attributes, sound.uniforms, sound.bound⟩,
    ⟨Pool.Grows.refl _, rfl, fun _ _ isBound => isBound⟩, rfl⟩

/-- Outputs are bound one after the other: an output that is bound stays so, and outputs that are
not in the list are not touched. -/
theorem bindOutputs_spec {entries : List (String × NodeId)} (sound : binding.Sound)
    (distinct : entries.Pairwise fun left right => left.1 ≠ right.1)
    (unfold : ∀ entry ∈ entries, ∃ tree, binding.pool.tree? entry.2 = some tree) :
    ∃ after, bindOutputs entries binding = .ok () after ∧ after.Sound ∧ binding.Extends after ∧
      (∀ entry ∈ entries, ∀ tree, binding.pool.tree? entry.2 = some tree →
        ∃ attributes uniforms result,
          after.stages.vertex.outputs.get? entry.1 = some result ∧
            after.Bound tree attributes uniforms result) ∧
      ∀ name, (∀ entry ∈ entries, entry.1 ≠ name) →
        after.stages.vertex.outputs.get? name = binding.stages.vertex.outputs.get? name := by
  induction entries generalizing binding with
  | nil =>
      exact ⟨binding, rfl, sound, (Declares.refl binding).toExtends, nofun, fun _ _ => rfl⟩
  | cons first rest ih =>
      obtain ⟨name, expr⟩ := first
      obtain ⟨apart, distinctRest⟩ := List.pairwise_cons.mp distinct
      obtain ⟨tree, unfolded⟩ := unfold (name, expr) List.mem_cons_self
      obtain ⟨attributes, uniforms, result, lifted, ranFirst, soundLifted, declares, bound⟩ :=
        bindOutput_spec sound unfolded
      obtain ⟨written, ranWrite, soundWritten, extended, outputsEq⟩ :=
        soundLifted.setOutput name result
      have extendedFirst := declares.toExtends.trans extended
      have keepsTree : ∀ {id tree}, binding.pool.tree? id = some tree →
          written.pool.tree? id = some tree :=
        extendedFirst.pool.tree?_eq sound.wellFormed soundWritten.wellFormed
      obtain ⟨after, ran, soundAfter, extendedRest, boundRest, untouched⟩ :=
        ih soundWritten distinctRest fun entry member => by
          obtain ⟨other, otherTree⟩ := unfold entry (List.mem_cons_of_mem _ member)
          exact ⟨other, keepsTree otherTree⟩
      refine ⟨after, ?_, soundAfter, extendedFirst.trans extendedRest, ?_, ?_⟩
      · rw [bindOutputs, bind_of_ok ranFirst, bind_of_ok ranWrite, ran]
      · intro entry member other otherTree
        rcases List.mem_cons.mp member with rfl | later
        · rw [unfolded] at otherTree
          cases otherTree
          refine ⟨attributes, uniforms, result, ?_,
            bound.extend soundLifted soundAfter (extended.trans extendedRest)⟩
          -- The names are distinct, so no later output is written over this one.
          rw [untouched name fun other isOther => (apart other isOther).symm, outputsEq,
            Table.get?_insert_self]
        · exact boundRest entry later other (keepsTree otherTree)
      · intro other absent
        have different : other ≠ name := (absent (name, expr) List.mem_cons_self).symm
        rw [untouched other fun entry member => absent entry (List.mem_cons_of_mem _ member),
          outputsEq, Table.get?_insert_of_ne _ _ different, declares.outputs]

end VertexBinding

end Shading
