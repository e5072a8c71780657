import Shading.Proofs.Effect.Filling
import Shading.Proofs.Interpretation.Transparency

/-!
# Source texts of outlines

The source text of a program is determined by its outline (`Glsl.source`): texts of expressions
are those of their trees, and everything else is in the outline already. An emitter gives this text
for every program that fills the outline, from every cache that is right for the pool
(`Glsl.answers_emit`). So the answer of building an effect is a function of its trees and the
options (`Effect.answerOf_build`), and it does not depend on the history of the pool
(`Effect.build_structural`).
-/

namespace Shading

section Answers

variable {α β σ : Type} {good : σ → Prop} {operation : EStateM Error σ α}
  {next : α → EStateM Error σ β} {answer : Except Error α} {later : α → Except Error β}

/-- From every state that has a property the operation gives one answer, and it keeps the
property. -/
structure Answers (good : σ → Prop) (operation : EStateM Error σ α) (answer : Except Error α) :
    Prop where
  keeps : ∀ state, good state → good (stateLeftBy operation state)
  gives : ∀ state, good state → answerOf operation state = answer

namespace Answers

/-- An operation with one answer from all good states is transparent. -/
theorem transparent (answers : Answers good operation answer) : Transparent good True operation :=
  ⟨answers.keeps, fun _ => ⟨answer, answers.gives⟩⟩

theorem pure (good : σ → Prop) (result : α) : Answers good (Pure.pure result) (.ok result) :=
  ⟨fun _ isGood => isGood, fun _ _ => rfl⟩

/-- The answers of a sequence, from those of its parts. -/
theorem bind (first : Answers good operation answer)
    (rest : ∀ result, Answers good (next result) (later result)) :
    Answers good (operation >>= next) (answer >>= later) where
  keeps := (first.transparent.bind fun result => (rest result).transparent).keeps
  gives state isGood := by
    have given := first.gives state isGood
    cases answer with
    | error cause =>
        obtain ⟨middle, ran⟩ := answerOf_eq_error given
        rw [answerOf, bind_of_error ran]
        rfl
    | ok result =>
        obtain ⟨middle, ran⟩ := answerOf_eq_ok given
        have kept := first.keeps state isGood
        rw [stateLeftBy_of_ok ran] at kept
        rw [answerOf, bind_of_ok ran]
        exact (rest result).gives middle kept

end Answers

end Answers

/-- The results in the cache, if it belongs to the pool, are right. -/
def Cache.Serves {α : Type} (interpretation : Interpretation α) (pool : Pool) (cache : Cache α) :
    Prop :=
  (cache.attach pool.session).Holds interpretation pool

/-- An empty cache has no wrong results. -/
theorem Cache.serves_empty {α : Type} (interpretation : Interpretation α) (pool : Pool) :
    (empty : Cache α).Serves interpretation pool :=
  holds_attach_empty interpretation pool

variable {pool : Pool} {tree : Tree} {root : NodeId}

/-- From caches that are right for a pool the answer of a run is one and the same. -/
theorem Interpretation.transparent_run {α : Type} (interpretation : Interpretation α)
    (wf : pool.WellFormed) (root : NodeId) :
    Transparent (Cache.Serves interpretation pool) (pool.contains root = true)
      (interpretation.run pool root) where
  keeps cache serves := by
    obtain ⟨keeps, holds, -⟩ := run_spec wf serves root
    have owned : (stateLeftBy (interpretation.run pool root) cache).owner = some pool.session :=
      keeps.owner.trans (cache.owner_attach pool.session)
    rwa [Cache.Serves, Cache.attach, if_pos owned]
  fixed present := by
    refine ⟨pool.interpret interpretation root, fun cache serves => ?_⟩
    obtain ⟨-, -, answered⟩ := run_spec wf serves root
    exact answered present

/-- A run on an expression answers what its tree does. -/
theorem Interpretation.answers_run {α : Type} (interpretation : Interpretation α)
    (wf : pool.WellFormed) (unfolded : pool.tree? root = some tree) :
    Answers (Cache.Serves interpretation pool) (interpretation.run pool root)
      ((tree.interpret interpretation).map Operand.value) where
  keeps := (interpretation.transparent_run wf root).keeps
  gives cache serves := by
    obtain ⟨-, -, answered⟩ := run_spec wf serves root
    rw [answered (wf.contains_of_tree? unfolded), Pool.interpret, unfolded]

/-! ### Texts of outlines -/

namespace Glsl

/-- The lines of the outputs that are not built-in, by their trees. -/
def treeLines (options : EmitOptions) (stage : Stage) :
    List (String × Tree) → Except Error SourceLines
  | [] => return {}
  | (name, tree) :: rest => do
    if (options.builtin? stage).any (·.output == name) then
      treeLines options stage rest
    else
      let text ← tree.interpret textual
      let lines ← treeLines options stage rest
      return (SourceLines.ofOutput options.dialect stage text.type name text.value).append lines

/-- The built-in variable of an outline with the tree that is written to it. -/
def builtinTree (options : EmitOptions) (outline : Outline) :
    Except Error (Option (Builtin × Tree)) :=
  match options.builtin? outline.stage with
  | none => .ok none
  | some builtin =>
    match outline.outputs.get? builtin.output with
    | some tree => .ok (some (builtin, tree))
    | none => .error (.missingReservedOutput outline.stage builtin.output)

/-- The assignment of the built-in variable, by its tree. -/
def builtinTreeLines : Option (Builtin × Tree) → Except Error SourceLines
  | none => return {}
  | some (builtin, tree) => do
    let text ← tree.interpret textual
    return { body := [builtin.target ++ " = " ++ text.value ++ ";"] }

/-- A program of the interface of an outline, without outputs. -/
def interfaceOf (outline : Outline) : Program where
  stage := outline.stage
  inputs := outline.inputs
  uniforms := outline.uniforms

/-- The source text of an outline. -/
def source (options : EmitOptions) (outline : Outline) : Except Error String := do
  let builtin ← builtinTree options outline
  let outputs ← treeLines options outline.stage outline.outputs.entries
  let last ← builtinTreeLines builtin
  let interfaces : SourceLines :=
    { declarations := interfaceLines options.dialect (interfaceOf outline) }
  return ((interfaces.append outputs).append last).render options

variable {program : Program} {outline : Outline}

/-- The lines of outputs are those of their trees, whatever is in the cache. -/
theorem answers_outputLines (wf : pool.WellFormed) (options : EmitOptions) (stage : Stage)
    {entries : List (String × NodeId)} {trees : List (String × Tree)}
    (unfold : mapNamed pool.tree? entries = some trees) :
    Answers (Cache.Serves textual pool) (outputLines options pool stage entries)
      (treeLines options stage trees) := by
  induction entries generalizing trees with
  | nil =>
      cases unfold
      exact .pure _ _
  | cons first rest ih =>
      obtain ⟨name, expr⟩ := first
      obtain ⟨tree, unfolded, later⟩ := Option.bind_eq_some_iff.mp unfold
      obtain ⟨trees, unfoldRest, rfl⟩ := Option.map_eq_some_iff.mp later
      rw [outputLines, treeLines]
      split
      · exact ih unfoldRest
      · obtain ⟨type, typeEq, typed⟩ := wf.exists_type? unfolded
        rw [Pool.typeOf_eq_ok_iff.mpr typed]
        have answers := (textual.answers_run wf unfolded).bind fun text =>
          (ih unfoldRest).bind fun lines => Answers.pure (Cache.Serves textual pool)
            ((SourceLines.ofOutput options.dialect stage type name text).append lines)
        -- The type that a text comes with is the type of the expression.
        cases interpreted : tree.interpret textual with
        | error cause =>
            rw [interpreted] at answers
            exact answers
        | ok text =>
            have sameType := Tree.type?_of_interpret interpreted
            rw [typeEq] at sameType
            cases sameType
            rw [interpreted] at answers
            exact answers

/-- A built-in variable is written by an expression of a tree, or there is none. -/
abbrev SameBuiltin (pool : Pool) : Option (Builtin × NodeId) → Option (Builtin × Tree) → Prop :=
  Option.Rel fun output outputTree =>
    output.1 = outputTree.1 ∧ pool.tree? output.2 = some outputTree.2

/-- A program and its outline agree on the built-in output, or on the cause of its absence. -/
theorem builtinOutput_of_fills (fills : pool.Fills program outline) (options : EmitOptions) :
    (∃ cause, builtinOutput options program = .error cause ∧
        builtinTree options outline = .error cause) ∨
      ∃ found foundTree, builtinOutput options program = .ok found ∧
        builtinTree options outline = .ok foundTree ∧ SameBuiltin pool found foundTree := by
  unfold builtinOutput builtinTree
  rw [fills.stage]
  cases options.builtin? outline.stage with
  | none => exact Or.inr ⟨none, none, rfl, rfl, .none⟩
  | some builtin =>
      dsimp only
      have related := fills.outputs.get?_rel builtin.output
      generalize program.outputs.get? builtin.output = expr at related ⊢
      generalize outline.outputs.get? builtin.output = tree at related ⊢
      cases related with
      | none => exact Or.inl ⟨_, rfl, rfl⟩
      | some unfolded => exact Or.inr ⟨_, _, rfl, rfl, .some ⟨rfl, unfolded⟩⟩

/-- The lines of a built-in output are those of its tree, whatever is in the cache. -/
theorem answers_builtinLines (wf : pool.WellFormed) {found : Option (Builtin × NodeId)}
    {foundTree : Option (Builtin × Tree)} (same : SameBuiltin pool found foundTree) :
    Answers (Cache.Serves textual pool) (builtinLines pool found)
      (builtinTreeLines foundTree) := by
  cases same with
  | none => exact .pure _ _
  | some isOutput =>
      rename_i output outputTree
      obtain ⟨builtin, expr⟩ := output
      obtain ⟨_, tree⟩ := outputTree
      obtain ⟨rfl, unfolded⟩ := isOutput
      have answers := (textual.answers_run wf unfolded).bind fun text =>
        Answers.pure (Cache.Serves textual pool)
          ({ body := [builtin.target ++ " = " ++ text ++ ";"] } : SourceLines)
      rw [builtinTreeLines]
      cases interpreted : tree.interpret textual with
      | error cause =>
          rw [interpreted] at answers
          exact answers
      | ok text =>
          rw [interpreted] at answers
          exact answers

/-- A program that fills an outline has the source text of the outline. -/
theorem answers_emit (wf : pool.WellFormed) (fills : pool.Fills program outline)
    (options : EmitOptions) :
    Answers (Cache.Serves textual pool) (emit options pool program) (source options outline) := by
  have sameInterface : interfaceLines options.dialect program =
      interfaceLines options.dialect (interfaceOf outline) := by
    rw [interfaceLines, fills.stage, fills.inputs, fills.uniforms]
    rfl
  unfold emit source
  rw [sameInterface, fills.stage]
  rcases builtinOutput_of_fills fills options with
    ⟨cause, failed, failedTree⟩ | ⟨found, foundTree, isFound, isTree, same⟩
  · rw [failed, failedTree]
    exact ⟨fun _ serves => serves, fun _ _ => rfl⟩
  · rw [isFound, isTree]
    exact (answers_outputLines wf options outline.stage fills.outputs).bind fun outputs =>
      (answers_builtinLines wf same).bind fun last => .pure _ _

end Glsl

/-! ### Building -/

namespace EffectTrees

/-- The source texts of both stages of an effect. -/
def sources (trees : EffectTrees) (options : Glsl.EmitOptions) :
    Except Error (String × String) := do
  let vertexSource ← Glsl.source options (trees.vertexOutline options.reserved)
  let fragmentSource ← Glsl.source options (trees.fragmentOutline options.reserved)
  return (vertexSource, fragmentSource)

end EffectTrees

/-- Stages that fill the outlines of an effect have its source texts. -/
theorem Stages.sources_of_fills {stages : Stages} {trees : EffectTrees}
    {options : Glsl.EmitOptions} (wf : pool.WellFormed)
    (vertex : pool.Fills stages.vertex (trees.vertexOutline options.reserved))
    (fragment : pool.Fills stages.fragment (trees.fragmentOutline options.reserved)) :
    stages.sources options pool = trees.sources options := by
  have answers := (Glsl.answers_emit wf vertex options).bind fun vertexSource =>
    (Glsl.answers_emit wf fragment options).bind fun fragmentSource =>
      Answers.pure (Cache.Serves Glsl.textual pool) (vertexSource, fragmentSource)
  have given := answers.gives .empty (Cache.serves_empty _ pool)
  unfold answerOf at given
  unfold Stages.sources
  dsimp only
  split at given
  next ran =>
    rw [ran]
    exact given
  next ran =>
    rw [ran]
    exact given

/-- A program that fills an outline can be put into the pool. -/
theorem Pool.Fills.makes_shader {program : Program} {outline : Outline}
    (fills : pool.Fills program outline) (wf : pool.WellFormed) :
    ∃ id after, Pool.shader program pool = .ok id after ∧ after.WellFormed ∧ pool.Grows after ∧
      after.program id = .ok program := by
  have exprs : ∀ expr ∈ program.outputs.values, (pool.type? expr).isSome := by
    intro expr member
    obtain ⟨output, isOutput, rfl⟩ := List.mem_map.mp member
    obtain ⟨outputTree, -, -, unfolded⟩ :=
      (mapNamed_eq_some_iff.mp fills.outputs).exists_of_mem_left isOutput
    obtain ⟨type, -, typed⟩ := wf.exists_type? unfolded
    exact Option.isSome_of_eq_some typed
  obtain ⟨id, after, ran, wfAfter, grows, present⟩ :=
    wf.makes_shader (Pool.checkExprs_of_type? exprs)
  refine ⟨id, after, ran, wfAfter, grows, Pool.program_eq_ok_iff.mpr ?_⟩
  exact Pool.node?_eq_some_iff.mpr ⟨none, present⟩

/-- The source texts of a built effect. -/
def BuiltEffect.sources (built : BuiltEffect) : String × String :=
  (built.vertexSource, built.fragmentSource)

namespace Effect

variable {effect : Effect} {trees : EffectTrees}

/-- Building puts programs into the pool that fill the outlines of the trees of the effect, and
answers the source texts of the trees. -/
theorem build_spec (wf : pool.WellFormed) (depicts : pool.Depicts effect trees)
    (options : Glsl.EmitOptions) :
    ∃ vertex fragment after vertexProgram fragmentProgram, after.WellFormed ∧
      after.program vertex = .ok vertexProgram ∧ after.program fragment = .ok fragmentProgram ∧
      after.Fills vertexProgram (trees.vertexOutline options.reserved) ∧
      after.Fills fragmentProgram (trees.fragmentOutline options.reserved) ∧
      effect.build options pool =
        match trees.sources options with
        | .ok sources => .ok ⟨vertex, fragment, sources.1, sources.2⟩ after
        | .error cause => .error cause after := by
  obtain ⟨stages, middle, ranSplit, -, binding, bound, -, follows, vertexFills, fragmentFills⟩ :=
    stages_fill wf depicts options.reserved
  have wfBinding := follows.sound.wellFormed
  have ranStages : effect.boundStages options.reserved pool = .ok binding.stages binding.pool := by
    rw [boundStages, ranSplit]
    dsimp only
    rw [bound]
  obtain ⟨vertex, first, ranVertex, wfFirst, growsFirst, isVertex⟩ :=
    vertexFills.makes_shader wfBinding
  obtain ⟨fragment, after, ranFragment, wfAfter, growsAfter, isFragment⟩ :=
    (fragmentFills.grow wfBinding wfFirst growsFirst).makes_shader wfFirst
  have grows := growsFirst.trans growsAfter
  have vertexAfter := vertexFills.grow wfBinding wfAfter grows
  have fragmentAfter := fragmentFills.grow wfBinding wfAfter grows
  have isVertexAfter : after.program vertex = .ok binding.stages.vertex :=
    Pool.program_eq_ok_iff.mpr (growsAfter.node?_eq (Pool.program_eq_ok_iff.mp isVertex))
  refine ⟨vertex, fragment, after, _, _, wfAfter, isVertexAfter, isFragment, vertexAfter,
    fragmentAfter, ?_⟩
  have texts := Stages.sources_of_fills wfAfter vertexAfter fragmentAfter
  rw [build, bind_of_ok ranStages, bind_of_ok ranVertex, bind_of_ok ranFragment]
  cases answer : trees.sources options with
  | error cause =>
      rw [bind_of_error (Pool.query_of_error (texts.trans answer))]
  | ok sources =>
      rw [bind_of_ok (Pool.query_of_ok (texts.trans answer))]
      rfl

/-- Building answers the source texts of the trees of the effect. -/
theorem answerOf_build (wf : pool.WellFormed) (depicts : pool.Depicts effect trees)
    (options : Glsl.EmitOptions) :
    (answerOf (effect.build options) pool).map BuiltEffect.sources = trees.sources options := by
  obtain ⟨vertex, fragment, after, -, -, -, -, -, -, -, built⟩ := build_spec wf depicts options
  rw [answerOf, built]
  cases trees.sources options with
  | error cause => rfl
  | ok sources => rfl

/-- Effects of the same trees are built with the same source texts or fail for the same cause,
whatever else their pools hold and in whatever order they were filled. -/
theorem build_structural {otherPool : Pool} {other : Effect} (reachable : pool.Reachable)
    (otherReachable : otherPool.Reachable) {positionType colorType : ValueType}
    (position : pool.typeOf effect.position = .ok positionType)
    (color : pool.typeOf effect.color = .ok colorType)
    (samePosition : otherPool.tree? other.position = pool.tree? effect.position)
    (sameColor : otherPool.tree? other.color = pool.tree? effect.color)
    (options : Glsl.EmitOptions) :
    (answerOf (effect.build options) pool).map BuiltEffect.sources =
      (answerOf (other.build options) otherPool).map BuiltEffect.sources := by
  have wf := reachable.wellFormed
  obtain ⟨trees, depicts⟩ := wf.exists_depicts position color
  have otherDepicts : otherPool.Depicts other trees :=
    ⟨samePosition.trans depicts.position, sameColor.trans depicts.color⟩
  rw [answerOf_build wf depicts options,
    answerOf_build otherReachable.wellFormed otherDepicts options]

/-- A pool with an effect whose stages share a uniform. The position is 5, which the color 10 uses
as a varying, and an attribute is also used inside another uniform. -/
def sharedUniform : Pool :=
  (Pool.empty 0).afterCalls
    [.var .float "x", .var .float "y", .qualify .attr 0, .qualify .uniform 1, .binary 2 .mul 3,
      .qualify .fragment 4, .qualify .uniform 2, .binary 5 .add 3,
      .constant .float [⟨0x3FE0000000000000⟩], .binary 6 .mul 8, .binary 7 .sub 9]

/-- A pool with the same effect under other identities, made in another order after a collection:
the position is 9 and the color 11. -/
def sharedUniformAgain : Pool :=
  (Pool.empty 1).afterCalls
    [.var .vec2 "z", .constant .float [⟨0x3FE0000000000000⟩], .var .float "y", .qualify .uniform 2,
      .var .float "x", .mark 1, .mark 3, .mark 4, .sweep, .qualify .attr 4, .qualify .uniform 5,
      .binary 6 .mul 1, .binary 5 .mul 3, .qualify .fragment 8, .binary 9 .add 3,
      .binary 10 .sub 7]

/-- The same effect under other identities has the same sources. -/
theorem build_structural_sharedUniform :
    sharedUniformAgain.tree? 9 = sharedUniform.tree? 5 ∧
      sharedUniformAgain.tree? 11 = sharedUniform.tree? 10 ∧
      sharedUniform.typeOf 5 = .ok .float ∧ sharedUniform.typeOf 10 = .ok .float ∧
      (answerOf (build ⟨5, 10⟩ {}) sharedUniform).map BuiltEffect.sources =
        (answerOf (build ⟨9, 11⟩ {}) sharedUniformAgain).map BuiltEffect.sources := by
  have samePosition : sharedUniformAgain.tree? 9 = sharedUniform.tree? 5 := by decide +kernel
  have sameColor : sharedUniformAgain.tree? 11 = sharedUniform.tree? 10 := by decide +kernel
  have position : sharedUniform.typeOf 5 = .ok .float := by decide +kernel
  have color : sharedUniform.typeOf 10 = .ok .float := by decide +kernel
  have reachable : sharedUniform.Reachable := ⟨0, _, rfl⟩
  have reachableAgain : sharedUniformAgain.Reachable := ⟨1, _, rfl⟩
  exact ⟨samePosition, sameColor, position, color,
    build_structural reachable reachableAgain position color samePosition sameColor {}⟩

end Effect

end Shading
