import Shading.Proofs.Effect.Names
import Shading.Proofs.Pool.Substitution
import Shading.Proofs.Table

/-!
# The stages of a split effect

Moving expressions out of a color is an extraction of their trees. The stages keep what was moved
in their tables: the outputs of the vertex stage, the bindings and the names of uniforms are tables
of lists of moved expressions (`Effect.assembled`). What a split does to the tree of the color is
said by `Effect.split_spec`; what is in the tables of stages is said by `Effect.split_ok`, whatever
the color is.
-/

namespace Shading

variable {pool after : Pool} {tree : Tree} {stages : Stages}

/-- What is inside a node is asked with success exactly for qualified expressions. -/
theorem Pool.unwrap_eq_ok_iff {id inner : NodeId} :
    pool.unwrap id = .ok inner ↔ ∃ kind, pool.node? id = some (.qualified kind inner) := by
  unfold Pool.unwrap
  constructor
  · intro unwrapped
    split at unwrapped
    next => cases unwrapped
    next kind found node =>
      cases unwrapped
      exact ⟨kind, Pool.node_eq_ok_iff.mp node⟩
    next => cases unwrapped
  · rintro ⟨kind, found⟩
    rw [Pool.node_eq_ok_iff.mpr found]

/-- Expressions were moved under given names, each with its type and what is inside it. -/
structure Pool.Records (pool : Pool) (ids : List NodeId) (names : List String)
    (moved : List Moved) : Prop where
  qualified : moved.map Moved.qualified = ids
  name : moved.map Moved.name = names
  inner : ∀ item ∈ moved, ∃ kind, pool.node? item.qualified = some (.qualified kind item.inner)
  typed : ∀ item ∈ moved, pool.type? item.qualified = some item.type

/-- What was moved stays known when the pool grows. -/
theorem Pool.Records.grow {ids : List NodeId} {names : List String} {moved : List Moved}
    (records : pool.Records ids names moved) (grows : pool.Grows after) :
    after.Records ids names moved where
  qualified := records.qualified
  name := records.name
  inner item member := by
    obtain ⟨kind, found⟩ := records.inner item member
    exact ⟨kind, grows.node?_eq found⟩
  typed item member := grows.type?_eq (records.typed item member)

/-- What was kept of a tree that was moved: the tree is qualified, and the expression that has it,
its type and what is inside are known. -/
structure Pool.MovedFrom (pool : Pool) (target : Tree) (item : Moved) : Prop where
  type : target.type? = some item.type
  qualified : pool.tree? item.qualified = some target
  inner : ∃ kind inner, target = .qualified kind inner ∧ pool.tree? item.inner = some inner

/-- Trees were moved under names that count up from zero. -/
def Pool.Moves (pool : Pool) (nameOf : Nat → String) (targets : List Tree)
    (moved : List Moved) : Prop :=
  moved.map Moved.name = (List.range targets.length).map nameOf ∧
    List.Forall₂ pool.MovedFrom targets moved

/-- Expressions moved under names that count up are trees moved so. -/
theorem Pool.Records.moves {ids : List NodeId} {nameOf : Nat → String} {moved : List Moved}
    {targets : List Tree}
    (records : pool.Records ids ((List.range ids.length).map nameOf) moved)
    (wf : pool.WellFormed) (unfolds : pool.Unfolds ids targets) :
    pool.Moves nameOf targets moved := by
  refine ⟨by rw [records.name, unfolds.length_eq], ?_⟩
  rw [← records.qualified, Pool.Unfolds, List.forall₂_map_left_iff] at unfolds
  apply List.Forall₂.flip
  apply ((List.forall₂_and_left moved targets).mpr ⟨fun _ member => member, unfolds⟩).imp
  rintro item target ⟨member, unfolded⟩
  refine ⟨(wf.type?_of_tree? unfolded).symm.trans (records.typed item member), unfolded, ?_⟩
  obtain ⟨kind, found⟩ := records.inner item member
  cases wf.shows found unfolded with
  | qualified kind below => exact ⟨kind, _, rfl, below⟩

/-- Trees that were moved stay known when the pool grows. -/
theorem Pool.Moves.grow {nameOf : Nat → String} {targets : List Tree} {moved : List Moved}
    (moves : pool.Moves nameOf targets moved) (wf : pool.WellFormed) (wfAfter : after.WellFormed)
    (grows : pool.Grows after) : after.Moves nameOf targets moved := by
  refine ⟨moves.1, moves.2.imp ?_⟩
  rintro target item ⟨typeEq, unfolded, kind, inner, eq, innerTree⟩
  exact ⟨typeEq, grows.tree?_eq wf wfAfter unfolded, kind, inner, eq,
    grows.tree?_eq wf wfAfter innerTree⟩

namespace Tree

/-- What is left when the listed trees of a qualifier are taken out under names that count up. -/
def withoutAll (tree : Tree) (kind : Qualifier) (nameOf : Nat → String) : Tree :=
  tree.extract (tree.listed kind) ((List.range (tree.listed kind).length).map nameOf)

/-- There is a name for every listed tree. -/
theorem enough_names (tree : Tree) (kind : Qualifier) (nameOf : Nat → String) :
    (tree.listed kind).length ≤ ((List.range (tree.listed kind).length).map nameOf).length := by
  simp

/-- What is left when the varyings are taken out. -/
def withoutVaryings (tree : Tree) : Tree :=
  tree.withoutAll .fragment varyingName

/-- What is left when the uniforms are taken out. -/
def withoutUniforms (tree : Tree) : Tree :=
  tree.withoutAll .uniform uniformName

end Tree

namespace Effect

variable {effect : Effect} {reserved : Glsl.ReservedNames} {nameOf : Nat → String}
  {move : Stages → Moved → Stages} {ids : List NodeId} {color left : NodeId}

/-- Moving expressions keeps pools well-formed. -/
theorem keeps_moveAll (nameOf : Nat → String) (move : Stages → Moved → Stages)
    (ids : List NodeId) (number : Nat) (stages : Stages) (color : NodeId) :
    Pool.Keeps (moveAll nameOf move ids number stages color) := by
  induction ids generalizing number stages color with
  | nil => exact Pool.keeps_pure _
  | cons qualified rest ih =>
      refine (Pool.keeps_query _).bind fun type => (Pool.keeps_query _).bind fun inner => ?_
      apply (Pool.keeps_var _ _).bind
      intro reference
      exact (Pool.keeps_substitute _ _ _).bind fun color => ih _ _ _

/-- Splitting keeps pools well-formed, also when it fails on the way. -/
theorem keeps_split (effect : Effect) (reserved : Glsl.ReservedNames) :
    Pool.Keeps (effect.split reserved) := by
  refine (Pool.keeps_query _).bind fun varyings => (keeps_moveAll _ _ _ _ _ _).bind fun first => ?_
  refine (Pool.keeps_query _).bind fun uniforms => (keeps_moveAll _ _ _ _ _ _).bind fun second => ?_
  exact Pool.keeps_pure _

/-! ### Moving expressions -/

/-- Moving succeeds in a color with a tree and extracts the trees of what is moved. -/
theorem moveAll_extracts {targets : List Tree} {kind : Qualifier} (wf : pool.WellFormed)
    (unfolded : pool.tree? color = some tree) (unfolds : pool.Unfolds ids targets)
    (qualified : ∀ target ∈ targets, target.qualifier? = some kind)
    (number : Nat) (stages : Stages) :
    ∃ result left after, moveAll nameOf move ids number stages color pool =
        .ok (result, left) after ∧ after.WellFormed ∧ pool.Grows after ∧
      after.tree? left =
        some (tree.extract targets ((List.range' number targets.length).map nameOf)) := by
  induction ids generalizing targets tree color pool number stages with
  | nil =>
      cases unfolds
      exact ⟨stages, color, pool, rfl, wf, Pool.Grows.refl pool, unfolded⟩
  | cons id rest ih =>
      cases unfolds with
      | cons isTarget later =>
          rename_i target targets
          obtain ⟨type, typeEq, typed⟩ := wf.exists_type? isTarget
          obtain ⟨innerTree, rfl⟩ :=
            Tree.eq_qualified_of_qualifier? (qualified target List.mem_cons_self)
          obtain ⟨inner, found, -⟩ := wf.exists_inner isTarget
          obtain ⟨reference, withVar, next, middle, ranVar, ranNext, wfMiddle, grows, nextTree⟩ :=
            wf.extract_step unfolded isTarget typeEq (nameOf number)
          obtain ⟨result, left, after, ran, wfAfter, growsAfter, leftTree⟩ :=
            ih wfMiddle nextTree (grows.unfolds wf wfMiddle later)
              (fun other member => qualified other (List.mem_cons_of_mem _ member)) (number + 1)
              (move stages ⟨id, inner, nameOf number, type⟩)
          refine ⟨result, left, after, ?_, wfAfter, grows.trans growsAfter, leftTree⟩
          rw [moveAll, bind_of_ok (Pool.query_of_ok (Pool.typeOf_eq_ok_iff.mpr typed)),
            bind_of_ok (Pool.query_of_ok (Pool.unwrap_eq_ok_iff.mpr ⟨kind, found⟩)),
            bind_of_ok ranVar, bind_of_ok ranNext, ran]

/-- The stages after moving have everything that was moved. -/
theorem moveAll_records {number : Nat} {stages result : Stages} (wf : pool.WellFormed)
    (ran : moveAll nameOf move ids number stages color pool = .ok (result, left) after) :
    ∃ moved, result = moved.foldl move stages ∧
      after.Records ids ((List.range' number ids.length).map nameOf) moved := by
  induction ids generalizing pool number stages color with
  | nil =>
      cases ran
      exact ⟨[], rfl, rfl, rfl, nofun, nofun⟩
  | cons id rest ih =>
      obtain ⟨type, _, asked, ranInner⟩ := exists_of_bind_ok ran
      obtain ⟨typed, rfl⟩ := Pool.query_eq_ok asked
      obtain ⟨inner, _, askedInner, ranVar⟩ := exists_of_bind_ok ranInner
      obtain ⟨unwrapped, rfl⟩ := Pool.query_eq_ok askedInner
      obtain ⟨reference, withVar, madeVar, ranNext⟩ := exists_of_bind_ok ranVar
      obtain ⟨next, middle, substituted, ranRest⟩ := exists_of_bind_ok ranNext
      obtain ⟨wfVar, growsVar⟩ := (Pool.keeps_var _ _).of_ok wf madeVar
      obtain ⟨wfMiddle, growsMiddle⟩ := (Pool.keeps_substitute _ _ _).of_ok wfVar substituted
      obtain ⟨-, growsAfter⟩ := (keeps_moveAll _ _ _ _ _ _).of_ok wfMiddle ranRest
      obtain ⟨moved, rfl, records⟩ := ih wfMiddle ranRest
      obtain ⟨kind, found⟩ := Pool.unwrap_eq_ok_iff.mp unwrapped
      have grows := (growsVar.trans growsMiddle).trans growsAfter
      refine ⟨⟨id, inner, nameOf number, type⟩ :: moved, rfl, ?_, ?_, ?_, ?_⟩
      · rw [List.map_cons, records.qualified]
      · rw [List.map_cons, records.name]
        rfl
      · intro item member
        rcases List.mem_cons.mp member with rfl | later
        · exact ⟨kind, grows.node?_eq found⟩
        · exact records.inner item later
      · intro item member
        rcases List.mem_cons.mp member with rfl | later
        · exact grows.type?_eq (Pool.typeOf_eq_ok_iff.mp typed)
        · exact records.typed item later

/-! ### Splitting -/

/-- The stages with given moved expressions and what is left of the color. -/
def assembled (effect : Effect) (reserved : Glsl.ReservedNames) (varyings uniforms : List Moved)
    (left : NodeId) : Stages :=
  let stages := uniforms.foldl Stages.addUniform (varyings.foldl Stages.addVarying {})
  { stages with
    vertex := stages.vertex.setOutput reserved.position effect.position
    fragment := stages.fragment.setOutput reserved.color left }

/-- Varyings are added to both stages in their order. -/
theorem foldl_addVarying (moved : List Moved) (stages : Stages) :
    moved.foldl Stages.addVarying stages =
      { stages with
        vertex := { stages.vertex with
          outputs := (moved.map fun item => (item.name, item.inner)).foldl
            (fun table entry => table.insert entry.1 entry.2) stages.vertex.outputs }
        fragment := { stages.fragment with
          inputs := stages.fragment.inputs ++ moved.map fun item => ⟨item.name, item.type⟩ } } := by
  induction moved generalizing stages with
  | nil => simp
  | cons item rest ih =>
      rw [List.foldl_cons, ih]
      simp [Stages.addVarying, Program.setOutput, Program.addInput]

/-- Uniforms are added to the fragment stage in their order. -/
theorem foldl_addUniform (moved : List Moved) (stages : Stages) :
    moved.foldl Stages.addUniform stages =
      { stages with
        fragment := { stages.fragment with
          uniforms := stages.fragment.uniforms ++ moved.map fun item => ⟨item.name, item.type⟩ }
        bindings := (moved.map fun item => (item.name, item.inner)).foldl
          (fun table entry => table.insert entry.1 entry.2) stages.bindings
        uniformNames := (moved.map fun item => (item.qualified, item.name)).foldl
          (fun table entry => table.insert entry.1 entry.2) stages.uniformNames } := by
  induction moved generalizing stages with
  | nil => simp
  | cons item rest ih =>
      rw [List.foldl_cons, ih]
      simp [Stages.addUniform, Program.addUniform]

section Assembled

variable {varyings uniforms : List Moved}

/-- The assembled stages, written out. -/
theorem assembled_eq :
    effect.assembled reserved varyings uniforms left =
      { vertex :=
          { stage := .vertex
            outputs := (Table.ofList (varyings.map fun item => (item.name, item.inner))).insert
              reserved.position effect.position }
        fragment :=
          { stage := .fragment
            inputs := varyings.map fun item => ⟨item.name, item.type⟩
            uniforms := uniforms.map fun item => ⟨item.name, item.type⟩
            outputs := Table.empty.insert reserved.color left }
        bindings := Table.ofList (uniforms.map fun item => (item.name, item.inner))
        uniformNames := Table.ofList (uniforms.map fun item => (item.qualified, item.name)) } := by
  unfold assembled
  rw [foldl_addUniform, foldl_addVarying]
  rfl

/-- The vertex outputs are the varyings and the position. -/
theorem outputs_assembled :
    (effect.assembled reserved varyings uniforms left).vertex.outputs =
      (Table.ofList (varyings.map fun item => (item.name, item.inner))).insert reserved.position
        effect.position := by
  rw [assembled_eq]

/-- What is bound is what is inside the uniforms. -/
theorem bindings_assembled :
    (effect.assembled reserved varyings uniforms left).bindings =
      Table.ofList (uniforms.map fun item => (item.name, item.inner)) := by
  rw [assembled_eq]

/-- The uniforms have their names. -/
theorem uniformNames_assembled :
    (effect.assembled reserved varyings uniforms left).uniformNames =
      Table.ofList (uniforms.map fun item => (item.qualified, item.name)) := by
  rw [assembled_eq]

/-- What is left of the color is the output of the fragment stage. -/
theorem color_assembled :
    (effect.assembled reserved varyings uniforms left).fragment.outputs.get? reserved.color =
      some left :=
  Table.get?_insert_self _ _ _

end Assembled

/-- The stages of a split are made of what was moved out of the color. -/
theorem split_ok (wf : pool.WellFormed) (ran : effect.split reserved pool = .ok stages after) :
    ∃ varyings uniforms movedVaryings movedUniforms left,
      stages = effect.assembled reserved movedVaryings movedUniforms left ∧
      after.Records varyings ((List.range varyings.length).map varyingName) movedVaryings ∧
      uniforms.Nodup ∧
      after.Records uniforms ((List.range uniforms.length).map uniformName) movedUniforms := by
  obtain ⟨varyings, _, asked, ranVaryings⟩ := exists_of_bind_ok ran
  obtain ⟨-, rfl⟩ := Pool.query_eq_ok asked
  obtain ⟨⟨first, color⟩, middle, moved, ranUniforms⟩ := exists_of_bind_ok ranVaryings
  obtain ⟨uniforms, _, askedUniforms, ranRest⟩ := exists_of_bind_ok ranUniforms
  obtain ⟨collected, rfl⟩ := Pool.query_eq_ok askedUniforms
  obtain ⟨⟨second, left⟩, last, movedAgain, done⟩ := exists_of_bind_ok ranRest
  cases done
  obtain ⟨wfMiddle, -⟩ := (keeps_moveAll _ _ _ _ _ _).of_ok wf moved
  obtain ⟨-, growsLast⟩ := (keeps_moveAll _ _ _ _ _ _).of_ok wfMiddle movedAgain
  obtain ⟨movedVaryings, rfl, records⟩ := moveAll_records wf moved
  obtain ⟨movedUniforms, rfl, recordsAgain⟩ := moveAll_records wfMiddle movedAgain
  rw [← List.range_eq_range'] at records recordsAgain
  exact ⟨varyings, uniforms, movedVaryings, movedUniforms, left, rfl, records.grow growsLast,
    (wfMiddle.of_qualifiedAs collected).2.1, recordsAgain⟩

/-- Moving everything of a qualifier that is collected leaves the color without it. -/
theorem moveAll_spec (wf : pool.WellFormed) (unfolded : pool.tree? color = some tree)
    (kind : Qualifier) (nameOf : Nat → String) (move : Stages → Moved → Stages)
    (stages : Stages) :
    ∃ ids moved left after, pool.qualifiedAs color kind = .ok ids ∧
      moveAll nameOf move ids 0 stages color pool = .ok (moved.foldl move stages, left) after ∧
      after.WellFormed ∧ pool.Grows after ∧
      after.tree? left = some (tree.withoutAll kind nameOf) ∧
      after.Moves nameOf (tree.listed kind) moved := by
  obtain ⟨ids, collected, unfolds⟩ := wf.qualifiedAs_spec unfolded kind
  obtain ⟨result, left, after, ran, wfAfter, grows, leftTree⟩ :=
    moveAll_extracts wf unfolded unfolds (fun _ => Tree.qualifier?_of_mem_listed) 0 stages
  obtain ⟨moved, rfl, records⟩ := moveAll_records wf ran
  rw [← List.range_eq_range'] at leftTree records
  exact ⟨ids, moved, left, after, collected, ran, wfAfter, grows, leftTree,
    records.moves wfAfter (grows.unfolds wf wfAfter unfolds)⟩

/-- A color with a tree is split: the varyings are taken out of the tree, and then the uniforms
out of what is left. -/
theorem split_spec (wf : pool.WellFormed) (unfolded : pool.tree? effect.color = some tree)
    (reserved : Glsl.ReservedNames) :
    ∃ varyings uniforms left after,
      effect.split reserved pool = .ok (effect.assembled reserved varyings uniforms left) after ∧
      after.WellFormed ∧ pool.Grows after ∧
      after.tree? left = some tree.withoutVaryings.withoutUniforms ∧
      after.Moves varyingName (tree.listed .fragment) varyings ∧
      after.Moves uniformName (tree.withoutVaryings.listed .uniform) uniforms := by
  obtain ⟨varyingIds, varyings, color, middle, collected, ran, wfMiddle, growsMiddle, colorTree,
    moves⟩ := moveAll_spec wf unfolded .fragment varyingName Stages.addVarying {}
  obtain ⟨uniformIds, uniforms, left, after, collectedAgain, ranAgain, wfAfter, growsAfter,
    leftTree, movesAgain⟩ := moveAll_spec wfMiddle colorTree .uniform uniformName
      Stages.addUniform (varyings.foldl Stages.addVarying {})
  refine ⟨varyings, uniforms, left, after, ?_, wfAfter, growsMiddle.trans growsAfter, leftTree,
    moves.grow wfMiddle wfAfter growsAfter, movesAgain⟩
  rw [split, bind_of_ok (Pool.query_of_ok collected), bind_of_ok ran]
  dsimp only
  rw [bind_of_ok (Pool.query_of_ok collectedAgain), bind_of_ok ranAgain]
  rfl

end Effect

end Shading
