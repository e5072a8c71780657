import Shading.Proofs.Effect.Interfaces
import Shading.Proofs.Effect.Qualifiers
import Shading.Proofs.Effect.Sources
import Shading.Proofs.Tree.Flatness

/-!
# Effects that can be built

Splitting and binding never fail on expressions of the pool, so an effect can be built whenever the
outputs of its stages have texts. A tree has a text if it is well-typed, has no qualifier and has
finite constants only (`Glsl.exists_text`). No qualifier is left in the outputs if the qualifiers of
the effect are flat and every attribute of the color is inside a varying or a uniform
(`Roster.ready_bound`, `Tree.ready_withoutUniforms`). The conditions are stated on the graph and
carried over to its trees.
-/

namespace Shading

/-! ### Trees with a text -/

namespace Tree

variable {tree small : Tree}

/-- A constant has as many components as its type, and all of them are finite. -/
def writable : Tree → Bool
  | constant type components =>
    components.length == type.length && components.all Binary64.isFinite
  | _ => true

/-- Every constant of the tree can be written. -/
def Printable (tree : Tree) : Prop :=
  ∀ small ∈ tree.subtrees, small.writable = true

instance : Decidable tree.Printable :=
  inferInstanceAs (Decidable (∀ small ∈ tree.subtrees, _))

/-- When a constant can be written. -/
theorem writable_constant {type : ValueType} {components : List Binary64} :
    (constant type components).writable = true ↔
      components.length = type.length ∧ ∀ number ∈ components, number.isFinite = true := by
  rw [writable, Bool.and_eq_true, beq_iff_eq, List.all_eq_true]

/-- A tree that is not a leaf is not a constant. -/
theorem writable_of_children (inside : tree.children ≠ []) : tree.writable = true := by
  cases tree with
  | constant _ _ => exact absurd rfl inside
  | var _ _ => rfl
  | unary _ _ => rfl
  | binary _ _ _ => rfl
  | qualified _ _ => rfl

namespace Printable

/-- The constants of a subtree can be written if those of the tree can. -/
theorem mono (printable : tree.Printable) (member : small ∈ tree.subtrees) : small.Printable :=
  fun smaller inside => printable smaller (mem_subtrees_trans inside member)

/-- Removing a qualifier brings in no constant. -/
theorem unwrap (printable : tree.Printable) (removed : Qualifier) :
    (tree.unwrap removed).Printable := by
  intro small member
  by_cases leaf : small.children = []
  · exact printable small (leaf_mem_subtrees_unwrap leaf member)
  · exact writable_of_children leaf

/-- A variable in the place of a tree brings in no constant. -/
theorem substitute (printable : tree.Printable) (target : Tree) (name : String) :
    (tree.substitute target (target.named name)).Printable := by
  intro small member
  by_cases leaf : small.children = []
  · rcases leaf_mem_subtrees_substitute leaf member with isNew | old
    · rw [List.mem_singleton.mp isNew]
      rfl
    · exact printable small old
  · exact writable_of_children leaf

/-- Taking out trees brings in no constant. -/
theorem extract {targets : List Tree} {names : List String} (printable : tree.Printable) :
    (tree.extract targets names).Printable :=
  extract_preserves (motive := Printable)
    (fun _ target name printable => printable.substitute target name) printable

end Printable

end Tree

namespace Glsl

variable {tree : Tree} {options : EmitOptions} {outline : Outline}

/-- A finite number has a literal. -/
theorem exists_literal {number : Binary64} (finite : number.isFinite = true) :
    ∃ text, literal number = .ok text := by
  rw [literal, Binary64.literal?, if_pos finite]
  exact ⟨_, rfl⟩

/-- Finite numbers have literals. -/
theorem exists_literals {components : List Binary64}
    (finite : ∀ number ∈ components, number.isFinite = true) :
    ∃ texts, components.mapM literal = .ok texts :=
  exists_mapM_ok fun number member => exists_literal (finite number member)

/-- A constant that can be written has a text. -/
theorem exists_constant {type : ValueType} {components : List Binary64}
    (writable : (Tree.constant type components).writable = true) :
    ∃ text, constant type components = .ok text := by
  obtain ⟨arity, finite⟩ := Tree.writable_constant.mp writable
  unfold constant
  split
  next =>
    cases components with
    | nil => cases type <;> cases arity
    | cons number rest => exact exists_literal (finite number List.mem_cons_self)
  next =>
    obtain ⟨texts, areTexts⟩ := exists_literals finite
    rw [areTexts]
    exact ⟨_, rfl⟩

/-- The tree is well-typed and has no qualifiers, and its constants can be written. -/
structure Ready (tree : Tree) : Prop where
  typed : tree.type?.isSome
  free : tree.Free [.attr, .fragment, .uniform]
  printable : tree.Printable

/-- The children of a tree that is ready are ready. -/
theorem Ready.child {child : Tree} (ready : Ready tree) (member : child ∈ tree.children) :
    Ready child := by
  have inside := Tree.mem_subtrees_of_child member child.self_mem_subtrees
  exact ⟨Tree.isSome_type?_of_mem_children ready.typed member, ready.free.mono inside,
    ready.printable.mono inside⟩

/-- A qualified tree is not ready. -/
theorem not_ready_qualified (kind : Qualifier) (inner : Tree) :
    ¬Ready (Tree.qualified kind inner) := by
  intro ready
  refine absurd rfl (ready.free _ (Tree.self_mem_subtrees _) kind ?_)
  cases kind <;> decide

/-- A tree that is ready has a text. -/
theorem exists_text (ready : Ready tree) : ∃ text, tree.interpret textual = .ok text := by
  induction tree with
  | constant type components =>
      obtain ⟨text, isText⟩ := exists_constant (ready.printable _ (Tree.self_mem_subtrees _))
      refine ⟨⟨type, text⟩, ?_⟩
      change (constant type components).map _ = _
      rw [isText]
      rfl
  | var type name => exact ⟨⟨type, name⟩, rfl⟩
  | unary op operand ih =>
      obtain ⟨text, isText⟩ := ih (ready.child List.mem_cons_self)
      rw [Tree.interpret_unary op isText]
      exact ⟨_, rfl⟩
  | binary lhs op rhs ihLeft ihRight =>
      obtain ⟨left, isLeft⟩ := ihLeft (ready.child List.mem_cons_self)
      obtain ⟨right, isRight⟩ :=
        ihRight (ready.child (List.mem_cons_of_mem _ List.mem_cons_self))
      have typed := ready.typed
      rw [Tree.type?, Tree.type?_of_interpret isLeft, Tree.type?_of_interpret isRight] at typed
      obtain ⟨type, fits⟩ := Option.isSome_iff_exists.mp typed
      rw [Tree.interpret_binary isLeft isRight fits]
      exact ⟨_, rfl⟩
  | qualified kind inner => exact absurd ready (not_ready_qualified kind inner)

/-! ### Outlines with a source text -/

/-- Outputs that are ready have lines. -/
theorem exists_treeLines (options : EmitOptions) (stage : Stage) {entries : List (String × Tree)}
    (ready : ∀ entry ∈ entries, Ready entry.2) :
    ∃ lines, treeLines options stage entries = .ok lines := by
  induction entries with
  | nil => exact ⟨_, rfl⟩
  | cons first rest ih =>
      obtain ⟨name, tree⟩ := first
      obtain ⟨text, isText⟩ := exists_text (ready (name, tree) List.mem_cons_self)
      obtain ⟨lines, areLines⟩ := ih fun entry member => ready entry (List.mem_cons_of_mem _ member)
      rw [treeLines]
      split
      · exact ⟨lines, areLines⟩
      · rw [isText, areLines]
        exact ⟨_, rfl⟩

/-- A built-in output that is ready has a line. -/
theorem exists_builtinTreeLines {found : Option (Builtin × Tree)}
    (ready : ∀ output ∈ found, Ready output.2) : ∃ lines, builtinTreeLines found = .ok lines := by
  cases found with
  | none => exact ⟨_, rfl⟩
  | some output =>
      obtain ⟨text, isText⟩ := exists_text (ready output rfl)
      rw [builtinTreeLines, isText]
      exact ⟨_, rfl⟩

/-- An outline has a source text if it has the output that its stage must write and all its outputs
have texts. -/
theorem exists_source
    (present : ∀ builtin, options.builtin? outline.stage = some builtin →
      ∃ tree, outline.outputs.get? builtin.output = some tree)
    (ready : ∀ name tree, outline.outputs.get? name = some tree → Ready tree) :
    ∃ text, source options outline = .ok text := by
  have readyEntries : ∀ entry ∈ outline.outputs.entries, Ready entry.2 := fun entry member =>
    ready entry.1 entry.2 (Table.get?_eq_some_iff.mpr member)
  obtain ⟨lines, areLines⟩ := exists_treeLines options outline.stage readyEntries
  have found : ∃ found, builtinTree options outline = .ok found ∧
      ∀ output ∈ found, Ready output.2 := by
    unfold builtinTree
    cases isBuiltin : options.builtin? outline.stage with
    | none => exact ⟨none, rfl, nofun⟩
    | some builtin =>
        obtain ⟨tree, isOutput⟩ := present builtin isBuiltin
        dsimp only
        rw [isOutput]
        refine ⟨_, rfl, ?_⟩
        rintro _ ⟨⟩
        exact ready builtin.output tree isOutput
  obtain ⟨builtin, isBuiltin, readyBuiltin⟩ := found
  obtain ⟨last, isLast⟩ := exists_builtinTreeLines readyBuiltin
  simp only [source, isBuiltin, areLines, isLast, bind, Except.bind]
  exact ⟨_, rfl⟩

end Glsl

/-! ### Outlines without qualifiers -/

/-- The tree is well-typed, its qualifiers are flat, and its constants can be written. -/
structure Tree.Tidy (tree : Tree) : Prop where
  typed : tree.type?.isSome
  flat : ∀ kind, tree.Flat kind
  printable : tree.Printable

/-- A subtree of a tidy tree is tidy. -/
theorem Tree.Tidy.mono {tree small : Tree} (tidy : tree.Tidy) (member : small ∈ tree.subtrees) :
    small.Tidy where
  typed := isSome_type?_of_mem_subtrees tidy.typed member
  flat kind := (tidy.flat kind).mono member
  printable := tidy.printable.mono member

/-- A bound vertex output has a text. -/
theorem Roster.ready_bound (roster : Roster) {tree : Tree} (tidy : tree.Tidy) :
    Glsl.Ready (roster.bound tree) where
  typed := by
    rw [roster.type?_bound tidy.typed]
    exact tidy.typed
  free := by
    have noFragment : (tree.unwrap .fragment).Covered [.attr, .fragment, .uniform] .fragment :=
      (tree.free_unwrap .fragment).covered
    refine ((tidy.flat .attr).unwrap .fragment).free_extract_extract
      ((tidy.flat .uniform).unwrap .fragment) (by decide) (by decide) ?_ rfl
      (Nat.le_of_eq (List.length_map _).symm) (Nat.le_of_eq (List.length_map _).symm)
    intro kind _ notFirst notSecond
    cases kind with
    | attr => exact absurd rfl notFirst
    | fragment => exact noFragment
    | uniform => exact absurd rfl notSecond
  printable := (tidy.printable.unwrap .fragment).extract.extract

/-- The color of the fragment stage has a text if every attribute is inside a varying or a
uniform. -/
theorem Tree.ready_withoutUniforms {color : Tree} (tidy : color.Tidy)
    (covered : color.Covered [.attr, .fragment, .uniform] .attr) :
    Glsl.Ready color.withoutVaryings.withoutUniforms where
  typed := by
    have typedMiddle : color.withoutVaryings.type?.isSome := by
      rw [withoutVaryings, withoutAll, type?_extract_listed tidy.typed]
      exact tidy.typed
    rw [withoutUniforms, withoutAll, type?_extract_listed typedMiddle]
    exact typedMiddle
  free := by
    refine (tidy.flat .fragment).free_extract_extract (tidy.flat .uniform) (by decide) (by decide)
      ?_ rfl (enough_names _ _ _) (enough_names _ _ _)
    intro kind _ notFirst notSecond
    cases kind with
    | attr => exact covered
    | fragment => exact absurd rfl notFirst
    | uniform => exact absurd rfl notSecond
  printable := tidy.printable.extract.extract

namespace EffectTrees

/-- The trees of an effect whose stages have source texts. -/
structure Buildable (trees : EffectTrees) : Prop where
  position : trees.position.Tidy
  color : trees.color.Tidy
  covered : trees.color.Covered [.attr, .fragment, .uniform] .attr

variable {trees : EffectTrees}

/-- The vertex stage of such an effect has a source text, with any options. -/
theorem Buildable.exists_vertex (buildable : trees.Buildable) (options : Glsl.EmitOptions) :
    ∃ text, Glsl.source options (trees.vertexOutline options.reserved) = .ok text := by
  apply Glsl.exists_source
  · rintro _ ⟨⟩
    refine ⟨(trees.roster options.reserved).bound trees.position, ?_⟩
    rw [vertexOutline, Table.get?_map, vertexOutputs, Table.get?_insert_self]
    rfl
  · intro name tree isOutput
    obtain ⟨original, -, rfl, origin⟩ := exists_of_vertexOutline isOutput
    apply Roster.ready_bound
    rcases origin with rfl | inside
    · exact buildable.position
    · exact buildable.color.mono inside

/-- What is written to the built-in variable of the fragment stage is the color. -/
theorem output_of_builtin? {options : Glsl.EmitOptions} {builtin : Glsl.Builtin}
    (isBuiltin : options.builtin? .fragment = some builtin) :
    builtin.output = options.reserved.color := by
  unfold Glsl.EmitOptions.builtin? at isBuiltin
  cases dialect : options.dialect with
  | glsl100 =>
      rw [dialect] at isBuiltin
      cases isBuiltin
      rfl
  | glsl300es =>
      rw [dialect] at isBuiltin
      cases isBuiltin

/-- The fragment stage of such an effect has a source text, with any options. -/
theorem Buildable.exists_fragment (buildable : trees.Buildable) (options : Glsl.EmitOptions) :
    ∃ text, Glsl.source options (trees.fragmentOutline options.reserved) = .ok text := by
  apply Glsl.exists_source
  · intro builtin isBuiltin
    refine ⟨trees.color.withoutVaryings.withoutUniforms, ?_⟩
    rw [fragmentOutline, output_of_builtin? isBuiltin, Table.get?_insert_self]
  · intro name tree isOutput
    rw [eq_of_fragmentOutline isOutput]
    exact Tree.ready_withoutUniforms buildable.color buildable.covered

/-- Both stages have source texts. -/
theorem Buildable.exists_sources (buildable : trees.Buildable) (options : Glsl.EmitOptions) :
    ∃ vertexSource fragmentSource,
      Glsl.source options (trees.vertexOutline options.reserved) = .ok vertexSource ∧
      Glsl.source options (trees.fragmentOutline options.reserved) = .ok fragmentSource ∧
      trees.sources options = .ok (vertexSource, fragmentSource) := by
  obtain ⟨vertexSource, isVertex⟩ := buildable.exists_vertex options
  obtain ⟨fragmentSource, isFragment⟩ := buildable.exists_fragment options
  refine ⟨vertexSource, fragmentSource, isVertex, isFragment, ?_⟩
  rw [sources, isVertex, isFragment]
  rfl

end EffectTrees

/-! ### Conditions on a graph -/

namespace Pool

variable {pool : Pool} {root id : NodeId} {tree small : Tree} {kinds : List Qualifier}

/-- Nothing qualified below the root has anything of its own qualifier below it. -/
def Flat (pool : Pool) (root : NodeId) : Prop :=
  ∀ id kind inner, pool.Below root id → pool.node? id = some (.qualified kind inner) →
    pool.Unqualified [kind] inner

/-- The constants below the root have finite components. -/
def Finite (pool : Pool) (root : NodeId) : Prop :=
  ∀ id type components, pool.Below root id → pool.node? id = some (.constant type components) →
    ∀ number ∈ components, number.isFinite = true

/-- One step down the graph, from a node that has none of some qualifiers. -/
def StepsAround (pool : Pool) (kinds : List Qualifier) (parent child : NodeId) : Prop :=
  pool.Child parent child ∧
    ∀ kind inner, pool.node? parent = some (.qualified kind inner) → kind ∉ kinds

/-- There is a path down from the root on which no node has one of some qualifiers, the last node
apart. -/
def Around (pool : Pool) (kinds : List Qualifier) : NodeId → NodeId → Prop :=
  Relation.ReflTransGen (pool.StepsAround kinds)

/-- A graph is flat if its tree is flat in every qualifier. -/
theorem WellFormed.flat_iff (wf : pool.WellFormed) (unfolded : pool.tree? root = some tree) :
    pool.Flat root ↔ ∀ kind, tree.Flat kind := by
  constructor
  · intro flat kind small member isQualified
    obtain ⟨innerTree, rfl⟩ := Tree.eq_qualified_of_qualifier? isQualified
    obtain ⟨id, below, smallTree⟩ := wf.exists_below unfolded member
    obtain ⟨inner, found, isInner⟩ := wf.exists_inner smallTree
    exact (wf.unqualified_iff isInner).mp (flat id kind inner below found)
  · intro flat id kind inner below found
    obtain ⟨small, member, smallTree⟩ := wf.tree?_of_below unfolded below
    have isQualified := wf.qualifier?_eq smallTree found
    have free := flat kind small member isQualified
    obtain ⟨innerTree, rfl⟩ := Tree.eq_qualified_of_qualifier? isQualified
    obtain ⟨same, sameFound, isInner⟩ := wf.exists_inner smallTree
    rw [found] at sameFound
    cases sameFound
    exact (wf.unqualified_iff isInner).mpr free

/-- The constants of a tree can be written if those of the graph are finite. -/
theorem WellFormed.printable_iff (wf : pool.WellFormed) (unfolded : pool.tree? root = some tree) :
    tree.Printable ↔ pool.Finite root := by
  constructor
  · intro printable id type components below found
    obtain ⟨small, member, smallTree⟩ := wf.tree?_of_below unfolded below
    rw [wf.tree?_of_shows found (.constant type components)] at smallTree
    cases smallTree
    exact (Tree.writable_constant.mp (printable _ member)).2
  · intro finite small member
    cases small with
    | constant type components =>
        obtain ⟨id, below, smallTree⟩ := wf.exists_below unfolded member
        obtain ⟨_, found, ⟨⟩⟩ := wf.tree?_eq_some_iff.mp smallTree
        obtain ⟨kept, present⟩ := node?_eq_some_iff.mp found
        obtain ⟨arity, -⟩ := (wf.admitted id _ present).normal
        exact Tree.writable_constant.mpr ⟨arity, finite id type components below found⟩
    | var _ _ => rfl
    | unary _ _ => rfl
    | binary _ _ _ => rfl
    | qualified _ _ => rfl

variable {kind : Qualifier}

/-- What is outermost in a tree is reached in the graph without entering anything else. -/
theorem WellFormed.exists_around (wf : pool.WellFormed) (unfolded : pool.tree? root = some tree)
    (member : small ∈ tree.outermost kinds) :
    ∃ id, pool.Around kinds root id ∧ pool.tree? id = some small := by
  induction tree using Tree.induction_on_children generalizing root with
  | step tree ih =>
      by_cases qualifies : ∃ kind ∈ kinds, tree.qualifier? = some kind
      · obtain ⟨kind, isKind, isQualified⟩ := qualifies
        rw [Tree.outermost_of_mem isQualified isKind, List.mem_singleton] at member
        exact ⟨root, .refl, member ▸ unfolded⟩
      · rw [Tree.outermost_of_notMem fun kind isKind same => qualifies ⟨kind, isKind, same⟩,
          List.mem_flatMap] at member
        obtain ⟨childTree, isChild, inside⟩ := member
        obtain ⟨child, down, childUnfolded⟩ := wf.exists_child unfolded isChild
        obtain ⟨id, path, idTree⟩ := ih childTree isChild childUnfolded inside
        refine ⟨id, .head ⟨down, fun kind inner found isKind => ?_⟩ path, idTree⟩
        exact qualifies ⟨kind, isKind, wf.qualifier?_eq unfolded found⟩

/-- A path to something qualified meets something outermost of the same qualifier. -/
theorem WellFormed.exists_outermost (wf : pool.WellFormed) {inner : NodeId}
    (path : pool.Around kinds root id) (found : pool.node? id = some (.qualified kind inner))
    (unfolded : pool.tree? root = some tree) :
    ∃ outer ∈ tree.outermost (kind :: kinds), outer.qualifier? = some kind := by
  induction path using Relation.ReflTransGen.head_induction_on generalizing tree with
  | refl =>
      have isQualified := wf.qualifier?_eq unfolded found
      rw [Tree.outermost_of_mem isQualified List.mem_cons_self]
      exact ⟨tree, List.mem_cons_self, isQualified⟩
  | head step _ ih =>
      obtain ⟨down, notEntered⟩ := step
      obtain ⟨child, isChild, childUnfolded⟩ := wf.child_tree? unfolded down
      obtain ⟨outer, isOuter, isQualified⟩ := ih childUnfolded
      -- A node of the qualifier on the way hides the end of the path but is outermost itself.
      by_cases same : tree.qualifier? = some kind
      · rw [Tree.outermost_of_mem same List.mem_cons_self]
        exact ⟨tree, List.mem_cons_self, same⟩
      · have other : ∀ other ∈ kind :: kinds, tree.qualifier? ≠ some other := by
          intro other isOther qualifies
          rcases List.mem_cons.mp isOther with rfl | later
          · exact same qualifies
          · obtain ⟨below, isNode⟩ := wf.node?_of_qualifier? unfolded qualifies
            exact notEntered other below isNode later
        rw [Tree.outermost_of_notMem other]
        exact ⟨outer, List.mem_flatMap.mpr ⟨child, isChild, isOuter⟩, isQualified⟩

/-- A qualifier is covered by others if every path to it enters one of them. -/
theorem WellFormed.covered_iff (wf : pool.WellFormed) (unfolded : pool.tree? root = some tree) :
    tree.Covered (kind :: kinds) kind ↔
      ∀ id inner, pool.node? id = some (.qualified kind inner) → ¬pool.Around kinds root id := by
  constructor
  · intro covered id inner found path
    obtain ⟨outer, isOuter, isQualified⟩ := wf.exists_outermost path found unfolded
    exact covered outer isOuter isQualified
  · intro entered outer isOuter isQualified
    obtain ⟨id, path, idTree⟩ := wf.exists_around unfolded isOuter
    obtain ⟨inner, found⟩ := wf.node?_of_qualifier? idTree isQualified
    have fewer : pool.StepsAround (kind :: kinds) ≤ pool.StepsAround kinds := by
      rintro parent child ⟨down, notEntered⟩
      exact ⟨down, fun other below isNode isOther =>
        notEntered other below isNode (List.mem_cons_of_mem _ isOther)⟩
    exact entered id inner found (Relation.ReflTransGen.mono fewer root id path)

end Pool

/-! ### Building -/

/-- A new emitter writes what is written with an empty cache. -/
theorem Glsl.Emitter.answerOf_emit {pool : Pool} {program : Program} (options : EmitOptions) :
    answerOf (Emitter.emit pool program) { options } =
      answerOf (Glsl.emit options pool program) .empty := by
  unfold answerOf Emitter.emit
  dsimp only
  cases Glsl.emit options pool program .empty with
  | ok text cache => rfl
  | error cause cache => rfl

/-- An effect of expressions can be built if its qualifiers are flat, every path from the color to
an attribute enters a varying or a uniform, and its constants are finite. The programs that are put
into the pool have the source texts that are answered. -/
theorem Effect.build_complete {pool : Pool} (reachable : pool.Reachable) {effect : Effect}
    {positionType colorType : ValueType}
    (position : pool.typeOf effect.position = .ok positionType)
    (color : pool.typeOf effect.color = .ok colorType)
    (flat : ∀ root ∈ [effect.position, effect.color], pool.Flat root)
    (entered : ∀ id inner, pool.node? id = some (.qualified .attr inner) →
      ¬pool.Around [.fragment, .uniform] effect.color id)
    (finite : ∀ root ∈ [effect.position, effect.color], pool.Finite root)
    (options : Glsl.EmitOptions) :
    ∃ built after vertex fragment, effect.build options pool = .ok built after ∧
      after.program built.vertex = .ok vertex ∧ after.program built.fragment = .ok fragment ∧
      answerOf (Glsl.Emitter.emit after vertex) { options } = .ok built.vertexSource ∧
      answerOf (Glsl.Emitter.emit after fragment) { options } = .ok built.fragmentSource := by
  have wf := reachable.wellFormed
  obtain ⟨trees, depicts⟩ := wf.exists_depicts position color
  have tidy : ∀ root ∈ [effect.position, effect.color], ∀ tree, pool.tree? root = some tree →
      tree.Tidy := fun root member tree unfolded =>
    ⟨wf.isSome_type? unfolded, (wf.flat_iff unfolded).mp (flat root member),
      (wf.printable_iff unfolded).mpr (finite root member)⟩
  have buildable : trees.Buildable :=
    ⟨tidy _ List.mem_cons_self _ depicts.position,
      tidy _ (List.mem_cons_of_mem _ List.mem_cons_self) _ depicts.color,
      (wf.covered_iff depicts.color).mpr entered⟩
  obtain ⟨vertexSource, fragmentSource, isVertex, isFragment, areSources⟩ :=
    buildable.exists_sources options
  obtain ⟨vertexId, fragmentId, after, vertex, fragment, wfAfter, vertexFound, fragmentFound,
    vertexFills, fragmentFills, built⟩ := build_spec wf depicts options
  rw [areSources] at built
  refine ⟨_, after, vertex, fragment, built, vertexFound, fragmentFound, ?_, ?_⟩
  · rw [Glsl.Emitter.answerOf_emit, (Glsl.answers_emit wfAfter vertexFills options).gives _
      (Cache.serves_empty _ after), isVertex]
  · rw [Glsl.Emitter.answerOf_emit, (Glsl.answers_emit wfAfter fragmentFills options).gives _
      (Cache.serves_empty _ after), isFragment]

/-- An effect whose stages share a uniform is built, and its programs are emitted again. -/
theorem Effect.build_complete_sharedUniform :
    (∀ root ∈ [5, 10], sharedUniform.Flat root ∧ sharedUniform.Finite root) ∧
      (∀ id inner, sharedUniform.node? id = some (.qualified .attr inner) →
        ¬sharedUniform.Around [.fragment, .uniform] 10 id) ∧
      ∃ built after vertex fragment, Effect.build ⟨5, 10⟩ {} sharedUniform = .ok built after ∧
        after.program built.vertex = .ok vertex ∧ after.program built.fragment = .ok fragment ∧
        answerOf (Glsl.Emitter.emit after vertex) {} = .ok built.vertexSource ∧
        answerOf (Glsl.Emitter.emit after fragment) {} = .ok built.fragmentSource := by
  have reachable : sharedUniform.Reachable := ⟨0, _, rfl⟩
  have wf := reachable.wellFormed
  have typed : ∀ root ∈ [5, 10], sharedUniform.typeOf root = .ok .float := by decide +kernel
  have shape : ∀ root ∈ [5, 10], ∀ tree ∈ sharedUniform.tree? root,
      (∀ kind ∈ [.attr, .fragment, .uniform], tree.Flat kind) ∧ tree.Printable := by
    decide +kernel
  have covered : ∀ tree ∈ sharedUniform.tree? 10,
      tree.Covered [.attr, .fragment, .uniform] .attr := by decide +kernel
  have flat : ∀ root ∈ [5, 10], sharedUniform.Flat root := by
    intro root member
    obtain ⟨tree, unfolded⟩ := wf.exists_tree?_of_typeOf (typed root member)
    refine (wf.flat_iff unfolded).mpr fun kind => (shape root member tree unfolded).1 kind ?_
    cases kind <;> decide
  have finite : ∀ root ∈ [5, 10], sharedUniform.Finite root := by
    intro root member
    obtain ⟨tree, unfolded⟩ := wf.exists_tree?_of_typeOf (typed root member)
    exact (wf.printable_iff unfolded).mp (shape root member tree unfolded).2
  have position : sharedUniform.typeOf (Effect.position ⟨5, 10⟩) = .ok .float :=
    typed 5 (by decide)
  have color : sharedUniform.typeOf (Effect.color ⟨5, 10⟩) = .ok .float := typed 10 (by decide)
  obtain ⟨tree, unfolded⟩ := wf.exists_tree?_of_typeOf color
  have entered := (wf.covered_iff unfolded).mp (covered tree unfolded)
  exact ⟨fun root member => ⟨flat root member, finite root member⟩, entered,
    Effect.build_complete reachable position color flat entered finite {}⟩

end Shading
