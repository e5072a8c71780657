import Shading.Proofs.History.Handles
import Shading.Proofs.Named

/-!
# Canonical identities

An unfolding is what a node stands for, with everything below it written out. Keys of the index
are shallow: they name children by their identities. It follows by induction over unfoldings that
two nodes of a pool never have the same one. So an unfolding can be made again, its parts in any
order in which what is inside a part comes before it: every constructor then finds its node in the
pool, and the pool stays as it is (`Pool.identities_canonical`).
-/

namespace Shading

/-- What a node stands for, with everything below it written out. -/
inductive Unfolding where
  | expr (tree : Tree)
  | program (stage : Stage) (inputs uniforms : List Interface) (outputs : List (String × Tree))
  deriving DecidableEq

namespace Unfolding

/-- The trees directly inside an unfolding. -/
def children : Unfolding → List Tree
  | expr tree => tree.children
  | program _ _ _ outputs => outputs.map Prod.snd

/-- An unfolding and everything inside it. -/
def parts (unfolding : Unfolding) : List Unfolding :=
  unfolding :: (unfolding.children.flatMap Tree.subtrees).map expr

/-- What is directly inside an element of the list was done before the list or comes earlier. -/
def ChildrenFirst : List Unfolding → List Unfolding → Prop
  | _, [] => True
  | done, unfolding :: rest =>
    (∀ child ∈ unfolding.children, expr child ∈ done) ∧ ChildrenFirst (unfolding :: done) rest

instance decidableChildrenFirst :
    (done order : List Unfolding) → Decidable (ChildrenFirst done order)
  | _, [] => .isTrue trivial
  | done, unfolding :: rest =>
    have := decidableChildrenFirst (unfolding :: done) rest
    inferInstanceAs (Decidable ((∀ child ∈ unfolding.children, expr child ∈ done) ∧
      ChildrenFirst (unfolding :: done) rest))

/-- The topmost node of an unfolding, over identities of what is directly inside. -/
def node? (identity : Tree → Option NodeId) : Unfolding → Option Node
  | expr (.constant type components) => some (.constant type components)
  | expr (.var type name) => some (.var type name)
  | expr (.unary op operand) => (identity operand).map (.unary op)
  | expr (.binary lhs op rhs) =>
    (identity lhs).bind fun left => (identity rhs).map (.binary left op)
  | expr (.qualified kind inner) => (identity inner).map (.qualified kind)
  | program stage inputs uniforms outputs =>
    (mapNamed identity outputs).map fun entries =>
      .shader { stage, inputs, uniforms, outputs := .ofList entries }

end Unfolding

namespace Pool

variable {pool before after : Pool} {id : NodeId} {node : Node} {unfolding : Unfolding}

/-- The unfolding of a node. -/
def unfolding? (pool : Pool) (id : NodeId) : Option Unfolding :=
  match pool.node? id with
  | some (.shader program) =>
    (mapNamed pool.tree? program.outputs.entries).map
      (.program program.stage program.inputs program.uniforms)
  | _ => (pool.tree? id).map .expr

/-- Makes a node with the typed constructor of its kind. -/
def make : Node → PoolM NodeId
  | .constant type components => constant type components
  | .var type name => var type name
  | .unary op operand => unary op operand
  | .binary lhs op rhs => binary lhs op rhs
  | .qualified kind inner => qualify kind inner
  | .shader program => shader program

/-- Makes unfoldings in order, each over the identities of what was made before it, and gives all
identities with the pool that is left. There is none if something inside an unfolding was not made
before it, or if a constructor fails. -/
def construct : List Unfolding → List (Unfolding × NodeId) → Pool →
    Option (List (Unfolding × NodeId) × Pool)
  | [], made, pool => some (made, pool)
  | unfolding :: rest, made, pool =>
    (unfolding.node? fun tree => made.lookup (.expr tree)).bind fun node =>
      match make node pool with
      | .ok id after => construct rest ((unfolding, id) :: made) after
      | .error _ _ => none

/-- Every sweep among the calls finds the node marked. -/
def KeptBy (pool : Pool) (id : NodeId) : List Call → Prop
  | [] => True
  | call :: rest => (call = .sweep → id ∈ pool.marked) ∧ (pool.afterCall call).KeptBy id rest

/-- A node that every sweep finds marked stays in the pool. -/
theorem WellFormed.contains_of_keptBy (wf : pool.WellFormed) (present : pool.contains id = true)
    {calls : List Call} (kept : pool.KeptBy id calls) :
    (pool.afterCalls calls).contains id = true := by
  induction calls generalizing pool with
  | nil => exact present
  | cons call rest ih =>
      have stays := (wf.contains_afterCall_iff present call).mpr kept.1
      exact ih (wf.afterCall call).1 stays kept.2

/-! ### Unfoldings -/

/-- The unfolding of an expression is its tree, and that of a program has the trees of its
outputs. -/
theorem WellFormed.unfolding?_eq_some_iff (wf : pool.WellFormed) :
    pool.unfolding? id = some unfolding ↔
      (∃ tree, pool.tree? id = some tree ∧ unfolding = .expr tree) ∨
      ∃ program outputs, pool.node? id = some (.shader program) ∧
        mapNamed pool.tree? program.outputs.entries = some outputs ∧
        unfolding = .program program.stage program.inputs program.uniforms outputs := by
  by_cases isProgram : ∃ program, pool.node? id = some (.shader program)
  · obtain ⟨program, found⟩ := isProgram
    have noTree : ∀ tree, pool.tree? id ≠ some tree := by
      intro tree unfolded
      obtain ⟨node, isNode, shown⟩ := wf.tree?_eq_some_iff.mp unfolded
      rw [found] at isNode
      cases isNode
      cases shown
    simp only [unfolding?, found, Option.map_eq_some_iff, noTree, false_and, exists_false,
      false_or, Option.some.injEq, Node.shader.injEq, exists_and_left, exists_eq_left']
    exact exists_congr fun _ => and_congr_right fun _ => eq_comm
  · have isExpr : pool.unfolding? id = (pool.tree? id).map .expr := by
      unfold unfolding?
      split
      next program found => exact absurd ⟨program, found⟩ isProgram
      next => rfl
    rw [isExpr, Option.map_eq_some_iff]
    constructor
    · rintro ⟨tree, unfolded, rfl⟩
      exact Or.inl ⟨tree, unfolded, rfl⟩
    · rintro (⟨tree, unfolded, rfl⟩ | ⟨program, _, found, _⟩)
      · exact ⟨tree, unfolded, rfl⟩
      · exact absurd ⟨program, found⟩ isProgram

/-- A node unfolds to an expression if it has the tree. -/
theorem WellFormed.unfolding?_expr_iff (wf : pool.WellFormed) {tree : Tree} :
    pool.unfolding? id = some (.expr tree) ↔ pool.tree? id = some tree := by
  rw [wf.unfolding?_eq_some_iff]
  simp

/-- Every node of a pool has an unfolding. -/
theorem WellFormed.exists_unfolding? (wf : pool.WellFormed) (present : pool.contains id = true) :
    ∃ unfolding, pool.unfolding? id = some unfolding := by
  rcases wf.exists_tree?_or_shader present with ⟨tree, unfolded⟩ | ⟨program, isNode⟩
  · exact ⟨_, wf.unfolding?_expr_iff.mpr unfolded⟩
  · have total : ∀ expr ∈ program.outputs.entries.map Prod.snd,
        ∃ tree, pool.tree? expr = some tree := fun expr member =>
      wf.exists_tree?_of_type? (wf.child_type? isNode member)
    obtain ⟨outputs, unfolded⟩ := exists_mapNamed total
    exact ⟨_, wf.unfolding?_eq_some_iff.mpr (Or.inr ⟨program, outputs, isNode, unfolded, rfl⟩)⟩

/-- Outputs with the same trees are the same nodes. -/
theorem WellFormed.mapNamed_tree?_injective (wf : pool.WellFormed)
    {left right : List (String × NodeId)} {outputs : List (String × Tree)}
    (leftTrees : mapNamed pool.tree? left = some outputs)
    (rightTrees : mapNamed pool.tree? right = some outputs) : left = right := by
  rw [mapNamed_eq_some_iff] at leftTrees rightTrees
  refine List.left_unique_forall₂' ?_ leftTrees rightTrees
  intro first output second isFirst isSecond
  exact Prod.ext (isFirst.1.trans isSecond.1.symm) (wf.tree?_injective isFirst.2 isSecond.2)

/-- Two nodes of a pool never have the same unfolding. -/
theorem WellFormed.unfolding?_injective (wf : pool.WellFormed) {left right : NodeId}
    (leftUnfolded : pool.unfolding? left = some unfolding)
    (rightUnfolded : pool.unfolding? right = some unfolding) : left = right := by
  rw [wf.unfolding?_eq_some_iff] at leftUnfolded rightUnfolded
  rcases leftUnfolded with ⟨tree, leftTree, rfl⟩ | ⟨first, outputs, leftFound, leftTrees, rfl⟩
  · obtain ⟨same, rightTree, sameTree⟩ | ⟨_, _, _, _, different⟩ := rightUnfolded
    · cases sameTree
      exact wf.tree?_injective leftTree rightTree
    · cases different
  · obtain ⟨_, _, different⟩ | ⟨second, _, rightFound, rightTrees, same⟩ := rightUnfolded
    · cases different
    · injection same with stages inputs uniforms sameOutputs
      rw [← sameOutputs] at rightTrees
      have entries := wf.mapNamed_tree?_injective leftTrees rightTrees
      have sameProgram : first = second := Program.ext stages inputs uniforms (Table.ext entries)
      exact wf.id_unique leftFound (sameProgram ▸ rightFound)

/-- What is directly inside an unfolding is the tree of a node. -/
theorem WellFormed.exists_tree?_of_child (wf : pool.WellFormed)
    (unfolded : pool.unfolding? id = some unfolding) {tree : Tree}
    (member : tree ∈ unfolding.children) : ∃ child, pool.tree? child = some tree := by
  rcases wf.unfolding?_eq_some_iff.mp unfolded with
    ⟨whole, isTree, rfl⟩ | ⟨program, outputs, _, trees, rfl⟩
  · obtain ⟨child, -, childTree⟩ := wf.exists_child isTree member
    exact ⟨child, childTree⟩
  · exact exists_of_mem_mapNamed trees member

/-- Every part of the unfolding of a node is the unfolding of some node. -/
theorem WellFormed.exists_unfolding?_of_part (wf : pool.WellFormed)
    (unfolded : pool.unfolding? id = some unfolding) {part : Unfolding}
    (member : part ∈ unfolding.parts) : ∃ below, pool.unfolding? below = some part := by
  rcases List.mem_cons.mp member with rfl | inside
  · exact ⟨id, unfolded⟩
  · obtain ⟨small, isSmall, rfl⟩ := List.mem_map.mp inside
    obtain ⟨tree, isChild, isSubtree⟩ := List.mem_flatMap.mp isSmall
    obtain ⟨child, childTree⟩ := wf.exists_tree?_of_child unfolded isChild
    obtain ⟨below, -, smallTree⟩ := wf.exists_below childTree isSubtree
    exact ⟨below, wf.unfolding?_expr_iff.mpr smallTree⟩

/-- A node that is still in the pool has the same unfolding. -/
theorem Persists.unfolding?_eq (persists : before.Persists after) (wf : before.WellFormed)
    (wfAfter : after.WellFormed) (unfolded : before.unfolding? id = some unfolding)
    (present : after.contains id = true) : after.unfolding? id = some unfolding := by
  rw [wfAfter.unfolding?_eq_some_iff]
  rcases wf.unfolding?_eq_some_iff.mp unfolded with
    ⟨tree, isTree, rfl⟩ | ⟨program, outputs, found, trees, rfl⟩
  · exact Or.inl ⟨tree, persists.tree?_eq wf wfAfter isTree present, rfl⟩
  · have kept := persists.node?_eq found present
    refine Or.inr ⟨program, outputs, kept, mapNamed_transfer trees ?_, rfl⟩
    intro expr member tree exprTree
    exact persists.tree?_eq wf wfAfter exprTree (wfAfter.child_contains kept member)

/-! ### Making again -/

/-- Interning a structure that is there gives its identity and changes nothing. -/
theorem WellFormed.intern_again (wf : pool.WellFormed) (found : pool.node? id = some node)
    (type : Option ValueType) : Pool.intern node type pool = .ok id pool := by
  unfold Pool.intern
  rw [(wf.indexed node id).mpr found]

/-- The constructor of a node that is in the pool finds it, and changes nothing. -/
theorem WellFormed.make_again (wf : pool.WellFormed) (found : pool.node? id = some node) :
    make node pool = .ok id pool := by
  obtain ⟨type, present⟩ := node?_eq_some_iff.mp found
  have admits := wf.admitted id _ present
  have typed : ∀ child ∈ node.children, ∃ type, pool.type? child = some type :=
    fun child member => Option.isSome_iff_exists.mp (admits.exprs child member)
  cases node with
  | constant type components =>
      obtain ⟨arity, normal⟩ := admits.normal
      have literal : Node.literal type components = .constant type components := by
        rw [Node.literal, List.map_congr_left normal, List.map_id']
      rw [make, constant, if_pos arity, literal]
      exact wf.intern_again found _
  | var type name => exact wf.intern_again found _
  | unary op operand =>
      obtain ⟨type, typeEq⟩ := typed operand List.mem_cons_self
      rw [make, unary, bind_of_ok (query_of_ok (typeOf_eq_ok_iff.mpr typeEq))]
      exact wf.intern_again found _
  | binary lhs op rhs =>
      obtain ⟨left, leftEq⟩ := typed lhs List.mem_cons_self
      obtain ⟨right, rightEq⟩ := typed rhs (List.mem_cons_of_mem _ List.mem_cons_self)
      obtain ⟨result, resultEq⟩ := Option.isSome_iff_exists.mp (admits.total rfl)
      have fits : op.resultType? left right = some result := by
        rw [← resultEq, admits.typed, Node.type?, leftEq, rightEq]
        rfl
      rw [make, binary, bind_of_ok (query_of_ok (typeOf_eq_ok_iff.mpr leftEq)),
        bind_of_ok (query_of_ok (typeOf_eq_ok_iff.mpr rightEq)), fits]
      exact wf.intern_again found _
  | qualified kind inner =>
      obtain ⟨type, typeEq⟩ := typed inner List.mem_cons_self
      rw [make, qualify, bind_of_ok (query_of_ok (typeOf_eq_ok_iff.mpr typeEq))]
      exact wf.intern_again found _
  | shader program =>
      rw [make, shader, bind_of_ok (query_of_ok (checkExprs_of_type? admits.exprs))]
      exact wf.intern_again found _

/-- The topmost node of the unfolding of a node is that node, over the identities of the pool. -/
theorem WellFormed.node?_unfolding (wf : pool.WellFormed)
    (unfolded : pool.unfolding? id = some unfolding) {identity : Tree → Option NodeId}
    (known : ∀ tree ∈ unfolding.children, ∀ child, pool.tree? child = some tree →
      identity tree = some child) :
    ∃ node, pool.node? id = some node ∧ unfolding.node? identity = some node := by
  rcases wf.unfolding?_eq_some_iff.mp unfolded with
    ⟨tree, isTree, rfl⟩ | ⟨program, outputs, found, trees, rfl⟩
  · obtain ⟨node, found, shown⟩ := wf.tree?_eq_some_iff.mp isTree
    refine ⟨node, found, ?_⟩
    cases shown with
    | constant type components => rfl
    | var type name => rfl
    | unary op below => rw [Unfolding.node?, known _ List.mem_cons_self _ below, Option.map_some]
    | binary op belowLeft belowRight =>
        rw [Unfolding.node?, known _ List.mem_cons_self _ belowLeft,
          known _ (List.mem_cons_of_mem _ List.mem_cons_self) _ belowRight, Option.bind_some,
          Option.map_some]
    | qualified kind below =>
        rw [Unfolding.node?, known _ List.mem_cons_self _ below, Option.map_some]
  · refine ⟨_, found, ?_⟩
    rw [Unfolding.node?, mapNamed_invert trees known, Option.map_some, Table.ofList_entries]

/-- What was made for an unfolding is the node that has it. -/
def MadeOf (pool : Pool) (made : List (Unfolding × NodeId)) : Prop :=
  ∀ unfolding id, made.lookup unfolding = some id → pool.unfolding? id = some unfolding

/-- What was made stays right with one more node that has its unfolding. -/
theorem MadeOf.cons {made : List (Unfolding × NodeId)} (madeOf : pool.MadeOf made)
    (unfolded : pool.unfolding? id = some unfolding) :
    pool.MadeOf ((unfolding, id) :: made) := by
  intro other result found
  rw [List.lookup_cons] at found
  split at found
  next same =>
    cases found
    rw [eq_of_beq same]
    exact unfolded
  next => exact madeOf other result found

/-- Making unfoldings of a pool again, what is inside before what it is inside of, gives their
identities and leaves the pool as it is. -/
theorem WellFormed.construct_again (wf : pool.WellFormed) {order : List Unfolding}
    (unfold : ∀ unfolding ∈ order, ∃ id, pool.unfolding? id = some unfolding)
    {made : List (Unfolding × NodeId)} {done : List Unfolding}
    (ordered : Unfolding.ChildrenFirst done order) (madeOf : pool.MadeOf made)
    (isMade : ∀ unfolding ∈ done, (made.lookup unfolding).isSome) :
    ∃ result, construct order made pool = some (result, pool) ∧ pool.MadeOf result ∧
      ∀ unfolding, unfolding ∈ order ∨ unfolding ∈ done → (result.lookup unfolding).isSome := by
  induction order generalizing made done with
  | nil => exact ⟨made, rfl, madeOf, fun unfolding => Or.rec nofun (isMade unfolding)⟩
  | cons first rest ih =>
      obtain ⟨id, unfolded⟩ := unfold first List.mem_cons_self
      -- What was made for a child is the child itself, since a tree belongs to one node only.
      have known : ∀ tree ∈ first.children, ∀ child, pool.tree? child = some tree →
          made.lookup (.expr tree) = some child := by
        intro tree member child childTree
        obtain ⟨same, found⟩ := Option.isSome_iff_exists.mp (isMade _ (ordered.1 tree member))
        rw [found, wf.tree?_injective (wf.unfolding?_expr_iff.mp (madeOf _ _ found)) childTree]
      obtain ⟨node, isNode, layer⟩ := wf.node?_unfolding unfolded known
      have isMadeMore : ∀ unfolding ∈ first :: done,
          (((first, id) :: made).lookup unfolding).isSome := by
        intro unfolding member
        rw [List.lookup_cons]
        split
        · rfl
        next different =>
          rcases List.mem_cons.mp member with rfl | earlier
          · simp at different
          · exact isMade unfolding earlier
      obtain ⟨result, ran, resultOf, isResult⟩ :=
        ih (fun unfolding member => unfold unfolding (List.mem_cons_of_mem _ member)) ordered.2
          (madeOf.cons unfolded) isMadeMore
      refine ⟨result, ?_, resultOf, fun unfolding member => isResult unfolding ?_⟩
      · rw [construct, layer, Option.bind_some, wf.make_again isNode]
        exact ran
      · rcases member with inOrder | earlier
        · rcases List.mem_cons.mp inOrder with rfl | later
          · exact Or.inr List.mem_cons_self
          · exact Or.inl later
        · exact Or.inr (List.mem_cons_of_mem _ earlier)

/-- Identities are canonical. Nodes of a pool have the same unfolding only if they are the same,
and as long as every sweep finds a node marked, making the parts of its unfolding again gives the
node again and adds nothing to the pool. -/
theorem identities_canonical (reachable : pool.Reachable) :
    (∀ left right, pool.contains left = true → pool.contains right = true →
      (pool.unfolding? left = pool.unfolding? right ↔ left = right)) ∧
    ∀ id, pool.contains id = true → ∃ unfolding, pool.unfolding? id = some unfolding ∧
      ∀ later, pool.KeptBy id later → ∀ order, order ⊆ unfolding.parts → unfolding ∈ order →
        Unfolding.ChildrenFirst [] order →
        ∃ made, construct order [] (pool.afterCalls later) =
            some (made, pool.afterCalls later) ∧ made.lookup unfolding = some id := by
  have wf := reachable.wellFormed
  constructor
  · intro left right leftPresent rightPresent
    refine ⟨fun same => ?_, congrArg _⟩
    obtain ⟨unfolding, unfolded⟩ := wf.exists_unfolding? leftPresent
    exact wf.unfolding?_injective unfolded (same ▸ unfolded)
  · intro id present
    obtain ⟨unfolding, unfolded⟩ := wf.exists_unfolding? present
    refine ⟨unfolding, unfolded, fun later kept order within root ordered => ?_⟩
    obtain ⟨wfLater, persists⟩ := wf.afterCalls later
    have stillUnfolded := persists.unfolding?_eq wf wfLater unfolded
      (wf.contains_of_keptBy present kept)
    have nothingMade : (pool.afterCalls later).MadeOf [] := nofun
    obtain ⟨made, ran, madeOf, isMade⟩ := wfLater.construct_again
      (fun part member => wfLater.exists_unfolding?_of_part stillUnfolded (within member))
      ordered nothingMade nofun
    obtain ⟨same, found⟩ := Option.isSome_iff_exists.mp (isMade unfolding (Or.inl root))
    refine ⟨made, ran, ?_⟩
    rw [found, wfLater.unfolding?_injective (madeOf _ _ found) stillUnfolded]

/-- A program whose outputs share a node. -/
def sharedProgram : Pool :=
  (empty 0).afterCalls [.var .float "x", .unary .neg 0, .binary 1 .add 0,
    .shader { stage := .fragment, inputs := [⟨"x", .float⟩],
              outputs := .ofList [("o_Color", 2), ("o_Sign", 1)] }]

/-- A program whose outputs share a node is made again under its own identity, and the pool stays
the same. -/
theorem identities_canonical_sharedProgram :
    let x := Tree.var .float "x"
    let sign := Tree.unary .neg x
    let program := Unfolding.program .fragment [⟨"x", .float⟩] []
      [("o_Color", .binary sign .add x), ("o_Sign", sign)]
    let now := sharedProgram.afterCalls [.mark 3, .var .vec2 "y", .sweep, .var .vec3 "z"]
    sharedProgram.unfolding? 3 = some program ∧ now.contains 4 = false ∧
      ∃ made, construct [.expr x, .expr sign, .expr (.binary sign .add x), .expr sign, program] []
        now = some (made, now) ∧ made.lookup program = some 3 := by
  intro x sign program now
  have reachable : sharedProgram.Reachable := ⟨0, _, rfl⟩
  have present : sharedProgram.contains 3 = true := by decide +kernel
  have isProgram : sharedProgram.unfolding? 3 = some program := by decide +kernel
  have collected : now.contains 4 = false := by decide +kernel
  have kept : sharedProgram.KeptBy 3 [.mark 3, .var .vec2 "y", .sweep, .var .vec3 "z"] := by
    refine ⟨nofun, nofun, fun _ => ?_, nofun, trivial⟩
    decide +kernel
  obtain ⟨unfolding, unfolded, again⟩ := (identities_canonical reachable).2 3 present
  rw [isProgram] at unfolded
  cases unfolded
  exact ⟨isProgram, collected, again _ kept _ (by decide) (by decide) (by decide)⟩

end Pool

end Shading
