import Shading.Evaluation.Evaluator
import Shading.Pool.Signature
import Shading.Proofs.Interpretation.Transparency
import Shading.Proofs.Pool.Orders

/-!
# Pools that agree on a set of nodes

Every question about a node is answered by looking at the node and at what is below it. So two
pools give the same answers about a node if they have the same entries in a set of nodes that has
the node and the children of all its members (`Pool.AgreesOn`). A sweep is such a pair of pools,
for the set of the marked nodes.
-/

namespace Shading

/-- Two continuations of a question agree if they agree on its answer. -/
theorem ofExcept_bind_congr {σ α β : Type} {asked : Except Error α}
    {first second : α → EStateM Error σ β}
    (same : ∀ result, asked = .ok result → first result = second result) :
    (MonadExcept.ofExcept asked >>= first) = (MonadExcept.ofExcept asked >>= second) := by
  cases asked with
  | error cause => rfl
  | ok result => exact same result rfl

/-- The node of a visit. -/
def Visit.node : Visit → NodeId
  | enter id => id
  | leave id => id

namespace Pool

variable {α : Type} {before middle after : Pool} {kept : NodeId → Prop} {id root : NodeId}

/-- Two pools of one session have the same entries in a set of nodes, and the set is closed under
children. -/
structure AgreesOn (before after : Pool) (kept : NodeId → Prop) : Prop where
  session : after.session = before.session
  entry : ∀ id, kept id → after.entry? id = before.entry? id
  closed : ∀ id child, kept id → before.Child id child → kept child

/-- Two pools give the same answers about a node. -/
structure AnswersAlike (before after : Pool) (id : NodeId) : Prop where
  node : after.node id = before.node id
  typeOf : after.typeOf id = before.typeOf id
  postOrder : after.postOrder id = before.postOrder id
  collect : ∀ keep, after.collect id keep = before.collect id keep
  signature : after.signature id = before.signature id
  evaluate : ∀ bindings, evaluate after id bindings = evaluate before id bindings
  print : Glsl.print after id = Glsl.print before id
  emitNode : ∀ emitter,
    Glsl.Emitter.emitNode after id emitter = Glsl.Emitter.emitNode before id emitter

namespace AgreesOn

/-- Agreeing everywhere and then on a set. -/
theorem trans (first : before.AgreesOn middle fun _ => True) (second : middle.AgreesOn after kept) :
    before.AgreesOn after kept where
  session := second.session.trans first.session
  entry id isKept := (second.entry id isKept).trans (first.entry id trivial)
  closed id child isKept isChild := by
    obtain ⟨node, found, member⟩ := isChild
    refine second.closed id child isKept ⟨node, ?_, member⟩
    rwa [Pool.node?, first.entry id trivial]

/-! ### One node -/

/-- A kept node is in both pools or in neither. -/
theorem contains_eq (agrees : before.AgreesOn after kept) (isKept : kept id) :
    after.contains id = before.contains id := by
  rw [Pool.contains, Pool.contains, agrees.entry id isKept]

/-- A kept node has one structure in both pools. -/
theorem node?_eq (agrees : before.AgreesOn after kept) (isKept : kept id) :
    after.node? id = before.node? id := by
  rw [Pool.node?, Pool.node?, agrees.entry id isKept]

/-- Asking for a kept node gives one answer in both pools. -/
theorem node_eq (agrees : before.AgreesOn after kept) (isKept : kept id) :
    after.node id = before.node id := by
  rw [Pool.node, Pool.node, agrees.node?_eq isKept]

/-- Asking for the type of a kept node gives one answer in both pools. -/
theorem typeOf_eq (agrees : before.AgreesOn after kept) (isKept : kept id) :
    after.typeOf id = before.typeOf id := by
  rw [Pool.typeOf, Pool.typeOf, agrees.entry id isKept]

/-- A kept node has the same operands in both pools. -/
theorem operands_eq (agrees : before.AgreesOn after kept) (isKept : kept id) :
    after.operands id = before.operands id := by
  rw [operands, operands, agrees.node?_eq isKept]

/-- Asking for a kept program gives one answer in both pools. -/
theorem program_eq (agrees : before.AgreesOn after kept) (isKept : kept id) :
    after.program id = before.program id := by
  rw [Pool.program, Pool.program, agrees.node_eq isKept]

/-- Everything below a kept node is kept. -/
theorem kept_of_below (agrees : before.AgreesOn after kept) (isKept : kept root)
    (below : before.Below root id) : kept id := by
  induction below with
  | refl => exact isKept
  | tail _ isChild ih => exact agrees.closed _ _ ih isChild

/-- After a node is entered, its operands are visited and then the node again. -/
theorem kept_expand (agrees : before.AgreesOn after kept) (isKept : kept id)
    {pending : List Visit} (keptLater : ∀ visit ∈ pending, kept visit.node) :
    ∀ visit ∈ (before.operands id).map .enter ++ .leave id :: pending, kept visit.node := by
  refine List.forall_mem_append.mpr ⟨?_, List.forall_mem_cons.mpr ⟨isKept, keptLater⟩⟩
  intro visit member
  obtain ⟨child, isChild, rfl⟩ := List.mem_map.mp member
  exact agrees.closed id child isKept (child_of_mem_operands isChild)

/-! ### Traversals -/

/-- A tour goes on alike in both pools if its pending visits are at kept nodes. -/
theorem tourFrom_eq (agrees : before.AgreesOn after kept) {stop : NodeId → Bool}
    {pending made : List Visit} {seen : Std.TreeSet NodeId}
    (allKept : ∀ visit ∈ pending, kept visit.node) :
    after.tourFrom stop pending seen made = before.tourFrom stop pending seen made := by
  fun_induction tourFrom before stop pending seen made with
  | case1 seen made => rw [tourFrom]
  | case2 id pending seen made ih =>
      rw [tourFrom]
      exact ih (List.forall_mem_cons.mp allKept).2
  | case3 id pending seen made known ih =>
      rw [tourFrom, if_pos known]
      exact ih (List.forall_mem_cons.mp allKept).2
  | case4 id pending seen made unknown missing =>
      obtain ⟨(isKept : kept id), -⟩ := List.forall_mem_cons.mp allKept
      rw [tourFrom, if_neg unknown, agrees.contains_eq isKept, if_pos missing]
  | case5 id pending seen made unknown present stops ih =>
      obtain ⟨(isKept : kept id), keptLater⟩ := List.forall_mem_cons.mp allKept
      conv_lhs =>
        rw [tourFrom, if_neg unknown, agrees.contains_eq isKept, if_neg present, if_pos stops]
      exact ih (List.forall_mem_cons.mpr ⟨isKept, keptLater⟩)
  | case6 id pending seen made unknown present goesOn ih =>
      obtain ⟨(isKept : kept id), keptLater⟩ := List.forall_mem_cons.mp allKept
      rw [tourFrom, if_neg unknown, agrees.contains_eq isKept, if_neg present, if_neg goesOn,
        agrees.operands_eq isKept]
      exact ih (agrees.kept_expand isKept keptLater)

/-- The tour below a kept node is the same in both pools. -/
theorem tour_eq (agrees : before.AgreesOn after kept) (isKept : kept root)
    (stop : NodeId → Bool) : after.tour stop root = before.tour stop root :=
  agrees.tourFrom_eq (List.forall_mem_singleton.mpr isKept)

/-- The order of leaving below a kept node is the same in both pools. -/
theorem postOrder_eq (agrees : before.AgreesOn after kept) (isKept : kept root) :
    after.postOrder root = before.postOrder root := by
  rw [postOrder, postOrder, postOrderUntil_eq_tour, postOrderUntil_eq_tour,
    agrees.tour_eq isKept]

/-- A collection below a kept node gives the same nodes in both pools. -/
theorem collect_eq (agrees : before.AgreesOn after kept) (wf : before.WellFormed)
    (isKept : kept root) (keep : Node → Bool) :
    after.collect root keep = before.collect root keep := by
  have sameOrder : after.preOrder root = before.preOrder root := by
    rw [preOrder_eq_tour, preOrder_eq_tour, agrees.tour_eq isKept]
  rw [collect_eq_preOrder, collect_eq_preOrder, sameOrder]
  cases entered : before.preOrder root with
  | error cause => rfl
  | ok order =>
      have sameKept : ∀ id ∈ order,
          (after.node? id).any keep = (before.node? id).any keep := by
        intro id member
        rw [agrees.node?_eq (agrees.kept_of_below isKept ((wf.mem_preOrder_iff entered).mp member))]
      rw [Except.map, Except.map, List.filter_congr sameKept]

/-- The signatures of kept nodes are written alike in both pools. -/
theorem writeSignatures_eq (agrees : before.AgreesOn after kept) {order : List NodeId}
    (allKept : ∀ id ∈ order, kept id) (written : Std.TreeMap NodeId String) :
    after.writeSignatures order written = before.writeSignatures order written := by
  induction order generalizing written with
  | nil => rfl
  | cons id rest ih =>
      have later := ih fun id member => allKept id (List.mem_cons_of_mem _ member)
      simp only [writeSignatures, agrees.node_eq (allKept id List.mem_cons_self), later]

/-- A kept node has one signature in both pools. -/
theorem signature_eq (agrees : before.AgreesOn after kept) (wf : before.WellFormed)
    (isKept : kept root) : after.signature root = before.signature root := by
  rw [signature, signature, agrees.postOrder_eq isKept]
  cases left : before.postOrder root with
  | error cause => rfl
  | ok order =>
      have allKept : ∀ id ∈ order, kept id := fun id member =>
        agrees.kept_of_below isKept ((wf.mem_postOrder_iff left).mp member)
      simp only [bind, Except.bind, agrees.writeSignatures_eq allKept]

/-! ### Walks -/

variable (interpretation : Interpretation α)

/-- A cache gives a kept operand the same type and result in both pools. -/
theorem operand_eq (agrees : before.AgreesOn after kept) (isKept : kept id) (cache : Cache α) :
    cache.operand after id = cache.operand before id := by
  rw [Cache.operand, Cache.operand, agrees.typeOf_eq isKept]

/-- A kept node is computed alike in both pools. -/
theorem compute_eq (agrees : before.AgreesOn after kept) (isKept : kept id) (cache : Cache α) :
    interpretation.compute after cache id = interpretation.compute before cache id := by
  have keptChild : ∀ node, before.node? id = some node → ∀ child ∈ node.children, kept child :=
    fun node found child member => agrees.closed id child isKept ⟨node, found, member⟩
  unfold Interpretation.compute
  rw [agrees.node_eq isKept, agrees.typeOf_eq isKept, Pool.node]
  cases found : before.node? id with
  | none => rfl
  | some node =>
      have keptChildren := keptChild node found
      cases node with
      | constant _ _ | var _ _ | qualified _ _ | shader _ => rfl
      | unary op operand =>
          simp only [bind, Except.bind, agrees.operand_eq (keptChildren _ List.mem_cons_self)]
      | binary lhs op rhs =>
          have isRight : rhs ∈ (Node.binary lhs op rhs).children :=
            List.mem_cons_of_mem _ List.mem_cons_self
          simp only [bind, Except.bind, agrees.operand_eq (keptChildren _ List.mem_cons_self),
            agrees.operand_eq (keptChildren _ isRight)]

/-- A walk goes on alike in both pools if its pending visits are at kept nodes. -/
theorem walkFrom_eq (agrees : before.AgreesOn after kept) {pending : List Visit} {walk : Walk α}
    (allKept : ∀ visit ∈ pending, kept visit.node) :
    interpretation.walkFrom after pending walk = interpretation.walkFrom before pending walk := by
  fun_induction Interpretation.walkFrom interpretation before pending walk with
  | case1 walk => rw [Interpretation.walkFrom]
  | case2 id pending walk known ih =>
      rw [Interpretation.walkFrom, if_pos known]
      exact ih (List.forall_mem_cons.mp allKept).2
  | case3 id pending walk unknown found =>
      obtain ⟨(isKept : kept id), -⟩ := List.forall_mem_cons.mp allKept
      rw [Interpretation.walkFrom, if_neg unknown, agrees.node?_eq isKept, found]
  | case4 id pending walk unknown kind inner found =>
      obtain ⟨(isKept : kept id), -⟩ := List.forall_mem_cons.mp allKept
      rw [Interpretation.walkFrom, if_neg unknown, agrees.node?_eq isKept, found]
  | case5 id pending walk unknown program found =>
      obtain ⟨(isKept : kept id), -⟩ := List.forall_mem_cons.mp allKept
      rw [Interpretation.walkFrom, if_neg unknown, agrees.node?_eq isKept, found]
  | case6 id pending walk unknown node notQualified notShader found ih =>
      obtain ⟨(isKept : kept id), keptLater⟩ := List.forall_mem_cons.mp allKept
      have later := ih (agrees.kept_expand isKept keptLater)
      rw [Interpretation.walkFrom, if_neg unknown, agrees.node?_eq isKept,
        agrees.operands_eq isKept, found]
      cases node with
      | qualified kind inner => exact absurd rfl (notQualified kind inner)
      | shader program => exact absurd rfl (notShader program)
      | constant _ _ | var _ _ | unary _ _ | binary _ _ _ => exact later
  | case7 id pending walk known ih =>
      rw [Interpretation.walkFrom, if_pos known]
      exact ih (List.forall_mem_cons.mp allKept).2
  | case8 id pending walk unknown cause failed =>
      obtain ⟨(isKept : kept id), -⟩ := List.forall_mem_cons.mp allKept
      rw [Interpretation.walkFrom, if_neg unknown, agrees.compute_eq interpretation isKept, failed]
  | case9 id pending walk unknown result computed ih =>
      obtain ⟨(isKept : kept id), keptLater⟩ := List.forall_mem_cons.mp allKept
      rw [Interpretation.walkFrom, if_neg unknown, agrees.compute_eq interpretation isKept,
        computed]
      exact ih keptLater

/-- A run on a kept expression is the same in both pools, with any cache. -/
theorem run_eq (agrees : before.AgreesOn after kept) (isKept : kept root) :
    interpretation.run after root = interpretation.run before root := by
  have sameWalk : interpretation.walkFrom after [.enter root] =
      interpretation.walkFrom before [.enter root] := by
    funext walk
    exact agrees.walkFrom_eq interpretation (List.forall_mem_singleton.mpr isKept)
  funext cache
  rw [Interpretation.run, Interpretation.run, Interpretation.walk, Interpretation.walk, sameWalk,
    agrees.session]

/-- A kept expression has one result in both pools. -/
theorem result_eq (agrees : before.AgreesOn after kept) (isKept : kept root) :
    interpretation.result after root = interpretation.result before root := by
  rw [Interpretation.result, Interpretation.result, agrees.run_eq interpretation isKept]

/-! ### Source texts -/

/-- The lines for kept outputs are the same in both pools. -/
theorem outputLines_eq (agrees : before.AgreesOn after kept) (options : Glsl.EmitOptions)
    (stage : Stage) {outputs : List (String × NodeId)}
    (keptOutputs : ∀ output ∈ outputs, kept output.2) :
    Glsl.outputLines options after stage outputs =
      Glsl.outputLines options before stage outputs := by
  induction outputs with
  | nil => rfl
  | cons output rest ih =>
      obtain ⟨isKept, keptRest⟩ := List.forall_mem_cons.mp keptOutputs
      rw [Glsl.outputLines, Glsl.outputLines, ih keptRest, agrees.typeOf_eq isKept,
        agrees.run_eq Glsl.textual isKept]

/-- The lines for a kept built-in output are the same in both pools. -/
theorem builtinLines_eq (agrees : before.AgreesOn after kept)
    {builtin : Option (Glsl.Builtin × NodeId)} (keptBuiltin : ∀ output ∈ builtin, kept output.2) :
    Glsl.builtinLines after builtin = Glsl.builtinLines before builtin := by
  cases builtin with
  | none => rfl
  | some output =>
      rw [Glsl.builtinLines, Glsl.builtinLines,
        agrees.run_eq Glsl.textual (keptBuiltin output rfl)]

/-- A program with kept outputs has one source text in both pools. -/
theorem emit_eq (agrees : before.AgreesOn after kept) (options : Glsl.EmitOptions)
    {program : Program} (keptOutputs : ∀ expr ∈ program.outputs.values, kept expr) :
    Glsl.emit options after program = Glsl.emit options before program := by
  have sameLines : Glsl.outputLines options after program.stage program.outputs.entries =
      Glsl.outputLines options before program.stage program.outputs.entries :=
    agrees.outputLines_eq options program.stage fun output member =>
      keptOutputs output.2 (List.mem_map_of_mem member)
  refine ofExcept_bind_congr fun builtin found => ?_
  have sameLast : Glsl.builtinLines after builtin = Glsl.builtinLines before builtin :=
    agrees.builtinLines_eq fun output member =>
      keptOutputs output.2 (Glsl.output_of_builtinOutput found output member)
  rw [sameLines, sameLast]

/-- A kept program is emitted alike from both pools. -/
theorem emitNode_eq (agrees : before.AgreesOn after kept) (isKept : kept id) :
    Glsl.Emitter.emitNode after id = Glsl.Emitter.emitNode before id := by
  rw [Glsl.Emitter.emitNode, agrees.program_eq isKept]
  refine ofExcept_bind_congr fun program found => ?_
  have keptOutputs : ∀ expr ∈ program.outputs.values, kept expr := fun expr member =>
    agrees.closed id expr isKept ⟨_, program_eq_ok_iff.mp found, member⟩
  funext emitter
  rw [Glsl.Emitter.emit, Glsl.Emitter.emit, agrees.emit_eq emitter.options keptOutputs]

/-- Pools that agree on a set answer alike about its nodes. -/
theorem answersAlike (agrees : before.AgreesOn after kept) (wf : before.WellFormed)
    (isKept : kept id) : before.AnswersAlike after id where
  node := agrees.node_eq isKept
  typeOf := agrees.typeOf_eq isKept
  postOrder := agrees.postOrder_eq isKept
  collect := agrees.collect_eq wf isKept
  signature := agrees.signature_eq wf isKept
  evaluate bindings := agrees.result_eq (numerical bindings) isKept
  print := agrees.result_eq Glsl.textual isKept
  emitNode := congrFun (agrees.emitNode_eq isKept)

end AgreesOn

/-- A sweep leaves the marked nodes as they are. -/
theorem WellFormed.agreesOn_swept (wf : before.WellFormed) :
    before.AgreesOn before.swept (· ∈ before.marked) where
  session := rfl
  entry id marked := by rw [entry?_swept, if_pos marked]
  closed id child marked isChild := by
    obtain ⟨entry, found, closed⟩ := wf.marked id marked
    obtain ⟨node, isNode, member⟩ := isChild
    rw [Pool.node?, found] at isNode
    cases isNode
    exact closed child member

/-- A pool that has grown has the same entries as before in the nodes that there were. -/
theorem Grows.agreesOn (grows : before.Grows after) (wf : before.WellFormed) :
    before.AgreesOn after (· < before.slots.size) where
  session := grows.session
  entry := grows.entry
  closed id child inside isChild := by
    obtain ⟨node, found, member⟩ := isChild
    exact Nat.lt_trans (wf.child_lt found member) inside

end Pool

end Shading
