import Shading.Evaluation.Evaluator
import Shading.Proofs.History.Signatures
import Shading.Proofs.Interpretation.Counters
import Shading.Proofs.Pool.Search

/-!
# Look-ups that always find something

A walk looks up the results of operands in its cache, a signature is written over the signatures of
the children, and substitution rebuilds a node over what stands for its children. None of these
look-ups misses (`Pool.lookups_never_miss`): whatever a cache has been through, a walk leaves a node
only after its operands have got results, and the other two work off an order in which children
come first.
-/

namespace Shading

variable {α β σ : Type} {asked : Except Error α} {operation : EStateM Error σ α}
  {next : α → EStateM Error σ β} {state : σ}

/-- The answer is not that a look-up has missed. -/
def Finds (answer : Except Error α) : Prop :=
  ∀ id, answer ≠ .error (.missingResult id)

/-! ### Sequences -/

namespace Finds

theorem ok (result : α) : Finds (.ok result) :=
  nofun

/-- A sequence of questions misses nothing if its parts do not. -/
theorem except_bind {next : α → Except Error β} (first : Finds asked)
    (later : ∀ result, Finds (next result)) : Finds (asked >>= next) := by
  cases asked with
  | ok result => exact later result
  | error cause =>
      rintro id ⟨⟩
      exact first id rfl

/-- A question for each item of a list misses nothing if it misses nothing for each. -/
theorem mapM {operation : α → Except Error β} (each : ∀ input, Finds (operation input))
    (inputs : List α) : Finds (inputs.mapM operation) := by
  induction inputs with
  | nil => exact .ok []
  | cons input rest ih =>
      rw [List.mapM_cons]
      exact (each input).except_bind fun output => ih.except_bind fun outputs => .ok _

/-- A sequence of operations misses nothing if its parts do not, on the states that they meet. -/
theorem bind (first : Finds (answerOf operation state))
    (later : ∀ result middle, operation state = .ok result middle →
      Finds (answerOf (next result) middle)) : Finds (answerOf (operation >>= next) state) := by
  cases ran : operation state with
  | ok result middle =>
      rw [answerOf, bind_of_ok ran]
      exact later result middle ran
  | error cause middle =>
      intro id missed
      rw [answerOf, bind_of_error ran] at missed
      cases missed
      exact first id (by rw [answerOf, ran])

end Finds

/-! ### Walks -/

namespace Interpretation

variable {interpretation : Interpretation α} {pool : Pool} {root : NodeId} {cache : Cache α}
  {cause : Error}

/-- The interpretation does not itself say that a look-up has missed. -/
def Honest (interpretation : Interpretation α) : Prop :=
  ∀ id, ¬interpretation.Raises (.missingResult id)

/-- A run that fails has one of the causes that a walk can have. -/
theorem fails_of_run (wf : pool.WellFormed)
    (failed : answerOf (interpretation.run pool root) cache = .error cause) :
    interpretation.Fails pool cause := by
  rw [answerOf, run] at failed
  rcases interpretation.walk_cases wf root cache with
    ⟨value, added, left, -, walked⟩ | ⟨found, left, fails, walked⟩
  · rw [walked] at failed
    cases failed
  · rw [walked] at failed
    cases failed
    exact fails

/-- A run of an honest interpretation finds everything, with any cache. -/
theorem Honest.finds_run (honest : interpretation.Honest) (wf : pool.WellFormed) (root : NodeId)
    (cache : Cache α) : Finds (answerOf (interpretation.run pool root) cache) := by
  intro id missed
  cases fails_of_run wf missed with
  | raised raises => exact honest id raises

/-- An interpretation is honest if none of its functions says that a look-up has missed. -/
theorem honest_of_finds (constant : ∀ type components,
      Finds (interpretation.constant type components))
    (var : ∀ type name, Finds (interpretation.var type name))
    (unary : ∀ op operand, Finds (interpretation.unary op operand))
    (binary : ∀ op type left right, Finds (interpretation.binary op type left right)) :
    interpretation.Honest := by
  rintro id (⟨raised⟩ | ⟨raised⟩ | ⟨raised⟩ | ⟨raised⟩)
  · exact constant _ _ id raised
  · exact var _ _ id raised
  · exact unary _ _ id raised
  · exact binary _ _ _ _ id raised

end Interpretation

/-- Tracing is honest. -/
theorem tracing_honest : tracing.Honest :=
  Interpretation.honest_of_finds (fun _ _ => .ok _) (fun _ _ => .ok _) (fun _ _ => .ok _)
    fun _ _ _ _ => .ok _

namespace Glsl

/-- Writing a literal looks nothing up. -/
theorem finds_literal (number : Binary64) : Finds (literal number) := by
  unfold literal
  split
  · exact .ok _
  · nofun

/-- Writing text is honest. -/
theorem textual_honest : textual.Honest := by
  refine Interpretation.honest_of_finds (fun type components => ?_) (fun _ _ => .ok _)
    (fun _ _ => .ok _) fun _ _ _ _ => .ok _
  change Finds (constant type components)
  unfold constant
  split
  · split
    · exact finds_literal _
    · nofun
  · exact (Finds.mapM finds_literal components).except_bind fun texts => .ok _

end Glsl

namespace Arithmetic

/-- A component that is missing is not a look-up that has missed. -/
theorem finds_component (values : List Float) (index : Nat) : Finds (component values index) := by
  unfold component
  split
  · exact .ok _
  · nofun

/-- An operation component by component looks nothing up. -/
theorem finds_spread (change : Float → Float → Float) (length : Nat)
    (left right : Operand (List Float)) : Finds (spread change length left right) := by
  refine .mapM (fun index => ?_) _
  exact (finds_component _ _).except_bind fun x => (finds_component _ _).except_bind fun y => .ok _

/-- A matrix product looks nothing up. -/
theorem finds_product (left right : Operand (List Float)) : Finds (product left right) := by
  refine .mapM (fun index => Finds.except_bind (.mapM (fun k => ?_) _) fun terms => .ok _) _
  exact (finds_component _ _).except_bind fun x => (finds_component _ _).except_bind fun y => .ok _

/-- A cross product looks nothing up. -/
theorem finds_cross (u v : List Float) : Finds (cross u v) :=
  (finds_component u 0).except_bind fun _ => (finds_component u 1).except_bind fun _ =>
    (finds_component u 2).except_bind fun _ => (finds_component v 0).except_bind fun _ =>
      (finds_component v 1).except_bind fun _ => (finds_component v 2).except_bind fun _ => .ok _

/-- No binary operator looks anything up. -/
theorem finds_binary (op : BinaryOp) (type : ValueType) (left right : Operand (List Float)) :
    Finds (binary op type left right) := by
  cases op with
  | add | sub | div | mod => exact finds_spread _ _ _ _
  | dot => exact .ok _
  | cross => exact finds_cross _ _
  | mul =>
      rw [binary]
      split
      · nofun
      · split
        · exact finds_spread _ _ _ _
        · exact finds_product _ _

end Arithmetic

/-- Evaluation is honest, under all bindings. -/
theorem numerical_honest (bindings : Bindings) : (numerical bindings).Honest := by
  refine Interpretation.honest_of_finds (fun _ _ => .ok _) (fun type name => ?_) (fun _ _ => .ok _)
    Arithmetic.finds_binary
  change Finds (bindings.value type name)
  unfold Bindings.value
  split
  · nofun
  · split
    · exact .ok _
    · nofun

namespace Pool

variable {pool base : Pool} {id root target replacement : NodeId} {node : Node} {rebuilt : Rebuilt}

/-! ### Signatures -/

/-- Writing a signature finds the signatures of all children. -/
theorem WellFormed.finds_signature (wf : pool.WellFormed) (root : NodeId) :
    Finds (pool.signature root) := by
  cases present : pool.contains root with
  | true =>
      obtain ⟨unfolding, -, signed⟩ := wf.signature_eq present
      rw [signed]
      exact .ok _
  | false =>
      rw [signature, postOrder_of_missing present]
      rintro _ ⟨⟩

/-! ### Substitution -/

/-- A question to the pool misses nothing if its answer does not. -/
theorem finds_query {ask : Pool → Except Error α} (found : Finds (ask pool)) :
    Finds (answerOf (query ask) pool) := by
  unfold answerOf query
  cases asked : ask pool with
  | ok answer => exact .ok answer
  | error cause =>
      rw [asked] at found
      exact found

/-- Asking for a type looks up no result. -/
theorem finds_typeOf (pool : Pool) (id : NodeId) : Finds (pool.typeOf id) := by
  unfold typeOf
  split
  · nofun
  · split
    · exact .ok _
    · nofun

/-- Asking for a node looks up no result. -/
theorem finds_node (pool : Pool) (id : NodeId) : Finds (pool.node id) := by
  unfold Pool.node
  split
  · exact .ok _
  · nofun

/-- Interning looks up no result. -/
theorem finds_intern (node : Node) (type : Option ValueType) (pool : Pool) :
    Finds (answerOf (intern node type) pool) := by
  unfold answerOf intern
  cases pool.index[node]? with
  | some id => exact .ok id
  | none => exact .ok _

/-- Applying a unary operator looks up no result. -/
theorem finds_unary (op : UnaryOp) (operand : NodeId) (pool : Pool) :
    Finds (answerOf (unary op operand) pool) :=
  (finds_query (finds_typeOf pool operand)).bind fun _ _ _ => finds_intern _ _ _

/-- Applying a binary operator looks up no result. -/
theorem finds_binary (lhs : NodeId) (op : BinaryOp) (rhs : NodeId) (pool : Pool) :
    Finds (answerOf (binary lhs op rhs) pool) := by
  refine (finds_query (finds_typeOf pool lhs)).bind fun left middle _ => ?_
  refine (finds_query (finds_typeOf middle rhs)).bind fun right last _ => ?_
  cases op.resultType? left right with
  | some type => exact finds_intern _ _ _
  | none => nofun

/-- Qualifying looks up no result. -/
theorem finds_qualify (kind : Qualifier) (inner : NodeId) (pool : Pool) :
    Finds (answerOf (qualify kind inner) pool) :=
  (finds_query (finds_typeOf pool inner)).bind fun _ _ _ => finds_intern _ _ _

/-- What was rebuilt is found. -/
theorem Rebuilt.finds_result (known : (rebuilt[id]?).isSome) (pool : Pool) :
    Finds (answerOf (rebuilt.result id) pool) := by
  obtain ⟨result, found⟩ := Option.isSome_iff_exists.mp known
  rw [Rebuilt.result, found]
  exact .ok result

/-- A node is rebuilt over children that something stands for. -/
theorem finds_rebuildNode (known : ∀ child ∈ node.children, (rebuilt[child]?).isSome) (id : NodeId)
    (pool : Pool) : Finds (answerOf (rebuildNode rebuilt id node) pool) := by
  cases node with
  | constant _ _ | var _ _ => exact .ok id
  | unary op operand =>
      refine (Rebuilt.finds_result (known _ List.mem_cons_self) pool).bind fun new middle _ => ?_
      split
      · exact .ok id
      · exact finds_unary op new middle
  | binary lhs op rhs =>
      refine (Rebuilt.finds_result (known _ List.mem_cons_self) pool).bind fun newLhs middle _ => ?_
      refine (Rebuilt.finds_result
        (known _ (List.mem_cons_of_mem _ List.mem_cons_self)) middle).bind fun newRhs last _ => ?_
      split
      · exact .ok id
      · exact finds_binary newLhs op newRhs last
  | qualified kind inner =>
      refine (Rebuilt.finds_result (known _ List.mem_cons_self) pool).bind fun new middle _ => ?_
      split
      · exact .ok id
      · exact finds_qualify kind new middle
  | shader program => nofun

/-- Taking the place of a node finds what was rebuilt below it. -/
theorem finds_rebuildOne (wfBase : base.WellFormed) (present : base.contains id = true)
    (grows : base.Grows pool)
    (known : ∀ child ∈ base.expansion (· == target) id, (rebuilt[child]?).isSome) :
    Finds (answerOf (rebuildOne target replacement rebuilt id) pool) := by
  unfold rebuildOne
  by_cases same : id = target
  · rw [if_pos same]
    exact .ok replacement
  · rw [if_neg same]
    refine (finds_query (finds_node pool id)).bind fun node middle asked => ?_
    obtain ⟨isNode, rfl⟩ := query_eq_ok asked
    obtain ⟨⟨old, type⟩, isEntry⟩ := Option.isSome_iff_exists.mp present
    have found := node?_eq_some_iff.mpr ⟨type, isEntry⟩
    have sameNode := (grows.node?_eq found).symm.trans (node_eq_ok_iff.mp isNode)
    rw [Option.some.injEq] at sameNode
    rw [expansion, if_neg (by simpa using same), wfBase.operands_eq found, sameNode] at known
    exact finds_rebuildNode known id middle

/-- Rebuilding works off a list in which children come first, so something stands for the children
of every node that is reached. -/
theorem finds_rebuild (wfBase : base.WellFormed) {order : List NodeId}
    (present : ∀ id ∈ order, base.contains id = true) {done : NodeId → Prop}
    (ordered : base.ChildrenFirst (· == target) done order) (wf : pool.WellFormed)
    (grows : base.Grows pool) (known : ∀ id, done id → (rebuilt[id]?).isSome) :
    Finds (answerOf (rebuild target replacement order rebuilt) pool) := by
  induction order generalizing pool rebuilt done with
  | nil => exact .ok rebuilt
  | cons first rest ih =>
      obtain ⟨isPresent, presentRest⟩ := List.forall_mem_cons.mp present
      rw [rebuild_cons]
      refine Finds.bind (finds_rebuildOne wfBase isPresent grows fun child member =>
        known child (ordered.1 child member)) fun result middle ran => ?_
      obtain ⟨wfMiddle, growsMiddle⟩ := (keeps_rebuildOne _ _ _ _).of_ok wf ran
      refine ih presentRest ordered.2 wfMiddle (grows.trans growsMiddle) fun id isDone => ?_
      rw [Std.TreeMap.getElem?_insert]
      split
      · rfl
      next other =>
        refine known id (isDone.resolve_left fun same => other ?_)
        exact Std.LawfulEqCmp.compare_eq_iff_eq.mpr same.symm

/-- A substitution finds everything that was rebuilt, whatever its arguments are. -/
theorem WellFormed.finds_substitute (wf : pool.WellFormed) (root target replacement : NodeId) :
    Finds (answerOf (substitute root target replacement) pool) := by
  refine (finds_query (finds_typeOf pool replacement)).bind fun type middle asked => ?_
  obtain ⟨-, rfl⟩ := query_eq_ok asked
  cases present : middle.contains root with
  | false =>
      rw [answerOf, bind_of_error (query_of_error (postOrderUntil_of_missing present _))]
      rintro _ ⟨⟩
  | true =>
      obtain ⟨order, listed, ordered, -, within⟩ := wf.postOrderUntil_spec present (· == target)
      have allPresent : ∀ id ∈ order, middle.contains id = true := fun id member =>
        wf.contains_of_mem_occurrences (List.forall_mem_singleton.mpr present) (within id member)
      rw [answerOf, bind_of_ok (query_of_ok listed)]
      have nothing : ∀ id : NodeId, False → ((∅ : Rebuilt)[id]?).isSome := fun _ => False.elim
      refine (finds_rebuild wf allPresent ordered wf (Grows.refl middle) nothing).bind
        fun rebuilt last _ => ?_
      split
      · exact .ok _
      · rintro _ ⟨⟩

/-- No look-up misses. A walk with any interpretation, root and cache fails only at a node that is
not in the pool, at a qualified expression or a program, or by the interpretation, and those of the
library do not say themselves that a look-up has missed. Neither signatures nor substitution miss
anything. -/
theorem lookups_never_miss (reachable : pool.Reachable) :
    (∀ (α : Type) (interpretation : Interpretation α) (root : NodeId) (cache : Cache α),
      (∀ cause, answerOf (interpretation.run pool root) cache = .error cause →
        interpretation.Fails pool cause) ∧
      (interpretation.Honest → Finds (answerOf (interpretation.run pool root) cache))) ∧
    ((∀ bindings, (numerical bindings).Honest) ∧ Glsl.textual.Honest ∧ tracing.Honest) ∧
    (∀ root, Finds (pool.signature root)) ∧
    ∀ root target replacement, Finds (answerOf (substitute root target replacement) pool) := by
  have wf := reachable.wellFormed
  refine ⟨fun α interpretation root cache => ⟨fun cause failed => ?_, fun honest => ?_⟩,
    ⟨numerical_honest, Glsl.textual_honest, tracing_honest⟩, wf.finds_signature,
    wf.finds_substitute⟩
  · exact Interpretation.fails_of_run wf failed
  · exact honest.finds_run wf root cache

/-- A pool with a negation. -/
def negation : Pool :=
  (empty 0).afterCalls [.var .float "x", .unary .neg 0]

/-- The same pool after the negation was collected and made again, with a program above it. -/
def renewed : Pool :=
  (empty 0).afterCalls [.var .float "x", .unary .neg 0, .mark 0, .sweep, .unary .neg 0,
    .binary 2 .mul 0,
    .shader { stage := .fragment, outputs := .ofList [("o_Color", 3), ("o_Glow", 2)] }]

/-- Nothing is missed with a cache that was filled before the negation was collected and made
again. -/
theorem lookups_never_miss_renewed :
    let cache := Cache.afterUses [.walk tracing negation 1]
    renewed.contains 1 = false ∧ cache.results.contains 1 = true ∧
      (∀ root, Finds (answerOf (tracing.run renewed root) cache)) ∧ Finds (renewed.signature 4) ∧
      ∀ target, Finds (answerOf (substitute 4 target 2) renewed) := by
  intro cache
  have reachable : renewed.Reachable := ⟨0, _, rfl⟩
  have collected : renewed.contains 1 = false := by decide +kernel
  have stale : cache.results.contains 1 = true := by decide +kernel
  obtain ⟨walks, ⟨-, -, honest⟩, signatures, substitutions⟩ := lookups_never_miss reachable
  exact ⟨collected, stale, fun root => (walks TraceStep tracing root cache).2 honest,
    signatures 4, fun target => substitutions 4 target 2⟩

end Pool

end Shading
