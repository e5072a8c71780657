import Shading.Effect.Build
import Shading.Proofs.Effect.VertexInputs
import Shading.Proofs.Pool.Collection

/-!
# Reachable pools

A reachable pool is left by a sequence of calls on an empty pool. A call may fail, and it may name
nodes that are not in the pool; what it adds before it fails stays there. Every reachable pool is
well-formed, and calls never give an identity another node.
-/

namespace Shading

/-! ### Failing while inputs are bound -/

namespace VertexBinding

variable {α β : Type} {binding after : VertexBinding}

/-- The pool that an operation leaves, whether or not it fails. -/
def poolLeftBy (binding : VertexBinding) (operation : VertexBindingM α) : Pool :=
  match operation binding with
  | .ok _ after => after.pool
  | .error _ after => after.pool

/-- The operation keeps pools well-formed and only adds to them. -/
def KeepsPool (operation : VertexBindingM α) : Prop :=
  ∀ binding : VertexBinding, binding.pool.WellFormed →
    (binding.poolLeftBy operation).WellFormed ∧
      binding.pool.Grows (binding.poolLeftBy operation)

/-- What is kept holds of the pool that a success leaves. -/
theorem KeepsPool.of_ok {operation : VertexBindingM α} {result : α} (keeps : KeepsPool operation)
    (wf : binding.pool.WellFormed) (ran : operation binding = .ok result after) :
    after.pool.WellFormed ∧ binding.pool.Grows after.pool := by
  have kept := keeps binding wf
  rwa [poolLeftBy, ran] at kept

/-- An operation that leaves every pool as it is keeps pools well-formed. -/
theorem keepsPool_of_same {operation : VertexBindingM α}
    (same : ∀ binding : VertexBinding, binding.poolLeftBy operation = binding.pool) :
    KeepsPool operation := by
  intro binding wf
  rw [same]
  exact ⟨wf, Pool.Grows.refl _⟩

/-- A sequence of operations that keep pools well-formed does so too. -/
theorem KeepsPool.bind {operation : VertexBindingM α} {next : α → VertexBindingM β}
    (first : KeepsPool operation) (later : ∀ result, KeepsPool (next result)) :
    KeepsPool (operation >>= next) := by
  intro binding wf
  have kept := first binding wf
  unfold poolLeftBy at kept ⊢
  cases ran : operation binding with
  | ok result middle =>
      rw [ran] at kept
      rw [bind_of_ok ran]
      have rest := later result middle kept.1
      unfold poolLeftBy at rest
      exact ⟨rest.1, kept.2.trans rest.2⟩
  | error cause middle =>
      rw [ran] at kept
      rw [bind_of_error ran]
      exact kept

theorem keepsPool_pure (result : α) : KeepsPool (pure result) :=
  keepsPool_of_same fun _ => rfl

theorem keepsPool_get : KeepsPool (get : VertexBindingM VertexBinding) :=
  keepsPool_of_same fun _ => rfl

/-- A change of the state that leaves the pool as it is keeps it well-formed. -/
theorem keepsPool_modify {change : VertexBinding → VertexBinding}
    (same : ∀ binding, (change binding).pool = binding.pool) :
    KeepsPool (modify change : VertexBindingM PUnit) :=
  keepsPool_of_same same

/-- Changing the stages leaves the pool as it is. -/
theorem keepsPool_modifyStages (change : Stages → Stages) : KeepsPool (modifyStages change) :=
  keepsPool_of_same fun _ => rfl

/-- An operation on the pool keeps it as it does by itself. -/
theorem keepsPool_onPool {operation : PoolM α} (keeps : Pool.Keeps operation) :
    KeepsPool (onPool operation) := by
  intro binding wf
  have same : binding.poolLeftBy (onPool operation) = binding.pool.leftBy operation := by
    unfold poolLeftBy onPool Pool.leftBy
    cases ran : operation binding.pool with
    | ok result left => simp only [ran]
    | error cause left => simp only [ran]
  rw [same]
  exact keeps binding.pool wf

/-- Any number of rounds of unwrapping keeps pools well-formed. -/
theorem keeps_unwrapRounds (rounds : Nat) (expr : NodeId) :
    Pool.Keeps (unwrapRounds rounds expr) := by
  induction rounds generalizing expr with
  | zero => exact Pool.keeps_pure expr
  | succ rounds ih =>
      rw [unwrapRounds]
      apply (Pool.keeps_query _).bind
      intro ids
      cases ids with
      | nil => exact Pool.keeps_pure expr
      | cons first rest =>
          apply (Pool.keeps_query _).bind
          intro inner
          exact (Pool.keeps_substitute _ _ _).bind fun next => ih next

/-- Unwrapping all fragments keeps pools well-formed. -/
theorem keeps_unwrapFragments (expr : NodeId) : Pool.Keeps (unwrapFragments expr) :=
  (Pool.keeps_query _).bind fun _ => keeps_unwrapRounds _ _

/-- Declaring an attribute keeps pools well-formed. -/
theorem keepsPool_declareAttribute (id : NodeId) (type : ValueType) :
    KeepsPool (declareAttribute id type) := by
  apply keepsPool_get.bind
  intro current
  split
  · exact keepsPool_pure _
  · refine KeepsPool.bind (keepsPool_modify ?_) fun _ => ?_
    · exact fun _ => rfl
    apply (keepsPool_onPool (Pool.keeps_query _)).bind
    intro inner
    exact (keepsPool_modifyStages _).bind fun _ => keepsPool_pure _

/-- Declaring a uniform keeps pools well-formed. -/
theorem keepsPool_declareUniform (id : NodeId) (type : ValueType) :
    KeepsPool (declareUniform id type) := by
  have keepsName : KeepsPool (nameUniform id) := by
    apply keepsPool_get.bind
    intro current
    split
    · exact keepsPool_pure _
    · refine (keepsPool_modifyStages _).bind fun _ => ?_
      apply (keepsPool_onPool (Pool.keeps_query _)).bind
      intro inner
      exact (keepsPool_modifyStages _).bind fun _ => keepsPool_pure _
  apply keepsName.bind
  intro name
  exact (keepsPool_modifyStages _).bind fun _ => keepsPool_pure _

/-- Replacing nodes by declared variables keeps pools well-formed. -/
theorem keepsPool_replaceAll {declare : NodeId → ValueType → VertexBindingM String}
    (keeps : ∀ id type, KeepsPool (declare id type)) (ids : List NodeId) (expr : NodeId) :
    KeepsPool (replaceAll declare ids expr) := by
  induction ids generalizing expr with
  | nil => exact keepsPool_pure expr
  | cons id rest ih =>
      apply (keepsPool_onPool (Pool.keeps_query _)).bind
      intro type
      apply (keeps id type).bind
      intro name
      apply (keepsPool_onPool (Pool.keeps_var _ _)).bind
      intro reference
      exact (keepsPool_onPool (Pool.keeps_substitute _ _ _)).bind fun next => ih next

/-- Binding the inputs of one output keeps pools well-formed. -/
theorem keepsPool_bindOutput (expr : NodeId) : KeepsPool (bindOutput expr) := by
  apply (keepsPool_onPool (keeps_unwrapFragments _)).bind
  intro plain
  apply (keepsPool_onPool (Pool.keeps_query _)).bind
  intro attributes
  apply (keepsPool_replaceAll keepsPool_declareAttribute _ _).bind
  intro rest
  apply (keepsPool_onPool (Pool.keeps_query _)).bind
  intro uniforms
  exact keepsPool_replaceAll keepsPool_declareUniform _ _

/-- Binding the inputs of all outputs keeps pools well-formed. -/
theorem keepsPool_bindOutputs (entries : List (String × NodeId)) :
    KeepsPool (bindOutputs entries) := by
  induction entries with
  | nil => exact keepsPool_pure ()
  | cons first rest ih =>
      apply (keepsPool_bindOutput _).bind
      intro expr
      exact (keepsPool_modifyStages _).bind fun _ => ih

end VertexBinding

/-! ### Calls -/

/-- A call on a pool, with its arguments. -/
inductive Call where
  | constant (type : ValueType) (components : List Binary64)
  | var (type : ValueType) (name : String)
  | unary (op : UnaryOp) (operand : NodeId)
  | binary (lhs : NodeId) (op : BinaryOp) (rhs : NodeId)
  | qualify (kind : Qualifier) (inner : NodeId)
  | shader (program : Program)
  | substitute (root target replacement : NodeId)
  | mark (root : NodeId)
  | sweep
  | markEffect (effect : Effect)
  | split (effect : Effect) (reserved : Glsl.ReservedNames)
  | bindVertexInputs (stages : Stages)
  | build (effect : Effect) (options : Glsl.EmitOptions)

namespace Pool

variable {pool before after : Pool}

/-- The pool that binding the inputs of stages leaves, whether or not it fails. -/
def leftByBinding (pool : Pool) (stages : Stages) : Pool :=
  match Stages.bindVertexInputs (pool, stages) with
  | .ok _ (left, _) => left
  | .error _ (left, _) => left

/-- The pool that a call leaves. -/
def afterCall (pool : Pool) : Call → Pool
  | .constant type components => pool.leftBy (constant type components)
  | .var type name => pool.leftBy (var type name)
  | .unary op operand => pool.leftBy (unary op operand)
  | .binary lhs op rhs => pool.leftBy (binary lhs op rhs)
  | .qualify kind inner => pool.leftBy (qualify kind inner)
  | .shader program => pool.leftBy (shader program)
  | .substitute root target replacement => pool.leftBy (substitute root target replacement)
  | .mark root => pool.leftBy (mark root)
  | .sweep => pool.leftBy sweep
  | .markEffect effect => pool.leftBy effect.mark
  | .split effect reserved => pool.leftBy (effect.split reserved)
  | .bindVertexInputs stages => pool.leftByBinding stages
  | .build effect options => pool.leftBy (effect.build options)

/-- The pool after a sequence of calls. -/
def afterCalls (pool : Pool) (calls : List Call) : Pool :=
  calls.foldl afterCall pool

/-- The pool is left by some calls on an empty pool. -/
def Reachable (pool : Pool) : Prop :=
  ∃ session calls, pool = (empty session).afterCalls calls

/-- The empty pool is well-formed. -/
theorem wellFormed_empty (session : Nat) : (empty session).WellFormed where
  admitted _ _ found := by simp [Pool.entry?, empty] at found
  older _ _ found := by simp [Pool.entry?, empty] at found
  indexed node id := by simp [Pool.node?, Pool.entry?, empty]
  marked id member := absurd member Std.TreeSet.not_mem_emptyc

/-- Binding the vertex inputs leaves the pool that binding output after output leaves. -/
theorem leftByBinding_eq (pool : Pool) (stages : Stages) :
    pool.leftByBinding stages =
      VertexBinding.poolLeftBy ⟨pool, stages, .empty⟩
        (VertexBinding.bindOutputs stages.vertex.outputs.entries) := by
  unfold leftByBinding Stages.bindVertexInputs VertexBinding.poolLeftBy
  cases ran : VertexBinding.bindOutputs stages.vertex.outputs.entries ⟨pool, stages, .empty⟩ with
  | ok result binding => simp only [ran]
  | error cause binding => simp only [ran]

/-- Splitting an effect and binding its inputs keeps pools well-formed. -/
theorem keeps_boundStages (effect : Effect) (reserved : Glsl.ReservedNames) :
    Keeps (effect.boundStages reserved) := by
  intro pool wf
  have kept := Effect.keeps_split effect reserved pool wf
  unfold leftBy Effect.boundStages at *
  cases ran : effect.split reserved pool with
  | error cause middle =>
      rw [ran] at kept
      exact kept
  | ok stages middle =>
      rw [ran] at kept
      have bound := VertexBinding.keepsPool_bindOutputs stages.vertex.outputs.entries
        ⟨middle, stages, .empty⟩ kept.1
      rw [← leftByBinding_eq] at bound
      unfold leftByBinding at bound
      cases done : Stages.bindVertexInputs (middle, stages) with
      | ok result state =>
          rw [done] at bound
          simp only [done]
          exact ⟨bound.1, kept.2.trans bound.2⟩
      | error cause state =>
          rw [done] at bound
          simp only [done]
          exact ⟨bound.1, kept.2.trans bound.2⟩

/-- Building an effect keeps pools well-formed, also when it fails on the way. -/
theorem keeps_build (effect : Effect) (options : Glsl.EmitOptions) :
    Keeps (effect.build options) := by
  refine (keeps_boundStages _ _).bind fun stages => (keeps_shader _).bind fun vertex => ?_
  refine (keeps_shader _).bind fun fragment => (keeps_query _).bind fun sources => ?_
  exact keeps_pure _

/-- Marking an effect keeps a pool well-formed and changes no node. -/
theorem WellFormed.markEffect (wf : pool.WellFormed) (effect : Effect) :
    (pool.leftBy effect.mark).WellFormed ∧ pool.Extends (pool.leftBy effect.mark) := by
  have first := wf.mark effect.position
  cases ran : Pool.mark effect.position pool with
  | ok result middle =>
      have same : pool.leftBy effect.mark = middle.leftBy (Pool.mark effect.color) := by
        rw [leftBy, Effect.mark, bind_of_ok ran, leftBy]
      rw [leftBy_of_ok ran] at first
      have second := first.1.mark effect.color
      rw [same]
      exact ⟨second.1, first.2.trans second.2⟩
  | error cause middle =>
      have same : pool.leftBy effect.mark = middle := by
        rw [leftBy, Effect.mark, bind_of_error ran]
      rw [leftBy_of_error ran] at first
      rw [same]
      exact first

/-- An operation that keeps pools well-formed extends them. -/
theorem Keeps.extends {α : Type} {operation : PoolM α} (keeps : Keeps operation)
    (wf : pool.WellFormed) :
    (pool.leftBy operation).WellFormed ∧ pool.Extends (pool.leftBy operation) :=
  (keeps pool wf).imp_right Grows.toExtends

/-- A call other than a sweep keeps a pool well-formed, and removes and changes no node. -/
theorem WellFormed.extends_afterCall (wf : pool.WellFormed) {call : Call}
    (notSweep : call ≠ .sweep) :
    (pool.afterCall call).WellFormed ∧ pool.Extends (pool.afterCall call) := by
  cases call with
  | constant type components => exact (keeps_constant type components).extends wf
  | var type name => exact (keeps_var type name).extends wf
  | unary op operand => exact (keeps_unary op operand).extends wf
  | binary lhs op rhs => exact (keeps_binary lhs op rhs).extends wf
  | qualify kind inner => exact (keeps_qualify kind inner).extends wf
  | shader program => exact (keeps_shader program).extends wf
  | substitute root target replacement =>
      exact (keeps_substitute root target replacement).extends wf
  | mark root => exact wf.mark root
  | sweep => exact absurd rfl notSweep
  | markEffect effect => exact wf.markEffect effect
  | split effect reserved => exact (Effect.keeps_split effect reserved).extends wf
  | bindVertexInputs stages =>
      have kept := VertexBinding.keepsPool_bindOutputs stages.vertex.outputs.entries
        ⟨pool, stages, .empty⟩ wf
      rw [← leftByBinding_eq] at kept
      exact kept.imp_right Grows.toExtends
  | build effect options => exact (keeps_build effect options).extends wf

/-- A call keeps a pool well-formed and gives no identity another node. -/
theorem WellFormed.afterCall (wf : pool.WellFormed) (call : Call) :
    (pool.afterCall call).WellFormed ∧ pool.Persists (pool.afterCall call) := by
  by_cases isSweep : call = .sweep
  · rw [isSweep]
    exact ⟨wf.swept, pool.persists_swept⟩
  · exact (wf.extends_afterCall isSweep).imp_right Persists.of_extends

/-- Calls keep a pool well-formed, and identities persist through all of them. -/
theorem WellFormed.afterCalls (wf : pool.WellFormed) (calls : List Call) :
    (pool.afterCalls calls).WellFormed ∧ pool.Persists (pool.afterCalls calls) := by
  induction calls generalizing pool with
  | nil => exact ⟨wf, Persists.refl pool⟩
  | cons call rest ih =>
      obtain ⟨wfFirst, first⟩ := wf.afterCall call
      obtain ⟨wfRest, later⟩ := ih wfFirst
      exact ⟨wfRest, first.trans later⟩

/-- Every reachable pool is well-formed. -/
theorem Reachable.wellFormed (reachable : pool.Reachable) : pool.WellFormed := by
  obtain ⟨session, calls, rfl⟩ := reachable
  exact ((wellFormed_empty session).afterCalls calls).1

/-- A reachable pool stays reachable after another call. -/
theorem Reachable.afterCall (reachable : pool.Reachable) (call : Call) :
    (pool.afterCall call).Reachable := by
  obtain ⟨session, calls, rfl⟩ := reachable
  exact ⟨session, calls ++ [call], by rw [afterCalls, afterCalls, List.foldl_concat]⟩

end Pool

end Shading
