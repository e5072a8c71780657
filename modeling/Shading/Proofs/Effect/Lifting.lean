import Mathlib.Data.List.Nodup
import Shading.Proofs.Reachable

/-!
# Stages in a later pool

The stages of a split effect may be kept while the pool changes, nodes being added and collected,
before the inputs of the vertex stage are bound. The names that the split gave still stand for what
they stood for, because identities are not used again (`Effect.sound_of_split`). So binding
succeeds if the vertex outputs are expressions of the pool (`Effect.bind_spec`), and if it succeeds
they are (`Effect.exists_tree?_of_bind`).
-/

namespace Shading

variable {pool middle now : Pool} {effect : Effect} {reserved : Glsl.ReservedNames}
  {stages : Stages} {binding after : VertexBinding}

/-- An output can be bound only if it is in the pool. -/
theorem VertexBinding.contains_of_bindOutput {expr result : NodeId}
    (wf : binding.pool.WellFormed)
    (ran : VertexBinding.bindOutput expr binding = .ok result after) :
    binding.pool.contains expr = true := by
  obtain ⟨plain, first, ranPlain, -⟩ := exists_of_bind_ok ran
  obtain ⟨left, unwrapped, -⟩ := exists_of_onPool_ok ranPlain
  obtain ⟨ids, _, asked, -⟩ := exists_of_bind_ok unwrapped
  exact (wf.of_qualifiedAs (Pool.query_eq_ok asked).1).1

/-- Outputs that were bound were in the pool. -/
theorem VertexBinding.contains_of_bindOutputs {entries : List (String × NodeId)}
    (wf : binding.pool.WellFormed)
    (ran : VertexBinding.bindOutputs entries binding = .ok () after) :
    ∀ entry ∈ entries, entry.2 < binding.pool.slots.size →
      binding.pool.contains entry.2 = true := by
  induction entries generalizing binding with
  | nil => nofun
  | cons first rest ih =>
      obtain ⟨result, lifted, ranFirst, ranWrite⟩ := exists_of_bind_ok ran
      obtain ⟨_, written, wrote, ranRest⟩ := exists_of_bind_ok ranWrite
      obtain ⟨wfLifted, grows⟩ := (keepsPool_bindOutput _).of_ok wf ranFirst
      have samePool : written.pool = lifted.pool := by
        cases wrote
        rfl
      intro entry member inside
      rcases List.mem_cons.mp member with rfl | later
      · exact contains_of_bindOutput wf ranFirst
      · have present := ih (samePool ▸ wfLifted) ranRest entry later
          (Nat.lt_of_lt_of_le inside (samePool ▸ grows.size))
        rwa [Pool.contains, samePool, grows.entry entry.2 inside] at present

/-- Binding succeeds if the outputs are bound one after the other. -/
theorem Stages.bindVertexInputs_of_ok
    (ran : VertexBinding.bindOutputs stages.vertex.outputs.entries ⟨pool, stages, .empty⟩ =
      .ok () binding) :
    Stages.bindVertexInputs (pool, stages) = .ok () (binding.pool, binding.stages) := by
  rw [bindVertexInputs, ran]

/-- If binding succeeds, the outputs were bound one after the other. -/
theorem Stages.exists_of_bindVertexInputs {lifted : Stages}
    (bound : Stages.bindVertexInputs (pool, stages) = .ok () (now, lifted)) :
    ∃ names, VertexBinding.bindOutputs stages.vertex.outputs.entries ⟨pool, stages, .empty⟩ =
      .ok () ⟨now, lifted, names⟩ := by
  cases ran : VertexBinding.bindOutputs stages.vertex.outputs.entries ⟨pool, stages, .empty⟩ with
  | ok _ binding =>
      rw [bindVertexInputs_of_ok ran] at bound
      cases bound
      exact ⟨binding.attributeNames, rfl⟩
  | error cause binding =>
      rw [bindVertexInputs, ran] at bound
      cases bound

/-- Moved expressions have different names. -/
theorem nodup_names {moved : List Moved} {nameOf : Nat → String} {count : Nat}
    (injective : ∀ {first second}, nameOf first = nameOf second → first = second)
    (names : moved.map Moved.name = (List.range count).map nameOf) :
    ((moved.map fun item => (item.name, item.inner)).map Prod.fst).Nodup := by
  rw [List.map_map]
  change (moved.map Moved.name).Nodup
  rw [names]
  exact List.Nodup.map (fun _ _ => injective) List.nodup_range

namespace Effect

/-- Nothing of a split is lost in a later pool. -/
theorem sound_of_split (wf : pool.WellFormed)
    (ran : effect.split reserved pool = .ok stages middle) (wfNow : now.WellFormed)
    (persists : middle.Persists now) : VertexBinding.Sound ⟨now, stages, .empty⟩ := by
  obtain ⟨varyings, uniforms, movedVaryings, movedUniforms, left, rfl, -, distinct, records⟩ :=
    split_ok wf ran
  have distinctNames := nodup_names uniformName_injective records.name
  have distinctIds : ((movedUniforms.map fun item => (item.qualified, item.name)).map
      Prod.fst).Nodup := by
    rw [List.map_map]
    change (movedUniforms.map Moved.qualified).Nodup
    rwa [records.qualified]
  have size : (Table.ofList (movedUniforms.map fun item =>
      (item.qualified, item.name))).size = uniforms.length := by
    rw [Table.size_ofList distinctIds, List.length_map, ← records.qualified, List.length_map]
  have numbered : ∀ item ∈ movedUniforms, ∃ number < uniforms.length,
      item.name = uniformName number := by
    intro item member
    have isName : item.name ∈ movedUniforms.map Moved.name := List.mem_map_of_mem member
    rw [records.name] at isName
    obtain ⟨number, inside, same⟩ := List.mem_map.mp isName
    exact ⟨number, List.mem_range.mp inside, same.symm⟩
  refine ⟨wfNow, ?_, ?_, ?_⟩
  · intro id name known
    cases known
  · intro id name known
    change Table.get? (effect.assembled _ _ _ _).uniformNames id = some name at known
    change (∃ number < (effect.assembled _ _ _ _).uniformNames.size, _) ∧ _ ∧
      ∀ kind inner, _ → (effect.assembled _ _ _ _).bindings.get? name = some inner
    rw [uniformNames_assembled, Table.get?_ofList_eq_some_iff distinctIds] at known
    rw [uniformNames_assembled, bindings_assembled, size]
    obtain ⟨item, member, itemEq⟩ := List.mem_map.mp known
    cases itemEq
    obtain ⟨kind, found⟩ := records.inner item member
    have inside := Pool.lt_size_of_node? found
    refine ⟨numbered item member, Nat.lt_of_lt_of_le inside persists.size, ?_⟩
    intro otherKind inner otherFound
    -- The node may have been collected since. If it is there, it is the one that was moved.
    have sameNode := persists.node?_eq_some inside otherFound
    rw [found] at sameNode
    cases sameNode
    exact (Table.get?_ofList_eq_some_iff distinctNames).mpr (List.mem_map_of_mem member)
  · intro name id bound
    change (effect.assembled _ _ _ _).bindings.get? name = some id at bound
    change _ ∨ ∃ number < (effect.assembled _ _ _ _).uniformNames.size, _
    rw [bindings_assembled, Table.get?_ofList_eq_some_iff distinctNames] at bound
    rw [uniformNames_assembled, size]
    obtain ⟨item, member, itemEq⟩ := List.mem_map.mp bound
    cases itemEq
    exact Or.inr (numbered item member)

/-- A vertex output of a split is the position or an expression. -/
theorem type?_of_output (wf : pool.WellFormed)
    (ran : effect.split reserved pool = .ok stages middle) {name : String} {expr : NodeId}
    (output : stages.vertex.outputs.get? name = some expr) :
    expr = effect.position ∨ (middle.type? expr).isSome := by
  obtain ⟨wfMiddle, -⟩ := (keeps_split effect reserved).of_ok wf ran
  obtain ⟨varyings, uniforms, movedVaryings, movedUniforms, left, rfl, records, -⟩ :=
    split_ok wf ran
  have distinctNames := nodup_names varyingName_injective records.name
  rw [outputs_assembled, Table.get?_insert] at output
  split at output
  next =>
    cases output
    exact Or.inl rfl
  next =>
    obtain ⟨item, member, itemEq⟩ :=
      List.mem_map.mp ((Table.get?_ofList_eq_some_iff distinctNames).mp output)
    cases itemEq
    obtain ⟨kind, found⟩ := records.inner item member
    exact Or.inr (wfMiddle.child_type? found List.mem_cons_self)

/-- If the inputs of the vertex stage could be bound, the vertex outputs are expressions of the
pool. -/
theorem exists_tree?_of_bind {lifted : Pool × Stages} (wf : pool.WellFormed)
    (ran : effect.split reserved pool = .ok stages middle) (wfNow : now.WellFormed)
    (persists : middle.Persists now) {type : ValueType}
    (isExpr : now.typeOf effect.position = .ok type)
    (bound : Stages.bindVertexInputs (now, stages) = .ok () lifted) {name : String}
    {expr : NodeId} (output : stages.vertex.outputs.get? name = some expr) :
    ∃ tree, now.tree? expr = some tree := by
  rcases type?_of_output wf ran output with rfl | typed
  · exact wfNow.exists_tree?_of_typeOf isExpr
  · apply wfNow.exists_tree?_of_type?
    apply persists.isSome_type? typed
    obtain ⟨type, typeEq⟩ := Option.isSome_iff_exists.mp typed
    have inside := Nat.lt_of_lt_of_le (Pool.lt_size_of_type? typeEq) persists.size
    obtain ⟨names, ranOutputs⟩ := Stages.exists_of_bindVertexInputs bound
    exact VertexBinding.contains_of_bindOutputs wfNow ranOutputs (name, expr)
      (Table.get?_eq_some_iff.mp output) inside

end Effect

/-- Binding succeeds with every vertex output bound, if they all are expressions. -/
theorem Stages.bind_spec (sound : VertexBinding.Sound ⟨now, stages, .empty⟩)
    (unfold : ∀ name expr, stages.vertex.outputs.get? name = some expr →
      ∃ tree, now.tree? expr = some tree) :
    ∃ after : VertexBinding,
      Stages.bindVertexInputs (now, stages) = .ok () (after.pool, after.stages) ∧
      after.Sound ∧ VertexBinding.Extends ⟨now, stages, .empty⟩ after ∧
      (∀ name expr tree, stages.vertex.outputs.get? name = some expr →
        now.tree? expr = some tree → ∃ attributes uniforms result,
          after.stages.vertex.outputs.get? name = some result ∧
            after.Bound tree attributes uniforms result) ∧
      ∀ name, stages.vertex.outputs.get? name = none →
        after.stages.vertex.outputs.get? name = none := by
  obtain ⟨after, ran, soundAfter, extended, bound, untouched⟩ :=
    VertexBinding.bindOutputs_spec sound stages.vertex.outputs.entries_pairwise_ne
      fun entry member => unfold entry.1 entry.2 (Table.get?_eq_some_iff.mpr member)
  refine ⟨after, ?_, soundAfter, extended, ?_, ?_⟩
  · exact bindVertexInputs_of_ok ran
  · intro name expr tree output unfolded
    exact bound (name, expr) (Table.get?_eq_some_iff.mp output) tree unfolded
  · intro name absent
    rw [untouched name ?_, absent]
    intro entry member same
    rw [← same, Table.get?_eq_some_iff.mpr member] at absent
    cases absent

end Shading
