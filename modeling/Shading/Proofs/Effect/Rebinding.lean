import Shading.Proofs.Agreement
import Shading.Proofs.Effect.Qualifiers

/-!
# Binding a second time

Binding the inputs of stages starts without names of attributes, whatever was bound before. A second
time it succeeds whenever the first time did, because an output that was bound can be bound again
(`Pool.Bindable`). It changes nothing if nothing qualified is left in the vertex outputs, and only
then: what is left would be taken out, and every output gets smaller in which something is taken
out (`Tree.free_of_bound_eq`).
-/

namespace Shading

variable {pool before after : Pool} {root expr result : NodeId} {tree : Tree}

/-! ### Expressions that stay the same -/

/-- A tree that stays the same when everything qualified is taken out has nothing qualified. -/
theorem Tree.free_of_bound_eq {attributes uniforms : List String}
    (enoughAttributes : ((tree.unwrap .fragment).listed .attr).length ≤ attributes.length)
    (enoughUniforms :
      ((tree.withoutAttributes attributes).listed .uniform).length ≤ uniforms.length)
    (same : (tree.withoutAttributes attributes).extract
      ((tree.withoutAttributes attributes).listed .uniform) uniforms = tree) :
    tree.Free [.attr, .fragment, .uniform] := by
  have noFragment : tree.Free [.fragment] := by
    rw [← same]
    exact Free.extract (Free.extract (tree.free_unwrap .fragment))
  have plain : tree.unwrap .fragment = tree :=
    unwrap_of_absent fun small member => noFragment small member .fragment List.mem_cons_self
  -- What is left in the end is not larger than what is left after the attributes.
  have smaller := length_subtrees_extract_le (tree.withoutAttributes attributes)
    ((tree.withoutAttributes attributes).listed .uniform) uniforms
  rw [same] at smaller
  rw [withoutAttributes, plain] at same smaller enoughUniforms
  rw [plain] at enoughAttributes
  have noAttribute := listed_eq_nil_of_extract_le enoughAttributes smaller
  rw [noAttribute, extract_nil] at same enoughUniforms
  have noUniform := listed_eq_nil_of_extract_le enoughUniforms (by rw [same])
  intro small member kind isKind
  cases kind with
  | attr => exact listed_eq_nil_iff.mp noAttribute small member
  | fragment => exact noFragment small member .fragment List.mem_cons_self
  | uniform => exact listed_eq_nil_iff.mp noUniform small member

namespace Pool

/-- Nothing below a root has one of the qualifiers if nothing is collected for them. -/
theorem WellFormed.unqualified_iff_qualifiedAs (wf : pool.WellFormed)
    (present : pool.contains root = true) {kinds : List Qualifier} :
    pool.Unqualified kinds root ↔ ∀ kind ∈ kinds, pool.qualifiedAs root kind = .ok [] := by
  have entered := wf.preOrder_eq present
  have collectsNone : ∀ kind, pool.qualifiedAs root kind = .ok [] ↔
      ∀ id, pool.Below root id → ¬(pool.node? id).any (·.qualifier? = some kind) = true := by
    intro kind
    rw [qualifiedAs, collect_eq_preOrder, entered, Except.map, Except.ok.injEq,
      List.filter_eq_nil_iff]
    simp only [wf.mem_preOrder_iff entered]
  constructor
  · intro unqualified kind isKind
    rw [collectsNone]
    intro id below isQualified
    obtain ⟨node, found, hasKind⟩ := (Option.any_eq_true _ _).mp isQualified
    obtain ⟨inner, rfl⟩ := Node.eq_qualified_of_qualifier? (of_decide_eq_true hasKind)
    exact unqualified id kind inner below found isKind
  · intro nothing id kind inner below found isKind
    apply (collectsNone kind).mp (nothing kind isKind) id below
    rw [found]
    exact decide_eq_true rfl

/-- Whether anything below a root is qualified stays the same when the pool grows. -/
theorem Grows.unqualified_iff {kinds : List Qualifier} (grows : before.Grows after)
    (wf : before.WellFormed) (wfAfter : after.WellFormed)
    (present : before.contains root = true) :
    after.Unqualified kinds root ↔ before.Unqualified kinds root := by
  obtain ⟨entry, found⟩ := Option.isSome_iff_exists.mp present
  have sameCollected : ∀ kind, after.qualifiedAs root kind = before.qualifiedAs root kind :=
    fun kind => (grows.agreesOn wf).collect_eq wf (lt_size_of_present found) _
  rw [wf.unqualified_iff_qualifiedAs present,
    wfAfter.unqualified_iff_qualifiedAs (grows.contains present)]
  simp only [sameCollected]

/-- A program is not among what is collected for a qualifier. -/
theorem WellFormed.program_notMem (wf : pool.WellFormed) {program : Program}
    (isProgram : pool.node? root = some (.shader program)) {kind : Qualifier} {ids : List NodeId}
    (collected : pool.qualifiedAs root kind = .ok ids) : root ∉ ids := by
  intro member
  obtain ⟨inner, found⟩ := (wf.of_qualifiedAs collected).2.2 root member
  rw [isProgram] at found
  cases found

/-- What can be bound as an output: an expression, or a program without anything qualified. -/
def Bindable (pool : Pool) (root : NodeId) : Prop :=
  (∃ tree, pool.tree? root = some tree) ∨
    pool.contains root = true ∧ pool.Unqualified [.attr, .fragment, .uniform] root

/-- What can be bound is in the pool. -/
theorem Bindable.contains (bindable : pool.Bindable root) (wf : pool.WellFormed) :
    pool.contains root = true := by
  rcases bindable with ⟨tree, unfolded⟩ | ⟨present, -⟩
  · exact wf.contains_of_tree? unfolded
  · exact present

/-- What can be bound still can when the pool grows. -/
theorem Bindable.grow (bindable : before.Bindable root) (wf : before.WellFormed)
    (wfAfter : after.WellFormed) (grows : before.Grows after) : after.Bindable root := by
  rcases bindable with ⟨tree, unfolded⟩ | ⟨present, unqualified⟩
  · exact Or.inl ⟨tree, grows.tree?_eq wf wfAfter unfolded⟩
  · exact Or.inr ⟨grows.contains present,
      (grows.unqualified_iff wf wfAfter present).mpr unqualified⟩

end Pool

namespace VertexBinding

variable {α : Type} {before middle after binding : VertexBinding} {type : ValueType} {id : NodeId}

/-! ### Outputs that can be bound -/

/-- Nodes are added to a pool, and the vertex outputs are not touched. -/
structure Adds (before after : VertexBinding) : Prop where
  wellFormed : after.pool.WellFormed
  pool : before.pool.Grows after.pool
  outputs : after.stages.vertex.outputs = before.stages.vertex.outputs

theorem Adds.refl (wf : binding.pool.WellFormed) : binding.Adds binding :=
  ⟨wf, Pool.Grows.refl _, rfl⟩

theorem Adds.trans (first : before.Adds middle) (second : middle.Adds after) :
    before.Adds after where
  wellFormed := second.wellFormed
  pool := first.pool.trans second.pool
  outputs := second.outputs.trans first.outputs

/-- The operation gives every qualified expression a name. It changes neither the pool nor the
vertex outputs. -/
def GivesNames (declare : NodeId → ValueType → VertexBindingM String) : Prop :=
  ∀ (binding : VertexBinding) (id : NodeId) (type : ValueType) kind inner,
    binding.pool.node? id = some (.qualified kind inner) →
      ∃ name after, declare id type binding = .ok name after ∧ after.pool = binding.pool ∧
        after.stages.vertex.outputs = binding.stages.vertex.outputs

/-- Declaring attributes gives names. -/
theorem givesNames_declareAttribute : GivesNames declareAttribute := by
  intro binding id type kind inner found
  cases known : binding.attributeNames.get? id with
  | some name => exact ⟨name, binding, declareAttribute_of_known known type, rfl, rfl⟩
  | none => exact ⟨_, _, declareAttribute_of_new known found type, rfl, rfl⟩

/-- Declaring uniforms gives names. -/
theorem givesNames_declareUniform : GivesNames declareUniform := by
  intro binding id type kind inner found
  cases known : binding.stages.uniformNames.get? id with
  | some name =>
      exact ⟨name, _, declareUniform_of_name (nameUniform_of_known known) type, rfl,
        withUniform_outputs name type⟩
  | none =>
      exact ⟨_, _, declareUniform_of_name (nameUniform_of_new known found) type, rfl,
        withUniform_outputs _ type⟩

/-- Whatever was declared before, qualified expressions are extracted under some names. -/
theorem replaceAll_extracts {declare : NodeId → ValueType → VertexBindingM String}
    (givesNames : GivesNames declare) {ids : List NodeId} {targets : List Tree} {kind : Qualifier}
    (wf : binding.pool.WellFormed) (unfolded : binding.pool.tree? expr = some tree)
    (unfolds : binding.pool.Unfolds ids targets)
    (qualified : ∀ target ∈ targets, target.qualifier? = some kind) :
    ∃ names result after, replaceAll declare ids expr binding = .ok result after ∧
      binding.Adds after ∧ names.length = targets.length ∧
      after.pool.tree? result = some (tree.extract targets names) := by
  induction ids generalizing targets tree expr binding with
  | nil =>
      cases unfolds
      exact ⟨[], expr, binding, rfl, Adds.refl wf, rfl, unfolded⟩
  | cons id rest ih =>
      cases unfolds with
      | cons isTarget later =>
          rename_i target targets
          obtain ⟨type, typeEq, -⟩ := wf.exists_type? isTarget
          obtain ⟨inner, found⟩ :=
            wf.node?_of_qualifier? isTarget (qualified target List.mem_cons_self)
          obtain ⟨name, named, ranName, samePool, sameOutputs⟩ :=
            givesNames binding id type kind inner found
          obtain ⟨next, left, step, wfLeft, growsLeft, nextTree⟩ :=
            replaceAll_step wf unfolded isTarget typeEq ranName samePool rest
          rw [samePool] at growsLeft
          have first : binding.Adds { named with pool := left } := ⟨wfLeft, growsLeft, sameOutputs⟩
          obtain ⟨names, result, after, ran, adds, sameLength, resultTree⟩ :=
            ih first.wellFormed nextTree (first.pool.unfolds wf first.wellFormed later)
              fun other member => qualified other (List.mem_cons_of_mem _ member)
          exact ⟨name :: names, result, after, step.trans ran, first.trans adds,
            congrArg Nat.succ sameLength, resultTree⟩

/-- Replacing what is collected for a qualifier takes the listed trees out, each under a name. -/
theorem replaceListed_extracts {declare : NodeId → ValueType → VertexBindingM String}
    (givesNames : GivesNames declare) (wf : binding.pool.WellFormed)
    (unfolded : binding.pool.tree? expr = some tree) (kind : Qualifier) :
    ∃ ids names result after,
      onPool (Pool.query (·.qualifiedAs expr kind)) binding = .ok ids binding ∧
      replaceAll declare ids expr binding = .ok result after ∧ binding.Adds after ∧
      names.length = (tree.listed kind).length ∧
      after.pool.tree? result = some (tree.extract (tree.listed kind) names) := by
  obtain ⟨ids, collected, unfolds⟩ := wf.qualifiedAs_spec unfolded kind
  obtain ⟨names, result, after, ran, rest⟩ :=
    replaceAll_extracts givesNames wf unfolded unfolds fun _ => Tree.qualifier?_of_mem_listed
  exact ⟨ids, names, result, after, onPool_of_ok (Pool.query_of_ok collected), ran, rest⟩

/-- An expression can be bound; if it stays the same, there is nothing qualified in it. -/
theorem bindOutput_of_tree? (wf : binding.pool.WellFormed)
    (unfolded : binding.pool.tree? expr = some tree) :
    ∃ result after, bindOutput expr binding = .ok result after ∧ binding.Adds after ∧
      after.pool.Bindable result ∧
      (result = expr → binding.pool.Unqualified [.attr, .fragment, .uniform] expr) := by
  obtain ⟨plain, left, ranPlain, wfLeft, growsLeft, plainTree⟩ :=
    builds_unwrapFragments wf unfolded
  have first : binding.Adds { binding with pool := left } := ⟨wfLeft, growsLeft, rfl⟩
  obtain ⟨attributeIds, attributes, rest, middle, collected, ranRest, second, attributesLength,
    restTree⟩ := replaceListed_extracts givesNames_declareAttribute first.wellFormed plainTree .attr
  obtain ⟨uniformIds, uniforms, result, after, collectedAgain, ran, third, uniformsLength,
    resultTree⟩ :=
      replaceListed_extracts givesNames_declareUniform second.wellFormed restTree .uniform
  have adds := (first.trans second).trans third
  refine ⟨result, after, ?_, adds, Or.inl ⟨_, resultTree⟩, ?_⟩
  · rw [bindOutput, bind_of_ok (onPool_of_ok ranPlain), bind_of_ok collected, bind_of_ok ranRest,
      bind_of_ok collectedAgain, ran]
  · rintro rfl
    rw [adds.pool.tree?_eq wf adds.wellFormed unfolded] at resultTree
    rw [wf.unqualified_iff unfolded]
    exact Tree.free_of_bound_eq attributesLength.ge uniformsLength.ge
      (Option.some.inj resultTree).symm

/-- An output without anything qualified is bound as it is. -/
theorem bindOutput_of_unqualified (wf : binding.pool.WellFormed)
    (present : binding.pool.contains expr = true)
    (unqualified : binding.pool.Unqualified [.attr, .fragment, .uniform] expr) :
    bindOutput expr binding = .ok expr binding := by
  have nothing := (wf.unqualified_iff_qualifiedAs present).mp unqualified
  have collectsNone : ∀ kind ∈ [.attr, .fragment, .uniform],
      onPool (Pool.query (·.qualifiedAs expr kind)) binding = .ok [] binding := by
    intro kind isKind
    exact onPool_of_ok (Pool.query_of_ok (nothing kind isKind))
  have plain : unwrapFragments expr binding.pool = .ok expr binding.pool := by
    rw [unwrapFragments, bind_of_ok (Pool.query_of_ok (nothing .fragment (by decide)))]
    rfl
  have unwrapped : onPool (unwrapFragments expr) binding = .ok expr binding := onPool_of_ok plain
  have kept : replaceAll declareAttribute [] expr binding = .ok expr binding := rfl
  rw [bindOutput, bind_of_ok unwrapped, bind_of_ok (collectsNone .attr (by decide)),
    bind_of_ok kept, bind_of_ok (collectsNone .uniform (by decide))]
  rfl

/-! ### Programs as outputs -/

/-- A question to the pool that succeeds changes nothing. -/
theorem onPool_query_eq_ok {ask : Pool → Except Error α} {answer : α}
    (ran : onPool (Pool.query ask) binding = .ok answer after) :
    ask binding.pool = .ok answer ∧ after = binding := by
  obtain ⟨left, queried, rfl⟩ := exists_of_onPool_ok ran
  obtain ⟨asked, rfl⟩ := Pool.query_eq_ok queried
  exact ⟨asked, rfl⟩

/-- Nothing below a program is replaced. -/
theorem eq_nil_of_replaceAll {declare : NodeId → ValueType → VertexBindingM String}
    (keeps : ∀ id type, KeepsPool (declare id type)) {ids : List NodeId} {program : Program}
    (wf : binding.pool.WellFormed) (isProgram : binding.pool.node? expr = some (.shader program))
    (others : expr ∉ ids) (ran : replaceAll declare ids expr binding = .ok result after) :
    ids = [] := by
  cases ids with
  | nil => rfl
  | cons id rest =>
      obtain ⟨type, first, ranType, afterType⟩ := exists_of_bind_ok ran
      obtain ⟨wfFirst, growsFirst⟩ := (keepsPool_onPool (Pool.keeps_query _)).of_ok wf ranType
      obtain ⟨name, second, ranName, afterName⟩ := exists_of_bind_ok afterType
      obtain ⟨wfSecond, growsSecond⟩ := (keeps id type).of_ok wfFirst ranName
      obtain ⟨reference, third, ranVar, afterVar⟩ := exists_of_bind_ok afterName
      obtain ⟨wfThird, growsThird⟩ :=
        (keepsPool_onPool (Pool.keeps_var _ _)).of_ok wfSecond ranVar
      obtain ⟨next, fourth, ranNext, -⟩ := exists_of_bind_ok afterVar
      obtain ⟨left, substituted, -⟩ := exists_of_onPool_ok ranNext
      have grows := (growsFirst.trans growsSecond).trans growsThird
      have same := Pool.eq_target_of_substitute wfThird (grows.node?_eq isProgram) substituted
      exact absurd (same ▸ List.mem_cons_self) others

/-- No `fragment` below a program is unwrapped. -/
theorem unwrapFragments_program {program : Program} {left : Pool} {plain : NodeId}
    (wf : pool.WellFormed) (isProgram : pool.node? expr = some (.shader program))
    (ran : unwrapFragments expr pool = .ok plain left) :
    pool.qualifiedAs expr .fragment = .ok [] ∧ plain = expr ∧ left = pool := by
  obtain ⟨fragments, _, asked, ranRounds⟩ := exists_of_bind_ok ran
  obtain ⟨collected, rfl⟩ := Pool.query_eq_ok asked
  cases fragments with
  | nil =>
      cases ranRounds
      exact ⟨collected, rfl, rfl⟩
  | cons first rest =>
      rw [List.length_cons, unwrapRounds, bind_of_ok (Pool.query_of_ok collected)] at ranRounds
      obtain ⟨inner, _, unwrapped, ranRest⟩ := exists_of_bind_ok ranRounds
      obtain ⟨-, rfl⟩ := Pool.query_eq_ok unwrapped
      obtain ⟨next, middle, substituted, -⟩ := exists_of_bind_ok ranRest
      have same := Pool.eq_target_of_substitute wf isProgram substituted
      exact absurd (same ▸ List.mem_cons_self) (wf.program_notMem isProgram collected)

/-- A program that was bound has nothing qualified. -/
theorem unqualified_of_bindOutput {program : Program} (wf : binding.pool.WellFormed)
    (isProgram : binding.pool.node? expr = some (.shader program))
    (ran : bindOutput expr binding = .ok result after) :
    binding.pool.Unqualified [.attr, .fragment, .uniform] expr := by
  have present := contains_of_bindOutput wf ran
  obtain ⟨plain, first, ranPlain, afterPlain⟩ := exists_of_bind_ok ran
  obtain ⟨left, unwrapped, rfl⟩ := exists_of_onPool_ok ranPlain
  obtain ⟨noFragment, rfl, rfl⟩ := unwrapFragments_program wf isProgram unwrapped
  obtain ⟨attributes, second, asked, afterAsked⟩ := exists_of_bind_ok afterPlain
  obtain ⟨noAttribute, rfl⟩ := onPool_query_eq_ok asked
  obtain ⟨rest, third, replaced, afterReplaced⟩ := exists_of_bind_ok afterAsked
  obtain rfl := eq_nil_of_replaceAll keepsPool_declareAttribute wf isProgram
    (wf.program_notMem isProgram noAttribute) replaced
  cases replaced
  obtain ⟨uniforms, fourth, askedAgain, last⟩ := exists_of_bind_ok afterReplaced
  obtain ⟨noUniform, rfl⟩ := onPool_query_eq_ok askedAgain
  obtain rfl := eq_nil_of_replaceAll keepsPool_declareUniform wf isProgram
    (wf.program_notMem isProgram noUniform) last
  rw [wf.unqualified_iff_qualifiedAs present]
  intro kind _
  cases kind with
  | attr => exact noAttribute
  | fragment => exact noFragment
  | uniform => exact noUniform

/-- What was bound could be bound. -/
theorem bindable_of_bindOutput (wf : binding.pool.WellFormed)
    (ran : bindOutput expr binding = .ok result after) : binding.pool.Bindable expr := by
  have present := contains_of_bindOutput wf ran
  rcases wf.exists_tree?_or_shader present with unfolds | ⟨program, isProgram⟩
  · exact Or.inl unfolds
  · exact Or.inr ⟨present, unqualified_of_bindOutput wf isProgram ran⟩

/-- What can be bound is bound, and can be bound again. If it stays the same, there is nothing
qualified in it. -/
theorem bindOutput_of_bindable (wf : binding.pool.WellFormed)
    (bindable : binding.pool.Bindable expr) :
    ∃ result after, bindOutput expr binding = .ok result after ∧ binding.Adds after ∧
      after.pool.Bindable result ∧
      (result = expr → binding.pool.Unqualified [.attr, .fragment, .uniform] expr) := by
  rcases bindable with ⟨tree, unfolded⟩ | ⟨present, unqualified⟩
  · exact bindOutput_of_tree? wf unfolded
  · exact ⟨expr, binding, bindOutput_of_unqualified wf present unqualified, Adds.refl wf,
      Or.inr ⟨present, unqualified⟩, fun _ => unqualified⟩

/-! ### All outputs -/

/-- The binding with an output of the vertex stage. -/
def withOutput (binding : VertexBinding) (name : String) (output : NodeId) : VertexBinding :=
  { binding with
    stages := { binding.stages with vertex := binding.stages.vertex.setOutput name output } }

@[simp]
theorem withOutput_outputs (binding : VertexBinding) (name : String) (output : NodeId) :
    (binding.withOutput name output).stages.vertex.outputs =
      binding.stages.vertex.outputs.insert name output := rfl

/-- The outputs are bound from the first one on. -/
theorem bindOutputs_cons {name : String} {rest : List (String × NodeId)}
    (ran : bindOutput expr binding = .ok result after) :
    bindOutputs ((name, expr) :: rest) binding =
      bindOutputs rest (after.withOutput name result) := by
  rw [bindOutputs, bind_of_ok ran, bind_of_ok (modifyStages_eq _ after)]
  rfl

/-- Outputs that were bound can be bound again. -/
theorem bindable_of_bindOutputs {entries : List (String × NodeId)} (wf : binding.pool.WellFormed)
    (others : ∀ name output, binding.stages.vertex.outputs.get? name = some output →
      name ∈ entries.map Prod.fst ∨ binding.pool.Bindable output)
    (ran : bindOutputs entries binding = .ok () after) :
    ∀ name output, after.stages.vertex.outputs.get? name = some output →
      after.pool.Bindable output := by
  induction entries generalizing binding with
  | nil =>
      cases ran
      intro name output isOutput
      exact (others name output isOutput).resolve_left List.not_mem_nil
  | cons first rest ih =>
      obtain ⟨name, expr⟩ := first
      obtain ⟨result, lifted, ranFirst, -⟩ := exists_of_bind_ok ran
      obtain ⟨same, _, ranAgain, adds, bindable, -⟩ :=
        bindOutput_of_bindable wf (bindable_of_bindOutput wf ranFirst)
      rw [ranFirst] at ranAgain
      cases ranAgain
      have wfWritten : (lifted.withOutput name result).pool.WellFormed := adds.wellFormed
      rw [bindOutputs_cons ranFirst] at ran
      refine ih wfWritten ?_ ran
      intro other output isOutput
      rw [withOutput_outputs, Table.get?_insert, adds.outputs] at isOutput
      split at isOutput
      next =>
        cases isOutput
        exact Or.inr bindable
      next different =>
        rcases others other output isOutput with isListed | wasBindable
        · exact Or.inl ((List.mem_cons.mp isListed).resolve_left different)
        · exact Or.inr (wasBindable.grow wf adds.wellFormed adds.pool)

/-- Outputs that can be bound are bound. Those that stay the same have nothing qualified. -/
theorem bindOutputs_of_bindable {entries : List (String × NodeId)} (wf : binding.pool.WellFormed)
    (distinct : entries.Pairwise fun left right => left.1 ≠ right.1)
    (bindable : ∀ entry ∈ entries, binding.pool.Bindable entry.2) :
    ∃ after, bindOutputs entries binding = .ok () after ∧
      (∀ entry ∈ entries, after.stages.vertex.outputs.get? entry.1 = some entry.2 →
        binding.pool.Unqualified [.attr, .fragment, .uniform] entry.2) ∧
      ∀ name, (∀ entry ∈ entries, entry.1 ≠ name) →
        after.stages.vertex.outputs.get? name = binding.stages.vertex.outputs.get? name := by
  induction entries generalizing binding with
  | nil => exact ⟨binding, rfl, nofun, fun _ _ => rfl⟩
  | cons first rest ih =>
      obtain ⟨name, expr⟩ := first
      obtain ⟨apart, distinctRest⟩ := List.pairwise_cons.mp distinct
      obtain ⟨bindableFirst, bindableRest⟩ := List.forall_mem_cons.mp bindable
      obtain ⟨result, lifted, ranFirst, adds, -, unqualified⟩ :=
        bindOutput_of_bindable wf bindableFirst
      have wfWritten : (lifted.withOutput name result).pool.WellFormed := adds.wellFormed
      obtain ⟨after, ran, unqualifiedRest, untouched⟩ := ih wfWritten distinctRest
        fun entry member => (bindableRest entry member).grow wf wfWritten adds.pool
      refine ⟨after, (bindOutputs_cons ranFirst).trans ran, List.forall_mem_cons.mpr ⟨?_, ?_⟩, ?_⟩
      · intro same
        rw [untouched name fun entry member => (apart entry member).symm, withOutput_outputs,
          Table.get?_insert_self] at same
        exact unqualified (Option.some.inj same)
      · intro entry member same
        have present := (bindableRest entry member).contains wf
        exact (adds.pool.unqualified_iff wf wfWritten present).mp
          (unqualifiedRest entry member same)
      · intro other absent
        obtain ⟨different, absentRest⟩ := List.forall_mem_cons.mp absent
        rw [untouched other absentRest, withOutput_outputs,
          Table.get?_insert_of_ne _ _ different.symm, adds.outputs]

/-- Outputs without anything qualified are bound as they are. -/
theorem bindOutputs_of_unqualified {entries : List (String × NodeId)}
    (wf : binding.pool.WellFormed)
    (present : ∀ entry ∈ entries, binding.pool.contains entry.2 = true)
    (unqualified : ∀ entry ∈ entries,
      binding.pool.Unqualified [.attr, .fragment, .uniform] entry.2)
    (written : ∀ entry ∈ entries,
      binding.stages.vertex.outputs.get? entry.1 = some entry.2) :
    bindOutputs entries binding = .ok () binding := by
  induction entries with
  | nil => rfl
  | cons first rest ih =>
      obtain ⟨name, expr⟩ := first
      obtain ⟨presentFirst, presentRest⟩ := List.forall_mem_cons.mp present
      obtain ⟨unqualifiedFirst, unqualifiedRest⟩ := List.forall_mem_cons.mp unqualified
      obtain ⟨writtenFirst, writtenRest⟩ := List.forall_mem_cons.mp written
      have same : binding.withOutput name expr = binding := by
        rw [withOutput, Program.setOutput, Table.insert_of_found writtenFirst]
      rw [bindOutputs_cons (bindOutput_of_unqualified wf presentFirst unqualifiedFirst), same]
      exact ih presentRest unqualifiedRest writtenRest

end VertexBinding

/-- Whenever the inputs of stages could be bound, they can be bound a second time. That changes
neither the stages nor the pool if nothing qualified is left in a vertex output, and only then. -/
theorem Stages.bind_again (reachable : pool.Reachable) {stages lifted : Stages}
    (bound : Stages.bindVertexInputs (pool, stages) = .ok () (after, lifted)) :
    ∃ again, Stages.bindVertexInputs (after, lifted) = .ok () again ∧
      (again = (after, lifted) ↔
        ∀ name output, lifted.vertex.outputs.get? name = some output →
          after.Unqualified [.attr, .fragment, .uniform] output) := by
  have wf := reachable.wellFormed
  obtain ⟨names, ran⟩ := exists_of_bindVertexInputs bound
  obtain ⟨wfAfter, -⟩ := (VertexBinding.keepsPool_bindOutputs _).of_ok wf ran
  have bindable : ∀ name output, lifted.vertex.outputs.get? name = some output →
      after.Bindable output := by
    refine VertexBinding.bindable_of_bindOutputs wf ?_ ran
    intro name output isOutput
    exact Or.inl (List.mem_map_of_mem (Table.get?_eq_some_iff.mp isOutput))
  have wfAgain : (⟨after, lifted, .empty⟩ : VertexBinding).pool.WellFormed := wfAfter
  obtain ⟨final, ranAgain, unqualified, -⟩ :=
    VertexBinding.bindOutputs_of_bindable wfAgain lifted.vertex.outputs.entries_pairwise_ne
      fun entry member => bindable entry.1 entry.2 (Table.get?_eq_some_iff.mpr member)
  refine ⟨_, bindVertexInputs_of_ok ranAgain, ?_, ?_⟩
  · intro same name output isOutput
    have sameStages : final.stages = lifted := congrArg Prod.snd same
    apply unqualified (name, output) (Table.get?_eq_some_iff.mp isOutput)
    rw [sameStages]
    exact isOutput
  · intro nothing
    have unchanged : VertexBinding.bindOutputs lifted.vertex.outputs.entries
        ⟨after, lifted, .empty⟩ = .ok () ⟨after, lifted, .empty⟩ := by
      apply VertexBinding.bindOutputs_of_unqualified wfAgain
      · intro entry member
        exact (bindable _ _ (Table.get?_eq_some_iff.mpr member)).contains wfAfter
      · exact fun entry member => nothing _ _ (Table.get?_eq_some_iff.mpr member)
      · exact fun entry member => Table.get?_eq_some_iff.mpr member
    rw [ranAgain] at unchanged
    cases unchanged
    rfl

/-- With the outer attribute first, a second binding changes nothing. -/
theorem Stages.bind_again_qualifiedTwice :
    ∃ stages middle after lifted,
      Effect.split ⟨4, 0⟩ {} (qualifiedTwice .attr) = .ok stages middle ∧
      Stages.bindVertexInputs (middle, stages) = .ok () (after, lifted) ∧
      lifted.vertex.inputs ≠ [] ∧
      Stages.bindVertexInputs (after, lifted) = .ok () (after, lifted) := by
  have checked : succeedsWith (Effect.split ⟨4, 0⟩ {}) (qualifiedTwice .attr)
      (fun stages middle =>
        succeedsWith Stages.bindVertexInputs (middle, stages) (fun _ after =>
          after.2.vertex.inputs ≠ [] ∧ ∀ entry ∈ after.2.vertex.outputs.entries,
            after.1.contains entry.2 = true ∧ ∀ kind ∈ [Qualifier.attr, .fragment, .uniform],
              after.1.qualifiedAs entry.2 kind = .ok [])) = true := by
    decide +kernel
  obtain ⟨stages, middle, ran, binds⟩ := exists_of_succeedsWith checked
  obtain ⟨⟨⟩, ⟨after, lifted⟩, bound, passed⟩ := exists_of_succeedsWith binds
  obtain ⟨inputs, clean⟩ := of_decide_eq_true passed
  have reachable : middle.Reachable := by
    have start : (qualifiedTwice .attr).Reachable := ⟨0, _, rfl⟩
    have called := start.afterCall (.split ⟨4, 0⟩ {})
    rwa [Pool.afterCall, Pool.leftBy_of_ok ran] at called
  obtain ⟨names, ranOutputs⟩ := Stages.exists_of_bindVertexInputs bound
  obtain ⟨wfAfter, -⟩ :=
    (VertexBinding.keepsPool_bindOutputs _).of_ok reachable.wellFormed ranOutputs
  obtain ⟨again, boundAgain, unchanged⟩ := Stages.bind_again reachable bound
  have same : again = (after, lifted) := by
    apply unchanged.mpr
    intro name output isOutput
    obtain ⟨present, nothing⟩ := clean _ (Table.get?_eq_some_iff.mp isOutput)
    exact (wfAfter.unqualified_iff_qualifiedAs present).mpr nothing
  exact ⟨stages, middle, after, lifted, ran, bound, inputs, same ▸ boundAgain⟩

/-- An attribute that was left is bound under a name that is taken: the name then stands for
itself. -/
theorem Stages.bind_again_rebinds :
    (qualifiedTwice .attr).Reachable ∧
      ∃ stages middle after lifted again,
        Effect.split ⟨3, 0⟩ {} (qualifiedTwice .attr) = .ok stages middle ∧
        Stages.bindVertexInputs (middle, stages) = .ok () (after, lifted) ∧
        Stages.bindVertexInputs (after, lifted) = .ok () again ∧ again ≠ (after, lifted) ∧
        lifted.bindings.get? "a_Attribute0" = some 0 ∧
        again.2.bindings.get? "a_Attribute0" = some 5 ∧
        again.1.node? 5 = some (.var .float "a_Attribute0") := by
  refine ⟨⟨0, _, rfl⟩, ?_⟩
  have checked : succeedsWith (Effect.split ⟨3, 0⟩ {}) (qualifiedTwice .attr)
      (fun stages middle =>
        succeedsWith Stages.bindVertexInputs (middle, stages) (fun _ first =>
          first.2.bindings.get? "a_Attribute0" = some 0 ∧
            succeedsWith Stages.bindVertexInputs first (fun _ again =>
              again.2.bindings.get? "a_Attribute0" = some 5 ∧
                again.1.node? 5 = some (.var .float "a_Attribute0")) = true)) = true := by
    decide +kernel
  obtain ⟨stages, middle, ran, binds⟩ := exists_of_succeedsWith checked
  obtain ⟨⟨⟩, ⟨after, lifted⟩, bound, passed⟩ := exists_of_succeedsWith binds
  obtain ⟨boundFirst, bindsAgain⟩ := of_decide_eq_true passed
  obtain ⟨⟨⟩, again, boundAgain, passedAgain⟩ := exists_of_succeedsWith bindsAgain
  obtain ⟨rebound, isVariable⟩ := of_decide_eq_true passedAgain
  refine ⟨stages, middle, after, lifted, again, ran, bound, boundAgain, ?_, boundFirst, rebound,
    isVariable⟩
  rintro rfl
  rw [boundFirst] at rebound
  cases rebound

end Shading
