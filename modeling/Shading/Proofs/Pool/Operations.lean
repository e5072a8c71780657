import Shading.Proofs.Pool.WellFormed
import Shading.Pool.Substitution

/-!
# Operations on well-formed pools

Every typed constructor makes the node that it is asked for, if its operands are expressions whose
types fit (`Pool.Makes`). What is built from the constructors keeps a pool well-formed and only
adds to it, also when it fails (`Pool.Keeps`).
-/

namespace Shading

section Sequences

variable {σ α β : Type} {state after : σ} {operation : EStateM Error σ α}
  {next : α → EStateM Error σ β} {asked : Except Error α}

/-- After a success the next operation runs on the state that is left. -/
theorem bind_of_ok {result : α} (ran : operation state = .ok result after) :
    (operation >>= next) state = next result after := by
  change EStateM.bind operation next state = _
  rw [EStateM.bind, ran]

/-- After a failure nothing more is run. -/
theorem bind_of_error {cause : Error} (ran : operation state = .error cause after) :
    (operation >>= next) state = .error cause after := by
  change EStateM.bind operation next state = _
  rw [EStateM.bind, ran]

/-- If a sequence succeeds, both of its parts do. -/
theorem exists_of_bind_ok {result : β} (ran : (operation >>= next) state = .ok result after) :
    ∃ first middle, operation state = .ok first middle ∧ next first middle = .ok result after := by
  cases firstRan : operation state with
  | ok first middle =>
      rw [bind_of_ok firstRan] at ran
      exact ⟨first, middle, rfl, ran⟩
  | error cause middle =>
      rw [bind_of_error firstRan] at ran
      cases ran

/-- If a sequence that begins with a question succeeds, the question has an answer. -/
theorem exists_of_ofExcept_bind_ok {result : β}
    (ran : (MonadExcept.ofExcept asked >>= next) state = .ok result after) :
    ∃ first, asked = .ok first ∧ next first state = .ok result after := by
  cases asked with
  | error cause => cases ran
  | ok first => exact ⟨first, rfl, ran⟩

/-- If a sequence of questions succeeds, both of its parts do. -/
theorem exists_of_except_ok {next : α → Except Error β} {result : β}
    (ran : asked >>= next = .ok result) : ∃ first, asked = .ok first ∧ next first = .ok result := by
  cases asked with
  | error cause => cases ran
  | ok first => exact ⟨first, rfl, ran⟩

/-- An answer that was changed comes from an answer. -/
theorem exists_of_map_ok {change : α → β} {result : β} (ran : asked.map change = .ok result) :
    ∃ first, asked = .ok first ∧ change first = result := by
  cases asked with
  | error cause => cases ran
  | ok first => exact ⟨first, rfl, Except.ok.inj ran⟩

/-- An operation that succeeds for each item of a list succeeds for the list. -/
theorem exists_mapM_ok {α β : Type} {operation : α → Except Error β} {inputs : List α}
    (succeeds : ∀ input ∈ inputs, ∃ output, operation input = .ok output) :
    ∃ outputs, inputs.mapM operation = .ok outputs := by
  induction inputs with
  | nil => exact ⟨[], rfl⟩
  | cons input rest ih =>
      obtain ⟨output, first⟩ := succeeds input List.mem_cons_self
      obtain ⟨outputs, later⟩ := ih fun other member =>
        succeeds other (List.mem_cons_of_mem _ member)
      refine ⟨output :: outputs, ?_⟩
      rw [List.mapM_cons, first, later]
      rfl

/-- Whether an operation succeeds with a result and a state that pass a check. -/
def succeedsWith (operation : EStateM Error σ α) (state : σ) (check : α → σ → Bool) : Bool :=
  match operation state with
  | .ok result after => check result after
  | .error _ _ => false

/-- A check of the outcome that passes shows that the operation succeeds. -/
theorem exists_of_succeedsWith {check : α → σ → Bool}
    (succeeds : succeedsWith operation state check = true) :
    ∃ result after, operation state = .ok result after ∧ check result after = true := by
  unfold succeedsWith at succeeds
  cases ran : operation state with
  | ok result after =>
      rw [ran] at succeeds
      exact ⟨result, after, rfl, succeeds⟩
  | error cause after =>
      rw [ran] at succeeds
      cases succeeds

end Sequences

namespace Pool

variable {α β : Type} {pool after : Pool}

/-- The pool that an operation leaves, whether or not it fails. -/
def leftBy (pool : Pool) (operation : PoolM α) : Pool :=
  match operation pool with
  | .ok _ after => after
  | .error _ after => after

/-- The operation keeps pools well-formed and only adds to them. -/
def Keeps (operation : PoolM α) : Prop :=
  ∀ pool : Pool, pool.WellFormed →
    (pool.leftBy operation).WellFormed ∧ pool.Grows (pool.leftBy operation)

/-- The operation succeeds with a node of a given structure and type. -/
def Makes (pool : Pool) (operation : PoolM NodeId) (entry : Entry) : Prop :=
  ∃ id after, operation pool = .ok id after ∧ after.WellFormed ∧ pool.Grows after ∧
    after.entry? id = some entry

/-! ### Sequences of operations -/

theorem leftBy_of_ok {operation : PoolM α} {result : α} (ran : operation pool = .ok result after) :
    pool.leftBy operation = after := by
  rw [leftBy, ran]

theorem leftBy_of_error {operation : PoolM α} {cause : Error}
    (ran : operation pool = .error cause after) : pool.leftBy operation = after := by
  rw [leftBy, ran]

/-- A question that has an answer leaves the pool as it is. -/
theorem query_of_ok {ask : Pool → Except Error α} {answer : α} (asked : ask pool = .ok answer) :
    query ask pool = .ok answer pool := by
  rw [query, asked]

/-- A question that succeeds was answered by the pool, which it leaves as it is. -/
theorem query_eq_ok {ask : Pool → Except Error α} {answer : α}
    (ran : query ask pool = .ok answer after) : ask pool = .ok answer ∧ after = pool := by
  unfold query at ran
  split at ran
  next found asked =>
    cases ran
    exact ⟨asked, rfl⟩
  next => cases ran

/-- What is kept holds of the pool that a success leaves. -/
theorem Keeps.of_ok {operation : PoolM α} {result : α} (keeps : Keeps operation)
    (wf : pool.WellFormed) (ran : operation pool = .ok result after) :
    after.WellFormed ∧ pool.Grows after := by
  have kept := keeps pool wf
  rwa [leftBy_of_ok ran] at kept

theorem keeps_pure (result : α) : Keeps (pure result) := fun pool wf => ⟨wf, Grows.refl pool⟩

theorem keeps_throw (cause : Error) : Keeps (throw cause : PoolM α) :=
  fun pool wf => ⟨wf, Grows.refl pool⟩

/-- Asking keeps pools well-formed. -/
theorem keeps_query (ask : Pool → Except Error α) : Keeps (query ask) := by
  intro pool wf
  have same : pool.leftBy (query ask) = pool := by
    unfold leftBy query
    cases ask pool <;> rfl
  rw [same]
  exact ⟨wf, Grows.refl pool⟩

/-- A sequence of operations that keep pools well-formed does so too. -/
theorem Keeps.bind {operation : PoolM α} {next : α → PoolM β} (first : Keeps operation)
    (later : ∀ result, Keeps (next result)) : Keeps (operation >>= next) := by
  intro pool wf
  have kept := first pool wf
  cases ran : operation pool with
  | ok result middle =>
      rw [leftBy_of_ok ran] at kept
      have rest := later result middle kept.1
      have same : pool.leftBy (operation >>= next) = middle.leftBy (next result) := by
        rw [leftBy, bind_of_ok ran, leftBy]
      rw [same]
      exact ⟨rest.1, kept.2.trans rest.2⟩
  | error cause middle =>
      rw [leftBy_of_error ran] at kept
      rw [leftBy_of_error (bind_of_error ran)]
      exact kept

/-! ### The typed constructors -/

/-- A constructor makes its node or fails and leaves the pool as it was. -/
theorem keeps_of_makes_or_fails {operation : PoolM NodeId}
    (outcome : ∀ pool : Pool, pool.WellFormed →
      (∃ entry, pool.Makes operation entry) ∨ ∃ cause, operation pool = .error cause pool) :
    Keeps operation := by
  intro pool wf
  rcases outcome pool wf with ⟨entry, id, after, ran, made, grows, -⟩ | ⟨cause, failed⟩
  · rw [leftBy_of_ok ran]
    exact ⟨made, grows⟩
  · rw [leftBy_of_error failed]
    exact ⟨wf, Grows.refl pool⟩

/-- A question that has no answer fails and leaves the pool as it is. -/
theorem query_of_error {ask : Pool → Except Error α} {cause : Error}
    (asked : ask pool = .error cause) : query ask pool = .error cause pool := by
  rw [query, asked]

/-- A constant with the components of its type is made, with positive zeros. -/
theorem WellFormed.makes_literal (wf : pool.WellFormed) {type : ValueType}
    {components : List Binary64} (arity : components.length = type.length) :
    pool.Makes (constant type components) ⟨.literal type components, some type⟩ := by
  have admits : pool.Admits ⟨.literal type components, some type⟩ := by
    refine ⟨nofun, rfl, fun _ => rfl, ?_, ?_⟩
    · rw [List.length_map, arity]
    · intro number member
      obtain ⟨raw, -, rfl⟩ := List.mem_map.mp member
      exact raw.normalize_normalize
  obtain ⟨id, after, ran, rest⟩ := wf.intern admits
  refine ⟨id, after, ?_, rest⟩
  rw [constant, if_pos arity, ran]

/-- A variable is always made. -/
theorem WellFormed.makes_var (wf : pool.WellFormed) (type : ValueType) (name : String) :
    pool.Makes (var type name) ⟨.var type name, some type⟩ := by
  have admits : pool.Admits ⟨.var type name, some type⟩ := ⟨nofun, rfl, fun _ => rfl, trivial⟩
  exact wf.intern admits

/-- A unary operator is applied to any expression. -/
theorem WellFormed.makes_unary (wf : pool.WellFormed) (op : UnaryOp) {operand : NodeId}
    {type : ValueType} (typed : pool.type? operand = some type) :
    pool.Makes (unary op operand) ⟨.unary op operand, some (op.resultType type)⟩ := by
  have admits : pool.Admits ⟨.unary op operand, some (op.resultType type)⟩ := by
    refine ⟨fun child member => ?_, ?_, fun _ => rfl, trivial⟩
    · rw [List.mem_singleton.mp member, typed]
      rfl
    · rw [Node.type?, typed]
      rfl
  obtain ⟨id, after, ran, rest⟩ := wf.intern admits
  refine ⟨id, after, ?_, rest⟩
  rw [unary, bind_of_ok (query_of_ok (typeOf_eq_ok_iff.mpr typed)), ran]

/-- A binary operator is applied to expressions for whose types it is defined. -/
theorem WellFormed.makes_binary (wf : pool.WellFormed) {op : BinaryOp} {lhs rhs : NodeId}
    {left right type : ValueType} (leftTyped : pool.type? lhs = some left)
    (rightTyped : pool.type? rhs = some right) (fits : op.resultType? left right = some type) :
    pool.Makes (binary lhs op rhs) ⟨.binary lhs op rhs, some type⟩ := by
  have admits : pool.Admits ⟨.binary lhs op rhs, some type⟩ := by
    refine ⟨fun child member => ?_, ?_, fun _ => rfl, trivial⟩
    · rcases List.mem_cons.mp member with rfl | last
      · rw [leftTyped]
        rfl
      · rw [List.mem_singleton.mp last, rightTyped]
        rfl
    · rw [Node.type?, leftTyped, rightTyped]
      exact fits.symm
  obtain ⟨id, after, ran, rest⟩ := wf.intern admits
  refine ⟨id, after, ?_, rest⟩
  rw [binary, bind_of_ok (query_of_ok (typeOf_eq_ok_iff.mpr leftTyped)),
    bind_of_ok (query_of_ok (typeOf_eq_ok_iff.mpr rightTyped)), fits]
  exact ran

/-- Any expression can be qualified. -/
theorem WellFormed.makes_qualify (wf : pool.WellFormed) (kind : Qualifier) {inner : NodeId}
    {type : ValueType} (typed : pool.type? inner = some type) :
    pool.Makes (qualify kind inner) ⟨.qualified kind inner, some type⟩ := by
  have admits : pool.Admits ⟨.qualified kind inner, some type⟩ := by
    refine ⟨fun child member => ?_, typed.symm, fun _ => rfl, trivial⟩
    rw [List.mem_singleton.mp member, typed]
    rfl
  obtain ⟨id, after, ran, rest⟩ := wf.intern admits
  refine ⟨id, after, ?_, rest⟩
  rw [qualify, bind_of_ok (query_of_ok (typeOf_eq_ok_iff.mpr typed)), ran]

/-- Nodes that pass the check are expressions. -/
theorem type?_of_checkExprs {ids : List NodeId} (checked : pool.checkExprs ids = .ok ()) :
    ∀ id ∈ ids, (pool.type? id).isSome := by
  induction ids with
  | nil => nofun
  | cons first rest ih =>
      rw [checkExprs] at checked
      split at checked
      next type typed =>
        intro id member
        rcases List.mem_cons.mp member with rfl | later
        · rw [typeOf_eq_ok_iff.mp typed]
          rfl
        · exact ih checked id later
      next => cases checked

/-- Expressions pass the check. -/
theorem checkExprs_of_type? {ids : List NodeId} (typed : ∀ id ∈ ids, (pool.type? id).isSome) :
    pool.checkExprs ids = .ok () := by
  induction ids with
  | nil => rfl
  | cons first rest ih =>
      obtain ⟨type, typeEq⟩ := Option.isSome_iff_exists.mp (typed first List.mem_cons_self)
      rw [checkExprs, typeOf_eq_ok_iff.mpr typeEq]
      exact ih fun id member => typed id (List.mem_cons_of_mem _ member)

/-- A program is made if its outputs pass the check. -/
theorem WellFormed.makes_shader (wf : pool.WellFormed) {program : Program}
    (checked : pool.checkExprs program.outputs.values = .ok ()) :
    pool.Makes (shader program) ⟨.shader program, none⟩ := by
  have admits : pool.Admits ⟨.shader program, none⟩ :=
    ⟨type?_of_checkExprs checked, rfl, nofun, trivial⟩
  obtain ⟨id, after, ran, rest⟩ := wf.intern admits
  refine ⟨id, after, ?_, rest⟩
  rw [shader, bind_of_ok (query_of_ok checked), ran]

/-- Making a constant keeps pools well-formed, also when the number of components is wrong. -/
theorem keeps_constant (type : ValueType) (components : List Binary64) :
    Keeps (constant type components) := by
  apply keeps_of_makes_or_fails
  intro pool wf
  by_cases arity : components.length = type.length
  · exact Or.inl ⟨_, wf.makes_literal arity⟩
  · refine Or.inr ⟨.constantArity type components.length, ?_⟩
    rw [constant, if_neg arity]
    rfl

/-- Making a variable keeps pools well-formed. -/
theorem keeps_var (type : ValueType) (name : String) : Keeps (var type name) :=
  keeps_of_makes_or_fails fun _ wf => Or.inl ⟨_, wf.makes_var type name⟩

/-- Applying a unary operator keeps pools well-formed, whatever its operand is. -/
theorem keeps_unary (op : UnaryOp) (operand : NodeId) : Keeps (unary op operand) := by
  apply keeps_of_makes_or_fails
  intro pool wf
  cases typed : pool.typeOf operand with
  | ok type => exact Or.inl ⟨_, wf.makes_unary op (typeOf_eq_ok_iff.mp typed)⟩
  | error cause => exact Or.inr ⟨cause, bind_of_error (query_of_error typed)⟩

/-- Applying a binary operator keeps pools well-formed, whatever its operands are. -/
theorem keeps_binary (lhs : NodeId) (op : BinaryOp) (rhs : NodeId) : Keeps (binary lhs op rhs) := by
  apply keeps_of_makes_or_fails
  intro pool wf
  cases leftTyped : pool.typeOf lhs with
  | error cause => exact Or.inr ⟨cause, bind_of_error (query_of_error leftTyped)⟩
  | ok left =>
      cases rightTyped : pool.typeOf rhs with
      | error cause =>
          refine Or.inr ⟨cause, ?_⟩
          rw [binary, bind_of_ok (query_of_ok leftTyped)]
          exact bind_of_error (query_of_error rightTyped)
      | ok right =>
          cases fits : op.resultType? left right with
          | some type =>
              exact Or.inl ⟨_, wf.makes_binary (typeOf_eq_ok_iff.mp leftTyped)
                (typeOf_eq_ok_iff.mp rightTyped) fits⟩
          | none =>
              refine Or.inr ⟨.typeMismatch op left right, ?_⟩
              rw [binary, bind_of_ok (query_of_ok leftTyped),
                bind_of_ok (query_of_ok rightTyped), fits]
              rfl

/-- Qualifying keeps pools well-formed, whatever is qualified. -/
theorem keeps_qualify (kind : Qualifier) (inner : NodeId) : Keeps (qualify kind inner) := by
  apply keeps_of_makes_or_fails
  intro pool wf
  cases typed : pool.typeOf inner with
  | ok type => exact Or.inl ⟨_, wf.makes_qualify kind (typeOf_eq_ok_iff.mp typed)⟩
  | error cause => exact Or.inr ⟨cause, bind_of_error (query_of_error typed)⟩

/-- Making a program keeps pools well-formed, whatever its outputs are. -/
theorem keeps_shader (program : Program) : Keeps (shader program) := by
  apply keeps_of_makes_or_fails
  intro pool wf
  cases checked : pool.checkExprs program.outputs.values with
  | ok _ => exact Or.inl ⟨_, wf.makes_shader checked⟩
  | error cause => exact Or.inr ⟨cause, bind_of_error (query_of_error checked)⟩

/-! ### Substitution -/

/-- Rebuilding a node over new children keeps pools well-formed. -/
theorem keeps_rebuildNode (rebuilt : Rebuilt) (id : NodeId) (node : Node) :
    Keeps (rebuildNode rebuilt id node) := by
  have keepsResult : ∀ child, Keeps (rebuilt.result child) := by
    intro child
    unfold Rebuilt.result
    split
    · exact keeps_pure _
    · exact keeps_throw _
  cases node with
  | constant type components => exact keeps_pure id
  | var type name => exact keeps_pure id
  | unary op operand =>
      apply (keepsResult operand).bind
      intro new
      split
      · exact keeps_pure id
      · exact keeps_unary op new
  | binary lhs op rhs =>
      refine (keepsResult lhs).bind fun newLhs => (keepsResult rhs).bind fun newRhs => ?_
      split
      · exact keeps_pure id
      · exact keeps_binary newLhs op newRhs
  | qualified kind inner =>
      apply (keepsResult inner).bind
      intro new
      split
      · exact keeps_pure id
      · exact keeps_qualify kind new
  | shader program => exact keeps_throw _

/-- Rebuilding the nodes of an order one by one keeps pools well-formed. -/
theorem keeps_rebuild (target replacement : NodeId) (order : List NodeId) (rebuilt : Rebuilt) :
    Keeps (rebuild target replacement order rebuilt) := by
  induction order generalizing rebuilt with
  | nil => exact keeps_pure rebuilt
  | cons id rest ih =>
      rw [rebuild]
      split
      · exact (keeps_pure replacement).bind fun result => ih _
      · apply (keeps_query _).bind
        intro node
        exact (keeps_rebuildNode rebuilt id node).bind fun result => ih _

/-- Substitution keeps pools well-formed, also when it fails on the way. -/
theorem keeps_substitute (root target replacement : NodeId) :
    Keeps (substitute root target replacement) := by
  refine (keeps_query _).bind fun _ => (keeps_query _).bind fun order => ?_
  apply (keeps_rebuild target replacement order ∅).bind
  intro rebuilt
  split
  · exact keeps_pure _
  · exact keeps_throw _

end Pool

end Shading
