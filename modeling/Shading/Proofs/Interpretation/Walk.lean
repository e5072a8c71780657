import Shading.Interpretation
import Shading.Proofs.Pool.Collection

/-!
# Walks of well-formed pools

The result of an expression is defined by recursion over its tree (`Tree.interpret`): operands from
left to right, then the node itself, and the first failure ends it. A walk works off a list of
pending visits instead and skips what its cache has. From a cache whose results are those of the
trees (`Cache.Holds`) it gives the same answer, because a node that is skipped cannot fail, and it
leaves a cache that again holds, also when it stops halfway (`Interpretation.run_spec`).
-/

namespace Shading

variable {α : Type} {interpretation : Interpretation α}

/-- What an operation answers. -/
def answerOf {σ : Type} (operation : EStateM Error σ α) (state : σ) : Except Error α :=
  match operation state with
  | .ok result _ => .ok result
  | .error cause _ => .error cause

/-- The state that an operation leaves, whether or not it fails. -/
def stateLeftBy {σ : Type} (operation : EStateM Error σ α) (state : σ) : σ :=
  match operation state with
  | .ok _ next => next
  | .error _ next => next

/-- The result of a tree with its type. -/
def Tree.interpret (interpretation : Interpretation α) : Tree → Except Error (Operand α)
  | constant type components => (interpretation.constant type components).map (⟨type, ·⟩)
  | var type name => (interpretation.var type name).map (⟨type, ·⟩)
  | unary op operand => do
    let operand ← operand.interpret interpretation
    (interpretation.unary op operand).map (⟨op.resultType operand.type, ·⟩)
  | binary lhs op rhs => do
    let left ← lhs.interpret interpretation
    let right ← rhs.interpret interpretation
    match op.resultType? left.type right.type with
    | some type => (interpretation.binary op type left right).map (⟨type, ·⟩)
    | none => throw (.typeMismatch op left.type right.type)
  | qualified kind _ => throw (.illegalQualifier kind interpretation.action)

/-- The result of a node of a pool. -/
def Pool.interpret (pool : Pool) (interpretation : Interpretation α) (root : NodeId) :
    Except Error α :=
  match pool.tree? root with
  | some tree => (tree.interpret interpretation).map Operand.value
  | none => .error (.notAnExpression root)

/-- A result is what is left of an operand when its type is forgotten. -/
theorem map_value_map (asked : Except Error α) (type : ValueType) :
    (asked.map (⟨type, ·⟩ : α → Operand α)).map Operand.value = asked := by
  cases asked <;> rfl

namespace Tree

/-- The result of a unary operator, from that of its operand. -/
theorem interpret_unary (op : UnaryOp) {operand : Tree} {result : Operand α}
    (below : operand.interpret interpretation = .ok result) :
    (unary op operand).interpret interpretation =
      (interpretation.unary op result).map (⟨op.resultType result.type, ·⟩) := by
  rw [interpret, below]
  rfl

/-- The result of a binary operator, from those of its operands. -/
theorem interpret_binary {op : BinaryOp} {lhs rhs : Tree} {left right : Operand α}
    {type : ValueType} (first : lhs.interpret interpretation = .ok left)
    (second : rhs.interpret interpretation = .ok right)
    (fits : op.resultType? left.type right.type = some type) :
    (binary lhs op rhs).interpret interpretation =
      (interpretation.binary op type left right).map (⟨type, ·⟩) := by
  rw [interpret, first, second]
  simp only [bind, Except.bind, fits]

/-- A unary operator fails as its operand does. -/
theorem interpret_unary_of_error (op : UnaryOp) {operand : Tree} {cause : Error}
    (below : operand.interpret interpretation = .error cause) :
    (unary op operand).interpret interpretation = .error cause := by
  rw [interpret, below]
  rfl

/-- A binary operator fails as its left operand does. -/
theorem interpret_binary_of_error (op : BinaryOp) {lhs : Tree} (rhs : Tree) {cause : Error}
    (first : lhs.interpret interpretation = .error cause) :
    (binary lhs op rhs).interpret interpretation = .error cause := by
  rw [interpret, first]
  rfl

/-- A binary operator fails as its right operand does, if the left one has a result. -/
theorem interpret_binary_of_second_error (op : BinaryOp) {lhs rhs : Tree} {left : Operand α}
    {cause : Error} (first : lhs.interpret interpretation = .ok left)
    (second : rhs.interpret interpretation = .error cause) :
    (binary lhs op rhs).interpret interpretation = .error cause := by
  rw [interpret, first, second]
  rfl

/-- The type of a result is the type of the tree. -/
theorem type?_of_interpret {tree : Tree} {result : Operand α}
    (interpreted : tree.interpret interpretation = .ok result) :
    tree.type? = some result.type := by
  induction tree generalizing result with
  | constant type components =>
      obtain ⟨value, -, rfl⟩ := exists_of_map_ok interpreted
      rfl
  | var type name =>
      obtain ⟨value, -, rfl⟩ := exists_of_map_ok interpreted
      rfl
  | unary op operand ih =>
      obtain ⟨below, isBelow, computed⟩ := exists_of_except_ok interpreted
      obtain ⟨value, -, rfl⟩ := exists_of_map_ok computed
      rw [type?, ih isBelow, Option.map_some]
  | binary lhs op rhs ihLeft ihRight =>
      obtain ⟨left, first, rest⟩ := exists_of_except_ok interpreted
      obtain ⟨right, second, computed⟩ := exists_of_except_ok rest
      split at computed
      next type fits =>
        obtain ⟨value, -, rfl⟩ := exists_of_map_ok computed
        rw [type?, ihLeft first, ihRight second]
        exact fits
      next => cases computed
  | qualified kind inner ih => cases interpreted

end Tree

/-- The type of an operator in a pool is the one that it has for the types of its operands. -/
theorem Pool.WellFormed.exists_resultType? {pool : Pool} {id : NodeId} {lhs rhs : Tree}
    {op : BinaryOp} {left right : Operand α} (wf : pool.WellFormed)
    (unfolded : pool.tree? id = some (.binary lhs op rhs))
    (first : lhs.interpret interpretation = .ok left)
    (second : rhs.interpret interpretation = .ok right) :
    ∃ type, pool.typeOf id = .ok type ∧ op.resultType? left.type right.type = some type := by
  obtain ⟨type, isType⟩ := Option.isSome_iff_exists.mp (wf.isSome_type? unfolded)
  have typed := typeOf_eq_ok_iff.mpr ((wf.type?_of_tree? unfolded).trans isType)
  rw [Tree.type?, Tree.type?_of_interpret first, Tree.type?_of_interpret second] at isType
  exact ⟨type, typed, isType⟩

/-! ### Caches -/

namespace Cache

variable {before middle after cache : Cache α} {pool : Pool} {id : NodeId}

/-- Every result in the cache is that of a node of the pool, unless the node was collected. No
identity is used again, so a result of a collected node does no harm. -/
structure Holds (cache : Cache α) (interpretation : Interpretation α) (pool : Pool) : Prop where
  used : ∀ (id : NodeId) value, cache.results[id]? = some value → id < pool.slots.size
  correct : ∀ (id : NodeId) value, cache.results[id]? = some value → pool.contains id = true →
    ∃ tree type, pool.tree? id = some tree ∧ tree.interpret interpretation = .ok ⟨type, value⟩

/-- Results are added to a cache, and none is removed. -/
structure Keeps (before after : Cache α) : Prop where
  owner : after.owner = before.owner
  results : ∀ (id : NodeId) value, before.results[id]? = some value →
    after.results[id]? = some value

theorem Keeps.refl (cache : Cache α) : cache.Keeps cache :=
  ⟨rfl, fun _ _ found => found⟩

theorem Keeps.trans (first : before.Keeps middle) (second : middle.Keeps after) :
    before.Keeps after where
  owner := second.owner.trans first.owner
  results id value found := second.results id value (first.results id value found)

/-- What is found after a result was recorded. -/
theorem results_record (cache : Cache α) (id : NodeId) (value : α) (other : NodeId) :
    (cache.record id value).results[other]? =
      if id = other then some value else cache.results[other]? := by
  simp only [record, Std.TreeMap.getElem?_insert, Std.LawfulEqCmp.compare_eq_iff_eq]

/-- Recording the result of a new node keeps the other results. -/
theorem keeps_record (unknown : cache.results[id]? = none) (value : α) :
    cache.Keeps (cache.record id value) where
  owner := rfl
  results other found isFound := by
    have different : id ≠ other := by
      intro same
      rw [← same, unknown] at isFound
      cases isFound
    rw [results_record, if_neg different, isFound]

/-- A cache that is attached to a pool belongs to it. -/
theorem owner_attach (cache : Cache α) (session : Nat) :
    (cache.attach session).owner = some session := by
  unfold attach
  split
  next owned => exact owned
  next => rfl

/-- An empty cache holds no wrong results. -/
theorem holds_empty (interpretation : Interpretation α) (pool : Pool) (owner : Option Nat) :
    ({ (empty : Cache α) with owner := owner } : Cache α).Holds interpretation pool where
  used _ _ found := by simp [empty] at found
  correct _ _ found := by simp [empty] at found

/-- An empty cache that is attached to a pool has no results. -/
theorem results_attach_empty (session : Nat) (id : NodeId) :
    ((empty : Cache α).attach session).results[id]? = none := by
  simp [attach, empty]

/-- An empty cache that is attached to a pool holds no wrong results. -/
theorem holds_attach_empty (interpretation : Interpretation α) (pool : Pool) :
    ((empty : Cache α).attach pool.session).Holds interpretation pool := by
  rw [attach, if_neg nofun]
  exact holds_empty interpretation pool _

namespace Holds

/-- A cache still holds right results when one more is recorded. -/
theorem record (holds : cache.Holds interpretation pool) {tree : Tree} {result : Operand α}
    (inside : id < pool.slots.size) (unfolded : pool.tree? id = some tree)
    (interpreted : tree.interpret interpretation = .ok result) :
    (cache.record id result.value).Holds interpretation pool where
  used other value found := by
    rw [results_record] at found
    split at found
    next same =>
      rw [← same]
      exact inside
    next => exact holds.used other value found
  correct other value found present := by
    rw [results_record] at found
    split at found
    next same =>
      rw [← same]
      cases found
      exact ⟨tree, result.type, unfolded, interpreted⟩
    next => exact holds.correct other value found present

/-- A result that was found is the one that the tree has. -/
theorem interpret_eq (holds : cache.Holds interpretation pool) (wf : pool.WellFormed) {tree : Tree}
    {value : α} (unfolded : pool.tree? id = some tree) (found : cache.results[id]? = some value) :
    ∃ type, tree.interpret interpretation = .ok ⟨type, value⟩ := by
  obtain ⟨same, type, sameTree, interpreted⟩ :=
    holds.correct id value found (wf.contains_of_tree? unfolded)
  rw [unfolded] at sameTree
  cases sameTree
  exact ⟨type, interpreted⟩

/-- A walk that has computed an operand finds the result of the operand's tree. -/
theorem operand_eq (holds : cache.Holds interpretation pool) (wf : pool.WellFormed) {tree : Tree}
    (unfolded : pool.tree? id = some tree) (known : (cache.results[id]?).isSome) :
    ∃ result, cache.operand pool id = .ok result ∧
      tree.interpret interpretation = .ok result := by
  obtain ⟨value, found⟩ := Option.isSome_iff_exists.mp known
  obtain ⟨type, interpreted⟩ := holds.interpret_eq wf unfolded found
  have typed : pool.typeOf id = .ok type := by
    rw [Pool.typeOf_eq_ok_iff, wf.type?_of_tree? unfolded]
    exact Tree.type?_of_interpret interpreted
  refine ⟨⟨type, value⟩, ?_, interpreted⟩
  rw [operand, typed]
  simp only [bind, Except.bind, found]
  rfl

end Holds

end Cache

/-! ### Visits -/

namespace Interpretation

variable {pool : Pool} {id root : NodeId} {node : Node} {tree : Tree} {walk : Walk α}

/-- The visits end with a given answer for a node, whatever visits are pending after them: a result
is in the cache from then on, and an error stops the walk. Either way nothing is lost from the
cache and every result in it is right. -/
def Ends (interpretation : Interpretation α) (pool : Pool) (visits : List Visit) (walk : Walk α)
    (id : NodeId) : Except Error (Operand α) → Prop
  | .ok result => ∃ next : Walk α, walk.cache.Keeps next.cache ∧
      next.cache.Holds interpretation pool ∧ next.cache.results[id]? = some result.value ∧
      ∀ pending, interpretation.walkFrom pool (visits ++ pending) walk =
        interpretation.walkFrom pool pending next
  | .error cause => ∃ next : Walk α, walk.cache.Keeps next.cache ∧
      next.cache.Holds interpretation pool ∧
      ∀ pending, interpretation.walkFrom pool (visits ++ pending) walk = .error cause next

/-- The node is computed from the results of its operands as its tree is from theirs. -/
theorem compute_eq (wf : pool.WellFormed) (holds : walk.cache.Holds interpretation pool)
    (found : pool.node? id = some node) (shown : pool.Shows node tree)
    (plain : node.qualifier? = none)
    (known : ∀ child ∈ node.children, (walk.cache.results[child]?).isSome) :
    interpretation.compute pool walk.cache id =
      (tree.interpret interpretation).map Operand.value := by
  have isNode := Pool.node_eq_ok_iff.mpr found
  rw [compute, isNode]
  cases shown with
  | constant type components => exact (map_value_map _ type).symm
  | var type name => exact (map_value_map _ type).symm
  | unary op below =>
      obtain ⟨result, isOperand, interpreted⟩ :=
        holds.operand_eq wf below (known _ List.mem_cons_self)
      rw [Tree.interpret_unary op interpreted, map_value_map]
      simp only [bind, Except.bind, isOperand]
  | binary op belowLeft belowRight =>
      obtain ⟨left, isLeft, first⟩ :=
        holds.operand_eq wf belowLeft (known _ List.mem_cons_self)
      obtain ⟨right, isRight, second⟩ :=
        holds.operand_eq wf belowRight (known _ (List.mem_cons_of_mem _ List.mem_cons_self))
      have unfolded := wf.tree?_of_shows found (.binary op belowLeft belowRight)
      obtain ⟨type, typed, fits⟩ := wf.exists_resultType? unfolded first second
      rw [Tree.interpret_binary first second fits, map_value_map]
      simp only [bind, Except.bind, typed, isLeft, isRight]
  | qualified kind below => cases plain

/-- Leaving a node whose operands have results gives it the result of its tree. -/
theorem ends_leave (wf : pool.WellFormed) (holds : walk.cache.Holds interpretation pool)
    (found : pool.node? id = some node) (shown : pool.Shows node tree)
    (plain : node.qualifier? = none)
    (known : ∀ child ∈ node.children, (walk.cache.results[child]?).isSome) :
    interpretation.Ends pool [.leave id] walk id (tree.interpret interpretation) := by
  have unfolded := wf.tree?_of_shows found shown
  cases cached : walk.cache.results[id]? with
  | some value =>
      obtain ⟨type, interpreted⟩ := holds.interpret_eq wf unfolded cached
      rw [interpreted]
      refine ⟨walk, .refl _, holds, cached, fun pending => ?_⟩
      rw [List.singleton_append, walkFrom, Std.TreeMap.contains_eq_isSome_getElem?, cached]
      rfl
  | none =>
      have computes := compute_eq wf holds found shown plain known
      cases interpreted : tree.interpret interpretation with
      | error cause =>
          rw [interpreted] at computes
          refine ⟨walk, .refl _, holds, fun pending => ?_⟩
          rw [List.singleton_append, walkFrom, Std.TreeMap.contains_eq_isSome_getElem?, cached,
            computes]
          rfl
      | ok result =>
          rw [interpreted] at computes
          refine ⟨⟨walk.cache.record id result.value, id :: walk.computed⟩,
            Cache.keeps_record cached _,
            holds.record (Pool.lt_size_of_node? found) unfolded interpreted, ?_, fun pending => ?_⟩
          · rw [Cache.results_record, if_pos rfl]
          · rw [List.singleton_append, walkFrom, Std.TreeMap.contains_eq_isSome_getElem?, cached,
              computes]
            rfl

/-- Visits that come down to others, from a cache that has been filled in between. -/
theorem Ends.after {visits rest : List Visit} {middle : Walk α} {answer : Except Error (Operand α)}
    (later : interpretation.Ends pool rest middle id answer)
    (keeps : walk.cache.Keeps middle.cache)
    (steps : ∀ pending, interpretation.walkFrom pool (visits ++ pending) walk =
      interpretation.walkFrom pool (rest ++ pending) middle) :
    interpretation.Ends pool visits walk id answer := by
  cases answer with
  | ok result =>
      obtain ⟨next, kept, holds, known, goesOn⟩ := later
      exact ⟨next, keeps.trans kept, holds, known, fun pending => (steps pending).trans (goesOn _)⟩
  | error cause =>
      obtain ⟨next, kept, holds, stops⟩ := later
      exact ⟨next, keeps.trans kept, holds, fun pending => (steps pending).trans (stops _)⟩

/-- A walk that failed does not go on. -/
theorem Ends.of_error {visits : List Visit} {child : NodeId} {cause : Error}
    (failed : interpretation.Ends pool visits walk child (.error cause)) (rest : List Visit)
    (id : NodeId) : interpretation.Ends pool (visits ++ rest) walk id (.error cause) := by
  obtain ⟨next, keeps, holds, stops⟩ := failed
  refine ⟨next, keeps, holds, fun pending => ?_⟩
  rw [List.append_assoc, stops]

/-- A node without a result that is neither qualified nor a program is entered by entering its
operands and leaving it. -/
theorem walkFrom_enter (interpretation : Interpretation α) (wf : pool.WellFormed)
    (unknown : walk.cache.results[id]? = none) (found : pool.node? id = some node)
    (shown : pool.Shows node tree) (plain : node.qualifier? = none) (pending : List Visit) :
    interpretation.walkFrom pool ([.enter id] ++ pending) walk =
      interpretation.walkFrom pool (node.children.map .enter ++ [.leave id] ++ pending) walk := by
  rw [List.singleton_append, walkFrom, Std.TreeMap.contains_eq_isSome_getElem?, unknown, found,
    wf.operands_eq found, List.append_assoc, List.singleton_append]
  cases shown with
  | qualified kind below => cases plain
  | constant type components => rfl
  | var type name => rfl
  | unary op below => rfl
  | binary op belowLeft belowRight => rfl

/-- A node that has a result is passed over. -/
theorem ends_enter_known (wf : pool.WellFormed) (holds : walk.cache.Holds interpretation pool)
    (unfolded : pool.tree? id = some tree) {value : α}
    (cached : walk.cache.results[id]? = some value) :
    interpretation.Ends pool [.enter id] walk id (tree.interpret interpretation) := by
  obtain ⟨type, interpreted⟩ := holds.interpret_eq wf unfolded cached
  rw [interpreted]
  refine ⟨{ walk with cache := walk.cache.hit }, ⟨rfl, fun _ _ found => found⟩,
    ⟨holds.used, holds.correct⟩, cached, fun pending => ?_⟩
  rw [List.singleton_append, walkFrom, Std.TreeMap.contains_eq_isSome_getElem?, cached]
  rfl

/-- A qualified expression is refused when it is entered. -/
theorem ends_enter_qualified (holds : walk.cache.Holds interpretation pool) {kind : Qualifier}
    {inner : NodeId} (unknown : walk.cache.results[id]? = none)
    (found : pool.node? id = some (.qualified kind inner)) :
    interpretation.Ends pool [.enter id] walk id
      (.error (.illegalQualifier kind interpretation.action)) := by
  refine ⟨walk, .refl _, holds, fun pending => ?_⟩
  rw [List.singleton_append, walkFrom, Std.TreeMap.contains_eq_isSome_getElem?, unknown, found]
  rfl

/-- Entering the operand of a node and leaving the node ends with the answer of the tree. -/
theorem ends_unary (wf : pool.WellFormed) {op : UnaryOp} {operand : NodeId} {small : Tree}
    (found : pool.node? id = some (.unary op operand)) (below : pool.tree? operand = some small)
    (first : interpretation.Ends pool [.enter operand] walk operand
      (small.interpret interpretation)) :
    interpretation.Ends pool [.enter operand, .leave id] walk id
      ((Tree.unary op small).interpret interpretation) := by
  cases interpreted : small.interpret interpretation with
  | error cause =>
      rw [interpreted] at first
      rw [Tree.interpret_unary_of_error op interpreted]
      exact first.of_error [.leave id] id
  | ok result =>
      rw [interpreted] at first
      obtain ⟨next, keeps, holds, known, goesOn⟩ := first
      refine Ends.after ?_ keeps fun pending => goesOn ([.leave id] ++ pending)
      refine ends_leave wf holds found (.unary op below) rfl ?_
      simp only [Node.children, List.mem_singleton, forall_eq, known, Option.isSome_some]

/-- Entering the operands of a node and leaving the node ends with the answer of the tree. The
second operand is visited with the cache that the first one leaves. -/
theorem ends_binary (wf : pool.WellFormed) {op : BinaryOp} {lhs rhs : NodeId} {left right : Tree}
    (found : pool.node? id = some (.binary lhs op rhs)) (belowLeft : pool.tree? lhs = some left)
    (belowRight : pool.tree? rhs = some right)
    (first : interpretation.Ends pool [.enter lhs] walk lhs (left.interpret interpretation))
    (second : ∀ next : Walk α, next.cache.Holds interpretation pool →
      interpretation.Ends pool [.enter rhs] next rhs (right.interpret interpretation)) :
    interpretation.Ends pool [.enter lhs, .enter rhs, .leave id] walk id
      ((Tree.binary left op right).interpret interpretation) := by
  cases isLeft : left.interpret interpretation with
  | error cause =>
      rw [isLeft] at first
      rw [Tree.interpret_binary_of_error op right isLeft]
      exact first.of_error [.enter rhs, .leave id] id
  | ok result =>
      rw [isLeft] at first
      obtain ⟨middle, keepsLeft, holdsLeft, knownLeft, goesOnLeft⟩ := first
      refine Ends.after ?_ keepsLeft fun pending =>
        goesOnLeft ([.enter rhs, .leave id] ++ pending)
      have later := second middle holdsLeft
      cases isRight : right.interpret interpretation with
      | error cause =>
          rw [isRight] at later
          rw [Tree.interpret_binary_of_second_error op isLeft isRight]
          exact later.of_error [.leave id] id
      | ok other =>
          rw [isRight] at later
          obtain ⟨next, keeps, holds, knownRight, goesOn⟩ := later
          refine Ends.after ?_ keeps fun pending => goesOn ([.leave id] ++ pending)
          refine ends_leave wf holds found (.binary op belowLeft belowRight) rfl ?_
          have knownBefore := keeps.results _ _ knownLeft
          simp only [Node.children, List.mem_cons, List.not_mem_nil, or_false, forall_eq_or_imp,
            forall_eq, knownBefore, knownRight, Option.isSome_some, and_self]

/-- Entering an expression ends with the answer of its tree. -/
theorem ends_enter (wf : pool.WellFormed) (holds : walk.cache.Holds interpretation pool)
    (unfolded : pool.tree? id = some tree) :
    interpretation.Ends pool [.enter id] walk id (tree.interpret interpretation) := by
  -- The cache that the second operand finds is not the one of the node, hence the generality.
  induction tree using Tree.induction_on_children generalizing id walk with
  | step tree ih =>
      cases cached : walk.cache.results[id]? with
      | some value => exact ends_enter_known wf holds unfolded cached
      | none =>
          obtain ⟨node, found, shown⟩ := wf.tree?_eq_some_iff.mp unfolded
          have expand := interpretation.walkFrom_enter wf cached found shown
          cases shown with
          | constant type components =>
              have leave := ends_leave wf holds found (.constant type components) rfl nofun
              exact leave.after (.refl _) (expand rfl)
          | var type name =>
              have leave := ends_leave wf holds found (.var type name) rfl nofun
              exact leave.after (.refl _) (expand rfl)
          | unary op below =>
              have operand := ih _ List.mem_cons_self holds below
              exact (ends_unary wf found below operand).after (.refl _) (expand rfl)
          | binary op belowLeft belowRight =>
              have first := ih _ List.mem_cons_self holds belowLeft
              have both := ends_binary wf found belowLeft belowRight first fun next holdsNext =>
                ih _ (List.mem_cons_of_mem _ List.mem_cons_self) holdsNext belowRight
              exact both.after (.refl _) (expand rfl)
          | qualified kind below => exact ends_enter_qualified holds cached found

/-! ### Runs -/

/-- The last step of a walk, which reads the result of its root off the cache. -/
def readResult (root : NodeId) : EStateM Error (Walk α) α := do
  match (← get).cache.results[root]? with
  | some result => return result
  | none => throw (.unknownNode root)

/-- The last step succeeds if the root has a result. -/
theorem readResult_eq (root : NodeId) (walk : Walk α) :
    readResult root walk =
      match walk.cache.results[root]? with
      | some result => .ok result walk
      | none => .error (.unknownNode root) walk := by
  have reads : readResult root walk = (match walk.cache.results[root]? with
    | some result => pure result
    | none => throw (.unknownNode root) : EStateM Error (Walk α) α) walk := rfl
  rw [reads]
  cases walk.cache.results[root]? <;> rfl

/-- A walk attaches the cache, makes its visits and reads the result of the root. -/
theorem walk_eq (interpretation : Interpretation α) (pool : Pool) (root : NodeId)
    (cache : Cache α) :
    interpretation.walk pool root ⟨cache, []⟩ =
      (interpretation.walkFrom pool [.enter root] >>= fun _ => readResult root)
        ⟨cache.attach pool.session, []⟩ := rfl

/-- A run succeeds if its visits end and leave a result for the root. -/
theorem run_of_ok {cache : Cache α} {next : Walk α} {result : α}
    (walked : interpretation.walkFrom pool [.enter root] ⟨cache.attach pool.session, []⟩ =
      .ok () next) (known : next.cache.results[root]? = some result) :
    interpretation.run pool root cache = .ok result next.cache := by
  rw [run, walk_eq, bind_of_ok walked, readResult_eq, known]

/-- A run fails as its visits do. -/
theorem run_of_error {cache : Cache α} {next : Walk α} {cause : Error}
    (walked : interpretation.walkFrom pool [.enter root] ⟨cache.attach pool.session, []⟩ =
      .error cause next) : interpretation.run pool root cache = .error cause next.cache := by
  rw [run, walk_eq, bind_of_error walked]

/-- A run on an expression answers what its tree does. -/
theorem run_of_tree? (wf : pool.WellFormed) {cache : Cache α}
    (holds : (cache.attach pool.session).Holds interpretation pool)
    (unfolded : pool.tree? root = some tree) :
    ∃ next, (cache.attach pool.session).Keeps next ∧ next.Holds interpretation pool ∧
      interpretation.run pool root cache =
        match tree.interpret interpretation with
        | .ok result => .ok result.value next
        | .error cause => .error cause next := by
  have ends : interpretation.Ends pool [.enter root] ⟨cache.attach pool.session, []⟩ root
      (tree.interpret interpretation) := ends_enter wf holds unfolded
  cases interpreted : tree.interpret interpretation with
  | ok result =>
      rw [interpreted] at ends
      obtain ⟨next, keeps, holdsNext, known, goesOn⟩ := ends
      have finished := goesOn []
      rw [List.append_nil, walkFrom] at finished
      exact ⟨next.cache, keeps, holdsNext, run_of_ok finished known⟩
  | error cause =>
      rw [interpreted] at ends
      obtain ⟨next, keeps, holdsNext, stops⟩ := ends
      exact ⟨next.cache, keeps, holdsNext, run_of_error (stops [])⟩

/-- A run on something else than an expression adds nothing to the cache, and fails if it is a
program. -/
theorem run_of_no_tree? (wf : pool.WellFormed) {cache : Cache α}
    (holds : (cache.attach pool.session).Holds interpretation pool)
    (noTree : pool.tree? root = none) :
    ∃ next, (cache.attach pool.session).Keeps next ∧ next.Holds interpretation pool ∧
      stateLeftBy (interpretation.run pool root) cache = next ∧
      (pool.contains root = true →
        interpretation.run pool root cache = .error (.notAnExpression root) next) := by
  cases cached : (cache.attach pool.session).results[root]? with
  | some value =>
      -- A result for something that has no tree is left from a node that was collected.
      have walked : interpretation.walkFrom pool [.enter root] ⟨cache.attach pool.session, []⟩ =
          .ok () ⟨(cache.attach pool.session).hit, []⟩ := by
        rw [walkFrom, Std.TreeMap.contains_eq_isSome_getElem?, cached, Option.isSome_some,
          if_pos rfl, walkFrom]
      refine ⟨(cache.attach pool.session).hit, ⟨rfl, fun _ _ found => found⟩,
        ⟨holds.used, holds.correct⟩, by rw [stateLeftBy, run_of_ok walked cached], ?_⟩
      intro present
      obtain ⟨tree, type, unfolded, _⟩ := holds.correct root value cached present
      rw [noTree] at unfolded
      cases unfolded
  | none =>
      refine ⟨cache.attach pool.session, .refl _, holds, ?_⟩
      cases present : pool.contains root with
      | false =>
          have absent := Option.not_isSome_iff_eq_none.mp (Bool.eq_false_iff.mp present)
          have walked : interpretation.walkFrom pool [.enter root]
              ⟨cache.attach pool.session, []⟩ =
                .error (.unknownNode root) ⟨cache.attach pool.session, []⟩ := by
            rw [walkFrom, Std.TreeMap.contains_eq_isSome_getElem?, cached, Pool.node?, absent]
            rfl
          exact ⟨by rw [stateLeftBy, run_of_error walked], nofun⟩
      | true =>
          rcases wf.exists_tree?_or_shader present with ⟨tree, unfolded⟩ | ⟨program, isNode⟩
          · rw [noTree] at unfolded
            cases unfolded
          · have walked : interpretation.walkFrom pool [.enter root]
                ⟨cache.attach pool.session, []⟩ =
                  .error (.notAnExpression root) ⟨cache.attach pool.session, []⟩ := by
              rw [walkFrom, Std.TreeMap.contains_eq_isSome_getElem?, cached, isNode]
              rfl
            exact ⟨by rw [stateLeftBy, run_of_error walked], fun _ => run_of_error walked⟩

/-- A run from a cache whose results are right leaves such a cache, and its answer for a node of the
pool does not depend on the cache. -/
theorem run_spec (wf : pool.WellFormed) {cache : Cache α}
    (holds : (cache.attach pool.session).Holds interpretation pool) (root : NodeId) :
    (cache.attach pool.session).Keeps (stateLeftBy (interpretation.run pool root) cache) ∧
      (stateLeftBy (interpretation.run pool root) cache).Holds interpretation pool ∧
      (pool.contains root = true →
        answerOf (interpretation.run pool root) cache = pool.interpret interpretation root) := by
  cases unfolded : pool.tree? root with
  | some tree =>
      obtain ⟨next, keeps, holdsNext, ran⟩ := run_of_tree? wf holds unfolded
      simp only [stateLeftBy, answerOf, Pool.interpret, unfolded, ran]
      cases tree.interpret interpretation with
      | ok result => exact ⟨keeps, holdsNext, fun _ => rfl⟩
      | error cause => exact ⟨keeps, holdsNext, fun _ => rfl⟩
  | none =>
      obtain ⟨next, keeps, holdsNext, left, fails⟩ := run_of_no_tree? wf holds unfolded
      rw [left]
      refine ⟨keeps, holdsNext, fun present => ?_⟩
      rw [answerOf, fails present, Pool.interpret, unfolded]

/-- The result of a node that is computed afresh is that of its tree. -/
theorem result_eq (interpretation : Interpretation α) (wf : pool.WellFormed)
    (present : pool.contains root = true) :
    interpretation.result pool root = pool.interpret interpretation root := by
  obtain ⟨-, -, answered⟩ := run_spec wf (Cache.holds_attach_empty interpretation pool) root
  rw [← answered present, result, answerOf]
  cases interpretation.run pool root .empty <;> rfl

/-- The result of an expression, computed afresh, is that of its tree. -/
theorem result_of_tree? (interpretation : Interpretation α) (wf : pool.WellFormed)
    (unfolded : pool.tree? root = some tree) :
    interpretation.result pool root = (tree.interpret interpretation).map Operand.value := by
  rw [interpretation.result_eq wf (wf.contains_of_tree? unfolded), Pool.interpret, unfolded]

/-! ### What walks keep -/

/-- What hits and new results keep, a walk of any pool keeps, whether or not it fails. -/
theorem keeps_walkFrom {good : Cache α → Prop} (hit : ∀ cache, good cache → good cache.hit)
    (record : ∀ cache id value, id ∉ cache.results → good cache → good (cache.record id value))
    (interpretation : Interpretation α) (pool : Pool) (pending : List Visit) (walk : Walk α)
    (isGood : good walk.cache) :
    good (stateLeftBy (interpretation.walkFrom pool pending) walk).cache := by
  unfold stateLeftBy
  fun_induction interpretation.walkFrom pool pending walk with
  | case1 walk => exact isGood
  | case2 id pending walk known ih => exact ih (hit _ isGood)
  | case3 id pending walk unknown absent => exact isGood
  | case4 id pending walk unknown kind inner found => exact isGood
  | case5 id pending walk unknown program found => exact isGood
  | case6 id pending walk unknown node notQualified notProgram found ih => exact ih isGood
  | case7 id pending walk known ih => exact ih isGood
  | case8 id pending walk unknown cause failed => exact isGood
  | case9 id pending walk unknown value computed ih =>
      exact ih (record _ id value (mt Std.TreeMap.mem_iff_contains.mp unknown) isGood)

/-- Reading the result of the root at the end changes nothing. -/
theorem stateLeftBy_run (interpretation : Interpretation α) (pool : Pool) (root : NodeId)
    (cache : Cache α) :
    stateLeftBy (interpretation.run pool root) cache =
      (stateLeftBy (interpretation.walkFrom pool [.enter root])
        ⟨cache.attach pool.session, []⟩).cache := by
  rw [stateLeftBy, stateLeftBy]
  cases walked : interpretation.walkFrom pool [.enter root] ⟨cache.attach pool.session, []⟩ with
  | error cause left => rw [run_of_error walked]
  | ok result left =>
      rw [run, walk_eq, bind_of_ok walked, readResult_eq]
      cases left.cache.results[root]? <;> rfl

end Interpretation

end Shading
