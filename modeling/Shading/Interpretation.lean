import Shading.Pool.Traversal

/-!
# Interpretations of expressions

An interpretation gives a result to every kind of expression, from the results of the operands.
Walking an expression computes the results of its nodes from the bottom up and keeps them in a
cache, so that a shared node is computed once. The cache outlives a walk, also one that fails, and
belongs to one pool: with another pool it starts afresh.
-/

namespace Shading

variable {α : Type}

/-- An operand with its type and its result. -/
structure Operand (α : Type) where
  type : ValueType
  value : α

/-- A way to compute a result for every expression that is not qualified. Each of the functions is
pure: it keeps no state of its own, and its answer depends on its arguments only. -/
structure Interpretation (α : Type) where
  /-- What the computation is called when it meets a qualified expression. -/
  action : String
  constant : ValueType → List Binary64 → Except Error α
  var : ValueType → String → Except Error α
  unary : UnaryOp → Operand α → Except Error α
  binary : BinaryOp → ValueType → Operand α → Operand α → Except Error α

/-- Results of nodes of one pool, with counts of how often a result was found and how often it was
computed. -/
structure Cache (α : Type) where
  /-- The session of the pool to which the results belong. -/
  owner : Option Nat
  results : Std.TreeMap NodeId α
  hits : Nat
  misses : Nat

/-- What a cache has done so far. -/
structure CacheStats where
  nodes : Nat
  hits : Nat
  misses : Nat
  /-- The part of hits in all requests, or zero before the first. -/
  rate : Float

namespace Cache

/-- A cache without results, of no pool. -/
def empty : Cache α where
  owner := none
  results := ∅
  hits := 0
  misses := 0

instance : Inhabited (Cache α) := ⟨empty⟩

/-- The cache for a pool, which is empty unless it already belongs to that pool. -/
def attach (cache : Cache α) (session : Nat) : Cache α :=
  if cache.owner = some session then cache else { empty with owner := some session }

/-- Counts a result that was found. -/
def hit (cache : Cache α) : Cache α :=
  { cache with hits := cache.hits + 1 }

/-- Keeps a result that was computed. -/
def record (cache : Cache α) (id : NodeId) (result : α) : Cache α :=
  { cache with results := cache.results.insert id result, misses := cache.misses + 1 }

/-- The type and the result of an operand, which was computed before. -/
def operand (cache : Cache α) (pool : Pool) (id : NodeId) : Except Error (Operand α) := do
  let type ← pool.typeOf id
  match cache.results[id]? with
  | some value => return { type, value }
  | none => throw (.missingResult id)

/-- The counts of a cache. -/
def stats (cache : Cache α) : CacheStats where
  nodes := cache.results.size
  hits := cache.hits
  misses := cache.misses
  rate :=
    if 0 < cache.hits + cache.misses then
      Float.ofNat cache.hits / Float.ofNat (cache.hits + cache.misses)
    else 0.0

end Cache

/-- A walk in progress. -/
structure Walk (α : Type) where
  cache : Cache α
  /-- The nodes computed so far, last first: one entry for each call of the interpretation that
  gave a result. A call that fails ends the walk. -/
  computed : List NodeId

namespace Interpretation

variable (interpretation : Interpretation α)

/-- The result of a node whose operands have results. -/
def compute (pool : Pool) (cache : Cache α) (id : NodeId) : Except Error α := do
  match ← pool.node id with
  | .constant type components => interpretation.constant type components
  | .var type name => interpretation.var type name
  | .unary op operand =>
    let operand ← cache.operand pool operand
    interpretation.unary op operand
  | .binary lhs op rhs =>
    let type ← pool.typeOf id
    let left ← cache.operand pool lhs
    let right ← cache.operand pool rhs
    interpretation.binary op type left right
  | .qualified .. | .shader _ => throw (.notAnExpression id)

/-- Continues a walk with pending visits. A node that has a result is not entered, and a qualified
expression or a program is refused before anything below it is visited. -/
def walkFrom (pool : Pool) : List Visit → EStateM Error (Walk α) Unit
  | [], walk => .ok () walk
  | .enter id :: pending, walk =>
    if walk.cache.results.contains id then
      walkFrom pool pending { walk with cache := walk.cache.hit }
    else
      match pool.node? id with
      | none => .error (.unknownNode id) walk
      | some (.qualified kind _) => .error (.illegalQualifier kind interpretation.action) walk
      | some (.shader _) => .error (.notAnExpression id) walk
      | some _ => walkFrom pool ((pool.operands id).map .enter ++ .leave id :: pending) walk
  | .leave id :: pending, walk =>
    if walk.cache.results.contains id then walkFrom pool pending walk
    else
      match interpretation.compute pool walk.cache id with
      | .error cause => .error cause walk
      | .ok result =>
        walkFrom pool pending
          { cache := walk.cache.record id result, computed := id :: walk.computed }
termination_by pending => pool.pendingWeight pending
decreasing_by
  · exact pool.pendingWeight_enter id pending
  · exact pool.pendingWeight_expand id pending _ (List.Sublist.refl _)
  · exact pool.pendingWeight_leave id pending
  · exact pool.pendingWeight_leave id pending

/-- Walks an expression and gives its result. -/
def walk (pool : Pool) (root : NodeId) : EStateM Error (Walk α) α := do
  modify fun walk => { walk with cache := walk.cache.attach pool.session }
  interpretation.walkFrom pool [.enter root]
  match (← get).cache.results[root]? with
  | some result => return result
  | none => throw (.unknownNode root)

/-- The result of an expression, with a cache of earlier results. -/
def run (pool : Pool) (root : NodeId) : EStateM Error (Cache α) α := fun cache =>
  match interpretation.walk pool root { cache, computed := [] } with
  | .ok result walk => .ok result walk.cache
  | .error cause walk => .error cause walk.cache

/-- The result of an expression, computed afresh. -/
def result (pool : Pool) (root : NodeId) : Except Error α :=
  match interpretation.run pool root .empty with
  | .ok result _ => .ok result
  | .error cause _ => .error cause

end Interpretation

end Shading
