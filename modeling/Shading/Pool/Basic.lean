import Std.Data.TreeMap
import Std.Data.TreeSet
import Shading.Node.Order

/-!
# Node pools

A pool keeps every structure once: making a node that is already there gives its identity again.
Identities count up from zero and are never used twice. They are natural numbers here; a counter
of 32 bits gives the same ones to the first `2³²` new structures, so what is proved about a pool
speaks for such a counter as long as fewer structures than that were ever added. A node is made
only by the typed constructors below, which check their operands, so the type of every expression
is known when it is made. An operation that fails keeps what it had already added.
-/

namespace Shading

/-- A node with its type; a program has none. -/
structure Entry where
  node : Node
  type : Option ValueType

/-- A pool of nodes. With identities of 32 bits, what is proved about pools is about histories of
fewer than `2³²` new structures. -/
structure Pool where
  /-- Tells pools apart, because an identity has a meaning only in its own pool. -/
  session : Nat
  /-- The entry of each identity handed out so far, or nothing once it was collected. -/
  slots : Array (Option Entry)
  /-- The identity of each structure in the pool. -/
  index : Std.TreeMap Node NodeId
  /-- The nodes to keep at the next collection. -/
  marked : Std.TreeSet NodeId

/-- An operation that may add nodes to a pool, also when it fails. -/
abbrev PoolM := EStateM Error Pool

namespace Pool

/-- A pool without nodes. -/
def empty (session : Nat) : Pool where
  session := session
  slots := #[]
  index := ∅
  marked := ∅

instance : Inhabited Pool := ⟨empty 0⟩

variable {α : Type}

/-! ### Queries -/

/-- The entry of a node. -/
def entry? (pool : Pool) (id : NodeId) : Option Entry :=
  pool.slots[id]?.join

/-- Whether a node is in the pool. -/
def contains (pool : Pool) (id : NodeId) : Bool :=
  (pool.entry? id).isSome

/-- The structure of a node, if it is in the pool. -/
def node? (pool : Pool) (id : NodeId) : Option Node :=
  (pool.entry? id).map Entry.node

/-- The structure of a node. -/
def node (pool : Pool) (id : NodeId) : Except Error Node :=
  match pool.node? id with
  | some node => .ok node
  | none => .error (.unknownNode id)

/-- The type of an expression. -/
def typeOf (pool : Pool) (id : NodeId) : Except Error ValueType :=
  match pool.entry? id with
  | none => .error (.unknownNode id)
  | some entry =>
    match entry.type with
    | some type => .ok type
    | none => .error (.notAnExpression id)

/-- The program of a node. -/
def program (pool : Pool) (id : NodeId) : Except Error Program :=
  match pool.node id with
  | .error cause => .error cause
  | .ok (.shader program) => .ok program
  | .ok _ => .error (.notAShader id)

/-- The children of a node. -/
def children (pool : Pool) (id : NodeId) : Except Error (List NodeId) :=
  (pool.node id).map Node.children

/-- The identity of a structure, if it is in the pool. -/
def lookup (pool : Pool) (node : Node) : Option NodeId :=
  pool.index[node]?

/-- The identity that the next new structure gets. -/
def nextId (pool : Pool) : NodeId :=
  pool.slots.size

/-- The number of nodes in the pool. -/
def size (pool : Pool) : Nat :=
  pool.slots.countP Option.isSome

/-- Asks a pool without changing it. -/
@[inline]
def query (ask : Pool → Except Error α) : PoolM α := fun pool =>
  match ask pool with
  | .ok answer => .ok answer pool
  | .error cause => .error cause pool

/-! ### Typed constructors -/

/-- The identity of a structure, which is added to the pool if it is not there. -/
def intern (node : Node) (type : Option ValueType) : PoolM NodeId := fun pool =>
  match pool.index[node]? with
  | some id => .ok id pool
  | none =>
    let id := pool.nextId
    .ok id
      { pool with
        slots := pool.slots.push (some ⟨node, type⟩)
        index := pool.index.insert node id }

/-- A constant of as many components as its type has. -/
def constant (type : ValueType) (components : List Binary64) : PoolM NodeId :=
  if components.length = type.length then intern (.literal type components) (some type)
  else throw (.constantArity type components.length)

/-- A variable. -/
def var (type : ValueType) (name : String) : PoolM NodeId :=
  intern (.var type name) (some type)

/-- An operator applied to an expression. -/
def unary (op : UnaryOp) (operand : NodeId) : PoolM NodeId := do
  let type ← query (·.typeOf operand)
  intern (.unary op operand) (some (op.resultType type))

/-- An operator applied to two expressions for whose types it is defined. -/
def binary (lhs : NodeId) (op : BinaryOp) (rhs : NodeId) : PoolM NodeId := do
  let left ← query (·.typeOf lhs)
  let right ← query (·.typeOf rhs)
  match op.resultType? left right with
  | some type => intern (.binary lhs op rhs) (some type)
  | none => throw (.typeMismatch op left right)

/-- A qualified expression, of the type of the expression. -/
def qualify (kind : Qualifier) (inner : NodeId) : PoolM NodeId := do
  let type ← query (·.typeOf inner)
  intern (.qualified kind inner) (some type)

/-- Checks that every node of a list is an expression of the pool. -/
def checkExprs (pool : Pool) : List NodeId → Except Error Unit
  | [] => .ok ()
  | id :: rest =>
    match pool.typeOf id with
    | .ok _ => checkExprs pool rest
    | .error cause => .error cause

/-- A program all of whose outputs are expressions of the pool. -/
def shader (program : Program) : PoolM NodeId := do
  query (·.checkExprs program.outputs.values)
  intern (.shader program) none

end Pool

end Shading
