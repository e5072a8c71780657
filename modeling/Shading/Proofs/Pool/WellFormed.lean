import Shading.Pool.Basic

/-!
# Well-formed pools

In a well-formed pool the index finds exactly the structures of the nodes, the children of a node
are older expressions of the pool, and the type of a node is the one that the operators give it.
The typed constructors keep a pool well-formed and only add nodes to it. An operation made of them
does so too, whether or not it fails (`Pool.Keeps`).
-/

namespace Shading

namespace Node

/-- The type that the operators give to a node, from the types of its children. -/
def type? (childType : NodeId → Option ValueType) : Node → Option ValueType
  | constant type _ | var type _ => some type
  | unary op operand => (childType operand).map op.resultType
  | binary lhs op rhs =>
    (childType lhs).bind fun left => (childType rhs).bind (op.resultType? left)
  | qualified _ inner => childType inner
  | shader _ => none

/-- A constant has as many components as its type, and no zero among them is negative. -/
def Normal : Node → Prop
  | constant type components =>
    components.length = type.length ∧ ∀ number ∈ components, number.normalize = number
  | _ => True

/-- The type of a node depends only on the types of its children. -/
theorem type?_congr {left right : NodeId → Option ValueType} {node : Node}
    (same : ∀ child ∈ node.children, left child = right child) :
    node.type? left = node.type? right := by
  cases node with
  | constant type components => rfl
  | var type name => rfl
  | unary op operand => rw [type?, type?, same operand List.mem_cons_self]
  | binary lhs op rhs =>
      rw [type?, type?, same lhs List.mem_cons_self,
        same rhs (List.mem_cons_of_mem _ List.mem_cons_self)]
  | qualified kind inner => exact same inner List.mem_cons_self
  | shader program => rfl

/-- Only a qualified expression has a qualifier. -/
theorem eq_qualified_of_qualifier? {node : Node} {kind : Qualifier}
    (found : node.qualifier? = some kind) : ∃ inner, node = qualified kind inner := by
  cases node with
  | qualified other inner =>
      cases found
      exact ⟨inner, rfl⟩
  | constant _ _ => cases found
  | var _ _ => cases found
  | unary _ _ => cases found
  | binary _ _ _ => cases found
  | shader _ => cases found

end Node

namespace Pool

variable {α β : Type} {pool before middle after : Pool} {id : NodeId} {entry : Entry}

/-- The type of a node, if it is an expression of the pool. -/
def type? (pool : Pool) (id : NodeId) : Option ValueType :=
  (pool.entry? id).bind Entry.type

/-- What the typed constructors make sure of before a node is added. -/
structure Admits (pool : Pool) (entry : Entry) : Prop where
  exprs : ∀ child ∈ entry.node.children, (pool.type? child).isSome
  typed : entry.type = entry.node.type? pool.type?
  total : entry.node.isExpr → entry.type.isSome
  normal : entry.node.Normal

/-- The invariant of the typed constructors and of collection. -/
structure WellFormed (pool : Pool) : Prop where
  admitted : ∀ id entry, pool.entry? id = some entry → pool.Admits entry
  older : ∀ id entry, pool.entry? id = some entry → ∀ child ∈ entry.node.children, child < id
  indexed : ∀ node id, pool.index[node]? = some id ↔ pool.node? id = some node
  /-- What is marked is in the pool, with everything below it. -/
  marked : ∀ id ∈ pool.marked, ∃ entry, pool.entry? id = some entry ∧
    ∀ child ∈ entry.node.children, child ∈ pool.marked

/-- Nodes are added to a pool, and no node is removed or changed. -/
structure Extends (before after : Pool) : Prop where
  session : after.session = before.session
  size : before.slots.size ≤ after.slots.size
  entry : ∀ id, id < before.slots.size → after.entry? id = before.entry? id
  /-- Every new identity has a node. -/
  filled : ∀ id, before.slots.size ≤ id → id < after.slots.size → after.contains id = true

/-- Nodes are added to a pool, and nothing else is changed. -/
structure Grows (before after : Pool) : Prop extends Extends before after where
  marked : after.marked = before.marked

/-! ### Queries -/

/-- A node of the pool is one of the identities handed out. -/
theorem lt_size_of_present (found : pool.entry? id = some entry) : id < pool.slots.size := by
  rcases Nat.lt_or_ge id pool.slots.size with inside | outside
  · exact inside
  · rw [Pool.entry?, Array.getElem?_eq_none outside] at found
    cases found

/-- A node has a structure if the pool has an entry for it. -/
theorem node?_eq_some_iff {node : Node} :
    pool.node? id = some node ↔ ∃ type, pool.entry? id = some ⟨node, type⟩ := by
  constructor
  · intro found
    obtain ⟨entry, present, rfl⟩ := Option.map_eq_some_iff.mp found
    exact ⟨entry.type, present⟩
  · rintro ⟨type, present⟩
    exact Option.map_eq_some_iff.mpr ⟨_, present, rfl⟩

/-- A node with a structure is one of the identities handed out. -/
theorem lt_size_of_node? {node : Node} (found : pool.node? id = some node) :
    id < pool.slots.size := by
  obtain ⟨type, present⟩ := node?_eq_some_iff.mp found
  exact lt_size_of_present present

/-- An expression is one of the identities handed out. -/
theorem lt_size_of_type? {type : ValueType} (found : pool.type? id = some type) :
    id < pool.slots.size := by
  obtain ⟨entry, present, -⟩ := Option.bind_eq_some_iff.mp found
  exact lt_size_of_present present

/-- A node that has an entry is in the pool. -/
theorem contains_of_present (found : pool.entry? id = some entry) : pool.contains id = true := by
  rw [contains, found]
  rfl

/-- An expression is in the pool. -/
theorem contains_of_type? {type : ValueType} (found : pool.type? id = some type) :
    pool.contains id = true := by
  obtain ⟨entry, present, -⟩ := Option.bind_eq_some_iff.mp found
  exact contains_of_present present

/-- Asking for the type of a node succeeds exactly for expressions. -/
theorem typeOf_eq_ok_iff {type : ValueType} :
    pool.typeOf id = .ok type ↔ pool.type? id = some type := by
  unfold typeOf type?
  cases pool.entry? id with
  | none => simp
  | some entry =>
      cases typeEq : entry.type with
      | none => simp [typeEq]
      | some found => simp [typeEq]

/-- Asking for a node succeeds exactly if the pool has it. -/
theorem node_eq_ok_iff {node : Node} : pool.node id = .ok node ↔ pool.node? id = some node := by
  unfold Pool.node
  cases pool.node? id <;> simp

/-- Asking for a program succeeds exactly for nodes that are programs. -/
theorem program_eq_ok_iff {program : Program} :
    pool.program id = .ok program ↔ pool.node? id = some (.shader program) := by
  unfold Pool.program
  constructor
  · intro found
    split at found
    next => cases found
    next same isNode =>
      cases found
      exact node_eq_ok_iff.mp isNode
    next => cases found
  · intro found
    rw [node_eq_ok_iff.mpr found]

/-- The type of a node is the one that the operators give it. -/
theorem WellFormed.type?_eq (wf : pool.WellFormed) {node : Node}
    (found : pool.node? id = some node) : pool.type? id = node.type? pool.type? := by
  obtain ⟨type, present⟩ := node?_eq_some_iff.mp found
  rw [type?, present]
  exact (wf.admitted id _ present).typed

/-- Children are older than their parents. -/
theorem WellFormed.child_lt (wf : pool.WellFormed) {node : Node} {child : NodeId}
    (found : pool.node? id = some node) (member : child ∈ node.children) : child < id := by
  obtain ⟨type, present⟩ := node?_eq_some_iff.mp found
  exact wf.older id _ present child member

/-- Children are expressions. -/
theorem WellFormed.child_type? (wf : pool.WellFormed) {node : Node} {child : NodeId}
    (found : pool.node? id = some node) (member : child ∈ node.children) :
    (pool.type? child).isSome := by
  obtain ⟨type, present⟩ := node?_eq_some_iff.mp found
  exact (wf.admitted id _ present).exprs child member

/-- Children are in the pool. -/
theorem WellFormed.child_contains (wf : pool.WellFormed) {node : Node} {child : NodeId}
    (found : pool.node? id = some node) (member : child ∈ node.children) :
    pool.contains child = true := by
  obtain ⟨type, typeEq⟩ := Option.isSome_iff_exists.mp (wf.child_type? found member)
  exact contains_of_type? typeEq

/-- A structure has one identity. -/
theorem WellFormed.id_unique (wf : pool.WellFormed) {left right : NodeId} {node : Node}
    (leftFound : pool.node? left = some node) (rightFound : pool.node? right = some node) :
    left = right := by
  have leftIndexed := (wf.indexed node left).mpr leftFound
  have rightIndexed := (wf.indexed node right).mpr rightFound
  rw [leftIndexed] at rightIndexed
  exact Option.some.inj rightIndexed

/-! ### Growth -/

namespace Extends

theorem refl (pool : Pool) : pool.Extends pool where
  session := rfl
  size := Nat.le_refl _
  entry _ _ := rfl
  filled _ new inside := absurd inside (Nat.not_lt.mpr new)

/-- An entry stays when a pool is extended. -/
theorem entry?_eq (extension : before.Extends after) (found : before.entry? id = some entry) :
    after.entry? id = some entry := by
  rw [extension.entry id (lt_size_of_present found), found]

/-- A node stays in a pool that is extended. -/
theorem contains (extension : before.Extends after) (present : before.contains id = true) :
    after.contains id = true := by
  obtain ⟨entry, found⟩ := Option.isSome_iff_exists.mp present
  rw [Pool.contains, extension.entry?_eq found]
  rfl

theorem trans (first : before.Extends middle) (second : middle.Extends after) :
    before.Extends after where
  session := second.session.trans first.session
  size := Nat.le_trans first.size second.size
  entry id inside :=
    (second.entry id (Nat.lt_of_lt_of_le inside first.size)).trans (first.entry id inside)
  filled id new inside := by
    rcases Nat.lt_or_ge id middle.slots.size with early | late
    · exact second.contains (first.filled id new early)
    · exact second.filled id late inside

end Extends

namespace Grows

theorem refl (pool : Pool) : pool.Grows pool :=
  ⟨Extends.refl pool, rfl⟩

theorem trans (first : before.Grows middle) (second : middle.Grows after) :
    before.Grows after :=
  ⟨first.toExtends.trans second.toExtends, second.marked.trans first.marked⟩

/-- A node keeps its structure when a pool grows. -/
theorem node?_eq (grows : before.Grows after) {node : Node} (found : before.node? id = some node) :
    after.node? id = some node := by
  obtain ⟨type, present⟩ := node?_eq_some_iff.mp found
  exact node?_eq_some_iff.mpr ⟨type, grows.entry?_eq present⟩

/-- An expression keeps its type when a pool grows. -/
theorem type?_eq (grows : before.Grows after) {type : ValueType}
    (found : before.type? id = some type) : after.type? id = some type := by
  obtain ⟨entry, present, typeEq⟩ := Option.bind_eq_some_iff.mp found
  exact Option.bind_eq_some_iff.mpr ⟨entry, grows.entry?_eq present, typeEq⟩

end Grows

/-- What a pool admits depends only on the types of the children. -/
theorem Admits.of_type?_eq (admits : before.Admits entry)
    (same : ∀ child ∈ entry.node.children, after.type? child = before.type? child) :
    after.Admits entry where
  exprs child member := (same child member).symm ▸ admits.exprs child member
  typed := admits.typed.trans (Node.type?_congr same).symm
  total := admits.total
  normal := admits.normal

/-- What a pool admits is still admitted after it has grown. -/
theorem Admits.grow (admits : before.Admits entry) (grows : before.Grows after) :
    after.Admits entry := by
  refine admits.of_type?_eq fun child member => ?_
  obtain ⟨type, typeEq⟩ := Option.isSome_iff_exists.mp (admits.exprs child member)
  rw [typeEq, grows.type?_eq typeEq]

/-! ### Interning -/

/-- The pool with one more node. -/
def add (pool : Pool) (entry : Entry) : Pool :=
  { pool with
    slots := pool.slots.push (some entry)
    index := pool.index.insert entry.node pool.slots.size }

/-- The added entry is found under the next identity. -/
theorem entry?_add_self (pool : Pool) (entry : Entry) :
    Pool.entry? (pool.add entry) pool.slots.size = some entry := by
  rw [Pool.entry?, add, Array.getElem?_push_size]
  rfl

/-- Adding an entry makes a pool grow. -/
theorem grows_add (pool : Pool) (entry : Entry) : pool.Grows (pool.add entry) where
  session := rfl
  marked := rfl
  size := by
    rw [add, Array.size_push]
    exact Nat.le_succ _
  entry id inside := by
    rw [Pool.entry?, Pool.entry?, add, Array.getElem?_push_lt inside,
      Array.getElem?_eq_getElem inside]
  filled id new inside := by
    rw [add, Array.size_push] at inside
    rw [Nat.le_antisymm (Nat.le_of_lt_succ inside) new, Pool.contains, entry?_add_self]
    rfl

/-- Nothing but the added entry is new. -/
theorem entry?_add {found : Entry} (present : Pool.entry? (pool.add entry) id = some found) :
    (id = pool.slots.size ∧ found = entry) ∨ pool.entry? id = some found := by
  have inside := lt_size_of_present present
  rw [add, Array.size_push] at inside
  rcases Nat.lt_succ_iff_lt_or_eq.mp inside with old | rfl
  · exact Or.inr ((pool.grows_add entry).entry id old ▸ present)
  · rw [entry?_add_self] at present
    exact Or.inl ⟨rfl, (Option.some.inj present).symm⟩

/-- Adding an entry that is admitted and new keeps a pool well-formed. -/
theorem WellFormed.add (wf : pool.WellFormed) (admits : pool.Admits entry)
    (new : pool.index[entry.node]? = none) : (pool.add entry).WellFormed where
  admitted id found present := by
    rcases entry?_add present with ⟨-, rfl⟩ | old
    · exact admits.grow (pool.grows_add found)
    · exact (wf.admitted id found old).grow (pool.grows_add entry)
  older id found present child member := by
    rcases entry?_add present with ⟨rfl, rfl⟩ | old
    · obtain ⟨type, typeEq⟩ := Option.isSome_iff_exists.mp (admits.exprs child member)
      exact lt_size_of_type? typeEq
    · exact wf.older id found old child member
  indexed node id := by
    change (pool.index.insert entry.node pool.slots.size)[node]? = some id ↔ _
    rw [Std.TreeMap.getElem?_insert]
    split
    next same =>
      cases Std.LawfulEqCmp.eq_of_compare same
      constructor
      · rintro found
        cases found
        exact node?_eq_some_iff.mpr ⟨entry.type, entry?_add_self pool entry⟩
      · intro found
        obtain ⟨type, present⟩ := node?_eq_some_iff.mp found
        rcases entry?_add present with ⟨rfl, -⟩ | old
        · rfl
        · have indexed := (wf.indexed entry.node id).mpr (node?_eq_some_iff.mpr ⟨type, old⟩)
          rw [new] at indexed
          cases indexed
    next different =>
      rw [wf.indexed]
      constructor
      · exact (pool.grows_add entry).node?_eq
      · intro found
        obtain ⟨type, present⟩ := node?_eq_some_iff.mp found
        rcases entry?_add present with ⟨-, rfl⟩ | old
        · exact absurd Std.ReflCmp.compare_self different
        · exact node?_eq_some_iff.mpr ⟨type, old⟩
  marked id member := by
    obtain ⟨found, present, closed⟩ := wf.marked id member
    exact ⟨found, (pool.grows_add entry).entry?_eq present, closed⟩

/-- Interning an admitted node succeeds, with a node of that structure. -/
theorem WellFormed.intern (wf : pool.WellFormed) (admits : pool.Admits entry) :
    ∃ id after, Pool.intern entry.node entry.type pool = .ok id after ∧ after.WellFormed ∧
      pool.Grows after ∧ after.entry? id = some entry := by
  unfold Pool.intern
  split
  next id found =>
    obtain ⟨type, present⟩ := node?_eq_some_iff.mp ((wf.indexed entry.node id).mp found)
    have typeEq : type = entry.type := by
      rw [admits.typed]
      exact (wf.admitted id _ present).typed
    rw [typeEq] at present
    exact ⟨id, pool, rfl, wf, Grows.refl pool, present⟩
  next new =>
    exact ⟨pool.slots.size, pool.add entry, rfl, wf.add admits new, pool.grows_add entry,
      entry?_add_self pool entry⟩

end Pool

end Shading
