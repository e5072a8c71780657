import Shading.Pool.Basic

/-!
# Depth-first traversal

The graph below a node is visited depth first, each node once and the children from left to
right. Nodes on the way are kept in a list of pending visits, so the depth of a graph does not
matter. A node that was seen before is passed over when its turn comes, and is not even put on the
list when it is already seen as an operand. A child is always older than its parent; following
only older children makes a traversal finite in whatever pool it is made.
-/

namespace Shading

/-- One step of a depth-first traversal. -/
inductive Visit where
  /-- A node is reached, before anything below it. -/
  | enter (id : NodeId)
  /-- A node is done, after everything below it. -/
  | leave (id : NodeId)
  deriving DecidableEq, Repr

namespace Pool

/-- The children of a node that are older than it, which are all of them. -/
def operands (pool : Pool) (id : NodeId) : List NodeId :=
  match pool.node? id with
  | some node => node.children.filter (· < id)
  | none => []

/-- Operands are older than their node. -/
theorem lt_of_mem_operands {pool : Pool} {id child : NodeId}
    (member : child ∈ pool.operands id) : child < id := by
  unfold operands at member
  split at member
  · exact of_decide_eq_true (List.mem_filter.mp member).2
  · exact absurd member List.not_mem_nil

/-! ### What a traversal has still to do -/

/-- Sums of weights start from the numeral zero, whatever else is imported. -/
local instance (priority := 2000) : Zero Nat := Zero.ofOfNat0

/-- The number of visits at and below a node when nothing is shared. -/
def weight (pool : Pool) (id : NodeId) : Nat :=
  2 + ((pool.operands id).attach.map fun child => pool.weight child.1).sum
termination_by id
decreasing_by exact lt_of_mem_operands child.2

/-- The number of visits at and below the nodes of a forest when nothing is shared. -/
def forestWeight (pool : Pool) (ids : List NodeId) : Nat :=
  (ids.map pool.weight).sum

/-- A node is entered and left, and the forest of its operands is visited in between. -/
theorem weight_eq (pool : Pool) (id : NodeId) :
    pool.weight id = 2 + pool.forestWeight (pool.operands id) := by
  rw [weight, List.map_attach_eq_pmap, List.pmap_eq_map, forestWeight]

/-- A forest is visited one tree after the other. -/
theorem forestWeight_cons (pool : Pool) (id : NodeId) (rest : List NodeId) :
    pool.forestWeight (id :: rest) = pool.weight id + pool.forestWeight rest := by
  rw [forestWeight, List.map_cons, List.sum_cons, forestWeight]

/-- Two forests side by side weigh as much as both. -/
theorem forestWeight_append (pool : Pool) (first second : List NodeId) :
    pool.forestWeight (first ++ second) = pool.forestWeight first + pool.forestWeight second := by
  rw [forestWeight, List.map_append, List.sum_append_nat, forestWeight, forestWeight]

/-- A part of a forest weighs at most as much as the forest. -/
theorem forestWeight_le_of_sublist (pool : Pool) {some all : List NodeId}
    (part : some.Sublist all) : pool.forestWeight some ≤ pool.forestWeight all := by
  induction part with
  | slnil => exact Nat.le_refl _
  | cons id _ ih =>
    rw [forestWeight_cons]
    exact Nat.le_trans ih (Nat.le_add_left _ _)
  | cons_cons id _ ih =>
    rw [forestWeight_cons, forestWeight_cons]
    exact Nat.add_le_add_left ih _

/-- Operands of a node, and what is below them, leave less to visit than the node. -/
theorem forestWeight_expand (pool : Pool) (id : NodeId) {some : List NodeId}
    (part : some.Sublist (pool.operands id)) (rest : List NodeId) :
    pool.forestWeight (some ++ rest) < pool.forestWeight (id :: rest) := by
  have less := pool.forestWeight_le_of_sublist part
  rw [forestWeight_append, forestWeight_cons, weight_eq]
  omega

/-- There is less to visit without the first tree. -/
theorem forestWeight_rest (pool : Pool) (id : NodeId) (rest : List NodeId) :
    pool.forestWeight rest < pool.forestWeight (id :: rest) :=
  pool.forestWeight_expand id (List.nil_sublist _) rest

/-- The number of visits that a list of pending visits can lead to. -/
def pendingWeight (pool : Pool) : List Visit → Nat
  | [] => 0
  | .enter id :: pending => pool.weight id + pool.pendingWeight pending
  | .leave _ :: pending => 1 + pool.pendingWeight pending

/-- Entering the nodes of a forest leads to the visits of the forest. -/
theorem pendingWeight_enter_append (pool : Pool) (ids : List NodeId) (pending : List Visit) :
    pool.pendingWeight (ids.map .enter ++ pending) =
      pool.forestWeight ids + pool.pendingWeight pending := by
  induction ids with
  | nil => exact (Nat.zero_add _).symm
  | cons id rest ih =>
    rw [List.map_cons, List.cons_append, pendingWeight, ih, forestWeight_cons, Nat.add_assoc]

/-- Leaving a node leaves less to do. -/
theorem pendingWeight_leave (pool : Pool) (id : NodeId) (pending : List Visit) :
    pool.pendingWeight pending < pool.pendingWeight (.leave id :: pending) := by
  rw [pendingWeight]
  omega

/-- Entering some operands of a node and leaving it is less to do than entering the node. -/
theorem pendingWeight_expand (pool : Pool) (id : NodeId) (pending : List Visit)
    (some : List NodeId) (part : some.Sublist (pool.operands id)) :
    pool.pendingWeight (some.map .enter ++ .leave id :: pending) <
      pool.pendingWeight (.enter id :: pending) := by
  have less := pool.forestWeight_le_of_sublist part
  rw [pendingWeight_enter_append, pendingWeight, pendingWeight, weight_eq]
  omega

/-- Passing over a node leaves less to do. -/
theorem pendingWeight_enter (pool : Pool) (id : NodeId) (pending : List Visit) :
    pool.pendingWeight pending < pool.pendingWeight (.enter id :: pending) :=
  Nat.lt_trans (pool.pendingWeight_leave id pending)
    (pool.pendingWeight_expand id pending [] (List.nil_sublist _))

/-! ### The two orders -/

/-- The operands of a node that are not seen yet. -/
def unseenOperands (pool : Pool) (seen : Std.TreeSet NodeId) (id : NodeId) : List NodeId :=
  (pool.operands id).filter fun child => !seen.contains child

/-- Continues an order of leaving with pending visits, given the nodes entered so far and the
nodes left so far, last first. Nothing below a node at which `stop` holds is visited. -/
def postOrderFrom (pool : Pool) (stop : NodeId → Bool) :
    List Visit → Std.TreeSet NodeId → List NodeId → Except Error (List NodeId)
  | [], _, order => .ok order.reverse
  | .leave id :: pending, seen, order => pool.postOrderFrom stop pending seen (id :: order)
  | .enter id :: pending, seen, order =>
    if seen.contains id then pool.postOrderFrom stop pending seen order
    else if !pool.contains id then .error (.unknownNode id)
    else if stop id then pool.postOrderFrom stop (.leave id :: pending) (seen.insert id) order
    else
      pool.postOrderFrom stop
        ((pool.unseenOperands (seen.insert id) id).map .enter ++ .leave id :: pending)
        (seen.insert id) order
termination_by pending => pool.pendingWeight pending
decreasing_by
  · exact pool.pendingWeight_leave id pending
  · exact pool.pendingWeight_enter id pending
  · exact pool.pendingWeight_expand id pending [] (List.nil_sublist _)
  · exact pool.pendingWeight_expand id pending _ List.filter_sublist

/-- The nodes below a root, each after the nodes below it. Nothing below a node at which `stop`
holds is listed. -/
def postOrderUntil (pool : Pool) (stop : NodeId → Bool) (root : NodeId) :
    Except Error (List NodeId) :=
  pool.postOrderFrom stop [.enter root] ∅ []

/-- The nodes below a root, each after the nodes below it. -/
def postOrder (pool : Pool) (root : NodeId) : Except Error (List NodeId) :=
  pool.postOrderUntil (fun _ => false) root

/-- Continues a collection with pending nodes, given the nodes seen so far and the nodes kept so
far, last first. -/
def collectFrom (pool : Pool) (keep : Node → Bool) :
    List NodeId → Std.TreeSet NodeId → List NodeId → Except Error (List NodeId)
  | [], _, kept => .ok kept.reverse
  | id :: pending, seen, kept =>
    if seen.contains id then pool.collectFrom keep pending seen kept
    else
      match pool.node? id with
      | none => .error (.unknownNode id)
      | some node =>
        pool.collectFrom keep (pool.unseenOperands (seen.insert id) id ++ pending) (seen.insert id)
          (if keep node then id :: kept else kept)
termination_by pending => pool.forestWeight pending
decreasing_by
  · exact pool.forestWeight_rest id pending
  · exact pool.forestWeight_expand id List.filter_sublist pending

/-- The nodes below a root that satisfy a predicate, each before the nodes below it. -/
def collect (pool : Pool) (root : NodeId) (keep : Node → Bool) : Except Error (List NodeId) :=
  pool.collectFrom keep [root] ∅ []

/-- The nodes below a root, each before the nodes below it. -/
def preOrder (pool : Pool) (root : NodeId) : Except Error (List NodeId) :=
  pool.collect root fun _ => true

/-- The expressions below a root that have a given qualifier. -/
def qualifiedAs (pool : Pool) (root : NodeId) (kind : Qualifier) : Except Error (List NodeId) :=
  pool.collect root fun node => node.qualifier? = some kind

end Pool

end Shading
