import Shading.Pool.Traversal

/-!
# Collection

Marking keeps everything below a root, and a sweep removes every node that was not marked since
the sweep before. Identities of removed nodes are not used again.
-/

namespace Shading.Pool

/-- Marks everything below a root, or nothing if the root is not in the pool. -/
def mark (root : NodeId) : PoolM Unit := fun pool =>
  match pool.preOrder root with
  | .ok reached => .ok () { pool with marked := pool.marked.insertMany reached }
  | .error cause => .error cause pool

/-- The pool of the marked nodes, without marks. -/
def swept (pool : Pool) : Pool where
  session := pool.session
  slots := pool.slots.mapIdx fun id slot => if pool.marked.contains id then slot else none
  index := pool.index.filter fun _ id => pool.marked.contains id
  marked := ∅

/-- Removes the nodes that are not marked and gives their number. -/
def sweep : PoolM Nat := fun pool =>
  let kept := pool.swept
  .ok (pool.size - kept.size) kept

end Shading.Pool
