import Shading.Proofs.Pool.Orders
import Shading.Proofs.Reachable

/-!
# Traversals as a recursive search

A traversal works off a list of pending visits in which a shared node can stand several times. Here
it is compared with the search that a recursion over the graph makes (`Pool.search`): a visited
node is skipped, and from any other node the search goes on to its children, from left to right.
The order of entering is the order in which the search reaches nodes, and the order of leaving is
the one in which it is done with them.
-/

namespace Shading

/-- What a search has done so far. -/
structure Search where
  /-- The visited nodes, in the order in which they were reached. -/
  reached : List NodeId := []
  /-- The nodes that are done, with all below them, in the order in which they were done. -/
  finished : List NodeId := []

namespace Search

/-- The search has reached another node. -/
def reach (search : Search) (id : NodeId) : Search :=
  { search with reached := search.reached ++ [id] }

/-- The search is done with another node. -/
def finish (search : Search) (id : NodeId) : Search :=
  { search with finished := search.finished ++ [id] }

end Search

namespace Pool

variable {pool : Pool} {stop : NodeId → Bool} {id root child : NodeId} {node : Node}
  {before : Search} {ids order : List NodeId} {seen : Std.TreeSet NodeId}

/-- Searches a node and what is below it, depth first. Only older children are followed, which are
all of them. -/
def search (pool : Pool) (id : NodeId) (before : Search) : Search :=
  if id ∈ before.reached then before
  else
    match pool.node? id with
    | none => before
    | some node =>
      let below := node.children.foldl (fun progress child =>
        if child < id then pool.search child progress else progress) (before.reach id)
      below.finish id
termination_by id
decreasing_by assumption

/-- Searches the nodes of a list and what is below them, one after the other. -/
def searchAll (pool : Pool) (ids : List NodeId) (before : Search) : Search :=
  ids.foldl (fun progress id => pool.search id progress) before

theorem searchAll_cons : pool.searchAll (id :: ids) before =
    pool.searchAll ids (pool.search id before) := rfl

/-- A node that was reached is not searched again. -/
theorem search_of_reached (known : id ∈ before.reached) : pool.search id before = before := by
  rw [search, if_pos known]

/-- A node that is reached for the first time is done after its children. -/
theorem WellFormed.search_of_new (wf : pool.WellFormed) (found : pool.node? id = some node)
    (new : id ∉ before.reached) :
    pool.search id before = (pool.searchAll node.children (before.reach id)).finish id := by
  have children : node.children = node.children.filter (· < id) := by
    rw [← wf.operands_eq found, operands, found]
    simp
  rw [search, if_neg new, found, searchAll, children, List.foldl_filter]
  simp only [decide_eq_true_eq]

/-! ### The visits of a search -/

/-- The nodes of a forest in the order in which a tour enters them. -/
def enteredOrder (pool : Pool) (stop : NodeId → Bool) (ids : List NodeId)
    (seen : Std.TreeSet NodeId) : List NodeId :=
  (pool.depthFirst stop ids seen).1.filterMap Visit.entered?

/-- A node that was seen is not entered again. -/
theorem enteredOrder_of_seen (known : seen.contains id = true) :
    pool.enteredOrder stop (id :: ids) seen = pool.enteredOrder stop ids seen := by
  rw [enteredOrder, depthFirst, if_pos known, enteredOrder]

/-- A new node is entered before what is below it, and that before the rest. -/
theorem enteredOrder_of_unseen (unknown : ¬seen.contains id = true) :
    pool.enteredOrder stop (id :: ids) seen =
      id :: (pool.enteredOrder stop (pool.expansion stop id) (seen.insert id) ++
        pool.enteredOrder stop ids
          (pool.depthFirst stop (pool.expansion stop id) (seen.insert id)).2) := by
  rw [enteredOrder, depthFirst, if_neg unknown]
  simp [enteredOrder, List.filterMap_cons]

/-- A search visits what a tour sees, and reaches and finishes nodes in the order in which a tour
enters and leaves them. -/
theorem WellFormed.searchAll_spec (wf : pool.WellFormed) (never : ∀ id, stop id = false)
    (present : ∀ id ∈ ids, pool.contains id = true)
    (visited : ∀ id, id ∈ before.reached ↔ id ∈ seen) :
    (pool.searchAll ids before).reached = before.reached ++ pool.enteredOrder stop ids seen ∧
      (pool.searchAll ids before).finished = before.finished ++ pool.leftOrder stop ids seen ∧
      ∀ id, id ∈ (pool.searchAll ids before).reached ↔ id ∈ (pool.depthFirst stop ids seen).2 := by
  fun_induction depthFirst pool stop ids seen generalizing before with
  | case1 seen =>
      rw [enteredOrder, leftOrder_nil, depthFirst, List.filterMap_nil, List.append_nil,
        List.append_nil]
      exact ⟨rfl, rfl, visited⟩
  | case2 first rest seen known ih =>
      have isReached : first ∈ before.reached :=
        (visited first).mpr (Std.TreeSet.mem_iff_contains.mpr known)
      have skipped : pool.searchAll (first :: rest) before = pool.searchAll rest before := by
        rw [searchAll_cons, search_of_reached isReached]
      rw [skipped, enteredOrder_of_seen known, leftOrder_of_seen known]
      exact ih (fun id member => present id (List.mem_cons_of_mem _ member)) visited
  | case3 first rest seen unknown below later ihBelow =>
      rename_i ihLater
      have isNew : first ∉ before.reached := fun member =>
        unknown (Std.TreeSet.mem_iff_contains.mp ((visited first).mp member))
      obtain ⟨⟨node, type⟩, isEntry⟩ :=
        Option.isSome_iff_exists.mp (present first List.mem_cons_self)
      have found := node?_eq_some_iff.mpr ⟨type, isEntry⟩
      have children : pool.expansion stop first = node.children := by
        rw [expansion, never, wf.operands_eq found]
        rfl
      -- Below the node, the search has reached it and the tour has seen it.
      have visitedFirst : ∀ id, id ∈ (before.reach first).reached ↔ id ∈ seen.insert first := by
        intro id
        rw [Search.reach, List.mem_append, List.mem_singleton, visited, Std.TreeSet.mem_insert,
          Std.LawfulEqCmp.compare_eq_iff_eq, or_comm, eq_comm]
      obtain ⟨reachedBelow, finishedBelow, visitedBelow⟩ :=
        ihBelow (fun _ => wf.contains_of_mem_expansion) visitedFirst
      have visitedDone : ∀ id, id ∈ ((pool.searchAll (pool.expansion stop first)
          (before.reach first)).finish first).reached ↔ id ∈ below.2 := visitedBelow
      obtain ⟨reachedLater, finishedLater, visitedLater⟩ :=
        ihLater (fun id member => present id (List.mem_cons_of_mem _ member)) visitedDone
      have searched : pool.searchAll (first :: rest) before = pool.searchAll rest
          ((pool.searchAll (pool.expansion stop first) (before.reach first)).finish first) := by
        rw [searchAll_cons, wf.search_of_new found isNew, children]
      rw [searched, enteredOrder_of_unseen unknown, leftOrder_of_unseen unknown]
      refine ⟨?_, ?_, visitedLater⟩
      · rw [reachedLater, Search.finish, reachedBelow, Search.reach]
        simp [below]
      · rw [finishedLater, Search.finish, finishedBelow, Search.reach]
        simp [below]

/-- The orders of a search from a root are those in which a tour enters and leaves. -/
theorem WellFormed.search_eq (wf : pool.WellFormed) (present : pool.contains root = true) :
    pool.search root {} =
      ⟨pool.enteredOrder (fun _ => false) [root] ∅, pool.leftOrder (fun _ => false) [root] ∅⟩ := by
  have nothing : ∀ id, id ∈ ({} : Search).reached ↔ id ∈ (∅ : Std.TreeSet NodeId) := by simp
  obtain ⟨reached, finished, -⟩ :=
    wf.searchAll_spec (fun _ => rfl) (List.forall_mem_singleton.mpr present) nothing
  exact congrArg₂ Search.mk reached finished

/-! ### The order of leaving -/

/-- The list has the nodes below a root, each once and after its children, and the root is last. -/
structure Topological (pool : Pool) (root : NodeId) (order : List NodeId) : Prop where
  nodup : order.Nodup
  complete : ∀ id, id ∈ order ↔ pool.Below root id
  childrenFirst : ∀ earlier id later, order = earlier ++ id :: later →
    ∀ child, pool.Child id child → child ∈ earlier
  rootLast : order.getLast? = some root

/-- What is below a node of the order stands before it or was done beforehand. -/
theorem ChildrenFirst.of_split {done : NodeId → Prop} {earlier later : List NodeId}
    (ordered : pool.ChildrenFirst stop done (earlier ++ id :: later)) :
    ∀ child ∈ pool.expansion stop id, child ∈ earlier ∨ done child := by
  induction earlier generalizing done with
  | nil =>
      intro child isChild
      exact Or.inr (ordered.1 child isChild)
  | cons first earlier ih =>
      intro child isChild
      rcases ih ordered.2 child isChild with between | rfl | isDone
      · exact Or.inl (List.mem_cons_of_mem _ between)
      · exact Or.inl List.mem_cons_self
      · exact Or.inr isDone

/-- The order of leaving is topological. -/
theorem WellFormed.topological_leftOrder (wf : pool.WellFormed) :
    pool.Topological root (pool.leftOrder (fun _ => false) [root] ∅) where
  nodup := nodup_leftOrder.1
  complete _ := wf.mem_leftOrder_iff
  childrenFirst := by
    rintro earlier id later split child ⟨node, found, member⟩
    have noneDone : ∀ known ∈ (∅ : Std.TreeSet NodeId), (∃ id ∈ [root], known ≤ id) → False :=
      fun known isSeen _ => absurd isSeen Std.TreeSet.not_mem_emptyc
    have ordered : pool.ChildrenFirst (fun _ => false) (fun _ => False)
        (pool.leftOrder (fun _ => false) [root] ∅) := (childrenFirst_leftOrder noneDone).1
    rw [split] at ordered
    refine (ordered.of_split child ?_).resolve_right fun never => never
    rw [expansion, if_neg Bool.false_ne_true, wf.operands_eq found]
    exact member
  rootLast := by
    rw [leftOrder_of_unseen (by simp), leftOrder_nil, List.getLast?_concat]

/-- A root that is not in the pool is named as unknown. -/
theorem postOrderUntil_of_missing (missing : pool.contains root = false) (stop : NodeId → Bool) :
    pool.postOrderUntil stop root = .error (.unknownNode root) := by
  rw [postOrderUntil, postOrderFrom, if_neg (by simp), missing]
  rfl

/-- A root that is not in the pool is named as unknown when everything is listed. -/
theorem postOrder_of_missing (missing : pool.contains root = false) :
    pool.postOrder root = .error (.unknownNode root) :=
  postOrderUntil_of_missing missing _

/-- Leaving is a topological order, the one in which a recursive search is done with the nodes. A
root that is not in the pool is named as unknown. -/
theorem postOrder_topological (reachable : pool.Reachable) (root : NodeId) :
    (pool.contains root = true → ∃ order, pool.postOrder root = .ok order ∧
      order = (pool.search root {}).finished ∧ pool.Topological root order) ∧
    (pool.contains root = false → pool.postOrder root = .error (.unknownNode root)) := by
  have wf := reachable.wellFormed
  refine ⟨fun present => ?_, postOrder_of_missing⟩
  refine ⟨_, wf.postOrder_eq present, ?_, wf.topological_leftOrder⟩
  rw [wf.search_eq present]

/-- A sum in which the variables are shared, and a node that is not below it. -/
def crossed : Pool :=
  (empty 0).afterCalls [.var .float "x", .var .float "y", .binary 1 .sub 0, .unary .abs 0,
    .binary 2 .mul 3, .binary 4 .add 1, .unary .neg 1]

/-- The order for the shared variables below node 5, and the refusal of node 7. -/
theorem postOrder_topological_crossed :
    crossed.postOrder 5 = .ok [1, 0, 2, 3, 4, 5] ∧
      (crossed.search 5 {}).finished = [1, 0, 2, 3, 4, 5] ∧
      crossed.Topological 5 [1, 0, 2, 3, 4, 5] ∧ crossed.postOrder 7 = .error (.unknownNode 7) := by
  have reachable : crossed.Reachable := ⟨0, _, rfl⟩
  have present : crossed.contains 5 = true := by decide +kernel
  have missing : crossed.contains 7 = false := by decide +kernel
  have searched : (crossed.search 5 {}).finished = [1, 0, 2, 3, 4, 5] := by decide +kernel
  obtain ⟨order, left, same, topological⟩ := (postOrder_topological reachable 5).1 present
  rw [searched] at same
  subst same
  exact ⟨left, searched, topological, (postOrder_topological reachable 7).2 missing⟩

/-! ### The order of entering -/

/-- Whether a node of the pool has a property. -/
def satisfies (pool : Pool) (keep : Node → Bool) (id : NodeId) : Bool :=
  (pool.node? id).any keep

/-- Entering is the order in which a recursive search reaches the nodes. -/
theorem WellFormed.preOrder_eq_reached (wf : pool.WellFormed)
    (present : pool.contains root = true) :
    pool.preOrder root = .ok (pool.search root {}).reached := by
  rw [preOrder_eq_tour, wf.tour_eq present, wf.search_eq present]
  rfl

/-- A search reaches every node once. -/
theorem WellFormed.nodup_reached (wf : pool.WellFormed) (present : pool.contains root = true) :
    (pool.search root {}).reached.Nodup := by
  have same := (wf.preOrder_eq_reached present).symm.trans (wf.preOrder_eq present)
  rw [Except.ok.inj same]
  exact List.nodup_eraseDups _

/-- A collection succeeds with the nodes that a search reaches and that have the property. -/
theorem WellFormed.collect_eq_filter (wf : pool.WellFormed) (present : pool.contains root = true)
    (keep : Node → Bool) :
    pool.collect root keep = .ok ((pool.search root {}).reached.filter (pool.satisfies keep)) := by
  rw [collect_eq_preOrder, wf.preOrder_eq_reached present]
  rfl

/-- What is collected is what is below the root and has the property. -/
theorem WellFormed.mem_collect_iff (wf : pool.WellFormed) {keep : Node → Bool}
    (collected : pool.collect root keep = .ok order) : id ∈ order ↔
      pool.Below root id ∧ ∃ node, pool.node? id = some node ∧ keep node = true := by
  rw [collect_eq_preOrder] at collected
  obtain ⟨entered, isEntered, rfl⟩ := exists_of_map_ok collected
  rw [List.mem_filter, Option.any_eq_true, wf.mem_preOrder_iff isEntered]

/-- What is collected for a qualifier is what is below the root and qualified in that way. -/
theorem WellFormed.mem_qualifiedAs_iff (wf : pool.WellFormed) {kind : Qualifier}
    (collected : pool.qualifiedAs root kind = .ok order) :
    id ∈ order ↔ pool.Below root id ∧ ∃ inner, pool.node? id = some (.qualified kind inner) := by
  rw [wf.mem_collect_iff collected]
  refine and_congr_right fun _ => ⟨?_, ?_⟩
  · rintro ⟨node, found, isKind⟩
    obtain ⟨inner, rfl⟩ := Node.eq_qualified_of_qualifier? (of_decide_eq_true isKind)
    exact ⟨inner, found⟩
  · rintro ⟨inner, found⟩
    exact ⟨_, found, decide_eq_true rfl⟩

/-- Collecting keeps, of the nodes in the order in which a recursive search reaches them, those that
have a property. So each of them is listed once, and the nodes that have two properties are listed
in the same order for both. -/
theorem collect_searchOrder (reachable : pool.Reachable) (present : pool.contains root = true)
    (keep : Node → Bool) :
    ∃ kept, pool.collect root keep = .ok kept ∧
      kept = (pool.search root {}).reached.filter (pool.satisfies keep) ∧ kept.Nodup ∧
      (∀ id, id ∈ kept ↔
        pool.Below root id ∧ ∃ node, pool.node? id = some node ∧ keep node = true) ∧
      ∀ other others, pool.collect root other = .ok others →
        kept.filter (pool.satisfies other) = others.filter (pool.satisfies keep) := by
  have wf := reachable.wellFormed
  have collected := wf.collect_eq_filter present keep
  refine ⟨_, collected, rfl, (wf.nodup_reached present).filter _,
    fun id => wf.mem_collect_iff collected, ?_⟩
  intro other others collectedOthers
  rw [wf.collect_eq_filter present other] at collectedOthers
  cases collectedOthers
  rw [List.filter_filter, List.filter_filter]
  simp only [Bool.and_comm]

/-- Everything below node 5, and the operations among it. -/
theorem collect_searchOrder_crossed :
    let isOperation : Node → Bool := fun node => node.children.length = 2
    (crossed.search 5 {}).reached = [5, 4, 2, 1, 0, 3] ∧
      crossed.collect 5 (fun _ => true) = .ok [5, 4, 2, 1, 0, 3] ∧
      crossed.collect 5 isOperation = .ok [5, 4, 2] ∧
      [5, 4, 2, 1, 0, 3].filter (crossed.satisfies isOperation) = [5, 4, 2] := by
  intro isOperation
  have reachable : crossed.Reachable := ⟨0, _, rfl⟩
  have present : crossed.contains 5 = true := by decide +kernel
  have searched : (crossed.search 5 {}).reached = [5, 4, 2, 1, 0, 3] := by decide +kernel
  have filtered : [5, 4, 2, 1, 0, 3].filter (crossed.satisfies isOperation) = [5, 4, 2] := by
    decide +kernel
  obtain ⟨kept, collected, same, -⟩ := collect_searchOrder reachable present isOperation
  obtain ⟨all, listed, sameAll, -⟩ := collect_searchOrder reachable present fun _ => true
  rw [searched, filtered] at same
  have everything : [5, 4, 2, 1, 0, 3].filter (crossed.satisfies fun _ => true) =
      [5, 4, 2, 1, 0, 3] := by decide +kernel
  rw [searched, everything] at sameAll
  exact ⟨searched, sameAll ▸ listed, same ▸ collected, filtered⟩

end Pool

end Shading
