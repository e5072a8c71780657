import Shading.Pool.Collection
import Shading.Proofs.Pool.Unfolding

/-!
# Collection in well-formed pools

Marking marks a node together with everything below it, so what a sweep keeps is closed under
children and the pool stays well-formed. No identity is used again: what an identity stands for
later, it stood for before (`Pool.Persists`).
-/

namespace Shading.Pool

variable {pool before middle after : Pool} {id root : NodeId}

/-- Nodes are added or removed, and no identity gets another node. -/
structure Persists (before after : Pool) : Prop where
  size : before.slots.size ≤ after.slots.size
  entry : ∀ id < before.slots.size, ∀ entry, after.entry? id = some entry →
    before.entry? id = some entry

namespace Persists

theorem refl (pool : Pool) : pool.Persists pool :=
  ⟨Nat.le_refl _, fun _ _ _ found => found⟩

theorem trans (first : before.Persists middle) (second : middle.Persists after) :
    before.Persists after where
  size := Nat.le_trans first.size second.size
  entry id inside entry found :=
    first.entry id inside entry (second.entry id (Nat.lt_of_lt_of_le inside first.size) entry found)

/-- Identities persist when nodes are only added. -/
theorem of_extends (extension : before.Extends after) : before.Persists after where
  size := extension.size
  entry id inside entry found := by rwa [extension.entry id inside] at found

/-- A node that is still there had the same structure before. -/
theorem node?_eq_some {node : Node} (persists : before.Persists after)
    (inside : id < before.slots.size) (found : after.node? id = some node) :
    before.node? id = some node := by
  obtain ⟨type, present⟩ := node?_eq_some_iff.mp found
  exact node?_eq_some_iff.mpr ⟨type, persists.entry id inside _ present⟩

/-- An expression that is still there is still an expression. -/
theorem isSome_type? (persists : before.Persists after) (typed : (before.type? id).isSome)
    (present : after.contains id = true) : (after.type? id).isSome := by
  obtain ⟨type, typeEq⟩ := Option.isSome_iff_exists.mp typed
  obtain ⟨entry, found⟩ := Option.isSome_iff_exists.mp present
  have same := persists.entry id (lt_size_of_type? typeEq) entry found
  rw [Pool.type?, same] at typed
  rw [Pool.type?, found]
  exact typed

/-- A node that is still there is the same. -/
theorem node?_eq (persists : before.Persists after) {node : Node}
    (found : before.node? id = some node) (present : after.contains id = true) :
    after.node? id = some node := by
  obtain ⟨entry, isEntry⟩ := Option.isSome_iff_exists.mp present
  have isNode : after.node? id = some entry.node := node?_eq_some_iff.mpr ⟨entry.type, isEntry⟩
  have same := persists.node?_eq_some (lt_size_of_node? found) isNode
  rw [found] at same
  rw [isNode, ← same]

/-- An expression that is still there has the same tree. -/
theorem tree?_eq (persists : before.Persists after) (wf : before.WellFormed)
    (wfAfter : after.WellFormed) {tree : Tree} (unfolded : before.tree? id = some tree)
    (present : after.contains id = true) : after.tree? id = some tree := by
  induction tree using Tree.induction_on_children generalizing id with
  | step tree ih =>
      obtain ⟨node, found, shown⟩ := wf.tree?_eq_some_iff.mp unfolded
      have kept := persists.node?_eq found present
      refine wfAfter.tree?_of_shows kept (shown.transfer ?_)
      intro child member small isSmall smallTree
      exact ih small isSmall smallTree (wfAfter.child_contains kept member)

end Persists

/-! ### Marking -/

/-- What occurs in a forest of nodes of the pool is in the pool. -/
theorem WellFormed.contains_of_mem_occurrences (wf : pool.WellFormed) {stop : NodeId → Bool}
    {ids : List NodeId} (present : ∀ id ∈ ids, pool.contains id = true)
    (member : id ∈ pool.occurrences stop ids) : pool.contains id = true := by
  fun_induction occurrences pool stop ids with
  | case1 => cases member
  | case2 first rest ihBelow ihRest =>
      rcases List.mem_cons.mp member with rfl | later
      · exact present id List.mem_cons_self
      · rcases List.mem_append.mp later with below | isRest
        · exact ihBelow (fun child isChild => wf.contains_of_mem_expansion isChild) below
        · exact ihRest (fun other isOther => present other (List.mem_cons_of_mem _ isOther)) isRest

/-- Everything that a traversal enters is in the pool, with everything below it. -/
theorem WellFormed.closed_preOrder (wf : pool.WellFormed) {order : List NodeId}
    (entered : pool.preOrder root = .ok order) :
    ∀ id ∈ order, ∃ entry, pool.entry? id = some entry ∧
      ∀ child ∈ entry.node.children, child ∈ order := by
  have present := contains_of_preOrder entered
  rw [wf.preOrder_eq present] at entered
  cases entered
  intro id member
  rw [List.mem_eraseDups] at member
  have inPool := wf.contains_of_mem_occurrences (by simpa using present) member
  obtain ⟨entry, found⟩ := Option.isSome_iff_exists.mp inPool
  have isNode : pool.node? id = some entry.node := node?_eq_some_iff.mpr ⟨entry.type, found⟩
  refine ⟨entry, found, fun child isChild => List.mem_eraseDups.mpr ?_⟩
  apply mem_occurrences_of_mem_expansion member
  rw [expansion, if_neg (by simp), wf.operands_eq isNode]
  exact isChild

/-- Marks that are closed under children keep a pool well-formed. -/
theorem WellFormed.with_marks (wf : pool.WellFormed) {marks : Std.TreeSet NodeId}
    (closed : ∀ id ∈ marks, ∃ entry, pool.entry? id = some entry ∧
      ∀ child ∈ entry.node.children, child ∈ marks) :
    ({ pool with marked := marks } : Pool).WellFormed where
  admitted id entry found :=
    (wf.admitted id entry found).of_type?_eq fun _ _ => rfl
  older := wf.older
  indexed := wf.indexed
  marked := closed

/-- Changing the marks changes no node. -/
theorem extends_marks (pool : Pool) (marks : Std.TreeSet NodeId) :
    pool.Extends { pool with marked := marks } where
  session := rfl
  size := Nat.le_refl _
  entry _ _ := rfl
  filled _ new inside := absurd inside (Nat.not_lt.mpr new)

/-- Marking keeps a pool well-formed and changes no node, whether or not it fails. -/
theorem WellFormed.mark (wf : pool.WellFormed) (root : NodeId) :
    (pool.leftBy (mark root)).WellFormed ∧ pool.Extends (pool.leftBy (mark root)) := by
  unfold leftBy Pool.mark
  cases entered : pool.preOrder root with
  | error cause => exact ⟨wf, Extends.refl pool⟩
  | ok order =>
      refine ⟨wf.with_marks ?_, pool.extends_marks _⟩
      intro id member
      rw [Std.TreeSet.mem_insertMany_list, List.contains_iff_mem] at member
      rcases member with old | new
      · obtain ⟨entry, found, closed⟩ := wf.marked id old
        refine ⟨entry, found, fun child isChild => ?_⟩
        exact Std.TreeSet.mem_insertMany_list.mpr (Or.inl (closed child isChild))
      · obtain ⟨entry, found, closed⟩ := wf.closed_preOrder entered id new
        refine ⟨entry, found, fun child isChild => Std.TreeSet.mem_insertMany_list.mpr ?_⟩
        exact Or.inr (List.contains_iff_mem.mpr (closed child isChild))

/-! ### Sweeping -/

/-- A sweep keeps the entries that are marked and no others. -/
theorem entry?_swept (pool : Pool) (id : NodeId) :
    Pool.entry? pool.swept id = if id ∈ pool.marked then pool.entry? id else none := by
  unfold Pool.entry? swept
  rw [Array.getElem?_mapIdx]
  cases pool.slots[id]? with
  | none => simp
  | some slot =>
      by_cases marked : id ∈ pool.marked
      · simp [marked]
      · simp [marked]

/-- An entry that is left after a sweep was marked and was there before. -/
theorem entry?_of_swept {entry : Entry} (found : Pool.entry? pool.swept id = some entry) :
    id ∈ pool.marked ∧ pool.entry? id = some entry := by
  rw [entry?_swept] at found
  exact Option.ite_none_right_eq_some.mp found

/-- A sweep keeps the structures that are marked and no others. -/
theorem node?_swept (pool : Pool) (id : NodeId) :
    pool.swept.node? id = if id ∈ pool.marked then pool.node? id else none := by
  rw [Pool.node?, entry?_swept, Pool.node?]
  split <;> rfl

/-- Identities persist through a sweep. -/
theorem persists_swept (pool : Pool) : pool.Persists pool.swept where
  size := Nat.le_of_eq (by rw [swept, Array.size_mapIdx])
  entry _ _ _ found := (entry?_of_swept found).2

/-- A sweep keeps a pool well-formed, because what is marked is closed under children. -/
theorem WellFormed.swept (wf : pool.WellFormed) : pool.swept.WellFormed where
  admitted id entry found := by
    obtain ⟨marked, present⟩ := entry?_of_swept found
    obtain ⟨same, sameFound, closed⟩ := wf.marked id marked
    rw [present] at sameFound
    cases sameFound
    refine (wf.admitted id entry present).of_type?_eq fun child member => ?_
    rw [Pool.type?, Pool.type?, entry?_swept, if_pos (closed child member)]
  older id entry found := wf.older id entry (entry?_of_swept found).2
  indexed node id := by
    rw [node?_swept]
    change (pool.index.filter fun _ id => pool.marked.contains id)[node]? = some id ↔ _
    rw [Std.TreeMap.getElem?_filter', Option.filter_eq_some_iff, wf.indexed,
      ← Std.TreeSet.mem_iff_contains, Option.ite_none_right_eq_some, and_comm]
  marked id member := absurd member Std.TreeSet.not_mem_emptyc

end Shading.Pool
