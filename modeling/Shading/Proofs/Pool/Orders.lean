import Shading.Proofs.Pool.Collection

/-!
# What the traversal orders list

The order of entering and the order of leaving both list what is below the root, and nothing else.
Leaving lists every node once: a forest leaves the nodes that it sees and that were not seen
before.
-/

namespace Shading.Pool

variable {pool : Pool} {stop : NodeId → Bool} {id root child : NodeId} {ids order : List NodeId}
  {seen : Std.TreeSet NodeId}

/-- Operands are children. -/
theorem child_of_mem_operands (member : child ∈ pool.operands id) : pool.Child id child := by
  unfold operands at member
  split at member
  next node found => exact ⟨node, found, (List.mem_filter.mp member).1⟩
  next => cases member

/-- What occurs in a forest is below one of its roots. -/
theorem exists_below_of_mem_occurrences (member : id ∈ pool.occurrences stop ids) :
    ∃ root ∈ ids, pool.Below root id := by
  fun_induction occurrences pool stop ids with
  | case1 => cases member
  | case2 first rest ihBelow ihRest =>
      rcases List.mem_cons.mp member with rfl | later
      · exact ⟨id, List.mem_cons_self, .refl⟩
      · rcases List.mem_append.mp later with inside | isRest
        · obtain ⟨child, isChild, below⟩ := ihBelow inside
          have edge : pool.Child first child := by
            unfold expansion at isChild
            split at isChild
            · cases isChild
            · exact child_of_mem_operands isChild
          exact ⟨first, List.mem_cons_self, .head edge below⟩
        · obtain ⟨root, isRoot, below⟩ := ihRest isRest
          exact ⟨root, List.mem_cons_of_mem _ isRoot, below⟩

/-- A tree of the forest has exactly what is below its root. -/
theorem WellFormed.mem_occurrences_iff (wf : pool.WellFormed) :
    id ∈ pool.occurrences (fun _ => false) [root] ↔ pool.Below root id := by
  constructor
  · intro member
    obtain ⟨same, isRoot, below⟩ := exists_below_of_mem_occurrences member
    exact List.mem_singleton.mp isRoot ▸ below
  · intro below
    induction below with
    | refl => exact mem_occurrences_of_mem List.mem_cons_self
    | tail _ isChild ih =>
        obtain ⟨node, found, member⟩ := isChild
        refine mem_occurrences_of_mem_expansion ih ?_
        rw [expansion, if_neg (by simp), wf.operands_eq found]
        exact member

/-- A traversal enters exactly what is below its root. -/
theorem WellFormed.mem_preOrder_iff (wf : pool.WellFormed)
    (entered : pool.preOrder root = .ok order) : id ∈ order ↔ pool.Below root id := by
  rw [wf.preOrder_eq (contains_of_preOrder entered)] at entered
  cases entered
  rw [List.mem_eraseDups, wf.mem_occurrences_iff]

/-! ### The order of leaving -/

/-- What a forest leaves is what it adds to the nodes seen. -/
theorem mem_depthFirst_iff :
    id ∈ (pool.depthFirst stop ids seen).2 ↔ id ∈ seen ∨ id ∈ pool.leftOrder stop ids seen := by
  refine ⟨seen_or_left, fun member => ?_⟩
  fun_induction depthFirst pool stop ids seen with
  | case1 seen =>
      rw [leftOrder_nil] at member
      exact member.resolve_right List.not_mem_nil
  | case2 first rest seen known ih =>
      rw [leftOrder_of_seen known] at member
      exact ih member
  | case3 first rest seen unknown below later ihBelow ihLater =>
      rw [leftOrder_of_unseen unknown, List.mem_append, List.mem_cons] at member
      rcases member with old | isBelow | rfl | isLater
      · exact ihLater (Or.inl (ihBelow (Or.inl (Std.TreeSet.mem_insert.mpr (Or.inr old)))))
      · exact ihLater (Or.inl (ihBelow (Or.inr isBelow)))
      · exact ihLater (Or.inl (ihBelow (Or.inl Std.TreeSet.mem_insert_self)))
      · exact ihLater (Or.inr isLater)

/-- What was seen before is not left again, and nothing is left twice. -/
theorem nodup_leftOrder :
    (pool.leftOrder stop ids seen).Nodup ∧ ∀ id ∈ pool.leftOrder stop ids seen, id ∉ seen := by
  fun_induction depthFirst pool stop ids seen with
  | case1 seen =>
      rw [leftOrder_nil]
      exact ⟨.nil, fun id member => absurd member List.not_mem_nil⟩
  | case2 first rest seen known ih =>
      rw [leftOrder_of_seen known]
      exact ih
  | case3 first rest seen unknown below later ihBelow ihLater =>
      rw [leftOrder_of_unseen unknown]
      have notSeen : first ∉ seen := fun member =>
        unknown (Std.TreeSet.mem_iff_contains.mp member)
      have seenBelow : ∀ id, id ∈ seen.insert first ∨
          id ∈ pool.leftOrder stop (pool.expansion stop first) (seen.insert first) →
            id ∈ below.2 := fun id => mem_depthFirst_iff.mpr
      refine ⟨List.nodup_append.mpr ⟨ihBelow.1, List.nodup_cons.mpr ⟨?_, ihLater.1⟩, ?_⟩, ?_⟩
      · intro again
        exact ihLater.2 first again (seenBelow first (Or.inl Std.TreeSet.mem_insert_self))
      · rintro id isBelow other isLater rfl
        rcases List.mem_cons.mp isLater with rfl | again
        · exact ihBelow.2 id isBelow Std.TreeSet.mem_insert_self
        · exact ihLater.2 id again (seenBelow id (Or.inr isBelow))
      · intro id member old
        have still : id ∈ seen.insert first := Std.TreeSet.mem_insert.mpr (Or.inr old)
        rcases List.mem_append.mp member with isBelow | last
        · exact ihBelow.2 id isBelow still
        · rcases List.mem_cons.mp last with rfl | isLater
          · exact notSeen old
          · exact ihLater.2 id isLater (seenBelow id (Or.inl still))

/-- Exactly what is below the root is left. -/
theorem WellFormed.mem_leftOrder_iff (wf : pool.WellFormed) :
    id ∈ pool.leftOrder (fun _ => false) [root] ∅ ↔ pool.Below root id := by
  have settled : pool.Settled (fun _ => false) ∅ [root] := by
    intro known member
    exact absurd member Std.TreeSet.not_mem_emptyc
  rw [← wf.mem_occurrences_iff]
  refine ⟨mem_occurrences_of_left, fun member => ?_⟩
  have isSeen := (settled.mem_depthFirst id).mpr (Or.inr member)
  exact (seen_or_left isSeen).resolve_left Std.TreeSet.not_mem_emptyc

/-- The order of leaving everything is the one of the recursion. -/
theorem WellFormed.postOrder_eq (wf : pool.WellFormed) (present : pool.contains root = true) :
    pool.postOrder root = .ok (pool.leftOrder (fun _ => false) [root] ∅) :=
  wf.postOrderUntil_eq present _

/-- The order of leaving exists only below a node of the pool. -/
theorem contains_of_postOrder (left : pool.postOrder root = .ok order) :
    pool.contains root = true := by
  rw [postOrder, postOrderUntil_eq_tour] at left
  obtain ⟨visits, toured, -⟩ := exists_of_map_ok left
  exact contains_of_tour toured

/-- A traversal leaves exactly what is below its root. -/
theorem WellFormed.mem_postOrder_iff (wf : pool.WellFormed)
    (left : pool.postOrder root = .ok order) : id ∈ order ↔ pool.Below root id := by
  rw [wf.postOrder_eq (contains_of_postOrder left)] at left
  cases left
  exact wf.mem_leftOrder_iff

end Shading.Pool
