import Mathlib.Tactic.Tauto
import Shading.Proofs.Pool.Tours
import Shading.Proofs.Pool.WellFormed

/-!
# Tours of well-formed pools

A tour keeps its pending visits in a list. The same visits are made by a plain recursion over the
nodes of a forest that passes on the nodes already seen (`Pool.depthFirst`). From the recursion
follow the two orders: entering gives every node once, where it is met first, and leaving gives
every node after its operands.

The recursion meets a node again only when everything below it has been seen. A node that is seen
but not yet left is above the current one, and so it is younger; the statements below speak of the
seen nodes that are not younger than the forest.
-/

namespace Shading

namespace Pool

variable {pool : Pool} {stop : NodeId → Bool}

/-- What is visited below a node is some of its operands. -/
theorem expansion_sublist (pool : Pool) (stop : NodeId → Bool) (id : NodeId) :
    (pool.expansion stop id).Sublist (pool.operands id) := by
  unfold expansion
  split
  · exact List.nil_sublist _
  · exact List.Sublist.refl _

/-- What is visited below a node is older than the node. -/
theorem lt_of_mem_expansion {id child : NodeId} (member : child ∈ pool.expansion stop id) :
    child < id :=
  lt_of_mem_operands ((pool.expansion_sublist stop id).mem member)

/-- There is less to visit below the first node of a forest than in the forest. -/
theorem forestWeight_expansion (pool : Pool) (stop : NodeId → Bool) (id : NodeId)
    (rest : List NodeId) :
    pool.forestWeight (pool.expansion stop id) < pool.forestWeight (id :: rest) := by
  have less := pool.forestWeight_expand id (pool.expansion_sublist stop id) rest
  rw [forestWeight_append] at less
  omega

/-- The visits to a forest, given the nodes seen before, and the nodes seen after. -/
def depthFirst (pool : Pool) (stop : NodeId → Bool) :
    List NodeId → Std.TreeSet NodeId → List Visit × Std.TreeSet NodeId
  | [], seen => ([], seen)
  | id :: rest, seen =>
    if seen.contains id then pool.depthFirst stop rest seen
    else
      let below := pool.depthFirst stop (pool.expansion stop id) (seen.insert id)
      let later := pool.depthFirst stop rest below.2
      (.enter id :: (below.1 ++ .leave id :: later.1), later.2)
termination_by ids => pool.forestWeight ids
decreasing_by
  · exact pool.forestWeight_rest id rest
  · exact pool.forestWeight_expansion stop id rest
  · exact pool.forestWeight_rest id rest

/-- The nodes of a forest in each of their places, a node before what is below it. -/
def occurrences (pool : Pool) (stop : NodeId → Bool) : List NodeId → List NodeId
  | [] => []
  | id :: rest =>
    id :: (pool.occurrences stop (pool.expansion stop id) ++ pool.occurrences stop rest)
termination_by ids => pool.forestWeight ids
decreasing_by
  · exact pool.forestWeight_expansion stop id rest
  · exact pool.forestWeight_rest id rest

/-! ### Tours as recursion -/

/-- In a well-formed pool every child is older, so the operands are all children. -/
theorem WellFormed.operands_eq (wf : pool.WellFormed) {id : NodeId} {node : Node}
    (found : pool.node? id = some node) : pool.operands id = node.children := by
  unfold operands
  rw [found]
  apply List.filter_eq_self.mpr
  intro child member
  exact decide_eq_true (wf.child_lt found member)

/-- Operands are expressions. -/
theorem WellFormed.type?_of_mem_operands (wf : pool.WellFormed) {id child : NodeId}
    (member : child ∈ pool.operands id) : (pool.type? child).isSome := by
  cases found : pool.node? id with
  | none =>
      rw [operands, found] at member
      cases member
  | some node =>
      rw [wf.operands_eq found] at member
      exact wf.child_type? found member

/-- What is visited below a node is in the pool. -/
theorem WellFormed.contains_of_mem_expansion (wf : pool.WellFormed) {id child : NodeId}
    (member : child ∈ pool.expansion stop id) : pool.contains child = true := by
  have isOperand := (pool.expansion_sublist stop id).mem member
  obtain ⟨type, typeEq⟩ := Option.isSome_iff_exists.mp (wf.type?_of_mem_operands isOperand)
  exact contains_of_type? typeEq

/-- A list of pending visits is worked off as the recursion does. -/
theorem WellFormed.tourFrom_eq (wf : pool.WellFormed) (stop : NodeId → Bool) (ids : List NodeId)
    (seen : Std.TreeSet NodeId) (present : ∀ id ∈ ids, pool.contains id = true)
    (pending made : List Visit) :
    pool.tourFrom stop (ids.map .enter ++ pending) seen made =
      pool.tourFrom stop pending (pool.depthFirst stop ids seen).2
        ((pool.depthFirst stop ids seen).1.reverse ++ made) := by
  fun_induction depthFirst pool stop ids seen generalizing pending made with
  | case1 seen => rfl
  | case2 id rest seen known ih =>
      rw [List.map_cons, List.cons_append, tourFrom, if_pos known]
      exact ih (fun later member => present later (List.mem_cons_of_mem _ member)) pending made
  | case3 id rest seen unknown below later ihBelow ihLater =>
      have inside := present id List.mem_cons_self
      have presentRest : ∀ later ∈ rest, pool.contains later = true :=
        fun later member => present later (List.mem_cons_of_mem _ member)
      rw [List.map_cons, List.cons_append, tourFrom_enter unknown inside,
        ihBelow (fun _ member => wf.contains_of_mem_expansion member), tourFrom,
        ihLater presentRest]
      simp [below, later, List.reverse_append]

/-- The tour below a node of the pool succeeds with the visits of the recursion. -/
theorem WellFormed.tour_eq (wf : pool.WellFormed) {root : NodeId}
    (present : pool.contains root = true) :
    pool.tour stop root = .ok (pool.depthFirst stop [root] ∅).1 := by
  have worked := wf.tourFrom_eq stop [root] ∅ (by simpa using present) [] []
  rw [List.append_nil, List.append_nil] at worked
  change pool.tourFrom stop ([root].map .enter) ∅ [] = _
  rw [worked, tourFrom, List.reverse_reverse]

/-! ### The order of entering -/

/-- Below the seen nodes that are not younger than a forest everything is seen. -/
def Settled (pool : Pool) (stop : NodeId → Bool) (seen : Std.TreeSet NodeId)
    (ids : List NodeId) : Prop :=
  ∀ known ∈ seen, (∃ id ∈ ids, known ≤ id) → ∀ child ∈ pool.expansion stop known, child ∈ seen

/-- The roots of a forest occur in it. -/
theorem mem_occurrences_of_mem {ids : List NodeId} {id : NodeId} (member : id ∈ ids) :
    id ∈ pool.occurrences stop ids := by
  induction ids with
  | nil => cases member
  | cons first rest ih =>
      rw [occurrences]
      rcases List.mem_cons.mp member with rfl | later
      · exact List.mem_cons_self
      · exact List.mem_cons_of_mem _ (List.mem_append_right _ (ih later))

/-- What is visited below a node of a forest occurs in the forest. -/
theorem mem_occurrences_of_mem_expansion {ids : List NodeId} {id child : NodeId}
    (member : id ∈ pool.occurrences stop ids) (below : child ∈ pool.expansion stop id) :
    child ∈ pool.occurrences stop ids := by
  fun_induction occurrences pool stop ids with
  | case1 => cases member
  | case2 first rest ihBelow ihRest =>
      refine List.mem_cons_of_mem _ (List.mem_append.mpr ?_)
      rcases List.mem_cons.mp member with rfl | later
      · exact Or.inl (mem_occurrences_of_mem below)
      · exact (List.mem_append.mp later).imp ihBelow ihRest

namespace Settled

variable {seen after : Std.TreeSet NodeId} {id : NodeId} {ids rest : List NodeId}

/-- What is settled for a forest is settled for the rest of it. -/
theorem tail (settled : pool.Settled stop seen (id :: rest)) : pool.Settled stop seen rest := by
  rintro known member ⟨later, isLater, le⟩
  exact settled known member ⟨later, List.mem_cons_of_mem _ isLater, le⟩

/-- What is settled for a forest is settled for the older forest below its first node. -/
theorem below (settled : pool.Settled stop seen (id :: rest)) :
    pool.Settled stop seen (pool.expansion stop id) := by
  rintro known member ⟨child, isChild, le⟩
  have older : known < id := Nat.lt_of_le_of_lt le (lt_of_mem_expansion isChild)
  exact settled known member ⟨id, List.mem_cons_self, Nat.le_of_lt older⟩

/-- A node that is entered is younger than the forest below it. -/
theorem entered (settled : pool.Settled stop seen (id :: rest)) :
    pool.Settled stop (seen.insert id) (pool.expansion stop id) := by
  rintro known member ⟨child, isChild, le⟩ below isBelow
  have older : known < id := Nat.lt_of_le_of_lt le (lt_of_mem_expansion isChild)
  rcases Std.TreeSet.mem_insert.mp member with same | old
  · have : id = known := Std.LawfulEqCmp.eq_of_compare same
    exact absurd older (this ▸ Nat.lt_irrefl _)
  · exact Std.TreeSet.mem_insert.mpr
      (Or.inr (settled known old ⟨id, List.mem_cons_self, Nat.le_of_lt older⟩ below isBelow))

/-- A node that is left is settled together with everything below it. -/
theorem left (settled : pool.Settled stop seen (id :: rest))
    (mem : ∀ other, other ∈ after ↔
      other ∈ seen.insert id ∨ other ∈ pool.occurrences stop (pool.expansion stop id)) :
    pool.Settled stop after rest := by
  rintro known member ⟨later, isLater, le⟩ child isChild
  apply (mem child).mpr
  rcases (mem known).mp member with old | below
  · rcases Std.TreeSet.mem_insert.mp old with same | older
    · cases Std.LawfulEqCmp.eq_of_compare same
      exact Or.inr (mem_occurrences_of_mem isChild)
    · refine Or.inl (Std.TreeSet.mem_insert.mpr (Or.inr ?_))
      exact settled known older ⟨later, List.mem_cons_of_mem _ isLater, le⟩ child isChild
  · exact Or.inr (mem_occurrences_of_mem_expansion below isChild)

/-- If the roots of a settled forest are seen, so is the whole forest. -/
theorem occurrences_subset (settled : pool.Settled stop seen ids)
    (known : ∀ id ∈ ids, id ∈ seen) : ∀ id ∈ pool.occurrences stop ids, id ∈ seen := by
  fun_induction occurrences pool stop ids with
  | case1 => nofun
  | case2 first rest ihBelow ihRest =>
      have firstKnown := known first List.mem_cons_self
      intro id member
      rcases List.mem_cons.mp member with rfl | later
      · exact firstKnown
      · rcases List.mem_append.mp later with below | isRest
        · refine ihBelow settled.below ?_ id below
          exact settled first firstKnown ⟨first, List.mem_cons_self, Nat.le_refl first⟩
        · exact ihRest settled.tail
            (fun other isOther => known other (List.mem_cons_of_mem _ isOther)) id isRest

/-- Everything below a node that is met again is seen. -/
theorem covered (settled : pool.Settled stop seen (id :: rest)) (known : id ∈ seen) :
    ∀ below ∈ pool.occurrences stop (pool.expansion stop id), below ∈ seen :=
  settled.below.occurrences_subset
    (settled id known ⟨id, List.mem_cons_self, Nat.le_refl id⟩)

/-- A tour of a forest sees the nodes of the forest, and nothing else. -/
theorem mem_depthFirst (settled : pool.Settled stop seen ids) :
    ∀ id, id ∈ (pool.depthFirst stop ids seen).2 ↔
      id ∈ seen ∨ id ∈ pool.occurrences stop ids := by
  fun_induction depthFirst pool stop ids seen with
  | case1 seen => simp [occurrences]
  | case2 first rest seen known ih =>
      have firstKnown := Std.TreeSet.mem_iff_contains.mpr known
      have covered := settled.covered firstKnown
      intro id
      rw [ih settled.tail, occurrences, List.mem_cons, List.mem_append]
      constructor
      · exact Or.imp_right fun later => Or.inr (Or.inr later)
      · rintro (old | rfl | below | later)
        · exact Or.inl old
        · exact Or.inl firstKnown
        · exact Or.inl (covered id below)
        · exact Or.inr later
  | case3 first rest seen unknown below later ihBelow ihLater =>
      have memBelow := ihBelow settled.entered
      intro id
      rw [ihLater (settled.left memBelow), memBelow, occurrences, List.mem_cons, List.mem_append,
        Std.TreeSet.mem_insert, Std.LawfulEqCmp.compare_eq_iff_eq, eq_comm]
      tauto

end Settled

theorem contains_insert (seen : Std.TreeSet NodeId) (first id : NodeId) :
    (seen.insert first).contains id = (id == first || seen.contains id) := by
  rw [Std.TreeSet.contains_insert, Bool.eq_iff_iff]
  simp only [Bool.or_eq_true, beq_iff_eq, Std.LawfulEqCmp.compare_eq_iff_eq]
  exact or_congr_left ⟨Eq.symm, Eq.symm⟩

/-- The first occurrences in a node, what is below it and the rest, without what was seen by
then. -/
theorem eraseDups_filter_cons_append {first : NodeId} {below rest : List NodeId}
    {kept keptBelow keptRest : NodeId → Bool} (keeps : kept first = true)
    (belowEq : ∀ id, (!id == first && kept id) = keptBelow id)
    (restEq : ∀ id, (!(below.filter keptBelow).elem id && keptBelow id) = keptRest id) :
    ((first :: (below ++ rest)).filter kept).eraseDups =
      first :: ((below.filter keptBelow).eraseDups ++ (rest.filter keptRest).eraseDups) := by
  rw [List.filter_cons_of_pos keeps, List.eraseDups_cons, List.filter_filter,
    List.filter_congr fun id _ => belowEq id, List.filter_append, List.eraseDups_append,
    List.removeAll, List.filter_filter, List.filter_congr fun id _ => restEq id]

/-- Entering lists the nodes that were not seen before, each where it is met first. -/
theorem Settled.entered_eq {seen : Std.TreeSet NodeId} {ids : List NodeId}
    (settled : pool.Settled stop seen ids) :
    (pool.depthFirst stop ids seen).1.filterMap Visit.entered? =
      ((pool.occurrences stop ids).filter fun id => !seen.contains id).eraseDups := by
  fun_induction depthFirst pool stop ids seen with
  | case1 seen => simp [occurrences]
  | case2 first rest seen known ih =>
      have covered : (pool.occurrences stop (pool.expansion stop first)).filter
          (fun id => !seen.contains id) = [] := by
        apply List.filter_eq_nil_iff.mpr
        intro below member
        have isSeen := settled.covered (Std.TreeSet.mem_iff_contains.mpr known) below member
        simp [Std.TreeSet.mem_iff_contains.mp isSeen]
      rw [ih settled.tail, occurrences, List.filter_cons_of_neg (by simp [known]),
        List.filter_append, covered, List.nil_append]
  | case3 first rest seen unknown below later ihBelow ihLater =>
      have memBelow := settled.entered.mem_depthFirst
      have notSeen : (!seen.contains first) = true := by
        simpa only [Bool.not_eq_true', Bool.not_eq_true] using unknown
      have belowEq : ∀ id, (!id == first && !seen.contains id) =
          !(seen.insert first).contains id := by
        intro id
        rw [contains_insert, Bool.not_or]
      -- What the rest does not list again is what was seen before or is below the node.
      have restEq : ∀ id, (!((pool.occurrences stop (pool.expansion stop first)).filter
          fun id => !(seen.insert first).contains id).elem id && !(seen.insert first).contains id) =
            !below.2.contains id := by
        intro id
        cases known : (seen.insert first).contains id with
        | true =>
            have kept := (memBelow id).mpr (Or.inl (Std.TreeSet.mem_iff_contains.mpr known))
            rw [Std.TreeSet.mem_iff_contains.mp kept, Bool.not_true, Bool.and_false]
        | false =>
            have notKnown : id ∉ seen.insert first := fun member => by
              rw [Std.TreeSet.mem_iff_contains.mp member] at known
              cases known
            have seenBelow : below.2.contains id =
                (pool.occurrences stop (pool.expansion stop first)).elem id := by
              rw [Bool.eq_iff_iff, ← Std.TreeSet.mem_iff_contains, memBelow, List.elem_iff]
              exact ⟨fun member => member.resolve_left notKnown, Or.inr⟩
            rw [seenBelow, Bool.not_false, Bool.and_true, Bool.eq_iff_iff, Bool.not_eq_true',
              Bool.not_eq_true', ← Bool.not_eq_true, ← Bool.not_eq_true, List.elem_iff,
              List.elem_iff, List.mem_filter, known]
            exact not_congr (and_iff_left rfl)
      rw [occurrences, eraseDups_filter_cons_append notSeen belowEq restEq,
        ← ihBelow settled.entered, ← ihLater (settled.left memBelow)]
      simp [below, later, List.filterMap_cons]

/-- The order of entering lists the nodes below a root, each where it is met first. -/
theorem WellFormed.preOrder_eq (wf : pool.WellFormed) {root : NodeId}
    (present : pool.contains root = true) :
    pool.preOrder root = .ok (pool.occurrences (fun _ => false) [root]).eraseDups := by
  have settled : pool.Settled (fun _ => false) ∅ [root] := by
    intro known member
    exact absurd member Std.TreeSet.not_mem_emptyc
  have entered := settled.entered_eq
  rw [List.filter_eq_self.mpr fun id _ => by simp] at entered
  rw [preOrder_eq_tour, wf.tour_eq present, Except.map, entered]

/-! ### The order of leaving -/

/-- Everything that a tour visits below a node of the list is done when its place is reached. -/
def ChildrenFirst (pool : Pool) (stop : NodeId → Bool) : (NodeId → Prop) → List NodeId → Prop
  | _, [] => True
  | done, id :: rest =>
    (∀ child ∈ pool.expansion stop id, done child) ∧
      pool.ChildrenFirst stop (fun other => other = id ∨ done other) rest

/-- An order stays one of children first if more is done beforehand. -/
theorem ChildrenFirst.mono {done more : NodeId → Prop} {order : List NodeId}
    (ordered : pool.ChildrenFirst stop done order) (weaker : ∀ id, done id → more id) :
    pool.ChildrenFirst stop more order := by
  induction order generalizing done more with
  | nil => trivial
  | cons id rest ih =>
      refine ⟨fun child member => weaker child (ordered.1 child member), ih ordered.2 ?_⟩
      intro other
      exact Or.imp_right (weaker other)

/-- One order after another is an order of children first. -/
theorem ChildrenFirst.append {done : NodeId → Prop} {first second : List NodeId}
    (firstOrdered : pool.ChildrenFirst stop done first)
    (secondOrdered : pool.ChildrenFirst stop (fun id => id ∈ first ∨ done id) second) :
    pool.ChildrenFirst stop done (first ++ second) := by
  induction first generalizing done with
  | nil => exact secondOrdered.mono fun id => Or.rec nofun fun isDone => isDone
  | cons id rest ih =>
      refine ⟨firstOrdered.1, ih firstOrdered.2 (secondOrdered.mono fun other => ?_)⟩
      rintro (member | isDone)
      · rcases List.mem_cons.mp member with same | later
        · exact Or.inr (Or.inl same)
        · exact Or.inl later
      · exact Or.inr (Or.inr isDone)

/-- The nodes of a forest in the order in which a tour leaves them. -/
def leftOrder (pool : Pool) (stop : NodeId → Bool) (ids : List NodeId)
    (seen : Std.TreeSet NodeId) : List NodeId :=
  (pool.depthFirst stop ids seen).1.filterMap Visit.left?

theorem leftOrder_nil (seen : Std.TreeSet NodeId) : pool.leftOrder stop [] seen = [] := by
  rw [leftOrder, depthFirst, List.filterMap_nil]

/-- A node that was seen is not left again. -/
theorem leftOrder_of_seen {seen : Std.TreeSet NodeId} {id : NodeId} {rest : List NodeId}
    (known : seen.contains id = true) :
    pool.leftOrder stop (id :: rest) seen = pool.leftOrder stop rest seen := by
  rw [leftOrder, depthFirst, if_pos known, leftOrder]

/-- A new node is left after what is below it and before the rest. -/
theorem leftOrder_of_unseen {seen : Std.TreeSet NodeId} {id : NodeId} {rest : List NodeId}
    (unknown : ¬seen.contains id = true) :
    pool.leftOrder stop (id :: rest) seen =
      pool.leftOrder stop (pool.expansion stop id) (seen.insert id) ++
        id :: pool.leftOrder stop rest
          (pool.depthFirst stop (pool.expansion stop id) (seen.insert id)).2 := by
  rw [leftOrder, depthFirst, if_neg unknown]
  simp [leftOrder, List.filterMap_cons]

/-- What is seen in the end was seen before or is left on the way. -/
theorem seen_or_left {seen : Std.TreeSet NodeId} {ids : List NodeId} {id : NodeId}
    (member : id ∈ (pool.depthFirst stop ids seen).2) :
    id ∈ seen ∨ id ∈ pool.leftOrder stop ids seen := by
  fun_induction depthFirst pool stop ids seen with
  | case1 seen => exact Or.inl member
  | case2 first rest seen known ih =>
      rw [leftOrder_of_seen known]
      exact ih member
  | case3 first rest seen unknown below later ihBelow ihLater =>
      rw [leftOrder_of_unseen unknown, List.mem_append, List.mem_cons]
      rcases ihLater member with earlier | isLater
      · rcases ihBelow earlier with old | isBelow
        · rcases Std.TreeSet.mem_insert.mp old with same | older
          · exact Or.inr (Or.inr (Or.inl (Std.LawfulEqCmp.eq_of_compare same).symm))
          · exact Or.inl older
        · exact Or.inr (Or.inl isBelow)
      · exact Or.inr (Or.inr (Or.inr isLater))

/-- Only nodes of the forest are left. -/
theorem mem_occurrences_of_left {seen : Std.TreeSet NodeId} {ids : List NodeId} {id : NodeId}
    (member : id ∈ pool.leftOrder stop ids seen) : id ∈ pool.occurrences stop ids := by
  fun_induction depthFirst pool stop ids seen with
  | case1 seen =>
      rw [leftOrder_nil] at member
      cases member
  | case2 first rest seen known ih =>
      rw [leftOrder_of_seen known] at member
      rw [occurrences]
      exact List.mem_cons_of_mem _ (List.mem_append_right _ (ih member))
  | case3 first rest seen unknown below later ihBelow ihLater =>
      rw [leftOrder_of_unseen unknown] at member
      rw [occurrences, List.mem_cons, List.mem_append]
      rcases List.mem_append.mp member with isBelow | last
      · exact Or.inr (Or.inl (ihBelow isBelow))
      · rcases List.mem_cons.mp last with same | isLater
        · exact Or.inl same
        · exact Or.inr (Or.inr (ihLater isLater))

/-- Leaving lists every node after its operands, if the seen nodes that are not younger than the
forest are done. -/
theorem childrenFirst_leftOrder {seen : Std.TreeSet NodeId} {ids : List NodeId}
    {done : NodeId → Prop} (isDone : ∀ known ∈ seen, (∃ id ∈ ids, known ≤ id) → done known) :
    pool.ChildrenFirst stop done (pool.leftOrder stop ids seen) ∧
      ∀ id ∈ ids, id ∈ pool.leftOrder stop ids seen ∨ done id := by
  fun_induction depthFirst pool stop ids seen generalizing done with
  | case1 seen =>
      rw [leftOrder_nil]
      exact ⟨trivial, nofun⟩
  | case2 first rest seen known ih =>
      rw [leftOrder_of_seen known]
      obtain ⟨ordered, covered⟩ := ih fun other member ⟨id, isRest, le⟩ =>
        isDone other member ⟨id, List.mem_cons_of_mem _ isRest, le⟩
      refine ⟨ordered, fun id member => ?_⟩
      rcases List.mem_cons.mp member with rfl | isRest
      · exact Or.inr (isDone id (Std.TreeSet.mem_iff_contains.mpr known)
          ⟨id, List.mem_cons_self, Nat.le_refl id⟩)
      · exact covered id isRest
  | case3 first rest seen unknown below later ihBelow =>
      rename_i ihLater
      rw [leftOrder_of_unseen unknown]
      -- Below the node, the node itself does not count as seen: it is younger.
      have doneBelow : ∀ known ∈ seen.insert first,
          (∃ id ∈ pool.expansion stop first, known ≤ id) → done known := by
        rintro known member ⟨child, isChild, le⟩
        have older : known < first := Nat.lt_of_le_of_lt le (lt_of_mem_expansion isChild)
        rcases Std.TreeSet.mem_insert.mp member with same | old
        · have : first = known := Std.LawfulEqCmp.eq_of_compare same
          exact absurd older (this ▸ Nat.lt_irrefl _)
        · exact isDone known old ⟨first, List.mem_cons_self, Nat.le_of_lt older⟩
      obtain ⟨orderedBelow, coveredBelow⟩ := ihBelow doneBelow
      have doneLater : ∀ known ∈ below.2, (∃ id ∈ rest, known ≤ id) →
          known = first ∨ known ∈ pool.leftOrder stop (pool.expansion stop first)
            (seen.insert first) ∨ done known := by
        rintro known member ⟨id, isRest, le⟩
        rcases seen_or_left member with entered | isBelow
        · rcases Std.TreeSet.mem_insert.mp entered with same | old
          · exact Or.inl (Std.LawfulEqCmp.eq_of_compare same).symm
          · exact Or.inr (Or.inr (isDone known old ⟨id, List.mem_cons_of_mem _ isRest, le⟩))
        · exact Or.inr (Or.inl isBelow)
      obtain ⟨orderedLater, coveredLater⟩ := ihLater doneLater
      refine ⟨orderedBelow.append ⟨coveredBelow, orderedLater⟩, fun id member => ?_⟩
      rw [List.mem_append, List.mem_cons]
      rcases List.mem_cons.mp member with same | isRest
      · exact Or.inl (Or.inr (Or.inl same))
      · rcases coveredLater id isRest with isLater | same | isBelow | already
        · exact Or.inl (Or.inr (Or.inr isLater))
        · exact Or.inl (Or.inr (Or.inl same))
        · exact Or.inl (Or.inl isBelow)
        · exact Or.inr already

/-- The order of leaving is the one of the recursion. -/
theorem WellFormed.postOrderUntil_eq (wf : pool.WellFormed) {root : NodeId}
    (present : pool.contains root = true) (stop : NodeId → Bool) :
    pool.postOrderUntil stop root = .ok (pool.leftOrder stop [root] ∅) := by
  rw [postOrderUntil_eq_tour, wf.tour_eq present, Except.map, leftOrder]

/-- The order of leaving lists nodes below a root, each after its operands, and the root. -/
theorem WellFormed.postOrderUntil_spec (wf : pool.WellFormed) {root : NodeId}
    (present : pool.contains root = true) (stop : NodeId → Bool) :
    ∃ order, pool.postOrderUntil stop root = .ok order ∧
      pool.ChildrenFirst stop (fun _ => False) order ∧ root ∈ order ∧
      ∀ id ∈ order, id ∈ pool.occurrences stop [root] := by
  have noneDone : ∀ known ∈ (∅ : Std.TreeSet NodeId), (∃ id ∈ [root], known ≤ id) → False :=
    fun known member _ => absurd member Std.TreeSet.not_mem_emptyc
  obtain ⟨ordered, covered⟩ := childrenFirst_leftOrder noneDone
  exact ⟨pool.leftOrder stop [root] ∅, wf.postOrderUntil_eq present stop, ordered,
    (covered root List.mem_cons_self).resolve_right id, fun id => mem_occurrences_of_left⟩

end Pool

end Shading
