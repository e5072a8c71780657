import Shading.Pool.Traversal

/-!
# Tours

A tour enters and leaves every node below a root, and lists both. It passes over a node that was
seen before only when its turn comes, and so its pending visits are easier to speak about than
those of the two traversals, which also leave out the operands seen by then. Leaving these out
changes nothing (`Pool.tourFrom_congr`): in every pool, the order of leaving is what a tour leaves
(`Pool.postOrderUntil_eq_tour`), and a collection keeps a part of what a tour enters
(`Pool.collect_eq_preOrder`).
-/

namespace Shading

namespace Visit

/-- The node of a visit that enters it. -/
def entered? : Visit → Option NodeId
  | enter id => some id
  | leave _ => none

/-- The node of a visit that leaves it. -/
def left? : Visit → Option NodeId
  | enter _ => none
  | leave id => some id

@[simp]
theorem entered?_enter (id : NodeId) : (enter id).entered? = some id := rfl

@[simp]
theorem entered?_leave (id : NodeId) : (leave id).entered? = none := rfl

@[simp]
theorem left?_enter (id : NodeId) : (enter id).left? = none := rfl

@[simp]
theorem left?_leave (id : NodeId) : (leave id).left? = some id := rfl

/-- Whether a pending visit is still made: a node that was seen is not entered again. -/
def due (seen : Std.TreeSet NodeId) : Visit → Bool
  | enter id => !seen.contains id
  | leave _ => true

/-- A node that was not seen is still entered. -/
theorem due_enter {seen : Std.TreeSet NodeId} {id : NodeId}
    (unknown : ¬seen.contains id = true) : (enter id).due seen = true := by
  rw [due, Bool.not_eq_true']
  exact Bool.eq_false_iff.mpr unknown

/-- What is due after a node was entered was due before. -/
theorem due_of_due_insert {seen : Std.TreeSet NodeId} {id : NodeId} {visit : Visit}
    (isDue : visit.due (seen.insert id) = true) : visit.due seen = true := by
  cases visit with
  | leave other => rfl
  | enter other =>
      simp only [due, Std.TreeSet.contains_insert, Bool.not_or, Bool.and_eq_true] at isDue ⊢
      exact isDue.2

/-- Lists with the same due visits have the same due visits after a node was entered. -/
theorem filter_due_insert {seen : Std.TreeSet NodeId} {first second : List Visit}
    (same : first.filter (due seen) = second.filter (due seen)) (id : NodeId) :
    first.filter (due (seen.insert id)) = second.filter (due (seen.insert id)) := by
  have narrower : ∀ visits : List Visit, visits.filter (due (seen.insert id)) =
      (visits.filter (due seen)).filter (due (seen.insert id)) := by
    intro visits
    rw [List.filter_filter]
    apply List.filter_congr
    intro visit _
    cases isDue : visit.due (seen.insert id) with
    | false => rfl
    | true => rw [due_of_due_insert isDue, Bool.and_self]
  rw [narrower first, narrower second, same]

end Visit

namespace Pool

variable {pool : Pool} {stop : NodeId → Bool} {seen : Std.TreeSet NodeId}

/-- Continues a tour with pending visits, given the nodes entered so far and the visits made so
far, last first. Nothing below a node at which `stop` holds is visited. -/
def tourFrom (pool : Pool) (stop : NodeId → Bool) :
    List Visit → Std.TreeSet NodeId → List Visit → Except Error (List Visit)
  | [], _, made => .ok made.reverse
  | .leave id :: pending, seen, made => pool.tourFrom stop pending seen (.leave id :: made)
  | .enter id :: pending, seen, made =>
    if seen.contains id then pool.tourFrom stop pending seen made
    else if !pool.contains id then .error (.unknownNode id)
    else if stop id then
      pool.tourFrom stop (.leave id :: pending) (seen.insert id) (.enter id :: made)
    else
      pool.tourFrom stop ((pool.operands id).map .enter ++ .leave id :: pending)
        (seen.insert id) (.enter id :: made)
termination_by pending => pool.pendingWeight pending
decreasing_by
  · exact pool.pendingWeight_leave id pending
  · exact pool.pendingWeight_enter id pending
  · exact pool.pendingWeight_expand id pending [] (List.nil_sublist _)
  · exact pool.pendingWeight_expand id pending _ (List.Sublist.refl _)

/-- The depth-first tour of the graph below a node. Nothing below a node at which `stop` holds is
visited. -/
def tour (pool : Pool) (stop : NodeId → Bool) (root : NodeId) : Except Error (List Visit) :=
  pool.tourFrom stop [.enter root] ∅ []

/-- The nodes that a tour visits below a node. -/
def expansion (pool : Pool) (stop : NodeId → Bool) (id : NodeId) : List NodeId :=
  if stop id then [] else pool.operands id

/-- A node of the pool that was not seen is entered, and left after what is visited below it. -/
theorem tourFrom_enter {id : NodeId} (unknown : ¬seen.contains id = true)
    (present : pool.contains id = true) (pending made : List Visit) :
    pool.tourFrom stop (.enter id :: pending) seen made =
      pool.tourFrom stop ((pool.expansion stop id).map .enter ++ .leave id :: pending)
        (seen.insert id) (.enter id :: made) := by
  rw [tourFrom, if_neg unknown, present]
  unfold expansion
  by_cases stops : stop id = true
  · simp [stops]
  · simp [stops]

/-! ### Visits that are not due -/

/-- Visits that are not due are passed over. -/
theorem tourFrom_skip {skipped : List Visit} (notDue : ∀ visit ∈ skipped, ¬visit.due seen = true)
    (pending made : List Visit) :
    pool.tourFrom stop (skipped ++ pending) seen made = pool.tourFrom stop pending seen made := by
  induction skipped with
  | nil => rfl
  | cons visit rest ih =>
      have notDueRest := fun later member => notDue later (List.mem_cons_of_mem _ member)
      cases visit with
      | leave id => exact absurd rfl (notDue (.leave id) List.mem_cons_self)
      | enter id =>
          have known : seen.contains id = true := by
            simpa [Visit.due] using notDue (.enter id) List.mem_cons_self
          rw [List.cons_append, tourFrom, if_pos known, ih notDueRest]

/-- A list that is due to begin with a visit goes on with it, after visits that are not due. -/
theorem exists_of_due_cons {visit : Visit} {pending others : List Visit}
    (isDue : visit.due seen = true)
    (same : (visit :: pending).filter (Visit.due seen) = others.filter (Visit.due seen)) :
    ∃ rest, pending.filter (Visit.due seen) = rest.filter (Visit.due seen) ∧
      ∀ (pool : Pool) (stop : NodeId → Bool) (made : List Visit),
        pool.tourFrom stop others seen made = pool.tourFrom stop (visit :: rest) seen made := by
  rw [List.filter_cons_of_pos isDue] at same
  obtain ⟨skipped, rest, rfl, notDue, -, sameRest⟩ := List.filter_eq_cons_iff.mp same.symm
  exact ⟨rest, sameRest.symm, fun pool stop made => tourFrom_skip notDue _ made⟩

/-- A tour depends only on the pending visits that are due. -/
theorem tourFrom_congr {first second : List Visit} (made : List Visit)
    (same : first.filter (Visit.due seen) = second.filter (Visit.due seen)) :
    pool.tourFrom stop first seen made = pool.tourFrom stop second seen made := by
  -- The induction is on one of the lists. The other one is any list with the same due visits, and
  -- its visits before the first due one are passed over at each step.
  fun_induction tourFrom pool stop first seen made generalizing second with
  | case1 seen made =>
      have notDue := List.filter_eq_nil_iff.mp same.symm
      rw [← List.append_nil second, tourFrom_skip notDue, tourFrom]
  | case2 id pending seen made ih =>
      obtain ⟨rest, sameRest, begins⟩ := exists_of_due_cons rfl same
      rw [begins, tourFrom]
      exact ih sameRest
  | case3 id pending seen made known ih =>
      rw [List.filter_cons_of_neg (by simp [Visit.due, known])] at same
      exact ih same
  | case4 id pending seen made unknown missing =>
      obtain ⟨rest, -, begins⟩ := exists_of_due_cons (Visit.due_enter unknown) same
      rw [begins, tourFrom, if_neg unknown, if_pos missing]
  | case5 id pending seen made unknown present stops ih =>
      obtain ⟨rest, sameRest, begins⟩ := exists_of_due_cons (Visit.due_enter unknown) same
      have later := Visit.filter_due_insert sameRest id
      rw [begins, tourFrom_enter unknown (by simpa using present), expansion, if_pos stops]
      apply ih
      rw [List.map_nil, List.nil_append, List.filter_cons_of_pos rfl, List.filter_cons_of_pos rfl,
        later]
  | case6 id pending seen made unknown present goesOn ih =>
      obtain ⟨rest, sameRest, begins⟩ := exists_of_due_cons (Visit.due_enter unknown) same
      have later := Visit.filter_due_insert sameRest id
      rw [begins, tourFrom_enter unknown (by simpa using present), expansion, if_neg goesOn]
      apply ih
      rw [List.filter_append, List.filter_append, List.filter_cons_of_pos rfl,
        List.filter_cons_of_pos rfl, later]

/-- Leaving out the operands that are seen changes nothing in a tour. -/
theorem tourFrom_unseenOperands (id : NodeId) (pending made : List Visit) :
    pool.tourFrom stop ((pool.unseenOperands seen id).map .enter ++ pending) seen made =
      pool.tourFrom stop ((pool.operands id).map .enter ++ pending) seen made := by
  apply tourFrom_congr
  have entersDue : Visit.due seen ∘ Visit.enter = fun child => !seen.contains child := rfl
  rw [List.filter_append, List.filter_append, List.filter_map, List.filter_map, entersDue,
    unseenOperands, List.filter_filter]
  simp only [Bool.and_self]

/-! ### The order of leaving -/

/-- The order of leaving is continued as a tour leaves the nodes. -/
theorem postOrderFrom_eq_tourFrom {pending made : List Visit} {order : List NodeId}
    (left : made.filterMap Visit.left? = order) :
    pool.postOrderFrom stop pending seen order =
      (pool.tourFrom stop pending seen made).map (·.filterMap Visit.left?) := by
  fun_induction postOrderFrom pool stop pending seen order generalizing made with
  | case1 seen order => rw [tourFrom, Except.map, List.filterMap_reverse, left]
  | case2 id pending seen order ih =>
      rw [tourFrom]
      exact ih (by rw [List.filterMap_cons_some (Visit.left?_leave id), left])
  | case3 id pending seen order known ih =>
      rw [tourFrom, if_pos known]
      exact ih left
  | case4 id pending seen order unknown missing =>
      rw [tourFrom, if_neg unknown, if_pos missing, Except.map]
  | case5 id pending seen order unknown present stops ih =>
      rw [tourFrom, if_neg unknown, if_neg present, if_pos stops]
      exact ih (by rw [List.filterMap_cons_none (Visit.left?_enter id), left])
  | case6 id pending seen order unknown present goesOn ih =>
      rw [tourFrom, if_neg unknown, if_neg present, if_neg goesOn, ← tourFrom_unseenOperands]
      exact ih (by rw [List.filterMap_cons_none (Visit.left?_enter id), left])

/-- In every pool, the order of leaving is what a tour leaves. -/
theorem postOrderUntil_eq_tour (pool : Pool) (stop : NodeId → Bool) (root : NodeId) :
    pool.postOrderUntil stop root = (pool.tour stop root).map (·.filterMap Visit.left?) :=
  postOrderFrom_eq_tourFrom rfl

/-! ### The order of entering -/

/-- Nodes are left one after the other. -/
theorem tourFrom_leave {leaving : List Visit} (leaves : ∀ visit ∈ leaving, visit.entered? = none)
    (pending made : List Visit) :
    pool.tourFrom stop (leaving ++ pending) seen made =
      pool.tourFrom stop pending seen (leaving.reverse ++ made) := by
  induction leaving generalizing made with
  | nil => rfl
  | cons visit rest ih =>
      cases visit with
      | enter id => cases leaves (.enter id) List.mem_cons_self
      | leave id =>
          rw [List.cons_append, tourFrom,
            ih fun later member => leaves later (List.mem_cons_of_mem _ member),
            List.reverse_cons, List.append_assoc, List.singleton_append]

/-- Leaving nodes does not change what was entered. -/
theorem filterMap_entered?_leave {leaving : List Visit}
    (leaves : ∀ visit ∈ leaving, visit.entered? = none) (made : List Visit) :
    (leaving.reverse ++ made).filterMap Visit.entered? = made.filterMap Visit.entered? := by
  have none : leaving.reverse.filterMap Visit.entered? = [] := by
    apply List.filterMap_eq_nil_iff.mpr
    intro visit member
    exact leaves visit (List.mem_reverse.mp member)
  rw [List.filterMap_append, none, List.nil_append]

/-- The next node to enter comes after nodes to leave. -/
theorem exists_of_entering_cons {pending : List Visit} {id : NodeId} {ids : List NodeId}
    (entering : pending.filterMap Visit.entered? = id :: ids) :
    ∃ leaving rest, pending = leaving ++ .enter id :: rest ∧
      (∀ visit ∈ leaving, visit.entered? = none) ∧ rest.filterMap Visit.entered? = ids := by
  obtain ⟨leaving, visit, rest, isPending, leaves, isId, enteringRest⟩ :=
    List.filterMap_eq_cons_iff.mp entering
  cases visit with
  | leave other => cases isId
  | enter other =>
      cases isId
      exact ⟨leaving, rest, isPending, leaves, enteringRest⟩

/-- A node is in the pool if it has a structure. -/
theorem contains_eq_isSome_node? (pool : Pool) (id : NodeId) :
    pool.contains id = (pool.node? id).isSome := by
  rw [contains, node?, Option.isSome_map]

/-- A collection is continued as a tour enters the nodes. The predicate on nodes is given as one
on identities, which may be anything where the pool has no node. -/
theorem collectFrom_eq_tourFrom {keep : Node → Bool} {keepId : NodeId → Bool}
    (same : ∀ id node, pool.node? id = some node → keepId id = keep node)
    {ids kept : List NodeId} {pending made : List Visit}
    (entering : pending.filterMap Visit.entered? = ids)
    (entered : (made.filterMap Visit.entered?).filter keepId = kept) :
    pool.collectFrom keep ids seen kept =
      (pool.tourFrom (fun _ => false) pending seen made).map
        fun visits => (visits.filterMap Visit.entered?).filter keepId := by
  -- The tour has nodes to leave as well; those before the next node to enter are left first.
  fun_induction collectFrom pool keep ids seen kept generalizing pending made with
  | case1 seen kept =>
      have leaves := List.filterMap_eq_nil_iff.mp entering
      rw [← List.append_nil pending, tourFrom_leave leaves, tourFrom, Except.map,
        List.filterMap_reverse, List.filter_reverse, filterMap_entered?_leave leaves, entered]
  | case2 id ids seen kept known ih =>
      obtain ⟨leaving, rest, rfl, leaves, enteringRest⟩ := exists_of_entering_cons entering
      rw [tourFrom_leave leaves, tourFrom, if_pos known]
      exact ih enteringRest (by rw [filterMap_entered?_leave leaves, entered])
  | case3 id ids seen kept unknown missing =>
      obtain ⟨leaving, rest, rfl, leaves, -⟩ := exists_of_entering_cons entering
      have absent : pool.contains id = false := by
        rw [contains_eq_isSome_node?, missing, Option.isSome_none]
      rw [tourFrom_leave leaves, tourFrom, if_neg unknown, absent, Bool.not_false, if_pos rfl,
        Except.map]
  | case4 id ids seen kept unknown node found ih =>
      obtain ⟨leaving, rest, rfl, leaves, enteringRest⟩ := exists_of_entering_cons entering
      have present : pool.contains id = true := by
        rw [contains_eq_isSome_node?, found, Option.isSome_some]
      rw [tourFrom_leave leaves, tourFrom_enter unknown present, expansion,
        if_neg Bool.false_ne_true, ← tourFrom_unseenOperands]
      apply ih
      · have entersAll : Visit.entered? ∘ Visit.enter = some := rfl
        rw [List.filterMap_append, List.filterMap_map, entersAll, List.filterMap_some,
          List.filterMap_cons_none (Visit.entered?_leave id), enteringRest]
      · rw [List.filterMap_cons_some (Visit.entered?_enter id), filterMap_entered?_leave leaves,
          List.filter_cons, same id node found, entered, dite_eq_ite]

/-- In every pool, a collection is the part of what a tour enters that satisfies the predicate. -/
theorem collect_eq_tour {keep : Node → Bool} {keepId : NodeId → Bool}
    (same : ∀ id node, pool.node? id = some node → keepId id = keep node) (root : NodeId) :
    pool.collect root keep = (pool.tour (fun _ => false) root).map
      fun visits => (visits.filterMap Visit.entered?).filter keepId :=
  collectFrom_eq_tourFrom same rfl rfl

/-- In every pool, the order of entering is what a tour enters. -/
theorem preOrder_eq_tour (pool : Pool) (root : NodeId) :
    pool.preOrder root = (pool.tour (fun _ => false) root).map (·.filterMap Visit.entered?) := by
  have collected : pool.preOrder root = (pool.tour (fun _ => false) root).map
      fun visits => (visits.filterMap Visit.entered?).filter fun _ => true :=
    collect_eq_tour (fun _ _ _ => rfl) root
  have all : ∀ ids : List NodeId, ids.filter (fun _ => true) = ids :=
    fun ids => List.filter_eq_self.mpr fun _ _ => rfl
  simpa only [all] using collected

/-- In every pool, a collection is the part of the order of entering that satisfies the
predicate. -/
theorem collect_eq_preOrder (pool : Pool) (root : NodeId) (keep : Node → Bool) :
    pool.collect root keep =
      (pool.preOrder root).map (·.filter fun id => (pool.node? id).any keep) := by
  have same : ∀ id node, pool.node? id = some node → (pool.node? id).any keep = keep node := by
    intro id node found
    rw [found, Option.any_some]
  rw [collect_eq_tour same, preOrder_eq_tour]
  cases pool.tour (fun _ => false) root with
  | error cause => rfl
  | ok visits => rfl

end Pool

end Shading
